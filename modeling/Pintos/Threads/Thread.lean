import Mathlib.Logic.Function.Basic
import Mathlib.Data.List.Basic

/-! The part of the kernel that `threads/thread.c` and `threads/synch.c` own: each thread's
status, `all_list`, `ready_list`, the running thread and every semaphore's `waiters`.
A thread is named by its tid, which stands for its page. -/
namespace Pintos.Threads

abbrev Tid := Nat

/-- `thread_init` gives the boot code the first tid, and `thread_start` the idle thread the next. -/
def initialTid : Tid := 1
def idleTid : Tid := 2

inductive Status where
  | running | ready | blocked | dying
  deriving DecidableEq, Repr

/-- `struct semaphore`; `waiters` is in the order `sema_down` queued the threads. -/
structure Semaphore where
  value : Nat
  waiters : List Tid
  deriving DecidableEq, Repr

def semaInit (value : Nat) : Semaphore := ⟨value, []⟩

/-- Scheduler state over semaphores indexed by `ι`. `status t = none` when no thread page
is allocated for `t`, before `thread_create` or after `thread_schedule_tail` freed it. -/
structure Sched (ι : Type) where
  status : Tid → Option Status
  allList : List Tid
  readyList : List Tid
  running : Tid
  sema : ι → Semaphore
  nextTid : Tid

namespace Sched
variable {ι : Type}

def setStatus (s : Sched ι) (t : Tid) (st : Option Status) : Sched ι :=
  { s with status := Function.update s.status t st }

/-- `switch_threads` to `next`, then `thread_schedule_tail`: `next` is marked running and the
previous thread's page is freed if it is dying, unless it is `initial_thread`. -/
def switchTo (s : Sched ι) (next : Tid) : Sched ι :=
  let t := ({ s with running := next } : Sched ι).setStatus next (some .running)
  if s.running ≠ next ∧ s.status s.running = some .dying ∧ s.running ≠ initialTid then
    t.setStatus s.running none
  else t

/-- `schedule`, whose `next_thread_to_run` pops the front of `ready_list` or, when it is
empty, returns the idle thread. -/
def schedule (s : Sched ι) : Sched ι :=
  match s.readyList with
  | [] => s.switchTo idleTid
  | t :: rest => ({ s with readyList := rest } : Sched ι).switchTo t

def threadBlock (s : Sched ι) : Sched ι :=
  (s.setStatus s.running (some .blocked)).schedule

/-- `thread_unblock`; `none` when its `ASSERT (t->status == THREAD_BLOCKED)` fails. -/
def threadUnblock (s : Sched ι) (t : Tid) : Option (Sched ι) :=
  if s.status t = some .blocked then
    some (({ s with readyList := s.readyList ++ [t] } : Sched ι).setStatus t (some .ready))
  else none

/-- `thread_yield`: the idle thread becomes ready but is never put on `ready_list`. -/
def threadYield (s : Sched ι) : Sched ι :=
  let s' : Sched ι :=
    if s.running = idleTid then s else { s with readyList := s.readyList ++ [s.running] }
  (s'.setStatus s.running (some .ready)).schedule

/-- `init_thread` on a fresh page and `allocate_tid`: a blocked thread on `all_list`. -/
def threadAlloc (s : Sched ι) : Sched ι × Tid :=
  (({ s with allList := s.allList ++ [s.nextTid], nextTid := s.nextTid + 1 } : Sched ι).setStatus
    s.nextTid (some .blocked), s.nextTid)

/-- The end of `thread_exit`: off `all_list`, dying, and switched away from. -/
def threadDie (s : Sched ι) : Sched ι :=
  (({ s with allList := s.allList.erase s.running } : Sched ι).setStatus s.running
    (some .dying)).schedule

@[simp] theorem setStatus_status (s : Sched ι) (t : Tid) (st : Option Status) :
    (s.setStatus t st).status = Function.update s.status t st := rfl
@[simp] theorem setStatus_readyList (s : Sched ι) (t : Tid) (st : Option Status) :
    (s.setStatus t st).readyList = s.readyList := rfl
@[simp] theorem setStatus_running (s : Sched ι) (t : Tid) (st : Option Status) :
    (s.setStatus t st).running = s.running := rfl
@[simp] theorem setStatus_sema (s : Sched ι) (t : Tid) (st : Option Status) :
    (s.setStatus t st).sema = s.sema := rfl
@[simp] theorem setStatus_allList (s : Sched ι) (t : Tid) (st : Option Status) :
    (s.setStatus t st).allList = s.allList := rfl
@[simp] theorem setStatus_nextTid (s : Sched ι) (t : Tid) (st : Option Status) :
    (s.setStatus t st).nextTid = s.nextTid := rfl

variable [DecidableEq ι]

def setSema (s : Sched ι) (i : ι) (m : Semaphore) : Sched ι :=
  { s with sema := Function.update s.sema i m }

@[simp] theorem setSema_sema (s : Sched ι) (i : ι) (m : Semaphore) :
    (s.setSema i m).sema = Function.update s.sema i m := rfl
@[simp] theorem setSema_status (s : Sched ι) (i : ι) (m : Semaphore) :
    (s.setSema i m).status = s.status := rfl
@[simp] theorem setSema_readyList (s : Sched ι) (i : ι) (m : Semaphore) :
    (s.setSema i m).readyList = s.readyList := rfl
@[simp] theorem setSema_running (s : Sched ι) (i : ι) (m : Semaphore) :
    (s.setSema i m).running = s.running := rfl
@[simp] theorem setSema_allList (s : Sched ι) (i : ι) (m : Semaphore) :
    (s.setSema i m).allList = s.allList := rfl
@[simp] theorem setSema_nextTid (s : Sched ι) (i : ι) (m : Semaphore) :
    (s.setSema i m).nextTid = s.nextTid := rfl

/-- The body of the `sema_down` loop while `value` is 0: queue the running thread, block. -/
def semaWait (s : Sched ι) (i : ι) : Sched ι :=
  (s.setSema i { s.sema i with waiters := (s.sema i).waiters ++ [s.running] }).threadBlock

/-- One atomic pass of `sema_down`: either the running thread waits (`false`, it will test
`value` again when it runs), or it decrements `value` and gets past (`true`). -/
def semaDown (s : Sched ι) (i : ι) : Sched ι × Bool :=
  if (s.sema i).value = 0 then (s.semaWait i, false)
  else (s.setSema i { s.sema i with value := (s.sema i).value - 1 }, true)

/-- `sema_up`: unblock the thread that has waited longest, then increment `value`. -/
def semaUp (s : Sched ι) (i : ι) : Option (Sched ι) :=
  match (s.sema i).waiters with
  | [] => some (s.setSema i { s.sema i with value := (s.sema i).value + 1 })
  | t :: rest => (s.setSema i ⟨(s.sema i).value + 1, rest⟩).threadUnblock t

end Sched
end Pintos.Threads
