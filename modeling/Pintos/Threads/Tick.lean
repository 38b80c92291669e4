import Pintos.Threads.Queues
import Pintos.Kit.Fifo
import Mathlib.Data.Fintype.Basic

/-! Time slicing. The timer interrupt counts a tick, charges it to the idle thread, to a user
program or to the kernel, and once the running thread has had `TIME_SLICE` ticks makes it yield
on the way out of the interrupt; every `schedule` starts a new slice. The ready queue is served
from the front and only grows at the back, so a thread on it runs within `TIME_SLICE` timer
ticks for each thread ahead of it and for itself, whatever else happens meanwhile. -/
namespace Pintos.Threads
open Pintos.Kit Sched
variable {ι : Type}

/-- `TIME_SLICE`. -/
def timeSlice : Nat := 4

/-- The scheduler with the counters of thread.c and timer.c and the two flags of interrupt.c
that the timer interrupt drives. -/
structure Ticks (ι : Type) where
  sched : Sched ι
  /-- timer.c's `ticks`, since the OS booted. -/
  ticks : Nat
  /-- thread.c's `thread_ticks`, since the running thread's slice began. -/
  threadTicks : Nat
  idleTicks : Nat
  kernelTicks : Nat
  userTicks : Nat
  inExternalIntr : Bool
  yieldOnReturn : Bool

/-- What happens between two states: a timer interrupt, which finds each thread with or without a
page directory, or one of the operations of `Step`. -/
inductive TickEv (ι : Type) where
  | timer (pagedir : Tid → Bool)
  | create
  | yield
  | block
  | unblock (u : Tid)
  | semaInit (i : ι) (v : Nat)
  | semaDown (i : ι)
  | semaUp (i : ι)
  | exit

def TickEv.isTimer : TickEv ι → Bool
  | .timer _ => true
  | _ => false

namespace Ticks

/-- `intr_yield_on_return`; `none` when its `ASSERT (intr_context ())` fails. -/
def intrYieldOnReturn (c : Ticks ι) : Option (Ticks ι) :=
  if c.inExternalIntr then some { c with yieldOnReturn := true } else none

/-- `thread_tick`: charge the tick to the idle thread, to a user program (a thread with a page
directory) or to the kernel, and ask for a yield once the slice is used up. -/
def threadTick (pagedir : Tid → Bool) (c : Ticks ι) : Option (Ticks ι) :=
  let t := c.sched.running
  let c := if t = idleTid then { c with idleTicks := c.idleTicks + 1 }
    else if pagedir t then { c with userTicks := c.userTicks + 1 }
    else { c with kernelTicks := c.kernelTicks + 1 }
  let c := { c with threadTicks := c.threadTicks + 1 }
  if timeSlice ≤ c.threadTicks then c.intrYieldOnReturn else some c

/-- `timer_interrupt`. -/
def timerInterrupt (pagedir : Tid → Bool) (c : Ticks ι) : Option (Ticks ι) :=
  { c with ticks := c.ticks + 1 }.threadTick pagedir

/-- The state after an operation that does not call `schedule`. -/
def withSched (c : Ticks ι) (s : Sched ι) : Ticks ι := { c with sched := s }

/-- The state after an operation that calls `schedule`, whose `thread_schedule_tail` sets
`thread_ticks` to 0. -/
def rescheduled (c : Ticks ι) (s : Sched ι) : Ticks ι := { c with sched := s, threadTicks := 0 }

/-- `intr_handler` on the timer's vector: enter external-interrupt context, run the handler,
leave the context and yield if the handler asked to. `none` when `ASSERT (!intr_context ())`
fails. -/
def timerIntr (pagedir : Tid → Bool) (c : Ticks ι) : Option (Ticks ι) :=
  if c.inExternalIntr then none
  else ({ c with inExternalIntr := true, yieldOnReturn := false }.timerInterrupt pagedir).map
    fun (c : Ticks ι) =>
      let c : Ticks ι := { c with inExternalIntr := false }
      if c.yieldOnReturn then c.rescheduled c.sched.threadYield else c

/-- `thread_start` returns with every counter 0, outside any interrupt. -/
def boot (v : ι → Nat) : Ticks ι := ⟨Threads.boot v, 0, 0, 0, 0, 0, false, false⟩

/-- The ticks `thread_print_stats` reports, idle, kernel and user together. -/
def charged (c : Ticks ι) : Nat := c.idleTicks + c.kernelTicks + c.userTicks

/-- The timer ticks a thread on `ready_list` may still wait: a slice for each thread ahead of
it, and what is left of the running thread's slice. -/
def waitBound (c : Ticks ι) (t : Tid) : Nat :=
  timeSlice * c.sched.readyList.idxOf t + (timeSlice - c.threadTicks)

section Update
variable (c : Ticks ι) (s : Sched ι)

@[simp] theorem withSched_sched : (c.withSched s).sched = s := rfl
@[simp] theorem withSched_threadTicks : (c.withSched s).threadTicks = c.threadTicks := rfl
@[simp] theorem rescheduled_sched : (c.rescheduled s).sched = s := rfl
@[simp] theorem rescheduled_threadTicks : (c.rescheduled s).threadTicks = 0 := rfl

end Update

variable [DecidableEq ι] [Fintype ι]

/-- One event, under the assumptions `Step` makes of the callers of each operation. -/
def step (c : Ticks ι) : TickEv ι → Option (Ticks ι)
  | .timer pagedir => c.timerIntr pagedir
  | .create =>
    if c.sched.running ≠ idleTid then
      (c.sched.threadAlloc.1.threadUnblock c.sched.threadAlloc.2).map c.withSched
    else none
  | .yield => some (c.rescheduled c.sched.threadYield)
  | .block => some (c.rescheduled c.sched.threadBlock)
  | .unblock u =>
    if u ≠ idleTid ∧ ∀ i, u ∉ (c.sched.sema i).waiters then
      (c.sched.threadUnblock u).map c.withSched
    else none
  | .semaInit i v =>
    if (c.sched.sema i).waiters = [] then some (c.withSched (c.sched.setSema i (semaInit v)))
    else none
  | .semaDown i =>
    -- a thread that gets past the semaphore does not call `schedule`; one that waits blocks
    if c.sched.running ≠ idleTid then
      some (if (c.sched.semaDown i).2 then c.withSched (c.sched.semaDown i).1
        else c.rescheduled (c.sched.semaDown i).1)
    else none
  | .semaUp i => (c.sched.semaUp i).map c.withSched
  | .exit => if c.sched.running ≠ idleTid then some (c.rescheduled c.sched.threadDie) else none

end Ticks

/-! ### How each operation moves the ready queue

Every operation either appends threads behind `ready_list` and keeps the running thread, or
calls `schedule`, which runs the front of the queue (the idle thread when it is empty). -/

namespace Sched
section Queue
variable {s s' : Sched ι} {u : Tid}

theorem schedule_queue (s : Sched ι) :
    s.schedule.readyList = s.readyList.tail ∧ s.schedule.running = s.readyList.headD idleTid := by
  cases h : s.readyList with
  | nil => simp [schedule, h]
  | cons t rest => simp [schedule, h]

theorem threadBlock_queue (s : Sched ι) :
    s.threadBlock.readyList = s.readyList.tail ∧
      s.threadBlock.running = s.readyList.headD idleTid :=
  schedule_queue _

theorem threadDie_queue (s : Sched ι) :
    s.threadDie.readyList = s.readyList.tail ∧ s.threadDie.running = s.readyList.headD idleTid :=
  schedule_queue _

theorem threadYield_queue (s : Sched ι) :
    s.threadYield.readyList =
        (s.readyList ++ if s.running = idleTid then [] else [s.running]).tail ∧
      s.threadYield.running =
        (s.readyList ++ if s.running = idleTid then [] else [s.running]).headD idleTid := by
  by_cases h : s.running = idleTid
  · simpa [threadYield, h] using schedule_queue (s.setStatus idleTid (some .ready))
  · simpa [threadYield, h] using
      schedule_queue (({ s with readyList := s.readyList ++ [s.running] } : Sched ι).setStatus
        s.running (some .ready))

theorem threadUnblock_queue (h : s.threadUnblock u = some s') :
    s'.readyList = s.readyList ++ [u] ∧ s'.running = s.running := by
  unfold threadUnblock at h
  split at h
  · cases h
    exact ⟨rfl, rfl⟩
  · cases h

variable [DecidableEq ι]

theorem semaUp_queue {i : ι} (h : s.semaUp i = some s') :
    (∃ q, s'.readyList = s.readyList ++ q) ∧ s'.running = s.running := by
  unfold semaUp at h
  split at h
  · cases h
    exact ⟨⟨[], by simp⟩, rfl⟩
  · obtain ⟨hq, hr⟩ := threadUnblock_queue h
    exact ⟨⟨_, hq⟩, hr⟩

theorem semaDown_queue (s : Sched ι) (i : ι) :
    if (s.semaDown i).2 then
      (s.semaDown i).1.readyList = s.readyList ∧ (s.semaDown i).1.running = s.running
    else
      (s.semaDown i).1.readyList = s.readyList.tail ∧
        (s.semaDown i).1.running = s.readyList.headD idleTid := by
  unfold semaDown
  split
  · simpa [semaWait] using threadBlock_queue (s.setSema i _)
  · simp

end Queue
end Sched

/-! ### The timer interrupt -/

namespace Ticks
section Timer
variable {c c' : Ticks ι}

/-- `thread_tick` in interrupt context: one more tick of the slice, charged once, and a yield
asked for when the slice is used up. -/
theorem threadTick_some (pagedir : Tid → Bool) (hc : c.inExternalIntr = true) :
    ∃ d, c.threadTick pagedir = some d ∧ d.sched = c.sched ∧ d.ticks = c.ticks ∧
      d.inExternalIntr = true ∧ d.threadTicks = c.threadTicks + 1 ∧ d.charged = c.charged + 1 ∧
      d.yieldOnReturn = (decide (timeSlice ≤ c.threadTicks + 1) || c.yieldOnReturn) := by
  unfold threadTick intrYieldOnReturn charged
  by_cases hs : timeSlice ≤ c.threadTicks + 1 <;>
    by_cases hi : c.sched.running = idleTid <;> by_cases hu : pagedir c.sched.running <;>
    simp [hs, hi, hu, hc] <;> omega
/-- `intr_handler` on the timer: outside interrupt context it counts one tick, charges it once
and either lengthens the slice or, once the slice is used up, yields with a new one. -/
theorem timerIntr_some {pagedir : Tid → Bool} (h : c.timerIntr pagedir = some c') :
    c.inExternalIntr = false ∧ c'.inExternalIntr = false ∧ c'.ticks = c.ticks + 1 ∧
      c'.charged = c.charged + 1 ∧
      (c.threadTicks + 1 < timeSlice ∧ c'.sched = c.sched ∧ c'.threadTicks = c.threadTicks + 1 ∨
        timeSlice ≤ c.threadTicks + 1 ∧ c'.sched = c.sched.threadYield ∧ c'.threadTicks = 0) := by
  unfold timerIntr at h
  split at h
  · cases h
  rename_i hc
  obtain ⟨d, hd, hsched, hticks, -, hslice, hcharged, hyield⟩ :=
    threadTick_some (c := { c with inExternalIntr := true, yieldOnReturn := false, ticks := c.ticks + 1 }) pagedir rfl
  rw [timerInterrupt, hd, Option.map_some] at h
  cases h
  simp only [charged] at hcharged hyield ⊢
  refine ⟨by simpa using hc, ?_⟩
  by_cases hs : timeSlice ≤ c.threadTicks + 1
  · have hy : d.yieldOnReturn = true := by simpa [hs] using hyield
    simp [hy, rescheduled, hsched, hticks, hcharged, hs]
  · have hy : d.yieldOnReturn = false := by simpa [hs] using hyield
    simp [hy, hsched, hticks, hcharged, hslice, hs]
    omega
end Timer

/-! ### One event -/

section Step
variable [DecidableEq ι] [Fintype ι] {c c' : Ticks ι} {e : TickEv ι}

/-- What one event does: a timer interrupt runs `intr_handler`; every other event takes the
scheduler one `Step`, and either appends threads behind `ready_list` and keeps the running
thread and the slice, or calls `schedule` after appending them and starts a new slice. -/
theorem step_cases (h : c.step e = some c') :
    (∃ pagedir, e = .timer pagedir ∧ c.timerIntr pagedir = some c') ∨
      (e.isTimer = false ∧ Step c.sched c'.sched ∧
        ((c' = c.withSched c'.sched ∧ ∃ q, c'.sched.readyList = c.sched.readyList ++ q ∧
            c'.sched.running = c.sched.running) ∨
          (c' = c.rescheduled c'.sched ∧ ∃ q, c'.sched.readyList = (c.sched.readyList ++ q).tail ∧
            c'.sched.running = (c.sched.readyList ++ q).headD idleTid))) := by
  cases e with
  | timer pagedir => exact .inl ⟨pagedir, rfl, h⟩
  | create =>
    simp only [step] at h
    split at h
    · rename_i hr
      obtain ⟨s, hs, rfl⟩ := Option.map_eq_some_iff.mp h
      obtain ⟨hq, hrun⟩ := threadUnblock_queue hs
      exact .inr ⟨rfl, .create hr hs, .inl ⟨rfl, _, hq, hrun⟩⟩
    · cases h
  | yield =>
    cases h
    obtain ⟨hq, hrun⟩ := threadYield_queue c.sched
    exact .inr ⟨rfl, .yield _, .inr ⟨rfl, _, hq, hrun⟩⟩
  | block =>
    cases h
    obtain ⟨hq, hrun⟩ := threadBlock_queue c.sched
    exact .inr ⟨rfl, .block _, .inr ⟨rfl, [], by simpa using hq, by simpa using hrun⟩⟩
  | unblock u =>
    simp only [step] at h
    split at h
    · rename_i hu
      obtain ⟨s, hs, rfl⟩ := Option.map_eq_some_iff.mp h
      obtain ⟨hq, hrun⟩ := threadUnblock_queue hs
      exact .inr ⟨rfl, .unblock hu.1 hu.2 hs, .inl ⟨rfl, _, hq, hrun⟩⟩
    · cases h
  | semaInit i v =>
    simp only [step] at h
    split at h
    · rename_i hw
      cases h
      exact .inr ⟨rfl, .semaInit _ i v hw, .inl ⟨rfl, [], by simp [withSched], rfl⟩⟩
    · cases h
  | semaDown i =>
    simp only [step] at h
    split at h
    · rename_i hr
      cases h
      have hq := semaDown_queue c.sched i
      by_cases hp : (c.sched.semaDown i).2
      · rw [if_pos hp] at hq ⊢
        exact .inr ⟨rfl, .semaDown _ i hr, .inl ⟨rfl, [], by simpa [withSched] using hq.1, hq.2⟩⟩
      · rw [if_neg hp] at hq ⊢
        exact .inr ⟨rfl, .semaDown _ i hr, .inr ⟨rfl, [], by simpa [rescheduled] using hq.1,
          by simpa [rescheduled] using hq.2⟩⟩
    · cases h
  | semaUp i =>
    simp only [step] at h
    obtain ⟨s, hs, rfl⟩ := Option.map_eq_some_iff.mp h
    obtain ⟨hq, hrun⟩ := semaUp_queue hs
    exact .inr ⟨rfl, .semaUp i hs, .inl ⟨rfl, hq.choose, hq.choose_spec, hrun⟩⟩
  | exit =>
    simp only [step] at h
    split at h
    · rename_i hr
      cases h
      obtain ⟨hq, hrun⟩ := threadDie_queue c.sched
      exact .inr ⟨rfl, .exit _ hr, .inr ⟨rfl, [], by simpa using hq, by simpa using hrun⟩⟩
    · cases h
/-- How an event moves the counters: only a timer interrupt adds a tick, and it charges it once;
no event leaves interrupt context open. -/
theorem step_counters (h : c.step e = some c') :
    c'.ticks = c.ticks + (if e.isTimer then 1 else 0) ∧
      c'.charged = c.charged + (if e.isTimer then 1 else 0) ∧
      c'.inExternalIntr = c.inExternalIntr := by
  rcases step_cases h with ⟨pagedir, rfl, ht⟩ | ⟨he, -, ⟨hc, -⟩ | ⟨hc, -⟩⟩
  · obtain ⟨hin, hin', hticks, hcharged, -⟩ := timerIntr_some ht
    simp [TickEv.isTimer, hin, hin', hticks, hcharged]
  · rw [hc]
    simp [he, withSched, charged]
  · rw [hc]
    simp [he, rescheduled, charged]

/-- How an event moves the ready queue and the slice: it appends threads behind the queue and
keeps the running thread, the slice growing by one tick that does not end it if the event is a
timer interrupt; or `schedule` runs the front of the queue after threads were appended, with a
new slice. -/
theorem step_queue (h : c.step e = some c') :
    (∃ q, c'.sched.readyList = c.sched.readyList ++ q ∧ c'.sched.running = c.sched.running ∧
        c'.threadTicks = c.threadTicks + (if e.isTimer then 1 else 0) ∧
        (e.isTimer → c.threadTicks + 1 < timeSlice)) ∨
      (∃ q, c'.sched.readyList = (c.sched.readyList ++ q).tail ∧
        c'.sched.running = (c.sched.readyList ++ q).headD idleTid ∧ c'.threadTicks = 0) := by
  rcases step_cases h with ⟨pagedir, rfl, ht⟩ | ⟨he, -, ⟨hc, q, hq, hr⟩ | ⟨hc, q, hq, hr⟩⟩
  · obtain ⟨-, -, -, -, ⟨hs, hsched, htt⟩ | ⟨-, hsched, htt⟩⟩ := timerIntr_some ht
    · exact .inl ⟨[], by simp [hsched], by simp [hsched], by simp [TickEv.isTimer, htt],
        fun _ => hs⟩
    · obtain ⟨hq, hr⟩ := threadYield_queue c.sched
      exact .inr ⟨_, by rw [hsched, hq], by rw [hsched, hr], htt⟩
  · exact .inl ⟨q, hq, hr, by rw [hc]; simp [he], by simp [he]⟩
  · exact .inr ⟨q, hq, hr, by rw [hc]; simp⟩

/-- The scheduler under time slicing moves as `Step` does: a timer interrupt leaves it or makes
the running thread yield. -/
theorem step_sched (h : c.step e = some c') : Relation.ReflTransGen Step c.sched c'.sched := by
  rcases step_cases h with ⟨pagedir, rfl, ht⟩ | ⟨-, hs, -⟩
  · obtain ⟨-, -, -, -, ⟨-, hsched, -⟩ | ⟨-, hsched, -⟩⟩ := timerIntr_some ht
    · rw [hsched]
    · rw [hsched]
      exact .single (.yield _)
  · exact .single hs

end Step

/-! ### Every run -/

/-- What holds between events: the queue invariant, a slice shorter than `TIME_SLICE`, no
interrupt context left open, and every tick charged once. -/
structure Inv (c : Ticks ι) : Prop where
  queues : QueueInv c.sched
  slice : c.threadTicks < timeSlice
  outside : c.inExternalIntr = false
  accounted : c.charged = c.ticks

section Run
variable {c c' : Ticks ι} {e : TickEv ι}

theorem boot_inv (v : ι → Nat) : (boot v).Inv :=
  ⟨boot_queueInv v, by simp [boot, timeSlice], rfl, rfl⟩

variable [DecidableEq ι]

theorem queueInv_of_steps {s t : Sched ι} (h : QueueInv s) (hs : Relation.ReflTransGen Step s t) :
    QueueInv t := by
  induction hs with
  | refl => exact h
  | tail _ hst ih => exact step_queueInv ih hst

variable [Fintype ι]

theorem step_slice (hs : c.threadTicks < timeSlice) (h : c.step e = some c') :
    c'.threadTicks < timeSlice := by
  rcases step_queue h with ⟨q, -, -, htt, hsl⟩ | ⟨q, -, -, htt⟩
  · cases hti : e.isTimer
    · simpa [hti, htt] using hs
    · simpa [hti, htt] using hsl hti
  · simp [htt, timeSlice]

theorem step_inv (hc : c.Inv) (h : c.step e = some c') : c'.Inv := by
  obtain ⟨hticks, hcharged, hin⟩ := step_counters h
  refine ⟨?_, step_slice hc.slice h, hin.trans hc.outside, by rw [hcharged, hticks, hc.accounted]⟩
  exact queueInv_of_steps hc.queues (step_sched h)

/-- One event, seen by a thread waiting on `ready_list`: the thread runs, or it still waits and
its bound dropped by the tick the event took. -/
theorem step_waitBound {t : Tid} (hs : c.threadTicks < timeSlice) (ht : t ∈ c.sched.readyList)
    (h : c.step e = some c') :
    c'.sched.running = t ∨ ((c'.threadTicks < timeSlice ∧ t ∈ c'.sched.readyList) ∧
      c'.waitBound t + (if e.isTimer then 1 else 0) ≤ c.waitBound t) := by
  rcases step_queue h with ⟨q, hq, -, htt, hsl⟩ | ⟨q, hq, hr, htt⟩
  · -- threads only joined behind `t`, and the slice took at most the event's tick
    have hidx : c'.sched.readyList.idxOf t = c.sched.readyList.idxOf t := by
      rw [hq, List.idxOf_append_of_mem ht]
    refine .inr ⟨⟨step_slice hs h, by rw [hq]; exact List.mem_append_left _ ht⟩, ?_⟩
    unfold waitBound
    rw [hidx, htt]
    cases hti : e.isTimer
    · simp
    · have := hsl hti
      simp only [if_true, timeSlice] at this ⊢
      omega
  · -- `schedule` took the front of the queue: `t` itself, or `t` moved up with a new slice
    by_cases hf : (c.sched.readyList ++ q).headD idleTid = t
    · exact .inl (hr.trans hf)
    · obtain ⟨hmem, hidx⟩ := idxOf_tail_of_ne (List.mem_append_left q ht) hf
      rw [List.idxOf_append_of_mem ht] at hidx
      refine .inr ⟨⟨step_slice hs h, by rw [hq]; exact hmem⟩, ?_⟩
      unfold waitBound
      rw [hq, htt, ← hidx]
      simp only [timeSlice] at hs ⊢
      split <;> omega

end Run

/-- Every run from boot, of timer interrupts and scheduler operations in any order, ends in a
state where the queue invariant holds, the running thread has had fewer than `TIME_SLICE` ticks
of its slice, no interrupt context is open, the idle, kernel and user ticks add up to `ticks`,
and `ticks` counts exactly the run's timer interrupts. -/
theorem tick_accounting [DecidableEq ι] [Fintype ι] (v : ι → Nat) (es : List (TickEv ι))
    {c : Ticks ι} (h : runs step (boot v) es = some c) :
    QueueInv c.sched ∧ c.threadTicks < timeSlice ∧ c.inExternalIntr = false ∧
      c.idleTicks + c.kernelTicks + c.userTicks = c.ticks ∧
      c.ticks = es.countP TickEv.isTimer := by
  have hinv := runs_inv (fun _ _ _ => step_inv) (boot v) es (boot_inv v) h
  have hticks := runs_countP (f := Ticks.ticks) (fun _ _ _ he => (step_counters he).1) _ _ h
  exact ⟨hinv.queues, hinv.slice, hinv.outside, hinv.accounted, by simpa [boot] using hticks⟩

/-- Eight timer interrupts, thread 4 running a user program. -/
def sampleTicks : List (TickEv (Fin 1)) := List.replicate 8 (.timer fun t => decide (t = 4))

/-- The boot thread creates threads 3 and 4, then `sampleTicks`. -/
def sampleRun : List (TickEv (Fin 1)) := [.create, .create] ++ sampleTicks

theorem tick_accounting_sample :
    ∃ c : Ticks (Fin 1), runs step (boot fun _ => 0) sampleRun = some c ∧
      QueueInv c.sched ∧ c.threadTicks < timeSlice ∧ c.inExternalIntr = false ∧
      c.idleTicks + c.kernelTicks + c.userTicks = c.ticks ∧
      c.ticks = sampleRun.countP TickEv.isTimer := by
  obtain ⟨c, hc⟩ := Option.isSome_iff_exists.mp
    (by decide +kernel : (runs step (boot fun _ : Fin 1 => 0) sampleRun).isSome = true)
  exact ⟨c, hc, tick_accounting _ _ hc⟩

/-- Round-robin service: from any reachable state, a thread at place `k` of `ready_list` runs
by the `TIME_SLICE * (k + 1)`-th timer interrupt, whatever threads are created, block, wake or
exit meanwhile. -/
theorem ready_thread_runs_within [DecidableEq ι] [Fintype ι] (v : ι → Nat) {c c' : Ticks ι}
    (hc : Reach step (boot v) c) {t : Tid} (ht : t ∈ c.sched.readyList) {es : List (TickEv ι)}
    (h : runs step c es = some c')
    (hn : timeSlice * (c.sched.readyList.idxOf t + 1) ≤ es.countP TickEv.isTimer) :
    ∃ k ≤ es.length, ∃ ck, runs step c (es.take k) = some ck ∧ ck.sched.running = t := by
  have hinv : c.Inv := Reach.inv (boot_inv v) (fun _ _ _ => step_inv) hc
  refine runs_reaches (I := fun d => d.threadTicks < timeSlice ∧ t ∈ d.sched.readyList)
    (μ := fun d => d.waitBound t) (fun d hd _ => ?_) (fun d e d' hd _ he => step_waitBound hd.1 hd.2 he)
    c es ⟨hinv.slice, ht⟩ h ?_
  · have := hd.1
    simp only [waitBound, timeSlice] at this ⊢
    omega
  · have := hinv.slice
    simp only [waitBound, timeSlice] at this hn ⊢
    omega

/-- After the two creations of `sampleRun` thread 4 is second in line, and its eight timer
interrupts bring it to run. -/
theorem ready_thread_runs_within_sample :
    ∃ (c c' : Ticks (Fin 1)) (es : List (TickEv (Fin 1))), Reach step (boot fun _ => 0) c ∧
      4 ∈ c.sched.readyList ∧ runs step c es = some c' ∧
      timeSlice * (c.sched.readyList.idxOf 4 + 1) ≤ es.countP TickEv.isTimer ∧
      ∃ k ≤ es.length, ∃ ck, runs step c (es.take k) = some ck ∧ ck.sched.running = 4 := by
  have hpre : (runs step (boot fun _ : Fin 1 => 0) [.create, .create]).map
      (fun c : Ticks (Fin 1) => decide (4 ∈ c.sched.readyList ∧ c.sched.readyList.idxOf 4 = 1)) =
        some true := by
    decide +kernel
  obtain ⟨c, hc, h4, hidx⟩ :=
    exists_of_runs
      (p := fun c : Ticks (Fin 1) => 4 ∈ c.sched.readyList ∧ c.sched.readyList.idxOf 4 = 1) hpre
  have hrun : (runs step c sampleTicks).isSome := by
    have hall : (runs step (boot fun _ : Fin 1 => 0) sampleRun).isSome = true := by decide +kernel
    rwa [sampleRun, runs_append, hc, Option.bind_some] at hall
  obtain ⟨c', hc'⟩ := Option.isSome_iff_exists.mp hrun
  have hn : timeSlice * (c.sched.readyList.idxOf 4 + 1) ≤ sampleTicks.countP TickEv.isTimer := by
    rw [hidx]
    decide
  exact ⟨c, c', _, ⟨_, hc⟩, h4, hc', hn, ready_thread_runs_within _ ⟨_, hc⟩ h4 hc' hn⟩

end Ticks

end Pintos.Threads
