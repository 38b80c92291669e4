import Pintos.Threads.Queues
import Pintos.Kit.Run

/-! The semaphores, locks and condition variables of threads/synch.c over the scheduler of
thread.c. synch.c runs with interrupts off except at the entry of each call, between the
statements of `lock_acquire`, `lock_try_acquire`, `lock_release` and `cond_wait`, and where
`sema_down` blocks; each step below is what runs between two such points, and a timer interrupt
may preempt the running thread, or a handler call `sema_up` or `sema_try_down`, between any two
steps. Ghost fields count what the safety of synch.c is stated over: the completed `sema_up`s and
`sema_down`s of each semaphore since its `sema_init`, when each thread queued itself, and the
threads inside each lock. `cond_broadcast` is its loop of `cond_signal` calls. -/
namespace Pintos.Threads
open Pintos.Kit

/-- A semaphore of synch.c: one of its own, the one in `struct lock`, or the one in the
`struct semaphore_elem` that `cond_wait` keeps on the waiting thread's stack. -/
inductive SemaId (S L : Type) where
  | plain (s : S)
  | lock (l : L)
  | waiter (t : Tid)
  deriving DecidableEq, Repr

/-- Where a thread is in synch.c: between calls, or how far it got in the call it is in. -/
inductive Pc (S L C : Type) where
  | idle
  /-- `sema_down`, in its loop. -/
  | down (s : S)
  /-- `lock_acquire`, in the loop of its `sema_down`. -/
  | acquire (l : L)
  /-- `lock_acquire` or `lock_try_acquire` past the semaphore, `holder` not yet set. -/
  | acquired (l : L)
  /-- `lock_release` with `holder` cleared, before its `sema_up`. -/
  | release (l : L)
  /-- `cond_wait` queued on `c`, in its `lock_release` before the `sema_up`. -/
  | waitRelease (c : C) (l : L)
  /-- `cond_wait`, in the loop of `sema_down` on its own semaphore. -/
  | waitDown (c : C) (l : L)
  /-- `cond_wait`, in the loop of its `lock_acquire`. -/
  | waitAcquire (c : C) (l : L)
  /-- `cond_wait`, its `lock_acquire` past the semaphore. -/
  | waitAcquired (c : C) (l : L)
  deriving DecidableEq, Repr

/-- The `sema_init` value of each semaphore: `v` for those of their own, 1 in `lock_init`, 0 in
`cond_wait`. -/
def initValue {S L : Type} (v : S → Nat) : SemaId S L → Nat
  | .plain s => v s
  | .lock _ => 1
  | .waiter _ => 0

/-- The semaphore in whose `sema_down` loop thread `t` at `p` is. -/
def Pc.downSema {S L C : Type} (t : Tid) : Pc S L C → Option (SemaId S L)
  | .down s => some (.plain s)
  | .acquire l => some (.lock l)
  | .waitDown _ _ => some (.waiter t)
  | .waitAcquire _ l => some (.lock l)
  | _ => none

/-- The lock a call at `p` is about. -/
def Pc.lock {S L C : Type} : Pc S L C → Option L
  | .acquire l | .acquired l | .release l => some l
  | .waitRelease _ l | .waitDown _ l | .waitAcquire _ l | .waitAcquired _ l => some l
  | _ => none

/-- At `p` the thread has lock `l`'s semaphore down without being its holder. -/
def Pc.Owns {S L C : Type} (l : L) : Pc S L C → Prop
  | .acquired l' | .release l' | .waitRelease _ l' | .waitAcquired _ l' => l' = l
  | _ => False

/-- At `p` the thread is in `cond_wait` on `c`, its own semaphore not yet down. -/
def Pc.CondWaiting {S L C : Type} (c : C) : Pc S L C → Prop
  | .waitRelease c' _ | .waitDown c' _ => c' = c
  | _ => False

theorem Pc.lock_of_owns {S L C : Type} {l : L} {p : Pc S L C} (h : p.Owns l) : p.lock = some l := by
  cases p <;> simp_all [Pc.Owns, Pc.lock]

theorem Pc.owns_unique {S L C : Type} {l l' : L} {p : Pc S L C} (h : p.Owns l) (h' : p.Owns l') :
    l = l' := by
  cases p <;> simp_all [Pc.Owns]

theorem Pc.condWaiting_unique {S L C : Type} {c c' : C} {p : Pc S L C} (h : p.CondWaiting c)
    (h' : p.CondWaiting c') : c = c' := by
  cases p <;> simp_all [Pc.CondWaiting]

structure Synch (S L C : Type) where
  sched : Sched (SemaId S L)
  pc : Tid → Pc S L C
  holder : L → Option Tid
  /-- `cond->waiters`, as the threads whose `semaphore_elem` is on it. -/
  conds : C → List Tid
  /-- Completed `sema_up`s since the semaphore's `sema_init`. -/
  ups : SemaId S L → Nat
  /-- Completed `sema_down`s and successful `sema_try_down`s since its `sema_init`. -/
  downs : SemaId S L → Nat
  clock : Nat
  /-- When the thread last pushed itself on a semaphore's `waiters`. -/
  queuedAt : Tid → Nat
  /-- When the thread's current call of `sema_down` began. -/
  calledAt : Tid → Nat
  /-- When `cond_wait` queued the thread on its condition. -/
  condAt : Tid → Nat
  /-- The threads that completed `lock_acquire` or `lock_try_acquire` and have not begun
  `lock_release`, in the order they completed. -/
  inside : L → List Tid

/-- A call of synch.c by the running thread, or the next step of the call it is in, or an
interrupt: the timer preempting the running thread, a handler's `sema_up` or `sema_try_down`,
which a thread between its calls may make too. -/
inductive Ev (S L C : Type) where
  | semaDown (s : S)
  | semaTryDown (s : S)
  | semaUp (s : S)
  | lockAcquire (l : L)
  | lockTryAcquire (l : L)
  | lockRelease (l : L)
  | condWait (c : C) (l : L)
  | condSignal (c : C) (l : L)
  | resume
  | yield
  | create

section SchedFacts
open Sched
variable {ι : Type} {s s' : Sched ι} {t : Tid}

@[simp] theorem schedule_sema : s.schedule.sema = s.sema := by
  unfold schedule
  split <;> simp

@[simp] theorem schedule_nextTid : s.schedule.nextTid = s.nextTid := by
  unfold schedule
  split <;> simp

@[simp] theorem threadYield_sema : s.threadYield.sema = s.sema := by
  unfold threadYield
  split <;> simp

@[simp] theorem threadYield_nextTid : s.threadYield.nextTid = s.nextTid := by
  unfold threadYield
  split <;> simp

theorem threadUnblock_eq (h : s.threadUnblock t = some s') :
    s'.sema = s.sema ∧ s'.nextTid = s.nextTid ∧ s'.running = s.running ∧
      s'.status = Function.update s.status t (some .ready) := by
  unfold threadUnblock at h
  split at h
  · cases h
    exact ⟨rfl, rfl, rfl, rfl⟩
  · cases h

variable [DecidableEq ι] {i : ι}

@[simp] theorem semaWait_sema : (s.semaWait i).sema =
    Function.update s.sema i { s.sema i with waiters := (s.sema i).waiters ++ [s.running] } := by
  simp [semaWait, threadBlock]

@[simp] theorem semaWait_nextTid : (s.semaWait i).nextTid = s.nextTid := by
  simp [semaWait, threadBlock]

theorem semaUp_eq (h : s.semaUp i = some s') :
    s'.sema = Function.update s.sema i ⟨(s.sema i).value + 1, (s.sema i).waiters.tail⟩ ∧
      s'.nextTid = s.nextTid ∧ s'.running = s.running ∧
      ∀ u, u ∉ (s.sema i).waiters.head? → s'.status u = s.status u := by
  unfold semaUp at h
  split at h
  · rename_i hw
    cases h
    refine ⟨?_, rfl, rfl, fun _ _ => rfl⟩
    simp only [setSema_sema, hw, List.tail_nil]
  · rename_i u rest hw
    obtain ⟨h1, h2, h3, h4⟩ := threadUnblock_eq h
    refine ⟨by simp [h1, hw], h2, h3, fun v hv => ?_⟩
    rw [h4, Function.update_of_ne (by simpa [hw, eq_comm] using hv)]
    rfl

theorem semaUp_head {rest : List Tid} (h : (s.sema i).waiters = t :: rest)
    (hb : s.status t = some .blocked) :
    ∃ s', s.semaUp i = some s' ∧ s'.status = Function.update s.status t (some .ready) := by
  unfold semaUp
  rw [h]
  simp [threadUnblock, hb]

end SchedFacts

namespace Synch
variable {S L C : Type}

section Ops
variable [DecidableEq S] [DecidableEq L]

def setPc (m : Synch S L C) (t : Tid) (p : Pc S L C) : Synch S L C :=
  { m with pc := Function.update m.pc t p }

/-- One pass of the loop of `sema_down` by the running thread: `value` is positive and goes
down (`true`), or the thread pushes itself on `waiters` and blocks. -/
def pass (m : Synch S L C) (i : SemaId S L) : Synch S L C × Bool :=
  match m.sched.semaDown i with
  | (s, true) => ({ m with sched := s, downs := Function.update m.downs i (m.downs i + 1) }, true)
  | (s, false) =>
    ({ m with
      sched := s
      queuedAt := Function.update m.queuedAt m.sched.running m.clock
      clock := m.clock + 1 }, false)

/-- `sema_up`. -/
def up (m : Synch S L C) (i : SemaId S L) : Option (Synch S L C) :=
  (m.sched.semaUp i).map fun s => { m with sched := s, ups := Function.update m.ups i (m.ups i + 1) }

/-- `sema_try_down`, and whether it got past. -/
def tryDown (m : Synch S L C) (i : SemaId S L) : Synch S L C × Bool :=
  if (m.sched.sema i).value = 0 then (m, false)
  else
    ({ m with
      sched := m.sched.setSema i { m.sched.sema i with value := (m.sched.sema i).value - 1 }
      downs := Function.update m.downs i (m.downs i + 1) }, true)

/-- `sema_init (&waiter.semaphore, 0)` in `cond_wait` of thread `t`. -/
def initWaiter (m : Synch S L C) (t : Tid) : Synch S L C :=
  { m with
    sched := m.sched.setSema (.waiter t) (semaInit 0)
    ups := Function.update m.ups (.waiter t) 0
    downs := Function.update m.downs (.waiter t) 0 }

/-- `lock->holder = thread_current ()` at the end of `lock_acquire`. -/
def enter (m : Synch S L C) (l : L) (t : Tid) : Synch S L C :=
  { m with
    holder := Function.update m.holder l (some t)
    inside := Function.update m.inside l (m.inside l ++ [t]) }

/-- `lock->holder = NULL` at the start of `lock_release`. -/
def leave (m : Synch S L C) (l : L) (t : Tid) : Synch S L C :=
  { m with
    holder := Function.update m.holder l none
    inside := Function.update m.inside l ((m.inside l).erase t) }

/-- The loop of `sema_down` on `i` by thread `t`, which goes on at `next` once past. -/
def downStep (m : Synch S L C) (t : Tid) (i : SemaId S L) (next : Pc S L C) : Synch S L C :=
  match m.pass i with
  | (m', true) => m'.setPc t next
  | (m', false) => m'

/-- The next step of the call thread `t` is in. -/
def resume (m : Synch S L C) (t : Tid) : Pc S L C → Option (Synch S L C)
  | .idle => none
  | .down s => some (m.downStep t (.plain s) .idle)
  | .acquire l => some (m.downStep t (.lock l) (.acquired l))
  | .acquired l => some ((m.enter l t).setPc t .idle)
  | .release l => (m.up (.lock l)).map (·.setPc t .idle)
  | .waitRelease c l => (m.up (.lock l)).map (·.setPc t (.waitDown c l))
  | .waitDown c l => some (m.downStep t (.waiter t) (.waitAcquire c l))
  | .waitAcquire c l => some (m.downStep t (.lock l) (.waitAcquired c l))
  | .waitAcquired _ l => some ((m.enter l t).setPc t .idle)

section Calls
variable [DecidableEq C]

/-- The start of a call by thread `t`, between its calls; `none` where an `ASSERT` fails. -/
def call (m : Synch S L C) (t : Tid) : Ev S L C → Option (Synch S L C)
  | .semaDown s =>
    some ({ m with calledAt := Function.update m.calledAt t m.clock, clock := m.clock + 1 }.setPc t
      (.down s))
  | .lockAcquire l => if m.holder l = some t then none else some (m.setPc t (.acquire l))
  | .lockTryAcquire l =>
    if m.holder l = some t then none
    else
      match m.tryDown (.lock l) with
      | (m', true) => some (m'.setPc t (.acquired l))
      | (m', false) => some m'
  | .lockRelease l => if m.holder l = some t then some ((m.leave l t).setPc t (.release l)) else none
  | .condWait c l =>
    if m.holder l = some t then
      some (({ m.initWaiter t with
        conds := Function.update m.conds c (m.conds c ++ [t])
        condAt := Function.update m.condAt t m.clock
        clock := m.clock + 1 }.leave l t).setPc t (.waitRelease c l))
    else none
  | .condSignal c l =>
    if m.holder l = some t then
      match m.conds c with
      | [] => some m
      | u :: rest => ({ m with conds := Function.update m.conds c rest }).up (.waiter u)
    else none
  | _ => none

def step (m : Synch S L C) : Ev S L C → Option (Synch S L C)
  | .semaUp s => m.up (.plain s)
  | .semaTryDown s => some (m.tryDown (.plain s)).1
  | .yield => some { m with sched := m.sched.threadYield }
  | .create =>
    if m.sched.running = idleTid then none
    else (m.sched.threadAlloc.1.threadUnblock m.sched.threadAlloc.2).map fun s => { m with sched := s }
  | .resume => if m.sched.running = idleTid then none else m.resume m.sched.running (m.pc m.sched.running)
  | e =>
    if m.sched.running = idleTid ∨ m.pc m.sched.running ≠ .idle then none
    else m.call m.sched.running e

end Calls

/-- `thread_start` returned to `main`, every semaphore of its own made by `sema_init` with `v`,
every lock by `lock_init`, every condition by `cond_init`. -/
def boot (v : S → Nat) : Synch S L C where
  sched := Threads.boot (initValue v)
  pc _ := .idle
  holder _ := none
  conds _ := []
  ups _ := 0
  downs _ := 0
  clock := 0
  queuedAt _ := 0
  calledAt _ := 0
  condAt _ := 0
  inside _ := []

theorem tryDown_of_eq {m : Synch S L C} {i : SemaId S L} (hv : (m.sched.sema i).value = 0) :
    m.tryDown i = (m, false) := by
  simp [tryDown, hv]

theorem tryDown_of_ne {m : Synch S L C} {i : SemaId S L} (hv : (m.sched.sema i).value ≠ 0) :
    m.tryDown i = ((m.tryDown i).1, true) := by
  simp [tryDown, hv]

theorem pass_of_ne {m : Synch S L C} {i : SemaId S L} (hv : (m.sched.sema i).value ≠ 0) :
    m.pass i = ((m.tryDown i).1, true) := by
  simp [pass, tryDown, Sched.semaDown, hv]

theorem downStep_of_ne {m : Synch S L C} {i : SemaId S L} {t : Tid} {p : Pc S L C}
    (hv : (m.sched.sema i).value ≠ 0) : m.downStep t i p = (m.tryDown i).1.setPc t p := by
  simp [downStep, pass_of_ne hv]

theorem downStep_of_eq {m : Synch S L C} {i : SemaId S L} {t : Tid} {p : Pc S L C}
    (hv : (m.sched.sema i).value = 0) : m.downStep t i p = (m.pass i).1 := by
  simp [downStep, pass, Sched.semaDown, hv]

end Ops

section Inv
variable [DecidableEq S] [DecidableEq L]

/-- What the semaphores keep: the scheduler's lists, each waiter in the loop of its
semaphore's `sema_down`, `value` as its initial value plus the ups less the downs, and `waiters`
in the order the threads queued themselves. -/
structure SemaInv (v : S → Nat) (m : Synch S L C) : Prop where
  queues : QueueInv m.sched
  waiting : ∀ i t, t ∈ (m.sched.sema i).waiters → (m.pc t).downSema t = some i
  count : ∀ i, (m.sched.sema i).value + m.downs i = initValue v i + m.ups i
  fifo : ∀ i, (m.sched.sema i).waiters.Pairwise fun a b => m.queuedAt a < m.queuedAt b
  queued_lt : ∀ i t, t ∈ (m.sched.sema i).waiters → m.queuedAt t < m.clock

variable {v : S → Nat} {m m' : Synch S L C} {i : SemaId S L} {t : Tid}

omit [DecidableEq S] [DecidableEq L] in
theorem SemaInv.not_waiting (hi : SemaInv v m) (j : SemaId S L) :
    m.sched.running ∉ (m.sched.sema j).waiters :=
  hi.queues.not_waiting_running j

@[simp] theorem update_value_waiters (f : SemaId S L → Semaphore) (j : SemaId S L) (x : Nat) :
    (Function.update f i ⟨x, (f i).waiters⟩ j).waiters = (f j).waiters := by
  by_cases e : j = i
  · subst e
    simp
  · simp [Function.update_of_ne e]

theorem SemaInv.take (hi : SemaInv v m) (hv : (m.sched.sema i).value ≠ 0) :
    SemaInv v (m.tryDown i).1 := by
  simp only [tryDown, if_neg hv]
  refine ⟨hi.queues.setSema_sub (by simp) (by simpa using hi.queues.waiters_nodup i),
    fun j u hu => hi.waiting j u (by simpa using hu), fun j => ?_, fun j => by simpa using hi.fifo j,
    fun j u hu => hi.queued_lt j u (by simpa using hu)⟩
  have := hi.count j
  by_cases e : j = i
  · subst e
    simp only [Sched.setSema_sema, Function.update_self]
    omega
  · simpa [Function.update_of_ne e] using this

/-- A pass of the `sema_down` loop that finds `value` 0: the running thread, in the loop of
that semaphore, goes on the back of `waiters`. -/
theorem SemaInv.block (hi : SemaInv v m) (hv : (m.sched.sema i).value = 0)
    (hr : m.sched.running ≠ idleTid) (hp : (m.pc m.sched.running).downSema m.sched.running = some i) :
    SemaInv v (m.pass i).1 := by
  have hd : m.sched.semaDown i = (m.sched.semaWait i, false) := by simp [Sched.semaDown, hv]
  have hq := semaDown_queueInv hi.queues i hr
  simp only [pass, hd]
  rw [hd] at hq
  have hold : ∀ j u, u ∈ (m.sched.sema j).waiters →
      Function.update m.queuedAt m.sched.running m.clock u = m.queuedAt u := fun j u hu =>
    Function.update_of_ne (fun e => hi.not_waiting j (by rw [← e]; exact hu)) _ _
  refine ⟨hq, fun j u hu => ?_, fun j => ?_, fun j => ?_, fun j u hu => ?_⟩ <;> dsimp only at *
  · by_cases e : j = i
    · subst e
      simp only [semaWait_sema, Function.update_self, List.mem_append, List.mem_singleton] at hu
      rcases hu with hu | rfl
      · exact hi.waiting j u hu
      · exact hp
    · simp only [semaWait_sema, Function.update_of_ne e] at hu
      exact hi.waiting j u hu
  · by_cases e : j = i
    · subst e
      simpa using hi.count j
    · simpa [Function.update_of_ne e] using hi.count j
  · by_cases e : j = i
    · subst e
      simp only [semaWait_sema, Function.update_self]
      refine List.pairwise_append.mpr ⟨(hi.fifo j).imp_of_mem fun ha hb h => ?_, by simp,
        fun a ha b hb => ?_⟩
      · rwa [hold j _ ha, hold j _ hb]
      · rw [List.mem_singleton.mp hb, hold j a ha, Function.update_self]
        exact hi.queued_lt j a ha
    · simp only [semaWait_sema, Function.update_of_ne e]
      exact (hi.fifo j).imp_of_mem fun ha hb h => by rwa [hold j _ ha, hold j _ hb]
  · by_cases e : j = i
    · subst e
      simp only [semaWait_sema, Function.update_self, List.mem_append, List.mem_singleton] at hu
      rcases hu with hu | rfl
      · rw [hold j u hu]
        exact Nat.lt_succ_of_lt (hi.queued_lt j u hu)
      · simp
    · simp only [semaWait_sema, Function.update_of_ne e] at hu
      rw [hold j u hu]
      exact Nat.lt_succ_of_lt (hi.queued_lt j u hu)

theorem SemaInv.up (hi : SemaInv v m) (h : m.up i = some m') : SemaInv v m' := by
  obtain ⟨s', hs, rfl⟩ := Option.map_eq_some_iff.mp h
  obtain ⟨h1, -, -, -⟩ := semaUp_eq hs
  have hsub : ∀ j u, u ∈ (s'.sema j).waiters → u ∈ (m.sched.sema j).waiters := by
    intro j u hu
    by_cases e : j = i
    · subst e
      simp only [h1, Function.update_self] at hu
      exact List.mem_of_mem_tail hu
    · simpa [h1, Function.update_of_ne e] using hu
  refine ⟨semaUp_queueInv hi.queues hs, fun j u hu => hi.waiting j u (hsub j u hu), fun j => ?_,
    fun j => ?_, fun j u hu => hi.queued_lt j u (hsub j u hu)⟩
  · by_cases e : j = i
    · subst e
      simp only [h1, Function.update_self]
      have := hi.count j
      omega
    · simpa [h1, Function.update_of_ne e] using hi.count j
  · by_cases e : j = i
    · subst e
      simp only [h1, Function.update_self]
      exact (hi.fifo j).sublist (List.tail_sublist _)
    · simpa [h1, Function.update_of_ne e] using hi.fifo j

theorem SemaInv.initWaiter (hi : SemaInv v m) : SemaInv v (m.initWaiter t) := by
  have hsame : ∀ j, j ≠ .waiter t → ((m.initWaiter t).sched.sema j) = m.sched.sema j :=
    fun j e => by simp [Synch.initWaiter, Function.update_of_ne e]
  refine ⟨hi.queues.setSema_sub (by simp [semaInit]) (by simp [semaInit]), fun j u hu => ?_,
    fun j => ?_, fun j => ?_, fun j u hu => ?_⟩
  all_goals by_cases e : j = .waiter t
  · subst e
    simp [Synch.initWaiter, semaInit] at hu
  · exact hi.waiting j u (by rwa [hsame j e] at hu)
  · subst e
    simp [Synch.initWaiter, semaInit, initValue]
  · simpa [Synch.initWaiter, Function.update_of_ne e] using hi.count j
  · subst e
    simp [Synch.initWaiter, semaInit]
  · rw [hsame j e]
    exact hi.fifo j
  · subst e
    simp [Synch.initWaiter, semaInit] at hu
  · exact hi.queued_lt j u (by rwa [hsame j e] at hu)

theorem SemaInv.up_some (hi : SemaInv v m) (i : SemaId S L) : ∃ m', m.up i = some m' := by
  cases hw : (m.sched.sema i).waiters with
  | nil => exact Option.ne_none_iff_exists'.mp (by simp [Synch.up, Sched.semaUp, hw])
  | cons t rest =>
    obtain ⟨s', hs, -⟩ := semaUp_head hw (hi.queues.waiter_blocked i t (by simp [hw]))
    exact Option.ne_none_iff_exists'.mp (by simp [Synch.up, hs])

omit [DecidableEq S] [DecidableEq L] in
theorem SemaInv.setPc (hi : SemaInv v m) (p : Pc S L C) : SemaInv v (m.setPc m.sched.running p) := by
  refine ⟨hi.queues, fun j u hu => ?_, hi.count, hi.fifo, hi.queued_lt⟩
  have hne : u ≠ m.sched.running := fun e => hi.not_waiting j (by rw [← e]; exact hu)
  simp only [Synch.setPc, Function.update_of_ne hne]
  exact hi.waiting j u hu

omit [DecidableEq S] [DecidableEq L] in
theorem SemaInv.congr (hi : SemaInv v m) (hs : m'.sched = m.sched) (hp : m'.pc = m.pc)
    (hu : m'.ups = m.ups) (hd : m'.downs = m.downs) (hq : m'.queuedAt = m.queuedAt)
    (hc : m.clock ≤ m'.clock) : SemaInv v m' := by
  refine ⟨hs ▸ hi.queues, ?_, ?_, ?_, fun j u h => ?_⟩
  · rw [hs, hp]
    exact hi.waiting
  · rw [hs, hu, hd]
    exact hi.count
  · rw [hs, hq]
    exact hi.fifo
  · rw [hs] at h
    rw [hq]
    exact Nat.lt_of_lt_of_le (hi.queued_lt j u h) hc

omit [DecidableEq S] [DecidableEq L] in
theorem SemaInv.sched (hi : SemaInv v m) {s : Sched (SemaId S L)} (hq : QueueInv s)
    (hs : s.sema = m.sched.sema) : SemaInv v { m with sched := s } := by
  refine ⟨hq, ?_, ?_, ?_, ?_⟩ <;> simp only [hs]
  · exact hi.waiting
  · exact hi.count
  · exact hi.fifo
  · exact hi.queued_lt

end Inv

section Locks

variable {m m' : Synch S L C} {l : L} {t : Tid} {p : Pc S L C}

/-- Thread `t` has lock `l`: it is its holder, or it is in `lock_acquire` or `lock_release`
with the lock's semaphore down. -/
def HasLock (m : Synch S L C) (l : L) (t : Tid) : Prop := m.holder l = some t ∨ (m.pc t).Owns l

/-- A lock's semaphore is 1 exactly when no thread has the lock, one thread at most has it, and
its holder is in no call about it. -/
structure LockInv (m : Synch S L C) (l : L) : Prop where
  le_one : (m.sched.sema (.lock l)).value ≤ 1
  free_iff : (m.sched.sema (.lock l)).value = 1 ↔ ∀ t, ¬m.HasLock l t
  unique : ∀ t u, m.HasLock l t → m.HasLock l u → t = u
  holder_out : ∀ t, m.holder l = some t → (m.pc t).lock ≠ some l

theorem LockInv.value_zero (h : m.LockInv l) (ht : m.HasLock l t) :
    (m.sched.sema (.lock l)).value = 0 := by
  have := h.le_one
  have : (m.sched.sema (.lock l)).value ≠ 1 := fun e => h.free_iff.mp e t ht
  omega

theorem LockInv.free (h : m.LockInv l) (hv : (m.sched.sema (.lock l)).value ≠ 0) :
    ∀ u, ¬m.HasLock l u := by
  have := h.le_one
  exact h.free_iff.mp (by omega)

theorem LockInv.holder_none (h : m.LockInv l) (ho : (m.pc t).Owns l) : m.holder l = none := by
  cases hh : m.holder l with
  | none => rfl
  | some u =>
    have e := h.unique u t (.inl hh) (.inr ho)
    subst e
    exact absurd (Pc.lock_of_owns ho) (h.holder_out u hh)

theorem LockInv.congr (h : m.LockInv l)
    (hv : (m'.sched.sema (.lock l)).value = (m.sched.sema (.lock l)).value)
    (hh : m'.holder l = m.holder l) (ho : ∀ u, (m'.pc u).Owns l ↔ (m.pc u).Owns l)
    (hout : ∀ u, m.holder l = some u → (m'.pc u).lock ≠ some l) : m'.LockInv l := by
  have hl : ∀ u, m'.HasLock l u ↔ m.HasLock l u := fun u => by rw [HasLock, HasLock, hh, ho]
  refine ⟨hv ▸ h.le_one, ?_, fun a b ha hb => h.unique a b ((hl a).mp ha) ((hl b).mp hb),
    fun u hu => hout u (hh ▸ hu)⟩
  rw [hv, h.free_iff]
  exact forall_congr' fun u => not_congr (hl u).symm

theorem LockInv.move (h : m.LockInv l)
    (hv : (m'.sched.sema (.lock l)).value = (m.sched.sema (.lock l)).value)
    (hh : m'.holder l = m.holder l) (hp : m'.pc = Function.update m.pc t p)
    (ho : p.Owns l ↔ (m.pc t).Owns l) (hlock : m.holder l = some t → p.lock ≠ some l) :
    m'.LockInv l := by
  refine h.congr hv hh (fun u => ?_) (fun u hu => ?_)
  · by_cases e : u = t
    · rw [hp, e, Function.update_self, ho]
    · rw [hp, Function.update_of_ne e]
  · by_cases e : u = t
    · rw [hp, e, Function.update_self]
      exact hlock (e ▸ hu)
    · rw [hp, Function.update_of_ne e]
      exact h.holder_out u hu

theorem LockInv.take (h : m.LockInv l) (hv0 : (m.sched.sema (.lock l)).value ≠ 0)
    (hv : (m'.sched.sema (.lock l)).value = 0) (hh : m'.holder l = m.holder l)
    (hp : m'.pc = Function.update m.pc t p) (ho : p.Owns l) : m'.LockInv l := by
  have hfree := h.free hv0
  have hnone : m.holder l = none := by
    cases hh' : m.holder l with
    | none => rfl
    | some u => exact absurd (.inl hh') (hfree u)
  have hhas : ∀ u, m'.HasLock l u ↔ u = t := by
    intro u
    by_cases e : u = t
    · subst e
      simp [HasLock, hp, ho]
    · simp only [HasLock, hh, hnone, hp, Function.update_of_ne e, reduceCtorEq, false_or, e,
        iff_false]
      exact fun hu => hfree u (.inr hu)
  refine ⟨by omega, ?_, fun a b ha hb => ((hhas a).mp ha).trans ((hhas b).mp hb).symm, ?_⟩
  · rw [hv]
    exact ⟨fun e => absurd e (by decide), fun hn => absurd ((hhas t).mpr rfl) (hn t)⟩
  · intro u hu
    rw [hh, hnone] at hu
    cases hu

/-- The thread that has the lock gives its semaphore back and goes on at a point that does not
own it. -/
theorem LockInv.give (h : m.LockInv l) (ht : (m.pc t).Owns l)
    (hv : (m'.sched.sema (.lock l)).value = (m.sched.sema (.lock l)).value + 1)
    (hh : m'.holder l = m.holder l) (hp : m'.pc = Function.update m.pc t p) (ho : ¬p.Owns l) :
    m'.LockInv l := by
  have h0 := h.value_zero (.inr ht)
  have hnone := h.holder_none ht
  have hfree : ∀ u, ¬m'.HasLock l u := by
    intro u hu
    rcases hu with hu | hu
    · rw [hh, hnone] at hu
      cases hu
    · by_cases e : u = t
      · subst e
        rw [hp, Function.update_self] at hu
        exact ho hu
      · rw [hp, Function.update_of_ne e] at hu
        exact e (h.unique u t (.inr hu) (.inr ht))
  refine ⟨by omega, ⟨fun _ => hfree, fun _ => by omega⟩, fun a _ ha => absurd ha (hfree a),
    fun u hu => ?_⟩
  rw [hh, hnone] at hu
  cases hu

theorem LockInv.enter (h : m.LockInv l) (ht : (m.pc t).Owns l)
    (hv : (m'.sched.sema (.lock l)).value = (m.sched.sema (.lock l)).value)
    (hh : m'.holder l = some t) (hp : m'.pc = Function.update m.pc t .idle) : m'.LockInv l := by
  have h0 := h.value_zero (.inr ht)
  have hhas : ∀ u, m'.HasLock l u → u = t := by
    rintro u (hu | hu)
    · rw [hh] at hu
      exact (Option.some.inj hu).symm
    · by_cases e : u = t
      · exact e
      · rw [hp, Function.update_of_ne e] at hu
        exact h.unique u t (.inr hu) (.inr ht)
  refine ⟨by omega, ⟨fun e => by omega, fun hn => absurd (.inl hh) (hn t)⟩,
    fun a b ha hb => (hhas a ha).trans (hhas b hb).symm, fun u hu => ?_⟩
  rw [hh] at hu
  cases hu
  rw [hp, Function.update_self]
  simp [Pc.lock]

theorem LockInv.leave (h : m.LockInv l) (ht : m.holder l = some t)
    (hv : (m'.sched.sema (.lock l)).value = (m.sched.sema (.lock l)).value)
    (hh : m'.holder l = none) (hp : m'.pc = Function.update m.pc t p) (ho : p.Owns l) :
    m'.LockInv l := by
  have h0 := h.value_zero (.inl ht)
  have hhas : ∀ u, m'.HasLock l u → u = t := by
    rintro u (hu | hu)
    · rw [hh] at hu
      cases hu
    · by_cases e : u = t
      · exact e
      · rw [hp, Function.update_of_ne e] at hu
        exact h.unique u t (.inr hu) (.inl ht)
  refine ⟨by omega, ⟨fun e => by omega,
    fun hn => absurd (.inr (by rw [hp, Function.update_self]; exact ho)) (hn t)⟩,
    fun a b ha hb => (hhas a ha).trans (hhas b hb).symm, fun u hu => ?_⟩
  rw [hh] at hu
  cases hu

end Locks

section Stamps
variable {α κ : Type} [DecidableEq κ] {l : List α} {f : α → Nat} {t : α} {n : Nat}

theorem mem_update_push {q : κ → List α} {c c' : κ} {u : α} :
    u ∈ Function.update q c (q c ++ [t]) c' ↔ u ∈ q c' ∨ c' = c ∧ u = t := by
  by_cases e : c' = c
  · subst e
    simp
  · simp [e]

theorem mem_of_update_tail {q : κ → List α} {c c' : κ} {u : α} {rest : List α}
    (hc : q c = t :: rest) (hu : u ∈ Function.update q c rest c') : u ∈ q c' := by
  by_cases e : c' = c
  · subst e
    rw [Function.update_self] at hu
    rw [hc]
    exact List.mem_cons_of_mem t hu
  · rwa [Function.update_of_ne e] at hu

variable [DecidableEq α]

theorem pairwise_stamp (hl : l.Pairwise fun a b => f a < f b) (ht : t ∉ l) :
    l.Pairwise fun a b => Function.update f t n a < Function.update f t n b := by
  have hne : ∀ a ∈ l, a ≠ t := fun a ha e => ht (e ▸ ha)
  exact hl.imp_of_mem fun ha hb h => by
    rwa [Function.update_of_ne (hne _ ha), Function.update_of_ne (hne _ hb)]

theorem pairwise_push (hl : l.Pairwise fun a b => f a < f b) (ht : t ∉ l)
    (hlt : ∀ a ∈ l, f a < n) :
    (l ++ [t]).Pairwise fun a b => Function.update f t n a < Function.update f t n b := by
  refine List.pairwise_append.mpr ⟨pairwise_stamp hl ht, by simp, fun a ha b hb => ?_⟩
  have hne : a ≠ t := fun e => ht (e ▸ ha)
  rw [List.mem_singleton.mp hb, Function.update_self, Function.update_of_ne hne]
  exact hlt a ha

end Stamps

theorem le_update_succ {α : Type} [DecidableEq α] {f : α → Nat} {i j : α} :
    f j ≤ Function.update f i (f i + 1) j := by
  by_cases e : j = i
  · subst e
    simp
  · simp [Function.update_of_ne e]

section Steps
variable {v : S → Nat} {m m' : Synch S L C} {i : SemaId S L} {t : Tid} {p : Pc S L C}

/-- The invariant of synch.c: the semaphores', each lock's, `inside` as `holder`, and each
condition's `waiters` as exactly the threads in `cond_wait` on it whose own semaphore no one has
upped yet, in the order `cond_wait` queued them; no call in threads that do not exist. -/
structure Inv (v : S → Nat) (m : Synch S L C) : Prop extends SemaInv v m where
  locks : ∀ l, m.LockInv l
  inside : ∀ l, m.inside l = (m.holder l).toList
  cond_fifo : ∀ c, (m.conds c).Pairwise fun a b => m.condAt a < m.condAt b
  cond_lt : ∀ c t, t ∈ m.conds c → m.condAt t < m.clock
  cond_pc : ∀ c t, t ∈ m.conds c → (m.pc t).CondWaiting c ∧ m.ups (.waiter t) = 0
  cond_mem : ∀ c t, (m.pc t).CondWaiting c → m.ups (.waiter t) = 0 → t ∈ m.conds c
  idle_pc : m.pc idleTid = .idle
  fresh_pc : ∀ t, m.sched.nextTid ≤ t → m.pc t = .idle

theorem Inv.running_lt (hi : m.Inv v) : m.sched.running < m.sched.nextTid :=
  hi.queues.lt_of_status hi.queues.running

theorem Inv.of_sema (hi : m.Inv v) (hs : SemaInv v m') (hpc : m'.pc = m.pc)
    (hh : m'.holder = m.holder) (hin : m'.inside = m.inside) (hc : m'.conds = m.conds)
    (hca : m'.condAt = m.condAt) (hclk : m.clock ≤ m'.clock)
    (hlock : ∀ l, (m'.sched.sema (.lock l)).value = (m.sched.sema (.lock l)).value)
    (hups : ∀ c t, t ∈ m.conds c → m'.ups (.waiter t) = m.ups (.waiter t))
    (hmono : ∀ t, m.ups (.waiter t) ≤ m'.ups (.waiter t))
    (hnext : m.sched.nextTid ≤ m'.sched.nextTid) : m'.Inv v := by
  refine ⟨hs, fun l => (hi.locks l).congr (hlock l) (by rw [hh]) (fun u => by rw [hpc])
    (fun u hu => by rw [hpc]; exact (hi.locks l).holder_out u hu), fun l => by rw [hin, hh, hi.inside],
    fun c => by rw [hc, hca]; exact hi.cond_fifo c, fun c u hu => ?_, fun c u hu => ?_,
    fun c u hw hu => ?_, by rw [hpc]; exact hi.idle_pc,
    fun u hu => by rw [hpc]; exact hi.fresh_pc u (Nat.le_trans hnext hu)⟩
  · rw [hc] at hu
    rw [hca]
    exact Nat.lt_of_lt_of_le (hi.cond_lt c u hu) hclk
  · rw [hc] at hu
    rw [hpc, hups c u hu]
    exact hi.cond_pc c u hu
  · rw [hpc] at hw
    rw [hc]
    exact hi.cond_mem c u hw (Nat.le_zero.mp (hu ▸ hmono u))

theorem Inv.move (hi : m.Inv v) (hs : SemaInv v m') (hr : m.sched.running ≠ idleTid)
    (hpc : m'.pc = Function.update m.pc m.sched.running p) (hl : ∀ l, m'.LockInv l)
    (hin : ∀ l, m'.inside l = (m'.holder l).toList) (hc : m'.conds = m.conds)
    (hca : m'.condAt = m.condAt) (hclk : m.clock ≤ m'.clock)
    (hups : ∀ c u, u ∈ m.conds c → m'.ups (.waiter u) = m.ups (.waiter u))
    (hmono : ∀ u, m.ups (.waiter u) ≤ m'.ups (.waiter u))
    (hnext : m'.sched.nextTid = m.sched.nextTid)
    (hcw : ∀ c, m.sched.running ∈ m.conds c → p.CondWaiting c)
    (hcm : ∀ c, p.CondWaiting c → m'.ups (.waiter m.sched.running) = 0 → m.sched.running ∈ m.conds c) :
    m'.Inv v := by
  have hlt := hi.running_lt
  refine ⟨hs, hl, hin,
    fun c => by rw [hc, hca]; exact hi.cond_fifo c, fun c u hu => ?_, fun c u hu => ?_,
    fun c u hw hu => ?_, by rw [hpc, Function.update_of_ne hr.symm]; exact hi.idle_pc,
    fun u hu => ?_⟩
  · rw [hc] at hu
    rw [hca]
    exact Nat.lt_of_lt_of_le (hi.cond_lt c u hu) hclk
  · rw [hc] at hu
    refine ⟨?_, by rw [hups c u hu]; exact (hi.cond_pc c u hu).2⟩
    by_cases e : u = m.sched.running
    · rw [hpc, e, Function.update_self]
      exact hcw c (e ▸ hu)
    · rw [hpc, Function.update_of_ne e]
      exact (hi.cond_pc c u hu).1
  · rw [hc]
    by_cases e : u = m.sched.running
    · rw [hpc, e, Function.update_self] at hw
      rw [e] at hu ⊢
      exact hcm c hw hu
    · rw [hpc, Function.update_of_ne e] at hw
      exact hi.cond_mem c u hw (Nat.le_zero.mp (hu ▸ hmono u))
  · rw [hnext] at hu
    have hne : u ≠ m.sched.running := fun e => Nat.lt_irrefl _ (Nat.lt_of_lt_of_le hlt (e ▸ hu))
    rw [hpc, Function.update_of_ne hne]
    exact hi.fresh_pc u hu

theorem Inv.yield (hi : m.Inv v) : ({ m with sched := m.sched.threadYield } : Synch S L C).Inv v :=
  hi.of_sema (hi.toSemaInv.sched (threadYield_queueInv hi.queues) (by simp)) rfl rfl rfl rfl rfl
    (Nat.le_refl _) (fun _ => by simp) (fun _ _ _ => rfl) (fun _ => Nat.le_refl _) (by simp)

theorem Inv.create (hi : m.Inv v) {s : Sched (SemaId S L)}
    (h : m.sched.threadAlloc.1.threadUnblock m.sched.threadAlloc.2 = some s) :
    ({ m with sched := s } : Synch S L C).Inv v := by
  obtain ⟨h1, h2, -, -⟩ := threadUnblock_eq h
  have hs : s.sema = m.sched.sema := by rw [h1]; rfl
  have hn : s.nextTid = m.sched.nextTid + 1 := by rw [h2]; rfl
  exact hi.of_sema (hi.toSemaInv.sched (threadCreate_queueInv hi.queues h) hs) rfl rfl rfl rfl rfl
    (Nat.le_refl _) (fun _ => by simp [hs]) (fun _ _ _ => rfl) (fun _ => Nat.le_refl _) (by simp [hn])

variable [DecidableEq S] [DecidableEq L]

theorem Inv.block (hi : m.Inv v) (hr : m.sched.running ≠ idleTid) (hv : (m.sched.sema i).value = 0)
    (hp : (m.pc m.sched.running).downSema m.sched.running = some i) : (m.pass i).1.Inv v := by
  have hd : m.sched.semaDown i = (m.sched.semaWait i, false) := by simp [Sched.semaDown, hv]
  have hs := hi.toSemaInv.block hv hr hp
  simp only [pass, hd] at hs ⊢
  refine hi.of_sema hs rfl rfl rfl rfl rfl (Nat.le_succ _) (fun l => ?_) (fun _ _ _ => rfl)
    (fun _ => Nat.le_refl _) (by simp)
  by_cases e : SemaId.lock l = i
  · subst e
    simp
  · simp [Function.update_of_ne e]

theorem Inv.tryDown_plain (hi : m.Inv v) (s : S) : (m.tryDown (.plain s)).1.Inv v := by
  by_cases hv : (m.sched.sema (.plain s)).value = 0
  · simpa [tryDown, hv] using hi
  · refine hi.of_sema (hi.toSemaInv.take hv) ?_ ?_ ?_ ?_ ?_ ?_ (fun l => ?_) (fun _ _ _ => ?_)
      (fun _ => ?_) ?_ <;>
      simp [tryDown, hv, Function.update_of_ne]

theorem Inv.up_free (hi : m.Inv v) (h : m.up i = some m') (hl : ∀ l, i ≠ .lock l)
    (hw : ∀ c u, u ∈ m.conds c → i ≠ .waiter u) : m'.Inv v := by
  obtain ⟨s', hs, rfl⟩ := Option.map_eq_some_iff.mp h
  obtain ⟨h1, h2, -, -⟩ := semaUp_eq hs
  refine hi.of_sema (hi.toSemaInv.up h) rfl rfl rfl rfl rfl (Nat.le_refl _) (fun l => ?_)
    (fun c u hu => ?_) (fun u => le_update_succ) (Nat.le_of_eq h2.symm)
  · simp [h1, Function.update_of_ne (hl l).symm]
  · simp [Function.update_of_ne (hw c u hu).symm]

theorem Inv.take (hi : m.Inv v) (hr : m.sched.running ≠ idleTid) (hv : (m.sched.sema i).value ≠ 0)
    (hold : ∀ l, ¬(m.pc m.sched.running).Owns l) (hown : ∀ l, p.Owns l ↔ i = .lock l)
    (hlock : ∀ l, m.holder l = some m.sched.running → p.lock ≠ some l)
    (hcw : ∀ c, ¬p.CondWaiting c) (hnc : ∀ c, m.sched.running ∉ m.conds c) :
    ((m.tryDown i).1.setPc m.sched.running p).Inv v := by
  have hs := (hi.toSemaInv.take hv).setPc p
  simp only [tryDown, if_neg hv] at hs ⊢
  refine hi.move hs hr rfl (fun l => ?_) hi.inside rfl rfl (Nat.le_refl _) (fun _ _ _ => rfl)
    (fun _ => Nat.le_refl _) rfl (fun c hc => absurd hc (hnc c)) (fun c hw _ => absurd hw (hcw c))
  by_cases e : i = .lock l
  · -- the lock's own semaphore: it was 1 and the thread now owns the lock
    subst e
    have := (hi.locks l).le_one
    exact (hi.locks l).take hv (by simp [setPc]; omega) rfl rfl ((hown l).mpr rfl)
  · exact (hi.locks l).move (by simp [setPc, Function.update_of_ne (Ne.symm e)]) rfl rfl
      (by simp [hown l, e, hold l]) (hlock l)

theorem Inv.downStep (hi : m.Inv v) (hr : m.sched.running ≠ idleTid)
    (hp : (m.pc m.sched.running).downSema m.sched.running = some i)
    (hown : ∀ l, p.Owns l ↔ i = .lock l) (hlock : p.lock = (m.pc m.sched.running).lock)
    (hcw : ∀ c, ¬p.CondWaiting c) : (m.downStep m.sched.running i p).Inv v := by
  by_cases hv : (m.sched.sema i).value = 0
  · rw [downStep_of_eq hv]
    exact hi.block hr hv hp
  · rw [downStep_of_ne hv]
    refine hi.take hr hv (fun l ho => ?_) hown (fun l hh => ?_) hcw (fun c hc => ?_)
    · -- no point in a loop of `sema_down` owns a lock
      cases hpc : m.pc m.sched.running <;> simp_all [Pc.downSema, Pc.Owns]
    · rw [hlock]
      exact (hi.locks l).holder_out _ hh
    · -- a thread on a condition is in the loop of its own semaphore, which no one has upped
      obtain ⟨hw, hu⟩ := hi.cond_pc c _ hc
      have hiw : i = .waiter m.sched.running := by
        cases hpc : m.pc m.sched.running <;> simp_all [Pc.downSema, Pc.CondWaiting]
      have := hi.count i
      subst hiw
      simp only [initValue, hu] at this
      omega

theorem Inv.release (hi : m.Inv v) (hr : m.sched.running ≠ idleTid) {l : L}
    (ho : (m.pc m.sched.running).Owns l) (hown : ∀ l', ¬p.Owns l')
    (hlock : p.lock = none ∨ p.lock = some l)
    (hcw : ∀ c, p.CondWaiting c ↔ (m.pc m.sched.running).CondWaiting c)
    (h : m.up (.lock l) = some m') : (m'.setPc m.sched.running p).Inv v := by
  obtain ⟨s', hs, rfl⟩ := Option.map_eq_some_iff.mp h
  obtain ⟨h1, h2, h3, -⟩ := semaUp_eq hs
  have hsi := (hi.toSemaInv.up h).setPc p
  dsimp only at hsi
  rw [h3] at hsi
  refine hi.move hsi hr rfl (fun l' => ?_) hi.inside rfl rfl (Nat.le_refl _)
    (fun _ _ _ => by simp [setPc]) (fun _ => by simp [setPc]) h2
    (fun c hc => (hcw c).mpr (hi.cond_pc c _ hc).1)
    (fun c hw hu => hi.cond_mem c _ ((hcw c).mp hw) (by simpa [setPc] using hu))
  by_cases e : l' = l
  · subst e
    exact (hi.locks l').give ho (by simp [setPc, h1]) rfl rfl (hown l')
  · refine (hi.locks l').move (by simp [setPc, h1, e]) rfl rfl
      (iff_of_false (hown l') fun ho' => e (Pc.owns_unique ho ho').symm) fun _ => ?_
    rcases hlock with hp | hp <;> rw [hp] <;> simp [Ne.symm e]

omit [DecidableEq S] in
theorem Inv.enter (hi : m.Inv v) (hr : m.sched.running ≠ idleTid) {l : L}
    (ho : (m.pc m.sched.running).Owns l) (hcw : ∀ c, ¬(m.pc m.sched.running).CondWaiting c) :
    ((m.enter l m.sched.running).setPc m.sched.running .idle).Inv v := by
  have hnone := (hi.locks l).holder_none ho
  have hs : SemaInv v (m.enter l m.sched.running) :=
    hi.toSemaInv.congr rfl rfl rfl rfl rfl (Nat.le_refl _)
  refine hi.move (hs.setPc .idle) hr rfl (fun l' => ?_) (fun l' => ?_) rfl rfl (Nat.le_refl _)
    (fun _ _ _ => rfl) (fun _ => Nat.le_refl _) rfl (fun c hc => absurd (hi.cond_pc c _ hc).1 (hcw c))
    (fun _ hw _ => False.elim hw)
  · by_cases e : l' = l
    · subst e
      exact (hi.locks l').enter ho rfl (by simp [setPc, Synch.enter]) rfl
    · exact (hi.locks l').move rfl (by simp [setPc, Synch.enter, e]) rfl
        (iff_of_false id fun ho' => e (Pc.owns_unique ho ho').symm) fun _ => by simp [Pc.lock]
  · by_cases e : l' = l
    · subst e
      simp [setPc, Synch.enter, hi.inside, hnone]
    · simp [setPc, Synch.enter, e, hi.inside]

omit [DecidableEq S] [DecidableEq L] in
theorem Inv.start (hi : m.Inv v) (hr : m.sched.running ≠ idleTid)
    (hidle : m.pc m.sched.running = .idle) (hown : ∀ l, ¬p.Owns l)
    (hlock : ∀ l, p.lock = some l → m.holder l ≠ some m.sched.running)
    (hcw : ∀ c, ¬p.CondWaiting c) : (m.setPc m.sched.running p).Inv v :=
  hi.move (hi.toSemaInv.setPc p) hr rfl
    (fun l => (hi.locks l).move rfl rfl rfl (iff_of_false (hown l) (by rw [hidle]; exact id))
      fun hh hp => hlock l hp hh)
    hi.inside rfl rfl (Nat.le_refl _) (fun _ _ _ => rfl) (fun _ => Nat.le_refl _) rfl
    (fun c hc => absurd (hi.cond_pc c _ hc).1 (by simp [hidle, Pc.CondWaiting]))
    (fun c hw _ => absurd hw (hcw c))

omit [DecidableEq S] [DecidableEq L] in
theorem Inv.tick (hi : m.Inv v) (f : Tid → Nat) :
    ({ m with calledAt := f, clock := m.clock + 1 } : Synch S L C).Inv v :=
  hi.of_sema (hi.toSemaInv.congr rfl rfl rfl rfl rfl (Nat.le_succ _)) rfl rfl rfl rfl rfl
    (Nat.le_succ _) (fun _ => rfl) (fun _ _ _ => rfl) (fun _ => Nat.le_refl _) (Nat.le_refl _)

omit [DecidableEq S] in
theorem Inv.leave (hi : m.Inv v) (hr : m.sched.running ≠ idleTid) {l : L}
    (hidle : m.pc m.sched.running = .idle) (hh : m.holder l = some m.sched.running) :
    ((m.leave l m.sched.running).setPc m.sched.running (.release l)).Inv v := by
  have hs : SemaInv v (m.leave l m.sched.running) :=
    hi.toSemaInv.congr rfl rfl rfl rfl rfl (Nat.le_refl _)
  refine hi.move (hs.setPc _) hr rfl (fun l' => ?_) (fun l' => ?_) rfl rfl (Nat.le_refl _)
    (fun _ _ _ => rfl) (fun _ => Nat.le_refl _) rfl
    (fun c hc => absurd (hi.cond_pc c _ hc).1 (by simp [hidle, Pc.CondWaiting]))
    (fun _ hw _ => False.elim hw)
  · by_cases e : l' = l
    · subst e
      exact (hi.locks l').leave hh rfl (by simp [setPc, Synch.leave]) rfl rfl
    · exact (hi.locks l').move rfl (by simp [setPc, Synch.leave, e]) rfl
        (iff_of_false (by simp [Pc.Owns, Ne.symm e]) (by rw [hidle]; exact id))
        fun _ => by simp [Pc.lock, Ne.symm e]
  · by_cases e : l' = l
    · subst e
      simp [setPc, Synch.leave, hi.inside, hh]
    · simp [setPc, Synch.leave, e, hi.inside]

/-- `cond_wait` up to its `lock_release`'s `sema_up`: the holder makes its own semaphore, queues
itself on `c` and clears `holder`. -/
theorem Inv.condWait [DecidableEq C] (hi : m.Inv v) (hr : m.sched.running ≠ idleTid) {l : L}
    {c : C} (hidle : m.pc m.sched.running = .idle) (hh : m.holder l = some m.sched.running) :
    (({ m.initWaiter m.sched.running with
        conds := Function.update m.conds c (m.conds c ++ [m.sched.running])
        condAt := Function.update m.condAt m.sched.running m.clock
        clock := m.clock + 1 }.leave l m.sched.running).setPc m.sched.running
          (.waitRelease c l)).Inv v := by
  have hlt := hi.running_lt
  have hnc : ∀ c', m.sched.running ∉ m.conds c' := fun c' hc => by
    simpa [hidle, Pc.CondWaiting] using (hi.cond_pc c' _ hc).1
  refine ⟨?_, fun l' => ?_, fun l' => ?_, fun c' => ?_, fun c' u hu => ?_, fun c' u hu => ?_,
    fun c' u hw hu => ?_, ?_, fun u hu => ?_⟩
  · apply SemaInv.setPc
    exact hi.toSemaInv.initWaiter.congr rfl rfl rfl rfl rfl (Nat.le_succ _)
  all_goals simp only [setPc, Synch.leave, Synch.initWaiter, Sched.setSema] at *
  · -- the locks: `l` as in `lock_release`, the others untouched
    by_cases e : l' = l
    · subst e
      exact (hi.locks l').leave hh (by simp) (by simp) rfl rfl
    · exact (hi.locks l').move (by simp) (by simp [e]) rfl
        (iff_of_false (by simp [Pc.Owns, Ne.symm e]) (by rw [hidle]; exact id))
        fun _ => by simp [Pc.lock, Ne.symm e]
  · by_cases e : l' = l
    · subst e
      simp [hi.inside, hh]
    · simp [e, hi.inside]
  · -- `c` gets the thread on its back, stamped now; the other conditions keep their lists
    by_cases e : c' = c
    · subst e
      rw [Function.update_self]
      exact pairwise_push (hi.cond_fifo c') (hnc c') fun a ha => hi.cond_lt c' a ha
    · rw [Function.update_of_ne e]
      exact pairwise_stamp (hi.cond_fifo c') (hnc c')
  · rcases mem_update_push.mp hu with hu | ⟨-, rfl⟩
    · have hne : u ≠ m.sched.running := fun e => hnc c' (e ▸ hu)
      rw [Function.update_of_ne hne]
      exact Nat.lt_succ_of_lt (hi.cond_lt c' u hu)
    · simp
  · rcases mem_update_push.mp hu with hu | ⟨rfl, rfl⟩
    · have hne : u ≠ m.sched.running := fun e => hnc c' (e ▸ hu)
      simpa [Function.update_of_ne hne, hne] using hi.cond_pc c' u hu
    · simp [Pc.CondWaiting]
  · rw [mem_update_push]
    by_cases e : u = m.sched.running
    · subst e
      simp only [Function.update_self, Pc.CondWaiting] at hw
      exact .inr ⟨hw.symm, rfl⟩
    · have hw' : (SemaId.waiter u : SemaId S L) ≠ .waiter m.sched.running :=
        fun h => e (SemaId.waiter.inj h)
      rw [Function.update_of_ne e] at hw
      rw [Function.update_of_ne hw'] at hu
      exact .inl (hi.cond_mem c' u hw hu)
  · rw [Function.update_of_ne hr.symm]
    exact hi.idle_pc
  · have hne : u ≠ m.sched.running := fun e => Nat.lt_irrefl _ (Nat.lt_of_lt_of_le hlt (e ▸ hu))
    rw [Function.update_of_ne hne]
    exact hi.fresh_pc u hu

/-- `cond_signal` on a condition with waiters: the front one leaves the list and its own
semaphore is upped. -/
theorem Inv.signal [DecidableEq C] (hi : m.Inv v) {c : C} {u : Tid} {rest : List Tid}
    (hc : m.conds c = u :: rest)
    (h : ({ m with conds := Function.update m.conds c rest } : Synch S L C).up (.waiter u) = some m') :
    m'.Inv v := by
  have hfront := hi.cond_fifo c
  rw [hc] at hfront
  have hgone : ∀ c' w, w ∈ Function.update m.conds c rest c' → w ≠ u := by
    rintro c' w hw rfl
    have hcc : c' = c := Pc.condWaiting_unique (hi.cond_pc c' w (mem_of_update_tail hc hw)).1
      (hi.cond_pc c w (by rw [hc]; exact List.mem_cons_self)).1
    subst hcc
    rw [Function.update_self] at hw
    exact Nat.lt_irrefl _ (List.rel_of_pairwise_cons hfront hw)
  have hpop : SemaInv v ({ m with conds := Function.update m.conds c rest } : Synch S L C) :=
    hi.toSemaInv.congr rfl rfl rfl rfl rfl (Nat.le_refl _)
  obtain ⟨s', hs, rfl⟩ := Option.map_eq_some_iff.mp h
  obtain ⟨h1, h2, -, -⟩ := semaUp_eq hs
  have hups : ∀ w, w ≠ u →
      Function.update m.ups (.waiter u) (m.ups (.waiter u) + 1) (.waiter w) = m.ups (.waiter w) :=
    fun w e => Function.update_of_ne (fun h => e (SemaId.waiter.inj h)) _ _
  refine ⟨hpop.up h, fun l => (hi.locks l).congr (by simp [h1]) rfl (fun _ => Iff.rfl)
    (hi.locks l).holder_out, hi.inside, fun c' => ?_,
    fun c' w hw => hi.cond_lt c' w (mem_of_update_tail hc hw), fun c' w hw => ?_,
    fun c' w hw hu => ?_, hi.idle_pc, fun w hw => hi.fresh_pc w (by dsimp only at hw; rwa [h2] at hw)⟩
  · by_cases e : c' = c
    · subst e
      simpa using hfront.of_cons
    · simpa [Function.update_of_ne e] using hi.cond_fifo c'
  · dsimp only
    rw [hups w (hgone c' w hw)]
    exact hi.cond_pc c' w (mem_of_update_tail hc hw)
  · -- the popped thread's semaphore is now up, so it is no longer waiting
    dsimp only at hw hu ⊢
    by_cases e : w = u
    · subst e
      simp at hu
    · rw [hups w e] at hu
      have hm := hi.cond_mem c' w hw hu
      by_cases ec : c' = c
      · subst ec
        rw [hc] at hm
        rw [Function.update_self]
        exact (List.mem_cons.mp hm).resolve_left e
      · rwa [Function.update_of_ne ec]

section Run
variable [DecidableEq C]

theorem Inv.call (hi : m.Inv v) (hr : m.sched.running ≠ idleTid)
    (hidle : m.pc m.sched.running = .idle) {e : Ev S L C} (h : m.call m.sched.running e = some m') :
    m'.Inv v := by
  have hnc : ∀ c, m.sched.running ∉ m.conds c := fun c hc => by
    simpa [hidle, Pc.CondWaiting] using (hi.cond_pc c _ hc).1
  cases e with
  | semaDown s =>
    cases h
    exact (hi.tick _).start hr hidle (fun _ => id) (fun _ h => by simp [Pc.lock] at h) (fun _ => id)
  | lockAcquire l =>
    simp only [Synch.call] at h
    split at h
    · cases h
    · rename_i hh
      cases h
      refine hi.start hr hidle (fun _ => id) (fun l' e => ?_) (fun _ => id)
      simp only [Pc.lock, Option.some.injEq] at e
      exact e ▸ hh
  | lockTryAcquire l =>
    simp only [Synch.call] at h
    split at h
    · cases h
    · rename_i hh
      by_cases hv : (m.sched.sema (.lock l)).value = 0
      · -- `sema_try_down` fails and nothing changes
        rw [tryDown_of_eq hv] at h
        cases h
        exact hi
      · rw [tryDown_of_ne hv] at h
        cases h
        refine hi.take hr hv (by simp [hidle, Pc.Owns]) (fun _ => by simp [Pc.Owns])
          (fun l' hl e => hh ?_) (fun _ => id) hnc
        simp only [Pc.lock, Option.some.injEq] at e
        exact e ▸ hl
  | lockRelease l =>
    simp only [Synch.call] at h
    split at h
    · cases h
      exact hi.leave hr hidle ‹_›
    · cases h
  | condWait c l =>
    simp only [Synch.call] at h
    split at h
    · cases h
      exact hi.condWait hr hidle ‹_›
    · cases h
  | condSignal c l =>
    simp only [Synch.call] at h
    split at h
    · split at h
      · cases h
        exact hi
      · exact hi.signal ‹_› h
    · cases h
  | semaTryDown _ | semaUp _ | resume | yield | create => cases h

omit [DecidableEq C] in
theorem Inv.resume (hi : m.Inv v) (hr : m.sched.running ≠ idleTid)
    (h : m.resume m.sched.running (m.pc m.sched.running) = some m') : m'.Inv v := by
  cases hp : m.pc m.sched.running with
  | idle =>
    rw [hp] at h
    cases h
  | down s =>
    rw [hp] at h
    cases h
    exact hi.downStep hr (by rw [hp]; rfl) (fun _ => by simp [Pc.Owns]) (by rw [hp]; rfl)
      (fun _ => id)
  | acquire l =>
    rw [hp] at h
    cases h
    exact hi.downStep hr (by rw [hp]; rfl) (fun _ => by simp [Pc.Owns]) (by rw [hp]; rfl)
      (fun _ => id)
  | acquired l =>
    rw [hp] at h
    cases h
    exact hi.enter hr (by rw [hp]; rfl) (fun _ => by rw [hp]; exact id)
  | release l =>
    rw [hp] at h
    obtain ⟨m'', hu, rfl⟩ := Option.map_eq_some_iff.mp h
    exact hi.release hr (by rw [hp]; rfl) (fun _ => id) (.inl rfl) (by simp [hp, Pc.CondWaiting]) hu
  | waitRelease c l =>
    rw [hp] at h
    obtain ⟨m'', hu, rfl⟩ := Option.map_eq_some_iff.mp h
    exact hi.release hr (by rw [hp]; rfl) (fun _ => id) (.inr rfl) (by simp [hp, Pc.CondWaiting]) hu
  | waitDown c l =>
    rw [hp] at h
    cases h
    exact hi.downStep hr (by rw [hp]; rfl) (fun _ => by simp [Pc.Owns]) (by rw [hp]; rfl)
      (fun _ => id)
  | waitAcquire c l =>
    rw [hp] at h
    cases h
    exact hi.downStep hr (by rw [hp]; rfl) (fun _ => by simp [Pc.Owns]) (by rw [hp]; rfl)
      (fun _ => id)
  | waitAcquired c l =>
    rw [hp] at h
    cases h
    exact hi.enter hr (by rw [hp]; rfl) (fun _ => by rw [hp]; exact id)

/-- Every event keeps the invariant: a call, the next step of one, an interrupt's `sema_up` or
`sema_try_down`, a preemption, `thread_create`. -/
theorem Inv.step (hi : m.Inv v) {e : Ev S L C} (h : m.step e = some m') : m'.Inv v := by
  cases e with
  | semaUp s => exact hi.up_free h (fun _ => by simp) (fun _ _ _ => by simp)
  | semaTryDown s =>
    cases h
    exact hi.tryDown_plain s
  | yield =>
    cases h
    exact hi.yield
  | create =>
    simp only [Synch.step] at h
    split at h
    · cases h
    · obtain ⟨s, hs, rfl⟩ := Option.map_eq_some_iff.mp h
      exact hi.create hs
  | resume =>
    simp only [Synch.step] at h
    split at h
    · cases h
    · exact hi.resume ‹_› h
  | semaDown _ | lockAcquire _ | lockTryAcquire _ | lockRelease _ | condWait _ _ | condSignal _ _ =>
    simp only [Synch.step] at h
    split at h
    · cases h
    · rename_i hn
      exact hi.call (fun e => hn (.inl e)) (not_not.mp fun e => hn (.inr e)) h

omit [DecidableEq S] [DecidableEq L] [DecidableEq C] in
theorem boot_inv (v : S → Nat) : (boot v : Synch S L C).Inv v where
  queues := boot_queueInv _
  waiting _ _ ht := by simp [boot, Threads.boot, semaInit] at ht
  count _ := by simp [boot, Threads.boot, semaInit]
  fifo _ := by simp [boot, Threads.boot, semaInit]
  queued_lt _ _ ht := by simp [boot, Threads.boot, semaInit] at ht
  locks _ := ⟨by simp [boot, Threads.boot, semaInit, initValue],
    by simp [boot, Threads.boot, semaInit, initValue, HasLock, Pc.Owns],
    fun _ _ ht => by simp [HasLock, boot, Pc.Owns] at ht, fun _ ht => by simp [boot] at ht⟩
  inside _ := rfl
  cond_fifo _ := List.Pairwise.nil
  cond_lt _ _ ht := by simp [boot] at ht
  cond_pc _ _ ht := by simp [boot] at ht
  cond_mem _ _ hw := by simp [boot, Pc.CondWaiting] at hw
  idle_pc := rfl
  fresh_pc _ _ := rfl

/-- Every run from `boot` keeps the invariant. -/
theorem inv_of_runs {es : List (Ev S L C)} (h : runs step (boot v) es = some m) : m.Inv v :=
  runs_inv (fun _ _ _ hs he => Inv.step hs he) (boot v) es (boot_inv v) h

end Run

end Steps

section Safety
variable [DecidableEq S] [DecidableEq L] [DecidableEq C] {v : S → Nat} {m : Synch S L C}

/-- What holds at every point of every run of synch.c: each semaphore's count, its waiters
blocked in its `sema_down` in the order they last queued themselves, which `sema_up` wakes from
the front; each lock's `holder` as the one thread between a completed `lock_acquire` and its
`lock_release`; each condition's front waiter as the earliest `cond_wait` caller still waiting,
which `cond_signal` wakes. -/
structure Safety (v : S → Nat) (m : Synch S L C) : Prop where
  count : ∀ i, (m.sched.sema i).value + m.downs i = initValue v i + m.ups i
  downs_le : ∀ i, m.downs i ≤ initValue v i + m.ups i
  waiting : ∀ i t, t ∈ (m.sched.sema i).waiters →
    m.sched.status t = some .blocked ∧ (m.pc t).downSema t = some i
  up_front : ∀ i t rest, (m.sched.sema i).waiters = t :: rest →
    (∀ u ∈ rest, m.queuedAt t < m.queuedAt u) ∧
      ∃ m', m.up i = some m' ∧ m'.sched.status = Function.update m.sched.status t (some .ready)
  inside : ∀ l, m.inside l = (m.holder l).toList
  signal_front : ∀ c t rest, m.conds c = t :: rest →
    (m.pc t).CondWaiting c ∧ m.ups (.waiter t) = 0 ∧
      (∀ u, (m.pc u).CondWaiting c → m.ups (.waiter u) = 0 → u ≠ t → m.condAt t < m.condAt u) ∧
      ∀ l, m.holder l = some m.sched.running →
        ∃ m', m.call m.sched.running (.condSignal c l) = some m' ∧ m'.ups (.waiter t) = 1 ∧
          m'.conds c = rest

theorem Inv.safety (hi : m.Inv v) : m.Safety v := by
  refine ⟨hi.count, fun i => by have := hi.count i; omega,
    fun i t ht => ⟨hi.queues.waiter_blocked i t ht, hi.waiting i t ht⟩,
    fun i t rest hw => ⟨fun u hu => ?_, ?_⟩, hi.inside, fun c t rest hc => ?_⟩
  · have := hi.fifo i
    rw [hw] at this
    exact List.rel_of_pairwise_cons this hu
  · obtain ⟨s', hs, hst⟩ := semaUp_head hw (hi.queues.waiter_blocked i t (by simp [hw]))
    exact ⟨{ m with sched := s', ups := Function.update m.ups i (m.ups i + 1) },
      by simp [up, hs], hst⟩
  · have ht : t ∈ m.conds c := by
      rw [hc]
      exact List.mem_cons_self
    obtain ⟨hw, h0⟩ := hi.cond_pc c t ht
    refine ⟨hw, h0, fun u hwu hu e => ?_, fun l hh => ?_⟩
    · -- every thread still waiting on `c` is on its list, behind the front one
      have hm := hi.cond_mem c u hwu hu
      have hfifo := hi.cond_fifo c
      rw [hc] at hm hfifo
      exact List.rel_of_pairwise_cons hfifo ((List.mem_cons.mp hm).resolve_left e)
    · have hpop : SemaInv v ({ m with conds := Function.update m.conds c rest } : Synch S L C) :=
        hi.toSemaInv.congr rfl rfl rfl rfl rfl (Nat.le_refl _)
      obtain ⟨m', hm'⟩ := hpop.up_some (.waiter t)
      obtain ⟨s', -, rfl⟩ := Option.map_eq_some_iff.mp hm'
      refine ⟨_, by simp only [Synch.call, if_pos hh, hc]; exact hm', ?_, ?_⟩ <;> simp [h0]

theorem synch_runs_safe {es : List (Ev S L C)} (h : runs step (boot v) es = some m) :
    m.Safety v :=
  (inv_of_runs h).safety

end Safety

/-- Thread 1 ups the semaphore that threads 3 and 4 wait on, in that order, and takes it again
before 3 runs; 3 finds `value` 0 and queues itself behind 4. -/
def bargingRun : List (Ev Nat Unit Unit) :=
  [.create, .create, .yield, .semaDown 0, .resume, .semaDown 0, .resume, .semaUp 0, .semaDown 0,
    .resume, .yield, .resume]

theorem synch_runs_safe_barging :
    ∃ m, runs step (boot fun _ => 0) bargingRun = some m ∧ m.Safety fun _ => 0 :=
  exists_of_runs_imp (p := fun _ => True) (by decide +kernel)
    fun _ hs _ => synch_runs_safe hs

/-- After the barging run, the next `sema_up` wakes thread 4 although thread 3 called
`sema_down` first and is still waiting. -/
theorem semaUp_wakes_later_caller :
    ∃ m, runs step (boot fun _ => 0) bargingRun = some m ∧
      (m.sched.sema (.plain 0)).waiters = [4, 3] ∧ m.calledAt 3 < m.calledAt 4 ∧
      (m.up (.plain 0)).map (fun m' => (m'.sched.status 4, m'.sched.status 3)) =
        some (some .ready, some .blocked) :=
  exists_of_runs (by decide +kernel)

/-! ### What each operation does to the holders and to where the threads are

A layer that takes a lock of synch.c, as the console does, reads its steps by these. -/

section Holders
variable {m m' : Synch S L C} {t : Tid} {l : L} {i : SemaId S L} {p : Pc S L C}

@[simp] theorem setPc_holder : (m.setPc t p).holder = m.holder := rfl

@[simp] theorem setPc_pc : (m.setPc t p).pc = Function.update m.pc t p := rfl

variable [DecidableEq L]

@[simp] theorem enter_holder : (m.enter l t).holder = Function.update m.holder l (some t) := rfl

@[simp] theorem enter_pc : (m.enter l t).pc = m.pc := rfl

@[simp] theorem leave_holder : (m.leave l t).holder = Function.update m.holder l none := rfl

@[simp] theorem leave_pc : (m.leave l t).pc = m.pc := rfl

variable [DecidableEq S]

theorem pass_holder_pc : (m.pass i).1.holder = m.holder ∧ (m.pass i).1.pc = m.pc := by
  unfold pass
  split <;> exact ⟨rfl, rfl⟩

theorem downStep_holder_pc :
    (m.downStep t i p).holder = m.holder ∧
      ((m.downStep t i p).pc = m.pc ∨ (m.downStep t i p).pc = Function.update m.pc t p) := by
  have hp := pass_holder_pc (m := m) (i := i)
  unfold downStep
  rcases hpass : m.pass i with ⟨m', _ | _⟩ <;> rw [hpass] at hp
  · exact ⟨hp.1, .inl hp.2⟩
  · exact ⟨hp.1, .inr (by rw [setPc_pc, hp.2])⟩

theorem up_holder_pc (h : m.up i = some m') : m'.holder = m.holder ∧ m'.pc = m.pc := by
  obtain ⟨s, -, rfl⟩ := Option.map_eq_some_iff.mp h
  exact ⟨rfl, rfl⟩

end Holders

end Synch

end Pintos.Threads
