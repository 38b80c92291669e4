import Pintos.Threads.Thread
import Mathlib.Logic.Relation

/-! Which list each thread's `elem` is on. thread.h: "only a thread in the ready state is on
the run queue, whereas only a thread in the blocked state is on a semaphore wait list".
The idle thread is the designed exception: `thread_yield` makes it ready without queueing it. -/
namespace Pintos.Threads
open Sched
variable {ι : Type}

section Switch
variable {s : Sched ι} {n u : Tid} {st : Status}

@[simp] theorem switchTo_running : (s.switchTo n).running = n := by
  unfold switchTo; split <;> rfl
@[simp] theorem switchTo_readyList : (s.switchTo n).readyList = s.readyList := by
  unfold switchTo; split <;> rfl
@[simp] theorem switchTo_sema : (s.switchTo n).sema = s.sema := by
  unfold switchTo; split <;> rfl
@[simp] theorem switchTo_nextTid : (s.switchTo n).nextTid = s.nextTid := by
  unfold switchTo; split <;> rfl
@[simp] theorem switchTo_allList : (s.switchTo n).allList = s.allList := by
  unfold switchTo; split <;> rfl

theorem switchTo_status_self : (s.switchTo n).status n = some .running := by
  unfold switchTo
  split
  · rename_i h
    simp [Function.update_of_ne (Ne.symm h.1)]
  · simp

theorem switchTo_status_cases (hu : u ≠ n) :
    (s.switchTo n).status u = s.status u ∨
      (s.status u = some .dying ∧ (s.switchTo n).status u = none) := by
  unfold switchTo
  split
  · rename_i h
    by_cases e : u = s.running
    · subst e
      exact .inr ⟨h.2.1, by simp⟩
    · exact .inl (by simp [Function.update_of_ne hu, Function.update_of_ne e])
  · exact .inl (by simp [Function.update_of_ne hu])

theorem switchTo_status_of_ne (hu : u ≠ n) (hd : s.status u ≠ some .dying) :
    (s.switchTo n).status u = s.status u := by
  rcases switchTo_status_cases (s := s) hu with h | h
  · exact h
  · exact absurd h.1 hd

theorem status_of_switchTo (hu : u ≠ n) (h : (s.switchTo n).status u = some st) :
    s.status u = some st := by
  rcases switchTo_status_cases (s := s) hu with e | e
  · rwa [← e]
  · rw [e.2] at h
    cases h

/-- With nothing ready and the idle thread running, whatever status the idle thread is given
before the switch, the scheduler switches straight back to it and no other status changes. -/
theorem switchTo_idle_of_idle (hr : s.running = idleTid) (hq : s.readyList = [])
    (st : Option Status) :
    ((s.setStatus idleTid st).switchTo idleTid).running = idleTid ∧
      ((s.setStatus idleTid st).switchTo idleTid).readyList = [] ∧
      ∀ u, u ≠ idleTid → ((s.setStatus idleTid st).switchTo idleTid).status u = s.status u := by
  refine ⟨switchTo_running, by simp [hq], fun u hu => ?_⟩
  simp [switchTo, hr, Function.update_of_ne hu]

theorem threadBlock_of_idle (hr : s.running = idleTid) (hq : s.readyList = []) :
    s.threadBlock.running = idleTid ∧ s.threadBlock.readyList = [] ∧
      ∀ u, u ≠ idleTid → s.threadBlock.status u = s.status u := by
  have hs : s.threadBlock = (s.setStatus idleTid (some .blocked)).switchTo idleTid := by
    simp [threadBlock, schedule, hq, hr]
  rw [hs]
  exact switchTo_idle_of_idle hr hq _

theorem threadYield_of_idle (hr : s.running = idleTid) (hq : s.readyList = []) :
    s.threadYield.running = idleTid ∧ s.threadYield.readyList = [] ∧
      ∀ u, u ≠ idleTid → s.threadYield.status u = s.status u := by
  have hs : s.threadYield = (s.setStatus idleTid (some .ready)).switchTo idleTid := by
    simp [threadYield, schedule, hq, hr]
  rw [hs]
  exact switchTo_idle_of_idle hr hq _

end Switch

/-- The list invariants: `ready_list` holds each ready thread other than the idle thread once,
each waiter is blocked and queued on one semaphore only, and no tid from `nextTid` on is used. -/
structure Lists (s : Sched ι) : Prop where
  idle_lt : idleTid < s.nextTid
  fresh : ∀ t, s.nextTid ≤ t → s.status t = none
  idle_live : s.status idleTid ≠ none
  idle_not_dying : s.status idleTid ≠ some .dying
  ready_nodup : s.readyList.Nodup
  ready_iff : ∀ t, t ≠ idleTid → (t ∈ s.readyList ↔ s.status t = some .ready)
  idle_off : idleTid ∉ s.readyList
  waiters_nodup : ∀ i, (s.sema i).waiters.Nodup
  waiter_blocked : ∀ i t, t ∈ (s.sema i).waiters → s.status t = some .blocked
  waiter_unique : ∀ i j t, t ∈ (s.sema i).waiters → t ∈ (s.sema j).waiters → i = j
  idle_no_wait : ∀ i, idleTid ∉ (s.sema i).waiters

/-- Between two operations exactly the running thread has status running. -/
structure QueueInv (s : Sched ι) : Prop extends Lists s where
  running : s.status s.running = some .running
  running_unique : ∀ t, s.status t = some .running → t = s.running

theorem Lists.not_dying_of_waiter {s : Sched ι} (h : Lists s) {i : ι} {t : Tid}
    (ht : t ∈ (s.sema i).waiters) : s.status t ≠ some .dying := by
  rw [h.waiter_blocked i t ht]
  simp

theorem Lists.lt_of_status {s : Sched ι} (h : Lists s) {t : Tid} {st : Status}
    (ht : s.status t = some st) : t < s.nextTid := by
  by_contra hn
  rw [h.fresh t (Nat.le_of_not_lt hn)] at ht
  cases ht

/-- `schedule` from a state where the lists are right and nothing is marked running, as every
operation leaves it after changing the running thread's status. -/
theorem schedule_queueInv {s : Sched ι} (h : Lists s) (hr : ∀ t, s.status t ≠ some .running) :
    QueueInv s.schedule := by
  unfold schedule
  split
  · rename_i hl
    have hidle : (s.switchTo idleTid).status idleTid = some .running := switchTo_status_self
    refine ⟨⟨by simpa using h.idle_lt, ?_, by simp [hidle], by simp [hidle], by simp [hl], ?_,
      by simp [hl], by simpa using h.waiters_nodup, ?_, by simpa using h.waiter_unique,
      by simpa using h.idle_no_wait⟩, by simpa using hidle, ?_⟩
    · intro t ht
      have hne : t ≠ idleTid := Nat.ne_of_gt (Nat.lt_of_lt_of_le h.idle_lt (by simpa using ht))
      rcases switchTo_status_cases (s := s) hne with e | e
      · rw [e, h.fresh t (by simpa using ht)]
      · exact e.2
    · intro t hne
      simp only [switchTo_readyList, hl, List.not_mem_nil, false_iff]
      intro e
      have := (h.ready_iff t hne).mpr (status_of_switchTo hne e)
      simp [hl] at this
    · intro i t ht
      simp only [switchTo_sema] at ht
      have hne : t ≠ idleTid := fun e => h.idle_no_wait i (e ▸ ht)
      rw [switchTo_status_of_ne hne (h.not_dying_of_waiter ht)]
      exact h.waiter_blocked i t ht
    · intro t ht
      by_cases e : t = idleTid
      · simpa using e
      · exact absurd (status_of_switchTo e ht) (hr t)
  · rename_i n rest hl
    have hn : n ≠ idleTid := fun e => h.idle_off (by simp [hl, e])
    have hready : s.status n = some .ready := (h.ready_iff n hn).mp (by simp [hl])
    have hnd : n ∉ rest ∧ rest.Nodup := by
      have := h.ready_nodup
      rw [hl] at this
      exact List.nodup_cons.mp this
    set s1 : Sched ι := { s with readyList := rest }
    have hs1 : s1.status = s.status := rfl
    have hnew : (s1.switchTo n).status n = some .running := switchTo_status_self
    have hkeep : ∀ u, u ≠ n → s.status u ≠ some .dying → (s1.switchTo n).status u = s.status u :=
      fun u hu hd => by rw [switchTo_status_of_ne hu (by rwa [hs1]), hs1]
    have hback : ∀ u st, u ≠ n → (s1.switchTo n).status u = some st → s.status u = some st :=
      fun u st hu e => by rw [← hs1]; exact status_of_switchTo hu e
    refine ⟨⟨by simpa [s1] using h.idle_lt, ?_, ?_, ?_, by simpa [s1] using hnd.2, ?_, ?_,
      by simpa [s1] using h.waiters_nodup, ?_, by simpa [s1] using h.waiter_unique,
      by simpa [s1] using h.idle_no_wait⟩, by simpa using hnew, ?_⟩
    · intro t ht
      have hne : t ≠ n := fun e => by
        have hf := h.fresh t (by simpa [s1] using ht)
        rw [e, hready] at hf
        cases hf
      rcases switchTo_status_cases (s := s1) hne with e | e
      · rw [e, hs1, h.fresh t (by simpa [s1] using ht)]
      · exact e.2
    · rw [hkeep idleTid (Ne.symm hn) h.idle_not_dying]
      exact h.idle_live
    · rw [hkeep idleTid (Ne.symm hn) h.idle_not_dying]
      exact h.idle_not_dying
    · intro t ht
      rw [switchTo_readyList]
      change t ∈ rest ↔ _
      by_cases e : t = n
      · subst e
        simp [hnew, hnd.1]
      · constructor
        · intro hm
          have hs : s.status t = some .ready := (h.ready_iff t ht).mp (by simp [hl, hm])
          rw [hkeep t e (by simp [hs]), hs]
        · intro hs
          have := (h.ready_iff t ht).mpr (hback t _ e hs)
          simpa [hl, e] using this
    · simpa [s1, hl] using fun e => h.idle_off (by simp [hl, e])
    · intro i t ht
      simp only [switchTo_sema, s1] at ht
      have hb := h.waiter_blocked i t ht
      have hne : t ≠ n := fun e => by
        rw [e, hready] at hb
        cases hb
      rw [hkeep t hne (by simp [hb]), hb]
    · intro t ht
      by_cases e : t = n
      · simpa using e
      · exact absurd (hback t _ e ht) (hr t)

private theorem nodup_push {l : List Tid} {t : Tid} (hl : l.Nodup) (ht : t ∉ l) :
    (l ++ [t]).Nodup :=
  List.nodup_append.mpr ⟨hl, by simp, fun a ha b hb => by
    rw [List.mem_singleton.mp hb]
    exact fun e => ht (e ▸ ha)⟩

theorem QueueInv.not_ready_running {s : Sched ι} (h : QueueInv s) : s.running ∉ s.readyList := by
  intro hm
  by_cases e : s.running = idleTid
  · exact h.idle_off (e ▸ hm)
  · have := (h.ready_iff _ e).mp hm
    rw [h.running] at this
    cases this

theorem QueueInv.not_waiting_running {s : Sched ι} (h : QueueInv s) (i : ι) :
    s.running ∉ (s.sema i).waiters := by
  intro hm
  have := h.waiter_blocked i _ hm
  rw [h.running] at this
  cases this

/-- Queueing a thread that is on no list at the back of `ready_list`, as `thread_unblock` and
`thread_yield` do. -/
theorem Lists.readyPush {s : Sched ι} (h : Lists s) {t : Tid} (ht : t ≠ idleTid)
    (hr : t ∉ s.readyList) (hw : ∀ i, t ∉ (s.sema i).waiters) (hlt : t < s.nextTid) :
    Lists (({ s with readyList := s.readyList ++ [t] } : Sched ι).setStatus t (some .ready)) where
  idle_lt := h.idle_lt
  fresh u hu := by
    have hne : u ≠ t := fun e => Nat.lt_irrefl _ (Nat.lt_of_lt_of_le (e ▸ hlt) hu)
    simpa [Function.update_of_ne hne] using h.fresh u hu
  idle_live := by simpa [Function.update_of_ne (Ne.symm ht)] using h.idle_live
  idle_not_dying := by simpa [Function.update_of_ne (Ne.symm ht)] using h.idle_not_dying
  ready_nodup := nodup_push h.ready_nodup hr
  ready_iff u hu := by
    by_cases e : u = t
    · subst e
      simp
    · simpa [Function.update_of_ne e, e] using h.ready_iff u hu
  idle_off := by simpa [Ne.symm ht] using h.idle_off
  waiters_nodup := h.waiters_nodup
  waiter_blocked i u hu := by
    have hne : u ≠ t := fun e => hw i (e ▸ hu)
    simpa [Function.update_of_ne hne] using h.waiter_blocked i u hu
  waiter_unique := h.waiter_unique
  idle_no_wait := h.idle_no_wait

theorem threadUnblock_queueInv {s s' : Sched ι} (h : QueueInv s) {t : Tid} (ht : t ≠ idleTid)
    (hw : ∀ i, t ∉ (s.sema i).waiters) (he : s.threadUnblock t = some s') : QueueInv s' := by
  unfold threadUnblock at he
  split at he
  · rename_i hb
    cases he
    have hr : t ∉ s.readyList := fun hm => by
      rw [(h.ready_iff t ht).mp hm] at hb
      cases hb
    have hne : s.running ≠ t := fun e => by
      rw [← e, h.running] at hb
      cases hb
    refine ⟨h.readyPush ht hr hw (h.lt_of_status hb), ?_, ?_⟩
    · simpa [Function.update_of_ne hne] using h.running
    · intro u hu
      by_cases e : u = t
      · subst e
        simp at hu
      · simpa using h.running_unique u (by simpa [Function.update_of_ne e] using hu)
  · cases he

/-- Setting the running thread to a status other than ready and running, as `thread_block`
and `thread_exit` do before `schedule`. -/
theorem QueueInv.setRunning {s : Sched ι} (h : QueueInv s) (st : Status)
    (hst : s.running ≠ idleTid → st ≠ .ready) (hrun : st ≠ .running) (hidle : st = .dying → s.running ≠ idleTid) :
    Lists (s.setStatus s.running (some st)) ∧
      ∀ t, (s.setStatus s.running (some st)).status t ≠ some .running := by
  refine ⟨⟨h.idle_lt, fun u hu => ?_, ?_, ?_, h.ready_nodup, fun u hu => ?_, h.idle_off,
    h.waiters_nodup, fun i u hu => ?_, h.waiter_unique, h.idle_no_wait⟩, fun u => ?_⟩
  · have hne : u ≠ s.running := fun e => by
      have := h.fresh u hu
      rw [e, h.running] at this
      cases this
    simpa [Function.update_of_ne hne] using h.fresh u hu
  · by_cases e : idleTid = s.running <;> simp [Function.update, e, h.idle_live]
  · by_cases e : idleTid = s.running
    · have : st ≠ .dying := fun d => hidle d e.symm
      simp [Function.update, e, this]
    · simp [Function.update_of_ne e, h.idle_not_dying]
  · by_cases e : u = s.running
    · subst e
      simp [h.not_ready_running, hst hu]
    · simpa [Function.update_of_ne e] using h.ready_iff u hu
  · have hne : u ≠ s.running := fun e => h.not_waiting_running i (e ▸ hu)
    simpa [Function.update_of_ne hne] using h.waiter_blocked i u hu
  · by_cases e : u = s.running
    · subst e
      simp [hrun]
    · simpa [Function.update_of_ne e] using fun hu => e (h.running_unique u hu)

theorem threadBlock_queueInv {s : Sched ι} (h : QueueInv s) : QueueInv s.threadBlock := by
  obtain ⟨hl, hr⟩ := h.setRunning .blocked (fun _ => by simp) (by simp) (by simp)
  exact schedule_queueInv hl hr

theorem threadYield_queueInv {s : Sched ι} (h : QueueInv s) : QueueInv s.threadYield := by
  unfold threadYield
  split
  · rename_i e
    obtain ⟨hl, hr⟩ := h.setRunning .ready (fun ne => absurd e ne) (by simp) (by simp)
    exact schedule_queueInv hl hr
  · rename_i e
    have hw : ∀ i, s.running ∉ (s.sema i).waiters := h.not_waiting_running
    refine schedule_queueInv (h.readyPush e h.not_ready_running hw (h.lt_of_status h.running))
      fun u hu => ?_
    by_cases eu : u = s.running
    · subst eu
      simp at hu
    · exact eu (h.running_unique u (by simpa [Function.update_of_ne eu] using hu))

theorem threadDie_queueInv {s : Sched ι} (h : QueueInv s) (hi : s.running ≠ idleTid) :
    QueueInv s.threadDie := by
  set s0 : Sched ι := { s with allList := s.allList.erase s.running }
  have h0 : QueueInv s0 := ⟨⟨h.idle_lt, h.fresh, h.idle_live, h.idle_not_dying, h.ready_nodup,
    h.ready_iff, h.idle_off, h.waiters_nodup, h.waiter_blocked, h.waiter_unique, h.idle_no_wait⟩,
    h.running, h.running_unique⟩
  obtain ⟨hl, hr⟩ := h0.setRunning .dying (fun _ => by simp) (by simp) (fun _ => hi)
  exact schedule_queueInv hl hr

theorem threadCreate_queueInv {s t : Sched ι} (h : QueueInv s)
    (he : s.threadAlloc.1.threadUnblock s.threadAlloc.2 = some t) : QueueInv t := by
  have hfree : s.status s.nextTid = none := h.fresh _ (Nat.le_refl _)
  have hnr : s.running ≠ s.nextTid := fun e => by
    have := h.running
    rw [e, hfree] at this
    cases this
  have hidle : idleTid ≠ s.nextTid := Nat.ne_of_lt h.idle_lt
  have hwait : ∀ i, s.nextTid ∉ (s.sema i).waiters := fun i hm => by
    have := h.waiter_blocked i _ hm
    rw [hfree] at this
    cases this
  have ha : QueueInv s.threadAlloc.1 := by
    refine ⟨⟨Nat.lt_succ_of_lt h.idle_lt, fun u hu => ?_, ?_, ?_, h.ready_nodup, fun u hu => ?_,
      h.idle_off, h.waiters_nodup, fun i u hu => ?_, h.waiter_unique, h.idle_no_wait⟩, ?_,
      fun u hu => ?_⟩
    · have hne : u ≠ s.nextTid := Nat.ne_of_gt (Nat.lt_of_succ_le hu)
      simpa [threadAlloc, Function.update_of_ne hne] using
        h.fresh u (Nat.le_of_succ_le hu)
    · simpa [threadAlloc, Function.update_of_ne hidle] using h.idle_live
    · simpa [threadAlloc, Function.update_of_ne hidle] using h.idle_not_dying
    · by_cases e : u = s.nextTid
      · subst e
        have : s.nextTid ∉ s.readyList := fun hm => by
          have := (h.ready_iff _ hu).mp hm
          rw [hfree] at this
          cases this
        simp [threadAlloc, this]
      · simpa [threadAlloc, Function.update_of_ne e] using h.ready_iff u hu
    · have hne : u ≠ s.nextTid := fun e => hwait i (e ▸ hu)
      simpa [threadAlloc, Function.update_of_ne hne] using h.waiter_blocked i u hu
    · simpa [threadAlloc, Function.update_of_ne hnr] using h.running
    · by_cases e : u = s.nextTid
      · subst e
        simp [threadAlloc] at hu
      · simpa [threadAlloc] using
          h.running_unique u (by simpa [threadAlloc, Function.update_of_ne e] using hu)
  exact threadUnblock_queueInv ha (Ne.symm hidle) (by simpa [threadAlloc] using hwait) he

theorem QueueInv.ready_not_waiting {s : Sched ι} (h : QueueInv s) {t : Tid} {i : ι}
    (ht : t ∈ s.readyList) : t ∉ (s.sema i).waiters := by
  intro hw
  have hb := h.waiter_blocked i t hw
  have hne : t ≠ idleTid := fun e => h.idle_off (e ▸ ht)
  rw [(h.ready_iff t hne).mp ht] at hb
  cases hb

/-- The state in which `thread_start` returns to `main`: the boot thread running, the idle
thread blocked after its first pass, and semaphore `i` made by `sema_init` with `v i`. -/
def boot (v : ι → Nat) : Sched ι where
  status t := if t = initialTid then some .running else if t = idleTid then some .blocked else none
  allList := [initialTid, idleTid]
  readyList := []
  running := initialTid
  sema i := semaInit (v i)
  nextTid := 3

theorem boot_queueInv (v : ι → Nat) : QueueInv (boot v) := by
  refine ⟨⟨by simp [boot, idleTid], fun t ht => ?_, by simp [boot, idleTid, initialTid],
    by simp [boot, idleTid, initialTid],
    by simp [boot], fun t ht => ?_, by simp [boot], fun i => by simp [boot, semaInit],
    fun i t ht => by simp [boot, semaInit] at ht, fun i j t ht => by simp [boot, semaInit] at ht,
    fun i => by simp [boot, semaInit]⟩, by simp [boot], fun t ht => ?_⟩
  · have h3 : 3 ≤ t := ht
    have h1 : t ≠ initialTid := fun e => absurd (e ▸ h3) (by decide)
    have h2 : t ≠ idleTid := fun e => absurd (e ▸ h3) (by decide)
    simp [boot, h1, h2]
  · simp only [boot, List.not_mem_nil, false_iff]
    split_ifs <;> simp
  · simp only [boot] at ht ⊢
    split_ifs at ht with h1 h2 <;> simp_all

section Semaphores
variable [DecidableEq ι]

private theorem mem_setSema {s : Sched ι} {i j : ι} {m : Semaphore} {t : Tid}
    (ht : t ∈ ((s.setSema i m).sema j).waiters) : (j = i ∧ t ∈ m.waiters) ∨
      (j ≠ i ∧ t ∈ (s.sema j).waiters) := by
  by_cases e : j = i
  · subst e
    exact .inl ⟨rfl, by simpa using ht⟩
  · exact .inr ⟨e, by simpa [Function.update_of_ne e] using ht⟩

/-- Replacing one semaphore by one whose waiters are some of the old ones, as `sema_up`
and the decrement in `sema_down` do. -/
theorem QueueInv.setSema_sub {s : Sched ι} (h : QueueInv s) {i : ι} {m : Semaphore}
    (hsub : ∀ t ∈ m.waiters, t ∈ (s.sema i).waiters) (hnd : m.waiters.Nodup) :
    QueueInv (s.setSema i m) := by
  have old : ∀ j t, t ∈ ((s.setSema i m).sema j).waiters → t ∈ (s.sema j).waiters := by
    intro j t ht
    rcases mem_setSema ht with ⟨rfl, hm⟩ | ⟨_, hm⟩
    · exact hsub t hm
    · exact hm
  refine ⟨⟨h.idle_lt, h.fresh, h.idle_live, h.idle_not_dying, h.ready_nodup, h.ready_iff,
    h.idle_off, fun j => ?_, fun j t ht => h.waiter_blocked j t (old j t ht),
    fun j k t hj hk => h.waiter_unique j k t (old j t hj) (old k t hk),
    fun j hj => h.idle_no_wait j (old j _ hj)⟩, h.running, h.running_unique⟩
  by_cases e : j = i
  · subst e
    simpa using hnd
  · simpa [Function.update_of_ne e] using h.waiters_nodup j

theorem Lists.addWaiter {s : Sched ι} (h : Lists s) {i : ι} {t : Tid}
    (hb : s.status t = some .blocked) (ht : t ≠ idleTid) (hw : ∀ j, t ∉ (s.sema j).waiters) :
    Lists (s.setSema i { s.sema i with waiters := (s.sema i).waiters ++ [t] }) := by
  have cases : ∀ j u, u ∈ ((s.setSema i { s.sema i with waiters := (s.sema i).waiters ++ [t] }).sema
      j).waiters → (j = i ∧ u = t) ∨ u ∈ (s.sema j).waiters := by
    intro j u hu
    rcases mem_setSema hu with ⟨rfl, hu⟩ | ⟨_, hu⟩
    · rcases List.mem_append.mp hu with hu | hu
      · exact .inr hu
      · exact .inl ⟨rfl, List.mem_singleton.mp hu⟩
    · exact .inr hu
  refine ⟨h.idle_lt, h.fresh, h.idle_live, h.idle_not_dying, h.ready_nodup, h.ready_iff,
    h.idle_off, fun j => ?_, fun j u hu => ?_, fun j k u hj hk => ?_, fun j hj => ?_⟩
  · by_cases e : j = i
    · subst e
      simpa using nodup_push (h.waiters_nodup j) (hw j)
    · simpa [Function.update_of_ne e] using h.waiters_nodup j
  · rcases cases j u hu with ⟨_, rfl⟩ | hu
    · simpa using hb
    · simpa using h.waiter_blocked j u hu
  · rcases cases j u hj with ⟨hji, hut⟩ | hj <;> rcases cases k u hk with ⟨hki, hut'⟩ | hk
    · exact hji.trans hki.symm
    · exact absurd (hut ▸ hk) (hw k)
    · exact absurd (hut' ▸ hj) (hw j)
    · exact h.waiter_unique j k u hj hk
  · rcases cases j _ hj with ⟨_, e⟩ | hj
    · exact ht e.symm
    · exact h.idle_no_wait j hj

theorem semaDown_queueInv {s : Sched ι} (h : QueueInv s) (i : ι) (hi : s.running ≠ idleTid) :
    QueueInv (s.semaDown i).1 := by
  unfold semaDown
  split
  · obtain ⟨hl, hr⟩ := h.setRunning .blocked (fun _ => by simp) (by simp) (by simp)
    have hw := hl.addWaiter (i := i) (by simp) hi (by simpa using h.not_waiting_running)
    exact schedule_queueInv hw (by simpa using hr)
  · exact h.setSema_sub (fun t ht => ht) (h.waiters_nodup i)

theorem semaUp_queueInv {s s' : Sched ι} (h : QueueInv s) {i : ι} (he : s.semaUp i = some s') :
    QueueInv s' := by
  unfold semaUp at he
  split at he
  · cases he
    exact h.setSema_sub (fun t ht => ht) (h.waiters_nodup i)
  · rename_i t rest hl
    have hnd : t ∉ rest ∧ rest.Nodup := by
      have := h.waiters_nodup i
      rw [hl] at this
      exact List.nodup_cons.mp this
    have h1 := h.setSema_sub (i := i) (m := ⟨(s.sema i).value + 1, rest⟩)
      (fun u hu => by simp [hl, hu]) hnd.2
    refine threadUnblock_queueInv h1 (fun e => h.idle_no_wait i (by simp [hl, e])) (fun j hj => ?_) he
    rcases mem_setSema hj with ⟨_, hj⟩ | ⟨e, hj⟩
    · exact hnd.1 hj
    · exact e (h.waiter_unique j i t hj (by simp [hl]))

/-- One operation of thread.c or synch.c within the contract their comments state: the running
thread creates a thread, yields, blocks itself, makes one pass of `sema_down` or exits; any
thread or interrupt handler runs `sema_up` or `sema_init` on a semaphore nobody waits on;
`thread_unblock` wakes a thread that blocked itself outside every semaphore. After its start
the idle thread only blocks itself and is preempted. Locks and condition variables reach the
lists only through these semaphore operations. -/
inductive Step : Sched ι → Sched ι → Prop
  | create {s t : Sched ι} : s.running ≠ idleTid →
      s.threadAlloc.1.threadUnblock s.threadAlloc.2 = some t → Step s t
  | yield (s : Sched ι) : Step s s.threadYield
  | block (s : Sched ι) : Step s s.threadBlock
  | unblock {s t : Sched ι} {u : Tid} : u ≠ idleTid → (∀ i, u ∉ (s.sema i).waiters) →
      s.threadUnblock u = some t → Step s t
  | semaInit (s : Sched ι) (i : ι) (v : Nat) : (s.sema i).waiters = [] →
      Step s (s.setSema i (semaInit v))
  | semaDown (s : Sched ι) (i : ι) : s.running ≠ idleTid → Step s (s.semaDown i).1
  | semaUp {s t : Sched ι} (i : ι) : s.semaUp i = some t → Step s t
  | exit (s : Sched ι) : s.running ≠ idleTid → Step s s.threadDie

theorem step_queueInv {s t : Sched ι} (h : QueueInv s) (hs : Step s t) : QueueInv t := by
  cases hs with
  | create _ he => exact threadCreate_queueInv h he
  | yield => exact threadYield_queueInv h
  | block => exact threadBlock_queueInv h
  | unblock hu hw he => exact threadUnblock_queueInv h hu hw he
  | semaInit i v hw => exact h.setSema_sub (by simp [semaInit]) (by simp [semaInit])
  | semaDown i hi => exact semaDown_queueInv h i hi
  | semaUp i he => exact semaUp_queueInv h he
  | exit hi => exact threadDie_queueInv h hi

/-- Every state thread.c and synch.c reach from boot keeps the queue invariant: a thread's
`elem` is on at most one list, once; ready threads other than the idle thread are exactly those
on `ready_list`, which never holds the idle thread; waiters are blocked; the running thread is
the only one running and is on no list. -/
theorem queueInv_reachable (v : ι → Nat) {s : Sched ι}
    (h : Relation.ReflTransGen Step (boot v) s) :
    QueueInv s ∧ ∀ t i, t ∈ s.readyList → t ∉ (s.sema i).waiters := by
  have hq : QueueInv s := by
    induction h with
    | refl => exact boot_queueInv v
    | tail _ hs ih => exact step_queueInv ih hs
  exact ⟨hq, fun t i ht => hq.ready_not_waiting ht⟩

end Semaphores

/-- The boot thread creates a thread and waits on semaphore 0; the new thread waits on
semaphore 1, so the idle thread runs; an interrupt handler ups semaphore 1; the timer then
preempts the idle thread. -/
def idlePreempted : Sched Nat :=
  let s1 := ((boot fun _ => 0 : Sched Nat).threadAlloc.1.threadUnblock 3).getD (boot fun _ => 0)
  let s3 := ((s1.semaDown 0).1.semaDown 1).1
  (s3.semaUp 1).getD s3 |>.threadYield

theorem idlePreempted_reachable :
    Relation.ReflTransGen Step (boot fun _ => 0 : Sched Nat) idlePreempted := by
  let s1 := ((boot fun _ => 0 : Sched Nat).threadAlloc.1.threadUnblock 3).getD (boot fun _ => 0)
  let s3 := ((s1.semaDown 0).1.semaDown 1).1
  have h1 : Relation.ReflTransGen Step (boot fun _ => 0 : Sched Nat) s1 :=
    .single (.create (by decide) rfl)
  have h2 := h1.tail (.semaDown s1 0 (by decide))
  have h3 := h2.tail (.semaDown (s1.semaDown 0).1 1 (by decide))
  have h4 := h3.tail (.semaUp (t := (s3.semaUp 1).getD s3) 1 rfl)
  exact h4.tail (.yield _)

/-- The four list conditions of thread.c read with no exception for the idle thread: one list
per thread, ready exactly on `ready_list`, waiters blocked, and the running thread on none. -/
def StrictQueues {ι : Type} (s : Sched ι) : Prop :=
  (∀ t i j, t ∈ (s.sema i).waiters → t ∈ (s.sema j).waiters → i = j) ∧
  (∀ t i, t ∈ s.readyList → t ∉ (s.sema i).waiters) ∧
  (∀ t, t ∈ s.readyList ↔ s.status t = some .ready) ∧
  (∀ i t, t ∈ (s.sema i).waiters → s.status t = some .blocked) ∧
  s.running ∉ s.readyList ∧ ∀ i, s.running ∉ (s.sema i).waiters

theorem idle_ready_off_readyList :
    ∃ s : Sched Nat, Relation.ReflTransGen Step (boot fun _ => 0) s ∧ ¬ StrictQueues s := by
  refine ⟨idlePreempted, idlePreempted_reachable, fun h => ?_⟩
  have hs : idlePreempted.status idleTid = some .ready := by decide
  have hr : idleTid ∉ idlePreempted.readyList := by decide
  exact hr ((h.2.2.1 idleTid).mpr hs)

end Pintos.Threads
