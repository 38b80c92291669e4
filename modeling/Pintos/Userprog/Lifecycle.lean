import Pintos.Userprog.Process

/-! What holds over whole runs of the kernel machine. Once only the idle thread can run, no
other thread ever moves again; and no step frees a `fn_copy_malloc` copy. Each result is
followed by the runs from `boot` in which the user-process code goes wrong. -/
namespace Pintos.Userprog
open Pintos.Threads Pintos.Kit

namespace Kernel
variable {s s' : Kernel} {t : Tid}

section Copies

/-- The `fn_copy_malloc` copies still allocated, oldest first. -/
def nameCopies (s : Kernel) : List Block := s.live.filter (·.site = .fnCopyMalloc)

theorem nameCopies_of_live (h : s'.live = s.live) : s'.nameCopies = s.nameCopies := by
  simp [nameCopies, h]

@[simp] theorem nameCopies_setPc (p : Pc) : (s.setPc t p).nameCopies = s.nameCopies := rfl
@[simp] theorem nameCopies_setProc (f : Proc → Proc) : (s.setProc t f).nameCopies = s.nameCopies := rfl
@[simp] theorem nameCopies_setSched (sc : Sched SemaId) : (s.setSched sc).nameCopies = s.nameCopies := rfl
@[simp] theorem nameCopies_enterFs : (s.enterFs t).nameCopies = s.nameCopies := rfl
@[simp] theorem nameCopies_leaveFs : (s.leaveFs t).nameCopies = s.nameCopies := rfl
@[simp] theorem nameCopies_holder (h : Option Tid) : ({ s with holder := h } : Kernel).nameCopies = s.nameCopies := rfl
@[simp] theorem nameCopies_block : s.block.nameCopies = s.nameCopies := rfl
@[simp] theorem nameCopies_alloc (site : Site) :
    (s.alloc site).1.nameCopies = s.nameCopies ++ [(⟨site, s.nextBlock⟩ : Block)].filter (·.site = .fnCopyMalloc) := by
  simp [nameCopies, alloc, List.filter_append]
@[simp] theorem nameCopies_free (b : Block) (hb : b.site ≠ .fnCopyMalloc) :
    (s.free b).nameCopies = s.nameCopies := by
  have hn : b ∉ s.nameCopies := by simp [nameCopies, hb]
  simp only [nameCopies, free]
  rw [← List.erase_filter]
  exact List.erase_of_not_mem hn


theorem lockRelease_live (h : s.lockRelease = some s') : s'.live = s.live := by
  unfold lockRelease at h
  obtain ⟨sc, -, rfl⟩ := Option.map_eq_some_iff.mp h
  rfl

theorem unblock_live {c : Tid} (h : s.unblock c = some s') : s'.live = s.live := by
  unfold unblock at h
  obtain ⟨sc, -, rfl⟩ := Option.map_eq_some_iff.mp h
  rfl

theorem execReturn_live {tid : Int32} {k : ExecRet} (h : s.execReturn t tid k = some s') :
    s'.live = s.live := by
  cases k with
  | runTask => cases h; rfl
  | sysExec =>
    obtain ⟨s1, h1, rfl⟩ := Option.map_eq_some_iff.mp h
    simpa using lockRelease_live h1

theorem waitReturn_live {v : Int32} {k : WaitRet} (h : s.waitReturn t v k = some s') :
    s'.live = s.live := by
  cases k <;> (cases h; rfl)

theorem removeChild_live {c : Tid} (h : s.removeChild c = some s') : s'.live = s.live := by
  unfold removeChild at h
  split at h
  · split at h
    · cases h; simp
    · cases h
  · cases h

theorem pushChild_live {p c : Tid} (h : s.pushChild p c = some s') : s'.live = s.live := by
  unfold pushChild at h
  split at h
  · cases h
  · cases h; simp

theorem fault_live (h : s.fault t = some s') : s'.live = s.live := by
  unfold fault at h
  split at h
  · cases h
  · cases h; rfl

@[simp] theorem down_live (i : SemaId) (n : Pc) : (s.down t i n).live = s.live := by
  unfold down; split <;> rfl

/-- No `fn_copy_malloc` copy of `s` is freed in `s'`; new ones may come after them. -/
def Grows (s s' : Kernel) : Prop := s.nameCopies <+: s'.nameCopies

theorem Grows.of_live (h : s'.live = s.live) : Grows s s' := by
  simp only [Grows, nameCopies_of_live h, List.prefix_refl]

theorem Grows.trans {s'' : Kernel} (h1 : Grows s s') (h2 : Grows s' s'') : Grows s s'' :=
  List.IsPrefix.trans h1 h2

/-- A step that maps a result onto a state with the blocks of s, such as a pointer update or
a program-counter move after an operation that allocates nothing. -/
theorem Grows.of_map {α : Type} {o : Option α} {f : α → Kernel}
    (h : o.map f = some s') (hf : ∀ a, o = some a → (f a).live = s.live) : Grows s s' := by
  obtain ⟨a, ha, rfl⟩ := Option.map_eq_some_iff.mp h
  exact Grows.of_live (hf a ha)

theorem Grows.of_free {site : Site} {n : Nat} (hb : site ≠ .fnCopyMalloc)
    (h : s'.live = (s.free ⟨site, n⟩).live) : Grows s s' := by
  simp only [Grows, nameCopies_of_live h, nameCopies_free ⟨site, n⟩ hb, List.prefix_refl]

theorem runExecute_grows {ok : Bool} {p : Pc} (h : s.runExecute t ok p = some s') : Grows s s' := by
  cases p
  case execute k =>
    simp only [runExecute] at h
    split at h
    · cases h; simp [Grows]
    · exact Grows.of_live (execReturn_live h)
  case copy fnCopy k =>
    simp only [runExecute] at h
    split at h
    · cases h; simp [Grows]
    · exact Grows.of_free (by decide) (execReturn_live h)
  case create fnCopy k =>
    simp only [runExecute] at h
    split at h
    · exact Grows.of_map h (fun _ _ => rfl)
    · exact Grows.of_free (by decide) (execReturn_live h)
  case createInit c fnCopy k =>
    simp only [runExecute] at h
    split at h
    · split at h
      · cases h; exact Grows.of_live rfl
      · exact Grows.of_map h (fun _ h1 => (pushChild_live h1 :))
    · cases h
  case lookupChild c fnCopy k =>
    simp only [runExecute] at h
    split at h
    · exact Grows.of_live (fault_live h)
    · cases h; exact Grows.of_live rfl
  case handshakeWait c fnCopy k =>
    simp only [runExecute] at h
    split at h
    · cases h; exact Grows.of_live (by simp)
    · cases h
  case releaseUnblock c tid fnCopy k => exact Grows.of_map h (fun _ h1 => (unblock_live h1 :))
  case executeEnd tid fnCopy k =>
    simp only [runExecute] at h
    split at h
    · exact Grows.of_free (by decide) (execReturn_live h)
    · exact Grows.of_live (execReturn_live h)
  all_goals simp only [runExecute] at h
  all_goals (repeat' split at h) <;> first | (cases h; done) | (cases h; exact Grows.of_live rfl)

theorem runStart_grows {ok : Bool} {p : Pc} (h : s.runStart t ok p = some s') : Grows s s' := by
  cases p
  case launch fnCopy a =>
    cases h
    simp [Grows]
  case failed a =>
    cases h
    cases a <;> simp [Grows]
  all_goals simp only [runStart] at h
  all_goals (repeat' split at h) <;>
    first
    | (cases h; done)
    | (cases h; simp [Grows])
    | exact Grows.of_map h (fun _ _ => rfl)

theorem runWait_grows {p : Pc} (h : s.runWait t p = some s') : Grows s s' := by
  cases p
  case wait tid k =>
    simp only [runWait] at h
    split at h
    · exact Grows.of_live (fault_live h)
    · split at h <;> (cases h; exact Grows.of_live rfl)
  case waitUnblockDo c v k => exact Grows.of_map h (fun _ h1 => (unblock_live h1 :))
  case waitEnd c v k =>
    simp only [runWait] at h
    split at h
    · exact Grows.of_live (waitReturn_live h :)
    · cases h
  all_goals simp only [runWait] at h
  all_goals (repeat' split at h) <;>
    first | (cases h; done) | (cases h; exact Grows.of_live (by simp))

theorem runExit_grows {ok : Bool} {p : Pc} (h : s.runExit t ok p = some s') : Grows s s' := by
  cases p <;> unfold runExit at h <;> dsimp only at h
  case fsLeave c =>
    split at h
    · exact Grows.of_live (lockRelease_live h :)
    · cases h; exact Grows.of_live rfl
  case exit status =>
    split at h
    · exact Grows.of_map h (fun _ h1 => (lockRelease_live h1 :))
    · cases h; exact Grows.of_live rfl
  case destroy =>
    split at h <;> (cases h; simp [Grows])
  case exitUnblock c => exact Grows.of_map h (fun _ h1 => (unblock_live h1 :))
  case orphanRemove c => exact Grows.of_map h (fun _ h1 => (removeChild_live h1 :))
  case unlinkRemove => exact Grows.of_map h (fun _ h1 => (removeChild_live h1 :))
  all_goals (repeat' split at h) <;>
    first
    | (cases h; done)
    | (cases h; exact Grows.of_live rfl)
    | exact Grows.of_map h (fun _ _ => rfl)

private theorem orElse_cases {α : Type} {a : Option α} {b : Unit → Option α} {x : α}
    (h : a.orElse b = some x) : a = some x ∨ b () = some x := by
  cases a <;> simp_all

theorem run_grows {ok : Bool} (h : s.run ok = some s') : Grows s s' := by
  simp only [run] at h
  split at h
  · cases h
    exact Grows.of_live rfl
  · -- the four groups, in the order `run` tries them
    rcases orElse_cases h with h | h
    · rcases orElse_cases h with h | h
      · exact runExecute_grows h
      · exact runStart_grows h
    · rcases orElse_cases h with h | h
      · exact runWait_grows h
      · exact runExit_grows h

@[simp] theorem trap_live (c : UserCall) : (s.trap t c).live = s.live := by
  cases c <;> simp only [trap] <;> (try split) <;> rfl

theorem step_grows {e : Event} (h : step s e = some s') : Grows s s' := by
  cases e with
  | run ok => exact run_grows h
  | tick =>
    cases h
    exact Grows.of_live rfl
  | call c =>
    simp only [step] at h
    split at h
    · cases h
      exact Grows.of_live (trap_live c)
    · cases h

/-- Along every run, every `fn_copy_malloc` copy stays allocated: no code frees one. -/
theorem runs_keeps_nameCopy {es : List Event} {b : Block} (h : runs step s es = some s')
    (hb : b ∈ s.live) (hsite : b.site = .fnCopyMalloc) : b ∈ s'.live := by
  have hg : Grows s s' :=
    (runs_rel (I := fun _ => True) (fun _ => Grows.of_live rfl) (fun _ _ _ => Grows.trans)
      (fun _ _ _ _ he => ⟨trivial, step_grows he⟩) s es trivial h).2
  have hmem : b ∈ s'.nameCopies := hg.subset (by simp [nameCopies, hb, hsite])
  simp only [nameCopies, List.mem_filter] at hmem
  exact hmem.1

/-- `n` steps of the running thread in which every allocation, load and open succeeds. -/
def steps (n : Nat) : List Event := List.replicate n (.run true)

/-- `run_task` runs `process_execute` on a program that loads, up to its return: the child
(tid 3) has loaded, done the handshake and been unblocked. -/
def execLoaded : List Event := steps 21

/-- `process_execute` returns the child's tid with the `fn_copy_malloc` copy of the command
line allocated, and no continuation of the run ever frees it. -/
theorem execute_keeps_name_copy :
    ∃ s, runs step boot execLoaded = some s ∧ s.pc initialTid = .wait 3 .runTask ∧
      (⟨.fnCopyMalloc, 1⟩ : Block) ∈ s.live ∧
      ∀ es s', runs step s es = some s' → (⟨.fnCopyMalloc, 1⟩ : Block) ∈ s'.live := by
  obtain ⟨s, hrun, hpc, hmem⟩ : ∃ s, runs step boot execLoaded = some s ∧
      s.pc initialTid = .wait 3 .runTask ∧ (⟨.fnCopyMalloc, 1⟩ : Block) ∈ s.live :=
    exists_of_runs (by decide +kernel)
  exact ⟨s, hrun, hpc, hmem, fun _ _ h => runs_keeps_nameCopy h hmem rfl⟩

end Copies

section SelfFile

/-- The child has loaded its executable, and `load` has closed it again; `start_process` now
opens it a second time to deny writes to it. When that `filesys_open` finds no memory for the
directory, the inode or the file, it returns a null pointer, and `file_deny_write` stops the
kernel on its `ASSERT (file != NULL)`. -/
theorem reopen_failure_denies_null :
    ∃ s, runs step boot (steps 11) = some s ∧ s.sched.running = 3 ∧
      s.pc 3 = .selfFileDone 0 2 ∧ step s (.run false) = none :=
  exists_of_runs (by decide +kernel)

end SelfFile

section Idle

/-- Only the idle thread can run: it is in its loop and nothing is ready. -/
structure Idle (s : Kernel) : Prop where
  running : s.sched.running = idleTid
  ready : s.sched.readyList = []
  loop : s.pc idleTid = .idle

/-- What stays as it was: every thread's point and fields, and every status but the idle
thread's. -/
def Frozen (s s' : Kernel) : Prop :=
  s'.pc = s.pc ∧ s'.proc = s.proc ∧ ∀ u, u ≠ idleTid → s'.sched.status u = s.sched.status u

theorem step_of_idle {e : Event} (hi : Idle s) (h : step s e = some s') :
    Idle s' ∧ Frozen s s' := by
  cases e with
  | run ok =>
    have hs : s' = s.block := by
      simp only [step, run, hi.running, hi.loop] at h
      exact (Option.some.inj h).symm
    obtain ⟨hr, hq, hst⟩ := threadBlock_of_idle hi.running hi.ready
    subst hs
    exact ⟨⟨hr, hq, hi.loop⟩, rfl, rfl, hst⟩
  | tick =>
    have hs : s' = s.setSched s.sched.threadYield := (Option.some.inj h).symm
    obtain ⟨hr, hq, hst⟩ := threadYield_of_idle hi.running hi.ready
    subst hs
    exact ⟨⟨hr, hq, hi.loop⟩, rfl, rfl, hst⟩
  | call c =>
    simp [step, hi.running, hi.loop] at h

theorem runs_of_idle {es : List Event} (hi : Idle s) (h : runs step s es = some s') :
    Idle s' ∧ Frozen s s' :=
  runs_rel (fun _ => ⟨rfl, rfl, fun _ _ => rfl⟩)
    (fun _ _ _ hab hbc => ⟨hbc.1.trans hab.1, hbc.2.1.trans hab.2.1,
      fun u hu => (hbc.2.2 u hu).trans (hab.2.2 u hu)⟩)
    (fun _ _ _ hs he => step_of_idle hs he) s es hi h

/-- The child of `run_task` runs first after `process_execute` returns, exits with `status`
and blocks in `process_exit` for its parent; then `run_task` calls `process_wait`. -/
def exitBeforeWait (status : Int32) : List Event :=
  execLoaded ++ [.tick, .run true, .call (.exit status)] ++ steps 11

/-- With status 0, `process_wait` takes the child for one still running and waits on its
`self_wait` for a `sema_up` that `process_exit` has already skipped. Nothing is left to run,
and on every run from there the boot thread stays blocked in that wait. -/
theorem wait_after_exit_zero_blocks :
    ∃ s, runs step boot (exitBeforeWait 0) = some s ∧ (s.proc 3).returnStatus = 0 ∧
      s.pc 3 = .destroy ∧
      ∀ es s', runs step s es = some s' →
        s'.pc initialTid = .waitSema 3 .runTask ∧ s'.sched.status initialTid = some .blocked := by
  obtain ⟨s, hrun, ⟨hr, hq, hl⟩, ⟨hrs, hp3⟩, hpc, hst⟩ : ∃ s,
      runs step boot (exitBeforeWait 0) = some s ∧
      (s.sched.running = idleTid ∧ s.sched.readyList = [] ∧ s.pc idleTid = .idle) ∧
      ((s.proc 3).returnStatus = 0 ∧ s.pc 3 = .destroy) ∧
      s.pc initialTid = .waitSema 3 .runTask ∧ s.sched.status initialTid = some .blocked :=
    exists_of_runs (by decide +kernel)
  refine ⟨s, hrun, hrs, hp3, fun es s' h => ?_⟩
  obtain ⟨-, hpc', -, hst'⟩ := runs_of_idle ⟨hr, hq, hl⟩ h
  refine ⟨?_, ?_⟩
  · rw [hpc']
    exact hpc
  · rw [hst' initialTid (by decide)]
    exact hst

/-- With status 1, `process_wait` returns 1 at once and never unblocks the child, which is
still blocked in `process_exit` before destroying its page directory. `run_task` is done and
nothing is ready, but the child's thread page and page directory, and the `fn_copy_malloc`
copy, are still allocated, where before `process_execute` no block was. -/
theorem exit_before_wait_keeps_child :
    boot.live = [] ∧ ∃ s, runs step boot (exitBeforeWait 1) = some s ∧
      s.pc initialTid = .done ∧ s.sched.readyList = [] ∧ s.sched.status 3 = some .blocked ∧
      s.pc 3 = .destroy ∧ s.live = [⟨.fnCopyMalloc, 1⟩, ⟨.pagedir, 3⟩] :=
  ⟨rfl, exists_of_runs (by decide +kernel)⟩

end Idle

section Children

/-- `run_task`'s child (3) waits for nothing: it runs `exec`, and `process_execute` under
`file_lock` creates and loads a child (4) of its own, up to the return to user mode. -/
def nestedExec : List Event := execLoaded ++ steps 4 ++ [.call (.exec true)] ++ steps 22

/-- The grandchild exits first and blocks in `process_exit`. Then its parent exits: the loop
of `thread_exit` unblocks it, and a timer interrupt lets it finish, unlink itself and die
before the loop moves on. -/
def childExitsFirst : List Event :=
  nestedExec ++ [.tick, .run true, .call (.exit 0)] ++ steps 8 ++ [.call (.exit 0)] ++ steps 5 ++
    [.tick] ++ steps 4

/-- The parent's next step is the `list_next` of its loop, which reads the `child_elem` in the
page of its child; `thread_schedule_tail` has freed that page, and the machine stops there. -/
theorem exit_loop_reads_freed_child :
    ∃ s, runs step boot childExitsFirst = some s ∧ s.sched.running = 3 ∧ s.pc 3 = .exitNext 4 ∧
      s.sched.status 4 = none ∧ ∀ ok, step s (.run ok) = none :=
  exists_of_runs (by decide +kernel)

/-- Both processes call `open` after the `exec`; the timer interrupt falls while the first is
inside `filesys_open`. Neither holds `file_lock`, and both are inside the file-system layer. -/
def twoOpens : List Event :=
  nestedExec ++ [.call (.file .open), .run true, .tick, .run true, .call (.file .open), .run true]

theorem two_threads_in_file_system :
    ∃ s, runs step boot twoOpens = some s ∧ s.inFs = [3, 4] ∧ s.holder = none :=
  exists_of_runs (by decide +kernel)

/-- Under the `file_lock` of its `exec`, run_task's child (3) has unblocked its own child (4)
once in the polling loop of `process_execute`. A timer interrupt lets 4 run: it returns to
user mode and calls `read`, whose `lock_acquire` queues it on `file_lock` and blocks it. Back
in 3, the loop finds 4 blocked again and unblocks it. -/
def execUnblocksWaiter : List Event :=
  execLoaded ++ steps 4 ++ [.call (.exec true)] ++ steps 19 ++ [.tick, .run true,
    .call (.file .read)] ++ steps 3

/-- Thread 4 ends up both on `ready_list` and on the waiters of `file_lock`, and
`THREAD_READY`. Two steps later `sys_exec` releases `file_lock`: `sema_up` pops 4 and
`thread_unblock` stops the kernel on its `ASSERT (t->status == THREAD_BLOCKED)`. -/
theorem exec_unblocks_lock_waiter :
    ∃ s, runs step boot execUnblocksWaiter = some s ∧ s.sched.readyList = [4] ∧
      (s.sched.sema .fileLock).waiters = [4] ∧ s.sched.status 4 = some .ready ∧
      ∃ s', runs step s (steps 2) = some s' ∧ ∀ ok, step s' (.run ok) = none := by
  obtain ⟨s, hrun, hready, hwait, hst, s', hs', hpanic⟩ : ∃ s,
      runs step boot execUnblocksWaiter = some s ∧ s.sched.readyList = [4] ∧
      (s.sched.sema .fileLock).waiters = [4] ∧ s.sched.status 4 = some .ready ∧
      ∃ s', runs step s (steps 2) = some s' ∧ step s' (.run true) = none ∧
        step s' (.run false) = none :=
    exists_of_runs (by decide +kernel)
  refine ⟨s, hrun, hready, hwait, hst, s', hs', fun ok => ?_⟩
  cases ok
  · exact hpanic.2
  · exact hpanic.1

end Children

end Kernel
end Pintos.Userprog
