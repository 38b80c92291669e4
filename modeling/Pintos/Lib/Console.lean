import Pintos.Threads.Synch
import Pintos.Devices.Vga
import Pintos.Lib.Stdio
import Pintos.Kit.Grouped

/-! The console of lib/kernel/console.c over the lock of synch.c. `acquire_console` and
`release_console` make `console_lock` recursive with the counter `console_lock_depth`, so that a
thread that holds it and prints again, as `palloc_free` may from inside `putchar_have_lock`,
goes on where a second `lock_acquire` would fail its `ASSERT`. A thread's console calls are the
stack of the characters each has yet to write, and every character written carries its writer:
a thread's outermost call, or an interrupt handler, which takes no lock. While the lock is in
use, the characters of one outermost call stand together among those the threads write, and
no console call of a thread fails an `ASSERT`. -/
namespace Pintos.Lib
open Pintos.Kit Pintos.Threads Pintos.Devices

/-- `console_lock` and the threads: synch.c with one lock and no semaphores or conditions of
its own. -/
abbrev ConsoleSynch := Synch Empty Unit Empty

/-- Who wrote a character: thread `t` in its `call`-th outermost console call, or an interrupt
handler. -/
inductive Writer where
  | thread (t : Tid) (call : Nat)
  | intr
  deriving DecidableEq, Repr

def Writer.stamp : Writer → Option (Tid × Nat)
  | .thread t call => some (t, call)
  | .intr => none

/-- A call of the console's output functions. -/
inductive ConsoleCall where
  /-- `putbuf` of the bytes of BUFFER. -/
  | putbuf (buffer : List UInt8)
  | puts (s : List UInt8)
  | putchar (c : Int)
  | vprintf (format : List Char) (args : List Arg)

/-- What a console call hands to `putchar_have_lock` between its `acquire_console` and its
`release_console`: `puts` its string up to the NUL and a new-line, `vprintf` what `__vprintf`
outputs. -/
def ConsoleCall.chars : ConsoleCall → List UInt8
  | .putbuf buffer => buffer
  | .puts s => s.takeWhile (· != 0) ++ [10]
  | .putchar c => [UInt8.ofInt c]
  | .vprintf format args => (Lib.vprintf format args).map Char.toUInt8

/-- The console: `console_lock` and the threads, `use_console_lock`, `console_lock_depth`,
`write_cnt` and the VGA display, with the threads' console calls and what reached the display
and the serial port. -/
structure Console where
  synch : ConsoleSynch
  useLock : Bool
  depth : Nat
  writeCnt : Nat
  vga : Vga
  /-- The console calls each thread is in, innermost first, by the characters each has yet to
  write. -/
  frames : Tid → List (List UInt8)
  /-- How many outermost console calls each thread has begun. -/
  calls : Tid → Nat
  /-- The characters written, oldest first, with their writers. -/
  out : List (Writer × UInt8)

/-- A step of the console: the running thread enters a console call (up to its
`acquire_console`), writes the next character of its innermost call, or leaves the call it has
written (its `release_console`); an interrupt handler's console call; the next step of the
running thread in `lock_acquire` or `lock_release`, a preemption, `thread_create`;
`console_panic`. -/
inductive ConsoleEv where
  | call (c : ConsoleCall)
  | put
  | ret
  | intr (c : ConsoleCall)
  | resume
  | yield
  | create
  | panic

namespace Console

/-- The running thread is out of synch.c and goes on with its console calls. -/
def Ready (m : Console) : Prop :=
  m.synch.sched.running ≠ idleTid ∧ m.synch.pc m.synch.sched.running = .idle

instance (m : Console) : Decidable m.Ready := inferInstanceAs (Decidable (_ ∧ _))

def setFrames (m : Console) (t : Tid) (fs : List (List UInt8)) : Console :=
  { m with frames := Function.update m.frames t fs }

/-- `console_locked_by_current_thread` for a thread, out of interrupt context. -/
def lockedByCurrentThread (m : Console) : Bool :=
  !m.useLock || m.synch.holder () == some m.synch.sched.running

/-- `putchar_have_lock` past its `ASSERT`: `write_cnt++`, `serial_putc` and `vga_putc`. -/
def putcharHaveLock (m : Console) (w : Writer) (c : UInt8) : Console :=
  { m with writeCnt := m.writeCnt + 1, vga := vgaPutc m.vga c.toNat, out := m.out ++ [(w, c)] }

/-- `acquire_console` by the running thread. -/
def acquireConsole (m : Console) : Option Console :=
  if m.useLock then
    if m.synch.holder () = some m.synch.sched.running then some { m with depth := m.depth + 1 }
    else (m.synch.step (.lockAcquire ())).map fun s => { m with synch := s }
  else some m

/-- `release_console` by the running thread. -/
def releaseConsole (m : Console) : Option Console :=
  if m.useLock then
    if m.depth > 0 then some { m with depth := m.depth - 1 }
    else (m.synch.step (.lockRelease ())).map fun s => { m with synch := s }
  else some m

/-- The running thread enters a console call: a new innermost call, and a new outermost one
when it was in none. -/
def enterCall (m : Console) (c : ConsoleCall) : Console :=
  let t := m.synch.sched.running
  { m with
    frames := Function.update m.frames t (c.chars :: m.frames t)
    calls := if m.frames t = [] then Function.update m.calls t (m.calls t + 1) else m.calls }

/-- A console call by an interrupt handler, which runs with interrupts off and takes no lock. -/
def intrCall (m : Console) (c : ConsoleCall) : Console :=
  c.chars.foldl (fun m ch => m.putcharHaveLock .intr ch) m

def step (m : Console) : ConsoleEv → Option Console
  | .call c => if m.Ready then (m.enterCall c).acquireConsole else none
  | .put =>
    if m.Ready then
      match m.frames m.synch.sched.running with
      | (c :: rest) :: fs =>
        -- `ASSERT (console_locked_by_current_thread ())`
        if m.lockedByCurrentThread then
          some ((m.setFrames m.synch.sched.running (rest :: fs)).putcharHaveLock
            (.thread m.synch.sched.running (m.calls m.synch.sched.running)) c)
        else none
      | _ => none
    else none
  | .ret =>
    if m.Ready then
      match m.frames m.synch.sched.running with
      | [] :: fs => (m.setFrames m.synch.sched.running fs).releaseConsole
      | _ => none
    else none
  | .intr c => some (m.intrCall c)
  | .resume => (m.synch.step .resume).map fun s => { m with synch := s }
  | .yield => (m.synch.step .yield).map fun s => { m with synch := s }
  | .create => (m.synch.step .create).map fun s => { m with synch := s }
  | .panic => some { m with useLock := false }

/-- After `console_init`: the lock made and in use, no thread in a console call. -/
def boot (vga : Vga) : Console where
  synch := Synch.boot Empty.elim
  useLock := true
  depth := 0
  writeCnt := 0
  vga := vga
  frames _ := []
  calls _ := 0
  out := []

/-- Who wrote what the threads wrote, the interrupt handlers' characters left out. -/
def stamps (m : Console) : List (Tid × Nat) := m.out.filterMap fun e => e.1.stamp

section Fields
variable {m : Console} {t : Tid} {fs : List (List UInt8)} {w : Writer} {ch : UInt8}
  {c : ConsoleCall}

@[simp] theorem setFrames_frames : (m.setFrames t fs).frames = Function.update m.frames t fs := rfl
@[simp] theorem setFrames_synch : (m.setFrames t fs).synch = m.synch := rfl
@[simp] theorem setFrames_depth : (m.setFrames t fs).depth = m.depth := rfl
@[simp] theorem setFrames_calls : (m.setFrames t fs).calls = m.calls := rfl
@[simp] theorem setFrames_useLock : (m.setFrames t fs).useLock = m.useLock := rfl
@[simp] theorem setFrames_stamps : (m.setFrames t fs).stamps = m.stamps := rfl

@[simp] theorem putcharHaveLock_frames : (m.putcharHaveLock w ch).frames = m.frames := rfl
@[simp] theorem putcharHaveLock_synch : (m.putcharHaveLock w ch).synch = m.synch := rfl
@[simp] theorem putcharHaveLock_depth : (m.putcharHaveLock w ch).depth = m.depth := rfl
@[simp] theorem putcharHaveLock_calls : (m.putcharHaveLock w ch).calls = m.calls := rfl
@[simp] theorem putcharHaveLock_useLock : (m.putcharHaveLock w ch).useLock = m.useLock := rfl

@[simp] theorem stamps_putcharHaveLock :
    (m.putcharHaveLock w ch).stamps = m.stamps ++ w.stamp.toList := by
  cases w <;> simp [stamps, putcharHaveLock, Writer.stamp]

@[simp] theorem enterCall_frames :
    (m.enterCall c).frames =
      Function.update m.frames m.synch.sched.running (c.chars :: m.frames m.synch.sched.running) :=
  rfl
@[simp] theorem enterCall_calls :
    (m.enterCall c).calls = if m.frames m.synch.sched.running = [] then
      Function.update m.calls m.synch.sched.running (m.calls m.synch.sched.running + 1)
    else m.calls := rfl
@[simp] theorem enterCall_synch : (m.enterCall c).synch = m.synch := rfl
@[simp] theorem enterCall_depth : (m.enterCall c).depth = m.depth := rfl
@[simp] theorem enterCall_useLock : (m.enterCall c).useLock = m.useLock := rfl
@[simp] theorem enterCall_stamps : (m.enterCall c).stamps = m.stamps := rfl

/-- An interrupt handler's call writes its characters, stamped as its own, and changes nothing
else the threads see. -/
theorem intrCall_eq : m.intrCall c =
    { m with
      writeCnt := m.writeCnt + c.chars.length
      vga := vgaRun m.vga (c.chars.map fun ch => (ch.toNat : Int))
      out := m.out ++ c.chars.map fun ch => (Writer.intr, ch) } := by
  unfold intrCall
  generalize c.chars = cs
  induction cs generalizing m with
  | nil => simp [vgaRun]
  | cons ch cs ih =>
    rw [List.foldl_cons, ih]
    simp [putcharHaveLock, vgaRun, Nat.add_assoc, Nat.add_comm 1]

@[simp] theorem stamps_intrCall : (m.intrCall c).stamps = m.stamps := by
  simp [intrCall_eq, stamps, Writer.stamp]

end Fields

/-! ### The lock keeps the threads' calls apart -/

section Inv
variable {m m' : Console} {t u : Tid} {s : ConsoleSynch}

/-- Where thread `t` stands with `console_lock` while the lock is in use. -/
structure ThreadInv (m : Console) (t : Tid) : Prop where
  /-- The holder is in one console call more than `console_lock_depth` counts, out of synch.c. -/
  holder : m.synch.holder () = some t →
    m.frames t ≠ [] ∧ m.depth + 1 = (m.frames t).length ∧ m.synch.pc t = .idle
  /-- Any other thread in a console call is in the `lock_acquire` of its only one, which has
  written nothing yet. -/
  waiting : m.synch.holder () ≠ some t → m.frames t ≠ [] →
    (m.frames t).length = 1 ∧ (m.synch.pc t = .acquire () ∨ m.synch.pc t = .acquired ()) ∧
      (t, m.calls t) ∉ m.stamps
  /-- A thread in no console call is at most finishing the `lock_release` of its last. -/
  outside : m.frames t = [] → m.synch.pc t = .idle ∨ m.synch.pc t = .release ()
  stamps_le : ∀ n, (t, n) ∈ m.stamps → n ≤ m.calls t
  /-- Nothing else has been written since the holder's outermost call first wrote. -/
  last : m.synch.holder () = some t → (t, m.calls t) ∈ m.stamps →
    m.stamps.getLast? = some (t, m.calls t)

/-- What holds while `console_lock` is in use. -/
structure LockedInv (m : Console) : Prop where
  threads : ∀ t, m.ThreadInv t
  free : m.synch.holder () = none → m.depth = 0
  grouped : Grouped m.stamps

structure Inv (m : Console) : Prop where
  synch : m.synch.Inv Empty.elim
  locked : m.useLock = true → m.LockedInv

theorem ThreadInv.holder_of_idle (h : m.ThreadInv t) (hpc : m.synch.pc t = .idle)
    (hf : m.frames t ≠ []) : m.synch.holder () = some t := by
  by_contra hh
  rcases (h.waiting hh hf).2.1 with e | e <;> rw [hpc] at e <;> cases e

theorem ThreadInv.of_acquiring (h : m.ThreadInv t)
    (hpc : m.synch.pc t = .acquire () ∨ m.synch.pc t = .acquired ()) :
    m.frames t ≠ [] ∧ m.synch.holder () ≠ some t := by
  refine ⟨fun hf => ?_, fun hh => ?_⟩
  · rcases h.outside hf with e | e <;> rcases hpc with e' | e' <;> rw [e'] at e <;> cases e
  · rcases hpc with e | e <;> rw [(h.holder hh).2.2] at e <;> cases e

theorem ThreadInv.of_eq (h : m.ThreadInv u)
    (hh : m'.synch.holder () = some u ↔ m.synch.holder () = some u)
    (hpc : m'.synch.pc u = m.synch.pc u) (hf : m'.frames u = m.frames u)
    (hc : m'.calls u = m.calls u) (hd : m.synch.holder () = some u → m'.depth = m.depth)
    (hs : ∀ n, (u, n) ∈ m'.stamps ↔ (u, n) ∈ m.stamps)
    (hlast : m.synch.holder () = some u → m'.stamps.getLast? = m.stamps.getLast?) :
    m'.ThreadInv u where
  holder hu := by
    rw [hf, hpc, hd (hh.mp hu)]
    exact h.holder (hh.mp hu)
  waiting hu hne := by
    rw [hf, hpc, hc, hs]
    exact h.waiting (fun e => hu (hh.mpr e)) (hf ▸ hne)
  outside hnil := by
    rw [hpc]
    exact h.outside (hf ▸ hnil)
  stamps_le n hn := by
    rw [hc]
    exact h.stamps_le n ((hs n).mp hn)
  last hu hn := by
    rw [hc, hlast (hh.mp hu)]
    exact h.last (hh.mp hu) ((hs _).mp (hc ▸ hn))

/-- The holder's standing: in as many calls as the depth says, and the last to have written
once its outermost call has. -/
theorem ThreadInv.of_holder (hh : m.synch.holder () = some t) (hf : m.frames t ≠ [])
    (hd : m.depth + 1 = (m.frames t).length) (hpc : m.synch.pc t = .idle)
    (hle : ∀ n, (t, n) ∈ m.stamps → n ≤ m.calls t)
    (hlast : (t, m.calls t) ∈ m.stamps → m.stamps.getLast? = some (t, m.calls t)) :
    m.ThreadInv t :=
  ⟨fun _ => ⟨hf, hd, hpc⟩, fun hn => absurd hh hn, fun hnil => absurd hnil hf, hle,
    fun _ => hlast⟩

theorem ThreadInv.of_waiting (hh : m.synch.holder () ≠ some t) (hf : (m.frames t).length = 1)
    (hpc : m.synch.pc t = .acquire () ∨ m.synch.pc t = .acquired ())
    (hfresh : (t, m.calls t) ∉ m.stamps) (hle : ∀ n, (t, n) ∈ m.stamps → n ≤ m.calls t) :
    m.ThreadInv t :=
  ⟨fun e => absurd e hh, fun _ _ => ⟨hf, hpc, hfresh⟩,
    fun hnil => (by rw [hnil] at hf; cases hf), hle, fun e => absurd e hh⟩

theorem ThreadInv.of_outside (hh : m.synch.holder () ≠ some t) (hf : m.frames t = [])
    (hpc : m.synch.pc t = .idle ∨ m.synch.pc t = .release ())
    (hle : ∀ n, (t, n) ∈ m.stamps → n ≤ m.calls t) : m.ThreadInv t :=
  ⟨fun e => absurd e hh, fun _ hne => absurd hf hne, fun _ => hpc, hle, fun e => absurd e hh⟩

theorem LockedInv.of_synch (h : m.LockedInv) (hh : s.holder = m.synch.holder)
    (hpc : s.pc = m.synch.pc) : { m with synch := s }.LockedInv :=
  ⟨fun u => (h.threads u).of_eq (by simp [hh]) (by simp [hpc]) rfl rfl (fun _ => rfl)
    (fun _ => Iff.rfl) (fun _ => rfl), fun e => h.free (hh ▸ e), h.grouped⟩

theorem LockedInv.intr (h : m.LockedInv) (c : ConsoleCall) : (m.intrCall c).LockedInv := by
  have hm : ∀ u, (m.intrCall c).ThreadInv u := fun u =>
    (h.threads u).of_eq (by simp [intrCall_eq]) (by simp [intrCall_eq]) (by simp [intrCall_eq])
      (by simp [intrCall_eq]) (fun _ => by simp [intrCall_eq]) (by simp) (fun _ => by simp)
  exact ⟨hm, fun e => by simpa [intrCall_eq] using h.free (by simpa [intrCall_eq] using e),
    by simpa using h.grouped⟩

/-- `putchar_have_lock` by the holder of the next character of its innermost call: the one
step that writes for a thread, after what the holder's call wrote or first of it. -/
theorem LockedInv.put (h : m.LockedInv) (hh : m.synch.holder () = some t) {ch : UInt8}
    {rest : List UInt8} {fs : List (List UInt8)} (hf : m.frames t = (ch :: rest) :: fs) :
    ((m.setFrames t (rest :: fs)).putcharHaveLock (.thread t (m.calls t)) ch).LockedInv := by
  have hT := (h.threads t).holder hh
  have hs : ((m.setFrames t (rest :: fs)).putcharHaveLock (.thread t (m.calls t)) ch).stamps =
      m.stamps ++ [(t, m.calls t)] := by simp [Writer.stamp]
  refine ⟨fun u => ?_, fun e => absurd hh (by simp_all), ?_⟩
  · by_cases hu : u = t
    · subst hu
      refine .of_holder (by simpa using hh) (by simp) ?_ (by simpa using hT.2.2) (fun n hn => ?_)
        (fun _ => by rw [hs, List.getLast?_concat]; simp)
      · simpa [hf] using hT.2.1
      · rw [hs, List.mem_append, List.mem_singleton] at hn
        rcases hn with hn | hn
        · simpa using (h.threads u).stamps_le n hn
        · simp [(Prod.mk.inj hn).2]
    · refine (h.threads u).of_eq (by simp) (by simp) (by simp [Function.update_of_ne hu]) (by simp)
        (fun _ => rfl) (fun n => ?_) (fun e => absurd (hh.symm.trans e) (by simpa using Ne.symm hu))
      rw [hs, List.mem_append, List.mem_singleton]
      exact ⟨fun hn => hn.resolve_right fun e => hu (Prod.mk.inj e).1, .inl⟩
  · rw [hs, grouped_concat]
    exact ⟨h.grouped, (h.threads t).last hh⟩

/-- `acquire_console` of a call the holder makes inside one of its own: one more for the depth,
and the lock stays as it is. -/
theorem LockedInv.nest (h : m.LockedInv) (hh : m.synch.holder () = some m.synch.sched.running)
    (c : ConsoleCall) : { m.enterCall c with depth := m.depth + 1 }.LockedInv := by
  obtain ⟨t, ht⟩ : ∃ t, m.synch.sched.running = t := ⟨_, rfl⟩
  rw [ht] at hh
  have hT := (h.threads t).holder hh
  have hcalls : (m.enterCall c).calls = m.calls := by simp [ht, hT.1]
  refine ⟨fun u => ?_, fun e => absurd hh (by simp_all), h.grouped⟩
  by_cases hu : u = t
  · subst hu
    refine .of_holder hh (by simp [ht]) (by simp [ht, hT.2.1]) hT.2.2 (fun n hn => ?_) (fun hn => ?_)
    · show n ≤ (m.enterCall c).calls u
      rw [hcalls]
      exact (h.threads u).stamps_le n hn
    · show m.stamps.getLast? = some (u, (m.enterCall c).calls u)
      rw [hcalls] at hn ⊢
      exact (h.threads u).last hh hn
  · exact (h.threads u).of_eq (by simp) (by simp) (by simp [ht, Function.update_of_ne hu])
      (by simp [ht, hT.1]) (fun e => absurd (hh.symm.trans e) (by simpa using Ne.symm hu))
      (fun _ => Iff.rfl) (fun _ => rfl)

/-- `acquire_console` of a thread's outermost call while another thread holds the lock or none
does: it enters `lock_acquire` with a call that has written nothing. -/
theorem LockedInv.start (h : m.LockedInv) (hh : m.synch.holder () ≠ some m.synch.sched.running)
    (hpc : m.synch.pc m.synch.sched.running = .idle) (c : ConsoleCall) :
    { m.enterCall c with synch := m.synch.setPc m.synch.sched.running (.acquire ()) }.LockedInv := by
  obtain ⟨t, ht⟩ : ∃ t, m.synch.sched.running = t := ⟨_, rfl⟩
  rw [ht] at hh hpc ⊢
  have hnil : m.frames t = [] := by
    by_contra hne
    exact hh ((h.threads t).holder_of_idle hpc hne)
  have hcalls : (m.enterCall c).calls = Function.update m.calls t (m.calls t + 1) := by
    simp [ht, hnil]
  refine ⟨fun u => ?_, fun e => h.free e, h.grouped⟩
  by_cases hu : u = t
  · subst hu
    refine .of_waiting hh (by simp [ht, hnil]) (.inl (by simp)) (fun hn => ?_) (fun n hn => ?_)
    · have := (h.threads u).stamps_le _ (hcalls ▸ hn)
      simp at this
    · show n ≤ (m.enterCall c).calls u
      have := (h.threads u).stamps_le n hn
      rw [hcalls, Function.update_self]
      omega
  · exact (h.threads u).of_eq Iff.rfl (by simp [Function.update_of_ne hu])
      (by simp [ht, Function.update_of_ne hu])
      (by show (m.enterCall c).calls u = _; rw [hcalls, Function.update_of_ne hu])
      (fun _ => rfl) (fun _ => Iff.rfl) (fun _ => rfl)

theorem LockedInv.unnest (h : m.LockedInv) (hh : m.synch.holder () = some t)
    {fs : List (List UInt8)} (hf : m.frames t = [] :: fs) (hd : m.depth > 0) :
    { m.setFrames t fs with depth := m.depth - 1 }.LockedInv := by
  have hT := (h.threads t).holder hh
  have hlen : m.depth = fs.length := by
    rw [hf, List.length_cons] at hT
    omega
  refine ⟨fun u => ?_, fun e => absurd hh (by simp_all), h.grouped⟩
  by_cases hu : u = t
  · subst hu
    refine .of_holder hh ?_ ?_ hT.2.2 (h.threads u).stamps_le ((h.threads u).last hh)
    · show Function.update m.frames u fs u ≠ []
      rw [Function.update_self]
      exact List.ne_nil_of_length_pos (by omega)
    · show m.depth - 1 + 1 = (Function.update m.frames u fs u).length
      rw [Function.update_self]
      omega
  · exact (h.threads u).of_eq Iff.rfl rfl (by simp [Function.update_of_ne hu]) rfl
      (fun e => absurd (hh.symm.trans e) (by simpa using Ne.symm hu)) (fun _ => Iff.rfl)
      (fun _ => rfl)

theorem LockedInv.release (h : m.LockedInv) (hh : m.synch.holder () = some t)
    (hf : m.frames t = [[]]) :
    { m.setFrames t [] with synch := (m.synch.leave () t).setPc t (.release ()) }.LockedInv := by
  refine ⟨fun u => ?_, fun _ => ?_, h.grouped⟩
  · by_cases hu : u = t
    · subst hu
      exact .of_outside (by simp) (by simp) (.inr (by simp)) (h.threads u).stamps_le
    · refine (h.threads u).of_eq ?_ (by simp [Function.update_of_ne hu])
        (by simp [Function.update_of_ne hu]) rfl
        (fun e => absurd (hh.symm.trans e) (by simpa using Ne.symm hu)) (fun _ => Iff.rfl)
        (fun _ => rfl)
      simp [hh, Ne.symm hu]
  · -- the holder was in its outermost call only
    have hT := (h.threads t).holder hh
    rw [hf] at hT
    simpa using hT.2.1

theorem LockedInv.pass (h : m.LockedInv) (hpc : m.synch.pc t = .acquire ())
    (hh : s.holder = m.synch.holder)
    (hs : s.pc = m.synch.pc ∨ s.pc = Function.update m.synch.pc t (.acquired ())) :
    { m with synch := s }.LockedInv := by
  rcases hs with hs | hs
  · exact h.of_synch hh hs
  · obtain ⟨hne, hnh⟩ := (h.threads t).of_acquiring (.inl hpc)
    refine ⟨fun u => ?_, fun e => h.free (by simpa [hh] using e), h.grouped⟩
    by_cases hu : u = t
    · subst hu
      have hw := (h.threads u).waiting hnh hne
      exact .of_waiting (by simpa [hh] using hnh) hw.1 (.inr (by simp [hs])) hw.2.2
        (h.threads u).stamps_le
    · exact (h.threads u).of_eq (by simp [hh]) (by simp [hs, Function.update_of_ne hu]) rfl rfl
        (fun _ => rfl) (fun _ => Iff.rfl) (fun _ => rfl)

theorem LockedInv.take (hi : m.synch.Inv Empty.elim) (h : m.LockedInv)
    (hpc : m.synch.pc t = .acquired ()) :
    { m with synch := (m.synch.enter () t).setPc t .idle }.LockedInv := by
  obtain ⟨hne, hnh⟩ := (h.threads t).of_acquiring (.inr hpc)
  have hw := (h.threads t).waiting hnh hne
  have hfree : m.synch.holder () = none := (hi.locks ()).holder_none (t := t) (by simp [hpc, Pc.Owns])
  have hd := h.free hfree
  refine ⟨fun u => ?_, fun e => by simp at e, h.grouped⟩
  by_cases hu : u = t
  · subst hu
    exact .of_holder (by simp) hne (by simp [hd, hw.1]) (by simp) (h.threads u).stamps_le
      (fun hn => absurd hn hw.2.2)
  · refine (h.threads u).of_eq ?_ (by simp [Function.update_of_ne hu]) rfl rfl (fun _ => rfl)
      (fun _ => Iff.rfl) (fun _ => rfl)
    simp [hfree, Ne.symm hu]

theorem LockedInv.finish (h : m.LockedInv) (hpc : m.synch.pc t = .release ())
    (hh : s.holder = m.synch.holder) (hs : s.pc = Function.update m.synch.pc t .idle) :
    { m with synch := s }.LockedInv := by
  have hnh : m.synch.holder () ≠ some t := fun e => by
    rw [((h.threads t).holder e).2.2] at hpc
    cases hpc
  have hnil : m.frames t = [] := by
    by_contra hne
    rcases ((h.threads t).waiting hnh hne).2.1 with e | e <;> rw [hpc] at e <;> cases e
  refine ⟨fun u => ?_, fun e => h.free (by simpa [hh] using e), h.grouped⟩
  by_cases hu : u = t
  · subst hu
    exact .of_outside (by simpa [hh] using hnh) hnil (.inl (by simp [hs])) (h.threads u).stamps_le
  · exact (h.threads u).of_eq (by simp [hh]) (by simp [hs, Function.update_of_ne hu]) rfl rfl
      (fun _ => rfl) (fun _ => Iff.rfl) (fun _ => rfl)

/-! ### The steps of synch.c the console takes -/

theorem synch_acquire (hr : m.Ready) (hh : m.synch.holder () ≠ some m.synch.sched.running) :
    m.synch.step (.lockAcquire ()) =
      some (m.synch.setPc m.synch.sched.running (.acquire ())) := by
  simp [Synch.step, Synch.call, hr.1, hr.2, hh]

theorem synch_release (hr : m.Ready) (hh : m.synch.holder () = some m.synch.sched.running) :
    m.synch.step (.lockRelease ()) = some
      ((m.synch.leave () m.synch.sched.running).setPc m.synch.sched.running (.release ())) := by
  simp [Synch.step, Synch.call, hr.1, hr.2, hh]

/-- The next step of the running thread in `lock_acquire` or `lock_release` of `console_lock`:
a pass of the semaphore's loop, the end of `lock_acquire`, or the `sema_up` that ends
`lock_release`. -/
theorem synch_resume_cases (h : m.synch.step .resume = some s) :
    (m.synch.pc m.synch.sched.running = .acquire () ∧ s.holder = m.synch.holder ∧
      (s.pc = m.synch.pc ∨
        s.pc = Function.update m.synch.pc m.synch.sched.running (.acquired ()))) ∨
    (m.synch.pc m.synch.sched.running = .acquired () ∧
      s = (m.synch.enter () m.synch.sched.running).setPc m.synch.sched.running .idle) ∨
    (m.synch.pc m.synch.sched.running = .release () ∧ s.holder = m.synch.holder ∧
      s.pc = Function.update m.synch.pc m.synch.sched.running .idle) := by
  simp only [Synch.step] at h
  split at h
  · cases h
  · cases hp : m.synch.pc m.synch.sched.running with
    | idle =>
      rw [hp] at h
      cases h
    | down x => exact x.elim
    | acquire l =>
      rw [hp] at h
      cases h
      exact .inl ⟨rfl, Synch.downStep_holder_pc.1, Synch.downStep_holder_pc.2⟩
    | acquired l =>
      rw [hp] at h
      cases h
      exact .inr (.inl ⟨rfl, rfl⟩)
    | release l =>
      rw [hp] at h
      obtain ⟨s', hs', rfl⟩ := Option.map_eq_some_iff.mp h
      obtain ⟨hh, hpc⟩ := Synch.up_holder_pc hs'
      exact .inr (.inr ⟨rfl, hh, by rw [Synch.setPc_pc, hpc]⟩)
    | waitRelease c _ | waitDown c _ | waitAcquire c _ | waitAcquired c _ => exact c.elim

/-! ### Every step keeps the invariant -/

theorem Inv.call (hi : m.Inv) {c : ConsoleCall} (h : m.step (.call c) = some m') : m'.Inv := by
  simp only [step] at h
  split at h
  · rename_i hr
    by_cases hl : m.useLock = true
    · by_cases hh : m.synch.holder () = some m.synch.sched.running
      · rw [acquireConsole, if_pos (by exact hl), if_pos (by exact hh)] at h
        cases h
        exact ⟨hi.synch, fun _ => (hi.locked hl).nest hh c⟩
      · rw [acquireConsole, if_pos (by exact hl), if_neg (by exact hh), enterCall_synch,
          synch_acquire hr hh, Option.map_some] at h
        cases h
        exact ⟨hi.synch.step (synch_acquire hr hh), fun _ => (hi.locked hl).start hh hr.2 c⟩
    · rw [acquireConsole, if_neg (by exact hl)] at h
      cases h
      exact ⟨hi.synch, fun e => absurd e hl⟩
  · cases h

theorem Inv.put (hi : m.Inv) (h : m.step .put = some m') : m'.Inv := by
  simp only [step] at h
  split at h
  · split at h
    · rename_i ch rest fs hf
      split at h
      · rename_i hlock
        cases h
        refine ⟨hi.synch, fun hl => (hi.locked hl).put ?_ hf⟩
        simpa [lockedByCurrentThread, show m.useLock = true from hl] using hlock
      · cases h
    · cases h
  · cases h

theorem Inv.ret (hi : m.Inv) (h : m.step .ret = some m') : m'.Inv := by
  simp only [step] at h
  split at h
  · rename_i hr
    split at h
    · rename_i fs hf
      by_cases hl : m.useLock = true
      · have hL := hi.locked hl
        have hh := (hL.threads _).holder_of_idle hr.2 (by rw [hf]; exact List.cons_ne_nil _ _)
        by_cases hd : m.depth > 0
        · rw [releaseConsole, if_pos (by exact hl), if_pos (by exact hd)] at h
          cases h
          exact ⟨hi.synch, fun _ => hL.unnest hh hf hd⟩
        · rw [releaseConsole, if_pos (by exact hl), if_neg (by exact hd), setFrames_synch,
            synch_release hr hh, Option.map_some] at h
          cases h
          have hfs : fs = [] := by
            have hT := ((hL.threads _).holder hh).2.1
            rw [hf, List.length_cons] at hT
            exact List.eq_nil_of_length_eq_zero (by omega)
          subst hfs
          exact ⟨hi.synch.step (synch_release hr hh), fun _ => hL.release hh hf⟩
      · rw [releaseConsole, if_neg (by exact hl)] at h
        cases h
        exact ⟨hi.synch, fun e => absurd e hl⟩
    · cases h
  · cases h

theorem Inv.resume (hi : m.Inv) (h : m.step .resume = some m') : m'.Inv := by
  obtain ⟨s, hs, rfl⟩ := Option.map_eq_some_iff.mp h
  refine ⟨hi.synch.step hs, fun hl => ?_⟩
  have hL := hi.locked hl
  rcases synch_resume_cases hs with ⟨hp, hh, hpc⟩ | ⟨hp, rfl⟩ | ⟨hp, hh, hpc⟩
  · exact hL.pass hp hh hpc
  · exact hL.take hi.synch hp
  · exact hL.finish hp hh hpc

/-- Every event keeps the invariant. -/
theorem Inv.step (hi : m.Inv) {e : ConsoleEv} (h : m.step e = some m') : m'.Inv := by
  cases e with
  | call c => exact hi.call h
  | put => exact hi.put h
  | ret => exact hi.ret h
  | intr c =>
    cases h
    exact ⟨by simpa [intrCall_eq] using hi.synch,
      fun hl => (hi.locked (by simpa [intrCall_eq] using hl)).intr c⟩
  | resume => exact hi.resume h
  | yield =>
    simp only [Console.step] at h
    obtain ⟨s, hs, rfl⟩ := Option.map_eq_some_iff.mp h
    cases hs
    exact ⟨hi.synch.step (e := .yield) rfl, fun hl => (hi.locked hl).of_synch rfl rfl⟩
  | create =>
    simp only [Console.step] at h
    obtain ⟨s, hs, rfl⟩ := Option.map_eq_some_iff.mp h
    refine ⟨hi.synch.step hs, fun hl => (hi.locked hl).of_synch ?_ ?_⟩ <;>
    · simp only [Synch.step] at hs
      split at hs
      · cases hs
      · obtain ⟨_, -, rfl⟩ := Option.map_eq_some_iff.mp hs
        rfl
  | panic =>
    cases h
    exact ⟨hi.synch, fun e => by cases e⟩

theorem boot_inv (vga : Vga) : (boot vga).Inv where
  synch := Synch.boot_inv Empty.elim
  locked _ := ⟨fun _ => .of_outside (by simp [boot, Synch.boot]) rfl (.inl rfl)
    (fun _ hn => by simp [boot, stamps] at hn), fun _ => rfl, trivial⟩

/-- Every run from `console_init` keeps the invariant. -/
theorem inv_of_runs {vga : Vga} {es : List ConsoleEv} (h : runs step (boot vga) es = some m) :
    m.Inv :=
  runs_inv (fun _ _ _ hs he => Inv.step hs he) (boot vga) es (boot_inv vga) h

/-! ### No console call of a thread fails an `ASSERT` -/

/-- The running thread out of synch.c can always enter a console call; inside one of its own,
the call neither blocks nor touches the lock. -/
theorem Inv.call_some (hi : m.Inv) (hr : m.Ready) (c : ConsoleCall) :
    ∃ m', m.step (.call c) = some m' ∧
      (m.frames m.synch.sched.running ≠ [] → m'.synch = m.synch) := by
  simp only [Console.step, if_pos hr]
  by_cases hl : m.useLock = true
  · by_cases hh : m.synch.holder () = some m.synch.sched.running
    · rw [acquireConsole, if_pos (by exact hl), if_pos (by exact hh)]
      exact ⟨_, rfl, fun _ => rfl⟩
    · rw [acquireConsole, if_pos (by exact hl), if_neg (by exact hh), enterCall_synch,
        synch_acquire hr hh, Option.map_some]
      exact ⟨_, rfl, fun hf => absurd (((hi.locked hl).threads _).holder_of_idle hr.2 hf) hh⟩
  · rw [acquireConsole, if_neg (by exact hl)]
    exact ⟨_, rfl, fun _ => rfl⟩

theorem Inv.put_some (hi : m.Inv) (hr : m.Ready) {ch : UInt8} {rest : List UInt8}
    {fs : List (List UInt8)} (hf : m.frames m.synch.sched.running = (ch :: rest) :: fs) :
    ∃ m', m.step .put = some m' := by
  have hlock : m.lockedByCurrentThread = true := by
    by_cases hl : m.useLock = true
    · have hh := ((hi.locked hl).threads _).holder_of_idle hr.2
        (by rw [hf]; exact List.cons_ne_nil _ _)
      simp [lockedByCurrentThread, hl, hh]
    · simp [lockedByCurrentThread, hl]
  simp only [Console.step, if_pos hr, hf, if_pos hlock]
  exact ⟨_, rfl⟩

/-- `release_console` of a call that has written everything: `lock_release`'s `ASSERT` that the
thread holds the lock holds. -/
theorem Inv.ret_some (hi : m.Inv) (hr : m.Ready) {fs : List (List UInt8)}
    (hf : m.frames m.synch.sched.running = [] :: fs) : ∃ m', m.step .ret = some m' := by
  simp only [Console.step, if_pos hr, hf]
  by_cases hl : m.useLock = true
  · have hh := ((hi.locked hl).threads _).holder_of_idle hr.2
      (by rw [hf]; exact List.cons_ne_nil _ _)
    by_cases hd : m.depth > 0
    · rw [releaseConsole, if_pos (by exact hl), if_pos (by exact hd)]
      exact ⟨_, rfl⟩
    · rw [releaseConsole, if_pos (by exact hl), if_neg (by exact hd), setFrames_synch,
        synch_release hr hh, Option.map_some]
      exact ⟨_, rfl⟩
  · rw [releaseConsole, if_neg (by exact hl)]
    exact ⟨_, rfl⟩

end Inv

end Console

open Console

/-- While `console_lock` is in use, in every run from `console_init`, whatever the
interleaving of the threads, the nesting of their calls and what interrupt handlers print, the
characters of each outermost console call of a thread stand together among what the threads
write: between two characters of one call there is none of another call. -/
theorem console_calls_do_not_mix {vga : Vga} {es : List ConsoleEv} {m : Console}
    (h : runs Console.step (boot vga) es = some m) (hl : m.useLock = true) {i j k : Nat}
    (hij : i ≤ j) (hjk : j ≤ k) (hk : k < m.stamps.length) (heq : m.stamps[i] = m.stamps[k]) :
    m.stamps[j] = m.stamps[i] :=
  ((inv_of_runs h).locked hl).grouped.between hij hjk hk heq

/-- Thread 1 writes `AB` while thread 3 waits for the lock and an interrupt handler writes `!`,
nesting a `putchar` of `D` in its call; then thread 3 writes `C`. -/
def consoleSample : List ConsoleEv :=
  [.create, .call (.putbuf [65, 66]), .resume, .resume, .put, .yield, .call (.putchar 67), .resume,
    .intr (.putchar 33), .yield, .put, .call (.putchar 68), .put, .ret, .ret, .resume, .yield,
    .resume, .resume, .put, .ret, .resume]

theorem console_calls_do_not_mix_sample :
    ∃ m, runs Console.step (boot (vgaInit 0 fun _ _ => (0, 0))) consoleSample = some m ∧
      m.useLock = true ∧ m.stamps = [(1, 1), (1, 1), (1, 1), (3, 1)] ∧
      m.out.map Prod.snd = [65, 33, 66, 68, 67] ∧ m.stamps[1]? = m.stamps[0]? := by
  obtain ⟨m, hm, hl, hs, ho⟩ : ∃ m,
      runs Console.step (boot (vgaInit 0 fun _ _ => (0, 0))) consoleSample = some m ∧
        m.useLock = true ∧ m.stamps = [(1, 1), (1, 1), (1, 1), (3, 1)] ∧
        m.out.map Prod.snd = [65, 33, 66, 68, 67] :=
    exists_of_runs (by decide +kernel)
  have hmix := console_calls_do_not_mix hm hl (i := 0) (j := 1) (k := 2) (by omega) (by omega)
    (by simp [hs]) (by simp [hs])
  refine ⟨m, hm, hl, hs, ho, ?_⟩
  rw [List.getElem?_eq_getElem (by simp [hs]), List.getElem?_eq_getElem (by simp [hs]), hmix]

/-- In every state a run from `console_init` reaches, the running thread out of synch.c never
fails an `ASSERT` in its console calls: it can enter a call, and one inside its own calls
neither blocks nor touches the lock, where `lock_acquire` would find it the holder; it can
write the next character of its innermost call, `putchar_have_lock` finding the console locked
by it; and it can leave a call it has written, `lock_release` finding it the holder. -/
theorem console_calls_never_fail {vga : Vga} {es : List ConsoleEv} {m : Console}
    (h : runs Console.step (boot vga) es = some m) (hr : m.Ready) :
    (∀ c, ∃ m', m.step (.call c) = some m' ∧
      (m.frames m.synch.sched.running ≠ [] → m'.synch = m.synch)) ∧
    (∀ ch rest fs, m.frames m.synch.sched.running = (ch :: rest) :: fs →
      ∃ m', m.step .put = some m') ∧
    (∀ fs, m.frames m.synch.sched.running = [] :: fs → ∃ m', m.step .ret = some m') :=
  ⟨(inv_of_runs h).call_some hr, fun _ _ _ hf => (inv_of_runs h).put_some hr hf,
    fun _ hf => (inv_of_runs h).ret_some hr hf⟩

theorem console_calls_never_fail_sample :
    ∃ m, runs Console.step (boot (vgaInit 0 fun _ _ => (0, 0)))
        [.create, .call (.putbuf [65, 66]), .resume, .resume, .put] = some m ∧ m.Ready ∧
      ∃ m', m.step (.call (.putchar 68)) = some m' ∧ m'.synch = m.synch := by
  obtain ⟨m, hm, hr, hf⟩ : ∃ m, runs Console.step (boot (vgaInit 0 fun _ _ => (0, 0)))
      [.create, .call (.putbuf [65, 66]), .resume, .resume, .put] = some m ∧ m.Ready ∧
        m.frames m.synch.sched.running ≠ [] :=
    exists_of_runs (by decide +kernel)
  obtain ⟨m', h1, h2⟩ := (console_calls_never_fail hm hr).1 (.putchar 68)
  exact ⟨m, hm, hr, m', h1, h2 hf⟩

end Pintos.Lib
