import Pintos.Userprog.Tables
import Mathlib.Tactic.IntervalCases

/-! `syscall_handler` of userprog/syscall.c: the checks it makes on the user stack pointer and
on the three words above the number, and the entry of `syscall_vec` it calls with them. -/
namespace Pintos.Userprog
open Pintos.Threads Pintos.Kit

/-- Memory as the kernel reads it through the current page directory: `none` where no page is
present. A kernel read of such a byte faults, and `page_fault` answers a not-present fault
with `sys_exit (-1)`. -/
abbrev Mem := UInt32 → Option UInt8

/-- A little-endian `int` load, which faults when any of its four bytes does. -/
def readWord (m : Mem) (a : UInt32) : Option UInt32 := do
  let b0 ← m a
  let b1 ← m (a + 1)
  let b2 ← m (a + 2)
  let b3 ← m (a + 3)
  pure (b0.toUInt32 ||| b1.toUInt32 <<< 8 ||| b2.toUInt32 <<< 16 ||| b3.toUInt32 <<< 24)

/-- The handlers `syscall_init` registers, in the order of the numbers in syscall-nr.h. -/
inductive Handler where
  | halt | exit | exec | wait | create | remove | open | filesize | read | write | seek | tell
  | close
  deriving DecidableEq, Repr

/-- `syscall_vec` after `syscall_init`: `SYS_HALT` to `SYS_CLOSE` have a handler, the
numbers from `SYS_MMAP` to `SYS_INUMBER` none. -/
def syscallVec : Nat → Option Handler
  | 0 => some .halt
  | 1 => some .exit
  | 2 => some .exec
  | 3 => some .wait
  | 4 => some .create
  | 5 => some .remove
  | 6 => some .open
  | 7 => some .filesize
  | 8 => some .read
  | 9 => some .write
  | 10 => some .seek
  | 11 => some .tell
  | 12 => some .close
  | _ => none

/-- How many argument words the wrapper in lib/user/syscall.c pushes above the number. -/
def Handler.arity : Handler → Nat
  | .halt => 0
  | .exit | .exec | .wait | .remove | .open | .filesize | .tell | .close => 1
  | .create | .seek => 2
  | .read | .write => 3

/-- Where `syscall_handler` sends the process: `sys_exit (-1)`, or the call of entry `n` of
`syscall_vec` on the three words. -/
inductive Entry where
  | exit
  | call (n : Nat) (a1 a2 a3 : UInt32)
  deriving DecidableEq, Repr

/-- `syscall_handler`. The number is an `int` checked against `SYS_HALT` and `SYS_INUMBER`;
each pointer check looks at the first byte of a word only. -/
def syscallHandler (m : Mem) (esp : UInt32) : Entry :=
  if !isUserVaddr esp then .exit
  else
    match readWord m esp with
    | none => .exit
    | some w =>
      if w.toInt32 < 0 ∨ 19 < w.toInt32 then .exit
      else if !(isUserVaddr (esp + 4) && isUserVaddr (esp + 8) && isUserVaddr (esp + 12)) then
        .exit
      else
        match readWord m (esp + 4), readWord m (esp + 8), readWord m (esp + 12) with
        | some a1, some a2, some a3 => .call w.toInt32.toNatClampNeg a1 a2 a3
        | _, _, _ => .exit

/-- A user stack holding the words `ws` from `base` up, with nothing else mapped below
`PHYS_BASE` and the kernel's memory above it. -/
def stackOf (base : UInt32) (ws : List UInt32) : Mem := fun a =>
  if physBase ≤ a then some 0
  else if base ≤ a ∧ (a - base).toNat < 4 * ws.length then
    some ((ws.getD ((a - base).toNat / 4) 0) >>> (8 * ((a - base) % 4))).toUInt8
  else none

section Spec
variable {m : Mem} {esp : UInt32}

theorem syscallVec_of_le {n : Nat} (hn : 13 ≤ n) : syscallVec n = none := by
  obtain ⟨k, rfl⟩ := Nat.exists_eq_add_of_le' hn
  rfl

theorem syscallVec_lt {n : Nat} {hd : Handler} (hn : syscallVec n = some hd) : n < 13 := by
  by_contra hge
  rw [syscallVec_of_le (by omega)] at hn
  cases hn

theorem number_ofNat {n : Nat} (hn : n < 20) :
    ¬ (Int32.ofNat n < 0 ∨ 19 < Int32.ofNat n) ∧ (Int32.ofNat n).toNatClampNeg = n := by
  interval_cases n <;> decide

theorem isUserVaddr_iff (a : UInt32) : isUserVaddr a ↔ a.toNat < physBase.toNat := by
  simp [isUserVaddr, UInt32.lt_iff_toNat_lt]

theorem toNat_add_of_user {k : UInt32} (he : isUserVaddr esp) (hk : k.toNat ≤ 12) :
    (esp + k).toNat = esp.toNat + k.toNat := by
  have hlt := (isUserVaddr_iff esp).mp he
  have hpb : physBase.toNat = 0xC0000000 := rfl
  rw [UInt32.toNat_add]
  exact Nat.mod_eq_of_lt (by omega)

/-- When the third argument word starts at or above `PHYS_BASE`, the process ends with -1,
whatever the number is and however many arguments its call takes. -/
theorem syscallHandler_of_high (hhigh : physBase.toNat ≤ esp.toNat + 12) :
    syscallHandler m esp = .exit := by
  cases he : isUserVaddr esp
  · simp [syscallHandler, he]
  · have h12 : isUserVaddr (esp + 12) = false := by
      have hadd := toNat_add_of_user (k := 12) he (by decide)
      have hnot : ¬ (esp + 12).toNat < physBase.toNat := by
        rw [hadd]
        exact Nat.not_lt.mpr hhigh
      rw [Bool.eq_false_iff]
      exact fun h => hnot ((isUserVaddr_iff _).mp h)
    unfold syscallHandler
    simp only [he, h12, Bool.not_true, Bool.and_false, Bool.not_false, Bool.false_eq_true,
      if_false, if_true, ite_self]
    cases readWord m esp <;> rfl

/-- When the number word and the three words after it lie below `PHYS_BASE` in mapped memory
and the number has a handler, that handler is called with the three words. -/
theorem syscallHandler_of_words {n : Nat} {hd : Handler} {a1 a2 a3 : UInt32}
    (hesp : esp.toNat + 16 ≤ physBase.toNat) (hn : syscallVec n = some hd)
    (h0 : readWord m esp = some (UInt32.ofNat n)) (h1 : readWord m (esp + 4) = some a1)
    (h2 : readWord m (esp + 8) = some a2) (h3 : readWord m (esp + 12) = some a3) :
    syscallHandler m esp = .call n a1 a2 a3 := by
  have he : isUserVaddr esp := (isUserVaddr_iff esp).mpr (by omega)
  have hword : ∀ k : UInt32, k.toNat ≤ 12 → isUserVaddr (esp + k) := fun k hk => by
    rw [isUserVaddr_iff, toNat_add_of_user he hk]
    omega
  obtain ⟨hrange, hback⟩ := number_ofNat (n := n) (by have := syscallVec_lt hn; omega)
  simp [syscallHandler, he, h0, h1, h2, h3, hrange, hback, hword 4 (by decide),
    hword 8 (by decide), hword 12 (by decide)]

end Spec

/-- `exit (0)` pushed at the very top of the user stack: the number word and the one argument
word `exit` takes lie below `PHYS_BASE` and are mapped, yet the process ends with -1, because
the two words `exit` does not take would start at and above `PHYS_BASE`. -/
theorem exit_at_stack_top_rejected :
    readWord (stackOf (physBase - 8) [1, 0]) (physBase - 8) = some 1 ∧
      readWord (stackOf (physBase - 8) [1, 0]) (physBase - 4) = some 0 ∧
      (physBase - 8).toNat + 8 = physBase.toNat ∧ syscallVec 1 = some .exit ∧
      Handler.exit.arity = 1 ∧
      syscallHandler (stackOf (physBase - 8) [1, 0]) (physBase - 8) = .exit :=
  ⟨by decide, by decide, rfl, rfl, rfl, syscallHandler_of_high (by decide)⟩

/-- For every stack pointer and every memory: a call whose third argument word would start at
or above `PHYS_BASE` ends the process with -1, whatever its number and its arity; a registered
number whose word and the three words after it lie below `PHYS_BASE` in mapped memory reaches
its handler with those three words. -/
theorem syscallHandler_words (m : Mem) (esp : UInt32) :
    (physBase.toNat ≤ esp.toNat + 12 → syscallHandler m esp = .exit) ∧
      ∀ (n : Nat) (hd : Handler) (a1 a2 a3 : UInt32), esp.toNat + 16 ≤ physBase.toNat →
        syscallVec n = some hd → readWord m esp = some (UInt32.ofNat n) →
        readWord m (esp + 4) = some a1 → readWord m (esp + 8) = some a2 →
        readWord m (esp + 12) = some a3 → syscallHandler m esp = .call n a1 a2 a3 :=
  ⟨syscallHandler_of_high, fun _ _ _ _ _ hesp hn h0 h1 h2 h3 =>
    syscallHandler_of_words hesp hn h0 h1 h2 h3⟩

section Seek
variable {Name Inode : Type} {ops : InodeOps Name Inode} {n : Name} {sector : Nat}

/-- A process holding descriptor 2 traps with `SYS_SEEK`, 2 and -1 on its stack. The handler
passes the words on, `sys_seek` finds the file and hands -1 to `file_seek`, whose
`ASSERT (new_pos >= 0)` stops the kernel. -/
theorem seek_negative_panics (inodes : Nat → Inode) (hn : ops.lookup n = some sector) :
    syscallHandler (stackOf 0xBFFFFF00 [10, 2, 0xFFFFFFFF, 0]) 0xBFFFFF00 =
        .call 10 2 0xFFFFFFFF 0 ∧ syscallVec 10 = some .seek ∧
      ∃ p, runs (Procs.step ops) (Procs.start inodes)
          [.spawn, .call 3 (.open (some n) true),
            .call 3 (.seek (UInt32.toInt32 2) (UInt32.toInt32 0xFFFFFFFF))] = some p ∧
        p.halted = true ∧ p.last = .panic := by
  refine ⟨syscallHandler_of_words (by decide) rfl (by decide) (by decide) (by decide)
    (by decide), rfl, ?_⟩
  simp [runs, Procs.step, Procs.perform, Procs.start, Fds.sysOpen, Fds.filesysOpen, hn,
    Fds.sysSeek, Fds.findFileByFde]

theorem seek_negative_panics_sample :
    Procs.sampleOps.lookup 0 = some 1 ∧
      syscallHandler (stackOf 0xBFFFFF00 [10, 2, 0xFFFFFFFF, 0]) 0xBFFFFF00 =
          .call 10 2 0xFFFFFFFF 0 ∧ syscallVec 10 = some .seek ∧
        ∃ p, runs (Procs.step Procs.sampleOps) (Procs.start fun _ => [])
            [.spawn, .call 3 (.open (some 0) true),
              .call 3 (.seek (UInt32.toInt32 2) (UInt32.toInt32 0xFFFFFFFF))] = some p ∧
          p.halted = true ∧ p.last = .panic :=
  ⟨rfl, seek_negative_panics (fun _ => []) rfl⟩

end Seek

section Console
variable {Name Inode : Type} {ops : InodeOps Name Inode}

/-- A process traps with `SYS_READ`, `STDIN_FILENO`, `PHYS_BASE` and 1 on its stack.
`syscall_handler` checks only the stack words, and `sys_read` stores the first character typed
at `PHYS_BASE`, in kernel memory, and returns 1. With `SYS_WRITE`, `STDOUT_FILENO`, `PHYS_BASE`
and 4, `sys_write` hands the four kernel bytes there to `putbuf`. -/
theorem console_buffers_unchecked (s : Fds Inode) (io : Io) :
    isUserVaddr physBase = false ∧
      syscallHandler (stackOf 0xBFFFFF00 [8, 0, physBase, 1]) 0xBFFFFF00 = .call 8 0 physBase 1 ∧
      syscallVec 8 = some .read ∧
      (s.sysRead ops io (UInt32.toInt32 0) physBase 1).2.1.mem physBase = io.input io.taken ∧
      (s.sysRead ops io (UInt32.toInt32 0) physBase 1).2.2 = .ret 1 ∧
      syscallHandler (stackOf 0xBFFFFF00 [9, 1, physBase, 4]) 0xBFFFFF00 = .call 9 1 physBase 4 ∧
      syscallVec 9 = some .write ∧
      (s.sysWrite ops io (UInt32.toInt32 1) physBase 4).2.1.console =
        io.console ++ [io.mem physBase, io.mem (physBase + 1), io.mem (physBase + 2),
          io.mem (physBase + 3)] := by
  obtain ⟨io', hread, -, -, hstored, -⟩ := @sysRead_stdin Name Inode ops s io physBase 1
    (by decide)
  have hread1 : s.sysRead ops io (UInt32.toInt32 0) physBase 1 = (s, io', .ret 1) := hread
  refine ⟨rfl, syscallHandler_of_words (by decide) rfl (by decide) (by decide) (by decide)
    (by decide), rfl, ?_, by rw [hread1], syscallHandler_of_words (by decide) rfl (by decide)
    (by decide) (by decide) (by decide), rfl, ?_⟩
  · rw [hread1]
    simpa using hstored 0 (by decide)
  · rw [show UInt32.toInt32 1 = 1 from rfl, sysWrite_stdout]
    rfl

end Console

end Pintos.Userprog
