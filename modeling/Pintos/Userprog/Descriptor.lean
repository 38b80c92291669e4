import Pintos.Threads.Thread
import Mathlib.Data.List.Basic

/-! The descriptor tables of userprog/syscall.c: `open_file_list`, each thread's `all_files`,
the `static int fid` of `sys_open`, and the `struct file`s of filesys/file.c they point to.
Each system call is one atomic step here. Below `struct file` the inode and directory layers
are a parameter. -/
namespace Pintos.Userprog
open Pintos.Threads

/-- `struct file`; `deny_write` is kept for file.c, the write denial itself is the inode's. -/
structure File where
  inode : Nat
  pos : Int32
  denyWrite : Bool
  deriving DecidableEq, Repr

/-- `struct filedescriptor_elem`: `elem` puts it on `open_file_list`, `thread_elem` on its
opener's `all_files`; `file` is the address of its `struct file`. -/
structure Fde where
  filedesc : Int32
  file : Nat
  deriving DecidableEq, Repr

/-- The inode and directory layers as file.c and `filesys_open` use them: the inode sector a
name has in the root directory, the bytes `inode_read_at` copies out of an inode for a size
and offset, the inode `inode_write_at` leaves with the count it returns, and `inode_length`. -/
structure InodeOps (Name Inode : Type) where
  lookup : Name → Option Nat
  readAt : Inode → Int32 → Int32 → List UInt8
  writeAt : Inode → List UInt8 → Int32 → Inode × Int32
  length : Inode → Int32

/-- How a system call ends for the calling process: a value in `eax`, termination through
`sys_exit`, a failed kernel `ASSERT` (a panic), or a loop that never returns. -/
inductive Outcome where
  | ret (v : Int32)
  | exit (status : Int32)
  | panic
  | diverges
  deriving DecidableEq, Repr

/-- `PHYS_BASE`: user memory lies below it, the kernel's mapping of all RAM from it up. -/
def physBase : UInt32 := 0xC0000000

def isUserVaddr (a : UInt32) : Bool := a < physBase

/-- What a call reaches through its buffer: the byte at each address, the characters
`input_getc` hands out (the `n`-th is `input n`, and `taken` have been handed out), and the
bytes `putbuf` has sent to the console. -/
structure Io where
  mem : UInt32 → UInt8
  input : Nat → UInt8
  taken : Nat
  console : List UInt8

/-- The `n` bytes from `buffer` up, read one at a time. -/
def readBuffer (mem : UInt32 → UInt8) (buffer : UInt32) : Nat → List UInt8
  | 0 => []
  | n + 1 => mem buffer :: readBuffer mem (buffer + 1) n

/-- `bytes` stored from `buffer` up. -/
def writeBuffer (mem : UInt32 → UInt8) (buffer : UInt32) : List UInt8 → UInt32 → UInt8
  | [] => mem
  | b :: bs => writeBuffer (Function.update mem buffer b) (buffer + 1) bs

/-- The console loop of `sys_read` between two turns: its `uint16_t` counter `i`, the bytes of
memory, and how many characters `input_getc` has handed out. -/
structure ConsoleRead where
  i : UInt16
  mem : UInt32 → UInt8
  taken : Nat

/-- `for (i = 0; i < size; i++) *(uint8_t *) (buffer + i) = input_getc ();` for at most `fuel`
turns, with `input n` the `n`-th character `input_getc` returns; `none` when the fuel runs out.
The comparison promotes `i` to the unsigned type of `size`. -/
def consoleLoop (input : Nat → UInt8) (buffer size : UInt32) : Nat → ConsoleRead → Option ConsoleRead
  | 0, _ => none
  | fuel + 1, s =>
    if s.i.toNat < size.toNat then
      consoleLoop input buffer size fuel
        ⟨s.i + 1, Function.update s.mem (buffer + s.i.toUInt32) (input s.taken), s.taken + 1⟩
    else some s

/-- `open_file_list`, every thread's `all_files`, `fid`, the allocated `struct file`s by
address with the next fresh address, and the inodes by sector. -/
structure Fds (Inode : Type) where
  openFileList : List Fde
  allFiles : Tid → List Fde
  fid : Int32
  files : Nat → Option File
  nextFile : Nat
  inodes : Nat → Inode

namespace Fds
variable {Name Inode : Type} (ops : InodeOps Name Inode)

/-- `find_file_by_fde`: the first record on the global `open_file_list` with that number. -/
def findFileByFde (s : Fds Inode) (fd : Int32) : Option Nat :=
  (s.openFileList.find? (·.filedesc == fd)).map (·.file)

/-- `find_fde_by_file`: the first record on the calling thread's own `all_files`. -/
def findFdeByFile (s : Fds Inode) (cur : Tid) (fd : Int32) : Option Fde :=
  (s.allFiles cur).find? (·.filedesc == fd)

def setFile (s : Fds Inode) (f : Nat) (v : Option File) : Fds Inode :=
  { s with files := Function.update s.files f v }

/-- `filesys_open`: look the name up in the root directory and `file_open` its inode. -/
def filesysOpen (s : Fds Inode) (name : Name) : Fds Inode × Option Nat :=
  match ops.lookup name with
  | none => (s, none)
  | some sector =>
    ({ (s.setFile s.nextFile (some ⟨sector, 0, false⟩)) with nextFile := s.nextFile + 1 },
      some s.nextFile)

/-- `file_close` frees the `struct file`. -/
def fileClose (s : Fds Inode) (f : Nat) : Fds Inode := s.setFile f none

/-- `file_read`: the bytes `inode_read_at` copies out at the file's position, which advances
by their count. A record's file is never freed while the record is listed; `none` would be a
dangling pointer. -/
def fileRead (s : Fds Inode) (f : Nat) (size : Int32) : Fds Inode × List UInt8 :=
  match s.files f with
  | none => (s, [])
  | some file =>
    let bytes := ops.readAt (s.inodes file.inode) size file.pos
    (s.setFile f (some { file with pos := file.pos + Int32.ofNat bytes.length }), bytes)

/-- `file_write`: `inode_write_at` at the file's position, which advances by the count. -/
def fileWrite (s : Fds Inode) (f : Nat) (data : List UInt8) : Fds Inode × Int32 :=
  match s.files f with
  | none => (s, 0)
  | some file =>
    let r := ops.writeAt (s.inodes file.inode) data file.pos
    ({ (s.setFile f (some { file with pos := file.pos + r.2 })) with
        inodes := Function.update s.inodes file.inode r.1 }, r.2)

/-- `sys_open` on a name the process passed (`none` for a null pointer). `fdeOk` says whether
the `malloc` of the descriptor record succeeds. -/
def sysOpen (s : Fds Inode) (cur : Tid) (name : Option Name) (fdeOk : Bool) :
    Fds Inode × Outcome :=
  match name with
  | none => (s, .ret (-1))
  | some name =>
    match filesysOpen ops s name with
    | (s, none) => (s, .ret (-1))
    | (s, some f) =>
      if fdeOk then
        let fde : Fde := ⟨s.fid, f⟩
        ({ s with
            openFileList := s.openFileList ++ [fde]
            fid := s.fid + 1
            allFiles := Function.update s.allFiles cur (s.allFiles cur ++ [fde]) },
          .ret fde.filedesc)
      else (s.fileClose f, .ret (-1))

/-- `sys_close`: only a record on the caller's own list is closed and unlinked from both. -/
def sysClose (s : Fds Inode) (cur : Tid) (fd : Int32) : Fds Inode :=
  match s.findFdeByFile cur fd with
  | none => s
  | some fde =>
    { (s.fileClose fde.file) with
      openFileList := s.openFileList.erase fde,
      allFiles := Function.update s.allFiles cur ((s.allFiles cur).erase fde) }

/-- `sys_read`. `STDIN_FILENO` stores what `input_getc` returns through `buffer`, unchecked;
its `uint16_t` counter lets the loop end only when `size` is below 2^16. `STDOUT_FILENO`
fails. Any other number ends the process unless `buffer` and `buffer + size` are user
addresses, then reads its file into the buffer. -/
def sysRead (s : Fds Inode) (io : Io) (fd : Int32) (buffer size : UInt32) :
    Fds Inode × Io × Outcome :=
  if fd = 0 then
    match consoleLoop (fun n => io.input (io.taken + n)) buffer size (size.toNat + 1)
        ⟨0, io.mem, 0⟩ with
    | some r => (s, { io with mem := r.mem, taken := io.taken + r.taken }, .ret size.toInt32)
    | none => (s, io, .diverges)
  else if fd = 1 then (s, io, .ret (-1))
  else if !isUserVaddr buffer || !isUserVaddr (buffer + size) then (s, io, .exit (-1))
  else
    match s.findFileByFde fd with
    | none => (s, io, .ret (-1))
    | some f =>
      let r := fileRead ops s f size.toInt32
      (r.1, { io with mem := writeBuffer io.mem buffer r.2 }, .ret (Int32.ofNat r.2.length))

/-- `sys_write`. `STDOUT_FILENO` hands `length` bytes from `buffer` to `putbuf`, unchecked,
and `return_val` stays -1. `STDIN_FILENO` fails. Any other number ends the process unless
`buffer` and `buffer + length` are user addresses. When no record matches, `file_write` still
runs on the null file: its first access faults and `page_fault` ends the process with
`sys_exit (-1)`. -/
def sysWrite (s : Fds Inode) (io : Io) (fd : Int32) (buffer length : UInt32) :
    Fds Inode × Io × Outcome :=
  if fd = 1 then
    (s, { io with console := io.console ++ readBuffer io.mem buffer length.toNat }, .ret (-1))
  else if fd = 0 then (s, io, .ret (-1))
  else if !isUserVaddr buffer || !isUserVaddr (buffer + length) then (s, io, .exit (-1))
  else
    match s.findFileByFde fd with
    | none => (s, io, .exit (-1))
    | some f =>
      let r := fileWrite ops s f (readBuffer io.mem buffer length.toNat)
      (r.1, io, .ret r.2)

def sysFilesize (s : Fds Inode) (fd : Int32) : Outcome :=
  match s.findFileByFde fd with
  | none => .ret (-1)
  | some f =>
    match s.files f with
    | none => .ret 0
    | some file => .ret (ops.length (s.inodes file.inode))

def sysTell (s : Fds Inode) (fd : Int32) : Outcome :=
  match s.findFileByFde fd with
  | none => .ret (-1)
  | some f =>
    match s.files f with
    | none => .ret 0
    | some file => .ret file.pos

/-- `sys_seek`: an unknown number ends the caller; `file_seek` asserts `new_pos >= 0`. -/
def sysSeek (s : Fds Inode) (fd : Int32) (pos : Int32) : Fds Inode × Outcome :=
  match s.findFileByFde fd with
  | none => (s, .exit (-1))
  | some f =>
    if pos < 0 then (s, .panic)
    else
      match s.files f with
      | none => (s, .ret 0)
      | some file => (s.setFile f (some { file with pos := pos }), .ret 0)

/-- The loop of `sys_exit`: `sys_close` the front of `all_files` until it is empty, for at
most `fuel` passes. -/
def closeAll (s : Fds Inode) (cur : Tid) : Nat → Fds Inode
  | 0 => s
  | fuel + 1 =>
    match s.allFiles cur with
    | [] => s
    | fde :: _ => closeAll (s.sysClose cur fde.filedesc) cur fuel

/-- What `sys_exit` does to the tables before `thread_exit`. -/
def sysExit (s : Fds Inode) (cur : Tid) : Fds Inode := s.closeAll cur (s.allFiles cur).length

section Spec
variable {ops} {s : Fds Inode} {cur : Tid} {fd : Int32}

@[simp] theorem setFile_openFileList (f : Nat) (v : Option File) :
    (s.setFile f v).openFileList = s.openFileList := rfl
@[simp] theorem setFile_allFiles (f : Nat) (v : Option File) :
    (s.setFile f v).allFiles = s.allFiles := rfl
@[simp] theorem setFile_fid (f : Nat) (v : Option File) : (s.setFile f v).fid = s.fid := rfl
@[simp] theorem setFile_files (f : Nat) (v : Option File) :
    (s.setFile f v).files = Function.update s.files f v := rfl

theorem findFdeByFile_some {fde : Fde} (h : s.findFdeByFile cur fd = some fde) :
    fde ∈ s.allFiles cur ∧ fde.filedesc = fd :=
  ⟨List.mem_of_find?_eq_some h, by simpa using List.find?_some h⟩

theorem findFileByFde_some {f : Nat} (h : s.findFileByFde fd = some f) :
    ∃ fde ∈ s.openFileList, fde.filedesc = fd ∧ fde.file = f := by
  unfold findFileByFde at h
  cases hf : s.openFileList.find? (·.filedesc == fd) with
  | none => simp [hf] at h
  | some fde =>
    simp only [hf, Option.map_some, Option.some.injEq] at h
    exact ⟨fde, List.mem_of_find?_eq_some hf, by simpa using List.find?_some hf, h⟩

/-- `sys_close` either finds nothing on the caller's list and changes nothing, or closes the
first record of the caller's list with that number and unlinks it from both lists. -/
theorem sysClose_cases (s : Fds Inode) (cur : Tid) (fd : Int32) :
    (s.findFdeByFile cur fd = none ∧ s.sysClose cur fd = s) ∨
      ∃ fde, s.findFdeByFile cur fd = some fde ∧ s.sysClose cur fd =
        { (s.fileClose fde.file) with
          openFileList := s.openFileList.erase fde,
          allFiles := Function.update s.allFiles cur ((s.allFiles cur).erase fde) } := by
  unfold sysClose
  cases h : s.findFdeByFile cur fd with
  | none => exact .inl ⟨rfl, rfl⟩
  | some fde => exact .inr ⟨fde, rfl, rfl⟩

theorem sysClose_allFiles_of_ne {u : Tid} (hu : u ≠ cur) :
    (s.sysClose cur fd).allFiles u = s.allFiles u := by
  rcases sysClose_cases s cur fd with ⟨_, e⟩ | ⟨fde, _, e⟩
  · rw [e]
  · rw [e]
    simp [Function.update_of_ne hu]

theorem fileRead_tables (f : Nat) (size : Int32) :
    (fileRead ops s f size).1.openFileList = s.openFileList ∧
      (fileRead ops s f size).1.allFiles = s.allFiles := by
  unfold fileRead
  split <;> simp

theorem fileWrite_tables (f : Nat) (data : List UInt8) :
    (fileWrite ops s f data).1.openFileList = s.openFileList ∧
      (fileWrite ops s f data).1.allFiles = s.allFiles := by
  unfold fileWrite
  split <;> simp

theorem sysRead_tables (io : Io) (buffer size : UInt32) :
    (sysRead ops s io fd buffer size).1.openFileList = s.openFileList ∧
      (sysRead ops s io fd buffer size).1.allFiles = s.allFiles := by
  unfold sysRead
  split
  · split <;> simp
  · split
    · simp
    · split
      · simp
      · split
        · simp
        · exact fileRead_tables _ _

theorem sysWrite_tables (io : Io) (buffer length : UInt32) :
    (sysWrite ops s io fd buffer length).1.openFileList = s.openFileList ∧
      (sysWrite ops s io fd buffer length).1.allFiles = s.allFiles := by
  unfold sysWrite
  split
  · simp
  · split
    · simp
    · split
      · simp
      · split
        · simp
        · exact fileWrite_tables _ _

theorem sysSeek_tables (pos : Int32) :
    (s.sysSeek fd pos).1.openFileList = s.openFileList ∧
      (s.sysSeek fd pos).1.allFiles = s.allFiles := by
  unfold sysSeek
  split
  · simp
  · split
    · simp
    · split <;> simp

/-- `sys_seek` does not ask who is calling: it moves the file of the first record with that
number on the global list, whichever process opened it. -/
theorem sysSeek_of_listed {fde : Fde} {file : File} {pos : Int32}
    (hfirst : s.openFileList.find? (·.filedesc == fd) = some fde)
    (hfile : s.files fde.file = some file) (hpos : 0 ≤ pos) :
    s.sysSeek fd pos = (s.setFile fde.file (some { file with pos := pos }), .ret 0) := by
  have hf : s.findFileByFde fd = some fde.file := by simp [findFileByFde, hfirst]
  have hn : ¬ pos < 0 := Int32.not_lt.mpr hpos
  simp [sysSeek, hf, hn, hfile]

end Spec
end Fds

section Console

variable {input : Nat → UInt8} {buffer size : UInt32}

/-- A size of 2^16 or more is above every value of the counter, so no turn ever leaves the
loop. -/
theorem consoleLoop_none (hsize : 65536 ≤ size.toNat) :
    ∀ (fuel : Nat) (s : ConsoleRead), consoleLoop input buffer size fuel s = none
  | 0, _ => rfl
  | fuel + 1, s => by
    have hlt : s.i.toNat < size.toNat := by
      have := s.i.toNat_lt
      omega
    rw [consoleLoop, if_pos hlt]
    exact consoleLoop_none hsize fuel _

theorem buffer_add_ne {j k : Nat} (hj : j < 65536) (hk : k < 65536) (hne : j ≠ k) :
    buffer + j.toUInt32 ≠ buffer + k.toUInt32 := by
  intro h
  have h' := congrArg UInt32.toNat ((UInt32.add_right_inj buffer).mp h)
  rw [UInt32.toNat_ofNat', UInt32.toNat_ofNat'] at h'
  omega

theorem toUInt32_of_counter (i : UInt16) : i.toUInt32 = i.toNat.toUInt32 := by
  apply UInt32.toNat_inj.mp
  rw [UInt16.toNat_toUInt32, UInt32.toNat_ofNat']
  have := i.toNat_lt
  omega

/-- Below 2^16 the loop ends, having taken one character per offset from `i` up to `size`
and stored the `j`-th at `buffer + j`, and written nowhere else. -/
theorem consoleLoop_spec (hsize : size.toNat < 65536) :
    ∀ (fuel : Nat) (s : ConsoleRead), s.i.toNat ≤ size.toNat → s.taken = s.i.toNat →
      size.toNat - s.i.toNat < fuel →
      ∃ t, consoleLoop input buffer size fuel s = some t ∧ t.taken = size.toNat ∧
        (∀ j, s.i.toNat ≤ j → j < size.toNat → t.mem (buffer + j.toUInt32) = input j) ∧
        ∀ a, (∀ j, s.i.toNat ≤ j → j < size.toNat → a ≠ buffer + j.toUInt32) → t.mem a = s.mem a
  | 0, _, _, _, hfuel => absurd hfuel (Nat.not_lt_zero _)
  | fuel + 1, s, hle, htaken, hfuel => by
    by_cases hlt : s.i.toNat < size.toNat
    · -- one more character: the rest of the run starts from offset `i + 1`
      have hi : (s.i + 1).toNat = s.i.toNat + 1 := by
        rw [UInt16.toNat_add, UInt16.toNat_one]
        omega
      obtain ⟨t, hrun, htk, hwrote, hkept⟩ := consoleLoop_spec hsize fuel
        ⟨s.i + 1, Function.update s.mem (buffer + s.i.toUInt32) (input s.taken), s.taken + 1⟩
        (by dsimp only; omega) (by dsimp only; omega) (by dsimp only; omega)
      rw [consoleLoop, if_pos hlt]
      refine ⟨t, hrun, htk, fun j hj hjs => ?_, fun a ha => ?_⟩
      · rcases Nat.lt_or_ge s.i.toNat j with hij | hij
        · exact hwrote j (by dsimp only; omega) hjs
        · have hj' : j = s.i.toNat := by omega
          subst hj'
          rw [hkept _ fun k hk hks => buffer_add_ne (by omega) (by omega) (by dsimp only at hk; omega),
            toUInt32_of_counter]
          exact (Function.update_self _ _ _).trans (congrArg input htaken)
      · rw [hkept a fun k hk hks => ha k (by dsimp only at hk; omega) hks, toUInt32_of_counter]
        exact Function.update_of_ne (ha _ (Nat.le_refl _) hlt) _ _
    · -- the counter has reached `size`
      have hi : s.i.toNat = size.toNat := by omega
      rw [consoleLoop, if_neg hlt]
      exact ⟨s, rfl, by omega, fun j hj hjs => absurd hjs (by omega), fun _ _ => rfl⟩

/-- The console loop ends exactly when `size` is below 2^16, which is when `sys_read` returns
`size` for `STDIN_FILENO`. -/
theorem consoleLoop_ends_iff (mem : UInt32 → UInt8) :
    (∃ fuel t, consoleLoop input buffer size fuel ⟨0, mem, 0⟩ = some t) ↔ size.toNat < 65536 := by
  constructor
  · rintro ⟨fuel, t, h⟩
    by_contra hge
    rw [consoleLoop_none (by omega)] at h
    cases h
  · intro hsize
    obtain ⟨t, h, -⟩ := @consoleLoop_spec input buffer size hsize (size.toNat + 1) ⟨0, mem, 0⟩
      (by simp) rfl (by simp)
    exact ⟨_, t, h⟩

/-- `sys_read (STDIN_FILENO, buffer, size)` with a `size` of 2^16 or more never returns: its
`uint16_t` counter wraps to 0 before it reaches `size`, on whatever input. -/
theorem console_read_never_returns (input : Nat → UInt8) (buffer size : UInt32)
    (mem : UInt32 → UInt8) (hsize : 65536 ≤ size.toNat) (fuel : Nat) :
    consoleLoop input buffer size fuel ⟨0, mem, 0⟩ = none :=
  consoleLoop_none hsize fuel _

theorem console_read_never_returns_sample :
    65536 ≤ (65536 : UInt32).toNat ∧
      consoleLoop (fun _ => 0x61) 0x0804a000 65536 200000 ⟨0, fun _ => 0, 0⟩ = none :=
  ⟨by decide, console_read_never_returns _ _ _ _ (by decide) _⟩

end Console

section Buffers
variable {Name Inode : Type} {ops : InodeOps Name Inode} {s : Fds Inode} {io : Io}
  {buffer size : UInt32}

/-- Below 2^16, `STDIN_FILENO` stores the `j`-th character typed at `buffer + j`, whatever
`buffer` is, writes nowhere else and returns `size`. -/
theorem sysRead_stdin (hsize : size.toNat < 65536) :
    ∃ io', s.sysRead ops io 0 buffer size = (s, io', .ret size.toInt32) ∧
      io'.taken = io.taken + size.toNat ∧ io'.console = io.console ∧
      (∀ j < size.toNat, io'.mem (buffer + j.toUInt32) = io.input (io.taken + j)) ∧
      ∀ a, (∀ j < size.toNat, a ≠ buffer + j.toUInt32) → io'.mem a = io.mem a := by
  obtain ⟨t, hrun, htk, hw, hk⟩ := @consoleLoop_spec (fun n => io.input (io.taken + n)) buffer
    size hsize (size.toNat + 1) ⟨0, io.mem, 0⟩ (Nat.zero_le _) rfl (by simp)
  refine ⟨{ io with mem := t.mem, taken := io.taken + t.taken }, ?_, by simp [htk], rfl,
    fun j hj => hw j (Nat.zero_le _) hj, fun a ha => hk a fun j _ hj => ha j hj⟩
  simp only [Fds.sysRead, hrun, if_true]

/-- `STDOUT_FILENO` sends the `length` bytes from `buffer` to the console, whatever `buffer`
is, and returns -1. -/
theorem sysWrite_stdout (length : UInt32) :
    s.sysWrite ops io 1 buffer length =
      (s, { io with console := io.console ++ readBuffer io.mem buffer length.toNat }, .ret (-1)) := by
  simp [Fds.sysWrite]

end Buffers

end Pintos.Userprog
