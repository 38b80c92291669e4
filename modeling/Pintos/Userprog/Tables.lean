import Pintos.Userprog.Descriptor
import Pintos.Kit.Run

/-! Processes making descriptor system calls one at a time, with `sys_exit` and `kill` as
their two ways out. What each process may reach through a descriptor number, and what
survives a process. -/
namespace Pintos.Userprog
open Pintos.Threads Pintos.Kit

/-- A system call as its handler receives it. -/
inductive Call (Name : Type) where
  | open (name : Option Name) (fdeOk : Bool)
  | close (fd : Int32)
  | read (fd : Int32) (buffer size : UInt32)
  | write (fd : Int32) (buffer length : UInt32)
  | filesize (fd : Int32)
  | tell (fd : Int32)
  | seek (fd pos : Int32)
  | exit (status : Int32)

inductive Event (Name : Type) where
  | spawn
  | call (t : Tid) (c : Call Name)
  | kill (t : Tid)

/-- The tables, the memory, keyboard and console the calls reach through their buffers, the
live processes, the next tid, the outcome of the latest call, whether an `ASSERT` stopped the
kernel, and the processes caught in a kernel loop that never returns. -/
structure Procs (Inode : Type) where
  fds : Fds Inode
  io : Io
  live : List Tid
  nextTid : Tid
  last : Outcome
  halted : Bool
  hung : List Tid

namespace Procs
variable {Name Inode : Type} (ops : InodeOps Name Inode)

/-- No file is open and `fid` starts at 2; memory and keyboard read zero and nothing has been
typed or printed; the first user process gets tid 3. -/
def start (inodes : Nat → Inode) : Procs Inode :=
  ⟨⟨[], fun _ => [], 2, fun _ => none, 0, inodes⟩, ⟨fun _ => 0, fun _ => 0, 0, []⟩, [], 3,
    .ret 0, false, []⟩

/-- The call `c` by `t` on the tables. `sys_close` is `void`, so `eax` is left unspecified;
it reads as 0 here. -/
def perform (s : Fds Inode) (io : Io) (t : Tid) : Call Name → Fds Inode × Io × Outcome
  | .open name ok => ((s.sysOpen ops t name ok).1, io, (s.sysOpen ops t name ok).2)
  | .close fd => (s.sysClose t fd, io, .ret 0)
  | .read fd buffer size => s.sysRead ops io fd buffer size
  | .write fd buffer length => s.sysWrite ops io fd buffer length
  | .filesize fd => (s, io, s.sysFilesize ops fd)
  | .tell fd => (s, io, s.sysTell fd)
  | .seek fd pos => ((s.sysSeek fd pos).1, io, (s.sysSeek fd pos).2)
  | .exit status => (s, io, .exit status)

/-- A call that ends in `sys_exit` closes the caller's files on the way out; `kill` calls
`thread_exit` directly. -/
def step (p : Procs Inode) : Event Name → Option (Procs Inode)
  | .spawn =>
    if p.halted then none
    else some { p with live := p.live ++ [p.nextTid], nextTid := p.nextTid + 1 }
  | .call t c =>
    if p.halted ∨ t ∉ p.live ∨ t ∈ p.hung then none
    else
      let r := perform ops p.fds p.io t c
      match r.2.2 with
      | .exit _ =>
        some { p with fds := r.1.sysExit t, io := r.2.1, live := p.live.erase t, last := r.2.2 }
      | .panic => some { p with fds := r.1, io := r.2.1, last := r.2.2, halted := true }
      | .diverges => some { p with fds := r.1, io := r.2.1, last := r.2.2, hung := p.hung ++ [t] }
      | .ret _ => some { p with fds := r.1, io := r.2.1, last := r.2.2 }
  | .kill t =>
    if p.halted ∨ t ∉ p.live ∨ t ∈ p.hung then none
    else some { p with live := p.live.erase t }

/-- A root directory holding one file, named 0, whose inode is at sector 1 and holds bytes. -/
def sampleOps : InodeOps Nat (List UInt8) where
  lookup n := if n = 0 then some 1 else none
  readAt data size ofs := (data.drop ofs.toNatClampNeg).take size.toNatClampNeg
  writeAt data bytes ofs :=
    let o := ofs.toNatClampNeg
    let k := min bytes.length (data.length - o)
    (data.take o ++ bytes.take k ++ data.drop (o + k), Int32.ofNat k)
  length data := Int32.ofNat data.length

section Traces
variable {ops} {n : Name} {sector : Nat}

/-- Two processes start and the second opens a file, which gets descriptor 2. The first
never opened anything, yet its `seek (2, 5)` returns normally and moves the second's file:
`find_file_by_fde` searches the global `open_file_list`, not the caller's `all_files`. -/
theorem seek_moves_foreign_file (inodes : Nat → Inode) (hn : ops.lookup n = some sector) :
    ∃ p, runs (step ops) (start inodes)
        [.spawn, .spawn, .call 4 (.open (some n) true), .call 3 (.seek 2 5)] = some p ∧
      p.last = .ret 0 ∧ 3 ∈ p.live ∧ p.fds.allFiles 3 = [] ∧ p.fds.allFiles 4 = [⟨2, 0⟩] ∧
      p.fds.files 0 = some ⟨sector, 5, false⟩ := by
  simp [runs, step, perform, start, Fds.sysOpen, Fds.filesysOpen, hn, Fds.sysSeek,
    Fds.findFileByFde, Fds.setFile]

theorem seek_moves_foreign_file_sample :
    sampleOps.lookup 0 = some 1 ∧
      ∃ p, runs (step sampleOps) (start fun _ => [])
          [.spawn, .spawn, .call 4 (.open (some 0) true), .call 3 (.seek 2 5)] = some p ∧
        p.last = .ret 0 ∧ 3 ∈ p.live ∧ p.fds.allFiles 3 = [] ∧ p.fds.allFiles 4 = [⟨2, 0⟩] ∧
        p.fds.files 0 = some ⟨1, 5, false⟩ :=
  ⟨rfl, seek_moves_foreign_file (fun _ => []) rfl⟩

/-- A process opens a file and is then killed on an exception. `kill` goes to `thread_exit`
without the close loop of `sys_exit`: the process is gone, its record is still on
`open_file_list` and its `struct file` was never closed. -/
theorem kill_leaves_record (inodes : Nat → Inode) (hn : ops.lookup n = some sector) :
    ∃ p, runs (step ops) (start inodes) [.spawn, .call 3 (.open (some n) true), .kill 3] =
        some p ∧
      3 ∉ p.live ∧ p.fds.openFileList = [⟨2, 0⟩] ∧ p.fds.files 0 = some ⟨sector, 0, false⟩ := by
  simp [runs, step, perform, start, Fds.sysOpen, Fds.filesysOpen, hn, Fds.setFile]

theorem kill_leaves_record_sample :
    sampleOps.lookup 0 = some 1 ∧
      ∃ p, runs (step sampleOps) (start fun _ => [])
          [.spawn, .call 3 (.open (some 0) true), .kill 3] = some p ∧
        3 ∉ p.live ∧ p.fds.openFileList = [⟨2, 0⟩] ∧ p.fds.files 0 = some ⟨1, 0, false⟩ :=
  ⟨rfl, kill_leaves_record (fun _ => []) rfl⟩

end Traces

end Procs
end Pintos.Userprog
