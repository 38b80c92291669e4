import Pintos.Threads.Queues

/-! The user-process layer over the scheduler: the fields thread.h adds under `USERPROG`, the
point each thread has reached in process.c, thread.c and syscall.c, `file_lock`, the threads
inside the file-system layer, and the blocks the exec and exit paths allocate. -/
namespace Pintos.Userprog
open Pintos.Threads

/-- The semaphores of this layer: each thread's `self_wait`, and the one in `file_lock`. -/
inductive SemaId where
  | selfWait (t : Tid)
  | fileLock
  deriving DecidableEq, Repr

/-- Where a block comes from: the `fn_copy` page and the `fn_copy_malloc` copy of
`process_execute`, the `argv_off` array of `start_process`, and the page directory of `load`,
which owns the page tables and the user pages installed in it. -/
inductive Site where
  | fnCopy | fnCopyMalloc | argvOff | pagedir
  deriving DecidableEq, Repr

structure Block where
  site : Site
  id : Nat
  deriving DecidableEq, Repr

/-- A node of a `children` list: the list's head or tail inside a thread, or a thread's
`child_elem`. -/
inductive Node where
  | head (t : Tid)
  | elem (t : Tid)
  | tail (t : Tid)
  deriving DecidableEq, Repr

/-- The thread whose page holds the node. -/
def Node.owner : Node → Tid
  | .head t | .elem t | .tail t => t

/-- Where `process_execute` returns: to `run_task`, which waits for the tid, or to `sys_exec`,
which releases `file_lock` and returns to user mode. -/
inductive ExecRet where
  | runTask | sysExec
  deriving DecidableEq, Repr

/-- Where `process_wait` returns: to the end of `run_task`, to user mode through `sys_wait`,
or into `process_execute` after its `process_wait (child->tid)`. -/
inductive WaitRet where
  | runTask | sysWait
  | execute (tid : Int32) (fnCopy : Nat) (k : ExecRet)
  deriving DecidableEq, Repr

/-- The system calls that reach the file-system layer. -/
inductive FileCall where
  | read | write | create | remove | open | close | filesize | tell | seek
  deriving DecidableEq, Repr

/-- Whether the call takes `file_lock` around its file-system work. -/
def FileCall.locked : FileCall → Bool
  | .read | .write | .create | .remove => true
  | .open | .close | .filesize | .tell | .seek => false

/-- The point a thread has reached: a step runs from one point to the next, and a timer
interrupt may fall between any two steps. A `Nat` argument names an allocated block. -/
inductive Pc where
  | idle
  | user
  | done
  -- process_execute, with thread_create in the middle
  | execute (k : ExecRet)
  | copy (fnCopy : Nat) (k : ExecRet)
  | create (fnCopy : Nat) (k : ExecRet)
  | createInit (child : Tid) (fnCopy : Nat) (k : ExecRet)
  | lookupChild (child : Tid) (fnCopy : Nat) (k : ExecRet)
  | handshakeWait (child : Tid) (fnCopy : Nat) (k : ExecRet)
  | loadCheck (child : Tid) (fnCopy : Nat) (k : ExecRet)
  | release (child : Tid) (tid : Int32) (fnCopy : Nat) (k : ExecRet)
  | releaseUnblock (child : Tid) (tid : Int32) (fnCopy : Nat) (k : ExecRet)
  | reap (child : Tid) (tid : Int32) (fnCopy : Nat) (k : ExecRet)
  | executeEnd (tid : Int32) (fnCopy : Nat) (k : ExecRet)
  -- start_process
  | start (fnCopy : Nat)
  | load (fnCopy argv : Nat)
  | loadFile (fnCopy argv : Nat)
  | loadDone (fnCopy argv : Nat)
  | selfFile (fnCopy argv : Nat)
  | selfFileDone (fnCopy argv : Nat)
  | handshake (fnCopy argv : Nat)
  | handshakeBlock (fnCopy argv : Nat)
  | launch (fnCopy argv : Nat)
  | failed (argv : Option Nat)
  | failedUp
  | failedBlock
  -- process_wait
  | wait (tid : Int32) (k : WaitRet)
  | waitStatus (c : Tid) (k : WaitRet)
  | waitSema (c : Tid) (k : WaitRet)
  | waitRead (c : Tid) (k : WaitRet)
  | waitUnblock (c : Tid) (v : Int32) (k : WaitRet)
  | waitUnblockDo (c : Tid) (v : Int32) (k : WaitRet)
  | waitEnd (c : Tid) (v : Int32) (k : WaitRet)
  -- sys_exec's lock, the file-system calls and sys_exit
  | lockAcquire (k : Pc)
  | fsEnter (c : FileCall)
  | fsLeave (c : FileCall)
  | exit (status : Int32)
  | exitClose (status : Int32)
  | exitCloseDone (status : Int32)
  -- thread_exit, with process_exit in the middle
  | threadExit
  | exitChild (c : Tid)
  | exitUnblock (c : Tid)
  | orphan (c : Tid)
  | orphanRemove (c : Tid)
  | exitNext (c : Tid)
  | processExit
  | closeSelf
  | closeSelfDone
  | exitFlag
  | exitBlock
  | destroy
  | unlink
  | unlinkRemove
  | die
  deriving DecidableEq, Repr

/-- The fields thread.h adds under `USERPROG` (the `children` list as its head's `next` and
its tail's `prev`, `child_elem` as its two pointers, `all_files` as its length), with `eax`
of the thread's interrupt frame. `init` is false from `init_thread`'s `memset` until
`thread_create` has run its `USERPROG` block; until then `self_wait` and the lists are zero
memory, not valid lists. -/
structure Proc where
  init : Bool
  pagedir : Option Nat
  selfFile : Bool
  headNext : Option Node
  tailPrev : Option Node
  elemPrev : Option Node
  elemNext : Option Node
  parent : Option Tid
  exitStatus : Bool
  returnStatus : Int32
  allFiles : Nat
  eax : Int32
  deriving DecidableEq, Repr

/-- A thread page as `init_thread` leaves it. -/
def Proc.zero : Proc := ⟨false, none, false, none, none, none, none, none, false, 0, 0, 0⟩

/-- The scheduler, what each thread is executing and its `USERPROG` fields, the holder of
`file_lock`, the threads inside the file-system layer, and the live blocks. -/
structure Kernel where
  sched : Sched SemaId
  pc : Tid → Pc
  proc : Tid → Proc
  holder : Option Tid
  inFs : List Tid
  live : List Block
  nextBlock : Nat

namespace Kernel

def setPc (s : Kernel) (t : Tid) (p : Pc) : Kernel := { s with pc := Function.update s.pc t p }

def setProc (s : Kernel) (t : Tid) (f : Proc → Proc) : Kernel :=
  { s with proc := Function.update s.proc t (f (s.proc t)) }

def setSched (s : Kernel) (sc : Sched SemaId) : Kernel := { s with sched := sc }

/-- Whether `t`'s page is allocated; `thread_schedule_tail` frees a dying thread's page. -/
def alive (s : Kernel) (t : Tid) : Bool := (s.sched.status t).isSome

def alloc (s : Kernel) (site : Site) : Kernel × Nat :=
  ({ s with live := s.live ++ [⟨site, s.nextBlock⟩], nextBlock := s.nextBlock + 1 },
    s.nextBlock)

def free (s : Kernel) (b : Block) : Kernel := { s with live := s.live.erase b }

def enterFs (s : Kernel) (t : Tid) : Kernel := { s with inFs := s.inFs ++ [t] }

def leaveFs (s : Kernel) (t : Tid) : Kernel := { s with inFs := s.inFs.erase t }

/-- `get_thread_by_tid`: the first thread on `all_list` with that tid. -/
def getThreadByTid (s : Kernel) (tid : Int32) : Option Tid :=
  s.sched.allList.find? (fun t => Int32.ofNat t == tid)

/-- `lock_release (&file_lock)`. -/
def lockRelease (s : Kernel) : Option Kernel :=
  (s.sched.semaUp .fileLock).map fun sc => { s with sched := sc, holder := none }

/-- Write the `next` pointer of a node; a tail's is never written by the list code. -/
def setNext (s : Kernel) : Node → Option Node → Kernel
  | .head t, v => s.setProc t fun r => { r with headNext := v }
  | .elem t, v => s.setProc t fun r => { r with elemNext := v }
  | .tail _, _ => s

/-- Write the `prev` pointer of a node; a head's is never written by the list code. -/
def setPrev (s : Kernel) : Node → Option Node → Kernel
  | .elem t, v => s.setProc t fun r => { r with elemPrev := v }
  | .tail t, v => s.setProc t fun r => { r with tailPrev := v }
  | .head _, _ => s

/-- `list_push_back (&p->children, &c->child_elem)`. -/
def pushChild (s : Kernel) (p c : Tid) : Option Kernel :=
  match (s.proc p).tailPrev with
  | none => none
  | some last =>
    let s := s.setProc c fun r => { r with elemPrev := some last, elemNext := some (.tail p) }
    some ((s.setNext last (some (.elem c))).setProc p fun r => { r with tailPrev := some (.elem c) })

/-- `list_remove (&c->child_elem)`: the nodes on either side are linked to each other, and
`c`'s own pointers keep their values. `none` when a pointer is null (its `ASSERT`) or points
into a page that has been freed. -/
def removeChild (s : Kernel) (c : Tid) : Option Kernel :=
  match (s.proc c).elemPrev, (s.proc c).elemNext with
  | some prv, some nxt =>
    if s.alive prv.owner && s.alive nxt.owner then
      some ((s.setNext prv (some nxt)).setPrev nxt (some prv))
    else none
  | _, _ => none

@[simp] theorem setPc_live (s : Kernel) (t : Tid) (p : Pc) : (s.setPc t p).live = s.live := rfl
@[simp] theorem setProc_live (s : Kernel) (t : Tid) (f : Proc → Proc) :
    (s.setProc t f).live = s.live := rfl
@[simp] theorem setSched_live (s : Kernel) (sc : Sched SemaId) : (s.setSched sc).live = s.live :=
  rfl
@[simp] theorem alloc_live (s : Kernel) (site : Site) :
    (s.alloc site).1.live = s.live ++ [⟨site, s.nextBlock⟩] := rfl
@[simp] theorem free_live (s : Kernel) (b : Block) : (s.free b).live = s.live.erase b := rfl
@[simp] theorem enterFs_live (s : Kernel) (t : Tid) : (s.enterFs t).live = s.live := rfl
@[simp] theorem leaveFs_live (s : Kernel) (t : Tid) : (s.leaveFs t).live = s.live := rfl
@[simp] theorem setNext_live (s : Kernel) (n : Node) (v : Option Node) :
    (s.setNext n v).live = s.live := by
  cases n <;> rfl
@[simp] theorem setPrev_live (s : Kernel) (n : Node) (v : Option Node) :
    (s.setPrev n v).live = s.live := by
  cases n <;> rfl

end Kernel
end Pintos.Userprog
