import Pintos.Userprog.Kernel
import Pintos.Kit.Run

/-! One step of the running thread through process.c, thread.c and the system calls of
syscall.c that create, wait for and end processes, and the kernel as a machine over the
running thread's steps, timer interrupts and traps from user mode. -/
namespace Pintos.Userprog
open Pintos.Threads

/-- What a process in user mode asks of the kernel, as far as processes and the file-system
layer are concerned. `exit` also stands for the `sys_exit (-1)` of a failed pointer check or
of a not-present page fault; `kill` is an exception in user mode. -/
inductive UserCall where
  | exec (valid : Bool)
  | wait (tid : Int32)
  | exit (status : Int32)
  | file (c : FileCall)
  | kill
  deriving DecidableEq, Repr

namespace Kernel

/-- A step of the running thread, with the outcome of the one allocation, load or open that
the step may make; a timer interrupt, which yields; a trap from user mode. -/
inductive Event where
  | run (ok : Bool)
  | tick
  | call (c : UserCall)
  deriving DecidableEq, Repr

/-- A null dereference in the kernel: `page_fault` finds the page not present and calls
`sys_exit (-1)`. Only a user process is followed down that path. -/
def fault (s : Kernel) (t : Tid) : Option Kernel :=
  if t = initialTid then none else some (s.setPc t (.exit (-1)))

/-- `process_execute` returns `tid`; `sys_exec` then releases `file_lock`. -/
def execReturn (s : Kernel) (t : Tid) (tid : Int32) : ExecRet → Option Kernel
  | .runTask => some (s.setPc t (.wait tid .runTask))
  | .sysExec =>
    s.lockRelease.map fun s => (s.setProc t fun r => { r with eax := tid }).setPc t .user

/-- `process_wait` returns `v`. -/
def waitReturn (s : Kernel) (t : Tid) (v : Int32) : WaitRet → Option Kernel
  | .runTask => some (s.setPc t .done)
  | .sysWait => some ((s.setProc t fun r => { r with eax := v }).setPc t .user)
  | .execute tid fnCopy k => some (s.setPc t (.executeEnd tid fnCopy k))

/-- `sema_down` as one pass of its loop: past it, on to `next`, or queued and blocked, to run
the pass again when woken. -/
def down (s : Kernel) (t : Tid) (i : SemaId) (next : Pc) : Kernel :=
  match s.sched.semaDown i with
  | (sc, true) => (s.setSched sc).setPc t next
  | (sc, false) => s.setSched sc

/-- `thread_unblock`, which asserts the thread is blocked. -/
def unblock (s : Kernel) (c : Tid) : Option Kernel := (s.sched.threadUnblock c).map s.setSched

def block (s : Kernel) : Kernel := s.setSched s.sched.threadBlock

/-- Steps of `process_execute` and `thread_create`, run by `t`. -/
def runExecute (s : Kernel) (t : Tid) (ok : Bool) : Pc → Option Kernel
  | .execute k =>
    if ok then
      let (s, b) := s.alloc .fnCopy
      some (s.setPc t (.copy b k))
    else s.execReturn t (-1) k
  | .copy fnCopy k =>
    -- the copy `strtok_r` cuts the program name out of; nothing ever frees it
    if ok then some ((s.alloc .fnCopyMalloc).1.setPc t (.create fnCopy k))
    else (s.free ⟨.fnCopy, fnCopy⟩).execReturn t (-1) k
  | .create fnCopy k =>
    -- palloc_get_page (PAL_ZERO), init_thread, allocate_tid, the three frames, and
    -- thread_unblock: the child can run from here on
    if ok then
      let (sc, c) := s.sched.threadAlloc
      (sc.threadUnblock c).map fun sc =>
        (((s.setSched sc).setProc c fun _ => .zero).setPc c (.start fnCopy)).setPc t
          (.createInit c fnCopy k)
    else (s.free ⟨.fnCopy, fnCopy⟩).execReturn t (-1) k
  | .createInit c fnCopy k =>
    -- thread_create's USERPROG block, run as one step
    if s.alive c then
      let s := (s.setSched (s.sched.setSema (.selfWait c) (semaInit 0))).setProc c fun r =>
        { r with init := true, returnStatus := 0, allFiles := 0, headNext := some (.tail c),
                 tailPrev := some (.head c), parent := some t, exitStatus := false }
      if t = initialTid then some (s.setPc t (.lookupChild c fnCopy k))
      else (s.pushChild t c).map (·.setPc t (.lookupChild c fnCopy k))
    else none
  | .lookupChild c fnCopy k =>
    match s.getThreadByTid (Int32.ofNat c) with
    | none => s.fault t
    | some c => some (s.setPc t (.handshakeWait c fnCopy k))
  | .handshakeWait c fnCopy k =>
    if s.alive c then some (s.down t (.selfWait c) (.loadCheck c fnCopy k)) else none
  | .loadCheck c fnCopy k =>
    if s.alive c then
      let tid : Int32 := if (s.proc c).returnStatus = -1 then -1 else Int32.ofNat c
      some (s.setPc t (.release c tid fnCopy k))
    else none
  | .release c tid fnCopy k =>
    if s.alive c then
      some (s.setPc t
        (if s.sched.status c = some .blocked then .releaseUnblock c tid fnCopy k
         else .reap c tid fnCopy k))
    else none
  | .releaseUnblock c tid fnCopy k =>
    (s.unblock c).map (·.setPc t (.release c tid fnCopy k))
  | .reap c tid fnCopy k =>
    if s.alive c then
      some (s.setPc t
        (if (s.proc c).returnStatus = -1 then .wait (Int32.ofNat c) (.execute tid fnCopy k)
         else .executeEnd tid fnCopy k))
    else none
  | .executeEnd tid fnCopy k =>
    (if tid = -1 then s.free ⟨.fnCopy, fnCopy⟩ else s).execReturn t tid k
  | _ => none

/-- Steps of `start_process`, run by the new thread `t`. -/
def runStart (s : Kernel) (t : Tid) (ok : Bool) : Pc → Option Kernel
  | .start fnCopy =>
    -- argv_off = malloc (32 * sizeof (int)), then the strtok_r loop over the page
    if ok then
      let (s, a) := s.alloc .argvOff
      some (s.setPc t (.load fnCopy a))
    else some (s.setPc t (.failed none))
  | .load fnCopy a =>
    -- load begins with pagedir_create and returns false at once when it fails
    if ok then
      let (s, d) := s.alloc .pagedir
      some ((s.setProc t fun r => { r with pagedir := some d }).setPc t (.loadFile fnCopy a))
    else some (s.setPc t (.failed (some a)))
  | .loadFile fnCopy a => some ((s.enterFs t).setPc t (.loadDone fnCopy a))
  | .loadDone fnCopy a =>
    -- filesys_open, the ELF reads, the segments and the stack, file_close; `ok` is what
    -- load returns
    some ((s.leaveFs t).setPc t (if ok then .selfFile fnCopy a else .failed (some a)))
  | .selfFile fnCopy a => some ((s.enterFs t).setPc t (.selfFileDone fnCopy a))
  | .selfFileDone fnCopy a =>
    -- t->self_file = filesys_open (file_name) and file_deny_write, which asserts the file
    -- is not null
    if ok then
      some (((s.leaveFs t).setProc t fun r => { r with selfFile := true }).setPc t
        (.handshake fnCopy a))
    else none
  | .handshake fnCopy a =>
    -- the arguments are pushed on the user stack, then sema_up (&t->self_wait)
    if (s.proc t).init then
      (s.sched.semaUp (.selfWait t)).map fun sc => (s.setSched sc).setPc t (.handshakeBlock fnCopy a)
    else none
  | .handshakeBlock fnCopy a => some (s.block.setPc t (.launch fnCopy a))
  | .launch fnCopy a =>
    some (((s.free ⟨.argvOff, a⟩).free ⟨.fnCopy, fnCopy⟩).setPc t .user)
  | .failed a =>
    -- a plain store, which lands in the zero page if thread_create has not got this far
    let s := match a with
      | some a => s.free ⟨.argvOff, a⟩
      | none => s
    some ((s.setProc t fun r => { r with returnStatus := -1 }).setPc t .failedUp)
  | .failedUp =>
    if (s.proc t).init then
      (s.sched.semaUp (.selfWait t)).map fun sc => (s.setSched sc).setPc t .failedBlock
    else none
  | .failedBlock => some (s.block.setPc t .threadExit)
  | _ => none

/-- Steps of `process_wait`, run by `t`. Every step after the lookup reads or writes the
child's page, and stops the machine if that page has been freed. -/
def runWait (s : Kernel) (t : Tid) : Pc → Option Kernel
  | .wait tid k =>
    match s.getThreadByTid tid with
    | none => s.fault t
    | some c =>
      if (s.proc c).returnStatus = -1 ∨ s.sched.status c = some .dying then
        some (s.setPc t (.waitEnd c (-1) k))
      else some (s.setPc t (.waitStatus c k))
  | .waitStatus c k =>
    if s.alive c then
      let rs := (s.proc c).returnStatus
      some (s.setPc t (if rs ≠ -1 ∧ rs ≠ 0 then .waitEnd c rs k else .waitSema c k))
    else none
  | .waitSema c k =>
    if s.alive c then some (s.down t (.selfWait c) (.waitRead c k)) else none
  | .waitRead c k =>
    if s.alive c then some (s.setPc t (.waitUnblock c (s.proc c).returnStatus k)) else none
  | .waitUnblock c v k =>
    if s.alive c then
      some (s.setPc t
        (if s.sched.status c = some .blocked then .waitUnblockDo c v k else .waitEnd c v k))
    else none
  | .waitUnblockDo c v k => (s.unblock c).map (·.setPc t (.waitUnblock c v k))
  | .waitEnd c v k =>
    if s.alive c then (s.setProc c fun r => { r with returnStatus := -1 }).waitReturn t v k
    else none
  | _ => none

/-- Steps of `lock_acquire`, the file-system calls, `sys_exit`, `thread_exit` and
`process_exit`, run by `t`. -/
def runExit (s : Kernel) (t : Tid) (ok : Bool) : Pc → Option Kernel
  | .lockAcquire k =>
    match s.sched.semaDown .fileLock with
    | (sc, true) => some ({ (s.setSched sc).setPc t k with holder := some t })
    | (sc, false) => some (s.setSched sc)
  | .fsEnter c => some ((s.enterFs t).setPc t (.fsLeave c))
  | .fsLeave c =>
    -- `ok`: the open made a descriptor, or the close found one of the caller's own
    let n := (s.proc t).allFiles
    let n := if c = .open ∧ ok then n + 1 else if c = .close ∧ ok then n - 1 else n
    let s := ((s.leaveFs t).setProc t fun r => { r with allFiles := n }).setPc t .user
    if c.locked then s.lockRelease else some s
  | .exit status =>
    if s.holder = some t then (s.lockRelease).map (·.setPc t (.exitClose status))
    else some (s.setPc t (.exitClose status))
  | .exitClose status =>
    if (s.proc t).allFiles = 0 then
      some ((s.setProc t fun r => { r with returnStatus := status }).setPc t .threadExit)
    else some ((s.enterFs t).setPc t (.exitCloseDone status))
  | .exitCloseDone status =>
    some (((s.leaveFs t).setProc t fun r => { r with allFiles := r.allFiles - 1 }).setPc t
      (.exitClose status))
  | .threadExit =>
    -- list_begin (&cur->children)
    match (s.proc t).headNext with
    | some (.elem c) => some (s.setPc t (.exitChild c))
    | some (.tail u) => if u = t then some (s.setPc t .processExit) else none
    | _ => none
  | .exitChild c =>
    if s.alive c then
      some (s.setPc t
        (if s.sched.status c = some .blocked ∧ (s.proc c).exitStatus then .exitUnblock c
         else .orphan c))
    else none
  | .exitUnblock c => (s.unblock c).map (·.setPc t (.exitNext c))
  | .orphan c =>
    if s.alive c then some ((s.setProc c fun r => { r with parent := none }).setPc t (.orphanRemove c))
    else none
  | .orphanRemove c => (s.removeChild c).map (·.setPc t (.exitNext c))
  | .exitNext c =>
    -- list_next (&c->child_elem) reads the pointer in `c`'s page, linked or not
    if s.alive c then
      match (s.proc c).elemNext with
      | some (.elem d) => some (s.setPc t (.exitChild d))
      | some (.tail u) => if u = t then some (s.setPc t .processExit) else none
      | _ => none
    else none
  | .processExit =>
    -- while (!list_empty (&cur->self_wait.waiters)) sema_up (&cur->self_wait)
    if (s.sched.sema (.selfWait t)).waiters = [] then some (s.setPc t .closeSelf)
    else (s.sched.semaUp (.selfWait t)).map s.setSched
  | .closeSelf =>
    -- file_close does nothing with a null file
    if (s.proc t).selfFile then some ((s.enterFs t).setPc t .closeSelfDone)
    else some (s.setPc t .exitFlag)
  | .closeSelfDone => some ((s.leaveFs t).setPc t .exitFlag)
  | .exitFlag =>
    some ((s.setProc t fun r => { r with selfFile := false, exitStatus := true }).setPc t
      .exitBlock)
  | .exitBlock =>
    -- a process with a parent waits here for the parent to unblock it
    if (s.proc t).parent.isSome then some (s.block.setPc t .destroy)
    else some (s.setPc t .destroy)
  | .destroy =>
    match (s.proc t).pagedir with
    | some d => some (((s.free ⟨.pagedir, d⟩).setProc t fun r => { r with pagedir := none }).setPc t .unlink)
    | none => some (s.setPc t .unlink)
  | .unlink =>
    match (s.proc t).parent with
    | some p => some (s.setPc t (if p ≠ initialTid then .unlinkRemove else .die))
    | none => some (s.setPc t .die)
  | .unlinkRemove => (s.removeChild t).map (·.setPc t .die)
  | .die => some (s.setSched s.sched.threadDie)
  | _ => none

/-- The running thread's step from where it is; each point belongs to one of the groups. -/
def run (s : Kernel) (ok : Bool) : Option Kernel :=
  let t := s.sched.running
  match s.pc t with
  | .idle => some s.block
  | p => ((s.runExecute t ok p).orElse fun _ => s.runStart t ok p).orElse fun _ =>
      (s.runWait t p).orElse fun _ => s.runExit t ok p

/-- The system-call entry for a process in user mode. -/
def trap (s : Kernel) (t : Tid) : UserCall → Kernel
  | .exec valid =>
    -- sys_exec returns -1 for a null or kernel pointer, else runs process_execute under
    -- file_lock
    if valid then s.setPc t (.lockAcquire (.execute .sysExec))
    else (s.setProc t fun r => { r with eax := -1 }).setPc t .user
  | .wait tid => s.setPc t (.wait tid .sysWait)
  | .exit status => s.setPc t (.exit status)
  | .file c => s.setPc t (if c.locked then .lockAcquire (.fsEnter c) else .fsEnter c)
  | .kill => s.setPc t .threadExit

def step (s : Kernel) : Event → Option Kernel
  | .run ok => s.run ok
  | .tick => some (s.setSched s.sched.threadYield)
  | .call c =>
    if s.pc s.sched.running = .user then some (s.trap s.sched.running c) else none

/-- After `thread_start`: the boot thread runs `run_task`, whose first call is
`process_execute`, and the idle thread has blocked. `file_lock` is free. -/
def boot : Kernel where
  sched := Threads.boot fun | .fileLock => 1 | .selfWait _ => 0
  pc t := if t = initialTid then .execute .runTask else .idle
  proc t :=
    if t = idleTid then
      { Proc.zero with init := true, headNext := some (.tail t), tailPrev := some (.head t),
                       parent := some initialTid }
    else .zero
  holder := none
  inFs := []
  live := []
  nextBlock := 0

end Kernel
end Pintos.Userprog
