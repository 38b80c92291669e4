import Pintos.Filesys.Inode
import Mathlib.Data.List.Count

/-! The open-inode table of filesys/inode.c and the wrappers of filesys/file.c over it:
`inode_open`, `inode_reopen`, `inode_close`, `inode_remove`, `inode_deny_write`,
`inode_allow_write`, `file_open`, `file_reopen`, `file_close`, `file_deny_write` and
`file_allow_write`, over a heap of `struct inode`s and `struct file`s. The openers that hold an
inode without a `struct file` are ghost state. `open_cnt` counts an inode's openers and
`deny_write_cnt` those of them that deny writes, and an inode's sectors go back to the free map
at the close of its last opener after `inode_remove`. -/
namespace Pintos.Filesys

open Pintos.Lib Pintos.Kit

/-- `struct file`, as far as these functions read it: the address of its inode and
`deny_write`. -/
structure OpenFile where
  inode : Nat
  denyWrite : Bool
  deriving DecidableEq

/-- `open_inodes`, the `struct inode`s and `struct file`s on the heap by address, the next address
the allocator hands out, the on-disk inode `block_read` finds in each sector, and the
`free_map_release` calls made, the latest first. -/
structure Table where
  openInodes : List Nat
  inodes : Nat → Option Inode
  files : Nat → Option OpenFile
  next : Nat
  disk : Nat → InodeDisk
  released : List (Nat × Nat)

namespace Table

def setInode (t : Table) (a : Nat) (v : Option Inode) : Table :=
  { t with inodes := Function.update t.inodes a v }

def setFile (t : Table) (f : Nat) (v : Option OpenFile) : Table :=
  { t with files := Function.update t.files f v }

@[simp] theorem setInode_inodes (t : Table) (a : Nat) (v : Option Inode) :
    (t.setInode a v).inodes = Function.update t.inodes a v := rfl
@[simp] theorem setInode_files (t : Table) (a : Nat) (v : Option Inode) :
    (t.setInode a v).files = t.files := rfl
@[simp] theorem setInode_next (t : Table) (a : Nat) (v : Option Inode) :
    (t.setInode a v).next = t.next := rfl
@[simp] theorem setInode_openInodes (t : Table) (a : Nat) (v : Option Inode) :
    (t.setInode a v).openInodes = t.openInodes := rfl
@[simp] theorem setInode_released (t : Table) (a : Nat) (v : Option Inode) :
    (t.setInode a v).released = t.released := rfl
@[simp] theorem setFile_inodes (t : Table) (f : Nat) (v : Option OpenFile) :
    (t.setFile f v).inodes = t.inodes := rfl
@[simp] theorem setFile_files (t : Table) (f : Nat) (v : Option OpenFile) :
    (t.setFile f v).files = Function.update t.files f v := rfl
@[simp] theorem setFile_next (t : Table) (f : Nat) (v : Option OpenFile) :
    (t.setFile f v).next = t.next := rfl
@[simp] theorem setFile_openInodes (t : Table) (f : Nat) (v : Option OpenFile) :
    (t.setFile f v).openInodes = t.openInodes := rfl
@[simp] theorem setFile_released (t : Table) (f : Nat) (v : Option OpenFile) :
    (t.setFile f v).released = t.released := rfl

/-- `inode_reopen` on a non-null inode. -/
def inodeReopen (t : Table) (a : Nat) : Table :=
  match t.inodes a with
  | some i => t.setInode a (some { i with openCnt := i.openCnt + 1 })
  | none => t

/-- `inode_open`: the inode open on the sector, reopened, or else a new one read from the disk
and pushed on the front of `open_inodes` when `malloc` succeeds; `none` is a null pointer. -/
def inodeOpen (t : Table) (sector : Nat) (mallocOk : Bool) : Table × Option Nat :=
  match t.openInodes.find? fun a => (t.inodes a).any (·.sector == sector) with
  | some a => (t.inodeReopen a, some a)
  | none =>
    if mallocOk then
      ({ t.setInode t.next (some ⟨sector, 1, false, 0, t.disk sector⟩) with
          openInodes := t.next :: t.openInodes, next := t.next + 1 }, some t.next)
    else (t, none)

/-- `inode_close` on a non-null inode. -/
def inodeClose (t : Table) (a : Nat) : Table :=
  match t.inodes a with
  | some i =>
    if i.openCnt - 1 = 0 then
      { t.setInode a none with
        openInodes := t.openInodes.erase a
        released :=
          if i.removed then (i.data.start, bytesToSectors i.data.length) :: (i.sector, 1) :: t.released
          else t.released }
    else t.setInode a (some { i with openCnt := i.openCnt - 1 })
  | none => t

/-- `inode_remove`. -/
def inodeRemove (t : Table) (a : Nat) : Table :=
  match t.inodes a with
  | some i => t.setInode a (some { i with removed := true })
  | none => t

/-- `inode_deny_write`; `none` when its `ASSERT` fails. -/
def inodeDenyWrite (t : Table) (a : Nat) : Option Table :=
  match t.inodes a with
  | some i =>
    if i.denyWriteCnt + 1 ≤ i.openCnt then
      some (t.setInode a (some { i with denyWriteCnt := i.denyWriteCnt + 1 }))
    else none
  | none => none

/-- `inode_allow_write`; `none` when one of its `ASSERT`s fails. -/
def inodeAllowWrite (t : Table) (a : Nat) : Option Table :=
  match t.inodes a with
  | some i =>
    if 0 < i.denyWriteCnt ∧ i.denyWriteCnt ≤ i.openCnt then
      some (t.setInode a (some { i with denyWriteCnt := i.denyWriteCnt - 1 }))
    else none
  | none => none

/-- `file_open` on what `inode_open` or `inode_reopen` returned, with whether `calloc` succeeds. -/
def fileOpen (t : Table) (inode : Option Nat) (callocOk : Bool) : Table × Option Nat :=
  match inode with
  | some a =>
    if callocOk then ({ t.setFile t.next (some ⟨a, false⟩) with next := t.next + 1 }, some t.next)
    else (t.inodeClose a, none)
  | none => (t, none)

/-- `file_reopen`. -/
def fileReopen (t : Table) (f : Nat) (callocOk : Bool) : Table × Option Nat :=
  match t.files f with
  | some file => (t.inodeReopen file.inode).fileOpen (some file.inode) callocOk
  | none => (t, none)

/-- `file_deny_write`. -/
def fileDenyWrite (t : Table) (f : Nat) : Option Table :=
  match t.files f with
  | some file =>
    if file.denyWrite then some t
    else (t.setFile f (some ⟨file.inode, true⟩)).inodeDenyWrite file.inode
  | none => none

/-- `file_allow_write`. -/
def fileAllowWrite (t : Table) (f : Nat) : Option Table :=
  match t.files f with
  | some file =>
    if file.denyWrite then (t.setFile f (some ⟨file.inode, false⟩)).inodeAllowWrite file.inode
    else some t
  | none => none

/-- `file_close`: `file_allow_write`, `inode_close` and `free`. -/
def fileClose (t : Table) (f : Nat) : Option Table :=
  match t.files f with
  | some file => (t.fileAllowWrite f).map fun t => (t.inodeClose file.inode).setFile f none
  | none => none

theorem inodeClose_setFile (t : Table) (a f : Nat) (v : Option OpenFile) :
    (t.inodeClose a).setFile f v = (t.setFile f v).inodeClose a := by
  unfold inodeClose
  rw [setFile_inodes]
  cases t.inodes a with
  | none => rfl
  | some i =>
    dsimp only
    split_ifs <;> rfl

section Ledger

variable {t t' : Table} {a f : Nat} {i : Inode}

@[simp] theorem inodeReopen_released : (t.inodeReopen a).released = t.released := by
  unfold inodeReopen
  split <;> rfl

@[simp] theorem inodeRemove_released : (t.inodeRemove a).released = t.released := by
  unfold inodeRemove
  split <;> rfl

@[simp] theorem inodeOpen_released (sector : Nat) (mallocOk : Bool) :
    (t.inodeOpen sector mallocOk).1.released = t.released := by
  unfold inodeOpen
  split
  · exact inodeReopen_released
  · split <;> rfl

theorem inodeReopen_self (hi : t.inodes a = some i) :
    (t.inodeReopen a).inodes a = some { i with openCnt := i.openCnt + 1 } := by
  simp [inodeReopen, hi]

theorem inodeRemove_self (hi : t.inodes a = some i) :
    (t.inodeRemove a).inodes a = some { i with removed := true } := by
  simp [inodeRemove, hi]

theorem inodeClose_other (hi : t.inodes a = some i) (hl : i.openCnt - 1 ≠ 0) :
    (t.inodeClose a).inodes a = some { i with openCnt := i.openCnt - 1 } := by
  simp [inodeClose, hi, hl]

theorem inodeDenyWrite_eq (h : t.inodeDenyWrite a = some t') (hi : t.inodes a = some i) :
    t' = t.setInode a (some { i with denyWriteCnt := i.denyWriteCnt + 1 }) := by
  simp only [inodeDenyWrite, hi] at h
  split at h
  · exact (Option.some.inj h).symm
  · cases h

theorem inodeAllowWrite_eq (h : t.inodeAllowWrite a = some t') (hi : t.inodes a = some i) :
    t' = t.setInode a (some { i with denyWriteCnt := i.denyWriteCnt - 1 }) := by
  simp only [inodeAllowWrite, hi] at h
  split at h
  · exact (Option.some.inj h).symm
  · cases h

theorem inodeOpen_sector {sector : Nat} {mallocOk : Bool}
    (ho : (t.inodeOpen sector mallocOk).2 = some a) :
    ∃ i, (t.inodeOpen sector mallocOk).1.inodes a = some i ∧ i.sector = sector := by
  cases hfind : t.openInodes.find? (fun b => (t.inodes b).any (·.sector == sector)) with
  | some b =>
    simp only [inodeOpen, hfind, Option.some.injEq] at ho ⊢
    subst ho
    have hb := List.find?_some hfind
    obtain ⟨i, hi⟩ := Option.isSome_iff_exists.mp (Option.isSome_of_any hb)
    simp only [hi, Option.any_some, beq_iff_eq] at hb
    exact ⟨_, inodeReopen_self hi, hb⟩
  | none =>
    cases mallocOk with
    | true =>
      simp only [inodeOpen, hfind, if_true, Option.some.injEq] at ho ⊢
      subst ho
      exact ⟨⟨sector, 1, false, 0, t.disk sector⟩, by simp, rfl⟩
    | false => simp [inodeOpen, hfind] at ho

theorem inodeOpen_isSome (sector : Nat) : (t.inodeOpen sector true).2.isSome := by
  unfold inodeOpen
  split <;> rfl

/-- `file_deny_write` and `file_allow_write` touch no count but `deny_write_cnt`: the free map
is as it was, and every inode keeps its open count, removal mark, sector and blocks. -/
theorem fileDenyWrite_frame (h : t.fileDenyWrite f = some t') :
    t'.released = t.released ∧ ∀ b i, t.inodes b = some i →
      ∃ d, t'.inodes b = some { i with denyWriteCnt := d } := by
  unfold fileDenyWrite at h
  split at h
  · rename_i file hf
    split at h
    · cases h
      exact ⟨rfl, fun b i hi => ⟨i.denyWriteCnt, hi⟩⟩
    · cases hi : t.inodes file.inode with
      | none => simp [inodeDenyWrite, hi] at h
      | some j =>
        rw [inodeDenyWrite_eq h (by simpa using hi)]
        refine ⟨rfl, fun b i hb => ?_⟩
        by_cases hba : b = file.inode
        · subst hba
          rw [hi] at hb
          cases hb
          exact ⟨j.denyWriteCnt + 1, by simp⟩
        · exact ⟨i.denyWriteCnt, by simp [Function.update_of_ne hba, hb]⟩
  · cases h

theorem fileAllowWrite_frame (h : t.fileAllowWrite f = some t') :
    t'.released = t.released ∧ ∀ b i, t.inodes b = some i →
      ∃ d, t'.inodes b = some { i with denyWriteCnt := d } := by
  unfold fileAllowWrite at h
  split at h
  · rename_i file hf
    split at h
    · cases hi : t.inodes file.inode with
      | none => simp [inodeAllowWrite, hi] at h
      | some j =>
        rw [inodeAllowWrite_eq h (by simpa using hi)]
        refine ⟨rfl, fun b i hb => ?_⟩
        by_cases hba : b = file.inode
        · subst hba
          rw [hi] at hb
          cases hb
          exact ⟨j.denyWriteCnt - 1, by simp⟩
        · exact ⟨i.denyWriteCnt, by simp [Function.update_of_ne hba, hb]⟩
    · cases h
      exact ⟨rfl, fun b i hi => ⟨i.denyWriteCnt, hi⟩⟩
  · cases h

/-- What `inode_close` hands to the free map: the header and data sectors when it drops the last
opener of a removed inode, else nothing. -/
theorem inodeClose_released (hi : t.inodes a = some i) :
    (t.inodeClose a).released =
      if i.openCnt - 1 = 0 ∧ i.removed = true then
        (i.data.start, bytesToSectors i.data.length) :: (i.sector, 1) :: t.released
      else t.released := by
  by_cases hl : i.openCnt - 1 = 0 <;> by_cases hr : i.removed = true <;>
    simp [inodeClose, hi, hl, hr]

theorem inodeClose_self (hi : t.inodes a = some i) (hl : i.openCnt - 1 = 0) :
    (t.inodeClose a).inodes a = none := by
  simp [inodeClose, hi, hl]

/-- A `file_open` whose `calloc` fails closes an inode that another opener still holds or that
is not removed: it frees no sector. -/
theorem fileOpen_released (hi : t.inodes a = some i) (hkeep : 1 < i.openCnt ∨ i.removed = false)
    (callocOk : Bool) : (t.fileOpen (some a) callocOk).1.released = t.released := by
  cases callocOk with
  | true => rfl
  | false =>
    show (t.inodeClose a).released = t.released
    rw [inodeClose_released hi, if_neg]
    rintro ⟨hl, hr⟩
    rcases hkeep with hk | hk
    · omega
    · simp [hk] at hr

end Ledger

section Reuse

variable {t t' : Table} {a f : Nat} {i : Inode}

/-- `t'` comes from `t` without reusing an address: `next` only grows, and an inode below it
that is freed stays freed. -/
def KeepsFreed (t t' : Table) : Prop :=
  t.next ≤ t'.next ∧ ∀ b, b < t.next → t.inodes b = none → t'.inodes b = none

theorem KeepsFreed.refl (t : Table) : KeepsFreed t t := ⟨le_rfl, fun _ _ h => h⟩

theorem KeepsFreed.trans {t₁ t₂ t₃ : Table} (h₁ : KeepsFreed t₁ t₂) (h₂ : KeepsFreed t₂ t₃) :
    KeepsFreed t₁ t₃ :=
  ⟨h₁.1.trans h₂.1, fun b hb hn => h₂.2 b (lt_of_lt_of_le hb h₁.1) (h₁.2 b hb hn)⟩

theorem keepsFreed_setInode (hi : t.inodes a = some i) (v : Option Inode) :
    KeepsFreed t (t.setInode a v) := by
  refine ⟨le_rfl, fun b _ hb => ?_⟩
  have hba : b ≠ a := by
    rintro rfl
    simp [hi] at hb
  simp [Function.update_of_ne hba, hb]

theorem keepsFreed_setFile (f : Nat) (v : Option OpenFile) : KeepsFreed t (t.setFile f v) :=
  KeepsFreed.refl t

theorem keepsFreed_inodeReopen : KeepsFreed t (t.inodeReopen a) := by
  unfold inodeReopen
  split
  · rename_i i hi
    exact keepsFreed_setInode hi _
  · exact KeepsFreed.refl t

theorem keepsFreed_inodeRemove : KeepsFreed t (t.inodeRemove a) := by
  unfold inodeRemove
  split
  · rename_i i hi
    exact keepsFreed_setInode hi _
  · exact KeepsFreed.refl t

theorem keepsFreed_inodeClose : KeepsFreed t (t.inodeClose a) := by
  unfold inodeClose
  split
  · rename_i i hi
    split
    · exact keepsFreed_setInode hi none
    · exact keepsFreed_setInode hi _
  · exact KeepsFreed.refl t

theorem keepsFreed_inodeDenyWrite (h : t.inodeDenyWrite a = some t') : KeepsFreed t t' := by
  cases hi : t.inodes a with
  | none => simp [inodeDenyWrite, hi] at h
  | some i =>
    rw [inodeDenyWrite_eq h hi]
    exact keepsFreed_setInode hi _

theorem keepsFreed_inodeAllowWrite (h : t.inodeAllowWrite a = some t') : KeepsFreed t t' := by
  cases hi : t.inodes a with
  | none => simp [inodeAllowWrite, hi] at h
  | some i =>
    rw [inodeAllowWrite_eq h hi]
    exact keepsFreed_setInode hi _

/-- A new inode goes to `next`, above every address freed so far. -/
theorem keepsFreed_inodeOpen (sector : Nat) (mallocOk : Bool) :
    KeepsFreed t (t.inodeOpen sector mallocOk).1 := by
  unfold inodeOpen
  split
  · exact keepsFreed_inodeReopen
  · split
    · refine ⟨Nat.le_succ _, fun b hb hn => ?_⟩
      simp [Function.update_of_ne (Nat.ne_of_lt hb), hn]
    · exact KeepsFreed.refl t

theorem keepsFreed_fileOpen (inode : Option Nat) (callocOk : Bool) :
    KeepsFreed t (t.fileOpen inode callocOk).1 := by
  unfold fileOpen
  split
  · split
    · exact ⟨Nat.le_succ _, fun _ _ h => h⟩
    · exact keepsFreed_inodeClose
  · exact KeepsFreed.refl t

theorem keepsFreed_fileReopen (callocOk : Bool) : KeepsFreed t (t.fileReopen f callocOk).1 := by
  unfold fileReopen
  split
  · exact keepsFreed_inodeReopen.trans (keepsFreed_fileOpen _ callocOk)
  · exact KeepsFreed.refl t

theorem keepsFreed_fileDenyWrite (h : t.fileDenyWrite f = some t') : KeepsFreed t t' := by
  unfold fileDenyWrite at h
  split at h
  · split at h
    · cases h
      exact KeepsFreed.refl t
    · exact (keepsFreed_setFile f _).trans (keepsFreed_inodeDenyWrite h)
  · cases h

theorem keepsFreed_fileAllowWrite (h : t.fileAllowWrite f = some t') : KeepsFreed t t' := by
  unfold fileAllowWrite at h
  split at h
  · split at h
    · exact (keepsFreed_setFile f _).trans (keepsFreed_inodeAllowWrite h)
    · cases h
      exact KeepsFreed.refl t
  · cases h

theorem keepsFreed_fileClose (h : t.fileClose f = some t') : KeepsFreed t t' := by
  unfold fileClose at h
  split at h
  · obtain ⟨t2, h2, rfl⟩ := Option.map_eq_some_iff.mp h
    exact (keepsFreed_fileAllowWrite h2).trans (keepsFreed_inodeClose.trans (keepsFreed_setFile f _))
  · cases h

end Reuse

end Table

/-- The table with the openers that hold an inode without a `struct file`, each with whether it
has called `inode_deny_write`: what the callers of inode.c hold, which the code keeps nowhere. -/
structure World where
  table : Table
  raws : List (Nat × Bool)

/-- After `inode_init`, over a device whose sectors hold the on-disk inodes `disk`. -/
def World.init (disk : Nat → InodeDisk) : World :=
  ⟨⟨[], fun _ => none, fun _ => none, 0, disk, []⟩, []⟩

/-- A call of inode.c or file.c; `inode_*` calls name the inode's address, `file_*` calls the
file's, and each allocation says whether it succeeds. -/
inductive Call where
  | inodeOpen (sector : Nat) (mallocOk : Bool)
  | inodeReopen (a : Nat)
  | inodeClose (a : Nat)
  | inodeRemove (a : Nat)
  | inodeDenyWrite (a : Nat)
  | inodeAllowWrite (a : Nat)
  | fileOpen (sector : Nat) (mallocOk callocOk : Bool)
  | fileReopen (f : Nat) (callocOk : Bool)
  | fileClose (f : Nat)
  | fileDenyWrite (f : Nat)
  | fileAllowWrite (f : Nat)

namespace World

/-- The `struct file`s on the inode at `a`. -/
def fileOpens (t : Table) (a : Nat) : Nat :=
  Memory.count t.files t.next fun o => o.any (·.inode == a)

/-- The `struct file`s on the inode at `a` that deny writes. -/
def fileDenials (t : Table) (a : Nat) : Nat :=
  Memory.count t.files t.next fun o => o.any fun file => file.inode == a && file.denyWrite

/-- The openers of the inode at `a`. -/
def opens (w : World) (a : Nat) : Nat := w.raws.countP (·.1 == a) + fileOpens w.table a

/-- The openers of the inode at `a` that have denied writes to it. -/
def denials (w : World) (a : Nat) : Nat :=
  w.raws.countP (fun r => r.1 == a && r.2) + fileDenials w.table a

/-- What the callers of inode.c and file.c promise: they pass only what they hold, deny writes
at most once per opener, and allow them again before they close. -/
def Allowed (w : World) : Call → Prop
  | .inodeOpen .. | .fileOpen .. => True
  | .inodeReopen a | .inodeRemove a => 0 < w.opens a
  | .inodeClose a | .inodeDenyWrite a => (a, false) ∈ w.raws
  | .inodeAllowWrite a => (a, true) ∈ w.raws
  | .fileReopen f _ | .fileClose f | .fileDenyWrite f | .fileAllowWrite f => (w.table.files f).isSome

instance (w : World) : (c : Call) → Decidable (w.Allowed c)
  | .inodeOpen .. | .fileOpen .. => isTrue trivial
  | .inodeReopen a | .inodeRemove a => inferInstanceAs (Decidable (0 < w.opens a))
  | .inodeClose a | .inodeDenyWrite a => inferInstanceAs (Decidable ((a, false) ∈ w.raws))
  | .inodeAllowWrite a => inferInstanceAs (Decidable ((a, true) ∈ w.raws))
  | .fileReopen f _ | .fileClose f | .fileDenyWrite f | .fileAllowWrite f =>
    inferInstanceAs (Decidable ((w.table.files f).isSome = true))

/-- A call its caller may make, run on the table; the ghost openers follow it. `none` is a call
that is not allowed or a failed `ASSERT`. -/
def step (w : World) (c : Call) : Option World :=
  if w.Allowed c then
    match c with
    | .inodeOpen sector mallocOk =>
      some ⟨(w.table.inodeOpen sector mallocOk).1,
        match (w.table.inodeOpen sector mallocOk).2 with
        | some a => (a, false) :: w.raws
        | none => w.raws⟩
    | .inodeReopen a => some ⟨w.table.inodeReopen a, (a, false) :: w.raws⟩
    | .inodeClose a => some ⟨w.table.inodeClose a, w.raws.erase (a, false)⟩
    | .inodeRemove a => some ⟨w.table.inodeRemove a, w.raws⟩
    | .inodeDenyWrite a =>
      (w.table.inodeDenyWrite a).map fun t => ⟨t, (a, true) :: w.raws.erase (a, false)⟩
    | .inodeAllowWrite a =>
      (w.table.inodeAllowWrite a).map fun t => ⟨t, (a, false) :: w.raws.erase (a, true)⟩
    | .fileOpen sector mallocOk callocOk =>
      some ⟨((w.table.inodeOpen sector mallocOk).1.fileOpen
        (w.table.inodeOpen sector mallocOk).2 callocOk).1, w.raws⟩
    | .fileReopen f callocOk => some ⟨(w.table.fileReopen f callocOk).1, w.raws⟩
    | .fileClose f => (w.table.fileClose f).map fun t => ⟨t, w.raws⟩
    | .fileDenyWrite f => (w.table.fileDenyWrite f).map fun t => ⟨t, w.raws⟩
    | .fileAllowWrite f => (w.table.fileAllowWrite f).map fun t => ⟨t, w.raws⟩
  else none

/-- Whether the call closes an opener of the inode at `a`: a raw one, or a `struct file` on it. -/
def closes (w : World) (a : Nat) : Call → Bool
  | .inodeClose b => b == a
  | .fileClose f => (w.table.files f).any (·.inode == a)
  | _ => false

/-- The table's invariant: addresses past `next` are free, `open_inodes` lists each allocated
inode once and no two on one sector, every opener holds an allocated inode, and each inode's
`open_cnt` and `deny_write_cnt` count its openers and those that deny writes. -/
structure Inv (w : World) : Prop where
  fresh : ∀ a, w.table.next ≤ a → w.table.inodes a = none ∧ w.table.files a = none
  listed : ∀ a, a ∈ w.table.openInodes ↔ (w.table.inodes a).isSome
  nodup : w.table.openInodes.Nodup
  sector : ∀ a b i j, w.table.inodes a = some i → w.table.inodes b = some j →
    i.sector = j.sector → a = b
  rawHeld : ∀ r ∈ w.raws, (w.table.inodes r.1).isSome
  fileHeld : ∀ f file, w.table.files f = some file → (w.table.inodes file.inode).isSome
  counts : ∀ a i, w.table.inodes a = some i →
    i.openCnt = w.opens a ∧ 0 < i.openCnt ∧ i.denyWriteCnt = w.denials a


section Counts

variable {w : World} {a b : Nat}

theorem countP_erase_add {l : List (Nat × Bool)} {x : Nat × Bool} (hx : x ∈ l)
    (p : Nat × Bool → Bool) : (l.erase x).countP p + (if p x then 1 else 0) = l.countP p := by
  rw [List.countP_erase]
  by_cases hp : p x = true
  · have hpos : 0 < l.countP p := List.countP_pos_iff.mpr ⟨x, hx, hp⟩
    simp only [hx, hp, and_self, if_true]
    omega
  · simp [hp]

theorem countP_swap {l : List (Nat × Bool)} {x : Nat × Bool} (hx : x ∈ l) (y : Nat × Bool)
    (p : Nat × Bool → Bool) :
    (y :: l.erase x).countP p + (if p x then 1 else 0) = l.countP p + (if p y then 1 else 0) := by
  rw [List.countP_cons, ← countP_erase_add hx p]
  omega

theorem countP_swap_eq {l : List (Nat × Bool)} {x y : Nat × Bool} (hx : x ∈ l)
    {p : Nat × Bool → Bool} (hp : p x = p y) : (y :: l.erase x).countP p = l.countP p := by
  have := countP_swap hx y p
  rw [hp] at this
  omega

theorem countP_fst_swap {l : List (Nat × Bool)} {a : Nat} {d : Bool} (hx : (a, d) ∈ l) (d' : Bool)
    (b : Nat) : ((a, d') :: l.erase (a, d)).countP (·.1 == b) = l.countP (·.1 == b) :=
  countP_swap_eq hx rfl

theorem fileDenials_le (t : Table) (a : Nat) : fileDenials t a ≤ fileOpens t a :=
  Memory.count_le fun o h => by
    cases o with
    | none => simp at h
    | some file => simp_all

theorem denials_le_opens (w : World) (a : Nat) : w.denials a ≤ w.opens a := by
  have hr : w.raws.countP (fun r => r.1 == a && r.2) ≤ w.raws.countP (·.1 == a) :=
    List.countP_mono_left fun r _ h => by simp_all
  have hf := fileDenials_le w.table a
  simp only [denials, opens]
  omega

@[simp] theorem fileOpens_setInode (t : Table) (c : Nat) (v : Option Inode) :
    fileOpens (t.setInode c v) a = fileOpens t a := rfl

@[simp] theorem fileDenials_setInode (t : Table) (c : Nat) (v : Option Inode) :
    fileDenials (t.setInode c v) a = fileDenials t a := rfl

theorem fileOpens_setFile {t : Table} {f : Nat} (hf : f < t.next) (v : Option OpenFile) :
    fileOpens (t.setFile f v) a + (if (t.files f).any (·.inode == a) then 1 else 0) =
      fileOpens t a + (if v.any (·.inode == a) then 1 else 0) :=
  Memory.count_update t.files hf v _

theorem fileDenials_setFile {t : Table} {f : Nat} (hf : f < t.next) (v : Option OpenFile) :
    fileDenials (t.setFile f v) a +
        (if (t.files f).any (fun file => file.inode == a && file.denyWrite) then 1 else 0) =
      fileDenials t a + (if v.any (fun file => file.inode == a && file.denyWrite) then 1 else 0) :=
  Memory.count_update t.files hf v _

theorem count_alloc (t : Table) (v : OpenFile) (p : Option OpenFile → Bool) :
    Memory.count (Function.update t.files t.next (some v)) (t.next + 1) p =
      Memory.count t.files t.next p + if p (some v) then 1 else 0 := by
  rw [Memory.count_succ, Function.update_self]
  congr 1
  exact Memory.count_congr fun i hi => by rw [Function.update_of_ne (by omega)]

theorem fileOpens_alloc (t : Table) (v : OpenFile) :
    fileOpens { t.setFile t.next (some v) with next := t.next + 1 } a =
      fileOpens t a + if v.inode == a then 1 else 0 := by
  simp only [fileOpens, Table.setFile_files]
  rw [count_alloc]
  rfl

theorem fileDenials_alloc (t : Table) (v : OpenFile) :
    fileDenials { t.setFile t.next (some v) with next := t.next + 1 } a =
      fileDenials t a + if v.inode == a && v.denyWrite then 1 else 0 := by
  simp only [fileDenials, Table.setFile_files]
  rw [count_alloc]
  rfl

theorem fileOpens_congr {t t' : Table} (hf : t'.files = t.files) (hn : t'.next = t.next) :
    fileOpens t' a = fileOpens t a := by
  simp only [fileOpens, hf, hn]

theorem fileDenials_congr {t t' : Table} (hf : t'.files = t.files) (hn : t'.next = t.next) :
    fileDenials t' a = fileDenials t a := by
  simp only [fileDenials, hf, hn]

theorem not_on_of_fileOpens_eq_zero {t : Table} (h : fileOpens t a = 0) {f : Nat} {file : OpenFile}
    (hf : f < t.next) (hfile : t.files f = some file) : file.inode ≠ a := by
  intro he
  have hpos : 0 < fileOpens t a := by
    simp only [fileOpens, Memory.count]
    exact List.countP_pos_iff.mpr ⟨f, List.mem_range.mpr hf, by simp [hfile, he]⟩
  omega

/-- Setting the deny flag of a file on `a` from `d` to `d'`: the files stay on their inodes, no
count of openers moves, and only the denials of `a` do. -/
theorem flip_counts {f : Nat} {d : Bool} (hlt : f < w.table.next)
    (hf : w.table.files f = some ⟨a, d⟩) (d' : Bool) :
    (∀ g, ((w.table.setFile f (some ⟨a, d'⟩)).files g).map (·.inode) =
      (w.table.files g).map (·.inode)) ∧
    (∀ b, World.opens ⟨w.table.setFile f (some ⟨a, d'⟩), w.raws⟩ b = w.opens b) ∧
    World.denials ⟨w.table.setFile f (some ⟨a, d'⟩), w.raws⟩ a + (if d then 1 else 0) =
      w.denials a + (if d' then 1 else 0) ∧
    ∀ b, b ≠ a → World.denials ⟨w.table.setFile f (some ⟨a, d'⟩), w.raws⟩ b = w.denials b := by
  refine ⟨fun g => ?_, fun b => ?_, ?_, fun b hb => ?_⟩
  · by_cases hg : g = f
    · simp [hg, hf]
    · simp [Function.update_of_ne hg]
  · have := fileOpens_setFile (a := b) hlt (some ⟨a, d'⟩)
    simp only [hf, Option.any_some] at this
    simp only [opens]
    omega
  · have := fileDenials_setFile (a := a) hlt (some ⟨a, d'⟩)
    simp only [hf, Option.any_some, beq_self_eq_true, Bool.true_and] at this
    simp only [denials]
    omega
  · have := fileDenials_setFile (a := b) hlt (some ⟨a, d'⟩)
    have hab : (a == b) = false := by simp [Ne.symm hb]
    simp only [hf, Option.any_some, hab, Bool.false_and, Bool.false_eq_true, if_false,
      Nat.add_zero] at this
    simp only [denials]
    omega

end Counts

section Preserve

variable {w w' : World} {a : Nat} {i i' : Inode}

theorem isSome_update {α : Type} {g : Nat → Option α} {x : α} (hg : (g a).isSome) (b : Nat) :
    (Function.update g a (some x) b).isSome = (g b).isSome := by
  by_cases hb : b = a
  · subst hb
    simp [hg]
  · rw [Function.update_of_ne hb]

theorem Inv.lt_next (h : w.Inv) (hi : (w.table.inodes a).isSome) : a < w.table.next := by
  by_contra hn
  simp [(h.fresh a (by omega)).1] at hi

theorem Inv.lt_of_file (h : w.Inv) {f : Nat} {file : OpenFile} (hf : w.table.files f = some file) :
    f < w.table.next := by
  by_contra hn
  simp [(h.fresh f (by omega)).2] at hf

theorem Inv.isSome_of_opens (h : w.Inv) (ho : 0 < w.opens a) : (w.table.inodes a).isSome := by
  simp only [opens] at ho
  by_cases hr : 0 < w.raws.countP (·.1 == a)
  · obtain ⟨r, hr, hra⟩ := List.countP_pos_iff.mp hr
    rw [beq_iff_eq] at hra
    rw [← hra]
    exact h.rawHeld r hr
  · have hf : 0 < fileOpens w.table a := by omega
    simp only [fileOpens, Memory.count] at hf
    obtain ⟨f, -, hfa⟩ := List.countP_pos_iff.mp hf
    cases hfile : w.table.files f with
    | none => simp [hfile] at hfa
    | some file =>
      simp only [hfile, Option.any_some, beq_iff_eq] at hfa
      rw [← hfa]
      exact h.fileHeld f file hfile

/-- A call that changes one allocated inode in place, keeps its sector and the allocation of
every file, and moves the counts as the new inode says keeps the invariant. -/
theorem Inv.modify (h : w.Inv) (hi : w.table.inodes a = some i) (i' : Inode)
    (hinodes : w'.table.inodes = Function.update w.table.inodes a (some i'))
    (hsector : i'.sector = i.sector) (hlist : w'.table.openInodes = w.table.openInodes)
    (hnext : w'.table.next = w.table.next)
    (hfiles : ∀ f, (w'.table.files f).map (·.inode) = (w.table.files f).map (·.inode))
    (hraws : ∀ r ∈ w'.raws, (w.table.inodes r.1).isSome)
    (hcnt : i'.openCnt = w'.opens a ∧ 0 < i'.openCnt ∧ i'.denyWriteCnt = w'.denials a)
    (hother : ∀ b, b ≠ a → w'.opens b = w.opens b ∧ w'.denials b = w.denials b) : w'.Inv := by
  have hsome : (w.table.inodes a).isSome := by simp [hi]
  have hupd := isSome_update (x := i') hsome
  refine ⟨fun b hb => ⟨?_, ?_⟩, fun b => ?_, ?_, fun b c j k hj hk hs => ?_, fun r hr => ?_,
    fun f file hf => ?_, fun b j hj => ?_⟩
  · have hba : b ≠ a := fun e => by simp [(h.fresh a (by omega)).1] at hi
    rw [hinodes, Function.update_of_ne hba]
    exact (h.fresh b (by omega)).1
  · have := hfiles b
    rw [(h.fresh b (by omega)).2, Option.map_none, Option.map_eq_none_iff] at this
    exact this
  · rw [hlist, hinodes, hupd]
    exact h.listed b
  · rw [hlist]
    exact h.nodup
  · rw [hinodes] at hj hk
    by_cases hb : b = a <;> by_cases hc : c = a
    · rw [hb, hc]
    · rw [hb, Function.update_self] at hj
      rw [Function.update_of_ne hc] at hk
      cases hj
      rw [hb]
      exact h.sector a c i k hi hk (by rw [← hsector]; exact hs)
    · rw [hc, Function.update_self] at hk
      rw [Function.update_of_ne hb] at hj
      cases hk
      rw [hc]
      exact h.sector b a j i hj hi (hs.trans hsector)
    · rw [Function.update_of_ne hb] at hj
      rw [Function.update_of_ne hc] at hk
      exact h.sector b c j k hj hk hs
  · rw [hinodes, hupd]
    exact hraws r hr
  · have := hfiles f
    rw [hf, Option.map_some] at this
    obtain ⟨file0, hf0, he⟩ := Option.map_eq_some_iff.mp this.symm
    rw [hinodes, hupd, ← he]
    exact h.fileHeld f file0 hf0
  · rw [hinodes] at hj
    by_cases hb : b = a
    · subst hb
      rw [Function.update_self] at hj
      cases hj
      exact hcnt
    · rw [Function.update_of_ne hb] at hj
      obtain ⟨ho, hd⟩ := hother b hb
      rw [ho, hd]
      exact h.counts b j hj

/-- A call that frees one inode that no opener holds any more, keeps every file and leaves the
counts of every other inode as they were keeps the invariant. -/
theorem Inv.drop (h : w.Inv) (hinodes : w'.table.inodes = Function.update w.table.inodes a none)
    (hlist : w'.table.openInodes = w.table.openInodes.erase a)
    (hnext : w'.table.next = w.table.next) (hfiles : w'.table.files = w.table.files)
    (hraws : ∀ r ∈ w'.raws, r.1 ≠ a ∧ r ∈ w.raws) (hfree : fileOpens w.table a = 0)
    (hother : ∀ b, b ≠ a → w'.opens b = w.opens b ∧ w'.denials b = w.denials b) : w'.Inv := by
  refine ⟨fun b hb => ⟨?_, ?_⟩, fun b => ?_, ?_, fun b c j k hj hk hs => ?_, fun r hr => ?_,
    fun g file hg => ?_, fun b j hj => ?_⟩
  · rw [hinodes]
    by_cases hba : b = a
    · rw [hba, Function.update_self]
    · rw [Function.update_of_ne hba]
      exact (h.fresh b (by omega)).1
  · rw [hfiles]
    exact (h.fresh b (by omega)).2
  · rw [hlist, h.nodup.mem_erase_iff, hinodes]
    by_cases hba : b = a
    · simp [hba]
    · rw [Function.update_of_ne hba, ← h.listed b]
      simp [hba]
  · rw [hlist]
    exact h.nodup.erase a
  · rw [hinodes] at hj hk
    by_cases hba : b = a
    · simp [hba] at hj
    · by_cases hca : c = a
      · simp [hca] at hk
      · rw [Function.update_of_ne hba] at hj
        rw [Function.update_of_ne hca] at hk
        exact h.sector b c j k hj hk hs
  · rw [hinodes, Function.update_of_ne (hraws r hr).1]
    exact h.rawHeld r (hraws r hr).2
  · rw [hfiles] at hg
    have hlt : g < w.table.next := by
      by_contra hn
      simp [(h.fresh g (by omega)).2] at hg
    rw [hinodes, Function.update_of_ne (not_on_of_fileOpens_eq_zero hfree hlt hg)]
    exact h.fileHeld g file hg
  · rw [hinodes] at hj
    by_cases hba : b = a
    · simp [hba] at hj
    · rw [Function.update_of_ne hba] at hj
      rw [(hother b hba).1, (hother b hba).2]
      exact h.counts b j hj

/-- A call that changes only the files, allocating from `next` on, keeps the invariant when it
keeps every inode's counts. -/
theorem Inv.files (h : w.Inv) (hinodes : w'.table.inodes = w.table.inodes)
    (hlist : w'.table.openInodes = w.table.openInodes) (hnext : w.table.next ≤ w'.table.next)
    (hfresh : ∀ f, w'.table.next ≤ f → w'.table.files f = none)
    (hfile : ∀ f file, w'.table.files f = some file → (w.table.inodes file.inode).isSome)
    (hraws : ∀ r ∈ w'.raws, (w.table.inodes r.1).isSome)
    (hcnt : ∀ b, (w.table.inodes b).isSome → w'.opens b = w.opens b ∧ w'.denials b = w.denials b) :
    w'.Inv := by
  refine ⟨fun b hb => ⟨?_, hfresh b hb⟩, fun b => ?_, ?_, fun b c j k hj hk hs => ?_,
    fun r hr => ?_, fun f file hf => ?_, fun b j hj => ?_⟩
  · rw [hinodes]
    exact (h.fresh b (by omega)).1
  · rw [hlist, hinodes]
    exact h.listed b
  · rw [hlist]
    exact h.nodup
  · rw [hinodes] at hj hk
    exact h.sector b c j k hj hk hs
  · rw [hinodes]
    exact hraws r hr
  · rw [hinodes]
    exact hfile f file hf
  · rw [hinodes] at hj
    obtain ⟨ho, hd⟩ := hcnt b (by simp [hj])
    rw [ho, hd]
    exact h.counts b j hj

end Preserve

section Calls

variable {w : World} {a f : Nat}

theorem Inv.inodeReopen (h : w.Inv) (ha : (w.table.inodes a).isSome) :
    Inv ⟨w.table.inodeReopen a, (a, false) :: w.raws⟩ := by
  obtain ⟨i, hi⟩ := Option.isSome_iff_exists.mp ha
  have ht : w.table.inodeReopen a = w.table.setInode a (some { i with openCnt := i.openCnt + 1 }) := by
    simp [Table.inodeReopen, hi]
  obtain ⟨ho, hp, hd⟩ := h.counts a i hi
  refine h.modify hi { i with openCnt := i.openCnt + 1 } (by rw [ht]; rfl) rfl (by rw [ht]; rfl)
    (by rw [ht]; rfl) (fun f => by rw [ht]; rfl) ?_ ?_ ?_
  · intro r hr
    rcases List.mem_cons.mp hr with rfl | hr
    · exact ha
    · exact h.rawHeld r hr
  · simp only [opens, denials, ht, fileOpens_setInode, fileDenials_setInode, List.countP_cons,
      beq_self_eq_true, Bool.and_false, Bool.false_eq_true, if_true, if_false] at ho hd ⊢
    omega
  · intro b hb
    have hab : (a == b) = false := by simp [Ne.symm hb]
    simp [opens, denials, ht, hab]

theorem Inv.inodeRemove (h : w.Inv) (ha : (w.table.inodes a).isSome) :
    Inv ⟨w.table.inodeRemove a, w.raws⟩ := by
  obtain ⟨i, hi⟩ := Option.isSome_iff_exists.mp ha
  have ht : w.table.inodeRemove a = w.table.setInode a (some { i with removed := true }) := by
    simp [Table.inodeRemove, hi]
  obtain ⟨ho, hp, hd⟩ := h.counts a i hi
  refine h.modify hi { i with removed := true } (by rw [ht]; rfl) rfl (by rw [ht]; rfl)
    (by rw [ht]; rfl) (fun f => by rw [ht]; rfl) h.rawHeld ⟨?_, hp, ?_⟩ fun b _ => ⟨?_, ?_⟩ <;>
  simp only [opens, denials, ht, fileOpens_setInode, fileDenials_setInode] <;> simp_all [opens, denials]

/-- `inode_deny_write` after the ghost state has made one more opener of `a` deny writes and
changed nothing else that counts: its `ASSERT` holds and the invariant is kept. -/
theorem Inv.denyWrite (h : w.Inv) (w1 : World) (ha : (w.table.inodes a).isSome)
    (hinodes : w1.table.inodes = w.table.inodes) (hlist : w1.table.openInodes = w.table.openInodes)
    (hnext : w1.table.next = w.table.next)
    (hfiles : ∀ f, (w1.table.files f).map (·.inode) = (w.table.files f).map (·.inode))
    (hraws : ∀ r ∈ w1.raws, (w.table.inodes r.1).isSome)
    (hopens : ∀ b, w1.opens b = w.opens b) (hden : w1.denials a = w.denials a + 1)
    (hother : ∀ b, b ≠ a → w1.denials b = w.denials b) :
    ∃ t, w1.table.inodeDenyWrite a = some t ∧ Inv ⟨t, w1.raws⟩ := by
  obtain ⟨i, hi⟩ := Option.isSome_iff_exists.mp ha
  obtain ⟨ho, hp, hd⟩ := h.counts a i hi
  have hle := denials_le_opens w1 a
  rw [hopens, hden] at hle
  have hassert : i.denyWriteCnt + 1 ≤ i.openCnt := by omega
  have hi1 : w1.table.inodes a = some i := by rw [hinodes]; exact hi
  refine ⟨w1.table.setInode a (some { i with denyWriteCnt := i.denyWriteCnt + 1 }),
    by simp only [Table.inodeDenyWrite, hi1, if_pos hassert], ?_⟩
  refine h.modify hi { i with denyWriteCnt := i.denyWriteCnt + 1 } (by simp [hinodes]) rfl hlist hnext
    hfiles hraws ⟨?_, hp, ?_⟩ fun b hb => ⟨?_, ?_⟩
  · show i.openCnt = w1.opens a
    rw [hopens, ho]
  · show i.denyWriteCnt + 1 = w1.denials a
    rw [hden, hd]
  · exact hopens b
  · exact hother b hb

/-- `inode_allow_write` after the ghost state has made one opener of `a` allow writes again and
changed nothing else that counts: its `ASSERT`s hold and the invariant is kept. -/
theorem Inv.allowWrite (h : w.Inv) (w1 : World) (ha : (w.table.inodes a).isSome)
    (hinodes : w1.table.inodes = w.table.inodes) (hlist : w1.table.openInodes = w.table.openInodes)
    (hnext : w1.table.next = w.table.next)
    (hfiles : ∀ f, (w1.table.files f).map (·.inode) = (w.table.files f).map (·.inode))
    (hraws : ∀ r ∈ w1.raws, (w.table.inodes r.1).isSome)
    (hopens : ∀ b, w1.opens b = w.opens b) (hden : w1.denials a + 1 = w.denials a)
    (hother : ∀ b, b ≠ a → w1.denials b = w.denials b) :
    ∃ t, w1.table.inodeAllowWrite a = some t ∧ Inv ⟨t, w1.raws⟩ := by
  obtain ⟨i, hi⟩ := Option.isSome_iff_exists.mp ha
  obtain ⟨ho, hp, hd⟩ := h.counts a i hi
  have hle := denials_le_opens w a
  have hassert : 0 < i.denyWriteCnt ∧ i.denyWriteCnt ≤ i.openCnt := by omega
  have hi1 : w1.table.inodes a = some i := by rw [hinodes]; exact hi
  refine ⟨w1.table.setInode a (some { i with denyWriteCnt := i.denyWriteCnt - 1 }),
    by simp only [Table.inodeAllowWrite, hi1, if_pos hassert], ?_⟩
  refine h.modify hi { i with denyWriteCnt := i.denyWriteCnt - 1 } (by simp [hinodes]) rfl hlist hnext
    hfiles hraws ⟨?_, by omega, ?_⟩ fun b hb => ⟨?_, ?_⟩
  · show i.openCnt = w1.opens a
    rw [hopens, ho]
  · show i.denyWriteCnt - 1 = w1.denials a
    omega
  · exact hopens b
  · exact hother b hb

theorem Inv.inodeDenyWrite (h : w.Inv) (hr : (a, false) ∈ w.raws) :
    ∃ t, w.table.inodeDenyWrite a = some t ∧ Inv ⟨t, (a, true) :: w.raws.erase (a, false)⟩ := by
  have hden : ∀ b, ((a, true) :: w.raws.erase (a, false)).countP (fun r => r.1 == b && r.2) =
      w.raws.countP (fun r => r.1 == b && r.2) + if a = b then 1 else 0 := fun b => by
    have := countP_swap hr (a, true) (fun r => r.1 == b && r.2)
    simp only [Bool.and_false, Bool.and_true, Bool.false_eq_true, if_false, Nat.add_zero,
      beq_iff_eq] at this
    exact this
  refine h.denyWrite ⟨w.table, (a, true) :: w.raws.erase (a, false)⟩ (h.rawHeld _ hr) rfl rfl rfl
    (fun _ => rfl) ?_ (fun b => ?_) ?_ fun b hb => ?_
  · intro r hr'
    rcases List.mem_cons.mp hr' with rfl | hr'
    · exact h.rawHeld (a, false) hr
    · exact h.rawHeld r (List.mem_of_mem_erase hr')
  · simp only [opens, countP_fst_swap hr]
  · simp only [denials, hden, if_true]
    omega
  · simp only [denials, hden, if_neg (Ne.symm hb), Nat.add_zero]

theorem Inv.inodeAllowWrite (h : w.Inv) (hr : (a, true) ∈ w.raws) :
    ∃ t, w.table.inodeAllowWrite a = some t ∧ Inv ⟨t, (a, false) :: w.raws.erase (a, true)⟩ := by
  have hden : ∀ b, ((a, false) :: w.raws.erase (a, true)).countP (fun r => r.1 == b && r.2) +
      (if a = b then 1 else 0) = w.raws.countP (fun r => r.1 == b && r.2) := fun b => by
    have := countP_swap hr (a, false) (fun r => r.1 == b && r.2)
    simp only [Bool.and_false, Bool.and_true, Bool.false_eq_true, if_false, Nat.add_zero,
      beq_iff_eq] at this
    exact this
  refine h.allowWrite ⟨w.table, (a, false) :: w.raws.erase (a, true)⟩ (h.rawHeld _ hr) rfl rfl rfl
    (fun _ => rfl) ?_ (fun b => ?_) ?_ fun b hb => ?_
  · intro r hr'
    rcases List.mem_cons.mp hr' with rfl | hr'
    · exact h.rawHeld (a, true) hr
    · exact h.rawHeld r (List.mem_of_mem_erase hr')
  · simp only [opens, countP_fst_swap hr]
  · have := hden a
    simp only [if_true] at this
    simp only [denials]
    omega
  · have := hden b
    simp only [if_neg (Ne.symm hb), Nat.add_zero] at this
    simp only [denials, this]

theorem Inv.inodeClose (h : w.Inv) (hr : (a, false) ∈ w.raws) :
    Inv ⟨w.table.inodeClose a, w.raws.erase (a, false)⟩ := by
  obtain ⟨i, hi⟩ : ∃ i, w.table.inodes a = some i := Option.isSome_iff_exists.mp (h.rawHeld _ hr)
  obtain ⟨ho, hp, hd⟩ := h.counts a i hi
  have hro : ∀ b, (w.raws.erase (a, false)).countP (·.1 == b) + (if a = b then 1 else 0) =
      w.raws.countP (·.1 == b) := fun b => by
    have := countP_erase_add hr (·.1 == b)
    simp only [beq_iff_eq] at this
    exact this
  have hrd : ∀ b, (w.raws.erase (a, false)).countP (fun r => r.1 == b && r.2) =
      w.raws.countP (fun r => r.1 == b && r.2) := fun b => by
    have := countP_erase_add hr (fun r => r.1 == b && r.2)
    simp only [Bool.and_false, Bool.false_eq_true, if_false, Nat.add_zero] at this
    exact this
  by_cases hlast : i.openCnt - 1 = 0
  · have ht : w.table.inodeClose a = { w.table.setInode a none with
        openInodes := w.table.openInodes.erase a
        released := if i.removed then
            (i.data.start, bytesToSectors i.data.length) :: (i.sector, 1) :: w.table.released
          else w.table.released } := by
      simp only [Table.inodeClose, hi, if_pos hlast]
    have hra := hro a
    have hrpos : 0 < w.raws.countP (·.1 == a) := List.countP_pos_iff.mpr ⟨_, hr, by simp⟩
    simp only [opens, if_true] at ho hra
    have hnone : (w.raws.erase (a, false)).countP (·.1 == a) = 0 := by omega
    have hfiles : fileOpens w.table a = 0 := by omega
    have hrest : ∀ r ∈ w.raws.erase (a, false), r.1 ≠ a := fun r hr' he =>
      (List.countP_eq_zero.mp hnone) r hr' (by simp [he])
    rw [ht]
    refine h.drop rfl rfl rfl rfl (fun r hr' => ⟨hrest r hr', List.mem_of_mem_erase hr'⟩) hfiles
      fun b hba => ?_
    have hrb := hro b
    simp only [opens, denials, if_neg (Ne.symm hba), Nat.add_zero, hrd, fileOpens, fileDenials,
      Table.setInode_files, Table.setInode_next, and_true] at hrb ⊢
    omega
  · have ht : w.table.inodeClose a = w.table.setInode a (some { i with openCnt := i.openCnt - 1 }) := by
      simp only [Table.inodeClose, hi, if_neg hlast]
    rw [ht]
    refine h.modify hi { i with openCnt := i.openCnt - 1 } rfl rfl rfl rfl (fun _ => rfl)
      (fun r hr' => h.rawHeld r (List.mem_of_mem_erase hr')) ?_ ?_
    · have hra := hro a
      simp only [opens, denials, hrd, if_true, fileOpens_setInode, fileDenials_setInode] at ho hd hra ⊢
      refine ⟨?_, by show 0 < i.openCnt - 1; omega, hd⟩
      show i.openCnt - 1 = _
      omega
    · intro b hb
      have hrb := hro b
      simp only [opens, denials, hrd, if_neg (Ne.symm hb), Nat.add_zero, fileOpens_setInode,
        fileDenials_setInode, and_true] at hrb ⊢
      omega

/-- `inode_open` of a sector no open inode has, when `malloc` succeeds: a new inode at `next`
with its one raw opener. -/
theorem Inv.inodeOpen_new (h : w.Inv) {sector : Nat}
    (hs : ∀ b j, w.table.inodes b = some j → j.sector ≠ sector) :
    Inv ⟨{ w.table.setInode w.table.next (some ⟨sector, 1, false, 0, w.table.disk sector⟩) with
      openInodes := w.table.next :: w.table.openInodes, next := w.table.next + 1 },
      (w.table.next, false) :: w.raws⟩ := by
  have hfree : w.table.inodes w.table.next = none := (h.fresh _ le_rfl).1
  have hfn : w.table.files w.table.next = none := (h.fresh _ le_rfl).2
  have hne : ∀ b, (w.table.inodes b).isSome → b ≠ w.table.next := fun b hb he => by
    simp [he, hfree] at hb
  have hupd : ∀ b, b ≠ w.table.next → Function.update w.table.inodes w.table.next
      (some ⟨sector, 1, false, 0, w.table.disk sector⟩) b = w.table.inodes b :=
    fun b hb => Function.update_of_ne hb _ _
  have hcount : ∀ (p : Option OpenFile → Bool),
      Memory.count w.table.files (w.table.next + 1) p = Memory.count w.table.files w.table.next p +
        if p none then 1 else 0 := fun p => by rw [Memory.count_succ, hfn]
  have hraws0 : w.raws.countP (·.1 == w.table.next) = 0 :=
    List.countP_eq_zero.mpr fun r hr he => hne r.1 (h.rawHeld r hr) (by simpa using he)
  have hfiles0 : fileOpens w.table w.table.next = 0 := by
    simp only [fileOpens, Memory.count]
    refine List.countP_eq_zero.mpr fun f _ hf => ?_
    cases hfile : w.table.files f with
    | none => simp [hfile] at hf
    | some file =>
      simp only [hfile, Option.any_some, beq_iff_eq] at hf
      exact hne _ (h.fileHeld f file hfile) hf
  have hden0 := fileDenials_le w.table w.table.next
  have hrd0 : w.raws.countP (fun r => r.1 == w.table.next && r.2) = 0 :=
    Nat.eq_zero_of_le_zero (hraws0 ▸ List.countP_mono_left fun r _ h => by simp_all)
  refine ⟨fun b hb => ⟨?_, ?_⟩, fun b => ?_, ?_, fun b c j k hj hk hsec => ?_, fun r hr => ?_,
    fun f file hf => ?_, fun b j hj => ?_⟩
  · simp only [Table.setInode_inodes]
    rw [hupd b (by simp only at hb; omega)]
    exact (h.fresh b (by simp only at hb; omega)).1
  · exact (h.fresh b (by simp only at hb; omega)).2
  · simp only [List.mem_cons, Table.setInode_inodes]
    by_cases hb : b = w.table.next
    · simp [hb]
    · rw [hupd b hb, ← h.listed b]
      simp [hb]
  · refine List.nodup_cons.mpr ⟨fun hm => ?_, h.nodup⟩
    exact absurd ((h.listed _).mp hm) (by simp [hfree])
  · simp only [Table.setInode_inodes] at hj hk
    by_cases hb : b = w.table.next <;> by_cases hc : c = w.table.next
    · rw [hb, hc]
    · rw [hb, Function.update_self] at hj
      rw [hupd c hc] at hk
      cases hj
      exact absurd hsec.symm (hs c k hk)
    · rw [hc, Function.update_self] at hk
      rw [hupd b hb] at hj
      cases hk
      exact absurd hsec (hs b j hj)
    · rw [hupd b hb] at hj
      rw [hupd c hc] at hk
      exact h.sector b c j k hj hk hsec
  · simp only [Table.setInode_inodes]
    rcases List.mem_cons.mp hr with rfl | hr
    · simp
    · rw [hupd _ (hne _ (h.rawHeld r hr))]
      exact h.rawHeld r hr
  · simp only [Table.setInode_inodes, Table.setInode_files] at hf ⊢
    rw [hupd _ (hne _ (h.fileHeld f file hf))]
    exact h.fileHeld f file hf
  · simp only [Table.setInode_inodes] at hj
    simp only [opens, denials, fileOpens, fileDenials, Table.setInode_files, List.countP_cons]
    rw [hcount, hcount]
    simp only [Option.any_none, Bool.false_eq_true, if_false, Nat.add_zero]
    by_cases hb : b = w.table.next
    · subst hb
      rw [Function.update_self] at hj
      cases hj
      simp only [fileOpens, fileDenials] at hfiles0 hden0
      simp only [hraws0, hrd0, beq_self_eq_true, if_true, Bool.and_false, Bool.false_eq_true,
        if_false]
      omega
    · rw [hupd b hb] at hj
      obtain ⟨hob, hpb, hdb⟩ := h.counts b j hj
      have hnb : (w.table.next == b) = false := by simp [Ne.symm hb]
      simp only [opens, denials, fileOpens, fileDenials] at hob hdb
      simp only [hnb, Bool.false_and, Bool.false_eq_true, if_false, Nat.add_zero]
      exact ⟨hob, hpb, hdb⟩

theorem Inv.inodeOpen (h : w.Inv) (sector : Nat) (mallocOk : Bool) :
    Inv ⟨(w.table.inodeOpen sector mallocOk).1,
      match (w.table.inodeOpen sector mallocOk).2 with
      | some a => (a, false) :: w.raws
      | none => w.raws⟩ := by
  unfold Table.inodeOpen
  split
  · rename_i a hfind
    exact h.inodeReopen ((h.listed a).mp (List.mem_of_find?_eq_some hfind))
  · rename_i hfind
    split
    · refine h.inodeOpen_new fun b j hj hsec => ?_
      have hb : b ∈ w.table.openInodes := (h.listed b).mpr (by simp [hj])
      have := List.find?_eq_none.mp hfind b hb
      simp [hj, hsec] at this
    · exact h

/-- `file_open` on an inode a raw opener holds: the opener becomes the new `struct file`, or
gives the inode up again when `calloc` fails. -/
theorem Inv.fileOpen {t : Table} {raws : List (Nat × Bool)} (h : Inv ⟨t, (a, false) :: raws⟩)
    (callocOk : Bool) : Inv ⟨(t.fileOpen (some a) callocOk).1, raws⟩ := by
  cases callocOk with
  | false =>
    have := h.inodeClose (List.mem_cons_self ..)
    simpa [Table.fileOpen, List.erase_cons_head] using this
  | true =>
    have ha : (t.inodes a).isSome := h.rawHeld (a, false) (List.mem_cons_self ..)
    have ht : (t.fileOpen (some a) true).1 =
        { t.setFile t.next (some ⟨a, false⟩) with next := t.next + 1 } := rfl
    rw [ht]
    refine h.files rfl rfl (Nat.le_succ _) (fun f hf => ?_) (fun f file hf => ?_)
      (fun r hr => h.rawHeld r (List.mem_cons_of_mem _ hr)) fun b _ => ⟨?_, ?_⟩
    · simp only [Table.setFile_files] at hf ⊢
      rw [Function.update_of_ne (by omega)]
      exact (h.fresh f (show t.next ≤ f by omega)).2
    · simp only [Table.setFile_files] at hf
      by_cases hft : f = t.next
      · rw [hft, Function.update_self] at hf
        cases hf
        exact ha
      · rw [Function.update_of_ne hft] at hf
        exact h.fileHeld f file hf
    · simp only [opens, fileOpens_alloc, List.countP_cons]
      omega
    · simp only [denials, fileDenials_alloc, List.countP_cons, Bool.and_false, Bool.false_eq_true,
        if_false]
      omega

/-- A `struct file` that does not deny writes handed back as a raw opener of its inode, its
memory freed. -/
theorem Inv.fileDrop (h : w.Inv) (hf : w.table.files f = some ⟨a, false⟩) :
    Inv ⟨w.table.setFile f none, (a, false) :: w.raws⟩ := by
  have hlt := h.lt_of_file hf
  refine h.files rfl rfl le_rfl (fun g hg => ?_) (fun g file hg => ?_) (fun r hr => ?_)
    fun b _ => ⟨?_, ?_⟩
  · simp only [Table.setFile_files]
    simp only [Table.setFile_next] at hg
    rw [Function.update_of_ne (by omega)]
    exact (h.fresh g hg).2
  · simp only [Table.setFile_files] at hg
    by_cases hgf : g = f
    · simp [hgf] at hg
    · rw [Function.update_of_ne hgf] at hg
      exact h.fileHeld g file hg
  · rcases List.mem_cons.mp hr with rfl | hr
    · exact h.fileHeld f _ hf
    · exact h.rawHeld r hr
  · have := fileOpens_setFile (a := b) hlt none
    simp only [hf, Option.any_some, Option.any_none, Bool.false_eq_true, if_false,
      Nat.add_zero] at this
    simp only [opens, List.countP_cons]
    omega
  · have := fileDenials_setFile (a := b) hlt none
    simp only [hf, Option.any_some, Option.any_none, Bool.and_false, Bool.false_eq_true, if_false,
      Nat.add_zero] at this
    simp only [denials, List.countP_cons, Bool.and_false, Bool.false_eq_true, if_false, Nat.add_zero]
    omega

theorem Inv.fileDenyWrite (h : w.Inv) (hf : (w.table.files f).isSome) :
    ∃ t, w.table.fileDenyWrite f = some t ∧ Inv ⟨t, w.raws⟩ := by
  obtain ⟨⟨a, d⟩, hfile⟩ := Option.isSome_iff_exists.mp hf
  cases d with
  | true => exact ⟨w.table, by simp [Table.fileDenyWrite, hfile], h⟩
  | false =>
    obtain ⟨hfiles, hopens, hden, hother⟩ := flip_counts (h.lt_of_file hfile) hfile true
    simp only [Bool.false_eq_true, if_false, if_true, Nat.add_zero] at hden
    have hcall : w.table.fileDenyWrite f =
        (w.table.setFile f (some ⟨a, true⟩)).inodeDenyWrite a := by
      simp [Table.fileDenyWrite, hfile]
    rw [hcall]
    exact h.denyWrite ⟨w.table.setFile f (some ⟨a, true⟩), w.raws⟩ (h.fileHeld f _ hfile) rfl rfl rfl hfiles h.rawHeld hopens hden
      hother

theorem Inv.fileAllowWrite (h : w.Inv) {file : OpenFile} (hf : w.table.files f = some file) :
    ∃ t, w.table.fileAllowWrite f = some t ∧ Inv ⟨t, w.raws⟩ ∧
      t.files f = some ⟨file.inode, false⟩ := by
  obtain ⟨a, d⟩ := file
  cases d with
  | false => exact ⟨w.table, by simp [Table.fileAllowWrite, hf], h, hf⟩
  | true =>
    obtain ⟨hfiles, hopens, hden, hother⟩ := flip_counts (h.lt_of_file hf) hf false
    simp only [Bool.false_eq_true, if_false, if_true, Nat.add_zero] at hden
    have hcall : w.table.fileAllowWrite f =
        (w.table.setFile f (some ⟨a, false⟩)).inodeAllowWrite a := by
      simp [Table.fileAllowWrite, hf]
    rw [hcall]
    obtain ⟨t, ht, hi⟩ := h.allowWrite ⟨w.table.setFile f (some ⟨a, false⟩), w.raws⟩
      (h.fileHeld f _ hf) rfl rfl rfl hfiles h.rawHeld hopens hden hother
    refine ⟨t, ht, hi, ?_⟩
    obtain ⟨i, hi0⟩ := Option.isSome_iff_exists.mp (h.fileHeld f _ hf)
    simp only [Table.inodeAllowWrite, Table.setFile_inodes, hi0] at ht
    split at ht
    · cases ht
      simp
    · cases ht

theorem Inv.fileClose (h : w.Inv) {file : OpenFile} (hf : w.table.files f = some file) :
    ∃ t, w.table.fileClose f = some t ∧ Inv ⟨t, w.raws⟩ := by
  obtain ⟨t2, h2, hi2, hf2⟩ := h.fileAllowWrite hf
  have hc := (hi2.fileDrop hf2).inodeClose (List.mem_cons_self ..)
  rw [List.erase_cons_head, ← Table.inodeClose_setFile] at hc
  exact ⟨(t2.inodeClose file.inode).setFile f none, by simp [Table.fileClose, hf, h2], hc⟩

theorem Inv.fileReopen (h : w.Inv) {file : OpenFile} (hf : w.table.files f = some file)
    (callocOk : Bool) : Inv ⟨(w.table.fileReopen f callocOk).1, w.raws⟩ := by
  have := (h.inodeReopen (h.fileHeld f file hf)).fileOpen callocOk
  simp only [Table.fileReopen, hf]
  exact this

theorem Inv.fileOpenCall (h : w.Inv) (sector : Nat) (mallocOk callocOk : Bool) :
    Inv ⟨((w.table.inodeOpen sector mallocOk).1.fileOpen (w.table.inodeOpen sector mallocOk).2
      callocOk).1, w.raws⟩ := by
  have ho := h.inodeOpen sector mallocOk
  cases hr : (w.table.inodeOpen sector mallocOk).2 with
  | none =>
    simp only [hr] at ho
    exact ho
  | some a =>
    simp only [hr] at ho
    exact ho.fileOpen callocOk

end Calls

section Run

variable {w w' : World} {c : Call}

theorem init_inv (disk : Nat → InodeDisk) : (World.init disk).Inv where
  fresh _ _ := ⟨rfl, rfl⟩
  listed _ := by simp [World.init]
  nodup := List.nodup_nil
  sector _ _ _ _ h := by simp [World.init] at h
  rawHeld _ h := by simp [World.init] at h
  fileHeld _ _ h := by simp [World.init] at h
  counts _ _ h := by simp [World.init] at h

/-- Every call its caller may make keeps the invariant. -/
theorem Inv.step (h : w.Inv) (hs : w.step c = some w') : w'.Inv := by
  unfold World.step at hs
  split at hs
  · rename_i hc
    cases c with
    | inodeOpen sector mallocOk =>
      cases hs
      exact h.inodeOpen sector mallocOk
    | inodeReopen a =>
      cases hs
      exact h.inodeReopen (h.isSome_of_opens hc)
    | inodeClose a =>
      cases hs
      exact h.inodeClose hc
    | inodeRemove a =>
      cases hs
      exact h.inodeRemove (h.isSome_of_opens hc)
    | inodeDenyWrite a =>
      obtain ⟨t, ht, hi⟩ := h.inodeDenyWrite hc
      simp only [ht, Option.map_some, Option.some.injEq] at hs
      exact hs ▸ hi
    | inodeAllowWrite a =>
      obtain ⟨t, ht, hi⟩ := h.inodeAllowWrite hc
      simp only [ht, Option.map_some, Option.some.injEq] at hs
      exact hs ▸ hi
    | fileOpen sector mallocOk callocOk =>
      cases hs
      exact h.fileOpenCall sector mallocOk callocOk
    | fileReopen f callocOk =>
      obtain ⟨file, hf⟩ := Option.isSome_iff_exists.mp hc
      cases hs
      exact h.fileReopen hf callocOk
    | fileClose f =>
      obtain ⟨file, hf⟩ := Option.isSome_iff_exists.mp hc
      obtain ⟨t, ht, hi⟩ := h.fileClose hf
      simp only [ht, Option.map_some, Option.some.injEq] at hs
      exact hs ▸ hi
    | fileDenyWrite f =>
      obtain ⟨t, ht, hi⟩ := h.fileDenyWrite hc
      simp only [ht, Option.map_some, Option.some.injEq] at hs
      exact hs ▸ hi
    | fileAllowWrite f =>
      obtain ⟨file, hf⟩ := Option.isSome_iff_exists.mp hc
      obtain ⟨t, ht, hi, -⟩ := h.fileAllowWrite hf
      simp only [ht, Option.map_some, Option.some.injEq] at hs
      exact hs ▸ hi
  · cases hs

theorem inv_of_runs (disk : Nat → InodeDisk) {calls : List Call}
    (hrun : Kit.runs World.step (World.init disk) calls = some w) : w.Inv :=
  Kit.runs_inv (fun _ _ _ h hs => Inv.step h hs) _ calls (init_inv disk) hrun

/-- No `ASSERT` of inode.c fails on a call its caller may make. -/
theorem Inv.step_isSome (h : w.Inv) (hc : w.Allowed c) : (w.step c).isSome := by
  unfold World.step
  rw [if_pos hc]
  cases c with
  | inodeDenyWrite a =>
    obtain ⟨t, ht, -⟩ := h.inodeDenyWrite hc
    simp [ht]
  | inodeAllowWrite a =>
    obtain ⟨t, ht, -⟩ := h.inodeAllowWrite hc
    simp [ht]
  | fileClose f =>
    obtain ⟨file, hf⟩ := Option.isSome_iff_exists.mp hc
    obtain ⟨t, ht, -⟩ := h.fileClose hf
    simp [ht]
  | fileDenyWrite f =>
    obtain ⟨t, ht, -⟩ := h.fileDenyWrite hc
    simp [ht]
  | fileAllowWrite f =>
    obtain ⟨file, hf⟩ := Option.isSome_iff_exists.mp hc
    obtain ⟨t, ht, -⟩ := h.fileAllowWrite hf
    simp [ht]
  | _ => rfl

end Run

section Release

variable {w w' : World} {c : Call} {a : Nat} {i : Inode}

theorem Inv.opens_of_none (h : w.Inv) (hn : w.table.inodes a = none) : w.opens a = 0 := by
  by_contra hpos
  have := h.isSome_of_opens (Nat.pos_of_ne_zero hpos)
  simp [hn] at this

/-- `inode_open` hands back an inode that another opener holds too, or a new one that is not
removed. -/
theorem Inv.inodeOpen_kept (h : w.Inv) {sector : Nat} {mallocOk : Bool}
    (ho : (w.table.inodeOpen sector mallocOk).2 = some a) :
    ∃ i, (w.table.inodeOpen sector mallocOk).1.inodes a = some i ∧
      (1 < i.openCnt ∨ i.removed = false) := by
  cases hfind : w.table.openInodes.find? (fun b => (w.table.inodes b).any (·.sector == sector)) with
  | some b =>
    simp only [Table.inodeOpen, hfind, Option.some.injEq] at ho ⊢
    subst ho
    obtain ⟨i, hi⟩ := Option.isSome_iff_exists.mp ((h.listed b).mp (List.mem_of_find?_eq_some hfind))
    have hp := (h.counts b i hi).2.1
    exact ⟨_, Table.inodeReopen_self hi, Or.inl (by simp only; omega)⟩
  | none =>
    cases mallocOk with
    | true =>
      simp only [Table.inodeOpen, hfind, if_true, Option.some.injEq] at ho ⊢
      subst ho
      exact ⟨⟨sector, 1, false, 0, w.table.disk sector⟩, by simp, Or.inr rfl⟩
    | false => simp [Table.inodeOpen, hfind] at ho

/-- `inode_close` of `a` on a table that has the world's free map and differs from the world's
inode at `a` at most in `deny_write_cnt`: it frees the sectors of `a` exactly when `a` is removed
and has one opener left. -/
theorem Inv.close_released (h : w.Inv) (hi : w.table.inodes a = some i) {t : Table}
    (hrel : t.released = w.table.released) {d : Nat}
    (ht : t.inodes a = some { i with denyWriteCnt := d }) :
    ((t.inodeClose a).released = w.table.released ∧ ¬(i.removed = true ∧ w.opens a = 1)) ∨
      (i.removed = true ∧ w.opens a = 1 ∧ (t.inodeClose a).inodes a = none ∧
        (t.inodeClose a).released =
          (i.data.start, bytesToSectors i.data.length) :: (i.sector, 1) :: w.table.released) := by
  obtain ⟨ho, hp, -⟩ := h.counts a i hi
  rw [Table.inodeClose_released ht, hrel]
  dsimp only
  by_cases hl : i.removed = true ∧ w.opens a = 1
  · have hlast : i.openCnt - 1 = 0 := by omega
    exact Or.inr ⟨hl.1, hl.2, Table.inodeClose_self ht hlast, if_pos ⟨hlast, hl.1⟩⟩
  · refine Or.inl ⟨if_neg fun ⟨hlast, hr⟩ => hl ⟨hr, by omega⟩, hl⟩

theorem Inv.fileClose_eq (h : w.Inv) {f : Nat} {file : OpenFile} (hf : w.table.files f = some file) :
    ∃ t, w.table.fileAllowWrite f = some t ∧ w.table.fileClose f = some ((t.inodeClose file.inode).setFile f none) := by
  obtain ⟨t, ht, -⟩ := h.fileAllowWrite hf
  exact ⟨t, ht, by simp [Table.fileClose, hf, ht]⟩

/-- A call hands sectors to the free map only when it closes the last opener of a removed inode;
it then hands back that inode's data and header sectors and frees the inode. -/
theorem Inv.released_step (h : w.Inv) (hs : w.step c = some w') :
    w'.table.released = w.table.released ∨
      ∃ a i, w.table.inodes a = some i ∧ i.removed = true ∧ w.opens a = 1 ∧ w.closes a c = true ∧
        w'.table.inodes a = none ∧
        w'.table.released =
          (i.data.start, bytesToSectors i.data.length) :: (i.sector, 1) :: w.table.released := by
  unfold World.step at hs
  split at hs
  · rename_i hc
    cases c with
    | inodeOpen sector mallocOk =>
      cases hs
      exact Or.inl (Table.inodeOpen_released sector mallocOk)
    | inodeReopen a =>
      cases hs
      exact Or.inl Table.inodeReopen_released
    | inodeRemove a =>
      cases hs
      exact Or.inl Table.inodeRemove_released
    | inodeClose a =>
      cases hs
      obtain ⟨i, hi⟩ := Option.isSome_iff_exists.mp (h.rawHeld _ hc)
      rcases h.close_released hi rfl hi with ⟨hrel, -⟩ | ⟨hr, h1, hn, hrel⟩
      · exact Or.inl hrel
      · exact Or.inr ⟨a, i, hi, hr, h1, by simp [closes], hn, hrel⟩
    | inodeDenyWrite a =>
      obtain ⟨t, ht, rfl⟩ := Option.map_eq_some_iff.mp hs
      obtain ⟨i, hi⟩ := Option.isSome_iff_exists.mp (h.rawHeld _ hc)
      rw [Table.inodeDenyWrite_eq ht hi]
      exact Or.inl rfl
    | inodeAllowWrite a =>
      obtain ⟨t, ht, rfl⟩ := Option.map_eq_some_iff.mp hs
      obtain ⟨i, hi⟩ := Option.isSome_iff_exists.mp (h.rawHeld _ hc)
      rw [Table.inodeAllowWrite_eq ht hi]
      exact Or.inl rfl
    | fileOpen sector mallocOk callocOk =>
      cases hs
      refine Or.inl ?_
      cases hr : (w.table.inodeOpen sector mallocOk).2 with
      | none => exact Table.inodeOpen_released sector mallocOk
      | some a =>
        obtain ⟨i, hi, hkeep⟩ := h.inodeOpen_kept hr
        dsimp only
        rw [Table.fileOpen_released hi hkeep, Table.inodeOpen_released]
    | fileReopen f callocOk =>
      cases hs
      obtain ⟨file, hf⟩ := Option.isSome_iff_exists.mp hc
      obtain ⟨i, hi⟩ := Option.isSome_iff_exists.mp (h.fileHeld f file hf)
      have hp := (h.counts _ i hi).2.1
      refine Or.inl ?_
      simp only [Table.fileReopen, hf]
      rw [Table.fileOpen_released (Table.inodeReopen_self hi) (Or.inl (by simp only; omega)),
        Table.inodeReopen_released]
    | fileClose f =>
      obtain ⟨file, hf⟩ := Option.isSome_iff_exists.mp hc
      obtain ⟨t, ht, hclose⟩ := h.fileClose_eq hf
      simp only [hclose, Option.map_some, Option.some.injEq] at hs
      subst hs
      obtain ⟨i, hi⟩ := Option.isSome_iff_exists.mp (h.fileHeld f file hf)
      obtain ⟨hrel, hframe⟩ := Table.fileAllowWrite_frame ht
      obtain ⟨d, hd⟩ := hframe _ i hi
      rcases h.close_released hi hrel hd with ⟨hrel', -⟩ | ⟨hr, h1, hn, hrel'⟩
      · exact Or.inl hrel'
      · exact Or.inr ⟨file.inode, i, hi, hr, h1, by simp [closes, hf], hn, hrel'⟩
    | fileDenyWrite f =>
      obtain ⟨t, ht, rfl⟩ := Option.map_eq_some_iff.mp hs
      exact Or.inl (Table.fileDenyWrite_frame ht).1
    | fileAllowWrite f =>
      obtain ⟨t, ht, rfl⟩ := Option.map_eq_some_iff.mp hs
      exact Or.inl (Table.fileAllowWrite_frame ht).1
  · cases hs

/-- Closing the last opener of a removed inode hands its data and header sectors to the free
map. -/
theorem Inv.releases_at_last_close (h : w.Inv) (hi : w.table.inodes a = some i)
    (hr : i.removed = true) (h1 : w.opens a = 1) (hc : w.Allowed c) (hcl : w.closes a c = true) :
    ∃ w', w.step c = some w' ∧ w'.table.released =
      (i.data.start, bytesToSectors i.data.length) :: (i.sector, 1) :: w.table.released := by
  unfold World.step
  rw [if_pos hc]
  cases c with
  | inodeClose b =>
    obtain rfl : b = a := by simpa [closes] using hcl
    rcases h.close_released hi rfl hi with ⟨-, hn⟩ | ⟨-, -, -, hrel⟩
    · exact absurd ⟨hr, h1⟩ hn
    · exact ⟨_, rfl, hrel⟩
  | fileClose f =>
    cases hf : w.table.files f with
    | none => simp [closes, hf] at hcl
    | some file =>
    obtain rfl : file.inode = a := by simpa [closes, hf] using hcl
    obtain ⟨t, ht, hclose⟩ := h.fileClose_eq hf
    obtain ⟨hrel, hframe⟩ := Table.fileAllowWrite_frame ht
    obtain ⟨d, hd⟩ := hframe _ i hi
    rcases h.close_released hi hrel hd with ⟨-, hn⟩ | ⟨-, -, -, hrel'⟩
    · exact absurd ⟨hr, h1⟩ hn
    · refine ⟨⟨(t.inodeClose file.inode).setFile f none, w.raws⟩, ?_, hrel'⟩
      simp only [hclose, Option.map_some]
  | _ => simp [closes] at hcl

theorem step_keepsFreed (hs : w.step c = some w') : Table.KeepsFreed w.table w'.table := by
  unfold World.step at hs
  split at hs
  · cases c with
    | inodeOpen sector mallocOk =>
      cases hs
      exact Table.keepsFreed_inodeOpen sector mallocOk
    | inodeReopen a =>
      cases hs
      exact Table.keepsFreed_inodeReopen
    | inodeClose a =>
      cases hs
      exact Table.keepsFreed_inodeClose
    | inodeRemove a =>
      cases hs
      exact Table.keepsFreed_inodeRemove
    | inodeDenyWrite a =>
      obtain ⟨t, ht, rfl⟩ := Option.map_eq_some_iff.mp hs
      exact Table.keepsFreed_inodeDenyWrite ht
    | inodeAllowWrite a =>
      obtain ⟨t, ht, rfl⟩ := Option.map_eq_some_iff.mp hs
      exact Table.keepsFreed_inodeAllowWrite ht
    | fileOpen sector mallocOk callocOk =>
      cases hs
      exact (Table.keepsFreed_inodeOpen sector mallocOk).trans (Table.keepsFreed_fileOpen _ callocOk)
    | fileReopen f callocOk =>
      cases hs
      exact Table.keepsFreed_fileReopen callocOk
    | fileClose f =>
      obtain ⟨t, ht, rfl⟩ := Option.map_eq_some_iff.mp hs
      exact Table.keepsFreed_fileClose ht
    | fileDenyWrite f =>
      obtain ⟨t, ht, rfl⟩ := Option.map_eq_some_iff.mp hs
      exact Table.keepsFreed_fileDenyWrite ht
    | fileAllowWrite f =>
      obtain ⟨t, ht, rfl⟩ := Option.map_eq_some_iff.mp hs
      exact Table.keepsFreed_fileAllowWrite ht
  · cases hs

/-- No run reuses an address: a freed inode stays freed. -/
theorem runs_keepsFreed (w : World) (calls : List Call)
    (hrun : Kit.runs World.step w calls = some w') : Table.KeepsFreed w.table w'.table :=
  (Kit.runs_rel (I := fun _ => True) (R := fun s t => Table.KeepsFreed s.table t.table)
    (fun w => Table.KeepsFreed.refl w.table)
    (fun a b c => @Table.KeepsFreed.trans a.table b.table c.table)
    (fun _ _ _ _ hs => ⟨trivial, step_keepsFreed hs⟩)
    w calls trivial hrun).2

end Release

section Sound

variable {w : World}

/-- What the open-inode table guarantees in a world its callers have reached. -/
structure Sound (w : World) : Prop where
  /-- `open_inodes` holds at most one `struct inode` per sector. -/
  sector : ∀ a b i j, w.table.inodes a = some i → w.table.inodes b = some j →
    i.sector = j.sector → a = b
  /-- `open_inodes` lists each allocated inode once. -/
  nodup : w.table.openInodes.Nodup
  listed : ∀ a, a ∈ w.table.openInodes ↔ (w.table.inodes a).isSome
  /-- `open_cnt` counts the openers, and is never 0 while the inode is listed. -/
  openCnt : ∀ a i, w.table.inodes a = some i → i.openCnt = w.opens a ∧ 1 ≤ i.openCnt
  /-- `deny_write_cnt` counts the openers that deny writes, and is at most `open_cnt`. -/
  denyWriteCnt : ∀ a i, w.table.inodes a = some i →
    i.denyWriteCnt = w.denials a ∧ i.denyWriteCnt ≤ i.openCnt
  /-- No `ASSERT` fails on a call the callers may make. -/
  asserts : ∀ c, w.Allowed c → (w.step c).isSome
  /-- Sectors go to the free map only at the close of the last opener of a removed inode; that
  close hands back its data and header sectors, and no opener of it is left. -/
  releasedOnlyAtLastClose : ∀ c w', w.step c = some w' →
    w'.table.released = w.table.released ∨
      ∃ a i, w.table.inodes a = some i ∧ i.removed = true ∧ w.opens a = 1 ∧
        w.closes a c = true ∧ w'.opens a = 0 ∧ w'.table.inodes a = none ∧
        w'.table.released =
          (i.data.start, bytesToSectors i.data.length) :: (i.sector, 1) :: w.table.released
  /-- That close does hand them back. -/
  releasedAtLastClose : ∀ a i c, w.table.inodes a = some i → i.removed = true → w.opens a = 1 →
    w.Allowed c → w.closes a c = true → ∃ w', w.step c = some w' ∧
      w'.table.released =
        (i.data.start, bytesToSectors i.data.length) :: (i.sector, 1) :: w.table.released
  /-- A freed inode is never allocated again, so its sectors are handed back once. -/
  freedForGood : ∀ a, a < w.table.next → w.table.inodes a = none →
    ∀ calls w', Kit.runs World.step w calls = some w' → w'.table.inodes a = none

theorem Inv.sound (h : w.Inv) : w.Sound where
  sector := h.sector
  nodup := h.nodup
  listed := h.listed
  openCnt a i hi := ⟨(h.counts a i hi).1, (h.counts a i hi).2.1⟩
  denyWriteCnt a i hi := by
    obtain ⟨ho, -, hd⟩ := h.counts a i hi
    exact ⟨hd, hd ▸ ho ▸ denials_le_opens w a⟩
  asserts _ hc := h.step_isSome hc
  releasedOnlyAtLastClose c w' hs := by
    rcases h.released_step hs with hrel | ⟨a, i, hi, hr, h1, hcl, hn, hrel⟩
    · exact Or.inl hrel
    · exact Or.inr ⟨a, i, hi, hr, h1, hcl, (h.step hs).opens_of_none hn, hn, hrel⟩
  releasedAtLastClose _ _ _ hi hr h1 hc hcl := h.releases_at_last_close hi hr h1 hc hcl
  freedForGood a hlt hn calls _ hrun := (runs_keepsFreed w calls hrun).2 a hlt hn

/-- Every world reached from `inode_init` by calls the callers may make is sound. -/
theorem inode_table_sound (disk : Nat → InodeDisk) (calls : List Call) (w : World)
    (hrun : Kit.runs World.step (World.init disk) calls = some w) : w.Sound :=
  (inv_of_runs disk hrun).sound

/-- A `struct file` and a raw opener share the inode on sector 5; it is removed, the file is
closed, and the raw opener's close hands back its data sector and its header. -/
theorem inode_table_sound_sample :
    ∃ w, Kit.runs World.step (World.init fun s => ⟨s + 1, 512⟩)
        [.fileOpen 5 true true, .inodeOpen 5 true, .inodeRemove 0, .fileClose 1, .inodeClose 0] =
        some w ∧ w.table.released = [(6, 1), (5, 1)] ∧ w.Sound := by
  obtain ⟨w, hrun, hrel⟩ : ∃ w, Kit.runs World.step (World.init fun s => ⟨s + 1, 512⟩)
      [.fileOpen 5 true true, .inodeOpen 5 true, .inodeRemove 0, .fileClose 1, .inodeClose 0] =
        some w ∧ w.table.released = [(6, 1), (5, 1)] :=
    Kit.exists_of_runs (by decide +kernel)
  exact ⟨w, hrun, hrel, inode_table_sound _ _ w hrun⟩

/-- A raw opener's own `inode_deny_write` counts in `deny_write_cnt`, though no file is open on
the inode. -/
theorem deny_write_cnt_counts_raw_opener :
    ∃ w, Kit.runs World.step (World.init fun s => ⟨s + 1, 512⟩)
        [.inodeOpen 5 true, .inodeDenyWrite 0] = some w ∧
      (w.table.inodes 0).map (·.denyWriteCnt) = some 1 ∧ fileOpens w.table 0 = 0 :=
  Kit.exists_of_runs (by decide +kernel)

end Sound

end World

end Pintos.Filesys
