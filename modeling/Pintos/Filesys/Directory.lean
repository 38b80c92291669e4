import Mathlib.Data.List.AList
import Pintos.Filesys.InodeTable
import Pintos.Kit.Run

/-! The root directory of directory.c: an array of fixed-size entries kept in the data of its
inode and searched from the front, and the finite map from names to inode sectors it stands
for. Entry `k` is the `struct dir_entry` at byte offset `k * sizeof (struct dir_entry)`. -/
namespace Pintos.Filesys

open Pintos.Kit

/-- `NAME_MAX`. -/
def nameMax : Nat := 14

/-- A `struct dir_entry`; `name` holds the characters before the terminating null. -/
structure DirEntry where
  inodeSector : Nat
  name : List Char
  inUse : Bool
deriving DecidableEq

/-- The loop of `lookup` from entry `k` on. `inode_read_at` of entry `k` comes back whole when
the entry is in the file and `ok k` says that the `malloc` of its bounce buffer succeeds. -/
def lookupFrom (name : List Char) (ok : Nat → Bool) : Nat → List DirEntry → Option (DirEntry × Nat)
  | _, [] => none
  | k, e :: es =>
    if ok k then
      if e.inUse && name == e.name then some (e, k) else lookupFrom name ok (k + 1) es
    else none

/-- `lookup`: the first entry in use named `name`, with its index. -/
def lookup (slots : List DirEntry) (name : List Char) (ok : Nat → Bool) : Option (DirEntry × Nat) :=
  lookupFrom name ok 0 slots

/-- The free-slot loop of `dir_add` from entry `k` on: it stops at the first free entry, or at
the first read that comes back short. -/
def freeSlotFrom (ok : Nat → Bool) : Nat → List DirEntry → Nat
  | k, [] => k
  | k, e :: es => if ok k then (if e.inUse then freeSlotFrom ok (k + 1) es else k) else k

/-- `inode_write_at` of one entry at index `k`: it writes the whole entry when the entry is in
the file and the bounce buffer's `malloc` succeeds; otherwise no whole entry changes. -/
def writeSlot (slots : List DirEntry) (k : Nat) (e : DirEntry) (ok : Bool) : List DirEntry × Bool :=
  if k < slots.length ∧ ok = true then (slots.set k e, true) else (slots, false)

/-- `dir_add`. -/
def dirAdd (slots : List DirEntry) (name : List Char) (inodeSector : Nat)
    (okLookup okScan : Nat → Bool) (okWrite : Bool) : List DirEntry × Bool :=
  if name = [] ∨ nameMax < name.length then (slots, false)
  else if (lookup slots name okLookup).isSome then (slots, false)
  else writeSlot slots (freeSlotFrom okScan 0 slots) ⟨inodeSector, name, true⟩ okWrite

/-- `dir_remove`, on the open-inode table in which it opens, removes and closes the entry's
inode. -/
def dirRemove (slots : List DirEntry) (t : Table) (name : List Char) (okLookup : Nat → Bool)
    (mallocOk okWrite : Bool) : List DirEntry × Table × Bool :=
  match lookup slots name okLookup with
  | none => (slots, t, false)
  | some (e, k) =>
    match t.inodeOpen e.inodeSector mallocOk with
    | (t1, none) => (slots, t1, false)
    | (t1, some a) =>
      if (writeSlot slots k { e with inUse := false } okWrite).2 then
        ((writeSlot slots k { e with inUse := false } okWrite).1, (t1.inodeRemove a).inodeClose a,
          true)
      else (slots, t1.inodeClose a, false)

/-- `dir_lookup`: the table after it, and the inode it opens, `none` for a null pointer. -/
def dirLookup (slots : List DirEntry) (t : Table) (name : List Char) (okLookup : Nat → Bool)
    (mallocOk : Bool) : Table × Option Nat :=
  match lookup slots name okLookup with
  | some (e, _) => t.inodeOpen e.inodeSector mallocOk
  | none => (t, none)

/-- The loop of `dir_readdir` from entry `pos` on: the position after it and the name it
returns. -/
def readdirFrom (ok : Nat → Bool) : Nat → List DirEntry → Nat × Option (List Char)
  | pos, [] => (pos, none)
  | pos, e :: es =>
    if ok pos then (if e.inUse then (pos + 1, some e.name) else readdirFrom ok (pos + 1) es)
    else (pos, none)

/-- `dir_readdir` at `dir->pos`, counted in entries. -/
def dirReaddir (slots : List DirEntry) (pos : Nat) (ok : Nat → Bool) : Nat × Option (List Char) :=
  readdirFrom ok pos (slots.drop pos)

/-- The loop of `fsutil_ls`: `dir_readdir` from `pos` until it returns false, at most `fuel`
times, and the names it returns. -/
def readdirAll (slots : List DirEntry) (ok : Nat → Bool) : Nat → Nat → List (List Char)
  | 0, _ => []
  | fuel + 1, pos =>
    match dirReaddir slots pos ok with
    | (pos', some name) => name :: readdirAll slots ok fuel pos'
    | (_, none) => []

/-- The entries in use, in the order of the file, as pairs of name and sector. -/
def entries (slots : List DirEntry) : List (Σ _ : List Char, Nat) :=
  slots.filterMap fun e => if e.inUse then some ⟨e.name, e.inodeSector⟩ else none

section Entries

variable {A B : List DirEntry} {e x : DirEntry} {name : List Char}

@[simp] theorem entries_nil : entries [] = [] := rfl

theorem entries_cons (x : DirEntry) (es : List DirEntry) :
    entries (x :: es) = if x.inUse then ⟨x.name, x.inodeSector⟩ :: entries es else entries es := by
  cases h : x.inUse <;> simp [entries, h]

@[simp] theorem entries_append : entries (A ++ B) = entries A ++ entries B :=
  List.filterMap_append

theorem entries_free (hx : x.inUse = false) (es : List DirEntry) : entries (x :: es) = entries es := by
  simp [entries_cons, hx]

theorem entries_used (hx : x.inUse = true) (es : List DirEntry) :
    entries (x :: es) = ⟨x.name, x.inodeSector⟩ :: entries es := by
  simp [entries_cons, hx]

theorem length_entries (slots : List DirEntry) :
    (entries slots).length + slots.countP (fun e => !e.inUse) = slots.length := by
  induction slots with
  | nil => rfl
  | cons x es ih =>
    cases hx : x.inUse
    · simp only [entries_free hx, List.countP_cons, hx, Bool.not_false, if_true, List.length_cons]
      omega
    · simp only [entries_used hx, List.countP_cons, hx, Bool.not_true, List.length_cons]
      simp only [Bool.false_eq_true, if_false]
      omega

theorem exists_free_iff (slots : List DirEntry) :
    (∃ x ∈ slots, x.inUse = false) ↔ (entries slots).length < slots.length := by
  have h := length_entries slots
  constructor
  · rintro ⟨x, hx, hfree⟩
    have : 0 < slots.countP (fun e => !e.inUse) := List.countP_pos_iff.mpr ⟨x, hx, by simp [hfree]⟩
    omega
  · intro hlt
    obtain ⟨x, hx, hfree⟩ := List.countP_pos_iff.mp (show 0 < slots.countP (fun e => !e.inUse) by
      omega)
    exact ⟨x, hx, by simpa using hfree⟩

end Entries

section Loops

variable {ok : Nat → Bool} {name : List Char} {e : DirEntry} {j : Nat}

theorem lookupFrom_eq_some : ∀ {k : Nat} {slots : List DirEntry},
    lookupFrom name ok k slots = some (e, j) →
      ∃ A B, slots = A ++ e :: B ∧ j = k + A.length ∧ name ∉ (entries A).keys ∧
        e.inUse = true ∧ e.name = name
  | _, [], h => by cases h
  | k, x :: es, h => by
    unfold lookupFrom at h
    split at h
    · split at h
      · rename_i hx
        cases h
        simp only [Bool.and_eq_true, beq_iff_eq] at hx
        exact ⟨[], es, rfl, rfl, by simp, hx.1, hx.2.symm⟩
      · rename_i hx
        obtain ⟨A, B, rfl, rfl, hA, hu, hn⟩ := lookupFrom_eq_some h
        refine ⟨x :: A, B, rfl, by simp only [List.length_cons]; omega, ?_, hu, hn⟩
        rw [entries_cons]
        split
        · rename_i hxu
          simp only [hxu, Bool.true_and, beq_iff_eq] at hx
          simp [hA, hx]
        · exact hA
    · cases h

theorem lookupFrom_eq_none : ∀ {k : Nat} {slots : List DirEntry},
    lookupFrom name (fun _ => true) k slots = none → name ∉ (entries slots).keys
  | _, [], _ => by simp
  | k, x :: es, h => by
    simp only [lookupFrom, if_true] at h
    split at h
    · cases h
    · rename_i hx
      rw [entries_cons]
      split
      · rename_i hxu
        simp only [hxu, Bool.true_and, beq_iff_eq] at hx
        simp [lookupFrom_eq_none h, hx]
      · exact lookupFrom_eq_none h

/-- With every read whole, the free-slot loop of `dir_add` stops at the first free entry, or at
the end of the file when there is none. -/
theorem freeSlotFrom_true : ∀ (k : Nat) (slots : List DirEntry),
    (∃ A x B, slots = A ++ x :: B ∧ x.inUse = false ∧
      freeSlotFrom (fun _ => true) k slots = k + A.length) ∨
    ((∀ x ∈ slots, x.inUse = true) ∧ freeSlotFrom (fun _ => true) k slots = k + slots.length)
  | k, [] => Or.inr ⟨by simp, rfl⟩
  | k, x :: es => by
    cases hx : x.inUse
    · exact Or.inl ⟨[], x, es, rfl, hx, by simp [freeSlotFrom, hx]⟩
    · have hstep : freeSlotFrom (fun _ => true) k (x :: es) = freeSlotFrom (fun _ => true) (k + 1) es := by
        simp [freeSlotFrom, hx]
      rcases freeSlotFrom_true (k + 1) es with ⟨A, y, B, rfl, hy, hf⟩ | ⟨hall, hf⟩
      · refine Or.inl ⟨x :: A, y, B, rfl, hy, ?_⟩
        rw [hstep, hf, List.length_cons]
        omega
      · refine Or.inr ⟨?_, ?_⟩
        · intro z hz
          rcases List.mem_cons.mp hz with rfl | hz
          · exact hx
          · exact hall z hz
        · rw [hstep, hf, List.length_cons]
          omega

/-- With every read whole, `dir_readdir` returns the first entry in use from `pos` on and moves
past it, or returns nothing at the end of the file. -/
theorem readdirFrom_true : ∀ (pos : Nat) (slots : List DirEntry),
    (∃ A x B, slots = A ++ x :: B ∧ entries A = [] ∧ x.inUse = true ∧
      readdirFrom (fun _ => true) pos slots = (pos + A.length + 1, some x.name)) ∨
    (entries slots = [] ∧ readdirFrom (fun _ => true) pos slots = (pos + slots.length, none))
  | pos, [] => Or.inr ⟨rfl, rfl⟩
  | pos, x :: es => by
    cases hx : x.inUse
    · have hstep : readdirFrom (fun _ => true) pos (x :: es) = readdirFrom (fun _ => true) (pos + 1) es := by
        simp [readdirFrom, hx]
      rcases readdirFrom_true (pos + 1) es with ⟨A, y, B, rfl, hA, hy, hr⟩ | ⟨hnone, hr⟩
      · refine Or.inl ⟨x :: A, y, B, rfl, by rw [entries_free hx, hA], hy, ?_⟩
        rw [hstep, hr, List.length_cons]
        congr 1
        omega
      · refine Or.inr ⟨by rw [entries_free hx, hnone], ?_⟩
        rw [hstep, hr, List.length_cons]
        congr 1
        omega
    · exact Or.inl ⟨[], x, es, rfl, rfl, hx, by simp [readdirFrom, hx]⟩

end Loops

/-- The directory as its callers see it: a finite map from names to inode sectors, and the
number of entries its file has room for. -/
structure DirSpec where
  map : AList (fun _ : List Char => Nat)
  capacity : Nat

/-- The entries in use are the map's, and the file has room for `capacity` entries. -/
def Represents (slots : List DirEntry) (m : DirSpec) : Prop :=
  (entries slots).Perm m.map.entries ∧ slots.length = m.capacity

/-- A call of directory.c, with the outcome of each `malloc` it makes. -/
inductive DirCall where
  | add (name : List Char) (inodeSector : Nat) (okLookup okScan : Nat → Bool) (okWrite : Bool)
  | remove (name : List Char) (okLookup : Nat → Bool) (mallocOk okWrite : Bool)
  | lookup (name : List Char) (okLookup : Nat → Bool) (mallocOk : Bool)

/-- Every `malloc` of the call succeeds. -/
def DirCall.Valid : DirCall → Prop
  | .add _ _ okLookup okScan okWrite =>
    (∀ k, okLookup k = true) ∧ (∀ k, okScan k = true) ∧ okWrite = true
  | .remove _ okLookup mallocOk okWrite => (∀ k, okLookup k = true) ∧ mallocOk = true ∧ okWrite = true
  | .lookup _ okLookup mallocOk => (∀ k, okLookup k = true) ∧ mallocOk = true

/-- What a call returns: success, or the sector of the inode `dir_lookup` opened. -/
inductive DirReply where
  | added (success : Bool)
  | removed (success : Bool)
  | found (sector : Option Nat)
deriving DecidableEq

/-- The directory's entries and the open-inode table. -/
structure DirState where
  slots : List DirEntry
  table : Table

def DirCall.run (d : DirState) : DirCall → DirState × DirReply
  | .add name s okLookup okScan okWrite =>
    (⟨(dirAdd d.slots name s okLookup okScan okWrite).1, d.table⟩,
      .added (dirAdd d.slots name s okLookup okScan okWrite).2)
  | .remove name okLookup mallocOk okWrite =>
    (⟨(dirRemove d.slots d.table name okLookup mallocOk okWrite).1,
        (dirRemove d.slots d.table name okLookup mallocOk okWrite).2.1⟩,
      .removed (dirRemove d.slots d.table name okLookup mallocOk okWrite).2.2)
  | .lookup name okLookup mallocOk =>
    (⟨d.slots, (dirLookup d.slots d.table name okLookup mallocOk).1⟩,
      .found ((dirLookup d.slots d.table name okLookup mallocOk).2.bind fun a =>
        ((dirLookup d.slots d.table name okLookup mallocOk).1.inodes a).map (·.sector)))

/-- The calls on the map: an add of a valid new name when there is room, a remove of a name in
the map, and a lookup. -/
def DirCall.spec (m : DirSpec) : DirCall → DirSpec × DirReply
  | .add name s .. =>
    if name ≠ [] ∧ name.length ≤ nameMax ∧ name ∉ m.map ∧ m.map.entries.length < m.capacity then
      (⟨m.map.insert name s, m.capacity⟩, .added true)
    else (m, .added false)
  | .remove name .. =>
    if name ∈ m.map then (⟨m.map.erase name, m.capacity⟩, .removed true) else (m, .removed false)
  | .lookup name .. => (m, .found (m.map.lookup name))

section Refines

variable {slots : List DirEntry} {m : DirSpec} {name : List Char}

theorem Represents.nodupKeys (h : Represents slots m) : (entries slots).NodupKeys :=
  (List.perm_nodupKeys h.1).mpr m.map.nodupKeys

theorem Represents.mem_iff (h : Represents slots m) : name ∈ (entries slots).keys ↔ name ∈ m.map :=
  (h.1.map Sigma.fst).mem_iff

theorem Represents.lookup_eq (h : Represents slots m) : m.map.lookup name = (entries slots).dlookup name :=
  (List.perm_dlookup name h.nodupKeys h.1).symm

theorem Represents.room_iff (h : Represents slots m) :
    m.map.entries.length < m.capacity ↔ ∃ x ∈ slots, x.inUse = false := by
  rw [exists_free_iff, h.1.length_eq, h.2]

theorem mem_of_lookup {ok : Nat → Bool} {e : DirEntry} {k : Nat}
    (hl : lookup slots name ok = some (e, k)) : name ∈ (entries slots).keys := by
  obtain ⟨A, B, rfl, -, -, hu, hn⟩ := lookupFrom_eq_some hl
  simp [entries_used hu, hn]

theorem add_refines (h : Represents slots m) (s : Nat) :
    Represents (dirAdd slots name s (fun _ => true) (fun _ => true) true).1
        (DirCall.spec m (.add name s (fun _ => true) (fun _ => true) true)).1 ∧
      DirReply.added (dirAdd slots name s (fun _ => true) (fun _ => true) true).2 =
        (DirCall.spec m (.add name s (fun _ => true) (fun _ => true) true)).2 := by
  by_cases hv : name = [] ∨ nameMax < name.length
  · have hc : ¬(name ≠ [] ∧ name.length ≤ nameMax ∧ name ∉ m.map ∧
        m.map.entries.length < m.capacity) := by
      rintro ⟨hne, hle, -⟩
      rcases hv with hv | hv
      · exact hne hv
      · omega
    simp only [dirAdd, if_pos hv, DirCall.spec, if_neg hc]
    exact ⟨h, trivial⟩
  have hne : name ≠ [] := fun hn => hv (Or.inl hn)
  have hle : name.length ≤ nameMax := Nat.le_of_not_lt fun hn => hv (Or.inr hn)
  cases hl : lookup slots name (fun _ => true) with
  | some p =>
    have hm := h.mem_iff.mp (mem_of_lookup hl)
    have hc : ¬(name ≠ [] ∧ name.length ≤ nameMax ∧ name ∉ m.map ∧
        m.map.entries.length < m.capacity) := fun hc => hc.2.2.1 hm
    simp only [dirAdd, if_neg hv, hl, Option.isSome_some, if_true, DirCall.spec, if_neg hc]
    exact ⟨h, trivial⟩
  | none =>
    have hm : name ∉ m.map := h.mem_iff.not.mp (lookupFrom_eq_none hl)
    rcases freeSlotFrom_true 0 slots with ⟨A, x, B, rfl, hx, hf⟩ | ⟨hall, hf⟩
    · have hc : name ≠ [] ∧ name.length ≤ nameMax ∧ name ∉ m.map ∧
          m.map.entries.length < m.capacity :=
        ⟨hne, hle, hm, h.room_iff.mpr ⟨x, by simp, hx⟩⟩
      have hw : writeSlot (A ++ x :: B) A.length ⟨s, name, true⟩ true =
          (A ++ ⟨s, name, true⟩ :: B, true) := by
        simp [writeSlot]
      simp only [dirAdd, if_neg hv, hl, Option.isSome_none, Bool.false_eq_true, if_false, hf,
        Nat.zero_add, hw, DirCall.spec, if_pos hc]
      refine ⟨⟨?_, by simpa using h.2⟩, trivial⟩
      rw [AList.entries_insert_of_notMem hm]
      have hperm := h.1
      rw [entries_append, entries_free hx] at hperm
      rw [entries_append, entries_used rfl]
      exact List.perm_middle.trans (hperm.cons _)
    · have hc : ¬(name ≠ [] ∧ name.length ≤ nameMax ∧ name ∉ m.map ∧
          m.map.entries.length < m.capacity) := by
        rintro ⟨-, -, -, hroom⟩
        obtain ⟨x, hx, hfree⟩ := h.room_iff.mp hroom
        simp [hall x hx] at hfree
      have hw : writeSlot slots slots.length ⟨s, name, true⟩ true = (slots, false) := by
        simp [writeSlot]
      simp only [dirAdd, if_neg hv, hl, Option.isSome_none, Bool.false_eq_true, if_false, hf,
        Nat.zero_add, hw, DirCall.spec, if_neg hc]
      exact ⟨h, trivial⟩

theorem inodeOpen_true (t : Table) (sector : Nat) :
    ∃ t1 a i, t.inodeOpen sector true = (t1, some a) ∧ t1.inodes a = some i ∧ i.sector = sector := by
  obtain ⟨a, ha⟩ := Option.isSome_iff_exists.mp (Table.inodeOpen_isSome (t := t) sector)
  obtain ⟨i, hi, hs⟩ := Table.inodeOpen_sector ha
  exact ⟨_, a, i, Prod.ext rfl ha, hi, hs⟩

theorem remove_refines (h : Represents slots m) (t : Table) :
    Represents (dirRemove slots t name (fun _ => true) true true).1
        (DirCall.spec m (.remove name (fun _ => true) true true)).1 ∧
      DirReply.removed (dirRemove slots t name (fun _ => true) true true).2.2 =
        (DirCall.spec m (.remove name (fun _ => true) true true)).2 := by
  cases hl : lookup slots name (fun _ => true) with
  | none =>
    have hm : name ∉ m.map := h.mem_iff.not.mp (lookupFrom_eq_none hl)
    simp only [dirRemove, hl, DirCall.spec, if_neg hm]
    exact ⟨h, trivial⟩
  | some p =>
    obtain ⟨e, k⟩ := p
    have hm := h.mem_iff.mp (mem_of_lookup hl)
    obtain ⟨A, B, rfl, rfl, hA, hu, hn⟩ := lookupFrom_eq_some hl
    obtain ⟨t1, a, -, ho, -⟩ := inodeOpen_true t e.inodeSector
    have hw : writeSlot (A ++ e :: B) (0 + A.length) { e with inUse := false } true =
        (A ++ { e with inUse := false } :: B, true) := by
      simp [writeSlot]
    simp only [dirRemove, hl, ho, hw, if_true, DirCall.spec, if_pos hm]
    refine ⟨⟨?_, by simpa using h.2⟩, trivial⟩
    have hperm := h.1.kerase (a := name) h.nodupKeys
    rw [entries_append, List.kerase_append_right hA, entries_used hu,
      List.kerase_cons_eq hn.symm] at hperm
    rw [entries_append, entries_free rfl]
    exact hperm

theorem lookup_refines (h : Represents slots m) (t : Table) :
    DirReply.found ((dirLookup slots t name (fun _ => true) true).2.bind fun a =>
        ((dirLookup slots t name (fun _ => true) true).1.inodes a).map (·.sector)) =
      (DirCall.spec m (.lookup name (fun _ => true) true)).2 := by
  simp only [DirCall.spec, h.lookup_eq]
  cases hl : lookup slots name (fun _ => true) with
  | none =>
    simp only [dirLookup, hl, Option.bind_none]
    rw [List.dlookup_eq_none.mpr (lookupFrom_eq_none hl)]
  | some p =>
    obtain ⟨e, k⟩ := p
    obtain ⟨A, B, rfl, -, hA, hu, hn⟩ := lookupFrom_eq_some hl
    obtain ⟨t1, a, i, ho, hi, hs⟩ := inodeOpen_true t e.inodeSector
    simp only [dirLookup, hl, ho, Option.bind_some, hi, Option.map_some, hs]
    rw [entries_append, entries_used hu, List.dlookup_append, List.dlookup_eq_none.mpr hA,
      hn, List.dlookup_cons_eq, Option.none_or]

/-- A call whose allocations all succeed acts on the map as the map's call does. -/
theorem DirCall.run_refines {d : DirState} (c : DirCall) (hv : c.Valid)
    (h : Represents d.slots m) : Represents (c.run d).1.slots (c.spec m).1 ∧ (c.run d).2 = (c.spec m).2 := by
  cases c with
  | add name s okLookup okScan okWrite =>
    obtain ⟨hl, hs, rfl⟩ := hv
    obtain rfl : okLookup = fun _ => true := funext hl
    obtain rfl : okScan = fun _ => true := funext hs
    exact add_refines h s
  | remove name okLookup mallocOk okWrite =>
    obtain ⟨hl, rfl, rfl⟩ := hv
    obtain rfl : okLookup = fun _ => true := funext hl
    exact remove_refines h d.table
  | lookup name okLookup mallocOk =>
    obtain ⟨hl, rfl⟩ := hv
    obtain rfl : okLookup = fun _ => true := funext hl
    exact ⟨h, lookup_refines h d.table⟩

/-- `fsutil_ls` lists the names in use from `pos` on, in the order of the file, when it may call
`dir_readdir` once more than there are entries left. -/
theorem readdirAll_true (slots : List DirEntry) :
    ∀ (fuel pos : Nat), (slots.drop pos).length < fuel →
      readdirAll slots (fun _ => true) fuel pos = (entries (slots.drop pos)).keys
  | 0, _, hf => absurd hf (Nat.not_lt_zero _)
  | fuel + 1, pos, hf => by
    rcases readdirFrom_true pos (slots.drop pos) with ⟨A, x, B, hd, hA, hx, hr⟩ | ⟨hnone, hr⟩
    · have hdrop : slots.drop (pos + A.length + 1) = B := by
        rw [Nat.add_assoc, ← List.drop_drop, hd]
        simp
      have hB : B.length < fuel := by
        have := congrArg List.length hd
        simp only [List.length_append, List.length_cons] at this
        omega
      simp only [readdirAll, dirReaddir, hr]
      rw [readdirAll_true slots fuel _ (by rw [hdrop]; exact hB), hdrop, hd, entries_append, hA,
        entries_used hx]
      rfl
    · simp only [readdirAll, dirReaddir, hr, hnone]
      rfl

end Refines

section Remove

/-- The inode at `a`, which was `i`, is marked removed in `t'`; or it was closed for good and its
sectors went to the free map, on top of what `t` had handed back. -/
def MarkedRemoved (t t' : Table) (a : Nat) (i : Inode) : Prop :=
  (t'.inodes a).map (·.removed) = some true ∨
    t'.inodes a = none ∧
      t'.released = (i.data.start, bytesToSectors i.data.length) :: (i.sector, 1) :: t.released

theorem removeClose_marked {t : Table} {a : Nat} {i : Inode} (hi : t.inodes a = some i) :
    MarkedRemoved t ((t.inodeRemove a).inodeClose a) a i := by
  have hr := Table.inodeRemove_self hi
  by_cases hl : i.openCnt - 1 = 0
  · right
    refine ⟨Table.inodeClose_self hr hl, ?_⟩
    rw [Table.inodeClose_released hr, if_pos ⟨hl, rfl⟩, Table.inodeRemove_released]
  · left
    rw [Table.inodeClose_other hr hl]
    rfl

/-- A `dir_remove` that succeeds has found the entry, opened its inode, marked it removed and
closed it again. -/
theorem dirRemove_marks_removed (slots : List DirEntry) (t : Table) (name : List Char)
    (okLookup : Nat → Bool) (mallocOk okWrite : Bool)
    (hs : (dirRemove slots t name okLookup mallocOk okWrite).2.2 = true) :
    ∃ e k a i, lookup slots name okLookup = some (e, k) ∧
      (t.inodeOpen e.inodeSector mallocOk).2 = some a ∧
      (t.inodeOpen e.inodeSector mallocOk).1.inodes a = some i ∧ i.sector = e.inodeSector ∧
      MarkedRemoved t (dirRemove slots t name okLookup mallocOk okWrite).2.1 a i := by
  cases hl : lookup slots name okLookup with
  | none => simp [dirRemove, hl] at hs
  | some p =>
    obtain ⟨e, k⟩ := p
    cases ho : t.inodeOpen e.inodeSector mallocOk with
    | mk t1 oa =>
      cases oa with
      | none => simp [dirRemove, hl, ho] at hs
      | some a =>
        have ha : (t.inodeOpen e.inodeSector mallocOk).2 = some a := by rw [ho]
        obtain ⟨i, hi, hsec⟩ := Table.inodeOpen_sector ha
        have hi1 : t1.inodes a = some i := by
          rw [ho] at hi
          exact hi
        have hrel : t1.released = t.released := by
          rw [← Table.inodeOpen_released (t := t) e.inodeSector mallocOk, ho]
        simp only [dirRemove, hl, ho] at hs ⊢
        split at hs
        · rw [if_pos ‹_›]
          refine ⟨e, k, a, i, rfl, ha, hi, hsec, ?_⟩
          have := removeClose_marked hi1
          unfold MarkedRemoved at this ⊢
          rw [← hrel]
          exact this
        · cases hs

end Remove

section Map

/-- Over every run of calls whose allocations all succeed, from a directory that stands for a
map, each call answers as the map's call does and the directory stands for the map after the
run: no two entries in use share a name, and `fsutil_ls` lists each name of the map once. A
`dir_remove` that succeeds has marked the entry's inode removed. -/
theorem directory_refines_map (d : DirState) (m : DirSpec) (calls : List DirCall)
    (h : Represents d.slots m) (hv : ∀ c ∈ calls, c.Valid) :
    (replay DirCall.run d calls).2 = (replay DirCall.spec m calls).2 ∧
      Represents (replay DirCall.run d calls).1.slots (replay DirCall.spec m calls).1 ∧
      (entries (replay DirCall.run d calls).1.slots).NodupKeys ∧
      (readdirAll (replay DirCall.run d calls).1.slots (fun _ => true)
          ((replay DirCall.run d calls).1.slots.length + 1) 0).Perm
        (replay DirCall.spec m calls).1.map.keys ∧
      ∀ slots t name okLookup mallocOk okWrite,
        (dirRemove slots t name okLookup mallocOk okWrite).2.2 = true →
        ∃ e k a i, lookup slots name okLookup = some (e, k) ∧
          (t.inodeOpen e.inodeSector mallocOk).2 = some a ∧
          (t.inodeOpen e.inodeSector mallocOk).1.inodes a = some i ∧ i.sector = e.inodeSector ∧
          MarkedRemoved t (dirRemove slots t name okLookup mallocOk okWrite).2.1 a i := by
  obtain ⟨hR, hreplies⟩ := replay_sim (R := fun d m => Represents d.slots m)
    (fun _ _ c h (hv : c.Valid) => DirCall.run_refines c hv h) d m calls h hv
  refine ⟨hreplies, hR, hR.nodupKeys, ?_, dirRemove_marks_removed⟩
  rw [readdirAll_true _ _ 0 (by simp), List.drop_zero]
  exact hR.1.map Sigma.fst

/-- When the `malloc` of the bounce buffer fails for the read of entry 0 in the free-slot loop,
`dir_add` takes entry 0, which is in use, for a free slot and writes over it: `b` is added and
`a` is lost. -/
theorem dir_add_overwrites_live_entry :
    dirAdd [⟨10, ['a'], true⟩, ⟨0, [], false⟩] ['b'] 11 (fun _ => true) (fun k => k != 0) true =
      ([⟨11, ['b'], true⟩, ⟨0, [], false⟩], true) := by
  decide

end Map

end Pintos.Filesys
