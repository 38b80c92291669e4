import Pintos.Lib.Bits
import Pintos.Userprog.Dispatch

/-! The two-level page tables of pagedir.c, over the address and entry layout of vaddr.h and
pte.h. `Words` holds the 32-bit words of the pages the tables use: a `uint32_t *` into a page is
the page's kernel address and an index. -/
namespace Pintos.Userprog

open Pintos.Lib Pintos.Kit

def pgBits : UInt32 := 12

/-- `PGMASK`, `BITMASK (PGSHIFT, PGBITS)`. -/
def pgMask : UInt32 := ((1 <<< pgBits) - 1) <<< 0

def ptShift : UInt32 := pgBits

def ptBits : UInt32 := 10

/-- `PTMASK`, `BITMASK (PTSHIFT, PTBITS)`. -/
def ptMask : UInt32 := ((1 <<< ptBits) - 1) <<< ptShift

def pdShift : UInt32 := ptShift + ptBits

def pteAddr : UInt32 := 0xfffff000
def pteP : UInt32 := 0x1
def pteW : UInt32 := 0x2
def pteU : UInt32 := 0x4
def pteA : UInt32 := 0x20
def pteD : UInt32 := 0x40

def pgOfs (va : UInt32) : UInt32 := va &&& pgMask

def pgRoundDown (va : UInt32) : UInt32 := va &&& ~~~pgMask

def ptNo (va : UInt32) : UInt32 := (va &&& ptMask) >>> ptShift

def pdNo (va : UInt32) : UInt32 := va >>> pdShift

def ptov (paddr : UInt32) : UInt32 := paddr + physBase

def vtop (vaddr : UInt32) : UInt32 := vaddr - physBase

def pdeCreate (pt : UInt32) : UInt32 := vtop pt ||| pteU ||| pteP ||| pteW

def pdeGetPt (pde : UInt32) : UInt32 := ptov (pde &&& pteAddr)

def pteCreateKernel (page : UInt32) (writable : Bool) : UInt32 :=
  vtop page ||| pteP ||| (if writable then pteW else 0)

def pteCreateUser (page : UInt32) (writable : Bool) : UInt32 := pteCreateKernel page writable ||| pteU

def pteGetPage (pte : UInt32) : UInt32 := ptov (pte &&& pteAddr)

/-- The words of the pages that hold page directories and page tables, by page and index. -/
abbrev Words := UInt32 × UInt32 → UInt32

/-- `palloc_get_page (PAL_ZERO)` handed out `pt`. -/
def zeroPage (mem : Words) (pt : UInt32) : Words := fun p => if p.1 = pt then 0 else mem p

/-- `lookup_page`: the memory after it and the page table entry it points to; `none` is a null
pointer. `alloc` is what `palloc_get_page` returns when a page table has to be made. -/
def lookupPage (mem : Words) (pd va : UInt32) (create : Bool) (alloc : Option UInt32) :
    Option (Words × (UInt32 × UInt32)) :=
  if mem (pd, pdNo va) = 0 then
    if create then
      match alloc with
      | none => none
      | some pt =>
        some (Function.update (zeroPage mem pt) (pd, pdNo va) (pdeCreate pt),
          (pdeGetPt (pdeCreate pt), ptNo va))
    else none
  else some (mem, (pdeGetPt (mem (pd, pdNo va)), ptNo va))

/-- `pagedir_create`: the page `palloc_get_page` returned, with the 1024 entries of
`init_page_dir` copied in. -/
def pagedirCreate (mem : Words) (initPageDir : UInt32) (alloc : Option UInt32) :
    Option (Words × UInt32) :=
  alloc.map fun pd =>
    (fun p => if p.1 = pd ∧ p.2.toNat < 1024 then mem (initPageDir, p.2) else mem p, pd)

/-- `pagedir_set_page`: the memory after it and whether it succeeded; `none` when an `ASSERT`
fails. -/
def pagedirSetPage (initRamPages initPageDir : UInt32) (mem : Words) (pd upage kpage : UInt32)
    (writable : Bool) (alloc : Option UInt32) : Option (Words × Bool) :=
  if pgOfs upage = 0 ∧ pgOfs kpage = 0 ∧ isUserVaddr upage ∧ physBase ≤ kpage ∧
      vtop kpage >>> ptShift < initRamPages ∧ pd ≠ initPageDir then
    match lookupPage mem pd upage true alloc with
    | some (mem', pte) =>
      if mem' pte &&& pteP = 0 then some (Function.update mem' pte (pteCreateUser kpage writable), true)
      else none
    | none => some (mem, false)
  else none

/-- `pagedir_get_page`; the outer `none` is a failed `ASSERT`, the inner one a null pointer. -/
def pagedirGetPage (mem : Words) (pd uaddr : UInt32) : Option (Option UInt32) :=
  if isUserVaddr uaddr then
    match lookupPage mem pd uaddr false none with
    | some (_, pte) =>
      if mem pte &&& pteP ≠ 0 then some (some (pteGetPage (mem pte) + pgOfs uaddr)) else some none
    | none => some none
  else none

/-- `pagedir_clear_page`; `none` when an `ASSERT` fails. -/
def pagedirClearPage (mem : Words) (pd upage : UInt32) : Option Words :=
  if pgOfs upage = 0 ∧ isUserVaddr upage then
    match lookupPage mem pd upage false none with
    | some (_, pte) =>
      if mem pte &&& pteP ≠ 0 then some (Function.update mem pte (mem pte &&& ~~~pteP))
      else some mem
    | none => some mem
  else none

/-- `pagedir_set_dirty` and `pagedir_set_accessed`: set or clear the `flag` bit of the entry. -/
def setFlag (flag : UInt32) (mem : Words) (pd vpage : UInt32) (value : Bool) : Words :=
  match lookupPage mem pd vpage false none with
  | some (_, pte) =>
    if value then Function.update mem pte (mem pte ||| flag)
    else Function.update mem pte (mem pte &&& ~~~flag)
  | none => mem

def pagedirSetDirty (mem : Words) (pd vpage : UInt32) (dirty : Bool) : Words :=
  setFlag pteD mem pd vpage dirty

def pagedirSetAccessed (mem : Words) (pd vpage : UInt32) (accessed : Bool) : Words :=
  setFlag pteA mem pd vpage accessed

/-- What the processor makes of a user access to `va`: the frame and whether it may write, or a
page fault. Both levels must be present and allow user access, and both must allow writes. -/
def translate (mem : Words) (pd va : UInt32) : Option (UInt32 × Bool) :=
  if mem (pd, pdNo va) &&& pteP ≠ 0 ∧ mem (pd, pdNo va) &&& pteU ≠ 0 ∧
      mem (pdeGetPt (mem (pd, pdNo va)), ptNo va) &&& pteP ≠ 0 ∧
      mem (pdeGetPt (mem (pd, pdNo va)), ptNo va) &&& pteU ≠ 0 then
    some (pteGetPage (mem (pdeGetPt (mem (pd, pdNo va)), ptNo va)),
      mem (pd, pdNo va) &&& pteW != 0 && mem (pdeGetPt (mem (pd, pdNo va)), ptNo va) &&& pteW != 0)
  else none

section Layout

variable {va va' pt x : UInt32}

theorem physBase_toNat : physBase.toNat = 3221225472 := rfl

theorem pdNo_toNat (va : UInt32) : (pdNo va).toNat = va.toNat / 4194304 := by
  simp only [pdNo, UInt32.toNat_shiftRight, Nat.shiftRight_eq_div_pow]
  rfl

theorem ptNo_toNat (va : UInt32) : (ptNo va).toNat = va.toNat / 4096 % 1024 := by
  simp only [ptNo, UInt32.toNat_shiftRight, UInt32.toNat_and, Nat.shiftRight_eq_div_pow]
  have hm : (ptMask.toNat : Nat) / 2 ^ 12 = 2 ^ 10 - 1 := by decide
  have hs : ptShift.toNat % 32 = 12 := by decide
  rw [hs, Nat.and_div_two_pow, hm, Nat.and_two_pow_sub_one_eq_mod]

theorem pgOfs_toNat (va : UInt32) : (pgOfs va).toNat = va.toNat % 4096 := by
  simp only [pgOfs, UInt32.toNat_and]
  have hm : pgMask.toNat = 2 ^ 12 - 1 := by decide
  rw [hm, Nat.and_two_pow_sub_one_eq_mod]

theorem pgRoundDown_toNat (va : UInt32) : (pgRoundDown va).toNat = va.toNat / 4096 * 4096 := by
  simp only [pgRoundDown, UInt32.toNat_and]
  exact Bits.and_high (n := 12) (j := 20) va.toNat_lt (by decide) (by decide)

theorem pgRoundDown_eq_iff : pgRoundDown va = pgRoundDown va' ↔ pdNo va = pdNo va' ∧ ptNo va = ptNo va' := by
  rw [← UInt32.toNat_inj, ← UInt32.toNat_inj, ← UInt32.toNat_inj, pgRoundDown_toNat,
    pgRoundDown_toNat, pdNo_toNat, pdNo_toNat, ptNo_toNat, ptNo_toNat]
  have := va.toNat_lt
  have := va'.toNat_lt
  omega

theorem pdNo_lt (va : UInt32) : (pdNo va).toNat < 1024 := by
  rw [pdNo_toNat]
  have := va.toNat_lt
  omega

theorem isUserVaddr_iff_pdNo : isUserVaddr va = true ↔ (pdNo va).toNat < 768 := by
  rw [isUserVaddr_iff, physBase_toNat, pdNo_toNat]
  omega

/-- A page of the kernel's mapping of RAM: where page tables live. -/
def Page (pt : UInt32) : Prop := physBase ≤ pt ∧ pgOfs pt = 0

instance (pt : UInt32) : Decidable (Page pt) := inferInstanceAs (Decidable (_ ∧ _))

theorem vtop_toNat (h : physBase ≤ x) : (vtop x).toNat = x.toNat - 3221225472 := by
  rw [vtop, UInt32.toNat_sub_of_le _ _ h, physBase_toNat]

theorem vtop_mod (h : Page pt) : (vtop pt).toNat % 4096 = 0 := by
  have h0 := (pgOfs_toNat pt).symm.trans (congrArg UInt32.toNat h.2)
  have hle := UInt32.le_iff_toNat_le.mp h.1
  rw [vtop_toNat h.1]
  rw [physBase_toNat] at hle
  simp only [UInt32.toNat_zero] at h0
  omega

theorem ptov_vtop (x : UInt32) : ptov (vtop x) = x := UInt32.sub_add_cancel x physBase

theorem addr_of_flags {v f : UInt32} (hv : v.toNat % 4096 = 0) (hf : f.toNat < 4096) :
    (v ||| f) &&& pteAddr = v := by
  apply UInt32.toNat_inj.mp
  simp only [UInt32.toNat_and, UInt32.toNat_or]
  exact Bits.or_and_high (n := 12) (j := 20) v.toNat_lt hv hf (by decide) (by decide)

theorem flags_of_flags {v f c : UInt32} (hv : v.toNat % 4096 = 0) (hc : c.toNat < 4096) :
    (v ||| f) &&& c = f &&& c := by
  rw [Bits.or_and32]
  have : v &&& c = 0 := by
    apply UInt32.toNat_inj.mp
    simp only [UInt32.toNat_and, UInt32.toNat_zero]
    exact Bits.and_eq_zero_of_mod (n := 12) hv hc
  rw [this, UInt32.zero_or]

theorem pdeCreate_eq (pt : UInt32) : pdeCreate pt = vtop pt ||| 7 := by
  simp only [pdeCreate, UInt32.or_assoc]
  rfl

theorem pdeGetPt_pdeCreate (h : Page pt) : pdeGetPt (pdeCreate pt) = pt := by
  rw [pdeGetPt, pdeCreate_eq, addr_of_flags (vtop_mod h) (by decide), ptov_vtop]

theorem pdeCreate_and (h : Page pt) {c : UInt32} (hc : c.toNat < 4096) :
    pdeCreate pt &&& c = 7 &&& c := by
  rw [pdeCreate_eq, flags_of_flags (vtop_mod h) hc]

theorem pdeCreate_ne_zero (h : Page pt) : pdeCreate pt ≠ 0 := by
  intro h0
  have := pdeCreate_and h (c := pteP) (by decide)
  rw [h0, UInt32.zero_and] at this
  exact absurd this (by decide)

theorem pteCreateUser_eq (page : UInt32) (writable : Bool) :
    pteCreateUser page writable = vtop page ||| (if writable then 7 else 5) := by
  cases writable <;> simp only [pteCreateUser, pteCreateKernel, UInt32.or_assoc, if_true,
    Bool.false_eq_true, if_false] <;> rfl

theorem pteCreateUser_and (h : Page pt) (writable : Bool) {c : UInt32} (hc : c.toNat < 4096) :
    pteCreateUser pt writable &&& c = (if writable then 7 else 5) &&& c := by
  rw [pteCreateUser_eq, flags_of_flags (vtop_mod h) hc]

theorem pteGetPage_pteCreateUser (h : Page pt) (writable : Bool) :
    pteGetPage (pteCreateUser pt writable) = pt := by
  rw [pteGetPage, pteCreateUser_eq, addr_of_flags (vtop_mod h) (by cases writable <;> decide),
    ptov_vtop]

theorem pgRoundDown_self (h : pgOfs va = 0) : pgRoundDown va = va := by
  apply UInt32.toNat_inj.mp
  have h0 := (pgOfs_toNat va).symm.trans (congrArg UInt32.toNat h)
  rw [UInt32.toNat_zero] at h0
  rw [pgRoundDown_toNat]
  omega

theorem pdNo_ne_of_user (hu : isUserVaddr va = true) (hk : isUserVaddr va' = false) : pdNo va' ≠ pdNo va := by
  intro h
  have h1 := isUserVaddr_iff_pdNo.mp hu
  rw [← h, ← isUserVaddr_iff_pdNo, hk] at h1
  cases h1

end Layout

section Map

variable {mem : Words} {pd va u pt p k : UInt32} {c : UInt32 × UInt32} {v : UInt32}

/-- The page table entry for `va`, which `lookup_page` without `create` points to when the
directory entry is not 0. -/
def pteOf (mem : Words) (pd va : UInt32) : Option UInt32 :=
  if mem (pd, pdNo va) = 0 then none else some (mem (pdeGetPt (mem (pd, pdNo va)), ptNo va))

/-- What the processor reads of an entry that is present: the frame, and whether the entry
allows writes and user access. -/
def view (pte : UInt32) : Option (UInt32 × Bool × Bool) :=
  if pte &&& pteP = 0 then none else some (pteGetPage pte, pte &&& pteW != 0, pte &&& pteU != 0)

/-- What the walk of `pd` for `va` reads. -/
def present (mem : Words) (pd va : UInt32) : Option (UInt32 × Bool × Bool) :=
  (pteOf mem pd va).bind view

theorem view_congr {x x' : UInt32} (hP : x' &&& pteP = x &&& pteP) (hW : x' &&& pteW = x &&& pteW)
    (hU : x' &&& pteU = x &&& pteU) (hA : x' &&& pteAddr = x &&& pteAddr) : view x' = view x := by
  simp only [view, pteGetPage, hP, hW, hU, hA]

theorem view_setFlag (x : UInt32) {flag : UInt32} (hflag : flag = pteA ∨ flag = pteD) (value : Bool) :
    view (if value then x ||| flag else x &&& ~~~flag) = view x := by
  rcases hflag with rfl | rfl <;> cases value
  all_goals
    simp only [Bool.false_eq_true, if_false, if_true]
    first
    | exact view_congr (Bits.or_flag_and x (by decide)) (Bits.or_flag_and x (by decide))
        (Bits.or_flag_and x (by decide)) (Bits.or_flag_and x (by decide))
    | exact view_congr (Bits.clear_flag_and x (by decide)) (Bits.clear_flag_and x (by decide))
        (Bits.clear_flag_and x (by decide)) (Bits.clear_flag_and x (by decide))

theorem view_clearPresent (x : UInt32) : view (x &&& ~~~pteP) = none := by
  have h : (x &&& ~~~pteP) &&& pteP = 0 := by
    rw [UInt32.and_assoc, show ~~~pteP &&& pteP = 0 by decide, UInt32.and_zero]
  simp only [view, h, if_true]

theorem view_of_absent {x : UInt32} (h : x &&& pteP = 0) : view x = none := by
  simp only [view, h, if_true]

theorem view_pteCreateUser (h : Page pt) (writable : Bool) :
    view (pteCreateUser pt writable) = some (pt, writable, true) := by
  have hP := pteCreateUser_and h writable (c := pteP) (by decide)
  have hW := pteCreateUser_and h writable (c := pteW) (by decide)
  have hU := pteCreateUser_and h writable (c := pteU) (by decide)
  rw [view, hP, hW, hU, pteGetPage_pteCreateUser h]
  cases writable <;> rfl

theorem lookupPage_false (alloc : Option UInt32) :
    lookupPage mem pd va false alloc =
      (pteOf mem pd va).map fun _ => (mem, (pdeGetPt (mem (pd, pdNo va)), ptNo va)) := by
  unfold lookupPage pteOf
  split <;> rfl

theorem pagedirGetPage_eq (hu : isUserVaddr va = true) :
    pagedirGetPage mem pd va = some ((present mem pd va).map fun e => e.1 + pgOfs va) := by
  unfold pagedirGetPage present
  rw [if_pos hu, lookupPage_false]
  unfold pteOf
  by_cases h0 : mem (pd, pdNo va) = 0
  · simp [h0]
  · by_cases hp : mem (pdeGetPt (mem (pd, pdNo va)), ptNo va) &&& pteP = 0 <;> simp [h0, hp, view]

theorem pteOf_of_index (h : pdNo va = pdNo u) (h' : ptNo va = ptNo u) : pteOf mem pd va = pteOf mem pd u := by
  unfold pteOf
  rw [h, h']

theorem update_dir (hp : p ≠ pd) (k' : UInt32) : Function.update mem (p, k) v (pd, k') = mem (pd, k') :=
  Function.update_of_ne (fun h => hp (Prod.mk.inj h).1.symm) v mem

/-- A write to a word outside the directory changes the entry of exactly the addresses whose
walk ends at that word. -/
theorem pteOf_update_table (hp : p ≠ pd) :
    pteOf (Function.update mem (p, k) v) pd va =
      if mem (pd, pdNo va) ≠ 0 ∧ (p, k) = (pdeGetPt (mem (pd, pdNo va)), ptNo va) then some v
      else pteOf mem pd va := by
  unfold pteOf
  rw [update_dir hp]
  by_cases h0 : mem (pd, pdNo va) = 0
  · simp [h0]
  · by_cases hcell : (p, k) = (pdeGetPt (mem (pd, pdNo va)), ptNo va)
    · simp [h0, hcell]
    · simp [h0, hcell, Function.update_of_ne (Ne.symm hcell)]

theorem pteOf_of_zero (h : mem (pd, pdNo va) = 0) : pteOf mem pd va = none := if_pos h

/-- A write to a word outside the directory that the processor reads as it read the old word
leaves every walk reading what it read. -/
theorem present_update_same (hp : p ≠ pd) (hv : view v = view (mem (p, k))) :
    present (Function.update mem (p, k) v) pd va = present mem pd va := by
  unfold present
  rw [pteOf_update_table hp]
  split_ifs with h
  · have hpte : pteOf mem pd va = some (mem (p, k)) := by
      unfold pteOf
      rw [if_neg h.1, h.2]
    rw [hpte]
    exact hv
  · rfl

theorem zeroPage_dir (hpt : pt ≠ pd) (k : UInt32) : zeroPage mem pt (pd, k) = mem (pd, k) :=
  if_neg (Ne.symm hpt)

theorem zeroPage_self (k : UInt32) : zeroPage mem pt (pt, k) = 0 := if_pos rfl

theorem pteOf_zeroPage (hpt : pt ≠ pd) :
    pteOf (zeroPage mem pt) pd va =
      if mem (pd, pdNo va) ≠ 0 ∧ pdeGetPt (mem (pd, pdNo va)) = pt then some 0 else pteOf mem pd va := by
  unfold pteOf
  rw [zeroPage_dir hpt]
  by_cases h0 : mem (pd, pdNo va) = 0
  · simp [h0]
  · by_cases ht : pdeGetPt (mem (pd, pdNo va)) = pt <;> simp [h0, ht, zeroPage]

/-- A write to the directory entry of `u` changes the entries of exactly the addresses of that
slot, to those its new page table holds. -/
theorem pteOf_update_dir (hv : pdeGetPt v ≠ pd)
    (hself : mem (pd, pdNo va) ≠ 0 → pdeGetPt (mem (pd, pdNo va)) ≠ pd) :
    pteOf (Function.update mem (pd, pdNo u) v) pd va =
      if pdNo va = pdNo u then (if v = 0 then none else some (mem (pdeGetPt v, ptNo va)))
      else pteOf mem pd va := by
  unfold pteOf
  by_cases hk : pdNo va = pdNo u
  · have hcell : (pdeGetPt v, ptNo va) ≠ (pd, pdNo u) := fun h => hv (Prod.mk.inj h).1
    simp [hk, Function.update_of_ne hcell]
  · have hdir : (pd, pdNo va) ≠ (pd, pdNo u) := fun h => hk (Prod.mk.inj h).2
    rw [Function.update_of_ne hdir, if_neg hk]
    split_ifs with h0
    · rfl
    · have hcell : (pdeGetPt (mem (pd, pdNo va)), ptNo va) ≠ (pd, pdNo u) :=
        fun h => hself h0 (Prod.mk.inj h).1
      rw [Function.update_of_ne hcell]

/-- `lookup_page` with `create`: it returns the entry of the page table already there, or puts
the page `palloc_get_page` handed out into the directory as a new page table. -/
theorem lookupPage_true {alloc : Option UInt32} {mem1 : Words}
    (h : lookupPage mem pd u true alloc = some (mem1, c)) :
    (mem (pd, pdNo u) ≠ 0 ∧ mem1 = mem ∧ c = (pdeGetPt (mem (pd, pdNo u)), ptNo u)) ∨
      (mem (pd, pdNo u) = 0 ∧ ∃ pt, alloc = some pt ∧
        mem1 = Function.update (zeroPage mem pt) (pd, pdNo u) (pdeCreate pt) ∧
          c = (pdeGetPt (pdeCreate pt), ptNo u)) := by
  unfold lookupPage at h
  by_cases h0 : mem (pd, pdNo u) = 0
  · rw [if_pos h0, if_pos rfl] at h
    cases alloc with
    | none => cases h
    | some pt =>
      cases h
      exact Or.inr ⟨h0, pt, rfl, rfl, rfl⟩
  · rw [if_neg h0] at h
    cases h
    exact Or.inl ⟨h0, rfl, rfl⟩

theorem lookupPage_true_eq_none {alloc : Option UInt32} (h : lookupPage mem pd u true alloc = none) :
    mem (pd, pdNo u) = 0 ∧ alloc = none := by
  unfold lookupPage at h
  by_cases h0 : mem (pd, pdNo u) = 0
  · rw [if_pos h0, if_pos rfl] at h
    cases alloc with
    | none => exact ⟨h0, rfl⟩
    | some pt => cases h
  · rw [if_neg h0] at h
    cases h

variable {initRamPages initPageDir kpage : UInt32} {writable ok : Bool} {alloc : Option UInt32}
  {mem' : Words}

theorem pagedirSetPage_eq_some
    (h : pagedirSetPage initRamPages initPageDir mem pd u kpage writable alloc = some (mem', ok)) :
    pgOfs u = 0 ∧ isUserVaddr u = true ∧ Page kpage ∧
      (ok = false ∧ mem' = mem ∧ lookupPage mem pd u true alloc = none ∨
        ok = true ∧ ∃ mem1 c, lookupPage mem pd u true alloc = some (mem1, c) ∧
          mem1 c &&& pteP = 0 ∧ mem' = Function.update mem1 c (pteCreateUser kpage writable)) := by
  unfold pagedirSetPage at h
  split_ifs at h with ha
  obtain ⟨hup, hkp, huser, hk, -, -⟩ := ha
  refine ⟨hup, huser, ⟨hk, hkp⟩, ?_⟩
  split at h
  · rename_i mem1 c hl
    split_ifs at h with hp
    cases h
    exact Or.inr ⟨rfl, mem1, c, hl, hp, rfl⟩
  · rename_i hl
    cases h
    exact Or.inl ⟨rfl, rfl, hl⟩

/-- `pagedir_set_page` returns false only when the slot had no page table and none could be
allocated, and then it has written nothing. -/
theorem pagedirSetPage_false
    (h : pagedirSetPage initRamPages initPageDir mem pd u kpage writable alloc = some (mem', false)) :
    alloc = none ∧ mem (pd, pdNo u) = 0 ∧ mem' = mem := by
  obtain ⟨-, -, -, ⟨-, hm, hl⟩ | ⟨hf, -⟩⟩ := pagedirSetPage_eq_some h
  · exact ⟨(lookupPage_true_eq_none hl).2, (lookupPage_true_eq_none hl).1, hm⟩
  · cases hf

theorem setFlag_eq (flag : UInt32) (vpage : UInt32) (value : Bool) :
    setFlag flag mem pd vpage value =
      if mem (pd, pdNo vpage) = 0 then mem
      else Function.update mem (pdeGetPt (mem (pd, pdNo vpage)), ptNo vpage)
        (if value then mem (pdeGetPt (mem (pd, pdNo vpage)), ptNo vpage) ||| flag
        else mem (pdeGetPt (mem (pd, pdNo vpage)), ptNo vpage) &&& ~~~flag) := by
  unfold setFlag
  rw [lookupPage_false]
  unfold pteOf
  by_cases h0 : mem (pd, pdNo vpage) = 0
  · rw [if_pos h0, if_pos h0]
    rfl
  · rw [if_neg h0, if_neg h0, Option.map_some]
    cases value
    · exact if_neg Bool.false_ne_true
    · exact if_pos rfl

theorem translate_of_zero (h : mem (pd, pdNo va) = 0) : translate mem pd va = none := by
  unfold translate
  rw [if_neg (by rw [h]; exact fun h' => h'.1 (by decide))]

/-- Under a directory entry made by `pde_create`, the processor's translation is what the walk
reads, when the entry allows user access. -/
theorem translate_of_table (h : mem (pd, pdNo va) = pdeCreate pt) (hpt : Page pt) :
    translate mem pd va =
      (view (mem (pt, ptNo va))).bind fun e => if e.2.2 then some (e.1, e.2.1) else none := by
  have hP : pdeCreate pt &&& pteP ≠ 0 := by
    rw [pdeCreate_and hpt (by decide)]
    decide
  have hU : pdeCreate pt &&& pteU ≠ 0 := by
    rw [pdeCreate_and hpt (by decide)]
    decide
  have hW : (pdeCreate pt &&& pteW != 0) = true := by
    rw [pdeCreate_and hpt (by decide)]
    rfl
  unfold translate view
  rw [h, pdeGetPt_pdeCreate hpt, hW, Bool.true_and]
  by_cases hx : mem (pt, ptNo va) &&& pteP = 0
  · simp [hx]
  · by_cases hxu : mem (pt, ptNo va) &&& pteU = 0 <;> simp [hx, hxu, hP, hU]

end Map

/-- The shape of a page directory: each user entry is 0 or points to a page table in RAM, no
entry points back to the directory, and the page table of a user entry is no other entry's. -/
structure Dir (mem : Words) (pd : UInt32) : Prop where
  tables : ∀ va, isUserVaddr va = true →
    mem (pd, pdNo va) = 0 ∨ ∃ pt, mem (pd, pdNo va) = pdeCreate pt ∧ Page pt
  noSelf : ∀ va, mem (pd, pdNo va) ≠ 0 → pdeGetPt (mem (pd, pdNo va)) ≠ pd
  distinct : ∀ va va', isUserVaddr va = true → pdNo va' ≠ pdNo va → mem (pd, pdNo va) ≠ 0 →
    mem (pd, pdNo va') ≠ 0 → pdeGetPt (mem (pd, pdNo va')) ≠ pdeGetPt (mem (pd, pdNo va))

/-- What a call did to the tables: the directory keeps its shape, the walk reads `e` on the page
of `u` and what it read before everywhere else, and nothing outside the slot of `u` changed. -/
structure Edit (mem mem' : Words) (pd u : UInt32) (e : Option (UInt32 × Bool × Bool)) : Prop where
  dir : Dir mem' pd
  present : ∀ va, present mem' pd va = if pgRoundDown va = pgRoundDown u then e else present mem pd va
  slot : ∀ va, pdNo va ≠ pdNo u →
    mem' (pd, pdNo va) = mem (pd, pdNo va) ∧ pteOf mem' pd va = pteOf mem pd va

namespace Dir

variable {mem mem' : Words} {pd u va pt v : UInt32}

theorem congr (d : Dir mem pd) (h : ∀ k, mem' (pd, k) = mem (pd, k)) : Dir mem' pd where
  tables va hu := by
    rw [h]
    exact d.tables va hu
  noSelf va := by
    rw [h]
    exact d.noSelf va
  distinct va va' hu hne := by
    rw [h, h]
    exact d.distinct va va' hu hne

theorem edit_self (d : Dir mem pd) (he : present mem pd u = e) : Edit mem mem pd u e where
  dir := d
  present va := by
    split_ifs with hp
    · rw [← he]
      obtain ⟨h1, h2⟩ := pgRoundDown_eq_iff.mp hp
      unfold present
      rw [pteOf_of_index h1 h2]
    · rfl
  slot _ _ := ⟨rfl, rfl⟩

theorem pteOf_update_entry (d : Dir mem pd) (hu : isUserVaddr u = true) (h0 : mem (pd, pdNo u) ≠ 0) :
    pteOf (Function.update mem (pdeGetPt (mem (pd, pdNo u)), ptNo u) v) pd va =
      if pdNo va = pdNo u ∧ ptNo va = ptNo u then some v else pteOf mem pd va := by
  have hiff : (mem (pd, pdNo va) ≠ 0 ∧
      (pdeGetPt (mem (pd, pdNo u)), ptNo u) = (pdeGetPt (mem (pd, pdNo va)), ptNo va)) ↔
      (pdNo va = pdNo u ∧ ptNo va = ptNo u) := by
    constructor
    · rintro ⟨h0', hc⟩
      have hk : pdNo va = pdNo u := by
        by_contra hk
        exact d.distinct u va hu hk h0 h0' (Prod.mk.inj hc).1.symm
      exact ⟨hk, (Prod.mk.inj hc).2.symm⟩
    · rintro ⟨hk, hk'⟩
      rw [hk, hk']
      exact ⟨h0, rfl⟩
  rw [pteOf_update_table (d.noSelf u h0)]
  exact if_congr hiff rfl rfl

theorem edit_entry (d : Dir mem pd) (hu : isUserVaddr u = true) (h0 : mem (pd, pdNo u) ≠ 0) :
    Edit mem (Function.update mem (pdeGetPt (mem (pd, pdNo u)), ptNo u) v) pd u (view v) where
  dir := d.congr (update_dir (d.noSelf u h0))
  present va := by
    unfold present
    rw [d.pteOf_update_entry hu h0]
    by_cases hp : pdNo va = pdNo u ∧ ptNo va = ptNo u
    · rw [if_pos hp, if_pos (pgRoundDown_eq_iff.mpr hp)]
      rfl
    · rw [if_neg hp, if_neg (fun h => hp (pgRoundDown_eq_iff.mp h))]
  slot va hk := ⟨update_dir (d.noSelf u h0) _, by rw [d.pteOf_update_entry hu h0, if_neg (fun h => hk h.1)]⟩

theorem install_dir (hne : pt ≠ pd) (k : UInt32) :
    Function.update (zeroPage mem pt) (pd, pdNo u) (pdeCreate pt) (pd, k) =
      if k = pdNo u then pdeCreate pt else mem (pd, k) := by
  by_cases hk : k = pdNo u
  · rw [hk, Function.update_self, if_pos rfl]
  · rw [Function.update_of_ne (fun h => hk (Prod.mk.inj h).2), if_neg hk, zeroPage_dir hne]

section Install

variable (hpt : Page pt) (hne : pt ≠ pd)
  (hfresh : ∀ va, mem (pd, pdNo va) ≠ 0 → pdeGetPt (mem (pd, pdNo va)) ≠ pt)
include hpt hne hfresh

theorem install (d : Dir mem pd) (hdir : ∀ k, mem' (pd, k) = if k = pdNo u then pdeCreate pt else mem (pd, k)) :
    Dir mem' pd where
  tables va hu := by
    rw [hdir]
    split_ifs
    · exact Or.inr ⟨pt, rfl, hpt⟩
    · exact d.tables va hu
  noSelf va := by
    rw [hdir]
    split_ifs
    · rw [pdeGetPt_pdeCreate hpt]
      exact fun _ => hne
    · exact d.noSelf va
  distinct va va' hu hk := by
    rw [hdir, hdir]
    split_ifs with h1 h2 h2
    · exact absurd (h2.trans h1.symm) hk
    · intro _ h0'
      rw [pdeGetPt_pdeCreate hpt]
      exact hfresh va' h0'
    · intro h0 _
      rw [pdeGetPt_pdeCreate hpt]
      exact (hfresh va h0).symm
    · exact d.distinct va va' hu hk

/-- The entries after a new page table went into the slot of `u` and the entry of `u` was
written: the slot's other entries read 0. -/
theorem pteOf_install (d : Dir mem pd) :
    pteOf (Function.update (Function.update (zeroPage mem pt) (pd, pdNo u) (pdeCreate pt)) (pt, ptNo u) v)
      pd va = if pdNo va = pdNo u then some (if ptNo va = ptNo u then v else 0) else pteOf mem pd va := by
  have hmid : pteOf (Function.update (zeroPage mem pt) (pd, pdNo u) (pdeCreate pt)) pd va =
      if pdNo va = pdNo u then some 0 else pteOf mem pd va := by
    rw [pteOf_update_dir (by rw [pdeGetPt_pdeCreate hpt]; exact hne)
      (by rw [zeroPage_dir hne]; exact d.noSelf va), if_neg (pdeCreate_ne_zero hpt),
      pdeGetPt_pdeCreate hpt, zeroPage_self, pteOf_zeroPage hne,
      if_neg (show ¬(mem (pd, pdNo va) ≠ 0 ∧ pdeGetPt (mem (pd, pdNo va)) = pt) from
        fun h => hfresh va h.1 h.2)]
  rw [pteOf_update_table hne, hmid, install_dir hne]
  by_cases hk : pdNo va = pdNo u
  · by_cases hk' : ptNo va = ptNo u
    · simp [hk, hk', pdeCreate_ne_zero hpt, pdeGetPt_pdeCreate hpt]
    · simp [hk, hk', Ne.symm hk', pdeCreate_ne_zero hpt, pdeGetPt_pdeCreate hpt]
  · rw [if_neg hk, if_neg hk, if_neg hk]
    exact if_neg (fun h => hfresh va h.1 (Prod.mk.inj h.2).1.symm)

/-- A fresh page put into the empty slot of `u` as its page table, and `v` written at the entry
of `u`. -/
theorem edit_install (d : Dir mem pd) (h0 : mem (pd, pdNo u) = 0) :
    Edit mem (Function.update (Function.update (zeroPage mem pt) (pd, pdNo u) (pdeCreate pt)) (pt, ptNo u) v)
      pd u (view v) where
  dir := d.install hpt hne hfresh fun k => by rw [update_dir hne, install_dir hne]
  present va := by
    unfold present
    rw [d.pteOf_install hpt hne hfresh]
    by_cases hp : pdNo va = pdNo u ∧ ptNo va = ptNo u
    · rw [if_pos hp.1, if_pos hp.2, if_pos (pgRoundDown_eq_iff.mpr hp)]
      rfl
    · rw [if_neg (fun h => hp (pgRoundDown_eq_iff.mp h))]
      by_cases hk : pdNo va = pdNo u
      · rw [if_pos hk, if_neg (fun h => hp ⟨hk, h⟩), pteOf_of_zero (by rw [hk]; exact h0)]
        rfl
      · rw [if_neg hk]
  slot va hk := ⟨by rw [update_dir hne, install_dir hne, if_neg hk],
    by rw [d.pteOf_install hpt hne hfresh, if_neg hk]⟩

end Install

variable {initRamPages initPageDir kpage flag vpage : UInt32} {writable : Bool}
  {alloc : Option UInt32}

/-- A `pagedir_set_page` that succeeds, given a fresh page when it needs a page table, writes the
entry for `u` and nothing else the processor reads. -/
theorem setPage (d : Dir mem pd)
    (hfresh : ∀ pt ∈ alloc, Page pt ∧ pt ≠ pd ∧
      ∀ va, mem (pd, pdNo va) ≠ 0 → pdeGetPt (mem (pd, pdNo va)) ≠ pt)
    (h : pagedirSetPage initRamPages initPageDir mem pd u kpage writable alloc = some (mem', true)) :
    Edit mem mem' pd u (some (kpage, writable, true)) := by
  obtain ⟨-, hu, hk, ⟨hf, -⟩ | ⟨-, mem1, c, hl, -, rfl⟩⟩ := pagedirSetPage_eq_some h
  · cases hf
  rw [← view_pteCreateUser hk writable]
  rcases lookupPage_true hl with ⟨h0, rfl, rfl⟩ | ⟨h0, pt, rfl, rfl, rfl⟩
  · exact d.edit_entry hu h0
  · obtain ⟨hpt, hne, hfr⟩ := hfresh pt rfl
    rw [pdeGetPt_pdeCreate hpt]
    exact d.edit_install hpt hne hfr h0

theorem clearPage (d : Dir mem pd) (h : pagedirClearPage mem pd u = some mem') :
    pgOfs u = 0 ∧ isUserVaddr u = true ∧ Edit mem mem' pd u none := by
  unfold pagedirClearPage at h
  split_ifs at h with ha
  refine ⟨ha.1, ha.2, ?_⟩
  rw [lookupPage_false] at h
  cases hp : pteOf mem pd u with
  | none =>
    rw [hp] at h
    cases h
    exact d.edit_self (by rw [present, hp]; rfl)
  | some x =>
    have h0 : mem (pd, pdNo u) ≠ 0 := fun h0 => by
      rw [pteOf_of_zero h0] at hp
      cases hp
    have hx : mem (pdeGetPt (mem (pd, pdNo u)), ptNo u) = x := by
      unfold pteOf at hp
      rw [if_neg h0] at hp
      exact Option.some.inj hp
    rw [hp, Option.map_some] at h
    dsimp only at h
    split_ifs at h with hP
    · cases h
      rw [← view_clearPresent (mem (pdeGetPt (mem (pd, pdNo u)), ptNo u))]
      exact d.edit_entry ha.2 h0
    · cases h
      exact d.edit_self (by rw [present, hp, Option.bind_some, ← hx, view_of_absent (not_not.mp hP)])

theorem setFlag_dir (d : Dir mem pd) (flag vpage : UInt32) (value : Bool) :
    Dir (setFlag flag mem pd vpage value) pd := by
  rw [setFlag_eq]
  by_cases h0 : mem (pd, pdNo vpage) = 0
  · rw [if_pos h0]
    exact d
  · rw [if_neg h0]
    exact d.congr (update_dir (d.noSelf vpage h0))

theorem present_setFlag (d : Dir mem pd) (hflag : flag = pteA ∨ flag = pteD) (vpage : UInt32)
    (value : Bool) : present (setFlag flag mem pd vpage value) pd va = present mem pd va := by
  rw [setFlag_eq]
  by_cases h0 : mem (pd, pdNo vpage) = 0
  · rw [if_pos h0]
  · rw [if_neg h0]
    exact present_update_same (d.noSelf vpage h0) (view_setFlag _ hflag value)

theorem setFlag_slot (d : Dir mem pd) (hu : isUserVaddr vpage = true) (flag : UInt32) (value : Bool)
    (hk : pdNo va ≠ pdNo vpage) :
    setFlag flag mem pd vpage value (pd, pdNo va) = mem (pd, pdNo va) ∧
      pteOf (setFlag flag mem pd vpage value) pd va = pteOf mem pd va := by
  rw [setFlag_eq]
  by_cases h0 : mem (pd, pdNo vpage) = 0
  · rw [if_pos h0]
    exact ⟨rfl, rfl⟩
  · rw [if_neg h0]
    exact (d.edit_entry hu h0).slot va hk

end Dir

section Create

variable {mem mem0 : Words} {initPageDir pd : UInt32} {alloc : Option UInt32}

theorem pagedirCreate_eq (h : pagedirCreate mem initPageDir alloc = some (mem0, pd)) :
    ∀ p, mem0 p = if p.1 = pd ∧ p.2.toNat < 1024 then mem (initPageDir, p.2) else mem p := by
  unfold pagedirCreate at h
  obtain ⟨pd', -, h⟩ := Option.map_eq_some_iff.mp h
  cases h
  exact fun _ => rfl

theorem pagedirCreate_dir (h : pagedirCreate mem initPageDir alloc = some (mem0, pd)) (va : UInt32) :
    mem0 (pd, pdNo va) = mem (initPageDir, pdNo va) := by
  rw [pagedirCreate_eq h, if_pos ⟨rfl, pdNo_lt va⟩]

theorem pagedirCreate_other (h : pagedirCreate mem initPageDir alloc = some (mem0, pd)) {p : UInt32}
    (hp : p ≠ pd) (k : UInt32) : mem0 (p, k) = mem (p, k) := by
  rw [pagedirCreate_eq h, if_neg (fun h => hp h.1)]

section Kernel

variable (hkernel : ∀ va, mem (initPageDir, pdNo va) ≠ 0 → pdeGetPt (mem (initPageDir, pdNo va)) ≠ pd)
include hkernel

/-- The entries of a new directory, and what each walk reads, are those of `init_page_dir`,
as long as the new page is none of the page tables of `init_page_dir`. -/
theorem pteOf_pagedirCreate (h : pagedirCreate mem initPageDir alloc = some (mem0, pd)) (va : UInt32) :
    pteOf mem0 pd va = pteOf mem initPageDir va := by
  unfold pteOf
  rw [pagedirCreate_dir h]
  split_ifs with h0
  · rfl
  · rw [pagedirCreate_other h (hkernel va h0)]

theorem Dir.create (hinit : ∀ va, isUserVaddr va = true → mem (initPageDir, pdNo va) = 0)
    (h : pagedirCreate mem initPageDir alloc = some (mem0, pd)) : Dir mem0 pd where
  tables va hu := Or.inl (by rw [pagedirCreate_dir h]; exact hinit va hu)
  noSelf va h0 := by
    rw [pagedirCreate_dir h] at h0 ⊢
    exact hkernel va h0
  distinct va _ hu _ h0 := absurd (by rw [pagedirCreate_dir h]; exact hinit va hu) h0

end Kernel

end Create

/-- A page directory, the memory it lives in, and the map from user pages to frames and writable
bits that the calls made on it so far have installed. -/
structure PdWorld where
  mem : Words
  pd : UInt32
  map : UInt32 → Option (UInt32 × Bool)

/-- A call of pagedir.c on the page directory; `alloc` is what `palloc_get_page (PAL_ZERO)`
returns if `pagedir_set_page` needs a page table. -/
inductive PdCall where
  | setPage (upage kpage : UInt32) (writable : Bool) (alloc : Option UInt32)
  | clearPage (upage : UInt32)
  | setDirty (vpage : UInt32) (dirty : Bool)
  | setAccessed (vpage : UInt32) (accessed : Bool)

/-- The calls that name user pages only; `pagedir_set_dirty` and `pagedir_set_accessed` do not
check it themselves. -/
def PdCall.UserPages : PdCall → Prop
  | .setDirty vpage _ | .setAccessed vpage _ => isUserVaddr vpage = true
  | _ => True

namespace PdWorld

/-- A page `palloc_get_page` may hand out: a page of RAM that is neither the directory nor a
page table any of its entries points to. -/
def Fresh (w : PdWorld) (pt : UInt32) : Prop :=
  Page pt ∧ pt ≠ w.pd ∧
    ∀ j : Fin 1024, w.mem (w.pd, j.val.toUInt32) ≠ 0 → pdeGetPt (w.mem (w.pd, j.val.toUInt32)) ≠ pt

instance (w : PdWorld) (pt : UInt32) : Decidable (w.Fresh pt) :=
  inferInstanceAs (Decidable (_ ∧ _ ∧ _))

/-- What `palloc_get_page` promises: a page it hands out is fresh. -/
def Allowed (w : PdWorld) : PdCall → Prop
  | .setPage _ _ _ alloc => ∀ pt ∈ alloc, w.Fresh pt
  | _ => True

instance (w : PdWorld) : (c : PdCall) → Decidable (w.Allowed c)
  | .setPage _ _ _ none => isTrue fun _ h => nomatch h
  | .setPage _ _ _ (some pt) =>
    decidable_of_iff (w.Fresh pt) ⟨fun h q hq => by cases hq; exact h, fun h => h pt rfl⟩
  | .clearPage .. | .setDirty .. | .setAccessed .. => isTrue trivial

/-- A call, and the map it installs: a page `pagedir_set_page` has mapped, or none for a page
`pagedir_clear_page` has cleared. `none` is a failed `ASSERT`. -/
def step (initRamPages initPageDir : UInt32) (w : PdWorld) (c : PdCall) : Option PdWorld :=
  if w.Allowed c then
    match c with
    | .setPage upage kpage writable alloc =>
      (pagedirSetPage initRamPages initPageDir w.mem w.pd upage kpage writable alloc).map fun r =>
        ⟨r.1, w.pd, if r.2 then Function.update w.map upage (some (kpage, writable)) else w.map⟩
    | .clearPage upage =>
      (pagedirClearPage w.mem w.pd upage).map fun mem => ⟨mem, w.pd, Function.update w.map upage none⟩
    | .setDirty vpage dirty => some ⟨pagedirSetDirty w.mem w.pd vpage dirty, w.pd, w.map⟩
    | .setAccessed vpage accessed => some ⟨pagedirSetAccessed w.mem w.pd vpage accessed, w.pd, w.map⟩
  else none

theorem Fresh.not_table {w : PdWorld} {pt : UInt32} (h : w.Fresh pt) (va : UInt32)
    (h0 : w.mem (w.pd, pdNo va) ≠ 0) : pdeGetPt (w.mem (w.pd, pdNo va)) ≠ pt := by
  have hj := h.2.2 ⟨(pdNo va).toNat, pdNo_lt va⟩
  have hk : (pdNo va).toNat.toUInt32 = pdNo va := UInt32.ofNat_toNat
  rw [Fin.val_mk, hk] at hj
  exact hj h0

/-- The invariant: the directory has its shape, and the walk for each user address reads what
the map holds for its page, with user access allowed. -/
structure Inv (w : PdWorld) : Prop where
  dir : Dir w.mem w.pd
  walk : ∀ va, isUserVaddr va = true →
    present w.mem w.pd va = (w.map (pgRoundDown va)).map fun p => (p.1, p.2, true)

/-- The kernel's part of the directory is as it was: the entry of every kernel address, and
what its walk reads. -/
def KernelSame (w w' : PdWorld) : Prop :=
  w'.pd = w.pd ∧ ∀ va, isUserVaddr va = false →
    w'.mem (w.pd, pdNo va) = w.mem (w.pd, pdNo va) ∧ pteOf w'.mem w.pd va = pteOf w.mem w.pd va

section Step

variable {initRamPages initPageDir u : UInt32} {w w' : PdWorld} {c : PdCall} {mem' : Words}
  {x : Option (UInt32 × Bool)} {m : UInt32 → Option (UInt32 × Bool)}

theorem KernelSame.refl (w : PdWorld) : KernelSame w w := ⟨rfl, fun _ _ => ⟨rfl, rfl⟩⟩

theorem KernelSame.trans {a b c : PdWorld} (h1 : KernelSame a b) (h2 : KernelSame b c) :
    KernelSame a c := by
  obtain ⟨hp1, h1⟩ := h1
  obtain ⟨hp2, h2⟩ := h2
  refine ⟨hp2.trans hp1, fun va hva => ?_⟩
  obtain ⟨h1a, h1b⟩ := h1 va hva
  obtain ⟨h2a, h2b⟩ := h2 va hva
  rw [hp1] at h2a h2b
  exact ⟨h2a.trans h1a, h2b.trans h1b⟩

/-- A call on a user page that changed nothing outside its slot left the kernel's part alone. -/
theorem kernelSame_of_slot (hu : isUserVaddr u = true)
    (hslot : ∀ va, pdNo va ≠ pdNo u →
      mem' (w.pd, pdNo va) = w.mem (w.pd, pdNo va) ∧ pteOf mem' w.pd va = pteOf w.mem w.pd va) :
    KernelSame w ⟨mem', w.pd, m⟩ :=
  ⟨rfl, fun va hva => hslot va (pdNo_ne_of_user hu hva)⟩

theorem Inv.edit (h : w.Inv) (hu : pgOfs u = 0)
    (he : Edit w.mem mem' w.pd u (x.map fun p => (p.1, p.2, true))) :
    Inv ⟨mem', w.pd, Function.update w.map u x⟩ where
  dir := he.dir
  walk va hva := by
    dsimp only
    rw [he.present, pgRoundDown_self hu]
    by_cases hp : pgRoundDown va = u
    · rw [if_pos hp, hp, Function.update_self]
    · rw [if_neg hp, Function.update_of_ne hp]
      exact h.walk va hva

theorem Inv.setFlag (h : w.Inv) {flag : UInt32} (hflag : flag = pteA ∨ flag = pteD) (vpage : UInt32)
    (value : Bool) : Inv ⟨setFlag flag w.mem w.pd vpage value, w.pd, w.map⟩ where
  dir := h.dir.setFlag_dir flag vpage value
  walk va hva := by
    rw [h.dir.present_setFlag hflag]
    exact h.walk va hva

/-- Every call keeps the invariant, and one on user pages leaves the kernel's part alone. -/
theorem Inv.step (h : w.Inv) (hs : step initRamPages initPageDir w c = some w') :
    w'.Inv ∧ (c.UserPages → KernelSame w w') := by
  unfold PdWorld.step at hs
  split_ifs at hs with hA
  cases c with
  | setPage upage kpage writable alloc =>
    obtain ⟨⟨mem', ok⟩, hr, rfl⟩ := Option.map_eq_some_iff.mp hs
    cases ok with
    | false =>
      obtain ⟨-, -, rfl⟩ := pagedirSetPage_false hr
      exact ⟨h, fun _ => KernelSame.refl w⟩
    | true =>
      obtain ⟨hup, hu, -⟩ := pagedirSetPage_eq_some hr
      have he := h.dir.setPage (fun pt hpt => ⟨(hA pt hpt).1, (hA pt hpt).2.1, (hA pt hpt).not_table⟩) hr
      exact ⟨h.edit hup he, fun _ => kernelSame_of_slot hu he.slot⟩
  | clearPage upage =>
    obtain ⟨mem', hr, rfl⟩ := Option.map_eq_some_iff.mp hs
    obtain ⟨hup, hu, he⟩ := h.dir.clearPage hr
    exact ⟨h.edit hup he, fun _ => kernelSame_of_slot hu he.slot⟩
  | setDirty vpage dirty =>
    cases hs
    exact ⟨h.setFlag (Or.inr rfl) vpage dirty,
      fun hu => kernelSame_of_slot hu fun _ hk => h.dir.setFlag_slot hu pteD dirty hk⟩
  | setAccessed vpage accessed =>
    cases hs
    exact ⟨h.setFlag (Or.inl rfl) vpage accessed,
      fun hu => kernelSame_of_slot hu fun _ hk => h.dir.setFlag_slot hu pteA accessed hk⟩

/-- With the invariant, the processor's translation of a user address is the map's entry for
its page: the frame and the writable bit that `pagedir_set_page` was given. -/
theorem Inv.translate_eq (h : w.Inv) {va : UInt32} (hu : isUserVaddr va = true) :
    translate w.mem w.pd va = w.map (pgRoundDown va) := by
  have hw := h.walk va hu
  rcases h.dir.tables va hu with h0 | ⟨pt, hpde, hpt⟩
  · rw [present, pteOf_of_zero h0] at hw
    rw [translate_of_zero h0]
    cases hm : w.map (pgRoundDown va) with
    | none => rfl
    | some _ =>
      rw [hm] at hw
      cases hw
  · have hpte : pteOf w.mem w.pd va = some (w.mem (pt, ptNo va)) := by
      unfold pteOf
      rw [if_neg (by rw [hpde]; exact pdeCreate_ne_zero hpt), hpde, pdeGetPt_pdeCreate hpt]
    rw [present, hpte, Option.bind_some] at hw
    rw [translate_of_table hpde hpt, hw]
    cases w.map (pgRoundDown va) <;> rfl

theorem inv_of_runs (h : w.Inv) (calls : List PdCall)
    (hrun : Kit.runs (step initRamPages initPageDir) w calls = some w') : w'.Inv :=
  Kit.runs_inv (fun _ _ _ hs he => (hs.step he).1) w calls h hrun

/-- Calls on user pages only leave the kernel's part of the directory as it was. -/
theorem kernelSame_of_runs (h : w.Inv) {calls : List PdCall} (hcalls : ∀ c ∈ calls, c.UserPages)
    (hrun : Kit.runs (step initRamPages initPageDir) w calls = some w') : KernelSame w w' :=
  (Kit.runs_rel_on (I := Inv) (R := KernelSame) KernelSame.refl (fun _ _ _ => KernelSame.trans)
    (fun s e t hs hc (he : step initRamPages initPageDir s e = some t) =>
      ⟨(hs.step he).1, (hs.step he).2 hc⟩) w calls h hcalls hrun).2

end Step

end PdWorld

section Runs

open PdWorld

theorem inv_create {mem mem0 : Words} {initPageDir pd : UInt32} {alloc : Option UInt32}
    (hinit : ∀ va, isUserVaddr va = true → mem (initPageDir, pdNo va) = 0)
    (hkernel : ∀ va, mem (initPageDir, pdNo va) ≠ 0 → pdeGetPt (mem (initPageDir, pdNo va)) ≠ pd)
    (h : pagedirCreate mem initPageDir alloc = some (mem0, pd)) : Inv ⟨mem0, pd, fun _ => none⟩ where
  dir := Dir.create hkernel hinit h
  walk va hu := by
    dsimp only
    rw [present, pteOf_of_zero (by rw [pagedirCreate_dir h]; exact hinit va hu)]
    rfl

/-- A directory made by `pagedir_create` from an `init_page_dir` with no user entries, after
any calls: `pagedir_get_page` and the processor read the map of what `pagedir_set_page`
installed and `pagedir_clear_page` has not cleared, with the writable bit it was given;
`pagedir_set_page` fails only for want of a page table, writing nothing; and calls that name
user pages only leave every kernel entry as `init_page_dir` has it. -/
theorem pagedir_refines_map (mem : Words) (initRamPages initPageDir : UInt32) (alloc : Option UInt32)
    (mem0 : Words) (pd : UInt32) (calls : List PdCall) (w : PdWorld)
    (hinit : ∀ va, isUserVaddr va = true → mem (initPageDir, pdNo va) = 0)
    (hkernel : ∀ va, mem (initPageDir, pdNo va) ≠ 0 → pdeGetPt (mem (initPageDir, pdNo va)) ≠ pd)
    (hcreate : pagedirCreate mem initPageDir alloc = some (mem0, pd))
    (hrun : Kit.runs (step initRamPages initPageDir) ⟨mem0, pd, fun _ => none⟩ calls = some w) :
    (∀ u, isUserVaddr u = true →
      pagedirGetPage w.mem w.pd u = some ((w.map (pgRoundDown u)).map fun p => p.1 + pgOfs u) ∧
        translate w.mem w.pd u = w.map (pgRoundDown u)) ∧
    (∀ upage kpage writable alloc' mem',
      pagedirSetPage initRamPages initPageDir w.mem w.pd upage kpage writable alloc' = some (mem', false) →
        alloc' = none ∧ w.mem (w.pd, pdNo upage) = 0 ∧ mem' = w.mem) ∧
    ((∀ c ∈ calls, c.UserPages) → w.pd = pd ∧ ∀ va, isUserVaddr va = false →
      w.mem (pd, pdNo va) = mem (initPageDir, pdNo va) ∧ pteOf w.mem pd va = pteOf mem initPageDir va) := by
  have h0 := inv_create hinit hkernel hcreate
  have hw := inv_of_runs h0 calls hrun
  refine ⟨fun u hu => ⟨?_, hw.translate_eq hu⟩, fun _ _ _ _ _ hs => pagedirSetPage_false hs, fun hcalls => ?_⟩
  · rw [pagedirGetPage_eq hu, hw.walk u hu, Option.map_map]
    rfl
  · obtain ⟨hpd, hk⟩ := kernelSame_of_runs h0 hcalls hrun
    refine ⟨hpd, fun va hva => ?_⟩
    obtain ⟨hdir, hpte⟩ := hk va hva
    exact ⟨hdir.trans (pagedirCreate_dir hcreate va), hpte.trans (pteOf_pagedirCreate hkernel hcreate va)⟩

/-- A kernel whose `init_page_dir`, at 0xc0001000, maps the first page of RAM at `PHYS_BASE`
through one page table, at 0xc0002000. -/
def bootWords : Words := fun p =>
  if p = (0xc0001000, 768) then pdeCreate 0xc0002000
  else if p = (0xc0002000, 0) then pteCreateKernel physBase true else 0

theorem bootWords_user (va : UInt32) (hu : isUserVaddr va = true) : bootWords (0xc0001000, pdNo va) = 0 := by
  have hlt := isUserVaddr_iff_pdNo.mp hu
  have h768 : pdNo va ≠ 768 := fun h => by
    rw [h] at hlt
    exact absurd hlt (by decide)
  unfold bootWords
  rw [if_neg (fun h => h768 (Prod.mk.inj h).2), if_neg (fun h => absurd (Prod.mk.inj h).1 (by decide))]

theorem bootWords_kernel (va : UInt32) (h0 : bootWords (0xc0001000, pdNo va) ≠ 0) :
    pdeGetPt (bootWords (0xc0001000, pdNo va)) ≠ 0xc0003000 := by
  unfold bootWords at h0 ⊢
  split_ifs at h0 ⊢ with h1 h2
  · decide
  · exact absurd (Prod.mk.inj h2).1 (by decide)
  · exact absurd rfl h0

theorem pagedir_refines_map_sample :
    ∃ mem0, pagedirCreate bootWords 0xc0001000 (some 0xc0003000) = some (mem0, 0xc0003000) ∧
      ∃ w, Kit.runs (step 1024 0xc0001000) ⟨mem0, 0xc0003000, fun _ => none⟩
          [.setPage 0x08048000 0xc0010000 true (some 0xc0004000), .setDirty 0x08048000 true] = some w ∧
        pagedirGetPage w.mem w.pd 0x08048123 = some (some 0xc0010123) ∧
        translate w.mem w.pd 0x08048123 = some (0xc0010000, true) := by
  refine ⟨_, rfl, Kit.exists_of_runs_imp (p := fun w => w.map 0x08048000 = some (0xc0010000, true))
    (by decide +kernel) fun w hrun hmap => ?_⟩
  obtain ⟨hget, -⟩ := pagedir_refines_map bootWords 1024 0xc0001000 (some 0xc0003000) _ _ _ w
    bootWords_user bootWords_kernel rfl hrun
  obtain ⟨hpage, htrans⟩ := hget 0x08048123 (by decide)
  have hdown : pgRoundDown 0x08048123 = 0x08048000 := by decide
  rw [hpage, htrans, hdown, hmap]
  exact ⟨by decide, rfl⟩

/-- `pagedir_set_dirty` on a kernel address sets the dirty bit in the page table that a new
directory shares with `init_page_dir`. -/
theorem set_dirty_writes_kernel_entry :
    ∃ mem0, pagedirCreate bootWords 0xc0001000 (some 0xc0003000) = some (mem0, 0xc0003000) ∧
      ∃ w, Kit.runs (step 1024 0xc0001000) ⟨mem0, 0xc0003000, fun _ => none⟩
          [.setDirty physBase true] = some w ∧
        isUserVaddr physBase = false ∧ pteOf w.mem w.pd physBase ≠ pteOf bootWords 0xc0001000 physBase :=
  ⟨_, rfl, Kit.exists_of_runs (by decide +kernel)⟩

end Runs

end Pintos.Userprog
