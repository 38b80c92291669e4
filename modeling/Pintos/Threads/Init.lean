import Mathlib.Data.List.Nodup
import Pintos.Userprog.Pagedir

/-! `paging_init` of threads/init.c: the page directory and page tables through which the
kernel maps all of RAM at `PHYS_BASE`, and what the processor's walk of them finds. The pages
`palloc_get_page (PAL_ASSERT | PAL_ZERO)` hands out are given in the order it hands them out,
the page directory first. -/
namespace Pintos.Threads
open Pintos.Userprog

/-- The processor's walk of page directory `pd` for `va`: the physical frame, and whether a
write and whether a user access may go through; `none` where either level is not present. -/
def walk (mem : Words) (pd va : UInt32) : Option (UInt32 × Bool × Bool) :=
  let pde := mem (pd, pdNo va)
  let pte := mem (pdeGetPt pde, ptNo va)
  if pde &&& pteP = 0 ∨ pte &&& pteP = 0 then none
  else some (pte &&& pteAddr, pde &&& pteW != 0 && pte &&& pteW != 0,
    pde &&& pteU != 0 && pte &&& pteU != 0)

/-- The variables of `paging_init`'s loop: the words of the pages, `pt`, and the pages
`palloc_get_page` has yet to hand out. -/
structure PagingLoop where
  mem : Words
  pt : UInt32
  pool : List UInt32

/-- One pass of `paging_init`'s loop, for `page`; `none` where an `ASSERT` fails or
`palloc_get_page` panics. -/
def pagingInitPage (start endKernelText pd : UInt32) (s : PagingLoop) (page : Nat) :
    Option PagingLoop :=
  let paddr := page.toUInt32 * 4096
  let vaddr := ptov paddr
  let pdeIdx := pdNo vaddr
  let pteIdx := ptNo vaddr
  let inKernelText := start ≤ vaddr && vaddr < endKernelText
  -- the ASSERTs of ptov, and of pte_create_kernel on vaddr
  if paddr < physBase ∧ Page vaddr then
    -- pt is left at the table of an earlier page whenever the directory entry is set
    let s : Option PagingLoop :=
      if s.mem (pd, pdeIdx) = 0 then
        match s.pool with
        | pt :: pool =>
          if Page pt then
            some ⟨Function.update (zeroPage s.mem pt) (pd, pdeIdx) (pdeCreate pt), pt, pool⟩
          else none
        | [] => none
      else some s
    s.map fun s =>
      { s with mem := Function.update s.mem (s.pt, pteIdx) (pteCreateKernel vaddr !inKernelText) }
  else none

/-- `paging_init`: the memory after it and `init_page_dir`. -/
def pagingInit (start endKernelText initRamPages : UInt32) (mem : Words) :
    List UInt32 → Option (Words × UInt32)
  | [] => none
  | pd :: pool =>
    (Kit.runs (pagingInitPage start endKernelText pd) ⟨zeroPage mem pd, 0, pool⟩
      (List.range initRamPages.toNat)).map fun s => (s.mem, pd)

/-- What `paging_init` is for: page `p` of RAM, for `p` below `init_ram_pages`, at
`PHYS_BASE + p * PGSIZE`, for the kernel only, and read-only where its address is in the
kernel's text. -/
def kernelMap (start endKernelText initRamPages va : UInt32) : Option (UInt32 × Bool × Bool) :=
  if physBase ≤ va ∧ (vtop va).toNat / 4096 < initRamPages.toNat then
    some (pgRoundDown (vtop va), !(start ≤ pgRoundDown va && pgRoundDown va < endKernelText), false)
  else none

/-- How `start.S` sets `init_ram_pages` from the kilobytes above 1 MB the BIOS reports in
`eax`: capped at 64 MB, in pages. -/
def startRamPages (eax : UInt32) : UInt32 :=
  (if eax + 1024 ≤ 0x10000 then eax + 1024 else 0x10000) >>> 2

theorem startRamPages_le (eax : UInt32) : (startRamPages eax).toNat ≤ 0x4000 := by
  have hcap : (if eax + 1024 ≤ 0x10000 then eax + 1024 else 0x10000).toNat ≤ 0x10000 := by
    split
    · next h => exact UInt32.le_iff_toNat_le.mp h
    · rfl
  rw [startRamPages, UInt32.toNat_shiftRight, Nat.shiftRight_eq_div_pow]
  exact (Nat.div_le_div_right hcap).trans (by decide)

section Layout

variable {k : Nat}

/-- The address `paging_init` maps page `k` at. -/
def pageVaddr (k : Nat) : UInt32 := ptov (k.toUInt32 * 4096)

theorem paddr_toNat (hk : k < 0x40000) : (k.toUInt32 * 4096).toNat = k * 4096 := by
  simp only [UInt32.toNat_mul, Nat.toUInt32_eq, UInt32.toNat_ofNat', UInt32.reduceToNat]
  omega

theorem pageVaddr_toNat (hk : k < 0x40000) : (pageVaddr k).toNat = 3221225472 + k * 4096 := by
  rw [pageVaddr, ptov, UInt32.toNat_add, paddr_toNat hk, physBase_toNat]
  omega

theorem page_pageVaddr (hk : k < 0x40000) : Page (pageVaddr k) := by
  have hv := pageVaddr_toNat hk
  refine ⟨UInt32.le_iff_toNat_le.mpr (by rw [hv, physBase_toNat]; omega), ?_⟩
  apply UInt32.toNat_inj.mp
  rw [pgOfs_toNat, hv, UInt32.toNat_zero]
  omega

theorem pdNo_pageVaddr (hk : k < 0x40000) : (pdNo (pageVaddr k)).toNat = 768 + k / 1024 := by
  rw [pdNo_toNat, pageVaddr_toNat hk]
  omega

theorem ptNo_pageVaddr (hk : k < 0x40000) : (ptNo (pageVaddr k)).toNat = k % 1024 := by
  rw [ptNo_toNat, pageVaddr_toNat hk]
  omega

theorem paddr_lt (hk : k < 0x40000) : k.toUInt32 * 4096 < physBase :=
  UInt32.lt_iff_toNat_lt.mpr (by rw [paddr_toNat hk, physBase_toNat]; omega)

theorem vtop_pageVaddr (k : Nat) : vtop (pageVaddr k) = k.toUInt32 * 4096 := by
  rw [pageVaddr, ptov, vtop, UInt32.add_sub_cancel]

theorem pageVaddr_large : pageVaddr 0x40000 = 0 := by decide

end Layout

section Entries

variable {v pt : UInt32} {w : Bool}

theorem pteCreateKernel_eq (page : UInt32) (writable : Bool) :
    pteCreateKernel page writable = vtop page ||| (if writable then 3 else 1) := by
  cases writable <;> simp only [pteCreateKernel, UInt32.or_assoc, if_true, Bool.false_eq_true,
    if_false, UInt32.or_zero] <;> rfl

theorem pteCreateKernel_and (h : Page v) (writable : Bool) {c : UInt32} (hc : c.toNat < 4096) :
    pteCreateKernel v writable &&& c = (if writable then 3 else 1) &&& c := by
  rw [pteCreateKernel_eq, flags_of_flags (vtop_mod h) hc]

theorem pteCreateKernel_addr (h : Page v) (writable : Bool) :
    pteCreateKernel v writable &&& pteAddr = vtop v := by
  rw [pteCreateKernel_eq, addr_of_flags (vtop_mod h) (by cases writable <;> decide)]

variable {mem : Words} {pd va : UInt32}

theorem walk_of_dir (h : mem (pd, pdNo va) = 0) : walk mem pd va = none := by
  simp only [walk, h, UInt32.zero_and, true_or, if_true]

/-- A directory entry made by `pde_create` and a table entry made by `pte_create_kernel`: the
frame, writable as the table entry says, and for the kernel only. -/
theorem walk_of_kernel (hpt : Page pt) (hde : mem (pd, pdNo va) = pdeCreate pt) (hv : Page v)
    (hte : mem (pt, ptNo va) = pteCreateKernel v w) : walk mem pd va = some (vtop v, w, false) := by
  simp only [walk, hde, pdeGetPt_pdeCreate hpt, hte, pteCreateKernel_addr hv,
    pdeCreate_and hpt (c := pteP) (by decide),
    pteCreateKernel_and hv w (c := pteP) (by decide), pteCreateKernel_and hv w (c := pteW) (by decide),
    pteCreateKernel_and hv w (c := pteU) (by decide), pdeCreate_and hpt (c := pteW) (by decide),
    pdeCreate_and hpt (c := pteU) (by decide)]
  cases w <;> rfl

theorem walk_of_table (hpt : Page pt) (hde : mem (pd, pdNo va) = pdeCreate pt)
    (hte : mem (pt, ptNo va) = 0) : walk mem pd va = none := by
  simp only [walk, hde, pdeGetPt_pdeCreate hpt, hte, UInt32.zero_and, or_true, if_true]

end Entries

section Loop

variable {start endKernelText pd : UInt32} {tabs : List UInt32} {j j' k n : Nat} {m : Words}

/-- How many page tables the first `k` pages of RAM take. -/
def tablesFor (k : Nat) : Nat := (k + 1023) / 1024

/-- The entry `paging_init` writes for page `k`. -/
def kernelPte (start endKernelText : UInt32) (k : Nat) : UInt32 :=
  pteCreateKernel (pageVaddr k) !(start ≤ pageVaddr k && pageVaddr k < endKernelText)

/-- Directory slot `768 + j` holds table `j` of `tabs` for `j < n`; every other slot is
empty. -/
def Dir (pd : UInt32) (tabs : List UInt32) (n : Nat) (m : Words) : Prop :=
  ∀ d : UInt32, m (pd, d) =
    if 768 ≤ d.toNat ∧ d.toNat < 768 + n then pdeCreate (tabs.getD (d.toNat - 768) 0) else 0

/-- Entry `i` of table `j < n` maps page `j * 1024 + i` if that is one of the first `k`
pages, and is empty otherwise. -/
def Tables (start endKernelText : UInt32) (tabs : List UInt32) (n k : Nat) (m : Words) : Prop :=
  ∀ j < n, ∀ i : UInt32, m (tabs.getD j 0, i) =
    if i.toNat < 1024 ∧ j * 1024 + i.toNat < k then kernelPte start endKernelText (j * 1024 + i.toNat)
    else 0

/-- What the loop has built after its first `k` pages, with `tabs` the pages
`palloc_get_page` hands out after the page directory. -/
structure LoopInv (start endKernelText pd : UInt32) (tabs : List UInt32) (k : Nat)
    (s : PagingLoop) : Prop where
  pool : s.pool = tabs.drop (tablesFor k)
  pt : 0 < k → s.pt = tabs.getD ((k - 1) / 1024) 0
  dir : Dir pd tabs (tablesFor k) s.mem
  tables : Tables start endKernelText tabs (tablesFor k) k s.mem

theorem getD_eq_getD_iff (hnd : tabs.Nodup) (hj : j < tabs.length) (hj' : j' < tabs.length) :
    tabs.getD j 0 = tabs.getD j' 0 ↔ j = j' := by
  rw [List.getD_eq_getElem _ _ hj, List.getD_eq_getElem _ _ hj']
  exact hnd.getElem_inj_iff

theorem getD_ne_pd (hnd : (pd :: tabs).Nodup) (hj : j < tabs.length) : tabs.getD j 0 ≠ pd := by
  rw [List.getD_eq_getElem _ _ hj]
  intro h
  exact (List.nodup_cons.mp hnd).1 (h ▸ List.getElem_mem hj)

theorem page_getD (hpage : ∀ pt ∈ tabs, Page pt) (hj : j < tabs.length) : Page (tabs.getD j 0) := by
  rw [List.getD_eq_getElem _ _ hj]
  exact hpage _ (List.getElem_mem hj)

theorem loopInv_zero (mem : Words) (tabs : List UInt32) :
    LoopInv start endKernelText pd tabs 0 ⟨zeroPage mem pd, 0, tabs⟩ where
  pool := rfl
  pt h := absurd h (Nat.lt_irrefl 0)
  dir d := by rw [if_neg (by simp only [tablesFor]; omega)]; exact zeroPage_self d
  tables j hj := absurd hj (by simp [tablesFor])

/-- Writing page `k`'s entry into its table, table `k / 1024`, adds page `k` to the
tables. -/
theorem Tables.write (ht : Tables start endKernelText tabs n k m) (hnd : tabs.Nodup)
    (hn : n ≤ tabs.length) (hk : k < 0x40000) (hkn : k / 1024 < n) :
    Tables start endKernelText tabs n (k + 1) (Function.update m
      (tabs.getD (k / 1024) 0, ptNo (pageVaddr k)) (kernelPte start endKernelText k)) := by
  intro j hj i
  by_cases hjk : j = k / 1024 ∧ i.toNat = k % 1024
  · -- the entry written
    obtain ⟨rfl, hik⟩ := hjk
    have hi : i = ptNo (pageVaddr k) := UInt32.toNat_inj.mp (hik.trans (ptNo_pageVaddr hk).symm)
    subst hi
    rw [Function.update_self, ptNo_pageVaddr hk, if_pos (by omega), Nat.div_add_mod' k 1024]
  · -- any other entry keeps its value, and its page is not page k
    have hne : (tabs.getD j 0, i) ≠ (tabs.getD (k / 1024) 0, ptNo (pageVaddr k)) := by
      intro h
      have hj' := (getD_eq_getD_iff hnd (by omega) (by omega)).mp (Prod.mk.inj h).1
      exact hjk ⟨hj', by rw [(Prod.mk.inj h).2, ptNo_pageVaddr hk]⟩
    rw [Function.update_of_ne hne, ht j hj i]
    by_cases hi : i.toNat < 1024
    · have hik : j * 1024 + i.toNat < k + 1 ↔ j * 1024 + i.toNat < k := by
        have : j * 1024 + i.toNat ≠ k := fun h => hjk ⟨by omega, by omega⟩
        omega
      simp only [hi, true_and, hik]
    · simp only [hi, false_and, if_false]

theorem Dir.update_table (hd : Dir pd tabs n m) {pt i v : UInt32} (hpt : pt ≠ pd) :
    Dir pd tabs n (Function.update m (pt, i) v) := fun d => by
  rw [Function.update_of_ne (fun h => hpt (Prod.mk.inj h).1.symm), hd d]

theorem Dir.extend (hd : Dir pd tabs n m) (hnd : (pd :: tabs).Nodup) (hn : n < tabs.length)
    {d₀ : UInt32} (hd₀ : d₀.toNat = 768 + n) :
    Dir pd tabs (n + 1)
      (Function.update (zeroPage m (tabs.getD n 0)) (pd, d₀) (pdeCreate (tabs.getD n 0))) := by
  intro d
  by_cases hdn : d = d₀
  · subst hdn
    rw [Function.update_self, if_pos (by omega), hd₀, Nat.add_sub_cancel_left]
  · have hdn' : d.toNat ≠ 768 + n := fun h => hdn (UInt32.toNat_inj.mp (h.trans hd₀.symm))
    rw [Function.update_of_ne (fun h => hdn (Prod.mk.inj h).2), zeroPage_dir (getD_ne_pd hnd hn),
      hd d]
    have hc : (768 ≤ d.toNat ∧ d.toNat < 768 + n) ↔ (768 ≤ d.toNat ∧ d.toNat < 768 + (n + 1)) := by
      omega
    simp only [hc]

theorem Tables.extend (ht : Tables start endKernelText tabs n k m) (hnd : (pd :: tabs).Nodup)
    (hn : n < tabs.length) (hk : k ≤ n * 1024) {d₀ v : UInt32} :
    Tables start endKernelText tabs (n + 1) k
      (Function.update (zeroPage m (tabs.getD n 0)) (pd, d₀) v) := by
  intro j hj i
  rw [Function.update_of_ne (fun h => getD_ne_pd hnd (by omega) (Prod.mk.inj h).1)]
  by_cases hjn : j = n
  · subst hjn
    rw [zeroPage_self, if_neg (by omega)]
  · have hne : tabs.getD n 0 ≠ tabs.getD j 0 := fun h =>
      hjn ((getD_eq_getD_iff (List.nodup_cons.mp hnd).2 (by omega) hn).mp h.symm)
    rw [zeroPage_dir hne, ht j (by omega) i]

/-- Below 1 GB the `ASSERT`s hold, and a page whose directory slot is empty gets the next page
of the pool as its table. -/
theorem pagingInitPage_fresh {s : PagingLoop} {pt : UInt32} {pool : List UInt32}
    (hk : k < 0x40000) (hz : s.mem (pd, pdNo (pageVaddr k)) = 0) (hpool : s.pool = pt :: pool)
    (hpt : Page pt) :
    pagingInitPage start endKernelText pd s k = some ⟨Function.update
      (Function.update (zeroPage s.mem pt) (pd, pdNo (pageVaddr k)) (pdeCreate pt))
      (pt, ptNo (pageVaddr k)) (kernelPte start endKernelText k), pt, pool⟩ := by
  have hc : k.toUInt32 * 4096 < physBase ∧ Page (pageVaddr k) := ⟨paddr_lt hk, page_pageVaddr hk⟩
  simp only [pagingInitPage, kernelPte, pageVaddr] at hc hz ⊢
  simp only [hc, hz, hpool, hpt, and_self, if_true, Option.map_some]
  rfl

theorem pagingInitPage_set {s : PagingLoop} (hk : k < 0x40000)
    (hz : s.mem (pd, pdNo (pageVaddr k)) ≠ 0) :
    pagingInitPage start endKernelText pd s k = some
      { s with mem := Function.update s.mem (s.pt, ptNo (pageVaddr k)) (kernelPte start endKernelText k) } := by
  have hc : k.toUInt32 * 4096 < physBase ∧ Page (pageVaddr k) := ⟨paddr_lt hk, page_pageVaddr hk⟩
  simp only [pagingInitPage, kernelPte, pageVaddr] at hc hz ⊢
  simp only [hc, hz, and_self, if_true, if_false, Option.map_some]
  rfl

/-- One pass of the loop keeps the invariant. Pages are visited in increasing order, so the
pages of one directory slot come one after another, the first of them makes the slot's table,
and `pt` still points at that table for the rest. -/
theorem LoopInv.step {s : PagingLoop} (hi : LoopInv start endKernelText pd tabs k s)
    (hnd : (pd :: tabs).Nodup) (hpage : ∀ pt ∈ tabs, Page pt) (hk : k < 0x40000)
    (hlen : tablesFor (k + 1) ≤ tabs.length) :
    ∃ s', pagingInitPage start endKernelText pd s k = some s' ∧
      LoopInv start endKernelText pd tabs (k + 1) s' := by
  have hslot := pdNo_pageVaddr hk
  have hlt : k / 1024 < tabs.length := by simp only [tablesFor] at hlen; omega
  have hT := getD_ne_pd hnd hlt
  by_cases hk0 : k % 1024 = 0
  · -- page k is the first of its slot: the slot is empty, and the next page becomes its table
    have htk : tablesFor k = k / 1024 := by simp only [tablesFor]; omega
    have htk' : tablesFor (k + 1) = k / 1024 + 1 := by simp only [tablesFor]; omega
    have hz : s.mem (pd, pdNo (pageVaddr k)) = 0 := by
      rw [hi.dir, if_neg (by rw [hslot, htk]; omega)]
    have hpool : s.pool = tabs.getD (k / 1024) 0 :: tabs.drop (k / 1024 + 1) := by
      rw [hi.pool, htk, List.getD_eq_getElem _ _ hlt]
      exact List.drop_eq_getElem_cons hlt
    refine ⟨_, pagingInitPage_fresh hk hz hpool (page_getD hpage hlt), ?_⟩
    have hdir := hi.dir
    have htab := hi.tables
    rw [htk] at hdir htab
    refine ⟨by rw [htk'], fun _ => by simp, ?_, ?_⟩
    · rw [htk']
      exact (hdir.extend hnd hlt (hslot.trans (by omega))).update_table hT
    · rw [htk']
      exact (htab.extend hnd hlt (by omega)).write (List.nodup_cons.mp hnd).2 (by omega) hk (by omega)
  · -- the slot is set, and pt is the table an earlier page of it made
    have htk : tablesFor (k + 1) = tablesFor k := by simp only [tablesFor]; omega
    have hkn : k / 1024 < tablesFor k := by simp only [tablesFor]; omega
    have hz : s.mem (pd, pdNo (pageVaddr k)) ≠ 0 := by
      rw [hi.dir, if_pos (by rw [hslot]; omega), hslot, Nat.add_sub_cancel_left]
      exact pdeCreate_ne_zero (page_getD hpage hlt)
    have hpt : s.pt = tabs.getD (k / 1024) 0 := by
      rw [hi.pt (by omega)]
      congr 1
      omega
    refine ⟨_, pagingInitPage_set hk hz, ?_⟩
    refine ⟨by rw [htk]; exact hi.pool, fun _ => by simpa using hpt, ?_, ?_⟩
    · rw [htk]
      exact hi.dir.update_table (hpt ▸ hT)
    · rw [htk, hpt]
      exact hi.tables.write (List.nodup_cons.mp hnd).2 (htk ▸ hlen) hk hkn

theorem pagingInitPage_large (s : PagingLoop) :
    pagingInitPage start endKernelText pd s 0x40000 = none := by
  have hv : ¬ Page (pageVaddr 0x40000) := by rw [pageVaddr_large]; decide
  unfold pagingInitPage
  exact if_neg fun h => hv h.2

theorem pagingInit_of_large {initRamPages : UInt32} (h : 0x40000 < initRamPages.toNat)
    (mem : Words) (pages : List UInt32) :
    pagingInit start endKernelText initRamPages mem pages = none := by
  cases pages with
  | nil => rfl
  | cons pd tabs =>
    obtain ⟨r, hr⟩ : ∃ r, initRamPages.toNat = 0x40000 + (r + 1) :=
      ⟨initRamPages.toNat - 0x40001, by omega⟩
    rw [pagingInit, hr, List.range_add, List.range_succ_eq_map (n := r), Kit.runs_append]
    cases Kit.runs (pagingInitPage start endKernelText pd) ⟨zeroPage mem pd, 0, tabs⟩
      (List.range 0x40000) with
    | none => rfl
    | some s => simp only [Option.bind_some, List.map_cons, Nat.add_zero, Kit.runs_cons,
        pagingInitPage_large, Option.bind_none, Option.map_none]

theorem loopInv_run (hnd : (pd :: tabs).Nodup) (hpage : ∀ pt ∈ tabs, Page pt) (mem : Words) :
    ∀ n ≤ 0x40000, tablesFor n ≤ tabs.length →
      ∃ s, Kit.runs (pagingInitPage start endKernelText pd) ⟨zeroPage mem pd, 0, tabs⟩
        (List.range n) = some s ∧ LoopInv start endKernelText pd tabs n s
  | 0, _, _ => ⟨_, rfl, loopInv_zero mem tabs⟩
  | n + 1, hn, hlen => by
    obtain ⟨s, hs, hi⟩ := loopInv_run hnd hpage mem n (by omega)
      (le_trans (by simp only [tablesFor]; omega) hlen)
    obtain ⟨s', hs', hi'⟩ := hi.step hnd hpage (by omega) hlen
    refine ⟨s', ?_, hi'⟩
    rw [List.range_succ, Kit.runs_append, hs, Option.bind_some, Kit.runs_of_step hs']

/-- Through the tables the loop has built for its first `n` pages, the processor sees
exactly `kernelMap`. -/
theorem LoopInv.walk_eq {s : PagingLoop} {initRamPages : UInt32}
    (hi : LoopInv start endKernelText pd tabs initRamPages.toNat s)
    (hpage : ∀ pt ∈ tabs, Page pt) (hlen : tablesFor initRamPages.toNat ≤ tabs.length)
    (va : UInt32) : walk s.mem pd va = kernelMap start endKernelText initRamPages va := by
  rw [kernelMap]
  have hva := va.toNat_lt
  by_cases hk : physBase ≤ va
  · -- va is on page q of RAM, in slot 768 + q / 1024 and entry q % 1024
    have hq := vtop_toNat hk
    have hk' := UInt32.le_iff_toNat_le.mp hk
    rw [physBase_toNat] at hk'
    have hslot : (pdNo va).toNat = 768 + (vtop va).toNat / 4096 / 1024 := by rw [pdNo_toNat]; omega
    have hidx : (ptNo va).toNat = (vtop va).toNat / 4096 % 1024 := by rw [ptNo_toNat]; omega
    by_cases hn : (vtop va).toNat / 4096 < initRamPages.toNat
    · generalize hq' : (vtop va).toNat / 4096 = q at hslot hidx hn
      have hj : q / 1024 < tabs.length := by simp only [tablesFor] at hlen; omega
      have hde : s.mem (pd, pdNo va) = pdeCreate (tabs.getD (q / 1024) 0) := by
        rw [hi.dir, if_pos (by simp only [tablesFor]; omega), hslot, Nat.add_sub_cancel_left]
      have hte : s.mem (tabs.getD (q / 1024) 0, ptNo va) = kernelPte start endKernelText q := by
        rw [hi.tables _ (by simp only [tablesFor]; omega), if_pos (by omega), hidx,
          Nat.div_add_mod' q 1024]
      have hpa : q.toUInt32 * 4096 = pgRoundDown (vtop va) :=
        UInt32.toNat_inj.mp (by rw [paddr_toNat (by omega), pgRoundDown_toNat, hq'])
      have hv : pageVaddr q = pgRoundDown va :=
        UInt32.toNat_inj.mp (by rw [pageVaddr_toNat (by omega), pgRoundDown_toNat]; omega)
      rw [walk_of_kernel (page_getD hpage hj) hde (page_pageVaddr (by omega)) hte, vtop_pageVaddr,
        hpa, hv, if_pos ⟨hk, hq' ▸ hn⟩]
    · rw [if_neg (fun h => hn h.2)]
      by_cases hj : (vtop va).toNat / 4096 / 1024 < tablesFor initRamPages.toNat
      · -- the page's table exists, and its entry for va is empty
        have hj' : (vtop va).toNat / 4096 / 1024 < tabs.length := by omega
        have hde : s.mem (pd, pdNo va) = pdeCreate (tabs.getD ((vtop va).toNat / 4096 / 1024) 0) := by
          rw [hi.dir, if_pos (by omega), hslot, Nat.add_sub_cancel_left]
        refine walk_of_table (page_getD hpage hj') hde ?_
        rw [hi.tables _ hj, if_neg (by omega)]
      · exact walk_of_dir (by rw [hi.dir, if_neg (by omega)])
  · -- a user address: its slot is below 768
    have hu := isUserVaddr_iff_pdNo.mp (by simpa [isUserVaddr] using hk)
    rw [if_neg (fun h => hk h.1)]
    exact walk_of_dir (by rw [hi.dir, if_neg (by omega)])

/-- `paging_init` finishes, given a pool with a kernel page for the directory and one for
each table, and the processor then sees exactly `kernelMap` through `init_page_dir`. -/
theorem walk_pagingInit {initRamPages : UInt32} (mem : Words)
    (hn : initRamPages.toNat ≤ 0x40000) (hnd : (pd :: tabs).Nodup)
    (hpage : ∀ pt ∈ tabs, Page pt) (hlen : tablesFor initRamPages.toNat ≤ tabs.length) :
    ∃ mem', pagingInit start endKernelText initRamPages mem (pd :: tabs) = some (mem', pd) ∧
      ∀ va, walk mem' pd va = kernelMap start endKernelText initRamPages va := by
  obtain ⟨s, hs, hi⟩ := @loopInv_run start endKernelText pd tabs hnd hpage mem initRamPages.toNat hn
    hlen
  exact ⟨s.mem, by rw [pagingInit, hs, Option.map_some], hi.walk_eq hpage hlen⟩

end Loop

section Spec

variable {start endKernelText initRamPages va : UInt32} {p : Nat}

theorem kernelMap_pageVaddr (hn : initRamPages.toNat ≤ 0x40000) (hp : p < initRamPages.toNat) :
    kernelMap start endKernelText initRamPages (pageVaddr p) =
      some (p.toUInt32 * 4096, !(start ≤ pageVaddr p && pageVaddr p < endKernelText), false) := by
  have hk : p < 0x40000 := by omega
  have hv := page_pageVaddr hk
  have hpa : pgRoundDown (p.toUInt32 * 4096) = p.toUInt32 * 4096 :=
    UInt32.toNat_inj.mp (by rw [pgRoundDown_toNat, paddr_toNat hk]; omega)
  have hq : (p.toUInt32 * 4096).toNat / 4096 = p := by rw [paddr_toNat hk]; omega
  rw [kernelMap, vtop_pageVaddr, hq, if_pos ⟨hv.1, hp⟩, hpa, pgRoundDown_self hv.2]

theorem kernelMap_of_user (hu : isUserVaddr va = true) :
    kernelMap start endKernelText initRamPages va = none := by
  have hlt := UInt32.lt_iff_toNat_lt.mp (by simpa [isUserVaddr] using hu : va < physBase)
  exact if_neg fun h => absurd (UInt32.le_iff_toNat_le.mp h.1) (by omega)

theorem kernelMap_of_beyond (hva : 3221225472 + initRamPages.toNat * 4096 ≤ (pgRoundDown va).toNat) :
    kernelMap start endKernelText initRamPages va = none := by
  refine if_neg fun h => ?_
  have hq := vtop_toNat h.1
  have := h.2
  rw [pgRoundDown_toNat] at hva
  omega

end Spec

/-- Up to 1 GB of RAM, a pool of distinct pages with a table for each 1024 pages lets
`paging_init` finish, and its page directory maps exactly what `kernelMap` says. -/
theorem pagingInit_maps_ram {start endKernelText initRamPages pd : UInt32}
    {tabs : List UInt32} (mem : Words) (hn : initRamPages.toNat ≤ 0x40000)
    (hnd : (pd :: tabs).Nodup) (hpage : ∀ pt ∈ tabs, Page pt)
    (hlen : tablesFor initRamPages.toNat ≤ tabs.length) :
    ∃ mem', pagingInit start endKernelText initRamPages mem (pd :: tabs) = some (mem', pd) ∧
      (∀ p < initRamPages.toNat, walk mem' pd (pageVaddr p) =
        some (p.toUInt32 * 4096, !(start ≤ pageVaddr p && pageVaddr p < endKernelText), false)) ∧
      (∀ va, 3221225472 + initRamPages.toNat * 4096 ≤ (pgRoundDown va).toNat →
        walk mem' pd va = none) ∧
      (∀ va, isUserVaddr va = true → walk mem' pd va = none) := by
  obtain ⟨mem', h, hwalk⟩ := @walk_pagingInit start endKernelText pd tabs initRamPages mem hn hnd
    hpage hlen
  refine ⟨mem', h, fun p hp => ?_, fun va hva => ?_, fun va hu => ?_⟩
  · rw [hwalk, kernelMap_pageVaddr hn hp]
  · rw [hwalk, kernelMap_of_beyond hva]
  · rw [hwalk, kernelMap_of_user hu]

/-- For every memory size the BIOS reports to `start.S`, and a pool of distinct pages with a
table for each 1024 pages of RAM, `paging_init` finishes; each page of RAM is then mapped at
`PHYS_BASE + p * PGSIZE`, for the kernel only, read-only in the kernel's text, and nothing past
RAM and nothing below `PHYS_BASE` is mapped. -/
theorem paging_init_maps_all_ram (eax : UInt32) {start endKernelText pd : UInt32}
    {tabs : List UInt32} (mem : Words) (hnd : (pd :: tabs).Nodup) (hpage : ∀ pt ∈ tabs, Page pt)
    (hlen : tablesFor (startRamPages eax).toNat ≤ tabs.length) :
    ∃ mem', pagingInit start endKernelText (startRamPages eax) mem (pd :: tabs) = some (mem', pd) ∧
      (∀ p < (startRamPages eax).toNat, walk mem' pd (pageVaddr p) =
        some (p.toUInt32 * 4096, !(start ≤ pageVaddr p && pageVaddr p < endKernelText), false)) ∧
      (∀ va, 3221225472 + (startRamPages eax).toNat * 4096 ≤ (pgRoundDown va).toNat →
        walk mem' pd va = none) ∧
      (∀ va, isUserVaddr va = true → walk mem' pd va = none) :=
  pagingInit_maps_ram mem ((startRamPages_le eax).trans (by decide)) hnd hpage hlen

theorem paging_init_maps_all_ram_sample : ∃ mem',
    pagingInit 0xC0000000 0xC0001000 (startRamPages 0) (fun _ => 0)
        [0xC0100000, 0xC0101000] = some (mem', 0xC0100000) ∧
    walk mem' 0xC0100000 (pageVaddr 0) = some (0, false, false) ∧
    walk mem' 0xC0100000 (pageVaddr 1) = some (4096, true, false) ∧
    walk mem' 0xC0100000 0xC0100000 = none ∧ walk mem' 0xC0100000 0x08048000 = none := by
  obtain ⟨mem', h, hmap, hbeyond, huser⟩ := @paging_init_maps_all_ram 0 0xC0000000
    0xC0001000 0xC0100000 [0xC0101000] (fun _ => 0) (by decide)
    (fun pt hpt => by rw [List.mem_singleton.mp hpt]; decide) (by decide)
  exact ⟨mem', h, (hmap 0 (by decide)).trans (by decide), (hmap 1 (by decide)).trans (by decide),
    hbeyond _ (by decide), huser _ (by decide)⟩

end Pintos.Threads
