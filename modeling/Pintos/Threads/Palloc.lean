import Pintos.Lib.Bitmap
import Pintos.Kit.Run
import Mathlib.Data.List.Pairwise

/-! The page allocator of threads/palloc.c. Pages are named by their page number, the kernel
virtual address divided by `PGSIZE`, so that `pg_ofs` of every page is 0 and the null pointer
is page 0. Each pool keeps its `used_map` in its own first pages. -/
namespace Pintos.Threads
open Pintos.Lib Pintos.Kit

def pgSize : Nat := 4096

/-- The page number of `PHYS_BASE`, where the kernel maps physical memory. -/
def physBasePage : Nat := 0xC0000

/-- `DIV_ROUND_UP`. -/
def divRoundUp (x step : Nat) : Nat := (x + step - 1) / step

/-- `bitmap_buf_size`: the two words of `struct bitmap` and the 32-bit `elem_type`s of
the bits. -/
def bitmapBufSize (bitCnt : Nat) : Nat := 8 + 4 * divRoundUp bitCnt 32

/-- `enum palloc_flags`. -/
structure PallocFlags where
  assert : Bool
  zero : Bool
  user : Bool
  deriving DecidableEq, Repr

/-- `struct pool`: the page number of its first page past the bitmap, and the bitmap. -/
structure Pool where
  base : Nat
  usedMap : Bitmap
  deriving DecidableEq, Repr

/-- `init_pool` of `page_cnt` pages from page `base`; `none` where it panics because the pool
cannot hold its own bitmap. -/
def initPool (base pageCnt : Nat) : Option Pool :=
  let bmPages := divRoundUp (bitmapBufSize pageCnt) pgSize
  if bmPages > pageCnt then none
  else some ⟨base + bmPages, List.replicate (pageCnt - bmPages) false⟩

/-- `page_from_pool`. -/
def Pool.pageFromPool (p : Pool) (page : Nat) : Bool :=
  p.base ≤ page && page < p.base + p.usedMap.length

structure Palloc where
  kernelPool : Pool
  userPool : Pool
  deriving DecidableEq, Repr

namespace Palloc

/-- `palloc_init`: free memory runs from 1 MB to the end of RAM; the user pool gets half of
it, but at most `user_page_limit` pages, and sits above the kernel pool. -/
def init (initRamPages userPageLimit : Nat) : Option Palloc := do
  let freeStart := physBasePage + 256
  let freePages := initRamPages - 256
  let userPages := min (freePages / 2) userPageLimit
  let kernelPages := freePages - userPages
  let k ← initPool freeStart kernelPages
  let u ← initPool (freeStart + kernelPages) userPages
  pure ⟨k, u⟩

/-- The pool `PAL_USER` selects. -/
def pool (s : Palloc) (user : Bool) : Pool := if user then s.userPool else s.kernelPool

def setPool (s : Palloc) (user : Bool) (p : Pool) : Palloc :=
  if user then { s with userPool := p } else { s with kernelPool := p }

/-- What `palloc_get_multiple` does: hand out pages, return a null pointer, or panic. -/
inductive Got where
  | pages (page : Nat)
  | null
  | panic
  deriving DecidableEq, Repr

/-- `palloc_get_multiple`. -/
def getMultiple (s : Palloc) (flags : PallocFlags) (pageCnt : Nat) : Palloc × Got :=
  if pageCnt = 0 then (s, .null)
  else
    let p := s.pool flags.user
    match p.usedMap.scanAndFlip 0 pageCnt false with
    | (m, some idx) => (s.setPool flags.user { p with usedMap := m }, .pages (p.base + idx))
    | (_, none) => (s, if flags.assert then .panic else .null)

/-- `palloc_free_multiple`; `none` where an `ASSERT` fails or the page is in no pool. -/
def freeMultiple (s : Palloc) (pages pageCnt : Nat) : Option Palloc :=
  if pages = 0 ∨ pageCnt = 0 then some s
  else
    let user? : Option Bool :=
      if s.kernelPool.pageFromPool pages then some false
      else if s.userPool.pageFromPool pages then some true
      else none
    user?.bind fun user =>
      let p := s.pool user
      let idx := pages - p.base
      if p.usedMap.all idx pageCnt then
        some (s.setPool user { p with usedMap := p.usedMap.setMultiple idx pageCnt false })
      else none

@[simp] theorem pool_false (s : Palloc) : s.pool false = s.kernelPool := rfl
@[simp] theorem pool_true (s : Palloc) : s.pool true = s.userPool := rfl

@[simp] theorem pool_setPool (s : Palloc) (u v : Bool) (p : Pool) :
    (s.setPool u p).pool v = if v = u then p else s.pool v := by
  cases u <;> cases v <;> rfl

theorem pool_setPool_shape (s : Palloc) (u v : Bool) {m : Bitmap}
    (hm : m.length = (s.pool u).usedMap.length) :
    ((s.setPool u ⟨(s.pool u).base, m⟩).pool v).base = (s.pool v).base ∧
      ((s.setPool u ⟨(s.pool u).base, m⟩).pool v).usedMap.length = (s.pool v).usedMap.length := by
  by_cases hv : v = u
  · subst hv
    simp [hm]
  · simp [hv]

/-- Everything `palloc_get_multiple` can do: refuse zero pages, hand out the first run of free
pages of the pool, or find none and return null or panic. -/
theorem getMultiple_cases (s : Palloc) (flags : PallocFlags) (n : Nat) :
    (n = 0 ∧ s.getMultiple flags n = (s, .null)) ∨
    (n ≠ 0 ∧ ∃ idx, (s.pool flags.user).usedMap.scan 0 n false = some idx ∧
      s.getMultiple flags n = (s.setPool flags.user { s.pool flags.user with
        usedMap := (s.pool flags.user).usedMap.setMultiple idx n true }, .pages ((s.pool flags.user).base + idx))) ∨
    (n ≠ 0 ∧ (s.pool flags.user).usedMap.scan 0 n false = none ∧
      s.getMultiple flags n = (s, if flags.assert then .panic else .null)) := by
  by_cases hn : n = 0
  · exact .inl ⟨hn, by simp [getMultiple, hn]⟩
  · cases hs : (s.pool flags.user).usedMap.scan 0 n false with
    | some idx => exact .inr (.inl ⟨hn, idx, rfl, by simp [getMultiple, hn, Bitmap.scanAndFlip, hs]⟩)
    | none => exact .inr (.inr ⟨hn, rfl, by simp [getMultiple, hn, Bitmap.scanAndFlip, hs]⟩)

end Palloc

/-- A run of pages that `palloc_get_multiple` handed out and that has not been freed. -/
structure Range where
  user : Bool
  start : Nat
  cnt : Nat
  deriving DecidableEq, Repr

namespace Range

/-- `page` is one of the range's pages. -/
def Mem (r : Range) (page : Nat) : Prop := r.start ≤ page ∧ page < r.start + r.cnt

def Disjoint (r r' : Range) : Prop := r.start + r.cnt ≤ r'.start ∨ r'.start + r'.cnt ≤ r.start

theorem Disjoint.symm {r r' : Range} (h : r.Disjoint r') : r'.Disjoint r := Or.symm h

instance : Std.Symm Disjoint := ⟨fun _ _ h => Disjoint.symm h⟩

theorem Disjoint.not_mem {r r' : Range} {page : Nat} (h : r.Disjoint r') (hr : r.Mem page) :
    ¬ r'.Mem page := by
  unfold Mem at *
  unfold Disjoint at h
  omega

theorem disjoint_of_forall {r r' : Range} (hr : 0 < r.cnt) (hr' : 0 < r'.cnt)
    (h : ∀ page, r.Mem page → ¬ r'.Mem page) : r.Disjoint r' := by
  by_contra hn
  unfold Disjoint at hn
  apply h (max r.start r'.start) <;> (unfold Mem; omega)

/-- The pages of pool `u` that one of the runs `live` covers. -/
def Held (live : List Range) (u : Bool) (page : Nat) : Prop := ∃ r ∈ live, r.user = u ∧ r.Mem page

theorem held_append {live : List Range} {r : Range} {u : Bool} {page : Nat} :
    Held (live ++ [r]) u page ↔ Held live u page ∨ (r.user = u ∧ r.Mem page) := by
  simp only [Held, List.mem_append, List.mem_singleton]
  constructor
  · rintro ⟨r', hr' | rfl, hu, hm⟩
    · exact .inl ⟨r', hr', hu, hm⟩
    · exact .inr ⟨hu, hm⟩
  · rintro (⟨r', hr', hu, hm⟩ | ⟨hu, hm⟩)
    · exact ⟨r', .inl hr', hu, hm⟩
    · exact ⟨r, .inr rfl, hu, hm⟩

end Range

/-- The allocator with the runs of pages its callers hold; a caller frees only a run it
holds. -/
structure World where
  alloc : Palloc
  live : List Range

inductive Event where
  | get (flags : PallocFlags) (pageCnt : Nat)
  | free (r : Range)

namespace World

def init (initRamPages userPageLimit : Nat) : Option World :=
  (Palloc.init initRamPages userPageLimit).map fun a => ⟨a, []⟩

/-- One call; `none` for a panic, or for a free of a run the caller does not hold. -/
def step (w : World) : Event → Option World
  | .get flags n =>
    match w.alloc.getMultiple flags n with
    | (a, .pages p) => some ⟨a, w.live ++ [⟨flags.user, p, n⟩]⟩
    | (a, .null) => some ⟨a, w.live⟩
    | (_, .panic) => none
  | .free r =>
    if r ∈ w.live then (w.alloc.freeMultiple r.start r.cnt).map fun a => ⟨a, w.live.erase r⟩
    else none


/-- The allocator's bitmaps are the runs its callers hold: each run is inside its pool past
the bitmap, no two runs share a page, and a bit is set exactly for a held page. -/
structure Inv (w : World) : Prop where
  nonnull : 0 < (w.alloc.pool false).base
  split : (w.alloc.pool false).base + (w.alloc.pool false).usedMap.length ≤ (w.alloc.pool true).base
  inside : ∀ r ∈ w.live, 0 < r.cnt ∧ (w.alloc.pool r.user).base ≤ r.start ∧
    r.start + r.cnt ≤ (w.alloc.pool r.user).base + (w.alloc.pool r.user).usedMap.length
  used : ∀ u k, k < (w.alloc.pool u).usedMap.length →
    ((w.alloc.pool u).usedMap.test k = true ↔ Range.Held w.live u ((w.alloc.pool u).base + k))
  disjoint : w.live.Pairwise Range.Disjoint


theorem initPool_eq {base n : Nat} {p : Pool} (h : initPool base n = some p) :
    ∃ bm, 0 < bm ∧ bm ≤ n ∧ p = ⟨base + bm, List.replicate (n - bm) false⟩ := by
  dsimp only [initPool] at h
  split at h
  · cases h
  · rename_i hle
    cases h
    refine ⟨_, ?_, Nat.le_of_not_gt hle, rfl⟩
    simp only [divRoundUp, bitmapBufSize, pgSize]
    omega

theorem init_inv {ram limit : Nat} {w : World} (h : init ram limit = some w) :
    w.Inv ∧ w.live = [] := by
  obtain ⟨a, ha, rfl⟩ := Option.map_eq_some_iff.mp h
  simp only [Palloc.init, Option.bind_eq_bind, Option.bind_eq_some_iff, Option.pure_def,
    Option.some.injEq] at ha
  obtain ⟨k, hk, u, hu, rfl⟩ := ha
  obtain ⟨bk, hbk, hbk', rfl⟩ := initPool_eq hk
  obtain ⟨bu, hbu, -, rfl⟩ := initPool_eq hu
  refine ⟨⟨?_, ?_, by simp, fun v i hi => ?_, List.Pairwise.nil⟩, rfl⟩
  · show 0 < physBasePage + 256 + bk
    omega
  · show physBasePage + 256 + bk + (List.replicate _ false).length ≤ physBasePage + 256 + _ + bu
    rw [List.length_replicate]
    omega
  · cases v <;> simp [Palloc.pool, Bitmap.test_replicate_false, Range.Held]

variable {w w' : World}

theorem Inv.apart (hi : w.Inv) {u v : Bool} (huv : u ≠ v) (page : Nat)
    (hu : (w.alloc.pool u).base ≤ page ∧ page < (w.alloc.pool u).base + (w.alloc.pool u).usedMap.length) :
    ¬ ((w.alloc.pool v).base ≤ page ∧ page < (w.alloc.pool v).base + (w.alloc.pool v).usedMap.length) := by
  have hs := hi.split
  cases u <;> cases v <;> simp_all <;> omega

theorem Inv.disjoint_of_clear (hi : w.Inv) {u : Bool} {idx n : Nat} (hn : 0 < n)
    (hlen : idx + n ≤ (w.alloc.pool u).usedMap.length)
    (hclear : ∀ i < n, (w.alloc.pool u).usedMap.test (idx + i) = false) :
    ∀ r ∈ w.live, r.Disjoint ⟨u, (w.alloc.pool u).base + idx, n⟩ := by
  intro r hr
  obtain ⟨hcnt, hlo, hhi⟩ := hi.inside r hr
  refine Range.disjoint_of_forall hcnt hn fun page hmem hnew => ?_
  simp only [Range.Mem] at hmem hnew
  obtain ⟨i, hi', rfl⟩ : ∃ i < n, page = (w.alloc.pool u).base + (idx + i) :=
    ⟨page - ((w.alloc.pool u).base + idx), by omega, by omega⟩
  by_cases hru : r.user = u
  · have hheld : Range.Held w.live u ((w.alloc.pool u).base + (idx + i)) := ⟨r, hr, hru, hmem⟩
    have hset := (hi.used u (idx + i) (by omega)).mpr hheld
    rw [hclear i hi'] at hset
    cases hset
  · exact hi.apart hru ((w.alloc.pool u).base + (idx + i)) ⟨by omega, by omega⟩
      ⟨by omega, by omega⟩

theorem Inv.nodup (hi : w.Inv) : w.live.Nodup := by
  refine List.Pairwise.imp_of_mem (fun {r r'} hr _ hd e => ?_) hi.disjoint
  subst e
  have := (hi.inside r hr).1
  unfold Range.Disjoint at hd
  omega

theorem mem_window {u : Bool} {base idx n k : Nat} :
    (⟨u, base + idx, n⟩ : Range).Mem (base + k) ↔ idx ≤ k ∧ k < idx + n := by
  simp only [Range.Mem]
  omega

theorem Inv.mark (hi : w.Inv) {u : Bool} {idx n : Nat} (hn : 0 < n)
    (hlen : idx + n ≤ (w.alloc.pool u).usedMap.length)
    (hclear : ∀ i < n, (w.alloc.pool u).usedMap.test (idx + i) = false) :
    Inv ⟨w.alloc.setPool u ⟨(w.alloc.pool u).base, (w.alloc.pool u).usedMap.setMultiple idx n true⟩,
      w.live ++ [⟨u, (w.alloc.pool u).base + idx, n⟩]⟩ := by
  have hm : ((w.alloc.pool u).usedMap.setMultiple idx n true).length =
      (w.alloc.pool u).usedMap.length := Bitmap.length_setMultiple
  have hpool := fun v => w.alloc.pool_setPool_shape u v hm
  refine ⟨?_, ?_, fun r hr => ?_, fun v k hk => ?_, ?_⟩
  · rw [(hpool false).1]
    exact hi.nonnull
  · rw [(hpool false).1, (hpool false).2, (hpool true).1]
    exact hi.split
  · rw [(hpool r.user).1, (hpool r.user).2]
    rcases List.mem_append.mp hr with hr | hr
    · exact hi.inside r hr
    · rw [List.mem_singleton] at hr
      subst hr
      exact ⟨hn, Nat.le_add_right _ _, by simp only; omega⟩
  · rw [(hpool v).2] at hk
    rw [(hpool v).1, Range.held_append, ← hi.used v k hk]
    by_cases hv : v = u
    · subst hv
      rw [Palloc.pool_setPool, if_pos rfl, Bitmap.test_setMultiple, mem_window]
      by_cases hw : idx ≤ k ∧ k < idx + n
      · simp [hw, hk]
      · rw [if_neg fun h' => hw ⟨h'.1, h'.2.1⟩]
        simp [hw]
    · rw [Palloc.pool_setPool, if_neg hv]
      simp [Ne.symm hv]
  · refine List.pairwise_append.mpr ⟨hi.disjoint, List.pairwise_singleton _ _, ?_⟩
    intro r hr r' hr'
    rw [List.mem_singleton] at hr'
    subst hr'
    exact hi.disjoint_of_clear hn hlen hclear r hr

theorem Inv.get {f : PallocFlags} {n : Nat} (hi : w.Inv) (h : w.step (.get f n) = some w') :
    w'.Inv := by
  rcases Palloc.getMultiple_cases w.alloc f n with ⟨-, hg⟩ | ⟨hn, idx, hs, hg⟩ | ⟨-, -, hg⟩
  · simp only [step, hg, Option.some.injEq] at h
    subst h
    exact hi
  · simp only [step, hg, Option.some.injEq] at h
    subst h
    obtain ⟨-, hlen, hclear⟩ := Bitmap.scan_some hs
    exact hi.mark (Nat.pos_of_ne_zero hn) hlen hclear
  · cases hf : f.assert <;> simp [step, hg, hf] at h
    subst h
    exact hi

theorem held_erase (hi : w.Inv) {r : Range} (hr : r ∈ w.live) {v : Bool} {page : Nat} :
    Range.Held (w.live.erase r) v page ↔ Range.Held w.live v page ∧ ¬ (r.user = v ∧ r.Mem page) := by
  have hd : ∀ r' ∈ w.live, r' ≠ r → r'.Disjoint r := fun r' hr' hne =>
    hi.disjoint.forall hr' hr hne
  constructor
  · rintro ⟨r', hr', hu, hm⟩
    obtain ⟨hne, hr''⟩ := (hi.nodup.mem_erase_iff).mp hr'
    exact ⟨⟨r', hr'', hu, hm⟩, fun ⟨_, hm'⟩ => (hd r' hr'' hne).not_mem hm hm'⟩
  · rintro ⟨⟨r', hr', hu, hm⟩, hnot⟩
    have hne : r' ≠ r := by
      rintro rfl
      exact hnot ⟨hu, hm⟩
    exact ⟨r', (hi.nodup.mem_erase_iff).mpr ⟨hne, hr'⟩, hu, hm⟩

/-- Freeing a held run: its pool is found from its first page, every bit of it is set, and
`palloc_free_multiple` clears them. -/
theorem Inv.freeMultiple (hi : w.Inv) {r : Range} (hr : r ∈ w.live) :
    w.alloc.freeMultiple r.start r.cnt = some (w.alloc.setPool r.user
      ⟨(w.alloc.pool r.user).base, (w.alloc.pool r.user).usedMap.setMultiple
        (r.start - (w.alloc.pool r.user).base) r.cnt false⟩) := by
  obtain ⟨hcnt, hlo, hhi⟩ := hi.inside r hr
  have hbase : ∀ v, 0 < (w.alloc.pool v).base := by
    intro v
    have hnz := hi.nonnull
    have hsp := hi.split
    cases v
    · exact hnz
    · omega
  have hpick : (if w.alloc.kernelPool.pageFromPool r.start then some false
      else if w.alloc.userPool.pageFromPool r.start then some true else none) = some r.user := by
    have hsp := hi.split
    cases hu : r.user <;> rw [hu] at hlo hhi <;> simp [Pool.pageFromPool] at hlo hhi hsp ⊢
    · omega
    · rw [if_neg (by omega), if_pos (by omega)]
  have hall : (w.alloc.pool r.user).usedMap.all (r.start - (w.alloc.pool r.user).base) r.cnt := by
    rw [Bitmap.all_iff]
    intro i hi'
    refine (hi.used r.user _ (by omega)).mpr ⟨r, hr, rfl, ?_⟩
    simp only [Range.Mem]
    omega
  have hstart : r.start ≠ 0 := by
    have := hbase r.user
    omega
  simp only [Palloc.freeMultiple, hstart, Nat.pos_iff_ne_zero.mp hcnt, or_self, if_false, hpick,
    Option.bind_some, hall, if_true]

theorem Inv.release (hi : w.Inv) {r : Range} (hr : r ∈ w.live) :
    Inv ⟨w.alloc.setPool r.user ⟨(w.alloc.pool r.user).base, (w.alloc.pool r.user).usedMap.setMultiple
      (r.start - (w.alloc.pool r.user).base) r.cnt false⟩, w.live.erase r⟩ := by
  have hm : ((w.alloc.pool r.user).usedMap.setMultiple (r.start - (w.alloc.pool r.user).base)
      r.cnt false).length = (w.alloc.pool r.user).usedMap.length := Bitmap.length_setMultiple
  have hpool := fun v => w.alloc.pool_setPool_shape r.user v hm
  obtain ⟨hcnt, hlo, hhi⟩ := hi.inside r hr
  refine ⟨?_, ?_, fun r' hr' => ?_, fun v k hk => ?_, hi.disjoint.sublist (List.erase_sublist)⟩
  · rw [(hpool false).1]
    exact hi.nonnull
  · rw [(hpool false).1, (hpool false).2, (hpool true).1]
    exact hi.split
  · rw [(hpool r'.user).1, (hpool r'.user).2]
    exact hi.inside r' (List.mem_of_mem_erase hr')
  · rw [(hpool v).2] at hk
    rw [(hpool v).1, held_erase hi hr, ← hi.used v k hk]
    by_cases hv : r.user = v
    · subst hv
      rw [Palloc.pool_setPool, if_pos rfl, Bitmap.test_setMultiple]
      have hwin : r.Mem ((w.alloc.pool r.user).base + k) ↔
          r.start - (w.alloc.pool r.user).base ≤ k ∧ k < r.start - (w.alloc.pool r.user).base + r.cnt := by
        simp only [Range.Mem]
        omega
      rw [hwin]
      by_cases hw : r.start - (w.alloc.pool r.user).base ≤ k ∧
          k < r.start - (w.alloc.pool r.user).base + r.cnt
      · simp [hw, hk]
      · rw [if_neg fun h' => hw ⟨h'.1, h'.2.1⟩]
        simp only [hw, true_and, not_false_eq_true, and_true]
    · rw [Palloc.pool_setPool, if_neg (Ne.symm hv)]
      simp [hv]

theorem Inv.free {r : Range} (hi : w.Inv) (h : w.step (.free r) = some w') : w'.Inv := by
  simp only [step] at h
  split at h
  · rename_i hr
    rw [hi.freeMultiple hr] at h
    cases h
    exact hi.release hr
  · cases h

theorem Inv.step {e : Event} (hi : w.Inv) (h : w.step e = some w') : w'.Inv := by
  cases e with
  | get f n => exact hi.get h
  | free r => exact hi.free h

/-- The pools keep the pages `palloc_init` gave them. -/
def SameShape (w w' : World) : Prop :=
  ∀ v, (w'.alloc.pool v).base = (w.alloc.pool v).base ∧
    (w'.alloc.pool v).usedMap.length = (w.alloc.pool v).usedMap.length

theorem freeMultiple_shape {s s' : Palloc} {pages n : Nat} (h : s.freeMultiple pages n = some s') :
    ∀ v, (s'.pool v).base = (s.pool v).base ∧ (s'.pool v).usedMap.length = (s.pool v).usedMap.length := by
  simp only [Palloc.freeMultiple] at h
  split at h
  · cases h
    exact fun _ => ⟨rfl, rfl⟩
  · obtain ⟨u, -, h⟩ := Option.bind_eq_some_iff.mp h
    split at h
    · cases h
      exact fun v => s.pool_setPool_shape u v Bitmap.length_setMultiple
    · cases h

theorem step_shape {e : Event} (h : w.step e = some w') : SameShape w w' := by
  cases e with
  | get f n =>
    rcases Palloc.getMultiple_cases w.alloc f n with ⟨-, hg⟩ | ⟨-, idx, -, hg⟩ | ⟨-, -, hg⟩
    · simp only [step, hg, Option.some.injEq] at h
      subst h
      exact fun _ => ⟨rfl, rfl⟩
    · simp only [step, hg, Option.some.injEq] at h
      subst h
      exact fun v => w.alloc.pool_setPool_shape _ v Bitmap.length_setMultiple
    · cases hf : f.assert <;> simp [step, hg, hf] at h
      subst h
      exact fun _ => ⟨rfl, rfl⟩
  | free r =>
    simp only [step] at h
    split at h
    · obtain ⟨a, ha, rfl⟩ := Option.map_eq_some_iff.mp h
      exact freeMultiple_shape ha
    · cases h

/-- Every state that calls reach from `palloc_init` keeps the invariant and the pools. -/
theorem reachable {ram limit : Nat} {w0 : World} {es : List Event} (h0 : init ram limit = some w0)
    (h : runs step w0 es = some w) : w.Inv ∧ SameShape w0 w := by
  have hstep : ∀ s e t, Inv s → step s e = some t → Inv t ∧ SameShape s t :=
    fun _ _ _ hs he => ⟨hs.step he, step_shape he⟩
  exact runs_rel (fun _ _ => ⟨rfl, rfl⟩)
    (fun _ _ _ hab hbc v => ⟨(hbc v).1.trans (hab v).1, (hbc v).2.trans (hab v).2⟩)
    hstep w0 es (init_inv h0).1 h

/-- The pages `palloc_get_multiple` hands out: a run of the pool `PAL_USER` selects, past its
bitmap, that no held run touches. -/
theorem Inv.getMultiple_pages (hi : w.Inv) {f : PallocFlags} {n p : Nat}
    (h : (w.alloc.getMultiple f n).2 = .pages p) :
    0 < n ∧ (w.alloc.pool f.user).base ≤ p ∧
      p + n ≤ (w.alloc.pool f.user).base + (w.alloc.pool f.user).usedMap.length ∧
      ∀ r ∈ w.live, r.Disjoint ⟨f.user, p, n⟩ := by
  rcases Palloc.getMultiple_cases w.alloc f n with ⟨-, hg⟩ | ⟨hn, idx, hs, hg⟩ | ⟨-, -, hg⟩
  · rw [hg] at h
    cases h
  · rw [hg] at h
    cases h
    obtain ⟨-, hlen, hclear⟩ := Bitmap.scan_some hs
    exact ⟨Nat.pos_of_ne_zero hn, Nat.le_add_right _ _, by omega,
      hi.disjoint_of_clear (Nat.pos_of_ne_zero hn) hlen hclear⟩
  · rw [hg] at h
    cases hf : f.assert <;> simp [hf] at h

/-- `palloc_get_multiple` of `n ≥ 1` pages returns no pages only when every run of `n` pages of
the pool has a held page. -/
theorem Inv.getMultiple_none (hi : w.Inv) {f : PallocFlags} {n : Nat} (hn : 0 < n)
    (h : ∀ p, (w.alloc.getMultiple f n).2 ≠ .pages p) :
    ∀ q, (w.alloc.pool f.user).base ≤ q →
      q + n ≤ (w.alloc.pool f.user).base + (w.alloc.pool f.user).usedMap.length →
      ∃ i < n, Range.Held w.live f.user (q + i) := by
  intro q hq hqn
  rcases Palloc.getMultiple_cases w.alloc f n with ⟨hn0, -⟩ | ⟨-, idx, -, hg⟩ | ⟨-, hs, -⟩
  · omega
  · exact absurd (by rw [hg]) (h _)
  · obtain ⟨i, hi', hset⟩ := Bitmap.scan_none hs (q - (w.alloc.pool f.user).base) (Nat.zero_le _)
      (by omega)
    refine ⟨i, hi', ?_⟩
    have := (hi.used f.user (q - (w.alloc.pool f.user).base + i) (by omega)).mp hset
    rwa [show (w.alloc.pool f.user).base + (q - (w.alloc.pool f.user).base + i) = q + i by omega]
      at this

theorem Inv.freeMultiple_frees (hi : w.Inv) {r : Range} (hr : r ∈ w.live) :
    ∃ a, w.alloc.freeMultiple r.start r.cnt = some a ∧ ∀ v k, k < (w.alloc.pool v).usedMap.length →
      ((a.pool v).usedMap.test k = true ↔
        (w.alloc.pool v).usedMap.test k = true ∧ ¬ (r.user = v ∧ r.Mem ((w.alloc.pool v).base + k))) := by
  refine ⟨_, hi.freeMultiple hr, fun v k hk => ?_⟩
  have hrel := hi.release hr
  have hshape := freeMultiple_shape (hi.freeMultiple hr) v
  rw [hrel.used v k (by rw [hshape.2]; exact hk), hshape.1, held_erase hi hr, hi.used v k hk]

end World

open World in
/-- From `palloc_init` and after any calls that free only what they hold: every held run lies in
its pool past the bitmap and no two share a page; the next `palloc_get_multiple` of `n ≥ 1`
pages hands out a run that no held run touches, or returns none only when every run of `n`
pages has a held page; `palloc_get_multiple` of 0 pages returns null; and freeing a held run
frees exactly its pages. -/
theorem palloc_hands_out_disjoint_runs {ram limit : Nat} {w0 w : World} {es : List Event}
    (h0 : World.init ram limit = some w0) (h : runs World.step w0 es = some w) :
    (∀ v, (w.alloc.pool v).base = (w0.alloc.pool v).base ∧
      (w.alloc.pool v).usedMap.length = (w0.alloc.pool v).usedMap.length) ∧
    (∀ r ∈ w.live, 0 < r.cnt ∧ (w.alloc.pool r.user).base ≤ r.start ∧
      r.start + r.cnt ≤ (w.alloc.pool r.user).base + (w.alloc.pool r.user).usedMap.length) ∧
    w.live.Pairwise Range.Disjoint ∧
    (∀ f n p, (w.alloc.getMultiple f n).2 = .pages p → 0 < n ∧ (w.alloc.pool f.user).base ≤ p ∧
      p + n ≤ (w.alloc.pool f.user).base + (w.alloc.pool f.user).usedMap.length ∧
      ∀ r ∈ w.live, r.Disjoint ⟨f.user, p, n⟩) ∧
    (∀ f n, 0 < n → (∀ p, (w.alloc.getMultiple f n).2 ≠ .pages p) → ∀ q, (w.alloc.pool f.user).base ≤ q →
      q + n ≤ (w.alloc.pool f.user).base + (w.alloc.pool f.user).usedMap.length →
      ∃ i < n, Range.Held w.live f.user (q + i)) ∧
    (∀ f, (w.alloc.getMultiple f 0).2 = .null) ∧
    (∀ r ∈ w.live, ∃ a, w.alloc.freeMultiple r.start r.cnt = some a ∧
      ∀ v k, k < (w.alloc.pool v).usedMap.length → ((a.pool v).usedMap.test k = true ↔
        (w.alloc.pool v).usedMap.test k = true ∧ ¬ (r.user = v ∧ r.Mem ((w.alloc.pool v).base + k)))) := by
  obtain ⟨hi, hshape⟩ := reachable h0 h
  exact ⟨hshape, hi.inside, hi.disjoint, fun _ _ _ hp => hi.getMultiple_pages hp,
    fun _ _ hn hp => hi.getMultiple_none hn hp, fun _ => by simp [Palloc.getMultiple],
    fun _ hr => hi.freeMultiple_frees hr⟩

theorem palloc_hands_out_disjoint_runs_sample :
    ∃ w0 w, World.init 264 4294967295 = some w0 ∧
      runs World.step w0 [.get ⟨false, false, false⟩ 2, .get ⟨false, true, true⟩ 1] = some w ∧
      w.live.Pairwise Range.Disjoint ∧ ∀ f, (w.alloc.getMultiple f 0).2 = .null := by
  obtain ⟨w0, w, h0, h⟩ : ∃ w0 w, World.init 264 4294967295 = some w0 ∧
      runs World.step w0 [.get ⟨false, false, false⟩ 2, .get ⟨false, true, true⟩ 1] = some w :=
    ⟨_, _, rfl, rfl⟩
  obtain ⟨-, -, hd, -, -, hz, -⟩ := palloc_hands_out_disjoint_runs h0 h
  exact ⟨w0, w, h0, h, hd, hz⟩

/-- A request for no pages gets a null pointer, though the pool has free pages: right after
`palloc_init` on 264 pages of RAM, one page is handed out from the first page past the bitmap. -/
theorem palloc_zero_pages_null :
    ∃ a, Palloc.init 264 4294967295 = some a ∧ (a.getMultiple ⟨false, false, false⟩ 0).2 = .null ∧
      (a.getMultiple ⟨false, false, false⟩ 1).2 = .pages (physBasePage + 257) :=
  ⟨_, rfl, rfl, rfl⟩

end Pintos.Threads
