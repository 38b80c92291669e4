import Mathlib.Logic.Equiv.Basic
import Mathlib.Data.List.Nodup
import Mathlib.Data.List.Perm.Subperm

/-! Arrays as functions from 1-based positions, compared by a total preorder given as a
`strcmp`-type function: rearrangements of a range of positions, sorted ranges, and the max-heap
order of the implicit binary tree in which position `c` is a child of `c / 2`, with what a
sift-down and the extraction loop of heap sort keep of it. Nothing here depends on what is
compared. -/
namespace Pintos.Kit
open Std

variable {α : Type}

/-- A `strcmp`-type comparison (negative, zero, positive) as an `Ordering`. -/
def cmpOrd (cmp : α → α → Int) (x y : α) : Ordering := compare (cmp x y) 0

section Sign
variable {cmp : α → α → Int} {x y : α}

@[simp] theorem cmpOrd_eq_gt : cmpOrd cmp x y = .gt ↔ 0 < cmp x y := Int.compare_eq_gt

@[simp] theorem cmpOrd_eq_lt : cmpOrd cmp x y = .lt ↔ cmp x y < 0 := Int.compare_eq_lt

@[simp] theorem cmpOrd_eq_eq : cmpOrd cmp x y = .eq ↔ cmp x y = 0 := Int.compare_eq_eq

theorem cmpOrd_ne_gt : cmpOrd cmp x y ≠ .gt ↔ cmp x y ≤ 0 := by
  rw [Ne, cmpOrd_eq_gt]
  omega

theorem cmpOrd_sub (f : α → Int) : cmpOrd (fun x y => f x - f y) = compareOn f := by
  funext x y
  simp only [cmpOrd, compareOn]
  cases h : compare (f x) (f y)
  · rw [Int.compare_eq_lt] at h ⊢
    omega
  · rw [Int.compare_eq_eq] at h ⊢
    omega
  · rw [Int.compare_eq_gt] at h ⊢
    omega

theorem transCmp_sub (f : α → Int) : TransCmp (cmpOrd fun x y => f x - f y) := by
  rw [cmpOrd_sub]
  infer_instance

end Sign

/-! ### Rearrangements -/

section Rearranged
variable {lo hi : Nat} {a b c : Nat → α}

/-- `b` holds at the positions `lo..hi` what `a` holds there, moved by a permutation that moves
no position outside them. -/
def Rearranged (lo hi : Nat) (a b : Nat → α) : Prop :=
  ∃ σ : Equiv.Perm Nat, (∀ x, x < lo ∨ hi < x → σ x = x) ∧ ∀ x, lo ≤ x → x ≤ hi → b x = a (σ x)

/-- A permutation that fixes every position outside `lo..hi` maps the positions inside to
positions inside. -/
theorem mem_of_fixes {σ : Equiv.Perm Nat} (hσ : ∀ x, x < lo ∨ hi < x → σ x = x) {x : Nat}
    (h1 : lo ≤ x) (h2 : x ≤ hi) : lo ≤ σ x ∧ σ x ≤ hi := by
  by_contra hout
  have hfix : σ (σ x) = σ x := hσ _ (by omega)
  have hx : σ x = x := σ.injective hfix
  rw [hx] at hout
  omega

theorem Rearranged.refl (lo hi : Nat) (a : Nat → α) : Rearranged lo hi a a :=
  ⟨Equiv.refl Nat, fun _ _ => rfl, fun _ _ _ => rfl⟩

theorem Rearranged.trans (hab : Rearranged lo hi a b) (hbc : Rearranged lo hi b c) :
    Rearranged lo hi a c := by
  obtain ⟨σ, hσ, hb⟩ := hab
  obtain ⟨τ, hτ, hc⟩ := hbc
  refine ⟨τ.trans σ, fun x hx => ?_, fun x h1 h2 => ?_⟩
  · rw [Equiv.trans_apply, hτ x hx, hσ x hx]
  · obtain ⟨h3, h4⟩ := mem_of_fixes hτ h1 h2
    rw [hc x h1 h2, hb _ h3 h4, Equiv.trans_apply]

theorem rearranged_swap {i j : Nat} (hil : lo ≤ i ∧ i ≤ hi) (hjl : lo ≤ j ∧ j ≤ hi)
    (hb : ∀ x, lo ≤ x → x ≤ hi → b x = a (Equiv.swap i j x)) : Rearranged lo hi a b :=
  ⟨Equiv.swap i j, fun x hx => Equiv.swap_apply_of_ne_of_ne (by omega) (by omega), hb⟩

theorem Rearranged.widen {lo' hi' : Nat} (h : Rearranged lo hi a b) (hl : lo' ≤ lo)
    (hh : hi ≤ hi') (hout : ∀ x, lo' ≤ x → x ≤ hi' → x < lo ∨ hi < x → b x = a x) :
    Rearranged lo' hi' a b := by
  obtain ⟨σ, hσ, hb⟩ := h
  refine ⟨σ, fun x hx => hσ x (by omega), fun x h1 h2 => ?_⟩
  by_cases hin : lo ≤ x ∧ x ≤ hi
  · exact hb x hin.1 hin.2
  · have hx : x < lo ∨ hi < x := by omega
    rw [hout x h1 h2 hx, hσ x hx]

theorem Rearranged.perm (h : Rearranged lo hi a b) :
    ((List.range' lo (hi + 1 - lo)).map b).Perm ((List.range' lo (hi + 1 - lo)).map a) := by
  obtain ⟨σ, hσ, hb⟩ := h
  have hmem : ∀ x ∈ List.range' lo (hi + 1 - lo), lo ≤ x ∧ x ≤ hi := fun x hx => by
    rw [List.mem_range'_1] at hx
    omega
  have hmap : (List.range' lo (hi + 1 - lo)).map b = ((List.range' lo (hi + 1 - lo)).map σ).map a := by
    rw [List.map_map]
    refine List.map_congr_left fun x hx => ?_
    exact hb x (hmem x hx).1 (hmem x hx).2
  have hσperm : ((List.range' lo (hi + 1 - lo)).map σ).Perm (List.range' lo (hi + 1 - lo)) := by
    have hsub : (List.range' lo (hi + 1 - lo)).map σ ⊆ List.range' lo (hi + 1 - lo) := by
      intro y hy
      obtain ⟨x, hx, rfl⟩ := List.mem_map.1 hy
      obtain ⟨h1, h2⟩ := mem_of_fixes hσ (hmem x hx).1 (hmem x hx).2
      rw [List.mem_range'_1]
      omega
    apply (List.subperm_of_subset ((List.nodup_range' ..).map σ.injective) hsub).perm_of_length_le
    exact Nat.le_of_eq (List.length_map ..).symm
  rw [hmap]
  exact hσperm.map a

end Rearranged

/-! ### Sorted ranges and heaps -/

section Heap
variable {cmp : α → α → Ordering} {a b c : Nat → α} {r n h m k N : Nat}

/-- The positions `lo..hi` of `a` are in nondecreasing order. -/
def SortedOn (cmp : α → α → Ordering) (a : Nat → α) (lo hi : Nat) : Prop :=
  ∀ x y, lo ≤ x → x < y → y ≤ hi → cmp (a x) (a y) ≠ .gt

/-- Every position up to `n` whose parent is at `r` or later holds no more than that parent. -/
def HeapFrom (cmp : α → α → Ordering) (a : Nat → α) (r n : Nat) : Prop :=
  ∀ c, c ≤ n → r ≤ c / 2 → cmp (a c) (a (c / 2)) ≠ .gt

/-- What a sift-down from `r` keeps while the element it moves is at `h`: every pair of a parent
at `r` or later and its child up to `n` is in order except where the parent is `h`, and below
`r` the children of `h` are no more than `h`'s parent. -/
structure SiftInv (cmp : α → α → Ordering) (a : Nat → α) (r n h : Nat) : Prop where
  off : ∀ c, c ≤ n → r ≤ c / 2 → c / 2 ≠ h → cmp (a c) (a (c / 2)) ≠ .gt
  grand : r < h → ∀ c, c ≤ n → c / 2 = h → cmp (a c) (a (h / 2)) ≠ .gt
  root : r ≤ h
  pos : 0 < r

theorem SortedOn.pairwise {lo hi : Nat} (hs : SortedOn cmp a lo hi) :
    ((List.range' lo (hi + 1 - lo)).map a).Pairwise fun u v => cmp u v ≠ .gt := by
  rw [List.pairwise_map]
  apply List.Pairwise.imp_of_mem _ List.pairwise_lt_range'
  intro x y hx hy hxy
  rw [List.mem_range'_1] at hx hy
  exact hs x y (by omega) hxy (by omega)

theorem heapFrom_half (cmp : α → α → Ordering) (a : Nat → α) (n : Nat) :
    HeapFrom cmp a (n / 2 + 1) n := fun c hc hr => by
  have : c / 2 ≤ n / 2 := Nat.div_le_div_right hc
  omega

theorem HeapFrom.le_root [TransCmp cmp] (hh : HeapFrom cmp a 1 n) :
    ∀ x, 1 ≤ x → x ≤ n → cmp (a x) (a 1) ≠ .gt := by
  intro x
  induction x using Nat.strongRecOn with
  | _ x ih =>
    intro h1 h2
    by_cases hx : x = 1
    · have hself : cmp (a 1) (a 1) = .eq := ReflCmp.compare_self
      rw [hx, hself]
      simp
    · -- up to the parent, then from the parent to the root
      have hp : cmp (a x) (a (x / 2)) ≠ .gt := hh x h2 (by omega)
      exact TransCmp.le_trans hp (ih (x / 2) (by omega) (by omega) (by omega))

theorem HeapFrom.siftInv (hh : HeapFrom cmp a (r + 1) n) (hr : 0 < r) : SiftInv cmp a r n r where
  off c hc hcr hch := hh c hc (by omega)
  grand hrr := absurd hrr (Nat.lt_irrefl r)
  root := Nat.le_refl r
  pos := hr

/-- After the root of a heap of `k` is exchanged with its last position, a sift-down from the
root restores the heap on the first `k - 1` positions. -/
theorem HeapFrom.siftInv_root (hh : HeapFrom cmp a 1 k) (hb : ∀ x, 2 ≤ x → x < k → b x = a x) :
    SiftInv cmp b 1 (k - 1) 1 where
  off c hc hcr hch := by
    rw [hb c (by omega) (by omega), hb (c / 2) (by omega) (by omega)]
    exact hh c (by omega) hcr
  grand h11 := absurd h11 (Nat.lt_irrefl 1)
  root := Nat.le_refl 1
  pos := Nat.one_pos

/-- One step of a sift-down: the element at `h` changes place with its largest child `m`, which
is no less than it. -/
theorem SiftInv.swap (hinv : SiftInv cmp a r n h) (hm : m / 2 = h) (hmn : m ≤ n)
    (hhm : cmp (a h) (a m) ≠ .gt) (hmax : ∀ c, c ≤ n → c / 2 = h → cmp (a c) (a m) ≠ .gt)
    (hb : ∀ x, 1 ≤ x → x ≤ n → b x = a (Equiv.swap h m x)) : SiftInv cmp b r n m := by
  have hr := hinv.pos
  have hrh := hinv.root
  have hbh : b h = a m := by rw [hb h (by omega) (by omega), Equiv.swap_apply_left]
  have hbm : b m = a h := by rw [hb m (by omega) hmn, Equiv.swap_apply_right]
  have hbx : ∀ x, 1 ≤ x → x ≤ n → x ≠ h → x ≠ m → b x = a x := fun x h1 h2 h3 h4 => by
    rw [hb x h1 h2, Equiv.swap_apply_of_ne_of_ne h3 h4]
  refine ⟨fun c hc hcr hcm => ?_, fun _ c hc hcm => ?_, by omega, hr⟩
  · by_cases hch : c / 2 = h
    · -- the children of the old place, under the element that moved up
      rw [hch, hbh]
      by_cases hcm' : c = m
      · rw [hcm', hbm]
        exact hhm
      · rw [hbx c (by omega) hc (by omega) hcm']
        exact hmax c hc hch
    · by_cases hc_h : c = h
      · -- the old place itself, now holding the child, under its own parent
        rw [hc_h, hbh, hbx (h / 2) (by omega) (by omega) (by omega) (by omega)]
        exact hinv.grand (by omega) m hmn hm
      · rw [hbx c (by omega) hc hc_h (by omega), hbx (c / 2) (by omega) (by omega) hch hcm]
        exact hinv.off c hc hcr hch
  · -- the children of the new place were in order under it, and it now holds the child
    have hcm' := hinv.off c hc (by omega) (by omega)
    rw [hcm] at hcm'
    rw [hm, hbh, hbx c (by omega) hc (by omega) (by omega)]
    exact hcm'

/-- A sift-down stops where the element is no less than its children, and there the heap is
whole again. -/
theorem SiftInv.finish (hinv : SiftInv cmp a r n h)
    (hmax : ∀ c, c ≤ n → c / 2 = h → cmp (a c) (a h) ≠ .gt) : HeapFrom cmp a r n := by
  intro c hc hcr
  by_cases hch : c / 2 = h
  · rw [hch]
    exact hmax c hc hch
  · exact hinv.off c hc hcr hch

/-- What the extraction loop of heap sort keeps with `k` positions left in the heap: the heap,
the positions after `k` sorted, and nothing in the heap above anything after it. -/
structure ExtractInv (cmp : α → α → Ordering) (a : Nat → α) (k N : Nat) : Prop where
  heap : HeapFrom cmp a 1 k
  sorted : SortedOn cmp a (k + 1) N
  below : ∀ x y, 1 ≤ x → x ≤ k → k < y → y ≤ N → cmp (a x) (a y) ≠ .gt

theorem HeapFrom.extractInv (hh : HeapFrom cmp a 1 N) : ExtractInv cmp a N N where
  heap := hh
  sorted x y _ hxy hy := absurd hy (by omega)
  below x y _ _ hy hyN := absurd hyN (by omega)

/-- One turn of the extraction loop: the root goes to position `k`, and the sift-down that
follows rearranges the first `k - 1` positions into a heap. -/
theorem ExtractInv.step [TransCmp cmp] (hinv : ExtractInv cmp a k N) (hk : 2 ≤ k) (hkN : k ≤ N)
    (hb : ∀ x, 1 ≤ x → x ≤ N → b x = a (Equiv.swap 1 k x))
    (hheap : HeapFrom cmp c 1 (k - 1)) (hre : Rearranged 1 (k - 1) b c)
    (hout : ∀ x, k ≤ x → x ≤ N → c x = b x) : ExtractInv cmp c (k - 1) N := by
  have hck : c k = a 1 := by rw [hout k (Nat.le_refl _) hkN, hb k (by omega) hkN, Equiv.swap_apply_right]
  have hcy : ∀ y, k < y → y ≤ N → c y = a y := fun y h1 h2 => by
    rw [hout y (by omega) h2, hb y (by omega) h2, Equiv.swap_apply_of_ne_of_ne (by omega) (by omega)]
  have hpre : ∀ x, 1 ≤ x → x ≤ k - 1 → ∃ z, 1 ≤ z ∧ z ≤ k ∧ c x = a z := by
    obtain ⟨σ, hσ, hc⟩ := hre
    intro x h1 h2
    obtain ⟨h3, h4⟩ := mem_of_fixes hσ h1 h2
    refine ⟨Equiv.swap 1 k (σ x), ?_, ?_, by rw [hc x h1 h2, hb _ h3 (by omega)]⟩
    all_goals
      rw [Equiv.swap_apply_def]
      split_ifs <;> omega
  refine ⟨hheap, fun x y hx hxy hy => ?_, fun x y h1 h2 h3 h4 => ?_⟩
  · rw [hcy y (by omega) hy]
    by_cases hxk : x = k
    · rw [hxk, hck]
      exact hinv.below 1 y (Nat.le_refl _) (by omega) (by omega) hy
    · rw [hcy x (by omega) (by omega)]
      exact hinv.sorted x y (by omega) hxy hy
  · obtain ⟨z, hz1, hzk, hcz⟩ := hpre x h1 h2
    rw [hcz]
    by_cases hyk : y = k
    · rw [hyk, hck]
      exact hinv.heap.le_root z hz1 hzk
    · rw [hcy y (by omega) h4]
      exact hinv.below z y hz1 hzk (by omega) h4

theorem ExtractInv.sortedOn (hinv : ExtractInv cmp a 1 N) : SortedOn cmp a 1 N := by
  intro x y hx hxy hy
  by_cases hx1 : x = 1
  · rw [hx1]
    exact hinv.below 1 y (Nat.le_refl _) (Nat.le_refl _) (by omega) hy
  · exact hinv.sorted x y (by omega) hxy hy

end Heap

end Pintos.Kit
