import Mathlib
import Pintos.Kit.Heap

/-! The heap sort and the binary search of lib/stdlib.c. The array is its bytes, an element the
`size` bytes from its offset, and COMPARE a `strcmp`-type function of two elements. Read through
its elements, `do_swap` exchanges two of them; `heapify` is a sift-down of Kit.Heap, so `sort`
leaves a sorted permutation; `binary_search` keeps a range of whole elements that holds every
match. -/
namespace Pintos.Lib
open Pintos.Kit Std

/-- The SIZE bytes at offset `p` of ARRAY. -/
def block (array : List UInt8) (p size : Nat) : List UInt8 := (array.drop p).take size

/-- The element with 1-based index IDX of ARRAY, with elements of SIZE bytes each. -/
def elem (array : List UInt8) (size idx : Nat) : List UInt8 := block array ((idx - 1) * size) size

/-- The first CNT elements of ARRAY, in order. -/
def elems (array : List UInt8) (size cnt : Nat) : List (List UInt8) :=
  (List.range' 1 cnt).map (elem array size)

/-- The loop of `do_swap`: its first `i` turns, each exchanging one byte at A with one at B. -/
def swapBytes (array : List UInt8) (a b : Nat) : Nat → List UInt8
  | 0 => array
  | i + 1 =>
    let m := swapBytes array a b i
    let t := m.getD (a + i) 0
    (m.set (a + i) (m.getD (b + i) 0)).set (b + i) t

/-- `do_swap`. -/
def doSwap (array : List UInt8) (aIdx bIdx size : Nat) : List UInt8 :=
  swapBytes array ((aIdx - 1) * size) ((bIdx - 1) * size) size

/-- `do_compare`. -/
def doCompare (array : List UInt8) (aIdx bIdx size : Nat)
    (compare : List UInt8 → List UInt8 → Int) : Int :=
  compare (elem array size aIdx) (elem array size bIdx)

/-- The index `heapify` sets `max` to: the largest element among I and its children (if any). -/
def heapMax (array : List UInt8) (i cnt size : Nat) (compare : List UInt8 → List UInt8 → Int) :
    Nat :=
  let left := 2 * i
  let right := 2 * i + 1
  let max := if left ≤ cnt ∧ doCompare array left i size compare > 0 then left else i
  if right ≤ cnt ∧ doCompare array right max size compare > 0 then right else max

theorem heapMax_cases (array : List UInt8) (i cnt size : Nat)
    (compare : List UInt8 → List UInt8 → Int) :
    heapMax array i cnt size compare = i ∨
      (i < heapMax array i cnt size compare ∧ heapMax array i cnt size compare ≤ cnt) := by
  simp only [heapMax]
  split_ifs <;> omega

/-- `heapify`: "float down" the element with 1-based index I. -/
def heapify (array : List UInt8) (i cnt size : Nat) (compare : List UInt8 → List UInt8 → Int) :
    List UInt8 :=
  let max := heapMax array i cnt size compare
  if max = i then array
  else heapify (doSwap array i max size) max cnt size compare
termination_by cnt + 1 - i
decreasing_by
  have := heapMax_cases array i cnt size compare
  omega

/-- The first loop of `sort`, `for (i = I; i > 0; i--)`: builds the heap. -/
def buildHeap (array : List UInt8) (cnt size : Nat) (compare : List UInt8 → List UInt8 → Int) :
    Nat → List UInt8
  | 0 => array
  | i + 1 => buildHeap (heapify array (i + 1) cnt size compare) cnt size compare i

/-- The second loop of `sort`, `for (i = I; i > 1; i--)`: sorts the heap. -/
def sortHeap (array : List UInt8) (size : Nat) (compare : List UInt8 → List UInt8 → Int) :
    Nat → List UInt8
  | i + 2 =>
    sortHeap (heapify (doSwap array 1 (i + 2) size) 1 (i + 1) size compare) size compare (i + 1)
  | _ => array

/-- `sort`; `none` where `ASSERT (size > 0)` fails. -/
def sort (array : List UInt8) (cnt size : Nat) (compare : List UInt8 → List UInt8 → Int) :
    Option (List UInt8) :=
  if size > 0 then some (sortHeap (buildHeap array cnt size compare (cnt / 2)) size compare cnt)
  else none

/-- `compare_thunk`: what `qsort` and `bsearch` pass as the comparison, calling COMPARE. -/
def compareThunk (compare : List UInt8 → List UInt8 → Int) (a b : List UInt8) : Int := compare a b

/-- `qsort`. -/
def qsort (array : List UInt8) (cnt size : Nat) (compare : List UInt8 → List UInt8 → Int) :
    Option (List UInt8) :=
  sort array cnt size (compareThunk compare)

theorem middle_lt {first last size : Nat} (h : first < last) (hs : 0 < size) :
    first + (last - first) / size / 2 * size < last := by
  obtain ⟨q, hq⟩ : ∃ q, (last - first) / size = q := ⟨_, rfl⟩
  have hqs : q * size ≤ last - first := hq ▸ Nat.div_mul_le_self _ _
  rw [hq]
  rcases Nat.eq_zero_or_pos q with h0 | h0
  · rw [h0]
    omega
  · have : q / 2 * size < q * size := Nat.mul_lt_mul_of_pos_right (by omega) hs
    omega

/-- The loop of `binary_search` over the bytes `[first, last)`; `none` is NULL. The division by
SIZE is reached only with `first < last`, which from the start `(0, size * cnt)` already needs
`size > 0`; the guard says so, and makes the loop total. -/
def binarySearchLoop (key array : List UInt8) (size : Nat)
    (compare : List UInt8 → List UInt8 → Int) (first last : Nat) : Option Nat :=
  if _h : first < last ∧ 0 < size then
    let range := (last - first) / size
    let middle := first + (range / 2) * size
    let cmp := compare key (block array middle size)
    if cmp < 0 then binarySearchLoop key array size compare first middle
    else if cmp > 0 then binarySearchLoop key array size compare (middle + size) last
    else some middle
  else none
termination_by last - first
decreasing_by
  · have := middle_lt _h.1 _h.2
    omega
  · omega

/-- `binary_search`: the offset of an element of ARRAY that compares equal to KEY, or `none`. -/
def binarySearch (key array : List UInt8) (cnt size : Nat)
    (compare : List UInt8 → List UInt8 → Int) : Option Nat :=
  binarySearchLoop key array size compare 0 (size * cnt)

/-- `bsearch`. -/
def bsearch (key array : List UInt8) (cnt size : Nat) (compare : List UInt8 → List UInt8 → Int) :
    Option Nat :=
  binarySearch key array cnt size (compareThunk compare)

/-! ### Elements in bytes -/

section Bytes
variable {array : List UInt8} {a b n size : Nat}

theorem mem_block_iff {s i j t : Nat} (ht : t < s) :
    (i * s ≤ j * s + t ∧ j * s + t < i * s + s) ↔ i = j := by
  constructor
  · rintro ⟨h1, h2⟩
    rcases Nat.lt_trichotomy i j with hij | hij | hij
    · have : (i + 1) * s ≤ j * s := Nat.mul_le_mul_right _ hij
      rw [Nat.succ_mul] at this
      omega
    · exact hij
    · have : (j + 1) * s ≤ i * s := Nat.mul_le_mul_right _ hij
      rw [Nat.succ_mul] at this
      omega
  · rintro rfl
    omega

@[simp] theorem length_swapBytes (array : List UInt8) (a b : Nat) :
    ∀ n, (swapBytes array a b n).length = array.length
  | 0 => rfl
  | n + 1 => by simp [swapBytes, length_swapBytes array a b n]

/-- Where each byte comes from after the first `n` turns of `do_swap`'s loop, on two ranges that
are the same or apart. -/
theorem getElem?_swapBytes (hd : a = b ∨ a + n ≤ b ∨ b + n ≤ a) (ha : a + n ≤ array.length)
    (hb : b + n ≤ array.length) (p : Nat) :
    (swapBytes array a b n)[p]? =
      if a ≤ p ∧ p < a + n then array[p - a + b]?
      else if b ≤ p ∧ p < b + n then array[p - b + a]? else array[p]? := by
  induction n generalizing p with
  | zero =>
    simp only [swapBytes, Nat.add_zero]
    rw [if_neg (by omega), if_neg (by omega)]
  | succ n ih =>
    have ih' := ih (by omega) (by omega) (by omega)
    have hta : (swapBytes array a b n).getD (a + n) 0 = array[a + n] := by
      rw [List.getD_eq_getElem?_getD, ih', if_neg (by omega), if_neg (by omega),
        List.getElem?_eq_getElem (by omega), Option.getD_some]
    have htb : (swapBytes array a b n).getD (b + n) 0 = array[b + n] := by
      rw [List.getD_eq_getElem?_getD, ih', if_neg (by omega), if_neg (by omega),
        List.getElem?_eq_getElem (by omega), Option.getD_some]
    simp only [swapBytes, hta, htb, List.getElem?_set, List.length_set, length_swapBytes]
    by_cases hpb : b + n = p
    · -- the byte written last, at `b + n`, is the one read at `a + n`
      rw [if_pos hpb, if_pos (show b + n < array.length by omega)]
      by_cases hpa : a ≤ p ∧ p < a + (n + 1)
      · rw [if_pos hpa, List.getElem?_eq_getElem (by omega)]
        congr 2
        omega
      · rw [if_neg hpa, if_pos (show b ≤ p ∧ p < b + (n + 1) by omega),
          List.getElem?_eq_getElem (by omega)]
        congr 2
        omega
    · rw [if_neg hpb]
      by_cases hpa : a + n = p
      · rw [if_pos hpa, if_pos (show a + n < array.length by omega),
          if_pos (show a ≤ p ∧ p < a + (n + 1) by omega), List.getElem?_eq_getElem (by omega)]
        congr 2
        omega
      · -- a byte this turn does not touch keeps where it came from
        rw [if_neg hpa, ih']
        have e1 : (a ≤ p ∧ p < a + n) ↔ (a ≤ p ∧ p < a + (n + 1)) := by omega
        have e2 : (b ≤ p ∧ p < b + n) ↔ (b ≤ p ∧ p < b + (n + 1)) := by omega
        simp only [e1, e2]

@[simp] theorem length_doSwap (array : List UInt8) (x y size : Nat) :
    (doSwap array x y size).length = array.length :=
  length_swapBytes _ _ _ _

theorem getElem?_elem (array : List UInt8) (size k t : Nat) :
    (elem array size k)[t]? = if t < size then array[(k - 1) * size + t]? else none := by
  simp only [elem, block, List.getElem?_take, List.getElem?_drop]

theorem elem_doSwap {N x y k : Nat} (hlen : size * N ≤ array.length) (hx : 1 ≤ x ∧ x ≤ N)
    (hy : 1 ≤ y ∧ y ≤ N) (hk : 1 ≤ k ∧ k ≤ N) :
    elem (doSwap array x y size) size k = elem array size (Equiv.swap x y k) := by
  have hN : N * size ≤ array.length := by rw [Nat.mul_comm]; exact hlen
  have hxN : (x - 1) * size + size ≤ array.length := by
    have : (x - 1 + 1) * size ≤ N * size := Nat.mul_le_mul_right _ (by omega)
    rw [Nat.succ_mul] at this
    omega
  have hyN : (y - 1) * size + size ≤ array.length := by
    have : (y - 1 + 1) * size ≤ N * size := Nat.mul_le_mul_right _ (by omega)
    rw [Nat.succ_mul] at this
    omega
  have hd : (x - 1) * size = (y - 1) * size ∨ (x - 1) * size + size ≤ (y - 1) * size ∨
      (y - 1) * size + size ≤ (x - 1) * size := by
    rcases Nat.lt_trichotomy x y with hxy | hxy | hxy
    · have : (x - 1 + 1) * size ≤ (y - 1) * size := Nat.mul_le_mul_right _ (by omega)
      rw [Nat.succ_mul] at this
      omega
    · rw [hxy]
      omega
    · have : (y - 1 + 1) * size ≤ (x - 1) * size := Nat.mul_le_mul_right _ (by omega)
      rw [Nat.succ_mul] at this
      omega
  apply List.ext_getElem?
  intro t
  rw [getElem?_elem, getElem?_elem]
  by_cases ht : t < size
  · rw [if_pos ht, if_pos ht, doSwap, getElem?_swapBytes hd hxN hyN]
    by_cases hkx : k = x
    · rw [if_pos ((mem_block_iff ht).2 (by omega)), hkx, Equiv.swap_apply_left]
      congr 1
      omega
    · rw [if_neg (fun h => hkx (by have := (mem_block_iff ht).1 h; omega))]
      by_cases hky : k = y
      · rw [if_pos ((mem_block_iff ht).2 (by omega)), hky, Equiv.swap_apply_right]
        congr 1
        omega
      · rw [if_neg (fun h => hky (by have := (mem_block_iff ht).1 h; omega)),
          Equiv.swap_apply_of_ne_of_ne hkx hky]
  · rw [if_neg ht, if_neg ht]

end Bytes

/-! ### Heap sort -/

section HeapSort
variable {cmp : List UInt8 → List UInt8 → Int} {array : List UInt8} {i r cnt size N : Nat}

/-- `heapify`'s choice of `max`: either I, when no child up to CNT is greater, or a child of I
that is no less than I and than every child up to CNT. -/
theorem heapMax_spec [TransCmp (cmpOrd cmp)] (hi : 0 < i) :
    (heapMax array i cnt size cmp = i ∧
      ∀ c, c ≤ cnt → c / 2 = i → cmpOrd cmp (elem array size c) (elem array size i) ≠ .gt) ∨
    (heapMax array i cnt size cmp / 2 = i ∧ heapMax array i cnt size cmp ≤ cnt ∧
      heapMax array i cnt size cmp ≠ i ∧
      cmpOrd cmp (elem array size i) (elem array size (heapMax array i cnt size cmp)) ≠ .gt ∧
      ∀ c, c ≤ cnt → c / 2 = i →
        cmpOrd cmp (elem array size c) (elem array size (heapMax array i cnt size cmp)) ≠ .gt) := by
  have hchild : ∀ c, c / 2 = i → c = 2 * i ∨ c = 2 * i + 1 := by omega
  have hswap : ∀ x y, cmpOrd cmp x y = .gt → cmpOrd cmp y x ≠ .gt := fun x y h => by
    rw [OrientedCmp.gt_iff_lt] at h
    rw [h]
    simp
  have hself : ∀ x, cmpOrd cmp x x ≠ .gt := fun x => by
    have hx : cmpOrd cmp x x = .eq := ReflCmp.compare_self
    rw [hx]
    simp
  simp only [heapMax, doCompare, gt_iff_lt]
  by_cases hl : 2 * i ≤ cnt ∧ 0 < cmp (elem array size (2 * i)) (elem array size i)
  · rw [if_pos hl]
    have hli : cmpOrd cmp (elem array size (2 * i)) (elem array size i) = .gt :=
      cmpOrd_eq_gt.2 hl.2
    by_cases hr : 2 * i + 1 ≤ cnt ∧ 0 < cmp (elem array size (2 * i + 1)) (elem array size (2 * i))
    · -- the right child is above the left one, which is above I
      rw [if_pos hr]
      have hrl : cmpOrd cmp (elem array size (2 * i + 1)) (elem array size (2 * i)) = .gt :=
        cmpOrd_eq_gt.2 hr.2
      refine .inr ⟨by omega, hr.1, by omega, hswap _ _ (TransCmp.gt_trans hrl hli), fun c hc hci => ?_⟩
      rcases hchild c hci with rfl | rfl
      · exact hswap _ _ hrl
      · exact hself _
    · -- the left child is above I and not below the right one
      rw [if_neg hr]
      refine .inr ⟨by omega, hl.1, by omega, hswap _ _ hli, fun c hc hci => ?_⟩
      rcases hchild c hci with rfl | rfl
      · exact hself _
      · exact cmpOrd_ne_gt.2 (by omega)
  · rw [if_neg hl]
    have hil : 2 * i ≤ cnt → cmpOrd cmp (elem array size (2 * i)) (elem array size i) ≠ .gt :=
      fun h => cmpOrd_ne_gt.2 (by omega)
    by_cases hr : 2 * i + 1 ≤ cnt ∧ 0 < cmp (elem array size (2 * i + 1)) (elem array size i)
    · -- the right child is above I, which is not below the left one
      rw [if_pos hr]
      have hri : cmpOrd cmp (elem array size (2 * i + 1)) (elem array size i) = .gt :=
        cmpOrd_eq_gt.2 hr.2
      refine .inr ⟨by omega, hr.1, by omega, hswap _ _ hri, fun c hc hci => ?_⟩
      rcases hchild c hci with rfl | rfl
      · have hir : cmpOrd cmp (elem array size i) (elem array size (2 * i + 1)) = .lt :=
          OrientedCmp.gt_iff_lt.1 hri
        rw [TransCmp.lt_of_le_of_lt (hil hc) hir]
        simp
      · exact hself _
    · -- neither child is above I
      rw [if_neg hr]
      refine .inl ⟨rfl, fun c hc hci => ?_⟩
      rcases hchild c hci with rfl | rfl
      · exact hil hc
      · exact cmpOrd_ne_gt.2 (by omega)

/-- `heapify` from I sifts the element at I down: from the sift invariant it leaves a heap from R
to CNT, and of the N elements the array holds it only rearranges those from R to CNT. -/
theorem heapify_spec [TransCmp (cmpOrd cmp)] (hn : cnt ≤ N) :
    size * N ≤ array.length → SiftInv (cmpOrd cmp) (elem array size) r cnt i →
      (heapify array i cnt size cmp).length = array.length ∧
      HeapFrom (cmpOrd cmp) (elem (heapify array i cnt size cmp) size) r cnt ∧
      Rearranged r cnt (elem array size) (elem (heapify array i cnt size cmp) size) ∧
      ∀ x, 1 ≤ x → x ≤ N → x < r ∨ cnt < x →
        elem (heapify array i cnt size cmp) size x = elem array size x := by
  fun_induction heapify array i cnt size cmp with
  | case1 array i m hmax =>
    intro _ hinv
    have hi : 0 < i := Nat.lt_of_lt_of_le hinv.pos hinv.root
    rcases @heapMax_spec cmp array i cnt size _ hi with ⟨-, hstop⟩ | ⟨-, -, hne, -⟩
    · exact ⟨rfl, hinv.finish hstop, Rearranged.refl _ _ _, fun _ _ _ _ => rfl⟩
    · exact absurd hmax hne
  | case2 array i m hmax ih =>
    intro hlen hinv
    have hi : 0 < i := Nat.lt_of_lt_of_le hinv.pos hinv.root
    have hri := hinv.root
    have hr0 := hinv.pos
    obtain ⟨hm2, hmn, hne, hhm, hmaxc⟩ := (@heapMax_spec cmp array i cnt size _ hi).resolve_left
      fun h => hmax h.1
    have hb : ∀ x, 1 ≤ x → x ≤ N → elem (doSwap array i (heapMax array i cnt size cmp) size) size x =
        elem array size (Equiv.swap i (heapMax array i cnt size cmp) x) := fun x h1 h2 =>
      elem_doSwap hlen ⟨hi, by omega⟩ ⟨by omega, by omega⟩ ⟨h1, h2⟩
    have hinv' := hinv.swap hm2 hmn hhm hmaxc fun x h1 h2 => hb x h1 (by omega)
    obtain ⟨hlen', hheap, hre, hout⟩ := ih (by rw [length_doSwap]; exact hlen) hinv'
    refine ⟨by rw [hlen', length_doSwap], hheap, ?_, fun x h1 h2 hx => ?_⟩
    · exact (rearranged_swap ⟨hri, by omega⟩ ⟨by omega, hmn⟩ fun x h1 h2 =>
        hb x (by omega) (by omega)).trans hre
    · rw [hout x h1 h2 hx, hb x h1 h2, Equiv.swap_apply_of_ne_of_ne (by omega) (by omega)]

/-- The first loop of `sort`, from I down to 1, extends a heap past I to a heap of all CNT. -/
theorem buildHeap_spec [TransCmp (cmpOrd cmp)] :
    ∀ i (array : List UInt8), size * cnt ≤ array.length →
      HeapFrom (cmpOrd cmp) (elem array size) (i + 1) cnt →
      (buildHeap array cnt size cmp i).length = array.length ∧
      HeapFrom (cmpOrd cmp) (elem (buildHeap array cnt size cmp i) size) 1 cnt ∧
      Rearranged 1 cnt (elem array size) (elem (buildHeap array cnt size cmp i) size) := by
  intro i
  induction i with
  | zero => exact fun array _ hh => ⟨rfl, hh, Rearranged.refl _ _ _⟩
  | succ i ih =>
    intro array hlen hh
    obtain ⟨hlen1, hheap1, hre1, hout1⟩ :=
      heapify_spec (N := cnt) (Nat.le_refl cnt) hlen (hh.siftInv (Nat.succ_pos i))
    obtain ⟨hlen2, hheap2, hre2⟩ := ih _ (by rw [hlen1]; exact hlen) hheap1
    simp only [buildHeap]
    refine ⟨by rw [hlen2, hlen1], hheap2, ?_⟩
    exact (hre1.widen (Nat.succ_pos i) (Nat.le_refl cnt) fun x h1 h2 hx => hout1 x h1 h2 hx).trans hre2

/-- The second loop of `sort`, from K down to 2, sorts all N elements. -/
theorem sortHeap_spec [TransCmp (cmpOrd cmp)] :
    ∀ k (array : List UInt8), size * N ≤ array.length → k ≤ N →
      ExtractInv (cmpOrd cmp) (elem array size) k N →
      (sortHeap array size cmp k).length = array.length ∧
      SortedOn (cmpOrd cmp) (elem (sortHeap array size cmp k) size) 1 N ∧
      Rearranged 1 N (elem array size) (elem (sortHeap array size cmp k) size) := by
  intro k
  induction k using Nat.strongRecOn with
  | _ k ih =>
    intro array hlen hk hinv
    match k, ih, hk, hinv with
    | 0, _, _, hinv => exact ⟨rfl, hinv.sorted, Rearranged.refl _ _ _⟩
    | 1, _, _, hinv => exact ⟨rfl, hinv.sortedOn, Rearranged.refl _ _ _⟩
    | i + 2, ih, hk, hinv =>
      have hb : ∀ x, 1 ≤ x → x ≤ N →
          elem (doSwap array 1 (i + 2) size) size x = elem array size (Equiv.swap 1 (i + 2) x) :=
        fun x h1 h2 => elem_doSwap hlen ⟨Nat.le_refl 1, by omega⟩ ⟨by omega, hk⟩ ⟨h1, h2⟩
      have hinv1 : SiftInv (cmpOrd cmp) (elem (doSwap array 1 (i + 2) size) size) 1 (i + 1) 1 :=
        hinv.heap.siftInv_root fun x h1 h2 => by
          rw [hb x (by omega) (by omega), Equiv.swap_apply_of_ne_of_ne (by omega) (by omega)]
      obtain ⟨hlen2, hheap2, hre2, hout2⟩ :=
        heapify_spec (N := N) (by omega) (by rw [length_doSwap]; exact hlen) hinv1
      have hinv2 := hinv.step (by omega) hk hb hheap2 hre2 fun x h1 h2 =>
        hout2 x (by omega) h2 (.inr (by omega))
      obtain ⟨hlen3, hsorted, hre3⟩ :=
        ih (i + 1) (by omega) _ (by rw [hlen2, length_doSwap]; exact hlen) (by omega) hinv2
      simp only [sortHeap]
      refine ⟨by rw [hlen3, hlen2, length_doSwap], hsorted, ?_⟩
      have hre1 : Rearranged 1 N (elem array size) (elem (doSwap array 1 (i + 2) size) size) :=
        rearranged_swap ⟨Nat.le_refl 1, by omega⟩ ⟨by omega, hk⟩ hb
      have hre2' := hre2.widen (Nat.le_refl 1) (by omega) fun x h1 h2 hx =>
        hout2 x h1 h2 hx
      exact (hre1.trans hre2').trans hre3

/-- `sort` with SIZE > 0 returns the array with its CNT elements rearranged in order. -/
theorem sort_spec [TransCmp (cmpOrd cmp)] (hsize : 0 < size) (hlen : size * cnt ≤ array.length) :
    ∃ out, sort array cnt size cmp = some out ∧ out.length = array.length ∧
      SortedOn (cmpOrd cmp) (elem out size) 1 cnt ∧
      Rearranged 1 cnt (elem array size) (elem out size) := by
  obtain ⟨hlen1, hheap1, hre1⟩ :=
    buildHeap_spec (cnt / 2) array hlen (heapFrom_half (cmpOrd cmp) (elem array size) cnt)
  obtain ⟨hlen2, hsorted, hre2⟩ :=
    sortHeap_spec (N := cnt) cnt _ (by rw [hlen1]; exact hlen) (Nat.le_refl cnt) hheap1.extractInv
  refine ⟨_, if_pos hsize, by rw [hlen2, hlen1], hsorted, hre1.trans hre2⟩

end HeapSort

/-- `sort` and `qsort` on an array of CNT elements of SIZE > 0 bytes, under a COMPARE that is a
total preorder, return the array with its elements rearranged into nondecreasing order. -/
theorem heap_sort_sorts (cmp : List UInt8 → List UInt8 → Int) [TransCmp (cmpOrd cmp)]
    (array : List UInt8) (cnt size : Nat) (hsize : 0 < size) (hlen : size * cnt ≤ array.length) :
    ∃ out, sort array cnt size cmp = some out ∧ qsort array cnt size cmp = some out ∧
      out.length = array.length ∧ (elems out size cnt).Perm (elems array size cnt) ∧
      (elems out size cnt).Pairwise fun x y => cmp x y ≤ 0 := by
  obtain ⟨out, hsort, hlen', hsorted, hre⟩ := @sort_spec cmp array cnt size _ hsize hlen
  have hcnt : cnt + 1 - 1 = cnt := Nat.add_sub_cancel cnt 1
  have hperm := hre.perm
  have hpair := hsorted.pairwise
  rw [hcnt] at hperm hpair
  exact ⟨out, hsort, hsort, hlen', hperm, hpair.imp cmpOrd_ne_gt.1⟩

theorem heap_sort_sorts_sample :
    TransCmp (cmpOrd fun x y : List UInt8 => ((x.headD 0).toNat : Int) - (y.headD 0).toNat) ∧
      ∃ out, sort [3, 1, 2] 3 1 (fun x y => ((x.headD 0).toNat : Int) - (y.headD 0).toNat) = some out ∧
        qsort [3, 1, 2] 3 1 (fun x y => ((x.headD 0).toNat : Int) - (y.headD 0).toNat) = some out ∧
        out.length = 3 ∧ (elems out 1 3).Perm (elems [3, 1, 2] 1 3) ∧
        (elems out 1 3).Pairwise fun x y => ((x.headD 0).toNat : Int) - (y.headD 0).toNat ≤ 0 :=
  ⟨transCmp_sub _, @heap_sort_sorts _ (transCmp_sub fun x : List UInt8 => ((x.headD 0).toNat : Int))
    [3, 1, 2] 3 1 (by decide) (by decide)⟩

/-! ### Binary search -/

section Search
variable {cmp : List UInt8 → List UInt8 → Int} {key array : List UInt8} {cnt size : Nat}

theorem middle_eq {lo hi : Nat} (hs : 0 < size) :
    lo * size + (hi * size - lo * size) / size / 2 * size = (lo + (hi - lo) / 2) * size := by
  rw [← Nat.sub_mul, Nat.mul_div_cancel _ hs, Nat.add_mul]

theorem lt_of_mul_lt {lo hi : Nat} (h : lo * size < hi * size) : lo < hi :=
  Nat.lt_of_mul_lt_mul_right h

/-- A match `binary_search` returns is an element of the range it searched, equal to KEY. -/
theorem binarySearchLoop_sound {first last p : Nat} :
    binarySearchLoop key array size cmp first last = some p →
    ∀ lo hi, first = lo * size → last = hi * size →
      ∃ i, lo ≤ i ∧ i < hi ∧ p = i * size ∧ cmp key (block array p size) = 0 := by
  fun_induction binarySearchLoop key array size cmp first last with
  | case1 first last hg range middle c hc ih =>
    intro h lo hi hf hl
    have hm : middle = (lo + (hi - lo) / 2) * size := by rw [← middle_eq hg.2, ← hf, ← hl]
    have hlo : lo < hi := lt_of_mul_lt (by rw [← hf, ← hl]; exact hg.1)
    obtain ⟨i, h1, h2, h3, h4⟩ := ih h lo (lo + (hi - lo) / 2) hf hm
    exact ⟨i, h1, by omega, h3, h4⟩
  | case2 first last hg range middle c hc hc' ih =>
    intro h lo hi hf hl
    have hm : middle + size = (lo + (hi - lo) / 2 + 1) * size := by
      rw [Nat.add_one_mul, ← middle_eq hg.2, ← hf, ← hl]
    obtain ⟨i, h1, h2, h3, h4⟩ := ih h (lo + (hi - lo) / 2 + 1) hi hm hl
    exact ⟨i, by omega, h2, h3, h4⟩
  | case3 first last hg range middle c hc hc' =>
    intro h lo hi hf hl
    have hm : middle = (lo + (hi - lo) / 2) * size := by rw [← middle_eq hg.2, ← hf, ← hl]
    have hlo : lo < hi := lt_of_mul_lt (by rw [← hf, ← hl]; exact hg.1)
    have hc0 : c = 0 := by omega
    obtain rfl := Option.some.inj h
    exact ⟨lo + (hi - lo) / 2, by omega, by omega, hm, hc0⟩
  | case4 first last hg =>
    intro h
    cases h

theorem binarySearchLoop_complete [TransCmp (cmpOrd cmp)] (hs : 0 < size)
    (hsorted : ∀ i j, i ≤ j → j < cnt →
      cmpOrd cmp (block array (i * size) size) (block array (j * size) size) ≠ .gt)
    {first last : Nat} :
    ∀ lo hi k, first = lo * size → last = hi * size → hi ≤ cnt → lo ≤ k → k < hi →
      cmp key (block array (k * size) size) = 0 →
      (binarySearchLoop key array size cmp first last).isSome := by
  fun_induction binarySearchLoop key array size cmp first last with
  | case1 first last hg range middle c hc ih =>
    intro lo hi k hf hl hhi hk1 hk2 hkey
    have hm : middle = (lo + (hi - lo) / 2) * size := by rw [← middle_eq hg.2, ← hf, ← hl]
    have hkm : k < lo + (hi - lo) / 2 := by
      by_contra hmk
      have hle := hsorted (lo + (hi - lo) / 2) k (by omega) (by omega)
      have hlt : cmpOrd cmp key (block array ((lo + (hi - lo) / 2) * size) size) = .lt :=
        cmpOrd_eq_lt.2 (by rw [← hm]; exact hc)
      have hk := cmpOrd_eq_lt.1 (TransCmp.lt_of_lt_of_le hlt hle)
      omega
    exact ih lo (lo + (hi - lo) / 2) k hf hm (by omega) hk1 hkm hkey
  | case2 first last hg range middle c hc hc' ih =>
    intro lo hi k hf hl hhi hk1 hk2 hkey
    have hm : middle = (lo + (hi - lo) / 2) * size := by rw [← middle_eq hg.2, ← hf, ← hl]
    have hmk : lo + (hi - lo) / 2 < k := by
      by_contra hkm
      have hle := hsorted k (lo + (hi - lo) / 2) (by omega) (by omega)
      have hkey' : cmpOrd cmp key (block array (k * size) size) ≠ .gt := cmpOrd_ne_gt.2 (by omega)
      have hmid := cmpOrd_ne_gt.1 (TransCmp.le_trans hkey' hle)
      rw [← hm] at hmid
      have hc0 : c ≤ 0 := hmid
      omega
    have hm' : middle + size = (lo + (hi - lo) / 2 + 1) * size := by
      rw [hm, Nat.add_one_mul]
    exact ih (lo + (hi - lo) / 2 + 1) hi k hm' hl hhi (by omega) hk2 hkey
  | case3 first last hg range middle c hc hc' =>
    intro _ _ _ _ _ _ _ _ _
    rfl
  | case4 first last hg =>
    intro lo hi k hf hl _ hk1 hk2 _
    have : lo * size < hi * size := Nat.mul_lt_mul_of_pos_right (by omega) hs
    exact absurd ⟨by omega, hs⟩ hg

theorem sorted_of_elems [TransCmp (cmpOrd cmp)]
    (hsorted : (elems array size cnt).Pairwise fun x y => cmp x y ≤ 0) :
    ∀ i j, i ≤ j → j < cnt →
      cmpOrd cmp (block array (i * size) size) (block array (j * size) size) ≠ .gt := by
  intro i j hij hj
  rcases Nat.lt_or_eq_of_le hij with hij | rfl
  · have h := List.pairwise_iff_getElem.1 hsorted i j (by simp [elems]; omega)
      (by simp [elems]; omega) hij
    simp only [elems, List.getElem_map, List.getElem_range', elem, Nat.one_mul,
      Nat.add_sub_cancel_left] at h
    exact cmpOrd_ne_gt.2 h
  · have hx : cmpOrd cmp (block array (i * size) size) (block array (i * size) size) = .eq :=
      ReflCmp.compare_self
    rw [hx]
    simp

end Search

/-- On an array of CNT elements of SIZE > 0 bytes sorted under a COMPARE that is a total preorder,
`bsearch` and `binary_search` return the offset of one of the elements that compares equal to KEY
when there is one, and NULL when there is none. -/
theorem binary_search_finds (cmp : List UInt8 → List UInt8 → Int) [TransCmp (cmpOrd cmp)]
    (key array : List UInt8) (cnt size : Nat) (hsize : 0 < size)
    (hsorted : (elems array size cnt).Pairwise fun x y => cmp x y ≤ 0) :
    bsearch key array cnt size cmp = binarySearch key array cnt size cmp ∧
    (∀ p, binarySearch key array cnt size cmp = some p →
      ∃ i < cnt, p = i * size ∧ cmp key (block array p size) = 0) ∧
    (binarySearch key array cnt size cmp = none ↔
      ∀ i < cnt, cmp key (block array (i * size) size) ≠ 0) := by
  have hsound : ∀ p, binarySearch key array cnt size cmp = some p →
      ∃ i < cnt, p = i * size ∧ cmp key (block array p size) = 0 := fun p h => by
    obtain ⟨i, -, hi, hp, hkey⟩ :=
      binarySearchLoop_sound h 0 cnt (Nat.zero_mul size).symm (Nat.mul_comm size cnt)
    exact ⟨i, hi, hp, hkey⟩
  refine ⟨rfl, hsound, ⟨fun hnone i hi hkey => ?_, fun hall => ?_⟩⟩
  · have hsome := binarySearchLoop_complete hsize (sorted_of_elems hsorted) 0 cnt i
      (Nat.zero_mul size).symm (Nat.mul_comm size cnt) (Nat.le_refl cnt) (Nat.zero_le i) hi hkey
    rw [binarySearch] at hnone
    rw [hnone] at hsome
    cases hsome
  · cases hr : binarySearch key array cnt size cmp with
    | none => rfl
    | some p =>
      obtain ⟨i, hi, rfl, hkey⟩ := hsound p hr
      exact absurd hkey (hall i hi)

theorem binary_search_finds_sample :
    TransCmp (cmpOrd fun x y : List UInt8 => ((x.headD 0).toNat : Int) - (y.headD 0).toNat) ∧
      0 < 1 ∧
      ((elems [1, 2, 4] 1 3).Pairwise fun x y => ((x.headD 0).toNat : Int) - (y.headD 0).toNat ≤ 0) ∧
      bsearch [2] [1, 2, 4] 3 1 (fun x y => ((x.headD 0).toNat : Int) - (y.headD 0).toNat) =
        binarySearch [2] [1, 2, 4] 3 1 (fun x y => ((x.headD 0).toNat : Int) - (y.headD 0).toNat) ∧
      (∀ p, binarySearch [2] [1, 2, 4] 3 1
          (fun x y => ((x.headD 0).toNat : Int) - (y.headD 0).toNat) = some p →
        ∃ i < 3, p = i * 1 ∧ ((([2] : List UInt8).headD 0).toNat : Int) -
          ((block [1, 2, 4] p 1).headD 0).toNat = 0) ∧
      (binarySearch [2] [1, 2, 4] 3 1 (fun x y => ((x.headD 0).toNat : Int) - (y.headD 0).toNat) =
          none ↔
        ∀ i < 3, ((([2] : List UInt8).headD 0).toNat : Int) -
          ((block [1, 2, 4] (i * 1) 1).headD 0).toNat ≠ 0) :=
  ⟨transCmp_sub _, by decide, by decide,
    @binary_search_finds _ (transCmp_sub fun x : List UInt8 => ((x.headD 0).toNat : Int))
      [2] [1, 2, 4] 3 1 (by decide) (by decide)⟩

/-! ### `atoi` -/

section Atoi

/-- `isspace` of lib/ctype.h. -/
def isspace (c : UInt8) : Bool := c == 32 || c == 12 || c == 10 || c == 13 || c == 9 || c == 11

/-- `isdigit` of lib/ctype.h. -/
def isdigit (c : UInt8) : Bool := 48 ≤ c && c ≤ 57

/-- A value of type `int`; signed arithmetic that leaves this range overflows, which C leaves
undefined. -/
def IntRange (v : Int) : Prop := -2 ^ 31 ≤ v ∧ v < 2 ^ 31

instance (v : Int) : Decidable (IntRange v) := inferInstanceAs (Decidable (_ ∧ _))

/-- The digit loop of `atoi`: `for (value = 0; isdigit (*s); s++) value = value * 10 - (*s -
'0');`, with `none` where its `int` arithmetic overflows. -/
def atoiLoop : Int → List UInt8 → Option Int
  | value, [] => some value
  | value, c :: s =>
    if isdigit c then
      if IntRange (value * 10) ∧ IntRange (value * 10 - ((c.toNat : Int) - 48)) then
        atoiLoop (value * 10 - ((c.toNat : Int) - 48)) s
      else none
    else some value

/-- `atoi` on the bytes of a string; reading past them reads the NUL. The value is accumulated
negative, the larger half of `int`, and negated at the end for a positive number; `none` where
the arithmetic overflows. -/
def atoi (s : List UInt8) : Option Int :=
  let s := s.dropWhile isspace
  let negative := s.head? = some 45
  let s := if s.head? = some 43 ∨ s.head? = some 45 then s.tail else s
  (atoiLoop 0 s).bind fun value =>
    if negative then some value else if IntRange (-value) then some (-value) else none

theorem toNat_of_isdigit {c : UInt8} (h : isdigit c = true) : 48 ≤ c.toNat ∧ c.toNat ≤ 57 := by
  simpa only [isdigit, Bool.and_eq_true, decide_eq_true_eq, UInt8.le_iff_toNat_le,
    UInt8.reduceToNat] using h

theorem not_space_sign_of_isdigit {c : UInt8} (h : isdigit c = true) :
    isspace c = false ∧ c ≠ 43 ∧ c ≠ 45 := by
  have := toNat_of_isdigit h
  simp only [isspace, Bool.or_eq_false_iff, beq_eq_false_iff_ne, ne_eq, UInt8.ext_iff,
    UInt8.reduceToNat]
  omega

/-- The value of a run of decimal digits, most significant first, from the value ACC of the
digits before it. -/
def decimalValue (acc : Nat) (ds : List UInt8) : Nat :=
  ds.foldl (fun n c => 10 * n + (c.toNat - 48)) acc

theorem le_decimalValue (acc : Nat) (ds : List UInt8) : acc ≤ decimalValue acc ds := by
  induction ds generalizing acc with
  | nil => exact Nat.le_refl acc
  | cons c ds ih =>
    have := ih (10 * acc + (c.toNat - 48))
    simp only [decimalValue, List.foldl_cons] at this ⊢
    omega

/-- The loop keeps the negated value of the digits read so far; no step overflows while the
value of all the digits is at most `2 ^ 31`, since each partial value is below it. -/
theorem atoiLoop_digits {ds rest : List UInt8} (hdig : ∀ c ∈ ds, isdigit c = true)
    (hrest : ∀ c ∈ rest.head?, isdigit c = false) (acc : Nat) (hv : decimalValue acc ds ≤ 2 ^ 31) :
    atoiLoop (-(acc : Int)) (ds ++ rest) = some (-(decimalValue acc ds : Int)) := by
  induction ds generalizing acc with
  | nil =>
    cases rest with
    | nil => rfl
    | cons c rest =>
      rw [List.nil_append, atoiLoop, if_neg (by simpa using hrest c rfl)]
      rfl
  | cons c ds ih =>
    have hc := hdig c List.mem_cons_self
    have hnext := le_decimalValue (10 * acc + (c.toNat - 48)) ds
    have hd : (c.toNat : Int) - 48 = ((c.toNat - 48 : Nat) : Int) := by
      have := toNat_of_isdigit hc
      omega
    simp only [decimalValue, List.foldl_cons] at hv hnext ih ⊢
    rw [List.cons_append, atoiLoop, if_pos hc, if_pos (by unfold IntRange; omega), hd,
      show -(acc : Int) * 10 - ((c.toNat - 48 : Nat) : Int) = -((10 * acc + (c.toNat - 48) : Nat) : Int)
        by omega]
    exact ih (fun x hx => hdig x (List.mem_cons_of_mem c hx)) _ hv

theorem dropWhile_isspace {ws t : List UInt8} (hws : ∀ c ∈ ws, isspace c = true)
    (ht : ∀ c ∈ t.head?, isspace c = false) : (ws ++ t).dropWhile isspace = t := by
  induction ws with
  | nil =>
    cases t with
    | nil => rfl
    | cons c t => exact List.dropWhile_cons_of_neg (by simpa using ht c rfl)
  | cons c ws ih =>
    rw [List.cons_append, List.dropWhile_cons_of_pos (hws c List.mem_cons_self)]
    exact ih (fun x hx => hws x (List.mem_cons_of_mem c hx))

/-- After the white space, `atoi` reads an optional sign and runs the digit loop from the first
digit; only a `-` keeps the loop's negative value as it is. -/
theorem atoi_sign {ws sign t : List UInt8} (hws : ∀ c ∈ ws, isspace c = true)
    (hsign : sign = [] ∨ sign = [43] ∨ sign = [45]) {d : UInt8} (hd : isdigit d = true) :
    atoi (ws ++ sign ++ d :: t) = (atoiLoop 0 (d :: t)).bind fun value =>
      if sign = [45] then some value else if IntRange (-value) then some (-value) else none := by
  obtain ⟨hsp, h43, h45⟩ := not_space_sign_of_isdigit hd
  have hne : ¬((43 : UInt8) = 45) := by decide
  rcases hsign with rfl | rfl | rfl
  · -- no sign: the loop starts on the first digit
    rw [List.append_nil, atoi, dropWhile_isspace hws (by simpa using hsp)]
    simp only [List.head?_cons, Option.some.injEq, h43, h45, or_self, if_false, reduceCtorEq]
  · rw [List.append_assoc, atoi, dropWhile_isspace hws (by simp [isspace])]
    simp only [List.cons_append, List.nil_append, List.head?_cons, Option.some.injEq, true_or,
      if_true, List.tail_cons, List.cons.injEq, and_true, hne, if_false]
  · rw [List.append_assoc, atoi, dropWhile_isspace hws (by simp [isspace])]
    simp only [List.cons_append, List.nil_append, List.head?_cons, or_true, if_true,
      List.tail_cons]

end Atoi

theorem atoi_parses_in_range (ws sign ds rest : List UInt8) (hws : ∀ c ∈ ws, isspace c = true)
    (hsign : sign = [] ∨ sign = [43] ∨ sign = [45]) (hds : ds ≠ [])
    (hdig : ∀ c ∈ ds, isdigit c = true) (hrest : ∀ c ∈ rest.head?, isdigit c = false)
    (hv : IntRange (if sign = [45] then -(decimalValue 0 ds : Int) else decimalValue 0 ds)) :
    atoi (ws ++ sign ++ ds ++ rest) =
      some (if sign = [45] then -(decimalValue 0 ds : Int) else decimalValue 0 ds) := by
  obtain ⟨d, ds', rfl⟩ := List.exists_cons_of_ne_nil hds
  have hbound : decimalValue 0 (d :: ds') ≤ 2 ^ 31 := by
    unfold IntRange at hv
    split at hv <;> omega
  have hloop : atoiLoop 0 (d :: (ds' ++ rest)) = some (-(decimalValue 0 (d :: ds') : Int)) :=
    atoiLoop_digits hdig hrest 0 hbound
  rw [List.append_assoc, List.cons_append, atoi_sign hws hsign (hdig d List.mem_cons_self), hloop,
    Option.bind_some]
  by_cases hneg : sign = [45]
  · rw [if_pos hneg, if_pos hneg]
  · rw [if_neg hneg, if_neg hneg, Int.neg_neg]
    rw [if_neg hneg] at hv
    rw [if_pos hv]

/-- `atoi (" \t-2147483648")` is `INT_MIN` and `atoi ("+2147483647x")` is `INT_MAX`. -/
theorem atoi_parses_in_range_limits :
    atoi ([32, 9] ++ [45] ++ [50, 49, 52, 55, 52, 56, 51, 54, 52, 56] ++ []) = some (-2147483648) ∧
    atoi ([] ++ [43] ++ [50, 49, 52, 55, 52, 56, 51, 54, 52, 55] ++ [120]) = some 2147483647 := by
  constructor
  · rw [atoi_parses_in_range [32, 9] [45] [50, 49, 52, 55, 52, 56, 51, 54, 52, 56] []
      (by simp [isspace]) (by decide) (by decide) (by simp [isdigit]) (by simp) (by decide)]
    decide
  · rw [atoi_parses_in_range [] [43] [50, 49, 52, 55, 52, 56, 51, 54, 52, 55] [120]
      (by simp) (by decide) (by decide) (by simp [isdigit]) (by simp [isdigit]) (by decide)]
    decide

end Pintos.Lib
