import Mathlib.Data.List.Basic

/-! The bit array of lib/kernel/bitmap.c, as far as palloc.c uses it: testing a bit, the
first-fit scan for a run of equal bits, and setting a range of bits. -/
namespace Pintos.Lib

/-- `struct bitmap`, as its `bit_cnt` bits in index order. -/
abbrev Bitmap := List Bool

namespace Bitmap

/-- `bitmap_test`. -/
def test (b : Bitmap) (idx : Nat) : Bool := b.getD idx false

/-- `bitmap_contains`: some bit of `[start, start + cnt)` equals `value`. -/
def contains (b : Bitmap) (start cnt : Nat) (value : Bool) : Bool :=
  (List.range cnt).any fun i => b.test (start + i) == value

/-- `bitmap_all`. -/
def all (b : Bitmap) (start cnt : Nat) : Bool := !b.contains start cnt false

/-- `bitmap_scan`: the first `i` from `start` to `bit_cnt - cnt` where the `cnt` bits from `i`
all equal `value`, or `none` for `BITMAP_ERROR`. -/
def scan (b : Bitmap) (start cnt : Nat) (value : Bool) : Option Nat :=
  if cnt ≤ b.length then
    (List.range' start (b.length - cnt + 1 - start)).find? fun i => !b.contains i cnt !value
  else none

/-- `bitmap_set_multiple`. -/
def setMultiple (b : Bitmap) (start cnt : Nat) (value : Bool) : Bitmap :=
  b.mapIdx fun k x => if start ≤ k ∧ k < start + cnt then value else x

/-- `bitmap_scan_and_flip`. -/
def scanAndFlip (b : Bitmap) (start cnt : Nat) (value : Bool) : Bitmap × Option Nat :=
  match b.scan start cnt value with
  | some idx => (b.setMultiple idx cnt !value, some idx)
  | none => (b, none)

variable {b : Bitmap} {start cnt : Nat} {value : Bool}

theorem contains_eq_false_iff :
    b.contains start cnt value = false ↔ ∀ i < cnt, b.test (start + i) ≠ value := by
  simp [contains]

theorem all_iff : b.all start cnt = true ↔ ∀ i < cnt, b.test (start + i) = true := by
  simp [all, contains]

theorem test_of_length_le {k : Nat} (hk : b.length ≤ k) : b.test k = false := by
  simp [test, List.getD_eq_getElem?_getD, List.getElem?_eq_none hk]

@[simp] theorem test_replicate_false (n k : Nat) : test (List.replicate n false) k = false := by
  simp only [test, List.getD_eq_getElem?_getD, List.getElem?_replicate]
  split <;> rfl

@[simp] theorem length_setMultiple : (b.setMultiple start cnt value).length = b.length := by
  simp [setMultiple]

theorem test_setMultiple (k : Nat) :
    (b.setMultiple start cnt value).test k =
      if start ≤ k ∧ k < start + cnt ∧ k < b.length then value else b.test k := by
  by_cases hk : k < b.length
  · simp [test, setMultiple, List.getD_eq_getElem?_getD, hk]
  · have hk' : b.length ≤ k := Nat.le_of_not_lt hk
    rw [test_of_length_le (by simpa using hk'), test_of_length_le hk']
    simp [hk]

theorem eq_of_test {b' : Bitmap} (hl : b.length = b'.length) (h : ∀ k, b.test k = b'.test k) :
    b = b' :=
  List.ext_getElem hl fun k h1 h2 => by
    simpa [test, List.getD_eq_getElem?_getD, h1, h2] using h k

theorem scan_some {idx : Nat} (h : b.scan start cnt value = some idx) :
    start ≤ idx ∧ idx + cnt ≤ b.length ∧ ∀ i < cnt, b.test (idx + i) = value := by
  unfold scan at h
  split at h
  · rename_i hcnt
    have hmem := List.mem_of_find?_eq_some h
    have hrun := List.find?_some h
    rw [List.mem_range'_1] at hmem
    rw [Bool.not_eq_true', contains_eq_false_iff] at hrun
    refine ⟨hmem.1, by omega, fun i hi => ?_⟩
    have := hrun i hi
    cases hv : b.test (idx + i) <;> cases value <;> simp_all
  · cases h

/-- When the scan fails, every window of `cnt` bits from `start` on has a bit that differs
from `value`. -/
theorem scan_none (h : b.scan start cnt value = none) :
    ∀ idx, start ≤ idx → idx + cnt ≤ b.length → ∃ i < cnt, b.test (idx + i) = !value := by
  intro idx hs he
  unfold scan at h
  rw [if_pos (by omega), List.find?_eq_none] at h
  have hno := h idx (by rw [List.mem_range'_1]; omega)
  rw [Bool.not_eq_true', Bool.not_eq_false, contains] at hno
  obtain ⟨i, hi, hv⟩ := List.any_eq_true.mp hno
  exact ⟨i, List.mem_range.mp hi, by simpa using hv⟩

/-! ### The first fit -/

/-- A run of `cnt` bits equal to `value` from `i`, at or after `start` and inside the bitmap. -/
def Fits (b : Bitmap) (start cnt : Nat) (value : Bool) (i : Nat) : Prop :=
  start ≤ i ∧ i + cnt ≤ b.length ∧ ∀ j < cnt, b.test (i + j) = value

theorem contains_not_eq_false_iff {i : Nat} :
    b.contains i cnt (!value) = false ↔ ∀ j < cnt, b.test (i + j) = value := by
  rw [contains_eq_false_iff]
  refine forall₂_congr fun j _ => ?_
  cases b.test (i + j) <;> cases value <;> decide

theorem fits_of_scan {idx : Nat} (h : b.scan start cnt value = some idx) :
    Fits b start cnt value idx :=
  scan_some h

theorem scan_min {idx : Nat} (h : b.scan start cnt value = some idx) :
    ∀ j < idx, ¬ Fits b start cnt value j := by
  intro j hj hfit
  unfold scan at h
  split at h
  · have hno := (List.find?_range'_eq_some.1 h).2.2 j hfit.1 hj
    simp only [Bool.not_not] at hno
    rw [contains_not_eq_false_iff.2 hfit.2.2] at hno
    cases hno
  · cases h

theorem not_fits_of_scan {i : Nat} (h : b.scan start cnt value = none) :
    ¬ Fits b start cnt value i := by
  intro ⟨hs, hlen, hrun⟩
  obtain ⟨j, hj, hv⟩ := scan_none h i hs hlen
  rw [hrun j hj] at hv
  cases value <;> cases hv

theorem scan_eq_some_iff {idx : Nat} :
    b.scan start cnt value = some idx ↔
      Fits b start cnt value idx ∧ ∀ j < idx, ¬ Fits b start cnt value j := by
  refine ⟨fun h => ⟨fits_of_scan h, scan_min h⟩, fun ⟨hfit, hmin⟩ => ?_⟩
  cases hs : b.scan start cnt value with
  | none => exact absurd hfit (not_fits_of_scan hs)
  | some idx' =>
    rcases Nat.lt_trichotomy idx' idx with hlt | rfl | hgt
    · exact absurd (fits_of_scan hs) (hmin idx' hlt)
    · rfl
    · exact absurd hfit (scan_min hs idx hgt)

theorem scan_eq_none_iff : b.scan start cnt value = none ↔ ∀ i, ¬ Fits b start cnt value i := by
  refine ⟨fun h i => not_fits_of_scan h, fun h => ?_⟩
  cases hs : b.scan start cnt value with
  | none => rfl
  | some idx => exact absurd (fits_of_scan hs) (h idx)

theorem test_setMultiple_fit {idx : Nat} (hfit : Fits b start cnt value idx) (k : Nat) :
    (b.setMultiple idx cnt !value).test k =
      if idx ≤ k ∧ k < idx + cnt then !b.test k else b.test k := by
  obtain ⟨-, hlen, hrun⟩ := hfit
  rw [test_setMultiple]
  by_cases hk : idx ≤ k ∧ k < idx + cnt
  · have := hrun (k - idx) (by omega)
    rw [Nat.add_sub_cancel' hk.1] at this
    rw [if_pos ⟨hk.1, hk.2, by omega⟩, if_pos hk, this]
  · rw [if_neg (fun h => hk ⟨h.1, h.2.1⟩), if_neg hk]

/-- `bitmap_scan` finds the first fit at or after `start`, or reports that none exists; and
`bitmap_scan_and_flip` flips exactly the bits of the fit it finds, leaving the bitmap as it is
when there is none. -/
theorem bitmap_scan_first_fit (b : Bitmap) (start cnt : Nat) (value : Bool) :
    (∀ idx, b.scan start cnt value = some idx ↔
      Fits b start cnt value idx ∧ ∀ j < idx, ¬ Fits b start cnt value j) ∧
    (b.scan start cnt value = none ↔ ∀ i, ¬ Fits b start cnt value i) ∧
    (∀ idx, b.scan start cnt value = some idx →
      (b.scanAndFlip start cnt value).2 = some idx ∧
      (b.scanAndFlip start cnt value).1.length = b.length ∧
      ∀ k, (b.scanAndFlip start cnt value).1.test k =
        if idx ≤ k ∧ k < idx + cnt then !b.test k else b.test k) ∧
    (b.scan start cnt value = none → b.scanAndFlip start cnt value = (b, none)) := by
  refine ⟨fun idx => scan_eq_some_iff, scan_eq_none_iff, fun idx hs => ?_, fun hs => ?_⟩
  · simp only [scanAndFlip, hs, length_setMultiple, true_and]
    exact test_setMultiple_fit (fits_of_scan hs)
  · simp only [scanAndFlip, hs]

end Bitmap
end Pintos.Lib
