import Pintos.Lib.Bitmap
import Pintos.Lib.Bits
import Pintos.Kit.Fields
import Pintos.Kit.Run
import Mathlib.Data.List.Find

/-! lib/kernel/bitmap.c as it stores a bitmap: "from the inside, it's an array of elem_type
that simulates an array of bits". Bit `i` is bit `i % ELEM_BITS` of element `i / ELEM_BITS`;
the last element may have bits past `bit_cnt`, which `bitmap_create` leaves as `malloc` found
them and `bitmap_read` clears. Every operation acts on the bits the elements stand for as the
bit-array model of `Pintos.Lib.Bitmap` does, over any run of them, and the free map that
`bitmap_write` saves is what `bitmap_read` loads back. -/
namespace Pintos.Lib
open Pintos.Kit

/-- `ELEM_BITS`: `elem_type` is `unsigned long`, 32 bits on the i386. -/
def elemBits : Nat := 32

/-- `elem_idx`. -/
def elemIdx (bitIdx : Nat) : Nat := bitIdx / elemBits

/-- `bit_mask`. -/
def bitMask (bitIdx : Nat) : UInt32 := (1 : UInt32) <<< (bitIdx % elemBits).toUInt32

/-- `elem_cnt`: `DIV_ROUND_UP (bit_cnt, ELEM_BITS)`. -/
def elemCnt (bitCnt : Nat) : Nat := (bitCnt + elemBits - 1) / elemBits

/-- `byte_cnt`. -/
def byteCnt (bitCnt : Nat) : Nat := 4 * elemCnt bitCnt

/-- The calls of bitmap.c that change a bitmap, with their arguments. -/
inductive BitmapCall where
  | mark (idx : Nat)
  | reset (idx : Nat)
  | flip (idx : Nat)
  | set (idx : Nat) (value : Bool)
  | setMultiple (start cnt : Nat) (value : Bool)
  | scanAndFlip (start cnt : Nat) (value : Bool)

/-- The callers' side of each call's `ASSERT`s, read on the bit array: a bit inside, a range
inside, a scan that starts inside. -/
def BitmapCall.Allowed (l : Bitmap) : BitmapCall → Prop
  | .mark idx | .reset idx | .flip idx | .set idx _ => idx < l.length
  | .setMultiple start cnt _ => start + cnt ≤ l.length
  | .scanAndFlip start _ _ => start ≤ l.length

instance BitmapCall.decAllowed (l : Bitmap) : (c : BitmapCall) → Decidable (c.Allowed l)
  | .mark idx | .reset idx | .flip idx | .set idx _ =>
    inferInstanceAs (Decidable (idx < l.length))
  | .setMultiple start cnt _ => inferInstanceAs (Decidable (start + cnt ≤ l.length))
  | .scanAndFlip start _ _ => inferInstanceAs (Decidable (start ≤ l.length))

/-- What each call does to the bit array. -/
def Bitmap.apply (l : Bitmap) : BitmapCall → Bitmap
  | .mark idx => l.setMultiple idx 1 true
  | .reset idx => l.setMultiple idx 1 false
  | .flip idx => l.setMultiple idx 1 (!l.test idx)
  | .set idx value => l.setMultiple idx 1 value
  | .setMultiple start cnt value => l.setMultiple start cnt value
  | .scanAndFlip start cnt value => (l.scanAndFlip start cnt value).1

/-- `struct bitmap`: `bits` points to `elem_cnt (bit_cnt)` elements. -/
structure Bitmap.Packed where
  bitCnt : Nat
  bits : List UInt32
  length_bits : bits.length = elemCnt bitCnt

namespace Bitmap.Packed

/-- The bit that `bitmap_test` reads: bit `idx`'s element under its mask. -/
def bitAt (b : Packed) (idx : Nat) : Bool := (b.bits.getD (elemIdx idx) 0 &&& bitMask idx) != 0

/-- The bit array the elements stand for. -/
def toBitmap (b : Packed) : Bitmap := (List.range b.bitCnt).map b.bitAt

/-- `last_mask`. -/
def lastMask (b : Packed) : UInt32 :=
  let lastBits := b.bitCnt % elemBits
  -- `(elem_type) -1` when the last element is full
  if lastBits ≠ 0 then ((1 : UInt32) <<< lastBits.toUInt32) - 1 else (0 : UInt32) - 1

/-- The element of bit `bitIdx` replaced by `f` of it. -/
def update (b : Packed) (bitIdx : Nat) (f : UInt32 → UInt32) : Packed :=
  ⟨b.bitCnt, b.bits.modify (elemIdx bitIdx) f, by rw [List.length_modify, b.length_bits]⟩

/-- `bitmap_mark`: `b->bits[idx] |= mask`. It checks no bound; `none` where the element would
lie outside `bits`. -/
def bitmapMark (b : Packed) (bitIdx : Nat) : Option Packed :=
  if elemIdx bitIdx < b.bits.length then some (b.update bitIdx (· ||| bitMask bitIdx)) else none

/-- `bitmap_reset`: `b->bits[idx] &= ~mask`. -/
def bitmapReset (b : Packed) (bitIdx : Nat) : Option Packed :=
  if elemIdx bitIdx < b.bits.length then some (b.update bitIdx (· &&& ~~~(bitMask bitIdx)))
  else none

/-- `bitmap_flip`: `b->bits[idx] ^= mask`. -/
def bitmapFlip (b : Packed) (bitIdx : Nat) : Option Packed :=
  if elemIdx bitIdx < b.bits.length then some (b.update bitIdx (· ^^^ bitMask bitIdx)) else none

/-- `bitmap_test`; `none` where `ASSERT (idx < b->bit_cnt)` fails. -/
def bitmapTest (b : Packed) (idx : Nat) : Option Bool :=
  if idx < b.bitCnt then some (b.bitAt idx) else none

/-- `bitmap_set`. -/
def bitmapSet (b : Packed) (idx : Nat) (value : Bool) : Option Packed :=
  if idx < b.bitCnt then (if value then b.bitmapMark idx else b.bitmapReset idx) else none

/-- `bitmap_set_multiple`: `bitmap_set` on each bit of the range in turn. -/
def bitmapSetMultiple (b : Packed) (start cnt : Nat) (value : Bool) : Option Packed :=
  if start ≤ b.bitCnt ∧ start + cnt ≤ b.bitCnt then
    (List.range cnt).foldlM (fun b i => b.bitmapSet (start + i) value) b
  else none

/-- `bitmap_set_all`. -/
def bitmapSetAll (b : Packed) (value : Bool) : Option Packed :=
  b.bitmapSetMultiple 0 b.bitCnt value

/-- The loop of `bitmap_contains`, which returns at the first bit equal to `value`. Its calls of
`bitmap_test` pass their `ASSERT` whenever the range lies inside the bitmap. -/
def anyBit (b : Packed) (start cnt : Nat) (value : Bool) : Bool :=
  (List.range cnt).any fun i => b.bitAt (start + i) == value

/-- `bitmap_count`. -/
def bitmapCount (b : Packed) (start cnt : Nat) (value : Bool) : Option Nat :=
  if start ≤ b.bitCnt ∧ start + cnt ≤ b.bitCnt then
    some ((List.range cnt).foldl (fun n i => if b.bitAt (start + i) = value then n + 1 else n) 0)
  else none

/-- `bitmap_contains`. -/
def bitmapContains (b : Packed) (start cnt : Nat) (value : Bool) : Option Bool :=
  if start ≤ b.bitCnt ∧ start + cnt ≤ b.bitCnt then some (b.anyBit start cnt value) else none

def bitmapAny (b : Packed) (start cnt : Nat) : Option Bool := b.bitmapContains start cnt true

def bitmapNone (b : Packed) (start cnt : Nat) : Option Bool :=
  (b.bitmapContains start cnt true).map (!·)

def bitmapAll (b : Packed) (start cnt : Nat) : Option Bool :=
  (b.bitmapContains start cnt false).map (!·)

/-- `bitmap_scan`: the inner `none` is `BITMAP_ERROR`, the outer one a failed
`ASSERT (start <= b->bit_cnt)`. Each `bitmap_contains` the loop calls has its range inside. -/
def bitmapScan (b : Packed) (start cnt : Nat) (value : Bool) : Option (Option Nat) :=
  if start ≤ b.bitCnt then
    some (if cnt ≤ b.bitCnt then
      (List.range' start (b.bitCnt - cnt + 1 - start)).find? fun i => !b.anyBit i cnt !value
    else none)
  else none

/-- `bitmap_scan_and_flip`. -/
def bitmapScanAndFlip (b : Packed) (start cnt : Nat) (value : Bool) :
    Option (Packed × Option Nat) :=
  (b.bitmapScan start cnt value).bind fun
    | some idx => (b.bitmapSetMultiple idx cnt !value).map (·, some idx)
    | none => some (b, none)

/-- `bitmap_create` on the elements `malloc` returned, whatever they hold. -/
def bitmapCreate (bitCnt : Nat) (mem : Nat → UInt32) : Option Packed :=
  (⟨bitCnt, (List.range (elemCnt bitCnt)).map mem, by simp⟩ : Packed).bitmapSetAll false

/-- `bitmap_write`: the elements, `byte_cnt (bit_cnt)` bytes of them, go to the file. -/
def bitmapWrite (b : Packed) : List UInt32 := b.bits

/-- `bitmap_read` from a file holding `file`: the elements it has, up to `elem_cnt`, replace
the first ones, and the bits past `bit_cnt` in the last element are cleared. It succeeds when
the file held them all. -/
def bitmapRead (b : Packed) (file : List UInt32) : Packed × Bool :=
  if b.bitCnt > 0 then
    let got := file.take (elemCnt b.bitCnt)
    (⟨b.bitCnt, (got ++ b.bits.drop got.length).modify (elemCnt b.bitCnt - 1) (· &&& b.lastMask),
      by simp only [List.length_modify, List.length_append, List.length_drop, List.length_take,
          b.length_bits, got]; omega⟩, got.length == elemCnt b.bitCnt)
  else (b, true)

section Bits
variable {b : Packed} {i k : Nat}

theorem toNat_bitMask (k : Nat) : (bitMask k).toNat = 2 ^ (k % elemBits) :=
  toNat_one_shiftLeft (Nat.mod_lt _ (by decide))

theorem bitAt_eq (b : Packed) (i : Nat) :
    b.bitAt i = (b.bits.getD (elemIdx i) 0).toNat.testBit (i % elemBits) := by
  rw [bitAt, Bool.eq_iff_iff, bne_iff_ne, ne_eq, ← UInt32.toNat_inj, UInt32.toNat_and,
    toNat_bitMask, UInt32.toNat_zero, ← ne_eq, Bits.and_two_pow_ne_zero]

theorem testBit_or_bitMask (w : UInt32) (k : Nat) {j : Nat} :
    (w ||| bitMask k).toNat.testBit j =
      if j = k % elemBits then true else w.toNat.testBit j := by
  rw [UInt32.toNat_or, Nat.testBit_or, toNat_bitMask, Nat.testBit_two_pow]
  by_cases h : j = k % elemBits <;> simp [h, eq_comm]

theorem testBit_and_not_bitMask (w : UInt32) (k : Nat) {j : Nat} (hj : j < elemBits) :
    (w &&& ~~~(bitMask k)).toNat.testBit j =
      if j = k % elemBits then false else w.toNat.testBit j := by
  rw [UInt32.toNat_and, Nat.testBit_and, testBit_toNat_not _ hj, toNat_bitMask,
    Nat.testBit_two_pow]
  by_cases h : j = k % elemBits <;> simp [h, eq_comm]

theorem testBit_xor_bitMask (w : UInt32) (k : Nat) {j : Nat} :
    (w ^^^ bitMask k).toNat.testBit j =
      if j = k % elemBits then !w.toNat.testBit j else w.toNat.testBit j := by
  rw [UInt32.toNat_xor, Nat.testBit_xor, toNat_bitMask, Nat.testBit_two_pow]
  by_cases h : j = k % elemBits <;> simp [h, eq_comm]

/-- Replacing bit `k`'s element by one that differs from it at most in `k`'s bit, where it holds
`g` of the old bit, changes bit `k` to `g` of it and no other bit. -/
theorem bitAt_update {f : UInt32 → UInt32} {g : Bool → Bool}
    (hf : ∀ w j, j < elemBits →
      (f w).toNat.testBit j = if j = k % elemBits then g (w.toNat.testBit j) else w.toNat.testBit j)
    (hk : elemIdx k < b.bits.length) (i : Nat) :
    (b.update k f).bitAt i = if i = k then g (b.bitAt i) else b.bitAt i := by
  rw [bitAt_eq, bitAt_eq]
  simp only [update, List.getD_eq_getElem?_getD, List.getElem?_modify]
  by_cases he : elemIdx k = elemIdx i
  · -- the same element: a bit's place in it tells it apart
    have hlt : elemIdx i < b.bits.length := he ▸ hk
    have hik : i = k ↔ i % elemBits = k % elemBits := by
      refine ⟨fun h => h ▸ rfl, fun h => ?_⟩
      simp only [elemIdx, elemBits] at he h
      omega
    rw [List.getElem?_eq_getElem hlt]
    simp only [Option.map_eq_map, Option.map_some, if_pos he, Option.getD_some]
    rw [hf _ _ (Nat.mod_lt _ (by decide))]
    by_cases h : i = k
    · rw [if_pos (hik.mp h), if_pos h]
    · rw [if_neg (fun h' => h (hik.mpr h')), if_neg h]
  · -- another element, untouched
    have hik : i ≠ k := fun h => he (h ▸ rfl)
    rw [if_neg hik]
    cases b.bits[elemIdx i]? <;> simp [he]


@[simp] theorem update_bitCnt (b : Packed) (k : Nat) (f : UInt32 → UInt32) :
    (b.update k f).bitCnt = b.bitCnt := rfl

theorem elemIdx_lt_length (hi : i < b.bitCnt) : elemIdx i < b.bits.length := by
  rw [b.length_bits]
  simp only [elemIdx, elemCnt, elemBits]
  omega

/-- The bits `last_mask` keeps: those of the last element below `bit_cnt`, or all of them when
the last element is full. -/
theorem testBit_lastMask (b : Packed) {j : Nat} (hj : j < elemBits) :
    b.lastMask.toNat.testBit j = (b.bitCnt % elemBits == 0 || decide (j < b.bitCnt % elemBits)) := by
  have hm : b.bitCnt % elemBits < 32 := Nat.mod_lt _ (by decide)
  unfold lastMask
  dsimp only
  split
  · rename_i h
    have hle : (1 : UInt32) ≤ (1 : UInt32) <<< (b.bitCnt % elemBits).toUInt32 := by
      rw [UInt32.le_iff_toNat_le, toNat_one_shiftLeft hm, UInt32.toNat_one]
      exact Nat.one_le_two_pow
    rw [UInt32.toNat_sub_of_le _ _ hle, toNat_one_shiftLeft hm, UInt32.toNat_one,
      Nat.testBit_two_pow_sub_one]
    simp [h]
  · rename_i h
    rw [show ((0 : UInt32) - 1).toNat = 2 ^ 32 - 1 by decide, Nat.testBit_two_pow_sub_one]
    simp only [elemBits] at hj h ⊢
    simp [hj, Decidable.not_not.mp h]

/-- In the elements of a bitmap of `n` bits, with the last one masked by `last_mask` and the
others kept whole, the bits kept are those below `n`. -/
theorem lastMask_keeps {n i : Nat} (hi : i < elemBits * elemCnt n) :
    (elemIdx i != elemCnt n - 1 || (n % elemBits == 0 || decide (i % elemBits < n % elemBits))) =
      decide (i < n) := by
  by_cases hin : i < n
  · rw [decide_eq_true hin, Bool.or_eq_true, Bool.or_eq_true, bne_iff_ne, beq_iff_eq,
      decide_eq_true_iff]
    simp only [elemIdx, elemCnt, elemBits] at hi hin ⊢
    omega
  · rw [decide_eq_false hin, Bool.or_eq_false_iff, Bool.or_eq_false_iff, bne_eq_false_iff_eq,
      beq_eq_false_iff_ne, decide_eq_false_iff_not]
    simp only [elemIdx, elemCnt, elemBits] at hi hin ⊢
    omega
end Bits

/-! ### The bit array the elements stand for -/

section Abstract
variable {b b' : Packed}

@[simp] theorem length_toBitmap (b : Packed) : b.toBitmap.length = b.bitCnt := by
  simp [toBitmap]

theorem test_toBitmap (b : Packed) (i : Nat) :
    b.toBitmap.test i = if i < b.bitCnt then b.bitAt i else false := by
  by_cases hi : i < b.bitCnt
  · simp [Bitmap.test, toBitmap, List.getD_eq_getElem?_getD, hi]
  · rw [if_neg hi, Bitmap.test_of_length_le (by simpa using hi)]

theorem toBitmap_eq (hc : b'.bitCnt = b.bitCnt) (h : ∀ i < b.bitCnt, b'.bitAt i = b.bitAt i) :
    b'.toBitmap = b.toBitmap :=
  Bitmap.eq_of_test (by simp [hc]) fun k => by
    rw [test_toBitmap, test_toBitmap, hc]
    by_cases hk : k < b.bitCnt
    · rw [if_pos hk, if_pos hk, h k hk]
    · rw [if_neg hk, if_neg hk]

theorem toBitmap_of_bitAt {idx : Nat} {v : Bool} (hi : idx < b.bitCnt) (hc : b'.bitCnt = b.bitCnt)
    (h : ∀ i, b'.bitAt i = if i = idx then v else b.bitAt i) :
    b'.toBitmap = b.toBitmap.setMultiple idx 1 v :=
  Bitmap.eq_of_test (by simp [hc]) fun k => by
    rw [test_toBitmap, Bitmap.test_setMultiple, test_toBitmap, hc, h, length_toBitmap]
    by_cases hk : k = idx
    · simp [hk, hi]
    · by_cases hkc : k < b.bitCnt
      · simp [hk, hkc]
        omega
      · simp [hkc]

end Abstract

/-! ### Each operation -/

section Ops
variable {b : Packed} {idx start cnt : Nat}

/-- `bitmap_mark`, `bitmap_reset` and `bitmap_flip` inside the bitmap: the bit becomes `true`,
`false` or its negation, and no other bit changes. -/
theorem bitmapMark_spec (hi : idx < b.bitCnt) :
    ∃ b', b.bitmapMark idx = some b' ∧ b'.bitCnt = b.bitCnt ∧
      ∀ i, b'.bitAt i = if i = idx then true else b.bitAt i := by
  have hk := elemIdx_lt_length hi
  exact ⟨b.update idx (· ||| bitMask idx), by simp [bitmapMark, hk], rfl,
    bitAt_update (g := fun _ => true) (fun w _ _ => testBit_or_bitMask w idx) hk⟩

theorem bitmapReset_spec (hi : idx < b.bitCnt) :
    ∃ b', b.bitmapReset idx = some b' ∧ b'.bitCnt = b.bitCnt ∧
      ∀ i, b'.bitAt i = if i = idx then false else b.bitAt i := by
  have hk := elemIdx_lt_length hi
  exact ⟨b.update idx (· &&& ~~~(bitMask idx)), by simp [bitmapReset, hk], rfl,
    bitAt_update (g := fun _ => false) (fun w _ hj => testBit_and_not_bitMask w idx hj) hk⟩

theorem bitmapFlip_spec (hi : idx < b.bitCnt) :
    ∃ b', b.bitmapFlip idx = some b' ∧ b'.bitCnt = b.bitCnt ∧
      ∀ i, b'.bitAt i = if i = idx then !b.bitAt idx else b.bitAt i := by
  have hk := elemIdx_lt_length hi
  refine ⟨b.update idx (· ^^^ bitMask idx), by simp [bitmapFlip, hk], rfl, fun i => ?_⟩
  rw [bitAt_update (g := (!·)) (fun w _ _ => testBit_xor_bitMask w idx) hk]
  by_cases h : i = idx
  · rw [if_pos h, if_pos h, h]
  · rw [if_neg h, if_neg h]

theorem bitmapSet_spec (value : Bool) (hi : idx < b.bitCnt) :
    ∃ b', b.bitmapSet idx value = some b' ∧ b'.bitCnt = b.bitCnt ∧
      ∀ i, b'.bitAt i = if i = idx then value else b.bitAt i := by
  cases value with
  | true =>
    obtain ⟨b', h, hc, hb⟩ := bitmapMark_spec hi
    exact ⟨b', by simp [bitmapSet, hi, h], hc, hb⟩
  | false =>
    obtain ⟨b', h, hc, hb⟩ := bitmapReset_spec hi
    exact ⟨b', by simp [bitmapSet, hi, h], hc, hb⟩

/-- The loop of `bitmap_set_multiple`: after `n` turns the bits from `start` to `start + n`
hold `value` and the others are as they were. -/
theorem setLoop_spec (start : Nat) (value : Bool) :
    ∀ (n : Nat) (b : Packed), start + n ≤ b.bitCnt →
      ∃ b', (List.range n).foldlM (fun b i => b.bitmapSet (start + i) value) b = some b' ∧
        b'.bitCnt = b.bitCnt ∧
        ∀ i, b'.bitAt i = if start ≤ i ∧ i < start + n then value else b.bitAt i
  | 0, b, _ => ⟨b, rfl, rfl, fun i => by simp⟩
  | n + 1, b, h => by
    obtain ⟨b1, h1, hc1, hb1⟩ := setLoop_spec start value n b (by omega)
    obtain ⟨b2, h2, hc2, hb2⟩ := bitmapSet_spec (b := b1) value (show start + n < b1.bitCnt by omega)
    refine ⟨b2, ?_, hc2.trans hc1, fun i => ?_⟩
    · rw [List.range_succ, List.foldlM_append, h1]
      simpa using h2
    · rw [hb2, hb1]
      by_cases hi : i = start + n
      · simp [hi]
      · by_cases hr : start ≤ i ∧ i < start + n <;> simp [hi, hr] <;> omega

theorem bitmapSetMultiple_spec (start cnt : Nat) (value : Bool) (h : start + cnt ≤ b.bitCnt) :
    ∃ b', b.bitmapSetMultiple start cnt value = some b' ∧ b'.bitCnt = b.bitCnt ∧
      b'.toBitmap = b.toBitmap.setMultiple start cnt value := by
  obtain ⟨b', hr, hc, hb⟩ := setLoop_spec start value cnt b h
  refine ⟨b', by rw [bitmapSetMultiple, if_pos ⟨by omega, h⟩, hr], hc,
    Bitmap.eq_of_test (by simp [hc]) fun k => ?_⟩
  rw [Bitmap.test_setMultiple, test_toBitmap, test_toBitmap, hb, hc, length_toBitmap]
  by_cases hk : k < b.bitCnt <;> by_cases hr : start ≤ k ∧ k < start + cnt <;> simp [hk, hr]

theorem bitmapCreate_spec (bitCnt : Nat) (mem : Nat → UInt32) :
    ∃ b, bitmapCreate bitCnt mem = some b ∧ b.bitCnt = bitCnt ∧
      b.toBitmap = List.replicate bitCnt false := by
  obtain ⟨b, hb, hc, heq⟩ := bitmapSetMultiple_spec
    (b := ⟨bitCnt, (List.range (elemCnt bitCnt)).map mem, by simp⟩) 0 bitCnt false (by simp)
  refine ⟨b, hb, hc, Bitmap.eq_of_test (by simp [heq]) fun k => ?_⟩
  rw [heq, Bitmap.test_setMultiple, test_toBitmap, Bitmap.test_replicate_false]
  by_cases hk : k < bitCnt <;> simp [hk]

theorem anyBit_eq (value : Bool) (h : start + cnt ≤ b.bitCnt) :
    b.anyBit start cnt value = b.toBitmap.contains start cnt value := by
  rw [anyBit, Bitmap.contains, Bool.eq_iff_iff, List.any_eq_true, List.any_eq_true]
  refine exists_congr fun i => and_congr_right fun hi => ?_
  rw [List.mem_range] at hi
  rw [test_toBitmap, if_pos (by omega)]

theorem bitmapScan_eq (cnt : Nat) (value : Bool) (h : start ≤ b.bitCnt) :
    b.bitmapScan start cnt value = some (b.toBitmap.scan start cnt value) := by
  rw [bitmapScan, Bitmap.scan, if_pos h, length_toBitmap]
  congr 1
  split
  · apply List.find?_congr
    intro i hi
    rw [List.mem_range'_1] at hi
    rw [anyBit_eq _ (by omega)]
  · rfl

theorem bitmapScanAndFlip_spec (cnt : Nat) (value : Bool) (h : start ≤ b.bitCnt) :
    ∃ b', b.bitmapScanAndFlip start cnt value =
        some (b', (b.toBitmap.scanAndFlip start cnt value).2) ∧ b'.bitCnt = b.bitCnt ∧
      b'.toBitmap = (b.toBitmap.scanAndFlip start cnt value).1 := by
  rw [bitmapScanAndFlip, bitmapScan_eq cnt value h, Option.bind_some, Bitmap.scanAndFlip]
  cases hs : b.toBitmap.scan start cnt value with
  | none => exact ⟨b, rfl, rfl, rfl⟩
  | some idx =>
    obtain ⟨-, hlen, -⟩ := Bitmap.scan_some hs
    obtain ⟨b', hb', hc, heq⟩ := bitmapSetMultiple_spec idx cnt (!value) (by simpa using hlen)
    exact ⟨b', by simp [hb'], hc, heq⟩

end Ops

/-- A call on the packed bitmap. -/
def call (b : Packed) : BitmapCall → Option Packed
  | .mark idx => b.bitmapMark idx
  | .reset idx => b.bitmapReset idx
  | .flip idx => b.bitmapFlip idx
  | .set idx value => b.bitmapSet idx value
  | .setMultiple start cnt value => b.bitmapSetMultiple start cnt value
  | .scanAndFlip start cnt value => (b.bitmapScanAndFlip start cnt value).map Prod.fst

/-! ### Every run -/

/-- One call whose `ASSERT`s hold: the packed bitmap takes it, keeps its size and stands for the
bit array after the same call. -/
theorem call_refines {b : Packed} {c : BitmapCall} (hc : c.Allowed b.toBitmap) :
    ∃ b', b.call c = some b' ∧ b'.bitCnt = b.bitCnt ∧ b'.toBitmap = b.toBitmap.apply c := by
  cases c with
  | mark idx =>
    have hi : idx < b.bitCnt := by simpa [BitmapCall.Allowed] using hc
    obtain ⟨b', h, hcnt, hb⟩ := bitmapMark_spec hi
    exact ⟨b', h, hcnt, toBitmap_of_bitAt hi hcnt hb⟩
  | reset idx =>
    have hi : idx < b.bitCnt := by simpa [BitmapCall.Allowed] using hc
    obtain ⟨b', h, hcnt, hb⟩ := bitmapReset_spec hi
    exact ⟨b', h, hcnt, toBitmap_of_bitAt hi hcnt hb⟩
  | flip idx =>
    have hi : idx < b.bitCnt := by simpa [BitmapCall.Allowed] using hc
    obtain ⟨b', h, hcnt, hb⟩ := bitmapFlip_spec hi
    refine ⟨b', h, hcnt, ?_⟩
    rw [Bitmap.apply, test_toBitmap, if_pos hi]
    exact toBitmap_of_bitAt hi hcnt hb
  | set idx value =>
    have hi : idx < b.bitCnt := by simpa [BitmapCall.Allowed] using hc
    obtain ⟨b', h, hcnt, hb⟩ := bitmapSet_spec value hi
    exact ⟨b', h, hcnt, toBitmap_of_bitAt hi hcnt hb⟩
  | setMultiple start cnt value =>
    exact bitmapSetMultiple_spec start cnt value (by simpa [BitmapCall.Allowed] using hc)
  | scanAndFlip start cnt value =>
    obtain ⟨b', h, hcnt, hb⟩ :=
      bitmapScanAndFlip_spec cnt value (by simpa [BitmapCall.Allowed] using hc)
    exact ⟨b', by simp [call, h], hcnt, hb⟩

/-- From `bitmap_create` on any memory, every run of calls whose `ASSERT`s hold on the bit array
completes on the packed elements, which then stand for the bit array the same calls make from
all `false`; there `bitmap_test` and `bitmap_scan` answer as on that bit array. -/
theorem bitmap_packed_refines (n : Nat) (mem : Nat → UInt32) (calls : List BitmapCall)
    (hok : AllowedAlong BitmapCall.Allowed Bitmap.apply (List.replicate n false) calls) :
    ∃ b0 b, bitmapCreate n mem = some b0 ∧ runs call b0 calls = some b ∧
      b.toBitmap = calls.foldl Bitmap.apply (List.replicate n false) ∧
      (∀ idx < n, b.bitmapTest idx = some (b.toBitmap.test idx)) ∧
      ∀ start cnt value, start ≤ n →
        b.bitmapScan start cnt value = some (b.toBitmap.scan start cnt value) := by
  obtain ⟨b0, h0, hc0, hb0⟩ := bitmapCreate_spec n mem
  obtain ⟨b, hrun, hb, hc⟩ := runs_forward (R := fun b l => b.toBitmap = l ∧ b.bitCnt = n)
    (fun b l c hbl hallowed => by
      obtain ⟨b', h, hcnt, heq⟩ := call_refines (by rw [hbl.1]; exact hallowed)
      exact ⟨b', h, by rw [heq, hbl.1], hcnt.trans hbl.2⟩) b0 _ calls ⟨hb0, hc0⟩ hok
  refine ⟨b0, b, h0, hrun, hb, fun idx hi => ?_, fun start cnt value hs => ?_⟩
  · rw [bitmapTest, test_toBitmap, if_pos (hc ▸ hi), if_pos (hc ▸ hi)]
  · exact bitmapScan_eq cnt value (hc ▸ hs)

/-- What `bitmap_write` saved, `bitmap_read` loads back into a bitmap of the same size whatever
that one held: the read succeeds, the bits are the saved ones, and the bits past `bit_cnt` in
the last element are clear. -/
theorem bitmap_write_read (b b' : Packed) (h : b'.bitCnt = b.bitCnt) :
    (b'.bitmapRead b.bitmapWrite).2 = true ∧
      (b'.bitmapRead b.bitmapWrite).1.toBitmap = b.toBitmap ∧
      ∀ i, b.bitCnt ≤ i → i < elemBits * elemCnt b.bitCnt →
        (b'.bitmapRead b.bitmapWrite).1.bitAt i = false := by
  by_cases hpos : 0 < b.bitCnt
  · -- the file holds all of `b`'s elements, and they replace all of `b'`'s
    have htake : b.bits.take (elemCnt b.bitCnt) = b.bits :=
      List.take_of_length_le (by rw [b.length_bits])
    have hdrop : b'.bits.drop (elemCnt b.bitCnt) = [] :=
      List.drop_of_length_le (by rw [b'.length_bits, h])
    have hcnt : (b'.bitmapRead b.bitmapWrite).1.bitCnt = b.bitCnt := by
      simp [bitmapRead, hpos, h]
    have hbit : ∀ i, (b'.bitmapRead b.bitmapWrite).1.bitAt i =
        (b.bitAt i && (elemIdx i != elemCnt b.bitCnt - 1 ||
          b'.lastMask.toNat.testBit (i % elemBits))) := by
      intro i
      have hread : (b'.bitmapRead b.bitmapWrite).1.bits =
          b.bits.modify (elemCnt b.bitCnt - 1) (· &&& b'.lastMask) := by
        simp [bitmapRead, hpos, bitmapWrite, htake, hdrop, h, b.length_bits]
      rw [bitAt_eq, bitAt_eq, hread]
      simp only [List.getD_eq_getElem?_getD, List.getElem?_modify]
      by_cases he : elemCnt b.bitCnt - 1 = elemIdx i
      · cases b.bits[elemIdx i]? <;> simp [he, UInt32.toNat_and, Nat.testBit_and]
      · cases b.bits[elemIdx i]? <;> simp [he, Ne.symm he]
    have hmod : ∀ i, i % elemBits < elemBits := fun i => Nat.mod_lt _ (by decide)
    have hle : b.bitCnt ≤ elemBits * elemCnt b.bitCnt := by
      simp only [elemCnt, elemBits]
      omega
    refine ⟨by simp [bitmapRead, hpos, bitmapWrite, htake, h, b.length_bits],
      toBitmap_eq hcnt fun i hi => ?_, fun i hlo hhi => ?_⟩
    · -- inside, `last_mask` keeps the bit
      rw [hbit, testBit_lastMask _ (hmod i), h, lastMask_keeps (Nat.lt_of_lt_of_le hi hle),
        decide_eq_true hi, Bool.and_true]
    · -- past `bit_cnt` in the last element, it clears it
      rw [hbit, testBit_lastMask _ (hmod i), h, lastMask_keeps hhi,
        decide_eq_false (Nat.not_lt.mpr hlo), Bool.and_false]
  · -- an empty bitmap reads nothing
    have h0 : b.bitCnt = 0 := by omega
    have hr : b'.bitmapRead b.bitmapWrite = (b', true) := by simp [bitmapRead, h, h0]
    refine ⟨by rw [hr], by rw [hr]; exact toBitmap_eq h fun i hi => by omega, fun i hlo hhi => ?_⟩
    simp [h0, elemCnt, elemBits] at hhi
end Bitmap.Packed

/-- `free_map_init` on a 16-sector disk marks sectors 0 and 1, a `free_map_allocate` of three
sectors flips the first free run, and a `free_map_release` gives sector 3 back. -/
theorem bitmap_packed_refines_free_map :
    AllowedAlong BitmapCall.Allowed Bitmap.apply (List.replicate 16 false)
        [.mark 0, .mark 1, .scanAndFlip 0 3 false, .setMultiple 3 1 false] ∧
      ∃ b0 b, Bitmap.Packed.bitmapCreate 16 (fun _ => 0xdeadbeef) = some b0 ∧
        runs Bitmap.Packed.call b0 [.mark 0, .mark 1, .scanAndFlip 0 3 false, .setMultiple 3 1 false] =
          some b ∧
        b.toBitmap = [.mark 0, .mark 1, .scanAndFlip 0 3 false, .setMultiple 3 1 false].foldl
          Bitmap.apply (List.replicate 16 false) ∧
        (∀ idx < 16, b.bitmapTest idx = some (b.toBitmap.test idx)) ∧
        ∀ start cnt value, start ≤ 16 →
          b.bitmapScan start cnt value = some (b.toBitmap.scan start cnt value) := by
  have hok : AllowedAlong BitmapCall.Allowed Bitmap.apply (List.replicate 16 false)
      [.mark 0, .mark 1, .scanAndFlip 0 3 false, .setMultiple 3 1 false] :=
    ⟨by decide, by decide, by decide, by decide, trivial⟩
  exact ⟨hok, Bitmap.Packed.bitmap_packed_refines 16 _ _ hok⟩

/-- Forty bits, the unused bits of the last element set. -/
def sampleSaved : Bitmap.Packed := ⟨40, [0x12345678, 0xffffffff], by decide⟩

/-- A fresh forty-bit bitmap to read into. -/
def sampleFresh : Bitmap.Packed := ⟨40, [0, 0], by decide⟩

theorem bitmap_write_read_sample :
    sampleFresh.bitCnt = sampleSaved.bitCnt ∧
      (sampleFresh.bitmapRead sampleSaved.bitmapWrite).2 = true ∧
      (sampleFresh.bitmapRead sampleSaved.bitmapWrite).1.toBitmap = sampleSaved.toBitmap ∧
      ∀ i, sampleSaved.bitCnt ≤ i → i < elemBits * elemCnt sampleSaved.bitCnt →
        (sampleFresh.bitmapRead sampleSaved.bitmapWrite).1.bitAt i = false :=
  ⟨rfl, Bitmap.Packed.bitmap_write_read _ _ rfl⟩

end Pintos.Lib
