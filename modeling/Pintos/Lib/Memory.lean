import Mathlib.Data.List.OfFn

/-! Memory as a map from addresses to values, with `memcpy` into it; and what a read and a
write at an offset do to an array whose length never changes. -/
namespace Pintos.Lib

namespace Memory

variable {α : Type} {dst src src' : Nat → α} {pos cnt i : Nat}

/-- `memcpy (dst + pos, src, cnt)`. -/
def copy (dst : Nat → α) (pos : Nat) (src : Nat → α) (cnt : Nat) : Nat → α :=
  fun i => if pos ≤ i ∧ i < pos + cnt then src (i - pos) else dst i

theorem copy_of_lt (h : i < pos) : copy dst pos src cnt i = dst i := by
  simp only [copy]
  rw [if_neg (by omega)]

theorem copy_of_le (h : pos + cnt ≤ i) : copy dst pos src cnt i = dst i := by
  simp only [copy]
  rw [if_neg (by omega)]

theorem copy_add {j : Nat} (h : j < cnt) : copy dst pos src cnt (pos + j) = src j := by
  simp only [copy]
  rw [if_pos (by omega), Nat.add_sub_cancel_left]

@[simp] theorem copy_zero : copy dst pos src 0 = dst := by
  funext i
  simp only [copy]
  rw [if_neg (by omega)]

theorem copy_congr (h : ∀ j < cnt, src j = src' j) : copy dst pos src cnt = copy dst pos src' cnt := by
  funext i
  simp only [copy]
  split
  · exact h _ (by omega)
  · rfl

theorem copy_append (m n : Nat) :
    copy (copy dst pos src m) (pos + m) (fun j => src (m + j)) n = copy dst pos src (m + n) := by
  funext i
  simp only [copy]
  by_cases h1 : pos ≤ i ∧ i < pos + m
  · rw [if_neg (by omega), if_pos h1, if_pos (by omega)]
  · by_cases h2 : pos + m ≤ i ∧ i < pos + m + n
    · rw [if_pos h2, if_pos (by omega)]
      congr 1
      omega
    · rw [if_neg h2, if_neg h1, if_neg (by omega)]

/-- Reading a block of `m` into a buffer, copying `src` into it at `q` and writing the buffer
back at `p` copies `src` into `m` at `p + q`, when the copy stays inside the block. -/
theorem copy_window (m : Nat → α) (p q c n : Nat) (h : q + c ≤ n) :
    copy m p (copy (fun j => m (p + j)) q src c) n = copy m (p + q) src c := by
  funext i
  simp only [copy]
  by_cases h1 : p + q ≤ i ∧ i < p + q + c
  · rw [if_pos (by omega), if_pos (by omega), if_pos h1]
    congr 1
    omega
  · rw [if_neg h1]
    split
    · rw [if_neg (by omega)]
      congr 1
      omega
    · rfl

/-- The `n` values from `pos` on, as a list. -/
def read (mem : Nat → α) (pos n : Nat) : List α := List.ofFn fun i : Fin n => mem (pos + i)

@[simp] theorem length_read (mem : Nat → α) (pos n : Nat) : (read mem pos n).length = n := by
  simp [read]

theorem read_copy : read (copy dst pos src cnt) pos cnt = List.ofFn fun i : Fin cnt => src i := by
  simp only [read]
  congr 1
  funext i
  exact copy_add i.isLt

/-- How many of the cells below `n` hold a value with `p`. -/
def count (mem : Nat → α) (n : Nat) (p : α → Bool) : Nat :=
  (List.range n).countP fun i => p (mem i)

theorem count_succ (mem : Nat → α) (n : Nat) (p : α → Bool) :
    count mem (n + 1) p = count mem n p + if p (mem n) then 1 else 0 := by
  simp [count, List.range_succ, List.countP_append]

theorem count_congr {mem mem' : Nat → α} {n : Nat} {p q : α → Bool}
    (h : ∀ i < n, p (mem i) = q (mem' i)) : count mem n p = count mem' n q := by
  unfold count
  apply List.countP_congr
  intro i hi
  rw [h i (List.mem_range.mp hi)]

theorem count_le {mem : Nat → α} {n : Nat} {p q : α → Bool} (h : ∀ x, p x → q x) :
    count mem n p ≤ count mem n q :=
  List.countP_mono_left fun i _ => h (mem i)

theorem count_update (mem : Nat → α) {n k : Nat} (hk : k < n) (x : α)
    (p : α → Bool) :
    count (Function.update mem k x) n p + (if p (mem k) then 1 else 0) =
      count mem n p + (if p x then 1 else 0) := by
  induction n with
  | zero => omega
  | succ n ih =>
    rw [count_succ, count_succ]
    by_cases hkn : k = n
    · subst hkn
      have hbelow : count (Function.update mem k x) k p = count mem k p :=
        count_congr fun i hi => by rw [Function.update_of_ne (by omega)]
      rw [hbelow, Function.update_self]
      omega
    · have hrest := ih (by omega)
      rw [Function.update_of_ne (Ne.symm hkn)]
      omega

end Memory

namespace Bytes

variable {α : Type} {m : List α} {size offset : Int}

/-- How many elements a read or a write of `size` at `offset` moves in an array of `len`. -/
def moved (len size offset : Int) : Int := max 0 (min size (len - offset))

/-- A read of `size` at `offset`: the count it moves and what it returns. -/
def readAt (m : List α) (size offset : Int) : Int × List α :=
  (moved m.length size offset, (m.drop offset.toNat).take (moved m.length size offset).toNat)

/-- A write of `size` elements of `src` at `offset`: the count it moves and the array after. -/
def writeAt (m : List α) (src : Nat → α) (size offset : Int) : Int × List α :=
  (moved m.length size offset, m.mapIdx fun i x =>
    if offset.toNat ≤ i ∧ i < offset.toNat + (moved m.length size offset).toNat then
      src (i - offset.toNat)
    else x)

theorem moved_nonneg (len size offset : Int) : 0 ≤ moved len size offset := by
  simp only [moved]
  omega

theorem moved_of_nonpos (len : Int) (h : size ≤ 0) : moved len size offset = 0 := by
  simp only [moved]
  omega

theorem moved_add (len : Int) {c : Int} (hc : 0 ≤ c) (hs : c ≤ size) (hl : c ≤ len - offset) :
    moved len size offset = c + moved len (size - c) (offset + c) := by
  simp only [moved]
  omega

theorem moved_toNat (len : Int) (h0 : 0 ≤ offset) :
    moved (len.toNat : Int) size offset = moved len size offset := by
  simp only [moved]
  omega

@[simp] theorem length_writeAt (src : Nat → α) : (writeAt m src size offset).2.length = m.length := by
  simp [writeAt]

theorem readAt_read (mem : Nat → α) (pos n : Nat) (h0 : 0 ≤ offset) :
    readAt (Memory.read mem pos n) size offset =
      (moved n size offset, Memory.read mem (pos + offset.toNat) (moved n size offset).toNat) := by
  have hm : (moved n size offset).toNat ≤ n - offset.toNat := by
    simp only [moved]
    omega
  simp only [readAt, Memory.length_read, Prod.mk.injEq, true_and]
  apply List.ext_getElem
  · simp only [List.length_take, List.length_drop, Memory.length_read]
    omega
  · intro i h1 h2
    simp only [Memory.read, List.getElem_take, List.getElem_drop, List.getElem_ofFn]
    congr 1
    omega

theorem writeAt_read (mem src : Nat → α) (pos n : Nat) :
    writeAt (Memory.read mem pos n) src size offset =
      (moved n size offset,
        Memory.read (Memory.copy mem (pos + offset.toNat) src (moved n size offset).toNat) pos n) := by
  simp only [writeAt, Memory.length_read, Prod.mk.injEq, true_and]
  apply List.ext_getElem
  · simp
  · intro i h1 h2
    simp only [Memory.read, List.getElem_mapIdx, List.getElem_ofFn, Memory.copy]
    by_cases hi : offset.toNat ≤ i ∧ i < offset.toNat + (moved n size offset).toNat
    · rw [if_pos hi, if_pos (by omega)]
      congr 1
      omega
    · rw [if_neg hi, if_neg (by omega)]

end Bytes

end Pintos.Lib
