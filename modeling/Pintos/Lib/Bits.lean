import Mathlib.Data.Nat.Bitwise

/-! Words split at bit `n` into a high part, `w / 2 ^ n`, and flags below it: what or-ing in a
flag, masking with a mask that keeps the high part, and testing one flag do to each part. -/
namespace Pintos.Lib.Bits

variable {w f m n j b : Nat}

theorem or_low_div (w : Nat) (hf : f < 2 ^ n) : (w ||| f) / 2 ^ n = w / 2 ^ n := by
  rw [Nat.or_div_two_pow, Nat.div_eq_of_lt hf, Nat.or_zero]

theorem div_lt_of_lt (hw : w < 2 ^ (n + j)) : w / 2 ^ n < 2 ^ j := by
  apply Nat.div_lt_of_lt_mul
  rw [← Nat.pow_add]
  exact hw

/-- A mask whose bits from `n` up to `n + j` are all set keeps the high part of a word of
`n + j` bits. -/
theorem and_high_div (hw : w < 2 ^ (n + j)) (hm : m / 2 ^ n = 2 ^ j - 1) :
    (w &&& m) / 2 ^ n = w / 2 ^ n := by
  rw [Nat.and_div_two_pow, hm, Nat.and_two_pow_sub_one_eq_mod, Nat.mod_eq_of_lt (div_lt_of_lt hw)]

theorem and_high (hw : w < 2 ^ (n + j)) (hm : m / 2 ^ n = 2 ^ j - 1) (hm0 : m % 2 ^ n = 0) :
    w &&& m = w / 2 ^ n * 2 ^ n := by
  have hlow : (w &&& m) % 2 ^ n = 0 := by
    rw [Nat.and_mod_two_pow, hm0, Nat.and_zero]
  rw [← and_high_div hw hm]
  have := Nat.div_add_mod (w &&& m) (2 ^ n)
  rw [hlow, Nat.add_zero] at this
  rw [Nat.mul_comm]
  exact this.symm

theorem and_two_pow_ne_zero : w &&& 2 ^ b ≠ 0 ↔ w.testBit b = true := by
  rw [Nat.and_two_pow]
  cases w.testBit b <;> simp

theorem and_eq_zero_of_mod {c : Nat} (hw : w % 2 ^ n = 0) (hc : c < 2 ^ n) : w &&& c = 0 := by
  rw [← Nat.mod_eq_of_lt (Nat.and_lt_two_pow w hc), Nat.and_mod_two_pow, hw, Nat.zero_and]

/-- A multiple of `2 ^ n` of `n + j` bits, with flags below `2 ^ n` or-ed in and masked by the
bits from `n` up, comes back. -/
theorem or_and_high (hw : w < 2 ^ (n + j)) (hw0 : w % 2 ^ n = 0) (hf : f < 2 ^ n)
    (hm : m / 2 ^ n = 2 ^ j - 1) (hm0 : m % 2 ^ n = 0) : (w ||| f) &&& m = w := by
  have hf' : f < 2 ^ (n + j) := lt_of_lt_of_le hf (Nat.pow_le_pow_right (by omega) (by omega))
  rw [and_high (Nat.or_lt_two_pow hw hf') hm hm0, or_low_div w hf]
  exact Nat.div_mul_cancel (Nat.dvd_of_mod_eq_zero hw0)

theorem or_and32 (x y z : UInt32) : (x ||| y) &&& z = (x &&& z) ||| (y &&& z) :=
  UInt32.toNat_inj.mp (by simp only [UInt32.toNat_and, UInt32.toNat_or, Nat.and_or_distrib_right])

theorem or_flag_and (x : UInt32) {f c : UInt32} (h : f &&& c = 0) : (x ||| f) &&& c = x &&& c := by
  rw [or_and32, h, UInt32.or_zero]

theorem clear_flag_and (x : UInt32) {f c : UInt32} (h : ~~~f &&& c = c) :
    (x &&& ~~~f) &&& c = x &&& c := by
  rw [UInt32.and_assoc, h]

end Pintos.Lib.Bits
