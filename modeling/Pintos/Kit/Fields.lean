import Mathlib.Data.Nat.Bitwise
import Mathlib.Algebra.Group.Nat.Defs

/-! Words packed from fields. An encoder ors together pieces that sit at disjoint bit positions;
a reader takes `w` bits from bit `o` up. A field of an or is the or of the pieces' fields, and a
piece shifted to the field's position gives itself while one shifted past it, or lying below
it, gives nothing, so `simp` with these rules and `omega` for their bounds reads every field of
such a word back. -/
namespace Pintos.Kit

variable {a b v x o w k : Nat}

/-- The `w` bits of `x` from bit `o` up. -/
def field (x o w : Nat) : Nat := x / 2 ^ o % 2 ^ w

theorem testBit_field {i : Nat} : (field x o w).testBit i = (decide (i < w) && x.testBit (o + i)) := by
  rw [field, Nat.testBit_mod_two_pow, Nat.testBit_div_two_pow, Nat.add_comm]

theorem field_or (a b o w : Nat) : field (a ||| b) o w = field a o w ||| field b o w := by
  apply Nat.eq_of_testBit_eq
  intro i
  simp only [testBit_field, Nat.testBit_or, Bool.and_or_distrib_left]

theorem field_mul_two_pow_self (o : Nat) (hv : v < 2 ^ w) : field (v * 2 ^ o) o w = v := by
  rw [field, Nat.mul_div_cancel _ (Nat.two_pow_pos o), Nat.mod_eq_of_lt hv]

theorem field_mul_two_pow_of_le (v : Nat) (h : o + w ≤ k) : field (v * 2 ^ k) o w = 0 := by
  have hk : 2 ^ k = 2 ^ (k - o) * 2 ^ o := by
    rw [← Nat.pow_add]
    congr 1
    omega
  rw [field, hk, ← Nat.mul_assoc, Nat.mul_div_cancel _ (Nat.two_pow_pos o)]
  exact Nat.mod_eq_zero_of_dvd (Nat.dvd_mul_left_of_dvd (Nat.pow_dvd_pow 2 (by omega)) _)

theorem field_of_lt (w : Nat) (h : x < 2 ^ o) : field x o w = 0 := by
  rw [field, Nat.div_eq_of_lt h, Nat.zero_mod]

theorem field_zero_of_lt (h : x < 2 ^ w) : field x 0 w = x := by
  rw [field, Nat.pow_zero, Nat.div_one, Nat.mod_eq_of_lt h]

theorem or_eq_add (ha : a < 2 ^ k) (hb : 2 ^ k ∣ b) : a ||| b = a + b := by
  obtain ⟨c, rfl⟩ := hb
  rw [Nat.lor_comm, ← Nat.two_pow_add_eq_or_of_lt ha, Nat.add_comm]

theorem and_range_mask (x o w : Nat) : x &&& (2 ^ (o + w) - 2 ^ o) = x / 2 ^ o % 2 ^ w * 2 ^ o := by
  apply Nat.eq_of_testBit_eq
  intro i
  have hm : 2 ^ (o + w) - 2 ^ o = (2 ^ w - 1) <<< o := by
    rw [Nat.shiftLeft_eq, Nat.sub_mul, Nat.one_mul, ← Nat.pow_add, Nat.add_comm w]
  rw [hm, ← Nat.shiftLeft_eq, ← Nat.shiftRight_eq_div_pow, Nat.testBit_and, Nat.testBit_shiftLeft,
    Nat.testBit_shiftLeft, Nat.testBit_two_pow_sub_one, Nat.testBit_mod_two_pow, Nat.testBit_shiftRight]
  by_cases h : o ≤ i
  · rw [Nat.add_sub_cancel' h]
    simp [h, Bool.and_comm]
  · simp [h]

/-! ### Machine words -/

theorem toNat_shiftLeft_of_lt (x s : UInt32) (hs : s.toNat < 32) (hx : x.toNat * 2 ^ s.toNat < 2 ^ 32) :
    (x <<< s).toNat = x.toNat * 2 ^ s.toNat := by
  rw [UInt32.toNat_shiftLeft, Nat.shiftLeft_eq, Nat.mod_eq_of_lt hs, Nat.mod_eq_of_lt hx]

theorem toNat_toUInt32_of_lt (h : x < 2 ^ 32) : x.toUInt32.toNat = x := by
  rw [Nat.toUInt32, UInt32.toNat_ofNat', Nat.mod_eq_of_lt h]

theorem toNat_join (lo hi : UInt32) : (lo.toUInt64 ||| (hi.toUInt64 <<< 32)).toNat = lo.toNat + hi.toNat * 2 ^ 32 := by
  have hshift : (hi.toUInt64 <<< 32).toNat = hi.toNat * 2 ^ 32 := by
    rw [UInt64.toNat_shiftLeft, Nat.shiftLeft_eq, show (32 : UInt64).toNat % 64 = 32 from rfl,
      UInt32.toNat_toUInt64]
    have := hi.toNat_lt
    exact Nat.mod_eq_of_lt (by omega)
  rw [UInt64.toNat_or, hshift, UInt32.toNat_toUInt64, or_eq_add lo.toNat_lt (Nat.dvd_mul_left _ _)]

theorem join_low (lo hi : UInt32) : (lo.toUInt64 ||| (hi.toUInt64 <<< 32)).toNat % 2 ^ 32 = lo.toNat := by
  rw [toNat_join, Nat.add_mul_mod_self_right, Nat.mod_eq_of_lt lo.toNat_lt]

theorem join_high (lo hi : UInt32) : (lo.toUInt64 ||| (hi.toUInt64 <<< 32)).toNat / 2 ^ 32 = hi.toNat := by
  rw [toNat_join, Nat.add_mul_div_right _ _ (Nat.two_pow_pos 32), Nat.div_eq_of_lt lo.toNat_lt,
    Nat.zero_add]

/-! ### Single bits of a word -/

theorem toNat_one_shiftLeft {m : Nat} (h : m < 32) : ((1 : UInt32) <<< m.toUInt32).toNat = 2 ^ m := by
  have hm : m.toUInt32.toNat = m := toNat_toUInt32_of_lt (by omega)
  rw [UInt32.toNat_shiftLeft, hm, Nat.mod_eq_of_lt h, UInt32.toNat_one, Nat.one_shiftLeft,
    Nat.mod_eq_of_lt (Nat.pow_lt_pow_right (by decide) h)]

theorem testBit_toNat_not (w : UInt32) {m : Nat} (h : m < 32) :
    (~~~w).toNat.testBit m = !w.toNat.testBit m := by
  have e : ∀ x : UInt32, x.toNat.testBit m = x.toBitVec.getLsbD m := fun _ => rfl
  rw [e, e, UInt32.toBitVec_not, BitVec.getLsbD_not]
  simp [h]

end Pintos.Kit
