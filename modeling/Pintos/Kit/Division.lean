import Mathlib.Tactic.Ring
import Mathlib.Tactic.Positivity

/-! Long division with a short divisor instruction: the quotient of a two-digit number taken digit
by digit, the estimate of a quotient from a divisor cut to its leading digits, and the one-step
correction that makes the estimate exact. -/
namespace Pintos.Kit

section Digits
variable {b x y d : Nat}

/-- Schoolbook division of the digits `x`, `y` in base `b`: the quotient of the remainder of
the high digit carried into the low one, plus `b` times the high digit's quotient. -/
theorem div_digits (hd : 0 < d) :
    (b * x + y) / d = (b * (x % d) + y) / d + b * (x / d) := by
  have hx : x = x % d + d * (x / d) := (Nat.mod_add_div x d).symm
  calc (b * x + y) / d = (b * (x % d) + y + d * (b * (x / d))) / d := by
        congr 1
        conv_lhs => rw [hx]
        ring
    _ = _ := Nat.add_mul_div_left _ _ hd

theorem div_digits_lt (hd : 0 < d) (hy : y < b) : (b * (x % d) + y) / d < b := by
  rw [Nat.div_lt_iff_lt_mul hd]
  have hr : x % d + 1 ≤ d := Nat.mod_lt x hd
  calc b * (x % d) + y < b * (x % d) + b := by omega
    _ = b * (x % d + 1) := by ring
    _ ≤ b * d := Nat.mul_le_mul_left b hr

end Digits

section Estimate
variable {n d t k : Nat}

/-- Cutting `d` to its multiple `2 * k * t` of `2 * k`, with `t = d / (2 * k)`, leaves the
remainder of `d` by `2 * k`. -/
theorem cut_add_mod (ht : t = d / (2 * k)) : 2 * k * t + d % (2 * k) = d := by
  rw [ht]
  exact Nat.div_add_mod d (2 * k)

/-- Halving the dividend, dividing by the cut divisor `t` and shifting by `k` is division by
`2 * k * t`. -/
theorem estimate_eq : n / 2 / t / k = n / (2 * k * t) := by
  rw [Nat.div_div_eq_div_mul, Nat.div_div_eq_div_mul]
  congr 1
  ring

theorem div_le_estimate (ht : t = d / (2 * k)) (hk : 0 < k) (ht0 : 0 < t) :
    n / d ≤ n / 2 / t / k := by
  rw [estimate_eq]
  apply Nat.div_le_div_left _ (by positivity)
  have := cut_add_mod ht
  omega

/-- The estimate is at most one too large when the part of `d` the cut drops, counted once for
each unit of the quotient and one more, stays within the cut divisor. -/
theorem estimate_le_succ (ht : t = d / (2 * k)) (hk : 0 < k) (ht0 : 0 < t)
    (hdrop : (n / d + 1) * (d % (2 * k)) ≤ 2 * k * t) :
    n / 2 / t / k ≤ n / d + 1 := by
  have hcut := cut_add_mod ht
  have hd : 0 < d := by
    have : 0 < 2 * k * t := by positivity
    omega
  rw [estimate_eq, Nat.le_iff_lt_add_one, Nat.div_lt_iff_lt_mul (by positivity)]
  calc n < (n / d + 1) * d := by rw [Nat.mul_comm]; exact Nat.lt_mul_div_succ n hd
    _ = (n / d + 1) * (2 * k * t + d % (2 * k)) := by rw [hcut]
    _ = (n / d + 1) * (2 * k * t) + (n / d + 1) * (d % (2 * k)) := Nat.mul_add _ _ _
    _ ≤ (n / d + 1) * (2 * k * t) + 2 * k * t := Nat.add_le_add_left hdrop _
    _ = (n / d + 1 + 1) * (2 * k * t) := by ring

/-- One correction step makes an estimate that is the quotient or one more exact: it steps
back where the remainder of one quotient less would already be below `d`. -/
theorem correct_estimate {q : Nat} (hd : 0 < d) (hlo : n / d ≤ q) (hhi : q ≤ n / d + 1)
    (hq : 0 < q) : (if n - (q - 1) * d < d then q - 1 else q) = n / d := by
  have hdiv := Nat.div_add_mod n d
  have hmod := Nat.mod_lt n hd
  rcases Nat.eq_or_lt_of_le hhi with hsucc | hle
  · -- one too large: one quotient less leaves the true remainder
    have hback : (q - 1) * d = d * (n / d) := by rw [hsucc, Nat.add_sub_cancel, Nat.mul_comm]
    rw [if_pos (by omega)]
    omega
  · -- exact: one quotient less leaves a remainder of at least `d`
    have hq' : q = n / d := by omega
    have hback : (q - 1) * d + d = d * (n / d) := by
      rw [← Nat.succ_mul, Nat.succ_eq_add_one, Nat.sub_add_cancel hq, hq', Nat.mul_comm]
    rw [if_neg (by omega), hq']

end Estimate

/-- Division truncated toward zero is the quotient of the absolute values, negated where exactly
one of the operands is negative. -/
theorem tdiv_eq_natAbs (a b : Int) : a.tdiv b =
    if decide (a < 0) = decide (b < 0) then ((a.natAbs / b.natAbs : Nat) : Int)
    else -((a.natAbs / b.natAbs : Nat) : Int) := by
  have hnat (m : Nat) : ¬ (m : Int) < 0 := Int.not_lt.mpr (Int.natCast_nonneg m)
  cases a <;> cases b <;> simp [Int.tdiv, Int.negSucc_lt_zero, hnat]

end Pintos.Kit
