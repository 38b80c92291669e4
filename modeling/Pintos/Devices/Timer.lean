import Mathlib.Data.Nat.Log
import Mathlib.Algebra.Group.Nat.Defs

/-! The calibration of devices/timer.c. `timer_calibrate` finds the largest power of two of
`busy_wait` loops that still fits in a timer tick, then tests the nine bits below it. Each test
adds its bit to the high bit alone, not to the value found so far, so on a machine where
`too_many_loops` holds exactly above some count `L`, the result has every tested bit set from
the lowest up to the top bit of what `L` has past its high bit: it overshoots `L` unless those
bits of `L` are all set. -/
namespace Pintos.Devices

/-- The first loop of `timer_calibrate`: double `loops_per_tick` while twice as many loops still
fit in a tick. `none` where `ASSERT (loops_per_tick != 0)` fails, the doubling having wrapped;
the 22 doublings from `1 << 10` to the wrap bound the loop. -/
def raiseLoops (tooManyLoops : UInt32 → Bool) : Nat → UInt32 → Option UInt32
  | 0, _ => none
  | fuel + 1, loopsPerTick =>
    if tooManyLoops (loopsPerTick <<< 1) then some loopsPerTick
    else if loopsPerTick <<< 1 = 0 then none
    else raiseLoops tooManyLoops fuel (loopsPerTick <<< 1)

/-- The second loop of `timer_calibrate`, from `test_bit` down to `high_bit >> 10`: the bit
joins `loops_per_tick` when `high_bit | test_bit` loops fit in a tick. -/
def refineLoops (tooManyLoops : UInt32 → Bool) (highBit : UInt32) :
    Nat → UInt32 → UInt32 → UInt32
  | 0, _, loopsPerTick => loopsPerTick
  | fuel + 1, testBit, loopsPerTick =>
    if testBit = highBit >>> 10 then loopsPerTick
    else
      refineLoops tooManyLoops highBit fuel (testBit >>> 1)
        (if !tooManyLoops (highBit ||| testBit) then loopsPerTick ||| testBit else loopsPerTick)

/-- `timer_calibrate` on a machine whose `too_many_loops` is `tooManyLoops`: the
`loops_per_tick` it sets. -/
def timerCalibrate (tooManyLoops : UInt32 → Bool) : Option UInt32 :=
  (raiseLoops tooManyLoops 22 ((1 : UInt32) <<< 10)).map fun highBit =>
    refineLoops tooManyLoops highBit 10 (highBit >>> 1) highBit

/-! ### On a machine where `L` loops fit in a tick -/

/-- What the refinement adds, from the test bit `2 ^ (b + n)` down to `2 ^ (b + 1)`: each one
no larger than `r`, what `L` has past the high bit. -/
def testedBits (r b : Nat) : Nat → Nat
  | 0 => 0
  | n + 1 => (if 2 ^ (b + n + 1) ≤ r then 2 ^ (b + n + 1) else 0) + testedBits r b n

theorem testedBits_of_le {r b n : Nat} (h : 2 ^ (b + n) ≤ r) :
    testedBits r b n = 2 ^ (b + n + 1) - 2 ^ (b + 1) := by
  induction n with
  | zero => simp [testedBits]
  | succ n ih =>
    have hle : 2 ^ (b + n) ≤ 2 ^ (b + (n + 1)) := Nat.pow_le_pow_right (by decide) (by omega)
    rw [testedBits, if_pos (by rwa [Nat.add_assoc]), ih (hle.trans h)]
    have h1 : 2 ^ (b + 1) ≤ 2 ^ (b + n + 1) := Nat.pow_le_pow_right (by decide) (by omega)
    have h2 : 2 ^ (b + (n + 1) + 1) = 2 ^ (b + n + 1) + 2 ^ (b + n + 1) := by
      rw [show b + (n + 1) + 1 = b + n + 1 + 1 by omega, Nat.pow_succ]
      omega
    rw [h2]
    omega

theorem testedBits_eq {r b n : Nat} (h : r < 2 ^ (b + n + 1)) :
    testedBits r b n =
      if 2 ^ (b + 1) ≤ r then 2 ^ (Nat.log 2 r + 1) - 2 ^ (b + 1) else 0 := by
  induction n with
  | zero =>
    rw [Nat.add_zero] at h
    simp [testedBits, Nat.not_le.mpr h]
  | succ n ih =>
    by_cases htop : 2 ^ (b + n + 1) ≤ r
    · -- the top test bit fits, so it is the top bit of `r`, and every lower one fits
      have hlog : Nat.log 2 r = b + n + 1 :=
        Nat.log_eq_of_pow_le_of_lt_pow htop (by rwa [show b + (n + 1) + 1 = b + n + 1 + 1 by omega] at h)
      have hlow : 2 ^ (b + 1) ≤ r := (Nat.pow_le_pow_right (by decide) (by omega)).trans htop
      rw [testedBits, if_pos (by rwa [Nat.add_assoc] at htop), testedBits_of_le
        ((Nat.pow_le_pow_right (by decide) (by omega)).trans htop), if_pos hlow, hlog]
      have h1 : 2 ^ (b + 1) ≤ 2 ^ (b + n + 1) := Nat.pow_le_pow_right (by decide) (by omega)
      have h2 : 2 ^ (b + n + 1 + 1) = 2 ^ (b + n + 1) + 2 ^ (b + n + 1) := by
        rw [Nat.pow_succ]
        omega
      rw [h2]
      generalize 2 ^ (b + n + 1) = P at h1 ⊢
      omega
    · rw [testedBits, if_neg (by rwa [Nat.add_assoc] at htop), Nat.zero_add]
      exact ih (Nat.not_le.mp htop)

theorem or_two_pow_of_dvd {a i : Nat} (h : 2 ^ (i + 1) ∣ a) : a ||| 2 ^ i = a + 2 ^ i := by
  obtain ⟨c, rfl⟩ := h
  exact (Nat.two_pow_add_eq_or_of_lt (Nat.pow_lt_pow_right (by decide) (Nat.lt_succ_self i)) c).symm

section Threshold
variable {L k : Nat} {tooManyLoops : UInt32 → Bool}
  (hf : ∀ loops, tooManyLoops loops = decide (L < loops.toNat))
include hf

theorem raiseLoops_eq (hk : 2 ^ k ≤ L) (hL : L < 2 ^ (k + 1)) (hk31 : k < 31) :
    ∀ (fuel j : Nat) (x : UInt32), x.toNat = 2 ^ j → j ≤ k → k - j < fuel →
      ∃ y, raiseLoops tooManyLoops fuel x = some y ∧ y.toNat = 2 ^ k := by
  intro fuel
  induction fuel with
  | zero => exact fun _ _ _ _ h => absurd h (Nat.not_lt_zero _)
  | succ fuel ih =>
    intro j x hx hj hfuel
    have hshift : (x <<< 1).toNat = 2 ^ (j + 1) := by
      rw [UInt32.toNat_shiftLeft, hx, UInt32.toNat_one, Nat.shiftLeft_eq, ← Nat.pow_succ]
      exact Nat.mod_eq_of_lt (Nat.pow_lt_pow_right (by decide) (by omega))
    rw [raiseLoops]
    by_cases hjk : j = k
    · -- twice the high bit is too many loops
      subst hjk
      rw [if_pos (by rw [hf, hshift]; exact decide_eq_true hL)]
      exact ⟨x, rfl, hx⟩
    · have hle : 2 ^ (j + 1) ≤ L := (Nat.pow_le_pow_right (by decide) (by omega)).trans hk
      have hne : x <<< 1 ≠ 0 := fun h0 => by
        have h := congrArg UInt32.toNat h0
        rw [hshift, UInt32.toNat_zero] at h
        exact absurd h (Nat.two_pow_pos _).ne'
      rw [if_neg (by rw [hf, hshift]; simpa using hle), if_neg hne]
      exact ih (j + 1) (x <<< 1) hshift (by omega) (by omega)

/-- The second loop adds, from the test bit `2 ^ (b + n)` down, each bit that fits below what
`L` has past the high bit `2 ^ k`, whatever it has added before. -/
theorem refineLoops_eq {b : Nat} (hkb : k = b + 10) {high : UInt32}
    (hhigh : high.toNat = 2 ^ k) :
    ∀ (n : Nat) (test acc : UInt32), n ≤ 9 → test.toNat = 2 ^ (b + n) →
      2 ^ (b + n + 1) ∣ acc.toNat →
      (refineLoops tooManyLoops high (n + 1) test acc).toNat =
        acc.toNat + testedBits (L - 2 ^ k) b n := by
  have hstop : (high >>> 10).toNat = 2 ^ b := by
    rw [UInt32.toNat_shiftRight, hhigh, hkb, show (10 : UInt32).toNat % 32 = 10 from rfl,
      Nat.shiftRight_eq_div_pow, Nat.pow_add, Nat.mul_div_cancel _ (Nat.two_pow_pos 10)]
  intro n
  induction n with
  | zero =>
    intro test acc _ htest _
    have he : test = high >>> 10 := UInt32.toNat_inj.mp (by rw [htest, hstop, Nat.add_zero])
    rw [refineLoops, if_pos he, testedBits, Nat.add_zero]
  | succ n ih =>
    intro test acc hn htest hacc
    have hne : test ≠ high >>> 10 := fun e => by
      have h := congrArg UInt32.toNat e
      rw [htest, hstop] at h
      exact absurd (Nat.pow_right_injective (le_refl 2) h) (by omega)
    have hor : (high ||| test).toNat = 2 ^ k + 2 ^ (b + n + 1) := by
      rw [UInt32.toNat_or, hhigh, htest, ← Nat.add_assoc]
      exact or_two_pow_of_dvd (Nat.pow_dvd_pow 2 (by omega))
    have hshift : (test >>> 1).toNat = 2 ^ (b + n) := by
      rw [UInt32.toNat_shiftRight, htest, show (1 : UInt32).toNat % 32 = 1 from rfl,
        Nat.shiftRight_eq_div_pow, ← Nat.add_assoc, Nat.pow_succ, Nat.mul_div_cancel _ (by decide)]
    have hacc' : 2 ^ (b + n + 1) ∣ acc.toNat :=
      Nat.dvd_trans (Nat.pow_dvd_pow 2 (by omega)) hacc
    rw [refineLoops, if_neg hne]
    by_cases hb : 2 ^ (b + n + 1) ≤ L - 2 ^ k
    · -- `high_bit | test_bit` loops fit: the bit joins, above every bit still to test
      have hfit : (!tooManyLoops (high ||| test)) = true := by
        rw [hf, hor]
        simp only [Bool.not_eq_true', decide_eq_false_iff_not, Nat.not_lt]
        omega
      have hjoin : (acc ||| test).toNat = acc.toNat + 2 ^ (b + n + 1) := by
        rw [UInt32.toNat_or, htest, ← Nat.add_assoc]
        exact or_two_pow_of_dvd (by rwa [Nat.add_assoc] at hacc)
      rw [if_pos hfit, ih (test >>> 1) _ (by omega) hshift
        (by rw [hjoin]; exact Nat.dvd_add hacc' (Nat.dvd_refl _)), hjoin, testedBits,
        if_pos (by rwa [Nat.add_assoc] at hb), ← Nat.add_assoc]
    · have hfit : (!tooManyLoops (high ||| test)) = false := by
        rw [hf, hor]
        simp only [Bool.not_eq_false', decide_eq_true_eq]
        omega
      rw [if_neg (by rw [hfit]; decide), ih (test >>> 1) _ (by omega) hshift hacc', testedBits,
        if_neg (by rwa [Nat.add_assoc] at hb), Nat.zero_add]

end Threshold

/-- On a machine where `L` loops fit in a timer tick and `L + 1` do not, with `L` from `2 ^ 10`
below `2 ^ 31`, `timer_calibrate` sets `loops_per_tick` to the high bit `2 ^ k` of `L` and
every test bit from `2 ^ (k - 9)` up to the top bit of `L - 2 ^ k`, none when that is below
the lowest test bit: the bits under the top one are set whether `L` has them or not. -/
theorem timer_calibrate_fills_test_bits (L : Nat) (hlo : 2 ^ 10 ≤ L) (hhi : L < 2 ^ 31)
    (tooManyLoops : UInt32 → Bool) (hf : ∀ loops, tooManyLoops loops = decide (L < loops.toNat)) :
    ∃ loopsPerTick, timerCalibrate tooManyLoops = some loopsPerTick ∧
      loopsPerTick.toNat = 2 ^ Nat.log 2 L +
        if 2 ^ (Nat.log 2 L - 9) ≤ L - 2 ^ Nat.log 2 L then
          2 ^ (Nat.log 2 (L - 2 ^ Nat.log 2 L) + 1) - 2 ^ (Nat.log 2 L - 9)
        else 0 := by
  have hkL : 2 ^ Nat.log 2 L ≤ L := Nat.pow_log_le_self 2 (by omega)
  have hLk : L < 2 ^ (Nat.log 2 L + 1) := Nat.lt_pow_succ_log_self (by decide) L
  have hk10 : 10 ≤ Nat.log 2 L := Nat.le_log_of_pow_le (by decide) hlo
  have hk31 : Nat.log 2 L < 31 := Nat.log_lt_of_lt_pow (by omega) hhi
  generalize hk : Nat.log 2 L = k at hkL hLk hk10 hk31 ⊢
  obtain ⟨b, hkb⟩ : ∃ b, k = b + 10 := ⟨k - 10, by omega⟩
  obtain ⟨high, hraise, hhigh⟩ :=
    raiseLoops_eq hf hkL hLk hk31 22 10 ((1 : UInt32) <<< 10) (by decide) hk10 (by omega)
  refine ⟨_, by rw [timerCalibrate, hraise, Option.map_some], ?_⟩
  have htest : (high >>> 1).toNat = 2 ^ (b + 9) := by
    rw [UInt32.toNat_shiftRight, hhigh, hkb, show (1 : UInt32).toNat % 32 = 1 from rfl,
      Nat.shiftRight_eq_div_pow, show b + 10 = b + 9 + 1 from rfl, Nat.pow_succ,
      Nat.mul_div_cancel _ (by decide)]
  have hrest : L - 2 ^ k < 2 ^ (b + 9 + 1) := by
    have h2 : 2 ^ (k + 1) = 2 ^ k + 2 ^ k := by
      rw [Nat.pow_succ]
      omega
    rw [show b + 9 + 1 = k by omega]
    omega
  rw [refineLoops_eq hf hkb hhigh 9 (high >>> 1) high (by decide) htest
    ⟨1, by rw [hhigh, hkb, Nat.mul_one]⟩, hhigh, testedBits_eq hrest, show b + 1 = k - 9 by omega]

/-- Where 1792 loops fit in a tick, `loops_per_tick` comes out as 2046: the test bits 512 down
to 2 all join, though only 512 and 256 of them are in 1792. -/
theorem timer_calibrate_fills_test_bits_sample :
    timerCalibrate (fun loops => decide (1792 < loops.toNat)) = some 2046 := by
  obtain ⟨loopsPerTick, h, hv⟩ :=
    timer_calibrate_fills_test_bits 1792 (by decide) (by decide) _ (fun _ => rfl)
  have h10 : Nat.log 2 1792 = 10 := Nat.log_eq_of_pow_le_of_lt_pow (by decide) (by decide)
  have h9 : Nat.log 2 (1792 - 2 ^ 10) = 9 := Nat.log_eq_of_pow_le_of_lt_pow (by decide) (by decide)
  rw [h10, h9] at hv
  rw [h, UInt32.toNat_inj.mp (hv.trans (by decide : _ = (2046 : UInt32).toNat))]

end Pintos.Devices
