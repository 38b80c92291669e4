import Mathlib
import Pintos.Kit.Division

/-! The 64-bit division routines of lib/arithmetic.c, which GCC calls on 32-bit x86. `udiv64`
builds the quotient from `divl`, the DIVL instruction: by schoolbook division for a 32-bit
divisor, and by a normalised estimate with one correction for a larger one. The signed routines
divide the absolute values. Both remainders pass through a 32-bit return type. -/
namespace Pintos.Lib
open Pintos.Kit

/-- `divl`: DIVL of the 64-bit N by the 32-bit D. `none` is the divide error it traps with, where
D is zero or the quotient does not fit in 32 bits. -/
def divl (n : UInt64) (d : UInt32) : Option UInt32 :=
  if d = 0 ∨ 2 ^ 32 ≤ n.toNat / d.toNat then none else some (UInt32.ofNat (n.toNat / d.toNat))

/-- One test of `nlz`: where X is at most LIMIT its top K bits are zero, so they are counted and
shifted out. -/
def nlzStep (k : Nat) (limit : UInt32) (s : Nat × UInt32) : Nat × UInt32 :=
  if s.2 ≤ limit then (s.1 + k, s.2 <<< k.toUInt32) else s

/-- `nlz`: the number of leading zero bits of a nonzero X. -/
def nlz (x : UInt32) : Nat :=
  let s := nlzStep 16 0x0000FFFF (0, x)
  let s := nlzStep 8 0x00FFFFFF s
  let s := nlzStep 4 0x0FFFFFFF s
  let s := nlzStep 2 0x3FFFFFFF s
  if s.2 ≤ 0x7FFFFFFF then s.1 + 1 else s.1

/-- `udiv64`; `none` where a `divl` traps. -/
def udiv64 (n d : UInt64) : Option UInt64 :=
  if d >>> 32 = 0 then
    let b : UInt64 := (1 : UInt64) <<< 32
    let n1 : UInt32 := (n >>> 32).toUInt32
    let n0 : UInt32 := n.toUInt32
    let d0 : UInt32 := d.toUInt32
    (divl (b * (n1 % d0).toUInt64 + n0.toUInt64) d0).map fun q =>
      q.toUInt64 + b * (n1 / d0).toUInt64
  else if n < d then some 0
  else
    let d1 : UInt32 := (d >>> 32).toUInt32
    let s := nlz d1
    (divl (n >>> 1) ((d <<< s.toUInt64) >>> 32).toUInt32).map fun q =>
      let q : UInt64 := (q >>> (31 - s).toUInt32).toUInt64
      if n - (q - 1) * d < d then q - 1 else q

/-- `umod64`, whose result is a `uint32_t`. -/
def umod64 (n d : UInt64) : Option UInt32 :=
  (udiv64 n d).map fun q => (n - d * q).toUInt32

/-- `sdiv64`: the quotient of the absolute values, negated where the signs differ. -/
def sdiv64 (n d : Int64) : Option Int64 := do
  let nAbs : UInt64 := if n ≥ 0 then n.toUInt64 else -n.toUInt64
  let dAbs : UInt64 := if d ≥ 0 then d.toUInt64 else -d.toUInt64
  let qAbs ← udiv64 nAbs dAbs
  return if decide (n < 0) = decide (d < 0) then qAbs.toInt64 else -qAbs.toInt64

/-- `smod64`, whose result is an `int32_t`. -/
def smod64 (n d : Int64) : Option Int32 :=
  (sdiv64 n d).map fun q => (n - d * q).toInt32

/-- `__divdi3`. -/
def divdi3 (n d : Int64) : Option Int64 := sdiv64 n d

/-- `__moddi3`, widening the `int32_t` of `smod64` to `long long`. -/
def moddi3 (n d : Int64) : Option Int64 := (smod64 n d).map Int32.toInt64

/-- `__udivdi3`. -/
def udivdi3 (n d : UInt64) : Option UInt64 := udiv64 n d

/-- `__umoddi3`, widening the `uint32_t` of `umod64` to `unsigned long long`. -/
def umoddi3 (n d : UInt64) : Option UInt64 := (umod64 n d).map UInt32.toUInt64

/-! ### `divl` and `nlz` -/

theorem divl_eq {n : UInt64} {d : UInt32} (hd : 0 < d.toNat) (hq : n.toNat / d.toNat < 2 ^ 32) :
    divl n d = some (UInt32.ofNat (n.toNat / d.toNat)) := by
  rw [divl, if_neg]
  rintro (h | h)
  · rw [h] at hd
    exact absurd hd (by decide)
  · omega

section Nlz
variable {k x : Nat} {m : UInt32} {s : Nat × UInt32}

/-- A test of `nlz` for K bits keeps the word `x * 2 ^ n` and, from a word of at least
`32 - 2 * K` significant bits, leaves one of at least `32 - K`. -/
theorem nlzStep_spec (hk : k ≤ 16) (hm : m.toNat = 2 ^ (32 - k) - 1)
    (hs : s.2.toNat = x * 2 ^ s.1) (hlo : 2 ^ (32 - 2 * k) ≤ s.2.toNat) :
    (nlzStep k m s).2.toNat = x * 2 ^ (nlzStep k m s).1 ∧
      2 ^ (32 - k) ≤ (nlzStep k m s).2.toNat := by
  have hsplit : 2 ^ (32 - k) = 2 ^ (32 - 2 * k) * 2 ^ k := by
    rw [← Nat.pow_add]
    congr 1
    omega
  have h32 : 2 ^ 32 = 2 ^ (32 - k) * 2 ^ k := by
    rw [← Nat.pow_add]
    congr 1
    omega
  have hpos := Nat.two_pow_pos (32 - k)
  unfold nlzStep
  split
  · next hle =>
    rw [UInt32.le_iff_toNat_le, hm] at hle
    have hshift : (s.2 <<< k.toUInt32).toNat = s.2.toNat * 2 ^ k := by
      have hk32 : k.toUInt32.toNat % 32 = k := by
        rw [UInt32.toNat_ofNat']
        omega
      rw [UInt32.toNat_shiftLeft, hk32, Nat.shiftLeft_eq, Nat.mod_eq_of_lt]
      calc s.2.toNat * 2 ^ k < 2 ^ (32 - k) * 2 ^ k :=
            Nat.mul_lt_mul_of_pos_right (by omega) (Nat.two_pow_pos k)
        _ = 2 ^ 32 := h32.symm
    refine ⟨?_, ?_⟩
    · rw [hshift, hs, Nat.pow_add, Nat.mul_assoc]
    · rw [hshift, hsplit]
      exact Nat.mul_le_mul_right _ hlo
  · next hgt =>
    rw [UInt32.le_iff_toNat_le, hm] at hgt
    exact ⟨hs, by omega⟩

theorem nlz_spec {x : UInt32} (hx : x ≠ 0) :
    2 ^ 31 ≤ x.toNat * 2 ^ nlz x ∧ x.toNat * 2 ^ nlz x < 2 ^ 32 := by
  have hpos : 1 ≤ x.toNat := by
    rcases Nat.eq_zero_or_pos x.toNat with h | h
    · exact absurd (UInt32.toNat_inj.mp h) hx
    · exact h
  obtain ⟨e1, l1⟩ := nlzStep_spec (k := 16) (m := 0x0000FFFF) (s := (0, x)) (x := x.toNat)
    (by omega) rfl (by simp) (by simpa using hpos)
  obtain ⟨e2, l2⟩ := nlzStep_spec (k := 8) (m := 0x00FFFFFF) (by omega) rfl e1 l1
  obtain ⟨e3, l3⟩ := nlzStep_spec (k := 4) (m := 0x0FFFFFFF) (by omega) rfl e2 l2
  obtain ⟨e4, l4⟩ := nlzStep_spec (k := 2) (m := 0x3FFFFFFF) (by omega) rfl e3 l3
  unfold nlz
  dsimp only
  generalize nlzStep 2 0x3FFFFFFF (nlzStep 4 0x0FFFFFFF (nlzStep 8 0x00FFFFFF
    (nlzStep 16 0x0000FFFF (0, x)))) = s at e4 l4 ⊢
  have hlt := UInt32.toNat_lt s.2
  have hm : (0x7FFFFFFF : UInt32).toNat = 2 ^ 31 - 1 := rfl
  norm_num at l4
  split
  · -- one zero bit is left, counted without a shift
    next hle =>
    rw [UInt32.le_iff_toNat_le, hm] at hle
    have hlast : x.toNat * 2 ^ (s.1 + 1) = s.2.toNat * 2 := by
      rw [e4, Nat.pow_succ, Nat.mul_assoc]
    rw [hlast]
    omega
  · next hgt =>
    rw [UInt32.le_iff_toNat_le, hm] at hgt
    rw [← e4]
    omega

theorem nlz_lt {x : UInt32} (hx : x ≠ 0) : nlz x < 32 := by
  have hpos : 1 ≤ x.toNat := by
    rcases Nat.eq_zero_or_pos x.toNat with h | h
    · exact absurd (UInt32.toNat_inj.mp h) hx
    · exact h
  have hpow : 2 ^ nlz x < 2 ^ 32 :=
    lt_of_le_of_lt (Nat.le_mul_of_pos_left _ hpos) (nlz_spec hx).2
  exact (Nat.pow_lt_pow_iff_right (by decide)).mp hpow

end Nlz

/-! ### `udiv64` -/

/-- For a divisor of at least 33 bits cut to a `t` of 32 bits with its top bit set, the part of
the divisor the cut drops is small enough for the estimate to be at most one too large. -/
theorem drop_le_cut {n d t k : Nat} (hn : n < 2 ^ 64) (hd : 2 ^ 32 ≤ d) (ht : t = d / (2 * k))
    (hk : 0 < k) (ht31 : 2 ^ 31 ≤ t) : (n / d + 1) * (d % (2 * k)) ≤ 2 * k * t := by
  have hcut := cut_add_mod ht
  have hQ : n / d * d ≤ n := Nat.div_mul_le_self n d
  have hmod : d % (2 * k) < 2 * k := Nat.mod_lt _ (by omega)
  rcases Nat.lt_or_ge k 2 with hk1 | hk2
  · -- `k = 1`: the cut drops at most the last bit, and the quotient is below `2 ^ 32`
    obtain rfl : k = 1 := by omega
    have hQ32 : n / d < 2 ^ 32 := by
      apply Nat.div_lt_of_lt_mul
      calc n < 2 ^ 32 * 2 ^ 32 := by norm_num; exact hn
        _ ≤ d * 2 ^ 32 := Nat.mul_le_mul_right _ hd
    calc (n / d + 1) * (d % (2 * 1)) ≤ (n / d + 1) * 1 := Nat.mul_le_mul_left _ (by omega)
      _ ≤ 2 * 1 * t := by omega
  · -- `k ≥ 2`: the quotient is below `t`
    have hQt : n / d < t := by
      apply Nat.lt_of_mul_lt_mul_right (a := 2 * k * t)
      calc n / d * (2 * k * t) ≤ n / d * d := Nat.mul_le_mul_left _ (by omega)
        _ ≤ n := hQ
        _ < 2 ^ 31 * (2 * 2 * 2 ^ 31) := by norm_num; exact hn
        _ ≤ t * (2 * k * t) :=
          Nat.mul_le_mul ht31 (Nat.mul_le_mul (Nat.mul_le_mul_left 2 hk2) ht31)
    calc (n / d + 1) * (d % (2 * k)) ≤ t * (2 * k) := Nat.mul_le_mul hQt (le_of_lt hmod)
      _ = 2 * k * t := Nat.mul_comm _ _

section Udiv64
variable {n d : UInt64}

theorem toNat_shiftRight_32 (n : UInt64) : (n >>> 32).toNat = n.toNat / 2 ^ 32 := by
  rw [UInt64.toNat_shiftRight, Nat.shiftRight_eq_div_pow]
  rfl

theorem toNat_high (n : UInt64) : ((n >>> 32).toUInt32).toNat = n.toNat / 2 ^ 32 := by
  rw [UInt64.toNat_toUInt32, toNat_shiftRight_32, Nat.mod_eq_of_lt]
  apply Nat.div_lt_of_lt_mul
  exact UInt64.toNat_lt n

/-- The correction step of `udiv64` done in 64-bit words is the correction of the numbers, since
neither its product nor its difference wraps. -/
theorem correct_toNat {q : UInt64} (hq : 0 < q.toNat) (hle : (q.toNat - 1) * d.toNat ≤ n.toNat) :
    (if n - (q - 1) * d < d then q - 1 else q).toNat =
      if n.toNat - (q.toNat - 1) * d.toNat < d.toNat then q.toNat - 1 else q.toNat := by
  have h1 : (q - 1).toNat = q.toNat - 1 :=
    UInt64.toNat_sub_of_le _ _ (UInt64.le_iff_toNat_le.mpr hq)
  have h2 : ((q - 1) * d).toNat = (q.toNat - 1) * d.toNat := by
    rw [UInt64.toNat_mul, h1, Nat.mod_eq_of_lt (lt_of_le_of_lt hle (UInt64.toNat_lt n))]
  have h3 : (n - (q - 1) * d).toNat = n.toNat - (q.toNat - 1) * d.toNat := by
    rw [UInt64.toNat_sub_of_le _ _ (UInt64.le_iff_toNat_le.mpr (h2 ▸ hle)), h2]
  have hc : n - (q - 1) * d < d ↔ n.toNat - (q.toNat - 1) * d.toNat < d.toNat := by
    rw [UInt64.lt_iff_toNat_lt, h3]
  by_cases h : n.toNat - (q.toNat - 1) * d.toNat < d.toNat
  · rw [if_pos (hc.mpr h), if_pos h, h1]
  · rw [if_neg (mt hc.mp h), if_neg h]

/-- A divisor of 32 bits: two `divl`s, the high digit's and the carried one's, neither of which
traps, give the quotient. -/
theorem udiv64_of_lt (hd : 0 < d.toNat) (hsmall : d.toNat < 2 ^ 32) : udiv64 n d = some (n / d) := by
  have hn := UInt64.toNat_lt n
  have hz : d >>> 32 = 0 := by
    rw [← UInt64.toNat_inj, toNat_shiftRight_32, Nat.div_eq_of_lt hsmall]
    rfl
  have hd0 : d.toUInt32.toNat = d.toNat := by rw [UInt64.toNat_toUInt32, Nat.mod_eq_of_lt hsmall]
  have hb : ((1 : UInt64) <<< 32).toNat = 2 ^ 32 := rfl
  have hr : n.toNat / 2 ^ 32 % d.toNat < d.toNat := Nat.mod_lt _ hd
  have hcarry := div_digits_lt (b := 2 ^ 32) (x := n.toNat / 2 ^ 32) hd
    (Nat.mod_lt n.toNat (by norm_num : 0 < 2 ^ 32))
  have harg : ((1 : UInt64) <<< 32 * ((n >>> 32).toUInt32 % d.toUInt32).toUInt64 +
      n.toUInt32.toUInt64).toNat = 2 ^ 32 * (n.toNat / 2 ^ 32 % d.toNat) + n.toNat % 2 ^ 32 := by
    rw [UInt64.toNat_add, UInt64.toNat_mul, hb, UInt32.toNat_toUInt64, UInt32.toNat_mod,
      toNat_high, hd0, UInt32.toNat_toUInt64, UInt64.toNat_toUInt32]
    omega
  have hsum : (2 ^ 32 * (n.toNat / 2 ^ 32 % d.toNat) + n.toNat % 2 ^ 32) / d.toNat +
      2 ^ 32 * (n.toNat / 2 ^ 32 / d.toNat) = n.toNat / d.toNat := by
    rw [← div_digits hd, Nat.div_add_mod]
  have hle : n.toNat / d.toNat ≤ n.toNat := Nat.div_le_self _ _
  rw [udiv64, if_pos hz]
  dsimp only
  rw [divl_eq (by rwa [hd0]) (by rw [harg, hd0]; exact hcarry), Option.map_some]
  congr 1
  apply UInt64.toNat_inj.mp
  rw [UInt64.toNat_add, UInt32.toNat_toUInt64, UInt32.toNat_ofNat', harg, hd0, UInt64.toNat_mul,
    hb, UInt32.toNat_toUInt64, UInt32.toNat_div, toNat_high, hd0, UInt64.toNat_div]
  generalize (2 ^ 32 * (n.toNat / 2 ^ 32 % d.toNat) + n.toNat % 2 ^ 32) / d.toNat = low
    at hcarry hsum ⊢
  generalize n.toNat / 2 ^ 32 / d.toNat = high at hsum ⊢
  omega

/-- The normalised divisor: shifted left by the leading zeros `s` of its high word, a divisor of
more than 32 bits still fits in 64 bits, and its high word is `d / 2 ^ (32 - s)`, with its top
bit set. -/
theorem normalise_spec {s : Nat} (hs : s < 32)
    (hlo : 2 ^ 31 ≤ d.toNat / 2 ^ 32 * 2 ^ s) (hhi : d.toNat / 2 ^ 32 * 2 ^ s < 2 ^ 32) :
    ((d <<< s.toUInt64 >>> 32).toUInt32).toNat = d.toNat / (2 * 2 ^ (31 - s)) ∧
      2 ^ 31 ≤ d.toNat / (2 * 2 ^ (31 - s)) := by
  have hdlt := UInt64.toNat_lt d
  have h32 : 2 ^ 32 = 2 * 2 ^ (31 - s) * 2 ^ s := by
    rw [← Nat.pow_succ', ← Nat.pow_add]
    congr 1
    omega
  have hroom : (d.toNat / 2 ^ 32 + 1) * 2 ^ s ≤ 2 ^ 32 := by
    rw [h32]
    apply Nat.mul_le_mul_right
    apply Nat.lt_of_mul_lt_mul_right (a := 2 ^ s)
    rw [← h32]
    exact hhi
  have hfit : d.toNat * 2 ^ s < 2 ^ 64 := by
    have hd1 : d.toNat < (d.toNat / 2 ^ 32 + 1) * 2 ^ 32 := Nat.lt_mul_div_succ _ (by norm_num) |>.trans_eq (Nat.mul_comm _ _)
    calc d.toNat * 2 ^ s < (d.toNat / 2 ^ 32 + 1) * 2 ^ 32 * 2 ^ s :=
          Nat.mul_lt_mul_of_pos_right hd1 (Nat.two_pow_pos s)
      _ = (d.toNat / 2 ^ 32 + 1) * 2 ^ s * 2 ^ 32 := Nat.mul_right_comm _ _ _
      _ ≤ 2 ^ 32 * 2 ^ 32 := Nat.mul_le_mul_right _ hroom
      _ = 2 ^ 64 := by norm_num
  have hshl : (d <<< s.toUInt64).toNat = d.toNat * 2 ^ s := by
    have hs64 : s.toUInt64.toNat % 64 = s := by
      rw [UInt64.toNat_ofNat']
      omega
    rw [UInt64.toNat_shiftLeft, hs64, Nat.shiftLeft_eq, Nat.mod_eq_of_lt hfit]
  have hcut : d.toNat * 2 ^ s / 2 ^ 32 = d.toNat / (2 * 2 ^ (31 - s)) := by
    rw [h32]
    exact Nat.mul_div_mul_right _ _ (Nat.two_pow_pos s)
  refine ⟨by rw [toNat_high, hshl, hcut], ?_⟩
  rw [← hcut, Nat.le_div_iff_mul_le (by norm_num)]
  calc 2 ^ 31 * 2 ^ 32 ≤ d.toNat / 2 ^ 32 * 2 ^ s * 2 ^ 32 := Nat.mul_le_mul_right _ hlo
    _ = d.toNat / 2 ^ 32 * 2 ^ 32 * 2 ^ s := Nat.mul_right_comm _ _ _
    _ ≤ d.toNat * 2 ^ s := Nat.mul_le_mul_right _ (Nat.div_mul_le_self _ _)

/-- A divisor of more than 32 bits: the `divl` of the halved dividend by the normalised high word
does not trap, its estimate shifted back is the quotient or one more, and the correction step
makes it the quotient. -/
theorem udiv64_of_ge (hlarge : 2 ^ 32 ≤ d.toNat) : udiv64 n d = some (n / d) := by
  have hn := UInt64.toNat_lt n
  have hz : ¬ d >>> 32 = 0 := by
    intro h
    have h' := congrArg UInt64.toNat h
    rw [toNat_shiftRight_32] at h'
    have : 1 ≤ d.toNat / 2 ^ 32 := (Nat.le_div_iff_mul_le (by norm_num)).mpr (by omega)
    simp only [UInt64.toNat_zero] at h'
    omega
  rw [udiv64, if_neg hz]
  by_cases hnd : n < d
  · rw [if_pos hnd]
    congr 1
    apply UInt64.toNat_inj.mp
    rw [UInt64.toNat_div, Nat.div_eq_of_lt (UInt64.lt_iff_toNat_lt.mp hnd)]
    rfl
  rw [if_neg hnd]
  have hnd' : d.toNat ≤ n.toNat := by
    rw [UInt64.lt_iff_toNat_lt] at hnd
    omega
  dsimp only
  have hd1 : (d >>> 32).toUInt32 ≠ 0 := by
    intro h
    have h' := congrArg UInt32.toNat h
    rw [toNat_high] at h'
    have : 1 ≤ d.toNat / 2 ^ 32 := (Nat.le_div_iff_mul_le (by norm_num)).mpr (by omega)
    simp only [UInt32.toNat_zero] at h'
    omega
  obtain ⟨hlo, hhi⟩ := nlz_spec hd1
  have hs := nlz_lt hd1
  rw [toNat_high] at hlo hhi
  generalize nlz ((d >>> 32).toUInt32) = s at hlo hhi hs ⊢
  obtain ⟨ht, ht31⟩ := normalise_spec hs hlo hhi
  have hhalf : (n >>> 1).toNat = n.toNat / 2 := by
    rw [UInt64.toNat_shiftRight, Nat.shiftRight_eq_div_pow]
    rfl
  have hdivl : n.toNat / 2 / (d.toNat / (2 * 2 ^ (31 - s))) < 2 ^ 32 := by
    rw [Nat.div_lt_iff_lt_mul (by omega)]
    calc n.toNat / 2 < 2 ^ 32 * 2 ^ 31 := by omega
      _ ≤ 2 ^ 32 * (d.toNat / (2 * 2 ^ (31 - s))) := Nat.mul_le_mul_left _ ht31
  rw [divl_eq (by omega) (by rw [hhalf, ht]; exact hdivl), Option.map_some]
  congr 1
  generalize hq : (UInt32.ofNat ((n >>> 1).toNat / ((d <<< s.toUInt64 >>> 32).toUInt32).toNat) >>>
    (31 - s).toUInt32).toUInt64 = q
  have hqv : q.toNat = n.toNat / 2 / (d.toNat / (2 * 2 ^ (31 - s))) / 2 ^ (31 - s) := by
    have hsh : (31 - s).toUInt32.toNat % 32 = 31 - s := by
      rw [UInt32.toNat_ofNat']
      omega
    rw [← hq, UInt32.toNat_toUInt64, UInt32.toNat_shiftRight, UInt32.toNat_ofNat', hhalf, ht,
      Nat.mod_eq_of_lt hdivl, hsh, Nat.shiftRight_eq_div_pow]
  have hk : 0 < 2 ^ (31 - s) := Nat.two_pow_pos _
  have hlow := div_le_estimate (n := n.toNat) (d := d.toNat) rfl hk (by omega)
  have hhigh := estimate_le_succ (n := n.toNat) (d := d.toNat) rfl hk (by omega)
    (drop_le_cut hn hlarge rfl hk ht31)
  rw [← hqv] at hlow hhigh
  have hQ : 0 < n.toNat / d.toNat := Nat.div_pos hnd' (by omega)
  apply UInt64.toNat_inj.mp
  rw [correct_toNat (by omega), UInt64.toNat_div]
  · exact correct_estimate (by omega) hlow hhigh (by omega)
  · -- one quotient less of the divisor is within the dividend
    calc (q.toNat - 1) * d.toNat ≤ n.toNat / d.toNat * d.toNat := Nat.mul_le_mul_right _ (by omega)
      _ ≤ n.toNat := Nat.div_mul_le_self _ _

theorem udiv64_eq (hd : d ≠ 0) : udiv64 n d = some (n / d) := by
  have hpos : 0 < d.toNat := by
    rcases Nat.eq_zero_or_pos d.toNat with h | h
    · exact absurd (UInt64.toNat_inj.mp h) hd
    · exact h
  rcases Nat.lt_or_ge d.toNat (2 ^ 32) with hsmall | hlarge
  · exact udiv64_of_lt hpos hsmall
  · exact udiv64_of_ge hlarge

theorem udivdi3_eq (hd : d ≠ 0) : udivdi3 n d = some (n / d) := udiv64_eq hd

theorem umod64_eq (hd : d ≠ 0) : umod64 n d = some (n % d).toUInt32 := by
  have hmul : (d * (n / d)).toNat = d.toNat * (n.toNat / d.toNat) := by
    rw [UInt64.toNat_mul, UInt64.toNat_div, Nat.mod_eq_of_lt]
    exact lt_of_le_of_lt (Nat.mul_div_le _ _) (UInt64.toNat_lt n)
  have hrem : n - d * (n / d) = n % d := by
    apply UInt64.toNat_inj.mp
    rw [UInt64.toNat_sub_of_le _ _ (UInt64.le_iff_toNat_le.mpr (hmul ▸ Nat.mul_div_le _ _)), hmul,
      UInt64.toNat_mod, Nat.mod_eq_sub_mul_div]
  rw [umod64, udiv64_eq hd, Option.map_some, hrem]

theorem umoddi3_eq (hd : d ≠ 0) : umoddi3 n d = some (n % d).toUInt32.toUInt64 := by
  rw [umoddi3, umod64_eq hd, Option.map_some]

end Udiv64

/-! ### The signed routines -/

section Signed
variable {n d : Int64}

theorem toInt_eq_bits (n : Int64) : n.toInt =
    if 2 * n.toUInt64.toNat < 2 ^ 64 then (n.toUInt64.toNat : Int)
    else n.toUInt64.toNat - 2 ^ 64 := by
  show n.toBitVec.toInt = _
  rw [BitVec.toInt_eq_toNat_cond]
  rfl

theorem toInt_toInt64 (q : UInt64) : q.toInt64.toInt = (q.toNat : Int).bmod (2 ^ 64) := by
  show q.toInt64.toBitVec.toInt = _
  rw [UInt64.toBitVec_toInt64, BitVec.toInt_eq_toNat_bmod]
  rfl

theorem zero_le_iff (n : Int64) : n ≥ 0 ↔ 0 ≤ n.toInt := by
  rw [ge_iff_le, Int64.le_iff_toInt_le, Int64.toInt_zero]

theorem lt_zero_iff (n : Int64) : n < 0 ↔ n.toInt < 0 := by
  rw [Int64.lt_iff_toInt_lt, Int64.toInt_zero]

/-- The absolute value `sdiv64` divides: the word itself where it is nonnegative, its negation as
an unsigned word otherwise, which is right for `INT64_MIN` too. -/
theorem toNat_abs (n : Int64) :
    (if n ≥ 0 then n.toUInt64 else -n.toUInt64).toNat = n.toInt.natAbs := by
  have hb := toInt_eq_bits n
  have hu := UInt64.toNat_lt n.toUInt64
  by_cases hn : n ≥ 0
  · rw [if_pos hn]
    rw [zero_le_iff] at hn
    split at hb <;> omega
  · have hsize : UInt64.size = 2 ^ 64 := rfl
    rw [if_neg hn, UInt64.toNat_neg, hsize]
    rw [zero_le_iff] at hn
    split at hb <;> omega

/-- The quotient of the absolute values is below `2 ^ 63` where the signs agree, unless the
division is `INT64_MIN / -1`. -/
theorem natAbs_div_lt (hd : d.toInt ≠ 0) (hov : ¬ (n = Int64.minValue ∧ d = -1))
    (hsame : n.toInt < 0 ↔ d.toInt < 0) : n.toInt.natAbs / d.toInt.natAbs < 2 ^ 63 := by
  have hnlo := Int64.le_toInt n
  have hnhi := Int64.toInt_lt n
  rcases Nat.lt_or_ge d.toInt.natAbs 2 with h1 | h2
  · -- dividing by one or by minus one
    rw [show d.toInt.natAbs = 1 by omega, Nat.div_one]
    by_cases hdn : d.toInt < 0
    · have hdm : d = -1 := Int64.toInt_inj.mp (by rw [show (-1 : Int64).toInt = -1 from rfl]; omega)
      have hnm : n.toInt ≠ -2 ^ 63 := fun h =>
        hov ⟨Int64.toInt_inj.mp (h.trans Int64.toInt_minValue.symm), hdm⟩
      omega
    · omega
  · calc n.toInt.natAbs / d.toInt.natAbs ≤ n.toInt.natAbs / 2 := Nat.div_le_div_left h2 (by norm_num)
      _ < 2 ^ 63 := by omega

/-- `sdiv64` divides with truncation toward zero wherever the quotient is a 64-bit word: everywhere
but `INT64_MIN / -1`. -/
theorem sdiv64_eq (hd : d ≠ 0) (hov : ¬ (n = Int64.minValue ∧ d = -1)) :
    ∃ q, sdiv64 n d = some q ∧ q.toInt = n.toInt.tdiv d.toInt := by
  have hdi : d.toInt ≠ 0 := fun h => hd (Int64.toInt_inj.mp (h.trans Int64.toInt_zero.symm))
  have hnlo := Int64.le_toInt n
  have hnhi := Int64.toInt_lt n
  have hda := toNat_abs d
  have hdAbs : (if d ≥ 0 then d.toUInt64 else -d.toUInt64) ≠ 0 := by
    intro h
    rw [h, UInt64.toNat_zero] at hda
    omega
  have hq : ((if n ≥ 0 then n.toUInt64 else -n.toUInt64) /
      (if d ≥ 0 then d.toUInt64 else -d.toUInt64)).toNat = n.toInt.natAbs / d.toInt.natAbs := by
    rw [UInt64.toNat_div, toNat_abs, hda]
  simp only [sdiv64, udiv64_eq hdAbs]
  refine ⟨_, rfl, ?_⟩
  generalize ((if n ≥ 0 then n.toUInt64 else -n.toUInt64) /
      (if d ≥ 0 then d.toUInt64 else -d.toUInt64)) = qAbs at hq ⊢
  have hqle : qAbs.toNat ≤ 2 ^ 63 := by
    rw [hq]
    exact le_trans (Nat.div_le_self _ _) (by omega)
  rw [tdiv_eq_natAbs, ← hq]
  simp only [lt_zero_iff]
  split
  · -- the signs agree: the quotient is below `2 ^ 63` and read as it stands
    next hsame =>
    have hlt := natAbs_div_lt hdi hov (by simpa using hsame)
    rw [toInt_toInt64, Int.bmod_eq_of_le_mul_two (by omega) (by omega)]
  · -- the signs differ: the negated quotient is at least `-2 ^ 63`
    rw [Int64.toInt_neg, toInt_toInt64, Int.bmod_neg_bmod,
      Int.bmod_eq_of_le_mul_two (by omega) (by omega)]

theorem divdi3_eq (hd : d ≠ 0) (hov : ¬ (n = Int64.minValue ∧ d = -1)) :
    ∃ q, divdi3 n d = some q ∧ q.toInt = n.toInt.tdiv d.toInt := sdiv64_eq hd hov

/-- `__moddi3` is the remainder of truncated division cut to the `int32_t` that `smod64` returns
and sign-extended back. -/
theorem moddi3_eq (hd : d ≠ 0) (hov : ¬ (n = Int64.minValue ∧ d = -1)) :
    ∃ r, moddi3 n d = some r ∧ r.toInt = (n.toInt.tmod d.toInt).bmod (2 ^ 32) := by
  obtain ⟨q, hq, hqv⟩ := sdiv64_eq hd hov
  refine ⟨_, by rw [moddi3, smod64, hq, Option.map_some, Option.map_some], ?_⟩
  have hdi : d.toInt ≠ 0 := fun h => hd (Int64.toInt_inj.mp (h.trans Int64.toInt_zero.symm))
  have hdlo := Int64.le_toInt d
  have hdhi := Int64.toInt_lt d
  have hr := Int.natAbs_tmod n.toInt d.toInt
  have hrlt := Nat.mod_lt n.toInt.natAbs (Int.natAbs_pos.mpr hdi)
  rw [Int32.toInt_toInt64, Int64.toInt_toInt32, Int64.toInt_sub, Int64.toInt_mul, Int.sub_bmod_bmod,
    hqv, ← Int.tmod_def, Int.bmod_eq_of_le_mul_two (y := 2 ^ 64) (by omega) (by omega)]

/-- The remainder `2 ^ 32` comes back from `__moddi3` as 0. -/
example : moddi3 (2 ^ 32) (2 ^ 32 + 1) = some 0 := by decide

end Signed

/-- `__umoddi3` loses the high half of a remainder of more than 32 bits: `umod64` returns it as a
`uint32_t`, which `__umoddi3` widens back with zeros. -/
theorem umoddi3_drops_high_bits (n d : UInt64) (hd : d ≠ 0) (hbig : 2 ^ 32 ≤ (n % d).toNat) :
    ∃ r, umoddi3 n d = some r ∧ r.toNat = (n % d).toNat % 2 ^ 32 ∧ r ≠ n % d := by
  refine ⟨(n % d).toUInt32.toUInt64, umoddi3_eq hd, ?_, ?_⟩
  · rw [UInt32.toNat_toUInt64, UInt64.toNat_toUInt32]
  · intro h
    have h' := congrArg UInt64.toNat h
    rw [UInt32.toNat_toUInt64, UInt64.toNat_toUInt32] at h'
    have := Nat.mod_lt (n % d).toNat (by norm_num : 0 < 2 ^ 32)
    omega

theorem umoddi3_drops_high_bits_sample :
    (2 ^ 32 + 1 : UInt64) ≠ 0 ∧ 2 ^ 32 ≤ ((2 ^ 32 : UInt64) % (2 ^ 32 + 1)).toNat ∧
      ∃ r, umoddi3 (2 ^ 32) (2 ^ 32 + 1) = some r ∧
        r.toNat = ((2 ^ 32 : UInt64) % (2 ^ 32 + 1)).toNat % 2 ^ 32 ∧
        r ≠ (2 ^ 32 : UInt64) % (2 ^ 32 + 1) :=
  ⟨by decide, by decide, umoddi3_drops_high_bits (2 ^ 32) (2 ^ 32 + 1) (by decide) (by decide)⟩

/-- At the remainder `2 ^ 32`, `__umoddi3` returns 0. -/
example : umoddi3 (2 ^ 32) (2 ^ 32 + 1) = some 0 ∧ (2 ^ 32 : UInt64) % (2 ^ 32 + 1) = 2 ^ 32 := by
  decide

end Pintos.Lib
