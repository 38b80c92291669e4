import Mathlib.Data.Nat.Digits.Lemmas

/-! The integer conversions of C99's `fprintf` (7.19.6.1), over any base and digit characters:
what `%d %i %o %u %x %X` print once a directive is read. The rules between the flags are
part of the definition: `+` wins over ` `, `-` over `0`, and a precision turns `0` off. -/
namespace Pintos.Kit

/-- A directive of an integer conversion: its flags, field width and precision (`none` when it
is omitted or negative). -/
structure IntSpec where
  leftAdjust : Bool
  forceSign : Bool
  spaceSign : Bool
  alternate : Bool
  zeroPad : Bool
  width : Nat
  precision : Option Nat
deriving DecidableEq, Repr

/-- The digits of `n` in base `b`, most significant first, drawn by `digit`; none for `0`. -/
def showNat (b : Nat) (digit : Nat → Char) (n : Nat) : List Char :=
  ((Nat.digits b n).map digit).reverse

/-- The digits an integer conversion prints: at least the precision (1 by default, so `0` at
precision `0` prints none), and in octal with `#` a first digit `0`. -/
def intDigits (s : IntSpec) (b : Nat) (digit : Nat → Char) (n : Nat) : List Char :=
  let ds := List.replicate (s.precision.getD 1 - (showNat b digit n).length) '0' ++ showNat b digit n
  if s.alternate ∧ b = 8 ∧ ds.head? ≠ some '0' then '0' :: ds else ds

/-- The sign of a signed conversion: `-`, or `+` or a space when asked for. -/
def signPart (s : IntSpec) (isSigned negative : Bool) : List Char :=
  if isSigned then
    if negative then ['-'] else if s.forceSign then ['+'] else if s.spaceSign then [' '] else []
  else []

/-- The `0x` of an alternate hexadecimal conversion of a value other than zero. -/
def altPart (s : IntSpec) (x : Option Char) (n : Nat) : List Char :=
  match x with
  | some x => if s.alternate ∧ n ≠ 0 then ['0', x] else []
  | none => []

/-- Spaces that fill `body` to `width`, on the right when left-adjusted. -/
def padSpaces (leftAdjust : Bool) (width : Nat) (body : List Char) : List Char :=
  if leftAdjust then body ++ List.replicate (width - body.length) ' '
  else List.replicate (width - body.length) ' ' ++ body

/-- An integer conversion: zeros between the prefix and the digits fill the width under `0`,
unless `-` or a precision is given; spaces do otherwise. -/
def fmtInt (s : IntSpec) (b : Nat) (digit : Nat → Char) (x : Option Char) (isSigned negative : Bool)
    (n : Nat) : List Char :=
  let pre := signPart s isSigned negative ++ altPart s x n
  let ds := intDigits s b digit n
  if s.zeroPad ∧ ¬s.leftAdjust ∧ s.precision = none then
    pre ++ List.replicate (s.width - (pre.length + ds.length)) '0' ++ ds
  else padSpaces s.leftAdjust s.width (pre ++ ds)

theorem precision_le_length_intDigits (s : IntSpec) (b : Nat) (digit : Nat → Char) (n : Nat) :
    s.precision.getD 1 ≤ (intDigits s b digit n).length := by
  dsimp only [intDigits]
  split <;> simp only [List.length_cons, List.length_append, List.length_replicate] <;> omega

/-- An unsigned conversion under `0` with a width and no `-`, `#` or precision: zeros fill the
width in front of the digits, the one digit of zero among them. -/
theorem fmtInt_zeroPad {s : IntSpec} (hz : s.zeroPad = true) (hl : s.leftAdjust = false)
    (ha : s.alternate = false) (hp : s.precision = none) (hw : 0 < s.width) (b : Nat)
    (digit : Nat → Char) (n : Nat) :
    fmtInt s b digit none false false n =
      List.replicate (s.width - (showNat b digit n).length) '0' ++ showNat b digit n := by
  simp only [fmtInt, signPart, altPart, intDigits, hz, hl, ha, hp]
  simp only [Option.getD_none, Bool.false_eq_true, false_and, if_false, List.nil_append,
    List.length_nil, Nat.zero_add, List.length_append, List.length_replicate, and_self,
    not_false_eq_true, if_true]
  rw [← List.append_assoc, ← List.replicate_add]
  congr 2
  omega

section Congr

variable {s t : IntSpec}

theorem signPart_congr (hf : s.forceSign = t.forceSign)
    (hs : s.forceSign = false → s.spaceSign = t.spaceSign) (isSigned negative : Bool) :
    signPart s isSigned negative = signPart t isSigned negative := by
  unfold signPart
  cases hfs : s.forceSign
  · rw [← hf, hfs, hs hfs]
  · rw [← hf, hfs]
    simp

theorem altPart_congr (ha : s.alternate = t.alternate) (x : Option Char) (n : Nat) :
    altPart s x n = altPart t x n := by
  unfold altPart
  rw [ha]

theorem intDigits_congr (ha : s.alternate = t.alternate) (hp : s.precision = t.precision)
    (b : Nat) (digit : Nat → Char) (n : Nat) : intDigits s b digit n = intDigits t b digit n := by
  unfold intDigits
  rw [ha, hp]

/-- Two directives print alike when they agree on what the conversion reads of them: a space
flag matters only without `+`, and a `0` flag only without `-` and a precision. -/
theorem fmtInt_congr (hl : s.leftAdjust = t.leftAdjust)
    (hf : s.forceSign = t.forceSign) (hs : s.forceSign = false → s.spaceSign = t.spaceSign)
    (ha : s.alternate = t.alternate) (hw : s.width = t.width) (hp : s.precision = t.precision)
    (hz : (s.zeroPad = true ∧ s.leftAdjust = false ∧ s.precision = none) ↔
      (t.zeroPad = true ∧ t.leftAdjust = false ∧ t.precision = none))
    (b : Nat) (digit : Nat → Char) (x : Option Char) (isSigned negative : Bool) (n : Nat) :
    fmtInt s b digit x isSigned negative n = fmtInt t b digit x isSigned negative n := by
  simp only [fmtInt, signPart_congr hf hs, altPart_congr ha, intDigits_congr ha hp,
    Bool.not_eq_true]
  rw [if_congr hz rfl rfl, hw, hl]

end Congr

end Pintos.Kit
