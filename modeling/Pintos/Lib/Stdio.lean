import Mathlib.Data.Nat.Digits.Lemmas
import Pintos.Lib.Stdlib
import Pintos.Kit.Printf

/-! The formatter of lib/stdio.c: `__vprintf` with `parse_conversion`, `format_integer`,
`format_string` and `output_dup`, and `vsnprintf` over it. A format is a list of characters
up to its terminating NUL, and the stream of `output` calls that `__vprintf` makes is the list
it returns; `vsnprintf_helper` is folded over that stream. Integer types have their i386
widths: `char` 8 bits, `short` 16, `int`, `long`, `ptrdiff_t` and `size_t` 32, `long long`
and `intmax_t` 64. -/

namespace Pintos.Lib

/-- The flag characters of a conversion, `MINUS` to `GROUP`. -/
structure Flags where
  minus : Bool := false
  plus : Bool := false
  space : Bool := false
  pound : Bool := false
  zero : Bool := false
  group : Bool := false
deriving DecidableEq, Repr

/-- The type of the argument a conversion reads, from its length modifier. -/
inductive ArgType
  | char | short | int | intmax | long | longlong | ptrdifft | sizet
deriving DecidableEq, Repr

/-- `struct printf_conversion`; a precision of `-1` means none was given. -/
structure Conversion where
  flags : Flags
  width : Int
  precision : Int
  type : ArgType
deriving DecidableEq, Repr

/-- An argument passed to `printf`: an integer or pointer value as the caller passed it, or a
`char *` for `%s` (`none` for a null pointer). -/
inductive Arg
  | int (v : Int)
  | str (s : Option (List Char))
deriving DecidableEq, Repr

/-- `va_arg` of an integer or pointer type, before its conversion to that type. The model
reads an argument of the other kind, or a missing one, as `0`. -/
def vaArgInt : List Arg → Int × List Arg
  | .int v :: args => (v, args)
  | _ :: args => (0, args)
  | [] => (0, [])

/-- `va_arg (args, char *)`. -/
def vaArgStr : List Arg → Option (List Char) × List Arg
  | .str s :: args => (s, args)
  | _ :: args => (none, args)
  | [] => (none, [])

/-- Conversion of an integer to an unsigned type of `w` bits. -/
def toUnsigned (w : Nat) (v : Int) : Nat := (v % 2 ^ w).toNat

def sizeMax : Nat := 2 ^ 32 - 1

def ptrdiffMax : Nat := 2 ^ 31 - 1

/-- The value of a `%d` or `%i` argument, by the conversion's type; a conversion to a signed
type keeps the low bits, as GCC does. -/
def readSigned (type : ArgType) (v : Int) : Int :=
  match type with
  | .char => (v.bmod (2 ^ 32)).bmod (2 ^ 8)
  | .short => (v.bmod (2 ^ 32)).bmod (2 ^ 16)
  | .int => v.bmod (2 ^ 32)
  | .intmax => v.bmod (2 ^ 64)
  | .long => v.bmod (2 ^ 32)
  | .longlong => v.bmod (2 ^ 64)
  | .ptrdifft => v.bmod (2 ^ 32)
  | .sizet =>
    let value : Int := toUnsigned 32 v
    if value > sizeMax / 2 then value - sizeMax - 1 else value

/-- The value of a `%o`, `%u`, `%x` or `%X` argument, by the conversion's type. -/
def readUnsigned (type : ArgType) (v : Int) : Nat :=
  match type with
  | .char => toUnsigned 8 (toUnsigned 32 v)
  | .short => toUnsigned 16 (toUnsigned 32 v)
  | .int => toUnsigned 32 v
  | .intmax => toUnsigned 64 v
  | .long => toUnsigned 32 v
  | .longlong => toUnsigned 64 v
  -- a `ptrdiff_t` widened to `uintmax_t`, masked back to its own width
  | .ptrdifft => toUnsigned 64 (v.bmod (2 ^ 32)) &&& ((ptrdiffMax <<< 1) ||| 1)
  | .sizet => toUnsigned 32 v

/-- `struct integer_base`: the base, its digit characters, the `x` character of the `#`
prefix (hexadecimal only) and the number of digits the `'` flag groups. -/
structure IntegerBase where
  base : Nat
  digits : List Char
  x : Option Char
  group : Nat
  one_lt_base : 1 < base
  length_digits : digits.length = base

/-- `b->digits[value % b->base]`. -/
def IntegerBase.digit (b : IntegerBase) (value : Nat) : Char :=
  b.digits.get ⟨value % b.base, by
    rw [b.length_digits]
    exact Nat.mod_lt _ (Nat.lt_trans Nat.zero_lt_one b.one_lt_base)⟩

def baseD : IntegerBase :=
  ⟨10, ['0', '1', '2', '3', '4', '5', '6', '7', '8', '9'], none, 3, by decide, rfl⟩

@[simp] theorem baseD_base : baseD.base = 10 := rfl

def baseO : IntegerBase :=
  ⟨8, ['0', '1', '2', '3', '4', '5', '6', '7'], none, 3, by decide, rfl⟩

def baseX : IntegerBase :=
  ⟨16, ['0', '1', '2', '3', '4', '5', '6', '7', '8', '9', 'a', 'b', 'c', 'd', 'e', 'f'],
    some 'x', 4, by decide, rfl⟩

def baseXUpper : IntegerBase :=
  ⟨16, ['0', '1', '2', '3', '4', '5', '6', '7', '8', '9', 'A', 'B', 'C', 'D', 'E', 'F'],
    some 'X', 4, by decide, rfl⟩

/-! ### `parse_conversion` -/

/-- The flag characters, up to the first character that is not one. -/
def parseFlags : List Char → Flags → Flags × List Char
  | '-' :: format, flags => parseFlags format { flags with minus := true }
  | '+' :: format, flags => parseFlags format { flags with plus := true }
  | ' ' :: format, flags => parseFlags format { flags with space := true }
  | '#' :: format, flags => parseFlags format { flags with pound := true }
  | '0' :: format, flags => parseFlags format { flags with zero := true }
  | '\x27' :: format, flags => parseFlags format { flags with group := true }
  | format, flags => (flags, format)

/-- `for (; isdigit (*format); format++) n = n * 10 + *format - '0';` -/
def parseDigits : List Char → Int → Int × List Char
  | c :: format, n =>
    if c.isDigit then parseDigits format (n * 10 + c.toNat - 48) else (n, c :: format)
  | [], n => (n, [])

/-- The field width: `*` reads an `int` argument, otherwise a run of digits. -/
def parseWidth : List Char → List Arg → Int × List Char × List Arg
  | '*' :: format, args => ((vaArgInt args).1.bmod (2 ^ 32), format, (vaArgInt args).2)
  | format, args => ((parseDigits format 0).1, (parseDigits format 0).2, args)

/-- The precision, `-1` when none is given or a `*` argument is negative. -/
def parsePrecision : List Char → List Arg → Int × List Char × List Arg
  | '.' :: '*' :: format, args =>
    let precision := (vaArgInt args).1.bmod (2 ^ 32)
    (if precision < 0 then -1 else precision, format, (vaArgInt args).2)
  | '.' :: format, args =>
    let precision := (parseDigits format 0).1
    (if precision < 0 then -1 else precision, (parseDigits format 0).2, args)
  | format, args => (-1, format, args)

/-- The length modifier. -/
def parseType : List Char → ArgType × List Char
  | 'h' :: 'h' :: format => (.char, format)
  | 'h' :: format => (.short, format)
  | 'j' :: format => (.intmax, format)
  | 'l' :: 'l' :: format => (.longlong, format)
  | 'l' :: format => (.long, format)
  | 't' :: format => (.ptrdifft, format)
  | 'z' :: format => (.sizet, format)
  | format => (.int, format)

/-- `parse_conversion`: the conversion after a `%`, the format from its conversion character
on, and the arguments left. `-` clears `0` and `+` clears ` ` right after the flags; a
negative `*` width sets `-` after that, and a precision clears `0`. -/
def parseConversion (format : List Char) (args : List Arg) : Conversion × List Char × List Arg :=
  let (flags, format) := parseFlags format {}
  let flags := if flags.minus then { flags with zero := false } else flags
  let flags := if flags.plus then { flags with space := false } else flags
  let (width, format, args) := parseWidth format args
  let (width, flags) := if width < 0 then (-width, { flags with minus := true }) else (width, flags)
  let (precision, format, args) := parsePrecision format args
  let flags := if 0 ≤ precision then { flags with zero := false } else flags
  let (type, format) := parseType format
  (⟨flags, width, precision, type⟩, format, args)

/-! ### `format_integer`, `format_string` -/

/-- `output_dup`: `cnt` copies of `ch`. -/
def outputDup (ch : Char) (cnt : Nat) : List Char := List.replicate cnt ch

/-- The digit loop of `format_integer`, `buf` in the order written (least significant digit
first), with a comma before every `b.group`-th digit under the `'` flag. -/
def accumulateDigits (b : IntegerBase) (group : Bool) (value digitCnt : Nat)
    (buf : List Char) : List Char :=
  if 0 < value then
    let buf := if group ∧ 0 < digitCnt ∧ digitCnt % b.group = 0 then buf ++ [','] else buf
    accumulateDigits b group (value / b.base) (digitCnt + 1) (buf ++ [b.digit value])
  else buf
termination_by value
decreasing_by exact Nat.div_lt_self ‹_› b.one_lt_base

/-- `while (cp - buf < precision && cp < buf + sizeof buf - 1) *cp++ = '0';` for the 64-byte
`buf`. -/
def fillZeros (precision : Int) (buf : List Char) : List Char :=
  if (buf.length : Int) < precision ∧ buf.length < 64 - 1 then fillZeros precision (buf ++ ['0'])
  else buf
termination_by 64 - 1 - buf.length

/-- The sign character of `format_integer`; an unsigned conversion never has one. -/
def signChar (isSigned negative : Bool) (flags : Flags) : Option Char :=
  if isSigned then
    if flags.plus then some (if negative then '-' else '+')
    else if flags.space then some (if negative then '-' else ' ')
    else if negative then some '-' else none
  else none

/-- The digit buffer of `format_integer` in the order written: the digits, the zeros of the
precision, and the `0` that `#` puts in front of an octal number. -/
def digitBuffer (value : Nat) (b : IntegerBase) (c : Conversion) : List Char :=
  let buf := accumulateDigits b c.flags.group value 0 []
  let precision := if c.precision < 0 then 1 else c.precision
  let buf := fillZeros precision buf
  if c.flags.pound ∧ b.base = 8 ∧ (buf = [] ∨ buf.getLast? ≠ some '0') then buf ++ ['0'] else buf

/-- `if (x) { output ('0', aux); output (x, aux); }` -/
def prefixX : Option Char → List Char
  | some x => ['0', x]
  | none => []

/-- `format_integer`: the output of an integer conversion of absolute value `value`. -/
def formatInteger (value : Nat) (isSigned negative : Bool) (b : IntegerBase) (c : Conversion) :
    List Char :=
  let sign := signChar isSigned negative c.flags
  let x := if c.flags.pound ∧ value ≠ 0 then b.x else none
  let buf := digitBuffer value b c
  let padCnt := c.width - buf.length - (if x.isSome then 2 else 0) - (if sign.isSome then 1 else 0)
  let padCnt := if padCnt < 0 then 0 else padCnt.toNat
  (if ¬c.flags.minus ∧ ¬c.flags.zero then outputDup ' ' padCnt else [])
    ++ sign.toList
    ++ prefixX x
    ++ (if c.flags.zero then outputDup '0' padCnt else [])
    ++ buf.reverse
    ++ (if c.flags.minus then outputDup ' ' padCnt else [])

/-- `format_string`: the first `length` characters of `string`, padded to the width. -/
def formatString (string : List Char) (length : Int) (c : Conversion) : List Char :=
  (if c.width > length ∧ ¬c.flags.minus then outputDup ' ' (c.width - length).toNat else [])
    ++ string.take length.toNat
    ++ (if c.width > length ∧ c.flags.minus then outputDup ' ' (c.width - length).toNat else [])

/-- `strnlen` of lib/string.c on a string whose characters are `string` up to its first NUL. -/
def strnlen : List Char → Nat → Nat
  | c :: string, maxlen + 1 => if c = '\x00' then 0 else strnlen string maxlen + 1
  | _, _ => 0

/-- What `__printf ("<<no %%%c in kernel>>", output, aux, k)` prints. -/
def noInKernel (k : Char) : List Char := "<<no %".toList ++ [k] ++ " in kernel>>".toList

/-- What `__printf ("<<no %%%c conversion>>", output, aux, k)` prints. -/
def noConversion (k : Char) : List Char := "<<no %".toList ++ [k] ++ " conversion>>".toList

/-- One conversion of `__vprintf`, at its conversion character `k`: its output and the
arguments left. -/
def convert (k : Char) (c : Conversion) (args : List Arg) : List Char × List Arg :=
  match k with
  | 'd' | 'i' =>
    let value := readSigned c.type (vaArgInt args).1
    (formatInteger value.natAbs true (value < 0) baseD c, (vaArgInt args).2)
  | 'o' => (formatInteger (readUnsigned c.type (vaArgInt args).1) false false baseO c,
      (vaArgInt args).2)
  | 'u' => (formatInteger (readUnsigned c.type (vaArgInt args).1) false false baseD c,
      (vaArgInt args).2)
  | 'x' => (formatInteger (readUnsigned c.type (vaArgInt args).1) false false baseX c,
      (vaArgInt args).2)
  | 'X' => (formatInteger (readUnsigned c.type (vaArgInt args).1) false false baseXUpper c,
      (vaArgInt args).2)
  | 'c' => (formatString [Char.ofNat (toUnsigned 8 (vaArgInt args).1)] 1 c, (vaArgInt args).2)
  | 's' =>
    let s := ((vaArgStr args).1).getD "(null)".toList
    (formatString s (strnlen s (toUnsigned 32 c.precision)) c, (vaArgStr args).2)
  | 'p' => (formatInteger (toUnsigned 32 (vaArgInt args).1) false false baseX
      { c with flags := { pound := true } }, (vaArgInt args).2)
  | 'f' | 'e' | 'E' | 'g' | 'G' | 'n' => (noInKernel k, args)
  | _ => (noConversion k, args)

/-! ### `__vprintf`, `vsnprintf` -/

theorem parseFlags_length (format : List Char) (flags : Flags) :
    (parseFlags format flags).2.length ≤ format.length := by
  induction format, flags using parseFlags.induct <;> grind [parseFlags]

theorem parseDigits_length (format : List Char) (n : Int) :
    (parseDigits format n).2.length ≤ format.length := by
  induction format generalizing n with
  | nil => exact Nat.le_refl _
  | cons c format ih =>
    rw [parseDigits]
    split
    · exact Nat.le_succ_of_le (ih _)
    · exact Nat.le_refl _

theorem parseWidth_length (format : List Char) (args : List Arg) :
    (parseWidth format args).2.1.length ≤ format.length := by
  unfold parseWidth
  split
  · exact Nat.le_succ _
  · exact parseDigits_length _ _

theorem parsePrecision_length (format : List Char) (args : List Arg) :
    (parsePrecision format args).2.1.length ≤ format.length := by
  unfold parsePrecision
  split
  · simp only [List.length_cons]
    omega
  · exact Nat.le_succ_of_le (parseDigits_length _ _)
  · exact Nat.le_refl _

theorem parseType_length (format : List Char) : (parseType format).2.length ≤ format.length := by
  unfold parseType
  split <;> simp only [List.length_cons] <;> omega

theorem parseConversion_length (format : List Char) (args : List Arg) :
    (parseConversion format args).2.1.length ≤ format.length := by
  have h1 := parseFlags_length format {}
  have h2 := parseWidth_length (parseFlags format {}).2
  have h3 := parsePrecision_length (parseWidth (parseFlags format {}).2 args).2.1
  have h4 := parseType_length
  simp only [parseConversion]
  grind

/-- `__vprintf`: the characters it outputs for `format` and `args`. A format that ends inside
a conversion takes its NUL as the conversion character; the C loop then reads past the
string, and the model stops. -/
def vprintf (format : List Char) (args : List Arg) : List Char :=
  match format with
  | [] => []
  | '%' :: '%' :: format => '%' :: vprintf format args
  | '%' :: format =>
    match h : (parseConversion format args).2.1 with
    | [] => noConversion '\x00'
    | k :: rest =>
      have : rest.length < format.length + 1 := by
        have := parseConversion_length format args
        rw [h, List.length_cons] at this
        omega
      (convert k (parseConversion format args).1 (parseConversion format args).2.2).1 ++
        vprintf rest (convert k (parseConversion format args).1 (parseConversion format args).2.2).2
  | ch :: format => ch :: vprintf format args
termination_by format.length

/-- `struct vsnprintf_aux`, with `p` the characters written to the buffer so far. -/
structure VsnprintfAux where
  p : List Char
  length : Nat
  maxLength : Nat

/-- `vsnprintf_helper`. -/
def vsnprintfHelper (ch : Char) (aux : VsnprintfAux) : VsnprintfAux :=
  if aux.length < aux.maxLength then { aux with p := aux.p ++ [ch], length := aux.length + 1 }
  else { aux with length := aux.length + 1 }

/-- `vsnprintf`: the value it returns and what it leaves in the buffer. -/
def vsnprintf (bufSize : Nat) (format : List Char) (args : List Arg) : Nat × List Char :=
  let aux := (vprintf format args).foldl (fun aux ch => vsnprintfHelper ch aux)
    ⟨[], 0, if bufSize > 0 then bufSize - 1 else 0⟩
  (aux.length, if bufSize > 0 then aux.p ++ ['\x00'] else aux.p)

theorem bmod_of_intRange {v : Int} (h : IntRange v) : v.bmod (2 ^ 32) = v := by
  unfold IntRange at h
  exact Int.bmod_eq_of_le (by push_cast; omega) (by push_cast; omega)

theorem parseConversion_star_precision (p : Int) (rest : List Char) (args : List Arg)
    (hp : 0 ≤ p) (hp' : IntRange p) :
    parseConversion ('.' :: '*' :: 'd' :: rest) (.int p :: args) =
      (⟨{}, 0, p, .int⟩, 'd' :: rest, args) := by
  have hb : p.bmod 4294967296 = p := bmod_of_intRange hp'
  simp [parseConversion, parseFlags, parseWidth, parseDigits, parsePrecision, parseType, vaArgInt,
    hb, Int.not_lt.mpr hp]

/-! ### `format_integer` -/

/-- Without the `'` flag the digit loop writes the base-`b` digits of `value`, least
significant first. -/
theorem accumulateDigits_eq (b : IntegerBase) (value digitCnt : Nat) (buf : List Char) :
    accumulateDigits b false value digitCnt buf = buf ++ (Nat.digits b.base value).map b.digit := by
  induction value using Nat.strong_induction_on generalizing digitCnt buf with
  | _ value ih =>
    rw [accumulateDigits]
    split
    · rename_i hpos
      rw [ih _ (Nat.div_lt_self hpos b.one_lt_base), Nat.digits_def' b.one_lt_base hpos]
      simp [IntegerBase.digit]
    · rename_i hzero
      rw [Nat.eq_zero_of_not_pos hzero, Nat.digits_zero, List.map_nil, List.append_nil]

theorem fillZeros_eq (precision : Int) (buf : List Char) :
    fillZeros precision buf = buf ++ List.replicate (min precision.toNat 63 - buf.length) '0' := by
  fun_induction fillZeros precision buf with
  | case1 buf hlt ih =>
    rw [ih, List.length_append, List.length_singleton, List.append_assoc, List.singleton_append,
      ← List.replicate_succ]
    congr 2
    omega
  | case2 buf hge =>
    rw [Nat.sub_eq_zero_of_le (by omega), List.replicate_zero, List.append_nil]

theorem digitBuffer_of_capped (value : Nat) (b : IntegerBase) (c : Conversion)
    (hgroup : c.flags.group = false) (hpound : c.flags.pound = false) (hp : 63 ≤ c.precision) :
    digitBuffer value b c =
      (Nat.digits b.base value).map b.digit ++
        List.replicate (63 - (Nat.digits b.base value).length) '0' := by
  have hmin : min (if c.precision < 0 then 1 else c.precision).toNat 63 = 63 := by
    rw [if_neg (by omega)]
    omega
  simp [digitBuffer, hgroup, hpound, accumulateDigits_eq, fillZeros_eq, hmin]

/-- With no flags and no width, a precision of 63 or more renders exactly 63 digit
characters. -/
theorem formatInteger_precision_capped (value : Nat) (negative : Bool) (b : IntegerBase)
    (p : Int) (type : ArgType) (hp : 63 ≤ p) :
    formatInteger value true negative b ⟨{}, 0, p, type⟩ =
      (if negative then ['-'] else []) ++
        List.replicate (63 - (Nat.digits b.base value).length) '0' ++
          ((Nat.digits b.base value).map b.digit).reverse := by
  have hbuf := digitBuffer_of_capped value b ⟨{}, 0, p, type⟩ rfl rfl hp
  cases negative with
  | false => simp [formatInteger, hbuf, signChar, prefixX, outputDup]
  | true =>
    simp [formatInteger, hbuf, signChar, prefixX, outputDup]
    omega

/-- The directive a parsed conversion stands for. -/
def specOf (c : Conversion) : Kit.IntSpec :=
  ⟨c.flags.minus, c.flags.plus, c.flags.space, c.flags.pound, c.flags.zero, c.width.toNat,
    if c.precision < 0 then none else some c.precision.toNat⟩

theorem reverse_octalZero (p q : Prop) [Decidable p] [Decidable q] (l : List Char) :
    (if p ∧ q ∧ (l = [] ∨ l.getLast? ≠ some '0') then l ++ ['0'] else l) =
      (if p ∧ q ∧ l.reverse.head? ≠ some '0' then '0' :: l.reverse else l.reverse).reverse := by
  have h : (l = [] ∨ l.getLast? ≠ some '0') ↔ l.reverse.head? ≠ some '0' := by
    rw [List.head?_reverse]
    constructor
    · rintro (rfl | h)
      · simp
      · exact h
    · exact Or.inr
  by_cases hc : p ∧ q ∧ l.reverse.head? ≠ some '0'
  · rw [if_pos ⟨hc.1, hc.2.1, h.mpr hc.2.2⟩, if_pos hc, List.reverse_cons, List.reverse_reverse]
  · rw [if_neg (fun h' => hc ⟨h'.1, h'.2.1, h.mp h'.2.2⟩), if_neg hc, List.reverse_reverse]

/-- Without the `'` flag and with a precision the buffer holds, the digit buffer read back is
the C99 digit string. -/
theorem digitBuffer_eq (value : Nat) (b : IntegerBase) (c : Conversion)
    (hgroup : c.flags.group = false) (hcap : c.precision ≤ 63) :
    digitBuffer value b c = (Kit.intDigits (specOf c) b.base b.digit value).reverse := by
  have hP : min (if c.precision < 0 then 1 else c.precision).toNat 63 =
      (specOf c).precision.getD 1 := by
    simp only [specOf]
    split
    · simp
    · simp only [Option.getD_some]
      omega
  have hrev : ∀ (l : List Char) (k : Nat),
      List.replicate k '0' ++ l.reverse = (l ++ List.replicate k '0').reverse := by
    intro l k
    simp
  simp only [digitBuffer, hgroup, accumulateDigits_eq, fillZeros_eq, List.nil_append, hP,
    Kit.intDigits, Kit.showNat, List.length_reverse, List.length_map,
    show (specOf c).alternate = c.flags.pound from rfl]
  rw [hrev]
  exact reverse_octalZero _ _ _


theorem signChar_toList (isSigned negative : Bool) (c : Conversion) :
    (signChar isSigned negative c.flags).toList = Kit.signPart (specOf c) isSigned negative := by
  unfold signChar Kit.signPart specOf
  cases isSigned <;> cases negative <;> cases c.flags.plus <;> cases c.flags.space <;> rfl

theorem prefixX_eq (value : Nat) (b : IntegerBase) (c : Conversion) :
    prefixX (if c.flags.pound = true ∧ value ≠ 0 then b.x else none) =
      Kit.altPart (specOf c) b.x value := by
  unfold Kit.altPart specOf
  cases b.x <;> split <;> rfl

/-- Without the `'` flag and with a precision the buffer holds, `format_integer` outputs the
C99 sign, prefix and digits of the directive, with `pad_cnt` spaces or zeros where its flags put
them. -/
theorem formatInteger_eq_pieces (value : Nat) (isSigned negative : Bool) (b : IntegerBase)
    (c : Conversion) (hgroup : c.flags.group = false) (hcap : c.precision ≤ 63) :
    formatInteger value isSigned negative b c =
      let S := Kit.signPart (specOf c) isSigned negative
      let A := Kit.altPart (specOf c) b.x value
      let D := Kit.intDigits (specOf c) b.base b.digit value
      let k := c.width.toNat - ((S ++ A).length + D.length)
      (if ¬c.flags.minus ∧ ¬c.flags.zero then List.replicate k ' ' else []) ++ S ++ A ++
        (if c.flags.zero then List.replicate k '0' else []) ++ D ++
          (if c.flags.minus then List.replicate k ' ' else []) := by
  have hbuf := digitBuffer_eq value b c hgroup hcap
  have hsign := signChar_toList isSigned negative c
  have hx := prefixX_eq value b c
  have hs : (if (signChar isSigned negative c.flags).isSome then 1 else 0 : Int) =
      (Kit.signPart (specOf c) isSigned negative).length := by
    rw [← hsign]
    cases signChar isSigned negative c.flags <;> rfl
  have hxl : (if (if c.flags.pound = true ∧ value ≠ 0 then b.x else none).isSome then 2 else 0 : Int) =
      (Kit.altPart (specOf c) b.x value).length := by
    rw [← hx]
    cases (if c.flags.pound = true ∧ value ≠ 0 then b.x else none) <;> rfl
  simp only [formatInteger, hbuf, List.reverse_reverse, List.length_reverse, hsign, hx, hs, hxl,
    outputDup]
  generalize Kit.signPart (specOf c) isSigned negative = S
  generalize Kit.altPart (specOf c) b.x value = A
  generalize Kit.intDigits (specOf c) b.base b.digit value = D
  have hpad : (if c.width - D.length - A.length - S.length < 0 then 0
      else (c.width - D.length - A.length - S.length).toNat) =
        c.width.toNat - ((S ++ A).length + D.length) := by
    rw [List.length_append]
    split <;> omega
  rw [hpad]

theorem formatInteger_eq_fmtInt (value : Nat) (isSigned negative : Bool) (b : IntegerBase)
    (c : Conversion) (hgroup : c.flags.group = false)
    (hminus : c.flags.minus = true → c.flags.zero = false)
    (hprec : 0 ≤ c.precision → c.flags.zero = false) (hcap : c.precision ≤ 63) :
    formatInteger value isSigned negative b c =
      Kit.fmtInt (specOf c) b.base b.digit b.x isSigned negative value := by
  rw [formatInteger_eq_pieces value isSigned negative b c hgroup hcap]
  simp only [Kit.fmtInt, Kit.padSpaces, specOf, List.length_append]
  cases hm : c.flags.minus <;> cases hz : c.flags.zero
  · simp
  · have hneg : c.precision < 0 := by
      by_contra h
      simp [hprec (by omega)] at hz
    simp [hneg]
  · simp
  · simp [hminus hm] at hz

/-- What `parse_conversion` makes of the flags, width and precision it reads: `-` clears `0` and
`+` clears ` ` as read, a negative width sets `-` after that, and a precision clears `0`. -/
theorem parseConversion_eq (format : List Char) (args : List Arg) :
    parseConversion format args =
      let flags := (parseFlags format {}).1
      let w := parseWidth (parseFlags format {}).2 args
      let p := parsePrecision w.2.1 w.2.2
      (⟨{ flags with
          minus := flags.minus || decide (w.1 < 0),
          space := flags.space && !flags.plus,
          zero := flags.zero && !flags.minus && decide (p.1 < 0) }, |w.1|, p.1,
        (parseType p.2.1).1⟩, (parseType p.2.1).2, p.2.2) := by
  simp only [parseConversion]
  obtain ⟨⟨minus, plus, space, pound, zero, group⟩, f1⟩ := parseFlags format {}
  obtain ⟨w, f2, a2⟩ := parseWidth f1 args
  obtain ⟨p, f3, a3⟩ := parsePrecision f2 a2
  have habs : |w| = if w < 0 then -w else w := by
    split
    · exact abs_of_neg ‹_›
    · exact abs_of_nonneg (not_lt.mp ‹_›)
  have hp : decide (p < 0) = !decide (0 ≤ p) := by
    by_cases h : 0 ≤ p
    · simp [h]
    · simp [h, not_le.mp h]
  rw [habs, hp]
  by_cases hw : w < 0 <;> by_cases hp : 0 ≤ p <;> cases minus <;> cases plus <;> simp [hw, hp]

/-- How C99 reads a directive with the flags, width and precision written or passed: a negative
width is a `-` flag and its absolute value, and a negative precision is none. -/
def c99Spec (flags : Flags) (width precision : Int) : Kit.IntSpec :=
  ⟨flags.minus || decide (width < 0), flags.plus, flags.space, flags.pound, flags.zero,
    width.natAbs, if precision < 0 then none else some precision.toNat⟩

section Parsed

variable {format f1 f2 f3 : List Char} {args a2 a3 : List Arg} {flags : Flags} {w p : Int}

theorem parseConversion_fst (hF : parseFlags format {} = (flags, f1))
    (hW : parseWidth f1 args = (w, f2, a2)) (hP : parsePrecision f2 a2 = (p, f3, a3)) :
    (parseConversion format args).1 =
      ⟨{ flags with
          minus := flags.minus || decide (w < 0),
          space := flags.space && !flags.plus,
          zero := flags.zero && !flags.minus && decide (p < 0) }, |w|, p, (parseType f3).1⟩ := by
  rw [parseConversion_eq, hF]
  simp only [hW, hP]

/-- An integer conversion prints what C99 prints for the directive read, unless a negative `*`
width meets a `0` flag with neither `-` nor a precision. -/
theorem formatInteger_parse (hF : parseFlags format {} = (flags, f1))
    (hW : parseWidth f1 args = (w, f2, a2)) (hP : parsePrecision f2 a2 = (p, f3, a3))
    (hgroup : flags.group = false) (hcap : p ≤ 63)
    (hzero : w < 0 → flags.zero = true → flags.minus = true ∨ 0 ≤ p)
    (value : Nat) (isSigned negative : Bool) (b : IntegerBase) :
    formatInteger value isSigned negative b (parseConversion format args).1 =
      Kit.fmtInt (c99Spec flags w p) b.base b.digit b.x isSigned negative value := by
  rw [parseConversion_fst hF hW hP, formatInteger_eq_fmtInt _ _ _ _ _ hgroup ?minus ?prec hcap]
  · refine Kit.fmtInt_congr ?hl ?hf ?hs ?ha ?hw ?hp ?hz _ _ _ _ _ _
    case hl | hf | ha | hp => rfl
    case hs =>
      intro h
      simp [specOf, c99Spec] at h ⊢
      simp [h]
    case hw =>
      simp only [specOf, c99Spec]
      rw [Int.abs_eq_natAbs, Int.toNat_natCast]
    case hz =>
      have hnone : (if p < 0 then none else some p.toNat) = none ↔ p < 0 := by
        split <;> simp_all
      simp only [specOf, c99Spec, Bool.or_eq_false_iff, decide_eq_false_iff_not, not_lt,
        Bool.and_eq_true, Bool.not_eq_true', decide_eq_true_eq, hnone]
      tauto
  case minus =>
    intro hm
    simp only [Bool.or_eq_true, decide_eq_true_eq] at hm
    simp only [Bool.and_eq_false_imp, decide_eq_false_iff_not, not_lt]
    intro hz
    simp only [Bool.and_eq_true, Bool.not_eq_true'] at hz
    rcases hm with hm | hw
    · simp [hm] at hz
    · rcases hzero hw hz.1 with h | h
      · simp [h] at hz
      · exact h
  case prec =>
    intro hp
    simp [not_lt.mpr hp]

/-- A negative `*` width with the `0` flag and neither `-` nor a precision: C99 left-adjusts
and pads with spaces, but `parse_conversion` cleared `0` for `-` before the width set `-`, so
`format_integer` pads with zeros before the digits and again with spaces after them. -/
theorem formatInteger_zero_star (hF : parseFlags format {} = (flags, f1))
    (hW : parseWidth f1 args = (w, f2, a2)) (hP : parsePrecision f2 a2 = (p, f3, a3))
    (hgroup : flags.group = false) (hw : w < 0) (hzero : flags.zero = true)
    (hminus : flags.minus = false) (hp : p < 0) (value : Nat) (isSigned negative : Bool)
    (b : IntegerBase) :
    let s := c99Spec flags w p
    let pre := Kit.signPart s isSigned negative ++ Kit.altPart s b.x value
    let ds := Kit.intDigits s b.base b.digit value
    let k := w.natAbs - (pre.length + ds.length)
    formatInteger value isSigned negative b (parseConversion format args).1 =
        pre ++ List.replicate k '0' ++ ds ++ List.replicate k ' ' ∧
      Kit.fmtInt s b.base b.digit b.x isSigned negative value = pre ++ ds ++ List.replicate k ' ' := by
  have hc := @parseConversion_fst format f1 f2 f3 args a2 a3 flags w p hF hW hP
  have habs : |w|.toNat = w.natAbs := by
    rw [Int.abs_eq_natAbs, Int.toNat_natCast]
  generalize (parseConversion format args).1 = c at hc ⊢
  rw [formatInteger_eq_pieces _ _ _ _ c (by rw [hc]; exact hgroup) (by rw [hc]; show p ≤ 63; omega)]
  have hs : Kit.signPart (specOf c) isSigned negative =
      Kit.signPart (c99Spec flags w p) isSigned negative := by
    refine Kit.signPart_congr ?_ ?_ _ _
    · rw [hc]
      rfl
    · intro h
      rw [hc] at h ⊢
      simp [specOf, c99Spec] at h ⊢
      exact fun _ => h
  have ha : Kit.altPart (specOf c) b.x value = Kit.altPart (c99Spec flags w p) b.x value := by
    rw [hc]
    rfl
  have hd : Kit.intDigits (specOf c) b.base b.digit value =
      Kit.intDigits (c99Spec flags w p) b.base b.digit value := by
    rw [hc]
    rfl
  have hflags : c.flags.minus = true ∧ c.flags.zero = true ∧ c.width.toNat = w.natAbs := by
    rw [hc]
    simp [hw, hzero, hminus, hp, habs]
  simp only [hs, ha, hd, hflags]
  simp [Kit.fmtInt, Kit.padSpaces, c99Spec, hw, Nat.add_assoc]

end Parsed

/-! ### `format_string` -/

theorem take_strnlen (string : List Char) (maxlen : Nat) :
    string.take (strnlen string maxlen) = (string.takeWhile (· ≠ '\x00')).take maxlen := by
  induction string generalizing maxlen with
  | nil => cases maxlen <;> rfl
  | cons ch string ih =>
    cases maxlen with
    | zero => rfl
    | succ maxlen =>
      by_cases h : ch = '\x00'
      · simp [strnlen, h]
      · simp [strnlen, h, ih]

theorem strnlen_le_length (string : List Char) (maxlen : Nat) :
    strnlen string maxlen ≤ string.length := by
  induction string generalizing maxlen with
  | nil => cases maxlen <;> simp [strnlen]
  | cons ch string ih =>
    cases maxlen with
    | zero => simp [strnlen]
    | succ maxlen =>
      simp only [strnlen, List.length_cons]
      split
      · omega
      · have := ih maxlen
        omega

/-- `format_string` of `length` characters there are: those characters, filled with spaces to
the width as C99 does. -/
theorem formatString_eq (string : List Char) (length : Nat) (c : Conversion)
    (hl : length ≤ string.length) :
    formatString string length c =
      Kit.padSpaces c.flags.minus c.width.toNat (string.take length) := by
  have htake : (string.take length).length = length := List.length_take_of_le hl
  simp only [formatString, Kit.padSpaces, outputDup, htake, Int.toNat_natCast]
  by_cases hw : c.width > length
  · have hk : (c.width - length).toNat = c.width.toNat - length := by omega
    cases c.flags.minus <;> simp [hw, hk]
  · have hk : c.width.toNat - length = 0 := by omega
    cases c.flags.minus <;> simp [hw, hk]

/-- `%s`: the string up to its NUL and at most the precision of it (`SIZE_MAX` when none), as
C99 fills it to the width; `(null)` for a null pointer. -/
theorem convert_s (c : Conversion) (s : Option (List Char)) (args : List Arg) :
    convert 's' c (.str s :: args) =
      (Kit.padSpaces c.flags.minus c.width.toNat
        (((s.getD "(null)".toList).takeWhile (· ≠ '\x00')).take (toUnsigned 32 c.precision)), args) := by
  simp only [convert, vaArgStr]
  rw [formatString_eq _ _ _ (strnlen_le_length _ _), take_strnlen]

theorem convert_c (c : Conversion) (v : Int) (args : List Arg) :
    convert 'c' c (.int v :: args) =
      (Kit.padSpaces c.flags.minus c.width.toNat [Char.ofNat (toUnsigned 8 v)], args) := by
  simp only [convert, vaArgInt]
  rw [show (1 : Int) = ((1 : Nat) : Int) from rfl, formatString_eq _ 1 _ (by simp)]
  rfl

/-! ### Step lemmas -/

section Steps

variable {format : List Char} {args : List Arg}

theorem vprintf_literal {ch : Char} (h : ch ≠ '%') :
    vprintf (ch :: format) args = ch :: vprintf format args :=
  vprintf.eq_4 _ _ _ (fun _ hc => absurd hc h) h

theorem vprintf_conversion {k : Char} {rest : List Char} (h : format.head? ≠ some '%')
    (hk : (parseConversion format args).2.1 = k :: rest) :
    vprintf ('%' :: format) args =
      (convert k (parseConversion format args).1 (parseConversion format args).2.2).1 ++
        vprintf rest (convert k (parseConversion format args).1 (parseConversion format args).2.2).2 := by
  rw [vprintf.eq_3 _ _ (by rintro f rfl; exact h rfl)]
  split
  · rename_i heq
    rw [hk] at heq
    exact absurd heq (List.cons_ne_nil _ _)
  · rename_i k' rest' heq
    rw [hk, List.cons.injEq] at heq
    rw [heq.1, heq.2]

end Steps

/-! ### `vsnprintf` -/

/-- Folding `vsnprintf_helper` over an output counts all of it and writes what fits: the
buffer holds the first `min length maxLength` characters throughout. -/
theorem foldl_vsnprintfHelper (out : List Char) (aux : VsnprintfAux)
    (hp : aux.p.length = min aux.length aux.maxLength) :
    out.foldl (fun aux ch => vsnprintfHelper ch aux) aux =
      ⟨aux.p ++ out.take (aux.maxLength - aux.length), aux.length + out.length, aux.maxLength⟩ := by
  induction out generalizing aux with
  | nil => simp
  | cons ch out ih =>
    rw [List.foldl_cons, vsnprintfHelper]
    split
    · -- room left: the character is written
      rename_i hlt
      rw [ih _ (by simp only [List.length_append, List.length_singleton]; omega)]
      obtain ⟨k, hk⟩ : ∃ k, aux.maxLength - aux.length = k + 1 := ⟨_, (Nat.succ_pred_eq_of_pos
        (Nat.sub_pos_of_lt hlt)).symm⟩
      simp only [hk, List.take_succ_cons, List.append_assoc, List.singleton_append,
        List.length_cons, VsnprintfAux.mk.injEq, and_true]
      exact ⟨by rw [show aux.maxLength - (aux.length + 1) = k by omega], by omega⟩
    · -- the buffer is full: only the count goes on
      rw [ih _ (by simp only; omega)]
      simp only [List.length_cons, VsnprintfAux.mk.injEq, and_true]
      constructor
      · rw [Nat.sub_eq_zero_of_le (by omega), Nat.sub_eq_zero_of_le (by omega)]
        simp
      · omega

/-- `vsnprintf` returns the length of the whole output and leaves its first `bufSize - 1`
characters and a NUL in the buffer, nothing when `bufSize` is `0`. -/
theorem vsnprintf_eq (bufSize : Nat) (format : List Char) (args : List Arg) :
    vsnprintf bufSize format args =
      ((vprintf format args).length,
        if 0 < bufSize then (vprintf format args).take (bufSize - 1) ++ ['\x00'] else []) := by
  rw [vsnprintf, foldl_vsnprintfHelper _ _ (by simp)]
  by_cases h : 0 < bufSize
  · simp [h]
  · simp [h]

/-- `%.*d` with a precision of 64 or more: C99 prints at least `p` digits, but the output and
the value `vsnprintf` returns are those of precision 63, whatever `p` is. -/
theorem vsnprintf_precision_capped (bufSize : Nat) (p v : Int) (hp : 64 ≤ p) (hp' : IntRange p)
    (hv : IntRange v) :
    vsnprintf bufSize ['%', '.', '*', 'd'] [.int p, .int v] =
      let out := (if v < 0 then ['-'] else []) ++
        List.replicate (63 - (Nat.digits 10 v.natAbs).length) '0' ++
          ((Nat.digits 10 v.natAbs).map baseD.digit).reverse
      (out.length, if 0 < bufSize then out.take (bufSize - 1) ++ ['\x00'] else []) := by
  have hparse := parseConversion_star_precision p [] [.int v] (by omega) hp'
  have hb : v.bmod 4294967296 = v := bmod_of_intRange hv
  rw [vsnprintf_eq, vprintf_conversion (by simp) (by rw [hparse]), hparse]
  simp only [convert, vaArgInt, readSigned, formatInteger_precision_capped _ _ _ _ _ (by omega : (63 : Int) ≤ p)]
  simp [vprintf.eq_1, hb]

theorem vsnprintf_precision_capped_sample :
    vsnprintf 5 ['%', '.', '*', 'd'] [.int 100, .int (-7)] = (64, ['-', '0', '0', '0', '\x00']) := by
  rw [vsnprintf_precision_capped 5 100 (-7) (by decide) (by decide) (by decide)]
  simp [baseD, IntegerBase.digit]

end Pintos.Lib
