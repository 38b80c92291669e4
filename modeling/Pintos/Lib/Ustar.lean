import Mathlib
import Pintos.Lib.Stdio

/-! The ustar archive headers of lib/ustar.c, as the 512 bytes `ustar_make_header` writes and
`ustar_parse_header` reads. File names are C strings, lists of bytes without their NUL; the
octal fields are written by `snprintf`, that is by the `vsnprintf` of lib/stdio.c. -/
namespace Pintos.Lib

/-- The bytes of a string literal. -/
def bytesOf (s : String) : List UInt8 := s.toList.map fun c => c.toNat.toUInt8

/-- `enum ustar_type`. -/
inductive UstarType where
  | regular
  | directory
  | eof
  deriving DecidableEq, Repr

/-- The byte a type is in the `typeflag` field. -/
def UstarType.flag : UstarType → UInt8
  | .regular => 48
  | .directory => 53
  | .eof => 255

/-- A `size`-byte field filled by `strlcpy` or `snprintf` after the header was zeroed: at most
`size - 1` bytes of `s`, then zeros. -/
def cField (size : Nat) (s : List UInt8) : List UInt8 :=
  let t := s.take (size - 1)
  t ++ List.replicate (size - t.length) 0

/-- The `w` low octal digits of a value as ASCII, most significant first. -/
def octal : Nat → Nat → List UInt8
  | 0, _ => []
  | w + 1, v => octal w (v / 8) ++ [(48 + v % 8).toUInt8]

/-- `snprintf (field, size, format, value)` into a field of the zeroed header: the characters
`vsnprintf` leaves in the buffer, its NUL included, then the zeros of the `memset`. -/
def snprintfField (size : Nat) (format : List Char) (value : Nat) : List UInt8 :=
  let written := (vsnprintf size format [.int value]).2.map fun c => c.toNat.toUInt8
  written ++ List.replicate (size - written.length) 0

/-- `calculate_chksum`: the sum of the header's bytes, with the `chksum` field counted as
spaces. -/
def calculateChksum (h : List UInt8) : Nat :=
  ((List.range 512).map fun i => if 148 ≤ i ∧ i < 156 then 32 else (h.getD i 0).toNat).sum

/-- The loop of `strip_antisocial_prefixes`: drop a leading `/`, `./` or `../` while there is
one. -/
def stripLoop : List UInt8 → List UInt8
  | [] => []
  | c :: rest =>
    if c = 47 then stripLoop rest
    else
      match rest with
      | d :: rest' =>
        if c = 46 ∧ d = 47 then stripLoop rest'
        else
          match rest' with
          | e :: rest'' => if c = 46 ∧ d = 46 ∧ e = 47 then stripLoop rest'' else c :: rest
          | [] => c :: rest
      | [] => c :: rest

/-- `strip_antisocial_prefixes`: an empty name or `..` becomes `.`. -/
def stripAntisocialPrefixes (fileName : List UInt8) : List UInt8 :=
  let fileName := stripLoop fileName
  if fileName = [] ∨ fileName = bytesOf ".." then bytesOf "." else fileName

/-- The fields before `chksum`: name, mode, uid, gid, size and mtime. -/
def headerHead (fileName : List UInt8) (type : UstarType) (size : Nat) : List UInt8 :=
  cField 100 fileName ++
    snprintfField 8 ['%', '0', '7', 'o'] (if type = .regular then 0o644 else 0o755) ++
    cField 8 (bytesOf "0000000") ++ cField 8 (bytesOf "0000000") ++
    snprintfField 12 ['%', '0', '1', '1', 'o'] size ++
    snprintfField 12 ['%', '0', '1', '1', 'o'] 1136102400

/-- The fields after `chksum`: typeflag, linkname, magic, version, uname, gname, and the zeroed
devmajor, devminor, prefix and padding. -/
def headerTail (type : UstarType) : List UInt8 :=
  type.flag :: List.replicate 100 0 ++ cField 6 (bytesOf "ustar") ++ bytesOf "00" ++
    cField 32 (bytesOf "root") ++ cField 32 (bytesOf "root") ++ List.replicate 183 0

/-- `ustar_make_header`; `none` where the stripped name is longer than 99 bytes, or where the
`ASSERT` on the type fails. -/
def ustarMakeHeader (fileName : List UInt8) (type : UstarType) (size : Nat) :
    Option (List UInt8) :=
  if type = .eof then none
  else
    let fileName := stripAntisocialPrefixes fileName
    if 99 < fileName.length then none
    else
      let head := headerHead fileName type size
      let chksum := calculateChksum (head ++ List.replicate 8 0 ++ headerTail type)
      some (head ++ snprintfField 8 ['%', '0', '7', 'o'] chksum ++ headerTail type)

/-- `parse_octal_field` from offset `ofs`, with `value` read so far; `unsigned long` is 32
bits. -/
def parseOctalField : List UInt8 → Nat → Nat → Option Nat
  | [], _, _ => none
  | c :: s, ofs, value =>
    if 48 ≤ c ∧ c ≤ 55 then
      if 0x1FFFFFFF < value then none else parseOctalField s (ofs + 1) (c.toNat - 48 + value * 8)
    else if c = 32 ∨ c = 0 then (if 0 < ofs then some value else none)
    else none

/-- `ustar_parse_header`: the file name (`none` for the null pointer), type and size, or the
error message. -/
def ustarParseHeader (h : List UInt8) : Except String (Option (List UInt8) × UstarType × Nat) :=
  if h.all (· == 0) then .ok (none, .eof, 0)
  else if h.extract 257 263 ≠ cField 6 (bytesOf "ustar") then .error "not a ustar archive"
  else if h.getD 263 0 ≠ 48 ∨ h.getD 264 0 ≠ 48 then .error "invalid ustar version"
  else
    match parseOctalField (h.extract 148 156) 0 0 with
    | none => .error "corrupt chksum field"
    | some chksum =>
      if chksum ≠ calculateChksum h then .error "checksum mismatch"
      else if h.getD 99 0 ≠ 0 ∨ h.getD 345 0 ≠ 0 then .error "file name too long"
      else if h.getD 156 0 ≠ UstarType.regular.flag ∧ h.getD 156 0 ≠ UstarType.directory.flag then
        .error "unimplemented file type"
      else
        let type := if h.getD 156 0 = UstarType.regular.flag then UstarType.regular else .directory
        let size : Except String Nat :=
          if type = .regular then
            match parseOctalField (h.extract 124 136) 0 0 with
            | none => .error "corrupt file size field"
            | some size => if 0x7FFFFFFF < size then .error "file too large" else .ok size
          else .ok 0
        size.map fun size =>
          (some (stripAntisocialPrefixes ((h.take 100).takeWhile (· != 0))), type, size)

section Fields

variable {n w v ofs : Nat} {s a c t : List UInt8}

@[simp] theorem length_bytesOf (s : String) : (bytesOf s).length = s.length := by
  simp [bytesOf, String.length_toList]

theorem length_cField (hn : 0 < n) (s : List UInt8) : (cField n s).length = n := by
  simp only [cField, List.length_append, List.length_take, List.length_replicate]
  omega

@[simp] theorem length_octal (w v : Nat) : (octal w v).length = w := by
  induction w generalizing v with
  | zero => rfl
  | succ w ih => simp [octal, ih]

theorem cField_of_lt (hs : s.length < n) : cField n s = s ++ List.replicate (n - s.length) 0 := by
  rw [cField, List.take_of_length_le (by omega)]

theorem cField_octal (w v : Nat) : cField (w + 1) (octal w v) = octal w v ++ [0] := by
  rw [cField_of_lt (by simp), length_octal, Nat.add_sub_cancel_left, List.replicate_one]

theorem baseO_digit_byte (k : Nat) : (baseO.digit k).toNat.toUInt8 = (48 + k % 8).toUInt8 := by
  simp only [IntegerBase.digit, baseO, List.get_eq_getElem]
  obtain h | h | h | h | h | h | h | h : k % 8 = 0 ∨ k % 8 = 1 ∨ k % 8 = 2 ∨ k % 8 = 3 ∨
      k % 8 = 4 ∨ k % 8 = 5 ∨ k % 8 = 6 ∨ k % 8 = 7 := by omega
  all_goals simp [h]

/-- `vsnprintf`'s digits of a value below `8 ^ w`, with zeros in front up to `w`, are its `w`
octal digits. -/
theorem padded_showNat_octal (w v : Nat) (hv : v < 8 ^ w) :
    (List.replicate (w - (Kit.showNat 8 baseO.digit v).length) '0' ++
      Kit.showNat 8 baseO.digit v).map (fun c => c.toNat.toUInt8) = octal w v := by
  induction w generalizing v with
  | zero =>
    rw [Nat.pow_zero, Nat.lt_one_iff] at hv
    subst hv
    rfl
  | succ w ih =>
    have hdiv : v / 8 < 8 ^ w := by rw [Nat.pow_succ] at hv; omega
    rcases Nat.eq_zero_or_pos v with rfl | hpos
    · rw [octal, ← ih 0 (by positivity)]
      simp [Kit.showNat, List.replicate_succ']
    · have hshow : Kit.showNat 8 baseO.digit v =
          Kit.showNat 8 baseO.digit (v / 8) ++ [baseO.digit (v % 8)] := by
        simp only [Kit.showNat, Nat.digits_def' (show 1 < 8 by decide) hpos, List.map_cons,
          List.reverse_cons]
      rw [octal, ← ih _ hdiv, hshow, List.length_append, List.length_singleton,
        Nat.add_sub_add_right, ← List.append_assoc, List.map_append, List.map_singleton,
        baseO_digit_byte, Nat.mod_mod]

/-- `%0wo` of a value below `2 ^ 32`, as `vprintf` reads it from an `unsigned int`: its digits,
zeros in front up to the width. -/
theorem vprintf_octal {format : List Char} {w v : Nat}
    (hc : parseConversion format [.int v] = (⟨{ zero := true }, w, -1, .int⟩, ['o'], [.int v]))
    (hf : format.head? ≠ some '%') (hw : 0 < w) (h32 : v < 2 ^ 32) :
    vprintf ('%' :: format) [.int v] =
      List.replicate (w - (Kit.showNat 8 baseO.digit v).length) '0' ++
        Kit.showNat 8 baseO.digit v := by
  have hread : readUnsigned .int (v : Int) = v := by
    simp only [readUnsigned, toUnsigned]
    rw [Int.emod_eq_of_lt (by omega) (by omega), Int.toNat_natCast]
  rw [vprintf_conversion hf (by rw [hc]), hc]
  simp only [convert, vaArgInt, hread, vprintf.eq_1, List.append_nil]
  have hbase : baseO.base = 8 := rfl
  have hx : baseO.x = none := rfl
  rw [formatInteger_eq_fmtInt _ _ _ _ _ rfl (by simp) (by simp) (by simp), hbase, hx,
    Kit.fmtInt_zeroPad rfl rfl rfl (by simp [specOf]) (by simpa [specOf] using hw)]
  rfl

theorem length_snprintfField (hn : 0 < n) (format : List Char) (v : Nat) :
    (snprintfField n format v).length = n := by
  have hle : ((vsnprintf n format [.int v]).2.map fun c => c.toNat.toUInt8).length ≤ n := by
    rw [vsnprintf_eq, if_pos hn]
    simp only [List.length_map, List.length_append, List.length_take, List.length_singleton]
    omega
  simp only [snprintfField, List.length_append, List.length_replicate]
  omega

/-- `snprintf` of `%0wo` into a field of `w + 1` bytes writes the value's `w` octal digits and
the NUL. -/
theorem snprintfField_octal {format : List Char} {w v : Nat}
    (hc : parseConversion format [.int v] = (⟨{ zero := true }, w, -1, .int⟩, ['o'], [.int v]))
    (hf : format.head? ≠ some '%') (hw : 0 < w) (hv : v < 8 ^ w) (h32 : v < 2 ^ 32) :
    snprintfField (w + 1) ('%' :: format) v = cField (w + 1) (octal w v) := by
  have hlen : (Kit.showNat 8 baseO.digit v).length ≤ w := by
    simp only [Kit.showNat, List.length_reverse, List.length_map]
    exact (Nat.digits_length_le_iff (by decide) v).mpr hv
  have hprinted : (vprintf ('%' :: format) [.int v]).length = w := by
    rw [vprintf_octal hc hf hw h32, List.length_append, List.length_replicate]
    omega
  rw [snprintfField, vsnprintf_eq, if_pos (Nat.succ_pos w), Nat.add_sub_cancel,
    List.take_of_length_le hprinted.le, List.map_append, vprintf_octal hc hf hw h32,
    padded_showNat_octal w v hv, cField_octal]
  simp

theorem parseOctalField_octal :
    ∀ (w v ofs : Nat) (rest : List UInt8), v < 8 ^ w → v ≤ 0xFFFFFFFF →
      parseOctalField (octal w v ++ rest) ofs 0 = parseOctalField rest (ofs + w) v
  | 0, v, ofs, rest, hv, _ => by
    rw [Nat.pow_zero, Nat.lt_one_iff] at hv
    subst hv
    rfl
  | w + 1, v, ofs, rest, hv, hov => by
    have hdiv : v / 8 < 8 ^ w := by rw [Nat.pow_succ] at hv; omega
    rw [octal, List.append_assoc, List.singleton_append,
      parseOctalField_octal w (v / 8) ofs _ hdiv (by omega)]
    have hd : (48 + v % 8).toUInt8.toNat = 48 + v % 8 := by
      simp only [Nat.toUInt8_eq, UInt8.toNat_ofNat']
      omega
    have hdigit : 48 ≤ (48 + v % 8).toUInt8 ∧ (48 + v % 8).toUInt8 ≤ 55 := by
      rw [UInt8.le_iff_toNat_le, UInt8.le_iff_toNat_le, hd]
      exact ⟨by simp, by simp; omega⟩
    rw [parseOctalField, if_pos hdigit, if_neg (by omega), hd,
      show 48 + v % 8 - 48 + v / 8 * 8 = v by omega, Nat.add_assoc]

theorem parseOctalField_nul (h : 0 < ofs) (rest : List UInt8) :
    parseOctalField (0 :: rest) ofs v = some v := by
  simp [parseOctalField, h]

theorem parseOctalField_cField (hw : 0 < w) (hv : v < 8 ^ w) (hov : v ≤ 0xFFFFFFFF) :
    parseOctalField (cField (w + 1) (octal w v)) 0 0 = some v := by
  rw [cField_octal, parseOctalField_octal w v 0 [0] hv hov, parseOctalField_nul (by omega)]

theorem calculateChksum_field (ha : a.length = 148) (hc : c.length = 8) {c' : List UInt8}
    (hc' : c'.length = 8) : calculateChksum (a ++ c ++ t) = calculateChksum (a ++ c' ++ t) := by
  unfold calculateChksum
  apply congrArg List.sum
  apply List.map_congr_left
  intro i _
  split
  · rfl
  · -- outside the field both headers hold the same byte
    simp only [List.getD_eq_getElem?_getD, List.append_assoc]
    by_cases hi : i < 148
    · rw [List.getElem?_append_left (by omega), List.getElem?_append_left (by omega)]
    · rw [List.getElem?_append_right (by omega), List.getElem?_append_right (by omega),
        List.getElem?_append_right (by omega), List.getElem?_append_right (by omega), hc, hc']

theorem calculateChksum_lt (h : List UInt8) : calculateChksum h < 8 ^ 7 := by
  have hle : calculateChksum h ≤ 512 * 255 := by
    have hbound := List.sum_le_card_nsmul
      ((List.range 512).map fun i => if 148 ≤ i ∧ i < 156 then 32 else (h.getD i 0).toNat) 255
      (by
        intro x hx
        obtain ⟨i, -, rfl⟩ := List.mem_map.mp hx
        split
        · omega
        · exact Nat.le_of_lt_succ (h.getD i 0).toNat_lt)
    rw [List.length_map, List.length_range] at hbound
    exact hbound
  omega

end Fields

section Strip

variable {l : List UInt8}

theorem stripLoop_suffix (l : List UInt8) : stripLoop l <:+ l := by
  fun_induction stripLoop l with
  | case2 rest ih => exact ih.trans (List.suffix_cons _ _)
  | case3 c _ d rest _ ih => exact ih.trans ((List.suffix_cons _ _).trans (List.suffix_cons _ _))
  | case4 c _ d _ e rest _ ih =>
    exact ih.trans ((List.suffix_cons _ _).trans ((List.suffix_cons _ _).trans (List.suffix_cons _ _)))
  | _ => exact List.suffix_refl _

theorem stripLoop_stripLoop (l : List UInt8) : stripLoop (stripLoop l) = stripLoop l := by
  fun_induction stripLoop l with
  | case2 rest ih => exact ih
  | case3 c _ d rest _ ih => exact ih
  | case4 c _ d _ e rest _ ih => exact ih
  | case5 c hc d hcd e rest hcde => simp only [stripLoop, hc, hcd, hcde, if_false]
  | case6 c hc d hcd => simp only [stripLoop, hc, hcd, if_false]
  | case7 c hc => simp only [stripLoop, hc, if_false]
  | case1 => rfl

theorem stripAntisocialPrefixes_idem (l : List UInt8) :
    stripAntisocialPrefixes (stripAntisocialPrefixes l) = stripAntisocialPrefixes l := by
  dsimp only [stripAntisocialPrefixes]
  by_cases h : stripLoop l = [] ∨ stripLoop l = bytesOf ".."
  · rw [if_pos h]
    rfl
  · rw [if_neg h, stripLoop_stripLoop, if_neg h]

theorem zero_not_mem_strip (h : 0 ∉ l) : 0 ∉ stripAntisocialPrefixes l := by
  dsimp only [stripAntisocialPrefixes]
  split
  · decide
  · exact fun h0 => h ((stripLoop_suffix l).subset h0)

end Strip

section Header

variable {name a c t : List UInt8} {type : UstarType} {size i j : Nat}

theorem length_headerHead (name : List UInt8) (type : UstarType) (size : Nat) :
    (headerHead name type size).length = 148 := by
  simp [headerHead, length_cField, length_snprintfField]

set_option maxRecDepth 4000 in
theorem headerTail_fields (ht : type ≠ .eof) :
    (headerTail type).length = 356 ∧ (headerTail type).getD 0 0 = type.flag ∧
      (headerTail type).extract 101 107 = cField 6 (bytesOf "ustar") ∧
      (headerTail type).getD 107 0 = 48 ∧ (headerTail type).getD 108 0 = 48 ∧
      (headerTail type).getD 189 0 = 0 := by
  cases type
  · decide
  · decide
  · exact absurd rfl ht

/-- A header is 148 bytes of fields, the 8-byte `chksum` field, and the rest: reads past
`chksum`. -/
theorem getD_header_tail (ha : a.length = 148) (hc : c.length = 8) (hi : 156 ≤ i) :
    (a ++ c ++ t).getD i 0 = t.getD (i - 156) 0 := by
  simp only [List.getD_eq_getElem?_getD, List.append_assoc]
  rw [List.getElem?_append_right (by omega), List.getElem?_append_right (by omega), ha, hc,
    Nat.sub_sub]

theorem extract_header_tail (ha : a.length = 148) (hc : c.length = 8) (hi : 156 ≤ i) :
    (a ++ c ++ t).extract i j = t.extract (i - 156) (j - 156) := by
  have hdrop : (a ++ c ++ t).drop i = t.drop (i - 156) := by
    rw [show i = 156 + (i - 156) by omega, ← List.drop_drop,
      List.drop_left' (by simp only [List.length_append, ha, hc]), Nat.add_sub_cancel_left]
  rw [List.extract_eq_take_drop, List.extract_eq_take_drop, hdrop, show j - i = j - 156 - (i - 156) by omega]

theorem extract_header_chksum (ha : a.length = 148) (hc : c.length = 8) :
    (a ++ c ++ t).extract 148 156 = c := by
  rw [List.extract_eq_take_drop, List.append_assoc, List.drop_left' ha,
    List.take_left' (by omega)]

theorem extract_header_head (ha : a.length = 148) (hij : i ≤ j) (hj : j ≤ 148) :
    (a ++ c ++ t).extract i j = a.extract i j := by
  rw [List.extract_eq_take_drop, List.extract_eq_take_drop, List.append_assoc,
    List.drop_append_of_le_length (by omega), List.take_append_of_le_length (by simp; omega)]

theorem getD_header_head (ha : a.length = 148) (hi : i < 148) :
    (a ++ c ++ t).getD i 0 = a.getD i 0 := by
  simp only [List.getD_eq_getElem?_getD, List.append_assoc]
  rw [List.getElem?_append_left (by omega)]

theorem take_header_head (ha : a.length = 148) : (a ++ c ++ t).take 100 = a.take 100 := by
  rw [List.append_assoc, List.take_append_of_le_length (by omega)]

theorem getD_of_all_zero {l : List UInt8} (h : l.all (· == 0) = true) (i : Nat) :
    l.getD i 0 = 0 := by
  rw [List.getD_eq_getElem?_getD]
  cases hx : l[i]? with
  | none => rfl
  | some x => simpa using List.all_eq_true.mp h x (List.mem_of_getElem? hx)

theorem getD_cField (hlen : name.length ≤ i) (hi : i < n) : (cField n name).getD i 0 = 0 := by
  rw [cField_of_lt (by omega), List.getD_eq_getElem?_getD, List.getElem?_append_right hlen,
    List.getElem?_replicate, if_pos (by omega), Option.getD_some]

theorem takeWhile_cField (hnul : 0 ∉ name) (hlen : name.length < n) :
    (cField n name).takeWhile (· != 0) = name := by
  have hpos : ∀ x ∈ name, (x != 0) = true := fun x hx => by
    simpa using fun h : x = 0 => hnul (h ▸ hx)
  obtain ⟨k, hk⟩ : ∃ k, n - name.length = k + 1 := ⟨n - name.length - 1, by omega⟩
  rw [cField_of_lt hlen, List.takeWhile_append_of_pos hpos, hk, List.replicate_succ,
    List.takeWhile_cons_of_neg (by decide), List.append_nil]

theorem headerHead_name (name : List UInt8) (type : UstarType) (size : Nat) :
    (headerHead name type size).take 100 = cField 100 name := by
  simp only [headerHead, List.append_assoc]
  exact List.take_left' (length_cField (by decide) _)

theorem headerHead_size (name : List UInt8) (type : UstarType) (size : Nat) :
    (headerHead name type size).extract 124 136 = snprintfField 12 ['%', '0', '1', '1', 'o'] size := by
  have hsplit : headerHead name type size =
      (cField 100 name ++
        snprintfField 8 ['%', '0', '7', 'o'] (if type = .regular then 0o644 else 0o755) ++
        cField 8 (bytesOf "0000000") ++ cField 8 (bytesOf "0000000")) ++
      (snprintfField 12 ['%', '0', '1', '1', 'o'] size ++
        snprintfField 12 ['%', '0', '1', '1', 'o'] 1136102400) := by
    simp only [headerHead, List.append_assoc]
  rw [hsplit, List.extract_eq_take_drop,
    List.drop_left' (by simp [length_cField, length_snprintfField]),
    List.take_left' (length_snprintfField (by decide) _ _)]

/-- A header `ustar_make_header` writes parses back as the stripped name, the type, and the
size of a regular file. -/
theorem ustarParseHeader_make (ht : type ≠ .eof) (hnul : 0 ∉ name)
    (hname : (stripAntisocialPrefixes name).length ≤ 99) (hsize : size ≤ 0x7FFFFFFF) :
    ∃ h, ustarMakeHeader name type size = some h ∧ h.length = 512 ∧
      ustarParseHeader h =
        .ok (some (stripAntisocialPrefixes name), type, if type = .regular then size else 0) := by
  obtain ⟨hlt, hflag, hmagic, hv1, hv2, hprefix⟩ := headerTail_fields ht
  set n := stripAntisocialPrefixes name with hn
  set head := headerHead n type size
  set chk := calculateChksum (head ++ List.replicate 8 0 ++ headerTail type)
  have hhead : head.length = 148 := length_headerHead n type size
  have hc : (cField 8 (octal 7 chk)).length = 8 := length_cField (by decide) _
  have hfield : snprintfField 8 ['%', '0', '7', 'o'] chk = cField 8 (octal 7 chk) :=
    snprintfField_octal rfl (by decide) (by decide) (calculateChksum_lt _)
      ((calculateChksum_lt _).trans (by decide))
  have hmake : ustarMakeHeader name type size =
      some (head ++ cField 8 (octal 7 chk) ++ headerTail type) := by
    simp only [ustarMakeHeader, if_neg ht, ← hn, if_neg (show ¬ 99 < n.length by omega)]
    rw [← hfield]
  refine ⟨_, hmake, by simp only [List.length_append, hhead, hc, hlt], ?_⟩
  have h263 : (head ++ cField 8 (octal 7 chk) ++ headerTail type).getD 263 0 = 48 :=
    (getD_header_tail hhead hc (by omega)).trans hv1
  have h264 : (head ++ cField 8 (octal 7 chk) ++ headerTail type).getD 264 0 = 48 :=
    (getD_header_tail hhead hc (by omega)).trans hv2
  have hall : (head ++ cField 8 (octal 7 chk) ++ headerTail type).all (· == 0) = false :=
    Bool.eq_false_iff.mpr fun h => absurd ((getD_of_all_zero h 263).symm.trans h263) (by decide)
  have hmag : (head ++ cField 8 (octal 7 chk) ++ headerTail type).extract 257 263 =
      cField 6 (bytesOf "ustar") := by
    rw [extract_header_tail hhead hc (by omega)]
    exact hmagic
  have hck := extract_header_chksum (t := headerTail type) hhead hc
  have hsum : calculateChksum (head ++ cField 8 (octal 7 chk) ++ headerTail type) = chk :=
    calculateChksum_field hhead hc (by simp)
  have h99 : (head ++ cField 8 (octal 7 chk) ++ headerTail type).getD 99 0 = 0 := by
    have htake : head.getD 99 0 = (head.take 100).getD 99 0 := by
      simp only [List.getD_eq_getElem?_getD, List.getElem?_take, if_pos (show 99 < 100 by omega)]
    rw [getD_header_head hhead (by omega), htake, headerHead_name, getD_cField (by omega) (by omega)]
  have h345 : (head ++ cField 8 (octal 7 chk) ++ headerTail type).getD 345 0 = 0 :=
    (getD_header_tail hhead hc (by omega)).trans hprefix
  have h156 : (head ++ cField 8 (octal 7 chk) ++ headerTail type).getD 156 0 = type.flag :=
    (getD_header_tail hhead hc (by omega)).trans hflag
  have hsz : (head ++ cField 8 (octal 7 chk) ++ headerTail type).extract 124 136 =
      snprintfField 12 ['%', '0', '1', '1', 'o'] size :=
    (extract_header_head hhead (by omega) (by omega)).trans (headerHead_size n type size)
  have hname' : ((head ++ cField 8 (octal 7 chk) ++ headerTail type).take 100).takeWhile (· != 0) = n := by
    rw [take_header_head hhead, headerHead_name, takeWhile_cField (zero_not_mem_strip hnul) (show n.length < 100 by omega)]
  have hck' : parseOctalField (cField 8 (octal 7 chk)) 0 0 = some chk :=
    parseOctalField_cField (by omega) (calculateChksum_lt _)
      (Nat.le_of_lt ((calculateChksum_lt _).trans (by decide)))
  have hsz' : parseOctalField (snprintfField 12 ['%', '0', '1', '1', 'o'] size) 0 0 = some size := by
    rw [snprintfField_octal rfl (by decide) (by decide) (by omega) (by omega)]
    exact parseOctalField_cField (by omega) (by omega) (by omega)
  have hidem : stripAntisocialPrefixes n = n := stripAntisocialPrefixes_idem name
  simp only [ustarParseHeader, hall, hmag, h263, h264, hck, hck', hsum, h99, h345, h156, hsz, hsz',
    hname', hidem, Bool.false_eq_true, ne_eq, not_true_eq_false, or_self, if_false]
  cases type with
  | regular => simp only [if_true, if_neg (Nat.not_lt.mpr hsize)]; rfl
  | directory => rfl
  | eof => exact absurd rfl ht

/-- For the two types a header can name, `ustar_make_header` refuses a name exactly when,
stripped, it is longer than 99 bytes, and a header it makes parses back to the stripped name,
the type, and the size (0 for a directory). -/
theorem ustar_header_round_trip (ht : type ≠ .eof) (hnul : 0 ∉ name) (hsize : size ≤ 0x7FFFFFFF) :
    (ustarMakeHeader name type size = none ↔ 99 < (stripAntisocialPrefixes name).length) ∧
    ((stripAntisocialPrefixes name).length ≤ 99 →
      ∃ h, ustarMakeHeader name type size = some h ∧
        ustarParseHeader h =
          .ok (some (stripAntisocialPrefixes name), type, if type = .regular then size else 0)) := by
  refine ⟨⟨fun hnone => ?_, fun hlong => ?_⟩, fun hname => ?_⟩
  · by_contra hshort
    obtain ⟨h, hmake, -⟩ := ustarParseHeader_make ht hnul (by omega) hsize
    rw [hmake] at hnone
    cases hnone
  · simp only [ustarMakeHeader, if_neg ht, if_pos hlong]
  · obtain ⟨h, hmake, -, hparse⟩ := ustarParseHeader_make ht hnul hname hsize
    exact ⟨h, hmake, hparse⟩

theorem ustar_header_round_trip_sample :
    UstarType.directory ≠ .eof ∧ 0 ∉ bytesOf "a/b" ∧ 4096 ≤ 0x7FFFFFFF ∧
      ((ustarMakeHeader (bytesOf "a/b") .directory 4096 = none ↔
        99 < (stripAntisocialPrefixes (bytesOf "a/b")).length) ∧
      ((stripAntisocialPrefixes (bytesOf "a/b")).length ≤ 99 →
        ∃ h, ustarMakeHeader (bytesOf "a/b") .directory 4096 = some h ∧
          ustarParseHeader h = .ok (some (stripAntisocialPrefixes (bytesOf "a/b")), .directory,
            if UstarType.directory = .regular then 4096 else 0))) :=
  ⟨by decide, by decide, by decide,
    @ustar_header_round_trip (bytesOf "a/b") .directory 4096 (by decide) (by decide) (by decide)⟩

end Header

end Pintos.Lib
