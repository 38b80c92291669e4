import Mathlib.Data.List.Basic
import Mathlib.Logic.Function.Basic

/-! lib/string.c: `memmove`, which copies between regions that may overlap by choosing the
direction of its loop, and `strtok_r`, which cuts a string into tokens in place, asking `strchr`
what a delimiter is. Memory is a map from addresses to bytes; a string is the bytes of a buffer
from an offset up to its NUL. -/
namespace Pintos.Lib

/-! ### `memmove` -/

section Memmove

/-- The loop of `memmove` for `dst < src`: `while (size-- > 0) *dst++ = *src++;`. It returns
the memory and where `dst` ends. -/
def moveForward (mem : Nat → UInt8) (dst src : Nat) : Nat → (Nat → UInt8) × Nat
  | 0 => (mem, dst)
  | size + 1 => moveForward (Function.update mem dst (mem src)) (dst + 1) (src + 1) size

/-- The other loop, entered with both pointers past their regions:
`while (size-- > 0) *--dst = *--src;`. -/
def moveBackward (mem : Nat → UInt8) (dst src : Nat) : Nat → (Nat → UInt8) × Nat
  | 0 => (mem, dst)
  | size + 1 =>
    moveBackward (Function.update mem (dst - 1) (mem (src - 1))) (dst - 1) (src - 1) size

/-- `memmove (dst, src, size)`: the memory after it and the pointer it returns, which is `dst`
as its loop leaves it; `none` where an `ASSERT` fails. -/
def memmove (mem : Nat → UInt8) (dst src size : Nat) : Option ((Nat → UInt8) × Nat) :=
  if (dst ≠ 0 ∨ size = 0) ∧ (src ≠ 0 ∨ size = 0) then
    some (if dst < src then moveForward mem dst src size
      else moveBackward mem (dst + size) (src + size) size)
  else none

/-- What a move of `size` bytes from `src` to `dst` leaves: the region at `dst` holds the bytes
the region at `src` held before, and every other address is as it was. -/
def Moved (mem mem' : Nat → UInt8) (dst src size : Nat) : Prop :=
  ∀ a, mem' a = if dst ≤ a ∧ a < dst + size then mem (src + (a - dst)) else mem a

/-- Copying forward reads each source byte before a write reaches it: the write of step `i`
goes to `dst + i`, below `src + i` and every source byte still to be read. -/
theorem moveForward_spec {dst src : Nat} (h : dst < src) (mem : Nat → UInt8) (n : Nat) :
    Moved mem (moveForward mem dst src n).1 dst src n ∧ (moveForward mem dst src n).2 = dst + n := by
  induction n generalizing mem dst src with
  | zero =>
    refine ⟨fun a => ?_, rfl⟩
    rw [if_neg (by omega)]
    rfl
  | succ n ih =>
    obtain ⟨hm, hd⟩ := ih (show dst + 1 < src + 1 by omega) (Function.update mem dst (mem src))
    refine ⟨fun a => ?_, by rw [moveForward, hd]; omega⟩
    rw [moveForward, hm a]
    rcases Nat.lt_trichotomy a dst with ha | rfl | ha
    · rw [if_neg (by omega), if_neg (by omega), Function.update_of_ne (by omega)]
    · rw [if_neg (by omega), if_pos (by omega), Function.update_self, Nat.sub_self, Nat.add_zero]
    · by_cases hin : a < dst + 1 + n
      · rw [if_pos (by omega), if_pos (by omega), Function.update_of_ne (by omega),
          show src + 1 + (a - (dst + 1)) = src + (a - dst) by omega]
      · rw [if_neg (by omega), if_neg (by omega), Function.update_of_ne (by omega)]

/-- Copying backward reads each source byte before a write reaches it: the write of the step
for `i` goes to `dst + i`, above `src + i` and every source byte still to be read. -/
theorem moveBackward_spec {dst src : Nat} (h : src ≤ dst) (mem : Nat → UInt8) (n : Nat) :
    Moved mem (moveBackward mem (dst + n) (src + n) n).1 dst src n ∧
      (moveBackward mem (dst + n) (src + n) n).2 = dst := by
  induction n generalizing mem with
  | zero =>
    refine ⟨fun a => ?_, rfl⟩
    rw [if_neg (by omega)]
    rfl
  | succ n ih =>
    have hstep : moveBackward mem (dst + (n + 1)) (src + (n + 1)) (n + 1) =
        moveBackward (Function.update mem (dst + n) (mem (src + n))) (dst + n) (src + n) n := by
      rw [moveBackward, show dst + (n + 1) - 1 = dst + n by omega,
        show src + (n + 1) - 1 = src + n by omega]
    obtain ⟨hm, hd⟩ := ih (Function.update mem (dst + n) (mem (src + n)))
    refine ⟨fun a => ?_, by rw [hstep, hd]⟩
    rw [hstep, hm a]
    by_cases hin : dst ≤ a ∧ a < dst + n
    · rw [if_pos hin, if_pos (by omega), Function.update_of_ne (by omega)]
    · by_cases ha : a = dst + n
      · rw [if_neg hin, if_pos (by omega), ha, Function.update_self,
          show dst + n - dst = n by omega]
      · rw [if_neg hin, if_neg (by omega), Function.update_of_ne ha]

/-- Whatever the overlap, `memmove` leaves the region at `dst` holding what the region at `src`
held and changes nothing else; it returns `dst` only from the backward copy: the forward copy
advances `dst` and returns it past the region. -/
theorem memmove_moves_bytes (mem : Nat → UInt8) (dst src size : Nat) (hd : dst ≠ 0 ∨ size = 0)
    (hs : src ≠ 0 ∨ size = 0) :
    ∃ mem' r, memmove mem dst src size = some (mem', r) ∧ Moved mem mem' dst src size ∧
      r = if dst < src then dst + size else dst := by
  unfold memmove
  rw [if_pos ⟨hd, hs⟩]
  by_cases h : dst < src
  · obtain ⟨hm, hr⟩ := moveForward_spec h mem size
    refine ⟨_, _, by rw [if_pos h], hm, ?_⟩
    rw [if_pos h, hr]
  · obtain ⟨hm, hr⟩ := moveBackward_spec (Nat.le_of_not_lt h) mem size
    refine ⟨_, _, by rw [if_neg h], hm, ?_⟩
    rw [if_neg h, hr]

/-- Four bytes moved down from 32 to 16: they arrive, and the pointer returned is 20. -/
theorem memmove_moves_bytes_sample :
    ∃ mem', memmove (fun a => a.toUInt8) 16 32 4 = some (mem', 20) ∧ mem' 16 = 32 ∧ mem' 19 = 35 ∧
      mem' 20 = 20 := by
  obtain ⟨mem', r, h, hm, hr⟩ := memmove_moves_bytes (fun a => a.toUInt8) 16 32 4 (by decide)
    (by decide)
  rw [if_pos (by decide)] at hr
  subst hr
  refine ⟨mem', h, ?_, ?_, ?_⟩
  · rw [hm 16]
    decide
  · rw [hm 19]
    decide
  · rw [hm 20]
    decide

end Memmove

/-! ### `strchr` and `strtok_r` -/

section Strtok

/-- `strchr (string, c)` over the bytes of STRING up to and with its NUL: the offset of the first
`c`, which is the terminator when `c` is NUL; `none` for a null pointer. -/
def strchr : List UInt8 → UInt8 → Option Nat
  | [], _ => none
  | b :: string, c => if b = c then some 0 else if b = 0 then none else (strchr string c).map (· + 1)

/-- What a call of `strtok_r` leaves: the buffer, the token it returns (`none` for NULL) and
`*save_ptr`, the last two as offsets into the buffer. -/
structure Strtok where
  buf : List UInt8
  tok : Option Nat
  save : Nat

/-- The bytes at the front of L that the first loop of `strtok_r` skips:
`while (strchr (delimiters, *s) != NULL) { if (*s == '\0') ... return NULL; s++; }`. -/
def skipDelims (delims : List UInt8) : List UInt8 → Nat
  | [] => 0
  | c :: l => if (strchr delims c).isSome ∧ c ≠ 0 then skipDelims delims l + 1 else 0

/-- The bytes of the token at the front of L: `while (strchr (delimiters, *s) == NULL) s++;`. -/
def spanToken (delims : List UInt8) : List UInt8 → Nat
  | [] => 0
  | c :: l => if (strchr delims c).isNone then spanToken delims l + 1 else 0

/-- `strtok_r (s, delimiters, save_ptr)` with `s` at offset `pos` of `buf`, or with a null `s`
and `*save_ptr` there; DELIMITERS is its bytes with the NUL. Reading past the buffer reads a
NUL. -/
def strtokR (delims buf : List UInt8) (pos : Nat) : Strtok :=
  let s := pos + skipDelims delims (buf.drop pos)
  -- the first loop stops at a byte `strchr` finds only when that byte is the NUL
  if (strchr delims (buf.getD s 0)).isSome then ⟨buf, none, s⟩
  else
    let e := s + spanToken delims (buf.drop s)
    if buf.getD e 0 ≠ 0 then ⟨buf.set e 0, some s, e + 1⟩ else ⟨buf, some s, e⟩

/-- The loop `for (token = strtok_r (s, D, &p); ...; token = strtok_r (NULL, D, &p))` from the
state ST: the state after the first call and `k` more. -/
def strtokCalls (delims : List UInt8) (st : Strtok) : Nat → Strtok
  | 0 => strtokR delims st.buf st.save
  | k + 1 => strtokCalls delims (strtokR delims st.buf st.save) k

/-- The tokens of S by the delimiter bytes D: its maximal non-empty runs without a byte of D. -/
def tokens (D s : List UInt8) : List (List UInt8) :=
  (s.splitOnP fun c => decide (c ∈ D)).filter (!·.isEmpty)

/-- S with the delimiter that ends each token replaced by a NUL; INTOK says the bytes just
before are a token's. -/
def cutTokens (D : List UInt8) : Bool → List UInt8 → List UInt8
  | _, [] => []
  | inTok, c :: l =>
    if c ∈ D then (if inTok then 0 else c) :: cutTokens D false l else c :: cutTokens D true l

theorem take_succ_append_cons (w : List UInt8) (a : UInt8) (l : List UInt8) :
    (w ++ a :: l).take (w.length + 1) = w ++ [a] := by
  induction w with
  | nil => simp
  | cons x w ih => simp [ih]

variable {D : List UInt8} (hD : 0 ∉ D)
include hD

theorem strchr_isSome (c : UInt8) : (strchr (D ++ [0]) c).isSome = true ↔ c ∈ D ∨ c = 0 := by
  induction D with
  | nil =>
    by_cases hc : (0 : UInt8) = c
    · simp [strchr, hc]
    · simp [strchr, hc, Ne.symm hc]
  | cons b D ih =>
    have hb : b ≠ 0 := fun e => hD (e ▸ List.mem_cons_self)
    simp only [List.cons_append, strchr]
    by_cases hbc : b = c
    · simp [hbc]
    · rw [if_neg hbc, if_neg hb, Option.isSome_map, ih (fun h => hD (List.mem_cons_of_mem b h))]
      simp [Ne.symm hbc]

theorem skipDelims_append {sp : List UInt8} (hsp : ∀ c ∈ sp, c ∈ D) (l : List UInt8) :
    skipDelims (D ++ [0]) (sp ++ l) = sp.length + skipDelims (D ++ [0]) l := by
  induction sp with
  | nil => simp
  | cons c sp ih =>
    have hc := hsp c List.mem_cons_self
    have hc0 : c ≠ 0 := fun e => hD (e ▸ hc)
    rw [List.cons_append, skipDelims, if_pos ⟨(strchr_isSome hD c).mpr (.inl hc), hc0⟩,
      ih fun x hx => hsp x (List.mem_cons_of_mem c hx), List.length_cons]
    omega

theorem skipDelims_of_not_mem {c : UInt8} (hc : c ∉ D) (l : List UInt8) :
    skipDelims (D ++ [0]) (c :: l) = 0 := by
  rw [skipDelims, if_neg]
  rintro ⟨hs, hc0⟩
  rcases (strchr_isSome hD c).mp hs with h | h
  · exact hc h
  · exact hc0 h

theorem spanToken_append {w : List UInt8} (hw : ∀ c ∈ w, c ∉ D ∧ c ≠ 0) (l : List UInt8) :
    spanToken (D ++ [0]) (w ++ l) = w.length + spanToken (D ++ [0]) l := by
  induction w with
  | nil => simp
  | cons c w ih =>
    have hc := hw c List.mem_cons_self
    have hnone : (strchr (D ++ [0]) c).isNone = true := by
      rw [Option.isNone_iff_eq_none, ← Option.not_isSome_iff_eq_none, strchr_isSome hD c]
      rintro (h | h)
      · exact hc.1 h
      · exact hc.2 h
    rw [List.cons_append, spanToken, if_pos hnone, ih fun x hx => hw x (List.mem_cons_of_mem c hx),
      List.length_cons]
    omega

theorem spanToken_of_stop {c : UInt8} (hc : c ∈ D ∨ c = 0) (l : List UInt8) :
    spanToken (D ++ [0]) (c :: l) = 0 := by
  rw [spanToken, if_neg]
  rw [Option.isNone_iff_eq_none, ← Option.not_isSome_iff_eq_none, not_not]
  exact (strchr_isSome hD c).mpr hc

theorem strtokR_none {pre sp post : List UInt8} (hsp : ∀ c ∈ sp, c ∈ D) :
    strtokR (D ++ [0]) (pre ++ sp ++ 0 :: post) pre.length =
      ⟨pre ++ sp ++ 0 :: post, none, pre.length + sp.length⟩ := by
  have hs : skipDelims (D ++ [0]) (sp ++ 0 :: post) = sp.length := by
    rw [skipDelims_append hD hsp, skipDelims_of_not_mem hD hD, Nat.add_zero]
  simp [strtokR, hs, List.getD_eq_getElem?_getD, strchr_isSome hD]

theorem strtokR_last {pre sp w post : List UInt8} (hsp : ∀ c ∈ sp, c ∈ D) (hw : w ≠ [])
    (hw' : ∀ c ∈ w, c ∉ D ∧ c ≠ 0) :
    strtokR (D ++ [0]) (pre ++ sp ++ w ++ 0 :: post) pre.length =
      ⟨pre ++ sp ++ w ++ 0 :: post, some (pre.length + sp.length),
        pre.length + sp.length + w.length⟩ := by
  obtain ⟨c, w, rfl⟩ := List.exists_cons_of_ne_nil hw
  have hc := hw' c List.mem_cons_self
  have hs : skipDelims (D ++ [0]) (sp ++ c :: (w ++ 0 :: post)) = sp.length := by
    rw [skipDelims_append hD hsp, skipDelims_of_not_mem hD hc.1, Nat.add_zero]
  have he : spanToken (D ++ [0]) (c :: (w ++ 0 :: post)) = w.length + 1 := by
    rw [← List.cons_append, spanToken_append hD hw', spanToken_of_stop hD (.inr rfl), Nat.add_zero,
      List.length_cons]
  have hend : pre.length + sp.length + (w.length + 1) = (pre ++ sp ++ c :: w).length := by
    simp only [List.length_append, List.length_cons]
  simp [strtokR, hs, he, List.getD_eq_getElem?_getD, strchr_isSome hD, hc.1, hc.2]
  rw [show pre ++ (sp ++ c :: (w ++ 0 :: post)) = (pre ++ sp ++ c :: w) ++ 0 :: post by simp, hend]
  simp

/-- A token a delimiter ends: returned in place, the delimiter overwritten with a NUL, and
`save_ptr` just past it. -/
theorem strtokR_word {pre sp w post : List UInt8} {d : UInt8} (hsp : ∀ c ∈ sp, c ∈ D)
    (hw : w ≠ []) (hw' : ∀ c ∈ w, c ∉ D ∧ c ≠ 0) (hd : d ∈ D) :
    strtokR (D ++ [0]) (pre ++ sp ++ w ++ d :: post) pre.length =
      ⟨pre ++ sp ++ w ++ 0 :: post, some (pre.length + sp.length),
        pre.length + sp.length + w.length + 1⟩ := by
  obtain ⟨c, w, rfl⟩ := List.exists_cons_of_ne_nil hw
  have hc := hw' c List.mem_cons_self
  have hd0 : d ≠ 0 := fun e => hD (e ▸ hd)
  have hs : skipDelims (D ++ [0]) (sp ++ c :: (w ++ d :: post)) = sp.length := by
    rw [skipDelims_append hD hsp, skipDelims_of_not_mem hD hc.1, Nat.add_zero]
  have he : spanToken (D ++ [0]) (c :: (w ++ d :: post)) = w.length + 1 := by
    rw [← List.cons_append, spanToken_append hD hw', spanToken_of_stop hD (.inl hd), Nat.add_zero,
      List.length_cons]
  have hend : pre.length + sp.length + (w.length + 1) = (pre ++ sp ++ c :: w).length := by
    simp only [List.length_append, List.length_cons]
  have hbuf : pre ++ (sp ++ c :: (w ++ d :: post)) = (pre ++ sp ++ c :: w) ++ d :: post := by simp
  simp [strtokR, hs, he, List.getD_eq_getElem?_getD, strchr_isSome hD, hc.1, hc.2]
  rw [hbuf, hend, if_neg (by simp [hd0]), List.set_append_right _ _ (Nat.le_refl _), Nat.sub_self]
  simp

omit hD in
theorem tokens_delim {c : UInt8} (hc : c ∈ D) (l : List UInt8) : tokens D (c :: l) = tokens D l := by
  simp [tokens, List.splitOnP_cons_eq_if_modifyHead, hc]

omit hD in
theorem tokens_delims {sp : List UInt8} (hsp : ∀ c ∈ sp, c ∈ D) (l : List UInt8) :
    tokens D (sp ++ l) = tokens D l := by
  induction sp with
  | nil => rfl
  | cons c sp ih =>
    rw [List.cons_append, tokens_delim (hsp c List.mem_cons_self), ih fun x hx => hsp x
      (List.mem_cons_of_mem c hx)]

omit hD in
theorem tokens_word {w : List UInt8} {d : UInt8} (hw : w ≠ []) (hw' : ∀ c ∈ w, c ∉ D) (hd : d ∈ D)
    (l : List UInt8) : tokens D (w ++ d :: l) = w :: tokens D l := by
  rw [tokens, List.splitOnP_append_cons_of_forall_mem (by simpa using hw') d (by simpa using hd)]
  simp [tokens, hw]

omit hD in
theorem tokens_last {w : List UInt8} (hw : w ≠ []) (hw' : ∀ c ∈ w, c ∉ D) : tokens D w = [w] := by
  rw [tokens, List.splitOnP_eq_singleton (by simpa using hw')]
  simp [hw]

omit hD in
theorem cutTokens_delims {sp : List UInt8} (hsp : ∀ c ∈ sp, c ∈ D) (l : List UInt8) :
    cutTokens D false (sp ++ l) = sp ++ cutTokens D false l := by
  induction sp with
  | nil => rfl
  | cons c sp ih =>
    rw [List.cons_append, cutTokens, if_pos (hsp c List.mem_cons_self), if_neg Bool.false_ne_true,
      ih fun x hx => hsp x (List.mem_cons_of_mem c hx), List.cons_append]

omit hD in
theorem cutTokens_word {w : List UInt8} (hw : w ≠ []) (hw' : ∀ c ∈ w, c ∉ D) (inTok : Bool)
    (l : List UInt8) : cutTokens D inTok (w ++ l) = w ++ cutTokens D true l := by
  induction w generalizing inTok with
  | nil => exact absurd rfl hw
  | cons c w ih =>
    rw [List.cons_append, cutTokens, if_neg (hw' c List.mem_cons_self), List.cons_append]
    cases w with
    | nil => rfl
    | cons x w => rw [ih (List.cons_ne_nil x w) (fun y hy => hw' y (List.mem_cons_of_mem c hy))]

omit hD in
/-- A string is delimiters only, or delimiters, a word, and then nothing or a delimiter and the
rest: the cases of one call of `strtok_r`. -/
theorem token_cases (r : List UInt8) : (∀ c ∈ r, c ∈ D) ∨
    ∃ sp w tail, r = sp ++ w ++ tail ∧ (∀ c ∈ sp, c ∈ D) ∧ w ≠ [] ∧ (∀ c ∈ w, c ∉ D) ∧
      (tail = [] ∨ ∃ d r', tail = d :: r' ∧ d ∈ D) := by
  induction r with
  | nil => exact .inl fun _ h => absurd h List.not_mem_nil
  | cons c r ih =>
    by_cases hc : c ∈ D
    · rcases ih with hall | ⟨sp, w, tail, rfl, hsp, hw, hw', ht⟩
      · exact .inl fun x hx => by
          rcases List.mem_cons.mp hx with rfl | hx
          · exact hc
          · exact hall x hx
      · refine .inr ⟨c :: sp, w, tail, rfl, fun x hx => ?_, hw, hw', ht⟩
        rcases List.mem_cons.mp hx with rfl | hx
        · exact hc
        · exact hsp x hx
    · -- the word starts at `c`; it is `c` alone when a delimiter follows
      rcases ih with hall | ⟨sp, w, tail, rfl, hsp, hw, hw', ht⟩
      · cases r with
        | nil => exact .inr ⟨[], [c], [], rfl, nofun, List.cons_ne_nil _ _, by simpa using hc, .inl rfl⟩
        | cons d r' =>
          exact .inr ⟨[], [c], d :: r', rfl, nofun, List.cons_ne_nil _ _, by simpa using hc,
            .inr ⟨d, r', rfl, hall d List.mem_cons_self⟩⟩
      · cases sp with
        | nil =>
          refine .inr ⟨[], c :: w, tail, rfl, nofun, List.cons_ne_nil _ _, fun x hx => ?_, ht⟩
          rcases List.mem_cons.mp hx with rfl | hx
          · exact hc
          · exact hw' x hx
        | cons d sp =>
          exact .inr ⟨[], [c], d :: (sp ++ w ++ tail), by simp, nofun, List.cons_ne_nil _ _,
            by simpa using hc, .inr ⟨d, _, rfl, hsp d List.mem_cons_self⟩⟩

theorem strtokCalls_at_nul {A rest : List UInt8} (tok : Option Nat) (k : Nat) :
    strtokCalls (D ++ [0]) ⟨A ++ 0 :: rest, tok, A.length⟩ k = ⟨A ++ 0 :: rest, none, A.length⟩ := by
  have h := @strtokR_none D hD A [] rest nofun
  simp only [List.append_nil, List.length_nil, Nat.add_zero] at h
  induction k generalizing tok with
  | zero => exact h
  | succ k ih =>
    rw [strtokCalls, h]
    exact ih none

/-- What the loop `for (token = strtok_r (s, D, &p); token != NULL; token = strtok_r (NULL, D,
&p))` does to the string R, which stands at offset `pre.length` of its buffer before its NUL
and REST: its `k`-th call returns the `k`-th token of R in place, the NUL after it in the buffer,
and once the tokens are out every call returns NULL and the buffer is R with the delimiter after
each token cut to a NUL. -/
structure Tokenises (D r pre rest : List UInt8) (c : Nat → Strtok) : Prop where
  found : ∀ k tk, (tokens D r)[k]? = some tk → ∃ t, (c k).tok = some (pre.length + t) ∧
    (r.drop t).take tk.length = tk ∧ ((c k).buf.drop (pre.length + t)).take (tk.length + 1) = tk ++ [0]
  done : ∀ k, (tokens D r).length ≤ k →
    (c k).tok = none ∧ (c k).buf = pre ++ cutTokens D false r ++ 0 :: rest

theorem tokenises_delims {r : List UInt8} (hall : ∀ c ∈ r, c ∈ D) (pre rest : List UInt8)
    (tok : Option Nat) :
    Tokenises D r pre rest (strtokCalls (D ++ [0]) ⟨pre ++ r ++ 0 :: rest, tok, pre.length⟩) := by
  have htok : tokens D r = [] := by
    have h := tokens_delims hall []
    rw [List.append_nil] at h
    rw [h]
    rfl
  have hcalls : ∀ k, strtokCalls (D ++ [0]) ⟨pre ++ r ++ 0 :: rest, tok, pre.length⟩ k =
      ⟨pre ++ r ++ 0 :: rest, none, (pre ++ r).length⟩ := by
    intro k
    cases k with
    | zero => rw [strtokCalls, strtokR_none hD hall, List.length_append]
    | succ k =>
      rw [strtokCalls, strtokR_none hD hall, ← List.length_append]
      exact strtokCalls_at_nul hD none k
  refine ⟨fun k tk hk => by simp [htok] at hk, fun k _ => ?_⟩
  rw [hcalls k]
  have hcut := cutTokens_delims hall []
  rw [List.append_nil] at hcut
  exact ⟨rfl, by simp [hcut, cutTokens]⟩

theorem tokenises_last {sp w : List UInt8} (hsp : ∀ c ∈ sp, c ∈ D) (hw : w ≠ [])
    (hw0 : ∀ c ∈ w, c ∉ D ∧ c ≠ 0) (pre rest : List UInt8) (tok : Option Nat) :
    Tokenises D (sp ++ w) pre rest
      (strtokCalls (D ++ [0]) ⟨pre ++ sp ++ w ++ 0 :: rest, tok, pre.length⟩) := by
  have hw' : ∀ c ∈ w, c ∉ D := fun c h => (hw0 c h).1
  have htok : tokens D (sp ++ w) = [w] := by rw [tokens_delims hsp, tokens_last hw hw']
  have hfirst := @strtokR_last D hD pre sp w rest hsp hw hw0
  refine ⟨fun k tk hk => ?_, fun k hk => ?_⟩
  · rw [htok] at hk
    obtain ⟨rfl, rfl⟩ : k = 0 ∧ w = tk := by
      cases k with
      | zero => simpa using hk
      | succ k => simp at hk
    refine ⟨sp.length, by rw [strtokCalls, hfirst], by simp, ?_⟩
    rw [strtokCalls, hfirst]
    simpa using take_succ_append_cons w 0 rest
  · rw [htok] at hk
    obtain ⟨k, rfl⟩ : ∃ j, k = j + 1 := ⟨k - 1, by simp at hk; omega⟩
    rw [strtokCalls, hfirst]
    have hat := @strtokCalls_at_nul D hD (pre ++ sp ++ w) rest (some (pre.length + sp.length)) k
    simp only [List.length_append] at hat
    rw [hat, cutTokens_delims hsp, ← List.append_nil w, cutTokens_word hw hw']
    exact ⟨rfl, by simp [cutTokens]⟩

/-- A token a delimiter ends: the first call returns it, and the calls after it are those of the
loop on the rest of the string, behind the token and its NUL. -/
theorem tokenises_word {sp w r' : List UInt8} {d : UInt8} (hsp : ∀ c ∈ sp, c ∈ D) (hw : w ≠ [])
    (hw0 : ∀ c ∈ w, c ∉ D ∧ c ≠ 0) (hd : d ∈ D) (pre rest : List UInt8) (tok : Option Nat)
    (ih : Tokenises D r' (pre ++ sp ++ w ++ [0]) rest (strtokCalls (D ++ [0])
      ⟨pre ++ sp ++ w ++ [0] ++ r' ++ 0 :: rest, some (pre.length + sp.length),
        (pre ++ sp ++ w ++ [0]).length⟩)) :
    Tokenises D (sp ++ w ++ d :: r') pre rest
      (strtokCalls (D ++ [0]) ⟨pre ++ sp ++ w ++ d :: (r' ++ 0 :: rest), tok, pre.length⟩) := by
  have hw' : ∀ c ∈ w, c ∉ D := fun c h => (hw0 c h).1
  have htok : tokens D (sp ++ w ++ d :: r') = w :: tokens D r' := by
    rw [List.append_assoc, tokens_delims hsp, tokens_word hw hw' hd]
  have hfirst : strtokR (D ++ [0]) (pre ++ sp ++ w ++ d :: (r' ++ 0 :: rest)) pre.length =
      ⟨pre ++ sp ++ w ++ [0] ++ r' ++ 0 :: rest, some (pre.length + sp.length),
        (pre ++ sp ++ w ++ [0]).length⟩ := by
    rw [strtokR_word hD hsp hw hw0 hd]
    simp only [List.append_assoc, List.cons_append, List.nil_append, List.length_append,
      List.length_cons, List.length_nil, Nat.zero_add, Nat.add_assoc]
  have hnext : ∀ k, strtokCalls (D ++ [0]) ⟨pre ++ sp ++ w ++ d :: (r' ++ 0 :: rest), tok,
      pre.length⟩ (k + 1) = strtokCalls (D ++ [0]) ⟨pre ++ sp ++ w ++ [0] ++ r' ++ 0 :: rest,
        some (pre.length + sp.length), (pre ++ sp ++ w ++ [0]).length⟩ k := fun k => by
    rw [strtokCalls, hfirst]
  have hlen : (pre ++ sp ++ w ++ [0]).length = pre.length + (sp.length + w.length + 1) := by
    simp only [List.length_append, List.length_cons, List.length_nil]
    omega
  refine ⟨fun k tk hk => ?_, fun k hk => ?_⟩
  · rw [htok] at hk
    cases k with
    | zero =>
      obtain rfl : w = tk := by simpa using hk
      refine ⟨sp.length, by rw [strtokCalls, hfirst], by simp, ?_⟩
      rw [strtokCalls, hfirst,
        show pre ++ sp ++ w ++ [0] ++ r' ++ 0 :: rest = (pre ++ sp) ++ (w ++ 0 :: (r' ++ 0 :: rest))
          by simp,
        show pre.length + sp.length = (pre ++ sp).length by simp, List.drop_left]
      exact take_succ_append_cons w 0 _
    | succ k =>
      obtain ⟨t, ht, htake, hbuf⟩ := ih.found k tk (by simpa using hk)
      refine ⟨sp.length + w.length + 1 + t, ?_, ?_, ?_⟩
      · rw [hnext, ht, hlen, Option.some.injEq]
        omega
      · have hdrop : (sp ++ w ++ d :: r').drop (sp.length + w.length + 1 + t) = r'.drop t := by
          rw [show sp ++ w ++ d :: r' = (sp ++ w ++ [d]) ++ r' by simp,
            show sp.length + w.length + 1 + t = (sp ++ w ++ [d]).length + t by
              simp only [List.length_append, List.length_cons, List.length_nil, Nat.zero_add],
            List.drop_append, List.drop_eq_nil_of_le (by omega), List.nil_append, Nat.add_sub_cancel_left]
        rw [hdrop]
        exact htake
      · rw [hnext, ← Nat.add_assoc, ← hlen]
        exact hbuf
  · rw [htok] at hk
    obtain ⟨k, rfl⟩ : ∃ j, k = j + 1 := ⟨k - 1, by simp at hk; omega⟩
    obtain ⟨hnone, hbuf⟩ := ih.done k (by simp at hk; omega)
    rw [hnext]
    refine ⟨hnone, ?_⟩
    rw [hbuf, List.append_assoc sp, cutTokens_delims hsp, cutTokens_word hw hw', cutTokens, if_pos hd,
      if_pos rfl]
    simp

/-- The loop of `strtok_r` calls over a NUL-free string R at offset `pre.length` of its buffer
does what `Tokenises` says, by induction on the length of R: each token takes one call. -/
theorem tokenises_strtokCalls (r : List UInt8) (h0 : 0 ∉ r) (pre rest : List UInt8)
    (tok : Option Nat) :
    Tokenises D r pre rest (strtokCalls (D ++ [0]) ⟨pre ++ r ++ 0 :: rest, tok, pre.length⟩) := by
  induction hn : r.length using Nat.strongRecOn generalizing r pre tok with
  | _ n ih =>
  rcases token_cases r with hall | ⟨sp, w, tail, rfl, hsp, hw, hw', ht⟩
  · exact tokenises_delims hD hall pre rest tok
  · -- the bytes of the word are not NUL, as R has none
    have hw0 : ∀ c ∈ w, c ∉ D ∧ c ≠ 0 := fun c hc =>
      ⟨hw' c hc, fun e => h0 (by subst e; simp [hc])⟩
    rcases ht with rfl | ⟨d, r', rfl, hd⟩
    · rw [List.append_nil, show pre ++ (sp ++ w) ++ 0 :: rest = pre ++ sp ++ w ++ 0 :: rest by simp]
      exact tokenises_last hD hsp hw hw0 pre rest tok
    · rw [show pre ++ (sp ++ w ++ d :: r') ++ 0 :: rest = pre ++ sp ++ w ++ d :: (r' ++ 0 :: rest)
        by simp]
      refine tokenises_word hD hsp hw hw0 hd pre rest tok (ih r'.length ?_ r' (fun h => h0 ?_) _ _ rfl)
      · rw [← hn]
        simp only [List.length_append, List.length_cons]
        omega
      · simp [h]

omit hD in
theorem getD_cutTokens (inTok : Bool) (r : List UInt8) (i : Nat) :
    (cutTokens D inTok r).getD i 0 =
      if i < r.length ∧ r.getD i 0 ∈ D ∧ (if i = 0 then inTok = true else r.getD (i - 1) 0 ∉ D)
      then 0 else r.getD i 0 := by
  induction r generalizing inTok i with
  | nil => simp [cutTokens]
  | cons c r ih =>
    cases i with
    | zero =>
      by_cases hc : c ∈ D
      · cases inTok <;> simp [cutTokens, hc]
      · simp [cutTokens, hc]
    | succ i =>
      have hrhs : (if i + 1 < (c :: r).length ∧ (c :: r).getD (i + 1) 0 ∈ D ∧
          (if i + 1 = 0 then inTok = true else (c :: r).getD (i + 1 - 1) 0 ∉ D) then 0
          else (c :: r).getD (i + 1) 0) =
          if i < r.length ∧ r.getD i 0 ∈ D ∧ (c :: r).getD i 0 ∉ D then 0 else r.getD i 0 := by
        simp only [List.getD_cons_succ, List.length_cons, Nat.add_lt_add_iff_right,
          Nat.add_sub_cancel, Nat.add_one_ne_zero, if_false]
      rw [hrhs]
      by_cases hc : c ∈ D
      · rw [cutTokens, if_pos hc, List.getD_cons_succ, ih]
        cases i with
        | zero => simp only [List.getD_cons_zero, hc, not_true_eq_false, and_false, if_false,
            Bool.false_eq_true, if_true]
        | succ i => simp only [List.getD_cons_succ, Nat.add_one_ne_zero, if_false, Nat.add_sub_cancel]
      · rw [cutTokens, if_neg hc, List.getD_cons_succ, ih]
        cases i with
        | zero => simp only [List.getD_cons_zero, hc, not_false_eq_true, and_true, if_true]
        | succ i => simp only [List.getD_cons_succ, Nat.add_one_ne_zero, if_false, Nat.add_sub_cancel]

omit hD in
@[simp] theorem length_cutTokens (inTok : Bool) (r : List UInt8) :
    (cutTokens D inTok r).length = r.length := by
  induction r generalizing inTok with
  | nil => rfl
  | cons c r ih =>
    rw [cutTokens]
    split <;> simp [ih]

end Strtok

/-- `strtok_r` over a NUL-terminated string S with a delimiter string D, called first with S and
then with a null pointer until it returns NULL, returns the tokens of S in order, each in place
with a NUL after it; once they are out every call returns NULL, and the string is S with the
delimiter after each token cut to a NUL. -/
theorem strtok_r_tokenises (D s rest : List UInt8) (hD : 0 ∉ D) (hs : 0 ∉ s) :
    Tokenises D s [] rest (strtokCalls (D ++ [0]) ⟨s ++ 0 :: rest, none, 0⟩) := by
  have h := tokenises_strtokCalls hD s hs [] rest none
  rwa [List.nil_append, List.length_nil] at h

/-- " ab  c" cut at spaces: the second call finds "c", the third returns NULL, and the space
after "ab" has become a NUL. -/
theorem strtok_r_tokenises_sample :
    (∃ t, (strtokCalls [32, 0] ⟨[32, 97, 98, 32, 32, 99, 0], none, 0⟩ 1).tok = some t ∧
      (([32, 97, 98, 32, 32, 99] : List UInt8).drop t).take 1 = [99]) ∧
    (strtokCalls [32, 0] ⟨[32, 97, 98, 32, 32, 99, 0], none, 0⟩ 2).tok = none ∧
    (strtokCalls [32, 0] ⟨[32, 97, 98, 32, 32, 99, 0], none, 0⟩ 2).buf = [32, 97, 98, 0, 32, 99, 0] := by
  have h := strtok_r_tokenises [32] [32, 97, 98, 32, 32, 99] [] (by decide) (by decide)
  have htok : tokens [32] [32, 97, 98, 32, 32, 99] = [[97, 98], [99]] := by decide
  obtain ⟨t, ht, htake, -⟩ := h.found 1 [99] (by rw [htok]; rfl)
  obtain ⟨hnone, hbuf⟩ := h.done 2 (by rw [htok]; decide)
  simp only [List.cons_append, List.nil_append, List.length_nil, Nat.zero_add] at ht hnone hbuf
  rw [List.length_singleton] at htake
  refine ⟨⟨t, ht, htake⟩, hnone, ?_⟩
  rw [hbuf]
  decide

end Pintos.Lib
