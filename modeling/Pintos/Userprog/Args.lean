import Pintos.Userprog.Pagedir
import Pintos.Threads.Palloc
import Pintos.Lib.Memory
import Pintos.Lib.String

/-! The argument passing of `start_process` (userprog/process.c): the command line is cut into
tokens by `strtok_r` (lib/string.c), each token's offset is recorded in `argv_off`, and once
`load` has set up the stack page the tokenised line is copied to its top and the `argv` array,
`argc` and a return address are pushed below it. The tokens are the maximal space-free runs of
the line; the frame is checked against the layout a user `main` reads. -/
namespace Pintos.Userprog
open Pintos.Lib Pintos.Kit Pintos.Threads

/-! ### The model -/

/-- `strchr (" ", c) != NULL`: a space, or the NUL that ends the delimiter string. -/
def isDelim (c : UInt8) : Bool := c == 32 || c == 0

/-- What `strtok_r` leaves: the buffer, the token it returns (`none` for NULL) and `*save_ptr`,
all as offsets into the buffer. -/
structure Strtok where
  buf : List UInt8
  tok : Option Nat
  save : Nat

/-- `strtok_r (s, " ", save_ptr)` with `s` at offset `pos` of `buf`. Reading past the buffer
reads a NUL, which the buffer ends in anyway. -/
def strtokR (buf : List UInt8) (pos : Nat) : Strtok :=
  -- skip the delimiters before the token; the NUL among them ends the string
  let s := pos + ((buf.drop pos).takeWhile (· == 32)).length
  if buf.getD s 0 = 0 then ⟨buf, none, s⟩
  else
    let e := s + ((buf.drop s).takeWhile (!isDelim ·)).length
    if buf.getD e 0 = 0 then ⟨buf, some s, e⟩
    else ⟨buf.set e 0, some s, e + 1⟩

/-- The length of the run of spaces at offset `i` of `buf`: the `while (*save_ptr == ' ')`
loop of `start_process`. -/
def spacesAt (buf : List UInt8) (i : Nat) : Nat := ((buf.drop i).takeWhile (· == 32)).length

/-- `malloc (32 * sizeof (int))`: the entries of `argv_off`. -/
def argvOffSize : Nat := 32

theorem getD_length_takeWhile {α : Type} (l : List α) (p : α → Bool) (d : α)
    (h : (l.takeWhile p).length < l.length) : p (l.getD (l.takeWhile p).length d) = false := by
  induction l with
  | nil => simp at h
  | cons a l ih =>
    by_cases hp : p a
    · simp only [List.takeWhile_cons_of_pos hp, List.length_cons, List.getD_cons_succ] at h ⊢
      exact ih (by omega)
    · simp [List.takeWhile_cons_of_neg hp, hp]

theorem length_takeWhile_pos {α : Type} {l : List α} {p : α → Bool} {d : α} (hl : 0 < l.length)
    (hp : p (l.getD 0 d)) : 0 < (l.takeWhile p).length := by
  cases l with
  | nil => simp at hl
  | cons a l => simp_all [List.takeWhile_cons_of_pos]

theorem getD_drop_eq {α : Type} (l : List α) (i j : Nat) (d : α) :
    (l.drop i).getD j d = l.getD (i + j) d := by
  simp [List.getD_eq_getElem?_getD]

theorem lt_length_of_getD_ne {l : List UInt8} {i : Nat} (h : l.getD i 0 ≠ 0) : i < l.length := by
  by_contra hi
  exact h (List.getD_eq_default _ _ (by omega))

theorem strtokR_progress {buf : List UInt8} {pos t : Nat} (h : (strtokR buf pos).tok = some t) :
    pos < (strtokR buf pos).save ∧ pos < buf.length := by
  simp only [strtokR] at h ⊢
  split at h
  · cases h
  · rename_i hs
    have hlt := lt_length_of_getD_ne hs
    have hsp := getD_length_takeWhile (buf.drop pos) (· == 32) 0 (by
      simp only [List.length_drop]; omega)
    rw [getD_drop_eq] at hsp
    have hword := length_takeWhile_pos (p := (!isDelim ·)) (d := 0)
      (l := buf.drop (pos + ((buf.drop pos).takeWhile (· == 32)).length))
      (by simp only [List.length_drop]; omega)
      (by simp_all [isDelim])
    rw [if_neg hs]
    split <;> exact ⟨by simp only; omega, by omega⟩

@[simp] theorem length_strtokR_buf (buf : List UInt8) (pos : Nat) :
    (strtokR buf pos).buf.length = buf.length := by
  simp only [strtokR]
  split
  · rfl
  · split
    · rfl
    · exact List.length_set

/-! ### The tokens of a line -/

/-- The maximal space-free runs of `s`, in order. -/
def tokens (s : List UInt8) : List (List UInt8) := (s.splitOn 32).filter (!·.isEmpty)

/-- The strings `argv` points at: the tokens, the first with the spaces that lead the line,
since `argv_off[0]` is 0 whatever the line starts with. -/
def argStrings (s : List UInt8) : List (List UInt8) :=
  match tokens s with
  | [] => []
  | t :: ts => (s.takeWhile (· == 32) ++ t) :: ts

/-! ### The `strtok_r` of lib/string.c -/

section General

theorem isSome_strchr_space (c : UInt8) : (Lib.strchr [32, 0] c).isSome = isDelim c := by
  by_cases h32 : c = 32
  · simp [Lib.strchr, isDelim, h32]
  · by_cases h0 : c = 0
    · simp [Lib.strchr, isDelim, h0]
    · simp [Lib.strchr, isDelim, h32, h0, Ne.symm h32, Ne.symm h0]

theorem skipDelims_space (l : List UInt8) :
    Lib.skipDelims [32, 0] l = (l.takeWhile (· == 32)).length := by
  induction l with
  | nil => rfl
  | cons c l ih =>
    rw [Lib.skipDelims, isSome_strchr_space, List.takeWhile_cons]
    by_cases h32 : c = 32
    · simp [isDelim, h32, ih]
    · simp [isDelim, h32]

theorem spanToken_space (l : List UInt8) :
    Lib.spanToken [32, 0] l = (l.takeWhile (!isDelim ·)).length := by
  induction l with
  | nil => rfl
  | cons c l ih =>
    rw [Lib.spanToken, List.takeWhile_cons, ← Option.not_isSome, isSome_strchr_space]
    by_cases hc : isDelim c
    · simp [hc]
    · simp [hc, ih]

theorem getD_skip_ne_space (buf : List UInt8) (pos : Nat) :
    buf.getD (pos + ((buf.drop pos).takeWhile (· == 32)).length) 0 ≠ 32 := by
  rw [← getD_drop_eq]
  by_cases hlt : ((buf.drop pos).takeWhile (· == 32)).length < (buf.drop pos).length
  · have := getD_length_takeWhile _ (· == 32) 0 hlt
    simpa using this
  · rw [List.getD_eq_default _ _ (by omega)]
    decide

theorem strtokR_eq_lib (buf : List UInt8) (pos : Nat) :
    (strtokR buf pos).buf = (Lib.strtokR [32, 0] buf pos).buf ∧
      (strtokR buf pos).tok = (Lib.strtokR [32, 0] buf pos).tok ∧
        (strtokR buf pos).save = (Lib.strtokR [32, 0] buf pos).save := by
  have hne := getD_skip_ne_space buf pos
  simp only [strtokR, Lib.strtokR, skipDelims_space, spanToken_space, isSome_strchr_space]
  generalize pos + ((buf.drop pos).takeWhile (· == 32)).length = s at hne ⊢
  by_cases h0 : buf.getD s 0 = 0
  · -- the NUL: no token, in both
    have hd : isDelim (buf.getD s 0) = true := by
      rw [h0]
      rfl
    rw [if_pos h0, if_pos hd]
    exact ⟨rfl, rfl, rfl⟩
  · have hd : isDelim (buf.getD s 0) = false := by
      simp only [isDelim, Bool.or_eq_false_iff, beq_eq_false_iff_ne]
      exact ⟨hne, h0⟩
    rw [if_neg h0, hd, if_neg Bool.false_ne_true]
    generalize s + ((buf.drop s).takeWhile (!isDelim ·)).length = e
    by_cases he : buf.getD e 0 = 0
    · rw [if_pos he, if_neg (not_not.mpr he)]
      exact ⟨rfl, rfl, rfl⟩
    · rw [if_neg he, if_pos he]
      exact ⟨rfl, rfl, rfl⟩

theorem tokens_eq_lib (s : List UInt8) : tokens s = Lib.tokens [32] s := by
  unfold tokens Lib.tokens List.splitOn
  congr 2
  funext c
  simp only [List.mem_singleton]
  exact beq_eq_decide c 32

theorem strtokR_of_lib {buf : List UInt8} {pos : Nat} {q : Lib.Strtok}
    (h : Lib.strtokR [32, 0] buf pos = q) : strtokR buf pos = ⟨q.buf, q.tok, q.save⟩ := by
  obtain ⟨hb, ht, hs⟩ := strtokR_eq_lib buf pos
  rw [h] at hb ht hs
  rw [← hb, ← ht, ← hs]

end General

/-! ### Lines and their tokens -/

section Tokens
variable {s sp w t r : List UInt8}

@[simp] theorem tokens_nil : tokens [] = [] := rfl

theorem tokens_spaces (hsp : ∀ a ∈ sp, a = 32) (r : List UInt8) : tokens (sp ++ r) = tokens r := by
  rw [tokens_eq_lib, tokens_eq_lib, Lib.tokens_delims fun c hc => List.mem_singleton.mpr (hsp c hc)]

theorem tokens_word (hw : w ≠ []) (h32 : 32 ∉ w) (t : List UInt8) :
    tokens (w ++ 32 :: t) = w :: tokens t := by
  simp [tokens, List.splitOn_append_cons_self_of_not_mem h32, hw]

theorem tokens_last (hw : w ≠ []) (h32 : 32 ∉ w) : tokens w = [w] := by
  simp [tokens, List.splitOn_eq_singleton h32, hw]

theorem length_argStrings (s : List UInt8) : (argStrings s).length = (tokens s).length := by
  unfold argStrings
  split <;> simp_all

theorem argStrings_of_head (h : s.head? ≠ some 32) : argStrings s = tokens s := by
  have hsp : s.takeWhile (· == 32) = [] := by
    cases s with
    | nil => rfl
    | cons a s => simp_all
  unfold argStrings
  split <;> simp_all

theorem argStrings_spaces (hsp : ∀ a ∈ r, a = 32) : argStrings r = [] := by
  have h := tokens_spaces hsp []
  rw [List.append_nil, tokens_nil] at h
  simp [argStrings, h]

theorem takeWhile_spaces_word (hsp : ∀ a ∈ sp, a = 32) (hw : w ≠ []) (h32 : 32 ∉ w)
    (t : List UInt8) : (sp ++ w ++ t).takeWhile (· == 32) = sp := by
  obtain ⟨c, w, rfl⟩ := List.exists_cons_of_ne_nil hw
  have hc : c ≠ 32 := fun h => h32 (by simp [h])
  rw [List.append_assoc, List.takeWhile_append_of_pos (by simpa using hsp), List.cons_append,
    List.takeWhile_cons_of_neg (by simpa using hc), List.append_nil]

theorem argStrings_last (hsp : ∀ a ∈ sp, a = 32) (hw : w ≠ []) (h32 : 32 ∉ w) :
    argStrings (sp ++ w) = [sp ++ w] := by
  have ht := takeWhile_spaces_word hsp hw h32 []
  rw [List.append_nil] at ht
  simp [argStrings, tokens_spaces hsp, tokens_last hw h32, ht]

theorem argStrings_word (hsp : ∀ a ∈ sp, a = 32) (hw : w ≠ []) (h32 : 32 ∉ w) (t : List UInt8) :
    argStrings (sp ++ w ++ 32 :: t) = (sp ++ w) :: tokens t := by
  have ht := takeWhile_spaces_word hsp hw h32 (32 :: t)
  simp only [argStrings, List.append_assoc, tokens_spaces hsp, tokens_word hw h32] at ht ⊢
  rw [ht]

/-- A line without NULs is all spaces, or leading spaces, a word, and then the end or a space,
further spaces and a rest that does not start with a space. -/
theorem line_cases (h0 : 0 ∉ r) :
    (∀ a ∈ r, a = 32) ∨
    ∃ sp w, (∀ a ∈ sp, a = 32) ∧ w ≠ [] ∧ (∀ c ∈ w, c ≠ 32 ∧ c ≠ 0) ∧
      (r = sp ++ w ∨ ∃ sp' t, (∀ a ∈ sp', a = 32) ∧ t.head? ≠ some 32 ∧
        r = sp ++ w ++ 32 :: (sp' ++ t)) := by
  rcases Lib.token_cases (D := [32]) r with hall | ⟨sp, w, tail, rfl, hsp, hw, hw', ht⟩
  · exact .inl fun a ha => List.mem_singleton.mp (hall a ha)
  have hw0 : ∀ c ∈ w, c ≠ 32 ∧ c ≠ 0 := fun c hc =>
    ⟨fun h => hw' c hc (List.mem_singleton.mpr h),
      fun h => h0 (by rw [← h]; exact List.mem_append_left _ (List.mem_append_right _ hc))⟩
  refine .inr ⟨sp, w, fun a ha => List.mem_singleton.mp (hsp a ha), hw, hw0, ?_⟩
  rcases ht with rfl | ⟨d, r', rfl, hd⟩
  · exact .inl (List.append_nil _)
  refine .inr ⟨r'.takeWhile (· == 32), r'.dropWhile (· == 32), fun a ha => ?_, ?_, ?_⟩
  · simpa using List.all_eq_true.1 List.all_takeWhile a ha
  · cases h : r'.dropWhile (· == 32) with
    | nil => simp
    | cons e t1 =>
      have := List.head_dropWhile_not (· == 32) (l := r') (by simp [h])
      simp only [h, List.head_cons, beq_eq_false_iff_ne] at this
      simpa using this
  · rw [List.mem_singleton.mp hd, List.takeWhile_append_dropWhile]

end Tokens

/-! ### `strtok_r` on a line cut at its tokens -/

section Strtok
variable {α : Type} {pre sp w post : List UInt8}

theorem takeWhile_drop_run {p : α → Bool} (pre xs : List α) (y : α) (ys : List α)
    (hxs : ∀ a ∈ xs, p a) (hy : p y = false) :
    ((pre ++ xs ++ y :: ys).drop pre.length).takeWhile p = xs := by
  rw [List.append_assoc, List.drop_left, List.takeWhile_append_of_pos hxs,
    List.takeWhile_cons_of_neg (by simp [hy]), List.append_nil]

theorem strtokR_end (hsp : ∀ a ∈ sp, a = 32) :
    strtokR (pre ++ sp ++ 0 :: post) pre.length =
      ⟨pre ++ sp ++ 0 :: post, none, pre.length + sp.length⟩ :=
  strtokR_of_lib (Lib.strtokR_none (D := [32]) (by decide) fun c hc => List.mem_singleton.mpr (hsp c hc))

theorem strtokR_last (hsp : ∀ a ∈ sp, a = 32) (hw : w ≠ []) (hw' : ∀ c ∈ w, c ≠ 32 ∧ c ≠ 0) :
    strtokR (pre ++ sp ++ w ++ 0 :: post) pre.length =
      ⟨pre ++ sp ++ w ++ 0 :: post, some (pre.length + sp.length),
        pre.length + sp.length + w.length⟩ :=
  strtokR_of_lib (Lib.strtokR_last (D := [32]) (by decide)
    (fun c hc => List.mem_singleton.mpr (hsp c hc)) hw
    fun c hc => ⟨fun h => (hw' c hc).1 (List.mem_singleton.mp h), (hw' c hc).2⟩)

/-- From the end of `pre`, over the spaces `sp`, the word `w` and the space after it, which
`strtok_r` overwrites with a NUL. -/
theorem strtokR_word (hsp : ∀ a ∈ sp, a = 32) (hw : w ≠ []) (hw' : ∀ c ∈ w, c ≠ 32 ∧ c ≠ 0) :
    strtokR (pre ++ sp ++ w ++ 32 :: post) pre.length =
      ⟨pre ++ sp ++ w ++ 0 :: post, some (pre.length + sp.length),
        pre.length + sp.length + w.length + 1⟩ :=
  strtokR_of_lib (Lib.strtokR_word (D := [32]) (by decide)
    (fun c hc => List.mem_singleton.mpr (hsp c hc)) hw
    (fun c hc => ⟨fun h => (hw' c hc).1 (List.mem_singleton.mp h), (hw' c hc).2⟩)
    (List.mem_singleton_self 32))

theorem spacesAt_run (pre : List UInt8) {i : Nat} (hi : pre.length = i) {sp : List UInt8}
    (hsp : ∀ a ∈ sp, a = 32) {y : UInt8} (hy : y ≠ 32) (ys : List UInt8) :
    spacesAt (pre ++ sp ++ y :: ys) i = sp.length := by
  rw [← hi, spacesAt, takeWhile_drop_run pre sp y ys (by simpa using hsp) (by simpa using hy)]

/-- `x` and then a NUL at offset `o` of `b`: the C string there is `x`. -/
def StrAt (b : List UInt8) (o : Nat) (x : List UInt8) : Prop :=
  (b.drop o).take (x.length + 1) = x ++ [0]

theorem strAt_here (pre x z : List UInt8) : StrAt (pre ++ x ++ 0 :: z) pre.length x := by
  simp [StrAt, List.take_append, List.take_of_length_le]

theorem StrAt.append {pre y : List UInt8} {o : Nat} {x : List UInt8} (h : StrAt (pre ++ y) o x)
    (hlt : o + x.length < pre.length) (y' : List UInt8) : StrAt (pre ++ y') o x := by
  have hle : x.length + 1 ≤ (pre.drop o).length := by simp only [List.length_drop]; omega
  simp only [StrAt, List.drop_append_of_le_length (by omega : o ≤ pre.length),
    List.take_append_of_le_length hle] at h ⊢
  exact h

/-- One pass of the loop from the end of `pre`, with the untouched rest `r` of the line after
it: either no token is left, or the next string of `argv` is cut off by a NUL, the spaces after
it are skipped, and the strings already cut stay as they are. -/
theorem scan_pass {pre r : List UInt8} {q : Strtok} (h0 : 0 ∉ r)
    (hq : strtokR (pre ++ r ++ [0]) pre.length = q) :
    (q.tok = none ∧ q.buf = pre ++ r ++ [0] ∧ argStrings r = []) ∨
    ((∃ t, q.tok = some t) ∧ ∃ x mid r', argStrings r = x :: argStrings r' ∧ 0 ∉ r' ∧
      q.buf = pre ++ mid ++ r' ++ [0] ∧ (pre ++ mid).length = q.save + spacesAt q.buf q.save ∧
      StrAt q.buf pre.length x ∧ pre.length + x.length ≤ (pre ++ mid).length ∧
      ∀ o y, StrAt (pre ++ r ++ [0]) o y → o + y.length ≤ pre.length → StrAt q.buf o y) := by
  rcases line_cases h0 with hsp | ⟨sp, w, hsp, hw, hw', hr⟩
  · -- only spaces are left
    left
    rw [← hq, strtokR_end hsp]
    exact ⟨rfl, rfl, argStrings_spaces hsp⟩
  have h32 : 32 ∉ w := fun h => (hw' 32 h).1 rfl
  right
  rcases hr with rfl | ⟨sp', t, hsp', ht, rfl⟩
  · -- the last word of the line: its NUL is the one that ends the line
    have hq' := @strtokR_last pre sp w [] hsp hw hw'
    simp only [List.append_assoc] at hq hq'
    rw [hq'] at hq
    subst hq
    refine ⟨⟨_, rfl⟩, sp ++ w, sp ++ w, [], argStrings_last hsp hw h32, by simp, by simp, ?_, ?_,
      ?_, fun _ _ h _ => by simpa using h⟩
    · have := @spacesAt_run (pre ++ sp ++ w) (pre.length + sp.length + w.length)
        (by simp; omega) [] (by simp) 0 (by decide) []
      simp only [List.append_assoc, List.append_nil] at this
      simp only [this, List.length_append, List.length_nil]
      omega
    · have := strAt_here pre (sp ++ w) []
      simpa using this
    · simp
  · -- a word and the space after it, which becomes its NUL
    have hq' := @strtokR_word pre sp w (sp' ++ t ++ [0]) hsp hw hw'
    simp only [List.append_assoc, List.cons_append] at hq hq'
    rw [hq'] at hq
    subst hq
    have ht0 : 0 ∉ t := fun h => h0 (by simp [h])
    obtain ⟨y, ys, hyys, hy⟩ : ∃ y ys, t ++ [0] = y :: ys ∧ y ≠ 32 := by
      cases t with
      | nil => exact ⟨0, [], rfl, by decide⟩
      | cons e t1 => exact ⟨e, t1 ++ [0], rfl, by simpa using ht⟩
    refine ⟨⟨_, rfl⟩, sp ++ w, sp ++ w ++ 0 :: sp', t, ?_, ht0, by simp, ?_, ?_, by simp, ?_⟩
    · rw [argStrings_word hsp hw h32, tokens_spaces hsp', argStrings_of_head ht]
    · have := spacesAt_run (pre ++ sp ++ w ++ [0]) (i := pre.length + sp.length + w.length + 1)
        (by simp; omega) hsp' hy ys
      simp only [List.append_assoc, List.cons_append, List.nil_append, ← hyys] at this
      simp only [this, List.length_append, List.length_cons]
      omega
    · have := strAt_here pre (sp ++ w) (sp' ++ t ++ [0])
      simpa using this
    · intro o x hx hle
      have hx' : StrAt ((pre ++ sp ++ w) ++ 32 :: (sp' ++ t ++ [0])) o x := by simpa using hx
      have hw0 : 0 < w.length := List.length_pos_iff.2 hw
      have := hx'.append (by simp only [List.length_append]; omega) (0 :: (sp' ++ t ++ [0]))
      simpa using this

end Strtok

/-- The tokenising loop of `start_process`, one pass per `strtok_r` call from `save_ptr`:
`for (token = strtok_r (...); token != NULL; token = strtok_r (NULL, " ", &save_ptr))`. After
each token it skips the spaces that follow and stores `argv_off[++argc] = save_ptr - file_name`;
`none` when that store falls past the entries of `argv_off`. -/
def argScan (buf : List UInt8) (save argc : Nat) (argvOff : List Nat) :
    Option (List UInt8 × Nat × List Nat) :=
  match h : (strtokR buf save).tok with
  | none => some ((strtokR buf save).buf, argc, argvOff)
  | some _ =>
    let r := strtokR buf save
    let save' := r.save + spacesAt r.buf r.save
    if argc + 1 < argvOffSize then argScan r.buf save' (argc + 1) (argvOff.set (argc + 1) save')
    else none
termination_by buf.length - save
decreasing_by
  have := strtokR_progress h
  simp only [length_strtokR_buf]
  omega

/-! ### The loop's invariant -/

/-- Where the loop over the line `s` stands: `buf` holds the strings of `argv` found so far, each
cut off by its NUL, and then the untouched rest `r` of the line from `save` on; `argv_off[i]`
holds the offset of the `i`-th string for `i < argc`, and `argv_off[argc]` is `save`. -/
structure ScanInv (s buf : List UInt8) (save argc : Nat) (argvOff : List Nat) : Prop where
  rest : ∃ pre r, buf = pre ++ r ++ [0] ∧ pre.length = save ∧ 0 ∉ r ∧
    argStrings r = (argStrings s).drop argc
  found : argc ≤ (argStrings s).length
  argc_lt : argc < argvOffSize
  length : argvOff.length = argvOffSize
  next : argvOff.getD argc 0 = save
  strs : ∀ i < argc, argvOff.getD i 0 + ((argStrings s).getD i []).length ≤ save ∧
    StrAt buf (argvOff.getD i 0) ((argStrings s).getD i [])

/-- What the loop leaves: `argc` counts the strings of `argv`, and `argv_off[i]` holds the
offset of the `i`-th, NUL-terminated inside the buffer. -/
structure ScanDone (s buf : List UInt8) (argc : Nat) (argvOff : List Nat) : Prop where
  argc_eq : argc = (argStrings s).length
  strs : ∀ i < argc, argvOff.getD i 0 + ((argStrings s).getD i []).length < buf.length ∧
    StrAt buf (argvOff.getD i 0) ((argStrings s).getD i [])

theorem drop_eq_cons {α : Type} {l rest : List α} {n : Nat} {x d : α} (h : l.drop n = x :: rest) :
    n < l.length ∧ l.getD n d = x ∧ l.drop (n + 1) = rest := by
  have hlt : n < l.length := by
    by_contra hn
    rw [List.drop_eq_nil_of_le (by omega)] at h
    cases h
  refine ⟨hlt, ?_, ?_⟩
  · rw [← Nat.add_zero n, ← getD_drop_eq, h, List.getD_cons_zero]
  · rw [← List.drop_drop, h, List.drop_one, List.tail_cons]

theorem scanInv_init (s : List UInt8) (h0 : 0 ∉ s) :
    ScanInv s (s ++ [0]) 0 0 (List.replicate argvOffSize 0) where
  rest := ⟨[], s, rfl, rfl, h0, rfl⟩
  found := Nat.zero_le _
  argc_lt := by decide
  length := List.length_replicate
  next := by decide
  strs := fun _ hi => absurd hi (Nat.not_lt_zero _)

variable {s buf : List UInt8} {save argc : Nat} {argvOff : List Nat}

theorem ScanInv.done (h : ScanInv s buf save argc argvOff) (ht : (strtokR buf save).tok = none) :
    (strtokR buf save).buf = buf ∧ ScanDone s buf argc argvOff := by
  obtain ⟨pre, r, rfl, rfl, h0, hr⟩ := h.rest
  rcases scan_pass h0 rfl with ⟨-, hbuf, hnil⟩ | ⟨⟨t, hsome⟩, -⟩
  · have hlen : (argStrings s).length ≤ argc := by
      rw [hnil, eq_comm, List.drop_eq_nil_iff] at hr
      exact hr
    refine ⟨hbuf, le_antisymm h.found hlen, fun i hi => ⟨?_, (h.strs i hi).2⟩⟩
    have := (h.strs i hi).1
    simp only [List.length_append, List.length_singleton]
    omega
  · rw [ht] at hsome
    cases hsome

theorem ScanInv.lt_of_tok (h : ScanInv s buf save argc argvOff) {t : Nat}
    (ht : (strtokR buf save).tok = some t) : argc < (argStrings s).length := by
  obtain ⟨pre, r, rfl, rfl, h0, hr⟩ := h.rest
  rcases scan_pass h0 rfl with ⟨hnone, -⟩ | ⟨-, x, mid, r', hx, -⟩
  · rw [ht] at hnone
    cases hnone
  · rw [hx, eq_comm] at hr
    exact (drop_eq_cons (d := []) hr).1

/-- One pass of the loop with a token keeps the invariant, one string further on. -/
theorem ScanInv.step (h : ScanInv s buf save argc argvOff) {t : Nat}
    (ht : (strtokR buf save).tok = some t) (hlt : argc + 1 < argvOffSize) :
    ScanInv s (strtokR buf save).buf
      ((strtokR buf save).save + spacesAt (strtokR buf save).buf (strtokR buf save).save) (argc + 1)
      (argvOff.set (argc + 1)
        ((strtokR buf save).save + spacesAt (strtokR buf save).buf (strtokR buf save).save)) := by
  obtain ⟨pre, r, rfl, rfl, h0, hr⟩ := h.rest
  rcases scan_pass h0 rfl with ⟨hnone, -⟩ | ⟨-, x, mid, r', hx, h0', hbuf, hsave, hstr, hle, hkeep⟩
  · rw [ht] at hnone
    cases hnone
  rw [hx, eq_comm] at hr
  obtain ⟨hfound, hget, hdrop⟩ := drop_eq_cons (d := []) hr
  have hset : ∀ i, i ≠ argc + 1 → (argvOff.set (argc + 1) ((strtokR (pre ++ r ++ [0])
      pre.length).save + spacesAt (strtokR (pre ++ r ++ [0]) pre.length).buf
      (strtokR (pre ++ r ++ [0]) pre.length).save)).getD i 0 = argvOff.getD i 0 := by
    intro i hi
    simp [List.getD_eq_getElem?_getD, List.getElem?_set_ne (Ne.symm hi)]
  refine ⟨⟨pre ++ mid, r', hbuf, hsave, h0', hdrop.symm⟩, hfound, hlt, ?_, ?_, ?_⟩
  · rw [List.length_set, h.length]
  · rw [List.getD_eq_getElem?_getD, List.getElem?_set_self (by rw [h.length]; exact hlt),
      Option.getD_some]
  · intro i hi
    rw [hset i (by omega)]
    rcases Nat.lt_succ_iff_lt_or_eq.1 hi with hi | rfl
    · -- a string found before: it ends before `save`, where nothing has changed
      obtain ⟨hb, hs⟩ := h.strs i hi
      exact ⟨by simp only [List.length_append] at hsave hle ⊢; omega, hkeep _ _ hs hb⟩
    · -- the string just found starts at `argv_off[argc] = save`
      rw [h.next, hget]
      exact ⟨by rw [← hsave]; exact hle, hstr⟩

/-- The whole loop, from any state with the invariant: with fewer than 32 strings it stops with
all of them found, the buffer's length unchanged; with 32 or more the store of
`argv_off[++argc]` for the 32nd leaves the array. -/
theorem argScan_spec (h : ScanInv s buf save argc argvOff) :
    (∃ buf' argvOff', argScan buf save argc argvOff = some (buf', (argStrings s).length, argvOff') ∧
      (argStrings s).length < argvOffSize ∧ buf'.length = buf.length ∧
      ScanDone s buf' (argStrings s).length argvOff') ∨
    (argScan buf save argc argvOff = none ∧ argvOffSize ≤ (argStrings s).length) := by
  fun_induction argScan buf save argc argvOff with
  | case1 buf save argc argvOff ht =>
    obtain ⟨hbuf, hd⟩ := h.done ht
    left
    refine ⟨_, argvOff, by rw [← hd.argc_eq], ?_, by rw [hbuf], by rwa [hbuf, ← hd.argc_eq]⟩
    rw [← hd.argc_eq]
    exact h.argc_lt
  | case2 buf save argc argvOff t ht r save' hlt ih =>
    obtain ⟨buf', argvOff', hrun, hn, hlen, hd⟩ | hnone := ih (h.step ht hlt)
    · exact .inl ⟨buf', argvOff', hrun, hn, by rw [hlen, length_strtokR_buf], hd⟩
    · exact .inr hnone
  | case3 buf save argc argvOff t ht hlt =>
    exact .inr ⟨rfl, by have := h.lt_of_tok ht; omega⟩

/-! ### The frame on the user stack -/

/-- The lowest address of the stack page `setup_stack` maps, `PHYS_BASE - PGSIZE`. -/
def stackBottom : Nat := physBase.toNat - pgSize

/-- A store of `bs` at `a` in user memory. Of the addresses `start_process` stores to only the
stack page is known to be mapped: a store that leaves it is `none` (a page fault, which
`page_fault` answers with `sys_exit (-1)`, or a write over a loaded segment). -/
def storeBytes (m : Nat → UInt8) (a : Nat) (bs : List UInt8) : Option (Nat → UInt8) :=
  if stackBottom ≤ a ∧ a + bs.length ≤ physBase.toNat then
    some (Memory.copy m a (bs.getD · 0) bs.length)
  else none

/-- The four bytes of a 32-bit store of `v`, least significant first. -/
def wordBytes (v : Nat) : List UInt8 := (List.range 4).map fun j => (v / 256 ^ j % 256).toUInt8

/-- A 32-bit little-endian load. -/
def loadWord (m : Nat → UInt8) (a : Nat) : Nat :=
  (m a).toNat + 256 * (m (a + 1)).toNat + 65536 * (m (a + 2)).toNat +
    16777216 * (m (a + 3)).toNat

/-- `intr_frm.esp` and the user memory while `start_process` builds the frame. -/
structure Frame where
  esp : Nat
  mem : Nat → UInt8

/-- `intr_frm.esp -= 4; *(int *) intr_frm.esp = v`. -/
def push (f : Frame) (v : Nat) : Option Frame :=
  (storeBytes f.mem (f.esp - 4) (wordBytes v)).map (Frame.mk (f.esp - 4))

/-- The stack half of `start_process`, once `load` has set `esp` to `PHYS_BASE`: copy the
tokenised line of length `len` with its NUL to the top, align `esp` down, and push
`argv[argc] = NULL`, `argv[argc - 1]` down to `argv[0]`, `argv`, `argc` and a fake return
address. -/
def setupFrame (len : Nat) (buf : List UInt8) (argc : Nat) (argvOff : List Nat) (f : Frame) :
    Option Frame := do
  let start := f.esp - (len + 1)
  let mem ← storeBytes f.mem start (buf.take (len + 1))
  let f ← push ⟨start - (4 - (len + 1) % 4), mem⟩ 0
  let f ← runs push f ((List.range argc).reverse.map fun i => start + argvOff.getD i 0)
  -- `*(char **) esp = esp + 4` after the decrement: the address of `argv[0]`
  let f ← push f f.esp
  let f ← push f argc
  push f 0

/-- How `start_process` ends. -/
inductive StartOutcome
  /-- `intr_exit` into the program, with this `esp` and user memory. -/
  | run (esp : Nat) (mem : Nat → UInt8)
  /-- `malloc` or `load` failed: `thread_exit`. -/
  | exit
  /-- A store outside the 32 entries of `argv_off` or outside the stack page. -/
  | outOfBounds

/-- `start_process` on the command line `s` (without its NUL), given whether its `malloc` and
`load` succeed. `argv_off[0] = 0`; its other entries are stored before they are read. -/
def startProcess (mallocOk loadOk : Bool) (s : List UInt8) : StartOutcome :=
  if mallocOk then
    match argScan (s ++ [0]) 0 0 (List.replicate argvOffSize 0) with
    | none => .outOfBounds
    | some (buf, argc, argvOff) =>
      if loadOk then
        -- `setup_stack`: `esp = PHYS_BASE` over a zeroed page
        match setupFrame s.length buf argc argvOff ⟨physBase.toNat, fun _ => 0⟩ with
        | some f => .run f.esp f.mem
        | none => .outOfBounds
      else .exit
  else .exit

/-- The bytes `start_process` puts on the stack for a line of length `len` with `argc` strings:
the line and its NUL, the padding, `argv[0..argc]`, `argv`, `argc` and the return address. -/
def frameSize (len argc : Nat) : Nat := len + 1 + (4 - (len + 1) % 4) + 4 * (argc + 1) + 12

section Frame
variable {m m' : Nat → UInt8} {a x v : Nat} {bs : List UInt8} {f f' : Frame}

/-- Outside the stack page. -/
def OffStack (x : Nat) : Prop := x < stackBottom ∨ physBase.toNat ≤ x

theorem storeBytes_of_le (h1 : stackBottom ≤ a) (h2 : a + bs.length ≤ physBase.toNat) :
    storeBytes m a bs = some (Memory.copy m a (bs.getD · 0) bs.length) := by
  simp only [storeBytes, if_pos (And.intro h1 h2)]

theorem storeBytes_some (h : storeBytes m a bs = some m') :
    stackBottom ≤ a ∧ a + bs.length ≤ physBase.toNat ∧
      m' = Memory.copy m a (bs.getD · 0) bs.length := by
  simp only [storeBytes] at h
  split at h
  · rename_i hb
    cases h
    exact ⟨hb.1, hb.2, rfl⟩
  · cases h

theorem storeBytes_offStack (h : storeBytes m a bs = some m') (hx : OffStack x) : m' x = m x := by
  obtain ⟨h1, h2, rfl⟩ := storeBytes_some h
  rcases hx with hx | hx
  · exact Memory.copy_of_lt (by omega)
  · exact Memory.copy_of_le (by omega)

@[simp] theorem length_wordBytes (v : Nat) : (wordBytes v).length = 4 := by
  simp [wordBytes]

theorem loadWord_congr (h : ∀ j < 4, m (a + j) = m' (a + j)) : loadWord m a = loadWord m' a := by
  have h0 := h 0 (by decide)
  simp only [Nat.add_zero] at h0
  simp only [loadWord, h0, h 1 (by decide), h 2 (by decide), h 3 (by decide)]

theorem loadWord_copy_wordBytes (hv : v < 2 ^ 32) (m : Nat → UInt8) (a : Nat) :
    loadWord (Memory.copy m a ((wordBytes v).getD · 0) 4) a = v := by
  have hb : ∀ j < 4, (Memory.copy m a ((wordBytes v).getD · 0) 4 (a + j)).toNat =
      v / 256 ^ j % 256 := by
    intro j hj
    rw [Memory.copy_add hj]
    interval_cases j <;> simp [wordBytes]
  have h0 := hb 0 (by decide)
  simp only [Nat.add_zero] at h0
  simp only [loadWord, h0, hb 1 (by decide), hb 2 (by decide), hb 3 (by decide)]
  omega

theorem push_of_le (h1 : stackBottom + 4 ≤ f.esp) (h2 : f.esp ≤ physBase.toNat) (v : Nat) :
    push f v = some ⟨f.esp - 4, Memory.copy f.mem (f.esp - 4) ((wordBytes v).getD · 0) 4⟩ := by
  rw [push, storeBytes_of_le (by omega) (by rw [length_wordBytes]; omega), length_wordBytes]
  rfl

theorem push_some (h : push f v = some f') :
    f'.esp = f.esp - 4 ∧ stackBottom + 4 ≤ f.esp ∧ f.esp ≤ physBase.toNat ∧
      f'.mem = Memory.copy f.mem (f.esp - 4) ((wordBytes v).getD · 0) 4 := by
  simp only [push, Option.map_eq_some_iff] at h
  obtain ⟨m', hm, rfl⟩ := h
  obtain ⟨h1, h2, rfl⟩ := storeBytes_some hm
  have : stackBottom = 0xC0000000 - 4096 := rfl
  simp only [length_wordBytes] at h2
  exact ⟨rfl, by omega, by omega, rfl⟩

theorem push_offStack (h : push f v = some f') (hx : OffStack x) : f'.mem x = f.mem x := by
  simp only [push, Option.map_eq_some_iff] at h
  obtain ⟨m', hm, rfl⟩ := h
  exact storeBytes_offStack hm hx

/-- Every push moves `esp` down by a word and keeps it inside the stack page. -/
theorem runs_push_esp {ws : List Nat} (h : runs push f ws = some f') :
    f'.esp = f.esp - 4 * ws.length ∧ (ws = [] ∨ stackBottom ≤ f'.esp) := by
  induction ws generalizing f with
  | nil =>
    cases h
    exact ⟨by simp, .inl rfl⟩
  | cons v ws ih =>
    simp only [runs_cons, Option.bind_eq_some_iff] at h
    obtain ⟨f1, h1, hrest⟩ := h
    obtain ⟨he1, hb1, -⟩ := push_some h1
    obtain ⟨he, hws⟩ := ih hrest
    refine ⟨by rw [he, he1, List.length_cons]; omega, .inr ?_⟩
    rcases hws with rfl | hws
    · simp only [List.length_nil] at he
      omega
    · exact hws

/-- Pushing the words `ws` in order leaves them, read upward from the new `esp`, reversed, and
touches nothing outside the words it stores. -/
theorem runs_push_spec {ws : List Nat} (h1 : stackBottom + 4 * ws.length ≤ f.esp)
    (h2 : f.esp ≤ physBase.toNat) (hws : ∀ v ∈ ws, v < 2 ^ 32) :
    ∃ m', runs push f ws = some ⟨f.esp - 4 * ws.length, m'⟩ ∧
      (∀ k < ws.length, loadWord m' (f.esp - 4 * ws.length + 4 * k) = ws.reverse.getD k 0) ∧
      ∀ x, (x < f.esp - 4 * ws.length ∨ f.esp ≤ x) → m' x = f.mem x := by
  induction ws generalizing f with
  | nil => exact ⟨f.mem, rfl, fun k hk => absurd hk (Nat.not_lt_zero _), fun _ _ => rfl⟩
  | cons v ws ih =>
    simp only [List.length_cons] at h1
    have hpush := push_of_le (f := f) (by omega) h2 v
    obtain ⟨m', hrun, hload, hkeep⟩ :=
      ih (f := ⟨f.esp - 4, Memory.copy f.mem (f.esp - 4) ((wordBytes v).getD · 0) 4⟩)
        (show stackBottom + 4 * ws.length ≤ f.esp - 4 by omega)
        (show f.esp - 4 ≤ physBase.toNat by omega) (fun w hw => hws w (by simp [hw]))
    dsimp only at hrun hload hkeep
    have hesp : f.esp - 4 - 4 * ws.length = f.esp - 4 * (ws.length + 1) := by omega
    rw [hesp] at hrun hload hkeep
    refine ⟨m', by rw [runs_cons, hpush, Option.bind_some, hrun, List.length_cons], ?_, ?_⟩
    · intro k hk
      rw [List.length_cons] at hk
      rw [List.reverse_cons, List.length_cons]
      rcases Nat.lt_succ_iff_lt_or_eq.1 hk with hk | rfl
      · rw [hload k hk, List.getD_eq_getElem?_getD, List.getD_eq_getElem?_getD,
          List.getElem?_append_left (by simpa using hk)]
      · -- the word `v`, the first pushed: the pushes after it lie below it
        have hv : loadWord m' (f.esp - 4) = v := by
          rw [@loadWord_congr m' (Memory.copy f.mem (f.esp - 4) ((wordBytes v).getD · 0) 4)
            (f.esp - 4) (fun j _ => hkeep _ (.inr (by omega))),
            loadWord_copy_wordBytes (hws v (by simp))]
        have ha : f.esp - 4 * (ws.length + 1) + 4 * ws.length = f.esp - 4 := by omega
        rw [ha, hv]
        simp [List.getD_eq_getElem?_getD]
    · intro x hx
      rw [List.length_cons] at hx
      rw [hkeep x (by omega)]
      rcases hx with hx | hx
      · exact Memory.copy_of_lt (by omega)
      · exact Memory.copy_of_le (by omega)

/-- The words `setupFrame` pushes below the line, in order: `argv[argc]`, `argv[argc - 1]` down
to `argv[0]`, `argv`, `argc` and the return address. -/
def frameWords (start pad argc : Nat) (argvOff : List Nat) : List Nat :=
  0 :: (List.range argc).reverse.map (fun i => start + argvOff.getD i 0) ++
    [start - pad - 4 * (argc + 1), argc, 0]

/-- Once the line is stored, the frame is one run of pushes: the value of `argv` is where
`esp` stands after the pushes before it. -/
theorem setupFrame_eq (len : Nat) (buf : List UInt8) (argc : Nat) (argvOff : List Nat)
    (f : Frame) :
    setupFrame len buf argc argvOff f =
      (storeBytes f.mem (f.esp - (len + 1)) (buf.take (len + 1))).bind fun mem =>
        runs push ⟨f.esp - (len + 1) - (4 - (len + 1) % 4), mem⟩
          (frameWords (f.esp - (len + 1)) (4 - (len + 1) % 4) argc argvOff) := by
  simp only [setupFrame, frameWords, Option.bind_eq_bind, runs_append, runs_cons, runs_nil]
  rcases hs : storeBytes f.mem (f.esp - (len + 1)) (buf.take (len + 1)) with _ | mem
  · simp only [Option.bind_none]
  rcases hp : push ⟨f.esp - (len + 1) - (4 - (len + 1) % 4), mem⟩ 0 with _ | f1
  · simp only [Option.bind_some, hp, Option.bind_none]
  rcases hr : runs push f1 ((List.range argc).reverse.map fun i =>
      f.esp - (len + 1) + argvOff.getD i 0) with _ | f2
  · simp only [Option.bind_some, hp, hr, Option.bind_none]
  have he1 := (push_some hp).1
  have he2 := (runs_push_esp hr).1
  simp only [List.length_map, List.length_reverse, List.length_range] at he1 he2
  have he : f2.esp = f.esp - (len + 1) - (4 - (len + 1) % 4) - 4 * (argc + 1) := by
    rw [he2, he1]
    omega
  simp only [Option.bind_some, hp, hr, he, Option.bind_fun_some]

theorem frameWords_reverse (start pad argc : Nat) (argvOff : List Nat) :
    (frameWords start pad argc argvOff).reverse =
      [0, argc, start - pad - 4 * (argc + 1)] ++
        (List.range argc).map (fun i => start + argvOff.getD i 0) ++ [0] := by
  simp [frameWords, List.map_reverse]

@[simp] theorem length_frameWords (start pad argc : Nat) (argvOff : List Nat) :
    (frameWords start pad argc argvOff).length = argc + 4 := by
  simp [frameWords]

theorem physBase_toNat_eq : physBase.toNat = 3221225472 := rfl

theorem stackBottom_eq : stackBottom = 3221225472 - 4096 := rfl

/-- With room for the frame in the page, `setupFrame` from `PHYS_BASE` leaves `esp` at
`PHYS_BASE - frameSize`, the line at the top of the page and, from `esp` up, the return address,
`argc`, `argv`, `argv[0..argc-1]` pointing into the line, and NULL; no byte off the stack page
changes. -/
theorem setupFrame_spec {len argc : Nat} {buf : List UInt8} {argvOff : List Nat}
    (hbuf : buf.length = len + 1) (hfit : frameSize len argc ≤ pgSize)
    (hoff : ∀ i < argc, argvOff.getD i 0 ≤ len) (m : Nat → UInt8) :
    ∃ mem, setupFrame len buf argc argvOff ⟨physBase.toNat, m⟩ =
        some ⟨physBase.toNat - frameSize len argc, mem⟩ ∧
      loadWord mem (physBase.toNat - frameSize len argc) = 0 ∧
      loadWord mem (physBase.toNat - frameSize len argc + 4) = argc ∧
      loadWord mem (physBase.toNat - frameSize len argc + 8) =
        physBase.toNat - frameSize len argc + 12 ∧
      (∀ i < argc, loadWord mem (physBase.toNat - frameSize len argc + 12 + 4 * i) =
        physBase.toNat - (len + 1) + argvOff.getD i 0) ∧
      loadWord mem (physBase.toNat - frameSize len argc + 12 + 4 * argc) = 0 ∧
      (∀ j < len + 1, mem (physBase.toNat - (len + 1) + j) = buf.getD j 0) ∧
      ∀ x, OffStack x → mem x = m x := by
  have hPB := physBase_toNat_eq
  have hSB := stackBottom_eq
  simp only [frameSize, pgSize] at hfit ⊢
  rw [setupFrame_eq]
  dsimp only
  rw [List.take_of_length_le (by omega), storeBytes_of_le (by omega) (by omega), hbuf,
    Option.bind_some]
  have hws : ∀ v ∈ frameWords (physBase.toNat - (len + 1)) (4 - (len + 1) % 4) argc argvOff,
      v < 2 ^ 32 := by
    intro v hv
    simp only [frameWords, List.mem_cons, List.mem_append, List.mem_map, List.mem_reverse,
      List.mem_range, List.not_mem_nil, or_false] at hv
    rcases hv with (rfl | ⟨i, hi, rfl⟩) | rfl | rfl | rfl
    · decide
    · have := hoff i hi
      omega
    all_goals omega
  obtain ⟨mem, hrun, hload, hkeep⟩ := @runs_push_spec
    ⟨physBase.toNat - (len + 1) - (4 - (len + 1) % 4),
      Memory.copy m (physBase.toNat - (len + 1)) (buf.getD · 0) (len + 1)⟩
    (frameWords (physBase.toNat - (len + 1)) (4 - (len + 1) % 4) argc argvOff)
    (by dsimp only; rw [length_frameWords]; omega) (by dsimp only; omega) hws
  dsimp only at hrun hload hkeep
  simp only [length_frameWords, frameWords_reverse] at hrun hload hkeep
  have hesp : physBase.toNat - (len + 1) - (4 - (len + 1) % 4) - 4 * (argc + 4) =
      physBase.toNat - (len + 1 + (4 - (len + 1) % 4) + 4 * (argc + 1) + 12) := by omega
  rw [hesp] at hrun hload hkeep
  generalize hE : physBase.toNat - (len + 1 + (4 - (len + 1) % 4) + 4 * (argc + 1) + 12) = esp
    at hrun hload hkeep ⊢
  refine ⟨mem, hrun, ?_, ?_, ?_, ?_, ?_, ?_, ?_⟩
  · simpa using hload 0 (by omega)
  · simpa using hload 1 (by omega)
  · have := hload 2 (by omega)
    rw [show esp + 4 * 2 = esp + 8 by omega, List.getD_eq_getElem?_getD,
      List.getElem?_append_left (by simp), List.getElem?_append_left (by simp)] at this
    simp only [this, List.getElem?_cons_succ, List.getElem?_cons_zero, Option.getD_some]
    omega
  · intro i hi
    have := hload (3 + i) (by omega)
    rw [show esp + 4 * (3 + i) = esp + 12 + 4 * i by omega] at this
    rw [this, List.getD_eq_getElem?_getD, List.getElem?_append_left (by simp; omega),
      List.getElem?_append_right (by simp)]
    simp [hi]
  · have := hload (3 + argc) (by omega)
    rw [show esp + 4 * (3 + argc) = esp + 12 + 4 * argc by omega] at this
    rw [this, List.getD_eq_getElem?_getD, List.getElem?_append_right (by simp; omega)]
    simp
  · intro j hj
    rw [hkeep _ (.inr (by omega)), Memory.copy_add hj]
  · intro x hx
    rcases hx with hx | hx
    · rw [hkeep x (.inl (by omega)), Memory.copy_of_lt (by omega)]
    · rw [hkeep x (.inr (by omega)), Memory.copy_of_le (by omega)]

theorem setupFrame_fits {len argc : Nat} {buf : List UInt8} {argvOff : List Nat}
    {m : Nat → UInt8} {f : Frame} (h : setupFrame len buf argc argvOff ⟨physBase.toNat, m⟩ = some f) :
    frameSize len argc ≤ pgSize := by
  have hPB := physBase_toNat_eq
  have hSB := stackBottom_eq
  rw [setupFrame_eq, Option.bind_eq_some_iff] at h
  obtain ⟨mem, -, hrun⟩ := h
  obtain ⟨he, hin⟩ := runs_push_esp hrun
  rcases hin with hnil | hin
  · simp [frameWords] at hnil
  · dsimp only at he
    rw [length_frameWords] at he
    simp only [frameSize, pgSize]
    omega

end Frame

/-! ### What `start_process` leaves -/

/-- The frame a user `main (argc, argv)` finds at `esp` for the strings `args`: reading upward a
zero return address, `argc`, `argv = esp + 12`, then `argv[0..argc]` ending in NULL, each
`argv[i]` pointing above the array at a NUL-terminated copy of `args[i]` below `PHYS_BASE`; `esp`
is word-aligned and inside the stack page. -/
structure ArgFrame (args : List (List UInt8)) (esp : Nat) (m : Nat → UInt8) : Prop where
  inPage : stackBottom ≤ esp
  aligned : esp % 4 = 0
  ret : loadWord m esp = 0
  argc : loadWord m (esp + 4) = args.length
  argv : loadWord m (esp + 8) = esp + 12
  null : loadWord m (esp + 12 + 4 * args.length) = 0
  strs : ∀ i (hi : i < args.length),
    esp + 16 + 4 * args.length ≤ loadWord m (esp + 12 + 4 * i) ∧
    loadWord m (esp + 12 + 4 * i) + args[i].length < physBase.toNat ∧
    Memory.read m (loadWord m (esp + 12 + 4 * i)) args[i].length = args[i] ∧
    m (loadWord m (esp + 12 + 4 * i) + args[i].length) = 0

theorem StrAt.getD {b : List UInt8} {o : Nat} {x : List UInt8} (h : StrAt b o x) {j : Nat}
    (hj : j ≤ x.length) : b.getD (o + j) 0 = (x ++ [0]).getD j 0 := by
  rw [← h, ← getD_drop_eq, List.getD_eq_getElem?_getD, List.getD_eq_getElem?_getD,
    List.getElem?_take, if_pos (by omega)]

theorem StrAt.read {b : List UInt8} {o p : Nat} {x : List UInt8} {m : Nat → UInt8}
    (h : StrAt b o x) (hm : ∀ j < b.length, m (p + j) = b.getD j 0) (hlt : o + x.length < b.length) :
    Memory.read m (p + o) x.length = x ∧ m (p + o + x.length) = 0 := by
  constructor
  · apply List.ext_getElem (Memory.length_read _ _ _)
    intro j _ hj
    simp only [Memory.read, List.getElem_ofFn]
    rw [Nat.add_assoc, hm _ (by omega), h.getD (by omega), List.getD_eq_getElem?_getD,
      List.getElem?_append_left hj, List.getElem?_eq_getElem hj, Option.getD_some]
  · rw [Nat.add_assoc, hm _ hlt, h.getD le_rfl, List.getD_eq_getElem?_getD,
      List.getElem?_append_right le_rfl, Nat.sub_self]
    rfl

/-- With fewer than 32 tokens and a frame that fits in the stack page, `start_process` runs
the program on the frame for the strings of `argv`, and no byte off the stack page is
written. -/
theorem startProcess_run {s : List UInt8} (hnul : 0 ∉ s) (hargc : (tokens s).length < argvOffSize)
    (hfit : frameSize s.length (tokens s).length ≤ pgSize) :
    ∃ esp mem, startProcess true true s = .run esp mem ∧ ArgFrame (argStrings s) esp mem ∧
      ∀ x, OffStack x → mem x = 0 := by
  rw [← length_argStrings] at hargc hfit
  rcases argScan_spec (scanInv_init s hnul) with ⟨buf, argvOff, hrun, -, hlen, hd⟩ | ⟨-, h32⟩
  swap
  · omega
  simp only [List.length_append, List.length_singleton] at hlen
  obtain ⟨mem, hframe, hret, hargv0, hargv, hptr, hnull, hline, hoff⟩ :=
    @setupFrame_spec s.length (argStrings s).length buf argvOff hlen hfit
      (fun i hi => by have := (hd.strs i hi).1; omega) (fun _ => 0)
  have hPB := physBase_toNat_eq
  have hSB := stackBottom_eq
  have hsize := hfit
  simp only [frameSize, pgSize] at hsize
  refine ⟨_, mem, by simp only [startProcess, if_true, hrun, hframe], ⟨?_, ?_, hret, hargv0,
    hargv, hnull, ?_⟩, hoff⟩
  · simp only [frameSize]
    omega
  · simp only [frameSize]
    omega
  · intro i hi
    obtain ⟨hb, hstr⟩ := hd.strs i hi
    rw [← List.getD_eq_getElem _ [] hi, hptr i hi]
    obtain ⟨hread, hnul⟩ := hstr.read (p := physBase.toNat - (s.length + 1))
      (by rw [hlen]; exact hline) hb
    rw [hlen] at hb
    refine ⟨?_, by omega, hread, hnul⟩
    simp only [frameSize]
    omega

/-- With 32 tokens or more the tokenising loop stores `argv_off[32]`, past the 32 entries
`malloc` gave it, before `load` is even called. -/
theorem start_process_argv_off_overflow {s : List UInt8} (hnul : 0 ∉ s)
    (h32 : argvOffSize ≤ (tokens s).length) (loadOk : Bool) :
    startProcess true loadOk s = .outOfBounds := by
  rw [← length_argStrings] at h32
  rcases argScan_spec (scanInv_init s hnul) with ⟨-, -, -, hlt, -⟩ | ⟨hnone, -⟩
  · omega
  · simp only [startProcess, if_true, hnone]

theorem start_process_argv_off_overflow_sample :
    0 ∉ (List.replicate 32 [97, 32]).flatten ∧
      argvOffSize ≤ (tokens (List.replicate 32 [97, 32]).flatten).length ∧
      startProcess true true (List.replicate 32 [97, 32]).flatten = .outOfBounds :=
  ⟨by decide, by decide, start_process_argv_off_overflow (by decide) (by decide) true⟩

/-- A frame that does not fit leaves the stack page: with fewer than 32 tokens, a line close
to `PGSIZE` bytes makes a push fault below `PHYS_BASE - PGSIZE`. -/
theorem startProcess_of_frame_too_big {s : List UInt8} (hnul : 0 ∉ s)
    (hargc : (tokens s).length < argvOffSize) (hbig : pgSize < frameSize s.length (tokens s).length) :
    startProcess true true s = .outOfBounds := by
  rw [← length_argStrings] at hargc hbig
  rcases argScan_spec (scanInv_init s hnul) with ⟨buf, argvOff, hrun, -, -, -⟩ | ⟨-, h32⟩
  swap
  · omega
  simp only [startProcess, if_true, hrun]
  split
  · rename_i f hf
    exact absurd (setupFrame_fits hf) (by omega)
  · rfl

end Pintos.Userprog
