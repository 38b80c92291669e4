import Pintos.Lib.ListSort
import Pintos.Kit.Run

/-! The lists of a kernel in one heap, numbered by `ι`, under any sequence of list.c calls.
Each list is at `ls i` and holds the sequence `s i`. A call is allowed when it meets what its
comment and `ASSERT`s ask: an element inserted is on no list, an element removed is on the
list, and a range spliced is a range of its list with BEFORE outside it. The ordered calls come
with a strict weak ordering. Every such run keeps every list well formed and apart from the
others, and changes the sequences exactly as `seqStep` says. -/
namespace Pintos.Lib
open Pintos.Kit

/-- A call of list.c on the lists numbered by `ι`. The list a pointer argument lies on is named
with it; the ordered calls carry their comparison. -/
inductive ListCall (ι : Type)
  | init (i : ι)
  | insert (i : ι) (before elem : Ptr)
  | pushFront (i : ι) (elem : Ptr)
  | pushBack (i : ι) (elem : Ptr)
  | remove (i : ι) (elem : Ptr)
  | popFront (i : ι)
  | popBack (i : ι)
  | splice (i : ι) (before : Ptr) (j : ι) (first last : Ptr)
  | reverse (i : ι)
  | sort (i : ι) (less : Ptr → Ptr → Bool)
  | insertOrdered (i : ι) (elem : Ptr) (less : Ptr → Ptr → Bool)
  | unique (i : ι) (dups : Option ι) (less : Ptr → Ptr → Bool)

section Calls
variable {ι : Type} (ls : ι → Lst) (fuel : Nat)

/-- A call on the heap, each loop given FUEL passes; `none` where an `ASSERT` fails. -/
def callStep (h : Heap) : ListCall ι → Option Heap
  | .init i => some (listInit h (ls i))
  | .insert _ before elem => listInsert h before elem
  | .pushFront i elem => listPushFront h (ls i) elem
  | .pushBack i elem => listPushBack h (ls i) elem
  | .remove _ elem => (listRemove h elem).map Prod.fst
  | .popFront i => (listPopFront h (ls i)).map Prod.fst
  | .popBack i => (listPopBack h (ls i)).map Prod.fst
  | .splice _ before _ first last => listSplice h before first last
  | .reverse i => listReverse fuel h (ls i)
  | .sort i less => listSort less fuel h (ls i)
  | .insertOrdered i elem less => listInsertOrdered less fuel h (ls i) elem
  | .unique i dups less => listUnique less fuel h (ls i) (dups.map ls)

/-- XS with YS put just before BEFORE, or at the back when BEFORE is not one of XS. -/
def seqInsert (before : Ptr) (ys xs : List Ptr) : List Ptr :=
  xs.takeWhile (· ≠ before) ++ ys ++ xs.dropWhile (· ≠ before)

/-- The range FIRST...LAST (exclusive) of XS. -/
def seqRange (first last : Ptr) (xs : List Ptr) : List Ptr :=
  if first = last then [] else (xs.dropWhile (· ≠ first)).takeWhile (· ≠ last)

/-- XS without the range FIRST...LAST. -/
def seqCut (first last : Ptr) (xs : List Ptr) : List Ptr :=
  if first = last then xs
  else xs.takeWhile (· ≠ first) ++ (xs.dropWhile (· ≠ first)).dropWhile (· ≠ last)

variable [DecidableEq ι]

/-- What a call does to the sequences of the lists, as list.c's comments say. -/
def seqStep (s : ι → List Ptr) : ListCall ι → ι → List Ptr
  | .init i => Function.update s i []
  | .insert i before elem => Function.update s i (seqInsert before [elem] (s i))
  | .pushFront i elem => Function.update s i (elem :: s i)
  | .pushBack i elem => Function.update s i (s i ++ [elem])
  | .remove i elem => Function.update s i ((s i).erase elem)
  | .popFront i => Function.update s i (s i).tail
  | .popBack i => Function.update s i (s i).dropLast
  | .splice i before j first last =>
    let s' := Function.update s j (seqCut first last (s j))
    Function.update s' i (seqInsert before (seqRange first last (s j)) (s' i))
  | .reverse i => Function.update s i (s i).reverse
  | .sort i less => Function.update s i ((s i).mergeSort (notAfter less))
  | .insertOrdered i elem less =>
    Function.update s i ((s i).orderedInsert (fun a b => less a b) elem)
  | .unique i dups less =>
    let s' := match dups with
      | some d => Function.update s d (s d ++ ((s i).splitBy (equiv less)).flatMap List.tail)
      | none => s
    Function.update s' i (((s i).splitBy (equiv less)).filterMap List.head?)

/-- ELEM is on none of the lists. -/
def Free (s : ι → List Ptr) (elem : Ptr) : Prop := ∀ k, elem ∉ (ls k).chain (s k)

/-- The calls list.c allows on lists holding S, each loop given FUEL passes. -/
def Allowed (s : ι → List Ptr) : ListCall ι → Prop
  | .init _ => True
  | .insert i before elem => (before ∈ s i ∨ before = (ls i).tail) ∧ Free ls s elem
  | .pushFront _ elem => Free ls s elem
  | .pushBack _ elem => Free ls s elem
  | .remove i elem => elem ∈ s i
  | .popFront i => s i ≠ []
  | .popBack i => s i ≠ []
  | .splice i before j first last =>
    (before ∈ s i ∨ before = (ls i).tail) ∧
      (first = last ∨ first ∈ s j ∧ (last ∈ (s j).dropWhile (· ≠ first) ∨ last = (ls j).tail)) ∧
      (i = j → before ∉ seqRange first last (s j))
  | .reverse i => (s i).length < fuel
  | .sort i less => IsStrictWeakOrder Ptr (fun a b => less a b) ∧ (s i).length < fuel
  | .insertOrdered i elem _ => Free ls s elem ∧ (s i).length < fuel
  | .unique i dups less =>
    IsStrictWeakOrder Ptr (fun a b => less a b) ∧ (s i).length < fuel ∧ dups ≠ some i

/-- Each call of the run allowed where it is made. -/
def AllowedRun (s : ι → List Ptr) (cs : List (ListCall ι)) : Prop :=
  AllowedAlong (Allowed ls fuel) seqStep s cs

/-- Every list well formed with its sequence, and no node on two lists. -/
structure Sound (h : Heap) (s : ι → List Ptr) : Prop where
  wf : ∀ i, WF h (ls i) (s i)
  apart : ∀ i j, i ≠ j → ∀ x ∈ (ls i).chain (s i), x ∉ (ls j).chain (s j)

end Calls

/-! ### Positions by pointer -/

section Seq

/-- The elements of XS from P on start at P, when P is one of them; when it is not, there are
none, and the node after them is the tail. -/
theorem headD_dropWhile {xs : List Ptr} {p t : Ptr} (hp : p ∈ xs ∨ p = t) (ht : t ∉ xs) :
    (xs.dropWhile (· ≠ p)).headD t = p := by
  induction xs with
  | nil =>
    rcases hp with hp | rfl
    · exact absurd hp List.not_mem_nil
    · rfl
  | cons x xs ih =>
    by_cases hx : x = p
    · simp [hx]
    · rw [List.dropWhile_cons_of_pos (by simpa using hx)]
      exact ih (hp.imp_left fun hm => (List.mem_cons.mp hm).resolve_left (Ne.symm hx))
        fun hm => ht (List.mem_cons_of_mem _ hm)

/-- The range FIRST...LAST of XS, when FIRST is one of XS and LAST is after it or the tail:
XS is the elements before it, the range, which starts at FIRST, and the rest, which starts at
LAST. -/
theorem seqRange_split {xs : List Ptr} {first last t : Ptr} (hne : first ≠ last)
    (hf : first ∈ xs) (hl : last ∈ xs.dropWhile (· ≠ first) ∨ last = t) (ht : t ∉ xs) :
    ∃ A C, xs = A ++ seqRange first last xs ++ C ∧ seqCut first last xs = A ++ C ∧
      ∃ M', seqRange first last xs = first :: M' ∧ C.headD t = last := by
  obtain ⟨D', hD⟩ : ∃ D', xs.dropWhile (· ≠ first) = first :: D' := by
    have := headD_dropWhile (t := t) (.inl hf) ht
    cases hd : xs.dropWhile (· ≠ first) with
    | nil =>
      rw [hd, List.headD_nil] at this
      rw [← this] at hf
      exact absurd hf ht
    | cons y D' => rw [hd] at this; exact ⟨D', by rw [← this]; rfl⟩
  have hDt : t ∉ xs.dropWhile (· ≠ first) := fun hm => ht (List.dropWhile_sublist _ |>.subset hm)
  refine ⟨xs.takeWhile (· ≠ first), (xs.dropWhile (· ≠ first)).dropWhile (· ≠ last), ?_,
    by simp [seqCut, hne], (D'.takeWhile (· ≠ last)), ?_, headD_dropWhile hl hDt⟩
  · rw [seqRange, if_neg hne, List.append_assoc, List.takeWhile_append_dropWhile,
      List.takeWhile_append_dropWhile]
  · rw [seqRange, if_neg hne, hD, List.takeWhile_cons_of_pos (by simpa using hne)]

theorem seqInsert_split {xs : List Ptr} {b t : Ptr} (hb : b ∈ xs ∨ b = t) (ht : t ∉ xs)
    (ys : List Ptr) : ∃ T D, xs = T ++ D ∧ seqInsert b ys xs = T ++ ys ++ D ∧ D.headD t = b :=
  ⟨_, _, List.takeWhile_append_dropWhile.symm, rfl, headD_dropWhile hb ht⟩

end Seq

/-! ### The lists keep apart -/

section Sound
variable {ι : Type} [DecidableEq ι] {ls : ι → Lst} {h h' : Heap} {s s' : ι → List Ptr}

omit [DecidableEq ι] in
theorem Sound.head_ne_tail (hs : Sound ls h s) (i : ι) : (ls i).head ≠ (ls i).tail := fun e => by
  have := (hs.wf i).nodup
  simp [Lst.chain, e] at this

/-- A call that changes the lists named in `I` to `s'`, writing only nodes of their chains
before and after, and taking their new elements from those lists or from no list, keeps every
list well formed and the lists apart, as long as the changed lists stay apart among themselves. -/
theorem Sound.update (I : List ι) (hs : Sound ls h s) (hwf : ∀ i ∈ I, WF h' (ls i) (s' i))
    (hsame : ∀ j ∉ I, s' j = s j)
    (hfr : ∀ x, (∀ i ∈ I, x ∉ (ls i).chain (s i)) → (∀ i ∈ I, x ∉ (ls i).chain (s' i)) →
      h' x = h x)
    (hsrc : ∀ i ∈ I, ∀ x ∈ s' i, (∃ k ∈ I, x ∈ s k) ∨ Free ls s x)
    (happ : ∀ i ∈ I, ∀ k ∈ I, i ≠ k → ∀ x ∈ (ls i).chain (s' i), x ∉ (ls k).chain (s' k)) :
    Sound ls h' s' := by
  have hout : ∀ j ∉ I, ∀ x ∈ (ls j).chain (s j), ∀ i ∈ I, x ∉ (ls i).chain (s' i) := by
    intro j hj x hx i hi hx'
    have hij : i ≠ j := fun e => hj (e ▸ hi)
    rcases Lst.mem_chain.mp hx' with e | hm | e
    · exact hs.apart i j hij x (by simp [e]) hx
    · rcases hsrc i hi x hm with ⟨k, hk, hxk⟩ | hfree
      · exact hs.apart k j (fun e => hj (e ▸ hk)) x (by simp [hxk]) hx
      · exact hfree j hx
    · exact hs.apart i j hij x (by simp [e]) hx
  have hold : ∀ j ∉ I, ∀ x ∈ (ls j).chain (s j), ∀ i ∈ I, x ∉ (ls i).chain (s i) :=
    fun j hj x hx i hi hx' => hs.apart i j (fun e => hj (e ▸ hi)) x hx' hx
  refine ⟨fun j => ?_, fun i j hij x hx hx' => ?_⟩
  · by_cases hj : j ∈ I
    · exact hwf j hj
    · rw [hsame j hj]
      exact (hs.wf j).congr fun x hx => hfr x (hold j hj x hx) (hout j hj x hx)
  · by_cases hi : i ∈ I <;> by_cases hj : j ∈ I
    · exact happ i hi j hj hij x hx hx'
    · rw [hsame j hj] at hx'
      exact hout j hj x hx' i hi hx
    · rw [hsame i hi] at hx
      exact hout i hi x hx j hj hx'
    · rw [hsame i hi] at hx
      rw [hsame j hj] at hx'
      exact hs.apart i j hij x hx hx'

theorem Sound.update_one (i : ι) {xs : List Ptr} (hs : Sound ls h s) (hw : WF h' (ls i) xs)
    (hfr : ∀ x, x ∉ (ls i).chain (s i) → x ∉ (ls i).chain xs → h' x = h x)
    (hsrc : ∀ x ∈ xs, x ∈ s i ∨ Free ls s x) : Sound ls h' (Function.update s i xs) := by
  refine hs.update [i] (fun k hk => ?_) (fun j hj => ?_) (fun x h1 h2 => ?_) (fun k hk x hx => ?_)
    (fun k hk m hm hne => ?_)
  · rw [List.mem_singleton.mp hk]
    simpa using hw
  · exact Function.update_of_ne (fun e => hj (by simp [e])) _ _
  · exact hfr x (h1 i (by simp)) (by simpa using h2 i (by simp))
  · obtain rfl := List.mem_singleton.mp hk
    rw [Function.update_self] at hx
    rcases hsrc x hx with h | h
    · exact .inl ⟨_, List.mem_singleton_self _, h⟩
    · exact .inr h
  · exact absurd ((List.mem_singleton.mp hk).trans (List.mem_singleton.mp hm).symm) hne

theorem Sound.update_two {i j : ι} (hij : i ≠ j) {xi xj : List Ptr} (hs : Sound ls h s)
    (hwi : WF h' (ls i) xi) (hwj : WF h' (ls j) xj)
    (hnd : ((ls i).chain xi ++ (ls j).chain xj).Nodup)
    (hfr : ∀ x, x ∉ (ls i).chain (s i) → x ∉ (ls j).chain (s j) → h' x = h x)
    (hsrc : ∀ x ∈ xi ++ xj, x ∈ s i ∨ x ∈ s j) :
    Sound ls h' (Function.update (Function.update s j xj) i xi) := by
  have hi : Function.update (Function.update s j xj) i xi i = xi := Function.update_self ..
  have hj : Function.update (Function.update s j xj) i xi j = xj := by
    rw [Function.update_of_ne hij.symm, Function.update_self]
  have hd := List.disjoint_of_nodup_append hnd
  refine hs.update [i, j] (fun k hk => ?_) (fun k hk => ?_) (fun x h1 _ => ?_)
    (fun k hk x hx => ?_) (fun k hk m hm hne x hx hx' => ?_)
  · rcases List.mem_pair.mp hk with rfl | rfl
    · rwa [hi]
    · rwa [hj]
  · have hki : k ≠ i := fun e => hk (by simp [e])
    have hkj : k ≠ j := fun e => hk (by simp [e])
    rw [Function.update_of_ne hki, Function.update_of_ne hkj]
  · exact hfr x (h1 i (by simp)) (h1 j (by simp))
  · -- the new elements of either list come from the two
    have hx' : x ∈ xi ++ xj := by
      rcases List.mem_pair.mp hk with rfl | rfl
      · rw [hi] at hx; exact List.mem_append_left _ hx
      · rw [hj] at hx; exact List.mem_append_right _ hx
    rcases hsrc x hx' with hm | hm
    · exact .inl ⟨i, by simp, hm⟩
    · exact .inl ⟨j, by simp, hm⟩
  · rcases List.mem_pair.mp hk with rfl | rfl <;> rcases List.mem_pair.mp hm with rfl | rfl
    · exact hne rfl
    · rw [hi] at hx; rw [hj] at hx'; exact hd hx hx'
    · rw [hj] at hx; rw [hi] at hx'; exact hd hx' hx
    · exact hne rfl

omit [DecidableEq ι] in
theorem Sound.nodup_pair (hs : Sound ls h s) {i j : ι} (hij : i ≠ j) :
    ((ls i).chain (s i) ++ (ls j).chain (s j)).Nodup :=
  List.nodup_append.mpr ⟨(hs.wf i).nodup, (hs.wf j).nodup,
    fun x hx _ hy e => hs.apart i j hij x hx (e ▸ hy)⟩

end Sound

/-! ### Each call -/

section Steps
variable {ι : Type} [DecidableEq ι] {ls : ι → Lst} {fuel : Nat} {h : Heap} {s : ι → List Ptr}

theorem Lst.chain_move_perm (l l' : Lst) (A M C P Q : List Ptr) :
    (l'.chain (P ++ M ++ Q) ++ l.chain (A ++ C)).Perm (l.chain (A ++ M ++ C) ++ l'.chain (P ++ Q)) := by
  rw [List.perm_iff_count]
  intro a
  simp only [Lst.chain, List.count_append, List.count_cons]
  omega

theorem Lst.chain_unique_perm (l d : Lst) (F T D : List Ptr) :
    (l.chain F ++ d.chain (D ++ T)).Perm (l.chain (F ++ T) ++ d.chain D) := by
  rw [List.perm_iff_count]
  intro a
  simp only [Lst.chain, List.count_append, List.count_cons]
  omega

omit [DecidableEq ι] in
theorem src_of_insert {i : ι} {A B : List Ptr} {elem x : Ptr} (he : Free ls s elem)
    (hAB : s i = A ++ B) (hx : x ∈ A ++ elem :: B) : x ∈ s i ∨ Free ls s x := by
  rcases List.mem_cons.mp (List.perm_middle.mem_iff.mp hx) with rfl | hx
  · exact .inr he
  · exact .inl (hAB ▸ hx)

theorem Sound.insert (hs : Sound ls h s) {i : ι} {before elem : Ptr}
    (ha : Allowed ls fuel s (.insert i before elem)) :
    ∃ h', listInsert h before elem = some h' ∧ Sound ls h' (seqStep s (.insert i before elem)) := by
  obtain ⟨hb, he⟩ := ha
  obtain ⟨T, D, hTD, hins, hD⟩ := seqInsert_split hb (fun hm => (hs.wf i).ne_tail hm rfl) [elem]
  have hw := hs.wf i
  rw [hTD] at hw
  obtain ⟨h', hi, hw', hfr⟩ := listInsert_spec hw (by rw [← hTD]; exact he i)
  rw [hD] at hi
  simp only [seqStep, hins, List.append_assoc, List.singleton_append]
  exact ⟨h', hi, hs.update_one i hw' (fun x _ hx => hfr x hx) fun x hx => src_of_insert he hTD hx⟩

theorem Sound.remove (hs : Sound ls h s) {i : ι} {elem : Ptr}
    (ha : Allowed ls fuel s (.remove i elem)) :
    ∃ h', (listRemove h elem).map Prod.fst = some h' ∧
      Sound ls h' (seqStep s (.remove i elem)) := by
  obtain ⟨A, B, hAB⟩ := List.append_of_mem (show elem ∈ s i from ha)
  have hw := hs.wf i
  rw [hAB] at hw
  obtain ⟨h', hr, hw', hfr⟩ := listRemove_spec hw
  have hA : elem ∉ A := fun hm => hw.headD_ne hm rfl
  have herase : (s i).erase elem = A ++ B := by
    rw [hAB, List.erase_append_right _ hA, List.erase_cons_head]
  refine ⟨h', by rw [hr]; rfl, ?_⟩
  simp only [seqStep, herase]
  refine hs.update_one i hw' (fun x _ hx => hfr x hx) fun x hx => .inl ?_
  rw [hAB]
  rcases List.mem_append.mp hx with hx | hx
  · exact List.mem_append_left _ hx
  · exact List.mem_append_right _ (List.mem_cons_of_mem _ hx)

theorem seqStep_splice_empty (i j : ι) (before first : Ptr) :
    seqStep s (.splice i before j first first) = s := by
  simp [seqStep, seqCut, seqRange, seqInsert]

theorem Sound.splice (hs : Sound ls h s) {i j : ι} {before first last : Ptr}
    (ha : Allowed ls fuel s (.splice i before j first last)) :
    ∃ h', listSplice h before first last = some h' ∧
      Sound ls h' (seqStep s (.splice i before j first last)) := by
  obtain ⟨hb, hr, hin⟩ := ha
  by_cases hfl : first = last
  · -- an empty range: nothing moves
    subst hfl
    obtain ⟨p, hp⟩ := (hs.wf i).prev_some hb
    exact ⟨h, listSplice_empty hp, by rw [seqStep_splice_empty]; exact hs⟩
  obtain ⟨hf, hl⟩ := hr.resolve_left hfl
  obtain ⟨A, C, hsj, hcut, M', hM, hC⟩ :=
    seqRange_split hfl hf hl fun hm => (hs.wf j).ne_tail hm rfl
  simp only [seqStep, hcut]
  generalize seqRange first last (s j) = M at hsj hin hM ⊢
  subst hM
  have hw := hs.wf j
  rw [hsj] at hw
  by_cases hij : i = j
  · -- within one list: BEFORE is outside the range, so it stays on what is left
    subst j
    rw [Function.update_self, Function.update_idem]
    have hsub : ∀ x, x ∈ A ++ C → x ∈ s i := fun x hx => by
      rw [hsj]
      simp only [List.mem_append] at hx ⊢
      rcases hx with hx | hx
      · exact .inl (.inl hx)
      · exact .inr hx
    have hb' : before ∈ A ++ C ∨ before = (ls i).tail := by
      rcases hb with hb | hb
      · rw [hsj] at hb
        simp only [List.mem_append] at hb ⊢
        exact .inl (hb.elim (·.elim .inl fun hm => absurd hm (hin rfl)) .inr)
      · exact .inr hb
    obtain ⟨T, D, hTD, hins, hD⟩ :=
      seqInsert_split hb' (fun hm => (hs.wf i).ne_tail (hsub _ hm) rfl) (first :: M')
    obtain ⟨h', hsp, hw', hfr⟩ := listSplice_same hw (List.cons_ne_nil _ _) hTD
    rw [hD, hC] at hsp
    rw [hins]
    refine ⟨h', hsp, hs.update_one i hw' (fun x hx _ => hfr x (hsj ▸ hx)) fun x hx => .inl ?_⟩
    have hx' : x ∈ T ++ D ∨ x ∈ first :: M' := by
      simp only [List.mem_append] at hx ⊢
      rcases hx with (hx | hx) | hx
      · exact .inl (.inl hx)
      · exact .inr hx
      · exact .inl (.inr hx)
    rw [← hTD] at hx'
    rcases hx' with hx' | hx'
    · exact hsub x hx'
    · rw [hsj]
      exact List.mem_append_left _ (List.mem_append_right _ hx')
  · -- onto another list, at BEFORE there
    rw [Function.update_of_ne hij]
    obtain ⟨P, Q, hPQ, hins, hQ⟩ :=
      seqInsert_split hb (fun hm => (hs.wf i).ne_tail hm rfl) (first :: M')
    have hwi := hs.wf i
    rw [hPQ] at hwi
    have hd : ((ls j).chain (A ++ first :: M' ++ C) ++ (ls i).chain (P ++ Q)).Nodup := by
      rw [← hsj, ← hPQ]
      exact hs.nodup_pair (Ne.symm hij)
    obtain ⟨h', hsp, hwj', hwi', hfr⟩ := listSplice_other hw hwi hd (List.cons_ne_nil _ _)
    rw [hQ, hC] at hsp
    rw [hins]
    refine ⟨h', hsp, hs.update_two hij hwi' hwj'
      ((Lst.chain_move_perm (ls j) (ls i) A _ C P Q).nodup_iff.mpr hd) (fun x h1 h2 => ?_)
      fun x hx => ?_⟩
    · refine hfr x fun hm => ?_
      rcases List.mem_append.mp hm with hm | hm
      · exact h2 (hsj ▸ hm)
      · exact h1 (hPQ ▸ hm)
    · -- an element of either list before is on one of them after
      rw [hsj, hPQ]
      simp only [List.mem_append, List.mem_cons] at hx ⊢
      rcases hx with ((hx | hx | hx) | hx) | hx | hx
      · exact .inl (.inl hx)
      · exact .inr (.inl (.inr (.inl hx)))
      · exact .inr (.inl (.inr (.inr hx)))
      · exact .inl (.inr hx)
      · exact .inr (.inl (.inl hx))
      · exact .inr (.inr hx)


theorem Sound.unique (hs : Sound ls h s) {i : ι} {dups : Option ι} {less : Ptr → Ptr → Bool}
    (ha : Allowed ls fuel s (.unique i dups less)) :
    ∃ h', listUnique less fuel h (ls i) (dups.map ls) = some h' ∧
      Sound ls h' (seqStep s (.unique i dups less)) := by
  obtain ⟨hl, hf, hd⟩ := ha
  have hperm : (s i).Perm (((s i).splitBy (equiv less)).filterMap List.head? ++
      ((s i).splitBy (equiv less)).flatMap List.tail) := by
    simpa only [List.flatten_splitBy] using
      flatten_perm_heads_tails (List.nil_notMem_splitBy (equiv less) (s i))
  simp only [seqStep]
  cases dups with
  | none =>
    obtain ⟨h', hu, hw, -, hfr⟩ := listUnique_spec hl (D := []) (hs.wf i)
      (fun d (hd : d ∈ (none : Option Lst)) => absurd hd (by simp)) hf
    exact ⟨h', hu, hs.update_one i hw (fun x hx _ => hfr x hx (by simp))
      fun x hx => .inl (hperm.symm.subset (List.mem_append_left _ hx))⟩
  | some d =>
    have hdi : i ≠ d := fun e => hd (by rw [e])
    obtain ⟨h', hu, hw, hwd, hfr⟩ := listUnique_spec hl (D := s d) (hs.wf i)
      (fun d' (hd' : d' ∈ some (ls d)) => by
        obtain rfl := Option.mem_some_iff.mp hd'
        exact ⟨hs.wf d, hs.nodup_pair hdi⟩) hf
    have hnd := ((Lst.chain_perm hperm).append_right _).nodup_iff.mp (hs.nodup_pair hdi)
    refine ⟨h', hu, hs.update_two hdi hw (hwd (ls d) rfl)
      ((Lst.chain_unique_perm _ _ _ _ _).nodup_iff.mpr hnd)
      (fun x h1 h2 => hfr x h1 fun d' hd' => by
        obtain rfl := Option.mem_some_iff.mp hd'
        exact h2) fun x hx => ?_⟩
    rcases List.mem_append.mp hx with hx | hx
    · exact .inl (hperm.mem_iff.mpr (List.mem_append_left _ hx))
    rcases List.mem_append.mp hx with hx | hx
    · exact .inr hx
    · exact .inl (hperm.mem_iff.mpr (List.mem_append_right _ hx))

theorem Sound.step (hs : Sound ls h s) {c : ListCall ι} (ha : Allowed ls fuel s c) :
    ∃ h', callStep ls fuel h c = some h' ∧ Sound ls h' (seqStep s c) := by
  cases c with
  | init i =>
    obtain ⟨hw, hfr⟩ := listInit_spec (h := h) (hs.head_ne_tail i)
    exact ⟨_, rfl, hs.update_one i hw (fun x _ hx => hfr x hx) (by simp)⟩
  | insert i before elem => exact hs.insert ha
  | pushFront i elem =>
    obtain ⟨h', hp, hw, hfr⟩ := listPushFront_spec (hs.wf i) (ha i)
    exact ⟨h', hp, hs.update_one i hw (fun x _ hx => hfr x hx)
      fun x hx => src_of_insert (A := []) ha rfl hx⟩
  | pushBack i elem =>
    obtain ⟨h', hp, hw, hfr⟩ := listPushBack_spec (hs.wf i) (ha i)
    exact ⟨h', hp, hs.update_one i hw (fun x _ hx => hfr x hx)
      fun x hx => src_of_insert (B := []) ha (by simp) hx⟩
  | remove i elem => exact hs.remove ha
  | popFront i =>
    obtain ⟨e, xs, hxs⟩ := List.exists_cons_of_ne_nil ha
    have hw := hs.wf i
    rw [hxs] at hw
    obtain ⟨h', hp, hw', hfr⟩ := listPopFront_spec hw
    refine ⟨h', by simp [callStep, hp], ?_⟩
    simp only [seqStep, hxs, List.tail_cons]
    exact hs.update_one i hw' (fun x _ hx => hfr x hx)
      fun x hx => .inl (hxs ▸ List.mem_cons_of_mem _ hx)
  | popBack i =>
    have hw := hs.wf i
    rw [← List.dropLast_append_getLast ha] at hw
    obtain ⟨h', hp, hw', hfr⟩ := listPopBack_spec hw
    exact ⟨h', by simp [callStep, hp], hs.update_one i hw' (fun x _ hx => hfr x hx)
      fun x hx => .inl (List.dropLast_subset _ hx)⟩
  | splice i before j first last => exact hs.splice ha
  | reverse i =>
    obtain ⟨h', hr, hw, hfr⟩ := listReverse_spec (hs.wf i) ha
    exact ⟨h', hr, hs.update_one i hw (fun x hx _ => hfr x hx)
      fun x hx => .inl (List.mem_reverse.mp hx)⟩
  | sort i less =>
    obtain ⟨hl, hf⟩ := ha
    obtain ⟨h', hr, hw, hfr⟩ := listSort_spec hl (hs.wf i) hf
    exact ⟨h', hr, hs.update_one i hw (fun x hx _ => hfr x hx)
      fun x hx => .inl ((List.mergeSort_perm _ _).subset hx)⟩
  | insertOrdered i elem less =>
    obtain ⟨he, hf⟩ := ha
    obtain ⟨h', A, B, hr, hAB, hins, -, -, hw, hfr⟩ := listInsertOrdered_spec (hs.wf i) (he i) hf
    refine ⟨h', hr, ?_⟩
    simp only [seqStep, hins]
    exact hs.update_one i hw (fun x _ hx => hfr x hx) fun x hx => src_of_insert he hAB hx
  | unique i dups less => exact hs.unique ha

end Steps


/-! ### Every run -/

section Runs
variable {ι : Type} [DecidableEq ι] {ls : ι → Lst} {fuel : Nat}

/-- Every run of allowed calls on sound lists completes and leaves them sound, holding what
`seqStep` says. -/
theorem Sound.run {h : Heap} {s : ι → List Ptr} (hs : Sound ls h s) (cs : List (ListCall ι))
    (ha : AllowedRun ls fuel s cs) :
    ∃ h', runs (callStep ls fuel) h cs = some h' ∧ Sound ls h' (cs.foldl seqStep s) :=
  runs_forward (fun _ _ _ hs ha => hs.step ha) h s cs hs ha

theorem lists_stay_well_formed {h : Heap} {s : ι → List Ptr} (hs : Sound ls h s)
    (cs : List (ListCall ι)) (ha : AllowedRun ls fuel s cs) :
    ∃ h', runs (callStep ls fuel) h cs = some h' ∧ Sound ls h' (cs.foldl seqStep s) ∧
      ∀ i A elem B, cs.foldl seqStep s i = A ++ elem :: B →
        ∃ h'', listRemove h' elem = some (h'', B.headD (ls i).tail) ∧
          Sound ls h'' (seqStep (cs.foldl seqStep s) (.remove i elem)) := by
  obtain ⟨h', hr, hs'⟩ := hs.run cs ha
  refine ⟨h', hr, hs', fun i A elem B he => ?_⟩
  have hw := hs'.wf i
  rw [he] at hw
  obtain ⟨h'', hrm, -, -⟩ := listRemove_spec hw
  obtain ⟨h₃, hm, hs''⟩ := hs'.remove (show Allowed ls 0 _ (.remove i elem) by simp [Allowed, he])
  rw [hrm, Option.map_some, Option.some_inj] at hm
  subst hm
  exact ⟨h'', hrm, hs''⟩

theorem lists_stay_well_formed_sample :
    ∃ h0 h', listBuild (fun _ => ⟨none, none⟩) ⟨0, 1⟩ [2, 3, 4] = some h0 ∧
      runs (callStep (fun _ : Unit => (⟨0, 1⟩ : Lst)) 4) h0
        [.reverse (), .remove () 3, .pushFront () 7] = some h' ∧ WF h' ⟨0, 1⟩ [7, 4, 2] := by
  obtain ⟨h0, hb, hw⟩ :=
    listBuild_spec (fun _ => ⟨none, none⟩) ⟨0, 1⟩ [2, 3, 4] (by decide) (by decide)
  have hs : Sound (fun _ : Unit => (⟨0, 1⟩ : Lst)) h0 (fun _ => [2, 3, 4]) :=
    ⟨fun _ => hw, fun i j hij => absurd (Subsingleton.elim i j) hij⟩
  have ha : AllowedRun (fun _ : Unit => (⟨0, 1⟩ : Lst)) 4 (fun _ => [2, 3, 4])
      [.reverse (), .remove () 3, .pushFront () 7] := by
    simp [AllowedRun, AllowedAlong, Allowed, seqStep, Free]
  obtain ⟨h', hr, hs', -⟩ := lists_stay_well_formed hs _ ha
  have hseq : [ListCall.reverse (), .remove () 3, .pushFront () 7].foldl seqStep
      (fun _ => [2, 3, 4]) = fun _ => [7, 4, 2] := by
    funext u
    simp [seqStep]
  exact ⟨h0, h', hb, hr, by simpa [hseq] using hs'.wf ()⟩

end Runs

end Pintos.Lib