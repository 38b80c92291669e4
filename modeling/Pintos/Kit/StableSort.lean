import Mathlib.Data.List.Sort
import Mathlib.Data.List.SplitBy

/-! Sorting by a comparison callback `less`, a strict weak ordering given as a `Bool` test: the
"not after" preorder it induces, merges of sorted runs, the runs of a list and the runs of
equivalent elements, and stable sorts, of which a list of distinct elements has exactly one.
Nothing here depends on what is sorted. -/
namespace Pintos.Kit
open scoped List

variable {α : Type}

/-- `a` may stand before `b` in a list sorted by LESS: `b` is not less than `a`. -/
def notAfter (less : α → α → Bool) (a b : α) : Bool := !less b a

/-- Neither of `a` and `b` is less than the other. -/
def equiv (less : α → α → Bool) (a b : α) : Bool := !less a b && !less b a

/-- YS is a stable sort of XS by the preorder LE: a permutation of XS, sorted by LE, in which
every two elements of XS in LE's order keep their order. -/
structure StableSort (le : α → α → Bool) (xs ys : List α) : Prop where
  perm : ys.Perm xs
  sorted : ys.Pairwise fun a b => le a b
  stable : ∀ a b, le a b → [a, b] <+ xs → [a, b] <+ ys

/-! ### The preorder of a strict weak ordering -/

section Weak
variable {less : α → α → Bool} (hl : IsStrictWeakOrder α fun a b => less a b)
include hl

theorem less_asymm {a b : α} (h : less a b) : less b a = false :=
  Bool.eq_false_iff.mpr fun h' => hl.irrefl a (hl.trans _ _ _ h h')

theorem less_or_less {a c : α} (b : α) (h : less a c) : less a b ∨ less b c := by
  by_contra hn
  simp only [not_or] at hn
  have hba : ¬less b a := fun hba => hn.2 (hl.trans _ _ _ hba h)
  have hcb : ¬less c b := fun hcb => hn.1 (hl.trans _ _ _ h hcb)
  exact (hl.incomp_trans a b c ⟨hn.1, hba⟩ ⟨hn.2, hcb⟩).1 h

theorem notAfter_total (a b : α) : (notAfter less a b || notAfter less b a) = true := by
  cases hba : less b a
  · simp [notAfter, hba]
  · simp [notAfter, less_asymm hl hba]

theorem notAfter_trans (a b c : α) (hab : notAfter less a b) (hbc : notAfter less b c) :
    notAfter less a c := by
  simp only [notAfter, Bool.not_eq_true'] at hab hbc ⊢
  cases hca : less c a
  · rfl
  · rcases less_or_less hl b hca with h | h
    · exact absurd hbc (by simp [h])
    · exact absurd hab (by simp [h])

theorem equiv_refl (a : α) : equiv less a a := by
  simp [equiv, Bool.eq_false_iff.mpr (hl.irrefl a)]

theorem equiv_trans {a b c : α} (hab : equiv less a b) (hbc : equiv less b c) : equiv less a c := by
  simp only [equiv, Bool.and_eq_true, Bool.not_eq_true'] at hab hbc ⊢
  have := hl.incomp_trans a b c (by simp [hab.1, hab.2]) (by simp [hbc.1, hbc.2])
  simpa using this

omit hl in
theorem equiv_symm {a b : α} (h : equiv less a b) : equiv less b a := by
  simp only [equiv, Bool.and_eq_true] at h ⊢
  exact ⟨h.2, h.1⟩

end Weak

/-! The comparison of a linear order, as a callback: a strict weak ordering under which the
equivalent elements are the equal ones. -/

section Linear
variable [LinearOrder α]

theorem isStrictWeakOrder_lt : IsStrictWeakOrder α fun a b => decide (a < b) = true where
  irrefl a h := lt_irrefl a (of_decide_eq_true h)
  trans _ _ _ h1 h2 := decide_eq_true ((of_decide_eq_true h1).trans (of_decide_eq_true h2))
  incomp_trans _ _ _ h1 h2 := by
    simp only [decide_eq_true_eq, not_lt] at h1 h2 ⊢
    exact ⟨h2.1.trans h1.1, h1.2.trans h2.2⟩

theorem eq_of_equiv_lt {a b : α} (h : equiv (fun a b => decide (a < b)) a b) : a = b := by
  simp only [equiv, Bool.and_eq_true, Bool.not_eq_true', decide_eq_false_iff_not, not_lt] at h
  exact le_antisymm h.2 h.1

end Linear

/-! ### Merging sorted runs

`List.merge` takes the left run's element on ties, so a merge keeps every pair of the two runs
that is in order. -/

section Merge
variable {le : α → α → Bool}

theorem sublist_merge_left : ∀ {A B : List α}, A <+ List.merge A B le
  | [], _ => by simp
  | _ :: _, [] => by simp
  | x :: xs, y :: ys => by
    rw [List.cons_merge_cons]
    split
    · exact sublist_merge_left.cons_cons x
    · exact sublist_merge_left.cons y

theorem sublist_merge_right : ∀ {A B : List α}, B <+ List.merge A B le
  | [], _ => by simp
  | _ :: _, [] => by simp
  | x :: xs, y :: ys => by
    rw [List.cons_merge_cons]
    split
    · exact sublist_merge_right.cons x
    · exact sublist_merge_right.cons_cons y

variable (trans : ∀ a b c, le a b → le b c → le a c)
include trans

theorem pairwise_of_isChain {l : List α} (hc : l.IsChain fun a b => le a b) :
    l.Pairwise fun a b => le a b := by
  have : Trans (fun a b => le a b = true) (fun a b => le a b = true) (fun a b => le a b = true) :=
    ⟨fun hab hbc => trans _ _ _ hab hbc⟩
  exact List.isChain_iff_pairwise.mp hc

/-- An element of the sorted left run stays before every element of the right run that it is
not after. -/
theorem pair_sublist_merge_of_mem {a b : α} : ∀ {A B : List α}, A.Pairwise (fun x y => le x y) →
    a ∈ A → b ∈ B → le a b → [a, b] <+ List.merge A B le
  | [], _, _, ha, _, _ => absurd ha List.not_mem_nil
  | _ :: _, [], _, _, hb, _ => absurd hb List.not_mem_nil
  | x :: xs, y :: ys, hA, ha, hb, hab => by
    rw [List.cons_merge_cons]
    split
    · rcases List.mem_cons.mp ha with rfl | ha
      · exact List.cons_sublist_cons.mpr (List.singleton_sublist.mpr (List.mem_merge_right _ hb))
      · exact (pair_sublist_merge_of_mem hA.of_cons ha hb hab).cons x
    · rename_i hxy
      rcases List.mem_cons.mp hb with rfl | hb
      · -- `x` is at or before `a`, so it is not after `b`, and the merge would take it first
        refine absurd ?_ hxy
        rcases List.mem_cons.mp ha with rfl | ha
        · exact hab
        · exact trans _ _ _ (List.rel_of_pairwise_cons hA ha) hab
      · exact (pair_sublist_merge_of_mem hA ha hb hab).cons y

theorem pair_sublist_merge {a b : α} {A B : List α} (hA : A.Pairwise fun x y => le x y)
    (hab : le a b) (h : [a, b] <+ A ++ B) : [a, b] <+ List.merge A B le := by
  obtain ⟨c, d, hcd, hc, hd⟩ := List.sublist_append_iff.mp h
  match c, d, hcd with
  | [], _, rfl => exact hd.trans sublist_merge_right
  | [_], [_], hcd =>
    simp only [List.cons_append, List.nil_append, List.cons.injEq, and_true] at hcd
    obtain ⟨rfl, rfl⟩ := hcd
    exact pair_sublist_merge_of_mem trans hA (List.singleton_sublist.mp hc)
      (List.singleton_sublist.mp hd) hab
  | [_, _], [], rfl => exact hc.trans sublist_merge_left

end Merge

/-! ### One pass of a natural merge sort -/

/-- Merge each two adjacent runs, the last one alone when their number is odd. -/
def mergePairs (le : α → α → Bool) : List (List α) → List (List α)
  | r :: s :: rs => List.merge r s le :: mergePairs le rs
  | rs => rs

section Pairs
variable {le : α → α → Bool}

theorem mergePairs_perm : ∀ rs : List (List α), ((mergePairs le rs).flatten).Perm rs.flatten
  | r :: s :: rs => by
    simp only [mergePairs, List.flatten_cons, ← List.append_assoc]
    exact (List.merge_perm_append le).append (mergePairs_perm rs)
  | [] | [_] => by simp [mergePairs]

theorem length_mergePairs : ∀ rs : List (List α), (mergePairs le rs).length = (rs.length + 1) / 2
  | r :: s :: rs => by
    rw [mergePairs, List.length_cons, length_mergePairs rs]
    simp only [List.length_cons]
    omega
  | [] | [_] => by simp [mergePairs]

theorem ne_nil_of_mem_mergePairs : ∀ {rs : List (List α)}, [] ∉ rs → [] ∉ mergePairs le rs
  | r :: s :: rs, h => by
    simp only [List.mem_cons, not_or] at h
    simp only [mergePairs, List.mem_cons, not_or]
    refine ⟨fun e => h.1 ?_, ne_nil_of_mem_mergePairs (by simpa using h.2.2)⟩
    have := (@List.merge_perm_append _ le r s).length_eq
    rw [← e] at this
    simp only [List.length_nil, List.length_append] at this
    exact (List.eq_nil_of_length_eq_zero (by omega)).symm
  | [], h | [_], h => h

variable (trans : ∀ a b c, le a b → le b c → le a c) (total : ∀ a b, (le a b || le b a) = true)
include trans total

theorem pairwise_of_mem_mergePairs : ∀ {rs : List (List α)},
    (∀ r ∈ rs, r.Pairwise fun a b => le a b) → ∀ r ∈ mergePairs le rs, r.Pairwise fun a b => le a b
  | r :: s :: rs, h, m, hm => by
    simp only [List.mem_cons, forall_eq_or_imp] at h
    rcases List.mem_cons.mp hm with rfl | hm
    · exact List.pairwise_merge trans total _ _ h.1 h.2.1
    · exact pairwise_of_mem_mergePairs h.2.2 m hm
  | [], h, m, hm | [_], h, m, hm => h m hm

omit total in
theorem pair_sublist_mergePairs {a b : α} (hab : le a b) : ∀ {rs : List (List α)},
    (∀ r ∈ rs, r.Pairwise fun a b => le a b) → [a, b] <+ rs.flatten →
      [a, b] <+ (mergePairs le rs).flatten
  | r :: s :: rs, hs, h => by
    simp only [List.mem_cons, forall_eq_or_imp] at hs
    simp only [mergePairs, List.flatten_cons, ← List.append_assoc] at h ⊢
    obtain ⟨c, d, hcd, hc, hd⟩ := List.sublist_append_iff.mp h
    have hperm := @List.merge_perm_append _ le r s
    match c, d, hcd with
    | [], _, rfl =>
      exact (pair_sublist_mergePairs hab hs.2.2 hd).trans (List.sublist_append_right _ _)
    | [_], [_], hcd =>
      simp only [List.cons_append, List.nil_append, List.cons.injEq, and_true] at hcd
      obtain ⟨rfl, rfl⟩ := hcd
      have ha := hperm.symm.subset (List.singleton_sublist.mp hc)
      have hb := (@mergePairs_perm _ le rs).symm.subset (List.singleton_sublist.mp hd)
      exact (List.singleton_sublist.mpr ha).append (List.singleton_sublist.mpr hb)
    | [_, _], [], rfl =>
      exact (pair_sublist_merge trans hs.1 hab hc).trans (List.sublist_append_left _ _)
  | [], _, h | [_], _, h => h

end Pairs

/-! ### Runs -/

section Runs
variable {r : α → α → Bool}

theorem length_le_length_flatten : ∀ {Cs : List (List α)}, [] ∉ Cs → Cs.length ≤ Cs.flatten.length
  | [], _ => le_refl _
  | C :: Cs, h => by
    simp only [List.mem_cons, not_or] at h
    have := List.length_pos_iff.mpr (Ne.symm h.1)
    simp only [List.length_cons, List.flatten_cons, List.length_append]
    have := length_le_length_flatten h.2
    omega

theorem length_splitBy_le (l : List α) : (l.splitBy r).length ≤ l.length := by
  have := length_le_length_flatten (List.nil_notMem_splitBy r l)
  rwa [List.flatten_splitBy] at this

/-- The runs of `a :: b :: l`: `a` starts the run of `b` when they are related, and a run of
its own when not. -/
theorem splitBy_cons_cons_of_rel {a b : α} {l : List α} (h : r a b) :
    ∃ G Gs, (b :: l).splitBy r = (b :: G) :: Gs ∧ (a :: b :: l).splitBy r = (a :: b :: G) :: Gs := by
  obtain ⟨B, Gs, hB⟩ : ∃ B Gs, (b :: l).splitBy r = B :: Gs := by
    cases hs : (b :: l).splitBy r with
    | nil => exact absurd hs (List.splitBy_ne_nil.mpr (List.cons_ne_nil _ _))
    | cons B Gs => exact ⟨B, Gs, rfl⟩
  have hBne : B ≠ [] := List.ne_nil_of_mem_splitBy (r := r) (l := b :: l) (by simp [hB])
  have hhead : B.head hBne = b := by
    have := List.head_head_splitBy r (l := b :: l) (List.cons_ne_nil _ _)
    simp only [hB, List.head_cons] at this
    exact this
  obtain ⟨G, rfl⟩ : ∃ G, B = b :: G := ⟨B.tail, by rw [← hhead, List.cons_head_tail]⟩
  refine ⟨G, Gs, hB, List.splitBy_eq_iff.mpr ⟨?_, ?_, ?_, ?_⟩⟩
  · have := List.flatten_splitBy r (b :: l)
    rw [hB, List.flatten_cons] at this
    simp [← this]
  · have := List.nil_notMem_splitBy r (b :: l)
    rw [hB] at this
    simpa using this
  · intro m hm
    have hc := fun m (hm : m ∈ (b :: l).splitBy r) => List.isChain_of_mem_splitBy hm
    rw [hB] at hc
    rcases List.mem_cons.mp hm with rfl | hm
    · exact List.isChain_cons_cons.mpr ⟨h, hc _ List.mem_cons_self⟩
    · exact hc m (List.mem_cons_of_mem _ hm)
  · have hc := List.isChain_getLast_head_splitBy r (b :: l)
    rw [hB] at hc
    cases Gs with
    | nil => exact List.isChain_singleton _
    | cons G' Gs =>
      rw [List.isChain_cons_cons] at hc ⊢
      obtain ⟨⟨ha, hb, hr⟩, hc⟩ := hc
      exact ⟨⟨List.cons_ne_nil _ _, hb, by simpa using hr⟩, hc⟩

theorem splitBy_cons_cons_of_not_rel {a b : α} {l : List α} (h : r a b = false) :
    (a :: b :: l).splitBy r = [a] :: (b :: l).splitBy r := by
  rw [show a :: b :: l = [a] ++ b :: l from rfl, List.splitBy_append_cons _ (by simpa using h)]
  simp [List.splitBy_of_isChain]

theorem length_splitBy_chain_append {C D : List α} (hC : C.IsChain fun x y => r x y) :
    ((C ++ D).splitBy r).length ≤ (D.splitBy r).length + 1 := by
  induction C with
  | nil => simp
  | cons a C ih =>
    cases C with
    | nil =>
      cases D with
      | nil => simp [List.splitBy_of_isChain]
      | cons b D =>
        cases hab : r a b
        · simp [splitBy_cons_cons_of_not_rel hab]
        · obtain ⟨G, Gs, hB, hA⟩ := splitBy_cons_cons_of_rel (l := D) hab
          simp [hA, hB]
    | cons b C =>
      obtain ⟨G, Gs, hB, hA⟩ := splitBy_cons_cons_of_rel (l := C ++ D) (List.isChain_cons_cons.mp hC).1
      have := ih (List.isChain_cons_cons.mp hC).2
      simp only [List.cons_append] at this ⊢
      rw [hA]
      rw [hB] at this
      simpa using this

theorem length_splitBy_flatten_le : ∀ {Cs : List (List α)}, (∀ C ∈ Cs, C.IsChain fun x y => r x y) →
    (Cs.flatten.splitBy r).length ≤ Cs.length
  | [], _ => by simp
  | C :: Cs, h => by
    simp only [List.mem_cons, forall_eq_or_imp] at h
    rw [List.flatten_cons, List.length_cons]
    exact (length_splitBy_chain_append h.1).trans (Nat.succ_le_succ (length_splitBy_flatten_le h.2))

theorem splitBy_flatten_tail {G : List α} {Gs : List (List α)}
    (h : (G :: Gs).flatten.splitBy r = G :: Gs) : Gs.flatten.splitBy r = Gs := by
  obtain ⟨-, hn, hc, hc'⟩ := List.splitBy_eq_iff.mp h
  exact List.splitBy_eq_iff.mpr ⟨rfl, fun hm => hn (List.mem_cons_of_mem _ hm),
    fun m hm => hc m (List.mem_cons_of_mem _ hm), hc'.tail⟩

/-- When `a` and `b` are related and relate to the same elements, `b` joins the first run of
`a :: l` just after `a`. -/
theorem splitBy_cons_cons_of_equiv {a b : α} {l : List α} (h : r a b) (hab : ∀ c, r a c = r b c) :
    ∃ G Gs, (a :: l).splitBy r = (a :: G) :: Gs ∧ (a :: b :: l).splitBy r = (a :: b :: G) :: Gs := by
  obtain ⟨G, Gs, hB, hA⟩ := splitBy_cons_cons_of_rel (l := l) h
  cases l with
  | nil =>
    have hG : (b :: G) :: Gs = [[b]] := by rw [← hB, List.splitBy_of_isChain] <;> simp
    simp only [List.cons.injEq, true_and] at hG
    obtain ⟨rfl, rfl⟩ := hG
    exact ⟨[], [], by simp [List.splitBy_of_isChain], hA⟩
  | cons c l =>
    cases hbc : r b c
    · rw [splitBy_cons_cons_of_not_rel hbc] at hB
      simp only [List.cons.injEq, true_and] at hB
      obtain ⟨rfl, rfl⟩ := hB
      exact ⟨[], _, splitBy_cons_cons_of_not_rel ((hab c).trans hbc), hA⟩
    · obtain ⟨G', Gs', hC, hB'⟩ := splitBy_cons_cons_of_rel (l := l) hbc
      obtain ⟨G'', Gs'', hC', hA'⟩ := splitBy_cons_cons_of_rel (a := a) (l := l) ((hab c).trans hbc)
      rw [hC] at hC'
      simp only [List.cons.injEq, true_and] at hC'
      obtain ⟨rfl, rfl⟩ := hC'
      rw [hB'] at hB
      simp only [List.cons.injEq, true_and] at hB
      obtain ⟨rfl, rfl⟩ := hB
      exact ⟨_, _, hA', hA⟩

theorem flatten_perm_heads_tails : ∀ {Bs : List (List α)}, [] ∉ Bs →
    Bs.flatten.Perm (Bs.filterMap List.head? ++ Bs.flatMap List.tail)
  | [], _ => by simp
  | [] :: _, h => absurd List.mem_cons_self h
  | (b :: B) :: Bs, h => by
    have ih := flatten_perm_heads_tails fun hm => h (List.mem_cons_of_mem _ hm)
    simp only [List.flatten_cons, List.filterMap_cons, List.head?_cons, List.flatMap_cons,
      List.tail_cons, List.cons_append]
    refine List.Perm.cons b ((ih.append_left B).trans ?_)
    rw [← List.append_assoc, ← List.append_assoc]
    exact List.perm_append_comm.append_right _

end Runs

/-! ### Stable sorts -/

section Stable
variable {le : α → α → Bool}

theorem pair_sublist_or {xs : List α} {a b : α} (ha : a ∈ xs) (hb : b ∈ xs) (hne : a ≠ b) :
    [a, b] <+ xs ∨ [b, a] <+ xs := by
  obtain ⟨s, t, rfl⟩ := List.append_of_mem ha
  rcases List.mem_append.mp hb with hb | hb
  · exact .inr (((List.singleton_sublist.mpr hb).append (List.singleton_sublist.mpr
      List.mem_cons_self)))
  · rcases List.mem_cons.mp hb with rfl | hb
    · exact absurd rfl hne
    · exact .inl (((List.singleton_sublist.mpr hb).cons_cons a).trans (List.sublist_append_right _ _))

theorem not_pair_sublist_cons {xs : List α} {a b : α} (hnd : (b :: xs).Nodup) (hne : a ≠ b) :
    ¬[a, b] <+ b :: xs := by
  intro h
  rcases List.sublist_cons_iff.mp h with h | ⟨t, ht, -⟩
  · exact (List.nodup_cons.mp hnd).1 (h.subset (by simp))
  · exact hne (List.cons.inj ht).1

variable [DecidableEq α]

theorem StableSort.head_eq {xs ys zs : List α} {y z : α} (hnd : xs.Nodup)
    (hy : StableSort le xs (y :: ys)) (hz : StableSort le xs (z :: zs)) : y = z := by
  by_contra hne
  have hzy : z ∈ y :: ys := hy.perm.symm.subset (hz.perm.subset List.mem_cons_self)
  have hyz : y ∈ z :: zs := hz.perm.symm.subset (hy.perm.subset List.mem_cons_self)
  have hle : le y z := by
    rcases List.mem_cons.mp hzy with e | hm
    · exact absurd e.symm hne
    · exact List.rel_of_pairwise_cons hy.sorted hm
  have hle' : le z y := by
    rcases List.mem_cons.mp hyz with e | hm
    · exact absurd e hne
    · exact List.rel_of_pairwise_cons hz.sorted hm
  rcases pair_sublist_or (hy.perm.subset List.mem_cons_self) (hz.perm.subset List.mem_cons_self) hne
    with h | h
  · exact not_pair_sublist_cons (hz.perm.nodup_iff.mpr hnd) hne (hz.stable _ _ hle h)
  · exact not_pair_sublist_cons (hy.perm.nodup_iff.mpr hnd) (Ne.symm hne) (hy.stable _ _ hle' h)

theorem StableSort.tail {xs ys : List α} {y : α} (hnd : xs.Nodup) (hy : StableSort le xs (y :: ys)) :
    StableSort le (xs.erase y) ys where
  perm := (hy.perm.trans (List.perm_cons_erase (hy.perm.subset List.mem_cons_self))).cons_inv
  sorted := hy.sorted.of_cons
  stable a b hab h := by
    have hay : a ≠ y := fun e => (hnd.not_mem_erase) (e ▸ h.subset (by simp))
    rcases List.sublist_cons_iff.mp (hy.stable a b hab (h.trans (List.erase_sublist ..))) with
      h' | ⟨t, ht, -⟩
    · exact h'
    · exact absurd (List.cons.inj ht).1 hay

theorem StableSort.unique {xs ys zs : List α} (hnd : xs.Nodup) (hy : StableSort le xs ys)
    (hz : StableSort le xs zs) : ys = zs := by
  induction ys generalizing xs zs with
  | nil =>
    have : xs = [] := List.eq_nil_of_length_eq_zero (by simpa using hy.perm.length_eq.symm)
    subst this
    exact (List.eq_nil_of_length_eq_zero (by simpa using hz.perm.length_eq)).symm
  | cons y ys ih =>
    obtain ⟨z, zs, rfl⟩ : ∃ z zs', zs = z :: zs' := by
      cases zs with
      | nil => exact absurd (hz.perm.length_eq.trans hy.perm.length_eq.symm) (by simp)
      | cons z zs => exact ⟨z, zs, rfl⟩
    obtain rfl := hy.head_eq hnd hz
    rw [ih (hnd.erase y) (hy.tail hnd) (hz.tail hnd)]

omit [DecidableEq α] in
theorem StableSort.of_pass {xs xs' ys : List α} (hp : xs'.Perm xs)
    (hs : ∀ a b, le a b → [a, b] <+ xs → [a, b] <+ xs') (h : StableSort le xs' ys) :
    StableSort le xs ys where
  perm := h.perm.trans hp
  sorted := h.sorted
  stable a b hab hx := h.stable a b hab (hs a b hab hx)

omit [DecidableEq α] in
theorem mergeSort_stableSort (trans : ∀ a b c, le a b → le b c → le a c)
    (total : ∀ a b, (le a b || le b a) = true) (xs : List α) : StableSort le xs (xs.mergeSort le) where
  perm := List.mergeSort_perm xs le
  sorted := List.pairwise_mergeSort trans total xs
  stable _ _ hab h := List.pair_sublist_mergeSort trans total hab h

end Stable

/-! ### Ordered insertion

Inserting before the first element that the new one is less than, as `List.orderedInsert` by
LESS does, keeps a stable sort by `notAfter less` stable. -/

section Insert
variable {less : α → α → Bool} (hl : IsStrictWeakOrder α fun a b => less a b)
include hl

theorem pairwise_orderedInsert (x : α) : ∀ {ys : List α},
    ys.Pairwise (fun a b => notAfter less a b) →
      (ys.orderedInsert (fun a b => less a b) x).Pairwise fun a b => notAfter less a b
  | [], _ => by simp
  | b :: l, h => by
    rw [List.orderedInsert_cons]
    split
    · rename_i hxb
      refine List.Pairwise.cons (fun c hc => ?_) h
      rcases List.mem_cons.mp hc with rfl | hc
      · simp [notAfter, less_asymm hl hxb]
      · -- `x < b` and `b` is not after `c`: `x < c`
        have hbc : less c b = false := by simpa [notAfter] using List.rel_of_pairwise_cons h hc
        rcases less_or_less hl c hxb with hxc | hcb
        · simp [notAfter, less_asymm hl hxc]
        · exact absurd hcb (by simp [hbc])
    · rename_i hxb
      refine List.Pairwise.cons (fun c hc => ?_) (pairwise_orderedInsert x h.of_cons)
      rcases List.mem_cons.mp ((List.perm_orderedInsert _ x l).subset hc) with rfl | hc
      · simpa [notAfter] using hxb
      · exact List.rel_of_pairwise_cons h hc

theorem pair_sublist_orderedInsert {x a : α} : ∀ {ys : List α},
    ys.Pairwise (fun a b => notAfter less a b) → a ∈ ys → less x a = false →
      [a, x] <+ ys.orderedInsert (fun a b => less a b) x
  | [], _, ha, _ => absurd ha List.not_mem_nil
  | b :: l, h, ha, hxa => by
    rw [List.orderedInsert_cons]
    split
    · rename_i hxb
      exfalso
      rcases List.mem_cons.mp ha with rfl | ha
      · simp [hxa] at hxb
      · have hab : less a b = false := by simpa [notAfter] using List.rel_of_pairwise_cons h ha
        rcases less_or_less hl a hxb with h' | h'
        · simp [hxa] at h'
        · simp [hab] at h'
    · rcases List.mem_cons.mp ha with rfl | ha
      · exact List.cons_sublist_cons.mpr (List.singleton_sublist.mpr
          ((List.perm_orderedInsert _ x l).symm.subset List.mem_cons_self))
      · exact (pair_sublist_orderedInsert h.of_cons ha hxa).cons b

theorem StableSort.orderedInsert {xs ys : List α} {x : α} (hs : StableSort (notAfter less) xs ys)
    (hx : x ∉ xs) :
    StableSort (notAfter less) (xs ++ [x]) (ys.orderedInsert (fun a b => less a b) x) where
  perm := (List.perm_orderedInsert _ x ys).trans ((hs.perm.cons x).trans (List.perm_append_singleton x xs).symm)
  sorted := pairwise_orderedInsert hl x hs.sorted
  stable a b hab h := by
    obtain ⟨c, d, hcd, hc, hd⟩ := List.sublist_append_iff.mp h
    match c, d, hcd with
    | [], _, rfl => exact absurd (hd.length_le) (by simp)
    | [_], [_], hcd =>
      simp only [List.cons_append, List.nil_append, List.cons.injEq, and_true] at hcd
      obtain ⟨rfl, rfl⟩ := hcd
      obtain rfl := List.mem_singleton.mp (List.singleton_sublist.mp hd)
      exact pair_sublist_orderedInsert hl hs.sorted (hs.perm.symm.subset (List.singleton_sublist.mp hc))
        (by simpa [notAfter] using hab)
    | [_, _], [], rfl => exact (hs.stable _ _ hab hc).trans (List.sublist_orderedInsert _ _)

end Insert

end Pintos.Kit
