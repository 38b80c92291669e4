import Mathlib
import Pintos.Lib.List
import Pintos.Kit.StableSort

/-! `list_sort`, `list_insert_ordered` and `list_unique` of lib/kernel/list.c, for a comparison
LESS of element addresses (the callback reads the elements' structures; only its answers
matter). Each loop is given a number of passes; a loop that runs out of passes, or an `ASSERT`
that fails, is `none`. Over a well-formed list and a strict weak ordering, with a pass for
each element and one more, the natural merge sort leaves the list as `List.mergeSort` by
`notAfter less` would, ordered insertion inserts as `List.orderedInsert` by LESS, and
`list_unique` keeps the first element of each run of equivalent elements. -/
namespace Pintos.Lib
open Pintos.Kit
open scoped List

section Loops
variable (less : Ptr → Ptr → Bool)

/-- The loop `is_sorted` and `find_end_of_run` share: step from A to the next element until B,
or until an element less than the one before it; that element. -/
def scanRun (h : Heap) (b : Ptr) : Nat → Ptr → Option Ptr
  | 0, _ => none
  | fuel + 1, a => do
    let a ← listNext h a
    if a = b then pure a
    else
      let p ← listPrev h a
      if less a p then pure a else scanRun h b fuel a

/-- `is_sorted`: whether A through B (exclusive) are in nondecreasing order. -/
def isSorted (fuel : Nat) (h : Heap) (a b : Ptr) : Option Bool :=
  if a = b then some true else (scanRun less h b fuel a).map fun e => decide (e = b)

/-- `find_end_of_run`; `none` where `ASSERT (a != b)` fails. -/
def findEndOfRun (fuel : Nat) (h : Heap) (a b : Ptr) : Option Ptr :=
  if a = b then none else scanRun less h b fuel a

/-- The loop of `inplace_merge`: the element at A1B0 moves before the one at A0 when it is
less, and A0 steps on when not. -/
def mergeLoop (b1 : Ptr) : Nat → Heap → Ptr → Ptr → Option Heap
  | 0, _, _, _ => none
  | fuel + 1, h, a0, a1b0 =>
    if a0 ≠ a1b0 ∧ a1b0 ≠ b1 then
      if !less a1b0 a0 then do
        let a0 ← listNext h a0
        mergeLoop b1 fuel h a0 a1b0
      else do
        let a1b0 ← listNext h a1b0
        let first ← listPrev h a1b0
        let h ← listSplice h a0 first a1b0
        mergeLoop b1 fuel h a0 a1b0
    else some h

/-- `inplace_merge`; `none` where one of its `ASSERT (is_sorted ...)` fails. -/
def inplaceMerge (fuel : Nat) (h : Heap) (a0 a1b0 b1 : Ptr) : Option Heap := do
  let s1 ← isSorted less fuel h a0 a1b0
  let s2 ← isSorted less fuel h a1b0 b1
  if s1 && s2 then mergeLoop less b1 fuel h a0 a1b0 else none

/-- The `for` loop of one pass of `list_sort` from the run at A0, OUTPUT_RUN_CNT runs output so
far: the heap after, and the number of runs the pass output. -/
def sortPass (l : Lst) (fuel : Nat) : Nat → Heap → Ptr → Nat → Option (Heap × Nat)
  | 0, _, _, _ => none
  | k + 1, h, a0, cnt =>
    if a0 = l.tail then some (h, cnt)
    else do
      let a1b0 ← findEndOfRun less fuel h a0 l.tail
      if a1b0 = l.tail then some (h, cnt + 1)
      else do
        let b1 ← findEndOfRun less fuel h a1b0 l.tail
        let h ← inplaceMerge less fuel h a0 a1b0 b1
        sortPass l fuel k h b1 (cnt + 1)

/-- The `do ... while (output_run_cnt > 1)` loop of `list_sort`. -/
def sortLoop (l : Lst) (fuel : Nat) : Nat → Heap → Option Heap
  | 0, _ => none
  | k + 1, h => do
    let a0 ← listBegin h l
    let (h, cnt) ← sortPass less l fuel fuel h a0 0
    if cnt > 1 then sortLoop l fuel k h else some h

/-- `list_sort`, each of its loops given FUEL passes; `none` where its last `ASSERT` fails. -/
def listSort (fuel : Nat) (h : Heap) (l : Lst) : Option Heap := do
  let h ← sortLoop less l fuel fuel h
  let b ← listBegin h l
  let s ← isSorted less fuel h b l.tail
  if s then some h else none

/-- The `for` loop of `list_insert_ordered`: the first element from E on that ELEM is less than,
or the tail. -/
def insertPos (h : Heap) (l : Lst) (elem : Ptr) : Nat → Ptr → Option Ptr
  | 0, _ => none
  | fuel + 1, e =>
    if e = l.tail then some e
    else if less elem e then some e
    else do
      let e ← listNext h e
      insertPos h l elem fuel e

/-- `list_insert_ordered`. -/
def listInsertOrdered (fuel : Nat) (h : Heap) (l : Lst) (elem : Ptr) : Option Heap := do
  let b ← listBegin h l
  let e ← insertPos less h l elem fuel b
  listInsert h e elem

/-- The `while` loop of `list_unique` from ELEM, the last element it keeps: the next element
goes, to the back of DUPLICATES when there is one, when neither is less than the other. -/
def uniqueLoop (l : Lst) (dups : Option Lst) : Nat → Heap → Ptr → Option Heap
  | 0, _, _ => none
  | fuel + 1, h, elem => do
    let next ← listNext h elem
    if next = l.tail then some h
    else if !less elem next && !less next elem then do
      let (h, _) ← listRemove h next
      let h ← match dups with
        | some d => listPushBack h d next
        | none => some h
      uniqueLoop l dups fuel h elem
    else uniqueLoop l dups fuel h next

/-- `list_unique`. -/
def listUnique (fuel : Nat) (h : Heap) (l : Lst) (dups : Option Lst) : Option Heap :=
  if listEmpty h l then some h
  else do
    let b ← listBegin h l
    uniqueLoop less l dups fuel h b

/-- What the loop of `list_unique` keeps and removes of ELEM and the elements after it. -/
def uniqueSeq : Ptr → List Ptr → List Ptr × List Ptr
  | e, [] => ([e], [])
  | e, n :: ns =>
    if !less e n && !less n e then ((uniqueSeq e ns).1, n :: (uniqueSeq e ns).2)
    else (e :: (uniqueSeq n ns).1, (uniqueSeq n ns).2)

end Loops

/-! ### Walking a well-formed list -/

section Walk
variable {h : Heap} {l : Lst}

theorem WF.listNext_eq {A B : List Ptr} {e : Ptr} (hw : WF h l (A ++ e :: B)) :
    listNext h e = some (B.headD l.tail) := by
  rw [listNext, if_pos (by simp [hw.interior (x := e) (by simp)]), hw.next_eq]

theorem WF.listPrev_eq {A B : List Ptr} (hw : WF h l (A ++ B)) :
    listPrev h (B.headD l.tail) = some ((l.head :: A).getLast (List.cons_ne_nil _ _)) := by
  have hp := hw.link_at.2
  rw [listPrev, if_pos (insertable hp), hp]

theorem WF.nodup_split {A B : List Ptr} (hw : WF h l (A ++ B)) :
    (l.head :: A).Nodup ∧ (B ++ [l.tail]).Nodup ∧
      ∀ x ∈ l.head :: A, ∀ y ∈ B ++ [l.tail], x ≠ y := by
  have hnd := hw.nodup
  rw [Lst.chain, show l.head :: (A ++ B) ++ [l.tail] = (l.head :: A) ++ (B ++ [l.tail]) by simp]
    at hnd
  exact List.nodup_append.mp hnd

/-- The node at position `A.length` of a well-formed list, or its tail, is none of the nodes
before it. -/
theorem WF.headD_ne {A B : List Ptr} (hw : WF h l (A ++ B)) {x : Ptr} (hx : x ∈ A) :
    x ≠ B.headD l.tail :=
  hw.nodup_split.2.2 x (List.mem_cons_of_mem _ hx) _ (by cases B <;> simp)

theorem WF.ne_tail {xs : List Ptr} (hw : WF h l xs) {x : Ptr} (hx : x ∈ xs) : x ≠ l.tail :=
  (show WF h l (xs ++ []) by simpa using hw).headD_ne hx

end Walk

/-! ### The runs of `list_sort` -/

section Scan
variable {less : Ptr → Ptr → Bool} {h : Heap} {l : Lst}

/-- From the first element of a run `a :: C`, the scan passes over the run and stops at the node
after it: B, or an element less than the run's last. -/
theorem scanRun_spec {P C T : List Ptr} {a b : Ptr} {fuel : Nat} (hw : WF h l (P ++ a :: (C ++ T)))
    (hC : (a :: C).IsChain fun x y => notAfter less x y) (hb : b ∉ C)
    (hstop : T.headD l.tail = b ∨
      ∃ t T', T = t :: T' ∧ less t ((a :: C).getLast (List.cons_ne_nil _ _)))
    (hf : C.length < fuel) : scanRun less h b fuel a = some (T.headD l.tail) := by
  obtain ⟨f, rfl⟩ : ∃ f, fuel = f + 1 := ⟨fuel - 1, by omega⟩
  induction C generalizing P a f with
  | nil =>
    rw [scanRun, hw.listNext_eq]
    simp only [Option.bind_eq_bind, Option.pure_def, Option.bind_some, List.nil_append]
    rcases hstop with hb' | ⟨t, T', rfl, ht⟩
    · rw [if_pos hb']
    · have hp : listPrev h t = some a := by
        simpa using (show WF h l ((P ++ [a]) ++ t :: T') by simpa using hw).listPrev_eq
      by_cases htb : t = b
      · rw [List.headD_cons, if_pos htb]
      · rw [List.headD_cons, if_neg htb, hp, Option.bind_some, if_pos (by simpa using ht)]
  | cons c C ih =>
    obtain ⟨f', rfl⟩ : ∃ f', f = f' + 1 := ⟨f - 1, by simp at hf; omega⟩
    have hcb : c ≠ b := fun e => hb (e ▸ List.mem_cons_self)
    have hw' : WF h l ((P ++ [a]) ++ c :: (C ++ T)) := by simpa using hw
    have hp : listPrev h c = some a := by simpa using hw'.listPrev_eq (B := c :: (C ++ T))
    have hca : less c a = false := by
      simpa [notAfter] using (List.isChain_cons_cons.mp hC).1
    rw [scanRun, hw.listNext_eq]
    simp only [Option.bind_eq_bind, Option.pure_def, Option.bind_some, List.cons_append,
      List.headD_cons]
    rw [if_neg hcb, hp, Option.bind_some, if_neg (by simp [hca])]
    have hstop' : T.headD l.tail = b ∨
        ∃ t T', T = t :: T' ∧ less t ((c :: C).getLast (List.cons_ne_nil _ _)) := by
      rcases hstop with hb' | ⟨t, T', hT, ht⟩
      · exact .inl hb'
      · exact .inr ⟨t, T', hT, by simpa using ht⟩
    exact ih hw' (List.isChain_cons_cons.mp hC).2 (fun hm => hb (List.mem_cons_of_mem _ hm))
      hstop' _ (by simp at hf; omega)

theorem isSorted_run {P C T : List Ptr} {a : Ptr} {fuel : Nat} (hw : WF h l (P ++ a :: (C ++ T)))
    (hC : (a :: C).IsChain fun x y => notAfter less x y) (hf : C.length < fuel) :
    isSorted less fuel h a (T.headD l.tail) = some true := by
  have hw' : WF h l ((P ++ a :: C) ++ T) := by simpa using hw
  have hb : T.headD l.tail ∉ C := fun hm =>
    hw'.headD_ne (List.mem_append_right P (List.mem_cons_of_mem a hm)) rfl
  have ha : a ≠ T.headD l.tail := hw'.headD_ne (List.mem_append_right P List.mem_cons_self)
  rw [isSorted, if_neg ha, scanRun_spec hw hC hb (.inl rfl) hf]
  simp

end Scan

/-! ### Merging two adjacent runs -/

section Merge
variable {less : Ptr → Ptr → Bool} {h : Heap} {l : Lst}

/-- The loop of `inplace_merge` over the runs `A` and `B`, after `P` and before `S`, with a pass
for each of their elements and one more: they become their merge, ties going to `A`. -/
theorem mergeLoop_spec {P A B S : List Ptr} {fuel : Nat} (hw : WF h l (P ++ A ++ B ++ S))
    (hf : A.length + B.length < fuel) :
    ∃ h', mergeLoop less (S.headD l.tail) fuel h ((A ++ B ++ S).headD l.tail)
        ((B ++ S).headD l.tail) = some h' ∧
      WF h' l (P ++ List.merge A B (notAfter less) ++ S) ∧
      ∀ x ∉ l.chain (P ++ A ++ B ++ S), h' x = h x := by
  induction fuel generalizing P A B h with
  | zero => omega
  | succ f ih =>
    match A, B with
    | [], B => exact ⟨h, by simp [mergeLoop], by simpa using hw, fun _ _ => rfl⟩
    | x :: A, [] => exact ⟨h, by simp [mergeLoop], by simpa using hw, fun _ _ => rfl⟩
    | x :: A, y :: B =>
      have hxy : x ≠ y :=
        (show WF h l ((P ++ x :: A) ++ (y :: B ++ S)) by simpa using hw).headD_ne (by simp)
      have hyS : y ≠ S.headD l.tail :=
        (show WF h l ((P ++ x :: A ++ y :: B) ++ S) by simpa using hw).headD_ne (by simp)
      have hgo : (x ≠ y ∧ y ≠ S.headD l.tail) := ⟨hxy, hyS⟩
      by_cases hyx : less y x
      · -- `y` is less: it moves before `x`, which stays the loop's `a0`
        have hw1 : WF h l ((P ++ x :: A) ++ [y] ++ (B ++ S)) := by simpa using hw
        obtain ⟨h1, hs, hw1', hfr1⟩ := listSplice_same hw1 (List.cons_ne_nil _ _)
          (show (P ++ x :: A) ++ (B ++ S) = P ++ (x :: A ++ B ++ S) by simp)
        obtain ⟨h2, hl2, hw2, hfr2⟩ := ih (P := P ++ [y]) (A := x :: A) (B := B) (h := h1)
          (by simpa using hw1') (by simp at hf ⊢; omega)
        have hn : listNext h y = some ((B ++ S).headD l.tail) :=
          (show WF h l ((P ++ x :: A) ++ y :: (B ++ S)) by simpa using hw).listNext_eq
        have hp : listPrev h ((B ++ S).headD l.tail) = some y := by
          simpa using (show WF h l ((P ++ x :: A ++ [y]) ++ (B ++ S)) by simpa using hw).listPrev_eq
        refine ⟨h2, ?_, ?_, fun z hz => ?_⟩
        · rw [mergeLoop, if_pos (by simpa using hgo), if_neg (by simp [hyx])]
          simp only [List.cons_append, List.headD_cons, List.head_cons, Option.bind_eq_bind]
            at hs hl2 ⊢
          rw [hn, Option.bind_some, hp, Option.bind_some, hs, Option.bind_some]
          exact hl2
        · rw [List.cons_merge_cons, if_neg (by simp [notAfter, hyx])]
          simpa using hw2
        · have hz1 : z ∉ l.chain ((P ++ x :: A) ++ [y] ++ (B ++ S)) := by simpa using hz
          have hperm : (P ++ [y] ++ (x :: A) ++ B ++ S).Perm ((P ++ x :: A) ++ [y] ++ (B ++ S)) := by
            simp only [List.append_assoc, List.cons_append, List.nil_append]
            exact ((@List.perm_middle _ y (x :: A) (B ++ S)).append_left P).symm
          have hz2 : z ∉ l.chain (P ++ [y] ++ (x :: A) ++ B ++ S) := fun hm =>
            hz1 ((l.chain_perm hperm).mem_iff.mp hm)
          rw [hfr2 z hz2, hfr1 z hz1]
      · -- `x` is not after `y`: it stays first, and `a0` steps to the next element
        obtain ⟨h2, hl2, hw2, hfr2⟩ := ih (P := P ++ [x]) (A := A) (B := y :: B) (h := h)
          (by simpa using hw) (by simp at hf ⊢; omega)
        have hn : listNext h x = some ((A ++ y :: B ++ S).headD l.tail) :=
          (show WF h l (P ++ x :: (A ++ y :: B ++ S)) by simpa using hw).listNext_eq
        refine ⟨h2, ?_, ?_, fun z hz => hfr2 z (by simpa using hz)⟩
        · rw [mergeLoop, if_pos (by simpa using hgo), if_pos (by simp [hyx])]
          simp only [List.cons_append, List.headD_cons, Option.bind_eq_bind] at hn hl2 ⊢
          rw [hn, Option.bind_some]
          exact hl2
        · rw [List.cons_merge_cons, if_pos (by simp [notAfter, hyx])]
          simpa using hw2

/-- `inplace_merge` of the runs `x :: A` and `y :: B`, after `P` and before `S`: both pass its
`ASSERT`s, and they become their merge. -/
theorem inplaceMerge_spec {P A B S : List Ptr} {x y : Ptr} {fuel : Nat}
    (hw : WF h l (P ++ x :: A ++ y :: B ++ S))
    (hA : (x :: A).IsChain fun a b => notAfter less a b)
    (hB : (y :: B).IsChain fun a b => notAfter less a b) (hf : A.length + B.length + 2 < fuel) :
    ∃ h', inplaceMerge less fuel h x y (S.headD l.tail) = some h' ∧
      WF h' l (P ++ List.merge (x :: A) (y :: B) (notAfter less) ++ S) ∧
      ∀ z ∉ l.chain (P ++ x :: A ++ y :: B ++ S), h' z = h z := by
  have h1 : isSorted less fuel h x y = some true := by
    simpa using isSorted_run (P := P) (C := A) (T := y :: B ++ S) (by simpa using hw) hA
      (show A.length < fuel by omega)
  have h2 : isSorted less fuel h y (S.headD l.tail) = some true :=
    isSorted_run (P := P ++ x :: A) (C := B) (by simpa using hw) hB (show B.length < fuel by omega)
  obtain ⟨h', hl, hw', hfr⟩ := @mergeLoop_spec less h l P (x :: A) (y :: B) S fuel hw
    (by simp; omega)
  refine ⟨h', ?_, hw', hfr⟩
  rw [inplaceMerge, h1, Option.bind_eq_bind, Option.bind_some, h2, Option.bind_some]
  simpa using hl

end Merge

/-! ### A pass of `list_sort` over the runs of the list -/

section Pass
variable {less : Ptr → Ptr → Bool} {h : Heap} {l : Lst}

/-- Between two adjacent runs the list descends: the second run's first element is less than
the first run's last. -/
theorem less_of_splitBy {r s : List Ptr} {rs : List (List Ptr)}
    (hB : (r :: s :: rs).flatten.splitBy (notAfter less) = r :: s :: rs) (hr : r ≠ [])
    (hs : s ≠ []) : less (s.head hs) (r.getLast hr) := by
  obtain ⟨-, -, -, hc⟩ := List.splitBy_eq_iff.mp hB
  obtain ⟨_, _, hj⟩ := (List.isChain_cons_cons.mp hc).1
  simpa [notAfter] using hj

/-- The `for` loop of a pass over the runs `Bs` of what follows `Done`, with a pass for each
run and one more: each two adjacent runs are merged, and the runs output are counted. -/
theorem sortPass_spec {Done : List Ptr} {Bs : List (List Ptr)} {k fuel cnt : Nat}
    (hw : WF h l (Done ++ Bs.flatten)) (hB : Bs.flatten.splitBy (notAfter less) = Bs)
    (hk : Bs.length < k) (hf : Bs.flatten.length < fuel) :
    ∃ h', sortPass less l fuel k h (Bs.flatten.headD l.tail) cnt =
        some (h', cnt + (mergePairs (notAfter less) Bs).length) ∧
      WF h' l (Done ++ (mergePairs (notAfter less) Bs).flatten) ∧
      ∀ x ∉ l.chain (Done ++ Bs.flatten), h' x = h x := by
  induction k generalizing Done Bs h cnt with
  | zero => omega
  | succ k ih =>
    obtain ⟨-, hne, hch, -⟩ := List.splitBy_eq_iff.mp hB
    have hcons : ∀ r ∈ Bs, ∃ a C, r = a :: C := fun r hr =>
      List.exists_cons_of_ne_nil fun e => hne (e ▸ hr)
    rcases Bs with _ | ⟨r, _ | ⟨s, rs⟩⟩
    · exact ⟨h, by simp [sortPass, mergePairs], by simpa [mergePairs] using hw, fun _ _ => rfl⟩
    · -- one run left: it is output as it is
      obtain ⟨a, C, rfl⟩ := hcons r List.mem_cons_self
      have hC := hch _ List.mem_cons_self
      have hend : findEndOfRun less fuel h a l.tail = some l.tail := by
        rw [findEndOfRun, if_neg (hw.ne_tail (by simp))]
        exact scanRun_spec (P := Done) (T := []) (by simpa using hw) hC
          (fun hm => hw.ne_tail (by simp [hm]) rfl) (.inl rfl) (by simp at hf; omega)
      refine ⟨h, ?_, by simpa [mergePairs] using hw, fun _ _ => rfl⟩
      simp [sortPass, hw.ne_tail (x := a) (by simp), hend, mergePairs]
    · obtain ⟨a, C, rfl⟩ := hcons r List.mem_cons_self
      obtain ⟨b, D, rfl⟩ := hcons s (List.mem_cons_of_mem _ List.mem_cons_self)
      have hC := hch _ List.mem_cons_self
      have hD := hch _ (List.mem_cons_of_mem _ List.mem_cons_self)
      have hB' : rs.flatten.splitBy (notAfter less) = rs :=
        splitBy_flatten_tail (splitBy_flatten_tail hB)
      have hlen : C.length + D.length + 2 + rs.flatten.length < fuel := by
        simp only [List.flatten_cons, List.length_append, List.length_cons] at hf
        omega
      have hend1 : findEndOfRun less fuel h a l.tail = some b := by
        rw [findEndOfRun, if_neg (hw.ne_tail (by simp))]
        have hj := less_of_splitBy hB (List.cons_ne_nil _ _) (List.cons_ne_nil _ _)
        exact scanRun_spec (P := Done) (T := b :: D ++ rs.flatten) (by simpa using hw) hC
          (fun hm => hw.ne_tail (by simp [hm]) rfl) (.inr ⟨b, _, rfl, by simpa using hj⟩)
          (by omega)
      have hstop : rs.flatten.headD l.tail = l.tail ∨ ∃ t T', rs.flatten = t :: T' ∧
          less t ((b :: D).getLast (List.cons_ne_nil _ _)) := by
        rcases rs with _ | ⟨r', rs'⟩
        · exact .inl rfl
        · obtain ⟨c, E, rfl⟩ := hcons r' (by simp)
          exact .inr ⟨c, _, rfl, by
            simpa using less_of_splitBy (splitBy_flatten_tail hB) (List.cons_ne_nil _ _)
              (List.cons_ne_nil _ _)⟩
      have hend2 : findEndOfRun less fuel h b l.tail = some (rs.flatten.headD l.tail) := by
        rw [findEndOfRun, if_neg (hw.ne_tail (by simp))]
        exact scanRun_spec (P := Done ++ a :: C) (by simpa using hw) hD
          (fun hm => hw.ne_tail (by simp [hm]) rfl) hstop (by omega)
      obtain ⟨h1, hm1, hw1, hfr1⟩ := inplaceMerge_spec (P := Done) (S := rs.flatten)
        (by simpa using hw) hC hD (show C.length + D.length + 2 < fuel by omega)
      obtain ⟨h2, hp2, hw2, hfr2⟩ := @ih h1 (Done ++ List.merge (a :: C) (b :: D) (notAfter less))
        rs (cnt + 1) (by simpa using hw1) hB' (by simp at hk; omega) (by omega)
      refine ⟨h2, ?_, by simpa [mergePairs] using hw2, fun x hx => ?_⟩
      · simp only [List.flatten_cons, List.cons_append, List.headD_cons]
        rw [sortPass, if_neg (hw.ne_tail (by simp))]
        simp only [Option.bind_eq_bind]
        rw [hend1, Option.bind_some, if_neg (hw.ne_tail (by simp)), hend2, Option.bind_some, hm1,
          Option.bind_some, hp2]
        simp [mergePairs]
        omega
      · have hx1 : x ∉ l.chain (Done ++ a :: C ++ b :: D ++ rs.flatten) := by simpa using hx
        have hperm : (Done ++ List.merge (a :: C) (b :: D) (notAfter less) ++ rs.flatten).Perm
            (Done ++ a :: C ++ b :: D ++ rs.flatten) := by
          simpa only [List.append_assoc] using
            ((List.merge_perm_append (notAfter less)).append_right rs.flatten).append_left Done
        have hx2 : x ∉ l.chain (Done ++ List.merge (a :: C) (b :: D) (notAfter less) ++
            rs.flatten) := fun hm => hx1 ((l.chain_perm hperm).mem_iff.mp hm)
        rw [hfr2 x hx2, hfr1 x hx1]

end Pass

/-! ### `list_sort` -/

section Sorting
variable {less : Ptr → Ptr → Bool} (hl : IsStrictWeakOrder Ptr fun a b => less a b)
  {h : Heap} {l : Lst}
include hl

theorem pairwise_of_mem_splitBy {xs r : List Ptr} (hr : r ∈ xs.splitBy (notAfter less)) :
    r.Pairwise fun a b => notAfter less a b :=
  pairwise_of_isChain (notAfter_trans hl) (List.isChain_of_mem_splitBy hr)

theorem pass_keeps (xs : List Ptr) :
    ((mergePairs (notAfter less) (xs.splitBy (notAfter less))).flatten).Perm xs ∧
      ∀ a b, notAfter less a b → [a, b] <+ xs →
        [a, b] <+ (mergePairs (notAfter less) (xs.splitBy (notAfter less))).flatten := by
  refine ⟨by simpa [List.flatten_splitBy] using mergePairs_perm (xs.splitBy (notAfter less)),
    fun a b hab hx => pair_sublist_mergePairs (notAfter_trans hl) hab
      (fun r hr => pairwise_of_mem_splitBy hl hr) (by rwa [List.flatten_splitBy])⟩

/-- The `do ... while` loop of `list_sort`, with a pass of each inner loop for each element and
one more, and one outer pass more than half the runs: it ends with a stable sort of the list.
Each pass halves the number of runs, rounding up, so the loop stops. -/
theorem sortLoop_spec {xs : List Ptr} {k fuel : Nat} (hw : WF h l xs) (hf : xs.length < fuel)
    (hk : ((xs.splitBy (notAfter less)).length + 1) / 2 < k) :
    ∃ h' ys, sortLoop less l fuel k h = some h' ∧ WF h' l ys ∧ StableSort (notAfter less) xs ys ∧
      ∀ x ∉ l.chain xs, h' x = h x := by
  induction k generalizing h xs with
  | zero => omega
  | succ k ih =>
    set Bs := xs.splitBy (notAfter less) with hBs
    have hflat : Bs.flatten = xs := List.flatten_splitBy _ _
    have hlen : Bs.length ≤ xs.length := length_splitBy_le xs
    obtain ⟨h1, hp1, hw1, hfr1⟩ := @sortPass_spec less h l [] Bs fuel fuel 0
      (by simpa [hflat] using hw) (by rw [hflat]) (by omega) (by rw [hflat]; exact hf)
    obtain ⟨hperm, hpairs⟩ := pass_keeps hl xs
    rw [← hBs] at hperm hpairs
    have hsorted : ∀ r ∈ mergePairs (notAfter less) Bs, r.Pairwise fun a b => notAfter less a b :=
      pairwise_of_mem_mergePairs (notAfter_trans hl) (notAfter_total hl)
        fun r hr => pairwise_of_mem_splitBy hl hr
    have hrun : sortLoop less l fuel (k + 1) h = (do
        let (h, cnt) ← some (h1, (mergePairs (notAfter less) Bs).length)
        if cnt > 1 then sortLoop less l fuel k h else some h) := by
      rw [sortLoop, hw.begin_eq, ← hflat, Option.bind_eq_bind, Option.bind_some]
      simp only [Nat.zero_add] at hp1
      rw [hp1]
    simp only [Nat.zero_add, List.nil_append] at hp1 hw1 hfr1
    by_cases hc : (mergePairs (notAfter less) Bs).length > 1
    · -- another pass, over fewer runs
      have hlen1 :
          (((mergePairs (notAfter less) Bs).flatten.splitBy (notAfter less)).length + 1) / 2 < k := by
        have h1 := @length_splitBy_flatten_le _ (notAfter less) (mergePairs (notAfter less) Bs)
          fun r hr => (hsorted r hr).isChain
        have h2 := @length_mergePairs _ (notAfter less) Bs
        omega
      obtain ⟨h2, ys, hl2, hw2, hs2, hfr2⟩ := ih hw1 (by rw [hperm.length_eq]; exact hf) hlen1
      refine ⟨h2, ys, by rw [hrun]; simpa [hc] using hl2, hw2, hs2.of_pass hperm hpairs,
        fun x hx => ?_⟩
      rw [hfr2 x fun hm => hx ((l.chain_perm hperm).mem_iff.mp hm), hfr1 x (by rwa [hflat])]
    · -- one run output: the list is sorted
      refine ⟨h1, _, by rw [hrun]; simp [hc], hw1, ⟨hperm, ?_, hpairs⟩, fun x hx => hfr1 x (by rwa [hflat])⟩
      match hm : mergePairs (notAfter less) Bs, hc with
      | [], _ => simp
      | [r], _ => simpa using hsorted r (by simp [hm])
      | _ :: _ :: _, hc => simp at hc

/-- `list_sort` of a well-formed list of distinct elements, each of its loops given a pass for
each element and one more: the list ends as `List.mergeSort` by `notAfter less` leaves it, and
only its nodes change. -/
theorem listSort_spec {xs : List Ptr} {fuel : Nat} (hw : WF h l xs) (hf : xs.length < fuel) :
    ∃ h', listSort less fuel h l = some h' ∧ WF h' l (xs.mergeSort (notAfter less)) ∧
      ∀ x ∉ l.chain xs, h' x = h x := by
  have hlen := length_splitBy_le (r := notAfter less) xs
  obtain ⟨h', ys, hs, hw', hst, hfr⟩ := sortLoop_spec hl (k := fuel) hw hf (by omega)
  have hnd : xs.Nodup := hw.nodup.sublist (by simp [Lst.chain])
  obtain rfl := hst.unique hnd (mergeSort_stableSort (notAfter_trans hl) (notAfter_total hl) xs)
  have hsorted : isSorted less fuel h' ((xs.mergeSort (notAfter less)).headD l.tail) l.tail =
      some true := by
    cases hm : xs.mergeSort (notAfter less) with
    | nil => simp [isSorted]
    | cons a C =>
      have hc := hst.sorted.isChain
      rw [hm] at hc hw'
      have := isSorted_run (P := []) (T := []) (by simpa using hw') hc
        (show C.length < fuel by have := hst.perm.length_eq; rw [hm] at this; simp at this; omega)
      simpa using this
  refine ⟨h', ?_, hw', hfr⟩
  rw [listSort, hs]
  simp only [Option.bind_eq_bind]
  rw [Option.bind_some, hw'.begin_eq, Option.bind_some, hsorted]
  rfl

/-- `list_sort` of a well-formed list under a strict weak ordering, with a pass of each of its
loops for each element and one more, returns, and leaves a permutation of the list that is
nondecreasing and in which equivalent elements keep their order. -/
theorem listSort_stable_sort {xs : List Ptr} {fuel : Nat} (hw : WF h l xs)
    (hf : xs.length < fuel) :
    ∃ h' ys, listSort less fuel h l = some h' ∧ WF h' l ys ∧ ys.Perm xs ∧
      ys.Pairwise (fun a b => less b a = false) ∧
      ∀ a b, less a b = false → less b a = false → [a, b] <+ xs → [a, b] <+ ys := by
  obtain ⟨h', hs, hw', -⟩ := listSort_spec hl hw hf
  have hst := mergeSort_stableSort (notAfter_trans hl) (notAfter_total hl) xs
  refine ⟨h', _, hs, hw', hst.perm, by simpa [notAfter] using hst.sorted,
    fun a b _ hba hab => hst.stable a b (by simp [notAfter, hba]) hab⟩

end Sorting

theorem listSort_stable_sort_descending : ∃ h h' ys,
    listBuild (fun _ => ⟨none, none⟩) ⟨0, 1⟩ [2, 3, 4] = some h ∧
    listSort (fun a b => decide (b < a)) 4 h ⟨0, 1⟩ = some h' ∧ WF h' ⟨0, 1⟩ ys ∧
      ys.Perm [2, 3, 4] ∧ ys.Pairwise (fun a b => decide (a < b) = false) ∧
      ∀ a b, decide (b < a) = false → decide (a < b) = false → [a, b] <+ [2, 3, 4] →
        [a, b] <+ ys := by
  obtain ⟨h, hb, hw⟩ := listBuild_spec (fun _ => ⟨none, none⟩) ⟨0, 1⟩ [2, 3, 4] (by decide)
    (by decide)
  have hl : IsStrictWeakOrder Nat fun a b => decide (b < a) = true :=
    { irrefl := fun a h => by simp at h
      trans := fun a b c h1 h2 => by simp at h1 h2 ⊢; omega
      incomp_trans := fun a b c h1 h2 => by simp at h1 h2 ⊢; omega }
  obtain ⟨h', ys, hs, hw', hp, hsort, hst⟩ := listSort_stable_sort hl hw
    (show [2, 3, 4].length < 4 by decide)
  exact ⟨h, h', ys, hb, hs, hw', hp, hsort, hst⟩

/-! ### `list_insert_ordered` -/

section Insert
variable {less : Ptr → Ptr → Bool} {h : Heap} {l : Lst}

/-- The loop of `list_insert_ordered` from the element at position `P.length`: it stops at the
first element that ELEM is less than, or the tail, which is where `List.orderedInsert` by LESS
puts ELEM. -/
theorem insertPos_spec {P R : List Ptr} {elem : Ptr} {fuel : Nat} (hw : WF h l (P ++ R))
    (hf : R.length < fuel) :
    ∃ A B, insertPos less h l elem fuel (R.headD l.tail) = some (B.headD l.tail) ∧ R = A ++ B ∧
      R.orderedInsert (fun a b => less a b) elem = A ++ elem :: B ∧
      (∀ a ∈ A, less elem a = false) ∧ ∀ b ∈ B.head?, less elem b = true := by
  obtain ⟨f, rfl⟩ : ∃ f, fuel = f + 1 := ⟨fuel - 1, by omega⟩
  induction R generalizing P f with
  | nil => exact ⟨[], [], by simp [insertPos], rfl, rfl, by simp, by simp⟩
  | cons e R ih =>
    have het : e ≠ l.tail := hw.ne_tail (by simp)
    by_cases he : less elem e
    · exact ⟨[], e :: R, by simp [insertPos, het, he], rfl, by simp [he], by simp, by simpa using he⟩
    · have hw' : WF h l ((P ++ [e]) ++ R) := by simpa using hw
      obtain ⟨f', rfl⟩ : ∃ f', f = f' + 1 := ⟨f - 1, by simp at hf; omega⟩
      obtain ⟨A, B, hpos, rfl, hins, hA, hB⟩ := ih hw' f' (by simp at hf; omega)
      refine ⟨e :: A, B, ?_, rfl, by simp [he, hins], ?_, hB⟩
      · rw [List.headD_cons, insertPos, if_neg het, if_neg he, Option.bind_eq_bind,
          (show WF h l (P ++ e :: (A ++ B)) from hw).listNext_eq, Option.bind_some]
        exact hpos
      · simpa [he] using hA

/-- `list_insert_ordered` of an element on no list, with a pass of its loop for each element and
one more: the element goes in before the first element it is less than, as
`List.orderedInsert` by LESS puts it, and only nodes of the new chain change. -/
theorem listInsertOrdered_spec {xs : List Ptr} {elem : Ptr} {fuel : Nat} (hw : WF h l xs)
    (he : elem ∉ l.chain xs) (hf : xs.length < fuel) :
    ∃ h' A B, listInsertOrdered less fuel h l elem = some h' ∧ xs = A ++ B ∧
      xs.orderedInsert (fun a b => less a b) elem = A ++ elem :: B ∧
      (∀ a ∈ A, less elem a = false) ∧ (∀ b ∈ B.head?, less elem b = true) ∧
      WF h' l (A ++ elem :: B) ∧ ∀ x ∉ l.chain (A ++ elem :: B), h' x = h x := by
  obtain ⟨A, B, hpos, rfl, hins, hA, hB⟩ := @insertPos_spec less h l [] xs elem fuel
    (by simpa using hw) hf
  obtain ⟨h', hi, hw', hfr⟩ := listInsert_spec hw he
  refine ⟨h', A, B, ?_, rfl, hins, hA, hB, hw', hfr⟩
  rw [listInsertOrdered, hw.begin_eq]
  simp only [Option.bind_eq_bind]
  rw [Option.bind_some, hpos, Option.bind_some, hi]

/-- `list_insert_ordered` of each of XS in turn, from an empty list, with a pass of the loop for
each element and one more: under a strict weak ordering, the list ends as `List.mergeSort` by
`notAfter less` leaves XS, so the insertions make a stable sort. -/
theorem listInsertOrdered_all_spec (hl : IsStrictWeakOrder Ptr fun a b => less a b)
    {xs : List Ptr} {fuel : Nat} (hw : WF h l []) (hnd : (l.chain xs).Nodup)
    (hf : xs.length < fuel) :
    ∃ h', xs.foldlM (fun h e => listInsertOrdered less fuel h l e) h = some h' ∧
      WF h' l (xs.mergeSort (notAfter less)) := by
  induction xs using List.reverseRecOn with
  | nil => exact ⟨h, rfl, by simpa using hw⟩
  | append_singleton xs x ih =>
    have hnd' : (l.chain xs).Nodup := hnd.sublist (by simp [Lst.chain])
    have hx : x ∉ l.chain xs := by
      have := (l.chain_insert xs [] x).nodup_iff.mp (by simpa using hnd)
      simpa using (List.nodup_cons.mp this).1
    obtain ⟨h1, hfold, hw1⟩ := ih hnd' (by simp at hf; omega)
    have hperm := List.mergeSort_perm xs (notAfter less)
    obtain ⟨h2, A, B, hi, -, hins, -, -, hw2, -⟩ := @listInsertOrdered_spec less h1 l _ x fuel hw1
      (fun hm => hx ((l.chain_perm hperm).mem_iff.mp hm))
      (by rw [hperm.length_eq]; simp at hf; omega)
    rw [← hins] at hw2
    have hxs : x ∉ xs := fun hm => hx (by simp [hm])
    have hnd2 : (xs ++ [x]).Nodup := hnd.sublist (by simp [Lst.chain])
    have hst := (mergeSort_stableSort (notAfter_trans hl) (notAfter_total hl) xs).orderedInsert hl hxs
    rw [hst.unique hnd2 (mergeSort_stableSort (notAfter_trans hl) (notAfter_total hl) _)] at hw2
    exact ⟨h2, by rw [List.foldlM_append, hfold]; simpa using hi, hw2⟩

end Insert

/-! ### `list_unique` -/

section Unique
variable {less : Ptr → Ptr → Bool} {h : Heap} {l : Lst}

/-- What the loop of `list_unique` keeps of a list under a strict weak ordering is the first
element of each run of equivalent adjacent elements, and what it removes is the rest of each run,
in order. -/
theorem uniqueSeq_eq (hl : IsStrictWeakOrder Ptr fun a b => less a b) (e : Ptr) (ns : List Ptr) :
    uniqueSeq less e ns = (((e :: ns).splitBy (equiv less)).filterMap List.head?,
      ((e :: ns).splitBy (equiv less)).flatMap List.tail) := by
  induction ns generalizing e with
  | nil => simp [uniqueSeq, List.splitBy_of_isChain]
  | cons n ns ih =>
    by_cases hen : equiv less e n
    · -- `n` joins `e`'s run: the loop drops it and goes on comparing with `e`
      have hsame : ∀ c, equiv less e c = equiv less n c := fun c =>
        Bool.eq_iff_iff.mpr ⟨fun hc => equiv_trans hl (equiv_symm hen) hc,
          fun hc => equiv_trans hl hen hc⟩
      obtain ⟨G, Gs, h1, h2⟩ := splitBy_cons_cons_of_equiv (l := ns) hen hsame
      have ih' := ih e
      rw [h1] at ih'
      rw [uniqueSeq, if_pos (show (!less e n && !less n e) = true from hen), ih', h2]
      simp
    · rw [uniqueSeq, if_neg (show ¬(!less e n && !less n e) = true from hen), ih n,
        splitBy_cons_cons_of_not_rel (by simpa using hen)]
      simp

/-- The loop of `list_unique` from ELEM, after the elements `K`, with a pass for each element
after it and one more: what `uniqueSeq` keeps stays on the list, what it removes goes to the back
of DUPLICATES when there is one, a list apart, and only nodes of the two lists change. -/
theorem uniqueLoop_spec {K ns D : List Ptr} {elem : Ptr} {dups : Option Lst} {fuel : Nat}
    (hw : WF h l (K ++ elem :: ns))
    (hd : ∀ d ∈ dups, WF h d D ∧ (l.chain (K ++ elem :: ns) ++ d.chain D).Nodup)
    (hf : ns.length < fuel) :
    ∃ h', uniqueLoop less l dups fuel h elem = some h' ∧
      WF h' l (K ++ (uniqueSeq less elem ns).1) ∧
      (∀ d ∈ dups, WF h' d (D ++ (uniqueSeq less elem ns).2)) ∧
      ∀ x ∉ l.chain (K ++ elem :: ns), (∀ d ∈ dups, x ∉ d.chain D) → h' x = h x := by
  obtain ⟨f, rfl⟩ : ∃ f, fuel = f + 1 := ⟨fuel - 1, by omega⟩
  induction ns generalizing K elem D h f with
  | nil =>
    have hn : listNext h elem = some l.tail := by simpa using hw.listNext_eq (B := [])
    refine ⟨h, by simp [uniqueLoop, hn], by simpa [uniqueSeq] using hw,
      fun d hd' => by simpa [uniqueSeq] using (hd d hd').1, fun _ _ _ => rfl⟩
  | cons n ns ih =>
    have hn : listNext h elem = some n := hw.listNext_eq
    have hnt : n ≠ l.tail := hw.ne_tail (by simp)
    obtain ⟨f', rfl⟩ : ∃ f', f = f' + 1 := ⟨f - 1, by simp at hf; omega⟩
    have hnK : n ∉ l.chain (K ++ elem :: ns) := by
      have := (l.chain_insert (K ++ [elem]) ns n).nodup_iff.mp (by simpa using hw.nodup)
      simpa using (List.nodup_cons.mp this).1
    have hsub : l.chain (K ++ elem :: ns) ⊆ l.chain (K ++ elem :: n :: ns) :=
      Lst.chain_subset (((List.sublist_cons_self n ns).cons_cons elem).append_left K).subset
    by_cases hen : (!less elem n && !less n elem) = true
    · -- `n` is equivalent to ELEM: it leaves the list, for the back of DUPLICATES
      obtain ⟨h1, hr, hw1, hfr1⟩ := listRemove_spec (show WF h l ((K ++ [elem]) ++ n :: ns) by
        simpa using hw)
      have hw1' : WF h1 l (K ++ elem :: ns) := by simpa using hw1
      have hfr1' : ∀ x ∉ l.chain (K ++ elem :: ns), h1 x = h x := fun x hx => hfr1 x (by simpa using hx)
      have hseq : uniqueSeq less elem (n :: ns) =
          ((uniqueSeq less elem ns).1, n :: (uniqueSeq less elem ns).2) := by
        rw [uniqueSeq, if_pos hen]
      rcases dups with _ | d
      · obtain ⟨h2, hl2, hw2, -, hfr2⟩ := @ih h1 K D elem hw1' (by simp) f' (by simp at hf; omega)
        refine ⟨h2, ?_, by rw [hseq]; exact hw2, by simp, fun x hx _ => ?_⟩
        · rw [uniqueLoop]
          simp only [Option.bind_eq_bind, hn, Option.bind_some]
          rw [if_neg hnt, if_pos hen, hr]
          simpa using hl2
        · have hx' : x ∉ l.chain (K ++ elem :: ns) := fun hm => hx (hsub hm)
          rw [hfr2 x hx' (by simp), hfr1' x hx']
      · obtain ⟨hwd, hnd⟩ := hd d rfl
        have hdis : ∀ x ∈ d.chain D, x ∉ l.chain (K ++ elem :: n :: ns) := fun x hx hx' =>
          (List.nodup_append.mp hnd).2.2 x hx' x hx rfl
        have hwd1 : WF h1 d D := hwd.congr fun x hx => hfr1' x fun hm => hdis x hx (hsub hm)
        obtain ⟨h2, hp, hwd2, hfr2⟩ := listPushBack_spec hwd1 fun hm => hdis n hm (by simp)
        have hw2 : WF h2 l (K ++ elem :: ns) := hw1'.congr fun x hx => hfr2 x fun hm => by
          rcases Lst.mem_chain_append_singleton.mp hm with hm | rfl
          · exact hdis x hm (hsub hx)
          · exact hnK hx
        have hnd2 : (l.chain (K ++ elem :: ns) ++ d.chain (D ++ [n])).Nodup := by
          refine (List.Perm.nodup_iff ?_).mpr hnd
          rw [List.perm_iff_count]
          intro a
          simp only [Lst.chain, List.count_append, List.count_cons, List.count_nil]
          omega
        obtain ⟨h3, hl3, hw3, hwd3, hfr3⟩ := @ih h2 K (D ++ [n]) elem hw2
          (fun d' hd' => by cases hd'; exact ⟨hwd2, hnd2⟩) f' (by simp at hf; omega)
        refine ⟨h3, ?_, by rw [hseq]; exact hw3, fun d' hd' => ?_, fun x hx hxd => ?_⟩
        · rw [uniqueLoop]
          simp only [Option.bind_eq_bind, hn, Option.bind_some]
          rw [if_neg hnt, if_pos hen, hr]
          simpa [hp] using hl3
        · cases hd'
          simpa [hseq] using hwd3 d rfl
        · have hx' : x ∉ l.chain (K ++ elem :: ns) := fun hm => hx (hsub hm)
          have hxn : x ≠ n := fun e => hx (by simp [e])
          have hxd : x ∉ d.chain (D ++ [n]) := fun hm =>
            hxd d rfl ((Lst.mem_chain_append_singleton.mp hm).resolve_right hxn)
          rw [hfr3 x hx' (by simpa using hxd), hfr2 x hxd, hfr1' x hx']
    · -- `n` starts a new run: the loop keeps it and goes on from it
      obtain ⟨h2, hl2, hw2, hwd2, hfr2⟩ := @ih h (K ++ [elem]) D n (by simpa using hw)
        (fun d hd' => by simpa using hd d hd') f' (by simp at hf; omega)
      have hseq : uniqueSeq less elem (n :: ns) =
          (elem :: (uniqueSeq less n ns).1, (uniqueSeq less n ns).2) := by
        rw [uniqueSeq, if_neg hen]
      refine ⟨h2, ?_, by rw [hseq]; simpa using hw2, by rw [hseq]; exact hwd2,
        fun x hx hxd => hfr2 x (by simpa using hx) hxd⟩
      rw [uniqueLoop]
      simp only [Option.bind_eq_bind, hn, Option.bind_some]
      rw [if_neg hnt, if_neg hen]
      exact hl2

/-- `list_unique` of a well-formed list, with a pass of its loop for each element and one more:
under a strict weak ordering the list keeps the first element of each run of equivalent
adjacent elements, and the others go, in order, to the back of DUPLICATES when there is one, a
list apart. Only nodes of the two lists change. -/
theorem listUnique_spec (hl : IsStrictWeakOrder Ptr fun a b => less a b) {xs D : List Ptr}
    {dups : Option Lst} {fuel : Nat} (hw : WF h l xs)
    (hd : ∀ d ∈ dups, WF h d D ∧ (l.chain xs ++ d.chain D).Nodup) (hf : xs.length < fuel) :
    ∃ h', listUnique less fuel h l dups = some h' ∧
      WF h' l ((xs.splitBy (equiv less)).filterMap List.head?) ∧
      (∀ d ∈ dups, WF h' d (D ++ (xs.splitBy (equiv less)).flatMap List.tail)) ∧
      ∀ x ∉ l.chain xs, (∀ d ∈ dups, x ∉ d.chain D) → h' x = h x := by
  cases xs with
  | nil =>
    refine ⟨h, by simp [listUnique, hw.empty_iff.mpr rfl], by simpa using hw,
      fun d hd' => by simpa using (hd d hd').1, fun _ _ _ => rfl⟩
  | cons e ns =>
    have hne : listEmpty h l = false := by
      cases he : listEmpty h l
      · rfl
      · exact absurd (hw.empty_iff.mp he) (List.cons_ne_nil _ _)
    obtain ⟨h', hu, hw', hwd, hfr⟩ := @uniqueLoop_spec less h l [] ns D e dups fuel
      (by simpa using hw) (by simpa using hd) (by simp at hf; omega)
    rw [uniqueSeq_eq hl] at hw' hwd
    refine ⟨h', ?_, by simpa using hw', hwd, fun x hx hxd => hfr x (by simpa using hx) hxd⟩
    rw [listUnique, hne, if_neg (by simp), hw.begin_eq]
    simpa using hu

end Unique


section Ordered
variable {less : Ptr → Ptr → Bool}

/-- Under a strict weak ordering: `list_insert_ordered` of an element on no list into a sorted
list puts it after every element it is not less than, so after every equivalent one, and before
all others, and the list stays sorted; inserting the elements of a list one by one into an empty
list leaves a stable sort of them; and `list_unique` keeps the first element of each run of
equivalent adjacent elements and moves the others, in order, to the back of DUPLICATES when there
is one. -/
theorem insertOrdered_unique_correct (hl : IsStrictWeakOrder Ptr fun a b => less a b) :
    (∀ (h : Heap) (l : Lst) (xs : List Ptr) (elem : Ptr) (fuel : Nat), WF h l xs →
      xs.Pairwise (fun a b => less b a = false) → elem ∉ l.chain xs → xs.length < fuel →
      ∃ h' A B, listInsertOrdered less fuel h l elem = some h' ∧ WF h' l (A ++ elem :: B) ∧
        xs = A ++ B ∧ (∀ a ∈ A, less elem a = false) ∧ (∀ b ∈ B, less elem b = true) ∧
        (A ++ elem :: B).Pairwise (fun a b => less b a = false)) ∧
    (∀ (h : Heap) (l : Lst) (xs : List Ptr) (fuel : Nat), WF h l [] → (l.chain xs).Nodup →
      xs.length < fuel →
      ∃ h' ys, xs.foldlM (fun h e => listInsertOrdered less fuel h l e) h = some h' ∧
        WF h' l ys ∧ ys.Perm xs ∧ ys.Pairwise (fun a b => less b a = false) ∧
        ∀ a b, less a b = false → less b a = false → [a, b] <+ xs → [a, b] <+ ys) ∧
    (∀ (h : Heap) (l : Lst) (xs D : List Ptr) (dups : Option Lst) (fuel : Nat), WF h l xs →
      (∀ d ∈ dups, WF h d D ∧ (l.chain xs ++ d.chain D).Nodup) → xs.length < fuel →
      ∃ h', listUnique less fuel h l dups = some h' ∧
        WF h' l ((xs.splitBy (equiv less)).filterMap List.head?) ∧
        ∀ d ∈ dups, WF h' d (D ++ (xs.splitBy (equiv less)).flatMap List.tail)) := by
  refine ⟨fun h l xs elem fuel hw hs he hf => ?_, fun h l xs fuel hw hnd hf => ?_,
    fun h l xs D dups fuel hw hd hf => ?_⟩
  · obtain ⟨h', A, B, hi, rfl, hins, hA, hB, hw', -⟩ := listInsertOrdered_spec hw he hf
    have hs' : (A ++ B).Pairwise fun a b => notAfter less a b := by simpa [notAfter] using hs
    refine ⟨h', A, B, hi, hw', rfl, hA, fun b hb => ?_, ?_⟩
    · -- the first element after ELEM is greater, and so is every later one, the list being sorted
      obtain ⟨b0, B', rfl⟩ : ∃ b0 B', B = b0 :: B' := List.exists_cons_of_ne_nil (List.ne_nil_of_mem hb)
      have hb0 : less elem b0 := hB b0 rfl
      rcases List.mem_cons.mp hb with rfl | hb
      · exact hb0
      · have hbb : less b b0 = false := by
          have := List.rel_of_pairwise_cons (List.pairwise_append.mp hs').2.1 hb
          simpa [notAfter] using this
        exact (less_or_less hl b hb0).resolve_right (by simp [hbb])
    · have := pairwise_orderedInsert hl elem hs'
      rw [hins] at this
      simpa [notAfter] using this
  · obtain ⟨h', hfold, hw'⟩ := listInsertOrdered_all_spec hl hw hnd hf
    have hst := mergeSort_stableSort (notAfter_trans hl) (notAfter_total hl) xs
    exact ⟨h', _, hfold, hw', hst.perm, by simpa [notAfter] using hst.sorted,
      fun a b _ hba hab => hst.stable a b (by simp [notAfter, hba]) hab⟩
  · obtain ⟨h', hu, hw', hwd, -⟩ := listUnique_spec hl hw hd hf
    exact ⟨h', hu, hw', hwd⟩

theorem insertOrdered_unique_correct_sample :
    (∃ h h' A B, listBuild (fun _ => ⟨none, none⟩) ⟨0, 1⟩ [2, 4] = some h ∧
      listInsertOrdered (fun a b => decide (a < b)) 3 h ⟨0, 1⟩ 3 = some h' ∧
      WF h' ⟨0, 1⟩ (A ++ 3 :: B) ∧ [2, 4] = A ++ B ∧
      (∀ a ∈ A, decide (3 < a) = false) ∧ (∀ b ∈ B, decide (3 < b) = true) ∧
      (A ++ 3 :: B).Pairwise (fun a b => decide (b < a) = false)) ∧
    (∃ h h' ys, listBuild (fun _ => ⟨none, none⟩) ⟨0, 1⟩ [] = some h ∧
      [4, 2].foldlM (fun h e => listInsertOrdered (fun a b => decide (a < b)) 3 h ⟨0, 1⟩ e) h =
        some h' ∧ WF h' ⟨0, 1⟩ ys ∧ ys.Perm [4, 2] ∧
      ys.Pairwise (fun a b => decide (b < a) = false)) ∧
    ∃ h h', listBuild (fun _ => ⟨none, none⟩) ⟨0, 1⟩ [2, 4] = some h ∧
      listUnique (fun a b => decide (a < b)) 3 h ⟨0, 1⟩ none = some h' ∧
      WF h' ⟨0, 1⟩ (([2, 4].splitBy (equiv fun a b => decide (a < b))).filterMap List.head?) := by
  have hl : IsStrictWeakOrder Nat fun a b => decide (a < b) = true := isStrictWeakOrder_lt
  obtain ⟨h, hb, hw⟩ := listBuild_spec (fun _ => ⟨none, none⟩) ⟨0, 1⟩ [2, 4] (by decide)
    (by decide)
  obtain ⟨h0, hb0, hw0⟩ := listBuild_spec (fun _ => ⟨none, none⟩) ⟨0, 1⟩ [] (by decide)
    (by decide)
  obtain ⟨h', A, B, hi, hw', hAB, hA, hB, hs⟩ :=
    (insertOrdered_unique_correct hl).1 h ⟨0, 1⟩ [2, 4] 3 3 hw (by decide) (by decide) (by decide)
  obtain ⟨h1, ys, hfold, hw1, hperm, hsorted, -⟩ :=
    (insertOrdered_unique_correct hl).2.1 h0 ⟨0, 1⟩ [4, 2] 3 hw0 (by decide) (by decide)
  obtain ⟨h2, hu, hw2, -⟩ :=
    (insertOrdered_unique_correct hl).2.2 h ⟨0, 1⟩ [2, 4] [] none 3 hw (by simp) (by decide)
  exact ⟨⟨h, h', A, B, hb, hi, hw', hAB, hA, hB, hs⟩, ⟨h0, h1, ys, hb0, hfold, hw1, hperm, hsorted⟩,
    h, h2, hb, hu, hw2⟩

end Ordered

end Pintos.Lib
