import Mathlib.Data.List.Chain
import Mathlib.Data.List.Nodup

/-! The doubly linked lists of lib/kernel/list.c over a heap of `struct list_elem`s. A pointer
is a `Nat`; NULL is `none`. A list is well formed in a heap when its head, its elements and its
tail form one chain whose `next` and `prev` links agree, with NULL at both ends; the operations
are proved to keep that, and to change the chain's elements as their comments say. -/
namespace Pintos.Lib

abbrev Ptr := Nat

/-- `struct list_elem`. -/
structure ListElem where
  prev : Option Ptr
  next : Option Ptr
  deriving DecidableEq, Repr

abbrev Heap := Ptr → ListElem

/-- `struct list`, by the addresses of its two header elements. -/
structure Lst where
  head : Ptr
  tail : Ptr
  deriving DecidableEq, Repr

def setPrev (h : Heap) (e : Ptr) (p : Option Ptr) : Heap :=
  Function.update h e { h e with prev := p }

def setNext (h : Heap) (e : Ptr) (n : Option Ptr) : Heap :=
  Function.update h e { h e with next := n }

section Access
variable (h : Heap) (e : Ptr)

def isHead : Bool := (h e).prev.isNone && (h e).next.isSome

def isInterior : Bool := (h e).prev.isSome && (h e).next.isSome

def isTail : Bool := (h e).prev.isSome && (h e).next.isNone

/-- `list_next`; `none` where its `ASSERT` fails. -/
def listNext : Option Ptr := if isHead h e || isInterior h e then (h e).next else none

/-- `list_prev`. -/
def listPrev : Option Ptr := if isInterior h e || isTail h e then (h e).prev else none

end Access

section Ops
variable (h : Heap)

/-- `list_init`. -/
def listInit (l : Lst) : Heap :=
  setNext (setPrev (setNext (setPrev h l.head none) l.head (some l.tail)) l.tail (some l.head))
    l.tail none

def listBegin (l : Lst) : Option Ptr := (h l.head).next

def listRbegin (l : Lst) : Option Ptr := (h l.tail).prev

/-- `list_empty`. -/
def listEmpty (l : Lst) : Bool := listBegin h l == some l.tail

/-- The writes of `list_splice` that take FIRST...LAST out of their list, which are those of
`list_remove` when both are ELEM. -/
def unlink (first last : Ptr) : Option Heap := do
  let p ← (h first).prev
  let h := setNext h p (h last).next
  let n ← (h last).next
  pure (setPrev h n (h first).prev)

/-- The writes of `list_splice` that put FIRST...LAST just before BEFORE, which are those of
`list_insert` when both are ELEM. -/
def link (before first last : Ptr) : Option Heap := do
  let h := setPrev h first (h before).prev
  let h := setNext h last (some before)
  let p ← (h before).prev
  let h := setNext h p (some first)
  pure (setPrev h before (some last))

/-- `list_insert`. -/
def listInsert (before elem : Ptr) : Option Heap :=
  if isInterior h before || isTail h before then link h before elem elem else none

/-- `list_splice`. -/
def listSplice (before first last : Ptr) : Option Heap :=
  if isInterior h before || isTail h before then
    if first = last then some h
    else do
      let last ← listPrev h last
      if isInterior h first && isInterior h last then
        let h ← unlink h first last
        link h before first last
      else none
  else none

/-- `list_push_front`. -/
def listPushFront (l : Lst) (elem : Ptr) : Option Heap := do
  let b ← listBegin h l
  listInsert h b elem

/-- `list_push_back`. -/
def listPushBack (l : Lst) (elem : Ptr) : Option Heap := listInsert h l.tail elem

/-- `list_remove`: the heap after, and the element that followed ELEM. -/
def listRemove (elem : Ptr) : Option (Heap × Ptr) :=
  if isInterior h elem then do
    let h ← unlink h elem elem
    let n ← (h elem).next
    pure (h, n)
  else none

/-- `list_front`. -/
def listFront (l : Lst) : Option Ptr := if listEmpty h l then none else (h l.head).next

/-- `list_back`. -/
def listBack (l : Lst) : Option Ptr := if listEmpty h l then none else (h l.tail).prev

/-- `list_pop_front`. -/
def listPopFront (l : Lst) : Option (Heap × Ptr) := do
  let front ← listFront h l
  let r ← listRemove h front
  pure (r.1, front)

/-- `list_pop_back`. -/
def listPopBack (l : Lst) : Option (Heap × Ptr) := do
  let back ← listBack h l
  let r ← listRemove h back
  pure (r.1, back)

end Ops

/-- `swap (&e->prev, &e->next)`. -/
def swapLinks (h : Heap) (e : Ptr) : Heap := Function.update h e ⟨(h e).next, (h e).prev⟩

/-- The loop of `list_reverse`:
`for (e = list_begin (list); e != list_end (list); e = e->prev) swap (&e->prev, &e->next);` -/
def reverseLoop (l : Lst) : Nat → Heap → Ptr → Option Heap
  | 0, _, _ => none
  | fuel + 1, h, e =>
    if e = l.tail then some h
    else
      match (swapLinks h e e).prev with
      | some e' => reverseLoop l fuel (swapLinks h e) e'
      | none => none

/-- `list_reverse`, its loop given `fuel` passes. -/
def listReverse (fuel : Nat) (h : Heap) (l : Lst) : Option Heap :=
  if listEmpty h l then some h
  else do
    let b ← listBegin h l
    let h ← reverseLoop l fuel h b
    -- swap (&list->head.next, &list->tail.prev)
    let h := setPrev (setNext h l.head (h l.tail).prev) l.tail (h l.head).next
    -- swap (&list->head.next->prev, &list->tail.prev->next)
    let a ← (h l.head).next
    let z ← (h l.tail).prev
    pure (setNext (setPrev h a (h z).next) z (h a).prev)

/-- A link of a chain: `a->next` is `b` and `b->prev` is `a`. -/
def Link (h : Heap) (a b : Ptr) : Prop := (h a).next = some b ∧ (h b).prev = some a

/-- The chain of LIST's header and element addresses, front to back. -/
def Lst.chain (l : Lst) (xs : List Ptr) : List Ptr := l.head :: xs ++ [l.tail]

/-- LIST is well formed in H with the elements XS, front to back: `head.prev` and `tail.next`
are NULL and the head, the elements and the tail are linked both ways, each once. -/
structure WF (h : Heap) (l : Lst) (xs : List Ptr) : Prop where
  head_prev : (h l.head).prev = none
  tail_next : (h l.tail).next = none
  chain : (l.chain xs).IsChain (Link h)
  nodup : (l.chain xs).Nodup

section Writes
variable {h : Heap} {a b e : Ptr} {p n : Option Ptr}

@[simp] theorem setPrev_self : setPrev h a p a = { h a with prev := p } := by simp [setPrev]

@[simp] theorem setNext_self : setNext h a n a = { h a with next := n } := by simp [setNext]

theorem setPrev_of_ne (hb : b ≠ a) : setPrev h a p b = h b := by simp [setPrev, hb]

theorem setNext_of_ne (hb : b ≠ a) : setNext h a n b = h b := by simp [setNext, hb]

@[simp] theorem setPrev_next : (setPrev h a p b).next = (h b).next := by
  by_cases e : b = a
  · subst e
    simp
  · rw [setPrev_of_ne e]

@[simp] theorem setNext_prev : (setNext h a n b).prev = (h b).prev := by
  by_cases e : b = a
  · subst e
    simp
  · rw [setNext_of_ne e]

end Writes

/-! ### Chains

What the writes of `list_insert`, `list_remove` and `list_splice` do to chains of links: a
chain only reads the `next` of its nodes but the last and the `prev` of its nodes but the first,
`unlink` joins the two nodes around a segment, and `link` puts a segment between two linked
nodes. -/

section Chains
variable {h h' : Heap}

theorem chain_setNext {a : Ptr} {n : Option Ptr} :
    ∀ {ps : List Ptr}, ps.IsChain (Link h) → a ∉ ps.dropLast → ps.IsChain (Link (setNext h a n))
  | [], _, _ => .nil
  | [_], _, _ => .singleton _
  | x :: y :: rest, hc, ha => by
    rw [List.isChain_cons_cons] at hc ⊢
    rw [List.dropLast_cons_cons] at ha
    have hx : x ≠ a := fun e => ha (e ▸ List.mem_cons_self)
    exact ⟨⟨by rw [setNext_of_ne hx]; exact hc.1.1, by rw [setNext_prev]; exact hc.1.2⟩,
      chain_setNext hc.2 fun h' => ha (List.mem_cons_of_mem x h')⟩

theorem chain_setPrev {a : Ptr} {p : Option Ptr} :
    ∀ {ps : List Ptr}, ps.IsChain (Link h) → a ∉ ps.tail → ps.IsChain (Link (setPrev h a p))
  | [], _, _ => .nil
  | [_], _, _ => .singleton _
  | x :: y :: rest, hc, ha => by
    rw [List.isChain_cons_cons] at hc ⊢
    have hy : y ≠ a := fun e => ha (e ▸ List.mem_cons_self)
    exact ⟨⟨by rw [setPrev_next]; exact hc.1.1, by rw [setPrev_of_ne hy]; exact hc.1.2⟩,
      chain_setPrev hc.2 fun h' => ha (List.mem_cons_of_mem y h')⟩

theorem chain_congr {ps : List Ptr} (hc : ps.IsChain (Link h)) (hs : ∀ p ∈ ps, h' p = h p) :
    ps.IsChain (Link h') :=
  hc.imp_of_mem_imp fun a b ha hb hl => by rw [Link, hs a ha, hs b hb]; exact hl

theorem WF.congr {l : Lst} {xs : List Ptr} (hw : WF h l xs) (hs : ∀ p ∈ l.chain xs, h' p = h p) :
    WF h' l xs where
  head_prev := by rw [hs l.head (by simp [Lst.chain])]; exact hw.head_prev
  tail_next := by rw [hs l.tail (by simp [Lst.chain])]; exact hw.tail_next
  chain := chain_congr hw.chain hs
  nodup := hw.nodup

/-- The writes of `unlink` around the segment `M`: `p` and `n` are joined, and `M` keeps its own
links. -/
theorem chain_unlink {L M R : List Ptr} {p n : Ptr} (hc : (L ++ p :: (M ++ n :: R)).IsChain (Link h))
    (hnd : (L ++ p :: (M ++ n :: R)).Nodup) :
    (L ++ p :: n :: R).IsChain (Link (setPrev (setNext h p (some n)) n (some p))) ∧
      M.IsChain (Link (setPrev (setNext h p (some n)) n (some p))) := by
  obtain ⟨hL, hM⟩ := List.isChain_split.mp hc
  obtain ⟨hPM, hR⟩ := List.isChain_cons_split.mp hM
  have hM' : M.IsChain (Link h) := (List.isChain_cons.mp hPM).2.left_of_append
  have hp : p ∉ L ++ (M ++ n :: R) := (List.nodup_cons.mp (List.nodup_middle.mp hnd)).1
  have hn : n ∉ (L ++ p :: M) ++ R := by
    rw [show L ++ p :: (M ++ n :: R) = (L ++ p :: M) ++ n :: R by simp] at hnd
    exact (List.nodup_cons.mp (List.nodup_middle.mp hnd)).1
  simp only [List.mem_append, List.mem_cons, not_or] at hp hn
  refine ⟨List.isChain_append_cons_cons.mpr ⟨?_, ⟨by simp, by simp⟩, ?_⟩, ?_⟩
  · refine chain_setPrev (chain_setNext hL (by rw [List.dropLast_concat]; exact hp.1)) fun hm => ?_
    have := List.mem_of_mem_tail hm
    simp only [List.mem_append, List.mem_singleton] at this
    exact this.elim hn.1.1 hn.1.2.1
  · refine chain_setPrev (chain_setNext hR fun hm => ?_) hn.2
    exact (List.mem_cons.mp (List.dropLast_subset _ hm)).elim hp.2.2.1 hp.2.2.2
  · exact chain_setPrev (chain_setNext hM' fun hm => hp.2.1 (List.dropLast_subset _ hm))
      fun hm => hn.1.2.2 (List.mem_of_mem_tail hm)

/-- The writes of `link` putting the segment `M`, from `first` to `last`, between the linked
nodes `p` and `b`. -/
theorem chain_link {P Q M : List Ptr} {p b first last : Ptr}
    (hc : (P ++ p :: b :: Q).IsChain (Link h)) (hM : M.IsChain (Link h))
    (hf : M.head? = some first) (hl : M.getLast? = some last)
    (hnd : (M ++ (P ++ p :: b :: Q)).Nodup) :
    (P ++ p :: (M ++ b :: Q)).IsChain (Link (setPrev (setNext (setNext (setPrev h first (some p))
      last (some b)) p (some first)) b (some last))) := by
  obtain ⟨hMn, hCn, hdis⟩ := List.nodup_append.mp hnd
  have hp : p ∉ P ++ b :: Q := (List.nodup_cons.mp (List.nodup_middle.mp hCn)).1
  have hb : b ∉ (P ++ [p]) ++ Q := by
    rw [show P ++ p :: b :: Q = (P ++ [p]) ++ b :: Q by simp] at hCn
    exact (List.nodup_cons.mp (List.nodup_middle.mp hCn)).1
  simp only [List.mem_append, List.mem_cons, List.not_mem_nil, or_false, not_or] at hp hb
  have hout : ∀ x ∈ M, x ∉ P ∧ x ≠ p ∧ x ≠ b ∧ x ∉ Q := fun x hx => by
    have := fun y hy => hdis x hx y hy
    simp only [List.mem_append, List.mem_cons] at this
    exact ⟨fun h => this x (.inl h) rfl, fun h => this p (.inr (.inl rfl)) h,
      fun h => this b (.inr (.inr (.inl rfl))) h, fun h => this x (.inr (.inr (.inr h))) rfl⟩
  have hfM := hout first (List.mem_of_mem_head? hf)
  have hlM := hout last (List.mem_of_getLast? hl)
  have hft : first ∉ M.tail := by
    obtain ⟨t, rfl⟩ := List.head?_eq_some_iff.mp hf
    exact (List.nodup_cons.mp hMn).1
  have hld : last ∉ M.dropLast := by
    obtain ⟨t, rfl⟩ := List.getLast?_eq_some_iff.mp hl
    rw [List.dropLast_concat]
    exact fun ht => (List.nodup_append.mp hMn).2.2 last ht last (List.mem_singleton_self _) rfl
  obtain ⟨hL, hR⟩ := List.isChain_split.mp hc
  rw [List.isChain_cons_cons] at hR
  rw [show P ++ p :: (M ++ b :: Q) = (P ++ [p]) ++ (M ++ b :: Q) by simp]
  refine List.isChain_append.mpr ⟨?_, List.isChain_append.mpr ⟨?_, ?_, ?_⟩, ?_⟩
  · -- the nodes up to `p`: only `p`'s `next`, which the chain does not read, changes
    refine chain_setPrev (chain_setNext (chain_setNext (chain_setPrev hL ?_) ?_) ?_) ?_
    · intro hm
      have := List.mem_of_mem_tail hm
      simp only [List.mem_append, List.mem_singleton] at this
      exact this.elim hfM.1 hfM.2.1
    · intro hm
      rw [List.dropLast_concat] at hm
      exact hlM.1 hm
    · rw [List.dropLast_concat]
      exact hp.1
    · intro hm
      have := List.mem_of_mem_tail hm
      simp only [List.mem_append, List.mem_singleton] at this
      exact this.elim hb.1.1 hb.1.2
  · exact chain_setPrev (chain_setNext (chain_setNext (chain_setPrev hM hft) hld)
      fun hm => hfM.2.1 (by have := hout p (List.dropLast_subset _ hm); exact absurd rfl this.2.1))
      fun hm => (hout b (List.mem_of_mem_tail hm)).2.2.1 rfl
  · refine chain_setPrev (chain_setNext (chain_setNext (chain_setPrev ?_ hfM.2.2.2) ?_) ?_) hb.2
    · exact hR.2
    · intro hm
      rcases List.mem_cons.mp (List.dropLast_subset _ hm) with e | e
      · exact hlM.2.2.1 e
      · exact hlM.2.2.2 e
    · intro hm
      rcases List.mem_cons.mp (List.dropLast_subset _ hm) with e | e
      · exact hp.2.1 e
      · exact hp.2.2 e
  · rw [hl]
    intro x hx y hy
    simp only [Option.mem_def, Option.some.injEq, List.head?_cons] at hx hy
    subst hx hy
    refine ⟨?_, by simp⟩
    rw [setPrev_next, setNext_of_ne hlM.2.1, setNext_self]
  · rw [List.getLast?_concat, List.head?_append, hf]
    intro x hx y hy
    simp only [Option.mem_def, Option.some.injEq, Option.some_or] at hx hy
    subst hx hy
    refine ⟨by simp, ?_⟩
    rw [setPrev_of_ne hfM.2.2.1, setNext_prev, setNext_prev, setPrev_self]

end Chains

/-! ### The operations on one list -/

section Spec
variable {h : Heap} {l : Lst}

theorem unlink_eq {first last p n : Ptr} (hp : (h first).prev = some p) (hn : (h last).next = some n)
    (hl : last ≠ p) : unlink h first last = some (setPrev (setNext h p (some n)) n (some p)) := by
  simp [unlink, hp, setNext_of_ne hl, hn]

theorem link_eq {before first last p : Ptr} (hb : (h before).prev = some p) (hf : before ≠ first) :
    link h before first last = some (setPrev (setNext (setNext (setPrev h first (some p)) last
      (some before)) p (some first)) before (some last)) := by
  simp [link, setPrev_of_ne hf, hb]

theorem insertable {b p : Ptr} (hb : (h b).prev = some p) : (isInterior h b || isTail h b) = true := by
  cases hn : (h b).next <;> simp [isInterior, isTail, hb, hn]

theorem Lst.chain_split (l : Lst) (A B : List Ptr) :
    ∃ P bp Q, l.head :: A = P ++ [bp] ∧ B ++ [l.tail] = B.headD l.tail :: Q ∧
      l.chain (A ++ B) = P ++ bp :: B.headD l.tail :: Q := by
  obtain ⟨P, bp, hP⟩ : ∃ P bp, l.head :: A = P ++ [bp] := by
    simpa using (List.eq_nil_or_concat (l.head :: A)).resolve_left (by simp)
  obtain ⟨Q, hQ⟩ : ∃ Q, B ++ [l.tail] = B.headD l.tail :: Q := by
    cases B with
    | nil => exact ⟨[], rfl⟩
    | cons b B => exact ⟨B ++ [l.tail], rfl⟩
  refine ⟨P, bp, Q, hP, hQ, ?_⟩
  rw [Lst.chain, ← List.cons_append, List.append_assoc, hP, hQ]
  simp

theorem Lst.chain_insert (l : Lst) (A B : List Ptr) (e : Ptr) :
    List.Perm (l.chain (A ++ e :: B)) (e :: l.chain (A ++ B)) := by
  simp only [Lst.chain, List.append_assoc, List.cons_append]
  exact (@List.perm_middle _ e (l.head :: A) (B ++ [l.tail])).trans (by simp)

theorem WF.link_at {A B : List Ptr} (hw : WF h l (A ++ B)) :
    Link h ((l.head :: A).getLast (List.cons_ne_nil _ _)) (B.headD l.tail) := by
  obtain ⟨P, bp, Q, hP, -, hc⟩ := l.chain_split A B
  have hch := hw.chain
  rw [hc] at hch
  have hbp : (l.head :: A).getLast (List.cons_ne_nil _ _) = bp := by simp [hP]
  rw [hbp]
  exact (List.isChain_append_cons_cons.mp hch).2.1

theorem WF.next_eq {A B : List Ptr} {e : Ptr} (hw : WF h l (A ++ e :: B)) :
    (h e).next = some (B.headD l.tail) := by
  have := (show WF h l ((A ++ [e]) ++ B) by simpa using hw).link_at
  simpa using this.1

theorem WF.prev_eq {A B : List Ptr} {e : Ptr} (hw : WF h l (A ++ e :: B)) :
    (h e).prev = some ((l.head :: A).getLast (List.cons_ne_nil _ _)) :=
  hw.link_at.2

/-- `unlink` of the segment `M` at position `A.length`: the list keeps its other elements in
order, `M` keeps its own links, and only the two nodes around `M` change. -/
theorem unlink_spec {A M B : List Ptr} {first last : Ptr} (hw : WF h l (A ++ M ++ B))
    (hf : M.head? = some first) (hl : M.getLast? = some last) :
    ∃ h', unlink h first last = some h' ∧ WF h' l (A ++ B) ∧ M.IsChain (Link h') ∧
      ∀ x ∉ l.chain (A ++ B), h' x = h x := by
  obtain ⟨P, bp, R, hP, hR, hc⟩ := l.chain_split A B
  have hc' : l.chain (A ++ M ++ B) = P ++ bp :: (M ++ B.headD l.tail :: R) := by
    rw [Lst.chain, show l.head :: (A ++ M ++ B) ++ [l.tail] = (l.head :: A) ++ (M ++ (B ++ [l.tail]))
      by simp, hP, hR]
    simp
  have hch := hw.chain
  have hnd := hw.nodup
  rw [hc'] at hch hnd
  obtain ⟨hch', hM⟩ := chain_unlink hch hnd
  obtain ⟨M', rfl⟩ := List.head?_eq_some_iff.mp hf
  have hnd' : (l.chain (A ++ B)).Nodup := hw.nodup.sublist (by simp [Lst.chain])
  rw [hc] at hnd'
  have hdis := (List.nodup_append.mp (show ((P ++ [bp]) ++ B.headD l.tail :: R).Nodup by
    simpa using hnd')).2.2
  have hhead : l.head ∈ P ++ [bp] := by rw [← hP]; exact List.mem_cons_self
  have htail : l.tail ∈ B.headD l.tail :: R := by rw [← hR]; simp
  have hlb : last ≠ bp := fun e => (List.nodup_cons.mp (List.nodup_middle.mp hnd)).1
    (List.mem_append_right P (List.mem_append_left _ (e ▸ List.mem_of_getLast? hl)))
  have hfirst : (h first).prev = some bp := by
    have := (show WF h l (A ++ first :: (M' ++ B)) by simpa using hw).prev_eq
    simpa [hP] using this
  have hlast : (h last).next = some (B.headD l.tail) := by
    obtain ⟨M'', hM''⟩ := List.getLast?_eq_some_iff.mp hl
    refine (show WF h l ((A ++ M'') ++ last :: B) from ?_).next_eq
    rw [show (A ++ M'') ++ last :: B = A ++ (first :: M') ++ B by rw [hM'']; simp]
    exact hw
  refine ⟨_, unlink_eq hfirst hlast hlb, ⟨?_, ?_, by rw [hc]; exact hch', by rw [hc]; exact hnd'⟩,
    hM, fun x hx => ?_⟩
  · rw [setPrev_of_ne (hdis _ hhead _ List.mem_cons_self), setNext_prev, hw.head_prev]
  · rw [setPrev_next, setNext_of_ne (hdis _ (List.mem_concat_self ..) _ htail).symm, hw.tail_next]
  · rw [hc] at hx
    simp only [List.mem_append, List.mem_cons, not_or] at hx
    rw [setPrev_of_ne hx.2.2.1, setNext_of_ne hx.2.1]

/-- `link` of a segment `M`, linked in itself and on no list, before the element at position
`A.length` or the tail: `M` stands there, and only nodes of the new chain change. -/
theorem link_spec {A B M : List Ptr} {first last : Ptr} (hw : WF h l (A ++ B))
    (hM : M.IsChain (Link h)) (hf : M.head? = some first) (hl : M.getLast? = some last)
    (hd : (M ++ l.chain (A ++ B)).Nodup) :
    ∃ h', link h (B.headD l.tail) first last = some h' ∧ WF h' l (A ++ M ++ B) ∧
      ∀ x ∉ l.chain (A ++ M ++ B), h' x = h x := by
  obtain ⟨P, bp, Q, hP, hQ, hc⟩ := l.chain_split A B
  have hch := hw.chain
  rw [hc] at hch hd
  have hlink := (List.isChain_append_cons_cons.mp hch).2.1
  have hc' : l.chain (A ++ M ++ B) = P ++ bp :: (M ++ B.headD l.tail :: Q) := by
    rw [Lst.chain, show l.head :: (A ++ M ++ B) ++ [l.tail] = (l.head :: A) ++ (M ++ (B ++ [l.tail]))
      by simp, hP, hQ]
    simp
  have hnd' : (l.chain (A ++ M ++ B)).Nodup := by
    rw [hc']
    refine (List.Perm.nodup_iff ?_).mpr hd
    rw [List.perm_iff_count]
    intro a
    simp only [List.count_append, List.count_cons]
    omega
  have hnd := hw.nodup
  rw [hc] at hnd
  have hdis := (List.nodup_append.mp (show ((P ++ [bp]) ++ B.headD l.tail :: Q).Nodup by
    simpa using hnd)).2.2
  have hMd := (List.nodup_append.mp hd).2.2
  have hhead : l.head ∈ P ++ [bp] := by rw [← hP]; exact List.mem_cons_self
  have htail : l.tail ∈ B.headD l.tail :: Q := by rw [← hQ]; simp
  have hinC : ∀ x, x ∈ P ++ [bp] ∨ x ∈ B.headD l.tail :: Q → x ∈ P ++ bp :: B.headD l.tail :: Q := by
    intro x hx
    rw [show P ++ bp :: B.headD l.tail :: Q = (P ++ [bp]) ++ B.headD l.tail :: Q by simp]
    exact List.mem_append.mpr hx
  have hf' := List.mem_of_mem_head? hf
  have hl' := List.mem_of_getLast? hl
  refine ⟨_, link_eq hlink.2 (hMd _ hf' _ (hinC _ (.inr List.mem_cons_self))).symm,
    ⟨?_, ?_, ?_, hnd'⟩, fun x hx => ?_⟩
  · rw [setPrev_of_ne (hdis _ hhead _ List.mem_cons_self), setNext_prev, setNext_prev,
      setPrev_of_ne (hMd _ hf' _ (hinC _ (.inl hhead))).symm, hw.head_prev]
  · rw [setPrev_next, setNext_of_ne (hdis _ (List.mem_concat_self ..) _ htail).symm,
      setNext_of_ne (hMd _ hl' _ (hinC _ (.inr htail))).symm, setPrev_next, hw.tail_next]
  · rw [hc']
    exact chain_link hch hM hf hl hd
  · rw [hc'] at hx
    simp only [List.mem_append, List.mem_cons, not_or] at hx
    rw [setPrev_of_ne hx.2.2.2.1, setNext_of_ne hx.2.1,
      setNext_of_ne fun e : x = last => hx.2.2.1 (by rw [e]; exact hl'),
      setPrev_of_ne fun e : x = first => hx.2.2.1 (by rw [e]; exact hf')]

/-- `list_insert` of an element on no list before the element at position `A.length`, or
before the tail: the element stands there, and only nodes of the new chain change. -/
theorem listInsert_spec {A B : List Ptr} {elem : Ptr} (hw : WF h l (A ++ B))
    (he : elem ∉ l.chain (A ++ B)) :
    ∃ h', listInsert h (B.headD l.tail) elem = some h' ∧ WF h' l (A ++ elem :: B) ∧
      ∀ x ∉ l.chain (A ++ elem :: B), h' x = h x := by
  obtain ⟨h', hlk, hw', hfr⟩ := link_spec hw (List.isChain_singleton elem) rfl rfl
    (List.nodup_cons.mpr ⟨he, hw.nodup⟩)
  have hb := hw.link_at
  refine ⟨h', by rw [listInsert, if_pos (insertable hb.2)]; exact hlk, by simpa using hw',
    fun x hx => hfr x (by simpa using hx)⟩

/-- `list_remove` of the element at position `A.length`: the list keeps its other elements in
order, only the two nodes around it change, and the element after it is returned. -/
theorem listRemove_spec {A B : List Ptr} {e : Ptr} (hw : WF h l (A ++ e :: B)) :
    ∃ h', listRemove h e = some (h', B.headD l.tail) ∧ WF h' l (A ++ B) ∧
      ∀ x ∉ l.chain (A ++ B), h' x = h x := by
  obtain ⟨h', hul, hw', -, hfr⟩ := unlink_spec (M := [e]) (by simpa using hw) rfl
    (show [e].getLast? = some e from rfl)
  have hne : e ∉ l.chain (A ++ B) := by
    have hnd := hw.nodup
    rw [Lst.chain, show l.head :: (A ++ e :: B) ++ [l.tail] = (l.head :: A) ++ e :: (B ++ [l.tail])
      by simp] at hnd
    intro hm
    exact (List.nodup_cons.mp (List.nodup_middle.mp hnd)).1 (by simpa [Lst.chain] using hm)
  refine ⟨h', ?_, hw', hfr⟩
  rw [listRemove, if_pos (by simp [isInterior, hw.prev_eq, hw.next_eq]), hul]
  simp [hfr e hne, hw.next_eq]

theorem WF.interior {xs : List Ptr} {x : Ptr} (hw : WF h l xs) (hx : x ∈ xs) :
    isInterior h x = true := by
  obtain ⟨s, t, rfl⟩ := List.append_of_mem hx
  simp [isInterior, hw.prev_eq, hw.next_eq]

theorem WF.prev_some {xs : List Ptr} {x : Ptr} (hw : WF h l xs) (hx : x ∈ xs ∨ x = l.tail) :
    ∃ p, (h x).prev = some p := by
  rcases hx with hx | rfl
  · obtain ⟨s, t, rfl⟩ := List.append_of_mem hx
    exact ⟨_, hw.prev_eq⟩
  · exact ⟨_, (show WF h l (xs ++ []) by simpa using hw).link_at.2⟩

theorem listSplice_eq {before first c last p : Ptr} (hb : (h before).prev = some p) (hfc : first ≠ c)
    (hc : (h c).prev = some last) (hf : isInterior h first = true)
    (hl : isInterior h last = true) :
    listSplice h before first c = (unlink h first last).bind fun h => link h before first last := by
  simp [listSplice, insertable hb, hfc, listPrev, insertable hc, hc, hf, hl]

/-- What `list_splice` reads of a well-formed list with the nonempty range `M`: the range's first
element, which is not the end of the range, and its last, which is `list_prev` of the end. -/
theorem WF.range {A M C : List Ptr} (hw : WF h l (A ++ M ++ C)) (hM : M ≠ []) :
    M.head hM ≠ C.headD l.tail ∧ (h (C.headD l.tail)).prev = some (M.getLast hM) ∧
      isInterior h (M.head hM) = true ∧ isInterior h (M.getLast hM) = true := by
  have hnd := hw.nodup
  rw [Lst.chain, show l.head :: (A ++ M ++ C) ++ [l.tail] = (l.head :: A) ++ (M ++ (C ++ [l.tail]))
    by simp] at hnd
  have hdis := (List.nodup_append.mp (List.nodup_append.mp hnd).2.1).2.2
  refine ⟨hdis _ (List.head_mem hM) _ (by cases C <;> simp), ?_,
    hw.interior (by simp [List.head_mem hM]), hw.interior (by simp [List.getLast_mem hM])⟩
  have := (show WF h l ((A ++ M) ++ C) from hw).link_at.2
  have e : (l.head :: (A ++ M)).getLast (List.cons_ne_nil _ _) = M.getLast hM := by
    simp only [← List.cons_append, List.getLast_append_of_ne_nil _ hM]
  rwa [e] at this

@[simp] theorem Lst.mem_chain {xs : List Ptr} {x : Ptr} :
    x ∈ l.chain xs ↔ x = l.head ∨ x ∈ xs ∨ x = l.tail := by
  simp [Lst.chain]

theorem Lst.chain_perm {xs ys : List Ptr} (hp : xs.Perm ys) : (l.chain xs).Perm (l.chain ys) :=
  ((hp.append_right _).cons _)

theorem Lst.chain_subset {xs ys : List Ptr} (hs : xs ⊆ ys) : l.chain xs ⊆ l.chain ys := by
  intro x hx
  rcases Lst.mem_chain.mp hx with hx | hx | hx
  · exact Lst.mem_chain.mpr (.inl hx)
  · exact Lst.mem_chain.mpr (.inr (.inl (hs hx)))
  · exact Lst.mem_chain.mpr (.inr (.inr hx))

theorem Lst.chain_perm_mid (A M C : List Ptr) : (l.chain (A ++ M ++ C)).Perm (M ++ l.chain (A ++ C)) := by
  rw [List.perm_iff_count]
  intro a
  simp only [Lst.chain, List.count_append, List.count_cons]
  omega

theorem Lst.mem_chain_append_singleton {xs : List Ptr} {x y : Ptr} :
    x ∈ l.chain (xs ++ [y]) ↔ x ∈ l.chain xs ∨ x = y := by
  have hp : (l.chain (xs ++ [y])).Perm (y :: l.chain xs) := by
    simpa using l.chain_perm_mid xs [y] []
  rw [hp.mem_iff, List.mem_cons, or_comm]

/-- `list_splice` of the nonempty range `M` of a list before a node of the same list outside the
range: what remains is `A' ++ B'`, and the range moves to just before `B'`, or the tail. Only
nodes of the list change. -/
theorem listSplice_same {A M C A' B' : List Ptr} (hw : WF h l (A ++ M ++ C)) (hM : M ≠ [])
    (hs : A ++ C = A' ++ B') :
    ∃ h', listSplice h (B'.headD l.tail) (M.head hM) (C.headD l.tail) = some h' ∧
      WF h' l (A' ++ M ++ B') ∧ ∀ x ∉ l.chain (A ++ M ++ C), h' x = h x := by
  obtain ⟨hfc, hc, hfi, hli⟩ := hw.range hM
  obtain ⟨h1, hul, hw1, hM1, hfr1⟩ :=
    unlink_spec hw (List.head?_eq_some_head hM) (List.getLast?_eq_some_getLast hM)
  have hperm := l.chain_perm_mid A M C
  have hperm' := l.chain_perm_mid A' M B'
  rw [hs] at hw1 hperm
  obtain ⟨h2, hlk, hw2, hfr2⟩ := link_spec hw1 hM1 (List.head?_eq_some_head hM)
    (List.getLast?_eq_some_getLast hM) (hperm.nodup_iff.mp hw.nodup)
  obtain ⟨p, hp⟩ : ∃ p, (h (B'.headD l.tail)).prev = some p := by
    refine hw.prev_some ?_
    cases B' with
    | nil => exact .inr rfl
    | cons b B' =>
      have hb : b ∈ A ++ C := by rw [hs]; simp
      exact .inl (((List.sublist_append_left A M).append_right C).subset hb)
  refine ⟨h2, by rw [listSplice_eq hp hfc hc hfi hli, hul]; exact hlk, hw2, fun x hx => ?_⟩
  have hx' : x ∉ M ++ l.chain (A' ++ B') := fun hm => hx (hperm.symm.mem_iff.mp hm)
  rw [hfr2 x fun hm => hx' (hperm'.mem_iff.mp hm), hfr1 x fun hm => hx' (by rw [← hs]; simp [hm])]

/-- `list_splice` of the nonempty range `M` of one list before a node of another: the range
moves there, and only nodes of the two lists change. -/
theorem listSplice_other {l' : Lst} {A M C P Q : List Ptr} (hw : WF h l (A ++ M ++ C))
    (hw' : WF h l' (P ++ Q)) (hd : (l.chain (A ++ M ++ C) ++ l'.chain (P ++ Q)).Nodup)
    (hM : M ≠ []) :
    ∃ h', listSplice h (Q.headD l'.tail) (M.head hM) (C.headD l.tail) = some h' ∧
      WF h' l (A ++ C) ∧ WF h' l' (P ++ M ++ Q) ∧
      ∀ x ∉ l.chain (A ++ M ++ C) ++ l'.chain (P ++ Q), h' x = h x := by
  obtain ⟨hfc, hc, hfi, hli⟩ := hw.range hM
  obtain ⟨h1, hul, hw1, hM1, hfr1⟩ :=
    unlink_spec hw (List.head?_eq_some_head hM) (List.getLast?_eq_some_getLast hM)
  have hperm := l.chain_perm_mid A M C
  have hdis := (List.nodup_append.mp hd).2.2
  have hmid := (List.nodup_append.mp (hperm.nodup_iff.mp hw.nodup)).2.2
  have hout : ∀ x ∈ M ++ l.chain (A ++ C), x ∉ l'.chain (P ++ Q) := fun x hx hx' =>
    hdis x (hperm.symm.mem_iff.mp hx) x hx' rfl
  have hw'1 : WF h1 l' (P ++ Q) :=
    hw'.congr fun x hx => hfr1 x fun hx' => hout x (List.mem_append_right _ hx') hx
  obtain ⟨h2, hlk, hw'2, hfr2⟩ := link_spec hw'1 hM1 (List.head?_eq_some_head hM)
    (List.getLast?_eq_some_getLast hM) (List.nodup_append.mpr ⟨(List.nodup_append.mp
      (hperm.nodup_iff.mp hw.nodup)).1, hw'.nodup, fun a ha b hb e =>
        hout a (List.mem_append_left _ ha) (e ▸ hb)⟩)
  have hperm' := l'.chain_perm_mid P M Q
  have hw2 : WF h2 l (A ++ C) := hw1.congr fun x hx => hfr2 x fun hx' => by
    rcases List.mem_append.mp (hperm'.mem_iff.mp hx') with hm | hm
    · exact hmid x hm x hx rfl
    · exact hout x (List.mem_append_right _ hx) hm
  obtain ⟨p, hp⟩ : ∃ p, (h (Q.headD l'.tail)).prev = some p := by
    refine hw'.prev_some ?_
    cases Q with
    | nil => exact .inr rfl
    | cons q Q => exact .inl (by simp)
  refine ⟨h2, by rw [listSplice_eq hp hfc hc hfi hli, hul]; exact hlk, hw2, hw'2, fun x hx => ?_⟩
  simp only [List.mem_append, not_or] at hx
  rw [hfr2 x fun hm => ?_, hfr1 x fun hm => hx.1 (hperm.symm.mem_iff.mp (List.mem_append_right _ hm))]
  rcases List.mem_append.mp (hperm'.mem_iff.mp hm) with hm | hm
  · exact hx.1 (hperm.symm.mem_iff.mp (List.mem_append_left _ hm))
  · exact hx.2 hm

theorem listSplice_empty {before first p : Ptr} (hb : (h before).prev = some p) :
    listSplice h before first first = some h := by
  simp [listSplice, insertable hb]

theorem WF.begin_eq {xs : List Ptr} (hw : WF h l xs) : listBegin h l = some (xs.headD l.tail) :=
  (show WF h l ([] ++ xs) by simpa using hw).link_at.1

theorem WF.empty_iff {xs : List Ptr} (hw : WF h l xs) : listEmpty h l = true ↔ xs = [] := by
  rw [listEmpty, hw.begin_eq]
  cases xs with
  | nil => simp
  | cons x xs =>
    have : x ≠ l.tail := fun e => by
      have := (List.nodup_append.mp (show ((l.head :: x :: xs) ++ [l.tail]).Nodup from hw.nodup)).2.2
      exact this x (by simp) l.tail (by simp) e
    simp [this]

theorem listInit_spec (hl : l.head ≠ l.tail) :
    WF (listInit h l) l [] ∧ ∀ x ∉ l.chain [], listInit h l x = h x := by
  refine ⟨⟨?_, by simp [listInit], ?_, by simp [Lst.chain, hl]⟩, fun x hx => ?_⟩
  · simp [listInit, setNext_of_ne hl, setPrev_of_ne hl]
  · simp only [Lst.chain, List.nil_append, List.cons_append]
    refine List.isChain_pair.mpr ⟨?_, ?_⟩
    · simp [listInit, setNext_of_ne hl, setPrev_of_ne hl]
    · simp [listInit]
  · simp only [Lst.mem_chain, List.not_mem_nil, false_or, not_or] at hx
    simp [listInit, setNext_of_ne hx.2, setPrev_of_ne hx.2, setNext_of_ne hx.1, setPrev_of_ne hx.1]

theorem listPushFront_spec {xs : List Ptr} {elem : Ptr} (hw : WF h l xs) (he : elem ∉ l.chain xs) :
    ∃ h', listPushFront h l elem = some h' ∧ WF h' l (elem :: xs) ∧
      ∀ x ∉ l.chain (elem :: xs), h' x = h x := by
  obtain ⟨h', hi, hw', hfr⟩ := listInsert_spec (A := []) (by simpa using hw) (by simpa using he)
  exact ⟨h', by rw [listPushFront, hw.begin_eq]; exact hi, by simpa using hw',
    fun x hx => hfr x (by simpa using hx)⟩

theorem listPushBack_spec {xs : List Ptr} {elem : Ptr} (hw : WF h l xs) (he : elem ∉ l.chain xs) :
    ∃ h', listPushBack h l elem = some h' ∧ WF h' l (xs ++ [elem]) ∧
      ∀ x ∉ l.chain (xs ++ [elem]), h' x = h x := by
  obtain ⟨h', hi, hw', hfr⟩ := listInsert_spec (B := []) (by simpa using hw) (by simpa using he)
  exact ⟨h', hi, hw', hfr⟩

theorem listPopFront_spec {e : Ptr} {xs : List Ptr} (hw : WF h l (e :: xs)) :
    ∃ h', listPopFront h l = some (h', e) ∧ WF h' l xs ∧ ∀ x ∉ l.chain xs, h' x = h x := by
  obtain ⟨h', hr, hw', hfr⟩ := listRemove_spec (A := []) (by simpa using hw)
  have hne : listEmpty h l = false := by
    cases he : listEmpty h l
    · rfl
    · exact absurd (hw.empty_iff.mp he) (List.cons_ne_nil _ _)
  have hb : (h l.head).next = some e := hw.begin_eq
  refine ⟨h', ?_, by simpa using hw', fun x hx => hfr x (by simpa using hx)⟩
  simp [listPopFront, listFront, hne, hb, hr]

theorem listPopBack_spec {e : Ptr} {xs : List Ptr} (hw : WF h l (xs ++ [e])) :
    ∃ h', listPopBack h l = some (h', e) ∧ WF h' l xs ∧ ∀ x ∉ l.chain xs, h' x = h x := by
  obtain ⟨h', hr, hw', hfr⟩ := listRemove_spec (B := []) (by simpa using hw)
  have hne : listEmpty h l = false := by
    cases he : listEmpty h l
    · rfl
    · exact absurd (hw.empty_iff.mp he) (by simp)
  have hb : (h l.tail).prev = some e := by
    simpa using (show WF h l ((xs ++ [e]) ++ []) by simpa using hw).link_at.2
  refine ⟨h', ?_, by simpa using hw', fun x hx => hfr x (by simpa using hx)⟩
  simp [listPopBack, listBack, hne, hb, by simpa using hr]

/-- A list made by `list_init` and then `list_push_back` of each of XS, as the list tests make
theirs. -/
def listBuild (h : Heap) (l : Lst) (xs : List Ptr) : Option Heap :=
  xs.foldlM (fun h e => listPushBack h l e) (listInit h l)

theorem listBuild_spec (h : Heap) (l : Lst) (xs : List Ptr) (hl : l.head ≠ l.tail)
    (hnd : (l.chain xs).Nodup) : ∃ h', listBuild h l xs = some h' ∧ WF h' l xs := by
  induction xs using List.reverseRecOn with
  | nil => exact ⟨_, rfl, (listInit_spec hl).1⟩
  | append_singleton xs e ih =>
    have hnd' : (l.chain xs).Nodup := hnd.sublist (by simp [Lst.chain])
    have he : e ∉ l.chain xs := by
      have := (l.chain_insert xs [] e).nodup_iff.mp (by simpa using hnd)
      simpa using (List.nodup_cons.mp this).1
    obtain ⟨h1, hb, hw⟩ := ih hnd'
    obtain ⟨h2, hp, hw2, -⟩ := listPushBack_spec hw he
    simp only [listBuild] at hb
    exact ⟨h2, by simp [listBuild, List.foldlM_append, hb, hp], hw2⟩

/-- Nodes that hold the head of a well-formed list and the `next` of each of their nodes hold
the tail: the forward traversal from the head reaches the tail. -/
theorem WF.tail_reach {xs S : List Ptr} (hw : WF h l xs) (hh : l.head ∈ S)
    (hS : ∀ a ∈ S, ∀ b ∈ (h a).next, b ∈ S) : l.tail ∈ S :=
  hw.chain.induction (· ∈ S) _ (fun a b hab ha => hS a ha b hab.1) (fun _ => hh) _
    (by simp [Lst.chain])

/-- Splicing a range before its own first element passes every `ASSERT` of `list_splice`, and
leaves a heap in which the list is well formed with no elements at all: the head leads into the
cycle 2, 3, 2, and 4 is lost. -/
theorem listSplice_into_own_range :
    ∃ h h', WF h ⟨0, 1⟩ [2, 3, 4] ∧ listSplice h 2 2 4 = some h' ∧ ∀ xs, ¬WF h' ⟨0, 1⟩ xs := by
  obtain ⟨h, hb, hw⟩ := listBuild_spec (fun _ => ⟨none, none⟩) ⟨0, 1⟩ [2, 3, 4] (by decide)
    (by decide)
  obtain rfl := Option.some.inj (hb.symm.trans (show listBuild _ _ _ = some _ from rfl))
  refine ⟨_, _, hw, rfl, fun xs hw' => ?_⟩
  exact absurd (hw'.tail_reach (S := [0, 2, 3]) (by decide) (by decide)) (by decide)

/-- The loop of `list_reverse` from the element after `done`, all of whose nodes it has swapped:
with a pass for each element left and one more, it swaps the rest. -/
theorem reverseLoop_spec {done rest : List Ptr} {hk : Heap} (hw : WF h l (done ++ rest))
    (hout : ∀ x ∉ done, hk x = h x) (hin : ∀ x ∈ done, hk x = ⟨(h x).next, (h x).prev⟩)
    {fuel : Nat} (hf : rest.length < fuel) :
    ∃ hr, reverseLoop l fuel hk (rest.headD l.tail) = some hr ∧
      ∀ x, hr x = if x ∈ done ++ rest then ⟨(h x).next, (h x).prev⟩ else h x := by
  induction rest generalizing done hk fuel with
  | nil =>
    obtain ⟨f, rfl⟩ : ∃ f, fuel = f + 1 := ⟨fuel - 1, by simp at hf; omega⟩
    refine ⟨hk, by simp [reverseLoop], fun x => ?_⟩
    by_cases hx : x ∈ done
    · simp [hx, hin x hx]
    · simp [hx, hout x hx]
  | cons r rest ih =>
    obtain ⟨f, rfl⟩ : ∃ f, fuel = f + 1 := ⟨fuel - 1, by simp at hf; omega⟩
    have hnd := hw.nodup
    rw [Lst.chain, show l.head :: (done ++ r :: rest) ++ [l.tail] =
      (l.head :: done) ++ r :: (rest ++ [l.tail]) by simp] at hnd
    have hr := (List.nodup_cons.mp (List.nodup_middle.mp hnd)).1
    simp only [List.mem_append, List.mem_cons, not_or] at hr
    have hrt : r ≠ l.tail := hr.2.2.1
    have hrd : r ∉ done := hr.1.2
    have hnext : (swapLinks hk r r).prev = some (rest.headD l.tail) := by
      simp [swapLinks, hout r hrd, hw.next_eq]
    have hout' : ∀ x ∉ done ++ [r], swapLinks hk r x = h x := by
      intro x hx
      simp only [List.mem_append, List.mem_singleton, not_or] at hx
      simp [swapLinks, hx.2, hout x hx.1]
    have hin' : ∀ x ∈ done ++ [r], swapLinks hk r x = ⟨(h x).next, (h x).prev⟩ := by
      intro x hx
      rcases List.mem_append.mp hx with hx | hx
      · have : x ≠ r := fun e => hrd (e ▸ hx)
        simp [swapLinks, this, hin x hx]
      · rw [List.mem_singleton.mp hx]
        simp [swapLinks, hout r hrd]
    obtain ⟨hr', hloop, hres⟩ := @ih (done ++ [r]) (swapLinks hk r) (by simpa using hw) hout' hin' f
      (by simp at hf; omega)
    refine ⟨hr', by simp only [List.headD_cons, reverseLoop, if_neg hrt, hnext]; exact hloop,
      fun x => ?_⟩
    rw [hres x]
    simp

theorem WF.headers_apart {xs : List Ptr} (hw : WF h l xs) :
    l.head ∉ xs ∧ l.tail ∉ xs ∧ l.head ≠ l.tail := by
  have hnd := hw.nodup
  rw [Lst.chain, show l.head :: xs ++ [l.tail] = [l.head] ++ xs ++ [l.tail] by simp] at hnd
  obtain ⟨⟨-, -, hdx⟩, -, hdt⟩ := List.nodup_append.mp hnd |>.imp_left List.nodup_append.mp
  refine ⟨fun hm => hdx _ (List.mem_singleton_self _) _ hm rfl,
    fun hm => hdt _ (List.mem_append_right _ hm) _ (List.mem_singleton_self _) rfl, fun e => ?_⟩
  exact hdt _ (List.mem_append_left _ (List.mem_singleton_self _)) _ (List.mem_singleton_self _) e

/-- The links at the two ends of a nonempty well-formed list: the head and the first element,
the last element and the tail. -/
theorem WF.ends {xs : List Ptr} (hw : WF h l xs) (hne : xs ≠ []) :
    (h l.head).next = some (xs.head hne) ∧ (h (xs.head hne)).prev = some l.head ∧
      (h (xs.getLast hne)).next = some l.tail ∧ (h l.tail).prev = some (xs.getLast hne) := by
  have hfirst := (show WF h l ([] ++ xs) by simpa using hw).link_at
  have hlast := (show WF h l (xs ++ []) by simpa using hw).link_at
  cases xs with
  | nil => exact absurd rfl hne
  | cons x xs =>
    simp only [List.headD_cons] at hfirst
    simp only [List.headD_nil] at hlast
    rw [List.getLast_cons (List.cons_ne_nil x xs)] at hlast
    exact ⟨hfirst.1, hfirst.2, hlast.1, hlast.2⟩

/-- `list_reverse` with a pass of its loop for each element and one more: the list holds its
elements in reverse order, and only its nodes change. -/
theorem listReverse_spec {xs : List Ptr} (hw : WF h l xs) {fuel : Nat} (hf : xs.length < fuel) :
    ∃ h', listReverse fuel h l = some h' ∧ WF h' l xs.reverse ∧ ∀ x ∉ l.chain xs, h' x = h x := by
  by_cases hne : xs = []
  · subst hne
    exact ⟨h, by simp [listReverse, hw.empty_iff.mpr rfl], hw, fun _ _ => rfl⟩
  obtain ⟨hhx, htx, hht⟩ := hw.headers_apart
  obtain ⟨hbeg, hx1, hxn, hend⟩ := hw.ends hne
  obtain ⟨hr, hloop, hres⟩ := @reverseLoop_spec h l [] xs h (by simpa using hw)
    (fun _ _ => rfl) (fun _ h => absurd h List.not_mem_nil) fuel hf
  simp only [List.nil_append] at hres
  have hempty : listEmpty h l = false := Bool.eq_false_iff.mpr fun e => hne (hw.empty_iff.mp e)
  have hrh : hr l.head = h l.head := by rw [hres]; simp [hhx]
  have hrt : hr l.tail = h l.tail := by rw [hres]; simp [htx]
  have hrx : ∀ x ∈ xs, hr x = ⟨(h x).next, (h x).prev⟩ := fun x hx => by rw [hres]; simp [hx]
  have hx1m := List.head_mem hne
  have hxnm := List.getLast_mem hne
  have hx1h : xs.head hne ≠ l.head := fun e => hhx (e ▸ hx1m)
  have hx1t : xs.head hne ≠ l.tail := fun e => htx (e ▸ hx1m)
  have hxnh : xs.getLast hne ≠ l.head := fun e => hhx (e ▸ hxnm)
  have hxnt : xs.getLast hne ≠ l.tail := fun e => htx (e ▸ hxnm)
  refine ⟨setNext (setPrev (setPrev (setNext hr l.head (some (xs.getLast hne))) l.tail
    (some (xs.head hne))) (xs.getLast hne) (some l.head)) (xs.head hne) (some l.tail), ?_,
    ⟨?_, ?_, ?_, (l.chain_perm (List.reverse_perm xs)).nodup_iff.mpr hw.nodup⟩, fun x hx => ?_⟩
  · have hloop' : reverseLoop l fuel h (xs.head?.getD l.tail) = some hr := by simpa using hloop
    simp [listReverse, hempty, hw.begin_eq, hloop', hrh, hrt, hbeg, hend, setNext_of_ne hx1h,
      setPrev_of_ne hxnt, hrx _ hx1m, hrx _ hxnm, hx1, hxn]
  · rw [setNext_prev, setPrev_of_ne hxnh.symm, setPrev_of_ne hht, setNext_prev, hrh, hw.head_prev]
  · rw [setNext_of_ne hx1t.symm, setPrev_next, setPrev_next, setNext_of_ne hht.symm, hrt,
      hw.tail_next]
  · have hmid : xs.IsChain (Link h) := by
      have := hw.chain
      rw [Lst.chain, show l.head :: xs ++ [l.tail] = [l.head] ++ xs ++ [l.tail] by simp] at this
      exact this.left_of_append.right_of_append
    have hrev : xs.reverse.IsChain (Link (setNext (setPrev (setPrev (setNext hr l.head
        (some (xs.getLast hne))) l.tail (some (xs.head hne))) (xs.getLast hne) (some l.head))
        (xs.head hne) (some l.tail))) := by
      rw [List.isChain_reverse]
      refine hmid.imp_of_mem_imp fun a b ha hb hab => ?_
      have hb1 : b ≠ xs.head hne := fun e => by
        have hp := hab.2
        rw [e, hx1] at hp
        exact hhx (by rw [Option.some.inj hp]; exact ha)
      have ha1 : a ≠ xs.getLast hne := fun e => by
        have hn := hab.1
        rw [e, hxn] at hn
        exact htx (by rw [Option.some.inj hn]; exact hb)
      have hbh : b ≠ l.head := fun e => hhx (e ▸ hb)
      have hat : a ≠ l.tail := fun e => htx (e ▸ ha)
      refine ⟨?_, ?_⟩
      · rw [setNext_of_ne hb1, setPrev_next, setPrev_next, setNext_of_ne hbh, hrx b hb]
        exact hab.2
      · rw [setNext_prev, setPrev_of_ne ha1, setPrev_of_ne hat, setNext_prev, hrx a ha]
        exact hab.1
    rw [Lst.chain, show l.head :: xs.reverse ++ [l.tail] = [l.head] ++ (xs.reverse ++ [l.tail])
      by simp]
    refine List.isChain_append.mpr ⟨List.isChain_singleton _,
      List.isChain_append.mpr ⟨hrev, List.isChain_singleton _, ?_⟩, ?_⟩
    · rw [List.getLast?_reverse, List.head?_eq_some_head hne]
      intro x hx y hy
      simp only [Option.mem_def, Option.some.injEq, List.head?_cons] at hx hy
      subst hx hy
      refine ⟨by simp, ?_⟩
      rw [setNext_prev, setPrev_of_ne hxnt.symm, setPrev_self]
    · rw [List.head?_append, List.head?_reverse, List.getLast?_eq_some_getLast hne]
      intro x hx y hy
      simp only [Option.mem_def, Option.some.injEq, List.getLast?_singleton, Option.some_or] at hx hy
      subst hx hy
      refine ⟨?_, by simp⟩
      rw [setNext_of_ne hx1h.symm, setPrev_next, setPrev_next, setNext_self]
  · simp only [Lst.mem_chain, not_or] at hx
    have hx1 : x ≠ xs.head hne := fun e => hx.2.1 (e ▸ hx1m)
    have hxn : x ≠ xs.getLast hne := fun e => hx.2.1 (e ▸ hxnm)
    rw [setNext_of_ne hx1, setPrev_of_ne hxn, setPrev_of_ne hx.2.2, setNext_of_ne hx.1, hres]
    simp [hx.2.1]

end Spec

end Pintos.Lib
