import Mathlib.Data.List.Basic

/-! Lists in which the occurrences of each value stand together, as the entries of a log do when
each writer has it to itself for the whole of its turn. A log grows at its end, and an entry keeps
it grouped exactly when it is new or repeats the last one. -/
namespace Pintos.Kit
variable {α : Type} {l : List α} {a : α}

/-- Each value's occurrences in the list are next to each other. -/
def Grouped : List α → Prop
  | [] => True
  | a :: l => Grouped l ∧ (a ∈ l → l.head? = some a)

instance decGrouped [DecidableEq α] : (l : List α) → Decidable (Grouped l)
  | [] => isTrue trivial
  | a :: l =>
    haveI := decGrouped l
    inferInstanceAs (Decidable (Grouped l ∧ (a ∈ l → l.head? = some a)))

@[simp] theorem grouped_nil : Grouped ([] : List α) := trivial

theorem grouped_cons : Grouped (a :: l) ↔ Grouped l ∧ (a ∈ l → l.head? = some a) := Iff.rfl

/-- An entry appended to a grouped list keeps it grouped exactly when it is new or repeats the
last entry. -/
theorem grouped_concat : Grouped (l ++ [a]) ↔ Grouped l ∧ (a ∈ l → l.getLast? = some a) := by
  induction l with
  | nil => simp [Grouped]
  | cons b l ih =>
    rw [List.cons_append, grouped_cons, ih, grouped_cons]
    cases l with
    | nil => simp [eq_comm]
    | cons c l =>
      have hlast : (b :: c :: l).getLast? = (c :: l).getLast? := List.getLast?_cons_cons
      have hmem : b ∈ c :: l ++ [a] ↔ b ∈ c :: l ∨ b = a :=
        List.mem_append.trans (or_congr_right List.mem_singleton)
      have hhead : (c :: l ++ [a]).head? = (c :: l).head? := rfl
      rw [hlast, hmem, hhead, List.mem_cons (b := b)]
      generalize c :: l = L
      constructor
      · rintro ⟨⟨hg, ha⟩, hb⟩
        refine ⟨⟨hg, fun h => hb (.inl h)⟩, fun h => ha ?_⟩
        rcases h with rfl | h
        · exact List.mem_of_mem_head? (hb (.inr rfl))
        · exact h
      · rintro ⟨⟨hg, hb⟩, ha⟩
        refine ⟨⟨hg, fun h => ha (.inr h)⟩, fun h => hb ?_⟩
        rcases h with h | rfl
        · exact h
        · exact List.mem_of_getLast? (ha (.inl rfl))

theorem Grouped.between (hg : Grouped l) {i j k : Nat} (hij : i ≤ j) (hjk : j ≤ k)
    (hk : k < l.length) (heq : l[i] = l[k]) : l[j] = l[i] := by
  induction l generalizing i j k with
  | nil => exact absurd hk (Nat.not_lt_zero _)
  | cons b l ih =>
    obtain ⟨hg, hb⟩ := hg
    cases i with
    | succ i =>
      obtain ⟨j, rfl⟩ : ∃ j', j = j' + 1 := ⟨j - 1, by omega⟩
      obtain ⟨k, rfl⟩ : ∃ k', k = k' + 1 := ⟨k - 1, by omega⟩
      exact ih hg (by omega) (by omega) (by simpa using hk) heq
    | zero =>
      cases j with
      | zero => rfl
      | succ j =>
        obtain ⟨k, rfl⟩ : ∃ k', k = k' + 1 := ⟨k - 1, by omega⟩
        have hk' : k < l.length := by simpa using hk
        have hmem : b ∈ l := by
          simp only [List.getElem_cons_zero, List.getElem_cons_succ] at heq
          exact heq ▸ List.getElem_mem hk'
        have h0 : 0 < l.length := List.length_pos_of_mem hmem
        have hhead : l[0] = b := by
          simpa [List.head?_eq_getElem?, List.getElem?_eq_getElem h0] using hb hmem
        have hb' : l[0] = l[k] := by
          simp only [List.getElem_cons_zero, List.getElem_cons_succ] at heq
          rw [hhead, heq]
        simpa [hhead] using ih hg (Nat.zero_le j) (by omega) hk' hb'

end Pintos.Kit
