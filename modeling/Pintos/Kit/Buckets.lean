import Mathlib.Data.List.Perm.Basic
import Mathlib.Data.List.Range

/-! Arrays of lists placed by a key, as the buckets of a chained hash table are: every element
of list `j` has key `j`. Pushing an element onto the front of the list its key names, erasing an
element from every list, and moving all elements into a fresh array keep the elements and
their placement. -/
namespace Pintos.Kit
open scoped List
variable {α : Type} {key : α → Nat} {bs nb : List (List α)}

/-- Put `e` at the front of list `i` of `bs`. -/
def pushAt (bs : List (List α)) (i : Nat) (e : α) : List (List α) := bs.modify i (e :: ·)

/-- Push each element of `xs` in turn onto the list its key names. -/
def pushAll (key : α → Nat) (nb : List (List α)) (xs : List α) : List (List α) :=
  xs.foldl (fun nb e => pushAt nb (key e) e) nb

/-- Every element of list `j` has key `j`. -/
def Keyed (key : α → Nat) (bs : List (List α)) : Prop := ∀ j, ∀ x ∈ bs.getD j [], key x = j

@[simp] theorem length_pushAt (bs : List (List α)) (i : Nat) (e : α) :
    (pushAt bs i e).length = bs.length :=
  List.length_modify ..

theorem flatten_pushAt {i : Nat} (e : α) (hi : i < bs.length) :
    (pushAt bs i e).flatten.Perm (e :: bs.flatten) := by
  obtain ⟨l₁, a, l₂, rfl, -, h⟩ := List.exists_of_modify (e :: ·) hi
  rw [pushAt, h]
  simp only [List.flatten_append, List.flatten_cons, List.cons_append]
  exact List.perm_middle

theorem mem_getD_pushAt {i j : Nat} {e x : α} (hx : x ∈ (pushAt bs i e).getD j []) :
    (i = j ∧ x = e) ∨ x ∈ bs.getD j [] := by
  simp only [pushAt, List.getD_eq_getElem?_getD, List.getElem?_modify] at hx ⊢
  cases hb : bs[j]? with
  | none => simp [hb] at hx
  | some b =>
    by_cases hij : i = j
    · simp only [hb, hij, if_true, Option.map_eq_map, Option.map_some, Option.getD_some,
        List.mem_cons] at hx
      exact hx.imp (fun e => ⟨hij, e⟩) (by simp)
    · simp only [hb, hij, if_false, Option.map_eq_map, Option.map_some, Option.getD_some] at hx
      exact .inr (by simpa using hx)

theorem mem_flatten_of_getD {i : Nat} {x : α} (hx : x ∈ bs.getD i []) : x ∈ bs.flatten := by
  rw [List.getD_eq_getElem?_getD] at hx
  cases hb : bs[i]? with
  | none => simp [hb] at hx
  | some b => exact List.mem_flatten.mpr ⟨b, List.mem_of_getElem? hb, by simpa [hb] using hx⟩

theorem Keyed.pushAt {i : Nat} {e : α} (hk : Keyed key bs) (he : key e = i) :
    Keyed key (pushAt bs i e) := fun j x hx => by
  rcases mem_getD_pushAt hx with ⟨rfl, rfl⟩ | hx
  · exact he
  · exact hk j x hx

theorem keyed_replicate (n : Nat) : Keyed key (List.replicate n ([] : List α)) := fun j x hx => by
  simp [List.getD_eq_getElem?_getD, List.getElem?_replicate] at hx
  split at hx <;> simp at hx

theorem Keyed.mem_getD {x : α} (hk : Keyed key bs) (hx : x ∈ bs.flatten) : x ∈ bs.getD (key x) [] := by
  obtain ⟨l, hl, hxl⟩ := List.mem_flatten.mp hx
  obtain ⟨j, hj, rfl⟩ := List.getElem_of_mem hl
  have hget : bs.getD j [] = bs[j] := by simp [List.getD_eq_getElem?_getD, hj]
  rw [hk j x (hget ▸ hxl), hget]
  exact hxl

theorem length_pushAll (xs : List α) : (pushAll key nb xs).length = nb.length := by
  induction xs generalizing nb with
  | nil => rfl
  | cons x xs ih => exact ih.trans (length_pushAt nb (key x) x)

theorem pushAll_perm (xs : List α) (hk : ∀ x ∈ xs, key x < nb.length) :
    (pushAll key nb xs).flatten.Perm (xs ++ nb.flatten) := by
  induction xs generalizing nb with
  | nil => rfl
  | cons x xs ih =>
    have hx := hk x List.mem_cons_self
    have ih' : (pushAll key (pushAt nb (key x) x) xs).flatten.Perm
        (xs ++ (pushAt nb (key x) x).flatten) :=
      ih fun y hy => by simpa using hk y (List.mem_cons_of_mem _ hy)
    calc (pushAll key (pushAt nb (key x) x) xs).flatten
        _ ~ xs ++ (pushAt nb (key x) x).flatten := ih'
        _ ~ xs ++ x :: nb.flatten := (flatten_pushAt x hx).append_left _
        _ ~ x :: xs ++ nb.flatten := List.perm_middle

theorem Keyed.pushAll (hk : Keyed key nb) (xs : List α) : Keyed key (pushAll key nb xs) := by
  induction xs generalizing nb with
  | nil => exact hk
  | cons x xs ih => exact ih (hk.pushAt rfl)

theorem flatten_map_erase [DecidableEq α] {e : α} :
    ∀ {bs : List (List α)}, bs.flatten.Nodup → (bs.map (·.erase e)).flatten = bs.flatten.erase e
  | [], _ => rfl
  | b :: bs, hnd => by
    simp only [List.map_cons, List.flatten_cons] at hnd ⊢
    rw [flatten_map_erase (List.nodup_append.mp hnd).2.1]
    by_cases he : e ∈ b
    · -- E is on this list, so it is on none after it
      have hout : e ∉ bs.flatten := fun h => (List.nodup_append.mp hnd).2.2 e he e h rfl
      rw [List.erase_append_left _ he, List.erase_of_not_mem hout]
    · rw [List.erase_of_not_mem he, List.erase_append_right _ he]

theorem Keyed.map_erase [DecidableEq α] {e : α} (hk : Keyed key bs) :
    Keyed key (bs.map (·.erase e)) := fun j x hx => by
  simp only [List.getD_eq_getElem?_getD, List.getElem?_map] at hx
  cases hb : bs[j]? with
  | none => simp [hb] at hx
  | some b =>
    simp only [hb, Option.map_some, Option.getD_some] at hx
    exact hk j x (by simpa [List.getD_eq_getElem?_getD, hb] using List.mem_of_mem_erase hx)

theorem flatMap_range_getD (bs : List (List α)) :
    (List.range bs.length).flatMap (bs.getD · []) = bs.flatten := by
  induction bs with
  | nil => rfl
  | cons b bs ih =>
    rw [List.length_cons, List.range_succ_eq_map, List.flatMap_cons, List.flatMap_map]
    simp [← ih]

end Pintos.Kit
