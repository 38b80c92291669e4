import Pintos.Kit.Run

/-! A bounded first-in first-out queue as a list: what a circular buffer is meant to be. Every
run delivers what was put, in order, and keeps at most the capacity. -/
namespace Pintos.Kit
variable {α : Type}

/-- A call on a queue: put an element, or take the oldest. -/
inductive FifoOp (α : Type) where
  | put (a : α)
  | get
  deriving DecidableEq, Repr

/-- The elements a list of calls puts, in order. -/
def puts : List (FifoOp α) → List α
  | [] => []
  | .put a :: ops => a :: puts ops
  | .get :: ops => puts ops

/-- One call on a queue of capacity `cap` holding `l`, with the elements taken so far: a put
needs room and a get an element; otherwise the call is not allowed. -/
def fifoStep (cap : Nat) : List α × List α → FifoOp α → Option (List α × List α)
  | (l, out), .put a => if l.length < cap then some (l ++ [a], out) else none
  | ([], _), .get => none
  | (a :: l, out), .get => some (l, out ++ [a])

theorem fifoStep_some {cap : Nat} {l out l' out' : List α} {op : FifoOp α}
    (h : fifoStep cap (l, out) op = some (l', out')) :
    out' ++ l' = out ++ l ++ puts [op] ∧ (l.length ≤ cap → l'.length ≤ cap) := by
  cases op with
  | put a =>
    simp only [fifoStep] at h
    split at h
    · cases h
      exact ⟨by simp [puts], fun _ => by simp; omega⟩
    · cases h
  | get =>
    cases l with
    | nil => cases h
    | cons a l =>
      cases h
      exact ⟨by simp [puts], fun hl => by simp at hl ⊢; omega⟩

theorem puts_append (ops ops' : List (FifoOp α)) : puts (ops ++ ops') = puts ops ++ puts ops' := by
  induction ops with
  | nil => rfl
  | cons op ops ih => cases op <;> simp [puts, ih]

/-- Every run from an empty queue has taken a prefix of what was put, in order, with the rest
still queued, and never holds more than the capacity. -/
theorem fifo_runs (cap : Nat) :
    ∀ (ops : List (FifoOp α)) (l out l' out' : List α), l.length ≤ cap →
      runs (fifoStep cap) (l, out) ops = some (l', out') →
      out' ++ l' = out ++ l ++ puts ops ∧ l'.length ≤ cap
  | [], l, out, l', out', hl, h => by
    cases h
    simp [puts, hl]
  | op :: ops, l, out, l', out', hl, h => by
    simp only [runs_cons, Option.bind_eq_some_iff] at h
    obtain ⟨⟨l1, out1⟩, h1, hrest⟩ := h
    obtain ⟨he1, hl1⟩ := fifoStep_some h1
    obtain ⟨he, hl'⟩ := fifo_runs cap ops l1 out1 l' out' (hl1 hl) hrest
    refine ⟨?_, hl'⟩
    rw [he, he1, show op :: ops = [op] ++ ops from rfl, puts_append]
    simp

/-! ### Places in a queue -/

section Place
variable [BEq α] [LawfulBEq α] {l : List α} {a d : α}

/-- An element behind the front of a queue is one place nearer the front once the front is
taken. -/
theorem idxOf_tail_of_ne (ha : a ∈ l) (hne : l.headD d ≠ a) :
    a ∈ l.tail ∧ l.tail.idxOf a + 1 = l.idxOf a := by
  cases l with
  | nil => cases ha
  | cons b l =>
    rw [List.headD_cons] at hne
    exact ⟨(List.mem_cons.mp ha).resolve_left (Ne.symm hne), by
      rw [List.tail_cons, List.idxOf_cons, beq_false_of_ne hne, cond_false]⟩

end Place

end Pintos.Kit
