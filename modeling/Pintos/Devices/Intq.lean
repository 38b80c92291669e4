import Mathlib.Logic.Function.Basic
import Pintos.Kit.Fifo

/-! The interrupt queue of devices/intq.c: a circular buffer of `INTQ_BUFSIZE` bytes with `head`
where new data is written and `tail` where old data is read. One slot always stays free, so the
queue holds at most `INTQ_BUFSIZE - 1` bytes. Read from `tail` over its count, it is a bounded
FIFO (Kit.Fifo), and every run of calls refines that FIFO's run. -/
namespace Pintos.Devices
open Pintos.Kit

/-- `INTQ_BUFSIZE`. -/
def intqBufsize : Nat := 64

/-- `next`: the position after `pos` within an intq. -/
def next (pos : Fin intqBufsize) : Fin intqBufsize :=
  ⟨(pos.val + 1) % intqBufsize, Nat.mod_lt _ (by decide)⟩

/-- `struct intq`, without the lock and the two waiting threads that only `wait` and `signal`
use: the buffer, `head` where new data is written, `tail` where old data is read. -/
structure Intq where
  buf : Fin intqBufsize → UInt8
  head : Fin intqBufsize
  tail : Fin intqBufsize

/-- `intq_init`; the buffer keeps whatever it held. -/
def intqInit (buf : Fin intqBufsize → UInt8) : Intq := ⟨buf, ⟨0, by decide⟩, ⟨0, by decide⟩⟩

/-- `intq_empty`. -/
def intqEmpty (q : Intq) : Bool := q.head == q.tail

/-- `intq_full`. -/
def intqFull (q : Intq) : Bool := next q.head == q.tail

/-- `intq_getc` on a queue that is not empty; `none` where the caller would wait for a byte (an
interrupt handler must not call it then). -/
def intqGetc (q : Intq) : Option (UInt8 × Intq) :=
  if intqEmpty q then none
  else some (q.buf q.tail, { q with tail := next q.tail })

/-- `intq_putc` on a queue that is not full; `none` where the caller would wait for room. -/
def intqPutc (q : Intq) (byte : UInt8) : Option Intq :=
  if intqFull q then none
  else some { q with buf := Function.update q.buf q.head byte, head := next q.head }

/-- One call on the queue, with the bytes `intq_getc` has returned so far. -/
def intqStep : Intq × List UInt8 → FifoOp UInt8 → Option (Intq × List UInt8)
  | (q, out), .put byte => (intqPutc q byte).map (·, out)
  | (q, out), .get => (intqGetc q).map fun r => (r.2, out ++ [r.1])

/-! ### The queue the buffer holds -/

/-- The number of bytes queued. -/
def count (q : Intq) : Nat := (q.head.val + intqBufsize - q.tail.val) % intqBufsize

/-- The slot `k` places after `tail`. -/
def slot (q : Intq) (k : Nat) : Fin intqBufsize :=
  ⟨(q.tail.val + k) % intqBufsize, Nat.mod_lt _ (by decide)⟩

/-- The bytes queued, oldest first. -/
def contents (q : Intq) : List UInt8 := (List.range (count q)).map fun k => q.buf (slot q k)

section Queue
variable {q q' : Intq} {byte : UInt8} {k : Nat}

@[simp] theorem length_contents (q : Intq) : (contents q).length = count q := by
  simp [contents]

theorem count_lt (q : Intq) : count q < intqBufsize := Nat.mod_lt _ (by decide)

@[simp] theorem contents_intqInit (buf : Fin intqBufsize → UInt8) : contents (intqInit buf) = [] := by
  simp [contents, count, intqInit, intqBufsize]

theorem intqEmpty_iff : intqEmpty q = true ↔ count q = 0 := by
  have hh := q.head.isLt
  have ht := q.tail.isLt
  simp only [intqEmpty, beq_iff_eq, Fin.ext_iff, count]
  simp only [intqBufsize] at hh ht ⊢
  omega

theorem intqFull_iff : intqFull q = true ↔ count q = intqBufsize - 1 := by
  have hh := q.head.isLt
  have ht := q.tail.isLt
  simp only [intqFull, next, beq_iff_eq, Fin.ext_iff, count]
  simp only [intqBufsize] at hh ht ⊢
  omega

theorem slot_count (q : Intq) : slot q (count q) = q.head := by
  have hh := q.head.isLt
  have ht := q.tail.isLt
  simp only [slot, count, Fin.ext_iff]
  simp only [intqBufsize] at hh ht ⊢
  omega

theorem slot_ne_head (hk : k < count q) : slot q k ≠ q.head := by
  have hh := q.head.isLt
  have ht := q.tail.isLt
  simp only [slot, count, ne_eq, Fin.ext_iff] at hk ⊢
  simp only [intqBufsize] at hh ht hk ⊢
  omega

theorem slot_of_tail_next (ht : q'.tail = next q.tail) : slot q' k = slot q (k + 1) := by
  simp only [slot, ht, next, Fin.ext_iff]
  simp only [intqBufsize]
  omega

theorem intqGetc_spec (h : intqEmpty q = false) :
    ∃ rest, contents q = q.buf q.tail :: rest ∧
      intqGetc q = some (q.buf q.tail, { q with tail := next q.tail }) ∧
      contents { q with tail := next q.tail } = rest := by
  have hc : count q ≠ 0 := fun h0 => by rw [intqEmpty_iff.2 h0] at h; cases h
  obtain ⟨n, hn⟩ := Nat.exists_eq_succ_of_ne_zero hc
  have hslot : slot q 0 = q.tail := Fin.ext (by simp [slot, Nat.mod_eq_of_lt q.tail.isLt])
  have hcount : count { q with tail := next q.tail } = n := by
    have hh := q.head.isLt
    have ht := q.tail.isLt
    simp only [count, next] at hn ⊢
    simp only [intqBufsize] at hn hh ht ⊢
    omega
  refine ⟨(List.range n).map fun k => q.buf (slot q (k + 1)), ?_, by simp [intqGetc, h], ?_⟩
  · simp only [contents, hn, List.range_succ_eq_map, List.map_cons, List.map_map, hslot]
    rfl
  · simp only [contents, hcount]
    exact List.map_congr_left fun k _ => congrArg q.buf (slot_of_tail_next rfl)

theorem intqPutc_spec (h : intqFull q = false) :
    ∃ q', intqPutc q byte = some q' ∧ contents q' = contents q ++ [byte] := by
  have hc : count q ≠ intqBufsize - 1 := fun h1 => by rw [intqFull_iff.2 h1] at h; cases h
  have hlt := count_lt q
  refine ⟨_, by simp only [intqPutc, h]; rfl, ?_⟩
  have hcount : count { q with buf := Function.update q.buf q.head byte, head := next q.head } =
      count q + 1 := by
    have hh := q.head.isLt
    have ht := q.tail.isLt
    simp only [count, next] at hc hlt ⊢
    simp only [intqBufsize] at hc hlt hh ht ⊢
    omega
  simp only [contents, hcount, List.range_succ, List.map_append, List.map_cons, List.map_nil]
  congr 1
  · -- the slots already queued lie before `head`, which the write does not touch
    refine List.map_congr_left fun k hk => ?_
    exact Function.update_of_ne (slot_ne_head (List.mem_range.1 hk)) _ _
  · -- the new byte sits where `head` was, `count` places after `tail`
    have hs := slot_count q
    simp only [slot] at hs ⊢
    rw [hs, Function.update_self]

end Queue

/-! ### Every run is a run of the bounded FIFO -/

/-- One call on the buffer does what the same call does on the FIFO of capacity
`INTQ_BUFSIZE - 1` it holds: allowed exactly when the FIFO allows it, with the same byte out. -/
theorem intqStep_rel (q : Intq) (out : List UInt8) (op : FifoOp UInt8) :
    Option.Rel (fun s t => contents s.1 = t.1 ∧ s.2 = t.2) (intqStep (q, out) op)
      (fifoStep (intqBufsize - 1) (contents q, out) op) := by
  cases op with
  | put byte =>
    by_cases hf : intqFull q = true
    · have hfull := intqFull_iff.1 hf
      simp only [intqStep, intqPutc, hf, if_true, Option.map_none, fifoStep, length_contents,
        hfull, Nat.lt_irrefl, if_false]
      exact .none
    · obtain ⟨q', hput, hq'⟩ := @intqPutc_spec q byte (Bool.eq_false_iff.2 hf)
      have hroom : count q < intqBufsize - 1 := by
        have := count_lt q
        have := mt intqFull_iff.2 hf
        omega
      simp only [intqStep, hput, Option.map_some, fifoStep, length_contents, if_pos hroom]
      exact .some ⟨hq', rfl⟩
  | get =>
    by_cases he : intqEmpty q = true
    · have hnil : contents q = [] := List.eq_nil_of_length_eq_zero (by simp [intqEmpty_iff.1 he])
      simp only [intqStep, intqGetc, he, if_true, Option.map_none, hnil, fifoStep]
      exact .none
    · obtain ⟨rest, hrest, hget, hq'⟩ := intqGetc_spec (Bool.eq_false_iff.2 he)
      simp only [intqStep, hget, Option.map_some, hrest, fifoStep]
      exact .some ⟨hq', rfl⟩

/-- From `intq_init`, a list of `intq_putc` and `intq_getc` calls runs on the buffer exactly when
each put comes while fewer than `INTQ_BUFSIZE - 1` bytes are queued and each get while one is,
and then the bytes returned are the bytes put, in order, none lost or repeated, with the rest
queued; the queue never holds more than `INTQ_BUFSIZE - 1` bytes, and `intq_empty` and
`intq_full` say whether it holds none or that many. -/
theorem intq_bounded_fifo (buf : Fin intqBufsize → UInt8) (ops : List (FifoOp UInt8)) :
    Option.Rel (fun s t => contents s.1 = t.1 ∧ s.2 = t.2) (runs intqStep (intqInit buf, []) ops)
      (runs (fifoStep (intqBufsize - 1)) ([], []) ops) ∧
    ∀ q out, runs intqStep (intqInit buf, []) ops = some (q, out) →
      out ++ contents q = puts ops ∧ count q ≤ intqBufsize - 1 ∧
      (intqEmpty q = true ↔ count q = 0) ∧ (intqFull q = true ↔ count q = intqBufsize - 1) := by
  have hinit := contents_intqInit buf
  have hstep : ∀ (s : Intq × List UInt8) (t : List UInt8 × List UInt8) e,
      contents s.1 = t.1 ∧ s.2 = t.2 → Option.Rel (fun s t => contents s.1 = t.1 ∧ s.2 = t.2)
        (intqStep s e) (fifoStep (intqBufsize - 1) t e) := by
    rintro ⟨q, out⟩ ⟨l, out'⟩ e ⟨hl, hout⟩
    dsimp only at hl hout
    subst hl hout
    exact intqStep_rel q out e
  have hrel := runs_lockstep hstep (intqInit buf, []) ([], []) ops ⟨hinit, rfl⟩
  refine ⟨hrel, fun q out hrun => ?_⟩
  rw [hrun] at hrel
  cases hspec : runs (fifoStep (intqBufsize - 1)) ([], []) ops with
  | none => rw [hspec] at hrel; cases hrel
  | some t =>
    rw [hspec] at hrel
    cases hrel with
    | some hr =>
      obtain ⟨l, out'⟩ := t
      obtain ⟨hl, hout⟩ := hr
      dsimp only at hl hout
      obtain ⟨heq, hlen⟩ := fifo_runs (intqBufsize - 1) ops [] [] l out' (by simp) hspec
      refine ⟨by rw [hl, hout, heq]; simp, ?_, intqEmpty_iff, intqFull_iff⟩
      rw [← length_contents, hl]
      exact hlen

end Pintos.Devices
