import Pintos.Devices.Intq

/-! Serial output in devices/serial.c. A byte reaches THR_REG by one of three routes: polled out
directly before the queue exists, polled out of `txq` by a caller that finds it full with
interrupts off, or drained by `serial_interrupt`. Each call runs with interrupts off, except that
a caller finding `txq` full with interrupts on waits in `intq_putc` holding its byte, while other
callers go on.

Beside the code stands the line it is meant to be: the same moves on lists of bytes tagged with
their callers. Every run of the code is a run of the line, and on the line every caller's bytes
keep their call order, none lost or repeated. A waiting caller's byte can be overtaken by other
callers' later bytes, so across callers the order is the order the calls commit their bytes. -/
namespace Pintos.Devices
open Pintos.Kit

/-- `mode`: how bytes are transmitted. -/
inductive Mode
  | uninit
  | poll
  | queue
  deriving DecidableEq, Repr

/-- `enum intr_level`. -/
inductive IntrLevel
  | off
  | on
  deriving DecidableEq, Repr

/-- The serial port as far as output goes: `mode`, the transmit queue `txq`, the bytes written to
THR_REG so far, and the callers waiting in `intq_putc` for room, each with the byte it holds. -/
structure Serial where
  mode : Mode
  txq : Intq
  thr : List UInt8
  waiting : List (Nat × UInt8)

/-- The state at boot: `mode` and `txq` are zero, as static data. -/
def serialBoot : Serial := ⟨.uninit, intqInit fun _ => 0, [], []⟩

/-- `putc_poll`, once the line status shows THRE: BYTE is written to THR_REG. -/
def putcPoll (s : Serial) (byte : UInt8) : Serial := { s with thr := s.thr ++ [byte] }

/-- `init_poll`. -/
def initPoll (s : Serial) : Serial := { s with txq := intqInit s.txq.buf, mode := .poll }

/-- `serial_init_queue`; `none` where its `ASSERT (mode == POLL)` fails, on a second call. -/
def serialInitQueue (s : Serial) : Option Serial :=
  let s := if s.mode = .uninit then initPoll s else s
  if s.mode = .poll then some { s with mode := .queue } else none

/-- `intq_putc (&txq, byte)` by caller T: the byte goes in where there is room; otherwise T waits
for room, holding its byte. -/
def txqPutc (s : Serial) (t : Nat) (byte : UInt8) : Serial :=
  match intqPutc s.txq byte with
  | some q => { s with txq := q }
  | none => { s with waiting := s.waiting ++ [(t, byte)] }

/-- `putc_poll (intq_getc (&txq))`, which `serial_putc` calls on a full queue. -/
def pollOldest (s : Serial) : Serial :=
  match intqGetc s.txq with
  | some (b, q) => putcPoll { s with txq := q } b
  | none => s

/-- `serial_putc (byte)` by caller T, which had interrupts at OLD_LEVEL. -/
def serialPutc (s : Serial) (t : Nat) (byte : UInt8) (oldLevel : IntrLevel) : Serial :=
  if s.mode ≠ .queue then putcPoll (if s.mode = .uninit then initPoll s else s) byte
  else txqPutc (if oldLevel = .off ∧ intqFull s.txq = true then pollOldest s else s) t byte

/-- Caller T, waiting in `intq_putc`, runs again and tests `intq_full` once more; `none` where
T is not waiting. -/
def resumePutc (s : Serial) (t : Nat) : Option Serial :=
  (s.waiting.lookup t).map fun byte =>
    match intqPutc s.txq byte with
    | some q => { s with txq := q, waiting := s.waiting.erase (t, byte) }
    | none => s

/-- The transmit loop of `serial_interrupt`, with the UART showing THRE READY more times: while
`txq` holds a byte and THRE is shown, a byte is taken and written. -/
def transmit : Nat → Serial → Serial
  | 0, s => s
  | ready + 1, s =>
    match intqGetc s.txq with
    | some (b, q) => transmit ready { s with txq := q, thr := s.thr ++ [b] }
    | none => s

/-- `serial_interrupt`, whose receive loop feeds the input buffer and writes nothing. -/
def serialInterrupt (s : Serial) (ready : Nat) : Serial := transmit ready s

/-- `serial_flush`: `putc_poll` of each queued byte, oldest first, until `txq` is empty. -/
def serialFlush (s : Serial) : Serial := transmit (count s.txq) s

/-- What happens at the serial port: a call of `serial_putc` by a caller (a thread, or an
interrupt handler with interrupts off), a waiting caller running again, the serial interrupt with
the number of times the UART shows THRE, `serial_flush` and `serial_init_queue`. -/
inductive SerialCall
  | putc (caller : Nat) (byte : UInt8) (oldLevel : IntrLevel)
  | resume (caller : Nat)
  | interrupt (ready : Nat)
  | flush
  | initQueue

/-- One event. A waiting caller makes no new call; the serial interrupt is registered by
`serial_init_queue`. -/
def serialStep (s : Serial) : SerialCall → Option Serial
  | .putc t byte oldLevel =>
    if s.waiting.lookup t = none then some (serialPutc s t byte oldLevel) else none
  | .resume t => resumePutc s t
  | .interrupt ready => some (if s.mode = .queue then serialInterrupt s ready else s)
  | .flush => some (serialFlush s)
  | .initQueue => serialInitQueue s

/-- The bytes passed to `serial_putc`, with their callers, in call order. -/
def passed : List SerialCall → List (Nat × UInt8)
  | [] => []
  | .putc t byte _ :: es => (t, byte) :: passed es
  | _ :: es => passed es

theorem transmit_contents (n : Nat) (s : Serial) :
    contents (transmit n s).txq = (contents s.txq).drop n ∧
      (transmit n s).thr = s.thr ++ (contents s.txq).take n := by
  induction n generalizing s with
  | zero => simp [transmit]
  | succ n ih =>
    by_cases he : intqEmpty s.txq = true
    · have hnil : contents s.txq = [] :=
        List.eq_nil_of_length_eq_zero (by rw [length_contents, intqEmpty_iff.1 he])
      simp [transmit, intqGetc, he, hnil]
    · obtain ⟨rest, hc, hget, hrest⟩ := intqGetc_spec (Bool.eq_false_iff.2 he)
      simp only [transmit, hget]
      rw [(ih _).1, (ih _).2]
      simp [hc, hrest]

theorem serialFlush_thr (s : Serial) : (serialFlush s).thr = s.thr ++ contents s.txq := by
  rw [serialFlush, (transmit_contents _ s).2, ← length_contents, List.take_length]

theorem passed_cons (e : SerialCall) (es : List SerialCall) :
    passed (e :: es) = passed [e] ++ passed es := by
  cases e <;> rfl

/-! ### The line it is meant to be -/

/-- The serial line with each byte tagged by the caller that passed it: written out, queued
oldest first, or held by a waiting caller; and every byte passed so far. -/
structure Line where
  mode : Mode
  out : List (Nat × UInt8)
  queued : List (Nat × UInt8)
  waiting : List (Nat × UInt8)
  calls : List (Nat × UInt8)

def lineBoot : Line := ⟨.uninit, [], [], [], []⟩

/-- The queue dropped, as `init_poll` drops it. -/
def Line.initPoll (l : Line) : Line := { l with queued := [], mode := .poll }

/-- An entry appended to a queue of fewer than CAP entries; otherwise its caller waits. -/
def Line.put (cap : Nat) (l : Line) (x : Nat × UInt8) : Line :=
  if l.queued.length < cap then { l with queued := l.queued ++ [x] }
  else { l with waiting := l.waiting ++ [x] }

/-- The oldest queued entry written out. -/
def Line.take (l : Line) : Line :=
  match l.queued with
  | [] => l
  | x :: rest => { l with out := l.out ++ [x], queued := rest }

/-- Up to N queued entries written out, oldest first. -/
def Line.transmit : Nat → Line → Line
  | 0, l => l
  | n + 1, l =>
    match l.queued with
    | [] => l
    | x :: rest => Line.transmit n { l with out := l.out ++ [x], queued := rest }

/-- The line's moves for the events of the serial port, with room for CAP queued entries. -/
def lineStep (cap : Nat) (l : Line) : SerialCall → Option Line
  | .putc t byte oldLevel =>
    if l.waiting.lookup t = none then
      let l := { l with calls := l.calls ++ [(t, byte)] }
      some (if l.mode ≠ .queue then
          let l := if l.mode = .uninit then l.initPoll else l
          { l with out := l.out ++ [(t, byte)] }
        else (if oldLevel = .off ∧ l.queued.length = cap then l.take else l).put cap (t, byte))
    else none
  | .resume t => (l.waiting.lookup t).map fun byte =>
      if l.queued.length < cap then
        { l with queued := l.queued ++ [(t, byte)], waiting := l.waiting.erase (t, byte) }
      else l
  | .interrupt ready => some (if l.mode = .queue then l.transmit ready else l)
  | .flush => some (l.transmit l.queued.length)
  | .initQueue =>
    let l := if l.mode = .uninit then l.initPoll else l
    if l.mode = .poll then some { l with mode := .queue } else none

/-! ### The code refines the line -/

/-- The code's state holds the line's bytes without their callers. -/
structure Refines (s : Serial) (l : Line) : Prop where
  mode : s.mode = l.mode
  thr : s.thr = l.out.map Prod.snd
  txq : contents s.txq = l.queued.map Prod.snd
  waiting : s.waiting = l.waiting

section Refines
variable {s : Serial} {l : Line}

theorem Refines.count (h : Refines s l) : count s.txq = l.queued.length := by
  rw [← length_contents, h.txq, List.length_map]

theorem Refines.full (h : Refines s l) :
    intqFull s.txq = true ↔ l.queued.length = intqBufsize - 1 := by
  rw [intqFull_iff, h.count]

theorem Refines.initPoll (h : Refines s l) : Refines (initPoll s) l.initPoll :=
  ⟨rfl, h.thr, contents_intqInit _, h.waiting⟩

theorem Refines.putcPoll (h : Refines s l) (x : Nat × UInt8) :
    Refines (putcPoll s x.2) { l with out := l.out ++ [x] } :=
  ⟨h.mode, by simp [Pintos.Devices.putcPoll, h.thr], h.txq, h.waiting⟩

theorem Refines.getc (h : Refines s l) :
    (intqGetc s.txq = none ∧ l.queued = []) ∨
      ∃ x rest q, l.queued = x :: rest ∧ intqGetc s.txq = some (x.2, q) ∧
        contents q = rest.map Prod.snd := by
  cases hq : l.queued with
  | nil =>
    have he : intqEmpty s.txq = true := intqEmpty_iff.2 (by rw [h.count, hq]; rfl)
    exact .inl ⟨by simp [intqGetc, he], rfl⟩
  | cons x rest =>
    have he : intqEmpty s.txq = false := by
      rw [Bool.eq_false_iff]
      intro he
      have := intqEmpty_iff.1 he
      rw [h.count, hq] at this
      cases this
    obtain ⟨rest', hc, hget, hq'⟩ := intqGetc_spec he
    rw [h.txq, hq, List.map_cons] at hc
    obtain ⟨hx, hrest⟩ := List.cons.inj hc
    exact .inr ⟨x, rest, _, rfl, by rw [hget, hx], by rw [hq', hrest]⟩

theorem Refines.pollOldest (h : Refines s l) : Refines (pollOldest s) l.take := by
  rcases h.getc with ⟨hnone, hnil⟩ | ⟨x, rest, q, hq, hget, hc⟩
  · simp only [Pintos.Devices.pollOldest, hnone, Line.take, hnil]
    exact h
  · simp only [Pintos.Devices.pollOldest, hget, Line.take, hq]
    exact ⟨h.mode, by simp [Pintos.Devices.putcPoll, h.thr], hc, h.waiting⟩

theorem Refines.putc (h : Refines s l) (x : Nat × UInt8) :
    (l.queued.length < intqBufsize - 1 ∧
      ∃ q, intqPutc s.txq x.2 = some q ∧ contents q = (l.queued ++ [x]).map Prod.snd) ∨
    (¬ l.queued.length < intqBufsize - 1 ∧ intqPutc s.txq x.2 = none) := by
  by_cases hroom : l.queued.length < intqBufsize - 1
  · have hnf : intqFull s.txq = false := by
      rw [Bool.eq_false_iff]
      intro hf
      rw [h.full] at hf
      omega
    obtain ⟨q, hput, hq⟩ := @intqPutc_spec s.txq x.2 hnf
    exact .inl ⟨hroom, q, hput, by rw [hq, h.txq, List.map_append]; rfl⟩
  · have hf : intqFull s.txq = true := by
      rw [h.full]
      have := h.count ▸ count_lt s.txq
      omega
    exact .inr ⟨hroom, by simp [intqPutc, hf]⟩

theorem Refines.txqPutc (h : Refines s l) (t : Nat) (byte : UInt8) :
    Refines (txqPutc s t byte) (l.put (intqBufsize - 1) (t, byte)) := by
  rcases h.putc (t, byte) with ⟨hroom, q, hput, hq⟩ | ⟨hroom, hput⟩
  · simp only [Pintos.Devices.txqPutc, hput, Line.put, if_pos hroom]
    exact ⟨h.mode, h.thr, hq, h.waiting⟩
  · simp only [Pintos.Devices.txqPutc, hput, Line.put, if_neg hroom]
    exact ⟨h.mode, h.thr, h.txq, by rw [h.waiting]⟩

theorem Refines.transmit (n : Nat) (h : Refines s l) :
    Refines (transmit n s) (l.transmit n) := by
  induction n generalizing s l with
  | zero => exact h
  | succ n ih =>
    rcases h.getc with ⟨hnone, hnil⟩ | ⟨x, rest, q, hq, hget, hc⟩
    · simp only [Pintos.Devices.transmit, hnone, Line.transmit, hnil]
      exact h
    · simp only [Pintos.Devices.transmit, hget, Line.transmit, hq]
      exact ih ⟨h.mode, by simp [h.thr], hc, h.waiting⟩

/-- One event of the code is the same event of the line with room for `INTQ_BUFSIZE - 1` queued
entries: both refuse it or both take it, and the results correspond. -/
theorem serialStep_refines (h : Refines s l) (e : SerialCall) :
    Option.Rel Refines (serialStep s e) (lineStep (intqBufsize - 1) l e) := by
  cases e with
  | putc t byte oldLevel =>
    simp only [serialStep, lineStep, h.waiting]
    split
    · -- the caller makes its call; the line records it
      apply Option.Rel.some
      have h' : Refines s { l with calls := l.calls ++ [(t, byte)] } :=
        ⟨h.mode, h.thr, h.txq, h.waiting⟩
      rw [serialPutc]
      by_cases hq : s.mode = .queue
      · have hl : l.mode = .queue := h.mode ▸ hq
        rw [if_neg (not_not.mpr hq : ¬ s.mode ≠ .queue), if_neg (not_not.mpr hl : ¬ l.mode ≠ .queue)]
        by_cases hc : oldLevel = .off ∧ l.queued.length = intqBufsize - 1
        · rw [if_pos (by rw [h.full]; exact hc), if_pos hc]
          exact h'.pollOldest.txqPutc t byte
        · rw [if_neg (by rw [h.full]; exact hc), if_neg hc]
          exact h'.txqPutc t byte
      · have hl : l.mode ≠ .queue := h.mode ▸ hq
        simp only [ne_eq, hq, hl, not_false_eq_true, if_true]
        by_cases hu : s.mode = .uninit
        · have hlu : l.mode = .uninit := h.mode ▸ hu
          simp only [hu, hlu, if_true]
          exact h'.initPoll.putcPoll (t, byte)
        · have hlu : l.mode ≠ .uninit := h.mode ▸ hu
          simp only [hu, hlu, if_false]
          exact h'.putcPoll (t, byte)
    · exact .none
  | resume t =>
    simp only [serialStep, resumePutc, lineStep, h.waiting]
    cases hw : l.waiting.lookup t with
    | none => exact .none
    | some byte =>
      apply Option.Rel.some
      rcases h.putc (t, byte) with ⟨hroom, q, hput, hq⟩ | ⟨hroom, hput⟩
      · simp only [hput, if_pos hroom]
        exact ⟨h.mode, h.thr, hq, rfl⟩
      · simp only [hput, if_neg hroom]
        exact h
  | interrupt ready =>
    apply Option.Rel.some
    by_cases hq : s.mode = .queue
    · rw [if_pos hq, if_pos (by rw [← h.mode]; exact hq)]
      exact h.transmit ready
    · rw [if_neg hq, if_neg (by rw [← h.mode]; exact hq)]
      exact h
  | flush =>
    simp only [serialStep, lineStep, serialFlush, h.count]
    exact .some (h.transmit _)
  | initQueue =>
    simp only [serialStep, serialInitQueue, lineStep]
    have h' : Refines (if s.mode = .uninit then initPoll s else s)
        (if l.mode = .uninit then l.initPoll else l) := by
      by_cases hu : s.mode = .uninit
      · rw [if_pos hu, if_pos (by rw [← h.mode]; exact hu)]
        exact h.initPoll
      · rw [if_neg hu, if_neg (by rw [← h.mode]; exact hu)]
        exact h
    by_cases hp : (if s.mode = .uninit then initPoll s else s).mode = .poll
    · have hlp : (if l.mode = .uninit then l.initPoll else l).mode = .poll := h'.mode ▸ hp
      rw [if_pos hp, if_pos hlp]
      exact .some ⟨rfl, h'.thr, h'.txq, h'.waiting⟩
    · have hlp : ¬ (if l.mode = .uninit then l.initPoll else l).mode = .poll := h'.mode ▸ hp
      rw [if_neg hp, if_neg hlp]
      exact .none

end Refines

/-! ### On the line each caller's bytes keep their order -/

/-- Every entry of the line in the order it goes out: written, queued, then waiting. -/
def Line.entries (l : Line) : List (Nat × UInt8) := l.out ++ l.queued ++ l.waiting

/-- The entries of caller T, in order. -/
def byCaller (t : Nat) (xs : List (Nat × UInt8)) : List (Nat × UInt8) := xs.filter (·.1 == t)

/-- What the line keeps: outside queue mode nothing is queued or waiting, each caller waits with
at most one byte, and each caller's entries are the bytes it passed, in order. -/
structure LineInv (l : Line) : Prop where
  idle : l.mode ≠ .queue → l.queued = [] ∧ l.waiting = []
  once : (l.waiting.map Prod.fst).Nodup
  order : ∀ t, byCaller t l.entries = byCaller t l.calls

section Order
variable {cap : Nat} {l l' : Line} {e : SerialCall}

theorem lookup_eq_none_iff {w : List (Nat × UInt8)} {t : Nat} :
    w.lookup t = none ↔ ∀ y ∈ w, y.1 ≠ t := by
  induction w with
  | nil => simp
  | cons y w ih =>
    obtain ⟨k, b⟩ := y
    by_cases hk : t = k
    · subst hk
      simp
    · have hk' : (t == k) = false := by simpa using hk
      simp only [List.lookup_cons, hk', ih, List.mem_cons, forall_eq_or_imp, ne_eq]
      exact ⟨fun h => ⟨Ne.symm hk, h⟩, fun h => h.2⟩

theorem lookup_split {w : List (Nat × UInt8)} {t : Nat} {b : UInt8} (h : w.lookup t = some b) :
    ∃ w₁ w₂, w = w₁ ++ (t, b) :: w₂ ∧ ∀ y ∈ w₁, y.1 ≠ t := by
  induction w with
  | nil => simp at h
  | cons y w ih =>
    obtain ⟨k, c⟩ := y
    by_cases hk : t = k
    · subst hk
      simp only [List.lookup_cons, beq_self_eq_true, Option.some.injEq] at h
      exact ⟨[], w, by rw [h]; rfl, by simp⟩
    · have hk' : (t == k) = false := by simpa using hk
      simp only [List.lookup_cons, hk'] at h
      obtain ⟨w₁, w₂, hw, hne⟩ := ih h
      refine ⟨(k, c) :: w₁, w₂, by rw [hw]; rfl, ?_⟩
      simp only [List.mem_cons, forall_eq_or_imp]
      exact ⟨Ne.symm hk, hne⟩

@[simp] theorem byCaller_append (t : Nat) (xs ys : List (Nat × UInt8)) :
    byCaller t (xs ++ ys) = byCaller t xs ++ byCaller t ys := List.filter_append _ _

theorem byCaller_insert (u : Nat) (a w : List (Nat × UInt8)) {x : Nat × UInt8}
    (hw : ∀ y ∈ w, y.1 ≠ x.1) :
    byCaller u (a ++ [x] ++ w) = byCaller u (a ++ w) ++ byCaller u [x] := by
  by_cases hx : x.1 = u
  · have hnil : byCaller u w = [] := by
      rw [byCaller, List.filter_eq_nil_iff]
      intro y hy hyu
      exact hw y hy (by simpa [hx] using hyu)
    simp only [List.append_assoc, byCaller_append, hnil, List.append_nil]
  · have hnil : byCaller u [x] = [] := by simp [byCaller, hx]
    simp only [List.append_assoc, byCaller_append, hnil, List.append_nil, List.nil_append]

@[simp] theorem take_mode : l.take.mode = l.mode := by
  unfold Line.take; split <;> rfl

@[simp] theorem take_waiting : l.take.waiting = l.waiting := by
  unfold Line.take; split <;> rfl

@[simp] theorem take_calls : l.take.calls = l.calls := by
  unfold Line.take; split <;> rfl

/-- Writing out the oldest queued entry moves it without changing the order of the entries. -/
@[simp] theorem take_entries : l.take.entries = l.entries := by
  unfold Line.take Line.entries
  split
  · rfl
  · next x rest hq => simp [hq]

theorem Line.transmit_spec (n : Nat) (l : Line) :
    (l.transmit n).mode = l.mode ∧ (l.transmit n).waiting = l.waiting ∧
      (l.transmit n).calls = l.calls ∧ (l.transmit n).entries = l.entries ∧
      (l.queued = [] → l.transmit n = l) := by
  induction n generalizing l with
  | zero => exact ⟨rfl, rfl, rfl, rfl, fun _ => rfl⟩
  | succ n ih =>
    unfold Line.transmit
    split
    · exact ⟨rfl, rfl, rfl, rfl, fun _ => rfl⟩
    · next x rest hq =>
      obtain ⟨h1, h2, h3, h4, -⟩ := ih { l with out := l.out ++ [x], queued := rest }
      refine ⟨h1, h2, h3, ?_, fun h => by rw [hq] at h; cases h⟩
      rw [h4]
      simp [Line.entries, hq]

theorem nodup_keys_append {w : List (Nat × UInt8)} {x : Nat × UInt8} (h : (w.map Prod.fst).Nodup)
    (hx : ∀ y ∈ w, y.1 ≠ x.1) : ((w ++ [x]).map Prod.fst).Nodup := by
  rw [List.map_append, List.nodup_append]
  refine ⟨h, by simp, ?_⟩
  intro a ha b hb
  rw [List.map_singleton, List.mem_singleton] at hb
  obtain ⟨y, hy, rfl⟩ := List.mem_map.1 ha
  rw [hb]
  exact hx y hy

theorem put_spec {x : Nat × UInt8} (hx : ∀ y ∈ l.waiting, y.1 ≠ x.1) :
    (l.put cap x).mode = l.mode ∧ (l.put cap x).calls = l.calls ∧
      ((l.put cap x).waiting = l.waiting ∨ (l.put cap x).waiting = l.waiting ++ [x]) ∧
      ∀ u, byCaller u (l.put cap x).entries = byCaller u l.entries ++ byCaller u [x] := by
  unfold Line.put
  split
  · refine ⟨rfl, rfl, .inl rfl, fun u => ?_⟩
    have := byCaller_insert u (l.out ++ l.queued) l.waiting hx
    simpa [Line.entries] using this
  · exact ⟨rfl, rfl, .inr rfl, fun u => by simp [Line.entries]⟩

theorem LineInv.putc (hi : LineInv l) {t : Nat} {byte : UInt8} {oldLevel : IntrLevel}
    (hw : l.waiting.lookup t = none) (h : lineStep cap l (.putc t byte oldLevel) = some l') :
    LineInv l' := by
  have hnw := lookup_eq_none_iff.1 hw
  simp only [lineStep, hw, if_true, Option.some.injEq] at h
  subst h
  by_cases hq : l.mode = .queue
  · -- queue mode: the oldest entry may be written out first, then the new one is put
    rw [if_neg (not_not.mpr hq : ¬ l.mode ≠ .queue)]
    have h₁ : ∀ l₁ : Line, l₁ = (if oldLevel = .off ∧ l.queued.length = cap then
        { l with calls := l.calls ++ [(t, byte)] }.take else { l with calls := l.calls ++ [(t, byte)] }) →
        l₁.mode = l.mode ∧ l₁.waiting = l.waiting ∧ l₁.calls = l.calls ++ [(t, byte)] ∧
          l₁.entries = l.entries := by
      rintro l₁ rfl
      by_cases hc : oldLevel = .off ∧ l.queued.length = cap
      · rw [if_pos hc]
        exact ⟨take_mode, take_waiting, take_calls, take_entries⟩
      · rw [if_neg hc]
        exact ⟨rfl, rfl, rfl, rfl⟩
    generalize hl₁ : (if oldLevel = .off ∧ l.queued.length = cap then
        { l with calls := l.calls ++ [(t, byte)] }.take else { l with calls := l.calls ++ [(t, byte)] }) = l₁
    replace h₁ := h₁ l₁ hl₁.symm
    obtain ⟨hm, hwt, hcl, hen⟩ := h₁
    obtain ⟨pm, pc, pw, pe⟩ := @put_spec cap l₁ (t, byte) (hwt ▸ hnw)
    refine ⟨fun h => absurd (pm.trans (hm.trans hq)) h, ?_, fun u => ?_⟩
    · rcases pw with pw | pw
      · rw [pw, hwt]
        exact hi.once
      · rw [pw, hwt]
        exact nodup_keys_append hi.once hnw
    · rw [pe, hen, pc, hcl, byCaller_append, hi.order]
  · -- before the queue exists: the byte is written at once
    obtain ⟨hqe, hwe⟩ := hi.idle hq
    rw [if_pos (hq : l.mode ≠ .queue)]
    by_cases hu : l.mode = .uninit
    · simp only [hu, if_true, Line.initPoll]
      refine ⟨fun _ => ⟨rfl, hwe⟩, by simp [hwe], fun u => ?_⟩
      have := hi.order u
      simp only [Line.entries, hqe, hwe, List.append_nil] at this
      simp [Line.entries, hwe, this]
    · simp only [hu, if_false]
      refine ⟨fun _ => ⟨hqe, hwe⟩, by simp [hwe], fun u => ?_⟩
      have := hi.order u
      simp only [Line.entries, hqe, hwe, List.append_nil] at this
      simp [Line.entries, hqe, hwe, this]

theorem lineStep_resume {t : Nat} (h : lineStep cap l (.resume t) = some l') :
    ∃ byte, l.waiting.lookup t = some byte ∧ l' = if l.queued.length < cap then
      { l with queued := l.queued ++ [(t, byte)], waiting := l.waiting.erase (t, byte) } else l := by
  simp only [lineStep, Option.map_eq_some_iff] at h
  obtain ⟨byte, hl, rfl⟩ := h
  exact ⟨byte, hl, rfl⟩

/-- A waiting caller that runs again moves its entry from the waiting ones to the end of the
queue, which changes no caller's order: it is its caller's last entry, and no other waiting
entry is of that caller. -/
theorem LineInv.resume (hi : LineInv l) {t : Nat} (h : lineStep cap l (.resume t) = some l') :
    LineInv l' := by
  obtain ⟨byte, hl, rfl⟩ := lineStep_resume h
  obtain ⟨w₁, w₂, hw, hne₁⟩ := lookup_split hl
  have hkeys := hi.once
  rw [hw, List.map_append, List.map_cons, List.nodup_append] at hkeys
  have hne₂ : ∀ y ∈ w₂, y.1 ≠ t := by
    intro y hy hyt
    have := List.nodup_cons.1 hkeys.2.1
    exact this.1 (List.mem_map.2 ⟨y, hy, hyt⟩)
  have herase : l.waiting.erase (t, byte) = w₁ ++ w₂ := by
    rw [hw, List.erase_append_right _ (fun hm => hne₁ _ hm rfl), List.erase_cons_head]
  have hmode : l.mode = .queue := by
    by_contra hq
    rw [(hi.idle hq).2] at hl
    cases hl
  split
  · refine ⟨fun h => absurd hmode h, ?_, fun u => ?_⟩
    · show ((l.waiting.erase (t, byte)).map Prod.fst).Nodup
      exact hi.once.sublist (List.erase_sublist.map _)
    · have hall : ∀ y ∈ w₁ ++ w₂, y.1 ≠ (t, byte).1 := by
        intro y hy
        rcases List.mem_append.1 hy with hy | hy
        · exact hne₁ y hy
        · exact hne₂ y hy
      have h₁ := byCaller_insert u (l.out ++ l.queued) (w₁ ++ w₂) hall
      have h₂ := byCaller_insert u (l.out ++ l.queued ++ w₁) w₂ (x := (t, byte)) hne₂
      rw [← hi.order u]
      show byCaller u (l.out ++ (l.queued ++ [(t, byte)]) ++ l.waiting.erase (t, byte)) =
        byCaller u (l.out ++ l.queued ++ l.waiting)
      rw [herase, hw]
      simp only [List.append_assoc, List.cons_append, List.nil_append] at h₁ h₂ ⊢
      rw [h₁, h₂]
  · exact hi

theorem LineInv.transmit (hi : LineInv l) (n : Nat) : LineInv (l.transmit n) := by
  obtain ⟨hm, hw, hc, he, hnil⟩ := Line.transmit_spec n l
  refine ⟨fun hq => ?_, hw ▸ hi.once, fun u => by rw [he, hc, hi.order]⟩
  rw [hm] at hq
  rw [hnil (hi.idle hq).1]
  exact hi.idle hq

theorem LineInv.initQueue (hi : LineInv l) (h : lineStep cap l .initQueue = some l') :
    LineInv l' := by
  simp only [lineStep] at h
  by_cases hu : l.mode = .uninit
  · simp only [hu, if_true, Line.initPoll, if_true, Option.some.injEq] at h
    subst h
    obtain ⟨hqe, -⟩ := hi.idle (by rw [hu]; decide)
    refine ⟨fun h => absurd rfl h, hi.once, fun u => ?_⟩
    rw [← hi.order u]
    simp [Line.entries, hqe]
  · simp only [hu, if_false] at h
    split at h
    · cases h
      exact ⟨fun h => absurd rfl h, hi.once, hi.order⟩
    · cases h

theorem LineInv.step (hi : LineInv l) (h : lineStep cap l e = some l') : LineInv l' := by
  cases e with
  | putc t byte oldLevel =>
    by_cases hw : l.waiting.lookup t = none
    · exact hi.putc hw h
    · simp [lineStep, hw] at h
  | resume t => exact hi.resume h
  | interrupt ready =>
    simp only [lineStep, Option.some.injEq] at h
    subst h
    split
    · exact hi.transmit ready
    · exact hi
  | flush =>
    simp only [lineStep, Option.some.injEq] at h
    subst h
    exact hi.transmit _
  | initQueue => exact hi.initQueue h

@[simp] theorem put_calls {x : Nat × UInt8} : (l.put cap x).calls = l.calls := by
  unfold Line.put
  split <;> rfl

theorem lineStep_calls (h : lineStep cap l e = some l') : l'.calls = l.calls ++ passed [e] := by
  cases e with
  | putc t byte oldLevel =>
    simp only [lineStep] at h
    split at h
    · cases h
      split
      · split <;> rfl
      · split
        · simp [passed]
        · simp [passed]
    · cases h
  | resume t =>
    obtain ⟨byte, -, rfl⟩ := lineStep_resume h
    split <;> simp [passed]
  | interrupt ready =>
    simp only [lineStep, Option.some.injEq] at h
    subst h
    split
    · simp [(Line.transmit_spec ready l).2.2.1, passed]
    · simp [passed]
  | flush =>
    simp only [lineStep, Option.some.injEq] at h
    subst h
    simp [(Line.transmit_spec _ l).2.2.1, passed]
  | initQueue =>
    simp only [lineStep] at h
    by_cases hu : l.mode = .uninit
    · simp only [hu, if_true, Line.initPoll, Option.some.injEq] at h
      subst h
      simp [passed]
    · simp only [hu, if_false] at h
      split at h
      · cases h
        simp [passed]
      · cases h

/-- Along every run of the line from a state where the invariant holds it keeps holding, and the
calls recorded grow by the bytes passed. -/
theorem line_runs (es : List SerialCall) : ∀ l l', LineInv l → runs (lineStep cap) l es = some l' →
    LineInv l' ∧ l'.calls = l.calls ++ passed es := by
  induction es with
  | nil =>
    intro l l' hi h
    cases h
    exact ⟨hi, by simp [passed]⟩
  | cons e es ih =>
    intro l l' hi h
    rw [runs_cons] at h
    cases he : lineStep cap l e with
    | none => simp [he] at h
    | some l₁ =>
      rw [he, Option.bind_some] at h
      obtain ⟨hi', hc⟩ := ih l₁ l' (hi.step he) h
      rw [hc, lineStep_calls he, passed_cons e es, List.append_assoc]
      exact ⟨hi', rfl⟩

theorem lineInv_boot : LineInv lineBoot := ⟨fun _ => ⟨rfl, rfl⟩, List.nodup_nil, fun _ => rfl⟩

theorem perm_of_byCaller {xs ys : List (Nat × UInt8)} (h : ∀ t, byCaller t xs = byCaller t ys) :
    xs.Perm ys := by
  rw [List.perm_iff_count]
  intro a
  have hx := @List.count_filter _ _ _ (fun x : Nat × UInt8 => x.1 == a.1) a xs (by simp)
  have hy := @List.count_filter _ _ _ (fun x : Nat × UInt8 => x.1 == a.1) a ys (by simp)
  rw [← hx, ← hy]
  exact congrArg (List.count a) (h a.1)

theorem byCaller_of_all {t : Nat} {xs : List (Nat × UInt8)} (h : ∀ p ∈ xs, p.1 = t) :
    byCaller t xs = xs := by
  rw [byCaller, List.filter_eq_self]
  intro p hp
  simp [h p hp]

end Order

/-- Every run of the serial port from boot is a run of the line: the code takes exactly the
event lists the line takes, and each state it reaches holds the bytes of the line's state. -/
theorem serial_refines_line (es : List SerialCall) :
    Option.Rel Refines (runs serialStep serialBoot es) (runs (lineStep (intqBufsize - 1)) lineBoot es) :=
  runs_lockstep (fun _ _ e h => serialStep_refines h e) serialBoot lineBoot es
    ⟨rfl, rfl, contents_intqInit _, rfl⟩

/-! ### The byte stream -/

/-- Caller 0 fills `txq` with interrupts on and, calling again with byte 1, waits for room; an
interrupt handler, caller 1, then calls `serial_putc` with byte 2, polls the oldest byte out and
queues its own, and `serial_flush` writes it. -/
def overtakeRun : List SerialCall :=
  .initQueue :: List.replicate (intqBufsize - 1) (.putc 0 0 .on) ++
    [.putc 0 1 .on, .putc 1 2 .off, .flush]

/-- Byte 2 reaches THR_REG while byte 1, passed to `serial_putc` before it, is held by its waiting
caller: what is written is not a prefix of the bytes passed in call order. -/
theorem serial_putc_overtaken :
    ∃ s, runs serialStep serialBoot overtakeRun = some s ∧
      ¬ s.thr <+: (passed overtakeRun).map Prod.snd :=
  exists_of_runs (by decide +kernel)

/-- Serial output keeps each caller's byte stream. After any run from boot of `serial_putc` calls
(by threads or interrupt handlers, with interrupts on or off, before and after
`serial_init_queue`), resumptions of callers waiting in `intq_putc`, serial interrupts with any
number of THRE indications, and `serial_flush`: the bytes written to THR_REG, then those in `txq`,
then those held by waiting callers are the bytes passed, none lost or repeated, with each caller's
bytes in its call order; and where all calls come from one caller, what is written is a prefix of
the bytes passed in call order, and all of them after `serial_flush` once no call waits. -/
theorem serial_keeps_each_callers_order (es : List SerialCall) (s : Serial)
    (h : runs serialStep serialBoot es = some s) :
    ∃ l : Line, Refines s l ∧ (∀ t, byCaller t l.entries = byCaller t (passed es)) ∧
      (s.thr ++ contents s.txq ++ s.waiting.map Prod.snd).Perm ((passed es).map Prod.snd) ∧
      ∀ t, (∀ p ∈ passed es, p.1 = t) →
        s.thr <+: (passed es).map Prod.snd ∧
        (s.waiting = [] → (serialFlush s).thr = (passed es).map Prod.snd) := by
  have hrel := serial_refines_line es
  rw [h] at hrel
  obtain ⟨l, hl, href⟩ : ∃ l, runs (lineStep (intqBufsize - 1)) lineBoot es = some l ∧
      Refines s l := by
    revert hrel
    cases runs (lineStep (intqBufsize - 1)) lineBoot es with
    | none => exact fun hr => nomatch hr
    | some l => exact fun hr => ⟨l, rfl, by cases hr; assumption⟩
  obtain ⟨hi, hcalls⟩ := line_runs es lineBoot l lineInv_boot hl
  have horder : ∀ t, byCaller t l.entries = byCaller t (passed es) := by
    intro t
    rw [hi.order t, hcalls]
    rfl
  have hbytes : s.thr ++ contents s.txq ++ s.waiting.map Prod.snd = l.entries.map Prod.snd := by
    rw [href.thr, href.txq, href.waiting, Line.entries, List.map_append, List.map_append]
  have hperm := perm_of_byCaller horder
  refine ⟨l, href, horder, hbytes ▸ hperm.map Prod.snd, fun t hall => ?_⟩
  have hent : l.entries = passed es := by
    have hl' : ∀ p ∈ l.entries, p.1 = t := fun p hp => hall p (hperm.subset hp)
    rw [← byCaller_of_all hl', horder t, byCaller_of_all hall]
  have hall' : s.thr ++ contents s.txq ++ s.waiting.map Prod.snd = (passed es).map Prod.snd := by
    rw [hbytes, hent]
  refine ⟨?_, fun hw => ?_⟩
  · rw [← hall', List.append_assoc]
    exact List.prefix_append _ _
  · rw [hw, List.map_nil, List.append_nil] at hall'
    rw [serialFlush_thr, hall']

theorem serial_keeps_each_callers_order_one_caller :
    ∃ s, runs serialStep serialBoot [.putc 0 7 .on, .initQueue, .putc 0 8 .on] = some s ∧
      ∃ l : Line, Refines s l ∧
        (∀ t, byCaller t l.entries = byCaller t (passed [.putc 0 7 .on, .initQueue, .putc 0 8 .on])) ∧
        (s.thr ++ contents s.txq ++ s.waiting.map Prod.snd).Perm
          ((passed [.putc 0 7 .on, .initQueue, .putc 0 8 .on]).map Prod.snd) ∧
        ∀ t, (∀ p ∈ passed [.putc 0 7 .on, .initQueue, .putc 0 8 .on], p.1 = t) →
          s.thr <+: (passed [.putc 0 7 .on, .initQueue, .putc 0 8 .on]).map Prod.snd ∧
          (s.waiting = [] → (serialFlush s).thr =
            (passed [.putc 0 7 .on, .initQueue, .putc 0 8 .on]).map Prod.snd) := by
  have hrun : (runs serialStep serialBoot [.putc 0 7 .on, .initQueue, .putc 0 8 .on]).map
      (fun s => decide (s.thr = [7])) = some true := by decide +kernel
  obtain ⟨s, hs, -⟩ := exists_of_runs hrun
  exact ⟨s, hs, serial_keeps_each_callers_order _ s hs⟩

end Pintos.Devices
