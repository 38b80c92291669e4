import Pintos.Userprog.Gdt
import Pintos.Kit.Run
import Mathlib.Data.List.Nodup

/-! The interrupt descriptor table of threads/interrupt.c. `intr_init` points every vector's gate
at its stub in intr-stubs.S through an interrupt gate of privilege 0, and `intr_register_ext`
and `intr_register_int` replace one vector's gate, once, by the gate its handler asks for.
Over any run of registrations every gate the processor reads enters the kernel code segment at
the vector's own stub, with the type and privilege level of the one registration of that vector.
So external interrupts always enter with interrupts off, as `intr_handler` asserts, no device
interrupt can be raised from user mode, and user code reaches by `int` exactly the vectors
registered for it. -/
namespace Pintos.Threads

open Pintos.Kit Pintos.Userprog

/-- `enum intr_level`. -/
inductive IntrLevel where
  | off
  | on
  deriving DecidableEq, Repr

/-- `INTR_CNT`. -/
def intrCnt : Nat := 256

/-- `make_gate`: `none` where one of its ASSERTs fails. -/
def makeGate (function : UInt32) (dpl type : Int) : Option UInt64 :=
  if function ≠ 0 ∧ 0 ≤ dpl ∧ dpl ≤ 3 ∧ 0 ≤ type ∧ type ≤ 15 then
    let e0 : UInt32 := (function &&& (0xffff : UInt32)) ||| (selKcseg.toUInt32 <<< 16)
    let e1 : UInt32 := (function &&& (0xffff0000 : UInt32)) ||| ((1 : UInt32) <<< 15)
      ||| (dpl.toNat.toUInt32 <<< 13) ||| ((0 : UInt32) <<< 12) ||| (type.toNat.toUInt32 <<< 8)
    some (e0.toUInt64 ||| (e1.toUInt64 <<< 32))
  else none

/-- `make_intr_gate`. -/
def makeIntrGate (function : UInt32) (dpl : Int) : Option UInt64 :=
  makeGate function dpl 14

/-- `make_trap_gate`. -/
def makeTrapGate (function : UInt32) (dpl : Int) : Option UInt64 :=
  makeGate function dpl 15

/-- `make_idtr_operand`, the same operand as `lgdt`'s. -/
def makeIdtrOperand (limit : UInt16) (base : UInt32) : UInt64 :=
  makeGdtrOperand limit base

/-- `idt`, `intr_handlers` and the operand `intr_init` loads with `lidt`, over handlers of
type `H`. The names of `intr_names` are left out. -/
structure Intr (H : Type) where
  idt : Nat → UInt64
  handlers : Nat → Option H
  idtr : UInt64

section Model

variable {H : Type} (stubs : Nat → UInt32)

/-- The first loop of `intr_init` over the first I vectors, `intr_stubs` being STUBS. -/
def initGates : Nat → Option (Nat → UInt64)
  | 0 => some fun _ => 0
  | i + 1 => do
    let idt ← initGates i
    let gate ← makeIntrGate (stubs i) 0
    some (Function.update idt i gate)

/-- `intr_init` with the table at IDT: no handler registered yet. `pic_init` and the names
are left out. -/
def intrInit (idt : UInt32) : Option (Intr H) :=
  (initGates stubs intrCnt).map fun gates =>
    ⟨gates, fun _ => none, makeIdtrOperand (intrCnt * 8 - 1).toUInt16 idt⟩

/-- `register_handler`: a trap gate where the handler is to run with interrupts on, an
interrupt gate where off. -/
def registerHandler (s : Intr H) (vecNo : UInt8) (dpl : Int) (level : IntrLevel) (handler : H) :
    Option (Intr H) :=
  if s.handlers vecNo.toNat = none then
    (if level = .on then makeTrapGate (stubs vecNo.toNat) dpl
      else makeIntrGate (stubs vecNo.toNat) dpl).map fun gate =>
        { s with
          idt := Function.update s.idt vecNo.toNat gate
          handlers := Function.update s.handlers vecNo.toNat (some handler) }
  else none

/-- `intr_register_ext`: an external interrupt, run with interrupts off at privilege 0. -/
def intrRegisterExt (s : Intr H) (vecNo : UInt8) (handler : H) : Option (Intr H) :=
  if 0x20 ≤ vecNo ∧ vecNo ≤ 0x2f then registerHandler stubs s vecNo 0 .off handler else none

/-- `intr_register_int`: an internal interrupt, of any vector but the external ones. -/
def intrRegisterInt (s : Intr H) (vecNo : UInt8) (dpl : Int) (level : IntrLevel) (handler : H) :
    Option (Intr H) :=
  if vecNo < 0x20 ∨ vecNo > 0x2f then registerHandler stubs s vecNo dpl level handler else none

end Model

/-- A registration. -/
inductive IntrCall (H : Type) where
  | ext (vecNo : UInt8) (handler : H)
  | int (vecNo : UInt8) (dpl : Int) (level : IntrLevel) (handler : H)

namespace IntrCall

variable {H : Type}

/-- The vector a call registers. -/
def vec : IntrCall H → Nat
  | .ext vecNo _ => vecNo.toNat
  | .int vecNo _ _ _ => vecNo.toNat

/-- The privilege level the call passes to `register_handler`. -/
def dpl : IntrCall H → Int
  | .ext _ _ => 0
  | .int _ dpl _ _ => dpl

/-- The interrupt level the call passes to `register_handler`. -/
def level : IntrCall H → IntrLevel
  | .ext _ _ => .off
  | .int _ _ level _ => level

end IntrCall

/-- One registration. -/
def Intr.step {H : Type} (stubs : Nat → UInt32) (s : Intr H) : IntrCall H → Option (Intr H)
  | .ext vecNo handler => intrRegisterExt stubs s vecNo handler
  | .int vecNo dpl level handler => intrRegisterInt stubs s vecNo dpl level handler

/-! ### What the processor reads -/

/-- An interrupt or trap gate as the processor reads it ([IA32-v3a] 5.11): the handler's offset,
its code segment selector, the gate type, the S flag, DPL and P. -/
structure GateDesc where
  offset : Nat
  selector : Nat
  type : Nat
  s : Nat
  dpl : Nat
  p : Nat
  deriving DecidableEq, Repr

/-- The fields of a gate, from its low and high doublewords. -/
def decodeGate (d : UInt64) : GateDesc :=
  let lo := d.toNat % 2 ^ 32
  let hi := d.toNat / 2 ^ 32
  { offset := field lo 0 16 + field hi 16 16 * 2 ^ 16
    selector := field lo 16 16
    type := field hi 8 4
    s := field hi 12 1
    dpl := field hi 13 2
    p := field hi 15 1 }

/-- The interrupt flag in the handler, entered through gate G with IF at LEVEL: an interrupt
gate (type 14) clears it, a trap gate leaves it ([IA32-v3a] 5.12.1.2). -/
def GateDesc.entryLevel (g : GateDesc) (level : IntrLevel) : IntrLevel :=
  if g.type = 14 then .off else level

/-- Whether an `int` instruction at privilege level CPL may pass through gate G: the gate must
be present and its DPL at least CPL, or the processor raises #GP ([IA32-v3a] 5.12.1.1). -/
def GateDesc.allows (g : GateDesc) (cpl : Nat) : Prop :=
  g.p = 1 ∧ cpl ≤ g.dpl

instance (g : GateDesc) (cpl : Nat) : Decidable (g.allows cpl) :=
  inferInstanceAs (Decidable (_ ∧ _))

/-- The gate `intr_init` gives every vector: an interrupt gate of privilege 0 to its stub. -/
def defaultGate (stub : UInt32) : GateDesc :=
  ⟨stub.toNat, selKcseg, 14, 0, 0, 1⟩

/-- The gate a registration asks for at its vector, whose stub is STUB. -/
def IntrCall.gate {H : Type} (c : IntrCall H) (stub : UInt32) : GateDesc :=
  ⟨stub.toNat, selKcseg, if c.level = .on then 15 else 14, 0, c.dpl.toNat, 1⟩

/-- The gate the registrations CALLS leave at vector V: that of the one registration of V, or
`intr_init`'s. -/
def registeredGate {H : Type} (stubs : Nat → UInt32) (calls : List (IntrCall H)) (v : Nat) :
    GateDesc :=
  ((calls.find? (·.vec = v)).map (·.gate (stubs v))).getD (defaultGate (stubs v))

/-! ### The round trip of a gate -/

section Gate

variable (function : UInt32) (dpl type : Int)

theorem gateLow_toNat :
    ((function &&& (0xffff : UInt32)) ||| (selKcseg.toUInt32 <<< 16)).toNat =
      function.toNat % 2 ^ 16 ||| selKcseg * 2 ^ 16 := by
  have hoffset : (function &&& (0xffff : UInt32)).toNat = function.toNat % 2 ^ 16 := by
    rw [UInt32.toNat_and]
    exact Nat.and_two_pow_sub_one_eq_mod _ 16
  rw [UInt32.toNat_or, hoffset]
  rfl

theorem gateHigh_toNat (hd : dpl.toNat < 2 ^ 2) (ht : type.toNat < 2 ^ 4) :
    ((function &&& (0xffff0000 : UInt32)) ||| ((1 : UInt32) <<< 15) ||| (dpl.toNat.toUInt32 <<< 13)
      ||| ((0 : UInt32) <<< 12) ||| (type.toNat.toUInt32 <<< 8)).toNat =
    function.toNat / 2 ^ 16 % 2 ^ 16 * 2 ^ 16 ||| 1 * 2 ^ 15 ||| dpl.toNat * 2 ^ 13 ||| 0
      ||| type.toNat * 2 ^ 8 := by
  have hoffset : (function &&& (0xffff0000 : UInt32)).toNat = function.toNat / 2 ^ 16 % 2 ^ 16 * 2 ^ 16 := by
    rw [UInt32.toNat_and]
    exact and_range_mask _ 16 16
  have hdpl : (dpl.toNat.toUInt32 <<< 13).toNat = dpl.toNat * 2 ^ 13 := by
    rw [toNat_shiftLeft_of_lt _ _ (by decide), toNat_toUInt32_of_lt (by omega)]
    · rfl
    · rw [toNat_toUInt32_of_lt (by omega)]
      show _ * 2 ^ 13 < 2 ^ 32
      omega
  have htype : (type.toNat.toUInt32 <<< 8).toNat = type.toNat * 2 ^ 8 := by
    rw [toNat_shiftLeft_of_lt _ _ (by decide), toNat_toUInt32_of_lt (by omega)]
    · rfl
    · rw [toNat_toUInt32_of_lt (by omega)]
      show _ * 2 ^ 8 < 2 ^ 32
      omega
  have hpresent : ((1 : UInt32) <<< 15).toNat = 1 * 2 ^ 15 := rfl
  have hsystem : ((0 : UInt32) <<< 12).toNat = 0 := rfl
  simp only [UInt32.toNat_or, hoffset, hpresent, hdpl, hsystem, htype]

/-- The gate `make_gate` builds, as the processor reads it: present, a system descriptor,
entering the kernel code segment at FUNCTION, with the given type and privilege level. -/
theorem makeGate_decode {g : UInt64} (h : makeGate function dpl type = some g) :
    decodeGate g = ⟨function.toNat, selKcseg, type.toNat, 0, dpl.toNat, 1⟩ := by
  unfold makeGate at h
  split at h
  case isFalse => cases h
  case isTrue hok =>
    cases h
    obtain ⟨-, -, hd, -, ht⟩ := hok
    have hf := function.toNat_lt
    simp only [decodeGate, GateDesc.mk.injEq]
    rw [join_low, join_high, gateLow_toNat, gateHigh_toNat function dpl type (by omega) (by omega)]
    have hsel : selKcseg < 2 ^ 16 := by decide
    generalize selKcseg = sel at hsel ⊢
    simp (disch := omega) only [field_or, field_mul_two_pow_self, field_mul_two_pow_of_le,
      field_of_lt, field_zero_of_lt, Nat.or_zero, Nat.zero_or, and_true]
    omega

theorem makeGate_dpl {g : UInt64} (h : makeGate function dpl type = some g) : 0 ≤ dpl ∧ dpl ≤ 3 := by
  unfold makeGate at h
  split at h
  case isFalse => cases h
  case isTrue hok => exact ⟨hok.2.1, hok.2.2.1⟩

end Gate

/-! ### Registrations over whole runs -/

section Runs

variable {H : Type} {stubs : Nat → UInt32}

theorem initGates_gate {n : Nat} {gates : Nat → UInt64} (h : initGates stubs n = some gates)
    {v : Nat} (hv : v < n) : decodeGate (gates v) = defaultGate (stubs v) := by
  induction n generalizing gates with
  | zero => exact absurd hv (Nat.not_lt_zero v)
  | succ i ih =>
    obtain ⟨idt, hidt, h⟩ := Option.bind_eq_some_iff.mp h
    obtain ⟨gate, hgate, h⟩ := Option.bind_eq_some_iff.mp h
    cases h
    by_cases hvi : v = i
    · subst hvi
      rw [Function.update_self, makeGate_decode _ _ _ hgate]
      rfl
    · rw [Function.update_of_ne hvi]
      exact ih hidt (by omega)

/-- What `register_handler` does: once the vector has no handler, it sets the gate the handler
asks for and the handler, and touches no other vector. -/
theorem registerHandler_some {s s' : Intr H} {vecNo : UInt8} {dpl : Int} {level : IntrLevel}
    {handler : H} (h : registerHandler stubs s vecNo dpl level handler = some s') :
    s.handlers vecNo.toNat = none ∧ 0 ≤ dpl ∧ dpl ≤ 3 ∧
      decodeGate (s'.idt vecNo.toNat) =
        ⟨(stubs vecNo.toNat).toNat, selKcseg, if level = .on then 15 else 14, 0, dpl.toNat, 1⟩ ∧
      s'.handlers vecNo.toNat = some handler ∧
      ∀ v, v ≠ vecNo.toNat → s'.idt v = s.idt v ∧ s'.handlers v = s.handlers v := by
  unfold registerHandler at h
  split at h
  case isFalse => cases h
  case isTrue hfree =>
    obtain ⟨gate, hgate, h⟩ := Option.map_eq_some_iff.mp h
    cases h
    have hmake : makeGate (stubs vecNo.toNat) dpl (if level = .on then 15 else 14) = some gate := by
      by_cases hl : level = .on
      · rw [if_pos hl] at hgate ⊢
        exact hgate
      · rw [if_neg hl] at hgate ⊢
        exact hgate
    refine ⟨hfree, (makeGate_dpl _ _ _ hmake).1, (makeGate_dpl _ _ _ hmake).2, ?_,
      Function.update_self .., fun v hv => ⟨Function.update_of_ne hv .., Function.update_of_ne hv ..⟩⟩
    dsimp only
    rw [Function.update_self, makeGate_decode _ _ _ hmake]
    by_cases hl : level = .on <;> simp [hl]

/-- What one registration does, in terms of the call: it needs a vector without a handler and a
privilege level from 0 to 3, registers an external vector only at privilege 0 with interrupts
off, sets the call's gate at its vector and leaves every other vector alone. -/
theorem Intr.step_some {s s' : Intr H} {c : IntrCall H} (h : Intr.step stubs s c = some s') :
    (0x20 ≤ c.vec → c.vec ≤ 0x2f → c.level = .off ∧ c.dpl = 0) ∧ 0 ≤ c.dpl ∧ c.dpl ≤ 3 ∧
      s.handlers c.vec = none ∧ decodeGate (s'.idt c.vec) = c.gate (stubs c.vec) ∧
      s'.handlers c.vec ≠ none ∧
      ∀ v, v ≠ c.vec → s'.idt v = s.idt v ∧ s'.handlers v = s.handlers v := by
  cases c with
  | ext vecNo handler =>
    rw [Intr.step, intrRegisterExt] at h
    split at h
    case isFalse => cases h
    case isTrue =>
      obtain ⟨hfree, hd0, hd3, hgate, hset, hother⟩ := registerHandler_some h
      exact ⟨fun _ _ => ⟨rfl, rfl⟩, hd0, hd3, hfree, hgate, by rw [IntrCall.vec, hset]; simp, hother⟩
  | int vecNo dpl level handler =>
    rw [Intr.step, intrRegisterInt] at h
    split at h
    case isFalse => cases h
    case isTrue hvec =>
      obtain ⟨hfree, hd0, hd3, hgate, hset, hother⟩ := registerHandler_some h
      have hout : ¬(0x20 ≤ vecNo.toNat ∧ vecNo.toNat ≤ 0x2f) := by
        rcases hvec with hlt | hgt
        · have := UInt8.lt_iff_toNat_lt.mp hlt
          exact fun hin => absurd hin.1 (by simp only [UInt8.reduceToNat] at this; omega)
        · have := UInt8.lt_iff_toNat_lt.mp hgt
          exact fun hin => absurd hin.2 (by simp only [UInt8.reduceToNat] at this; omega)
      exact ⟨fun h1 h2 => absurd ⟨h1, h2⟩ hout, hd0, hd3, hfree, hgate,
        by rw [IntrCall.vec, hset]; simp, hother⟩

/-- Over a run of registrations: no vector is registered twice or had a handler before, every
call is one `register_handler` accepts, and each vector's gate is that of its one registration,
or what it was before the run. -/
theorem runs_registered {s s' : Intr H} {calls : List (IntrCall H)}
    (h : runs (Intr.step stubs) s calls = some s') :
    (∀ c ∈ calls, s.handlers c.vec = none) ∧ (calls.map IntrCall.vec).Nodup ∧
      (∀ c ∈ calls, (0x20 ≤ c.vec → c.vec ≤ 0x2f → c.level = .off ∧ c.dpl = 0) ∧
        0 ≤ c.dpl ∧ c.dpl ≤ 3) ∧
      ∀ v, decodeGate (s'.idt v) =
        ((calls.find? (·.vec = v)).map (·.gate (stubs v))).getD (decodeGate (s.idt v)) := by
  induction calls generalizing s with
  | nil =>
    cases h
    exact ⟨fun _ h => absurd h List.not_mem_nil, List.nodup_nil, fun _ h => absurd h List.not_mem_nil,
      fun _ => rfl⟩
  | cons c cs ih =>
    obtain ⟨t, ht, hrest⟩ := Option.bind_eq_some_iff.mp h
    obtain ⟨hext, hd0, hd3, hfree, hgate, hset, hother⟩ := Intr.step_some ht
    obtain ⟨hfree', hnodup, hvalid, hgates⟩ := ih hrest
    have hnot : ∀ c' ∈ cs, c'.vec ≠ c.vec := fun c' hc' heq => hset (heq ▸ hfree' c' hc')
    refine ⟨?_, ?_, ?_, ?_⟩
    · intro c' hc'
      rcases List.mem_cons.mp hc' with rfl | hc'
      · exact hfree
      · rw [← (hother c'.vec (hnot c' hc')).2]
        exact hfree' c' hc'
    · refine List.nodup_cons.mpr ⟨fun hmem => ?_, hnodup⟩
      obtain ⟨c', hc', heq⟩ := List.mem_map.mp hmem
      exact hnot c' hc' heq
    · intro c' hc'
      rcases List.mem_cons.mp hc' with rfl | hc'
      · exact ⟨hext, hd0, hd3⟩
      · exact hvalid c' hc'
    · intro v
      rw [hgates v, List.find?_cons]
      by_cases hv : c.vec = v
      · subst hv
        have hnone : cs.find? (·.vec = c.vec) = none :=
          List.find?_eq_none.mpr fun c' hc' heq => hnot c' hc' (of_decide_eq_true heq)
        rw [hnone, decide_eq_true rfl]
        exact hgate
      · rw [decide_eq_false hv, (hother v (Ne.symm hv)).1]

theorem registeredGate_of_find {calls : List (IntrCall H)} {v : Nat} {c : IntrCall H}
    (hc : calls.find? (·.vec = v) = some c) : registeredGate stubs calls v = c.gate (stubs v) := by
  rw [registeredGate, hc]
  rfl

theorem registeredGate_of_none {calls : List (IntrCall H)} {v : Nat}
    (hc : calls.find? (·.vec = v) = none) : registeredGate stubs calls v = defaultGate (stubs v) := by
  rw [registeredGate, hc]
  rfl

/-- After `intr_init` and a run of registrations: the registrations are of distinct vectors,
each accepted by its ASSERTs, and every vector's gate is the one its registration asked for. -/
theorem intrInit_runs {idt : UInt32} {calls : List (IntrCall H)} {s : Intr H}
    (h : (intrInit stubs idt).bind (runs (Intr.step stubs) · calls) = some s) :
    (calls.map IntrCall.vec).Nodup ∧
      (∀ c ∈ calls, (0x20 ≤ c.vec → c.vec ≤ 0x2f → c.level = .off ∧ c.dpl = 0) ∧
        0 ≤ c.dpl ∧ c.dpl ≤ 3) ∧
      ∀ v < intrCnt, decodeGate (s.idt v) = registeredGate stubs calls v := by
  obtain ⟨s0, hinit, hrun⟩ := Option.bind_eq_some_iff.mp h
  obtain ⟨gates, hgates, rfl⟩ := Option.map_eq_some_iff.mp hinit
  obtain ⟨-, hnodup, hvalid, hgate⟩ := runs_registered hrun
  refine ⟨hnodup, hvalid, fun v hv => ?_⟩
  rw [hgate v, initGates_gate hgates hv]
  rfl

end Runs

/-! ### The table the processor uses -/

/-- The registrations of Pintos's boot, in the order of init.c: `timer_init`, `kbd_init`,
`exception_init`, `syscall_init`, `serial_init_queue` and `ide_init` (the handlers by name). -/
def bootRegistrations : List (IntrCall String) :=
  [.ext 0x20 "timer_interrupt", .ext 0x21 "keyboard_interrupt",
    .int 3 3 .on "kill", .int 4 3 .on "kill", .int 5 3 .on "kill",
    .int 0 0 .on "kill", .int 1 0 .on "kill", .int 6 0 .on "kill", .int 7 0 .on "kill",
    .int 11 0 .on "kill", .int 12 0 .on "kill", .int 13 0 .on "kill", .int 16 0 .on "kill",
    .int 19 0 .on "kill", .int 14 0 .off "page_fault",
    .int 0x30 3 .on "syscall_handler",
    .ext 0x24 "serial_interrupt", .ext 0x2e "interrupt_handler", .ext 0x2f "interrupt_handler"]

/-- Stubs at 16-byte steps in kernel text, standing for intr-stubs.S's. -/
def sampleStubs (v : Nat) : UInt32 := (0xc0021000 + 16 * v).toUInt32

section Boot

variable {H : Type} {stubs : Nat → UInt32} {idt : UInt32} {calls : List (IntrCall H)} {s : Intr H}

/-- After `intr_init` and any run of registrations, every vector's gate is the one its
registration asked for, or `intr_init`'s; and whatever the TSS, its selector names in the table
`gdt_init` builds a present readable code segment of privilege 0 based at 0 over the whole 4 GB:
every interrupt enters ring 0 at the linear address of its vector's stub. -/
theorem interrupts_enter_kernel_code
    (h : (intrInit stubs idt).bind (runs (Intr.step stubs) · calls) = some s) (tss gdt : UInt32)
    {v : Nat} (hv : v < intrCnt) :
    decodeGate (s.idt v) = registeredGate stubs calls v ∧
      ∃ table gdtr, gdtInit tss gdt = some (table, gdtr) ∧
        ∃ d, segmentOf table (decodeGate (s.idt v)).selector = some d ∧ d.Flat 10 0 := by
  obtain ⟨-, -, hgates⟩ := intrInit_runs h
  obtain ⟨table, hinit, -, hkc, -⟩ := gdtInit_segments tss gdt
  have hsel : (registeredGate stubs calls v).selector = selKcseg := by
    cases hc : calls.find? (·.vec = v) with
    | none => rw [registeredGate_of_none hc]; rfl
    | some c => rw [registeredGate_of_find hc]; rfl
  refine ⟨hgates v hv, table, _, hinit, flatDesc 10 0, ?_, flatDesc_flat 10 0⟩
  rw [hgates v hv, hsel, hkc]

theorem interrupts_enter_kernel_code_boot :
    ∃ s, (intrInit sampleStubs 0xc003a000).bind (runs (Intr.step sampleStubs) · bootRegistrations) = some s ∧
      decodeGate (s.idt 0x30) = registeredGate sampleStubs bootRegistrations 0x30 ∧
      ∃ table gdtr, gdtInit 0xc0101000 0xc003b000 = some (table, gdtr) ∧
        ∃ d, segmentOf table (decodeGate (s.idt 0x30)).selector = some d ∧ d.Flat 10 0 := by
  obtain ⟨s, hs⟩ : ∃ s, (intrInit sampleStubs 0xc003a000).bind
      (runs (Intr.step sampleStubs) · bootRegistrations) = some s :=
    Option.isSome_iff_exists.mp (by decide +kernel)
  exact ⟨s, hs, interrupts_enter_kernel_code hs 0xc0101000 0xc003b000 (by decide)⟩

/-- External interrupts (vectors `0x20` to `0x2f`) always enter their handler with interrupts
off, whatever the interrupt flag was, so the ASSERT at the top of `intr_handler`'s external
branch holds; and no `int` from user mode reaches them. -/
theorem external_interrupts_enter_masked
    (h : (intrInit stubs idt).bind (runs (Intr.step stubs) · calls) = some s) {v : Nat}
    (hlo : 0x20 ≤ v) (hhi : v ≤ 0x2f) :
    ∀ level, (decodeGate (s.idt v)).entryLevel level = .off ∧ ¬(decodeGate (s.idt v)).allows 3 := by
  obtain ⟨-, hvalid, hgates⟩ := intrInit_runs h
  rw [hgates v (by unfold intrCnt; omega)]
  have hgate : (registeredGate stubs calls v).type = 14 ∧ (registeredGate stubs calls v).dpl = 0 := by
    cases hc : calls.find? (·.vec = v) with
    | none =>
      rw [registeredGate_of_none hc]
      exact ⟨rfl, rfl⟩
    | some c =>
      have hcv : c.vec = v := by simpa using List.find?_some hc
      obtain ⟨hoff, hd0⟩ := (hvalid c (List.mem_of_find?_eq_some hc)).1 (hcv ▸ hlo) (hcv ▸ hhi)
      rw [registeredGate_of_find hc]
      simp [IntrCall.gate, hoff, hd0]
  intro level
  refine ⟨by rw [GateDesc.entryLevel, if_pos hgate.1], ?_⟩
  rintro ⟨-, h3⟩
  rw [hgate.2] at h3
  exact absurd h3 (by decide)

theorem external_interrupts_enter_masked_boot :
    ∃ s, (intrInit sampleStubs 0xc003a000).bind (runs (Intr.step sampleStubs) · bootRegistrations) = some s ∧
      (decodeGate (s.idt 0x20)).entryLevel .on = .off ∧ ¬(decodeGate (s.idt 0x20)).allows 3 := by
  obtain ⟨s, hs⟩ : ∃ s, (intrInit sampleStubs 0xc003a000).bind
      (runs (Intr.step sampleStubs) · bootRegistrations) = some s :=
    Option.isSome_iff_exists.mp (by decide +kernel)
  exact ⟨s, hs, external_interrupts_enter_masked hs (by decide) (by decide) .on⟩

/-- An `int` instruction in user mode (privilege 3) passes the gate of vector V exactly when V
was registered by `intr_register_int` with privilege level 3; every other vector raises #GP. -/
theorem user_int_reaches_registered
    (h : (intrInit stubs idt).bind (runs (Intr.step stubs) · calls) = some s) {v : Nat}
    (hv : v < intrCnt) :
    (decodeGate (s.idt v)).allows 3 ↔ ∃ c ∈ calls, c.vec = v ∧ c.dpl = 3 := by
  obtain ⟨hnodup, hvalid, hgates⟩ := intrInit_runs h
  rw [hgates v hv]
  cases hc : calls.find? (·.vec = v) with
  | none =>
    rw [registeredGate_of_none hc]
    constructor
    · rintro ⟨-, h3⟩
      exact ((by decide : ¬3 ≤ 0) h3).elim
    · rintro ⟨c, hmem, hcv, -⟩
      exact (List.find?_eq_none.mp hc c hmem (decide_eq_true hcv)).elim
  | some c =>
    have hcv : c.vec = v := by simpa using List.find?_some hc
    have hmem := List.mem_of_find?_eq_some hc
    obtain ⟨-, hd0, hd3⟩ := hvalid c hmem
    rw [registeredGate_of_find hc]
    constructor
    · rintro ⟨-, h3⟩
      exact ⟨c, hmem, hcv, by simp only [IntrCall.gate] at h3; omega⟩
    · rintro ⟨c', hmem', hcv', hd'⟩
      obtain rfl := List.inj_on_of_nodup_map hnodup hmem' hmem (hcv'.trans hcv.symm)
      exact ⟨rfl, by simp only [IntrCall.gate]; omega⟩

theorem user_int_reaches_registered_boot :
    ∃ s, (intrInit sampleStubs 0xc003a000).bind (runs (Intr.step sampleStubs) · bootRegistrations) = some s ∧
      ((decodeGate (s.idt 0x30)).allows 3 ↔ ∃ c ∈ bootRegistrations, c.vec = 0x30 ∧ c.dpl = 3) := by
  obtain ⟨s, hs⟩ : ∃ s, (intrInit sampleStubs 0xc003a000).bind
      (runs (Intr.step sampleStubs) · bootRegistrations) = some s :=
    Option.isSome_iff_exists.mp (by decide +kernel)
  exact ⟨s, hs, user_int_reaches_registered hs (by decide)⟩

end Boot

end Pintos.Threads
