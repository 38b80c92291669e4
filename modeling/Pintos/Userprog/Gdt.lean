import Pintos.Kit.Fields

/-! The global descriptor table of userprog/gdt.c. `make_seg_desc` packs a segment's base,
limit, class, type, privilege level and granularity into the two doublewords of an i386 segment
descriptor, which the processor reads back field by field ([IA32-v3a] 3.4.5). Every field comes
back as it went in, and `gdt_init` fills the table so that each selector of threads/loader.h
and userprog/gdt.h names a present segment of its own privilege: flat 4 GB code and data for
rings 0 and 3, and the task-state segment. -/
namespace Pintos.Userprog

open Pintos.Kit

/-- `enum seg_class`. -/
inductive SegClass where
  | system
  | codeData
  deriving DecidableEq, Repr

/-- `CLS_SYSTEM` and `CLS_CODE_DATA`. -/
def SegClass.val : SegClass → UInt32
  | .system => 0
  | .codeData => 1

/-- `enum seg_granularity`. -/
inductive SegGranularity where
  | byte
  | page
  deriving DecidableEq, Repr

/-- `GRAN_BYTE` and `GRAN_PAGE`. -/
def SegGranularity.val : SegGranularity → UInt32
  | .byte => 0
  | .page => 1

/-! Selectors, threads/loader.h and userprog/gdt.h. -/

def selNull : Nat := 0x00
def selKcseg : Nat := 0x08
def selKdseg : Nat := 0x10
def selUcseg : Nat := 0x1B
def selUdseg : Nat := 0x23
def selTss : Nat := 0x28
def selCnt : Nat := 6

/-- `make_seg_desc`: `none` where one of its ASSERTs fails. The ASSERTs on CLASS and
GRANULARITY hold of every value of the enumerations; TYPE and DPL are `int`s, converted to
`uint32_t` by the ors once they are known to be in range. -/
def makeSegDesc (base limit : UInt32) (cls : SegClass) (type dpl : Int)
    (granularity : SegGranularity) : Option UInt64 :=
  if limit ≤ 0xfffff ∧ 0 ≤ type ∧ type ≤ 15 ∧ 0 ≤ dpl ∧ dpl ≤ 3 then
    let e0 : UInt32 := (limit &&& (0xffff : UInt32)) ||| (base <<< 16)
    let e1 : UInt32 := ((base >>> 16) &&& (0xff : UInt32)) ||| (type.toNat.toUInt32 <<< 8)
      ||| (cls.val <<< 12) ||| (dpl.toNat.toUInt32 <<< 13) ||| ((1 : UInt32) <<< 15)
      ||| (limit &&& (0xf0000 : UInt32)) ||| ((1 : UInt32) <<< 22) ||| (granularity.val <<< 23)
      ||| (base &&& (0xff000000 : UInt32))
    some (e0.toUInt64 ||| (e1.toUInt64 <<< 32))
  else none

/-- `make_code_desc`: a readable code segment based at 0 with a limit of 4 GB. -/
def makeCodeDesc (dpl : Int) : Option UInt64 :=
  makeSegDesc 0 0xfffff .codeData 10 dpl .page

/-- `make_data_desc`: a writable data segment based at 0 with a limit of 4 GB. -/
def makeDataDesc (dpl : Int) : Option UInt64 :=
  makeSegDesc 0 0xfffff .codeData 2 dpl .page

/-- `make_tss_desc`: an available 32-bit TSS at LADDR, `0x67` bytes long. -/
def makeTssDesc (laddr : UInt32) : Option UInt64 :=
  makeSegDesc laddr 0x67 .system 9 0 .byte

/-- `make_gdtr_operand`. -/
def makeGdtrOperand (limit : UInt16) (base : UInt32) : UInt64 :=
  limit.toUInt64 ||| (base.toUInt64 <<< 16)

/-- `gdt_init` with `tss_get ()` at TSS and the table at GDT: the table and the operand of
`lgdt`. The table is static, so it starts all zero. -/
def gdtInit (tss gdt : UInt32) : Option (Vector UInt64 selCnt × UInt64) := do
  let kcseg ← makeCodeDesc 0
  let kdseg ← makeDataDesc 0
  let ucseg ← makeCodeDesc 3
  let udseg ← makeDataDesc 3
  let tssDesc ← makeTssDesc tss
  let table := (Vector.replicate selCnt (0 : UInt64))
    |>.set (selNull / 8) 0 (by decide)
    |>.set (selKcseg / 8) kcseg (by decide)
    |>.set (selKdseg / 8) kdseg (by decide)
    |>.set (selUcseg / 8) ucseg (by decide)
    |>.set (selUdseg / 8) udseg (by decide)
    |>.set (selTss / 8) tssDesc (by decide)
  some (table, makeGdtrOperand (selCnt * 8 - 1).toUInt16 gdt)

/-! ### What the processor reads -/

/-- A segment descriptor as the processor reads it: base, the 20-bit limit, type, the S flag
(0 system, 1 code or data), DPL, and the P, AVL, L, D/B and G flags. -/
structure SegDesc where
  base : Nat
  limit : Nat
  type : Nat
  s : Nat
  dpl : Nat
  p : Nat
  avl : Nat
  l : Nat
  db : Nat
  g : Nat
  deriving DecidableEq, Repr

/-- The fields of a descriptor, from its low and high doublewords. -/
def decodeSeg (d : UInt64) : SegDesc :=
  let lo := d.toNat % 2 ^ 32
  let hi := d.toNat / 2 ^ 32
  { base := field lo 16 16 + field hi 0 8 * 2 ^ 16 + field hi 24 8 * 2 ^ 24
    limit := field lo 0 16 + field hi 16 4 * 2 ^ 16
    type := field hi 8 4
    s := field hi 12 1
    dpl := field hi 13 2
    p := field hi 15 1
    avl := field hi 20 1
    l := field hi 21 1
    db := field hi 22 1
    g := field hi 23 1 }

/-- The last byte offset of the segment: the limit counts 4 kB pages when G is set. -/
def SegDesc.limitBytes (d : SegDesc) : Nat :=
  if d.g = 1 then d.limit * 2 ^ 12 + 0xfff else d.limit

/-! ### The round trip -/

section Layout

variable (base limit : UInt32) (cls : SegClass) (type dpl : Int) (granularity : SegGranularity)

theorem segLow_toNat :
    ((limit &&& (0xffff : UInt32)) ||| (base <<< 16)).toNat =
      limit.toNat % 2 ^ 16 ||| base.toNat % 2 ^ 16 * 2 ^ 16 := by
  have hlimit : (limit &&& (0xffff : UInt32)).toNat = limit.toNat % 2 ^ 16 := by
    rw [UInt32.toNat_and]
    exact Nat.and_two_pow_sub_one_eq_mod _ 16
  have hbase : (base <<< 16).toNat = base.toNat % 2 ^ 16 * 2 ^ 16 := by
    rw [UInt32.toNat_shiftLeft, Nat.shiftLeft_eq, show (16 : UInt32).toNat % 32 = 16 from rfl,
      show 2 ^ 32 = 2 ^ 16 * 2 ^ 16 from rfl, Nat.mul_mod_mul_right]
  rw [UInt32.toNat_or, hlimit, hbase]

theorem segHigh_toNat (ht : type.toNat < 2 ^ 4) (hd : dpl.toNat < 2 ^ 2) :
    (((base >>> 16) &&& (0xff : UInt32)) ||| (type.toNat.toUInt32 <<< 8) ||| (cls.val <<< 12)
      ||| (dpl.toNat.toUInt32 <<< 13) ||| ((1 : UInt32) <<< 15) ||| (limit &&& (0xf0000 : UInt32))
      ||| ((1 : UInt32) <<< 22) ||| (granularity.val <<< 23) ||| (base &&& (0xff000000 : UInt32))).toNat =
    base.toNat / 2 ^ 16 % 2 ^ 8 ||| type.toNat * 2 ^ 8 ||| cls.val.toNat * 2 ^ 12 ||| dpl.toNat * 2 ^ 13
      ||| 1 * 2 ^ 15 ||| limit.toNat / 2 ^ 16 % 2 ^ 4 * 2 ^ 16 ||| 1 * 2 ^ 22
      ||| granularity.val.toNat * 2 ^ 23 ||| base.toNat / 2 ^ 24 % 2 ^ 8 * 2 ^ 24 := by
  have hc : cls.val.toNat < 2 := by cases cls <;> decide
  have hg : granularity.val.toNat < 2 := by cases granularity <;> decide
  have hbaseMid : ((base >>> 16) &&& (0xff : UInt32)).toNat = base.toNat / 2 ^ 16 % 2 ^ 8 := by
    rw [UInt32.toNat_and, UInt32.toNat_shiftRight, Nat.shiftRight_eq_div_pow]
    exact Nat.and_two_pow_sub_one_eq_mod _ 8
  have htype : (type.toNat.toUInt32 <<< 8).toNat = type.toNat * 2 ^ 8 := by
    rw [toNat_shiftLeft_of_lt _ _ (by decide), toNat_toUInt32_of_lt (by omega)]
    · rfl
    · rw [toNat_toUInt32_of_lt (by omega)]
      show _ * 2 ^ 8 < 2 ^ 32
      omega
  have hcls : (cls.val <<< 12).toNat = cls.val.toNat * 2 ^ 12 :=
    toNat_shiftLeft_of_lt _ _ (by decide) (by show _ * 2 ^ 12 < 2 ^ 32; omega)
  have hdpl : (dpl.toNat.toUInt32 <<< 13).toNat = dpl.toNat * 2 ^ 13 := by
    rw [toNat_shiftLeft_of_lt _ _ (by decide), toNat_toUInt32_of_lt (by omega)]
    · rfl
    · rw [toNat_toUInt32_of_lt (by omega)]
      show _ * 2 ^ 13 < 2 ^ 32
      omega
  have hlimitHigh : (limit &&& (0xf0000 : UInt32)).toNat = limit.toNat / 2 ^ 16 % 2 ^ 4 * 2 ^ 16 := by
    rw [UInt32.toNat_and]
    exact and_range_mask _ 16 4
  have hgran : (granularity.val <<< 23).toNat = granularity.val.toNat * 2 ^ 23 :=
    toNat_shiftLeft_of_lt _ _ (by decide) (by show _ * 2 ^ 23 < 2 ^ 32; omega)
  have hbaseHigh : (base &&& (0xff000000 : UInt32)).toNat = base.toNat / 2 ^ 24 % 2 ^ 8 * 2 ^ 24 := by
    rw [UInt32.toNat_and]
    exact and_range_mask _ 24 8
  have hpresent : ((1 : UInt32) <<< 15).toNat = 1 * 2 ^ 15 := rfl
  have hdb : ((1 : UInt32) <<< 22).toNat = 1 * 2 ^ 22 := rfl
  simp only [UInt32.toNat_or, hbaseMid, htype, hcls, hdpl, hpresent, hlimitHigh, hdb, hgran, hbaseHigh]

end Layout

/-- Where its ASSERTs hold, `make_seg_desc` builds a descriptor whose fields the processor reads
back as given, the segment present and 32-bit. -/
theorem makeSegDesc_decode (base limit : UInt32) (cls : SegClass) (type dpl : Int)
    (granularity : SegGranularity) (hl : limit ≤ 0xfffff) (ht : 0 ≤ type ∧ type ≤ 15)
    (hd : 0 ≤ dpl ∧ dpl ≤ 3) :
    ∃ desc, makeSegDesc base limit cls type dpl granularity = some desc ∧
      decodeSeg desc = ⟨base.toNat, limit.toNat, type.toNat, cls.val.toNat, dpl.toNat, 1, 0, 0, 1,
        granularity.val.toNat⟩ := by
  refine ⟨_, if_pos ⟨hl, ht.1, ht.2, hd.1, hd.2⟩, ?_⟩
  have hlimit : limit.toNat < 2 ^ 20 := by
    have : limit.toNat ≤ 0xfffff := hl
    omega
  have hc : cls.val.toNat < 2 := by cases cls <;> decide
  have hg : granularity.val.toNat < 2 := by cases granularity <;> decide
  have hb := base.toNat_lt
  simp only [decodeSeg, SegDesc.mk.injEq]
  rw [join_low, join_high, segLow_toNat, segHigh_toNat base limit cls type dpl granularity
    (by omega) (by omega)]
  simp (disch := omega) only [field_or, field_mul_two_pow_self, field_mul_two_pow_of_le,
    field_of_lt, field_zero_of_lt, Nat.or_zero, Nat.zero_or, and_true]
  exact ⟨by omega, by omega⟩

/-- The processor reads back from `make_seg_desc`'s descriptor exactly the base, limit, class,
type, privilege level and granularity it was given, with the segment present and 32-bit; and
`make_seg_desc` fails exactly when one of its ASSERTs does. -/
theorem decodeSeg_makeSegDesc (base limit : UInt32) (cls : SegClass) (type dpl : Int)
    (granularity : SegGranularity) :
    (makeSegDesc base limit cls type dpl granularity).map decodeSeg =
      if limit ≤ 0xfffff ∧ 0 ≤ type ∧ type ≤ 15 ∧ 0 ≤ dpl ∧ dpl ≤ 3 then
        some ⟨base.toNat, limit.toNat, type.toNat, cls.val.toNat, dpl.toNat, 1, 0, 0, 1,
          granularity.val.toNat⟩
      else none := by
  by_cases h : limit ≤ 0xfffff ∧ 0 ≤ type ∧ type ≤ 15 ∧ 0 ≤ dpl ∧ dpl ≤ 3
  · obtain ⟨desc, hdesc, hdecode⟩ := makeSegDesc_decode base limit cls type dpl granularity h.1
      ⟨h.2.1, h.2.2.1⟩ ⟨h.2.2.2.1, h.2.2.2.2⟩
    rw [hdesc, Option.map_some, hdecode, if_pos h]
  · rw [makeSegDesc, if_neg h, if_neg h]
    rfl

/-! ### The table -/

/-- The descriptor a selector names in the table: entry `sel >> 3`, a GDT selector having TI
clear. -/
def segmentOf (table : Vector UInt64 selCnt) (sel : Nat) : Option SegDesc :=
  table.toList[sel / 8]?.map decodeSeg

/-- A present 32-bit code or data segment of the given type and privilege level, based at 0
and reaching the last byte of the 4 GB address space. -/
def SegDesc.Flat (d : SegDesc) (type dpl : Nat) : Prop :=
  d.p = 1 ∧ d.s = 1 ∧ d.type = type ∧ d.dpl = dpl ∧ d.db = 1 ∧ d.base = 0 ∧
    d.limitBytes = 2 ^ 32 - 1

/-- What the processor reads from `make_code_desc` and `make_data_desc`'s descriptors. -/
def flatDesc (type dpl : Nat) : SegDesc :=
  ⟨0, 0xfffff, type, 1, dpl, 1, 0, 0, 1, 1⟩

theorem flatDesc_flat (type dpl : Nat) : (flatDesc type dpl).Flat type dpl := by
  have hlimit : (flatDesc type dpl).limitBytes = 2 ^ 32 - 1 := by
    show (if (1 : Nat) = 1 then 0xfffff * 2 ^ 12 + 0xfff else 0xfffff) = 2 ^ 32 - 1
    decide
  exact ⟨rfl, rfl, rfl, rfl, rfl, rfl, hlimit⟩

theorem makeGdtrOperand_toNat (limit : UInt16) (base : UInt32) :
    (makeGdtrOperand limit base).toNat = limit.toNat ||| base.toNat * 2 ^ 16 := by
  have hb := base.toNat_lt
  have hshift : (base.toUInt64 <<< 16).toNat = base.toNat * 2 ^ 16 := by
    rw [UInt64.toNat_shiftLeft, Nat.shiftLeft_eq, show (16 : UInt64).toNat % 64 = 16 from rfl,
      UInt32.toNat_toUInt64, Nat.mod_eq_of_lt (by omega)]
  rw [makeGdtrOperand, UInt64.toNat_or, hshift, UInt16.toNat_toUInt64]

theorem makeGdtrOperand_fields (limit : UInt16) (base : UInt32) :
    field (makeGdtrOperand limit base).toNat 0 16 = limit.toNat ∧
      field (makeGdtrOperand limit base).toNat 16 32 = base.toNat := by
  have hl := limit.toNat_lt
  have hb := base.toNat_lt
  rw [makeGdtrOperand_toNat]
  simp (disch := omega) only [field_or, field_zero_of_lt, field_of_lt, field_mul_two_pow_of_le,
    field_mul_two_pow_self, Nat.or_zero, Nat.zero_or, and_self]

theorem gdtInit_segments (tss gdt : UInt32) :
    ∃ table, gdtInit tss gdt = some (table, makeGdtrOperand (selCnt * 8 - 1).toUInt16 gdt) ∧
      segmentOf table selNull = some (decodeSeg 0) ∧
      segmentOf table selKcseg = some (flatDesc 10 0) ∧
      segmentOf table selKdseg = some (flatDesc 2 0) ∧
      segmentOf table selUcseg = some (flatDesc 10 3) ∧
      segmentOf table selUdseg = some (flatDesc 2 3) ∧
      segmentOf table selTss = some ⟨tss.toNat, 0x67, 9, 0, 0, 1, 0, 0, 1, 0⟩ := by
  obtain ⟨kc, hkc, dkc⟩ :=
    makeSegDesc_decode 0 0xfffff .codeData 10 0 .page (by decide) (by decide) (by decide)
  obtain ⟨kd, hkd, dkd⟩ :=
    makeSegDesc_decode 0 0xfffff .codeData 2 0 .page (by decide) (by decide) (by decide)
  obtain ⟨uc, huc, duc⟩ :=
    makeSegDesc_decode 0 0xfffff .codeData 10 3 .page (by decide) (by decide) (by decide)
  obtain ⟨ud, hud, dud⟩ :=
    makeSegDesc_decode 0 0xfffff .codeData 2 3 .page (by decide) (by decide) (by decide)
  obtain ⟨ts, hts, dts⟩ :=
    makeSegDesc_decode tss 0x67 .system 9 0 .byte (by decide) (by decide) (by decide)
  refine ⟨?table, ?init, ?null, ?_⟩
  case init =>
    simp only [gdtInit, makeCodeDesc, makeDataDesc, makeTssDesc, hkc, hkd, huc, hud, hts]
    rfl
  case null => rfl
  simp only [segmentOf]
  exact ⟨congrArg some dkc, congrArg some dkd, congrArg some duc, congrArg some dud,
    congrArg some dts⟩

/-- Whatever the address of the TSS, `gdt_init` builds its table, and each selector of
threads/loader.h and userprog/gdt.h names a present descriptor whose privilege level is the
selector's own: the kernel and user code and data selectors flat 4 GB segments, readable code
(type 10) and writable data (type 2), and `SEL_TSS` the 32-bit TSS (type 9), `0x67` bytes at
the TSS. The null selector's entry is not present, and `lgdt` is given the table's last byte
and its address. -/
theorem gdt_init_selectors (tss gdt : UInt32) :
    ∃ table gdtr, gdtInit tss gdt = some (table, gdtr) ∧
      (segmentOf table selNull).map (·.p) = some 0 ∧
      (∃ d, segmentOf table selKcseg = some d ∧ d.Flat 10 (selKcseg % 4)) ∧
      (∃ d, segmentOf table selKdseg = some d ∧ d.Flat 2 (selKdseg % 4)) ∧
      (∃ d, segmentOf table selUcseg = some d ∧ d.Flat 10 (selUcseg % 4)) ∧
      (∃ d, segmentOf table selUdseg = some d ∧ d.Flat 2 (selUdseg % 4)) ∧
      segmentOf table selTss = some ⟨tss.toNat, 0x67, 9, 0, selTss % 4, 1, 0, 0, 1, 0⟩ ∧
      field gdtr.toNat 0 16 = selCnt * 8 - 1 ∧ field gdtr.toNat 16 32 = gdt.toNat := by
  obtain ⟨table, hinit, hnull, hkc, hkd, huc, hud, hts⟩ := gdtInit_segments tss gdt
  obtain ⟨hlimit, hbase⟩ := makeGdtrOperand_fields (selCnt * 8 - 1).toUInt16 gdt
  exact ⟨table, _, hinit, by rw [hnull]; rfl, ⟨_, hkc, flatDesc_flat 10 0⟩, ⟨_, hkd, flatDesc_flat 2 0⟩,
    ⟨_, huc, flatDesc_flat 10 3⟩, ⟨_, hud, flatDesc_flat 2 3⟩, hts, hlimit, hbase⟩

end Pintos.Userprog
