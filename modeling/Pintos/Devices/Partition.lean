import Mathlib

/-! The partition scan of devices/partition.c: `read_partition_table` recursing through the
extended partition tables, and `found_partition` registering what lies within the device. The
recursion is given fuel, and `none` is running out of it. `read_partition_table` reads sector 0
whatever sector it is given, so a first table whose extended entry points inside the device
sends the scan round forever. -/
namespace Pintos.Devices

/-- A block device: its size in sectors, a `block_sector_t`, and the bytes of each sector. -/
structure Block where
  size : Nat
  size_lt : size < 2 ^ 32
  sectors : Nat → List UInt8

/-- The little-endian `uint32_t` at offset `p`. -/
def u32At (b : List UInt8) (p : Nat) : Nat :=
  (b.getD p 0).toNat + (b.getD (p + 1) 0).toNat * 2 ^ 8 + (b.getD (p + 2) 0).toNat * 2 ^ 16 +
    (b.getD (p + 3) 0).toNat * 2 ^ 24

/-- The little-endian `uint16_t` at offset `p`. -/
def u16At (b : List UInt8) (p : Nat) : Nat := (b.getD p 0).toNat + (b.getD (p + 1) 0).toNat * 2 ^ 8

/-- `struct partition_table_entry`, the fields the scan reads. -/
structure PartitionTableEntry where
  type : UInt8
  offset : Nat
  size : Nat

/-- Entry I of the partition table in the sector bytes PT, at `446 + 16 * I`. -/
def entryAt (pt : List UInt8) (i : Nat) : PartitionTableEntry :=
  ⟨pt.getD (446 + 16 * i + 4) 0, u32At pt (446 + 16 * i + 8), u32At pt (446 + 16 * i + 12)⟩

/-- The `signature` of the partition table in PT. -/
def signatureOf (pt : List UInt8) : Nat := u16At pt 510

/-- The types `read_partition_table` takes for extended partitions. -/
def isExtended (type : UInt8) : Bool :=
  type == 0x05 || type == 0x0f || type == 0x85 || type == 0xc5

/-- `enum block_type`, as far as `found_partition` chooses it. -/
inductive BlockType
  | kernel
  | filesys
  | scratch
  | swap
  | foreign
  deriving DecidableEq, Repr

/-- A registered partition: the number in its name, its type, its first sector and its size. -/
structure Partition where
  partNr : Nat
  type : BlockType
  start : Nat
  size : Nat
  deriving DecidableEq, Repr

/-- `found_partition`: registers the partition when it lies within the device. -/
def foundPartition (block : Block) (partType : UInt8) (start size partNr : Nat)
    (found : List Partition) : List Partition :=
  if start ≥ block.size then found
  else if (start + size) % 2 ^ 32 < start ∨ (start + size) % 2 ^ 32 > block.size then found
  else
    let type : BlockType :=
      if partType = 0x20 then .kernel
      else if partType = 0x21 then .filesys
      else if partType = 0x22 then .scratch
      else if partType = 0x23 then .swap
      else .foreign
    found ++ [⟨partNr, type, start, size⟩]

/-- What the scan carries along: `*part_nr` and the partitions registered so far. -/
structure Scan where
  partNr : Nat
  found : List Partition

/-- `read_partition_table` given FUEL nested calls; `none` where the fuel runs out. -/
def readPartitionTable (block : Block) : Nat → Nat → Nat → Scan → Option Scan
  | 0, _, _, _ => none
  | fuel + 1, sector, primaryExtendedSector, scan =>
    if sector ≥ block.size then some scan
    else
      -- `block_read (block, 0, pt)`
      let pt := block.sectors 0
      if signatureOf pt ≠ 0xaa55 then some scan
      else (List.range 4).foldlM (fun scan i =>
        let e := entryAt pt i
        if e.size = 0 ∨ e.type = 0 then some scan
        else if isExtended e.type then
          if sector = 0 then readPartitionTable block fuel e.offset e.offset scan
          else
            readPartitionTable block fuel ((e.offset + primaryExtendedSector) % 2 ^ 32)
              primaryExtendedSector scan
        else
          let partNr := scan.partNr + 1
          some ⟨partNr, foundPartition block e.type ((e.offset + sector) % 2 ^ 32) e.size partNr
            scan.found⟩) scan

/-- `partition_scan`, given FUEL nested calls of `read_partition_table`. -/
def partitionScan (block : Block) (fuel : Nat) : Option Scan :=
  readPartitionTable block fuel 0 0 ⟨0, []⟩

/-! ### The extended entry of the first table -/

section Loop
variable {block : Block} {fuel sector primaryExtendedSector : Nat} {scan : Scan}

/-- When the table in sector 0 is valid and its first entry is an extended partition, a call of
`read_partition_table` inside the device fails as soon as the call it makes for that entry
does. -/
theorem readPartitionTable_of_first (hsig : signatureOf (block.sectors 0) = 0xaa55)
    (hext : isExtended (entryAt (block.sectors 0) 0).type)
    (hsize : (entryAt (block.sectors 0) 0).size ≠ 0) (hs : sector < block.size)
    (hinner : readPartitionTable block fuel
      (if sector = 0 then (entryAt (block.sectors 0) 0).offset
       else ((entryAt (block.sectors 0) 0).offset + primaryExtendedSector) % 2 ^ 32)
      (if sector = 0 then (entryAt (block.sectors 0) 0).offset else primaryExtendedSector)
      scan = none) :
    readPartitionTable block (fuel + 1) sector primaryExtendedSector scan = none := by
  have htype : (entryAt (block.sectors 0) 0).type ≠ 0 := fun h => by rw [h] at hext; cases hext
  rw [readPartitionTable, if_neg (by omega)]
  simp only [hsig, ne_eq, not_true_eq_false, if_false]
  rw [show List.range 4 = [0, 1, 2, 3] from rfl, List.foldlM_cons]
  simp only [hsize, htype, or_self, if_false, hext, if_true]
  by_cases h0 : sector = 0
  · simp only [h0, if_true] at hinner ⊢
    rw [hinner]
    rfl
  · simp only [h0, if_false] at hinner ⊢
    rw [hinner]
    rfl

/-- From the sector twice the entry's offset, every call goes back to that same sector: with
offset 0 from sector 0 to sector 0, and otherwise from `2 * o` to `o + o`. -/
theorem readPartitionTable_twice {o : Nat} (hsig : signatureOf (block.sectors 0) = 0xaa55)
    (hext : isExtended (entryAt (block.sectors 0) 0).type)
    (hsize : (entryAt (block.sectors 0) 0).size ≠ 0)
    (hoff : (entryAt (block.sectors 0) 0).offset = o) (ho : 2 * o < block.size) :
    ∀ fuel scan, readPartitionTable block fuel (2 * o) o scan = none := by
  have hwrap : (o + o) % 2 ^ 32 = 2 * o := by
    have := block.size_lt
    omega
  intro fuel
  induction fuel with
  | zero => exact fun _ => rfl
  | succ fuel ih =>
    intro scan
    apply readPartitionTable_of_first hsig hext hsize ho
    by_cases h0 : 2 * o = 0
    · -- offset 0: the call for the entry is the same call again
      have ho0 : o = 0 := by omega
      rw [if_pos h0, if_pos h0, hoff]
      rw [ho0] at ih ⊢
      exact ih scan
    · rw [if_neg h0, if_neg h0, hoff, hwrap]
      exact ih scan

end Loop

/-- `partition_scan` does not terminate on a device whose sector 0 holds a valid partition table
with an extended partition in its first entry at an offset `o` with `2 * o` inside the device: it
calls `read_partition_table` for sector `o`, which reads sector 0 again instead, and so on
without end. A correct reading of sector `o` would find there whatever table it holds. -/
theorem partition_scan_loops (block : Block) (o : Nat)
    (hsig : signatureOf (block.sectors 0) = 0xaa55)
    (hext : isExtended (entryAt (block.sectors 0) 0).type)
    (hsize : (entryAt (block.sectors 0) 0).size ≠ 0)
    (hoff : (entryAt (block.sectors 0) 0).offset = o) (ho : 2 * o < block.size) (fuel : Nat) :
    partitionScan block fuel = none := by
  have hloop := readPartitionTable_twice hsig hext hsize hoff ho
  cases fuel with
  | zero => rfl
  | succ fuel =>
    apply readPartitionTable_of_first hsig hext hsize (by omega)
    rw [if_pos rfl, if_pos rfl, hoff]
    by_cases h0 : o = 0
    · rw [h0] at hloop ⊢
      exact hloop fuel _
    · -- the call for sector `o` reads sector 0 and calls for `o + o`
      cases fuel with
      | zero => rfl
      | succ fuel =>
        apply readPartitionTable_of_first hsig hext hsize (by omega)
        have hwrap : (o + o) % 2 ^ 32 = 2 * o := by
          have := block.size_lt
          omega
        rw [if_neg h0, if_neg h0, hoff, hwrap]
        exact hloop fuel _

/-- A valid partition table whose only entry is an extended partition starting at sector 1. -/
def extendedFirstTable : List UInt8 :=
  List.replicate 446 0 ++ [0, 0, 0, 0, 0x05, 0, 0, 0, 1, 0, 0, 0, 1, 0, 0, 0] ++
    List.replicate 48 0 ++ [0x55, 0xaa]

set_option maxRecDepth 4000 in
theorem partition_scan_loops_sample :
    (signatureOf extendedFirstTable = 0xaa55 ∧ isExtended (entryAt extendedFirstTable 0).type ∧
      (entryAt extendedFirstTable 0).size ≠ 0 ∧ (entryAt extendedFirstTable 0).offset = 1 ∧
      2 * 1 < 3) ∧
    partitionScan ⟨3, by decide, fun _ => extendedFirstTable⟩ 1000 = none :=
  ⟨⟨by decide, by decide, by decide, by decide, by decide⟩,
    partition_scan_loops ⟨3, by decide, fun _ => extendedFirstTable⟩ 1 (by decide) (by decide)
      (by decide) (by decide) (by decide) 1000⟩

end Pintos.Devices
