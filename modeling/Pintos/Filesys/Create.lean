import Mathlib
import Pintos.Filesys.Directory
import Pintos.Lib.Bitmap

/-! `filesys_create` and what it calls: `free_map_allocate` and `free_map_release` on the free
map, `inode_create` on the device, and `dir_add` on the root directory. Each allocation and
write that can fail is a flag. When `dir_add` fails, `filesys_create` gives back the inode
sector only, so the data sectors `inode_create` took stay marked used. -/
namespace Pintos.Filesys
open Pintos.Lib

/-- `free_map_allocate`: the first run of CNT free sectors, marked used; `writeOk` is whether
`bitmap_write` of the free-map file succeeds, and when it fails the run is cleared again. -/
def freeMapAllocate (freeMap : Bitmap) (cnt : Nat) (writeOk : Bool) : Bitmap × Option Nat :=
  match freeMap.scanAndFlip 0 cnt false with
  | (freeMap, some sector) =>
    if writeOk then (freeMap, some sector) else (freeMap.setMultiple sector cnt false, none)
  | (freeMap, none) => (freeMap, none)

/-- `free_map_release`; `none` where its `ASSERT (bitmap_all (free_map, sector, cnt))` fails. -/
def freeMapRelease (freeMap : Bitmap) (sector cnt : Nat) : Option Bitmap :=
  if freeMap.all sector cnt then some (freeMap.setMultiple sector cnt false) else none

/-- `INODE_MAGIC`. -/
def inodeMagic : Nat := 0x494e4f44

/-- Byte `j` of the little-endian word `v`. -/
def wordByte (v j : Nat) : UInt8 := ((v / 256 ^ j) % 256).toUInt8

/-- `struct inode_disk` as the bytes of its sector: `start`, `length` and `magic`, then
`unused`, zero. -/
def diskInodeBytes (start : Nat) (length : Int) : Nat → UInt8 := fun j =>
  if j < 4 then wordByte start j
  else if j < 8 then wordByte length.toNat (j - 4)
  else if j < 12 then wordByte inodeMagic (j - 8)
  else 0

/-- The loop of `inode_create` that writes zeros to the N data sectors from START. -/
def zeroSectors (block : Block) (start n : Nat) : Block :=
  (List.range n).foldl (fun b i => blockWrite b (start + i) fun _ => 0) block

/-- `inode_create` of an inode at SECTOR with LENGTH bytes: the free map, the device, and
success; `none` where `ASSERT (length >= 0)` fails. -/
def inodeCreate (freeMap : Bitmap) (block : Block) (sector : Nat) (length : Int)
    (callocOk writeOk : Bool) : Option (Bitmap × Block × Bool) :=
  if length < 0 then none
  else if callocOk then
    let sectors := bytesToSectors length
    match freeMapAllocate freeMap sectors writeOk with
    | (freeMap, some start) =>
      let block := blockWrite block sector (diskInodeBytes start length)
      let block := if sectors > 0 then zeroSectors block start sectors else block
      some (freeMap, block, true)
    | (freeMap, none) => some (freeMap, block, false)
  else some (freeMap, block, false)

/-- Whether each allocation and write `filesys_create` makes succeeds: the `malloc`s of
`dir_open_root`, the free-map writes of the two `free_map_allocate` calls, the `calloc` of
`inode_create`, and the reads and the write of `dir_add`. -/
structure CreateOk where
  dirOpen : Bool
  mapWrite : Bool
  calloc : Bool
  dataMapWrite : Bool
  lookup : Nat → Bool
  scan : Nat → Bool
  write : Bool

/-- The file system as `filesys_create` sees it: the free map, the device, and the entries of
the root directory. -/
structure Fs where
  freeMap : Bitmap
  block : Block
  root : List DirEntry

/-- `filesys_create`; `none` where an `ASSERT` fails. -/
def filesysCreate (fs : Fs) (name : List Char) (initialSize : Int) (ok : CreateOk) :
    Option (Fs × Bool) :=
  if ok.dirOpen then
    match freeMapAllocate fs.freeMap 1 ok.mapWrite with
    | (freeMap, none) => some (⟨freeMap, fs.block, fs.root⟩, false)
    | (freeMap, some inodeSector) =>
      match inodeCreate freeMap fs.block inodeSector initialSize ok.calloc ok.dataMapWrite with
      | none => none
      | some (freeMap, block, created) =>
        let (root, success) := if created
          then dirAdd fs.root name inodeSector ok.lookup ok.scan ok.write else (fs.root, false)
        if success then some (⟨freeMap, block, root⟩, true)
        else if inodeSector ≠ 0 then
          (freeMapRelease freeMap inodeSector 1).map fun freeMap => (⟨freeMap, block, root⟩, false)
        else some (⟨freeMap, block, root⟩, false)
  else some (fs, false)

/-! ### The free map -/

theorem freeMapAllocate_some {freeMap freeMap' : Bitmap} {cnt sector : Nat} {writeOk : Bool}
    (h : freeMapAllocate freeMap cnt writeOk = (freeMap', some sector)) :
    freeMap.scan 0 cnt false = some sector ∧ freeMap' = freeMap.setMultiple sector cnt true := by
  unfold freeMapAllocate Bitmap.scanAndFlip at h
  cases hs : freeMap.scan 0 cnt false with
  | none => simp [hs] at h
  | some s =>
    cases writeOk <;> simp [hs] at h
    obtain ⟨rfl, rfl⟩ := h
    exact ⟨rfl, rfl⟩

theorem freeMapAllocate_of_scan {freeMap : Bitmap} {cnt sector : Nat}
    (h : freeMap.scan 0 cnt false = some sector) :
    freeMapAllocate freeMap cnt true = (freeMap.setMultiple sector cnt true, some sector) := by
  simp [freeMapAllocate, Bitmap.scanAndFlip, h]

theorem test_setMultiple_true {b : Bitmap} {start cnt k : Nat} (hk : k < b.length) :
    (b.setMultiple start cnt true).test k = (b.test k || (start ≤ k ∧ k < start + cnt)) := by
  rw [Bitmap.test_setMultiple]
  by_cases hr : start ≤ k ∧ k < start + cnt <;> simp [hr, hk]

theorem test_setMultiple_false {b : Bitmap} {start cnt k : Nat} (hk : k < b.length) :
    (b.setMultiple start cnt false).test k = (b.test k && !(start ≤ k ∧ k < start + cnt)) := by
  rw [Bitmap.test_setMultiple]
  by_cases hr : start ≤ k ∧ k < start + cnt <;> simp [hr, hk]


theorem bytesToSectors_pos {size : Int} (h : 0 < size) : 0 < bytesToSectors size := by
  rw [bytesToSectors, Int.tdiv_eq_ediv_of_nonneg (by omega)]
  omega

theorem dirAdd_of_lookup {slots : List DirEntry} {name : List Char} {sector : Nat}
    {okLookup okScan : Nat → Bool} {okWrite : Bool} (h : (lookup slots name okLookup).isSome) :
    dirAdd slots name sector okLookup okScan okWrite = (slots, false) := by
  unfold dirAdd
  split
  · rfl
  · -- split has already taken the lookup branch from h
    rfl

theorem zeroSectors_bytes (block : Block) (start : Nat) :
    ∀ {n i j : Nat}, i < n → j < 512 → (zeroSectors block start n).bytes ((start + i) * 512 + j) = 0
  | 0, _, _, hi, _ => absurd hi (Nat.not_lt_zero _)
  | n + 1, i, j, hi, hj => by
    rw [zeroSectors, List.range_succ, List.foldl_append, List.foldl_cons, List.foldl_nil, ← zeroSectors]
    simp only [blockWrite]
    rcases Nat.lt_succ_iff_lt_or_eq.mp hi with hi | rfl
    · -- an earlier sector: the last write is past it
      rw [Memory.copy_of_lt (by omega)]
      exact zeroSectors_bytes block start hi hj
    · rw [Memory.copy_add hj]

theorem dirAdd_true {slots slots' : List DirEntry} {name : List Char} {sector : Nat}
    {okLookup okScan : Nat → Bool} {okWrite : Bool}
    (h : dirAdd slots name sector okLookup okScan okWrite = (slots', true)) :
    ∃ k, k < slots.length ∧ slots' = slots.set k ⟨sector, name, true⟩ := by
  unfold dirAdd writeSlot at h
  split at h
  · cases h
  split at h
  · cases h
  split at h
  · rename_i hk
    obtain ⟨rfl, -⟩ := Prod.mk.inj h
    exact ⟨_, hk.1, rfl⟩
  · cases h

theorem inodeCreate_true {freeMap freeMap' : Bitmap} {block block' : Block} {sector : Nat}
    {length : Int} {callocOk writeOk : Bool}
    (h : inodeCreate freeMap block sector length callocOk writeOk = some (freeMap', block', true)) :
    ∃ start, freeMap.scan 0 (bytesToSectors length) false = some start ∧
      freeMap' = freeMap.setMultiple start (bytesToSectors length) true ∧
      ∀ i < bytesToSectors length, ∀ j < 512, block'.bytes ((start + i) * 512 + j) = 0 := by
  unfold inodeCreate at h
  split at h
  · cases h
  split at h
  · cases ha : freeMapAllocate freeMap (bytesToSectors length) writeOk with
    | mk fm r =>
      cases r with
      | none => simp [ha] at h
      | some start =>
        obtain ⟨hs, rfl⟩ := freeMapAllocate_some ha
        simp only [ha, Option.some.injEq, Prod.mk.injEq] at h
        obtain ⟨rfl, rfl, -⟩ := h
        refine ⟨start, hs, rfl, fun i hi j hj => ?_⟩
        rw [if_pos (by omega)]
        exact zeroSectors_bytes _ start hi hj
  · cases h

/-! ### A create that succeeds -/

/-- A create that returns true took the first free sector for the inode and the first free run
of `bytes_to_sectors (initial_size)` after it for the data, zeroed that run, and put the name
with the inode sector in a slot of the root directory. -/
theorem filesysCreate_true {fs fs' : Fs} {name : List Char} {size : Int} {ok : CreateOk}
    (h : filesysCreate fs name size ok = some (fs', true)) :
    ∃ sector start k, fs.freeMap.scan 0 1 false = some sector ∧
      (fs.freeMap.setMultiple sector 1 true).scan 0 (bytesToSectors size) false = some start ∧
      fs'.freeMap = (fs.freeMap.setMultiple sector 1 true).setMultiple start
        (bytesToSectors size) true ∧
      (∀ i < bytesToSectors size, ∀ j < 512, fs'.block.bytes ((start + i) * 512 + j) = 0) ∧
      k < fs.root.length ∧ fs'.root = fs.root.set k ⟨sector, name, true⟩ := by
  unfold filesysCreate at h
  split at h
  · cases ha : freeMapAllocate fs.freeMap 1 ok.mapWrite with
    | mk fm1 r =>
      cases r with
      | none => simp [ha] at h
      | some sector =>
        obtain ⟨hs, rfl⟩ := freeMapAllocate_some ha
        simp only [ha] at h
        cases hc : inodeCreate (fs.freeMap.setMultiple sector 1 true) fs.block sector size
          ok.calloc ok.dataMapWrite with
        | none => simp [hc] at h
        | some r =>
          obtain ⟨fm2, blk, created⟩ := r
          simp only [hc] at h
          cases created
          · simp at h
            split at h <;> simp at h
          · cases hadd : dirAdd fs.root name sector ok.lookup ok.scan ok.write with
            | mk root success =>
              cases success
              · simp only [hadd, if_true, Bool.false_eq_true, if_false] at h
                split at h <;> simp at h
              · simp only [hadd, if_true, Option.some.injEq, Prod.mk.injEq, and_true] at h
                subst h
                obtain ⟨start, hd, rfl, hz⟩ := inodeCreate_true hc
                obtain ⟨k, hk, rfl⟩ := dirAdd_true hadd
                exact ⟨sector, start, k, hs, hd, rfl, hz, hk, rfl⟩
  · simp at h

/-! ### A create that `dir_add` refuses -/

/-- When the name is already in the root directory and both allocations succeed,
`filesys_create` returns false having given back the inode sector only: the data run
`inode_create` took stays marked used. -/
theorem create_keeps_data_sectors {fs : Fs} {name : List Char} {size : Int} {ok : CreateOk}
    {sector start : Nat} (hok : ok.dirOpen ∧ ok.mapWrite ∧ ok.calloc ∧ ok.dataMapWrite)
    (hz : fs.freeMap.test 0 = true) (hsize : 0 < size)
    (hname : (lookup fs.root name ok.lookup).isSome)
    (hs : fs.freeMap.scan 0 1 false = some sector)
    (hd : (fs.freeMap.setMultiple sector 1 true).scan 0 (bytesToSectors size) false = some start) :
    ∃ fs', filesysCreate fs name size ok = some (fs', false) ∧ fs'.root = fs.root ∧
      fs'.freeMap = fs.freeMap.setMultiple start (bytesToSectors size) true ∧
      fs'.freeMap ≠ fs.freeMap := by
  obtain ⟨hd0, hm, hc, hdm⟩ := hok
  obtain ⟨-, hsl, hsf⟩ := Bitmap.scan_some hs
  obtain ⟨-, hdl, hdf⟩ := Bitmap.scan_some hd
  rw [Bitmap.length_setMultiple] at hdl
  have hn := bytesToSectors_pos hsize
  have hsec : fs.freeMap.test sector = false := hsf 0 (by omega)
  have hs0 : sector ≠ 0 := fun h => by rw [h, hz] at hsec; cases hsec
  have hout : ¬(start ≤ sector ∧ sector < start + bytesToSectors size) := fun ⟨h1, h2⟩ => by
    have := hdf (sector - start) (by omega)
    rw [show start + (sector - start) = sector by omega, test_setMultiple_true (by omega)] at this
    simp at this
  have hrel : freeMapRelease ((fs.freeMap.setMultiple sector 1 true).setMultiple start
      (bytesToSectors size) true) sector 1 =
      some (fs.freeMap.setMultiple start (bytesToSectors size) true) := by
    have hall : ((fs.freeMap.setMultiple sector 1 true).setMultiple start
        (bytesToSectors size) true).all sector 1 = true := Bitmap.all_iff.mpr fun i hi => by
      rw [show sector + i = sector by omega, test_setMultiple_true (by simp; omega),
        test_setMultiple_true (by omega)]
      simp
    rw [freeMapRelease, if_pos hall]
    congr 1
    refine Bitmap.eq_of_test (by simp) fun k => ?_
    by_cases hl : k < fs.freeMap.length
    · rw [test_setMultiple_false (by simpa using hl), test_setMultiple_true (by simpa using hl),
        test_setMultiple_true hl, test_setMultiple_true hl]
      by_cases hk : k = sector
      · subst hk
        simp [hsec, hout]
      · rw [decide_eq_false (show ¬(sector ≤ k ∧ k < sector + 1) by omega)]
        simp
    · rw [Bitmap.test_of_length_le (by simpa using hl), Bitmap.test_of_length_le (by simpa using hl)]
  have hcomp : filesysCreate fs name size ok = some (⟨fs.freeMap.setMultiple start
      (bytesToSectors size) true, zeroSectors (blockWrite fs.block sector (diskInodeBytes start size))
        start (bytesToSectors size), fs.root⟩, false) := by
    simp only [filesysCreate, hd0, if_true, hm, freeMapAllocate_of_scan hs, inodeCreate, hc,
      hdm, freeMapAllocate_of_scan hd, if_neg (show ¬size < 0 by omega), if_pos hn,
      dirAdd_of_lookup hname, Bool.false_eq_true, if_false, if_pos hs0, hrel, Option.map_some]
  refine ⟨_, hcomp, rfl, rfl, fun he => ?_⟩
  have h0 := congrArg (Bitmap.test · start) he
  simp only at h0
  have hfree := hdf 0 hn
  rw [Nat.add_zero, test_setMultiple_true (by omega)] at hfree
  have hF : fs.freeMap.test start = false := (Bool.or_eq_false_iff.mp hfree).1
  rw [test_setMultiple_true (by omega), hF, Bool.false_or] at h0
  simp at h0
  omega

theorem create_keeps_data_sectors_sample : ∃ fs',
    filesysCreate ⟨[true, true, true, false, false], ⟨fun _ => 0, []⟩, [⟨2, ['a'], true⟩]⟩ ['a'] 512
      ⟨true, true, true, true, fun _ => true, fun _ => true, true⟩ = some (fs', false) ∧
    fs'.root = [⟨2, ['a'], true⟩] ∧
    fs'.freeMap = [true, true, true, false, true] ∧ fs'.freeMap ≠ [true, true, true, false, false] := by
  obtain ⟨fs', h, hr, hm, hne⟩ := @create_keeps_data_sectors
    ⟨[true, true, true, false, false], ⟨fun _ => 0, []⟩, [⟨2, ['a'], true⟩]⟩ ['a'] 512
    ⟨true, true, true, true, fun _ => true, fun _ => true, true⟩ 3 4
    ⟨rfl, rfl, rfl, rfl⟩ rfl (by decide) rfl rfl rfl
  exact ⟨fs', h, hr, hm.trans rfl, hne⟩

end Pintos.Filesys