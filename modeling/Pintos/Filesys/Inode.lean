import Pintos.Lib.Memory
import Pintos.Kit.Run

/-! The data path of filesys/inode.c: `byte_to_sector` and the sector loops of `inode_read_at`
and `inode_write_at`, over the file-system device, with the one `malloc` of the bounce buffer as
a flag. An inode's data refines a byte array of `data.length` bytes (`Bytes.readAt`,
`Bytes.writeAt`), and no write touches a sector outside the inode's own. -/
namespace Pintos.Filesys

open Pintos.Lib

/-- `fs_device`: the bytes of its sectors in order, sector `s` holding
`[s * BLOCK_SECTOR_SIZE, (s + 1) * BLOCK_SECTOR_SIZE)`, and the sectors `block_write` has been
called on, the latest first. -/
structure Block where
  bytes : Nat → UInt8
  written : List Nat

/-- `block_read`: the sector's bytes, from its first. -/
def blockRead (block : Block) (sector : Nat) : Nat → UInt8 :=
  fun j => block.bytes (sector * 512 + j)

/-- `block_write`: `BLOCK_SECTOR_SIZE` bytes of `buffer` become the sector's. -/
def blockWrite (block : Block) (sector : Nat) (buffer : Nat → UInt8) : Block :=
  ⟨Memory.copy block.bytes (sector * 512) buffer 512, sector :: block.written⟩

/-- `struct inode_disk`, as far as the data path reads it. -/
structure InodeDisk where
  start : Nat
  length : Int

/-- `struct inode`. -/
structure Inode where
  sector : Nat
  openCnt : Nat
  removed : Bool
  denyWriteCnt : Nat
  data : InodeDisk

/-- `bytes_to_sectors`. -/
def bytesToSectors (size : Int) : Nat := ((size + 511).tdiv 512).toNat

/-- `byte_to_sector`: the sector holding byte `pos`, or `-1` past the end. -/
def byteToSector (inode : Inode) (pos : Int) : Nat :=
  if pos < inode.data.length then inode.data.start + (pos.tdiv 512).toNat else 0xFFFFFFFF

/-- `inode_length`. -/
def inodeLength (inode : Inode) : Int := inode.data.length

/-- The bytes one turn of the loops of `inode_read_at` and `inode_write_at` moves: the least of
`size`, the bytes left in the inode and the bytes left in the sector. -/
def chunkSize (inode : Inode) (size offset : Int) : Int :=
  let inodeLeft := inodeLength inode - offset
  let sectorLeft := 512 - offset.tmod 512
  let minLeft := if inodeLeft < sectorLeft then inodeLeft else sectorLeft
  if size < minLeft then size else minLeft

/-- The loop of `inode_read_at` from `size` and `offset` still to go, whether `bounce` is
allocated, and `bytes_read` with the caller's buffer. `mallocOk` is whether the `malloc` of the
bounce buffer succeeds. -/
def readLoop (block : Block) (inode : Inode) (mallocOk : Bool) (size offset : Int) (bounce : Bool)
    (bytesRead : Int) (buffer : Nat → UInt8) : Int × (Nat → UInt8) :=
  if 0 < size then
    let sectorIdx := byteToSector inode offset
    let sectorOfs := offset.tmod 512
    let chunk := chunkSize inode size offset
    if chunk ≤ 0 then (bytesRead, buffer)
    else if sectorOfs = 0 ∧ chunk = 512 then
      readLoop block inode mallocOk (size - chunk) (offset + chunk) bounce (bytesRead + chunk)
        (Memory.copy buffer bytesRead.toNat (blockRead block sectorIdx) 512)
    else if bounce || mallocOk then
      readLoop block inode mallocOk (size - chunk) (offset + chunk) true (bytesRead + chunk)
        (Memory.copy buffer bytesRead.toNat
          (fun j => blockRead block sectorIdx (sectorOfs.toNat + j)) chunk.toNat)
    else (bytesRead, buffer)
  else (bytesRead, buffer)
termination_by size.toNat
decreasing_by all_goals omega

/-- `inode_read_at`: the count read and the caller's buffer afterwards. -/
def inodeReadAt (block : Block) (inode : Inode) (mallocOk : Bool) (buffer : Nat → UInt8)
    (size offset : Int) : Int × (Nat → UInt8) :=
  readLoop block inode mallocOk size offset false 0 buffer

/-- The loop of `inode_write_at`, from the caller's `buffer`, with the device, `size` and
`offset` still to go, whether `bounce` is allocated, and `bytes_written`. -/
def writeLoop (inode : Inode) (mallocOk : Bool) (buffer : Nat → UInt8) (block : Block)
    (size offset : Int) (bounce : Bool) (bytesWritten : Int) : Block × Int :=
  if 0 < size then
    let sectorIdx := byteToSector inode offset
    let sectorOfs := offset.tmod 512
    let sectorLeft := 512 - sectorOfs
    let chunk := chunkSize inode size offset
    let src := fun j => buffer (bytesWritten.toNat + j)
    if chunk ≤ 0 then (block, bytesWritten)
    else if sectorOfs = 0 ∧ chunk = 512 then
      writeLoop inode mallocOk buffer (blockWrite block sectorIdx src) (size - chunk)
        (offset + chunk) bounce (bytesWritten + chunk)
    else if bounce || mallocOk then
      let old := if 0 < sectorOfs ∨ chunk < sectorLeft then blockRead block sectorIdx else fun _ => 0
      writeLoop inode mallocOk buffer
        (blockWrite block sectorIdx (Memory.copy old sectorOfs.toNat src chunk.toNat))
        (size - chunk) (offset + chunk) true (bytesWritten + chunk)
    else (block, bytesWritten)
  else (block, bytesWritten)
termination_by size.toNat
decreasing_by all_goals omega

/-- `inode_write_at`: the device afterwards and the count written. -/
def inodeWriteAt (block : Block) (inode : Inode) (mallocOk : Bool) (buffer : Nat → UInt8)
    (size offset : Int) : Block × Int :=
  if inode.denyWriteCnt ≠ 0 then (block, 0)
  else writeLoop inode mallocOk buffer block size offset false 0

/-- The byte array an inode's data stands for: its `data.length` bytes from the first byte of
sector `data.start` on. -/
def contents (block : Block) (inode : Inode) : List UInt8 :=
  Memory.read block.bytes (inode.data.start * 512) inode.data.length.toNat

/-- The inode's bytes from byte `pos` of its data on, as the device holds them. -/
def fileFrom (block : Block) (inode : Inode) (pos : Nat) : Nat → UInt8 :=
  fun j => block.bytes (inode.data.start * 512 + (pos + j))

section Loops

variable {block : Block} {inode : Inode} {size offset : Int}

theorem chunkSize_eq (inode : Inode) (size : Int) (h0 : 0 ≤ offset) :
    chunkSize inode size offset = min size (min (inodeLength inode - offset) (512 - offset % 512)) := by
  simp only [chunkSize, Int.tmod_eq_emod_of_nonneg h0]
  split_ifs <;> omega

theorem byteToSector_eq (h0 : 0 ≤ offset) (hl : offset < inodeLength inode) :
    byteToSector inode offset = inode.data.start + (offset / 512).toNat := by
  rw [byteToSector, if_pos (show offset < inode.data.length from hl), Int.tdiv_eq_ediv_of_nonneg h0]

theorem byteToSector_mem (h0 : 0 ≤ offset) (hl : offset < inodeLength inode) :
    inode.data.start ≤ byteToSector inode offset ∧
      byteToSector inode offset < inode.data.start + bytesToSectors (inodeLength inode) := by
  have hb : bytesToSectors (inodeLength inode) = ((inodeLength inode + 511) / 512).toNat := by
    rw [bytesToSectors, Int.tdiv_eq_ediv_of_nonneg (by omega)]
  rw [byteToSector_eq h0 hl, hb]
  omega

theorem blockRead_byteToSector (h0 : 0 ≤ offset) (hl : offset < inodeLength inode) (j : Nat) :
    blockRead block (byteToSector inode offset) ((offset.tmod 512).toNat + j) =
      fileFrom block inode offset.toNat j := by
  have ha : byteToSector inode offset * 512 + ((offset.tmod 512).toNat + j) =
      inode.data.start * 512 + (offset.toNat + j) := by
    simp only [byteToSector_eq h0 hl, Int.tmod_eq_emod_of_nonneg h0]
    omega
  simp only [blockRead, fileFrom, ha]

/-- A turn that copies the inode's next `c` bytes into the buffer, then the rest of the loop,
copy all of them. -/
theorem read_turn (buffer src : Nat → UInt8) {bytesRead c m m' : Int} (hr : 0 ≤ bytesRead)
    (hc : 0 < c) (h0 : 0 ≤ offset) (hm : m = c + m') (hm' : 0 ≤ m')
    (hsrc : ∀ j, src j = fileFrom block inode offset.toNat j) :
    (bytesRead + c + m', Memory.copy (Memory.copy buffer bytesRead.toNat src c.toNat)
        (bytesRead + c).toNat (fileFrom block inode (offset + c).toNat) m'.toNat) =
      (bytesRead + m, Memory.copy buffer bytesRead.toNat (fileFrom block inode offset.toNat) m.toNat) := by
  have hshift : fileFrom block inode (offset + c).toNat =
      fun j => fileFrom block inode offset.toNat (c.toNat + j) := by
    funext j
    simp only [fileFrom]
    congr 2
    omega
  rw [hshift, show src = fileFrom block inode offset.toNat from funext hsrc,
    show (bytesRead + c).toNat = bytesRead.toNat + c.toNat by omega, Memory.copy_append,
    show m.toNat = c.toNat + m'.toNat by omega]
  congr 1
  omega

/-- With the bounce buffer to hand, the loop of `inode_read_at` copies the inode's bytes from
`offset` on, as many as `Bytes.moved` says, into the buffer at `bytes_read`. -/
theorem readLoop_spec (bounce : Bool) (bytesRead : Int) (buffer : Nat → UInt8) (h0 : 0 ≤ offset)
    (hr : 0 ≤ bytesRead) :
    readLoop block inode true size offset bounce bytesRead buffer =
      (bytesRead + Bytes.moved (inodeLength inode) size offset,
        Memory.copy buffer bytesRead.toNat (fileFrom block inode offset.toNat)
          (Bytes.moved (inodeLength inode) size offset).toNat) := by
  fun_induction readLoop block inode true size offset bounce bytesRead buffer with
  | case1 size offset bounce bytesRead buffer hs chunk hc =>
    have hcs : chunk = _ := chunkSize_eq inode size h0
    rw [Bytes.moved, show max 0 (min size (inodeLength inode - offset)) = 0 by omega]
    simp
  | case2 size offset bounce bytesRead buffer hs sector sectorOfs chunk hc hfull ih =>
    have hcs : chunk = _ := chunkSize_eq inode size h0
    rw [ih (by omega) (by omega), show (512 : Nat) = chunk.toNat by omega]
    apply read_turn _ _ hr (by omega) h0 (Bytes.moved_add _ (by omega) (by omega) (by omega))
      (Bytes.moved_nonneg _ _ _)
    intro j
    have hz : offset.tmod 512 = 0 := hfull.1
    rw [← blockRead_byteToSector h0 (by omega), hz, Int.toNat_zero, Nat.zero_add]
  | case3 size offset bounce bytesRead buffer hs sector sectorOfs chunk hc hfull hb ih =>
    have hcs : chunk = _ := chunkSize_eq inode size h0
    rw [ih (by omega) (by omega)]
    exact read_turn _ _ hr (by omega) h0 (Bytes.moved_add _ (by omega) (by omega) (by omega))
      (Bytes.moved_nonneg _ _ _) (blockRead_byteToSector h0 (by omega))
  | case4 size offset bounce bytesRead buffer hs sectorOfs chunk hc hfull hb =>
    simp at hb
  | case5 size offset bounce bytesRead buffer hs =>
    rw [Bytes.moved_of_nonpos _ (by omega)]
    simp

/-- A turn that copies the buffer's next `c` bytes onto the inode's, then the rest of the loop,
copy all of them. -/
theorem write_turn (buffer bytes : Nat → UInt8) {bytesWritten c m m' : Int} (k : Nat)
    (hk : (k : Int) = c) (hw : 0 ≤ bytesWritten) (hc : 0 < c) (h0 : 0 ≤ offset) (hm : m = c + m')
    (hm' : 0 ≤ m') :
    Memory.copy (Memory.copy bytes (inode.data.start * 512 + offset.toNat)
        (fun j => buffer (bytesWritten.toNat + j)) k)
      (inode.data.start * 512 + (offset + c).toNat) (fun j => buffer ((bytesWritten + c).toNat + j))
      m'.toNat =
    Memory.copy bytes (inode.data.start * 512 + offset.toNat) (fun j => buffer (bytesWritten.toNat + j))
      m.toNat := by
  have hshift : (fun j => buffer ((bytesWritten + c).toNat + j)) =
      fun j => (fun j => buffer (bytesWritten.toNat + j)) (k + j) := by
    funext j
    congr 1
    omega
  rw [hshift, show inode.data.start * 512 + (offset + c).toNat =
    inode.data.start * 512 + offset.toNat + k by omega, Memory.copy_append,
    show m.toNat = k + m'.toNat by omega]

/-- The loop of `inode_write_at`, with the bounce buffer to hand, copies the buffer from
`bytes_written` onto the inode's bytes from `offset` on, as many as `Bytes.moved` says, and leaves
every other byte of the device as it was. -/
theorem writeLoop_spec (buffer : Nat → UInt8) (block : Block) (bounce : Bool) (bytesWritten : Int)
    (h0 : 0 ≤ offset) (hw : 0 ≤ bytesWritten) :
    (writeLoop inode true buffer block size offset bounce bytesWritten).1.bytes =
        Memory.copy block.bytes (inode.data.start * 512 + offset.toNat)
          (fun j => buffer (bytesWritten.toNat + j)) (Bytes.moved (inodeLength inode) size offset).toNat ∧
      (writeLoop inode true buffer block size offset bounce bytesWritten).2 =
        bytesWritten + Bytes.moved (inodeLength inode) size offset := by
  fun_induction writeLoop inode true buffer block size offset bounce bytesWritten with
  | case1 block size offset bounce bytesWritten hs chunk hc =>
    have hcs : chunk = _ := chunkSize_eq inode size h0
    rw [Bytes.moved, show max 0 (min size (inodeLength inode - offset)) = 0 by omega]
    simp
  | case2 block size offset bounce bytesWritten hs sector sectorOfs chunk src hc hfull ih =>
    have hcs : chunk = _ := chunkSize_eq inode size h0
    have hz : offset.tmod 512 = 0 := hfull.1
    have ha : sector * 512 = inode.data.start * 512 + offset.toNat := by
      have := byteToSector_eq h0 (show offset < inodeLength inode by omega)
      rw [Int.tmod_eq_emod_of_nonneg h0] at hz
      simp only [sector, this]
      omega
    have hm := Bytes.moved_add (inodeLength inode) (show 0 ≤ chunk by omega) (show chunk ≤ size by omega)
      (show chunk ≤ inodeLength inode - offset by omega)
    obtain ⟨ihb, ihc⟩ := ih (by omega) (by omega)
    refine ⟨?_, by rw [ihc, hm]; omega⟩
    rw [ihb, blockWrite, ha]
    exact write_turn buffer block.bytes 512 (by omega) hw (by omega) h0 hm (Bytes.moved_nonneg _ _ _)
  | case3 block size offset bounce bytesWritten hs sector sectorOfs sectorLeft chunk src hc hfull hb old ih =>
    have hcs : chunk = _ := chunkSize_eq inode size h0
    have hl : offset < inodeLength inode := by omega
    have hread : (0 < sectorOfs ∨ chunk < sectorLeft) := by
      simp only [sectorOfs, sectorLeft, Int.tmod_eq_emod_of_nonneg h0] at hfull ⊢
      omega
    have ha : sector * 512 + (sectorOfs.toNat) = inode.data.start * 512 + offset.toNat := by
      have := byteToSector_eq h0 hl
      simp only [sector, sectorOfs, this, Int.tmod_eq_emod_of_nonneg h0]
      omega
    have hm := Bytes.moved_add (inodeLength inode) (show 0 ≤ chunk by omega) (show chunk ≤ size by omega)
      (show chunk ≤ inodeLength inode - offset by omega)
    obtain ⟨ihb, ihc⟩ := ih (by omega) (by omega)
    refine ⟨?_, by rw [ihc, hm]; omega⟩
    have hold : old = blockRead block sector := dif_pos hread
    rw [ihb, blockWrite, hold]
    have hwin : Memory.copy block.bytes (sector * 512)
        (Memory.copy (fun j => block.bytes (sector * 512 + j)) sectorOfs.toNat src chunk.toNat) 512 =
        Memory.copy block.bytes (sector * 512 + sectorOfs.toNat) src chunk.toNat :=
      Memory.copy_window _ _ _ _ _ (by simp only [sectorOfs, Int.tmod_eq_emod_of_nonneg h0] at hcs ⊢; omega)
    rw [show blockRead block sector = fun j => block.bytes (sector * 512 + j) from rfl, hwin, ha]
    exact write_turn buffer block.bytes chunk.toNat (by omega) hw (by omega) h0 hm
      (Bytes.moved_nonneg _ _ _)
  | case4 block size offset bounce bytesWritten hs sectorOfs chunk hc hfull hb =>
    simp at hb
  | case5 block size offset bounce bytesWritten hs =>
    rw [Bytes.moved_of_nonpos _ (by omega)]
    simp

/-- A turn that writes the sector `x`, which has the property `P`, keeps "written before or `P`"
for the sectors the rest of the loop writes. -/
theorem written_of_cons {P : Nat → Prop} {x : Nat} {B L : List Nat} (hx : P x)
    (h : ∀ s ∈ L, s ∈ x :: B ∨ P s) : ∀ s ∈ L, s ∈ B ∨ P s := by
  intro s hs
  rcases h s hs with hs' | hs'
  · rcases List.mem_cons.mp hs' with rfl | hs'
    · exact .inr hx
    · exact .inl hs'
  · exact .inr hs'

/-- Whether or not the bounce buffer can be had, the loop of `inode_write_at` calls
`block_write` only on the inode's own sectors. -/
theorem writeLoop_written (mallocOk : Bool) (buffer : Nat → UInt8) (block : Block) (bounce : Bool)
    (bytesWritten : Int) (h0 : 0 ≤ offset) :
    ∀ s ∈ (writeLoop inode mallocOk buffer block size offset bounce bytesWritten).1.written,
      s ∈ block.written ∨
        inode.data.start ≤ s ∧ s < inode.data.start + bytesToSectors (inodeLength inode) := by
  fun_induction writeLoop inode mallocOk buffer block size offset bounce bytesWritten with
  | case1 => exact fun s hs => .inl hs
  | case2 block size offset bounce bytesWritten hs sector sectorOfs chunk src hc hfull ih =>
    have hcs : chunk = _ := chunkSize_eq inode size h0
    exact written_of_cons (byteToSector_mem h0 (by omega)) (ih (by omega))
  | case3 block size offset bounce bytesWritten hs sector sectorOfs sectorLeft chunk src hc hfull hb old ih =>
    have hcs : chunk = _ := chunkSize_eq inode size h0
    exact written_of_cons (byteToSector_mem h0 (by omega)) (ih (by omega))
  | case4 => exact fun s hs => .inl hs
  | case5 => exact fun s hs => .inl hs

end Loops

section Calls

/-- A call on an inode's data: `inode_read_at` into `buffer` or `inode_write_at` from it, with
whether the `malloc` of its bounce buffer succeeds. -/
inductive DataCall where
  | read (buffer : Nat → UInt8) (size offset : Int) (mallocOk : Bool)
  | write (buffer : Nat → UInt8) (size offset : Int) (mallocOk : Bool)

/-- A call with a size and an offset of at least 0 that finds memory for its bounce buffer. -/
def DataCall.Valid : DataCall → Prop
  | .read _ size offset mallocOk | .write _ size offset mallocOk =>
    0 ≤ size ∧ 0 ≤ offset ∧ mallocOk = true

/-- What a caller sees of a call: the count, and for a read the bytes it left at the start of
the buffer. -/
structure Reply where
  count : Int
  data : List UInt8
deriving DecidableEq

/-- A call on the inode's data over the device. -/
def DataCall.run (inode : Inode) (block : Block) : DataCall → Block × Reply
  | .read buffer size offset mallocOk =>
    let r := inodeReadAt block inode mallocOk buffer size offset
    (block, ⟨r.1, Memory.read r.2 0 r.1.toNat⟩)
  | .write buffer size offset mallocOk =>
    let r := inodeWriteAt block inode mallocOk buffer size offset
    (r.1, ⟨r.2, []⟩)

/-- The same call on the byte array the inode stands for, which takes writes when `writable`. -/
def DataCall.spec (writable : Bool) (m : List UInt8) : DataCall → List UInt8 × Reply
  | .read _ size offset _ => (m, ⟨(Bytes.readAt m size offset).1, (Bytes.readAt m size offset).2⟩)
  | .write buffer size offset _ =>
    if writable then ((Bytes.writeAt m buffer size offset).2, ⟨(Bytes.writeAt m buffer size offset).1, []⟩)
    else (m, ⟨0, []⟩)

variable {block : Block} {inode : Inode} {size offset : Int}

theorem readAt_contents (h0 : 0 ≤ offset) :
    Bytes.readAt (contents block inode) size offset =
      (Bytes.moved (inodeLength inode) size offset,
        Memory.read block.bytes (inode.data.start * 512 + offset.toNat)
          (Bytes.moved (inodeLength inode) size offset).toNat) := by
  rw [contents, Bytes.readAt_read _ _ _ h0, Bytes.moved_toNat _ h0]
  rfl

theorem writeAt_contents (buffer : Nat → UInt8) (h0 : 0 ≤ offset) :
    Bytes.writeAt (contents block inode) buffer size offset =
      (Bytes.moved (inodeLength inode) size offset,
        Memory.read (Memory.copy block.bytes (inode.data.start * 512 + offset.toNat) buffer
          (Bytes.moved (inodeLength inode) size offset).toNat)
          (inode.data.start * 512) inode.data.length.toNat) := by
  rw [contents, Bytes.writeAt_read, Bytes.moved_toNat _ h0]
  rfl

/-- `inode_read_at` with its bounce buffer copies the inode's bytes from `offset` on into the
buffer from its start, as many as `Bytes.moved` says, and leaves the rest of the buffer. -/
theorem inodeReadAt_spec (buffer : Nat → UInt8) (h0 : 0 ≤ offset) :
    inodeReadAt block inode true buffer size offset =
      (Bytes.moved (inodeLength inode) size offset,
        Memory.copy buffer 0 (fileFrom block inode offset.toNat)
          (Bytes.moved (inodeLength inode) size offset).toNat) := by
  rw [inodeReadAt, readLoop_spec false 0 buffer h0 le_rfl, Int.zero_add]
  rfl

/-- `inode_write_at` on an inode that takes writes copies the buffer onto the inode's bytes
from `offset` on, as many as `Bytes.moved` says, and leaves every other byte of the device. -/
theorem inodeWriteAt_spec (block : Block) (size : Int) (buffer : Nat → UInt8) (h0 : 0 ≤ offset)
    (hd : inode.denyWriteCnt = 0) :
    (inodeWriteAt block inode true buffer size offset).1.bytes =
        Memory.copy block.bytes (inode.data.start * 512 + offset.toNat) buffer
          (Bytes.moved (inodeLength inode) size offset).toNat ∧
      (inodeWriteAt block inode true buffer size offset).2 = Bytes.moved (inodeLength inode) size offset := by
  rw [inodeWriteAt, if_neg (by omega)]
  obtain ⟨hb, hc⟩ := writeLoop_spec buffer block false 0 h0 le_rfl
  exact ⟨by simpa using hb, by simpa using hc⟩

theorem inodeWriteAt_of_denied (mallocOk : Bool) (buffer : Nat → UInt8) (hd : inode.denyWriteCnt ≠ 0) :
    inodeWriteAt block inode mallocOk buffer size offset = (block, 0) := by
  rw [inodeWriteAt, if_pos hd]

theorem inodeWriteAt_written (mallocOk : Bool) (buffer : Nat → UInt8) (h0 : 0 ≤ offset) :
    ∀ s ∈ (inodeWriteAt block inode mallocOk buffer size offset).1.written,
      s ∈ block.written ∨
        inode.data.start ≤ s ∧ s < inode.data.start + bytesToSectors (inodeLength inode) := by
  rw [inodeWriteAt]
  split
  · exact fun s hs => .inl hs
  · exact writeLoop_written mallocOk buffer block false 0 h0

/-- The device stands for the byte array `m`, and has had `block_write` called only on the
sectors of `written0` and on the inode's own. -/
def Stands (inode : Inode) (written0 : List Nat) (block : Block) (m : List UInt8) : Prop :=
  contents block inode = m ∧
    ∀ s ∈ block.written, s ∈ written0 ∨
      inode.data.start ≤ s ∧ s < inode.data.start + bytesToSectors (inodeLength inode)

/-- One valid call gives the byte array's answer and keeps the device standing for it. -/
theorem DataCall.run_refines {written0 : List Nat} {m : List UInt8} (c : DataCall)
    (hs : Stands inode written0 block m) (hc : c.Valid) :
    Stands inode written0 (c.run inode block).1 (c.spec (inode.denyWriteCnt = 0) m).1 ∧
      (c.run inode block).2 = (c.spec (inode.denyWriteCnt = 0) m).2 := by
  obtain ⟨hm, hw⟩ := hs
  subst hm
  cases c with
  | read buffer size offset mallocOk =>
    obtain ⟨-, h0, rfl⟩ := hc
    refine ⟨⟨rfl, hw⟩, ?_⟩
    simp only [DataCall.run, DataCall.spec, inodeReadAt_spec buffer h0, Memory.read_copy,
      readAt_contents h0, Reply.mk.injEq, true_and]
    simp only [Memory.read, fileFrom, Nat.add_assoc]
  | write buffer size offset mallocOk =>
    obtain ⟨-, h0, rfl⟩ := hc
    by_cases hd : inode.denyWriteCnt = 0
    · obtain ⟨hb, hn⟩ := inodeWriteAt_spec block size buffer h0 hd
      simp only [DataCall.run, DataCall.spec, decide_eq_true hd, if_true, writeAt_contents buffer h0, hn]
      refine ⟨⟨?_, ?_⟩, trivial⟩
      · rw [contents, hb]
      · exact fun s hs => (inodeWriteAt_written true buffer h0 s hs).elim (fun h => hw s h) .inr
    · simp only [DataCall.run, DataCall.spec, decide_eq_false hd, inodeWriteAt_of_denied true buffer hd]
      exact ⟨⟨rfl, hw⟩, rfl⟩

end Calls

/-- Every list of valid calls on an inode's data gives the answers the byte array the inode
stands for gives, leaves the device standing for the array those calls make of it, and calls
`block_write` on no sector but the inode's own. -/
theorem inode_refines_byte_array (inode : Inode) (block : Block) (calls : List DataCall)
    (hc : ∀ c ∈ calls, c.Valid) :
    (Kit.replay (DataCall.run inode) block calls).2 =
        (Kit.replay (DataCall.spec (inode.denyWriteCnt = 0)) (contents block inode) calls).2 ∧
      contents (Kit.replay (DataCall.run inode) block calls).1 inode =
        (Kit.replay (DataCall.spec (inode.denyWriteCnt = 0)) (contents block inode) calls).1 ∧
      ∀ s ∈ (Kit.replay (DataCall.run inode) block calls).1.written, s ∈ block.written ∨
        inode.data.start ≤ s ∧ s < inode.data.start + bytesToSectors (inodeLength inode) := by
  have hstep : ∀ b m (c : DataCall), Stands inode block.written b m → c.Valid →
      Stands inode block.written (c.run inode b).1 (c.spec (inode.denyWriteCnt = 0) m).1 ∧
        (c.run inode b).2 = (c.spec (inode.denyWriteCnt = 0) m).2 :=
    fun _ _ c hs hv => c.run_refines hs hv
  obtain ⟨⟨hm, hw⟩, hr⟩ := Kit.replay_sim hstep block (contents block inode) calls
    ⟨rfl, fun s hs => .inl hs⟩ hc
  exact ⟨hr, hm, hw⟩

theorem inode_refines_byte_array_sample :
    (∀ c ∈ [DataCall.write (fun _ => 7) 4 510 true, .read (fun _ => 0) 8 508 true], c.Valid) ∧
      (Kit.replay (DataCall.run ⟨0, 1, false, 0, ⟨2, 1000⟩⟩) ⟨fun _ => 0, []⟩
          [DataCall.write (fun _ => 7) 4 510 true, .read (fun _ => 0) 8 508 true]).2 =
        (Kit.replay (DataCall.spec true) (contents ⟨fun _ => 0, []⟩ ⟨0, 1, false, 0, ⟨2, 1000⟩⟩)
          [DataCall.write (fun _ => 7) 4 510 true, .read (fun _ => 0) 8 508 true]).2 := by
  have hc : ∀ c ∈ [DataCall.write (fun _ => 7) 4 510 true, .read (fun _ => 0) 8 508 true], c.Valid := by
    intro c hc
    simp only [List.mem_cons, List.not_mem_nil, or_false] at hc
    rcases hc with rfl | rfl <;> exact ⟨by decide, by decide, rfl⟩
  exact ⟨hc, (inode_refines_byte_array ⟨0, 1, false, 0, ⟨2, 1000⟩⟩ ⟨fun _ => 0, []⟩ _ hc).1⟩

end Pintos.Filesys
