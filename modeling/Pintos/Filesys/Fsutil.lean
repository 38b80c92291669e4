import Mathlib
import Pintos.Lib.Ustar
import Pintos.Kit.Run

/-! `fsutil_append` and `fsutil_extract` of filesys/fsutil.c: files copied onto the scratch block
device as a ustar archive, one `append` at a time, and the archive copied back into a file
system. The device is the list of its 512-byte sectors. -/
namespace Pintos.Filesys
open Pintos.Lib

/-- A sector of zeros. -/
def zeroSector : List UInt8 := List.replicate 512 0

/-- `block_write` on the scratch device, a list of sectors; `none` where `check_sector`
panics. -/
def scratchWrite (dev : List (List UInt8)) (sector : Nat) (buffer : List UInt8) :
    Option (List (List UInt8)) :=
  if sector < dev.length then some (dev.set sector buffer) else none

/-- The copy loop of `fsutil_append`, with `size` bytes of `src` left from `pos`; `fuel` bounds
its turns. The device and the position after it, or `none` where it panics. -/
def appendLoop (src : List UInt8) :
    Nat → Nat → Nat → Nat → List (List UInt8) → Option (List (List UInt8) × Nat)
  | _, 0, _, sector, dev => some (dev, sector)
  | 0, _ + 1, _, _, _ => none
  | fuel + 1, size + 1, pos, sector, dev =>
    let chunkSize := min (size + 1) 512
    if dev.length ≤ sector then none
    else
      let read := (src.drop pos).take chunkSize
      if read.length ≠ chunkSize then none
      else
        (scratchWrite dev sector (read ++ List.replicate (512 - chunkSize) 0)).bind fun dev =>
          appendLoop src fuel (size + 1 - chunkSize) (pos + chunkSize) (sector + 1) dev

/-- `fsutil_append` of the file `fileName` holding `src`, from `sector`, the position it kept
from its last call; `past` is the byte just after its 512-byte buffer. The device and the new
position, or `none` where it panics. -/
def fsutilAppend (dev : List (List UInt8)) (sector : Nat) (fileName src : List UInt8)
    (past : UInt8) : Option (List (List UInt8) × Nat) :=
  match ustarMakeHeader fileName .regular src.length with
  | none => none
  | some header =>
    (scratchWrite dev sector header).bind fun dev =>
      (appendLoop src src.length src.length 0 (sector + 1) dev).bind fun (dev, sector) =>
        -- the end marker: the zeroed buffer at sector, then the 512 bytes from buffer + 1, again
        -- at sector
        (scratchWrite dev sector zeroSector).bind fun dev =>
          (scratchWrite dev sector (zeroSector.drop 1 ++ [past])).map fun dev => (dev, sector)

/-- One `append` command: the file's name and bytes, and the byte after the buffer its call of
`fsutil_append` gets from `malloc`. -/
structure Appended where
  fileName : List UInt8
  data : List UInt8
  past : UInt8

/-- Successive `append` commands, from the device and position of the first. -/
def appendAll (dev : List (List UInt8)) (files : List Appended) :
    Option (List (List UInt8) × Nat) :=
  Kit.runs (fun s f => fsutilAppend s.1 s.2 f.fileName f.data f.past) (dev, 0) files

/-- What `fsutil_extract` asks of the file system: `filesys_create`, and `file_write` of a chunk
to the file of a name that `filesys_open` opened; `none` where it fails. -/
structure FsOps (σ : Type) where
  create : σ → List UInt8 → Nat → Option σ
  write : σ → List UInt8 → List UInt8 → Option σ

/-- Where the loop of `fsutil_extract` is: at a header, or copying `size` more bytes of a
file. -/
inductive ExtractPhase where
  | header
  | copy (fileName : List UInt8) (size : Nat)

variable {σ : Type}

/-- The loop of `fsutil_extract` over the sectors from its position on: the file system after
the end of the archive, or `none` where it panics. -/
def extractLoop (ops : FsOps σ) : List (List UInt8) → ExtractPhase → σ → Option σ
  | [], _, _ => none
  | s :: rest, .header, fs =>
    match ustarParseHeader s with
    | .error _ => none
    | .ok (_, .eof, _) => some fs
    | .ok (_, .directory, _) => extractLoop ops rest .header fs
    | .ok (fileName, .regular, size) =>
      (ops.create fs (fileName.getD []) size).bind fun fs =>
        if 0 < size then extractLoop ops rest (.copy (fileName.getD []) size) fs
        else extractLoop ops rest .header fs
  | s :: rest, .copy fileName size, fs =>
    let chunkSize := min size 512
    (ops.write fs fileName (s.take chunkSize)).bind fun fs =>
      if 0 < size - chunkSize then extractLoop ops rest (.copy fileName (size - chunkSize)) fs
      else extractLoop ops rest .header fs

/-- `fsutil_extract`, on its first call, whose position starts at sector 0: the file system, and
the device with the archive's first two sectors zeroed. -/
def fsutilExtract (ops : FsOps σ) (dev : List (List UInt8)) (fs : σ) :
    Option (σ × List (List UInt8)) :=
  (extractLoop ops dev .header fs).bind fun fs =>
    (scratchWrite dev 0 zeroSector).bind fun dev =>
      (scratchWrite dev 1 zeroSector).map fun dev => (fs, dev)

section Layout

variable {src : List UInt8}

/-- A chunk of a file, padded with zeros to a sector. -/
def padSector (chunk : List UInt8) : List UInt8 := chunk ++ List.replicate (512 - chunk.length) 0

/-- The sectors a file's bytes take: its size over 512, rounded up, the last one padded with
zeros. -/
def dataSectors (src : List UInt8) : List (List UInt8) :=
  (List.range ((src.length + 511) / 512)).map fun i => padSector ((src.drop (i * 512)).take 512)

theorem length_dataSectors (src : List UInt8) :
    (dataSectors src).length = (src.length + 511) / 512 := by
  simp [dataSectors]

theorem dataSectors_of_ne_nil (h : src ≠ []) :
    dataSectors src = padSector (src.take 512) :: dataSectors (src.drop 512) := by
  have hlen : 0 < src.length := List.length_pos_iff.mpr h
  have hcnt : (src.length + 511) / 512 = ((src.drop 512).length + 511) / 512 + 1 := by
    rw [List.length_drop]
    omega
  rw [dataSectors, hcnt, List.range_succ_eq_map, List.map_cons, List.map_map, dataSectors]
  refine congrArg₂ List.cons (by simp) (List.map_congr_left fun i _ => ?_)
  simp only [Function.comp, List.drop_drop]
  rw [show 512 + i * 512 = (i + 1) * 512 by omega]

theorem scratchWrite_at (pre rest : List (List UInt8)) (r s : List UInt8) :
    scratchWrite (pre ++ r :: rest) pre.length s = some (pre ++ s :: rest) := by
  rw [scratchWrite, if_pos (by simp), List.set_append_right _ _ (Nat.le_refl _), Nat.sub_self,
    List.set_cons_zero]

/-- The copy loop writes the file's data sectors one after another from its position, given
room for them. -/
theorem appendLoop_spec (src : List UInt8) :
    ∀ (fuel size pos : Nat) (pre rest : List (List UInt8)), (src.drop pos).length = size →
      size ≤ fuel → (size + 511) / 512 ≤ rest.length →
      appendLoop src fuel size pos pre.length (pre ++ rest) =
        some (pre ++ dataSectors (src.drop pos) ++ rest.drop ((size + 511) / 512),
          pre.length + (size + 511) / 512)
  | _, 0, pos, pre, rest, hs, _, _ => by
    rw [List.length_eq_zero_iff.mp hs]
    simp [appendLoop, dataSectors]
  | 0, _ + 1, _, _, _, _, hf, _ => absurd hf (by omega)
  | fuel + 1, size + 1, pos, pre, r :: rest, hs, hf, hroom => by
    have hread : ((src.drop pos).take (min (size + 1) 512)).length = min (size + 1) 512 := by
      simp only [List.length_take, hs]
      omega
    have hpad : (src.drop pos).take (min (size + 1) 512) ++
        List.replicate (512 - min (size + 1) 512) 0 = padSector ((src.drop pos).take 512) := by
      have htake : (src.drop pos).take 512 = (src.drop pos).take (min (size + 1) 512) := by
        rw [List.take_eq_take_min, hs, Nat.min_comm]
      rw [padSector, htake, hread]
    have hnext : (src.drop (pos + min (size + 1) 512)).length = size + 1 - min (size + 1) 512 := by
      simp only [List.length_drop] at hs ⊢
      omega
    have ih := appendLoop_spec src fuel (size + 1 - min (size + 1) 512) (pos + min (size + 1) 512)
      (pre ++ [padSector ((src.drop pos).take 512)]) rest hnext (by omega)
      (by simp only [List.length_cons] at hroom; omega)
    have hdrop : (src.drop pos).drop 512 = src.drop (pos + min (size + 1) 512) := by
      rw [List.drop_drop]
      by_cases hsz : size + 1 ≤ 512
      · rw [List.drop_eq_nil_of_le (by simp only [List.length_drop] at hs ⊢; omega),
          List.drop_eq_nil_of_le (by simp only [List.length_drop] at hs ⊢; omega)]
      · congr 1
        omega
    have hdata : dataSectors (src.drop pos) =
        padSector ((src.drop pos).take 512) :: dataSectors (src.drop (pos + min (size + 1) 512)) := by
      rw [dataSectors_of_ne_nil (fun h => by simp [h] at hs), hdrop]
    have hcnt : (size + 1 + 511) / 512 = (size + 1 - min (size + 1) 512 + 511) / 512 + 1 := by
      omega
    simp only [List.length_append, List.length_singleton] at ih
    rw [appendLoop, if_neg (by simp), if_neg (by rw [hread]; exact fun h => h rfl), hpad,
      scratchWrite_at, Option.bind_some, show pre ++ padSector ((src.drop pos).take 512) :: rest =
        (pre ++ [padSector ((src.drop pos).take 512)]) ++ rest by simp, ih, hdata, hcnt,
      List.drop_succ_cons]
    simp only [List.append_assoc, List.cons_append, List.nil_append]
    congr 2
    omega
  | fuel + 1, size + 1, _, _, [], _, _, hroom => absurd hroom (by simp)

/-- The end marker `fsutil_append` leaves: its zeroed buffer read from one byte on, which
brings in the byte after the buffer. -/
def endMarker (past : UInt8) : List UInt8 := zeroSector.drop 1 ++ [past]

theorem endMarker_eq (past : UInt8) : endMarker past = List.replicate 511 0 ++ [past] := rfl

/-- A file `ustar_make_header` takes: a name it accepts and a size it can write. -/
def Archivable (f : Appended) : Prop :=
  0 ∉ f.fileName ∧ (stripAntisocialPrefixes f.fileName).length ≤ 99 ∧ f.data.length ≤ 0x7FFFFFFF

instance (f : Appended) : Decidable (Archivable f) := inferInstanceAs (Decidable (_ ∧ _ ∧ _))

/-- The header and the data sectors `fsutil_append` writes for a file. -/
def fileSectors (f : Appended) : List (List UInt8) :=
  (ustarMakeHeader f.fileName .regular f.data.length).getD [] :: dataSectors f.data

/-- The sectors of the files, one after another. -/
def archive (files : List Appended) : List (List UInt8) := files.flatMap fileSectors

/-- How many sectors the files take. -/
def archiveSectors (files : List Appended) : Nat :=
  (files.map fun f => 1 + (f.data.length + 511) / 512).sum

/-- The sector after the files: the end marker of the last `append`. -/
def lastMarker (m : List UInt8) (files : List Appended) : List UInt8 :=
  files.foldl (fun _ f => endMarker f.past) m

theorem lastMarker_of_ne_nil (m : List UInt8) :
    ∀ (files : List Appended) (hne : files ≠ []),
      lastMarker m files = endMarker (files.getLast hne).past
  | [f], _ => rfl
  | f :: g :: files, _ => by
    rw [lastMarker, List.foldl_cons, ← lastMarker,
      lastMarker_of_ne_nil _ (g :: files) (List.cons_ne_nil g files),
      List.getLast_cons (List.cons_ne_nil g files)]

theorem header_of_archivable {f : Appended} (hf : Archivable f) :
    ∃ h, ustarMakeHeader f.fileName .regular f.data.length = some h ∧
      ustarParseHeader h = .ok (some (stripAntisocialPrefixes f.fileName), .regular, f.data.length) := by
  obtain ⟨h, hmake, -, hparse⟩ := @ustarParseHeader_make f.fileName .regular f.data.length (by decide) hf.1 hf.2.1
    hf.2.2
  exact ⟨h, hmake, hparse⟩

/-- One `append` writes the file's header and data sectors at its position, and its end marker
after them. -/
theorem fsutilAppend_spec {f : Appended} (hf : Archivable f) (pre rest : List (List UInt8))
    (m : List UInt8) (hroom : (f.data.length + 511) / 512 < rest.length) :
    fsutilAppend (pre ++ m :: rest) pre.length f.fileName f.data f.past =
      some (pre ++ fileSectors f ++ endMarker f.past :: rest.drop ((f.data.length + 511) / 512 + 1),
        (pre ++ fileSectors f).length) := by
  obtain ⟨h, hmake, -⟩ := header_of_archivable hf
  have hloop := appendLoop_spec f.data f.data.length f.data.length 0 (pre ++ [h]) rest
    (by simp) (Nat.le_refl _) (by omega)
  have hpos : (pre ++ [h]).length + (f.data.length + 511) / 512 =
      (pre ++ [h] ++ dataSectors f.data).length := by
    simp only [List.length_append, length_dataSectors]
  rw [List.drop_zero, ← List.getElem_cons_drop hroom, hpos] at hloop
  rw [fsutilAppend, hmake]
  simp only [scratchWrite_at, Option.bind_some]
  rw [show pre.length + 1 = (pre ++ [h]).length by simp,
    show pre ++ h :: rest = pre ++ [h] ++ rest by simp, hloop, Option.bind_some]
  simp only [scratchWrite_at, Option.bind_some, Option.map_some]
  simp [fileSectors, hmake, endMarker]

/-- Successive `append`s lay the files' sectors out one after another from the first position,
each overwriting the end marker of the one before. -/
theorem appendAll_spec :
    ∀ (files : List Appended) (pre rest : List (List UInt8)) (m : List UInt8),
      (∀ f ∈ files, Archivable f) → archiveSectors files ≤ rest.length →
      Kit.runs (fun s f => fsutilAppend s.1 s.2 f.fileName f.data f.past)
          (pre ++ m :: rest, pre.length) files =
        some (pre ++ archive files ++ lastMarker m files :: rest.drop (archiveSectors files),
          (pre ++ archive files).length)
  | [], pre, rest, m, _, _ => by simp [archive, lastMarker, archiveSectors]
  | f :: files, pre, rest, m, hf, hroom => by
    have hsum : archiveSectors (f :: files) =
        (f.data.length + 511) / 512 + 1 + archiveSectors files := by
      simp only [archiveSectors, List.map_cons, List.sum_cons]
      omega
    rw [Kit.runs_cons, fsutilAppend_spec (hf f List.mem_cons_self) pre rest m (by omega),
      Option.bind_some]
    have ih := appendAll_spec files (pre ++ fileSectors f)
      (rest.drop ((f.data.length + 511) / 512 + 1)) (endMarker f.past)
      (fun g hg => hf g (List.mem_cons_of_mem f hg)) (by simp only [List.length_drop]; omega)
    rw [ih, List.drop_drop, ← hsum]
    simp [archive, lastMarker]

end Layout

section Extract

variable {ops : FsOps σ} {rest : List (List UInt8)}

theorem ustarParseHeader_endMarker {past : UInt8} (hpast : past ≠ 0) :
    ustarParseHeader (endMarker past) = .error "not a ustar archive" := by
  have hall : (endMarker past).all (· == 0) = false := by
    refine Bool.eq_false_iff.mpr fun h => hpast ?_
    have hmem : past ∈ endMarker past := List.mem_append.mpr (.inr (List.mem_singleton_self past))
    simpa using List.all_eq_true.mp h past hmem
  have hmagic : (endMarker past).extract 257 263 = List.replicate 6 0 := by
    rw [endMarker_eq, List.extract_eq_take_drop,
      List.drop_append_of_le_length (by rw [List.length_replicate]; omega), List.drop_replicate,
      List.take_append_of_le_length (by rw [List.length_replicate]; omega), List.take_replicate]
    rfl
  rw [ustarParseHeader, hall, hmagic, if_neg Bool.false_ne_true, if_pos (by decide)]

theorem extractLoop_endMarker {past : UInt8} (hpast : past ≠ 0) (fs : σ) :
    extractLoop ops (endMarker past :: rest) .header fs = none := by
  rw [extractLoop, ustarParseHeader_endMarker hpast]

theorem extractLoop_copy (hrest : ∀ fs, extractLoop ops rest .header fs = none) (name : List UInt8) :
    ∀ (k : Nat) (src : List UInt8) (fs : σ), (src.length + 511) / 512 = k → src ≠ [] →
      extractLoop ops (dataSectors src ++ rest) (.copy name src.length) fs = none
  | 0, src, _, hk, hne => absurd hk (by have := List.length_pos_iff.mpr hne; omega)
  | k + 1, src, fs, hk, hne => by
    rw [dataSectors_of_ne_nil hne, List.cons_append, extractLoop]
    cases hw : ops.write fs name ((padSector (src.take 512)).take (min src.length 512)) with
    | none => rfl
    | some fs' =>
      rw [Option.bind_some]
      split
      · -- more than a sector left: the rest of the file, from its next sector
        next hmore =>
        have hlen : (src.drop 512).length = src.length - min src.length 512 := by
          simp only [List.length_drop]
          omega
        rw [← hlen]
        exact extractLoop_copy hrest name k (src.drop 512) fs'
          (by simp only [List.length_drop]; omega)
          (fun h => by simp only [← List.length_eq_zero_iff, List.length_drop] at h; omega)
      · -- the last sector: nothing of the file is left
        next hlast =>
        rw [List.drop_eq_nil_of_le (by omega)]
        exact hrest fs'

theorem extractLoop_archive (hrest : ∀ fs, extractLoop ops rest .header fs = none) :
    ∀ (files : List Appended) (fs : σ), (∀ f ∈ files, Archivable f) →
      extractLoop ops (archive files ++ rest) .header fs = none
  | [], fs, _ => hrest fs
  | f :: files, fs, hf => by
    obtain ⟨h, hmake, hparse⟩ := header_of_archivable (hf f List.mem_cons_self)
    have ih := extractLoop_archive hrest files
    rw [archive, List.flatMap_cons, ← archive, fileSectors, hmake, Option.getD_some,
      List.cons_append, List.cons_append, extractLoop, hparse]
    simp only [Option.getD_some]
    cases hc : ops.create fs (stripAntisocialPrefixes f.fileName) f.data.length with
    | none => rfl
    | some fs' =>
      rw [Option.bind_some]
      split
      · next hpos =>
        rw [List.append_assoc]
        exact extractLoop_copy (fun fs => ih fs fun g hg => hf g (List.mem_cons_of_mem f hg))
          _ _ f.data fs' rfl (fun h => by simp [h] at hpos)
      · next hzero =>
        have hnil : f.data = [] := List.length_eq_zero_iff.mp (by omega)
        rw [hnil, dataSectors, List.length_nil]
        exact ih fs' fun g hg => hf g (List.mem_cons_of_mem f hg)

end Extract

theorem append_end_marker_reads_past_buffer (n : Nat) (files : List Appended) (hne : files ≠ [])
    (hfiles : ∀ f ∈ files, Archivable f) (hroom : archiveSectors files < n)
    (hpast : (files.getLast hne).past ≠ 0) :
    ∃ dev, appendAll (List.replicate n zeroSector) files = some (dev, (archive files).length) ∧
      dev = archive files ++ (List.replicate 511 0 ++ [(files.getLast hne).past]) ::
        List.replicate (n - 1 - archiveSectors files) zeroSector ∧
      ∀ {σ : Type} (ops : FsOps σ) (fs : σ), fsutilExtract ops dev fs = none := by
  have hdev : List.replicate n zeroSector = [] ++ zeroSector :: List.replicate (n - 1) zeroSector := by
    rw [List.nil_append, ← List.replicate_succ, Nat.sub_add_cancel (by omega)]
  have hrun := appendAll_spec files [] (List.replicate (n - 1) zeroSector) zeroSector hfiles
    (by rw [List.length_replicate]; omega)
  rw [← hdev, lastMarker_of_ne_nil zeroSector files hne, List.drop_replicate, List.nil_append] at hrun
  refine ⟨_, hrun, by rw [endMarker_eq], fun ops fs => ?_⟩
  rw [fsutilExtract, extractLoop_archive (fun fs => extractLoop_endMarker hpast fs) files fs hfiles,
    Option.bind_none]

theorem append_end_marker_reads_past_buffer_sample :
    ∃ dev, appendAll (List.replicate 4 zeroSector) [⟨bytesOf "a", [1, 2, 3], 7⟩] =
        some (dev, 2) ∧
      dev[2]? = some (List.replicate 511 0 ++ [7]) ∧
      ∀ {σ : Type} (ops : FsOps σ) (fs : σ), fsutilExtract ops dev fs = none := by
  obtain ⟨dev, hrun, hdev, hext⟩ := append_end_marker_reads_past_buffer 4
    [⟨bytesOf "a", [1, 2, 3], 7⟩] (List.cons_ne_nil _ _) (by decide) (by decide) (by decide)
  have hlen : (archive [⟨bytesOf "a", [1, 2, 3], 7⟩]).length = 2 := by
    simp [archive, fileSectors, length_dataSectors]
  rw [hlen] at hrun
  refine ⟨dev, hrun, ?_, hext⟩
  rw [hdev, List.getElem?_append_right (by rw [hlen]), hlen]
  rfl

end Pintos.Filesys
