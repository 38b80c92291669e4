import Pintos.Userprog.Args

/-! The ELF loader of userprog/process.c. `load` checks the executable header, walks the program
headers, checks each loadable one with `validate_segment` and maps it a page at a time with
`load_segment`, then maps the stack page with `setup_stack`. The page directory is seen as the
map `pagedir_refines_map` shows it to be, and the executable as the byte array
`inode_refines_byte_array` shows its inode to stand for. `none` is a failed `ASSERT`. -/
namespace Pintos.Userprog
open Pintos.Lib

/-- An executable's bytes. `file_length` is an `off_t`, so a file is shorter than `2 ^ 31`. -/
structure Executable where
  bytes : List UInt8
  length_lt : bytes.length < 2 ^ 31

/-- A user page: its 4096 bytes and whether the user may write it. -/
structure UPage where
  bytes : List UInt8
  writable : Bool
  deriving DecidableEq

/-- What `load` works on: `file->pos` of the executable, the user pages of `t->pagedir` and
which of its entries have a page table, and what the coming `palloc_get_page` calls return, a
page or a null pointer; past the list the pools are empty. -/
structure LoadState where
  pos : Int
  pages : UInt32 → Option UPage
  tables : UInt32 → Bool
  grants : List Bool

/-- `palloc_get_page`: whether it returns a page. -/
def pallocGetPage (s : LoadState) : Bool × LoadState :=
  match s.grants with
  | [] => (false, s)
  | g :: gs => (g, { s with grants := gs })

/-- `file_seek`, with its `ASSERT (new_pos >= 0)`. -/
def fileSeek (newPos : Int) (s : LoadState) : Option LoadState :=
  if 0 ≤ newPos then some { s with pos := newPos } else none

/-- `install_page`: `pagedir_get_page` finds nothing at UPAGE, and `pagedir_set_page` maps PAGE
there, taking a page table from `palloc_get_page` when the directory entry has none. The two
`ASSERT`s on UPAGE are `is_user_vaddr`'s in `pagedir_get_page` and `pg_ofs`'s in
`pagedir_set_page`. -/
def installPage (upage : UInt32) (page : UPage) (s : LoadState) : Option (Bool × LoadState) :=
  if isUserVaddr upage = false then none
  else if (s.pages (pgRoundDown upage)).isSome then some (false, s)
  else if pgOfs upage ≠ 0 then none
  else if s.tables (pdNo upage) then
    some (true, { s with pages := Function.update s.pages upage (some page) })
  else
    match pallocGetPage s with
    | (true, s) =>
      some (true, { s with
        pages := Function.update s.pages upage (some page)
        tables := Function.update s.tables (pdNo upage) true })
    | (false, s) => some (false, s)

/-- `setup_stack`: a zeroed page from `palloc_get_page (PAL_USER | PAL_ZERO)`, installed
writable just below `PHYS_BASE`. -/
def setupStack (s : LoadState) : Option (Bool × LoadState) :=
  match pallocGetPage s with
  | (true, s) => installPage (physBase - 4096) ⟨List.replicate 4096 0, true⟩ s
  | (false, s) => some (false, s)

/-- `struct Elf32_Ehdr`, the fields `load` reads. -/
structure Elf32Ehdr where
  eIdent : List UInt8
  eType : UInt16
  eMachine : UInt16
  eVersion : UInt32
  eEntry : UInt32
  ePhoff : UInt32
  ePhentsize : UInt16
  ePhnum : UInt16

/-- `struct Elf32_Phdr`, the fields `load` reads. -/
structure Elf32Phdr where
  pType : UInt32
  pOffset : UInt32
  pVaddr : UInt32
  pFilesz : UInt32
  pMemsz : UInt32
  pFlags : UInt32
  deriving DecidableEq, Repr

/-- The little-endian `Elf32_Half` at P. -/
def halfAt (b : List UInt8) (p : Nat) : UInt16 :=
  ((b.getD p 0).toNat + 256 * (b.getD (p + 1) 0).toNat).toUInt16

/-- The little-endian `Elf32_Word` at P. -/
def wordAt (b : List UInt8) (p : Nat) : UInt32 := (loadWord (b.getD · 0) p).toUInt32

/-- The header in the bytes `file_read` put in `ehdr`. -/
def Elf32Ehdr.ofBytes (b : List UInt8) : Elf32Ehdr :=
  ⟨b.take 16, halfAt b 16, halfAt b 18, wordAt b 20, wordAt b 24, wordAt b 28, halfAt b 42,
    halfAt b 44⟩

/-- The program header in the bytes `file_read` put in `phdr`. -/
def Elf32Phdr.ofBytes (b : List UInt8) : Elf32Phdr :=
  ⟨wordAt b 0, wordAt b 4, wordAt b 8, wordAt b 16, wordAt b 20, wordAt b 24⟩

def ptLoad : UInt32 := 1
def ptDynamic : UInt32 := 2
def ptInterp : UInt32 := 3
def ptShlib : UInt32 := 5
def pfW : UInt32 := 2

/-- `ROUND_UP (x, step)` in `uint32_t`. -/
def roundUp (x step : UInt32) : UInt32 := (x + step - 1) / step * step

/-- PAGE_READ_BYTES of a turn of `load_segment`'s loop. -/
def pageReadBytes (readBytes : UInt32) : UInt32 := if readBytes < 4096 then readBytes else 4096

theorem more_iff {r z : UInt32} : (0 < r ∨ 0 < z) ↔ 0 < r.toNat + z.toNat := by
  simp only [UInt32.lt_iff_toNat_lt, UInt32.toNat_zero]
  omega

theorem turn_toNat {r z : UInt32} (h : (r.toNat + z.toNat) % 4096 = 0) (hmore : 0 < r ∨ 0 < z) :
    (r - pageReadBytes r).toNat + (z - (4096 - pageReadBytes r)).toNat + 4096 =
      r.toNat + z.toNat := by
  have hsum := more_iff.mp hmore
  unfold pageReadBytes
  split
  · -- the last bytes of the file: the rest of the page comes from the zeros
    rename_i hlt
    have hlt : r.toNat < 4096 := UInt32.lt_iff_toNat_lt.mp hlt
    have h4096 : (4096 - r).toNat = 4096 - r.toNat :=
      UInt32.toNat_sub_of_le _ _ (UInt32.le_iff_toNat_le.mpr (by simp only [UInt32.reduceToNat]; omega))
    rw [UInt32.sub_self, UInt32.toNat_sub_of_le _ _ (UInt32.le_iff_toNat_le.mpr (by omega)), h4096]
    simp only [UInt32.toNat_zero]
    omega
  · rename_i hge
    have hge : 4096 ≤ r.toNat := by simpa [UInt32.lt_iff_toNat_lt] using hge
    rw [UInt32.toNat_sub_of_le _ _ (UInt32.le_iff_toNat_le.mpr (by simpa using hge)), UInt32.sub_self,
      UInt32.sub_zero]
    simp only [UInt32.reduceToNat]
    omega

/-- The `uint32_t` sum of `load_segment`'s `ASSERT` wraps at a multiple of a page, so it checks
the sum itself. -/
theorem toNat_add_mod_of_mod {r z : UInt32} (h : (r + z) % 4096 = 0) :
    (r.toNat + z.toNat) % 4096 = 0 := by
  have h' := congrArg UInt32.toNat h
  rw [UInt32.toNat_mod, UInt32.toNat_add] at h'
  simp only [UInt32.reduceToNat] at h'
  omega

section Loader
variable (exe : Executable)

/-- `file_read`: `inode_read_at` at the position, which moves on by the count read. -/
def fileRead (size : Int) (s : LoadState) : Int × List UInt8 × LoadState :=
  let r := Bytes.readAt exe.bytes size s.pos
  (r.1, r.2, { s with pos := s.pos + r.1 })

/-- A turn of `load_segment`'s loop: a page from `palloc_get_page (PAL_USER)`, PAGE_READ_BYTES
of it read from the file and the rest zeroed, installed at UPAGE. -/
def loadPage (upage pageReadBytes : UInt32) (writable : Bool) (s : LoadState) :
    Option (Bool × LoadState) :=
  let pageZeroBytes : UInt32 := 4096 - pageReadBytes
  match pallocGetPage s with
  | (true, s) =>
    let r := fileRead exe pageReadBytes.toNat s
    if r.1 ≠ pageReadBytes.toNat then some (false, r.2.2)
    else installPage upage ⟨r.2.1 ++ List.replicate pageZeroBytes.toNat 0, writable⟩ r.2.2
  | (false, s) => some (false, s)

/-- The loop of `load_segment`, which `ASSERT`s before it that a whole number of pages is to be
loaded; each turn takes a page off. -/
def loadSegmentLoop (upage readBytes zeroBytes : UInt32) (writable : Bool)
    (hpage : (readBytes.toNat + zeroBytes.toNat) % 4096 = 0) (s : LoadState) :
    Option (Bool × LoadState) :=
  if hmore : 0 < readBytes ∨ 0 < zeroBytes then
    match loadPage exe upage (pageReadBytes readBytes) writable s with
    | some (true, s) =>
      loadSegmentLoop (upage + 4096) (readBytes - pageReadBytes readBytes)
        (zeroBytes - (4096 - pageReadBytes readBytes)) writable
        (by have := turn_toNat hpage hmore; omega) s
    | r => r
  else some (true, s)
termination_by readBytes.toNat + zeroBytes.toNat
decreasing_by have := turn_toNat hpage hmore; omega

/-- `load_segment`: its three `ASSERT`s, `file_seek` to OFS, and the loop. -/
def loadSegment (ofs : Int32) (upage readBytes zeroBytes : UInt32) (writable : Bool)
    (s : LoadState) : Option (Bool × LoadState) :=
  if hpage : (readBytes + zeroBytes) % 4096 = 0 then
    if pgOfs upage = 0 ∧ ofs.toInt.tmod 4096 = 0 then
      (fileSeek ofs.toInt s).bind
        (loadSegmentLoop exe upage readBytes zeroBytes writable (toNat_add_mod_of_mod hpage))
    else none
  else none

/-- `validate_segment`. -/
def validateSegment (phdr : Elf32Phdr) : Bool :=
  -- `p_offset` and `p_vaddr` must have the same page offset
  if phdr.pOffset &&& pgMask ≠ phdr.pVaddr &&& pgMask then false
  -- `(Elf32_Off) file_length (file)`
  else if phdr.pOffset > exe.bytes.length.toUInt32 then false
  else if phdr.pMemsz < phdr.pFilesz then false
  else if phdr.pMemsz = 0 then false
  else if !isUserVaddr phdr.pVaddr then false
  else if !isUserVaddr (phdr.pVaddr + phdr.pMemsz) then false
  -- the region cannot wrap around
  else if phdr.pVaddr + phdr.pMemsz < phdr.pVaddr then false
  else if phdr.pVaddr < 4096 then false
  else true

end Loader

/-- What `load` passes to `load_segment` for a segment. -/
structure SegmentLoad where
  filePage : UInt32
  memPage : UInt32
  readBytes : UInt32
  zeroBytes : UInt32
  writable : Bool

/-- The arguments `load` computes for `load_segment` from a PT_LOAD header: a segment with file
bytes reads from the start of its first page, one without reads nothing. -/
def segmentLoad (phdr : Elf32Phdr) : SegmentLoad :=
  let filePage := phdr.pOffset &&& ~~~pgMask
  let memPage := phdr.pVaddr &&& ~~~pgMask
  let pageOffset := phdr.pVaddr &&& pgMask
  let writable := phdr.pFlags &&& pfW ≠ 0
  if phdr.pFilesz > 0 then
    ⟨filePage, memPage, pageOffset + phdr.pFilesz,
      roundUp (pageOffset + phdr.pMemsz) 4096 - (pageOffset + phdr.pFilesz), writable⟩
  else ⟨filePage, memPage, 0, roundUp (pageOffset + phdr.pMemsz) 4096, writable⟩

section Loader
variable (exe : Executable)

/-- The program header loop of `load`, for its last N turns from FILE_OFS: `some (true, s)`
when it runs to its end, `some (false, s)` at a `goto done`. -/
def loadHeaders : Nat → Int32 → LoadState → Option (Bool × LoadState)
  | 0, _, s => some (true, s)
  | n + 1, fileOfs, s =>
    if fileOfs < 0 ∨ fileOfs.toInt > exe.bytes.length then some (false, s)
    else (fileSeek fileOfs.toInt s).bind fun s =>
      let r := fileRead exe 32 s
      if r.1 ≠ 32 then some (false, r.2.2)
      else
        let phdr := Elf32Phdr.ofBytes r.2.1
        if phdr.pType = ptLoad then
          if validateSegment exe phdr then
            let seg := segmentLoad phdr
            match loadSegment exe seg.filePage.toInt32 seg.memPage seg.readBytes seg.zeroBytes
                seg.writable r.2.2 with
            | some (true, s) => loadHeaders n (fileOfs + 32) s
            | r => r
          else some (false, r.2.2)
        else if phdr.pType = ptDynamic ∨ phdr.pType = ptInterp ∨ phdr.pType = ptShlib then
          some (false, r.2.2)
        else loadHeaders n (fileOfs + 32) r.2.2

end Loader

/-- `load`, given what `filesys_open` returns and the answers the allocator gives: the state it
leaves and, when it succeeds, `*eip` and `*esp`. -/
def load (file : Option Executable) (grants : List Bool) :
    Option (LoadState × Option (UInt32 × UInt32)) :=
  -- `pagedir_create`
  match pallocGetPage ⟨0, fun _ => none, fun _ => false, grants⟩ with
  | (false, s) => some (s, none)
  | (true, s) =>
    match file with
    | none => some (s, none)
    | some exe =>
      let r := fileRead exe 52 s
      let ehdr := Elf32Ehdr.ofBytes r.2.1
      if r.1 ≠ 52 ∨ ehdr.eIdent.take 7 ≠ [0x7f, 0x45, 0x4c, 0x46, 1, 1, 1] ∨ ehdr.eType ≠ 2 ∨
          ehdr.eMachine ≠ 3 ∨ ehdr.eVersion ≠ 1 ∨ ehdr.ePhentsize ≠ 32 ∨ ehdr.ePhnum > 1024 then
        some (r.2.2, none)
      else
        (loadHeaders exe ehdr.ePhnum.toNat ehdr.ePhoff.toInt32 r.2.2).bind fun h =>
          if h.1 then
            (setupStack h.2).map fun t => (t.2, if t.1 then some (ehdr.eEntry, physBase) else none)
          else some (h.2, none)

/-! ### One step at a time -/

section Steps
variable {exe : Executable} {s : LoadState}

theorem pallocGetPage_snd (s : LoadState) :
    (pallocGetPage s).2 = { s with grants := s.grants.tail } := by
  obtain ⟨pos, pages, tables, grants⟩ := s
  cases grants <;> rfl

@[simp] theorem pallocGetPage_pages (s : LoadState) : (pallocGetPage s).2.pages = s.pages := by
  rw [pallocGetPage_snd]

@[simp] theorem pallocGetPage_pos (s : LoadState) : (pallocGetPage s).2.pos = s.pos := by
  rw [pallocGetPage_snd]

/-- A `file_read` that reads all it was asked for read the file's bytes from the position on,
as many as there are in the file from there. -/
theorem fileRead_of_eq {size : Int} (hpos : 0 ≤ s.pos)
    (hn : (fileRead exe size s).1 = size) :
    (fileRead exe size s).2.1 = (exe.bytes.drop s.pos.toNat).take size.toNat ∧
      (fileRead exe size s).2.2.pos = s.pos + size ∧
      (fileRead exe size s).2.2.pages = s.pages ∧ size.toNat ≤ exe.bytes.length - s.pos.toNat := by
  have hm : Bytes.moved exe.bytes.length size s.pos = size := hn
  refine ⟨?_, ?_, rfl, ?_⟩
  · show (exe.bytes.drop s.pos.toNat).take (Bytes.moved _ size s.pos).toNat = _
    rw [hm]
  · show s.pos + Bytes.moved _ size s.pos = s.pos + size
    rw [hm]
  · simp only [Bytes.moved] at hm
    omega

/-- `install_page` of a user page never fails an `ASSERT`; where it succeeds, nothing was mapped
at the page and it is mapped now. -/
theorem installPage_spec {upage : UInt32} (page : UPage) (hu : isUserVaddr upage = true)
    (hal : pgOfs upage = 0) :
    ∃ ok s', installPage upage page s = some (ok, s') ∧ s'.pos = s.pos ∧
      (ok = true → s.pages upage = none ∧
        s'.pages = Function.update s.pages upage (some page)) := by
  unfold installPage
  rw [if_neg (by simp [hu]), pgRoundDown_self hal]
  by_cases hm : (s.pages upage).isSome
  · exact ⟨false, s, by rw [if_pos hm], rfl, fun h => nomatch h⟩
  · have hnone : s.pages upage = none := Option.not_isSome_iff_eq_none.mp hm
    rw [if_neg hm, if_neg (not_not.mpr hal)]
    by_cases ht : s.tables (pdNo upage)
    · exact ⟨true, { s with pages := Function.update s.pages upage (some page) }, by rw [if_pos ht],
        rfl, fun _ => ⟨hnone, rfl⟩⟩
    · rw [if_neg ht]
      have hp := pallocGetPage_snd s
      rcases hg : pallocGetPage s with ⟨_ | _, s1⟩ <;> rw [hg] at hp <;> cases hp
      · exact ⟨false, _, rfl, rfl, fun h => nomatch h⟩
      · exact ⟨true, _, rfl, rfl, fun _ => ⟨hnone, rfl⟩⟩

theorem stackPage_user : isUserVaddr (physBase - 4096) = true ∧ pgOfs (physBase - 4096) = 0 :=
  ⟨rfl, rfl⟩

/-- `setup_stack` never fails an `ASSERT`; where it succeeds, nothing was mapped at the stack
page, and a zeroed writable page is mapped there now. -/
theorem setupStack_spec (s : LoadState) :
    ∃ ok s', setupStack s = some (ok, s') ∧
      (ok = true → s.pages (physBase - 4096) = none ∧
        s'.pages = Function.update s.pages (physBase - 4096) (some ⟨List.replicate 4096 0, true⟩)) := by
  unfold setupStack
  have hp := pallocGetPage_snd s
  rcases hg : pallocGetPage s with ⟨_ | _, s1⟩ <;> rw [hg] at hp <;> cases hp
  · exact ⟨false, _, rfl, fun h => nomatch h⟩
  · obtain ⟨ok, s', h, -, hok⟩ := installPage_spec (s := { s with grants := s.grants.tail })
      ⟨List.replicate 4096 0, true⟩ stackPage_user.1 stackPage_user.2
    exact ⟨ok, s', h, hok⟩

end Steps

/-! ### The loop of `load_segment` -/

section Loop
variable (exe : Executable)

/-- The page a loop that reads READ bytes of the file from POS puts at offset BASE: the file's
bytes below READ and zeros past them. -/
def readPage (pos read base : Nat) (writable : Bool) : UPage :=
  ⟨(List.range 4096).map fun j => if base + j < read then exe.bytes.getD (pos + base + j) 0 else 0,
    writable⟩

/-- Whether U is one of the pages from BASE on that LEN bytes cover. -/
def PageIn (base : UInt32) (len : Nat) (u : UInt32) : Prop :=
  pgOfs u = 0 ∧ base.toNat ≤ u.toNat ∧ u.toNat < base.toNat + len

theorem pageReadBytes_toNat (r : UInt32) : (pageReadBytes r).toNat = min r.toNat 4096 := by
  unfold pageReadBytes
  split
  · rename_i h
    have := UInt32.lt_iff_toNat_lt.mp h
    simp only [UInt32.reduceToNat] at this
    omega
  · rename_i h
    have := UInt32.lt_iff_toNat_lt.not.mp h
    simp only [UInt32.reduceToNat] at this ⊢
    omega

variable {exe}

theorem pgOfs_eq_zero_iff (u : UInt32) : pgOfs u = 0 ↔ u.toNat % 4096 = 0 := by
  rw [← pgOfs_toNat, ← UInt32.toNat_inj, UInt32.toNat_zero]

/-- The first page of the loop: the bytes `file_read` returned, then the zeros of the
`memset`. -/
theorem readPage_first {pos read : Nat} (hlen : min read 4096 ≤ exe.bytes.length - pos)
    (writable : Bool) :
    (⟨(exe.bytes.drop pos).take (min read 4096) ++ List.replicate (4096 - min read 4096) 0,
      writable⟩ : UPage) = readPage exe pos read 0 writable := by
  simp only [readPage, UPage.mk.injEq, and_true]
  apply List.ext_getElem
  · simp only [List.length_append, List.length_take, List.length_drop, List.length_replicate,
      List.length_map, List.length_range]
    omega
  · intro i _ h2
    have hi4 : i < 4096 := by simpa using h2
    simp only [List.getElem_map, List.getElem_range, Nat.zero_add, Nat.add_zero]
    by_cases hi : i < min read 4096
    · rw [List.getElem_append_left (by simp only [List.length_take, List.length_drop]; omega),
        List.getElem_take, List.getElem_drop, if_pos (by omega),
        List.getD_eq_getElem _ _ (by omega)]
    · rw [List.getElem_append_right (by simp only [List.length_take, List.length_drop]; omega),
        List.getElem_replicate, if_neg (by omega)]

/-- After a turn the loop reads on from where the page ended: its pages are those of the whole
loop one page further on. -/
theorem readPage_next (pos read base : Nat) (writable : Bool) :
    readPage exe (pos + min read 4096) (read - min read 4096) base writable =
      readPage exe pos read (base + 4096) writable := by
  simp only [readPage, UPage.mk.injEq, and_true]
  apply List.map_congr_left
  intro j _
  split_ifs with h1 h2 h2
  · congr 1
    omega
  · omega
  · omega
  · rfl

/-- The pages that LEN bytes from an aligned BASE cover are BASE and those the rest covers
from the next page on. -/
theorem pageIn_iff {base : UInt32} {len : Nat} (hal : pgOfs base = 0) (hlen : 4096 ≤ len)
    (hnext : (base + 4096).toNat = base.toNat + 4096) (u : UInt32) :
    PageIn base len u ↔ u = base ∨ PageIn (base + 4096) (len - 4096) u := by
  rw [pgOfs_eq_zero_iff] at hal
  unfold PageIn
  rw [hnext, pgOfs_eq_zero_iff, ← UInt32.toNat_inj]
  omega

variable {s : LoadState}

/-- A turn of the loop at a user page never fails an `ASSERT`; where it succeeds, nothing was
mapped at the page, and the page mapped there now holds the PR file bytes from the position on
and zeros after them. -/
theorem loadPage_spec {upage pr : UInt32} {writable : Bool} (hu : isUserVaddr upage = true)
    (hal : pgOfs upage = 0) (hpr : pr.toNat ≤ 4096) (hpos : 0 ≤ s.pos) :
    ∃ ok s', loadPage exe upage pr writable s = some (ok, s') ∧
      (ok = true → s.pages upage = none ∧ s'.pos = s.pos + pr.toNat ∧
        s'.pages = Function.update s.pages upage
          (some ⟨(exe.bytes.drop s.pos.toNat).take pr.toNat ++ List.replicate (4096 - pr.toNat) 0,
            writable⟩) ∧
        pr.toNat ≤ exe.bytes.length - s.pos.toNat) := by
  have hzero : (4096 - pr).toNat = 4096 - pr.toNat :=
    UInt32.toNat_sub_of_le _ _ (UInt32.le_iff_toNat_le.mpr (by simpa using hpr))
  unfold loadPage
  have hp := pallocGetPage_snd s
  rcases hg : pallocGetPage s with ⟨_ | _, s1⟩ <;> rw [hg] at hp <;> cases hp
  · exact ⟨false, _, rfl, fun h => nomatch h⟩
  · dsimp only
    by_cases hn : (fileRead exe pr.toNat { s with grants := s.grants.tail }).1 = pr.toNat
    · -- the page was read whole: it goes to `install_page`
      obtain ⟨hdata, hpos', hpages, hlen⟩ :=
        fileRead_of_eq (s := { s with grants := s.grants.tail }) hpos hn
      rw [if_neg (not_not.mpr hn), hdata, hzero]
      obtain ⟨ok, s', h, hpos'', hok⟩ := installPage_spec (s := (fileRead exe pr.toNat
        { s with grants := s.grants.tail }).2.2) ⟨(exe.bytes.drop s.pos.toNat).take pr.toNat ++
          List.replicate (4096 - pr.toNat) 0, writable⟩ hu hal
      refine ⟨ok, s', h, fun hok' => ?_⟩
      obtain ⟨hnone, hpages'⟩ := hok hok'
      rw [hpages] at hnone hpages'
      exact ⟨hnone, by rw [hpos'', hpos'], hpages', by simpa using hlen⟩
    · rw [if_pos hn]
      exact ⟨false, _, rfl, fun h => nomatch h⟩

theorem loadSegmentLoop_spec {upage r z : UInt32} {writable : Bool}
    {hpage : (r.toNat + z.toNat) % 4096 = 0} (hal : pgOfs upage = 0)
    (huser : upage.toNat + r.toNat + z.toNat ≤ physBase.toNat) (hpos : 0 ≤ s.pos) :
    ∃ ok s', loadSegmentLoop exe upage r z writable hpage s = some (ok, s') ∧
      (ok = true → ∀ u, PageIn upage (r.toNat + z.toNat) u → s.pages u = none ∧
        s'.pages u = some (readPage exe s.pos.toNat r.toNat (u.toNat - upage.toNat) writable)) ∧
      (ok = true → ∀ u, ¬ PageIn upage (r.toNat + z.toNat) u → s'.pages u = s.pages u) := by
  fun_induction loadSegmentLoop exe upage r z writable hpage s with
  | case1 upage r z hpage s hmore s1 hstep ih =>
    have hsum := turn_toNat hpage hmore
    have hpr := pageReadBytes_toNat r
    have hmore := more_iff.mp hmore
    have hPB := physBase_toNat
    have hnext : (upage + 4096).toNat = upage.toNat + 4096 := by
      simp only [UInt32.toNat_add, UInt32.reduceToNat]
      omega
    obtain ⟨ok1, s1', hstep', hok1⟩ := @loadPage_spec exe s upage (pageReadBytes r) writable
      ((isUserVaddr_iff upage).mpr (by omega)) hal (by omega) hpos
    rw [hstep] at hstep'
    obtain ⟨rfl, rfl⟩ := Prod.mk.inj (Option.some.inj hstep').symm
    obtain ⟨hnone, hpos1, hpages1, hlen⟩ := hok1 rfl
    rw [hpr] at hpages1 hlen
    have hal' : pgOfs (upage + 4096) = 0 := by
      rw [pgOfs_eq_zero_iff] at hal ⊢
      omega
    obtain ⟨ok, s', hrun, hin, hout⟩ := ih hal' (by omega) (by omega)
    have hrest : (r - pageReadBytes r).toNat + (z - (4096 - pageReadBytes r)).toNat =
        r.toNat + z.toNat - 4096 := by omega
    rw [hrest] at hin hout
    have hpages4096 : 4096 ≤ r.toNat + z.toNat := by omega
    have hsplit := pageIn_iff hal hpages4096 hnext
    refine ⟨ok, s', hrun, fun hok u hu => ?_, fun hok u hu => ?_⟩
    · rcases (hsplit u).mp hu with rfl | hu'
      · -- the page of this turn, which the rest of the loop leaves alone
        have hnot : ¬ PageIn (u + 4096) (r.toNat + z.toNat - 4096) u :=
          fun h => by have := h.2.1; omega
        refine ⟨hnone, ?_⟩
        rw [hout hok u hnot, hpages1, Function.update_self, Nat.sub_self, readPage_first hlen]
      · -- a page of the rest of the loop, which reads on from where this turn stopped
        have hne : u ≠ upage := fun h => by have := hu'.2.1; rw [h] at this; omega
        obtain ⟨hn1, hp1⟩ := hin hok u hu'
        rw [hpages1, Function.update_of_ne hne] at hn1
        refine ⟨hn1, ?_⟩
        have hle : pageReadBytes r ≤ r := UInt32.le_iff_toNat_le.mpr (by omega)
        have hpos' : (s.pos + ((pageReadBytes r).toNat : Int)).toNat =
            s.pos.toNat + min r.toNat 4096 := by omega
        have hbase : u.toNat - (upage + 4096).toNat + 4096 = u.toNat - upage.toNat := by
          have := hu'.2.1
          omega
        rw [hp1, hpos1, hpos', UInt32.toNat_sub_of_le _ _ hle, hpr, readPage_next, hbase]
    · have hne : u ≠ upage := fun h => hu (by rw [h]; exact ⟨hal, le_refl _, by omega⟩)
      have hnot : ¬ PageIn (upage + 4096) (r.toNat + z.toNat - 4096) u :=
        fun h => hu ((hsplit u).mpr (Or.inr h))
      rw [hout hok u hnot, hpages1, Function.update_of_ne hne]
  | case2 upage r z hpage s hmore hstep =>
    have hPB := physBase_toNat
    have hmore := more_iff.mp hmore
    have hpr := pageReadBytes_toNat r
    obtain ⟨ok, s1, h, -⟩ := @loadPage_spec exe s upage (pageReadBytes r) writable
      ((isUserVaddr_iff upage).mpr (by omega)) hal (by omega) hpos
    cases ok
    · exact ⟨false, s1, h, (fun h => nomatch h), (fun h => nomatch h)⟩
    · exact absurd h (hstep s1)
  | case3 upage r z hpage s hmore =>
    have h0 : r.toNat + z.toNat = 0 := by
      have := mt more_iff.mpr hmore
      omega
    refine ⟨true, s, rfl, fun _ u hu => ?_, fun _ _ _ => rfl⟩
    have := hu.2.1
    have := hu.2.2
    omega

end Loop

/-! ### What a segment means -/

/-- Whether the page at U overlaps the memory `[p_vaddr, p_vaddr + p_memsz)` of the segment. -/
def Elf32Phdr.Overlaps (phdr : Elf32Phdr) (u : UInt32) : Prop :=
  pgOfs u = 0 ∧ phdr.pVaddr.toNat < u.toNat + 4096 ∧
    u.toNat < phdr.pVaddr.toNat + phdr.pMemsz.toNat

/-- The byte the segment puts at the address V of its pages: the file's bytes from the page of
`p_offset` on, up to `p_vaddr + p_filesz`, and zeros past them. A segment with no file bytes is
all zeros. -/
def segmentByte (exe : Executable) (phdr : Elf32Phdr) (v : Nat) : UInt8 :=
  if 0 < phdr.pFilesz.toNat ∧ v < phdr.pVaddr.toNat + phdr.pFilesz.toNat then
    exe.bytes.getD (phdr.pOffset.toNat / 4096 * 4096 + (v - phdr.pVaddr.toNat / 4096 * 4096)) 0
  else 0

/-- The page the segment puts at U, writable when `PF_W` is set. -/
def segmentPage (exe : Executable) (phdr : Elf32Phdr) (u : UInt32) : UPage :=
  ⟨(List.range 4096).map fun j => segmentByte exe phdr (u.toNat + j), phdr.pFlags &&& pfW ≠ 0⟩

instance (phdr : Elf32Phdr) (u : UInt32) : Decidable (phdr.Overlaps u) :=
  inferInstanceAs (Decidable (_ ∧ _ ∧ _))

/-- What `validate_segment` accepts, over the numbers the fields stand for. -/
structure ValidSegment (exe : Executable) (phdr : Elf32Phdr) : Prop where
  offset : phdr.pOffset.toNat % 4096 = phdr.pVaddr.toNat % 4096
  inFile : phdr.pOffset.toNat ≤ exe.bytes.length
  sizes : phdr.pFilesz.toNat ≤ phdr.pMemsz.toNat
  nonempty : 0 < phdr.pMemsz.toNat
  user : phdr.pVaddr.toNat + phdr.pMemsz.toNat < physBase.toNat
  low : 4096 ≤ phdr.pVaddr.toNat

section Segment
variable {exe : Executable} {phdr : Elf32Phdr}

theorem validateSegment_spec (h : validateSegment exe phdr = true) : ValidSegment exe phdr := by
  simp only [validateSegment, Bool.ite_eq_true_distrib, Bool.false_eq_true, if_false_left,
    and_true] at h
  obtain ⟨h1, h2, h3, h4, h5, h6, h7, h8⟩ := h
  have hPB := physBase_toNat
  have hlen := exe.length_lt
  have h1 := congrArg UInt32.toNat (not_not.mp h1)
  change (pgOfs _).toNat = (pgOfs _).toNat at h1
  rw [pgOfs_toNat, pgOfs_toNat] at h1
  have := phdr.pMemsz.toNat_lt
  simp only [gt_iff_lt, UInt32.lt_iff_toNat_lt, Nat.toUInt32_eq, UInt32.toNat_ofNat',
    UInt32.toNat_add, UInt32.reduceToNat, Bool.not_eq_true', Bool.not_eq_false, isUserVaddr,
    decide_eq_true_eq, not_lt] at h2 h3 h5 h6 h7 h8
  have h4 : phdr.pMemsz.toNat ≠ 0 := fun h0 => h4 (UInt32.toNat_inj.mp h0)
  exact ⟨h1, by omega, h3, by omega, by omega, h8⟩

theorem roundUp_toNat {x : UInt32} (hx : x.toNat + 4095 < 2 ^ 32) :
    (roundUp x 4096).toNat = (x.toNat + 4095) / 4096 * 4096 := by
  unfold roundUp
  simp only [UInt32.toNat_mul, UInt32.toNat_div, UInt32.toNat_sub, UInt32.toNat_add,
    UInt32.reduceToNat]
  omega

theorem toInt_toInt32 {x : UInt32} (h : x.toNat < 2 ^ 31) : x.toInt32.toInt = x.toNat := by
  rw [← Int32.toInt_toBitVec, UInt32.toBitVec_toInt32, BitVec.toInt_eq_toNat_cond]
  simp only [UInt32.toNat_toBitVec]
  split <;> omega

theorem toInt_toInt32_of_nonneg {x : UInt32} (h : 0 ≤ x.toInt32.toInt) : x.toInt32.toInt = x.toNat := by
  have hlt := x.toNat_lt
  rw [← Int32.toInt_toBitVec, UInt32.toBitVec_toInt32, BitVec.toInt_eq_toNat_cond] at h ⊢
  simp only [UInt32.toNat_toBitVec] at h ⊢
  split_ifs at h ⊢ <;> omega

/-- The numbers `load` passes to `load_segment` for a valid segment: the pages of `p_offset` and
`p_vaddr`, the offset into its page and the file bytes as READ_BYTES, and in all the offset and
the memory size rounded up to a page. -/
theorem segmentLoad_spec (hv : ValidSegment exe phdr) :
    (segmentLoad phdr).filePage.toNat = phdr.pOffset.toNat / 4096 * 4096 ∧
    (segmentLoad phdr).memPage.toNat = phdr.pVaddr.toNat / 4096 * 4096 ∧
    (segmentLoad phdr).readBytes.toNat =
      (if 0 < phdr.pFilesz.toNat then phdr.pVaddr.toNat % 4096 + phdr.pFilesz.toNat else 0) ∧
    (segmentLoad phdr).readBytes.toNat + (segmentLoad phdr).zeroBytes.toNat =
      (phdr.pVaddr.toNat % 4096 + phdr.pMemsz.toNat + 4095) / 4096 * 4096 := by
  have hPB := physBase_toNat
  have hu := hv.user
  have hs := hv.sizes
  have hpo : (phdr.pVaddr &&& pgMask).toNat = phdr.pVaddr.toNat % 4096 := pgOfs_toNat _
  have hmem : ((phdr.pVaddr &&& pgMask) + phdr.pMemsz).toNat =
      phdr.pVaddr.toNat % 4096 + phdr.pMemsz.toNat := by
    rw [UInt32.toNat_add, hpo]
    omega
  have hfile : ((phdr.pVaddr &&& pgMask) + phdr.pFilesz).toNat =
      phdr.pVaddr.toNat % 4096 + phdr.pFilesz.toNat := by
    rw [UInt32.toNat_add, hpo]
    omega
  have hround := roundUp_toNat (x := (phdr.pVaddr &&& pgMask) + phdr.pMemsz) (by rw [hmem]; omega)
  rw [hmem] at hround
  unfold segmentLoad
  dsimp only
  split
  · rename_i hf
    have hf : 0 < phdr.pFilesz.toNat := by simpa [UInt32.lt_iff_toNat_lt] using hf
    refine ⟨pgRoundDown_toNat _, pgRoundDown_toNat _, by rw [hfile, if_pos hf], ?_⟩
    have hle : (phdr.pVaddr &&& pgMask) + phdr.pFilesz ≤ roundUp ((phdr.pVaddr &&& pgMask) + phdr.pMemsz) 4096 :=
      UInt32.le_iff_toNat_le.mpr (by rw [hfile, hround]; omega)
    rw [UInt32.toNat_sub_of_le _ _ hle, hround, hfile]
    omega
  · rename_i hf
    have hf : phdr.pFilesz.toNat = 0 := by simpa [UInt32.lt_iff_toNat_lt] using hf
    refine ⟨pgRoundDown_toNat _, pgRoundDown_toNat _, by rw [if_neg (by omega)]; rfl, ?_⟩
    rw [hround]
    exact Nat.zero_add _

theorem pageIn_iff_overlaps (hv : ValidSegment exe phdr) (u : UInt32) :
    PageIn (segmentLoad phdr).memPage
        ((segmentLoad phdr).readBytes.toNat + (segmentLoad phdr).zeroBytes.toNat) u ↔
      phdr.Overlaps u := by
  obtain ⟨-, hmp, -, hsum⟩ := segmentLoad_spec hv
  unfold PageIn Elf32Phdr.Overlaps
  rw [hmp, hsum, pgOfs_eq_zero_iff]
  omega

/-- The page the loop of a valid segment reads at a page the segment overlaps is the segment's
page there. -/
theorem readPage_segment (hv : ValidSegment exe phdr) {u : UInt32} (hu : phdr.Overlaps u) :
    readPage exe (segmentLoad phdr).filePage.toNat (segmentLoad phdr).readBytes.toNat
        (u.toNat - (segmentLoad phdr).memPage.toNat) (segmentLoad phdr).writable =
      segmentPage exe phdr u := by
  obtain ⟨hfp, hmp, hrb, -⟩ := segmentLoad_spec hv
  have hw : (segmentLoad phdr).writable = decide (phdr.pFlags &&& pfW ≠ 0) := by
    unfold segmentLoad
    dsimp only
    split <;> rfl
  have hofs := hv.offset
  have hal := (pgOfs_eq_zero_iff u).mp hu.1
  have hlo := hu.2.1
  simp only [readPage, segmentPage, hw, UPage.mk.injEq, and_true]
  apply List.map_congr_left
  intro j _
  unfold segmentByte
  rw [hfp, hmp, hrb]
  by_cases hf : 0 < phdr.pFilesz.toNat
  · -- the bytes below `p_vaddr + p_filesz` come from the file, from the page of `p_offset` on
    rw [if_pos hf]
    split_ifs with h1 h2 h2
    · exact congrArg (fun i => exe.bytes.getD i 0) (by omega)
    all_goals first | omega | rfl
  · -- no file bytes: READ_BYTES is 0 and the page is zeros
    rw [if_neg hf]
    split_ifs with h1 h2 h2
    all_goals first | omega | rfl

/-- `load_segment` on what `load` passes for a valid segment never fails an `ASSERT`; where it
succeeds, nothing was mapped at the pages the segment overlaps, each now holds the segment's
page, and every other page is as it was. -/
theorem loadSegment_spec (hv : ValidSegment exe phdr) (s : LoadState) :
    ∃ ok s', loadSegment exe (segmentLoad phdr).filePage.toInt32 (segmentLoad phdr).memPage
        (segmentLoad phdr).readBytes (segmentLoad phdr).zeroBytes (segmentLoad phdr).writable s =
        some (ok, s') ∧
      (ok = true → ∀ u, phdr.Overlaps u → s.pages u = none ∧
        s'.pages u = some (segmentPage exe phdr u)) ∧
      (ok = true → ∀ u, ¬ phdr.Overlaps u → s'.pages u = s.pages u) := by
  obtain ⟨hfp, hmp, -, hsum⟩ := segmentLoad_spec hv
  have hPB := physBase_toNat
  have hlen := exe.length_lt
  have hin := hv.inFile
  have hu := hv.user
  have hmod : ((segmentLoad phdr).readBytes + (segmentLoad phdr).zeroBytes) % 4096 = 0 := by
    apply UInt32.toNat_inj.mp
    simp only [UInt32.toNat_mod, UInt32.toNat_add, UInt32.reduceToNat, UInt32.toNat_zero]
    omega
  have hal : pgOfs (segmentLoad phdr).memPage = 0 := (pgOfs_eq_zero_iff _).mpr (by omega)
  have hofs : (segmentLoad phdr).filePage.toInt32.toInt = (segmentLoad phdr).filePage.toNat :=
    toInt_toInt32 (by omega)
  have htmod : (segmentLoad phdr).filePage.toInt32.toInt.tmod 4096 = 0 := by
    rw [hofs, Int.tmod_eq_emod_of_nonneg (by omega)]
    omega
  unfold loadSegment
  rw [dif_pos hmod, if_pos ⟨hal, htmod⟩, fileSeek, if_pos (by omega), Option.bind_some]
  obtain ⟨ok, s', h, hnew, hold⟩ := @loadSegmentLoop_spec exe
    { s with pos := (segmentLoad phdr).filePage.toInt32.toInt } _ (segmentLoad phdr).readBytes
    (segmentLoad phdr).zeroBytes (segmentLoad phdr).writable (toNat_add_mod_of_mod hmod) hal
    (by omega) (show 0 ≤ (segmentLoad phdr).filePage.toInt32.toInt by omega)
  refine ⟨ok, s', h, fun hok u hov => ?_, fun hok u hov => hold hok u ((pageIn_iff_overlaps hv u).not.mpr hov)⟩
  obtain ⟨hnone, hpage⟩ := hnew hok u ((pageIn_iff_overlaps hv u).mpr hov)
  refine ⟨hnone, ?_⟩
  rw [hpage, hofs, Int.toNat_natCast, readPage_segment hv hov]

end Segment

/-! ### The program headers -/

/-- The program header at offset OFS of the file. -/
def headerAt (exe : Executable) (ofs : Nat) : Elf32Phdr :=
  Elf32Phdr.ofBytes ((exe.bytes.drop ofs).take 32)

/-- The N program headers from offset OFS on. -/
def headersFrom (exe : Executable) : Nat → Nat → List Elf32Phdr
  | _, 0 => []
  | ofs, n + 1 => headerAt exe ofs :: headersFrom exe (ofs + 32) n

/-- The executable header, in the first 52 bytes of the file. -/
def Executable.ehdr (exe : Executable) : Elf32Ehdr := Elf32Ehdr.ofBytes (exe.bytes.take 52)

/-- The loadable segments of the executable: its program headers of type PT_LOAD. -/
def Executable.segments (exe : Executable) : List Elf32Phdr :=
  (headersFrom exe exe.ehdr.ePhoff.toNat exe.ehdr.ePhnum.toNat).filter (·.pType == ptLoad)

/-- The user pages once the segments DONE are loaded: each was accepted by `validate_segment`,
each page one of them overlaps holds that segment's page, and no other page is mapped. -/
structure Image (exe : Executable) (done : List Elf32Phdr) (s : LoadState) : Prop where
  valid : ∀ phdr ∈ done, validateSegment exe phdr = true
  mapped : ∀ phdr ∈ done, ∀ u, phdr.Overlaps u → s.pages u = some (segmentPage exe phdr u)
  only : ∀ u, s.pages u ≠ none → ∃ phdr ∈ done, phdr.Overlaps u

section Headers
variable {exe : Executable} {done : List Elf32Phdr} {s s' : LoadState}

theorem Image.of_pages (h : Image exe done s) (hp : s'.pages = s.pages) : Image exe done s' :=
  ⟨h.valid, fun phdr hm u hu => hp ▸ h.mapped phdr hm u hu, fun u hu => h.only u (hp ▸ hu)⟩

/-- Loading one more valid segment keeps the image: the pages it overlaps were free, so no
earlier segment overlaps them. -/
theorem Image.segment (h : Image exe done s) {phdr : Elf32Phdr} (hv : validateSegment exe phdr = true)
    (hok : loadSegment exe (segmentLoad phdr).filePage.toInt32 (segmentLoad phdr).memPage
      (segmentLoad phdr).readBytes (segmentLoad phdr).zeroBytes (segmentLoad phdr).writable s =
      some (true, s')) :
    Image exe (done ++ [phdr]) s' := by
  obtain ⟨ok, s'', hseg, hnew, hold⟩ := loadSegment_spec (validateSegment_spec hv) s
  rw [hok] at hseg
  obtain ⟨rfl, rfl⟩ := Prod.mk.inj (Option.some.inj hseg)
  refine ⟨fun p hp => ?_, fun p hp u hu => ?_, fun u hu => ?_⟩
  · rcases List.mem_append.mp hp with hp | hp
    · exact h.valid p hp
    · rw [List.mem_singleton.mp hp]
      exact hv
  · rcases List.mem_append.mp hp with hp | hp
    · -- an earlier segment's page was mapped, so the new segment does not overlap it
      have hmap := h.mapped p hp u hu
      have hnot : ¬ phdr.Overlaps u := fun hov => by rw [(hnew rfl u hov).1] at hmap; cases hmap
      rw [hold rfl u hnot, hmap]
    · rw [List.mem_singleton.mp hp]
      exact (hnew rfl u (List.mem_singleton.mp hp ▸ hu)).2
  · by_cases hov : phdr.Overlaps u
    · exact ⟨phdr, List.mem_append_right _ (List.mem_singleton_self _), hov⟩
    · obtain ⟨p, hp, hpu⟩ := h.only u (by rwa [hold rfl u hov] at hu)
      exact ⟨p, List.mem_append_left _ hp, hpu⟩

theorem toInt_add_32 {a : Int32} (h0 : 0 ≤ a.toInt) (h1 : 0 ≤ (a + 32).toInt) :
    (a + 32).toInt = a.toInt + 32 := by
  have hlt := Int32.toInt_lt a
  have h32 : (32 : Int32).toInt = 32 := by decide
  rw [Int32.toInt_add, h32, Int.bmod_def] at h1 ⊢
  push_cast at h1 ⊢
  split_ifs at h1 ⊢ <;> omega

theorem headersFrom_next {fileOfs : Int32} {n : Nat} (h0 : 0 ≤ fileOfs.toInt)
    (h : n = 0 ∨ 0 ≤ (fileOfs + 32).toInt) :
    headersFrom exe (fileOfs + 32).toInt.toNat n = headersFrom exe (fileOfs.toInt.toNat + 32) n := by
  rcases h with rfl | hpos
  · rfl
  · rw [toInt_add_32 h0 hpos]
    congr 1
    omega

/-- The program header loop never fails an `ASSERT`; where it runs to its end, it read its
headers from FILE_OFS on, 32 bytes apart, and the PT_LOAD ones among them are loaded on top of
the image it started from. -/
theorem loadHeaders_spec (n : Nat) : ∀ (fileOfs : Int32) (s : LoadState) (done : List Elf32Phdr),
    Image exe done s → ∃ ok s', loadHeaders exe n fileOfs s = some (ok, s') ∧
      (ok = true → (n = 0 ∨ 0 ≤ fileOfs.toInt) ∧
        Image exe (done ++ (headersFrom exe fileOfs.toInt.toNat n).filter (·.pType == ptLoad)) s') := by
  induction n with
  | zero =>
    intro fileOfs s done h
    exact ⟨true, s, rfl, fun _ => ⟨Or.inl rfl, by simpa [headersFrom] using h⟩⟩
  | succ n ih =>
    intro fileOfs s done h
    unfold loadHeaders
    by_cases hbad : fileOfs < 0 ∨ fileOfs.toInt > exe.bytes.length
    · rw [if_pos hbad]
      exact ⟨false, s, rfl, nofun⟩
    rw [if_neg hbad]
    have h0 : 0 ≤ fileOfs.toInt := by
      have := (not_or.mp hbad).1
      rw [Int32.lt_iff_toInt_lt, Int32.toInt_zero] at this
      omega
    rw [fileSeek, if_pos h0, Option.bind_some]
    dsimp only
    by_cases hn : (fileRead exe 32 { s with pos := fileOfs.toInt }).1 = 32
    swap
    · rw [if_pos hn]
      exact ⟨false, _, rfl, nofun⟩
    rw [if_neg (not_not.mpr hn)]
    obtain ⟨hdata, -, hpages, -⟩ := fileRead_of_eq (s := { s with pos := fileOfs.toInt }) h0 hn
    have hphdr : Elf32Phdr.ofBytes (fileRead exe 32 { s with pos := fileOfs.toInt }).2.1 =
        headerAt exe fileOfs.toInt.toNat := by
      rw [hdata]
      rfl
    rw [hphdr]
    have h1 : Image exe done (fileRead exe 32 { s with pos := fileOfs.toInt }).2.2 := h.of_pages hpages
    have hcont : ∀ s2 done', Image exe done' s2 →
        done ++ (headersFrom exe fileOfs.toInt.toNat (n + 1)).filter (·.pType == ptLoad) =
          done' ++ (headersFrom exe (fileOfs.toInt.toNat + 32) n).filter (·.pType == ptLoad) →
        ∃ ok s', loadHeaders exe n (fileOfs + 32) s2 = some (ok, s') ∧
          (ok = true → (n + 1 = 0 ∨ 0 ≤ fileOfs.toInt) ∧
            Image exe (done ++ (headersFrom exe fileOfs.toInt.toNat (n + 1)).filter
              (·.pType == ptLoad)) s') := by
      intro s2 done' h2 heq
      obtain ⟨ok, s', hrun, hok⟩ := ih (fileOfs + 32) s2 done' h2
      refine ⟨ok, s', hrun, fun hok' => ?_⟩
      obtain ⟨hnz, himg⟩ := hok hok'
      rw [headersFrom_next h0 hnz, ← heq] at himg
      exact ⟨Or.inr h0, himg⟩
    by_cases hload : (headerAt exe fileOfs.toInt.toNat).pType = ptLoad
    · rw [if_pos hload]
      by_cases hv : validateSegment exe (headerAt exe fileOfs.toInt.toNat) = true
      swap
      · rw [if_neg hv]
        exact ⟨false, _, rfl, nofun⟩
      rw [if_pos hv]
      obtain ⟨ok, s2, hseg, -⟩ := loadSegment_spec (validateSegment_spec hv)
        (fileRead exe 32 { s with pos := fileOfs.toInt }).2.2
      rw [hseg]
      cases ok
      · exact ⟨false, s2, rfl, nofun⟩
      · -- a loaded segment joins the image
        exact hcont s2 _ (h1.segment hv hseg) (by
          rw [headersFrom, List.filter_cons_of_pos (by simpa using hload), List.append_assoc,
            List.singleton_append])
    · rw [if_neg hload]
      by_cases hbad : (headerAt exe fileOfs.toInt.toNat).pType = ptDynamic ∨
          (headerAt exe fileOfs.toInt.toNat).pType = ptInterp ∨
          (headerAt exe fileOfs.toInt.toNat).pType = ptShlib
      · rw [if_pos hbad]
        exact ⟨false, _, rfl, nofun⟩
      · -- an ignored header
        rw [if_neg hbad]
        exact hcont _ done h1 (by rw [headersFrom, List.filter_cons_of_neg (by simpa using hload)])

end Headers

/-! ### `load` -/

section Load
variable {exe : Executable} {grants : List Bool}

theorem image_nil {s : LoadState} (h : ∀ u, s.pages u = none) : Image exe [] s :=
  ⟨nofun, nofun, fun u hu => absurd (h u) hu⟩

/-- The header loop from E_PHOFF read the program headers of the executable: when it ran at all,
E_PHOFF was an offset below `2 ^ 31`. -/
theorem headersFrom_ehdr {e : Elf32Ehdr} (h : e.ePhnum.toNat = 0 ∨ 0 ≤ e.ePhoff.toInt32.toInt) :
    headersFrom exe e.ePhoff.toInt32.toInt.toNat e.ePhnum.toNat =
      headersFrom exe e.ePhoff.toNat e.ePhnum.toNat := by
  rcases h with h | h
  · rw [h]
    rfl
  · rw [toInt_toInt32_of_nonneg h, Int.toNat_natCast]

/-- Once the stack page is mapped on top of the segments' image, the segments' pages lie between
page 0 and the stack page. -/
theorem segment_page_bounds {phdr : Elf32Phdr} (hv : validateSegment exe phdr = true) {u : UInt32}
    (hu : phdr.Overlaps u) (hne : u ≠ physBase - 4096) :
    4096 ≤ u.toNat ∧ u.toNat + 4096 ≤ physBase.toNat - 4096 := by
  have hv := validateSegment_spec hv
  have hPB := physBase_toNat
  have hlow := hv.low
  have huser := hv.user
  have hal := (pgOfs_eq_zero_iff u).mp hu.1
  have hlo := hu.2.1
  have hhi := hu.2.2
  have hne : u.toNat ≠ 3221221376 := fun h => hne (UInt32.toNat_inj.mp (by rw [h]; rfl))
  omega

/-- `load` never fails an `ASSERT`, whatever the executable holds and whatever the allocator
answers. When it succeeds, it returns the entry point and `PHYS_BASE`, and the user pages are
exactly those of the PT_LOAD segments, each accepted by `validate_segment`, and the stack page:
each page a segment overlaps lies between page 0 and the stack page and holds the segment's page,
writable when `PF_W` is set, with the file's bytes up to `p_vaddr + p_filesz` and zeros after
them; a segment with no file bytes is all zeros. -/
theorem load_maps_segments (exe : Executable) (grants : List Bool) :
    load (some exe) grants ≠ none ∧
    ∀ s eip esp, load (some exe) grants = some (s, some (eip, esp)) →
      eip = exe.ehdr.eEntry ∧ esp = physBase ∧
      (∀ phdr ∈ exe.segments, validateSegment exe phdr = true ∧
        ∀ u, phdr.Overlaps u → 4096 ≤ u.toNat ∧ u.toNat + 4096 ≤ physBase.toNat - 4096 ∧
          s.pages u = some (segmentPage exe phdr u)) ∧
      s.pages (physBase - 4096) = some ⟨List.replicate 4096 0, true⟩ ∧
      ∀ u, s.pages u ≠ none → u = physBase - 4096 ∨ ∃ phdr ∈ exe.segments, phdr.Overlaps u := by
  unfold load
  have hp := pallocGetPage_snd ⟨0, fun _ => none, fun _ => false, grants⟩
  rcases hg : pallocGetPage ⟨0, fun _ => none, fun _ => false, grants⟩ with ⟨_ | _, s0⟩ <;>
    rw [hg] at hp <;> cases hp
  · exact ⟨nofun, fun _ _ _ h => nomatch h⟩
  dsimp only
  split_ifs with hhdr
  · exact ⟨nofun, fun _ _ _ h => nomatch h⟩
  have hn : (fileRead exe 52 ⟨0, fun _ => none, fun _ => false, grants.tail⟩).1 = 52 :=
    not_not.mp (not_or.mp hhdr).1
  obtain ⟨hdata, -, hpages, -⟩ := fileRead_of_eq le_rfl hn
  have hehdr : Elf32Ehdr.ofBytes (fileRead exe 52 ⟨0, fun _ => none, fun _ => false, grants.tail⟩).2.1 =
      exe.ehdr := by
    rw [hdata]
    rfl
  rw [hehdr]
  obtain ⟨ok, h, hrun, hok⟩ := loadHeaders_spec exe.ehdr.ePhnum.toNat exe.ehdr.ePhoff.toInt32 _ []
    (image_nil (s := (fileRead exe 52 ⟨0, fun _ => none, fun _ => false, grants.tail⟩).2.2)
      (fun u => by rw [hpages]))
  rw [hrun, Option.bind_some]
  cases ok
  · exact ⟨nofun, fun _ _ _ h => nomatch h⟩
  obtain ⟨hnz, himg⟩ := hok rfl
  rw [List.nil_append, headersFrom_ehdr hnz] at himg
  obtain ⟨ok2, t, hstack, hok2⟩ := setupStack_spec h
  dsimp only
  rw [if_pos rfl, hstack, Option.map_some]
  refine ⟨nofun, fun s eip esp heq => ?_⟩
  cases ok2
  · exact nomatch heq
  obtain ⟨hfree, htpages⟩ := hok2 rfl
  simp only [if_true, Option.some.injEq, Prod.mk.injEq] at heq
  obtain ⟨rfl, rfl, rfl⟩ := heq
  have hsegs : ∀ phdr ∈ exe.segments, ∀ u, phdr.Overlaps u → u ≠ physBase - 4096 := by
    intro phdr hm u hu hstk
    have := himg.mapped phdr hm u hu
    rw [hstk, hfree] at this
    cases this
  refine ⟨rfl, rfl, fun phdr hm => ⟨himg.valid phdr hm, fun u hu => ?_⟩, ?_, fun u hu => ?_⟩
  · refine ⟨(segment_page_bounds (himg.valid phdr hm) hu (hsegs phdr hm u hu)).1,
      (segment_page_bounds (himg.valid phdr hm) hu (hsegs phdr hm u hu)).2, ?_⟩
    rw [htpages, Function.update_of_ne (hsegs phdr hm u hu)]
    exact himg.mapped phdr hm u hu
  · rw [htpages, Function.update_self]
  · by_cases hstk : u = physBase - 4096
    · exact Or.inl hstk
    · rw [htpages, Function.update_of_ne hstk] at hu
      exact Or.inr (himg.only u hu)

/-- The executable header of the samples: i386 ELF, entry 0x8000, one program header at 52. -/
def sampleEhdr : List UInt8 :=
  [0x7f, 0x45, 0x4c, 0x46, 1, 1, 1, 0, 0, 0, 0, 0, 0, 0, 0, 0, 2, 0, 3, 0, 1, 0, 0, 0,
    0, 0x80, 0, 0, 52, 0, 0, 0, 0, 0, 0, 0, 0, 0, 0, 0, 52, 0, 32, 0, 1, 0, 0, 0, 0, 0, 0, 0]

/-- A text segment: the whole file read-only at 0x8000, in two pages of memory. -/
def textExe : Executable :=
  ⟨sampleEhdr ++ [1, 0, 0, 0, 0, 0, 0, 0, 0, 0x80, 0, 0, 0, 0x80, 0, 0, 84, 0, 0, 0,
    0, 0x18, 0, 0, 5, 0, 0, 0, 0, 0x10, 0, 0], by decide⟩

theorem load_maps_segments_sample : ∃ s, load (some textExe) (List.replicate 6 true) =
    some (s, some (0x8000, physBase)) ∧
      s.pages 0x9000 = some (segmentPage textExe (headerAt textExe 52) 0x9000) := by
  have hrun : (load (some textExe) (List.replicate 6 true)).map
      (fun r => decide (r.2 = some (0x8000, physBase))) = some true := by
    decide +kernel
  obtain ⟨⟨s, e⟩, hs, he⟩ := Option.map_eq_some_iff.mp hrun
  cases of_decide_eq_true he
  exact ⟨s, hs, (((load_maps_segments textExe _).2 s _ _ hs).2.2.1 _ (by decide +kernel)).2
    0x9000 (by decide) |>.2.2⟩

/-- A segment with no file bytes that starts one byte into its page. -/
def bssExe : Executable :=
  ⟨sampleEhdr ++ [1, 0, 0, 0, 1, 0, 0, 0, 1, 0x80, 0, 0, 0, 0, 0, 0, 0, 0, 0, 0,
    1, 0, 0, 0, 6, 0, 0, 0, 0, 0x10, 0, 0], by decide⟩

/-- A segment with `p_filesz = 0` gets a page of zeros, also below `p_vaddr`: the byte at
`pg_round_down (p_vaddr)` is 0, not the file byte at `p_offset & ~PGMASK`, which is the `0x7f`
of the ELF magic. -/
theorem load_zeroes_page_without_file_bytes : ∃ s e, load (some bssExe) (List.replicate 5 true) =
    some (s, some e) ∧ ∃ phdr ∈ bssExe.segments, phdr.pFilesz = 0 ∧
      (pgRoundDown phdr.pVaddr).toNat < phdr.pVaddr.toNat + phdr.pFilesz.toNat ∧
      (s.pages (pgRoundDown phdr.pVaddr)).map (·.bytes.getD 0 0) = some 0 ∧
      bssExe.bytes.getD (phdr.pOffset.toNat / 4096 * 4096 +
        ((pgRoundDown phdr.pVaddr).toNat - phdr.pVaddr.toNat / 4096 * 4096)) 0 = 0x7f := by
  have hrun : (load (some bssExe) (List.replicate 5 true)).map (fun r => decide (r.2.isSome ∧
      (r.1.pages 0x8000).map (·.bytes.getD 0 0) = some 0)) = some true := by
    decide +kernel
  obtain ⟨⟨s, e⟩, hs, he⟩ := Option.map_eq_some_iff.mp hrun
  obtain ⟨hsome, hzero⟩ := of_decide_eq_true he
  obtain ⟨e, rfl⟩ := Option.isSome_iff_exists.mp hsome
  exact ⟨s, e, hs, headerAt bssExe 52, by decide +kernel, rfl, by decide, hzero, by decide⟩

end Load

end Pintos.Userprog
