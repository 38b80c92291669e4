import Mathlib.Data.List.Basic

/-! The VGA text display of devices/vga.c: the cursor `(cx, cy)`, the framebuffer at `0xb8000`
read as rows of `COL_CNT` cells, and `vga_putc` with its control characters and the scrolling of
`newline`. From a cursor on the screen, every run of `vga_putc` writes only cells of the screen
and keeps the cursor on it; `find_cursor` can start the cursor below the screen. -/
namespace Pintos.Devices

/-- `COL_CNT`. -/
def colCnt : Nat := 80

/-- `ROW_CNT`. -/
def rowCnt : Nat := 25

/-- `GRAY_ON_BLACK`. -/
def grayOnBlack : UInt8 := 0x07

/-- The display: the cursor, the framebuffer as `fb[y][x]` (a character and an attribute, in rows
of `COL_CNT` cells from `0xb8000`, with no bound on `y`), and the cells written so far. -/
structure Vga where
  cx : Nat
  cy : Nat
  fb : Nat → Nat → UInt8 × UInt8
  written : List (Nat × Nat)

/-- Writing the cell `fb[y][x]`. -/
def Vga.put (s : Vga) (y x : Nat) (v : UInt8 × UInt8) : Vga :=
  { s with
    fb := fun y' x' => if y' = y ∧ x' = x then v else s.fb y' x'
    written := s.written ++ [(y, x)] }

/-- The first `n` turns of the loop of `clear_row (y)`. -/
def clearRowLoop (s : Vga) (y : Nat) : Nat → Vga
  | 0 => s
  | n + 1 => (clearRowLoop s y n).put y n (32, grayOnBlack)

/-- `clear_row`. -/
def clearRow (s : Vga) (y : Nat) : Vga := clearRowLoop s y colCnt

/-- `cls`; the hardware cursor update leaves the display as it is. -/
def cls (s : Vga) : Vga :=
  { (List.range rowCnt).foldl clearRow s with cx := 0, cy := 0 }

/-- The `memmove` of `newline`: rows 1 to `ROW_CNT - 1` move up one row. -/
def scrollUp (s : Vga) : Vga :=
  { s with
    fb := fun y x => if y < rowCnt - 1 ∧ x < colCnt then s.fb (y + 1) x else s.fb y x
    written := s.written ++
      (List.range (rowCnt - 1)).flatMap fun y => (List.range colCnt).map fun x => (y, x) }

/-- `newline`. -/
def newline (s : Vga) : Vga :=
  if s.cy + 1 ≥ rowCnt then clearRow (scrollUp { s with cx := 0, cy := rowCnt - 1 }) (rowCnt - 1)
  else { s with cx := 0, cy := s.cy + 1 }

/-- `ROUND_UP (x, step)`. -/
def roundUp (x step : Nat) : Nat := (x + step - 1) / step * step

/-- `vga_putc` once `init` has run, on the codes of `'\n'` (10), `'\f'` (12), `'\b'` (8),
`'\r'` (13), `'\t'` (9) and `'\a'` (7); the beep and the hardware cursor update leave the display
as it is. -/
def vgaPutc (s : Vga) (c : Int) : Vga :=
  if c = 10 then newline s
  else if c = 12 then cls s
  else if c = 8 then (if s.cx > 0 then { s with cx := s.cx - 1 } else s)
  else if c = 13 then { s with cx := 0 }
  else if c = 9 then
    let s := { s with cx := roundUp (s.cx + 1) 8 }
    if s.cx ≥ colCnt then newline s else s
  else if c = 7 then s
  else
    let s := s.put s.cy s.cx (UInt8.ofInt c, grayOnBlack)
    let s := { s with cx := s.cx + 1 }
    if s.cx ≥ colCnt then newline s else s

/-- `init`, run by the first `vga_putc`: the framebuffer as it is, and the cursor where
`find_cursor` puts it from the 16-bit hardware cursor position CP. -/
def vgaInit (cp : UInt16) (fb : Nat → Nat → UInt8 × UInt8) : Vga :=
  ⟨cp.toNat % colCnt, cp.toNat / colCnt, fb, []⟩

/-- A run of `vga_putc` calls. -/
def vgaRun (s : Vga) (cs : List Int) : Vga := cs.foldl vgaPutc s

/-! ### Staying on the screen -/

/-- Every cell in the list lies on the screen. -/
def OnScreenCells (l : List (Nat × Nat)) : Prop := ∀ p ∈ l, p.1 < rowCnt ∧ p.2 < colCnt

/-- The cursor is on the screen and every cell written so far is. -/
structure OnScreen (s : Vga) : Prop where
  cx_lt : s.cx < colCnt
  cy_lt : s.cy < rowCnt
  cells : OnScreenCells s.written

section Screen
variable {s : Vga} {y x n : Nat} {v : UInt8 × UInt8}

@[simp] theorem put_cx : (s.put y x v).cx = s.cx := rfl
@[simp] theorem put_cy : (s.put y x v).cy = s.cy := rfl
@[simp] theorem put_written : (s.put y x v).written = s.written ++ [(y, x)] := rfl

theorem OnScreenCells.append {l l' : List (Nat × Nat)} (h : OnScreenCells l)
    (h' : OnScreenCells l') : OnScreenCells (l ++ l') := by
  intro p hp
  rcases List.mem_append.1 hp with hp | hp
  · exact h p hp
  · exact h' p hp

@[simp] theorem clearRowLoop_cx : (clearRowLoop s y n).cx = s.cx := by
  induction n with
  | zero => rfl
  | succ n ih => simp [clearRowLoop, ih]

@[simp] theorem clearRowLoop_cy : (clearRowLoop s y n).cy = s.cy := by
  induction n with
  | zero => rfl
  | succ n ih => simp [clearRowLoop, ih]

theorem mem_clearRowLoop {p : Nat × Nat} (h : p ∈ s.written) : p ∈ (clearRowLoop s y n).written := by
  induction n with
  | zero => exact h
  | succ n ih =>
    simp only [clearRowLoop, put_written]
    exact List.mem_append_left _ ih

theorem mem_newline {p : Nat × Nat} (h : p ∈ s.written) : p ∈ (newline s).written := by
  unfold newline
  split
  · exact mem_clearRowLoop (List.mem_append_left _ h)
  · exact h

theorem clearRowLoop_cells (hs : OnScreenCells s.written) (hy : y < rowCnt) (hn : n ≤ colCnt) :
    OnScreenCells (clearRowLoop s y n).written := by
  induction n with
  | zero => exact hs
  | succ n ih =>
    simp only [clearRowLoop, put_written]
    refine (ih (by omega)).append fun p hp => ?_
    rw [List.mem_singleton] at hp
    rw [hp]
    exact ⟨hy, by omega⟩

theorem clearRow_cells (hs : OnScreenCells s.written) (hy : y < rowCnt) :
    OnScreenCells (clearRow s y).written :=
  clearRowLoop_cells hs hy (Nat.le_refl _)

theorem scrollUp_cells (hs : OnScreenCells s.written) : OnScreenCells (scrollUp s).written := by
  refine hs.append fun p hp => ?_
  simp only [List.mem_flatMap, List.mem_map, List.mem_range] at hp
  obtain ⟨y, hy, x, hx, rfl⟩ := hp
  exact ⟨by simp only [rowCnt] at hy ⊢; omega, hx⟩

/-- `newline` puts the cursor at the start of a screen row from wherever it was, and writes only
cells of the screen. -/
theorem newline_onScreen (hs : OnScreenCells s.written) : OnScreen (newline s) := by
  unfold newline
  split
  · refine ⟨by simp [clearRow, scrollUp, colCnt], by simp [clearRow, scrollUp, rowCnt], ?_⟩
    exact clearRow_cells (scrollUp_cells hs) (by decide)
  · rename_i hcy
    exact ⟨by simp [colCnt], by simp only; omega, hs⟩

theorem cls_onScreen (hs : OnScreenCells s.written) : OnScreen (cls s) := by
  refine ⟨show 0 < colCnt by decide, show 0 < rowCnt by decide, ?_⟩
  show OnScreenCells ((List.range rowCnt).foldl clearRow s).written
  have hrows : ∀ (rows : List Nat) (t : Vga), OnScreenCells t.written → (∀ y ∈ rows, y < rowCnt) →
      OnScreenCells (rows.foldl clearRow t).written := by
    intro rows
    induction rows with
    | nil => exact fun t ht _ => ht
    | cons y rows ih =>
      intro t ht hr
      rw [List.foldl_cons]
      exact ih (clearRow t y) (clearRow_cells ht (hr y List.mem_cons_self)) fun y' hy' =>
        hr y' (List.mem_cons_of_mem _ hy')
  exact hrows _ s hs fun y hy => List.mem_range.1 hy

/-- One `vga_putc` from a cursor on the screen writes only cells of the screen and leaves the
cursor on it. -/
theorem vgaPutc_onScreen (hs : OnScreen s) (c : Int) : OnScreen (vgaPutc s c) := by
  have hx := hs.cx_lt
  have hy := hs.cy_lt
  unfold vgaPutc
  split
  · exact newline_onScreen hs.cells
  split
  · exact cls_onScreen hs.cells
  split
  · split
    · exact ⟨by simp only; omega, hy, hs.cells⟩
    · exact hs
  split
  · exact ⟨by simp [colCnt], hy, hs.cells⟩
  split
  · -- a tab moves to the next multiple of 8, at most `COL_CNT`
    simp only
    split
    · exact newline_onScreen hs.cells
    · rename_i hcx
      exact ⟨Nat.lt_of_not_le hcx, hy, hs.cells⟩
  split
  · exact hs
  · -- the character goes to the cursor's cell, which is on the screen
    have hcells : OnScreenCells (s.put s.cy s.cx (UInt8.ofInt c, grayOnBlack)).written := by
      refine hs.cells.append fun p hp => ?_
      rw [List.mem_singleton] at hp
      rw [hp]
      exact ⟨hy, hx⟩
    simp only
    split
    · exact newline_onScreen hcells
    · rename_i hcx
      exact ⟨by simp only [put_cx] at hcx ⊢; omega, hy, hcells⟩

theorem vgaRun_onScreen : ∀ (cs : List Int) (s : Vga), OnScreen s → OnScreen (vgaRun s cs)
  | [], _, hs => hs
  | c :: cs, s, hs => vgaRun_onScreen cs (vgaPutc s c) (vgaPutc_onScreen hs c)

theorem vga_stays_on_screen (cp : UInt16) (fb : Nat → Nat → UInt8 × UInt8)
    (hcp : cp.toNat < rowCnt * colCnt) (cs : List Int) : OnScreen (vgaRun (vgaInit cp fb) cs) := by
  refine vgaRun_onScreen cs _ ⟨Nat.mod_lt _ (by decide), ?_, fun p hp => by cases hp⟩
  simp only [vgaInit, rowCnt, colCnt] at hcp ⊢
  omega

end Screen

/-- `find_cursor` takes any 16-bit cursor position, and from one past the last screen cell the
first character `vga_putc` prints goes to a row below the screen. -/
theorem vga_putc_writes_below_screen (cp : UInt16) (fb : Nat → Nat → UInt8 × UInt8) (c : Int)
    (hcp : rowCnt * colCnt ≤ cp.toNat) (hc : c ∉ [7, 8, 9, 10, 12, 13]) :
    ∃ p ∈ (vgaPutc (vgaInit cp fb) c).written, rowCnt ≤ p.1 := by
  simp only [List.mem_cons, List.not_mem_nil, or_false, not_or] at hc
  obtain ⟨h7, h8, h9, h10, h12, h13⟩ := hc
  have hrow : rowCnt ≤ cp.toNat / colCnt := by
    simp only [rowCnt, colCnt] at hcp ⊢
    omega
  refine ⟨(cp.toNat / colCnt, cp.toNat % colCnt), ?_, hrow⟩
  have hput : (cp.toNat / colCnt, cp.toNat % colCnt) ∈
      ((vgaInit cp fb).put (vgaInit cp fb).cy (vgaInit cp fb).cx (UInt8.ofInt c, grayOnBlack)).written := by
    simp [vgaInit]
  simp only [vgaPutc, if_neg h10, if_neg h12, if_neg h8, if_neg h13, if_neg h9, if_neg h7]
  split
  · exact mem_newline hput
  · exact hput

theorem vga_putc_writes_below_screen_sample :
    (rowCnt * colCnt ≤ (2000 : UInt16).toNat ∧ (65 : Int) ∉ [7, 8, 9, 10, 12, 13]) ∧
      ∃ p ∈ (vgaPutc (vgaInit 2000 fun _ _ => (0, 0)) 65).written, rowCnt ≤ p.1 :=
  ⟨⟨by decide, by decide⟩,
    vga_putc_writes_below_screen 2000 (fun _ _ => (0, 0)) 65 (by decide) (by decide)⟩

/-- With the hardware cursor at 2000, an `A` goes to row 25, column 0, and the cursor stays on
row 25. -/
example : (vgaPutc (vgaInit 2000 fun _ _ => (0, 0)) 65).written = [(25, 0)] ∧
    (vgaPutc (vgaInit 2000 fun _ _ => (0, 0)) 65).cy = 25 := by decide

end Pintos.Devices
