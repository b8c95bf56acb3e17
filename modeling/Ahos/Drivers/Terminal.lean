import Ahos.Libc.Memmove
import Ahos.Mem.Memory
import Mathlib.Data.Fintype.Basic

/-!
# The VGA terminal

`terminal.c` with the calls it makes of `vga.c` and of `memmove`. The text buffer is the memory
from `VGA_MEMORY` on, by byte offsets, and an access outside its 2000 entries halts. The model
also has the two cursor registers of the screen.

The terminal is compared with one that has no bottom: a grid of rows without end on which lines
never move. The screen shows the last 25 rows of it.
-/

namespace Ahos

/-- The variables of the driver, the text buffer and the cursor registers. -/
structure Terminal where
  terminalRow : ℕ
  terminalColumn : ℕ
  terminalColor : UInt8
  terminalDefaultColor : UInt8
  /-- The bytes at `terminal_buffer`. -/
  terminalBuffer : ℕ → UInt8
  /-- The register `0x0E` of the screen. -/
  cursorHigh : UInt8
  /-- The register `0x0F` of the screen. -/
  cursorLow : UInt8

/-- `VGA_WIDTH`. -/
def vgaWidth : ℕ := 80

/-- `VGA_HEIGHT`. -/
def vgaHeight : ℕ := 25

/-- `VGA_ELT_SIZE`. -/
def vgaEltSize : ℕ := 2

/-- The number of entries of the text buffer. -/
def vgaEntries : ℕ := 2000

/-- `vga_entry_color`. -/
def vgaEntryColor (fg bg : UInt8) : UInt8 := fg ||| bg <<< 4

/-- `vga_entry`. -/
def vgaEntry (uc color : UInt8) : UInt16 := uc.toUInt16 ||| color.toUInt16 <<< 8

/-- `vga_update_cursor`. -/
def vgaUpdateCursor (t : Terminal) (x y : ℕ) : Terminal :=
  let pos := UInt16.ofNat (Word32.add (Word32.mul y vgaWidth) x)
  { t with cursorLow := (pos &&& 0xff).toUInt8, cursorHigh := ((pos >>> 8) &&& 0xff).toUInt8 }

/-- Writing an entry of the text buffer: two bytes. -/
def storeEntry (buffer : ℕ → UInt8) (index : ℕ) (entry : UInt16) : Outcome (ℕ → UInt8) :=
  if index < vgaEntries then
    .ok (Function.update (Function.update buffer (2 * index) entry.toUInt8) (2 * index + 1)
      (entry >>> 8).toUInt8)
  else .error .outOfBounds

/-- A round of the loops of `memmove`. -/
def memmoveByte (dst src : ℕ) (buffer : ℕ → UInt8) (i : ℕ) : Outcome (ℕ → UInt8) :=
  if dst + i < vgaEltSize * vgaEntries ∧ src + i < vgaEltSize * vgaEntries then
    .ok (Move.copyCell dst src buffer i)
  else .error .outOfBounds

/-- `memmove` inside the text buffer, with byte offsets. -/
def memmove (buffer : ℕ → UInt8) (dst src size : ℕ) : Outcome (ℕ → UInt8) :=
  if dst < src then
    (List.range size).foldlM (memmoveByte dst src) buffer
  else
    (List.range size).reverse.foldlM (memmoveByte dst src) buffer

/-- `terminal_putentryat`. -/
def terminalPutentryat (t : Terminal) (c color : UInt8) (x y : ℕ) : Outcome Terminal := do
  let buffer ← storeEntry t.terminalBuffer (Word32.add (Word32.mul y vgaWidth) x) (vgaEntry c color)
  return { t with terminalBuffer := buffer }

/-- `scroll_up`. -/
def scrollUp (t : Terminal) : Outcome Terminal :=
  let t := { t with terminalColumn := 0, terminalRow := Word32.add t.terminalRow 1 }
  if t.terminalRow = vgaHeight then do
    let buffer ← memmove t.terminalBuffer 0 (vgaEltSize * vgaWidth)
      (vgaEltSize * (vgaWidth * (vgaHeight - 1)))
    let buffer ← (List.range vgaWidth).foldlM
      (fun buffer x => storeEntry buffer ((vgaHeight - 1) * vgaWidth + x)
        (vgaEntry 0x20 t.terminalDefaultColor)) buffer
    return { t with terminalBuffer := buffer, terminalRow := vgaHeight - 1 }
  else return t

/-- `__terminal_putchar`: `0x0a` is a line feed, `0x0d` a carriage return and `0x09` a tab. -/
def terminalPutcharNoCursor (t : Terminal) (c : UInt8) : Outcome Terminal :=
  if c = 0x0a then
    scrollUp t
  else if c = 0x0d then
    return { t with terminalColumn := 0 }
  else if c = 0x09 then do
    let t ← terminalPutcharNoCursor t 0x20
    let t ← terminalPutcharNoCursor t 0x20
    terminalPutcharNoCursor t 0x20
  else do
    let t ← terminalPutentryat t c t.terminalColor t.terminalColumn t.terminalRow
    let t := { t with terminalColumn := Word32.add t.terminalColumn 1 }
    if t.terminalColumn = vgaWidth then scrollUp t else return t
termination_by if c = 0x09 then 1 else 0
decreasing_by all_goals simp_all

/-- `terminal_setcolor`. -/
def terminalSetcolor (t : Terminal) (color : UInt8) : Terminal := { t with terminalColor := color }

/-- `terminal_reset_color`. -/
def terminalResetColor (t : Terminal) : Terminal := terminalSetcolor t t.terminalDefaultColor

/-- `terminal_initialize`. The shape of the cursor is not modelled. -/
def terminalInitialize (t : Terminal) : Outcome Terminal := do
  let t := { t with
    terminalRow := 0, terminalColumn := 0, terminalDefaultColor := vgaEntryColor 15 0 }
  let t := terminalSetcolor t t.terminalDefaultColor
  let buffer ← (List.range vgaHeight).foldlM
    (fun buffer y => (List.range vgaWidth).foldlM
      (fun buffer x => storeEntry buffer (y * vgaWidth + x) (vgaEntry 0x20 t.terminalColor)) buffer)
    t.terminalBuffer
  return vgaUpdateCursor { t with terminalBuffer := buffer } t.terminalColumn t.terminalRow

/-- `terminal_putchar`. -/
def terminalPutchar (t : Terminal) (c : UInt8) : Outcome Terminal := do
  let t ← terminalPutcharNoCursor t c
  return vgaUpdateCursor t t.terminalColumn t.terminalRow

/-- `terminal_write`. -/
def terminalWrite (t : Terminal) (data : List UInt8) : Outcome Terminal := do
  let t ← data.foldlM terminalPutcharNoCursor t
  return vgaUpdateCursor t t.terminalColumn t.terminalRow

/-- A call of the driver. -/
inductive TerminalOp where
  | write (data : List UInt8)
  | putchar (c : UInt8)
  | setcolor (color : UInt8)
  | resetColor
deriving DecidableEq, Repr

/-- The call. -/
def Terminal.call (t : Terminal) : TerminalOp → Outcome Terminal
  | .write data => terminalWrite t data
  | .putchar c => terminalPutchar t c
  | .setcolor color => return terminalSetcolor t color
  | .resetColor => return terminalResetColor t

/-! ## The terminal without a bottom -/

/-- A blank in the default colour, white on black. -/
def blank : UInt8 × UInt8 := (0x20, 0x0f)

/-- A grid of rows without end, a cursor and a colour. -/
structure Page where
  grid : ℕ → ℕ → UInt8 × UInt8
  row : ℕ
  column : ℕ
  color : UInt8

namespace Page

/-- The empty page. -/
def start : Page := ⟨fun _ _ => blank, 0, 0, 0x0f⟩

/-- To the first column of the next row. -/
def newline (p : Page) : Page := { p with row := p.row + 1, column := 0 }

/-- A character at the cursor, which goes to a new row behind the last column. -/
def print (p : Page) (c : UInt8) : Page :=
  let p := { p with
    grid := Function.update p.grid p.row (Function.update (p.grid p.row) p.column (c, p.color))
    column := p.column + 1 }
  if p.column = 80 then p.newline else p

/-- A line feed, a carriage return, a tab of three spaces, or a character. -/
def put (p : Page) (c : UInt8) : Page :=
  if c = 0x0a then p.newline
  else if c = 0x0d then { p with column := 0 }
  else if c = 0x09 then ((p.print 0x20).print 0x20).print 0x20
  else p.print c

/-- A call of the driver, on the page. -/
def call (p : Page) : TerminalOp → Page
  | .write data => data.foldl put p
  | .putchar c => p.put c
  | .setcolor color => { p with color := color }
  | .resetColor => { p with color := 0x0f }

/-- The first of the last 25 rows; the first row until the cursor passes row 24. -/
def top (p : Page) : ℕ := p.row - 24

end Page

/-! ## Entries of the text buffer -/

/-- The character and the colour of an entry. -/
def cell (buffer : ℕ → UInt8) (i : ℕ) : UInt8 × UInt8 := (buffer (2 * i), buffer (2 * i + 1))

theorem toNat_vgaEntry (uc color : UInt8) :
    (vgaEntry uc color).toNat = 256 * color.toNat + uc.toNat := by
  have hcolor := color.toNat_lt
  have huc := uc.toNat_lt
  have hshift : color.toNat <<< 8 % 65536 = 2 ^ 8 * color.toNat := by
    rw [Nat.shiftLeft_eq]
    omega
  simp only [vgaEntry, UInt16.toNat_or, UInt16.toNat_shiftLeft, UInt8.toNat_toUInt16]
  change uc.toNat ||| color.toNat <<< 8 % 65536 = _
  rw [hshift, Nat.or_comm, ← Nat.two_pow_add_eq_or_of_lt huc]

/-- The low byte of an entry is the character and the high byte is the colour. -/
theorem vgaEntry_bytes (uc color : UInt8) :
    (vgaEntry uc color).toUInt8 = uc ∧ (vgaEntry uc color >>> 8).toUInt8 = color := by
  have hcolor := color.toNat_lt
  have huc := uc.toNat_lt
  constructor
  · apply UInt8.toNat_inj.mp
    rw [UInt16.toNat_toUInt8, toNat_vgaEntry]
    omega
  · apply UInt8.toNat_inj.mp
    rw [UInt16.toNat_toUInt8, UInt16.toNat_shiftRight, toNat_vgaEntry, Nat.shiftRight_eq_div_pow]
    change (256 * color.toNat + uc.toNat) / 256 % 256 = _
    omega

/-- Writing an entry changes this entry only. -/
theorem storeEntry_spec (buffer : ℕ → UInt8) {index : ℕ} (h : index < 2000) (c color : UInt8) :
    ∃ buffer', storeEntry buffer index (vgaEntry c color) = .ok buffer' ∧
      ∀ i, cell buffer' i = if i = index then (c, color) else cell buffer i := by
  refine ⟨_, if_pos h, fun i => ?_⟩
  obtain ⟨hlow, hhigh⟩ := vgaEntry_bytes c color
  rw [hlow, hhigh, cell, cell]
  by_cases hi : i = index
  · subst hi
    rw [if_pos rfl, Function.update_of_ne (by omega), Function.update_self, Function.update_self]
  · rw [if_neg hi, Function.update_of_ne (by omega), Function.update_of_ne (by omega),
      Function.update_of_ne (by omega), Function.update_of_ne (by omega)]

/-- A loop that writes the same entry at some positions. -/
theorem foldlM_storeEntry (is : List ℕ) (buffer : ℕ → UInt8) (pos : ℕ → ℕ)
    (h : ∀ i ∈ is, pos i < 2000) (c color : UInt8) :
    ∃ buffer', is.foldlM (fun buffer i => storeEntry buffer (pos i) (vgaEntry c color)) buffer =
        .ok buffer' ∧
      ∀ j, cell buffer' j = if ∃ i ∈ is, j = pos i then (c, color) else cell buffer j := by
  induction is generalizing buffer with
  | nil => exact ⟨buffer, rfl, fun j => by simp⟩
  | cons i is ih =>
    obtain ⟨buffer₁, hstore, hcell⟩ := storeEntry_spec buffer (h i (by simp)) c color
    obtain ⟨buffer₂, hloop, hcells⟩ := ih buffer₁ fun k hk => h k (by simp [hk])
    refine ⟨buffer₂, by rw [List.foldlM_cons, hstore, Run.ok_bind, hloop], fun j => ?_⟩
    rw [hcells j, hcell j]
    by_cases hj : j = pos i
    · simp [hj]
    · simp [hj]

/-- `memmove` moves the bytes as if all of them were read first. -/
theorem memmove_spec (buffer : ℕ → UInt8) {dst src size : ℕ} (hdst : dst + size ≤ 4000)
    (hsrc : src + size ≤ 4000) :
    memmove buffer dst src size = .ok (Move.moved buffer dst src size) := by
  have hbyte : ∀ i < size, ∀ buffer, memmoveByte dst src buffer i =
      .ok (Move.copyCell dst src buffer i) := by
    intro i hi buffer
    exact if_pos (by simp only [vgaEltSize, vgaEntries]; omega)
  unfold memmove
  split_ifs with hlt
  · rw [Run.foldlM_ok fun i hi => hbyte i (List.mem_range.mp hi), Move.copyUp_eq hlt.le]
  · rw [Run.foldlM_ok fun i hi => hbyte i (List.mem_range.mp (List.mem_reverse.mp hi)),
      Move.copyDown_eq (not_lt.mp hlt)]

/-- `VGA_MEMORY`. -/
def vgaMemory : ℕ := 0xb8000

/-- The text buffer lies in the memory. -/
def BufferAt (mem : AddressSpace) (buffer : ℕ → UInt8) : Prop :=
  ∀ k < vgaEltSize * vgaEntries, mem.cells (vgaMemory + k) = some (buffer k)

/-- `memmove` inside the text buffer is `memmove` in the memory. -/
theorem memmove_refines {mem : AddressSpace} {buffer : ℕ → UInt8} {dst src size : ℕ}
    (h : BufferAt mem buffer) (hdst : dst + size ≤ 4000) (hsrc : src + size ≤ 4000) :
    ∃ buffer', memmove buffer dst src size = .ok buffer' ∧
      BufferAt (mem.memmove (UInt32.ofNat (vgaMemory + dst)) (UInt32.ofNat (vgaMemory + src))
        (UInt32.ofNat size)).2 buffer' := by
  have hend : ∀ i < size, src + i < vgaEltSize * vgaEntries := by
    intro i hi
    simp only [vgaEltSize, vgaEntries]
    omega
  refine ⟨_, memmove_spec buffer hdst hsrc, fun k hk => ?_⟩
  rw [AddressSpace.cells_memmove_offset (by unfold vgaMemory; omega) (by unfold vgaMemory; omega)]
  exact Move.moved_rel (R := fun a b => a = some b) h hend k hk

theorem cell_moved (buffer : ℕ → UInt8) (i : ℕ) :
    cell (Move.moved buffer 0 160 3840) i =
      if i < 1920 then cell buffer (i + 80) else cell buffer i := by
  simp only [cell, Move.moved]
  by_cases hi : i < 1920
  · rw [if_pos (by omega), if_pos (by omega), if_pos hi]
    congr 2 <;> omega
  · rw [if_neg (by omega), if_neg (by omega), if_neg hi]

/-! ## The window -/

/-- The screen shows the last 25 rows of the page, and the rows below the cursor are blank. The
columns of the two cursors are compared by `Shows`. -/
structure Window (t : Terminal) (p : Page) : Prop where
  row : t.terminalRow = p.row - p.top
  color : t.terminalColor = p.color
  default : t.terminalDefaultColor = 0x0f
  cells : ∀ y < 25, ∀ x < 80, cell t.terminalBuffer (80 * y + x) = p.grid (p.top + y) x
  below : ∀ y > p.row, ∀ x, p.grid y x = blank

/-- The screen and its cursor are those of the page, seen through the window. -/
structure Shows (t : Terminal) (p : Page) : Prop where
  window : Window t p
  column : t.terminalColumn = p.column
  row_lt : t.terminalRow < 25
  column_lt : t.terminalColumn < 80

/-- A position on the screen, as the code computes it. -/
theorem screenIndex_eq {x y : ℕ} (hx : x ≤ 80) (hy : y ≤ 25) :
    Word32.add (Word32.mul y vgaWidth) x = 80 * y + x := by
  have hmul : Word32.mul y vgaWidth = 80 * y := by
    rw [vgaWidth, Word32.mul_of_lt (by omega), Nat.mul_comm]
  rw [hmul, Word32.add_of_lt (by omega)]

/-- A new row, with a scroll when the cursor is in the last row of the screen. -/
theorem scrollUp_spec {t : Terminal} {p : Page} (h : Window t p) :
    ∃ t', scrollUp t = .ok t' ∧ Shows t' p.newline := by
  have hrow := h.row
  have hcells := h.cells
  simp only [Page.top] at hrow hcells
  have hnext : Word32.add t.terminalRow 1 = t.terminalRow + 1 := Word32.add_of_lt (by omega)
  have hbelow : ∀ y > p.newline.row, ∀ x, p.newline.grid y x = blank := by
    intro y hy x
    exact h.below y (Nat.lt_of_succ_lt hy) x
  by_cases hlast : t.terminalRow + 1 = 25
  · obtain ⟨buffer, hloop, hcell⟩ := foldlM_storeEntry (List.range 80)
      (Move.moved t.terminalBuffer 0 160 3840) (fun x => 24 * 80 + x)
      (fun x hx => by have := List.mem_range.mp hx; omega) 0x20 0x0f
    have hscroll : scrollUp t = .ok
        { t with terminalColumn := 0, terminalRow := 24, terminalBuffer := buffer } := by
      simp only [scrollUp, hnext, h.default]
      rw [if_pos (show t.terminalRow + 1 = vgaHeight from hlast)]
      change (memmove t.terminalBuffer 0 160 3840 >>= _) = _
      rw [memmove_spec _ (by decide) (by decide), Run.ok_bind]
      change ((List.range 80).foldlM (fun buffer x => storeEntry buffer (24 * 80 + x)
        (vgaEntry 0x20 0x0f)) _ >>= _) = _
      rw [hloop]
      rfl
    refine ⟨_, hscroll, ⟨?_, h.color, h.default, fun y hy x hx => ?_, hbelow⟩, rfl, by simp,
      by simp⟩
    · simp only [Page.newline, Page.top]
      omega
    · simp only [Page.newline, Page.top]
      rw [hcell]
      by_cases hy' : y = 24
      · -- the last row is blank, like the page below the cursor
        rw [if_pos ⟨x, List.mem_range.mpr hx, by omega⟩, h.below _ (by omega)]
        rfl
      · rw [if_neg, cell_moved, if_pos (by omega), show 80 * y + x + 80 = 80 * (y + 1) + x by omega,
          hcells _ (by omega) x hx]
        · congr 1
          omega
        · rintro ⟨x', -, heq⟩
          omega
  · have hsame : p.newline.top = p.top := by
      simp only [Page.newline, Page.top]
      omega
    refine ⟨{ t with terminalColumn := 0, terminalRow := t.terminalRow + 1 }, ?_,
      ⟨?_, h.color, h.default, ?_, hbelow⟩, rfl, ?_, by simp⟩
    · simp only [scrollUp, hnext]
      exact if_neg hlast
    · simp only [Page.newline, Page.top]
      omega
    · rw [hsame]
      exact h.cells
    · simp only
      omega

/-- A character at the cursor. -/
theorem print_spec {t : Terminal} {p : Page} (h : Shows t p) (c : UInt8) :
    ∃ t', (do
        let t ← terminalPutentryat t c t.terminalColor t.terminalColumn t.terminalRow
        let t := { t with terminalColumn := Word32.add t.terminalColumn 1 }
        if t.terminalColumn = vgaWidth then scrollUp t else return t) = Except.ok t' ∧
      Shows t' (p.print c) := by
  have hrow := h.row_lt
  have hcol := h.column_lt
  have hindex : 80 * t.terminalRow + t.terminalColumn < 2000 := by omega
  obtain ⟨buffer, hstore, hcell⟩ := storeEntry_spec t.terminalBuffer hindex c t.terminalColor
  set q : Page := { p with
    grid := Function.update p.grid p.row (Function.update (p.grid p.row) p.column (c, p.color))
    column := p.column + 1 }
  have hwindow : Window { t with
      terminalBuffer := buffer, terminalColumn := t.terminalColumn + 1 } q := by
    have hq : q.top = p.top := rfl
    have htop : p.top + t.terminalRow = p.row := by
      rw [h.window.row, Page.top]
      omega
    refine ⟨h.window.row, h.window.color, h.window.default, fun y hy x hx => ?_, fun y hy x => ?_⟩
    · rw [hcell, hq, h.window.color]
      by_cases hyrow : y = t.terminalRow
      · subst hyrow
        rw [htop]
        simp only [q, Function.update_self]
        by_cases hxcol : x = t.terminalColumn
        · rw [if_pos (by omega), hxcol, h.column, Function.update_self]
        · rw [if_neg (by omega), Function.update_of_ne (h.column ▸ hxcol),
            h.window.cells _ hy x hx, htop]
      · rw [if_neg (by omega), h.window.cells y hy x hx]
        simp only [q]
        rw [Function.update_of_ne (by omega)]
    · simp only [q]
      rw [Function.update_of_ne (Nat.ne_of_gt hy)]
      exact h.window.below y hy x
  have hprint : p.print c = if q.column = 80 then q.newline else q := rfl
  have hput : terminalPutentryat t c t.terminalColor t.terminalColumn t.terminalRow =
      .ok { t with terminalBuffer := buffer } := by
    rw [terminalPutentryat, screenIndex_eq (by omega) (by omega), hstore]
    rfl
  have hnext : Word32.add t.terminalColumn 1 = t.terminalColumn + 1 :=
    Word32.add_of_lt (by omega)
  rw [hput, Run.ok_bind, hprint]
  simp only [hnext]
  by_cases hwrap : t.terminalColumn + 1 = 80
  · rw [if_pos (show t.terminalColumn + 1 = vgaWidth from hwrap),
      if_pos (show p.column + 1 = 80 by rw [← h.column]; exact hwrap)]
    exact scrollUp_spec hwindow
  · rw [if_neg (show ¬ t.terminalColumn + 1 = vgaWidth from hwrap),
      if_neg (show ¬ p.column + 1 = 80 by rw [← h.column]; exact hwrap)]
    refine ⟨_, rfl, hwindow, ?_, hrow, ?_⟩
    · simp only [q, h.column]
    · simp only
      omega

/-- **One character** is put on the screen as on the page. -/
theorem terminalPutcharNoCursor_spec {t : Terminal} {p : Page} (h : Shows t p) (c : UInt8) :
    ∃ t', terminalPutcharNoCursor t c = .ok t' ∧ Shows t' (p.put c) := by
  -- a space is printed, also when it comes from a tab
  have hspace : ∀ {t : Terminal} {p : Page}, Shows t p →
      ∃ t', terminalPutcharNoCursor t 0x20 = .ok t' ∧ Shows t' (p.print 0x20) := by
    intro t p h
    rw [terminalPutcharNoCursor, if_neg (by decide), if_neg (by decide), if_neg (by decide)]
    exact print_spec h 0x20
  rw [terminalPutcharNoCursor, Page.put]
  by_cases hlf : c = 0x0a
  · rw [if_pos hlf, if_pos hlf]
    exact scrollUp_spec h.window
  by_cases hcr : c = 0x0d
  · rw [if_neg hlf, if_neg hlf, if_pos hcr, if_pos hcr]
    exact ⟨_, rfl, ⟨h.window.row, h.window.color, h.window.default, h.window.cells,
      h.window.below⟩, rfl, h.row_lt, by simp⟩
  by_cases htab : c = 0x09
  · rw [if_neg hlf, if_neg hlf, if_neg hcr, if_neg hcr, if_pos htab, if_pos htab]
    obtain ⟨t₁, ht₁, hs₁⟩ := hspace h
    obtain ⟨t₂, ht₂, hs₂⟩ := hspace hs₁
    obtain ⟨t₃, ht₃, hs₃⟩ := hspace hs₂
    exact ⟨t₃, by rw [ht₁, Run.ok_bind, ht₂, Run.ok_bind, ht₃], hs₃⟩
  · rw [if_neg hlf, if_neg hlf, if_neg hcr, if_neg hcr, if_neg htab, if_neg htab]
    exact print_spec h c

/-- Many characters. -/
theorem foldlM_putchar {t : Terminal} {p : Page} (h : Shows t p) (data : List UInt8) :
    ∃ t', data.foldlM terminalPutcharNoCursor t = .ok t' ∧ Shows t' (data.foldl Page.put p) := by
  induction data generalizing t p with
  | nil => exact ⟨t, rfl, h⟩
  | cons c data ih =>
    obtain ⟨t₁, hput, hs₁⟩ := terminalPutcharNoCursor_spec h c
    obtain ⟨t₂, hrest, hs₂⟩ := ih hs₁
    exact ⟨t₂, by rw [List.foldlM_cons, hput, Run.ok_bind, hrest], hs₂⟩

/-! ## The cursor -/

/-- The position of the cursor on the screen, from its two registers. -/
def Terminal.cursor (t : Terminal) : ℕ := 256 * t.cursorHigh.toNat + t.cursorLow.toNat

/-- The registers hold the position that the driver remembers. -/
def Terminal.CursorShown (t : Terminal) : Prop :=
  t.cursor = 80 * t.terminalRow + t.terminalColumn

/-- The two bytes of a position. -/
theorem cursorBytes {n : ℕ} (h : n < 65536) :
    (UInt16.ofNat n &&& 0xff).toUInt8.toNat = n % 256 ∧
      ((UInt16.ofNat n >>> 8) &&& 0xff).toUInt8.toNat = n / 256 := by
  have hmask : ∀ x : ℕ, x &&& 255 = x % 256 := fun x => Word32.and_low x 8
  have hn : (UInt16.ofNat n).toNat = n := by
    rw [UInt16.toNat_ofNat']
    omega
  constructor
  · rw [UInt16.toNat_toUInt8, UInt16.toNat_and, hn]
    change (n &&& 255) % 256 = _
    rw [hmask, Nat.mod_mod]
  · rw [UInt16.toNat_toUInt8, UInt16.toNat_and, UInt16.toNat_shiftRight, hn,
      Nat.shiftRight_eq_div_pow]
    change (n / 256 &&& 255) % 256 = _
    rw [hmask]
    omega

theorem cursorShown_update {t : Terminal} {p : Page} (h : Shows t p) :
    Shows (vgaUpdateCursor t t.terminalColumn t.terminalRow) p ∧
      (vgaUpdateCursor t t.terminalColumn t.terminalRow).CursorShown := by
  have hrow := h.row_lt
  have hcol := h.column_lt
  refine ⟨⟨⟨h.window.row, h.window.color, h.window.default, h.window.cells, h.window.below⟩,
    h.column, h.row_lt, h.column_lt⟩, ?_⟩
  obtain ⟨hlow, hhigh⟩ := cursorBytes (n := 80 * t.terminalRow + t.terminalColumn) (by omega)
  simp only [Terminal.CursorShown, Terminal.cursor, vgaUpdateCursor]
  rw [screenIndex_eq (by omega) (by omega), hlow, hhigh]
  omega

/-! ## Whole runs -/

/-- The loop of `terminal_initialize` clears the rows it goes over. -/
theorem clearRows (ys : List ℕ) (buffer : ℕ → UInt8) (h : ∀ y ∈ ys, y < 25) :
    ∃ buffer', ys.foldlM (fun buffer y => (List.range vgaWidth).foldlM (fun buffer x =>
        storeEntry buffer (y * vgaWidth + x) (vgaEntry 0x20 0x0f)) buffer) buffer = .ok buffer' ∧
      ∀ i, cell buffer' i = if i / 80 ∈ ys then blank else cell buffer i := by
  induction ys generalizing buffer with
  | nil => exact ⟨buffer, rfl, fun i => by simp⟩
  | cons y ys ih =>
    have hy := h y (by simp)
    obtain ⟨buffer₁, hrow, hcell⟩ := foldlM_storeEntry (List.range vgaWidth) buffer
      (fun x => y * vgaWidth + x)
      (fun x hx => by have := List.mem_range.mp hx; simp only [vgaWidth] at *; omega) 0x20 0x0f
    obtain ⟨buffer₂, hrows, hcells⟩ := ih buffer₁ fun y hy => h y (by simp [hy])
    refine ⟨buffer₂, by rw [List.foldlM_cons, hrow, Run.ok_bind, hrows], fun i => ?_⟩
    have hin : (∃ x ∈ List.range vgaWidth, i = y * vgaWidth + x) ↔ i / 80 = y := by
      simp only [vgaWidth, List.mem_range]
      constructor
      · rintro ⟨x, hx, rfl⟩
        omega
      · rintro rfl
        exact ⟨i % 80, by omega, by omega⟩
    rw [hcells, hcell]
    simp only [hin, List.mem_cons]
    by_cases hrest : i / 80 ∈ ys
    · simp [hrest]
    · by_cases hthis : i / 80 = y
      · simp [hthis, blank]
      · simp [hrest, hthis]

/-- After `terminal_initialize` the screen shows the empty page. -/
theorem terminalInitialize_spec (t : Terminal) :
    ∃ t', terminalInitialize t = .ok t' ∧ Shows t' .start ∧ t'.CursorShown := by
  obtain ⟨buffer, hloop, hcells⟩ := clearRows (List.range vgaHeight) t.terminalBuffer
    fun y hy => List.mem_range.mp hy
  have hinit : terminalInitialize t = .ok (vgaUpdateCursor
      ⟨0, 0, 0x0f, 0x0f, buffer, t.cursorHigh, t.cursorLow⟩ 0 0) := by
    simp only [terminalInitialize, terminalSetcolor, show vgaEntryColor 15 0 = 0x0f from rfl]
    rw [hloop]
    rfl
  have hshows : Shows ⟨0, 0, 0x0f, 0x0f, buffer, t.cursorHigh, t.cursorLow⟩ .start := by
    refine ⟨⟨rfl, rfl, rfl, fun y hy x hx => ?_, fun _ _ _ => rfl⟩, rfl, by simp, by simp⟩
    rw [hcells, if_pos (List.mem_range.mpr (by simp only [vgaHeight]; omega))]
    rfl
  exact ⟨_, hinit, cursorShown_update hshows⟩

/-- Every call keeps the window. -/
theorem Terminal.call_spec {t : Terminal} {p : Page} (h : Shows t p) (hcursor : t.CursorShown)
    (op : TerminalOp) : ∃ t', t.call op = .ok t' ∧ Shows t' (p.call op) ∧ t'.CursorShown := by
  cases op with
  | write data =>
    obtain ⟨t', hput, hs⟩ := foldlM_putchar h data
    exact ⟨_, by rw [Terminal.call, terminalWrite, hput]; rfl, cursorShown_update hs⟩
  | putchar c =>
    obtain ⟨t', hput, hs⟩ := terminalPutcharNoCursor_spec h c
    exact ⟨_, by rw [Terminal.call, terminalPutchar, hput]; rfl, cursorShown_update hs⟩
  | setcolor color =>
    exact ⟨_, rfl, ⟨⟨h.window.row, rfl, h.window.default, h.window.cells, h.window.below⟩,
      h.column, h.row_lt, h.column_lt⟩, hcursor⟩
  | resetColor =>
    exact ⟨_, rfl, ⟨⟨h.window.row, h.window.default, h.window.default, h.window.cells,
      h.window.below⟩, h.column, h.row_lt, h.column_lt⟩, hcursor⟩

theorem Terminal.run_spec {t : Terminal} {p : Page} (h : Shows t p) (hcursor : t.CursorShown)
    (ops : List TerminalOp) :
    ∃ t', Run.run Terminal.call t ops = .ok t' ∧ Shows t' (ops.foldl Page.call p) ∧
      t'.CursorShown := by
  induction ops generalizing t p with
  | nil => exact ⟨t, rfl, h, hcursor⟩
  | cons op ops ih =>
    obtain ⟨t₁, hcall, hs₁, hcursor₁⟩ := Terminal.call_spec h hcursor op
    obtain ⟨t₂, hrest, hs₂⟩ := ih hs₁ hcursor₁
    exact ⟨t₂, by rw [Run.run_cons, hcall, Run.ok_bind, hrest], hs₂⟩

/-- **The screen shows the last 25 rows of a terminal without a bottom.** Whatever calls follow
`terminal_initialize`, no write leaves the 2000 entries of the text buffer, and the screen and the
cursor are those of the page seen through the window of its last 25 rows, with the row below 25
and the column below 80. The same holds after every further character `data` of a call that is
still writing. -/
theorem terminal_shows_window (t₀ : Terminal) (ops : List TerminalOp) :
    ∃ t, (terminalInitialize t₀ >>= fun t => Run.run Terminal.call t ops) = .ok t ∧
      Shows t (ops.foldl Page.call .start) ∧ t.CursorShown ∧
      ∀ data : List UInt8, ∃ t', data.foldlM terminalPutcharNoCursor t = .ok t' ∧
        Shows t' (data.foldl Page.put (ops.foldl Page.call .start)) := by
  obtain ⟨t₁, hinit, hs₁, hcursor₁⟩ := terminalInitialize_spec t₀
  obtain ⟨t, hrun, hs, hcursor⟩ := Terminal.run_spec hs₁ hcursor₁ ops
  exact ⟨t, by rw [hinit, Run.ok_bind, hrun], hs, hcursor, foldlM_putchar hs⟩

end Ahos
