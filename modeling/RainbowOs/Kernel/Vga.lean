import RainbowOs.Kernel.Svga
import RainbowOs.Lib.Paint
import RainbowOs.Lib.Prog

/-!
# The text console

`kernel/drivers/vga.c`: a grid of 37 rows and 100 columns, each cell a character
and its colours, drawn into the framebuffer with the ROM font. The grid is kept
in `cells` beside the pixels, so that a cell is drawn only when it changes. The
log of a call is the ranges of `cells` it has accessed.
-/

namespace RainbowOs.Kernel

open RainbowOs.Lib

abbrev vgaWidth : Nat := 100

abbrev vgaHeight : Nat := 37

abbrev vgaGlyphW : Nat := 8

abbrev vgaGlyphH : Nat := 16

/-- `svga_hline` -/
def svgaHline (s : Svga) (x y : Int) (w : Nat) (color : UInt8) : Svga :=
  (List.range w).foldl (fun s (i : Nat) => svgaPutpixel s (x + i) y color) s

/-- `svga_fill_rect` -/
def svgaFillRect (s : Svga) (x y : Int) (w h : Nat) (color : UInt8) : Svga :=
  (List.range h).foldl (fun s (row : Nat) => svgaHline s x (y + row) w color) s

/-- The statics of `vga.c`, the font that `svga.c` has saved, and the card. -/
structure Console where
  svga : Svga
  font : Bytes
  cells : Nat → UInt16
  cursorRow : Nat
  cursorCol : Nat
  currentColor : UInt8
  cursorDrawn : Bool

/-- A range of `cells`. -/
structure Cells where
  first : Nat
  count : Nat
  deriving DecidableEq, Repr

abbrev Vga (α : Type) := Prog Console Unit Cells α

/-- `vga_color` -/
def vgaColor (fg bg : UInt8) : UInt8 := fg ||| bg <<< 4

def cellOf (c color : UInt8) : UInt16 := c.toUInt16 ||| color.toUInt16 <<< 8

/-- `make_cell` -/
def Console.makeCell (t : Console) (c : UInt8) : UInt16 := cellOf c t.currentColor

/-- `cell & 0xFF` -/
def cellChar (cell : UInt16) : UInt8 := (cell &&& 0xFF).toUInt8

/-- `attr & 0x0F` -/
def cellFg (cell : UInt16) : UInt8 := (cell >>> 8).toUInt8 &&& 0x0F

/-- `(attr >> 4) & 0x0F` -/
def cellBg (cell : UInt16) : UInt8 := ((cell >>> 8).toUInt8 >>> 4) &&& 0x0F

/-- The colour of a point of a glyph. -/
def glyphInk (font : Bytes) (cell : UInt16) (line bit : Nat) : UInt8 :=
  if font ((cellChar cell).toNat * vgaGlyphH + line) &&& (0x80 >>> UInt8.ofNat bit) ≠ 0 then cellFg cell
  else cellBg cell

/-- `render_cell` -/
def renderCell (font : Bytes) (row col : Nat) (cell : UInt16) (s : Svga) : Svga :=
  (List.range vgaGlyphH).foldl (fun s line =>
    (List.range vgaGlyphW).foldl (fun s bit =>
      svgaPutpixel s (col * vgaGlyphW + bit : Nat) (row * vgaGlyphH + line : Nat)
        (glyphInk font cell line bit)) s) s

def loadCell (idx : Nat) : Vga UInt16 := do
  Prog.tell ⟨idx, 1⟩
  return (← Prog.get).cells idx

def storeCell (idx : Nat) (cell : UInt16) : Vga Unit := do
  Prog.tell ⟨idx, 1⟩
  Prog.modify fun t => { t with cells := Function.update t.cells idx cell }

/-- A function of `svga.c`. -/
def onCard (f : Svga → Svga) : Vga Unit := Prog.modify fun t => { t with svga := f t.svga }

/-- `blit_cell` -/
def blitCell (row col : Nat) (cell : UInt16) : Vga Unit := do
  let idx := row * vgaWidth + col
  if (← loadCell idx) = cell then return ()
  else
    storeCell idx cell
    onCard (renderCell (← Prog.get).font row col cell)

/-- The colour of the cursor on a cell: that of its text, unless this would not show. -/
def cursorInk (cell : UInt16) : UInt8 :=
  if cellFg cell = (cell >>> 12).toUInt8 &&& 0x0F then 7 else cellFg cell

/-- The loop of `draw_cursor`, over the two bottom lines of the cell. -/
def drawBar (row col : Nat) (fg : UInt8) (s : Svga) : Svga :=
  (List.range 2).foldl (fun s line =>
    (List.range vgaGlyphW).foldl (fun s bit =>
      svgaPutpixel s (col * vgaGlyphW + bit : Nat) (row * vgaGlyphH + (vgaGlyphH - 2 + line) : Nat) fg) s) s

/-- `draw_cursor` -/
def drawCursor : Vga Unit := do
  let t ← Prog.get
  let cell ← loadCell (t.cursorRow * vgaWidth + t.cursorCol)
  onCard (drawBar t.cursorRow t.cursorCol (cursorInk cell))
  Prog.modify fun t => { t with cursorDrawn := true }

/-- `hide_cursor` -/
def hideCursor : Vga Unit := do
  let t ← Prog.get
  if t.cursorDrawn = false then return ()
  else
    let cell ← loadCell (t.cursorRow * vgaWidth + t.cursorCol)
    onCard (renderCell t.font t.cursorRow t.cursorCol cell)
    Prog.modify fun t => { t with cursorDrawn := false }

/-- `cells[first + i] = cell` for `i < count`. -/
def fillCells (first count : Nat) (cell : UInt16) : Vga Unit := do
  Prog.tell ⟨first, count⟩
  Prog.modify fun t => { t with cells := fun i => if first ≤ i ∧ i < first + count then cell else t.cells i }

/-- The `memmove` of `vga_scroll`. -/
def shiftCells : Vga Unit := do
  Prog.tell ⟨vgaWidth, (vgaHeight - 1) * vgaWidth⟩
  Prog.tell ⟨0, (vgaHeight - 1) * vgaWidth⟩
  Prog.modify fun t => { t with
    cells := fun i => if i < (vgaHeight - 1) * vgaWidth then t.cells (vgaWidth + i) else t.cells i }

/-- `vga_scroll` -/
def vgaScroll : Vga Unit := do
  let t ← Prog.get
  if t.cursorRow < vgaHeight then return ()
  else
    onCard fun s => svgaCopy s 0 (vgaGlyphH * svgaWidth) (svgaTotal - vgaGlyphH * svgaWidth)
    shiftCells
    fillCells ((vgaHeight - 1) * vgaWidth) vgaWidth (t.makeCell 0x20)
    onCard fun s => svgaFillRect s 0 ((vgaHeight - 1) * vgaGlyphH : Nat) svgaWidth vgaGlyphH
      ((t.currentColor >>> 4) &&& 0x0F)
    Prog.modify fun t => { t with cursorRow := vgaHeight - 1 }

/-- `vga_clear` -/
def vgaClear : Vga Unit := do
  let t ← Prog.get
  onCard fun s => svgaClear s ((t.currentColor >>> 4) &&& 0x0F)
  fillCells 0 (vgaWidth * vgaHeight) (t.makeCell 0x20)
  Prog.modify fun t => { t with cursorRow := 0, cursorCol := 0, cursorDrawn := false }
  drawCursor

/-- `vga_init`, with the font of the card. The palette is not part of the memory. -/
def vgaInit (font : Bytes) : Vga Unit := do
  Prog.modify fun t => { t with
    svga := svgaSetModeGfx t.svga, font := font, currentColor := vgaColor 10 0, cursorDrawn := false }
  vgaClear

/-- `vga_set_color` -/
def vgaSetColor (fg bg : UInt8) : Vga Unit := Prog.modify fun t => { t with currentColor := vgaColor fg bg }

/-- What a character does to the cursor and the grid, before a wrap. -/
def putAtCursor (c : UInt8) : Vga Unit := do
  let t ← Prog.get
  if c = 0x0A then Prog.modify fun t => { t with cursorCol := 0, cursorRow := t.cursorRow + 1 }
  else if c = 0x0D then Prog.modify fun t => { t with cursorCol := 0 }
  else if c = 0x08 then
    Prog.modify fun t =>
      if t.cursorCol > 0 then { t with cursorCol := t.cursorCol - 1 }
      else if t.cursorRow > 0 then { t with cursorRow := t.cursorRow - 1, cursorCol := vgaWidth - 1 }
      else t
    let t ← Prog.get
    blitCell t.cursorRow t.cursorCol (t.makeCell 0x20)
  else if c = 0x09 then Prog.modify fun t => { t with cursorCol := (t.cursorCol + 8) / 8 * 8 }
  else
    blitCell t.cursorRow t.cursorCol (t.makeCell c)
    Prog.modify fun t => { t with cursorCol := t.cursorCol + 1 }

/-- `vga_putchar` -/
def vgaPutchar (c : UInt8) : Vga Unit := do
  hideCursor
  putAtCursor c
  Prog.modify fun t =>
    if t.cursorCol ≥ vgaWidth then { t with cursorCol := 0, cursorRow := t.cursorRow + 1 } else t
  vgaScroll
  drawCursor

/-- `vga_write` -/
def vgaWrite : List UInt8 → Vga Unit
  | [] => return ()
  | c :: s => do
    vgaPutchar c
    vgaWrite s

/-- `vga_set_cursor` -/
def vgaSetCursor (row col : UInt8) : Vga Unit := do
  hideCursor
  Prog.modify fun t => { t with
    cursorRow := if row.toNat ≥ vgaHeight then vgaHeight - 1 else row.toNat
    cursorCol := if col.toNat ≥ vgaWidth then vgaWidth - 1 else col.toNat }
  drawCursor

/-- `vga_putchar_at` -/
def vgaPutcharAt (row col c fg bg : UInt8) : Vga Unit :=
  if row.toNat ≥ vgaHeight ∨ col.toNat ≥ vgaWidth then return ()
  else blitCell row.toNat col.toNat (cellOf c (vgaColor fg bg))

/-- A call of the console. -/
inductive ConsoleCall where
  | putchar (c : UInt8)
  | write (s : List UInt8)
  | clear
  | setColor (fg bg : UInt8)
  | setCursor (row col : UInt8)
  | putcharAt (row col c fg bg : UInt8)
  deriving DecidableEq, Repr

def ConsoleCall.run : ConsoleCall → Vga Unit
  | .putchar c => vgaPutchar c
  | .write s => vgaWrite s
  | .clear => vgaClear
  | .setColor fg bg => vgaSetColor fg bg
  | .setCursor row col => vgaSetCursor row col
  | .putcharAt row col c fg bg => vgaPutcharAt row col c fg bg

def runConsole : List ConsoleCall → Vga Unit
  | [] => return ()
  | c :: cs => do
    c.run
    runConsole cs

/-! ## Points of the screen -/

/-- A point of the screen, column and line. -/
abbrev ScreenPoint := Fin svgaWidth × Fin svgaHeight

def pixel (s : Svga) (p : ScreenPoint) : UInt8 := s.vram (p.2.val * svgaWidth + p.1.val)

abbrev Draws (area : ScreenPoint → Prop) (ink : ScreenPoint → UInt8) (f : Svga → Svga) : Prop :=
  Paints Svga.Cached pixel area ink f

theorem draws_putpixel {x y : Nat} (hx : x < svgaWidth) (hy : y < svgaHeight) (color : UInt8)
    (ink : ScreenPoint → UInt8) (hink : ∀ p : ScreenPoint, p.1.val = x → p.2.val = y → ink p = color) :
    Draws (fun p => p.1.val = x ∧ p.2.val = y) ink fun s => svgaPutpixel s x y color := by
  have hwidth : svgaWidth = 800 := rfl
  have hplace : ((y : Int) * svgaWidth + x).toNat = y * svgaWidth + x := by omega
  have hlinear : ∀ {s : Svga}, s.Cached →
      (svgaPutpixel s x y color).vram = Function.update s.vram (y * svgaWidth + x) color := fun hs => by
    rw [svgaPutpixel_linear hs (by omega) (by omega) (by omega) (by omega), hplace]
  refine ⟨fun hs => cached_svgaPutpixel hs x y color, fun hs hp => ?_, fun {s p} hs hp => ?_⟩
  · rw [pixel, hlinear hs, hp.1, hp.2, Function.update_self, hink _ hp.1 hp.2]
  · have hne : p.2.val * svgaWidth + p.1.val ≠ y * svgaWidth + x := fun heq => by
      have hpx := p.1.isLt
      simp only [svgaWidth] at heq hx hpx
      exact hp (by omega)
    rw [pixel, hlinear hs, Function.update_of_ne hne, pixel]

/-- The colour that a cell gives to a point in it. -/
def cellInk (font : Bytes) (cell : UInt16) (p : ScreenPoint) : UInt8 :=
  glyphInk font cell (p.2.val % vgaGlyphH) (p.1.val % vgaGlyphW)

/-- A point of the cell at a row and a column. -/
def InCell (row col : Nat) (p : ScreenPoint) : Prop :=
  p.2.val / vgaGlyphH = row ∧ p.1.val / vgaGlyphW = col

theorem draws_renderCell (font : Bytes) (cell : UInt16) {row col : Nat} (hrow : row < vgaHeight)
    (hcol : col < vgaWidth) : Draws (InCell row col) (cellInk font cell) (renderCell font row col cell) := by
  simp only [vgaHeight, vgaWidth] at hrow hcol
  have hall := Paints.loop (n := vgaGlyphH) fun line hline => Paints.loop (n := vgaGlyphW) fun bit hbit =>
    draws_putpixel (x := col * vgaGlyphW + bit) (y := row * vgaGlyphH + line)
      (by simp only [vgaGlyphW, svgaWidth] at hbit ⊢; omega)
      (by simp only [vgaGlyphH, svgaHeight] at hline ⊢; omega)
      (glyphInk font cell line bit) (cellInk font cell) fun p hx hy => by
        simp only [vgaGlyphW, vgaGlyphH] at hbit hline hx hy
        rw [cellInk, show p.2.val % vgaGlyphH = line by simp only [vgaGlyphH]; omega,
          show p.1.val % vgaGlyphW = bit by simp only [vgaGlyphW]; omega]
  refine hall.congr (fun p => ?_) fun _ _ => rfl
  simp only [vgaGlyphW, vgaGlyphH, InCell]
  constructor
  · rintro ⟨line, hline, bit, hbit, hx, hy⟩
    omega
  · rintro ⟨hy, hx⟩
    exact ⟨p.2.val % 16, by omega, p.1.val % 8, by omega, by omega, by omega⟩

/-- The part of a cell where the cursor is drawn. -/
def InBar (row col : Nat) (p : ScreenPoint) : Prop := InCell row col p ∧ 14 ≤ p.2.val % vgaGlyphH

instance (row col : Nat) (p : ScreenPoint) : Decidable (InCell row col p) := inferInstanceAs (Decidable (_ ∧ _))

instance (row col : Nat) (p : ScreenPoint) : Decidable (InBar row col p) := inferInstanceAs (Decidable (_ ∧ _))

theorem draws_drawBar (fg : UInt8) {row col : Nat} (hrow : row < vgaHeight) (hcol : col < vgaWidth) :
    Draws (InBar row col) (fun _ => fg) (drawBar row col fg) := by
  simp only [vgaHeight, vgaWidth] at hrow hcol
  have hall := Paints.loop (n := 2) fun line hline => Paints.loop (n := vgaGlyphW) fun bit hbit =>
    draws_putpixel (x := col * vgaGlyphW + bit) (y := row * vgaGlyphH + (vgaGlyphH - 2 + line))
      (by simp only [vgaGlyphW, svgaWidth] at hbit ⊢; omega)
      (by simp only [vgaGlyphH, svgaHeight] at hline ⊢; omega)
      fg (fun _ => fg) fun _ _ _ => rfl
  refine hall.congr (fun p => ?_) fun _ _ => rfl
  simp only [vgaGlyphW, vgaGlyphH, InBar, InCell]
  constructor
  · rintro ⟨line, hline, bit, hbit, hx, hy⟩
    omega
  · rintro ⟨⟨hy, hx⟩, hbar⟩
    exact ⟨p.2.val % 16 - 14, by omega, p.1.val % 8, by omega, by omega, by omega⟩

theorem draws_lastRow (color : UInt8) :
    Draws (fun p => 576 ≤ p.2.val ∧ p.2.val < 592) (fun _ => color) fun s =>
      svgaFillRect s 0 ((vgaHeight - 1) * vgaGlyphH : Nat) svgaWidth vgaGlyphH color := by
  have hall := Paints.loop (n := vgaGlyphH) fun row hrow => Paints.loop (n := svgaWidth) fun x hx =>
    draws_putpixel (x := x) (y := 576 + row) hx (by simp only [vgaGlyphH, svgaHeight] at hrow ⊢; omega)
      color (fun _ => color) fun _ _ _ => rfl
  have hsame : (fun s : Svga => svgaFillRect s 0 ((vgaHeight - 1) * vgaGlyphH : Nat) svgaWidth vgaGlyphH color) =
      fun s => (List.range vgaGlyphH).foldl (fun s row => (List.range svgaWidth).foldl
        (fun s (x : Nat) => svgaPutpixel s x (576 + row : Nat) color) s) s := by
    funext s
    unfold svgaFillRect svgaHline
    simp only [Int.zero_add, Int.natCast_add]
    rfl
  rw [hsame]
  refine hall.congr (fun p => ?_) fun _ _ => rfl
  simp only [vgaGlyphH]
  constructor
  · rintro ⟨row, hrow, x, hx, hpx, hpy⟩
    omega
  · rintro ⟨hlow, hhigh⟩
    exact ⟨p.2.val - 576, by omega, p.1.val, p.1.isLt, rfl, by omega⟩

theorem pixel_of_lt (p : ScreenPoint) : p.2.val * svgaWidth + p.1.val < svgaTotal := by
  have hx := p.1.isLt
  have hy := p.2.isLt
  simp only [svgaWidth, svgaHeight, svgaTotal] at *
  omega

theorem draws_clear (color : UInt8) : Draws (fun _ => True) (fun _ => color) fun s => svgaClear s color := by
  refine ⟨fun hs => (clearFrom_linear hs color 0 rfl).1, fun {s p} hs _ => ?_, fun _ hp => absurd trivial hp⟩
  have hlt := pixel_of_lt p
  have hin : s.vram.store 0 (List.replicate svgaTotal color) (0 + (p.2.val * svgaWidth + p.1.val)) =
      (List.replicate svgaTotal color).getD (p.2.val * svgaWidth + p.1.val) 0 :=
    Bytes.store_add (by rwa [List.length_replicate])
  rw [Nat.zero_add] at hin
  rw [pixel, svgaClear, (clearFrom_linear hs color 0 rfl).2, Nat.sub_zero, hin, List.getD_eq_getElem?_getD,
    List.getElem?_replicate_of_lt hlt, Option.getD_some]

/-- A scroll moves the lines of the screen up by those of a row. -/
theorem pixel_scroll {s : Svga} (hs : s.Cached) {p q : ScreenPoint} (hx : q.1 = p.1)
    (hy : q.2.val = p.2.val + vgaGlyphH) :
    pixel (svgaCopy s 0 (vgaGlyphH * svgaWidth) (svgaTotal - vgaGlyphH * svgaWidth)) p = pixel s q := by
  have hlt : p.2.val * 800 + p.1.val < 467200 := by
    have hq : q.2.val * 800 + q.1.val < 467200 + 12800 := pixel_of_lt q
    rw [hx, hy, vgaGlyphH, Nat.add_mul, Nat.add_right_comm] at hq
    exact Nat.lt_of_add_lt_add_right hq
  have hrow : vgaGlyphH * svgaWidth = 12800 := rfl
  have hrest : svgaTotal - 12800 = 467200 := rfl
  have hin : s.vram.store 0 (s.vram.slice 12800 467200) (0 + (p.2.val * 800 + p.1.val)) =
      (s.vram.slice 12800 467200).getD (p.2.val * 800 + p.1.val) 0 :=
    Bytes.store_add (by rwa [Bytes.length_slice])
  rw [Nat.zero_add, List.getD_eq_getElem?_getD, Bytes.getElem?_slice hlt, Option.getD_some] at hin
  rw [hrow, hrest, pixel, svgaCopy_linear hs (by decide) (by decide), memmove_eq, hin, pixel, hx, hy]
  exact congrArg s.vram (by simp only [vgaGlyphH, svgaWidth]; omega)

end RainbowOs.Kernel
