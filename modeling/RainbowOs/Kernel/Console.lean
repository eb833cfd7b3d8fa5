import RainbowOs.Kernel.Vga

/-!
# What the console shows

A terminal is a grid of cells and a cursor that is drawn or not, and a character
does to it what the code does without points, a shadow grid or a second look at a
cell. `Shows` says that a console is the picture of a terminal; every call keeps it
so. A call never accesses a cell outside the grid.
-/

namespace RainbowOs.Kernel

open RainbowOs.Lib

/-- A terminal: the cell at each row and column, the cursor, the colours in use, and
whether the cursor's bar is on the screen. -/
@[ext]
structure Terminal where
  cell : Nat → Nat → UInt16
  row : Nat
  col : Nat
  color : UInt8
  bar : Bool

namespace Terminal

def blank (g : Terminal) : UInt16 := cellOf 0x20 g.color

def hide (g : Terminal) : Terminal := { g with bar := false }

def draw (g : Terminal) : Terminal := { g with bar := true }

/-- A cell that changes is drawn over what is on it, the cursor's bar included. -/
def put (g : Terminal) (row col : Nat) (cell : UInt16) : Terminal :=
  { g with
    cell := fun r c => if r = row ∧ c = col then cell else g.cell r c
    bar := if g.cell row col ≠ cell ∧ g.row = row ∧ g.col = col then false else g.bar }

/-- Below the last row, the rows move up. -/
def scroll (g : Terminal) : Terminal :=
  if g.row < vgaHeight then g
  else { g with
    cell := fun r c => if r < vgaHeight - 1 then g.cell (r + 1) c else g.blank
    row := vgaHeight - 1 }

/-- Behind the last column, the cursor goes to the next row. -/
def wrap (g : Terminal) : Terminal :=
  if g.col ≥ vgaWidth then { g with col := 0, row := g.row + 1 } else g

def back (g : Terminal) : Terminal :=
  if g.col > 0 then { g with col := g.col - 1 }
  else if g.row > 0 then { g with row := g.row - 1, col := vgaWidth - 1 }
  else g

def advance (g : Terminal) (c : UInt8) : Terminal :=
  if c = 0x0A then { g with col := 0, row := g.row + 1 }
  else if c = 0x0D then { g with col := 0 }
  else if c = 0x08 then g.back.put g.back.row g.back.col g.blank
  else if c = 0x09 then { g with col := (g.col + 8) / 8 * 8 }
  else { g.put g.row g.col (cellOf c g.color) with col := g.col + 1 }

def putchar (g : Terminal) (c : UInt8) : Terminal := (g.hide.advance c).wrap.scroll.draw

def clear (g : Terminal) : Terminal := { g with cell := fun _ _ => g.blank, row := 0, col := 0, bar := true }

def call (g : Terminal) : ConsoleCall → Terminal
  | .putchar c => g.putchar c
  | .write s => s.foldl putchar g
  | .clear => g.clear
  | .setColor fg bg => { g with color := vgaColor fg bg }
  | .setCursor row col =>
    { g with row := min row.toNat (vgaHeight - 1), col := min col.toNat (vgaWidth - 1), bar := true }
  | .putcharAt row col c fg bg =>
    if row.toNat ≥ vgaHeight ∨ col.toNat ≥ vgaWidth then g
    else g.put row.toNat col.toNat (cellOf c (vgaColor fg bg))

/-- The terminal that `vga_init` leaves. -/
def initial : Terminal where
  cell := fun _ _ => cellOf 0x20 (vgaColor 10 0)
  row := 0
  col := 0
  color := vgaColor 10 0
  bar := true

/-- The colour of a point: the cursor's on its bar, elsewhere that of the cell. -/
def picture (font : Bytes) (g : Terminal) (p : ScreenPoint) : UInt8 :=
  if g.bar = true ∧ InBar g.row g.col p then cursorInk (g.cell g.row g.col)
  else cellInk font (g.cell (p.2.val / vgaGlyphH) (p.1.val / vgaGlyphW)) p

theorem color_back (g : Terminal) : g.back.color = g.color := by
  unfold back
  split
  · rfl
  · split
    · rfl
    · rfl

theorem put_at {g : Terminal} {row col r c : Nat} (h : r = row ∧ c = col) (cell : UInt16) :
    (g.put row col cell).cell r c = cell := if_pos h

theorem put_ne {g : Terminal} {row col r c : Nat} (h : ¬(r = row ∧ c = col)) (cell : UInt16) :
    (g.put row col cell).cell r c = g.cell r c := if_neg h

theorem put_self {g : Terminal} {row col : Nat} {cell : UInt16} (h : g.cell row col = cell) :
    g.put row col cell = g := by
  refine Terminal.ext ?_ rfl rfl rfl (if_neg fun hchanged => hchanged.1 h)
  funext r c
  by_cases hat : r = row ∧ c = col
  · rw [put_at hat, hat.1, hat.2, h]
  · exact put_ne hat cell

/-- Where no bar is on the screen, none appears. -/
theorem bar_put {g : Terminal} (h : g.bar = false) (row col : Nat) (cell : UInt16) :
    (g.put row col cell).bar = false :=
  (congrArg (ite _ false) h).trans (ite_self _)

theorem picture_cell {g : Terminal} {p : ScreenPoint} (h : ¬(g.bar = true ∧ InBar g.row g.col p)) (font : Bytes) :
    g.picture font p = cellInk font (g.cell (p.2.val / vgaGlyphH) (p.1.val / vgaGlyphW)) p := if_neg h

theorem picture_bar {g : Terminal} {p : ScreenPoint} (h : g.bar = true ∧ InBar g.row g.col p) (font : Bytes) :
    g.picture font p = cursorInk (g.cell g.row g.col) := if_pos h

theorem picture_hidden {g : Terminal} (h : g.bar = false) (font : Bytes) (p : ScreenPoint) :
    g.picture font p = cellInk font (g.cell (p.2.val / vgaGlyphH) (p.1.val / vgaGlyphW)) p :=
  picture_cell (fun hbar => Bool.false_ne_true (h ▸ hbar.1)) font

/-- Outside a cell that is put, the picture stays. -/
theorem picture_put {g : Terminal} {row col : Nat} {p : ScreenPoint} (h : ¬InCell row col p) (font : Bytes)
    (cell : UInt16) : (g.put row col cell).picture font p = g.picture font p := by
  have hcell : cellInk font ((g.put row col cell).cell (p.2.val / vgaGlyphH) (p.1.val / vgaGlyphW)) p =
      cellInk font (g.cell (p.2.val / vgaGlyphH) (p.1.val / vgaGlyphW)) p := by rw [put_ne h]
  by_cases hbar : g.bar = true ∧ InBar g.row g.col p
  · -- the bar is in another cell than the one that is put
    have hother : ¬(g.row = row ∧ g.col = col) := fun hat => h (hat.1 ▸ hat.2 ▸ hbar.2.1)
    have hkept : (g.put row col cell).bar = true := (if_neg fun hchanged => hother hchanged.2).trans hbar.1
    rw [picture_bar hbar, picture_bar ⟨hkept, hbar.2⟩]
    exact congrArg cursorInk (put_ne hother cell)
  · have hnone : ¬((g.put row col cell).bar = true ∧ InBar g.row g.col p) := fun hnew => hbar ⟨by
      by_contra hoff
      exact Bool.false_ne_true ((bar_put (Bool.eq_false_iff.mpr hoff) row col cell).symm.trans hnew.1), hnew.2⟩
    exact (picture_cell hnone font).trans (hcell.trans (picture_cell hbar font).symm)

/-- The cursor is in the grid. -/
structure Inside (g : Terminal) : Prop where
  row : g.row < vgaHeight
  col : g.col < vgaWidth

theorem inside_putchar {g : Terminal} (c : UInt8) : (g.putchar c).Inside := by
  have hscroll : ∀ g : Terminal, g.scroll.row < vgaHeight ∧ g.scroll.col = g.col := fun g => by
    unfold scroll
    split
    · exact ⟨‹_›, rfl⟩
    · exact ⟨show vgaHeight - 1 < vgaHeight by decide, rfl⟩
  have hwrap : ∀ g : Terminal, g.wrap.col < vgaWidth := fun g => by
    unfold wrap
    split
    · exact show 0 < vgaWidth by decide
    · exact Nat.lt_of_not_le ‹_›
  refine ⟨(hscroll (g.hide.advance c).wrap).1, ?_⟩
  show (g.hide.advance c).wrap.scroll.col < vgaWidth
  rw [(hscroll _).2]
  exact hwrap (g.hide.advance c)

theorem inside_call {g : Terminal} (h : g.Inside) (c : ConsoleCall) : (g.call c).Inside := by
  cases c with
  | putchar c => exact inside_putchar c
  | write s =>
    unfold call
    induction s generalizing g with
    | nil => exact h
    | cons c s ih => exact ih (inside_putchar c)
  | clear => exact ⟨show 0 < vgaHeight by decide, show 0 < vgaWidth by decide⟩
  | setColor fg bg => exact ⟨h.row, h.col⟩
  | setCursor row col =>
    refine ⟨?_, ?_⟩
    · show min _ _ < _
      simp only [vgaHeight]
      omega
    · show min _ _ < _
      simp only [vgaWidth]
      omega
  | putcharAt row col c fg bg =>
    unfold call
    dsimp only
    split
    · exact h
    · exact ⟨h.row, h.col⟩

end Terminal

/-- The console has the cells of the terminal and, unless the screen has been painted
over, the screen is its picture. Without `drawn`, no bar is on it. -/
structure Console.Shows (font : Bytes) (clean : Prop) (g : Terminal) (drawn : Bool) (t : Console) : Prop where
  cached : t.svga.Cached
  glyphs : t.font = font
  cursor : t.cursorDrawn = drawn
  row : t.cursorRow = g.row
  col : t.cursorCol = g.col
  color : t.currentColor = g.color
  hidden : drawn = false → g.bar = false
  cells : ∀ r c, r < vgaHeight → c < vgaWidth → t.cells (r * vgaWidth + c) = g.cell r c
  pixels : clean → ∀ p : ScreenPoint, p.2.val < vgaHeight * vgaGlyphH → pixel t.svga p = g.picture font p

/-- The accesses to `cells` are in the grid. -/
def InGrid (x : Cells) : Prop := x.first + x.count ≤ vgaHeight * vgaWidth

section Calls

variable {font : Bytes} {clean : Prop} {g : Terminal} {drawn : Bool} {t : Console}

theorem index_lt {r c : Nat} (hr : r < vgaHeight) (hc : c < vgaWidth) :
    r * vgaWidth + c + 1 ≤ vgaHeight * vgaWidth := by
  simp only [vgaHeight, vgaWidth] at *
  omega

/-- Without a bar, every point has the colour of its cell. -/
theorem Console.Shows.inked (h : t.Shows font clean g false) (hclean : clean) {p : ScreenPoint}
    (hp : p.2.val < vgaHeight * vgaGlyphH) :
    pixel t.svga p = cellInk font (g.cell (p.2.val / vgaGlyphH) (p.1.val / vgaGlyphW)) p :=
  (h.pixels hclean p hp).trans (Terminal.picture_hidden (h.hidden rfl) font p)

/-- Where no cursor is drawn, it may be moved. -/
theorem Console.Shows.moved (h : t.Shows font clean g false) {row col row' col' : Nat} (hrow : row = row')
    (hcol : col = col') :
    ({ t with cursorRow := row, cursorCol := col } : Console).Shows font clean
      { g with row := row', col := col' } false where
  cached := h.cached
  glyphs := h.glyphs
  cursor := h.cursor
  row := hrow
  col := hcol
  color := h.color
  hidden := h.hidden
  cells := h.cells
  pixels hclean p hp := (h.inked hclean hp).trans (Terminal.picture_hidden
    (g := { g with row := row', col := col' }) (h.hidden rfl) font p).symm

/-- A step back stays in the grid. -/
theorem Console.Shows.back (h : t.Shows font clean g false) (hin : g.Inside) :
    (if t.cursorCol > 0 then { t with cursorCol := t.cursorCol - 1 }
      else if t.cursorRow > 0 then { t with cursorRow := t.cursorRow - 1, cursorCol := vgaWidth - 1 }
      else t : Console).Shows font clean g.back false ∧ g.back.Inside := by
  unfold Terminal.back
  by_cases hcol : t.cursorCol > 0
  · rw [if_pos hcol, if_pos (h.col ▸ hcol)]
    exact ⟨h.moved h.row (congrArg (· - 1) h.col), hin.row, Nat.lt_of_le_of_lt (Nat.sub_le _ _) hin.col⟩
  rw [if_neg hcol, if_neg (h.col ▸ hcol)]
  by_cases hrow : t.cursorRow > 0
  · rw [if_pos hrow, if_pos (h.row ▸ hrow)]
    exact ⟨h.moved (congrArg (· - 1) h.row) rfl, Nat.lt_of_le_of_lt (Nat.sub_le _ _) hin.row,
      show 99 < 100 by decide⟩
  · rw [if_neg hrow, if_neg (h.row ▸ hrow)]
    exact ⟨h, hin⟩

theorem total_loadCell (h : t.Shows font clean g drawn) {r c : Nat} (hr : r < vgaHeight) (hc : c < vgaWidth)
    {Q : UInt16 → Console → Prop} (hQ : Q (g.cell r c) t) : (loadCell (r * vgaWidth + c)).total InGrid Q t := by
  refine Prog.wp_bind.mpr (Prog.wp_tell (index_lt hr hc) (Prog.wp_bind.mpr (Prog.wp_get (Prog.wp_pure ?_))))
  rw [h.cells r c hr hc]
  exact hQ

/-- A cell is drawn only when it changes, and shows either way. -/
theorem total_blitCell (h : t.Shows font clean g drawn) {r c : Nat} (hr : r < vgaHeight) (hc : c < vgaWidth)
    (cell : UInt16) : (blitCell r c cell).total InGrid (fun _ t' => t'.Shows font clean (g.put r c cell) drawn) t := by
  unfold blitCell
  refine Prog.wp_bind.mpr (total_loadCell h hr hc (Prog.wp_ite (fun hsame => Prog.wp_pure ?_) fun hchanged => ?_))
  · rwa [Terminal.put_self hsame]
  refine Prog.wp_bind.mpr (Prog.wp_bind.mpr (Prog.wp_tell (index_lt hr hc) (Prog.wp_modify ?_)))
  refine Prog.wp_bind.mpr (Prog.wp_get (Prog.wp_modify ?_))
  obtain rfl := h.glyphs
  have hdraw := draws_renderCell t.font cell hr hc
  refine ⟨hdraw.keeps h.cached, rfl, h.cursor, h.row, h.col, h.color,
    fun hoff => Terminal.bar_put (h.hidden hoff) r c cell, fun r' c' hr' hc' => ?_, fun hclean p hp => ?_⟩
  · show Function.update t.cells (r * vgaWidth + c) cell (r' * vgaWidth + c') = _
    by_cases hat : r' = r ∧ c' = c
    · rw [Terminal.put_at hat, hat.1, hat.2, Function.update_self]
    · have hne : r' * vgaWidth + c' ≠ r * vgaWidth + c := by
        simp only [vgaWidth] at hc hc' ⊢
        omega
      rw [Terminal.put_ne hat, Function.update_of_ne hne, h.cells r' c' hr' hc']
  · show pixel (renderCell t.font r c cell t.svga) p = (g.put r c cell).picture t.font p
    by_cases hat : InCell r c p
    · have hwiped : ¬((g.put r c cell).bar = true ∧ InBar g.row g.col p) := fun hbar =>
        Bool.false_ne_true ((if_pos ⟨hchanged, hbar.2.1.1.symm.trans hat.1, hbar.2.1.2.symm.trans hat.2⟩).symm.trans
          hbar.1)
      rw [Terminal.picture_cell hwiped, Terminal.put_at hat]
      exact hdraw.inside h.cached hat
    · rw [Terminal.picture_put hat, hdraw.outside h.cached hat]
      exact h.pixels hclean p hp

theorem total_hideCursor (h : t.Shows font clean g drawn) (hin : g.Inside) :
    hideCursor.total InGrid (fun _ t' => t'.Shows font clean g.hide false) t := by
  unfold hideCursor
  refine Prog.wp_bind.mpr (Prog.wp_get (Prog.wp_ite (fun hoff => Prog.wp_pure ?_) fun _ => ?_))
  · rw [← h.cursor, hoff] at h
    have hsame : g.hide = g := Terminal.ext rfl rfl rfl rfl (h.hidden rfl).symm
    rwa [hsame]
  rw [h.row, h.col, h.glyphs]
  refine Prog.wp_bind.mpr (total_loadCell h hin.row hin.col (Prog.wp_bind.mpr (Prog.wp_modify (Prog.wp_modify ?_))))
  have hdraw := draws_renderCell font (g.cell g.row g.col) hin.row hin.col
  refine ⟨hdraw.keeps h.cached, h.glyphs, rfl, h.row, h.col, h.color, fun _ => rfl, h.cells, fun hclean p hp => ?_⟩
  rw [Terminal.picture_hidden rfl]
  show pixel (renderCell font g.row g.col (g.cell g.row g.col) t.svga) p = cellInk font (g.cell _ _) p
  by_cases hat : InCell g.row g.col p
  · rw [hdraw.inside h.cached hat, hat.1, hat.2]
  · rw [hdraw.outside h.cached hat, h.pixels hclean p hp, Terminal.picture_cell fun hbar => hat hbar.2.1]

theorem total_drawCursor (h : t.Shows font clean g false) (hin : g.Inside) :
    drawCursor.total InGrid (fun _ t' => t'.Shows font clean g.draw true) t := by
  unfold drawCursor
  refine Prog.wp_bind.mpr (Prog.wp_get ?_)
  rw [h.row, h.col]
  refine Prog.wp_bind.mpr (total_loadCell h hin.row hin.col (Prog.wp_bind.mpr (Prog.wp_modify (Prog.wp_modify ?_))))
  have hdraw := draws_drawBar (cursorInk (g.cell g.row g.col)) hin.row hin.col
  refine ⟨hdraw.keeps h.cached, h.glyphs, rfl, h.row, h.col, h.color, fun hoff => absurd hoff.symm Bool.false_ne_true,
    h.cells, fun hclean p hp => ?_⟩
  show pixel (drawBar g.row g.col _ t.svga) p = _
  by_cases hat : InBar g.row g.col p
  · rw [hdraw.inside h.cached hat]
    exact (Terminal.picture_bar (g := g.draw) ⟨rfl, hat⟩ font).symm
  · rw [hdraw.outside h.cached hat, h.inked hclean hp]
    exact (Terminal.picture_cell (g := g.draw) (fun hbar => hat hbar.2) font).symm

/-- In this font a blank has no points. -/
def BlankSpace (font : Bytes) : Prop := ∀ line < vgaGlyphH, font (0x20 * vgaGlyphH + line) = 0

theorem blank_char_bg : ∀ color : UInt8,
    cellChar (cellOf 0x20 color) = 0x20 ∧ cellBg (cellOf 0x20 color) = (color >>> 4) &&& 0x0F :=
  byte_forall (by decide +kernel)

theorem cellInk_blank (hfont : BlankSpace font) (color : UInt8) (p : ScreenPoint) :
    cellInk font (cellOf 0x20 color) p = (color >>> 4) &&& 0x0F := by
  obtain ⟨hchar, hbg⟩ := blank_char_bg color
  have hzero := hfont (p.2.val % vgaGlyphH) (Nat.mod_lt _ (by decide))
  unfold cellInk glyphInk
  rw [hchar, show (0x20 : UInt8).toNat = 0x20 from rfl, hzero, UInt8.zero_and, if_neg (fun h => h rfl), hbg]

/-- The picture of a scrolled terminal, from the card with its lines moved up and the last row filled. -/
theorem Console.Shows.scrolled (hfont : clean → BlankSpace font) (h : t.Shows font clean g false)
    (hhigh : ¬g.row < vgaHeight)
    {s : Svga} (hs : s.Cached) (hlast : ∀ p : ScreenPoint, 576 ≤ p.2.val ∧ p.2.val < 592 →
      pixel s p = (t.currentColor >>> 4) &&& 0x0F)
    (hup : ∀ p q : ScreenPoint, p.2.val < 576 → q.1 = p.1 → q.2.val = p.2.val + vgaGlyphH →
      pixel s p = pixel t.svga q) :
    ({ t with
      svga := s
      cells := fun i => if 36 * 100 ≤ i ∧ i < 36 * 100 + 100 then t.makeCell 0x20
        else if i < 36 * 100 then t.cells (100 + i) else t.cells i
      cursorRow := vgaHeight - 1 } : Console).Shows font clean g.scroll false := by
  have hscrolled : g.scroll = { g with
      cell := fun r c => if r < vgaHeight - 1 then g.cell (r + 1) c else g.blank, row := vgaHeight - 1 } :=
    if_neg hhigh
  rw [hscrolled]
  refine ⟨hs, h.glyphs, h.cursor, rfl, h.col, h.color, h.hidden, fun r c hr hc => ?_, fun hclean p hp => ?_⟩
  · show (if 36 * 100 ≤ r * 100 + c ∧ r * 100 + c < 36 * 100 + 100 then t.makeCell 0x20 else
      if r * 100 + c < 36 * 100 then t.cells (100 + (r * 100 + c)) else t.cells (r * 100 + c)) =
        if r < 36 then g.cell (r + 1) c else g.blank
    simp only [vgaHeight, vgaWidth] at hr hc
    by_cases hrow : r < 36
    · have hbelow := h.cells (r + 1) c (Nat.succ_lt_succ hrow) hc
      rw [if_neg (by omega), if_pos (by omega), if_pos hrow, ← hbelow]
      exact congrArg t.cells (by simp only [vgaWidth]; omega)
    · rw [if_pos (by omega), if_neg hrow, Console.makeCell, h.color]
      rfl
  · refine Eq.trans ?_ (Terminal.picture_hidden ?_ font p).symm
    case refine_2 => exact h.hidden rfl
    show pixel s p = cellInk font (if p.2.val / vgaGlyphH < 36 then
      g.cell (p.2.val / vgaGlyphH + 1) (p.1.val / vgaGlyphW) else g.blank) p
    simp only [vgaGlyphH, vgaHeight] at hp ⊢
    by_cases hbar : 576 ≤ p.2.val
    · rw [hlast p ⟨hbar, hp⟩, if_neg (by omega), Terminal.blank, cellInk_blank (hfont hclean), h.color]
    · have hq : p.2.val + vgaGlyphH < svgaHeight := by
        simp only [vgaGlyphH, svgaHeight]
        omega
      have hshown := h.inked hclean (p := (p.1, ⟨p.2.val + vgaGlyphH, hq⟩))
        (by simp only [vgaGlyphH, vgaHeight]; omega)
      rw [hup p (p.1, ⟨p.2.val + vgaGlyphH, hq⟩) (by omega) rfl rfl, hshown, if_pos (by omega), cellInk, cellInk,
        Nat.add_mod_right,
        Nat.add_div_right _ (by decide)]

/-- After a scroll the blank row at the bottom is on the screen too. -/
theorem total_vgaScroll (hfont : clean → BlankSpace font) (h : t.Shows font clean g false) :
    vgaScroll.total InGrid (fun _ t' => t'.Shows font clean g.scroll false) t := by
  unfold vgaScroll
  refine Prog.wp_bind.mpr (Prog.wp_get (Prog.wp_ite (fun hlow => Prog.wp_pure ?_) fun hhigh => ?_))
  · rwa [Terminal.scroll, if_pos (h.row ▸ hlow)]
  have hcopied : (svgaCopy t.svga 0 (vgaGlyphH * svgaWidth) (svgaTotal - vgaGlyphH * svgaWidth)).Cached :=
    cached_svgaCopy h.cached (by decide) (by decide)
  have hfill := draws_lastRow ((t.currentColor >>> 4) &&& 0x0F)
  have hkeeps := hfill.keeps hcopied
  have hlast : ∀ p : ScreenPoint, 576 ≤ p.2.val ∧ p.2.val < 592 → _ := fun p hp => hfill.inside hcopied hp
  have hup := fun (p q : ScreenPoint) (hp : p.2.val < 576) (hx : q.1 = p.1) (hy : q.2.val = p.2.val + vgaGlyphH) =>
    (hfill.outside hcopied fun hbar => Nat.not_lt_of_le hbar.1 hp).trans (pixel_scroll h.cached hx hy)
  refine Prog.wp_bind.mpr (Prog.wp_modify (Prog.wp_bind.mpr ?_))
  refine Prog.wp_bind.mpr (Prog.wp_tell (show 100 + 36 * 100 ≤ 37 * 100 by decide) (Prog.wp_bind.mpr
    (Prog.wp_tell (show 0 + 36 * 100 ≤ 37 * 100 by decide) (Prog.wp_modify (Prog.wp_bind.mpr ?_)))))
  refine Prog.wp_bind.mpr (Prog.wp_tell (show 36 * 100 + 100 ≤ 37 * 100 by decide) (Prog.wp_modify ?_))
  refine Prog.wp_bind.mpr (Prog.wp_modify (Prog.wp_modify ?_))
  beta_reduce at hkeeps hlast hup ⊢
  -- the copy is kept closed: the unifier would run it
  dsimp only
  generalize svgaCopy t.svga 0 (vgaGlyphH * svgaWidth) (svgaTotal - vgaGlyphH * svgaWidth) = s₁ at *
  exact h.scrolled hfont (h.row ▸ hhigh) hkeeps hlast hup

theorem total_vgaClear (hfont : clean → BlankSpace font) (hcached : t.svga.Cached) (hglyphs : t.font = font)
    (hcolor : t.currentColor = g.color) : vgaClear.total InGrid (fun _ t' => t'.Shows font clean g.clear true) t := by
  unfold vgaClear
  refine Prog.wp_bind.mpr (Prog.wp_get (Prog.wp_bind.mpr (Prog.wp_modify (Prog.wp_bind.mpr ?_))))
  refine Prog.wp_bind.mpr (Prog.wp_tell (show 0 + 100 * 37 ≤ 37 * 100 by decide) (Prog.wp_modify ?_))
  refine Prog.wp_bind.mpr (Prog.wp_modify (total_drawCursor (g := g.clear.hide) ?_
    ⟨show 0 < 37 by decide, show 0 < 100 by decide⟩))
  have hdraw := draws_clear ((t.currentColor >>> 4) &&& 0x0F)
  refine ⟨hdraw.keeps hcached, hglyphs, rfl, rfl, rfl, hcolor, fun _ => rfl, fun r c hr hc => ?_, fun hclean p hp => ?_⟩
  · show (if _ then _ else _) = _
    rw [if_pos ⟨Nat.zero_le _, by simp only [vgaHeight, vgaWidth] at *; omega⟩, Console.makeCell, hcolor]
    rfl
  · have hink : g.clear.hide.picture font p = (t.currentColor >>> 4) &&& 0x0F := by
      rw [Terminal.picture_hidden rfl, hcolor]
      exact cellInk_blank (hfont hclean) g.color p
    exact (hdraw.inside hcached trivial).trans hink.symm

/-- A character, before a wrap: the cursor may be left behind the last row or column. -/
theorem total_putAtCursor (h : t.Shows font clean g false) (hin : g.Inside) (c : UInt8) :
    (putAtCursor c).total InGrid (fun _ t' => t'.Shows font clean (g.advance c) false) t := by
  unfold putAtCursor Terminal.advance
  refine Prog.wp_bind.mpr (Prog.wp_get ?_)
  by_cases hnewline : c = 0x0A
  · rw [if_pos hnewline, if_pos hnewline]
    exact Prog.wp_modify (h.moved (congrArg Nat.succ h.row) rfl)
  rw [if_neg hnewline, if_neg hnewline]
  by_cases hreturn : c = 0x0D
  · rw [if_pos hreturn, if_pos hreturn]
    exact Prog.wp_modify (h.moved h.row rfl)
  rw [if_neg hreturn, if_neg hreturn]
  by_cases hback : c = 0x08
  · rw [if_pos hback, if_pos hback]
    obtain ⟨hshows, hrow, hcol⟩ := h.back hin
    refine Prog.wp_bind.mpr (Prog.wp_modify (Prog.wp_bind.mpr (Prog.wp_get ?_)))
    rw [hshows.row, hshows.col, Console.makeCell, hshows.color, g.color_back]
    exact total_blitCell hshows hrow hcol _
  rw [if_neg hback, if_neg hback]
  by_cases htab : c = 0x09
  · rw [if_pos htab, if_pos htab]
    exact Prog.wp_modify (h.moved h.row (by rw [h.col]))
  rw [if_neg htab, if_neg htab, h.row, h.col, Console.makeCell, h.color]
  exact Prog.total_seq (total_blitCell h hin.row hin.col (cellOf c g.color)) fun _ t' h' =>
    Prog.wp_modify (h'.moved h'.row (congrArg Nat.succ h'.col))

theorem total_vgaPutchar (hfont : clean → BlankSpace font) (h : t.Shows font clean g drawn)
    (hin : g.Inside) (c : UInt8) :
    (vgaPutchar c).total InGrid (fun _ t' => t'.Shows font clean (g.putchar c) true) t := by
  unfold vgaPutchar
  refine Prog.total_seq (total_hideCursor h hin) fun _ t₁ h₁ => ?_
  refine Prog.total_seq (total_putAtCursor h₁ ⟨hin.row, hin.col⟩ c) fun _ t₂ h₂ => ?_
  refine Prog.wp_bind.mpr (Prog.wp_modify ?_)
  have hin' := Terminal.inside_putchar (g := g) c
  refine Prog.total_seq (total_vgaScroll hfont (g := (g.hide.advance c).wrap) ?_) fun _ t₃ h₃ =>
    total_drawCursor h₃ ⟨hin'.row, hin'.col⟩
  unfold Terminal.wrap
  by_cases hwide : t₂.cursorCol ≥ vgaWidth
  · rw [if_pos hwide, if_pos (h₂.col ▸ hwide)]
    exact h₂.moved (congrArg Nat.succ h₂.row) rfl
  · rw [if_neg hwide, if_neg (h₂.col ▸ hwide)]
    exact h₂

theorem total_vgaWrite (hfont : clean → BlankSpace font) (h : t.Shows font clean g true) (hin : g.Inside)
    (s : List UInt8) :
    (vgaWrite s).total InGrid (fun _ t' => t'.Shows font clean (s.foldl Terminal.putchar g) true) t := by
  induction s generalizing g t with
  | nil => exact Prog.total_pure h
  | cons c s ih =>
    exact Prog.total_seq (total_vgaPutchar hfont h hin c) fun _ t' h' => ih h' (Terminal.inside_putchar c)

theorem total_vgaSetCursor (h : t.Shows font clean g drawn) (hin : g.Inside) (row col : UInt8) :
    (vgaSetCursor row col).total InGrid (fun _ t' => t'.Shows font clean (g.call (.setCursor row col)) true) t := by
  unfold vgaSetCursor
  refine Prog.total_seq (total_hideCursor h hin) fun _ t₁ h₁ => Prog.wp_bind.mpr (Prog.wp_modify ?_)
  have hmoved := Terminal.inside_call hin (.setCursor row col)
  refine total_drawCursor (h₁.moved ?_ ?_) ⟨hmoved.row, hmoved.col⟩
  · split
    · exact (Nat.min_eq_right (Nat.le_trans (Nat.pred_le _) ‹_›)).symm
    · exact (Nat.min_eq_left (Nat.le_pred_of_lt (Nat.lt_of_not_le ‹_›))).symm
  · split
    · exact (Nat.min_eq_right (Nat.le_trans (Nat.pred_le _) ‹_›)).symm
    · exact (Nat.min_eq_left (Nat.le_pred_of_lt (Nat.lt_of_not_le ‹_›))).symm

/-- Every call keeps the picture. -/
theorem total_call (hfont : clean → BlankSpace font) (h : t.Shows font clean g true) (hin : g.Inside)
    (c : ConsoleCall) :
    c.run.total InGrid (fun _ t' => t'.Shows font clean (g.call c) true) t := by
  cases c with
  | putchar c => exact total_vgaPutchar hfont h hin c
  | write s => exact total_vgaWrite hfont h hin s
  | clear => exact total_vgaClear hfont h.cached h.glyphs h.color
  | setColor fg bg =>
    exact Prog.wp_modify ⟨h.cached, h.glyphs, h.cursor, h.row, h.col, rfl, h.hidden, h.cells, h.pixels⟩
  | setCursor row col => exact total_vgaSetCursor h hin row col
  | putcharAt row col c fg bg =>
    unfold ConsoleCall.run Terminal.call
    dsimp only
    unfold vgaPutcharAt
    by_cases hout : row.toNat ≥ vgaHeight ∨ col.toNat ≥ vgaWidth
    · rw [if_pos hout, if_pos hout]
      exact Prog.total_pure h
    · rw [if_neg hout, if_neg hout]
      rw [not_or, Nat.not_le, Nat.not_le] at hout
      exact total_blitCell h hout.1 hout.2 _

theorem total_runConsole (hfont : clean → BlankSpace font) (h : t.Shows font clean g true) (hin : g.Inside)
    (cs : List ConsoleCall) :
    (runConsole cs).total InGrid (fun _ t' => t'.Shows font clean (cs.foldl Terminal.call g) true) t := by
  induction cs generalizing g t with
  | nil => exact Prog.total_pure h
  | cons c cs ih => exact Prog.total_seq (total_call hfont h hin c) fun _ t' h' => ih h' (Terminal.inside_call hin c)

theorem total_vgaInit (hfont : clean → BlankSpace font) (t : Console) :
    (vgaInit font).total InGrid (fun _ t' => t'.Shows font clean Terminal.initial true) t := by
  unfold vgaInit
  exact Prog.wp_bind.mpr (Prog.wp_modify
    (total_vgaClear (g := Terminal.initial) hfont (cached_svgaSetModeGfx t.svga) rfl rfl))

end Calls

/-- A call leaves the cursor in the grid, so any number of them does. -/
theorem Terminal.inside_calls (cs : List ConsoleCall) : (cs.foldl Terminal.call Terminal.initial).Inside := by
  have hall : ∀ (cs : List ConsoleCall) (g : Terminal), g.Inside → (cs.foldl Terminal.call g).Inside := by
    intro cs
    induction cs with
    | nil => exact fun _ h => h
    | cons c cs ih => exact fun g h => ih _ (Terminal.inside_call h c)
  exact hall cs _ ⟨show 0 < 37 by decide, show 0 < 100 by decide⟩

/-- Whatever is called, from any state of the machine at `vga_init` on, the screen is
the picture of the terminal and the cursor is in the grid. -/
theorem console_renders {font : Bytes} (hfont : BlankSpace font) (t : Console) (cs : List ConsoleCall) :
    (do vgaInit font; runConsole cs).total InGrid
      (fun _ t' => t'.Shows font True (cs.foldl Terminal.call Terminal.initial) true ∧
        (cs.foldl Terminal.call Terminal.initial).Inside) t :=
  Prog.total_seq (total_vgaInit (fun _ => hfont) t) fun _ _ h =>
    Prog.total_mono (total_runConsole (fun _ => hfont) h (Terminal.inside_calls []) cs) (fun _ hx => hx)
      fun _ _ h' => ⟨h', Terminal.inside_calls cs⟩

/-- With a font of one letter: the letter is on the screen in its colour, on the ground of the
console, and the cursor is in the next row. -/
theorem console_renders_letter :
    (do vgaInit fun i => if i = 0x41 * vgaGlyphH + 3 then 0x18 else 0; runConsole [.write [0x41, 0x0A]]).total InGrid
      (fun _ t' => pixel t'.svga (⟨3, by decide⟩, ⟨3, by decide⟩) = 10 ∧
        pixel t'.svga (⟨2, by decide⟩, ⟨3, by decide⟩) = 0 ∧ pixel t'.svga (⟨2, by decide⟩, ⟨30, by decide⟩) = 10)
      ⟨⟨fun _ => 0, 0, 0xFF, fun _ => 0⟩, fun _ => 0, fun _ => 0, 0, 0, 0, false⟩ := by
  have hfont : BlankSpace fun i => if i = 0x41 * vgaGlyphH + 3 then 0x18 else 0 := fun line hline =>
    if_neg (by simp only [vgaGlyphH] at *; omega)
  refine Prog.total_mono (console_renders hfont _ [.write [0x41, 0x0A]]) (fun _ h => h) fun _ t' ⟨h, _⟩ => ⟨?_, ?_, ?_⟩
  · exact (h.pixels trivial (⟨3, by decide⟩, ⟨3, by decide⟩) (by decide)).trans (by decide)
  · exact (h.pixels trivial (⟨2, by decide⟩, ⟨3, by decide⟩) (by decide)).trans (by decide)
  · exact (h.pixels trivial (⟨2, by decide⟩, ⟨30, by decide⟩) (by decide)).trans (by decide)

end RainbowOs.Kernel
