import RainbowOs.Kernel.Console

/-!
# Text on the console

Text without returns and backspaces is set in rows of at most 100 characters: a row
ends at a newline or when it is full, and a tab goes to the next multiple of 8. The
terminal shows the last 37 of these rows, the one being written last.
-/

namespace RainbowOs.Kernel

open RainbowOs.Lib

/-- Text in rows, the last one still being written. -/
structure Page where
  rows : List (List UInt8)
  line : List UInt8
  deriving DecidableEq, Repr

namespace Page

/-- A full row is put away. -/
def wrap (p : Page) : Page := if p.line.length ≥ vgaWidth then ⟨p.rows ++ [p.line], []⟩ else p

/-- What a character adds to the row that is being written. -/
def extend (line : List UInt8) (c : UInt8) : List UInt8 :=
  if c = 0x09 then line ++ List.replicate (8 - line.length % 8) 0x20 else line ++ [c]

def add (p : Page) (c : UInt8) : Page :=
  if c = 0x0A then ⟨p.rows ++ [p.line], []⟩ else wrap ⟨p.rows, extend p.line c⟩

/-- The first row that is shown. -/
def top (p : Page) : Nat := p.rows.length + 1 - vgaHeight

/-- The character at a place of the screen. -/
def char (p : Page) (r c : Nat) : UInt8 := ((p.rows ++ [p.line]).getD (p.top + r) []).getD c 0x20

/-- The terminal that shows the end of a page, with the cursor behind the text. -/
def terminal (color : UInt8) (bar : Bool) (p : Page) : Terminal where
  cell := fun r c => cellOf (p.char r c) color
  row := p.rows.length - p.top
  col := p.line.length
  color := color
  bar := bar

theorem getD_snoc {α : Type} (xs : List α) (x d : α) (i : Nat) :
    (xs ++ [x]).getD i d = if i = xs.length then x else xs.getD i d := by
  rw [List.getD_eq_getElem?_getD, List.getD_eq_getElem?_getD]
  by_cases hi : i = xs.length
  · rw [if_pos hi, hi, List.getElem?_concat_length, Option.getD_some]
  · rw [if_neg hi]
    rcases Nat.lt_or_gt_of_ne hi with hlt | hgt
    · rw [List.getElem?_append_left hlt]
    · rw [List.getElem?_eq_none (by rw [List.length_append, List.length_singleton]; omega),
        List.getElem?_eq_none (Nat.le_of_lt hgt)]

/-- Blanks at the end change nothing that is shown. -/
theorem getD_blanks (line : List UInt8) (n c : Nat) :
    (line ++ List.replicate n 0x20).getD c 0x20 = line.getD c 0x20 := by
  rcases Nat.lt_or_ge c line.length with hlt | hge
  · exact List.getD_append _ _ _ _ hlt
  · rw [List.getD_append_right _ _ _ _ hge, List.getD_eq_default _ _ hge, List.getD_eq_getElem?_getD,
      List.getElem?_replicate]
    split
    · rfl
    · rfl

variable (color : UInt8) (p : Page)

theorem char_eq (r c : Nat) : p.char r c =
    if p.top + r = p.rows.length then p.line.getD c 0x20 else (p.rows.getD (p.top + r) []).getD c 0x20 := by
  unfold char
  rw [getD_snoc]
  split
  · rfl
  · rfl

theorem char_line (line : List UInt8) (r c : Nat) : (Page.mk p.rows line).char r c =
    if p.top + r = p.rows.length then line.getD c 0x20 else (p.rows.getD (p.top + r) []).getD c 0x20 :=
  char_eq ⟨p.rows, line⟩ r c

/-- Below the row being written all is blank. -/
theorem char_below {r : Nat} (h : p.rows.length < p.top + r) (c : Nat) : p.char r c = 0x20 := by
  rw [char_eq, if_neg (Nat.ne_of_gt h), List.getD_eq_default _ _ (Nat.le_of_lt h), List.getD_nil]

theorem row_lt (bar : Bool) : (p.terminal color bar).row < vgaHeight := by
  show p.rows.length - p.top < vgaHeight
  unfold top
  simp only [vgaHeight]
  omega

/-- A new row, with a scroll where the screen is full. -/
theorem newline_terminal (bar : Bool) :
    ({ p.terminal color bar with col := 0, row := (p.terminal color bar).row + 1 } : Terminal).scroll =
      (Page.mk (p.rows ++ [p.line]) []).terminal color bar := by
  have hlen : (p.rows ++ [p.line]).length = p.rows.length + 1 := by rw [List.length_append, List.length_singleton]
  unfold Terminal.scroll
  by_cases hroom : p.rows.length - p.top + 1 < vgaHeight
  · -- there is room below, and the same rows are shown
    have htop : (Page.mk (p.rows ++ [p.line]) []).top = p.top := by
      unfold top at hroom ⊢
      simp only [vgaHeight, hlen] at hroom ⊢
      omega
    refine (if_pos hroom).trans (Terminal.ext ?_ ?_ rfl rfl rfl)
    · funext r c
      show cellOf (p.char r c) color = cellOf (char _ r c) color
      rw [char_eq (Page.mk (p.rows ++ [p.line]) []), htop, hlen]
      by_cases hlast : p.top + r = p.rows.length + 1
      · rw [if_pos hlast, p.char_below (by omega), List.getD_nil]
      · rw [if_neg hlast, char]
    · show p.rows.length - p.top + 1 = (p.rows ++ [p.line]).length - _
      rw [htop, hlen]
      unfold top
      simp only [vgaHeight]
      omega
  · have htop : (Page.mk (p.rows ++ [p.line]) []).top = p.top + 1 := by
      unfold top at hroom ⊢
      simp only [vgaHeight, hlen] at hroom ⊢
      omega
    refine (if_neg hroom).trans (Terminal.ext ?_ ?_ rfl rfl rfl)
    · funext r c
      show (if r < vgaHeight - 1 then cellOf (p.char (r + 1) c) color else cellOf 0x20 color) =
        cellOf (char _ r c) color
      by_cases hr : r < vgaHeight - 1
      · rw [if_pos hr, char_eq (Page.mk (p.rows ++ [p.line]) []), htop, hlen]
        by_cases hlast : p.top + 1 + r = p.rows.length + 1
        · rw [if_pos hlast, p.char_below (by omega), List.getD_nil]
        · rw [if_neg hlast, char, Nat.add_right_comm, Nat.add_assoc]
      · have hlow : p.rows.length + 1 ≤ p.top + 1 + r := by
          unfold top
          simp only [vgaHeight] at hr ⊢
          omega
        rw [if_neg hr, char_eq (Page.mk (p.rows ++ [p.line]) []), htop, hlen]
        split
        · rw [List.getD_nil]
        · have hnone : (p.rows ++ [p.line]).getD (p.top + 1 + r) [] = [] := List.getD_eq_default _ _ (by rwa [hlen])
          rw [hnone, List.getD_nil]
    · show vgaHeight - 1 = (p.rows ++ [p.line]).length - _
      rw [htop, hlen]
      unfold top at hroom ⊢
      simp only [vgaHeight] at hroom ⊢
      omega

/-- What a character does before a wrap, to a page. -/
theorem advance_terminal {c : UInt8} (hnewline : c ≠ 0x0A) (hreturn : c ≠ 0x0D) (hback : c ≠ 0x08) :
    (p.terminal color false).advance c = (Page.mk p.rows (extend p.line c)).terminal color false := by
  unfold Terminal.advance extend
  rw [if_neg hnewline, if_neg hreturn, if_neg hback]
  have hle : p.top ≤ p.rows.length := by
    unfold top
    simp only [vgaHeight]
    omega
  by_cases htab : c = 0x09
  · rw [if_pos htab, if_pos htab]
    refine Terminal.ext ?_ rfl ?_ rfl rfl
    · funext r c'
      show cellOf (p.char r c') color = cellOf (char _ r c') color
      rw [char_eq, char_line]
      split
      · rw [getD_blanks]
      · rfl
    · show (p.line.length + 8) / 8 * 8 = (p.line ++ List.replicate _ _).length
      rw [List.length_append, List.length_replicate]
      omega
  · rw [if_neg htab, if_neg htab]
    refine Terminal.ext ?_ rfl ?_ rfl (Terminal.bar_put rfl _ _ _)
    · funext r c'
      show ((p.terminal color false).put _ _ (cellOf c color)).cell r c' = cellOf (char _ r c') color
      rw [char_line]
      by_cases hat : r = (p.terminal color false).row ∧ c' = (p.terminal color false).col
      · rw [Terminal.put_at hat, if_pos (by rw [hat.1]; exact Nat.add_sub_cancel' hle), getD_snoc]
        exact congrArg (cellOf · color) (if_pos hat.2).symm
      · rw [Terminal.put_ne hat]
        show cellOf (p.char r c') color = _
        rw [char_eq]
        split
        · have hc' : c' ≠ p.line.length := fun hc => hat ⟨by show r = p.rows.length - p.top; omega, hc⟩
          rw [getD_snoc, if_neg hc']
        · rfl
    · show p.line.length + 1 = (p.line ++ [c]).length
      rw [List.length_append, List.length_singleton]

theorem putchar_terminal {c : UInt8} (hreturn : c ≠ 0x0D) (hback : c ≠ 0x08) (bar : Bool) :
    (p.terminal color bar).putchar c = (p.add c).terminal color true := by
  suffices h : ((p.terminal color false).advance c).wrap.scroll = (p.add c).terminal color false from
    congrArg Terminal.draw h
  unfold add
  by_cases hnewline : c = 0x0A
  · rw [if_pos hnewline, ← newline_terminal]
    unfold Terminal.advance
    rw [if_pos hnewline, Terminal.wrap, if_neg (Nat.not_le_of_lt (show 0 < 100 by decide))]
  rw [if_neg hnewline, advance_terminal color p hnewline hreturn hback]
  unfold wrap Terminal.wrap
  have hcol : ((Page.mk p.rows (extend p.line c)).terminal color false).col = (extend p.line c).length := rfl
  rw [hcol]
  by_cases hfull : (extend p.line c).length ≥ vgaWidth
  · rw [if_pos hfull, if_pos hfull]
    exact newline_terminal color ⟨p.rows, extend p.line c⟩ false
  · rw [if_neg hfull, if_neg hfull, Terminal.scroll, if_pos (row_lt color _ false)]

/-- Text that is only added to. -/
abbrev Plain (s : List UInt8) : Prop := ∀ c ∈ s, c ≠ 0x0D ∧ c ≠ 0x08

theorem write_terminal {s : List UInt8} (h : Plain s) (p : Page) :
    s.foldl Terminal.putchar (p.terminal color true) = (s.foldl add p).terminal color true := by
  induction s generalizing p with
  | nil => rfl
  | cons c s ih =>
    obtain ⟨hreturn, hback⟩ := h c List.mem_cons_self
    rw [List.foldl_cons, List.foldl_cons, putchar_terminal color p hreturn hback true]
    exact ih (fun c' hc' => h c' (List.mem_cons_of_mem _ hc')) _

/-- A terminal after `vga_clear` shows the empty page. -/
theorem clear_terminal (g : Terminal) : g.clear = (Page.mk [] []).terminal g.color true :=
  Terminal.ext (by
    funext r c
    show cellOf 0x20 g.color = cellOf ((Page.mk [] []).char r c) g.color
    rw [char_eq, List.getD_nil, List.getD_nil, List.getD_nil, ite_self]) rfl rfl rfl rfl

end Page

/-- The rows of a text. -/
def typeset (s : List UInt8) : Page := s.foldl Page.add ⟨[], []⟩

/-- A text written to the cleared console, in any colours and after any calls, is on the screen
with its last 37 rows. -/
theorem write_shows_page {font : Bytes} (hfont : BlankSpace font) (t : Console) (cs : List ConsoleCall) (fg bg : UInt8)
    {s : List UInt8} (h : Page.Plain s) :
    (do vgaInit font; runConsole cs; vgaSetColor fg bg; vgaClear; vgaWrite s).total InGrid
      (fun _ t' => t'.Shows font True ((typeset s).terminal (vgaColor fg bg) true) true) t := by
  refine Prog.total_seq (Q := fun _ t₁ => t₁.Shows font True Terminal.initial true)
    (total_vgaInit (fun _ => hfont) t) fun _ t₁ h₁ => ?_
  refine Prog.total_seq (total_runConsole (fun _ => hfont) h₁ (Terminal.inside_calls []) cs) fun _ t₂ h₂ => ?_
  have hin := Terminal.inside_calls cs
  refine Prog.total_seq (total_call (fun _ => hfont) h₂ hin (.setColor fg bg)) fun _ t₃ h₃ => ?_
  refine Prog.total_seq (total_call (fun _ => hfont) h₃ (Terminal.inside_call hin _) .clear) fun _ t₄ h₄ => ?_
  have hwrite := total_vgaWrite (fun _ => hfont) h₄
    (Terminal.inside_call (Terminal.inside_call hin (.setColor fg bg)) .clear) s
  have hclear : ((cs.foldl Terminal.call Terminal.initial).call (.setColor fg bg)).call .clear =
      (Page.mk [] []).terminal (vgaColor fg bg) true := Page.clear_terminal _
  rw [hclear, Page.write_terminal _ h] at hwrite
  exact hwrite

/-- Of 40 rows, the first that is shown is the fifth: with a font that has one glyph, its points
are those of this row's letter. The cursor is below the last one. -/
theorem write_shows_page_forty :
    (do vgaInit fun i => if i = 0x34 * vgaGlyphH + 3 then 0x18 else 0
        runConsole [.write [0x41, 0x08]]
        vgaSetColor 15 1
        vgaClear
        vgaWrite ((List.range 40).flatMap fun i => [0x30 + UInt8.ofNat i, 0x0A])).total InGrid
      (fun _ t' => pixel t'.svga (⟨3, by decide⟩, ⟨3, by decide⟩) = 15 ∧
        pixel t'.svga (⟨2, by decide⟩, ⟨3, by decide⟩) = 1 ∧ pixel t'.svga (⟨2, by decide⟩, ⟨590, by decide⟩) = 15)
      ⟨⟨fun _ => 1, 3, 2, fun _ => 0⟩, fun _ => 1, fun _ => 1, 0, 0, 0, true⟩ := by
  have hfont : BlankSpace fun i => if i = 0x34 * vgaGlyphH + 3 then 0x18 else 0 := fun line hline =>
    if_neg (by simp only [vgaGlyphH] at *; omega)
  have hplain : Page.Plain ((List.range 40).flatMap fun i => [0x30 + UInt8.ofNat i, 0x0A]) := by decide
  refine Prog.total_mono (write_shows_page hfont _ [.write [0x41, 0x08]] 15 1 hplain) (fun _ h => h)
    fun _ t' h => ⟨?_, ?_, ?_⟩
  · exact (h.pixels trivial (⟨3, by decide⟩, ⟨3, by decide⟩) (by decide)).trans (by decide)
  · exact (h.pixels trivial (⟨2, by decide⟩, ⟨3, by decide⟩) (by decide)).trans (by decide)
  · exact (h.pixels trivial (⟨2, by decide⟩, ⟨590, by decide⟩) (by decide)).trans (by decide)

end RainbowOs.Kernel
