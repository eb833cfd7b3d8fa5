import RainbowOs.Editor.Modified
import RainbowOs.Editor.Ranges

/-!
# Selections of whole lines

A selection of visual line mode is meant to be the lines that hold the anchor
and the cursor, with the lines between. The lines are counted by a scan over
the characters, which does not come to the end of the text: it takes a
selection that starts there to start in the first line, and does not count an
empty last line.
-/

namespace RainbowOs.Editor

open RainbowOs.Lib

/-- The number of the line that holds a position. -/
def lineAt (t : List UInt8) (pos : Nat) : Nat := (t.take pos).count 10

/-- The stretch of whole lines, with the newline of the last if it has one. -/
def lineSpan (t : List UInt8) (first last : Nat) : Nat × Nat :=
  ((ended 10 ((lines t).take first)).length, min (ended 10 ((lines t).take (last + 1))).length t.length)

section Text

variable {t : List UInt8} {before after : List (List UInt8)} {line : List UInt8} {pos : Nat}

theorem lineAt_of_line (h : lines t = before ++ line :: after) (hle : (ended 10 before).length ≤ pos)
    (hpos : pos ≤ (ended 10 before).length + line.length) : lineAt t pos = before.length :=
  count_take_of_line h hle hpos

theorem lineAt_lt (t : List UInt8) (pos : Nat) : lineAt t pos < (lines t).length := by
  rw [length_splitOn]
  exact Nat.lt_succ_of_le ((List.take_sublist pos t).count_le 10)

theorem lineAt_mono {pos' : Nat} (h : pos ≤ pos') : lineAt t pos ≤ lineAt t pos' :=
  (List.take_sublist_take_left h).count_le 10

theorem length_of_lines (h : lines t = before ++ line :: after) :
    t.length = (ended 10 before).length + line.length + (preceded 10 after).length := by
  rw [(lines_eq_iff.mp h).1, List.length_append, List.length_append, Nat.add_assoc]

theorem lineSpan_start (h : lines t = before ++ line :: after) (last : Nat) :
    (lineSpan t before.length last).1 = (ended 10 before).length := by
  rw [lineSpan, h, List.take_left]

theorem lineSpan_stop (h : lines t = before ++ line :: after) (first : Nat) :
    (lineSpan t first before.length).2 =
      (ended 10 before).length + line.length + (if after = [] then 0 else 1) := by
  have hlength := length_of_lines h
  have htake : (lines t).take (before.length + 1) = before ++ [line] := by
    rw [h, List.append_cons, ← List.length_singleton (a := line), ← List.length_append, List.take_left]
  show min (ended 10 ((lines t).take (before.length + 1))).length t.length = _
  rw [htake, ended_concat, List.length_append, List.length_append, List.length_singleton, ← Nat.add_assoc, hlength]
  cases after with
  | nil =>
    rw [if_pos rfl, preceded_nil, List.length_nil]
    omega
  | cons l after =>
    rw [if_neg (List.cons_ne_nil l after), preceded_cons, List.length_cons]
    omega

theorem lineSpan_le {first last : Nat} (hlast : last < (lines t).length) (h : first ≤ last) :
    (lineSpan t first last).1 ≤ (lineSpan t first last).2 := by
  obtain ⟨before, line, after, hlines, rfl⟩ := exists_line_of_lt hlast
  have hstart : (lineSpan t first before.length).1 ≤ (ended 10 before).length := by
    have htake : (lines t).take first = before.take first := by rw [hlines, List.take_append_of_le_length h]
    rw [lineSpan, htake]
    calc (ended 10 (before.take first)).length
        ≤ (ended 10 (before.take first)).length + (ended 10 (before.drop first)).length := Nat.le_add_right _ _
      _ = (ended 10 before).length := by rw [← List.length_append, ← ended_append, List.take_append_drop]
  rw [lineSpan_stop hlines]
  omega

theorem lineSpan_stop_le (t : List UInt8) (first last : Nat) : (lineSpan t first last).2 ≤ t.length :=
  Nat.min_le_right _ _

/-- The line of the last character is the last line, if that is not an empty line after others. -/
theorem lineAt_last (h : t.getLast? ≠ some 10) : lineAt t (t.length - 1) = lineAt t t.length := by
  rcases List.eq_nil_or_concat' t with rfl | ⟨t, c, rfl⟩
  · rfl
  · rw [List.getLast?_concat] at h
    have hc : c ≠ 10 := fun hc => h (hc ▸ rfl)
    rw [lineAt, lineAt, List.length_append, List.length_singleton, Nat.add_sub_cancel, List.take_left,
      List.take_of_length_le (by simp), List.count_append, List.count_singleton]
    simp [hc]

theorem lineAt_last_lt (h : t.getLast? = some 10) : lineAt t (t.length - 1) < lineAt t t.length := by
  rcases List.eq_nil_or_concat' t with rfl | ⟨t, c, rfl⟩
  · cases h
  · rw [List.getLast?_concat] at h
    obtain rfl := Option.some.inj h
    rw [lineAt, lineAt, List.length_append, List.length_singleton, Nat.add_sub_cancel, List.take_left,
      List.take_of_length_le (by simp), List.count_append, List.count_singleton]
    simp

end Text

theorem Reads.lineAt {b : Buffer} {t : List UInt8} (hb : Reads b t) {pos : Nat} (hpos : pos ≤ t.length) :
    newlines b pos = lineAt t pos := hb.newlines_eq hpos

/-- The stretch of whole lines, as the functions of the line index give it. -/
theorem Reads.lineSpan {b : Buffer} {t : List UInt8} (hb : Reads b t) {first last : Nat}
    (hfirst : first < (lines t).length) (hlast : last < (lines t).length) :
    (bufLineStart b first,
      if bufLineStart b last + bufLineLength b last < b.bufLength then
        bufLineStart b last + bufLineLength b last + 1
      else bufLineStart b last + bufLineLength b last) = lineSpan t first last := by
  obtain ⟨before, line, after, hlines, rfl⟩ := exists_line_of_lt hfirst
  obtain ⟨before', line', after', hlines', rfl⟩ := exists_line_of_lt hlast
  refine Prod.ext ?_ ?_
  · rw [lineSpan_start hlines, hb.lineStart hlines]
  · dsimp only
    rw [lineSpan_stop hlines', hb.lineStart hlines', hb.lineLength hlines', hb.length, length_of_lines hlines']
    cases after' with
    | nil => simp
    | cons l after =>
      rw [if_neg (List.cons_ne_nil l after), if_pos]
      rw [preceded_cons, List.length_cons]
      omega

namespace EditorState

/-- A function of each line from one to another, as the commands on a selection run it. -/
def onLinesBetween (e : EditorState) (f : EditorState → Nat → EditorState) (first last : Nat) : EditorState :=
  ((List.range' first (last + 1 - first)).foldl f (e.call .undoBoundary)).syncCursor.setModified

/-- The selection is the lines from one to another, and the commands on it act on them. -/
structure SelectsLines (e : EditorState) (t : List UInt8) (first last : Nat) : Prop where
  bounds : e.getSelBounds = lineSpan t first last
  shifted : ∀ f, e.onSelectedLines f = e.onLinesBetween f first last
  indented : e.step (ch '>') = some ((e.onLinesBetween indentLine first last).setMode .normal)
  outdented : e.step (ch '<') = some ((e.onLinesBetween outdentLine first last).setMode .normal)
  deleted : ∀ key e', key = ch 'd' ∨ key = ch 'x' ∨ key = ch 'c' → e.step key = some e' →
    e'.buffer.text = t.take (lineSpan t first last).1 ++ t.drop (lineSpan t first last).2
  yanked : ∀ e', e.step (ch 'y') = some e' → e'.buffer.text = t ∧
    e'.yankBuf = (stretch t (lineSpan t first last).1 (lineSpan t first last).2).take 4095

section Selection

variable {e : EditorState} {l r : List UInt8}

/-- The first and the last line of the selection, as the scan finds them. -/
def scannedLines (t : List UInt8) (cursor anchor : Nat) : Nat × Nat :=
  (if min anchor cursor < t.length then lineAt t (min anchor cursor) else 0,
    lineAt t (min (max anchor cursor + 1) t.length - 1))

/-- The positions of the selection, in order, and the lines they are in. -/
theorem getSelBounds_eq (h : Shows e.buffer l r) : e.getSelBounds =
    if e.mode = .visualLine then
      let (sline, eline) := linesOf e.buffer (min e.selAnchor l.length)
        (min (max e.selAnchor l.length + 1) (l ++ r).length)
      let stop := bufLineStart e.buffer eline + bufLineLength e.buffer eline
      (bufLineStart e.buffer sline, if stop < e.buffer.bufLength then stop + 1 else stop)
    else (min e.selAnchor l.length, min (max e.selAnchor l.length + 1) (l ++ r).length) := by
  have hcursor : e.buffer.bufCursorPos = l.length := h.gapStart
  have hstart : (if l.length ≤ e.selAnchor then (l.length, e.selAnchor + 1) else (e.selAnchor, l.length + 1)) =
      (min e.selAnchor l.length, max e.selAnchor l.length + 1) := by
    split
    · next hle => rw [Nat.min_eq_right hle, Nat.max_eq_left hle]
    · next hlt => rw [Nat.min_eq_left (by omega), Nat.max_eq_right (by omega)]
  have hclip : (if max e.selAnchor l.length + 1 > e.buffer.bufLength then e.buffer.bufLength
      else max e.selAnchor l.length + 1) = min (max e.selAnchor l.length + 1) (l ++ r).length := by
    rw [h.reads.length]
    split <;> omega
  unfold getSelBounds
  rw [hcursor]
  dsimp only
  rw [hstart]
  dsimp only
  rw [hclip]

theorem getSelBounds_chars (h : Shows e.buffer l r) (hmode : e.mode ≠ .visualLine) :
    e.getSelBounds = (min e.selAnchor l.length, min (max e.selAnchor l.length + 1) (l ++ r).length) := by
  rw [getSelBounds_eq h, if_neg hmode]

theorem getSelBounds_lines (h : Shows e.buffer l r) (hmode : e.mode = .visualLine) :
    e.getSelBounds = lineSpan (l ++ r) (scannedLines (l ++ r) l.length e.selAnchor).1
      (scannedLines (l ++ r) l.length e.selAnchor).2 := by
  have hb := h.reads
  have hpos : l.length ≤ (l ++ r).length := by
    rw [List.length_append]
    exact Nat.le_add_right _ _
  have hle : min (max e.selAnchor l.length + 1) (l ++ r).length ≤ (l ++ r).length := Nat.min_le_right _ _
  have hlines : linesOf e.buffer (min e.selAnchor l.length) (min (max e.selAnchor l.length + 1) (l ++ r).length) =
      scannedLines (l ++ r) l.length e.selAnchor := by
    rw [linesOf_eq _ (hb.length ▸ hle), hb.length, hb.lineAt (Nat.le_trans (Nat.min_le_right _ _) hpos),
      hb.lineAt (Nat.le_trans (Nat.sub_le _ _) hle), scannedLines]
  have hfirst : (scannedLines (l ++ r) l.length e.selAnchor).1 < (lines (l ++ r)).length := by
    unfold scannedLines
    dsimp only
    split
    · exact lineAt_lt _ _
    · exact Nat.lt_of_le_of_lt (Nat.zero_le _) (lineAt_lt (l ++ r) 0)
  have hlast : (scannedLines (l ++ r) l.length e.selAnchor).2 < (lines (l ++ r)).length := lineAt_lt _ _
  rw [← hb.lineSpan hfirst hlast, getSelBounds_eq h, if_pos hmode, hlines]

/-- The positions where the selection can start and end without the scan missing lines. -/
def InReach (t : List UInt8) (cursor anchor : Nat) : Prop :=
  (min anchor cursor < t.length ∨ 10 ∉ t) ∧ (max anchor cursor < t.length ∨ t.getLast? ≠ some 10)

theorem scannedLines_of_inReach {t : List UInt8} {cursor anchor : Nat} (hcursor : cursor ≤ t.length)
    (hanchor : anchor ≤ t.length) (h : InReach t cursor anchor) :
    scannedLines t cursor anchor = (lineAt t (min anchor cursor), lineAt t (max anchor cursor)) := by
  obtain ⟨hmin, hmax⟩ := h
  refine Prod.ext ?_ ?_
  · unfold scannedLines
    dsimp only
    split
    · rfl
    · next hlt =>
      have hfree : 10 ∉ t := hmin.resolve_left hlt
      exact (count_of_not_mem fun hmem => hfree (List.mem_of_mem_take hmem)).symm
  · unfold scannedLines
    dsimp only
    rcases Nat.lt_or_ge (max anchor cursor) t.length with hlt | hge
    · have hmin : min (max anchor cursor + 1) t.length = max anchor cursor + 1 := Nat.min_eq_left hlt
      rw [hmin, Nat.add_sub_cancel]
    · have hend : max anchor cursor = t.length := Nat.le_antisymm (Nat.max_le.mpr ⟨hanchor, hcursor⟩) hge
      have hlast : t.getLast? ≠ some 10 := hmax.resolve_left (Nat.not_lt_of_le hge)
      rw [hend, Nat.min_eq_right (Nat.le_succ _), lineAt_last hlast]

/-- The lines of a stretch of whole lines, as they are counted. -/
theorem linesOf_span {b : Buffer} {t : List UInt8} (hb : Reads b t) {first last : Nat}
    (hfirst : first < (lines t).length) (hlast : last < (lines t).length)
    (hstart : (lineSpan t first last).1 < t.length ∨ first = 0)
    (hstop : last + 1 = (lines t).length → t.getLast? ≠ some 10) :
    linesOf b (lineSpan t first last).1 (lineSpan t first last).2 = (first, last) := by
  have hle : (lineSpan t first last).2 ≤ t.length := Nat.min_le_right _ _
  have hlastAt : newlines b ((lineSpan t first last).2 - 1) = lineAt t ((lineSpan t first last).2 - 1) :=
    hb.lineAt (by omega)
  rw [linesOf_eq _ (hb.length ▸ hle), hb.length, hlastAt]
  refine Prod.ext ?_ ?_
  · obtain ⟨before, line, after, hlines, rfl⟩ := exists_line_of_lt hfirst
    dsimp only
    rw [lineSpan_start hlines] at hstart ⊢
    split
    · next hlt =>
      rw [hb.lineAt (Nat.le_of_lt hlt)]
      exact lineAt_of_line hlines (Nat.le_refl _) (Nat.le_add_right _ _)
    · next hlt => exact (hstart.resolve_left hlt).symm
  · obtain ⟨before, line, after, hlines, rfl⟩ := exists_line_of_lt hlast
    dsimp only
    rw [lineSpan_stop hlines]
    by_cases hafter : after = []
    · subst hafter
      have hlength := length_of_lines hlines
      rw [preceded_nil, List.length_nil, Nat.add_zero] at hlength
      have hnum : before.length + 1 = (lines t).length := by rw [hlines, List.length_append, List.length_singleton]
      rw [if_pos rfl, Nat.add_zero, ← hlength, lineAt_last (hstop hnum), hlength]
      exact lineAt_of_line hlines (Nat.le_add_right _ _) (Nat.le_refl _)
    · rw [if_neg hafter, Nat.add_sub_cancel]
      exact lineAt_of_line hlines (Nat.le_add_right _ _) (Nat.le_refl _)

theorem onSelectedLines_eq {first last : Nat}
    (hlines : linesOf (e.call .undoBoundary).buffer (e.call .undoBoundary).getSelBounds.1
      (e.call .undoBoundary).getSelBounds.2 = (first, last)) (f : EditorState → Nat → EditorState) :
    e.onSelectedLines f =
      ((List.range' first (last + 1 - first)).foldl f (e.call .undoBoundary)).syncCursor.setModified := by
  unfold onSelectedLines
  dsimp only
  rw [hlines]

/-- The selection is of whole lines, with its boundary marked or not. -/
theorem getSelBounds_inReach (h : Shows e.buffer l r) (hmode : e.mode = .visualLine)
    (hanchor : e.selAnchor ≤ (l ++ r).length) (hreach : InReach (l ++ r) l.length e.selAnchor) :
    e.getSelBounds = lineSpan (l ++ r) (lineAt (l ++ r) (min e.selAnchor l.length))
      (lineAt (l ++ r) (max e.selAnchor l.length)) := by
  have hpos : l.length ≤ (l ++ r).length := by
    rw [List.length_append]
    exact Nat.le_add_right _ _
  rw [getSelBounds_lines h hmode, scannedLines_of_inReach hpos hanchor hreach]

/-- The lines of a selection are those that a scan counts in their stretch. -/
theorem linesOf_inReach {b : Buffer} {t : List UInt8} (hb : Reads b t) {cursor anchor : Nat}
    (hreach : InReach t cursor anchor) :
    linesOf b (lineSpan t (lineAt t (min anchor cursor)) (lineAt t (max anchor cursor))).1
      (lineSpan t (lineAt t (min anchor cursor)) (lineAt t (max anchor cursor))).2 =
        (lineAt t (min anchor cursor), lineAt t (max anchor cursor)) := by
  obtain ⟨hmin, hmax⟩ := hreach
  refine linesOf_span hb (lineAt_lt _ _) (lineAt_lt _ _) ?_ fun hlast => ?_
  · rcases hmin with hlt | hfree
    · obtain ⟨before, line, after, hlines, hle, hpos⟩ := exists_line (Nat.le_of_lt hlt)
      rw [lineAt_of_line hlines hle hpos, lineSpan_start hlines]
      exact .inl (Nat.lt_of_le_of_lt hle hlt)
    · exact .inr (count_of_not_mem fun hmem => hfree (List.mem_of_mem_take hmem))
  · refine hmax.elim (fun hlt => ?_) id
    -- the last line is not empty, since the cursor or the anchor is on a character of it
    obtain ⟨before, line, after, hlines, hle, hpos⟩ := exists_line (Nat.le_of_lt hlt)
    rw [lineAt_of_line hlines hle hpos, hlines, List.length_append, List.length_cons] at hlast
    obtain rfl : after = [] := List.length_eq_zero_iff.mp (by omega)
    have hlength := length_of_lines hlines
    rw [preceded_nil, List.length_nil, Nat.add_zero] at hlength
    obtain ⟨ht, hfree⟩ := lines_eq_iff.mp hlines
    have hne : line ≠ [] := List.ne_nil_of_length_pos (by omega)
    rw [ht, preceded_nil, List.append_nil, List.getLast?_append_of_ne_nil _ hne]
    intro hlast
    exact hfree line (List.mem_append_right _ List.mem_cons_self) (List.mem_of_getLast? hlast)

/-- A command of visual line mode. -/
theorem step_visualLine (hmode : e.mode = .visualLine) (hwait : e.awaitingG = false) {key : Int}
    (hmove : e.movement key 1 = none) (hkey : key ≠ keyEscape ∧ key ≠ ch 'v' ∧ key ≠ ch 'V' ∧ key ≠ ch '^') :
    e.step key = some ((e.visualAction key).getD e) := by
  have hclear : e.clearStatus = e := by
    unfold clearStatus
    rw [if_neg (by rw [hmode]; rintro ⟨h, -⟩; cases h)]
  obtain ⟨hesc, hv, hV, hcaret⟩ := hkey
  have hvisual : e.step key = some (e.handleVisual key) := by
    unfold step
    rw [hclear]
    simp only [hmode]
  rw [hvisual, handleVisual, hwait, if_neg Bool.false_ne_true, if_neg hesc, if_neg hv, if_neg hV,
    if_neg hcaret, hmove, Option.none_or]

theorem step_action (hmode : e.mode = .visualLine) (hwait : e.awaitingG = false) :
    e.step (ch '>') = some ((e.onSelectedLines indentLine).setMode .normal) ∧
    e.step (ch '<') = some ((e.onSelectedLines outdentLine).setMode .normal) ∧
    e.step (ch 'y') = some (e.yankSelection.setMode .normal) ∧
    ∀ key, key = ch 'd' ∨ key = ch 'x' ∨ key = ch 'c' →
      ∃ mode, e.step key = some (e.deleteSelection.setMode mode) := by
  refine ⟨step_visualLine hmode hwait rfl (by decide), step_visualLine hmode hwait rfl (by decide),
    step_visualLine hmode hwait rfl (by decide), ?_⟩
  rintro key (rfl | rfl | rfl)
  · exact ⟨.normal, step_visualLine hmode hwait rfl (by decide)⟩
  · exact ⟨.normal, step_visualLine hmode hwait rfl (by decide)⟩
  · exact ⟨.insert, step_visualLine hmode hwait rfl (by decide)⟩

/-- The commands on a selection in reach. -/
theorem selectsLines_of_inReach (h : Shows e.buffer l r) (hmode : e.mode = .visualLine)
    (hwait : e.awaitingG = false) (hanchor : e.selAnchor ≤ (l ++ r).length)
    (hreach : InReach (l ++ r) l.length e.selAnchor) :
    e.SelectsLines (l ++ r) (lineAt (l ++ r) (min e.selAnchor l.length))
      (lineAt (l ++ r) (max e.selAnchor l.length)) := by
  have hboundary : Shows (e.call .undoBoundary).buffer l r := h.boundary
  have hbounds := getSelBounds_inReach h hmode hanchor hreach
  have hbounds' : (e.call .undoBoundary).getSelBounds =
      lineSpan (l ++ r) (lineAt (l ++ r) (min e.selAnchor l.length))
        (lineAt (l ++ r) (max e.selAnchor l.length)) := getSelBounds_inReach hboundary hmode hanchor hreach
  have hlines := linesOf_inReach hboundary.reads hreach
  generalize hfirst : lineAt (l ++ r) (min e.selAnchor l.length) = first at *
  generalize hlast : lineAt (l ++ r) (max e.selAnchor l.length) = last at *
  have hle : (lineSpan (l ++ r) first last).1 ≤ (lineSpan (l ++ r) first last).2 := by
    rw [← hfirst, ← hlast]
    exact lineSpan_le (lineAt_lt _ _)
      (lineAt_mono (Nat.le_trans (Nat.min_le_left _ _) (Nat.le_max_left _ _)))
  have hstop := lineSpan_stop_le (l ++ r) first last
  obtain ⟨hindent, houtdent, hyank, hdelete⟩ := step_action hmode hwait
  have hshift : ∀ f, e.onSelectedLines f = e.onLinesBetween f first last :=
    onSelectedLines_eq (by rw [hbounds', hlines])
  refine ⟨hbounds, hshift, by rw [hindent, hshift], by rw [houtdent, hshift], ?_, ?_⟩
  · intro key e' hkey hstep
    obtain ⟨mode, hkey⟩ := hdelete key hkey
    obtain rfl := Option.some.inj (hkey.symm.trans hstep)
    have hyanked : Shows (e.call .undoBoundary).yankSelection.buffer l r := by
      rw [yankSelection, buffer_yankAs]
      exact hboundary
    rw [buffer_setMode, deleteSelection, hbounds']
    exact (shows_deleteRange hyanked hle (h.pos_lt hstop)).text
  · intro e' hstep
    obtain rfl := Option.some.inj (hyank.symm.trans hstep)
    have hlength := h.length_le
    rw [← List.length_append] at hlength
    constructor
    · rw [buffer_setMode, yankSelection, buffer_yankAs]
      exact h.text
    · rw [setMode, yankSelection, hbounds]
      exact yankBuf_yankRange h.reads hlength hle hstop

/-- A fold over values at which the function changes nothing. -/
theorem foldl_of_same {f : EditorState → Nat → EditorState} {ns : List Nat} (hf : ∀ n ∈ ns, ∀ e, f e n = e)
    (e : EditorState) : ns.foldl f e = e := by
  induction ns with
  | nil => rfl
  | cons n ns ih =>
    rw [List.foldl_cons, hf n List.mem_cons_self]
    exact ih fun n hn => hf n (List.mem_cons_of_mem _ hn)

/-- What is run on each selected line does not come to an empty last line. -/
theorem selected_lt (h : Shows e.buffer l r) (hmode : e.mode = .visualLine) (hlast : (l ++ r).getLast? = some 10) :
    (linesOf (e.call .undoBoundary).buffer (e.call .undoBoundary).getSelBounds.1
      (e.call .undoBoundary).getSelBounds.2).2 < lineAt (l ++ r) (l ++ r).length := by
  have hboundary : Shows (e.call .undoBoundary).buffer l r := h.boundary
  have hbounds := getSelBounds_lines hboundary hmode
  have hb := hboundary.reads
  rw [hbounds]
  generalize scannedLines (l ++ r) l.length (e.call .undoBoundary).selAnchor = scanned
  have hstop := lineSpan_stop_le (l ++ r) scanned.1 scanned.2
  rw [linesOf_eq _ (hb.length ▸ hstop)]
  dsimp only
  rw [hb.lineAt (by omega)]
  exact Nat.lt_of_le_of_lt (lineAt_mono (by omega)) (lineAt_last_lt hlast)

theorem inReach_of_selectsLines (h : Shows e.buffer l r) (hmode : e.mode = .visualLine)
    (hanchor : e.selAnchor ≤ (l ++ r).length)
    (hselects : e.SelectsLines (l ++ r) (lineAt (l ++ r) (min e.selAnchor l.length))
      (lineAt (l ++ r) (max e.selAnchor l.length))) : InReach (l ++ r) l.length e.selAnchor := by
  have hpos : l.length ≤ (l ++ r).length := by
    rw [List.length_append]
    exact Nat.le_add_right _ _
  constructor
  · refine Nat.lt_or_ge _ _ |>.imp id fun hge hmem => ?_
    have hend : min e.selAnchor l.length = (l ++ r).length := by omega
    have hbounds := hselects.bounds
    rw [getSelBounds_lines h hmode, scannedLines, if_neg (Nat.not_lt_of_le hge), hend] at hbounds
    have hstart : (lineSpan (l ++ r) (lineAt (l ++ r) (l ++ r).length) 0).1 = 0 := (congrArg Prod.fst hbounds).symm
    obtain ⟨before, line, after, hlines, hle, hle'⟩ := exists_line (Nat.le_refl (l ++ r).length)
    have hline := lineAt_of_line hlines hle hle'
    rw [hline, lineSpan_start hlines] at hstart
    have hnone : before = [] := by
      cases before with
      | nil => rfl
      | cons first before => simp at hstart
    rw [hnone, lineAt, List.take_length] at hline
    exact List.count_eq_zero.mp hline hmem
  · refine Nat.lt_or_ge _ _ |>.imp id fun hge hlast => ?_
    have hend : max e.selAnchor l.length = (l ++ r).length := by omega
    have hlt := selected_lt h hmode hlast
    generalize hfirst : lineAt (l ++ r) (min e.selAnchor l.length) = first at hselects
    rw [hend] at hselects
    have hle : first ≤ lineAt (l ++ r) (l ++ r).length := by
      rw [← hfirst]
      exact lineAt_mono (by omega)
    generalize lineAt (l ++ r) (l ++ r).length = last at hselects hlt hle
    -- a function that notes whether it is run on the last line
    let note : EditorState → Nat → EditorState := fun e line =>
      if line = last then { e with opCount := e.opCount + 1 } else e
    have hother : ∀ line, line ≠ last → ∀ e, note e line = e := fun line hne e => if_neg hne
    have hmissed : (e.onSelectedLines note).opCount = e.opCount := by
      unfold onSelectedLines
      dsimp only
      rw [foldl_of_same fun line hline => hother line ?_]
      · rfl
      · have hrange := List.mem_range'_1.mp hline
        omega
    have hnoted : (e.onLinesBetween note first last).opCount = e.opCount + 1 := by
      have hcount : last + 1 - first = last - first + 1 := by omega
      have hbefore : (List.range' first (last - first)).foldl note (e.call .undoBoundary) = e.call .undoBoundary := by
        refine foldl_of_same (fun line hline => hother line ?_) _
        have hrange := List.mem_range'_1.mp hline
        omega
      have hlast : note (e.call .undoBoundary) last =
          { e.call .undoBoundary with opCount := (e.call .undoBoundary).opCount + 1 } := if_pos rfl
      rw [onLinesBetween, hcount, List.range'_concat, Nat.one_mul, Nat.add_sub_cancel' hle, List.foldl_append,
        hbefore, List.foldl_cons, List.foldl_nil, hlast]
      rfl
    rw [hselects.shifted note, hnoted] at hmissed
    omega

/-- The selection of visual line mode is the lines that hold the anchor and the cursor, with those
between, exactly where the scan comes to them. -/
theorem visual_line_iff (hgap : e.buffer.gapStart ≤ e.buffer.gapEnd) (hfits : e.buffer.gapEnd ≤ bufferSize)
    (hmode : e.mode = .visualLine) (hwait : e.awaitingG = false) (hanchor : e.selAnchor ≤ e.buffer.bufLength) :
    e.SelectsLines e.buffer.text (lineAt e.buffer.text (min e.selAnchor e.buffer.bufCursorPos))
      (lineAt e.buffer.text (max e.selAnchor e.buffer.bufCursorPos)) ↔
    InReach e.buffer.text e.buffer.bufCursorPos e.selAnchor := by
  have hsplit := e.buffer.split_in hgap hfits
  generalize e.buffer.split = s at hsplit
  obtain ⟨l, r⟩ := s
  have h : Shows e.buffer l r := hsplit
  have hcursor : e.buffer.bufCursorPos = l.length := h.gapStart
  rw [h.reads.length] at hanchor
  rw [h.text, hcursor]
  exact ⟨inReach_of_selectsLines h hmode hanchor, selectsLines_of_inReach h hmode hwait hanchor⟩

end Selection

/-- The second line of a text of two, and the line above. -/
theorem visual_line_iff_two : ∃ e₀ e, editorOpen (bootEditor bootDisk) none = some e₀ ∧
    e₀.steps [ch 'i', ch 'a', 10, keyEscape, ch 'V', ch 'k'] = some e ∧
    (e.SelectsLines e.buffer.text (lineAt e.buffer.text (min e.selAnchor e.buffer.bufCursorPos))
        (lineAt e.buffer.text (max e.selAnchor e.buffer.bufCursorPos)) ↔
      InReach e.buffer.text e.buffer.bufCursorPos e.selAnchor) := by
  have hruns : ((editorOpen (bootEditor bootDisk) none).bind fun e₀ =>
      (e₀.steps [ch 'i', ch 'a', 10, keyEscape, ch 'V', ch 'k']).map fun e =>
        decide (e.buffer.gapStart ≤ e.buffer.gapEnd ∧ e.buffer.gapEnd ≤ bufferSize ∧ e.mode = .visualLine ∧
          e.awaitingG = false ∧ e.selAnchor ≤ e.buffer.bufLength)) = some true := by decide
  obtain ⟨e₀, hopen, hruns⟩ := Option.bind_eq_some_iff.mp hruns
  obtain ⟨e, hrun, hends⟩ := Option.map_eq_some_iff.mp hruns
  obtain ⟨hgap, hfits, hmode, hwait, hanchor⟩ := of_decide_eq_true hends
  exact ⟨e₀, e, hopen, hrun, visual_line_iff hgap hfits hmode hwait hanchor⟩

/-- `V` on the empty line at the end of a text selects from the first line on. -/
theorem visual_line_from_first : ∃ e₀ e, editorOpen (bootEditor bootDisk) none = some e₀ ∧
    e₀.steps [ch 'i', ch 'a', 10, keyEscape, ch 'V'] = some e ∧ e.mode = .visualLine ∧
    e.awaitingG = false ∧ e.selAnchor ≤ e.buffer.bufLength ∧ e.buffer.bufCursorPos ≤ e.buffer.bufLength ∧
    ¬e.SelectsLines e.buffer.text (lineAt e.buffer.text (min e.selAnchor e.buffer.bufCursorPos))
      (lineAt e.buffer.text (max e.selAnchor e.buffer.bufCursorPos)) ∧
    e.getSelBounds = (0, 2) ∧ lineSpan e.buffer.text 1 1 = (2, 2) := by
  have hruns : ((editorOpen (bootEditor bootDisk) none).bind fun e₀ =>
      (e₀.steps [ch 'i', ch 'a', 10, keyEscape, ch 'V']).map fun e =>
        decide (e.mode = .visualLine ∧ e.awaitingG = false ∧ e.selAnchor = 2 ∧ e.buffer.bufLength = 2 ∧
          e.buffer.bufCursorPos = 2 ∧ e.buffer.text = [97, 10] ∧ e.getSelBounds = (0, 2))) = some true := by decide
  obtain ⟨e₀, hopen, hruns⟩ := Option.bind_eq_some_iff.mp hruns
  obtain ⟨e, hrun, hends⟩ := Option.map_eq_some_iff.mp hruns
  obtain ⟨hmode, hwait, hanchor, hlength, hcursor, htext, hbounds⟩ := of_decide_eq_true hends
  have hspan : lineSpan [97, 10] 1 1 = (2, 2) := by decide
  have hline : lineAt [97, 10] 2 = 1 := by decide
  refine ⟨e₀, e, hopen, hrun, hmode, hwait, by omega, by omega, ?_, hbounds, by rw [htext, hspan]⟩
  rw [hanchor, hcursor, htext, Nat.min_self, Nat.max_self, hline]
  intro hselects
  have hsame := hselects.bounds
  rw [hbounds, hspan] at hsame
  cases hsame

end EditorState

end RainbowOs.Editor
