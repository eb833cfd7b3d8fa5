import RainbowOs.Editor.Operators

/-!
# Whole lines

What the linewise operators do to the lines of the text. The range of such an
operator goes up to the start of the line behind it, so that a change leaves no
line of its own, and a yank takes the last newline too, which `p` does not
count on: it puts a newline before what it puts.
-/

namespace RainbowOs.Editor

open RainbowOs.Lib

section Text

variable {t : List UInt8} {before more after : List (List UInt8)} {line : List UInt8}

theorem exists_lines_between {first last : Nat} (hle : first ≤ last) (hlt : last < (lines t).length) :
    ∃ before line more after, lines t = before ++ line :: (more ++ after) ∧ before.length = first ∧
      before.length + more.length = last := by
  obtain ⟨before, line, rest, hlines, rfl⟩ := exists_line_of_lt (Nat.lt_of_le_of_lt hle hlt)
  rw [hlines, List.length_append, List.length_cons] at hlt
  refine ⟨before, line, rest.take (last - before.length), rest.drop (last - before.length), ?_, rfl, ?_⟩
  · rw [List.take_append_drop, hlines]
  · rw [List.length_take]
    omega

theorem text_of_lines (h : lines t = before ++ line :: (more ++ after)) :
    t = ended 10 before ++ ((line ++ preceded 10 more) ++ preceded 10 after) := by
  rw [(lines_eq_iff.mp h).1, preceded_append, List.append_assoc]

/-- The range of the lines goes as far as the newline behind them. -/
theorem lineSpan_eq (h : lines t = before ++ line :: (more ++ after)) :
    lineSpan t before.length (before.length + more.length) =
      ((ended 10 before).length, min ((ended 10 before).length + (line ++ preceded 10 more).length + 1) t.length) := by
  have htake : (lines t).take (before.length + more.length + 1) = before ++ line :: more := by
    rw [h, ← List.cons_append, ← List.append_assoc]
    exact List.take_left' (by rw [List.length_append, List.length_cons, Nat.add_assoc])
  refine Prod.ext (lineSpan_start h _) ?_
  show min (ended 10 ((lines t).take (before.length + more.length + 1))).length t.length = _
  rw [htake, ended_append, ended_cons_eq]
  simp only [List.length_append, List.length_singleton, Nat.add_assoc]

theorem around_lineSpan (h : lines t = before ++ line :: (more ++ after)) :
    t.take (lineSpan t before.length (before.length + more.length)).1 = ended 10 before ∧
      stretch t (lineSpan t before.length (before.length + more.length)).1
        (lineSpan t before.length (before.length + more.length)).2 =
          (line ++ preceded 10 more) ++ (preceded 10 after).take 1 ∧
      t.drop (lineSpan t before.length (before.length + more.length)).2 = (preceded 10 after).drop 1 := by
  rw [lineSpan_eq h]
  have ht := text_of_lines h
  have hlength := congrArg List.length ht
  rw [List.length_append, List.length_append] at hlength
  have hdrop : t.drop (ended 10 before).length = (line ++ preceded 10 more) ++ preceded 10 after := by
    rw [ht, List.drop_left]
  generalize line ++ preceded 10 more = w at *
  refine ⟨by rw [ht, List.take_left], ?_, ?_⟩
  · dsimp only
    rw [stretch, hdrop, List.take_append, List.take_of_length_le (by omega)]
    congr 1
    rcases h : preceded 10 after with - | ⟨c, rest⟩
    · rw [List.take_nil, List.take_nil]
    · rw [h, List.length_cons] at hlength
      congr 1
      omega
  · dsimp only
    have hstop : (ended 10 before).length + (w.length + 1) = (ended 10 before ++ w).length + 1 := by
      rw [List.length_append, Nat.add_assoc]
    rcases h : preceded 10 after with - | ⟨c, rest⟩
    · rw [List.drop_nil, Nat.min_eq_right (by rw [h, List.length_nil] at hlength; omega), List.drop_length]
    · rw [h, List.length_cons] at hlength
      rw [Nat.min_eq_left (by omega), Nat.add_assoc, hstop, ← List.drop_drop, ht, h, ← List.append_assoc,
        List.drop_left]

end Text

namespace EditorState

variable {e e' : EditorState} {l r : List UInt8}

/-- The first and the last line that a change is applied to. -/
def changedLines (e : EditorState) (key : Int) : Option (Nat × Nat) :=
  let line := bufCursorLine e.buffer
  let lastLine := bufLineCount e.buffer - 1
  let n := e.opCount * (if e.repeatCount > 0 then e.repeatCount else 1)
  if e.awaitingG then if key = ch 'g' then some (0, line) else none
  else if key = ch 'c' then some (line, min (line + n - 1) lastLine)
  else if key = ch 'j' ∨ key = keyDown then some (line, min (line + n) lastLine)
  else if key = ch 'k' ∨ key = keyUp then some (line - n, line)
  else if key = ch 'G' then some (line, lastLine)
  else none

/-- The change of some lines leaves the text without them, in insert mode. -/
theorem changed_lines (h : Shows e.buffer l r) (hop : e.pendingOperator = .change) {line other : Nat}
    (hline : line < (lines (l ++ r)).length) (hother : other < (lines (l ++ r)).length) :
    Shows (e.applyOperatorLinewise line other).buffer
        ((l ++ r).take (lineSpan (l ++ r) (min line other) (max line other)).1)
        ((l ++ r).drop (lineSpan (l ++ r) (min line other) (max line other)).2) ∧
      (e.applyOperatorLinewise line other).mode = .insert := by
  have hne : e.pendingOperator ≠ .none := by simp [hop]
  have hrange := lineRange_eq h.reads hline hother
  have hle : (lineSpan (l ++ r) (min line other) (max line other)).1 ≤
      (lineSpan (l ++ r) (min line other) (max line other)).2 := lineSpan_le (by omega) (by omega)
  have hstop := lineSpan_stop_le (l ++ r) (min line other) (max line other)
  have haffects := affects_linewise h hne hrange hle hstop
  refine ⟨haffects.deleted (by simp [hop]), ?_⟩
  have hkeep : ∀ start stop, ((e.call .undoBoundary).yankAs start stop true).pendingOperator = .change :=
    fun start stop => by rw [pendingOperator_yankAs, pendingOperator_call, hop]
  unfold applyOperatorLinewise
  dsimp only
  rw [hkeep, if_neg (by simp), if_pos rfl]
  rfl

theorem buffer_resetCount (e : EditorState) : e.resetCount.buffer = e.buffer := rfl

theorem mode_resetCount (e : EditorState) : e.resetCount.mode = e.mode := rfl

/-- A key that changes lines applies the operator to them. -/
structure ChangesLines (e e' : EditorState) (first last : Nat) : Prop where
  order : first ≤ last ∧ last < bufLineCount e.buffer
  change : ∃ (e₁ : EditorState) (line other : Nat), e₁.buffer = e.buffer ∧ e₁.pendingOperator = .change ∧
    line < bufLineCount e.buffer ∧ other < bufLineCount e.buffer ∧ min line other = first ∧ max line other = last ∧
    e'.buffer = (e₁.applyOperatorLinewise line other).buffer ∧ e'.mode = (e₁.applyOperatorLinewise line other).mode

/-- While the operator `c` waits for a motion, nothing else is awaited but a second `g`. -/
theorem awaits_motion (htidy : e.toKeyState.Tidy) (hop : e.pendingOperator = .change) :
    e.awaitingR = false ∧ e.awaitingGt = false ∧ e.awaitingLt = false := by
  refine ⟨?_, ?_, ?_⟩
  · by_contra hr
    have hnone := (htidy.r (by simpa using hr)).2.2.2
    rw [hop] at hnone
    cases hnone
  · by_contra hgt
    have hnone := (htidy.gt (by simpa using hgt)).2
    rw [hop] at hnone
    cases hnone
  · by_contra hlt
    have hnone := htidy.lt (by simpa using hlt)
    rw [hop] at hnone
    cases hnone

/-- The count of a key does not wrap. -/
theorem opCount_mul {count : Nat} (hk : Counted e.toKeyState) (hop : e.pendingOperator = .change)
    (hcount : (if e.repeatCount > 0 then e.repeatCount else 1) = count) :
    0 < e.opCount * count ∧ e.opCount * count ≤ 9999 * 9999 ∧ u32 (e.opCount * count) = e.opCount * count := by
  have hbounds : 1 ≤ count ∧ count ≤ 9999 := by
    have hle := hk.count
    rw [← hcount]
    split <;> omega
  obtain ⟨hone, hmost⟩ := hk.op (by simp [hop])
  have hprod : e.opCount * count ≤ 9999 * 9999 := Nat.mul_le_mul hmost hbounds.2
  refine ⟨Nat.mul_pos hone hbounds.1, hprod, ?_⟩
  rw [u32, Nat.mod_eq_of_lt (by omega)]

/-- The operator gets the lines, whichever of them is the first. -/
theorem changesLines_apply (hop : e.pendingOperator = .change) {line other first last : Nat}
    (hline : line < bufLineCount e.buffer) (hother : other < bufLineCount e.buffer) (hfirst : min line other = first)
    (hlast : max line other = last) : ChangesLines e (e.resetCount.applyOperatorLinewise line other) first last :=
  ⟨by omega, e.resetCount, line, other, rfl, hop, hline, hother, hfirst, hlast, rfl, rfl⟩

/-- After `cg`, a second `g` is the motion to the first line. -/
theorem changesLines_gg (hr : e.awaitingR = false) (hg : e.awaitingG = true) (hop : e.pendingOperator = .change)
    (hline : bufCursorLine e.buffer < bufLineCount e.buffer) :
    ChangesLines e (e.handleNormal (ch 'g')) 0 (bufCursorLine e.buffer) := by
  have hhandle : e.handleNormal (ch 'g') =
      ({ e with awaitingG := false }.applyOperatorLinewise 0 (bufCursorLine e.buffer)).resetCount := by
    rw [handleNormal, if_neg (by simp [ch]), if_neg (by simp [hr]), if_pos hg]
    have hchange : ¬e.pendingOperator = .none := by simp [hop]
    unfold handleG
    dsimp only
    rw [if_pos rfl, if_pos hchange]
  rw [hhandle]
  exact ⟨by omega, { e with awaitingG := false }, 0, bufCursorLine e.buffer, rfl, hop, by omega, hline,
    Nat.zero_min _, Nat.zero_max _, buffer_resetCount _, mode_resetCount _⟩

/-! Each motion gives the operator the line of the cursor and the one that it goes to. -/

section Motions

variable {count : Nat}

theorem motion_c (hop : e.pendingOperator = .change) (hpos : 0 < e.opCount * count)
    (hmost : e.opCount * count ≤ 9999 * 9999) (htotal : u32 (e.opCount * count) = e.opCount * count)
    (hline : bufCursorLine e.buffer < bufLineCount e.buffer) (hsize : bufLineCount e.buffer ≤ 32769) :
    e.resetCount.handleOperatorMotion (ch 'c') count = e.resetCount.applyOperatorLinewise (bufCursorLine e.buffer)
      (min (bufCursorLine e.buffer + e.opCount * count - 1) (bufLineCount e.buffer - 1)) := by
  have htarget : (if u32 (bufCursorLine e.buffer + u32 (e.opCount * count) + 4294967295) > bufLineCount e.buffer - 1
      then bufLineCount e.buffer - 1
      else u32 (bufCursorLine e.buffer + u32 (e.opCount * count) + 4294967295)) =
      min (bufCursorLine e.buffer + e.opCount * count - 1) (bufLineCount e.buffer - 1) := by
    rw [htotal]
    unfold u32
    split <;> omega
  rw [handleOperatorMotion, if_pos (.inr (.inr ⟨rfl, hop⟩)), ← htarget]
  rfl

theorem motion_down {key : Int} (hkey : key = ch 'j' ∨ key = keyDown) (hmost : e.opCount * count ≤ 9999 * 9999)
    (htotal : u32 (e.opCount * count) = e.opCount * count)
    (hline : bufCursorLine e.buffer < bufLineCount e.buffer) (hsize : bufLineCount e.buffer ≤ 32769) :
    e.resetCount.handleOperatorMotion key count = e.resetCount.applyOperatorLinewise (bufCursorLine e.buffer)
      (min (bufCursorLine e.buffer + e.opCount * count) (bufLineCount e.buffer - 1)) := by
  have htarget : (if u32 (bufCursorLine e.buffer + u32 (e.opCount * count)) > bufLineCount e.buffer - 1
      then bufLineCount e.buffer - 1 else u32 (bufCursorLine e.buffer + u32 (e.opCount * count))) =
      min (bufCursorLine e.buffer + e.opCount * count) (bufLineCount e.buffer - 1) := by
    rw [htotal]
    unfold u32
    split <;> omega
  rw [← htarget]
  rcases hkey with rfl | rfl
  · rfl
  · rfl

theorem motion_up {key : Int} (hkey : key = ch 'k' ∨ key = keyUp)
    (htotal : u32 (e.opCount * count) = e.opCount * count) :
    e.resetCount.handleOperatorMotion key count = e.resetCount.applyOperatorLinewise
      (bufCursorLine e.buffer - e.opCount * count) (bufCursorLine e.buffer) := by
  have htarget : (if u32 (e.opCount * count) > bufCursorLine e.buffer then 0
      else bufCursorLine e.buffer - u32 (e.opCount * count)) = bufCursorLine e.buffer - e.opCount * count := by
    rw [htotal]
    split <;> omega
  rw [← htarget]
  rcases hkey with rfl | rfl
  · rfl
  · rfl

theorem motion_G : e.resetCount.handleOperatorMotion (ch 'G') count =
    e.resetCount.applyOperatorLinewise (bufCursorLine e.buffer) (bufLineCount e.buffer - 1) := rfl

end Motions

theorem changesLines_handleNormal {key : Int} {first last : Nat} (htidy : e.toKeyState.Tidy)
    (hk : Counted e.toKeyState) (hop : e.pendingOperator = .change)
    (hline : bufCursorLine e.buffer < bufLineCount e.buffer) (hsize : bufLineCount e.buffer ≤ 32769)
    (hlines : e.changedLines key = some (first, last)) :
    ChangesLines e (e.handleNormal key) first last := by
  obtain ⟨hr, hgt, hlt⟩ := awaits_motion htidy hop
  have hne : e.resetCount.pendingOperator ≠ .none := by
    show e.pendingOperator ≠ .none
    simp [hop]
  generalize hcount : (if e.repeatCount > 0 then e.repeatCount else 1) = count
  obtain ⟨hpos, hmost, htotal⟩ := opCount_mul hk hop hcount
  unfold changedLines at hlines
  dsimp only at hlines
  rw [hcount] at hlines
  split at hlines
  · next hg =>
    split at hlines
    · next hkey =>
      obtain ⟨rfl, rfl⟩ := Prod.mk.inj (Option.some.inj hlines)
      exact hkey ▸ changesLines_gg hr hg hop hline
    · cases hlines
  next hg =>
  have hg : e.awaitingG = false := by simpa using hg
  have hmotion : ¬((ch '1' ≤ key ∧ key ≤ ch '9') ∨ (key = ch '0' ∧ e.countActive = true)) →
      e.handleNormal key = e.resetCount.handleOperatorMotion key count := fun hdigit => by
    rw [handleNormal, if_neg hdigit, hr, hg, hgt, hlt]
    simp only [Bool.false_eq_true, if_false, if_pos hne, hcount]
  split at hlines
  · next hkey =>
    subst hkey
    obtain ⟨rfl, rfl⟩ := Prod.mk.inj (Option.some.inj hlines)
    rw [hmotion (by simp [ch]), motion_c hop hpos hmost htotal hline hsize]
    exact changesLines_apply hop hline (by omega) (by omega) (by omega)
  split at hlines
  · next hkey =>
    obtain ⟨rfl, rfl⟩ := Prod.mk.inj (Option.some.inj hlines)
    rw [hmotion (by rcases hkey with rfl | rfl <;> simp [ch, keyDown]),
      motion_down hkey hmost htotal hline hsize]
    exact changesLines_apply hop hline (by omega) (by omega) (by omega)
  split at hlines
  · next hkey =>
    obtain ⟨rfl, rfl⟩ := Prod.mk.inj (Option.some.inj hlines)
    rw [hmotion (by rcases hkey with rfl | rfl <;> simp [ch, keyUp]), motion_up hkey htotal]
    exact changesLines_apply hop (by omega) hline (by omega) (by omega)
  split at hlines
  · next hkey =>
    subst hkey
    obtain ⟨rfl, rfl⟩ := Prod.mk.inj (Option.some.inj hlines)
    rw [hmotion (by simp [ch]), motion_G]
    exact changesLines_apply hop hline (by omega) (by omega) (by omega)
  · cases hlines

/-- The change of lines leaves them as one empty line exactly where there is no line behind them. -/
theorem ChangesLines.keeps_iff {first last : Nat} (h : Shows e.buffer l r) (hchange : ChangesLines e e' first last) :
    (lines e'.buffer.text = (lines (l ++ r)).take first ++ [] :: (lines (l ++ r)).drop (last + 1) ∧
      bufCursorLine e'.buffer = first ∧ bufCursorCol e'.buffer = 0 ∧ e'.mode = .insert) ↔
    last + 1 = (lines (l ++ r)).length := by
  obtain ⟨⟨hle, hlt⟩, e₁, line, other, hbuffer, hop, hline, hother, rfl, rfl, hsame, hmode⟩ := hchange
  have hcount : bufLineCount e.buffer = (lines (l ++ r)).length := h.reads.lineCount
  rw [hcount] at hline hother hlt
  rw [← hbuffer] at h
  obtain ⟨hshows, hinsert⟩ := changed_lines h hop hline hother
  rw [← hsame] at hshows
  rw [← hmode] at hinsert
  generalize l ++ r = t at *
  obtain ⟨before, line, more, after, hlines, hfirst, hlast⟩ := exists_lines_between hle hlt
  obtain ⟨htake, -, hdrop⟩ := around_lineSpan hlines
  rw [← hfirst, ← hlast] at hshows ⊢
  rw [htake, hdrop] at hshows
  have hfree := (lines_eq_iff.mp hlines).2
  have hbefore : (lines t).take before.length = before := by rw [hlines, List.take_left]
  have hafter : (lines t).drop (before.length + more.length + 1) = after := by
    rw [hlines, ← List.cons_append, ← List.append_assoc]
    exact List.drop_left' (by rw [List.length_append, List.length_cons, Nat.add_assoc])
  have hlength : (lines t).length = before.length + more.length + 1 + after.length := by
    rw [hlines, List.length_append, List.length_cons, List.length_append]
    omega
  rw [hbefore, hafter, hlength, hshows.text]
  constructor
  · rintro ⟨htext, -⟩
    have htext := (lines_eq_iff.mp htext).1
    rw [List.nil_append] at htext
    have hsame := congrArg List.length (List.append_cancel_left htext)
    cases after with
    | nil => rfl
    | cons next after =>
      rw [List.length_drop, preceded_cons, List.length_cons] at hsame
      omega
  · intro hnone
    obtain rfl : after = [] := List.length_eq_zero_iff.mp (by omega)
    rw [preceded_nil, List.drop_nil] at hshows ⊢
    have hempty : lines (ended 10 before ++ []) = before ++ [] :: [] := lines_eq_iff.mpr
      ⟨rfl, fun line hmem => by
        rcases List.mem_append.mp hmem with hmem | hmem
        · exact hfree line (List.mem_append_left _ hmem)
        · rw [List.mem_singleton.mp hmem]
          exact List.not_mem_nil⟩
    have hcursor : e'.buffer.bufCursorPos = (ended 10 before).length := hshows.gapStart
    obtain ⟨hcurLine, hcol⟩ :=
      hshows.reads.cursor hempty (by rw [hcursor]) (by rw [hcursor]; exact Nat.le_add_right _ _)
    rw [hcursor, Nat.sub_self] at hcol
    exact ⟨hempty, hcurLine, hcol, hinsert⟩

end EditorState

open EditorState in
/-- A linewise change leaves one empty line in the place of its lines exactly where they go as far
as the last line. -/
theorem change_keeps_line_iff {before e₀ e e' : EditorState} {fname : Option Fat12.CString} {keys : List Int}
    {key : Int} {first last : Nat} (hopen : editorOpen before fname = some e₀) (hrun : e₀.steps keys = some e)
    (hmode : e.mode = .normal) (hop : e.pendingOperator = .change) (hstep : e.step key = some e')
    (hlines : e.changedLines key = some (first, last)) :
    (lines e'.buffer.text = (lines e.buffer.text).take first ++ [] :: (lines e.buffer.text).drop (last + 1) ∧
      bufCursorLine e'.buffer = first ∧ bufCursorCol e'.buffer = 0 ∧ e'.mode = .insert) ↔
    last + 1 = bufLineCount e.buffer := by
  have hsound := run_sound hopen hrun
  have hk := run_counted hopen hrun
  obtain ⟨p, f, t, hlog⟩ := hsound.sane
  obtain ⟨l, r, h, rfl⟩ := hlog.has
  have hchange : ChangesLines e e' first last := by
    have hclear : e.clearStatus.changedLines key = e.changedLines key ∧ e.clearStatus.buffer = e.buffer ∧
        e.clearStatus.toKeyState = e.toKeyState := by
      obtain hsame | hsame := clearStatus_eq e
      · rw [hsame]
        exact ⟨rfl, rfl, rfl⟩
      · rw [hsame]
        exact ⟨rfl, rfl, rfl⟩
    obtain ⟨hclines, hbuffer, hkeys⟩ := hclear
    have hshown : Shows e.clearStatus.buffer l r := hbuffer ▸ h
    have hcur : e.clearStatus.buffer.bufCursorPos ≤ (l ++ r).length := by
      rw [show e.clearStatus.buffer.bufCursorPos = l.length from hshown.gapStart, List.length_append]
      exact Nat.le_add_right _ _
    have hline : bufCursorLine e.clearStatus.buffer < bufLineCount e.clearStatus.buffer := by
      rw [hshown.reads.lineCount, bufCursorLine, hshown.reads.lineAt hcur]
      exact lineAt_lt _ _
    have hsize : bufLineCount e.clearStatus.buffer ≤ 32769 := by
      have hlength := h.length_le
      rw [← List.length_append] at hlength
      rw [hshown.reads.lineCount, length_splitOn]
      exact Nat.succ_le_succ (Nat.le_trans List.count_le_length hlength)
    have hnormal : e.clearStatus.mode = .normal := (congrArg KeyState.mode hkeys).trans hmode
    have hhandled : e' = e.clearStatus.handleNormal key := by
      unfold EditorState.step at hstep
      dsimp only at hstep
      rw [hnormal] at hstep
      exact (Option.some.inj hstep).symm
    obtain ⟨horder, hchange⟩ := changesLines_handleNormal (hkeys ▸ hsound.tidy) (hkeys ▸ hk)
      ((congrArg KeyState.pendingOperator hkeys).trans hop) hline hsize (hclines.trans hlines)
    rw [hbuffer] at horder hchange
    rw [hhandled]
    exact ⟨horder, hchange⟩
  rw [h.text, hchange.keeps_iff h, h.reads.lineCount]

open EditorState in
/-- `cc` on the last of two lines. -/
theorem change_keeps_line_iff_last : ∃ e₀ e e', editorOpen (bootEditor bootDisk) none = some e₀ ∧
    e₀.steps [ch 'i', ch 'a', 10, ch 'b', keyEscape, ch 'c'] = some e ∧ e.step (ch 'c') = some e' ∧
    e.changedLines (ch 'c') = some (1, 1) ∧
    ((lines e'.buffer.text = (lines e.buffer.text).take 1 ++ [] :: (lines e.buffer.text).drop (1 + 1) ∧
        bufCursorLine e'.buffer = 1 ∧ bufCursorCol e'.buffer = 0 ∧ e'.mode = .insert) ↔
      1 + 1 = bufLineCount e.buffer) := by
  have hruns : ((editorOpen (bootEditor bootDisk) none).bind fun e₀ =>
      (e₀.steps [ch 'i', ch 'a', 10, ch 'b', keyEscape, ch 'c']).bind fun e => (e.step (ch 'c')).map fun _ =>
        decide (e.mode = .normal ∧ e.pendingOperator = .change ∧ e.changedLines (ch 'c') = some (1, 1))) =
      some true := by decide
  obtain ⟨e₀, hopen, hruns⟩ := Option.bind_eq_some_iff.mp hruns
  obtain ⟨e, hrun, hruns⟩ := Option.bind_eq_some_iff.mp hruns
  obtain ⟨e', hstep, hends⟩ := Option.map_eq_some_iff.mp hruns
  obtain ⟨hmode, hop, hlines⟩ := of_decide_eq_true hends
  exact ⟨e₀, e, e', hopen, hrun, hstep, hlines, change_keeps_line_iff hopen hrun hmode hop hstep hlines⟩

open EditorState in
/-- `cgg` on the first of two lines leaves the second in its place. -/
theorem change_takes_line : ∃ e₀ e e', editorOpen (bootEditor bootDisk) none = some e₀ ∧
    e₀.steps [ch 'i', ch 'a', 10, ch 'b', keyEscape, ch 'k', ch 'c', ch 'g'] = some e ∧ e.mode = .normal ∧
    e.pendingOperator = .change ∧ e.step (ch 'g') = some e' ∧ e.changedLines (ch 'g') = some (0, 0) ∧
    lines e.buffer.text = [[97], [98]] ∧ lines e'.buffer.text = [[98]] ∧
    lines e'.buffer.text ≠ (lines e.buffer.text).take 0 ++ [] :: (lines e.buffer.text).drop (0 + 1) := by
  have hruns : ((editorOpen (bootEditor bootDisk) none).bind fun e₀ =>
      (e₀.steps [ch 'i', ch 'a', 10, ch 'b', keyEscape, ch 'k', ch 'c', ch 'g']).bind fun e =>
        (e.step (ch 'g')).map fun e' => decide (e.mode = .normal ∧ e.pendingOperator = .change ∧
          e.changedLines (ch 'g') = some (0, 0) ∧ lines e.buffer.text = [[97], [98]] ∧
            lines e'.buffer.text = [[98]])) = some true := by decide
  obtain ⟨e₀, hopen, hruns⟩ := Option.bind_eq_some_iff.mp hruns
  obtain ⟨e, hrun, hruns⟩ := Option.bind_eq_some_iff.mp hruns
  obtain ⟨e', hstep, hends⟩ := Option.map_eq_some_iff.mp hruns
  obtain ⟨hmode, hop, hlines, htext, htext'⟩ := of_decide_eq_true hends
  exact ⟨e₀, e, e', hopen, hrun, hmode, hop, hstep, hlines, htext, htext', by rw [htext, htext']; decide⟩

end RainbowOs.Editor
