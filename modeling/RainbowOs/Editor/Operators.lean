import RainbowOs.Editor.VisualLines
import RainbowOs.Editor.Words

/-!
# What an operator affects

An operator with its motion, and a command on a selection, affect a range of
the text: it is yanked, and cut unless the operator only yanks. The register
takes 4095 characters, and `e` on an empty text goes past its end.
-/

namespace RainbowOs.Editor

open RainbowOs.Lib

namespace EditorState

/-! ## Counts -/

/-- What is typed before an operator and after it is a count of at most four digits. -/
structure Counted (k : KeyState) : Prop where
  count : k.repeatCount ≤ 9999
  op : k.pendingOperator ≠ .none → 1 ≤ k.opCount ∧ k.opCount ≤ 9999

section Counts

variable {e e₁ e' : EditorState} {k : KeyState}

theorem counted_quiet (h : k.Quiet) : Counted k :=
  ⟨by rw [h.repeatCount]; exact Nat.zero_le _, fun hop => absurd h.pendingOperator hop⟩

theorem Counted.does {P : BufCall → Prop} (h : Counted e.toKeyState) (hdoes : Does P e e₁) : Counted e₁.toKeyState :=
  hdoes.keys ▸ h

theorem Counted.resetCount (h : Counted e.toKeyState) : Counted e.resetCount.toKeyState :=
  ⟨Nat.zero_le _, h.op⟩

theorem Counted.operates (h : Counted e.toKeyState) (hop : Operates e e₁) : Counted e₁.toKeyState := by
  obtain ⟨e₀, mode, hedits, -, rfl⟩ := hop
  have hcount : e₀.repeatCount = e.repeatCount := congrArg KeyState.repeatCount hedits.keys
  exact ⟨hcount ▸ h.count, fun hne => absurd rfl hne⟩

/-- The counts of a state are in order. -/
abbrev KeepsCounts (e : EditorState) : Prop := Counted e.toKeyState

theorem counted_operatorMotion (key : Int) (count : Nat) (h : Counted e.toKeyState) :
    Counted (e.handleOperatorMotion key count).toKeyState := by
  have hchar := fun pos target => h.operates (operates_charwise e pos target)
  have hline := fun a b => h.operates (operates_linewise e a b)
  unfold handleOperatorMotion
  refine of_ite (Q := KeepsCounts) (hline _ _) ?_
  refine of_ite (hchar _ _) (of_ite (hchar _ _) (of_ite (hchar _ _) (of_ite (hchar _ _) ?_)))
  refine of_ite (hchar _ _) (of_ite (hchar _ _) (of_ite (hchar _ _) (of_ite (hchar _ _) ?_)))
  refine of_ite (hchar _ _) (of_ite (hchar _ _) (of_ite (hline _ _) (of_ite (hline _ _) ?_)))
  exact of_ite (hline _ _) (of_ite ⟨h.count, h.op⟩ ⟨h.count, fun hne => absurd rfl hne⟩)

theorem counted_movement (key : Int) (count : Nat) (h : Counted e.toKeyState) :
    Given KeepsCounts (e.movement key count) := by
  intro e₁ hmove
  obtain ⟨g, e₀, hmoves, rfl⟩ := moves_movement e key count e₁ hmove
  have hkept := h.does hmoves.toDoes
  exact ⟨hkept.count, hkept.op⟩

theorem counted_insertEntry (key : Int) (h : Counted e.toKeyState) : Given KeepsCounts (e.insertEntry key) := by
  intro e₁ hentry
  obtain ⟨e₀, henter, rfl⟩ := Option.map_eq_some_iff.mp hentry
  have hkept : Counted e₀.toKeyState :=
    Counted.does (e := e.call .undoBoundary) h (edits_enterAt _ key e₀ henter).toDoes
  exact ⟨hkept.count, hkept.op⟩

/-- An edit after a boundary, in any mode. -/
theorem Counted.edits (h : Counted e.toKeyState) (hedits : Edits (e.call .undoBoundary) e₁) (mode : Mode) :
    Counted (e₁.setMode mode).toKeyState := by
  have hkept : Counted e₁.toKeyState := Counted.does (e := e.call .undoBoundary) h hedits.toDoes
  exact ⟨hkept.count, hkept.op⟩

theorem counted_editing (key : Int) (count : Nat) (h : Counted e.toKeyState) :
    Given KeepsCounts (e.editing key count) := by
  have hedit : ∀ e₁, Edits (e.call .undoBoundary) e₁ → Counted e₁.toKeyState := fun e₁ hedits =>
    h.edits hedits e₁.mode
  unfold editing
  refine .ite (.some (hedit _ (edits_deleteChars e count))) (.ite (.some (hedit _ (edits_deleteToEnd e))) ?_)
  refine .ite (.some (h.edits (edits_deleteToEnd e) _)) (.ite (.some (h.edits (edits_substituteLine e) _)) ?_)
  refine .ite (.some ?_) (.ite (.some (hedit _ (edits_joinLines e count))) ?_)
  · by_cases hyank : e.yankBuf = []
    · rw [KeepsCounts, paste, if_pos hyank]
      exact h
    · exact hedit _ (edits_paste e count hyank)
  · exact .ite (.some (hedit _ (edits_toggleChars e count))) .none

theorem counted_modeKeys (key : Int) {count : Nat} (h : Counted e.toKeyState) (hpos : 1 ≤ count)
    (hcount : count ≤ 9999) : Given KeepsCounts (e.modeKeys key count) := by
  have hkept : KeepsCounts (yankCurrentLine^[count] e) :=
    h.does (iterate_of Moves.refl Moves.trans moves_yankCurrentLine count e).toDoes
  have hop : ∀ op, Counted { e.toKeyState with pendingOperator := op, opCount := count } := fun op =>
    ⟨h.count, fun _ => ⟨hpos, hcount⟩⟩
  unfold modeKeys
  refine .ite (.some ⟨hcount, h.op⟩) (.ite (.some (hop _)) (.ite (.some (hop _)) (.ite (.some (hop _)) ?_)))
  refine .ite (.some ⟨hkept.count, hkept.op⟩) (.ite (.some ⟨hcount, h.op⟩) (.ite (.some ⟨hcount, h.op⟩) ?_))
  exact .ite (.some ⟨h.count, h.op⟩) (.ite (.some ⟨h.count, h.op⟩) (.ite (.some ⟨h.count, h.op⟩) .none))

theorem counted_regularCommand (key : Int) {count : Nat} (h : Counted e.toKeyState) (hpos : 1 ≤ count)
    (hcount : count ≤ 9999) : Counted (e.regularCommand key count).toKeyState := by
  unfold regularCommand
  refine of_ite (Q := KeepsCounts) (h.does (does_undoKey e count)) (of_ite (h.does (does_redoKey e count)) ?_)
  refine Given.getD (.or (.or (.or ?_ ?_) ?_) ?_) h
  · exact counted_movement key count h
  · exact counted_insertEntry key h
  · exact counted_editing key count h
  · exact counted_modeKeys key h hpos hcount

theorem counted_handleG (key : Int) (h : Counted e.toKeyState) : Counted (e.handleG key).toKeyState := by
  have hwait : Counted { e.toKeyState with awaitingG := false } := ⟨h.count, h.op⟩
  have hmove : ∀ line, KeepsCounts ((resetCount { e with awaitingG := false }).moveToLineCol line 0) := fun line =>
    Counted.does (e := resetCount { e with awaitingG := false }) ⟨Nat.zero_le _, h.op⟩
      (moves_moveToLineCol _ line 0).toDoes
  unfold handleG
  refine Counted.resetCount ?_
  refine of_ite (Q := KeepsCounts) (of_ite ?_ (of_ite (hmove _) (hmove _))) hwait
  exact Counted.operates (e := { e with awaitingG := false }) hwait (operates_linewise _ _ _)

theorem counted_lines {f : EditorState → Nat → EditorState} (hf : ∀ e line, Does BufCall.IsEdit e (f e line))
    {key second : Int} (cnt : Nat) (hreset : Counted e.resetCount.toKeyState) (h : Counted e.toKeyState) :
    Counted (if key = second then e.resetCount.onLines f cnt else e).resetCount.toKeyState := by
  refine Counted.resetCount ?_
  split
  · exact hreset.edits (edits_onLines hf e.resetCount cnt) (e.resetCount.onLines f cnt).mode
  · exact h

theorem counted_handleNormal (key : Int) (h : Counted e.toKeyState) : Counted (e.handleNormal key).toKeyState := by
  have hcount : 1 ≤ (if e.repeatCount > 0 then e.repeatCount else 1) ∧
      (if e.repeatCount > 0 then e.repeatCount else 1) ≤ 9999 := by
    have hle := h.count
    split <;> omega
  unfold handleNormal
  refine of_ite (Q := KeepsCounts) ⟨Nat.min_le_right _ _, h.op⟩ (of_ite ?_ (of_ite (counted_handleG key h) ?_))
  · unfold handleR
    have hreset : Counted (resetCount { e with awaitingR := false }).toKeyState := ⟨Nat.zero_le _, h.op⟩
    refine of_ite (Q := KeepsCounts) ?_ hreset
    exact hreset.edits (edits_replaceChars _ _ _) _
  · refine of_ite (Q := KeepsCounts) ?_ (of_ite ?_ (of_ite ?_ ?_))
    · exact counted_lines does_indentLine _ ⟨Nat.zero_le _, h.op⟩ ⟨h.count, h.op⟩
    · exact counted_lines does_outdentLine _ ⟨Nat.zero_le _, h.op⟩ ⟨h.count, h.op⟩
    · exact counted_operatorMotion key _ h.resetCount
    · exact counted_regularCommand key h.resetCount hcount.1 hcount.2

theorem counted_handleInsert (key : Int) (h : Counted e.toKeyState) : Counted (e.handleInsert key).toKeyState := by
  by_cases hkey : key = keyEscape
  · have hkeys := (handleInsert_escape e).2.1
    rw [hkey, hkeys]
    exact ⟨h.count, h.op⟩
  rw [handleInsert, if_neg hkey]
  have hmove : ∀ delta, KeepsCounts (e.moveVertical delta) := fun delta => h.does (moves_moveVertical e delta).toDoes
  have hspaces : KeepsCounts (e.calls (.insert 32) 4).syncCursor.setModified :=
    h.does ((Does.calls (P := fun _ => True) (c := .insert 32) trivial e 4).congr rfl rfl)
  refine of_ite (Q := KeepsCounts) (of_ite h h) (of_ite h (of_ite h (of_ite hspaces (of_ite h (of_ite h ?_)))))
  exact of_ite (hmove _) (of_ite (hmove _) (of_ite h h))

theorem counted_handleCommand (key : Int) (h : Counted e.toKeyState) : Given KeepsCounts (e.handleCommand key) := by
  have hsave : ∀ {name own result e₁}, e.doSave name own = some (result, e₁) → ∀ mode, KeepsCounts (e₁.setMode mode) :=
    fun hsave mode => by
      have hkept : Counted _ := (saves_doSave hsave).2.1 ▸ h
      exact ⟨hkept.count, hkept.op⟩
  have hwrite : ∀ name own, Given KeepsCounts (e.save name own) := fun name own e₁ hsaved => by
    obtain ⟨⟨result, e₀⟩, hdone, rfl⟩ := Option.map_eq_some_iff.mp hsaved
    exact hsave hdone _
  have hquit : ∀ name own, Given KeepsCounts (e.saveAndQuit name own) := fun name own e₁ hsaved => by
    obtain ⟨⟨result, e₀⟩, hdone, rfl⟩ := Option.map_eq_some_iff.mp hsaved
    exact of_ite (Q := KeepsCounts) (hsave hdone e₀.mode) (hsave hdone _)
  have hexecute : Given KeepsCounts e.cmdExecute := by
    unfold cmdExecute
    refine .ite (.ite (.some ⟨h.count, h.op⟩) (.some h)) (.ite (.some h) (.ite (hwrite _ _) (.ite (hwrite _ _) ?_)))
    exact .ite (hquit _ _) (.ite (hquit _ _) (.some ⟨h.count, h.op⟩))
  unfold handleCommand
  refine .ite (.some ⟨h.count, h.op⟩)
    (.ite ?_ (.ite (.ite (.some h) (.some ⟨h.count, h.op⟩)) (.ite (.some h) (.some h))))
  intro e₁ hentered
  obtain ⟨e₀, hdone, rfl⟩ := Option.map_eq_some_iff.mp hentered
  exact hexecute e₀ hdone

theorem counted_handleVisual (key : Int) (h : Counted e.toKeyState) : Counted (e.handleVisual key).toKeyState := by
  have hmode : ∀ mode, KeepsCounts (e.setMode mode) := fun mode => ⟨h.count, h.op⟩
  have haction : Given KeepsCounts (e.visualAction key) := by
    unfold visualAction
    have hdelete : ∀ mode, KeepsCounts (e.deleteSelection.setMode mode) := h.edits (edits_deleteSelection e)
    have hyank : KeepsCounts (e.yankSelection.setMode .normal) := by
      have hkept := h.does (moves_yankSelection e).toDoes
      exact ⟨hkept.count, hkept.op⟩
    refine .ite (.some hyank) (.ite (.some (hdelete _)) (.ite (.some (hdelete _)) ?_))
    refine .ite (.some (h.edits (edits_onSelectedLines does_indentLine e) _)) ?_
    refine .ite (.some (h.edits (edits_onSelectedLines does_outdentLine e) _)) ?_
    exact .ite (.some (h.edits (edits_toggleSelection e) _)) .none
  unfold handleVisual
  refine of_ite (Q := KeepsCounts) (of_ite ?_ ⟨h.count, h.op⟩) ?_
  · exact Counted.does (e := { e with awaitingG := false }) ⟨h.count, h.op⟩ (moves_moveToLineCol _ 0 0).toDoes
  · refine of_ite (hmode _) (of_ite (hmode _) (of_ite (hmode _) (of_ite h ?_)))
    exact Given.getD (.or (counted_movement key 1 h) haction) h

theorem Counted.step (h : Counted e.toKeyState) {key : Int} (hstep : e.step key = some e') :
    Counted e'.toKeyState := by
  have hkeys := (clearStatus_keeps e).2.1
  rw [← hkeys] at h
  unfold EditorState.step at hstep
  dsimp only at hstep
  generalize e.clearStatus = e at h hstep
  split at hstep
  · exact Option.some.inj hstep ▸ counted_handleNormal key h
  · exact Option.some.inj hstep ▸ counted_handleInsert key h
  · exact counted_handleCommand key h e' hstep
  · exact Option.some.inj hstep ▸ counted_handleVisual key h
  · exact Option.some.inj hstep ▸ counted_handleVisual key h

/-- The counts of every state that keys lead to. -/
theorem run_counted {before e₀ : EditorState} {fname : Option Fat12.CString} {keys : List Int}
    (hopen : editorOpen before fname = some e₀) (hrun : e₀.steps keys = some e) : Counted e.toKeyState :=
  steps_induction (Q := KeepsCounts) (fun _ _ _ h hstep => h.step hstep)
    (counted_quiet (editorOpen_log hopen).2.1) hrun

end Counts

/-! ## Ranges -/

/-- The range of a motion by characters. -/
def charRange (pos target : Nat) : Nat × Nat :=
  (if pos < target then pos else target, if pos < target then target else pos)

/-- The range of a motion by lines. -/
def lineRange (b : Buffer) (line other : Nat) : Nat × Nat :=
  let fromLine := if line > other then other else line
  let toLine := if line > other then line else other
  let stop := bufLineStart b toLine + bufLineLength b toLine
  (bufLineStart b fromLine, if stop < b.bufLength then stop + 1 else stop)

/-- The range that a motion gives the pending operator. -/
def motionRange (e : EditorState) (key : Int) (count : Nat) : Option (Nat × Nat) :=
  let b := e.buffer
  let cur := b.bufCursorPos
  let curLine := bufCursorLine b
  let totalCount := u32 (e.opCount * count)
  let maxLine := bufLineCount b - 1
  if (key = ch 'd' ∧ e.pendingOperator = .delete) ∨ (key = ch 'y' ∧ e.pendingOperator = .yank) ∨
      (key = ch 'c' ∧ e.pendingOperator = .change) then
    let endLine := u32 (curLine + totalCount + 4294967295)
    some (lineRange b curLine (if endLine > maxLine then maxLine else endLine))
  else if key = ch 'w' then some (charRange cur (e.repeated wordForwardPos totalCount))
  else if key = ch 'W' then some (charRange cur (e.repeated wordForwardBigPos totalCount))
  else if key = ch 'b' then some (charRange (e.repeated wordBackwardPos totalCount) cur)
  else if key = ch 'B' then some (charRange (e.repeated wordBackwardBigPos totalCount) cur)
  else if key = ch 'e' then some (charRange cur (e.repeated wordEndPos totalCount + 1))
  else if key = ch 'E' then some (charRange cur (e.repeated wordEndBigPos totalCount + 1))
  else if key = ch 'h' ∨ key = keyLeft then some (charRange (cur - totalCount) cur)
  else if key = ch 'l' ∨ key = keyRight then
    some (charRange cur (if cur < b.bufLength then min (cur + totalCount) b.bufLength else cur))
  else if key = ch '0' ∨ key = keyHome then some (charRange (bufLineStart b curLine) cur)
  else if key = ch '$' ∨ key = keyEnd then
    some (charRange cur (bufLineStart b curLine + bufLineLength b curLine))
  else if key = ch 'j' ∨ key = keyDown then
    let targetLine := u32 (curLine + totalCount)
    some (lineRange b curLine (if targetLine > maxLine then maxLine else targetLine))
  else if key = ch 'k' ∨ key = keyUp then
    some (lineRange b (if totalCount > curLine then 0 else curLine - totalCount) curLine)
  else if key = ch 'G' then some (lineRange b curLine maxLine)
  else none

/-- The range that a key of normal mode gives the pending operator. -/
def normalRange (e : EditorState) (key : Int) : Option (Nat × Nat) :=
  if (ch '1' ≤ key ∧ key ≤ ch '9') ∨ (key = ch '0' ∧ e.countActive = true) then none
  else if e.awaitingR then none
  else if e.awaitingG then
    if key = ch 'g' then
      if e.pendingOperator ≠ .none then some (lineRange e.buffer 0 (bufCursorLine e.buffer)) else none
    else none
  else if e.awaitingGt then none
  else if e.awaitingLt then none
  else if e.pendingOperator ≠ .none then
    e.motionRange key (if e.repeatCount > 0 then e.repeatCount else 1)
  else none

/-- The range of a command that yanks or cuts the selection. -/
def visualRange (e : EditorState) (key : Int) : Option (Nat × Nat) :=
  if e.awaitingG then none
  else if key = ch 'y' ∨ key = ch 'd' ∨ key = ch 'x' ∨ key = ch 'c' then some e.getSelBounds
  else none

/-- The range that a key yanks or cuts. -/
def affectedRange (e : EditorState) (key : Int) : Option (Nat × Nat) :=
  match e.mode with
  | .normal => e.normalRange key
  | .visual | .visualLine => e.visualRange key
  | _ => none

/-- The range is cut, and not only yanked. -/
def cuts (e : EditorState) (key : Int) : Prop :=
  if e.mode = .normal then e.pendingOperator ≠ .yank else key ≠ ch 'y'

/-- What is done with a range: it is yanked, and cut where it is to be. -/
structure Affects (e' : EditorState) (l r : List UInt8) (start stop : Nat) (cut : Prop) : Prop where
  register : stop ≤ (l ++ r).length → e'.yankBuf = (stretch (l ++ r) start stop).take 4095
  deleted : cut → Shows e'.buffer ((l ++ r).take start) ((l ++ r).drop stop)
  kept : ¬cut → Shows e'.buffer l r

section Ranges

variable {e e' : EditorState} {l r : List UInt8} {start stop : Nat} {key : Int}

theorem charRange_eq (pos target : Nat) : charRange pos target = (min pos target, max pos target) := by
  unfold charRange
  refine Prod.ext ?_ ?_ <;> dsimp only <;> split <;> omega

/-- An operator first yanks its range. -/
theorem register_yankAs (h : Shows e.buffer l r) (hle : start ≤ stop) (linewise : Bool)
    (hstop : stop ≤ (l ++ r).length) :
    ((e.call .undoBoundary).yankAs start stop linewise).yankBuf = (stretch (l ++ r) start stop).take 4095 := by
  have hlength := h.length_le
  rw [← List.length_append] at hlength
  rw [yankBuf_yankAs, yankBuf_yankRange (e := e.call .undoBoundary) h.boundary.reads hlength hle hstop]

theorem shows_yankAs (h : Shows e.buffer l r) (start stop : Nat) (linewise : Bool) :
    Shows ((e.call .undoBoundary).yankAs start stop linewise).buffer l r := by
  rw [buffer_yankAs]
  exact h.boundary

/-- An operator after its range has been yanked. -/
theorem Affects.of_yanked {e₁ : EditorState} (h : Shows e.buffer l r) {linewise : Bool} (hle : start ≤ stop)
    (hyank : e.pendingOperator = .yank → e₁ = (e.call .undoBoundary).yankAs start stop linewise)
    (hcut : e.pendingOperator ≠ .yank →
      e₁.yankBuf = ((e.call .undoBoundary).yankAs start stop linewise).yankBuf ∧
        Shows e₁.buffer ((l ++ r).take start) ((l ++ r).drop stop)) :
    Affects e₁.cancelOperator l r start stop (e.pendingOperator ≠ .yank) := by
  by_cases hkind : e.pendingOperator = .yank
  · obtain rfl := hyank hkind
    refine ⟨fun hstop => ?_, fun hne => absurd hkind hne, fun _ => ?_⟩
    · rw [yankBuf_cancelOperator, register_yankAs h hle linewise hstop]
    · rw [buffer_cancelOperator]
      exact shows_yankAs h start stop linewise
  · obtain ⟨hregister, hshows⟩ := hcut hkind
    refine ⟨fun hstop => ?_, fun _ => ?_, fun hnot => absurd hkind hnot⟩
    · rw [yankBuf_cancelOperator, hregister, register_yankAs h hle linewise hstop]
    · rw [buffer_cancelOperator]
      exact hshows

theorem affects_charwise (h : Shows e.buffer l r) (hop : e.pendingOperator ≠ .none) {pos target : Nat}
    (hrange : charRange pos target = (start, stop)) (hstop : stop < 4294967296) :
    Affects (e.applyOperatorCharwise pos target) l r start stop (e.pendingOperator ≠ .yank) := by
  have hle : start ≤ stop := by
    rw [charRange_eq] at hrange
    cases hrange
    omega
  obtain ⟨hs, ht⟩ := Prod.mk.inj hrange
  have hkeep : ((e.call .undoBoundary).yankAs start stop false).pendingOperator = e.pendingOperator := by
    rw [pendingOperator_yankAs, pendingOperator_call]
  have hdeleted := shows_deleteRange (shows_yankAs h start stop false) hle hstop
  have hregister := yankBuf_deleteRange ((e.call .undoBoundary).yankAs start stop false) start stop
  unfold applyOperatorCharwise
  rw [hs, ht]
  dsimp only
  refine .of_yanked h hle (fun hkind => (?_ : _ = (e.call .undoBoundary).yankAs start stop false)) fun hkind => ?_
  · have hnone : ¬(e.pendingOperator = .delete ∨ e.pendingOperator = .change) := by simp [hkind]
    have hchange : ¬e.pendingOperator = .change := by simp [hkind]
    rw [hkeep, if_neg hnone, hkeep, if_neg hchange]
  · have hcuts : e.pendingOperator = .delete ∨ e.pendingOperator = .change := by
      cases hcases : e.pendingOperator <;> simp_all
    rw [hkeep, if_pos hcuts]
    split
    · rw [yankBuf_setMode, buffer_setMode]
      exact ⟨hregister, hdeleted⟩
    · exact ⟨hregister, hdeleted⟩

theorem affects_linewise (h : Shows e.buffer l r) (hop : e.pendingOperator ≠ .none) {line other : Nat}
    (hrange : lineRange e.buffer line other = (start, stop)) (hle : start ≤ stop) (hstop : stop ≤ (l ++ r).length) :
    Affects (e.applyOperatorLinewise line other) l r start stop (e.pendingOperator ≠ .yank) := by
  obtain ⟨hs, ht⟩ := Prod.mk.inj hrange
  have hyanked := shows_yankAs h start stop true
  have hkeep : ((e.call .undoBoundary).yankAs start stop true).pendingOperator = e.pendingOperator := by
    rw [pendingOperator_yankAs, pendingOperator_call]
  have hdeleted := shows_deleteRange hyanked hle (h.pos_lt hstop)
  have hregister := yankBuf_deleteRange ((e.call .undoBoundary).yankAs start stop true) start stop
  have hmoved : Shows ((((e.call .undoBoundary).yankAs start stop true).deleteRange start stop).moveTo start).buffer
      ((l ++ r).take start) ((l ++ r).drop stop) := by
    have hstart : ((l ++ r).take start).length = start := List.length_take_of_le (Nat.le_trans hle hstop)
    have hback := shows_moveTo hdeleted start
    rwa [List.take_left' hstart, List.drop_left' hstart] at hback
  unfold applyOperatorLinewise
  dsimp only at hs ht ⊢
  rw [hs, ht]
  refine .of_yanked h hle (fun hkind => (?_ : _ = (e.call .undoBoundary).yankAs start stop true)) fun hkind => ?_
  · rw [hkeep, hkind, if_neg (by simp), if_neg (by simp)]
  · rw [hkeep]
    split
    · exact ⟨hregister, hdeleted⟩
    · split
      · rw [hyanked.reads.lineStart_eq h.reads, hs, yankBuf_setMode, buffer_setMode, yankBuf_moveTo]
        exact ⟨hregister, hmoved⟩
      · cases hcases : e.pendingOperator <;> simp_all

/-! ## Motions -/

theorem repeated_le {f : Buffer → Nat → Nat} {n bound : Nat} (hcur : e.buffer.bufCursorPos ≤ bound)
    (hf : ∀ pos ≤ bound, f e.buffer pos ≤ bound) : e.repeated f n ≤ bound := by
  unfold repeated
  generalize e.buffer.bufCursorPos = pos at hcur
  induction n generalizing pos with
  | zero => exact hcur
  | succ n ih =>
    rw [Function.iterate_succ_apply]
    exact ih _ (hf pos hcur)

theorem isLeast_le {P : Nat → Prop} {n x : Nat} (h : IsLeast {i | P i ∨ i = n} x) : x ≤ n := h.2 (.inr rfl)

theorem isGreatest_le {P : Nat → Prop} {n pos x : Nat} (h : IsGreatest {i | i < pos ∧ P i ∨ i = 0} x)
    (hpos : pos ≤ n) : x ≤ n := by
  rcases h.1 with ⟨hlt, -⟩ | rfl
  · omega
  · exact Nat.zero_le _

theorem lineRange_eq {b : Buffer} {t : List UInt8} (hb : Reads b t) {line other : Nat}
    (hline : line < (lines t).length) (hother : other < (lines t).length) :
    lineRange b line other = lineSpan t (min line other) (max line other) := by
  have hfrom : (if line > other then other else line) = min line other := by split <;> omega
  have hto : (if line > other then line else other) = max line other := by split <;> omega
  rw [← hb.lineSpan (by omega) (by omega), lineRange, hfrom, hto]

/-- What a key does where it gives a range: `e` and `E` give one past the end of an empty text. -/
def Ranged (l r : List UInt8) (key : Int) (cut : Prop) (range : Option (Nat × Nat)) (e' : EditorState) : Prop :=
  ∀ start stop, range = some (start, stop) → start ≤ stop ∧
    (¬((l ++ r).length = 0 ∧ (key = ch 'e' ∨ key = ch 'E')) → stop ≤ (l ++ r).length) ∧
    Affects e' l r start stop cut

theorem Ranged.ite {cut p : Prop} [Decidable p] {range range' : Option (Nat × Nat)} {e₁ e₂ : EditorState}
    (h : p → Ranged l r key cut range e₁) (h' : ¬p → Ranged l r key cut range' e₂) :
    Ranged l r key cut (if p then range else range') (if p then e₁ else e₂) := by
  split
  · next hp => exact h hp
  · next hp => exact h' hp

theorem Ranged.none {cut : Prop} : Ranged l r key cut .none e' := nofun

theorem Ranged.char (h : Shows e.buffer l r) (hop : e.pendingOperator ≠ .none) {pos target : Nat}
    (hpos : pos ≤ (l ++ r).length) (htarget : target ≤ (l ++ r).length) :
    Ranged l r key (e.pendingOperator ≠ .yank) (some (charRange pos target)) (e.applyOperatorCharwise pos target) := by
  intro start stop hrange
  have hrange := Option.some.inj hrange
  have hmax := hrange
  rw [charRange_eq] at hmax
  obtain ⟨hs, ht⟩ := Prod.mk.inj hmax
  have hstop : stop ≤ (l ++ r).length := by omega
  exact ⟨by omega, fun _ => hstop, affects_charwise h hop hrange (h.pos_lt hstop)⟩

theorem Ranged.wordEnd (h : Shows e.buffer l r) (hop : e.pendingOperator ≠ .none) {pos target : Nat}
    (hkey : key = ch 'e' ∨ key = ch 'E') (hpos : pos ≤ (l ++ r).length)
    (htarget : target = (l ++ r).length - 1 ∨ target < (l ++ r).length) :
    Ranged l r key (e.pendingOperator ≠ .yank) (some (charRange pos (target + 1)))
      (e.applyOperatorCharwise pos (target + 1)) := by
  intro start stop hrange
  have hrange := Option.some.inj hrange
  have hmax := hrange
  rw [charRange_eq] at hmax
  obtain ⟨hs, ht⟩ := Prod.mk.inj hmax
  have hlength := h.pos_lt hpos
  have hsize := h.pos_lt (Nat.le_refl _)
  refine ⟨by omega, fun hsome => ?_, affects_charwise h hop hrange (by omega)⟩
  have hne : (l ++ r).length ≠ 0 := fun hzero => hsome ⟨hzero, hkey⟩
  omega

theorem Ranged.line (h : Shows e.buffer l r) (hop : e.pendingOperator ≠ .none) {line other : Nat}
    (hline : line < (lines (l ++ r)).length) (hother : other < (lines (l ++ r)).length) :
    Ranged l r key (e.pendingOperator ≠ .yank) (some (lineRange e.buffer line other))
      (e.applyOperatorLinewise line other) := by
  intro start stop hrange
  have hrange := Option.some.inj hrange
  have hspan := hrange
  rw [lineRange_eq h.reads hline hother] at hspan
  have hle : (lineSpan (l ++ r) (min line other) (max line other)).1 ≤
      (lineSpan (l ++ r) (min line other) (max line other)).2 := lineSpan_le (by omega) (by omega)
  have hstop := lineSpan_stop_le (l ++ r) (min line other) (max line other)
  rw [hspan] at hle hstop
  exact ⟨hle, fun _ => hstop, affects_linewise h hop hrange hle hstop⟩

theorem ranged_motion (h : Shows e.buffer l r) (hop : e.pendingOperator ≠ .none) (hk : Counted e.toKeyState)
    (key : Int) {count : Nat} (hpos : 1 ≤ count) (hcount : count ≤ 9999) :
    Ranged l r key (e.pendingOperator ≠ .yank) (e.motionRange key count) (e.handleOperatorMotion key count) := by
  have hb := h.reads
  have hcursor : e.buffer.bufCursorPos = l.length := h.gapStart
  have hcur : e.buffer.bufCursorPos ≤ (l ++ r).length := by
    rw [hcursor, List.length_append]
    exact Nat.le_add_right _ _
  obtain ⟨before, line, after, hlines, hle, hend⟩ := exists_line hcur
  have hcurLine : bufCursorLine e.buffer = before.length := (hb.lineAt hcur).trans (lineAt_of_line hlines hle hend)
  have hlength := length_of_lines hlines
  have htotal : 0 < u32 (e.opCount * count) := by
    obtain ⟨hone, hop⟩ := hk.op hop
    have hprod : e.opCount * count ≤ 9999 * 9999 := Nat.mul_le_mul hop hcount
    rw [u32, Nat.mod_eq_of_lt (by omega)]
    exact Nat.mul_pos hone hpos
  have hcount : bufLineCount e.buffer = (lines (l ++ r)).length := hb.lineCount
  have hline : bufCursorLine e.buffer < (lines (l ++ r)).length := by
    rw [hcurLine, hlines, List.length_append, List.length_cons]
    omega
  have hstart : bufLineStart e.buffer (bufCursorLine e.buffer) ≤ (l ++ r).length := by
    rw [hcurLine, hb.lineStart hlines]
    omega
  have hstop : bufLineStart e.buffer (bufCursorLine e.buffer) + bufLineLength e.buffer (bufCursorLine e.buffer) ≤
      (l ++ r).length := by
    rw [hcurLine, hb.lineStart hlines, hb.lineLength hlines]
    omega
  have hchar : ∀ {pos target}, pos ≤ (l ++ r).length → target ≤ (l ++ r).length →
      Ranged l r key (e.pendingOperator ≠ .yank) (some (charRange pos target)) (e.applyOperatorCharwise pos target) :=
        Ranged.char h hop
  have hforward : ∀ {f : Buffer → Nat → Nat} {n}, (∀ pos ≤ (l ++ r).length, f e.buffer pos ≤ (l ++ r).length) →
      e.repeated f n ≤ (l ++ r).length := fun hf => repeated_le hcur hf
  have hwordEnd : ∀ {f : Buffer → Nat → Nat},
    (∀ pos, f e.buffer pos = (l ++ r).length - 1 ∨ f e.buffer pos < (l ++ r).length) →
      e.repeated f (u32 (e.opCount * count)) = (l ++ r).length - 1 ∨
        e.repeated f (u32 (e.opCount * count)) < (l ++ r).length := fun {f} hf => by
    obtain ⟨n, hn⟩ : ∃ m, u32 (e.opCount * count) = m + 1 := ⟨u32 (e.opCount * count) - 1, by omega⟩
    rw [hn, repeated, Function.iterate_succ_apply']
    exact hf _
  unfold motionRange handleOperatorMotion
  dsimp only
  rw [hcount]
  refine .ite (fun _ => .line h hop hline ?_) fun _ => ?_
  · split <;> omega
  refine .ite (fun _ => hchar hcur (hforward fun pos _ => ?_)) fun _ => ?_
  · exact hb.length ▸ isLeast_le (isLeast_wordForwardPos e.buffer pos)
  refine .ite (fun _ => hchar hcur (hforward fun pos _ => ?_)) fun _ => ?_
  · exact hb.length ▸ isLeast_le (isLeast_wordForwardBigPos e.buffer pos)
  refine .ite (fun _ => hchar (hforward fun pos hpos => ?_) hcur) fun _ => ?_
  · exact isGreatest_le (isGreatest_wordBackwardPos (hb.length ▸ hpos)) hpos
  refine .ite (fun _ => hchar (hforward fun pos hpos => ?_) hcur) fun _ => ?_
  · exact isGreatest_le (isGreatest_wordBackwardBigPos (hb.length ▸ hpos)) hpos
  refine .ite (fun hkey => .wordEnd h hop (.inl hkey) hcur (hwordEnd fun pos => ?_)) fun _ => ?_
  · exact hb.length ▸ (isLeast_wordEndPos e.buffer pos).1.symm.imp_right fun hend => hend.2.1
  refine .ite (fun hkey => .wordEnd h hop (.inr hkey) hcur (hwordEnd fun pos => ?_)) fun _ => ?_
  · exact hb.length ▸ (isLeast_wordEndBigPos e.buffer pos).1.symm.imp_right fun hend => hend.2.1
  refine .ite (fun _ => hchar (Nat.le_trans (Nat.sub_le _ _) hcur) hcur) fun _ => ?_
  refine .ite (fun _ => hchar hcur ?_) fun _ => ?_
  · rw [hb.length]
    split <;> omega
  refine .ite (fun _ => hchar hstart hcur) fun _ => ?_
  refine .ite (fun _ => hchar hcur hstop) fun _ => ?_
  refine .ite (fun _ => .line h hop hline ?_) fun _ => ?_
  · split <;> omega
  refine .ite (fun _ => .line h hop ?_ hline) fun _ => ?_
  · split <;> omega
  refine .ite (fun _ => .line h hop hline ?_) fun _ => ?_
  · omega
  exact .none

/-! ## Keys -/

theorem Affects.congr {cut cut' : Prop} (h : Affects e' l r start stop cut) (hcut : cut ↔ cut') :
    Affects e' l r start stop cut' := propext hcut ▸ h

theorem Affects.resetCount {cut : Prop} (h : Affects e' l r start stop cut) :
    Affects e'.resetCount l r start stop cut :=
  ⟨h.register, h.deleted, h.kept⟩

theorem Ranged.resetCount {cut : Prop} {range : Option (Nat × Nat)} (h : Ranged l r key cut range e') :
    Ranged l r key cut range e'.resetCount := fun start stop hrange =>
  let ⟨hle, hstop, haffects⟩ := h start stop hrange
  ⟨hle, hstop, haffects.resetCount⟩

theorem ranged_handleNormal (h : Shows e.buffer l r) (hk : Counted e.toKeyState) (key : Int) :
    Ranged l r key (e.pendingOperator ≠ .yank) (e.normalRange key) (e.handleNormal key) := by
  have hcount := hk.count
  unfold normalRange handleNormal
  refine .ite (fun _ => .none) fun _ => .ite (fun _ => .none) fun _ => .ite (fun _ => ?_) fun _ => ?_
  · unfold handleG
    refine .resetCount (.ite (fun _ => ?_) fun _ => .none)
    refine .ite (fun hop => ?_) fun _ => .none
    have hcur : e.buffer.bufCursorPos ≤ (l ++ r).length := by
      rw [show e.buffer.bufCursorPos = l.length from h.gapStart, List.length_append]
      exact Nat.le_add_right _ _
    have hline : bufCursorLine e.buffer < (lines (l ++ r)).length := by
      rw [bufCursorLine, h.reads.lineAt hcur]
      exact lineAt_lt _ _
    exact Ranged.line (e := { e with awaitingG := false }) h hop (Nat.lt_of_le_of_lt (Nat.zero_le _) hline) hline
  · refine .ite (fun _ => .none) fun _ => .ite (fun _ => .none) fun _ => .ite (fun hop => ?_) fun _ => .none
    refine ranged_motion (e := e.resetCount) h hop hk.resetCount key ?_ ?_ <;> split <;> omega

theorem getSelBounds_le (h : Shows e.buffer l r) :
    e.getSelBounds.1 ≤ e.getSelBounds.2 ∧ e.getSelBounds.2 ≤ (l ++ r).length := by
  have hcursor : e.buffer.bufCursorPos = l.length := h.gapStart
  have hpos : l.length ≤ (l ++ r).length := by
    rw [List.length_append]
    exact Nat.le_add_right _ _
  by_cases hmode : e.mode = .visualLine
  · rw [getSelBounds_lines h hmode]
    refine ⟨lineSpan_le (lineAt_lt _ _) ?_, lineSpan_stop_le _ _ _⟩
    unfold scannedLines
    dsimp only
    split
    · exact lineAt_mono (by omega)
    · exact Nat.zero_le _
  · rw [getSelBounds_chars h hmode]
    dsimp only
    omega

theorem getSelBounds_boundary (h : Shows e.buffer l r) : (e.call .undoBoundary).getSelBounds = e.getSelBounds := by
  have hboundary : Shows (e.call .undoBoundary).buffer l r := h.boundary
  by_cases hmode : e.mode = .visualLine
  · rw [getSelBounds_lines h hmode]
    exact getSelBounds_lines hboundary hmode
  · rw [getSelBounds_chars h hmode]
    exact getSelBounds_chars hboundary hmode

/-- The selection is yanked, and cut. -/
theorem affects_selection (h : Shows e.buffer l r) (hbounds : e.getSelBounds = (start, stop)) (hle : start ≤ stop)
    (hstop : stop ≤ (l ++ r).length) (mode : Mode) :
    Affects (e.yankSelection.setMode mode) l r start stop False ∧
      Affects (e.deleteSelection.setMode mode) l r start stop True := by
  have hlength := h.length_le
  rw [← List.length_append] at hlength
  constructor
  · refine ⟨fun _ => ?_, False.elim, fun _ => ?_⟩
    · rw [yankBuf_setMode, yankSelection, hbounds, yankBuf_yankAs, yankBuf_yankRange h.reads hlength hle hstop]
    · rw [buffer_setMode, yankSelection, buffer_yankAs]
      exact h
  · have hyanked := shows_yankAs h start stop (decide (e.mode = .visualLine))
    have hselection : (e.call .undoBoundary).yankSelection =
        (e.call .undoBoundary).yankAs start stop (decide (e.mode = .visualLine)) := by
      rw [yankSelection, getSelBounds_boundary h, hbounds]
      rfl
    rw [deleteSelection, getSelBounds_boundary h, hbounds, hselection]
    refine ⟨fun _ => ?_, fun _ => ?_, fun hnot => absurd trivial hnot⟩
    · rw [yankBuf_setMode, yankBuf_deleteRange, register_yankAs h hle _ hstop]
    · rw [buffer_setMode]
      exact shows_deleteRange hyanked hle (h.pos_lt hstop)

theorem ranged_handleVisual (h : Shows e.buffer l r) (key : Int) :
    Ranged l r key (key ≠ ch 'y') (e.visualRange key) (e.handleVisual key) := by
  unfold visualRange handleVisual
  refine .ite (fun _ => .none) fun _ => ?_
  intro start stop hrange
  split at hrange
  · next hkey =>
    have hbounds := Option.some.inj hrange
    obtain ⟨hle, hstop⟩ := getSelBounds_le h
    rw [hbounds] at hle hstop
    have hselection := fun mode => affects_selection h hbounds hle hstop mode
    refine ⟨hle, fun _ => hstop, ?_⟩
    rcases hkey with rfl | rfl | rfl | rfl
    · exact (hselection .normal).1.congr (by simp)
    · exact (hselection .normal).2.congr (by simp [ch])
    · exact (hselection .normal).2.congr (by simp [ch])
    · exact (hselection .insert).2.congr (by simp [ch])
  · cases hrange

/-- A message that is cleared is not part of what a key is about. -/
theorem clearStatus_eq (e : EditorState) : e.clearStatus = e ∨ e.clearStatus = { e with cmdBuf := [] } := by
  unfold clearStatus
  split
  · exact .inr rfl
  · exact .inl rfl

theorem ranged_step (h : Shows e.buffer l r) (hk : Counted e.toKeyState) (hstep : e.step key = some e') :
    Ranged l r key (e.cuts key) (e.affectedRange key) e' := by
  have hclear : e.clearStatus.affectedRange key = e.affectedRange key ∧ e.clearStatus.cuts key = e.cuts key ∧
      e.clearStatus.buffer = e.buffer ∧ e.clearStatus.toKeyState = e.toKeyState := by
    obtain hsame | hsame := clearStatus_eq e
    · rw [hsame]
      exact ⟨rfl, rfl, rfl, rfl⟩
    · rw [hsame]
      exact ⟨rfl, rfl, rfl, rfl⟩
  obtain ⟨hrange, hcuts, hbuffer, hkeys⟩ := hclear
  rw [← hrange, ← hcuts]
  rw [← hbuffer] at h
  rw [← hkeys] at hk
  unfold EditorState.step at hstep
  dsimp only at hstep
  generalize e.clearStatus = e at h hk hstep ⊢
  unfold affectedRange cuts
  cases hmode : e.mode with
  | normal =>
    rw [hmode] at hstep
    exact Option.some.inj hstep ▸ ranged_handleNormal h hk key
  | insert => exact .none
  | command => exact .none
  | visual =>
    rw [hmode] at hstep
    exact Option.some.inj hstep ▸ ranged_handleVisual h key
  | visualLine =>
    rw [hmode] at hstep
    exact Option.some.inj hstep ▸ ranged_handleVisual h key

/-- `e` and `E` take the character that they end at. -/
theorem affectedRange_wordEnd (hkey : key = ch 'e' ∨ key = ch 'E')
    (hrange : e.affectedRange key = some (start, stop)) : 0 < stop := by
  have hmotion : ∀ count, e.motionRange key count = some (start, stop) → 0 < stop := fun count hmotion => by
    have hend : ∃ target, charRange e.buffer.bufCursorPos (target + 1) = (start, stop) := by
      rcases hkey with rfl | rfl
      · exact ⟨_, Option.some.inj hmotion⟩
      · exact ⟨_, Option.some.inj hmotion⟩
    obtain ⟨target, hend⟩ := hend
    rw [charRange_eq] at hend
    obtain ⟨-, ht⟩ := Prod.mk.inj hend
    omega
  have hnone : ¬(key = ch 'y' ∨ key = ch 'd' ∨ key = ch 'x' ∨ key = ch 'c') := by
    rcases hkey with rfl | rfl <;> decide
  have hvisual : e.visualRange key = some (start, stop) → 0 < stop := fun hvisual => by
    rw [visualRange, if_neg hnone, ite_self] at hvisual
    cases hvisual
  have hg : key ≠ ch 'g' := by rcases hkey with rfl | rfl <;> decide
  unfold affectedRange at hrange
  split at hrange
  · unfold normalRange at hrange
    rw [if_neg hg] at hrange
    simp only [Option.ite_none_left_eq_some, Option.ite_none_right_eq_some] at hrange
    obtain ⟨-, -, -, -, -, -, hrange⟩ := hrange
    exact hmotion _ hrange
  · exact hvisual hrange
  · exact hvisual hrange
  · cases hrange

end Ranges

end EditorState

open EditorState in
/-- What a command yanks or cuts is a range of the text, and the register holds it, but for what is
past the 4095th character, and for `e` and `E` on an empty text. -/
theorem register_holds_iff {before e₀ e e' : EditorState} {fname : Option Fat12.CString} {keys : List Int} {key : Int}
    {start stop : Nat} (hopen : editorOpen before fname = some e₀) (hrun : e₀.steps keys = some e)
    (hstep : e.step key = some e') (hrange : e.affectedRange key = some (start, stop)) :
    (start ≤ stop ∧ stop ≤ e.buffer.bufLength ∧ e'.yankBuf = stretch e.buffer.text start stop ∧
      (e.cuts key → e'.buffer.text = e.buffer.text.take start ++ e.buffer.text.drop stop) ∧
      (¬e.cuts key → e'.buffer.text = e.buffer.text)) ↔
    stop - start ≤ 4095 ∧ ¬(e.buffer.bufLength = 0 ∧ (key = ch 'e' ∨ key = ch 'E')) := by
  obtain ⟨p, f, t, hlog⟩ := (run_sound hopen hrun).sane
  obtain ⟨l, r, h, rfl⟩ := hlog.has
  obtain ⟨hle, hbound, haffects⟩ := ranged_step h (run_counted hopen hrun) hstep start stop hrange
  rw [h.text, h.reads.length]
  constructor
  · rintro ⟨-, hstop, hregister, -⟩
    refine ⟨?_, ?_⟩
    · have hlength := congrArg List.length (hregister.symm.trans (haffects.register hstop))
      rw [List.length_take, length_stretch hstop] at hlength
      omega
    · rintro ⟨hnone, hkey⟩
      have hpos := affectedRange_wordEnd hkey hrange
      omega
  · rintro ⟨hroom, hsome⟩
    have hstop := hbound hsome
    refine ⟨hle, hstop, ?_, fun hcut => (haffects.deleted hcut).text, fun hcut => (haffects.kept hcut).text⟩
    rw [haffects.register hstop, List.take_of_length_le]
    rw [length_stretch hstop]
    exact hroom

open EditorState in
/-- `dh` on the second of two characters. -/
theorem register_holds_iff_dh : ∃ e₀ e e', editorOpen (bootEditor bootDisk) none = some e₀ ∧
    e₀.steps [ch 'i', ch 'a', ch 'b', keyEscape, ch 'd'] = some e ∧ e.step (ch 'h') = some e' ∧
    e.affectedRange (ch 'h') = some (0, 1) ∧
    ((0 ≤ 1 ∧ 1 ≤ e.buffer.bufLength ∧ e'.yankBuf = stretch e.buffer.text 0 1 ∧
        (e.cuts (ch 'h') → e'.buffer.text = e.buffer.text.take 0 ++ e.buffer.text.drop 1) ∧
        (¬e.cuts (ch 'h') → e'.buffer.text = e.buffer.text)) ↔
      1 - 0 ≤ 4095 ∧ ¬(e.buffer.bufLength = 0 ∧ (ch 'h' = ch 'e' ∨ ch 'h' = ch 'E'))) := by
  have hruns : ((editorOpen (bootEditor bootDisk) none).bind fun e₀ =>
      (e₀.steps [ch 'i', ch 'a', ch 'b', keyEscape, ch 'd']).bind fun e =>
        (e.step (ch 'h')).map fun _ => e.affectedRange (ch 'h')) = some (some (0, 1)) := by decide
  obtain ⟨e₀, hopen, hruns⟩ := Option.bind_eq_some_iff.mp hruns
  obtain ⟨e, hrun, hruns⟩ := Option.bind_eq_some_iff.mp hruns
  obtain ⟨e', hstep, hrange⟩ := Option.map_eq_some_iff.mp hruns
  exact ⟨e₀, e, e', hopen, hrun, hstep, hrange, register_holds_iff hopen hrun hstep hrange⟩

open EditorState in
/-- `de` on an empty text: its range ends past the end. -/
theorem empty_word_end : ∃ e₀ e e', editorOpen (bootEditor bootDisk) none = some e₀ ∧
    e₀.steps [ch 'd'] = some e ∧ e.step (ch 'e') = some e' ∧ e.affectedRange (ch 'e') = some (0, 1) ∧
    ¬1 ≤ e.buffer.bufLength ∧ e'.yankBuf ≠ stretch e.buffer.text 0 1 := by
  have hruns : ((editorOpen (bootEditor bootDisk) none).bind fun e₀ =>
      (e₀.steps [ch 'd']).bind fun e => (e.step (ch 'e')).map fun e' =>
        decide (e.affectedRange (ch 'e') = some (0, 1) ∧ ¬1 ≤ e.buffer.bufLength ∧
          e'.yankBuf ≠ stretch e.buffer.text 0 1)) = some true := by decide
  obtain ⟨e₀, hopen, hruns⟩ := Option.bind_eq_some_iff.mp hruns
  obtain ⟨e, hrun, hruns⟩ := Option.bind_eq_some_iff.mp hruns
  obtain ⟨e', hstep, hends⟩ := Option.map_eq_some_iff.mp hruns
  exact ⟨e₀, e, e', hopen, hrun, hstep, of_decide_eq_true hends⟩

end RainbowOs.Editor
