import Mathlib.Data.List.TakeWhile
import Mathlib.Logic.Function.Iterate
import RainbowOs.Editor.Motions
import RainbowOs.Fat12.Persist

/-!
# The editor

`apps/editor/editor.c`: the state of the editor, and what each key does to it
in its four modes. What a key draws is left out; what it does to the buffer
and to the disk is kept in order in `events`, which no function reads.
-/

namespace RainbowOs.Editor

open RainbowOs.Lib RainbowOs.Fat12

/-- `enum editor_mode` -/
inductive Mode where
  | normal
  | insert
  | command
  | visual
  | visualLine
  deriving DecidableEq, Repr

/-- `enum pending_op` -/
inductive PendingOp where
  | none
  | delete
  | yank
  | change
  deriving DecidableEq, Repr

/-- What a function of the editor calls: the buffer, or the file system with its answer. -/
inductive Event where
  | call (c : BufCall)
  | write (name : CString) (data : List UInt8) (result : Int)

/-- `struct editor_view`, as far as the editor reads it. -/
structure View where
  screenRows : Nat
  topLine : Nat
  cursorLine : Nat
  cursorCol : Nat
  deriving DecidableEq

/-- What the keys so far leave for the next one. -/
structure KeyState where
  mode : Mode
  awaitingG : Bool
  awaitingR : Bool
  awaitingGt : Bool
  awaitingLt : Bool
  repeatCount : Nat
  countActive : Bool
  pendingOperator : PendingOp
  opCount : Nat
  deriving DecidableEq

/-- The statics of `editor.c`, with the buffer and the disk. -/
structure EditorState extends KeyState where
  buffer : Buffer
  disk : DiskState
  view : View
  filename : CString
  modified : Bool
  cmdBuf : List UInt8
  cmdLen : Nat
  running : Bool
  selAnchor : Nat
  yankBuf : List UInt8
  yankLinewise : Bool
  events : List Event

/-- The first characters of a string. -/
def cutName (s : CString) (n : Nat) : CString :=
  ⟨s.val.take n, fun h => s.property (List.mem_of_mem_take h)⟩

/-- The string that ends at the first zero. -/
def cString (s : List UInt8) : CString :=
  ⟨s.takeWhile (· ≠ 0), fun h => by simpa using List.mem_takeWhile_imp h⟩

/-! ## Keys -/

abbrev keyUp : Int := 0x80
abbrev keyDown : Int := 0x81
abbrev keyLeft : Int := 0x82
abbrev keyRight : Int := 0x83
abbrev keyHome : Int := 0x84
abbrev keyEnd : Int := 0x85
abbrev keyPgup : Int := 0x86
abbrev keyPgdn : Int := 0x87
abbrev keyDelete : Int := 0x88
abbrev keyEscape : Int := 0x1B

/-- A letter as a key. -/
abbrev ch (c : Char) : Int := c.toNat

/-- `KEY_CTRL` of a letter. -/
abbrev keyCtrl (c : Char) : Int := (c.toNat % 32 : Nat)

/-- The character of a key. -/
def keyChar (key : Int) : UInt8 := UInt8.ofNat key.toNat

namespace EditorState

variable (e : EditorState)

/-! ## Helpers -/

/-- A call of the buffer. -/
def call (c : BufCall) : EditorState :=
  { e with buffer := c.run e.buffer, events := e.events ++ [.call c] }

/-- The same call so many times. -/
def calls (c : BufCall) (n : Nat) : EditorState := (fun e : EditorState => e.call c)^[n] e

/-- `view_scroll_to_cursor` -/
def scrollToCursor (v : View) : View :=
  let v := if v.cursorLine < v.topLine then { v with topLine := v.cursorLine } else v
  if v.cursorLine ≥ v.topLine + v.screenRows then
    { v with topLine := v.cursorLine - v.screenRows + 1 }
  else v

/-- `sync_cursor` -/
def syncCursor : EditorState :=
  let view :=
    { e.view with cursorLine := bufCursorLine e.buffer, cursorCol := bufCursorCol e.buffer }
  { e with view := scrollToCursor view }

/-- The cursor is put at a position, and shown there. -/
def moveTo (pos : Nat) : EditorState := (e.call (.moveTo pos)).syncCursor

/-- `move_to_line_col` -/
def moveToLineCol (line col : Nat) : EditorState :=
  let pos := bufLineStart e.buffer line
  let len := bufLineLength e.buffer line
  e.moveTo (pos + (if col > len then len else col))

/-- `move_vertical` -/
def moveVertical (delta : Int) : EditorState :=
  let curLine := bufCursorLine e.buffer
  let curCol := bufCursorCol e.buffer
  let total := bufLineCount e.buffer
  let newLine : Int := curLine + delta
  let newLine := if newLine < 0 then 0 else newLine
  let newLine := if newLine.toNat ≥ total then (total : Int) - 1 else newLine
  e.moveToLineCol newLine.toNat curCol

/-- `set_status` -/
def setStatus (msg : String) : EditorState := { e with cmdBuf := ascii msg }

/-- The mode is set. -/
def setMode (mode : Mode) : EditorState := { e with mode := mode }

/-- The flag is set. -/
def setModified : EditorState := { e with modified := true }

/-- The count is used up. -/
def resetCount : EditorState := { e with repeatCount := 0, countActive := false }

/-! ## Yanking and deleting -/

/-- `yank_range` -/
def yankRange (start stop : Nat) : EditorState :=
  let len := min (u32 (stop + 4294967296 - start)) 4095
  { e with yankBuf := (List.range len).map fun i => e.buffer.bufCharAt (start + i) }

/-- `yank_range`, with whether it is of whole lines. -/
def yankAs (start stop : Nat) (linewise : Bool) : EditorState :=
  let e := e.yankRange start stop
  { e with yankLinewise := linewise }

/-- `delete_range` -/
def deleteRange (start stop : Nat) : EditorState :=
  let e := (e.call (.moveTo start)).calls .deleteFwd (u32 (stop + 4294967296 - start))
  e.syncCursor.setModified

/-- `yank_current_line` -/
def yankCurrentLine : EditorState :=
  let line := bufCursorLine e.buffer
  let start := bufLineStart e.buffer line
  let len := min (bufLineLength e.buffer line) 4095
  { e with yankBuf := (List.range len).map fun i => e.buffer.bufCharAt (start + i) }

/-- The lines of the first and of the last position of a range, 0 where it is past the end. -/
def linesOf (b : Buffer) (start stop : Nat) : Nat × Nat :=
  let (sline, eline, _) := (List.range b.bufLength).foldl
    (fun (sline, eline, line) i =>
      (if i = start then line else sline, if i < stop then line else eline,
        if b.bufCharAt i = 10 then line + 1 else line)) (0, 0, 0)
  (sline, eline)

/-- `get_sel_bounds` -/
def getSelBounds : Nat × Nat :=
  let cursor := e.buffer.bufCursorPos
  let (start, stop) :=
    if cursor ≤ e.selAnchor then (cursor, e.selAnchor + 1) else (e.selAnchor, cursor + 1)
  let stop := if stop > e.buffer.bufLength then e.buffer.bufLength else stop
  if e.mode = .visualLine then
    let (sline, eline) := linesOf e.buffer start stop
    let stop := bufLineStart e.buffer eline + bufLineLength e.buffer eline
    (bufLineStart e.buffer sline, if stop < e.buffer.bufLength then stop + 1 else stop)
  else (start, stop)

/-! ## Operators -/

/-- `cancel_operator` -/
def cancelOperator : EditorState := { e with pendingOperator := .none, opCount := 0 }

/-- `apply_operator_charwise` -/
def applyOperatorCharwise (pos target : Nat) : EditorState :=
  let start := if pos < target then pos else target
  let stop := if pos < target then target else pos
  let e := (e.call .undoBoundary).yankAs start stop false
  let e :=
    if e.pendingOperator = .delete ∨ e.pendingOperator = .change then e.deleteRange start stop else e
  let e := if e.pendingOperator = .change then e.setMode .insert else e
  e.cancelOperator

/-- `apply_operator_linewise` -/
def applyOperatorLinewise (line other : Nat) : EditorState :=
  let fromLine := if line > other then other else line
  let toLine := if line > other then line else other
  let start := bufLineStart e.buffer fromLine
  let stop := bufLineStart e.buffer toLine + bufLineLength e.buffer toLine
  let stop := if stop < e.buffer.bufLength then stop + 1 else stop
  let e := (e.call .undoBoundary).yankAs start stop true
  let e :=
    if e.pendingOperator = .delete then e.deleteRange start stop
    else if e.pendingOperator = .change then
      let lineStart := bufLineStart e.buffer fromLine
      ((e.deleteRange start stop).moveTo lineStart).setMode .insert
    else e
  e.cancelOperator

/-- A motion repeated. -/
def repeated (motion : Buffer → Nat → Nat) (n : Nat) : Nat :=
  (motion e.buffer)^[n] e.buffer.bufCursorPos

/-- `handle_operator_motion` -/
def handleOperatorMotion (key : Int) (count : Nat) : EditorState :=
  let cur := e.buffer.bufCursorPos
  let curLine := bufCursorLine e.buffer
  let totalCount := u32 (e.opCount * count)
  if (key = ch 'd' ∧ e.pendingOperator = .delete) ∨ (key = ch 'y' ∧ e.pendingOperator = .yank) ∨
      (key = ch 'c' ∧ e.pendingOperator = .change) then
    let endLine := u32 (curLine + totalCount + 4294967295)
    let maxLine := bufLineCount e.buffer - 1
    e.applyOperatorLinewise curLine (if endLine > maxLine then maxLine else endLine)
  else if key = ch 'w' then e.applyOperatorCharwise cur (e.repeated wordForwardPos totalCount)
  else if key = ch 'W' then e.applyOperatorCharwise cur (e.repeated wordForwardBigPos totalCount)
  else if key = ch 'b' then e.applyOperatorCharwise (e.repeated wordBackwardPos totalCount) cur
  else if key = ch 'B' then e.applyOperatorCharwise (e.repeated wordBackwardBigPos totalCount) cur
  else if key = ch 'e' then e.applyOperatorCharwise cur (e.repeated wordEndPos totalCount + 1)
  else if key = ch 'E' then e.applyOperatorCharwise cur (e.repeated wordEndBigPos totalCount + 1)
  else if key = ch 'h' ∨ key = keyLeft then e.applyOperatorCharwise (cur - totalCount) cur
  else if key = ch 'l' ∨ key = keyRight then
    e.applyOperatorCharwise cur
      (if cur < e.buffer.bufLength then min (cur + totalCount) e.buffer.bufLength else cur)
  else if key = ch '0' ∨ key = keyHome then
    e.applyOperatorCharwise (bufLineStart e.buffer curLine) cur
  else if key = ch '$' ∨ key = keyEnd then
    e.applyOperatorCharwise cur (bufLineStart e.buffer curLine + bufLineLength e.buffer curLine)
  else if key = ch 'j' ∨ key = keyDown then
    let targetLine := u32 (curLine + totalCount)
    let maxLine := bufLineCount e.buffer - 1
    e.applyOperatorLinewise curLine (if targetLine > maxLine then maxLine else targetLine)
  else if key = ch 'k' ∨ key = keyUp then
    e.applyOperatorLinewise (if totalCount > curLine then 0 else curLine - totalCount) curLine
  else if key = ch 'G' then e.applyOperatorLinewise curLine (bufLineCount e.buffer - 1)
  else if key = ch 'g' then { e with awaitingG := true }
  else e.cancelOperator

/-! ## Saving -/

/-- `do_save`, of the remembered name or of another; -1 where it fails. A write that does not
return has no result. -/
def doSave (saveName : CString) (own : Bool) : Option (Int × EditorState) :=
  if saveName.val = [] then some (-1, e.setStatus "E32: No file name")
  else
    let data := e.buffer.bufGetContent bufferSize
    let r := diskfsWriteFile saveName data e.disk
    match r.out with
    | .halt _ => none
    | .done result =>
      let e := { e with disk := r.state, events := e.events ++ [Event.write saveName data result] }
      if result ≠ 0 then some (-1, e.setStatus "E: Write failed")
      else
        let e := if own then e else { e with filename := cutName saveName 12 }
        let e := { e with modified := false }
        some (0, e.setStatus "Written")

/-! ## Normal mode -/

/-- `for (n = 0; n < cnt; n++)`, from `n` on, until the body breaks. -/
def forLoop (body : Nat → EditorState → Option EditorState) : (cnt n : Nat) → EditorState → EditorState
  | 0, _, e => e
  | cnt + 1, n, e =>
    match body n e with
    | none => e
    | some e => forLoop body cnt (n + 1) e

/-- The first position of a line that is no blank. -/
def firstNonBlank (b : Buffer) (line : Nat) : Nat :=
  let start := bufLineStart b line
  skipWhile b (fun c => c = 32 || c = 9) (start + bufLineLength b line) start

/-- `$`: the last character of a line. -/
def lineEnd (b : Buffer) (line : Nat) : Nat :=
  let len := bufLineLength b line
  let stop := bufLineStart b line + len
  if len > 0 then stop - 1 else stop

/-- The character that replaces `r`. -/
def replaceChars (key : Int) (cnt : Nat) : EditorState :=
  let e := e.call .undoBoundary
  let pos := e.buffer.bufCursorPos
  let len := e.buffer.bufLength
  let e := forLoop (fun i e =>
    if pos + i < len then
      some (((e.call (.moveTo (pos + i))).call .deleteFwd).call (.insert (keyChar key)))
    else none) cnt 0 e
  (e.moveTo (pos + cnt - 1)).setModified

/-- Four blanks at the start of a line. -/
def indentLine (line : Nat) : EditorState :=
  (e.call (.moveTo (bufLineStart e.buffer line))).calls (.insert 32) 4

/-- How many of the first four characters of a line are blanks. -/
def leadingSpaces (b : Buffer) (line : Nat) : Nat :=
  let start := bufLineStart b line
  skipWhile b (· = 32) (start + min 4 (bufLineLength b line)) start - start

/-- As many as four blanks less at the start of a line. -/
def outdentLine (line : Nat) : EditorState :=
  (e.call (.moveTo (bufLineStart e.buffer line))).calls .deleteFwd (leadingSpaces e.buffer line)

/-- A function of so many lines, from the current one on. -/
def onLines (f : EditorState → Nat → EditorState) (cnt : Nat) : EditorState :=
  let e := e.call .undoBoundary
  let curLine := bufCursorLine e.buffer
  let e := forLoop (fun n e =>
    if curLine + n ≥ bufLineCount e.buffer then none else some (f e (curLine + n))) cnt 0 e
  e.syncCursor.setModified

/-- `handle_normal`, when it waits for the character of `r`. -/
def handleR (key : Int) : EditorState :=
  let cnt := if e.repeatCount > 0 then e.repeatCount else 1
  let e := { e with awaitingR := false }
  let e := e.resetCount
  if 32 ≤ key ∧ key < 127 then e.replaceChars key cnt else e

/-- When it waits for what follows `g`. -/
def handleG (key : Int) : EditorState :=
  let e := { e with awaitingG := false }
  let e :=
    if key = ch 'g' then
      if e.pendingOperator ≠ .none then e.applyOperatorLinewise 0 (bufCursorLine e.buffer)
      else
        let cnt := e.repeatCount
        let e := e.resetCount
        if cnt > 0 then
          let maxLine := bufLineCount e.buffer - 1
          e.moveToLineCol (if cnt - 1 > maxLine then maxLine else cnt - 1) 0
        else e.moveToLineCol 0 0
    else e
  e.resetCount

/-- When it waits for the second `>`. -/
def handleGt (key : Int) : EditorState :=
  let e := { e with awaitingGt := false }
  let cnt := if e.repeatCount > 0 then e.repeatCount else 1
  let e := if key = ch '>' then e.resetCount.onLines EditorState.indentLine cnt else e
  e.resetCount

/-- When it waits for the second `<`. -/
def handleLt (key : Int) : EditorState :=
  let e := { e with awaitingLt := false }
  let cnt := if e.repeatCount > 0 then e.repeatCount else 1
  let e := if key = ch '<' then e.resetCount.onLines EditorState.outdentLine cnt else e
  e.resetCount

/-- The keys that move the cursor. -/
def movement (key : Int) (count : Nat) : Option EditorState :=
  let b := e.buffer
  if key = ch 'h' ∨ key = keyLeft then some (e.calls .moveLeft count).syncCursor
  else if key = ch 'l' ∨ key = keyRight then some (e.calls .moveRight count).syncCursor
  else if key = ch 'j' ∨ key = keyDown then some (e.moveVertical count)
  else if key = ch 'k' ∨ key = keyUp then some (e.moveVertical (-count))
  else if key = ch '0' ∨ key = keyHome then some (e.moveTo (bufLineStart b (bufCursorLine b)))
  else if key = ch '$' ∨ key = keyEnd then some (e.moveTo (lineEnd b (bufCursorLine b)))
  else if key = ch '^' then some (e.moveTo (firstNonBlank b (bufCursorLine b)))
  else if key = ch 'w' then some (e.moveTo (e.repeated wordForwardPos count))
  else if key = ch 'W' then some (e.moveTo (e.repeated wordForwardBigPos count))
  else if key = ch 'b' then some (e.moveTo (e.repeated wordBackwardPos count))
  else if key = ch 'B' then some (e.moveTo (e.repeated wordBackwardBigPos count))
  else if key = ch 'e' then some (e.moveTo (e.repeated wordEndPos count))
  else if key = ch 'E' then some (e.moveTo (e.repeated wordEndBigPos count))
  else if key = ch 'g' then some { e with awaitingG := true }
  else if key = ch 'G' then
    let maxLine := bufLineCount b - 1
    some (if count > 1 then e.moveToLineCol (if count - 1 > maxLine then maxLine else count - 1) 0
      else e.moveToLineCol maxLine 0)
  else if key = keyCtrl 'u' ∨ key = keyPgup then
    some (e.moveVertical (-((e.view.screenRows / 2 : Nat) : Int) * count))
  else if key = keyCtrl 'd' ∨ key = keyPgdn then
    some (e.moveVertical (((e.view.screenRows / 2 : Nat) : Int) * count))
  else none

/-- The keys that enter insert mode, after the boundary. -/
def enterAt (key : Int) : Option EditorState :=
  let b := e.buffer
  let line := bufCursorLine b
  let toEnd := bufLineStart b line + bufLineLength b line
  if key = ch 'i' then some e
  else if key = ch 'a' then some (e.call .moveRight).syncCursor
  else if key = ch 'A' then some (e.moveTo toEnd)
  else if key = ch 'I' then some (e.moveTo (firstNonBlank b line))
  else if key = ch 'o' then
    some ((e.call (.moveTo toEnd)).call (.insert 10)).syncCursor.setModified
  else if key = ch 'O' then
    some (((e.call (.moveTo (bufLineStart b line))).call (.insert 10)).call .moveLeft).syncCursor.setModified
  else none

/-- The keys that enter insert mode. -/
def insertEntry (key : Int) : Option EditorState :=
  ((e.call .undoBoundary).enterAt key).map fun e => e.setMode .insert

/-- `x` -/
def deleteChars (count : Nat) : EditorState :=
  let e := (fun e : EditorState =>
    if e.buffer.bufCursorPos < e.buffer.bufLength then e.call .deleteFwd else e)^[count]
      (e.call .undoBoundary)
  e.syncCursor.setModified

/-- `D`, `C` -/
def deleteToEnd : EditorState :=
  let e := e.call .undoBoundary
  let line := bufCursorLine e.buffer
  let cur := e.buffer.bufCursorPos
  let stop := bufLineStart e.buffer line + bufLineLength e.buffer line
  if cur < stop then (e.yankAs cur stop false).deleteRange cur stop else e

/-- `S` -/
def substituteLine : EditorState :=
  let e := e.call .undoBoundary
  let line := bufCursorLine e.buffer
  let start := bufLineStart e.buffer line
  let len := bufLineLength e.buffer line
  if len > 0 then (e.yankAs start (start + len) false).deleteRange start (start + len) else e

/-- The text of the yank buffer, put at the cursor. -/
def insertYank : EditorState := e.yankBuf.foldl (fun e c => e.call (.insert c)) e

/-- `p` -/
def paste (count : Nat) : EditorState :=
  if e.yankBuf = [] then e
  else
    let e := (fun e : EditorState =>
      if e.yankLinewise then
        let line := bufCursorLine e.buffer
        let toEnd := bufLineStart e.buffer line + bufLineLength e.buffer line
        ((e.call (.moveTo toEnd)).call (.insert 10)).insertYank
      else (e.call .moveRight).insertYank)^[count] (e.call .undoBoundary)
    e.syncCursor.setModified

/-- One line of `J`. -/
def joinLine : Option EditorState :=
  let line := bufCursorLine e.buffer
  if line + 1 ≥ bufLineCount e.buffer then none
  else
    let nlPos := bufLineStart e.buffer line + bufLineLength e.buffer line
    if nlPos < e.buffer.bufLength ∧ e.buffer.bufCharAt nlPos = 10 then
      let e := (e.call (.moveTo nlPos)).call .deleteFwd
      let pos := e.buffer.bufCursorPos
      let blanks := skipWhile e.buffer (fun c => c = 32 || c = 9) e.buffer.bufLength pos - pos
      some ((e.calls .deleteFwd blanks).call (.insert 32)).setModified
    else some e

/-- `J` -/
def joinLines (count : Nat) : EditorState :=
  (forLoop (fun _ e => e.joinLine) count 0 (e.call .undoBoundary)).syncCursor

/-- A letter in the other case. -/
def toggled (c : UInt8) : UInt8 :=
  if 97 ≤ c ∧ c ≤ 122 then c - 32 else if 65 ≤ c ∧ c ≤ 90 then c + 32 else c

/-- One character of `~`. -/
def toggleChar : Option EditorState :=
  let pos := e.buffer.bufCursorPos
  if pos ≥ e.buffer.bufLength then none
  else
    let c := e.buffer.bufCharAt pos
    if toggled c ≠ c then
      some ((e.call .deleteFwd).call (.insert (toggled c))).setModified
    else some (e.call .moveRight)

/-- `~` -/
def toggleChars (count : Nat) : EditorState :=
  (forLoop (fun _ e => e.toggleChar) count 0 (e.call .undoBoundary)).syncCursor

/-- The keys that edit. -/
def editing (key : Int) (count : Nat) : Option EditorState :=
  if key = ch 'x' ∨ key = keyDelete then some (e.deleteChars count)
  else if key = ch 'D' then some e.deleteToEnd
  else if key = ch 'C' then
    some (e.deleteToEnd.setMode .insert)
  else if key = ch 'S' then
    some (e.substituteLine.setMode .insert)
  else if key = ch 'p' then some (e.paste count)
  else if key = ch 'J' then some (e.joinLines count)
  else if key = ch '~' then some (e.toggleChars count)
  else none

/-- The count is kept for the key that follows. -/
def keepCount (count : Nat) : EditorState := { e with repeatCount := count, countActive := true }

/-- The keys that wait for another one, that yank, or change the mode. -/
def modeKeys (key : Int) (count : Nat) : Option EditorState :=
  if key = ch 'r' then
    let e := e.keepCount count
    some { e with awaitingR := true }
  else if key = ch 'd' then some { e with pendingOperator := .delete, opCount := count }
  else if key = ch 'y' then some { e with pendingOperator := .yank, opCount := count }
  else if key = ch 'c' then some { e with pendingOperator := .change, opCount := count }
  else if key = ch 'Y' then
    let e := yankCurrentLine^[count] e
    some { e with yankLinewise := true }
  else if key = ch '>' then
    let e := e.keepCount count
    some { e with awaitingGt := true }
  else if key = ch '<' then
    let e := e.keepCount count
    some { e with awaitingLt := true }
  else if key = ch 'v' then some { e with selAnchor := e.buffer.bufCursorPos, mode := .visual }
  else if key = ch 'V' then some { e with selAnchor := e.buffer.bufCursorPos, mode := .visualLine }
  else if key = ch ':' then some { e with mode := .command, cmdBuf := [58], cmdLen := 1 }
  else none

/-- `for (i = 0; i < count; i++) if (!f()) break;`, of a call that returns whether it has changed
the text. -/
def callWhile (c : BufCall) (f : Buffer → Bool) : (count : Nat) → EditorState → EditorState
  | 0, e => e
  | count + 1, e => if f e.buffer then callWhile c f count (e.call c) else e.call c

/-- `u` -/
def undoKey (count : Nat) : EditorState :=
  (callWhile .undo (fun b => b.bufUndo.1) count (e.call .undoBoundary)).syncCursor.setModified

/-- `Ctrl-R` -/
def redoKey (count : Nat) : EditorState :=
  (callWhile .redo (fun b => b.bufRedo.1) count e).syncCursor.setModified

/-- The switch of `handle_normal`. -/
def regularCommand (key : Int) (count : Nat) : EditorState :=
  if key = ch 'u' then e.undoKey count
  else if key = keyCtrl 'r' then e.redoKey count
  else
    ((((e.movement key count).or (e.insertEntry key)).or (e.editing key count)).or
      (e.modeKeys key count)).getD e

/-- `handle_normal` -/
def handleNormal (key : Int) : EditorState :=
  if (ch '1' ≤ key ∧ key ≤ ch '9') ∨ (key = ch '0' ∧ e.countActive = true) then
    { e with repeatCount := min (e.repeatCount * 10 + (key.toNat - 48)) 9999, countActive := true }
  else if e.awaitingR then e.handleR key
  else if e.awaitingG then e.handleG key
  else if e.awaitingGt then e.handleGt key
  else if e.awaitingLt then e.handleLt key
  else
    let count := if e.repeatCount > 0 then e.repeatCount else 1
    let e := e.resetCount
    if e.pendingOperator ≠ .none then e.handleOperatorMotion key count
    else e.regularCommand key count

/-! ## Insert mode -/

/-- `handle_insert` -/
def handleInsert (key : Int) : EditorState :=
  if key = keyEscape then
    let e := e.call .undoBoundary
    let e := e.setMode .normal
    (if bufCursorCol e.buffer > 0 then e.call .moveLeft else e).syncCursor
  else if key = 8 then
    if e.buffer.bufCursorPos > 0 then
      (e.call .deleteBack).syncCursor.setModified
    else e
  else if key = keyDelete then
    (e.call .deleteFwd).syncCursor.setModified
  else if key = 10 then
    (e.call (.insert 10)).syncCursor.setModified
  else if key = 9 then
    (e.calls (.insert 32) 4).syncCursor.setModified
  else if key = keyLeft then (e.call .moveLeft).syncCursor
  else if key = keyRight then (e.call .moveRight).syncCursor
  else if key = keyUp then e.moveVertical (-1)
  else if key = keyDown then e.moveVertical 1
  else if 32 ≤ key ∧ key < 127 then
    (e.call (.insert (keyChar key))).syncCursor.setModified
  else e

/-! ## Visual mode -/

/-- The selection is yanked. -/
def yankSelection : EditorState :=
  let (start, stop) := e.getSelBounds
  e.yankAs start stop (e.mode = .visualLine)

/-- The selection is yanked and deleted. -/
def deleteSelection : EditorState :=
  let (start, stop) := (e.call .undoBoundary).getSelBounds
  (e.call .undoBoundary).yankSelection.deleteRange start stop

/-- A function of each selected line. -/
def onSelectedLines (f : EditorState → Nat → EditorState) : EditorState :=
  let e := e.call .undoBoundary
  let (start, stop) := e.getSelBounds
  let (sline, eline) := linesOf e.buffer start stop
  let e := (List.range' sline (eline + 1 - sline)).foldl f e
  e.syncCursor.setModified

/-- One character of the selection, in the other case. -/
def toggleAt (pos : Nat) : EditorState :=
  let c := e.buffer.bufCharAt pos
  if toggled c ≠ c then ((e.call (.moveTo pos)).call .deleteFwd).call (.insert (toggled c)) else e

/-- `~` of the selection -/
def toggleSelection : EditorState :=
  let e := e.call .undoBoundary
  let (start, stop) := e.getSelBounds
  let e := (List.range' start (stop - start)).foldl toggleAt e
  e.syncCursor.setModified

/-- The keys that use the selection. -/
def visualAction (key : Int) : Option EditorState :=
  if key = ch 'y' then
    some (e.yankSelection.setMode .normal)
  else if key = ch 'd' ∨ key = ch 'x' then
    some (e.deleteSelection.setMode .normal)
  else if key = ch 'c' then
    some (e.deleteSelection.setMode .insert)
  else if key = ch '>' then
    some ((e.onSelectedLines indentLine).setMode .normal)
  else if key = ch '<' then
    some ((e.onSelectedLines outdentLine).setMode .normal)
  else if key = ch '~' then
    some (e.toggleSelection.setMode .normal)
  else none

/-- `handle_visual`: its motions are those of normal mode, each once, without `^`. -/
def handleVisual (key : Int) : EditorState :=
  if e.awaitingG then
    let e := { e with awaitingG := false }
    if key = ch 'g' then e.moveToLineCol 0 0 else e
  else if key = keyEscape then e.setMode .normal
  else if key = ch 'v' then e.setMode (if e.mode = .visual then .normal else .visual)
  else if key = ch 'V' then e.setMode (if e.mode = .visualLine then .normal else .visualLine)
  else if key = ch '^' then e
  else ((e.movement key 1).or (e.visualAction key)).getD e

/-! ## Command mode -/

/-- The editor is left where saving succeeds. -/
def saveAndQuit (name : CString) (own : Bool) : Option EditorState :=
  (e.doSave name own).map fun (result, e) =>
    if result = 0 then { e with running := false } else e.setMode .normal

/-- The editor goes on after saving. -/
def save (name : CString) (own : Bool) : Option EditorState :=
  (e.doSave name own).map fun (_, e) => e.setMode .normal

/-- The argument of a command, after blanks. -/
def argument (cmd : List UInt8) (n : Nat) : CString := cString ((cmd.drop n).dropWhile (· = 32))

/-- `cmd_execute` -/
def cmdExecute : Option EditorState :=
  let cmd := e.cmdBuf.drop 1
  if cmd = ascii "q" then
    if e.modified then
      some ((e.setStatus "E37: No write since last change (add ! to override)").setMode .normal)
    else some { e with running := false }
  else if cmd = ascii "q!" then some { e with running := false }
  else if cmd = ascii "w" then e.save e.filename true
  else if cmd.take 2 = ascii "w " then e.save (argument cmd 2) false
  else if cmd = ascii "wq" then e.saveAndQuit e.filename true
  else if cmd.take 3 = ascii "wq " then e.saveAndQuit (argument cmd 3) false
  else
    some ((e.setStatus "E: Unknown command").setMode .normal)

/-- `handle_command` -/
def handleCommand (key : Int) : Option EditorState :=
  if key = keyEscape then some { e with mode := .normal, cmdBuf := [], cmdLen := 0 }
  else if key = 10 then e.cmdExecute.map fun e => { e with cmdLen := 0 }
  else if key = 8 then
    if e.cmdLen > 1 then
      some { e with cmdLen := e.cmdLen - 1, cmdBuf := e.cmdBuf.take (e.cmdLen - 1) }
    else some { e with mode := .normal, cmdBuf := [], cmdLen := 0 }
  else if 32 ≤ key ∧ key < 127 ∧ e.cmdLen < 78 then
    some { e with cmdBuf := e.cmdBuf.take e.cmdLen ++ [keyChar key], cmdLen := e.cmdLen + 1 }
  else some e

/-! ## The main loop -/

/-- A message is shown until the next key. -/
def clearStatus : EditorState :=
  if e.mode = .normal ∧ e.cmdBuf ≠ [] ∧ e.cmdBuf.head? ≠ some 58 then { e with cmdBuf := [] } else e

/-- One key of the loop of `editor_open`. -/
def step (key : Int) : Option EditorState :=
  let e := e.clearStatus
  match e.mode with
  | .normal => some (e.handleNormal key)
  | .insert => some (e.handleInsert key)
  | .command => e.handleCommand key
  | .visual | .visualLine => some (e.handleVisual key)

/-- The loop of `editor_open` over keys: it reads none when the editor has been left, and has no
state after a write that does not return. -/
def steps (e : EditorState) : List Int → Option EditorState
  | [] => some e
  | key :: keys => if e.running then (e.step key).bind fun e' => steps e' keys else some e

end EditorState

/-- The buffer and the name that `editor_open` starts with: a file that cannot be read is an empty
text. A read that does not return has no result. -/
def openFile (buffer : Buffer) (disk : DiskState) (fname : CString) : Option Buffer :=
  match (fat12ReadFile disk.bpb fname bufferSize disk.vol).out with
  | .halt _ => none
  | .done none => some buffer.bufInit
  | .done (some bytes) => some (if bytes = [] then buffer.bufInit else buffer.bufInit.bufLoad bytes)

/-- `editor_open`, before its loop: statics that it does not set are those of the run before. The rows for the text
are `vga_get_rows() - 1`, of 37. -/
def editorOpen (before : EditorState) (fname : Option CString) : Option EditorState :=
  let e := { before with
    buffer := before.buffer.bufInit
    view := { screenRows := 36, topLine := 0, cursorLine := 0, cursorCol := 0 }
    mode := .normal, modified := false, cmdBuf := [], cmdLen := 0, running := true
    awaitingG := false, awaitingR := false, awaitingGt := false, awaitingLt := false
    yankBuf := [], repeatCount := 0, countActive := false, pendingOperator := .none, opCount := 0
    events := [] }
  match fname with
  | none =>
    let e := { e with filename := cString [] }
    some e.syncCursor
  | some fname =>
    (openFile before.buffer before.disk fname).map fun buffer =>
      let e := { e with filename := cutName fname 12, buffer := buffer }
      e.syncCursor

end RainbowOs.Editor
