import RainbowOs.Lib.Bytes
import RainbowOs.Lib.Ring

/-!
# The edit buffer

`apps/editor/buffer.c`: the text is in an array with a gap at the cursor,
and each edit is recorded in a ring of entries, so that it can be undone and
done again. Undoing and redoing move the top of the ring back and forth;
recording puts an entry there and forgets what could be redone.
-/

namespace RainbowOs.Editor

open RainbowOs.Lib

abbrev bufferSize : Nat := 32768
abbrev undoStackSize : Nat := 2048

/-- `enum undo_type` -/
inductive UndoType where
  | insert
  | delete
  | boundary
  deriving DecidableEq, Repr

structure UndoEntry where
  type : UndoType
  pos : Nat
  ch : UInt8
  deriving DecidableEq, Repr

/-- The statics of `buffer.c`. -/
structure Buffer where
  buf : Bytes
  gapStart : Nat
  gapEnd : Nat
  undoStack : Nat → UndoEntry
  undoTop : Nat
  undoCount : Nat
  redoCount : Nat
  undoReplaying : Bool

namespace Buffer

variable (b : Buffer)

/-- `undo_push` -/
def undoPush (type : UndoType) (pos : Nat) (ch : UInt8) : Buffer :=
  if b.undoReplaying then b
  else { b with
    undoStack := Function.update b.undoStack b.undoTop ⟨type, pos, ch⟩
    undoTop := (b.undoTop + 1) % undoStackSize
    undoCount := if b.undoCount < undoStackSize then b.undoCount + 1 else b.undoCount
    redoCount := 0 }

/-- `buf_init` -/
def bufInit : Buffer :=
  { b with
    gapStart := 0, gapEnd := bufferSize, undoTop := 0, undoCount := 0, redoCount := 0
    undoReplaying := false }

/-- `buf_load` -/
def bufLoad (text : List UInt8) : Buffer :=
  let b := b.bufInit
  { b with buf := b.buf.store 0 (text.take bufferSize), gapStart := (text.take bufferSize).length }

/-- `buf_length` -/
def bufLength : Nat := bufferSize - (b.gapEnd - b.gapStart)

/-- `buf_insert` -/
def bufInsert (c : UInt8) : Buffer :=
  if b.gapStart ≥ b.gapEnd then b
  else
    let b := b.undoPush .insert b.gapStart c
    { b with buf := Function.update b.buf b.gapStart c, gapStart := b.gapStart + 1 }

/-- `buf_delete_back` -/
def bufDeleteBack : Buffer :=
  if b.gapStart > 0 then
    let b := b.undoPush .delete (b.gapStart - 1) (b.buf (b.gapStart - 1))
    { b with gapStart := b.gapStart - 1 }
  else b

/-- `buf_delete_fwd` -/
def bufDeleteFwd : Buffer :=
  if b.gapEnd < bufferSize then
    let b := b.undoPush .delete b.gapStart (b.buf b.gapEnd)
    { b with gapEnd := b.gapEnd + 1 }
  else b

/-- `buf_move_left` -/
def bufMoveLeft : Buffer :=
  if b.gapStart > 0 then
    { b with
      buf := Function.update b.buf (b.gapEnd - 1) (b.buf (b.gapStart - 1))
      gapStart := b.gapStart - 1, gapEnd := b.gapEnd - 1 }
  else b

/-- `buf_move_right` -/
def bufMoveRight : Buffer :=
  if b.gapEnd < bufferSize then
    { b with
      buf := Function.update b.buf b.gapStart (b.buf b.gapEnd)
      gapStart := b.gapStart + 1, gapEnd := b.gapEnd + 1 }
  else b

/-- `buf_cursor_pos` -/
def bufCursorPos : Nat := b.gapStart

/-- The first loop of `buf_move_to`, which leaves where it stopped. -/
def moveLeftTo (pos : Nat) : (cur : Nat) → Buffer → Nat × Buffer
  | 0, b => (0, b)
  | cur + 1, b =>
    if cur + 1 > pos ∧ b.gapStart > 0 then moveLeftTo pos cur b.bufMoveLeft else (cur + 1, b)

/-- The second loop, with how far there is to go. -/
def moveRightBy : Nat → Buffer → Buffer
  | 0, b => b
  | n + 1, b => if b.gapEnd < bufferSize then moveRightBy n b.bufMoveRight else b

/-- `buf_move_to` -/
def bufMoveTo (pos : Nat) : Buffer :=
  let (cur, b) := moveLeftTo pos b.bufCursorPos b
  moveRightBy (pos - cur) b

/-- `buf_char_at` -/
def bufCharAt (pos : Nat) : UInt8 :=
  if pos ≥ b.bufLength then 0
  else if pos < b.gapStart then b.buf pos
  else b.buf (b.gapEnd + (pos - b.gapStart))

/-- `buf_get_content` -/
def bufGetContent (max : Nat) : List UInt8 :=
  let before := b.gapStart
  let after := bufferSize - b.gapEnd
  let total := min (before + after) max
  let out := if before > 0 then b.buf.slice 0 (min before max) else []
  if out.length < total ∧ after > 0 then out ++ b.buf.slice b.gapEnd (total - out.length) else out

/-! ## Undo and redo -/

/-- The entry before the top. -/
def lastEntry : UndoEntry := b.undoStack ((b.undoTop + undoStackSize - 1) % undoStackSize)

/-- `buf_undo_boundary` -/
def bufUndoBoundary : Buffer :=
  if b.undoCount = 0 then b
  else if b.lastEntry.type = .boundary then b
  else b.undoPush .boundary 0 0

/-- One entry of the loop of `buf_undo`. -/
def undoEntry (e : UndoEntry) : Buffer :=
  match e.type with
  | .insert => (b.bufMoveTo e.pos).bufDeleteFwd
  | .delete => (b.bufMoveTo e.pos).bufInsert e.ch
  | .boundary => b

/-- One entry of the loop of `buf_redo`. -/
def redoEntry (e : UndoEntry) : Buffer :=
  match e.type with
  | .insert => (b.bufMoveTo e.pos).bufInsert e.ch
  | .delete => (b.bufMoveTo e.pos).bufDeleteFwd
  | .boundary => b

/-- The top moved back over an entry. -/
def stepBack : Buffer :=
  { b with
    undoTop := (b.undoTop + undoStackSize - 1) % undoStackSize
    undoCount := b.undoCount - 1, redoCount := b.redoCount + 1 }

/-- The top moved forward over an entry. -/
def stepForward : Buffer :=
  { b with
    undoTop := (b.undoTop + 1) % undoStackSize
    redoCount := b.redoCount - 1, undoCount := b.undoCount + 1 }

/-- The loop of `buf_undo`, with the entries that are left. -/
def undoLoop : Nat → Buffer → Buffer
  | 0, b => b
  | n + 1, b =>
    let e := b.lastEntry
    if e.type = .boundary then b else undoLoop n (b.stepBack.undoEntry e)

/-- `buf_undo` -/
def bufUndo : Bool × Buffer :=
  if b.undoCount = 0 then (false, b)
  else
    let trailing := b.lastEntry.type = .boundary
    let b := if trailing then b.stepBack else b
    if trailing ∧ b.undoCount = 0 then (false, b)
    else (true, { undoLoop b.undoCount { b with undoReplaying := true } with undoReplaying := false })

/-- The loop of `buf_redo`, with the entries that are left. -/
def redoLoop : Nat → Buffer → Buffer
  | 0, b => b
  | n + 1, b =>
    let e := b.undoStack b.undoTop
    if e.type = .boundary then b else redoLoop n (b.stepForward.redoEntry e)

/-- `buf_redo` -/
def bufRedo : Bool × Buffer :=
  if b.redoCount = 0 then (false, b)
  else
    let leading := (b.undoStack b.undoTop).type = .boundary
    let b := if leading then b.stepForward else b
    if leading ∧ b.redoCount = 0 then (false, b)
    else (true, { redoLoop b.redoCount { b with undoReplaying := true } with undoReplaying := false })

end Buffer

/-! ## Calls -/

/-- A call of a function that changes the buffer. -/
inductive BufCall where
  | insert (c : UInt8)
  | deleteBack
  | deleteFwd
  | moveLeft
  | moveRight
  | moveTo (pos : Nat)
  | undoBoundary
  | undo
  | redo
  deriving DecidableEq

namespace BufCall

def run (b : Buffer) : BufCall → Buffer
  | insert c => b.bufInsert c
  | deleteBack => b.bufDeleteBack
  | deleteFwd => b.bufDeleteFwd
  | moveLeft => b.bufMoveLeft
  | moveRight => b.bufMoveRight
  | moveTo pos => b.bufMoveTo pos
  | undoBoundary => b.bufUndoBoundary
  | undo => b.bufUndo.2
  | redo => b.bufRedo.2

/-- The call changes the text, or moves the cursor. -/
def IsEdit : BufCall → Prop
  | undoBoundary | undo | redo => False
  | _ => True

instance : DecidablePred IsEdit
  | undoBoundary | undo | redo => isFalse not_false
  | insert _ | deleteBack | deleteFwd | moveLeft | moveRight | moveTo _ => isTrue trivial

/-- What the call records. -/
def entries (b : Buffer) : BufCall → List UndoEntry
  | insert c => if b.gapStart < b.gapEnd then [⟨.insert, b.gapStart, c⟩] else []
  | deleteBack =>
    if b.gapStart > 0 then [⟨.delete, b.gapStart - 1, b.buf (b.gapStart - 1)⟩] else []
  | deleteFwd => if b.gapEnd < bufferSize then [⟨.delete, b.gapStart, b.buf b.gapEnd⟩] else []
  | undoBoundary =>
    if b.undoCount = 0 ∨ b.lastEntry.type = .boundary then [] else [⟨.boundary, 0, 0⟩]
  | _ => []

@[simp] theorem entries_insert (b : Buffer) (c : UInt8) : entries b (insert c) =
    if b.gapStart < b.gapEnd then [⟨.insert, b.gapStart, c⟩] else [] := rfl

@[simp] theorem entries_deleteBack (b : Buffer) : entries b deleteBack =
    if b.gapStart > 0 then [⟨.delete, b.gapStart - 1, b.buf (b.gapStart - 1)⟩] else [] := rfl

@[simp] theorem entries_deleteFwd (b : Buffer) : entries b deleteFwd =
    if b.gapEnd < bufferSize then [⟨.delete, b.gapStart, b.buf b.gapEnd⟩] else [] := rfl

@[simp] theorem entries_undoBoundary (b : Buffer) : entries b undoBoundary =
    if b.undoCount = 0 ∨ b.lastEntry.type = .boundary then [] else [⟨.boundary, 0, 0⟩] := rfl

end BufCall

/-- The buffer after calls. -/
def Buffer.runs (b : Buffer) (calls : List BufCall) : Buffer := calls.foldl BufCall.run b

/-- What calls record. -/
def recorded : Buffer → List BufCall → List UndoEntry
  | _, [] => []
  | b, c :: calls => c.entries b ++ recorded (c.run b) calls

end RainbowOs.Editor
