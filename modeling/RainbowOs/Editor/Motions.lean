import RainbowOs.Editor.Buffer

/-!
# Lines and words of the buffer

The line index of `apps/editor/buffer.c` and the word motions of
`apps/editor/editor.c`: they read the buffer and give positions in it.
-/

namespace RainbowOs.Editor

open RainbowOs.Lib

/-! ## Lines -/

section Lines

variable (b : Buffer)

/-- How many of the first characters are newlines. -/
def newlines (n : Nat) : Nat := (List.range n).countP fun i => b.bufCharAt i = 10

/-- `buf_line_count` -/
def bufLineCount : Nat := 1 + newlines b b.bufLength

/-- `buf_cursor_line` -/
def bufCursorLine : Nat := newlines b b.bufCursorPos

/-- The loop of `buf_cursor_col`. -/
def colFrom : (i col : Nat) → Nat
  | 0, col => col
  | i + 1, col => if b.bufCharAt i = 10 then col else colFrom i (col + 1)

/-- `buf_cursor_col` -/
def bufCursorCol : Nat := colFrom b b.bufCursorPos 0

/-- The loop of `buf_line_start`, with how much is left of the text. -/
def lineStartFrom (line : Nat) : (n i curLine : Nat) → Nat
  | 0, i, _ => i
  | n + 1, i, curLine =>
    if b.bufCharAt i = 10 then
      if curLine + 1 = line then i + 1 else lineStartFrom line n (i + 1) (curLine + 1)
    else lineStartFrom line n (i + 1) curLine

/-- `buf_line_start` -/
def bufLineStart (line : Nat) : Nat :=
  if line = 0 then 0 else lineStartFrom b line b.bufLength 0 0

/-- `while (i < len && p(buf_char_at(i))) i++`, in the next `n`. -/
def whileFrom (p : UInt8 → Bool) : (n i : Nat) → Nat
  | 0, i => i
  | n + 1, i => if p (b.bufCharAt i) then whileFrom p n (i + 1) else i

/-- `while (i < len && p(buf_char_at(i))) i++` -/
def skipWhile (p : UInt8 → Bool) (len i : Nat) : Nat := whileFrom b p (len - i) i

/-- `while (i > 0 && p(i)) i--` -/
def backWhile (p : Nat → Bool) : Nat → Nat
  | 0 => 0
  | i + 1 => if p (i + 1) then backWhile p i else i + 1

/-- `buf_line_length` -/
def bufLineLength (line : Nat) : Nat :=
  let start := bufLineStart b line
  skipWhile b (· ≠ 10) b.bufLength start - start

end Lines

/-! ## Words -/

/-- `is_word_char` -/
def isWordChar (c : UInt8) : Bool :=
  (97 ≤ c && c ≤ 122) || (65 ≤ c && c ≤ 90) || (48 ≤ c && c ≤ 57) || c = 95

/-- `is_whitespace` -/
def isWhitespace (c : UInt8) : Bool := c = 32 || c = 9 || c = 10 || c = 13

/-- A character that is in a word of the other kind. -/
def isOther (c : UInt8) : Bool := !isWordChar c && !isWhitespace c

section Words

variable (b : Buffer)

/-- `word_forward_pos` -/
def wordForwardPos (pos : Nat) : Nat :=
  let len := b.bufLength
  if pos ≥ len then len
  else
    let c := b.bufCharAt pos
    let pos :=
      if isWordChar c then skipWhile b isWordChar len pos
      else if !isWhitespace c then skipWhile b isOther len pos
      else pos
    skipWhile b isWhitespace len pos

/-- `word_forward_big_pos` -/
def wordForwardBigPos (pos : Nat) : Nat :=
  let len := b.bufLength
  if pos ≥ len then len
  else skipWhile b isWhitespace len (skipWhile b (!isWhitespace ·) len pos)

/-- `word_backward_pos` -/
def wordBackwardPos (pos : Nat) : Nat :=
  if pos = 0 then 0
  else
    let pos := backWhile (fun i => isWhitespace (b.bufCharAt i)) (pos - 1)
    if pos = 0 ∧ isWhitespace (b.bufCharAt pos) then 0
    else if isWordChar (b.bufCharAt pos) then backWhile (fun i => isWordChar (b.bufCharAt (i - 1))) pos
    else backWhile (fun i => isOther (b.bufCharAt (i - 1))) pos

/-- `word_backward_big_pos` -/
def wordBackwardBigPos (pos : Nat) : Nat :=
  if pos = 0 then 0
  else
    let pos := backWhile (fun i => isWhitespace (b.bufCharAt i)) (pos - 1)
    if pos = 0 ∧ isWhitespace (b.bufCharAt pos) then 0
    else backWhile (fun i => !isWhitespace (b.bufCharAt (i - 1))) pos

/-- The end of the run of characters after a position, the last of which is at `len - 1`. -/
def endWhile (p : UInt8 → Bool) (len pos : Nat) : Nat := skipWhile b p len (pos + 1) - 1

/-- `word_end_pos` -/
def wordEndPos (pos : Nat) : Nat :=
  let len := b.bufLength
  if pos + 1 ≥ len then if len > 0 then len - 1 else 0
  else
    let pos := skipWhile b isWhitespace len (pos + 1)
    if pos ≥ len then if len > 0 then len - 1 else 0
    else
      let c := b.bufCharAt pos
      if isWordChar c then endWhile b isWordChar len pos
      else if !isWhitespace c then endWhile b isOther len pos
      else pos

/-- `word_end_big_pos` -/
def wordEndBigPos (pos : Nat) : Nat :=
  let len := b.bufLength
  if pos + 1 ≥ len then if len > 0 then len - 1 else 0
  else
    let pos := skipWhile b isWhitespace len (pos + 1)
    if pos ≥ len then if len > 0 then len - 1 else 0
    else endWhile b (!isWhitespace ·) len pos

end Words

end RainbowOs.Editor
