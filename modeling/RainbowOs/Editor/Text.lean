import RainbowOs.Editor.Buffer
import Mathlib.Data.List.InsertIdx
import Mathlib.Data.List.Induction

/-!
# The text of an edit buffer

`Shows b l r`: the gap buffer holds the text `l ++ r`, with the cursor
between the two. Moving the cursor keeps the text and everything about the
undo log; an edit changes the text at the cursor and records itself.
-/

namespace RainbowOs.Editor

open RainbowOs.Lib

/-- The text before the cursor and after it. -/
structure Shows (b : Buffer) (l r : List UInt8) : Prop where
  gap : b.gapStart ≤ b.gapEnd
  fits : b.gapEnd ≤ bufferSize
  left : b.buf.slice 0 b.gapStart = l
  right : b.buf.slice b.gapEnd (bufferSize - b.gapEnd) = r

/-- What an edit records, and what undoing uses of it. -/
def Buffer.log (b : Buffer) : (Nat → UndoEntry) × Nat × Nat × Nat × Bool :=
  (b.undoStack, b.undoTop, b.undoCount, b.redoCount, b.undoReplaying)

section Cursor

variable {b : Buffer} {l r : List UInt8} {c : UInt8}

theorem Shows.gapStart (h : Shows b l r) : b.gapStart = l.length := by
  rw [← h.left, Bytes.length_slice]

theorem Shows.gapEnd (h : Shows b l r) : b.gapEnd = bufferSize - r.length := by
  have hlength := Bytes.length_slice b.buf b.gapEnd (bufferSize - b.gapEnd)
  have hfits := h.fits
  rw [h.right] at hlength
  omega

theorem Shows.length_le (h : Shows b l r) : l.length + r.length ≤ bufferSize := by
  have hgap := h.gap
  have hfits := h.fits
  have hlength := Bytes.length_slice b.buf b.gapEnd (bufferSize - b.gapEnd)
  rw [h.right] at hlength
  rw [h.gapStart] at hgap
  omega

/-- A buffer shows one text. -/
theorem Shows.unique {l' r' : List UInt8} (h : Shows b l r) (h' : Shows b l' r') : l = l' ∧ r = r' :=
  ⟨h.left.symm.trans h'.left, h.right.symm.trans h'.right⟩

/-- A byte moves from one side of a gap to the other. -/
theorem slice_snoc (m : Bytes) (n : Nat) : m.slice 0 (n + 1) = m.slice 0 n ++ [m n] := by
  rw [Bytes.slice_add, Nat.zero_add]
  rfl

theorem slice_update_of_lt {m : Bytes} {off n k : Nat} (h : k < off ∨ off + n ≤ k) :
    Bytes.slice (Function.update m k c) off n = m.slice off n := by
  refine Bytes.slice_congr fun i hi => Function.update_of_ne ?_ c m
  omega

theorem Shows.moveLeft (h : Shows b (l ++ [c]) r) : Shows b.bufMoveLeft l (c :: r) := by
  have hstart := h.gapStart
  have hgap := h.gap
  have hfits := h.fits
  have hleft := h.left
  rw [List.length_append, List.length_singleton] at hstart
  rw [hstart, slice_snoc] at hleft
  obtain ⟨hl, hc⟩ := List.append_inj' hleft rfl
  rw [Buffer.bufMoveLeft, if_pos (by omega)]
  refine ⟨Nat.sub_le_sub_right hgap 1, Nat.le_trans (Nat.sub_le _ 1) hfits, ?_, ?_⟩
  · show Bytes.slice (Function.update b.buf (b.gapEnd - 1) _) 0 (b.gapStart - 1) = l
    rw [slice_update_of_lt (by omega), hstart, Nat.add_sub_cancel]
    exact hl
  · show Bytes.slice (Function.update b.buf (b.gapEnd - 1) (b.buf (b.gapStart - 1))) (b.gapEnd - 1)
      (bufferSize - (b.gapEnd - 1)) = c :: r
    rw [show bufferSize - (b.gapEnd - 1) = bufferSize - b.gapEnd + 1 by omega, Bytes.slice_succ,
      Function.update_self, show b.gapEnd - 1 + 1 = b.gapEnd by omega, slice_update_of_lt (by omega),
      h.right, hstart, Nat.add_sub_cancel]
    exact congrArg (· :: r) (List.cons.inj hc).1

theorem Shows.moveRight (h : Shows b l (c :: r)) : Shows b.bufMoveRight (l ++ [c]) r := by
  have hstart := h.gapStart
  have hgap := h.gap
  have hfits := h.fits
  have hend := h.gapEnd
  have hlength := h.length_le
  rw [List.length_cons] at hend hlength
  have hright := h.right
  rw [show bufferSize - b.gapEnd = bufferSize - (b.gapEnd + 1) + 1 by omega, Bytes.slice_succ] at hright
  obtain ⟨hc, hr⟩ := List.cons.inj hright
  rw [Buffer.bufMoveRight, if_pos (by omega)]
  refine ⟨Nat.succ_le_succ hgap, ?_, ?_, ?_⟩
  · show b.gapEnd + 1 ≤ bufferSize
    omega
  · show Bytes.slice (Function.update b.buf b.gapStart (b.buf b.gapEnd)) 0 (b.gapStart + 1) = l ++ [c]
    rw [slice_snoc, slice_update_of_lt (by omega), h.left, Function.update_self, hc]
  · show Bytes.slice (Function.update b.buf b.gapStart (b.buf b.gapEnd)) (b.gapEnd + 1) _ = r
    rw [slice_update_of_lt (by omega)]
    exact hr

theorem Shows.moveLeft_nil (h : Shows b [] r) : b.bufMoveLeft = b := by
  have hstart : b.gapStart = 0 := h.gapStart
  rw [Buffer.bufMoveLeft, if_neg (by omega)]

theorem Shows.moveRight_nil (h : Shows b l []) : b.bufMoveRight = b := by
  have hend : b.gapEnd = bufferSize := h.gapEnd
  rw [Buffer.bufMoveRight, if_neg (by omega)]

theorem log_moveLeft (b : Buffer) : b.bufMoveLeft.log = b.log := by
  unfold Buffer.bufMoveLeft
  split <;> rfl

theorem log_moveRight (b : Buffer) : b.bufMoveRight.log = b.log := by
  unfold Buffer.bufMoveRight
  split <;> rfl

theorem Shows.moveLeftTo (h : Shows b l r) (pos : Nat) :
    (Buffer.moveLeftTo pos l.length b).1 = min pos l.length ∧
      Shows (Buffer.moveLeftTo pos l.length b).2 (l.take pos) (l.drop pos ++ r) ∧
      (Buffer.moveLeftTo pos l.length b).2.log = b.log := by
  induction l using List.reverseRecOn generalizing b r with
  | nil =>
    rw [List.take_nil, List.drop_nil]
    exact ⟨(Nat.min_zero pos).symm, h, rfl⟩
  | append_singleton l c ih =>
    have hstart := h.gapStart
    rw [List.length_append, List.length_singleton] at hstart ⊢
    rw [Buffer.moveLeftTo]
    split
    · next hmore =>
      have hle : pos ≤ l.length := Nat.le_of_lt_succ hmore.1
      obtain ⟨hcur, hshows, hlog⟩ := ih h.moveLeft
      refine ⟨?_, ?_, hlog.trans (log_moveLeft b)⟩
      · rw [hcur, Nat.min_eq_left hle, Nat.min_eq_left (Nat.le_succ_of_le hle)]
      · rw [List.take_append_of_le_length hle, List.drop_append_of_le_length hle, List.append_assoc]
        exact hshows
    · next hstop =>
      have hle : l.length + 1 ≤ pos := by omega
      have hlength : (l ++ [c]).length ≤ pos := by simpa using hle
      refine ⟨(Nat.min_eq_right hle).symm, ?_, rfl⟩
      rw [List.take_of_length_le hlength, List.drop_eq_nil_of_le hlength]
      exact h

theorem Shows.moveRightBy (h : Shows b l r) (n : Nat) :
    Shows (Buffer.moveRightBy n b) (l ++ r.take n) (r.drop n) ∧ (Buffer.moveRightBy n b).log = b.log := by
  induction n generalizing b l r with
  | zero =>
    rw [List.take_zero, List.append_nil]
    exact ⟨h, rfl⟩
  | succ n ih =>
    rw [Buffer.moveRightBy]
    cases r with
    | nil =>
      have hend : b.gapEnd = bufferSize := h.gapEnd
      rw [if_neg (by omega), List.take_nil, List.drop_nil, List.append_nil]
      exact ⟨h, rfl⟩
    | cons c r =>
      have hend := h.gapEnd
      have hlength := h.length_le
      rw [List.length_cons] at hend hlength
      obtain ⟨hshows, hlog⟩ := ih h.moveRight
      rw [if_pos (by omega)]
      refine ⟨?_, hlog.trans (log_moveRight b)⟩
      rw [List.take_succ_cons, List.drop_succ_cons]
      rwa [List.append_assoc] at hshows

/-- A position is reached, as far as there is text. -/
theorem Shows.moveTo (h : Shows b l r) (pos : Nat) :
    Shows (b.bufMoveTo pos) ((l ++ r).take pos) ((l ++ r).drop pos) ∧ (b.bufMoveTo pos).log = b.log := by
  obtain ⟨hcur, hshows, hlog⟩ := h.moveLeftTo pos
  obtain ⟨hshows', hlog'⟩ := hshows.moveRightBy (pos - min pos l.length)
  have hmove : b.bufMoveTo pos =
      Buffer.moveRightBy (pos - min pos l.length) (Buffer.moveLeftTo pos l.length b).2 := by
    rw [Buffer.bufMoveTo, Buffer.bufCursorPos, h.gapStart]
    show Buffer.moveRightBy (pos - (Buffer.moveLeftTo pos l.length b).1) _ = _
    rw [hcur]
  rw [hmove]
  refine ⟨?_, hlog'.trans hlog⟩
  rcases Nat.le_total pos l.length with hle | hle
  · rw [Nat.min_eq_left hle, Nat.sub_self, List.take_zero, List.append_nil, List.drop_zero] at hshows'
    rw [Nat.min_eq_left hle, Nat.sub_self, List.take_append_of_le_length hle, List.drop_append_of_le_length hle]
    exact hshows'
  · rw [Nat.min_eq_right hle, List.take_of_length_le hle, List.drop_eq_nil_of_le hle,
      List.nil_append] at hshows'
    rw [Nat.min_eq_right hle, List.take_append, List.drop_append, List.take_of_length_le hle,
      List.drop_eq_nil_of_le hle, List.nil_append]
    exact hshows'

end Cursor

/-! ## Edits -/

section Edits

variable {b : Buffer} {l r : List UInt8} {c : UInt8}

theorem Shows.undoPush (h : Shows b l r) (type : UndoType) (pos : Nat) (ch : UInt8) :
    Shows (b.undoPush type pos ch) l r := by
  unfold Buffer.undoPush
  split
  · exact h
  · exact ⟨h.gap, h.fits, h.left, h.right⟩

theorem undoPush_gap (b : Buffer) (type : UndoType) (pos : Nat) (ch : UInt8) :
    (b.undoPush type pos ch).buf = b.buf ∧ (b.undoPush type pos ch).gapStart = b.gapStart ∧
      (b.undoPush type pos ch).gapEnd = b.gapEnd := by
  unfold Buffer.undoPush
  split
  · exact ⟨rfl, rfl, rfl⟩
  · exact ⟨rfl, rfl, rfl⟩

/-- An insertion, where there is room. -/
theorem Shows.insert (h : Shows b l r) (c : UInt8) (hroom : l.length + r.length < bufferSize) :
    Shows (b.bufInsert c) (l ++ [c]) r ∧
      (b.bufInsert c).log = (b.undoPush .insert l.length c).log := by
  have hstart := h.gapStart
  have hend := h.gapEnd
  have hp := h.undoPush .insert b.gapStart c
  obtain ⟨hbuf, hs, he⟩ := undoPush_gap b .insert b.gapStart c
  rw [Buffer.bufInsert, if_neg (by omega), ← hstart]
  refine ⟨⟨?_, hp.fits, ?_, ?_⟩, rfl⟩
  · show (b.undoPush .insert b.gapStart c).gapStart + 1 ≤ (b.undoPush .insert b.gapStart c).gapEnd
    omega
  · show Bytes.slice (Function.update (b.undoPush .insert b.gapStart c).buf
      (b.undoPush .insert b.gapStart c).gapStart c) 0 ((b.undoPush .insert b.gapStart c).gapStart + 1) = _
    rw [slice_snoc, slice_update_of_lt (by omega), hp.left, Function.update_self]
  · show Bytes.slice (Function.update (b.undoPush .insert b.gapStart c).buf
      (b.undoPush .insert b.gapStart c).gapStart c) (b.undoPush .insert b.gapStart c).gapEnd _ = _
    rw [slice_update_of_lt (by omega)]
    exact hp.right

/-- Nothing is inserted into a full buffer. -/
theorem Shows.insert_full (h : Shows b l r) (hfull : ¬l.length + r.length < bufferSize) (c : UInt8) :
    b.bufInsert c = b := by
  have hstart := h.gapStart
  have hend := h.gapEnd
  rw [Buffer.bufInsert, if_pos (by omega)]

theorem Shows.deleteFwd (h : Shows b l (c :: r)) :
    Shows b.bufDeleteFwd l r ∧ b.bufDeleteFwd.log = (b.undoPush .delete l.length c).log := by
  have hstart := h.gapStart
  have hend := h.gapEnd
  have hlength := h.length_le
  have hright := h.right
  rw [List.length_cons] at hend hlength
  rw [show bufferSize - b.gapEnd = bufferSize - (b.gapEnd + 1) + 1 by omega, Bytes.slice_succ] at hright
  obtain ⟨hc, hr⟩ := List.cons.inj hright
  have hp := h.undoPush .delete b.gapStart (b.buf b.gapEnd)
  obtain ⟨hbuf, hs, he⟩ := undoPush_gap b .delete b.gapStart (b.buf b.gapEnd)
  rw [Buffer.bufDeleteFwd, if_pos (by omega), ← hstart, ← hc]
  refine ⟨⟨Nat.le_succ_of_le hp.gap, ?_, hp.left, ?_⟩, rfl⟩
  · show (b.undoPush .delete b.gapStart (b.buf b.gapEnd)).gapEnd + 1 ≤ bufferSize
    omega
  · show Bytes.slice (b.undoPush .delete b.gapStart (b.buf b.gapEnd)).buf
      ((b.undoPush .delete b.gapStart (b.buf b.gapEnd)).gapEnd + 1)
      (bufferSize - ((b.undoPush .delete b.gapStart (b.buf b.gapEnd)).gapEnd + 1)) = r
    rw [hbuf, he]
    exact hr

theorem Shows.deleteFwd_nil (h : Shows b l []) : b.bufDeleteFwd = b := by
  have hend : b.gapEnd = bufferSize := h.gapEnd
  rw [Buffer.bufDeleteFwd, if_neg (by omega)]

theorem Shows.deleteBack (h : Shows b (l ++ [c]) r) :
    Shows b.bufDeleteBack l r ∧ b.bufDeleteBack.log = (b.undoPush .delete l.length c).log := by
  have hstart := h.gapStart
  have hleft := h.left
  rw [List.length_append, List.length_singleton] at hstart
  rw [hstart, slice_snoc] at hleft
  obtain ⟨hl, hc⟩ := List.append_inj' hleft rfl
  have hprev : b.gapStart - 1 = l.length := by omega
  have hp := h.undoPush .delete l.length c
  obtain ⟨hbuf, hs, he⟩ := undoPush_gap b .delete l.length c
  rw [Buffer.bufDeleteBack, if_pos (by omega), hprev, (List.cons.inj hc).1]
  refine ⟨⟨Nat.le_trans (Nat.sub_le _ 1) hp.gap, hp.fits, ?_, hp.right⟩, rfl⟩
  show Bytes.slice (b.undoPush .delete l.length c).buf 0 ((b.undoPush .delete l.length c).gapStart - 1) = l
  rw [hbuf, hs, hprev]
  exact hl

theorem Shows.deleteBack_nil (h : Shows b [] r) : b.bufDeleteBack = b := by
  have hstart : b.gapStart = 0 := h.gapStart
  rw [Buffer.bufDeleteBack, if_neg (by omega)]

/-- A text is loaded as far as it fits. -/
theorem shows_load (b : Buffer) (text : List UInt8) :
    Shows (b.bufLoad text) (text.take bufferSize) [] := by
  have hle : (text.take bufferSize).length ≤ bufferSize := by
    rw [List.length_take]
    exact Nat.min_le_left _ _
  refine ⟨hle, Nat.le_refl _, Bytes.slice_store_self _ _ _, rfl⟩

end Edits

/-- The text of a buffer. -/
def Buffer.text (b : Buffer) : List UInt8 := b.bufGetContent bufferSize

theorem Shows.text {b : Buffer} {l r : List UInt8} (h : Shows b l r) : b.text = l ++ r := by
  have hstart := h.gapStart
  have hend := h.gapEnd
  have hlength := h.length_le
  have hright := h.right
  have hsplit : bufferSize - b.gapEnd = r.length := by omega
  have hleft : (if b.gapStart > 0 then b.buf.slice 0 (min b.gapStart bufferSize) else []) = l := by
    rw [Nat.min_eq_left (by omega), h.left]
    split
    · rfl
    · exact (List.length_eq_zero_iff.mp (by omega)).symm
  have htotal : min (b.gapStart + r.length) bufferSize - l.length = r.length := by
    rw [Nat.min_eq_left (by omega), hstart, Nat.add_sub_cancel_left]
  rw [hsplit] at hright
  simp only [Buffer.text, Buffer.bufGetContent, hleft, hsplit, htotal, hright]
  split
  · rfl
  · next hnone =>
    rw [Nat.min_eq_left (by omega)] at hnone
    rw [List.length_eq_zero_iff.mp (show r.length = 0 by omega), List.append_nil]

end RainbowOs.Editor
