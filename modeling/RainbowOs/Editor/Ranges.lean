import RainbowOs.Editor.Editor
import RainbowOs.Editor.Lines

/-!
# Stretches of the text

What is yanked of a stretch of the text, and what deleting one leaves; and the
lines of a stretch, as the commands on a selection count them.
-/

namespace RainbowOs.Editor

open RainbowOs.Lib

/-- The text between two positions. -/
def stretch (t : List UInt8) (start stop : Nat) : List UInt8 := (t.drop start).take (stop - start)

theorem length_stretch {t : List UInt8} {start stop : Nat} (h : stop ≤ t.length) :
    (stretch t start stop).length = stop - start := by
  rw [stretch, List.length_take, List.length_drop]
  omega

/-- A position of the text is a number of 32 bits. -/
theorem Shows.pos_lt {b : Buffer} {l r : List UInt8} (h : Shows b l r) {pos : Nat} (hpos : pos ≤ (l ++ r).length) :
    pos < 4294967296 := by
  have hlength := h.length_le
  have hsize : bufferSize = 32768 := rfl
  rw [List.length_append] at hpos
  omega

theorem Shows.boundary {b : Buffer} {l r : List UInt8} (h : Shows b l r) : Shows b.bufUndoBoundary l r := by
  unfold Buffer.bufUndoBoundary
  split
  · exact h
  · split
    · exact h
    · exact h.undoPush .boundary 0 0

/-- Where a line starts depends on the text only. -/
theorem Reads.lineStart_eq {b b' : Buffer} {t : List UInt8} (hb : Reads b t) (hb' : Reads b' t) (line : Nat) :
    bufLineStart b line = bufLineStart b' line := by
  have hfrom : ∀ n i cur, lineStartFrom b line n i cur = lineStartFrom b' line n i cur := fun n => by
    induction n with
    | zero => exact fun _ _ => rfl
    | succ n ih =>
      intro i cur
      rw [lineStartFrom, lineStartFrom, hb.charAt, hb'.charAt, ih, ih]
  rw [bufLineStart, bufLineStart, hb.length, hb'.length, hfrom]

namespace EditorState

section Calls

variable {e : EditorState} {l r t : List UInt8} {start stop : Nat}

@[simp] theorem buffer_call (e : EditorState) (c : BufCall) : (e.call c).buffer = c.run e.buffer := rfl

@[simp] theorem buffer_syncCursor (e : EditorState) : e.syncCursor.buffer = e.buffer := rfl

@[simp] theorem buffer_setModified (e : EditorState) : e.setModified.buffer = e.buffer := rfl

@[simp] theorem buffer_setMode (e : EditorState) (mode : Mode) : (e.setMode mode).buffer = e.buffer := rfl

@[simp] theorem buffer_cancelOperator (e : EditorState) : e.cancelOperator.buffer = e.buffer := rfl

@[simp] theorem buffer_yankAs (e : EditorState) (start stop : Nat) (linewise : Bool) :
    (e.yankAs start stop linewise).buffer = e.buffer := by
  rw [yankAs, yankRange]

theorem yankBuf_calls (e : EditorState) (c : BufCall) (n : Nat) : (e.calls c n).yankBuf = e.yankBuf := by
  induction n generalizing e with
  | zero => rfl
  | succ n ih =>
    rw [calls, Function.iterate_succ_apply]
    exact ih (e.call c)

@[simp] theorem pendingOperator_yankAs (e : EditorState) (start stop : Nat) (linewise : Bool) :
    (e.yankAs start stop linewise).pendingOperator = e.pendingOperator := by
  rw [yankAs, yankRange]

@[simp] theorem pendingOperator_call (e : EditorState) (c : BufCall) :
    (e.call c).pendingOperator = e.pendingOperator := rfl

@[simp] theorem yankBuf_syncCursor (e : EditorState) : e.syncCursor.yankBuf = e.yankBuf := rfl

@[simp] theorem yankBuf_setModified (e : EditorState) : e.setModified.yankBuf = e.yankBuf := rfl

@[simp] theorem yankBuf_call (e : EditorState) (c : BufCall) : (e.call c).yankBuf = e.yankBuf := rfl

@[simp] theorem yankBuf_setMode (e : EditorState) (mode : Mode) : (e.setMode mode).yankBuf = e.yankBuf := rfl

@[simp] theorem yankBuf_moveTo (e : EditorState) (pos : Nat) : (e.moveTo pos).yankBuf = e.yankBuf := rfl

@[simp] theorem yankBuf_cancelOperator (e : EditorState) : e.cancelOperator.yankBuf = e.yankBuf := rfl

theorem yankBuf_deleteRange (e : EditorState) (start stop : Nat) :
    (e.deleteRange start stop).yankBuf = e.yankBuf := by
  rw [deleteRange, yankBuf_setModified, yankBuf_syncCursor, yankBuf_calls, yankBuf_call]

theorem shows_moveTo (h : Shows e.buffer l r) (pos : Nat) :
    Shows (e.moveTo pos).buffer ((l ++ r).take pos) ((l ++ r).drop pos) := (h.moveTo pos).1

theorem shows_deleteFwd (h : Shows e.buffer l r) (n : Nat) : Shows (e.calls .deleteFwd n).buffer l (r.drop n) := by
  induction n generalizing e r with
  | zero => exact h
  | succ n ih =>
    rw [calls, Function.iterate_succ_apply]
    cases r with
    | nil =>
      have hsame : (e.call .deleteFwd).buffer = e.buffer := h.deleteFwd_nil
      rw [List.drop_nil]
      have hnone := ih (e := e.call .deleteFwd) (r := []) (by rwa [hsame])
      rwa [List.drop_nil] at hnone
    | cons c r => exact ih (e := e.call .deleteFwd) h.deleteFwd.1

theorem u32_stretch (hle : start ≤ stop) (hstop : stop < 4294967296) :
    u32 (stop + 4294967296 - start) = stop - start := by
  unfold u32
  omega

/-- Deleting a stretch leaves what is before it and what is behind it. -/
theorem shows_deleteRange (h : Shows e.buffer l r) (hle : start ≤ stop) (hstop : stop < 4294967296) :
    Shows (e.deleteRange start stop).buffer ((l ++ r).take start) ((l ++ r).drop stop) := by
  have hmoved : Shows (e.call (.moveTo start)).buffer ((l ++ r).take start) ((l ++ r).drop start) :=
    (h.moveTo start).1
  have hdeleted := shows_deleteFwd hmoved (stop - start)
  rw [List.drop_drop, Nat.add_sub_cancel' hle] at hdeleted
  rw [deleteRange, u32_stretch hle hstop]
  exact hdeleted

theorem yankBuf_yankAs (e : EditorState) (start stop : Nat) (linewise : Bool) :
    (e.yankAs start stop linewise).yankBuf = (e.yankRange start stop).yankBuf := by
  rw [yankAs]

/-- A stretch is yanked as far as it fits. -/
theorem yankBuf_yankRange (h : Reads e.buffer t) (ht : t.length ≤ bufferSize) (hle : start ≤ stop)
    (hstop : stop ≤ t.length) : (e.yankRange start stop).yankBuf = (stretch t start stop).take 4095 := by
  have hlength : (stretch t start stop).length = stop - start := length_stretch hstop
  have hsize : bufferSize = 32768 := rfl
  rw [yankRange, u32_stretch hle (by omega)]
  refine List.ext_getElem ?_ fun i hi hi' => ?_
  · rw [List.length_map, List.length_range, List.length_take, hlength, Nat.min_comm]
  · rw [List.length_map, List.length_range] at hi
    rw [List.getElem_map, List.getElem_range, h.charAt, List.getElem_take, List.getD_eq_getElem?_getD]
    simp only [stretch, List.getElem_take, List.getElem_drop]
    rw [List.getElem?_eq_getElem (by omega), Option.getD_some]

end Calls

/-! ## The lines of a stretch -/

section Lines

variable {b : Buffer}

/-- The loop that counts the lines of a stretch, over the first characters. -/
theorem linesOf_loop (b : Buffer) (start stop n : Nat) :
    (List.range n).foldl
      (fun (v : Nat × Nat × Nat) i =>
        (if i = start then v.2.2 else v.1, if i < stop then v.2.2 else v.2.1,
          if b.bufCharAt i = 10 then v.2.2 + 1 else v.2.2)) (0, 0, 0) =
      (if start < n then newlines b start else 0, newlines b (min stop n - 1), newlines b n) := by
  induction n with
  | zero =>
    rw [if_neg (Nat.not_lt_zero start), Nat.min_zero]
    rfl
  | succ n ih =>
    have hlast : newlines b (n + 1) = newlines b n + if b.bufCharAt n = 10 then 1 else 0 := by
      rw [newlines, List.range_succ, List.countP_append, List.countP_singleton]
      simp only [decide_eq_true_eq]
      rfl
    rw [List.range_succ, List.foldl_append, ih, List.foldl_cons, List.foldl_nil, hlast]
    refine Prod.ext ?_ (Prod.ext ?_ ?_)
    · dsimp only
      by_cases heq : n = start
      · rw [if_pos heq, if_pos (by omega), heq]
      · rw [if_neg heq]
        by_cases hlt : start < n
        · rw [if_pos hlt, if_pos (by omega)]
        · rw [if_neg hlt, if_neg (by omega)]
    · dsimp only
      by_cases hlt : n < stop
      · have hmin : min stop (n + 1) = n + 1 := Nat.min_eq_right hlt
        rw [if_pos hlt, hmin, Nat.add_sub_cancel]
      · rw [if_neg hlt, Nat.min_eq_left (by omega), Nat.min_eq_left (by omega)]
    · dsimp only
      split <;> rfl

/-- The lines of a stretch: the line of the position where it starts, or the first line where that
is the end of the text, and the line of its last character. -/
theorem linesOf_eq (b : Buffer) {start stop : Nat} (hstop : stop ≤ b.bufLength) :
    linesOf b start stop = (if start < b.bufLength then newlines b start else 0, newlines b (stop - 1)) := by
  have hloop := linesOf_loop b start stop b.bufLength
  rw [Nat.min_eq_left hstop] at hloop
  exact congrArg (fun r : Nat × Nat × Nat => (r.1, r.2.1)) hloop

end Lines

end EditorState

end RainbowOs.Editor
