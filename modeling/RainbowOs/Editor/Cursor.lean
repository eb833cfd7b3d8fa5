import RainbowOs.Editor.Walks

/-!
# A text with a cursor

What the gap buffer is for: a text that is split at the cursor. Every
function that edits or moves does to the buffer what it does to the split
text, and what the buffer shows of itself is what the split text is.
-/

namespace RainbowOs.Editor

open RainbowOs.Lib

/-- A text, split at the cursor. -/
structure Split where
  before : List UInt8
  after : List UInt8
  deriving DecidableEq

namespace Split

def text (s : Split) : List UInt8 := s.before ++ s.after

/-- The cursor at a position, or at the end where the text is shorter. -/
def moveTo (s : Split) (pos : Nat) : Split := ⟨s.text.take pos, s.text.drop pos⟩

theorem text_moveTo (s : Split) (pos : Nat) : (s.moveTo pos).text = s.text := List.take_append_drop pos _

end Split

/-- A call that loads, edits or moves. -/
inductive GapCall where
  | load (text : List UInt8)
  | insert (c : UInt8)
  | deleteBack
  | deleteFwd
  | moveLeft
  | moveRight
  | moveTo (pos : Nat)

namespace GapCall

def run (b : Buffer) : GapCall → Buffer
  | load text => b.bufLoad text
  | insert c => b.bufInsert c
  | deleteBack => b.bufDeleteBack
  | deleteFwd => b.bufDeleteFwd
  | moveLeft => b.bufMoveLeft
  | moveRight => b.bufMoveRight
  | moveTo pos => b.bufMoveTo pos

/-- The call on a split text, which never grows beyond the buffer. -/
def step (s : Split) : GapCall → Split
  | load text => ⟨text.take bufferSize, []⟩
  | insert c => if s.text.length < bufferSize then ⟨s.before ++ [c], s.after⟩ else s
  | deleteBack => ⟨s.before.dropLast, s.after⟩
  | deleteFwd => ⟨s.before, s.after.tail⟩
  | moveLeft => s.moveTo (s.before.length - 1)
  | moveRight => s.moveTo (s.before.length + 1)
  | moveTo pos => s.moveTo pos

def IsMove : GapCall → Prop
  | moveLeft | moveRight | moveTo _ => True
  | _ => False

theorem text_step {c : GapCall} (h : c.IsMove) (s : Split) : (c.step s).text = s.text := by
  cases c with
  | moveLeft => exact s.text_moveTo _
  | moveRight => exact s.text_moveTo _
  | moveTo pos => exact s.text_moveTo pos
  | load text => exact h.elim
  | insert c => exact h.elim
  | deleteBack => exact h.elim
  | deleteFwd => exact h.elim

end GapCall

/-- The text of a buffer, split at its cursor. -/
def Buffer.split (b : Buffer) : Split := ⟨b.text.take b.bufCursorPos, b.text.drop b.bufCursorPos⟩

variable {b : Buffer} {s : Split}

/-- The buffer holds the split text. -/
def Split.In (s : Split) (b : Buffer) : Prop := Shows b s.before s.after

theorem Split.In.moveTo (h : s.In b) (pos : Nat) : (s.moveTo pos).In (b.bufMoveTo pos) :=
  (Shows.moveTo h pos).1

theorem Split.In.moveLeft (h : s.In b) : (s.moveTo (s.before.length - 1)).In b.bufMoveLeft := by
  obtain ⟨l, r⟩ := s
  rcases List.eq_nil_or_concat' l with rfl | ⟨l, c, rfl⟩
  · rw [Shows.moveLeft_nil h]
    exact h
  · have hmoved := Shows.moveLeft h
    simpa [Split.In, Split.moveTo, Split.text] using hmoved

theorem Split.In.moveRight (h : s.In b) : (s.moveTo (s.before.length + 1)).In b.bufMoveRight := by
  obtain ⟨l, r⟩ := s
  have htake : l.take (l.length + 1) = l := List.take_of_length_le (Nat.le_succ _)
  have hdrop : l.drop (l.length + 1) = [] := List.drop_eq_nil_of_le (Nat.le_succ _)
  cases r with
  | nil =>
    rw [Shows.moveRight_nil h]
    simpa [Split.In, Split.moveTo, Split.text, htake, hdrop] using h
  | cons c r =>
    have hmoved := Shows.moveRight h
    simpa [Split.In, Split.moveTo, Split.text, List.take_append, List.drop_append, htake, hdrop] using hmoved

/-- One call. -/
theorem Split.In.step (h : s.In b) (c : GapCall) : (c.step s).In (c.run b) := by
  cases c with
  | load text => exact shows_load b text
  | insert c =>
    rw [GapCall.step, Split.text, List.length_append]
    split
    · next hroom => exact (Shows.insert h c hroom).1
    · next hfull =>
      rw [GapCall.run, Shows.insert_full h hfull c]
      exact h
  | deleteBack =>
    obtain ⟨l, r⟩ := s
    rcases List.eq_nil_or_concat' l with rfl | ⟨l, c, rfl⟩
    · rw [GapCall.run, Shows.deleteBack_nil h]
      exact h
    · have hdeleted := (Shows.deleteBack h).1
      simpa [Split.In, GapCall.step, GapCall.run] using hdeleted
  | deleteFwd =>
    obtain ⟨l, r⟩ := s
    cases r with
    | nil =>
      rw [GapCall.run, Shows.deleteFwd_nil h]
      exact h
    | cons c r => exact (Shows.deleteFwd h).1
  | moveLeft => exact h.moveLeft
  | moveRight => exact h.moveRight
  | moveTo pos => exact h.moveTo pos

/-- A run of calls. -/
theorem Split.In.steps (h : s.In b) (calls : List GapCall) :
    (calls.foldl GapCall.step s).In (calls.foldl GapCall.run b) := by
  induction calls generalizing b s with
  | nil => exact h
  | cons c calls ih => exact ih (h.step c)

/-! ## What the buffer shows of itself -/

theorem Split.In.length (h : s.In b) : b.bufLength = s.text.length := by
  have hstart := Shows.gapStart h
  have hend := Shows.gapEnd h
  have hgap := h.gap
  have hlength := Shows.length_le h
  rw [Buffer.bufLength, Split.text, List.length_append]
  omega

theorem Split.In.charAt (h : s.In b) (pos : Nat) : b.bufCharAt pos = s.text.getD pos 0 := by
  have hstart := Shows.gapStart h
  have hend := Shows.gapEnd h
  have hlength := Shows.length_le h
  rw [Buffer.bufCharAt, h.length]
  split
  · next hbeyond => rw [List.getD_eq_getElem?_getD, List.getElem?_eq_none hbeyond, Option.getD_none]
  · next hwithin =>
    rw [Split.text, List.length_append] at hwithin
    split
    · next hleft =>
      rw [hstart] at hleft
      have hbyte := @Bytes.getElem?_slice b.buf 0 _ _ (hstart ▸ hleft)
      rw [h.left, Nat.zero_add] at hbyte
      rw [Split.text, List.getD_eq_getElem?_getD, List.getElem?_append_left hleft, hbyte, Option.getD_some]
    · next hright =>
      rw [hstart] at hright ⊢
      have hbyte := @Bytes.getElem?_slice b.buf b.gapEnd (bufferSize - b.gapEnd)
        (pos - s.before.length) (by omega)
      rw [h.right] at hbyte
      rw [Split.text, List.getD_eq_getElem?_getD, List.getElem?_append_right (Nat.le_of_not_lt hright), hbyte,
        Option.getD_some]

theorem Split.In.content (h : s.In b) (n : Nat) : b.bufGetContent n = s.text.take n := by
  have hstart := Shows.gapStart h
  have hend := Shows.gapEnd h
  have hlength := Shows.length_le h
  have hafter : bufferSize - b.gapEnd = s.after.length := by omega
  have hleft : (if b.gapStart > 0 then b.buf.slice 0 (min b.gapStart n) else []) = s.before.take n := by
    split
    · rw [← Bytes.take_slice b.buf 0 (Nat.min_le_left _ n), h.left, hstart]
      rcases Nat.le_total s.before.length n with hle | hle
      · rw [Nat.min_eq_left hle, List.take_length, List.take_of_length_le hle]
      · rw [Nat.min_eq_right hle]
    · rw [List.length_eq_zero_iff.mp (show s.before.length = 0 by omega), List.take_nil]
  have hright : ∀ k, k ≤ s.after.length → b.buf.slice b.gapEnd k = s.after.take k := fun k hk => by
    rw [← h.right, Bytes.take_slice _ _ (by omega)]
  have htake : (s.before.take n).length = min n s.before.length := List.length_take
  unfold Buffer.bufGetContent
  simp only [hleft]
  rw [hafter, hstart, Split.text, List.take_append]
  split
  · rw [hright _ (by omega)]
    refine congrArg (s.before.take n ++ ·) (List.take_eq_take_iff.mpr ?_)
    omega
  · next hdone =>
    have hnone : min (n - s.before.length) s.after.length = 0 := by omega
    have hnil : s.after.take (n - s.before.length) = [] :=
      List.length_eq_zero_iff.mp (List.length_take.trans hnone)
    rw [hnil, List.append_nil]

/-- A buffer whose gap is in order holds its text, split at its cursor. -/
theorem Buffer.split_in (hgap : b.gapStart ≤ b.gapEnd) (hfits : b.gapEnd ≤ bufferSize) : b.split.In b := by
  have hshows : Shows b (b.buf.slice 0 b.gapStart) (b.buf.slice b.gapEnd (bufferSize - b.gapEnd)) :=
    ⟨hgap, hfits, rfl, rfl⟩
  have hcursor : b.bufCursorPos = (b.buf.slice 0 b.gapStart).length := hshows.gapStart
  rw [Split.In, Buffer.split, hshows.text, hcursor, List.take_left, List.drop_left]
  exact hshows

/-- Over every run of calls from a buffer with its gap in order, the gap stays in order, and the
buffer shows what the calls make of the text that is split at the cursor; the moves leave it. -/
theorem gap_buffer_refines (hgap : b.gapStart ≤ b.gapEnd) (hfits : b.gapEnd ≤ bufferSize)
    (calls : List GapCall) :
    let b' := calls.foldl GapCall.run b
    let s' := calls.foldl GapCall.step b.split
    (b'.gapStart ≤ b'.gapEnd ∧ b'.gapEnd ≤ bufferSize) ∧
      b'.bufLength = s'.text.length ∧ (∀ pos, b'.bufCharAt pos = s'.text.getD pos 0) ∧
      b'.bufCursorPos = s'.before.length ∧ (∀ n, b'.bufGetContent n = s'.text.take n) ∧
      ∀ c : GapCall, c.IsMove → (c.step s').text = s'.text ∧ ∀ n, (c.run b').bufGetContent n = b'.bufGetContent n := by
  intro b' s'
  have h : s'.In b' := (b.split_in hgap hfits).steps calls
  refine ⟨⟨h.gap, Shows.fits h⟩, h.length, h.charAt, Shows.gapStart h, h.content, fun c hc => ?_⟩
  have hsame := GapCall.text_step hc s'
  refine ⟨hsame, fun n => ?_⟩
  rw [(h.step c).content, hsame, h.content]

theorem gap_buffer_refines_blank :
    let b' := [GapCall.load [65, 66], .moveLeft, .insert 67].foldl GapCall.run blankBuffer
    let s' := [GapCall.load [65, 66], .moveLeft, .insert 67].foldl GapCall.step blankBuffer.split
    (b'.gapStart ≤ b'.gapEnd ∧ b'.gapEnd ≤ bufferSize) ∧
      b'.bufLength = s'.text.length ∧ (∀ pos, b'.bufCharAt pos = s'.text.getD pos 0) ∧
      b'.bufCursorPos = s'.before.length ∧ (∀ n, b'.bufGetContent n = s'.text.take n) ∧
      ∀ c : GapCall, c.IsMove → (c.step s').text = s'.text ∧ ∀ n, (c.run b').bufGetContent n = b'.bufGetContent n :=
  gap_buffer_refines (Nat.le_refl _) (Nat.zero_le _) [.load [65, 66], .moveLeft, .insert 67]

end RainbowOs.Editor
