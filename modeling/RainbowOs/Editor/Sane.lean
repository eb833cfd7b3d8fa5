import RainbowOs.Editor.Walks

/-!
# Buffers in order

Whatever functions of the buffer are called, the buffer is at some place of
some log, and has a text. A call that is no edit leaves the text.
-/

namespace RainbowOs.Editor

open RainbowOs.Lib

/-- The call moves the cursor. -/
def BufCall.IsMove : BufCall → Prop
  | moveLeft | moveRight | moveTo _ => True
  | _ => False

/-- The call leaves the text. -/
def BufCall.IsQuiet : BufCall → Prop
  | moveLeft | moveRight | moveTo _ | undoBoundary => True
  | _ => False

theorem BufCall.IsMove.edit {c : BufCall} (h : c.IsMove) : c.IsEdit := by
  cases c <;> trivial

theorem BufCall.IsMove.quiet {c : BufCall} (h : c.IsMove) : c.IsQuiet := by
  cases c <;> trivial

/-- The buffer is at some place of some log. -/
def Buffer.Sane (b : Buffer) (replaying : Bool) : Prop := ∃ p f t, LogAt b replaying p f t

section Sane

variable {b : Buffer} {p f : List (Option UndoEntry)} {t : List UInt8} {rep : Bool}

theorem Shows.insert_replayed {l r : List UInt8} (h : Shows b l r) (hrep : b.undoReplaying = true) (c : UInt8) :
    ∃ t, (b.bufInsert c).Has t ∧ (b.bufInsert c).log = b.log := by
  by_cases hroom : l.length + r.length < bufferSize
  · obtain ⟨hshows, hlog⟩ := h.insert c hroom
    exact ⟨_, hshows.has, hlog.trans (by rw [undoPush_replaying hrep])⟩
  · rw [h.insert_full hroom c]
    exact ⟨_, h.has, rfl⟩

theorem Shows.deleteFwd_replayed {l r : List UInt8} (h : Shows b l r) (hrep : b.undoReplaying = true) :
    ∃ t, b.bufDeleteFwd.Has t ∧ b.bufDeleteFwd.log = b.log := by
  cases r with
  | nil =>
    rw [h.deleteFwd_nil]
    exact ⟨_, h.has, rfl⟩
  | cons c r =>
    obtain ⟨hshows, hlog⟩ := h.deleteFwd
    exact ⟨_, hshows.has, hlog.trans (by rw [undoPush_replaying hrep])⟩

/-- An entry is replayed at its position, whatever it says. -/
theorem Buffer.Has.replayed (h : b.Has t) (hrep : b.undoReplaying = true) (pos : Nat) (c : UInt8) :
    (∃ t, ((b.bufMoveTo pos).bufInsert c).Has t ∧ ((b.bufMoveTo pos).bufInsert c).log = b.log) ∧
    ∃ t, (b.bufMoveTo pos).bufDeleteFwd.Has t ∧ (b.bufMoveTo pos).bufDeleteFwd.log = b.log := by
  obtain ⟨l, r, hshows, -⟩ := h
  obtain ⟨hmoved, hlog⟩ := hshows.moveTo pos
  have hrep' := (replaying_congr hlog).trans hrep
  obtain ⟨t₁, hhas₁, hlog₁⟩ := hmoved.insert_replayed hrep' c
  obtain ⟨t₂, hhas₂, hlog₂⟩ := hmoved.deleteFwd_replayed hrep'
  exact ⟨⟨t₁, hhas₁, hlog₁.trans hlog⟩, t₂, hhas₂, hlog₂.trans hlog⟩

theorem LogAt.undoLoop_sane (h : LogAt b true p f t) : (Buffer.undoLoop p.length b).Sane true := by
  induction p generalizing b f t with
  | nil => exact ⟨_, _, _, h⟩
  | cons x p ih =>
    obtain ⟨hx, hback⟩ := h.stepBack
    rw [List.length_cons, Buffer.undoLoop]
    split
    · exact ⟨_, _, _, h⟩
    · obtain ⟨⟨t₁, hhas₁, hlog₁⟩, t₂, hhas₂, hlog₂⟩ :=
        hback.has.replayed hback.on b.lastEntry.pos b.lastEntry.ch
      unfold Buffer.undoEntry
      cases b.lastEntry.type with
      | insert => exact ih (hback.entry hlog₂ hhas₂)
      | delete => exact ih (hback.entry hlog₁ hhas₁)
      | boundary => exact ih hback

theorem LogAt.redoLoop_sane (h : LogAt b true p f t) : (Buffer.redoLoop f.length b).Sane true := by
  induction f generalizing b p t with
  | nil => exact ⟨_, _, _, h⟩
  | cons x f ih =>
    obtain ⟨hx, hforward⟩ := h.stepForward
    rw [List.length_cons, Buffer.redoLoop]
    split
    · exact ⟨_, _, _, h⟩
    · obtain ⟨⟨t₁, hhas₁, hlog₁⟩, t₂, hhas₂, hlog₂⟩ :=
        hforward.has.replayed hforward.on (b.undoStack b.undoTop).pos (b.undoStack b.undoTop).ch
      unfold Buffer.redoEntry
      cases (b.undoStack b.undoTop).type with
      | insert => exact ih (hforward.entry hlog₁ hhas₁)
      | delete => exact ih (hforward.entry hlog₂ hhas₂)
      | boundary => exact ih hforward

theorem Buffer.Sane.setReplaying (h : b.Sane rep) (rep' : Bool) :
    Buffer.Sane { b with undoReplaying := rep' } rep' := by
  obtain ⟨p, f, t, h⟩ := h
  exact ⟨p, f, t, h.setReplaying rep'⟩

theorem Buffer.Sane.undo (h : b.Sane false) : b.bufUndo.2.Sane false := by
  obtain ⟨p, f, t, h⟩ := h
  have hmark := h.backOverMark
  rw [bufUndo_eq, Buffer.undoGroup]
  split
  · exact ⟨_, _, _, hmark⟩
  · have hloop := (hmark.setReplaying true).undoLoop_sane.setReplaying false
    rwa [← hmark.undoCount] at hloop

theorem Buffer.Sane.redo (h : b.Sane false) : b.bufRedo.2.Sane false := by
  obtain ⟨p, f, t, h⟩ := h
  have hmark := h.forwardOverMark
  rw [bufRedo_eq, Buffer.redoGroup]
  split
  · exact ⟨_, _, _, hmark⟩
  · have hloop := (hmark.setReplaying true).redoLoop_sane.setReplaying false
    rwa [← hmark.redoCount] at hloop

/-- Every call leaves the buffer in order. -/
theorem Buffer.Sane.call (h : b.Sane false) (c : BufCall) : (c.run b).Sane false := by
  by_cases hc : c.IsEdit
  · obtain ⟨p, f, t, h⟩ := h
    obtain ⟨t', h', -⟩ := h.call hc
    exact ⟨_, _, _, h'⟩
  · cases c with
    | undo => exact h.undo
    | redo => exact h.redo
    | undoBoundary =>
      obtain ⟨p, f, t, h⟩ := h
      exact ⟨_, _, _, h.boundary⟩
    | _ => exact absurd trivial hc

theorem Buffer.Sane.runs (h : b.Sane false) (calls : List BufCall) : (b.runs calls).Sane false := by
  induction calls generalizing b with
  | nil => exact h
  | cons c calls ih => exact ih (h.call c)

/-- A call that is no edit leaves the text. -/
theorem Buffer.Has.quiet (h : b.Has t) {c : BufCall} (hc : c.IsQuiet) : (c.run b).Has t := by
  obtain ⟨l, r, hshows, rfl⟩ := h
  cases c with
  | moveLeft =>
    show b.bufMoveLeft.Has (l ++ r)
    cases l using List.reverseRecOn with
    | nil =>
      rw [hshows.moveLeft_nil]
      exact hshows.has
    | append_singleton l c => exact ⟨l, c :: r, hshows.moveLeft, (List.append_assoc l [c] r).symm⟩
  | moveRight =>
    show b.bufMoveRight.Has (l ++ r)
    cases r with
    | nil =>
      rw [hshows.moveRight_nil]
      exact hshows.has
    | cons c r => exact ⟨l ++ [c], r, hshows.moveRight, List.append_assoc l [c] r⟩
  | moveTo pos => exact ⟨_, _, (hshows.moveTo pos).1, List.take_append_drop pos (l ++ r)⟩
  | undoBoundary =>
    show b.bufUndoBoundary.Has (l ++ r)
    unfold Buffer.bufUndoBoundary
    split
    · exact hshows.has
    · split
      · exact hshows.has
      · exact (hshows.undoPush .boundary 0 0).has
  | _ => exact hc.elim

theorem text_runs_quiet (h : b.Sane false) {calls : List BufCall} (hcalls : ∀ c ∈ calls, c.IsQuiet) :
    (b.runs calls).text = b.text := by
  obtain ⟨p, f, t, h⟩ := h
  have hhas := h.has
  rw [hhas.text]
  clear h
  induction calls generalizing b with
  | nil => exact hhas.text
  | cons c calls ih =>
    exact ih (fun c hc => hcalls c (List.mem_cons_of_mem _ hc)) (hhas.quiet (hcalls c List.mem_cons_self))

end Sane

end RainbowOs.Editor
