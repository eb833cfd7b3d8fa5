import RainbowOs.Editor.Text
import RainbowOs.Lib.History

/-!
# The undo log

The ring of entries as a history: what `buf_undo` takes back lies behind its
top, what `buf_redo` does again lies ahead of it, and the boundaries are the
marks. An entry is recorded behind the top, which forgets what is ahead, and
where the ring is full the oldest entry.
-/

namespace RainbowOs.Editor

open RainbowOs.Lib

/-- An entry of the log, or a mark. -/
def UndoEntry.toOption (e : UndoEntry) : Option UndoEntry := if e.type = .boundary then none else some e

/-- A character more, where it fits. -/
def Inserted (pos : Nat) (ch : UInt8) (t t' : List UInt8) : Prop :=
  pos ≤ t.length ∧ t.length < bufferSize ∧ t' = t.take pos ++ ch :: t.drop pos

/-- What an entry says of the text. -/
def UndoEntry.Step (e : UndoEntry) (t t' : List UInt8) : Prop :=
  match e.type with
  | .insert => Inserted e.pos e.ch t t'
  | .delete => Inserted e.pos e.ch t' t
  | .boundary => False

namespace Buffer

variable (b : Buffer)

/-- What can be undone, the last entry first. -/
def past : List (Option UndoEntry) :=
  (Ring.behind undoStackSize b.undoStack b.undoTop b.undoCount).map UndoEntry.toOption

/-- What can be redone, the next entry first. -/
def future : List (Option UndoEntry) :=
  (Ring.ahead undoStackSize b.undoStack b.undoTop b.redoCount).map UndoEntry.toOption

/-- The indices of the log are in order. -/
structure LogOk : Prop where
  top : b.undoTop < undoStackSize
  count : b.undoCount + b.redoCount ≤ undoStackSize

/-- The text of a buffer, wherever its cursor is. -/
def Has (t : List UInt8) : Prop := ∃ l r, Shows b l r ∧ l ++ r = t

end Buffer

section Log

variable {b b' : Buffer} {t t' : List UInt8} {e : UndoEntry}

theorem log_eq (h : b.log = b'.log) : b.undoStack = b'.undoStack ∧ b.undoTop = b'.undoTop ∧
    b.undoCount = b'.undoCount ∧ b.redoCount = b'.redoCount ∧ b.undoReplaying = b'.undoReplaying := by
  simpa [Buffer.log] using h

theorem past_congr (h : b.log = b'.log) : b.past = b'.past := by
  obtain ⟨hstack, htop, hcount, -, -⟩ := log_eq h
  rw [Buffer.past, Buffer.past, hstack, htop, hcount]

theorem future_congr (h : b.log = b'.log) : b.future = b'.future := by
  obtain ⟨hstack, htop, -, hcount, -⟩ := log_eq h
  rw [Buffer.future, Buffer.future, hstack, htop, hcount]

theorem replaying_congr (h : b.log = b'.log) : b.undoReplaying = b'.undoReplaying := (log_eq h).2.2.2.2

theorem Buffer.LogOk.congr (hok : b'.LogOk) (h : b.log = b'.log) : b.LogOk := by
  obtain ⟨-, htop, hundo, hredo, -⟩ := log_eq h
  exact ⟨htop ▸ hok.top, by rw [hundo, hredo]; exact hok.count⟩

@[simp] theorem length_past (b : Buffer) : b.past.length = b.undoCount := by
  rw [Buffer.past, List.length_map, Ring.length_behind]

@[simp] theorem length_future (b : Buffer) : b.future.length = b.redoCount := by
  rw [Buffer.future, List.length_map, Ring.length_ahead]

/-- An entry is recorded. -/
theorem undoPush_log (hok : b.LogOk) (hrec : b.undoReplaying = false) (type : UndoType) (pos : Nat)
    (ch : UInt8) : (b.undoPush type pos ch).LogOk ∧
      (b.undoPush type pos ch).undoReplaying = false ∧
      (b.undoPush type pos ch).past =
        ((UndoEntry.mk type pos ch).toOption :: b.past).take undoStackSize ∧
      (b.undoPush type pos ch).future = [] := by
  have htop := hok.top
  have hcount := hok.count
  rw [Buffer.undoPush, if_neg (by simp [hrec])]
  refine ⟨⟨Ring.next_lt (by decide) _, ?_⟩, hrec, ?_, rfl⟩
  · show (if b.undoCount < undoStackSize then b.undoCount + 1 else b.undoCount) + 0 ≤ undoStackSize
    split <;> omega
  · show (Ring.behind undoStackSize (Function.update b.undoStack b.undoTop ⟨type, pos, ch⟩)
      (Ring.next undoStackSize b.undoTop)
      (if b.undoCount < undoStackSize then b.undoCount + 1 else b.undoCount)).map _ = _
    split
    · next hlt =>
      rw [Ring.behind_next htop, Ring.behind_update htop hlt, Function.update_self, List.map_cons,
        List.take_of_length_le]
      · rfl
      · rw [List.length_cons, length_past]
        exact hlt
    · next hfull =>
      have hfull : b.undoCount = 2047 + 1 := Nat.le_antisymm (Nat.le_of_add_right_le hcount) (Nat.not_lt.mp hfull)
      rw [Buffer.past, hfull, Ring.behind_next htop, Ring.behind_update htop (by decide),
        Function.update_self, List.map_cons, List.take_succ_cons, ← List.map_take, Ring.take_behind (by decide)]

/-- While entries are replayed, none is recorded. -/
theorem undoPush_replaying (hrep : b.undoReplaying = true) (type : UndoType) (pos : Nat) (ch : UInt8) :
    b.undoPush type pos ch = b := if_pos hrep

theorem past_eq (h : b.undoCount ≠ 0) : b.past =
    b.lastEntry.toOption :: b.stepBack.past := by
  obtain ⟨n, hn⟩ := Nat.exists_eq_succ_of_ne_zero h
  simp only [Buffer.past, Buffer.stepBack, Buffer.lastEntry, hn, Ring.behind, List.map_cons,
    Nat.succ_sub_one, Ring.prev]

theorem future_eq (h : b.redoCount ≠ 0) :
    b.future = (b.undoStack b.undoTop).toOption :: b.stepForward.future := by
  obtain ⟨n, hn⟩ := Nat.exists_eq_succ_of_ne_zero h
  simp only [Buffer.future, Buffer.stepForward, hn, Ring.ahead, List.map_cons, Nat.succ_sub_one, Ring.next]

theorem marked_past_iff : History.Marked b.past ↔ b.undoCount ≠ 0 ∧
    b.lastEntry.type = .boundary := by
  by_cases h : b.undoCount = 0
  · have hnil : b.past = [] := List.length_eq_zero_iff.mp ((length_past b).trans h)
    simp [hnil, h]
  · rw [past_eq h, UndoEntry.toOption]
    split
    · next htype => simp [h, htype]
    · next htype => simp [htype]

theorem marked_future_iff : History.Marked b.future ↔
    b.redoCount ≠ 0 ∧ (b.undoStack b.undoTop).type = .boundary := by
  by_cases h : b.redoCount = 0
  · have hnil : b.future = [] := List.length_eq_zero_iff.mp ((length_future b).trans h)
    simp [hnil, h]
  · rw [future_eq h, UndoEntry.toOption]
    split
    · next htype => simp [h, htype]
    · next htype => simp [htype]

end Log

/-! ## Replaying -/

section Replay

variable {b : Buffer} {t t' : List UInt8} {e : UndoEntry} {pos : Nat} {ch : UInt8} {rep : Bool}

theorem Shows.has {l r : List UInt8} (h : Shows b l r) : b.Has (l ++ r) := ⟨l, r, h, rfl⟩

theorem Buffer.Has.text (h : b.Has t) : b.text = t := by
  obtain ⟨l, r, hshows, rfl⟩ := h
  exact hshows.text

/-- A character is put at its position. -/
theorem Buffer.Has.insertAt (h : b.Has t) (hins : Inserted pos ch t t') :
    ((b.bufMoveTo pos).bufInsert ch).Has t' ∧
      ((b.bufMoveTo pos).bufInsert ch).log = ((b.bufMoveTo pos).undoPush .insert pos ch).log := by
  obtain ⟨l, r, hshows, rfl⟩ := h
  obtain ⟨hpos, hroom, rfl⟩ := hins
  obtain ⟨hmoved, -⟩ := hshows.moveTo pos
  have hlength : ((l ++ r).take pos).length = pos := List.length_take_of_le hpos
  have hsum : ((l ++ r).take pos).length + ((l ++ r).drop pos).length < bufferSize := by
    rwa [← List.length_append, List.take_append_drop]
  obtain ⟨hinsert, hlog⟩ := hmoved.insert ch hsum
  rw [hlength] at hlog
  refine ⟨?_, hlog⟩
  have hhas := hinsert.has
  rwa [List.append_assoc] at hhas

/-- A character is taken from its position. -/
theorem Buffer.Has.deleteAt (h : b.Has t') (hins : Inserted pos ch t t') :
    (b.bufMoveTo pos).bufDeleteFwd.Has t ∧
      (b.bufMoveTo pos).bufDeleteFwd.log = ((b.bufMoveTo pos).undoPush .delete pos ch).log := by
  obtain ⟨l, r, hshows, htext⟩ := h
  obtain ⟨hpos, -, rfl⟩ := hins
  obtain ⟨hmoved, -⟩ := hshows.moveTo pos
  have hlength : (t.take pos).length = pos := List.length_take_of_le hpos
  rw [htext, List.take_left' hlength, List.drop_left' hlength] at hmoved
  obtain ⟨hdelete, hlog⟩ := hmoved.deleteFwd
  rw [hlength] at hlog
  refine ⟨?_, hlog⟩
  have hhas := hdelete.has
  rwa [List.take_append_drop] at hhas

theorem log_moveTo (h : b.Has t) (pos : Nat) : (b.bufMoveTo pos).log = b.log := by
  obtain ⟨l, r, hshows, -⟩ := h
  exact (hshows.moveTo pos).2

/-- Replayed, an edit records nothing. -/
theorem log_replayed (h : b.Has t) (hrep : b.undoReplaying = true) {b' : Buffer} {type : UndoType}
    (hlog : b'.log = ((b.bufMoveTo pos).undoPush type pos ch).log) : b'.log = b.log := by
  have hmoved := log_moveTo h pos
  rw [undoPush_replaying ((replaying_congr hmoved).trans hrep)] at hlog
  exact hlog.trans hmoved

/-- An entry is taken back. -/
theorem Buffer.Has.undoEntry (h : b.Has t') (hrep : b.undoReplaying = true) (he : e.Step t t') :
    (b.undoEntry e).Has t ∧ (b.undoEntry e).log = b.log := by
  unfold UndoEntry.Step at he
  unfold Buffer.undoEntry
  cases htype : e.type with
  | insert =>
    rw [htype] at he
    obtain ⟨hhas, hlog⟩ := h.deleteAt he
    exact ⟨hhas, log_replayed h hrep hlog⟩
  | delete =>
    rw [htype] at he
    obtain ⟨hhas, hlog⟩ := h.insertAt he
    exact ⟨hhas, log_replayed h hrep hlog⟩
  | boundary =>
    rw [htype] at he
    exact he.elim

/-- An entry is done again. -/
theorem Buffer.Has.redoEntry (h : b.Has t) (hrep : b.undoReplaying = true) (he : e.Step t t') :
    (b.redoEntry e).Has t' ∧ (b.redoEntry e).log = b.log := by
  unfold UndoEntry.Step at he
  unfold Buffer.redoEntry
  cases htype : e.type with
  | insert =>
    rw [htype] at he
    obtain ⟨hhas, hlog⟩ := h.insertAt he
    exact ⟨hhas, log_replayed h hrep hlog⟩
  | delete =>
    rw [htype] at he
    obtain ⟨hhas, hlog⟩ := h.deleteAt he
    exact ⟨hhas, log_replayed h hrep hlog⟩
  | boundary =>
    rw [htype] at he
    exact he.elim

theorem toOption_boundary (h : e.type = .boundary) : e.toOption = none := if_pos h

theorem toOption_edit (h : ¬e.type = .boundary) : e.toOption = some e := if_neg h

/-- The text is in the array alone. -/
theorem Buffer.Has.congr {b' : Buffer} (h : b.Has t) (hbuf : b'.buf = b.buf)
    (hstart : b'.gapStart = b.gapStart) (hend : b'.gapEnd = b.gapEnd) : b'.Has t := by
  obtain ⟨l, r, hshows, htext⟩ := h
  refine ⟨l, r, ⟨?_, ?_, ?_, ?_⟩, htext⟩
  · rw [hstart, hend]
    exact hshows.gap
  · rw [hend]
    exact hshows.fits
  · rw [hbuf, hstart]
    exact hshows.left
  · rw [hbuf, hend]
    exact hshows.right

/-- Moving the top touches the log alone. -/
theorem stepBack_keeps (b : Buffer) : b.stepBack.buf = b.buf ∧ b.stepBack.gapStart = b.gapStart ∧
    b.stepBack.gapEnd = b.gapEnd ∧ b.stepBack.undoReplaying = b.undoReplaying := by
  simp only [Buffer.stepBack, and_self]

theorem stepForward_keeps (b : Buffer) : b.stepForward.buf = b.buf ∧
    b.stepForward.gapStart = b.gapStart ∧ b.stepForward.gapEnd = b.gapEnd ∧
    b.stepForward.undoReplaying = b.undoReplaying := by
  simp only [Buffer.stepForward, and_self]

/-- A place of the log, and the text there. -/
structure LogAt (b : Buffer) (replaying : Bool) (past future : List (Option UndoEntry))
    (t : List UInt8) : Prop where
  ok : b.LogOk
  on : b.undoReplaying = replaying
  past : b.past = past
  future : b.future = future
  has : b.Has t

theorem LogAt.stepBack {p f : List (Option UndoEntry)} {x : Option UndoEntry}
    (h : LogAt b rep (x :: p) f t) : b.lastEntry.toOption = x ∧
      LogAt b.stepBack rep p (x :: f) t := by
  have hpast := h.past
  have hcount : b.undoCount ≠ 0 := by
    rw [← length_past, hpast]
    exact Nat.succ_ne_zero _
  rw [past_eq hcount] at hpast
  obtain ⟨hx, hp⟩ := List.cons.inj hpast
  have hok := h.ok
  have htop := hok.top
  have hsum := hok.count
  obtain ⟨hbuf, hstart, hend, hrep⟩ := stepBack_keeps b
  refine ⟨hx, ⟨Nat.mod_lt _ (by decide), ?_⟩, hrep.trans h.on, hp, ?_, h.has.congr hbuf hstart hend⟩
  · show b.undoCount - 1 + (b.redoCount + 1) ≤ undoStackSize
    omega
  · have hprev : (b.undoTop + undoStackSize - 1) % undoStackSize = Ring.prev undoStackSize b.undoTop := by
      rw [Ring.prev]
    rw [← hx, ← h.future]
    simp only [Buffer.future, Buffer.stepBack, Buffer.lastEntry, hprev, Ring.ahead_prev htop, List.map_cons]

theorem LogAt.stepForward {p f : List (Option UndoEntry)} {x : Option UndoEntry}
    (h : LogAt b rep p (x :: f) t) : (b.undoStack b.undoTop).toOption = x ∧
      LogAt b.stepForward rep (x :: p) f t := by
  have hfuture := h.future
  have hcount : b.redoCount ≠ 0 := by
    rw [← length_future, hfuture]
    exact Nat.succ_ne_zero _
  rw [future_eq hcount] at hfuture
  obtain ⟨hx, hf⟩ := List.cons.inj hfuture
  have hok := h.ok
  have htop := hok.top
  have hsum := hok.count
  obtain ⟨hbuf, hstart, hend, hrep⟩ := stepForward_keeps b
  refine ⟨hx, ⟨Nat.mod_lt _ (by decide), ?_⟩, hrep.trans h.on, ?_, hf, h.has.congr hbuf hstart hend⟩
  · show b.undoCount + 1 + (b.redoCount - 1) ≤ undoStackSize
    omega
  · have hnext : (b.undoTop + 1) % undoStackSize = Ring.next undoStackSize b.undoTop := by
      rw [Ring.next]
    rw [← hx, ← h.past]
    simp only [Buffer.past, Buffer.stepForward, hnext, Ring.behind_next htop, List.map_cons]

theorem LogAt.entry {p f : List (Option UndoEntry)} (h : LogAt b rep p f t) {b' : Buffer}
    (hlog : b'.log = b.log) (hhas : b'.Has t') : LogAt b' rep p f t' :=
  ⟨h.ok.congr hlog, (replaying_congr hlog).trans h.on, (past_congr hlog).trans h.past,
    (future_congr hlog).trans h.future, hhas⟩

open History in
/-- The loop of `buf_undo` takes back the entries up to a mark. -/
theorem LogAt.undoLoop {p f : List (Option UndoEntry)} {c : List UInt8} (h : LogAt b true p f t)
    (hgroup : Unchain UndoEntry.Step (group p) t c) :
    LogAt (Buffer.undoLoop p.length b) true (rest p) ((group p).reverse.map some ++ f) c := by
  induction p generalizing b t f with
  | nil =>
    obtain rfl : t = c := hgroup
    exact h
  | cons x p ih =>
    obtain ⟨hx, hback⟩ := h.stepBack
    rw [List.length_cons, Buffer.undoLoop]
    split
    · next htype =>
      rw [toOption_boundary htype] at hx
      subst hx
      obtain rfl : t = c := hgroup
      exact h
    · next htype =>
      rw [toOption_edit htype] at hx
      subst hx
      obtain ⟨s, hstep, hrest⟩ := hgroup
      obtain ⟨hhas, hlog⟩ := hback.has.undoEntry hback.on hstep
      have hloop := ih (hback.entry hlog hhas) hrest
      rw [group, rest, List.reverse_cons, List.map_append, List.append_assoc]
      exact hloop

open History in
/-- The loop of `buf_redo` does the entries again up to a mark. -/
theorem LogAt.redoLoop {p f : List (Option UndoEntry)} {c : List UInt8} (h : LogAt b true p f t)
    (hgroup : Chain UndoEntry.Step (group f) t c) :
    LogAt (Buffer.redoLoop f.length b) true ((group f).reverse.map some ++ p) (rest f) c := by
  induction f generalizing b t p with
  | nil =>
    obtain rfl : t = c := hgroup
    exact h
  | cons x f ih =>
    obtain ⟨hx, hforward⟩ := h.stepForward
    rw [List.length_cons, Buffer.redoLoop]
    split
    · next htype =>
      rw [toOption_boundary htype] at hx
      subst hx
      obtain rfl : t = c := hgroup
      exact h
    · next htype =>
      rw [toOption_edit htype] at hx
      subst hx
      obtain ⟨s, hstep, hrest⟩ := hgroup
      obtain ⟨hhas, hlog⟩ := hforward.has.redoEntry hforward.on hstep
      have hloop := ih (hforward.entry hlog hhas) hrest
      rw [group, rest, List.reverse_cons, List.map_append, List.append_assoc]
      exact hloop

theorem LogAt.setReplaying {p f : List (Option UndoEntry)} (h : LogAt b rep p f t) (rep' : Bool) :
    LogAt { b with undoReplaying := rep' } rep' p f t :=
  ⟨⟨h.ok.top, h.ok.count⟩, rfl, h.past, h.future, h.has.congr rfl rfl rfl⟩

/-- The start of `buf_undo`: a mark that is next is gone over. -/
def Buffer.backOverMark (b : Buffer) : Buffer :=
  if b.undoCount ≠ 0 ∧ b.lastEntry.type = .boundary then b.stepBack else b

/-- The start of `buf_redo`. -/
def Buffer.forwardOverMark (b : Buffer) : Buffer :=
  if b.redoCount ≠ 0 ∧ (b.undoStack b.undoTop).type = .boundary then b.stepForward else b

theorem LogAt.backOverMark {p f : List (Option UndoEntry)} (h : LogAt b rep p f t) :
    LogAt b.backOverMark rep (History.skip p) (History.marks p ++ f) t := by
  have hmarked := marked_past_iff (b := b)
  rw [h.past] at hmarked
  rw [Buffer.backOverMark]
  split
  · next hnext =>
    obtain ⟨p, rfl⟩ := List.head?_eq_some_iff.mp (hmarked.mpr hnext)
    exact h.stepBack.2
  · next hnext =>
    obtain ⟨hskip, hmarks⟩ := History.skip_of_not_marked (mt hmarked.mp hnext)
    rwa [hskip, hmarks]

theorem LogAt.forwardOverMark {p f : List (Option UndoEntry)} (h : LogAt b rep p f t) :
    LogAt b.forwardOverMark rep (History.marks f ++ p) (History.skip f) t := by
  have hmarked := marked_future_iff (b := b)
  rw [h.future] at hmarked
  rw [Buffer.forwardOverMark]
  split
  · next hnext =>
    obtain ⟨f, rfl⟩ := List.head?_eq_some_iff.mp (hmarked.mpr hnext)
    exact h.stepForward.2
  · next hnext =>
    obtain ⟨hskip, hmarks⟩ := History.skip_of_not_marked (mt hmarked.mp hnext)
    rwa [hskip, hmarks]

theorem LogAt.undoCount {p f : List (Option UndoEntry)} (h : LogAt b rep p f t) :
    b.undoCount = p.length := by
  rw [← length_past, h.past]

theorem LogAt.redoCount {p f : List (Option UndoEntry)} (h : LogAt b rep p f t) :
    b.redoCount = f.length := by
  rw [← length_future, h.future]

/-- The rest of `buf_undo`. -/
def Buffer.undoGroup (b : Buffer) : Bool × Buffer :=
  if b.undoCount = 0 then (false, b)
  else (true, { undoLoop b.undoCount { b with undoReplaying := true } with undoReplaying := false })

/-- The rest of `buf_redo`. -/
def Buffer.redoGroup (b : Buffer) : Bool × Buffer :=
  if b.redoCount = 0 then (false, b)
  else (true, { redoLoop b.redoCount { b with undoReplaying := true } with undoReplaying := false })

theorem bufUndo_eq (b : Buffer) : b.bufUndo = b.backOverMark.undoGroup := by
  unfold Buffer.bufUndo Buffer.backOverMark Buffer.undoGroup
  by_cases hzero : b.undoCount = 0
  · simp [hzero]
  · by_cases htype : b.lastEntry.type = .boundary
    · simp [hzero, htype]
    · simp [hzero, htype]

theorem bufRedo_eq (b : Buffer) : b.bufRedo = b.forwardOverMark.redoGroup := by
  unfold Buffer.bufRedo Buffer.forwardOverMark Buffer.redoGroup
  by_cases hzero : b.redoCount = 0
  · simp [hzero]
  · by_cases htype : (b.undoStack b.undoTop).type = .boundary
    · simp [hzero, htype]
    · simp [hzero, htype]

section Walks

open History

variable {p f : List (Option UndoEntry)} {c : List UInt8}

/-- `buf_undo` walks back. -/
theorem LogAt.bufUndo (h : LogAt b false p f t) (hgroup : Unchain UndoEntry.Step (group (skip p)) t c)
    (hne : skip p ≠ []) : b.bufUndo.1 = true ∧ LogAt b.bufUndo.2 false (walk p f).1 (walk p f).2 c := by
  have hskip := h.backOverMark
  have hcount := hskip.undoCount
  rw [bufUndo_eq, Buffer.undoGroup, if_neg (by rw [hcount]; exact mt List.length_eq_zero_iff.mp hne)]
  refine ⟨rfl, ?_⟩
  have hloop := ((hskip.setReplaying true).undoLoop hgroup).setReplaying false
  rw [← hcount] at hloop
  exact hloop

/-- `buf_undo` has nothing to take back. -/
theorem LogAt.bufUndo_nil (h : LogAt b false p f t) (hnil : skip p = []) :
    b.bufUndo.1 = false ∧ LogAt b.bufUndo.2 false [] (marks p ++ f) t := by
  have hskip := h.backOverMark
  have hcount := hskip.undoCount
  rw [hnil] at hskip
  rw [hnil, List.length_nil] at hcount
  rw [bufUndo_eq, Buffer.undoGroup, if_pos hcount]
  exact ⟨rfl, hskip⟩

/-- `buf_redo` walks forward. -/
theorem LogAt.bufRedo (h : LogAt b false p f t) (hgroup : Chain UndoEntry.Step (group (skip f)) t c)
    (hne : skip f ≠ []) : b.bufRedo.1 = true ∧ LogAt b.bufRedo.2 false (walk f p).2 (walk f p).1 c := by
  have hskip := h.forwardOverMark
  have hcount := hskip.redoCount
  rw [bufRedo_eq, Buffer.redoGroup, if_neg (by rw [hcount]; exact mt List.length_eq_zero_iff.mp hne)]
  refine ⟨rfl, ?_⟩
  have hloop := ((hskip.setReplaying true).redoLoop hgroup).setReplaying false
  rw [← hcount] at hloop
  exact hloop

theorem LogAt.bufRedo_nil (h : LogAt b false p f t) (hnil : skip f = []) :
    b.bufRedo.1 = false ∧ LogAt b.bufRedo.2 false (marks f ++ p) [] t := by
  have hskip := h.forwardOverMark
  have hcount := hskip.redoCount
  rw [hnil] at hskip
  rw [hnil, List.length_nil] at hcount
  rw [bufRedo_eq, Buffer.redoGroup, if_pos hcount]
  exact ⟨rfl, hskip⟩

/-- `buf_undo_boundary` marks the place, unless there is nothing before it or a mark. -/
theorem LogAt.boundary (h : LogAt b false p f t) :
    LogAt b.bufUndoBoundary false ((mark p).take undoStackSize) (aheadOfMark p f) t := by
  have hmarked := marked_past_iff (b := b)
  have hcount := h.undoCount
  have hle : p.length ≤ undoStackSize := by
    rw [← hcount]
    exact Nat.le_of_add_right_le h.ok.count
  rw [h.past] at hmarked
  unfold Buffer.bufUndoBoundary
  cases p with
  | nil =>
    rw [List.length_nil] at hcount
    rw [if_pos hcount]
    exact h
  | cons x p =>
    rw [if_neg (by rw [hcount]; exact Nat.succ_ne_zero _)]
    cases x with
    | none =>
      have hsame : mark (none :: p) = none :: p := rfl
      rw [if_pos (hmarked.mp rfl).2, hsame, List.take_of_length_le hle]
      exact h
    | some e =>
      have hlast : ¬b.lastEntry.type = .boundary := by
        intro htype
        refine not_marked_some_cons e p (hmarked.mpr ⟨?_, htype⟩)
        rw [hcount]
        exact Nat.succ_ne_zero _
      rw [if_neg hlast]
      obtain ⟨hok, hrep, hpast, hfuture⟩ := undoPush_log h.ok h.on .boundary 0 0
      obtain ⟨hbuf, hstart, hend⟩ := undoPush_gap b .boundary 0 0
      rw [h.past] at hpast
      exact ⟨hok, hrep, hpast, hfuture, h.has.congr hbuf hstart hend⟩

end Walks

end Replay

end RainbowOs.Editor
