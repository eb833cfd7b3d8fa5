import RainbowOs.Editor.Modified

/-!
# One undo for one command

The entries of a command form a group of the log, which `u` takes back as far
as the log still has it: all but the last 2047 entries are forgotten, since
`u` records a boundary after them. So `u` restores the text where the entries
that are forgotten have no effect together.
-/

namespace RainbowOs.Editor

open RainbowOs.Lib RainbowOs.Lib.History

/-- What an entry does to a text. -/
def UndoEntry.onText (t : List UInt8) (e : UndoEntry) : List UInt8 :=
  match e.type with
  | .insert => t.take e.pos ++ e.ch :: t.drop e.pos
  | .delete => t.eraseIdx e.pos
  | .boundary => t

/-- The entries of a command that `u` finds no more in the log. -/
def forgotten (es : List UndoEntry) : List UndoEntry := es.take (es.length - (undoStackSize - 1))

section Groups

variable {b : Buffer} {p f : List (Option UndoEntry)} {t t' : List UInt8} {e : UndoEntry}

theorem UndoEntry.Step.onText (h : e.Step t t') : UndoEntry.onText t e = t' := by
  unfold UndoEntry.Step at h
  unfold UndoEntry.onText
  cases htype : e.type with
  | insert =>
    rw [htype] at h
    exact h.2.2.symm
  | delete =>
    rw [htype] at h
    obtain ⟨hpos, -, rfl⟩ := h
    have hlength : (t'.take e.pos).length = e.pos := List.length_take_of_le hpos
    show (t'.take e.pos ++ e.ch :: t'.drop e.pos).eraseIdx e.pos = t'
    rw [List.eraseIdx_append_of_length_le (Nat.le_of_eq hlength), hlength, Nat.sub_self, List.eraseIdx_cons_zero,
      List.take_append_drop]
  | boundary =>
    rw [htype] at h
    exact h.elim

theorem onText_of_chain {es : List UndoEntry} (h : Chain UndoEntry.Step es t t') :
    es.foldl UndoEntry.onText t = t' := by
  induction es generalizing t with
  | nil => exact h
  | cons e es ih =>
    obtain ⟨s, he, hes⟩ := h
    rw [List.foldl_cons, he.onText]
    exact ih hes

theorem edits_of_chain {es : List UndoEntry} (h : Chain UndoEntry.Step es t t') : ∀ e ∈ es, e.type ≠ .boundary := by
  induction es generalizing t with
  | nil => exact nofun
  | cons e es ih =>
    obtain ⟨s, he, hes⟩ := h
    intro x hx htype
    rcases List.mem_cons.mp hx with rfl | hx
    · rw [UndoEntry.Step, htype] at he
      exact he
    · exact ih hes x hx htype

theorem mark_take_mark (p : List (Option UndoEntry)) :
    (mark ((mark p).take undoStackSize)).take undoStackSize = (mark p).take undoStackSize := by
  cases p with
  | nil => rfl
  | cons x p =>
    have hmark : ∃ q, mark (x :: p) = none :: q := by cases x <;> exact ⟨_, rfl⟩
    obtain ⟨q, hq⟩ := hmark
    have htake : (none :: q).take undoStackSize = none :: q.take (undoStackSize - 1) := rfl
    rw [hq, htake]
    show none :: (q.take (undoStackSize - 1)).take (undoStackSize - 1) = _
    rw [List.take_take, Nat.min_self]

/-- Calls that are no edits leave the text, and mark the place or leave the log. -/
theorem LogAt.quiet (h : LogAt b false p f t) {qs : List BufCall} (hqs : ∀ c ∈ qs, c.IsQuiet) :
    ∃ p' f', LogAt (b.runs qs) false p' f' t ∧ (p' = p ∨ p' = (mark p).take undoStackSize) := by
  induction qs generalizing b p f with
  | nil => exact ⟨p, f, h, .inl rfl⟩
  | cons c qs ih =>
    have hc := hqs c List.mem_cons_self
    have hrest := fun d hd => hqs d (List.mem_cons_of_mem c hd)
    have hhas := h.has.quiet hc
    have hmove : (c.run b).log = b.log → ∃ p' f', LogAt (b.runs (c :: qs)) false p' f' t ∧
        (p' = p ∨ p' = (mark p).take undoStackSize) := fun hlog => ih (h.entry hlog hhas) hrest
    cases c with
    | moveLeft => exact hmove (log_moveLeft b)
    | moveRight => exact hmove (log_moveRight b)
    | moveTo pos => exact hmove (log_moveTo h.has pos)
    | undoBoundary =>
      obtain ⟨p', f', hlog, hp'⟩ := ih h.boundary hrest
      refine ⟨p', f', hlog, .inr ?_⟩
      rcases hp' with rfl | rfl
      · rfl
      · exact mark_take_mark p
    | _ => exact hc.elim

theorem closed_take (h : Closed p) (n : Nat) : Closed (p.take n) := by
  cases n with
  | zero => exact .inl rfl
  | succ n =>
    rcases h with rfl | hmarked
    · exact .inl rfl
    · obtain ⟨q, rfl⟩ := List.head?_eq_some_iff.mp hmarked
      exact .inr rfl

/-- `buf_undo` takes the group before a mark back. -/
theorem LogAt.undo_group {kept : List UndoEntry} {older : List (Option UndoEntry)} {s : List UInt8}
    (h : LogAt b false (none :: (kept.reverse.map some ++ older)) f t') (hclosed : Closed older)
    (hchain : Chain UndoEntry.Step kept s t') (hne : kept ≠ []) : b.bufUndo.2.text = s := by
  obtain ⟨hgroup, -⟩ := group_append kept.reverse hclosed
  have hback : Unchain UndoEntry.Step (group (kept.reverse.map some ++ older)) t' s := by
    rw [hgroup]
    exact hchain.reverse
  refine (h.bufUndo hback ?_).2.has.text
  intro hnil
  have hnil : kept.reverse.map some ++ older = [] := hnil
  obtain ⟨hmap, -⟩ := List.append_eq_nil_iff.mp hnil
  exact hne (List.reverse_eq_nil_iff.mp (List.map_eq_nil_iff.mp hmap))

/-- What the log keeps of a group and of the past before it, after a mark. -/
theorem mark_pushed {es : List UndoEntry} (hne : es ≠ []) (p : List (Option UndoEntry)) (n : Nat) :
    (mark ((es.reverse.map some ++ p).take (n + 1))).take (n + 1) =
      none :: ((es.drop (es.length - n)).reverse.map some ++ p.take (n - es.length)) := by
  obtain ⟨x, xs, hx⟩ := List.exists_cons_of_ne_nil (mt List.reverse_eq_nil_iff.mp hne)
  have hmark : mark ((es.reverse.map some ++ p).take (n + 1)) =
      none :: (es.reverse.map some ++ p).take (n + 1) := by
    rw [hx]
    rfl
  have hlength : (es.reverse.map some).length = es.length := by
    rw [List.length_map, List.length_reverse]
  rw [hmark, List.take_succ_cons, List.take_take, Nat.min_eq_left (Nat.le_succ n), List.take_append, hlength,
    ← List.map_take, List.take_reverse]

/-- Undone after edits, the text is what the forgotten entries make of the text before. -/
theorem LogAt.undo_edits (h : LogAt b false p f t) (hclosed : Closed p) {cs qs : List BufCall}
    (hcs : ∀ c ∈ cs, c.IsEdit) (hne : recorded b cs ≠ []) (hqs : ∀ c ∈ qs, c.IsQuiet) :
    ((b.runs cs).runs qs).bufUndoBoundary.bufUndo.2.text =
      (forgotten (recorded b cs)).foldl UndoEntry.onText t := by
  obtain ⟨t', hlog, hchain⟩ := h.calls hcs
  generalize recorded b cs = es at hlog hchain hne ⊢
  obtain ⟨p', f', hquiet, hp'⟩ := hlog.quiet hqs
  have hmarked : (mark p').take undoStackSize = (mark (pushed es p)).take undoStackSize := by
    rcases hp' with rfl | rfl
    · rfl
    · exact mark_take_mark _
  have hboundary := hquiet.boundary
  rw [hmarked] at hboundary
  unfold forgotten
  unfold pushed at hboundary
  -- one entry of the log is the boundary
  obtain ⟨n, hsize⟩ : ∃ n, undoStackSize = n + 1 := ⟨2047, rfl⟩
  rw [hsize, mark_pushed hne p n] at hboundary
  rw [hsize, Nat.add_sub_cancel]
  obtain ⟨s, hlost, hkept⟩ := hchain.cut (es.length - n)
  have hlength := List.length_pos_iff.mpr hne
  have hn : n ≠ 0 := by
    rintro rfl
    cases hsize
  rw [onText_of_chain hlost]
  refine hboundary.undo_group (closed_take hclosed _) hkept ?_
  rw [ne_eq, List.drop_eq_nil_iff]
  omega

end Groups

namespace EditorState

/-! ## The keys after a command -/

/-- `u`, after `ESC` where the command has led to insert mode. -/
def afterwards (e : EditorState) : List Int :=
  if e.mode = .insert then [keyEscape, ch 'u'] else [ch 'u']

variable {e e' : EditorState}

theorem step_escape (hmode : e.mode = .insert) : ∃ e', e.step keyEscape = some e' ∧
    Ran BufCall.IsQuiet e e' ∧ e'.toKeyState = { e.toKeyState with mode := .normal } := by
  obtain ⟨hcore, hkeys, -, -⟩ := clearStatus_keeps e
  have hmode' : e.clearStatus.mode = .insert := (congrArg KeyState.mode hkeys).trans hmode
  obtain ⟨hran, hkeys', -⟩ := handleInsert_escape e.clearStatus
  refine ⟨e.clearStatus.handleInsert keyEscape, ?_, hran.source hcore, ?_⟩
  · rw [step, hmode']
  · rw [hkeys', hkeys]

/-- After a command the keys lead to the text before the last group. -/
theorem steps_afterwards (hk : e.toKeyState.Settled) (hrunning : e.running = true) :
    ∃ e' qs, e.steps e.afterwards = some e' ∧ (∀ c ∈ qs, BufCall.IsQuiet c) ∧
      e'.buffer = (e.buffer.runs qs).bufUndoBoundary.bufUndo.2 := by
  rcases hk.mode with hnormal | hinsert
  · obtain ⟨e', hstep, -, hbuffer⟩ := (Rests.mk hk.toQuiet hnormal hrunning).press (.inl rfl)
    refine ⟨e', [], ?_, nofun, hbuffer⟩
    rw [afterwards, if_neg (by simp [hnormal]), steps, if_pos hrunning, hstep]
    rfl
  · obtain ⟨e₁, hescape, hran, hkeys⟩ := step_escape hinsert
    obtain ⟨qs, hqs, hquiet, -, -, hrun⟩ := hran
    have hk₁ : e₁.toKeyState.Quiet := by
      rw [hkeys]
      exact ⟨hk.awaitingG, hk.awaitingR, hk.awaitingGt, hk.awaitingLt, hk.pendingOperator, hk.repeatCount⟩
    have hrests : e₁.Rests := ⟨hk₁, congrArg KeyState.mode hkeys, hrun.trans hrunning⟩
    obtain ⟨e', hstep, -, hbuffer⟩ := hrests.press (.inl (rfl : ch 'u' = ch 'u'))
    refine ⟨e', qs, ?_, hqs, hquiet ▸ hbuffer⟩
    rw [afterwards, if_pos hinsert, steps, if_pos hrunning, hescape]
    show e₁.steps [ch 'u'] = some e'
    rw [steps, if_pos (hrun.trans hrunning), hstep]
    rfl

/-- The calls that have been made between two states. -/
def newCalls (e e' : EditorState) : List BufCall :=
  (e'.events.drop e.events.length).filterMap fun event =>
    match event with
    | .call c => some c
    | .write _ _ _ => none

/-- The characters that have been inserted and deleted. -/
def changesMade (e e' : EditorState) : List UndoEntry :=
  (recorded e.buffer (newCalls e e')).filter fun x => x.type ≠ .boundary

theorem newCalls_of_events {cs : List BufCall} (h : e'.events = e.events ++ cs.map Event.call) :
    newCalls e e' = cs := by
  rw [newCalls, h, List.drop_left, List.filterMap_map]
  exact List.filterMap_some

/-- What a command that edits has changed is what it has recorded after its boundary. -/
theorem changesMade_of_edits {cs : List BufCall} (hcs : ∀ c ∈ cs, c.IsEdit)
    (hevents : e'.events = (e.call .undoBoundary).events ++ cs.map Event.call) {p f : List (Option UndoEntry)}
    {t : List UInt8} (h : LogAt e.buffer.bufUndoBoundary false p f t) :
    changesMade e e' = recorded e.buffer.bufUndoBoundary cs := by
  have hcalls : newCalls e e' = .undoBoundary :: cs := by
    refine newCalls_of_events ?_
    rw [hevents]
    exact List.append_assoc _ [_] _
  obtain ⟨t', -, hchain⟩ := h.calls hcs
  have hfirst : (BufCall.undoBoundary.entries e.buffer).filter (fun x => x.type ≠ .boundary) = [] := by
    rw [BufCall.entries_undoBoundary]
    split
    · rfl
    · rfl
  rw [changesMade, hcalls, recorded, List.filter_append, hfirst, List.nil_append]
  exact List.filter_eq_self.mpr fun x hx => decide_eq_true (edits_of_chain hchain x hx)

/-- What a key of normal or visual mode does, clearing the message first. -/
theorem effect_step {key : Int} (hk : e.toKeyState.Tidy)
    (hmode : e.mode = .normal ∨ e.mode = .visual ∨ e.mode = .visualLine) (hpress : ¬e.UndoPress key)
    (hstep : e.step key = some e') : Effect e e' := by
  obtain ⟨hcore, hkeys, hflag, -⟩ := clearStatus_keeps e
  have hsame : e.clearStatus.mode = e.mode := congrArg KeyState.mode hkeys
  rw [← hkeys] at hk
  refine Effect.source ?_ hcore hflag
  unfold step at hstep
  dsimp only at hstep
  rcases hmode with hmode | hmode | hmode
  · rw [hsame, hmode] at hstep
    refine Option.some.inj hstep ▸ effect_handleNormal hk (hsame.trans hmode) fun h => hpress ?_
    unfold UndoPress at h ⊢
    rwa [hkeys] at h
  · rw [hsame, hmode] at hstep
    exact Option.some.inj hstep ▸ effect_handleVisual key hk (.inl (hsame.trans hmode))
  · rw [hsame, hmode] at hstep
    exact Option.some.inj hstep ▸ effect_handleVisual key hk (.inr (hsame.trans hmode))

/-- One `u` takes back the last characters that a command has changed. -/
theorem steps_undo (hsane : e.buffer.Sane false) (hrunning : e.running = true) (heffect : Effect e e')
    (hchange : e'.buffer.text ≠ e.buffer.text) : ∃ e'', e'.steps e'.afterwards = some e'' ∧
      e''.buffer.text = (forgotten (changesMade e e')).foldl UndoEntry.onText e.buffer.text := by
  cases heffect with
  | rests ran flag tidy =>
    obtain ⟨cs, hcs, hbuffer, -⟩ := ran
    rw [hbuffer, text_runs_quiet hsane hcs] at hchange
    exact absurd rfl hchange
  | edits ran flag settled =>
    obtain ⟨cs, hcs, hbuffer, hevents, -, hrun⟩ := ran
    obtain ⟨e'', qs, hsteps, hqs, hundone⟩ := steps_afterwards settled (hrun.trans hrunning)
    obtain ⟨p, f, t, hlog⟩ := hsane
    have hmarked := hlog.boundary
    have hne : recorded e.buffer.bufUndoBoundary cs ≠ [] := by
      intro hnil
      obtain ⟨t', hlog', hchain⟩ := hmarked.calls hcs
      rw [hnil] at hchain
      refine hchange ?_
      rw [hbuffer, hlog.has.text]
      exact hlog'.has.text.trans (show t = t' from hchain).symm
    refine ⟨e'', hsteps, ?_⟩
    rw [changesMade_of_edits hcs hevents hmarked, hlog.has.text, hundone, hbuffer]
    exact hmarked.undo_edits (closed_take (closed_mark p) _) hcs hne hqs

end EditorState

/-- A command in normal or visual mode that changes the text is undone by one `u` exactly where the
characters that it has inserted and deleted before the last 2047 leave the text together. -/
theorem undo_restores_iff {before e₀ e e' : EditorState} {fname : Option Fat12.CString} {keys : List Int}
    {key : Int} (hopen : editorOpen before fname = some e₀) (hrun : e₀.steps keys = some e)
    (hrunning : e.running = true) (hmode : e.mode = .normal ∨ e.mode = .visual ∨ e.mode = .visualLine)
    (hpress : ¬e.UndoPress key) (hstep : e.step key = some e') (hchange : e'.buffer.text ≠ e.buffer.text) :
    ∃ e'', e'.steps e'.afterwards = some e'' ∧
      (e''.buffer.text = e.buffer.text ↔
        (forgotten (EditorState.changesMade e e')).foldl UndoEntry.onText e.buffer.text = e.buffer.text) := by
  have hsound := run_sound hopen hrun
  have heffect := EditorState.effect_step hsound.tidy hmode hpress hstep
  obtain ⟨e'', hsteps, htext⟩ := EditorState.steps_undo hsound.sane hrunning heffect hchange
  exact ⟨e'', hsteps, by rw [htext]⟩

open EditorState in
/-- A character is typed and deleted. -/
theorem undo_restores_iff_x : ∃ e₀ e e', editorOpen (bootEditor bootDisk) none = some e₀ ∧
    e₀.steps [ch 'i', ch 'a', keyEscape] = some e ∧ e.step (ch 'x') = some e' ∧
    ∃ e'', e'.steps e'.afterwards = some e'' ∧
      (e''.buffer.text = e.buffer.text ↔
        (forgotten (changesMade e e')).foldl UndoEntry.onText e.buffer.text = e.buffer.text) := by
  have hruns : ((editorOpen (bootEditor bootDisk) none).bind fun e₀ =>
      (e₀.steps [ch 'i', ch 'a', keyEscape]).bind fun e => (e.step (ch 'x')).map fun e' =>
        (e.running, e.mode, e.buffer.text, e'.buffer.text)) = some (true, .normal, [97], []) := by decide
  obtain ⟨e₀, hopen, hruns⟩ := Option.bind_eq_some_iff.mp hruns
  obtain ⟨e, hrun, hruns⟩ := Option.bind_eq_some_iff.mp hruns
  obtain ⟨e', hstep, hends⟩ := Option.map_eq_some_iff.mp hruns
  simp only [Prod.mk.injEq] at hends
  obtain ⟨hrunning, hmode, htext, htext'⟩ := hends
  have hpress : ¬e.UndoPress (ch 'x') := by
    rintro ⟨-, -, -, -, -, -, hkey⟩
    exact absurd hkey (by decide)
  exact ⟨e₀, e, e', hopen, hrun, hstep, undo_restores_iff hopen hrun hrunning (.inl hmode) hpress hstep
    (by rw [htext, htext']; decide)⟩

/-! ## A command that is not undone -/

section Pasting

variable {b : Buffer} {l r : List UInt8}

/-- A character put so many times after the cursor. -/
def pasted (c : UInt8) : Nat → List BufCall
  | 0 => []
  | n + 1 => .moveRight :: .insert c :: pasted c n

theorem Shows.pasteOne (h : Shows b l r) (c : UInt8) (hroom : l.length + r.length < bufferSize) :
    recorded b [.moveRight, .insert c] = [⟨.insert, b.bufMoveRight.gapStart, c⟩] ∧
      ∃ l' r', Shows (b.runs [.moveRight, .insert c]) l' r' ∧ l'.length + r'.length = l.length + r.length + 1 := by
  have hmoved : ∃ l' r', Shows b.bufMoveRight l' r' ∧ l'.length + r'.length = l.length + r.length := by
    cases r with
    | nil =>
      rw [h.moveRight_nil]
      exact ⟨l, [], h, rfl⟩
    | cons d r =>
      refine ⟨l ++ [d], r, h.moveRight, ?_⟩
      rw [List.length_append, List.length_singleton, List.length_cons]
      omega
  obtain ⟨l', r', hshows, hlength⟩ := hmoved
  have hroom' : l'.length + r'.length < bufferSize := hlength ▸ hroom
  have hgap : b.bufMoveRight.gapStart < b.bufMoveRight.gapEnd := by
    rw [hshows.gapStart, hshows.gapEnd]
    omega
  refine ⟨?_, l' ++ [c], r', (hshows.insert c hroom').1, ?_⟩
  · show (if b.bufMoveRight.gapStart < b.bufMoveRight.gapEnd then _ else []) ++ [] = _
    rw [if_pos hgap, List.append_nil]
    rfl
  · rw [List.length_append, List.length_singleton]
    omega

theorem Shows.recorded_pasted (h : Shows b l r) (c : UInt8) {n : Nat}
    (hroom : l.length + r.length + n ≤ bufferSize) :
    (recorded b (pasted c n)).length = n ∧ ∀ x ∈ recorded b (pasted c n), x.type = .insert := by
  induction n generalizing b l r with
  | zero => exact ⟨rfl, nofun⟩
  | succ n ih =>
    obtain ⟨hone, l', r', hshows, hlength⟩ := h.pasteOne c (by omega)
    obtain ⟨hcount, htype⟩ := ih hshows (by omega)
    have hsplit : recorded b (pasted c (n + 1)) =
        recorded b [.moveRight, .insert c] ++ recorded (b.runs [.moveRight, .insert c]) (pasted c n) :=
      recorded_append b [.moveRight, .insert c] (pasted c n)
    rw [hsplit, hone]
    refine ⟨by rw [List.length_append, hcount, List.length_singleton, Nat.add_comm], fun x hx => ?_⟩
    rcases List.mem_append.mp hx with hx | hx
    · rw [List.mem_singleton.mp hx]
    · exact htype x hx

theorem length_inserts {es : List UndoEntry} (hes : ∀ x ∈ es, x.type = .insert) (t : List UInt8) :
    (es.foldl UndoEntry.onText t).length = t.length + es.length := by
  induction es generalizing t with
  | nil => rfl
  | cons x es ih =>
    have hx : (UndoEntry.onText t x).length = t.length + 1 := by
      rw [UndoEntry.onText, hes x List.mem_cons_self]
      show (t.take x.pos ++ x.ch :: t.drop x.pos).length = t.length + 1
      rw [List.length_append, List.length_cons, List.length_take, List.length_drop]
      omega
    rw [List.foldl_cons, ih (fun y hy => hes y (List.mem_cons_of_mem _ hy)), hx, List.length_cons]
    omega

end Pasting

namespace EditorState

variable {e : EditorState} {c : UInt8}

/-- A character that has been yanked is put so many times. -/
theorem calls_paste (hyank : e.yankBuf = [c]) (hline : e.yankLinewise = false) (n : Nat) :
    (e.paste n).events = (e.call .undoBoundary).events ++ (pasted c n).map Event.call ∧
      (e.paste n).buffer = e.buffer.bufUndoBoundary.runs (pasted c n) := by
  rw [paste, if_neg (by rw [hyank]; exact List.cons_ne_nil _ _)]
  show ((fun e : EditorState => if e.yankLinewise then _ else (e.call .moveRight).insertYank)^[n]
    (e.call .undoBoundary)).events = _ ∧
    ((fun e : EditorState => if e.yankLinewise then _ else (e.call .moveRight).insertYank)^[n]
    (e.call .undoBoundary)).buffer = (e.call .undoBoundary).buffer.runs (pasted c n)
  have hyank' : (e.call .undoBoundary).yankBuf = [c] := hyank
  have hline' : (e.call .undoBoundary).yankLinewise = false := hline
  generalize e.call .undoBoundary = e at hyank' hline' ⊢
  induction n generalizing e with
  | zero => exact ⟨(List.append_nil _).symm, rfl⟩
  | succ n ih =>
    have hone : (e.call .moveRight).insertYank = (e.call .moveRight).call (.insert c) := by
      show e.yankBuf.foldl _ _ = _
      rw [hyank']
      rfl
    rw [Function.iterate_succ_apply, hline']
    simp only [Bool.false_eq_true, if_false]
    obtain ⟨hevents, hbuffer⟩ := ih ((e.call .moveRight).call (.insert c)) hyank' hline'
    rw [hone, hevents, hbuffer]
    refine ⟨?_, rfl⟩
    show e.events ++ [_] ++ [_] ++ _ = e.events ++ _
    rw [List.append_assoc, List.append_assoc]
    rfl

theorem step_paste (hmode : e.mode = .normal) (hk : KeyState.Quiet { e.toKeyState with repeatCount := 0 })
    (hcmd : e.cmdBuf = []) (hcount : 0 < e.repeatCount) :
    e.step (ch 'p') = some (e.resetCount.paste e.repeatCount) := by
  have hclear : e.clearStatus = e := if_neg fun h => h.2.1 hcmd
  have hop : ¬e.resetCount.pendingOperator ≠ .none := fun h => h hk.pendingOperator
  have hr : e.awaitingR = false := hk.awaitingR
  have hg : e.awaitingG = false := hk.awaitingG
  have hgt : e.awaitingGt = false := hk.awaitingGt
  have hlt : e.awaitingLt = false := hk.awaitingLt
  have hdigit : ¬((ch '1' ≤ ch 'p' ∧ ch 'p' ≤ ch '9') ∨ (ch 'p' = ch '0' ∧ e.countActive = true)) := by
    simp [ch]
  rw [step, hclear, hmode]
  show some (e.handleNormal (ch 'p')) = _
  rw [handleNormal, if_neg hdigit, hr, hg, hgt, hlt]
  simp only [Bool.false_eq_true, if_false, if_neg hop, if_pos hcount]
  rfl

end EditorState

open EditorState in
/-- A character typed, yanked and pasted 9999 times: one `u` does not take all of them back. -/
theorem one_undo_not_enough : ∃ e₀ e e' e'', editorOpen (bootEditor bootDisk) none = some e₀ ∧
    e₀.steps [ch 'i', ch 'a', keyEscape, ch 'v', ch 'y', ch '9', ch '9', ch '9', ch '9'] = some e ∧
    e.mode = .normal ∧ ¬e.UndoPress (ch 'p') ∧ e.step (ch 'p') = some e' ∧
    e'.buffer.text ≠ e.buffer.text ∧ e'.steps e'.afterwards = some e'' ∧
    e''.buffer.text ≠ e.buffer.text := by
  have hruns : ((editorOpen (bootEditor bootDisk) none).bind fun e₀ =>
      (e₀.steps [ch 'i', ch 'a', keyEscape, ch 'v', ch 'y', ch '9', ch '9', ch '9', ch '9']).map fun e =>
        decide (e.running = true ∧ e.mode = .normal ∧ KeyState.Quiet { e.toKeyState with repeatCount := 0 } ∧
          e.repeatCount = 9999 ∧ e.cmdBuf = [] ∧ e.yankBuf = [97] ∧ e.yankLinewise = false ∧
          e.buffer.text = [97])) = some true := by
    decide
  obtain ⟨e₀, hopen, hruns⟩ := Option.bind_eq_some_iff.mp hruns
  obtain ⟨e, hrun, hends⟩ := Option.map_eq_some_iff.mp hruns
  obtain ⟨hrunning, hmode, hquiet, hcount, hcmd, hyank, hline, htext⟩ := of_decide_eq_true hends
  have hpress : ¬e.UndoPress (ch 'p') := by
    rintro ⟨-, -, -, -, -, -, hkey⟩
    exact absurd hkey (by decide)
  have hstep := step_paste hmode hquiet hcmd (by omega)
  obtain ⟨hevents, hbuffer⟩ := calls_paste (e := e.resetCount) hyank hline e.repeatCount
  have hsound := run_sound hopen hrun
  obtain ⟨p, f, t, hlog⟩ := hsound.sane
  obtain rfl : [97] = t := htext.symm.trans hlog.has.text
  have hmarked := hlog.boundary
  obtain ⟨l, r, hshows, hlr⟩ := hmarked.has
  have hlength := congrArg List.length hlr
  rw [List.length_append, List.length_singleton] at hlength
  obtain ⟨hrecorded, htypes⟩ := hshows.recorded_pasted 97 (n := e.repeatCount)
    (show _ ≤ 32768 by omega)
  have hedits : ∀ n, ∀ x ∈ pasted 97 n, x.IsEdit := fun n => by
    induction n with
    | zero => exact nofun
    | succ n ih =>
      rintro x (_ | ⟨_, _ | ⟨_, hx⟩⟩)
      · trivial
      · trivial
      · exact ih x hx
  have hmade := changesMade_of_edits (hedits e.repeatCount) hevents hmarked
  obtain ⟨t', hlog', hchain⟩ := hmarked.calls (hedits e.repeatCount)
  have hchange : (e.resetCount.paste e.repeatCount).buffer.text ≠ e.buffer.text := by
    intro hsame
    have hgrown := length_inserts htypes [97]
    rw [onText_of_chain hchain, hrecorded] at hgrown
    rw [hbuffer, htext] at hsame
    have hsame : t' = [97] := hlog'.has.text.symm.trans hsame
    rw [hsame] at hgrown
    omega
  have heffect := effect_step hsound.tidy (.inl hmode) hpress hstep
  obtain ⟨e'', hsteps, hundone⟩ := steps_undo hsound.sane hrunning heffect hchange
  refine ⟨e₀, e, _, e'', hopen, hrun, hmode, hpress, hstep, hchange, hsteps, fun hsame => ?_⟩
  have hinserts : ∀ x ∈ forgotten (recorded e.buffer.bufUndoBoundary (pasted 97 e.repeatCount)),
      x.type = .insert := fun x hx => htypes x (List.mem_of_mem_take hx)
  have hgrown := length_inserts hinserts [97]
  have hforgot := List.length_take_of_le
    (Nat.sub_le (recorded e.buffer.bufUndoBoundary (pasted 97 e.repeatCount)).length (undoStackSize - 1))
  have hmade : e.changesMade (e.resetCount.paste e.repeatCount) =
      recorded e.buffer.bufUndoBoundary (pasted 97 e.repeatCount) := hmade
  rw [hundone, hmade, htext] at hsame
  rw [hsame, forgotten, hforgot, hrecorded, hcount] at hgrown
  cases hgrown

end RainbowOs.Editor
