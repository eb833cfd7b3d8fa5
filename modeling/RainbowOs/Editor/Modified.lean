import RainbowOs.Editor.Effects

/-!
# The flag of unsaved edits

Every key leaves the text or sets the flag, but for a write that succeeds:
it clears the flag, and has written the text. So where the flag is not set
the text is the one that was last written, or the one that was opened.
-/

namespace RainbowOs.Editor

open RainbowOs.Lib RainbowOs.Fat12

namespace EditorState

/-! ## Every key -/

/-- What a key may do: a write that succeeds has written the text and clears the flag. -/
inductive Outcome (e e' : EditorState) : Prop
  | rests (ran : Ran BufCall.IsQuiet e e') (flag : e'.modified = e.modified)
  | edits (ran : Ran (fun _ => True) e e') (flag : e'.modified = true)
  | leaves (buffer : e'.buffer = e.buffer) (events : e'.events = e.events) (files : e'.files = e.files)
      (flag : e'.modified = e.modified)
  | writes (name : CString) (result : Int) (buffer : e'.buffer = e.buffer)
      (events : e'.events = e.events ++ [Event.write name e.buffer.text result])
      (flag : e'.modified = if result = 0 then false else e.modified)

/-- And it leaves the flags for the next key in order, and the editor only where nothing is unsaved
or by `:q!`. -/
structure Proceeds (e e' : EditorState) : Prop where
  outcome : Outcome e e'
  tidy : e'.toKeyState.Tidy
  quits : e'.running = e.running ∨ e'.modified = false ∨ e.cmdBuf.drop 1 = ascii "q!"

variable {e e₁ e' : EditorState} {c : BufCall}

theorem Effect.proceeds (h : Effect e e') : Proceeds e e' := by
  cases h with
  | rests ran flag tidy => exact ⟨.rests ran flag, tidy, .inl ran.running⟩
  | edits ran flag settled =>
    have hran := (Does.call (c := .undoBoundary) trivial e).ran.trans (ran.mono fun _ _ => trivial)
    exact ⟨.edits hran flag, settled.toQuiet.tidy, .inl hran.running⟩

theorem Outcome.source {e₀ : EditorState} (h : Outcome e₀ e') (hcore : e₀.core = e.core)
    (hflag : e₀.modified = e.modified) : Outcome e e' := by
  have hparts := hcore
  simp only [core, Prod.mk.injEq] at hparts
  obtain ⟨hbuffer, hevents, hfiles, -⟩ := hparts
  cases h with
  | rests ran flag => exact .rests (ran.source hcore) (flag.trans hflag)
  | edits ran flag => exact .edits (ran.source hcore) flag
  | leaves buffer events files flag =>
    exact .leaves (buffer.trans hbuffer) (events.trans hevents) (files.trans hfiles) (flag.trans hflag)
  | writes name result buffer events flag =>
    exact .writes name result (buffer.trans hbuffer) (by rw [events, hevents, hbuffer]) (by rw [flag, hflag])

/-- `u` and `Ctrl-R` set the flag. -/
theorem proceeds_press {key : Int} (hpress : e.UndoPress key) (hk : e.toKeyState.Tidy) :
    Proceeds e (e.handleNormal key) := by
  have htidy : e.resetCount.toKeyState.Tidy :=
    ⟨hk.r, hk.g, hk.gt, hk.lt, fun h => absurd hpress.1 h, hk.typing⟩
  have hset : ∀ e₁, Does (fun _ => True) e.resetCount e₁ → e₁.modified = true →
      Proceeds e e₁ := fun e₁ h hflag => by
    have hout : Outcome e.resetCount e₁ := .edits h.ran hflag
    exact ⟨hout.source rfl rfl, h.keys ▸ htidy, .inl h.ran.running⟩
  rw [handleNormal_press hpress]
  split
  · exact hset _ (does_undoKey _ _) rfl
  · exact hset _ (does_redoKey _ _) rfl

theorem proceeds_handleNormal (key : Int) (hk : e.toKeyState.Tidy) (hmode : e.mode = .normal) :
    Proceeds e (e.handleNormal key) := by
  by_cases hpress : e.UndoPress key
  · exact proceeds_press hpress hk
  · exact (effect_handleNormal hk hmode hpress).proceeds

/-! ## Insert mode -/

theorem Does.types (h : Does (fun _ => True) e e₁) (hk : e.toKeyState.Quiet) :
    Proceeds e e₁.setModified :=
  ⟨.edits (h.ran.congr rfl) rfl, h.keys ▸ hk.tidy, .inl h.ran.running⟩

theorem Moves.proceeds (h : Moves e e₁) (hk : e.toKeyState.Quiet) : Proceeds e e₁ :=
  ⟨.rests (h.ran.mono fun _ => BufCall.IsMove.quiet) h.flag, h.keys ▸ hk.tidy, .inl h.ran.running⟩

theorem handleInsert_escape (e : EditorState) :
    Ran BufCall.IsQuiet e (e.handleInsert keyEscape) ∧
      (e.handleInsert keyEscape).toKeyState = { e.toKeyState with mode := .normal } ∧
      (e.handleInsert keyEscape).modified = e.modified := by
  have hnormal : Ran BufCall.IsQuiet e ((e.call .undoBoundary).setMode .normal) :=
    (Does.call (c := .undoBoundary) trivial e).ran.congr rfl
  rw [handleInsert, if_pos rfl]
  dsimp only
  split
  · exact ⟨(hnormal.trans (Does.call (c := .moveLeft) trivial _).ran).congr rfl, rfl, rfl⟩
  · exact ⟨hnormal.congr rfl, rfl, rfl⟩

theorem proceeds_handleInsert (key : Int) (hk : e.toKeyState.Quiet) : Proceeds e (e.handleInsert key) := by
  have htype : ∀ c : BufCall, Proceeds e (e.call c).syncCursor.setModified :=
    fun c => (Does.call (c := c) trivial e).syncCursor.types hk
  have hstay : Proceeds e e := (Moves.refl e).proceeds hk
  have hmove : ∀ c : BufCall, c.IsMove → Proceeds e (e.call c).syncCursor :=
    fun c hc => (Moves.call hc e).syncCursor.proceeds hk
  by_cases hkey : key = keyEscape
  · obtain ⟨hran, hkeys, hflag⟩ := handleInsert_escape e
    rw [hkey]
    exact ⟨.rests hran hflag, hkeys ▸ mode_tidy hk .normal, .inl hran.running⟩
  rw [handleInsert, if_neg hkey]
  refine of_ite (of_ite (htype _) hstay) (of_ite (htype _) (of_ite (htype _) (of_ite ?_ ?_)))
  · exact (Does.calls (c := .insert 32) trivial e 4).syncCursor.types hk
  · refine of_ite (hmove _ trivial) (of_ite (hmove _ trivial) ?_)
    refine of_ite ((moves_moveVertical e _).proceeds hk) (of_ite ((moves_moveVertical e _).proceeds hk) ?_)
    exact of_ite (htype _) hstay

/-! ## Command mode -/

/-- Nothing but the line of the command is touched. -/
theorem proceeds_keys (e : EditorState) (hcore : e₁.core = e.core) (hflag : e₁.modified = e.modified)
    (hk : e₁.toKeyState.Tidy) : Proceeds e e₁ :=
  (effect_keys e hcore hflag hk).proceeds

/-- What saving does: it writes the text, or nothing. -/
inductive Saves (e e' : EditorState) : Prop
  | leaves (buffer : e'.buffer = e.buffer) (events : e'.events = e.events) (files : e'.files = e.files)
      (flag : e'.modified = e.modified)
  | writes (name : CString) (result : Int) (buffer : e'.buffer = e.buffer)
      (events : e'.events = e.events ++ [Event.write name e.buffer.text result])
      (flag : e'.modified = if result = 0 then false else e.modified)

theorem Saves.outcome (h : Saves e e₁) : Outcome e e₁ := by
  cases h with
  | leaves buffer events files flag => exact .leaves buffer events files flag
  | writes name result buffer events flag => exact .writes name result buffer events flag

theorem Saves.congr (h : Saves e e₁) (hbuffer : e'.buffer = e₁.buffer) (hevents : e'.events = e₁.events)
    (hfiles : e'.files = e₁.files) (hflag : e'.modified = e₁.modified) : Saves e e' := by
  cases h with
  | leaves buffer events files flag =>
    exact .leaves (hbuffer.trans buffer) (hevents.trans events) (hfiles.trans files) (hflag.trans flag)
  | writes name result buffer events flag =>
    exact .writes name result (hbuffer.trans buffer) (hevents.trans events) (hflag.trans flag)

theorem saves_doSave {name : CString} {own : Bool} {result : Int} (h : e.doSave name own = some (result, e₁)) :
    Saves e e₁ ∧ e₁.toKeyState = e.toKeyState ∧ e₁.running = e.running ∧
      (result = 0 → e₁.modified = false) := by
  unfold doSave at h
  split at h
  · obtain ⟨rfl, rfl⟩ := Prod.mk.inj (Option.some.inj h)
    exact ⟨.leaves rfl rfl rfl rfl, rfl, rfl, nofun⟩
  · dsimp only at h
    split at h
    · cases h
    · next result' hout =>
      split at h
      · next hfail =>
        obtain ⟨rfl, rfl⟩ := Prod.mk.inj (Option.some.inj h)
        exact ⟨.writes name result' rfl rfl (if_neg hfail).symm, rfl, rfl, nofun⟩
      · next hdone =>
        obtain ⟨-, rfl⟩ := Prod.mk.inj (Option.some.inj h)
        have hzero : result' = 0 := not_not.mp hdone
        cases own with
        | true => exact ⟨.writes name result' rfl rfl (if_pos hzero).symm, rfl, rfl, fun _ => rfl⟩
        | false => exact ⟨.writes name result' rfl rfl (if_pos hzero).symm, rfl, rfl, fun _ => rfl⟩

theorem Saves.back (h : Saves e e₁) (hkeys : e₁.toKeyState = e.toKeyState) (hrunning : e₁.running = e.running)
    (hk : e.toKeyState.Quiet) : Proceeds e (e₁.setMode .normal) := by
  have hsaves : Saves e (e₁.setMode .normal) := h.congr rfl rfl rfl rfl
  refine ⟨hsaves.outcome, ?_, .inl hrunning⟩
  show KeyState.Tidy { e₁.toKeyState with mode := .normal }
  rw [hkeys]
  exact mode_tidy hk .normal

theorem proceeds_save (name : CString) (own : Bool) (hk : e.toKeyState.Quiet) :
    Given (Proceeds e) (e.save name own) := by
  intro e₁ h
  obtain ⟨⟨result, e₀⟩, hsave, rfl⟩ := Option.map_eq_some_iff.mp h
  obtain ⟨hsaves, hkeys, hrunning, -⟩ := saves_doSave hsave
  exact hsaves.back hkeys hrunning hk

theorem proceeds_saveAndQuit (name : CString) (own : Bool) (hk : e.toKeyState.Quiet) :
    Given (Proceeds e) (e.saveAndQuit name own) := by
  intro e₁ h
  obtain ⟨⟨result, e₀⟩, hsave, rfl⟩ := Option.map_eq_some_iff.mp h
  obtain ⟨hsaves, hkeys, hrunning, hsaved⟩ := saves_doSave hsave
  have hleft : Saves e { e₀ with running := false } := hsaves.congr rfl rfl rfl rfl
  dsimp only
  split
  · next hzero => exact ⟨hleft.outcome, hkeys ▸ hk.tidy, .inr (.inl (hsaved hzero))⟩
  · exact hsaves.back hkeys hrunning hk

theorem proceeds_cmdExecute (hk : e.toKeyState.Quiet) : Given (Proceeds e) e.cmdExecute := by
  have hmessage : ∀ msg, Proceeds e ((e.setStatus msg).setMode .normal) :=
    fun msg => proceeds_keys e rfl rfl (mode_tidy hk .normal)
  have hquit : e.modified = false ∨ e.cmdBuf.drop 1 = ascii "q!" → Proceeds e { e with running := false } :=
    fun h => ⟨.leaves rfl rfl rfl rfl, hk.tidy, .inr h⟩
  unfold cmdExecute
  refine .ite ?_ ?_
  · intro e₁ h
    split at h
    · exact Option.some.inj h ▸ hmessage _
    · next hsaved => exact Option.some.inj h ▸ hquit (.inl (Bool.eq_false_iff.mpr hsaved))
  · intro e₁ h
    split at h
    · next hforce => exact Option.some.inj h ▸ hquit (.inr hforce)
    · refine Given.ite (Q := Proceeds e) (proceeds_save _ _ hk) ?_ e₁ h
      refine .ite (proceeds_save _ _ hk) (.ite (proceeds_saveAndQuit _ _ hk) ?_)
      exact .ite (proceeds_saveAndQuit _ _ hk) (.some (hmessage _))

theorem Proceeds.cmdLen (h : Proceeds e e₁) (n : Nat) : Proceeds e { e₁ with cmdLen := n } := by
  obtain ⟨hout, htidy, hquits⟩ := h
  refine ⟨?_, htidy, hquits⟩
  cases hout with
  | rests ran flag => exact .rests (ran.congr rfl) flag
  | edits ran flag => exact .edits (ran.congr rfl) flag
  | leaves buffer events files flag => exact .leaves buffer events files flag
  | writes name result buffer events flag => exact .writes name result buffer events flag

theorem proceeds_handleCommand (key : Int) (hk : e.toKeyState.Quiet) :
    Given (Proceeds e) (e.handleCommand key) := by
  have hleave : ∀ line len, Proceeds e { e with mode := .normal, cmdBuf := line, cmdLen := len } :=
    fun line len => proceeds_keys e rfl rfl (mode_tidy hk .normal)
  have hline : ∀ line len, Proceeds e { e with cmdBuf := line, cmdLen := len } :=
    fun line len => proceeds_keys e rfl rfl hk.tidy
  unfold handleCommand
  refine .ite (.some (hleave _ _)) (.ite (fun e₁ h => ?_) (.ite (.ite (.some ?_) (.some (hleave _ _))) ?_))
  · obtain ⟨e₀, hexecute, rfl⟩ := Option.map_eq_some_iff.mp h
    exact (proceeds_cmdExecute hk e₀ hexecute).cmdLen 0
  · exact hline _ _
  · exact .ite (.some (hline _ _)) (.some (proceeds_keys e rfl rfl hk.tidy))

/-! ## Runs -/

theorem proceeds_step (key : Int) (hk : e.toKeyState.Tidy) : Given (Proceeds e) (e.step key) := by
  obtain ⟨hcore, hkeys, hflag, hline⟩ := clearStatus_keeps e
  have hrunning : e.clearStatus.running = e.running := congrArg (fun c => c.2.2.2) hcore
  have hsource : ∀ e₁, Proceeds e.clearStatus e₁ → Proceeds e e₁ := by
    rintro e₁ ⟨hout, htidy, hquits⟩
    refine ⟨hout.source hcore hflag, htidy, ?_⟩
    rw [hrunning] at hquits
    rcases hline with hnil | hsame
    · rw [hnil] at hquits
      exact hquits.imp_right fun h => h.imp_right fun h => by cases h
    · rwa [hsame] at hquits
  rw [← hkeys] at hk
  intro e₁ h
  refine hsource e₁ ?_
  unfold step at h
  dsimp only at h
  generalize e.clearStatus = e at *
  have hquiet : e.mode ≠ .normal → e.mode = .insert ∨ e.mode = .command → e.toKeyState.Quiet :=
    fun hmode htyping => by
      obtain ⟨-, hr, hgt, hlt, hop, hcount⟩ := hk.away hmode
      exact ⟨hk.typing htyping, hr, hgt, hlt, hop, hcount⟩
  cases hmode : e.mode with
  | normal =>
    rw [hmode] at h
    exact Option.some.inj h ▸ proceeds_handleNormal key hk hmode
  | insert =>
    rw [hmode] at h hquiet
    exact Option.some.inj h ▸ proceeds_handleInsert key (hquiet nofun (.inl rfl))
  | command =>
    rw [hmode] at h hquiet
    exact proceeds_handleCommand key (hquiet nofun (.inr rfl)) e₁ h
  | visual =>
    rw [hmode] at h
    exact Option.some.inj h ▸ (effect_handleVisual key hk (.inl hmode)).proceeds
  | visualLine =>
    rw [hmode] at h
    exact Option.some.inj h ▸ (effect_handleVisual key hk (.inr hmode)).proceeds

/-- What holds of a state and is kept by every key holds after every run. -/
theorem steps_induction {Q : EditorState → Prop} (hstep : ∀ e key e', Q e → e.step key = some e' → Q e')
    {keys : List Int} (h : Q e) (hrun : e.steps keys = some e') : Q e' := by
  induction keys generalizing e with
  | nil => exact Option.some.inj hrun ▸ h
  | cons key keys ih =>
    rw [steps] at hrun
    split at hrun
    · obtain ⟨e₁, hone, hrest⟩ := Option.bind_eq_some_iff.mp hrun
      exact ih (hstep e key e₁ h hone) hrest
    · exact Option.some.inj hrun ▸ h

/-- The content that was last written, from the one that was opened. -/
def lastContent (opened : List UInt8) (events : List Event) : List UInt8 :=
  events.foldl (fun last event =>
    match event with
    | .call _ => last
    | .write _ data result => if result = 0 then data else last) opened

theorem lastContent_calls (opened : List UInt8) (events : List Event) (cs : List BufCall) :
    lastContent opened (events ++ cs.map Event.call) = lastContent opened events := by
  induction cs generalizing events with
  | nil => rw [List.map_nil, List.append_nil]
  | cons c cs ih =>
    rw [List.map_cons, List.append_cons, ih, lastContent, List.foldl_append]
    rfl

theorem lastContent_write (opened : List UInt8) (events : List Event) (name : CString)
    (data : List UInt8) (result : Int) :
    lastContent opened (events ++ [Event.write name data result]) =
      if result = 0 then data else lastContent opened events := by
  rw [lastContent, List.foldl_append]
  rfl

/-- The buffer and the flags are in order, and the flag tells of unsaved edits. -/
structure Sound (opened : List UInt8) (e : EditorState) : Prop where
  sane : e.buffer.Sane false
  tidy : e.toKeyState.Tidy
  saved : e.modified = false → e.buffer.text = lastContent opened e.events

variable {opened : List UInt8}

theorem Sound.step (h : Sound opened e) {key : Int} (hstep : e.step key = some e') : Sound opened e' := by
  obtain ⟨hout, htidy, -⟩ := proceeds_step key h.tidy e' hstep
  cases hout with
  | rests ran flag =>
    obtain ⟨cs, hcs, hbuffer, hevents, -⟩ := ran
    refine ⟨hbuffer ▸ h.sane.runs cs, htidy, fun hsaved => ?_⟩
    rw [hbuffer, hevents, text_runs_quiet h.sane hcs, lastContent_calls]
    exact h.saved (flag.symm.trans hsaved)
  | edits ran flag =>
    obtain ⟨cs, -, hbuffer, -⟩ := ran
    refine ⟨hbuffer ▸ h.sane.runs cs, htidy, fun hsaved => ?_⟩
    rw [flag] at hsaved
    cases hsaved
  | leaves buffer events _ flag =>
    refine ⟨buffer ▸ h.sane, htidy, fun hsaved => ?_⟩
    rw [buffer, events]
    exact h.saved (flag.symm.trans hsaved)
  | writes name result buffer events flag =>
    refine ⟨buffer ▸ h.sane, htidy, fun hsaved => ?_⟩
    rw [buffer, events, lastContent_write]
    split
    · rfl
    · next hfail =>
      rw [flag, if_neg hfail] at hsaved
      exact h.saved hsaved

end EditorState

/-! ## Opening -/

/-- The content that `editor_open` loads: none where there is no file. -/
def openedText (before : EditorState) (fname : Option CString) : List UInt8 :=
  match fname with
  | none => []
  | some fname =>
    match (fat12ReadFile before.disk.bpb fname bufferSize before.disk.vol).out with
    | .done (some bytes) => bytes.take bufferSize
    | _ => []

/-- A buffer without a text or a log. -/
theorem logAt_init (b : Buffer) : LogAt b.bufInit false [] [] [] :=
  ⟨⟨Nat.zero_lt_succ _, Nat.zero_le _⟩, rfl, rfl, rfl, [], [], ⟨Nat.zero_le _, Nat.le_refl _, rfl, rfl⟩, rfl⟩

theorem openFile_log {b b' : Buffer} {before : EditorState} {fname : CString}
    (h : openFile b before.disk fname = some b') : LogAt b' false [] [] (openedText before (some fname)) := by
  unfold openFile at h
  unfold openedText
  dsimp only
  split at h
  · cases h
  · next hout =>
    rw [hout]
    exact Option.some.inj h ▸ logAt_init b
  · next bytes hout =>
    rw [hout]
    split at h
    · next hnil =>
      rw [hnil]
      exact Option.some.inj h ▸ logAt_init b
    · exact Option.some.inj h ▸ (newest_load b.bufInit bytes).log

theorem editorOpen_log {before e : EditorState} {fname : Option CString} (h : editorOpen before fname = some e) :
    LogAt e.buffer false [] [] (openedText before fname) ∧ e.toKeyState.Quiet ∧ e.mode = .normal ∧
      e.events = [] ∧ e.modified = false := by
  unfold editorOpen at h
  cases fname with
  | none =>
    rw [← Option.some.inj h]
    exact ⟨logAt_init before.buffer, ⟨rfl, rfl, rfl, rfl, rfl, rfl⟩, rfl, rfl, rfl⟩
  | some fname =>
    obtain ⟨b, hb, rfl⟩ := Option.map_eq_some_iff.mp h
    exact ⟨openFile_log hb, ⟨rfl, rfl, rfl, rfl, rfl, rfl⟩, rfl, rfl, rfl⟩

theorem editorOpen_sound {before e : EditorState} {fname : Option CString} (h : editorOpen before fname = some e) :
    e.Sound (openedText before fname) := by
  obtain ⟨hlog, hquiet, -, hevents, -⟩ := editorOpen_log h
  refine ⟨⟨_, _, _, hlog⟩, hquiet.tidy, fun _ => ?_⟩
  rw [hevents, hlog.has.text]
  rfl

theorem run_sound {before e₀ e : EditorState} {fname : Option CString} {keys : List Int}
    (hopen : editorOpen before fname = some e₀) (hrun : e₀.steps keys = some e) :
    e.Sound (openedText before fname) :=
  EditorState.steps_induction (fun _ _ _ h hstep => h.step hstep) (editorOpen_sound hopen) hrun

/-- In every state that keys lead to from `editor_open`, where the flag is not set the text is the
one that was last written, or was opened; so no key leaves the editor with another text, unless
the command is `q!`. -/
theorem modified_sound {before e₀ e : EditorState} {fname : Option CString} {keys : List Int}
    (hopen : editorOpen before fname = some e₀) (hrun : e₀.steps keys = some e) :
    (e.modified = false → e.buffer.text = EditorState.lastContent (openedText before fname) e.events) ∧
    ∀ key e', e.running = true → e.step key = some e' → e'.running = false →
      e.cmdBuf.drop 1 ≠ ascii "q!" →
      e'.buffer.text = EditorState.lastContent (openedText before fname) e'.events := by
  have hsound := run_sound hopen hrun
  refine ⟨hsound.saved, fun key e' hrunning hstep hleft hforce => ?_⟩
  have hsound' := hsound.step hstep
  rcases (EditorState.proceeds_step key hsound.tidy e' hstep).quits with hsame | hsaved | hline
  · rw [hsame, hrunning] at hleft
    cases hleft
  · exact hsound'.saved hsaved
  · exact absurd hline hforce

/-- The statics of the editor at boot, with a disk. -/
def bootEditor (disk : DiskState) : EditorState where
  mode := .normal
  awaitingG := false
  awaitingR := false
  awaitingGt := false
  awaitingLt := false
  repeatCount := 0
  countActive := false
  pendingOperator := .none
  opCount := 0
  buffer := blankBuffer
  disk := disk
  view := ⟨0, 0, 0, 0⟩
  filename := cString []
  modified := false
  cmdBuf := []
  cmdLen := 0
  running := false
  selAnchor := 0
  yankBuf := []
  yankLinewise := false
  events := []

/-- A volume without files, on a drive that always answers. -/
def bootDisk : DiskState := runningDisk fun _ => .ok

/-- A letter is typed and saved under `f`, and the command `q` is on the line. -/
def typeAndSave : List Int :=
  [ch 'i', ch 'a', keyEscape, ch ':', ch 'w', ch ' ', ch 'f', 10, ch ':', ch 'q']

open EditorState in
theorem modified_sound_typed : ∃ e₀ e e', editorOpen (bootEditor bootDisk) none = some e₀ ∧
    e₀.steps typeAndSave = some e ∧ e.modified = false ∧
    e.buffer.text = lastContent (openedText (bootEditor bootDisk) none) e.events ∧
    e.step 10 = some e' ∧ e'.running = false ∧
    e'.buffer.text = lastContent (openedText (bootEditor bootDisk) none) e'.events := by
  have hruns : ((editorOpen (bootEditor bootDisk) none).bind fun e₀ => e₀.steps typeAndSave).any (fun e =>
      decide (e.modified = false ∧ e.running = true ∧ e.cmdBuf.drop 1 ≠ ascii "q!") &&
        (e.step 10).any fun e' => decide (e'.running = false)) = true := by decide +kernel
  obtain ⟨e, he, hstate⟩ := (Option.any_eq_true _ _).mp hruns
  obtain ⟨hstate, hstep⟩ := Bool.and_eq_true_iff.mp hstate
  obtain ⟨hunmodified, hrunning, hforce⟩ := of_decide_eq_true hstate
  obtain ⟨e', hstep, hleft⟩ := (Option.any_eq_true _ _).mp hstep
  have hleft := of_decide_eq_true hleft
  obtain ⟨e₀, hopen, hrun⟩ := Option.bind_eq_some_iff.mp he
  have hsound := modified_sound hopen hrun
  exact ⟨e₀, e, e', hopen, hrun, hunmodified, hsound.1 hunmodified, hstep, hleft,
    hsound.2 10 e' hrunning hstep hleft hforce⟩

end RainbowOs.Editor
