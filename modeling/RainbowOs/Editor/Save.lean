import RainbowOs.Editor.Modified
import RainbowOs.Fat12.ReadBack

/-!
# Opening and saving

`:w` after keys that edit nothing writes what was opened, under the name that
was remembered. The buffer holds 32768 characters and the name twelve, so the
file is the one that was opened only where neither cuts anything off that
matters.
-/

namespace RainbowOs.Editor

open RainbowOs.Lib RainbowOs.Fat12

namespace EditorState

variable {e e' : EditorState}

/-- No key has edited the text, and none has written a file. -/
def Unedited (e : EditorState) : Prop := ∀ event ∈ e.events, ∃ c : BufCall, event = .call c ∧ c.IsQuiet

/-- Where nothing was edited, the text is the one that was opened, and the files are as they were. -/
structure Keeps (opened : List UInt8) (files : DiskState × CString) (e : EditorState) : Prop where
  sound : Sound opened e
  kept : e.Unedited → e.buffer.text = opened ∧ e.files = files

variable {opened : List UInt8} {files : DiskState × CString} {P : BufCall → Prop}

theorem Keeps.ran (h : Keeps opened files e) (hran : Ran P e e') (hplain : e'.Unedited) :
    e'.buffer.text = opened ∧ e'.files = files := by
  obtain ⟨cs, -, hbuffer, hevents, hfiles, -⟩ := hran
  have hbefore : e.Unedited := fun event hmem =>
    hplain event (by rw [hevents]; exact List.mem_append_left _ hmem)
  have hquiet : ∀ c ∈ cs, c.IsQuiet := fun c hc => by
    have hmem : Event.call c ∈ e'.events := by
      rw [hevents]
      exact List.mem_append_right _ (List.mem_map_of_mem hc)
    obtain ⟨c', hcall, hc'⟩ := hplain _ hmem
    obtain rfl := Event.call.inj hcall
    exact hc'
  obtain ⟨htext, hsame⟩ := h.kept hbefore
  rw [hbuffer, text_runs_quiet h.sound.sane hquiet, hfiles]
  exact ⟨htext, hsame⟩

theorem Keeps.step (h : Keeps opened files e) {key : Int} (hstep : e.step key = some e') :
    Keeps opened files e' := by
  refine ⟨h.sound.step hstep, fun hplain => ?_⟩
  cases (proceeds_step key h.sound.tidy e' hstep).outcome with
  | rests ran _ => exact h.ran ran hplain
  | edits ran _ => exact h.ran ran hplain
  | leaves buffer events same _ =>
    obtain ⟨htext, hsame⟩ := h.kept (by rwa [Unedited, ← events])
    rw [buffer, same]
    exact ⟨htext, hsame⟩
  | writes name result _ events _ =>
    obtain ⟨c, hcall, -⟩ := hplain (.write name e.buffer.text result) (by
      rw [events]
      exact List.mem_append_right _ List.mem_cons_self)
    cases hcall

/-! ## `:w` -/

/-- `:` begins a command. -/
theorem handleNormal_colon (hk : e.toKeyState.Quiet) : e.handleNormal (ch ':') =
    { e.resetCount with mode := .command, cmdBuf := [58], cmdLen := 1 } := by
  obtain ⟨hg, hr, hgt, hlt, hop, hcount⟩ := hk
  have hdigit : ¬((ch '1' ≤ ch ':' ∧ ch ':' ≤ ch '9') ∨ (ch ':' = ch '0' ∧ e.countActive = true)) := by
    rintro (⟨-, hnine⟩ | ⟨hzero, -⟩)
    · exact absurd hnine (by decide)
    · exact absurd hzero (by decide)
  rw [handleNormal, if_neg hdigit, if_neg (by simp [hr]), if_neg (by simp [hg]), if_neg (by simp [hgt]),
    if_neg (by simp [hlt])]
  exact if_neg fun hne => hne hop

theorem step_command (hmode : e.mode = .command) (key : Int) : e.step key = e.handleCommand key := by
  rw [step, clearStatus, if_neg (by simp [hmode])]
  simp only [hmode]

theorem step_colon (hmode : e.mode = .normal) (hk : e.toKeyState.Quiet) (h : e.step (ch ':') = some e') :
    e'.mode = .command ∧ e'.cmdBuf = [58] ∧ e'.cmdLen = 1 ∧ e'.buffer = e.buffer ∧ e'.events = e.events ∧
      e'.files = e.files ∧ e'.running = e.running := by
  obtain ⟨hcore, hkeys, -, -⟩ := clearStatus_keeps e
  have hnormal : e.clearStatus.mode = .normal := (congrArg KeyState.mode hkeys).trans hmode
  simp only [core, Prod.mk.injEq] at hcore
  obtain ⟨hbuffer, hevents, hfiles, hrunning⟩ := hcore
  rw [step] at h
  simp only [hnormal] at h
  rw [handleNormal_colon (hkeys ▸ hk)] at h
  obtain rfl := Option.some.inj h
  exact ⟨rfl, rfl, rfl, hbuffer, hevents, hfiles, hrunning⟩

theorem step_w (hmode : e.mode = .command) (hline : e.cmdBuf = [58]) (hlen : e.cmdLen = 1)
    (h : e.step (ch 'w') = some e') :
    e'.mode = .command ∧ e'.cmdBuf = [58, 119] ∧ e'.buffer = e.buffer ∧ e'.events = e.events ∧
      e'.files = e.files ∧ e'.running = e.running := by
  have hw : e.step (ch 'w') = some { e with cmdBuf := [58, 119], cmdLen := 2 } := by
    rw [step_command hmode]
    unfold handleCommand
    rw [hline, hlen]
    rfl
  obtain rfl := Option.some.inj (hw.symm.trans h)
  exact ⟨hmode, rfl, rfl, rfl, rfl, rfl⟩

theorem step_enter (hmode : e.mode = .command) (hline : e.cmdBuf = [58, 119]) :
    e.step 10 = (e.save e.filename true).map fun e => { e with cmdLen := 0 } := by
  have hexecute : e.cmdExecute = e.save e.filename true := by
    unfold cmdExecute
    rw [hline]
    rfl
  rw [step_command hmode, ← hexecute]
  rfl

theorem doSave_own {result : Int} (h : e.doSave e.filename true = some (result, e')) :
    e'.events = e.events ∨
      ∃ answer, (diskfsWriteFile e.filename e.buffer.text e.disk).out = .done answer ∧
        e'.disk = (diskfsWriteFile e.filename e.buffer.text e.disk).state ∧
        e'.events = e.events ++ [Event.write e.filename e.buffer.text answer] := by
  unfold doSave at h
  split at h
  · obtain ⟨-, rfl⟩ := Prod.mk.inj (Option.some.inj h)
    exact .inl rfl
  · dsimp only at h
    split at h
    · cases h
    · next answer hout =>
      refine .inr ⟨answer, hout, ?_⟩
      split at h
      · obtain ⟨-, rfl⟩ := Prod.mk.inj (Option.some.inj h)
        exact ⟨rfl, rfl⟩
      · obtain ⟨-, rfl⟩ := Prod.mk.inj (Option.some.inj h)
        exact ⟨rfl, rfl⟩

/-- The keys of `:w`. -/
def saveKeys : List Int := [ch ':', ch 'w', 10]

/-- What `:w` leaves: the text written under the remembered name, or nothing. -/
theorem steps_saveKeys (hmode : e.mode = .normal) (hk : e.toKeyState.Quiet)
    (h : e.steps saveKeys = some e') :
    e'.events = e.events ∨
      ∃ answer, (diskfsWriteFile e.filename e.buffer.text e.disk).out = .done answer ∧
        e'.disk = (diskfsWriteFile e.filename e.buffer.text e.disk).state ∧
        e'.events = e.events ++ [Event.write e.filename e.buffer.text answer] := by
  rw [saveKeys, steps] at h
  split at h
  · next hrunning =>
    obtain ⟨e₁, hcolon, h⟩ := Option.bind_eq_some_iff.mp h
    obtain ⟨hcommand, hline, hlen, hbuffer, hevents, hfiles, hrun⟩ := step_colon hmode hk hcolon
    rw [steps, if_pos (hrun.trans hrunning)] at h
    obtain ⟨e₂, hw, h⟩ := Option.bind_eq_some_iff.mp h
    obtain ⟨hcommand', hline', hbuffer', hevents', hfiles', hrun'⟩ := step_w hcommand hline hlen hw
    rw [steps, if_pos (hrun'.trans (hrun.trans hrunning)), step_enter hcommand' hline'] at h
    obtain ⟨e₃, henter, hlast⟩ := Option.bind_eq_some_iff.mp h
    obtain rfl := Option.some.inj hlast
    obtain ⟨e₄, hsave, rfl⟩ := Option.map_eq_some_iff.mp henter
    obtain ⟨⟨result, e₅⟩, hdoSave, rfl⟩ := Option.map_eq_some_iff.mp hsave
    obtain ⟨hdisk, hname⟩ := Prod.mk.inj (hfiles'.trans hfiles)
    have hown := doSave_own hdoSave
    rw [hname, hdisk, hbuffer', hbuffer, hevents', hevents] at hown
    exact hown
  · exact .inl (Option.some.inj h ▸ rfl)

end EditorState

/-! ## From opening to saving -/

open EditorState in
theorem keeps_run {before e₀ e : EditorState} {name : CString} {keys : List Int}
    (hopen : editorOpen before (some name) = some e₀) (hrun : e₀.steps keys = some e) :
    Keeps (openedText before (some name)) (before.disk, cutName name 12) e := by
  refine steps_induction (fun _ _ _ h hstep => h.step hstep) ⟨editorOpen_sound hopen, fun _ => ?_⟩ hrun
  have htext := (editorOpen_log hopen).1.has.text
  obtain ⟨b, -, rfl⟩ := Option.map_eq_some_iff.mp hopen
  exact ⟨htext, rfl⟩

/-- The name that is remembered starts as the one that was given. -/
theorem headD_cutName (name : CString) : (nameTo83 (cutName name 12)).headD 0 = (nameTo83 name).headD 0 := by
  rw [headD_nameTo83, headD_nameTo83]
  obtain ⟨s, hs⟩ := name
  cases s with
  | nil => rfl
  | cons c s => rfl

variable {L : Layout} {t : Tables} {before e₀ e₁ e : EditorState} {name : CString} {keys : List Int}
  {data : List UInt8}

/-- The text is what the buffer holds of the file. -/
theorem openedText_of_files (hbpb : before.disk.bpb = L.bpb) (hshows : Fat12.Shows L before.disk.vol t)
    (hsound : t.Sound L) (hfound : t.files L (nameTo83 name) = some data) :
    openedText before (some name) = data.take bufferSize := by
  have hread := read_out hshows hsound name bufferSize
  rw [hfound, ← hbpb] at hread
  unfold openedText
  dsimp only
  rw [hread]
  exact List.take_take.trans (congrArg data.take (Nat.min_self _))

/-- A file that is found has a name that starts with no mark of deletion. -/
theorem headD_ne_of_files (hsound : t.Sound L) {key : List UInt8} (hfound : t.files L key = some data) :
    key.headD 0 ≠ 0xE5 := by
  obtain ⟨i, hfind, -⟩ := Option.map_eq_some_iff.mp hfound
  obtain ⟨hlive, rfl⟩ := hsound.find_eq_some_iff.mp hfind
  exact hlive.2.2.1

/-- After `:w` the volume holds what was opened, under the name that was remembered. -/
theorem holds_saved (hbpb : before.disk.bpb = L.bpb) (hshows : Fat12.Shows L before.disk.vol t)
    (hsound : t.Sound L) (hwhole : t.Whole L)
    (hroom : t.Room L (nameTo83 (cutName name 12)) (data.take bufferSize))
    (hfound : t.files L (nameTo83 name) = some data) (hopen : editorOpen before (some name) = some e₀)
    (hrun : e₀.steps keys = some e₁) (hplain : e₁.Unedited) (hmode : e₁.mode = .normal)
    (hquiet : e₁.toKeyState.Quiet) (hsave : e₁.steps EditorState.saveKeys = some e)
    (hdone : ∃ saveName text, Event.write saveName text 0 ∈ e.events) :
    Holds L e.disk.vol
      (Function.update (t.files L) (nameTo83 (cutName name 12)) (some (data.take bufferSize))) := by
  obtain ⟨htext, hfiles⟩ := (keeps_run hopen hrun).kept hplain
  rw [openedText_of_files hbpb hshows hsound hfound] at htext
  obtain ⟨hdisk, hname⟩ := Prod.mk.inj hfiles
  have hwritten : ∀ saveName text, Event.write saveName text 0 ∉ e₁.events := fun saveName text hmem => by
    obtain ⟨c, hcall, -⟩ := hplain _ hmem
    cases hcall
  obtain ⟨saveName, text, hmem⟩ := hdone
  rcases EditorState.steps_saveKeys hmode hquiet hsave with hevents | ⟨answer, hout, hstate, hevents⟩
  · rw [hevents] at hmem
    exact absurd hmem (hwritten saveName text)
  · rw [hevents] at hmem
    have hanswer : answer = 0 := by
      rcases List.mem_append.mp hmem with hmem | hmem
      · exact absurd hmem (hwritten saveName text)
      · obtain ⟨-, -, hzero⟩ := Event.write.inj (List.mem_singleton.mp hmem)
        exact hzero.symm
    have hfirst : (nameTo83 (cutName name 12)).headD 0 ≠ 0xE5 := by
      rw [headD_cutName]
      exact headD_ne_of_files hsound hfound
    obtain ⟨r, hr, hholds⟩ := holds_writeFile hshows hsound hwhole hroom hfirst
    rw [htext, hname, hdisk] at hout hstate
    rw [← hbpb] at hr
    obtain ⟨r', hr', hsame, hvol, -⟩ := (total_diskfsWriteFile hr).returns
    obtain rfl := Outcome.done.inj (hr'.symm.trans hout)
    rw [hstate, hvol, hbpb]
    exact hholds (hsame.symm.trans hanswer)

/-- Saving what was opened leaves every file as it was just where the file fits the buffer and the
twelve characters of the name still name it, or where they name another file that holds no more
than what the buffer holds. -/
theorem open_save_keeps_iff (hbpb : before.disk.bpb = L.bpb) (hshows : Fat12.Shows L before.disk.vol t)
    (hsound : t.Sound L) (hwhole : t.Whole L)
    (hroom : t.Room L (nameTo83 (cutName name 12)) (data.take bufferSize))
    (hfound : t.files L (nameTo83 name) = some data) (hopen : editorOpen before (some name) = some e₀)
    (hrun : e₀.steps keys = some e₁) (hplain : e₁.Unedited) (hmode : e₁.mode = .normal)
    (hquiet : e₁.toKeyState.Quiet) (hsave : e₁.steps EditorState.saveKeys = some e)
    (hdone : ∃ saveName text, Event.write saveName text 0 ∈ e.events) :
    Holds L e.disk.vol (t.files L) ↔
      nameTo83 (cutName name 12) = nameTo83 name ∧ data.length ≤ bufferSize ∨
        nameTo83 (cutName name 12) ≠ nameTo83 name ∧
          t.files L (nameTo83 (cutName name 12)) = some (data.take bufferSize) := by
  have hholds := holds_saved hbpb hshows hsound hwhole hroom hfound hopen hrun hplain hmode hquiet hsave hdone
  have hiff : Holds L e.disk.vol (t.files L) ↔
      t.files L (nameTo83 (cutName name 12)) = some (data.take bufferSize) := by
    constructor
    · intro hkept
      rw [hkept.agree hholds, Function.update_self]
    · intro hsame
      rwa [← hsame, Function.update_eq_self] at hholds
  rw [hiff]
  by_cases hname : nameTo83 (cutName name 12) = nameTo83 name
  · rw [hname, hfound, Option.some.injEq]
    constructor
    · intro hfit
      have hlen : (data.take bufferSize).length ≤ bufferSize := List.length_take_le _ _
      exact .inl ⟨rfl, by rwa [← hfit] at hlen⟩
    · rintro (⟨-, hlen⟩ | ⟨hne, -⟩)
      · exact (List.take_of_length_le hlen).symm
      · exact absurd rfl hne
  · constructor
    · exact fun hsame => .inr ⟨hname, hsame⟩
    · rintro (⟨hsame, -⟩ | ⟨-, hsame⟩)
      · exact absurd hsame hname
      · exact hsame

/-- The ramdisk, with no drive behind it. -/
def ramdiskDisk (ramdisk : Bytes) : DiskState where
  volume := Bytes.zeros
  ramdisk := ramdisk
  disk := Bytes.zeros
  answers := fun _ => .ok
  diskAvailable := false
  onRamdisk := true
  bpb := Ramdisk.bpb

theorem bootEditor_vol (v : Bytes) : (bootEditor (ramdiskDisk v)).disk.vol = v := rfl

/-- Whether a write has succeeded. -/
def EditorState.saved (e : EditorState) : Bool :=
  e.events.any fun event =>
    match event with
    | .call _ => false
    | .write _ _ result => result = 0

theorem EditorState.exists_of_saved {e : EditorState} (h : e.saved = true) :
    ∃ saveName text, Event.write saveName text 0 ∈ e.events := by
  obtain ⟨event, hmem, hwrite⟩ := List.any_eq_true.mp h
  cases event with
  | call c => cases hwrite
  | write saveName text result =>
    have hzero : result = 0 := of_decide_eq_true hwrite
    exact ⟨saveName, text, hzero ▸ hmem⟩

theorem open_save_keeps_iff_readme : ∃ (t : Tables) (e₀ e : EditorState),
    editorOpen (bootEditor (ramdiskDisk Ramdisk.ramdiskInit)) (some readmeName) = some e₀ ∧
    e₀.steps EditorState.saveKeys = some e ∧ t.files Ramdisk.layout = Ramdisk.sampleFiles ∧
    (Holds Ramdisk.layout e.disk.vol (t.files Ramdisk.layout) ↔
      nameTo83 (cutName readmeName 12) = nameTo83 readmeName ∧ Ramdisk.readme.length ≤ bufferSize ∨
        nameTo83 (cutName readmeName 12) ≠ nameTo83 readmeName ∧
          t.files Ramdisk.layout (nameTo83 (cutName readmeName 12)) =
            some (Ramdisk.readme.take bufferSize)) := by
  have hruns : ((editorOpen (bootEditor (ramdiskDisk Ramdisk.ramdiskInit)) (some readmeName)).bind fun e₀ =>
      (e₀.steps EditorState.saveKeys).map fun e => e.saved) = some true := by decide +kernel
  obtain ⟨e₀, hopen, hrun⟩ := Option.bind_eq_some_iff.mp hruns
  obtain ⟨e, hsave, hsaved⟩ := Option.map_eq_some_iff.mp hrun
  obtain ⟨s, t, hs, -, h⟩ := Ramdisk.ramdisk_built
  have hbpb : (bootEditor (ramdiskDisk Ramdisk.ramdiskInit)).disk.bpb = Ramdisk.layout.bpb := rfl
  have hshows : Fat12.Shows Ramdisk.layout (bootEditor (ramdiskDisk Ramdisk.ramdiskInit)).disk.vol t :=
    hs ▸ h.shows
  have hfound : t.files Ramdisk.layout (nameTo83 readmeName) = some Ramdisk.readme := by
    rw [h.files]
    decide +kernel
  obtain ⟨-, hquiet, hmode, hevents, -⟩ := editorOpen_log hopen
  have hstill : e₀.steps [] = some e₀ := rfl
  have hplain : e₀.Unedited := by
    rw [EditorState.Unedited, hevents]
    nofun
  refine ⟨t, e₀, e, hopen, hsave, h.files, ?_⟩
  exact open_save_keeps_iff hbpb hshows h.sound h.whole (room_of_full Ramdisk.layout_full _ _) hfound hopen
    hstill hplain hmode hquiet hsave (EditorState.exists_of_saved hsaved)

/-- `verylong.txt` -/
def verylongTxt : CString := ⟨ascii "verylong.txt", by decide⟩

/-- Another name of it, of which twelve characters end at the dot. -/
def verylongnamTxt : CString := ⟨ascii "verylongnam.txt", by decide⟩

/-- The ramdisk with one more file. -/
def verylongRamdisk : Bytes := (fat12WriteFile Ramdisk.bpb verylongTxt [65] Ramdisk.ramdiskInit).state

/-- A file is opened under a name of sixteen characters, and saved under another one. -/
theorem open_save_misplaces : ¬∀ (L : Layout) (t : Tables) (before e₀ e₁ e : EditorState) (name : CString)
    (keys : List Int) (data : List UInt8), before.disk.bpb = L.bpb → Fat12.Shows L before.disk.vol t →
    t.Sound L → t.Whole L → t.Room L (nameTo83 (cutName name 12)) (data.take bufferSize) →
    t.files L (nameTo83 name) = some data → editorOpen before (some name) = some e₀ →
    e₀.steps keys = some e₁ → e₁.Unedited → e₁.mode = .normal → e₁.toKeyState.Quiet →
    e₁.steps EditorState.saveKeys = some e → (∃ saveName text, Event.write saveName text 0 ∈ e.events) →
    Holds L e.disk.vol (t.files L) := by
  intro hclaim
  have hwrite : (fat12WriteFile Ramdisk.bpb verylongTxt [65] Ramdisk.ramdiskInit).out = .done 0 := by
    decide +kernel
  have hprintable : verylongTxt.Printable := by
    unfold CString.Printable
    decide
  obtain ⟨t, hshows, hsound, hwhole, hfiles⟩ :=
    ramdisk_holds.write Ramdisk.layout_full hprintable hwrite
  have hfound : t.files Ramdisk.layout (nameTo83 verylongnamTxt) = some [65] := by
    rw [hfiles]
    exact Function.update_self _ _ _
  have hnew : t.files Ramdisk.layout (nameTo83 (cutName verylongnamTxt 12)) = none := by
    rw [hfiles]
    decide +kernel
  have hruns : ((editorOpen (bootEditor (ramdiskDisk verylongRamdisk)) (some verylongnamTxt)).bind fun e₀ =>
      (e₀.steps EditorState.saveKeys).map fun e => e.saved) = some true := by decide +kernel
  obtain ⟨e₀, hopen, hrun⟩ := Option.bind_eq_some_iff.mp hruns
  obtain ⟨e, hsave, hsaved⟩ := Option.map_eq_some_iff.mp hrun
  obtain ⟨-, hquiet, hmode, hevents, -⟩ := editorOpen_log hopen
  have hbpb : (bootEditor (ramdiskDisk verylongRamdisk)).disk.bpb = Ramdisk.layout.bpb := rfl
  have hshows' : Fat12.Shows Ramdisk.layout (bootEditor (ramdiskDisk verylongRamdisk)).disk.vol t := by
    rw [bootEditor_vol, verylongRamdisk]
    exact hshows
  have hstill : e₀.steps [] = some e₀ := rfl
  have hplain : e₀.Unedited := by
    rw [EditorState.Unedited, hevents]
    nofun
  have hroom := room_of_full (t := t) Ramdisk.layout_full (nameTo83 (cutName verylongnamTxt 12))
    (List.take bufferSize [65])
  have hdone := EditorState.exists_of_saved hsaved
  have hkept := hclaim _ t _ e₀ e₀ e verylongnamTxt [] [65] hbpb hshows' hsound hwhole hroom hfound hopen
    hstill hplain hmode hquiet hsave hdone
  have hholds := holds_saved hbpb hshows' hsound hwhole hroom hfound hopen hstill hplain hmode hquiet hsave hdone
  have hagree := hkept.agree hholds (cutName verylongnamTxt 12)
  rw [hnew, Function.update_self] at hagree
  cases hagree

end RainbowOs.Editor
