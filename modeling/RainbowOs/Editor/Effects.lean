import RainbowOs.Editor.Keys

/-!
# The keys of normal and visual mode

A key that is not `u` or `Ctrl-R` either leaves the text and the flag, or
edits after a boundary and sets the flag; after an edit no key is waited for.
-/

namespace RainbowOs.Editor

/-- No other key is waited for. -/
structure KeyState.Quiet (k : KeyState) : Prop where
  awaitingG : k.awaitingG = false
  awaitingR : k.awaitingR = false
  awaitingGt : k.awaitingGt = false
  awaitingLt : k.awaitingLt = false
  pendingOperator : k.pendingOperator = .none
  repeatCount : k.repeatCount = 0

instance (k : KeyState) : Decidable k.Quiet :=
  decidable_of_iff (k.awaitingG = false ∧ k.awaitingR = false ∧ k.awaitingGt = false ∧
    k.awaitingLt = false ∧ k.pendingOperator = .none ∧ k.repeatCount = 0)
    ⟨fun ⟨hg, hr, hgt, hlt, hop, hcount⟩ => ⟨hg, hr, hgt, hlt, hop, hcount⟩,
      fun h => ⟨h.awaitingG, h.awaitingR, h.awaitingGt, h.awaitingLt, h.pendingOperator, h.repeatCount⟩⟩

/-- What an edit leaves. -/
structure KeyState.Settled (k : KeyState) : Prop extends KeyState.Quiet k where
  mode : k.mode = .normal ∨ k.mode = .insert

/-- What every key leaves: at most one key is waited for, and in normal mode only, but for `g`. -/
structure KeyState.Tidy (k : KeyState) : Prop where
  r : k.awaitingR = true → k.awaitingG = false ∧ k.awaitingGt = false ∧ k.awaitingLt = false ∧
    k.pendingOperator = .none
  g : k.awaitingG = true → k.awaitingGt = false ∧ k.awaitingLt = false
  gt : k.awaitingGt = true → k.awaitingLt = false ∧ k.pendingOperator = .none
  lt : k.awaitingLt = true → k.pendingOperator = .none
  away : k.mode ≠ .normal → KeyState.Quiet { k with awaitingG := false }
  typing : k.mode = .insert ∨ k.mode = .command → k.awaitingG = false

theorem KeyState.Quiet.tidy {k : KeyState} (h : k.Quiet) : k.Tidy := by
  obtain ⟨hg, hr, hgt, hlt, hop, hcount⟩ := h
  refine ⟨?_, ?_, ?_, fun _ => hop, fun _ => ⟨rfl, hr, hgt, hlt, hop, hcount⟩, fun _ => hg⟩
  · rw [hr]
    nofun
  · rw [hg]
    nofun
  · rw [hgt]
    nofun

namespace EditorState

/-- What a key that is not `u` or `Ctrl-R` does. -/
inductive Effect (e e' : EditorState) : Prop
  | rests (ran : Ran BufCall.IsQuiet e e') (flag : e'.modified = e.modified)
      (tidy : e'.toKeyState.Tidy)
  | edits (ran : Ran BufCall.IsEdit (e.call .undoBoundary) e') (flag : e'.modified = true)
      (settled : e'.toKeyState.Settled)

variable {e e₀ e₁ : EditorState} {k : KeyState}

theorem Ran.source {P : BufCall → Prop} (h : Ran P e₀ e₁) (hcore : e₀.core = e.core) : Ran P e e₁ := by
  simp only [core, Prod.mk.injEq] at hcore
  obtain ⟨hb, he, hf, hr⟩ := hcore
  obtain ⟨cs, hcs, hbuffer, hevents, hfiles, hrunning⟩ := h
  exact ⟨cs, hcs, hbuffer.trans (by rw [hb]), hevents.trans (by rw [he]), hfiles.trans hf, hrunning.trans hr⟩

theorem Ran.running {P : BufCall → Prop} (h : Ran P e e₁) : e₁.running = e.running := by
  obtain ⟨-, -, -, -, -, hrunning⟩ := h
  exact hrunning

theorem core_call (hcore : e₀.core = e.core) (c : BufCall) : (e₀.call c).core = (e.call c).core := by
  simp only [core, call, Prod.mk.injEq] at hcore ⊢
  obtain ⟨hb, he, hd, hr⟩ := hcore
  exact ⟨by rw [hb], by rw [he], hd, hr⟩

/-- What an earlier part of the key did to the flags does not matter. -/
theorem Effect.source (h : Effect e₀ e₁) (hcore : e₀.core = e.core) (hflag : e₀.modified = e.modified) :
    Effect e e₁ := by
  cases h with
  | rests ran flag tidy => exact .rests (ran.source hcore) (flag.trans hflag) tidy
  | edits ran flag settled => exact .edits (ran.source (core_call hcore _)) flag settled

theorem Moves.effect (h : Moves e e₁) (hk : k.Tidy) : Effect e { e₁ with toKeyState := k } :=
  .rests ((h.ran.mono fun _ => BufCall.IsMove.quiet).congr rfl) h.flag hk

theorem Edits.effect (h : Edits (e.call .undoBoundary) e₁) (hk : k.Settled) :
    Effect e { e₁ with toKeyState := k } := by
  rcases h.flag with hset | ⟨hsame, hran⟩
  · exact .edits (h.ran.congr rfl) hset hk
  · refine .rests (Ran.congr ?_ rfl) hsame hk.toQuiet.tidy
    exact (Does.call (c := .undoBoundary) trivial e).ran.trans (hran.mono fun _ => BufCall.IsMove.quiet)

/-! ## Regular commands -/

theorem await_tidy (h : k.Quiet) (hinsert : k.mode ≠ .insert) (hcommand : k.mode ≠ .command)
    (g : Bool) : KeyState.Tidy { k with awaitingG := g } := by
  obtain ⟨-, hr, hgt, hlt, hop, hcount⟩ := h
  refine ⟨?_, fun _ => ⟨hgt, hlt⟩, ?_, fun _ => hop, fun _ => ⟨rfl, hr, hgt, hlt, hop, hcount⟩, ?_⟩
  · show k.awaitingR = true → _
    rw [hr]
    nofun
  · show k.awaitingGt = true → _
    rw [hgt]
    nofun
  · rintro (hmode | hmode)
    · exact absurd hmode hinsert
    · exact absurd hmode hcommand

/-- What holds of a state, where there is one. -/
def Given (Q : EditorState → Prop) (r : Option EditorState) : Prop := ∀ e, r = some e → Q e

section Given

variable {Q : EditorState → Prop} {p : Prop} [Decidable p] {r r' : Option EditorState}

theorem Given.some (h : Q e) : Given Q (some e) := fun _ he => Option.some.inj he ▸ h

theorem Given.none : Given Q Option.none := fun e he => (Option.some_ne_none e he.symm).elim

theorem Given.ite (h : Given Q r) (h' : Given Q r') : Given Q (if p then r else r') := by
  split
  · exact h
  · exact h'

theorem Given.or (h : Given Q r) (h' : Given Q r') : Given Q (r.or r') := by
  cases r with
  | none => exact h'
  | some e => exact h

theorem of_ite {e e' : EditorState} (h : Q e) (h' : Q e') : Q (if p then e else e') := by
  split
  · exact h
  · exact h'

theorem Given.getD (h : Given Q r) (he : Q e) : Q (r.getD e) := by
  cases r with
  | none => exact he
  | some e => exact h e rfl

end Given

/-- A motion moves the cursor, but `g` waits. -/
theorem moves_movement (e : EditorState) (key : Int) (count : Nat) :
    Given (fun e₁ => ∃ g e₀, Moves e e₀ ∧ e₁ = { e₀ with awaitingG := g }) (e.movement key count) := by
  have hmoves : ∀ e₁, Moves e e₁ → ∃ g e₀, Moves e e₀ ∧ e₁ = { e₀ with awaitingG := g } :=
    fun e₁ h => ⟨e₁.awaitingG, e₁, h, rfl⟩
  have hto : ∀ pos, ∃ g e₀, Moves e e₀ ∧ e.moveTo pos = { e₀ with awaitingG := g } :=
    fun pos => hmoves _ (moves_moveTo e pos)
  unfold movement
  refine .ite (.some (hmoves _ (Moves.calls (c := .moveLeft) trivial e count).syncCursor)) ?_
  refine .ite (.some (hmoves _ (Moves.calls (c := .moveRight) trivial e count).syncCursor)) ?_
  refine .ite (.some (hmoves _ (moves_moveVertical e _))) ?_
  refine .ite (.some (hmoves _ (moves_moveVertical e _))) ?_
  refine .ite (.some (hto _)) (.ite (.some (hto _)) (.ite (.some (hto _)) ?_))
  refine .ite (.some (hto _)) (.ite (.some (hto _)) (.ite (.some (hto _)) ?_))
  refine .ite (.some (hto _)) (.ite (.some (hto _)) (.ite (.some (hto _)) ?_))
  refine .ite (.some ⟨true, e, .refl e, rfl⟩) (.ite (.some (hmoves _ ?_)) ?_)
  · split
    · exact moves_moveToLineCol e _ _
    · exact moves_moveToLineCol e _ _
  · refine .ite (.some (hmoves _ (moves_moveVertical e _))) ?_
    exact .ite (.some (hmoves _ (moves_moveVertical e _))) .none

theorem effect_movement (key : Int) (count : Nat) (hk : e.toKeyState.Quiet) (hinsert : e.mode ≠ .insert)
    (hcommand : e.mode ≠ .command) : Given (Effect e) (e.movement key count) := by
  intro e₁ h
  obtain ⟨g, e₀, hmoves, rfl⟩ := moves_movement e key count e₁ h
  have hkeys := hmoves.keys
  refine hmoves.effect (k := { e₀.toKeyState with awaitingG := g }) ?_
  rw [hkeys]
  exact await_tidy hk hinsert hcommand g

/-- An edit that keeps the mode. -/
theorem Edits.stays (h : Edits (e.call .undoBoundary) e₁) (hk : e.toKeyState.Settled) : Effect e e₁ :=
  h.effect (k := e₁.toKeyState) (h.keys ▸ hk)

/-- An edit in another mode after it. -/
theorem Edits.enters (h : Edits (e.call .undoBoundary) e₁) (hk : e.toKeyState.Quiet) {mode : Mode}
    (hmode : mode = .normal ∨ mode = .insert) : Effect e (e₁.setMode mode) := by
  refine h.effect (k := { e₁.toKeyState with mode := mode }) ?_
  rw [h.keys]
  exact ⟨⟨hk.awaitingG, hk.awaitingR, hk.awaitingGt, hk.awaitingLt, hk.pendingOperator, hk.repeatCount⟩, hmode⟩

theorem edits_enterAt (e : EditorState) (key : Int) : Given (Edits e) (e.enterAt key) := by
  have hopen : ∀ pos, Does BufCall.IsEdit e ((e.call (.moveTo pos)).call (.insert 10)) := fun pos =>
    (Does.call (c := .moveTo pos) trivial e).trans (.call (c := .insert 10) trivial _)
  unfold enterAt
  refine .ite (.some (.refl e)) ?_
  refine .ite (.some (Moves.call (c := .moveRight) trivial e).syncCursor.edits) ?_
  refine .ite (.some (moves_moveTo e _).edits) (.ite (.some (moves_moveTo e _).edits) ?_)
  refine .ite (.some (hopen _).syncCursor.edits) (.ite (.some ?_) .none)
  exact ((hopen _).trans (.call (c := .moveLeft) trivial _)).syncCursor.edits

theorem effect_insertEntry (key : Int) (hk : e.toKeyState.Quiet) : Given (Effect e) (e.insertEntry key) := by
  intro e₁ h
  obtain ⟨e₀, henter, rfl⟩ := Option.map_eq_some_iff.mp h
  exact (edits_enterAt _ key e₀ henter).enters hk (.inr rfl)

theorem effect_editing (key : Int) (count : Nat) (hk : e.toKeyState.Settled) :
    Given (Effect e) (e.editing key count) := by
  unfold editing
  refine .ite (.some ((edits_deleteChars e count).stays hk)) ?_
  refine .ite (.some ((edits_deleteToEnd e).stays hk)) ?_
  refine .ite (.some ((edits_deleteToEnd e).enters hk.toQuiet (.inr rfl))) ?_
  refine .ite (.some ((edits_substituteLine e).enters hk.toQuiet (.inr rfl))) ?_
  refine .ite (.some ?_) (.ite (.some ((edits_joinLines e count).stays hk)) ?_)
  · by_cases hyank : e.yankBuf = []
    · rw [paste, if_pos hyank]
      exact (Moves.refl e).effect (k := e.toKeyState) hk.toQuiet.tidy
    · exact (edits_paste e count hyank).stays hk
  · exact .ite (.some ((edits_toggleChars e count).stays hk)) .none

/-- A key that changes no more than what the next key finds. -/
theorem effect_keys (e : EditorState) (hcore : e₁.core = e.core) (hflag : e₁.modified = e.modified)
    (hk : e₁.toKeyState.Tidy) : Effect e e₁ :=
  .rests ((Ran.refl _ e).congr hcore) hflag hk

/-- Normal mode waits for the second of two keys. -/
theorem awaiting_tidy (hk : k.Quiet) (hmode : k.mode = .normal) (count : Nat) :
    KeyState.Tidy { k with awaitingR := true, repeatCount := count, countActive := true } ∧
    KeyState.Tidy { k with awaitingGt := true, repeatCount := count, countActive := true } ∧
    KeyState.Tidy { k with awaitingLt := true, repeatCount := count, countActive := true } := by
  obtain ⟨hg, hr, hgt, hlt, hop, hcount⟩ := hk
  refine ⟨?_, ?_, ?_⟩
  all_goals constructor <;> simp [hg, hr, hgt, hlt, hop, hmode]

/-- Normal mode waits for a motion. -/
theorem operator_tidy (hk : k.Quiet) (hmode : k.mode = .normal) (op : PendingOp) (count : Nat) :
    KeyState.Tidy { k with pendingOperator := op, opCount := count } := by
  obtain ⟨hg, hr, hgt, hlt, hop, hcount⟩ := hk
  constructor <;> simp [hg, hr, hgt, hlt, hmode]

/-- The mode is another one. -/
theorem mode_tidy (hk : k.Quiet) (mode : Mode) : KeyState.Tidy { k with mode := mode } := by
  obtain ⟨hg, hr, hgt, hlt, hop, hcount⟩ := hk
  exact KeyState.Quiet.tidy ⟨hg, hr, hgt, hlt, hop, hcount⟩

theorem effect_modeKeys (key : Int) (count : Nat) (hk : e.toKeyState.Quiet) (hmode : e.mode = .normal) :
    Given (Effect e) (e.modeKeys key count) := by
  obtain ⟨hr, hgt, hlt⟩ := awaiting_tidy hk hmode count
  have hop := fun op => operator_tidy hk hmode op count
  have hmodes := fun mode => mode_tidy hk mode
  unfold modeKeys
  refine .ite (.some (effect_keys e rfl rfl hr)) ?_
  refine .ite (.some (effect_keys e rfl rfl (hop _))) (.ite (.some (effect_keys e rfl rfl (hop _))) ?_)
  refine .ite (.some (effect_keys e rfl rfl (hop _))) (.ite (.some ?_) ?_)
  · have hyank := iterate_of Moves.refl Moves.trans moves_yankCurrentLine count e
    exact (hyank.trans (moves_yankLinewise _ true)).effect (k := (yankCurrentLine^[count] e).toKeyState)
      (hyank.keys ▸ hk.tidy)
  · refine .ite (.some (effect_keys e rfl rfl hgt)) (.ite (.some (effect_keys e rfl rfl hlt)) ?_)
    refine .ite (.some (effect_keys e rfl rfl (hmodes _))) (.ite (.some (effect_keys e rfl rfl (hmodes _))) ?_)
    exact .ite (.some (effect_keys e rfl rfl (hmodes _))) .none

theorem effect_regularCommand {key : Int} (count : Nat) (hk : e.toKeyState.Quiet) (hmode : e.mode = .normal)
    (hu : key ≠ ch 'u') (hr : key ≠ keyCtrl 'r') : Effect e (e.regularCommand key count) := by
  have hinsert : e.mode ≠ .insert := by simp [hmode]
  have hcommand : e.mode ≠ .command := by simp [hmode]
  rw [regularCommand, if_neg hu, if_neg hr]
  refine Given.getD ?_ (effect_keys e rfl rfl hk.tidy)
  refine .or (.or (.or (effect_movement key count hk hinsert hcommand) (effect_insertEntry key hk)) ?_) ?_
  · exact effect_editing key count ⟨hk, .inl hmode⟩
  · exact effect_modeKeys key count hk hmode

/-! ## Operators -/

/-- An operator that has been given its range. -/
def Operates (e e' : EditorState) : Prop :=
  ∃ e₁ mode, Edits (e.call .undoBoundary) e₁ ∧ (mode = e.mode ∨ mode = .insert) ∧
    e' = { e₁ with mode := mode, pendingOperator := .none, opCount := 0 }

/-- The operators `d` and `y` keep the mode. -/
theorem Edits.cancels (h : Edits (e.call .undoBoundary) e₁) : Operates e e₁.cancelOperator :=
  ⟨e₁, e₁.mode, h, .inl (congrArg KeyState.mode h.keys), rfl⟩

/-- The operator `c` ends in insert mode. -/
theorem Edits.cancels_insert (h : Edits (e.call .undoBoundary) e₁) :
    Operates e (e₁.setMode .insert).cancelOperator :=
  ⟨e₁, .insert, h, .inr rfl, rfl⟩

theorem Edits.operates (h : Edits (e.call .undoBoundary) e₁) {p : Prop} [Decidable p] :
    Operates e (if p then e₁.setMode .insert else e₁).cancelOperator := by
  split
  · exact h.cancels_insert
  · exact h.cancels

theorem operates_charwise (e : EditorState) (pos target : Nat) :
    Operates e (e.applyOperatorCharwise pos target) := by
  have hyank := fun start stop => (moves_yankAs (e.call .undoBoundary) start stop false).edits
  exact ((hyank _ _).trans (edits_of_ite (edits_deleteRange _ _ _))).operates

theorem Edits.operates_lines (h : Edits (e.call .undoBoundary) e₁) (start stop line : Nat) {p q : Prop}
    [Decidable p] [Decidable q] : Operates e
      (if p then e₁.deleteRange start stop
        else if q then ((e₁.deleteRange start stop).moveTo line).setMode .insert
        else e₁).cancelOperator := by
  have hdelete := h.trans (edits_deleteRange e₁ start stop)
  split
  · exact hdelete.cancels
  · split
    · exact (hdelete.trans (moves_moveTo _ line).edits).cancels_insert
    · exact h.cancels

theorem operates_linewise (e : EditorState) (line other : Nat) :
    Operates e (e.applyOperatorLinewise line other) := by
  have hyank := fun start stop => (moves_yankAs (e.call .undoBoundary) start stop true).edits
  exact (hyank _ _).operates_lines _ _ _

/-- After an operator nothing is waited for, as nothing else was before it. -/
theorem Operates.settled (h : Operates e e₁) (hmode : e.mode = .normal)
    (hk : KeyState.Quiet { e.toKeyState with pendingOperator := .none }) :
    Effect e e₁ := by
  obtain ⟨e₀, mode, hedits, hm, rfl⟩ := h
  have hkeys : e₀.toKeyState = e.toKeyState := hedits.keys
  refine hedits.effect (k := { e₀.toKeyState with mode := mode, pendingOperator := .none, opCount := 0 }) ?_
  rw [hkeys]
  refine ⟨⟨hk.awaitingG, hk.awaitingR, hk.awaitingGt, hk.awaitingLt, rfl, hk.repeatCount⟩, ?_⟩
  rw [hmode] at hm
  exact hm

theorem effect_operatorMotion (key : Int) (count : Nat) (hmode : e.mode = .normal)
    (hk : KeyState.Quiet { e.toKeyState with pendingOperator := .none }) :
    Effect e (e.handleOperatorMotion key count) := by
  have hchar := fun pos target => (operates_charwise e pos target).settled hmode hk
  have hline := fun a b => (operates_linewise e a b).settled hmode hk
  unfold handleOperatorMotion
  refine of_ite (hline _ _) ?_
  refine of_ite (hchar _ _) (of_ite (hchar _ _) (of_ite (hchar _ _) (of_ite (hchar _ _) ?_)))
  refine of_ite (hchar _ _) (of_ite (hchar _ _) (of_ite (hchar _ _) (of_ite (hchar _ _) ?_)))
  refine of_ite (hchar _ _) (of_ite (hchar _ _) (of_ite (hline _ _) (of_ite (hline _ _) ?_)))
  refine of_ite (hline _ _) (of_ite (effect_keys e rfl rfl ?_) (effect_keys e rfl rfl ?_))
  · obtain ⟨hg, hr, hgt, hlt, -, hcount⟩ := hk
    constructor <;> simp_all
  · obtain ⟨hg, hr, hgt, hlt, -, hcount⟩ := hk
    exact KeyState.Quiet.tidy ⟨hg, hr, hgt, hlt, rfl, hcount⟩

/-! ## Second keys -/

/-- The count is used up after a key. -/
theorem Effect.resetCount (h : Effect e e₁) : Effect e e₁.resetCount := by
  cases h with
  | rests ran flag tidy =>
    refine .rests (ran.congr rfl) flag ⟨tidy.r, tidy.g, tidy.gt, tidy.lt, fun h => ?_, tidy.typing⟩
    obtain ⟨hg, hr, hgt, hlt, hop, -⟩ := tidy.away h
    exact ⟨hg, hr, hgt, hlt, hop, rfl⟩
  | edits ran flag settled =>
    exact .edits (ran.congr rfl) flag ⟨⟨settled.awaitingG, settled.awaitingR, settled.awaitingGt,
      settled.awaitingLt, settled.pendingOperator, rfl⟩, settled.mode⟩

theorem effect_handleR (key : Int) (hk : e.toKeyState.Tidy) (hmode : e.mode = .normal)
    (hr : e.awaitingR = true) : Effect e (e.handleR key) := by
  obtain ⟨hg, hgt, hlt, hop⟩ := hk.r hr
  have hquiet : KeyState.Quiet
      { e.toKeyState with awaitingR := false, repeatCount := 0, countActive := false } :=
    ⟨hg, rfl, hgt, hlt, hop, rfl⟩
  have hsource : ∀ e₁, Effect (resetCount { e with awaitingR := false }) e₁ → Effect e e₁ :=
    fun e₁ h => h.source rfl rfl
  unfold handleR
  refine hsource _ (of_ite ?_ ?_)
  · exact (edits_replaceChars _ _ _).stays ⟨hquiet, .inl hmode⟩
  · exact effect_keys _ rfl rfl hquiet.tidy

/-- The same where the count is used up after the operator. -/
theorem Operates.settled_reset (h : Operates e e₁) (hmode : e.mode = .normal)
    (hk : KeyState.Quiet { e.toKeyState with pendingOperator := .none, repeatCount := 0 }) :
    Effect e e₁.resetCount := by
  obtain ⟨e₀, mode, hedits, hm, rfl⟩ := h
  have hkeys : e₀.toKeyState = e.toKeyState := hedits.keys
  refine hedits.effect (k := { e₀.toKeyState with
    mode := mode, pendingOperator := .none, opCount := 0, repeatCount := 0, countActive := false }) ?_
  rw [hkeys]
  refine ⟨⟨hk.awaitingG, hk.awaitingR, hk.awaitingGt, hk.awaitingLt, rfl, rfl⟩, ?_⟩
  rw [hmode] at hm
  exact hm

theorem effect_handleG (key : Int) (hk : e.toKeyState.Tidy) (hmode : e.mode = .normal)
    (hg : e.awaitingG = true) (hr : ¬e.awaitingR = true) : Effect e (e.handleG key) := by
  obtain ⟨hgt, hlt⟩ := hk.g hg
  have hr : e.awaitingR = false := by simpa using hr
  have hsource : ∀ e₁, Effect { e with awaitingG := false } e₁ → Effect e e₁ := fun e₁ h => h.source rfl rfl
  unfold handleG
  refine hsource _ ?_
  dsimp only
  split
  · split
    · exact (operates_linewise _ _ _).settled_reset hmode ⟨rfl, hr, hgt, hlt, rfl, rfl⟩
    · next hop =>
      have hop : e.pendingOperator = .none := by simpa using hop
      have hquiet : (resetCount { e with awaitingG := false }).toKeyState.Quiet := ⟨rfl, hr, hgt, hlt, hop, rfl⟩
      have hmoves : ∀ line, Effect { e with awaitingG := false }
          ((resetCount { e with awaitingG := false }).moveToLineCol line 0) := fun line => by
        have hline := moves_moveToLineCol (resetCount { e with awaitingG := false }) line 0
        exact (hline.effect (k := _) (hline.keys ▸ hquiet.tidy)).source rfl rfl
      exact (of_ite (hmoves _) (hmoves _)).resetCount
  · refine effect_keys _ rfl rfl ?_
    constructor <;> simp [resetCount, hr, hgt, hlt, hmode]

/-- A line command, when its second key has come. -/
theorem effect_lines {f : EditorState → Nat → EditorState}
    (hf : ∀ e line, Does BufCall.IsEdit e (f e line)) {key second : Int} (cnt : Nat)
    (hk : e.resetCount.toKeyState.Settled) :
    Effect e (if key = second then e.resetCount.onLines f cnt else e).resetCount := by
  split
  · have hlines : Effect e (e.resetCount.onLines f cnt) :=
      ((edits_onLines hf e.resetCount cnt).stays hk).source rfl rfl
    exact hlines.resetCount
  · exact effect_keys e rfl rfl hk.toQuiet.tidy

theorem effect_handleGt (key : Int) (hk : e.toKeyState.Tidy) (hmode : e.mode = .normal)
    (hgt : e.awaitingGt = true) (hg : ¬e.awaitingG = true) (hr : ¬e.awaitingR = true) :
    Effect e (e.handleGt key) := by
  obtain ⟨hlt, hop⟩ := hk.gt hgt
  have hg : e.awaitingG = false := by simpa using hg
  have hr : e.awaitingR = false := by simpa using hr
  have hsource : ∀ e₁, Effect { e with awaitingGt := false } e₁ → Effect e e₁ := fun e₁ h => h.source rfl rfl
  exact hsource _ (effect_lines does_indentLine _ ⟨⟨hg, hr, rfl, hlt, hop, rfl⟩, .inl hmode⟩)

theorem effect_handleLt (key : Int) (hk : e.toKeyState.Tidy) (hmode : e.mode = .normal)
    (hlt : e.awaitingLt = true) (hgt : ¬e.awaitingGt = true) (hg : ¬e.awaitingG = true)
    (hr : ¬e.awaitingR = true) : Effect e (e.handleLt key) := by
  have hop := hk.lt hlt
  have hgt : e.awaitingGt = false := by simpa using hgt
  have hg : e.awaitingG = false := by simpa using hg
  have hr : e.awaitingR = false := by simpa using hr
  have hsource : ∀ e₁, Effect { e with awaitingLt := false } e₁ → Effect e e₁ := fun e₁ h => h.source rfl rfl
  exact hsource _ (effect_lines does_outdentLine _ ⟨⟨hg, hr, hgt, rfl, hop, rfl⟩, .inl hmode⟩)

/-! ## The modes -/

/-- `u` or `Ctrl-R`, where normal mode waits for no other key. -/
def UndoPress (e : EditorState) (key : Int) : Prop :=
  e.mode = .normal ∧ e.awaitingR = false ∧ e.awaitingG = false ∧ e.awaitingGt = false ∧
    e.awaitingLt = false ∧ e.pendingOperator = .none ∧ (key = ch 'u' ∨ key = keyCtrl 'r')

theorem effect_handleNormal {key : Int} (hk : e.toKeyState.Tidy) (hmode : e.mode = .normal)
    (hpress : ¬e.UndoPress key) : Effect e (e.handleNormal key) := by
  unfold handleNormal
  split
  · refine effect_keys e rfl rfl ⟨hk.r, hk.g, hk.gt, hk.lt, fun h => absurd hmode h, hk.typing⟩
  split
  · next hr => exact effect_handleR key hk hmode hr
  split
  · next hr hg => exact effect_handleG key hk hmode hg hr
  split
  · next hr hg hgt => exact effect_handleGt key hk hmode hgt hg hr
  split
  · next hr hg hgt hlt => exact effect_handleLt key hk hmode hlt hgt hg hr
  next hr hg hgt hlt =>
    have hr : e.awaitingR = false := by simpa using hr
    have hg : e.awaitingG = false := by simpa using hg
    have hgt : e.awaitingGt = false := by simpa using hgt
    have hlt : e.awaitingLt = false := by simpa using hlt
    have hsource : ∀ e₁, Effect e.resetCount e₁ → Effect e e₁ := fun e₁ h => h.source rfl rfl
    refine hsource _ ?_
    dsimp only
    split
    · exact effect_operatorMotion key _ hmode ⟨hg, hr, hgt, hlt, rfl, rfl⟩
    · next hop =>
      have hop : e.pendingOperator = .none := by simpa [resetCount] using hop
      refine effect_regularCommand _ ⟨hg, hr, hgt, hlt, hop, rfl⟩ hmode ?_ ?_
      · exact fun h => hpress ⟨hmode, hr, hg, hgt, hlt, hop, .inl h⟩
      · exact fun h => hpress ⟨hmode, hr, hg, hgt, hlt, hop, .inr h⟩

/-- A motion, with another mode after it. -/
theorem Moves.enters (h : Moves e e₁) (hk : e.toKeyState.Quiet) (mode : Mode) : Effect e (e₁.setMode mode) :=
  h.effect (k := { e₁.toKeyState with mode := mode }) (h.keys ▸ mode_tidy hk mode)

theorem effect_visualAction (key : Int) (hk : e.toKeyState.Quiet) : Given (Effect e) (e.visualAction key) := by
  unfold visualAction
  refine .ite (.some ((moves_yankSelection e).enters hk .normal))
    (.ite (.some ((edits_deleteSelection e).enters hk (.inl rfl))) ?_)
  refine .ite (.some ((edits_deleteSelection e).enters hk (.inr rfl))) ?_
  refine .ite (.some ((edits_onSelectedLines does_indentLine e).enters hk (.inl rfl))) ?_
  refine .ite (.some ((edits_onSelectedLines does_outdentLine e).enters hk (.inl rfl))) ?_
  exact .ite (.some ((edits_toggleSelection e).enters hk (.inl rfl))) .none

theorem effect_handleVisual (key : Int) (hk : e.toKeyState.Tidy)
    (hmode : e.mode = .visual ∨ e.mode = .visualLine) : Effect e (e.handleVisual key) := by
  have hnormal : e.mode ≠ .normal := by rcases hmode with h | h <;> simp [h]
  have hinsert : e.mode ≠ .insert := by rcases hmode with h | h <;> simp [h]
  have hcommand : e.mode ≠ .command := by rcases hmode with h | h <;> simp [h]
  have hquiet := hk.away hnormal
  unfold handleVisual
  split
  · refine of_ite ?_ (effect_keys e rfl rfl hquiet.tidy)
    have hline := moves_moveToLineCol { e with awaitingG := false } 0 0
    exact (hline.effect (k := _) (hline.keys ▸ hquiet.tidy)).source rfl rfl
  · next hg =>
    have hg : e.awaitingG = false := by simpa using hg
    have hquiet : e.toKeyState.Quiet := ⟨hg, hquiet.awaitingR, hquiet.awaitingGt, hquiet.awaitingLt,
      hquiet.pendingOperator, hquiet.repeatCount⟩
    have hmodes : ∀ mode, Effect e (e.setMode mode) := fun mode =>
      effect_keys e rfl rfl (mode_tidy hquiet mode)
    refine of_ite (hmodes _) (of_ite (hmodes _) (of_ite (hmodes _) ?_))
    refine of_ite (effect_keys e rfl rfl hk) ?_
    refine Given.getD ?_ (effect_keys e rfl rfl hk)
    exact .or (effect_movement key 1 hquiet hinsert hcommand) (effect_visualAction key hquiet)

/-! ## `u` and `Ctrl-R` -/

theorem does_undoKey (e : EditorState) (count : Nat) : Does (fun _ => True) e (e.undoKey count) :=
  ((Does.call (c := .undoBoundary) trivial e).trans (.callWhile (c := .undo) trivial _ count _)).congr rfl rfl

theorem does_redoKey (e : EditorState) (count : Nat) : Does (fun _ => True) e (e.redoKey count) :=
  (Does.callWhile (c := .redo) trivial _ count e).congr rfl rfl

/-- What normal mode does with `u` and `Ctrl-R`. -/
theorem handleNormal_press {key : Int} (hpress : e.UndoPress key) :
    e.handleNormal key =
      if key = ch 'u' then e.resetCount.undoKey (if e.repeatCount > 0 then e.repeatCount else 1)
      else e.resetCount.redoKey (if e.repeatCount > 0 then e.repeatCount else 1) := by
  obtain ⟨-, hr, hg, hgt, hlt, hop, hkey⟩ := hpress
  have hdigit : ¬((ch '1' ≤ key ∧ key ≤ ch '9') ∨ (key = ch '0' ∧ e.countActive = true)) := by
    rcases hkey with rfl | rfl <;> simp [ch, keyCtrl]
  have hop' : ¬e.resetCount.pendingOperator ≠ .none := fun h => h hop
  rw [handleNormal, if_neg hdigit, hr, hg, hgt, hlt]
  simp only [Bool.false_eq_true, if_false, if_neg hop', regularCommand]
  rcases hkey with rfl | rfl
  · rfl
  · rfl

/-- Clearing the message changes nothing that the keys are about. -/
theorem clearStatus_keeps (e : EditorState) : e.clearStatus.core = e.core ∧
    e.clearStatus.toKeyState = e.toKeyState ∧ e.clearStatus.modified = e.modified ∧
    (e.clearStatus.cmdBuf = [] ∨ e.clearStatus.cmdBuf = e.cmdBuf) := by
  unfold clearStatus
  split
  · exact ⟨rfl, rfl, rfl, .inl rfl⟩
  · exact ⟨rfl, rfl, rfl, .inr rfl⟩

/-- Normal mode, where no other key is waited for. -/
structure Rests (e : EditorState) : Prop where
  quiet : e.toKeyState.Quiet
  mode : e.mode = .normal
  running : e.running = true

/-- `u` and `Ctrl-R` call the buffer, and normal mode waits for no other key after them. -/
theorem Rests.press (h : e.Rests) {key : Int} (hkey : key = ch 'u' ∨ key = keyCtrl 'r') :
    ∃ e', e.step key = some e' ∧ e'.Rests ∧
      e'.buffer = if key = ch 'u' then e.buffer.bufUndoBoundary.bufUndo.2 else e.buffer.bufRedo.2 := by
  obtain ⟨hquiet, hmode, hrunning⟩ := h
  obtain ⟨hcore, hkeys, -, -⟩ := clearStatus_keeps e
  have hstep : e.step key = some (e.clearStatus.handleNormal key) := by
    rw [step, show e.clearStatus.mode = .normal from (congrArg KeyState.mode hkeys).trans hmode]
  have hbuffer : e.clearStatus.buffer = e.buffer := congrArg Prod.fst hcore
  have hrun : e.clearStatus.running = true := (congrArg (fun c => c.2.2.2) hcore).trans hrunning
  rw [← hkeys] at hquiet
  have hpress : e.clearStatus.UndoPress key := ⟨(congrArg KeyState.mode hkeys).trans hmode, hquiet.awaitingR,
    hquiet.awaitingG, hquiet.awaitingGt, hquiet.awaitingLt, hquiet.pendingOperator, hkey⟩
  have hreset : e.clearStatus.resetCount.toKeyState.Quiet ∧ e.clearStatus.resetCount.mode = .normal :=
    ⟨⟨hquiet.awaitingG, hquiet.awaitingR, hquiet.awaitingGt, hquiet.awaitingLt, hquiet.pendingOperator, rfl⟩,
      hpress.1⟩
  have hrests : ∀ e₁, Does (fun _ => True) e.clearStatus.resetCount e₁ → e₁.Rests := fun e₁ h =>
    ⟨h.keys ▸ hreset.1, (congrArg KeyState.mode h.keys).trans hreset.2, h.ran.running.trans hrun⟩
  refine ⟨_, hstep, ?_⟩
  rw [handleNormal_press hpress, hquiet.repeatCount, ← hbuffer]
  split
  · refine ⟨hrests _ (does_undoKey _ _), ?_⟩
    show (callWhile .undo _ 1 (e.clearStatus.resetCount.call .undoBoundary)).buffer = _
    rw [callWhile_one]
    rfl
  · refine ⟨hrests _ (does_redoKey _ _), ?_⟩
    show (callWhile .redo _ 1 e.clearStatus.resetCount).buffer = _
    rw [callWhile_one]
    rfl

end EditorState

end RainbowOs.Editor
