import RainbowOs.Editor.Editor
import RainbowOs.Editor.Sane

/-!
# What a key does

Each key makes calls of the buffer, and leaves the disk and the other calls
before as they were. A key that edits marks a boundary, then edits, and sets
the flag; one that does not edit leaves the flag, and moves the cursor or
marks a boundary.
-/

namespace RainbowOs.Editor

open RainbowOs.Fat12

namespace EditorState

/-- The disk, and the name of the file that is edited. -/
def files (e : EditorState) : DiskState × CString := (e.disk, e.filename)

/-- The part of the state that the calls of a key are about. -/
def core (e : EditorState) : Buffer × List Event × (DiskState × CString) × Bool :=
  (e.buffer, e.events, e.files, e.running)

/-- One state is reached from another by calls of a kind. -/
def Ran (P : BufCall → Prop) (e e' : EditorState) : Prop :=
  ∃ cs : List BufCall, (∀ c ∈ cs, P c) ∧ e'.buffer = e.buffer.runs cs ∧
    e'.events = e.events ++ cs.map Event.call ∧ e'.files = e.files ∧ e'.running = e.running

/-- And what is left for the next key is the same. -/
structure Does (P : BufCall → Prop) (e e' : EditorState) : Prop where
  ran : Ran P e e'
  keys : e'.toKeyState = e.toKeyState

/-- The cursor is moved. -/
structure Moves (e e' : EditorState) : Prop extends Does BufCall.IsMove e e' where
  flag : e'.modified = e.modified

/-- The text is edited, with the flag set. -/
structure Edits (e e' : EditorState) : Prop extends Does BufCall.IsEdit e e' where
  flag : e'.modified = true ∨ e'.modified = e.modified ∧ Ran BufCall.IsMove e e'

variable {P Q : BufCall → Prop} {e e₁ e₂ : EditorState} {c : BufCall}

theorem Ran.refl (P : BufCall → Prop) (e : EditorState) : Ran P e e :=
  ⟨[], nofun, rfl, (List.append_nil _).symm, rfl, rfl⟩

theorem Ran.trans (h : Ran P e e₁) (h' : Ran P e₁ e₂) : Ran P e e₂ := by
  obtain ⟨cs, hcs, hbuffer, hevents, hfiles, hrunning⟩ := h
  obtain ⟨cs', hcs', hbuffer', hevents', hfiles', hrunning'⟩ := h'
  refine ⟨cs ++ cs', fun c hc => ?_, ?_, ?_, hfiles'.trans hfiles, hrunning'.trans hrunning⟩
  · rcases List.mem_append.mp hc with hc | hc
    · exact hcs c hc
    · exact hcs' c hc
  · rw [hbuffer', hbuffer, runs_append]
  · rw [hevents', hevents, List.map_append, List.append_assoc]

/-- What the calls are not about does not matter. -/
theorem Ran.congr (h : Ran P e e₁) (hcore : e₂.core = e₁.core) : Ran P e e₂ := by
  obtain ⟨cs, hcs, hbuffer, hevents, hfiles, hrunning⟩ := h
  simp only [core, Prod.mk.injEq] at hcore
  obtain ⟨hb, he, hf, hr⟩ := hcore
  exact ⟨cs, hcs, hb.trans hbuffer, he.trans hevents, hf.trans hfiles, hr.trans hrunning⟩

theorem Ran.mono (h : Ran P e e₁) (hPQ : ∀ c, P c → Q c) : Ran Q e e₁ := by
  obtain ⟨cs, hcs, hrest⟩ := h
  exact ⟨cs, fun c hc => hPQ c (hcs c hc), hrest⟩

theorem Does.refl (P : BufCall → Prop) (e : EditorState) : Does P e e := ⟨.refl P e, rfl⟩

theorem Does.trans (h : Does P e e₁) (h' : Does P e₁ e₂) : Does P e e₂ :=
  ⟨h.ran.trans h'.ran, h'.keys.trans h.keys⟩

theorem Does.mono (h : Does P e e₁) (hPQ : ∀ c, P c → Q c) : Does Q e e₁ := ⟨h.ran.mono hPQ, h.keys⟩

theorem Does.congr (h : Does P e e₁) (hcore : e₂.core = e₁.core)
    (hkeys : e₂.toKeyState = e₁.toKeyState) : Does P e e₂ :=
  ⟨h.ran.congr hcore, hkeys.trans h.keys⟩

theorem Does.call (hc : P c) (e : EditorState) : Does P e (e.call c) :=
  ⟨⟨[c], fun _ h => List.mem_singleton.mp h ▸ hc, rfl, rfl, rfl, rfl⟩, rfl⟩

theorem Moves.refl (e : EditorState) : Moves e e := ⟨.refl _ e, rfl⟩

theorem Moves.trans (h : Moves e e₁) (h' : Moves e₁ e₂) : Moves e e₂ :=
  ⟨h.toDoes.trans h'.toDoes, h'.flag.trans h.flag⟩

theorem Moves.congr (h : Moves e e₁) (hcore : e₂.core = e₁.core)
    (hkeys : e₂.toKeyState = e₁.toKeyState) (hflag : e₂.modified = e₁.modified) : Moves e e₂ :=
  ⟨h.toDoes.congr hcore hkeys, hflag.trans h.flag⟩

theorem Moves.edits (h : Moves e e₁) : Edits e e₁ :=
  ⟨h.toDoes.mono fun _ => BufCall.IsMove.edit, .inr ⟨h.flag, h.ran⟩⟩

theorem Edits.refl (e : EditorState) : Edits e e := (Moves.refl e).edits

theorem Edits.trans (h : Edits e e₁) (h' : Edits e₁ e₂) : Edits e e₂ := by
  refine ⟨h.toDoes.trans h'.toDoes, ?_⟩
  rcases h'.flag with hset | ⟨hsame, hran⟩
  · exact .inl hset
  · rcases h.flag with hset | ⟨hsame', hran'⟩
    · exact .inl (hsame.trans hset)
    · exact .inr ⟨hsame.trans hsame', hran'.trans hran⟩

/-- Edits with the flag set after them. -/
theorem Does.edits (h : Does BufCall.IsEdit e e₁) : Edits e e₁.setModified :=
  ⟨h.congr rfl rfl, .inl rfl⟩

/-! ## Loops -/

section Loops

variable {R : EditorState → EditorState → Prop}

theorem iterate_of (hrefl : ∀ e, R e e) (htrans : ∀ {a b c}, R a b → R b c → R a c)
    {f : EditorState → EditorState} (hf : ∀ e, R e (f e)) (n : Nat) (e : EditorState) : R e (f^[n] e) := by
  induction n generalizing e with
  | zero => exact hrefl e
  | succ n ih => exact htrans (hf e) (ih (f e))

theorem foldl_of {α : Type} (hrefl : ∀ e, R e e) (htrans : ∀ {a b c}, R a b → R b c → R a c)
    {f : EditorState → α → EditorState} (hf : ∀ e a, R e (f e a)) (l : List α) (e : EditorState) :
    R e (l.foldl f e) := by
  induction l generalizing e with
  | nil => exact hrefl e
  | cons a l ih => exact htrans (hf e a) (ih (f e a))

theorem forLoop_of (hrefl : ∀ e, R e e) (htrans : ∀ {a b c}, R a b → R b c → R a c)
    {body : Nat → EditorState → Option EditorState} (hbody : ∀ n e e', body n e = some e' → R e e')
    (cnt n : Nat) (e : EditorState) : R e (forLoop body cnt n e) := by
  induction cnt generalizing n e with
  | zero => exact hrefl e
  | succ cnt ih =>
    rw [forLoop]
    cases h : body n e with
    | none => exact hrefl e
    | some e' => exact htrans (hbody n e e' h) (ih (n + 1) e')

end Loops

theorem Does.iterate {f : EditorState → EditorState} (hf : ∀ e, Does P e (f e)) (n : Nat)
    (e : EditorState) : Does P e (f^[n] e) :=
  iterate_of (.refl P) .trans hf n e

theorem Does.foldl {α : Type} {f : EditorState → α → EditorState} (hf : ∀ e a, Does P e (f e a))
    (l : List α) (e : EditorState) : Does P e (l.foldl f e) :=
  foldl_of (.refl P) .trans hf l e

theorem Does.forLoop {body : Nat → EditorState → Option EditorState}
    (hbody : ∀ n e e', body n e = some e' → Does P e e') (cnt n : Nat) (e : EditorState) :
    Does P e (forLoop body cnt n e) :=
  forLoop_of (.refl P) .trans hbody cnt n e

theorem Does.callWhile (hc : P c) (f : Buffer → Bool) (n : Nat) (e : EditorState) :
    Does P e (callWhile c f n e) := by
  induction n generalizing e with
  | zero => exact .refl P e
  | succ n ih =>
    rw [EditorState.callWhile]
    split
    · exact (Does.call hc e).trans (ih _)
    · exact .call hc e

theorem callWhile_one (c : BufCall) (f : Buffer → Bool) (e : EditorState) : callWhile c f 1 e = e.call c := by
  rw [EditorState.callWhile]
  split
  · rfl
  · rfl

theorem Does.calls (hc : P c) (e : EditorState) (n : Nat) : Does P e (e.calls c n) :=
  .iterate (.call hc) n e

/-! ## Motions -/

theorem Moves.call (hc : c.IsMove) (e : EditorState) : Moves e (e.call c) := ⟨.call hc e, rfl⟩

theorem Moves.calls (hc : c.IsMove) (e : EditorState) (n : Nat) : Moves e (e.calls c n) :=
  iterate_of .refl .trans (Moves.call hc) n e

theorem Moves.syncCursor (h : Moves e e₁) : Moves e e₁.syncCursor :=
  h.congr rfl rfl rfl

theorem Does.syncCursor (h : Does P e e₁) : Does P e e₁.syncCursor :=
  h.congr rfl rfl

theorem moves_moveTo (e : EditorState) (pos : Nat) : Moves e (e.moveTo pos) :=
  (Moves.call (c := .moveTo pos) trivial e).syncCursor

theorem moves_moveToLineCol (e : EditorState) (line col : Nat) : Moves e (e.moveToLineCol line col) :=
  moves_moveTo e _

theorem moves_moveVertical (e : EditorState) (delta : Int) : Moves e (e.moveVertical delta) :=
  moves_moveToLineCol e _ _

theorem moves_yank (e : EditorState) (yanked : List UInt8) : Moves e { e with yankBuf := yanked } :=
  (Moves.refl e).congr rfl rfl rfl

theorem moves_yankLinewise (e : EditorState) (linewise : Bool) :
    Moves e { e with yankLinewise := linewise } :=
  (Moves.refl e).congr rfl rfl rfl

theorem moves_yankRange (e : EditorState) (start stop : Nat) : Moves e (e.yankRange start stop) :=
  moves_yank e _

theorem moves_yankCurrentLine (e : EditorState) : Moves e e.yankCurrentLine := moves_yank e _

theorem moves_yankAs (e : EditorState) (start stop : Nat) (linewise : Bool) :
    Moves e (e.yankAs start stop linewise) :=
  (moves_yankRange e start stop).trans (moves_yankLinewise _ linewise)

theorem moves_yankSelection (e : EditorState) : Moves e e.yankSelection := moves_yankAs e _ _ _

/-! ## Edits -/

theorem does_moveTo (e : EditorState) (pos : Nat) : Does BufCall.IsEdit e (e.moveTo pos) :=
  (moves_moveTo e pos).edits.toDoes

theorem edits_deleteRange (e : EditorState) (start stop : Nat) : Edits e (e.deleteRange start stop) :=
  ((Does.call (c := .moveTo start) trivial e).trans (.calls (c := .deleteFwd) trivial _ _)).syncCursor.edits

theorem does_indentLine (e : EditorState) (line : Nat) : Does BufCall.IsEdit e (e.indentLine line) :=
  (Does.call (c := .moveTo _) trivial e).trans (.calls (c := .insert 32) trivial _ _)

theorem does_outdentLine (e : EditorState) (line : Nat) : Does BufCall.IsEdit e (e.outdentLine line) :=
  (Does.call (c := .moveTo _) trivial e).trans (.calls (c := .deleteFwd) trivial _ _)

theorem edits_of_ite {p : Prop} [Decidable p] (h : Edits e e₁) : Edits e (if p then e₁ else e) := by
  split
  · exact h
  · exact .refl e

theorem does_replaceAt (e : EditorState) (pos : Nat) (c : UInt8) :
    Does BufCall.IsEdit e (((e.call (.moveTo pos)).call .deleteFwd).call (.insert c)) :=
  ((Does.call (c := .moveTo pos) trivial e).trans (.call (c := .deleteFwd) trivial _)).trans
    (.call (c := .insert c) trivial _)

theorem edits_replaceChars (e : EditorState) (key : Int) (cnt : Nat) :
    Edits (e.call .undoBoundary) (e.replaceChars key cnt) := by
  refine ((Does.forLoop (fun i e₁ e₂ h => ?_) cnt 0 _).trans (does_moveTo _ _)).edits
  split at h
  · obtain rfl := Option.some.inj h
    exact does_replaceAt e₁ _ _
  · cases h

theorem edits_onLines {f : EditorState → Nat → EditorState}
    (hf : ∀ e line, Does BufCall.IsEdit e (f e line)) (e : EditorState) (cnt : Nat) :
    Edits (e.call .undoBoundary) (e.onLines f cnt) := by
  refine (Does.forLoop (fun n e₁ e₂ h => ?_) cnt 0 _).syncCursor.edits
  split at h
  · cases h
  · obtain rfl := Option.some.inj h
    exact hf e₁ _

theorem edits_deleteChars (e : EditorState) (count : Nat) :
    Edits (e.call .undoBoundary) (e.deleteChars count) := by
  refine (Does.iterate (fun e => ?_) count _).syncCursor.edits
  split
  · exact .call (c := .deleteFwd) trivial e
  · exact .refl _ e

theorem edits_deleteToEnd (e : EditorState) : Edits (e.call .undoBoundary) e.deleteToEnd :=
  edits_of_ite ((moves_yankAs _ _ _ false).edits.trans (edits_deleteRange _ _ _))

theorem edits_substituteLine (e : EditorState) : Edits (e.call .undoBoundary) e.substituteLine :=
  edits_of_ite ((moves_yankAs _ _ _ false).edits.trans (edits_deleteRange _ _ _))

theorem does_insertYank (e : EditorState) : Does BufCall.IsEdit e e.insertYank :=
  Does.foldl (fun e c => .call (c := .insert c) trivial e) e.yankBuf e

theorem edits_paste (e : EditorState) (count : Nat) (hyank : e.yankBuf ≠ []) :
    Edits (e.call .undoBoundary) (e.paste count) := by
  rw [paste, if_neg hyank]
  refine (Does.iterate (fun e => ?_) count _).syncCursor.edits
  split
  · exact ((Does.call (c := .moveTo _) trivial e).trans (.call (c := .insert 10) trivial _)).trans
      (does_insertYank _)
  · exact (Does.call (c := .moveRight) trivial e).trans (does_insertYank _)

theorem edits_joinLine (e e' : EditorState) (h : e.joinLine = some e') : Edits e e' := by
  simp only [joinLine] at h
  split at h
  · cases h
  · split at h
    · obtain rfl := Option.some.inj h
      exact ((((Does.call (c := .moveTo _) trivial e).trans (.call (c := .deleteFwd) trivial _)).trans
        (.calls (c := .deleteFwd) trivial _ _)).trans (.call (c := .insert 32) trivial _)).edits
    · obtain rfl := Option.some.inj h
      exact .refl e

theorem Edits.syncCursor (h : Edits e e₁) : Edits e e₁.syncCursor :=
  h.trans ((Moves.refl e₁).syncCursor).edits

theorem edits_joinLines (e : EditorState) (count : Nat) :
    Edits (e.call .undoBoundary) (e.joinLines count) :=
  (forLoop_of .refl .trans (fun _ => edits_joinLine) count 0 _).syncCursor

theorem edits_toggleChar (e e' : EditorState) (h : e.toggleChar = some e') : Edits e e' := by
  simp only [toggleChar] at h
  split at h
  · cases h
  · split at h
    · obtain rfl := Option.some.inj h
      exact ((Does.call (c := .deleteFwd) trivial e).trans (.call (c := .insert _) trivial _)).edits
    · obtain rfl := Option.some.inj h
      exact (Moves.call (c := .moveRight) trivial e).edits

theorem edits_toggleChars (e : EditorState) (count : Nat) :
    Edits (e.call .undoBoundary) (e.toggleChars count) :=
  (forLoop_of .refl .trans (fun _ => edits_toggleChar) count 0 _).syncCursor

theorem edits_deleteSelection (e : EditorState) : Edits (e.call .undoBoundary) e.deleteSelection :=
  (moves_yankSelection _).edits.trans (edits_deleteRange _ _ _)

theorem edits_onSelectedLines {f : EditorState → Nat → EditorState}
    (hf : ∀ e line, Does BufCall.IsEdit e (f e line)) (e : EditorState) :
    Edits (e.call .undoBoundary) (e.onSelectedLines f) :=
  (Does.foldl hf _ _).syncCursor.edits

theorem does_toggleAt (e : EditorState) (pos : Nat) : Does BufCall.IsEdit e (e.toggleAt pos) := by
  simp only [toggleAt]
  split
  · exact does_replaceAt e pos _
  · exact .refl _ e

theorem edits_toggleSelection (e : EditorState) : Edits (e.call .undoBoundary) e.toggleSelection :=
  (Does.foldl does_toggleAt _ _).syncCursor.edits

end EditorState

end RainbowOs.Editor
