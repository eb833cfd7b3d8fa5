import RainbowOs.Editor.OneUndo

/-!
# The keys `u` and `Ctrl-R`

`u` moves one change back in the history, `Ctrl-R` one forward. But `u` first
marks a boundary: after `Ctrl-R` it is recorded in the middle of the history,
and what could be redone is forgotten. Where no `u` does that, each sequence
of the two keys shows the text that their numbers say.
-/

namespace RainbowOs.Editor

open RainbowOs.Lib RainbowOs.Lib.History

/-- `u` records no boundary, or there is nothing to redo and room for it. -/
def Buffer.UndoKeeps (b : Buffer) : Prop :=
  b.undoCount = 0 ∨ b.lastEntry.type = .boundary ∨ (b.bufRedo.1 = false ∧ b.undoCount < undoStackSize)

instance (b : Buffer) : Decidable b.UndoKeeps :=
  inferInstanceAs (Decidable (_ ∨ _ ∨ (_ ∧ _)))

section Places

variable {b : Buffer} {before after : List (List UInt8)} {t : List UInt8} {texts : List (List UInt8)} {i : Nat}

/-- The boundary that `u` records where the log has room for it: what is before stays. -/
theorem Buffer.Stands.boundary_room (h : b.Stands before t after) (hroom : b.undoCount < undoStackSize) :
    ∃ after', b.bufUndoBoundary.Stands before t after' ∧ (after' = after ∨ after' = []) := by
  obtain ⟨p, f, hlog, hplace⟩ := h
  have hcount := hlog.undoCount
  have hboundary := hlog.boundary
  cases p with
  | nil => exact ⟨after, ⟨_, _, hboundary, hplace⟩, .inl rfl⟩
  | cons x p =>
    have hfits : (mark (x :: p)).length ≤ undoStackSize := by
      rw [hcount, List.length_cons] at hroom
      cases x with
      | none => exact Nat.le_of_lt hroom
      | some x => exact hroom
    rw [List.take_of_length_le hfits] at hboundary
    cases x with
    | none => exact ⟨after, ⟨_, _, hboundary, hplace⟩, .inl rfl⟩
    | some x =>
      exact ⟨[], ⟨_, _, hboundary, hplace.behind.mark, rfl, fun hm => not_marked_nil hm.2, .inr (.inl rfl)⟩, .inr rfl⟩

/-- The boundary that `u` records, where it keeps the history. -/
theorem Buffer.Stands.boundary (h : b.Stands before t after) (hkeeps : b.UndoKeeps) :
    b.bufUndoBoundary.Stands before t after := by
  by_cases hnone : b.undoCount = 0
  · rwa [Buffer.bufUndoBoundary, if_pos hnone]
  by_cases hlast : b.lastEntry.type = .boundary
  · rwa [Buffer.bufUndoBoundary, if_neg hnone, if_pos hlast]
  obtain ⟨hredo, hroom⟩ : b.bufRedo.1 = false ∧ b.undoCount < undoStackSize :=
    (hkeeps.resolve_left hnone).resolve_left hlast
  have hafter : after = [] := by
    cases after with
    | nil => rfl
    | cons c after =>
      rw [h.redo.1] at hredo
      cases hredo
  subst hafter
  obtain ⟨after', hstands, rfl | rfl⟩ := h.boundary_room hroom
  · exact hstands
  · exact hstands

/-- Nothing is before: `buf_undo` stays. -/
theorem Buffer.Stands.undo_nil (h : b.Stands [] t after) : b.bufUndo.2.Stands [] t after := by
  obtain ⟨p, f, hlog, hplace⟩ := h
  exact ⟨_, _, (hlog.bufUndo_nil hplace.behind).2, hplace.walk_nil⟩

/-- Nothing is after: `buf_redo` stays. -/
theorem Buffer.Stands.redo_nil (h : b.Stands before t []) : b.bufRedo.2.Stands before t [] := by
  obtain ⟨p, f, hlog, hplace⟩ := h
  exact ⟨_, _, (hlog.bufRedo_nil hplace.ahead).2, hplace.swap.walk_nil.swap⟩

theorem Buffer.StandsAt.boundary (h : b.StandsAt texts i) (hkeeps : b.UndoKeeps) :
    b.bufUndoBoundary.StandsAt texts i := by
  obtain ⟨before, t, after, hstands, hrest⟩ := h
  exact ⟨before, t, after, hstands.boundary hkeeps, hrest⟩

/-- With room for the boundary the texts before stay where they are. -/
theorem Buffer.StandsAt.boundary_room (h : b.StandsAt texts i)
    (hroom : b.lastEntry.type = .boundary ∨ b.undoCount < undoStackSize) :
    ∃ texts', b.bufUndoBoundary.StandsAt texts' i ∧ ∀ j ≤ i, texts'[j]? = texts[j]? := by
  rcases hroom with hlast | hroom
  · exact ⟨texts, h.boundary (.inr (.inl hlast)), fun _ _ => rfl⟩
  obtain ⟨before, t, after, hstands, rfl, rfl⟩ := h
  obtain ⟨after', hstands', -⟩ := hstands.boundary_room hroom
  refine ⟨before.reverse ++ t :: after', ⟨before, t, after', hstands', rfl, rfl⟩, fun j hj => ?_⟩
  have hshared : ∀ l : List (List UInt8), (before.reverse ++ t :: l)[j]? = (before.reverse ++ [t])[j]? := fun l => by
    rw [List.append_cons, List.getElem?_append_left (by simpa using Nat.lt_succ_of_le hj)]
  exact (hshared after').trans (hshared after).symm

theorem Buffer.StandsAt.undoKey (h : b.StandsAt texts i) (hkeeps : b.UndoKeeps) :
    b.bufUndoBoundary.bufUndo.2.StandsAt texts (i - 1) := by
  have hmarked := h.boundary hkeeps
  cases i with
  | zero =>
    obtain ⟨before, t, after, hstands, htexts, hi⟩ := hmarked
    obtain rfl := List.length_eq_zero_iff.mp hi.symm
    exact ⟨[], t, after, hstands.undo_nil, htexts, rfl⟩
  | succ i => exact hmarked.undo.2

theorem Buffer.StandsAt.redoKey (h : b.StandsAt texts i) :
    b.bufRedo.2.StandsAt texts (if i + 1 < texts.length then i + 1 else i) := by
  split
  · next hi => exact (h.redo hi).2
  · next hi =>
    obtain ⟨before, t, after, hstands, rfl, rfl⟩ := h
    have hafter : after = [] := by
      rw [List.length_append, List.length_reverse, List.length_cons] at hi
      exact List.length_eq_zero_iff.mp (by omega)
    subst hafter
    exact ⟨before, t, [], hstands.redo_nil, rfl, rfl⟩

/-- After an undo there is a boundary before, or nothing. -/
theorem Buffer.StandsAt.undo_keeps (h : b.StandsAt texts (i + 1)) : b.bufUndo.2.UndoKeeps := by
  obtain ⟨before, t, after, ⟨p, f, hlog, hplace⟩, -, hi⟩ := h
  cases before with
  | nil => cases hi
  | cons c before =>
    obtain ⟨hback, hne, -⟩ := hplace.walk fun _ _ _ h => h.reverse
    obtain ⟨g, p', -, hskip, hclosed, -⟩ := hplace.behind
    have hundone := (hlog.bufUndo hback fun hnil => hne (by rw [hnil]; rfl)).2
    have hpast : (walk p f).1 = p' := by rw [walk, hskip, (group_append g hclosed).2]
    rw [hpast] at hundone
    rcases hclosed with rfl | hmarked
    · exact .inl hundone.undoCount
    · rw [← hundone.past] at hmarked
      exact .inr (.inl (marked_past_iff.mp hmarked).2)

end Places

namespace EditorState

variable {e e' : EditorState} {key : Int}

/-- The place in a history of so many changes, after keys. -/
def position (changes : Nat) : (place : Nat) → List Int → Nat
  | place, [] => place
  | place, key :: keys =>
    position changes
      (if key = ch 'u' then place - 1 else if place < changes then place + 1 else place) keys

/-- Each `u` finds the buffer so that it keeps the history. -/
def UndoKept (e : EditorState) : List Int → Prop
  | [] => True
  | key :: keys => (key = ch 'u' → e.buffer.UndoKeeps) ∧
      match e.step key with
      | some e' => UndoKept e' keys
      | none => True

instance decUndoKept (e : EditorState) : (keys : List Int) → Decidable (e.UndoKept keys)
  | [] => inferInstanceAs (Decidable True)
  | key :: keys =>
    have : Decidable (match e.step key with
      | some e' => UndoKept e' keys
      | none => True) :=
      match e.step key with
      | some e' => decUndoKept e' keys
      | none => inferInstanceAs (Decidable True)
    inferInstanceAs (Decidable (_ ∧ _))

/-- A run of the two keys, along a history. -/
theorem Rests.presses (h : e.Rests) {texts : List (List UInt8)} {i : Nat} (hstands : e.buffer.StandsAt texts i)
    {keys : List Int} (hkeys : ∀ key ∈ keys, key = ch 'u' ∨ key = keyCtrl 'r') (hkept : e.UndoKept keys) :
    ∃ e', e.steps keys = some e' ∧ e'.Rests ∧
      e'.buffer.StandsAt texts (position (texts.length - 1) i keys) := by
  induction keys generalizing e i with
  | nil => exact ⟨e, rfl, h, hstands⟩
  | cons key keys ih =>
    obtain ⟨e₁, hstep, hrests, hbuffer⟩ := h.press (hkeys key List.mem_cons_self)
    obtain ⟨hu, hrest⟩ := hkept
    rw [hstep] at hrest
    have hnext : e₁.buffer.StandsAt texts
        (if key = ch 'u' then i - 1 else if i < texts.length - 1 then i + 1 else i) := by
      rw [hbuffer]
      split
      · next hkey => exact hstands.undoKey (hu hkey)
      · have hredo := hstands.redoKey
        simp only [Nat.lt_sub_iff_add_lt]
        exact hredo
    obtain ⟨e', hsteps, hends⟩ := ih hrests hnext (fun k hk => hkeys k (List.mem_cons_of_mem _ hk)) hrest
    refine ⟨e', ?_, hends⟩
    rw [steps, if_pos h.running, hstep]
    exact hsteps

/-- So many times `u`, once the first of them keeps the history. -/
theorem Rests.undoKept (h : e.Rests) {texts : List (List UInt8)} {i : Nat} (hstands : e.buffer.StandsAt texts i)
    (hkeeps : e.buffer.UndoKeeps) {k : Nat} (hk : k ≤ i) : e.UndoKept (List.replicate k (ch 'u')) := by
  induction k generalizing e i with
  | zero => trivial
  | succ k ih =>
    obtain ⟨i, rfl⟩ := Nat.exists_eq_add_of_lt hk
    obtain ⟨e₁, hstep, hrests, hbuffer⟩ := h.press (.inl (rfl : ch 'u' = ch 'u'))
    rw [if_pos rfl] at hbuffer
    rw [List.replicate_succ, UndoKept, hstep]
    refine ⟨fun _ => hkeeps, ih (i := k + i) hrests ?_ ?_ (Nat.le_add_right k i)⟩
    · rw [hbuffer]
      exact hstands.undoKey hkeeps
    · rw [hbuffer]
      exact (hstands.boundary hkeeps).undo_keeps

theorem redoKept (e : EditorState) (k : Nat) : e.UndoKept (List.replicate k (keyCtrl 'r')) := by
  induction k generalizing e with
  | zero => trivial
  | succ k ih =>
    rw [List.replicate_succ, UndoKept]
    refine ⟨fun h => absurd h (by decide), ?_⟩
    split
    · exact ih _
    · trivial

theorem position_undo (changes i k : Nat) : position changes i (List.replicate k (ch 'u')) = i - k := by
  induction k generalizing i with
  | zero => rfl
  | succ k ih =>
    rw [List.replicate_succ, position, if_pos rfl, ih]
    omega

theorem position_redo {changes i k : Nat} (hk : i + k ≤ changes) :
    position changes i (List.replicate k (keyCtrl 'r')) = i + k := by
  induction k generalizing i with
  | zero => rfl
  | succ k ih =>
    rw [List.replicate_succ, position, if_neg (by decide), if_pos (by omega), ih (by omega)]
    omega

/-- Each text of the history is shown again after more keys, where no key loses it. -/
theorem Rests.reaches (h : e.Rests) {texts : List (List UInt8)} {i j : Nat} (hstands : e.buffer.StandsAt texts i)
    (hj : j < texts.length) (hkeeps : i ≤ j ∨ e.buffer.UndoKeeps) :
    ∃ keys e', (∀ key ∈ keys, key = ch 'u' ∨ key = keyCtrl 'r') ∧ e.steps keys = some e' ∧
      texts[j]? = some e'.buffer.text := by
  by_cases hle : i ≤ j
  · have hkeys : ∀ key ∈ List.replicate (j - i) (keyCtrl 'r'), key = ch 'u' ∨ key = keyCtrl 'r' :=
      fun key hkey => .inr (List.eq_of_mem_replicate hkey)
    obtain ⟨e', hsteps, -, hends⟩ := h.presses hstands hkeys (redoKept e _)
    rw [position_redo (by omega), Nat.add_sub_cancel' hle] at hends
    exact ⟨_, e', hkeys, hsteps, hends.text⟩
  · have hkeys : ∀ key ∈ List.replicate (i - j) (ch 'u'), key = ch 'u' ∨ key = keyCtrl 'r' :=
      fun key hkey => .inl (List.eq_of_mem_replicate hkey)
    have hkept := h.undoKept hstands (hkeeps.resolve_left hle) (Nat.sub_le i j)
    obtain ⟨e', hsteps, -, hends⟩ := h.presses hstands hkeys hkept
    rw [position_undo, Nat.sub_sub_self (by omega)] at hends
    exact ⟨_, e', hkeys, hsteps, hends.text⟩

/-- An earlier text is shown again also where `u` forgets what could be redone. -/
theorem Rests.reaches_back (h : e.Rests) {texts : List (List UInt8)} {i j : Nat}
    (hstands : e.buffer.StandsAt texts i) (hj : j < i)
    (hroom : e.buffer.lastEntry.type = .boundary ∨ e.buffer.undoCount < undoStackSize) :
    ∃ keys e', (∀ key ∈ keys, key = ch 'u' ∨ key = keyCtrl 'r') ∧ e.steps keys = some e' ∧
      texts[j]? = some e'.buffer.text := by
  obtain ⟨texts', hmarked, hsame⟩ := hstands.boundary_room hroom
  obtain ⟨i, rfl⟩ := Nat.exists_eq_add_of_lt hj
  obtain ⟨e₁, hstep, hrests, hbuffer⟩ := h.press (.inl (rfl : ch 'u' = ch 'u'))
  rw [if_pos rfl] at hbuffer
  have hundone : e₁.buffer.StandsAt texts' (j + i) := by
    rw [hbuffer]
    exact hmarked.undo.2
  have hkeeps : e₁.buffer.UndoKeeps := by
    rw [hbuffer]
    exact hmarked.undo_keeps
  have hlt : j < texts'.length := by
    obtain ⟨before, t, after, -, rfl, hi⟩ := hmarked
    rw [List.length_append, List.length_reverse]
    omega
  obtain ⟨keys, e', hkeys, hsteps, htext⟩ := hrests.reaches hundone hlt (.inr hkeeps)
  refine ⟨ch 'u' :: keys, e', ?_, ?_, (hsame j (Nat.le_of_lt hj)).symm.trans htext⟩
  · intro key hkey
    rcases List.mem_cons.mp hkey with rfl | hkey
    · exact .inl rfl
    · exact hkeys key hkey
  · rw [steps, if_pos h.running, hstep]
    exact hsteps

end EditorState

/-- After a history of edits that the log has room for, each sequence of `u` and `Ctrl-R` where
every `u` keeps the history shows the text at the place that the keys say; and each other text is
shown again after more keys, the earlier ones where the log has room for the boundary of a `u`. -/
theorem undo_keys_linear (b : Buffer) (text : List UInt8) {gs : List (List BufCall)}
    (hgs : ∀ g ∈ gs, ∀ c ∈ g, c.IsEdit)
    (hroom : (recorded (b.bufLoad text) (separated gs)).length ≤ undoStackSize) {e : EditorState}
    (hbuffer : e.buffer = (b.bufLoad text).runs (separated gs)) (hrests : e.Rests) {keys : List Int}
    (hkeys : ∀ key ∈ keys, key = ch 'u' ∨ key = keyCtrl 'r') (hkept : e.UndoKept keys) :
    let texts := text.take bufferSize :: changes (b.bufLoad text) gs
    let n := (changes (b.bufLoad text) gs).length
    ∃ e', e.steps keys = some e' ∧ texts[EditorState.position n n keys]? = some e'.buffer.text ∧
      ∀ j ≤ n, EditorState.position n n keys ≤ j ∨ e'.buffer.lastEntry.type = .boundary ∨
          e'.buffer.undoCount < undoStackSize →
        ∃ more e'', (∀ key ∈ more, key = ch 'u' ∨ key = keyCtrl 'r') ∧
          e'.steps more = some e'' ∧ texts[j]? = some e''.buffer.text := by
  intro texts n
  obtain ⟨p', before', t', h, htexts⟩ := (newest_load b text).groups (.inl rfl) hgs hroom
  have hlength := congrArg List.length htexts
  simp only [List.length_append, List.length_reverse, List.length_cons, List.length_nil] at hlength
  have hstands : e.buffer.StandsAt texts n := by
    rw [hbuffer]
    exact ⟨before', t', [], h.stands, htexts.symm, by omega⟩
  obtain ⟨e', hsteps, hrests', hends⟩ := hrests.presses hstands hkeys hkept
  refine ⟨e', hsteps, hends.text, fun j hj hroom => ?_⟩
  by_cases hle : EditorState.position n n keys ≤ j
  · exact hrests'.reaches hends (Nat.lt_succ_of_le hj) (.inl hle)
  · exact hrests'.reaches_back hends (Nat.lt_of_not_le hle) (hroom.resolve_left hle)

/-- Two groups of edits in a buffer that showed one character. -/
def shortHistory : List (List BufCall) := [[.insert 65], [.deleteFwd, .insert 66]]

/-- The editor after them. -/
def afterShortHistory : EditorState :=
  { bootEditor bootDisk with
    running := true, buffer := (blankBuffer.bufLoad [67]).runs (separated shortHistory) }

/-- Back, forward, and back again. -/
theorem undo_keys_linear_short :
    let texts := [67].take bufferSize :: changes (blankBuffer.bufLoad [67]) shortHistory
    let n := (changes (blankBuffer.bufLoad [67]) shortHistory).length
    let keys := [ch 'u', keyCtrl 'r', ch 'u']
    ∃ e', afterShortHistory.steps keys = some e' ∧
      texts[EditorState.position n n keys]? = some e'.buffer.text ∧
      ∀ j ≤ n, EditorState.position n n keys ≤ j ∨ e'.buffer.lastEntry.type = .boundary ∨
          e'.buffer.undoCount < undoStackSize →
        ∃ more e'', (∀ key ∈ more, key = ch 'u' ∨ key = keyCtrl 'r') ∧
          e'.steps more = some e'' ∧ texts[j]? = some e''.buffer.text :=
  undo_keys_linear blankBuffer [67] (by decide) (by decide) rfl
    ⟨⟨rfl, rfl, rfl, rfl, rfl, rfl⟩, rfl, rfl⟩ (by decide) (by decide)

open EditorState in
/-- Three characters are typed one by one, and `u` is pressed after `Ctrl-R`: the last text is not
reached any more. -/
theorem undo_after_redo_forgets : ∃ e₀ e e', editorOpen (bootEditor bootDisk) none = some e₀ ∧
    e₀.steps [ch 'i', ch 'a', keyEscape, ch 'a', ch 'b', keyEscape, ch 'a', ch 'c', keyEscape] = some e ∧
    e.Rests ∧ e.buffer.undoCount ≤ undoStackSize ∧ e.buffer.text = [97, 98, 99] ∧
    e.steps [ch 'u', ch 'u', keyCtrl 'r', ch 'u', keyCtrl 'r', keyCtrl 'r'] = some e' ∧
    position 3 3 [ch 'u', ch 'u', keyCtrl 'r', ch 'u', keyCtrl 'r', keyCtrl 'r'] = 3 ∧
    e'.buffer.text = [97, 98] ∧ e'.buffer.bufRedo.1 = false := by
  have hruns : ((editorOpen (bootEditor bootDisk) none).bind fun e₀ =>
      (e₀.steps [ch 'i', ch 'a', keyEscape, ch 'a', ch 'b', keyEscape, ch 'a', ch 'c', keyEscape]).bind
        fun e => (e.steps [ch 'u', ch 'u', keyCtrl 'r', ch 'u', keyCtrl 'r', keyCtrl 'r']).map fun e' =>
          decide ((e.toKeyState.Quiet ∧ e.mode = .normal ∧ e.running = true) ∧
            e.buffer.undoCount ≤ undoStackSize ∧ e.buffer.text = [97, 98, 99] ∧
            e'.buffer.text = [97, 98] ∧ e'.buffer.bufRedo.1 = false)) = some true := by
    decide +kernel
  obtain ⟨e₀, hopen, hruns⟩ := Option.bind_eq_some_iff.mp hruns
  obtain ⟨e, hrun, hruns⟩ := Option.bind_eq_some_iff.mp hruns
  obtain ⟨e', hkeys, hends⟩ := Option.map_eq_some_iff.mp hruns
  obtain ⟨⟨hquiet, hmode, hrunning⟩, hcount, htext, htext', hredo⟩ := of_decide_eq_true hends
  exact ⟨e₀, e, e', hopen, hrun, ⟨hquiet, hmode, hrunning⟩, hcount, htext, hkeys, by decide, htext', hredo⟩

end RainbowOs.Editor
