import RainbowOs.Lib.Prog

/-!
# Notes in a log

A program may log notes beside its own entries: what it does with a value,
which a log of its effects does not show. `Erases` says that a program with
notes is a program without: from any state the two end alike and in the same
state, and with the notes left out of it the one log is the other. The value
may be represented differently in the two, by a map.

`Erases` carries a `Law` along, of the notes and of the states at the ends of
a run that returns. The rules follow the programs part by part, so that a
program is shown to be what it is without its notes, and its notes to follow
the law, at one time.
-/

namespace RainbowOs.Lib

/-- The outcome with its value mapped. -/
def Outcome.map {ε α β : Type} (g : α → β) : Outcome ε α → Outcome ε β
  | .done a => .done (g a)
  | .halt e => .halt e

/-- The notes of a log. -/
def notes {κ ι : Type} (l : List (κ ⊕ ι)) : List ι := l.filterMap Sum.getRight?

/-- A log without its notes. -/
def entries {κ ι : Type} (l : List (κ ⊕ ι)) : List κ := l.filterMap Sum.getLeft?

section Log

variable {κ ι : Type}

@[simp] theorem notes_append (l l' : List (κ ⊕ ι)) : notes (l ++ l') = notes l ++ notes l' :=
  List.filterMap_append

@[simp] theorem entries_append (l l' : List (κ ⊕ ι)) : entries (l ++ l') = entries l ++ entries l' :=
  List.filterMap_append

@[simp] theorem notes_inl (l : List κ) : notes (l.map (Sum.inl : κ → κ ⊕ ι)) = [] := by
  simp [notes]

@[simp] theorem entries_inl (l : List κ) : entries (l.map (Sum.inl : κ → κ ⊕ ι)) = l := by
  simp [entries, List.filterMap_map, Function.comp_def]

@[simp] theorem notes_inr (l : List ι) : notes (l.map (Sum.inr : ι → κ ⊕ ι)) = l := by
  simp [notes, List.filterMap_map, Function.comp_def]

@[simp] theorem entries_inr (l : List ι) : entries (l.map (Sum.inr : ι → κ ⊕ ι)) = [] := by
  simp [entries]

end Log

namespace Prog

variable {σ ε κ ι α β γ δ : Type}

/-- Log notes. -/
def note (l : List ι) : Prog σ ε (κ ⊕ ι) Unit := fun s => ⟨.done (), s, l.map .inr⟩

theorem note_bind_run (l : List ι) (f : Unit → Prog σ ε (κ ⊕ ι) α) (s : σ) :
    (note l >>= f) s = (f () s).prepend (l.map .inr) := bind_run_prepend rfl

/-- A program that has no notes. -/
def bare (p : Prog σ ε κ α) : Prog σ ε (κ ⊕ ι) α := fun s =>
  ⟨(p s).out, (p s).state, (p s).log.map .inl⟩

theorem bare_get_bind_run (f : σ → Prog σ ε (κ ⊕ ι) α) (s : σ) :
    ((bare get : Prog σ ε (κ ⊕ ι) σ) >>= f) s = f s s := bind_run_quiet rfl

/-- What is asked of the notes of a run, and of the states that a run with these notes goes between. -/
structure Law (σ ι : Type) where
  notes : List ι → Prop
  run : σ → List ι → σ → Prop
  nil : notes []
  append : ∀ {l l'}, notes l → notes l' → notes (l ++ l')

/-- The law goes from one run on to the next. -/
structure Law.Composes (L : Law σ ι) : Prop where
  refl : ∀ s, L.run s [] s
  trans : ∀ {s s' s'' l l'}, L.run s l s' → L.run s' l' s'' → L.run s (l ++ l') s''

/-- A run with notes is a run without, and follows the law. -/
structure Erased (L : Law σ ι) (g : α → β) (s : σ) (r : Run σ ε (κ ⊕ ι) α) (r' : Run σ ε κ β) :
    Prop where
  out : r.out.map g = r'.out
  state : r.state = r'.state
  log : entries r.log = r'.log
  notes : L.notes (notes r.log)
  run : ∀ a, r.out = .done a → L.run s (Lib.notes r.log) r.state

/-- A run that logs notes alone. -/
theorem Erased.of_notes {L : Law σ ι} {g : α → β} {s s' : σ} {out : Outcome ε α} {l : List ι}
    (hl : L.notes l) (hrun : ∀ a, out = .done a → L.run s l s') :
    Erased L g s (⟨out, s', l.map .inr⟩ : Run σ ε (κ ⊕ ι) α) ⟨out.map g, s', []⟩ :=
  { out := rfl
    state := rfl
    log := entries_inr l
    notes := (notes_inr (κ := κ) l).symm ▸ hl
    run := fun a ha => (notes_inr (κ := κ) l).symm ▸ hrun a ha }

/-- Every run of `p` is a run of `q` with notes, which follow the law. -/
def Erases (L : Law σ ι) (g : α → β) (p : Prog σ ε (κ ⊕ ι) α) (q : Prog σ ε κ β) : Prop :=
  ∀ s, Erased L g s (p s) (q s)

namespace Erases

variable {L : Law σ ι} {g : α → β} {g' : γ → δ} {p : Prog σ ε (κ ⊕ ι) α} {q : Prog σ ε κ β}

/-- A program without notes. -/
theorem bare {p : Prog σ ε κ α} (h : ∀ s a, (p s).out = .done a → L.run s [] (p s).state) :
    Erases L id (bare p) p := fun s =>
  { out := by
      show (p s).out.map id = (p s).out
      cases (p s).out with
      | done a => rfl
      | halt e => rfl
    state := rfl
    log := entries_inl _
    notes := notes_inl (ι := ι) (p s).log ▸ L.nil
    run := fun a ha => notes_inl (ι := ι) (p s).log ▸ h s a ha }

theorem pure (hL : L.Composes) (a : α) :
    Erases L g (pure a : Prog σ ε (κ ⊕ ι) α) (pure (g a)) := fun s =>
  { out := rfl
    state := rfl
    log := rfl
    notes := L.nil
    run := fun _ _ => hL.refl s }

theorem halt (e : ε) : Erases L g (halt e : Prog σ ε (κ ⊕ ι) α) (Prog.halt e : Prog σ ε κ β) := fun _ =>
  { out := rfl
    state := rfl
    log := rfl
    notes := L.nil
    run := nofun }

/-- One part after the other. -/
theorem bind {f : α → Prog σ ε (κ ⊕ ι) γ} {f' : β → Prog σ ε κ δ} (hL : L.Composes)
    (hp : Erases L g p q) (hf : ∀ a, Erases L g' (f a) (f' (g a))) :
    Erases L g' (p >>= f) (q >>= f') := by
  intro s
  have hfirst := hp s
  cases hrun : p s with
  | mk out s' l =>
    rw [hrun] at hfirst
    have hstate : s' = (q s).state := hfirst.state
    cases out with
    | halt e =>
      rw [bind_run_halt hrun, bind_run_halt (run_eq hfirst.out.symm rfl)]
      exact ⟨rfl, hfirst.state, hfirst.log, hfirst.notes, nofun⟩
    | done a =>
      have hrest := hf a s'
      rw [bind_run_done hrun, bind_run_done (run_eq hfirst.out.symm rfl), ← hstate]
      refine ⟨hrest.out, hrest.state, ?_, ?_, fun c hc => ?_⟩
      · exact (entries_append _ _).trans (congrArg₂ _ hfirst.log hrest.log)
      · exact (notes_append l _).symm ▸ L.append hfirst.notes hrest.notes
      · exact (notes_append l _).symm ▸ hL.trans (hfirst.run a rfl) (hrest.run c hc)

/-- A note that the law allows before a run that follows it. -/
theorem note_bind {l : List ι} {f : Unit → Prog σ ε (κ ⊕ ι) α} (hl : L.notes l)
    (hrun : ∀ s l' s', L.run s l' s' → L.run s (l ++ l') s') (hf : Erases L g (f ()) q) :
    Erases L g (note l >>= f) q := by
  intro s
  have hrest := hf s
  rw [note_bind_run]
  refine ⟨hrest.out, hrest.state, ?_, ?_, fun a ha => ?_⟩
  · exact (entries_append _ _).trans ((congrArg (· ++ _) (entries_inr l)).trans hrest.log)
  · exact (notes_append (l.map .inr) _).symm ▸ (notes_inr (κ := κ) l).symm ▸ L.append hl hrest.notes
  · exact (notes_append (l.map .inr) _).symm ▸ (notes_inr (κ := κ) l).symm ▸ hrun s _ _ (hrest.run a ha)

/-- A part without notes before a run that follows a law which does not ask where it starts. -/
theorem bare_bind {p : Prog σ ε κ α} {f : α → Prog σ ε (κ ⊕ ι) γ} {f' : α → Prog σ ε κ δ}
    (hL : ∀ s s' l s'', L.run s l s'' → L.run s' l s'') (hf : ∀ a, Erases L g' (f a) (f' a)) :
    Erases L g' (Prog.bare p >>= f) (p >>= f') := by
  intro s
  cases hrun : p s with
  | mk out s' l =>
    have hbare : (Prog.bare p : Prog σ ε (κ ⊕ ι) α) s = ⟨out, s', l.map .inl⟩ := by
      show (⟨(p s).out, (p s).state, (p s).log.map .inl⟩ : Run σ ε (κ ⊕ ι) α) = _
      rw [hrun]
    cases out with
    | halt e =>
      rw [bind_run_halt hbare, bind_run_halt hrun]
      exact ⟨rfl, rfl, entries_inl l, notes_inl (ι := ι) l ▸ L.nil, nofun⟩
    | done a =>
      have hrest := hf a s'
      rw [bind_run_done hbare, bind_run_done hrun]
      refine ⟨hrest.out, hrest.state, ?_, ?_, fun c hc => ?_⟩
      · exact (entries_append _ _).trans (congrArg₂ _ (entries_inl l) hrest.log)
      · exact (notes_append (l.map .inl) _).symm ▸ (notes_inl (ι := ι) l).symm ▸ hrest.notes
      · exact (notes_append (l.map .inl) _).symm ▸ (notes_inl (ι := ι) l).symm ▸
          hL s' s _ _ (hrest.run c hc)

theorem ite {c : Prop} [Decidable c] {p' : Prog σ ε (κ ⊕ ι) α} {q' : Prog σ ε κ β}
    (hp : Erases L g p q) (hq : Erases L g p' q') :
    Erases L g (if c then p else p') (if c then q else q') := by
  split
  · exact hp
  · exact hq

end Erases

end Prog

end RainbowOs.Lib
