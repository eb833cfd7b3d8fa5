import RainbowOs.Lib.Prog

/-!
# A monitor beside a program

A monitor reads what a program logs, in order: it is a relation between the
monitor's state, an entry of the log and the state after it. `Watched`
says that a program, from a state that goes with the monitor's, logs what
the monitor can read, and leaves a state that goes with what the monitor is
left in. It is asked of a run that stops early as well, for what the run has
logged until then; so a property of every prefix of an endless run is a
monitor that is never stuck.
-/

namespace RainbowOs.Lib.Prog

variable {σ ε ι α β γ : Type}

/-- The monitor reads the entries one after the other. -/
inductive Reads (step : γ → ι → γ → Prop) : γ → List ι → γ → Prop where
  | nil (g : γ) : Reads step g [] g
  | cons {g g' g'' : γ} {x : ι} {l : List ι} (hx : step g x g') (hl : Reads step g' l g'') :
      Reads step g (x :: l) g''

namespace Reads

variable {step : γ → ι → γ → Prop} {g g' g'' : γ} {l l' : List ι} {x : ι}

theorem append (h : Reads step g l g') (h' : Reads step g' l' g'') : Reads step g (l ++ l') g'' := by
  induction h with
  | nil => exact h'
  | cons hx _ ih => exact .cons hx (ih h')

end Reads

/-- The program goes with the monitor. -/
def Watched (step : γ → ι → γ → Prop) (P : γ → σ → Prop) (p : Prog σ ε ι α)
    (Q : α → γ → σ → Prop) : Prop :=
  ∀ ⦃g s⦄, P g s → ∃ g', Reads step g (p s).log g' ∧ ∀ a, (p s).out = .done a → Q a g' (p s).state

namespace Watched

variable {step : γ → ι → γ → Prop} {P P' : γ → σ → Prop} {Q Q' : α → γ → σ → Prop}
  {p : Prog σ ε ι α}

theorem mono (h : Watched step P p Q) (hP : ∀ g s, P' g s → P g s)
    (hQ : ∀ a g s, Q a g s → Q' a g s) : Watched step P' p Q' := by
  intro g s hs
  obtain ⟨g', hreads, hdone⟩ := h (hP g s hs)
  exact ⟨g', hreads, fun a ha => hQ a g' _ (hdone a ha)⟩

theorem pure {a : α} (h : ∀ g s, P g s → Q a g s) :
    Watched step P (pure a : Prog σ ε ι α) Q := by
  intro g s hs
  refine ⟨g, .nil g, fun b hb => ?_⟩
  cases hb
  exact h g s hs

theorem halt (e : ε) : Watched step P (Prog.halt e : Prog σ ε ι α) Q :=
  fun g _ _ => ⟨g, .nil g, nofun⟩

theorem get {Q : σ → γ → σ → Prop} (h : ∀ g s, P g s → Q s g s) :
    Watched step P (Prog.get : Prog σ ε ι σ) Q := by
  intro g s hs
  refine ⟨g, .nil g, fun b hb => ?_⟩
  cases hb
  exact h g s hs

theorem modify {f : σ → σ} {Q : Unit → γ → σ → Prop} (h : ∀ g s, P g s → Q () g (f s)) :
    Watched step P (Prog.modify f : Prog σ ε ι Unit) Q :=
  fun g s hs => ⟨g, .nil g, fun _ _ => h g s hs⟩

theorem tell {x : ι} {Q : Unit → γ → σ → Prop} (h : ∀ g s, P g s → ∃ g', step g x g' ∧ Q () g' s) :
    Watched step P (Prog.tell x : Prog σ ε ι Unit) Q := by
  intro g s hs
  obtain ⟨g', hx, hq⟩ := h g s hs
  exact ⟨g', .cons hx (.nil g'), fun _ _ => hq⟩

theorem bind {f : α → Prog σ ε ι β} {R : β → γ → σ → Prop} (hp : Watched step P p Q)
    (hf : ∀ a, Watched step (Q a) (f a) R) : Watched step P (p >>= f) R := by
  intro g s hs
  obtain ⟨g', hreads, hdone⟩ := hp hs
  cases hrun : p s with
  | mk out s' l =>
    rw [hrun] at hreads hdone
    cases out with
    | done a =>
      obtain ⟨g'', hreads', hdone'⟩ := hf a (hdone a rfl)
      rw [bind_run_done hrun]
      exact ⟨g'', hreads.append hreads', hdone'⟩
    | halt e =>
      rw [bind_run_halt hrun]
      exact ⟨g', hreads, nofun⟩

/-- A program asked of one state at a time. -/
theorem of_forall (h : ∀ g s, P g s → Watched step (fun g' s' => g' = g ∧ s' = s) p Q) :
    Watched step P p Q := fun g s hs => h g s hs ⟨rfl, rfl⟩

theorem ite {c : Prop} [Decidable c] {q : Prog σ ε ι α} (hp : c → Watched step P p Q)
    (hq : ¬c → Watched step P q Q) : Watched step P (if c then p else q) Q := by
  split
  · next h => exact hp h
  · next h => exact hq h

end Watched

end RainbowOs.Lib.Prog
