import RainbowOs.Lib.Prog

/-!
# Relations along the runs of a program

A relation between the state a run starts from, what it logs and the state
it leaves. `Obeys R P p Q` says it of every run of `p` that returns: from a
state with `P` the run is in `R`, and `Q` holds of what it returns. A
relation that composes goes through a program bind by bind, so that it is
known of a whole program from its primitives.
-/

namespace RainbowOs.Lib.Prog

variable {σ ε ι α β : Type}

/-- A relation along runs that holds of none and composes. -/
structure Composes (R : σ → List ι → σ → Prop) : Prop where
  refl : ∀ s, R s [] s
  trans : ∀ {s s' s'' l l'}, R s l s' → R s' l' s'' → R s (l ++ l') s''

/-- Every run of the program that returns is in the relation. -/
def Obeys (R : σ → List ι → σ → Prop) (P : σ → Prop) (p : Prog σ ε ι α) (Q : α → σ → Prop) : Prop :=
  ∀ ⦃s a s' l⦄, P s → p s = ⟨.done a, s', l⟩ → R s l s' ∧ Q a s'

namespace Obeys

variable {R : σ → List ι → σ → Prop} {P P' : σ → Prop} {Q Q' : α → σ → Prop} {p : Prog σ ε ι α}

theorem mono (h : Obeys R P p Q) (hP : ∀ s, P' s → P s) (hQ : ∀ a s, Q a s → Q' a s) :
    Obeys R P' p Q' := by
  intro s a s' l hs hrun
  obtain ⟨hR, hq⟩ := h (hP s hs) hrun
  exact ⟨hR, hQ a s' hq⟩

theorem halt (e : ε) : Obeys R P (Prog.halt e : Prog σ ε ι α) Q := by
  intro s a s' l _ hrun
  cases hrun

theorem pure (hR : Composes R) {a : α} (h : ∀ s, P s → Q a s) :
    Obeys R P (pure a : Prog σ ε ι α) Q := by
  intro s b s' l hs hrun
  cases hrun
  exact ⟨hR.refl s, h s hs⟩

theorem get (hR : Composes R) {Q : σ → σ → Prop} (h : ∀ s, P s → Q s s) :
    Obeys R P (Prog.get : Prog σ ε ι σ) Q := by
  intro s a s' l hs hrun
  cases hrun
  exact ⟨hR.refl s, h s hs⟩

theorem modify {f : σ → σ} {Q : Unit → σ → Prop} (h : ∀ s, P s → R s [] (f s) ∧ Q () (f s)) :
    Obeys R P (Prog.modify f : Prog σ ε ι Unit) Q := by
  intro s a s' l hs hrun
  cases hrun
  exact h s hs

theorem tell {x : ι} {Q : Unit → σ → Prop} (h : ∀ s, P s → R s [x] s ∧ Q () s) :
    Obeys R P (Prog.tell x : Prog σ ε ι Unit) Q := by
  intro s a s' l hs hrun
  cases hrun
  exact h s hs

theorem bind (hR : Composes R) {f : α → Prog σ ε ι β} {Q' : β → σ → Prop} (hp : Obeys R P p Q)
    (hf : ∀ a, Obeys R (Q a) (f a) Q') : Obeys R P (p >>= f) Q' := by
  intro s b s' l hs hrun
  obtain ⟨a, s₁, l₁, l₂, hfirst, hsecond, rfl⟩ := bind_done hrun
  obtain ⟨hR₁, hQ⟩ := hp hs hfirst
  obtain ⟨hR₂, hQ'⟩ := hf a hQ hsecond
  exact ⟨hR.trans hR₁ hR₂, hQ'⟩

/-- A program asked of one state at a time. -/
theorem of_forall (h : ∀ s, P s → Obeys R (· = s) p Q) : Obeys R P p Q :=
  fun s _ _ _ hs hrun => h s hs rfl hrun

end Obeys

end RainbowOs.Lib.Prog
