import RainbowOs.Lib.Prog

/-!
# Fuel that a measure pays for

A loop or a recursion without a bound counts fuel where it is modelled, and
stops dry when there is none left. How much of it is enough, a measure of
the state says. Two programs settle under a bound when, from every state
that measures less, they have one run, which does not stop dry and leaves a
state that measures no more. The same program with two fuels is such a
pair: its run is then the run without a bound.
-/

namespace RainbowOs.Lib.Prog

variable {σ ε ι α β : Type}

/-- From the states in `P` that measure less than `n`, both programs have the same run: it does
not stop dry, and the state that it leaves measures less by `k` at least. -/
def Settles (μ : σ → Nat) (dry : ε) (n : Nat) (P : σ → Prop) (k : Nat) (p q : Prog σ ε ι α) : Prop :=
  ∀ s, P s → μ s < n →
    q s = p s ∧ p.wp (fun _ => True) (fun _ s' => μ s' + k ≤ μ s) (fun e _ => e ≠ dry) s

namespace Settles

variable {μ : σ → Nat} {dry : ε} {n m k : Nat} {P R : σ → Prop} {p q : Prog σ ε ι α}
  {f g : α → Prog σ ε ι β}

/-- No state measures less than nothing. -/
theorem zero : Settles μ dry 0 P k p q := fun _ _ h => absurd h (Nat.not_lt_zero _)

theorem mono (h : Settles μ dry n P k p q) (hn : m ≤ n) (hP : ∀ s, R s → P s) :
    Settles μ dry m R k p q := fun s hs hm => h s (hP s hs) (Nat.lt_of_lt_of_le hm hn)

/-- What takes something keeps within the measure. -/
theorem keep (h : Settles μ dry n P k p q) : Settles μ dry n P 0 p q := by
  intro s hs hn
  obtain ⟨heq, hp⟩ := h s hs hn
  exact ⟨heq, wp_mono hp (fun _ hx => hx) (fun _ _ h => Nat.le_trans (Nat.le_add_right _ k) h) fun _ _ h => h⟩

/-- A program settles with itself when it does not stop dry. -/
theorem refl (h : ∀ s, P s → μ s < n →
    p.wp (fun _ => True) (fun _ s' => μ s' + k ≤ μ s) (fun e _ => e ≠ dry) s) : Settles μ dry n P k p p :=
  fun s hs hn => ⟨rfl, h s hs hn⟩

theorem pure (a : α) : Settles μ dry n P 0 (pure a : Prog σ ε ι α) (pure a) :=
  refl fun _ _ _ => wp_pure (Nat.le_refl _)

theorem halt {e : ε} (he : e ≠ dry) : Settles μ dry n P k (Prog.halt e : Prog σ ε ι α) (Prog.halt e) :=
  refl fun _ _ _ => wp_halt he

theorem get : Settles μ dry n P 0 (Prog.get : Prog σ ε ι σ) Prog.get :=
  refl fun _ _ _ => wp_get (Nat.le_refl _)

theorem tell (x : ι) : Settles μ dry n P 0 (Prog.tell x : Prog σ ε ι Unit) (Prog.tell x) :=
  refl fun _ _ _ => wp_tell trivial (Nat.le_refl _)

theorem modify {u : σ → σ} (h : ∀ s, P s → μ (u s) + k ≤ μ s) :
    Settles μ dry n P k (Prog.modify u : Prog σ ε ι Unit) (Prog.modify u) :=
  refl fun s hs _ => wp_modify (h s hs)

/-- The second part has what the first leaves: its value and its state are in `Q`. -/
theorem bind {Q : α → σ → Prop} {j : Nat}
    (hp : ∀ s, P s → μ s < n → q s = p s ∧
      p.wp (fun _ => True) (fun a s' => μ s' + k ≤ μ s ∧ Q a s') (fun e _ => e ≠ dry) s)
    (hf : ∀ a, Settles μ dry (n - k) (Q a) j (f a) (g a)) :
    Settles μ dry n P (k + j) (p >>= f) (q >>= g) := by
  intro s hs hn
  obtain ⟨heq, hp⟩ := hp s hs hn
  have hrest : p.wp (fun _ => True) (fun a s' => g a s' = f a s' ∧
      (f a).wp (fun _ => True) (fun _ s'' => μ s'' + (k + j) ≤ μ s) (fun e _ => e ≠ dry) s')
        (fun e _ => e ≠ dry) s := by
    refine wp_mono hp (fun _ hx => hx) (fun a s' h => ?_) fun _ _ h => h
    obtain ⟨hk, hQ⟩ := h
    obtain ⟨hsame, hwp⟩ := hf a s' hQ (by omega)
    refine ⟨hsame, wp_mono hwp (fun _ hx => hx) (fun _ s'' h => ?_) fun _ _ h => h⟩
    omega
  refine ⟨?_, wp_bind.mpr (wp_mono hrest (fun _ hx => hx) (fun _ _ h => h.2) fun _ _ h => h)⟩
  -- the second parts agree where the first part leaves them
  cases hrun : p s with
  | mk out s' l =>
    cases out with
    | halt e => rw [bind_run_halt hrun, bind_run_halt (heq.trans hrun)]
    | done a =>
      have h := hrest.2
      rw [hrun] at h
      rw [bind_run_prepend hrun, bind_run_prepend (heq.trans hrun), h.1]

/-- Sequencing: what the first part takes, the second part has less. -/
theorem seq (hp : Settles μ dry n P k p q)
    (hf : ∀ a, Settles μ dry (n - k) (fun _ => True) 0 (f a) (g a)) :
    Settles μ dry n P k (p >>= f) (q >>= g) := by
  refine bind (Q := fun _ _ => True) (j := 0) (fun s hs hn => ?_) hf
  obtain ⟨heq, hp⟩ := hp s hs hn
  exact ⟨heq, wp_mono hp (fun _ hx => hx) (fun _ _ h => ⟨h, trivial⟩) fun _ _ h => h⟩

/-- A part that the measure does not see, before one that takes something. -/
theorem after {Q : α → σ → Prop} (hp : ∀ s, P s →
    p.wp (fun _ => True) (fun a s' => μ s' ≤ μ s ∧ Q a s') (fun e _ => e ≠ dry) s)
    (hf : ∀ a, Settles μ dry n (Q a) k (f a) (g a)) : Settles μ dry n P k (p >>= f) (p >>= g) := by
  have h := bind (k := 0) (n := n) (q := p) (fun s hs _ => ⟨rfl, hp s hs⟩) hf
  rwa [Nat.zero_add] at h

theorem ite {c : Prop} [Decidable c] {p' q' : Prog σ ε ι α} (hc : c → Settles μ dry n P k p q)
    (hn : ¬c → Settles μ dry n P k p' q') :
    Settles μ dry n P k (if c then p else p') (if c then q else q') := by
  by_cases h : c
  · rw [if_pos h, if_pos h]
    exact hc h
  · rw [if_neg h, if_neg h]
    exact hn h

/-- A program settled for every fuel has one run for all of them, and it does not stop dry. -/
theorem run {F : Nat → Prog σ ε ι α} (h : ∀ m m', n ≤ m → n ≤ m' → Settles μ dry n P k (F m) (F m'))
    {s : σ} (hs : P s) (hn : μ s < n) : (F n s).out ≠ .halt dry ∧ ∀ m, n ≤ m → F m s = F n s := by
  refine ⟨fun hdry => ?_, fun m hm => (h n m (Nat.le_refl n) hm s hs hn).1⟩
  have hwp := (h n n (Nat.le_refl n) (Nat.le_refl n) s hs hn).2.2
  rw [hdry] at hwp
  exact hwp rfl

end Settles

end RainbowOs.Lib.Prog
