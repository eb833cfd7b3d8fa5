import Mathlib.Tactic.Common

/-!
# Logged programs — state, early stop, and a record of every access

Kernel code is judged by two things at once: the state it leaves and the
bytes it touches on the way. `Prog σ ε ι` carries both. A program is run
from a state and answers an `Outcome` (a value, or the reason it stopped
early), the state it leaves, and the log of the accesses it made, in
order. Stopping keeps the state and the log: an access made before the
stop has been made.

`Prog.wp` is the program logic over that run: every logged access
satisfies `P`, a returned value and state satisfy `Q`, a stop satisfies
`H`. Taking `H` false is total correctness; taking `Q` and `H` true
leaves the confinement of the accesses alone. `wp_bind` is an
equivalence, so the logic loses nothing of the run.

Nothing here names a memory, a device or a file system.
-/

namespace RainbowOs.Lib

/-- How a run ends: with a value, or with the reason it stopped early. -/
inductive Outcome (ε α : Type) where
  | done (a : α)
  | halt (e : ε)
  deriving DecidableEq, Repr

/-- What a run leaves behind. -/
structure Run (σ ε ι α : Type) where
  out : Outcome ε α
  state : σ
  log : List ι

/-- A run after a log. -/
def Run.prepend {σ ε ι α : Type} (l : List ι) (r : Run σ ε ι α) : Run σ ε ι α :=
  { r with log := l ++ r.log }

/-- A program over states `σ` that may stop with an `ε` and logs `ι`s. -/
def Prog (σ ε ι α : Type) : Type := σ → Run σ ε ι α

namespace Prog

variable {σ ε ι α β : Type}

/-- Return a value and touch nothing. -/
protected def pure (a : α) : Prog σ ε ι α := fun s => ⟨.done a, s, []⟩

/-- Run `p`, then `f` on its value. A stop of `p` is the stop of the whole. -/
protected def bind (p : Prog σ ε ι α) (f : α → Prog σ ε ι β) : Prog σ ε ι β := fun s =>
  match p s with
  | ⟨.done a, s', l⟩ => ⟨(f a s').out, (f a s').state, l ++ (f a s').log⟩
  | ⟨.halt e, s', l⟩ => ⟨.halt e, s', l⟩

instance : Monad (Prog σ ε ι) where
  pure := Prog.pure
  bind := Prog.bind

/-- Stop early. -/
def halt (e : ε) : Prog σ ε ι α := fun s => ⟨.halt e, s, []⟩

/-- The current state. -/
def get : Prog σ ε ι σ := fun s => ⟨.done s, s, []⟩

/-- Change the state. -/
def modify (f : σ → σ) : Prog σ ε ι Unit := fun s => ⟨.done (), f s, []⟩

/-- Record one access. -/
def tell (x : ι) : Prog σ ε ι Unit := fun s => ⟨.done (), s, [x]⟩

/-! ## Runs of the constructors -/

@[simp] theorem pure_run (a : α) (s : σ) :
    (pure a : Prog σ ε ι α) s = ⟨.done a, s, []⟩ := rfl

@[simp] theorem halt_run (e : ε) (s : σ) :
    (halt e : Prog σ ε ι α) s = ⟨.halt e, s, []⟩ := rfl

@[simp] theorem get_run (s : σ) : (get : Prog σ ε ι σ) s = ⟨.done s, s, []⟩ := rfl

@[simp] theorem modify_run (f : σ → σ) (s : σ) :
    (modify f : Prog σ ε ι Unit) s = ⟨.done (), f s, []⟩ := rfl

@[simp] theorem tell_run (x : ι) (s : σ) :
    (tell x : Prog σ ε ι Unit) s = ⟨.done (), s, [x]⟩ := rfl

/-- A run from its parts. -/
theorem run_eq {p : Prog σ ε ι α} {s : σ} {out : Outcome ε α} {l : List ι}
    (hout : (p s).out = out) (hlog : (p s).log = l) : p s = ⟨out, (p s).state, l⟩ := by
  subst hout hlog
  rfl

/-- A bind whose first part returns runs the second part after it. -/
theorem bind_run_done {p : Prog σ ε ι α} {f : α → Prog σ ε ι β} {s s' : σ} {a : α} {l : List ι}
    (h : p s = ⟨.done a, s', l⟩) :
    (p >>= f) s = ⟨(f a s').out, (f a s').state, l ++ (f a s').log⟩ := by
  show Prog.bind p f s = _
  simp only [Prog.bind, h]

/-- A bind whose first part stops, stops there. -/
theorem bind_run_halt {p : Prog σ ε ι α} {f : α → Prog σ ε ι β} {s s' : σ} {e : ε} {l : List ι}
    (h : p s = ⟨.halt e, s', l⟩) : (p >>= f) s = ⟨.halt e, s', l⟩ := by
  show Prog.bind p f s = _
  simp only [Prog.bind, h]

theorem prepend_nil (r : Run σ ε ι α) : r.prepend [] = r := rfl

theorem prepend_prepend (l l' : List ι) (r : Run σ ε ι α) :
    (r.prepend l').prepend l = r.prepend (l ++ l') := by
  simp only [Run.prepend, List.append_assoc]

/-- A bind whose first part returns goes on with the second part. -/
theorem bind_run_prepend {p : Prog σ ε ι α} {f : α → Prog σ ε ι β} {s s' : σ} {a : α} {l : List ι}
    (h : p s = ⟨.done a, s', l⟩) : (p >>= f) s = (f a s').prepend l := bind_run_done h

/-- A bind whose first part goes on as `q`. -/
theorem bind_prepend {p q : Prog σ ε ι α} {f : α → Prog σ ε ι β} {s s' : σ} {l : List ι}
    (h : p s = (q s').prepend l) : (p >>= f) s = ((q >>= f) s').prepend l := by
  cases hq : q s' with
  | mk out t l' =>
    rw [hq] at h
    cases out with
    | done a => rw [bind_run_done h, bind_run_done hq, Run.prepend, List.append_assoc]
    | halt e =>
      rw [bind_run_halt h, bind_run_halt hq]
      rfl

/-- A bind whose first part returns and logs nothing is its second part. -/
theorem bind_run_quiet {p : Prog σ ε ι α} {f : α → Prog σ ε ι β} {s s' : σ} {a : α}
    (h : p s = ⟨.done a, s', []⟩) : (p >>= f) s = f a s' := bind_run_prepend h

theorem get_bind_run (f : σ → Prog σ ε ι β) (s : σ) : (get >>= f) s = f s s :=
  bind_run_quiet (get_run s)

theorem modify_bind_run (g : σ → σ) (f : Unit → Prog σ ε ι β) (s : σ) :
    (modify g >>= f) s = f () (g s) := bind_run_quiet (modify_run g s)

theorem tell_bind_run (x : ι) (f : Unit → Prog σ ε ι β) (s : σ) :
    (tell x >>= f) s = (f () s).prepend [x] := bind_run_prepend (tell_run x s)

theorem bind_assoc {γ : Type} (p : Prog σ ε ι α) (f : α → Prog σ ε ι β) (g : β → Prog σ ε ι γ) :
    p >>= f >>= g = p >>= fun a => f a >>= g := by
  funext s
  cases hp : p s with
  | mk out s' l =>
    cases out with
    | done a => rw [bind_run_prepend hp, bind_prepend (bind_run_prepend hp)]
    | halt e => rw [bind_run_halt hp, bind_run_halt (bind_run_halt hp)]

/-- A bind that returns is two runs that do. -/
theorem bind_done {p : Prog σ ε ι α} {f : α → Prog σ ε ι β} {s s' : σ} {b : β} {l : List ι}
    (h : (p >>= f) s = ⟨.done b, s', l⟩) : ∃ a s₁ l₁ l₂, p s = ⟨.done a, s₁, l₁⟩ ∧
      f a s₁ = ⟨.done b, s', l₂⟩ ∧ l = l₁ ++ l₂ := by
  cases hp : p s with
  | mk out s₁ l₁ =>
    cases out with
    | halt e =>
      rw [bind_run_halt hp] at h
      cases h
    | done a =>
      rw [bind_run_done hp] at h
      cases hf : f a s₁ with
      | mk out₂ s₂ l₂ =>
        rw [hf] at h
        cases h
        exact ⟨a, s₁, l₁, l₂, rfl, hf, rfl⟩

/-- A bind logs what its first part logs, and then goes on. -/
theorem log_prefix_bind (p : Prog σ ε ι α) (f : α → Prog σ ε ι β) (s : σ) :
    (p s).log <+: ((p >>= f) s).log := by
  cases hp : p s with
  | mk out s' l =>
    cases out with
    | done a =>
      rw [bind_run_done hp]
      exact List.prefix_append _ _
    | halt e =>
      rewrite [bind_run_halt hp]
      exact List.prefix_rfl

/-- What the first part of a bind logged, the bind logged. -/
theorem mem_log_bind {p : Prog σ ε ι α} {f : α → Prog σ ε ι β} {s : σ} {x : ι}
    (h : x ∈ (p s).log) : x ∈ ((p >>= f) s).log := (log_prefix_bind p f s).subset h

/-- What the second part of a bind logged, the bind logged. -/
theorem mem_log_bind_of_done {p : Prog σ ε ι α} {f : α → Prog σ ε ι β} {s : σ} {a : α} {x : ι}
    (hp : (p s).out = .done a) (h : x ∈ (f a (p s).state).log) : x ∈ ((p >>= f) s).log := by
  rw [bind_run_done (run_eq hp rfl)]
  exact List.mem_append_right _ h

/-! ## The program logic -/

/-- Every logged access satisfies `P`; a returned value satisfies `Q` in the
state left, a stop satisfies `H`. -/
def wp (P : ι → Prop) (p : Prog σ ε ι α) (Q : α → σ → Prop) (H : ε → σ → Prop) (s : σ) : Prop :=
  (∀ x ∈ (p s).log, P x) ∧
    match (p s).out with
    | .done a => Q a (p s).state
    | .halt e => H e (p s).state

/-- Total correctness: the program returns, its accesses satisfy `P` and what
it returns satisfies `Q`. -/
def total (P : ι → Prop) (p : Prog σ ε ι α) (Q : α → σ → Prop) (s : σ) : Prop :=
  p.wp P Q (fun _ _ => False) s

variable {P P' : ι → Prop} {Q Q' : α → σ → Prop} {H H' : ε → σ → Prop} {s : σ}

theorem wp_pure {a : α} (h : Q a s) : wp P (pure a : Prog σ ε ι α) Q H s :=
  ⟨fun _ hx => absurd hx List.not_mem_nil, h⟩

theorem wp_halt {e : ε} (h : H e s) : wp P (halt e : Prog σ ε ι α) Q H s :=
  ⟨fun _ hx => absurd hx List.not_mem_nil, h⟩

/-- A law of a program whose run is known. -/
theorem wp_of_run {p : Prog σ ε ι α} {a : α} {s' : σ} {l : List ι} (h : p s = ⟨.done a, s', l⟩)
    (hl : ∀ x ∈ l, P x) (hQ : Q a s') : wp P p Q H s := by
  unfold wp
  rw [h]
  exact ⟨hl, hQ⟩

theorem wp_get {Q : σ → σ → Prop} (h : Q s s) : wp P (get : Prog σ ε ι σ) Q H s :=
  ⟨fun _ hx => absurd hx List.not_mem_nil, h⟩

theorem wp_modify {f : σ → σ} {Q : Unit → σ → Prop} (h : Q () (f s)) :
    wp P (modify f : Prog σ ε ι Unit) Q H s :=
  ⟨fun _ hx => absurd hx List.not_mem_nil, h⟩

theorem wp_tell {x : ι} {Q : Unit → σ → Prop} (hx : P x) (h : Q () s) :
    wp P (tell x : Prog σ ε ι Unit) Q H s :=
  ⟨fun _ hy => List.mem_singleton.mp hy ▸ hx, h⟩

/-- Sequencing: the second part is asked of whatever the first returns. -/
theorem wp_bind {p : Prog σ ε ι α} {f : α → Prog σ ε ι β} {R : β → σ → Prop} :
    wp P (p >>= f) R H s ↔ wp P p (fun a s' => wp P (f a) R H s') H s := by
  cases hp : p s with
  | mk out s' l =>
    cases out with
    | done a =>
      simp only [wp, bind_run_done hp, hp, List.mem_append, or_imp, forall_and]
      exact and_assoc
    | halt e => simp only [wp, bind_run_halt hp, hp]

/-- Consequence. -/
theorem wp_mono {p : Prog σ ε ι α} (h : wp P p Q H s) (hP : ∀ x, P x → P' x)
    (hQ : ∀ a s', Q a s' → Q' a s') (hH : ∀ e s', H e s' → H' e s') : wp P' p Q' H' s := by
  refine ⟨fun x hx => hP x (h.1 x hx), ?_⟩
  have h2 := h.2
  revert h2
  cases (p s).out with
  | done a => exact hQ a _
  | halt e => exact hH e _

/-- A branch. -/
theorem wp_ite {c : Prop} [Decidable c] {p q : Prog σ ε ι α} (hp : c → wp P p Q H s)
    (hq : ¬c → wp P q Q H s) : wp P (if c then p else q) Q H s := by
  by_cases hc : c
  · rw [if_pos hc]
    exact hp hc
  · rw [if_neg hc]
    exact hq hc

/-- Sequencing from a known first part. -/
theorem wp_seq {p : Prog σ ε ι α} {f : α → Prog σ ε ι β} {R : β → σ → Prop}
    (hp : wp P p Q H s) (hf : ∀ a s', Q a s' → wp P (f a) R H s') : wp P (p >>= f) R H s :=
  wp_bind.mpr (wp_mono hp (fun _ h => h) hf (fun _ _ h => h))

theorem total_pure {a : α} (h : Q a s) : total P (pure a : Prog σ ε ι α) Q s := wp_pure h

theorem total_bind {p : Prog σ ε ι α} {f : α → Prog σ ε ι β} {R : β → σ → Prop} :
    total P (p >>= f) R s ↔ total P p (fun a s' => total P (f a) R s') s := wp_bind

theorem total_seq {p : Prog σ ε ι α} {f : α → Prog σ ε ι β} {R : β → σ → Prop}
    (hp : total P p Q s) (hf : ∀ a s', Q a s' → total P (f a) R s') : total P (p >>= f) R s :=
  wp_seq hp hf

theorem total_mono {p : Prog σ ε ι α} (h : total P p Q s) (hP : ∀ x, P x → P' x)
    (hQ : ∀ a s', Q a s' → Q' a s') : total P' p Q' s :=
  wp_mono h hP hQ (fun _ _ h => h)

/-- A total program returns. -/
theorem total.returns {p : Prog σ ε ι α} (h : total P p Q s) :
    ∃ a, (p s).out = .done a ∧ Q a (p s).state := by
  have h2 := h.2
  revert h2
  cases (p s).out with
  | done a => exact fun h2 => ⟨a, rfl, h2⟩
  | halt e => exact False.elim

/-- The log of a program under `wp` satisfies the access predicate. -/
theorem wp.log {p : Prog σ ε ι α} (h : wp P p Q H s) : ∀ x ∈ (p s).log, P x := h.1

/-- A known return value, with what `total` says of it. -/
theorem total.of_done {p : Prog σ ε ι α} {a : α} (h : total P p Q s)
    (ha : (p s).out = .done a) : Q a (p s).state := by
  obtain ⟨b, hb, hQ⟩ := h.returns
  rw [ha] at hb
  cases hb
  exact hQ

/-- What the second part of a bind logs wherever the first may leave it. -/
theorem total.mem_log {p : Prog σ ε ι α} {f : α → Prog σ ε ι β} {x : ι} (hp : total P p Q s)
    (hf : ∀ a s', Q a s' → x ∈ (f a s').log) : x ∈ ((p >>= f) s).log := by
  obtain ⟨a, ha, hQ⟩ := hp.returns
  exact mem_log_bind_of_done ha (hf a _ hQ)

/-! ## Going on -/

section Going

variable {p q r : Prog σ ε ι α} {s s' s'' : σ} {a : α}

/-- A program from a state goes on as another from its own, whatever it has logged before. -/
def Goes (p : Prog σ ε ι α) (s : σ) (q : Prog σ ε ι α) (s' : σ) : Prop := ∃ l, p s = (q s').prepend l

namespace Goes

theorem of_eq (h : p s = q s') : Goes p s q s' := ⟨[], h⟩

theorem refl (p : Prog σ ε ι α) (s : σ) : Goes p s p s := of_eq rfl

theorem trans (h : Goes p s q s') (h' : Goes q s' r s'') : Goes p s r s'' := by
  obtain ⟨l, hl⟩ := h
  obtain ⟨l', hl'⟩ := h'
  exact ⟨l ++ l', by rw [hl, hl', prepend_prepend]⟩

/-- What the first part of a bind goes on as, the bind goes on as. -/
theorem bind (h : Goes p s q s') (f : α → Prog σ ε ι β) : Goes (p >>= f) s (q >>= f) s' := by
  obtain ⟨l, hl⟩ := h
  exact ⟨l, bind_prepend hl⟩

/-- A first part that comes to a value hands it on. -/
theorem bind_pure (h : Goes p s (pure a) s') (f : α → Prog σ ε ι β) : Goes (p >>= f) s (f a) s' :=
  (h.bind f).trans (of_eq (bind_run_quiet (pure_run a s')))

/-- A program that comes to a value returns it. -/
theorem done (h : Goes p s (pure a) s') : (p s).out = .done a ∧ (p s).state = s' := by
  obtain ⟨l, hl⟩ := h
  rw [hl]
  exact ⟨rfl, rfl⟩

end Goes

end Going

end Prog

end RainbowOs.Lib
