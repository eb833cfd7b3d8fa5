import Mathlib.Tactic.Common

/-!
# Loops that can be left

A command ends by going on, by leaving the loop that it is in, by going on
with the next round of it, or by answering. `rounds` is the loop that all
loops with a test come to: a test, a body, and a step between two rounds.
The fuel bounds the rounds, so that the loop is a function.
-/

namespace RainbowOs.Lib

/-- How a command ends. -/
inductive Exit (β : Type) where
  | next
  | brk
  | cont
  | ret (b : β)
  deriving DecidableEq, Repr

namespace Exit

variable {β : Type}

/-- The loop goes on after such an end of its body. -/
def again : Exit β → Bool
  | next | cont => true
  | _ => false

/-- How a loop ends that its body ends so. -/
def ofLoop : Exit β → Exit β
  | ret b => ret b
  | _ => next

/-- The end is a jump out of the round of a loop. -/
def jumps : Exit β → Bool
  | brk | cont => true
  | _ => false

theorem jumps_ofLoop (x : Exit β) : x.ofLoop.jumps = false := by
  cases x <;> rfl

end Exit

variable {σ β : Type}

/-- Rounds of a loop, as many as the fuel allows. -/
def rounds (test : σ → Option (Bool × σ)) (body : σ → Option (Exit β × σ)) (step : σ → Option σ) :
    (fuel : Nat) → σ → Option (Exit β × σ)
  | 0, _ => none
  | fuel + 1, s => do
    let (go, s) ← test s
    if go then
      let (x, s) ← body s
      if x.again then rounds test body step fuel (← step s) else some (x.ofLoop, s)
    else some (.next, s)

variable {test : σ → Option (Bool × σ)} {body : σ → Option (Exit β × σ)} {step : σ → Option σ}

/-- What holds of a loop that ends: it holds where the test fails, where the body leaves the loop,
and before a round if it holds after it. -/
theorem rounds_induction {R : σ → Exit β → σ → Prop} (hstop : ∀ s s', test s = some (false, s') → R s .next s')
    (hleave : ∀ s s₁ s₂ x, test s = some (true, s₁) → body s₁ = some (x, s₂) → x.again = false → R s x.ofLoop s₂)
    (hround : ∀ s s₁ s₂ s₃ s' x y, test s = some (true, s₁) → body s₁ = some (x, s₂) → x.again = true →
      step s₂ = some s₃ → R s₃ y s' → R s y s') :
    ∀ {fuel : Nat} {s s' : σ} {y : Exit β}, rounds test body step fuel s = some (y, s') → R s y s' := by
  intro fuel
  induction fuel with
  | zero => exact nofun
  | succ fuel ih =>
    intro s s' y h
    obtain ⟨⟨go, s₁⟩, htest, h⟩ := Option.bind_eq_some_iff.mp h
    cases go with
    | false =>
      cases h
      exact hstop s _ htest
    | true =>
      obtain ⟨⟨x, s₂⟩, hbody, h⟩ := Option.bind_eq_some_iff.mp h
      cases hagain : x.again with
      | false =>
        simp only [hagain] at h
        cases h
        exact hleave s s₁ _ x htest hbody hagain
      | true =>
        simp only [hagain] at h
        obtain ⟨s₃, hstep, h⟩ := Option.bind_eq_some_iff.mp h
        exact hround s s₁ s₂ s₃ s' x y htest hbody hagain hstep (ih h)

/-- A loop ends with no jump out of the loop around it. -/
theorem rounds_jumps {fuel : Nat} {s s' : σ} {y : Exit β} (h : rounds test body step fuel s = some (y, s')) :
    y.jumps = false :=
  rounds_induction (R := fun _ y _ => y.jumps = false) (fun _ _ _ => rfl) (fun _ _ _ x _ _ _ => x.jumps_ofLoop)
    (fun _ _ _ _ _ _ _ _ _ _ _ hy => hy) h

end RainbowOs.Lib
