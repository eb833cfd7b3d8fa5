import Mathlib.Data.Fintype.Card
import Mathlib.Data.Set.Finite.Basic
import Mathlib.Logic.Relation

/-!
# Descents

A relation that leads into finitely many things leads on for ever only in a
circle. So a recursion along it ends if, and only if, nothing it comes to is
come to again from itself.
-/

namespace RainbowOs.Lib

open Relation

variable {α : Type} {r : α → α → Prop}

/-- What leads into finitely many things, and in no circle, comes to an end. -/
theorem acc_of_acyclic {S : Set α} (hfinite : S.Finite) (hinto : ∀ a b, r a b → b ∈ S) {a : α}
    (hno : ∀ c, TransGen r a c → ¬TransGen r c c) : Acc (fun b a => r a b) a := by
  let T := {c // c ∈ S ∧ TransGen r a c}
  have : Finite T := (hfinite.subset fun c hc => hc.1).to_subtype
  let below : T → T → Prop := fun x y => TransGen r y.1 x.1
  have : IsTrans T below := ⟨fun _ _ _ hxy hyz => TransGen.trans hyz hxy⟩
  have : Std.Irrefl below := ⟨fun x => hno x.1 x.2.2⟩
  have hwf : WellFounded below := Finite.wellFounded_of_trans_of_irrefl below
  have hacc (x : T) : Acc (fun b a => r a b) x.1 := by
    induction x using hwf.induction with
    | _ x ih =>
      refine Acc.intro x.1 fun b hb => ?_
      exact ih ⟨b, hinto x.1 b hb, x.2.2.tail hb⟩ (.single hb)
  exact Acc.intro a fun b hb => hacc ⟨b, hinto a b hb, .single hb⟩

/-- A measure that goes down forbids circles. -/
theorem not_cycle_of_lt {holds : Nat → α → Prop}
    (hstep : ∀ n a b, holds n a → r a b → ∃ m < n, holds m b) {n : Nat} {a : α} (ha : holds n a) :
    ¬TransGen r a a := by
  have hdown {n : Nat} {a b : α} (h : TransGen r a b) (ha : holds n a) : ∃ m < n, holds m b := by
    induction h with
    | single hab => exact hstep _ _ _ ha hab
    | tail _ hbc ih =>
      obtain ⟨m, hm, hb⟩ := ih
      obtain ⟨k, hk, hc⟩ := hstep _ _ _ hb hbc
      exact ⟨k, Nat.lt_trans hk hm, hc⟩
  intro hcycle
  induction n using Nat.strongRecOn with
  | ind n ih =>
    obtain ⟨m, hm, ham⟩ := hdown hcycle ha
    exact ih m hm ham

end RainbowOs.Lib
