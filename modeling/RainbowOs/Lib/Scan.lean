import Mathlib.Tactic.Common

/-!
# Scanners

A scanner reads a list from the front, a round at a time. A round sees a
state, the first item and the rest, puts something out, and leaves a state
and what is left to read; it may be undefined. `Reads` is any number of
rounds, as a relation between what there is to read before and after;
`scan` runs to the end. A scanner that shortens what it reads needs no more
rounds than there are items.
-/

namespace RainbowOs.Lib.Scan

variable {σ α β : Type}

/-- What a round leaves. -/
structure Round (σ α β : Type) where
  out : List β
  state : σ
  rest : List α
  deriving DecidableEq, Repr

/-- The scanner reads `s` down to `s'`. -/
inductive Reads (step : σ → α → List α → Option (Round σ α β)) :
    σ → List α → List β → σ → List α → Prop where
  | refl (x : σ) (s : List α) : Reads step x s [] x s
  | round {x x' : σ} {c : α} {s s' : List α} {out : List β} {r : Round σ α β}
      (hr : step x c s = some r) (h : Reads step r.state r.rest out x' s') :
      Reads step x (c :: s) (r.out ++ out) x' s'

/-- The scanner to the end: what it puts out, and the state it is left in. -/
def scan (step : σ → α → List α → Option (Round σ α β)) : Nat → σ → List α → Option (List β × σ)
  | _, x, [] => some ([], x)
  | 0, _, _ :: _ => none
  | n + 1, x, c :: s => do
    let r ← step x c s
    let (out, x') ← scan step n r.state r.rest
    return (r.out ++ out, x')

/-- A round leaves less than there was. -/
def Shortens (step : σ → α → List α → Option (Round σ α β)) : Prop :=
  ∀ x c s r, step x c s = some r → r.rest.length ≤ s.length

namespace Reads

variable {step : σ → α → List α → Option (Round σ α β)} {x x' x'' : σ} {s s' s'' : List α}
  {out out' : List β}

theorem single {c : α} {r : Round σ α β} (hr : step x c s = some r) :
    Reads step x (c :: s) r.out r.state r.rest := by
  have h := Reads.round hr (.refl r.state r.rest)
  rwa [List.append_nil] at h

/-- There is nothing to read in an empty list. -/
theorem of_nil (h : Reads step x [] out x' s') : out = [] ∧ x' = x ∧ s' = [] := by
  cases h with
  | refl => exact ⟨rfl, rfl, rfl⟩

theorem trans (h : Reads step x s out x' s') (h' : Reads step x' s' out' x'' s'') :
    Reads step x s (out ++ out') x'' s'' := by
  induction h with
  | refl => exact h'
  | round hr _ ih =>
    rw [List.append_assoc]
    exact .round hr (ih h')

/-- Another scanner that does what this one does. -/
theorem mono {step' : σ → α → List α → Option (Round σ α β)}
    (hstep : ∀ x c s r, step x c s = some r → step' x c s = some r) (h : Reads step x s out x' s') :
    Reads step' x s out x' s' := by
  induction h with
  | refl => exact .refl _ _
  | round hr _ ih => exact .round (hstep _ _ _ _ hr) ih

/-- What a round keeps, any number of them keeps. -/
theorem keeps {P : σ → Prop} (hstep : ∀ x c s r, step x c s = some r → P x → P r.state)
    (h : Reads step x s out x' s') (hx : P x) : P x' := by
  induction h with
  | refl => exact hx
  | round hr _ ih => exact ih (hstep _ _ _ _ hr hx)

/-- What is left is the end of what there was. -/
theorem suffix (hstep : ∀ x c s r, step x c s = some r → r.rest <:+ s) (h : Reads step x s out x' s') : s' <:+ s := by
  induction h with
  | refl => exact List.suffix_rfl
  | round hr _ ih => exact ih.trans ((hstep _ _ _ _ hr).trans (List.suffix_cons _ _))

/-- Where all is left, nothing was read. -/
theorem of_eq (hstep : ∀ x c s r, step x c s = some r → r.rest <:+ s) (h : Reads step x s out x' s')
    (hs : s = s') : out = [] ∧ x' = x := by
  cases h with
  | refl => exact ⟨rfl, rfl⟩
  | @round _ _ c s _ _ r hr h =>
    have hlength := ((h.suffix hstep).trans (hstep _ _ _ _ hr)).length_le
    rw [← hs, List.length_cons] at hlength
    omega

/-- There is one way to the end. -/
theorem split (h : Reads step x s out x' s') {e : List α} (h' : Reads step x s out' x'' e)
    (he : e = []) : ∃ out'', out' = out ++ out'' ∧ Reads step x' s' out'' x'' e := by
  induction h generalizing out' with
  | refl => exact ⟨out', rfl, h'⟩
  | round hr _ ih =>
    cases h' with
    | refl => cases he
    | round hr' h' =>
      cases hr.symm.trans hr'
      obtain ⟨out'', rfl, hrest⟩ := ih h'
      exact ⟨out'', (List.append_assoc _ _ _).symm, hrest⟩

/-- Items that each take a round. -/
theorem map {pre : List α} {f : α → List β} (h : ∀ c ∈ pre, ∀ s, step x c s = some ⟨f c, x, s⟩) :
    Reads step x (pre ++ s) (pre.flatMap f) x s := by
  induction pre with
  | nil => exact .refl x s
  | cons c pre ih =>
    have hrest := ih fun d hd => h d (List.mem_cons_of_mem c hd)
    exact .round (h c List.mem_cons_self (pre ++ s)) hrest

/-- What is read to the end is what the scanner puts out. -/
theorem scan (h : Reads step x s out x' s') (hend : s' = []) (hshort : Shortens step) {n : Nat}
    (hn : s.length ≤ n) : Scan.scan step n x s = some (out, x') := by
  induction h generalizing n with
  | refl =>
    subst hend
    cases n <;> rfl
  | @round x x' c s s' out r hr h ih =>
    cases n with
    | zero => cases hn
    | succ n =>
      have hlength := hshort x c s r hr
      have hrest := ih hend (Nat.le_trans hlength (Nat.le_of_succ_le_succ hn))
      simp only [Scan.scan, hr, hrest, Option.bind_eq_bind, Option.bind_some]
      rfl

end Reads

end RainbowOs.Lib.Scan
