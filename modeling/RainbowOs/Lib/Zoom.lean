import RainbowOs.Lib.Prog

/-!
# Programs on a part of the state

A system is made of components, each with its own state, its own reasons to stop and
its own log. `zoom` runs a program of a component inside the system: what it is about
is asked of the component, and the rest of the state stays as it is.
-/

namespace RainbowOs.Lib

variable {σ τ δ ε κ ι α : Type}

/-- Where a component is in the state of the system. -/
structure Part (σ τ : Type) where
  get : σ → τ
  set : τ → σ → σ

/-- A stop, under another name. -/
def Outcome.mapHalt (f : δ → ε) : Outcome δ α → Outcome ε α
  | .done a => .done a
  | .halt e => .halt (f e)

namespace Prog

/-- Run `p` on a part of the state. -/
def zoom (part : Part σ τ) (stop : δ → ε) (touch : κ → ι) (p : Prog τ δ κ α) : Prog σ ε ι α := fun s =>
  ⟨(p (part.get s)).out.mapHalt stop, part.set (p (part.get s)).state s, (p (part.get s)).log.map touch⟩

variable {part : Part σ τ} {stop : δ → ε} {touch : κ → ι} {p : Prog τ δ κ α} {P : ι → Prop}
  {Q : α → σ → Prop} {H : ε → σ → Prop} {s : σ}

/-- What is asked of a program in the system is asked of it in the component. -/
theorem wp_zoom : wp P (zoom part stop touch p) Q H s ↔ wp (fun x => P (touch x)) p
    (fun a t => Q a (part.set t s)) (fun e t => H (stop e) (part.set t s)) (part.get s) := by
  have hlog : (∀ x ∈ (p (part.get s)).log.map touch, P x) ↔ ∀ x ∈ (p (part.get s)).log, P (touch x) :=
    List.forall_mem_map
  unfold wp zoom
  rw [hlog]
  cases (p (part.get s)).out with
  | done a => exact Iff.rfl
  | halt e => exact Iff.rfl

/-- A program that always returns does so in the system. -/
theorem wp_zoom_of_total {R : α → τ → Prop} (h : total (fun x => P (touch x)) p R (part.get s))
    (hQ : ∀ a t, R a t → Q a (part.set t s)) : wp P (zoom part stop touch p) Q H s :=
  wp_zoom.mpr (wp_mono h (fun _ hx => hx) hQ fun _ _ h => h.elim)

end Prog

end RainbowOs.Lib
