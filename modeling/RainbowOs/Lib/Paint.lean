import Mathlib.Tactic.Common

/-!
# Painting

An operation paints an area with an ink when afterwards every point of the area
has its ink and every other point looks as before. A loop whose rounds paint with
one ink paints the union of their areas, in whatever order they overlap.
-/

namespace RainbowOs.Lib

variable {σ ι α : Type} {ok : σ → Prop} {look : σ → ι → α}

/-- On the states that are `ok`, `f` paints `area` with `ink`. -/
structure Paints (ok : σ → Prop) (look : σ → ι → α) (area : ι → Prop) (ink : ι → α) (f : σ → σ) : Prop where
  keeps : ∀ {s}, ok s → ok (f s)
  inside : ∀ {s} {p}, ok s → area p → look (f s) p = ink p
  outside : ∀ {s} {p}, ok s → ¬ area p → look (f s) p = look s p

namespace Paints

variable {area area' : ι → Prop} {ink ink' : ι → α} {f g : σ → σ}

theorem refl (ink : ι → α) : Paints ok look (fun _ => False) ink id :=
  ⟨id, fun _ h => h.elim, fun _ _ => rfl⟩

theorem congr (h : Paints ok look area ink f) (harea : ∀ p, area p ↔ area' p)
    (hink : ∀ p, area p → ink p = ink' p) : Paints ok look area' ink' f where
  keeps := h.keeps
  inside hs hp := (h.inside hs ((harea _).mpr hp)).trans (hink _ ((harea _).mpr hp))
  outside hs hp := h.outside hs fun ha => hp ((harea _).mp ha)

/-- One coat after another. -/
theorem comp (hf : Paints ok look area ink f) (hg : Paints ok look area' ink g) :
    Paints ok look (fun p => area p ∨ area' p) ink (fun s => g (f s)) where
  keeps hs := hg.keeps (hf.keeps hs)
  inside {_ p} hs hp := by
    by_cases ha : area' p
    · exact hg.inside (hf.keeps hs) ha
    · exact (hg.outside (hf.keeps hs) ha).trans (hf.inside hs (hp.resolve_right ha))
  outside hs hp := by
    rw [not_or] at hp
    exact (hg.outside (hf.keeps hs) hp.2).trans (hf.outside hs hp.1)

/-- A loop of `n` rounds. -/
theorem loop {areas : Nat → ι → Prop} {round : σ → Nat → σ} {n : Nat}
    (h : ∀ i < n, Paints ok look (areas i) ink fun s => round s i) :
    Paints ok look (fun p => ∃ i < n, areas i p) ink fun s => (List.range n).foldl round s := by
  induction n with
  | zero =>
    refine (refl ink).congr (fun p => ?_) fun _ _ => rfl
    exact ⟨False.elim, fun ⟨i, hi, _⟩ => absurd hi (Nat.not_lt_zero i)⟩
  | succ n ih =>
    have hlast := (ih fun i hi => h i (Nat.lt_succ_of_lt hi)).comp (h n (Nat.lt_succ_self n))
    simp only [List.range_succ, List.foldl_append, List.foldl_cons, List.foldl_nil]
    refine hlast.congr (fun p => ?_) fun _ _ => rfl
    constructor
    · rintro (⟨i, hi, hp⟩ | hp)
      · exact ⟨i, Nat.lt_succ_of_lt hi, hp⟩
      · exact ⟨n, Nat.lt_succ_self n, hp⟩
    · rintro ⟨i, hi, hp⟩
      rcases Nat.lt_or_eq_of_le (Nat.le_of_lt_succ hi) with hlt | rfl
      · exact .inl ⟨i, hlt, hp⟩
      · exact .inr hp

end Paints

end RainbowOs.Lib
