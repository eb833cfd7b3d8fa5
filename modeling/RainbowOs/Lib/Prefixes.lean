import Mathlib.Data.List.Infix

/-!
# Longest common prefixes

Under "is a prefix of", two lists have a greatest lower bound; so have any
number of them but none, and it is found by taking one after the other.
-/

namespace RainbowOs.Lib

variable {α : Type} {ls ms : List (List α)} {l p q : List α}

/-- The longest of the prefixes that all lists have. -/
structure Longest (ls : List (List α)) (p : List α) : Prop where
  common : ∀ l ∈ ls, p <+: l
  longest : ∀ q, (∀ l ∈ ls, q <+: l) → q <+: p

namespace Longest

theorem singleton (l : List α) : Longest [l] l where
  common m hm := by
    rw [List.mem_singleton.mp hm]
  longest q hq := hq l (List.mem_singleton_self l)

/-- Of more lists, it is no longer. -/
theorem anti (h : Longest ls p) (h' : Longest ms q) (hsub : ls ⊆ ms) : q <+: p :=
  h.longest q fun l hl => h'.common l (hsub hl)

theorem unique (h : Longest ls p) (h' : Longest ls q) : p = q :=
  (h'.anti h (List.Subset.refl ls)).eq_of_length
    (Nat.le_antisymm (h'.anti h (List.Subset.refl ls)).length_le (h.anti h' (List.Subset.refl ls)).length_le)

end Longest

variable [DecidableEq α]

/-- What two lists have in common from their beginning on. -/
def commonPrefix : List α → List α → List α
  | a :: l, b :: m => if a = b then a :: commonPrefix l m else []
  | _, _ => []

/-- The prefixes of the common prefix are the common prefixes. -/
theorem prefix_commonPrefix {p l m : List α} : p <+: commonPrefix l m ↔ p <+: l ∧ p <+: m := by
  induction p generalizing l m with
  | nil => simp
  | cons c p ih =>
    cases l with
    | nil => simp [commonPrefix]
    | cons a l =>
      cases m with
      | nil => simp [commonPrefix]
      | cons b m =>
        rw [commonPrefix]
        split
        · next hab =>
          subst hab
          simp only [List.cons_prefix_cons, ih]
          constructor
          · rintro ⟨rfl, hl, hm⟩
            exact ⟨⟨rfl, hl⟩, rfl, hm⟩
          · rintro ⟨⟨rfl, hl⟩, -, hm⟩
            exact ⟨rfl, hl, hm⟩
        · next hab =>
          simp only [List.cons_prefix_cons, List.prefix_nil]
          constructor
          · intro h
            cases h
          · rintro ⟨⟨rfl, -⟩, rfl, -⟩
            exact absurd rfl hab

/-- With one list more. -/
theorem Longest.concat (h : Longest ls p) (l : List α) : Longest (ls ++ [l]) (commonPrefix p l) where
  common m hm := by
    obtain ⟨hp, hl⟩ := prefix_commonPrefix.mp (List.prefix_rfl (l := commonPrefix p l))
    rcases List.mem_append.mp hm with hm | hm
    · exact hp.trans (h.common m hm)
    · rwa [List.mem_singleton.mp hm]
  longest q hq := prefix_commonPrefix.mpr
    ⟨h.longest q fun m hm => hq m (List.mem_append_left _ hm),
      hq l (List.mem_append_right _ (List.mem_singleton_self l))⟩

theorem exists_longest {ls : List (List α)} (h : ls ≠ []) : ∃ p, Longest ls p := by
  induction ls using List.reverseRecOn with
  | nil => exact absurd rfl h
  | append_singleton ls l ih =>
    by_cases hls : ls = []
    · subst hls
      exact ⟨l, .singleton l⟩
    · obtain ⟨p, hp⟩ := ih hls
      exact ⟨_, hp.concat l⟩

end RainbowOs.Lib
