import Mathlib.Logic.Function.Basic
import Mathlib.Tactic.Common

/-!
# Bitmaps

A set of small numbers kept as an array of `w`-bit words, number `f` being
bit `f % w` of word `f / w`. `used` reads the array as the set; setting and
clearing a bit are insertion and removal, and the word-by-word search for a
clear bit finds the least number that is not in the set.
-/

namespace RainbowOs.Lib

/-- An array of words. -/
abbrev Bitmap (w : Nat) := Nat → BitVec w

namespace Bitmap

variable {w : Nat}

/-- Number `f` is in the set. -/
def used (b : Bitmap w) (f : Nat) : Bool := (b (f / w)).getLsbD (f % w)

def set (b : Bitmap w) (f : Nat) : Bitmap w :=
  Function.update b (f / w) (b (f / w) ||| 1#w <<< (f % w))

def clear (b : Bitmap w) (f : Nat) : Bitmap w :=
  Function.update b (f / w) (b (f / w) &&& ~~~(1#w <<< (f % w)))

def test (b : Bitmap w) (f : Nat) : Bool := b (f / w) &&& 1#w <<< (f % w) != 0#w

/-- The search: words that are all ones are skipped, the others searched bit by bit. -/
def firstClear (b : Bitmap w) (words : Nat) : Option Nat :=
  (List.range words).findSome? fun i =>
    if b i = BitVec.allOnes w then none
    else ((List.range w).find? fun bit => b i &&& 1#w <<< bit == 0#w).map fun bit => i * w + bit

/-! ## One bit -/

theorem getLsbD_mask (i : Nat) {j : Nat} (hj : j < w) :
    (1#w <<< i).getLsbD j = decide (i = j) := by
  rw [← BitVec.twoPow_eq, BitVec.getLsbD_twoPow]
  by_cases h : i = j
  · rw [h, decide_eq_true hj]
    rfl
  · rw [decide_eq_false h, Bool.and_false]

/-- A masked word is zero exactly when the bit is clear. -/
theorem and_mask_eq_zero_iff (x : BitVec w) {i : Nat} (hi : i < w) :
    x &&& 1#w <<< i = 0#w ↔ x.getLsbD i = false := by
  rw [← BitVec.twoPow_eq, BitVec.and_twoPow]
  cases h : x.getLsbD i with
  | false => simp
  | true =>
    simp only [if_true, Bool.true_eq_false, iff_false]
    intro hz
    have hbit := congrArg (fun y => BitVec.getLsbD y i) hz
    simp [hi] at hbit

/-- Two numbers are the same when their word and their bit are. -/
theorem eq_of_div_mod {f g : Nat} (hd : f / w = g / w) (hm : f % w = g % w) : f = g := by
  rw [← Nat.div_add_mod f w, hd, hm, Nat.div_add_mod]

theorem used_set (hw : 0 < w) (b : Bitmap w) (f g : Nat) :
    (b.set f).used g = (decide (g = f) || b.used g) := by
  unfold set used
  have hg := Nat.mod_lt g hw
  by_cases hword : g / w = f / w
  · rw [hword, Function.update_self, BitVec.getLsbD_or, getLsbD_mask _ hg, Bool.or_comm]
    congr 1
    refine decide_eq_decide.mpr ⟨fun h => eq_of_div_mod hword h.symm, fun h => by rw [h]⟩
  · have hne : g ≠ f := fun h => hword (by rw [h])
    rw [Function.update_of_ne hword, decide_eq_false hne, Bool.false_or]

theorem used_clear (hw : 0 < w) (b : Bitmap w) (f g : Nat) :
    (b.clear f).used g = (!decide (g = f) && b.used g) := by
  unfold clear used
  have hg := Nat.mod_lt g hw
  by_cases hword : g / w = f / w
  · rw [hword, Function.update_self, BitVec.getLsbD_and, BitVec.getLsbD_not, decide_eq_true hg,
      Bool.true_and, getLsbD_mask _ hg, Bool.and_comm]
    congr 2
    refine decide_eq_decide.mpr ⟨fun h => eq_of_div_mod hword h.symm, fun h => by rw [h]⟩
  · have hne : g ≠ f := fun h => hword (by rw [h])
    rw [Function.update_of_ne hword, decide_eq_false hne, Bool.not_false, Bool.true_and]

theorem test_eq_used (hw : 0 < w) (b : Bitmap w) (f : Nat) : b.test f = b.used f := by
  unfold test used
  have hiff := and_mask_eq_zero_iff (b (f / w)) (Nat.mod_lt f hw)
  cases h : (b (f / w)).getLsbD (f % w) with
  | false => rw [hiff.mpr h, bne_self_eq_false]
  | true =>
    refine bne_iff_ne.mpr fun hz => ?_
    rw [hiff.mp hz] at h
    exact Bool.false_ne_true h

/-! ## The search -/

theorem findSome?_range_eq_some {β : Type} {f : Nat → Option β} {n : Nat} {x : β} :
    (List.range n).findSome? f = some x ↔
      ∃ i, i < n ∧ f i = some x ∧ ∀ j, j < i → f j = none := by
  induction n with
  | zero => simp
  | succ n ih =>
    rw [List.range_succ, List.findSome?_append, Option.or_eq_some_iff, ih, List.findSome?_eq_none_iff]
    constructor
    · rintro (⟨i, hi, hx, hbefore⟩ | ⟨hnone, hx⟩)
      · exact ⟨i, Nat.lt_succ_of_lt hi, hx, hbefore⟩
      · rw [List.findSome?_singleton] at hx
        exact ⟨n, Nat.lt_succ_self n, hx, fun j hj => hnone j (List.mem_range.mpr hj)⟩
    · rintro ⟨i, hi, hx, hbefore⟩
      rcases Nat.lt_succ_iff_lt_or_eq.mp hi with hi | rfl
      · exact Or.inl ⟨i, hi, hx, hbefore⟩
      · exact Or.inr ⟨fun j hj => hbefore j (List.mem_range.mp hj), by
          rw [List.findSome?_singleton, hx]⟩

/-- What the search makes of one word: nothing when it is full, its least clear bit otherwise. -/
theorem word_eq_none_iff (x : BitVec w) {k : Nat} :
    (if x = BitVec.allOnes w then none
      else ((List.range w).find? fun bit => x &&& 1#w <<< bit == 0#w).map fun bit => k + bit) =
        (none : Option Nat) ↔ ∀ i, i < w → x.getLsbD i = true := by
  constructor
  · intro h i hi
    split at h
    · next hx => rw [hx, BitVec.getLsbD_allOnes, decide_eq_true hi]
    · rw [Option.map_eq_none_iff, List.find?_range_eq_none] at h
      have hne := h i hi
      rw [Bool.not_eq_true', beq_eq_false_iff_ne, Ne, and_mask_eq_zero_iff x hi,
        Bool.not_eq_false] at hne
      exact hne
  · intro h
    refine if_pos (BitVec.eq_of_getLsbD_eq fun i hi => ?_)
    rw [h i hi, BitVec.getLsbD_allOnes, decide_eq_true hi]

theorem word_eq_some {x : BitVec w} {k f : Nat}
    (h : (if x = BitVec.allOnes w then none
      else ((List.range w).find? fun bit => x &&& 1#w <<< bit == 0#w).map fun bit => k + bit) =
        some f) :
    ∃ i, i < w ∧ f = k + i ∧ x.getLsbD i = false ∧ ∀ j, j < i → x.getLsbD j = true := by
  split at h
  · exact absurd h.symm (Option.some_ne_none f)
  obtain ⟨i, hfind, rfl⟩ := Option.map_eq_some_iff.mp h
  obtain ⟨hz, hi, hbefore⟩ := List.find?_range_eq_some.mp hfind
  have hi := List.mem_range.mp hi
  refine ⟨i, hi, rfl, (and_mask_eq_zero_iff x hi).mp (beq_iff_eq.mp hz), fun j hj => ?_⟩
  have hne := hbefore j hj
  rw [Bool.not_eq_true', beq_eq_false_iff_ne, Ne, and_mask_eq_zero_iff x (Nat.lt_trans hj hi),
    Bool.not_eq_false] at hne
  exact hne

/-- The search finds nothing when every number of its words is in the set. -/
theorem used_of_firstClear_eq_none {b : Bitmap w} {words f : Nat} (hw : 0 < w)
    (h : b.firstClear words = none) (hf : f < words * w) : b.used f = true := by
  have hword := List.findSome?_eq_none_iff.mp h (f / w)
    (List.mem_range.mpr ((Nat.div_lt_iff_lt_mul hw).mpr hf))
  exact (word_eq_none_iff _).mp hword _ (Nat.mod_lt f hw)

/-- What the search finds is the least number that is not in the set. -/
theorem firstClear_eq_some {b : Bitmap w} {words f : Nat} (hw : 0 < w)
    (h : b.firstClear words = some f) :
    f < words * w ∧ b.used f = false ∧ ∀ g, g < f → b.used g = true := by
  obtain ⟨k, hk, hword, hbefore⟩ := findSome?_range_eq_some.mp h
  obtain ⟨i, hi, rfl, hclear, hlow⟩ := word_eq_some hword
  have hdiv : (k * w + i) / w = k := by
    rw [Nat.mul_comm, Nat.mul_add_div hw, Nat.div_eq_of_lt hi, Nat.add_zero]
  have hmod : (k * w + i) % w = i := by
    rw [Nat.mul_comm, Nat.mul_add_mod, Nat.mod_eq_of_lt hi]
  refine ⟨?_, ?_, fun g hg => ?_⟩
  · have hle := Nat.mul_le_mul_right w (Nat.succ_le_of_lt hk)
    rw [Nat.succ_mul] at hle
    omega
  · unfold used
    rw [hdiv, hmod]
    exact hclear
  · unfold used
    have hgd : g / w ≤ k := by
      rw [← hdiv]
      exact Nat.div_le_div_right (Nat.le_of_lt hg)
    rcases Nat.lt_or_eq_of_le hgd with hlt | heq
    · exact (word_eq_none_iff _).mp (hbefore _ hlt) _ (Nat.mod_lt g hw)
    · rw [heq]
      refine hlow _ ?_
      have hsplit := Nat.div_add_mod g w
      rw [heq, Nat.mul_comm] at hsplit
      omega

end Bitmap

end RainbowOs.Lib
