import Mathlib.Order.Bounds.Basic
import Mathlib.Tactic.Common

/-!
# Runs of one class

A sequence of classes falls into runs of one class. A run of a class that is
not blank has a start and an end, and scans find the next or the one before:
forward over the rest of a run and the blanks after it, or back over blanks
and the run before them.
-/

namespace RainbowOs.Lib

variable {κ : Type} (cls : Nat → κ) (blank : κ) (n : Nat)

/-- A run that is not blank starts at the position. -/
def RunStart (i : Nat) : Prop := i < n ∧ cls i ≠ blank ∧ (i = 0 ∨ cls (i - 1) ≠ cls i)

/-- A run that is not blank ends at the position. -/
def RunEnd (i : Nat) : Prop := i < n ∧ cls i ≠ blank ∧ (i + 1 = n ∨ cls (i + 1) ≠ cls i)

/-- A scan forward, over positions of a kind. -/
structure Scanned (p : Nat → Prop) (n i j : Nat) : Prop where
  le : i ≤ j
  within : j ≤ n
  passed : ∀ k, i ≤ k → k < j → p k
  stop : j < n → ¬p j

/-- A scan back, over positions of a kind. -/
structure ScannedBack (p : Nat → Prop) (i j : Nat) : Prop where
  le : j ≤ i
  passed : ∀ k, j < k → k ≤ i → p k
  stop : 0 < j → ¬p j

theorem Scanned.congr {P Q : Nat → Prop} {n i j : Nat} (h : Scanned P n i j) (hPQ : ∀ k, P k ↔ Q k) :
    Scanned Q n i j := by
  rwa [← show P = Q from funext fun k => propext (hPQ k)]

theorem ScannedBack.congr {P Q : Nat → Prop} {i j : Nat} (h : ScannedBack P i j) (hPQ : ∀ k, P k ↔ Q k) :
    ScannedBack Q i j := by
  rwa [← show P = Q from funext fun k => propext (hPQ k)]

/-- A scan that stops at once. -/
theorem Scanned.eq_of_not {P : Nat → Prop} {n i j : Nat} (h : Scanned P n i j) (hi : ¬P i) : j = i := by
  by_contra hne
  exact hi (h.passed i (Nat.le_refl _) (Nat.lt_of_le_of_ne h.le fun heq => hne heq.symm))

variable {cls blank n} {pos mid stop : Nat}

theorem isLeast_runStart_of_ge (hpos : n ≤ pos) : IsLeast {i | pos < i ∧ RunStart cls blank n i ∨ i = n} n := by
  refine ⟨.inr rfl, ?_⟩
  rintro i (⟨hi, hn, -⟩ | rfl)
  · omega
  · exact Nat.le_refl _

theorem isLeast_runEnd_of_ge (hpos : n ≤ pos + 1) :
    IsLeast {i | pos < i ∧ RunEnd cls blank n i ∨ i = n - 1} (n - 1) := by
  refine ⟨.inr rfl, ?_⟩
  rintro i (⟨hi, hn, -⟩ | rfl)
  · omega
  · exact Nat.le_refl _

theorem isGreatest_runStart_zero : IsGreatest {i | i < 0 ∧ RunStart cls blank n i ∨ i = 0} 0 := by
  refine ⟨.inr rfl, ?_⟩
  rintro i (⟨hi, -⟩ | rfl)
  · exact absurd hi (Nat.not_lt_zero i)
  · exact Nat.le_refl _

/-- Behind the rest of a run and the blanks after it is the next start. -/
theorem isLeast_runStart (hpos : pos < n)
    (hrun : Scanned (fun k => cls k = cls pos) n pos mid ∨ cls pos = blank ∧ mid = pos)
    (hblank : Scanned (fun k => cls k = blank) n mid stop) :
    IsLeast {i | pos < i ∧ RunStart cls blank n i ∨ i = n} stop := by
  have hle : pos ≤ mid := by
    rcases hrun with hrun | ⟨-, rfl⟩
    · exact hrun.le
    · exact Nat.le_refl _
  have hsame : ∀ k, pos ≤ k → k < mid → cls k = cls pos := by
    rcases hrun with hrun | ⟨-, rfl⟩
    · exact hrun.passed
    · exact fun k hk hlt => absurd hlt (Nat.not_lt_of_le hk)
  have hnew : mid < n → cls mid ≠ blank → cls mid ≠ cls pos := by
    rcases hrun with hrun | ⟨hb, rfl⟩
    · exact fun hlt _ => hrun.stop hlt
    · exact fun _ hmid => absurd hb hmid
  constructor
  · rcases Nat.lt_or_ge stop n with hlt | hge
    · have hstop := hblank.stop hlt
      rcases Nat.lt_or_ge mid stop with hmid | hmid
      · have hbefore : cls (stop - 1) = blank := hblank.passed _ (by omega) (by omega)
        exact .inl ⟨by omega, hlt, hstop, .inr fun heq => hstop (heq ▸ hbefore)⟩
      · have hmid : stop = mid := Nat.le_antisymm hmid hblank.le
        subst hmid
        have hdiff := hnew hlt hstop
        have hpos : pos < stop := Nat.lt_of_le_of_ne hle fun heq => hdiff (heq ▸ rfl)
        have hbefore : cls (stop - 1) = cls pos := hsame _ (by omega) (by omega)
        exact .inl ⟨hpos, hlt, hstop, .inr fun heq => hdiff (heq ▸ hbefore)⟩
    · exact .inr (Nat.le_antisymm hblank.within hge)
  · rintro i (⟨hi, -, hnot, hstart⟩ | rfl)
    · by_contra hlt
      rcases Nat.lt_or_ge i mid with hmid | hmid
      · rcases hstart with rfl | hstart
        · exact absurd hi (Nat.not_lt_zero _)
        · exact hstart ((hsame _ (by omega) (by omega)).trans (hsame i (by omega) hmid).symm)
      · exact hnot (hblank.passed i hmid (by omega))
    · exact hblank.within

/-- Before the blanks and at the start of the run before them is the start before. -/
theorem isGreatest_runStart (hpos : 0 < pos) (hn : pos ≤ n)
    (hblank : ScannedBack (fun k => cls k = blank) (pos - 1) mid)
    (hrun : cls mid = blank ∧ mid = 0 ∧ stop = 0 ∨
      cls mid ≠ blank ∧ ScannedBack (fun k => cls (k - 1) = cls mid) mid stop) :
    IsGreatest {i | i < pos ∧ RunStart cls blank n i ∨ i = 0} stop := by
  have hmid := hblank.le
  rcases hrun with ⟨hb, rfl, rfl⟩ | ⟨hnot, hrun⟩
  · refine ⟨.inr rfl, ?_⟩
    rintro i (⟨hi, -, hstart, -⟩ | rfl)
    · rcases Nat.eq_zero_or_pos i with rfl | hpos'
      · exact absurd hb hstart
      · exact absurd (hblank.passed i hpos' (by omega)) hstart
    · exact Nat.le_refl 0
  · have hle := hrun.le
    have hsame : ∀ k, stop ≤ k → k ≤ mid → cls k = cls mid := by
      intro k hk hkm
      rcases Nat.lt_or_ge k mid with hlt | hge
      · have hbefore := hrun.passed (k + 1) (by omega) hlt
        rwa [Nat.add_sub_cancel] at hbefore
      · rw [Nat.le_antisymm hkm hge]
    have hfirst := hsame stop (Nat.le_refl _) hle
    constructor
    · rcases Nat.eq_zero_or_pos stop with hzero | hstop
      · exact .inr hzero
      · have hdiff : cls (stop - 1) ≠ cls stop := hfirst ▸ hrun.stop hstop
        exact .inl ⟨by omega, by omega, hfirst ▸ hnot, .inr hdiff⟩
    · rintro i (⟨hi, -, hstart, hnew⟩ | rfl)
      · by_contra hlt
        rcases Nat.lt_or_ge mid i with hmi | hmi
        · exact hstart (hblank.passed i hmi (by omega))
        · rcases hnew with rfl | hnew
          · exact hlt (Nat.zero_le _)
          · exact hnew ((hsame _ (by omega) (by omega)).trans (hsame i (by omega) hmi).symm)
      · exact Nat.zero_le _

/-- Behind the blanks and at the end of the run after them is the next end. -/
theorem isLeast_runEnd (hpos : pos + 1 < n) (hblank : Scanned (fun k => cls k = blank) n (pos + 1) mid)
    (hrun : mid = n ∧ stop = n - 1 ∨
      mid < n ∧ Scanned (fun k => cls k = cls mid) n (mid + 1) (stop + 1)) :
    IsLeast {i | pos < i ∧ RunEnd cls blank n i ∨ i = n - 1} stop := by
  have hle := hblank.le
  rcases hrun with ⟨rfl, rfl⟩ | ⟨hlt, hrun⟩
  · refine ⟨.inr rfl, ?_⟩
    rintro i (⟨hi, hin, hend, -⟩ | rfl)
    · exact absurd (hblank.passed i hi hin) hend
    · exact Nat.le_refl _
  · have hnot := hblank.stop hlt
    have hmid : mid ≤ stop := Nat.le_of_succ_le_succ hrun.le
    have hwithin := hrun.within
    have hsame : ∀ k, mid ≤ k → k ≤ stop → cls k = cls mid := by
      intro k hk hks
      rcases Nat.lt_or_ge mid k with hmk | hmk
      · exact hrun.passed k hmk (by omega)
      · rw [Nat.le_antisymm hmk hk]
    have hlast := hsame stop hmid (Nat.le_refl _)
    constructor
    · refine .inl ⟨by omega, by omega, fun heq => hnot (hlast ▸ heq), ?_⟩
      rcases Nat.lt_or_ge (stop + 1) n with hmore | hdone
      · exact .inr fun heq => hrun.stop hmore (heq.trans hlast)
      · exact .inl (Nat.le_antisymm hwithin hdone)
    · rintro i (⟨hi, -, hend, hnew⟩ | rfl)
      · by_contra hgt
        rcases Nat.lt_or_ge i mid with him | him
        · exact hend (hblank.passed i hi him)
        · rcases hnew with hlen | hnew
          · omega
          · exact hnew ((hsame _ (by omega) (by omega)).trans (hsame i him (by omega)).symm)
      · omega

end RainbowOs.Lib
