import RainbowOs.Editor.Motions
import RainbowOs.Editor.Walks
import RainbowOs.Lib.Runs

/-!
# Word motions

The characters of the text fall into classes, and a word is a run of one class
that is not blank: for `w`, `b` and `e` a letter, a digit or an underscore is of
one class and any other visible character of another, for `W`, `B` and `E` they
are of one. The loops of the motions scan to the next start or end of a word,
or to the one before.
-/

namespace RainbowOs.Editor

open RainbowOs.Lib

/-- The class of a character. -/
inductive CharClass where
  | blank
  | word
  | other
  deriving DecidableEq

def charClass (c : UInt8) : CharClass :=
  if isWhitespace c then .blank else if isWordChar c then .word else .other

/-- The class of a character, for the motions by blanks. -/
def bigClass (c : UInt8) : CharClass := if isWhitespace c then .blank else .word

/-- A word starts at the position of the text. -/
abbrev WordStart (kind : UInt8 → CharClass) (b : Buffer) : Nat → Prop :=
  RunStart (fun k => kind (b.bufCharAt k)) .blank b.bufLength

/-- A word ends at the position of the text. -/
abbrev WordEnd (kind : UInt8 → CharClass) (b : Buffer) : Nat → Prop :=
  RunEnd (fun k => kind (b.bufCharAt k)) .blank b.bufLength

section Classes

variable {c : UInt8}

theorem not_blank_of_word (h : isWordChar c = true) : isWhitespace c = false := by
  simp only [isWordChar, Bool.or_eq_true, Bool.and_eq_true, decide_eq_true_eq, UInt8.le_iff_toNat_le] at h
  simp only [isWhitespace, Bool.or_eq_false_iff, decide_eq_false_iff_not]
  refine ⟨⟨⟨?_, ?_⟩, ?_⟩, ?_⟩
  all_goals
    rintro rfl
    revert h
    decide

theorem charClass_blank : charClass c = .blank ↔ isWhitespace c = true := by
  unfold charClass
  split
  · next h => simp [h]
  · next h => split <;> simp [h]

theorem charClass_word : charClass c = .word ↔ isWordChar c = true := by
  unfold charClass
  split
  · next h =>
    refine ⟨nofun, fun hw => ?_⟩
    rw [not_blank_of_word hw] at h
    cases h
  · split
    · next hw => simp [hw]
    · next hw => simp [hw]

theorem charClass_other : charClass c = .other ↔ isOther c = true := by
  have hblank := charClass_blank (c := c)
  have hword := charClass_word (c := c)
  rw [isOther, Bool.and_eq_true, Bool.not_eq_true', Bool.not_eq_true', ← Bool.not_eq_true, ← Bool.not_eq_true,
    ← hblank, ← hword]
  cases charClass c <;> simp

theorem bigClass_blank : bigClass c = .blank ↔ isWhitespace c = true := by
  unfold bigClass
  split <;> simp_all

theorem bigClass_word : bigClass c = .word ↔ (!isWhitespace c) = true := by
  unfold bigClass
  split <;> simp_all

end Classes

/-! ## Scans -/

section Scans

variable {b : Buffer} {p : UInt8 → Bool} {i len : Nat}

theorem whileFrom_spec (p : UInt8 → Bool) (n i : Nat) :
    Scanned (fun k => p (b.bufCharAt k) = true) (i + n) i (whileFrom b p n i) := by
  induction n generalizing i with
  | zero => exact ⟨Nat.le_refl _, Nat.le_refl _, fun k hk hlt => absurd hlt (Nat.not_lt_of_le hk),
      fun hlt => absurd hlt (Nat.lt_irrefl _)⟩
  | succ n ih =>
    rw [whileFrom]
    split
    · next hp =>
      obtain ⟨hle, hwithin, hover, hstop⟩ := ih (i := i + 1)
      rw [show i + 1 + n = i + (n + 1) by omega] at hwithin hstop
      refine ⟨by omega, hwithin, fun k hk hlt => ?_, hstop⟩
      rcases Nat.eq_or_lt_of_le hk with rfl | hk
      · exact hp
      · exact hover k hk hlt
    · next hp =>
      exact ⟨Nat.le_refl _, Nat.le_add_right _ _, fun k hk hlt => absurd hlt (Nat.not_lt_of_le hk),
        fun _ => hp⟩

theorem skipWhile_spec (p : UInt8 → Bool) (hi : i ≤ len) :
    Scanned (fun k => p (b.bufCharAt k) = true) len i (skipWhile b p len i) := by
  have hspec := whileFrom_spec (b := b) p (len - i) i
  rwa [Nat.add_sub_cancel' hi] at hspec

theorem backWhile_spec (p : Nat → Bool) (i : Nat) : ScannedBack (fun k => p k = true) i (backWhile p i) := by
  induction i with
  | zero => exact ⟨Nat.le_refl _, fun k hk hle => absurd hk (Nat.not_lt_of_le hle),
      fun hlt => absurd hlt (Nat.lt_irrefl _)⟩
  | succ i ih =>
    rw [backWhile]
    split
    · next hp =>
      refine ⟨Nat.le_succ_of_le ih.le, fun k hk hle => ?_, ih.stop⟩
      rcases Nat.eq_or_lt_of_le hle with rfl | hlt
      · exact hp
      · exact ih.passed k hk (Nat.le_of_lt_succ hlt)
    · next hp =>
      exact ⟨Nat.le_refl _, fun k hk hle => absurd hk (Nat.not_lt_of_le hle), fun _ => hp⟩

end Scans

/-! ## Motions -/

section Motions

variable {b : Buffer} {pos mid stop : Nat} {kind : UInt8 → CharClass}
  (hkind : ∀ {c}, kind c = .blank ↔ isWhitespace c = true)

include hkind

theorem isLeast_forward (hpos : pos < b.bufLength)
    (hrun : Scanned (fun k => kind (b.bufCharAt k) = kind (b.bufCharAt pos)) b.bufLength pos mid ∨
      kind (b.bufCharAt pos) = .blank ∧ mid = pos) :
    IsLeast {i | pos < i ∧ WordStart kind b i ∨ i = b.bufLength} (skipWhile b isWhitespace b.bufLength mid) := by
  have hmid : mid ≤ b.bufLength := by
    rcases hrun with hrun | ⟨-, rfl⟩
    · exact hrun.within
    · exact Nat.le_of_lt hpos
  exact isLeast_runStart hpos hrun ((skipWhile_spec isWhitespace hmid).congr fun _ => hkind.symm)

theorem isGreatest_backward (hpos : 0 < pos) (hle : pos ≤ b.bufLength)
    (hmid : backWhile (fun i => isWhitespace (b.bufCharAt i)) (pos - 1) = mid)
    (hrun : isWhitespace (b.bufCharAt mid) = true ∧ mid = 0 ∧ stop = 0 ∨ isWhitespace (b.bufCharAt mid) ≠ true ∧
      ScannedBack (fun k => kind (b.bufCharAt (k - 1)) = kind (b.bufCharAt mid)) mid stop) :
    IsGreatest {i | i < pos ∧ WordStart kind b i ∨ i = 0} stop := by
  have hblank := backWhile_spec (fun i => isWhitespace (b.bufCharAt i)) (pos - 1)
  rw [hmid] at hblank
  refine isGreatest_runStart hpos hle (hblank.congr fun _ => hkind.symm) ?_
  rcases hrun with ⟨hb, hzero⟩ | ⟨hb, hrun⟩
  · exact .inl ⟨hkind.mpr hb, hzero⟩
  · exact .inr ⟨fun h => hb (hkind.mp h), hrun⟩

theorem isLeast_end (hpos : pos + 1 < b.bufLength)
    (hmid : skipWhile b isWhitespace b.bufLength (pos + 1) = mid)
    (hrun : b.bufLength ≤ mid ∧ stop = b.bufLength - 1 ∨ mid < b.bufLength ∧
      Scanned (fun k => kind (b.bufCharAt k) = kind (b.bufCharAt mid)) b.bufLength (mid + 1) (stop + 1)) :
    IsLeast {i | pos < i ∧ WordEnd kind b i ∨ i = b.bufLength - 1} stop := by
  have hblank := skipWhile_spec (b := b) isWhitespace (Nat.le_of_lt hpos)
  rw [hmid] at hblank
  refine isLeast_runEnd hpos (hblank.congr fun _ => hkind.symm) ?_
  rcases hrun with ⟨hge, hstop⟩ | hrun
  · exact .inl ⟨Nat.le_antisymm hblank.within hge, hstop⟩
  · exact .inr hrun

omit hkind

/-- The loop to the end of a run. -/
theorem endWhile_spec {p : UInt8 → Bool} {cl : CharClass} (hp : ∀ {c}, kind c = cl ↔ p c = true)
    (hmid : mid < b.bufLength) (hcl : kind (b.bufCharAt mid) = cl) :
    Scanned (fun k => kind (b.bufCharAt k) = kind (b.bufCharAt mid)) b.bufLength (mid + 1)
      (endWhile b p b.bufLength mid + 1) := by
  have hscan := skipWhile_spec (b := b) p (show mid + 1 ≤ b.bufLength from hmid)
  have hle := hscan.le
  rw [endWhile, Nat.sub_add_cancel (by omega), hcl]
  exact hscan.congr fun _ => hp.symm

theorem isLeast_wordForwardPos (b : Buffer) (pos : Nat) :
    IsLeast {i | pos < i ∧ WordStart charClass b i ∨ i = b.bufLength} (wordForwardPos b pos) := by
  unfold wordForwardPos
  dsimp only
  split
  · next hge => exact isLeast_runStart_of_ge hge
  · next hlt =>
    have hpos : pos < b.bufLength := Nat.lt_of_not_le hlt
    refine isLeast_forward charClass_blank hpos ?_
    split
    · next hword =>
      rw [charClass_word.mpr hword]
      exact .inl ((skipWhile_spec isWordChar (Nat.le_of_lt hpos)).congr fun _ => charClass_word.symm)
    · next hword =>
      split
      · next hother =>
        rw [charClass_other.mpr (by simp [isOther, hword, hother])]
        exact .inl ((skipWhile_spec isOther (Nat.le_of_lt hpos)).congr fun _ => charClass_other.symm)
      · next hblank => exact .inr ⟨charClass_blank.mpr (by simpa using hblank), rfl⟩

theorem isLeast_wordForwardBigPos (b : Buffer) (pos : Nat) :
    IsLeast {i | pos < i ∧ WordStart bigClass b i ∨ i = b.bufLength} (wordForwardBigPos b pos) := by
  unfold wordForwardBigPos
  dsimp only
  split
  · next hge => exact isLeast_runStart_of_ge hge
  · next hlt =>
    have hpos : pos < b.bufLength := Nat.lt_of_not_le hlt
    have hscan := skipWhile_spec (b := b) (!isWhitespace ·) (Nat.le_of_lt hpos)
    refine isLeast_forward bigClass_blank hpos ?_
    by_cases hblank : isWhitespace (b.bufCharAt pos) = true
    · exact .inr ⟨bigClass_blank.mpr hblank, hscan.eq_of_not (by simp [hblank])⟩
    · rw [bigClass_word.mpr (by simpa using hblank)]
      exact .inl (hscan.congr fun _ => bigClass_word.symm)

theorem isGreatest_wordBackwardPos (hle : pos ≤ b.bufLength) :
    IsGreatest {i | i < pos ∧ WordStart charClass b i ∨ i = 0} (wordBackwardPos b pos) := by
  unfold wordBackwardPos
  split
  · next hzero =>
    subst hzero
    exact isGreatest_runStart_zero
  · next hpos =>
    refine isGreatest_backward charClass_blank (Nat.pos_of_ne_zero hpos) hle rfl ?_
    generalize hmid : backWhile (fun i => isWhitespace (b.bufCharAt i)) (pos - 1) = mid
    dsimp only
    split
    · next h => exact .inl ⟨h.2, h.1, rfl⟩
    · next h =>
      have hblank : isWhitespace (b.bufCharAt mid) ≠ true := by
        intro hb
        refine h ⟨Nat.eq_zero_of_not_pos fun hstop => ?_, hb⟩
        exact (backWhile_spec (fun i => isWhitespace (b.bufCharAt i)) (pos - 1)).stop (hmid ▸ hstop) (hmid ▸ hb)
      refine .inr ⟨hblank, ?_⟩
      split
      · next hword =>
        rw [charClass_word.mpr hword]
        exact (backWhile_spec _ mid).congr fun _ => charClass_word.symm
      · next hword =>
        rw [charClass_other.mpr (by simp [isOther, hword, hblank])]
        exact (backWhile_spec _ mid).congr fun _ => charClass_other.symm

theorem isGreatest_wordBackwardBigPos (hle : pos ≤ b.bufLength) :
    IsGreatest {i | i < pos ∧ WordStart bigClass b i ∨ i = 0} (wordBackwardBigPos b pos) := by
  unfold wordBackwardBigPos
  split
  · next hzero =>
    subst hzero
    exact isGreatest_runStart_zero
  · next hpos =>
    refine isGreatest_backward bigClass_blank (Nat.pos_of_ne_zero hpos) hle rfl ?_
    generalize hmid : backWhile (fun i => isWhitespace (b.bufCharAt i)) (pos - 1) = mid
    dsimp only
    split
    · next h => exact .inl ⟨h.2, h.1, rfl⟩
    · next h =>
      have hblank : isWhitespace (b.bufCharAt mid) ≠ true := by
        intro hb
        refine h ⟨Nat.eq_zero_of_not_pos fun hstop => ?_, hb⟩
        exact (backWhile_spec (fun i => isWhitespace (b.bufCharAt i)) (pos - 1)).stop (hmid ▸ hstop) (hmid ▸ hb)
      rw [bigClass_word.mpr (by simpa using hblank)]
      exact .inr ⟨hblank, (backWhile_spec _ mid).congr fun _ => bigClass_word.symm⟩

theorem lastIndex (n : Nat) : (if n > 0 then n - 1 else 0) = n - 1 := by
  split
  · rfl
  · next h => exact (Nat.sub_eq_zero_of_le (by omega)).symm

theorem isLeast_wordEndPos (b : Buffer) (pos : Nat) :
    IsLeast {i | pos < i ∧ WordEnd charClass b i ∨ i = b.bufLength - 1} (wordEndPos b pos) := by
  unfold wordEndPos
  dsimp only
  rw [lastIndex]
  split
  · next hge => exact isLeast_runEnd_of_ge hge
  · next hlt =>
    refine isLeast_end charClass_blank (Nat.lt_of_not_le hlt) rfl ?_
    have hscan := skipWhile_spec (b := b) isWhitespace (Nat.le_of_lt (Nat.lt_of_not_le hlt))
    generalize skipWhile b isWhitespace b.bufLength (pos + 1) = mid at hscan ⊢
    split
    · next hge => exact .inl ⟨hge, rfl⟩
    · next hmid =>
      have hmid : mid < b.bufLength := Nat.lt_of_not_le hmid
      refine .inr ⟨hmid, ?_⟩
      split
      · next hword => exact endWhile_spec charClass_word hmid (charClass_word.mpr hword)
      · next hword =>
        split
        · next hother =>
          exact endWhile_spec charClass_other hmid (charClass_other.mpr (by simp [isOther, hword, hother]))
        · next hblank => exact absurd (by simpa using hblank) (hscan.stop hmid)

theorem isLeast_wordEndBigPos (b : Buffer) (pos : Nat) :
    IsLeast {i | pos < i ∧ WordEnd bigClass b i ∨ i = b.bufLength - 1} (wordEndBigPos b pos) := by
  unfold wordEndBigPos
  dsimp only
  rw [lastIndex]
  split
  · next hge => exact isLeast_runEnd_of_ge hge
  · next hlt =>
    refine isLeast_end bigClass_blank (Nat.lt_of_not_le hlt) rfl ?_
    have hscan := skipWhile_spec (b := b) isWhitespace (Nat.le_of_lt (Nat.lt_of_not_le hlt))
    generalize skipWhile b isWhitespace b.bufLength (pos + 1) = mid at hscan ⊢
    split
    · next hge => exact .inl ⟨hge, rfl⟩
    · next hmid =>
      have hmid : mid < b.bufLength := Nat.lt_of_not_le hmid
      exact .inr ⟨hmid, endWhile_spec bigClass_word hmid
        (bigClass_word.mpr (by simpa using hscan.stop hmid))⟩

end Motions

/-- The word motions go to the next start of a word, to the one before, and to the next end, or to the
edge of the text where there is none. -/
theorem word_motions {b : Buffer} {pos : Nat} (hpos : pos ≤ b.bufLength) :
    IsLeast {i | pos < i ∧ WordStart charClass b i ∨ i = b.bufLength} (wordForwardPos b pos) ∧
    IsGreatest {i | i < pos ∧ WordStart charClass b i ∨ i = 0} (wordBackwardPos b pos) ∧
    IsLeast {i | pos < i ∧ WordEnd charClass b i ∨ i = b.bufLength - 1} (wordEndPos b pos) ∧
    IsLeast {i | pos < i ∧ WordStart bigClass b i ∨ i = b.bufLength} (wordForwardBigPos b pos) ∧
    IsGreatest {i | i < pos ∧ WordStart bigClass b i ∨ i = 0} (wordBackwardBigPos b pos) ∧
    IsLeast {i | pos < i ∧ WordEnd bigClass b i ∨ i = b.bufLength - 1} (wordEndBigPos b pos) :=
  ⟨isLeast_wordForwardPos b pos, isGreatest_wordBackwardPos hpos, isLeast_wordEndPos b pos,
    isLeast_wordForwardBigPos b pos, isGreatest_wordBackwardBigPos hpos, isLeast_wordEndBigPos b pos⟩

/-- `a+b c`, from the plus. -/
theorem word_motions_two :
    let b := blankBuffer.bufLoad [97, 43, 98, 32, 99]
    IsLeast {i | 1 < i ∧ WordStart charClass b i ∨ i = b.bufLength} (wordForwardPos b 1) ∧
    IsGreatest {i | i < 1 ∧ WordStart charClass b i ∨ i = 0} (wordBackwardPos b 1) ∧
    IsLeast {i | 1 < i ∧ WordEnd charClass b i ∨ i = b.bufLength - 1} (wordEndPos b 1) ∧
    IsLeast {i | 1 < i ∧ WordStart bigClass b i ∨ i = b.bufLength} (wordForwardBigPos b 1) ∧
    IsGreatest {i | i < 1 ∧ WordStart bigClass b i ∨ i = 0} (wordBackwardBigPos b 1) ∧
    IsLeast {i | 1 < i ∧ WordEnd bigClass b i ∨ i = b.bufLength - 1} (wordEndBigPos b 1) :=
  word_motions (Nat.le_of_ble_eq_true rfl)

end RainbowOs.Editor
