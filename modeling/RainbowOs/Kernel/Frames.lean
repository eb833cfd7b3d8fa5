import Mathlib.Data.Finset.Card
import RainbowOs.Kernel.Pmm

/-!
# Runs of the frame allocator

Beside the allocator a run keeps which addresses are held: those that an
allocation has returned and no free has taken back since. The bitmap is that
set, with all that lies below the end of the kernel, and the counter is its
size.
-/

namespace RainbowOs.Kernel

open RainbowOs.Lib

/-- The frames whose bit is set. -/
def Pmm.usedSet (s : Pmm) : Finset Nat := (Finset.range totalFrames).filter fun f => s.frameBitmap.used f

theorem mem_usedSet {s : Pmm} {f : Nat} :
    f ∈ s.usedSet ↔ f < totalFrames ∧ s.frameBitmap.used f = true := by
  rw [Pmm.usedSet, Finset.mem_filter, Finset.mem_range]

theorem card_usedSet_le (s : Pmm) : s.usedSet.card ≤ totalFrames := by
  have h := Finset.card_filter_le (Finset.range totalFrames) fun f => s.frameBitmap.used f
  rwa [Finset.card_range] at h

theorem usedSet_release (s : Pmm) (f : Nat) : (s.release f).usedSet = s.usedSet.erase f := by
  ext g
  rw [Finset.mem_erase, mem_usedSet, mem_usedSet, Pmm.release, Bitmap.used_clear (by decide)]
  by_cases hg : g = f
  · simp [hg]
  · simp [hg]

/-- A release counts down when the bit was set. -/
theorem usedFrames_release {s : Pmm} {f : Nat} (hcount : s.usedFrames = s.usedSet.card)
    (hf : f ∈ s.usedSet) : (s.release f).usedFrames = (s.release f).usedSet.card := by
  have hle := card_usedSet_le s
  have hpos : 0 < s.usedSet.card := Finset.card_pos.mpr ⟨f, hf⟩
  have hlt : s.usedFrames - 1 < 4294967296 := by
    rw [hcount]
    exact Nat.lt_of_le_of_lt (Nat.le_trans (Nat.sub_le _ 1) hle) (by decide)
  have hshift : s.usedFrames + 4294967295 = s.usedFrames - 1 + 4294967296 := by omega
  rw [usedSet_release, Finset.card_erase_of_mem hf, ← hcount]
  show u32 (s.usedFrames + 4294967295) = _
  rw [u32, hshift, Nat.add_mod_right, Nat.mod_eq_of_lt hlt]

/-- The counter goes with the bitmap when the memory of the kernel is taken. -/
theorem usedFrames_init (s : Pmm) (kernelEnd : Nat) :
    (pmmInit s kernelEnd).usedFrames = (pmmInit s kernelEnd).usedSet.card := by
  have hfold : ∀ (n a : Nat) (s : Pmm), a + n ≤ totalFrames → s.usedFrames = s.usedSet.card →
      (∀ f, a ≤ f → f < totalFrames → f ∈ s.usedSet) →
      ((List.range' a n).foldl Pmm.release s).usedFrames =
        ((List.range' a n).foldl Pmm.release s).usedSet.card := by
    intro n
    induction n with
    | zero => exact fun _ _ _ hcount _ => hcount
    | succ n ih =>
      intro a s hle hcount hall
      rw [List.range'_succ, List.foldl_cons]
      refine ih (a + 1) (s.release a) (by omega)
        (usedFrames_release hcount (hall a (Nat.le_refl a) (by omega))) fun f haf hf => ?_
      rw [usedSet_release, Finset.mem_erase]
      exact ⟨by omega, hall f (by omega) hf⟩
  unfold pmmInit
  have hfull : (⟨fun i => if i < bitmapSize then BitVec.allOnes 32 else s.frameBitmap i,
      totalFrames⟩ : Pmm).usedSet = Finset.range totalFrames := by
    ext f
    rw [mem_usedSet, Finset.mem_range, and_iff_left_iff_imp]
    intro hf
    have hword : f / 32 < bitmapSize := (Nat.div_lt_iff_lt_mul (by decide)).mpr hf
    unfold Bitmap.used
    simp only [if_pos hword, BitVec.getLsbD_allOnes]
    exact decide_eq_true (Nat.mod_lt f (by decide))
  rcases Nat.le_total (firstFrame kernelEnd) totalFrames with hle | hle
  · refine hfold _ _ _ (by omega) ?_ fun f _ hf => ?_
    · rw [hfull, Finset.card_range]
    · rw [hfull]
      exact Finset.mem_range.mpr hf
  · rw [Nat.sub_eq_zero_of_le hle]
    show totalFrames = _
    rw [List.range'_zero, List.foldl_nil, hfull, Finset.card_range]

/-- An allocation sets the bit of the least free frame. -/
theorem pmmAllocFrame_cases (s : Pmm) :
    (s.free = ∅ ∧ pmmAllocFrame s = (pmmAllocFailed, s)) ∨
      ∃ f, IsLeast s.free f ∧
        pmmAllocFrame s = (f * pageSize, ⟨s.frameBitmap.set f, u32 (s.usedFrames + 1)⟩) := by
  rcases pmmAllocFrame_spec s with hnone | ⟨f, hleast, hret, -⟩
  · exact .inl hnone
  · refine .inr ⟨f, hleast, ?_⟩
    have hf : f < totalFrames := hleast.1.1
    unfold pmmAllocFrame at hret ⊢
    cases hfirst : s.frameBitmap.firstClear bitmapSize with
    | none =>
      rw [hfirst] at hret
      simp only [totalFrames, totalMemory, pageSize, pmmAllocFailed] at hf hret
      omega
    | some g =>
      rw [hfirst] at hret
      obtain rfl : g = f := Nat.eq_of_mul_eq_mul_right (by decide : 0 < pageSize) hret
      rfl

theorem usedSet_set (s : Pmm) {f : Nat} (hf : f < totalFrames) (n : Nat) :
    (Pmm.mk (s.frameBitmap.set f) n).usedSet = insert f s.usedSet := by
  ext g
  rw [Finset.mem_insert, mem_usedSet, mem_usedSet, Bitmap.used_set (by decide)]
  by_cases hg : g = f
  · simp [hg, hf]
  · simp [hg]

/-! ## Runs -/

/-- The allocator, with the addresses that are held and those that were ever returned. -/
structure PmmRun where
  pmm : Pmm
  held : Finset Nat
  past : Finset Nat

/-- A call, with its result if it is an allocation. -/
def PmmRun.step (r : PmmRun) : PmmCall → PmmRun
  | .alloc =>
    let (a, s) := pmmAllocFrame r.pmm
    if a = pmmAllocFailed then ⟨s, r.held, r.past⟩ else ⟨s, insert a r.held, insert a r.past⟩
  | .free a => ⟨pmmFreeFrame r.pmm a, r.held.erase a, r.past⟩

/-- Only what was returned is freed. -/
def PmmRun.Legal : PmmRun → List PmmCall → Prop
  | _, [] => True
  | r, .alloc :: calls => (r.step .alloc).Legal calls
  | r, .free a :: calls => a ∈ r.past ∧ (r.step (.free a)).Legal calls

def PmmRun.init (s : Pmm) (kernelEnd : Nat) : PmmRun := ⟨pmmInit s kernelEnd, ∅, ∅⟩

/-- The pages of memory after the kernel that are not held. -/
def available (kernelEnd : Nat) (held : Finset Nat) : Set Nat :=
  {a | a % pageSize = 0 ∧ kernelEnd ≤ a ∧ a < totalMemory ∧ a ∉ held}

/-- The bitmap is the frames below the end of the kernel and those that are held. -/
structure PmmRun.Tracks (kernelEnd : Nat) (r : PmmRun) : Prop where
  count : r.pmm.usedFrames = r.pmm.usedSet.card
  used : ∀ f < totalFrames, f ∈ r.pmm.usedSet ↔ f < firstFrame kernelEnd ∨ f * pageSize ∈ r.held
  past : ∀ a ∈ r.past, ∃ f, firstFrame kernelEnd ≤ f ∧ f < totalFrames ∧ a = f * pageSize
  held : r.held ⊆ r.past

theorem tracks_init (s : Pmm) (kernelEnd : Nat) : (PmmRun.init s kernelEnd).Tracks kernelEnd := by
  refine ⟨usedFrames_init s kernelEnd, fun f hf => ?_, fun a ha => absurd ha (Finset.notMem_empty a),
    Finset.Subset.refl _⟩
  have hfree := Set.ext_iff.mp (pmmInit_free s kernelEnd) f
  rw [mem_free, Set.mem_ofPred_eq] at hfree
  show f ∈ (pmmInit s kernelEnd).usedSet ↔ _
  rw [mem_usedSet]
  constructor
  · rintro ⟨-, hused⟩
    refine .inl (Nat.not_le.mp fun hle => ?_)
    rw [(hfree.mpr ⟨hle, hf⟩).2] at hused
    cases hused
  · rintro (hlt | hmem)
    · refine ⟨hf, Bool.not_eq_false _ ▸ fun hclear => ?_⟩
      exact Nat.not_le.mpr hlt (hfree.mp ⟨hf, hclear⟩).1
    · exact absurd hmem (Finset.notMem_empty _)

section Steps

variable {kernelEnd : Nat} {r : PmmRun}

/-- What is free is what is available. -/
theorem PmmRun.Tracks.mem_available (h : r.Tracks kernelEnd) (hend : kernelEnd ≤ totalMemory) {f : Nat} :
    f ∈ r.pmm.free ↔ f * pageSize ∈ available kernelEnd r.held := by
  have hround : kernelEnd ≤ f * 4096 ↔ firstFrame kernelEnd ≤ f := by
    rw [firstFrame_eq hend]
    omega
  have haligned : f * pageSize % pageSize = 0 := Nat.mul_mod_left f pageSize
  have hbelow : f * 4096 < totalMemory ↔ f < totalFrames := by
    simp only [totalFrames, totalMemory, pageSize]
    omega
  have hused : ∀ hf : f < totalFrames, r.pmm.frameBitmap.used f = true ↔
      f < firstFrame kernelEnd ∨ f * pageSize ∈ r.held := by
    intro hf
    have hiff := h.used f hf
    rw [mem_usedSet] at hiff
    exact ⟨fun hbit => hiff.mp ⟨hf, hbit⟩, fun hor => (hiff.mpr hor).2⟩
  rw [mem_free, available, Set.mem_ofPred_eq]
  constructor
  · rintro ⟨hf, hclear⟩
    have hnot := mt (hused hf).mpr (Bool.not_eq_true _ ▸ hclear)
    rw [not_or, Nat.not_lt] at hnot
    exact ⟨haligned, hround.mpr hnot.1, hbelow.mpr hf, hnot.2⟩
  · rintro ⟨-, hge, hlt, hheld⟩
    have hf := hbelow.mp hlt
    refine ⟨hf, Bool.eq_false_of_not_eq_true fun hbit => ?_⟩
    rcases (hused hf).mp hbit with hlow | hmem
    · exact Nat.not_le.mpr hlow (hround.mp hge)
    · exact hheld hmem

/-- An allocation returns the least page that is available. -/
theorem PmmRun.Tracks.alloc (h : r.Tracks kernelEnd) (hend : kernelEnd ≤ totalMemory) :
    (available kernelEnd r.held = ∅ ∧ pmmAllocFrame r.pmm = (pmmAllocFailed, r.pmm)) ∨
      ∃ f, IsLeast r.pmm.free f ∧ IsLeast (available kernelEnd r.held) (f * pageSize) ∧
        pmmAllocFrame r.pmm =
          (f * pageSize, ⟨r.pmm.frameBitmap.set f, u32 (r.pmm.usedFrames + 1)⟩) := by
  have hfree := fun f => h.mem_available hend (f := f)
  have haligned : ∀ a ∈ available kernelEnd r.held, a / pageSize * pageSize = a :=
    fun a ha => Nat.div_mul_cancel (Nat.dvd_of_mod_eq_zero ha.1)
  rcases pmmAllocFrame_cases r.pmm with ⟨hempty, heq⟩ | ⟨f, hleast, heq⟩
  · refine .inl ⟨Set.eq_empty_of_forall_notMem fun a ha => ?_, heq⟩
    have hmem := (hfree (a / pageSize)).mpr ((haligned a ha).symm ▸ ha)
    rw [hempty] at hmem
    exact Set.notMem_empty _ hmem
  · refine .inr ⟨f, hleast, ⟨(hfree f).mp hleast.1, fun a ha => ?_⟩, heq⟩
    have hle := hleast.2 ((hfree (a / pageSize)).mpr ((haligned a ha).symm ▸ ha))
    rw [← haligned a ha]
    exact Nat.mul_le_mul_right pageSize hle

/-- A page that is not held is not freed again. -/
theorem PmmRun.Tracks.free_again (h : r.Tracks kernelEnd) {a : Nat} (ha : a ∈ r.past)
    (hheld : a ∉ r.held) : pmmFreeFrame r.pmm a = r.pmm := by
  obtain ⟨f, hfirst, hf, rfl⟩ := h.past a ha
  have hdiv : f * pageSize / pageSize = f := Nat.mul_div_cancel f (by decide)
  have hclear : ¬r.pmm.frameBitmap.used f = true := by
    intro hbit
    rcases (h.used f hf).mp (mem_usedSet.mpr ⟨hf, hbit⟩) with hlow | hmem
    · exact Nat.not_le.mpr hlow hfirst
    · exact hheld hmem
  rw [pmmFreeFrame, hdiv, Bitmap.test_eq_used (by decide), if_neg hclear]

/-- What a run keeps, a call keeps. -/
theorem PmmRun.Tracks.step (h : r.Tracks kernelEnd) (hend : kernelEnd ≤ totalMemory) {c : PmmCall}
    (hc : ∀ a, c = .free a → a ∈ r.past) : (r.step c).Tracks kernelEnd := by
  cases c with
  | alloc =>
    rcases h.alloc hend with ⟨-, heq⟩ | ⟨f, hleast, hmin, heq⟩
    · have hstep : r.step .alloc = r := by
        simp only [PmmRun.step, heq, if_true]
      rwa [hstep]
    · have hf : f < totalFrames := hleast.1.1
      have hne : f * pageSize ≠ pmmAllocFailed := by
        have hlt := hmin.1.2.2.1
        exact Nat.ne_of_lt (Nat.lt_of_lt_of_le hlt (by decide))
      have hfresh : f ∉ r.pmm.usedSet := by
        intro hmem
        have hclear := hleast.1.2
        rw [(mem_usedSet.mp hmem).2] at hclear
        cases hclear
      have hstep : r.step .alloc = ⟨⟨r.pmm.frameBitmap.set f, u32 (r.pmm.usedFrames + 1)⟩,
          insert (f * pageSize) r.held, insert (f * pageSize) r.past⟩ := by
        simp only [PmmRun.step, heq, if_neg hne]
      rw [hstep]
      refine ⟨?_, fun g hg => ?_, fun a ha => ?_, Finset.insert_subset_insert _ h.held⟩
      · have hle := card_usedSet_le r.pmm
        show u32 (r.pmm.usedFrames + 1) = _
        rw [usedSet_set r.pmm hf, Finset.card_insert_of_notMem hfresh, h.count, u32, Nat.mod_eq_of_lt]
        exact Nat.lt_of_le_of_lt (Nat.succ_le_succ hle) (by decide)
      · rw [usedSet_set r.pmm hf, Finset.mem_insert, h.used g hg, Finset.mem_insert]
        have hiff : g * pageSize = f * pageSize ↔ g = f := Nat.mul_left_inj (by decide)
        rw [hiff]
        exact or_left_comm
      · rcases Finset.mem_insert.mp ha with rfl | ha
        · refine ⟨f, Nat.not_lt.mp fun hlow => ?_, hf, rfl⟩
          exact hfresh ((h.used f hf).mpr (.inl hlow))
        · exact h.past a ha
  | free a =>
    obtain ⟨f, hfirst, hf, rfl⟩ := h.past a (hc a rfl)
    have hdiv : f * pageSize / pageSize = f := Nat.mul_div_cancel f (by decide)
    by_cases hheld : f * pageSize ∈ r.held
    · have hmem : f ∈ r.pmm.usedSet := (h.used f hf).mpr (.inr hheld)
      have hfree : pmmFreeFrame r.pmm (f * pageSize) = r.pmm.release f := by
        rw [pmmFreeFrame, hdiv, Bitmap.test_eq_used (by decide), if_pos (mem_usedSet.mp hmem).2]
      refine ⟨?_, fun g hg => ?_, h.past, (Finset.erase_subset _ _).trans h.held⟩
      · show (pmmFreeFrame r.pmm (f * pageSize)).usedFrames = _
        rw [PmmRun.step, hfree]
        exact usedFrames_release h.count hmem
      · show g ∈ (pmmFreeFrame r.pmm (f * pageSize)).usedSet ↔ _ ∨ _ ∈ r.held.erase (f * pageSize)
        have hiff : g * pageSize = f * pageSize ↔ g = f := Nat.mul_left_inj (by decide)
        rw [hfree, usedSet_release, Finset.mem_erase, h.used g hg, Finset.mem_erase, Ne, Ne, hiff]
        constructor
        · rintro ⟨hne, hlow | hmem⟩
          · exact .inl hlow
          · exact .inr ⟨hne, hmem⟩
        · rintro (hlow | ⟨hne, hmem⟩)
          · exact ⟨fun heq => Nat.not_lt.mpr hfirst (heq ▸ hlow), .inl hlow⟩
          · exact ⟨hne, .inr hmem⟩
    · have hstep : r.step (.free (f * pageSize)) = r := by
        rw [PmmRun.step, h.free_again (hc _ rfl) hheld, Finset.erase_eq_of_notMem hheld]
      rwa [hstep]

theorem PmmRun.Tracks.run (h : r.Tracks kernelEnd) (hend : kernelEnd ≤ totalMemory)
    {calls : List PmmCall} (hlegal : r.Legal calls) : (calls.foldl PmmRun.step r).Tracks kernelEnd := by
  induction calls generalizing r with
  | nil => exact h
  | cons c calls ih =>
    rw [List.foldl_cons]
    cases c with
    | alloc => exact ih (h.step hend nofun) hlegal
    | free a =>
      refine ih (h.step hend fun b hb => ?_) hlegal.2
      obtain rfl := PmmCall.free.inj hb
      exact hlegal.1

end Steps

/-- After any run that frees only what it was given, the counter is the number of bits that are
set; an allocation returns the least page after the kernel that is not held, and fails where there
is none; and a page that is not held is freed without effect. -/
theorem frames_allocated (s : Pmm) {kernelEnd : Nat} (hend : kernelEnd ≤ totalMemory)
    {calls : List PmmCall} (hlegal : (PmmRun.init s kernelEnd).Legal calls) :
    let r := calls.foldl PmmRun.step (PmmRun.init s kernelEnd)
    r.pmm.usedFrames = r.pmm.usedSet.card ∧
    ((pmmAllocFrame r.pmm).1 = pmmAllocFailed ↔ available kernelEnd r.held = ∅) ∧
    ((pmmAllocFrame r.pmm).1 ≠ pmmAllocFailed →
      IsLeast (available kernelEnd r.held) (pmmAllocFrame r.pmm).1) ∧
    ∀ a ∈ r.past, a ∉ r.held → pmmFreeFrame r.pmm a = r.pmm := by
  have h := (tracks_init s kernelEnd).run hend hlegal
  generalize calls.foldl PmmRun.step (PmmRun.init s kernelEnd) = r at h
  refine ⟨h.count, ?_, ?_, fun a ha hheld => h.free_again ha hheld⟩
  · rcases h.alloc hend with ⟨hempty, heq⟩ | ⟨f, -, hmin, heq⟩
    · exact iff_of_true (by rw [heq]) hempty
    · refine iff_of_false ?_ fun hempty => ?_
      · rw [heq]
        exact Nat.ne_of_lt (Nat.lt_of_lt_of_le hmin.1.2.2.1 (by decide))
      · rw [hempty] at hmin
        exact Set.notMem_empty _ hmin.1
  · rcases h.alloc hend with ⟨-, heq⟩ | ⟨f, -, hmin, heq⟩
    · exact fun hne => absurd (by rw [heq]) hne
    · exact fun _ => by rwa [heq]

/-- Three pages are left, the first one is freed twice, and handed out again. -/
theorem frames_allocated_last :
    let calls := [.alloc, .alloc, .free 0x1FFD000, .free 0x1FFD000, .alloc]
    let r := calls.foldl PmmRun.step (PmmRun.init blankPmm 0x1FFD000)
    r.pmm.usedFrames = r.pmm.usedSet.card ∧
    ((pmmAllocFrame r.pmm).1 = pmmAllocFailed ↔ available 0x1FFD000 r.held = ∅) ∧
    ((pmmAllocFrame r.pmm).1 ≠ pmmAllocFailed →
      IsLeast (available 0x1FFD000 r.held) (pmmAllocFrame r.pmm).1) ∧
    ∀ a ∈ r.past, a ∉ r.held → pmmFreeFrame r.pmm a = r.pmm :=
  frames_allocated blankPmm (by decide) (by
    have hfirst : 0x1FFD000 ∈ (((PmmRun.init blankPmm 0x1FFD000).step .alloc).step .alloc).past := by
      decide
    exact ⟨hfirst, hfirst, trivial⟩)

end RainbowOs.Kernel
