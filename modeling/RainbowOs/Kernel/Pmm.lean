import Mathlib.Order.Bounds.Basic
import RainbowOs.Lib.Bitmap
import RainbowOs.Fat12.Ramdisk
import RainbowOs.Kernel.Paging

/-!
# Physical frames

`kernel/pmm.c`, the frame allocator: a bitmap of the 8192 frames of 32 MB,
with everything below the end of the kernel taken from the start. As a set
of free frames it is simple: an allocation takes the least one, a free puts
one back, so no frame of the kernel image is handed out until someone frees
it.

The last section puts the allocator and the page tables side by side. They
never consult each other, and the image does not fit below the window that
`paging_init` gives to ring 3.
-/

namespace RainbowOs.Kernel

open RainbowOs.Lib

abbrev totalMemory : Nat := 32 * 1024 * 1024
abbrev totalFrames : Nat := totalMemory / pageSize
abbrev bitmapSize : Nat := totalFrames / 32
abbrev pmmAllocFailed : Nat := 0xFFFFFFFF

/-- The statics of `pmm.c`. -/
structure Pmm where
  frameBitmap : Bitmap 32
  usedFrames : Nat

/-- One round of the loop of `pmm_init`. -/
def Pmm.release (s : Pmm) (frame : Nat) : Pmm :=
  ⟨s.frameBitmap.clear frame, u32 (s.usedFrames + 4294967295)⟩

/-- The first frame `pmm_init` leaves free. -/
def firstFrame (kernelEnd : Nat) : Nat := u32 (kernelEnd + pageSize - 1) / pageSize

theorem firstFrame_eq {kernelEnd : Nat} (h : kernelEnd ≤ totalMemory) :
    firstFrame kernelEnd = (kernelEnd + 4095) / 4096 := by
  have hlt : kernelEnd + pageSize - 1 < 4294967296 :=
    Nat.lt_of_le_of_lt (Nat.sub_le_sub_right (Nat.add_le_add_right h pageSize) 1) (by decide)
  unfold firstFrame u32
  rw [Nat.mod_eq_of_lt hlt]
  rfl

theorem le_firstFrame_mul {kernelEnd : Nat} (h : kernelEnd ≤ totalMemory) :
    kernelEnd ≤ firstFrame kernelEnd * pageSize := by
  have hround : kernelEnd ≤ (kernelEnd + 4095) / 4096 * 4096 := by
    clear h
    omega
  rw [firstFrame_eq h]
  exact hround

/-- `pmm_init` -/
def pmmInit (s : Pmm) (kernelEnd : Nat) : Pmm :=
  (List.range' (firstFrame kernelEnd) (totalFrames - firstFrame kernelEnd)).foldl Pmm.release
    ⟨fun i => if i < bitmapSize then BitVec.allOnes 32 else s.frameBitmap i, totalFrames⟩

/-- `pmm_alloc_frame` -/
def pmmAllocFrame (s : Pmm) : Nat × Pmm :=
  match s.frameBitmap.firstClear bitmapSize with
  | none => (pmmAllocFailed, s)
  | some frame => (frame * pageSize, ⟨s.frameBitmap.set frame, u32 (s.usedFrames + 1)⟩)

/-- `pmm_free_frame` -/
def pmmFreeFrame (s : Pmm) (physAddr : Nat) : Pmm :=
  if s.frameBitmap.test (physAddr / pageSize) then s.release (physAddr / pageSize) else s

/-! ## The set of free frames -/

/-- The frames the allocator can hand out. -/
def Pmm.free (s : Pmm) : Set Nat := {f | f < totalFrames ∧ s.frameBitmap.used f = false}

theorem mem_free {s : Pmm} {f : Nat} :
    f ∈ s.free ↔ f < totalFrames ∧ s.frameBitmap.used f = false := Iff.rfl

theorem Pmm.free_release (s : Pmm) {f : Nat} (hf : f < totalFrames) :
    (s.release f).free = insert f s.free := by
  ext g
  rw [Set.mem_insert_iff, mem_free, mem_free]
  unfold Pmm.release
  rw [Bitmap.used_clear (by decide)]
  by_cases hg : g = f
  · simp [hg, hf]
  · simp [hg]

/-- An allocation takes the least free frame, if there is one. -/
theorem pmmAllocFrame_spec (s : Pmm) :
    (s.free = ∅ ∧ pmmAllocFrame s = (pmmAllocFailed, s)) ∨
      ∃ f, IsLeast s.free f ∧ (pmmAllocFrame s).1 = f * pageSize ∧
        (pmmAllocFrame s).2.free = s.free \ {f} := by
  have hsize : bitmapSize * 32 = totalFrames := by decide
  unfold pmmAllocFrame
  cases hfirst : s.frameBitmap.firstClear bitmapSize with
  | none =>
    refine Or.inl ⟨?_, rfl⟩
    ext f
    rw [mem_free, Set.mem_empty_iff_false, iff_false]
    rintro ⟨hf, hused⟩
    rw [Bitmap.used_of_firstClear_eq_none (by decide) hfirst (hsize ▸ hf)] at hused
    exact Bool.false_ne_true hused.symm
  | some f =>
    obtain ⟨hf, hclear, hbelow⟩ := Bitmap.firstClear_eq_some (by decide) hfirst
    refine Or.inr ⟨f, ⟨⟨hsize ▸ hf, hclear⟩, fun g hg => ?_⟩, rfl, ?_⟩
    · refine Nat.le_of_not_lt fun hlt => ?_
      exact Bool.false_ne_true (hg.2.symm.trans (hbelow g hlt))
    · ext g
      rw [Set.mem_sdiff, Set.mem_singleton_iff, mem_free, mem_free, Bitmap.used_set (by decide)]
      simp only [Bool.or_eq_false_iff, decide_eq_false_iff_not]
      exact ⟨fun h => ⟨⟨h.1, h.2.2⟩, h.2.1⟩, fun h => ⟨h.1.1, h.2, h.1.2⟩⟩

/-- A free puts a frame of memory back. -/
theorem pmmFreeFrame_free (s : Pmm) {a : Nat} (ha : a / pageSize < totalFrames) :
    (pmmFreeFrame s a).free = insert (a / pageSize) s.free := by
  unfold pmmFreeFrame
  rw [Bitmap.test_eq_used (by decide)]
  split
  · exact s.free_release ha
  · next hused =>
    have hmem : a / pageSize ∈ s.free := ⟨ha, Bool.not_eq_true _ ▸ hused⟩
    exact (Set.insert_eq_of_mem hmem).symm

/-- After `pmm_init` the frames from the end of the kernel on are free. -/
theorem pmmInit_free (s : Pmm) (kernelEnd : Nat) :
    (pmmInit s kernelEnd).free = {f | firstFrame kernelEnd ≤ f ∧ f < totalFrames} := by
  have hfold : ∀ (l : List Nat) (s : Pmm), (∀ f ∈ l, f < totalFrames) →
      (l.foldl Pmm.release s).free = {f | f ∈ l} ∪ s.free := by
    intro l
    induction l with
    | nil => intro s _; simp
    | cons g l ih =>
      intro s hl
      rw [List.foldl_cons, ih _ fun f hf => hl f (List.mem_cons_of_mem g hf),
        s.free_release (hl g List.mem_cons_self)]
      ext f
      simp only [Set.mem_union, Set.mem_insert_iff, Set.mem_ofPred_eq, List.mem_cons]
      exact or_left_comm.trans or_assoc.symm
  unfold pmmInit
  rw [hfold _ _ fun f hf => by
    rw [List.mem_range'_1] at hf
    omega]
  ext f
  simp only [Set.mem_union, Set.mem_ofPred_eq, List.mem_range'_1, mem_free]
  have hused : f < totalFrames → Bitmap.used (w := 32)
      (fun i => if i < bitmapSize then BitVec.allOnes 32 else s.frameBitmap i) f = true := by
    intro hf
    have hword : f / 32 < bitmapSize := (Nat.div_lt_iff_lt_mul (by decide)).mpr hf
    unfold Bitmap.used
    simp only [if_pos hword, BitVec.getLsbD_allOnes]
    exact decide_eq_true (Nat.mod_lt f (by decide))
  constructor
  · rintro (h | ⟨hf, hclear⟩)
    · omega
    · rw [hused hf] at hclear
      exact absurd hclear.symm Bool.false_ne_true
  · intro h
    exact Or.inl (by omega)

/-! ## Runs -/

/-- A call of the allocator. -/
inductive PmmCall where
  | alloc
  | free (physAddr : Nat)

/-- What the allocations of a run return. -/
def returned : Pmm → List PmmCall → List Nat
  | _, [] => []
  | s, .alloc :: calls => (pmmAllocFrame s).1 :: returned (pmmAllocFrame s).2 calls
  | s, .free a :: calls => returned (pmmFreeFrame s a) calls

/-- A run that frees nothing below frame `k`, and starts with nothing free there, hands
nothing out there. -/
theorem returned_above {k : Nat} {s : Pmm} (hs : ∀ f ∈ s.free, k ≤ f) {calls : List PmmCall}
    (hfree : ∀ a, .free a ∈ calls → k * pageSize ≤ a ∧ a < totalMemory) :
    ∀ r ∈ returned s calls, r = pmmAllocFailed ∨ k * pageSize ≤ r := by
  induction calls generalizing s with
  | nil => exact fun r hr => absurd hr List.not_mem_nil
  | cons c calls ih =>
    have hrest : ∀ a, .free a ∈ calls → k * pageSize ≤ a ∧ a < totalMemory := fun a ha =>
      hfree a (List.mem_cons_of_mem c ha)
    cases c with
    | alloc =>
      rw [returned]
      rcases pmmAllocFrame_spec s with ⟨_, heq⟩ | ⟨f, hleast, hret, hfree'⟩
      · rw [heq]
        intro r hr
        rcases List.mem_cons.mp hr with rfl | hr
        · exact Or.inl rfl
        · exact ih hs hrest r hr
      · intro r hr
        rcases List.mem_cons.mp hr with rfl | hr
        · rw [hret]
          exact Or.inr (Nat.mul_le_mul_right pageSize (hs f hleast.1))
        · exact ih (fun g hg => hs g (hfree' ▸ hg : g ∈ s.free \ {f}).1) hrest r hr
    | free a =>
      obtain ⟨hk, ha⟩ := hfree a List.mem_cons_self
      have hframe : a / pageSize < totalFrames := by
        simp only [totalFrames, totalMemory, pageSize] at *
        omega
      refine ih (fun g hg => ?_) hrest
      rw [pmmFreeFrame_free s hframe] at hg
      rcases hg with rfl | hg
      · exact (Nat.le_div_iff_mul_le (by decide)).mpr hk
      · exact hs g hg

/-- No run that keeps to frames past the kernel image is given one of the image. -/
theorem returned_after_kernel (s : Pmm) {kernelEnd : Nat} (hend : kernelEnd ≤ totalMemory)
    {calls : List PmmCall}
    (hfree : ∀ a, .free a ∈ calls → firstFrame kernelEnd * pageSize ≤ a ∧ a < totalMemory) :
    ∀ r ∈ returned (pmmInit s kernelEnd) calls, kernelEnd ≤ r := by
  intro r hr
  have hs : ∀ f ∈ (pmmInit s kernelEnd).free, firstFrame kernelEnd ≤ f := by
    rw [pmmInit_free]
    exact fun f hf => hf.1
  have hround := le_firstFrame_mul hend
  rcases returned_above hs hfree r hr with rfl | hle
  · exact Nat.le_trans hend (by decide)
  · exact Nat.le_trans hround hle

/-! ## The kernel image and the ring-3 window -/

/-- Where the linker puts the kernel. -/
abbrev kernelBase : Nat := 0x100000

/-- No page that ring 3 may touch overlaps the kernel image. -/
def ImageHidden (p : PageTables) (kernelEnd : Nat) : Prop :=
  ∀ a, (pagingInit p).UserAccess a →
    (pagingInit p).physical a < kernelBase ∨ kernelEnd ≤ (pagingInit p).physical a

/-- No frame that a run is given lies in the window of ring 3. -/
def FramesOutside (s : Pmm) (kernelEnd : Nat) : Prop :=
  ∀ calls, ∀ r ∈ returned (pmmInit s kernelEnd) calls,
    r + pageSize ≤ userRegionBase ∨ userRegionTop ≤ r

/-- Of the image, ring 3 reaches all that lies in its window. -/
theorem imageHidden_iff {p : PageTables} (halign : p.addr % pageSize = 0)
    (hfit : p.addr + identityMapTables * pageSize ≤ 4294967296) {kernelEnd : Nat} :
    ImageHidden p kernelEnd ↔ kernelEnd ≤ userRegionBase := by
  have hiff := fun a => pagingInit_user_iff p halign hfit (a := a)
  constructor
  · intro h
    have hbase := ((hiff userRegionBase).1).mpr ⟨Nat.le_refl _, by decide⟩
    have hout := h _ hbase
    rw [(hiff userRegionBase).2 hbase] at hout
    exact hout.resolve_left (by decide)
  · intro hend a ha
    rw [(hiff a).2 ha]
    exact Or.inr (Nat.le_trans hend ((hiff a).1.mp ha).1)

/-- The first frame handed out is the one after the image. -/
theorem first_returned (s : Pmm) {kernelEnd : Nat} (hend : kernelEnd + pageSize ≤ totalMemory) :
    returned (pmmInit s kernelEnd) [.alloc] = [firstFrame kernelEnd * pageSize] := by
  have hlt : firstFrame kernelEnd < totalFrames := by
    rw [firstFrame_eq (Nat.le_trans (Nat.le_add_right _ _) hend),
      Nat.div_lt_iff_lt_mul (by decide)]
    exact Nat.lt_of_lt_of_le (Nat.add_lt_add_left (by decide) kernelEnd) hend
  rw [returned, returned]
  have hmem : firstFrame kernelEnd ∈ (pmmInit s kernelEnd).free := by
    rw [pmmInit_free]
    exact ⟨Nat.le_refl _, hlt⟩
  rcases pmmAllocFrame_spec (pmmInit s kernelEnd) with ⟨hempty, _⟩ | ⟨f, hleast, hret, _⟩
  · rw [hempty] at hmem
    exact absurd hmem (Set.notMem_empty _)
  · have hge : firstFrame kernelEnd ≤ f := by
      have hf := hleast.1
      rw [pmmInit_free] at hf
      exact hf.1
    rw [hret, Nat.le_antisymm (hleast.2 hmem) hge]

/-- An image that holds both static volumes always overlaps the window of ring 3, and when it
ends inside the window so do the frames that are handed out. -/
theorem kernel_user_overlap (p : PageTables) (s : Pmm) (halign : p.addr % pageSize = 0)
    (hfit : p.addr + identityMapTables * pageSize ≤ 4294967296) (kernelEnd : Nat)
    (hlow : kernelBase + Fat12.diskfsSize + Fat12.Ramdisk.ramdiskSize ≤ kernelEnd)
    (hhigh : kernelEnd ≤ totalMemory) :
    ¬ (ImageHidden p kernelEnd ∧ FramesOutside s kernelEnd) ∧
      ¬ ImageHidden p kernelEnd ∧
      (kernelEnd + pageSize ≤ userRegionTop → ¬ FramesOutside s kernelEnd) := by
  have himage : ¬ ImageHidden p kernelEnd := by
    rw [imageHidden_iff halign hfit]
    exact Nat.not_le_of_lt (Nat.lt_of_lt_of_le (by decide) hlow)
  refine ⟨fun h => himage h.1, himage, fun hwin hout => ?_⟩
  have hret := hout [.alloc]
  rw [first_returned s (Nat.le_trans hwin (by decide))] at hret
  have hframe : firstFrame kernelEnd * 4096 + 4096 ≤ 0x200000 ∨
      0x300000 ≤ firstFrame kernelEnd * 4096 := hret _ List.mem_cons_self
  rw [firstFrame_eq hhigh] at hframe
  have hlow' : 0x240000 ≤ kernelEnd := hlow
  have hwin' : kernelEnd + 4096 ≤ 0x300000 := hwin
  omega

/-- Page tables at the start of the image, before `paging_init`. -/
def blankTables : PageTables := ⟨kernelBase, fun _ => 0, fun _ _ => 0⟩

/-- An allocator before `pmm_init`. -/
def blankPmm : Pmm := ⟨fun _ => 0, 0⟩

theorem kernel_user_overlap_smallest :
    ¬ (ImageHidden blankTables 0x240000 ∧ FramesOutside blankPmm 0x240000) ∧
      ¬ ImageHidden blankTables 0x240000 ∧
      (0x240000 + pageSize ≤ userRegionTop → ¬ FramesOutside blankPmm 0x240000) :=
  kernel_user_overlap blankTables blankPmm (by decide) (by decide) 0x240000 (by decide) (by decide)

/-- The kernel and the window of ring 3 are not separated by any of the four parties. -/
theorem kernel_not_separated :
    ¬ ∀ (p : PageTables) (s : Pmm) (kernelEnd : Nat), p.addr % pageSize = 0 →
      p.addr + identityMapTables * pageSize ≤ 4294967296 →
      kernelBase + Fat12.diskfsSize + Fat12.Ramdisk.ramdiskSize ≤ kernelEnd →
      kernelEnd ≤ totalMemory → ImageHidden p kernelEnd ∧ FramesOutside s kernelEnd := by
  intro h
  have hhidden := (h blankTables blankPmm 0x240000 (by decide) (by decide) (by decide)
    (by decide)).1
  rw [imageHidden_iff (by decide) (by decide)] at hhidden
  exact absurd hhidden (by decide)

end RainbowOs.Kernel
