import RainbowOs.Fat12.Calls
import RainbowOs.Lib.Chains

/-!
# Sound volumes

What every call keeps, whether it succeeds or not: used directory entries
come before the end mark, no two live entries have one name, and the chains
of the live entries are a family of rising chains that do not meet.

A write that finds the disk full is the delicate case. It has already freed
the old chain of the file and handed all its clusters out again, so the
entry is stale: it points into the orphaned chain the write was building.
Because clusters are taken in rising order that chain runs through every
free cluster, and the stale entry simply owns the part of it from its old
first cluster on.
-/

namespace RainbowOs.Fat12

open RainbowOs.Lib RainbowOs.Lib.Linked

/-- Entry `i` is a live entry of the directory. -/
def Tables.LiveAt (L : Layout) (t : Tables) (i : Nat) : Prop :=
  i < L.bpb.rootEntryCount ∧ (t.ent i).Live

/-- The walk-ending cluster numbers, as a property. -/
abbrev Stop (c : Nat) : Prop := stops c = true

/-- What every call keeps. -/
structure Tables.Sound (L : Layout) (t : Tables) : Prop where
  ended : ∀ i j, i ≤ j → j < L.bpb.rootEntryCount → (t.ent i).mark = 0x00 → (t.ent j).mark = 0x00
  unique : ∀ i j, t.LiveAt L i → t.LiveAt L j → (t.ent i).name = (t.ent j).name → i = j
  family : Family t.fat Stop 2 L.cells (t.LiveAt L) (fun i => (t.ent i).first) (t.cellsOf L.cells)

variable {L : Layout} {t : Tables}

theorem stop_zero : Stop 0 := by decide

theorem stop_mark : Stop 0xFFF := by decide

/-- The cells of a family are the ones a walk finds. -/
theorem cellsOf_of_family {S : Nat → Prop} {cells : Nat → List Nat}
    (h : Family t.fat Stop 2 L.cells S (fun i => (t.ent i).first) cells) {i : Nat} (hi : S i) :
    t.Owns L.cells i (cells i) ∧ t.cellsOf L.cells i = cells i := by
  have hown : t.Owns L.cells i (cells i) :=
    ⟨h.chain i hi, fun c hc => ⟨(h.rising i hi c hc).1, (h.rising i hi c hc).2.1⟩⟩
  exact ⟨hown, hown.cellsOf_eq L.cells_le_mark⟩

/-- Soundness from any account of the cells. -/
theorem Tables.Sound.of_family (cells : Nat → List Nat)
    (hended : ∀ i j, i ≤ j → j < L.bpb.rootEntryCount → (t.ent i).mark = 0x00 →
      (t.ent j).mark = 0x00)
    (hunique : ∀ i j, t.LiveAt L i → t.LiveAt L j → (t.ent i).name = (t.ent j).name → i = j)
    (h : Family t.fat Stop 2 L.cells (t.LiveAt L) (fun i => (t.ent i).first) cells) : t.Sound L :=
  ⟨hended, hunique, h.congr (fun _ _ => rfl) fun _ hi => (cellsOf_of_family h hi).2⟩

theorem zeroEntry_not_live : ¬ zeroEntry.Live := fun h => h.1 rfl

/-- An empty directory is sound, whatever the FAT holds. -/
theorem Tables.Sound.of_blank (h : ∀ i, t.ent i = zeroEntry) : t.Sound L := by
  have hdead : ∀ i, ¬ t.LiveAt L i := fun i hi => zeroEntry_not_live (h i ▸ hi.2)
  exact ⟨fun _ j _ _ _ => by rw [h j]; rfl, fun i _ hi => absurd hi (hdead i),
    ⟨fun i hi => absurd hi (hdead i), fun i hi => absurd hi (hdead i),
      fun i _ hi => absurd hi (hdead i)⟩⟩

namespace Tables.Sound

theorem owns (h : t.Sound L) {i : Nat} (hi : t.LiveAt L i) :
    t.Owns L.cells i (t.cellsOf L.cells i) :=
  (cellsOf_of_family h.family hi).1

/-! ## Searching a sound directory -/

/-- Before a live entry nothing is the end mark. -/
theorem mark_ne_zero (h : t.Sound L) {i j : Nat} (hi : t.LiveAt L i) (hji : j ≤ i) :
    (t.ent j).mark ≠ 0x00 := fun hz => hi.2.1 (h.ended j i hji hi.1 hz)

theorem mem_live_iff (h : t.Sound L) {i : Nat} :
    i ∈ t.live L.bpb.rootEntryCount 0 ↔ t.LiveAt L i := by
  constructor
  · intro hi
    have hlt := Tables.lt_of_mem_live hi
    exact ⟨by omega, of_decide_eq_true (List.mem_filter.mp hi).2⟩
  · intro hi
    refine List.mem_filter.mpr ⟨?_, decide_eq_true hi.2⟩
    have hrange : List.range' 0 L.bpb.rootEntryCount =
        List.range' 0 (i + 1) ++ List.range' (i + 1) (L.bpb.rootEntryCount - (i + 1)) := by
      have hlen : i + 1 + (L.bpb.rootEntryCount - (i + 1)) = L.bpb.rootEntryCount := by
        have := hi.1
        omega
      have happ : List.range' 0 (i + 1) ++
          List.range' (0 + (i + 1)) (L.bpb.rootEntryCount - (i + 1)) =
            List.range' 0 (i + 1 + (L.bpb.rootEntryCount - (i + 1))) := List.range'_append_1
      rw [Nat.zero_add, hlen] at happ
      exact happ.symm
    rw [hrange, List.takeWhile_append_of_pos]
    · refine List.mem_append_left _ (List.mem_range'_1.mpr (by omega))
    · intro j hj
      rw [List.mem_range'_1] at hj
      exact bne_iff_ne.mpr (h.mark_ne_zero hi (by omega))

/-- A search finds the one live entry of that name. -/
theorem find_eq_some_iff (h : t.Sound L) {name83 : List UInt8} {i : Nat} :
    t.find name83 L.bpb.rootEntryCount 0 = some i ↔ t.LiveAt L i ∧ (t.ent i).name = name83 := by
  constructor
  · intro hf
    exact ⟨h.mem_live_iff.mp (List.mem_of_find?_eq_some hf), by
      simpa only [decide_eq_true_eq] using List.find?_some hf⟩
  · rintro ⟨hi, hname⟩
    unfold Tables.find
    cases hf : (t.live L.bpb.rootEntryCount 0).find? fun j => (t.ent j).name = name83 with
    | none =>
      have := List.find?_eq_none.mp hf i (h.mem_live_iff.mpr hi)
      exact absurd (decide_eq_true hname) this
    | some j =>
      have hj := h.mem_live_iff.mp (List.mem_of_find?_eq_some hf)
      have hjname : (t.ent j).name = name83 := by
        simpa only [decide_eq_true_eq] using List.find?_some hf
      rw [h.unique j i hj hi (hjname.trans hname.symm)]

theorem find_eq_none_iff (h : t.Sound L) {name83 : List UInt8} :
    t.find name83 L.bpb.rootEntryCount 0 = none ↔
      ∀ i, t.LiveAt L i → (t.ent i).name ≠ name83 := by
  constructor
  · intro hf i hi hname
    rw [h.find_eq_some_iff.mpr ⟨hi, hname⟩] at hf
    exact absurd hf (Option.some_ne_none i)
  · intro hne
    cases hf : t.find name83 L.bpb.rootEntryCount 0 with
    | none => rfl
    | some i =>
      obtain ⟨hi, hname⟩ := h.find_eq_some_iff.mp hf
      exact absurd hname (hne i hi)

theorem reads (h : t.Sound L) (name83 : List UInt8) : t.Reads L name83 := fun _ hi =>
  ⟨_, h.owns (h.find_eq_some_iff.mp hi).1⟩

end Tables.Sound

/-- The slot a new entry takes is not in use, and everything before it is. -/
theorem slot_spec {n i : Nat} (h : t.slot n 0 = some i) :
    i < n ∧ ((t.ent i).mark = 0x00 ∨ (t.ent i).mark = 0xE5) ∧
      ∀ j, j < i → (t.ent j).mark ≠ 0x00 := by
  unfold Tables.slot at h
  obtain ⟨hi, as, bs, happ, hbefore⟩ := List.find?_eq_some_iff_append.mp h
  rw [Bool.or_eq_true, beq_iff_eq, beq_iff_eq] at hi
  refine ⟨Tables.lt_of_slot h, hi, fun j hj hz => ?_⟩
  have hmem : i ∈ List.range' 0 n := happ ▸ List.mem_append_right _ List.mem_cons_self
  have hjmem : j ∈ as ++ i :: bs := happ ▸ List.mem_range'_1.mpr (by
    have := List.mem_range'_1.mp hmem
    omega)
  rcases List.mem_append.mp hjmem with hj' | hj'
  · have := hbefore j hj'
    rw [hz] at this
    exact absurd this (by decide)
  · -- what follows `i` in the list lies above it
    have hsorted := happ ▸ List.pairwise_lt_range' (s := 0) (n := n)
    have habove := (List.pairwise_cons.mp (List.pairwise_append.mp hsorted).2.1).1
    rcases List.mem_cons.mp hj' with rfl | hj'
    · exact Nat.lt_irrefl _ hj
    · exact Nat.lt_asymm hj (habove j hj')

/-! ## Replacing one entry -/

section SetEnt

variable {i : Nat} {e : Entry}

theorem setEnt_of_ne {j : Nat} (h : j ≠ i) : (t.setEnt i e).ent j = t.ent j := by
  unfold Tables.setEnt
  exact Function.update_of_ne h e t.ent

theorem setEnt_self : (t.setEnt i e).ent i = e := by
  unfold Tables.setEnt
  exact Function.update_self i e t.ent

theorem liveAt_setEnt_of_ne {j : Nat} (h : j ≠ i) :
    (t.setEnt i e).LiveAt L j ↔ t.LiveAt L j := by
  unfold Tables.LiveAt
  rw [setEnt_of_ne h]

theorem live_of_liveAt_setEnt (h : (t.setEnt i e).LiveAt L i) : e.Live := by
  have hl := h.2
  rw [setEnt_self] at hl
  exact hl

/-- A sound directory stays one when an entry that is not past the end is replaced
by one in use, which must have a new name and a chain of its own if it is live. -/
theorem sound_setEnt {S : Nat → Prop} {cells : Nat → List Nat} {l : List Nat}
    (hended : ∀ i j, i ≤ j → j < L.bpb.rootEntryCount → (t.ent i).mark = 0x00 →
      (t.ent j).mark = 0x00)
    (hunique : ∀ i j, t.LiveAt L i → t.LiveAt L j → (t.ent i).name = (t.ent j).name → i = j)
    (hfam : Family t.fat Stop 2 L.cells S (fun i => (t.ent i).first) cells)
    (hS : ∀ j, t.LiveAt L j → j ≠ i → S j)
    (hbefore : ∀ j, j < i → (t.ent j).mark ≠ 0x00) (hmark : e.mark ≠ 0x00)
    (hname : e.Live → ∀ j, t.LiveAt L j → j ≠ i → (t.ent j).name ≠ e.name)
    (hch : e.Live → Chain t.fat Stop e.first l)
    (hl : e.Live → ∀ d ∈ l, 2 ≤ d ∧ d < L.cells ∧ d < t.fat d)
    (hdis : e.Live → ∀ j, S j → j ≠ i → (cells j).Disjoint l) :
    (t.setEnt i e).Sound L ∧ ∀ j, (t.setEnt i e).LiveAt L j →
      (t.setEnt i e).cellsOf L.cells j = Function.update cells i l j := by
  have hkept : ∀ j, (t.setEnt i e).LiveAt L j → j ≠ i → S j := fun j hj hji =>
    hS j ((liveAt_setEnt_of_ne hji).mp hj) hji
  have hfam' : Family (t.setEnt i e).fat Stop 2 L.cells ((t.setEnt i e).LiveAt L)
      (fun j => ((t.setEnt i e).ent j).first) (Function.update cells i l) := by
    by_cases he : e.Live
    · have hadd := hfam.add ((t.setEnt i e).LiveAt L) (hch he) (hl he) (hdis he) hkept
      refine hadd.congr (fun j _ => ?_) fun _ _ => rfl
      by_cases hji : j = i
      · subst hji
        rw [Function.update_self, setEnt_self]
      · rw [Function.update_of_ne hji, setEnt_of_ne hji]
    · have hne : ∀ j, (t.setEnt i e).LiveAt L j → j ≠ i := by
        rintro j hj rfl
        exact he (live_of_liveAt_setEnt hj)
      exact (hfam.mono fun j hj => hkept j hj (hne j hj)).congr
        (fun j hj => by rw [setEnt_of_ne (hne j hj)])
        fun j hj => Function.update_of_ne (hne j hj) _ _
  refine ⟨Tables.Sound.of_family _ ?_ ?_ hfam', fun j hj => (cellsOf_of_family hfam' hj).2⟩
  · intro j k hjk hk hz
    by_cases hji : j = i
    · subst hji
      rw [setEnt_self] at hz
      exact absurd hz hmark
    rw [setEnt_of_ne hji] at hz
    by_cases hki : k = i
    · subst hki
      exact absurd hz (hbefore j (Nat.lt_of_le_of_ne hjk hji))
    · rw [setEnt_of_ne hki]
      exact hended j k hjk hk hz
  · intro j k hj hk heq
    by_cases hji : j = i
    · by_cases hki : k = i
      · exact hji.trans hki.symm
      · rw [liveAt_setEnt_of_ne hki] at hk
        rw [hji, setEnt_self, setEnt_of_ne hki] at heq
        have he : e.Live := live_of_liveAt_setEnt (hji ▸ hj)
        exact absurd heq.symm (hname he k hk hki)
    · rw [liveAt_setEnt_of_ne hji] at hj
      by_cases hki : k = i
      · rw [hki, setEnt_self, setEnt_of_ne hji] at heq
        have he : e.Live := live_of_liveAt_setEnt (hki ▸ hk)
        exact absurd heq (hname he j hj hji)
      · rw [liveAt_setEnt_of_ne hki] at hk
        rw [setEnt_of_ne hji, setEnt_of_ne hki] at heq
        exact hunique j k hj hk heq

end SetEnt

/-! ## Freeing and taking -/

section Taking

variable {S : Nat → Prop} {cells : Nat → List Nat}

@[simp] theorem release_ent (t : Tables) (N : Nat) (ex : Option Nat) :
    (t.release N ex).ent = t.ent := by
  cases ex <;> rfl

@[simp] theorem release_dat (t : Tables) (N : Nat) (ex : Option Nat) :
    (t.release N ex).dat = t.dat := by
  cases ex <;> rfl

@[simp] theorem take_ent (t : Tables) (cb N k : Nat) (data : List UInt8) :
    (t.take cb N k data).ent = t.ent := rfl

theorem liveAt_congr {t' : Tables} (h : t'.ent = t.ent) : t'.LiveAt L = t.LiveAt L := by
  unfold Tables.LiveAt
  rw [h]

/-- Freeing the chain of a live entry keeps the chains of the others. -/
theorem release_family (h : t.Sound L) (ex : Option Nat) (hex : ∀ i, ex = some i → t.LiveAt L i) :
    Family (t.release L.cells ex).fat Stop 2 L.cells (fun j => t.LiveAt L j ∧ ex ≠ some j)
      (fun i => (t.ent i).first) (t.cellsOf L.cells) := by
  cases ex with
  | none => exact h.family.mono fun _ hj => hj.1
  | some i =>
    exact (h.family.clear (hex i rfl)).mono fun j hj => ⟨hj.1, fun hji => hj.2 (hji ▸ rfl)⟩

/-- Taking free clusters keeps the chains there are, -/
theorem take_family (h : Family t.fat Stop 2 L.cells S (fun i => (t.ent i).first) cells)
    (cb k : Nat) (data : List UInt8) :
    Family (t.take cb L.cells k data).fat Stop 2 L.cells S (fun i => (t.ent i).first) cells :=
  h.grow fun _ hc => List.mem_of_mem_take hc

theorem taken_sorted (next : Nat → Nat) (N k : Nat) :
    ((freeCells next 2 N).take k).Pairwise (· < ·) :=
  (freeCells_sorted next 2 N).sublist (List.take_sublist k _)

theorem mem_taken {next : Nat → Nat} {N c : Nat} (h : c ∈ (freeCells next 2 N).take k) :
    2 ≤ c ∧ c < N := by
  have hc := mem_freeCells.mp (List.mem_of_mem_take h)
  exact ⟨hc.1, hc.2.1⟩

/-- and makes a rising chain of them. -/
theorem take_chain (L : Layout) (t : Tables) (cb k : Nat) (data : List UInt8) :
    Chain (t.take cb L.cells k data).fat Stop (t.takenFirst L.cells k)
        ((freeCells t.fat 2 L.cells).take k) ∧
      ∀ c ∈ (freeCells t.fat 2 L.cells).take k,
        2 ≤ c ∧ c < L.cells ∧ c < (t.take cb L.cells k data).fat c := by
  have hmark := L.cells_le_mark
  have hsorted := taken_sorted t.fat L.cells k
  have hz : 0 ∉ (freeCells t.fat 2 L.cells).take k := fun h => by
    have := mem_taken h
    omega
  have hbelow : ∀ c ∈ (freeCells t.fat 2 L.cells).take k, c < 0xFFF := fun c hc => by
    have := mem_taken hc
    omega
  have hrise := grow_zero_rising t.fat hsorted hbelow hz
  exact ⟨grow_headD_chain stop_zero stop_mark hz (hsorted.imp fun h => Nat.ne_of_lt h),
    fun c hc => ⟨(mem_taken hc).1, (mem_taken hc).2, hrise c hc⟩⟩

/-- After every free cluster is taken, a freed entry owns the part of the new chain
from its old first cluster on. -/
theorem stale_chain {i : Nat} (cb : Nat) {k : Nat} (data : List UInt8)
    (hown : t.Owns L.cells i (t.cellsOf L.cells i))
    (hk : (freeCells (t.release L.cells (some i)).fat 2 L.cells).length ≤ k) :
    ∃ l, l <:+ (freeCells (t.release L.cells (some i)).fat 2 L.cells).take k ∧
      Chain ((t.release L.cells (some i)).take cb L.cells k data).fat Stop (t.ent i).first l := by
  cases hcells : t.cellsOf L.cells i with
  | nil =>
    rw [hcells] at hown
    cases hown.chain with
    | nil hstop => exact ⟨[], List.nil_suffix, .nil hstop⟩
  | cons c l =>
    rw [hcells] at hown
    obtain rfl := hown.chain.head_eq
    have hmem : (t.ent i).first ∈
        (freeCells (t.release L.cells (some i)).fat 2 L.cells).take k := by
      rw [List.take_of_length_le hk]
      refine (mem_freeCells_clear fun d hd => ?_).mpr (Or.inl ?_)
      · exact hown.cells d (hcells ▸ hd)
      · rw [hcells]
        exact List.mem_cons_self
    have hchain := (take_chain L (t.release L.cells (some i)) cb k data).1
    obtain ⟨l₂, _, hsuf, hch⟩ := hchain.suffix hmem
    exact ⟨_, hsuf, hch⟩

end Taking

end RainbowOs.Fat12
