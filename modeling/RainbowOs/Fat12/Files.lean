import RainbowOs.Fat12.Sound

/-!
# Calls as operations on files

What a call does to the files of a sound volume. `writeFile_cases` lists
the four ways a write ends; every law below goes through it. A call keeps
soundness however it ends, and it keeps every file but the one it names:
`Keeps` says so entry by entry, in terms of everything a read or a listing
of that entry depends on.
-/

namespace RainbowOs.Fat12

open RainbowOs.Lib RainbowOs.Lib.Linked

variable {L : Layout} {t : Tables} {name83 data : List UInt8}

/-! ## Filling clusters -/

theorem fill_of_not_mem {cb c : Nat} {dat : Nat → List UInt8} {l : List Nat} (h : c ∉ l) :
    fill cb dat l data c = dat c := by
  induction l generalizing dat data with
  | nil => rfl
  | cons d l ih =>
    have hcd : c ≠ d := fun hcd => h (hcd ▸ List.mem_cons_self)
    rw [fill, ih fun hcl => h (List.mem_cons_of_mem _ hcl), Function.update_of_ne hcd]

/-- Filled clusters hold the data, as far as they go. -/
theorem fill_flatMap {cb : Nat} {dat : Nat → List UInt8} {l : List Nat} (hnd : l.Nodup)
    (hlen : ∀ c ∈ l, (dat c).length = cb) :
    (l.flatMap (fill cb dat l data)).take data.length = data.take (l.length * cb) := by
  induction l generalizing dat data with
  | nil => rw [List.flatMap_nil, List.take_nil, List.length_nil, Nat.zero_mul, List.take_zero]
  | cons c l ih =>
    obtain ⟨hcl, hnd'⟩ := List.nodup_cons.mp hnd
    have hlen' : ∀ d ∈ l, (Function.update dat c
        (data.take cb ++ (dat c).drop (data.take cb).length) d).length = cb := fun d hd => by
      rw [Function.update_of_ne fun hdc : d = c => hcl (hdc ▸ hd)]
      exact hlen d (List.mem_cons_of_mem _ hd)
    have hrest := @ih (data.drop cb) _ hnd' hlen'
    rw [List.flatMap_cons, fill, fill_of_not_mem hcl, Function.update_self, List.length_cons,
      Nat.succ_mul]
    by_cases hfull : cb ≤ data.length
    · have htake : (data.take cb).length = cb := by rw [List.length_take]; omega
      have hdrop : (dat c).drop cb = [] :=
        List.drop_eq_nil_of_le (Nat.le_of_eq (hlen c List.mem_cons_self))
      rw [List.length_drop] at hrest
      rw [htake, hdrop, List.append_nil] at hrest ⊢
      rw [List.take_append, htake, List.take_of_length_le (by omega), hrest, Nat.add_comm,
        List.take_add]
    · have htake : data.take cb = data := List.take_of_length_le (by omega)
      rw [htake, List.append_assoc, List.take_left', List.take_of_length_le (by omega)]
      rfl

/-! ## How a write ends -/

/-- The tables of a write between its loop and its directory update. -/
def Tables.written (L : Layout) (t : Tables) (name83 data : List UInt8) : Tables :=
  (t.release L.cells (t.find name83 L.bpb.rootEntryCount 0)).take L.bpb.clusterBytes L.cells
    (clustersFor L.bpb.clusterBytes data.length) data

/-- The clusters a write can take: the free ones, with those of the named file. -/
def Tables.available (L : Layout) (t : Tables) (name83 : List UInt8) : List Nat :=
  freeCells (t.release L.cells (t.find name83 L.bpb.rootEntryCount 0)).fat 2 L.cells

/-- The clusters a write does take. -/
def Tables.takenCells (L : Layout) (t : Tables) (name83 data : List UInt8) : List Nat :=
  (t.available L name83).take (clustersFor L.bpb.clusterBytes data.length)

/-- How a write ends. -/
theorem writeFile_cases (L : Layout) (t : Tables) (name83 data : List UInt8) :
    ((t.available L name83).length < clustersFor L.bpb.clusterBytes data.length ∧
      t.writeFile L name83 data = (-1, t.written L name83 data)) ∨
    (clustersFor L.bpb.clusterBytes data.length ≤ (t.available L name83).length ∧
      ((∃ i, t.find name83 L.bpb.rootEntryCount 0 = some i ∧
        t.writeFile L name83 data = (0, (t.written L name83 data).setEnt i
          { t.ent i with
            first := (t.takenCells L name83 data).headD 0, size := data.length })) ∨
      (t.find name83 L.bpb.rootEntryCount 0 = none ∧ t.slot L.bpb.rootEntryCount 0 = none ∧
        t.writeFile L name83 data = (-1, t.written L name83 data)) ∨
      (∃ i, t.find name83 L.bpb.rootEntryCount 0 = none ∧
        t.slot L.bpb.rootEntryCount 0 = some i ∧
        t.writeFile L name83 data = (0, (t.written L name83 data).setEnt i
          (newEntry name83 ((t.takenCells L name83 data).headD 0) data.length))))) := by
  unfold Tables.writeFile Tables.written Tables.takenCells Tables.available
  by_cases hfull : (freeCells (t.release L.cells
      (t.find name83 L.bpb.rootEntryCount 0)).fat 2 L.cells).length <
        clustersFor L.bpb.clusterBytes data.length
  · exact Or.inl ⟨hfull, by simp only [if_pos hfull]⟩
  refine Or.inr ⟨Nat.le_of_not_lt hfull, ?_⟩
  simp only [if_neg hfull]
  cases hfind : t.find name83 L.bpb.rootEntryCount 0 with
  | some i => exact Or.inl ⟨i, rfl, rfl⟩
  | none =>
    cases hslot : t.slot L.bpb.rootEntryCount 0 with
    | none => exact Or.inr (Or.inl ⟨rfl, rfl, rfl⟩)
    | some i => exact Or.inr (Or.inr ⟨i, rfl, rfl, rfl⟩)

/-! ## What a write leaves behind before the directory update -/

section Written

theorem written_ent (L : Layout) (t : Tables) (name83 data : List UInt8) :
    (t.written L name83 data).ent = t.ent := by
  unfold Tables.written
  rw [take_ent, release_ent]

theorem written_dat_of_not_mem {c : Nat} (h : c ∉ t.takenCells L name83 data) :
    (t.written L name83 data).dat c = t.dat c := by
  unfold Tables.written Tables.take
  rw [release_dat]
  exact fill_of_not_mem h

variable (h : t.Sound L)

include h

theorem written_family (name83 data : List UInt8) :
    Family (t.written L name83 data).fat Stop 2 L.cells
      (fun j => t.LiveAt L j ∧ t.find name83 L.bpb.rootEntryCount 0 ≠ some j)
      (fun i => (t.ent i).first) (t.cellsOf L.cells) := by
  have hrel := release_family h (t.find name83 L.bpb.rootEntryCount 0)
    fun i hi => (h.find_eq_some_iff.mp hi).1
  rw [← release_ent t L.cells (t.find name83 L.bpb.rootEntryCount 0)] at hrel
  have htake := take_family hrel L.bpb.clusterBytes
    (clustersFor L.bpb.clusterBytes data.length) data
  rw [release_ent] at htake
  exact htake

theorem taken_disjoint {j : Nat} (hj : t.LiveAt L j)
    (hne : t.find name83 L.bpb.rootEntryCount 0 ≠ some j) :
    (t.cellsOf L.cells j).Disjoint (t.takenCells L name83 data) := by
  have hrel := release_family h (t.find name83 L.bpb.rootEntryCount 0)
    fun i hi => (h.find_eq_some_iff.mp hi).1
  intro c hc hl
  exact hrel.not_free ⟨hj, hne⟩ hc (List.mem_of_mem_take hl)

end Written

theorem written_chain (L : Layout) (t : Tables) (name83 data : List UInt8) :
    Chain (t.written L name83 data).fat Stop ((t.takenCells L name83 data).headD 0)
        (t.takenCells L name83 data) ∧
      ∀ c ∈ t.takenCells L name83 data,
        2 ≤ c ∧ c < L.cells ∧ c < (t.written L name83 data).fat c :=
  take_chain L _ _ _ data

theorem setEnt_ent (t : Tables) (i : Nat) : t.setEnt i (t.ent i) = t := by
  unfold Tables.setEnt
  rw [Function.update_eq_self]

/-- A write that stops before the directory update leaves a sound volume: with no entry
to go stale, or with every cluster taken. -/
theorem written_sound (h : t.Sound L)
    (hk : ∀ i, t.find name83 L.bpb.rootEntryCount 0 = some i →
      (t.available L name83).length ≤ clustersFor L.bpb.clusterBytes data.length) :
    (t.written L name83 data).Sound L ∧ ∀ j, t.LiveAt L j →
      t.find name83 L.bpb.rootEntryCount 0 ≠ some j →
        (t.written L name83 data).cellsOf L.cells j = t.cellsOf L.cells j := by
  have hfam := written_family h name83 data
  have hlive := liveAt_congr (L := L) (written_ent L t name83 data)
  rw [← written_ent L t name83 data] at hfam
  refine ⟨?_, fun j hj hne => (cellsOf_of_family hfam ⟨hj, hne⟩).2⟩
  cases hfind : t.find name83 L.bpb.rootEntryCount 0 with
  | none =>
    refine Tables.Sound.of_family _ ?_ ?_ (hfam.mono fun j hj => ⟨hlive ▸ hj, ?_⟩)
    · rw [written_ent]
      exact h.ended
    · rw [written_ent, hlive]
      exact h.unique
    · rw [hfind]
      exact (Option.some_ne_none j).symm
  | some i =>
    have hi := (h.find_eq_some_iff.mp hfind).1
    have hlen := hk i hfind
    unfold Tables.available at hlen
    rw [hfind] at hlen
    obtain ⟨l, hsuf, hch⟩ := stale_chain L.bpb.clusterBytes data (h.owns hi) hlen
    have htaken : t.takenCells L name83 data =
        (freeCells (t.release L.cells (some i)).fat 2 L.cells).take
          (clustersFor L.bpb.clusterBytes data.length) := by
      unfold Tables.takenCells Tables.available
      rw [hfind]
    have hwritten : t.written L name83 data = (t.release L.cells (some i)).take
        L.bpb.clusterBytes L.cells (clustersFor L.bpb.clusterBytes data.length) data := by
      unfold Tables.written
      rw [hfind]
    rw [← htaken] at hsuf
    rw [← hwritten] at hch
    rw [← setEnt_ent (t.written L name83 data) i]
    refine (sound_setEnt (l := l) ?_ ?_ hfam (fun j hj hji => ?_) ?_ ?_ (fun _ => ?_)
      (fun _ => ?_) (fun _ d hd => ?_) (fun _ => ?_)).1
    · rw [written_ent]
      exact h.ended
    · rw [written_ent, hlive]
      exact h.unique
    · exact ⟨hlive ▸ hj, by
        rw [hfind]
        exact fun heq => hji (Option.some.inj heq).symm⟩
    · rw [written_ent]
      exact fun j hj => h.mark_ne_zero hi (Nat.le_of_lt hj)
    · rw [written_ent]
      exact hi.2.1
    · rw [written_ent, hlive]
      exact fun j hj hji heq => hji (h.unique j i hj hi heq)
    · rw [written_ent]
      exact hch
    · exact (written_chain L t name83 data).2 d (hsuf.subset hd)
    · exact fun j hj _ c hc hl => taken_disjoint h hj.1 hj.2 hc (hsuf.subset hl)

/-! ## What a call keeps -/

/-- Entry `j` means in `t'` what it meant in `t`. -/
structure Tables.Keeps (L : Layout) (t t' : Tables) (j : Nat) : Prop where
  live : t'.LiveAt L j
  ent : t'.ent j = t.ent j
  cells : t'.cellsOf L.cells j = t.cellsOf L.cells j
  dat : ∀ c ∈ t.cellsOf L.cells j, t'.dat c = t.dat c

theorem Tables.Keeps.contents {t' : Tables} {j : Nat} (h : t.Keeps L t' j) :
    t'.contents L.cells j = t.contents L.cells j := by
  unfold Tables.contents
  rw [h.ent, h.cells, List.flatMap_congr h.dat]

/-- The entry a successful write fills in. -/
theorem written_setEnt_sound (h : t.Sound L) (data : List UInt8) {i : Nat} {e : Entry}
    (hS : ∀ j, t.LiveAt L j → j ≠ i → t.find name83 L.bpb.rootEntryCount 0 ≠ some j)
    (hbefore : ∀ j, j < i → (t.ent j).mark ≠ 0x00) (hmark : e.mark ≠ 0x00)
    (hname : ∀ j, t.LiveAt L j → j ≠ i → (t.ent j).name ≠ e.name)
    (hfirst : e.first = (t.takenCells L name83 data).headD 0) :
    ((t.written L name83 data).setEnt i e).Sound L ∧
      (∀ j, t.LiveAt L j → j ≠ i → t.Keeps L ((t.written L name83 data).setEnt i e) j) ∧
      (((t.written L name83 data).setEnt i e).LiveAt L i →
        ((t.written L name83 data).setEnt i e).cellsOf L.cells i =
          t.takenCells L name83 data) := by
  have hfam := written_family h name83 data
  have hlive := liveAt_congr (L := L) (written_ent L t name83 data)
  rw [← written_ent L t name83 data] at hfam
  obtain ⟨hch, hrise⟩ := written_chain L t name83 data
  have hsound := sound_setEnt (t := t.written L name83 data) (i := i) (e := e)
    (by rw [written_ent]; exact h.ended) (by rw [written_ent, hlive]; exact h.unique) hfam
    (fun j hj hji => ⟨hlive ▸ hj, hS j (hlive ▸ hj) hji⟩) (by rw [written_ent]; exact hbefore)
    hmark (fun _ => by rw [written_ent, hlive]; exact hname) (fun _ => hfirst ▸ hch)
    (fun _ => hrise) fun _ j hj _ => taken_disjoint h hj.1 hj.2
  refine ⟨hsound.1, fun j hj hji => ?_, fun hi => ?_⟩
  · have hj' : ((t.written L name83 data).setEnt i e).LiveAt L j :=
      (liveAt_setEnt_of_ne hji).mpr (hlive ▸ hj)
    refine ⟨hj', ?_, ?_, fun c hc => ?_⟩
    · rw [setEnt_of_ne hji, written_ent]
    · rw [hsound.2 j hj', Function.update_of_ne hji]
    · exact written_dat_of_not_mem fun hl => taken_disjoint h hj (hS j hj hji) hc hl
  · rw [hsound.2 i hi, Function.update_self]

theorem written_keeps (h : t.Sound L) {j : Nat} (hj : t.LiveAt L j)
    (hne : t.find name83 L.bpb.rootEntryCount 0 ≠ some j) :
    t.Keeps L (t.written L name83 data) j := by
  have hfam := written_family h name83 data
  rw [← written_ent L t name83 data] at hfam
  refine ⟨?_, by rw [written_ent], (cellsOf_of_family hfam ⟨hj, hne⟩).2, fun c hc => ?_⟩
  · rw [liveAt_congr (written_ent L t name83 data)]
    exact hj
  · exact written_dat_of_not_mem fun hl => taken_disjoint h hj hne hc hl

/-- A slot a new entry takes is not live. -/
theorem not_liveAt_of_slot {i : Nat} (hslot : t.slot L.bpb.rootEntryCount 0 = some i) :
    ¬ t.LiveAt L i := fun hi => (slot_spec hslot).2.1.elim hi.2.1 hi.2.2.1

/-- However a write ends, the volume is sound and every other file is kept. -/
theorem writeFile_sound (h : t.Sound L) (data : List UInt8) (hmark : name83.headD 0 ≠ 0x00) :
    (t.writeFile L name83 data).2.Sound L ∧ ∀ j, t.LiveAt L j →
      t.find name83 L.bpb.rootEntryCount 0 ≠ some j →
        t.Keeps L (t.writeFile L name83 data).2 j := by
  rcases writeFile_cases L t name83 data with
    ⟨hfull, heq⟩ | ⟨_, ⟨i, hfind, heq⟩ | ⟨hfind, _, heq⟩ | ⟨i, hfind, hslot, heq⟩⟩
  · rw [heq]
    exact ⟨(written_sound h fun _ _ => Nat.le_of_lt hfull).1, fun j hj hne => written_keeps h hj hne⟩
  · obtain ⟨hi, hname⟩ := h.find_eq_some_iff.mp hfind
    rw [heq]
    have hput := written_setEnt_sound h data (i := i) (e := { t.ent i with
        first := (t.takenCells L name83 data).headD 0, size := data.length })
      (fun j _ hji heq => hji (Option.some.inj (heq.symm.trans hfind)))
      (fun j hj => h.mark_ne_zero hi (Nat.le_of_lt hj)) hi.2.1
      (fun j hj hji heq => hji (h.unique j i hj hi heq)) rfl
    exact ⟨hput.1, fun j hj hne => hput.2.1 j hj fun hji => hne (hji ▸ hfind)⟩
  · rw [heq]
    refine ⟨(written_sound h fun i hi => ?_).1, fun j hj hne => written_keeps h hj hne⟩
    exact absurd (hi.symm.trans hfind) (Option.some_ne_none i)
  · rw [heq]
    have hput := written_setEnt_sound h data (i := i)
      (e := newEntry name83 ((t.takenCells L name83 data).headD 0) data.length)
      (fun j _ _ heq => absurd (heq.symm.trans hfind) (Option.some_ne_none j))
      (slot_spec hslot).2.2 hmark
      (fun j hj _ heq => h.find_eq_none_iff.mp hfind j hj heq) rfl
    exact ⟨hput.1, fun j hj _ => hput.2.1 j hj fun hji => not_liveAt_of_slot hslot (hji ▸ hj)⟩

theorem not_live_of_mark {e : Entry} (h : e.mark = 0xE5) : ¬ e.Live := fun hl => hl.2.1 h

/-- A deletion leaves a sound volume and every other file. -/
theorem deleteFile_sound (h : t.Sound L) (name83 : List UInt8) :
    (t.deleteFile L name83).2.Sound L ∧ ∀ j, t.LiveAt L j →
      t.find name83 L.bpb.rootEntryCount 0 ≠ some j → t.Keeps L (t.deleteFile L name83).2 j := by
  unfold Tables.deleteFile
  cases hfind : t.find name83 L.bpb.rootEntryCount 0 with
  | none =>
    exact ⟨h, fun j hj _ => ⟨hj, rfl, rfl, fun _ _ => rfl⟩⟩
  | some i =>
    obtain ⟨hi, hname⟩ := h.find_eq_some_iff.mp hfind
    have hfam := release_family h (some i) fun j hj => Option.some.inj hj ▸ hi
    have hlive := liveAt_congr (L := L) (release_ent t L.cells (some i))
    obtain ⟨e, he⟩ : ∃ e : Entry, e = { (t.release L.cells (some i)).ent i with
      name := 0xE5 :: ((t.release L.cells (some i)).ent i).name.tail } := ⟨_, rfl⟩
    have hdrop : (t.release L.cells (some i)).dropEntry i =
        (t.release L.cells (some i)).setEnt i e := by rw [he]; rfl
    have hdead : ¬ e.Live := not_live_of_mark (by rw [he]; rfl)
    have hmark : e.mark ≠ 0x00 := by rw [he]; exact (by decide : (0xE5 : UInt8) ≠ 0x00)
    have hsound := sound_setEnt (t := t.release L.cells (some i)) (i := i) (l := [])
      (S := fun j => t.LiveAt L j ∧ some i ≠ some j)
      (by rw [release_ent]; exact h.ended) (by rw [release_ent, hlive]; exact h.unique)
      (by rw [release_ent]; exact hfam)
      (fun j hj hji => ⟨hlive ▸ hj, fun hij => hji (Option.some.inj hij).symm⟩)
      (by rw [release_ent]; exact fun j hj => h.mark_ne_zero hi (Nat.le_of_lt hj)) hmark
      (fun hl => absurd hl hdead) (fun hl => absurd hl hdead) (fun hl => absurd hl hdead)
      fun hl => absurd hl hdead
    simp only [hdrop]
    refine ⟨hsound.1, fun j hj hne => ?_⟩
    have hji : j ≠ i := fun hji => hne (hji ▸ rfl)
    have hj' : ((t.release L.cells (some i)).setEnt i e).LiveAt L j :=
      (liveAt_setEnt_of_ne hji).mpr (hlive ▸ hj)
    refine ⟨hj', by rw [setEnt_of_ne hji, release_ent], ?_, fun c _ => ?_⟩
    · rw [hsound.2 j hj', Function.update_of_ne hji]
    · exact congrFun (release_dat t L.cells (some i)) c

/-! ## The files of a volume -/

/-- What a read of each folded name can return. -/
def Tables.files (L : Layout) (t : Tables) (key : List UInt8) : Option (List UInt8) :=
  (t.find key L.bpb.rootEntryCount 0).map (t.contents L.cells)

theorem readFile_eq_files (L : Layout) (t : Tables) (name83 : List UInt8) (bufSize : Nat) :
    t.readFile L name83 bufSize = (t.files L name83).map fun bs => bs.take bufSize := by
  unfold Tables.readFile Tables.files
  rw [Option.map_map]
  rfl

theorem files_eq_some (h : t.Sound L) {i : Nat} (hi : t.LiveAt L i) :
    t.files L (t.ent i).name = some (t.contents L.cells i) := by
  unfold Tables.files
  rw [h.find_eq_some_iff.mpr ⟨hi, rfl⟩, Option.map_some]

/-- A kept entry keeps its file. -/
theorem files_of_keeps {t' : Tables} (h : t.Sound L) (h' : t'.Sound L) {j : Nat}
    (hj : t.LiveAt L j) (hk : t.Keeps L t' j) :
    t'.files L (t.ent j).name = t.files L (t.ent j).name := by
  rw [files_eq_some h hj, ← hk.ent, files_eq_some h' hk.live, hk.contents]

/-- When every entry but `i` is kept and nothing else appears, only the name of `i`
reads differently. -/
theorem files_of_keeps_but {t' : Tables} (h : t.Sound L) (h' : t'.Sound L)
    (hkeep : ∀ j, t.LiveAt L j → (t.ent j).name ≠ name83 → t.Keeps L t' j)
    (hback : ∀ j, t'.LiveAt L j → (t'.ent j).name ≠ name83 → t.LiveAt L j ∧ (t.ent j).name ≠ name83)
    {key : List UInt8} (hkey : key ≠ name83) : t'.files L key = t.files L key := by
  cases hfind : t.find key L.bpb.rootEntryCount 0 with
  | some j =>
    obtain ⟨hj, rfl⟩ := h.find_eq_some_iff.mp hfind
    exact files_of_keeps h h' hj (hkeep j hj hkey)
  | none =>
    have hnone : t'.find key L.bpb.rootEntryCount 0 = none := by
      refine h'.find_eq_none_iff.mpr fun j hj hname => ?_
      obtain ⟨hj₀, hne⟩ := hback j hj (hname ▸ hkey)
      have hent := (hkeep j hj₀ hne).ent
      exact h.find_eq_none_iff.mp hfind j hj₀ (hent ▸ hname)
    unfold Tables.files
    rw [hnone, hfind]
    rfl

/-! ## Successful calls -/

/-- Every live entry is a plain file whose chain holds all of it. -/
def Tables.Whole (L : Layout) (t : Tables) : Prop :=
  ∀ i, t.LiveAt L i → (t.ent i).attr = 0x20 ∧ (t.contents L.cells i).length = (t.ent i).size

/-- The clusters a write fills hold its data. -/
theorem contents_of_taken (name83 data : List UInt8)
    (hdat : ∀ c, 2 ≤ c → c < L.cells → (t.dat c).length = L.bpb.clusterBytes) :
    ((t.takenCells L name83 data).flatMap (t.written L name83 data).dat).take data.length =
      data.take ((t.takenCells L name83 data).length * L.bpb.clusterBytes) := by
  have hdat' : (t.written L name83 data).dat =
      fill L.bpb.clusterBytes t.dat (t.takenCells L name83 data) data := by
    unfold Tables.written Tables.take Tables.takenCells Tables.available
    rw [release_dat]
  rw [hdat']
  refine fill_flatMap ((taken_sorted _ _ _).imp fun h => Nat.ne_of_lt h) fun c hc => ?_
  exact hdat c (mem_taken hc).1 (mem_taken hc).2

/-- After a write that returned 0 the named entry, if it is live, holds the data. -/
theorem writeFile_ok (h : t.Sound L)
    (hdat : ∀ c, 2 ≤ c → c < L.cells → (t.dat c).length = L.bpb.clusterBytes)
    (hmark : name83.headD 0 ≠ 0x00) (hret : (t.writeFile L name83 data).1 = 0) :
    ∃ i, i < L.bpb.rootEntryCount ∧
      ((t.writeFile L name83 data).2.ent i).name = name83 ∧
      ((t.writeFile L name83 data).2.ent i).size = data.length ∧
      ((∃ j, t.LiveAt L j ∧ ((t.writeFile L name83 data).2.ent i).attr = (t.ent j).attr) ∨
        ((t.writeFile L name83 data).2.ent i).attr = 0x20) ∧
      ((t.writeFile L name83 data).2.LiveAt L i →
        (t.writeFile L name83 data).2.contents L.cells i = data) ∧
      ∀ j, j ≠ i → ((t.writeFile L name83 data).2.ent j) = t.ent j := by
  have hcb := L.clusterBytes_pos
  have hneg : (-1 : Int) ≠ 0 := by decide
  -- what every successful ending has in common, given the entry `e` it stores
  have hput : ∀ i (e : Entry), clustersFor L.bpb.clusterBytes data.length ≤
        (t.available L name83).length → e.size = data.length →
      (((t.written L name83 data).setEnt i e).LiveAt L i →
        ((t.written L name83 data).setEnt i e).cellsOf L.cells i = t.takenCells L name83 data) →
      ((t.written L name83 data).setEnt i e).LiveAt L i →
        ((t.written L name83 data).setEnt i e).contents L.cells i = data := by
    intro i e hk hsize hcells hi
    unfold Tables.contents
    rw [hcells hi, setEnt_self, hsize]
    have hlen : (t.takenCells L name83 data).length =
        clustersFor L.bpb.clusterBytes data.length := by
      unfold Tables.takenCells
      rw [List.length_take]
      exact Nat.min_eq_left hk
    have hfit := le_clustersFor_mul hcb data.length
    have hcontents := contents_of_taken name83 data hdat
    rw [hlen, List.take_of_length_le hfit] at hcontents
    exact hcontents
  rcases writeFile_cases L t name83 data with
    ⟨_, heq⟩ | ⟨hk, ⟨i, hfind, heq⟩ | ⟨_, _, heq⟩ | ⟨i, hfind, hslot, heq⟩⟩
  · rw [heq] at hret
    exact absurd hret hneg
  · obtain ⟨hi, hname⟩ := h.find_eq_some_iff.mp hfind
    rw [heq]
    obtain ⟨e, he⟩ : ∃ e : Entry, e = { t.ent i with
      first := (t.takenCells L name83 data).headD 0, size := data.length } := ⟨_, rfl⟩
    have hset := written_setEnt_sound h data (i := i) (e := e)
      (fun j _ hji heq => hji (Option.some.inj (heq.symm.trans hfind)))
      (fun j hj => h.mark_ne_zero hi (Nat.le_of_lt hj)) (by rw [he]; exact hi.2.1)
      (fun j hj hji heq => hji (h.unique j i hj hi (by rw [heq, he]))) (by rw [he])
    simp only [← he]
    refine ⟨i, hi.1, ?_, ?_, Or.inl ⟨i, hi, ?_⟩, hput i e hk (by rw [he]) hset.2.2, fun j hji => ?_⟩
    · rw [setEnt_self, he, hname]
    · rw [setEnt_self, he]
    · rw [setEnt_self, he]
    · rw [setEnt_of_ne hji, written_ent]
  · rw [heq] at hret
    exact absurd hret hneg
  · rw [heq]
    obtain ⟨e, he⟩ : ∃ e : Entry, e =
      newEntry name83 ((t.takenCells L name83 data).headD 0) data.length := ⟨_, rfl⟩
    have hset := written_setEnt_sound h data (i := i) (e := e)
      (fun j _ _ heq => absurd (heq.symm.trans hfind) (Option.some_ne_none j))
      (slot_spec hslot).2.2 (by rw [he]; exact hmark)
      (fun j hj _ heq => h.find_eq_none_iff.mp hfind j hj (by rw [heq, he]; rfl)) (by rw [he]; rfl)
    simp only [← he]
    refine ⟨i, (slot_spec hslot).1, ?_, ?_, Or.inr ?_, hput i e hk (by rw [he]; rfl) hset.2.2,
      fun j hji => ?_⟩
    · rw [setEnt_self, he]
      rfl
    · rw [setEnt_self, he]
      rfl
    · rw [setEnt_self, he]
      rfl
    · rw [setEnt_of_ne hji, written_ent]

end RainbowOs.Fat12
