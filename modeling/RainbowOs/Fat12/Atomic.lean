import RainbowOs.Fat12.Runs

/-!
# Failed writes

`fat12_write_file` frees the old chain, takes clusters and writes data
before it knows that it will succeed, and its two `return -1` undo none of
it. This module says exactly when a write that returns -1 changed nothing a
caller can see: when there was nothing to write, or when no cluster was
free and the clusters of the file itself, rewritten in place, still hold
what the file held.
-/

namespace RainbowOs.Fat12

open RainbowOs.Lib RainbowOs.Lib.Linked

variable {L : Layout} {t : Tables} {name83 data : List UInt8}

/-- A write that returned -1 stopped before the directory update: the disk was full, or
the file is new and the directory is. -/
theorem failed_writeFile (hret : (t.writeFile L name83 data).1 = -1) :
    (t.writeFile L name83 data).2 = t.written L name83 data ∧
      ((t.available L name83).length < clustersFor L.bpb.clusterBytes data.length ∨
        (clustersFor L.bpb.clusterBytes data.length ≤ (t.available L name83).length ∧
          t.find name83 L.bpb.rootEntryCount 0 = none)) := by
  have hpos : (0 : Int) ≠ -1 := by decide
  rcases writeFile_cases L t name83 data with
    ⟨hfull, heq⟩ | ⟨hk, ⟨i, _, heq⟩ | ⟨hfind, _, heq⟩ | ⟨i, _, _, heq⟩⟩
  · rw [heq]
    exact ⟨rfl, Or.inl hfull⟩
  · rw [heq] at hret
    exact absurd hret hpos
  · rw [heq]
    exact ⟨rfl, Or.inr ⟨hk, hfind⟩⟩
  · rw [heq] at hret
    exact absurd hret hpos

theorem written_free (L : Layout) (t : Tables) (name83 data : List UInt8) :
    freeCells (t.written L name83 data).fat 2 L.cells =
      (t.available L name83).drop (clustersFor L.bpb.clusterBytes data.length) :=
  freeCells_grow rfl Nat.two_pos (by decide) (Or.inl rfl) _

theorem available_of_none (h : t.find name83 L.bpb.rootEntryCount 0 = none) :
    t.available L name83 = freeCells t.fat 2 L.cells := by
  unfold Tables.available
  rw [h]
  rfl

/-- With nothing free, a write has the clusters of the file it replaces. -/
theorem available_of_no_free (h : t.Sound L) {i : Nat}
    (hfind : t.find name83 L.bpb.rootEntryCount 0 = some i)
    (hfree : freeCells t.fat 2 L.cells = []) :
    t.available L name83 = t.cellsOf L.cells i := by
  have hi := (h.find_eq_some_iff.mp hfind).1
  have hsorted := (h.family.chain i hi).sorted fun c hc => (h.family.rising i hi c hc).2.2
  refine eq_of_sorted_of_mem (freeCells_sorted _ _ _) hsorted fun c => ?_
  have hmem : c ∈ t.available L name83 ↔
      c ∈ t.cellsOf L.cells i ∨ c ∈ freeCells t.fat 2 L.cells := by
    unfold Tables.available
    rw [hfind]
    exact mem_freeCells_clear fun d hd => (h.owns hi).cells d hd
  rw [hmem, hfree]
  exact or_iff_left List.not_mem_nil

theorem clustersFor_pos {cb : Nat} (hcb : 0 < cb) (hdata : data ≠ []) :
    0 < clustersFor cb data.length := by
  rw [clustersFor_step hcb (List.length_pos_iff.mpr hdata)]
  exact Nat.succ_pos _

theorem mul_lt_of_lt_clustersFor {cb k n : Nat} (hcb : 0 < cb) (h : k < clustersFor cb n) :
    k * cb < n := by
  unfold clustersFor at h
  have hle := (Nat.le_div_iff_mul_le hcb).mp h
  rw [Nat.succ_mul] at hle
  omega

/-- A file overwritten in place, on a full disk: it now holds the data, as far as its old
contents reached. -/
theorem contents_overwritten (h : t.Sound L)
    (hdat : ∀ c, 2 ≤ c → c < L.cells → (t.dat c).length = L.bpb.clusterBytes)
    (hdat' : ∀ c, 2 ≤ c → c < L.cells →
      ((t.written L name83 data).dat c).length = L.bpb.clusterBytes)
    {i : Nat} (hfind : t.find name83 L.bpb.rootEntryCount 0 = some i)
    (hfree : freeCells t.fat 2 L.cells = [])
    (hfull : (t.available L name83).length < clustersFor L.bpb.clusterBytes data.length) :
    (t.written L name83 data).contents L.cells i =
      data.take (t.contents L.cells i).length := by
  have hcb := L.clusterBytes_pos
  have hi := (h.find_eq_some_iff.mp hfind).1
  have hown := h.owns hi
  have hav := available_of_no_free h hfind hfree
  have htaken : t.takenCells L name83 data = t.cellsOf L.cells i := by
    unfold Tables.takenCells
    rw [List.take_of_length_le (Nat.le_of_lt hfull), hav]
  obtain ⟨hch, hrise⟩ := written_chain L t name83 data
  have hfilled := contents_of_taken name83 data hdat
  have hlen := mul_lt_of_lt_clustersFor hcb (hav ▸ hfull)
  rw [htaken] at hch hrise hfilled
  have hcontents : t.contents L.cells i =
      ((t.cellsOf L.cells i).flatMap t.dat).take (t.ent i).size := rfl
  rw [hcontents]
  generalize t.cellsOf L.cells i = l at *
  -- the entry still owns its clusters, in the same order
  have hown' : (t.written L name83 data).Owns L.cells i l := by
    refine ⟨?_, hown.cells⟩
    rw [written_ent]
    cases l with
    | nil =>
      cases hown.chain with
      | nil hstop => exact .nil hstop
    | cons c l =>
      rw [← hown.chain.head_eq]
      exact hch
  have hlength : ∀ dat : Nat → List UInt8,
      (∀ c, 2 ≤ c → c < L.cells → (dat c).length = L.bpb.clusterBytes) →
        (l.flatMap dat).length = l.length * L.bpb.clusterBytes := by
    intro dat hd
    have hconst : ∀ c ∈ l, (dat c).length = L.bpb.clusterBytes := fun c hc =>
      hd c (hown.cells c hc).1 (hown.cells c hc).2
    rw [List.length_flatMap, List.map_congr_left hconst, List.map_const', List.sum_replicate_nat]
  have hdata : l.flatMap (t.written L name83 data).dat =
      data.take (l.length * L.bpb.clusterBytes) := by
    rw [← hfilled, List.take_of_length_le]
    rw [hlength _ hdat']
    exact Nat.le_of_lt hlen
  unfold Tables.contents
  rw [hown'.cellsOf_eq L.cells_le_mark, hdata, written_ent, List.take_take, List.length_take,
    hlength _ hdat]

/-- When a failed write is atomic, on tables. -/
theorem failed_writeFile_iff {name : CString} (hname : name83 = nameTo83 name) (h : t.Sound L)
    (hdat : ∀ c, 2 ≤ c → c < L.cells → (t.dat c).length = L.bpb.clusterBytes)
    (hdat' : ∀ c, 2 ≤ c → c < L.cells →
      ((t.written L name83 data).dat c).length = L.bpb.clusterBytes)
    (hret : (t.writeFile L name83 data).1 = -1) :
    (freeCells (t.written L name83 data).fat 2 L.cells = freeCells t.fat 2 L.cells ∧
      ∀ (other : CString) bs, t.files L (nameTo83 other) = some bs →
        (t.written L name83 data).files L (nameTo83 other) = some bs) ↔
    (data = [] ∨ freeCells t.fat 2 L.cells = [] ∧
      ∀ old, t.files L name83 = some old → old <+: data) := by
  have hcb := L.clusterBytes_pos
  have h0 : name83.headD 0 ≠ 0x00 :=
    hname ▸ nameTo83_ne_zero name _ (headD_nameTo83_mem name)
  obtain ⟨heq, hcases⟩ := failed_writeFile hret
  obtain ⟨hsound, hkeep⟩ := writeFile_sound h data h0
  rw [heq] at hsound hkeep
  have hfree' := written_free L t name83 data
  -- files under other names read as before, whatever happened
  have hothers : ∀ key bs, key ≠ name83 ∨ t.find name83 L.bpb.rootEntryCount 0 = none →
      t.files L key = some bs → (t.written L name83 data).files L key = some bs := by
    intro key bs hkey hbs
    obtain ⟨j, hj, hname⟩ : ∃ j, t.LiveAt L j ∧ (t.ent j).name = key := by
      cases hf : t.find key L.bpb.rootEntryCount 0 with
      | none =>
        unfold Tables.files at hbs
        rw [hf] at hbs
        exact absurd hbs.symm (Option.some_ne_none bs)
      | some j => exact ⟨j, h.find_eq_some_iff.mp hf⟩
    have hne : t.find name83 L.bpb.rootEntryCount 0 ≠ some j := by
      rcases hkey with hkey | hnone
      · exact fun hf => hkey (hname ▸ (h.find_eq_some_iff.mp hf).2)
      · exact fun hf => absurd (hf.symm.trans hnone) (Option.some_ne_none j)
    rw [← hname, files_of_keeps h hsound hj (hkeep j hj hne), hname, hbs]
  -- the file itself, when it was overwritten in place
  have hself : ∀ i, t.find name83 L.bpb.rootEntryCount 0 = some i →
      freeCells t.fat 2 L.cells = [] →
      t.files L name83 = some (t.contents L.cells i) ∧
        (t.written L name83 data).files L name83 =
          some (data.take (t.contents L.cells i).length) := by
    intro i hfind hfree
    obtain ⟨hi, rfl⟩ := h.find_eq_some_iff.mp hfind
    have hfull := hcases.resolve_right fun hn => absurd (hfind.symm.trans hn.2) (Option.some_ne_none i)
    have hi' : (t.written L (t.ent i).name data).LiveAt L i := by
      rw [liveAt_congr (written_ent L t _ data)]
      exact hi
    have hfiles := files_eq_some hsound hi'
    rw [written_ent, contents_overwritten h hdat hdat' hfind hfree hfull] at hfiles
    exact ⟨files_eq_some h hi, hfiles⟩
  constructor
  · rintro ⟨hfree, hfiles⟩
    by_cases hdata : data = []
    · exact Or.inl hdata
    have hk := clustersFor_pos hcb hdata
    rw [hfree'] at hfree
    have hnone : freeCells t.fat 2 L.cells = [] := by
      rcases hcases with hfull | ⟨hle, hfind⟩
      · rw [List.drop_eq_nil_of_le (Nat.le_of_lt hfull)] at hfree
        exact hfree.symm
      · rw [available_of_none hfind] at hfree hle
        have hlen := congrArg List.length hfree
        rw [List.length_drop] at hlen
        omega
    refine Or.inr ⟨hnone, fun old hold => ?_⟩
    cases hfind : t.find name83 L.bpb.rootEntryCount 0 with
    | none =>
      unfold Tables.files at hold
      rw [hfind] at hold
      exact absurd hold.symm (Option.some_ne_none old)
    | some i =>
      obtain ⟨hold', hnew⟩ := hself i hfind hnone
      rw [hold', Option.some.injEq] at hold
      have hsame := hfiles name _ (hname ▸ hold')
      rw [← hname, hnew, Option.some.injEq] at hsame
      rw [← hold, ← hsame]
      exact List.take_prefix _ data
  · rintro (rfl | ⟨hnone, hprefix⟩)
    · -- nothing to write: the only way to fail is a full directory
      have hk : clustersFor L.bpb.clusterBytes ([] : List UInt8).length = 0 :=
        clustersFor_zero hcb
      rw [hk] at hcases hfree'
      obtain ⟨_, hfind⟩ := hcases.resolve_left (Nat.not_lt_zero _)
      rw [hfree', List.drop_zero, available_of_none hfind]
      exact ⟨rfl, fun other bs => hothers _ bs (Or.inr hfind)⟩
    · refine ⟨?_, fun other bs hbs => ?_⟩
      · rw [hfree', hnone]
        rcases hcases with hfull | ⟨hle, hfind⟩
        · exact List.drop_eq_nil_of_le (Nat.le_of_lt hfull)
        · rw [available_of_none hfind, hnone, List.drop_nil]
      · cases hfind : t.find name83 L.bpb.rootEntryCount 0 with
        | none => exact hothers _ bs (Or.inr hfind) hbs
        | some i =>
          by_cases hkey : nameTo83 other = name83
          · obtain ⟨hold, hnew⟩ := hself i hfind hnone
            have hpre := hprefix _ hold
            rw [hkey, hold, Option.some.injEq] at hbs
            rw [hkey, hnew, ← hbs, ← List.prefix_iff_eq_take.mp hpre]
          · exact hothers _ bs (Or.inl hkey) hbs

/-! ## On volumes -/

/-- What `v'` still has of `v`: every file with its contents and its listing, and the
same free clusters. -/
def Unchanged (L : Layout) (v v' : Bytes) : Prop :=
  (∀ (other : CString) bufSize bs,
    (fat12ReadFile L.bpb other bufSize v).out = .done (some bs) →
      (fat12ReadFile L.bpb other bufSize v').out = .done (some bs)) ∧
  (∀ maxEntries, (fat12ListRoot L.bpb maxEntries v').out = (fat12ListRoot L.bpb maxEntries v).out) ∧
  ∀ c, 2 ≤ c → c < L.cells → (fatAt L.bpb v' c = 0 ↔ fatAt L.bpb v c = 0)

variable {v v' : Bytes}

theorem freeCells_eq_iff {next next' : Nat → Nat} {n : Nat} :
    freeCells next' 2 n = freeCells next 2 n ↔
      ∀ c, 2 ≤ c → c < n → (next' c = 0 ↔ next c = 0) := by
  refine ⟨fun h c h2 hc => ?_, freeCells_congr⟩
  have hmem := (Iff.of_eq (congrArg (c ∈ ·) h)).trans mem_freeCells
  rw [mem_freeCells] at hmem
  exact ⟨fun hz => (hmem.mp ⟨h2, hc, hz⟩).2.2, fun hz => (hmem.mpr ⟨h2, hc, hz⟩).2.2⟩

/-- Reading at every length compares contents. -/
theorem reads_iff {o o' : Option (List UInt8)} :
    (∀ bufSize bs, o.map (fun data => data.take bufSize) = some bs →
      o'.map (fun data => data.take bufSize) = some bs) ↔ ∀ bs, o = some bs → o' = some bs := by
  constructor
  · rintro h bs rfl
    cases o' with
    | none => exact absurd (h 0 _ rfl).symm (Option.some_ne_none _)
    | some bs' =>
      have htake : bs'.take (bs.length + bs'.length) = bs.take (bs.length + bs'.length) :=
        Option.some.inj (h _ _ rfl)
      rw [List.take_of_length_le (by omega), List.take_of_length_le (by omega)] at htake
      rw [htake]
  · intro h bufSize bs hbs
    obtain ⟨data, rfl, rfl⟩ := Option.map_eq_some_iff.mp hbs
    rw [h data rfl, Option.map_some]

/-- When a failed write changed nothing, on a sound volume. -/
theorem failed_write_unchanged_iff (hL : L.Full) (h : SoundVolume L v) {name : CString}
    {data : List UInt8} (hret : (fat12WriteFile L.bpb name data v).out = .done (-1)) :
    Unchanged L v (fat12WriteFile L.bpb name data v).state ↔
      data = [] ∨ (∀ c, 2 ≤ c → c < L.cells → fatAt L.bpb v c ≠ 0) ∧
        ∀ bufSize old, (fat12ReadFile L.bpb name bufSize v).out = .done (some old) →
          old <+: data := by
  have hshows := shows_tablesOf L v
  obtain ⟨t, ht⟩ : ∃ t, t = tablesOf L.bpb v := ⟨_, rfl⟩
  have hsound : t.Sound L := ht ▸ h
  rw [← ht] at hshows
  obtain ⟨hr, hshows'⟩ :=
    (total_writeFile hshows name data (hsound.reads _) (room_of_full hL _ _)).of_done hret
  have hsound' := (writeFile_sound hsound data
    (nameTo83_ne_zero name _ (headD_nameTo83_mem name))).1
  rw [(failed_writeFile hr.symm).1] at hshows' hsound'
  generalize (fat12WriteFile L.bpb name data v).state = v' at *
  have hiff := failed_writeFile_iff rfl hsound (fun c h2 hc => length_dat hshows h2 hc)
    (fun c h2 hc => length_dat hshows' h2 hc) hr.symm
  have hlist : ∀ maxEntries, (fat12ListRoot L.bpb maxEntries v').out =
      (fat12ListRoot L.bpb maxEntries v).out := by
    intro maxEntries
    obtain ⟨r', hr', hret', _⟩ := (total_listRoot hshows' maxEntries).returns
    obtain ⟨r, hr, hret, _⟩ := (total_listRoot hshows maxEntries).returns
    rw [hr', hr, hret', hret]
    unfold Tables.listRoot Tables.live
    rw [written_ent]
  have hfree : (∀ c, 2 ≤ c → c < L.cells → (fatAt L.bpb v' c = 0 ↔ fatAt L.bpb v c = 0)) ↔
      freeCells (t.written L (nameTo83 name) data).fat 2 L.cells = freeCells t.fat 2 L.cells := by
    rw [freeCells_eq_iff]
    refine forall_congr' fun c => forall_congr' fun _ => forall_congr' fun hc => ?_
    rw [hshows'.fat c hc, hshows.fat c hc]
  have hnone : (∀ c, 2 ≤ c → c < L.cells → fatAt L.bpb v c ≠ 0) ↔
      freeCells t.fat 2 L.cells = [] := by
    rw [List.eq_nil_iff_forall_not_mem]
    refine forall_congr' fun c => ?_
    rw [mem_freeCells]
    constructor
    · rintro hne ⟨h2, hc, hz⟩
      exact hne h2 hc ((hshows.fat c hc).trans hz)
    · intro hn h2 hc hz
      exact hn ⟨h2, hc, (hshows.fat c hc).symm.trans hz⟩
  have hprefix : (∀ bufSize old, (fat12ReadFile L.bpb name bufSize v).out = .done (some old) →
      old <+: data) ↔ ∀ old, t.files L (nameTo83 name) = some old → old <+: data := by
    simp only [read_out hshows hsound, Outcome.done.injEq]
    constructor
    · intro hp old hold
      refine hp old.length old ?_
      rw [hold, Option.map_some, List.take_length]
    · intro hp bufSize old hold
      obtain ⟨full, hfull, rfl⟩ := Option.map_eq_some_iff.mp hold
      exact (List.take_prefix _ _).trans (hp full hfull)
  rw [hnone, hprefix, ← hiff]
  unfold Unchanged
  rw [hfree]
  simp only [read_out hshows hsound, read_out hshows' hsound', Outcome.done.injEq, reads_iff]
  exact ⟨fun h => ⟨h.2.2, h.1⟩, fun h => ⟨h.2, hlist, h.1⟩⟩

/-- More data than there are clusters does not fit. -/
theorem write_fails_of_too_large (hL : L.Full) (h : SoundVolume L v) (name : CString)
    {data : List UInt8}
    (hbig : L.cells - 2 < clustersFor L.bpb.clusterBytes data.length) :
    (fat12WriteFile L.bpb name data v).out = .done (-1) := by
  have hshows := shows_tablesOf L v
  obtain ⟨r, hr, hret, _⟩ :=
    (total_writeFile hshows name data (h.reads _) (room_of_full hL _ _)).returns
  have hlen : ((tablesOf L.bpb v).available L (nameTo83 name)).length ≤ L.cells - 2 :=
    length_freeCells_le _ _
  rcases writeFile_cases L (tablesOf L.bpb v) (nameTo83 name) data with ⟨_, heq⟩ | ⟨hk, _⟩
  · rw [hr, hret, heq]
  · omega

/-- A new file of 508 clusters, on a disk of 507. -/
def hugeData : List UInt8 := List.replicate (508 * 512) 0

theorem huge_write_fails :
    (fat12WriteFile Ramdisk.bpb xName hugeData Ramdisk.ramdiskInit).out = .done (-1) := by
  refine write_fails_of_too_large Ramdisk.layout_full ramdisk_sound xName ?_
  rw [hugeData, List.length_replicate]
  decide

/-- Failed writes are not atomic: on the fresh ramdisk it takes every free cluster. -/
theorem failed_write_not_atomic :
    ¬ ∀ (calls : List Call) (name : CString) (data : List UInt8),
      (fat12WriteFile Ramdisk.bpb name data
        (after Ramdisk.bpb Ramdisk.ramdiskInit calls)).out = .done (-1) →
      Unchanged Ramdisk.layout (after Ramdisk.bpb Ramdisk.ramdiskInit calls)
        (fat12WriteFile Ramdisk.bpb name data
          (after Ramdisk.bpb Ramdisk.ramdiskInit calls)).state := by
  intro h
  have hun := h [] xName hugeData
  rw [after_nil] at hun
  replace hun := hun huge_write_fails
  rcases (failed_write_unchanged_iff Ramdisk.layout_full ramdisk_sound huge_write_fails).mp hun with
    hnil | ⟨hnone, _⟩
  · exact absurd (congrArg List.length hnil) (by
      rw [hugeData, List.length_replicate]
      decide)
  · obtain ⟨s, t, hs, hc, hbuilt⟩ := Ramdisk.ramdisk_built
    have hmem : 7 ∈ freeCells t.fat 2 509 := by
      rw [hbuilt.free, hc]
      exact List.mem_range'_1.mpr (by decide)
    have hfat := hbuilt.shows.fat 7 (by decide)
    rw [hs, (mem_freeCells.mp hmem).2.2] at hfat
    exact hnone 7 (by decide) (by decide) hfat

/-- A failed write on any volume reachable from the ramdisk changed nothing exactly when
there was nothing to write, or no cluster was free and the data begins with what the
named file, if it exists, held. -/
theorem failed_write_atomic_iff (calls : List Call) (name : CString) (data : List UInt8)
    (hret : (fat12WriteFile Ramdisk.bpb name data
      (after Ramdisk.bpb Ramdisk.ramdiskInit calls)).out = .done (-1)) :
    Unchanged Ramdisk.layout (after Ramdisk.bpb Ramdisk.ramdiskInit calls)
        (fat12WriteFile Ramdisk.bpb name data
          (after Ramdisk.bpb Ramdisk.ramdiskInit calls)).state ↔
      data = [] ∨
        (∀ c, 2 ≤ c → c < 509 →
          fatAt Ramdisk.bpb (after Ramdisk.bpb Ramdisk.ramdiskInit calls) c ≠ 0) ∧
        ∀ bufSize old, (fat12ReadFile Ramdisk.bpb name bufSize
          (after Ramdisk.bpb Ramdisk.ramdiskInit calls)).out = .done (some old) →
            old <+: data :=
  failed_write_unchanged_iff Ramdisk.layout_full
    (after_sound Ramdisk.layout_full ramdisk_sound calls) hret

theorem failed_write_atomic_iff_huge :
    Unchanged Ramdisk.layout Ramdisk.ramdiskInit
        (fat12WriteFile Ramdisk.bpb xName hugeData Ramdisk.ramdiskInit).state ↔
      hugeData = [] ∨
        (∀ c, 2 ≤ c → c < 509 → fatAt Ramdisk.bpb Ramdisk.ramdiskInit c ≠ 0) ∧
        ∀ bufSize old, (fat12ReadFile Ramdisk.bpb xName bufSize
          Ramdisk.ramdiskInit).out = .done (some old) → old <+: hugeData := by
  have h := failed_write_atomic_iff [] xName hugeData
  rw [after_nil] at h
  exact h huge_write_fails

end RainbowOs.Fat12
