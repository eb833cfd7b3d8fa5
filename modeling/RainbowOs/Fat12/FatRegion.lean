import RainbowOs.Fat12.Diskfs
import RainbowOs.Fat12.Atomic

/-!
# The FAT region of the persistent volume

When the calls on a formatted volume stay off the directory entries of
other files, and when they do not. While a write finds its clusters among
2..1023, every FAT entry it looks at or changes lies in the FAT sectors,
and the root directory changes in one entry only. The first write that
needs more looks for a free cluster at entry 1024, and that entry lies in
the root directory.
-/

namespace RainbowOs.Fat12

open RainbowOs.Lib RainbowOs.Lib.Linked

variable {L : Layout} {t t' : Tables} {v v' : Bytes} {name83 data : List UInt8}

/-- The FAT entries that `fat12_alloc_cluster` inspects and `fat12_write_fat` modifies lie
in the FAT sectors, before the root directory. -/
def FatConfined (g : Bpb) (log : List Access) : Prop :=
  ∀ a ∈ log, a.site = .alloc ∨ a.site = .writeFat →
    g.fatOffset ≤ a.off ∧ a.off + a.len ≤ g.rootDirOffset

/-- The 32 bytes of directory entry `j` are the same. -/
def SameEntry (g : Bpb) (v v' : Bytes) (j : Nat) : Prop :=
  ∀ k, k < 32 → v' (g.direntOffset j + k) = v (g.direntOffset j + k)

/-- A call changes no byte of the root directory, except those of the one entry that
has the name it is given, before the call or after it. -/
def Call.KeepsDirectory (g : Bpb) (v v' : Bytes) : Call → Prop
  | .write name _ | .delete name => ∃ i, ∀ j, j < g.rootEntryCount → SameEntry g v v' j ∨
      j = i ∧ ((entryAt g v j).name = nameTo83 name ∨ (entryAt g v' j).name = nameTo83 name)
  | _ => ∀ j, j < g.rootEntryCount → SameEntry g v v' j

/-- A write needs no more clusters than there are free among the cells of the layout,
counting those of the file it overwrites. -/
def Call.FitsCells (L : Layout) (v : Bytes) : Call → Prop
  | .write name data => clustersFor L.bpb.clusterBytes data.length ≤
      ((tablesOf L.bpb v).available L (nameTo83 name)).length
  | _ => True

theorem Call.FitsCells.fits {c : Call} (h : c.FitsCells L v) : c.Fits L v := by
  cases c with
  | write name data => exact Or.inl h
  | list _ => trivial
  | read _ _ => trivial
  | delete _ => trivial

/-! ## Calls that find their clusters -/

theorem fatConfined_of_inside {log : List Access} (h : ∀ a ∈ log, Inside L a) :
    FatConfined L.bpb log := by
  intro a ha hsite
  have hin := h a ha
  unfold Inside at hin
  rcases hsite with hsite | hsite
  · rw [hsite] at hin
    exact hin
  · rw [hsite] at hin
    exact hin

/-- A search finds an entry of that name. -/
theorem name_of_find {n i : Nat} (h : t.find name83 n 0 = some i) : (t.ent i).name = name83 := by
  simpa only [decide_eq_true_eq] using List.find?_some h

/-- A write changes one entry at most, the one it finds or the one it makes. -/
theorem writeFile_ent (L : Layout) (t : Tables) (name83 data : List UInt8) :
    ∃ i, ∀ j, (t.writeFile L name83 data).2.ent j = t.ent j ∨
      j = i ∧ ((t.ent j).name = name83 ∨ ((t.writeFile L name83 data).2.ent j).name = name83) := by
  have hsame : ∀ {i e j}, j ≠ i → ((t.written L name83 data).setEnt i e).ent j = t.ent j :=
    fun hji => by rw [setEnt_of_ne hji, written_ent]
  rcases writeFile_cases L t name83 data with
    ⟨_, heq⟩ | ⟨_, ⟨i, hfind, heq⟩ | ⟨_, _, heq⟩ | ⟨i, _, _, heq⟩⟩
  · exact ⟨0, fun j => Or.inl (by rw [heq, written_ent])⟩
  · refine ⟨i, fun j => ?_⟩
    rw [heq]
    by_cases hji : j = i
    · exact Or.inr ⟨hji, Or.inl (hji ▸ name_of_find hfind)⟩
    · exact Or.inl (hsame hji)
  · exact ⟨0, fun j => Or.inl (by rw [heq, written_ent])⟩
  · refine ⟨i, fun j => ?_⟩
    rw [heq]
    by_cases hji : j = i
    · refine Or.inr ⟨hji, Or.inr ?_⟩
      rw [hji, setEnt_self]
      rfl
    · exact Or.inl (hsame hji)

theorem deleteFile_ent (L : Layout) (t : Tables) (name83 : List UInt8) :
    ∃ i, ∀ j, (t.deleteFile L name83).2.ent j = t.ent j ∨ j = i ∧ (t.ent j).name = name83 := by
  unfold Tables.deleteFile
  cases hfind : t.find name83 L.bpb.rootEntryCount 0 with
  | none => exact ⟨0, fun j => Or.inl rfl⟩
  | some i =>
    refine ⟨i, fun j => ?_⟩
    by_cases hji : j = i
    · exact Or.inr ⟨hji, hji ▸ name_of_find hfind⟩
    · refine Or.inl ?_
      show ((t.release L.cells (some i)).setEnt i _).ent j = _
      rw [setEnt_of_ne hji, release_ent]

/-- Entries that mean the same are the same bytes. -/
theorem sameEntry_of_ent (h : Shows L v t) (h' : Shows L v' t') {j : Nat}
    (hj : j < L.bpb.rootEntryCount) (heq : t'.ent j = t.ent j) : SameEntry L.bpb v v' j :=
  fun _ hk => apply_eq_of_entryOf ((h'.ent j hj).trans (heq.trans (h.ent j hj).symm)) hk

/-- A call that finds its clusters among the cells is confined, and returns. -/
theorem Call.confined_of_fits (h : SoundVolume L v) {c : Call} (hfit : c.FitsCells L v) :
    FatConfined L.bpb (c.run L.bpb v).log ∧ c.KeepsDirectory L.bpb v (c.run L.bpb v).state ∧
      SoundVolume L (c.run L.bpb v).state := by
  have hshows := shows_tablesOf L v
  have htotal := Call.run_total h hfit.fits
  obtain ⟨_, _, hsound⟩ := htotal.returns
  refine ⟨fatConfined_of_inside (Prog.wp.log htotal), ?_, hsound⟩
  cases c with
  | list n =>
    have hstate : ((Call.list n).run L.bpb).total (Inside L) (fun _ v' => v' = v) v :=
      Prog.total_seq (total_listRoot hshows n) fun _ v' hr => Prog.total_pure hr.2
    obtain ⟨_, _, hv⟩ := hstate.returns
    rw [hv]
    exact fun _ _ _ _ => rfl
  | read name n =>
    have hstate : ((Call.read name n).run L.bpb).total (Inside L) (fun _ v' => v' = v) v :=
      Prog.total_seq (total_readFile hshows name n (h.reads _)) fun _ v' hr =>
        Prog.total_pure hr.2
    obtain ⟨_, _, hv⟩ := hstate.returns
    rw [hv]
    exact fun _ _ _ _ => rfl
  | write name data =>
    have hstate : ((Call.write name data).run L.bpb).total (Inside L) (fun _ v' => Shows L v'
        ((tablesOf L.bpb v).writeFile L (nameTo83 name) data).2) v :=
      Prog.total_seq (total_writeFile hshows name data (h.reads _) hfit.fits) fun _ v' hr =>
        Prog.total_pure hr.2
    obtain ⟨_, _, hshows'⟩ := hstate.returns
    obtain ⟨i, hi⟩ := writeFile_ent L (tablesOf L.bpb v) (nameTo83 name) data
    refine ⟨i, fun j hj => (hi j).imp (sameEntry_of_ent hshows hshows' hj) fun ⟨hji, hname⟩ =>
      ⟨hji, hname.imp_right fun hn => ?_⟩⟩
    rw [hshows'.ent j hj]
    exact hn
  | delete name =>
    have hstate : ((Call.delete name).run L.bpb).total (Inside L) (fun _ v' => Shows L v'
        ((tablesOf L.bpb v).deleteFile L (nameTo83 name)).2) v :=
      Prog.total_seq (total_deleteFile hshows name (h.reads _)) fun _ v' hr =>
        Prog.total_pure hr.2
    obtain ⟨_, _, hshows'⟩ := hstate.returns
    obtain ⟨i, hi⟩ := deleteFile_ent L (tablesOf L.bpb v) (nameTo83 name)
    exact ⟨i, fun j hj => (hi j).imp (sameEntry_of_ent hshows hshows' hj) fun ⟨hji, hname⟩ =>
      ⟨hji, Or.inl hname⟩⟩

/-! ## Calls that do not -/

/-- The access that leaves the FAT: the first entry past the cells. -/
def Layout.pastCells (L : Layout) : Access := ⟨.alloc, L.bpb.fatEntryOffset L.cells, 2⟩

/-- With no cell free, the search goes on past the cells. -/
theorem allocLoop_reaches (h : Shows L v t) (hL : L.cells < L.bpb.dataClusters + 2)
    (hF : freeCells t.fat 2 L.cells = []) {fuel c : Nat} (h2 : 2 ≤ c) (hc : c ≤ L.cells)
    (hfuel : L.cells - c < fuel) :
    L.pastCells ∈ (allocLoop L.bpb (L.bpb.dataClusters + 2) fuel c v).log := by
  have hmark := L.cells_le_mark
  induction fuel generalizing c with
  | zero => omega
  | succ fuel ih =>
    rw [allocLoop, if_pos (by omega)]
    by_cases hlt : c < L.cells
    · refine (total_readFat h hlt (Or.inl rfl) ⟨rfl, rfl⟩).mem_log
        (Q := fun r v' => r = t.fat c ∧ v' = v) fun r v' hr => ?_
      obtain ⟨rfl, rfl⟩ := hr
      rw [if_neg (ne_zero_of_freeCells_nil hF h2 hlt)]
      have hstep : u16 (c + 1) = c + 1 := Nat.mod_eq_of_lt (by omega)
      rw [hstep]
      exact ih (by omega) (by omega) (by omega)
    · obtain rfl : c = L.cells := by omega
      exact Prog.mem_log_bind (Prog.mem_log_bind (Prog.mem_log_bind List.mem_cons_self))

theorem writeRound_reaches (h : Shows L v t) (hL : L.cells < L.bpb.dataClusters + 2)
    (hF : freeCells t.fat 2 L.cells = []) (data : List UInt8) (prev written : Nat) :
    L.pastCells ∈ (writeRound L.bpb data prev written v).log := by
  have hmark := L.cells_le_mark
  refine Prog.mem_log_bind ?_
  refine (total_maxClusters L (P := Inside L) (Q := fun r v' => r = L.bpb.dataClusters ∧ v' = v)
    ⟨rfl, rfl⟩).mem_log fun r v' hr => ?_
  obtain ⟨rfl, rfl⟩ := hr
  exact allocLoop_reaches h hL hF (Nat.le_refl 2) L.two_le_cells (by omega)

/-- A loop that needs more clusters than are free runs out of cells. -/
theorem writeLoop_reaches (hL : L.cells < L.bpb.dataClusters + 2) (data : List UInt8)
    {fuel : Nat} :
    ∀ {v : Bytes} {t : Tables} (first prev written : Nat), Shows L v t →
      data.length - written < fuel → (prev = 0 ∨ prev < L.cells ∧ t.fat prev ≠ 0) →
      (freeCells t.fat 2 L.cells).length <
        clustersFor L.bpb.clusterBytes (data.length - written) →
      written + (freeCells t.fat 2 L.cells).length * L.bpb.clusterBytes ≤
        (L.cells - 2) * L.bpb.clusterBytes →
      L.pastCells ∈ (writeLoop L.bpb data fuel first prev written v).log := by
  have hcb := L.clusterBytes_pos
  have hwrap := L.data_fits
  induction fuel with
  | zero => intro v t first prev written _ hfuel; omega
  | succ fuel ih =>
    intro v t first prev written h hfuel hprev hmore hspace
    have hlt : written < data.length := by
      refine Nat.lt_of_not_le fun hle => ?_
      rw [Nat.sub_eq_zero_of_le hle, clustersFor_zero hcb] at hmore
      exact absurd hmore (Nat.not_lt_zero _)
    have hk := clustersFor_step hcb (Nat.sub_pos_of_lt hlt)
    rw [writeLoop, if_pos hlt]
    cases hF : freeCells t.fat 2 L.cells with
    | nil => exact Prog.mem_log_bind (writeRound_reaches h hL hF data prev written)
    | cons c F =>
      rw [hF, List.length_cons] at hmore hspace
      rw [Nat.succ_mul] at hspace
      have hc := mem_freeCells.mp (hF ▸ List.mem_cons_self : c ∈ freeCells t.fat 2 L.cells)
      refine (total_writeRound h hF (hprev.imp_right And.left) (by omega)).mem_log
        fun r v' hr => ?_
      obtain ⟨rfl, h'⟩ := hr
      have hnext : u32 (written + min L.bpb.clusterBytes (data.length - written)) =
          written + min L.bpb.clusterBytes (data.length - written) := Nat.mod_eq_of_lt (by omega)
      obtain ⟨hfree, hlast⟩ := freeCells_round hF (hprev.imp_right And.right)
      have hleft : data.length - (written + min L.bpb.clusterBytes (data.length - written)) =
          data.length - written - L.bpb.clusterBytes := by omega
      simp only [hnext]
      exact ih _ c _ h' (by omega) (Or.inr ⟨hc.2.1, hlast⟩)
        (by rw [hfree, hleft]; omega) (by rw [hfree]; omega)

/-- A write that needs more clusters than there are looks past the cells. -/
theorem writeFile_reaches (hL : L.cells < L.bpb.dataClusters + 2) (h : SoundVolume L v)
    {name : CString} {data : List UInt8}
    (hmore : ((tablesOf L.bpb v).available L (nameTo83 name)).length <
      clustersFor L.bpb.clusterBytes data.length) :
    L.pastCells ∈ (fat12WriteFile L.bpb name data v).log := by
  have hshows := shows_tablesOf L v
  have hspace := Nat.mul_le_mul_right L.bpb.clusterBytes
    (length_freeCells_le ((tablesOf L.bpb v).release L.cells
      ((tablesOf L.bpb v).find (nameTo83 name) L.bpb.rootEntryCount 0)).fat L.cells)
  have hfind := total_findEntry hshows (length_nameTo83 name) (n := L.bpb.rootEntryCount) (i := 0)
    (by omega) (Q := fun r v' =>
      r = (tablesOf L.bpb v).find (nameTo83 name) L.bpb.rootEntryCount 0 ∧ v' = v) ⟨rfl, rfl⟩
  refine hfind.mem_log fun ex v₁ hr => ?_
  obtain ⟨rfl, rfl⟩ := hr
  refine (total_freeExisting hshows (fun i hi => Tables.lt_of_find hi)
    fun i hi => h.reads _ i hi).mem_log fun _ v₂ h₂ => ?_
  exact Prog.mem_log_bind (writeLoop_reaches hL data 0 0 0 h₂ (Nat.lt_succ_self _) (Or.inl rfl)
    hmore (by rw [Nat.zero_add]; exact hspace))

/-- The entry past the cells is not confined, where the FAT ends with the cells. -/
theorem not_confined_of_reaches {log : List Access}
    (hend : L.bpb.rootDirOffset < L.bpb.fatEntryOffset L.cells + 2) (h : L.pastCells ∈ log) :
    ¬ FatConfined L.bpb log := by
  intro hconf
  have hin := (hconf _ h (Or.inl rfl)).2
  unfold Layout.pastCells at hin
  simp only at hin
  omega

/-! ## Runs -/

/-- A run is confined exactly as long as every write finds its clusters among the cells. -/
theorem along_confined_iff (hL : L.cells < L.bpb.dataClusters + 2)
    (hend : L.bpb.rootDirOffset < L.bpb.fatEntryOffset L.cells + 2) (h : SoundVolume L v)
    (calls : List Call) :
    Along L.bpb (fun v c => FatConfined L.bpb (c.run L.bpb v).log ∧
      c.KeepsDirectory L.bpb v (c.run L.bpb v).state) v calls ↔
      Along L.bpb (fun v c => c.FitsCells L v) v calls := by
  induction calls generalizing v with
  | nil => exact Iff.rfl
  | cons c calls ih =>
    by_cases hfit : c.FitsCells L v
    · obtain ⟨hconf, hdir, hsound⟩ := Call.confined_of_fits h hfit
      exact ⟨fun hal => ⟨hfit, (ih hsound).mp hal.2⟩,
        fun hal => ⟨⟨hconf, hdir⟩, (ih hsound).mpr hal.2⟩⟩
    · refine ⟨fun hal => absurd hal.1.1 ?_, fun hal => absurd hal.1 hfit⟩
      cases c with
      | write name data =>
        exact not_confined_of_reaches hend
          (Prog.mem_log_bind (writeFile_reaches hL h (Nat.lt_of_not_le hfit)))
      | list _ => exact absurd trivial hfit
      | read _ _ => exact absurd trivial hfit
      | delete _ => exact absurd trivial hfit

/-- In a run from a freshly formatted volume, every FAT entry that an allocation inspects
or a FAT write modifies lies in the FAT sectors, and every call keeps the directory but
for the entry it names, exactly when every write of the run needs no more clusters than
are free among 2..1023, counting those of the file it overwrites. -/
theorem fat_region_intact_iff (v : Bytes) (calls : List Call) :
    Along Diskfs.bpb (fun v c => FatConfined Diskfs.bpb (c.run Diskfs.bpb v).log ∧
      c.KeepsDirectory Diskfs.bpb v (c.run Diskfs.bpb v).state) (Diskfs.formatVolume v) calls ↔
      Along Diskfs.bpb (fun v c => c.FitsCells Diskfs.layout v) (Diskfs.formatVolume v) calls :=
  along_confined_iff Diskfs.cells_lt_limit (by decide) (Diskfs.format_sound v) calls

/-- A new file of 1023 clusters, for which the disk has the room and the FAT has not. -/
def longData : List UInt8 := List.replicate (1023 * 512) 0

/-- The claim fails at the first such write: it inspects an entry in the root directory. -/
theorem fat_region_not_intact :
    ¬ ∀ (v : Bytes) (calls : List Call),
      Along Diskfs.bpb (fun v c => FatConfined Diskfs.bpb (c.run Diskfs.bpb v).log ∧
        c.KeepsDirectory Diskfs.bpb v (c.run Diskfs.bpb v).state)
        (Diskfs.formatVolume v) calls := by
  intro h
  have hal := (along_confined_iff Diskfs.cells_lt_limit (by decide)
    (Diskfs.format_sound Bytes.zeros) _).mp (h Bytes.zeros [.write xName longData])
  have hle : clustersFor 512 longData.length ≤ _ := hal.1
  have hlen := Nat.le_trans hle (length_freeCells_le _ _)
  rw [longData, List.length_replicate] at hlen
  exact absurd hlen (by decide)

end RainbowOs.Fat12
