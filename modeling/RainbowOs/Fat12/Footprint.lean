import RainbowOs.Fat12.Within
import RainbowOs.Lib.Footprint

/-!
# What a call touches

Every function of the driver has a footprint: what it reads and writes of
the volume is what its log says. With that, a bound on the accesses is a
frame law. The bound here is the boot sector: when the geometry reserves
it, and the sectors it counts reach past the FATs and the root directory,
no call touches a byte below 512, whatever the FAT and the directory hold.
-/

namespace RainbowOs.Fat12

open RainbowOs.Lib

/-- The bytes of an access. -/
def Access.Covers (a : Access) (k : Nat) : Prop := a.off ≤ k ∧ k < a.off + a.len

/-- The accesses of the call are all it does to the volume. -/
abbrev Footprint {α : Type} (p : Fat α) : Prop := Prog.Footprint Access.Covers p

namespace Footprint

variable (g : Bpb)

theorem read {α : Type} {site : Site} {off n : Nat} {f : Bytes → α}
    (hf : ∀ v v' : Bytes, (∀ k, off ≤ k → k < off + n → v' k = v k) → f v' = f v) :
    Footprint ((do Prog.tell ⟨site, off, n⟩; return f (← Prog.get)) : Fat α) := by
  intro v
  refine ⟨fun _ _ => rfl, fun v' hv' => ⟨?_, rfl, fun _ h => h⟩⟩
  have heq := hf v v' fun k hlo hhi => hv' ⟨site, off, n⟩ List.mem_cons_self k ⟨hlo, hhi⟩
  show Outcome.done (f v') = Outcome.done (f v)
  rw [heq]

theorem loadByte (site : Site) (off : Nat) : Footprint (loadByte site off) :=
  read fun _ _ h => h off (Nat.le_refl off) (by omega)

theorem loadBytes (site : Site) (off n : Nat) : Footprint (loadBytes site off n) :=
  read fun _ _ h => Bytes.slice_congr fun k hk => h (off + k) (by omega) (by omega)

theorem read16 (site : Site) (off : Nat) : Footprint (read16 site off) :=
  read fun _ _ h => Bytes.word16_congr (h off (by omega) (by omega)) (h (off + 1) (by omega) (by omega))

theorem read32 (site : Site) (off : Nat) : Footprint (read32 site off) :=
  read fun v v' h => by
    have hlo : v'.word16 off = v.word16 off :=
      Bytes.word16_congr (h off (by omega) (by omega)) (h (off + 1) (by omega) (by omega))
    have hhi : v'.word16 (off + 2) = v.word16 (off + 2) :=
      Bytes.word16_congr (h (off + 2) (by omega) (by omega)) (h (off + 2 + 1) (by omega) (by omega))
    unfold Bytes.word32
    rw [hlo, hhi]

theorem storeBytes (site : Site) (off : Nat) (bs : List UInt8) :
    Footprint (storeBytes site off bs) := by
  intro v
  refine ⟨fun k hk => ?_, fun v' _ => ⟨rfl, rfl, fun k hk => Bytes.store_congr hk⟩⟩
  refine Bytes.store_of_not_mem ?_
  have hout : ¬ (off ≤ k ∧ k < off + bs.length) := hk ⟨site, off, bs.length⟩ List.mem_cons_self
  omega

theorem readFat (site : Site) (cluster : Nat) : Footprint (fat12ReadFat g site cluster) :=
  .bind (read16 site _) fun _ => .pure _

theorem writeFat (cluster value : Nat) : Footprint (fat12WriteFat g cluster value) :=
  .bind (loadByte _ _) fun _ => .bind (loadByte _ _) fun _ => storeBytes _ _ _

theorem maxClusters : Footprint (maxClusters g) := by
  unfold Fat12.maxClusters
  split
  · exact .halt _
  · exact .pure _

theorem freeChainLoop (n cluster : Nat) : Footprint (freeChainLoop g n cluster) := by
  induction n generalizing cluster with
  | zero => exact .pure _
  | succ n ih =>
    rw [Fat12.freeChainLoop]
    split
    · exact .bind (readFat g _ _) fun next => .bind (writeFat g _ _) fun _ => ih next
    · exact .pure _

theorem freeFrom (start : Nat) : Footprint (freeFrom g start) := by
  unfold Fat12.freeFrom
  split
  · exact .bind (maxClusters g) fun n => freeChainLoop g n start
  · exact .pure _

theorem allocLoop (limit fuel c : Nat) : Footprint (allocLoop g limit fuel c) := by
  induction fuel generalizing c with
  | zero => exact .halt _
  | succ fuel ih =>
    rw [Fat12.allocLoop]
    split
    · refine .bind (readFat g _ _) fun val => ?_
      split
      · exact .pure _
      · exact ih _
    · exact .pure _

theorem allocCluster : Footprint (fat12AllocCluster g) :=
  .bind (maxClusters g) fun _ => allocLoop g _ _ _

theorem matchName (off : Nat) (bs : List UInt8) : Footprint (matchName off bs) := by
  induction bs generalizing off with
  | nil => exact .pure _
  | cons b bs ih =>
    rw [Fat12.matchName]
    refine .bind (loadByte _ _) fun c => ?_
    split
    · exact .pure _
    · exact ih _

theorem findEntry (name83 : List UInt8) (n i : Nat) : Footprint (findEntry g name83 n i) := by
  induction n generalizing i with
  | zero => exact .pure _
  | succ n ih =>
    rw [Fat12.findEntry]
    refine .bind (loadByte _ _) fun mark => ?_
    split
    · exact .pure _
    split
    · exact ih _
    refine .bind (loadByte _ _) fun attr => ?_
    split
    · exact ih _
    split
    · exact ih _
    refine .bind (matchName _ _) fun b => ?_
    split
    · exact .pure _
    · exact ih _

theorem findSlot (n i : Nat) : Footprint (findSlot g n i) := by
  induction n generalizing i with
  | zero => exact .pure _
  | succ n ih =>
    rw [Fat12.findSlot]
    refine .bind (loadByte _ _) fun mark => ?_
    split
    · exact .pure _
    · exact ih _

theorem listLoop (n i room : Nat) : Footprint (listLoop g n i room) := by
  induction n generalizing i room with
  | zero => exact .pure _
  | succ n ih =>
    rw [Fat12.listLoop]
    split
    · exact .pure _
    refine .bind (loadByte _ _) fun mark => ?_
    split
    · exact .pure _
    split
    · exact ih _ _
    refine .bind (loadByte _ _) fun attr => ?_
    split
    · exact ih _ _
    split
    · exact ih _ _
    exact .bind (loadBytes _ _ _) fun _ => .bind (read32 _ _) fun _ =>
      .bind (ih _ _) fun _ => .pure _

theorem readLoop (toRead n rd cluster : Nat) : Footprint (readLoop g toRead n rd cluster) := by
  induction n generalizing rd cluster with
  | zero => exact .pure _
  | succ n ih =>
    rw [Fat12.readLoop]
    split
    · exact .bind (loadBytes _ _ _) fun _ => .bind (readFat g _ _) fun _ =>
        .bind (ih _ _) fun _ => .pure _
    · exact .pure _

theorem writeRound (data : List UInt8) (prev written : Nat) :
    Footprint (writeRound g data prev written) := by
  refine .bind (allocCluster g) fun cluster => ?_
  split
  · exact .pure _
  refine .bind ?_ fun _ => .bind (storeBytes _ _ _) fun _ => .bind (writeFat g _ _) fun _ => .pure _
  unfold linkFrom
  split
  · exact writeFat g _ _
  · exact .pure _

theorem writeLoop (data : List UInt8) (fuel first prev written : Nat) :
    Footprint (writeLoop g data fuel first prev written) := by
  induction fuel generalizing first prev written with
  | zero => exact .halt _
  | succ fuel ih =>
    rw [Fat12.writeLoop]
    split
    · refine .bind (writeRound g _ _ _) fun r => ?_
      split
      · exact .pure _
      · exact ih _ _ _
    · exact .pure _

theorem storeEntry (i first size : Nat) : Footprint (storeEntry g i first size) :=
  .bind (storeBytes _ _ _) fun _ => storeBytes _ _ _

theorem updateDir (name83 : List UInt8) (existing : Option Nat) (first size : Nat) :
    Footprint (updateDir g name83 existing first size) := by
  unfold Fat12.updateDir
  split
  · exact .bind (storeEntry g _ _ _) fun _ => .pure _
  refine .bind (findSlot g _ _) fun r => ?_
  split
  · exact .pure _
  · exact .bind (storeBytes _ _ _) fun _ => .bind (storeBytes _ _ _) fun _ =>
      .bind (storeBytes _ _ _) fun _ => .bind (storeEntry g _ _ _) fun _ => .pure _

theorem writeFile (name : CString) (data : List UInt8) :
    Footprint (fat12WriteFile g name data) := by
  refine .bind (findEntry g _ _ _) fun existing => .bind ?_ fun _ =>
    .bind (writeLoop g _ _ _ _ _) fun r => ?_
  · unfold freeExisting
    split
    · exact .pure _
    · exact .bind (read16 _ _) fun start => freeFrom g start
  · split
    · exact .pure _
    · exact updateDir g _ _ _ _

theorem deleteFile (name : CString) : Footprint (fat12DeleteFile g name) := by
  refine .bind (findEntry g _ _ _) fun r => ?_
  split
  · exact .pure _
  · exact .bind (read16 _ _) fun start => .bind (freeFrom g start) fun _ =>
      .bind (storeBytes _ _ _) fun _ => .pure _

theorem readFile (name : CString) (bufSize : Nat) : Footprint (fat12ReadFile g name bufSize) := by
  refine .bind (findEntry g _ _ _) fun r => ?_
  split
  · exact .pure _
  · exact .bind (read32 _ _) fun _ => .bind (read16 _ _) fun _ => .bind (maxClusters g) fun _ =>
      .bind (readLoop g _ _ _ _) fun _ => .pure _

/-- Every call of the driver. -/
theorem call (c : Call) : Footprint (c.run g) := by
  cases c with
  | list n => exact .bind (listLoop g _ _ _) fun _ => .pure _
  | read name n => exact .bind (readFile g name n) fun _ => .pure _
  | write name data => exact .bind (writeFile g name data) fun _ => .pure _
  | delete name => exact .bind (deleteFile g name) fun _ => .pure _

end Footprint

/-! ## The boot sector -/

/-- The boot sector is reserved, the sectors the geometry counts reach past the FATs and
the root directory, and a `uint16_t` counts the clusters that are left. -/
structure Bpb.Regular (g : Bpb) : Prop where
  sector : g.bytesPerSector = 512
  reserved : 0 < g.reservedSectors
  covered : g.reservedSectors + g.numFats * g.sectorsPerFat + g.rootDirSectors ≤ g.totalSectors
  counted : g.dataClusters + 2 < 65536
  total_lt : g.totalSectors < 65536
  cluster_lt : g.sectorsPerCluster < 256
  entries_lt : g.rootEntryCount < 65536

namespace Bpb.Regular

variable {g : Bpb}

theorem fatEntryOffset_le (hg : g.Regular) {c : Nat} (hc : c < 65536) :
    512 ≤ g.fatEntryOffset c := by
  obtain ⟨hsec, hres, hcov, _, htot, _, _⟩ := hg
  have hlt : g.reservedSectors < 65536 := by omega
  unfold Bpb.fatEntryOffset Bpb.fatOffset u32
  rw [hsec, Nat.mod_eq_of_lt (show g.reservedSectors * 512 < 4294967296 by omega),
    Nat.mod_eq_of_lt (by omega)]
  omega

theorem rootDirOffset_eq (hg : g.Regular) :
    g.rootDirOffset = (g.reservedSectors + g.numFats * g.sectorsPerFat) * 512 := by
  obtain ⟨hsec, hres, hcov, _, htot, _, _⟩ := hg
  unfold Bpb.rootDirOffset u32
  rw [hsec]
  omega

theorem direntOffset_le (hg : g.Regular) {i : Nat} (hi : i < g.rootEntryCount) :
    512 ≤ g.direntOffset i ∧ g.direntOffset i + 32 < 4294967296 := by
  have hroot := rootDirOffset_eq hg
  obtain ⟨_, hres, hcov, _, htot, _, hent⟩ := hg
  unfold Bpb.direntOffset u32
  rw [hroot]
  omega

theorem dataStartOffset_eq (hg : g.Regular) :
    g.dataStartOffset =
      (g.reservedSectors + g.numFats * g.sectorsPerFat + g.rootDirSectors) * 512 := by
  have hroot := rootDirOffset_eq hg
  obtain ⟨hsec, hres, hcov, _, htot, _, _⟩ := hg
  unfold Bpb.dataStartOffset u32
  rw [hroot, hsec]
  omega

theorem clusterToOffset_le (hg : g.Regular) {c : Nat} (h2 : 2 ≤ c)
    (hc : c < 0xFF8 ∨ c < g.dataClusters + 2) : 512 ≤ g.clusterToOffset c := by
  have hdata := dataStartOffset_eq hg
  obtain ⟨hsec, hres, hcov, _, htot, hclus, _⟩ := hg
  -- the offset from the start of the data region does not wrap
  have hsmall : (c - 2) * g.clusterBytes < 4294967296 - 65536 * 512 := by
    rcases hc with hc | hc
    · have hle : (c - 2) * g.clusterBytes ≤ 4096 * (256 * 512) := by
        unfold Bpb.clusterBytes
        rw [hsec]
        exact Nat.mul_le_mul (by omega) (Nat.mul_le_mul_right 512 (Nat.le_of_lt hclus))
      omega
    · have hle : (c - 2) * g.clusterBytes ≤ g.dataBytes :=
        Nat.le_trans (Nat.mul_le_mul_right _ (by omega : c - 2 ≤ g.dataClusters))
          (Nat.div_mul_le_self _ _)
      have hbytes : g.dataBytes ≤ g.totalSectors * 512 := by
        unfold Bpb.dataBytes u32
        rw [hdata, hsec]
        omega
      omega
  rw [g.clusterToOffset_eq h2, hdata, u32]
  omega

theorem bounds (hg : g.Regular) : g.Bounds (fun a => 512 ≤ a.off) fun _ => True where
  counted := hg.counted
  divide := fun _ => trivial
  dir := fun hi _ => Nat.le_add_right_of_le (direntOffset_le hg hi).1
  fat := fun _ hc _ => Nat.le_add_right_of_le
    (fatEntryOffset_le hg (Nat.lt_trans hc hg.counted))
  data := fun h2 hc _ => clusterToOffset_le hg h2 (Or.inr hc)

theorem links (hg : g.Regular) : g.Links fun a => 512 ≤ a.off where
  fat := fun _ hc _ => Nat.le_add_right_of_le
    (fatEntryOffset_le hg (Nat.lt_trans hc (by decide)))
  data := fun h2 hc _ => clusterToOffset_le hg h2 (Or.inl hc)

end Bpb.Regular

/-- A program that stays past the boot sector leaves it as it is. -/
theorem Footprint.boot_eq {α : Type} {H : Fault → Prop} {R : α → Prop} {p : Fat α}
    (hp : Footprint p) (hw : Within (fun a => 512 ≤ a.off) H R p) (v : Bytes) {k : Nat}
    (hk : k < 512) : (p v).state k = v k :=
  hp.state_eq fun a ha hcov =>
    absurd ((hw v).1 a ha) (Nat.not_le_of_lt (Nat.lt_of_le_of_lt hcov.1 hk))

end RainbowOs.Fat12
