import RainbowOs.Fat12.Within
import RainbowOs.Fat12.Diskfs

/-!
# Mountable images

`bpb_valid` looks at the jump instruction and the sector size, and
`fat12_init` takes the other fields as they come. `Mountable` is what it
does not look at: what the calls can come to lies in the megabyte. A
directory is read up to its first unused entry. The FAT is searched over
all the clusters that are counted, but of the clusters themselves a write
takes only those that are free, or that it frees; where the data of such a
cluster lies over the FAT, it may free others. On a mountable image every
call returns and stays inside.
-/

namespace RainbowOs.Fat12

open RainbowOs.Lib

/-- The access is inside the megabyte. -/
abbrev InVolume (a : Access) : Prop := a.off + a.len ≤ diskfsSize

/-- The sizes are those of C, and a buffer leaves room for the volume in the address space. -/
def Call.Sized : Call → Prop
  | .write _ data => data.length + diskfsSize ≤ 4294967296
  | .read _ bufSize => bufSize < 4294967296
  | _ => True

/-- Every call on the image returns, without a division by zero, and stays inside. -/
def Robust (v : Bytes) : Prop :=
  ∀ c : Call, c.Sized → (c.run (bpbOf v)).total InVolume (fun _ _ => True) v

/-! ## What the calls come to -/

namespace Bpb

variable (g : Bpb) (c : Nat)

/-- `fat12_alloc_cluster` looks at the cluster, with a counter of 16 bits. -/
def Counted : Prop := 2 ≤ c ∧ c < g.dataClusters + 2 ∧ c < 65536

instance : Decidable (g.Counted c) := inferInstanceAs (Decidable (_ ∧ _ ∧ _))

def FatInside : Prop := g.fatEntryOffset c + 2 ≤ diskfsSize

def DataInside : Prop := g.clusterToOffset c + g.clusterBytes ≤ diskfsSize

def DirInside (i : Nat) : Prop := g.direntOffset i + 32 ≤ diskfsSize

/-- The byte is one of the FAT entry. -/
def InFat (k : Nat) : Prop := g.fatEntryOffset c ≤ k ∧ k < g.fatEntryOffset c + 2

/-- The byte is one of the cluster. -/
def InData (k : Nat) : Prop := g.clusterToOffset c ≤ k ∧ k < g.clusterToOffset c + g.clusterBytes

end Bpb

/-- What the walks along a chain visit: the FAT entries of its first `n` clusters, and the
part of each cluster that belongs to the file. -/
def ChainInside (g : Bpb) (v : Bytes) (size : Nat) : (n read cluster : Nat) → Prop
  | 0, _, _ => True
  | n + 1, read, c =>
    2 ≤ c ∧ c < 0xFF8 → g.FatInside c ∧
      (read < size → g.clusterToOffset c + min g.clusterBytes (size - read) ≤ diskfsSize) ∧
      ChainInside g v size n (read + g.clusterBytes) (fatAt g v c)

/-- The first `n` clusters of a chain. -/
def InChain (g : Bpb) (v : Bytes) : (n cluster c : Nat) → Prop
  | 0, _, _ => False
  | n + 1, cluster, c =>
    (2 ≤ cluster ∧ cluster < 0xFF8) ∧ (c = cluster ∨ InChain g v n (fatAt g v cluster) c)

/-- The search finds entry `i` under the name. -/
def Finds (g : Bpb) (v : Bytes) (name : CString) (i : Nat) : Prop :=
  (findEntry g (nameTo83 name) g.rootEntryCount 0 v).out = .done (some i)

/-- What a write frees before it takes clusters: nothing, or the chain of the file that it replaces. -/
inductive Frees (g : Bpb) (v : Bytes) : (Nat → Prop) → Prop
  | nothing : Frees g v fun _ => False
  | chain {name : CString} {i : Nat} (h : Finds g v name i) :
      Frees g v (InChain g v g.dataClusters (entryAt g v i).first)

/-- Half a byte of the FAT, where each entry has three. -/
def nibbleAt (g : Bpb) (v : Bytes) (n : Nat) : Nat :=
  if n % 2 = 0 then (v (g.fatOffset + n / 2)).toNat % 16 else (v (g.fatOffset + n / 2)).toNat / 16

/-- The half byte lies under the data of the cluster. -/
def Bpb.Covers (g : Bpb) (c n : Nat) : Prop := g.InData c (g.fatOffset + n / 2)

/-- The clusters that a write may take, if it has freed those in `F`: what is free or freed, and what is free when
each half byte of its entry that is not 0 has been overwritten with the data of such a cluster. -/
inductive Takeable (g : Bpb) (v : Bytes) (F : Nat → Prop) : Nat → Prop
  | free {c : Nat} (h : g.Counted c) (hfree : fatAt g v c = 0) : Takeable g v F c
  | freed {c : Nat} (h : g.Counted c) (hF : F c) : Takeable g v F c
  | overwritten {c : Nat} (d : Nat → Nat) (h : g.Counted c)
      (hd : ∀ j, j < 3 → nibbleAt g v (3 * c + j) ≠ 0 → Takeable g v F (d j))
      (hdata : ∀ j, j < 3 → nibbleAt g v (3 * c + j) ≠ 0 → g.Covers (d j) (3 * c + j)) : Takeable g v F c

/-- The clusters that a write takes that has freed nothing. -/
abbrev Free (g : Bpb) (v : Bytes) : Nat → Prop := Takeable g v fun _ => False

/-- The bytes that such a write may change, before it comes to the directory. -/
def Touched (g : Bpb) (v : Bytes) (k : Nat) : Prop := ∃ c, Free g v c ∧ (g.InData c k ∨ g.InFat c k)

/-- A search for a free cluster ends: at the last one that is counted, or where the counter has come round to the
FAT entry 0, which no data changes. -/
def SearchEnds (g : Bpb) (v : Bytes) (T : Nat → Prop) : Prop :=
  g.dataClusters + 2 < 65536 ∨ fatAt g v 0 = 0 ∧ ∀ c, T c → ∀ k, g.InData c k → ¬g.InFat 0 k

/-- What the geometry of an image, its directory and its FAT have to meet. -/
structure Mountable (v : Bytes) : Prop where
  cluster : 0 < (bpbOf v).sectorsPerCluster
  /-- The directory up to the first unused entry. -/
  dir : ∀ i, i < (bpbOf v).rootEntryCount → (∀ k, k < i → v ((bpbOf v).direntOffset k) ≠ 0) →
    (bpbOf v).DirInside i
  /-- The directory up to the first entry that is found unused or deleted after a write. -/
  slot : ∀ i, i < (bpbOf v).rootEntryCount →
    (∀ k, k < i → (v ((bpbOf v).direntOffset k) ≠ 0 ∧ v ((bpbOf v).direntOffset k) ≠ 0xE5) ∨
      Touched (bpbOf v) v ((bpbOf v).direntOffset k)) → (bpbOf v).DirInside i
  chain : ∀ name i, Finds (bpbOf v) v name i →
    ChainInside (bpbOf v) v (entryAt (bpbOf v) v i).size (bpbOf v).dataClusters 0
      (entryAt (bpbOf v) v i).first
  fat : ∀ c, (bpbOf v).Counted c → (bpbOf v).FatInside c
  data : ∀ F, Frees (bpbOf v) v F → ∀ c, Takeable (bpbOf v) v F c → (bpbOf v).DataInside c
  ends : ∀ F, Frees (bpbOf v) v F → SearchEnds (bpbOf v) v (Takeable (bpbOf v) v F)

/-! ## The geometry -/

section Geometry

variable {v : Bytes} (hbps : v.word16 11 = 512)

include hbps

theorem clusterBytes_eq : (bpbOf v).clusterBytes = (bpbOf v).sectorsPerCluster * 512 :=
  congrArg ((bpbOf v).sectorsPerCluster * ·) hbps

theorem clusterBytes_lt : (bpbOf v).clusterBytes ≤ 130560 := by
  have hspc : (bpbOf v).sectorsPerCluster < 256 := (v 13).toNat_lt
  rw [clusterBytes_eq hbps]
  omega

/-- Sectors of 512 bytes leave the FAT far from the end of the address space. -/
theorem fatEntryOffset_eq {c : Nat} (hc : c < 65536) :
    (bpbOf v).fatEntryOffset c = (bpbOf v).fatOffset + (c + c / 2) := by
  have hres : (bpbOf v).reservedSectors < 65536 := v.word16_lt 14
  have hoff : (bpbOf v).fatOffset = (bpbOf v).reservedSectors * 512 := by
    unfold Bpb.fatOffset u32
    rw [bpbOf_bytesPerSector, hbps]
    exact Nat.mod_eq_of_lt (by omega)
  exact Nat.mod_eq_of_lt (by omega)

/-- An entry that begins inside lies inside. -/
theorem direntOffset_lt {i : Nat} : (bpbOf v).DirInside i ↔ (bpbOf v).direntOffset i < diskfsSize := by
  have hsize : diskfsSize = 1048576 := rfl
  unfold Bpb.DirInside Bpb.direntOffset Bpb.rootDirOffset u32
  rw [bpbOf_bytesPerSector, hbps]
  omega

end Geometry

/-- The clusters of a chain hold no more than the address space. -/
theorem chain_lt (g : Bpb) : g.dataClusters * g.clusterBytes < 4294967296 :=
  Nat.lt_of_le_of_lt (Nat.div_mul_le_self _ _) (Nat.mod_lt _ (by decide))

/-- The FAT entries lie one after the other. -/
def Bpb.FatLinear (g : Bpb) : Prop := ∀ c, c < 65536 → g.fatEntryOffset c = g.fatOffset + (c + c / 2)

section Nibbles

variable {g : Bpb} (hlin : g.FatLinear)

include hlin

/-- An entry is its three half bytes, whichever half of a byte it begins with. -/
theorem fatAt_eq_nibbles (v : Bytes) {c : Nat} (hc : c < 65536) :
    fatAt g v c = nibbleAt g v (3 * c) + 16 * nibbleAt g v (3 * c + 1) + 256 * nibbleAt g v (3 * c + 2) := by
  have hlow := (v (g.fatOffset + (c + c / 2))).toNat_lt
  unfold fatAt Bytes.word16 nibbleAt
  rw [hlin c hc]
  rcases Nat.mod_two_eq_zero_or_one c with heven | hodd
  · have h₀ : 3 * c / 2 = c + c / 2 := by omega
    have h₁ : (3 * c + 1) / 2 = c + c / 2 := by omega
    have h₂ : (3 * c + 2) / 2 = c + c / 2 + 1 := by omega
    rw [if_neg (by omega), if_pos (by omega), if_neg (by omega), if_pos (by omega), h₀, h₁, h₂]
    simp only [Nat.add_assoc]
    omega
  · have h₀ : 3 * c / 2 = c + c / 2 := by omega
    have h₁ : (3 * c + 1) / 2 = c + c / 2 + 1 := by omega
    have h₂ : (3 * c + 2) / 2 = c + c / 2 + 1 := by omega
    rw [if_pos hodd, if_neg (by omega), if_pos (by omega), if_neg (by omega), h₀, h₁, h₂]
    simp only [Nat.add_assoc]
    omega

omit hlin in
theorem nibbleAt_lt (v : Bytes) (n : Nat) : nibbleAt g v n < 16 := by
  have hbyte := (v (g.fatOffset + n / 2)).toNat_lt
  unfold nibbleAt
  split <;> omega

theorem fatAt_eq_zero_iff (v : Bytes) {c : Nat} (hc : c < 65536) :
    fatAt g v c = 0 ↔ ∀ j, j < 3 → nibbleAt g v (3 * c + j) = 0 := by
  rw [fatAt_eq_nibbles hlin v hc]
  constructor
  · intro h j hj
    obtain rfl | rfl | rfl : j = 0 ∨ j = 1 ∨ j = 2 := by omega
    · rw [Nat.add_zero]
      omega
    · omega
    · omega
  · intro h
    have h₀ : nibbleAt g v (3 * c) = 0 := h 0 (by decide)
    rw [h₀, h 1 (by decide), h 2 (by decide)]

/-- Equal entries have equal half bytes. -/
theorem nibbleAt_congr {v v' : Bytes} {c j : Nat} (hc : c < 65536) (h : fatAt g v' c = fatAt g v c) (hj : j < 3) :
    nibbleAt g v' (3 * c + j) = nibbleAt g v (3 * c + j) := by
  rw [fatAt_eq_nibbles hlin v hc, fatAt_eq_nibbles hlin v' hc] at h
  have h₀ := nibbleAt_lt (g := g) v (3 * c)
  have h₁ := nibbleAt_lt (g := g) v (3 * c + 1)
  have h₀' := nibbleAt_lt (g := g) v' (3 * c)
  have h₁' := nibbleAt_lt (g := g) v' (3 * c + 1)
  obtain rfl | rfl | rfl : j = 0 ∨ j = 1 ∨ j = 2 := by omega
  · rw [Nat.add_zero]
    omega
  · omega
  · omega

omit hlin in
theorem nibbleAt_of_byte {v v' : Bytes} {n : Nat} (h : v' (g.fatOffset + n / 2) = v (g.fatOffset + n / 2)) :
    nibbleAt g v' n = nibbleAt g v n := by
  unfold nibbleAt
  rw [h]

end Nibbles

/-! ## The directory -/

section Dir

variable {g : Bpb} {v : Bytes}

theorem inVolume_dir {i k n : Nat} {site : Site} (h : g.DirInside i) (hk : k + n ≤ 32) :
    InVolume ⟨site, g.direntOffset i + k, n⟩ := by
  have hle : g.direntOffset i + 32 ≤ diskfsSize := h
  show g.direntOffset i + k + n ≤ diskfsSize
  omega

theorem inside_matchName {i : Nat} (h : g.DirInside i) (bs : List UInt8) {k : Nat} (hk : k + bs.length ≤ 32) :
    (matchName (g.direntOffset i + k) bs).total InVolume (fun _ v' => v' = v) v := by
  induction bs generalizing k with
  | nil => exact Prog.total_pure rfl
  | cons b bs ih =>
    rw [List.length_cons] at hk
    rw [matchName]
    refine Prog.total_bind.mpr (total_loadByte (inVolume_dir h (by omega)) ?_)
    split
    · exact Prog.total_pure rfl
    · exact ih (k := k + 1) (by omega)

/-- The search of a call: it returns, and leaves the image as it is. -/
theorem inside_findEntry (hdir : ∀ i, i < g.rootEntryCount → (∀ k, k < i → v (g.direntOffset k) ≠ 0) →
      g.DirInside i) (name83 : List UInt8) (hname : name83.length = 11) {n i : Nat} (hn : i + n = g.rootEntryCount)
    (hused : ∀ k, k < i → v (g.direntOffset k) ≠ 0) :
    (findEntry g name83 n i).total InVolume
      (fun r v' => v' = v ∧ ∀ j, r = some j → g.DirInside j) v := by
  induction n generalizing i with
  | zero => exact Prog.total_pure ⟨rfl, fun j hj => absurd hj.symm (Option.some_ne_none j)⟩
  | succ n ih =>
    have hi := hdir i (by omega) hused
    rw [findEntry]
    refine Prog.total_bind.mpr (total_loadByte (inVolume_dir (k := 0) hi (by decide)) ?_)
    split
    · exact Prog.total_pure ⟨rfl, fun j hj => absurd hj.symm (Option.some_ne_none j)⟩
    next hmark =>
    have hnext : ∀ k, k < i + 1 → v (g.direntOffset k) ≠ 0 := by
      intro k hk
      rcases Nat.lt_succ_iff_lt_or_eq.mp hk with hlt | rfl
      · exact hused k hlt
      · exact hmark
    have ih := ih (i := i + 1) (by omega) hnext
    split
    · exact ih
    refine Prog.total_bind.mpr (total_loadByte (inVolume_dir hi (by decide)) ?_)
    split
    · exact ih
    split
    · exact ih
    refine Prog.total_seq (inside_matchName (k := 0) hi name83 (by omega)) fun b v' hv' => ?_
    rw [hv']
    split
    · exact Prog.total_pure ⟨rfl, fun j hj => Option.some.inj hj ▸ hi⟩
    · exact ih

theorem inside_find (hdir : ∀ i, i < g.rootEntryCount → (∀ k, k < i → v (g.direntOffset k) ≠ 0) →
      g.DirInside i) (name : CString) :
    (findEntry g (nameTo83 name) g.rootEntryCount 0).total InVolume (fun r v' => v' = v ∧
      ∀ i, r = some i → g.DirInside i ∧ Finds g v name i) v := by
  have h := inside_findEntry hdir (nameTo83 name) (length_nameTo83 name) (Nat.zero_add _)
    fun k hk => absurd hk (Nat.not_lt_zero k)
  obtain ⟨r, hr, hv, hi⟩ := h.returns
  refine ⟨h.log, ?_⟩
  rw [hr]
  exact ⟨hv, fun i hri => ⟨hi i hri, by rw [Finds, hr, hri]⟩⟩

theorem inside_listLoop (hdir : ∀ i, i < g.rootEntryCount → (∀ k, k < i → v (g.direntOffset k) ≠ 0) →
      g.DirInside i) (room : Nat) {n i : Nat} (hn : i + n = g.rootEntryCount)
    (hused : ∀ k, k < i → v (g.direntOffset k) ≠ 0) :
    (listLoop g n i room).total InVolume (fun _ _ => True) v := by
  induction n generalizing i room with
  | zero => exact Prog.total_pure trivial
  | succ n ih =>
    have hi := hdir i (by omega) hused
    rw [listLoop]
    split
    · exact Prog.total_pure trivial
    refine Prog.total_bind.mpr (total_loadByte (inVolume_dir (k := 0) hi (by decide)) ?_)
    split
    · exact Prog.total_pure trivial
    next hmark =>
    have hnext : ∀ k, k < i + 1 → v (g.direntOffset k) ≠ 0 := by
      intro k hk
      rcases Nat.lt_succ_iff_lt_or_eq.mp hk with hlt | rfl
      · exact hused k hlt
      · exact hmark
    split
    · exact ih room (by omega) hnext
    refine Prog.total_bind.mpr (total_loadByte (inVolume_dir hi (by decide)) ?_)
    split
    · exact ih room (by omega) hnext
    split
    · exact ih room (by omega) hnext
    refine Prog.total_bind.mpr (total_loadBytes (inVolume_dir (k := 0) hi (by decide)) ?_)
    refine Prog.total_bind.mpr (total_read32 (inVolume_dir hi (by decide)) ?_)
    exact Prog.total_seq (ih (room - 1) (by omega) hnext) fun _ _ _ => Prog.total_pure trivial

theorem inside_storeEntry {i : Nat} (h : g.DirInside i) (first size : Nat) :
    (storeEntry g i first size).total InVolume (fun _ _ => True) v := by
  refine Prog.total_bind.mpr (total_storeBytes (inVolume_dir h ?_) (total_storeBytes (inVolume_dir h ?_) trivial))
  · exact Bytes.length_le16 first ▸ (by decide : firstClusterField + 2 ≤ 32)
  · exact Bytes.length_le32 size ▸ (by decide : sizeField + 4 ≤ 32)

end Dir

/-! ## The walks along a chain -/

section Walks

variable {g : Bpb} {v v' : Bytes}

theorem inside_readFat {site : Site} {c : Nat} {Q : Nat → Bytes → Prop} (h : g.FatInside c) (hQ : Q (fatAt g v c) v) :
    (fat12ReadFat g site c).total InVolume Q v := Prog.total_bind.mpr (total_read16 h (Prog.total_pure hQ))

theorem inside_writeFat {c value : Nat} {Q : Unit → Bytes → Prop} (h : g.FatInside c)
    (hQ : Q () (writtenFat g v c value)) : (fat12WriteFat g c value).total InVolume Q v := by
  have hle : g.fatEntryOffset c + 2 ≤ diskfsSize := h
  have hfirst : InVolume ⟨.writeFat, g.fatEntryOffset c, 1⟩ := Nat.le_of_succ_le hle
  refine Prog.total_bind.mpr (total_loadByte hfirst (Prog.total_bind.mpr (total_loadByte hle
    (total_storeBytes ?_ hQ))))
  rw [length_packFat]
  exact hle

/-- Reading a chain that stays inside. -/
theorem inside_readChain {size toRead n rd c : Nat} (hsize : toRead ≤ size)
    (hmod : rd + n * g.clusterBytes < 4294967296) (h : ChainInside g v size n rd c) :
    (readLoop g toRead n rd c).total InVolume (fun _ _ => True) v := by
  induction n generalizing rd c with
  | zero => exact Prog.total_pure trivial
  | succ n ih =>
    rw [readLoop]
    split
    · next hc =>
      obtain ⟨hlt, hlink⟩ := hc
      obtain ⟨hfat, hdata, hrest⟩ := h hlink
      have hdata := hdata (Nat.lt_of_lt_of_le hlt hsize)
      rw [Nat.succ_mul] at hmod
      have hstep : u32 (rd + g.clusterBytes) = rd + g.clusterBytes := Nat.mod_eq_of_lt (by omega)
      have hchunk : (if rd + g.clusterBytes > toRead then toRead - rd else g.clusterBytes) ≤
          min g.clusterBytes (size - rd) := by
        split <;> omega
      rw [hstep]
      refine Prog.total_bind.mpr (total_loadBytes ?_ (Prog.total_bind.mpr (inside_readFat hfat ?_)))
      · exact Nat.le_trans (Nat.add_le_add_left hchunk _) hdata
      · refine Prog.total_seq (Q := fun _ _ => True) ?_ fun _ _ _ => Prog.total_pure trivial
        by_cases hlast : rd + g.clusterBytes > toRead
        · rw [if_pos hlast, u32, Nat.mod_eq_of_lt (by omega)]
          cases n with
          | zero => exact Prog.total_pure trivial
          | succ n =>
            rw [readLoop, if_neg (by omega)]
            exact Prog.total_pure trivial
        · rw [if_neg hlast, hstep]
          exact ih (by omega) hrest
    · exact Prog.total_pure trivial

/-- What has been freed of the chain from `v` on: entries of `P`, and nothing else has changed. -/
def FreedOf (g : Bpb) (v : Bytes) (P : Nat → Prop) (v' : Bytes) : Prop :=
  ∀ e, e < 65536 → fatAt g v' e = fatAt g v e ∨ P e ∧ fatAt g v' e = 0

/-- Freeing a chain that stays inside: what is read on the way is the link the image holds,
or the 0 that was written before. -/
theorem inside_freeChain (hlin : g.FatLinear) {P : Nat → Prop} {size n rd c d : Nat}
    (h : ChainInside g v size n rd c) (hd : d = c ∨ d = 0) (hP : ∀ e, InChain g v n c e → P e)
    (hv : FreedOf g v P v') :
    (freeChainLoop g n d).total InVolume (fun _ v'' => FreedOf g v P v'') v' := by
  induction n generalizing v' rd c d with
  | zero => exact Prog.total_pure hv
  | succ n ih =>
    rw [freeChainLoop]
    split
    · next hlink =>
      obtain rfl : d = c := hd.resolve_right (by omega)
      obtain ⟨hfat, _, hrest⟩ := h hlink
      have hP' : ∀ e, InChain g v n (fatAt g v d) e → P e := fun e he => hP e ⟨hlink, .inr he⟩
      refine Prog.total_bind.mpr (inside_readFat hfat (Prog.total_bind.mpr (inside_writeFat hfat ?_)))
      refine ih hrest ?_ hP' fun e he => ?_
      · exact (hv d (by omega)).imp_right And.right
      · by_cases hed : e = d
        · subst hed
          exact .inr ⟨hP e ⟨hlink, .inl rfl⟩, fatAt_writtenFat_self g v' e 0⟩
        · rw [fatAt_writtenFat_of_ne v' 0 (hlin d (by omega)) (hlin e he) hed]
          exact hv e he
    · exact Prog.total_pure hv

theorem inside_maxClusters (hcb : 0 < g.clusterBytes) {Q : Nat → Bytes → Prop} (hQ : Q g.dataClusters v) :
    (maxClusters g).total InVolume Q v := by
  unfold maxClusters
  rw [if_neg (Nat.ne_of_gt hcb)]
  exact Prog.total_pure hQ

theorem inside_freeFrom (hcb : 0 < g.clusterBytes) (hlin : g.FatLinear) {size start : Nat}
    (h : ChainInside g v size g.dataClusters 0 start) :
    (freeFrom g start).total InVolume
      (fun _ v' => FreedOf g v (InChain g v g.dataClusters start) v') v := by
  unfold freeFrom
  split
  · exact Prog.total_bind.mpr (inside_maxClusters hcb
      (inside_freeChain hlin h (.inl rfl) (fun _ he => he) fun _ _ => .inl rfl))
  · exact Prog.total_pure fun _ _ => .inl rfl

end Walks

/-! ## The clusters that a write takes -/

section Takes

variable {g : Bpb} {v v₁ v' : Bytes} {F : Nat → Prop}

theorem Takeable.counted {c : Nat} (h : Takeable g v F c) : g.Counted c := by
  cases h with
  | free h _ => exact h
  | freed h _ => exact h
  | overwritten _ h _ _ => exact h

/-- What is free after the freeing was free before, or is freed. -/
theorem Takeable.of_freed (hlin : g.FatLinear) (hv : FreedOf g v F v₁) {c : Nat} (h : Free g v₁ c) :
    Takeable g v F c := by
  induction h with
  | free hc hfree =>
    rcases hv _ hc.2.2 with hsame | ⟨hF, -⟩
    · exact .free hc (hsame.symm.trans hfree)
    · exact .freed hc hF
  | freed _ hF => exact hF.elim
  | overwritten d hc _ hdata ih =>
    rcases hv _ hc.2.2 with hsame | ⟨hF, -⟩
    · have hnibble : ∀ j, j < 3 → nibbleAt g v₁ _ = _ := fun j hj => nibbleAt_congr hlin hc.2.2 hsame hj
      exact .overwritten d hc (fun j hj hne => ih j hj (hnibble j hj ▸ hne))
        fun j hj hne => hdata j hj (hnibble j hj ▸ hne)
    · exact .freed hc hF

/-- What a volume has to meet for a write that has nothing more to free. -/
structure Writable (g : Bpb) (v : Bytes) : Prop where
  cluster : 0 < g.clusterBytes
  linear : g.FatLinear
  fat : ∀ c, g.Counted c → g.FatInside c
  data : ∀ c, Free g v c → g.DataInside c
  ends : SearchEnds g v (Free g v)

theorem Writable.of_freed (hcb : 0 < g.clusterBytes) (hlin : g.FatLinear)
    (hfat : ∀ c, g.Counted c → g.FatInside c) (hdata : ∀ c, Takeable g v F c → g.DataInside c)
    (hends : SearchEnds g v (Takeable g v F)) (hv : FreedOf g v F v₁) : Writable g v₁ where
  cluster := hcb
  linear := hlin
  fat := hfat
  data := fun c hc => hdata c (.of_freed hlin hv hc)
  ends := by
    refine hends.imp_right fun ⟨hzero, hkept⟩ => ⟨?_, fun c hc => hkept c (.of_freed hlin hv hc)⟩
    rcases hv 0 (by decide) with hsame | ⟨-, hfreed⟩
    · exact hsame.trans hzero
    · exact hfreed

/-- What a write has done to the volume while it takes clusters. -/
structure Taken (g : Bpb) (v v' : Bytes) : Prop where
  nibbles : ∀ c, g.Counted c → ∀ j, j < 3 → nibbleAt g v' (3 * c + j) = 0 →
    Free g v c ∨ nibbleAt g v (3 * c + j) = 0 ∨ ∃ d, Free g v d ∧ g.Covers d (3 * c + j)
  bytes : ∀ k, v' k = v k ∨ Touched g v k
  zero : (∀ c, Free g v c → ∀ k, g.InData c k → ¬g.InFat 0 k) → fatAt g v' 0 = fatAt g v 0

theorem Taken.refl (g : Bpb) (v : Bytes) : Taken g v v :=
  ⟨fun _ _ _ _ h => .inr (.inl h), fun _ => .inl rfl, fun _ => rfl⟩

/-- What is found free may be taken. -/
theorem Taken.fat (hlin : g.FatLinear) (ht : Taken g v v') {c : Nat} (hc : g.Counted c) (hfree : fatAt g v' c = 0) :
    Free g v c := by
  by_cases htaken : Free g v c
  · exact htaken
  have hcovered : ∀ j, ∃ d, j < 3 → nibbleAt g v (3 * c + j) ≠ 0 → Free g v d ∧ g.Covers d (3 * c + j) := by
    intro j
    by_cases hj : j < 3 ∧ nibbleAt g v (3 * c + j) ≠ 0
    · have hzero := (fatAt_eq_zero_iff hlin v' hc.2.2).mp hfree j hj.1
      obtain ⟨d, hd⟩ := ((ht.nibbles c hc j hj.1 hzero).resolve_left htaken).resolve_left hj.2
      exact ⟨d, fun _ _ => hd⟩
    · exact ⟨0, fun hlt hne => absurd ⟨hlt, hne⟩ hj⟩
  choose d hd using hcovered
  exact .overwritten d hc (fun j hj hne => (hd j hj hne).1) fun j hj hne => (hd j hj hne).2

/-- A store to the FAT entry of a cluster that is taken. -/
theorem Taken.writtenFat (hlin : g.FatLinear) (ht : Taken g v v') {c : Nat} (hc : Free g v c) (value : Nat) :
    Taken g v (writtenFat g v' c value) where
  nibbles := fun d hd j hj hzero => by
    by_cases hdc : d = c
    · exact .inl (hdc ▸ hc)
    · have hsame := fatAt_writtenFat_of_ne v' value (hlin c hc.counted.2.2) (hlin d hd.2.2) hdc
      rw [nibbleAt_congr hlin hd.2.2 hsame hj] at hzero
      exact ht.nibbles d hd j hj hzero
  bytes := fun k => by
    by_cases hk : g.InFat c k
    · exact .inr ⟨c, hc, .inr hk⟩
    · have hout : k < g.fatEntryOffset c ∨ g.fatEntryOffset c + 2 ≤ k := by
        unfold Bpb.InFat at hk
        omega
      rw [writtenFat_of_not_mem hout]
      exact ht.bytes k
  zero := fun h => by
    have hne : 0 ≠ c := by
      have h2 := hc.counted.1
      omega
    rw [fatAt_writtenFat_of_ne v' value (hlin c hc.counted.2.2) (hlin 0 (by decide)) hne]
    exact ht.zero h

/-- A store to a cluster that is taken. -/
theorem Taken.store (ht : Taken g v v') {c : Nat} (hc : Free g v c) {bs : List UInt8}
    (hbs : bs.length ≤ g.clusterBytes) : Taken g v (v'.store (g.clusterToOffset c) bs) := by
  have hstore : ∀ k, ¬g.InData c k → v'.store (g.clusterToOffset c) bs k = v' k := by
    intro k hk
    refine Bytes.store_of_not_mem ?_
    unfold Bpb.InData at hk
    omega
  refine ⟨fun d hd j hj hzero => ?_, fun k => ?_, fun h => ?_⟩
  · by_cases hover : g.Covers c (3 * d + j)
    · exact .inr (.inr ⟨c, hc, hover⟩)
    · rw [nibbleAt_of_byte (hstore _ hover)] at hzero
      exact ht.nibbles d hd j hj hzero
  · by_cases hk : g.InData c k
    · exact .inr ⟨c, hc, .inl hk⟩
    · rw [hstore k hk]
      exact ht.bytes k
  · refine (fatAt_congr (hstore _ fun hk => h c hc _ hk ?_) (hstore _ fun hk => h c hc _ hk ?_)).trans (ht.zero h)
    · exact ⟨Nat.le_refl _, by omega⟩
    · exact ⟨Nat.le_succ _, Nat.lt_succ_self _⟩

variable (hw : Writable g v)

include hw

theorem inside_allocCluster (ht : Taken g v v') :
    (fat12AllocCluster g).total InVolume (fun r v'' => v'' = v' ∧ (r = 0 ∨ Free g v r)) v' := by
  -- the fuel left is what the counter has left of its range, and one round more
  have hloop : ∀ fuel c, 2 ≤ c → c < 65536 → c + fuel = 65538 → c ≤ g.dataClusters + 2 →
      (allocLoop g (g.dataClusters + 2) fuel c).total InVolume
        (fun r v'' => v'' = v' ∧ (r = 0 ∨ Free g v r)) v' := by
    intro fuel
    induction fuel with
    | zero =>
      intro c h2 hc hfuel _
      omega
    | succ fuel ih =>
      intro c h2 hc hfuel hle
      rw [allocLoop]
      split
      · next hlt =>
        have hcount : g.Counted c := ⟨h2, hlt, hc⟩
        refine Prog.total_bind.mpr (inside_readFat (hw.fat c hcount) ?_)
        split
        · next hfree => exact Prog.total_pure ⟨rfl, .inr (ht.fat hw.linear hcount hfree)⟩
        · by_cases hlast : c + 1 < 65536
          · have hstep : u16 (c + 1) = c + 1 := Nat.mod_eq_of_lt hlast
            rw [hstep]
            exact ih _ (by omega) hlast (by omega) hlt
          · -- the counter comes round to the first entry of the FAT, which is 0
            obtain rfl : c = 65535 := by omega
            obtain rfl : fuel = 2 := by omega
            obtain ⟨hzero, hkept⟩ := hw.ends.resolve_left (by omega)
            have hfirst : g.FatInside 0 := by
              have h2 : g.FatInside 2 := hw.fat 2 ⟨Nat.le_refl 2, by omega, by decide⟩
              unfold Bpb.FatInside at h2 ⊢
              rw [hw.linear 2 (by decide)] at h2
              rw [hw.linear 0 (by decide)]
              omega
            have hstep : u16 (65535 + 1) = 0 := rfl
            rw [hstep, allocLoop, if_pos (by omega)]
            refine Prog.total_bind.mpr (inside_readFat hfirst ?_)
            rw [if_pos ((ht.zero hkept).trans hzero)]
            exact Prog.total_pure ⟨rfl, .inl rfl⟩
      · exact Prog.total_pure ⟨rfl, .inl rfl⟩
  exact Prog.total_bind.mpr (inside_maxClusters hw.cluster
    (hloop _ _ (Nat.le_refl 2) (by decide) rfl (Nat.le_add_left 2 _)))

/-- A round that finds a cluster moves what is left of the data, a cluster at most. -/
theorem inside_writeRound (ht : Taken g v v') (data : List UInt8) {prev : Nat} (hprev : prev = 0 ∨ Free g v prev)
    (written : Nat) :
    (writeRound g data prev written).total InVolume (fun r v'' => Taken g v v'' ∧ ∀ c k, r = some (c, k) →
      Free g v c ∧ k = if u32 (written + g.clusterBytes) > data.length then data.length - written
        else g.clusterBytes) v' := by
  refine Prog.total_seq (inside_allocCluster hw ht) fun cluster v'' hr => ?_
  obtain ⟨rfl, hfree⟩ := hr
  split
  · exact Prog.total_pure ⟨ht, fun c k h => absurd h.symm (Option.some_ne_none _)⟩
  next hne =>
  have hfree := hfree.resolve_left hne
  have hlink : (linkFrom g prev cluster).total InVolume (fun _ v'' => Taken g v v'') v'' := by
    unfold linkFrom
    split
    · next hp =>
      have hp := hprev.resolve_left hp
      exact inside_writeFat (hw.fat prev hp.counted) (ht.writtenFat hw.linear hp cluster)
    · exact Prog.total_pure ht
  refine Prog.total_seq hlink fun _ v₂ ht₂ => ?_
  have hchunk : ((data.drop written).take (if u32 (written + g.clusterBytes) > data.length then
      data.length - written else g.clusterBytes)).length ≤ g.clusterBytes :=
    Nat.le_trans (List.length_take_le _ _) chunk_le
  have hdata : g.clusterToOffset cluster + g.clusterBytes ≤ diskfsSize := hw.data cluster hfree
  refine Prog.total_bind.mpr (total_storeBytes (Nat.le_trans (Nat.add_le_add_left hchunk _) hdata) ?_)
  refine Prog.total_bind.mpr (inside_writeFat (hw.fat cluster hfree.counted) (Prog.total_pure
    ⟨(ht₂.store hfree hchunk).writtenFat hw.linear hfree 0xFFF, fun c k h => ?_⟩))
  obtain ⟨rfl, rfl⟩ := Prod.mk.inj (Option.some.inj h)
  exact ⟨hfree, rfl⟩

theorem inside_writeLoop (ht : Taken g v v') (data : List UInt8) {fuel first prev written : Nat}
    (hprev : prev = 0 ∨ Free g v prev) (hend : Within.WritesOut g data fuel written) :
    (writeLoop g data fuel first prev written).total InVolume (fun _ v'' => Taken g v v'') v' := by
  induction fuel generalizing v' first prev written with
  | zero => exact absurd hend.2.2.2 (Nat.not_lt_zero _)
  | succ fuel ih =>
    rw [writeLoop]
    split
    · next hlt =>
      refine Prog.total_seq (inside_writeRound hw ht data hprev written) fun r v'' hr => ?_
      obtain ⟨ht', hr⟩ := hr
      split
      · exact Prog.total_pure ht'
      · next c k =>
        obtain ⟨hc, hk⟩ := hr c k rfl
        refine ih ht' (.inr hc) ?_
        obtain ⟨hpos, hsum, hle, hfuel⟩ := hend
        have hmod : u32 (written + g.clusterBytes) = written + g.clusterBytes :=
          Nat.mod_eq_of_lt (by omega)
        rw [hmod] at hk
        have hstep : 0 < k ∧ written + k ≤ data.length := by
          rw [hk]
          split <;> omega
        have hmod' : u32 (written + k) = written + k := Nat.mod_eq_of_lt (by omega)
        rw [hmod']
        exact ⟨hpos, hsum, hstep.2, by omega⟩
    · exact Prog.total_pure ht

omit hw

/-- The search for a slot, after the clusters are taken. -/
theorem inside_findSlot (ht : Taken g v v') (hslot : ∀ i, i < g.rootEntryCount →
      (∀ k, k < i → (v (g.direntOffset k) ≠ 0 ∧ v (g.direntOffset k) ≠ 0xE5) ∨ Touched g v (g.direntOffset k)) →
      g.DirInside i) {n i : Nat} (hn : i + n = g.rootEntryCount)
    (hused : ∀ k, k < i → v' (g.direntOffset k) ≠ 0 ∧ v' (g.direntOffset k) ≠ 0xE5) :
    (findSlot g n i).total InVolume (fun r _ => ∀ j, r = some j → g.DirInside j) v' := by
  induction n generalizing i with
  | zero => exact Prog.total_pure fun j hj => absurd hj.symm (Option.some_ne_none j)
  | succ n ih =>
    have hi : g.DirInside i := by
      refine hslot i (by omega) fun k hk => ?_
      rcases ht.bytes (g.direntOffset k) with hsame | htouched
      · exact .inl (hsame ▸ hused k hk)
      · exact .inr htouched
    rw [findSlot]
    refine Prog.total_bind.mpr (total_loadByte (inVolume_dir (k := 0) hi (by decide)) ?_)
    split
    · exact Prog.total_pure fun j hj => Option.some.inj hj ▸ hi
    next hmark =>
    refine ih (by omega) fun k hk => ?_
    rcases Nat.lt_succ_iff_lt_or_eq.mp hk with hlt | rfl
    · exact hused k hlt
    · exact not_or.mp hmark

end Takes

/-! ## The calls -/

theorem total_then {α β : Type} {p : Fat α} {f : α → β} {P : Access → Prop} {Q : α → Bytes → Prop} {v : Bytes}
    (h : p.total P Q v) : (do return f (← p) : Fat β).total P (fun _ _ => True) v :=
  Prog.total_seq h fun _ _ _ => Prog.total_pure trivial

theorem inside_updateNew {g : Bpb} {v : Bytes} {name83 : List UInt8} (hname : name83.length = 11) (first size : Nat)
    (hslot : (findSlot g g.rootEntryCount 0).total InVolume (fun r _ => ∀ j, r = some j → g.DirInside j) v) :
    (updateDir g name83 none first size).total InVolume (fun _ _ => True) v := by
  unfold updateDir
  refine Prog.total_seq hslot fun r v' hr => ?_
  split
  · exact Prog.total_pure trivial
  · next i =>
    have hi := hr i rfl
    refine Prog.total_bind.mpr (total_storeBytes (inVolume_dir (k := 0) hi ?_) (Prog.total_bind.mpr
      (total_storeBytes (inVolume_dir (k := 0) hi ?_) (Prog.total_bind.mpr (total_storeBytes (inVolume_dir hi ?_)
        (Prog.total_seq (inside_storeEntry hi first size) fun _ _ _ => Prog.total_pure trivial))))))
    · exact List.length_replicate ▸ (by decide : 0 + 32 ≤ 32)
    · exact hname ▸ (by decide : 0 + 11 ≤ 32)
    · decide

section Calls

variable {v : Bytes} (hbps : v.word16 11 = 512) (hm : Mountable v)

include hbps hm

theorem Mountable.clusterBytes_pos : 0 < (bpbOf v).clusterBytes := by
  have hspc := hm.cluster
  rw [clusterBytes_eq hbps]
  omega

theorem Mountable.writable {F : Nat → Prop} (hF : Frees (bpbOf v) v F) {v₁ : Bytes}
    (hv : FreedOf (bpbOf v) v F v₁) : Writable (bpbOf v) v₁ :=
  .of_freed (hm.clusterBytes_pos hbps) (fun _ => fatEntryOffset_eq hbps) hm.fat (hm.data F hF) (hm.ends F hF) hv

/-- The allocation of a write ends, on whatever it finds freed. -/
theorem Mountable.inside_write {v₁ : Bytes} (hw : Writable (bpbOf v) v₁) {data : List UInt8}
    (hfits : data.length + diskfsSize ≤ 4294967296) :
    (writeLoop (bpbOf v) data (data.length + 1) 0 0 0).total InVolume
      (fun _ v' => Taken (bpbOf v) v₁ v') v₁ := by
  have hcb := clusterBytes_lt hbps
  refine inside_writeLoop hw (.refl _ _) data (.inl rfl) ⟨hm.clusterBytes_pos hbps, ?_, Nat.zero_le _,
    Nat.lt_succ_self _⟩
  exact Nat.le_trans (Nat.add_le_add_left (Nat.le_trans hcb (by decide)) _) hfits

theorem Mountable.robust : Robust v := by
  have hcb := hm.clusterBytes_pos hbps
  have hlin : (bpbOf v).FatLinear := fun _ => fatEntryOffset_eq hbps
  intro c hsized
  cases c with
  | list n =>
    exact total_then (inside_listLoop hm.dir n (Nat.zero_add _) fun k hk => absurd hk (Nat.not_lt_zero k))
  | read name n =>
    refine total_then (Q := fun _ _ => True) (Prog.total_seq (inside_find hm.dir name) fun r v' hr => ?_)
    obtain ⟨rfl, hr⟩ := hr
    cases r with
    | none => exact Prog.total_pure trivial
    | some i =>
      obtain ⟨hi, hfinds⟩ := hr i rfl
      refine Prog.total_bind.mpr (total_read32 (inVolume_dir hi (by decide)) (Prog.total_bind.mpr
        (total_read16 (inVolume_dir hi (by decide)) (Prog.total_bind.mpr (inside_maxClusters hcb ?_)))))
      refine Prog.total_seq (inside_readChain ?_ ?_ (hm.chain name i hfinds)) fun _ _ _ =>
        Prog.total_pure trivial
      · show (if _ < n then _ else n) ≤ (entryAt (bpbOf v') v' i).size
        split
        · exact Nat.le_refl _
        · next h => exact Nat.le_of_not_lt h
      · rw [Nat.zero_add]
        exact chain_lt _
  | write name data =>
    refine total_then (Q := fun _ _ => True) (Prog.total_seq (inside_find hm.dir name) fun r v' hr => ?_)
    obtain ⟨rfl, hr⟩ := hr
    cases r with
    | none =>
      have hw := hm.writable hbps .nothing fun _ _ => .inl rfl
      refine Prog.total_bind.mpr (Prog.total_pure ?_)
      refine Prog.total_seq (hm.inside_write hbps hw hsized) fun r v₂ ht => ?_
      cases r with
      | none => exact Prog.total_pure trivial
      | some first =>
        exact inside_updateNew (length_nameTo83 name) _ _ (inside_findSlot ht hm.slot (Nat.zero_add _)
          fun k hk => absurd hk (Nat.not_lt_zero k))
    | some i =>
      obtain ⟨hi, hfinds⟩ := hr i rfl
      refine Prog.total_seq (Prog.total_bind.mpr (total_read16 (inVolume_dir hi (by decide))
        (inside_freeFrom hcb hlin (hm.chain name i hfinds)))) fun _ v₁ hv => ?_
      refine Prog.total_seq (hm.inside_write hbps (hm.writable hbps (.chain hfinds) hv) hsized) fun r v₂ _ => ?_
      cases r with
      | none => exact Prog.total_pure trivial
      | some first => exact Prog.total_seq (inside_storeEntry hi _ _) fun _ _ _ => Prog.total_pure trivial
  | delete name =>
    refine total_then (Q := fun _ _ => True) (Prog.total_seq (inside_find hm.dir name) fun r v' hr => ?_)
    obtain ⟨rfl, hr⟩ := hr
    cases r with
    | none => exact Prog.total_pure trivial
    | some i =>
      obtain ⟨hi, hfinds⟩ := hr i rfl
      refine Prog.total_bind.mpr (total_read16 (inVolume_dir hi (by decide)) (Prog.total_seq
        (inside_freeFrom hcb hlin (hm.chain name i hfinds)) fun _ _ _ => ?_))
      exact Prog.total_bind.mpr (total_storeBytes (inVolume_dir (k := 0) hi (by decide))
        (Prog.total_pure trivial))

end Calls

end RainbowOs.Fat12
