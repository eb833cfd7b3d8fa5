import RainbowOs.Fat12.Driver
import RainbowOs.Lib.Linked

/-!
# Layouts — what a volume's bytes mean

A `Layout` is a geometry whose three regions lie apart: the FAT of the
first `cells` clusters, the root directory, and the clusters themselves.
Over a layout the bytes of a volume are read as three tables: the value of
each FAT entry, the fields of each directory entry, the contents of each
cluster. The fields of an entry cover all of its 32 bytes, so two volumes
with the same entries have the same root directory.

The laws of this module say what one store does to the three tables. The
12-bit packing makes the first of them the interesting one: two
neighbouring entries share a byte.
-/

namespace RainbowOs.Fat12

open RainbowOs.Lib

/-- A geometry with room for `cells` FAT entries before the root directory,
the root directory before the clusters, and no offset that wraps. -/
structure Layout where
  bpb : Bpb
  cells : Nat
  clusterBytes_pos : 0 < bpb.clusterBytes
  two_le_cells : 2 ≤ cells
  cells_le_limit : cells ≤ bpb.dataClusters + 2
  cells_le_mark : cells ≤ 0xFF8
  fat_fits : bpb.fatOffset + (cells - 1 + (cells - 1) / 2) + 2 ≤ bpb.rootDirOffset
  dir_fits : bpb.rootDirOffset + 32 * bpb.rootEntryCount ≤ bpb.dataStartOffset
  data_fits : bpb.dataStartOffset + (cells - 2) * bpb.clusterBytes < 4294967296

/-- One directory entry, every byte of it in some field. -/
structure Entry where
  name : List UInt8
  attr : UInt8
  gap : List UInt8
  first : Nat
  size : Nat
  deriving DecidableEq, Repr

/-- `name[0]`, which also says whether the entry is in use. -/
def Entry.mark (e : Entry) : UInt8 := e.name.headD 0

/-- An entry the driver acts on: in use, neither a volume label nor a directory. -/
def Entry.Live (e : Entry) : Prop :=
  e.mark ≠ 0x00 ∧ e.mark ≠ 0xE5 ∧ e.attr &&& 0x08 = 0 ∧ e.attr &&& 0x10 = 0

instance (e : Entry) : Decidable e.Live := by
  unfold Entry.Live
  exact inferInstance

/-- The value of the FAT entry of cluster `c`. -/
def fatAt (g : Bpb) (v : Bytes) (c : Nat) : Nat :=
  if c % 2 = 1 then v.word16 (g.fatEntryOffset c) / 16 else v.word16 (g.fatEntryOffset c) % 4096

/-- The directory entry at a byte offset. -/
def entryOf (v : Bytes) (off : Nat) : Entry where
  name := v.slice off 11
  attr := v (off + attrField)
  gap := v.slice (off + 12) 14
  first := v.word16 (off + firstClusterField)
  size := v.word32 (off + sizeField)

/-- The directory entry at an index. -/
def entryAt (g : Bpb) (v : Bytes) (i : Nat) : Entry := entryOf v (g.direntOffset i)

/-- The contents of cluster `c`. -/
def clusterAt (g : Bpb) (v : Bytes) (c : Nat) : List UInt8 :=
  v.slice (g.clusterToOffset c) g.clusterBytes

/-! ## Offsets -/

/-- Cluster `c` lies `c - 2` clusters into the data region. -/
theorem Bpb.clusterToOffset_eq (g : Bpb) {c : Nat} (h2 : 2 ≤ c) :
    g.clusterToOffset c = u32 (g.dataStartOffset + (c - 2) * g.clusterBytes) := by
  have hprod : (c + (4294967296 - 2)) * g.sectorsPerCluster * g.bytesPerSector =
      (c - 2) * g.clusterBytes + g.clusterBytes * 4294967296 := by
    rw [show c + (4294967296 - 2) = (c - 2) + 4294967296 by omega, Bpb.clusterBytes, Nat.add_mul,
      Nat.add_mul, Nat.mul_assoc, Nat.mul_assoc, Nat.mul_comm 4294967296]
  rw [Bpb.clusterToOffset, hprod, ← Nat.add_assoc, u32, Nat.add_mul_mod_self_right, ← u32]

namespace Layout

variable (L : Layout)

theorem fatEntryOffset_eq {c : Nat} (hc : c < L.cells) :
    L.bpb.fatEntryOffset c = L.bpb.fatOffset + (c + c / 2) ∧
      L.bpb.fatEntryOffset c + 2 ≤ L.bpb.rootDirOffset := by
  have hfat := L.fat_fits
  have hroot : L.bpb.rootDirOffset < 4294967296 := Nat.mod_lt _ (by decide)
  have heq : L.bpb.fatEntryOffset c = L.bpb.fatOffset + (c + c / 2) := Nat.mod_eq_of_lt (by omega)
  exact ⟨heq, by omega⟩

theorem direntOffset_eq {i : Nat} (hi : i < L.bpb.rootEntryCount) :
    L.bpb.direntOffset i = L.bpb.rootDirOffset + 32 * i ∧
      L.bpb.direntOffset i + 32 ≤ L.bpb.dataStartOffset := by
  have hdir := L.dir_fits
  have hdata : L.bpb.dataStartOffset < 4294967296 := Nat.mod_lt _ (by decide)
  have heq : L.bpb.direntOffset i = L.bpb.rootDirOffset + 32 * i := Nat.mod_eq_of_lt (by omega)
  exact ⟨heq, by omega⟩

theorem clusterToOffset_eq {c : Nat} (h2 : 2 ≤ c) (hc : c < L.cells) :
    L.bpb.clusterToOffset c = L.bpb.dataStartOffset + (c - 2) * L.bpb.clusterBytes ∧
      L.bpb.clusterToOffset c + L.bpb.clusterBytes ≤
        L.bpb.dataStartOffset + (L.cells - 2) * L.bpb.clusterBytes := by
  have hdata := L.data_fits
  have hstep : (c - 2) * L.bpb.clusterBytes + L.bpb.clusterBytes ≤
      (L.cells - 2) * L.bpb.clusterBytes := by
    rw [← Nat.succ_mul]
    exact Nat.mul_le_mul_right _ (by omega)
  have hpos := L.clusterBytes_pos
  have heq : L.bpb.clusterToOffset c =
      L.bpb.dataStartOffset + (c - 2) * L.bpb.clusterBytes := by
    rw [L.bpb.clusterToOffset_eq h2, u32, Nat.mod_eq_of_lt (by omega)]
  exact ⟨heq, by omega⟩

/-- Two clusters that differ lie apart. -/
theorem clusters_disjoint {c d : Nat} (hc2 : 2 ≤ c) (hc : c < L.cells) (hd2 : 2 ≤ d)
    (hd : d < L.cells) (hne : c ≠ d) :
    L.bpb.clusterToOffset c + L.bpb.clusterBytes ≤ L.bpb.clusterToOffset d ∨
      L.bpb.clusterToOffset d + L.bpb.clusterBytes ≤ L.bpb.clusterToOffset c := by
  rw [(L.clusterToOffset_eq hc2 hc).1, (L.clusterToOffset_eq hd2 hd).1, Nat.add_assoc,
    Nat.add_assoc, ← Nat.succ_mul, ← Nat.succ_mul, Nat.add_le_add_iff_left, Nat.add_le_add_iff_left]
  rcases Nat.lt_or_gt_of_ne hne with h | h
  · exact Or.inl (Nat.mul_le_mul_right _ (by omega))
  · exact Or.inr (Nat.mul_le_mul_right _ (by omega))

end Layout

/-! ## What `fat12_init` reads -/

/-- The fields `fat12_init` takes from a volume. -/
def bpbOf (v : Bytes) : Bpb where
  bytesPerSector := v.word16 11
  sectorsPerCluster := (v 13).toNat
  reservedSectors := v.word16 14
  numFats := (v 16).toNat
  rootEntryCount := v.word16 17
  totalSectors := v.word16 19
  sectorsPerFat := v.word16 22

theorem bpbOf_bytesPerSector (v : Bytes) : (bpbOf v).bytesPerSector = v.word16 11 := rfl

/-- They lie in the first 24 bytes. -/
theorem bpbOf_congr {v v' : Bytes} (h : ∀ k, k < 24 → v k = v' k) : bpbOf v = bpbOf v' := by
  have h16 : ∀ off, off + 1 < 24 → v.word16 off = v'.word16 off := fun off hoff =>
    Bytes.word16_congr (h off (by omega)) (h (off + 1) hoff)
  unfold bpbOf
  rw [h16 11 (by decide), h 13 (by decide), h16 14 (by decide), h 16 (by decide),
    h16 17 (by decide), h16 19 (by decide), h16 22 (by decide)]

/-! ## What a FAT store does -/

theorem fatAt_congr {g : Bpb} {v v' : Bytes} {c : Nat}
    (h0 : v (g.fatEntryOffset c) = v' (g.fatEntryOffset c))
    (h1 : v (g.fatEntryOffset c + 1) = v' (g.fatEntryOffset c + 1)) :
    fatAt g v c = fatAt g v' c := by
  unfold fatAt
  rw [Bytes.word16_congr h0 h1]

/-- The two bytes `fat12_write_fat` stores. -/
def writtenFat (g : Bpb) (v : Bytes) (c value : Nat) : Bytes :=
  v.store (g.fatEntryOffset c) (packFat c value (v (g.fatEntryOffset c)).toNat
    (v (g.fatEntryOffset c + 1)).toNat)

theorem length_packFat (c value p0 p1 : Nat) : (packFat c value p0 p1).length = 2 := by
  unfold packFat
  split <;> rfl

theorem writtenFat_of_not_mem {g : Bpb} {v : Bytes} {c value i : Nat}
    (h : i < g.fatEntryOffset c ∨ g.fatEntryOffset c + 2 ≤ i) : writtenFat g v c value i = v i :=
  Bytes.store_of_not_mem (by rw [length_packFat]; exact h)

/-- The stored bytes, by the parity of the cluster. -/
theorem writtenFat_bytes (g : Bpb) (v : Bytes) (c value : Nat) :
    ((writtenFat g v c value) (g.fatEntryOffset c)).toNat =
        (if c % 2 = 1 then (v (g.fatEntryOffset c)).toNat % 16 + value % 16 * 16
          else value % 256) ∧
      ((writtenFat g v c value) (g.fatEntryOffset c + 1)).toNat =
        (if c % 2 = 1 then value / 16 % 256
          else (v (g.fatEntryOffset c + 1)).toNat / 16 * 16 + value / 256 % 16) := by
  have hb0 := (v (g.fatEntryOffset c)).toNat_lt
  have hb1 := (v (g.fatEntryOffset c + 1)).toNat_lt
  have hstore : ∀ bs : List UInt8, bs.length = 2 →
      (v.store (g.fatEntryOffset c) bs) (g.fatEntryOffset c) = bs.getD 0 0 ∧
        (v.store (g.fatEntryOffset c) bs) (g.fatEntryOffset c + 1) = bs.getD 1 0 := fun bs hbs =>
    ⟨Bytes.store_add (i := 0) (by omega), Bytes.store_add (i := 1) (by omega)⟩
  unfold writtenFat
  rw [(hstore _ (length_packFat ..)).1, (hstore _ (length_packFat ..)).2]
  unfold packFat
  split
  · refine ⟨?_, ?_⟩
    · show (UInt8.ofNat _).toNat = _
      rw [UInt8.toNat_ofNat']
      omega
    · show (UInt8.ofNat _).toNat = _
      rw [UInt8.toNat_ofNat']
      omega
  · refine ⟨?_, ?_⟩
    · show (UInt8.ofNat _).toNat = _
      rw [UInt8.toNat_ofNat']
      omega
    · show (UInt8.ofNat _).toNat = _
      rw [UInt8.toNat_ofNat']
      omega

/-- The entry written holds the low twelve bits of the value. -/
theorem fatAt_writtenFat_self (g : Bpb) (v : Bytes) (c value : Nat) :
    fatAt g (writtenFat g v c value) c = value % 4096 := by
  have hb0 := (v (g.fatEntryOffset c)).toNat_lt
  have hb1 := (v (g.fatEntryOffset c + 1)).toNat_lt
  obtain ⟨h0, h1⟩ := writtenFat_bytes g v c value
  unfold fatAt Bytes.word16
  rw [h0, h1]
  split <;> omega

/-- Writing one entry leaves every other as it was, although neighbours share
a byte: each keeps its own half of it. -/
theorem fatAt_writtenFat_of_ne {g : Bpb} (v : Bytes) (value : Nat) {c d : Nat}
    (hoc : g.fatEntryOffset c = g.fatOffset + (c + c / 2))
    (hod : g.fatEntryOffset d = g.fatOffset + (d + d / 2)) (hne : d ≠ c) :
    fatAt g (writtenFat g v c value) d = fatAt g v d := by
  have hcases : (d + d / 2 + 2 ≤ c + c / 2 ∨ c + c / 2 + 2 ≤ d + d / 2) ∨
      (d % 2 = 0 ∧ c = d + 1) ∨ (d % 2 = 1 ∧ d = c + 1) := by omega
  rcases hcases with hfar | ⟨hpar, rfl⟩ | ⟨hpar, rfl⟩
  · refine fatAt_congr ?_ ?_
    · exact writtenFat_of_not_mem (by omega)
    · exact writtenFat_of_not_mem (by omega)
  · -- the shared byte is the second of `d` and the first of `c`
    have hoff : g.fatEntryOffset (d + 1) = g.fatEntryOffset d + 1 := by omega
    have h0 : writtenFat g v (d + 1) value (g.fatEntryOffset d) =
        v (g.fatEntryOffset d) := writtenFat_of_not_mem (by omega)
    obtain ⟨h1, _⟩ := writtenFat_bytes g v (d + 1) value
    rw [hoff, if_pos (by omega)] at h1
    unfold fatAt Bytes.word16
    rw [if_neg (by omega), if_neg (by omega), h0, h1]
    omega
  · -- the shared byte is the first of `d` and the second of `c`
    have hoff : g.fatEntryOffset (c + 1) = g.fatEntryOffset c + 1 := by omega
    have h0 : writtenFat g v c value (g.fatEntryOffset (c + 1) + 1) =
        v (g.fatEntryOffset (c + 1) + 1) := writtenFat_of_not_mem (by omega)
    obtain ⟨_, h1⟩ := writtenFat_bytes g v c value
    rw [if_neg (by omega), ← hoff] at h1
    unfold fatAt Bytes.word16
    rw [if_pos (by omega), if_pos (by omega), h0, h1]
    omega

end RainbowOs.Fat12
