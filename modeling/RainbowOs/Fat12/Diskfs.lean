import RainbowOs.Fat12.Runs

/-!
# The persistent volume

`kernel/fs/diskfs.c`, the part that makes a volume: `bpb_valid` and
`format_volume`. The geometry it writes has 2048 sectors and three sectors
of FAT. Three sectors hold 1024 entries of twelve bits, and 2040 clusters
want 2042: the layout of this volume stops at cluster 1023, and past it a
FAT entry and a directory entry are the same bytes.
-/

namespace RainbowOs.Fat12.Diskfs

open RainbowOs.Lib RainbowOs.Lib.Linked

/-- `bpb_valid` -/
def bpbValid (v : Bytes) : Bool :=
  if v 0 ≠ 0xEB ∧ v 0 ≠ 0xE9 then false else if v.word16 11 ≠ 512 then false else true

theorem bpbValid_iff {v : Bytes} :
    bpbValid v = true ↔ (v 0 = 0xEB ∨ v 0 = 0xE9) ∧ v.word16 11 = 512 := by
  unfold bpbValid
  by_cases h0 : v 0 ≠ 0xEB ∧ v 0 ≠ 0xE9
  · rw [if_pos h0]
    exact ⟨fun h => absurd h Bool.false_ne_true, fun h => (h.1.elim h0.1 h0.2).elim⟩
  rw [if_neg h0]
  have hjump : v 0 = 0xEB ∨ v 0 = 0xE9 := by
    rcases not_and_or.mp h0 with h | h
    · exact Or.inl (not_not.mp h)
    · exact Or.inr (not_not.mp h)
  by_cases h11 : v.word16 11 ≠ 512
  · rw [if_pos h11]
    exact ⟨fun h => absurd h Bool.false_ne_true, fun h => absurd h.2 h11⟩
  · rw [if_neg h11]
    exact ⟨fun _ => ⟨hjump, not_not.mp h11⟩, fun _ => rfl⟩

/-- The stores of `format_volume` to the boot sector. -/
def formatBpb (v : Bytes) : Bytes :=
  let v := v.store 0 [0xEB, 0x3C, 0x90]
  let v := v.store 3 (Ramdisk.text ["RNBWOS  "])
  let v := v.store 11 [0x00, 0x02]
  let v := v.store 13 [1]
  let v := v.store 14 [1, 0]
  let v := v.store 16 [1]
  let v := v.store 17 [64, 0]
  let v := v.store 19 [0x00, 0x08]
  let v := v.store 21 [0xF8]
  let v := v.store 22 [3, 0]
  let v := v.store 24 [63, 0]
  v.store 26 [16, 0]

/-- `format_volume` -/
def formatVolume (v : Bytes) : Bytes :=
  (formatBpb (v.fill 0 diskfsSize 0)).store 512 [0xF8, 0xFF, 0xFF]

/-- What `fat12_init` reads from a formatted volume. -/
def bpb : Bpb where
  bytesPerSector := 512
  sectorsPerCluster := 1
  reservedSectors := 1
  numFats := 1
  rootEntryCount := 64
  totalSectors := 2048
  sectorsPerFat := 3

/-- The regions of a formatted volume: the FAT has entries 0..1023. -/
def layout : Layout where
  bpb := bpb
  cells := 1024
  clusterBytes_pos := by decide
  two_le_cells := by decide
  cells_le_limit := by decide
  cells_le_mark := by decide
  fat_fits := by decide
  dir_fits := by decide
  data_fits := by decide

/-- The disk has clusters past the last FAT entry. -/
theorem cells_lt_limit : layout.cells < layout.bpb.dataClusters + 2 := by decide

theorem formatBpb_of_le {v : Bytes} {k : Nat} (h : 28 ≤ k) : formatBpb v k = v k := by
  have htext : (Ramdisk.text ["RNBWOS  "]).length = 8 := by decide
  unfold formatBpb
  simp (disch := simp only [htext, List.length_cons, List.length_nil]; omega) only
    [Bytes.store_of_le]

theorem formatBpb_congr {v v' : Bytes} {k : Nat} (h : v k = v' k) :
    formatBpb v k = formatBpb v' k := by
  unfold formatBpb
  iterate 12 apply Bytes.store_congr
  exact h

theorem fill_of_lt {v : Bytes} {k : Nat} (h : k < diskfsSize) : v.fill 0 diskfsSize 0 k = 0 :=
  if_pos ⟨Nat.zero_le k, by rw [Nat.zero_add]; exact h⟩

/-- The three bytes at the start of the FAT are its two reserved entries. -/
theorem store_reserved {v : Bytes} (h0 : v 512 = 0) (h1 : v 513 = 0) :
    v.store 512 [0xF8, 0xFF, 0xFF] =
      writtenFat layout.bpb (writtenFat layout.bpb v 0 0xFF8) 1 0xFFF := by
  have hoff0 : layout.bpb.fatEntryOffset 0 = 512 := rfl
  have hoff1 : layout.bpb.fatEntryOffset 1 = 513 := rfl
  have hfirst : writtenFat layout.bpb v 0 0xFF8 = v.store 512 [0xF8, 0x0F] := by
    unfold writtenFat
    rw [hoff0, h0, h1]
    rfl
  have hat : (v.store 512 [0xF8, 0x0F]) (512 + 1) = 0x0F := Bytes.store_add (by decide)
  have hsecond : writtenFat layout.bpb (v.store 512 [0xF8, 0x0F]) 1 0xFFF =
      (v.store 512 [0xF8, 0x0F]).store 513 [0xFF, 0xFF] := by
    unfold writtenFat
    rw [hoff1, hat]
    rfl
  rw [hfirst, hsecond]
  funext k
  rcases Nat.lt_trichotomy k 513 with hk | rfl | hk
  · rw [Bytes.store_of_lt (by omega : k < 513)]
    rcases Nat.lt_trichotomy k 512 with hk' | rfl | hk'
    · rw [Bytes.store_of_lt hk', Bytes.store_of_lt hk']
    · rfl
    · omega
  · rfl
  · by_cases hk' : k = 514
    · rw [hk']
      rfl
    · have hout : 513 + ([0xFF, 0xFF] : List UInt8).length ≤ k := by
        simp only [List.length_cons, List.length_nil]
        omega
      rw [Bytes.store_of_le hout]
      rw [Bytes.store_of_le (by simp only [List.length_cons, List.length_nil]; omega),
        Bytes.store_of_le (by simp only [List.length_cons, List.length_nil]; omega)]

/-- A formatted volume is empty. -/
theorem shows_format (v : Bytes) : Shows layout (formatVolume v)
    { ent := fun _ => zeroEntry
      fat := Function.update (Function.update (fun _ => 0) 0 0xFF8) 1 0xFFF
      dat := fun _ => List.replicate 512 0 } := by
  have hzero : ∀ k, 512 ≤ k → k < diskfsSize → formatBpb (v.fill 0 diskfsSize 0) k = 0 :=
    fun k hk hlt => (formatBpb_of_le (by omega)).trans (fill_of_lt hlt)
  have hfat : layout.bpb.fatOffset = 512 := rfl
  have hend : layout.bpb.dataStartOffset + (layout.cells - 2) * layout.bpb.clusterBytes ≤
      diskfsSize := by decide
  have hshows := shows_blank layout (v := formatBpb (v.fill 0 diskfsSize 0)) fun k hk hlt =>
    hzero k (by omega) (Nat.lt_of_lt_of_le hlt hend)
  unfold formatVolume
  rw [store_reserved (hzero 512 (by decide) (by decide)) (hzero 513 (by decide) (by decide))]
  exact (hshows.writeFat (c := 0) (by decide) 0xFF8).writeFat (c := 1) (by decide) 0xFFF

theorem format_sound (v : Bytes) : SoundVolume layout (formatVolume v) :=
  .of_shows (shows_format v) (.of_blank fun _ => rfl)

/-- The boot sector of a formatted volume. -/
theorem formatVolume_of_lt {v : Bytes} {k : Nat} (h : k < 512) :
    formatVolume v k = formatBpb Bytes.zeros k := by
  unfold formatVolume
  rw [Bytes.store_of_lt h]
  exact formatBpb_congr (fill_of_lt (Nat.lt_trans h (by decide)))

theorem bpbOf_format (v : Bytes) : bpbOf (formatVolume v) = bpb := by
  rw [bpbOf_congr fun k hk => formatVolume_of_lt (Nat.lt_trans hk (by decide))]
  decide

/-- `fat12_init` reads the geometry of a formatted volume back from it. -/
theorem fat12Init_format (v : Bytes) : (fat12Init (formatVolume v)).out = .done bpb := by
  have hbps : (formatVolume v).word16 11 ≠ 0 := by
    rw [← bpbOf_bytesPerSector, bpbOf_format]
    decide
  rw [fat12Init_out hbps, bpbOf_format]

theorem bpbValid_format (v : Bytes) : bpbValid (formatVolume v) = true := by
  have hjump : formatBpb Bytes.zeros 0 = 0xEB := by decide
  have hfirst : formatVolume v 0 = 0xEB :=
    (formatVolume_of_lt (by decide)).trans hjump
  have hbps : (formatVolume v).word16 11 = 512 := by
    rw [← bpbOf_bytesPerSector, bpbOf_format]
    rfl
  exact bpbValid_iff.mpr ⟨Or.inl hfirst, hbps⟩

end RainbowOs.Fat12.Diskfs
