import RainbowOs.Fat12.FileMap

/-!
# The ramdisk

`kernel/fs/ramdisk.c`: the 256 KB volume the system falls back to, built
with five sample files before the driver is pointed at it. Its layout has a
FAT entry for every cluster, so every search for a free cluster ends inside
the FAT.
-/

namespace RainbowOs.Fat12.Ramdisk

open RainbowOs.Lib RainbowOs.Lib.Linked

abbrev ramdiskSize : Nat := 256 * 1024
abbrev sectorSize : Nat := 512
abbrev totalSectors : Nat := ramdiskSize / sectorSize
abbrev reservedSectors : Nat := 1
abbrev numFats : Nat := 1
abbrev sectorsPerFat : Nat := 2
abbrev rootDirEntries : Nat := 32
abbrev sectorsPerCluster : Nat := 1

abbrev fatOffset : Nat := reservedSectors * sectorSize
abbrev rootdirOffset : Nat := (reservedSectors + numFats * sectorsPerFat) * sectorSize
abbrev dataOffset : Nat :=
  rootdirOffset + ((rootDirEntries * 32 + sectorSize - 1) / sectorSize) * sectorSize

/-- The statics of `ramdisk.c`. -/
structure State where
  bytes : Bytes
  nextFreeCluster : Nat
  nextDirent : Nat

/-- `fat12_set_fat` -/
def fat12SetFat (v : Bytes) (cluster value : Nat) : Bytes :=
  let offset := fatOffset + cluster + cluster / 2
  v.store offset (packFat cluster value (v offset).toNat (v (offset + 1)).toNat)

/-- The allocation loop of `add_file`: `none` when the clusters run out. -/
def addFileLoop (data : List UInt8) : (fuel dataWritten bytesLeft : Nat) → State → Option State
  | 0, _, _, s => some s
  | fuel + 1, dataWritten, bytesLeft, s =>
    let clusterSize := sectorsPerCluster * sectorSize
    let maxDataClusters := (totalSectors * sectorSize - dataOffset) / clusterSize
    if bytesLeft = 0 then some s
    else if s.nextFreeCluster - 2 ≥ maxDataClusters then none
    else
      let cur := s.nextFreeCluster
      let chunk := if bytesLeft < clusterSize then bytesLeft else clusterSize
      let v := s.bytes.store (dataOffset + (cur - 2) * clusterSize)
        ((data.drop dataWritten).take chunk)
      let next := if bytesLeft - chunk > 0 then cur + 1 else 0xFFF
      addFileLoop data fuel (dataWritten + chunk) (bytesLeft - chunk)
        { s with bytes := fat12SetFat v cur next, nextFreeCluster := cur + 1 }

/-- `add_file` -/
def addFile (name ext data : List UInt8) (s : State) : State :=
  if s.nextDirent ≥ rootDirEntries then s
  else
    match addFileLoop data (data.length + 1) 0 data.length s with
    | none => s
    | some s' =>
      let dir := rootdirOffset + s.nextDirent * 32
      let v := s'.bytes.store dir
        (padTo 8 ((name.take 8).map upper) ++ padTo 3 ((ext.take 3).map upper))
      let v := v.store (dir + attrField) [0x20]
      let v := v.store (dir + firstClusterField) (Bytes.le16 s.nextFreeCluster)
      let v := v.store (dir + sizeField) (Bytes.le32 data.length)
      { s' with bytes := v, nextDirent := s.nextDirent + 1 }

/-- A C string literal, in the pieces it is written in. -/
def text (pieces : List String) : List UInt8 :=
  pieces.flatMap ascii

/-- `format_bpb` -/
def formatBpb (v : Bytes) : Bytes :=
  let v := v.store 0 [0xEB, 0x3C, 0x90]
  let v := v.store 3 (text ["RNBWOS  "])
  let v := v.store 11 (Bytes.le16 sectorSize)
  let v := v.store 13 [UInt8.ofNat sectorsPerCluster]
  let v := v.store 14 (Bytes.le16 reservedSectors)
  let v := v.store 16 [UInt8.ofNat numFats]
  let v := v.store 17 (Bytes.le16 rootDirEntries)
  let v := v.store 19 (Bytes.le16 totalSectors)
  let v := v.store 21 [0xF0]
  let v := v.store 22 (Bytes.le16 sectorsPerFat)
  let v := v.store 24 (Bytes.le16 18)
  let v := v.store 26 (Bytes.le16 2)
  let v := v.store 28 (Bytes.le32 0)
  v.store 32 (Bytes.le32 0)

def readme : List UInt8 := text [
  "Welcome to Rainbow-OS!\r\n",
  "\r\n",
  "This is a 32-bit operating system for the Intel 486.\r\n",
  "It runs in Protected Mode with paging enabled.\r\n",
  "\r\n",
  "Type 'help' for available commands.\r\n"]

def hello : List UInt8 := text [
  "Hello, World!\r\n",
  "Greetings from the FAT12 ramdisk.\r\n"]

def colors : List UInt8 := text [
  "Rainbow Colors:\r\n",
  "  Red\r\n",
  "  Orange\r\n",
  "  Yellow\r\n",
  "  Green\r\n",
  "  Blue\r\n",
  "  Indigo\r\n",
  "  Violet\r\n"]

def crt0H : List UInt8 := text [
  "/* crt0.h - Rainbow-OS C runtime */\n",
  "#define SYSCALL_TABLE 0x1F0000\n",
  "\n",
  "void putchar(int c) \x7b\n",
  "    int *table;\n",
  "    table = (int *)SYSCALL_TABLE;\n",
  "    int fn;\n",
  "    fn = table[0];\n",
  "    /* Call via inline pointer call */\n",
  "    int *fptr;\n",
  "    fptr = (int *)fn;\n",
  "    /* We use peek/poke style: write char to VGA directly */\n",
  "\x7d\n",
  "\n",
  "void puts(char *s) \x7b\n",
  "    while (*s) \x7b\n",
  "        putchar(*s);\n",
  "        s = s + 1;\n",
  "    \x7d\n",
  "\x7d\n"]

def helloC : List UInt8 := text [
  "int main() \x7b\n",
  "    return 42;\n",
  "\x7d\n"]

/-- The arguments of one call of `add_file`. -/
structure Sample where
  name : List UInt8
  ext : List UInt8
  data : List UInt8

/-- The sample files, in the order they are added. -/
def samples : List Sample :=
  [⟨text ["readme"], text ["txt"], readme⟩, ⟨text ["hello"], text ["txt"], hello⟩,
    ⟨text ["colors"], text ["txt"], colors⟩, ⟨text ["crt0"], text ["h"], crt0H⟩,
    ⟨text ["hello"], text ["c"], helloC⟩]

/-- `ramdisk_init`, up to the call of `fat12_init`. -/
def ramdiskInit : Bytes :=
  let v := formatBpb Bytes.zeros
  let v := fat12SetFat v 0 0xFF0
  let v := fat12SetFat v 1 0xFFF
  (samples.foldl (fun s f => addFile f.name f.ext f.data s) ⟨v, 2, 0⟩).bytes

/-- What `fat12_init` reads from the ramdisk. -/
def bpb : Bpb where
  bytesPerSector := 512
  sectorsPerCluster := 1
  reservedSectors := 1
  numFats := 1
  rootEntryCount := 32
  totalSectors := 512
  sectorsPerFat := 2

/-- The ramdisk's regions: clusters 2..508, and a FAT entry for each. -/
def layout : Layout where
  bpb := bpb
  cells := 509
  clusterBytes_pos := by decide
  two_le_cells := by decide
  cells_le_limit := by decide
  cells_le_mark := by decide
  fat_fits := by decide
  dir_fits := by decide
  data_fits := by decide

theorem layout_full : layout.Full := by
  show layout.cells = layout.bpb.dataClusters + 2
  decide

/-! ## Building it -/

/-- `fat12_set_fat` writes what `fat12_write_fat` would. -/
theorem fat12SetFat_eq (v : Bytes) {c : Nat} (hc : c < 65536) (value : Nat) :
    fat12SetFat v c value = writtenFat layout.bpb v c value := by
  have hoff : fatOffset + c + c / 2 = layout.bpb.fatEntryOffset c := by
    show 512 + c + c / 2 = (512 + (c + c / 2)) % 4294967296
    omega
  unfold fat12SetFat writtenFat
  simp only [hoff]

theorem formatBpb_of_le {v : Bytes} {k : Nat} (h : 36 ≤ k) : formatBpb v k = v k := by
  have h16 : ∀ x, (Bytes.le16 x).length = 2 := fun _ => rfl
  have h32 : ∀ x, (Bytes.le32 x).length = 4 := fun _ => rfl
  have htext : (text ["RNBWOS  "]).length = 8 := by decide +kernel
  unfold formatBpb
  simp (disch := simp only [h16, h32, htext, List.length_cons, List.length_nil]; omega) only
    [Bytes.store_of_le]

/-- Where the five files are added: zeros past the BPB, and the two reserved FAT entries. -/
theorem shows_format : Shows layout
    (fat12SetFat (fat12SetFat (formatBpb Bytes.zeros) 0 0xFF0) 1 0xFFF)
    { ent := fun _ => zeroEntry
      fat := Function.update (Function.update (fun _ => 0) 0 0xFF0) 1 0xFFF
      dat := fun _ => List.replicate 512 0 } := by
  have hfat : layout.bpb.fatOffset = 512 := rfl
  have hshows := shows_blank layout (v := formatBpb Bytes.zeros) fun k hk _ =>
    formatBpb_of_le (by omega)
  rw [fat12SetFat_eq _ (by decide), fat12SetFat_eq _ (by decide)]
  exact (hshows.writeFat (c := 0) (by decide) 0xFF0).writeFat (c := 1) (by decide) 0xFFF

/-- A ramdisk under construction, holding the files of `m`: the counters are the first
free cluster and the first unused entry. -/
structure Built (s : State) (t : Tables) (m : List UInt8 → Option (List UInt8)) : Prop where
  shows : Shows layout s.bytes t
  sound : t.Sound layout
  whole : t.Whole layout
  files : t.files layout = m
  free : freeCells t.fat 2 509 = List.range' s.nextFreeCluster (509 - s.nextFreeCluster)
  two_le : 2 ≤ s.nextFreeCluster
  used : ∀ i, i < s.nextDirent → (t.ent i).Live
  unused : ∀ i, s.nextDirent ≤ i → i < 32 → t.ent i = zeroEntry
  bpb : ∀ k, k < 36 → s.bytes k = formatBpb Bytes.zeros k

variable {s : State} {t : Tables} {m : List UInt8 → Option (List UInt8)}
  {name ext data : List UInt8}

/-- The folded name of a sample file. -/
def key (name ext : List UInt8) : List UInt8 :=
  padTo 8 ((name.take 8).map upper) ++ padTo 3 ((ext.take 3).map upper)

theorem length_key (name ext : List UInt8) : (key name ext).length = 11 := by
  unfold key
  rw [List.length_append, length_padTo, length_padTo]
  · rw [List.length_map, List.length_take]
    omega
  · rw [List.length_map, List.length_take]
    omega

/-- `add_file` of a file that fits in one cluster. -/
theorem addFile_single (name ext : List UInt8) (hpos : 0 < data.length) (hfit : data.length ≤ 512)
    (hdir : s.nextDirent < 32) (hroom : s.nextFreeCluster < 509) :
    addFile name ext data s =
      { bytes := (((fat12SetFat (s.bytes.store (2560 + (s.nextFreeCluster - 2) * 512) data)
          s.nextFreeCluster 0xFFF).store (1536 + s.nextDirent * 32) (key name ext)).store
          (1536 + s.nextDirent * 32 + attrField) [0x20]).store
          (1536 + s.nextDirent * 32 + firstClusterField) (Bytes.le16 s.nextFreeCluster) |>.store
          (1536 + s.nextDirent * 32 + sizeField) (Bytes.le32 data.length)
        nextFreeCluster := s.nextFreeCluster + 1
        nextDirent := s.nextDirent + 1 } := by
  have hchunk : (if data.length < 512 then data.length else 512) = data.length := by
    split <;> omega
  have hloop : addFileLoop data (data.length + 1) 0 data.length s =
      some { s with
        bytes := fat12SetFat (s.bytes.store (2560 + (s.nextFreeCluster - 2) * 512) data)
          s.nextFreeCluster 0xFFF
        nextFreeCluster := s.nextFreeCluster + 1 } := by
    rw [addFileLoop]
    simp only [sectorsPerCluster, sectorSize, totalSectors, ramdiskSize, dataOffset, rootdirOffset,
      reservedSectors, numFats, sectorsPerFat, rootDirEntries]
    rw [if_neg (by omega), if_neg (by omega)]
    simp only [Nat.reduceMul, Nat.reduceAdd, Nat.reduceSub, Nat.reduceDiv, hchunk, Nat.sub_self,
      List.drop_zero, List.take_length, gt_iff_lt, Nat.lt_irrefl, if_false]
    obtain ⟨n, hn⟩ := Nat.exists_eq_succ_of_ne_zero (Nat.pos_iff_ne_zero.mp hpos)
    rw [hn, addFileLoop, if_pos rfl]
  unfold addFile
  rw [if_neg (by show ¬ s.nextDirent ≥ 32; omega), hloop]
  rfl

/-- The bytes `add_file` leaves show what a driver write would. -/
theorem addFile_shows (name ext : List UInt8) (h : Shows layout s.bytes t) (hpos : 0 < data.length)
    (hfit : data.length ≤ 512) (hdir : s.nextDirent < 32) (h2 : 2 ≤ s.nextFreeCluster)
    (hroom : s.nextFreeCluster < 509) (hent : t.ent s.nextDirent = zeroEntry) :
    Shows layout (addFile name ext data s).bytes
      (Tables.setEnt { ent := t.ent
                       fat := Function.update t.fat s.nextFreeCluster 0xFFF
                       dat := Function.update t.dat s.nextFreeCluster
                         (data ++ (t.dat s.nextFreeCluster).drop data.length) }
        s.nextDirent (newEntry (key name ext) s.nextFreeCluster data.length)) := by
  have hoff : layout.bpb.direntOffset s.nextDirent = 1536 + s.nextDirent * 32 := by
    have hent := (layout.direntOffset_eq (i := s.nextDirent) hdir).1
    have hroot : layout.bpb.rootDirOffset = 1536 := rfl
    omega
  have hclus : layout.bpb.clusterToOffset s.nextFreeCluster =
      2560 + (s.nextFreeCluster - 2) * 512 :=
    (layout.clusterToOffset_eq h2 (show s.nextFreeCluster < layout.cells from hroom)).1
  have hdata := h.writeData (c := s.nextFreeCluster) h2 hroom hfit
  have hfat := hdata.writeFat (c := s.nextFreeCluster) hroom 0xFFF
  rw [addFile_single name ext hpos hfit hdir hroom, fat12SetFat_eq _ (Nat.lt_trans hroom (by decide)), ← hoff, ← hclus]
  have h16 := Bytes.length_le16 s.nextFreeCluster
  have h32 := Bytes.length_le32 data.length
  have hkey := length_key name ext
  have hattr : ([0x20] : List UInt8).length = 1 := rfl
  have hstored := hfat.writeDir (i := s.nextDirent) hdir
    ((((writtenFat layout.bpb (s.bytes.store (layout.bpb.clusterToOffset s.nextFreeCluster)
      data) s.nextFreeCluster 0xFFF).store (layout.bpb.direntOffset s.nextDirent)
      (key name ext)).store (layout.bpb.direntOffset s.nextDirent + attrField) [0x20]).store
      (layout.bpb.direntOffset s.nextDirent + firstClusterField)
      (Bytes.le16 s.nextFreeCluster) |>.store
      (layout.bpb.direntOffset s.nextDirent + sizeField) (Bytes.le32 data.length))
    fun k hk => by
      simp only [attrField, firstClusterField, sizeField]
      rw [Bytes.store_of_not_mem (by omega), Bytes.store_of_not_mem (by omega),
        Bytes.store_of_not_mem (by omega), Bytes.store_of_not_mem (by omega)]
  rw [entryOf_store_size, entryOf_store_first, entryOf_store_attr, entryOf_store_name hkey,
    Nat.mod_eq_of_lt (show s.nextFreeCluster < 65536 by omega),
    Nat.mod_eq_of_lt (show data.length < 4294967296 by omega)] at hstored
  have hold : entryOf (writtenFat layout.bpb (s.bytes.store
      (layout.bpb.clusterToOffset s.nextFreeCluster) data) s.nextFreeCluster 0xFFF)
      (layout.bpb.direntOffset s.nextDirent) = zeroEntry := (hfat.ent s.nextDirent hdir).trans hent
  rw [hold] at hstored
  exact hstored

/-- Adding a sample file. -/
theorem Built.addFile (h : Built s t m) (hpos : 0 < data.length) (hfit : data.length ≤ 512)
    (hdir : s.nextDirent < 32) (hroom : s.nextFreeCluster < 509) (hnew : m (key name ext) = none)
    (h0 : (key name ext).headD 0 ≠ 0x00) (h5 : (key name ext).headD 0 ≠ 0xE5) :
    (addFile name ext data s).nextFreeCluster = s.nextFreeCluster + 1 ∧
      (addFile name ext data s).nextDirent = s.nextDirent + 1 ∧
      ∃ t', Built (addFile name ext data s) t' (Function.update m (key name ext) (some data)) := by
  have hfind : t.find (key name ext) layout.bpb.rootEntryCount 0 = none := by
    have hfiles := h.files ▸ hnew
    unfold Tables.files at hfiles
    exact Option.map_eq_none_iff.mp hfiles
  have hfree : freeCells t.fat 2 layout.cells =
      s.nextFreeCluster :: List.range' (s.nextFreeCluster + 1) (509 - (s.nextFreeCluster + 1)) := by
    rw [← List.range'_succ, show 509 - (s.nextFreeCluster + 1) + 1 = 509 - s.nextFreeCluster by
      omega]
    exact h.free
  have hk : clustersFor layout.bpb.clusterBytes data.length = 1 := by
    show (data.length + 512 - 1) / 512 = 1
    omega
  have hslot : t.slot layout.bpb.rootEntryCount 0 = some s.nextDirent := by
    refine List.find?_range'_eq_some.mpr ⟨?_, ?_, fun j _ hj => ?_⟩
    · rw [h.unused s.nextDirent (Nat.le_refl _) hdir]
      rfl
    · exact List.mem_range'_1.mpr ⟨Nat.zero_le _, by rw [Nat.zero_add]; exact hdir⟩
    · have hl := h.used j hj
      rw [Bool.not_eq_true', Bool.or_eq_false_iff, beq_eq_false_iff_ne, beq_eq_false_iff_ne]
      exact ⟨hl.1, hl.2.1⟩
  -- the driver would have taken the same cluster and the same entry
  have hwrite : t.writeFile layout (key name ext) data =
      (0, Tables.setEnt { ent := t.ent
                          fat := Function.update t.fat s.nextFreeCluster 0xFFF
                          dat := Function.update t.dat s.nextFreeCluster
                            (data ++ (t.dat s.nextFreeCluster).drop data.length) }
        s.nextDirent (newEntry (key name ext) s.nextFreeCluster data.length)) := by
    have htake : data.take layout.bpb.clusterBytes = data := List.take_of_length_le hfit
    have hfits : ¬ (freeCells t.fat 2 layout.cells).length < 1 := by
      rw [hfree, List.length_cons]
      omega
    unfold Tables.writeFile
    rw [hfind, hslot]
    simp only [Tables.release, hk, if_neg hfits]
    simp only [Tables.take, Tables.takenFirst, hfree, List.take_succ_cons, List.take_zero,
      List.headD_cons, grow, if_true, fill, htake]
  have hret : (t.writeFile layout (key name ext) data).1 = 0 := by rw [hwrite]
  have hsound := (writeFile_sound h.sound data h0).1
  obtain ⟨hfiles, hwhole⟩ := writeFile_files h.sound h.whole
    (fun c h2 hc => length_dat h.shows h2 hc) h0 h5 hret
  rw [hwrite] at hsound hfiles hwhole
  have hshows := addFile_shows name ext h.shows hpos hfit hdir h.two_le hroom
    (h.unused s.nextDirent (Nat.le_refl _) hdir)
  have hs := addFile_single name ext hpos hfit hdir hroom
  refine ⟨by rw [hs], by rw [hs], _, hshows, hsound, hwhole, h.files ▸ hfiles, ?_, ?_, fun i hi => ?_,
    fun i hi hi32 => ?_,
    fun k hk36 => ?_⟩
  · rw [hs]
    exact freeCells_update hfree (by decide)
  · rw [hs]
    exact Nat.le_succ_of_le h.two_le
  · rw [hs] at hi
    by_cases hid : i = s.nextDirent
    · rw [hid, setEnt_self]
      exact ⟨h0, h5, show (0x20 : UInt8) &&& 0x08 = 0 by decide,
        show (0x20 : UInt8) &&& 0x10 = 0 by decide⟩
    · rw [setEnt_of_ne hid]
      exact h.used i (Nat.lt_of_le_of_ne (Nat.le_of_lt_succ hi) hid)
  · rw [hs] at hi
    rw [setEnt_of_ne (Nat.ne_of_gt hi)]
    exact h.unused i (Nat.le_of_succ_le hi) hi32
  · rw [hs, fat12SetFat_eq _ (Nat.lt_trans hroom (by decide))]
    have hoff := layout.fatEntryOffset_eq (c := s.nextFreeCluster) hroom
    have hfat : layout.bpb.fatOffset = 512 := rfl
    simp only [attrField, firstClusterField, sizeField]
    rw [Bytes.store_of_lt (by omega), Bytes.store_of_lt (by omega), Bytes.store_of_lt (by omega),
      Bytes.store_of_lt (by omega), writtenFat_of_not_mem (by omega), Bytes.store_of_lt (by omega)]
    exact h.bpb k hk36

/-- The volume before any file is added. -/
theorem built_format : ∃ t, Built
    ⟨fat12SetFat (fat12SetFat (formatBpb Bytes.zeros) 0 0xFF0) 1 0xFFF, 2, 0⟩ t fun _ => none := by
  refine ⟨_, shows_format, .of_blank fun _ => rfl, fun i hi => absurd hi.2 zeroEntry_not_live, rfl,
    ?_, Nat.le_refl 2, fun i hi => absurd hi (Nat.not_lt_zero i), fun _ _ _ => rfl,
    fun k hk => ?_⟩
  · refine List.filter_eq_self.mpr fun c hc => ?_
    rw [List.mem_range'_1] at hc
    simp only [beq_iff_eq]
    rw [Function.update_of_ne (by omega), Function.update_of_ne (by omega)]
  · have h0 := layout.fatEntryOffset_eq (c := 0) (by decide)
    have h1 := layout.fatEntryOffset_eq (c := 1) (by decide)
    have hfat : layout.bpb.fatOffset = 512 := rfl
    show fat12SetFat _ 1 0xFFF k = _
    rw [fat12SetFat_eq _ (by decide), fat12SetFat_eq _ (by decide),
      writtenFat_of_not_mem (by omega), writtenFat_of_not_mem (by omega)]

/-- The folded name of a sample file. -/
def Sample.key83 (f : Sample) : List UInt8 := key f.name f.ext

/-- The map that results from adding files to `m`. -/
def addTo (m : List UInt8 → Option (List UInt8)) (files : List Sample) :
    List UInt8 → Option (List UInt8) :=
  files.foldl (fun m f => Function.update m f.key83 (some f.data)) m

/-- Adding sample files one after the other. -/
theorem Built.addFiles (h : Built s t m) (files : List Sample)
    (hfit : ∀ f ∈ files, 0 < f.data.length ∧ f.data.length ≤ 512)
    (hhead : ∀ f ∈ files, f.key83.headD 0 ≠ 0x00 ∧ f.key83.headD 0 ≠ 0xE5)
    (hnodup : (files.map Sample.key83).Nodup) (hnew : ∀ f ∈ files, m f.key83 = none)
    (hdir : s.nextDirent + files.length ≤ 32) (hroom : s.nextFreeCluster + files.length ≤ 509) :
    (files.foldl (fun s f => Ramdisk.addFile f.name f.ext f.data s) s).nextFreeCluster =
        s.nextFreeCluster + files.length ∧
      ∃ t', Built (files.foldl (fun s f => Ramdisk.addFile f.name f.ext f.data s) s) t'
        (addTo m files) := by
  induction files generalizing s t m with
  | nil => exact ⟨rfl, t, h⟩
  | cons f files ih =>
    have hmem : ∀ g ∈ files, g ∈ f :: files := fun g hg => List.mem_cons_of_mem f hg
    rw [List.length_cons] at hdir hroom
    obtain ⟨hfnew, hnodup'⟩ := List.nodup_cons.mp hnodup
    obtain ⟨hc, hd, t', h'⟩ := h.addFile (hfit f List.mem_cons_self).1 (hfit f List.mem_cons_self).2
      (by omega) (by omega) (hnew f List.mem_cons_self) (hhead f List.mem_cons_self).1
      (hhead f List.mem_cons_self).2
    rw [List.length_cons, Nat.add_comm files.length, ← Nat.add_assoc, ← hc, List.foldl_cons]
    refine ih h' (fun g hg => hfit g (hmem g hg)) (fun g hg => hhead g (hmem g hg)) hnodup'
      (fun g hg => ?_) (by rw [hd]; omega) (by rw [hc]; omega)
    have hne : g.key83 ≠ f.key83 := fun heq => hfnew (heq ▸ List.mem_map_of_mem hg)
    exact (Function.update_of_ne hne _ _).trans (hnew g (hmem g hg))

/-- The files `ramdisk_init` puts on the volume. -/
def sampleFiles : List UInt8 → Option (List UInt8) := addTo (fun _ => none) samples

/-- `ramdisk_init` builds a sound volume that holds the sample files. -/
theorem ramdisk_built :
    ∃ s t, s.bytes = ramdiskInit ∧ s.nextFreeCluster = 7 ∧ Built s t sampleFiles := by
  obtain ⟨t, h⟩ := built_format
  obtain ⟨hc, t', h'⟩ := h.addFiles samples (by decide +kernel) (by decide +kernel)
    (by decide +kernel) (fun _ _ => rfl) (by decide) (by decide)
  exact ⟨_, t', rfl, hc, h'⟩

theorem bpbOf_ramdisk : bpbOf ramdiskInit = bpb := by
  obtain ⟨s, t, hs, _, h⟩ := ramdisk_built
  rw [bpbOf_congr fun k hk => hs ▸ h.bpb k (by omega)]
  decide +kernel

/-- `fat12_init` reads the geometry of the ramdisk back from it. -/
theorem fat12Init_ramdisk : (fat12Init ramdiskInit).out = .done bpb := by
  have hbps : ramdiskInit.word16 11 ≠ 0 := by
    rw [← bpbOf_bytesPerSector, bpbOf_ramdisk]
    decide
  rw [fat12Init_out hbps, bpbOf_ramdisk]

end RainbowOs.Fat12.Ramdisk
