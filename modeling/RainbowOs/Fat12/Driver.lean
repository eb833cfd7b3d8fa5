import RainbowOs.Lib.Prog
import RainbowOs.Lib.Bytes
import RainbowOs.Fat12.Name

/-!
# The FAT12 driver

`kernel/fs/fat12.c`, function by function. The driver works on a volume
that lies in memory at `vol`; an offset is a 32-bit offset from there, and
what lies past the end of the volume is whatever memory follows it, so an
out-of-range access is an access like any other and shows in the log.

Each logged access carries a ghost `Site`, the place in the source that
makes it. Nothing branches on it; it lets a statement speak of the FAT
entries `fat12_alloc_cluster` inspects without speaking of the ones a
chain walk reads.

C integers are natural numbers with the reductions the types make
(`u16`, `u32`); the masks and shifts of 12-bit packing are remainders and
quotients by powers of two. Two things stop a call early: a division by
zero, and a loop that never ends.
-/

namespace RainbowOs.Fat12

open RainbowOs.Lib

/-- `#define DISKFS_SIZE`, the size of the persistent volume. -/
abbrev diskfsSize : Nat := 2048 * 512

/-- What stops a call. -/
inductive Fault where
  | divideError
  | hang
  deriving DecidableEq, Repr

/-- The place in the source an access comes from. -/
inductive Site where
  | bpb
  | dir
  | alloc
  | chain
  | writeFat
  | data
  deriving DecidableEq, Repr

/-- One access to the volume: `len` bytes from `off`. -/
structure Access where
  site : Site
  off : Nat
  len : Nat
  deriving DecidableEq, Repr

/-- A driver call. -/
abbrev Fat (α : Type) := Prog Bytes Fault Access α

def loadByte (site : Site) (off : Nat) : Fat UInt8 := do
  Prog.tell ⟨site, off, 1⟩
  return (← Prog.get) off

def loadBytes (site : Site) (off n : Nat) : Fat (List UInt8) := do
  Prog.tell ⟨site, off, n⟩
  return (← Prog.get).slice off n

def storeBytes (site : Site) (off : Nat) (bs : List UInt8) : Fat Unit := do
  Prog.tell ⟨site, off, bs.length⟩
  Prog.modify fun v => v.store off bs

/-- `read16` -/
def read16 (site : Site) (off : Nat) : Fat Nat := do
  Prog.tell ⟨site, off, 2⟩
  return (← Prog.get).word16 off

/-- A `uint32_t` read through a packed struct field. -/
def read32 (site : Site) (off : Nat) : Fat Nat := do
  Prog.tell ⟨site, off, 4⟩
  return (← Prog.get).word32 off

/-! ## The BPB fields and what `fat12_init` derives from them -/

/-- The driver's statics, as `fat12_init` reads them from the volume. -/
structure Bpb where
  bytesPerSector : Nat
  sectorsPerCluster : Nat
  reservedSectors : Nat
  numFats : Nat
  rootEntryCount : Nat
  totalSectors : Nat
  sectorsPerFat : Nat
  deriving DecidableEq, Repr

namespace Bpb

variable (g : Bpb)

def fatOffset : Nat := u32 (g.reservedSectors * g.bytesPerSector)

def rootDirOffset : Nat :=
  u32 ((g.reservedSectors + g.numFats * g.sectorsPerFat) * g.bytesPerSector)

def rootDirSectors : Nat := (g.rootEntryCount * 32 + g.bytesPerSector - 1) / g.bytesPerSector

def dataStartOffset : Nat := u32 (g.rootDirOffset + g.rootDirSectors * g.bytesPerSector)

def clusterBytes : Nat := g.sectorsPerCluster * g.bytesPerSector

/-- `total_sectors * bytes_per_sector - data_start_offset`, unsigned. -/
def dataBytes : Nat :=
  u32 (u32 (g.totalSectors * g.bytesPerSector) + (4294967296 - g.dataStartOffset))

/-- The number of data clusters, when there is a cluster size to divide by. -/
def dataClusters : Nat := g.dataBytes / g.clusterBytes

/-- `cluster_to_offset` -/
def clusterToOffset (cluster : Nat) : Nat :=
  u32 (g.dataStartOffset +
    (cluster + (4294967296 - 2)) * g.sectorsPerCluster * g.bytesPerSector)

/-- Where `fat12_read_fat` and `fat12_write_fat` look: 1.5 bytes per entry. -/
def fatEntryOffset (cluster : Nat) : Nat := u32 (g.fatOffset + (cluster + cluster / 2))

/-- Where `dir[i]` lies. -/
def direntOffset (i : Nat) : Nat := u32 (g.rootDirOffset + 32 * i)

end Bpb

/-- `fat12_init` -/
def fat12Init : Fat Bpb := do
  let bytesPerSector ← read16 .bpb 11
  let sectorsPerCluster ← loadByte .bpb 13
  let reservedSectors ← read16 .bpb 14
  let numFats ← loadByte .bpb 16
  let rootEntryCount ← read16 .bpb 17
  let totalSectors ← read16 .bpb 19
  let sectorsPerFat ← read16 .bpb 22
  -- the division that computes root_dir_sectors
  if bytesPerSector = 0 then Prog.halt .divideError
  else return {
    bytesPerSector, reservedSectors, rootEntryCount, totalSectors, sectorsPerFat
    sectorsPerCluster := sectorsPerCluster.toNat
    numFats := numFats.toNat }

/-! ## FAT entries -/

/-- `fat12_read_fat` -/
def fat12ReadFat (g : Bpb) (site : Site) (cluster : Nat) : Fat Nat := do
  let val ← read16 site (g.fatEntryOffset cluster)
  return if cluster % 2 = 1 then val / 16 else val % 4096

/-- The two bytes `fat12_write_fat` leaves for `cluster`, from the two it finds. -/
def packFat (cluster value p0 p1 : Nat) : List UInt8 :=
  if cluster % 2 = 1 then
    [UInt8.ofNat (p0 % 16 + value % 16 * 16), UInt8.ofNat (value / 16 % 256)]
  else
    [UInt8.ofNat (value % 256), UInt8.ofNat (p1 / 16 * 16 + value / 256 % 16)]

/-- `fat12_write_fat` -/
def fat12WriteFat (g : Bpb) (cluster value : Nat) : Fat Unit := do
  let p0 ← loadByte .writeFat (g.fatEntryOffset cluster)
  let p1 ← loadByte .writeFat (g.fatEntryOffset cluster + 1)
  storeBytes .writeFat (g.fatEntryOffset cluster) (packFat cluster value p0.toNat p1.toNat)

/-- The expression `max_clusters` of the loops below. -/
def maxClusters (g : Bpb) : Fat Nat :=
  if g.clusterBytes = 0 then Prog.halt .divideError else return g.dataClusters

/-- The loop of `fat12_free_chain`: `n` is what is left of `max_clusters`. -/
def freeChainLoop (g : Bpb) : (n cluster : Nat) → Fat Unit
  | 0, _ => return ()
  | n + 1, cluster =>
    if 2 ≤ cluster ∧ cluster < 0xFF8 then do
      let next ← fat12ReadFat g .chain cluster
      fat12WriteFat g cluster 0x000
      freeChainLoop g n next
    else return ()

/-- `fat12_free_chain` -/
def fat12FreeChain (g : Bpb) (start : Nat) : Fat Unit := do
  freeChainLoop g (← maxClusters g) start

/-- The loop of `fat12_alloc_cluster`, whose counter is a `uint16_t`. It only
reads, so a counter that comes round to where it began comes round for
ever: `fuel` counts the values it can take. -/
def allocLoop (g : Bpb) (limit : Nat) : (fuel c : Nat) → Fat Nat
  | 0, _ => Prog.halt .hang
  | fuel + 1, c =>
    if c < limit then do
      let val ← fat12ReadFat g .alloc c
      if val = 0x000 then return c else allocLoop g limit fuel (u16 (c + 1))
    else return 0

/-- `fat12_alloc_cluster` -/
def fat12AllocCluster (g : Bpb) : Fat Nat := do
  allocLoop g ((← maxClusters g) + 2) 65536 2

/-! ## The root directory -/

/-- Field offsets of `struct fat12_raw_dirent`. -/
abbrev attrField : Nat := 11
abbrev firstClusterField : Nat := 26
abbrev sizeField : Nat := 28

/-- The name comparison: stops at the first byte that differs. -/
def matchName (off : Nat) : List UInt8 → Fat Bool
  | [] => return true
  | b :: bs => do
    let c ← loadByte .dir off
    if c ≠ b then return false else matchName (off + 1) bs

/-- The search every call makes: the first live entry with the folded name,
among the `n` entries from `i`. -/
def findEntry (g : Bpb) (name83 : List UInt8) : (n i : Nat) → Fat (Option Nat)
  | 0, _ => return none
  | n + 1, i => do
    let mark ← loadByte .dir (g.direntOffset i)
    if mark = 0x00 then return none
    else if mark = 0xE5 then findEntry g name83 n (i + 1)
    else
      let attr ← loadByte .dir (g.direntOffset i + attrField)
      if attr &&& 0x08 ≠ 0 then findEntry g name83 n (i + 1)
      else if attr &&& 0x10 ≠ 0 then findEntry g name83 n (i + 1)
      else if ← matchName (g.direntOffset i) name83 then return some i
      else findEntry g name83 n (i + 1)

/-- The search of `fat12_write_file` for a slot a new entry can take. -/
def findSlot (g : Bpb) : (n i : Nat) → Fat (Option Nat)
  | 0, _ => return none
  | n + 1, i => do
    let mark ← loadByte .dir (g.direntOffset i)
    if mark = 0x00 ∨ mark = 0xE5 then return some i else findSlot g n (i + 1)

/-- `struct fat12_dirent`, the name without its terminator. -/
structure Dirent where
  name : List UInt8
  size : Nat
  attr : UInt8
  deriving DecidableEq, Repr

/-- The loop of `fat12_list_root`: `room` is what is left of `max_entries`. -/
def listLoop (g : Bpb) : (n i room : Nat) → Fat (List Dirent)
  | 0, _, _ => return []
  | n + 1, i, room =>
    if room = 0 then return []
    else do
      let mark ← loadByte .dir (g.direntOffset i)
      if mark = 0x00 then return []
      else if mark = 0xE5 then listLoop g n (i + 1) room
      else
        let attr ← loadByte .dir (g.direntOffset i + attrField)
        if attr &&& 0x08 ≠ 0 then listLoop g n (i + 1) room
        else if attr &&& 0x10 ≠ 0 then listLoop g n (i + 1) room
        else
          let raw ← loadBytes .dir (g.direntOffset i) 11
          let size ← read32 .dir (g.direntOffset i + sizeField)
          let rest ← listLoop g n (i + 1) (room - 1)
          return ⟨formatName raw, size, attr⟩ :: rest

/-- `fat12_list_root`: the entries written to `buf`; the result is their number. -/
def fat12ListRoot (g : Bpb) (maxEntries : Nat) : Fat (List Dirent) :=
  listLoop g g.rootEntryCount 0 maxEntries

/-! ## Reading, writing, deleting -/

/-- The loop of `fat12_read_file`: the bytes copied to `buf + read` on. -/
def readLoop (g : Bpb) (toRead : Nat) : (n read cluster : Nat) → Fat (List UInt8)
  | 0, _, _ => return []
  | n + 1, read, cluster =>
    if read < toRead ∧ 2 ≤ cluster ∧ cluster < 0xFF8 then do
      let chunk := if u32 (read + g.clusterBytes) > toRead then toRead - read else g.clusterBytes
      let bs ← loadBytes .data (g.clusterToOffset cluster) chunk
      let next ← fat12ReadFat g .chain cluster
      let rest ← readLoop g toRead n (u32 (read + chunk)) next
      return bs ++ rest
    else return []

/-- `fat12_read_file`: `none` is -1; otherwise the bytes stored to `buf`, whose
number is the result. -/
def fat12ReadFile (g : Bpb) (name : CString) (bufSize : Nat) : Fat (Option (List UInt8)) := do
  match ← findEntry g (nameTo83 name) g.rootEntryCount 0 with
  | none => return none
  | some i =>
    let fileSize ← read32 .dir (g.direntOffset i + sizeField)
    let cluster ← read16 .dir (g.direntOffset i + firstClusterField)
    let toRead := if fileSize < bufSize then fileSize else bufSize
    let bs ← readLoop g toRead (← maxClusters g) 0 cluster
    return some bs

/-- `if (start >= 2) fat12_free_chain(start);` -/
def freeFrom (g : Bpb) (start : Nat) : Fat Unit :=
  if 2 ≤ start then fat12FreeChain g start else return ()

/-- `if (prev_cluster != 0) fat12_write_fat(prev_cluster, cluster);` -/
def linkFrom (g : Bpb) (prevCluster cluster : Nat) : Fat Unit :=
  if prevCluster ≠ 0 then fat12WriteFat g prevCluster cluster else return ()

/-- One round of the allocation loop of `fat12_write_file`: the cluster taken and the
number of bytes written to it, or `none` when the disk is full. -/
def writeRound (g : Bpb) (data : List UInt8) (prevCluster written : Nat) :
    Fat (Option (Nat × Nat)) := do
  let cluster ← fat12AllocCluster g
  if cluster = 0 then return none
  else
    linkFrom g prevCluster cluster
    let chunk :=
      if u32 (written + g.clusterBytes) > data.length then data.length - written
      else g.clusterBytes
    storeBytes .data (g.clusterToOffset cluster) ((data.drop written).take chunk)
    fat12WriteFat g cluster 0xFFF
    return some (cluster, chunk)

/-- The allocation loop: `none` when the disk is full, otherwise the first cluster of the
new chain. Every round writes at least one byte, so `fuel` is one more than the bytes
to write. -/
def writeLoop (g : Bpb) (data : List UInt8) :
    (fuel firstCluster prevCluster written : Nat) → Fat (Option Nat)
  | 0, _, _, _ => Prog.halt .hang
  | fuel + 1, firstCluster, prevCluster, written =>
    if written < data.length then do
      match ← writeRound g data prevCluster written with
      | none => return none
      | some (cluster, chunk) =>
        writeLoop g data fuel (if firstCluster = 0 then cluster else firstCluster) cluster
          (u32 (written + chunk))
    else return some firstCluster

/-- `entry->first_cluster = first_cluster; entry->size = size;` -/
def storeEntry (g : Bpb) (i firstCluster size : Nat) : Fat Unit := do
  storeBytes .dir (g.direntOffset i + firstClusterField) (Bytes.le16 firstCluster)
  storeBytes .dir (g.direntOffset i + sizeField) (Bytes.le32 size)

/-- The directory update at the end of `fat12_write_file`. -/
def updateDir (g : Bpb) (name83 : List UInt8) (existing : Option Nat) (firstCluster size : Nat) :
    Fat Int :=
  match existing with
  | some i => do
    storeEntry g i firstCluster size
    return 0
  | none => do
    match ← findSlot g g.rootEntryCount 0 with
    | none => return -1
    | some i =>
      storeBytes .dir (g.direntOffset i) (List.replicate 32 0)
      storeBytes .dir (g.direntOffset i) name83
      storeBytes .dir (g.direntOffset i + attrField) [0x20]
      storeEntry g i firstCluster size
      return 0

/-- The release at the start of `fat12_write_file`: an existing file gives up
its chain before the new one is allocated. -/
def freeExisting (g : Bpb) : Option Nat → Fat Unit
  | none => return ()
  | some i => do freeFrom g (← read16 .dir (g.direntOffset i + firstClusterField))

/-- `fat12_write_file` -/
def fat12WriteFile (g : Bpb) (name : CString) (data : List UInt8) : Fat Int := do
  let existing ← findEntry g (nameTo83 name) g.rootEntryCount 0
  freeExisting g existing
  match ← writeLoop g data (data.length + 1) 0 0 0 with
  | none => return -1
  | some firstCluster =>
    updateDir g (nameTo83 name) existing (if data.length = 0 then 0 else firstCluster) data.length

/-- `fat12_delete_file` -/
def fat12DeleteFile (g : Bpb) (name : CString) : Fat Int := do
  match ← findEntry g (nameTo83 name) g.rootEntryCount 0 with
  | none => return -1
  | some i =>
    freeFrom g (← read16 .dir (g.direntOffset i + firstClusterField))
    storeBytes .dir (g.direntOffset i) [0xE5]
    return 0

end RainbowOs.Fat12
