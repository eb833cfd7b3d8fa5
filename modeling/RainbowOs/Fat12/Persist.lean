import RainbowOs.Fat12.Diskfs
import RainbowOs.Fat12.Footprint

/-!
# The disk behind the volume

The rest of `kernel/fs/diskfs.c`: the volume is read from its partition
when the system starts, and written back as a whole after every call that
changed it. The drive (`kernel/drivers/ata.c`) is an array of sectors that
completes a command or fails it; a failed write has left its sectors as
they were, a failed read has delivered some of them.

`partitionLoop` moves the partition in commands of at most 255 sectors.
Its law for writing holds for every sequence of answers, so it also says
what a sync that failed half way has done: nothing outside the partition.
-/

namespace RainbowOs.Fat12

open RainbowOs.Lib

abbrev hddFsStartSector : Nat := 262
abbrev hddFsSectorCount : Nat := 2048

/-- What the drive answers to a command. A failed read delivers the first `sectors`. -/
inductive Answer where
  | ok
  | fail (sectors : Nat)
  deriving DecidableEq, Repr

/-- A command that moves sectors. -/
structure AtaCommand where
  write : Bool
  lba : Nat
  count : Nat
  deriving DecidableEq, Repr

/-- The statics of the file system, the disk, and the answers to the commands to come.
`bpb` and `onRamdisk` are what the last `fat12_init` set: the geometry, and which
of the two buffers `vol` points to. -/
structure DiskState where
  volume : Bytes
  ramdisk : Bytes
  disk : Bytes
  answers : Nat → Answer
  diskAvailable : Bool
  onRamdisk : Bool
  bpb : Bpb

/-- A call of the file system. -/
abbrev Disk (α : Type) := Prog DiskState Fault AtaCommand α

/-! ## The drive -/

/-- The answer to the next command. -/
def ataAnswer : Disk Answer := do
  let s ← Prog.get
  Prog.modify fun s => { s with answers := fun n => s.answers (n + 1) }
  return s.answers 0

/-- `ata_init` -/
def ataInit : Disk Int := do
  match ← ataAnswer with
  | .ok => return 0
  | .fail _ => return -1

/-- The sector a command addresses: 28 bits of `lba` are sent. -/
def ataSector (lba : Nat) : Nat := lba % 268435456

/-- `ata_read_sectors`, into the volume at `off`. -/
def ataReadSectors (lba count off : Nat) : Disk Int := do
  if count = 0 then return -1
  else
    Prog.tell ⟨false, ataSector lba, count⟩
    match ← ataAnswer with
    | .ok =>
      Prog.modify fun s => { s with
        volume := s.volume.store off (s.disk.slice (ataSector lba * 512) (count * 512)) }
      return 0
    | .fail sectors =>
      Prog.modify fun s => { s with
        volume := s.volume.store off
          (s.disk.slice (ataSector lba * 512) (min sectors count * 512)) }
      return -1

/-- `ata_write_sectors`, from the volume at `off`. -/
def ataWriteSectors (lba count off : Nat) : Disk Int := do
  if count = 0 then return -1
  else
    Prog.tell ⟨true, ataSector lba, count⟩
    match ← ataAnswer with
    | .ok =>
      Prog.modify fun s => { s with
        disk := s.disk.store (ataSector lba * 512) (s.volume.slice off (count * 512)) }
      return 0
    | .fail _ => return -1

/-! ## The partition -/

/-- The loop of `read_partition` and `write_partition`. Every round moves a sector at least,
so `fuel` is one more than the sectors. -/
def partitionLoop (io : Nat → Nat → Nat → Disk Int) : (fuel lba off remaining : Nat) → Disk Int
  | 0, _, _, _ => Prog.halt .hang
  | fuel + 1, lba, off, remaining =>
    if remaining > 0 then do
      let chunk := if remaining > 255 then 255 else remaining
      if (← io lba chunk off) ≠ 0 then return -1
      else partitionLoop io fuel (lba + chunk) (off + chunk * 512) (remaining - chunk)
    else return 0

/-- `read_partition` -/
def readPartition : Disk Int :=
  partitionLoop ataReadSectors (hddFsSectorCount + 1) hddFsStartSector 0 hddFsSectorCount

/-- `write_partition` -/
def writePartition : Disk Int :=
  partitionLoop ataWriteSectors (hddFsSectorCount + 1) hddFsStartSector 0 hddFsSectorCount

/-! ## The file system -/

/-- The buffer `vol` points to. -/
def DiskState.vol (s : DiskState) : Bytes := if s.onRamdisk then s.ramdisk else s.volume

def DiskState.setVol (s : DiskState) (v : Bytes) : DiskState :=
  if s.onRamdisk then { s with ramdisk := v } else { s with volume := v }

/-- A driver call on the buffer `vol` points to. -/
def onVol {α : Type} (p : Fat α) : Disk α := fun s =>
  ⟨(p s.vol).out, s.setVol (p s.vol).state, []⟩

/-- `fat12_init` of one of the two buffers. -/
def mount (onRamdisk : Bool) : Disk Unit := do
  Prog.modify fun s => { s with onRamdisk }
  let g ← onVol fat12Init
  Prog.modify fun s => { s with bpb := g }

/-- `ramdisk_init` -/
def ramdiskMount : Disk Unit := do
  Prog.modify fun s => { s with ramdisk := Ramdisk.ramdiskInit }
  mount true

/-- `diskfs_init` -/
def diskfsInit : Disk Unit := do
  if (← ataInit) ≠ 0 then ramdiskMount
  else if (← readPartition) ≠ 0 then ramdiskMount
  else
    Prog.modify fun s => { s with diskAvailable := true }
    if Diskfs.bpbValid (← Prog.get).volume then mount false
    else
      Prog.modify fun s => { s with volume := Diskfs.formatVolume s.volume }
      let _ ← writePartition
      mount false

/-- `diskfs_sync` -/
def diskfsSync : Disk Int := do
  if (← Prog.get).diskAvailable then writePartition else return -1

/-- `if (result == 0 && disk_available) diskfs_sync();` -/
def syncAfter (result : Int) : Disk Unit := do
  if result = 0 ∧ (← Prog.get).diskAvailable then
    let _ ← diskfsSync
  else return ()

/-- `diskfs_write_file` -/
def diskfsWriteFile (name : CString) (data : List UInt8) : Disk Int := do
  let result ← onVol (fat12WriteFile (← Prog.get).bpb name data)
  syncAfter result
  return result

/-- `diskfs_delete_file` -/
def diskfsDeleteFile (name : CString) : Disk Int := do
  let result ← onVol (fat12DeleteFile (← Prog.get).bpb name)
  syncAfter result
  return result

/-- A call on the mounted file system. -/
inductive FsCall where
  | list (maxEntries : Nat)
  | read (name : CString) (bufSize : Nat)
  | write (name : CString) (data : List UInt8)
  | delete (name : CString)
  | sync

def FsCall.run : FsCall → Disk Reply
  | .list n => do return .entries (← onVol (fat12ListRoot (← Prog.get).bpb n))
  | .read name n => do return .bytes (← onVol (fat12ReadFile (← Prog.get).bpb name n))
  | .write name data => do return .status (← diskfsWriteFile name data)
  | .delete name => do return .status (← diskfsDeleteFile name)
  | .sync => do return .status (← diskfsSync)

/-! ## Moving the partition -/

/-- The command keeps to the partition. -/
def InPartition (c : AtaCommand) : Prop :=
  hddFsStartSector ≤ c.lba ∧ c.lba + c.count ≤ hddFsStartSector + hddFsSectorCount

/-- The number of commands that move so many sectors. -/
def chunks (remaining : Nat) : Nat := (remaining + 254) / 255

section Loop

variable {P : AtaCommand → Prop} {H : Fault → DiskState → Prop} {s : DiskState}

/-- The state after a command is answered. -/
def DiskState.answered (s : DiskState) : DiskState :=
  { s with answers := fun n => s.answers (n + 1) }

theorem wp_ataAnswer {Q : Answer → DiskState → Prop} (h : Q (s.answers 0) s.answered) :
    ataAnswer.wp P Q H s :=
  Prog.wp_bind.mpr (Prog.wp_get (Prog.wp_bind.mpr (Prog.wp_modify (Prog.wp_pure h))))

theorem wp_ataWriteSectors {lba count off : Nat} (hlba : lba < 268435456) (hcount : count ≠ 0)
    {Q : Int → DiskState → Prop} (hP : P ⟨true, lba, count⟩)
    (hok : s.answers 0 = .ok → Q 0 { s.answered with
      disk := s.disk.store (lba * 512) (s.volume.slice off (count * 512)) })
    (hfail : s.answers 0 ≠ .ok → Q (-1) s.answered) :
    (ataWriteSectors lba count off).wp P Q H s := by
  have hsec : ataSector lba = lba := Nat.mod_eq_of_lt hlba
  unfold ataWriteSectors
  rw [if_neg hcount, hsec]
  refine Prog.wp_bind.mpr (Prog.wp_tell hP (Prog.wp_bind.mpr (wp_ataAnswer ?_)))
  cases h : s.answers 0 with
  | ok => exact Prog.wp_bind.mpr (Prog.wp_modify (Prog.wp_pure (hok h)))
  | fail n => exact Prog.wp_pure (hfail (by rw [h]; exact Answer.noConfusion))

theorem wp_ataReadSectors {lba count off : Nat} (hlba : lba < 268435456) (hcount : count ≠ 0)
    {Q : Int → DiskState → Prop} (hP : P ⟨false, lba, count⟩)
    (hok : s.answers 0 = .ok → Q 0 { s.answered with
      volume := s.volume.store off (s.disk.slice (lba * 512) (count * 512)) })
    (hfail : s.answers 0 ≠ .ok → ∀ n, n ≤ count → Q (-1) { s.answered with
      volume := s.volume.store off (s.disk.slice (lba * 512) (n * 512)) }) :
    (ataReadSectors lba count off).wp P Q H s := by
  have hsec : ataSector lba = lba := Nat.mod_eq_of_lt hlba
  unfold ataReadSectors
  rw [if_neg hcount, hsec]
  refine Prog.wp_bind.mpr (Prog.wp_tell hP (Prog.wp_bind.mpr (wp_ataAnswer ?_)))
  cases h : s.answers 0 with
  | ok => exact Prog.wp_bind.mpr (Prog.wp_modify (Prog.wp_pure (hok h)))
  | fail n =>
    exact Prog.wp_bind.mpr (Prog.wp_modify (Prog.wp_pure
      (hfail (by rw [h]; exact Answer.noConfusion) _ (Nat.min_le_right n count))))

theorem chunks_step {remaining : Nat} (h : 0 < remaining) :
    chunks remaining =
      chunks (remaining - if remaining > 255 then 255 else remaining) + 1 := by
  unfold chunks
  split <;> omega

/-- Writing: only the disk changes, only in the sectors that are moved, and when every
command is completed they are the volume's. -/
theorem wp_writeLoop {fuel lba off remaining : Nat} (hlow : 262 ≤ lba)
    (hhigh : lba + remaining = 2310) (hfuel : remaining < fuel) :
    (partitionLoop ataWriteSectors fuel lba off remaining).wp
      (fun c => c.write = true ∧ InPartition c) (fun r s' =>
        ∃ disk answers, s' = { s with disk, answers } ∧
          (∀ k, k < lba * 512 ∨ 2310 * 512 ≤ k → disk k = s.disk k) ∧
          ((∀ n, n < chunks remaining → s.answers n = .ok) → r = 0 ∧
            (∀ k, k < remaining * 512 → disk (lba * 512 + k) = s.volume (off + k)) ∧
            answers = fun n => s.answers (n + chunks remaining))) (fun _ _ => False) s := by
  induction fuel generalizing lba off remaining s with
  | zero => omega
  | succ fuel ih =>
    rw [partitionLoop]
    by_cases hrem : remaining = 0
    · rw [if_neg (by omega)]
      refine Prog.wp_pure ⟨s.disk, s.answers, rfl, fun _ _ => rfl, fun _ => ⟨rfl, fun k hk => ?_, ?_⟩⟩
      · omega
      · rw [hrem]
        rfl
    rw [if_pos (by omega)]
    have hstep := chunks_step (Nat.pos_of_ne_zero hrem)
    obtain ⟨chunk, hchunk⟩ : ∃ chunk, chunk = if remaining > 255 then 255 else remaining := ⟨_, rfl⟩
    have hle : 0 < chunk ∧ chunk ≤ remaining := by
      rw [hchunk]
      split <;> omega
    rw [← hchunk] at hstep ⊢
    have hlba : lba < 268435456 := by omega
    have hin : lba + chunk ≤ 2310 := by omega
    refine Prog.wp_bind.mpr (wp_ataWriteSectors hlba (Nat.pos_iff_ne_zero.mp hle.1)
      ⟨rfl, hlow, hin⟩ (fun hok => ?_) fun hfail => ?_)
    · rw [if_neg (by decide)]
      refine Prog.wp_mono (@ih _ (lba + chunk) (off + chunk * 512) _ (by omega) (by omega) (by omega)) (fun _ h => h)
        (fun r s' hr => ?_) fun _ _ h => h
      obtain ⟨disk, answers, rfl, hout, hdone⟩ := hr
      refine ⟨disk, answers, rfl, fun k hk => ?_, fun hall => ?_⟩
      · rw [hout k (hk.imp_left fun h => Nat.lt_of_lt_of_le h
          (Nat.mul_le_mul_right 512 (Nat.le_add_right lba chunk)))]
        refine Bytes.store_of_not_mem (hk.imp_right fun h => Nat.le_trans ?_ h)
        rw [Bytes.length_slice, ← Nat.add_mul]
        exact Nat.mul_le_mul_right 512 hin
      · rw [hstep] at hall ⊢
        obtain ⟨hr, hnew, hans⟩ := hdone fun n hn => hall (n + 1) (by omega)
        refine ⟨hr, fun k hk => ?_, ?_⟩
        · by_cases hfirst : k < chunk * 512
          · rw [hout _ (by omega)]
            show s.disk.store (lba * 512) _ (lba * 512 + k) = _
            rw [Bytes.store_add (by rw [Bytes.length_slice]; exact hfirst), List.getD_eq_getElem?_getD,
              Bytes.getElem?_slice hfirst]
            rfl
          · have hk' := hnew (k - chunk * 512) (by omega)
            rw [show (lba + chunk) * 512 + (k - chunk * 512) = lba * 512 + k by omega,
              show off + chunk * 512 + (k - chunk * 512) = off + k by omega] at hk'
            exact hk'
        · rw [hans]
          funext n
          show s.answers (n + chunks (remaining - chunk) + 1) = _
          rw [Nat.add_assoc]
    · rw [if_pos (by decide)]
      refine Prog.wp_pure ⟨s.disk, _, rfl, fun _ _ => rfl, fun hall => ?_⟩
      exact absurd (hall 0 (by omega)) hfail

/-- Reading: only the volume changes, only where the sectors go, and when every command
is completed it is the disk's. -/
theorem wp_readLoop {fuel lba off remaining : Nat} (hlow : 262 ≤ lba)
    (hhigh : lba + remaining = 2310) (hfuel : remaining < fuel) :
    (partitionLoop ataReadSectors fuel lba off remaining).wp
      (fun c => c.write = false ∧ InPartition c) (fun r s' =>
        ∃ volume answers, s' = { s with volume, answers } ∧
          ((∀ n, n < chunks remaining → s.answers n = .ok) → r = 0 ∧
            (∀ k, k < off → volume k = s.volume k) ∧
            (∀ k, k < remaining * 512 → volume (off + k) = s.disk (lba * 512 + k)) ∧
            answers = fun n => s.answers (n + chunks remaining))) (fun _ _ => False) s := by
  induction fuel generalizing lba off remaining s with
  | zero => omega
  | succ fuel ih =>
    rw [partitionLoop]
    by_cases hrem : remaining = 0
    · rw [if_neg (by omega)]
      refine Prog.wp_pure ⟨s.volume, s.answers, rfl, fun _ => ⟨rfl, fun _ _ => rfl,
        fun k hk => ?_, ?_⟩⟩
      · omega
      · rw [hrem]
        rfl
    rw [if_pos (by omega)]
    have hstep := chunks_step (Nat.pos_of_ne_zero hrem)
    obtain ⟨chunk, hchunk⟩ : ∃ chunk, chunk = if remaining > 255 then 255 else remaining := ⟨_, rfl⟩
    have hle : 0 < chunk ∧ chunk ≤ remaining := by
      rw [hchunk]
      split <;> omega
    rw [← hchunk] at hstep ⊢
    have hlba : lba < 268435456 := by omega
    have hin : lba + chunk ≤ 2310 := by omega
    refine Prog.wp_bind.mpr (wp_ataReadSectors hlba (Nat.pos_iff_ne_zero.mp hle.1)
      ⟨rfl, hlow, hin⟩ (fun hok => ?_) fun hfail n _ => ?_)
    · rw [if_neg (by decide)]
      refine Prog.wp_mono (@ih _ (lba + chunk) (off + chunk * 512) _ (by omega) (by omega) (by omega)) (fun _ h => h)
        (fun r s' hr => ?_) fun _ _ h => h
      obtain ⟨volume, answers, rfl, hdone⟩ := hr
      refine ⟨volume, answers, rfl, fun hall => ?_⟩
      rw [hstep] at hall ⊢
      obtain ⟨hr, hbelow, hnew, hans⟩ := hdone fun n hn => hall (n + 1) (by omega)
      refine ⟨hr, fun k hk => ?_, fun k hk => ?_, ?_⟩
      · rw [hbelow k (by omega)]
        exact Bytes.store_of_lt hk
      · by_cases hfirst : k < chunk * 512
        · rw [hbelow _ (by omega)]
          show s.volume.store off _ (off + k) = _
          rw [Bytes.store_add (by rw [Bytes.length_slice]; exact hfirst), List.getD_eq_getElem?_getD,
            Bytes.getElem?_slice hfirst]
          rfl
        · have hk' := hnew (k - chunk * 512) (by omega)
          rw [show (lba + chunk) * 512 + (k - chunk * 512) = lba * 512 + k by omega,
            show off + chunk * 512 + (k - chunk * 512) = off + k by omega] at hk'
          exact hk'
      · rw [hans]
        funext n
        show s.answers (n + chunks (remaining - chunk) + 1) = _
        rw [Nat.add_assoc]
    · rw [if_pos (by decide)]
      refine Prog.wp_pure ⟨_, _, rfl, fun hall => ?_⟩
      exact absurd (hall 0 (by omega)) hfail

end Loop

/-- The sectors of the partition hold the volume. -/
def InSync (s : DiskState) : Prop :=
  ∀ k, k < diskfsSize → s.disk (hddFsStartSector * 512 + k) = s.volume k

/-- A byte of the disk outside the partition. -/
def OutsidePartition (k : Nat) : Prop :=
  k < hddFsStartSector * 512 ∨ (hddFsStartSector + hddFsSectorCount) * 512 ≤ k

variable {s s' : DiskState}

/-- What `write_partition` does, and what it has done when all of its nine commands are
completed. -/
theorem wp_writePartition (s : DiskState) :
    writePartition.wp (fun c => c.write = true ∧ InPartition c) (fun r s' =>
      ∃ disk answers, s' = { s with disk, answers } ∧
        (∀ k, OutsidePartition k → disk k = s.disk k) ∧
        ((∀ n, n < 9 → s.answers n = .ok) → r = 0 ∧ InSync s')) (fun _ _ => False) s := by
  refine Prog.wp_mono (wp_writeLoop (Nat.le_refl 262) (show 262 + 2048 = 2310 from rfl)
    (Nat.lt_succ_self 2048)) (fun _ h => h) (fun r s' hr => ?_) fun _ _ h => h
  obtain ⟨disk, answers, rfl, hout, hdone⟩ := hr
  refine ⟨disk, answers, rfl, hout, fun hall => ?_⟩
  obtain ⟨hr, hnew, _⟩ := hdone hall
  refine ⟨hr, fun k hk => ?_⟩
  have hk' := hnew k hk
  rw [Nat.zero_add] at hk'
  exact hk'

/-- A drive that fails the first command is not written to. -/
theorem wp_writePartition_fail (h : s.answers 0 ≠ .ok) :
    writePartition.total (fun c => c.write = true ∧ InPartition c)
      (fun r s' => r = -1 ∧ s' = s.answered) s := by
  unfold writePartition
  rw [partitionLoop, if_pos (by decide)]
  refine Prog.wp_bind.mpr (wp_ataWriteSectors (by decide) (by decide) ⟨rfl, by decide, by decide⟩
    (fun hok => absurd hok h) fun _ => ?_)
  rw [if_pos (by decide)]
  exact Prog.wp_pure ⟨rfl, rfl⟩

theorem wp_readPartition (s : DiskState) :
    readPartition.wp (fun c => c.write = false ∧ InPartition c) (fun r s' =>
      ∃ volume answers, s' = { s with volume, answers } ∧
        ((∀ n, n < 9 → s.answers n = .ok) → r = 0 ∧ InSync s' ∧
          answers = fun n => s.answers (n + 9))) (fun _ _ => False) s := by
  refine Prog.wp_mono (wp_readLoop (Nat.le_refl 262) (show 262 + 2048 = 2310 from rfl)
    (Nat.lt_succ_self 2048)) (fun _ h => h) (fun r s' hr => ?_) fun _ _ h => h
  obtain ⟨volume, answers, rfl, hdone⟩ := hr
  refine ⟨volume, answers, rfl, fun hall => ?_⟩
  obtain ⟨hr, _, hnew, hans⟩ := hdone hall
  refine ⟨hr, fun k hk => ?_, hans⟩
  have hk' := hnew k hk
  rw [Nat.zero_add] at hk'
  exact hk'.symm

/-! ## Mounting -/

theorem wp_onVol {α : Type} {P : AtaCommand → Prop} {Q : α → DiskState → Prop}
    {H : Fault → DiskState → Prop} {p : Fat α}
    (hdone : ∀ a, (p s.vol).out = .done a → Q a (s.setVol (p s.vol).state))
    (hhalt : ∀ e, (p s.vol).out = .halt e → H e (s.setVol (p s.vol).state)) :
    (onVol p).wp P Q H s := by
  refine ⟨fun _ hx => absurd hx List.not_mem_nil, ?_⟩
  simp only [onVol]
  cases h : (p s.vol).out with
  | done a => exact hdone a h
  | halt e => exact hhalt e h

/-- `fat12_init` only reads. -/
theorem fat12Init_state (v : Bytes) : (fat12Init v).state = v := by
  have h := (wp_fat12Init v).2
  cases hout : (fat12Init v).out with
  | done g =>
    rw [hout] at h
    exact h.2.2
  | halt e =>
    rw [hout] at h
    exact h.2.2

theorem DiskState.setVol_vol (s : DiskState) : s.setVol s.vol = s := by
  cases s with
  | mk volume ramdisk disk answers available onRamdisk bpb =>
    cases onRamdisk with
    | false => rfl
    | true => rfl

/-- Mounting a buffer with a sector size. -/
theorem wp_mount {P : AtaCommand → Prop} {Q : Unit → DiskState → Prop}
    {H : Fault → DiskState → Prop} {onRamdisk : Bool}
    (hbps : { s with onRamdisk }.vol.word16 11 ≠ 0)
    (hQ : Q () { s with onRamdisk, bpb := bpbOf { s with onRamdisk }.vol }) :
    (mount onRamdisk).wp P Q H s := by
  refine Prog.wp_bind.mpr (Prog.wp_modify (Prog.wp_bind.mpr (wp_onVol (fun g hg => ?_)
    fun e he => ?_)))
  · rw [fat12Init_out hbps] at hg
    obtain rfl := Outcome.done.inj hg
    rw [fat12Init_state, DiskState.setVol_vol]
    exact Prog.wp_modify hQ
  · rw [fat12Init_out hbps] at he
    cases he

/-- The state of a system that runs from its disk. -/
structure Mounted (s : DiskState) : Prop where
  available : s.diskAvailable = true
  onDisk : s.onRamdisk = false
  valid : Diskfs.bpbValid s.volume = true
  bpb : s.bpb = bpbOf s.volume

/-- A valid volume is mounted. -/
theorem wp_mount_disk {P : AtaCommand → Prop} {Q : Unit → DiskState → Prop}
    {H : Fault → DiskState → Prop} (hvalid : Diskfs.bpbValid s.volume = true)
    (hQ : Q () { s with onRamdisk := false, bpb := bpbOf s.volume }) :
    (mount false).wp P Q H s := by
  have hbps := (Diskfs.bpbValid_iff.mp hvalid).2
  apply wp_mount
  · show s.volume.word16 11 ≠ 0
    rw [hbps]
    decide
  · exact hQ

theorem wp_mount_ramdisk {P : AtaCommand → Prop} {Q : Unit → DiskState → Prop}
    {H : Fault → DiskState → Prop} (hbps : s.ramdisk.word16 11 ≠ 0)
    (hQ : Q () { s with onRamdisk := true, bpb := bpbOf s.ramdisk }) : (mount true).wp P Q H s :=
  wp_mount hbps hQ

/-- `ramdisk_init` leaves the disk alone. -/
theorem wp_ramdiskMount (s : DiskState) {P : AtaCommand → Prop} {H : Fault → DiskState → Prop} :
    ramdiskMount.wp P (fun _ s' => s'.diskAvailable = s.diskAvailable ∧ s'.disk = s.disk) H s := by
  have hbps : Ramdisk.ramdiskInit.word16 11 ≠ 0 := by
    rw [← bpbOf_bytesPerSector, Ramdisk.bpbOf_ramdisk]
    decide
  unfold ramdiskMount
  generalize Ramdisk.ramdiskInit = v at hbps ⊢
  exact Prog.wp_bind.mpr (Prog.wp_modify (wp_mount_ramdisk hbps ⟨rfl, rfl⟩))

/-- Only the partition is written. -/
abbrev Confined (c : AtaCommand) : Prop := c.write = true → InPartition c

theorem wp_ataInit {P : AtaCommand → Prop} {Q : Int → DiskState → Prop}
    {H : Fault → DiskState → Prop} (hok : s.answers 0 = .ok → Q 0 s.answered)
    (hfail : s.answers 0 ≠ .ok → Q (-1) s.answered) : ataInit.wp P Q H s := by
  refine Prog.wp_bind.mpr (wp_ataAnswer ?_)
  cases h : s.answers 0 with
  | ok => exact Prog.wp_pure (hok h)
  | fail n => exact Prog.wp_pure (hfail (by rw [h]; exact Answer.noConfusion))

/-- Starting the system returns; it writes nothing outside the partition; and when it has
found a disk it runs from it. -/
theorem wp_diskfsInit (hoff : s.diskAvailable = false) :
    diskfsInit.total Confined (fun _ s' => (∀ k, OutsidePartition k → s'.disk k = s.disk k) ∧
      (s'.diskAvailable = true → Mounted s')) s := by
  have hram : ∀ t : DiskState, t.diskAvailable = false → t.disk = s.disk →
      ramdiskMount.total Confined (fun _ s' => (∀ k, OutsidePartition k → s'.disk k = s.disk k) ∧
        (s'.diskAvailable = true → Mounted s')) t := by
    intro t ht hdisk
    refine Prog.total_mono (wp_ramdiskMount t) (fun _ h => h) fun _ s' hs' => ?_
    obtain ⟨havail, hdisk'⟩ := hs'
    refine ⟨fun k _ => by rw [hdisk', hdisk], fun hmount => ?_⟩
    rw [havail, ht] at hmount
    cases hmount
  unfold diskfsInit
  refine Prog.wp_bind.mpr (wp_ataInit (fun _ => ?_) fun _ => ?_)
  · rw [if_neg (by decide)]
    refine Prog.wp_bind.mpr (Prog.wp_mono (wp_readPartition _)
      (fun c hc hw => absurd (hc.1.symm.trans hw) (by decide)) (fun r s' hr => ?_) fun _ _ h => h)
    obtain ⟨volume, answers, rfl, _⟩ := hr
    split
    · exact hram _ hoff rfl
    refine Prog.wp_bind.mpr (Prog.wp_modify (Prog.wp_bind.mpr (Prog.wp_get ?_)))
    split
    · next hvalid => exact wp_mount_disk hvalid ⟨fun _ _ => rfl, fun _ => ⟨rfl, rfl, hvalid, rfl⟩⟩
    · refine Prog.wp_bind.mpr (Prog.wp_modify (Prog.wp_bind.mpr (Prog.wp_mono (wp_writePartition _)
        (fun c hc _ => hc.2) (fun r s' hr => ?_) fun _ _ h => h)))
      obtain ⟨disk, answers, rfl, hout, _⟩ := hr
      have hvalid := Diskfs.bpbValid_format volume
      exact wp_mount_disk hvalid ⟨hout, fun _ => ⟨rfl, rfl, hvalid, rfl⟩⟩
  · rw [if_pos (by decide)]
    exact hram _ hoff rfl

/-- Started from a disk whose partition holds a valid volume, and whose commands are all
completed, the system runs from that volume. -/
theorem total_diskfsInit_valid {v : Bytes} (hvalid : Diskfs.bpbValid v = true)
    (hdisk : ∀ k, k < diskfsSize → s.disk (hddFsStartSector * 512 + k) = v k)
    (hall : ∀ n, n < 10 → s.answers n = .ok) :
    diskfsInit.total Confined (fun _ s' => s'.diskAvailable = true ∧ s'.onRamdisk = false ∧
      s'.bpb = bpbOf v ∧ (∀ k, k < diskfsSize → s'.volume k = v k) ∧ s'.disk = s.disk ∧
      s'.answers = fun n => s.answers (n + 10)) s := by
  unfold diskfsInit
  refine Prog.wp_bind.mpr (wp_ataInit (fun _ => ?_) fun hfail =>
    absurd (hall 0 (by decide)) hfail)
  rw [if_neg (by decide)]
  refine Prog.wp_bind.mpr (Prog.wp_mono (wp_readPartition _)
    (fun c hc hw => absurd (hc.1.symm.trans hw) (by decide)) (fun r s' hr => ?_) fun _ _ h => h)
  obtain ⟨volume, answers, rfl, hdone⟩ := hr
  obtain ⟨rfl, hsync, hans⟩ := hdone fun n hn => hall (n + 1) (by omega)
  rw [if_neg (by decide)]
  have heq : ∀ k, k < diskfsSize → volume k = v k := fun k hk =>
    (hsync k hk).symm.trans (hdisk k hk)
  have hboot : ∀ k, k < 24 → volume k = v k := fun k hk => heq k (Nat.lt_trans hk (by decide))
  have hvalid' : Diskfs.bpbValid volume = true := by
    rw [Diskfs.bpbValid_iff] at hvalid ⊢
    rw [hboot 0 (by decide), Bytes.word16_congr (hboot 11 (by decide)) (hboot 12 (by decide))]
    exact hvalid
  refine Prog.wp_bind.mpr (Prog.wp_modify (Prog.wp_bind.mpr (Prog.wp_get ?_)))
  rw [if_pos hvalid']
  exact wp_mount_disk hvalid' ⟨rfl, rfl, bpbOf_congr hboot, heq, rfl, hans⟩

/-! ## The calls -/

/-- What every call leaves as it is: the statics, the disk outside the partition, and,
where the geometry is regular, the boot sector. -/
structure Kept (s s' : DiskState) : Prop where
  available : s'.diskAvailable = s.diskAvailable
  buffer : s'.onRamdisk = s.onRamdisk
  bpb : s'.bpb = s.bpb
  outside : ∀ k, OutsidePartition k → s'.disk k = s.disk k
  boot : s.onRamdisk = false → s.bpb.Regular → ∀ k, k < 512 → s'.volume k = s.volume k

theorem Kept.refl (s : DiskState) : Kept s s :=
  ⟨rfl, rfl, rfl, fun _ _ => rfl, fun _ _ _ _ => rfl⟩

theorem Kept.trans {s s' s'' : DiskState} (h : Kept s s') (h' : Kept s' s'') : Kept s s'' :=
  ⟨h'.available.trans h.available, h'.buffer.trans h.buffer, h'.bpb.trans h.bpb,
    fun k hk => (h'.outside k hk).trans (h.outside k hk), fun hon hreg k hk =>
      (h'.boot (h.buffer.trans hon) (h.bpb.symm ▸ hreg) k hk).trans (h.boot hon hreg k hk)⟩

/-- A driver call changes the buffer, and the boot sector only of an irregular volume. -/
theorem Kept.onVol {α : Type} {R : α → Prop} {p : Fat α} (hp : Footprint p)
    (hw : s.bpb.Regular → Within (fun a => 512 ≤ a.off) (fun _ => True) R p) : Kept s (s.setVol (p s.vol).state) := by
  cases s with
  | mk volume ramdisk disk answers available onRamdisk bpb =>
    cases onRamdisk with
    | false =>
      exact ⟨rfl, rfl, rfl, fun _ _ => rfl, fun _ hreg k hk => hp.boot_eq (hw hreg) volume hk⟩
    | true => exact ⟨rfl, rfl, rfl, fun _ _ => rfl, fun h => absurd h Bool.true_eq_false.mp⟩

/-- Writing the partition keeps what was kept. -/
theorem Kept.write (h : Kept s s') {disk : Bytes} {answers : Nat → Answer}
    (hout : ∀ k, OutsidePartition k → disk k = s'.disk k) :
    Kept s { s' with disk, answers } :=
  ⟨h.available, h.buffer, h.bpb, fun k hk => (hout k hk).trans (h.outside k hk), h.boot⟩

/-- A command a call may send. -/
abbrev Syncs (c : AtaCommand) : Prop := c.write = true ∧ InPartition c

/-- The end of `diskfs_write_file` and `diskfs_delete_file`: the mounted volume stays as it is. -/
theorem wp_syncAfter (result : Int) (hkept : Kept s s') :
    (syncAfter result).wp Syncs (fun _ s'' => Kept s s'' ∧ s''.vol = s'.vol ∧
      (result = 0 → s'.diskAvailable = true → (∀ n, n < 9 → s'.answers n = .ok) → InSync s''))
      (fun _ _ => False) s' := by
  unfold syncAfter
  refine Prog.wp_bind.mpr (Prog.wp_get ?_)
  split
  · next h =>
    unfold diskfsSync
    refine Prog.wp_bind.mpr (Prog.wp_bind.mpr (Prog.wp_get ?_))
    rw [if_pos h.2]
    refine Prog.wp_mono (wp_writePartition s') (fun _ h => h) (fun r s'' hr => ?_) fun _ _ h => h
    obtain ⟨disk, answers, rfl, hout, hdone⟩ := hr
    exact Prog.wp_pure ⟨hkept.write hout, rfl, fun _ _ hall => (hdone hall).2⟩
  · next h => exact Prog.wp_pure ⟨hkept, rfl, fun hr havail => absurd ⟨hr, havail⟩ h⟩

/-- A driver call that is followed by a sync when it succeeds. -/
theorem wp_changed (p : Bpb → Fat Int) (hp : Footprint (p s.bpb))
    (hw : s.bpb.Regular → Within (fun a => 512 ≤ a.off) (fun _ => True) (fun _ => True) (p s.bpb)) :
    (do
      let result ← onVol (p (← Prog.get).bpb)
      syncAfter result
      return result : Disk Int).wp Syncs (fun r s' => Kept s s' ∧ (r = 0 →
        (p s.bpb s.vol).out = .done 0 ∧
        (s.diskAvailable = true → (∀ n, n < 9 → s.answers n = .ok) → InSync s')))
      (fun _ s' => Kept s s') s := by
  have hkept := Kept.onVol hp hw
  have hans : (s.setVol (p s.bpb s.vol).state).answers = s.answers := by
    unfold DiskState.setVol
    split <;> rfl
  refine Prog.wp_bind.mpr (Prog.wp_get (Prog.wp_bind.mpr (wp_onVol (fun r hr => ?_) fun _ _ => hkept)))
  refine Prog.wp_bind.mpr (Prog.wp_mono (wp_syncAfter r hkept) (fun _ h => h) (fun _ s'' hs => ?_)
    fun _ _ h => h.elim)
  obtain ⟨hkept'', _, hsync⟩ := hs
  rw [hkept.available, hans] at hsync
  refine Prog.wp_pure ⟨hkept'', fun h0 => ?_⟩
  subst h0
  exact ⟨hr, hsync rfl⟩

/-- The call is a change to the file system. -/
def FsCall.Changes : FsCall → Prop
  | .write _ _ | .delete _ => True
  | _ => False

/-- The call is a change, and reports success. -/
def FsCall.Reported (s : DiskState) (c : FsCall) : Prop :=
  c.Changes ∧ (c.run s).out = .done (.status 0)

/-- The call is a change that succeeds in memory, so it is followed by a sync. -/
def FsCall.Syncing (s : DiskState) : FsCall → Prop
  | .write name data => (fat12WriteFile s.bpb name data s.vol).out = .done 0
  | .delete name => (fat12DeleteFile s.bpb name s.vol).out = .done 0
  | _ => False

/-- One call. -/
theorem FsCall.wp_run (c : FsCall) (s : DiskState) :
    c.run.wp Syncs (fun r s' => Kept s s' ∧ (c.Changes → r = .status 0 → c.Syncing s ∧
      (s.diskAvailable = true → (∀ n, n < 9 → s.answers n = .ok) → InSync s')))
      (fun _ s' => Kept s s') s := by
  have hread : ∀ {α : Type} {R : α → Prop} {p : Fat α} {f : α → Reply}, Footprint p →
      (s.bpb.Regular → Within (fun a => 512 ≤ a.off) (fun _ => True) R p) →
        (do return f (← onVol p) : Disk Reply).wp Syncs
        (fun _ s' => Kept s s') (fun _ s' => Kept s s') s := fun hp hw =>
    Prog.wp_bind.mpr (wp_onVol (fun _ _ => Prog.wp_pure (.onVol hp hw)) fun _ _ => .onVol hp hw)
  have hchange : ∀ {q : Disk Int} {S : Prop}, q.wp Syncs (fun r s' => Kept s s' ∧ (r = 0 →
        S ∧ (s.diskAvailable = true → (∀ n, n < 9 → s.answers n = .ok) → InSync s')))
        (fun _ s' => Kept s s') s →
      (do return Reply.status (← q) : Disk Reply).wp Syncs (fun r s' => Kept s s' ∧
        (True → r = .status 0 → S ∧
          (s.diskAvailable = true → (∀ n, n < 9 → s.answers n = .ok) → InSync s')))
        (fun _ s' => Kept s s') s := fun hq =>
    Prog.wp_bind.mpr (Prog.wp_mono hq (fun _ h => h)
      (fun r s' hr => Prog.wp_pure ⟨hr.1, fun _ h => hr.2 (Reply.status.inj h)⟩) fun _ _ h => h)
  cases c with
  | list n =>
    refine Prog.wp_mono (Prog.wp_bind.mpr (Prog.wp_get (hread (.listLoop _ _ _ _)
      fun hreg => .listLoop hreg.bounds _ ?_))) (fun _ h => h) (fun r s' hr => ⟨hr, False.elim⟩)
      fun _ _ h => h
    exact Nat.le_of_eq (Nat.zero_add _)
  | read name n =>
    exact Prog.wp_mono (Prog.wp_bind.mpr (Prog.wp_get (hread (.readFile _ name n)
      fun hreg => .readFile hreg.bounds hreg.links name n))) (fun _ h => h) (fun r s' hr => ⟨hr, False.elim⟩)
      fun _ _ h => h
  | write name data =>
    exact hchange (wp_changed (fun g => fat12WriteFile g name data) (.writeFile _ name data) fun hreg => .writeFile
      hreg.bounds hreg.links trivial name data)
  | delete name =>
    exact hchange (wp_changed (fun g => fat12DeleteFile g name) (.deleteFile _ name) fun hreg => .deleteFile
      hreg.bounds hreg.links name)
  | sync =>
    refine Prog.wp_bind.mpr ?_
    unfold diskfsSync
    refine Prog.wp_bind.mpr (Prog.wp_get ?_)
    split
    · refine Prog.wp_mono (wp_writePartition s) (fun _ h => h) (fun r s' hr => ?_) fun _ _ h => h.elim
      obtain ⟨disk, answers, rfl, hout, _⟩ := hr
      exact Prog.wp_pure ⟨(Kept.refl s).write hout, False.elim⟩
    · exact Prog.wp_pure (Prog.wp_pure ⟨.refl s, False.elim⟩)

theorem Mounted.step (h : Mounted s) (hreg : s.bpb.Regular) (hkept : Kept s s') : Mounted s' := by
  have hboot := hkept.boot h.onDisk hreg
  refine ⟨hkept.available.trans h.available, hkept.buffer.trans h.onDisk, ?_, ?_⟩
  · have hvalid := h.valid
    rw [Diskfs.bpbValid_iff] at hvalid ⊢
    rw [hboot 0 (by decide), Bytes.word16_congr (hboot 11 (by decide)) (hboot 12 (by decide))]
    exact hvalid
  · rw [hkept.bpb, h.bpb]
    exact bpbOf_congr fun k hk => (hboot k (Nat.lt_trans hk (by decide))).symm

/-! ## Runs -/

/-- A property of a call and the state it is made in, at every call of a run. -/
def FsCall.Along (P : DiskState → FsCall → Prop) : DiskState → List FsCall → Prop
  | _, [] => True
  | s, c :: calls => P s c ∧ FsCall.Along P (c.run s).state calls

/-- What holds of the states a run goes through, and gives `P` of the call made in each
that meets `C`, gives `P` along the run. -/
theorem FsCall.Along.of_invariant {I : DiskState → Prop} {C P : DiskState → FsCall → Prop}
    (hstep : ∀ (s : DiskState) (c : FsCall), I s → I (c.run s).state)
    (hP : ∀ s c, I s → C s c → P s c)
    {calls : List FsCall} (h : I s) (hC : FsCall.Along C s calls) : FsCall.Along P s calls := by
  induction calls generalizing s with
  | nil => trivial
  | cons c calls ih => exact ⟨hP s c h hC.1, ih (hstep s c h) hC.2⟩

/-- Started again from its disk, the system has the geometry and the volume it had, and
a driver call that stays inside the volume answers what it would have answered. -/
def Remounts (s : DiskState) : Prop :=
  ∀ s₀ : DiskState, s₀.disk = s.disk → (∀ n, n < 10 → s₀.answers n = .ok) →
    diskfsInit.total (fun _ => True) (fun _ s' => s'.diskAvailable = true ∧ s'.onRamdisk = false ∧
      s'.bpb = s.bpb ∧ (∀ k, k < diskfsSize → s'.volume k = s.volume k) ∧
      ∀ c : Call, (∀ a ∈ (c.run s.bpb s.volume).log, a.off + a.len ≤ diskfsSize) →
        (c.run s'.bpb s'.volume).out = (c.run s.bpb s.volume).out) s₀

theorem Mounted.remounts (h : Mounted s) (hsync : InSync s) : Remounts s := by
  intro s₀ hdisk hall
  refine Prog.total_mono (total_diskfsInit_valid h.valid (fun k hk => ?_) hall)
    (fun _ _ => trivial) fun _ s' hs' => ?_
  · rw [hdisk]
    exact hsync k hk
  obtain ⟨havail, hbuf, hbpb, hvol, _⟩ := hs'
  rw [← h.bpb] at hbpb
  refine ⟨havail, hbuf, hbpb, hvol, fun c hc => ?_⟩
  rw [hbpb]
  exact (Footprint.call s.bpb c).out_eq fun a ha k hk =>
    hvol k (Nat.lt_of_lt_of_le hk.2 (hc a ha))

/-- The sync after the call, if there is one, meets no failure of the drive. -/
def FsCall.SyncCompletes (s : DiskState) (c : FsCall) : Prop :=
  c.Syncing s → ∀ n, n < 9 → s.answers n = .ok

/-- The call keeps to the partition, and what it has reported done is on the disk. -/
def FsCall.Durable (s : DiskState) (c : FsCall) : Prop :=
  (∀ a ∈ (c.run s).log, InPartition a) ∧
    (∀ k, OutsidePartition k → (c.run s).state.disk k = s.disk k) ∧
    (c.Reported s → InSync (c.run s).state)

theorem FsCall.kept (c : FsCall) (s : DiskState) : Kept s (c.run s).state := by
  have h := (c.wp_run s).2
  cases hout : (c.run s).out with
  | done r =>
    rw [hout] at h
    exact h.1
  | halt e =>
    rw [hout] at h
    exact h

theorem FsCall.durable {c : FsCall} (havail : s.diskAvailable = true) (hok : c.SyncCompletes s) :
    c.Durable s := by
  refine ⟨fun a ha => ((c.wp_run s).1 a ha).2, (c.kept s).outside, fun hrep => ?_⟩
  have h := (c.wp_run s).2
  rw [hrep.2] at h
  obtain ⟨hsyncing, hsync⟩ := h.2 hrep.1 rfl
  exact hsync havail (hok hsyncing)

/-- Starting the system writes nothing outside the partition, and a system that found a
disk runs from it. In any run of such a system whose syncs meet no failure of the drive,
every call keeps to the partition and what a change has reported done is on the disk;
and on a regular geometry the system started again has the same files. -/
theorem reported_success_durable (s : DiskState) (havail : s.diskAvailable = true)
    (calls : List FsCall) (hok : FsCall.Along (fun s c => c.SyncCompletes s) s calls) :
    FsCall.Along (fun s c => c.Durable s) s calls ∧
      (Mounted s → s.bpb.Regular →
        FsCall.Along (fun s c => c.Reported s → Remounts (c.run s).state) s calls) ∧
      ∀ s₀ : DiskState, s₀.diskAvailable = false →
        diskfsInit.total Confined (fun _ s' => (∀ k, OutsidePartition k → s'.disk k = s₀.disk k) ∧
          (s'.diskAvailable = true → Mounted s')) s₀ := by
  refine ⟨?_, fun hm hreg => ?_, fun s₀ h => wp_diskfsInit h⟩
  · exact FsCall.Along.of_invariant (I := fun s => s.diskAvailable = true)
      (fun s c h => (c.kept s).available.trans h) (fun s c h hc => FsCall.durable h hc) havail hok
  · refine FsCall.Along.of_invariant (I := fun s => Mounted s ∧ s.bpb.Regular) (fun s c h => ?_)
      (fun s c h hc hrep => ?_) ⟨hm, hreg⟩ hok
    · exact ⟨h.1.step h.2 (c.kept s), (c.kept s).bpb ▸ h.2⟩
    · exact (h.1.step h.2 (c.kept s)).remounts ((FsCall.durable h.1.available hc).2.2 hrep)

/-- A system whose disk holds an empty volume, before it starts, and what the drive is
going to answer. -/
def freshDisk (answers : Nat → Answer) : DiskState where
  volume := Bytes.zeros
  ramdisk := Bytes.zeros
  disk := fun k => Diskfs.formatVolume Bytes.zeros (k - hddFsStartSector * 512)
  answers := answers
  diskAvailable := false
  onRamdisk := false
  bpb := Diskfs.bpb

theorem freshDisk_disk (answers : Nat → Answer) (k : Nat) :
    (freshDisk answers).disk (hddFsStartSector * 512 + k) = Diskfs.formatVolume Bytes.zeros k := by
  simp only [freshDisk, Nat.add_sub_cancel_left]

/-- The same system once it runs. -/
def runningDisk (answers : Nat → Answer) : DiskState :=
  { freshDisk answers with volume := Diskfs.formatVolume Bytes.zeros, diskAvailable := true }

theorem reported_success_durable_fresh :
    FsCall.Along (fun s c => c.Durable s) (runningDisk fun _ => .ok) [.write xName []] :=
  (reported_success_durable (runningDisk fun _ => .ok) rfl [.write xName []]
    ⟨fun _ _ _ => rfl, trivial⟩).1

/-- What a write of an empty file does to an empty volume. -/
theorem write_fresh :
    ((fat12WriteFile Diskfs.bpb xName [] (Diskfs.formatVolume Bytes.zeros)).out = .done 0 ∧
      ∀ a ∈ (fat12WriteFile Diskfs.bpb xName [] (Diskfs.formatVolume Bytes.zeros)).log,
        a.off + a.len ≤ diskfsSize) ∧
      (fat12WriteFile Diskfs.bpb xName [] (Diskfs.formatVolume Bytes.zeros)).state 2048 = 0x58 := by
  decide

/-- A write that succeeds in memory is reported a success when the drive fails. -/
theorem total_diskfsWriteFile_fail (havail : s.diskAvailable = true) (hbuf : s.onRamdisk = false)
    (hfail : s.answers 0 ≠ .ok) {name : CString} {data : List UInt8}
    (hout : (fat12WriteFile s.bpb name data s.volume).out = .done 0) :
    (diskfsWriteFile name data).total Syncs (fun r s' => r = 0 ∧ s'.disk = s.disk ∧
      s'.volume = (fat12WriteFile s.bpb name data s.volume).state) s := by
  have hvol : s.vol = s.volume := if_neg (by rw [hbuf]; decide)
  have hset : ∀ v, s.setVol v = { s with volume := v } := fun v => if_neg (by rw [hbuf]; decide)
  unfold diskfsWriteFile
  refine Prog.wp_bind.mpr (Prog.wp_get (Prog.wp_bind.mpr (wp_onVol (fun r hr => ?_) fun e he => ?_)))
  · rw [hvol, hout] at hr
    obtain rfl := Outcome.done.inj hr
    rw [hvol, hset]
    unfold syncAfter diskfsSync
    refine Prog.wp_bind.mpr (Prog.wp_bind.mpr (Prog.wp_get ?_))
    rw [if_pos ⟨rfl, havail⟩]
    refine Prog.wp_bind.mpr (Prog.wp_bind.mpr (Prog.wp_get ?_))
    rw [if_pos havail]
    refine Prog.wp_mono (wp_writePartition_fail hfail) (fun _ h => h) (fun r' s' hr' => ?_)
      fun _ _ h => h
    rw [hr'.2]
    exact Prog.wp_pure (Prog.wp_pure ⟨rfl, rfl, rfl⟩)
  · rw [hvol, hout] at he
    cases he

/-- The drive answers while the system starts, and no more. -/
def failsAfterBoot (n : Nat) : Answer := if n < 10 then .ok else .fail 0

/-- A write returns 0 and nothing is on the disk. -/
theorem reported_success_not_durable :
    (diskfsInit (freshDisk failsAfterBoot)).state.diskAvailable = true ∧
      (diskfsWriteFile xName [] (diskfsInit (freshDisk failsAfterBoot)).state).out = .done 0 ∧
      ¬ InSync (diskfsWriteFile xName [] (diskfsInit (freshDisk failsAfterBoot)).state).state := by
  have hold : (freshDisk failsAfterBoot).disk (hddFsStartSector * 512 + 2048) = 0 := by
    decide
  have hinit := total_diskfsInit_valid (s := freshDisk failsAfterBoot)
    (Diskfs.bpbValid_format Bytes.zeros) (fun k _ => freshDisk_disk failsAfterBoot k) fun n hn => if_pos hn
  obtain ⟨_, _, havail, hbuf, hbpb, hvol, hdisk, hans⟩ := hinit.returns
  rw [← hdisk] at hold
  generalize (diskfsInit (freshDisk failsAfterBoot)).state = s at havail hbuf hbpb hvol hold hans ⊢
  rw [Diskfs.bpbOf_format] at hbpb
  -- the driver call does to this volume what it does to an empty one
  obtain ⟨⟨hout, hlog⟩, hstate⟩ := write_fresh
  obtain ⟨hout', _, hstate'⟩ := (Footprint.writeFile Diskfs.bpb xName []
    (Diskfs.formatVolume Bytes.zeros)).2 s.volume fun a ha k hk =>
      hvol k (Nat.lt_of_lt_of_le hk.2 (hlog a ha))
  have hnew := (hstate' 2048 (hvol 2048 (by decide))).trans hstate
  rw [hout, ← hbpb] at hout'
  rw [← hbpb] at hnew
  have hfail : s.answers 0 ≠ .ok := by
    rw [hans]
    decide
  obtain ⟨r, hr, rfl, hdisk', hvolume⟩ :=
    (total_diskfsWriteFile_fail havail hbuf hfail hout').returns
  refine ⟨havail, hr, fun hsync => ?_⟩
  have heq := hsync 2048 (by decide)
  rw [hvolume, hdisk', hnew, hold] at heq
  cases heq

end RainbowOs.Fat12
