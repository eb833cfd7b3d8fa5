import RainbowOs.Lib.Bytes

/-!
# Loading the kernel

`boot/stage2.asm`: the loop that reads the kernel from the boot drive in real
mode. Each round reads as many sectors as there are on the track, in the
segment and of the kernel, and advances the place on the disk and the place in
memory. The BIOS is a parameter: a read that stays on one track and in one
segment delivers its sectors.
-/

namespace RainbowOs.Boot

open RainbowOs.Lib

abbrev kernelTmpSeg : Nat := 0x2000
abbrev kernelStartSector : Nat := 6
abbrev kernelSectors : Nat := 256

/-- `boot_drive`, `spt` and `max_head`. -/
structure Geometry where
  bootDrive : Nat
  spt : Nat
  maxHead : Nat

/-- The answer to `INT 13h AH=08h`, `CL` and `DH`; none where it fails. -/
def queryGeometry (dl : Nat) (answer : Option (Nat × Nat)) : Geometry :=
  match answer with
  | some (cl, dh) => ⟨dl, cl &&& 0x3F, dh⟩
  | none => ⟨dl, 18, 1⟩

/-- The registers of `INT 13h AH=02h`. -/
structure ReadRequest where
  al : Nat
  ch : Nat
  cl : Nat
  dh : Nat
  dl : Nat
  es : Nat
  bx : Nat

/-- What it leaves: the carry flag, `AL` and the memory. -/
structure ReadAnswer where
  carry : Bool
  al : Nat
  mem : Bytes

/-- The registers and the variables of the loop, the memory, and the reads so far, which it does not
read. -/
structure LoadState where
  es : Nat
  bx : Nat
  sectorsLeft : Nat
  curSector : Nat
  curHead : Nat
  curCylinder : Nat
  mem : Bytes
  reads : List ReadRequest

section Loop

variable (int13 : ReadRequest → Bytes → ReadAnswer) (g : Geometry)

/-- The state before `.read_loop`. -/
def loadStart (mem : Bytes) : LoadState where
  es := kernelTmpSeg
  bx := 0
  sectorsLeft := kernelSectors
  curSector := kernelStartSector
  curHead := 0
  curCylinder := 0
  mem := mem
  reads := []

/-- From `.read_loop` to `int 0x13`. -/
def readRequest (s : LoadState) : ReadRequest :=
  let cx := u16 (u16 (g.spt + 1) + 65536 - s.curSector)
  let cx := if cx ≤ s.sectorsLeft then cx else s.sectorsLeft
  -- the bytes that are left in the segment, 0 for all of it
  let ax := u16 (65536 - s.bx)
  let cx := if ax = 0 then cx else if cx ≤ ax >>> 9 then cx else ax >>> 9
  { al := cx % 256, ch := s.curCylinder % 256, cl := s.curSector, dh := s.curHead, dl := g.bootDrive,
    es := s.es, bx := s.bx }

/-- Where a round of the loop leaves it. -/
inductive Round where
  | again (s : LoadState)
  | finished (s : LoadState)
  | diskError

/-- The buffer pointer and the count, after a read. -/
def advanceBuffer (s : LoadState) (r : ReadRequest) (answer : ReadAnswer) : LoadState :=
  let cx := u16 (answer.al <<< 9)
  { s with
    mem := answer.mem
    reads := s.reads ++ [r]
    bx := u16 (s.bx + cx)
    es := if s.bx + cx ≥ 65536 then u16 (s.es + 0x1000) else s.es
    sectorsLeft := u16 (s.sectorsLeft + 65536 - answer.al) }

/-- The place on the disk, after a read. -/
def advancePosition (s : LoadState) (al : Nat) : LoadState :=
  let ax := u16 (s.curSector + al)
  if ax < u16 (g.spt + 1) then { s with curSector := ax % 256 }
  else
    let al := (s.curHead + 1) % 256
    if al ≤ g.maxHead then { s with curSector := 1, curHead := al }
    else { s with curSector := 1, curHead := 0, curCylinder := u16 (s.curCylinder + 1) }

/-- One round of `.read_loop`. -/
def readRound (s : LoadState) : Round :=
  let r := readRequest g s
  let answer := int13 r s.mem
  if answer.carry then .diskError
  else
    let s := advanceBuffer s r answer
    if s.sectorsLeft = 0 then .finished s else .again (advancePosition g s answer.al)

/-- `.read_loop`, for so many rounds: none where it has not come to `.read_done`. -/
def readLoop : Nat → LoadState → Option LoadState
  | 0, _ => none
  | fuel + 1, s =>
    match readRound int13 g s with
    | .again s => readLoop fuel s
    | .finished s => some s
    | .diskError => none

end Loop

/-! ## The disk -/

/-- The bytes of a disk, by cylinder, head, sector and offset. -/
abbrev Disk := Nat → Nat → Nat → Nat → UInt8

variable (disk : Disk) (g : Geometry)

/-- A sector. -/
def sector (cylinder head sector : Nat) : List UInt8 := (List.range 512).map (disk cylinder head sector)

/-- A sector by its number on the disk. -/
def lbaSector (lba : Nat) : List UInt8 :=
  sector disk (lba / g.spt / (g.maxHead + 1)) (lba / g.spt % (g.maxHead + 1)) (lba % g.spt + 1)

/-- So many sectors of the kernel, which begins at sector 5. -/
def image (k : Nat) : List UInt8 := (List.range k).flatMap fun i => lbaSector disk g (5 + i)

/-- A read stays on one track and in one segment. -/
structure ReadRequest.Within (r : ReadRequest) : Prop where
  some : 0 < r.al
  track : r.cl + r.al ≤ g.spt + 1
  segment : r.bx + 512 * r.al ≤ 65536

/-- What such a read delivers: the cylinder is in `CH` and the two high bits of `CL`. -/
def delivered (r : ReadRequest) : List UInt8 :=
  (List.range r.al).flatMap fun i => sector disk (r.ch + 256 * (r.cl / 64)) r.dh (r.cl % 64 + i)

/-- The BIOS delivers the sectors that are requested. -/
def Delivers (int13 : ReadRequest → Bytes → ReadAnswer) : Prop :=
  ∀ (r : ReadRequest) (m : Bytes), r.Within g →
    int13 r m = ⟨false, r.al, m.store (16 * r.es + r.bx) (delivered disk r)⟩

/-- A position counted in rows, so many places further in the same row. -/
theorem same_row {a m n : Nat} (h : a % m + n < m) : (a + n) / m = a / m ∧ (a + n) % m = a % m + n := by
  have hsplit : a + n = m * (a / m) + (a % m + n) := by rw [← Nat.add_assoc, Nat.div_add_mod]
  constructor
  · rw [hsplit, Nat.mul_add_div (by omega), Nat.div_eq_of_lt h, Nat.add_zero]
  · rw [hsplit, Nat.mul_add_mod, Nat.mod_eq_of_lt h]

/-- And at the start of the next row. -/
theorem next_row {a m n : Nat} (hm : 0 < m) (h : a % m + n = m) : (a + n) / m = a / m + 1 ∧ (a + n) % m = 0 := by
  have hsplit : a + n = m * (a / m + 1) := by
    rw [Nat.mul_succ]
    exact (congrArg (· + n) (Nat.div_add_mod a m).symm).trans (by rw [Nat.add_assoc, h])
  constructor
  · rw [hsplit, Nat.mul_div_cancel_left _ hm]
  · rw [hsplit, Nat.mul_mod_right]

section Image

variable {disk g}

@[simp] theorem length_sector (c h s : Nat) : (sector disk c h s).length = 512 := by
  rw [sector, List.length_map, List.length_range]

theorem length_image (k : Nat) : (image disk g k).length = 512 * k := by
  induction k with
  | zero => rfl
  | succ k ih =>
    rw [image, List.range_succ, List.flatMap_append, List.length_append, ← image, ih, List.flatMap_singleton,
      lbaSector, length_sector, Nat.mul_succ]

theorem image_add (k n : Nat) :
    image disk g (k + n) = image disk g k ++ (List.range n).flatMap fun i => lbaSector disk g (5 + k + i) := by
  rw [image, image, List.range_add, List.flatMap_append, List.flatMap_map]
  simp only [Nat.add_assoc]

end Image

/-! ## The rounds -/

/-- After so many sectors: the buffer, the memory and the reads. -/
structure Placed (m₀ : Bytes) (k : Nat) (s : LoadState) : Prop where
  left : s.sectorsLeft = kernelSectors - k
  es : s.es = kernelTmpSeg + 0x1000 * (k / 128)
  bx : s.bx = 512 * (k % 128)
  mem : s.mem = m₀.store 0x20000 (image disk g k)
  reads : ∀ r ∈ s.reads, r.Within g

/-- The place of a sector on the disk. -/
structure AtSector (lba : Nat) (s : LoadState) : Prop where
  sector : s.curSector = lba % g.spt + 1
  head : s.curHead = lba / g.spt % (g.maxHead + 1)
  cylinder : s.curCylinder = lba / g.spt / (g.maxHead + 1)

section Rounds

variable {disk g} {int13 : ReadRequest → Bytes → ReadAnswer} {m₀ : Bytes} {k lba : Nat} {s : LoadState}

theorem placed_start (m₀ : Bytes) : Placed disk g m₀ 0 (loadStart m₀) := by
  refine ⟨rfl, rfl, rfl, ?_, nofun⟩
  rw [image, List.range_zero, List.flatMap_nil, Bytes.store_nil]
  rfl

theorem atSector_start (m₀ : Bytes) (hspt : 6 ≤ g.spt) : AtSector g 5 (loadStart m₀) := by
  have hdiv : 5 / g.spt = 0 := Nat.div_eq_of_lt (by omega)
  refine ⟨?_, ?_, ?_⟩
  · rw [Nat.mod_eq_of_lt (by omega)]
    rfl
  · rw [hdiv, Nat.zero_mod]
    rfl
  · rw [hdiv, Nat.zero_div]
    rfl

/-- A read ends at the end of the track, of the segment or of the kernel. -/
theorem readRequest_within (h : Placed disk g m₀ k s) (hat : AtSector g lba s) (hk : k < kernelSectors)
    (hspt : 6 ≤ g.spt) (hmost : g.spt ≤ 63) :
    (readRequest g s).Within g ∧ (readRequest g s).al ≤ kernelSectors - k ∧ (readRequest g s).cl < 64 ∧
      (readRequest g s).es = s.es ∧ (readRequest g s).bx = s.bx ∧ (readRequest g s).cl = s.curSector ∧
      (readRequest g s).dh = s.curHead ∧ (readRequest g s).ch = s.curCylinder % 256 := by
  obtain ⟨hleft, -, hbx, -, -⟩ := h
  have hsector : s.curSector ≤ g.spt ∧ 0 < s.curSector := by
    have hlt := Nat.mod_lt lba (show 0 < g.spt by omega)
    rw [hat.sector]
    omega
  have hsize : kernelSectors = 256 := rfl
  have hal : (readRequest g s).al = if (65536 - s.bx) % 65536 = 0 then min (g.spt + 1 - s.curSector) s.sectorsLeft
      else min (min (g.spt + 1 - s.curSector) s.sectorsLeft) ((65536 - s.bx) % 65536 / 512) := by
    have hcx : u16 (u16 (g.spt + 1) + 65536 - s.curSector) = g.spt + 1 - s.curSector := by
      unfold u16
      omega
    have hclamp : ∀ a b : Nat, (if a ≤ b then a else b) = min a b := fun a b => by split <;> omega
    unfold readRequest
    dsimp only
    rw [hcx, hclamp, hclamp, Nat.shiftRight_eq_div_pow]
    unfold u16
    split
    · exact Nat.mod_eq_of_lt (by omega)
    · exact Nat.mod_eq_of_lt (by omega)
  have hcl : (readRequest g s).cl = s.curSector := rfl
  have hbx' : (readRequest g s).bx = s.bx := rfl
  refine ⟨⟨?_, ?_, ?_⟩, ?_, by omega, rfl, rfl, rfl, rfl, rfl⟩
  · rw [hal]
    split <;> omega
  · rw [hal, hcl]
    split <;> omega
  · rw [hal, hbx']
    split <;> omega
  · rw [hal]
    split <;> omega

theorem delivered_readRequest (hat : AtSector g lba s) (hspt : 6 ≤ g.spt) (hlba : lba < 261) {r : ReadRequest}
    (hr : r.Within g) (hcl : r.cl = s.curSector) (hlow : r.cl < 64) (hdh : r.dh = s.curHead)
    (hch : r.ch = s.curCylinder % 256) :
    delivered disk r = (List.range r.al).flatMap fun i => lbaSector disk g (lba + i) := by
  have hcylinder : r.ch + 256 * (r.cl / 64) = lba / g.spt / (g.maxHead + 1) := by
    have hle : lba / g.spt / (g.maxHead + 1) ≤ lba := Nat.le_trans (Nat.div_le_self _ _) (Nat.div_le_self _ _)
    have hdiv : lba / g.spt ≤ lba / 6 := Nat.div_le_div_left hspt (by decide)
    have hle : lba / g.spt / (g.maxHead + 1) ≤ lba / g.spt := Nat.div_le_self _ _
    rw [hch, hat.cylinder, Nat.div_eq_of_lt hlow, Nat.mod_eq_of_lt (by omega)]
    rfl
  rw [delivered, List.flatMap_def, List.flatMap_def]
  refine congrArg _ (List.map_congr_left fun i hi => ?_)
  have hi := List.mem_range.mp hi
  have htrack := hr.track
  obtain ⟨hdiv, hmod⟩ := same_row (a := lba) (m := g.spt) (n := i) (by rw [hcl, hat.sector] at htrack; omega)
  rw [lbaSector, hdiv, hmod, hcylinder, hdh, hat.head, Nat.mod_eq_of_lt hlow, hcl, hat.sector]
  congr 1
  omega

theorem advancePosition_at (hat : AtSector g lba s) (hspt : 6 ≤ g.spt) (hmost : g.spt ≤ 63) (hlba : lba < 261)
    {n : Nat} (hn : s.curSector + n ≤ g.spt + 1) : AtSector g (lba + n) (advancePosition g s n) := by
  have hsector := hat.sector
  have hlast : u16 (g.spt + 1) = g.spt + 1 := Nat.mod_eq_of_lt (by omega)
  have hnext : u16 (s.curSector + n) = s.curSector + n := Nat.mod_eq_of_lt (by omega)
  unfold advancePosition
  dsimp only
  rw [hnext, hlast]
  split
  · next hlt =>
    obtain ⟨hdiv, hmod⟩ := same_row (a := lba) (m := g.spt) (n := n) (by omega)
    refine ⟨?_, ?_, ?_⟩
    · rw [hmod]
      show (s.curSector + n) % 256 = _
      omega
    · rw [hdiv]
      exact hat.head
    · rw [hdiv]
      exact hat.cylinder
  · next hge =>
    obtain ⟨hdiv, hmod⟩ := next_row (a := lba) (m := g.spt) (n := n) (by omega) (by omega)
    have hdivLt : lba / g.spt ≤ lba / 6 := Nat.div_le_div_left hspt (by decide)
    have hheadLe : lba / g.spt % (g.maxHead + 1) ≤ lba / g.spt := Nat.mod_le _ _
    have hhead : (s.curHead + 1) % 256 = lba / g.spt % (g.maxHead + 1) + 1 := by
      rw [hat.head]
      omega
    have hlast : lba / g.spt % (g.maxHead + 1) < g.maxHead + 1 := Nat.mod_lt _ (Nat.succ_pos _)
    rw [hhead]
    split
    · next hle =>
      obtain ⟨hcylinder, hhead'⟩ := same_row (a := lba / g.spt) (m := g.maxHead + 1) (n := 1) (by omega)
      refine ⟨?_, ?_, ?_⟩
      · rw [hmod]
      · rw [hdiv, hhead']
      · rw [hdiv, hcylinder]
        exact hat.cylinder
    · next hgt =>
      obtain ⟨hcylinder, hhead'⟩ := next_row (a := lba / g.spt) (m := g.maxHead + 1) (n := 1) (by omega) (by omega)
      have hle : lba / g.spt / (g.maxHead + 1) ≤ lba / g.spt := Nat.div_le_self _ _
      refine ⟨?_, ?_, ?_⟩
      · rw [hmod]
      · rw [hdiv, hhead']
      · rw [hdiv, hcylinder, ← hat.cylinder]
        have hfew : s.curCylinder ≤ lba / g.spt := hat.cylinder ▸ hle
        show u16 (s.curCylinder + 1) = _
        exact Nat.mod_eq_of_lt (by omega)

theorem advanceBuffer_mem (s : LoadState) (r : ReadRequest) (answer : ReadAnswer) :
    (advanceBuffer s r answer).mem = answer.mem := rfl

theorem placed_advance (h : Placed disk g m₀ k s) (hk : k < kernelSectors) {r : ReadRequest} (hr : r.Within g)
    (hal : r.al ≤ kernelSectors - k) (hfew : r.al < 128) (hes : r.es = s.es) (hbx : r.bx = s.bx)
    (hdata : delivered disk r = (List.range r.al).flatMap fun i => lbaSector disk g (5 + k + i)) :
    Placed disk g m₀ (k + r.al)
      (advanceBuffer s r ⟨false, r.al, s.mem.store (16 * r.es + r.bx) (delivered disk r)⟩) := by
  have hsize : kernelSectors = 256 := rfl
  have hseg : kernelTmpSeg = 0x2000 := rfl
  have hsegment := hr.segment
  rw [hbx, h.bx] at hsegment
  have hbytes : u16 (r.al <<< 9) = 512 * r.al % 65536 := by
    rw [Nat.shiftLeft_eq, Nat.mul_comm]
  have hes' := h.es
  have hbx' := h.bx
  refine ⟨?_, ?_, ?_, ?_, ?_⟩
  · show u16 (s.sectorsLeft + 65536 - r.al) = _
    rw [h.left]
    unfold u16
    omega
  · show (if s.bx + u16 (r.al <<< 9) ≥ 65536 then u16 (s.es + 0x1000) else s.es) = _
    rw [hbytes]
    unfold u16
    split <;> omega
  · show u16 (s.bx + u16 (r.al <<< 9)) = _
    rw [hbytes]
    unfold u16
    omega
  · have hplace : 16 * r.es + r.bx = 0x20000 + (image disk g k).length := by
      rw [length_image]
      omega
    rw [advanceBuffer_mem, h.mem, hplace, ← Bytes.store_append, hdata, image_add]
  · intro r' hmem
    rcases List.mem_append.mp hmem with hmem | hmem
    · exact h.reads r' hmem
    · rw [List.mem_singleton.mp hmem]
      exact hr

/-- The place on the disk is no part of what has been read. -/
theorem Placed.position (h : Placed disk g m₀ k s) (al : Nat) : Placed disk g m₀ k (advancePosition g s al) := by
  unfold advancePosition
  dsimp only
  split
  · exact ⟨h.left, h.es, h.bx, h.mem, h.reads⟩
  · split
    · exact ⟨h.left, h.es, h.bx, h.mem, h.reads⟩
    · exact ⟨h.left, h.es, h.bx, h.mem, h.reads⟩

/-- What has been read is no part of the place on the disk. -/
theorem advanceBuffer_at {lba : Nat} (hat : AtSector g lba s) (r : ReadRequest) (answer : ReadAnswer) :
    AtSector g lba (advanceBuffer s r answer) :=
  ⟨hat.sector, hat.head, hat.cylinder⟩

/-- A round reads some sectors, and is the last where they are all there are left. -/
theorem readRound_placed (hint : Delivers disk g int13) (h : Placed disk g m₀ k s) (hat : AtSector g (5 + k) s)
    (hk : k < kernelSectors) (hspt : 6 ≤ g.spt) (hmost : g.spt ≤ 63) :
    ∃ n s', 0 < n ∧ k + n ≤ kernelSectors ∧ Placed disk g m₀ (k + n) s' ∧
      (readRound int13 g s = .finished s' ∧ k + n = kernelSectors ∨
        readRound int13 g s = .again s' ∧ k + n < kernelSectors ∧ AtSector g (5 + (k + n)) s') := by
  obtain ⟨hr, hal, hlow, hes, hbx, hcl, hdh, hch⟩ := readRequest_within h hat hk hspt hmost
  have hsize : kernelSectors = 256 := rfl
  have hdata : delivered disk (readRequest g s) = _ :=
    delivered_readRequest hat hspt (by omega) hr hcl hlow hdh hch
  have htrack := hr.track
  have hplaced := placed_advance h hk hr hal (by omega) hes hbx hdata
  have hround : readRound int13 g s =
      if (advanceBuffer s (readRequest g s) (int13 (readRequest g s) s.mem)).sectorsLeft = 0 then
        .finished (advanceBuffer s (readRequest g s) (int13 (readRequest g s) s.mem))
      else .again (advancePosition g (advanceBuffer s (readRequest g s) (int13 (readRequest g s) s.mem))
        (int13 (readRequest g s) s.mem).al) := by
    unfold readRound
    dsimp only
    rw [hint _ s.mem hr, if_neg Bool.false_ne_true]
  rw [hint _ s.mem hr] at hround
  have hleft := hplaced.left
  generalize hnext : advanceBuffer s (readRequest g s)
    ⟨false, (readRequest g s).al, s.mem.store (16 * (readRequest g s).es + (readRequest g s).bx)
      (delivered disk (readRequest g s))⟩ = s' at *
  have hat' : AtSector g (5 + k) s' := hnext ▸ advanceBuffer_at hat _ _
  have hsector : s'.curSector = s.curSector := by rw [hat'.sector, hat.sector]
  by_cases hlast : k + (readRequest g s).al = kernelSectors
  · refine ⟨_, s', hr.some, by omega, hplaced, .inl ⟨?_, hlast⟩⟩
    rw [hround, if_pos (by omega)]
  · have hmoved := advancePosition_at hat' hspt hmost (by omega) (n := (readRequest g s).al) (by omega)
    rw [Nat.add_assoc] at hmoved
    refine ⟨_, _, hr.some, by omega, ?_, .inr ⟨?_, by omega, hmoved⟩⟩
    · exact hplaced.position _
    · rw [hround, if_neg (by omega)]

/-- The loop ends with all the sectors in place. -/
theorem readLoop_placed (hint : Delivers disk g int13) (hspt : 6 ≤ g.spt) (hmost : g.spt ≤ 63) {fuel : Nat}
    (h : Placed disk g m₀ k s) (hat : AtSector g (5 + k) s) (hk : k < kernelSectors)
    (hfuel : kernelSectors - k ≤ fuel) :
    ∃ s', readLoop int13 g fuel s = some s' ∧ Placed disk g m₀ kernelSectors s' := by
  induction fuel generalizing k s with
  | zero => omega
  | succ fuel ih =>
    obtain ⟨n, s', hpos, hle, hplaced, hend | hagain⟩ := readRound_placed hint h hat hk hspt hmost
    · obtain ⟨hround, hlast⟩ := hend
      refine ⟨s', ?_, hlast ▸ hplaced⟩
      rw [readLoop, hround]
    · obtain ⟨hround, hmore, hat'⟩ := hagain
      obtain ⟨s'', hloop, hdone⟩ := ih hplaced hat' hmore (by omega)
      refine ⟨s'', ?_, hdone⟩
      rw [readLoop, hround]
      exact hloop

end Rounds

theorem queryGeometry_spt (dl : Nat) (answer : Option (Nat × Nat)) : (queryGeometry dl answer).spt ≤ 63 := by
  unfold queryGeometry
  split
  · exact Nat.and_le_right
  · exact Nat.le_of_ble_eq_true rfl

/-- Whatever the geometry, the loop ends with the 256 sectors from the sixth one on in their order at
`0x20000`, and no read leaves its track or its segment. -/
theorem kernel_loaded {disk : Disk} {int13 : ReadRequest → Bytes → ReadAnswer} {dl : Nat}
    {answer : Option (Nat × Nat)} (hspt : 6 ≤ (queryGeometry dl answer).spt)
    (hint : Delivers disk (queryGeometry dl answer) int13) (m₀ : Bytes) {fuel : Nat} (hfuel : kernelSectors ≤ fuel) :
    ∃ s, readLoop int13 (queryGeometry dl answer) fuel (loadStart m₀) = some s ∧
      s.mem.slice 0x20000 (512 * 256) =
        ((List.range 256).flatMap fun i => lbaSector disk (queryGeometry dl answer) (5 + i)) ∧
      (∀ a, a < 0x20000 ∨ 0x20000 + 512 * 256 ≤ a → s.mem a = m₀ a) ∧
      ∀ r ∈ s.reads, r.Within (queryGeometry dl answer) := by
  have hmost := queryGeometry_spt dl answer
  generalize queryGeometry dl answer = g at *
  obtain ⟨s, hloop, hdone⟩ := readLoop_placed hint hspt hmost (placed_start m₀) (atSector_start m₀ hspt)
    (Nat.zero_lt_succ _) hfuel
  have hlength : (image disk g kernelSectors).length = 512 * kernelSectors := length_image kernelSectors
  refine ⟨s, hloop, ?_, fun a ha => ?_, hdone.reads⟩
  · have hslice := Bytes.slice_store_self m₀ 0x20000 (image disk g kernelSectors)
    rw [hlength, ← hdone.mem, image, show kernelSectors = 256 from rfl] at hslice
    exact hslice
  · rw [hdone.mem]
    refine Bytes.store_of_not_mem ?_
    rw [hlength]
    exact ha

/-- A disk that tells where each of its sectors is. -/
def labelledDisk : Disk := fun cylinder head sector i => UInt8.ofNat (cylinder + head + sector + i)

/-- A BIOS that reads a disk of one head and six sectors on a track. -/
theorem kernel_loaded_small :
    ∃ s, readLoop (fun r m => ⟨false, r.al, m.store (16 * r.es + r.bx) (delivered labelledDisk r)⟩)
        (queryGeometry 0x80 (some (0x46, 0))) 256 (loadStart Bytes.zeros) = some s ∧
      s.mem.slice 0x20000 (512 * 256) =
        ((List.range 256).flatMap fun i => lbaSector labelledDisk (queryGeometry 0x80 (some (0x46, 0))) (5 + i)) ∧
      (∀ a, a < 0x20000 ∨ 0x20000 + 512 * 256 ≤ a → s.mem a = Bytes.zeros a) ∧
      ∀ r ∈ s.reads, r.Within (queryGeometry 0x80 (some (0x46, 0))) :=
  kernel_loaded (by decide) (fun _ _ _ => rfl) Bytes.zeros (Nat.le_refl _)

end RainbowOs.Boot
