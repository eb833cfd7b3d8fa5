import RainbowOs.Lib.Bytes

/-!
# The framebuffer behind its window

`kernel/drivers/svga.c`: the card's memory is seen through a window of 64 KB,
which the register GR9 places in steps of 4 KB. `svga_set_bank` keeps the last
bank in `current_bank` and leaves the register alone where it would not move.
Whatever was drawn before, a range of the screen is read and written as if
there were no window.
-/

namespace RainbowOs.Kernel

open RainbowOs.Lib

abbrev svgaWidth : Nat := 800

abbrev svgaHeight : Nat := 600

abbrev svgaTotal : Nat := svgaWidth * svgaHeight

abbrev vgaFbSize : Nat := 0x10000

/-- The card and the statics of the driver. -/
structure Svga where
  /-- The memory of the card, without the window. -/
  vram : Bytes
  /-- The register GR9. -/
  gr9 : Nat
  currentBank : Nat
  /-- The bounce buffer of `svga_copy`. -/
  buf : Bytes

/-- Where the window begins. -/
def Svga.windowBase (s : Svga) : Nat := 4096 * s.gr9

/-- A `memcpy` out of the window. -/
def Svga.readWindow (s : Svga) (win n : Nat) : List UInt8 := s.vram.slice (s.windowBase + win) n

/-- A `memcpy` into the window. -/
def Svga.writeWindow (s : Svga) (win : Nat) (bs : List UInt8) : Svga :=
  { s with vram := s.vram.store (s.windowBase + win) bs }

/-- `svga_set_bank` -/
def svgaSetBank (s : Svga) (bank : Nat) : Svga :=
  if bank % 256 = s.currentBank then s
  else { s with currentBank := bank % 256, gr9 := (bank % 256) <<< 4 % 256 }

/-- The bytes of a range that are left in the window, at most `count`. -/
def windowChunk (off count : Nat) : Nat :=
  let n := vgaFbSize - (off &&& 0xFFFF)
  if n > count then count else n

theorem windowChunk_eq (off count : Nat) : windowChunk off count = min count (65536 - off % 65536) := by
  have hmask : off &&& 0xFFFF = off % 65536 := Nat.and_two_pow_sub_one_eq_mod off 16
  have hsize : vgaFbSize = 65536 := rfl
  unfold windowChunk
  rw [hmask]
  dsimp only
  split <;> omega

theorem windowChunk_pos (off : Nat) {count : Nat} (h : count ≠ 0) : 0 < windowChunk off count := by
  rw [windowChunk_eq]
  omega

/-- `fb_read` -/
def fbRead (s : Svga) (off : Nat) (ram : Bytes) (dst count : Nat) : Svga × Bytes :=
  if count = 0 then (s, ram)
  else
    let s := svgaSetBank s (off >>> 16)
    let n := windowChunk off count
    fbRead s (u32 (off + n)) (ram.store dst (s.readWindow (off &&& 0xFFFF) n)) (dst + n) (count - n)
termination_by count
decreasing_by
  have := windowChunk_pos off ‹_›
  omega

/-- `fb_write` -/
def fbWrite (s : Svga) (off : Nat) (ram : Bytes) (src count : Nat) : Svga :=
  if count = 0 then s
  else
    let s := svgaSetBank s (off >>> 16)
    let n := windowChunk off count
    fbWrite (s.writeWindow (off &&& 0xFFFF) (ram.slice src n)) (u32 (off + n)) ram (src + n) (count - n)
termination_by count
decreasing_by
  have := windowChunk_pos off ‹_›
  omega

/-- `svga_blit` -/
def svgaBlit (s : Svga) (ram : Bytes) (src : Nat) : Svga := fbWrite s 0 ram src svgaTotal

/-- `svga_copy` -/
def svgaCopy (s : Svga) (dstOff srcOff count : Nat) : Svga :=
  if count = 0 then s
  else
    let n := if count > svgaWidth then svgaWidth else count
    let (s, buf) := fbRead s srcOff s.buf 0 n
    let s := fbWrite { s with buf } dstOff buf 0 n
    svgaCopy s (u32 (dstOff + n)) (u32 (srcOff + n)) (count - n)
termination_by count
decreasing_by
  have : svgaWidth = 800 := rfl
  split <;> omega

/-- `svga_putpixel` -/
def svgaPutpixel (s : Svga) (x y : Int) (color : UInt8) : Svga :=
  if x < 0 ∨ x ≥ svgaWidth ∨ y < 0 ∨ y ≥ svgaHeight then s
  else
    let offset := (y * svgaWidth + x).toNat
    (svgaSetBank s (offset >>> 16)).writeWindow (offset &&& 0xFFFF) [color]

/-- The loop of `svga_clear`, from `offset` on. -/
def clearFrom (s : Svga) (color : UInt8) (offset : Nat) : Svga :=
  if offset < svgaTotal then
    let s := svgaSetBank s (offset >>> 16)
    let chunk := if svgaTotal - offset > vgaFbSize then vgaFbSize else svgaTotal - offset
    clearFrom (s.writeWindow 0 (List.replicate chunk color)) color (offset + vgaFbSize)
  else s
termination_by svgaTotal - offset
decreasing_by
  have : vgaFbSize = 65536 := rfl
  omega

/-- `svga_clear` -/
def svgaClear (s : Svga) (color : UInt8) : Svga := clearFrom s color 0

/-- The end of `svga_set_mode_gfx`; the registers it programs before are others. -/
def svgaSetModeGfx (s : Svga) : Svga := svgaSetBank { s with currentBank := 0xFF } 0

/-- The loop of `memmove` that goes forward. -/
def memmoveForward (m : Bytes) (d s : Nat) : Nat → Bytes
  | 0 => m
  | count + 1 => memmoveForward (m.store d [m s]) (d + 1) (s + 1) count

/-- The loop of `memmove` that goes back from the ends. -/
def memmoveBackward (m : Bytes) (d s : Nat) : Nat → Bytes
  | 0 => m
  | count + 1 => memmoveBackward (m.store (d - 1) [m (s - 1)]) (d - 1) (s - 1) count

/-- `memmove` -/
def memmove (m : Bytes) (dest src count : Nat) : Bytes :=
  if dest < src then memmoveForward m dest src count
  else memmoveBackward m (dest + count) (src + count) count

theorem memmoveForward_eq {d s : Nat} (h : d < s) (m : Bytes) (count : Nat) :
    memmoveForward m d s count = m.store d (m.slice s count) := by
  induction count generalizing m d s with
  | zero => exact (Bytes.store_nil m d).symm
  | succ count ih =>
    have hsource : (m.store d [m s]).slice (s + 1) count = m.slice (s + 1) count :=
      Bytes.slice_store_of_disjoint (.inr (by rw [List.length_singleton]; omega))
    have hrest := Bytes.store_append m d [m s] (m.slice (s + 1) count)
    rw [memmoveForward, ih (by omega), hsource, Bytes.slice_succ]
    exact hrest.symm

theorem memmoveBackward_eq {d s : Nat} (h : s ≤ d) (m : Bytes) (count : Nat) :
    memmoveBackward m (d + count) (s + count) count = m.store d (m.slice s count) := by
  induction count generalizing m with
  | zero => exact (Bytes.store_nil m d).symm
  | succ count ih =>
    have hsource : (m.store (d + count) [m (s + count)]).slice s count = m.slice s count :=
      Bytes.slice_store_of_disjoint (.inl (by omega))
    have hone : m.slice (s + count) 1 = [m (s + count)] := rfl
    rw [memmoveBackward, ← Nat.add_assoc, ← Nat.add_assoc, Nat.add_sub_cancel, Nat.add_sub_cancel, ih, hsource,
      Bytes.slice_add, hone, Bytes.store_append, Bytes.length_slice]
    exact Bytes.store_comm (.inr (Nat.le_of_eq (congrArg (d + ·) (Bytes.length_slice _ _ _))))

/-- Whichever way it goes, the bytes arrive as they were. -/
theorem memmove_eq (m : Bytes) (dest src count : Nat) :
    memmove m dest src count = m.store dest (m.slice src count) := by
  unfold memmove
  split
  · exact memmoveForward_eq ‹_› m count
  · exact memmoveBackward_eq (by omega) m count

/-- The register is where `current_bank` says, when it says anything. -/
def Svga.Cached (s : Svga) : Prop := s.currentBank ≠ 0xFF → s.gr9 = 16 * s.currentBank

section Linear

variable {s : Svga}

theorem svgaSetBank_eq (h : s.Cached) {bank : Nat} (hbank : bank < 16) :
    svgaSetBank s bank = { s with currentBank := bank, gr9 := 16 * bank } := by
  have hmod : bank % 256 = bank := Nat.mod_eq_of_lt (by omega)
  unfold svgaSetBank
  rw [hmod]
  split
  next hsame =>
    have hgr := h (by omega)
    rw [hsame, ← hgr]
  next =>
    have hshift : bank <<< 4 % 256 = 16 * bank := by
      rw [Nat.shiftLeft_eq]
      omega
    rw [hshift]

theorem cached_svgaSetBank (h : s.Cached) {bank : Nat} (hbank : bank < 16) : (svgaSetBank s bank).Cached := by
  rw [svgaSetBank_eq h hbank]
  exact fun _ => rfl

/-- With the bank of an offset set, the low half of the offset is its place in the window. -/
theorem window_linear (h : s.Cached) {off : Nat} (hoff : off < 0x100000) :
    (svgaSetBank s (off >>> 16)).windowBase + (off &&& 0xFFFF) = off := by
  have hmask : off &&& 0xFFFF = off % 65536 := Nat.and_two_pow_sub_one_eq_mod off 16
  have hbank : off >>> 16 = off / 65536 := Nat.shiftRight_eq_div_pow off 16
  rw [hmask, hbank, svgaSetBank_eq h (by omega)]
  show 4096 * (16 * (off / 65536)) + off % 65536 = off
  omega

theorem vram_svgaSetBank (s : Svga) (bank : Nat) : (svgaSetBank s bank).vram = s.vram := by
  unfold svgaSetBank
  split <;> rfl

theorem cached_setBank_of_lt (h : s.Cached) (off : Nat) (hoff : off < 0x100000) :
    (svgaSetBank s (off >>> 16)).Cached :=
  cached_svgaSetBank h (by rw [Nat.shiftRight_eq_div_pow]; omega)

theorem cached_writeWindow (h : s.Cached) (win : Nat) (bs : List UInt8) : (s.writeWindow win bs).Cached := h

/-- A write at the place of an offset in the window of its bank. -/
theorem vram_writeWindow (h : s.Cached) (off : Nat) (hoff : off < 0x100000) (bs : List UInt8) :
    ((svgaSetBank s (off >>> 16)).writeWindow (off &&& 0xFFFF) bs).vram = s.vram.store off bs := by
  rw [Svga.writeWindow, window_linear h hoff, vram_svgaSetBank]

/-- `fb_read` gets the bytes of its range. -/
theorem fbRead_linear (h : s.Cached) (ram : Bytes) (dst off : Nat) {count : Nat} (hrange : off + count ≤ 0x100000) :
    (fbRead s off ram dst count).1.Cached ∧ (fbRead s off ram dst count).1.vram = s.vram ∧
      (fbRead s off ram dst count).2 = ram.store dst (s.vram.slice off count) := by
  induction count using Nat.strongRecOn generalizing s off ram dst with
  | ind count ih =>
    rw [fbRead]
    split
    next hzero =>
      subst hzero
      exact ⟨h, rfl, (Bytes.store_nil ram dst).symm⟩
    next hsome =>
      have hpos := windowChunk_pos off hsome
      have hchunk := windowChunk_eq off count
      have hnext : u32 (off + windowChunk off count) = off + windowChunk off count :=
        Nat.mod_eq_of_lt (by omega)
      have hcached := cached_setBank_of_lt h off (by omega)
      have hwindow : (svgaSetBank s (off >>> 16)).readWindow (off &&& 0xFFFF) (windowChunk off count) =
          s.vram.slice off (windowChunk off count) := by
        rw [Svga.readWindow, window_linear h (by omega), vram_svgaSetBank]
      obtain ⟨hcached', hvram, hram⟩ := ih (count - windowChunk off count) (by omega) hcached
        (ram.store dst (s.vram.slice off (windowChunk off count))) (dst + windowChunk off count)
        (off + windowChunk off count) (by omega)
      dsimp only
      rw [hnext, hwindow]
      refine ⟨hcached', hvram.trans (vram_svgaSetBank _ _), hram.trans ?_⟩
      have hwhole : count = windowChunk off count + (count - windowChunk off count) := by omega
      conv_rhs => rw [hwhole, Bytes.slice_add, Bytes.store_append, Bytes.length_slice]
      rw [vram_svgaSetBank]

/-- `fb_write` puts the bytes at its range. -/
theorem fbWrite_linear (h : s.Cached) (ram : Bytes) (src off : Nat) {count : Nat} (hrange : off + count ≤ 0x100000) :
    (fbWrite s off ram src count).Cached ∧
      (fbWrite s off ram src count).vram = s.vram.store off (ram.slice src count) := by
  induction count using Nat.strongRecOn generalizing s off src with
  | ind count ih =>
    rw [fbWrite]
    split
    next hzero =>
      subst hzero
      exact ⟨h, (Bytes.store_nil s.vram off).symm⟩
    next hsome =>
      have hpos := windowChunk_pos off hsome
      have hchunk := windowChunk_eq off count
      have hnext : u32 (off + windowChunk off count) = off + windowChunk off count :=
        Nat.mod_eq_of_lt (by omega)
      have hcached := cached_setBank_of_lt h off (by omega)
      obtain ⟨hcached', hvram⟩ := ih (count - windowChunk off count) (by omega)
        (cached_writeWindow hcached (off &&& 0xFFFF) (ram.slice src (windowChunk off count)))
        (src + windowChunk off count) (off + windowChunk off count) (by omega)
      dsimp only
      rw [hnext]
      refine ⟨hcached', hvram.trans ?_⟩
      have hwhole : count = windowChunk off count + (count - windowChunk off count) := by omega
      conv_rhs => rw [hwhole, Bytes.slice_add, Bytes.store_append, Bytes.length_slice]
      rw [vram_writeWindow h off (by omega)]

/-- A piece of `svga_copy`. -/
theorem bounce_linear (h : s.Cached) (dstOff srcOff : Nat) {n : Nat} (hdst : dstOff + n ≤ 0x100000)
    (hsrc : srcOff + n ≤ 0x100000) :
    (fbWrite { (fbRead s srcOff s.buf 0 n).1 with buf := (fbRead s srcOff s.buf 0 n).2 } dstOff
      (fbRead s srcOff s.buf 0 n).2 0 n).Cached ∧
    (fbWrite { (fbRead s srcOff s.buf 0 n).1 with buf := (fbRead s srcOff s.buf 0 n).2 } dstOff
      (fbRead s srcOff s.buf 0 n).2 0 n).vram = s.vram.store dstOff (s.vram.slice srcOff n) := by
  obtain ⟨hcached, hvram, hbuf⟩ := fbRead_linear h s.buf 0 srcOff hsrc
  have hread : Svga.Cached { (fbRead s srcOff s.buf 0 n).1 with buf := (fbRead s srcOff s.buf 0 n).2 } := hcached
  obtain ⟨hcached', hvram'⟩ := fbWrite_linear hread (fbRead s srcOff s.buf 0 n).2 0 dstOff hdst
  have hlength : (s.vram.slice srcOff n).length = n := Bytes.length_slice _ _ _
  have hbounced := Bytes.slice_store_self s.buf 0 (s.vram.slice srcOff n)
  rw [hlength, ← hbuf] at hbounced
  refine ⟨hcached', hvram'.trans ?_⟩
  rw [hbounced, ← hvram]

theorem svgaCopy_step (s : Svga) (dstOff srcOff : Nat) {count : Nat} (h : count ≠ 0) :
    svgaCopy s dstOff srcOff count =
      svgaCopy (fbWrite { (fbRead s srcOff s.buf 0 (min count 800)).1 with
          buf := (fbRead s srcOff s.buf 0 (min count 800)).2 } dstOff
        (fbRead s srcOff s.buf 0 (min count 800)).2 0 (min count 800))
        (u32 (dstOff + min count 800)) (u32 (srcOff + min count 800)) (count - min count 800) := by
  have hchunk : (if count > svgaWidth then svgaWidth else count) = min count 800 := by
    have hwidth : svgaWidth = 800 := rfl
    split <;> omega
  rw [svgaCopy, if_neg h]
  dsimp only
  rw [hchunk]

theorem cached_svgaCopy (h : s.Cached) {dstOff srcOff count : Nat} (hdst : dstOff + count ≤ 0x100000)
    (hsrc : srcOff + count ≤ 0x100000) : (svgaCopy s dstOff srcOff count).Cached := by
  induction count using Nat.strongRecOn generalizing s dstOff srcOff with
  | ind count ih =>
    by_cases hzero : count = 0
    · rw [svgaCopy, if_pos hzero]
      exact h
    · rw [svgaCopy_step s dstOff srcOff hzero, u32, u32, Nat.mod_eq_of_lt (by omega), Nat.mod_eq_of_lt (by omega)]
      exact ih _ (by omega) (bounce_linear h _ _ (by omega) (by omega)).1 (by omega) (by omega)

/-- `svga_copy` down the memory is one move, for what a piece has overwritten is behind the next one. -/
theorem svgaCopy_linear (h : s.Cached) {dstOff srcOff count : Nat} (hdown : dstOff < srcOff)
    (hrange : srcOff + count ≤ 0x100000) :
    (svgaCopy s dstOff srcOff count).vram = memmove s.vram dstOff srcOff count := by
  rw [memmove_eq]
  induction count using Nat.strongRecOn generalizing s dstOff srcOff with
  | ind count ih =>
    by_cases hzero : count = 0
    · rw [svgaCopy, if_pos hzero, hzero]
      exact (Bytes.store_nil s.vram dstOff).symm
    · obtain ⟨hcached, hvram⟩ := bounce_linear h dstOff srcOff (n := min count 800) (by omega)
        (by omega)
      have hahead : (s.vram.store dstOff (s.vram.slice srcOff (min count 800))).slice (srcOff + min count 800)
          (count - min count 800) = s.vram.slice (srcOff + min count 800) (count - min count 800) :=
        Bytes.slice_store_of_disjoint (.inr (by rw [Bytes.length_slice]; omega))
      have hwhole : count = min count 800 + (count - min count 800) := by omega
      rw [svgaCopy_step s dstOff srcOff hzero, u32, u32, Nat.mod_eq_of_lt (by omega), Nat.mod_eq_of_lt (by omega),
        ih (count - min count 800) (by omega) hcached (by omega) (by omega), hvram, hahead]
      conv_rhs => rw [hwhole, Bytes.slice_add, Bytes.store_append, Bytes.length_slice]

theorem pixel_lt {x y : Int} (hx : 0 ≤ x) (hx' : x < svgaWidth) (hy : 0 ≤ y) (hy' : y < svgaHeight) :
    (y * svgaWidth + x).toNat < 0x100000 := by
  simp only [svgaWidth, svgaHeight] at *
  omega

/-- `svga_putpixel` sets the byte of a point of the screen. -/
theorem svgaPutpixel_linear (h : s.Cached) {x y : Int} (hx : 0 ≤ x) (hx' : x < svgaWidth) (hy : 0 ≤ y)
    (hy' : y < svgaHeight) (color : UInt8) :
    (svgaPutpixel s x y color).vram = Function.update s.vram (y * svgaWidth + x).toNat color := by
  have hoff := pixel_lt hx hx' hy hy'
  unfold svgaPutpixel
  rw [if_neg (by omega)]
  dsimp only
  rw [vram_writeWindow h _ hoff]
  generalize (y * svgaWidth + x).toNat = off
  funext i
  by_cases hi : i = off
  · rw [hi, Function.update_self]
    have hone : 0 < [color].length := Nat.one_pos
    exact Bytes.store_add hone
  · rw [Function.update_of_ne hi]
    exact Bytes.store_of_not_mem (by rw [List.length_singleton]; omega)

/-- Off the screen, `svga_putpixel` does nothing at all. -/
theorem svgaPutpixel_outside {x y : Int}
    (h : ¬ (0 ≤ x ∧ x < svgaWidth ∧ 0 ≤ y ∧ y < svgaHeight)) (color : UInt8) : svgaPutpixel s x y color = s := by
  unfold svgaPutpixel
  rw [if_pos (by omega)]

theorem cached_svgaPutpixel (h : s.Cached) (x y : Int) (color : UInt8) : (svgaPutpixel s x y color).Cached := by
  unfold svgaPutpixel
  split
  · exact h
  · exact cached_setBank_of_lt h _ (pixel_lt (by omega) (by omega) (by omega) (by omega))

/-- A round of `svga_clear` fills a bank, or what the screen has of the last one. -/
theorem clearFrom_linear (h : s.Cached) (color : UInt8) (offset : Nat) (hbank : offset % 65536 = 0) :
    (clearFrom s color offset).Cached ∧
      (clearFrom s color offset).vram = s.vram.store offset (List.replicate (svgaTotal - offset) color) := by
  have htotal : svgaTotal = 480000 := rfl
  have hsize : vgaFbSize = 65536 := rfl
  induction hleft : svgaTotal - offset using Nat.strongRecOn generalizing s offset with
  | ind left ih =>
    rw [clearFrom]
    split
    next hmore =>
      have hmask : offset &&& 0xFFFF = 0 := (Nat.and_two_pow_sub_one_eq_mod offset 16).trans hbank
      have hchunk : (if svgaTotal - offset > vgaFbSize then vgaFbSize else svgaTotal - offset) = min left 65536 := by
        split <;> omega
      have hcached := cached_setBank_of_lt h offset (by omega)
      have hwindow := vram_writeWindow h offset (by omega) (List.replicate (min left 65536) color)
      rw [hmask] at hwindow
      obtain ⟨hcached', hvram⟩ := ih (svgaTotal - (offset + 65536)) (by omega)
        (cached_writeWindow hcached 0 (List.replicate (min left 65536) color)) (offset + 65536) (by omega) rfl
      dsimp only
      rw [hchunk, hsize]
      refine ⟨hcached', hvram.trans ?_⟩
      rw [hwindow]
      by_cases hlast : left ≤ 65536
      · rw [show svgaTotal - (offset + 65536) = 0 by omega, Nat.min_eq_left hlast]
        exact Bytes.store_nil _ _
      · have hwhole : left = 65536 + (svgaTotal - (offset + 65536)) := by omega
        conv_rhs => rw [hwhole, ← List.replicate_append_replicate, Bytes.store_append, List.length_replicate]
        rw [Nat.min_eq_right (by omega)]
    next hend =>
      rw [show left = 0 by omega]
      exact ⟨h, (Bytes.store_nil _ _).symm⟩

theorem cached_svgaSetModeGfx (s : Svga) : (svgaSetModeGfx s).Cached := by
  have hunset : Svga.Cached { s with currentBank := 0xFF } := fun hne => absurd rfl hne
  exact cached_svgaSetBank hunset (by omega)

end Linear

/-- The states the driver leads to, drawing within the screen. -/
inductive Svga.Reachable : Svga → Prop
  /-- Nothing is known of the register yet. -/
  | start (vram : Bytes) (gr9 : Nat) (buf : Bytes) : Reachable ⟨vram, gr9, 0xFF, buf⟩
  | setModeGfx {s : Svga} (h : Reachable s) : Reachable (svgaSetModeGfx s)
  /-- `svga_set_mode_text` puts the font back into the card's memory, and does not write GR9. -/
  | setModeText {s : Svga} (h : Reachable s) (vram : Bytes) : Reachable { s with vram }
  | clear {s : Svga} (h : Reachable s) (color : UInt8) : Reachable (svgaClear s color)
  | putpixel {s : Svga} (h : Reachable s) (x y : Int) (color : UInt8) : Reachable (svgaPutpixel s x y color)
  | read {s : Svga} (h : Reachable s) {off count : Nat} (ram : Bytes) (dst : Nat)
      (hrange : off + count ≤ svgaTotal) : Reachable (fbRead s off ram dst count).1
  | write {s : Svga} (h : Reachable s) {off count : Nat} (ram : Bytes) (src : Nat)
      (hrange : off + count ≤ svgaTotal) : Reachable (fbWrite s off ram src count)
  | blit {s : Svga} (h : Reachable s) (ram : Bytes) (src : Nat) : Reachable (svgaBlit s ram src)
  | copy {s : Svga} (h : Reachable s) {dstOff srcOff count : Nat} (hdst : dstOff + count ≤ svgaTotal)
      (hsrc : srcOff + count ≤ svgaTotal) : Reachable (svgaCopy s dstOff srcOff count)

theorem cached_of_reachable {s : Svga} (h : s.Reachable) : s.Cached := by
  have htotal : svgaTotal = 480000 := rfl
  induction h with
  | start vram gr9 buf => exact fun hne => absurd rfl hne
  | setModeGfx => exact cached_svgaSetModeGfx _
  | setModeText _ vram ih => exact ih
  | clear _ color ih => exact (clearFrom_linear ih color 0 rfl).1
  | putpixel _ x y color ih => exact cached_svgaPutpixel ih x y color
  | read _ ram dst hrange ih => exact (fbRead_linear ih ram dst _ (by omega)).1
  | write _ ram src hrange ih => exact (fbWrite_linear ih ram src _ (by omega)).1
  | blit _ ram src ih => exact (fbWrite_linear ih ram src _ (by omega)).1
  | copy _ hdst hsrc ih => exact cached_svgaCopy ih (by omega) (by omega)

/-- `svga_clear` fills the screen and nothing past it. -/
theorem svgaClear_linear {s : Svga} (h : s.Reachable) (color : UInt8) :
    (svgaClear s color).vram = s.vram.store 0 (List.replicate svgaTotal color) :=
  (clearFrom_linear (cached_of_reachable h) color 0 rfl).2

/-- Whatever has been drawn before, the window does not show in what is read, written or moved. -/
theorem framebuffer_linear {s : Svga} (h : s.Reachable) :
    (∀ off ram dst count, off + count ≤ svgaTotal →
      (fbRead s off ram dst count).1.vram = s.vram ∧
        (fbRead s off ram dst count).2 = ram.store dst (s.vram.slice off count)) ∧
    (∀ off ram src count, off + count ≤ svgaTotal →
      (fbWrite s off ram src count).vram = s.vram.store off (ram.slice src count)) ∧
    (∀ dstOff srcOff count, dstOff < srcOff → srcOff + count ≤ svgaTotal →
      (svgaCopy s dstOff srcOff count).vram = memmove s.vram dstOff srcOff count) ∧
    (∀ (x y : Int) color, 0 ≤ x → x < svgaWidth → 0 ≤ y → y < svgaHeight →
      (svgaPutpixel s x y color).vram = Function.update s.vram (y * svgaWidth + x).toNat color) ∧
    ∀ (x y : Int) color, ¬ (0 ≤ x ∧ x < svgaWidth ∧ 0 ≤ y ∧ y < svgaHeight) → svgaPutpixel s x y color = s := by
  have hcached := cached_of_reachable h
  have htotal : svgaTotal = 480000 := rfl
  refine ⟨fun off ram dst count hrange => ?_, fun off ram src count hrange => ?_,
    fun dstOff srcOff count hdown hrange => ?_, fun x y color hx hx' hy hy' => ?_, fun x y color hout => ?_⟩
  · exact (fbRead_linear hcached ram dst off (by omega)).2
  · exact (fbWrite_linear hcached ram src off (by omega)).2
  · exact svgaCopy_linear hcached hdown (by omega)
  · exact svgaPutpixel_linear hcached hx hx' hy hy' color
  · exact svgaPutpixel_outside hout color

/-- A scroll by a row of text, before any bank was set. -/
theorem framebuffer_linear_scroll :
    (svgaCopy ⟨Bytes.zeros, 7, 0xFF, Bytes.zeros⟩ 0 6400 473600).vram = memmove Bytes.zeros 0 6400 473600 :=
  (framebuffer_linear (.start Bytes.zeros 7 Bytes.zeros)).2.2.1 0 6400 473600 (by decide) (by decide)

end RainbowOs.Kernel
