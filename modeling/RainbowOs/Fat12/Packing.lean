import RainbowOs.Fat12.Ramdisk

/-!
# Packing

The 12-bit entries of `fat12_read_fat`, `fat12_write_fat` and `fat12_set_fat`,
over any volume and any geometry: an entry is read as it was written, its
neighbours keep their half of the byte they share with it, and nothing else
changes. The remainders and quotients of the model are the masks and shifts of
the source.
-/

namespace RainbowOs.Fat12

open RainbowOs.Lib

/-! ## Masks and shifts -/

theorem or_shift_four {a b : Nat} (ha : a < 16) : a ||| b <<< 4 = a + b * 16 := by
  rw [Nat.or_comm, Nat.shiftLeft_eq, Nat.mul_comm b, ← Nat.two_pow_add_eq_or_of_lt (i := 4) ha]
  omega

theorem and_high (b : UInt8) : b.toNat &&& 0xF0 = b.toNat / 16 * 16 := by
  have h : ∀ n < 256, n &&& 0xF0 = n / 16 * 16 := by decide +kernel
  exact h _ b.toNat_lt

/-- The bytes that are stored, as the source has them. -/
theorem packFat_masks (cluster value : Nat) (p0 p1 : UInt8) :
    packFat cluster value p0.toNat p1.toNat =
      if cluster &&& 1 ≠ 0 then
        [UInt8.ofNat (p0.toNat &&& 0x0F ||| (value &&& 0x0F) <<< 4), UInt8.ofNat (value >>> 4 &&& 0xFF)]
      else
        [UInt8.ofNat (value &&& 0xFF), UInt8.ofNat (p1.toNat &&& 0xF0 ||| value >>> 8 &&& 0x0F)] := by
  have hbit : cluster &&& 1 ≠ 0 ↔ cluster % 2 = 1 := by
    rw [Nat.and_one_is_mod]
    omega
  have hlow : ∀ n, n &&& 0x0F = n % 16 := fun n => Nat.and_two_pow_sub_one_eq_mod n 4
  have hbyte : ∀ n, n &&& 0xFF = n % 256 := fun n => Nat.and_two_pow_sub_one_eq_mod n 8
  have hhigh : p1.toNat / 16 * 16 ||| value / 256 % 16 = p1.toNat / 16 * 16 + value / 256 % 16 := by
    rw [Nat.mul_comm, Nat.two_pow_add_eq_or_of_lt (i := 4) (Nat.mod_lt _ (by decide))]
  unfold packFat
  simp only [hbit, hlow, hbyte, and_high, hhigh, or_shift_four (Nat.mod_lt _ (by decide : 0 < 16)),
    Nat.shiftRight_eq_div_pow, Nat.reducePow]

/-- What is read, as the source has it. -/
theorem fatAt_masks (g : Bpb) (v : Bytes) (c : Nat) :
    fatAt g v c = if c &&& 1 ≠ 0 then v.word16 (g.fatEntryOffset c) >>> 4
      else v.word16 (g.fatEntryOffset c) &&& 0x0FFF := by
  have hbit : c &&& 1 ≠ 0 ↔ c % 2 = 1 := by
    rw [Nat.and_one_is_mod]
    omega
  have hmask : ∀ n, n &&& 0x0FFF = n % 4096 := fun n => Nat.and_two_pow_sub_one_eq_mod n 12
  unfold fatAt
  simp only [hbit, hmask, Nat.shiftRight_eq_div_pow, Nat.reducePow]

/-! ## Reading and writing -/

theorem fat12ReadFat_run (g : Bpb) (site : Site) (v : Bytes) (c : Nat) :
    fat12ReadFat g site c v = ⟨.done (fatAt g v c), v, [⟨site, g.fatEntryOffset c, 2⟩]⟩ := rfl

/-- The two bytes of an entry do not run past the end of the address space, as those of an entry in the
FAT of a volume do not. -/
def EntryFits (g : Bpb) (c : Nat) : Prop := g.fatOffset + (c + c / 2) + 2 ≤ 4294967296

theorem EntryFits.offset {g : Bpb} {c : Nat} (h : EntryFits g c) :
    g.fatEntryOffset c = g.fatOffset + (c + c / 2) := by
  unfold EntryFits at h
  exact Nat.mod_eq_of_lt (by omega)

/-- After `fat12_write_fat(c, v)` the entry of `c` is `v & 0xFFF`, every other entry is what it was, and
every byte but the two of the entry too; in the ramdisk `fat12_set_fat` does the same. -/
theorem fat_packing (g : Bpb) (v : Bytes) (site : Site) (value : Nat) {c d : Nat} (hc : EntryFits g c)
    (hd : EntryFits g d) :
    ∃ v', (fat12WriteFat g c value v).out = .done () ∧ (fat12WriteFat g c value v).state = v' ∧
      (fat12ReadFat g site c v').out = .done (value &&& 0xFFF) ∧
      (d ≠ c → (fat12ReadFat g site d v').out = (fat12ReadFat g site d v).out) ∧
      (∀ i, i ≠ g.fatOffset + (c + c / 2) → i ≠ g.fatOffset + (c + c / 2) + 1 → v' i = v i) ∧
      (c < 65536 → Ramdisk.fat12SetFat v c value = (fat12WriteFat Ramdisk.layout.bpb c value v).state) := by
  refine ⟨writtenFat g v c value, rfl, rfl, ?_, fun hne => ?_, fun i h0 h1 => ?_, fun hc16 => ?_⟩
  · have hmask : value &&& 0xFFF = value % 4096 := Nat.and_two_pow_sub_one_eq_mod value 12
    rw [fat12ReadFat_run, fatAt_writtenFat_self, hmask]
  · rw [fat12ReadFat_run, fat12ReadFat_run, fatAt_writtenFat_of_ne v value hc.offset hd.offset hne]
  · refine writtenFat_of_not_mem ?_
    rw [hc.offset]
    omega
  · exact Ramdisk.fat12SetFat_eq v hc16 value

/-- Two neighbours in the ramdisk, whose geometry is `Ramdisk.layout`. -/
theorem fat_packing_neighbours :
    ∃ v', (fat12WriteFat Ramdisk.layout.bpb 3 0xABC Bytes.zeros).out = .done () ∧
      (fat12WriteFat Ramdisk.layout.bpb 3 0xABC Bytes.zeros).state = v' ∧
      (fat12ReadFat Ramdisk.layout.bpb .chain 3 v').out = .done (0xABC &&& 0xFFF) ∧
      (2 ≠ 3 → (fat12ReadFat Ramdisk.layout.bpb .chain 2 v').out =
        (fat12ReadFat Ramdisk.layout.bpb .chain 2 Bytes.zeros).out) ∧
      (∀ i, i ≠ 516 → i ≠ 517 → v' i = Bytes.zeros i) ∧
      (3 < 65536 → Ramdisk.fat12SetFat Bytes.zeros 3 0xABC =
        (fat12WriteFat Ramdisk.layout.bpb 3 0xABC Bytes.zeros).state) := by
  have hoff : Ramdisk.layout.bpb.fatOffset = 512 := rfl
  have hfits : ∀ c ≤ 3, EntryFits Ramdisk.layout.bpb c := by
    intro c hc
    rw [EntryFits, hoff]
    omega
  exact fat_packing Ramdisk.layout.bpb Bytes.zeros .chain 0xABC (hfits 3 (by decide)) (hfits 2 (by decide))

end RainbowOs.Fat12
