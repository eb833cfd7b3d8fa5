import Mathlib.Tactic.Common
import Mathlib.Data.List.GetD

/-!
# Byte memories — slices, stores and little-endian words

A memory is a total function from offsets to bytes, so reading past a
buffer is a read of whatever lies there and never a default. `slice`
reads a run of bytes, `store` overwrites one, and the laws below are the
ones a client needs: a slice away from a store is unchanged, a slice
that starts at a store begins with the stored bytes, and a stored
little-endian word reads back.
-/

namespace RainbowOs.Lib

/-- A `uint16_t`. -/
abbrev u16 (x : Nat) : Nat := x % 65536

/-- A `uint32_t`. -/
abbrev u32 (x : Nat) : Nat := x % 4294967296

/-- What is said of the bytes of a list is decided on the list, not on all 256 bytes. -/
instance (priority := 2000) decidableForallMem (p : UInt8 → Prop) [DecidablePred p] (l : List UInt8) :
    Decidable (∀ c ∈ l, p c) :=
  List.decidableBAll p l

/-- What holds of 256 numbers holds of every byte. -/
theorem byte_forall {P : UInt8 → Prop} (h : ∀ n < 256, P (UInt8.ofNat n)) (c : UInt8) : P c := by
  rw [← UInt8.ofNat_toNat (x := c)]
  exact h _ c.toNat_lt

/-- The bytes of a string literal. -/
def ascii (s : String) : List UInt8 := s.toList.map fun c => UInt8.ofNat c.toNat

/-- A byte memory. -/
abbrev Bytes := Nat → UInt8

namespace Bytes

/-- The `n` bytes from `off`. -/
def slice (m : Bytes) (off n : Nat) : List UInt8 := (List.range n).map fun k => m (off + k)

/-- Overwrite the bytes from `off` with `bs`. -/
def store (m : Bytes) (off : Nat) (bs : List UInt8) : Bytes := fun i =>
  if off ≤ i ∧ i < off + bs.length then bs.getD (i - off) 0 else m i

/-- Set the `n` bytes from `off` to `b`. -/
def fill (m : Bytes) (off n : Nat) (b : UInt8) : Bytes := fun i =>
  if off ≤ i ∧ i < off + n then b else m i

/-- The little-endian 16-bit word at `off`. -/
def word16 (m : Bytes) (off : Nat) : Nat := (m off).toNat + 256 * (m (off + 1)).toNat

/-- The little-endian 32-bit word at `off`. -/
def word32 (m : Bytes) (off : Nat) : Nat := m.word16 off + 65536 * m.word16 (off + 2)

/-- The two bytes of a 16-bit word, low byte first. -/
def le16 (x : Nat) : List UInt8 := [UInt8.ofNat x, UInt8.ofNat (x / 256)]

/-- The four bytes of a 32-bit word, low byte first. -/
def le32 (x : Nat) : List UInt8 := le16 x ++ le16 (x / 65536)

variable {m m' : Bytes} {off n i : Nat} {bs : List UInt8}

@[simp] theorem length_slice (m : Bytes) (off n : Nat) : (m.slice off n).length = n := by
  simp only [slice, List.length_map, List.length_range]

@[simp] theorem length_le16 (x : Nat) : (le16 x).length = 2 := rfl

@[simp] theorem length_le32 (x : Nat) : (le32 x).length = 4 := rfl

theorem getElem?_slice (h : i < n) : (m.slice off n)[i]? = some (m (off + i)) := by
  simp only [slice, List.getElem?_map, List.getElem?_range h, Option.map_some]

/-- Memories that agree on a run have the same slice of it. -/
theorem slice_congr (h : ∀ k, k < n → m (off + k) = m' (off + k)) :
    m.slice off n = m'.slice off n :=
  List.map_congr_left fun k hk => h k (List.mem_range.mp hk)

/-- And equal slices agree bytewise. -/
theorem apply_eq_of_slice (h : m.slice off n = m'.slice off n) (hi : i < n) :
    m (off + i) = m' (off + i) := by
  have := congrArg (fun l : List UInt8 => l[i]?) h
  simpa only [getElem?_slice hi, Option.some.injEq] using this

/-- A slice splits at any point. -/
theorem slice_add (m : Bytes) (off n k : Nat) :
    m.slice off (n + k) = m.slice off n ++ m.slice (off + n) k := by
  simp only [slice, List.range_add, List.map_append, List.map_map, Function.comp_def, Nat.add_assoc]

theorem slice_succ (m : Bytes) (off n : Nat) :
    m.slice off (n + 1) = m off :: m.slice (off + 1) n := by
  rw [Nat.add_comm n 1, slice_add]
  rfl

/-- Taking from a slice shortens it. -/
theorem take_slice (m : Bytes) (off : Nat) {k n : Nat} (h : k ≤ n) :
    (m.slice off n).take k = m.slice off k := by
  obtain ⟨d, rfl⟩ := Nat.exists_eq_add_of_le h
  rw [slice_add, List.take_left' (length_slice m off k)]

theorem drop_slice (m : Bytes) (off : Nat) {k n : Nat} (h : k ≤ n) :
    (m.slice off n).drop k = m.slice (off + k) (n - k) := by
  obtain ⟨d, rfl⟩ := Nat.exists_eq_add_of_le h
  rw [slice_add, List.drop_left' (length_slice m off k), Nat.add_sub_cancel_left]

/-- Memory full of zeros. -/
abbrev zeros : Bytes := fun _ => 0

theorem slice_zeros (off n : Nat) : zeros.slice off n = List.replicate n 0 := by
  rw [slice, List.map_const', List.length_range]

theorem word16_zeros (off : Nat) : zeros.word16 off = 0 := rfl

/-! ## Stores -/

theorem store_of_lt (h : i < off) : (m.store off bs) i = m i :=
  if_neg fun hi => absurd hi.1 (by omega)

theorem store_of_le (h : off + bs.length ≤ i) : (m.store off bs) i = m i :=
  if_neg fun hi => absurd hi.2 (by omega)

/-- A byte off the stored run keeps its value. -/
theorem store_of_not_mem (h : i < off ∨ off + bs.length ≤ i) : (m.store off bs) i = m i :=
  h.elim store_of_lt store_of_le

/-- A store looks at one byte at a time. -/
theorem store_congr (h : m i = m' i) : (m.store off bs) i = (m'.store off bs) i := by
  unfold store
  rw [h]

/-- A byte of the stored run has the stored value. -/
theorem store_add (h : i < bs.length) : (m.store off bs) (off + i) = bs.getD i 0 := by
  have hrun : off ≤ off + i ∧ off + i < off + bs.length := by omega
  simp only [store, if_pos hrun, Nat.add_sub_cancel_left]

@[simp] theorem store_nil (m : Bytes) (off : Nat) : m.store off [] = m := by
  funext i
  exact store_of_not_mem (by simp only [List.length_nil]; omega)

/-- A slice away from a store is unchanged. -/
theorem slice_store_of_disjoint {a : Nat} (h : a + n ≤ off ∨ off + bs.length ≤ a) :
    (m.store off bs).slice a n = m.slice a n :=
  slice_congr fun k hk => store_of_not_mem (by omega)

/-- A stored run reads back. -/
theorem slice_store_self (m : Bytes) (off : Nat) (bs : List UInt8) :
    (m.store off bs).slice off bs.length = bs := by
  apply List.ext_getElem?
  intro i
  by_cases hi : i < bs.length
  · rw [getElem?_slice hi, store_add hi, List.getD_eq_getElem?_getD,
      List.getElem?_eq_getElem hi, Option.getD_some]
  · rw [List.getElem?_eq_none (by rw [length_slice]; omega), List.getElem?_eq_none (by omega)]

/-- A slice that begins at a store and runs past it. -/
theorem slice_store_prefix (m : Bytes) (off : Nat) (h : bs.length ≤ n) :
    (m.store off bs).slice off n = bs ++ (m.slice off n).drop bs.length := by
  obtain ⟨d, rfl⟩ := Nat.exists_eq_add_of_le h
  rw [slice_add, slice_store_self, slice_store_of_disjoint (Or.inr (Nat.le_refl _)), slice_add,
    List.drop_left' (length_slice m off bs.length)]

/-! ## Words -/

theorem word16_congr (h0 : m off = m' off) (h1 : m (off + 1) = m' (off + 1)) :
    m.word16 off = m'.word16 off := by
  simp only [word16, h0, h1]

theorem word16_store_of_disjoint {a : Nat} (h : a + 2 ≤ off ∨ off + bs.length ≤ a) :
    (m.store off bs).word16 a = m.word16 a :=
  word16_congr (store_of_not_mem (by omega)) (store_of_not_mem (by omega))

theorem word32_store_of_disjoint {a : Nat} (h : a + 4 ≤ off ∨ off + bs.length ≤ a) :
    (m.store off bs).word32 a = m.word32 a := by
  simp only [word32]
  rw [word16_store_of_disjoint (by omega), word16_store_of_disjoint (by omega)]

/-- Equal words have equal bytes. -/
theorem apply_eq_of_word16 (h : m.word16 off = m'.word16 off) :
    m off = m' off ∧ m (off + 1) = m' (off + 1) := by
  unfold word16 at h
  have h0 := (m off).toNat_lt
  have h0' := (m' off).toNat_lt
  exact ⟨UInt8.toNat_inj.mp (by omega), UInt8.toNat_inj.mp (by omega)⟩

theorem word16_lt (m : Bytes) (off : Nat) : m.word16 off < 65536 := by
  have h0 := (m off).toNat_lt
  have h1 := (m (off + 1)).toNat_lt
  simp only [word16]
  omega

theorem word32_lt (m : Bytes) (off : Nat) : m.word32 off < 4294967296 := by
  have h0 := m.word16_lt off
  have h1 := m.word16_lt (off + 2)
  simp only [word32]
  omega

/-- A stored word reads back, modulo its width. -/
theorem word16_store_le16 (m : Bytes) (off x : Nat) :
    (m.store off (le16 x)).word16 off = x % 65536 := by
  have h0 : (m.store off (le16 x)) off = UInt8.ofNat x := store_add (i := 0) Nat.two_pos
  have h1 : (m.store off (le16 x)) (off + 1) = UInt8.ofNat (x / 256) :=
    store_add (i := 1) Nat.one_lt_two
  simp only [word16, h0, h1, UInt8.toNat_ofNat']
  omega

theorem store_append (m : Bytes) (off : Nat) (bs cs : List UInt8) :
    m.store off (bs ++ cs) = (m.store off bs).store (off + bs.length) cs := by
  funext i
  by_cases hc : off + bs.length ≤ i ∧ i < off + bs.length + cs.length
  · obtain ⟨k, rfl⟩ := Nat.exists_eq_add_of_le hc.1
    have hk : bs.length + k < (bs ++ cs).length := by rw [List.length_append]; omega
    rw [Nat.add_assoc, store_add hk, ← Nat.add_assoc, store_add (by omega),
      List.getD_append_right _ _ _ _ (by omega), Nat.add_sub_cancel_left]
  · have htail : ((m.store off bs).store (off + bs.length) cs) i = (m.store off bs) i :=
      store_of_not_mem (by omega)
    rw [htail]
    by_cases hb : off ≤ i ∧ i < off + bs.length
    · obtain ⟨k, rfl⟩ := Nat.exists_eq_add_of_le hb.1
      rw [store_add (by rw [List.length_append]; omega), store_add (by omega),
        List.getD_append _ _ _ _ (by omega)]
    · rw [store_of_not_mem (by rw [List.length_append]; omega), store_of_not_mem (by omega)]

/-- Writes that do not meet can change places. -/
theorem store_comm {off' : Nat} {bs' : List UInt8} (h : off + bs.length ≤ off' ∨ off' + bs'.length ≤ off) :
    (m.store off bs).store off' bs' = (m.store off' bs').store off bs := by
  funext i
  by_cases hi : off ≤ i ∧ i < off + bs.length
  · rw [store_of_not_mem (by omega), store_congr (store_of_not_mem (by omega))]
  · have hout : (m.store off' bs').store off bs i = m.store off' bs' i := store_of_not_mem (by omega)
    rw [hout, store_congr (store_of_not_mem (by omega))]

theorem word32_store_le32 (m : Bytes) (off x : Nat) :
    (m.store off (le32 x)).word32 off = x % 4294967296 := by
  simp only [word32, le32, store_append, length_le16]
  rw [word16_store_of_disjoint (Or.inl (Nat.le_refl _)), word16_store_le16, word16_store_le16]
  omega

/-- A word is read from its four bytes. -/
theorem word32_of_le32 {m : Bytes} {off x : Nat} (h : m.slice off 4 = le32 x) :
    m.word32 off = x % 4294967296 := by
  have hstore : m.slice off 4 = (m.store off (le32 x)).slice off 4 := by
    rw [h]
    exact (slice_store_self m off (le32 x)).symm
  have hword : m.word32 off = (m.store off (le32 x)).word32 off := by
    have hbyte : ∀ k, k < 4 → m (off + k) = (m.store off (le32 x)) (off + k) := fun k hk =>
      apply_eq_of_slice hstore hk
    simp only [word32, word16]
    rw [show m off = _ from hbyte 0 (by decide), hbyte 1 (by decide), hbyte 2 (by decide),
      Nat.add_assoc off 2 1, hbyte 3 (by decide)]
    rfl
  rw [hword, word32_store_le32]

end Bytes

end RainbowOs.Lib
