import RainbowOs.Fat12.Layout

/-!
# Tables — the volume without its bytes

`Tables` is what a volume is to the driver: directory entries, FAT values
and cluster contents, each a table of its own. `Shows L v t` says that the
bytes `v` mean `t` under the layout `L`, and every store the driver makes
keeps it, with one entry of one table updated. From here on nothing is
said about offsets.

The second half runs the driver's operations on tables: the same searches
in the same order, but freeing a chain is one `clear`, taking clusters is
one `grow` of the free list, and filling them is one pass over the data.
-/

namespace RainbowOs.Fat12

open RainbowOs.Lib RainbowOs.Lib.Linked

/-- Directory, FAT and clusters as tables. -/
structure Tables where
  ent : Nat → Entry
  fat : Nat → Nat
  dat : Nat → List UInt8

/-- The bytes `v` mean the tables `t`. -/
structure Shows (L : Layout) (v : Bytes) (t : Tables) : Prop where
  ent : ∀ i, i < L.bpb.rootEntryCount → entryAt L.bpb v i = t.ent i
  fat : ∀ c, c < L.cells → fatAt L.bpb v c = t.fat c
  dat : ∀ c, 2 ≤ c → c < L.cells → clusterAt L.bpb v c = t.dat c

/-- The tables of a volume. -/
def tablesOf (g : Bpb) (v : Bytes) : Tables := ⟨entryAt g v, fatAt g v, clusterAt g v⟩

theorem shows_tablesOf (L : Layout) (v : Bytes) : Shows L v (tablesOf L.bpb v) :=
  ⟨fun _ _ => rfl, fun _ _ => rfl, fun _ _ _ => rfl⟩

/-! ## Stores into one directory entry -/

theorem entryOf_congr {v v' : Bytes} {off : Nat} (h : ∀ k, k < 32 → v (off + k) = v' (off + k)) :
    entryOf v off = entryOf v' off := by
  have hname : v.slice off 11 = v'.slice off 11 := Bytes.slice_congr fun k hk => h k (by omega)
  have hgap : v.slice (off + 12) 14 = v'.slice (off + 12) 14 := by
    refine Bytes.slice_congr fun k hk => ?_
    rw [Nat.add_assoc]
    exact h (12 + k) (by omega)
  have hfirst : v.word16 (off + 26) = v'.word16 (off + 26) :=
    Bytes.word16_congr (h 26 (by omega)) (h 27 (by omega))
  have hlo : v.word16 (off + 28) = v'.word16 (off + 28) :=
    Bytes.word16_congr (h 28 (by omega)) (h 29 (by omega))
  have hhi : v.word16 (off + 28 + 2) = v'.word16 (off + 28 + 2) :=
    Bytes.word16_congr (h 30 (by omega)) (h 31 (by omega))
  unfold entryOf
  rw [hname, h attrField (by decide), hgap, hfirst, Bytes.word32, hlo, hhi, ← Bytes.word32]

/-- The fields of an entry cover all of its bytes. -/
theorem apply_eq_of_entryOf {v v' : Bytes} {off k : Nat} (h : entryOf v off = entryOf v' off)
    (hk : k < 32) : v (off + k) = v' (off + k) := by
  simp only [entryOf, Entry.mk.injEq, attrField, firstClusterField, sizeField] at h
  obtain ⟨hname, hattr, hgap, hfirst, hsize⟩ := h
  have hlo := v.word16_lt (off + 28)
  have hlo' := v'.word16_lt (off + 28)
  have h26 := Bytes.apply_eq_of_word16 hfirst
  unfold Bytes.word32 at hsize
  have h28 : v (off + 28) = v' (off + 28) ∧ v (off + 28 + 1) = v' (off + 28 + 1) :=
    Bytes.apply_eq_of_word16 (by omega)
  have h30 : v (off + 28 + 2) = v' (off + 28 + 2) ∧ v (off + 28 + 2 + 1) = v' (off + 28 + 2 + 1) :=
    Bytes.apply_eq_of_word16 (by omega)
  by_cases hk11 : k < 11
  · exact Bytes.apply_eq_of_slice hname hk11
  by_cases hk26 : 12 ≤ k ∧ k < 26
  · have heq := Bytes.apply_eq_of_slice hgap (show k - 12 < 14 by omega)
    rw [show off + 12 + (k - 12) = off + k by omega] at heq
    exact heq
  have hrest : k = 11 ∨ k = 26 ∨ k = 27 ∨ k = 28 ∨ k = 29 ∨ k = 30 ∨ k = 31 := by omega
  rcases hrest with rfl | rfl | rfl | rfl | rfl | rfl | rfl
  · exact hattr
  · exact h26.1
  · exact h26.2
  · exact h28.1
  · exact h28.2
  · exact h30.1
  · exact h30.2

variable {v : Bytes} {off : Nat}

theorem entryOf_store_name {bs : List UInt8} (h : bs.length = 11) :
    entryOf (v.store off bs) off = { entryOf v off with name := bs } := by
  simp only [entryOf, attrField, firstClusterField, sizeField]
  have hname := Bytes.slice_store_self v off bs
  rw [h] at hname
  rw [hname, Bytes.store_of_not_mem (by omega), Bytes.slice_store_of_disjoint (by omega),
    Bytes.word16_store_of_disjoint (by omega), Bytes.word32_store_of_disjoint (by omega)]

theorem entryOf_store_attr (b : UInt8) :
    entryOf (v.store (off + attrField) [b]) off = { entryOf v off with attr := b } := by
  simp only [entryOf, attrField, firstClusterField, sizeField]
  have hattr : (v.store (off + attrField) [b]) (off + attrField) = b :=
    Bytes.store_add (i := 0) Nat.one_pos
  have hlen : [b].length = 1 := rfl
  rw [hattr, Bytes.slice_store_of_disjoint (by omega), Bytes.slice_store_of_disjoint (by omega),
    Bytes.word16_store_of_disjoint (by omega), Bytes.word32_store_of_disjoint (by omega)]

theorem entryOf_store_first (x : Nat) :
    entryOf (v.store (off + firstClusterField) (Bytes.le16 x)) off =
      { entryOf v off with first := x % 65536 } := by
  simp only [entryOf, attrField, firstClusterField, sizeField]
  have hlen := Bytes.length_le16 x
  rw [Bytes.word16_store_le16, Bytes.slice_store_of_disjoint (by omega),
    Bytes.slice_store_of_disjoint (by omega), Bytes.store_of_not_mem (by omega),
    Bytes.word32_store_of_disjoint (by omega)]

theorem entryOf_store_size (x : Nat) :
    entryOf (v.store (off + sizeField) (Bytes.le32 x)) off =
      { entryOf v off with size := x % 4294967296 } := by
  simp only [entryOf, attrField, firstClusterField, sizeField]
  have hlen := Bytes.length_le32 x
  rw [Bytes.word32_store_le32, Bytes.slice_store_of_disjoint (by omega),
    Bytes.slice_store_of_disjoint (by omega), Bytes.store_of_not_mem (by omega),
    Bytes.word16_store_of_disjoint (by omega)]

/-- Storing one byte over the first of the name. -/
theorem entryOf_store_mark (b : UInt8) :
    entryOf (v.store off [b]) off =
      { entryOf v off with name := b :: (entryOf v off).name.tail } := by
  have hlen : [b].length = 1 := rfl
  have hname : (v.store off [b]).slice off 11 = b :: (v.slice off 11).tail := by
    rw [Bytes.slice_store_prefix v off (by omega), hlen, List.drop_one, List.singleton_append]
  simp only [entryOf, attrField, firstClusterField, sizeField]
  rw [hname, Bytes.store_of_not_mem (by omega), Bytes.slice_store_of_disjoint (by omega),
    Bytes.word16_store_of_disjoint (by omega), Bytes.word32_store_of_disjoint (by omega)]

/-- What a new entry has between its attribute and its first cluster. -/
theorem entryOf_store_zeros_gap (v : Bytes) (off : Nat) :
    (entryOf (v.store off (List.replicate 32 0)) off).gap = List.replicate 14 0 := by
  apply List.ext_getElem?
  intro k
  by_cases hk : k < 14
  · have hbyte : (v.store off (List.replicate 32 (0 : UInt8))) (off + (12 + k)) = 0 := by
      rw [Bytes.store_add (by rw [List.length_replicate]; omega), List.getD_replicate _ (by omega)]
    rw [entryOf, Bytes.getElem?_slice hk, Nat.add_assoc, hbyte, List.getElem?_replicate_of_lt hk]
  · rw [List.getElem?_eq_none (by rw [entryOf, Bytes.length_slice]; omega),
      List.getElem?_eq_none (by rw [List.length_replicate]; omega)]

/-! ## Stores into a volume -/

namespace Shows

variable {L : Layout} {t : Tables}

/-- Bytes outside the FAT region leave the FAT alone. -/
theorem fat_of_eq_below (h : Shows L v t) {v' : Bytes}
    (heq : ∀ k, k < L.bpb.rootDirOffset → v' k = v k) :
    ∀ c, c < L.cells → fatAt L.bpb v' c = t.fat c := by
  intro c hc
  have hoff := L.fatEntryOffset_eq hc
  rw [← h.fat c hc]
  exact fatAt_congr (heq _ (by omega)) (heq _ (by omega))

/-- Writing one FAT entry. -/
theorem writeFat (h : Shows L v t) {c : Nat} (hc : c < L.cells) (value : Nat) :
    Shows L (writtenFat L.bpb v c value)
      { t with fat := Function.update t.fat c (value % 4096) } := by
  have hoff := L.fatEntryOffset_eq hc
  have hdir := L.dir_fits
  have habove : ∀ k, L.bpb.rootDirOffset ≤ k → writtenFat L.bpb v c value k = v k := fun k hk =>
    writtenFat_of_not_mem (by omega)
  refine ⟨fun i hi => ?_, fun d hd => ?_, fun d h2 hd => ?_⟩
  · have hent := L.direntOffset_eq hi
    rw [← h.ent i hi]
    exact entryOf_congr fun k _ => habove _ (by omega)
  · show _ = Function.update t.fat c (value % 4096) d
    by_cases hdc : d = c
    · subst hdc
      rw [Function.update_self, fatAt_writtenFat_self]
    · rw [Function.update_of_ne hdc, fatAt_writtenFat_of_ne v value (L.fatEntryOffset_eq hc).1
        (L.fatEntryOffset_eq hd).1 hdc, h.fat d hd]
  · have hclus := L.clusterToOffset_eq h2 hd
    rw [← h.dat d h2 hd]
    exact Bytes.slice_congr fun k _ => habove _ (by omega)

/-- Writing into one cluster. -/
theorem writeData (h : Shows L v t) {c : Nat} (h2 : 2 ≤ c) (hc : c < L.cells) {bs : List UInt8}
    (hbs : bs.length ≤ L.bpb.clusterBytes) :
    Shows L (v.store (L.bpb.clusterToOffset c) bs)
      { t with dat := Function.update t.dat c (bs ++ (t.dat c).drop bs.length) } := by
  have hoff := L.clusterToOffset_eq h2 hc
  have hdir := L.dir_fits
  have hbelow : ∀ k, k < L.bpb.dataStartOffset →
      (v.store (L.bpb.clusterToOffset c) bs) k = v k := fun k hk =>
    Bytes.store_of_not_mem (Or.inl (by omega))
  refine ⟨fun i hi => ?_, h.fat_of_eq_below fun k hk => hbelow k (by omega), fun d h2' hd => ?_⟩
  · have hent := L.direntOffset_eq hi
    rw [← h.ent i hi]
    exact entryOf_congr fun k _ => hbelow _ (by omega)
  · show _ = Function.update t.dat c _ d
    by_cases hdc : d = c
    · subst hdc
      rw [Function.update_self, clusterAt, Bytes.slice_store_prefix _ _ hbs, ← h.dat d h2 hc,
        clusterAt]
    · have hdis := L.clusters_disjoint h2' hd h2 hc hdc
      rw [Function.update_of_ne hdc, ← h.dat d h2' hd, clusterAt, clusterAt,
        Bytes.slice_store_of_disjoint (by omega)]

/-- Writing inside one directory entry. -/
theorem writeDir (h : Shows L v t) {i : Nat} (hi : i < L.bpb.rootEntryCount) (v' : Bytes)
    (heq : ∀ k, k < L.bpb.direntOffset i ∨ L.bpb.direntOffset i + 32 ≤ k → v' k = v k) :
    Shows L v' { t with ent := Function.update t.ent i (entryOf v' (L.bpb.direntOffset i)) } := by
  have hent := L.direntOffset_eq hi
  refine ⟨fun j hj => ?_, h.fat_of_eq_below fun k hk => heq k (by omega), fun d h2 hd => ?_⟩
  · show _ = Function.update t.ent i _ j
    by_cases hji : j = i
    · subst hji
      rw [Function.update_self, entryAt]
    · have hentj := L.direntOffset_eq hj
      rw [Function.update_of_ne hji, ← h.ent j hj]
      exact entryOf_congr fun k _ => heq _ (by omega)
  · have hclus := L.clusterToOffset_eq h2 hd
    rw [← h.dat d h2 hd]
    exact Bytes.slice_congr fun k _ => heq _ (by omega)

end Shows

/-- A directory entry never written. -/
def zeroEntry : Entry := ⟨List.replicate 11 0, 0, List.replicate 14 0, 0, 0⟩

/-- A volume of zeros from the FAT to the last cluster. -/
theorem shows_blank (L : Layout) {v : Bytes} (h : ∀ k, L.bpb.fatOffset ≤ k →
    k < L.bpb.dataStartOffset + (L.cells - 2) * L.bpb.clusterBytes → v k = 0) :
    Shows L v { ent := fun _ => zeroEntry
                fat := fun _ => 0
                dat := fun _ => List.replicate L.bpb.clusterBytes 0 } := by
  have hfat := L.fat_fits
  have hdir := L.dir_fits
  refine ⟨fun i hi => ?_, fun c hc => ?_, fun c h2 hc => ?_⟩
  · have hoff := L.direntOffset_eq hi
    have heq : entryAt L.bpb v i = entryOf Bytes.zeros (L.bpb.direntOffset i) :=
      entryOf_congr fun k _ => h _ (by omega) (by omega)
    rw [heq]
    unfold entryOf
    rw [Bytes.slice_zeros, Bytes.slice_zeros]
    rfl
  · have hoff := L.fatEntryOffset_eq hc
    have heq : fatAt L.bpb v c = fatAt L.bpb Bytes.zeros c :=
      fatAt_congr (h _ (by omega) (by omega)) (h _ (by omega) (by omega))
    rw [heq]
    unfold fatAt
    rw [Bytes.word16_zeros]
    exact ite_self 0
  · have hoff := L.clusterToOffset_eq h2 hc
    have heq : clusterAt L.bpb v c = clusterAt L.bpb Bytes.zeros c :=
      Bytes.slice_congr fun k _ => h _ (by omega) (by omega)
    rw [heq]
    exact Bytes.slice_zeros _ _

/-! ## The operations on tables -/

/-- A cluster number that ends a walk. -/
def stops (c : Nat) : Bool := decide (c < 2) || decide (0xFF8 ≤ c)

/-- What a new file starts as. -/
def newEntry (name83 : List UInt8) (first size : Nat) : Entry where
  name := name83
  attr := 0x20
  gap := List.replicate 14 0
  first := first
  size := size

/-- Clusters taken by `size` bytes. -/
def clustersFor (cb size : Nat) : Nat := (size + cb - 1) / cb

namespace Tables

variable (t : Tables)

/-- The live entries among `n` from `i`, up to the end mark. -/
def live (n i : Nat) : List Nat :=
  ((List.range' i n).takeWhile fun j => (t.ent j).mark != 0x00).filter fun j => (t.ent j).Live

/-- The first live entry with the folded name, among `n` from `i`. -/
def find (name83 : List UInt8) (n i : Nat) : Option Nat :=
  (t.live n i).find? fun j => (t.ent j).name = name83

/-- The first entry not in use, among `n` from `i`. -/
def slot (n i : Nat) : Option Nat :=
  (List.range' i n).find? fun j => (t.ent j).mark == 0x00 || (t.ent j).mark == 0xE5

/-- The clusters of entry `i`. -/
def cellsOf (N : Nat) (i : Nat) : List Nat := follow t.fat stops N (t.ent i).first

/-- What a read of entry `i` can return. -/
def contents (N : Nat) (i : Nat) : List UInt8 :=
  ((t.cellsOf N i).flatMap t.dat).take (t.ent i).size

end Tables

/-- Fill clusters with data, in order, the last one perhaps in part. -/
def fill (cb : Nat) : (Nat → List UInt8) → List Nat → List UInt8 → (Nat → List UInt8)
  | dat, [], _ => dat
  | dat, c :: cs, data =>
    fill cb (Function.update dat c (data.take cb ++ (dat c).drop (data.take cb).length)) cs
      (data.drop cb)

namespace Tables

variable (t : Tables)

/-- The tables after the chain of an existing file is freed. -/
def release (N : Nat) : Option Nat → Tables
  | none => t
  | some i => { t with fat := clear t.fat (t.cellsOf N i) }

/-- The tables after the first `k` free clusters are chained and filled. -/
def take (cb N k : Nat) (data : List UInt8) : Tables :=
  let cells := (freeCells t.fat 2 N).take k
  { t with fat := grow 0xFFF t.fat 0 cells, dat := fill cb t.dat cells data }

/-- The head of the chain `take` makes. -/
def takenFirst (N k : Nat) : Nat := ((freeCells t.fat 2 N).take k).headD 0

/-- Replace entry `i`. -/
def setEnt (i : Nat) (e : Entry) : Tables := { t with ent := Function.update t.ent i e }

/-- Set the chain and the size of entry `i`. -/
def setEntry (i first size : Nat) : Tables :=
  t.setEnt i { t.ent i with first := first, size := size }

/-- Mark entry `i` deleted. -/
def dropEntry (i : Nat) : Tables :=
  t.setEnt i { t.ent i with name := 0xE5 :: (t.ent i).name.tail }

end Tables

end RainbowOs.Fat12
