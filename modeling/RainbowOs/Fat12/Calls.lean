import RainbowOs.Fat12.Simulation

/-!
# The four calls on tables

The directory searches, the two data loops and the calls themselves. A
call on tables is short enough to reason about whole runs with, and
`total_writeFile`, `total_deleteFile`, `total_readFile` and
`total_listRoot` carry what is proved of it down to the bytes.
-/

namespace RainbowOs.Fat12

open RainbowOs.Lib RainbowOs.Lib.Linked

variable {L : Layout} {t : Tables} {v : Bytes}

/-! ## The directory -/

section Directory

theorem inside_dir {i k n : Nat} (hi : i < L.bpb.rootEntryCount) (hk : k + n ≤ 32) :
    Inside L ⟨.dir, L.bpb.direntOffset i + k, n⟩ := by
  have hoff := L.direntOffset_eq hi
  exact ⟨by simp only; omega, by simp only; omega⟩

theorem Tables.live_zero (t : Tables) (i : Nat) : t.live 0 i = [] := rfl

theorem Tables.live_succ (t : Tables) (n i : Nat) :
    t.live (n + 1) i =
      if (t.ent i).mark = 0x00 then []
      else if (t.ent i).Live then i :: t.live n (i + 1) else t.live n (i + 1) := by
  unfold Tables.live
  rw [List.range'_succ, List.takeWhile_cons]
  by_cases hm : (t.ent i).mark = 0x00
  · rw [if_pos hm, if_neg (by simp only [hm, bne_self_eq_false, Bool.false_eq_true,
      not_false_eq_true]), List.filter_nil]
  · rw [if_neg hm, if_pos (bne_iff_ne.mpr hm), List.filter_cons]
    simp only [decide_eq_true_eq]

/-- The byte of an entry that says whether it is in use. -/
theorem mark_eq (h : Shows L v t) {i : Nat} (hi : i < L.bpb.rootEntryCount) :
    v (L.bpb.direntOffset i) = (t.ent i).mark := by
  rw [← h.ent i hi]
  rfl

theorem attr_eq (h : Shows L v t) {i : Nat} (hi : i < L.bpb.rootEntryCount) :
    v (L.bpb.direntOffset i + attrField) = (t.ent i).attr := by
  rw [← h.ent i hi]
  rfl

theorem total_loadMark (h : Shows L v t) {i : Nat} (hi : i < L.bpb.rootEntryCount)
    {Q : UInt8 → Bytes → Prop} (hQ : Q (t.ent i).mark v) :
    (loadByte .dir (L.bpb.direntOffset i)).total (Inside L) Q v := by
  refine total_loadByte (inside_dir (k := 0) hi (by omega)) ?_
  rw [mark_eq h hi]
  exact hQ

theorem total_loadAttr (h : Shows L v t) {i : Nat} (hi : i < L.bpb.rootEntryCount)
    {Q : UInt8 → Bytes → Prop} (hQ : Q (t.ent i).attr v) :
    (loadByte .dir (L.bpb.direntOffset i + attrField)).total (Inside L) Q v := by
  refine total_loadByte (inside_dir hi (by decide)) ?_
  rw [attr_eq h hi]
  exact hQ

theorem total_loadFirst (h : Shows L v t) {i : Nat} (hi : i < L.bpb.rootEntryCount)
    {Q : Nat → Bytes → Prop} (hQ : Q (t.ent i).first v) :
    (read16 .dir (L.bpb.direntOffset i + firstClusterField)).total (Inside L) Q v := by
  refine total_read16 (inside_dir hi (by decide)) ?_
  rw [← h.ent i hi] at hQ
  exact hQ

theorem total_loadSize (h : Shows L v t) {i : Nat} (hi : i < L.bpb.rootEntryCount)
    {Q : Nat → Bytes → Prop} (hQ : Q (t.ent i).size v) :
    (read32 .dir (L.bpb.direntOffset i + sizeField)).total (Inside L) Q v := by
  refine total_read32 (inside_dir hi (by decide)) ?_
  rw [← h.ent i hi] at hQ
  exact hQ

/-- The byte comparison compares. -/
theorem total_matchName {P : Access → Prop} {Q : Bool → Bytes → Prop} {bs : List UInt8} {off : Nat}
    (hP : ∀ k, k < bs.length → P ⟨.dir, off + k, 1⟩)
    (hQ : Q (decide (v.slice off bs.length = bs)) v) : (matchName off bs).total P Q v := by
  induction bs generalizing off with
  | nil => exact Prog.total_pure hQ
  | cons b bs ih =>
    rw [matchName]
    refine Prog.total_bind.mpr (total_loadByte (hP 0 (by simp only [List.length_cons]; omega)) ?_)
    rw [List.length_cons, Bytes.slice_succ] at hQ
    by_cases hb : v off = b
    · rw [if_neg (fun h => h hb)]
      refine ih (fun k hk => ?_) ?_
      · rw [Nat.add_assoc, Nat.add_comm 1 k]
        exact hP (k + 1) (by simp only [List.length_cons]; omega)
      · simpa only [hb, List.cons.injEq, true_and] using hQ
    · rw [if_pos hb]
      refine Prog.total_pure ?_
      simpa only [List.cons.injEq, hb, false_and, decide_false] using hQ

theorem total_findEntry (h : Shows L v t) {name83 : List UInt8} (hname : name83.length = 11)
    {n i : Nat} (hn : i + n ≤ L.bpb.rootEntryCount) {Q : Option Nat → Bytes → Prop}
    (hQ : Q (t.find name83 n i) v) : (findEntry L.bpb name83 n i).total (Inside L) Q v := by
  unfold Tables.find at hQ
  induction n generalizing i with
  | zero => exact Prog.total_pure hQ
  | succ n ih =>
    have hi : i < L.bpb.rootEntryCount := by omega
    rw [Tables.live_succ] at hQ
    rw [findEntry]
    refine Prog.total_bind.mpr (total_loadMark h hi ?_)
    by_cases hm : (t.ent i).mark = 0x00
    · rw [if_pos hm] at hQ ⊢
      exact Prog.total_pure hQ
    rw [if_neg hm] at hQ ⊢
    by_cases hd : (t.ent i).mark = 0xE5
    · rw [if_neg fun hl => hl.2.1 hd] at hQ
      rw [if_pos hd]
      exact ih (by omega) hQ
    rw [if_neg hd]
    refine Prog.total_bind.mpr (total_loadAttr h hi ?_)
    by_cases h8 : (t.ent i).attr &&& 0x08 = 0
    swap
    · rw [if_neg fun hl => h8 hl.2.2.1] at hQ
      rw [if_pos h8]
      exact ih (by omega) hQ
    rw [if_neg fun hne => hne h8]
    by_cases h10 : (t.ent i).attr &&& 0x10 = 0
    swap
    · rw [if_neg fun hl => h10 hl.2.2.2] at hQ
      rw [if_pos h10]
      exact ih (by omega) hQ
    rw [if_neg fun hne => hne h10]
    rw [if_pos ⟨hm, hd, h8, h10⟩, List.find?_cons] at hQ
    refine Prog.total_bind.mpr (total_matchName (fun k hk => inside_dir hi (by omega)) ?_)
    have hslice : v.slice (L.bpb.direntOffset i) name83.length = (t.ent i).name := by
      rw [hname, ← h.ent i hi]
      rfl
    rw [hslice]
    by_cases heq : (t.ent i).name = name83
    · rw [decide_eq_true heq] at hQ ⊢
      exact Prog.total_pure hQ
    · rw [decide_eq_false heq] at hQ ⊢
      exact ih (by omega) hQ

theorem total_findSlot (h : Shows L v t) {n i : Nat} (hn : i + n ≤ L.bpb.rootEntryCount)
    {Q : Option Nat → Bytes → Prop} (hQ : Q (t.slot n i) v) :
    (findSlot L.bpb n i).total (Inside L) Q v := by
  unfold Tables.slot at hQ
  induction n generalizing i with
  | zero => exact Prog.total_pure hQ
  | succ n ih =>
    have hi : i < L.bpb.rootEntryCount := by omega
    rw [List.range'_succ, List.find?_cons] at hQ
    rw [findSlot]
    refine Prog.total_bind.mpr (total_loadMark h hi ?_)
    by_cases hm : (t.ent i).mark = 0x00 ∨ (t.ent i).mark = 0xE5
    · have hb : ((t.ent i).mark == 0x00 || (t.ent i).mark == 0xE5) = true := by
        rw [Bool.or_eq_true, beq_iff_eq, beq_iff_eq]
        exact hm
      rw [hb] at hQ
      rw [if_pos hm]
      exact Prog.total_pure hQ
    · have hb : ((t.ent i).mark == 0x00 || (t.ent i).mark == 0xE5) = false := by
        rw [← Bool.not_eq_true, Bool.or_eq_true, beq_iff_eq, beq_iff_eq]
        exact hm
      rw [hb] at hQ
      rw [if_neg hm]
      exact ih (by omega) hQ

/-- How an entry is listed. -/
def Entry.listed (e : Entry) : Dirent := ⟨formatName e.name, e.size, e.attr⟩

theorem total_listLoop (h : Shows L v t) {n i room : Nat} (hn : i + n ≤ L.bpb.rootEntryCount)
    {Q : List Dirent → Bytes → Prop}
    (hQ : Q (((t.live n i).take room).map fun j => (t.ent j).listed) v) :
    (listLoop L.bpb n i room).total (Inside L) Q v := by
  induction n generalizing i room Q with
  | zero => exact Prog.total_pure (by simpa only [Tables.live_zero, List.take_nil, List.map_nil] using hQ)
  | succ n ih =>
    have hi : i < L.bpb.rootEntryCount := by omega
    rw [Tables.live_succ] at hQ
    rw [listLoop]
    by_cases hr : room = 0
    · rw [if_pos hr]
      rw [hr, List.take_zero] at hQ
      exact Prog.total_pure hQ
    rw [if_neg hr]
    refine Prog.total_bind.mpr (total_loadMark h hi ?_)
    by_cases hm : (t.ent i).mark = 0x00
    · rw [if_pos hm]
      rw [if_pos hm, List.take_nil] at hQ
      exact Prog.total_pure hQ
    rw [if_neg hm] at hQ ⊢
    by_cases hd : (t.ent i).mark = 0xE5
    · rw [if_neg fun hl => hl.2.1 hd] at hQ
      rw [if_pos hd]
      exact ih (by omega) hQ
    rw [if_neg hd]
    refine Prog.total_bind.mpr (total_loadAttr h hi ?_)
    by_cases h8 : (t.ent i).attr &&& 0x08 = 0
    swap
    · rw [if_neg fun hl => h8 hl.2.2.1] at hQ
      rw [if_pos h8]
      exact ih (by omega) hQ
    rw [if_neg fun hne => hne h8]
    by_cases h10 : (t.ent i).attr &&& 0x10 = 0
    swap
    · rw [if_neg fun hl => h10 hl.2.2.2] at hQ
      rw [if_pos h10]
      exact ih (by omega) hQ
    rw [if_neg fun hne => hne h10]
    rw [if_pos ⟨hm, hd, h8, h10⟩] at hQ
    obtain ⟨room, rfl⟩ := Nat.exists_eq_succ_of_ne_zero hr
    refine Prog.total_bind.mpr (total_loadBytes (inside_dir (k := 0) hi (by omega)) ?_)
    refine Prog.total_bind.mpr (total_loadSize h hi ?_)
    refine Prog.total_bind.mpr (ih (by omega) (Prog.total_pure ?_))
    have hraw : v.slice (L.bpb.direntOffset i) 11 = (t.ent i).name := by
      rw [← h.ent i hi]
      rfl
    rw [hraw]
    exact hQ

end Directory

/-! ## The two data loops -/

section Data

theorem clustersFor_zero {cb : Nat} (hcb : 0 < cb) : clustersFor cb 0 = 0 :=
  Nat.div_eq_of_lt (by omega)

theorem clustersFor_step {cb n : Nat} (hcb : 0 < cb) (hn : 0 < n) :
    clustersFor cb n = clustersFor cb (n - cb) + 1 := by
  have hsum : n + cb - 1 = (n - 1) + cb := by omega
  unfold clustersFor
  rw [hsum, Nat.add_div_right _ hcb]
  by_cases hle : n < cb
  · rw [Nat.sub_eq_zero_of_le (Nat.le_of_lt hle), Nat.div_eq_of_lt (by omega),
      Nat.div_eq_of_lt (by omega)]
  · rw [show n - cb + cb - 1 = n - 1 by omega]

theorem le_clustersFor_mul {cb : Nat} (hcb : 0 < cb) (n : Nat) : n ≤ clustersFor cb n * cb := by
  unfold clustersFor
  have h := Nat.div_add_mod (n + cb - 1) cb
  have hlt := Nat.mod_lt (n + cb - 1) hcb
  rw [Nat.mul_comm] at h
  omega

theorem inside_data {c n : Nat} (h2 : 2 ≤ c) (hc : c < L.cells) (hn : n ≤ L.bpb.clusterBytes) :
    Inside L ⟨.data, L.bpb.clusterToOffset c, n⟩ := by
  have hoff := L.clusterToOffset_eq h2 hc
  exact ⟨by simp only; omega, by simp only; omega⟩

theorem length_dat (h : Shows L v t) {c : Nat} (h2 : 2 ≤ c) (hc : c < L.cells) :
    (t.dat c).length = L.bpb.clusterBytes := by
  rw [← h.dat c h2 hc, clusterAt, Bytes.length_slice]

theorem total_linkFrom (h : Shows L v t) {prev c : Nat} (hprev : prev = 0 ∨ prev < L.cells)
    (hc : c < L.cells) :
    (linkFrom L.bpb prev c).total (Inside L) (fun _ v' => Shows L v'
      { t with fat := if prev = 0 then t.fat else Function.update t.fat prev c }) v := by
  have hmark := L.cells_le_mark
  unfold linkFrom
  by_cases h0 : prev = 0
  · rw [if_neg fun hne => hne h0, if_pos h0]
    exact Prog.total_pure h
  · rw [if_pos h0, if_neg h0]
    have hw := total_writeFat h (hprev.resolve_left h0) c
    rw [Nat.mod_eq_of_lt (show c < 4096 by omega)] at hw
    exact hw

/-- A round with a free cluster takes the first one, links it to the one before and
fills it with what is left of the data, at most a cluster of it. -/
theorem total_writeRound (h : Shows L v t) {data : List UInt8} {prev written c : Nat}
    {F : List Nat} (hF : freeCells t.fat 2 L.cells = c :: F)
    (hprev : prev = 0 ∨ prev < L.cells)
    (hnowrap : written + L.bpb.clusterBytes < 4294967296) :
    (writeRound L.bpb data prev written).total (Inside L) (fun r v' =>
      r = some (c, min L.bpb.clusterBytes (data.length - written)) ∧
      Shows L v' { t with
        fat := grow 0xFFF t.fat prev [c],
        dat := Function.update t.dat c ((data.drop written).take L.bpb.clusterBytes ++
          (t.dat c).drop ((data.drop written).take L.bpb.clusterBytes).length) }) v := by
  have hmark := L.cells_le_mark
  have hc := mem_freeCells.mp (hF ▸ List.mem_cons_self : c ∈ freeCells t.fat 2 L.cells)
  have hne : freeCells t.fat 2 L.cells ≠ [] := by rw [hF]; exact List.cons_ne_nil c F
  refine Prog.total_seq (total_allocCluster h (Or.inl hne)) fun r v₁ hr => ?_
  obtain ⟨rfl, rfl⟩ := hr
  rw [hF, List.headD_cons, if_neg (by omega)]
  refine Prog.total_seq (total_linkFrom h hprev hc.2.1) fun _ v₂ h₂ => ?_
  have hsum : u32 (written + L.bpb.clusterBytes) = written + L.bpb.clusterBytes :=
    Nat.mod_eq_of_lt hnowrap
  have hif : (if u32 (written + L.bpb.clusterBytes) > data.length then data.length - written
      else L.bpb.clusterBytes) = min L.bpb.clusterBytes (data.length - written) := by
    rw [hsum]
    split <;> omega
  have htake : (data.drop written).take (min L.bpb.clusterBytes (data.length - written)) =
      (data.drop written).take L.bpb.clusterBytes := by
    rw [← List.length_drop, List.take_eq_take_iff]
    omega
  simp only [hif, htake]
  have hlen : ((data.drop written).take L.bpb.clusterBytes).length ≤ L.bpb.clusterBytes :=
    List.length_take_le _ _
  refine Prog.total_bind.mpr (total_storeBytes (inside_data hc.1 hc.2.1 hlen) ?_)
  have h₃ := h₂.writeData hc.1 hc.2.1 hlen
  refine Prog.total_seq (total_writeFat h₃ hc.2.1 0xFFF) fun _ v₄ h₄ => ?_
  exact Prog.total_pure ⟨rfl, h₄⟩

/-- A round with nothing free finds the disk full, where the layout ends with the disk. -/
theorem total_writeRound_full (h : Shows L v t) (hL : L.Full) {data : List UInt8}
    {prev written : Nat} (hF : freeCells t.fat 2 L.cells = []) :
    (writeRound L.bpb data prev written).total (Inside L)
      (fun r v' => r = none ∧ v' = v) v := by
  refine Prog.total_seq (total_allocCluster h (Or.inr hL)) fun r v' hr => ?_
  obtain ⟨rfl, rfl⟩ := hr
  rw [hF, List.headD_nil, if_pos rfl]
  exact Prog.total_pure ⟨rfl, rfl⟩

/-- What a round leaves for the next one. -/
theorem freeCells_round {prev c : Nat} {F : List Nat} (hF : freeCells t.fat 2 L.cells = c :: F)
    (hprev : prev = 0 ∨ t.fat prev ≠ 0) :
    freeCells (grow 0xFFF t.fat prev [c]) 2 L.cells = F ∧ grow 0xFFF t.fat prev [c] c ≠ 0 := by
  have hg := freeCells_grow hF Nat.two_pos (show (0xFFF : Nat) ≠ 0 by decide) hprev 1
  rw [List.take_succ_cons, List.take_zero, List.drop_succ_cons, List.drop_zero] at hg
  refine ⟨hg, ?_⟩
  rw [grow, grow, Function.update_self]
  decide

/-- What is left of the data after a round. -/
theorem drop_round (data : List UInt8) (written cb : Nat) :
    data.drop (written + min cb (data.length - written)) = (data.drop written).drop cb := by
  rw [List.drop_drop]
  by_cases hpart : cb ≤ data.length - written
  · rw [Nat.min_eq_left hpart]
  · rw [List.drop_eq_nil_of_le (by omega), List.drop_eq_nil_of_le (by omega)]

/-- The chain of a file being written grows by the first free clusters, and
they are filled with what is left of the data. -/
theorem total_writeLoop (data : List UInt8) {fuel : Nat} :
    ∀ {v : Bytes} {t : Tables} (first prev written : Nat), Shows L v t →
      written ≤ data.length → data.length - written < fuel →
      (prev = 0 ∨ prev < L.cells ∧ t.fat prev ≠ 0) →
      (clustersFor L.bpb.clusterBytes (data.length - written) ≤
        (freeCells t.fat 2 L.cells).length ∨ L.Full) →
      written + (freeCells t.fat 2 L.cells).length * L.bpb.clusterBytes ≤
        (L.cells - 2) * L.bpb.clusterBytes →
      (writeLoop L.bpb data fuel first prev written).total (Inside L) (fun r v' =>
        let k := clustersFor L.bpb.clusterBytes (data.length - written)
        let taken := (freeCells t.fat 2 L.cells).take k
        r = (if (freeCells t.fat 2 L.cells).length < k then none
          else some (if first = 0 then taken.headD 0 else first)) ∧
        Shows L v' { t with
          fat := grow 0xFFF t.fat prev taken,
          dat := fill L.bpb.clusterBytes t.dat taken (data.drop written) }) v := by
  have hcb := L.clusterBytes_pos
  have hwrap := L.data_fits
  induction fuel with
  | zero => intro v t first prev written _ _ hfuel; omega
  | succ fuel ih =>
    intro v t first prev written h hw hfuel hprev hroom hspace
    rw [writeLoop]
    by_cases hlt : written < data.length
    swap
    · -- everything is written
      rw [if_neg hlt]
      have hrest : data.length - written = 0 := by omega
      refine Prog.total_pure ?_
      simp only [hrest, clustersFor_zero hcb, List.take_zero, Nat.not_lt_zero, if_false, grow, fill,
        List.headD_nil]
      refine ⟨?_, h⟩
      split
      · next h0 => rw [h0]
      · rfl
    rw [if_pos hlt]
    have hk := clustersFor_step hcb (Nat.sub_pos_of_lt hlt)
    cases hF : freeCells t.fat 2 L.cells with
    | nil =>
      -- nothing is free, and only a full layout gets here
      rw [hF, List.length_nil] at hroom
      have hfull : L.Full := hroom.resolve_left (by omega)
      refine Prog.total_seq (total_writeRound_full h hfull hF) fun r v' hr => ?_
      obtain ⟨rfl, rfl⟩ := hr
      refine Prog.total_pure ⟨?_, ?_⟩
      · rw [if_pos (by rw [hk, List.length_nil]; omega)]
      · simpa only [List.take_nil, grow, fill] using h
    | cons c F =>
      rw [hF, List.length_cons] at hroom hspace
      rw [Nat.succ_mul] at hspace
      have hc := mem_freeCells.mp (hF ▸ List.mem_cons_self : c ∈ freeCells t.fat 2 L.cells)
      refine Prog.total_seq (total_writeRound h hF (hprev.imp_right And.left) (by omega))
        fun r v' hr => ?_
      obtain ⟨rfl, h'⟩ := hr
      have hnext : u32 (written + min L.bpb.clusterBytes (data.length - written)) =
          written + min L.bpb.clusterBytes (data.length - written) := Nat.mod_eq_of_lt (by omega)
      obtain ⟨hfree, hlast⟩ := freeCells_round hF (hprev.imp_right And.right)
      have hleft : data.length - (written + min L.bpb.clusterBytes (data.length - written)) =
          data.length - written - L.bpb.clusterBytes := by omega
      simp only [hnext]
      have hih := ih (if first = 0 then c else first) c
        (written + min L.bpb.clusterBytes (data.length - written)) h' (by omega) (by omega)
        (Or.inr ⟨hc.2.1, hlast⟩)
        (by rw [hfree, hleft]; exact hroom.imp_left fun hle => by omega) (by rw [hfree]; omega)
      refine Prog.total_mono hih (fun _ h => h) fun r v₂ hr => ?_
      simp only [hfree, hleft, drop_round] at hr
      simp only [hk, List.length_cons, List.take_succ_cons, List.headD_cons, grow, fill]
      refine ⟨?_, hr.2⟩
      rw [hr.1]
      have hiff : (F.length < clustersFor L.bpb.clusterBytes
            (data.length - written - L.bpb.clusterBytes)) ↔
          (F.length + 1 < clustersFor L.bpb.clusterBytes
            (data.length - written - L.bpb.clusterBytes) + 1) := by omega
      have hnz : (if first = 0 then c else first) ≠ 0 := by
        split
        · omega
        · assumption
      rw [if_neg hnz]
      simp only [hiff]

/-- Reading follows a chain and stops at the size asked for. -/
theorem total_readLoop (h : Shows L v t) {toRead : Nat} {l : List Nat} {n read c : Nat}
    (hch : Chain t.fat (fun c => stops c = true) c l) (hl : ∀ d ∈ l, 2 ≤ d ∧ d < L.cells)
    (hn : l.length ≤ n) (hread : read ≤ toRead)
    (hspace : read + l.length * L.bpb.clusterBytes ≤ (L.cells - 2) * L.bpb.clusterBytes)
    {Q : List UInt8 → Bytes → Prop} (hQ : Q ((l.flatMap t.dat).take (toRead - read)) v) :
    (readLoop L.bpb toRead n read c).total (Inside L) Q v := by
  have hcb := L.clusterBytes_pos
  have hmark := L.cells_le_mark
  have hwrap := L.data_fits
  induction l generalizing n read c Q with
  | nil =>
    rw [List.flatMap_nil, List.take_nil] at hQ
    cases n with
    | zero => exact Prog.total_pure hQ
    | succ n =>
      cases hch with
      | nil hstop =>
        rw [readLoop, if_neg fun hc => stops_eq_true_iff.mp hstop hc.2]
        exact Prog.total_pure hQ
  | cons d l ih =>
    obtain rfl := hch.head_eq
    obtain ⟨hd2, hd⟩ := hl d List.mem_cons_self
    rw [List.length_cons] at hn hspace
    rw [Nat.succ_mul] at hspace
    obtain ⟨n, rfl⟩ := Nat.exists_eq_succ_of_ne_zero (show n ≠ 0 by omega)
    rw [readLoop]
    by_cases hlt : read < toRead
    swap
    · rw [if_neg fun hc => hlt hc.1]
      rw [show toRead - read = 0 by omega, List.take_zero] at hQ
      exact Prog.total_pure hQ
    rw [if_pos ⟨hlt, hd2, by omega⟩]
    have hnowrap : u32 (read + L.bpb.clusterBytes) = read + L.bpb.clusterBytes :=
      Nat.mod_eq_of_lt (by omega)
    rw [hnowrap]
    obtain ⟨chunk, hchunk⟩ : ∃ chunk, chunk = min L.bpb.clusterBytes (toRead - read) := ⟨_, rfl⟩
    have hif : (if read + L.bpb.clusterBytes > toRead then toRead - read
        else L.bpb.clusterBytes) = chunk := by
      split <;> omega
    rw [hif]
    refine Prog.total_bind.mpr (total_loadBytes (inside_data hd2 hd (by omega)) ?_)
    refine Prog.total_bind.mpr (total_readFat h hd (Or.inr rfl) ?_)
    rw [show u32 (read + chunk) = read + chunk from Nat.mod_eq_of_lt (by omega)]
    refine Prog.total_bind.mpr (ih hch.tail (fun e he => hl e (List.mem_cons_of_mem _ he))
      (by omega) (by omega) (by omega) (Prog.total_pure ?_))
    have hdat := length_dat h hd2 hd
    have hslice : v.slice (L.bpb.clusterToOffset d) chunk = (t.dat d).take chunk := by
      rw [← h.dat d hd2 hd, clusterAt, Bytes.take_slice _ _ (by omega)]
    have htake : (t.dat d).take (toRead - read) = (t.dat d).take chunk := by
      rw [List.take_eq_take_iff]
      omega
    rw [List.flatMap_cons, List.take_append, htake, hdat] at hQ
    rw [hslice, show toRead - (read + chunk) = toRead - read - L.bpb.clusterBytes by omega]
    exact hQ

end Data

/-! ## The calls -/

section Calls

variable (L) (t)

/-- `fat12_write_file` on tables. -/
def Tables.writeFile (name83 data : List UInt8) : Int × Tables :=
  let existing := t.find name83 L.bpb.rootEntryCount 0
  let t₁ := t.release L.cells existing
  let k := clustersFor L.bpb.clusterBytes data.length
  let t₂ := t₁.take L.bpb.clusterBytes L.cells k data
  if (freeCells t₁.fat 2 L.cells).length < k then (-1, t₂)
  else
    match existing with
    | some i => (0, t₂.setEntry i (t₁.takenFirst L.cells k) data.length)
    | none =>
      match t.slot L.bpb.rootEntryCount 0 with
      | none => (-1, t₂)
      | some i => (0, t₂.setEnt i (newEntry name83 (t₁.takenFirst L.cells k) data.length))

/-- `fat12_delete_file` on tables. -/
def Tables.deleteFile (name83 : List UInt8) : Int × Tables :=
  match t.find name83 L.bpb.rootEntryCount 0 with
  | none => (-1, t)
  | some i => (0, (t.release L.cells (some i)).dropEntry i)

/-- `fat12_read_file` on tables. -/
def Tables.readFile (name83 : List UInt8) (bufSize : Nat) : Option (List UInt8) :=
  (t.find name83 L.bpb.rootEntryCount 0).map fun i => (t.contents L.cells i).take bufSize

/-- `fat12_list_root` on tables. -/
def Tables.listRoot (maxEntries : Nat) : List Dirent :=
  ((t.live L.bpb.rootEntryCount 0).take maxEntries).map fun i => (t.ent i).listed

/-- The chain of the named file, if there is one, stays among the cells. -/
def Tables.Reads (name83 : List UInt8) : Prop :=
  ∀ i, t.find name83 L.bpb.rootEntryCount 0 = some i → ∃ l, t.Owns L.cells i l

/-- The search for free clusters ends among the cells. -/
def Tables.Room (name83 data : List UInt8) : Prop :=
  clustersFor L.bpb.clusterBytes data.length ≤
      (freeCells (t.release L.cells (t.find name83 L.bpb.rootEntryCount 0)).fat 2 L.cells).length ∨
    L.Full

variable {L} {t}

theorem Tables.lt_of_mem_live {n i j : Nat} (h : j ∈ t.live n i) : i ≤ j ∧ j < i + n := by
  have hmem := (List.takeWhile_prefix _).subset (List.mem_filter.mp h).1
  exact List.mem_range'_1.mp hmem

theorem Tables.lt_of_find {name83 : List UInt8} {n j : Nat} (h : t.find name83 n 0 = some j) :
    j < n := by
  have hlt := (Tables.lt_of_mem_live (List.mem_of_find?_eq_some h)).2
  omega

theorem Tables.lt_of_slot {n j : Nat} (h : t.slot n 0 = some j) : j < n := by
  have hlt := (List.mem_range'_1.mp (List.mem_of_find?_eq_some h)).2
  omega

theorem total_freeExisting (h : Shows L v t) {existing : Option Nat}
    (hlt : ∀ i, existing = some i → i < L.bpb.rootEntryCount)
    (hown : ∀ i, existing = some i → ∃ l, t.Owns L.cells i l) :
    (freeExisting L.bpb existing).total (Inside L)
      (fun _ v' => Shows L v' (t.release L.cells existing)) v := by
  cases existing with
  | none => exact Prog.total_pure h
  | some i =>
    obtain ⟨l, hl⟩ := hown i rfl
    refine Prog.total_bind.mpr (total_loadFirst h (hlt i rfl) ?_)
    have hfree := total_freeFrom h hl
    rw [← hl.cellsOf_eq L.cells_le_mark] at hfree
    exact hfree

theorem total_storeEntry (h : Shows L v t) {i first size : Nat} (hi : i < L.bpb.rootEntryCount)
    (hfirst : first < 65536) (hsize : size < 4294967296) :
    (storeEntry L.bpb i first size).total (Inside L)
      (fun _ v' => Shows L v' (t.setEntry i first size)) v := by
  have hin16 : Inside L ⟨.dir, L.bpb.direntOffset i + firstClusterField, (Bytes.le16 first).length⟩ :=
    inside_dir hi (by rw [Bytes.length_le16]; decide)
  have hin32 : Inside L ⟨.dir, L.bpb.direntOffset i + sizeField, (Bytes.le32 size).length⟩ :=
    inside_dir hi (by rewrite [Bytes.length_le32]; decide)
  refine Prog.total_bind.mpr (total_storeBytes hin16 (total_storeBytes hin32 ?_))
  have hent : entryOf v (L.bpb.direntOffset i) = t.ent i := h.ent i hi
  have hstored := h.writeDir hi ((v.store (L.bpb.direntOffset i + firstClusterField)
      (Bytes.le16 first)).store (L.bpb.direntOffset i + sizeField) (Bytes.le32 size))
    fun k hk => by
      simp only [firstClusterField, sizeField]
      rw [Bytes.store_of_not_mem (by rw [Bytes.length_le32]; omega),
        Bytes.store_of_not_mem (by rw [Bytes.length_le16]; omega)]
  rw [entryOf_store_size, entryOf_store_first, hent, Nat.mod_eq_of_lt hfirst,
    Nat.mod_eq_of_lt hsize] at hstored
  exact hstored

/-- Making a new entry in slot `i`. -/
theorem total_storeNew (h : Shows L v t) {i first size : Nat} (hi : i < L.bpb.rootEntryCount)
    {name83 : List UInt8} (hname : name83.length = 11) (hfirst : first < 65536)
    (hsize : size < 4294967296) :
    (do
      storeBytes .dir (L.bpb.direntOffset i) (List.replicate 32 0)
      storeBytes .dir (L.bpb.direntOffset i) name83
      storeBytes .dir (L.bpb.direntOffset i + attrField) [0x20]
      storeEntry L.bpb i first size
      return (0 : Int) : Fat Int).total (Inside L)
      (fun r v' => r = 0 ∧ Shows L v' (t.setEnt i (newEntry name83 first size))) v := by
  have hzeros : (List.replicate 32 (0 : UInt8)).length = 32 := List.length_replicate
  refine Prog.total_bind.mpr (total_storeBytes (inside_dir (k := 0) hi (by omega)) ?_)
  refine Prog.total_bind.mpr (total_storeBytes (inside_dir (k := 0) hi (by omega)) ?_)
  refine Prog.total_bind.mpr (total_storeBytes (inside_dir hi (by decide)) ?_)
  have hattr : ([0x20] : List UInt8).length = 1 := rfl
  have hstored := h.writeDir hi (((v.store (L.bpb.direntOffset i) (List.replicate 32 0)).store
      (L.bpb.direntOffset i) name83).store (L.bpb.direntOffset i + attrField) [0x20])
    fun k hk => by
      simp only [attrField]
      rw [Bytes.store_of_not_mem (by omega), Bytes.store_of_not_mem (by omega),
        Bytes.store_of_not_mem (by omega)]
  refine Prog.total_seq (total_storeEntry hstored hi hfirst hsize) fun _ v' h' => ?_
  refine Prog.total_pure ⟨rfl, ?_⟩
  have hgap := entryOf_store_zeros_gap v (L.bpb.direntOffset i)
  rw [entryOf_store_attr, entryOf_store_name hname] at h'
  simp only [Tables.setEntry, Tables.setEnt, Function.update_self, Function.update_idem, hgap] at h'
  exact h'

theorem total_updateDir (h : Shows L v t) {name83 : List UInt8} (hname : name83.length = 11)
    {existing : Option Nat} (hlt : ∀ i, existing = some i → i < L.bpb.rootEntryCount)
    (first : Nat) {size : Nat} (hfirst : first < 65536) (hsize : size < 4294967296) :
    (updateDir L.bpb name83 existing first size).total (Inside L) (fun r v' =>
      let out := match existing with
        | some i => ((0 : Int), t.setEntry i first size)
        | none =>
          match t.slot L.bpb.rootEntryCount 0 with
          | none => (-1, t)
          | some i => (0, t.setEnt i (newEntry name83 first size))
      r = out.1 ∧ Shows L v' out.2) v := by
  cases existing with
  | some i =>
    exact Prog.total_seq (total_storeEntry h (hlt i rfl) hfirst hsize) fun _ v' h' =>
      Prog.total_pure ⟨rfl, h'⟩
  | none =>
    refine Prog.total_bind.mpr (total_findSlot h (by omega) ?_)
    cases hslot : t.slot L.bpb.rootEntryCount 0 with
    | none => exact Prog.total_pure ⟨rfl, h⟩
    | some i => exact total_storeNew h (Tables.lt_of_slot hslot) hname hfirst hsize

theorem length_freeCells_le (next : Nat → Nat) (N : Nat) :
    (freeCells next 2 N).length ≤ N - 2 :=
  length_le_of_cells (freeCells_nodup next 2 N) fun _ hc =>
    ⟨(mem_freeCells.mp hc).1, (mem_freeCells.mp hc).2.1⟩

theorem Tables.takenFirst_lt (L : Layout) (t : Tables) (k : Nat) :
    t.takenFirst L.cells k < L.cells := by
  have hcells := L.two_le_cells
  unfold Tables.takenFirst
  cases hl : (freeCells t.fat 2 L.cells).take k with
  | nil => rw [List.headD_nil]; omega
  | cons c l =>
    rw [List.headD_cons]
    have hmem : c ∈ (freeCells t.fat 2 L.cells).take k := hl ▸ List.mem_cons_self
    exact (mem_freeCells.mp (List.mem_of_mem_take hmem)).2.1

/-- Data that fits in the free clusters has a size that fits its field. -/
theorem size_lt_of_fits (L : Layout) {next : Nat → Nat} {n : Nat}
    (hk : clustersFor L.bpb.clusterBytes n ≤ (freeCells next 2 L.cells).length) :
    n < 4294967296 := by
  have hn := le_clustersFor_mul L.clusterBytes_pos n
  have hle : clustersFor L.bpb.clusterBytes n * L.bpb.clusterBytes ≤
      (L.cells - 2) * L.bpb.clusterBytes :=
    Nat.mul_le_mul_right _ (Nat.le_trans hk (length_freeCells_le next L.cells))
  have hwrap := L.data_fits
  omega

/-- `fat12_write_file` on bytes follows it on tables. -/
theorem total_writeFile (h : Shows L v t) (name : CString) (data : List UInt8)
    (hreads : t.Reads L (nameTo83 name)) (hroom : t.Room L (nameTo83 name) data) :
    (fat12WriteFile L.bpb name data).total (Inside L) (fun r v' =>
      r = (t.writeFile L (nameTo83 name) data).1 ∧
        Shows L v' (t.writeFile L (nameTo83 name) data).2) v := by
  have hmark := L.cells_le_mark
  obtain ⟨name83, hname83⟩ : ∃ name83, name83 = nameTo83 name := ⟨_, rfl⟩
  have hname : name83.length = 11 := hname83 ▸ length_nameTo83 name
  unfold fat12WriteFile
  rw [← hname83] at hreads hroom ⊢
  refine Prog.total_bind.mpr (total_findEntry h hname (by omega) ?_)
  unfold Tables.Room at hroom
  unfold Tables.writeFile
  obtain ⟨existing, hex⟩ : ∃ existing, existing = t.find name83 L.bpb.rootEntryCount 0 := ⟨_, rfl⟩
  rw [← hex] at hroom ⊢
  have hlt : ∀ i, existing = some i → i < L.bpb.rootEntryCount := fun i hi =>
    Tables.lt_of_find (hex ▸ hi)
  refine Prog.total_seq (total_freeExisting h hlt fun i hi => hreads i (hex ▸ hi))
    fun _ v₁ h₁ => ?_
  have hspace := Nat.mul_le_mul_right L.bpb.clusterBytes
    (length_freeCells_le (t.release L.cells existing).fat L.cells)
  have hloop := total_writeLoop data 0 0 0 h₁ (Nat.zero_le _) (Nat.lt_succ_self _) (Or.inl rfl) hroom (by omega)
  refine Prog.total_seq hloop fun r v₂ hr => ?_
  simp only [Nat.sub_zero, List.drop_zero, if_true] at hr
  obtain ⟨rfl, hshows⟩ := hr
  obtain ⟨k, hk⟩ : ∃ k, k = clustersFor L.bpb.clusterBytes data.length := ⟨_, rfl⟩
  rw [← hk] at hshows ⊢
  have h₂ : Shows L v₂
      ((t.release L.cells existing).take L.bpb.clusterBytes L.cells k data) := hshows
  by_cases hfull : (freeCells (t.release L.cells existing).fat 2 L.cells).length < k
  · simp only [if_pos hfull]
    exact Prog.total_pure ⟨rfl, h₂⟩
  simp only [if_neg hfull]
  -- an empty file has no first cluster
  have hfirst : (if data.length = 0 then 0 else
      ((freeCells (t.release L.cells existing).fat 2 L.cells).take k).headD 0) =
        (t.release L.cells existing).takenFirst L.cells k := by
    split
    · next hz =>
      rw [hz, clustersFor_zero L.clusterBytes_pos] at hk
      rw [hk]
      rfl
    · rfl
  rw [hfirst]
  have hbound := Tables.takenFirst_lt L (t.release L.cells existing) k
  have hup := total_updateDir h₂ hname hlt ((t.release L.cells existing).takenFirst L.cells k)
    (by omega)
    (size_lt_of_fits L (hk ▸ Nat.le_of_not_lt hfull))
  cases existing with
  | some i => exact hup
  | none =>
    have hslot : ((t.release L.cells none).take L.bpb.clusterBytes L.cells k data).slot
        L.bpb.rootEntryCount 0 = t.slot L.bpb.rootEntryCount 0 := rfl
    rw [hslot] at hup
    exact hup

/-- `fat12_delete_file` on bytes follows it on tables. -/
theorem total_deleteFile (h : Shows L v t) (name : CString) (hreads : t.Reads L (nameTo83 name)) :
    (fat12DeleteFile L.bpb name).total (Inside L) (fun r v' =>
      r = (t.deleteFile L (nameTo83 name)).1 ∧
        Shows L v' (t.deleteFile L (nameTo83 name)).2) v := by
  unfold fat12DeleteFile
  refine Prog.total_bind.mpr (total_findEntry h (length_nameTo83 name) (by omega) ?_)
  unfold Tables.deleteFile
  cases hfind : t.find (nameTo83 name) L.bpb.rootEntryCount 0 with
  | none => exact Prog.total_pure ⟨rfl, h⟩
  | some i =>
    obtain ⟨l, hl⟩ := hreads i hfind
    have hi := Tables.lt_of_find hfind
    have hcells := hl.cellsOf_eq L.cells_le_mark
    refine Prog.total_bind.mpr (total_loadFirst h hi ?_)
    refine Prog.total_seq (total_freeFrom h hl) fun _ v₁ h₁ => ?_
    refine Prog.total_bind.mpr (total_storeBytes (inside_dir (k := 0) hi (by
      simp only [List.length_singleton]; omega)) (Prog.total_pure ⟨rfl, ?_⟩))
    have hstored := h₁.writeDir hi (v₁.store (L.bpb.direntOffset i) [0xE5])
      fun k hk => Bytes.store_of_not_mem (by simp only [List.length_singleton]; omega)
    have hent : entryOf v₁ (L.bpb.direntOffset i) = t.ent i := h₁.ent i hi
    rw [entryOf_store_mark, hent] at hstored
    simp only [Tables.release, Tables.dropEntry, Tables.setEnt, hcells]
    exact hstored

/-- `fat12_read_file` on bytes follows it on tables. -/
theorem total_readFile (h : Shows L v t) (name : CString) (bufSize : Nat)
    (hreads : t.Reads L (nameTo83 name)) :
    (fat12ReadFile L.bpb name bufSize).total (Inside L)
      (fun r v' => r = t.readFile L (nameTo83 name) bufSize ∧ v' = v) v := by
  have hmark := L.cells_le_mark
  have hlimit := L.cells_le_limit
  unfold fat12ReadFile
  refine Prog.total_bind.mpr (total_findEntry h (length_nameTo83 name) (by omega) ?_)
  unfold Tables.readFile
  cases hfind : t.find (nameTo83 name) L.bpb.rootEntryCount 0 with
  | none => exact Prog.total_pure ⟨rfl, rfl⟩
  | some i =>
    obtain ⟨l, hl⟩ := hreads i hfind
    have hi := Tables.lt_of_find hfind
    have hlen := hl.length_le hmark
    refine Prog.total_bind.mpr (total_loadSize h hi ?_)
    refine Prog.total_bind.mpr (total_loadFirst h hi ?_)
    refine Prog.total_bind.mpr (total_maxClusters L ?_)
    have hspace := Nat.mul_le_mul_right L.bpb.clusterBytes hlen
    refine Prog.total_bind.mpr (total_readLoop h hl.chain hl.cells (by omega) (Nat.zero_le _)
      (by omega) (Prog.total_pure ⟨?_, rfl⟩))
    have hmin : (if (t.ent i).size < bufSize then (t.ent i).size else bufSize) =
        min bufSize (t.ent i).size := by
      split <;> omega
    rw [Option.map_some, Tables.contents, hl.cellsOf_eq hmark, List.take_take, Nat.sub_zero, hmin]

/-- `fat12_list_root` on bytes follows it on tables. -/
theorem total_listRoot (h : Shows L v t) (maxEntries : Nat) :
    (fat12ListRoot L.bpb maxEntries).total (Inside L)
      (fun r v' => r = t.listRoot L maxEntries ∧ v' = v) v :=
  total_listLoop h (by omega) ⟨rfl, rfl⟩

end Calls

end RainbowOs.Fat12
