import RainbowOs.Fat12.Diskfs

/-!
# Listed names

`format_name` shows a folded name up to the first blank of each part, and
the first byte of a folded name also says whether the entry is deleted. So a
listed name leads back to its file just where the folded name has no blank
before another character and does not start with the deletion mark. What
else the directory holds matters only through entries of the same name that
the listing would show beside it.
-/

namespace RainbowOs.Fat12

open RainbowOs.Lib

/-! ## The round trip of a folded name -/

/-- After the first blank of a part there are only blanks. -/
def NoGap (part : List UInt8) : Prop := ∀ c ∈ part.dropWhile (· ≠ blank), c = blank

instance (part : List UInt8) : Decidable (NoGap part) :=
  inferInstanceAs (Decidable (∀ c ∈ part.dropWhile (· ≠ blank), c = blank))

/-- Neither part of a folded name has a blank before another character. -/
def Tight (name83 : List UInt8) : Prop := NoGap (name83.take 8) ∧ NoGap (name83.drop 8)

instance (name83 : List UInt8) : Decidable (Tight name83) := inferInstanceAs (Decidable (_ ∧ _))

/-- A part is what is before its first blank, filled up. -/
theorem padTo_takeWhile_iff {part : List UInt8} {n : Nat} (hn : part.length = n) :
    padTo n (part.takeWhile (· ≠ blank)) = part ↔ NoGap part := by
  have hsplit : part.takeWhile (· ≠ blank) ++ part.dropWhile (· ≠ blank) = part :=
    List.takeWhile_append_dropWhile
  have hlen : (part.takeWhile (· ≠ blank)).length + (part.dropWhile (· ≠ blank)).length = n := by
    rw [← List.length_append, hsplit, hn]
  have hrest : n - (part.takeWhile (· ≠ blank)).length = (part.dropWhile (· ≠ blank)).length := by omega
  have hsame : ∀ rest, part.takeWhile (· ≠ blank) ++ rest = part ↔ rest = part.dropWhile (· ≠ blank) :=
    fun rest => ⟨fun h => List.append_cancel_left (h.trans hsplit.symm), fun h => by rw [h, hsplit]⟩
  rw [padTo, hrest, hsame, eq_comm, List.eq_replicate_iff]
  exact ⟨fun h => h.2, fun h => ⟨rfl, h⟩⟩

theorem upper_lower_upper : ∀ c : UInt8, upper (lower (upper c)) = upper c :=
  byte_forall (by decide +kernel)

theorem lower_ne_dot : ∀ c : UInt8, c ≠ 0x2E → lower c ≠ 0x2E :=
  byte_forall (by decide +kernel)

theorem lower_ne_zero : ∀ c : UInt8, c ≠ 0 → lower c ≠ 0 :=
  byte_forall (by decide +kernel)

/-- Folding what `format_name` has unfolded. -/
theorem map_upper_lower {part : List UInt8} (h : ∀ c ∈ part, upper (lower c) = c) :
    (part.map lower).map upper = part := by
  rw [List.map_map]
  exact (List.map_congr_left h).trans (List.map_id part)

/-- A name of a part and another after a dot. -/
theorem nameTo83_dot {m : CString} {p q : List UInt8} (hm : m.val = p ++ 0x2E :: q) (hp : 0x2E ∉ p)
    (hp8 : p.length ≤ 8) (hq3 : q.length ≤ 3) :
    nameTo83 m = padTo 8 (p.map upper) ++ padTo 3 (q.map upper) := by
  have hdot : (p ++ 0x2E :: q).idxOf? 0x2E = some p.length := by
    clear hm hp8
    induction p with
    | nil => rfl
    | cons c p ih =>
      rw [List.mem_cons, not_or] at hp
      rw [List.cons_append, List.idxOf?_cons, if_neg (by simpa using Ne.symm hp.1), ih hp.2]
      rfl
  have hdrop : (p ++ 0x2E :: q).drop (p.length + 1) = q := by
    rw [← List.drop_drop, List.drop_left]
    rfl
  unfold nameTo83
  simp only [hm, hdot, Option.getD_some, Nat.min_eq_left hp8, List.take_left, hdrop,
    List.take_of_length_le hq3]

/-- A name without a dot. -/
theorem nameTo83_plain {m : CString} (hp : 0x2E ∉ m.val) (hp8 : m.val.length ≤ 8) :
    nameTo83 m = padTo 8 (m.val.map upper) ++ padTo 3 [] := by
  have hdot : m.val.idxOf? 0x2E = none := List.idxOf?_eq_none_iff.mpr hp
  unfold nameTo83
  simp only [hdot, Option.getD_none, Nat.min_eq_left hp8, List.take_length]

/-- The parts of a folded name. There is no dot in the first one. -/
theorem nameTo83_parts (name : CString) : ((nameTo83 name).take 8).length = 8 ∧
    ((nameTo83 name).drop 8).length = 3 ∧ 0x2E ∉ (nameTo83 name).take 8 := by
  have hlen := length_nameTo83 name
  refine ⟨by rw [List.length_take, hlen]; rfl, by rw [List.length_drop, hlen], fun hdot => ?_⟩
  obtain ⟨limit, hlimit⟩ : ∃ limit, limit = min ((name.val.idxOf? 0x2E).getD name.val.length) 8 := ⟨_, rfl⟩
  have hpart : (nameTo83 name).take 8 = padTo 8 ((name.val.take limit).map upper) := by
    unfold nameTo83
    dsimp only
    rw [← hlimit, List.take_left' (length_padTo (by rw [List.length_map, List.length_take]; omega))]
  rw [hpart] at hdot
  rcases List.mem_append.mp hdot with hdot | hdot
  · obtain ⟨c, hc, hupper⟩ := List.mem_map.mp hdot
    have hceq : c = 0x2E := Decidable.byContradiction fun hne => upper_ne hne (by decide) hupper
    subst hceq
    obtain ⟨k, hk, heq⟩ := List.mem_iff_getElem.mp hc
    rw [List.length_take] at hk
    rw [List.getElem_take] at heq
    cases hidx : name.val.idxOf? 0x2E with
    | none => exact List.idxOf?_eq_none_iff.mp hidx (List.mem_of_mem_take hc)
    | some d =>
      rw [hidx] at hlimit
      obtain ⟨_, _, hbefore⟩ := List.idxOf?_eq_some_iff.mp hidx
      refine hbefore k ?_ heq
      rw [Option.getD_some] at hlimit
      omega
  · exact absurd (List.mem_replicate.mp hdot).2 (by decide)

/-- What `format_name` shows of a folded name is folded to that name again, unless a blank stands before
another character in one of its parts. -/
theorem nameTo83_formatName (name : CString) : (∃ m : CString, m.val = formatName (nameTo83 name) ∧
    nameTo83 m = nameTo83 name) ↔ Tight (nameTo83 name) := by
  have hmem := fun b hb => @mem_nameTo83 name b hb
  have hzero := nameTo83_ne_zero name
  obtain ⟨h8, h3, hnodot⟩ := nameTo83_parts name
  generalize nameTo83 name = key at *
  have hfold : ∀ c ∈ key, upper (lower c) = c := fun c hc => by
    rcases hmem c hc with rfl | ⟨d, -, rfl⟩
    · rfl
    · exact upper_lower_upper d
  obtain ⟨first, hfirst⟩ : ∃ first, first = (key.take 8).takeWhile (· ≠ blank) := ⟨_, rfl⟩
  obtain ⟨ext, hext⟩ : ∃ ext, ext = (key.drop 8).takeWhile (· ≠ blank) := ⟨_, rfl⟩
  have hin : ∀ c ∈ first, c ∈ key := fun c hc =>
    List.mem_of_mem_take ((List.takeWhile_prefix _).subset (hfirst ▸ hc))
  have hin' : ∀ c ∈ ext, c ∈ key := fun c hc =>
    List.mem_of_mem_drop ((List.takeWhile_prefix _).subset (hext ▸ hc))
  have hshown : formatName key = first.map lower ++
      if key.getD 8 0 ≠ blank then 0x2E :: ext.map lower else [] := by
    unfold formatName
    rw [List.take_of_length_le (Nat.le_of_eq h3), ← hfirst, ← hext]
  have hplain : 0x2E ∉ first.map lower := fun hdot => by
    obtain ⟨c, hc, heq⟩ := List.mem_map.mp hdot
    exact lower_ne_dot c (fun h => hnodot ((List.takeWhile_prefix _).subset (hfirst ▸ h ▸ hc))) heq
  have hnul : 0 ∉ formatName key := fun hz => by
    have hlower : ∀ l : List UInt8, (∀ c ∈ l, c ∈ key) → 0 ∉ l.map lower := fun l hl hz => by
      obtain ⟨c, hc, heq⟩ := List.mem_map.mp hz
      exact lower_ne_zero c (hzero c (hl c hc)) heq
    rw [hshown] at hz
    rcases List.mem_append.mp hz with hz | hz
    · exact hlower first hin hz
    · split at hz
      · rcases List.mem_cons.mp hz with hz | hz
        · exact absurd hz (by decide)
        · exact hlower ext hin' hz
      · cases hz
  have hlen8 : (first.map lower).length ≤ 8 := by
    have hle : first.length ≤ (key.take 8).length := hfirst ▸ (List.takeWhile_prefix _).length_le
    rw [List.length_map]
    exact h8 ▸ hle
  have hlen3 : (ext.map lower).length ≤ 3 := by
    have hle : ext.length ≤ (key.drop 8).length := hext ▸ (List.takeWhile_prefix _).length_le
    rw [List.length_map]
    exact h3 ▸ hle
  let m : CString := ⟨formatName key, hnul⟩
  have hfolded : nameTo83 m = padTo 8 first ++ padTo 3 ext := by
    have hback : (first.map lower).map upper = first := map_upper_lower fun c hc => hfold c (hin c hc)
    have hback' : (ext.map lower).map upper = ext := map_upper_lower fun c hc => hfold c (hin' c hc)
    by_cases h : key.getD 8 0 ≠ blank
    · rw [if_pos h] at hshown
      have hdot := nameTo83_dot (m := m) hshown hplain hlen8 hlen3
      rwa [hback, hback'] at hdot
    · rw [if_neg h, List.append_nil] at hshown
      have hnone : ext = [] := by
        rw [Decidable.not_not, List.getD_eq_getElem?_getD] at h
        rw [hext]
        cases hdrop : key.drop 8 with
        | nil => rfl
        | cons c cs =>
          have hc : key[8]? = some c := by rw [← List.head?_drop, hdrop, List.head?_cons]
          rw [hc, Option.getD_some] at h
          rw [List.takeWhile_cons, if_neg (by simp [h])]
      have hval : m.val = first.map lower := hshown
      have hmplain := nameTo83_plain (m := m) (hval ▸ hplain) (hval ▸ hlen8)
      rwa [hval, hback, ← hnone] at hmplain
  rw [Tight, ← padTo_takeWhile_iff h8, ← padTo_takeWhile_iff h3, ← hfirst, ← hext]
  constructor
  · rintro ⟨m', hm', hkey⟩
    have hsame : m' = m := Subtype.ext hm'
    have hfirst8 : (padTo 8 first).length = 8 := length_padTo (by rwa [List.length_map] at hlen8)
    rw [hsame, hfolded] at hkey
    exact List.append_inj (hkey.trans (List.take_append_drop 8 key).symm) (hfirst8.trans h8.symm)
  · rintro ⟨h1, h2⟩
    exact ⟨m, rfl, by rw [hfolded, h1, h2, List.take_append_drop]⟩

/-! ## The directory after a write -/

variable {L : Layout} {t t' : Tables} {name83 data : List UInt8}

theorem mem_live_from {n i j : Nat} : j ∈ t.live n i ↔ (i ≤ j ∧ j < i + n) ∧
    (∀ k, i ≤ k → k ≤ j → (t.ent k).mark ≠ 0x00) ∧ (t.ent j).Live := by
  induction n generalizing i with
  | zero =>
    refine ⟨fun h => absurd h List.not_mem_nil, fun h => ?_⟩
    omega
  | succ n ih =>
    have hstep : j ∈ t.live (n + 1) i ↔
        (t.ent i).mark ≠ 0x00 ∧ (j = i ∧ (t.ent i).Live ∨ j ∈ t.live n (i + 1)) := by
      rw [Tables.live_succ]
      by_cases hz : (t.ent i).mark = 0x00
      · rw [if_pos hz]
        exact ⟨fun h => absurd h List.not_mem_nil, fun h => absurd hz h.1⟩
      · by_cases hlive : (t.ent i).Live
        · simp [hz, hlive]
        · simp [hz, hlive]
    rw [hstep, ih]
    constructor
    · rintro ⟨hi, ⟨rfl, hlive⟩ | ⟨hrange, hmarks, hlive⟩⟩
      · refine ⟨by omega, fun k hk hk' => ?_, hlive⟩
        rwa [Nat.le_antisymm hk' hk]
      · refine ⟨by omega, fun k hk hk' => ?_, hlive⟩
        rcases Nat.eq_or_lt_of_le hk with rfl | hlt
        · exact hi
        · exact hmarks k hlt hk'
    · rintro ⟨hrange, hmarks, hlive⟩
      refine ⟨hmarks i (Nat.le_refl i) hrange.1, ?_⟩
      rcases Nat.eq_or_lt_of_le hrange.1 with rfl | hlt
      · exact .inl ⟨rfl, hlive⟩
      · exact .inr ⟨by omega, fun k hk hk' => hmarks k (Nat.le_of_succ_le hk) hk', hlive⟩

/-- The entries that a listing shows: those in use before the first end mark. -/
theorem mem_live {n i : Nat} :
    i ∈ t.live n 0 ↔ i < n ∧ (∀ j, j ≤ i → (t.ent j).mark ≠ 0x00) ∧ (t.ent i).Live := by
  rw [mem_live_from, Nat.zero_add]
  exact ⟨fun h => ⟨h.1.2, fun j => h.2.1 j (Nat.zero_le j), h.2.2⟩,
    fun h => ⟨⟨Nat.zero_le i, h.1⟩, fun j _ => h.2.1 j, h.2.2⟩⟩

theorem live_nodup (t : Tables) (n : Nat) : (t.live n 0).Nodup :=
  ((List.nodup_range').sublist (List.takeWhile_sublist _)).filter _

/-- The entries of a folded name that a listing shows. -/
def Tables.shown (L : Layout) (t : Tables) (name83 : List UInt8) : List Nat :=
  (t.live L.bpb.rootEntryCount 0).filter fun j => (t.ent j).name = name83

/-- The entry that a write to a folded name fills in. -/
def Tables.target (L : Layout) (t : Tables) (name83 : List UInt8) : Option Nat :=
  (t.find name83 L.bpb.rootEntryCount 0).or (t.slot L.bpb.rootEntryCount 0)

/-- Beside entry `s` the directory has no entry of the folded name, up to the first end mark after the one
that may be at `s`. -/
def Tables.Alone (L : Layout) (t : Tables) (name83 : List UInt8) (s : Nat) : Prop :=
  ∀ j, j < L.bpb.rootEntryCount → j ≠ s → (∀ k, k ≤ j → k ≠ s → (t.ent k).mark ≠ 0x00) →
    (t.ent j).Live → (t.ent j).name ≠ name83

/-- A successful write fills in its target, under the folded name, and no other entry. -/
theorem writeFile_target (hret : (t.writeFile L name83 data).1 = 0) : ∃ s e,
    t.target L name83 = some s ∧ s < L.bpb.rootEntryCount ∧
      (t.writeFile L name83 data).2.ent = Function.update t.ent s e ∧ e.name = name83 ∧
      e.attr &&& 0x08 = 0 ∧ e.attr &&& 0x10 = 0 ∧ ∀ j, j < s → (t.ent j).mark ≠ 0x00 := by
  have hfail : ∀ t₁ : Tables, t.writeFile L name83 data ≠ (-1, t₁) := fun t₁ h => by
    rw [h] at hret
    exact absurd hret (show ¬ (-1 : Int) = 0 by decide)
  have hent : ∀ i e, t.writeFile L name83 data = (0, (t.written L name83 data).setEnt i e) →
      (t.writeFile L name83 data).2.ent = Function.update t.ent i e := fun i e heq => by
    rw [heq]
    show Function.update (t.written L name83 data).ent i e = _
    rw [written_ent]
  unfold Tables.target
  rcases writeFile_cases L t name83 data with
    ⟨_, heq⟩ | ⟨_, ⟨i, hfind, heq⟩ | ⟨_, _, heq⟩ | ⟨i, hfind, hslot, heq⟩⟩
  · exact absurd heq (hfail _)
  · obtain ⟨hlt, hmarks, hlive⟩ := mem_live.mp (List.mem_of_find?_eq_some hfind)
    have hname : (t.ent i).name = name83 := by simpa using List.find?_some hfind
    exact ⟨i, _, by rw [hfind]; rfl, hlt, hent i _ heq, hname, hlive.2.2.1, hlive.2.2.2,
      fun j hj => hmarks j (Nat.le_of_lt hj)⟩
  · exact absurd heq (hfail _)
  · obtain ⟨hlt, -, hmarks⟩ := slot_spec hslot
    exact ⟨i, _, by rw [hfind, hslot]; rfl, hlt, hent i _ heq, rfl,
      show (0x20 : UInt8) &&& 0x08 = 0 by decide, show (0x20 : UInt8) &&& 0x10 = 0 by decide, hmarks⟩

/-- So exactly one entry of the name is shown unless the name starts with the deletion mark, or the directory
has another. -/
theorem shown_singleton_iff {s : Nat} {e : Entry} (hs : s < L.bpb.rootEntryCount)
    (hent : t'.ent = Function.update t.ent s e) (hname : e.name = name83) (hlabel : e.attr &&& 0x08 = 0)
    (hdir : e.attr &&& 0x10 = 0) (hbefore : ∀ j, j < s → (t.ent j).mark ≠ 0x00)
    (h0 : name83.headD 0 ≠ 0x00) :
    (∃ i, t'.shown L name83 = [i]) ↔ name83.headD 0 ≠ 0xE5 ∧ t.Alone L name83 s := by
  have hself : t'.ent s = e := by rw [hent, Function.update_self]
  have hother : ∀ j, j ≠ s → t'.ent j = t.ent j := fun j hj => by rw [hent, Function.update_of_ne hj]
  have hmark : e.mark = name83.headD 0 := by rw [Entry.mark, hname]
  have hmarks : ∀ i, (∀ j, j ≤ i → (t'.ent j).mark ≠ 0x00) ↔
      ∀ j, j ≤ i → j ≠ s → (t.ent j).mark ≠ 0x00 := fun i => by
    refine forall₂_congr fun j _ => ?_
    by_cases hj : j = s
    · rw [hj, hself, hmark]
      exact ⟨fun _ h => absurd rfl h, fun _ => h0⟩
    · rw [hother j hj]
      exact ⟨fun h _ => h, fun h => h hj⟩
  have hmem : ∀ j, j ∈ t'.shown L name83 ↔ (j < L.bpb.rootEntryCount ∧
      (∀ k, k ≤ j → k ≠ s → (t.ent k).mark ≠ 0x00) ∧ (t'.ent j).Live) ∧
        (t'.ent j).name = name83 := fun j => by
    rw [Tables.shown, List.mem_filter, mem_live, hmarks, decide_eq_true_eq]
  have htarget : s ∈ t'.shown L name83 ↔ name83.headD 0 ≠ 0xE5 := by
    rw [hmem, hself]
    constructor
    · rintro ⟨⟨_, _, hlive⟩, _⟩
      rw [← hmark]
      exact hlive.2.1
    · intro h5
      refine ⟨⟨hs, fun k hk hks => hbefore k (Nat.lt_of_le_of_ne hk hks), ?_, ?_, hlabel, hdir⟩, hname⟩
      · rwa [hmark]
      · rwa [hmark]
  have hnodup : (t'.shown L name83).Nodup := (live_nodup t' _).filter _
  constructor
  · rintro ⟨i, hi⟩
    have hlive : (t'.ent i).Live ∧ (t'.ent i).name = name83 := by
      obtain ⟨⟨_, _, hlive⟩, heq⟩ := (hmem i).mp (hi ▸ List.mem_singleton_self i)
      exact ⟨hlive, heq⟩
    have h5 : name83.headD 0 ≠ 0xE5 := by
      rw [← hlive.2]
      exact hlive.1.2.1
    refine ⟨h5, fun j hj hjs hmarks' hlive' heq => hjs ?_⟩
    have hsi : s = i := List.mem_singleton.mp (hi ▸ htarget.mpr h5)
    rw [← hother j hjs] at hlive' heq
    rw [hsi]
    exact List.mem_singleton.mp (hi ▸ (hmem j).mpr ⟨⟨hj, hmarks', hlive'⟩, heq⟩)
  · rintro ⟨h5, halone⟩
    refine ⟨s, List.perm_singleton.mp ((List.perm_ext_iff_of_nodup hnodup (List.nodup_singleton s)).mpr
      fun j => ?_)⟩
    rw [List.mem_singleton]
    constructor
    · intro hj
      obtain ⟨⟨hlt, hmarks', hlive⟩, heq⟩ := (hmem j).mp hj
      refine Decidable.byContradiction fun hjs => ?_
      rw [hother j hjs] at hlive heq
      exact halone j hlt hjs hmarks' hlive heq
    · rintro rfl
      exact htarget.mpr h5

/-- In a sound directory nothing else has the name. -/
theorem Tables.Sound.alone (h : t.Sound L) {s : Nat} (hs : t.target L name83 = some s) :
    t.Alone L name83 s := by
  intro j hj hjs _ hlive hname
  unfold Tables.target at hs
  cases hfind : t.find name83 L.bpb.rootEntryCount 0 with
  | none => exact h.find_eq_none_iff.mp hfind j ⟨hj, hlive⟩ hname
  | some i =>
    rw [hfind, Option.some_or] at hs
    obtain ⟨hi, hiname⟩ := h.find_eq_some_iff.mp hfind
    exact hjs ((h.unique j i ⟨hj, hlive⟩ hi (hname.trans hiname.symm)).trans (Option.some.inj hs))

/-! ## The name that is shown -/

theorem live_congr {n i : Nat} (h : ∀ j, j < i + n → t'.ent j = t.ent j) : t'.live n i = t.live n i := by
  induction n generalizing i with
  | zero => rfl
  | succ n ih =>
    rw [Tables.live_succ, Tables.live_succ, h i (by omega), ih fun j hj => h j (by omega)]

theorem shown_congr (h : ∀ i, i < L.bpb.rootEntryCount → t'.ent i = t.ent i) (name83 : List UInt8) :
    t'.shown L name83 = t.shown L name83 := by
  unfold Tables.shown
  rw [live_congr fun j hj => h j (by omega)]
  exact List.filter_congr fun i hi => by rw [h i (mem_live.mp hi).1]

/-- A search finds the only entry that is shown. -/
theorem find_of_shown {i : Nat} (h : t.shown L name83 = [i]) :
    t.find name83 L.bpb.rootEntryCount 0 = some i := by
  unfold Tables.find
  rw [← List.head?_filter]
  exact congrArg List.head? h

/-- The volume shows one entry of the name's file, and the name it shows folds to the same and is found at
that entry. -/
def ListedOnce (L : Layout) (v : Bytes) (name : CString) : Prop :=
  ∃ i, (tablesOf L.bpb v).shown L (nameTo83 name) = [i] ∧ ∃ m : CString,
    m.val = (entryAt L.bpb v i).listed.name ∧ nameTo83 m = nameTo83 name ∧
      (findEntry L.bpb (nameTo83 m) L.bpb.rootEntryCount 0 v).out = .done (some i)

theorem listedOnce_iff {v : Bytes} {name : CString} : ListedOnce L v name ↔
    (∃ i, (tablesOf L.bpb v).shown L (nameTo83 name) = [i]) ∧ Tight (nameTo83 name) := by
  have hname : ∀ i, (tablesOf L.bpb v).shown L (nameTo83 name) = [i] →
      (entryAt L.bpb v i).listed.name = formatName (nameTo83 name) := fun i hi => by
    have hmem : i ∈ (tablesOf L.bpb v).shown L (nameTo83 name) := hi ▸ List.mem_singleton_self i
    have heq : (entryAt L.bpb v i).name = nameTo83 name := of_decide_eq_true (List.mem_filter.mp hmem).2
    exact congrArg formatName heq
  rw [← nameTo83_formatName]
  constructor
  · rintro ⟨i, hi, m, hm, hfold, _⟩
    exact ⟨⟨i, hi⟩, m, hm.trans (hname i hi), hfold⟩
  · rintro ⟨⟨i, hi⟩, m, hm, hfold⟩
    have hfind : (findEntry L.bpb (nameTo83 m) L.bpb.rootEntryCount 0).total (Inside L)
        (fun r _ => r = some i) v :=
      total_findEntry (shows_tablesOf L v) (length_nameTo83 m) (by omega)
        (hfold ▸ find_of_shown hi)
    obtain ⟨r, hr, rfl⟩ := hfind.returns
    exact ⟨i, hi, m, hm.trans (hname i hi).symm, hfold, hr⟩

variable {v : Bytes} {name : CString}

/-- An empty file can be written to a formatted volume, under any name. -/
theorem write_empty_format (v : Bytes) (name : CString) :
    (fat12WriteFile Diskfs.layout.bpb name [] (Diskfs.formatVolume v)).out = .done 0 := by
  have hshows := Diskfs.shows_format v
  obtain ⟨t, ht⟩ : ∃ t, t = Tables.mk (fun _ => zeroEntry)
      (Function.update (Function.update (fun _ => 0) 0 0xFF8) 1 0xFFF)
      fun _ => List.replicate 512 0 := ⟨_, rfl⟩
  rw [← ht] at hshows
  have hsound : t.Sound Diskfs.layout := ht ▸ .of_blank fun _ => rfl
  have hnone : clustersFor Diskfs.layout.bpb.clusterBytes ([] : List UInt8).length = 0 := by decide
  obtain ⟨r, hr, hret, _⟩ := (total_writeFile hshows name [] (hsound.reads _)
    (.inl (hnone ▸ Nat.zero_le _))).returns
  rw [hr, hret]
  rcases writeFile_cases Diskfs.layout t (nameTo83 name) [] with
    ⟨hfew, _⟩ | ⟨_, ⟨i, _, heq⟩ | ⟨_, hslot, _⟩ | ⟨i, _, _, heq⟩⟩
  · rw [hnone] at hfew
    exact absurd hfew (Nat.not_lt_zero _)
  · rw [heq]
  · have hfirst : t.slot Diskfs.layout.bpb.rootEntryCount 0 = some 0 := by
      rw [ht]
      decide
    rw [hfirst] at hslot
    cases hslot
  · rw [heq]

/-- After a write that succeeds, a listing with room shows the live entries, and it shows the file once under
a name that leads to it exactly when the folded name does not start with the deletion mark and has no blank
before another character of a part, and the directory would show no other entry of it. -/
theorem listed_name_opens_iff (hreads : (tablesOf L.bpb v).Reads L (nameTo83 name))
    (hroom : (tablesOf L.bpb v).Room L (nameTo83 name) data)
    (hret : (fat12WriteFile L.bpb name data v).out = .done 0) :
    (∀ maxEntries, L.bpb.rootEntryCount ≤ maxEntries →
      (fat12ListRoot L.bpb maxEntries (fat12WriteFile L.bpb name data v).state).out =
        .done (((tablesOf L.bpb (fat12WriteFile L.bpb name data v).state).live L.bpb.rootEntryCount 0).map
          fun i => (entryAt L.bpb (fat12WriteFile L.bpb name data v).state i).listed)) ∧
    (ListedOnce L (fat12WriteFile L.bpb name data v).state name ↔
      (nameTo83 name).headD 0 ≠ 0xE5 ∧ Tight (nameTo83 name) ∧
        ∀ s, (tablesOf L.bpb v).target L (nameTo83 name) = some s →
          (tablesOf L.bpb v).Alone L (nameTo83 name) s) := by
  obtain ⟨r, hr, hret', hshows⟩ := (total_writeFile (shows_tablesOf L v) name data hreads hroom).returns
  have hzero : ((tablesOf L.bpb v).writeFile L (nameTo83 name) data).1 = 0 :=
    hret'.symm.trans (Outcome.done.inj (hr.symm.trans hret))
  obtain ⟨s, e, htarget, hs, hent, hname, hlabel, hdir, hbefore⟩ := writeFile_target hzero
  refine ⟨fun maxEntries hmax => ?_, ?_⟩
  · obtain ⟨entries, hentries, hlist, _⟩ :=
      (total_listRoot (shows_tablesOf L (fat12WriteFile L.bpb name data v).state) maxEntries).returns
    have hle : ((tablesOf L.bpb (fat12WriteFile L.bpb name data v).state).live
        L.bpb.rootEntryCount 0).length ≤ L.bpb.rootEntryCount :=
      Nat.le_trans ((List.filter_sublist).trans (List.takeWhile_sublist _)).length_le
        (Nat.le_of_eq List.length_range')
    rw [hentries, hlist, Tables.listRoot, List.take_of_length_le (Nat.le_trans hle hmax)]
    rfl
  · have hiff := shown_singleton_iff hs hent hname hlabel hdir hbefore
      (nameTo83_ne_zero name _ (headD_nameTo83_mem name))
    rw [listedOnce_iff, shown_congr hshows.ent, hiff]
    constructor
    · rintro ⟨⟨h5, halone⟩, htight⟩
      refine ⟨h5, htight, fun s' hs' => ?_⟩
      rwa [← Option.some.inj (htarget.symm.trans hs')]
    · rintro ⟨h5, htight, halone⟩
      exact ⟨⟨h5, halone s htarget⟩, htight⟩

/-- A name that is shown as it was given. -/
def plainName : CString := ⟨[0x66, 0x6F, 0x6F], by decide⟩

theorem listed_name_opens_plain : ListedOnce Diskfs.layout
    (fat12WriteFile Diskfs.layout.bpb plainName [] (Diskfs.formatVolume Bytes.zeros)).state plainName := by
  have hsound := Diskfs.format_sound Bytes.zeros
  refine (listed_name_opens_iff (hsound.reads _) (.inl ?_) (write_empty_format Bytes.zeros plainName)).2.mpr
    ⟨by decide, by decide, fun s hs => hsound.alone hs⟩
  exact Nat.le_trans (show clustersFor 512 0 ≤ 0 by decide) (Nat.zero_le _)

/-- A name with a blank in it. -/
def gapName : CString := ⟨[0x61, 0x20, 0x62], by decide⟩

/-- The claim fails for it on an empty volume: its file is shown as a name that stops at the blank. -/
theorem listed_name_not_found : ¬ ∀ (v : Bytes) (name : CString), name.val ≠ [] →
    (fat12WriteFile Diskfs.layout.bpb name [] v).out = .done 0 →
      ListedOnce Diskfs.layout (fat12WriteFile Diskfs.layout.bpb name [] v).state name := fun h =>
  absurd (listedOnce_iff.mp (h (Diskfs.formatVolume Bytes.zeros) gapName (by decide)
    (write_empty_format Bytes.zeros gapName))).2 (by decide)

end RainbowOs.Fat12
