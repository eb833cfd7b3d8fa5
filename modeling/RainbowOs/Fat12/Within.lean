import RainbowOs.Fat12.Runs

/-!
# Where a call stays

A bound on the accesses that does not depend on what the volume holds. When
every directory entry, every FAT entry and every cluster the geometry counts
lies where `P` wants it, the functions that scan them stay there from any
volume, and stop only as `H` allows. Only the walks along a chain go where
the volume sends them; they are bounded where every link is.
-/

namespace RainbowOs.Fat12

open RainbowOs.Lib

/-- What the geometry counts lies in `P`, and a division by zero is in `H`. -/
structure Bpb.Bounds (g : Bpb) (P : Access → Prop) (H : Fault → Prop) : Prop where
  counted : g.dataClusters + 2 < 65536
  divide : g.clusterBytes = 0 → H .divideError
  dir {i k n : Nat} (hi : i < g.rootEntryCount) (hk : k + n ≤ 32) :
    P ⟨.dir, g.direntOffset i + k, n⟩
  fat {site : Site} {c k n : Nat} (h2 : 2 ≤ c) (hc : c < g.dataClusters + 2) (hk : k + n ≤ 2) :
    P ⟨site, g.fatEntryOffset c + k, n⟩
  data {c n : Nat} (h2 : 2 ≤ c) (hc : c < g.dataClusters + 2) (hn : n ≤ g.clusterBytes) :
    P ⟨.data, g.clusterToOffset c, n⟩

/-- Every cluster number the FAT can hold as a link lies in `P`. -/
structure Bpb.Links (g : Bpb) (P : Access → Prop) : Prop where
  fat {site : Site} {c k n : Nat} (h2 : 2 ≤ c) (hc : c < 0xFF8) (hk : k + n ≤ 2) :
    P ⟨site, g.fatEntryOffset c + k, n⟩
  data {c n : Nat} (h2 : 2 ≤ c) (hc : c < 0xFF8) (hn : n ≤ g.clusterBytes) :
    P ⟨.data, g.clusterToOffset c, n⟩

/-- Run from any volume, the program accesses what `P` allows, stops as `H` allows, and
returns what `R` allows. -/
def Within {α : Type} (P : Access → Prop) (H : Fault → Prop) (R : α → Prop) (p : Fat α) : Prop :=
  ∀ v, p.wp P (fun a _ => R a) (fun e _ => H e) v

/-- The buffer ends where the cluster that is being moved would pass it. -/
theorem chunk_le {read cb n : Nat} :
    (if u32 (read + cb) > n then n - read else cb) ≤ cb := by
  have hle : u32 (read + cb) ≤ read + cb := Nat.mod_le _ _
  split <;> omega

namespace Within

variable {α β : Type} {g : Bpb} {P : Access → Prop} {H : Fault → Prop}

theorem pure {R : α → Prop} {a : α} (h : R a) : Within P H R (pure a : Fat α) := fun _ =>
  Prog.wp_pure h

theorem halt {R : α → Prop} {e : Fault} (h : H e) : Within P H R (Prog.halt e : Fat α) := fun _ =>
  Prog.wp_halt h

theorem bind {R : α → Prop} {S : β → Prop} {p : Fat α} {f : α → Fat β} (hp : Within P H R p)
    (hf : ∀ a, R a → Within P H S (f a)) : Within P H S (p >>= f) := fun v =>
  Prog.wp_seq (hp v) fun a v' ha => hf a ha v'

theorem loadByte {site : Site} {off : Nat} (h : P ⟨site, off, 1⟩) :
    Within P H (fun _ => True) (loadByte site off) := fun _ => wp_loadByte h trivial

theorem loadBytes {site : Site} {off n : Nat} (h : P ⟨site, off, n⟩) :
    Within P H (fun _ => True) (loadBytes site off n) := fun _ => wp_loadBytes h trivial

theorem read16 {site : Site} {off : Nat} (h : P ⟨site, off, 2⟩) :
    Within P H (fun x => x < 65536) (read16 site off) := fun v => wp_read16 h (v.word16_lt off)

theorem read32 {site : Site} {off : Nat} (h : P ⟨site, off, 4⟩) :
    Within P H (fun _ => True) (read32 site off) := fun _ => wp_read32 h trivial

theorem storeBytes {site : Site} {off : Nat} {bs : List UInt8} (h : P ⟨site, off, bs.length⟩) :
    Within P H (fun _ => True) (storeBytes site off bs) := fun _ => wp_storeBytes h trivial

/-! ## FAT entries -/

theorem readFat {site : Site} {c : Nat} (h : P ⟨site, g.fatEntryOffset c, 2⟩) :
    Within P H (fun x => x < 4096) (fat12ReadFat g site c) := by
  refine bind (read16 h) fun val hval => pure ?_
  split <;> omega

theorem writeFat {c : Nat} (value : Nat)
    (h : ∀ k n, k + n ≤ 2 → P ⟨.writeFat, g.fatEntryOffset c + k, n⟩) :
    Within P H (fun _ => True) (fat12WriteFat g c value) := by
  refine bind (loadByte (h 0 1 (by decide))) fun _ _ => bind (loadByte (h 1 1 (by decide))) fun _ _ =>
    storeBytes ?_
  rw [length_packFat]
  exact h 0 2 (by decide)

theorem maxClusters (hg : g.Bounds P H) : Within P H (fun n => n = g.dataClusters) (maxClusters g) := by
  unfold Fat12.maxClusters
  split
  · next h => exact halt (hg.divide h)
  · exact pure rfl

theorem allocCluster (hg : g.Bounds P H) :
    Within P H (fun c => c = 0 ∨ 2 ≤ c ∧ c < g.dataClusters + 2) (fat12AllocCluster g) := by
  have hcount := hg.counted
  -- the fuel left is what the counter has left of its range
  have hloop : ∀ fuel c, 2 ≤ c → c + fuel = 65538 → c ≤ g.dataClusters + 2 →
      Within P H (fun c => c = 0 ∨ 2 ≤ c ∧ c < g.dataClusters + 2)
        (allocLoop g (g.dataClusters + 2) fuel c) := by
    intro fuel
    induction fuel with
    | zero =>
      intro c h2 hfuel hc
      omega
    | succ fuel ih =>
      intro c h2 hfuel hc
      rw [allocLoop]
      split
      · next hlt =>
        refine bind (readFat (hg.fat (k := 0) h2 hlt (by decide))) fun val _ => ?_
        split
        · exact pure (Or.inr ⟨h2, hlt⟩)
        · have hstep : u16 (c + 1) = c + 1 := Nat.mod_eq_of_lt (by omega)
          rw [hstep]
          exact ih _ (by omega) (by omega) (by omega)
      · exact pure (Or.inl rfl)
  refine bind (maxClusters hg) fun n hn => ?_
  rw [hn]
  exact hloop _ _ (Nat.le_refl 2) rfl (by omega)

/-! ## The root directory -/

theorem matchName {off : Nat} {bs : List UInt8} (h : ∀ k, k < bs.length → P ⟨.dir, off + k, 1⟩) :
    Within P H (fun _ => True) (matchName off bs) := by
  induction bs generalizing off with
  | nil => exact pure trivial
  | cons b bs ih =>
    rw [Fat12.matchName]
    refine bind (loadByte (h 0 (Nat.succ_pos _))) fun c _ => ?_
    split
    · exact pure trivial
    · refine ih fun k hk => ?_
      rw [Nat.add_right_comm]
      exact h (k + 1) (Nat.succ_lt_succ hk)

theorem findEntry (hg : g.Bounds P H) {name83 : List UInt8} (hname : name83.length = 11) {n i : Nat}
    (hn : i + n ≤ g.rootEntryCount) :
    Within P H (fun r => ∀ j, r = some j → j < g.rootEntryCount) (findEntry g name83 n i) := by
  induction n generalizing i with
  | zero => exact pure fun j hj => absurd hj.symm (Option.some_ne_none j)
  | succ n ih =>
    have hi : i < g.rootEntryCount := by omega
    rw [Fat12.findEntry]
    refine bind (loadByte (hg.dir (k := 0) hi (by decide))) fun mark _ => ?_
    split
    · exact pure fun j hj => absurd hj.symm (Option.some_ne_none j)
    split
    · exact ih (by omega)
    refine bind (loadByte (hg.dir hi (by decide))) fun attr _ => ?_
    split
    · exact ih (by omega)
    split
    · exact ih (by omega)
    refine bind (matchName fun k hk => hg.dir hi (by omega)) fun b _ => ?_
    split
    · exact pure fun j hj => Option.some.inj hj ▸ hi
    · exact ih (by omega)

theorem findSlot (hg : g.Bounds P H) {n i : Nat} (hn : i + n ≤ g.rootEntryCount) :
    Within P H (fun r => ∀ j, r = some j → j < g.rootEntryCount) (findSlot g n i) := by
  induction n generalizing i with
  | zero => exact pure fun j hj => absurd hj.symm (Option.some_ne_none j)
  | succ n ih =>
    have hi : i < g.rootEntryCount := by omega
    rw [Fat12.findSlot]
    refine bind (loadByte (hg.dir (k := 0) hi (by decide))) fun mark _ => ?_
    split
    · exact pure fun j hj => Option.some.inj hj ▸ hi
    · exact ih (by omega)

theorem listLoop (hg : g.Bounds P H) {n i : Nat} (room : Nat) (hn : i + n ≤ g.rootEntryCount) :
    Within P H (fun _ => True) (listLoop g n i room) := by
  induction n generalizing i room with
  | zero => exact pure trivial
  | succ n ih =>
    have hi : i < g.rootEntryCount := by omega
    rw [Fat12.listLoop]
    split
    · exact pure trivial
    refine bind (loadByte (hg.dir (k := 0) hi (by decide))) fun mark _ => ?_
    split
    · exact pure trivial
    split
    · exact ih _ (by omega)
    refine bind (loadByte (hg.dir hi (by decide))) fun attr _ => ?_
    split
    · exact ih _ (by omega)
    split
    · exact ih _ (by omega)
    exact bind (loadBytes (hg.dir (k := 0) hi (by decide))) fun _ _ =>
      bind (read32 (hg.dir hi (by decide))) fun _ _ => bind (ih _ (by omega)) fun _ _ => pure trivial

/-! ## Writing -/

/-- A round that finds a cluster moves what is left of the data, a cluster at most. -/
def RoundOut (g : Bpb) (data : List UInt8) (written : Nat) (r : Option (Nat × Nat)) : Prop :=
  ∀ c k, r = some (c, k) → (2 ≤ c ∧ c < g.dataClusters + 2) ∧
    k = if u32 (written + g.clusterBytes) > data.length then data.length - written
      else g.clusterBytes

theorem writeRound (hg : g.Bounds P H) (data : List UInt8) {prev : Nat}
    (hprev : prev = 0 ∨ 2 ≤ prev ∧ prev < g.dataClusters + 2) (written : Nat) :
    Within P H (RoundOut g data written) (writeRound g data prev written) := by
  refine bind (allocCluster hg) fun cluster hc => ?_
  split
  · exact pure fun c k h => absurd h.symm (Option.some_ne_none _)
  next hne =>
  obtain ⟨h2, hlt⟩ := hc.resolve_left hne
  have hlink : Within P H (fun _ => True) (linkFrom g prev cluster) := by
    unfold linkFrom
    split
    · next hp =>
      obtain ⟨hp2, hplt⟩ := hprev.resolve_left hp
      exact writeFat _ fun k n hk => hg.fat hp2 hplt hk
    · exact pure trivial
  refine bind hlink fun _ _ => bind (storeBytes (hg.data h2 hlt ?_)) fun _ _ =>
    bind (writeFat _ fun k n hk => hg.fat h2 hlt hk) fun _ _ => pure fun c k h => ?_
  · exact Nat.le_trans (List.length_take_le _ _) chunk_le
  · obtain ⟨rfl, rfl⟩ := Prod.mk.inj (Option.some.inj h)
    exact ⟨⟨h2, hlt⟩, rfl⟩

/-- The rounds of a write end: each but the last moves a cluster. -/
def WritesOut (g : Bpb) (data : List UInt8) (fuel written : Nat) : Prop :=
  0 < g.clusterBytes ∧ data.length + g.clusterBytes ≤ 4294967296 ∧
    written ≤ data.length ∧ data.length - written < fuel

theorem writeLoop (hg : g.Bounds P H) (data : List UInt8) {fuel first prev written : Nat}
    (hprev : prev = 0 ∨ 2 ≤ prev ∧ prev < g.dataClusters + 2)
    (hend : H .hang ∨ WritesOut g data fuel written) :
    Within P H (fun _ => True) (writeLoop g data fuel first prev written) := by
  induction fuel generalizing first prev written with
  | zero =>
    rcases hend with hend | ⟨_, _, _, hend⟩
    · exact halt hend
    · exact absurd hend (Nat.not_lt_zero _)
  | succ fuel ih =>
    rw [Fat12.writeLoop]
    split
    · next hlt =>
      refine bind (writeRound hg data hprev written) fun r hr => ?_
      split
      · exact pure trivial
      · next c k =>
        obtain ⟨hc, hk⟩ := hr c k rfl
        refine ih (Or.inr hc) (hend.imp_right fun h => ?_)
        obtain ⟨hpos, hsum, hle, hfuel⟩ := h
        have hmod : u32 (written + g.clusterBytes) = written + g.clusterBytes :=
          Nat.mod_eq_of_lt (by omega)
        rw [hmod] at hk
        have hstep : 0 < k ∧ written + k ≤ data.length := by
          rw [hk]
          split <;> omega
        have hmod' : u32 (written + k) = written + k := Nat.mod_eq_of_lt (by omega)
        rw [hmod']
        exact ⟨hpos, hsum, hstep.2, by omega⟩
    · exact pure trivial

theorem storeEntry (hg : g.Bounds P H) {i : Nat} (hi : i < g.rootEntryCount) (first size : Nat) :
    Within P H (fun _ => True) (storeEntry g i first size) :=
  bind (storeBytes (hg.dir hi (by rw [Bytes.length_le16]; decide))) fun _ _ =>
    storeBytes (hg.dir hi (by rewrite [Bytes.length_le32]; decide))

theorem updateDir (hg : g.Bounds P H) {name83 : List UInt8} (hname : name83.length = 11)
    {existing : Option Nat} (hex : ∀ j, existing = some j → j < g.rootEntryCount) (first size : Nat) :
    Within P H (fun _ => True) (updateDir g name83 existing first size) := by
  unfold Fat12.updateDir
  split
  · next i => exact bind (storeEntry hg (hex i rfl) _ _) fun _ _ => pure trivial
  refine bind (findSlot hg (by omega)) fun r hr => ?_
  split
  · exact pure trivial
  · next i =>
    have hi := hr i rfl
    refine bind (storeBytes (hg.dir (k := 0) hi ?_)) fun _ _ =>
      bind (storeBytes (hg.dir (k := 0) hi ?_)) fun _ _ => bind (storeBytes (hg.dir hi ?_)) fun _ _ =>
        bind (storeEntry hg hi _ _) fun _ _ => pure trivial
    · rewrite [List.length_replicate]
      decide
    · rewrite [hname]
      decide
    · decide

/-! ## Chains, where every link is bounded -/

theorem freeFrom (hg : g.Bounds P H) (hl : g.Links P) (start : Nat) :
    Within P H (fun _ => True) (freeFrom g start) := by
  have hloop : ∀ n c, Within P H (fun _ => True) (freeChainLoop g n c) := by
    intro n
    induction n with
    | zero => exact fun _ => pure trivial
    | succ n ih =>
      intro c
      rw [freeChainLoop]
      split
      · next hc =>
        exact bind (readFat (hl.fat (k := 0) hc.1 hc.2 (by decide))) fun next _ =>
          bind (writeFat _ fun k n hk => hl.fat hc.1 hc.2 hk) fun _ _ => ih next
      · exact pure trivial
  unfold Fat12.freeFrom
  split
  · exact bind (maxClusters hg) fun n _ => hloop n start
  · exact pure trivial

theorem readLoop (hl : g.Links P) (toRead n rd cluster : Nat) :
    Within P H (fun _ => True) (readLoop g toRead n rd cluster) := by
  induction n generalizing rd cluster with
  | zero => exact pure trivial
  | succ n ih =>
    rw [Fat12.readLoop]
    split
    · next hc =>
      exact bind (loadBytes (hl.data hc.2.1 hc.2.2 chunk_le)) fun _ _ =>
        bind (readFat (hl.fat (k := 0) hc.2.1 hc.2.2 (by decide))) fun _ _ => bind (ih _ _) fun _ _ =>
          pure trivial
    · exact pure trivial

theorem writeFile (hg : g.Bounds P H) (hl : g.Links P) (hhang : H .hang) (name : CString)
    (data : List UInt8) : Within P H (fun _ => True) (fat12WriteFile g name data) := by
  have hname := length_nameTo83 name
  refine bind (findEntry hg hname (by omega)) fun existing hex => bind (R := fun _ => True) ?_
    fun _ _ => bind (writeLoop hg data (Or.inl rfl) (Or.inl hhang)) fun r _ => ?_
  · unfold freeExisting
    split
    · exact pure trivial
    · next i =>
      exact bind (read16 (hg.dir (hex i rfl) (by decide))) fun start _ => freeFrom hg hl start
  · split
    · exact pure trivial
    · exact updateDir hg hname hex _ _

theorem deleteFile (hg : g.Bounds P H) (hl : g.Links P) (name : CString) :
    Within P H (fun _ => True) (fat12DeleteFile g name) := by
  refine bind (findEntry hg (length_nameTo83 name) (by omega)) fun r hr => ?_
  split
  · exact pure trivial
  · next i =>
    have hi := hr i rfl
    exact bind (read16 (hg.dir hi (by decide))) fun start _ => bind (freeFrom hg hl start)
      fun _ _ => bind (storeBytes (hg.dir (k := 0) hi (by decide))) fun _ _ => pure trivial

theorem readFile (hg : g.Bounds P H) (hl : g.Links P) (name : CString) (bufSize : Nat) :
    Within P H (fun _ => True) (fat12ReadFile g name bufSize) := by
  refine bind (findEntry hg (length_nameTo83 name) (by omega)) fun r hr => ?_
  split
  · exact pure trivial
  · next i =>
    have hi := hr i rfl
    exact bind (read32 (hg.dir hi (by decide))) fun _ _ =>
      bind (read16 (hg.dir hi (by decide))) fun _ _ => bind (maxClusters hg) fun _ _ =>
        bind (readLoop hl _ _ _ _) fun _ _ => pure trivial

end Within

end RainbowOs.Fat12
