import Mathlib.Data.Finset.Card
import Mathlib.Data.Nat.Find
import RainbowOs.Fat12.Mountable

/-!
# Mounting an arbitrary image

A mountable image is safe whatever is called. Conversely, a safe image has a
cluster size, a directory inside the megabyte up to the first unused entry,
and chains that stay inside; and where the numbers of the clusters fit in a
FAT entry, and the directory lies in the megabyte or apart from what a write
touches, it is mountable. For there is data with which a write comes to every
FAT entry, and to every cluster that it may take, also where the clusters lie
over the FAT.
-/

namespace RainbowOs.Fat12

open RainbowOs.Lib

/-! ## The size of a cluster and the directory -/

theorem wp_trivial {α : Type} (p : Fat α) (v : Bytes) :
    p.wp (fun _ => True) (fun _ _ => True) (fun _ _ => True) v := by
  refine ⟨fun _ _ => trivial, ?_⟩
  cases (p v).out <;> trivial

/-- Without a cluster size no write of data returns. -/
theorem write_divides {g : Bpb} (hcb : g.clusterBytes = 0) (name : CString) {data : List UInt8}
    (hdata : 0 < data.length) (v : Bytes) :
    (fat12WriteFile g name data).wp (fun _ => True) (fun _ _ => False) (fun _ _ => True) v := by
  refine Prog.wp_seq (wp_trivial _ v) fun existing v' _ => Prog.wp_seq (wp_trivial _ v')
    fun _ v'' _ => Prog.wp_bind.mpr ?_
  rw [writeLoop, if_pos hdata]
  refine Prog.wp_bind.mpr (Prog.wp_bind.mpr (Prog.wp_bind.mpr ?_))
  unfold maxClusters
  rw [if_pos hcb]
  exact Prog.wp_halt trivial

/-- The name of the files written below. -/
def aName : CString := ⟨[0x61], by decide⟩

theorem Robust.cluster {v : Bytes} (h : Robust v) : 0 < (bpbOf v).sectorsPerCluster := by
  refine Nat.pos_of_ne_zero fun hspc => ?_
  have hcb : (bpbOf v).clusterBytes = 0 := by
    unfold Bpb.clusterBytes
    rw [hspc, Nat.zero_mul]
  have hcall := h (.write aName [0]) (by decide : 1 + diskfsSize ≤ 4294967296)
  obtain ⟨r, hr, _⟩ := (Prog.total_bind.mp hcall).returns
  have hhalt := (write_divides hcb aName (by decide : 0 < ([0] : List UInt8).length) v).2
  rw [hr] at hhalt
  exact hhalt

/-- A listing that stays inside has every entry up to the first unused one inside. -/
theorem direntOffset_of_list {g : Bpb} {v : Bytes} {n i room j : Nat} (hroom : n ≤ room)
    (h : (listLoop g n i room).total InVolume (fun _ _ => True) v) (hij : i ≤ j) (hj : j < i + n)
    (hused : ∀ k, i ≤ k → k < j → v (g.direntOffset k) ≠ 0) : g.direntOffset j < diskfsSize := by
  induction n generalizing i room with
  | zero => omega
  | succ n ih =>
    rw [listLoop, if_neg (by omega)] at h
    have hfirst : InVolume ⟨.dir, g.direntOffset i, 1⟩ :=
      h.log _ (Prog.mem_log_bind List.mem_cons_self)
    rcases Nat.eq_or_lt_of_le hij with rfl | hlt
    · exact hfirst
    have hstep : ∀ room', n ≤ room' →
        (listLoop g n (i + 1) room').total InVolume (fun _ _ => True) v →
        g.direntOffset j < diskfsSize := fun room' hroom' h' =>
      ih hroom' h' hlt (by omega) fun k hk => hused k (by omega)
    have hload : ∀ {site off} {f : UInt8 → Fat (List Dirent)},
        (loadByte site off >>= f).total InVolume (fun _ _ => True) v →
        (f (v off)).total InVolume (fun _ _ => True) v := fun h' =>
      Prog.total.of_done (Prog.total_bind.mp h') rfl
    have h := hload h
    rw [if_neg (hused i (Nat.le_refl i) hlt)] at h
    split at h
    · exact hstep room (by omega) h
    have h := hload h
    split at h
    · exact hstep room (by omega) h
    split at h
    · exact hstep room (by omega) h
    have h : (read32 .dir (g.direntOffset i + sizeField) >>= fun _ => _).total InVolume _ v :=
      Prog.total.of_done (Prog.total_bind.mp h) rfl
    have h : (listLoop g n (i + 1) (room - 1) >>= fun _ => _).total InVolume _ v :=
      Prog.total.of_done (Prog.total_bind.mp h) rfl
    exact hstep (room - 1) (by omega) (Prog.total_mono (Prog.total_bind.mp h) (fun _ h => h)
      fun _ _ _ => trivial)

theorem Robust.dir {v : Bytes} (hbps : v.word16 11 = 512) (h : Robust v) {j : Nat}
    (hj : j < (bpbOf v).rootEntryCount) (hused : ∀ k, k < j → v ((bpbOf v).direntOffset k) ≠ 0) :
    (bpbOf v).DirInside j := by
  have hlist : (listLoop (bpbOf v) (bpbOf v).rootEntryCount 0 (bpbOf v).rootEntryCount).total
      InVolume (fun _ _ => True) v :=
    Prog.total_mono (Prog.total_bind.mp (h (.list (bpbOf v).rootEntryCount) trivial))
      (fun _ h => h) fun _ _ _ => trivial
  exact (direntOffset_lt hbps).mpr
    (direntOffset_of_list (Nat.le_refl _) hlist (Nat.zero_le j) (by omega) fun k _ => hused k)

/-! ## The chains -/

/-- The search of a call leaves the image as it is. -/
theorem findEntry_state (g : Bpb) (name83 : List UInt8) (n i : Nat) (v : Bytes) :
    (findEntry g name83 n i v).state = v := by
  have hmatch : ∀ (bs : List UInt8) off, (matchName off bs).wp (fun _ => True)
      (fun _ v' => v' = v) (fun _ v' => v' = v) v := by
    intro bs
    induction bs with
    | nil => exact fun _ => Prog.wp_pure rfl
    | cons b bs ih =>
      intro off
      rw [matchName]
      refine Prog.wp_bind.mpr (wp_loadByte trivial ?_)
      split
      · exact Prog.wp_pure rfl
      · exact ih _
  have hfind : ∀ n i, (findEntry g name83 n i).wp (fun _ => True) (fun _ v' => v' = v) (fun _ v' => v' = v) v := by
    intro n
    induction n with
    | zero => exact fun _ => Prog.wp_pure rfl
    | succ n ih =>
      intro i
      rw [findEntry]
      refine Prog.wp_bind.mpr (wp_loadByte trivial ?_)
      split
      · exact Prog.wp_pure rfl
      split
      · exact ih _
      refine Prog.wp_bind.mpr (wp_loadByte trivial ?_)
      split
      · exact ih _
      split
      · exact ih _
      refine Prog.wp_seq (hmatch _ _) fun b v' hv' => ?_
      rw [hv']
      split
      · exact Prog.wp_pure rfl
      · exact ih _
  have h := (hfind n i).2
  split at h <;> exact h

section Chains

variable {g : Bpb} {v v' : Bytes}

theorem total_of_loadBytes {α : Type} {site : Site} {off n : Nat} {f : List UInt8 → Fat α} {Q : α → Bytes → Prop}
    (h : (loadBytes site off n >>= f).total InVolume Q v) : (f (v.slice off n)).total InVolume Q v :=
  Prog.total.of_done (Prog.total_bind.mp h) rfl

theorem total_of_read16 {α : Type} {site : Site} {off : Nat} {f : Nat → Fat α} {Q : α → Bytes → Prop}
    (h : (read16 site off >>= f).total InVolume Q v) : (f (v.word16 off)).total InVolume Q v :=
  Prog.total.of_done (Prog.total_bind.mp h) rfl

theorem total_of_read32 {α : Type} {site : Site} {off : Nat} {f : Nat → Fat α} {Q : α → Bytes → Prop}
    (h : (read32 site off >>= f).total InVolume Q v) : (f (v.word32 off)).total InVolume Q v :=
  Prog.total.of_done (Prog.total_bind.mp h) rfl

theorem inside_of_readFat {α : Type} {site : Site} {c : Nat} {f : Nat → Fat α} {Q : α → Bytes → Prop}
    (h : (fat12ReadFat g site c >>= f).total InVolume Q v) :
    g.FatInside c ∧ (f (fatAt g v c)).total InVolume Q v :=
  ⟨h.log _ (Prog.mem_log_bind List.mem_cons_self), Prog.total.of_done (Prog.total_bind.mp h) rfl⟩

theorem total_of_storeBytes {α : Type} {site : Site} {off : Nat} {bs : List UInt8} {f : Unit → Fat α}
    {Q : α → Bytes → Prop} (h : (storeBytes site off bs >>= f).total InVolume Q v) :
    (f ()).total InVolume Q (v.store off bs) := Prog.total.of_done (Prog.total_bind.mp h) rfl

theorem total_of_writeFat {α : Type} {c value : Nat} {f : Unit → Fat α} {Q : α → Bytes → Prop}
    (h : (fat12WriteFat g c value >>= f).total InVolume Q v) : (f ()).total InVolume Q (writtenFat g v c value) :=
  Prog.total.of_done (Prog.total_bind.mp h) rfl

/-- What is freed is closed under the links of the image, but for the cluster that is freed next. -/
structure ClosedBut (g : Bpb) (v v' : Bytes) (S : Nat → Prop) (c : Nat) : Prop where
  inside : ∀ s, S s → s < 65536 ∧ g.FatInside s
  zero : ∀ s, S s → fatAt g v' s = 0
  kept : ∀ e, e < 65536 → fatAt g v' e = fatAt g v e ∨ S e
  closed : ∀ s, S s → S (fatAt g v s) ∨ fatAt g v s = c

/-- From what is freed, the links lead to nothing else. -/
theorem ClosedBut.chain {S : Nat → Prop} {c : Nat} (h : ClosedBut g v v' S c) (hc : S c) {n s e : Nat} (hs : S s)
    (he : InChain g v n s e) : S e := by
  induction n generalizing s with
  | zero => exact he.elim
  | succ n ih =>
    obtain ⟨-, rfl | he⟩ := he
    · exact hs
    · refine ih ?_ he
      exact (h.closed s hs).elim id fun hnext => hnext ▸ hc

/-- Freeing a chain visits all of it, although it reads the links that it leaves. -/
theorem inside_of_freeChain (hlin : g.FatLinear) {S : Nat → Prop} {n c : Nat} (hS : ClosedBut g v v' S c)
    {Q : Unit → Bytes → Prop} (h : (freeChainLoop g n c).total InVolume Q v') :
    ∀ e, InChain g v n c e ∨ S e → g.FatInside e ∧ fatAt g (freeChainLoop g n c v').state e = 0 := by
  induction n generalizing v' c S with
  | zero =>
    rintro e (he | he)
    · exact he.elim
    · exact ⟨(hS.inside e he).2, hS.zero e he⟩
  | succ n ih =>
    rw [freeChainLoop] at h ⊢
    split at h
    · next hlink =>
      rw [if_pos hlink]
      have hrun : ((do
          let next ← fat12ReadFat g .chain c
          fat12WriteFat g c 0x000
          freeChainLoop g n next : Fat Unit) v').state =
          (freeChainLoop g n (fatAt g v' c) (writtenFat g v' c 0)).state := rfl
      rw [hrun]
      obtain ⟨hfat, h⟩ := inside_of_readFat h
      have h := total_of_writeFat h
      have hother : ∀ e, e < 65536 → e ≠ c → fatAt g (writtenFat g v' c 0) e = fatAt g v' e :=
        fun e he hec => fatAt_writtenFat_of_ne v' 0 (hlin c (by omega)) (hlin e he) hec
      by_cases hc : S c
      · -- the chain comes back to what it left, and the link there is 0 by now
        have hstop (n : Nat) (w : Bytes) : (freeChainLoop g n 0 w).state = w := by
          cases n with
          | zero => rfl
          | succ n =>
            rw [freeChainLoop, if_neg (by decide)]
            rfl
        rw [hS.zero c hc, hstop]
        intro e he
        have he : S e := he.elim (fun he => hS.chain hc (n := n + 1) hc he) id
        refine ⟨(hS.inside e he).2, ?_⟩
        by_cases hec : e = c
        · rw [hec]
          exact fatAt_writtenFat_self g v' c 0
        · exact (hother e (hS.inside e he).1 hec).trans (hS.zero e he)
      · have hnext : fatAt g v' c = fatAt g v c := (hS.kept c (by omega)).resolve_right hc
        rw [hnext] at h ⊢
        have hS' : ClosedBut g v (writtenFat g v' c 0) (fun e => S e ∨ e = c) (fatAt g v c) := by
          refine ⟨?_, ?_, fun e he => ?_, ?_⟩
          · rintro s (hs | rfl)
            · exact hS.inside s hs
            · exact ⟨by omega, hfat⟩
          · rintro s (hs | rfl)
            · exact (hother s (hS.inside s hs).1 fun hsc => hc (hsc ▸ hs)).trans (hS.zero s hs)
            · exact fatAt_writtenFat_self g v' s 0
          · by_cases hec : e = c
            · exact .inr (.inr hec)
            · exact (hS.kept e he).imp (hother e he hec).trans .inl
          · rintro s (hs | rfl)
            · exact .inl (hS.closed s hs)
            · exact .inr rfl
        rintro e ((⟨-, rfl | he⟩) | he)
        · exact ih hS' h e (.inr (.inr rfl))
        · exact ih hS' h e (.inl he)
        · exact ih hS' h e (.inr (.inl he))
    · next hlink =>
      rw [if_neg hlink]
      rintro e (⟨hlink', -⟩ | he)
      · exact absurd hlink' hlink
      · exact ⟨(hS.inside e he).2, hS.zero e he⟩

/-- Where the walk along a chain has passed the file, only the FAT counts. -/
theorem chainInside_of_fat {size n rd c : Nat} (hfat : ∀ e, InChain g v n c e → g.FatInside e)
    (hrd : size ≤ rd) : ChainInside g v size n rd c := by
  induction n generalizing rd c with
  | zero => trivial
  | succ n ih =>
    intro hlink
    refine ⟨hfat c ⟨hlink, .inl rfl⟩, fun hlt => absurd hrd (Nat.not_le_of_lt hlt), ih ?_ (Nat.le_add_right_of_le hrd)⟩
    exact fun e he => hfat e ⟨hlink, .inr he⟩

/-- Reading a file visits the part of each cluster that belongs to it. -/
theorem chainInside_of_read {size n rd c : Nat} (hmod : rd + n * g.clusterBytes < 4294967296)
    (hfat : ∀ e, InChain g v n c e → g.FatInside e) {Q : List UInt8 → Bytes → Prop}
    (h : (readLoop g size n rd c).total InVolume Q v) : ChainInside g v size n rd c := by
  induction n generalizing rd c Q with
  | zero => trivial
  | succ n ih =>
    by_cases hlt : rd < size
    · intro hlink
      rw [readLoop, if_pos ⟨hlt, hlink⟩] at h
      rw [Nat.succ_mul] at hmod
      have hstep : u32 (rd + g.clusterBytes) = rd + g.clusterBytes := Nat.mod_eq_of_lt (by omega)
      have hfat' : ∀ e, InChain g v n (fatAt g v c) e → g.FatInside e := fun e he => hfat e ⟨hlink, .inr he⟩
      have hchunk : (if rd + g.clusterBytes > size then size - rd else g.clusterBytes) =
          min g.clusterBytes (size - rd) := by
        split <;> omega
      rw [hstep, hchunk] at h
      refine ⟨hfat c ⟨hlink, .inl rfl⟩, fun _ => h.log _ (Prog.mem_log_bind List.mem_cons_self), ?_⟩
      by_cases hlast : size ≤ rd + g.clusterBytes
      · exact chainInside_of_fat hfat' hlast
      · have h := (inside_of_readFat (total_of_loadBytes h)).2
        rw [Nat.min_eq_left (by omega), hstep] at h
        exact ih (by omega) hfat' (Prog.total_bind.mp h)
    · exact chainInside_of_fat hfat (Nat.le_of_not_lt hlt)

end Chains

theorem Robust.clusterBytes_pos {v : Bytes} (hbps : v.word16 11 = 512) (h : Robust v) :
    0 < (bpbOf v).clusterBytes := by
  have hspc := h.cluster
  rw [clusterBytes_eq hbps]
  omega

/-- The search of a call returns. -/
theorem Robust.finds {v : Bytes} (h : Robust v) (name : CString) :
    ∃ r, (findEntry (bpbOf v) (nameTo83 name) (bpbOf v).rootEntryCount 0 v).out = .done r := by
  obtain ⟨r, hr, _⟩ := (Prog.total_bind.mp (Prog.total_bind.mp (h (.delete name) trivial))).returns
  exact ⟨r, hr⟩

/-- What a call does after its search. -/
theorem total_of_find {α : Type} {g : Bpb} {v : Bytes} {name : CString} {r : Option Nat} {f : Option Nat → Fat α}
    {Q : α → Bytes → Prop} (hfinds : (findEntry g (nameTo83 name) g.rootEntryCount 0 v).out = .done r)
    (h : (findEntry g (nameTo83 name) g.rootEntryCount 0 >>= f).total InVolume Q v) :
    (f r).total InVolume Q v := by
  have h := Prog.total.of_done (Prog.total_bind.mp h) hfinds
  rwa [findEntry_state] at h

theorem maxClusters_run {g : Bpb} (hcb : 0 < g.clusterBytes) (v : Bytes) :
    maxClusters g v = ⟨.done g.dataClusters, v, []⟩ := by
  rw [maxClusters, if_neg (Nat.ne_of_gt hcb)]
  rfl

theorem total_of_maxClusters {α : Type} {g : Bpb} {v : Bytes} {f : Nat → Fat α} {Q : α → Bytes → Prop}
    (hcb : 0 < g.clusterBytes) (h : (maxClusters g >>= f).total InVolume Q v) :
    (f g.dataClusters).total InVolume Q v := by
  have h := Prog.total.of_done (Prog.total_bind.mp h) (congrArg Run.out (maxClusters_run hcb v))
  rwa [maxClusters_run hcb v] at h

/-- The chain of a file that is found lies inside, and freeing it frees all of it. -/
theorem inside_of_freeFrom {g : Bpb} {v : Bytes} (hcb : 0 < g.clusterBytes) (hlin : g.FatLinear) {first : Nat}
    {Q : Unit → Bytes → Prop} (h : (freeFrom g first).total InVolume Q v) {e : Nat}
    (he : InChain g v g.dataClusters first e) :
    g.FatInside e ∧ fatAt g (freeFrom g first v).state e = 0 := by
  have hclosed : ClosedBut g v v (fun _ => False) first := ⟨nofun, nofun, fun _ _ => .inl rfl, nofun⟩
  have hfirst : 2 ≤ first := by
    cases hn : g.dataClusters with
    | zero =>
      rw [hn] at he
      exact he.elim
    | succ n =>
      rw [hn] at he
      exact he.1.1
  rw [freeFrom, if_pos hfirst] at h ⊢
  have hrun : fat12FreeChain g first v = freeChainLoop g g.dataClusters first v := by
    rw [fat12FreeChain, Prog.bind_run_quiet (maxClusters_run hcb v)]
  rw [hrun]
  exact inside_of_freeChain hlin hclosed (total_of_maxClusters hcb h) e (.inl he)

theorem Robust.freesChain {v : Bytes} (hbps : v.word16 11 = 512) (h : Robust v) {name : CString} {i e : Nat}
    (hfinds : Finds (bpbOf v) v name i)
    (he : InChain (bpbOf v) v (bpbOf v).dataClusters (entryAt (bpbOf v) v i).first e) :
    (bpbOf v).FatInside e ∧ fatAt (bpbOf v) (freeExisting (bpbOf v) (some i) v).state e = 0 := by
  have hcb := h.clusterBytes_pos hbps
  have hdelete := total_of_find hfinds (Prog.total_bind.mp (h (.delete name) trivial))
  have hfree := Prog.total_bind.mp (total_of_read16 hdelete)
  exact inside_of_freeFrom hcb (fun _ => fatEntryOffset_eq hbps) hfree he

theorem Robust.chain {v : Bytes} (hbps : v.word16 11 = 512) (h : Robust v) {name : CString} {i : Nat}
    (hfinds : Finds (bpbOf v) v name i) :
    ChainInside (bpbOf v) v (entryAt (bpbOf v) v i).size (bpbOf v).dataClusters 0
      (entryAt (bpbOf v) v i).first := by
  have hsize : (entryAt (bpbOf v) v i).size < 4294967296 := v.word32_lt _
  have hread := total_of_find hfinds (Prog.total_bind.mp (h (.read name (entryAt (bpbOf v) v i).size) hsize))
  have hread := Prog.total_bind.mp
    (total_of_maxClusters (h.clusterBytes_pos hbps) (total_of_read16 (total_of_read32 hread)))
  have hsame : (if v.word32 ((bpbOf v).direntOffset i + sizeField) < (entryAt (bpbOf v) v i).size then
      v.word32 ((bpbOf v).direntOffset i + sizeField) else (entryAt (bpbOf v) v i).size) =
        (entryAt (bpbOf v) v i).size := if_neg (Nat.lt_irrefl _)
  rw [hsame] at hread
  refine chainInside_of_read ?_ (fun e he => (h.freesChain hbps hfinds he).1) hread
  rw [Nat.zero_add]
  exact chain_lt _

/-- A write that frees a chain leaves the other entries. -/
theorem Robust.freed {v : Bytes} (hbps : v.word16 11 = 512) (h : Robust v) {name : CString} {r : Option Nat}
    (hfinds : (findEntry (bpbOf v) (nameTo83 name) (bpbOf v).rootEntryCount 0 v).out = .done r) {e : Nat}
    (he : e < 65536) : fatAt (bpbOf v) (freeExisting (bpbOf v) r v).state e = fatAt (bpbOf v) v e ∨
      fatAt (bpbOf v) (freeExisting (bpbOf v) r v).state e = 0 := by
  cases r with
  | none => exact .inl rfl
  | some i =>
    obtain ⟨_, _, hkept⟩ := (inside_freeFrom (h.clusterBytes_pos hbps) (fun _ => fatEntryOffset_eq hbps)
      (h.chain hbps hfinds)).returns
    exact (hkept e he).imp_right And.right

/-! ## The FAT and the clusters -/

/-- The numbers of the clusters fit in a FAT entry, and the directory lies in the megabyte, or no write touches it
before it enters a file. -/
structure Plain (v : Bytes) : Prop where
  few : (bpbOf v).dataClusters + 2 ≤ 4096
  dir : (∀ i, i < (bpbOf v).rootEntryCount → (bpbOf v).DirInside i) ∨
    ∀ i, i < (bpbOf v).rootEntryCount → ¬Touched (bpbOf v) v ((bpbOf v).direntOffset i)

section Fills

variable {g : Bpb} {v : Bytes}

/-- A search looks at every FAT entry up to the first one that is free. -/
theorem inside_of_allocLoop {a b fuel limit : Nat} (hab : a ≤ b) (hb : b < limit) (hlimit : limit ≤ 65536)
    (hfuel : b < a + fuel) (hused : ∀ d, a ≤ d → d < b → fatAt g v d ≠ 0) {Q : Nat → Bytes → Prop}
    (h : (allocLoop g limit fuel a).total InVolume Q v) :
    g.FatInside b ∧ (fatAt g v b = 0 → Q b v) := by
  induction fuel generalizing a with
  | zero => omega
  | succ fuel ih =>
    rw [allocLoop, if_pos (by omega)] at h
    obtain ⟨hfat, h⟩ := inside_of_readFat h
    rcases Nat.eq_or_lt_of_le hab with rfl | hlt
    · refine ⟨hfat, fun hfree => ?_⟩
      rw [if_pos hfree] at h
      exact Prog.total.of_done h rfl
    · rw [if_neg (hused a (Nat.le_refl a) hlt), u16, Nat.mod_eq_of_lt (by omega)] at h
      exact ih hlt (by omega) (fun d hd => hused d (Nat.le_of_succ_le hd)) h

theorem inside_of_allocCluster (hfew : g.dataClusters + 2 ≤ 4096) (hcb : 0 < g.clusterBytes) {b : Nat}
    (hb : g.Counted b) (hused : ∀ d, 2 ≤ d → d < b → fatAt g v d ≠ 0) {Q : Nat → Bytes → Prop}
    (h : (fat12AllocCluster g).total InVolume Q v) : g.FatInside b ∧ (fatAt g v b = 0 → Q b v) := by
  obtain ⟨h2, hlt, h16⟩ := hb
  exact inside_of_allocLoop h2 hlt (Nat.le_trans hfew (by decide)) (by omega) hused (total_of_maxClusters hcb h)

/-- The volume when the last cluster is linked to `e`. -/
def linked (g : Bpb) (v : Bytes) (prev e : Nat) : Bytes := if prev ≠ 0 then writtenFat g v prev e else v

theorem linkFrom_run (g : Bpb) (v : Bytes) (prev e : Nat) :
    (linkFrom g prev e v).out = .done () ∧ (linkFrom g prev e v).state = linked g v prev e := by
  unfold linkFrom linked
  split <;> exact ⟨rfl, rfl⟩

/-- A round that takes cluster `e` stores its data there, and goes on with the entry in use. -/
theorem inside_of_writeRound (hfew : g.dataClusters + 2 ≤ 4096) (hcb : 0 < g.clusterBytes) {data : List UInt8}
    {prev written e : Nat} (he : g.Counted e) (hused : ∀ d, 2 ≤ d → d < e → fatAt g v d ≠ 0)
    (hfree : fatAt g v e = 0) (hroom : written + g.clusterBytes ≤ data.length) (hlength : data.length < 4294967296)
    {Q : Option (Nat × Nat) → Bytes → Prop} (h : (writeRound g data prev written).total InVolume Q v) :
    g.DataInside e ∧ Q (some (e, g.clusterBytes)) (writtenFat g
      ((linked g v prev e).store (g.clusterToOffset e) ((data.drop written).take g.clusterBytes)) e 0xFFF) := by
  have hchunk : (if u32 (written + g.clusterBytes) > data.length then data.length - written
      else g.clusterBytes) = g.clusterBytes := by
    rw [u32, Nat.mod_eq_of_lt (by omega)]
    exact if_neg (Nat.not_lt_of_le hroom)
  have hbytes : ((data.drop written).take g.clusterBytes).length = g.clusterBytes := by
    rw [List.length_take, List.length_drop]
    omega
  have hne : e ≠ 0 := Nat.ne_of_gt (Nat.lt_of_lt_of_le Nat.two_pos he.1)
  have h := (inside_of_allocCluster hfew hcb he hused (Prog.total_bind.mp h)).2 hfree
  rw [if_neg hne, hchunk] at h
  have h := Prog.total.of_done (Prog.total_bind.mp h) (linkFrom_run g v prev e).1
  rw [(linkFrom_run g v prev e).2] at h
  refine ⟨?_, Prog.total.of_done (total_of_writeFat (total_of_storeBytes h)) rfl⟩
  have hlog : g.clusterToOffset e + ((data.drop written).take g.clusterBytes).length ≤ diskfsSize :=
    h.log _ (Prog.mem_log_bind List.mem_cons_self)
  rwa [hbytes] at hlog

/-- A loop that has data left makes a round, and goes on with the cluster that it takes. -/
theorem total_of_writeLoop {data : List UInt8} {fuel first prev written : Nat} (hlt : written < data.length)
    {Q : Option Nat → Bytes → Prop} (h : (writeLoop g data fuel first prev written).total InVolume Q v) :
    ∃ R : Option (Nat × Nat) → Bytes → Prop, (writeRound g data prev written).total InVolume R v ∧
      ∀ e k v', R (some (e, k)) v' → ∃ fuel' first',
        (writeLoop g data fuel' first' e (u32 (written + k))).total InVolume Q v' := by
  cases fuel with
  | zero =>
    obtain ⟨r, hr, _⟩ := h.returns
    rw [writeLoop] at hr
    cases hr
  | succ n =>
    rw [writeLoop, if_pos hlt] at h
    exact ⟨_, Prog.total_bind.mp h, fun e k v' h => ⟨n, _, h⟩⟩

/-! A write comes to all that it may take where its data frees as much as it can: whatever half bytes of entries
that it has not come to lie under a cluster, it clears; and it leaves the entries that it has come to. -/

instance (g : Bpb) (c n : Nat) : Decidable (g.Covers c n) := inferInstanceAs (Decidable (_ ∧ _))

/-- The byte without the half bytes of the entries in `U`. -/
def cleared (g : Bpb) (U : Finset Nat) (v : Bytes) (k : Nat) : UInt8 :=
  UInt8.ofNat ((if 2 * (k - g.fatOffset) / 3 ∈ U then 0 else (v k).toNat % 16) +
    16 * if (2 * (k - g.fatOffset) + 1) / 3 ∈ U then 0 else (v k).toNat / 16)

theorem nibbleAt_cleared {U : Finset Nat} {v' : Bytes} {n : Nat}
    (h : v' (g.fatOffset + n / 2) = cleared g U v (g.fatOffset + n / 2)) :
    nibbleAt g v' n = if n / 3 ∈ U then 0 else nibbleAt g v n := by
  have hbyte := (v (g.fatOffset + n / 2)).toNat_lt
  unfold nibbleAt
  rw [h, cleared, UInt8.toNat_ofNat', Nat.add_sub_cancel_left]
  generalize (v (g.fatOffset + n / 2)).toNat = byte at hbyte
  have hlow : (if 2 * (n / 2) / 3 ∈ U then 0 else byte % 16) < 16 := by split <;> omega
  have hhigh : (if (2 * (n / 2) + 1) / 3 ∈ U then 0 else byte / 16) < 16 := by split <;> omega
  rcases Nat.mod_two_eq_zero_or_one n with heven | hodd
  · have hn : 2 * (n / 2) = n := by omega
    rw [hn] at hlow
    rw [if_pos heven, if_pos heven, hn]
    omega
  · have hn : 2 * (n / 2) + 1 = n := by omega
    have hne : ¬n % 2 = 0 := by omega
    rw [hn] at hhigh
    rw [if_neg hne, if_neg hne, hn]
    omega

/-- The data for a cluster. -/
def clearing (g : Bpb) (U : Finset Nat) (v : Bytes) (e : Nat) : List UInt8 :=
  (List.range g.clusterBytes).map fun i => cleared g U v (g.clusterToOffset e + i)

theorem length_clearing (g : Bpb) (U : Finset Nat) (v : Bytes) (e : Nat) :
    (clearing g U v e).length = g.clusterBytes := by
  rw [clearing, List.length_map, List.length_range]

theorem store_clearing {U : Finset Nat} {e k : Nat} (hk : g.InData e k) :
    v.store (g.clusterToOffset e) (clearing g U v e) k = cleared g U v k := by
  obtain ⟨i, rfl⟩ := Nat.exists_eq_add_of_le hk.1
  have hi : i < g.clusterBytes := Nat.lt_of_add_lt_add_left hk.2
  rw [Bytes.store_add (by rw [length_clearing]; exact hi), clearing, List.getD_eq_getElem?_getD, List.getElem?_map,
    List.getElem?_range hi]
  rfl

/-- The volume when cluster `e` has been taken. -/
def taken (g : Bpb) (U : Finset Nat) (v : Bytes) (prev e : Nat) : Bytes :=
  writtenFat g ((linked g v prev e).store (g.clusterToOffset e) (clearing g U (linked g v prev e) e)) e 0xFFF

/-- A round clears what it covers. -/
theorem nibbleAt_taken (hlin : g.FatLinear) {U : Finset Nat} {prev e c j : Nat} (he : e < 65536) (hc : c < 65536)
    (hce : c ≠ e) (hj : j < 3) : nibbleAt g (taken g U v prev e) (3 * c + j) =
      if g.Covers e (3 * c + j) ∧ c ∈ U then 0 else nibbleAt g (linked g v prev e) (3 * c + j) := by
  unfold taken
  generalize linked g v prev e = w
  rw [nibbleAt_congr hlin hc (fatAt_writtenFat_of_ne _ _ (hlin e he) (hlin c hc) hce) hj]
  have hentry : (3 * c + j) / 3 = c := by omega
  by_cases hcovers : g.Covers e (3 * c + j)
  · rw [nibbleAt_cleared (store_clearing hcovers), hentry]
    simp only [hcovers, true_and]
  · rw [if_neg fun h => hcovers h.1]
    refine nibbleAt_of_byte (Bytes.store_of_not_mem ?_)
    unfold Bpb.Covers Bpb.InData at hcovers
    rw [length_clearing]
    omega

/-- The state of such a write, when it has not come to the clusters in `U`. -/
structure Clears (g : Bpb) (v₀ v : Bytes) (U : Finset Nat) (prev : Nat) : Prop where
  counted : ∀ c ∈ U, g.Counted c
  used : ∀ c, g.Counted c → c ∉ U → fatAt g v c ≠ 0
  clear : ∀ c ∈ U, ∀ j, j < 3 → (nibbleAt g v₀ (3 * c + j) = 0 ∨
    ∃ d, g.Counted d ∧ d ∉ U ∧ g.Covers d (3 * c + j)) → nibbleAt g v (3 * c + j) = 0
  prev : prev = 0 ∨ g.Counted prev ∧ prev ∉ U

/-- A link changes the entry of a cluster that the write has come to. -/
theorem Clears.linked (hlin : g.FatLinear) {v₀ : Bytes} {U : Finset Nat} {prev : Nat} (h : Clears g v₀ v U prev)
    (e : Nat) {c : Nat} (hc : g.Counted c) (hcp : c ≠ prev) : fatAt g (linked g v prev e) c = fatAt g v c := by
  unfold Fat12.linked
  split
  · next hp =>
    have hprev := (h.prev.resolve_left hp).1
    exact fatAt_writtenFat_of_ne v e (hlin prev hprev.2.2) (hlin c hc.2.2) hcp
  · rfl

/-- What the write has come to stays in use. -/
theorem Clears.linked_used (hfew : g.dataClusters + 2 ≤ 4096) (hlin : g.FatLinear) {v₀ : Bytes} {U : Finset Nat}
    {prev e c : Nat} (h : Clears g v₀ v U prev) (he : g.Counted e) (hc : g.Counted c) (hcU : c ∉ U) :
    fatAt g (Fat12.linked g v prev e) c ≠ 0 := by
  obtain ⟨h2, hlimit, _⟩ := he
  by_cases hcp : c = prev
  · have hp : prev ≠ 0 := by
      have hc2 := hc.1
      omega
    rw [hcp, Fat12.linked, if_pos hp, fatAt_writtenFat_self]
    omega
  · rw [h.linked hlin e hc hcp]
    exact h.used c hc hcU

/-- A round takes a cluster that the write has not come to. -/
theorem Clears.taken (hfew : g.dataClusters + 2 ≤ 4096) (hlin : g.FatLinear) {v₀ : Bytes} {U : Finset Nat}
    {prev e : Nat} (h : Clears g v₀ v U prev) (he : e ∈ U) :
    Clears g v₀ (Fat12.taken g (U.erase e) v prev e) (U.erase e) e := by
  have he16 := (h.counted e he).2.2
  refine ⟨fun c hc => h.counted c (Finset.mem_of_mem_erase hc), fun c hc hout => ?_, fun c hc j hj hclear => ?_,
    .inr ⟨h.counted e he, Finset.notMem_erase e U⟩⟩
  · by_cases hce : c = e
    · rw [hce, Fat12.taken, fatAt_writtenFat_self]
      decide
    · have hcU : c ∉ U := fun hcU => hout (Finset.mem_erase.mpr ⟨hce, hcU⟩)
      intro hzero
      refine h.linked_used hfew hlin (h.counted e he) hc hcU ((fatAt_eq_zero_iff hlin _ hc.2.2).mpr fun j hj => ?_)
      have hnibble := (fatAt_eq_zero_iff hlin _ hc.2.2).mp hzero j hj
      rwa [nibbleAt_taken hlin he16 hc.2.2 hce hj, if_neg fun hin => hout hin.2] at hnibble
  · obtain ⟨hce, hcU⟩ := Finset.mem_erase.mp hc
    have hcounted := h.counted c hcU
    have hcp : c ≠ prev := by
      rintro rfl
      rcases h.prev with hzero | hprev
      · have hc2 := hcounted.1
        omega
      · exact hprev.2 hcU
    rw [nibbleAt_taken hlin he16 hcounted.2.2 hce hj,
      nibbleAt_congr hlin hcounted.2.2 (h.linked hlin e hcounted hcp) hj]
    split
    · rfl
    next hcovers =>
    refine h.clear c hcU j hj (hclear.imp_right ?_)
    rintro ⟨d, hd, hout, hdcovers⟩
    exact ⟨d, hd, fun hdU => hout (Finset.mem_erase.mpr ⟨fun hde => hcovers ⟨hde ▸ hdcovers, hc⟩, hdU⟩), hdcovers⟩

/-- A write that finds nothing free has come to all that it may take. -/
theorem Clears.all (hlin : g.FatLinear) {v₀ : Bytes} {U : Finset Nat} {prev : Nat} (h : Clears g v₀ v U prev)
    (hnone : ∀ c, g.Counted c → fatAt g v c ≠ 0) {c : Nat} (hc : Free g v₀ c) : c ∉ U := by
  have hstays : ∀ c, g.Counted c → c ∈ U → (∀ j, j < 3 → nibbleAt g v₀ (3 * c + j) = 0 ∨
      ∃ d, g.Counted d ∧ d ∉ U ∧ g.Covers d (3 * c + j)) → False := fun c hc hcU hall =>
    hnone c hc ((fatAt_eq_zero_iff hlin v hc.2.2).mpr fun j hj => h.clear c hcU j hj (hall j hj))
  induction hc with
  | free hc hfree =>
    exact fun hcU => hstays _ hc hcU fun j hj => .inl ((fatAt_eq_zero_iff hlin v₀ hc.2.2).mp hfree j hj)
  | freed _ hF => exact hF.elim
  | @overwritten c d hc hd hdata ih =>
    refine fun hcU => hstays c hc hcU fun j hj => ?_
    by_cases hzero : nibbleAt g v₀ (3 * c + j) = 0
    · exact .inl hzero
    · exact .inr ⟨d j, (hd j hj hzero).counted, ih j hj hzero, hdata j hj hzero⟩

/-- There is data with which a write comes to every FAT entry, and to every cluster that it may take. -/
theorem exists_clearing (hfew : g.dataClusters + 2 ≤ 4096) (hlin : g.FatLinear) (hcb : 0 < g.clusterBytes)
    {v₀ : Bytes} (U : Finset Nat) {prev : Nat} (hstate : Clears g v₀ v U prev) (written : Nat) :
    ∃ rest : List UInt8, 0 < rest.length ∧ rest.length ≤ U.card * g.clusterBytes + 1 ∧
      ∀ (data : List UInt8) (fuel first : Nat) (Q : Option Nat → Bytes → Prop), data.drop written = rest →
        data.length < 4294967296 → (writeLoop g data fuel first prev written).total InVolume Q v →
        (∀ c, g.Counted c → g.FatInside c) ∧ ∀ c ∈ U, Free g v₀ c → g.DataInside c := by
  induction U using Finset.strongInduction generalizing v prev written with
  | H U ih =>
    by_cases hfree : ∃ e, g.Counted e ∧ fatAt g v e = 0
    · obtain ⟨he, hfreeAt⟩ := Nat.find_spec hfree
      have hleast : ∀ d, 2 ≤ d → d < Nat.find hfree → fatAt g v d ≠ 0 := fun d hd hde hzero =>
        Nat.find_min hfree hde ⟨⟨hd, by have := he.2.1; omega, by have := he.2.2; omega⟩, hzero⟩
      generalize Nat.find hfree = e at he hfreeAt hleast
      have heU : e ∈ U := by
        by_contra hout
        exact hstate.used e he hout hfreeAt
      obtain ⟨rest, hpos, hlength, hrest⟩ := ih (U.erase e) (Finset.erase_ssubset heU)
        (hstate.taken hfew hlin heU) (written + g.clusterBytes)
      have hcard : (U.erase e).card + 1 = U.card := Finset.card_erase_add_one heU
      have hchunk := length_clearing g (U.erase e) (linked g v prev e) e
      refine ⟨clearing g (U.erase e) (linked g v prev e) e ++ rest, ?_, ?_,
        fun data fuel first Q hdrop hdata h => ?_⟩
      · rw [List.length_append]
        omega
      · rw [List.length_append, hchunk, ← hcard, Nat.succ_mul]
        omega
      have hlen := congrArg List.length hdrop
      rw [List.length_drop, List.length_append, hchunk] at hlen
      obtain ⟨R, hround, hnext⟩ := total_of_writeLoop (by omega) h
      have hround := inside_of_writeRound hfew hcb he hleast hfreeAt (by omega) hdata hround
      rw [hdrop, List.take_left' hchunk] at hround
      obtain ⟨fuel', first', h'⟩ := hnext e g.clusterBytes _ hround.2
      rw [u32, Nat.mod_eq_of_lt (by omega)] at h'
      have hdrop' : data.drop (written + g.clusterBytes) = rest := by
        rw [← List.drop_drop, hdrop, List.drop_left' hchunk]
      obtain ⟨hfat, hinside⟩ := hrest data fuel' first' Q hdrop' hdata h'
      refine ⟨hfat, fun c hc htake => ?_⟩
      by_cases hce : c = e
      · exact hce ▸ hround.1
      · exact hinside c (Finset.mem_erase.mpr ⟨hce, hc⟩) htake
    · have hnone : ∀ c, g.Counted c → fatAt g v c ≠ 0 := fun c hc hzero => hfree ⟨c, hc, hzero⟩
      refine ⟨[0], Nat.one_pos, Nat.le_add_left 1 _, fun data fuel first Q hdrop _ h => ?_⟩
      refine ⟨fun c hc => ?_, fun c hc htake => absurd hc (hstate.all hlin hnone htake)⟩
      have hlt : written < data.length := by
        have hlen := congrArg List.length hdrop
        rw [List.length_drop, List.length_singleton] at hlen
        omega
      obtain ⟨R, hround, _⟩ := total_of_writeLoop hlt h
      have halloc : (fat12AllocCluster g).total InVolume _ v := Prog.total_bind.mp hround
      refine (inside_of_allocCluster hfew hcb hc (fun d hd hdc => ?_) halloc).1
      exact hnone d ⟨hd, by have := hc.2.1; omega, by have := hc.2.2; omega⟩

/-- What a write may take before it frees a chain is what it may take when the chain is free. -/
theorem Takeable.free_of_freed (hlin : g.FatLinear) {F : Nat → Prop} {v₁ : Bytes}
    (hkept : ∀ e, e < 65536 → fatAt g v₁ e = fatAt g v e ∨ fatAt g v₁ e = 0)
    (hF : ∀ c, F c → fatAt g v₁ c = 0) {c : Nat} (h : Takeable g v F c) : Free g v₁ c := by
  induction h with
  | free hc hfree => exact .free hc ((hkept _ hc.2.2).elim (fun hsame => hsame.trans hfree) id)
  | freed hc hfreed => exact .free hc (hF _ hfreed)
  | @overwritten c d hc _ hdata ih =>
    have hne : ∀ j, j < 3 → nibbleAt g v₁ (3 * c + j) ≠ 0 → nibbleAt g v (3 * c + j) ≠ 0 := by
      intro j hj hne
      rcases hkept c hc.2.2 with hsame | hzero
      · rwa [← nibbleAt_congr hlin hc.2.2 hsame hj]
      · exact absurd ((fatAt_eq_zero_iff hlin v₁ hc.2.2).mp hzero j hj) hne
    exact .overwritten d hc (fun j hj h => ih j hj (hne j hj h)) fun j hj h => hdata j hj (hne j hj h)

end Fills

section Converse

variable {v : Bytes} (hbps : v.word16 11 = 512) (h : Robust v)

include hbps h

/-- Whatever a write to a name frees, there is data with which it comes to every FAT entry, and to every cluster that
it may take by then. -/
theorem Robust.written (hfew : (bpbOf v).dataClusters + 2 ≤ 4096) {name : CString} {r : Option Nat}
    (hfinds : (findEntry (bpbOf v) (nameTo83 name) (bpbOf v).rootEntryCount 0 v).out = .done r) :
    (∀ c, (bpbOf v).Counted c → (bpbOf v).FatInside c) ∧
      ∀ c, Free (bpbOf v) (freeExisting (bpbOf v) r v).state c → (bpbOf v).DataInside c := by
  have hmem : ∀ c, (bpbOf v).Counted c →
      c ∈ (Finset.range ((bpbOf v).dataClusters + 2)).filter (2 ≤ ·) := fun c hc =>
    Finset.mem_filter.mpr ⟨Finset.mem_range.mpr hc.2.1, hc.1⟩
  have hstart : Clears (bpbOf v) (freeExisting (bpbOf v) r v).state (freeExisting (bpbOf v) r v).state
      ((Finset.range ((bpbOf v).dataClusters + 2)).filter (2 ≤ ·)) 0 := by
    refine ⟨fun c hc => ?_, fun c hc hout => absurd (hmem c hc) hout, fun c _ j _ hclear => ?_, .inl rfl⟩
    · obtain ⟨hlt, h2⟩ := Finset.mem_filter.mp hc
      have hlt := Finset.mem_range.mp hlt
      exact ⟨h2, hlt, by omega⟩
    · exact hclear.elim id fun ⟨d, hd, hout, _⟩ => absurd (hmem d hd) hout
  obtain ⟨data, _, hlength, hdata⟩ := exists_clearing hfew (fun _ => fatEntryOffset_eq hbps)
    (h.clusterBytes_pos hbps) _ hstart 0
  have hcard := Finset.card_filter_le (Finset.range ((bpbOf v).dataClusters + 2)) (2 ≤ ·)
  rw [Finset.card_range] at hcard
  have hle := Nat.mul_le_mul (Nat.le_trans hcard hfew) (clusterBytes_lt hbps)
  have hwrite := total_of_find hfinds (Prog.total_bind.mp (h (.write name data)
    (show data.length + 1048576 ≤ 4294967296 by omega)))
  obtain ⟨_, hfreed, _⟩ := (Prog.total_bind.mp hwrite).returns
  have hwrite := Prog.total.of_done (Prog.total_bind.mp hwrite) hfreed
  obtain ⟨hfat, hinside⟩ := hdata data _ 0 _ List.drop_zero (by omega) (Prog.total_bind.mp hwrite)
  exact ⟨hfat, fun c hc => hinside c (hmem c hc.counted) hc⟩

/-- On such a geometry, a safe image is mountable. -/
theorem Robust.mountable (hg : Plain v) : Mountable v where
  cluster := h.cluster
  dir := fun i hi => h.dir hbps hi
  slot := fun i hi hused => by
    rcases hg.dir with hinside | huntouched
    · exact hinside i hi
    · exact h.dir hbps hi fun k hk => ((hused k hk).resolve_right (huntouched k (by omega))).1
  chain := fun name i hfinds => h.chain hbps hfinds
  fat := by
    obtain ⟨r, hr⟩ := h.finds aName
    exact (h.written hbps hg.few hr).1
  data := fun F hF c hc => by
    have hlin : (bpbOf v).FatLinear := fun _ => fatEntryOffset_eq hbps
    cases hF with
    | nothing =>
      obtain ⟨r, hr⟩ := h.finds aName
      exact (h.written hbps hg.few hr).2 c (hc.free_of_freed hlin (fun _ => h.freed hbps hr) fun _ => False.elim)
    | chain hfinds =>
      exact (h.written hbps hg.few hfinds).2 c (hc.free_of_freed hlin (fun _ => h.freed hbps hfinds)
        fun _ he => (h.freesChain hbps hfinds he).2)
  ends := fun F hF => .inl (by
    have hfew := hg.few
    omega)

end Converse

theorem mount_robust_of_mountable (v : Bytes) (hvalid : Diskfs.bpbValid v = true) :
    (fat12Init v).out = .done (bpbOf v) ∧ (Mountable v → Robust v) ∧
      (Plain v → Robust v → Mountable v) ∧
      (Robust v → 0 < (bpbOf v).sectorsPerCluster ∧
        (∀ i, i < (bpbOf v).rootEntryCount → (∀ k, k < i → v ((bpbOf v).direntOffset k) ≠ 0) →
          (bpbOf v).DirInside i) ∧
        ∀ name i, Finds (bpbOf v) v name i →
          ChainInside (bpbOf v) v (entryAt (bpbOf v) v i).size (bpbOf v).dataClusters 0
            (entryAt (bpbOf v) v i).first) := by
  have hbps : v.word16 11 = 512 := (Diskfs.bpbValid_iff.mp hvalid).2
  refine ⟨fat12Init_out (by rw [hbps]; decide), fun hm => hm.robust hbps, fun hg h => h.mountable hbps hg, fun h => ?_⟩
  exact ⟨h.cluster, fun i hi => h.dir hbps hi, fun name i hfinds => h.chain hbps hfinds⟩

/-! ## The volume of `format_volume` -/

section Format

theorem format_fatEntryOffset {c : Nat} (hc : c < 65536) : Diskfs.bpb.fatEntryOffset c = 512 + (c + c / 2) := by
  have hfat : Diskfs.bpb.fatOffset = 512 := by decide
  rw [Bpb.fatEntryOffset, hfat, u32, Nat.mod_eq_of_lt (by omega)]

theorem format_clusterToOffset {c : Nat} (h2 : 2 ≤ c) (hc : c < 65536) :
    Diskfs.bpb.clusterToOffset c = 4096 + (c - 2) * 512 := by
  have hdata : Diskfs.bpb.dataStartOffset = 4096 := by decide
  have hcb : Diskfs.bpb.clusterBytes = 512 := by decide
  rw [Bpb.clusterToOffset_eq _ h2, hdata, hcb, u32, Nat.mod_eq_of_lt (by omega)]

theorem format_counted {c : Nat} (hc : Diskfs.bpb.Counted c) : 2 ≤ c ∧ c < 2042 := by
  have hclusters : Diskfs.bpb.dataClusters = 2040 := by decide
  obtain ⟨h2, hlt, _⟩ := hc
  rw [hclusters] at hlt
  exact ⟨h2, hlt⟩

theorem format_dirInside {i : Nat} (hi : i < 64) : Diskfs.bpb.DirInside i := by
  have hroot : Diskfs.bpb.rootDirOffset = 2048 := by decide
  have hsize : diskfsSize = 1048576 := rfl
  rw [Bpb.DirInside, Bpb.direntOffset, hroot, u32]
  omega

/-- Whatever the FAT and the directory of such a volume hold. -/
theorem plain_of_format {v : Bytes} (hbpb : bpbOf v = Diskfs.bpb) : Plain v := by
  refine ⟨?_, .inl fun i hi => ?_⟩ <;> rw [hbpb] at *
  · decide
  · exact format_dirInside hi

/-- An empty volume is mountable. -/
theorem mountable_format : Mountable (Diskfs.formatVolume Bytes.zeros) := by
  have hbpb : bpbOf (Diskfs.formatVolume Bytes.zeros) = Diskfs.bpb := Diskfs.bpbOf_format _
  have hempty : ∀ name, (findEntry Diskfs.bpb (nameTo83 name) 64 0
      (Diskfs.formatVolume Bytes.zeros)).out = .done none := fun name => rfl
  have hsize : diskfsSize = 1048576 := rfl
  refine ⟨?_, fun i hi _ => ?_, fun i hi _ => ?_, fun name i hi => ?_, fun c hc => ?_, fun F _ c hc => ?_,
    fun F _ => .inl ?_⟩ <;> rw [hbpb] at *
  · decide
  · exact format_dirInside hi
  · exact format_dirInside hi
  · have hi : (findEntry Diskfs.bpb (nameTo83 name) 64 0
      (Diskfs.formatVolume Bytes.zeros)).out = .done (some i) := hi
    rw [hempty] at hi
    cases hi
  · have hc := format_counted hc
    rw [Bpb.FatInside, format_fatEntryOffset (by omega)]
    omega
  · have hcb : Diskfs.bpb.clusterBytes = 512 := by decide
    have hc := format_counted hc.counted
    rw [Bpb.DataInside, format_clusterToOffset hc.1 (by omega), hcb]
    omega
  · decide

end Format

theorem mount_robust_of_mountable_format :
    Robust (Diskfs.formatVolume Bytes.zeros) ∧ Mountable (Diskfs.formatVolume Bytes.zeros) := by
  have hm := mount_robust_of_mountable (Diskfs.formatVolume Bytes.zeros) (Diskfs.bpbValid_format Bytes.zeros)
  have hrobust := hm.2.1 mountable_format
  exact ⟨hrobust, hm.2.2.1 (plain_of_format (Diskfs.bpbOf_format Bytes.zeros)) hrobust⟩

/-- `bpb_valid` accepts an image with no sectors per cluster, and a write divides by zero. -/
theorem mount_not_robust :
    Diskfs.bpbValid ((Diskfs.formatVolume Bytes.zeros).store 13 [0]) = true ∧
      (fat12WriteFile (bpbOf ((Diskfs.formatVolume Bytes.zeros).store 13 [0])) aName [0]
        ((Diskfs.formatVolume Bytes.zeros).store 13 [0])).out = .halt .divideError := by
  decide

end RainbowOs.Fat12
