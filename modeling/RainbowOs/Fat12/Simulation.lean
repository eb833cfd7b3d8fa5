import Mathlib.Data.List.Perm.Subperm
import RainbowOs.Fat12.Tables

/-!
# The driver on bytes follows the driver on tables

One law for each function of the driver: on bytes that mean some tables,
the call returns what the table operation returns, leaves bytes that mean
the tables it leaves, and every access on the way lies in the region its
site belongs to. The laws are total: under a layout nothing divides by
zero and every loop ends.

Two things are asked of the tables. A chain to be freed or read must stay
among the layout's cells, and a search for a free cluster must either find
one there or end there: past the last cell of a layout that is not `Full`,
`fat12_alloc_cluster` would go on reading.
-/

namespace RainbowOs.Fat12

open RainbowOs.Lib RainbowOs.Lib.Linked

/-- Where a layout has the accesses of each site. -/
def Inside (L : Layout) (a : Access) : Prop :=
  match a.site with
  | .bpb => False
  | .dir => L.bpb.rootDirOffset ≤ a.off ∧
      a.off + a.len ≤ L.bpb.rootDirOffset + 32 * L.bpb.rootEntryCount
  | .alloc | .chain | .writeFat => L.bpb.fatOffset ≤ a.off ∧ a.off + a.len ≤ L.bpb.rootDirOffset
  | .data => L.bpb.dataStartOffset ≤ a.off ∧
      a.off + a.len ≤ L.bpb.dataStartOffset + (L.cells - 2) * L.bpb.clusterBytes

/-- A layout with a FAT entry for every cluster. -/
def Layout.Full (L : Layout) : Prop := L.cells = L.bpb.dataClusters + 2

/-- Entry `i` owns the chain `l`, which stays among the cells. -/
structure Tables.Owns (t : Tables) (N i : Nat) (l : List Nat) : Prop where
  chain : Chain t.fat (fun c => stops c = true) (t.ent i).first l
  cells : ∀ c ∈ l, 2 ≤ c ∧ c < N

theorem stops_eq_false {c : Nat} (h2 : 2 ≤ c) (hm : c < 0xFF8) : stops c = false := by
  unfold stops
  rw [decide_eq_false (by omega), decide_eq_false (by omega), Bool.or_false]

theorem stops_eq_true_iff {c : Nat} : stops c = true ↔ ¬ (2 ≤ c ∧ c < 0xFF8) := by
  unfold stops
  rw [Bool.or_eq_true, decide_eq_true_iff, decide_eq_true_iff]
  omega

/-- Distinct cells below `N` are fewer than `N`. -/
theorem length_le_of_cells {N : Nat} {l : List Nat} (hnd : l.Nodup)
    (hl : ∀ c ∈ l, 2 ≤ c ∧ c < N) : l.length ≤ N - 2 := by
  have hsub : l ⊆ List.range' 2 (N - 2) := fun c hc =>
    List.mem_range'_1.mpr ⟨(hl c hc).1, by have := hl c hc; omega⟩
  have hle := (hnd.subperm hsub).length_le
  rwa [List.length_range'] at hle

namespace Tables.Owns

variable {t : Tables} {N i : Nat} {l : List Nat}

theorem not_stops (h : t.Owns N i l) (hN : N ≤ 0xFF8) : ∀ c ∈ l, stops c = false := fun c hc =>
  stops_eq_false (h.cells c hc).1 (Nat.lt_of_lt_of_le (h.cells c hc).2 hN)

theorem nodup (h : t.Owns N i l) (hN : N ≤ 0xFF8) : l.Nodup :=
  h.chain.nodup fun c hc => by rw [h.not_stops hN c hc]; exact Bool.false_ne_true

theorem length_le (h : t.Owns N i l) (hN : N ≤ 0xFF8) : l.length ≤ N - 2 :=
  length_le_of_cells (h.nodup hN) h.cells

/-- The owned chain is the one a walk finds. -/
theorem cellsOf_eq (h : t.Owns N i l) (hN : N ≤ 0xFF8) : t.cellsOf N i = l :=
  h.chain.follow_eq (h.not_stops hN) (Nat.le_trans (h.length_le hN) (Nat.sub_le N 2))

end Tables.Owns

/-! ## Primitive accesses -/

section Primitive

variable {P : Access → Prop} {site : Site} {off n : Nat} {v : Bytes} {H : Fault → Bytes → Prop}

theorem wp_loadByte {Q : UInt8 → Bytes → Prop} (hP : P ⟨site, off, 1⟩) (h : Q (v off) v) :
    (loadByte site off).wp P Q H v :=
  Prog.wp_bind.mpr (Prog.wp_tell hP (Prog.wp_bind.mpr (Prog.wp_get (Prog.wp_pure h))))

theorem wp_loadBytes {Q : List UInt8 → Bytes → Prop} (hP : P ⟨site, off, n⟩)
    (h : Q (v.slice off n) v) : (loadBytes site off n).wp P Q H v :=
  Prog.wp_bind.mpr (Prog.wp_tell hP (Prog.wp_bind.mpr (Prog.wp_get (Prog.wp_pure h))))

theorem wp_read16 {Q : Nat → Bytes → Prop} (hP : P ⟨site, off, 2⟩) (h : Q (v.word16 off) v) :
    (read16 site off).wp P Q H v :=
  Prog.wp_bind.mpr (Prog.wp_tell hP (Prog.wp_bind.mpr (Prog.wp_get (Prog.wp_pure h))))

theorem wp_read32 {Q : Nat → Bytes → Prop} (hP : P ⟨site, off, 4⟩) (h : Q (v.word32 off) v) :
    (read32 site off).wp P Q H v :=
  Prog.wp_bind.mpr (Prog.wp_tell hP (Prog.wp_bind.mpr (Prog.wp_get (Prog.wp_pure h))))

theorem wp_storeBytes {Q : Unit → Bytes → Prop} {bs : List UInt8}
    (hP : P ⟨site, off, bs.length⟩) (h : Q () (v.store off bs)) :
    (storeBytes site off bs).wp P Q H v :=
  Prog.wp_bind.mpr (Prog.wp_tell hP (Prog.wp_modify h))

theorem total_loadByte {Q : UInt8 → Bytes → Prop} (hP : P ⟨site, off, 1⟩) (h : Q (v off) v) :
    (loadByte site off).total P Q v := wp_loadByte hP h

theorem total_loadBytes {Q : List UInt8 → Bytes → Prop} (hP : P ⟨site, off, n⟩)
    (h : Q (v.slice off n) v) : (loadBytes site off n).total P Q v := wp_loadBytes hP h

theorem total_read16 {Q : Nat → Bytes → Prop} (hP : P ⟨site, off, 2⟩) (h : Q (v.word16 off) v) :
    (read16 site off).total P Q v := wp_read16 hP h

theorem total_read32 {Q : Nat → Bytes → Prop} (hP : P ⟨site, off, 4⟩) (h : Q (v.word32 off) v) :
    (read32 site off).total P Q v := wp_read32 hP h

theorem total_storeBytes {Q : Unit → Bytes → Prop} {bs : List UInt8}
    (hP : P ⟨site, off, bs.length⟩) (h : Q () (v.store off bs)) :
    (storeBytes site off bs).total P Q v := wp_storeBytes hP h

/-- `fat12_init` reads the BPB fields and stops when it would divide by zero. -/
theorem wp_fat12Init (v : Bytes) :
    fat12Init.wp (fun a => a.site = .bpb ∧ a.off + a.len ≤ 24)
      (fun g v' => v.word16 11 ≠ 0 ∧ g = bpbOf v ∧ v' = v)
      (fun e v' => v.word16 11 = 0 ∧ e = .divideError ∧ v' = v) v := by
  have hin : ∀ off n, off + n ≤ 24 → Site.bpb = .bpb ∧ off + n ≤ 24 := fun _ _ h => ⟨rfl, h⟩
  unfold fat12Init
  refine Prog.wp_bind.mpr (wp_read16 (hin 11 2 (by decide)) ?_)
  refine Prog.wp_bind.mpr (wp_loadByte (hin 13 1 (by decide)) ?_)
  refine Prog.wp_bind.mpr (wp_read16 (hin 14 2 (by decide)) ?_)
  refine Prog.wp_bind.mpr (wp_loadByte (hin 16 1 (by decide)) ?_)
  refine Prog.wp_bind.mpr (wp_read16 (hin 17 2 (by decide)) ?_)
  refine Prog.wp_bind.mpr (wp_read16 (hin 19 2 (by decide)) ?_)
  refine Prog.wp_bind.mpr (wp_read16 (hin 22 2 (by decide)) ?_)
  by_cases h : v.word16 11 = 0
  · rw [if_pos h]
    exact Prog.wp_halt ⟨h, rfl, rfl⟩
  · rw [if_neg h]
    exact Prog.wp_pure ⟨h, rfl, rfl⟩

theorem fat12Init_out (h : v.word16 11 ≠ 0) : (fat12Init v).out = .done (bpbOf v) := by
  have hout := (wp_fat12Init v).2
  cases hv : (fat12Init v).out with
  | done g =>
    rw [hv] at hout
    rw [hout.2.1]
  | halt e =>
    rw [hv] at hout
    exact absurd hout.1 h

end Primitive

/-! ## FAT entries -/

section Fat

variable {L : Layout} {t : Tables} {v : Bytes}

theorem inside_fat {c : Nat} (hc : c < L.cells) {k n : Nat} (hk : k + n ≤ 2) {site : Site}
    (hsite : site = .alloc ∨ site = .chain ∨ site = .writeFat) :
    Inside L ⟨site, L.bpb.fatEntryOffset c + k, n⟩ := by
  have hoff := L.fatEntryOffset_eq hc
  rcases hsite with rfl | rfl | rfl <;> exact ⟨by simp only; omega, by simp only; omega⟩

theorem total_readFat (h : Shows L v t) {c : Nat} (hc : c < L.cells) {site : Site}
    (hsite : site = .alloc ∨ site = .chain) {Q : Nat → Bytes → Prop} (hQ : Q (t.fat c) v) :
    (fat12ReadFat L.bpb site c).total (Inside L) Q v := by
  have hin := inside_fat hc (k := 0) (n := 2) (by omega)
    (hsite.elim Or.inl fun h => Or.inr (Or.inl h))
  refine Prog.total_bind.mpr (total_read16 hin (Prog.total_pure ?_))
  rw [← h.fat c hc] at hQ
  exact hQ

theorem total_writeFat (h : Shows L v t) {c : Nat} (hc : c < L.cells) (value : Nat) :
    (fat12WriteFat L.bpb c value).total (Inside L)
      (fun _ v' => Shows L v' { t with fat := Function.update t.fat c (value % 4096) }) v := by
  have hin : ∀ k n, k + n ≤ 2 → Inside L ⟨.writeFat, L.bpb.fatEntryOffset c + k, n⟩ :=
    fun k n hk => inside_fat hc hk (Or.inr (Or.inr rfl))
  refine Prog.total_bind.mpr (total_loadByte (hin 0 1 (by omega)) ?_)
  refine Prog.total_bind.mpr (total_loadByte (hin 1 1 (by omega)) ?_)
  refine total_storeBytes ?_ (h.writeFat hc value)
  rw [length_packFat]
  exact hin 0 2 (by omega)

theorem total_maxClusters (L : Layout) {P : Access → Prop} {Q : Nat → Bytes → Prop}
    (hQ : Q L.bpb.dataClusters v) : (maxClusters L.bpb).total P Q v := by
  have hpos := L.clusterBytes_pos
  unfold maxClusters
  rw [if_neg (by omega)]
  exact Prog.total_pure hQ

/-- Freeing a chain clears exactly its cells. -/
theorem total_freeChainLoop (h : Shows L v t) {l : List Nat} {n c : Nat}
    (hch : Chain t.fat (fun c => stops c = true) c l) (hl : ∀ d ∈ l, 2 ≤ d ∧ d < L.cells)
    (hnd : l.Nodup) (hn : l.length ≤ n) :
    (freeChainLoop L.bpb n c).total (Inside L)
      (fun _ v' => Shows L v' { t with fat := clear t.fat l }) v := by
  have hmark := L.cells_le_mark
  induction l generalizing n c v t with
  | nil =>
    rw [clear_nil]
    cases n with
    | zero => exact Prog.total_pure h
    | succ n =>
      cases hch with
      | nil hstop =>
        rw [freeChainLoop, if_neg (stops_eq_true_iff.mp hstop)]
        exact Prog.total_pure h
  | cons d l ih =>
    obtain rfl := hch.head_eq
    obtain ⟨hd2, hd⟩ := hl d List.mem_cons_self
    obtain ⟨hdl, hnd'⟩ := List.nodup_cons.mp hnd
    cases n with
    | zero => exact absurd hn (by simp only [List.length_cons]; omega)
    | succ n =>
      rw [freeChainLoop, if_pos ⟨hd2, by omega⟩]
      refine Prog.total_bind.mpr (total_readFat h hd (Or.inr rfl) ?_)
      refine Prog.total_seq (total_writeFat h hd 0x000) fun _ v' h' => ?_
      have htail : Chain (Function.update t.fat d 0) (fun c => stops c = true) (t.fat d) l :=
        hch.tail.congr fun e he =>
          (Function.update_of_ne (fun hed : e = d => hdl (hed ▸ he)) _ _).symm
      rw [clear_cons]
      exact ih h' htail (fun e he => hl e (List.mem_cons_of_mem _ he)) hnd'
        (by simp only [List.length_cons] at hn; omega)

theorem total_freeFrom (h : Shows L v t) {i : Nat} {l : List Nat} (hown : t.Owns L.cells i l) :
    (freeFrom L.bpb (t.ent i).first).total (Inside L)
      (fun _ v' => Shows L v' { t with fat := clear t.fat l }) v := by
  have hmark := L.cells_le_mark
  unfold freeFrom
  split
  · have hlen := hown.length_le hmark
    have hlimit := L.cells_le_limit
    exact Prog.total_bind.mpr (total_maxClusters L (total_freeChainLoop h hown.chain hown.cells
      (hown.nodup hmark) (by omega)))
  · next hfirst =>
    have hnil : l = [] := by
      cases l with
      | nil => rfl
      | cons d l =>
        exact absurd (hown.chain.head_eq ▸ (hown.cells d List.mem_cons_self).1) hfirst
    rw [hnil, clear_nil]
    exact Prog.total_pure h

/-- First fit, as far as the layout's cells go. -/
theorem total_allocLoop (h : Shows L v t) (hroom : freeCells t.fat 2 L.cells ≠ [] ∨ L.Full)
    {fuel c : Nat} (h2 : 2 ≤ c) (hc : c ≤ L.cells) (hfuel : L.cells - c < fuel)
    (hused : freeCells t.fat 2 L.cells = freeCells t.fat c L.cells) :
    (allocLoop L.bpb (L.bpb.dataClusters + 2) fuel c).total (Inside L)
      (fun r v' => r = (freeCells t.fat 2 L.cells).headD 0 ∧ v' = v) v := by
  have hmark := L.cells_le_mark
  have hlimit := L.cells_le_limit
  induction fuel generalizing c with
  | zero => omega
  | succ fuel ih =>
    rw [allocLoop]
    by_cases hlt : c < L.cells
    · rw [if_pos (by omega)]
      refine Prog.total_bind.mpr (total_readFat h hlt (Or.inl rfl) ?_)
      rw [freeCells_step hlt] at hused
      by_cases hz : t.fat c = 0
      · rw [if_pos hz]
        rw [if_pos hz] at hused
        refine Prog.total_pure ⟨?_, rfl⟩
        rw [hused, List.headD_cons]
      · rw [if_neg hz]
        rw [if_neg hz] at hused
        have hstep : u16 (c + 1) = c + 1 := Nat.mod_eq_of_lt (by omega)
        rw [hstep]
        exact ih (by omega) (by omega) (by omega) hused
    · have hnil : freeCells t.fat 2 L.cells = [] := by
        rw [hused]
        exact freeCells_of_le (by omega)
      have hfull : L.cells = L.bpb.dataClusters + 2 := hroom.resolve_left fun hne => hne hnil
      rw [if_neg (by omega), hnil]
      exact Prog.total_pure ⟨rfl, rfl⟩

theorem total_allocCluster (h : Shows L v t)
    (hroom : freeCells t.fat 2 L.cells ≠ [] ∨ L.Full) :
    (fat12AllocCluster L.bpb).total (Inside L)
      (fun r v' => r = (freeCells t.fat 2 L.cells).headD 0 ∧ v' = v) v := by
  have hmark := L.cells_le_mark
  exact Prog.total_bind.mpr (total_maxClusters L
    (total_allocLoop h hroom (Nat.le_refl 2) L.two_le_cells (by omega) rfl))

end Fat

end RainbowOs.Fat12
