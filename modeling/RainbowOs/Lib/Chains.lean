import Mathlib.Data.List.Basic
import Mathlib.Data.List.Perm.Subperm
import RainbowOs.Lib.Linked

/-!
# Families of chains

Several chains in one table: `Family next stop lo n S head cells` says that
each index in `S` enters the table at `head i`, that its chain visits
`cells i`, that every link of it points upwards within `[lo, n)`, and that
no two chains meet. Pointing upwards does the work of acyclicity and of
"no cell of a chain is free" at once, and it is what a first-fit allocator
keeps: it hands cells out in rising order.

The laws follow a table through its operations: freeing one chain keeps the
others, growing a chain from free cells keeps all of them, and an index may
be given any chain that stays apart from the rest.
-/

namespace RainbowOs.Lib.Linked

variable {ι : Type} {next : Nat → Nat} {stop : Nat → Prop} {lo n mark : Nat}

/-- Rising chains that do not meet. -/
structure Family (next : Nat → Nat) (stop : Nat → Prop) (lo n : Nat) (S : ι → Prop)
    (head : ι → Nat) (cells : ι → List Nat) : Prop where
  chain : ∀ i, S i → Chain next stop (head i) (cells i)
  rising : ∀ i, S i → ∀ c ∈ cells i, lo ≤ c ∧ c < n ∧ c < next c
  apart : ∀ i j, S i → S j → i ≠ j → (cells i).Disjoint (cells j)

/-! ## Rising chains -/

/-- A chain whose links point upwards is sorted. -/
theorem Chain.sorted {c : Nat} {l : List Nat} (h : Chain next stop c l)
    (hup : ∀ d ∈ l, d < next d) : l.Pairwise (· < ·) := by
  induction h with
  | nil _ => exact List.Pairwise.nil
  | @cons c l ht ih =>
    have hsorted := ih fun d hd => hup d (List.mem_cons_of_mem _ hd)
    refine List.pairwise_cons.mpr ⟨fun d hd => ?_, hsorted⟩
    cases l with
    | nil => exact absurd hd List.not_mem_nil
    | cons e l =>
      have hce : c < e := ht.head_eq ▸ hup c List.mem_cons_self
      rcases List.mem_cons.mp hd with rfl | hd
      · exact hce
      · exact Nat.lt_trans hce ((List.pairwise_cons.mp hsorted).1 d hd)

/-- Growing by sorted cells makes links that point upwards. -/
theorem grow_rising {prev : Nat} {l : List Nat} (hs : (prev :: l).Pairwise (· < ·))
    (hm : ∀ c ∈ prev :: l, c < mark) (hp : prev ≠ 0) (hend : next prev = mark) :
    ∀ c ∈ prev :: l, c < grow mark next prev l c := by
  induction l generalizing next prev with
  | nil =>
    intro c hc
    obtain rfl := List.mem_singleton.mp hc
    rw [grow, hend]
    exact hm c List.mem_cons_self
  | cons d l ih =>
    obtain ⟨hpd, hs'⟩ := List.pairwise_cons.mp hs
    have hlt : prev < d := hpd d List.mem_cons_self
    intro c hc
    rw [grow, if_neg hp]
    rcases List.mem_cons.mp hc with rfl | hc
    · have hnot : c ∉ l := fun h => Nat.lt_irrefl _ (hpd c (List.mem_cons_of_mem _ h))
      rw [grow_of_not_mem hnot (Nat.ne_of_lt hlt), Function.update_of_ne (Nat.ne_of_lt hlt),
        Function.update_self]
      exact hlt
    · exact ih hs' (fun e he => hm e (List.mem_cons_of_mem _ he)) (by omega)
        (Function.update_self ..) c hc

theorem grow_zero_rising (next : Nat → Nat) {l : List Nat} (hs : l.Pairwise (· < ·)) (hm : ∀ c ∈ l, c < mark)
    (hz : 0 ∉ l) : ∀ c ∈ l, c < grow mark next 0 l c := by
  cases l with
  | nil => intro c hc; exact absurd hc List.not_mem_nil
  | cons d l =>
    rw [grow, if_pos rfl]
    exact grow_rising hs hm (fun h => hz (h ▸ List.mem_cons_self)) (Function.update_self ..)

/-- The chain grown from a sorted list of cells, empty lists included. -/
theorem grow_headD_chain {l : List Nat} (h0 : stop 0) (hm : stop mark) (hz : 0 ∉ l)
    (hnd : l.Nodup) : Chain (grow mark next 0 l) stop (l.headD 0) l := by
  cases l with
  | nil => exact .nil h0
  | cons d l => exact grow_zero_chain hm hz hnd

/-- Two sorted lists with the same members are the same list. -/
theorem eq_of_sorted_of_mem {l l' : List Nat} (hs : l.Pairwise (· < ·))
    (hs' : l'.Pairwise (· < ·)) (h : ∀ c, c ∈ l ↔ c ∈ l') : l = l' := by
  have hnd : l.Nodup := hs.imp fun h => Nat.ne_of_lt h
  have hnd' : l'.Nodup := hs'.imp fun h => Nat.ne_of_lt h
  have hperm : l.Perm l' := (List.perm_ext_iff_of_nodup hnd hnd').mpr h
  exact hperm.eq_of_pairwise (fun a b _ _ hab hba => absurd hab (Nat.lt_asymm hba)) hs hs'

/-- What is free after a chain is freed. -/
theorem mem_freeCells_clear {l : List Nat} {c : Nat} (hl : ∀ d ∈ l, lo ≤ d ∧ d < n) :
    c ∈ freeCells (clear next l) lo n ↔ c ∈ l ∨ c ∈ freeCells next lo n := by
  rw [mem_freeCells, mem_freeCells]
  by_cases hc : c ∈ l
  · rw [clear_of_mem hc]
    exact ⟨fun _ => Or.inl hc, fun _ => ⟨(hl c hc).1, (hl c hc).2, rfl⟩⟩
  · rw [clear_of_not_mem hc]
    exact ⟨Or.inr, fun h => h.resolve_left hc⟩

/-! ## Operations on a family -/

namespace Family

variable {S S' : ι → Prop} {head head' : ι → Nat} {cells cells' : ι → List Nat}

theorem mono (h : Family next stop lo n S head cells) (hS : ∀ i, S' i → S i) :
    Family next stop lo n S' head cells where
  chain i hi := h.chain i (hS i hi)
  rising i hi := h.rising i (hS i hi)
  apart i j hi hj := h.apart i j (hS i hi) (hS j hj)

/-- A family depends on its own heads and cells only. -/
theorem congr (h : Family next stop lo n S head cells) (hhead : ∀ i, S i → head' i = head i)
    (hcells : ∀ i, S i → cells' i = cells i) : Family next stop lo n S head' cells' where
  chain i hi := by rw [hhead i hi, hcells i hi]; exact h.chain i hi
  rising i hi := by rw [hcells i hi]; exact h.rising i hi
  apart i j hi hj hij := by rw [hcells i hi, hcells j hj]; exact h.apart i j hi hj hij

/-- And on the links of its own cells only. -/
theorem congr_next (h : Family next stop lo n S head cells) {next' : Nat → Nat}
    (hnext : ∀ i, S i → ∀ c ∈ cells i, next c = next' c) :
    Family next' stop lo n S head cells where
  chain i hi := (h.chain i hi).congr (hnext i hi)
  rising i hi c hc := hnext i hi c hc ▸ h.rising i hi c hc
  apart := h.apart

/-- No cell of a family is free. -/
theorem not_free (h : Family next stop lo n S head cells) {i : ι} (hi : S i) {c : Nat}
    (hc : c ∈ cells i) : c ∉ freeCells next lo n := by
  intro hfree
  have hup := (h.rising i hi c hc).2.2
  rw [(mem_freeCells.mp hfree).2.2] at hup
  exact Nat.not_lt_zero _ hup

/-- Freeing one chain keeps the others. -/
theorem clear (h : Family next stop lo n S head cells) {i : ι} (hi : S i) :
    Family (clear next (cells i)) stop lo n (fun j => S j ∧ j ≠ i) head cells := by
  have hsub : Family next stop lo n (fun j => S j ∧ j ≠ i) head cells := h.mono fun j hj => hj.1
  refine hsub.congr_next fun j hj c hc => ?_
  exact (clear_of_not_mem fun hci => h.apart j i hj.1 hi hj.2 hc hci).symm

/-- Growing a chain from free cells keeps all of them. -/
theorem grow (h : Family next stop lo n S head cells) {l : List Nat}
    (hl : ∀ c ∈ l, c ∈ freeCells next lo n) :
    Family (grow mark next 0 l) stop lo n S head cells :=
  h.congr_next fun _ hi _ hc => (grow_zero_of_not_mem fun hcl => h.not_free hi hc (hl _ hcl)).symm

/-- Give one index a chain that stays apart from the rest. -/
theorem add [DecidableEq ι] (h : Family next stop lo n S head cells) (S' : ι → Prop) {i : ι}
    {c : Nat} {l : List Nat} (hch : Chain next stop c l) (hl : ∀ d ∈ l, lo ≤ d ∧ d < n ∧ d < next d)
    (hdis : ∀ j, S j → j ≠ i → (cells j).Disjoint l) (hS : ∀ j, S' j → j ≠ i → S j) :
    Family next stop lo n S' (Function.update head i c) (Function.update cells i l) := by
  refine ⟨fun j hj => ?_, fun j hj => ?_, fun j k hj hk hjk => ?_⟩
  · by_cases hji : j = i
    · subst hji
      rw [Function.update_self, Function.update_self]
      exact hch
    · rw [Function.update_of_ne hji, Function.update_of_ne hji]
      exact h.chain j (hS j hj hji)
  · by_cases hji : j = i
    · subst hji
      rw [Function.update_self]
      exact hl
    · rw [Function.update_of_ne hji]
      exact h.rising j (hS j hj hji)
  · by_cases hji : j = i
    · subst hji
      have hkj : k ≠ j := fun h => hjk h.symm
      rw [Function.update_self, Function.update_of_ne hkj]
      exact fun _ hl hc => hdis k (hS k hk hkj) hkj hc hl
    · rw [Function.update_of_ne hji]
      by_cases hki : k = i
      · subst hki
        rw [Function.update_self]
        exact hdis j (hS j hj hji) hji
      · rw [Function.update_of_ne hki]
        exact h.apart j k (hS j hj hji) (hS k hk hki) hjk

end Family

end RainbowOs.Lib.Linked
