import Mathlib.Tactic.Common
import Mathlib.Logic.Function.Basic
import Mathlib.Data.List.Basic

/-!
# Linked allocation tables

A table `next : Nat → Nat` links cells into chains: `next c` is the cell
after `c`, a value satisfying `stop` ends the chain, and `0` marks a free
cell. `Chain next stop c l` says that the chain entered at `c` visits
exactly `l`. Three operations act on such a table:

- `clear` frees a list of cells;
- `freeCells` is what a first-fit allocator sees, in its order;
- `grow` appends cells one at a time, linking each to the one before it
  and marking it as the end, which is how a writer that allocates as it
  goes extends a chain.

The laws say that the operations respect each other: chains away from the
touched cells survive, a grown chain is a chain, and growing takes its
cells off the free list and nothing else.
-/

namespace RainbowOs.Lib.Linked

/-- The chain entered at `c` visits exactly the listed cells. -/
inductive Chain (next : Nat → Nat) (stop : Nat → Prop) : Nat → List Nat → Prop
  | nil {c : Nat} : stop c → Chain next stop c []
  | cons {c : Nat} {l : List Nat} : Chain next stop (next c) l → Chain next stop c (c :: l)

variable {next next' : Nat → Nat} {stop : Nat → Prop} {c d lo n : Nat} {l l' : List Nat}

/-- The head of a non-empty chain is its entry. -/
theorem Chain.head_eq (h : Chain next stop c (d :: l)) : d = c := by
  cases h
  rfl

theorem Chain.tail (h : Chain next stop c (d :: l)) : Chain next stop (next d) l := by
  cases h
  assumption

/-- A chain depends only on the links of its own cells. -/
theorem Chain.congr (h : Chain next stop c l) (heq : ∀ d ∈ l, next d = next' d) :
    Chain next' stop c l := by
  induction h with
  | nil hs => exact .nil hs
  | @cons c l _ ih =>
    have hc : next c = next' c := heq c List.mem_cons_self
    exact .cons (hc ▸ ih fun d hd => heq d (List.mem_cons_of_mem _ hd))

/-- Two chains entered at one cell are the same chain. -/
theorem Chain.unique (h : Chain next stop c l) (h' : Chain next stop c l')
    (hl : ∀ d ∈ l, ¬ stop d) (hl' : ∀ d ∈ l', ¬ stop d) : l = l' := by
  induction h generalizing l' with
  | @nil c hs =>
    cases h' with
    | nil _ => rfl
    | cons _ => exact absurd hs (hl' c List.mem_cons_self)
  | @cons c l _ ih =>
    cases h' with
    | nil hs => exact absurd hs (hl c List.mem_cons_self)
    | cons ht =>
      rw [ih ht (fun d hd => hl d (List.mem_cons_of_mem _ hd))
        (fun d hd => hl' d (List.mem_cons_of_mem _ hd))]

/-- Every suffix of a chain is a chain entered at its own head. -/
theorem Chain.suffix (h : Chain next stop c l) :
    ∀ {d : Nat}, d ∈ l → ∃ l₂, l₂.length ≤ l.length ∧ (d :: l₂) <:+ l ∧ Chain next stop d (d :: l₂) := by
  induction h with
  | nil _ => intro d hd; exact absurd hd List.not_mem_nil
  | @cons c l ht ih =>
    intro d hd
    rcases List.mem_cons.mp hd with rfl | hd
    · exact ⟨l, by simp only [List.length_cons]; omega, List.suffix_refl _, .cons ht⟩
    · obtain ⟨l₂, hlen, hsuf, hch⟩ := ih hd
      exact ⟨l₂, by simp only [List.length_cons]; omega, hsuf.trans (List.suffix_cons c l), hch⟩

/-- A chain that ends visits no cell twice: a repeat would send the walk round
for ever. -/
theorem Chain.nodup (h : Chain next stop c l) (hl : ∀ d ∈ l, ¬ stop d) : l.Nodup := by
  induction h with
  | nil _ => exact List.nodup_nil
  | @cons c l ht ih =>
    have hl' : ∀ d ∈ l, ¬ stop d := fun d hd => hl d (List.mem_cons_of_mem _ hd)
    refine List.nodup_cons.mpr ⟨fun hc => ?_, ih hl'⟩
    obtain ⟨l₂, _, hsuf, hch⟩ := ht.suffix hc
    have hsub : ∀ d ∈ c :: l₂, ¬ stop d := fun d hd => hl' d (hsuf.subset hd)
    have heq : c :: l₂ = c :: l := hch.unique (.cons ht) hsub hl
    have hlen := hsuf.length_le
    rw [heq, List.length_cons] at hlen
    omega

/-! ## Walking a chain -/

/-- The cells a walk from `c` meets in at most `fuel` steps. -/
def follow (next : Nat → Nat) (stop : Nat → Bool) : Nat → Nat → List Nat
  | 0, _ => []
  | fuel + 1, c => if stop c then [] else c :: follow next stop fuel (next c)

/-- With fuel for its length, the walk is the chain. -/
theorem Chain.follow_eq {stop : Nat → Bool} (h : Chain next (fun c => stop c = true) c l)
    (hl : ∀ d ∈ l, stop d = false) {fuel : Nat} (hf : l.length ≤ fuel) :
    follow next stop fuel c = l := by
  induction h generalizing fuel with
  | nil hs =>
    cases fuel with
    | zero => rfl
    | succ k => simp only [follow, hs, if_true]
  | @cons c l _ ih =>
    cases fuel with
    | zero => simp only [List.length_cons] at hf; omega
    | succ k =>
      have hc : stop c = false := hl c List.mem_cons_self
      simp only [List.length_cons] at hf
      simp only [follow, hc, Bool.false_eq_true, if_false]
      rw [ih (fun d hd => hl d (List.mem_cons_of_mem _ hd)) (by omega)]

/-! ## Freeing -/

/-- Free the listed cells. -/
def clear (next : Nat → Nat) (l : List Nat) : Nat → Nat := fun d => if d ∈ l then 0 else next d

@[simp] theorem clear_nil (next : Nat → Nat) : clear next [] = next := by
  funext d
  simp only [clear, List.not_mem_nil, if_false]

theorem clear_of_mem (h : d ∈ l) : clear next l d = 0 := if_pos h

theorem clear_of_not_mem (h : d ∉ l) : clear next l d = next d := if_neg h

theorem clear_cons (next : Nat → Nat) (c : Nat) (l : List Nat) :
    clear next (c :: l) = clear (Function.update next c 0) l := by
  funext d
  by_cases hd : d ∈ l
  · rw [clear_of_mem hd, clear_of_mem (List.mem_cons_of_mem _ hd)]
  · by_cases hc : d = c
    · rw [clear_of_not_mem hd, hc, Function.update_self, clear_of_mem List.mem_cons_self]
    · rw [clear_of_not_mem hd, Function.update_of_ne hc,
        clear_of_not_mem (fun h => (List.mem_cons.mp h).elim hc hd)]

/-! ## First fit -/

/-- The free cells of `[lo, n)`, in the order a first-fit search meets them. -/
def freeCells (next : Nat → Nat) (lo n : Nat) : List Nat :=
  (List.range' lo (n - lo)).filter fun c => next c == 0

theorem mem_freeCells : c ∈ freeCells next lo n ↔ lo ≤ c ∧ c < n ∧ next c = 0 := by
  simp only [freeCells, List.mem_filter, List.mem_range'_1, beq_iff_eq]
  omega

/-- The search looks at one cell and goes on. -/
theorem freeCells_step (h : lo < n) :
    freeCells next lo n =
      if next lo = 0 then lo :: freeCells next (lo + 1) n else freeCells next (lo + 1) n := by
  have hlen : n - lo = n - (lo + 1) + 1 := by omega
  unfold freeCells
  rw [hlen, List.range'_succ]
  by_cases hz : next lo = 0
  · have hkeep : (next lo == 0) = true := beq_iff_eq.mpr hz
    simp only [if_pos hz, List.filter_cons, hkeep, if_true]
  · have hdrop : (next lo == 0) = false := beq_eq_false_iff_ne.mpr hz
    simp only [if_neg hz, List.filter_cons, hdrop, Bool.false_eq_true, if_false]

theorem freeCells_of_le (h : n ≤ lo) : freeCells next lo n = [] := by
  rw [freeCells, Nat.sub_eq_zero_of_le h, List.range'_zero, List.filter_nil]

theorem freeCells_sorted (next : Nat → Nat) (lo n : Nat) :
    (freeCells next lo n).Pairwise (· < ·) :=
  (List.pairwise_lt_range' (n := n - lo)).filter _

theorem freeCells_nodup (next : Nat → Nat) (lo n : Nat) : (freeCells next lo n).Nodup :=
  (freeCells_sorted next lo n).imp fun h => Nat.ne_of_lt h

/-- With nothing free, every cell is in use. -/
theorem ne_zero_of_freeCells_nil (h : freeCells next lo n = []) (hlo : lo ≤ d) (hd : d < n) :
    next d ≠ 0 := fun hz =>
  absurd (h ▸ mem_freeCells.mpr ⟨hlo, hd, hz⟩ : d ∈ ([] : List Nat)) List.not_mem_nil

/-- Tables with the same zeros have the same free list. -/
theorem freeCells_congr (h : ∀ d, lo ≤ d → d < n → (next d = 0 ↔ next' d = 0)) :
    freeCells next lo n = freeCells next' lo n := by
  refine List.filter_congr fun d hd => ?_
  rw [List.mem_range'_1] at hd
  rw [Bool.eq_iff_iff, beq_iff_eq, beq_iff_eq]
  exact h d hd.1 (by omega)

/-- Using the first free cell takes it off the free list. -/
theorem freeCells_update (h : freeCells next lo n = c :: l) {v : Nat} (hv : v ≠ 0) :
    freeCells (Function.update next c v) lo n = l := by
  have hnd := h ▸ freeCells_nodup next lo n
  have hstep : freeCells (Function.update next c v) lo n =
      (freeCells next lo n).filter fun d => d != c := by
    simp only [freeCells, List.filter_filter]
    refine List.filter_congr fun d _ => ?_
    by_cases hd : d = c
    · subst hd
      simp only [Function.update_self, bne_self_eq_false, Bool.false_and, beq_eq_false_iff_ne]
      exact hv
    · have hne : (d != c) = true := bne_iff_ne.mpr hd
      simp only [Function.update_of_ne hd, hne, Bool.true_and]
  rw [hstep, h, List.filter_cons_of_neg (by simp only [bne_self_eq_false, Bool.false_eq_true,
    not_false_eq_true]), List.filter_eq_self]
  intro d hd
  exact bne_iff_ne.mpr fun hdc => (List.nodup_cons.mp hnd).1 (hdc ▸ hd)

/-! ## Growing a chain -/

/-- Append cells to the chain that ends at `prev` (`0` for none): each is
linked from the one before it and becomes the marked end. -/
def grow (mark : Nat) : (Nat → Nat) → Nat → List Nat → (Nat → Nat)
  | next, _, [] => next
  | next, prev, c :: cs =>
    grow mark (Function.update (if prev = 0 then next else Function.update next prev c) c mark) c cs

variable {mark prev : Nat}

/-- Growing touches only the last cell and the new ones. -/
theorem grow_of_not_mem (hd : d ∉ l) (hp : d ≠ prev) : grow mark next prev l d = next d := by
  induction l generalizing next prev with
  | nil => rfl
  | cons c cs ih =>
    have hc : d ≠ c := fun h => hd (h ▸ List.mem_cons_self)
    rw [grow, ih (fun h => hd (List.mem_cons_of_mem _ h)) hc, Function.update_of_ne hc]
    split
    · rfl
    · exact Function.update_of_ne hp _ _

/-- Growing from nothing touches only the new cells. -/
theorem grow_zero_of_not_mem (hd : d ∉ l) : grow mark next 0 l d = next d := by
  cases l with
  | nil => rfl
  | cons c cs =>
    have hc : d ≠ c := fun h => hd (h ▸ List.mem_cons_self)
    rw [grow, grow_of_not_mem (fun h => hd (List.mem_cons_of_mem _ h)) hc, if_pos rfl,
      Function.update_of_ne hc]

/-- A grown chain runs from its old end through the new cells. -/
theorem grow_chain (hm : stop mark) (hp : prev ≠ 0) (hz : 0 ∉ l) (hnd : (prev :: l).Nodup)
    (hend : next prev = mark) : Chain (grow mark next prev l) stop prev (prev :: l) := by
  induction l generalizing next prev with
  | nil => exact .cons (.nil (hend ▸ hm))
  | cons c cs ih =>
    have hc0 : c ≠ 0 := fun h => hz (h ▸ List.mem_cons_self)
    obtain ⟨hpc, hnd'⟩ := List.nodup_cons.mp hnd
    have hne : prev ≠ c := fun h => hpc (h ▸ List.mem_cons_self)
    have htail : Chain (grow mark (Function.update (Function.update next prev c) c mark) c cs)
        stop c (c :: cs) :=
      ih hc0 (fun h => hz (List.mem_cons_of_mem _ h)) hnd' (Function.update_self ..)
    have hlink : grow mark next prev (c :: cs) prev = c := by
      rw [grow, if_neg hp, grow_of_not_mem (fun h => hpc (List.mem_cons_of_mem _ h)) hne,
        Function.update_of_ne hne, Function.update_self]
    refine .cons ?_
    rw [hlink, grow, if_neg hp]
    exact htail

/-- A chain grown from nothing is a chain of exactly the new cells. -/
theorem grow_zero_chain (hm : stop mark) (hz : 0 ∉ c :: l) (hnd : (c :: l).Nodup) :
    Chain (grow mark next 0 (c :: l)) stop c (c :: l) := by
  rw [grow, if_pos rfl]
  exact grow_chain hm (fun h => hz (h ▸ List.mem_cons_self))
    (fun h => hz (List.mem_cons_of_mem _ h)) hnd (Function.update_self ..)

/-- Growing by the first `k` free cells leaves the rest of the free list. -/
theorem freeCells_grow {F : List Nat} (hF : freeCells next lo n = F) (hlo : 0 < lo)
    (hm : mark ≠ 0) (hp : prev = 0 ∨ next prev ≠ 0) (k : Nat) :
    freeCells (grow mark next prev (F.take k)) lo n = F.drop k := by
  induction k generalizing next prev F with
  | zero => simpa only [List.take_zero, List.drop_zero, grow] using hF
  | succ k ih =>
    cases F with
    | nil => simpa only [List.take_nil, List.drop_nil, grow] using hF
    | cons c F =>
      have hc := (mem_freeCells.mp (hF ▸ List.mem_cons_self : c ∈ freeCells next lo n))
      have hc0 : c ≠ 0 := by omega
      rw [List.take_succ_cons, List.drop_succ_cons, grow]
      refine ih ?_ (Or.inr (by rw [Function.update_self]; exact hm))
      split
      · exact freeCells_update hF hm
      · next hp0 =>
        have hpn : next prev ≠ 0 := hp.resolve_left hp0
        refine freeCells_update (l := F) ?_ hm
        rw [← hF]
        refine freeCells_congr fun d _ _ => ?_
        by_cases hd : d = prev
        · subst hd
          rw [Function.update_self]
          exact ⟨fun h => absurd h hc0, fun h => absurd h hpn⟩
        · rw [Function.update_of_ne hd]

end RainbowOs.Lib.Linked
