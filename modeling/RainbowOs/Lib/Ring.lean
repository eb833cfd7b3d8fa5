import Mathlib.Logic.Function.Basic
import Mathlib.Tactic.Common

/-!
# Ring buffers

`n` slots in a circle. `ahead` reads slots from an index on, `behind` reads
them backwards from the slot before it. A queue is what lies ahead of its
tail; a log that is walked both ways has its past behind its top and its
future ahead of it.
-/

namespace RainbowOs.Lib.Ring

variable {α : Type} (n : Nat) (slots : Nat → α)

/-- The index after. -/
def next (i : Nat) : Nat := (i + 1) % n

/-- The index before. -/
def prev (i : Nat) : Nat := (i + n - 1) % n

/-- The next `k` slots from an index on. -/
def ahead : (i k : Nat) → List α
  | _, 0 => []
  | i, k + 1 => slots i :: ahead (next n i) k

/-- The last `k` slots before an index, the nearest one first. -/
def behind : (i k : Nat) → List α
  | _, 0 => []
  | i, k + 1 => slots (prev n i) :: behind (prev n i) k

variable {n : Nat} {slots : Nat → α} {i j k : Nat} {x : α}

@[simp] theorem length_ahead : (ahead n slots i k).length = k := by
  induction k generalizing i with
  | zero => rfl
  | succ k ih => rw [ahead, List.length_cons, ih]

@[simp] theorem length_behind : (behind n slots i k).length = k := by
  induction k generalizing i with
  | zero => rfl
  | succ k ih => rw [behind, List.length_cons, ih]

theorem next_lt (hn : 0 < n) (i : Nat) : next n i < n := Nat.mod_lt _ hn

theorem prev_lt (hn : 0 < n) (i : Nat) : prev n i < n := Nat.mod_lt _ hn

theorem prev_next (hi : i < n) : prev n (next n i) = i := by
  unfold prev next
  rcases Nat.lt_or_ge (i + 1) n with h | h
  · rw [Nat.mod_eq_of_lt h, show i + 1 + n - 1 = i + n by omega, Nat.add_mod_right,
      Nat.mod_eq_of_lt hi]
  · obtain rfl : n = i + 1 := by omega
    rw [Nat.mod_self, Nat.zero_add, Nat.add_sub_cancel, Nat.mod_eq_of_lt hi]

theorem next_prev (hi : i < n) : next n (prev n i) = i := by
  unfold prev next
  cases i with
  | zero =>
    rw [Nat.zero_add, Nat.mod_eq_of_lt (Nat.sub_one_lt_of_lt hi), Nat.sub_add_cancel hi, Nat.mod_self]
  | succ i =>
    rw [show i + 1 + n - 1 = i + n by omega, Nat.add_mod_right,
      Nat.mod_eq_of_lt (Nat.lt_of_succ_lt hi), Nat.mod_eq_of_lt hi]

/-- An index so many steps on. -/
def index (n i k : Nat) : Nat := (i + k) % n

theorem index_zero (hi : i < n) : index n i 0 = i := Nat.mod_eq_of_lt hi

theorem index_next (i k : Nat) : index n (next n i) k = index n i (k + 1) := by
  rw [index, next, index, Nat.mod_add_mod, Nat.add_assoc, Nat.add_comm 1 k]

theorem next_index (i k : Nat) : next n (index n i k) = index n i (k + 1) := by
  rw [index, next, index, Nat.mod_add_mod, Nat.add_assoc]

/-- Indices at different distances are different, within one round. -/
theorem index_ne (hj : j < k) (hk : k < n) : index n i j ≠ index n i k := by
  unfold index
  intro h
  have hdvd : n ∣ (i + k) - (i + j) := Nat.dvd_of_mod_eq_zero (Nat.sub_mod_eq_zero_of_mod_eq h.symm)
  have := Nat.le_of_dvd (by omega) hdvd
  omega

/-- One slot more is one at the end. -/
theorem ahead_snoc (hi : i < n) (k : Nat) :
    ahead n slots i (k + 1) = ahead n slots i k ++ [slots (index n i k)] := by
  induction k generalizing i with
  | zero => rw [index_zero hi, ahead, ahead, ahead, List.nil_append]
  | succ k ih =>
    have hn := Nat.zero_lt_of_lt hi
    rw [ahead, ih (next_lt hn i), ahead, index_next, List.cons_append]

/-- A slot that is not read can be written. -/
theorem ahead_update (hi : i < n) (hkj : k ≤ j) (hj : j < n) :
    ahead n (Function.update slots (index n i j) x) i k = ahead n slots i k := by
  induction k with
  | zero => rfl
  | succ k ih =>
    rw [ahead_snoc hi, ahead_snoc hi, ih (Nat.le_of_succ_le hkj),
      Function.update_of_ne (index_ne hkj hj)]

/-- So many steps back. -/
def indexBack (n i k : Nat) : Nat := (i + n - k) % n

theorem indexBack_prev (hi : i < n) (hk : k < n) :
    indexBack n (prev n i) k = indexBack n i (k + 1) := by
  unfold indexBack prev
  cases i with
  | zero =>
    rw [Nat.zero_add, Nat.mod_eq_of_lt (Nat.sub_one_lt_of_lt hi),
      show n - 1 + n - k = n - (k + 1) + n by omega, Nat.add_mod_right]
  | succ i =>
    rw [show i + 1 + n - 1 = i + n by omega, Nat.add_mod_right,
      Nat.mod_eq_of_lt (Nat.lt_of_succ_lt hi), show i + 1 + n - (k + 1) = i + n - k by omega]

theorem behind_snoc (hi : i < n) (hk : k < n) :
    behind n slots i (k + 1) = behind n slots i k ++ [slots (indexBack n i (k + 1))] := by
  induction k generalizing i with
  | zero => rfl
  | succ k ih =>
    have hn := Nat.zero_lt_of_lt hi
    rw [behind, ih (prev_lt hn i) (Nat.lt_of_succ_lt hk), behind, indexBack_prev hi hk,
      List.cons_append]

/-- What is behind an index is not in its slot. -/
theorem behind_update (hi : i < n) (hk : k < n) :
    behind n (Function.update slots i x) i k = behind n slots i k := by
  induction k with
  | zero => rfl
  | succ k ih =>
    have hne : indexBack n i (k + 1) ≠ i := by
      unfold indexBack
      rcases Nat.lt_or_ge i (k + 1) with h | h
      · rw [Nat.mod_eq_of_lt (by omega)]
        omega
      · rw [show i + n - (k + 1) = i - (k + 1) + n by omega, Nat.add_mod_right,
          Nat.mod_eq_of_lt (by omega)]
        omega
    rw [behind_snoc hi (Nat.lt_of_succ_lt hk), behind_snoc hi (Nat.lt_of_succ_lt hk),
      ih (Nat.lt_of_succ_lt hk), Function.update_of_ne hne]

/-- A step ahead leaves the slot behind. -/
theorem behind_next (hi : i < n) (k : Nat) :
    behind n slots (next n i) (k + 1) = slots i :: behind n slots i k := by
  rw [behind, prev_next hi]

/-- A step back has the slot ahead. -/
theorem ahead_prev (hi : i < n) (k : Nat) :
    ahead n slots (prev n i) (k + 1) = slots (prev n i) :: ahead n slots i k := by
  rw [ahead, next_prev hi]

/-- What is behind, up to fewer slots. -/
theorem take_behind {m : Nat} (h : m ≤ k) :
    (behind n slots i k).take m = behind n slots i m := by
  induction m generalizing i k with
  | zero => rfl
  | succ m ih =>
    obtain ⟨k, rfl⟩ := Nat.exists_eq_add_of_le' (Nat.zero_lt_of_lt h)
    rw [behind, behind, List.take_succ_cons, ih (Nat.le_of_succ_le_succ h)]

end RainbowOs.Lib.Ring
