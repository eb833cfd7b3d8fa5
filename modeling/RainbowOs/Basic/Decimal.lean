import Mathlib.Data.Nat.Digits.Lemmas
import RainbowOs.Basic.Listing

/-!
# Numbers in decimal

Four loops write a number: they take the sign off and divide by ten while
the rest is positive. The most negative number stays negative without its
sign, so it is written as a sign alone; every other number is written as its
numeral, and read back.
-/

namespace RainbowOs.Basic

open RainbowOs.Lib

/-- `int_to_str` of `tokenizer.c` -/
def intToStr (val : Int) : List UInt8 := i32ToStr val

/-- `print_dec` of `kernel/cc/runtime.c`, by what it prints. -/
def printDec (val : Int) : List UInt8 :=
  let sign := if val < 0 then [45] else []
  let val := if val < 0 then i32 (-val) else val
  sign ++ (if val = 0 then [48] else (digitsRev 12 val.toNat).reverse)

/-- The decimal numeral of a number: its digits from the first one that is not zero on. -/
def numeral (v : Int) : List UInt8 :=
  (if v < 0 then [45] else []) ++
    if v = 0 then [48] else (Nat.digits 10 v.natAbs).reverse.map fun d => UInt8.ofNat (48 + d)

/-- The loop writes the digits of a number. -/
theorem digitsRev_eq {n v : Nat} (h : v < 10 ^ n) :
    digitsRev n v = (Nat.digits 10 v).map fun d => UInt8.ofNat (48 + d) := by
  induction n generalizing v with
  | zero =>
    obtain rfl : v = 0 := by simpa using h
    rfl
  | succ n ih =>
    rw [digitsRev]
    split
    · next hzero =>
      subst hzero
      rfl
    · next hpos =>
      have hdiv : v / 10 < 10 ^ n := by
        rw [Nat.div_lt_iff_lt_mul (by decide)]
        exact h
      rw [Nat.digits_def' (by decide) (Nat.pos_of_ne_zero hpos), List.map_cons, ih hdiv]

/-- It writes no more than ten of them. -/
theorem length_digitsRev {n v k : Nat} (h : v < 10 ^ k) : (digitsRev n v).length ≤ k := by
  induction n generalizing v k with
  | zero => exact Nat.zero_le k
  | succ n ih =>
    rw [digitsRev]
    split
    · exact Nat.zero_le k
    · next hpos =>
      cases k with
      | zero => omega
      | succ k =>
        have hdiv : v / 10 < 10 ^ k := by
          rw [Nat.div_lt_iff_lt_mul (by decide)]
          exact h
        exact Nat.succ_le_succ (ih hdiv)

variable {v : Int}

/-- What is written of a number, once its sign is off. -/
theorem digitsRev_natAbs (h : -2147483648 < v ∧ v < 2147483648) (hv : v ≠ 0) :
    (if v < 0 then [45] else []) ++
      (digitsRev 12 (if v < 0 then i32 (-v) else v).toNat).reverse = numeral v := by
  have habs : (if v < 0 then i32 (-v) else v).toNat = v.natAbs := by
    split
    · rw [i32_eq (by omega)]
      omega
    · omega
  have hlt : v.natAbs < 10 ^ 12 := by omega
  rw [habs, digitsRev_eq hlt, numeral, if_neg hv, List.map_reverse]

theorem i32ToStr_eq_numeral (h : -2147483648 < v ∧ v < 2147483648) : i32ToStr v = numeral v := by
  by_cases hzero : v = 0
  · subst hzero
    rfl
  · rw [← digitsRev_natAbs h hzero, i32ToStr, if_neg hzero]
    split
    · rfl
    · rfl

theorem printDec_eq_numeral (h : -2147483648 < v ∧ v < 2147483648) : printDec v = numeral v := by
  by_cases hzero : v = 0
  · subst hzero
    rfl
  · have hrest : (if v < 0 then i32 (-v) else v) ≠ 0 := by
      split
      · rw [i32_eq (by omega)]
        omega
      · exact hzero
    rw [← digitsRev_natAbs h hzero, printDec]
    simp only [if_neg hrest]

/-- A text in the twelve bytes that each function has for it. -/
theorem length_i32ToStr (h : -2147483648 ≤ v ∧ v < 2147483648) : (i32ToStr v).length + 1 ≤ 12 := by
  have hten : ∀ n : Nat, n < 2147483648 → (digitsRev 12 n).length ≤ 10 := fun n hn =>
    length_digitsRev (by omega)
  unfold i32ToStr
  split
  · decide
  · split
    · have hlen := hten (i32 (-v)).toNat (by unfold i32; omega)
      rw [List.length_cons, List.length_reverse]
      omega
    · have hlen := hten v.toNat (by omega)
      rw [List.length_reverse]
      omega

/-- A text that begins with a digit is read from its start. -/
theorem strToI32_digits {s : List UInt8} (h : isDigit (s.headD 0) = true) : strToI32 s = digitsVal 0 s := by
  cases s with
  | nil => cases h
  | cons c s =>
    have hblank : c ≠ 32 := by
      rintro rfl
      cases h
    have hminus : c ≠ 45 := by
      rintro rfl
      cases h
    rw [strToI32, List.dropWhile_cons_of_neg (by simpa using hblank)]
    split
    · next heq => exact absurd (List.cons.inj heq).1 hminus
    · rfl

/-- `str_to_i32` reads what `i32_to_str` has written. -/
theorem strToI32_i32ToStr (h : -2147483648 < v ∧ v < 2147483648) : strToI32 (i32ToStr v) = v := by
  have hnonneg : ∀ u : Int, 0 ≤ u → u < 2147483648 → digitsVal 0 (i32ToStr u) = u := fun u hu hlt => by
    have hparse := parseNumber_i32ToStr hu hlt (t := []) rfl
    rwa [List.append_nil] at hparse
  by_cases hneg : v < 0
  · have hwritten : i32ToStr v = 45 :: i32ToStr (-v) := by
      rw [i32ToStr, if_neg (by omega), if_pos hneg, i32_eq (by omega), i32ToStr, if_neg (by omega),
        if_neg (by omega)]
    rw [hwritten, strToI32, List.dropWhile_cons_of_neg (by decide)]
    show i32 (-digitsVal 0 (i32ToStr (-v))) = v
    rw [hnonneg (-v) (by omega) (by omega), Int.neg_neg, i32_eq (by omega)]
  · have hdigits := i32ToStr_digits (Int.not_lt.mp hneg)
    have hfirst : isDigit ((i32ToStr v).headD 0) = true := by
      cases hs : i32ToStr v with
      | nil =>
        have hread := hnonneg v (by omega) h.2
        rw [hs] at hread
        have hzero : v = 0 := hread.symm
        rw [hzero] at hs
        cases hs
      | cons c s => exact hdigits c (hs ▸ List.mem_cons_self)
    rw [strToI32_digits hfirst, hnonneg v (by omega) h.2]

/-- The three ways to write a number write its numeral, in the twelve bytes they have, and it is
read back as the number, just where it is not the most negative one. -/
theorem decimal_faithful_iff (h : -2147483648 ≤ v ∧ v < 2147483648) :
    printDec v = numeral v ∧ i32ToStr v = numeral v ∧ intToStr v = numeral v ∧
      (numeral v).length + 1 ≤ 12 ∧ strToI32 (i32ToStr v) = v ↔ v ≠ -2147483648 := by
  constructor
  · rintro ⟨-, -, -, -, hread⟩ rfl
    have hlost : strToI32 (i32ToStr (-2147483648)) = 0 := by decide
    rw [hlost] at hread
    cases hread
  · intro hne
    have hrange : -2147483648 < v ∧ v < 2147483648 := ⟨lt_of_le_of_ne h.1 hne.symm, h.2⟩
    have hwritten := i32ToStr_eq_numeral hrange
    have hlen := length_i32ToStr h
    rw [hwritten] at hlen
    exact ⟨printDec_eq_numeral hrange, hwritten, hwritten, hlen, strToI32_i32ToStr hrange⟩

theorem decimal_faithful_iff_small :
    printDec (-40) = numeral (-40) ∧ i32ToStr (-40) = numeral (-40) ∧ intToStr (-40) = numeral (-40) ∧
      (numeral (-40)).length + 1 ≤ 12 ∧ strToI32 (i32ToStr (-40)) = -40 ↔ (-40 : Int) ≠ -2147483648 :=
  decimal_faithful_iff (by decide)

/-- The most negative number is written as a sign, by each of the functions. -/
theorem least_not_faithful : ¬∀ v : Int, -2147483648 ≤ v ∧ v < 2147483648 →
    printDec v = numeral v ∧ i32ToStr v = numeral v ∧ intToStr v = numeral v ∧
      (numeral v).length + 1 ≤ 12 ∧ strToI32 (i32ToStr v) = v := by
  intro hclaim
  obtain ⟨-, -, -, -, hread⟩ := hclaim (-2147483648) (by decide)
  have hlost : strToI32 (i32ToStr (-2147483648)) = 0 := by decide
  rw [hlost] at hread
  cases hread

end RainbowOs.Basic
