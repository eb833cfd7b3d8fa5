import RainbowOs.Cc.Regions
import RainbowOs.Lib.Edits

/-!
# The identifiers that macros replace

Of a source without directives but `#define`, the preprocessor is to replace
each identifier that is the name of a macro, and no part of a longer word or
of a number. It reads a word through a window of 31 characters and knows no
numbers, so that it replaces more: pieces of identifiers that are longer
than the window, and what follows the `0` of a hexadecimal number.

A source is cut into lines with a directive, runs of identifier characters,
and the rest, which is kept. In a run the rounds of `preprocess` read words;
the numbers and identifiers there are those of the lexer.
-/

namespace RainbowOs.Cc

open RainbowOs.Lib
open Scan (Round Reads)
open Edit (olds news)

/-! ## Sources -/

/-- A part of a source: a line from its `#` on, with its newline if it has one; a run of identifier
characters; or a literal or another character. -/
inductive Segment where
  | line (l ending : List UInt8)
  | run (r : List UInt8)
  | plain (s : List UInt8)
  deriving DecidableEq, Repr

/-- The parts of a source. -/
def segments : Nat → List UInt8 → List Segment
  | _, [] => []
  | 0, _ :: _ => []
  | n + 1, c :: s =>
    if c = chr '#' then
      .line (s.takeWhile (· ≠ 10)) ((skipLine s).take 1) :: segments n ((skipLine s).drop 1)
    else if c = chr '"' ∨ c = chr '\'' then
      .plain (c :: (readLiteral c s).1) :: segments n (readLiteral c s).2
    else if isIdentChar c then .run (c :: s.takeWhile isIdentChar) :: segments n (s.dropWhile isIdentChar)
    else .plain [c] :: segments n s

/-- The parts of a whole source. -/
def segmentsOf (source : List UInt8) : List Segment := segments source.length source

/-- A line with a `#define` of an identifier, of at most 31 characters. -/
def IsDefine (l : List UInt8) : Prop :=
  (readDirective l).1 = word "define" ∧ (∃ c ∈ (macroName (readDirective l).2).head?, isIdentStart c) ∧
    (macroName (readDirective l).2).length ≤ macroNameMax

/-- The macro that a line defines. -/
def defined (l : List UInt8) : Macro := ⟨macroName (readDirective l).2, macroValue (readDirective l).2⟩

/-- The definitions of a source, the latest first. -/
def definitions (defs : List Macro) : List Segment → List Macro
  | [] => defs
  | .line l _ :: segs => definitions (defined l :: defs) segs
  | _ :: segs => definitions defs segs

/-- A source whose directives are definitions, of at most 64 names. -/
structure DefinesOnly (source : List UInt8) : Prop where
  lines : ∀ l ending, Segment.line l ending ∈ segmentsOf source → IsDefine l
  room : (names (definitions [] (segmentsOf source))).length ≤ maxMacros

/-! ## What is to be replaced -/

/-- How many characters at the start of a run are a number. -/
def numberLength : List UInt8 → Nat
  | z :: x :: digits =>
    if z = chr '0' ∧ (x = chr 'x' ∨ x = chr 'X') then 2 + (digits.takeWhile isHex).length
    else ((z :: x :: digits).takeWhile isDigit).length
  | r => (r.takeWhile isDigit).length

/-- The identifier of a run, after its number. -/
def identOf (r : List UInt8) : List UInt8 := r.drop (numberLength r)

/-- A word, or the value of its macro. -/
def replace (macros : List Macro) (w : List UInt8) : List (Edit UInt8) :=
  match findMacro macros w with
  | some m => [.replaced w m.value]
  | none => w.map .kept

/-- A line goes but for its newline. -/
def dropLine (l ending : List UInt8) : List (Edit UInt8) := .replaced (chr '#' :: l) [] :: ending.map .kept

/-- The edit that the macros are for. -/
def expansion (defs : List Macro) : List Segment → List (Edit UInt8)
  | [] => []
  | .line l ending :: segs => dropLine l ending ++ expansion (defined l :: defs) segs
  | .run r :: segs =>
    (r.take (numberLength r)).map .kept ++ replace defs (identOf r) ++ expansion defs segs
  | .plain s :: segs => s.map .kept ++ expansion defs segs

/-! ## What is replaced -/

/-- What a round of `preprocess` in an active region makes of what it reads. -/
def roundPieces (macros : List Macro) (c : UInt8) (s : List UInt8) (r : Round PpState UInt8 UInt8) :
    List (Edit UInt8) :=
  if c = chr '#' then .replaced (c :: s.takeWhile (· ≠ 10)) [] :: r.out.map .kept
  else if c = chr '"' ∨ c = chr '\'' then r.out.map .kept
  else if isIdentStart c then replace macros (readWord macroNameMax (c :: s)).1
  else [.kept c]

/-- The edit that the rounds to the end of a source make, where no region is skipped. -/
inductive Edits : PpState → List UInt8 → List (Edit UInt8) → Prop
  | nil (x : PpState) : Edits x [] []
  | round {x : PpState} {c : UInt8} {s : List UInt8} {r : Round PpState UInt8 UInt8} {ps : List (Edit UInt8)}
      (hactive : x.2.active = true) (hr : plainStep x c s = some r) (h : Edits r.state r.rest ps) :
      Edits x (c :: s) (roundPieces x.1 c s r ++ ps)

/-- The words that are read in a run, each with what follows it in the run. -/
def wordsOf : Nat → List UInt8 → List (List UInt8 × List UInt8)
  | _, [] => []
  | 0, _ :: _ => []
  | n + 1, c :: r =>
    if isIdentStart c then
      ((c :: r).take macroNameMax, (c :: r).drop macroNameMax) :: wordsOf n ((c :: r).drop macroNameMax)
    else wordsOf n r

/-- A word is the name of a macro. -/
def Named (defs : List Macro) (w : List UInt8) : Prop := (findMacro defs w).isSome = true

instance (defs : List Macro) (w : List UInt8) : Decidable (Named defs w) :=
  inferInstanceAs (Decidable (_ = true))

/-- In a run, no word that is read is the name of a macro but the identifier, and where this one is, it
is read as a word and the table has its value. -/
structure ReadWhole (macros defs : List Macro) (r : List UInt8) : Prop where
  words : ∀ p ∈ wordsOf r.length r, Named defs p.1 → p = (identOf r, [])
  ident : Named defs (identOf r) → (identOf r, []) ∈ wordsOf r.length r
  value : Named defs (identOf r) →
    (findMacro macros (identOf r)).map (·.value) = (findMacro defs (identOf r)).map (·.value)

instance (macros defs : List Macro) (r : List UInt8) : Decidable (ReadWhole macros defs r) :=
  decidable_of_iff ((∀ p ∈ wordsOf r.length r, Named defs p.1 → p = (identOf r, [])) ∧
      (Named defs (identOf r) → (identOf r, []) ∈ wordsOf r.length r) ∧
      (Named defs (identOf r) →
        (findMacro macros (identOf r)).map (·.value) = (findMacro defs (identOf r)).map (·.value)))
    ⟨fun ⟨words, ident, value⟩ => ⟨words, ident, value⟩, fun h => ⟨h.words, h.ident, h.value⟩⟩

/-- The table after a line. -/
def tableAfter (macros : List Macro) (l : List UInt8) : List Macro :=
  (directive macros Region.init (readDirective l).1 (readDirective l).2).1

/-- In all runs. -/
def AllReadWhole (macros defs : List Macro) : List Segment → Prop
  | [] => True
  | .line l _ :: segs => AllReadWhole (tableAfter macros l) (defined l :: defs) segs
  | .run r :: segs => ReadWhole macros defs r ∧ AllReadWhole macros defs segs
  | .plain _ :: segs => AllReadWhole macros defs segs

/-! ## Numbers -/

section Numbers

variable {s t r : List UInt8}

theorem drop_length_takeWhile (p : UInt8 → Bool) (s : List UInt8) :
    s.drop (s.takeWhile p).length = s.dropWhile p := by
  have h : (s.takeWhile p ++ s.dropWhile p).drop (s.takeWhile p).length = s.dropWhile p := List.drop_left
  rwa [List.takeWhile_append_dropWhile] at h

theorem lexHex_rest (num : Int) (line : Nat) (s : List UInt8) : (lexHex num line s).2.rest = s.dropWhile isHex := by
  induction s generalizing num with
  | nil => rfl
  | cons c s ih =>
    rw [lexHex, List.dropWhile_cons]
    split
    · exact ih _
    · rfl

theorem lexDecimal_rest (num : Int) (line : Nat) (s : List UInt8) :
    (lexDecimal num line s).2.rest = s.dropWhile isDigit := by
  induction s generalizing num with
  | nil => rfl
  | cons c s ih =>
    rw [lexDecimal, List.dropWhile_cons]
    split
    · exact ih _
    · rfl

theorem isIdentChar_of_hex {c : UInt8} (h : isHex c = true) : isIdentChar c = true := by
  simp only [isHex, isDigit, isIdentChar, Bool.or_eq_true, Bool.and_eq_true, decide_eq_true_eq] at h ⊢
  have hf : chr 'f' ≤ chr 'z' := by decide
  have hF : chr 'F' ≤ chr 'Z' := by decide
  rcases h with (h | h) | h
  · exact .inl (.inr h)
  · exact .inl (.inl (.inl ⟨h.1, UInt8.le_trans h.2 hf⟩))
  · exact .inl (.inl (.inr ⟨h.1, UInt8.le_trans h.2 hF⟩))

theorem isHex_of_digit {c : UInt8} (h : isDigit c = true) : isHex c = true := by
  rw [isHex, h]
  rfl

/-- What is left after a part of a run that is followed by no identifier character. -/
theorem dropWhile_run {p : UInt8 → Bool} (hp : ∀ c, p c = true → isIdentChar c = true)
    (ht : ∀ d ∈ t.head?, isIdentChar d = false) (r : List UInt8) :
    (r ++ t).dropWhile p = r.dropWhile p ++ t := by
  cases t with
  | nil => rw [List.append_nil, List.append_nil]
  | cons d t =>
    refine dropWhile_append_stop ?_ r t
    have hd := ht d rfl
    rw [← Bool.not_eq_true] at hd ⊢
    exact fun h => hd (hp d h)

/-- A hexadecimal number, after its first digit `c`. -/
def isHexNumber (c : UInt8) (s : List UInt8) : Bool :=
  c = chr '0' ∧ (s.head? = some (chr 'x') ∨ s.head? = some (chr 'X'))

theorem lexToken_digit {c : UInt8} (hc : isDigit c = true) (line : Nat) (s : List UInt8) :
    (lexToken c line s).2.rest =
      if isHexNumber c s then (s.drop 1).dropWhile isHex else s.dropWhile isDigit := by
  unfold lexToken
  rw [if_pos hc]
  cases s with
  | nil => simp [isHexNumber, lexDecimal_rest]
  | cons x digits =>
    by_cases hx : c = chr '0' ∧ (x = chr 'x' ∨ x = chr 'X')
    · simp [isHexNumber, hx, lexHex_rest]
    · simp [isHexNumber, hx, lexDecimal_rest]

theorem identOf_digit {c : UInt8} (hc : isDigit c = true) (r : List UInt8) :
    identOf (c :: r) = if isHexNumber c r then (r.drop 1).dropWhile isHex else r.dropWhile isDigit := by
  unfold identOf
  cases r with
  | nil => simp [numberLength, isHexNumber, hc]
  | cons x digits =>
    rw [numberLength]
    by_cases hx : c = chr '0' ∧ (x = chr 'x' ∨ x = chr 'X')
    · have hdrop : (c :: x :: digits).drop (2 + (digits.takeWhile isHex).length) = digits.dropWhile isHex := by
        rw [Nat.add_comm, ← drop_length_takeWhile isHex digits]
        rfl
      rw [if_pos hx, hdrop]
      simp [isHexNumber, hx]
    · rw [if_neg hx, drop_length_takeWhile, List.dropWhile_cons, if_pos hc]
      simp [isHexNumber, hx]

/-- The identifier of a run is what the lexer leaves of it after a number. -/
theorem lexToken_number {c : UInt8} (hc : isDigit c = true) (ht : ∀ d ∈ t.head?, isIdentChar d = false)
    (line : Nat) (r : List UInt8) : (lexToken c line (r ++ t)).2.rest = identOf (c :: r) ++ t := by
  have hdigit : ∀ d, isDigit d = true → isIdentChar d = true := fun d hd => isIdentChar_of_hex (isHex_of_digit hd)
  have hx : isHexNumber c (r ++ t) = isHexNumber c r := by
    cases r with
    | cons x digits => rfl
    | nil =>
      have hnone : ∀ d, isIdentChar d = true → t.head? ≠ some d := by
        intro d hd hhead
        exact Bool.false_ne_true ((ht d hhead).symm.trans hd)
      have hlower : isIdentChar (chr 'x') = true := by decide
      have hupper : isIdentChar (chr 'X') = true := by decide
      simp [isHexNumber, hnone _ hlower, hnone _ hupper]
  rw [lexToken_digit hc, identOf_digit hc, hx]
  split
  · next hhex =>
    cases r with
    | cons x digits => exact dropWhile_run (fun d => isIdentChar_of_hex) ht digits
    | nil => simp [isHexNumber] at hhex
  · exact dropWhile_run hdigit ht r

end Numbers

/-! ## A run -/

section Run

variable {macros defs : List Macro} {w r i : List UInt8}

@[simp] theorem olds_replace (macros : List Macro) (w : List UInt8) : olds (replace macros w) = w := by
  unfold replace
  split
  · exact List.append_nil w
  · exact Edit.olds_kept w

theorem replace_of_not_named (h : ¬Named macros w) : replace macros w = w.map .kept := by
  rw [replace, Option.not_isSome_iff_eq_none.mp h]

theorem replace_of_named (h : Named macros w) :
    ∃ m, findMacro macros w = some m ∧ replace macros w = [.replaced w m.value] := by
  obtain ⟨m, hm⟩ := Option.isSome_iff_exists.mp h
  exact ⟨m, hm, by rw [replace, hm]⟩

/-- What the rounds make of a run. -/
def readRun (macros : List Macro) : Nat → List UInt8 → List (Edit UInt8)
  | _, [] => []
  | 0, _ :: _ => []
  | n + 1, c :: r =>
    if isIdentStart c then
      replace macros ((c :: r).take macroNameMax) ++ readRun macros n ((c :: r).drop macroNameMax)
    else .kept c :: readRun macros n r

/-- A window takes a character at least. -/
theorem length_drop_window {n : Nat} {c : UInt8} {r : List UInt8} (hn : (c :: r).length ≤ n + 1) :
    ((c :: r).drop macroNameMax).length ≤ n := by
  have hmax : macroNameMax = 31 := rfl
  rw [List.length_drop]
  rw [List.length_cons] at hn ⊢
  omega

theorem olds_readRun {n : Nat} (hn : r.length ≤ n) : olds (readRun macros n r) = r := by
  induction n generalizing r with
  | zero => rw [List.length_eq_zero_iff.mp (Nat.le_zero.mp hn)]; rfl
  | succ n ih =>
    cases r with
    | nil => rfl
    | cons c r =>
      rw [readRun]
      split
      · rw [Edit.olds_append, olds_replace, ih (length_drop_window hn), List.take_append_drop]
      · rw [Edit.olds_cons, ih (Nat.le_of_succ_le_succ hn)]
        rfl

/-- A word that is read is part of the run. -/
theorem length_word {n : Nat} {q : List UInt8 × List UInt8} (h : q ∈ wordsOf n r) :
    q.1.length + q.2.length ≤ r.length := by
  induction n generalizing r with
  | zero => cases r <;> cases h
  | succ n ih =>
    cases r with
    | nil => cases h
    | cons c r =>
      rw [wordsOf] at h
      split at h
      · rcases List.mem_cons.mp h with rfl | h
        · rw [← List.length_append, List.take_append_drop]
        · exact Nat.le_trans (ih h) (List.drop_suffix _ _).length_le
      · exact Nat.le_succ_of_le (ih h)

/-- All of a run is kept exactly if none of its words is the name of a macro. -/
theorem readRun_eq_kept_iff {n : Nat} (hn : r.length ≤ n) :
    readRun macros n r = r.map .kept ↔ ∀ q ∈ wordsOf n r, ¬Named macros q.1 := by
  induction n generalizing r with
  | zero =>
    rw [List.length_eq_zero_iff.mp (Nat.le_zero.mp hn)]
    exact ⟨fun _ _ hq => absurd hq List.not_mem_nil, fun _ => rfl⟩
  | succ n ih =>
    cases r with
    | nil => exact ⟨fun _ _ hq => absurd hq List.not_mem_nil, fun _ => rfl⟩
    | cons c r =>
      rw [readRun, wordsOf]
      split
      · have hrest := ih (length_drop_window hn)
        have hsplit : (c :: r).map Edit.kept = ((c :: r).take macroNameMax).map .kept ++
            ((c :: r).drop macroNameMax).map .kept := by
          rw [← List.map_append, List.take_append_drop]
        rw [List.forall_mem_cons, ← hrest, hsplit]
        by_cases hw : Named macros ((c :: r).take macroNameMax)
        · obtain ⟨m, -, hreplace⟩ := replace_of_named hw
          rw [hreplace]
          exact ⟨fun h => absurd h nofun, fun h => absurd hw h.1⟩
        · rw [replace_of_not_named hw, List.append_cancel_left_eq]
          exact (and_iff_right hw).symm
      · rw [List.map_cons, List.cons_eq_cons, ih (Nat.le_of_succ_le_succ hn)]
        exact and_iff_right rfl

theorem wordsOf_nil (n : Nat) : wordsOf n [] = [] := by
  cases n <;> rfl

theorem readRun_nil (n : Nat) : readRun macros n [] = [] := by
  cases n <;> rfl

/-- The identifier `i` at the end of a run is replaced by `v`, and nothing else is. -/
theorem readRun_eq_replaced_iff {n : Nat} {p v : List UInt8} (hn : r.length ≤ n) (hr : r = p ++ i)
    (hi : ∃ c ∈ i.head?, isIdentStart c) :
    readRun macros n r = p.map .kept ++ [.replaced i v] ↔
      (∀ q ∈ wordsOf n r, Named macros q.1 → q = (i, [])) ∧ (i, []) ∈ wordsOf n r ∧
        (findMacro macros i).map (·.value) = some v := by
  have hne : i ≠ [] := by
    rintro rfl
    obtain ⟨c, hc, -⟩ := hi
    cases hc
  induction n generalizing r p with
  | zero =>
    rw [List.length_eq_zero_iff.mp (Nat.le_zero.mp hn)] at hr
    exact absurd (List.append_eq_nil_iff.mp hr.symm).2 hne
  | succ n ih =>
    cases r with
    | nil => exact absurd (List.append_eq_nil_iff.mp hr.symm).2 hne
    | cons c r =>
      rw [readRun, wordsOf]
      by_cases hc : isIdentStart c
      · rw [if_pos hc, if_pos hc]
        have hlength := length_drop_window hn
        have hsplit : (c :: r).take macroNameMax ++ (c :: r).drop macroNameMax = p ++ i := by
          rw [List.take_append_drop, hr]
        generalize (c :: r).take macroNameMax = w at hsplit ⊢
        generalize (c :: r).drop macroNameMax = a at hsplit hlength ⊢
        by_cases hw : Named macros w
        · obtain ⟨m, hm, hreplace⟩ := replace_of_named hw
          rw [hreplace]
          constructor
          · intro h
            cases p with
            | cons d p => exact absurd h nofun
            | nil =>
              obtain ⟨hhead, hrest⟩ := List.cons_eq_cons.mp h
              obtain ⟨rfl, rfl⟩ := Edit.replaced.inj hhead
              have ha : a = [] := by
                have holds : olds (readRun macros _ a) = a := olds_readRun hlength
                rw [← holds]
                exact congrArg olds hrest
              rw [ha, wordsOf_nil]
              exact ⟨fun q hq _ => List.mem_singleton.mp hq, List.mem_singleton_self _, by rw [hm]; rfl⟩
          · rintro ⟨hwords, -, hv⟩
            obtain ⟨rfl, rfl⟩ := Prod.mk.inj (hwords (w, a) List.mem_cons_self hw)
            have hp : p = [] := by simpa using hsplit
            have hvalue : m.value = v := by
              rw [hm] at hv
              exact Option.some.inj hv
            rw [hp, readRun_nil, hvalue]
            rfl
        · rw [replace_of_not_named hw]
          have hother : (findMacro macros i).map (·.value) = some v → (i, ([] : List UInt8)) ≠ (w, a) := by
            intro hv heq
            rw [← (Prod.mk.inj heq).1, Named, ← Option.isSome_map (f := (·.value)), hv] at hw
            exact hw rfl
          have hlater (p' : List UInt8) (hp : p = w ++ p') (ha : a = p' ++ i) :
              w.map .kept ++ readRun macros n a = p.map .kept ++ [.replaced i v] ↔
                (∀ q ∈ (w, a) :: wordsOf n a, Named macros q.1 → q = (i, [])) ∧
                  (i, []) ∈ (w, a) :: wordsOf n a ∧ (findMacro macros i).map (·.value) = some v := by
            rw [hp, List.map_append, List.append_assoc, List.append_cancel_left_eq]
            refine (ih hlength ha).trans (and_congr ?_ (and_congr_left fun hv => ?_))
            · exact (List.forall_mem_cons.trans (and_iff_right fun h => absurd h hw)).symm
            · exact (List.mem_cons.trans (or_iff_right (hother hv))).symm
          rcases List.append_eq_append_iff.mp hsplit with ⟨b, hp, ha⟩ | ⟨b, hb, hib⟩
          · exact hlater b hp ha
          · cases b with
            | nil => exact hlater [] (by simpa using hb.symm) hib.symm
            | cons d b =>
              rw [hb, List.map_append, List.append_assoc, List.append_cancel_left_eq]
              refine ⟨fun h => absurd h nofun, fun ⟨_, hmem, hv⟩ => ?_⟩
              rcases List.mem_cons.mp hmem with heq | hmem
              · exact absurd heq (hb ▸ hother hv)
              · have hle := length_word hmem
                rw [hib, List.length_append, List.length_cons] at hle
                simp only at hle
                omega
      · rw [if_neg hc, if_neg hc]
        cases p with
        | nil =>
          obtain ⟨d, hd, hstart⟩ := hi
          rw [List.nil_append] at hr
          rw [← hr] at hd
          cases hd
          exact absurd hstart hc
        | cons d p =>
          obtain ⟨rfl, htail⟩ := List.cons_eq_cons.mp hr
          rw [List.map_cons, List.cons_append, List.cons_eq_cons]
          exact (and_iff_right rfl).trans (ih (Nat.le_of_succ_le_succ hn) htail)

/-- The table has the names that are defined, which are identifiers. -/
structure SameNames (macros defs : List Macro) : Prop where
  named : ∀ w, Named macros w ↔ Named defs w
  length : macros.length = (names defs).length
  idents : ∀ w, Named defs w → ∃ c ∈ w.head?, isIdentStart c

theorem readRun_eq_iff (h : SameNames macros defs) (r : List UInt8) :
    readRun macros r.length r = (r.take (numberLength r)).map .kept ++ replace defs (identOf r) ↔
      ReadWhole macros defs r := by
  have hsplit : r.take (numberLength r) ++ identOf r = r := List.take_append_drop _ _
  by_cases hi : Named defs (identOf r)
  · obtain ⟨m, hm, hreplace⟩ := replace_of_named hi
    rw [hreplace, readRun_eq_replaced_iff (Nat.le_refl _) hsplit.symm (h.idents _ hi)]
    constructor
    · rintro ⟨hwords, hmem, hvalue⟩
      refine ⟨fun q hq hnamed => hwords q hq ((h.named _).mpr hnamed), fun _ => hmem, fun _ => ?_⟩
      rw [hvalue, hm]
      rfl
    · intro hread
      refine ⟨fun q hq hnamed => hread.words q hq ((h.named _).mp hnamed), hread.ident hi, ?_⟩
      rw [hread.value hi, hm]
      rfl
  · rw [replace_of_not_named hi, ← List.map_append, hsplit, readRun_eq_kept_iff (Nat.le_refl _)]
    constructor
    · intro hnone
      refine ⟨fun q hq hnamed => ?_, fun hnamed => absurd hnamed hi, fun hnamed => absurd hnamed hi⟩
      exact absurd ((h.named _).mpr hnamed) (hnone q hq)
    · intro hread q hq hnamed
      have heq := hread.words q hq ((h.named _).mp hnamed)
      rw [heq] at hnamed
      exact hi ((h.named _).mp hnamed)

end Run

/-! ## The table -/

section Table

variable {macros defs : List Macro} {l : List UInt8}

theorem named_cons {m : Macro} {w : List UInt8} : Named (m :: defs) w ↔ m.name = w ∨ Named defs w := by
  rw [Named, findMacro_cons]
  split
  · next h => exact ⟨fun _ => .inl h, fun _ => rfl⟩
  · next h => exact (or_iff_right h).symm

theorem length_names_cons (m : Macro) :
    (names (m :: defs)).length = (names defs).length + if Named defs m.name then 0 else 1 := by
  rw [names, List.map_cons]
  split
  · next h => rw [List.dedup_cons_of_mem (isSome_findMacro.mp h)]; rfl
  · next h => rw [List.dedup_cons_of_notMem fun hin => h (isSome_findMacro.mpr hin)]; rfl

theorem tableAfter_eq (h : IsDefine l) : ∃ value,
    tableAfter macros l = addMacro macros (macroName (readDirective l).2) value := by
  rw [tableAfter, directive, if_pos ⟨h.1, rfl⟩]
  simp only [readWord_of_le h.2.2]
  exact ⟨_, rfl⟩

/-- A definition of a name that the table has, or has room for. -/
theorem sameNames_addMacro (h : SameNames macros defs) {name value value' : List UInt8}
    (hident : ∃ c ∈ name.head?, isIdentStart c) (hname : name.length ≤ macroNameMax)
    (hroom : (names (⟨name, value⟩ :: defs)).length ≤ maxMacros) :
    SameNames (addMacro macros name value') (⟨name, value⟩ :: defs) := by
  have hlength : (names (⟨name, value⟩ :: defs)).length =
      (names defs).length + if Named defs name then 0 else 1 := length_names_cons _
  have hidents : ∀ w, Named (⟨name, value⟩ :: defs) w → ∃ c ∈ w.head?, isIdentStart c := by
    intro w hw
    rcases named_cons.mp hw with rfl | hw
    · exact hident
    · exact h.idents w hw
  unfold addMacro
  split
  · next hfull =>
    -- the table is full, and the name is one of those that it has
    have hold : Named defs name := by
      by_contra hnew
      rw [if_neg hnew] at hlength
      have := h.length
      omega
    rw [if_pos hold] at hlength
    refine ⟨fun w => ?_, h.length.trans hlength.symm, hidents⟩
    rw [h.named, named_cons]
    exact ⟨.inr, fun hw => hw.elim (fun heq => heq ▸ hold) id⟩
  split
  · next hfound =>
    have hold : Named defs name := (h.named name).mp hfound
    rw [if_pos hold] at hlength
    refine ⟨fun w => ?_, (length_redefine.trans h.length).trans hlength.symm, hidents⟩
    rw [Named, ← Option.isSome_map (f := (·.value)), findMacro_redefine hfound, named_cons, ← h.named]
    split
    · next heq => exact ⟨fun _ => .inl heq, fun _ => rfl⟩
    · next heq =>
      rw [Option.isSome_map]
      exact (or_iff_right heq).symm
  · next hfound =>
    have hnew : ¬Named defs name := fun hin => hfound ((h.named name).mpr hin)
    rw [if_neg hnew] at hlength
    refine ⟨fun w => ?_, ?_, hidents⟩
    · rw [Named, findMacro_append, List.take_of_length_le hname, named_cons, ← h.named, Option.isSome_or]
      split
      · next heq => exact ⟨fun _ => .inl heq, fun _ => Bool.or_true _⟩
      · next heq => simp [heq, Named]
    · rw [List.length_append, h.length, hlength]
      rfl

theorem SameNames.line (h : SameNames macros defs) (hl : IsDefine l)
    (hroom : (names (defined l :: defs)).length ≤ maxMacros) :
    SameNames (tableAfter macros l) (defined l :: defs) := by
  obtain ⟨value, hvalue⟩ : ∃ value, tableAfter macros l = addMacro macros (macroName (readDirective l).2) value :=
    tableAfter_eq hl
  rw [hvalue]
  exact sameNames_addMacro h hl.2.1 hl.2.2 hroom

end Table

/-! ## The rounds of a source -/

/-- The edit that the rounds make of the parts of a source. -/
def reading (macros : List Macro) : List Segment → List (Edit UInt8)
  | [] => []
  | .line l ending :: segs => dropLine l ending ++ reading (tableAfter macros l) segs
  | .run r :: segs => readRun macros r.length r ++ reading macros segs
  | .plain s :: segs => s.map .kept ++ reading macros segs

section Source

variable {x : PpState} {c : UInt8} {s t r : List UInt8} {ps : List (Edit UInt8)}

theorem ne_of_identChar (h : isIdentChar c = true) : c ≠ chr '#' ∧ ¬(c = chr '"' ∨ c = chr '\'') := by
  refine ⟨?_, ?_⟩
  · rintro rfl
    exact absurd h (by decide)
  · rintro (rfl | rfl)
    · exact absurd h (by decide)
    · exact absurd h (by decide)

/-- A run is as long as the words that are read in it. -/
theorem readWord_run (hr : ∀ c ∈ r, isIdentChar c = true) (ht : ∀ c ∈ t.head?, isIdentChar c = false) (max : Nat) :
    readWord max (r ++ t) = (r.take max, r.drop max ++ t) := by
  have htake : (r ++ t).takeWhile isIdentChar = r := by
    rw [List.takeWhile_append_of_pos hr]
    cases t with
    | nil => exact List.append_nil r
    | cons d t => rw [List.takeWhile_cons, ht d rfl]; exact List.append_nil r
  rw [readWord, htake, List.length_take]
  refine Prod.ext rfl ?_
  show (r ++ t).drop (min max r.length) = _
  rw [List.drop_append_of_le_length (Nat.min_le_right _ _)]
  congr 1
  rcases Nat.le_total max r.length with h | h
  · rw [Nat.min_eq_left h]
  · rw [Nat.min_eq_right h, List.drop_length, List.drop_of_length_le h]

/-- The rounds of a run. -/
theorem edits_run (hactive : x.2.active = true) (hr : ∀ c ∈ r, isIdentChar c = true)
    (ht : ∀ c ∈ t.head?, isIdentChar c = false) {n : Nat} (hn : r.length ≤ n) (h : Edits x t ps) :
    Edits x (r ++ t) (readRun x.1 n r ++ ps) := by
  induction n generalizing r with
  | zero => rwa [List.length_eq_zero_iff.mp (Nat.le_zero.mp hn)]
  | succ n ih =>
    cases r with
    | nil => exact h
    | cons c r =>
      obtain ⟨hhash, hquote⟩ := ne_of_identChar (hr c List.mem_cons_self)
      have hround := plainStep_text (s := r ++ t) hactive hhash
      rw [readRun]
      split
      · next hstart =>
        rw [textStep_word hquote hstart, ← List.cons_append, readWord_run hr ht] at hround
        have hrest := ih (fun d hd => hr d (List.mem_of_mem_drop hd)) (length_drop_window hn)
        have hedits := Edits.round hactive hround hrest
        rw [roundPieces, if_neg hhash, if_neg hquote, if_pos hstart, ← List.cons_append,
          readWord_run hr ht] at hedits
        rwa [List.append_assoc]
      · next hstart =>
        rw [textStep, if_neg hquote, if_neg hstart] at hround
        have hrest := ih (fun d hd => hr d (List.mem_cons_of_mem c hd)) (Nat.le_of_succ_le_succ hn)
        have hedits := Edits.round hactive hround hrest
        rwa [roundPieces, if_neg hhash, if_neg hquote, if_neg hstart] at hedits

theorem directive_of_define {r : Region} {name : List UInt8} (hactive : r.active = true)
    (hname : name = word "define") (macros : List Macro) (arg : List UInt8) :
    (directive macros r name arg).1 = (directive macros Region.init name arg).1 ∧
      (directive macros r name arg).2.1 = r := by
  rw [directive, directive, if_pos ⟨hname, hactive⟩, if_pos ⟨hname, rfl⟩]
  exact ⟨rfl, rfl⟩

theorem includeName_define {r : Region} (h : (readDirective s).1 = word "define") :
    includeName r c s = none := by
  have hother : word "define" ≠ word "include" := by decide
  unfold includeName
  exact if_neg fun hinc => hother (h.symm.trans hinc.2.1)

/-- The round of a definition. -/
theorem plainStep_define (hactive : x.2.active = true) (hl : IsDefine (s.takeWhile (· ≠ 10))) :
    plainStep x (chr '#') s =
      some ⟨(skipLine s).take 1, (tableAfter x.1 (s.takeWhile (· ≠ 10)), x.2), (skipLine s).drop 1⟩ := by
  have hsplit : s.takeWhile (· ≠ 10) ++ skipLine s = s := List.takeWhile_append_dropWhile
  have hnewline : (10 : UInt8) ∉ s.takeWhile (· ≠ 10) := fun hin => by
    simpa using List.mem_takeWhile_imp hin
  obtain ⟨htable, hregion⟩ := directive_of_define hactive hl.1 x.1 (readDirective (s.takeWhile (· ≠ 10))).2
  cases htail : skipLine s with
  | nil =>
    rw [htail, List.append_nil] at hsplit
    rw [hsplit] at hl hnewline htable hregion ⊢
    have hrest : skipLine (directive x.1 x.2 (readDirective s).1 (readDirective s).2).2.2 = [] := by
      have hsuffix := (directive_suffix x.1 x.2 (readDirective s).2 (readDirective s).1).trans
        (readDirective_suffix s)
      rw [skipLine, List.dropWhile_eq_nil_iff]
      intro d hd
      have hne : d ≠ 10 := fun heq => hnewline (heq ▸ hsuffix.subset hd)
      exact decide_eq_true hne
    simp only [plainStep, includeName_define hl.1, step, if_true, finishLine, hrest, htable, hregion]
    rfl
  | cons d t =>
    have hd : d = 10 := by
      have hhead := List.head?_dropWhile_not (· ≠ (10 : UInt8)) s
      rw [show s.dropWhile (· ≠ 10) = d :: t from htail] at hhead
      simpa using hhead
    subst hd
    rw [htail] at hsplit
    have hname : includeName x.2 (chr '#') (s.takeWhile (· ≠ 10) ++ 10 :: t) = none := by
      refine includeName_define ?_
      rw [readDirective_newline]
      exact hl.1
    conv_lhs => rw [← hsplit]
    rw [plainStep_directive hname hnewline, htable, hregion]
    rfl

/-- The rounds of a source. -/
theorem edits_reading {n : Nat} (hn : s.length ≤ n) (hactive : x.2.active = true)
    (hlines : ∀ l ending, Segment.line l ending ∈ segments n s → IsDefine l) :
    Edits x s (reading x.1 (segments n s)) := by
  induction n generalizing s x with
  | zero =>
    rw [List.length_eq_zero_iff.mp (Nat.le_zero.mp hn)]
    exact .nil x
  | succ n ih =>
    cases s with
    | nil => exact .nil x
    | cons c s =>
      rw [segments] at hlines ⊢
      have hs : s.length ≤ n := Nat.le_of_succ_le_succ hn
      split at hlines
      · next hc =>
        subst hc
        rw [if_pos rfl]
        have hround := plainStep_define hactive (hlines _ _ List.mem_cons_self)
        have hsuffix : (skipLine s).drop 1 <:+ s := (List.drop_suffix _ _).trans (skipLine_suffix s)
        have hrest := ih (x := (tableAfter x.1 (s.takeWhile (· ≠ 10)), x.2))
          (Nat.le_trans hsuffix.length_le hs) hactive fun l e hl => hlines l e (List.mem_cons_of_mem _ hl)
        exact .round hactive hround hrest
      · next hhash =>
        rw [if_neg hhash]
        split at hlines
        · next hquote =>
          rw [if_pos hquote]
          have hround := plainStep_text (s := s) hactive hhash
          rw [textStep, if_pos hquote] at hround
          have hrest := ih (x := x) (Nat.le_trans (readLiteral_suffix c s).length_le hs) hactive
            fun l e hl => hlines l e (List.mem_cons_of_mem _ hl)
          have hedits := Edits.round hactive hround hrest
          rwa [roundPieces, if_neg hhash, if_pos hquote] at hedits
        · next hquote =>
          rw [if_neg hquote]
          split at hlines
          · next hident =>
            rw [if_pos hident]
            have hrest := ih (x := x) (Nat.le_trans (List.dropWhile_suffix isIdentChar).length_le hs) hactive
              fun l e hl => hlines l e (List.mem_cons_of_mem _ hl)
            have hrun : ∀ d ∈ c :: s.takeWhile isIdentChar, isIdentChar d = true := by
              intro d hd
              rcases List.mem_cons.mp hd with rfl | hd
              · exact hident
              · exact List.mem_takeWhile_imp hd
            have hend : ∀ d ∈ (s.dropWhile isIdentChar).head?, isIdentChar d = false := by
              intro d hd
              cases htail : s.dropWhile isIdentChar with
              | nil => rw [htail] at hd; cases hd
              | cons e t =>
                have hhead := List.head?_dropWhile_not isIdentChar s
                rw [htail] at hd hhead
                cases hd
                simpa using hhead
            have hedits := edits_run hactive hrun hend (Nat.le_refl _) hrest
            rwa [List.cons_append, List.takeWhile_append_dropWhile] at hedits
          · next hident =>
            rw [if_neg hident]
            have hround := plainStep_text (s := s) hactive hhash
            have hstart : ¬isIdentStart c := fun h => hident (isIdentChar_of_start c h)
            rw [textStep, if_neg hquote, if_neg hstart] at hround
            have hrest := ih (x := x) hs hactive fun l e hl => hlines l e (List.mem_cons_of_mem _ hl)
            have hedits := Edits.round hactive hround hrest
            rwa [roundPieces, if_neg hhash, if_neg hquote, if_neg hstart] at hedits

theorem news_replace (macros : List Macro) (w : List UInt8) :
    news (replace macros w) = ((findMacro macros w).map (·.value)).getD w := by
  unfold replace
  cases findMacro macros w with
  | some m => exact List.append_nil _
  | none => exact Edit.news_kept w

theorem news_roundPieces {r : Round PpState UInt8 UInt8} (hactive : x.2.active = true)
    (hr : plainStep x c s = some r) : news (roundPieces x.1 c s r) = r.out := by
  unfold roundPieces
  split
  · exact Edit.news_kept r.out
  · next hhash =>
    rw [plainStep_text hactive hhash] at hr
    cases hr
    split
    · exact Edit.news_kept _
    · next hquote =>
      split
      · next hstart => rw [news_replace, textStep_word hquote hstart]
      · next hstart => rw [textStep, if_neg hquote, if_neg hstart]; rfl

/-- The edit is of what is read and what is put out. -/
theorem Edits.reads (h : Edits x s ps) : ∃ x', Reads plainStep x s (news ps) x' [] := by
  induction h with
  | nil x => exact ⟨x, .refl x []⟩
  | round hactive hr _ ih =>
    obtain ⟨x', hrest⟩ := ih
    rw [Edit.news_append, news_roundPieces hactive hr]
    exact ⟨x', .round hr hrest⟩

/-- There is one such edit. -/
theorem Edits.unique {qs : List (Edit UInt8)} (h : Edits x s ps) (h' : Edits x s qs) : ps = qs := by
  induction h generalizing qs with
  | nil x => cases h'; rfl
  | round _ hr _ ih =>
    cases h' with
    | round _ hr' hrest =>
      cases hr.symm.trans hr'
      rw [ih hrest]

end Source

/-! ## What is replaced and what is to be replaced -/

section Segments

variable {macros defs : List Macro} {segs : List Segment}

theorem old_ne_nil_of_kept {s : List UInt8} : ∀ p ∈ s.map Edit.kept, p.old ≠ [] := by
  intro p hp
  obtain ⟨c, -, rfl⟩ := List.mem_map.mp hp
  exact List.cons_ne_nil c []

theorem old_ne_nil_of_replace {w : List UInt8} (hw : w ≠ []) : ∀ p ∈ replace macros w, p.old ≠ [] := by
  unfold replace
  split
  · intro p hp
    rw [List.mem_singleton.mp hp]
    exact hw
  · exact old_ne_nil_of_kept

theorem old_ne_nil_of_readRun (n : Nat) (r : List UInt8) : ∀ p ∈ readRun macros n r, p.old ≠ [] := by
  induction n generalizing r with
  | zero => cases r <;> exact fun _ hp => absurd hp List.not_mem_nil
  | succ n ih =>
    cases r with
    | nil => exact fun _ hp => absurd hp List.not_mem_nil
    | cons c r =>
      rw [readRun]
      split
      · intro p hp
        rcases List.mem_append.mp hp with hp | hp
        · exact old_ne_nil_of_replace (List.cons_ne_nil c _) p hp
        · exact ih _ p hp
      · intro p hp
        rcases List.mem_cons.mp hp with rfl | hp
        · exact List.cons_ne_nil c []
        · exact ih _ p hp

theorem old_ne_nil_of_reading : ∀ p ∈ reading macros segs, p.old ≠ [] := by
  induction segs generalizing macros with
  | nil => exact fun _ hp => absurd hp List.not_mem_nil
  | cons seg segs ih =>
    cases seg with
    | line l ending =>
      intro p hp
      rcases List.mem_append.mp hp with hp | hp
      · rcases List.mem_cons.mp hp with rfl | hp
        · exact List.cons_ne_nil _ _
        · exact old_ne_nil_of_kept p hp
      · exact ih p hp
    | run r =>
      intro p hp
      rcases List.mem_append.mp hp with hp | hp
      · exact old_ne_nil_of_readRun _ _ p hp
      · exact ih p hp
    | plain s =>
      intro p hp
      rcases List.mem_append.mp hp with hp | hp
      · exact old_ne_nil_of_kept p hp
      · exact ih p hp

theorem length_names_le_definitions : (names defs).length ≤ (names (definitions defs segs)).length := by
  induction segs generalizing defs with
  | nil => exact Nat.le_refl _
  | cons seg segs ih =>
    cases seg with
    | line l ending =>
      have hcons : (names (defined l :: defs)).length =
          (names defs).length + if Named defs (defined l).name then 0 else 1 := length_names_cons _
      exact Nat.le_trans (by omega) ih
    | run r => exact ih
    | plain s => exact ih

/-- The rounds make the edit that the macros are for exactly if they read all runs as words. -/
theorem reading_eq_iff (h : SameNames macros defs)
    (hlines : ∀ l ending, Segment.line l ending ∈ segs → IsDefine l)
    (hroom : (names (definitions defs segs)).length ≤ maxMacros) :
    reading macros segs = expansion defs segs ↔ AllReadWhole macros defs segs := by
  induction segs generalizing macros defs with
  | nil => exact ⟨fun _ => trivial, fun _ => rfl⟩
  | cons seg segs ih =>
    have hrest : ∀ l ending, Segment.line l ending ∈ segs → IsDefine l :=
      fun l ending hl => hlines l ending (List.mem_cons_of_mem _ hl)
    cases seg with
    | line l ending =>
      rw [reading, expansion, List.append_cancel_left_eq]
      have hroom' : (names (defined l :: defs)).length ≤ maxMacros :=
        Nat.le_trans length_names_le_definitions hroom
      exact ih (h.line (hlines l ending List.mem_cons_self) hroom') hrest hroom
    | run r =>
      rw [reading, expansion, AllReadWhole, ← readRun_eq_iff h r, ← ih h hrest hroom]
      constructor
      · intro heq
        refine Edit.append_inj (fun p hp => ?_) ?_ heq
        · have hp' : p ∈ reading macros (.run r :: segs) := hp
          exact old_ne_nil_of_reading p hp'
        · rw [olds_readRun (Nat.le_refl _), Edit.olds_append, Edit.olds_kept, olds_replace]
          exact (List.take_append_drop _ _).symm
      · rintro ⟨hrun, hsegs⟩
        rw [hrun, hsegs]
    | plain s =>
      rw [reading, expansion, List.append_cancel_left_eq]
      exact ih h hrest hroom

end Segments

/-! ## The preprocessor -/

theorem olds_reading {n : Nat} {macros : List Macro} {s : List UInt8} (hn : s.length ≤ n) :
    olds (reading macros (segments n s)) = s := by
  induction n generalizing s macros with
  | zero => rw [List.length_eq_zero_iff.mp (Nat.le_zero.mp hn)]; rfl
  | succ n ih =>
    cases s with
    | nil => rfl
    | cons c s =>
      have hs : s.length ≤ n := Nat.le_of_succ_le_succ hn
      rw [segments]
      split
      · next hc =>
        have hsuffix : (skipLine s).drop 1 <:+ s := (List.drop_suffix _ _).trans (skipLine_suffix s)
        rw [reading, dropLine, Edit.olds_append, Edit.olds_cons, Edit.olds_kept,
          ih (Nat.le_trans hsuffix.length_le hs), List.append_assoc, List.take_append_drop, hc]
        exact congrArg (chr '#' :: ·) List.takeWhile_append_dropWhile
      split
      · rw [reading, Edit.olds_append, Edit.olds_kept, ih (Nat.le_trans (readLiteral_suffix c s).length_le hs),
          List.cons_append, readLiteral_verbatim]
      split
      · rw [reading, Edit.olds_append, olds_readRun (Nat.le_refl _),
          ih (Nat.le_trans (List.dropWhile_suffix isIdentChar).length_le hs), List.cons_append,
          List.takeWhile_append_dropWhile]
      · rw [reading, Edit.olds_append, Edit.olds_kept, ih hs]
        rfl

theorem sameNames_nil : SameNames [] [] := ⟨fun _ => Iff.rfl, rfl, nofun⟩

/-- The preprocessor makes one edit of a source whose directives are definitions, of which the output is
the text after it where that fits. It is the one that the macros are for exactly if all words are read
whole. -/
theorem macros_replaced_iff {source : List UInt8} (h : DefinesOnly source) :
    (∃ es, Edits ([], Region.init) source es ∧ olds es = source ∧
      (∀ es', Edits ([], Region.init) source es' → es' = es) ∧
      ∀ files fuel outMax st, source.length < fuel → (news es).length ≤ outMax - 1 →
        ∃ st', preprocess files fuel (.text source) outMax st = some (st', some (news es))) ∧
    (Edits ([], Region.init) source (expansion [] (segmentsOf source)) ↔
      AllReadWhole [] [] (segmentsOf source)) := by
  have hedits : Edits ([], Region.init) source (reading [] (segmentsOf source)) :=
    edits_reading (x := ([], Region.init)) (Nat.le_refl _) rfl h.lines
  have hiff := reading_eq_iff sameNames_nil h.lines h.room
  refine ⟨⟨_, hedits, olds_reading (Nat.le_refl _), fun _ h' => h'.unique hedits, ?_⟩, ?_⟩
  · intro files fuel outMax st hfuel hfits
    obtain ⟨x', hreads⟩ := hedits.reads
    exact ⟨_, by rw [preprocess_reads hreads hfuel, List.take_of_length_le hfits]⟩
  · rw [← hiff]
    exact ⟨fun h' => hedits.unique h', fun heq => heq ▸ hedits⟩

/-- A definition and a word. -/
theorem definesOnly_of_two {source l r : List UInt8} (h : segmentsOf source = [.line l [10], .run r])
    (hl : IsDefine l) : DefinesOnly source := by
  constructor
  · intro l' ending hmem
    rw [h] at hmem
    rcases List.mem_cons.mp hmem with heq | hmem
    · cases heq
      exact hl
    · cases List.mem_singleton.mp hmem
  · rw [h]
    exact Nat.le_of_ble_eq_true rfl

/-- A macro and its use. -/
def usesMacro : List UInt8 := word "#define A 1\nA"

theorem macros_replaced_iff_uses :
    Edits ([], Region.init) usesMacro (expansion [] (segmentsOf usesMacro)) := by
  have hsegs : segmentsOf usesMacro = [.line (word "define A 1") [10], .run (word "A")] := by decide
  have hdefines : DefinesOnly usesMacro :=
    definesOnly_of_two hsegs ⟨by decide, ⟨chr 'A', by decide, by decide⟩, by decide⟩
  refine (macros_replaced_iff hdefines).2.mpr ?_
  rw [hsegs]
  exact ⟨by decide, trivial⟩

/-- A macro of which the name looks like the end of a hexadecimal number. -/
def hexSource : List UInt8 := word "#define xA 5\n0xA"

/-- The number is cut, and becomes another one. -/
theorem hex_number_cut : ¬∀ source, DefinesOnly source →
    Edits ([], Region.init) source (expansion [] (segmentsOf source)) := by
  intro h
  have hsegs : segmentsOf hexSource = [.line (word "define xA 5") [10], .run (word "0xA")] := by decide
  have hdefines : DefinesOnly hexSource :=
    definesOnly_of_two hsegs ⟨by decide, ⟨chr 'x', by decide, by decide⟩, by decide⟩
  have hreading : Edits ([], Region.init) hexSource (reading [] (segmentsOf hexSource)) :=
    edits_reading (x := ([], Region.init)) (Nat.le_refl _) rfl hdefines.lines
  have hsame : reading [] (segmentsOf hexSource) ≠ expansion [] (segmentsOf hexSource) := by decide
  exact hsame (hreading.unique (h hexSource hdefines))

end RainbowOs.Cc
