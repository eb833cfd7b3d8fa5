import RainbowOs.Cc.Rounds
import Mathlib.Data.List.Dedup
import Mathlib.Data.List.DropRight

/-!
# Conditional compilation

A source of nested conditionals is a `Lines`. `Lines.select` says which of
its lines of text are compiled, and as what: those of the branches whose
conditions hold, all the way out. `Lines.Followed` is what the preprocessor
needs to select the same lines. It reads no directive that is indented where
it skips lines, and forgets conditionals that are nested too deep; it takes
every `#` for a directive, and text that is in quotes for a literal, also
beyond the end of a line; and its macros are limited.
-/

namespace RainbowOs.Cc

open RainbowOs.Lib
open Scan (Reads)

/-- The directive of a line, and what follows its name. -/
def lineDirective (raw : List UInt8) : Option (List UInt8 × List UInt8) :=
  match skipSpaces raw with
  | [] => none
  | c :: s => if c = chr '#' then some (readDirective s) else none

/-- Lines of text and definitions, and conditionals. A line is what is before a newline. -/
inductive Lines where
  | nil
  | line (raw : List UInt8) (rest : Lines)
  | ifOnly (opening : List UInt8) (yes : Lines) (closing : List UInt8) (rest : Lines)
  | ifElse (opening : List UInt8) (yes : Lines) (middle : List UInt8) (no : Lines)
      (closing : List UInt8) (rest : Lines)

/-- The source. -/
def Lines.text : Lines → List UInt8
  | nil => []
  | line raw rest => raw ++ 10 :: rest.text
  | ifOnly opening yes closing rest => opening ++ 10 :: (yes.text ++ (closing ++ 10 :: rest.text))
  | ifElse opening yes middle no closing rest =>
    opening ++ 10 :: (yes.text ++ (middle ++ 10 :: (no.text ++ (closing ++ 10 :: rest.text))))

/-- A line with a directive. -/
def IsDirective (name : String) (raw : List UInt8) : Prop :=
  ∃ arg, lineDirective raw = some (word name, arg)

/-- The lines are what they stand for. -/
def Lines.Ok : Lines → Prop
  | nil => True
  | line raw rest => (10 : UInt8) ∉ raw ∧ (0 : UInt8) ∉ raw ∧
      (lineDirective raw = none ∨ IsDirective "define" raw) ∧ rest.Ok
  | ifOnly opening yes closing rest =>
    (10 : UInt8) ∉ opening ∧ (IsDirective "ifdef" opening ∨ IsDirective "ifndef" opening) ∧
      yes.Ok ∧ (10 : UInt8) ∉ closing ∧ IsDirective "endif" closing ∧ rest.Ok
  | ifElse opening yes middle no closing rest =>
    (10 : UInt8) ∉ opening ∧ (IsDirective "ifdef" opening ∨ IsDirective "ifndef" opening) ∧
      yes.Ok ∧ (10 : UInt8) ∉ middle ∧ IsDirective "else" middle ∧ no.Ok ∧
      (10 : UInt8) ∉ closing ∧ IsDirective "endif" closing ∧ rest.Ok

/-! ## What is compiled -/

/-- The name after a directive. -/
def macroName (arg : List UInt8) : List UInt8 := arg.takeWhile isIdentChar

/-- Text without the white space at its end. -/
def trim (s : List UInt8) : List UInt8 := (s.reverse.dropWhile isTrimmed).reverse

/-- The value of a definition. -/
def macroValue (arg : List UInt8) : List UInt8 := trim (skipSpaces (arg.dropWhile isIdentChar))

/-- The definitions after a line, the latest first. -/
def defsAfter (active : Bool) (defs : List Macro) (raw : List UInt8) : List Macro :=
  match lineDirective raw with
  | none => defs
  | some (_, arg) => if active then ⟨macroName arg, macroValue arg⟩ :: defs else defs

/-- The text that a line is compiled as, if it is. -/
def compiled (active : Bool) (defs : List Macro) (raw : List UInt8) : Option (List UInt8) :=
  match lineDirective raw with
  | none => if active then some (expandLine defs raw.length raw) else none
  | some _ => none

/-- The condition of a conditional. -/
def holds (defs : List Macro) (opening : List UInt8) : Bool :=
  match lineDirective opening with
  | none => false
  | some (name, arg) =>
    if name = word "ifdef" then (findMacro defs (macroName arg)).isSome
    else (findMacro defs (macroName arg)).isNone

/-- What each line is compiled as, and the definitions after them. A branch is active if
everything around it is and its condition holds. -/
def Lines.select (active : Bool) (defs : List Macro) :
    Lines → List (Option (List UInt8)) × List Macro
  | nil => ([], defs)
  | line raw rest =>
    let x := rest.select active (defsAfter active defs raw)
    (compiled active defs raw :: x.1, x.2)
  | ifOnly opening yes _ rest =>
    let x := yes.select (active && holds defs opening) defs
    let z := rest.select active x.2
    (none :: (x.1 ++ none :: z.1), z.2)
  | ifElse opening yes _ no _ rest =>
    let x := yes.select (active && holds defs opening) defs
    let y := no.select (active && !holds defs opening) x.2
    let z := rest.select active y.2
    (none :: (x.1 ++ none :: (y.1 ++ none :: z.1)), z.2)

/-- The output has, for each line, what it is compiled as, or nothing but blanks. -/
inductive EmitsLines : List (Option (List UInt8)) → List UInt8 → Prop where
  | nil : EmitsLines [] []
  | text {e o : List UInt8} {ps : List (Option (List UInt8))} (h : EmitsLines ps o) :
      EmitsLines (some e :: ps) (e ++ 10 :: o)
  | other {blanks o : List UInt8} {ps : List (Option (List UInt8))}
      (hblanks : ∀ c ∈ blanks, isBlank c) (h : EmitsLines ps o) :
      EmitsLines (none :: ps) (blanks ++ 10 :: o)

/-! ## What the preprocessor follows -/

/-- The names that are defined. -/
def names (defs : List Macro) : List (List UInt8) := (defs.map (·.name)).dedup

/-- A line of text that is compiled has no `#` and no open literal, and a definition is within the
limits of the table. -/
def LineFollowed (active : Bool) (defs : List Macro) (raw : List UInt8) : Prop :=
  active = true → match lineDirective raw with
    | none => closedText raw.length raw = true
    | some (_, arg) => (macroName arg).length ≤ macroNameMax ∧
        (macroValue arg).length ≤ macroValMax ∧ (names defs).length < maxMacros

/-- Where lines are skipped, a directive is at the start of its line. -/
def DirectiveFollowed (active : Bool) (raw : List UInt8) : Prop :=
  active = true ∨ raw.head? = some (chr '#')

/-- The directive that opens a conditional is read, its name is within the limits, and there are
not too many around it. -/
def OpeningFollowed (depth : Nat) (active : Bool) (raw : List UInt8) : Prop :=
  depth < maxIfDepth ∧ DirectiveFollowed active raw ∧ ∀ name arg, active = true →
    lineDirective raw = some (name, arg) → (macroName arg).length ≤ macroNameMax

/-- The lines are such that the preprocessor follows them. -/
def Lines.Followed (depth : Nat) (active : Bool) (defs : List Macro) : Lines → Prop
  | nil => True
  | line raw rest => LineFollowed active defs raw ∧
      rest.Followed depth active (defsAfter active defs raw)
  | ifOnly opening yes closing rest =>
    let inYes := active && holds defs opening
    OpeningFollowed depth active opening ∧ yes.Followed (depth + 1) inYes defs ∧
      DirectiveFollowed inYes closing ∧ rest.Followed depth active (yes.select inYes defs).2
  | ifElse opening yes middle no closing rest =>
    let inYes := active && holds defs opening
    let inNo := active && !holds defs opening
    let defs' := (yes.select inYes defs).2
    OpeningFollowed depth active opening ∧ yes.Followed (depth + 1) inYes defs ∧
      DirectiveFollowed inYes middle ∧ no.Followed (depth + 1) inNo defs' ∧
      DirectiveFollowed inNo closing ∧ rest.Followed depth active (no.select inNo defs').2

/-! ## The table of macros -/

/-- The table has the definitions. -/
structure Agree (macros defs : List Macro) : Prop where
  find : ∀ w : List UInt8, w.length ≤ macroNameMax →
    (findMacro macros w).map (·.value) = (findMacro defs w).map (·.value)
  length : macros.length = (names defs).length

theorem agree_nil : Agree [] [] := ⟨fun _ _ => rfl, rfl⟩

section Table

variable {macros defs : List Macro} {name value w : List UInt8}

theorem findMacro_cons (m : Macro) (w : List UInt8) :
    findMacro (m :: macros) w = if m.name = w then some m else findMacro macros w := by
  by_cases h : m.name = w <;> simp [findMacro, h]

theorem isSome_findMacro : (findMacro macros w).isSome ↔ w ∈ macros.map (·.name) := by
  simp [findMacro, List.find?_isSome]

theorem findMacro_redefine (h : (findMacro macros name).isSome) :
    (findMacro (redefine name value macros) w).map (·.value) =
      if name = w then some value else (findMacro macros w).map (·.value) := by
  induction macros with
  | nil => cases h
  | cons m macros ih =>
    rw [redefine]
    by_cases hm : m.name = name
    · rw [if_pos hm, findMacro_cons, findMacro_cons, hm]
      split <;> rfl
    · rw [if_neg hm, findMacro_cons, findMacro_cons]
      rw [findMacro_cons, if_neg hm] at h
      split
      · next hw =>
        subst hw
        rw [if_neg (Ne.symm hm)]
      · exact ih h

theorem length_redefine : (redefine name value macros).length = macros.length := by
  induction macros with
  | nil => rfl
  | cons m macros ih =>
    rw [redefine]
    split
    · rfl
    · rw [List.length_cons, List.length_cons, ih]

theorem findMacro_append (m : Macro) : findMacro (macros ++ [m]) w =
    (findMacro macros w).or (if m.name = w then some m else none) := by
  rw [findMacro, List.find?_append]
  congr 1
  by_cases h : m.name = w <;> simp [h]

/-- A definition goes into the table, within its limits. -/
theorem Agree.add (h : Agree macros defs) (hname : name.length ≤ macroNameMax)
    (hvalue : value.length ≤ macroValMax) (hzero : (0 : UInt8) ∉ value)
    (hroom : (names defs).length < maxMacros) :
    Agree (addMacro macros name value) (⟨name, value⟩ :: defs) := by
  have hcut : value.takeWhile (· ≠ 0) = value := by
    rw [List.takeWhile_eq_self_iff]
    intro c hc
    have hne : c ≠ 0 := by
      rintro rfl
      exact hzero hc
    simpa using hne
  have hfull : ¬macros.length ≥ maxMacros := by
    rw [h.length]
    omega
  have hsame : (findMacro macros name).isSome ↔ name ∈ defs.map (·.name) := by
    have hfind := congrArg Option.isSome (h.find name hname)
    rw [Option.isSome_map, Option.isSome_map] at hfind
    rw [hfind, isSome_findMacro]
  rw [addMacro]
  simp only [hcut, if_neg hfull]
  by_cases hfound : (findMacro macros name).isSome
  · rw [if_pos hfound]
    refine ⟨fun w hw => ?_, ?_⟩
    · rw [findMacro_redefine hfound, findMacro_cons, h.find w hw]
      split <;> rfl
    · rw [length_redefine, h.length, names, names, List.map_cons,
        List.dedup_cons_of_mem (hsame.mp hfound)]
  · rw [if_neg hfound, List.take_of_length_le hname, List.take_of_length_le hvalue]
    refine ⟨fun w hw => ?_, ?_⟩
    · have hfind := h.find w hw
      rw [findMacro_append, findMacro_cons]
      by_cases hw' : name = w
      · subst hw'
        rw [Option.not_isSome_iff_eq_none.mp hfound]
        simp
      · simpa [hw'] using hfind
    · rw [List.length_append, h.length, names, names, List.map_cons,
        List.dedup_cons_of_notMem (fun hin => hfound (hsame.mpr hin))]
      rfl

end Table

/-! ## One line -/

theorem length_readWord (max : Nat) (s : List UInt8) : (readWord max s).1.length ≤ max :=
  List.length_take_le _ _

theorem textStep_agree {macros defs : List Macro} (h : Agree macros defs) (c : UInt8)
    (s : List UInt8) : textStep macros c s = textStep defs c s := by
  have hword := h.find (readWord macroNameMax (c :: s)).1 (length_readWord _ _)
  by_cases hq : c = chr '"' ∨ c = chr '\''
  · rw [textStep, textStep, if_pos hq, if_pos hq]
  by_cases hi : isIdentStart c
  · rw [textStep_word hq hi, textStep_word hq hi, hword]
  · rw [textStep, textStep, if_neg hq, if_neg hq, if_neg hi, if_neg hi]

theorem expandLine_agree {macros defs : List Macro} (h : Agree macros defs) :
    ∀ n raw, expandLine macros n raw = expandLine defs n raw
  | _, [] => by simp [expandLine]
  | 0, _ :: _ => rfl
  | n + 1, c :: raw => by
    rw [expandLine, expandLine, textStep_agree h, expandLine_agree h n]

/-- A short word is read whole. -/
theorem readWord_of_le {max : Nat} {s : List UInt8} (h : (macroName s).length ≤ max) :
    readWord max s = (macroName s, s.dropWhile isIdentChar) := by
  have htake : (s.takeWhile isIdentChar).take max = macroName s := List.take_of_length_le h
  have hdrop : s.drop (macroName s).length = s.dropWhile isIdentChar := by
    have hleft : (macroName s ++ s.dropWhile isIdentChar).drop (macroName s).length =
        s.dropWhile isIdentChar := List.drop_left
    rwa [macroName, List.takeWhile_append_dropWhile] at hleft
  rw [readWord, htake, hdrop]

theorem trim_split (s : List UInt8) : ∃ blanks, s = trim s ++ blanks ∧ ∀ c ∈ blanks, isTrimmed c := by
  refine ⟨(s.reverse.takeWhile isTrimmed).reverse, ?_, fun c hc => ?_⟩
  · rw [trim, ← List.reverse_append, List.takeWhile_append_dropWhile, List.reverse_reverse]
  · exact List.mem_takeWhile_imp (List.mem_reverse.mp hc)

theorem trim_append {s blanks : List UInt8} (h : ∀ c ∈ blanks, isTrimmed c) :
    trim (trim s ++ blanks) = trim s := by
  have hblanks : ∀ c ∈ blanks.reverse, isTrimmed c := fun c hc => h c (List.mem_reverse.mp hc)
  rw [trim, List.reverse_append, List.dropWhile_append_of_pos hblanks]
  exact List.rdropWhile_idempotent isTrimmed s

/-- A short value is read whole. -/
theorem readLine_of_le {max : Nat} {s : List UInt8} (hs : (10 : UInt8) ∉ s)
    (h : (trim s).length ≤ max) : (readLine max s).1 = trim s := by
  have hline : s.takeWhile (· ≠ 10) = s := by
    rw [List.takeWhile_eq_self_iff]
    intro c hc
    have hne : c ≠ 10 := by
      rintro rfl
      exact hs hc
    simpa using hne
  obtain ⟨blanks, hsplit, hblanks⟩ := trim_split s
  have htake : s.take max = trim s ++ blanks.take (max - (trim s).length) := by
    conv_lhs => rw [hsplit]
    rw [List.take_append, List.take_of_length_le h]
  have htrim : (readLine max s).1 = trim (s.take max) := by
    rw [readLine, hline]
    rfl
  rw [htrim, htake, trim_append fun c hc => hblanks c (List.mem_of_mem_take hc)]

section Directives

variable {macros defs : List Macro} {r : Region} {raw name arg : List UInt8}

theorem lineDirective_eq (h : lineDirective raw = some (name, arg)) : ∃ s,
    raw = raw.takeWhile isBlank ++ chr '#' :: s ∧ readDirective s = (name, arg) := by
  have hsplit := List.takeWhile_append_dropWhile (p := isBlank) (l := raw)
  unfold lineDirective at h
  split at h
  · cases h
  · next c s hs =>
    split at h
    · next hc =>
      subst hc
      refine ⟨s, ?_, Option.some.inj h⟩
      conv_lhs => rw [← hsplit]
      exact congrArg _ hs
    · cases h

/-- A line with a directive, up to its end. -/
theorem reads_directive {x : PpState} (hd : lineDirective raw = some (name, arg))
    (hraw : (10 : UInt8) ∉ raw) (hname : name ≠ word "include")
    (hfollowed : DirectiveFollowed x.2.active raw) (t : List UInt8) :
    ∃ blanks : List UInt8, (∀ c ∈ blanks, isBlank c) ∧ Reads plainStep x (raw ++ 10 :: t)
      (blanks ++ [10]) ((directive x.1 x.2 name arg).1, (directive x.1 x.2 name arg).2.1) t := by
  obtain ⟨s, hsplit, hs⟩ := lineDirective_eq hd
  have hnewline : (10 : UInt8) ∉ s := by
    intro hin
    rw [hsplit] at hraw
    exact hraw (List.mem_append_right _ (List.mem_cons_of_mem _ hin))
  have hinclude : includeName x.2 (chr '#') (s ++ 10 :: t) = none := by
    simp only [includeName, readDirective_newline, hs, hname, false_and, and_false, if_false]
  have hround := plainStep_directive hinclude hnewline
  rw [hs] at hround
  have hblanks : ∀ c ∈ raw.takeWhile isBlank, isBlank c := fun c hc => List.mem_takeWhile_imp hc
  cases hactive : x.2.active with
  | true =>
    refine ⟨raw.takeWhile isBlank, hblanks, ?_⟩
    have hline : raw ++ 10 :: t = raw.takeWhile isBlank ++ chr '#' :: (s ++ 10 :: t) := by
      conv_lhs => rw [hsplit]
      rw [List.append_assoc, List.cons_append]
    rw [hline]
    exact (reads_blanks hactive hblanks _).trans (.single hround)
  | false =>
    refine ⟨[], fun _ hc => absurd hc List.not_mem_nil, ?_⟩
    have hhead : raw.head? = some (chr '#') := by
      rcases hfollowed with hf | hf
      · rw [hactive] at hf
        cases hf
      · exact hf
    have hnil : raw.takeWhile isBlank = [] := by
      cases raw with
      | nil => rfl
      | cons c raw =>
        cases hhead
        rfl
    rw [hnil] at hsplit
    rw [hsplit]
    exact .single hround

variable (macros) in
theorem directive_define (hactive : r.active = true) (hraw : (10 : UInt8) ∉ arg)
    (hname : (macroName arg).length ≤ macroNameMax) (hvalue : (macroValue arg).length ≤ macroValMax) :
    (directive macros r (word "define") arg).1 = addMacro macros (macroName arg) (macroValue arg) ∧
      (directive macros r (word "define") arg).2.1 = r := by
  have hrest : (10 : UInt8) ∉ skipSpaces (arg.dropWhile isIdentChar) := fun hin =>
    hraw ((List.dropWhile_suffix _).subset ((List.dropWhile_suffix _).subset hin))
  have hline := readLine_of_le hrest hvalue
  rw [directive, if_pos ⟨rfl, hactive⟩, readWord_of_le hname]
  exact ⟨congrArg (addMacro macros (macroName arg)) hline, rfl⟩

variable (macros arg) in
theorem directive_define_inactive (hactive : r.active = false) :
    (directive macros r (word "define") arg).1 = macros ∧
      (directive macros r (word "define") arg).2.1 = r := by
  rw [directive, if_neg (by simp [hactive]), if_neg (by decide), if_neg (by decide),
    if_neg (by decide), if_neg (by decide)]
  exact ⟨rfl, rfl⟩

theorem directive_else : directive macros r (word "else") arg = (macros, r.else_, arg) := by
  rw [directive, if_neg (fun h => absurd h.1 (by decide)), if_neg (by decide), if_neg (by decide),
    if_pos rfl]

theorem directive_endif : directive macros r (word "endif") arg = (macros, r.endif, arg) := by
  rw [directive, if_neg (fun h => absurd h.1 (by decide)), if_neg (by decide), if_neg (by decide),
    if_neg (by decide), if_pos rfl]

/-- The region in a branch. -/
def Region.branch (r : Region) (active done : Bool) : Region := ⟨(active, done) :: r.ifs, active⟩

/-- The directive that opens a conditional. -/
theorem directive_opening (hagree : Agree macros defs)
    (hopening : IsDirective "ifdef" raw ∨ IsDirective "ifndef" raw)
    (hfollowed : OpeningFollowed r.ifs.length r.active raw)
    (hd : lineDirective raw = some (name, arg)) :
    (directive macros r name arg).1 = macros ∧ (directive macros r name arg).2.1 =
      r.branch (r.active && holds defs raw) (r.active && holds defs raw) := by
  obtain ⟨hdepth, -, hlength⟩ := hfollowed
  have hfind : r.active = true → (findMacro macros (readWord macroNameMax arg).1).isSome =
      (findMacro defs (macroName arg)).isSome := by
    intro hactive
    have hname := hlength name arg hactive hd
    have hsame := congrArg Option.isSome (hagree.find (macroName arg) hname)
    rw [readWord_of_le hname]
    rwa [Option.isSome_map, Option.isSome_map] at hsame
  have hholds : holds defs raw = if name = word "ifdef" then
      (findMacro defs (macroName arg)).isSome else (findMacro defs (macroName arg)).isNone := by
    rw [holds, hd]
  rcases hopening with ⟨arg', h⟩ | ⟨arg', h⟩
  · cases hd.symm.trans h
    rw [directive, if_neg (fun h => absurd h.1 (by decide)), if_pos rfl, if_pos hdepth]
    refine ⟨rfl, ?_⟩
    rw [hholds, if_pos rfl]
    cases hactive : r.active with
    | false => simp [Region.open_, Region.branch, hactive]
    | true => simp [Region.open_, Region.branch, hactive, hfind hactive]
  · cases hd.symm.trans h
    rw [directive, if_neg (fun h => absurd h.1 (by decide)), if_neg (by decide), if_pos rfl,
      if_pos hdepth]
    refine ⟨rfl, ?_⟩
    rw [hholds, if_neg (by decide)]
    cases hactive : r.active with
    | false => simp [Region.open_, Region.branch, hactive]
    | true =>
      have hnone : (findMacro macros (readWord macroNameMax arg).1).isNone =
          (findMacro defs (macroName arg)).isNone := by
        rw [← Option.not_isSome, ← Option.not_isSome, hfind hactive]
      simp [Region.open_, Region.branch, hactive, hnone]

theorem branch_else (hr : r.active = parentActive r.ifs) (b : Bool) : ∃ done,
    (r.branch (r.active && b) (r.active && b)).else_ = r.branch (r.active && !b) done := by
  simp only [Region.branch, Region.else_, ← hr]
  cases r.active <;> cases b <;> exact ⟨_, rfl⟩

theorem branch_endif (hr : r.active = parentActive r.ifs) (active done : Bool) :
    (r.branch active done).endif = r := by
  simp only [Region.branch, Region.endif, ← hr]

end Directives

/-! ## All lines -/

section Lines

variable {macros defs : List Macro} {r : Region} {raw : List UInt8}

theorem EmitsLines.newline {ps : List (Option (List UInt8))} {o : List UInt8}
    (h : EmitsLines ps o) : EmitsLines (none :: ps) (10 :: o) := by
  have hnil : ∀ c ∈ ([] : List UInt8), isBlank c := nofun
  exact .other hnil h

/-- A line of text or with a definition. -/
theorem reads_line (hagree : Agree macros defs) (hnewline : (10 : UInt8) ∉ raw)
    (hzero : (0 : UInt8) ∉ raw) (hraw : lineDirective raw = none ∨ IsDirective "define" raw)
    (hfollowed : LineFollowed r.active defs raw) (t : List UInt8) : ∃ macros' o,
      Reads plainStep (macros, r) (raw ++ 10 :: t) o (macros', r) t ∧
        Agree macros' (defsAfter r.active defs raw) ∧
        ∀ ps o', EmitsLines ps o' → EmitsLines (compiled r.active defs raw :: ps) (o ++ o') := by
  have hskip : r.active = false → raw.head? ≠ some (chr '#') →
      Reads plainStep (macros, r) (raw ++ 10 :: t) [10] (macros, r) t :=
    fun hactive hhead => reads_skip hactive hnewline hhead t
  rcases hraw with hnone | ⟨arg, hdefine⟩
  · simp only [defsAfter, compiled, hnone]
    cases hactive : r.active with
    | true =>
      have hclosed : closedText raw.length raw = true := by
        have h := hfollowed hactive
        rwa [hnone] at h
      refine ⟨macros, _, (reads_text hactive t _ _ hclosed).trans (.single (plainStep_newline t)), hagree,
        fun ps o' h => ?_⟩
      rw [expandLine_agree hagree, List.append_assoc]
      exact .text h
    | false =>
      have hhead : raw.head? ≠ some (chr '#') := by
        intro hhead
        cases raw with
        | nil => cases hhead
        | cons c raw =>
          cases hhead
          have hspaces : skipSpaces (chr '#' :: raw) = chr '#' :: raw := rfl
          rw [lineDirective, hspaces] at hnone
          cases hnone
      exact ⟨macros, _, hskip hactive hhead, hagree, fun ps o' h => h.newline⟩
  · simp only [defsAfter, compiled, hdefine]
    cases hactive : r.active with
    | true =>
      obtain ⟨hname, hvalue, hroom⟩ : (macroName arg).length ≤ macroNameMax ∧
          (macroValue arg).length ≤ macroValMax ∧ (names defs).length < maxMacros := by
        have h := hfollowed hactive
        rwa [hdefine] at h
      obtain ⟨s, hsplit, hs⟩ := lineDirective_eq hdefine
      have harg : ∀ c ∈ arg, c ∈ raw := by
        intro c hc
        have hin : c ∈ s := by
          have hsuffix := readDirective_suffix s
          rw [hs] at hsuffix
          exact hsuffix.subset hc
        rw [hsplit]
        exact List.mem_append_right _ (List.mem_cons_of_mem _ hin)
      have hvalueZero : (0 : UInt8) ∉ macroValue arg := by
        intro hin
        have hin' := (List.dropWhile_suffix _).subset (List.mem_reverse.mp hin)
        have hin'' := (List.dropWhile_suffix _).subset (List.mem_reverse.mp hin')
        exact hzero (harg 0 ((List.dropWhile_suffix _).subset hin''))
      obtain ⟨blanks, hblanks, hreads⟩ := reads_directive (x := (macros, r)) hdefine hnewline
        (by decide) (.inl hactive) t
      obtain ⟨hmacros, hregion⟩ := directive_define macros hactive
        (fun hin => hnewline (harg 10 hin)) hname hvalue
      rw [hmacros, hregion] at hreads
      refine ⟨_, _, hreads, hagree.add hname hvalue hvalueZero hroom, fun ps o' h => ?_⟩
      rw [List.append_assoc]
      exact .other hblanks h
    | false =>
      have hother : ∀ ps o', EmitsLines ps o' → EmitsLines (none :: ps) ([10] ++ o') :=
        fun ps o' h => h.newline
      by_cases hhead : raw.head? = some (chr '#')
      · obtain ⟨blanks, hblanks, hreads⟩ := reads_directive (x := (macros, r)) hdefine hnewline
          (by decide) (.inr hhead) t
        obtain ⟨hmacros, hregion⟩ := directive_define_inactive macros arg hactive
        rw [hmacros, hregion] at hreads
        refine ⟨_, _, hreads, hagree, fun ps o' h => ?_⟩
        rw [List.append_assoc]
        exact .other hblanks h
      · exact ⟨macros, _, hskip hactive hhead, hagree, hother⟩

/-- The line that opens a conditional. -/
theorem reads_opening (hagree : Agree macros defs) (hnewline : (10 : UInt8) ∉ raw)
    (hopening : IsDirective "ifdef" raw ∨ IsDirective "ifndef" raw)
    (hfollowed : OpeningFollowed r.ifs.length r.active raw) (t : List UInt8) :
    ∃ blanks : List UInt8, (∀ c ∈ blanks, isBlank c) ∧
      Reads plainStep (macros, r) (raw ++ 10 :: t) (blanks ++ [10]) (macros,
        r.branch (r.active && holds defs raw) (r.active && holds defs raw)) t := by
  obtain ⟨name, arg, hd, hname⟩ : ∃ name arg, lineDirective raw = some (name, arg) ∧
      name ≠ word "include" := by
    rcases hopening with ⟨arg, h⟩ | ⟨arg, h⟩
    · exact ⟨_, arg, h, by decide⟩
    · exact ⟨_, arg, h, by decide⟩
  obtain ⟨blanks, hblanks, hreads⟩ :=
    reads_directive (x := (macros, r)) hd hnewline hname hfollowed.2.1 t
  obtain ⟨hmacros, hregion⟩ := directive_opening hagree hopening hfollowed hd
  rw [hmacros, hregion] at hreads
  exact ⟨blanks, hblanks, hreads⟩

variable (macros) in
theorem reads_else (hr : r.active = parentActive r.ifs) (hnewline : (10 : UInt8) ∉ raw)
    (hd : IsDirective "else" raw) {b : Bool} (hfollowed : DirectiveFollowed (r.active && b) raw)
    (t : List UInt8) : ∃ (blanks : List UInt8) (done : Bool), (∀ c ∈ blanks, isBlank c) ∧
      Reads plainStep (macros, r.branch (r.active && b) (r.active && b)) (raw ++ 10 :: t)
        (blanks ++ [10]) (macros, r.branch (r.active && !b) done) t := by
  obtain ⟨arg, hd⟩ := hd
  obtain ⟨blanks, hblanks, hreads⟩ := reads_directive
    (x := (macros, r.branch (r.active && b) (r.active && b))) hd hnewline (by decide) hfollowed t
  obtain ⟨done, hdone⟩ := branch_else hr b
  rw [directive_else, hdone] at hreads
  exact ⟨blanks, done, hblanks, hreads⟩

variable (macros) in
theorem reads_endif (active done : Bool) (hr : r.active = parentActive r.ifs)
    (hnewline : (10 : UInt8) ∉ raw) (hd : IsDirective "endif" raw) (hfollowed : DirectiveFollowed active raw)
    (t : List UInt8) : ∃ blanks : List UInt8, (∀ c ∈ blanks, isBlank c) ∧
      Reads plainStep (macros, r.branch active done) (raw ++ 10 :: t) (blanks ++ [10]) (macros, r)
        t := by
  obtain ⟨arg, hd⟩ := hd
  obtain ⟨blanks, hblanks, hreads⟩ := reads_directive (x := (macros, r.branch active done)) hd
    hnewline (by decide) hfollowed t
  rw [directive_endif, branch_endif hr] at hreads
  exact ⟨blanks, hblanks, hreads⟩

theorem EmitsLines.append {ps qs : List (Option (List UInt8))} {o o' : List UInt8}
    (h : EmitsLines ps o) (h' : EmitsLines qs o') : EmitsLines (ps ++ qs) (o ++ o') := by
  induction h with
  | nil => exact h'
  | text _ ih =>
    rw [List.append_assoc]
    exact .text ih
  | other hblanks _ ih =>
    rw [List.append_assoc]
    exact .other hblanks ih

/-- A line with a directive goes before others. -/
theorem EmitsLines.directive {blanks : List UInt8} (hblanks : ∀ c ∈ blanks, isBlank c)
    {ps : List (Option (List UInt8))} {o : List UInt8} (h : EmitsLines ps o) :
    EmitsLines (none :: ps) ((blanks ++ [10]) ++ o) := by
  rw [List.append_assoc]
  exact .other hblanks h

/-- The preprocessor reads lines that it follows as they are selected. -/
theorem reads_lines (L : Lines) (hok : L.Ok) (hfollowed : L.Followed r.ifs.length r.active defs)
    (hagree : Agree macros defs) (hr : r.active = parentActive r.ifs) (t : List UInt8) :
    ∃ macros' o, Reads plainStep (macros, r) (L.text ++ t) o (macros', r) t ∧
      Agree macros' (L.select r.active defs).2 ∧ EmitsLines (L.select r.active defs).1 o := by
  induction L generalizing macros defs r t with
  | nil => exact ⟨macros, [], .refl _ _, hagree, .nil⟩
  | line raw rest ih =>
    obtain ⟨hnewline, hzero, hraw, hrest⟩ := hok
    obtain ⟨m₁, o₁, hreads, hagree₁, hemits⟩ :=
      reads_line hagree hnewline hzero hraw hfollowed.1 (rest.text ++ t)
    obtain ⟨m₂, o₂, hreads₂, hagree₂, hemits₂⟩ := ih hrest hfollowed.2 hagree₁ hr t
    refine ⟨m₂, o₁ ++ o₂, ?_, hagree₂, hemits _ _ hemits₂⟩
    rw [Lines.text, List.append_assoc, List.cons_append]
    exact hreads.trans hreads₂
  | ifOnly opening yes closing rest ihYes ihRest =>
    obtain ⟨hnewline, hopening, hyes, hnewline', hclosing, hrest⟩ := hok
    obtain ⟨hfOpening, hfYes, hfClosing, hfRest⟩ := hfollowed
    obtain ⟨b₁, hb₁, h₁⟩ := reads_opening hagree hnewline hopening hfOpening
      (yes.text ++ (closing ++ 10 :: (rest.text ++ t)))
    obtain ⟨m₂, o₂, h₂, hagree₂, hemits₂⟩ := ihYes
      (r := r.branch (r.active && holds defs opening) (r.active && holds defs opening)) hyes hfYes
      hagree rfl
      (closing ++ 10 :: (rest.text ++ t))
    obtain ⟨b₃, hb₃, h₃⟩ := reads_endif m₂ _ _ hr hnewline' hclosing hfClosing (rest.text ++ t)
    obtain ⟨m₄, o₄, h₄, hagree₄, hemits₄⟩ := ihRest hrest hfRest hagree₂ hr t
    have htext : (Lines.ifOnly opening yes closing rest).text ++ t =
        opening ++ 10 :: (yes.text ++ (closing ++ 10 :: (rest.text ++ t))) := by
      simp only [Lines.text, List.append_assoc, List.cons_append]
    refine ⟨m₄, _, ?_, hagree₄, .directive hb₁ (hemits₂.append (.directive hb₃ hemits₄))⟩
    rw [htext]
    exact h₁.trans (h₂.trans (h₃.trans h₄))
  | ifElse opening yes middle no closing rest ihYes ihNo ihRest =>
    obtain ⟨hnewline, hopening, hyes, hnewline', hmiddle, hno, hnewline'', hclosing, hrest⟩ := hok
    obtain ⟨hfOpening, hfYes, hfMiddle, hfNo, hfClosing, hfRest⟩ := hfollowed
    obtain ⟨b₁, hb₁, h₁⟩ := reads_opening hagree hnewline hopening hfOpening
      (yes.text ++ (middle ++ 10 :: (no.text ++ (closing ++ 10 :: (rest.text ++ t)))))
    obtain ⟨m₂, o₂, h₂, hagree₂, hemits₂⟩ := ihYes
      (r := r.branch (r.active && holds defs opening) (r.active && holds defs opening)) hyes hfYes
      hagree rfl
      (middle ++ 10 :: (no.text ++ (closing ++ 10 :: (rest.text ++ t))))
    obtain ⟨b₃, done, hb₃, h₃⟩ := reads_else m₂ hr hnewline' hmiddle hfMiddle
      (no.text ++ (closing ++ 10 :: (rest.text ++ t)))
    obtain ⟨m₄, o₄, h₄, hagree₄, hemits₄⟩ := ihNo (r := r.branch (r.active && !holds defs opening)
      done) hno hfNo hagree₂ rfl (closing ++ 10 :: (rest.text ++ t))
    obtain ⟨b₅, hb₅, h₅⟩ := reads_endif m₄ _ done hr hnewline'' hclosing
      hfClosing (rest.text ++ t)
    obtain ⟨m₆, o₆, h₆, hagree₆, hemits₆⟩ := ihRest hrest hfRest hagree₄ hr t
    have htext : (Lines.ifElse opening yes middle no closing rest).text ++ t = opening ++ 10 ::
        (yes.text ++ (middle ++ 10 :: (no.text ++ (closing ++ 10 :: (rest.text ++ t))))) := by
      simp only [Lines.text, List.append_assoc, List.cons_append]
    refine ⟨m₆, _, ?_, hagree₆, .directive hb₁ (hemits₂.append
      (.directive hb₃ (hemits₄.append (.directive hb₅ hemits₆))))⟩
    rw [htext]
    exact h₁.trans (h₂.trans (h₃.trans (h₄.trans (h₅.trans h₆))))

end Lines

/-- Conditional compilation: of a source that the preprocessor follows, the lines of text that are
selected are put out, and no other, as far as the output has room. The last newline may be
missing. -/
theorem conditionals_selected {L : Lines} (hok : L.Ok) (hfollowed : L.Followed 0 true [])
    {source : List UInt8} (hsource : source = L.text ∨ source ++ [10] = L.text) :
    ∃ out, (EmitsLines (L.select true []).1 out ∨ EmitsLines (L.select true []).1 (out ++ [10])) ∧
      ∀ files fuel outMax st, source.length < fuel → ∃ macros,
        preprocess files fuel (.text source) outMax st =
          some (⟨macros, st.includeBuf⟩, some (out.take (outMax - 1))) := by
  obtain ⟨macros, o, hreads, -, hemits⟩ := reads_lines (r := Region.init) L hok hfollowed agree_nil
    rfl []
  rw [List.append_nil] at hreads
  rcases hsource with rfl | hsource
  · exact ⟨o, .inl hemits, fun files fuel outMax st hfuel =>
      ⟨macros, preprocess_reads hreads hfuel⟩⟩
  · rw [← hsource] at hreads
    obtain ⟨o', rfl, hreads'⟩ := reads_unterminated hreads
    exact ⟨o', .inr hemits, fun files fuel outMax st hfuel =>
      ⟨macros, preprocess_reads hreads' hfuel⟩⟩

/-- `#define A 1`, `#ifdef A`, `x`, `#else`, `y`, `#endif` -/
def ifdefLines : Lines :=
  .line (word "#define A 1") (.ifElse (word "#ifdef A") (.line (word "x") .nil) (word "#else")
    (.line (word "y") .nil) (word "#endif") .nil)

theorem ifdefLines_ok : ifdefLines.Ok :=
  ⟨by decide, by decide, .inr ⟨_, rfl⟩, by decide, .inl ⟨_, rfl⟩, ⟨by decide, by decide, .inl rfl, trivial⟩,
    by decide, ⟨_, rfl⟩, ⟨by decide, by decide, .inl rfl, trivial⟩, by decide, ⟨_, rfl⟩, trivial⟩

theorem ifdefLines_followed : ifdefLines.Followed 0 true [] := by
  have hopening : OpeningFollowed 0 true (word "#ifdef A") := by
    refine ⟨by decide, .inl rfl, ?_⟩
    rintro name arg - h
    cases h
    decide
  exact ⟨fun _ => ⟨by decide, by decide, by decide⟩, hopening, ⟨fun _ => rfl, trivial⟩, .inr rfl,
    ⟨nofun, trivial⟩, .inr rfl, trivial⟩

/-- The first branch is put out. -/
theorem conditionals_selected_ifdef : ∃ out,
    (EmitsLines [none, none, some (word "x"), none, none, none] out ∨
      EmitsLines [none, none, some (word "x"), none, none, none] (out ++ [10])) ∧
      ∀ files fuel outMax st, ifdefLines.text.length < fuel → ∃ macros,
        preprocess files fuel (.text ifdefLines.text) outMax st =
          some (⟨macros, st.includeBuf⟩, some (out.take (outMax - 1))) :=
  conditionals_selected ifdefLines_ok ifdefLines_followed (.inl rfl)

/-- `#ifdef X`, `a`, `  #endif`, `b` -/
def indentedLines : Lines :=
  .ifOnly (word "#ifdef X") (.line (word "a") .nil) (word "  #endif") (.line (word "b") .nil)

/-- A line of text that is put out is in the output. -/
theorem EmitsLines.mem {ps : List (Option (List UInt8))} {o e : List UInt8} (h : EmitsLines ps o)
    (he : some e ∈ ps) : ∀ c ∈ e, c ∈ o := by
  induction h with
  | nil => cases he
  | text _ ih =>
    intro c hc
    rcases List.mem_cons.mp he with heq | hin
    · cases heq
      exact List.mem_append_left _ hc
    · exact List.mem_append_right _ (List.mem_cons_of_mem _ (ih hin c hc))
  | other _ _ ih =>
    intro c hc
    have hin := (List.mem_cons.mp he).resolve_left nofun
    exact List.mem_append_right _ (List.mem_cons_of_mem _ (ih hin c hc))

/-- An indented `#endif` is skipped with the lines before it. -/
theorem indented_endif_skipped : ¬∀ L : Lines, L.Ok → ∃ out, EmitsLines (L.select true []).1 out ∧
    ∀ files fuel outMax st, L.text.length < fuel → ∃ macros,
      preprocess files fuel (.text L.text) outMax st =
        some (⟨macros, st.includeBuf⟩, some (out.take (outMax - 1))) := by
  intro h
  have hok : indentedLines.Ok :=
    ⟨by decide, .inl ⟨_, rfl⟩, ⟨by decide, by decide, .inl rfl, trivial⟩, by decide, ⟨_, rfl⟩,
      by decide, by decide, .inl rfl, trivial⟩
  obtain ⟨out, hemits, hrun⟩ := h indentedLines hok
  obtain ⟨macros, hout⟩ := hrun (fun _ => none) 30 100 ⟨[], fun _ => 0⟩ (by decide)
  have hcode : (preprocess (fun _ => none) 30 (.text indentedLines.text) 100
      ⟨[], fun _ => 0⟩).map (·.2) = some (some [10, 10, 10, 10]) := by decide
  rw [hout] at hcode
  have htake : out.take 99 = [10, 10, 10, 10] := by
    injection hcode with hcode
    injection hcode
  have hlength := congrArg List.length htake
  rw [List.length_take] at hlength
  have hshort : out.length ≤ 99 := by
    simp only [List.length_cons, List.length_nil] at hlength
    omega
  rw [List.take_of_length_le hshort] at htake
  have hb : (98 : UInt8) ∈ out := hemits.mem (e := word "b") (by decide) 98 (by decide)
  rw [htake] at hb
  revert hb
  decide

end RainbowOs.Cc
