import RainbowOs.Cc.Rounds
import Mathlib.Data.List.Infix

/-!
# Lines of the source

An error names the line of `lex_line`. The lexer counts the newlines of the
preprocessed text as it passes them, in white space, comments, literals and
escapes alike; and a round of the preprocessor puts out as many newlines as
it reads. So the line is the one of the source itself.
-/

namespace RainbowOs.Cc

open RainbowOs.Lib
open Scan (Round Reads)

/-! ## The lexer -/

/-- The lexer has gone on from `p` to `q`, and counted the lines between. -/
structure Passes (p q : Pos) : Prop where
  rest : q.rest <:+ p.rest
  line : q.line + q.rest.count 10 = p.line + p.rest.count 10

namespace Passes

variable {p q r : Pos}

theorem refl (p : Pos) : Passes p p := ⟨List.suffix_rfl, rfl⟩

theorem trans (h : Passes p q) (h' : Passes q r) : Passes p r :=
  ⟨h'.rest.trans h.rest, h'.line.trans h.line⟩

/-- Past one character, with its newline counted. -/
theorem char (c : UInt8) (line : Nat) (rest : List UInt8) :
    Passes ⟨c :: rest, line⟩ ⟨rest, lineAfter c line⟩ := by
  refine ⟨List.suffix_cons c rest, ?_⟩
  show lineAfter c line + rest.count 10 = line + (c :: rest).count 10
  rw [List.count_cons, lineAfter]
  by_cases hc : c = 10
  · rw [if_pos hc, if_pos (beq_iff_eq.mpr hc)]
    omega
  · rw [if_neg hc, if_neg (fun h => hc (beq_iff_eq.mp h))]
    rfl

/-- Past one character that is no newline. -/
theorem plain {c : UInt8} (hc : c ≠ 10) (line : Nat) (rest : List UInt8) :
    Passes ⟨c :: rest, line⟩ ⟨rest, line⟩ := by
  have h := char c line rest
  rwa [lineAfter, if_neg hc] at h

end Passes

theorem passes_nextChar (p : Pos) : Passes p (nextChar p).2 := by
  obtain ⟨rest, line⟩ := p
  cases rest with
  | nil => exact .refl _
  | cons c rest => exact .char c line rest

theorem passes_parseEscape (p : Pos) : Passes p (parseEscape p).2 := passes_nextChar p

theorem passes_skipWhitespace (mode : SkipMode) (line : Nat) (s : List UInt8) :
    Passes ⟨s, line⟩ (skipWhitespace mode line s) := by
  have hslash : chr '/' ≠ 10 := by decide
  have hstar : chr '*' ≠ 10 := by decide
  fun_induction skipWhitespace mode line s with
  | case1 => exact .refl _
  | case2 line c h => exact .char c line []
  | case3 => exact .refl _
  | case4 line c d rest h ih => exact (Passes.char c line _).trans ih
  | case5 line c d rest h hc ih =>
    obtain ⟨rfl, rfl⟩ := hc
    exact ((Passes.plain hslash line _).trans (.plain hslash line _)).trans ih
  | case6 line c d rest h h' hc ih =>
    obtain ⟨rfl, rfl⟩ := hc
    exact ((Passes.plain hslash line _).trans (.plain hstar line _)).trans ih
  | case7 => exact .refl _
  | case8 line rest ih =>
    have hchar := Passes.char 10 line rest
    rw [lineAfter, if_pos rfl] at hchar
    exact hchar.trans ih
  | case9 line c rest hc ih => exact (Passes.plain hc line rest).trans ih
  | case10 line c h => exact .char c line []
  | case11 => exact .refl _
  | case12 line c d rest hc ih =>
    obtain ⟨rfl, rfl⟩ := hc
    exact ((Passes.plain hstar line _).trans (.plain hslash line _)).trans ih
  | case13 line c d rest hc ih => exact (Passes.char c line _).trans ih

/-- No character that may stand in a word or a number is a newline. -/
theorem newline_facts : isDigit 10 = false ∧ isHex 10 = false ∧ isAlnum 10 = false := by decide

theorem passes_lexDecimal (num : Int) (line : Nat) (s : List UInt8) :
    Passes ⟨s, line⟩ (lexDecimal num line s).2 := by
  fun_induction lexDecimal num line s with
  | case1 => exact .refl _
  | case2 num c rest h ih =>
    have hc : c ≠ 10 := by
      rintro rfl
      rw [newline_facts.1] at h
      cases h
    exact (Passes.plain hc line rest).trans ih
  | case3 => exact .refl _

theorem passes_lexHex (num : Int) (line : Nat) (s : List UInt8) :
    Passes ⟨s, line⟩ (lexHex num line s).2 := by
  fun_induction lexHex num line s with
  | case1 => exact .refl _
  | case2 num c rest h ih =>
    have hc : c ≠ 10 := by
      rintro rfl
      rw [newline_facts.2.1] at h
      cases h
    exact (Passes.plain hc line rest).trans ih
  | case3 => exact .refl _

theorem passes_lexIdent (line n : Nat) (str s : List UInt8) :
    Passes ⟨s, line⟩ (lexIdent line n str s).2 := by
  fun_induction lexIdent line n str s with
  | case1 => exact .refl _
  | case2 => exact .refl _
  | case3 n str c rest h ih =>
    have hc : c ≠ 10 := by
      rintro rfl
      rw [newline_facts.2.2] at h
      cases h
    exact (Passes.plain hc line rest).trans ih
  | case4 => exact .refl _

theorem passes_lexString (line : Nat) (str s : List UInt8) :
    Passes ⟨s, line⟩ (lexString line str s).2 := by
  have hquote : chr '"' ≠ 10 := by decide
  have hback : chr '\\' ≠ 10 := by decide
  fun_induction lexString line str s with
  | case1 => exact .refl _
  | case2 line str => exact .plain hquote line []
  | case3 line str h => exact .plain hback line []
  | case4 line str c h h' => exact .char c line []
  | case5 line str d rest => exact .plain hquote line _
  | case6 line str d rest h hfull =>
    exact ((Passes.plain hback line _).trans (.char d line rest)).trans (passes_nextChar _)
  | case7 line str d rest h hfull ih =>
    exact ((Passes.plain hback line _).trans (.char d line rest)).trans ih
  | case8 line str c d rest h h' hfull => exact (Passes.char c line _).trans (passes_nextChar _)
  | case9 line str c d rest h h' hfull ih => exact (Passes.char c line _).trans ih

theorem passes_skipQuote (p : Pos) : Passes p (skipQuote p) := by
  have hquote : chr '\'' ≠ 10 := by decide
  fun_cases skipQuote p with
  | case1 => exact .refl _
  | case2 rest line => exact .plain hquote line rest
  | case3 => exact .refl _

theorem passes_lexChar (p : Pos) : Passes p (lexChar p).2 := by
  unfold lexChar
  split
  · exact ((passes_nextChar p).trans (passes_parseEscape _)).trans (passes_skipQuote _)
  · exact (passes_nextChar p).trans (passes_skipQuote _)

/-- No operator ends in a newline. -/
theorem lookup_newline (c : UInt8) : (operators c).1.lookup 10 = none := by
  unfold operators
  split_ifs <;> rfl

theorem passes_lexOperator (c : UInt8) (line : Nat) (s : List UInt8) :
    Passes ⟨s, line⟩ (lexOperator c line s).2 := by
  fun_cases lexOperator c line s with
  | case1 => exact .refl _
  | case2 d rest t h =>
    have hd : d ≠ 10 := by
      rintro rfl
      rw [lookup_newline] at h
      cases h
    exact .plain hd line rest
  | case3 => exact .refl _

theorem passes_lexToken (c : UInt8) (line : Nat) (s : List UInt8) :
    Passes ⟨s, line⟩ (lexToken c line s).2 := by
  unfold lexToken
  split
  · split
    · next x digits =>
      split
      · next h =>
        have hx : x ≠ 10 := by
          rintro rfl
          rcases h.2 with h | h <;> exact absurd h (by decide)
        exact (Passes.plain hx line digits).trans (passes_lexHex _ _ _)
      · exact passes_lexDecimal _ _ _
    · exact passes_lexDecimal _ _ _
  · split
    · exact passes_lexIdent _ _ _ _
    · split
      · exact passes_lexString _ _ _
      · split
        · exact passes_lexChar _
        · exact passes_lexOperator _ _ _

/-- White space is skipped to its end. -/
theorem skipWhitespace_head {mode : SkipMode} {line line' : Nat} {s rest : List UInt8} {c : UInt8}
    (h : skipWhitespace mode line s = ⟨c :: rest, line'⟩) : isSpace c = false := by
  fun_induction skipWhitespace mode line s with
  | case1 => cases h
  | case2 => cases h
  | case3 line d hd =>
    cases h
    exact Bool.eq_false_iff.mpr hd
  | case4 line d e rest' hd ih => exact ih h
  | case5 line d e rest' hd hc ih => exact ih h
  | case6 line d e rest' hd hd' hc ih => exact ih h
  | case7 line d e rest' hd =>
    cases h
    exact Bool.eq_false_iff.mpr hd
  | case8 line rest' ih => exact ih h
  | case9 line d rest' hd ih => exact ih h
  | case10 => cases h
  | case11 line d hd =>
    cases h
    exact Bool.eq_false_iff.mpr hd
  | case12 line d e rest' hc ih => exact ih h
  | case13 line d e rest' hc ih => exact ih h

theorem passes_lexScan (p : Pos) : Passes p (lexScan p).2 := by
  have hskip := passes_skipWhitespace .code p.line p.rest
  unfold lexScan
  split
  · next line h => exact h ▸ hskip
  · next c rest line h =>
    have hc : c ≠ 10 := by
      rintro rfl
      exact absurd (skipWhitespace_head h) (by decide)
    rw [h] at hskip
    exact (hskip.trans (.plain hc line rest)).trans (passes_lexToken c line rest)

/-- The lexers that the parser comes to on a text. -/
inductive Lexes (text : List UInt8) : Lexer → Prop
  | init : Lexes text (lexInit text)
  | next {l : Lexer} (h : Lexes text l) : Lexes text l.next.2
  | peek {l : Lexer} (h : Lexes text l) : Lexes text l.peek.2

/-- The line is that of the newlines behind it. -/
theorem line_of_lexes {text : List UInt8} {l : Lexer} (h : Lexes text l) :
    ∃ pre, text = pre ++ l.pos.rest ∧ l.line = 1 + pre.count 10 := by
  have hpasses : Passes ⟨text, 1⟩ l.pos := by
    induction h with
    | init => exact .refl _
    | @next l _ ih =>
      unfold Lexer.next
      split
      · exact ih
      · exact ih.trans (passes_lexScan l.pos)
    | @peek l _ ih =>
      unfold Lexer.peek
      split
      · exact ih
      · exact ih.trans (passes_lexScan l.pos)
  obtain ⟨pre, hpre⟩ := hpasses.rest
  have hline := hpasses.line
  dsimp only at hpre hline
  refine ⟨pre, hpre.symm, ?_⟩
  rw [← hpre, List.count_append] at hline
  unfold Lexer.line
  omega

/-! ## The preprocessor -/

section Rounds

variable {s w : List UInt8}

theorem count_drop (hw : w <+: s) (hnone : (10 : UInt8) ∉ w) : (s.drop w.length).count 10 = s.count 10 := by
  obtain ⟨t, rfl⟩ := hw
  rw [List.drop_left, List.count_append, List.count_eq_zero.mpr hnone, Nat.zero_add]

theorem count_dropWhile {p : UInt8 → Bool} (hp : p 10 = false) (s : List UInt8) :
    (s.dropWhile p).count 10 = s.count 10 := by
  have hnone : (10 : UInt8) ∉ s.takeWhile p := fun h => by
    rw [List.mem_takeWhile_imp h] at hp
    cases hp
  conv_rhs => rw [← List.takeWhile_append_dropWhile (p := p) (l := s), List.count_append,
    List.count_eq_zero.mpr hnone, Nat.zero_add]

theorem newline_not_mem_takeWhile {p : UInt8 → Bool} (hp : p 10 = false) (n : Nat) (s : List UInt8) :
    (10 : UInt8) ∉ (s.takeWhile p).take n := fun h => by
  rw [List.mem_takeWhile_imp (List.mem_of_mem_take h)] at hp
  cases hp

theorem count_readWord (max : Nat) (s : List UInt8) : (readWord max s).2.count 10 = s.count 10 :=
  count_drop ((List.take_prefix _ _).trans (List.takeWhile_prefix _)) (newline_not_mem_takeWhile (by decide) _ _)

theorem count_skipSpaces (s : List UInt8) : (skipSpaces s).count 10 = s.count 10 :=
  count_dropWhile (by decide) s

theorem count_readLine (max : Nat) (s : List UInt8) : (readLine max s).2.count 10 = s.count 10 :=
  count_drop ((List.take_prefix _ _).trans (List.takeWhile_prefix _)) (newline_not_mem_takeWhile (by decide) _ _)

theorem newline_not_mem_readLine (max : Nat) (s : List UInt8) : (10 : UInt8) ∉ (readLine max s).1 := fun h => by
  have hmem := (List.dropWhile_sublist _).mem (List.mem_reverse.mp h)
  exact newline_not_mem_takeWhile (by decide) max s (List.mem_reverse.mp hmem)

theorem count_directive (macros : List Macro) (r : Region) (name s : List UInt8) :
    (directive macros r name s).2.2.count 10 = s.count 10 := by
  unfold directive
  split
  · rw [count_readLine, count_skipSpaces, count_readWord]
  · split_ifs <;> first | rfl | exact count_readWord _ _

theorem count_finishLine (macros : List Macro) (r : Region) (s : List UInt8) :
    (finishLine macros r s).out.count 10 + (finishLine macros r s).rest.count 10 = s.count 10 := by
  have hskip : (skipLine s).count 10 = s.count 10 := count_dropWhile (by decide) s
  rw [← hskip]
  unfold finishLine
  split
  · next h => rw [h]; rfl
  · next c rest h => rw [h, ← List.count_append]; rfl

/-- No value of a macro has a newline. -/
def OneLine (macros : List Macro) : Prop := ∀ m ∈ macros, (10 : UInt8) ∉ m.value

theorem oneLine_redefine {macros : List Macro} (h : OneLine macros) {value : List UInt8}
    (hvalue : (10 : UInt8) ∉ value) (name : List UInt8) : OneLine (redefine name value macros) := by
  induction macros with
  | nil => exact h
  | cons m macros ih =>
    have hm := h m List.mem_cons_self
    have hrest : OneLine macros := fun m' hm' => h m' (List.mem_cons_of_mem m hm')
    unfold redefine
    split
    · exact List.forall_mem_cons.mpr ⟨hvalue, hrest⟩
    · exact List.forall_mem_cons.mpr ⟨hm, ih hrest⟩

theorem oneLine_addMacro {macros : List Macro} (h : OneLine macros) {value : List UInt8}
    (hvalue : (10 : UInt8) ∉ value) (name : List UInt8) : OneLine (addMacro macros name value) := by
  have htaken : (10 : UInt8) ∉ value.takeWhile (· ≠ 0) := fun hmem => hvalue ((List.takeWhile_prefix _).subset hmem)
  unfold addMacro
  dsimp only
  split
  · exact h
  · split
    · exact oneLine_redefine h htaken name
    · intro m hm
      rcases List.mem_append.mp hm with hm | hm
      · exact h m hm
      · rw [List.mem_singleton.mp hm]
        exact fun hmem => htaken (List.mem_of_mem_take hmem)

theorem oneLine_directive {macros : List Macro} (h : OneLine macros) (r : Region) (name s : List UInt8) :
    OneLine (directive macros r name s).1 := by
  unfold directive
  split
  · exact oneLine_addMacro h (newline_not_mem_readLine _ _) _
  · split_ifs <;> exact h

/-- What a round of text puts out is what it reads, or the value of a macro for a word. -/
theorem textStep_copies {macros : List Macro} (h : OneLine macros) (c : UInt8) (s : List UInt8) :
    (textStep macros c s).1 ++ (textStep macros c s).2 = c :: s ∨
      (10 : UInt8) ∉ (textStep macros c s).1 ∧ (textStep macros c s).2.count 10 = (c :: s).count 10 := by
  unfold textStep
  split
  · exact .inl (congrArg (c :: ·) (readLiteral_verbatim c s))
  · split
    · next hi =>
      dsimp only
      cases hfind : findMacro macros (readWord macroNameMax (c :: s)).1 with
      | some m => exact .inr ⟨h m (List.mem_of_find?_eq_some hfind), count_readWord _ _⟩
      | none =>
        have hprefix : (readWord macroNameMax (c :: s)).1 <+: c :: s :=
          (List.take_prefix _ _).trans (List.takeWhile_prefix _)
        refine .inl ?_
        rw [Option.map_none, Option.getD_none]
        conv_rhs => rw [← List.take_append_drop (readWord macroNameMax (c :: s)).1.length (c :: s)]
        rw [← List.prefix_iff_eq_take.mp hprefix]
        rfl
    · exact .inl rfl

theorem finishLine_macros (macros : List Macro) (r : Region) (s : List UInt8) :
    (finishLine macros r s).macros = macros := by
  unfold finishLine
  split <;> rfl

theorem finishLine_cases (macros : List Macro) (r : Region) (s : List UInt8) :
    (finishLine macros r s).out = [] ∨ (finishLine macros r s).out = [10] := by
  unfold finishLine
  split
  · exact .inl rfl
  · next c rest h =>
    have hhead := List.head?_dropWhile_not (· ≠ (10 : UInt8)) s
    rw [show s.dropWhile (· ≠ 10) = c :: rest from h] at hhead
    refine .inr ?_
    have hc : c = 10 := by simpa using hhead
    rw [hc]

/-- What a round puts out: text as it is, a value without newlines, or the newline of a line. -/
inductive RoundLines (t : List UInt8) (r : Round PpState UInt8 UInt8) : Prop
  | copied (h : r.out ++ r.rest = t)
  | replaced (hnone : (10 : UInt8) ∉ r.out) (h : r.rest.count 10 = t.count 10)
  | ended (hout : r.out = [10]) (h : 1 + r.rest.count 10 = t.count 10)

variable {x : PpState} {c : UInt8} {r : Round PpState UInt8 UInt8}

theorem RoundLines.count {t : List UInt8} (h : RoundLines t r) : r.out.count 10 + r.rest.count 10 = t.count 10 := by
  cases h with
  | copied h => rw [← h, List.count_append]
  | replaced hnone h => rw [h, List.count_eq_zero.mpr hnone, Nat.zero_add]
  | ended hout h => rw [← h, hout]; rfl

theorem roundLines_finishLine {macros : List Macro} {region : Region} {t : List UInt8}
    (h : s.count 10 = t.count 10) :
    RoundLines t ⟨(finishLine macros region s).out, x, (finishLine macros region s).rest⟩ := by
  have hcount := count_finishLine macros region s
  rcases finishLine_cases macros region s with hout | hout
  · rw [hout, List.count_nil, Nat.zero_add] at hcount
    rw [hout]
    exact .replaced List.not_mem_nil (hcount.trans h)
  · rw [hout] at hcount ⊢
    exact .ended rfl (hcount.trans h)

theorem roundLines (hone : OneLine x.1) (hr : plainStep x c s = some r) :
    OneLine r.state.1 ∧ RoundLines (c :: s) r := by
  unfold plainStep at hr
  split at hr
  · cases hr
    dsimp only
    unfold step
    split
    · next hc =>
      have hplain : c ≠ 10 := by
        rw [hc]
        decide
      have hread : (readDirective s).2.count 10 = (c :: s).count 10 := by
        rw [List.count_cons_of_ne hplain, readDirective, count_skipSpaces, count_readWord, count_skipSpaces]
      refine ⟨?_, roundLines_finishLine ((count_directive _ _ _ _).trans hread)⟩
      rw [finishLine_macros]
      exact oneLine_directive hone _ _ _
    · split
      · rcases textStep_copies hone c s with h | ⟨hnone, h⟩
        · exact ⟨hone, .copied h⟩
        · exact ⟨hone, .replaced hnone h⟩
      · refine ⟨?_, roundLines_finishLine rfl⟩
        rw [finishLine_macros]
        exact hone
  · cases hr

end Rounds

/-! ## From the source to the lexer -/

/-- The rounds of `preprocess` on a source. -/
abbrev ReadsFrom (source out : List UInt8) (x : PpState) (rest : List UInt8) : Prop :=
  Reads plainStep ([], Region.init) source out x rest

/-- No round comes to an `#include`. -/
def NoInclude (source : List UInt8) : Prop :=
  ∀ out x c s, ReadsFrom source out x (c :: s) → includeName x.2 c s = none

/-- `pre` is what has been put out when `src` has been read: between two rounds, in text that is copied, or in the
value of a macro, which stands where its name stands. -/
inductive ComesFrom (source : List UInt8) : List UInt8 → List UInt8 → Prop
  | between {src rest out : List UInt8} {x : PpState} (hs : source = src ++ rest)
      (h : ReadsFrom source out x rest) : ComesFrom source out src
  | copied {src s out o : List UInt8} {c : UInt8} {x : PpState} {r : Round PpState UInt8 UInt8}
      (hs : source = src ++ c :: s) (h : ReadsFrom source out x (c :: s)) (hr : plainStep x c s = some r)
      (hout : o <+: r.out) (hraw : o <+: c :: s) : ComesFrom source (out ++ o) (src ++ o)
  | replaced {src s out o : List UInt8} {c : UInt8} {x : PpState} {r : Round PpState UInt8 UInt8}
      (hs : source = src ++ c :: s) (h : ReadsFrom source out x (c :: s)) (hr : plainStep x c s = some r)
      (hout : o <+: r.out) (hnone : (10 : UInt8) ∉ o) : ComesFrom source (out ++ o) src

section Source

variable {source out pre src rest : List UInt8} {x : PpState}

theorem oneLine_of_reads (h : ReadsFrom source out x rest) : OneLine x.1 :=
  h.keeps (P := fun x => OneLine x.1) (fun _ _ _ _ hr hone => (roundLines hone hr).1)
    fun _ hm => absurd hm List.not_mem_nil

/-- What is read and what is put out have the same newlines. -/
theorem count_of_reads {x x' : PpState} {s s' o : List UInt8} (h : Reads plainStep x s o x' s') (hone : OneLine x.1) :
    o.count 10 + s'.count 10 = s.count 10 := by
  induction h with
  | refl => rw [List.count_nil, Nat.zero_add]
  | round hr _ ih =>
    obtain ⟨hone', hlines⟩ := roundLines hone hr
    have hrest := ih hone'
    have hround := hlines.count
    rw [List.count_append]
    omega

theorem count_of_readsFrom (hs : source = src ++ rest) (h : ReadsFrom source out x rest) :
    out.count 10 = src.count 10 := by
  have hcount := count_of_reads h fun _ hm => absurd hm List.not_mem_nil
  rw [hs, List.count_append] at hcount
  omega

theorem count_of_comesFrom (h : ComesFrom source pre src) : pre.count 10 = src.count 10 := by
  cases h with
  | between hs h => exact count_of_readsFrom hs h
  | copied hs h => rw [List.count_append, List.count_append, count_of_readsFrom hs h]
  | replaced hs h _ _ hnone =>
    rw [List.count_append, count_of_readsFrom hs h, List.count_eq_zero.mpr hnone, Nat.add_zero]

/-- Every place in what further rounds put out comes from one in what they read. -/
theorem exists_comesFrom {x x' : PpState} {s s' o : List UInt8} (hmore : Reads plainStep x s o x' s')
    (hs : source = src ++ s) (h : ReadsFrom source out x s) (hpre : pre <+: o) :
    ∃ src', ComesFrom source (out ++ pre) src' := by
  induction hmore generalizing src out pre with
  | refl =>
    rw [List.prefix_nil.mp hpre, List.append_nil]
    exact ⟨src, .between hs h⟩
  | @round x x' c s s' o r hr _ ih =>
    obtain ⟨skipped, hskipped⟩ := (plainStep_suffix hr).trans (List.suffix_cons c s)
    have hnext : ReadsFrom source (out ++ r.out) r.state r.rest := h.trans (.single hr)
    have hs' : source = src ++ skipped ++ r.rest := by rw [List.append_assoc, hskipped, hs]
    rcases List.prefix_or_prefix_of_prefix hpre (List.prefix_append r.out o) with hin | ⟨more, rfl⟩
    · cases (roundLines (oneLine_of_reads h) hr).2 with
      | copied hcopy => exact ⟨_, .copied hs h hr hin (hin.trans ⟨r.rest, hcopy⟩)⟩
      | replaced hnone => exact ⟨_, .replaced hs h hr hin fun hmem => hnone (hin.subset hmem)⟩
      | ended hout =>
        rw [hout] at hin
        rcases List.prefix_cons_iff.mp hin with rfl | ⟨t, rfl, ht⟩
        · rw [List.append_nil]
          exact ⟨src, .between hs h⟩
        · rw [List.prefix_nil.mp ht, ← hout]
          exact ⟨_, .between hs' hnext⟩
    · have hmore := (List.prefix_append_right_inj r.out).mp hpre
      rw [← List.append_assoc]
      exact ih hs' hnext hmore

/-- A source without `#include` is read to its end. -/
theorem exists_reads (hno : NoInclude source) {n : Nat} (hn : rest.length ≤ n) (h : ReadsFrom source out x rest) :
    ∃ out' x', Reads plainStep x rest out' x' [] := by
  induction n generalizing out x rest with
  | zero =>
    rw [List.length_eq_zero_iff.mp (Nat.le_zero.mp hn)]
    exact ⟨[], x, .refl x []⟩
  | succ n ih =>
    cases rest with
    | nil => exact ⟨[], x, .refl x []⟩
    | cons c s =>
      have hname := hno out x c s h
      obtain ⟨r, hr⟩ : ∃ r, plainStep x c s = some r := by
        unfold plainStep
        rw [hname]
        exact ⟨_, rfl⟩
      have hlength := (plainStep_suffix hr).length_le
      rw [List.length_cons] at hn
      obtain ⟨out', x', hrest⟩ := ih (by omega) (h.trans (.single hr))
      exact ⟨_, x', .round hr hrest⟩

/-- Without `#include`, every round puts out the newlines that it reads; and where the output fits, the line the
lexer names is that of the place in the source that its position comes from. -/
theorem lines_survive (hno : NoInclude source) :
    (∀ out x c s r, ReadsFrom source out x (c :: s) → plainStep x c s = some r →
      r.out.count 10 + r.rest.count 10 = (c :: s).count 10) ∧
    (∀ text l, Lexes text l → ∃ pre, text = pre ++ l.pos.rest ∧ l.line = 1 + pre.count 10) ∧
    ∃ out x, ReadsFrom source out x [] ∧ ∀ files fuel outMax st, source.length < fuel → out.length ≤ outMax - 1 →
      preprocess files fuel (.text source) outMax st = some (⟨x.1, st.includeBuf⟩, some out) ∧
      ∀ l, Lexes out l → ∃ pre src, out = pre ++ l.pos.rest ∧ ComesFrom source pre src ∧
        l.line = 1 + pre.count 10 ∧ l.line = 1 + src.count 10 := by
  refine ⟨fun out x c s r h hr => (roundLines (oneLine_of_reads h) hr).2.count, fun text l => line_of_lexes, ?_⟩
  obtain ⟨out, x, hreads⟩ := exists_reads hno (Nat.le_refl source.length) (.refl _ source)
  refine ⟨out, x, hreads, fun files fuel outMax st hfuel hfits => ⟨?_, fun l hl => ?_⟩⟩
  · rw [preprocess_reads hreads hfuel, List.take_of_length_le hfits]
  · obtain ⟨pre, hpre, hline⟩ := line_of_lexes hl
    obtain ⟨src, hsrc⟩ := exists_comesFrom hreads (List.nil_append source).symm (.refl _ source)
      ⟨l.pos.rest, hpre.symm⟩
    rw [List.nil_append] at hsrc
    exact ⟨pre, src, hpre, hsrc, hline, by rw [hline, count_of_comesFrom hsrc]⟩

/-- No part of the source reads as the directive. -/
theorem noInclude_of_tails (h : ∀ t ∈ source.tails, ∀ c s, t = c :: s → c = chr '#' →
    (readDirective s).1 ≠ word "include") : NoInclude source := by
  intro out x c s hreads
  have hsuffix : (c :: s) <:+ source := by
    have hall : ∀ {x x' : PpState} {s s' o : List UInt8}, Reads plainStep x s o x' s' → s' <:+ s := by
      intro x x' s s' o hreads
      induction hreads with
      | refl => exact List.suffix_rfl
      | round hr _ ih => exact (ih.trans (plainStep_suffix hr)).trans (List.suffix_cons _ _)
    exact hall hreads
  have hname := h _ (List.mem_tails _ _ |>.mpr hsuffix) c s rfl
  unfold includeName
  exact if_neg fun hinc => hname hinc.1 hinc.2.1

end Source

/-- A line that defines and one that uses. -/
def definedLine : List UInt8 := word "#define A 1\nint a = A;"

theorem lines_survive_defined :
    ∃ out x, ReadsFrom definedLine out x [] ∧ ∀ files st,
      preprocess files 23 (.text definedLine) (out.length + 1) st = some (⟨x.1, st.includeBuf⟩, some out) ∧
      ∀ l, Lexes out l → ∃ pre src, out = pre ++ l.pos.rest ∧ ComesFrom definedLine pre src ∧
        l.line = 1 + pre.count 10 ∧ l.line = 1 + src.count 10 := by
  have htails : ∀ t ∈ definedLine.tails, t.head? = some (chr '#') → (readDirective t.tail).1 ≠ word "include" := by
    decide
  have hno : NoInclude definedLine := noInclude_of_tails fun t ht c s hts hc => by
    subst hts hc
    exact htails _ ht rfl
  obtain ⟨-, -, out, x, hreads, hrest⟩ := lines_survive hno
  exact ⟨out, x, hreads, fun files st => hrest files 23 (out.length + 1) st (by decide) (Nat.le_refl _)⟩

end RainbowOs.Cc
