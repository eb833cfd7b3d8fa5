import RainbowOs.Basic.Pieces
import Mathlib.Algebra.Ring.Nat

/-!
# Entering a listing

What `detokenize` writes is read by `tokenize` as the same tokens. What the
tokenizer makes of a piece depends on what follows it: `ListedAs` relates a text
that was entered to the text that is listed for it, which has keywords in
capitals and numbers as their values, and may be shorter, for a line has at
most 119 bytes of tokens. Two things are lost: a number beyond `int32_t` is
listed with a sign, which is another token; and where a line was cut, single
characters at its end may spell a keyword.
-/

namespace RainbowOs.Basic

open RainbowOs.Lib

/-! ## Numbers -/

theorem digit_facts : ∀ d < 10, isDigit (UInt8.ofNat (48 + d)) = true ∧
    (UInt8.ofNat (48 + d)).toNat - 48 = d ∧ ((UInt8.ofNat (48 + d)).toNat : Int) - 48 = d := by
  decide

theorem isDigit_digitsRev (n v : Nat) : ∀ c ∈ digitsRev n v, isDigit c = true := by
  induction n generalizing v with
  | zero => simp [digitsRev]
  | succ n ih =>
    rw [digitsRev]
    split
    · simp
    · intro c hc
      rcases List.mem_cons.mp hc with rfl | hc
      · exact (digit_facts _ (Nat.mod_lt v (by decide))).1
      · exact ih _ c hc

/-- Digits are read as the number they are of, by any step that does so for one more digit. -/
theorem foldl_digitsRev {α : Type} (step : α → UInt8 → α) (value : Nat → α) (bound : Nat)
    (hstep : ∀ a d, d < 10 → a * 10 + d ≤ bound →
      step (value a) (UInt8.ofNat (48 + d)) = value (a * 10 + d)) (n v : Nat) (hv : v ≤ bound)
    (hn : v < 10 ^ n) : (digitsRev n v).reverse.foldl step (value 0) = value v := by
  induction n generalizing v with
  | zero =>
    obtain rfl : v = 0 := by simpa using hn
    rfl
  | succ n ih =>
    rw [digitsRev]
    split
    · next hzero =>
      subst hzero
      rfl
    · have hdiv : v / 10 < 10 ^ n := by
        rw [Nat.div_lt_iff_lt_mul (by decide)]
        exact hn
      have hsum : v / 10 * 10 + v % 10 = v := Nat.div_add_mod' v 10
      rw [List.reverse_cons, List.foldl_append, ih (v / 10) (by omega) hdiv, List.foldl_cons,
        List.foldl_nil, hstep _ _ (Nat.mod_lt v (by decide)) (by omega), hsum]

theorem digitsVal_append {ds : List UInt8} (hds : ∀ c ∈ ds, isDigit c = true) {t : List UInt8}
    (ht : isDigit (t.headD 0) = false) (a : Int) :
    digitsVal a (ds ++ t) = ds.foldl (fun val c => i32 (val * 10 + (c.toNat - 48))) a := by
  induction ds generalizing a with
  | nil =>
    cases t with
    | nil => rfl
    | cons c t =>
      have hc : isDigit c = false := ht
      rw [List.nil_append, digitsVal, hc]
      rfl
  | cons c ds ih =>
    rw [List.cons_append, digitsVal, if_pos (hds c List.mem_cons_self)]
    exact ih (fun d hd => hds d (List.mem_cons_of_mem c hd)) _

theorem i32ToStr_digits {v : Int} (h : 0 ≤ v) : ∀ c ∈ i32ToStr v, isDigit c = true := by
  unfold i32ToStr
  split
  · decide
  · rw [if_neg (by omega)]
    intro c hc
    exact isDigit_digitsRev _ _ c (List.mem_reverse.mp hc)

theorem parseNumber_i32ToStr {v : Int} (h : 0 ≤ v) (hv : v < 2147483648) {t : List UInt8}
    (ht : isDigit (t.headD 0) = false) : parseNumber (i32ToStr v ++ t) = v := by
  rw [parseNumber, digitsVal_append (i32ToStr_digits h) ht]
  unfold i32ToStr
  split
  · next hzero => simp [hzero, i32]
  · rw [if_neg (by omega)]
    have hstep : ∀ a d : Nat, d < 10 → a * 10 + d ≤ 2147483647 →
        i32 ((a : Int) * 10 + ((UInt8.ofNat (48 + d)).toNat - 48)) = ((a * 10 + d : Nat) : Int) := by
      intro a d hd hle
      rw [(digit_facts d hd).2.2, i32_eq (by omega)]
      push_cast
      rfl
    have hfold := foldl_digitsRev (fun (val : Int) (c : UInt8) => i32 (val * 10 + (c.toNat - 48)))
      (fun a : Nat => (a : Int)) 2147483647 hstep 12 v.toNat (by omega) (by omega)
    rw [Int.toNat_of_nonneg h] at hfold
    exact hfold

/-! ## Texts as they are listed -/

/-- The second text is a listing of the first: the same but for the case of letters, up to a digit
or a quote of both, after which there may be anything, and up to its end. -/
inductive ListedAs : List UInt8 → List UInt8 → Prop where
  | done (s : List UInt8) : ListedAs s []
  | same {c d : UInt8} {s t : List UInt8} (hc : toUpper c = toUpper d) (h : ListedAs s t) :
      ListedAs (c :: s) (d :: t)
  | stop {c d : UInt8} (s t : List UInt8) (hc : isDigit c = true ∧ isDigit d = true ∨ c = 34 ∧ d = 34) :
      ListedAs (c :: s) (d :: t)

theorem class_toUpper (c : UInt8) :
    isAlnum (toUpper c) = isAlnum c ∧ isDigit (toUpper c) = isDigit c := by
  revert c
  exact byte_forall (by decide +kernel)

/-- A digit and a quote are in no keyword. -/
theorem toUpper_stop {d : UInt8} (h : isDigit d = true ∨ d = 34) :
    ¬(65 ≤ toUpper d ∧ toUpper d ≤ 90) ∧ toUpper d ≠ 36 := by
  have hall : ∀ c : UInt8, isDigit c = true ∨ c = 34 →
      ¬(65 ≤ toUpper c ∧ toUpper c ≤ 90) ∧ toUpper c ≠ 36 := byte_forall (by decide +kernel)
  exact hall d h

theorem operator_cases {name : List UInt8} {tok : UInt8} (h : (name, tok) ∈ operators) :
    (name = [60, 61] ∧ tok = Tok.le) ∨ (name = [62, 61] ∧ tok = Tok.ge) ∨
      (name = [60, 62] ∧ tok = Tok.ne) := by
  simpa [operators] using h

theorem findComparison_iff {s : List UInt8} {tok : UInt8} : findComparison s = some tok ↔
    ∃ name t, (name, tok) ∈ operators ∧ s = name ++ t := by
  constructor
  · intro h
    unfold findComparison at h
    split at h
    · next t =>
      cases h
      exact ⟨[60, 61], t, by decide, rfl⟩
    · next t =>
      cases h
      exact ⟨[62, 61], t, by decide, rfl⟩
    · next t =>
      cases h
      exact ⟨[60, 62], t, by decide, rfl⟩
    · cases h
  · rintro ⟨name, t, hop, rfl⟩
    rcases operator_cases hop with ⟨rfl, rfl⟩ | ⟨rfl, rfl⟩ | ⟨rfl, rfl⟩
    · rfl
    · rfl
    · rfl

namespace ListedAs

variable {s t : List UInt8}

theorem refl (s : List UInt8) : ListedAs s s := by
  induction s with
  | nil => exact .done []
  | cons c s ih => exact .same rfl ih

/-- Texts with the same capitals may go before. -/
theorem append {l m : List UInt8} (hl : l.map toUpper = m.map toUpper) (h : ListedAs s t) :
    ListedAs (l ++ s) (m ++ t) := by
  induction l generalizing m with
  | nil =>
    obtain rfl : m = [] := List.map_eq_nil_iff.mp hl.symm
    exact h
  | cons c l ih =>
    obtain ⟨d, m, rfl⟩ : ∃ d m', m = d :: m' := List.exists_cons_of_ne_nil (by rintro rfl; cases hl)
    rw [List.map_cons, List.map_cons] at hl
    obtain ⟨hc, hl⟩ := List.cons.inj hl
    exact .same hc (ih hl)

/-- What is listed is of the class of what was entered. -/
theorem head (h : ListedAs s t) : t = [] ∨ isAlnum (s.headD 0) = isAlnum (t.headD 0) ∧
    isDigit (s.headD 0) = isDigit (t.headD 0) := by
  cases h with
  | done => exact .inl rfl
  | same hc =>
    right
    rw [List.headD_cons, List.headD_cons, ← (class_toUpper _).1, ← (class_toUpper _).2, hc,
      (class_toUpper _).1, (class_toUpper _).2]
    exact ⟨rfl, rfl⟩
  | stop s t hc =>
    right
    rcases hc with ⟨hc, hd⟩ | ⟨rfl, rfl⟩
    · simp only [List.headD_cons, isAlnum, hc, hd, Bool.or_true, and_self]
    · exact ⟨rfl, rfl⟩

theorem alnum_head (h : ListedAs s t) (hs : isAlnum (s.headD 0) = false) :
    isAlnum (t.headD 0) = false := by
  rcases h.head with rfl | ⟨heq, -⟩
  · rfl
  · rwa [← heq]

theorem digit_head (h : ListedAs s t) (hs : isDigit (s.headD 0) = false) :
    isDigit (t.headD 0) = false := by
  rcases h.head with rfl | ⟨-, heq⟩
  · rfl
  · rwa [← heq]

/-- A keyword that is listed was entered, unless the listing ends with it. -/
theorem keyword {kw : List UInt8} (hkw : ∀ c ∈ kw, (65 ≤ c ∧ c ≤ 90) ∨ c = 36) (h : ListedAs s t)
    (hp : kw <+: t.map toUpper) : kw = t.map toUpper ∨ kw <+: s.map toUpper ∧
      isAlnum (s.getD kw.length 0) = isAlnum (t.getD kw.length 0) := by
  induction kw generalizing s t with
  | nil =>
    rcases h.head with rfl | ⟨heq, -⟩
    · exact .inl rfl
    · refine .inr ⟨List.nil_prefix, ?_⟩
      cases s <;> cases t <;> exact heq
  | cons a kw ih =>
    cases h with
    | done => simp at hp
    | @same c d s t hc h =>
      rw [List.map_cons, List.cons_prefix_cons] at hp
      obtain ⟨rfl, hp⟩ := hp
      rcases ih (fun c hc => hkw c (List.mem_cons_of_mem _ hc)) h hp with heq | ⟨hs, heq⟩
      · exact .inl (by rw [List.map_cons, heq])
      · refine .inr ⟨?_, heq⟩
        rw [List.map_cons, List.cons_prefix_cons]
        exact ⟨hc.symm, hs⟩
    | @stop c d s t hc =>
      rw [List.map_cons, List.cons_prefix_cons] at hp
      have hd : isDigit d = true ∨ d = 34 := hc.imp And.right And.right
      have hletter := hkw a List.mem_cons_self
      rw [hp.1] at hletter
      rcases hletter with hletter | hletter
      · exact absurd hletter (toUpper_stop hd).1
      · exact absurd hletter (toUpper_stop hd).2

/-- Where no keyword was entered none is listed, unless the listing is one. -/
theorem findKeyword_none (h : ListedAs s t) (hs : findKeyword s keywords = none)
    (hend : ∀ k ∈ keywords, k.1 ≠ t.map toUpper) : findKeyword t keywords = none := by
  refine (Basic.findKeyword_none fun k => keyword_ne_nil).mpr fun k hk hspells => ?_
  have hnone := (Basic.findKeyword_none fun k => keyword_ne_nil).mp hs k hk
  rcases h.keyword (keyword_letters k hk) hspells.1 with heq | ⟨hp, heq⟩
  · exact hend k hk heq
  · exact hnone ⟨hp, by rw [heq]; exact hspells.2⟩

/-- A blank and the characters of operators are listed where they were entered. -/
theorem punct_head {d : UInt8} (h : ListedAs s (d :: t)) (hd : d = 32 ∨ d = 61 ∨ d = 62) :
    ∃ s', s = d :: s' := by
  cases h with
  | @same c _ s _ hc =>
    have hall : ∀ n < 256, toUpper (UInt8.ofNat n) = 32 ∨ toUpper (UInt8.ofNat n) = 61 ∨
        toUpper (UInt8.ofNat n) = 62 → UInt8.ofNat n = toUpper (UInt8.ofNat n) := by
      decide +kernel
    have hupper : toUpper d = d := by rcases hd with rfl | rfl | rfl <;> rfl
    have hsame : c = toUpper c := by
      rw [hupper] at hc
      rw [← hc, ← UInt8.ofNat_toNat (x := c)] at hd
      rw [← UInt8.ofNat_toNat (x := c)]
      exact hall _ c.toNat_lt hd
    exact ⟨s, by rw [hsame, hc, hupper]⟩
  | stop _ _ hc =>
    exfalso
    rcases hd with rfl | rfl | rfl
    · exact absurd hc (by simp [isDigit])
    · exact absurd hc (by simp [isDigit])
    · exact absurd hc (by simp [isDigit])

/-- Nor an operator. -/
theorem findComparison_none (h : ListedAs s t) (c : UInt8) (hs : findComparison (c :: s) = none) :
    findComparison (c :: t) = none := by
  cases hfind : findComparison (c :: t) with
  | none => rfl
  | some tok =>
    obtain ⟨name, t', hop, heq⟩ := findComparison_iff.mp hfind
    obtain ⟨d, hd, rfl⟩ : ∃ d, (d = 61 ∨ d = 62) ∧ name = [c, d] := by
      rcases operator_cases hop with ⟨rfl, -⟩ | ⟨rfl, -⟩ | ⟨rfl, -⟩
      · exact ⟨61, .inl rfl, by cases heq; rfl⟩
      · exact ⟨61, .inl rfl, by cases heq; rfl⟩
      · exact ⟨62, .inr rfl, by cases heq; rfl⟩
    obtain rfl : t = d :: t' := (List.cons.inj heq).2
    obtain ⟨s', rfl⟩ := h.punct_head (.inr hd)
    have hsome := findComparison_iff.mpr ⟨[c, d], s', hop, rfl⟩
    rw [List.cons_append, List.cons_append, List.nil_append, hs] at hsome
    cases hsome

end ListedAs

/-! ## Rounds of the tokenizer -/

/-- A round at the text of a piece gives its tokens back, and leaves what follows. -/
def Rereads (pos : Nat) (p : Piece) (t : List UInt8) : Prop :=
  ∃ c s, p.text = c :: s ∧ tokenizeStep 120 pos c (s ++ t) = (p.tokens, t)

section Rounds

variable {pos : Nat} {t : List UInt8}

theorem rereads_space : Rereads pos (.char 32) t := ⟨32, [], rfl, rfl⟩

theorem rereads_char {c : UInt8} (hdigit : isDigit c = false) (hquote : c ≠ 34)
    (hkeyword : findKeyword (c :: t) keywords = none) (hoperator : findComparison (c :: t) = none) :
    Rereads pos (.char c) t := by
  refine ⟨c, [], rfl, ?_⟩
  rw [List.nil_append, tokenizeStep]
  split
  · next hspace =>
    subst hspace
    rfl
  · rw [hkeyword]
    simp only [hdigit, Bool.false_eq_true, if_false, hoperator]
    rfl

theorem keyword_capitals : ∀ k ∈ keywords, k.1.map toUpper = k.1 := by decide

theorem spells_name {k : List UInt8 × UInt8} (hk : k ∈ keywords)
    (hend : k.1.getLastD 0 = 36 ∨ isAlnum (t.headD 0) = false) : Spells (k.1 ++ t) k.1 := by
  refine ⟨?_, ?_⟩
  · rw [List.map_append, keyword_capitals k hk]
    exact List.prefix_append _ _
  · have hhead : (k.1 ++ t).getD k.1.length 0 = t.headD 0 := by
      cases t <;> simp
    rwa [hhead]

theorem not_space : ∀ k ∈ keywords, k.1.head? ≠ some 32 := by decide

theorem rereads_keyword {name : List UInt8} {tok : UInt8} (hk : (name, tok) ∈ keywords)
    (hrem : tok ≠ Tok.rem) (hend : name.getLastD 0 = 36 ∨ isAlnum (t.headD 0) = false) :
    Rereads pos (.keyword name tok) t := by
  obtain ⟨c, s, rfl⟩ := List.exists_cons_of_ne_nil (keyword_ne_nil hk)
  have hspace : c ≠ 32 := fun hc => not_space _ hk (congrArg some hc)
  have hfind := findKeyword_eq hk (spells_name hk hend)
  refine ⟨c, s, rfl, ?_⟩
  rw [List.cons_append] at hfind
  rw [tokenizeStep, if_neg hspace]
  simp only [hfind, if_neg hrem]
  rw [← List.cons_append, List.drop_left]
  rfl

theorem rereads_rem {body : List UInt8} (hend : isAlnum (body.headD 0) = false)
    (hbody : body.length ≤ 118 - pos) : Rereads pos (.rem body) [] := by
  have hk : (ascii "REM", Tok.rem) ∈ keywords := by decide
  have hfind := findKeyword_eq hk (spells_name (t := body) hk (.inr hend))
  have hroom : body.length ≤ 120 - 1 - (pos + 1) := by omega
  refine ⟨82, 69 :: 77 :: body, rfl, ?_⟩
  have htext : ascii "REM" ++ body = 82 :: 69 :: 77 :: body := rfl
  rw [htext] at hfind
  rw [List.append_nil, tokenizeStep, if_neg (by decide)]
  simp only [hfind, if_true]
  have hdrop : (82 :: 69 :: 77 :: body).drop (ascii "REM").length = body := rfl
  rw [hdrop, List.take_of_length_le hroom, List.drop_of_length_le hroom]
  rfl

theorem rereads_num {v : Int} (h : 0 ≤ v) (hv : v < 2147483648)
    (hend : isDigit (t.headD 0) = false) : Rereads pos (.num v) t := by
  have hdigits := i32ToStr_digits h
  have hparse := parseNumber_i32ToStr h hv hend
  obtain ⟨c, s, hs⟩ := List.exists_cons_of_ne_nil (i32ToStr_ne_nil v)
  rw [hs] at hdigits hparse
  have hc := hdigits c List.mem_cons_self
  have hspace : c ≠ 32 := by
    rintro rfl
    cases hc
  refine ⟨c, s, hs, ?_⟩
  have hrest : (s ++ t).dropWhile isDigit = t := by
    rw [List.dropWhile_append_of_pos fun d hd => hdigits d (List.mem_cons_of_mem c hd)]
    cases t with
    | nil => rfl
    | cons d t => rw [List.dropWhile_cons_of_neg (by simpa using hend)]
  rw [List.cons_append] at hparse
  rw [tokenizeStep, if_neg hspace]
  simp only [findKeyword_of_head (toUpper_stop (.inl hc)), hc, if_true, hparse, hrest]
  rfl

theorem rereads_str {body : List UInt8} (hbody : body.length ≤ 117 - pos)
    (hquote : ∀ c ∈ body, c ≠ 34) : Rereads pos (.str body) t := by
  have hline : (body ++ [34]) ++ t = body ++ 34 :: t := by simp
  have htake : (body ++ 34 :: t).takeWhile (· ≠ 34) = body := by
    rw [List.takeWhile_append_of_pos (by simpa using hquote), List.takeWhile_cons_of_neg (by simp),
      List.append_nil]
  have hroom : body.length ≤ 120 - 1 - (pos + 2) := by omega
  refine ⟨34, body ++ [34], rfl, ?_⟩
  rw [hline, tokenizeStep, if_neg (by decide)]
  simp only [findKeyword_of_head (toUpper_stop (.inr rfl)), htake, List.take_of_length_le hroom,
    List.drop_left]
  rfl

theorem rereads_operator {name : List UInt8} {tok : UInt8} (h : (name, tok) ∈ operators) :
    Rereads pos (.operator name tok) t := by
  rcases operator_cases h with ⟨rfl, rfl⟩ | ⟨rfl, rfl⟩ | ⟨rfl, rfl⟩
  · exact ⟨60, [61], rfl, by
      rw [tokenizeStep, if_neg (by decide), findKeyword_of_head (by decide)]
      rfl⟩
  · exact ⟨62, [61], rfl, by
      rw [tokenizeStep, if_neg (by decide), findKeyword_of_head (by decide)]
      rfl⟩
  · exact ⟨60, [62], rfl, by
      rw [tokenizeStep, if_neg (by decide), findKeyword_of_head (by decide)]
      rfl⟩

end Rounds

/-! ## The pieces of a text -/

/-- The piece that a round at a text makes, and the text after it. -/
inductive Cut (pos : Nat) : List UInt8 → Piece → List UInt8 → Prop where
  | space (s : List UInt8) : Cut pos (32 :: s) (.char 32) s
  | keyword {s name : List UInt8} {tok : UInt8} (hk : (name, tok) ∈ keywords) (hrem : tok ≠ Tok.rem)
      (hs : Spells s name) : Cut pos s (.keyword name tok) (s.drop name.length)
  | rem {s : List UInt8} (hs : Spells s (ascii "REM")) :
      Cut pos s (.rem ((s.drop 3).take (118 - pos))) ((s.drop 3).drop (118 - pos))
  | num {c : UInt8} (s : List UInt8) (hc : isDigit c = true) :
      Cut pos (c :: s) (.num (parseNumber (c :: s))) (s.dropWhile isDigit)
  | str (s rest : List UInt8) :
      Cut pos (34 :: s) (.str ((s.takeWhile (· ≠ 34)).take (117 - pos))) rest
  | operator {name : List UInt8} {tok : UInt8} (hop : (name, tok) ∈ operators) (s : List UInt8) :
      Cut pos (name ++ s) (.operator name tok) s
  | char {c : UInt8} {s : List UInt8} (hdigit : isDigit c = false) (hquote : c ≠ 34)
      (hkeyword : findKeyword (c :: s) keywords = none)
      (hoperator : findComparison (c :: s) = none) : Cut pos (c :: s) (.char c) s

/-- A round makes one piece. -/
theorem tokenizeStep_cut (pos : Nat) (c : UInt8) (s : List UInt8) :
    ∃ p rest, Cut pos (c :: s) p rest ∧ rest <:+ s ∧ tokenizeStep 120 pos c s = (p.tokens, rest) := by
  unfold tokenizeStep
  split
  · next hc =>
    subst hc
    exact ⟨_, _, .space s, List.suffix_rfl, rfl⟩
  split
  · next klen tok hfind =>
    obtain ⟨name, hk, hs, rfl⟩ := findKeyword_some (fun k => keyword_ne_nil) hfind
    have hpos : 0 < name.length := List.length_pos_iff.mpr (keyword_ne_nil hk)
    obtain ⟨n, hn⟩ : ∃ n, name.length = n + 1 := ⟨name.length - 1, by omega⟩
    have hrest : (c :: s).drop name.length <:+ s := by
      rw [hn, List.drop_succ_cons]
      exact List.drop_suffix n s
    split
    · next hrem =>
      have hname : name = ascii "REM" := by
        have hall : ∀ k ∈ keywords, k.2 = Tok.rem → k.1 = ascii "REM" := by decide
        exact hall _ hk hrem
      subst hname
      have hroom : 120 - 1 - (pos + 1) = 118 - pos := by omega
      rw [hroom, hrem]
      exact ⟨_, _, .rem hs, (List.drop_suffix _ _).trans hrest, rfl⟩
    · next hrem => exact ⟨_, _, .keyword hk hrem hs, hrest, rfl⟩
  · next hnone =>
    split
    · next hc => exact ⟨_, _, .num s hc, List.dropWhile_suffix _, rfl⟩
    · next hc =>
      split
      · next hquote =>
        subst hquote
        have hroom : 120 - 1 - (pos + 2) = 117 - pos := by omega
        rw [hroom]
        refine ⟨_, _, .str s _, ?_, rfl⟩
        split
        · exact (List.tail_suffix _).trans (List.drop_suffix _ _)
        · exact List.drop_suffix _ _
      · next hquote =>
        split
        · next tok hop =>
          obtain ⟨name, t, hmem, heq⟩ := findComparison_iff.mp hop
          have htail : s.tail = t := by
            rcases operator_cases hmem with ⟨rfl, -⟩ | ⟨rfl, -⟩ | ⟨rfl, -⟩
            · cases heq
              rfl
            · cases heq
              rfl
            · cases heq
              rfl
          rw [heq, htail]
          exact ⟨_, _, .operator hmem t, htail ▸ List.tail_suffix s, rfl⟩
        · next hop =>
          exact ⟨_, _, .char (by simpa using hc) hquote hnone hop, List.suffix_rfl, rfl⟩

theorem i32_range (x : Int) : -2147483648 ≤ i32 x ∧ i32 x < 2147483648 := by
  rw [i32]
  omega

theorem digitsVal_range (s : List UInt8) {a : Int} (ha : -2147483648 ≤ a ∧ a < 2147483648) :
    -2147483648 ≤ digitsVal a s ∧ digitsVal a s < 2147483648 := by
  induction s generalizing a with
  | nil => exact ha
  | cons c s ih =>
    rw [digitsVal]
    split
    · exact ih (i32_range _)
    · exact ha

theorem headD_drop (s : List UInt8) (n : Nat) : (s.drop n).headD 0 = s.getD n 0 := by
  rw [List.headD_eq_head?_getD, List.head?_drop, List.getD_eq_getElem?_getD]

namespace Cut

variable {pos : Nat} {s rest : List UInt8} {p : Piece}

theorem valid (h : Cut pos s p rest) (hs : ∀ c ∈ s, IsTyped c) : p.Valid := by
  cases h with
  | space s => exact ⟨by decide, by decide⟩
  | keyword hk hrem _ => exact ⟨hk, hrem⟩
  | rem _ => exact fun c hc => hs c (List.mem_of_mem_drop (List.mem_of_mem_take hc))
  | num s hc => exact digitsVal_range _ (by decide)
  | str s rest =>
    refine ⟨Nat.le_trans (List.length_take_le _ _) (Nat.sub_le _ _), fun c hc => ?_⟩
    have hin := List.mem_of_mem_take hc
    have hne := List.mem_takeWhile_imp hin
    exact ⟨hs c (List.mem_cons_of_mem _ ((List.takeWhile_prefix _).subset hin)), by simpa using hne⟩
  | operator hop s => exact hop
  | char _ _ _ _ => exact hs _ List.mem_cons_self

/-- A text is listed as the text of its piece and what the rest is listed as. -/
theorem listedAs (h : Cut pos s p rest) {t : List UInt8} (ht : ListedAs rest t)
    (hnum : ∀ v, p = .num v → 0 ≤ v) (hrem : ∀ body, p = .rem body → t = []) :
    ListedAs s (p.text ++ t) := by
  cases h with
  | space s => exact .same rfl ht
  | @keyword _ name tok hk _ hs =>
    have hmap : (s.take name.length).map toUpper = name.map toUpper := by
      rw [(spells_iff.mp hs).1, keyword_capitals _ hk]
    have happend := ListedAs.append hmap ht
    rwa [List.take_append_drop] at happend
  | rem hs =>
    rw [hrem _ rfl, List.append_nil]
    have hmap : (s.take 3).map toUpper = (ascii "REM").map toUpper := (spells_iff.mp hs).1
    have hbody := ListedAs.append (l := (s.drop 3).take (118 - pos)) rfl
      (.done ((s.drop 3).drop (118 - pos)))
    have happend := ListedAs.append hmap hbody
    rwa [List.take_append_drop, List.take_append_drop, List.append_nil] at happend
  | @num c s hc =>
    have hv := hnum _ rfl
    obtain ⟨d, ds, hds⟩ := List.exists_cons_of_ne_nil (i32ToStr_ne_nil (parseNumber (c :: s)))
    have hd := i32ToStr_digits hv d (hds ▸ List.mem_cons_self)
    rw [Piece.text, hds]
    exact .stop _ _ (.inl ⟨hc, hd⟩)
  | str s rest => exact .stop _ _ (.inr ⟨rfl, rfl⟩)
  | operator hop s => exact .append rfl ht
  | char _ _ _ _ => exact .same rfl ht

/-- What is listed for a piece is read as the piece. -/
theorem rereads (h : Cut pos s p rest) {t : List UInt8} (ht : ListedAs rest t)
    (hnum : ∀ v, p = .num v → 0 ≤ v) (hrem : ∀ body, p = .rem body → t = [])
    (hend : ∀ c, p = .char c → ∀ k ∈ keywords, k.1 ≠ (c :: t).map toUpper) : Rereads pos p t := by
  cases h with
  | space s => exact rereads_space
  | @keyword _ name tok hk hne hs =>
    refine rereads_keyword hk hne (hs.2.imp_right fun hnext => ht.alnum_head ?_)
    rwa [headD_drop]
  | rem hs =>
    rw [hrem _ rfl]
    refine rereads_rem ?_ (List.length_take_le _ _)
    have hnext : isAlnum ((s.drop 3).headD 0) = false := by
      rw [headD_drop]
      exact hs.2.resolve_left (by decide)
    cases hn : 118 - pos with
    | zero => rfl
    | succ n =>
      cases hbody : s.drop 3 with
      | nil => rfl
      | cons c body =>
        rw [hbody] at hnext
        exact hnext
  | @num c s hc =>
    refine rereads_num (hnum _ rfl) (digitsVal_range _ (by decide)).2 (ht.digit_head ?_)
    cases hrest : s.dropWhile isDigit with
    | nil => rfl
    | cons d rest =>
      have hhead := List.head?_dropWhile_not isDigit s
      rw [hrest] at hhead
      simpa using hhead
  | str s rest =>
    refine rereads_str (List.length_take_le _ _) fun c hc => ?_
    simpa using List.mem_takeWhile_imp (List.mem_of_mem_take hc)
  | operator hop s => exact rereads_operator hop
  | @char c s hdigit hquote hkeyword hoperator =>
    have hsame : ListedAs (c :: rest) (c :: t) := .same rfl ht
    exact rereads_char hdigit hquote (hsame.findKeyword_none hkeyword (hend c rfl))
      (ht.findComparison_none c hoperator)

/-- There is room for the tokens of a piece. -/
theorem room (h : Cut pos s p rest) (hpos : pos + 5 < 120) : pos + p.tokens.length ≤ 119 := by
  cases h with
  | space s => simp [Piece.tokens]; omega
  | keyword _ _ _ => simp [Piece.tokens]; omega
  | rem _ =>
    have hbody := List.length_take_le (118 - pos) (s.drop 3)
    simp only [Piece.tokens, List.length_cons]
    omega
  | @num c s _ =>
    have hnum : (numBytes (parseNumber (c :: s))).length = 4 := rfl
    simp only [Piece.tokens, List.length_cons, hnum]
    omega
  | str s _ =>
    have hbody := List.length_take_le (117 - pos) (s.takeWhile (· ≠ 34))
    simp only [Piece.tokens, List.length_cons]
    omega
  | operator _ _ => simp [Piece.tokens]; omega
  | char _ _ _ _ => simp [Piece.tokens]; omega

/-- After a remark there is nothing left, or no room. -/
theorem after_rem {body : List UInt8} (h : Cut pos s (.rem body) rest) (hpos : pos + 5 < 120) :
    rest = [] ∨ pos + (Piece.rem body).tokens.length = 119 := by
  cases h with
  | rem _ =>
    rw [List.drop_eq_nil_iff, Piece.tokens, List.length_cons, List.length_take]
    omega

end Cut

/-! ## Lines -/

/-- A single character begins what the text of the line ends with, and that is a keyword. -/
def endsInKeyword : List Piece → Bool
  | [] => false
  | .char c :: ps => keywords.any (·.1 = (c :: textOf ps).map toUpper) || endsInKeyword ps
  | _ :: ps => endsInKeyword ps

theorem tokenizeLoop_end {maxLen fuel pos : Nat} {s : List UInt8} (h : s = [] ∨ ¬pos + 5 < maxLen) :
    tokenizeLoop maxLen fuel pos s = [] := by
  cases fuel with
  | zero => rfl
  | succ fuel =>
    cases s with
    | nil => rfl
    | cons c s => rw [tokenizeLoop, if_neg (h.resolve_left (List.cons_ne_nil c s))]

theorem tokensOf_cons (p : Piece) (ps : List Piece) : tokensOf (p :: ps) = p.tokens ++ tokensOf ps :=
  List.flatMap_cons

theorem textOf_cons (p : Piece) (ps : List Piece) : textOf (p :: ps) = p.text ++ textOf ps :=
  List.flatMap_cons

theorem eq_nil_of_tokensOf {ps : List Piece} (hvalid : ∀ p ∈ ps, p.Valid) (h : tokensOf ps = []) :
    ps = [] := by
  cases ps with
  | nil => rfl
  | cons p ps =>
    have htokens : p.tokens ≠ [] := by cases p <;> simp [Piece.tokens]
    rw [tokensOf_cons, List.append_eq_nil_iff] at h
    exact absurd h.1 htokens

/-- A typed text becomes the tokens of pieces; it is listed as their text, and that becomes the same
tokens, unless a number is negative or single characters at the end spell a keyword. -/
theorem tokenizeLoop_pieces {fuel pos : Nat} {s : List UInt8} (hs : ∀ c ∈ s, IsTyped c)
    (hpos : pos ≤ 119) : ∃ ps, tokenizeLoop 120 fuel pos s = tokensOf ps ∧ (∀ p ∈ ps, p.Valid) ∧
      RemLast ps ∧ pos + (tokensOf ps).length ≤ 119 ∧ ((∀ v, .num v ∈ ps → 0 ≤ v) →
        ListedAs s (textOf ps) ∧ (endsInKeyword ps = false → ∀ n, (textOf ps).length ≤ n →
          tokenizeLoop 120 n pos (textOf ps) = tokensOf ps)) := by
  induction fuel generalizing pos s with
  | zero =>
    refine ⟨[], rfl, by simp, trivial, hpos, fun _ => ⟨.done s, fun _ n _ => ?_⟩⟩
    exact tokenizeLoop_end (.inl rfl)
  | succ fuel ih =>
    by_cases hgo : s = [] ∨ ¬pos + 5 < 120
    · refine ⟨[], tokenizeLoop_end hgo, by simp, trivial, hpos, fun _ => ⟨.done s, fun _ n _ => ?_⟩⟩
      exact tokenizeLoop_end (.inl rfl)
    obtain ⟨hne, hroom⟩ := not_or.mp hgo
    have hroom := not_not.mp hroom
    obtain ⟨c, s, rfl⟩ := List.exists_cons_of_ne_nil hne
    obtain ⟨p, rest, hcut, hsuffix, hstep⟩ := tokenizeStep_cut pos c s
    have hrest : ∀ d ∈ rest, IsTyped d := fun d hd => hs d (List.mem_cons_of_mem c (hsuffix.subset hd))
    obtain ⟨ps, htokens, hvalid, hrem, hlength, hread⟩ := ih hrest (hcut.room hroom)
    have hp := hcut.valid hs
    have hlast : ∀ body, p = .rem body → ps = [] := by
      rintro body rfl
      apply eq_nil_of_tokensOf hvalid
      rw [← htokens]
      exact tokenizeLoop_end ((hcut.after_rem hroom).imp_right fun hfull => by omega)
    refine ⟨p :: ps, ?_, ?_, ?_, ?_, fun hnum => ?_⟩
    · rw [tokenizeLoop, if_pos hroom, hstep]
      simp only [htokens, tokensOf_cons]
    · exact List.forall_mem_cons.mpr ⟨hp, hvalid⟩
    · cases p with
      | rem body => exact hlast body rfl
      | _ => exact hrem
    · rw [tokensOf_cons, List.length_append]
      omega
    · obtain ⟨hlisted, hagain⟩ := hread fun v hv => hnum v (List.mem_cons_of_mem p hv)
      have hpnum : ∀ v, p = .num v → 0 ≤ v := by
        rintro v rfl
        exact hnum v List.mem_cons_self
      have hprem : ∀ body, p = .rem body → textOf ps = [] := by
        intro body hbody
        rw [hlast body hbody]
        rfl
      rw [textOf_cons]
      refine ⟨hcut.listedAs hlisted hpnum hprem, fun hend n hn => ?_⟩
      have hps : endsInKeyword ps = false := by
        cases p with
        | char c => exact (Bool.or_eq_false_iff.mp hend).2
        | _ => exact hend
      have hchar : ∀ c, p = .char c → ∀ k ∈ keywords, k.1 ≠ (c :: textOf ps).map toUpper := by
        rintro c rfl k hk
        have hany := (Bool.or_eq_false_iff.mp hend).1
        rw [List.any_eq_false] at hany
        simpa using hany k hk
      obtain ⟨d, t, ht, hstep'⟩ := hcut.rereads hlisted hpnum hprem hchar
      rw [ht, List.cons_append, List.length_cons, List.length_append] at hn
      obtain ⟨n, rfl⟩ := Nat.exists_eq_add_of_le' (Nat.le_of_add_left_le hn)
      rw [ht, List.cons_append, tokenizeLoop, if_pos hroom, hstep', tokensOf_cons]
      simp only [hagain hps n (by omega)]

theorem tokenize_pieces {s : List UInt8} (hs : ∀ c ∈ s, IsTyped c) : ∃ ps,
    tokenize 120 s = tokensOf ps ∧ (∀ p ∈ ps, p.Valid) ∧ RemLast ps ∧ (tokensOf ps).length ≤ 119 ∧
      ((∀ v, .num v ∈ ps → 0 ≤ v) → ListedAs s (textOf ps) ∧
        (endsInKeyword ps = false → tokenize 120 (textOf ps) = tokensOf ps)) := by
  obtain ⟨ps, htokens, hvalid, hrem, hlength, hread⟩ := tokenizeLoop_pieces hs (Nat.zero_le 119)
  refine ⟨ps, htokens, hvalid, hrem, by omega, fun hnum => ?_⟩
  obtain ⟨hlisted, hagain⟩ := hread hnum
  exact ⟨hlisted, fun hend => hagain hend _ (Nat.le_refl _)⟩

theorem isTyped_of_isDigit {c : UInt8} (h : isDigit c = true) : IsTyped c := by
  rw [isDigit, Bool.and_eq_true, decide_eq_true_eq, decide_eq_true_eq] at h
  exact ⟨UInt8.le_trans (by decide) h.1, UInt8.lt_of_le_of_lt h.2 (by decide)⟩

/-- The text of a piece could have been typed. -/
theorem Piece.Valid.typed {p : Piece} (h : p.Valid) (hnum : ∀ v, p = .num v → 0 ≤ v) :
    ∀ c ∈ p.text, IsTyped c := by
  have hletters : ∀ k ∈ keywords, ∀ c ∈ k.1, IsTyped c := by
    intro k hk c hc
    rcases keyword_letters k hk c hc with hletter | rfl
    · exact ⟨UInt8.le_trans (by decide) hletter.1, UInt8.lt_of_le_of_lt hletter.2 (by decide)⟩
    · exact ⟨by decide, by decide⟩
  have hquote : IsTyped 34 := ⟨by decide, by decide⟩
  cases p with
  | char c => simpa [Piece.text, Piece.Valid] using h
  | keyword name tok => exact hletters _ h.1
  | rem body =>
    intro c hc
    rcases List.mem_append.mp hc with hc | hc
    · exact hletters (ascii "REM", Tok.rem) (by decide) c hc
    · exact h c hc
  | num v => exact fun c hc => isTyped_of_isDigit (i32ToStr_digits (hnum v rfl) c hc)
  | str body =>
    have hbody : ∀ c ∈ body, IsTyped c := fun c hc => (h.2 c hc).1
    simpa [Piece.text, or_imp, forall_and, hquote] using hbody
  | operator name tok =>
    rcases operator_cases h with ⟨rfl, -⟩ | ⟨rfl, -⟩ | ⟨rfl, -⟩
    · simp [Piece.text, IsTyped]
    · simp [Piece.text, IsTyped]
    · simp [Piece.text, IsTyped]

/-- A line of tokens is listed as text that becomes the same tokens. -/
theorem tokenize_listing {s : List UInt8} (hs : ∀ c ∈ s, IsTyped c) {ps : List Piece}
    (hps : pieces (tokenize 120 s) = ps) (hnum : ∀ v, .num v ∈ ps → 0 ≤ v)
    (hend : endsInKeyword ps = false) :
    tokenize 120 (textOf ps) = tokenize 120 s ∧ (∀ c ∈ textOf ps, IsTyped c) ∧
      (s.head? ≠ some 32 → (textOf ps).head? ≠ some 32) ∧ ((textOf ps).length < 160 →
        detokenize 160 (tokenize 120 s) = textOf ps) := by
  obtain ⟨ps', htokens, hvalid, hrem, -, hread⟩ := tokenize_pieces hs
  obtain rfl : ps' = ps := by rw [← hps, htokens, pieces_tokensOf hvalid hrem]
  obtain ⟨hlisted, hagain⟩ := hread hnum
  refine ⟨?_, fun c hc => ?_, fun hhead hblank => ?_, fun hroom => ?_⟩
  · rw [htokens]
    exact hagain hend
  · obtain ⟨p, hp, hc⟩ := List.mem_flatMap.mp hc
    exact (hvalid p hp).typed (fun v hv => hnum v (hv ▸ hp)) c hc
  · obtain ⟨t, ht⟩ := List.head?_eq_some_iff.mp hblank
    rw [ht] at hlisted
    obtain ⟨s', rfl⟩ := hlisted.punct_head (.inl rfl)
    exact hhead rfl
  · rw [htokens]
    exact detokenize_tokensOf hvalid hrem hroom

theorem length_tokenize {s : List UInt8} (hs : ∀ c ∈ s, IsTyped c) : (tokenize 120 s).length ≤ 119 := by
  obtain ⟨ps, htokens, -, -, hlength, -⟩ := tokenize_pieces hs
  rwa [htokens]

end RainbowOs.Basic
