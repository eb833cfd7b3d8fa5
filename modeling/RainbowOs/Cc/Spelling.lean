import RainbowOs.Cc.Names

/-!
# The texts of tokens

What a sequence of tokens may look like in a source: the text of each token,
with white space and comments between them, and white space first after each
one. `lex_next` gives the tokens back. The text is followed along the scan,
one token after the other: `lexScan_token` is the step.
-/

namespace RainbowOs.Cc

open RainbowOs.Lib

/-! ## Tokens in a source -/

def keywordTexts : List (List UInt8 × Tok) :=
  [(word "int", .int), (word "char", .char), (word "void", .void), (word "if", .ifTok),
    (word "else", .elseTok), (word "while", .whileTok), (word "for", .forTok), (word "do", .doTok),
    (word "return", .returnTok), (word "break", .breakTok), (word "continue", .continueTok)]

/-- The operators and the punctuation of one character. -/
def singleTexts : List (UInt8 × Tok) :=
  [(chr '+', .plus), (chr '-', .minus), (chr '*', .star), (chr '/', .slash), (chr '%', .percent),
    (chr '&', .amp), (chr '|', .pipe), (chr '^', .caret), (chr '~', .tilde), (chr '!', .bang),
    (chr '<', .lt), (chr '>', .gt), (chr '=', .assign), (chr '(', .lparen), (chr ')', .rparen),
    (chr '{', .lbrace), (chr '}', .rbrace), (chr '[', .lbracket), (chr ']', .rbracket),
    (chr ';', .semi), (chr ',', .comma)]

/-- The operators of two characters. -/
def doubleTexts : List ((UInt8 × UInt8) × Tok) :=
  [((chr '&', chr '&'), .and), ((chr '|', chr '|'), .or), ((chr '=', chr '='), .eq),
    ((chr '!', chr '='), .ne), ((chr '<', chr '='), .le), ((chr '>', chr '='), .ge),
    ((chr '<', chr '<'), .shl), ((chr '>', chr '>'), .shr), ((chr '+', chr '='), .plusEq),
    ((chr '-', chr '='), .minusEq), ((chr '*', chr '='), .starEq), ((chr '/', chr '='), .slashEq),
    ((chr '+', chr '+'), .inc), ((chr '-', chr '-'), .dec)]

/-- The characters that are escapes after a backslash. -/
def escapes : List UInt8 := [chr 'n', chr 't', chr 'r', chr '0', chr '\\', chr '\'', chr '"']

/-- A character in a literal that ends with `quote`: itself or an escape. -/
inductive CharText (quote : UInt8) : UInt8 → List UInt8 → Prop where
  | plain {c : UInt8} (hquote : c ≠ quote) (hescape : c ≠ chr '\\') : CharText quote c [c]
  | escape {c : UInt8} (h : c ∈ escapes) : CharText quote (escaped c) [chr '\\', c]

/-- The characters of a string literal. -/
inductive BodyText : List UInt8 → List UInt8 → Prop where
  | nil : BodyText [] []
  | cons {c : UInt8} {cs s body : List UInt8} (hc : CharText (chr '"') c s) (h : BodyText cs body) :
      BodyText (c :: cs) (s ++ body)

/-- The value of a digit, in any base up to 16. -/
def digit (c : UInt8) : Nat :=
  if isDigit c then c.toNat - 48 else if chr 'a' ≤ c then c.toNat - 87 else c.toNat - 55

/-- The value of digits after those of `v`. -/
def digitsFrom (base v : Nat) (ds : List UInt8) : Nat := ds.foldl (fun v c => v * base + digit c) v

/-- The texts of a token. -/
inductive TokText : Tok → List UInt8 → Prop where
  | keyword {s : List UInt8} {t : Tok} (h : (s, t) ∈ keywordTexts) : TokText t s
  | single {c : UInt8} {t : Tok} (h : (c, t) ∈ singleTexts) : TokText t [c]
  | double {c d : UInt8} {t : Tok} (h : ((c, d), t) ∈ doubleTexts) : TokText t [c, d]
  | ident {c : UInt8} {m : List UInt8} (hc : isAlpha c = true) (hm : ∀ d ∈ m, isAlnum d = true)
      (hlen : (c :: m).length ≤ lexIdentMax) (hkeyword : ∀ k ∈ keywordTexts, k.1 ≠ c :: m) :
      TokText (.ident (c :: m)) (c :: m)
  | decimal {c : UInt8} {ds : List UInt8} (hc : isDigit c = true) (hds : ∀ d ∈ ds, isDigit d = true)
      (hlt : digitsFrom 10 0 (c :: ds) < 2147483648) : TokText (.numLit (digitsFrom 10 0 (c :: ds))) (c :: ds)
  | hex {x d : UInt8} {ds : List UInt8} (hx : x = chr 'x' ∨ x = chr 'X') (hds : ∀ c ∈ d :: ds, isHex c = true)
      (hlt : digitsFrom 16 0 (d :: ds) < 2147483648) :
      TokText (.numLit (digitsFrom 16 0 (d :: ds))) (chr '0' :: x :: d :: ds)
  | charLit {c : UInt8} {s : List UInt8} (h : CharText (chr '\'') c s) :
      TokText (.charLit (signed8 c)) (chr '\'' :: (s ++ [chr '\'']))
  | strLit {cs body : List UInt8} (h : BodyText cs body) (hlen : cs.length ≤ lexStrMax) :
      TokText (.strLit cs) (chr '"' :: (body ++ [chr '"']))

/-- White space and comments. A line comment has its newline, a block comment its end. -/
inductive Gap : List UInt8 → Prop where
  | nil : Gap []
  | space {c : UInt8} {g : List UInt8} (hc : isSpace c = true) (h : Gap g) : Gap (c :: g)
  | line {b g : List UInt8} (hbody : 10 ∉ b) (h : Gap g) :
      Gap (chr '/' :: chr '/' :: (b ++ 10 :: g))
  | block {b g : List UInt8} (hbody : ¬[chr '*', chr '/'] <:+: b) (h : Gap g) :
      Gap (chr '/' :: chr '*' :: (b ++ chr '*' :: chr '/' :: g))

/-- What may follow a token: white space, or the end. -/
def Apart (s : List UInt8) : Prop := ∀ c ∈ s.head?, isSpace c = true

/-- The sources of a sequence of tokens. -/
inductive Printed : List Tok → List UInt8 → Prop where
  | done {g : List UInt8} (hg : Gap g) : Printed [] g
  | token {g w s : List UInt8} {t : Tok} {ts : List Tok} (hg : Gap g) (ht : TokText t w) (hs : Apart s)
      (h : Printed ts s) : Printed (t :: ts) (g ++ (w ++ s))

/-! ## White space and comments -/

theorem space_facts {c : UInt8} (h : isSpace c = true) : isAlnum c = false ∧ isDigit c = false ∧
    isHex c = false ∧ c ≠ chr 'x' ∧ c ≠ chr 'X' ∧ c ≠ chr '/' ∧ c ≠ chr '*' ∧
      ∀ k ∈ singleTexts, (operators k.1).1.lookup c = none := by
  simp only [isSpace, Bool.or_eq_true, beq_iff_eq] at h
  rcases h with ((rfl | rfl) | rfl) | rfl <;> decide

section Skip

variable {line : Nat} {r : List UInt8}

theorem skip_space {c : UInt8} (hc : isSpace c = true) :
    skipWhitespace .code line (c :: r) = skipWhitespace .code (lineAfter c line) r := by
  cases r with
  | nil =>
    show skipWhitespace .code line [c] = ⟨[], lineAfter c line⟩
    rw [skipWhitespace, if_pos hc]
  | cons d r => rw [skipWhitespace, if_pos hc]

theorem skip_line {body : List UInt8} (hbody : 10 ∉ body) :
    skipWhitespace .line line (body ++ 10 :: r) = skipWhitespace .code (line + 1) r := by
  induction body with
  | nil => rw [List.nil_append, skipWhitespace, if_pos rfl]
  | cons c body ih =>
    rw [List.mem_cons, not_or] at hbody
    rw [List.cons_append, skipWhitespace, if_neg (Ne.symm hbody.1), ih hbody.2]

theorem skip_block {body : List UInt8} (line : Nat) (r : List UInt8) (hbody : ¬[chr '*', chr '/'] <:+: body) : ∃ line',
    skipWhitespace .block line (body ++ chr '*' :: chr '/' :: r) = skipWhitespace .code line' r := by
  induction body generalizing line with
  | nil => exact ⟨line, by rw [List.nil_append, skipWhitespace, if_pos ⟨rfl, rfl⟩]⟩
  | cons c body ih =>
    have hrest : ¬[chr '*', chr '/'] <:+: body := fun h => hbody (h.trans (List.suffix_cons c body).isInfix)
    obtain ⟨d, rest, hd⟩ : ∃ d rest, body ++ chr '*' :: chr '/' :: r = d :: rest :=
      List.exists_cons_of_ne_nil (List.append_ne_nil_of_right_ne_nil body (List.cons_ne_nil _ _))
    obtain ⟨line', hline'⟩ := ih (lineAfter c line) hrest
    refine ⟨line', ?_⟩
    have hnot : ¬(c = chr '*' ∧ d = chr '/') := by
      rintro ⟨rfl, rfl⟩
      cases body with
      | nil => cases hd
      | cons e body =>
        obtain ⟨rfl, -⟩ := List.cons.inj hd
        exact hbody ⟨[], body, rfl⟩
    rw [List.cons_append, hd, skipWhitespace, if_neg hnot, ← hd, hline']

theorem skip_gap {g : List UInt8} (line : Nat) (r : List UInt8) (hg : Gap g) : ∃ line',
    skipWhitespace .code line (g ++ r) = skipWhitespace .code line' r := by
  induction hg generalizing line with
  | nil => exact ⟨line, rfl⟩
  | @space c g hc _ ih =>
    obtain ⟨line', h⟩ := ih (lineAfter c line)
    exact ⟨line', by rw [List.cons_append, skip_space hc, h]⟩
  | @line body g hbody _ ih =>
    obtain ⟨line', h⟩ := ih (line + 1)
    refine ⟨line', ?_⟩
    simp only [List.cons_append, List.append_assoc]
    rw [skipWhitespace, if_neg (by decide), if_pos ⟨rfl, rfl⟩, skip_line hbody, h]
  | @block body g hbody _ ih =>
    obtain ⟨line₁, h₁⟩ := skip_block line (g ++ r) hbody
    obtain ⟨line', h⟩ := ih line₁
    refine ⟨line', ?_⟩
    simp only [List.cons_append, List.append_assoc]
    rw [skipWhitespace, if_neg (by decide), if_neg (by decide), if_pos ⟨rfl, rfl⟩, h₁, h]

/-- White space ends where a token starts. -/
theorem skip_stop {c : UInt8} (hc : isSpace c = false)
    (hslash : c = chr '/' → r.head? ≠ some (chr '/') ∧ r.head? ≠ some (chr '*')) :
    skipWhitespace .code line (c :: r) = ⟨c :: r, line⟩ := by
  have hspace : ¬isSpace c = true := Bool.not_eq_true _ ▸ hc
  cases r with
  | nil => rw [skipWhitespace, if_neg hspace]
  | cons d r =>
    have hline : ¬(c = chr '/' ∧ d = chr '/') := fun h => (hslash h.1).1 (congrArg some h.2)
    have hblock : ¬(c = chr '/' ∧ d = chr '*') := fun h => (hslash h.1).2 (congrArg some h.2)
    rw [skipWhitespace, if_neg hspace, if_neg hline, if_neg hblock]

end Skip

/-! ## Literals -/

theorem digit_facts : ∀ c : UInt8, (isDigit c = true → signed8 c - signed8 (chr '0') = digit c) ∧
    (isHex c = true → hexValue c = digit c) :=
  byte_forall (by decide +kernel)

theorem le_digitsFrom {base : Nat} (hbase : 0 < base) (v : Nat) (ds : List UInt8) :
    v ≤ digitsFrom base v ds := by
  induction ds generalizing v with
  | nil => exact Nat.le_refl v
  | cons c ds ih =>
    have hstep : v ≤ v * base + digit c := Nat.le_add_right_of_le (Nat.le_mul_of_pos_right v hbase)
    exact Nat.le_trans hstep (ih _)

theorem wrap32_nat {n : Nat} (h : n < 2147483648) : wrap32 n = n := by
  rw [wrap32]
  omega

section Literals

variable {ds s : List UInt8} {v line : Nat}

theorem lexDecimal_digits (hds : ∀ d ∈ ds, isDigit d = true) (hs : Apart s)
    (hlt : digitsFrom 10 v ds < 2147483648) :
    lexDecimal v line (ds ++ s) = (.numLit (digitsFrom 10 v ds), ⟨s, line⟩) := by
  induction ds generalizing v with
  | nil =>
    cases s with
    | nil => rfl
    | cons c s =>
      have hc := (space_facts (hs c rfl)).2.1
      rw [List.nil_append, lexDecimal, if_neg (by rw [hc]; decide)]
      rfl
  | cons c ds ih =>
    have hc := hds c List.mem_cons_self
    have hnext : digitsFrom 10 (v * 10 + digit c) ds < 2147483648 := hlt
    have hv := Nat.lt_of_le_of_lt (le_digitsFrom (by decide) _ ds) hnext
    have hstep : wrap32 (v * 10 + (signed8 c - signed8 (chr '0'))) = (v * 10 + digit c : Nat) := by
      rw [(digit_facts c).1 hc, ← wrap32_nat hv]
      rfl
    rw [List.cons_append, lexDecimal, if_pos hc, hstep, ih (fun d hd => hds d (List.mem_cons_of_mem _ hd)) hnext]
    rfl

theorem lexHex_digits (hds : ∀ d ∈ ds, isHex d = true) (hs : Apart s)
    (hlt : digitsFrom 16 v ds < 2147483648) :
    lexHex v line (ds ++ s) = (.numLit (digitsFrom 16 v ds), ⟨s, line⟩) := by
  induction ds generalizing v with
  | nil =>
    cases s with
    | nil => rfl
    | cons c s =>
      have hc := (space_facts (hs c rfl)).2.2.1
      rw [List.nil_append, lexHex, if_neg (by rw [hc]; decide)]
      rfl
  | cons c ds ih =>
    have hc := hds c List.mem_cons_self
    have hnext : digitsFrom 16 (v * 16 + digit c) ds < 2147483648 := hlt
    have hv := Nat.lt_of_le_of_lt (le_digitsFrom (by decide) _ ds) hnext
    have hstep : wrap32 (v * 16 + hexValue c) = (v * 16 + digit c : Nat) := by
      rw [(digit_facts c).2 hc, ← wrap32_nat hv]
      rfl
    rw [List.cons_append, lexHex, if_pos hc, hstep, ih (fun d hd => hds d (List.mem_cons_of_mem _ hd)) hnext]
    rfl

theorem lexString_body {cs body str : List UInt8} (line : Nat) (s : List UInt8) (h : BodyText cs body)
    (hlen : str.length + cs.length ≤ lexStrMax) : ∃ line',
    lexString line str (body ++ chr '"' :: s) = (str ++ cs, ⟨s, line'⟩) := by
  induction h generalizing str line with
  | nil =>
    refine ⟨line, ?_⟩
    rw [List.append_nil, List.nil_append]
    cases s with
    | nil => rw [lexString, if_pos rfl]
    | cons d s => rw [lexString, if_pos rfl]
  | @cons c cs w body hc hbody ih =>
    rw [List.length_cons] at hlen
    -- the last character that fits is the last one
    have hlast : str.length + 1 ≥ lexStrMax → cs = [] ∧ body = [] := fun hfull => by
      cases hbody with
      | nil => exact ⟨rfl, rfl⟩
      | cons _ _ =>
        rw [List.length_cons] at hlen
        omega
    obtain ⟨d, rest, hd⟩ : ∃ d rest, body ++ chr '"' :: s = d :: rest :=
      List.exists_cons_of_ne_nil (List.append_ne_nil_of_right_ne_nil body (List.cons_ne_nil _ _))
    have hstr : str ++ c :: cs = (str ++ [c]) ++ cs := by rw [List.append_assoc, List.singleton_append]
    have hlen' : (str ++ [c]).length + cs.length ≤ lexStrMax := by
      rw [List.length_append, List.length_singleton]
      omega
    rw [hstr, List.append_assoc]
    cases hc with
    | plain hquote hescape =>
      rw [List.singleton_append, hd, lexString, if_neg hquote, if_neg hescape]
      split
      next hfull =>
        obtain ⟨rfl, rfl⟩ := hlast hfull
        obtain ⟨rfl, rfl⟩ := List.cons.inj hd
        exact ⟨_, by rw [List.append_nil]; rfl⟩
      next =>
        rw [← hd]
        exact ih _ hlen'
    | @escape e he =>
      rw [List.cons_append, List.singleton_append, lexString, if_neg (by decide), if_pos rfl]
      split
      next hfull =>
        obtain ⟨rfl, rfl⟩ := hlast hfull
        exact ⟨_, by rw [List.append_nil]; rfl⟩
      next => exact ih _ hlen'

end Literals

/-! ## Tokens -/

section Tokens

variable {s : List UInt8} {line : Nat}

theorem keyword_facts : ∀ k ∈ keywordTexts, k.1.length ≤ lexIdentMax ∧ (∀ c ∈ k.1, isAlnum c = true) ∧
    isAlpha (k.1.headD 0) = true ∧ checkKeyword k.1 = k.2 := by
  decide

theorem single_facts : ∀ k ∈ singleTexts, isSpace k.1 = false ∧ isDigit k.1 = false ∧ isAlpha k.1 = false ∧
    k.1 ≠ chr '"' ∧ k.1 ≠ chr '\'' ∧ (operators k.1).2 = k.2 := by
  decide

theorem double_facts : ∀ k ∈ doubleTexts, isSpace k.1.1 = false ∧ isDigit k.1.1 = false ∧
    isAlpha k.1.1 = false ∧ k.1.1 ≠ chr '"' ∧ k.1.1 ≠ chr '\'' ∧
    (operators k.1.1).1.lookup k.1.2 = some k.2 ∧ (k.1.1 = chr '/' → k.1.2 = chr '=') := by
  decide

/-- An identifier that is no keyword is one. -/
theorem checkKeyword_ident {name : List UInt8} (h : ∀ k ∈ keywordTexts, k.1 ≠ name) :
    checkKeyword name = .ident name := by
  have hne : ∀ k ∈ keywordTexts, name ≠ k.1 := fun k hk heq => h k hk heq.symm
  simp only [keywordTexts, List.forall_mem_cons, word] at hne
  obtain ⟨h₁, h₂, h₃, h₄, h₅, h₆, h₇, h₈, h₉, h₁₀, h₁₁, -⟩ := hne
  rw [checkKeyword, if_neg h₁, if_neg h₂, if_neg h₃, if_neg h₄, if_neg h₅, if_neg h₆, if_neg h₇, if_neg h₈,
    if_neg h₉, if_neg h₁₀, if_neg h₁₁]

/-- A token is read from a text that starts with it. -/
def Scanned (t : Tok) (w s : List UInt8) (line : Nat) : Prop :=
  ∃ c r, w ++ s = c :: r ∧ isSpace c = false ∧
    (c = chr '/' → r.head? ≠ some (chr '/') ∧ r.head? ≠ some (chr '*')) ∧
      ∃ line', lexToken c line r = (t, ⟨s, line'⟩)

/-- What is no slash starts no comment. -/
theorem Scanned.of_ne {t : Tok} {w s r : List UInt8} {c : UInt8} {line line' : Nat} (hw : w ++ s = c :: r)
    (hspace : isSpace c = false) (hslash : c ≠ chr '/') (h : lexToken c line r = (t, ⟨s, line'⟩)) :
    Scanned t w s line :=
  ⟨c, r, hw, hspace, fun heq => absurd heq hslash, line', h⟩

/-- What begins a word or a number begins neither white space nor a comment. -/
theorem alnum_facts : ∀ c : UInt8, isAlnum c = true → isSpace c = false ∧ c ≠ chr '/' ∧
    (isDigit c = true → c ≠ chr 'x' ∧ c ≠ chr 'X') :=
  byte_forall (by decide +kernel)

/-- A name is read up to what follows it. -/
theorem lexToken_name {c : UInt8} {m : List UInt8} (hc : isAlpha c = true) (hm : ∀ d ∈ m, isAlnum d = true)
    (hlen : (c :: m).length ≤ lexIdentMax) (hs : Apart s) :
    lexToken c line (m ++ s) = (checkKeyword (c :: m), ⟨s, line⟩) := by
  have hident : lexIdent line (lexIdentMax - 1) [c] (m ++ s) = (c :: m, ⟨s, line⟩) :=
    lexIdent_append hm (Nat.le_sub_one_of_lt hlen) [c] fun d hd => (space_facts (hs d hd)).1
  unfold lexToken
  rw [isDigit_of_alpha hc, if_neg Bool.false_ne_true, if_pos hc, hident]

/-- A number that does not go on with an `x` is decimal. -/
theorem lexToken_decimal {c : UInt8} {ds : List UInt8} (hc : isDigit c = true) (hds : ∀ d ∈ ds, isDigit d = true)
    (hs : Apart s) : lexToken c line (ds ++ s) = lexDecimal (digit c) line (ds ++ s) := by
  have hx : ∀ d rest, ds ++ s = d :: rest → ¬(c = chr '0' ∧ (d = chr 'x' ∨ d = chr 'X')) := by
    rintro d rest hd ⟨-, hdx⟩
    have hne : d ≠ chr 'x' ∧ d ≠ chr 'X' := by
      cases ds with
      | nil =>
        have hspace := space_facts (hs d (by rw [List.nil_append] at hd; rw [hd]; rfl))
        exact ⟨hspace.2.2.2.1, hspace.2.2.2.2.1⟩
      | cons e ds =>
        obtain ⟨rfl, -⟩ := List.cons.inj hd
        have he := hds e List.mem_cons_self
        exact (alnum_facts e (by rw [isAlnum, he, Bool.or_true])).2.2 he
    exact hdx.elim hne.1 hne.2
  unfold lexToken
  rw [if_pos hc, (digit_facts c).1 hc]
  split
  next d rest hd => rw [if_neg (hx d rest hd)]
  next => rfl

theorem scanned_of_text {t : Tok} {w : List UInt8} (h : TokText t w) (hs : Apart s) (line : Nat) :
    Scanned t w s line := by
  have hsingle : ∀ k ∈ singleTexts, ∀ d ∈ s.head?, (operators k.1).1.lookup d = none := fun k hk d hd =>
    (space_facts (hs d hd)).2.2.2.2.2.2.2 k hk
  cases h with
  | keyword h =>
    obtain ⟨hlen, hall, hfirst, hcheck⟩ := keyword_facts _ h
    cases w with
    | nil => cases hfirst
    | cons c m =>
      obtain ⟨hspace, hslash, -⟩ := alnum_facts c (hall c List.mem_cons_self)
      have hname : lexToken c line (m ++ s) = (checkKeyword (c :: m), ⟨s, line⟩) :=
        lexToken_name hfirst (fun d hd => hall d (List.mem_cons_of_mem _ hd)) hlen hs
      exact .of_ne List.cons_append hspace hslash (hname.trans (congrArg (·, _) hcheck))
  | @single c t h =>
    obtain ⟨hspace, hdigit, halpha, hquote, hchar, hop⟩ := single_facts _ h
    refine ⟨c, s, rfl, hspace, fun _ => ⟨fun hd => ?_, fun hd => ?_⟩, line, ?_⟩
    · exact (space_facts (hs _ hd)).2.2.2.2.2.1 rfl
    · exact (space_facts (hs _ hd)).2.2.2.2.2.2.1 rfl
    · unfold lexToken
      rw [hdigit, halpha, if_neg Bool.false_ne_true, if_neg Bool.false_ne_true, if_neg hquote, if_neg hchar]
      cases s with
      | nil => rw [lexOperator, hop]
      | cons d s =>
        rw [lexOperator, hsingle _ h d rfl]
        exact congrArg (·, _) hop
  | @double c d t h =>
    obtain ⟨hspace, hdigit, halpha, hquote, hchar, hop, hslash⟩ := double_facts _ h
    refine ⟨c, d :: s, rfl, hspace, fun heq => ?_, line, ?_⟩
    · have hd : d = chr '=' := hslash heq
      rw [hd]
      exact ⟨fun h => absurd (Option.some.inj h) (by decide), fun h => absurd (Option.some.inj h) (by decide)⟩
    · unfold lexToken
      rw [hdigit, halpha, if_neg Bool.false_ne_true, if_neg Bool.false_ne_true, if_neg hquote, if_neg hchar,
        lexOperator, hop]
  | @ident c m hc hm hlen hkeyword =>
    obtain ⟨hspace, hslash, -⟩ := alnum_facts c (by rw [isAlnum, hc]; rfl)
    exact .of_ne List.cons_append hspace hslash
      ((lexToken_name hc hm hlen hs).trans (by rw [checkKeyword_ident hkeyword]))
  | @decimal c ds hc hds hlt =>
    obtain ⟨hspace, hslash, -⟩ := alnum_facts c (by rw [isAlnum, hc, Bool.or_true])
    have hfirst : digitsFrom 10 0 (c :: ds) = digitsFrom 10 (digit c) ds := by
      show digitsFrom 10 (0 * 10 + digit c) ds = _
      rw [Nat.zero_mul, Nat.zero_add]
    rw [hfirst] at hlt ⊢
    exact .of_ne List.cons_append hspace hslash
      ((lexToken_decimal hc hds hs).trans (lexDecimal_digits hds hs hlt))
  | @hex x d ds hx hds hlt =>
    have hlex : lexToken (chr '0') line (x :: (d :: ds ++ s)) = lexHex (0 : Nat) line (d :: ds ++ s) := by
      unfold lexToken
      rw [if_pos (show isDigit (chr '0') = true from rfl)]
      exact if_pos ⟨rfl, hx⟩
    exact .of_ne rfl rfl (by decide) (hlex.trans (lexHex_digits hds hs hlt))
  | @charLit c w h =>
    refine ⟨chr '\'', w ++ [chr '\''] ++ s, rfl, rfl, fun heq => absurd heq (by decide), ?_⟩
    cases h with
    | plain hquote hescape =>
      have hnot : ¬(⟨c :: chr '\'' :: s, line⟩ : Pos).rest.head? = some (chr '\\') := fun h =>
        hescape (Option.some.inj h)
      refine ⟨lineAfter c line, ?_⟩
      show lexChar ⟨c :: chr '\'' :: s, line⟩ = _
      rw [lexChar, if_neg hnot]
      rfl
    | @escape e he =>
      have hescape : (⟨chr '\\' :: e :: chr '\'' :: s, line⟩ : Pos).rest.head? = some (chr '\\') := rfl
      refine ⟨lineAfter e line, ?_⟩
      show lexChar ⟨chr '\\' :: e :: chr '\'' :: s, line⟩ = _
      rw [lexChar, if_pos hescape]
      rfl
  | @strLit cs body h hlen =>
    have hlen' : ([] : List UInt8).length + cs.length ≤ lexStrMax := (Nat.zero_add _).symm ▸ hlen
    obtain ⟨line', hbody⟩ := lexString_body line s h hlen'
    have hlex : lexToken (chr '"') line (body ++ chr '"' :: s) = (.strLit cs, ⟨s, line'⟩) := by
      show (Tok.strLit (lexString line [] (body ++ chr '"' :: s)).1, (lexString line [] (body ++ chr '"' :: s)).2) = _
      rw [hbody]
      rfl
    refine .of_ne ?_ rfl (by decide) hlex
    rw [List.cons_append, List.append_assoc, List.singleton_append]

/-- `lex_scan` reads a token after white space and comments. -/
theorem lexScan_token {g w : List UInt8} {t : Tok} (hg : Gap g) (ht : TokText t w) (hs : Apart s) (line : Nat) :
    ∃ line', lexScan ⟨g ++ (w ++ s), line⟩ = (t, ⟨s, line'⟩) := by
  obtain ⟨line₁, hskip⟩ := skip_gap line (w ++ s) hg
  obtain ⟨c, r, hw, hspace, hslash, line', hlex⟩ := scanned_of_text ht hs line₁
  refine ⟨line', ?_⟩
  have hstop : skipWhitespace .code line (g ++ (w ++ s)) = ⟨c :: r, line₁⟩ := by
    rw [hskip, hw, skip_stop hspace hslash]
  simp only [lexScan, hstop, hlex]

/-- White space and comments at the end are no token. -/
theorem lexScan_end {g : List UInt8} (hg : Gap g) (line : Nat) :
    ∃ line', lexScan ⟨g, line⟩ = (.eof, ⟨[], line'⟩) := by
  obtain ⟨line', hskip⟩ := skip_gap line [] hg
  refine ⟨line', ?_⟩
  have hstop : skipWhitespace .code line g = ⟨[], line'⟩ := by
    rw [List.append_nil] at hskip
    rw [hskip, skipWhitespace]
  simp only [lexScan, hstop]

theorem ahead_end {g : List UInt8} (hg : Gap g) (line k : Nat) :
    (Lexer.ahead k ⟨⟨g, line⟩, none⟩).1 = List.replicate k .eof := by
  induction k generalizing g line with
  | zero => rfl
  | succ k ih =>
    obtain ⟨line', hscan⟩ := lexScan_end hg line
    rw [Lexer.ahead, Lexer.next]
    simp only [hscan, ih .nil, List.replicate_succ]

theorem ahead_printed {ts : List Tok} {src : List UInt8} (h : Printed ts src) (line k : Nat) :
    (Lexer.ahead (ts.length + k) ⟨⟨src, line⟩, none⟩).1 = ts ++ List.replicate k .eof := by
  induction h generalizing line with
  | done hg =>
    rw [List.length_nil, Nat.zero_add]
    exact ahead_end hg line k
  | @token g w s t ts hg ht hs _ ih =>
    obtain ⟨line', hscan⟩ := lexScan_token hg ht hs line
    rw [List.length_cons, Nat.add_right_comm, Lexer.ahead, Lexer.next]
    simp only [hscan, ih, List.cons_append]

end Tokens

/-- From a source of tokens, with their white space and comments, `lex_next` answers the tokens, each with
its value, and then the end of the file for ever. -/
theorem tokens_read_back {ts : List Tok} {src : List UInt8} (h : Printed ts src) (k : Nat) :
    ((lexInit src).ahead (ts.length + k)).1 = ts ++ List.replicate k .eof :=
  ahead_printed h 1 k

/-- A declaration with a comment and an escape. -/
theorem declaration_read_back :
    ((lexInit (word "char c = '\\n' /* end */ ;")).ahead (5 + 1)).1 =
      [.char, .ident [chr 'c'], .assign, .charLit 10, .semi] ++ List.replicate 1 .eof := by
  have hapart : ∀ s : List UInt8, Apart (32 :: s) := fun s c hc => by
    cases hc
    rfl
  have hsemi : Printed [.semi] (word " /* end */ ;") :=
    .token (g := word " /* end */ ") (.space rfl (.block (b := word " end ") (by decide) (.space rfl .nil)))
      (.single (c := chr ';') (by decide)) (fun c hc => by cases hc) (.done .nil)
  have hchar : Printed [.charLit 10, .semi] (word " '\\n' /* end */ ;") :=
    .token (g := [32]) (.space rfl .nil) (.charLit (.escape (c := chr 'n') (by decide))) (hapart _) hsemi
  have hassign : Printed [.assign, .charLit 10, .semi] (word " = '\\n' /* end */ ;") :=
    .token (g := [32]) (.space rfl .nil) (.single (c := chr '=') (by decide)) (hapart _) hchar
  have hident : Printed [.ident [chr 'c'], .assign, .charLit 10, .semi] (word " c = '\\n' /* end */ ;") :=
    .token (g := [32]) (.space rfl .nil) (.ident (by decide) (by decide) (by decide) (by decide)) (hapart _) hassign
  exact tokens_read_back (.token (g := []) .nil (.keyword (s := word "char") (by decide)) (hapart _) hident) 1

end RainbowOs.Cc
