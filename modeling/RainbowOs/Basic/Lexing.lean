import RainbowOs.Basic.Decimal
import RainbowOs.Basic.LineNumbers

/-!
# Lines that are listed and entered again

`Lexes` reads a text piece by piece, by the rules of `Cut`, as far as there
is room for tokens. A line of typed text is never cut off where it is listed,
and comes back as the same tokens, unless it was cut where it was entered, in
a word whose letters before the cut spell a keyword: `round_trip_iff`.
-/

namespace RainbowOs.Basic

open RainbowOs.Lib

/-! ## Reading a text -/

/-- What follows the body of a string, and the quote after it. -/
def afterBody (s : List UInt8) (n : Nat) : List UInt8 :=
  if (s.drop n).head? = some 34 then (s.drop n).tail else s.drop n

/-- A text is read as pieces up to the text that is left; `pos` is the room that is used before, and
`pos'` after. -/
inductive Lexes : (pos : Nat) → (s : List UInt8) → List Piece → (pos' : Nat) → (rest : List UInt8) → Prop where
  | done (pos : Nat) (s : List UInt8) : Lexes pos s [] pos s
  | piece {pos pos' : Nat} {c : UInt8} {s t rest : List UInt8} {p : Piece} {ps : List Piece}
      (hroom : pos < 115) (hcut : Cut pos (c :: s) p t)
      (hquote : ∀ body, p = .str body → t = afterBody s body.length)
      (h : Lexes (pos + p.tokens.length) t ps pos' rest) : Lexes pos (c :: s) (p :: ps) pos' rest

/-- The line does not fit, and is cut after single characters that spell a keyword. -/
def CutInWord (line : List UInt8) : Prop :=
  ∃ ps pos rest, Lexes 0 line ps pos rest ∧ 115 ≤ pos ∧ rest ≠ [] ∧ endsInKeyword ps = true

/-- The numerals that are read of a text are `int32_t`. -/
def SmallNumerals (pos : Nat) (s : List UInt8) : Prop :=
  ∀ ps pos' c rest, Lexes pos s ps pos' (c :: rest) → pos' < 115 → isDigit c = true →
    numeralValue ((c :: rest).takeWhile isDigit) ≤ 2147483647

/-! ## One piece -/

section Pieces

variable {pos : Nat} {c : UInt8} {s t : List UInt8} {p : Piece}

/-- The round at a piece gives its tokens. -/
theorem Cut.step {u : List UInt8} (h : Cut pos u p t) (hu : u = c :: s)
    (hquote : ∀ body, p = .str body → t = afterBody s body.length) :
    tokenizeStep 120 pos c s = (p.tokens, t) := by
  have hspace : ∀ k ∈ keywords, Spells (c :: s) k.1 → c ≠ 32 := by
    rintro ⟨name, tok⟩ hk hs rfl
    have hnone := findKeyword_of_head (c := 32) (by decide) s
    rw [findKeyword_eq hk hs] at hnone
    cases hnone
  cases h with
  | space s =>
    cases hu
    rfl
  | @keyword _ name tok hk hrem hs =>
    subst hu
    rw [tokenizeStep, if_neg (hspace _ hk hs), findKeyword_eq hk hs]
    simp only [if_neg hrem]
    rfl
  | rem hs =>
    subst hu
    have hk : (ascii "REM", Tok.rem) ∈ keywords := by decide
    have hroom : 120 - 1 - (pos + 1) = 118 - pos := by omega
    rw [tokenizeStep, if_neg (hspace _ hk hs), findKeyword_eq hk hs, hroom]
    rfl
  | num s hc =>
    cases hu
    have hblank : c ≠ 32 := by
      rintro rfl
      exact absurd hc (by decide)
    rw [tokenizeStep, if_neg hblank, findKeyword_of_head (toUpper_stop (.inl hc))]
    simp only [hc, if_true]
    rfl
  | str s t =>
    cases hu
    have hroom : 120 - 1 - (pos + 2) = 117 - pos := by omega
    rw [tokenizeStep, if_neg (by decide), findKeyword_of_head (toUpper_stop (.inr rfl)), hroom,
      hquote _ rfl]
    rfl
  | operator hop t =>
    rcases operator_cases hop with ⟨rfl, rfl⟩ | ⟨rfl, rfl⟩ | ⟨rfl, rfl⟩
    all_goals
      cases hu
      rw [tokenizeStep, if_neg (by decide), findKeyword_of_head (by decide)]
      rfl
  | char hdigit hne hkeyword hoperator =>
    cases hu
    obtain ⟨d, u, hd, hstep⟩ := @rereads_char pos s c hdigit hne hkeyword hoperator
    cases hd
    exact hstep

theorem Cut.str_body {u body : List UInt8} (h : Cut pos u (.str body) t) :
    ∃ s, u = 34 :: s ∧ body = (s.takeWhile (· ≠ 34)).take (117 - pos) := by
  cases h with
  | str s t => exact ⟨s, rfl, rfl⟩

/-- The text after a piece is an end of the text. -/
theorem Cut.suffix (h : Cut pos (c :: s) p t)
    (hquote : ∀ body, p = .str body → t = afterBody s body.length) : t <:+ s := by
  obtain ⟨p', t', -, hsuffix, hstep⟩ := tokenizeStep_cut pos c s
  rw [h.step rfl hquote] at hstep
  rw [(Prod.mk.inj hstep).2]
  exact hsuffix

end Pieces

/-! ## Whole texts -/

namespace Lexes

variable {pos pos' : Nat} {s rest : List UInt8} {ps : List Piece}

/-- Every text is read to its end, or as far as there is room. -/
theorem exists_of (pos : Nat) (s : List UInt8) :
    ∃ ps pos' rest, Lexes pos s ps pos' rest ∧ (rest = [] ∨ 115 ≤ pos') := by
  induction hn : s.length using Nat.strong_induction_on generalizing pos s with
  | _ n ih =>
    by_cases hend : s = [] ∨ 115 ≤ pos
    · exact ⟨[], pos, s, .done pos s, hend⟩
    obtain ⟨hne, hroom⟩ := not_or.mp hend
    obtain ⟨c, s, rfl⟩ := List.exists_cons_of_ne_nil hne
    obtain ⟨p, t, hcut, hsuffix, hstep⟩ := tokenizeStep_cut pos c s
    have hlt : t.length < n := by
      rw [← hn]
      exact Nat.lt_succ_of_le hsuffix.length_le
    obtain ⟨ps, pos', rest, hlexes, hrest⟩ := ih t.length hlt (pos + p.tokens.length) t rfl
    refine ⟨p :: ps, pos', rest, .piece (Nat.not_le.mp hroom) hcut ?_ hlexes, hrest⟩
    rintro body rfl
    obtain ⟨u, hu, rfl⟩ := hcut.str_body
    cases hu
    have hread := (@Cut.str pos s (afterBody s _)).step rfl fun _ heq => by
      cases heq
      rfl
    rw [hread] at hstep
    exact (Prod.mk.inj hstep).2.symm

theorem suffix (h : Lexes pos s ps pos' rest) : rest <:+ s := by
  induction h with
  | done => exact List.suffix_rfl
  | piece _ hcut hquote _ ih => exact (ih.trans (hcut.suffix hquote)).trans (List.suffix_cons _ _)

/-- The tokens of a text are those of its pieces. -/
theorem tokenize (h : Lexes pos s ps pos' rest) (hrest : rest = [] ∨ 115 ≤ pos') {fuel : Nat}
    (hfuel : s.length ≤ fuel) : tokenizeLoop 120 fuel pos s = tokensOf ps := by
  induction h generalizing fuel with
  | done pos s => exact tokenizeLoop_end (hrest.imp_right fun hfull => by omega)
  | @piece pos pos' c s t rest p ps hroom hcut hquote h ih =>
    obtain ⟨fuel, rfl⟩ := Nat.exists_eq_add_of_le' (Nat.le_of_add_left_le hfuel)
    have hlen := (hcut.suffix hquote).length_le
    rw [List.length_cons] at hfuel
    rw [tokenizeLoop, if_pos (show pos + 5 < 120 by omega), hcut.step rfl hquote, tokensOf_cons]
    simp only [ih hrest (show t.length ≤ fuel by omega)]

theorem valid (h : Lexes pos s ps pos' rest) (hs : ∀ c ∈ s, IsTyped c) : ∀ p ∈ ps, p.Valid := by
  induction h with
  | done => simp
  | piece _ hcut hquote _ ih =>
    refine List.forall_mem_cons.mpr ⟨hcut.valid hs, ih fun d hd => hs d ?_⟩
    exact List.mem_cons_of_mem _ ((hcut.suffix hquote).subset hd)

/-- Nothing is read at the end, or where there is no room. -/
theorem eq_nil (h : Lexes pos s ps pos' rest) (hend : s = [] ∨ 115 ≤ pos) : ps = [] := by
  cases h with
  | done => rfl
  | piece hroom _ _ _ => exact absurd (hend.resolve_left (List.cons_ne_nil _ _)) (Nat.not_le.mpr hroom)

theorem remLast (h : Lexes pos s ps pos' rest) : RemLast ps := by
  induction h with
  | done => trivial
  | @piece pos _ c s t rest p ps hroom hcut _ h ih =>
    cases p with
    | rem body => exact h.eq_nil ((hcut.after_rem (by omega)).imp_right fun hfull => by omega)
    | _ => exact ih

end Lexes

/-- The numerals of what is left of a text. -/
theorem SmallNumerals.tail {pos : Nat} {c : UInt8} {s t : List UInt8} {p : Piece}
    (h : SmallNumerals pos (c :: s)) (hroom : pos < 115) (hcut : Cut pos (c :: s) p t)
    (hquote : ∀ body, p = .str body → t = afterBody s body.length) :
    SmallNumerals (pos + p.tokens.length) t :=
  fun ps pos' d rest hlexes => h (p :: ps) pos' d rest (.piece hroom hcut hquote hlexes)

/-! ## Numerals -/

section Numerals

variable {pos pos' : Nat} {c : UInt8} {ds s t rest : List UInt8} {p : Piece} {ps : List Piece}

theorem le_foldl_digits (ds : List UInt8) (n : Nat) :
    n ≤ ds.foldl (fun n c => n * 10 + (c.toNat - 48)) n := by
  induction ds generalizing n with
  | nil => exact Nat.le_refl n
  | cons c ds ih =>
    have hstep : n ≤ n * 10 + (c.toNat - 48) := by omega
    exact Nat.le_trans hstep (ih _)

/-- A numeral that is no greater than an `int32_t` is read as its value. -/
theorem parseNumber_small (hds : ∀ c ∈ ds, isDigit c = true) (ht : isDigit (t.headD 0) = false)
    (hle : numeralValue ds ≤ 2147483647) : parseNumber (ds ++ t) = numeralValue ds := by
  have hfold : ∀ (ds : List UInt8), (∀ c ∈ ds, isDigit c = true) → ∀ n : Nat,
      ds.foldl (fun n c => n * 10 + (c.toNat - 48)) n ≤ 2147483647 →
      ds.foldl (fun (val : Int) c => i32 (val * 10 + (c.toNat - 48))) n =
        (ds.foldl (fun n c => n * 10 + (c.toNat - 48)) n : Nat) := by
    intro ds
    induction ds with
    | nil => exact fun _ _ _ => rfl
    | cons c ds ih =>
      intro hds n hle
      rw [List.foldl_cons] at hle
      have hstep := le_foldl_digits ds (n * 10 + (c.toNat - 48))
      have hlow : 48 ≤ c.toNat := by
        have hdigit := hds c List.mem_cons_self
        rw [isDigit, Bool.and_eq_true] at hdigit
        have hlow : 48 ≤ c := of_decide_eq_true hdigit.1
        exact hlow
      have hval : i32 ((n : Int) * 10 + (c.toNat - 48)) = ((n * 10 + (c.toNat - 48) : Nat) : Int) := by
        rw [i32_eq (by omega)]
        omega
      rw [List.foldl_cons, List.foldl_cons, hval]
      exact ih (fun d hd => hds d (List.mem_cons_of_mem c hd)) _ hle
  rw [parseNumber, digitsVal_append hds ht]
  exact hfold ds hds 0 hle

theorem numeralValue_lt (hds : ∀ c ∈ ds, isDigit c = true) : numeralValue ds < 10 ^ ds.length := by
  have hfold : ∀ (ds : List UInt8), (∀ c ∈ ds, isDigit c = true) → ∀ n : Nat,
      ds.foldl (fun n c => n * 10 + (c.toNat - 48)) n < (n + 1) * 10 ^ ds.length := by
    intro ds
    induction ds with
    | nil => exact fun _ n => by simp
    | cons c ds ih =>
      intro hds n
      have hhigh : c.toNat ≤ 57 := by
        have hdigit := hds c List.mem_cons_self
        rw [isDigit, Bool.and_eq_true] at hdigit
        have hhigh : c ≤ 57 := of_decide_eq_true hdigit.2
        exact hhigh
      rw [List.foldl_cons, List.length_cons]
      calc ds.foldl (fun n c => n * 10 + (c.toNat - 48)) (n * 10 + (c.toNat - 48))
          < (n * 10 + (c.toNat - 48) + 1) * 10 ^ ds.length :=
            ih (fun d hd => hds d (List.mem_cons_of_mem c hd)) _
        _ ≤ ((n + 1) * 10) * 10 ^ ds.length := Nat.mul_le_mul_right _ (by omega)
        _ = (n + 1) * 10 ^ (ds.length + 1) := by rw [Nat.mul_assoc, Nat.pow_succ']
  have hlt := hfold ds hds 0
  rwa [Nat.zero_add, Nat.one_mul] at hlt

/-- A numeral is listed with no more digits than it was entered with. -/
theorem length_i32ToStr_le (hds : ∀ c ∈ ds, isDigit c = true) (hne : ds ≠ []) :
    (i32ToStr (numeralValue ds : Nat)).length ≤ ds.length := by
  have hpos := List.length_pos_iff.mpr hne
  rw [i32ToStr]
  split
  · exact hpos
  · rw [if_neg (by omega), List.length_reverse, Int.toNat_natCast]
    exact length_digitsRev (numeralValue_lt hds)

/-- What is read of a small numeral. -/
theorem SmallNumerals.head (h : SmallNumerals pos (c :: s)) (hroom : pos < 115) (hc : isDigit c = true) :
    parseNumber (c :: s) = numeralValue ((c :: s).takeWhile isDigit) := by
  have hdrop : isDigit (((c :: s).dropWhile isDigit).headD 0) = false := by
    have hhead := List.head?_dropWhile_not isDigit (c :: s)
    cases hrest : (c :: s).dropWhile isDigit with
    | nil => rfl
    | cons d rest =>
      rw [hrest] at hhead
      simpa using hhead
  have hsmall := h [] pos c s (.done pos _) hroom hc
  have hparse := parseNumber_small (fun d hd => List.mem_takeWhile_imp hd) hdrop hsmall
  rwa [List.takeWhile_append_dropWhile] at hparse

theorem Cut.num_eq {u : List UInt8} {v : Int} (h : Cut pos u (.num v) t) : ∃ c s, u = c :: s ∧
    isDigit c = true ∧ v = parseNumber (c :: s) ∧ t = s.dropWhile isDigit := by
  cases h with
  | num s hc => exact ⟨_, s, rfl, hc, rfl, rfl⟩

theorem Cut.num_nonneg (hcut : Cut pos (c :: s) p t) (h : SmallNumerals pos (c :: s)) (hroom : pos < 115) :
    ∀ v, p = .num v → 0 ≤ v := by
  rintro v rfl
  obtain ⟨c', s', heq, hc, rfl, -⟩ := hcut.num_eq
  cases heq
  rw [h.head hroom hc]
  exact Int.natCast_nonneg _

theorem Lexes.num_nonneg (h : Lexes pos s ps pos' rest) (hnum : SmallNumerals pos s) :
    ∀ v, .num v ∈ ps → 0 ≤ v := by
  induction h with
  | done => simp
  | piece hroom hcut hquote _ ih =>
    intro v hv
    rcases List.mem_cons.mp hv with heq | hv
    · exact hcut.num_nonneg hnum hroom v heq.symm
    · exact ih (hnum.tail hroom hcut hquote) v hv

end Numerals

/-! ## How long a listing is -/

section Length

variable {pos pos' : Nat} {c : UInt8} {s t rest : List UInt8} {p : Piece} {ps : List Piece}

/-- A string that ends without a quote ends the text, or takes all the room. -/
theorem Cut.str_length (s : List UInt8) (hroom : pos < 115) {body : List UInt8}
    (hbody : body = (s.takeWhile (· ≠ 34)).take (117 - pos)) :
    body.length + 1 + (afterBody s body.length).length = s.length ∨
      body.length + (afterBody s body.length).length = s.length ∧
        (afterBody s body.length = [] ∨ 115 ≤ pos + (Piece.str body).tokens.length) := by
  have hprefix : body <+: s := hbody ▸ (List.take_prefix _ _).trans (List.takeWhile_prefix _)
  have hle := hprefix.length_le
  have hdrop : (s.drop body.length).length = s.length - body.length := List.length_drop
  rw [afterBody]
  split
  · next hhead =>
    obtain ⟨t, ht⟩ := List.head?_eq_some_iff.mp hhead
    rw [ht, List.length_cons] at hdrop
    rw [ht, List.tail_cons]
    exact .inl (by omega)
  · next hhead =>
    refine .inr ⟨by omega, ?_⟩
    by_cases hfull : 117 - pos ≤ (s.takeWhile (· ≠ 34)).length
    · have hlen : body.length = 117 - pos := by
        rw [hbody, List.length_take, Nat.min_eq_left hfull]
      exact .inr (by simp only [Piece.tokens, List.length_cons]; omega)
    · have hall : body = s.takeWhile (· ≠ 34) := by
        rw [hbody, List.take_of_length_le (Nat.le_of_not_le hfull)]
      have hrest : s.drop body.length = s.dropWhile (· ≠ 34) := by
        have hsplit : body ++ s.dropWhile (· ≠ 34) = s := hall ▸ List.takeWhile_append_dropWhile
        exact (congrArg (List.drop body.length) hsplit.symm).trans List.drop_left
      have hstop := List.head?_dropWhile_not (fun c : UInt8 => decide (c ≠ 34)) s
      rw [hrest] at hhead ⊢
      left
      cases hd : s.dropWhile (· ≠ 34) with
      | nil => rfl
      | cons d t =>
        rw [hd] at hstop hhead
        exact absurd (congrArg some (by simpa using hstop)) hhead

/-- A piece is listed as no more than was read of it, but for the quote of a string that the text
ends in. -/
theorem Cut.length (hcut : Cut pos (c :: s) p t) (hnum : SmallNumerals pos (c :: s)) (hroom : pos < 115)
    (hquote : ∀ body, p = .str body → t = afterBody s body.length) :
    p.text.length + t.length ≤ s.length + 1 ∨ p.text.length + t.length ≤ s.length + 2 ∧
      (t = [] ∨ 115 ≤ pos + p.tokens.length) := by
  have hspells : ∀ name : List UInt8, Spells (c :: s) name → name.length ≤ s.length + 1 := fun name hs => by
    simpa using hs.1.length_le
  have hhead : isDigit c = true → parseNumber (c :: s) = numeralValue ((c :: s).takeWhile isDigit) :=
    hnum.head hroom
  generalize hu : c :: s = u at hcut
  cases hcut with
  | space s' =>
    cases hu
    exact .inl (by simp [Piece.text, Nat.add_comm])
  | @keyword _ name tok hk _ hs =>
    subst hu
    have hlen := hspells name hs
    refine .inl ?_
    rw [Piece.text, List.length_drop, List.length_cons]
    omega
  | rem hs =>
    subst hu
    have hlen : 3 ≤ s.length + 1 := hspells _ hs
    have hsplit := congrArg List.length (List.take_append_drop (118 - pos) ((c :: s).drop 3))
    rw [List.length_append, List.length_drop (i := 3), List.length_cons] at hsplit
    have hrem : (ascii "REM").length = 3 := rfl
    refine .inl ?_
    rw [Piece.text, List.length_append, hrem]
    omega
  | num s' hc =>
    cases hu
    have hdrop : s.dropWhile isDigit = (c :: s).dropWhile isDigit := (List.dropWhile_cons_of_pos hc).symm
    have hne : (c :: s).takeWhile isDigit ≠ [] := by
      rw [List.takeWhile_cons_of_pos hc]
      exact List.cons_ne_nil _ _
    have hle := length_i32ToStr_le (fun d hd => List.mem_takeWhile_imp hd) hne
    have hsplit := congrArg List.length (@List.takeWhile_append_dropWhile _ isDigit (c :: s))
    rw [List.length_append, List.length_cons] at hsplit
    refine .inl ?_
    rw [Piece.text, hhead hc, hdrop]
    omega
  | str s' t =>
    cases hu
    rw [hquote _ rfl]
    have htext : ∀ body : List UInt8, (Piece.str body).text.length = body.length + 2 := fun body => by
      simp [Piece.text]
    rw [htext]
    refine (Cut.str_length s hroom rfl).imp (fun h => ?_) fun h => ⟨?_, h.2⟩
    · omega
    · omega
  | operator hop s' =>
    have hlen := congrArg List.length hu
    rw [List.length_append, List.length_cons] at hlen
    exact .inl (Nat.le_of_eq hlen.symm)
  | char _ _ _ _ =>
    cases hu
    exact .inl (by simp [Piece.text, Nat.add_comm])

/-- The listing of a text is at most one character longer. -/
theorem Lexes.length (h : Lexes pos s ps pos' rest) (hnum : SmallNumerals pos s) :
    (textOf ps).length + rest.length ≤ s.length + 1 := by
  induction h with
  | done => exact Nat.le_trans (Nat.le_of_eq (Nat.zero_add _)) (Nat.le_succ _)
  | @piece pos pos' c s t rest p ps hroom hcut hquote h ih =>
    have hrest := ih (hnum.tail hroom hcut hquote)
    rw [textOf_cons, List.length_append, List.length_cons]
    rcases hcut.length hnum hroom hquote with hlen | ⟨hlen, hend⟩
    · omega
    · obtain rfl := h.eq_nil hend
      cases h
      rw [textOf, List.flatMap_nil, List.length_nil]
      omega

end Length

/-! ## Keywords at the end -/

section Ends

variable {pos pos' : Nat} {c : UInt8} {s t rest : List UInt8} {p : Piece} {ps : List Piece}

/-- After a remark nothing is read. -/
theorem Lexes.after_rem (h : Lexes (pos + p.tokens.length) t ps pos' rest) (hroom : pos < 115)
    (hcut : Cut pos (c :: s) p t) : ∀ body, p = .rem body → ps = [] := by
  rintro body rfl
  exact h.eq_nil ((hcut.after_rem (by omega)).imp_right fun hfull => by omega)

theorem Lexes.listedAs (h : Lexes pos s ps pos' rest) (hnum : SmallNumerals pos s) :
    ListedAs s (textOf ps) := by
  induction h with
  | done pos s => exact .done s
  | piece hroom hcut hquote h ih =>
    rw [textOf_cons]
    refine hcut.listedAs (ih (hnum.tail hroom hcut hquote)) (hcut.num_nonneg hnum hroom) fun body hbody => ?_
    rw [h.after_rem hroom hcut body hbody]
    rfl

theorem Cut.char_keyword {d : UInt8} (h : Cut pos (c :: s) (.char d) t) :
    d = c ∧ findKeyword (c :: s) keywords = none := by
  generalize hu : c :: s = u at h
  cases h with
  | space s =>
    cases hu
    exact ⟨rfl, findKeyword_of_head (by decide) s⟩
  | char _ _ hkeyword _ =>
    cases hu
    exact ⟨rfl, hkeyword⟩

/-- A piece of letters is listed as it was entered. -/
theorem Cut.letters (hcut : Cut pos (c :: s) p t) (hnum : ∀ v, p = .num v → 0 ≤ v)
    (hrem : ∀ body, p = .rem body → t = [])
    (hletters : ∀ d ∈ p.text, (65 ≤ toUpper d ∧ toUpper d ≤ 90) ∨ toUpper d = 36) :
    (c :: s).map toUpper = (p.text ++ t).map toUpper := by
  have hstop : ∀ d ∈ p.text, ¬(isDigit d = true ∨ d = 34) := by
    intro d hd hstop
    have hnot := toUpper_stop hstop
    exact (hletters d hd).elim hnot.1 hnot.2
  generalize c :: s = u at hcut
  cases hcut with
  | space s => exact absurd (hletters 32 List.mem_cons_self) (by decide)
  | @keyword _ name tok hk _ hs =>
    have hname := (spells_iff.mp hs).1
    rw [Piece.text, List.map_append, keyword_capitals _ hk]
    conv => lhs; rw [← List.take_append_drop name.length u, List.map_append, hname]
  | rem hs =>
    have hname : (u.take 3).map toUpper = ascii "REM" := (spells_iff.mp hs).1
    have hbody := List.take_append_drop (118 - pos) (u.drop 3)
    rw [hrem _ rfl, List.append_nil] at hbody
    rw [hrem _ rfl, Piece.text, hbody, List.append_nil, List.map_append]
    conv => lhs; rw [← List.take_append_drop 3 u, List.map_append, hname]
    rfl
  | @num a s hc =>
    obtain ⟨d, ds, hds⟩ := List.exists_cons_of_ne_nil (i32ToStr_ne_nil (parseNumber (a :: s)))
    have hmem : d ∈ i32ToStr (parseNumber (a :: s)) := hds ▸ List.mem_cons_self
    exact absurd (.inl (i32ToStr_digits (hnum _ rfl) d hmem)) (hstop d hmem)
  | str s t => exact absurd (.inr rfl) (hstop 34 List.mem_cons_self)
  | operator hop s =>
    rcases operator_cases hop with ⟨rfl, -⟩ | ⟨rfl, -⟩ | ⟨rfl, -⟩
    · exact absurd (hletters 60 List.mem_cons_self) (by decide)
    · exact absurd (hletters 62 List.mem_cons_self) (by decide)
    · exact absurd (hletters 60 List.mem_cons_self) (by decide)
  | char _ _ _ _ => rfl

/-- A text of letters that is read to its end is listed as it was entered. -/
theorem Lexes.letters (h : Lexes pos s ps pos' rest) (hrest : rest = []) (hnum : SmallNumerals pos s)
    (hletters : ∀ d ∈ textOf ps, (65 ≤ toUpper d ∧ toUpper d ≤ 90) ∨ toUpper d = 36) :
    s.map toUpper = (textOf ps).map toUpper := by
  induction h with
  | done pos s =>
    subst hrest
    rfl
  | @piece pos pos' c s t rest p ps hroom hcut hquote h ih =>
    rw [textOf_cons] at hletters ⊢
    have htail := ih hrest (hnum.tail hroom hcut hquote) fun d hd => hletters d (List.mem_append_right _ hd)
    have hrem : ∀ body, p = .rem body → t = [] := by
      intro body hbody
      obtain rfl := h.after_rem hroom hcut body hbody
      cases h
      exact hrest
    rw [hcut.letters (hcut.num_nonneg hnum hroom) hrem fun d hd => hletters d (List.mem_append_left _ hd),
      List.map_append, List.map_append, htail]

/-- The capitals of a text are a keyword: it is spelled there. -/
theorem spells_of_eq {k : List UInt8 × UInt8} (h : k.1 = s.map toUpper) : Spells s k.1 := by
  refine ⟨h ▸ List.prefix_refl _, .inr ?_⟩
  have hlen : s.length ≤ k.1.length := by rw [h, List.length_map]
  rw [List.getD_eq_default _ _ hlen]
  rfl

/-- A text that is read to its end does not end in a keyword that was not read. -/
theorem Lexes.whole (h : Lexes pos s ps pos' rest) (hrest : rest = []) (hnum : SmallNumerals pos s) :
    endsInKeyword ps = false := by
  induction h with
  | done => rfl
  | @piece pos pos' c s t rest p ps hroom hcut hquote h ih =>
    have htail := ih hrest (hnum.tail hroom hcut hquote)
    cases p with
    | char d =>
      obtain ⟨rfl, hnone⟩ := hcut.char_keyword
      rw [endsInKeyword, htail, Bool.or_false, List.any_eq_false]
      intro k hk heq
      have heq : k.1 = (d :: textOf ps).map toUpper := by simpa using heq
      have hletters : ∀ a ∈ textOf (.char d :: ps), (65 ≤ toUpper a ∧ toUpper a ≤ 90) ∨ toUpper a = 36 := by
        intro a ha
        exact keyword_letters k hk _ (heq ▸ List.mem_map_of_mem ha)
      have hsame := (Lexes.piece hroom hcut hquote h).letters hrest hnum hletters
      exact (findKeyword_none fun k => keyword_ne_nil).mp hnone k hk (spells_of_eq (heq.trans hsame.symm))
    | _ => exact htail

theorem tokenizeStep_spells {k : List UInt8 × UInt8} (hk : k ∈ keywords) (hs : Spells (c :: s) k.1) :
    ∃ out rest, tokenizeStep 120 pos c s = (k.2 :: out, rest) := by
  have hspace : c ≠ 32 := by
    rintro rfl
    have hnone := findKeyword_of_head (c := 32) (by decide) s
    rw [findKeyword_eq hk hs] at hnone
    cases hnone
  rw [tokenizeStep, if_neg hspace, findKeyword_eq hk hs]
  simp only
  split
  · exact ⟨_, _, rfl⟩
  · exact ⟨_, _, rfl⟩

/-- A listing that ends in a keyword that was not read is read as other tokens. -/
theorem Lexes.differs (h : Lexes pos s ps pos' rest) (hs : ∀ c ∈ s, IsTyped c)
    (hnum : SmallNumerals pos s) (hend : endsInKeyword ps = true) {n : Nat}
    (hn : (textOf ps).length ≤ n) : tokenizeLoop 120 n pos (textOf ps) ≠ tokensOf ps := by
  induction h generalizing n with
  | done => cases hend
  | @piece pos pos' c s t rest p ps hroom hcut hquote h ih =>
    have hroom' : pos + 5 < 120 := by omega
    by_cases hhere : ∃ d, p = .char d ∧ ∃ k ∈ keywords, k.1 = (d :: textOf ps).map toUpper
    · -- the keyword begins here
      obtain ⟨d, rfl, k, hk, heq⟩ := hhere
      obtain ⟨rfl, -⟩ := hcut.char_keyword
      obtain ⟨out, rest, hstep⟩ := @tokenizeStep_spells pos d (textOf ps) k hk (spells_of_eq heq)
      have htext : textOf (.char d :: ps) = d :: textOf ps := rfl
      rw [htext] at hn ⊢
      obtain ⟨n, rfl⟩ := Nat.exists_eq_add_of_le' (Nat.le_of_add_left_le hn)
      rw [tokenizeLoop, if_pos hroom', hstep, tokensOf_cons]
      intro hsame
      have hhead : k.2 = d := (List.cons.inj hsame).1
      have htyped := (hs d List.mem_cons_self).2
      have hhigh := (keyword_facts k hk).2.1
      rw [hhead] at hhigh
      exact absurd (UInt8.lt_of_le_of_lt hhigh htyped) (by decide)
    · -- the piece is read again
      have hlisted := h.listedAs (hnum.tail hroom hcut hquote)
      have hrem : ∀ body, p = .rem body → textOf ps = [] := by
        intro body hbody
        rw [h.after_rem hroom hcut body hbody]
        rfl
      have hends : endsInKeyword ps = true := by
        cases p with
        | char d =>
          rw [endsInKeyword, Bool.or_eq_true] at hend
          refine hend.resolve_left fun hany => hhere ⟨d, rfl, ?_⟩
          simpa using hany
        | _ => exact hend
      obtain ⟨d, u, hu, hstep⟩ := hcut.rereads hlisted (hcut.num_nonneg hnum hroom) hrem
        fun d hd k hk heq => hhere ⟨d, hd, k, hk, heq⟩
      rw [textOf_cons, hu, List.cons_append] at hn ⊢
      rw [List.length_cons, List.length_append] at hn
      obtain ⟨n, rfl⟩ := Nat.exists_eq_add_of_le' (Nat.le_of_add_left_le hn)
      rw [tokenizeLoop, if_pos hroom', hstep, tokensOf_cons]
      intro hsame
      have htail : ∀ d ∈ t, IsTyped d :=
        fun d hd => hs d (List.mem_cons_of_mem _ ((hcut.suffix hquote).subset hd))
      exact ih htail (hnum.tail hroom hcut hquote) hends (by omega) (List.append_cancel_left hsame)

end Ends

/-! ## Lines that come back -/

/-- The listing of tokens is not cut off. -/
def Uncut (tokens : List UInt8) : Prop := ∀ n, 160 ≤ n → detokenize n tokens = detokenize 160 tokens

section RoundTrip

variable {line : List UInt8}

/-- A typed line with numerals that fit is never cut off where it is listed, and comes back as the same
tokens just where it was not cut in a word after a keyword. -/
theorem round_trip_iff (hs : ∀ c ∈ line, IsTyped c) (hlen : line.length ≤ 158)
    (hnum : SmallNumerals 0 line) :
    Uncut (tokenize 120 line) ∧ tokenize 120 (detokenize 160 (tokenize 120 line)) = tokenize 120 line ↔
      ¬CutInWord line := by
  -- what is listed, whatever the pieces are
  have hlists : ∀ {ps : List Piece} {pos : Nat} {rest : List UInt8}, Lexes 0 line ps pos rest →
      (rest = [] ∨ 115 ≤ pos) → tokenize 120 line = tokensOf ps ∧
        ∀ n, 160 ≤ n → detokenize n (tokenize 120 line) = textOf ps := by
    intro ps pos rest h hrest
    have htokens : tokenize 120 line = tokensOf ps := h.tokenize hrest (Nat.le_refl _)
    have hroom := h.length hnum
    refine ⟨htokens, fun n hn => ?_⟩
    rw [htokens]
    exact detokenize_tokensOf (h.valid hs) h.remLast (by omega)
  constructor
  · rintro ⟨-, hagain⟩ ⟨ps, pos, rest, h, hfull, -, hend⟩
    obtain ⟨htokens, htext⟩ := hlists h (.inr hfull)
    rw [htext 160 (Nat.le_refl 160), htokens] at hagain
    exact h.differs hs hnum hend (Nat.le_refl _) hagain
  · intro hcut
    obtain ⟨ps, pos, rest, h, hrest⟩ := Lexes.exists_of 0 line
    obtain ⟨htokens, htext⟩ := hlists h hrest
    have hend : endsInKeyword ps = false := by
      by_cases hwhole : rest = []
      · exact h.whole hwhole hnum
      · by_contra hend
        exact hcut ⟨ps, pos, rest, h, hrest.resolve_left hwhole, hwhole, by simpa using hend⟩
    have hpieces : pieces (tokenize 120 line) = ps := by
      rw [htokens, pieces_tokensOf (h.valid hs) h.remLast]
    refine ⟨fun n hn => (htext n hn).trans (htext 160 (Nat.le_refl 160)).symm, ?_⟩
    rw [htext 160 (Nat.le_refl 160)]
    exact (tokenize_listing hs hpieces (h.num_nonneg hnum) hend).1

/-- A line without digits has no numerals. -/
theorem smallNumerals_of_no_digit (h : ∀ c ∈ line, isDigit c = false) : SmallNumerals 0 line := by
  intro ps pos c rest hlexes _ hc
  have hmem : c ∈ line := hlexes.suffix.subset List.mem_cons_self
  rw [h c hmem] at hc
  cases hc

theorem round_trip_iff_print : Uncut (tokenize 120 (ascii "PRINT A")) ∧
    tokenize 120 (detokenize 160 (tokenize 120 (ascii "PRINT A"))) = tokenize 120 (ascii "PRINT A") ↔
      ¬CutInWord (ascii "PRINT A") :=
  round_trip_iff (by unfold IsTyped; decide) (by decide) (smallNumerals_of_no_digit (by decide))

/-- 113 colons and `ORX`: the line is cut after `OR`. -/
def cutLine : List UInt8 := List.replicate 113 58 ++ ascii "ORX"

theorem cutLine_not_kept : ¬∀ line : List UInt8, (∀ c ∈ line, IsTyped c) → line.length ≤ 158 →
    SmallNumerals 0 line → Uncut (tokenize 120 line) ∧
      tokenize 120 (detokenize 160 (tokenize 120 line)) = tokenize 120 line := by
  intro h
  have hkept := (h cutLine (by unfold IsTyped; decide +kernel) (by decide +kernel)
    (smallNumerals_of_no_digit (by decide +kernel))).2
  exact absurd hkept (by decide +kernel)

end RoundTrip

end RainbowOs.Basic
