import RainbowOs.Basic.Tokenizer
import Mathlib.Data.List.TakeWhile

/-!
# The pieces of a line

A line of tokens is a list of pieces: keywords, numbers, strings, remarks,
operators and single characters. `pieces` reads them off the tokens, and
`detokenize` writes the text of one after the other. At most one keyword is
spelled at the start of a text, for none begins with another.
-/

namespace RainbowOs.Basic

open RainbowOs.Lib

/-- A piece of a line. -/
inductive Piece where
  | char (c : UInt8)
  | keyword (name : List UInt8) (tok : UInt8)
  | rem (body : List UInt8)
  | num (val : Int)
  | str (body : List UInt8)
  | operator (name : List UInt8) (tok : UInt8)
  deriving DecidableEq, Repr

/-- The operators of two characters, with their tokens. -/
def operators : List (List UInt8 × UInt8) :=
  [([60, 61], Tok.le), ([62, 61], Tok.ge), ([60, 62], Tok.ne)]

namespace Piece

/-- The tokens of a piece. -/
def tokens : Piece → List UInt8
  | char c => [c]
  | keyword _ tok => [tok]
  | rem body => Tok.rem :: body
  | num val => Tok.num :: numBytes val
  | str body => Tok.strLit :: UInt8.ofNat body.length :: body
  | operator _ tok => [tok]

/-- The text of a piece. -/
def text : Piece → List UInt8
  | char c => [c]
  | keyword name _ => name
  | rem body => ascii "REM" ++ body
  | num val => i32ToStr val
  | str body => 34 :: (body ++ [34])
  | operator name _ => name

end Piece

/-- The tokens and the text of a list of pieces. -/
def tokensOf (ps : List Piece) : List UInt8 := ps.flatMap Piece.tokens

def textOf (ps : List Piece) : List UInt8 := ps.flatMap Piece.text

/-- The piece at a token, and the tokens after it. -/
def readPiece (tok : UInt8) (tokens : List UInt8) : Piece × List UInt8 :=
  if tok = Tok.num then
    (.num (i32 (Bytes.word32 (fun i => tokens.getD i 0) 0)), tokens.drop 4)
  else if tok = Tok.strLit then
    (.str (tokens.tail.take (tokens.headD 0).toNat), tokens.tail.drop (tokens.headD 0).toNat)
  else if tok = Tok.rem then (.rem tokens, [])
  else match operators.find? (·.2 = tok) with
    | some (name, tok) => (.operator name tok, tokens)
    | none => match keywords.find? (·.2 = tok) with
      | some (name, tok) => (.keyword name tok, tokens)
      | none => (.char tok, tokens)

/-- The pieces of at most `n` tokens. -/
def piecesFrom : (n : Nat) → List UInt8 → List Piece
  | 0, _ => []
  | _, [] => []
  | n + 1, tok :: tokens => (readPiece tok tokens).1 :: piecesFrom n (readPiece tok tokens).2

/-- The pieces of a line. -/
def pieces (tokens : List UInt8) : List Piece := piecesFrom tokens.length tokens

/-! ## Pieces that are entered -/

/-- A character that can be typed. -/
def IsTyped (c : UInt8) : Prop := 32 ≤ c ∧ c < 127

/-- What the tokenizer makes of typed text. -/
def Piece.Valid : Piece → Prop
  | char c => IsTyped c
  | keyword name tok => (name, tok) ∈ keywords ∧ tok ≠ Tok.rem
  | rem body => ∀ c ∈ body, IsTyped c
  | num val => -2147483648 ≤ val ∧ val < 2147483648
  | str body => body.length ≤ 117 ∧ ∀ c ∈ body, IsTyped c ∧ c ≠ 34
  | operator name tok => (name, tok) ∈ operators

/-- A remark takes what there is left of its line. -/
def RemLast : List Piece → Prop
  | [] => True
  | .rem _ :: ps => ps = []
  | _ :: ps => RemLast ps

theorem i32_eq {v : Int} (h : -2147483648 ≤ v ∧ v < 2147483648) : i32 v = v := by
  rw [i32]
  omega

theorem word32_le32 (n : Nat) (tokens : List UInt8) :
    Bytes.word32 (fun i => (Bytes.le32 n ++ tokens).getD i 0) 0 = n % 4294967296 := by
  simp only [Bytes.word32, Bytes.word16, Bytes.le32, Bytes.le16, List.cons_append, List.nil_append,
    List.getD_cons_zero, List.getD_cons_succ, UInt8.toNat_ofNat']
  omega

theorem i32_numBytes {v : Int} (h : -2147483648 ≤ v ∧ v < 2147483648) (tokens : List UInt8) :
    i32 (Bytes.word32 (fun i => (numBytes v ++ tokens).getD i 0) 0) = v := by
  rw [numBytes, word32_le32, i32]
  omega

theorem keyword_facts : ∀ k ∈ keywords, 2 ≤ k.1.length ∧ 0x80 ≤ k.2 ∧ k.2 ≠ Tok.num ∧
    k.2 ≠ Tok.strLit ∧ operators.find? (·.2 = k.2) = none ∧ keywords.find? (·.2 = k.2) = some k := by
  decide

theorem operator_facts : ∀ k ∈ operators, 2 ≤ k.1.length ∧ 0x80 ≤ k.2 ∧ k.2 ≠ Tok.num ∧
    k.2 ≠ Tok.strLit ∧ k.2 ≠ Tok.rem ∧ operators.find? (·.2 = k.2) = some k := by
  decide

theorem readPiece_tokens {p : Piece} (h : p.Valid) {rest : List UInt8}
    (hrem : ∀ body, p = .rem body → rest = []) : ∃ tok tokens, p.tokens = tok :: tokens ∧
      readPiece tok (tokens ++ rest) = (p, rest) := by
  cases p with
  | char c =>
    have hlow : ∀ tok : UInt8, 0x80 ≤ tok → tok ≠ c := by
      rintro tok htok rfl
      exact absurd (UInt8.lt_of_le_of_lt htok h.2) (by decide)
    have hop : operators.find? (·.2 = c) = none := by
      rw [List.find?_eq_none]
      intro k hk
      simpa using hlow k.2 (operator_facts k hk).2.1
    have hkeyword : keywords.find? (·.2 = c) = none := by
      rw [List.find?_eq_none]
      intro k hk
      simpa using hlow k.2 (keyword_facts k hk).2.1
    refine ⟨c, [], rfl, ?_⟩
    rw [readPiece, if_neg (hlow _ (by decide)).symm, if_neg (hlow _ (by decide)).symm,
      if_neg (hlow _ (by decide)).symm, hop, hkeyword]
    rfl
  | keyword name tok =>
    obtain ⟨-, -, hnum, hstr, hop, hfind⟩ := keyword_facts _ h.1
    refine ⟨tok, [], rfl, ?_⟩
    simp only [readPiece, hnum, hstr, h.2, hop, hfind, if_false, List.nil_append]
  | rem body =>
    refine ⟨Tok.rem, body, rfl, ?_⟩
    rw [hrem body rfl, List.append_nil]
    rfl
  | num val =>
    refine ⟨Tok.num, numBytes val, rfl, ?_⟩
    simp only [readPiece, if_true, i32_numBytes h]
    rfl
  | str body =>
    refine ⟨Tok.strLit, UInt8.ofNat body.length :: body, rfl, ?_⟩
    have hlength : (UInt8.ofNat body.length).toNat = body.length := by
      have := h.1
      rw [UInt8.toNat_ofNat']
      omega
    rw [readPiece, if_neg (by decide), if_pos rfl]
    simp [hlength]
  | operator name tok =>
    obtain ⟨-, -, hnum, hstr, hrem, hfind⟩ := operator_facts _ h
    refine ⟨tok, [], rfl, ?_⟩
    simp only [readPiece, hnum, hstr, hrem, hfind, if_false, List.nil_append]

theorem RemLast.tail {p : Piece} {ps : List Piece} (h : RemLast (p :: ps)) :
    RemLast ps ∧ ∀ body, p = .rem body → tokensOf ps = [] := by
  cases p with
  | rem body =>
    have hnil : ps = [] := h
    subst hnil
    exact ⟨trivial, fun _ _ => rfl⟩
  | _ => exact ⟨h, nofun⟩

/-- The pieces of a line are the ones it was made of. -/
theorem piecesFrom_tokensOf {ps : List Piece} (hvalid : ∀ p ∈ ps, p.Valid) (hrem : RemLast ps)
    {n : Nat} (hn : (tokensOf ps).length ≤ n) : piecesFrom n (tokensOf ps) = ps := by
  induction ps generalizing n with
  | nil => cases n <;> rfl
  | cons p ps ih =>
    obtain ⟨hrem', hlast⟩ := hrem.tail
    obtain ⟨tok, tokens, htokens, hread⟩ := readPiece_tokens (hvalid p List.mem_cons_self) hlast
    have hall : tokensOf (p :: ps) = tok :: (tokens ++ tokensOf ps) := by
      rw [tokensOf, List.flatMap_cons, htokens]
      rfl
    rw [hall, List.length_cons, List.length_append] at hn
    obtain ⟨n, rfl⟩ := Nat.exists_eq_add_of_le' (Nat.le_of_add_left_le hn)
    rw [hall, piecesFrom, hread]
    rw [ih (fun q hq => hvalid q (List.mem_cons_of_mem p hq)) hrem' (by omega)]

theorem pieces_tokensOf {ps : List Piece} (hvalid : ∀ p ∈ ps, p.Valid) (hrem : RemLast ps) :
    pieces (tokensOf ps) = ps := piecesFrom_tokensOf hvalid hrem (Nat.le_refl _)

/-! ## Listing -/

theorem i32ToStr_ne_nil (v : Int) : i32ToStr v ≠ [] := by
  unfold i32ToStr
  split
  · simp
  · next h0 =>
    split
    · simp
    · next hneg =>
      obtain ⟨n, hn⟩ : ∃ n, v.toNat = n + 1 := ⟨v.toNat - 1, by omega⟩
      rw [hn, digitsRev, if_neg (by omega)]
      simp

theorem text_ne_nil {p : Piece} (h : p.Valid) : p.text ≠ [] := by
  cases p with
  | char c => simp [Piece.text]
  | keyword name tok =>
    have hlength := (keyword_facts _ h.1).1
    exact List.ne_nil_of_length_pos (Nat.lt_of_lt_of_le Nat.two_pos hlength)
  | rem body => simp [Piece.text, ascii]
  | num val => exact i32ToStr_ne_nil val
  | str body => simp [Piece.text]
  | operator name tok =>
    have hlength := (operator_facts _ h).1
    exact List.ne_nil_of_length_pos (Nat.lt_of_lt_of_le Nat.two_pos hlength)

theorem keyword_not_operator : ∀ k ∈ keywords, k.2 ≠ Tok.le ∧ k.2 ≠ Tok.ge ∧ k.2 ≠ Tok.ne := by
  decide

theorem detokenizeStep_tokens {p : Piece} (h : p.Valid) {rest : List UInt8}
    (hrem : ∀ body, p = .rem body → rest = []) : ∃ tok tokens, p.tokens = tok :: tokens ∧
      detokenizeStep tok (tokens ++ rest) = (p.text, rest) ∧
      (Tok.le ≤ tok → tok ≤ Tok.ne → 2 ≤ p.text.length) := by
  cases p with
  | char c =>
    have hlow : ∀ tok : UInt8, 0x80 ≤ tok → c ≠ tok := by
      rintro tok htok rfl
      exact absurd (UInt8.lt_of_le_of_lt htok h.2) (by decide)
    have hhigh : ¬c ≥ 0x80 := fun hc => absurd (UInt8.lt_of_le_of_lt hc h.2) (by decide)
    refine ⟨c, [], rfl, ?_, fun hc _ => absurd (UInt8.le_trans (by decide) hc) hhigh⟩
    unfold detokenizeStep
    rw [if_neg (hlow _ (by decide)), if_neg (hlow _ (by decide)),
      if_neg (hlow _ (by decide)), if_neg (hlow _ (by decide)), if_neg (hlow _ (by decide)),
      if_neg hhigh]
    rfl
  | keyword name tok =>
    obtain ⟨hlength, hhigh, hnum, hstr, -, hfind⟩ := keyword_facts _ h.1
    obtain ⟨hle, hge, hne⟩ := keyword_not_operator _ h.1
    have hname : tokenToName tok = some name := by rw [tokenToName, hfind, Option.map_some]
    refine ⟨tok, [], rfl, ?_, fun _ _ => hlength⟩
    unfold detokenizeStep
    rw [if_neg hnum, if_neg hstr, if_neg hle, if_neg hge, if_neg hne, if_pos hhigh, hname]
    simp [h.2, Piece.text]
  | rem body =>
    refine ⟨Tok.rem, body, rfl, ?_, fun h _ => absurd h (by decide)⟩
    rw [hrem body rfl, List.append_nil]
    rfl
  | num val =>
    refine ⟨Tok.num, numBytes val, rfl, ?_, fun _ h => absurd h (by decide)⟩
    have hlength : (numBytes val).length = 4 := rfl
    unfold detokenizeStep
    rw [if_pos rfl, if_pos (by simp [hlength]), i32_numBytes h]
    rfl
  | str body =>
    refine ⟨Tok.strLit, UInt8.ofNat body.length :: body, rfl, ?_, fun _ h => absurd h (by decide)⟩
    have hlength : (UInt8.ofNat body.length).toNat = body.length := by
      have := h.1
      rw [UInt8.toNat_ofNat']
      omega
    unfold detokenizeStep
    rw [if_neg (by decide), if_pos rfl]
    simp [hlength, Piece.text]
  | operator name tok =>
    have hcases : (name = [60, 61] ∧ tok = Tok.le) ∨ (name = [62, 61] ∧ tok = Tok.ge) ∨
        (name = [60, 62] ∧ tok = Tok.ne) := by
      simpa [Piece.Valid, operators] using h
    rcases hcases with ⟨rfl, rfl⟩ | ⟨rfl, rfl⟩ | ⟨rfl, rfl⟩
    · exact ⟨Tok.le, [], rfl, rfl, fun _ _ => Nat.le_refl 2⟩
    · exact ⟨Tok.ge, [], rfl, rfl, fun _ _ => Nat.le_refl 2⟩
    · exact ⟨Tok.ne, [], rfl, rfl, fun _ _ => Nat.le_refl 2⟩

/-- A line is listed as the text of its pieces, as far as there is room. -/
theorem detokenizeLoop_tokensOf {ps : List Piece} (hvalid : ∀ p ∈ ps, p.Valid) (hrem : RemLast ps)
    {maxLen oi n : Nat} (hroom : oi + (textOf ps).length < maxLen) (hn : (tokensOf ps).length ≤ n) :
    detokenizeLoop maxLen n oi (tokensOf ps) = textOf ps := by
  induction ps generalizing oi n with
  | nil => cases n <;> rfl
  | cons p ps ih =>
    have hp := hvalid p List.mem_cons_self
    obtain ⟨hrem', hlast⟩ := hrem.tail
    obtain ⟨tok, tokens, htokens, hstep, hoperator⟩ := detokenizeStep_tokens hp hlast
    have hall : tokensOf (p :: ps) = tok :: (tokens ++ tokensOf ps) := by
      rw [tokensOf, List.flatMap_cons, htokens]
      rfl
    have htext : textOf (p :: ps) = p.text ++ textOf ps := List.flatMap_cons
    have hpos := List.length_pos_iff.mpr (text_ne_nil hp)
    rw [hall, List.length_cons, List.length_append] at hn
    rw [htext, List.length_append] at hroom
    obtain ⟨n, rfl⟩ := Nat.exists_eq_add_of_le' (Nat.le_of_add_left_le hn)
    have hwhole : ¬(Tok.le ≤ tok ∧ tok ≤ Tok.ne ∧ maxLen ≤ oi + 2) := by
      rintro ⟨hle, hne, hfull⟩
      have := hoperator hle hne
      omega
    rw [hall, detokenizeLoop, if_pos (by omega), hstep]
    simp only [if_neg hwhole, List.take_of_length_le (show p.text.length ≤ maxLen - 1 - oi by omega)]
    rw [htext, ih (fun q hq => hvalid q (List.mem_cons_of_mem p hq)) hrem' (by omega) (by omega)]

theorem detokenize_tokensOf {ps : List Piece} (hvalid : ∀ p ∈ ps, p.Valid) (hrem : RemLast ps)
    {maxLen : Nat} (hroom : (textOf ps).length < maxLen) :
    detokenize maxLen (tokensOf ps) = textOf ps :=
  detokenizeLoop_tokensOf hvalid hrem (by omega) (Nat.le_refl _)

/-! ## Keywords -/

/-- A keyword is spelled at the start of a text, and ends there. -/
def Spells (s kw : List UInt8) : Prop :=
  kw <+: s.map toUpper ∧ (kw.getLastD 0 = 36 ∨ isAlnum (s.getD kw.length 0) = false)

theorem spells_iff {s kw : List UInt8} : Spells s kw ↔ (s.take kw.length).map toUpper = kw ∧
    ¬(kw.getLastD 0 ≠ 36 ∧ isAlnum (s.getD kw.length 0) = true) := by
  rw [Spells, List.map_take, List.prefix_iff_eq_take, eq_comm, not_and_or, not_not,
    Bool.not_eq_true]

theorem matchKeyword_of_spells {s kw : List UInt8} (h : Spells s kw) :
    matchKeyword s kw = kw.length := by
  obtain ⟨hmatch, hend⟩ := spells_iff.mp h
  rw [matchKeyword, if_neg (not_not.mpr hmatch), if_neg hend]

theorem matchKeyword_pos {s kw : List UInt8} (hkw : kw ≠ []) :
    matchKeyword s kw > 0 ↔ Spells s kw := by
  refine ⟨fun hpos => spells_iff.mpr ?_, fun h => ?_⟩
  · unfold matchKeyword at hpos
    split at hpos
    · cases hpos
    · next hmatch =>
      split at hpos
      · cases hpos
      · next hend => exact ⟨not_not.mp hmatch, hend⟩
  · rw [matchKeyword_of_spells h]
    exact List.length_pos_iff.mpr hkw

theorem keyword_letters : ∀ k ∈ keywords, ∀ c ∈ k.1, (65 ≤ c ∧ c ≤ 90) ∨ c = 36 := by decide

theorem keyword_prefix_free : ∀ k ∈ keywords, ∀ k' ∈ keywords, k.1 <+: k'.1 → k = k' := by decide

theorem keyword_ne_nil {k : List UInt8 × UInt8} (hk : k ∈ keywords) : k.1 ≠ [] :=
  List.ne_nil_of_length_pos (Nat.lt_of_lt_of_le Nat.two_pos (keyword_facts k hk).1)

/-- One keyword at most is spelled. -/
theorem spells_unique {s : List UInt8} {k k' : List UInt8 × UInt8} (hk : k ∈ keywords)
    (hk' : k' ∈ keywords) (h : Spells s k.1) (h' : Spells s k'.1) : k = k' := by
  rcases List.prefix_or_prefix_of_prefix h.1 h'.1 with hp | hp
  · exact keyword_prefix_free k hk k' hk' hp
  · exact (keyword_prefix_free k' hk' k hk hp).symm

theorem findKeyword_none {s : List UInt8} {table : List (List UInt8 × UInt8)}
    (htable : ∀ k ∈ table, k.1 ≠ []) :
    findKeyword s table = none ↔ ∀ k ∈ table, ¬Spells s k.1 := by
  induction table with
  | nil => simp [findKeyword]
  | cons k table ih =>
    have hk := htable k List.mem_cons_self
    rw [findKeyword, List.forall_mem_cons, ← matchKeyword_pos hk,
      ← ih fun k' hk' => htable k' (List.mem_cons_of_mem k hk')]
    split
    · next hpos => simp [hpos]
    · next hpos => simp [hpos]

theorem findKeyword_some {s : List UInt8} {table : List (List UInt8 × UInt8)} {n : Nat} {tok : UInt8}
    (htable : ∀ k ∈ table, k.1 ≠ []) (h : findKeyword s table = some (n, tok)) :
    ∃ name, (name, tok) ∈ table ∧ Spells s name ∧ n = name.length := by
  induction table with
  | nil => cases h
  | cons k table ih =>
    have hk := htable k List.mem_cons_self
    rw [findKeyword] at h
    split at h
    · next hpos =>
      cases h
      have hspells := (matchKeyword_pos hk).mp hpos
      exact ⟨k.1, List.mem_cons_self, hspells, matchKeyword_of_spells hspells⟩
    · obtain ⟨name, hname, hspells, hn⟩ := ih (fun k' hk' => htable k' (List.mem_cons_of_mem k hk')) h
      exact ⟨name, List.mem_cons_of_mem k hname, hspells, hn⟩

/-- The keyword that is spelled is found. -/
theorem findKeyword_eq {s name : List UInt8} {tok : UInt8} (hk : (name, tok) ∈ keywords)
    (h : Spells s name) : findKeyword s keywords = some (name.length, tok) := by
  cases hfind : findKeyword s keywords with
  | none => exact absurd h ((findKeyword_none fun k => keyword_ne_nil).mp hfind _ hk)
  | some found =>
    obtain ⟨n, tok'⟩ := found
    obtain ⟨name', hk', h', rfl⟩ := findKeyword_some (fun k => keyword_ne_nil) hfind
    cases spells_unique hk hk' h h'
    rfl

/-- No keyword starts with anything but a letter. -/
theorem findKeyword_of_head {c : UInt8} (h : ¬(65 ≤ toUpper c ∧ toUpper c ≤ 90) ∧ toUpper c ≠ 36)
    (s : List UInt8) : findKeyword (c :: s) keywords = none := by
  refine (findKeyword_none fun k => keyword_ne_nil).mpr fun k hk hspells => ?_
  obtain ⟨a, kw, hkw⟩ := List.exists_cons_of_ne_nil (keyword_ne_nil hk)
  have hstarts := hspells.1
  rw [hkw, List.map_cons, List.cons_prefix_cons] at hstarts
  have hletter := keyword_letters k hk a (hkw ▸ List.mem_cons_self)
  rw [hstarts.1] at hletter
  rcases hletter with hletter | hletter
  · exact h.1 hletter
  · exact h.2 hletter

end RainbowOs.Basic
