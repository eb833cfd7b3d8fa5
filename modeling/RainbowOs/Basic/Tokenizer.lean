import RainbowOs.Basic.Expr

/-!
# The tokenizer

`apps/basic/tokenizer.c`: `tokenize` reads text into tokens, one round of
its loop for each token, and `detokenize` writes tokens out again. Text is a
list of the bytes before the terminating zero.
-/

namespace RainbowOs.Basic

open RainbowOs.Lib

/-- `match_keyword`: the length of the keyword, or 0. -/
def matchKeyword (src kw : List UInt8) : Nat :=
  if (src.take kw.length).map toUpper ≠ kw then 0
  else if kw.getLastD 0 ≠ 36 ∧ isAlnum (src.getD kw.length 0) then 0
  else kw.length

/-- The first keyword of the table that matches, by its length and its token. -/
def findKeyword (src : List UInt8) : List (List UInt8 × UInt8) → Option (Nat × UInt8)
  | [] => none
  | (kw, tok) :: table =>
    if matchKeyword src kw > 0 then some (matchKeyword src kw, tok) else findKeyword src table

/-- `parse_number`, of text that starts with a digit. -/
def parseNumber (src : List UInt8) : Int := digitsVal 0 src

/-- The bytes of an `int32_t`. -/
def numBytes (val : Int) : List UInt8 := Bytes.le32 (val % 4294967296).toNat

/-- The operators of two characters. -/
def findComparison : List UInt8 → Option UInt8
  | 60 :: 61 :: _ => some Tok.le
  | 62 :: 61 :: _ => some Tok.ge
  | 60 :: 62 :: _ => some Tok.ne
  | _ => none

/-- One round of the loop of `tokenize` at the character `c`, where `pos` bytes have been put out:
the bytes it puts out, and the rest of the text. -/
def tokenizeStep (maxLen pos : Nat) (c : UInt8) (src : List UInt8) : List UInt8 × List UInt8 :=
  if c = 32 then ([32], src)
  else match findKeyword (c :: src) keywords with
    | some (klen, tok) =>
      let rest := (c :: src).drop klen
      if tok = Tok.rem then
        let n := maxLen - 1 - (pos + 1)
        (tok :: rest.take n, rest.drop n)
      else ([tok], rest)
    | none =>
      if isDigit c then
        (Tok.num :: numBytes (parseNumber (c :: src)), src.dropWhile isDigit)
      else if c = 34 then
        let body := (src.takeWhile (· ≠ 34)).take (maxLen - 1 - (pos + 2))
        let rest := src.drop body.length
        (Tok.strLit :: UInt8.ofNat body.length :: body,
          if rest.head? = some 34 then rest.tail else rest)
      else match findComparison (c :: src) with
        | some tok => ([tok], src.tail)
        | none => ([c], src)

/-- The loop of `tokenize`. -/
def tokenizeLoop (maxLen : Nat) : (fuel pos : Nat) → List UInt8 → List UInt8
  | 0, _, _ => []
  | _, _, [] => []
  | fuel + 1, pos, c :: src =>
    if pos + 5 < maxLen then
      let (out, rest) := tokenizeStep maxLen pos c src
      out ++ tokenizeLoop maxLen fuel (pos + out.length) rest
    else []

/-- `tokenize` -/
def tokenize (maxLen : Nat) (src : List UInt8) : List UInt8 := tokenizeLoop maxLen src.length 0 src

/-- `token_to_name` -/
def tokenToName (tok : UInt8) : Option (List UInt8) :=
  (keywords.find? fun k => k.2 = tok).map (·.1)

/-- What one round of the loop of `detokenize` makes of the token `tok`: its text, and the rest of
the tokens. -/
def detokenizeStep (tok : UInt8) (tokens : List UInt8) : List UInt8 × List UInt8 :=
  if tok = Tok.num then
    if 4 ≤ tokens.length then
      (i32ToStr (i32 (Bytes.word32 (fun i => tokens.getD i 0) 0)), tokens.drop 4)
    else ([], tokens)
  else if tok = Tok.strLit then
    match tokens with
    | [] => ([], [])
    | slen :: tokens => (34 :: tokens.take slen.toNat ++ [34], tokens.drop slen.toNat)
  else if tok = Tok.le then ([60, 61], tokens)
  else if tok = Tok.ge then ([62, 61], tokens)
  else if tok = Tok.ne then ([60, 62], tokens)
  else match (if tok ≥ 0x80 then tokenToName tok else none) with
    | some name => if tok = Tok.rem then (name ++ tokens, []) else (name, tokens)
    | none => ([tok], tokens)

/-- The loop of `detokenize`: a comparison is put out whole or not at all. -/
def detokenizeLoop (maxLen : Nat) : (fuel oi : Nat) → List UInt8 → List UInt8
  | 0, _, _ => []
  | _, _, [] => []
  | fuel + 1, oi, tok :: tokens =>
    if oi + 1 < maxLen then
      let (text, rest) := detokenizeStep tok tokens
      let out := if Tok.le ≤ tok ∧ tok ≤ Tok.ne ∧ maxLen ≤ oi + 2 then []
        else text.take (maxLen - 1 - oi)
      out ++ detokenizeLoop maxLen fuel (oi + out.length) rest
    else []

/-- `detokenize` -/
def detokenize (maxLen : Nat) (tokens : List UInt8) : List UInt8 :=
  detokenizeLoop maxLen tokens.length 0 tokens

end RainbowOs.Basic
