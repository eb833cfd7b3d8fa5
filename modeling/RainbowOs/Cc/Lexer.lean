import Mathlib.Tactic.Common

/-!
# The lexer of the C compiler

`kernel/cc/token.h` and `kernel/cc/lexer.c`. The source is a list of bytes
and the position the part of it that is left, so `pos < src_len` is a list
that is not empty. A literal or an identifier carries what `lex_num_val`,
`lex_str_val` and `lex_str_len` answer after it: the parser asks for them
only of the token it has just consumed.

A byte that starts no token is answered with `TOK_EOF`, like the end of the
source, and is consumed.
-/

namespace RainbowOs.Cc

/-- An `int`, after the arithmetic of C on 32 bits. -/
def wrap32 (x : Int) : Int := (x + 2147483648) % 4294967296 - 2147483648

/-- The `char` of a byte. -/
def signed8 (b : UInt8) : Int := if b < 128 then b.toNat else (b.toNat : Int) - 256

/-- `enum token_type` -/
inductive Tok where
  | int | char | void | ifTok | elseTok | whileTok
  | forTok | doTok | returnTok | breakTok | continueTok
  | numLit (n : Int)
  | strLit (s : List UInt8)
  | charLit (n : Int)
  | ident (s : List UInt8)
  | plus | minus | star | slash | percent
  | amp | pipe | caret | tilde | bang
  | and | or
  | eq | ne
  | lt | gt | le | ge
  | shl | shr
  | assign
  | plusEq | minusEq | starEq | slashEq
  | inc | dec
  | lparen | rparen | lbrace | rbrace
  | lbracket | rbracket
  | semi | comma
  | eof
  deriving DecidableEq, Repr

/-- `#define LEX_IDENT_MAX` -/
abbrev lexIdentMax : Nat := 63

/-- `#define LEX_STR_MAX` -/
abbrev lexStrMax : Nat := 255

/-! ## Character classes -/

/-- The byte of a character. -/
def chr (c : Char) : UInt8 := UInt8.ofNat c.toNat

/-- `is_alpha` -/
def isAlpha (c : UInt8) : Bool :=
  (chr 'a' ≤ c && c ≤ chr 'z') || (chr 'A' ≤ c && c ≤ chr 'Z') || c == chr '_'

/-- `is_digit` -/
def isDigit (c : UInt8) : Bool := chr '0' ≤ c && c ≤ chr '9'

/-- `is_hex` -/
def isHex (c : UInt8) : Bool :=
  isDigit c || (chr 'a' ≤ c && c ≤ chr 'f') || (chr 'A' ≤ c && c ≤ chr 'F')

/-- `is_alnum` -/
def isAlnum (c : UInt8) : Bool := isAlpha c || isDigit c

/-- The white space of `skip_whitespace`. -/
def isSpace (c : UInt8) : Bool := c == chr ' ' || c == 9 || c == 13 || c == 10

/-! ## White space and comments -/

/-- The source that is left, and the number of the line it is on. -/
structure Pos where
  rest : List UInt8
  line : Nat
  deriving DecidableEq, Repr

/-- The line after `c`. -/
def lineAfter (c : UInt8) (line : Nat) : Nat := if c = 10 then line + 1 else line

/-- Where `skip_whitespace` is: outside comments, in a line comment, in a block comment. -/
inductive SkipMode where
  | code
  | line
  | block
  deriving DecidableEq, Repr

/-- `skip_whitespace`. A block comment that is not closed ends before the last byte. -/
def skipWhitespace : SkipMode → Nat → List UInt8 → Pos
  | _, line, [] => ⟨[], line⟩
  | .code, line, [c] => if isSpace c then ⟨[], lineAfter c line⟩ else ⟨[c], line⟩
  | .code, line, c :: d :: rest =>
    if isSpace c then skipWhitespace .code (lineAfter c line) (d :: rest)
    else if c = chr '/' ∧ d = chr '/' then skipWhitespace .line line rest
    else if c = chr '/' ∧ d = chr '*' then skipWhitespace .block line rest
    else ⟨c :: d :: rest, line⟩
  | .line, line, c :: rest =>
    if c = 10 then skipWhitespace .code (line + 1) rest else skipWhitespace .line line rest
  | .block, line, [c] => if isSpace c then ⟨[], lineAfter c line⟩ else ⟨[c], line⟩
  | .block, line, c :: d :: rest =>
    if c = chr '*' ∧ d = chr '/' then skipWhitespace .code line rest
    else skipWhitespace .block (lineAfter c line) (d :: rest)

/-! ## Tokens -/

/-- `next_char` -/
def nextChar : Pos → UInt8 × Pos
  | ⟨[], line⟩ => (0, ⟨[], line⟩)
  | ⟨c :: rest, line⟩ => (c, ⟨rest, lineAfter c line⟩)

/-- The escapes of `parse_escape`. -/
def escaped (c : UInt8) : UInt8 :=
  if c = chr 'n' then 10
  else if c = chr 't' then 9
  else if c = chr 'r' then 13
  else if c = chr '0' then 0
  else c

/-- `parse_escape` -/
def parseEscape (p : Pos) : UInt8 × Pos := (escaped (nextChar p).1, (nextChar p).2)

/-- The digits of a decimal literal. -/
def lexDecimal (num : Int) (line : Nat) : List UInt8 → Tok × Pos
  | [] => (.numLit num, ⟨[], line⟩)
  | c :: rest =>
    if isDigit c then lexDecimal (wrap32 (num * 10 + (signed8 c - signed8 (chr '0')))) line rest
    else (.numLit num, ⟨c :: rest, line⟩)

/-- The value of a hexadecimal digit. -/
def hexValue (h : UInt8) : Int :=
  if isDigit h then signed8 h - signed8 (chr '0')
  else if chr 'a' ≤ h ∧ h ≤ chr 'f' then signed8 h - signed8 (chr 'a') + 10
  else signed8 h - signed8 (chr 'A') + 10

/-- The digits of a hexadecimal literal. -/
def lexHex (num : Int) (line : Nat) : List UInt8 → Tok × Pos
  | [] => (.numLit num, ⟨[], line⟩)
  | c :: rest =>
    if isHex c then lexHex (wrap32 (num * 16 + hexValue c)) line rest
    else (.numLit num, ⟨c :: rest, line⟩)

/-- The rest of an identifier: at most `n` more characters. -/
def lexIdent (line : Nat) : (n : Nat) → (str rest : List UInt8) → List UInt8 × Pos
  | 0, str, rest => (str, ⟨rest, line⟩)
  | _ + 1, str, [] => (str, ⟨[], line⟩)
  | n + 1, str, c :: rest =>
    if isAlnum c then lexIdent line n (str ++ [c]) rest else (str, ⟨c :: rest, line⟩)

/-- A string literal after its quote. The byte after the last one that fits is skipped
like a closing quote. -/
def lexString (line : Nat) (str : List UInt8) : List UInt8 → List UInt8 × Pos
  | [] => (str, ⟨[], line⟩)
  | [c] =>
    if c = chr '"' then (str, ⟨[], line⟩)
    else if c = chr '\\' then (str ++ [0], ⟨[], line⟩)
    else (str ++ [c], ⟨[], lineAfter c line⟩)
  | c :: d :: rest =>
    if c = chr '"' then (str, ⟨d :: rest, line⟩)
    else if c = chr '\\' then
      if str.length + 1 ≥ lexStrMax then
        (str ++ [escaped d], (nextChar ⟨rest, lineAfter d line⟩).2)
      else lexString (lineAfter d line) (str ++ [escaped d]) rest
    else if str.length + 1 ≥ lexStrMax then
      (str ++ [c], (nextChar ⟨d :: rest, lineAfter c line⟩).2)
    else lexString (lineAfter c line) (str ++ [c]) (d :: rest)

/-- `check_keyword` -/
def checkKeyword (s : List UInt8) : Tok :=
  if s = "int".toList.map chr then .int
  else if s = "char".toList.map chr then .char
  else if s = "void".toList.map chr then .void
  else if s = "if".toList.map chr then .ifTok
  else if s = "else".toList.map chr then .elseTok
  else if s = "while".toList.map chr then .whileTok
  else if s = "for".toList.map chr then .forTok
  else if s = "do".toList.map chr then .doTok
  else if s = "return".toList.map chr then .returnTok
  else if s = "break".toList.map chr then .breakTok
  else if s = "continue".toList.map chr then .continueTok
  else .ident s

/-- A token of one character. -/
def single (c : UInt8) : Tok :=
  if c = chr '%' then .percent
  else if c = chr '^' then .caret
  else if c = chr '~' then .tilde
  else if c = chr '(' then .lparen
  else if c = chr ')' then .rparen
  else if c = chr '{' then .lbrace
  else if c = chr '}' then .rbrace
  else if c = chr '[' then .lbracket
  else if c = chr ']' then .rbracket
  else if c = chr ';' then .semi
  else if c = chr ',' then .comma
  else .eof

/-- The operators that start with `c`: those of two characters with the second one, and
what `c` is by itself. -/
def operators (c : UInt8) : List (UInt8 × Tok) × Tok :=
  if c = chr '+' then ([(chr '+', .inc), (chr '=', .plusEq)], .plus)
  else if c = chr '-' then ([(chr '-', .dec), (chr '=', .minusEq)], .minus)
  else if c = chr '*' then ([(chr '=', .starEq)], .star)
  else if c = chr '/' then ([(chr '=', .slashEq)], .slash)
  else if c = chr '&' then ([(chr '&', .and)], .amp)
  else if c = chr '|' then ([(chr '|', .or)], .pipe)
  else if c = chr '!' then ([(chr '=', .ne)], .bang)
  else if c = chr '=' then ([(chr '=', .eq)], .assign)
  else if c = chr '<' then ([(chr '=', .le), (chr '<', .shl)], .lt)
  else if c = chr '>' then ([(chr '=', .ge), (chr '>', .shr)], .gt)
  else ([], single c)

/-- The `switch` of `lex_scan`. -/
def lexOperator (c : UInt8) (line : Nat) : List UInt8 → Tok × Pos
  | [] => ((operators c).2, ⟨[], line⟩)
  | d :: rest =>
    match (operators c).1.lookup d with
    | some t => (t, ⟨rest, line⟩)
    | none => ((operators c).2, ⟨d :: rest, line⟩)

/-- A closing quote, if there is one. -/
def skipQuote : Pos → Pos
  | ⟨[], line⟩ => ⟨[], line⟩
  | ⟨c :: rest, line⟩ => if c = chr '\'' then ⟨rest, line⟩ else ⟨c :: rest, line⟩

/-- A character literal after its quote. -/
def lexChar (p : Pos) : Tok × Pos :=
  if p.rest.head? = some (chr '\\') then
    (.charLit (signed8 (parseEscape (nextChar p).2).1),
      skipQuote (parseEscape (nextChar p).2).2)
  else (.charLit (signed8 (nextChar p).1), skipQuote (nextChar p).2)

/-- A token that starts with `c`. -/
def lexToken (c : UInt8) (line : Nat) (rest : List UInt8) : Tok × Pos :=
  if isDigit c then
    match rest with
    | x :: digits =>
      if c = chr '0' ∧ (x = chr 'x' ∨ x = chr 'X') then lexHex 0 line digits
      else lexDecimal (signed8 c - signed8 (chr '0')) line rest
    | [] => lexDecimal (signed8 c - signed8 (chr '0')) line rest
  else if isAlpha c then
    (checkKeyword (lexIdent line (lexIdentMax - 1) [c] rest).1,
      (lexIdent line (lexIdentMax - 1) [c] rest).2)
  else if c = chr '"' then (.strLit (lexString line [] rest).1, (lexString line [] rest).2)
  else if c = chr '\'' then lexChar ⟨rest, line⟩
  else lexOperator c line rest

/-- `lex_scan` -/
def lexScan (p : Pos) : Tok × Pos :=
  match skipWhitespace .code p.line p.rest with
  | ⟨[], line⟩ => (.eof, ⟨[], line⟩)
  | ⟨c :: rest, line⟩ => lexToken c line rest

/-! ## The lexer's state -/

/-- The statics of `lexer.c`: the source, and the token that was peeked at. -/
structure Lexer where
  pos : Pos
  peeked : Option Tok
  deriving DecidableEq, Repr

/-- `lex_init` -/
def lexInit (source : List UInt8) : Lexer := ⟨⟨source, 1⟩, none⟩

/-- `lex_next` -/
def Lexer.next (l : Lexer) : Tok × Lexer :=
  match l.peeked with
  | some t => (t, { l with peeked := none })
  | none => ((lexScan l.pos).1, ⟨(lexScan l.pos).2, none⟩)

/-- `lex_peek` -/
def Lexer.peek (l : Lexer) : Tok × Lexer :=
  match l.peeked with
  | some t => (t, l)
  | none => ((lexScan l.pos).1, ⟨(lexScan l.pos).2, some (lexScan l.pos).1⟩)

/-- `lex_line` -/
def Lexer.line (l : Lexer) : Nat := l.pos.line

end RainbowOs.Cc
