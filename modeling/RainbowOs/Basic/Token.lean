import RainbowOs.Lib.Bytes

/-!
# Tokens

`apps/basic/token.h`, and the table of keywords and the character classes of
`tokenizer.c`. A line of a program is kept as tokens: one byte for a keyword,
a number as a mark and four bytes, a string as a mark, a length and its
characters, and everything else as it was typed.
-/

namespace RainbowOs.Basic

open RainbowOs.Lib

/-- An `int32_t`, after the arithmetic of C on 32 bits. -/
def i32 (x : Int) : Int := (x + 2147483648) % 4294967296 - 2147483648

namespace Tok

abbrev print : UInt8 := 0x80
abbrev input : UInt8 := 0x81
abbrev let_ : UInt8 := 0x82
abbrev if_ : UInt8 := 0x83
abbrev then_ : UInt8 := 0x84
abbrev goto : UInt8 := 0x85
abbrev gosub : UInt8 := 0x86
abbrev return_ : UInt8 := 0x87
abbrev for_ : UInt8 := 0x88
abbrev to_ : UInt8 := 0x89
abbrev step : UInt8 := 0x8A
abbrev next : UInt8 := 0x8B
abbrev rem : UInt8 := 0x8C
abbrev end_ : UInt8 := 0x8D
abbrev dim : UInt8 := 0x8E
abbrev else_ : UInt8 := 0x8F
abbrev and : UInt8 := 0x90
abbrev or : UInt8 := 0x91
abbrev not : UInt8 := 0x92
abbrev mod : UInt8 := 0x93
abbrev le : UInt8 := 0x94
abbrev ge : UInt8 := 0x95
abbrev ne : UInt8 := 0x96
abbrev abs : UInt8 := 0xA0
abbrev rnd : UInt8 := 0xA1
abbrev len : UInt8 := 0xA2
abbrev val : UInt8 := 0xA3
abbrev chr : UInt8 := 0xA4
abbrev str : UInt8 := 0xA5
abbrev left : UInt8 := 0xA6
abbrev right : UInt8 := 0xA7
abbrev mid : UInt8 := 0xA8
abbrev peek : UInt8 := 0xA9
abbrev poke : UInt8 := 0xAA
abbrev int : UInt8 := 0xAB
abbrev load : UInt8 := 0xB0
abbrev save : UInt8 := 0xB1
abbrev list : UInt8 := 0xB2
abbrev run : UInt8 := 0xB3
abbrev new : UInt8 := 0xB4
abbrev clr : UInt8 := 0xB5
abbrev cls : UInt8 := 0xB6
abbrev num : UInt8 := 0xFE
abbrev strLit : UInt8 := 0xFF

end Tok

/-- `keywords` -/
def keywords : List (List UInt8 × UInt8) :=
  [(ascii "PRINT", Tok.print), (ascii "INPUT", Tok.input), (ascii "LET", Tok.let_),
    (ascii "IF", Tok.if_), (ascii "THEN", Tok.then_), (ascii "GOTO", Tok.goto),
    (ascii "GOSUB", Tok.gosub), (ascii "RETURN", Tok.return_), (ascii "FOR", Tok.for_),
    (ascii "TO", Tok.to_), (ascii "STEP", Tok.step), (ascii "NEXT", Tok.next),
    (ascii "REM", Tok.rem), (ascii "END", Tok.end_), (ascii "DIM", Tok.dim),
    (ascii "ELSE", Tok.else_), (ascii "AND", Tok.and), (ascii "OR", Tok.or),
    (ascii "NOT", Tok.not), (ascii "MOD", Tok.mod), (ascii "ABS", Tok.abs),
    (ascii "RND", Tok.rnd), (ascii "LEN", Tok.len), (ascii "VAL", Tok.val),
    (ascii "CHR$", Tok.chr), (ascii "STR$", Tok.str), (ascii "LEFT$", Tok.left),
    (ascii "RIGHT$", Tok.right), (ascii "MID$", Tok.mid), (ascii "PEEK", Tok.peek),
    (ascii "POKE", Tok.poke), (ascii "INT", Tok.int), (ascii "LOAD", Tok.load),
    (ascii "SAVE", Tok.save), (ascii "LIST", Tok.list), (ascii "RUN", Tok.run),
    (ascii "NEW", Tok.new), (ascii "CLR", Tok.clr), (ascii "CLS", Tok.cls)]

/-- `to_upper` -/
def toUpper (c : UInt8) : UInt8 := if 97 ≤ c ∧ c ≤ 122 then c - 32 else c

/-- `is_alpha` -/
def isAlpha (c : UInt8) : Bool := (65 ≤ c && c ≤ 90) || (97 ≤ c && c ≤ 122)

/-- `is_digit` -/
def isDigit (c : UInt8) : Bool := 48 ≤ c && c ≤ 57

/-- `is_alnum` -/
def isAlnum (c : UInt8) : Bool := isAlpha c || isDigit c

end RainbowOs.Basic
