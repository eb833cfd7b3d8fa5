import RainbowOs.Cc.Lexer
import RainbowOs.Lib.Bytes

/-!
# The preprocessor

`kernel/cc/preproc.c`. `step` is one round of the loop of `preprocess` but
for `#include`: what it puts out, the macros and the regions after it, and
the text that is left. An included file is read into a static buffer and
preprocessed from there, by the same function and with the same table of
macros; so `preprocessLoop` has a position in a source that may change while
it is read. What does not fit the output is dropped, but for the output of an
included file, where it is an error. `fuel` bounds the rounds and the depth
of the files.
-/

namespace RainbowOs.Cc

open RainbowOs.Lib

/-- `#define MAX_MACROS` -/
abbrev maxMacros : Nat := 64

/-- `#define MACRO_NAME_MAX` -/
abbrev macroNameMax : Nat := 31

/-- `#define MACRO_VAL_MAX` -/
abbrev macroValMax : Nat := 127

/-- `#define INCLUDE_BUF_SZ` -/
abbrev includeBufSz : Nat := 4096

/-- `#define MAX_IF_DEPTH` -/
abbrev maxIfDepth : Nat := 16

/-- The bytes of a text. -/
def word (s : String) : List UInt8 := s.toList.map chr

/-- `struct macro` -/
structure Macro where
  name : List UInt8
  value : List UInt8
  deriving DecidableEq, Repr

/-- `find_macro` -/
def findMacro (macros : List Macro) (name : List UInt8) : Option Macro :=
  macros.find? (·.name = name)

/-- The first macro of a name with another value. -/
def redefine (name value : List UInt8) : List Macro → List Macro
  | [] => []
  | m :: macros =>
    if m.name = name then { m with value := value } :: macros else m :: redefine name value macros

/-- `add_macro` -/
def addMacro (macros : List Macro) (name value : List UInt8) : List Macro :=
  let value := value.takeWhile (· ≠ 0)
  if macros.length ≥ maxMacros then macros
  else if (findMacro macros name).isSome then redefine name value macros
  else macros ++ [⟨name.take macroNameMax, value.take macroValMax⟩]

/-- `is_ident_char` -/
def isIdentChar (c : UInt8) : Bool :=
  (chr 'a' ≤ c && c ≤ chr 'z') || (chr 'A' ≤ c && c ≤ chr 'Z') || (chr '0' ≤ c && c ≤ chr '9') ||
    c == chr '_'

/-- `is_ident_start` -/
def isIdentStart (c : UInt8) : Bool :=
  (chr 'a' ≤ c && c ≤ chr 'z') || (chr 'A' ≤ c && c ≤ chr 'Z') || c == chr '_'

/-- `read_word`: the word and what follows it. -/
def readWord (max : Nat) (s : List UInt8) : List UInt8 × List UInt8 :=
  let w := (s.takeWhile isIdentChar).take max
  (w, s.drop w.length)

/-- A blank or a tab. -/
def isBlank (c : UInt8) : Bool := c == chr ' ' || c == 9

/-- `skip_spaces` -/
def skipSpaces (s : List UInt8) : List UInt8 := s.dropWhile isBlank

/-- The white space that `read_line` trims. -/
def isTrimmed (c : UInt8) : Bool := isBlank c || c == 13

/-- `read_line`: the line, trimmed, and what follows it. -/
def readLine (max : Nat) (s : List UInt8) : List UInt8 × List UInt8 :=
  let line := (s.takeWhile (· ≠ 10)).take max
  ((line.reverse.dropWhile isTrimmed).reverse, s.drop line.length)

/-- The end of the line. -/
def skipLine (s : List UInt8) : List UInt8 := s.dropWhile (· ≠ 10)

/-! ## Regions -/

/-- `if_active`, `if_done` and `if_depth`, the innermost first, and `active`. -/
structure Region where
  ifs : List (Bool × Bool)
  active : Bool
  deriving DecidableEq, Repr

/-- Outside all conditionals. -/
def Region.init : Region := ⟨[], true⟩

/-- `if_active` of the innermost conditional, or 1. -/
def parentActive : List (Bool × Bool) → Bool
  | [] => true
  | (active, _) :: _ => active

/-- A conditional is opened, and `holds` is its condition. -/
def Region.open_ (r : Region) (holds : Bool) : Region :=
  ⟨(r.active && holds, r.active && holds) :: r.ifs, r.active && holds⟩

/-- `#else` -/
def Region.else_ (r : Region) : Region :=
  match r.ifs with
  | [] => r
  | (_, done) :: parents =>
    if parentActive parents && !done then ⟨(true, true) :: parents, true⟩
    else ⟨(false, done) :: parents, false⟩

/-- `#endif` -/
def Region.endif (r : Region) : Region :=
  match r.ifs with
  | [] => r
  | _ :: parents => ⟨parents, parentActive parents⟩

/-! ## Rounds -/

/-- What a round of the loop does. -/
structure Step where
  out : List UInt8
  macros : List Macro
  region : Region
  rest : List UInt8
  deriving DecidableEq, Repr

/-- The rest of a line is skipped, and its newline put out. -/
def finishLine (macros : List Macro) (r : Region) (s : List UInt8) : Step :=
  match skipLine s with
  | [] => ⟨[], macros, r, []⟩
  | c :: rest => ⟨[c], macros, r, rest⟩

/-- The name of a directive and what follows it, after the `#`. -/
def readDirective (s : List UInt8) : List UInt8 × List UInt8 :=
  let (w, s) := readWord 15 (skipSpaces s)
  (w, skipSpaces s)

/-- A directive but `include`, with what follows its name. -/
def directive (macros : List Macro) (r : Region) (name s : List UInt8) :
    List Macro × Region × List UInt8 :=
  if name = word "define" ∧ r.active then
    let (w, s) := readWord macroNameMax s
    let (value, s) := readLine macroValMax (skipSpaces s)
    (addMacro macros w value, r, s)
  else if name = word "ifdef" then
    if r.ifs.length < maxIfDepth then
      let (w, s) := readWord macroNameMax s
      (macros, r.open_ (findMacro macros w).isSome, s)
    else (macros, r, s)
  else if name = word "ifndef" then
    if r.ifs.length < maxIfDepth then
      let (w, s) := readWord macroNameMax s
      (macros, r.open_ (findMacro macros w).isNone, s)
    else (macros, r, s)
  else if name = word "else" then (macros, r.else_, s)
  else if name = word "endif" then (macros, r.endif, s)
  else (macros, r, s)

/-- A literal after its opening quote, and what follows it. -/
def readLiteral (quote : UInt8) : List UInt8 → List UInt8 × List UInt8
  | [] => ([], [])
  | [c] => ([c], [])
  | c :: d :: s =>
    if c = quote then ([c], d :: s)
    else if c = chr '\\' then (c :: d :: (readLiteral quote s).1, (readLiteral quote s).2)
    else (c :: (readLiteral quote (d :: s)).1, (readLiteral quote (d :: s)).2)

/-- The text at `c`: what it becomes, and what follows. -/
def textStep (macros : List Macro) (c : UInt8) (s : List UInt8) : List UInt8 × List UInt8 :=
  if c = chr '"' ∨ c = chr '\'' then (c :: (readLiteral c s).1, (readLiteral c s).2)
  else if isIdentStart c then
    let (w, rest) := readWord macroNameMax (c :: s)
    (((findMacro macros w).map (·.value)).getD w, rest)
  else ([c], s)

/-- One round of the loop of `preprocess` at `c`, but for `#include`. -/
def step (macros : List Macro) (r : Region) (c : UInt8) (s : List UInt8) : Step :=
  if c = chr '#' then
    let (name, s) := readDirective s
    let (macros, r, s) := directive macros r name s
    finishLine macros r s
  else if r.active then
    let (out, rest) := textStep macros c s
    ⟨out, macros, r, rest⟩
  else finishLine macros r (c :: s)

/-! ## Files -/

/-- The name of the file of an `#include` at `c`, and what follows it. -/
def includeName (r : Region) (c : UInt8) (s : List UInt8) : Option (List UInt8 × List UInt8) :=
  let (name, s) := readDirective s
  if c = chr '#' ∧ name = word "include" ∧ r.active then
    match s with
    | [] => none
    | q :: s =>
      if q = chr '"' then
        let file := (s.takeWhile (· ≠ chr '"')).take 31
        some (file.takeWhile (· ≠ 0), (s.drop file.length).drop 1)
      else none
  else none

/-- The statics of `preproc.c`. -/
structure Statics where
  macros : List Macro
  includeBuf : Bytes

/-- Where `preprocess` reads: a text, or the buffer of included files. -/
inductive Source where
  | text (s : List UInt8)
  | included (len : Nat)

/-- What is left of the source. -/
def Source.rest (src : Source) (buf : Bytes) (ip : Nat) : List UInt8 :=
  match src with
  | .text s => s.drop ip
  | .included len => buf.slice ip (len - ip)

/-- What a round of the loop comes to: it is done, or it has read a file. -/
inductive Action where
  | plain (x : Step)
  | file (bytes rest : List UInt8)

/-- The round at `c`; `files` is what `fat12_read_file` reads. -/
def action (files : List UInt8 → Option (List UInt8)) (macros : List Macro) (r : Region) (c : UInt8)
    (s : List UInt8) : Action :=
  match includeName r c s with
  | none => .plain (step macros r c s)
  | some (name, s) =>
    match files name with
    | some (b :: bytes) => .file (b :: bytes) s
    | _ => .plain (finishLine macros r s)

/-- `emit`, of one byte after the other. -/
def emit (outMax : Nat) (out s : List UInt8) : List UInt8 := (out ++ s).take (outMax - 1)

/-- The loop of `preprocess`: the statics, and the output unless it is an error. -/
def preprocessLoop (files : List UInt8 → Option (List UInt8)) :
    (fuel : Nat) → Source → (outMax : Nat) → Statics → Region → (ip : Nat) → (out : List UInt8) →
      Option (Statics × Option (List UInt8))
  | 0, _, _, _, _, _, _ => none
  | fuel + 1, src, outMax, st, r, ip, out =>
    match src.rest st.includeBuf ip with
    | [] => some (st, some out)
    | c :: s =>
      match action files st.macros r c s with
      | .plain x =>
        preprocessLoop files fuel src outMax { st with macros := x.macros } x.region
          (ip + ((c :: s).length - x.rest.length)) (emit outMax out x.out)
      | .file bytes rest =>
        match preprocessLoop files fuel (.included bytes.length) includeBufSz
            ⟨[], st.includeBuf.store 0 (bytes ++ [0])⟩ Region.init 0 [] with
        | none => none
        | some (st, inc) =>
          let inc := inc.getD []
          if outMax - 1 < out.length + inc.length then some (st, none)
          else
            let ip := ip + ((c :: s).length - rest.length)
            -- what is left is read again, for the buffer is another one now
            let left := src.rest st.includeBuf ip
            let x := finishLine st.macros r left
            preprocessLoop files fuel src outMax st r (ip + (left.length - x.rest.length))
              (emit outMax (out ++ inc) x.out)

/-- `preprocess` -/
def preprocess (files : List UInt8 → Option (List UInt8)) (fuel : Nat) (src : Source) (outMax : Nat)
    (st : Statics) : Option (Statics × Option (List UInt8)) :=
  preprocessLoop files fuel src outMax { st with macros := [] } Region.init 0 []

end RainbowOs.Cc
