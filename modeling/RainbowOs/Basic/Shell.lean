import RainbowOs.Basic.Program
import RainbowOs.Basic.Tokenizer
import RainbowOs.Fat12.Persist

/-!
# Entering, saving and loading programs

`apps/basic/basic.c`: what `basic_run` does with a line that has a number,
`cmd_save` and `cmd_load`. A program is saved as text, through a buffer of
4096 bytes, and loaded as if its lines were entered again, at most 158
characters of each. A loop over the lines of the program counts `fuel`, as in
the store; `none` where it does not end.
-/

namespace RainbowOs.Basic

open RainbowOs.Lib RainbowOs.Fat12

/-- `parse_line_number`: the number, 0 if there is none, and what follows it. -/
def parseLineNumber (s : List UInt8) : Nat × List UInt8 :=
  ((s.takeWhile isDigit).foldl (fun num c => (num * 10 + (c.toNat - 48)) % 65536) 0,
    s.dropWhile isDigit)

/-- A text is tokenized and stored as a line, unless it has no tokens. -/
def insertText (p : Program) (num : Nat) (s : List UInt8) : Option Program :=
  let tokens := tokenize 120 s
  if tokens.length > 0 then p.insertLine num tokens else some p

/-- `basic_run`, of an input line with a number. -/
def enterLine (p : Program) (input : List UInt8) : Option Program :=
  let (num, s) := parseLineNumber input
  if num > 0 then
    let s := s.dropWhile (· = 32)
    if s = [] then p.deleteLine num else insertText p num s
  else some p

/-- A text before its terminating zero. -/
def cText (s : List UInt8) : List UInt8 := s.takeWhile (· ≠ 0)

/-- What `cmd_save` puts into the buffer for a line. -/
def saveLine (p : Program) (line : Nat) : List UInt8 :=
  let len := (p.lineLength line + 253) % 256
  i32ToStr (p.lineNumber line) ++
    32 :: (cText (detokenize 160 (p.buf.slice (line + 3) len)) ++ [10])

/-- The range of `cmd_list`: without arguments up to 9999. -/
def listRange (args : List UInt8) : Nat × Nat :=
  let args := args.dropWhile (· = 32)
  let (from_, rest) := parseLineNumber args
  if isDigit (args.headD 0) then
    match rest with
    | 45 :: rest =>
      let (to_, _) := parseLineNumber rest
      (from_, if isDigit (rest.headD 0) then to_ else 9999)
    | _ => (from_, from_)
  else (0, 9999)

/-- The loop of `cmd_list`, from a line on, with what is printed: a line is printed as it is saved. -/
def listFrom (p : Program) (range : Nat × Nat) :
    (fuel : Nat) → Option Nat → List UInt8 → Option (List UInt8)
  | 0, _, _ => none
  | _ + 1, none, out => some out
  | fuel + 1, some line, out =>
    listFrom p range fuel (p.nextLine line)
      (if range.1 ≤ p.lineNumber line ∧ p.lineNumber line ≤ range.2 then out ++ saveLine p line else out)

/-- `cmd_list` -/
def cmdList (p : Program) (args : List UInt8) : Option (List UInt8) :=
  listFrom p (listRange args) (p.progEnd + 2) p.firstLine []

/-- The loop of `cmd_save`, from a line on, with what is in the buffer. -/
def saveFrom (p : Program) : (fuel : Nat) → Option Nat → List UInt8 → Option (List UInt8)
  | 0, _, _ => none
  | _ + 1, none, out => some out
  | fuel + 1, some line, out =>
    if out.length < 4096 - 170 then saveFrom p fuel (p.nextLine line) (out ++ saveLine p line)
    else some out

/-- One line of a file. -/
def loadLine (p : Program) (line : List UInt8) : Option Program :=
  if line = [] then some p
  else
    let (num, s) := parseLineNumber (cText line)
    if num = 0 then some p else insertText p num (s.dropWhile (· = 32))

/-- The loop of `cmd_load`, with what is left of the file. -/
def loadFrom : (fuel : Nat) → List UInt8 → Program → Option Program
  | _, [], p => some p
  | 0, _ :: _, _ => none
  | fuel + 1, c :: s, p =>
    let line := ((c :: s).takeWhile (· ≠ 10)).take 158
    let rest := (c :: s).drop line.length
    (loadLine p line).bind (loadFrom fuel (if rest.head? = some 10 then rest.tail else rest))

/-- What the commands print. -/
inductive Message where
  | missingFilename
  | saveError
  | fileNotFound
  | ok
  deriving DecidableEq, Repr

/-- `cmd_save` -/
def cmdSave (p : Program) (filename : CString) : Disk Message := do
  if filename.val = [] then return .missingFilename
  else match saveFrom p (p.progEnd + 2) p.firstLine [] with
    | none => Prog.halt .hang
    | some data => if (← diskfsWriteFile filename data) = 0 then return .ok else return .saveError

/-- `cmd_load` -/
def cmdLoad (p : Program) (filename : CString) : Disk (Message × Program) := do
  if filename.val = [] then return (.missingFilename, p)
  else match ← onVol (fat12ReadFile (← Prog.get).bpb filename 4096) with
    | none => return (.fileNotFound, p)
    | some bytes => match loadFrom bytes.length bytes p.init with
      | none => Prog.halt .hang
      | some p => return (.ok, p)

end RainbowOs.Basic
