import RainbowOs.Basic.Expr
import RainbowOs.Basic.Program
import RainbowOs.Lib.Prog

/-!
# Statements of BASIC

`apps/basic/exec.c` executes the statements of a line one after the other,
and `cmd_run` of `basic.c` the lines of a program. A statement that goes
somewhere else sets the line and the position to go on at, and whoever runs
the line finds them there.

A run logs the statements it executes, where control is transferred, and
what it prints. The keyboard is two streams, of its keys and of the answers
when it is asked whether there is one. Memory that `PEEK` and `POKE` see is
apart from the interpreter's own.
-/

namespace RainbowOs.Basic

open RainbowOs.Lib

/-- An entry of `for_stack`. -/
structure ForEntry where
  var : UInt8
  varIdx : Int
  limit : Int
  step : Int
  line : Option Nat
  pos : Nat
  deriving DecidableEq, Repr

/-- `struct exec_state`; the two stacks are lists, the top first. -/
structure ExecState where
  currentLine : Option Nat
  pos : Nat
  running : Bool
  jumped : Bool
  gosubStack : List (Option Nat × Nat)
  forStack : List ForEntry
  deriving DecidableEq, Repr

/-- `exec_init` -/
def ExecState.init : ExecState := ⟨none, 0, false, false, [], []⟩

/-- The statics of the interpreter, and what it runs on. -/
structure Interp where
  prog : Program
  vars : Vars
  spoolPos : Nat
  exprError : Bool
  rnd : BitVec 32
  exec : ExecState
  hasError : Bool
  errorMsg : List UInt8
  errorLine : Nat
  ram : Bytes
  keys : Nat → Int
  keysRead : Nat
  hasKey : Nat → Bool
  asked : Nat

/-- What a run does that can be seen. `stmt` is a statement that is executed, by the address of
the tokens and its position in them; `jump` a transfer to a line, `pos` the position that is kept;
`gosub` and `ret` are a call, by what it saves, and a return, by the tokens it is in. `loop` is a
loop that is entered, by its variable and the stack of loops it is to be put on. -/
inductive Event where
  | stmt (addr pos : Nat)
  | jump (num : Nat) (line pos : Nat)
  | gosub (addr pos : Nat)
  | ret (addr : Nat)
  | loop (var : UInt8) (varIdx : Int) (stack : List ForEntry)
  | put (s : List UInt8)
  | clear
  deriving DecidableEq, Repr

/-- Why a run ends early: the fuel is used up, or the processor faults. -/
inductive Stuck where
  | stuck
  deriving DecidableEq, Repr

/-- A program of the interpreter. -/
abbrev Exec := Prog Interp Stuck Event

open Prog (get modify tell halt)

/-- A change of `basic_state`. -/
def modifyExec (f : ExecState → ExecState) : Exec Unit := modify fun s => { s with exec := f s.exec }

/-- The position moved. -/
def setPos (f : Nat → Nat) : Exec Unit := modifyExec fun x => { x with pos := f x.pos }

def getPos : Exec Nat := do return (← get).exec.pos

/-- `vga_write` and `vga_putchar` -/
def put (s : List UInt8) : Exec Unit := tell (.put s)

/-- `exec_set_error` -/
def setError (msg : String) : Exec Unit :=
  modify fun s => { s with
    hasError := true
    errorMsg := (ascii msg).take 38
    errorLine := match s.exec.currentLine with
      | some line => s.prog.lineNumber line
      | none => 0
    exec := { s.exec with running := false } }

/-- `keyboard_getchar` -/
def getchar : Exec Int := do
  let s ← get
  modify fun s => { s with keysRead := s.keysRead + 1 }
  return s.keys s.keysRead

/-- `keyboard_has_key` -/
def keyboardHasKey : Exec Bool := do
  let s ← get
  modify fun s => { s with asked := s.asked + 1 }
  return s.hasKey s.asked

/-- `KEY_CTRL('c')` -/
abbrev keyCtrlC : Int := 3

/-- The loop of `read_input_line`: `buf` is what is typed so far. -/
def readInputLine (max : Nat) : (fuel : Nat) → (buf : List UInt8) → Exec (List UInt8)
  | 0, _ => halt .stuck
  | fuel + 1, buf => do
    let c ← getchar
    if c = 10 then
      put [10]
      return buf
    else if c = 8 then
      if buf.length > 0 then
        put [8]
        readInputLine max fuel buf.dropLast
      else readInputLine max fuel buf
    else if c = keyCtrlC then return []
    else if c ≥ 32 ∧ c < 127 ∧ buf.length < max - 1 then
      put [UInt8.ofNat c.toNat]
      readInputLine max fuel (buf ++ [UInt8.ofNat c.toNat])
    else readInputLine max fuel buf

section Statement

variable (t : Tokens) (len : Nat)

/-- `skip_sp` on the position of the state. -/
def skip : Exec Unit := setPos (skipSp t len)

/-- `peek_tok` at the position of the state. -/
def peek : Exec UInt8 := do return peekTok t len (← getPos)

/-- A token that may be left out. -/
def optional (c : UInt8) : Exec Unit := do
  if (← peek t len) = c then setPos (adv · 1)

/-- `expr_eval`, with the error flag cleared before. -/
def evaluate (fuel : Nat) : Exec Value := do
  let s ← get
  match Eval.exprEval t len s.vars s.ram fuel ⟨s.exec.pos, s.spoolPos, false, s.rnd⟩ with
  | none => halt .stuck
  | some (v, e) => do
    modify fun s => { s with
      spoolPos := e.spoolPos
      exprError := e.error
      rnd := e.rnd
      exec := { s.exec with pos := e.pos } }
    return v

/-- An expression, and what to do with its value. -/
def withExpr (fuel : Nat) (k : Value → Exec Unit) : Exec Unit := do
  let v ← evaluate t len fuel
  if (← get).exprError then setError "SYNTAX ERROR" else k v

/-- An expression that has to be a number. -/
def withNum (fuel : Nat) (k : Int → Exec Unit) : Exec Unit :=
  withExpr t len fuel fun
    | .num n => k n
    | .str _ => setError "SYNTAX ERROR"

/-- What `parse_var_target` finds. -/
structure VarTarget where
  name : UInt8
  idx : Int
  isString : Bool
  deriving DecidableEq, Repr

/-- `parse_var_target` -/
def parseVarTarget : Exec (Option VarTarget) := do
  skip t len
  let tok ← peek t len
  if isAlpha tok then
    setPos (adv · 1)
    let c ← peek t len
    if c = 36 then
      setPos (adv · 1)
      return some ⟨toUpper tok, -1, true⟩
    else if isDigit c then
      setPos (adv · 1)
      return some ⟨toUpper tok, c.toNat - 48, false⟩
    else return some ⟨toUpper tok, -1, false⟩
  else return none

/-- A store to a numeric variable, if there is one. -/
def setNum (name : UInt8) (idx n : Int) : Exec Unit :=
  modify fun s => match varNum name idx with
    | some slot => { s with vars := { s.vars with nums := Function.update s.vars.nums slot n } }
    | none => s

/-- A store to a string variable: at most 80 characters. -/
def setStr (name : UInt8) (v : List UInt8) : Exec Unit :=
  modify fun s => match varStr name with
    | some row => { s with
        vars := { s.vars with strs := Function.update s.vars.strs row (cstr (v.take 80)) } }
    | none => s

/-- The loop of `TOK_PRINT`; `newline` is whether the line ends. -/
def printLoop (fuel : Nat) : (rounds : Nat) → (newline : Bool) → Exec Unit
  | 0, _ => halt .stuck
  | rounds + 1, newline => do
    let finish : Exec Unit := if newline then put [10] else pure ()
    let pos ← getPos
    if pos < len ∧ t.tok pos ≠ 58 ∧ t.tok pos ≠ Tok.else_ then
      skip t len
      let pos ← getPos
      if pos ≥ len ∨ t.tok pos = 58 ∨ t.tok pos = Tok.else_ then finish
      else if t.tok pos = 59 then
        setPos (adv · 1)
        printLoop fuel rounds false
      else if t.tok pos = 44 then
        put [9]
        setPos (adv · 1)
        printLoop fuel rounds false
      else
        withExpr t len fuel fun v => do
          put (match v with
            | .num n => i32ToStr n
            | .str s => s)
          printLoop fuel rounds true
    else finish

/-- `TOK_PRINT` -/
def execPrint (fuel : Nat) : Exec Unit := do
  setPos (adv · 1)
  printLoop t len fuel fuel true

/-- The prompt of `TOK_INPUT`. -/
def inputPrompt : Exec Unit := do
  if (← peek t len) = Tok.strLit then
    setPos (adv · 1)
    let pos ← getPos
    let slen := (t.tok pos).toNat
    setPos (adv · 1)
    put ((List.range slen).map fun i => t.tok (adv pos (1 + i)))
    setPos (adv · slen)
    skip t len
    optional t len 59

/-- `TOK_INPUT` -/
def execInput (fuel : Nat) : Exec Unit := do
  setPos (adv · 1)
  skip t len
  inputPrompt t len
  put (ascii "? ")
  match ← parseVarTarget t len with
  | none => setError "SYNTAX ERROR"
  | some v => do
    let ibuf ← readInputLine 80 fuel []
    if v.isString then setStr v.name ibuf else setNum v.name v.idx (strToI32 ibuf)

/-- `do_assignment` -/
def execAssignment (fuel : Nat) : Exec Unit := do
  match ← parseVarTarget t len with
  | none => setError "SYNTAX ERROR"
  | some v => do
    skip t len
    if (← peek t len) ≠ 61 then setError "SYNTAX ERROR"
    else
      setPos (adv · 1)
      withExpr t len fuel fun value => match v.isString, value with
        | true, .str s => setStr v.name s
        | false, .num n => setNum v.name v.idx n
        | _, _ => setError "TYPE MISMATCH"

/-- The transfer of `GOTO`, `GOSUB` and `IF … THEN n` to a line. -/
def jumpTo (target : Int) : Exec Unit := do
  let num := (target % 65536).toNat
  match (← get).prog.findLine num with
  | none => halt .stuck
  | some none => setError "UNDEFINED LINE"
  | some (some line) => do
    tell (.jump num line (← getPos))
    modifyExec fun x => { x with currentLine := some line, jumped := true }

/-- `TOK_GOTO` -/
def execGoto (fuel : Nat) : Exec Unit := do
  setPos (adv · 1)
  withNum t len fuel jumpTo

/-- `TOK_GOSUB` -/
def execGosub (fuel : Nat) : Exec Unit := do
  setPos (adv · 1)
  withNum t len fuel fun n => do
    if (← get).exec.gosubStack.length ≥ 32 then setError "OUT OF MEMORY"
    else
      tell (.gosub t.addr (← getPos))
      modifyExec fun x => { x with gosubStack := (x.currentLine, x.pos) :: x.gosubStack }
      jumpTo n

/-- `TOK_RETURN` -/
def execReturn : Exec Unit := do
  setPos (adv · 1)
  match (← get).exec.gosubStack with
  | [] => setError "RETURN WITHOUT GOSUB"
  | (line, pos) :: stack => do
    tell (.ret t.addr)
    modifyExec fun x => { x with currentLine := line, pos := pos, gosubStack := stack }

/-- A token that has to be there. -/
def expect (c : UInt8) (k : Exec Unit) : Exec Unit := do
  skip t len
  if (← peek t len) ≠ c then setError "SYNTAX ERROR"
  else
    setPos (adv · 1)
    k

/-- `TOK_STEP` with its number, or 1. -/
def withStep (fuel : Nat) (k : Int → Exec Unit) : Exec Unit := do
  skip t len
  if (← peek t len) = Tok.step then
    setPos (adv · 1)
    withNum t len fuel k
  else k 1

/-- The end of `TOK_FOR`: the loop is put on the stack. -/
def enterLoop (v : VarTarget) (limit step : Int) : Exec Unit := do
  let s ← get
  tell (.loop v.name v.idx s.exec.forStack)
  if s.exec.forStack.length ≥ 8 then setError "OUT OF MEMORY"
  else modifyExec fun x => { x with
    forStack := ⟨v.name, v.idx, limit, step, x.currentLine, x.pos⟩ :: x.forStack }

/-- `TOK_FOR` -/
def execFor (fuel : Nat) : Exec Unit := do
  setPos (adv · 1)
  match ← parseVarTarget t len with
  | none => setError "SYNTAX ERROR"
  | some v =>
    if v.isString then setError "SYNTAX ERROR"
    else
      expect t len 61 <| withNum t len fuel fun start =>
      expect t len Tok.to_ <| withNum t len fuel fun limit =>
      withStep t len fuel fun step => do
        setNum v.name v.idx start
        enterLoop v limit step

/-- The variable that may follow `TOK_NEXT`. -/
def nextName : Exec (Option (UInt8 × Int)) := do
  skip t len
  let c ← peek t len
  if isAlpha c then
    setPos (adv · 1)
    let d ← peek t len
    if isDigit d then
      setPos (adv · 1)
      return some (toUpper c, d.toNat - 48)
    else return some (toUpper c, -1)
  else return none

/-- `TOK_NEXT` -/
def execNext : Exec Unit := do
  setPos (adv · 1)
  let name ← nextName t len
  let stack := (← get).exec.forStack
  let loops := match name with
    | none => stack
    | some (var, idx) => stack.dropWhile fun f => f.var ≠ var ∨ f.varIdx ≠ idx
  match loops with
  | [] => setError "NEXT WITHOUT FOR"
  | f :: rest =>
    match varNum f.var f.varIdx with
    | none => setError "SYNTAX ERROR"
    | some slot => do
      let v := i32 ((← get).vars.nums slot + f.step)
      setNum f.var f.varIdx v
      if (if f.step > 0 then v > f.limit else v < f.limit) then
        modifyExec fun x => { x with forStack := rest }
      else
        modifyExec fun x => { x with currentLine := f.line, pos := f.pos, jumped := true }

/-- `TOK_POKE` -/
def execPoke (fuel : Nat) : Exec Unit := do
  setPos (adv · 1)
  withNum t len fuel fun addr => do
    skip t len
    optional t len 44
    withNum t len fuel fun val =>
      modify fun s => { s with
        ram := s.ram.store (addr % 4294967296).toNat [UInt8.ofNat (val % 256).toNat] }

/-- The position of the next `TOK_ELSE`, or the end: the bytes are not read as tokens. -/
def findElse (pos : Nat) : Nat → Nat
  | 0 => pos
  | n + 1 => if t.tok pos = Tok.else_ then pos else findElse (pos + 1) n

/-- A value as the condition of `TOK_IF`. -/
def Value.isTrue : Value → Bool
  | .num n => n ≠ 0
  | .str s => s.length > 0

/-- `TOK_IF` where the condition holds: the number of a line, or a statement. -/
def execThen (statement : Exec Unit) : Exec Unit := do
  skip t len
  if (← peek t len) = Tok.num then
    setPos (adv · 1)
    let target := t.num (← getPos)
    setPos (adv · 4)
    jumpTo target
  else statement

/-- `TOK_IF` where it does not hold. -/
def execElse (statement : Exec Unit) : Exec Unit := do
  setPos fun pos => findElse t pos (len - pos)
  if (← getPos) < len then
    setPos (adv · 1)
    statement

/-- `TOK_IF`, where `statement` executes the statement at the position. -/
def execIf (fuel : Nat) (statement : Exec Unit) : Exec Unit := do
  setPos (adv · 1)
  withExpr t len fuel fun cond => do
    skip t len
    optional t len Tok.then_
    if cond.isTrue then execThen t len statement else execElse t len statement

/-- What is printed where a program is interrupted. -/
def breakText (s : Interp) : List UInt8 :=
  ascii "\nBREAK" ++ (match s.exec.currentLine with
    | some line => ascii " IN " ++ i32ToStr (s.prog.lineNumber line)
    | none => []) ++ [10]

/-- Whether the program is interrupted before a statement. -/
def interrupted : Exec Bool := do
  if (← get).exec.running then
    if ← keyboardHasKey then
      if (← getchar) = keyCtrlC then
        put (breakText (← get))
        modifyExec fun x => { x with running := false }
        return true
      else return false
    else return false
  else return false

/-- The `switch` of `exec_statement`, where `statement` executes the statement at the position. -/
def execSwitch (fuel : Nat) (statement : Exec Unit) (tok : UInt8) : Exec Unit :=
  if tok = Tok.print then execPrint t len fuel
  else if tok = Tok.input then execInput t len fuel
  else if tok = Tok.let_ then do
    setPos (adv · 1)
    execAssignment t len fuel
  else if isAlpha tok then execAssignment t len fuel
  else if tok = Tok.if_ then execIf t len fuel statement
  else if tok = Tok.goto then execGoto t len fuel
  else if tok = Tok.gosub then execGosub t len fuel
  else if tok = Tok.return_ then execReturn t
  else if tok = Tok.for_ then execFor t len fuel
  else if tok = Tok.next then execNext t len
  else if tok = Tok.rem then setPos fun _ => len
  else if tok = Tok.end_ then do
    setPos (adv · 1)
    modifyExec fun x => { x with running := false }
  else if tok = Tok.poke then execPoke t len fuel
  else if tok = Tok.cls then do
    setPos (adv · 1)
    tell .clear
  else if tok = Tok.clr then do
    setPos (adv · 1)
    modify fun s => { s with vars := Vars.clear }
  else setError "SYNTAX ERROR"

/-- `exec_statement` -/
def execStatement : (fuel : Nat) → Exec Unit
  | 0 => halt .stuck
  | fuel + 1 => do
    skip t len
    let pos ← getPos
    if pos ≥ len then pure ()
    else
      let stop ← interrupted
      if stop then pure ()
      else
        tell (.stmt t.addr pos)
        execSwitch t len fuel (execStatement fuel) (t.tok pos)

/-- The loop of `exec_line_at`. -/
def lineLoop (fuel : Nat) : (rounds : Nat) → Exec Unit
  | 0 => halt .stuck
  | rounds + 1 => do
    let s ← get
    if s.exec.pos < len ∧ s.exec.running ∧ ¬s.hasError then
      skip t len
      let pos ← getPos
      if pos ≥ len then pure ()
      else if t.tok pos = 58 then
        setPos (adv · 1)
        lineLoop fuel rounds
      else
        execStatement t len fuel
        if (← get).exec.jumped then pure () else lineLoop fuel rounds

/-- `exec_line_at` -/
def execLineAt (fuel startPos : Nat) : Exec Unit := do
  modify fun s => { s with
    exec := { s.exec with pos := startPos, jumped := false }
    spoolPos := 0 }
  lineLoop t len fuel fuel

end Statement

/-! ## `cmd_run` -/

/-- The tokens of a line of the program. -/
def Program.tokens (p : Program) (line : Nat) : Tokens := ⟨p.buf, line + 3⟩

/-- `data_len` -/
def Program.dataLen (p : Program) (line : Nat) : Nat := (p.lineLength line + 253) % 256

/-- The loop of `cmd_run`. -/
def runLoop (fuel : Nat) : (rounds : Nat) → (resumePos : Nat) → Exec Unit
  | 0, _ => halt .stuck
  | rounds + 1, resumePos => do
    let s ← get
    match s.exec.currentLine with
    | none => pure ()
    | some line =>
      if s.exec.running ∧ ¬s.hasError then
        execLineAt (s.prog.tokens line) (s.prog.dataLen line) fuel resumePos
        let s ← get
        if s.exec.running ∧ ¬s.hasError then
          if s.exec.jumped then runLoop fuel rounds s.exec.pos
          else
            modifyExec fun x => { x with currentLine := x.currentLine.bind s.prog.nextLine }
            runLoop fuel rounds 0
        else runLoop fuel rounds 0

/-- What `cmd_run` prints about an error. -/
def errorText (s : Interp) : List UInt8 :=
  ascii "?" ++ s.errorMsg ++
    (if s.errorLine > 0 then ascii " IN " ++ i32ToStr s.errorLine else []) ++ [10]

/-- `cmd_run` -/
def cmdRun (fuel : Nat) : Exec Unit := do
  modify fun s => { s with
    exec := { ExecState.init with currentLine := s.prog.firstLine, running := true }
    hasError := false
    errorMsg := []
    vars := Vars.clear
    spoolPos := 0 }
  runLoop fuel fuel 0
  let s ← get
  if s.hasError then put (errorText s)

end RainbowOs.Basic
