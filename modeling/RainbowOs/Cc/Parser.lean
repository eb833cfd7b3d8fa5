import RainbowOs.Cc.Codegen
import RainbowOs.Lib.Prog

/-!
# The parser of the C compiler

`kernel/cc/parser.c`, function by function: one pass over the tokens that
calls the code generator as it goes. The calls it makes are its log, in
order; with them goes a ghost event at each place where the source refers
to a variable, one where a loop label is read outside its table, one for
each name that is copied and one for each name that is declared.

The expression functions take the parser of the operands they are built
from, so only the recursions of the grammar itself (`parse_unary_expr`,
`parse_assign_expr`, `parse_statement`) count `fuel`; each loop counts it
too. Two things stop a run: the fuel, and a name that overruns the array
it is copied to.
-/

namespace RainbowOs.Cc

open RainbowOs.Lib

/-- What stops the parser. -/
inductive Stop where
  | fuel
  | nameOverflow
  deriving DecidableEq, Repr

/-- How the source refers to a variable. -/
inductive Use where
  | load
  | store
  | address
  | element
  | addressOf
  deriving DecidableEq, Repr

/-- A declaration: the name, the symbol it is given, and the tables before and after. -/
structure Declaration where
  name : List UInt8
  kind : SymKind
  before : Symbols
  sym : SymRef
  after : Symbols
  deriving DecidableEq, Repr

/-- What the parser logs. -/
inductive Event where
  | emit (call : CgCall)
  | refer (s : SymRef) (use : Use)
  | outside (index : Nat)
  | copy (name : List UInt8)
  | declare (d : Declaration)
  deriving DecidableEq, Repr

/-- The statics of the compiler. `hadError` is the first error, with its line. -/
structure Compiler where
  lex : Lexer
  syms : Symbols
  cg : Codegen
  hadError : Option (String × Nat)
  loopDepth : Nat
  breakLabels : Nat → Int
  continueLabels : Nat → Int

/-- The statics at boot: zeros, and the symbol that zeros are. -/
def Compiler.boot : Compiler where
  lex := ⟨⟨[], 0⟩, none⟩
  syms := ⟨[], [], 0, ⟨[], .globalVar, .int, 0, 0, false⟩⟩
  cg := ⟨[], [], fun _ => 0, 0, [], [], 0, 0⟩
  hadError := none
  loopDepth := 0
  breakLabels _ := 0
  continueLabels _ := 0

/-- `sym_init`, `cg_init` and `lex_init`, as `cc_compile` calls them. -/
def Compiler.init (s : Compiler) (source : List UInt8) : Compiler :=
  { s with lex := lexInit source, syms := s.syms.init, cg := s.cg.init }

/-- A parsing function. -/
abbrev Parse (α : Type) := Prog Compiler Stop Event α

abbrev maxLoopDepth : Nat := 16

/-! ## The statics -/

def lexNext : Parse Tok := do
  let s ← Prog.get
  Prog.modify fun s => { s with lex := s.lex.next.2 }
  return s.lex.next.1

def lexPeek : Parse Tok := do
  let s ← Prog.get
  Prog.modify fun s => { s with lex := s.lex.peek.2 }
  return s.lex.peek.1

/-- A call of the code generator. -/
def cg (call : CgCall) : Parse Unit := do
  Prog.tell (.emit call)
  Prog.modify fun s => { s with cg := call.run s.cg }

def cgNewLabel : Parse Int := do
  let s ← Prog.get
  cg .newLabel
  return s.cg.freshLabel

def cgAddString (str : List UInt8) : Parse Int := do
  let s ← Prog.get
  cg (.addString str)
  return s.cg.stringPos

def cgAllocGlobal (bytes : Int) : Parse Int := do
  let s ← Prog.get
  cg (.allocGlobal bytes)
  return s.cg.globalDataOffset

/-- A store to a field of a symbol. -/
def setSym (r : SymRef) (f : Symbol → Symbol) : Parse Unit :=
  Prog.modify fun s => { s with syms := s.syms.modify f r }

/-- `cg_func_begin` -/
def cgFuncBegin (fn : SymRef) : Parse Unit := do
  let s ← Prog.get
  setSym fn fun f => { f with offset := s.cg.codePos }
  cg (.funcBegin fn)

def symFind (name : List UInt8) : Parse SymRef := do return (← Prog.get).syms.find name

def symFindGlobal (name : List UInt8) : Parse SymRef := do return (← Prog.get).syms.findGlobal name

/-- The symbol a pointer points to, as it is now. -/
def symAt (r : SymRef) : Parse Symbol := do return (← Prog.get).syms.deref r

/-- The ghost event of a declaration. -/
def tellDeclared (d : Declaration) : Parse Unit := Prog.tell (.declare d)

def symAddGlobal (name : List UInt8) (kind : SymKind) (dt : DataType) : Parse SymRef := do
  let s ← Prog.get
  tellDeclared ⟨name, kind, s.syms, (s.syms.addGlobal name kind dt).1, (s.syms.addGlobal name kind dt).2⟩
  Prog.modify fun s => { s with syms := (s.syms.addGlobal name kind dt).2 }
  return (s.syms.addGlobal name kind dt).1

def symAddLocal (name : List UInt8) (kind : SymKind) (dt : DataType) : Parse SymRef := do
  let s ← Prog.get
  tellDeclared ⟨name, kind, s.syms, (s.syms.addLocal name kind dt).1, (s.syms.addLocal name kind dt).2⟩
  Prog.modify fun s => { s with syms := (s.syms.addLocal name kind dt).2 }
  return (s.syms.addLocal name kind dt).1

/-- The ghost event of a reference. -/
def refer (s : SymRef) (use : Use) : Parse Unit := Prog.tell (.refer s use)

/-- A function that has a symbol keeps it. -/
def symKept (name : List UInt8) (found : SymRef) : Parse SymRef := do
  let s ← Prog.get
  tellDeclared ⟨name, .function, s.syms, found, s.syms⟩
  return found

/-- `strcpy` to an array of `SYM_NAME_MAX + 1` characters. -/
def copyName (name : List UInt8) : Parse (List UInt8) := do
  Prog.tell (.copy name)
  if name.length ≤ symNameMax then return name else Prog.halt .nameOverflow

/-- `s->kind == SYM_LOCAL_VAR || s->kind == SYM_PARAM` -/
def Symbol.onStack (s : Symbol) : Bool := s.kind = .localVar || s.kind = .param

/-! ## Errors and types -/

/-- `error` -/
def error (msg : String) : Parse Unit := Prog.modify fun s =>
  match s.hadError with
  | some _ => s
  | none => { s with hadError := some (msg, s.lex.line) }

/-- The message of `expect`. -/
def expectMsg : Tok → String
  | .semi => "expected ';'"
  | .rparen => "expected ')'"
  | .rbrace => "expected '\x7d'"
  | .lbrace => "expected '\x7b'"
  | _ => "unexpected token"

/-- `expect` -/
def expect (tok : Tok) : Parse Unit := do
  let t ← lexNext
  if t ≠ tok then error (expectMsg tok)

/-- `is_type` -/
def isType (tok : Tok) : Bool := tok = .int || tok = .char || tok = .void

/-- The `*` of `parse_type`, after a type. -/
def parsePointer (dt : DataType) : Parse DataType := do
  if (← lexPeek) = .star then
    let _ ← lexNext
    match dt with
    | .int => return .ptrInt
    | .char => return .ptrChar
    | dt => return dt
  else return dt

/-- `parse_type` -/
def parseType : Parse DataType := do
  match ← lexNext with
  | .int => parsePointer .int
  | .char => parsePointer .char
  | .void => parsePointer .void
  | _ =>
    error "expected type"
    return .int

/-- The loops of the parser: `body` while the next token is one of `more`. -/
def whilePeek (more : Tok → Bool) (body : Parse Unit) : (fuel : Nat) → Parse Unit
  | 0 => Prog.halt .fuel
  | fuel + 1 => do
    if more (← lexPeek) then
      body
      whilePeek more body fuel
    else return ()

/-! ## Calls -/

/-- `builtin_syscall_index`, -1 as `none`. -/
def builtinSyscallIndex (name : List UInt8) : Option Nat :=
  if name = "putchar".toList.map chr then some 0
  else if name = "getchar".toList.map chr then some 1
  else if name = "puts".toList.map chr then some 2
  else if name = "exit".toList.map chr then some 3
  else if name = "peek".toList.map chr then some 4
  else if name = "poke".toList.map chr then some 5
  else if name = "memset".toList.map chr then some 6
  else if name = "printf".toList.map chr then some 7
  else none

/-- `emit_builtin_call` -/
def emitBuiltinCall (sysIdx argc : Nat) : Parse Unit := do
  if argc ≥ 2 then cg (.reverseStack argc)
  cg (.callSyscall sysIdx)
  if argc > 0 then cg (.addEsp (argc * 4))

/-- The arguments after the first one; `argc` is how many have been pushed. -/
def parseMoreArgs (assign : Parse Unit) : (fuel argc : Nat) → Parse Nat
  | 0, _ => Prog.halt .fuel
  | fuel + 1, argc => do
    if (← lexPeek) = .comma then
      let _ ← lexNext
      assign
      cg .push
      parseMoreArgs assign fuel (argc + 1)
    else return argc

/-- The arguments of a call, which are pushed from left to right. -/
def parseArgs (assign : Parse Unit) (fuel : Nat) : Parse Nat := do
  if (← lexPeek) ≠ .rparen then
    assign
    cg .push
    parseMoreArgs assign fuel 1
  else return 0

/-- A call, from its opening parenthesis on: the same code in `parse_primary_expr` and in
`parse_assign_expr`. -/
def parseCall (assign : Parse Unit) (fuel : Nat) (name : List UInt8) : Parse Unit := do
  let _ ← lexNext
  let argc ← parseArgs assign fuel
  expect .rparen
  match builtinSyscallIndex name with
  | some sysIdx => emitBuiltinCall sysIdx argc
  | none =>
    let found ← symFindGlobal name
    let fn ← if found = .null then symAddGlobal name .function .int else pure found
    cg (.callSymbol fn)
    if argc > 0 then cg (.addEsp (argc * 4))

/-! ## Expressions: the result in EAX -/

/-- The address of a variable: relative to EBP, or its offset in the data section. -/
def loadAddress (s : Symbol) : Parse Unit :=
  if s.onStack then cg (.leaLocal s.offset) else cg (.loadNum s.offset)

/-- The value of a scalar. -/
def loadScalar (s : Symbol) : Parse Unit :=
  if s.onStack then cg (.loadLocal s.offset) else cg (.loadGlobal s.offset)

/-- A store to a scalar. -/
def storeScalar (s : Symbol) : Parse Unit :=
  if s.onStack then cg (.storeLocal s.offset) else cg (.storeGlobal s.offset)

/-- The load of a variable: an array is its address. -/
def loadVariable (r : SymRef) (s : Symbol) : Parse Unit :=
  if s.size > 0 then do
    refer r .address
    loadAddress s
  else do
    refer r .load
    loadScalar s

/-- `esize == 4` scales an index. -/
def scaleIndex (s : Symbol) : Parse Unit := if s.dataType.size = 4 then cg (.shlImm 2) else return ()

/-- The width of an element is that of `char` or that of `int`. -/
def derefElement (s : Symbol) : Parse Unit :=
  if s.dataType = .char then cg .derefByte else cg .derefDword

/-- An element of an array, from its opening bracket on, as `parse_primary_expr` reads it. -/
def parseElement (expr : Parse Unit) (name : List UInt8) : Parse Unit := do
  let r ← symFind name
  if r = .null then
    error "undeclared variable"
    cg (.loadNum 0)
  else
    refer r .element
    loadAddress (← symAt r)
    cg .push
    let _ ← lexNext
    expr
    scaleIndex (← symAt r)
    cg .popIntoEcx
    cg .add
    derefElement (← symAt r)
    expect .rbracket

/-- `parse_primary_expr` -/
def parsePrimaryExpr (assign unary : Parse Unit) (fuel : Nat) : Parse Unit := do
  match ← lexPeek with
  | .numLit n | .charLit n =>
    let _ ← lexNext
    cg (.loadNum n)
  | .strLit str =>
    let _ ← lexNext
    cg (.loadNum (← cgAddString str))
  | .ident str =>
    let _ ← lexNext
    let name ← copyName str
    match ← lexPeek with
    | .lparen => parseCall assign fuel name
    | .lbracket => parseElement assign name
    | _ =>
      let r ← symFind name
      if r = .null then
        error "undeclared variable"
        cg (.loadNum 0)
      else loadVariable r (← symAt r)
  | .lparen =>
    let _ ← lexNext
    if isType (← lexPeek) then
      let _ ← lexNext
      whilePeek (· = .star) (do let _ ← lexNext) fuel
      expect .rparen
      unary
    else
      assign
      expect .rparen
  | _ =>
    error "expected expression"
    let _ ← lexNext
    cg (.loadNum 0)

/-- `parse_postfix_expr`: the operators are consumed and no code is emitted. -/
def parsePostfixExpr (assign unary : Parse Unit) (fuel : Nat) : Parse Unit := do
  parsePrimaryExpr assign unary fuel
  whilePeek (fun t => t = .inc || t = .dec) (do let _ ← lexNext) fuel

/-- A unary operator: the operand, then what is done to it. -/
def unaryOp (unary : Parse Unit) (call : CgCall) : Parse Unit := do
  let _ ← lexNext
  unary
  cg call

/-- The `&` of `parse_unary_expr`. -/
def parseAddressOf : Parse Unit := do
  let _ ← lexNext
  match ← lexPeek with
  | .ident str =>
    let _ ← lexNext
    let r ← symFind str
    if r = .null then
      error "undeclared variable"
      cg (.loadNum 0)
    else
      refer r .addressOf
      loadAddress (← symAt r)
  | _ =>
    error "expected identifier after &"
    cg (.loadNum 0)

/-- `parse_unary_expr` -/
def parseUnaryExpr (assign : Parse Unit) (loops : Nat) : (fuel : Nat) → Parse Unit
  | 0 => Prog.halt .fuel
  | fuel + 1 => do
    match ← lexPeek with
    | .minus => unaryOp (parseUnaryExpr assign loops fuel) .negate
    | .bang => unaryOp (parseUnaryExpr assign loops fuel) .logicalNot
    | .tilde => unaryOp (parseUnaryExpr assign loops fuel) .bitwiseNot
    | .star => unaryOp (parseUnaryExpr assign loops fuel) .derefDword
    | .amp => parseAddressOf
    | _ => parsePostfixExpr assign (parseUnaryExpr assign loops fuel) loops

/-- One step of a level: the left operand is pushed, the right one parsed, and the
operator applied to ECX and EAX. -/
def binary (operand : Parse Unit) (call : Tok → CgCall) : Parse Unit := do
  let op ← lexNext
  cg .push
  operand
  cg .popIntoEcx
  cg (call op)

/-- A level of the grammar: operands joined by its operators, to the left. -/
def level (isOp : Tok → Bool) (call : Tok → CgCall) (operand : Parse Unit) (fuel : Nat) : Parse Unit := do
  operand
  whilePeek isOp (binary operand call) fuel

def isMulOp (t : Tok) : Bool := t = .star || t = .slash || t = .percent

def mulCall (op : Tok) : CgCall :=
  if op = .star then .mul else if op = .slash then .div else .mod

def isAddOp (t : Tok) : Bool := t = .plus || t = .minus

def addCall (op : Tok) : CgCall := if op = .plus then .add else .sub

def isShiftOp (t : Tok) : Bool := t = .shl || t = .shr

def shiftCall (op : Tok) : CgCall := if op = .shl then .shl else .shr

def isRelOp (t : Tok) : Bool := t = .lt || t = .gt || t = .le || t = .ge

def isEqOp (t : Tok) : Bool := t = .eq || t = .ne

section Levels

variable (unary : Parse Unit) (fuel : Nat)

/-- `parse_mul_expr` -/
def parseMulExpr : Parse Unit := level isMulOp mulCall unary fuel

/-- `parse_add_expr` -/
def parseAddExpr : Parse Unit := level isAddOp addCall (parseMulExpr unary fuel) fuel

/-- `parse_shift_expr` -/
def parseShiftExpr : Parse Unit := level isShiftOp shiftCall (parseAddExpr unary fuel) fuel

/-- `parse_rel_expr` -/
def parseRelExpr : Parse Unit := level isRelOp .cmp (parseShiftExpr unary fuel) fuel

/-- `parse_eq_expr` -/
def parseEqExpr : Parse Unit := level isEqOp .cmp (parseRelExpr unary fuel) fuel

/-- `parse_bitand_expr` -/
def parseBitandExpr : Parse Unit := level (· = .amp) (fun _ => .bitand) (parseEqExpr unary fuel) fuel

/-- `parse_bitxor_expr` -/
def parseBitxorExpr : Parse Unit :=
  level (· = .caret) (fun _ => .bitxor) (parseBitandExpr unary fuel) fuel

/-- `parse_bitor_expr` -/
def parseBitorExpr : Parse Unit :=
  level (· = .pipe) (fun _ => .bitor) (parseBitxorExpr unary fuel) fuel

/-- One `&&`: 0 as soon as an operand is. -/
def andStep : Parse Unit := do
  let _ ← lexNext
  let lbl ← cgNewLabel
  cg (.jumpZero lbl)
  parseBitorExpr unary fuel
  cg (.jumpZero lbl)
  cg (.loadNum 1)
  let last ← cgNewLabel
  cg (.jump last)
  cg (.label lbl)
  cg (.loadNum 0)
  cg (.label last)

/-- `parse_and_expr` -/
def parseAndExpr : Parse Unit := do
  parseBitorExpr unary fuel
  whilePeek (· = .and) (andStep unary fuel) fuel

/-- One `||`: 1 as soon as an operand is not 0. -/
def orStep : Parse Unit := do
  let _ ← lexNext
  let lblTrue ← cgNewLabel
  cg (.jumpNonzero lblTrue)
  parseAndExpr unary fuel
  cg (.jumpNonzero lblTrue)
  cg (.loadNum 0)
  let last ← cgNewLabel
  cg (.jump last)
  cg (.label lblTrue)
  cg (.loadNum 1)
  cg (.label last)

/-- `parse_or_expr` -/
def parseOrExpr : Parse Unit := do
  parseAndExpr unary fuel
  whilePeek (· = .or) (orStep unary fuel) fuel

/-- The binary operators of `continue_binops`. -/
def isBinop (t : Tok) : Bool :=
  isAddOp t || isMulOp t || isEqOp t || isRelOp t || t = .and || t = .or || t = .amp || t = .pipe ||
    t = .caret || isShiftOp t

/-- One round of `continue_binops`: what is parsed as the right operand depends on the
operator. -/
def binopStep : Parse Unit := do
  let pk ← lexPeek
  if isAddOp pk then binary (parseMulExpr unary fuel) addCall
  else if isMulOp pk then binary unary mulCall
  else if isEqOp pk || isRelOp pk then binary (parseAddExpr unary fuel) .cmp
  else if pk = .and then andStep unary fuel
  else if pk = .or then orStep unary fuel
  else if pk = .amp then binary (parseEqExpr unary fuel) fun _ => .bitand
  else if pk = .pipe then binary (parseEqExpr unary fuel) fun _ => .bitor
  else if pk = .caret then binary (parseEqExpr unary fuel) fun _ => .bitxor
  else binary (parseAddExpr unary fuel) shiftCall

/-- `continue_binops` -/
def continueBinops : Parse Unit := whilePeek isBinop (binopStep unary fuel) fuel

end Levels

/-! ## Assignments -/

def isCompound (t : Tok) : Bool := t = .plusEq || t = .minusEq || t = .starEq || t = .slashEq

def compoundCall (op : Tok) : CgCall :=
  if op = .plusEq then .add else if op = .minusEq then .sub else if op = .starEq then .mul else .div

/-- `ident = expr` -/
def parseSimpleAssign (assign : Parse Unit) (name : List UInt8) : Parse Unit := do
  let _ ← lexNext
  assign
  let r ← symFind name
  if r = .null then error "undeclared variable"
  else
    refer r .store
    storeScalar (← symAt r)

/-- `ident op= expr` -/
def parseCompoundAssign (assign : Parse Unit) (name : List UInt8) : Parse Unit := do
  let op ← lexNext
  let r ← symFind name
  if r = .null then error "undeclared variable"
  else
    refer r .load
    loadScalar (← symAt r)
    cg .push
    assign
    cg .popIntoEcx
    cg (compoundCall op)
    refer r .store
    storeScalar (← symAt r)

/-- `ident[expr] = expr`, and `ident[expr]` where no assignment follows. -/
def parseElementAssign (assign : Parse Unit) (name : List UInt8) : Parse Unit := do
  let r ← symFind name
  if r = .null then error "undeclared variable"
  else
    let _ ← lexNext
    refer r .element
    loadAddress (← symAt r)
    cg .push
    assign
    scaleIndex (← symAt r)
    cg .popIntoEcx
    cg .add
    cg .push
    expect .rbracket
    if (← lexPeek) = .assign then
      let _ ← lexNext
      -- the address is pushed a second time
      cg .push
      assign
      cg .popIntoEcx
      if (← symAt r).dataType = .char then cg .storeDerefByte else cg .storeDerefDword
    else
      -- two dwords are popped and one was pushed
      cg .popIntoEcx
      cg .popToEax
      derefElement (← symAt r)

/-- The load of a variable in `parse_assign_expr`, which knows functions. -/
def loadNamed (name : List UInt8) : Parse Unit := do
  let r ← symFind name
  if r = .null then
    error "undeclared variable"
    cg (.loadNum 0)
  else
    let s ← symAt r
    if s.kind = .function then cg (.loadNum s.offset) else loadVariable r s

/-- `parse_assign_expr` -/
def parseAssignExpr (loops : Nat) : (fuel : Nat) → Parse Unit
  | 0 => Prog.halt .fuel
  | fuel + 1 => do
    let assign := parseAssignExpr loops fuel
    let unary := parseUnaryExpr assign loops loops
    match ← lexPeek with
    | .ident str =>
      let _ ← lexNext
      let name ← copyName str
      let next ← lexPeek
      if next = .assign then parseSimpleAssign assign name
      else if isCompound next then parseCompoundAssign assign name
      else if next = .lbracket then parseElementAssign assign name
      else
        if next = .lparen then parseCall assign loops name else loadNamed name
        continueBinops unary loops
    | .star =>
      let _ ← lexNext
      unary
      if (← lexPeek) = .assign then
        let _ ← lexNext
        cg .push
        assign
        cg .popIntoEcx
        cg .storeDerefDword
      else
        cg .derefDword
        continueBinops unary loops
    | _ => parseOrExpr unary loops

/-- `parse_expr` -/
def parseExpr (fuel : Nat) : Parse Unit := parseAssignExpr fuel fuel

/-! ## Statements -/

/-- The labels of the innermost loop, where there is room for them. -/
def enterLoop (breakLabel continueLabel : Int) : Parse Unit := Prog.modify fun s =>
  if s.loopDepth < maxLoopDepth then
    { s with
      breakLabels := Function.update s.breakLabels s.loopDepth breakLabel
      continueLabels := Function.update s.continueLabels s.loopDepth continueLabel
      loopDepth := s.loopDepth + 1 }
  else { s with loopDepth := s.loopDepth + 1 }

def leaveLoop : Parse Unit := Prog.modify fun s => { s with loopDepth := s.loopDepth - 1 }

section Statements

variable (expr stmt : Parse Unit) (fuel : Nat)

/-- `parse_if` -/
def parseIf : Parse Unit := do
  expect .lparen
  expr
  expect .rparen
  let elseLabel ← cgNewLabel
  cg (.jumpZero elseLabel)
  stmt
  if (← lexPeek) = .elseTok then
    let _ ← lexNext
    let endLabel ← cgNewLabel
    cg (.jump endLabel)
    cg (.label elseLabel)
    stmt
    cg (.label endLabel)
  else cg (.label elseLabel)

/-- `parse_while` -/
def parseWhile : Parse Unit := do
  let top ← cgNewLabel
  let last ← cgNewLabel
  enterLoop last top
  cg (.label top)
  expect .lparen
  expr
  expect .rparen
  cg (.jumpZero last)
  stmt
  cg (.jump top)
  cg (.label last)
  leaveLoop

/-- `parse_for` -/
def parseFor : Parse Unit := do
  expect .lparen
  if (← lexPeek) ≠ .semi then expr
  expect .semi
  let top ← cgNewLabel
  let last ← cgNewLabel
  let stepLabel ← cgNewLabel
  enterLoop last stepLabel
  cg (.label top)
  if (← lexPeek) ≠ .semi then expr else cg (.loadNum 1)
  expect .semi
  cg (.jumpZero last)
  let bodyLabel ← cgNewLabel
  cg (.jump bodyLabel)
  cg (.label stepLabel)
  if (← lexPeek) ≠ .rparen then expr
  expect .rparen
  cg (.jump top)
  cg (.label bodyLabel)
  stmt
  cg (.jump stepLabel)
  cg (.label last)
  leaveLoop

/-- `parse_do_while` -/
def parseDoWhile : Parse Unit := do
  let top ← cgNewLabel
  let last ← cgNewLabel
  let cont ← cgNewLabel
  enterLoop last cont
  cg (.label top)
  stmt
  cg (.label cont)
  expect .whileTok
  expect .lparen
  expr
  expect .rparen
  expect .semi
  cg (.jumpNonzero top)
  cg (.label last)
  leaveLoop

/-- `parse_return` -/
def parseReturn : Parse Unit := do
  if (← lexPeek) ≠ .semi then expr
  expect .semi
  cg .ret

/-- The declarator of a local after its name: an array size, an initial value, or nothing.
`false` ends the declaration at an error. -/
def parseLocalInit (r : SymRef) : Parse Bool := do
  match ← lexPeek with
  | .lbracket =>
    let _ ← lexNext
    match ← lexPeek with
    | .numLit n =>
      let _ ← lexNext
      setSym r fun s => { s with size := n }
      expect .rbracket
      return true
    | _ =>
      error "expected array size"
      return false
  | .assign =>
    let _ ← lexNext
    expr
    refer r .store
    cg (.storeLocal (← symAt r).offset)
    return true
  | _ => return true

/-- `parse_local_decl` -/
def parseLocalDecl (dt : DataType) : (fuel : Nat) → Parse Unit
  | 0 => Prog.halt .fuel
  | fuel + 1 => do
    match ← lexPeek with
    | .ident str =>
      let _ ← lexNext
      let name ← copyName str
      let r ← symAddLocal name .localVar dt
      if r = .null then error "too many local variables"
      else if ← parseLocalInit expr r then
        if (← lexPeek) = .comma then
          let _ ← lexNext
          parseLocalDecl dt fuel
        else expect .semi
      else return ()
    | _ => error "expected identifier"

/-- The statements of a block. -/
def parseStatements : (fuel : Nat) → Parse Unit
  | 0 => Prog.halt .fuel
  | fuel + 1 => do
    let tok ← lexPeek
    if tok ≠ .rbrace ∧ tok ≠ .eof ∧ (← Prog.get).hadError = none then
      stmt
      parseStatements fuel
    else return ()

/-- `parse_block` -/
def parseBlock : Parse Unit := do
  expect .lbrace
  parseStatements stmt fuel
  expect .rbrace

/-- A jump out of the innermost loop or to its next round. -/
def parseLoopJump (labels : Compiler → Nat → Int) (msg : String) : Parse Unit := do
  let _ ← lexNext
  expect .semi
  let s ← Prog.get
  if s.loopDepth > 0 then
    if s.loopDepth > maxLoopDepth then Prog.tell (.outside (s.loopDepth - 1))
    cg (.jump (labels s (s.loopDepth - 1)))
  else error msg

/-- `parse_statement`, where nothing has gone wrong yet. -/
def parseStatementBody : Parse Unit := do
  let tok ← lexPeek
  match tok with
  | .lbrace => parseBlock stmt fuel
  | .ifTok =>
    let _ ← lexNext
    parseIf expr stmt
  | .whileTok =>
    let _ ← lexNext
    parseWhile expr stmt
  | .forTok =>
    let _ ← lexNext
    parseFor expr stmt
  | .doTok =>
    let _ ← lexNext
    parseDoWhile expr stmt
  | .returnTok =>
    let _ ← lexNext
    parseReturn expr
  | .breakTok => parseLoopJump Compiler.breakLabels "break outside loop"
  | .continueTok => parseLoopJump Compiler.continueLabels "continue outside loop"
  | .semi =>
    let _ ← lexNext
  | _ =>
    if isType tok then parseLocalDecl expr (← parseType) fuel
    else
      expr
      expect .semi

end Statements

/-- `parse_statement` -/
def parseStatement (loops : Nat) : (fuel : Nat) → Parse Unit
  | 0 => Prog.halt .fuel
  | fuel + 1 => do
    if (← Prog.get).hadError = none then
      parseStatementBody (parseExpr loops) (parseStatement loops fuel) loops
    else return ()

/-! ## Declarations -/

/-- The parameters of a function. -/
def parseParams : (fuel : Nat) → Parse Unit
  | 0 => Prog.halt .fuel
  | fuel + 1 => do
    let pt ← parseType
    match ← lexPeek with
    | .ident str =>
      let _ ← lexNext
      let _ ← symAddLocal str .param pt
      if (← lexPeek) = .comma then
        let _ ← lexNext
        parseParams fuel
      else return ()
    | _ => error "expected parameter name"

/-- `parse_function` -/
def parseFunction (fuel : Nat) (name : List UInt8) (retType : DataType) : Parse Unit := do
  let found ← symFindGlobal name
  let fn ← if found = .null then symAddGlobal name .function retType else symKept name found
  setSym fn fun f => { f with defined := true }
  Prog.modify fun s => { s with syms := s.syms.beginLocals }
  if (← lexPeek) ≠ .rparen then parseParams fuel
  expect .rparen
  cgFuncBegin fn
  parseBlock (parseStatement fuel fuel) fuel
  cg .funcEnd

/-- The array size of a global. -/
def parseGlobalSize (r : SymRef) : Parse Unit := do
  if (← lexPeek) = .lbracket then
    let _ ← lexNext
    match ← lexPeek with
    | .numLit n =>
      let _ ← lexNext
      setSym r fun s => { s with size := n }
    | _ => pure ()
    expect .rbracket

/-- The further names of a global declaration. -/
def parseMoreGlobals (dt : DataType) : (fuel : Nat) → Parse Unit
  | 0 => Prog.halt .fuel
  | fuel + 1 => do
    if (← lexPeek) = .comma then
      let _ ← lexNext
      match ← lexPeek with
      | .ident str =>
        let _ ← lexNext
        let r ← symAddGlobal str .globalVar dt
        if r ≠ .null then
          let offset ← cgAllocGlobal dt.size
          setSym r fun s => { s with offset }
        parseMoreGlobals dt fuel
      | _ => error "expected identifier"
    else expect .semi

/-- The bytes of a global. -/
def Symbol.bytes (s : Symbol) (dt : DataType) : Int :=
  if s.size > 0 then wrap32 (s.size * dt.size) else dt.size

/-- `parse_global_var` -/
def parseGlobalVar (fuel : Nat) (name : List UInt8) (dt : DataType) : Parse Unit := do
  let r ← symAddGlobal name .globalVar dt
  if r = .null then error "too many globals"
  else
    parseGlobalSize r
    let offset ← cgAllocGlobal ((← symAt r).bytes dt)
    setSym r fun s => { s with offset }
    parseMoreGlobals dt fuel

/-- The declarations of `parse_program`. -/
def parseDeclarations (loops : Nat) : (fuel : Nat) → Parse Unit
  | 0 => Prog.halt .fuel
  | fuel + 1 => do
    if (← lexPeek) ≠ .eof ∧ (← Prog.get).hadError = none then
      let dt ← parseType
      match ← lexPeek with
      | .ident str =>
        let _ ← lexNext
        let name ← copyName str
        if (← lexPeek) = .lparen then
          let _ ← lexNext
          parseFunction loops name dt
        else parseGlobalVar loops name dt
        parseDeclarations loops fuel
      | _ => error "expected identifier"
    else return ()

/-- `parse_program` -/
def parseProgram (fuel : Nat) : Parse Unit := do
  Prog.modify fun s => { s with hadError := none, loopDepth := 0 }
  parseDeclarations fuel fuel

end RainbowOs.Cc
