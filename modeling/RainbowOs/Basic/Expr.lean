import RainbowOs.Basic.Token
import RainbowOs.Lib.Prog

/-!
# Expressions of BASIC

`apps/basic/expr.c` evaluates an expression from the tokens of a line, and
`vars.c` keeps the variables. Text that an expression makes is in a pool
that is not overwritten while it is used, so a value has its text and the
pool is a count of the bytes that are taken. The evaluator is a recursive
descent over the levels of precedence; `fuel` bounds it. It logs what
becomes of the divisions.
-/

namespace RainbowOs.Basic

open RainbowOs.Lib

/-- Tokens in memory, by a pointer to the first one. -/
structure Tokens where
  mem : Bytes
  addr : Nat

/-- `tokens[pos]` -/
def Tokens.tok (t : Tokens) (pos : Nat) : UInt8 := t.mem (t.addr + pos)

/-- `struct bas_value` -/
inductive Value where
  | num (n : Int)
  | str (s : List UInt8)
  deriving DecidableEq, Repr

/-- The statics of `vars.c`: a number in each slot, and the text of each string. -/
structure Vars where
  nums : Nat → Int
  strs : Nat → List UInt8

/-- `vars_clear` -/
def Vars.clear : Vars := ⟨fun _ => 0, fun _ => []⟩

/-- The text of a C string. -/
def cstr (s : List UInt8) : List UInt8 := s.takeWhile (· ≠ 0)

/-- The slot of `var_num`; `index` is -1 for a plain letter. -/
def varNum (name : UInt8) (index : Int) : Option Nat :=
  let name := toUpper name
  if 65 ≤ name ∧ name ≤ 90 then
    if index < 0 then some (name - 65).toNat
    else if index ≤ 9 then some (26 + (name - 65).toNat * 10 + index.toNat)
    else none
  else none

/-- The row of `var_str`. -/
def varStr (name : UInt8) : Option Nat :=
  let name := toUpper name
  if 65 ≤ name ∧ name ≤ 90 then some (name - 65).toNat else none

/-- `STRING_POOL_SIZE` -/
abbrev stringPoolSize : Nat := 2048

/-- The statics of `expr.c`, with the position in the tokens. -/
structure Eval where
  pos : Nat
  spoolPos : Nat
  error : Bool
  rnd : BitVec 32
  deriving DecidableEq, Repr

/-- Why an evaluation does not return: the fuel is used up, the processor faults on a division, or
a copy runs over the memory. -/
inductive Fault where
  | fuel
  | divide
  | copy
  deriving DecidableEq, Repr

/-- What becomes of a division, `/` or `%`: the processor is asked for it, or it is an error of the
expression. -/
inductive Division where
  | divide (dividend divisor : Int)
  | refuse (dividend : Int)
  deriving DecidableEq, Repr

/-- An evaluation. -/
abbrev EvalM := Prog Eval Fault Division

/-- The digits of a number, the last one first. -/
def digitsRev : Nat → Nat → List UInt8
  | 0, _ => []
  | n + 1, v => if v = 0 then [] else UInt8.ofNat (48 + v % 10) :: digitsRev n (v / 10)

/-- `i32_to_str`: the most negative number has no digits, for it has no negation. -/
def i32ToStr (val : Int) : List UInt8 :=
  if val = 0 then [48]
  else if val < 0 then 45 :: (digitsRev 12 (i32 (-val)).toNat).reverse
  else (digitsRev 12 val.toNat).reverse

/-- The value of the digits at the start of a text. -/
def digitsVal (val : Int) : List UInt8 → Int
  | [] => val
  | c :: s => if isDigit c then digitsVal (i32 (val * 10 + (c.toNat - 48))) s else val

/-- `str_to_i32` -/
def strToI32 (s : List UInt8) : Int :=
  match s.dropWhile (· = 32) with
  | 45 :: s => i32 (-digitsVal 0 s)
  | s => digitsVal 0 s

/-- `strcmp` -/
def strcmp : List UInt8 → List UInt8 → Int
  | a :: s, b :: s' => if a = b then strcmp s s' else a.toNat - b.toNat
  | a :: _, [] => a.toNat
  | [], b :: _ => -b.toNat
  | [], [] => 0

/-- The number in four tokens. -/
def Tokens.num (t : Tokens) (pos : Nat) : Int := i32 (t.mem.word32 (t.addr + pos))

/-- A position `k` further on. -/
def adv (pos k : Nat) : Nat := (pos + k) % 256

/-- The first position from `pos` on that is no blank, in the next `n`. -/
def skipFrom (t : Tokens) (pos : Nat) : Nat → Nat
  | 0 => pos
  | n + 1 => if t.tok pos = 32 then skipFrom t (pos + 1) n else pos

/-- `skip_spaces`, `skip_sp` -/
def skipSp (t : Tokens) (len pos : Nat) : Nat := skipFrom t pos (len - pos)

/-- `peek`, `peek_tok` -/
def peekTok (t : Tokens) (len pos : Nat) : UInt8 := if pos ≥ len then 0 else t.tok pos

namespace Eval

open Prog (get modify tell halt)

/-- `basic_rnd` -/
def basicRnd (e : Eval) (max : Int) : Int × Eval :=
  let r := e.rnd ^^^ (e.rnd <<< 13)
  let r := r ^^^ (r >>> 17)
  let r := r ^^^ (r <<< 5)
  (if max ≤ 0 then 0 else (r.toNat : Int) % max, { e with rnd := r })

/-- An expression that has no value. -/
def fail : EvalM Value := do
  modify fun e => { e with error := true }
  return .num 0

/-- One token further. -/
def advance (k : Nat) : EvalM Unit := modify fun e => { e with pos := adv e.pos k }

/-- `string_pool_alloc`, with the text that is put there. -/
def alloc (s : List UInt8) : EvalM Value := do
  let e ← get
  if e.spoolPos + s.length + 1 > stringPoolSize then fail
  else
    modify fun e => { e with spoolPos := e.spoolPos + s.length + 1 }
    return .str s

section Parse

variable (t : Tokens) (len : Nat) (vars : Vars) (ram : Bytes)

def skip : EvalM Unit := modify fun e => { e with pos := skipSp t len e.pos }

def peek : EvalM UInt8 := do return peekTok t len (← get).pos

/-- A token that may be left out. -/
def optional (c : UInt8) : EvalM Unit := do
  skip t len
  if (← peek t len) = c then advance 1

/-- A binary operator on numbers. -/
def arith (op : UInt8) (a b : Int) : EvalM Value :=
  if op = 42 then return .num (i32 (a * b))
  else if b = 0 then do
    tell (.refuse a)
    fail
  else do
    tell (.divide a b)
    if a = -2147483648 ∧ b = -1 then halt .divide
    else if op = 47 then return .num (a.tdiv b)
    else return .num (a.tmod b)

/-- The loop of `parse_mul`. -/
def mulLoop (primary : EvalM Value) : Nat → Value → EvalM Value
  | 0, _ => halt .fuel
  | fuel + 1, left => do
    skip t len
    let tok ← peek t len
    if tok = 42 ∨ tok = 47 ∨ tok = Tok.mod then
      advance 1
      let right ← primary
      if (← get).error then return .num 0
      else match left, right with
        | .num a, .num b => do
          let v ← arith tok a b
          if (← get).error then return v else mulLoop primary fuel v
        | _, _ => fail
    else return left

/-- `parse_mul` -/
def parseMul (primary : EvalM Value) (fuel : Nat) : EvalM Value := do
  let left ← primary
  if (← get).error then return left else mulLoop t len primary fuel left

/-- The loop of `parse_add`. -/
def addLoop (mul : EvalM Value) : Nat → Value → EvalM Value
  | 0, _ => halt .fuel
  | fuel + 1, left => do
    skip t len
    let tok ← peek t len
    if tok = 43 ∨ tok = 45 then
      advance 1
      let right ← mul
      if (← get).error then return .num 0
      else match left, right with
        | .str a, .str b =>
          if tok = 43 then do
            let v ← alloc ((a ++ b).take ((a.length + b.length) % 256))
            if (← get).error then return v else addLoop mul fuel v
          else fail
        | .num a, .num b => addLoop mul fuel (.num (i32 (if tok = 43 then a + b else a - b)))
        | _, _ => fail
    else return left

/-- `parse_add` -/
def parseAdd (primary : EvalM Value) (fuel : Nat) : EvalM Value := do
  let left ← parseMul t len primary fuel
  if (← get).error then return left
  else addLoop t len (parseMul t len primary fuel) fuel left

/-- What a comparison makes of the order of its operands. -/
def compare (tok : UInt8) (cmp : Int) : Value :=
  let result : Bool :=
    if tok = 61 then cmp = 0
    else if tok = Tok.ne then cmp ≠ 0
    else if tok = 60 then cmp < 0
    else if tok = 62 then cmp > 0
    else if tok = Tok.le then cmp ≤ 0
    else cmp ≥ 0
  .num (if result then -1 else 0)

/-- `parse_compare` -/
def parseCompare (primary : EvalM Value) (fuel : Nat) : EvalM Value := do
  let left ← parseAdd t len primary fuel
  if (← get).error then return left
  else
    skip t len
    let tok ← peek t len
    if tok = 61 ∨ tok = 60 ∨ tok = 62 ∨ tok = Tok.le ∨ tok = Tok.ge ∨ tok = Tok.ne then
      advance 1
      let right ← parseAdd t len primary fuel
      if (← get).error then return .num 0
      else match left, right with
        | .str a, .str b => return compare tok (strcmp (cstr a) (cstr b))
        | .num a, .num b => return compare tok (a - b)
        | _, _ => fail
    else return left

/-- A value as a condition: a pointer to text is not null. -/
def truth : Value → Bool
  | .num n => n ≠ 0
  | .str _ => true

/-- The loop of `parse_and` and of `parse_or`. -/
def logicLoop (tok : UInt8) (op : Bool → Bool → Bool) (operand : EvalM Value) :
    Nat → Value → EvalM Value
  | 0, _ => halt .fuel
  | fuel + 1, left => do
    skip t len
    if (← peek t len) = tok then
      advance 1
      let right ← operand
      if (← get).error then return .num 0
      else logicLoop tok op operand fuel (.num (if op (truth left) (truth right) then -1 else 0))
    else return left

/-- `parse_and` -/
def parseAnd (primary : EvalM Value) (fuel : Nat) : EvalM Value := do
  let left ← parseCompare t len primary fuel
  if (← get).error then return left
  else logicLoop t len Tok.and and (parseCompare t len primary fuel) fuel left

/-- `parse_or` -/
def parseOr (primary : EvalM Value) (fuel : Nat) : EvalM Value := do
  let left ← parseAnd t len primary fuel
  if (← get).error then return left
  else logicLoop t len Tok.or or (parseAnd t len primary fuel) fuel left

/-- A function of one number or of one text. -/
def unary (arg : Value) (onNum : Int → EvalM Value) (onStr : List UInt8 → EvalM Value) :
    EvalM Value := do
  optional t len 41
  match arg with
  | .num n => onNum n
  | .str s => onStr s

/-- A number between 0 and `max`. -/
def clamp (n : Int) (max : Nat) : Nat := if n > max then max else n.toNat

/-- `parse_function` -/
def parseFunction (or : EvalM Value) (func : UInt8) : EvalM Value := do
  skip t len
  if (← peek t len) ≠ 40 then fail
  else
    advance 1
    let arg ← or
    if (← get).error then return .num 0
    else if func = Tok.abs then
      unary t len arg (fun n => return .num (if n < 0 then i32 (-n) else n)) fun _ => fail
    else if func = Tok.rnd then
      unary t len arg (fun n => do
        let (r, e) := (← get).basicRnd n
        modify fun _ => e
        return .num r) fun _ => fail
    else if func = Tok.int then unary t len arg (fun n => return .num n) fun _ => fail
    else if func = Tok.len then unary t len arg (fun _ => fail) fun s => return .num s.length
    else if func = Tok.val then unary t len arg (fun _ => fail) fun s => return .num (strToI32 s)
    else if func = Tok.chr then
      unary t len arg (fun n => alloc [UInt8.ofNat (n % 256).toNat]) fun _ => fail
    else if func = Tok.str then unary t len arg (fun n => alloc (i32ToStr n)) fun _ => fail
    else if func = Tok.peek then
      unary t len arg (fun n => return .num (ram (n % 4294967296).toNat).toNat) fun _ => fail
    else if func = Tok.left ∨ func = Tok.right then
      optional t len 44
      let arg2 ← or
      optional t len 41
      match arg, arg2 with
      | .str s, .num n =>
        let n := clamp n s.length
        alloc (if func = Tok.left then s.take n else s.drop (s.length - n))
      | _, _ => fail
    else if func = Tok.mid then
      optional t len 44
      let arg2 ← or
      optional t len 44
      let arg3 ← or
      optional t len 41
      match arg, arg2, arg3 with
      | .str s, .num p, .num n =>
        let p := clamp (i32 (p - 1)) s.length
        let n := if n < 0 then 0 else n
        let n := if i32 (p + n) > s.length then (s.length : Int) - p else n
        -- the sum overflows: the copy runs over the memory
        if p + n > s.length then halt .copy else alloc ((s.drop p).take n.toNat)
      | _, _, _ => fail
    else fail

/-- A variable. -/
def variable_ (name : UInt8) : EvalM Value := do
  advance 1
  if (← peek t len) = 36 then
    advance 1
    match varStr name with
    | some row => alloc (vars.strs row)
    | none => fail
  else
    let c ← peek t len
    let idx : Int := if isDigit c then c.toNat - 48 else -1
    if isDigit c then advance 1
    match varNum name idx with
    | some slot => return .num (vars.nums slot)
    | none => fail

/-- `parse_primary` -/
def parsePrimary : Nat → EvalM Value
  | 0 => halt .fuel
  | fuel + 1 => do
    skip t len
    let tok ← peek t len
    if tok = 45 then
      advance 1
      match ← parsePrimary fuel with
      | .num n => return .num (i32 (-n))
      | .str _ => fail
    else if tok = Tok.not then
      advance 1
      match ← parsePrimary fuel with
      | .num n => return .num (if n ≠ 0 then 0 else 1)
      | .str _ => fail
    else if tok = 40 then
      advance 1
      let v ← parseOr t len (parsePrimary fuel) fuel
      optional t len 41
      return v
    else if tok = Tok.num then
      advance 1
      let n := t.num (← get).pos
      advance 4
      return .num n
    else if tok = Tok.strLit then
      advance 1
      let pos := (← get).pos
      let slen := (t.tok pos).toNat
      advance 1
      match ← alloc (t.mem.slice (t.addr + adv pos 1) slen) with
      | .str s =>
        advance slen
        return .str s
      -- there was no room
      | .num n => return .num n
    else if Tok.abs ≤ tok ∧ tok ≤ Tok.int then
      advance 1
      parseFunction t len ram (parseOr t len (parsePrimary fuel) fuel) tok
    else if isAlpha tok then variable_ t len vars tok
    else fail

/-- The run of `expr_eval`. -/
def exprRun (fuel : Nat) : EvalM Value := parseOr t len (parsePrimary t len vars ram fuel) fuel

/-- `expr_eval`: the value and the state, where it returns. -/
def exprEval (fuel : Nat) (e : Eval) : Option (Value × Eval) :=
  match (exprRun t len vars ram fuel e).out with
  | .done v => some (v, (exprRun t len vars ram fuel e).state)
  | .halt _ => none

end Parse

end Eval

end RainbowOs.Basic
