import RainbowOs.Cc.Parser
import RainbowOs.Lib.X86

/-!
# The integer expressions of C

Literals, variables, parentheses, the unary `-` `!` `~` and the binary
operators: their syntax by C's grammar, their tokens, their value on 32-bit
words, and the calls of the code generator that compute it. A parenthesis is
kept in the tree, so a tree that obeys the grammar is the only one with its
tokens: what C's precedence and associativity say.
-/

namespace RainbowOs.Cc

open RainbowOs.Lib
open X86 (Word)

/-- A unary operator. -/
inductive UnOp where
  | neg | lnot | bnot
  deriving DecidableEq, Repr

/-- A binary operator. -/
inductive BinOp where
  | mul | div | mod
  | add | sub
  | shl | shr
  | lt | gt | le | ge
  | eq | ne
  | band | bxor | bor
  | land | lor
  deriving DecidableEq, Repr

/-- The truth value of C. -/
def truth (b : Bool) : Word := if b then 1 else 0

namespace UnOp

def tok : UnOp → Tok
  | neg => .minus
  | lnot => .bang
  | bnot => .tilde

def call : UnOp → CgCall
  | neg => .negate
  | lnot => .logicalNot
  | bnot => .bitwiseNot

def apply (op : UnOp) (a : Word) : Word :=
  match op with
  | neg => -a
  | lnot => truth (a = 0)
  | bnot => ~~~a

end UnOp

namespace BinOp

def tok : BinOp → Tok
  | mul => .star
  | div => .slash
  | mod => .percent
  | add => .plus
  | sub => .minus
  | shl => .shl
  | shr => .shr
  | lt => .lt
  | gt => .gt
  | le => .le
  | ge => .ge
  | eq => .eq
  | ne => .ne
  | band => .amp
  | bxor => .caret
  | bor => .pipe
  | land => .and
  | lor => .or

/-- How loosely the operator binds. -/
def rank : BinOp → Nat
  | mul | div | mod => 0
  | add | sub => 1
  | shl | shr => 2
  | lt | gt | le | ge => 3
  | eq | ne => 4
  | band => 5
  | bxor => 6
  | bor => 7
  | land => 8
  | lor => 9

/-- `&&` and `||`. -/
def jumps (op : BinOp) : Bool := op = land || op = lor

/-- The call that applies the operator to ECX and EAX; `&&` and `||` have none. -/
def call : BinOp → CgCall
  | mul => .mul
  | div => .div
  | mod => .mod
  | add => .add
  | sub => .sub
  | shl => .shl
  | shr => .shr
  | band => .bitand
  | bxor => .bitxor
  | bor => .bitor
  | op => .cmp op.tok

/-- The value of a strict operator on `int`s of 32 bits, where C defines one: a shift needs a
count below 32, `>>` a left operand that is not negative, and a quotient has to exist and to
fit. -/
def apply (op : BinOp) (a b : Word) : Option Word :=
  match op with
  | mul => some (a * b)
  | div => if b = 0 ∨ (a = BitVec.intMin 32 ∧ b = -1) then none else some (a.sdiv b)
  | mod => if b = 0 ∨ (a = BitVec.intMin 32 ∧ b = -1) then none else some (a.srem b)
  | add => some (a + b)
  | sub => some (a - b)
  | shl => if b.toNat < 32 then some (a <<< b.toNat) else none
  | shr => if b.toNat < 32 ∧ 0 ≤ a.toInt then some (a.sshiftRight b.toNat) else none
  | lt => some (truth (a.toInt < b.toInt))
  | gt => some (truth (b.toInt < a.toInt))
  | le => some (truth (a.toInt ≤ b.toInt))
  | ge => some (truth (b.toInt ≤ a.toInt))
  | eq => some (truth (a = b))
  | ne => some (truth (a ≠ b))
  | band => some (a &&& b)
  | bxor => some (a ^^^ b)
  | bor => some (a ||| b)
  | land => some (truth (a ≠ 0 ∧ b ≠ 0))
  | lor => some (truth (a ≠ 0 ∨ b ≠ 0))

end BinOp

/-- An expression. -/
inductive Expr where
  | num (n : Int)
  | var (name : List UInt8)
  | paren (e : Expr)
  | unary (op : UnOp) (e : Expr)
  | binary (op : BinOp) (l r : Expr)
  deriving DecidableEq, Repr

namespace Expr

/-- How loosely the expression holds together. -/
def rank : Expr → Nat
  | binary op _ _ => op.rank + 1
  | _ => 0

def tokens : Expr → List Tok
  | num n => [.numLit n]
  | var x => [.ident x]
  | paren e => .lparen :: e.tokens ++ [.rparen]
  | unary op e => op.tok :: e.tokens
  | binary op l r => l.tokens ++ op.tok :: r.tokens

/-- The grammar of C: the operand of a unary operator is a unary expression, and a binary
operator has an operand that binds as tightly as it does on its left and one that binds more
tightly on its right. -/
def Grammatical : Expr → Prop
  | num n => 0 ≤ n ∧ n < 2147483648
  | var _ => True
  | paren e => e.Grammatical
  | unary _ e => e.rank = 0 ∧ e.Grammatical
  | binary op l r => l.rank ≤ op.rank + 1 ∧ r.rank ≤ op.rank ∧ l.Grammatical ∧ r.Grammatical

/-- The variables of an expression. -/
def vars : Expr → List (List UInt8)
  | num _ => []
  | var x => [x]
  | paren e | unary _ e => e.vars
  | binary _ l r => l.vars ++ r.vars

/-- The expression begins with an identifier. -/
def headed : Expr → Bool
  | var _ => true
  | binary _ l _ => l.headed
  | _ => false

/-- The expression does not begin with an identifier, unless it is one. -/
def plainHead : Expr → Bool
  | var _ => true
  | e => !e.headed

/-- No parenthesised part begins with an identifier, unless it is one. -/
def plainParens : Expr → Bool
  | num _ | var _ => true
  | paren e => e.plainHead && e.plainParens
  | unary _ e => e.plainParens
  | binary _ l r => l.plainParens && r.plainParens

/-- The value of an expression, where C defines one: `&&` and `||` look at their right operand
only if the left one does not decide. -/
def eval (σ : List UInt8 → Word) : Expr → Option Word
  | num n => some (BitVec.ofInt 32 n)
  | var x => some (σ x)
  | paren e => e.eval σ
  | unary op e => (e.eval σ).map op.apply
  | binary op l r =>
    match op with
    | .land => (l.eval σ).bind fun a =>
      if a = 0 then some 0 else (r.eval σ).map fun b => truth (b ≠ 0)
    | .lor => (l.eval σ).bind fun a =>
      if a = 0 then (r.eval σ).map fun b => truth (b ≠ 0) else some 1
    | op => (l.eval σ).bind fun a => (r.eval σ).bind fun b => op.apply a b

/-! ## Code -/

/-- How many labels the code of an expression makes. -/
def labels : Expr → Nat
  | num _ | var _ => 0
  | paren e | unary _ e => e.labels
  | binary op l r => l.labels + r.labels + if op.jumps then 2 else 0

/-- How many dwords the code of an expression has on the stack at once. -/
def depth : Expr → Nat
  | num _ | var _ => 0
  | paren e | unary _ e => e.depth
  | binary op l r => max l.depth (r.depth + if op.jumps then 0 else 1)

/-- The load of a scalar. -/
def loadCall (s : Symbol) : CgCall := if s.onStack then .loadLocal s.offset else .loadGlobal s.offset

/-- The calls around the right operand of `&&` and `||`: a jump to `lbl` where an operand
decides, and the truth value of both cases. -/
def shortCircuit (jump : Int → CgCall) (decided other : Int) (lbl last : Nat) (right : List CgCall) :
    List CgCall :=
  [.newLabel, jump lbl] ++ right ++ [jump lbl, .loadNum other, .newLabel, .jump last, .label lbl,
    .loadNum decided, .label last]

/-- The calls after the left operand, where the next label is `n` and the right operand has
the calls `right` and `k` labels. -/
def rightCalls (op : BinOp) (n k : Nat) (right : List CgCall) : List CgCall :=
  match op with
  | .land => shortCircuit .jumpZero 0 1 n (n + 1 + k) right
  | .lor => shortCircuit .jumpNonzero 1 0 n (n + 1 + k) right
  | op => .push :: right ++ [.popIntoEcx, op.call]

/-- The calls that compute an expression, where the next label is `n`. -/
def calls (t : Symbols) (n : Nat) : Expr → List CgCall
  | num k => [.loadNum k]
  | var x => [loadCall (t.deref (t.find x))]
  | paren e => e.calls t n
  | unary op e => e.calls t n ++ [op.call]
  | binary op l r => l.calls t n ++ rightCalls op (n + l.labels) r.labels
      (r.calls t (if op.jumps then n + l.labels + 1 else n + l.labels))

end Expr

/-- The call of an event. -/
def Event.call? : Event → Option CgCall
  | .emit call => some call
  | _ => none

/-- The calls of a log. -/
def callsOf (log : List Event) : List CgCall := log.filterMap Event.call?

@[simp] theorem callsOf_nil : callsOf [] = [] := rfl

@[simp] theorem callsOf_append (l l' : List Event) :
    callsOf (l ++ l') = callsOf l ++ callsOf l' := List.filterMap_append

@[simp] theorem callsOf_emit (call : CgCall) (l : List Event) :
    callsOf (.emit call :: l) = call :: callsOf l := rfl

@[simp] theorem callsOf_refer (r : SymRef) (use : Use) (l : List Event) :
    callsOf (.refer r use :: l) = callsOf l := rfl

@[simp] theorem callsOf_outside (i : Nat) (l : List Event) :
    callsOf (.outside i :: l) = callsOf l := rfl

@[simp] theorem callsOf_copy (name : List UInt8) (l : List Event) :
    callsOf (.copy name :: l) = callsOf l := rfl

@[simp] theorem callsOf_declare (d : Declaration) (l : List Event) :
    callsOf (.declare d :: l) = callsOf l := rfl

end RainbowOs.Cc
