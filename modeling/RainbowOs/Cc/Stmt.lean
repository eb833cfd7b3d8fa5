import RainbowOs.Lib.Loop
import RainbowOs.Cc.Headed
import RainbowOs.Cc.Names
import Mathlib.Logic.Relation

/-!
# The statements of C

Expression statements, declarations of `int`s, blocks, conditionals, the three
loops, `break`, `continue` and `return`: their syntax, their tokens, what they
do to the variables, and the calls of the code generator that do it. An
expression of a statement is one that `parse_expr` reads as C does, or the
assignment of one to variables.

A variable is known by its name from its declaration to the end of the
function, as in the symbol table. One that is declared without a value keeps
what its cell holds: any value does where C leaves it open.
-/

namespace RainbowOs.Cc

open RainbowOs.Lib
open X86 (Word)

/-- The values of the variables. -/
abbrev Store := List UInt8 → Word

/-! ## Expressions with assignments -/

/-- An expression as a statement has it: its value, or the value stored to a variable too. -/
inductive Act where
  | value (e : Expr)
  | assign (x : List UInt8) (a : Act)

/-- The store to a scalar. -/
def storeCall (s : Symbol) : CgCall := if s.onStack then .storeLocal s.offset else .storeGlobal s.offset

namespace Act

def tokens : Act → List Tok
  | value e => e.tokens
  | assign x a => .ident x :: .assign :: a.tokens

/-- The variables that are read or stored to. -/
def vars : Act → List (List UInt8)
  | value e => e.vars
  | assign x a => x :: a.vars

/-- What `parse_expr` reads as C does. -/
def Grammatical : Act → Prop
  | value e => e.Grammatical ∧ e.headFlat = true ∧ e.flatParens = true
  | assign _ a => a.Grammatical

/-- The value, and the variables after it. -/
def run : Act → Store → Option (Word × Store)
  | value e, σ => (e.eval σ).map fun v => (v, σ)
  | assign x a, σ => (a.run σ).map fun r => (r.1, Function.update r.2 x r.1)

/-- As a condition. -/
def test (a : Act) (σ : Store) : Option (Bool × Store) := (a.run σ).map fun r => (r.1 ≠ 0, r.2)

def labels : Act → Nat
  | value e => e.labels
  | assign _ a => a.labels

def depth : Act → Nat
  | value e => e.depth
  | assign _ a => a.depth

def calls (t : Symbols) (n : Nat) : Act → List CgCall
  | value e => e.calls t n
  | assign x a => a.calls t n ++ [storeCall (t.deref (t.find x))]

end Act

/-! ## Statements -/

/-- A name that is declared, with its first value. -/
structure Declarator where
  name : List UInt8
  init : Option Act

mutual

/-- A statement. -/
inductive Stmt where
  | empty
  | act (a : Act)
  | decl (d : Declarator) (ds : List Declarator)
  | block (b : Block)
  | ifThen (a : Act) (s : Stmt)
  | ifElse (a : Act) (s₁ s₂ : Stmt)
  | whileLoop (a : Act) (s : Stmt)
  | doLoop (s : Stmt) (a : Act)
  | forLoop (init cond step : Option Act) (s : Stmt)
  | breakStmt
  | continueStmt
  | returnStmt (a : Option Act)

/-- The statements of a block. -/
inductive Block where
  | nil
  | cons (s : Stmt) (b : Block)

end

/-! ### Tokens -/

/-- The tokens of an expression that may be missing. -/
def optTokens (a : Option Act) : List Tok := a.elim [] Act.tokens

def Declarator.tokens (d : Declarator) : List Tok := .ident d.name :: d.init.elim [] fun a => .assign :: a.tokens

mutual

def Stmt.tokens : Stmt → List Tok
  | .empty => [.semi]
  | .act a => a.tokens ++ [.semi]
  | .decl d ds => .int :: d.tokens ++ ds.flatMap (fun d => .comma :: d.tokens) ++ [.semi]
  | .block b => .lbrace :: b.tokens ++ [.rbrace]
  | .ifThen a s => .ifTok :: .lparen :: a.tokens ++ .rparen :: s.tokens
  | .ifElse a s₁ s₂ => .ifTok :: .lparen :: a.tokens ++ .rparen :: s₁.tokens ++ .elseTok :: s₂.tokens
  | .whileLoop a s => .whileTok :: .lparen :: a.tokens ++ .rparen :: s.tokens
  | .doLoop s a => .doTok :: s.tokens ++ .whileTok :: .lparen :: a.tokens ++ [.rparen, .semi]
  | .forLoop init cond step s =>
    .forTok :: .lparen :: optTokens init ++ .semi :: optTokens cond ++ .semi :: optTokens step ++ .rparen :: s.tokens
  | .breakStmt => [.breakTok, .semi]
  | .continueStmt => [.continueTok, .semi]
  | .returnStmt a => .returnTok :: optTokens a ++ [.semi]

def Block.tokens : Block → List Tok
  | .nil => []
  | .cons s b => s.tokens ++ b.tokens

end

/-- The statement ends with an `if` that an `else` would go on with. -/
def Stmt.dangles : Stmt → Bool
  | .ifThen _ _ => true
  | .ifElse _ _ s => s.dangles
  | .whileLoop _ s => s.dangles
  | .forLoop _ _ _ s => s.dangles
  | _ => false

/-! ### What statements do -/

/-- A declaration, one name after the other. -/
def declare : List Declarator → Store → Option Store
  | [], σ => some σ
  | d :: ds, σ =>
    match d.init with
    | none => declare ds σ
    | some a => (a.run σ).bind fun r => declare ds (Function.update r.2 d.name r.1)

/-- An expression that may be missing, for what it does. -/
def optRun (a : Option Act) (σ : Store) : Option Store :=
  match a with
  | none => some σ
  | some a => (a.run σ).map Prod.snd

/-- A condition that may be missing. -/
def optTest (a : Option Act) (σ : Store) : Option (Bool × Store) :=
  match a with
  | none => some (true, σ)
  | some a => a.test σ

mutual

/-- How a statement ends and what it leaves in the variables, where C defines it and no loop
takes more rounds than the fuel allows. -/
def Stmt.exec (fuel : Nat) : Stmt → Store → Option (Exit (Option Word) × Store)
  | .empty, σ => some (.next, σ)
  | .act a, σ => (a.run σ).map fun r => (.next, r.2)
  | .decl d ds, σ => (declare (d :: ds) σ).map fun σ => (.next, σ)
  | .block b, σ => b.exec fuel σ
  | .ifThen a s, σ => (a.test σ).bind fun r => if r.1 then s.exec fuel r.2 else some (.next, r.2)
  | .ifElse a s₁ s₂, σ => (a.test σ).bind fun r => if r.1 then s₁.exec fuel r.2 else s₂.exec fuel r.2
  | .whileLoop a s, σ => rounds a.test (fun σ => s.exec fuel σ) some fuel σ
  | .doLoop s a, σ => (s.exec fuel σ).bind fun r =>
    if r.1.again then rounds a.test (fun σ => s.exec fuel σ) some fuel r.2 else some (r.1.ofLoop, r.2)
  | .forLoop init cond step s, σ => (optRun init σ).bind fun σ =>
    rounds (optTest cond) (fun σ => s.exec fuel σ) (optRun step) fuel σ
  | .breakStmt, σ => some (.brk, σ)
  | .continueStmt, σ => some (.cont, σ)
  | .returnStmt none, σ => some (.ret none, σ)
  | .returnStmt (some a), σ => (a.run σ).map fun r => (.ret (some r.1), r.2)

def Block.exec (fuel : Nat) : Block → Store → Option (Exit (Option Word) × Store)
  | .nil, σ => some (.next, σ)
  | .cons s b, σ => (s.exec fuel σ).bind fun r => if r.1 = .next then b.exec fuel r.2 else some r

end

/-! ### Code -/

/-- The symbol table with one more variable. -/
def Symbols.declare (t : Symbols) (x : List UInt8) : Symbols := (t.addLocal x .localVar .int).2

/-- The table after the declarators. -/
def declTable (t : Symbols) (ds : List Declarator) : Symbols := ds.foldl (fun t d => t.declare d.name) t

mutual

/-- The table after the statement. -/
def Stmt.table (t : Symbols) : Stmt → Symbols
  | .decl d ds => declTable t (d :: ds)
  | .block b => b.table t
  | .ifThen _ s => s.table t
  | .ifElse _ s₁ s₂ => s₂.table (s₁.table t)
  | .whileLoop _ s => s.table t
  | .doLoop s _ => s.table t
  | .forLoop _ _ _ s => s.table t
  | _ => t

def Block.table (t : Symbols) : Block → Symbols
  | .nil => t
  | .cons s b => b.table (s.table t)

end

def optLabels (a : Option Act) : Nat := a.elim 0 Act.labels

def Declarator.labels (d : Declarator) : Nat := optLabels d.init

mutual

/-- How many labels the statement makes. -/
def Stmt.labels : Stmt → Nat
  | .empty | .breakStmt | .continueStmt => 0
  | .act a => a.labels
  | .decl d ds => d.labels + (ds.map Declarator.labels).sum
  | .block b => b.labels
  | .ifThen a s => a.labels + 1 + s.labels
  | .ifElse a s₁ s₂ => a.labels + 1 + s₁.labels + 1 + s₂.labels
  | .whileLoop a s => 2 + a.labels + s.labels
  | .doLoop s a => 3 + s.labels + a.labels
  | .forLoop init cond step s => optLabels init + 3 + optLabels cond + 1 + optLabels step + s.labels
  | .returnStmt a => optLabels a

def Block.labels : Block → Nat
  | .nil => 0
  | .cons s b => s.labels + b.labels

end

/-- How many dwords an expression that may be missing has on the stack at once. -/
def optDepth (a : Option Act) : Nat := a.elim 0 Act.depth

mutual

/-- How many dwords the statement has on the stack at once. -/
def Stmt.depth : Stmt → Nat
  | .empty | .breakStmt | .continueStmt => 0
  | .act a => a.depth
  | .decl d ds => ((d :: ds).map fun d => optDepth d.init).foldr max 0
  | .block b => b.depth
  | .ifThen a s => max a.depth s.depth
  | .ifElse a s₁ s₂ => max a.depth (max s₁.depth s₂.depth)
  | .whileLoop a s => max a.depth s.depth
  | .doLoop s a => max s.depth a.depth
  | .forLoop init cond step s => max (max (optDepth init) (optDepth cond)) (max (optDepth step) s.depth)
  | .returnStmt a => optDepth a

def Block.depth : Block → Nat
  | .nil => 0
  | .cons s b => max s.depth b.depth

end

def optCalls (t : Symbols) (n : Nat) (a : Option Act) : List CgCall := a.elim [] (Act.calls t n)

/-- The calls for the declarators, where the next label is `n`. -/
def declCalls (t : Symbols) (n : Nat) : List Declarator → List CgCall
  | [] => []
  | d :: ds =>
    let t := t.declare d.name
    (d.init.elim [] fun a => a.calls t n ++ [.storeLocal (t.deref (t.find d.name)).offset]) ++
      declCalls t (n + d.labels) ds

mutual

/-- The calls for a statement, where the next label is `n`, and `b` and `k` are the labels that
`break` and `continue` jump to. -/
def Stmt.calls (t : Symbols) (n : Nat) (b k : Int) : Stmt → List CgCall
  | .empty => []
  | .act a => a.calls t n
  | .decl d ds => declCalls t n (d :: ds)
  | .block bl => bl.calls t n b k
  | .ifThen a s =>
    let lbl := n + a.labels
    a.calls t n ++ ([.newLabel, .jumpZero lbl] ++ (s.calls t (lbl + 1) b k ++ [.label lbl]))
  | .ifElse a s₁ s₂ =>
    let lbl := n + a.labels
    let last := lbl + 1 + s₁.labels
    a.calls t n ++ ([.newLabel, .jumpZero lbl] ++ (s₁.calls t (lbl + 1) b k ++
      ([.newLabel, .jump last, .label lbl] ++ (s₂.calls (s₁.table t) (last + 1) b k ++ [.label last]))))
  | .whileLoop a s =>
    let top := n
    let last := n + 1
    [.newLabel, .newLabel, .label top] ++ (a.calls t (n + 2) ++ ([.jumpZero last] ++
      (s.calls t (n + 2 + a.labels) last top ++ [.jump top, .label last])))
  | .doLoop s a =>
    let top := n
    let last := n + 1
    let cont := n + 2
    [.newLabel, .newLabel, .newLabel, .label top] ++ (s.calls t (n + 3) last cont ++ ([.label cont] ++
      (a.calls (s.table t) (n + 3 + s.labels) ++ [.jumpNonzero top, .label last])))
  | .forLoop init cond step s =>
    let top := n + optLabels init
    let last := top + 1
    let next := top + 2
    let body := top + 3 + optLabels cond
    optCalls t n init ++ ([.newLabel, .newLabel, .newLabel, .label top] ++
      (cond.elim [.loadNum 1] (Act.calls t (top + 3)) ++ ([.jumpZero last, .newLabel, .jump body, .label next] ++
        (optCalls t (body + 1) step ++ ([.jump top, .label body] ++
          (s.calls t (body + 1 + optLabels step) last next ++ [.jump next, .label last]))))))
  | .breakStmt => [.jump b]
  | .continueStmt => [.jump k]
  | .returnStmt a => optCalls t n a ++ [.ret]

def Block.calls (t : Symbols) (n : Nat) (b k : Int) : Block → List CgCall
  | .nil => []
  | .cons s bl => s.calls t n b k ++ bl.calls (s.table t) (n + s.labels) b k

end

/-! ### Statements that can be compiled -/

/-- A variable of the function at hand: a scalar on the stack. -/
structure Symbols.Local (t : Symbols) (x : List UInt8) : Prop extends t.Scalar x where
  own : t.findLocal x ≠ .null
  stack : (t.deref (t.find x)).onStack = true

/-- The expression is one of C's, and its variables are the function's. -/
def Act.Valid (t : Symbols) (a : Act) : Prop := a.Grammatical ∧ ∀ x ∈ a.vars, t.Local x

def OptValid (t : Symbols) (a : Option Act) : Prop := ∀ x ∈ a, x.Valid t

/-- A declaration of a new name, for which there is room. -/
structure Declarator.Valid (t : Symbols) (d : Declarator) : Prop where
  name : d.name.length ≤ symNameMax
  fresh : t.findLocal d.name = .null
  room : t.locals.length < symMaxLocal
  init : OptValid (t.declare d.name) d.init

def DeclValid (t : Symbols) : List Declarator → Prop
  | [] => True
  | d :: ds => d.Valid t ∧ DeclValid (t.declare d.name) ds

mutual

/-- The expressions are valid, the names that are declared are new, an `else` belongs to the last
`if`, jumps are in loops, and `l` loops around the statement leave room for its own. -/
def Stmt.Valid (t : Symbols) (l : Nat) : Stmt → Prop
  | .empty => True
  | .act a => a.Valid t
  | .decl d ds => DeclValid t (d :: ds)
  | .block b => b.Valid t l
  | .ifThen a s => a.Valid t ∧ s.Valid t l
  | .ifElse a s₁ s₂ => a.Valid t ∧ s₁.dangles = false ∧ s₁.Valid t l ∧ s₂.Valid (s₁.table t) l
  | .whileLoop a s => l < maxLoopDepth ∧ a.Valid t ∧ s.Valid t (l + 1)
  | .doLoop s a => l < maxLoopDepth ∧ s.Valid t (l + 1) ∧ a.Valid (s.table t)
  | .forLoop init cond step s =>
    l < maxLoopDepth ∧ OptValid t init ∧ OptValid t cond ∧ OptValid t step ∧ s.Valid t (l + 1)
  | .breakStmt | .continueStmt => 0 < l
  | .returnStmt a => OptValid t a

def Block.Valid (t : Symbols) (l : Nat) : Block → Prop
  | .nil => True
  | .cons s b => s.Valid t l ∧ b.Valid (s.table t) l

end

/-! ### Tables along a statement -/

namespace Symbols

/-- The locals of the table are locals of the other, and the same symbols. -/
def Below (t t' : Symbols) : Prop := ∀ x, t.findLocal x ≠ .null → t'.findLocal x = t.findLocal x ∧
  t'.deref (t.findLocal x) = t.deref (t.findLocal x)

theorem find_of_local {t : Symbols} {x : List UInt8} (h : t.findLocal x ≠ .null) : t.find x = t.findLocal x := if_neg h

namespace Below

variable {t t' t'' : Symbols} {x : List UInt8}

theorem refl (t : Symbols) : t.Below t := fun _ _ => ⟨rfl, rfl⟩

theorem trans (h : t.Below t') (h' : t'.Below t'') : t.Below t'' := by
  intro x hx
  obtain ⟨hfind, hderef⟩ := h x hx
  obtain ⟨hfind', hderef'⟩ := h' x (hfind ▸ hx)
  rw [hfind] at hfind' hderef'
  exact ⟨hfind', hderef'.trans hderef⟩

/-- A variable stays one, and is the same symbol. -/
theorem symbol (h : t.Below t') (hx : t.Local x) :
    t'.Local x ∧ t'.deref (t'.find x) = t.deref (t.find x) := by
  obtain ⟨hfind, hderef⟩ := h x hx.own
  have hown : t'.findLocal x ≠ .null := hfind ▸ hx.own
  have hsym : t'.deref (t'.find x) = t.deref (t.find x) := by
    rw [find_of_local hown, find_of_local hx.own, hfind, hderef]
  refine ⟨⟨⟨hx.name, find_of_local hown ▸ hown, ?_, ?_, ?_⟩, hown, ?_⟩, hsym⟩
  · rw [hsym]
    exact hx.size
  · rw [hsym]
    exact hx.kind
  · rw [hsym]
    exact hx.dataType
  · rw [hsym]
    exact hx.stack

end Below

theorem indexOf_append {x : List UInt8} {l l' : List Symbol} {i : Nat} (h : indexOf x l = some i) :
    indexOf x (l ++ l') = some i := by
  induction l generalizing i with
  | nil => cases h
  | cons s l ih =>
    rw [indexOf] at h
    rw [List.cons_append, indexOf]
    split
    · next hs => rwa [if_pos hs] at h
    · next hs =>
      rw [if_neg hs] at h
      obtain ⟨j, hj, rfl⟩ := Option.map_eq_some_iff.mp h
      rw [ih hj]
      rfl

variable {t : Symbols} {x : List UInt8}

/-- The symbol that a declaration makes. -/
def declared (t : Symbols) (x : List UInt8) : Symbol :=
  ⟨x.take symNameMax, .localVar, .int, -(t.localsOffset + 4), 0, true⟩

theorem declare_eq (h : t.locals.length < symMaxLocal) : t.declare x =
    { t with localsOffset := t.localsOffset + 4, locals := t.locals ++ [t.declared x] } := by
  rw [declare, addLocal, if_neg (by omega), if_neg nofun]
  rfl

/-- It hides no local. -/
theorem below_declare (hroom : t.locals.length < symMaxLocal) : t.Below (t.declare x) := by
  intro y hy
  rw [declare_eq hroom]
  unfold findLocal at *
  cases hi : indexOf y t.locals with
  | none =>
    rw [hi] at hy
    exact absurd rfl hy
  | some i =>
    have hlt := indexOf_lt hi
    simp only [indexOf_append hi, deref, List.getD_append _ _ _ _ hlt]
    exact ⟨trivial, trivial⟩

/-- The new symbol is found. -/
theorem find_declare (hname : x.length ≤ symNameMax) (hfresh : t.findLocal x = .null)
    (hroom : t.locals.length < symMaxLocal) : (t.declare x).find x = .loc t.locals.length := by
  rw [declare_eq hroom, find_eq_loc, indexOf_concat]
  exact ⟨List.take_of_length_le hname, findLocal_eq_null.mp hfresh⟩

theorem deref_declare (hroom : t.locals.length < symMaxLocal) :
    (t.declare x).deref (.loc t.locals.length) = t.declared x := by
  rw [declare_eq hroom]
  simp [deref]

theorem local_declare (hname : x.length ≤ symNameMax) (hfresh : t.findLocal x = .null)
    (hroom : t.locals.length < symMaxLocal) : (t.declare x).Local x := by
  have hfind := find_declare hname hfresh hroom
  have hsym : (t.declare x).deref ((t.declare x).find x) = t.declared x := by rw [hfind, deref_declare hroom]
  refine ⟨⟨hname, hfind ▸ nofun, ?_, ?_, ?_⟩, fun hnull => ?_, ?_⟩
  · rw [hsym]
    exact Int.le_refl 0
  · rw [hsym]
    nofun
  · rw [hsym]
    rfl
  · rw [findLocal_eq_null, find_eq_loc.mp hfind] at hnull
    cases hnull
  · rw [hsym]
    rfl

end Symbols

/-- A declaration for which there is room. -/
def Symbols.Declares (t t' : Symbols) : Prop := t.locals.length < symMaxLocal ∧ ∃ x, t' = t.declare x

/-- Declarations, one after the other. -/
abbrev Symbols.Grows : Symbols → Symbols → Prop := Relation.ReflTransGen Symbols.Declares

theorem grows_declTable {ds : List Declarator} {t : Symbols} (h : DeclValid t ds) : t.Grows (declTable t ds) := by
  induction ds generalizing t with
  | nil => exact .refl
  | cons d ds ih =>
    obtain ⟨hd, hds⟩ := h
    exact (ih hds).head ⟨hd.room, d.name, rfl⟩

mutual

/-- The table grows along a statement. -/
theorem Stmt.grows (s : Stmt) {t : Symbols} {l : Nat} (h : s.Valid t l) : t.Grows (s.table t) := by
  cases s with
  | empty | act | breakStmt | continueStmt | returnStmt => exact .refl
  | decl d ds => exact grows_declTable h
  | block b => exact b.grows h
  | ifThen a s => exact s.grows h.2
  | ifElse a s₁ s₂ => exact (s₁.grows h.2.2.1).trans (s₂.grows h.2.2.2)
  | whileLoop a s => exact s.grows h.2.2
  | doLoop s a => exact s.grows h.2.1
  | forLoop init cond step s => exact s.grows h.2.2.2.2

theorem Block.grows (b : Block) {t : Symbols} {l : Nat} (h : b.Valid t l) : t.Grows (b.table t) := by
  cases b with
  | nil => exact .refl
  | cons s b => exact (s.grows h.1).trans (b.grows h.2)

end

theorem Symbols.Grows.below {t t' : Symbols} (h : t.Grows t') : t.Below t' := by
  induction h with
  | refl => exact .refl t
  | tail _ hstep ih =>
    obtain ⟨hroom, x, rfl⟩ := hstep
    exact ih.trans (below_declare hroom)

/-! ### How statements end -/

mutual

/-- A statement jumps out of a loop only where there is one around it. -/
theorem Stmt.jumps (s : Stmt) {t : Symbols} {l fuel : Nat} {σ σ' : Store} {x : Exit (Option Word)} (h : s.Valid t l)
    (hx : s.exec fuel σ = some (x, σ')) (hjumps : x.jumps = true) : 0 < l := by
  cases s with
  | empty =>
    cases hx
    cases hjumps
  | act | decl =>
    obtain ⟨r, -, heq⟩ := Option.map_eq_some_iff.mp hx
    cases heq
    cases hjumps
  | block b => exact b.jumps h hx hjumps
  | ifThen a s =>
    obtain ⟨⟨go, σ₁⟩, -, hx⟩ := Option.bind_eq_some_iff.mp hx
    cases go with
    | true => exact s.jumps h.2 hx hjumps
    | false =>
      cases hx
      cases hjumps
  | ifElse a s₁ s₂ =>
    obtain ⟨⟨go, σ₁⟩, -, hx⟩ := Option.bind_eq_some_iff.mp hx
    cases go with
    | true => exact s₁.jumps h.2.2.1 hx hjumps
    | false => exact s₂.jumps h.2.2.2 hx hjumps
  | whileLoop a s => exact absurd hjumps (Bool.eq_false_iff.mp (rounds_jumps hx))
  | doLoop s a =>
    obtain ⟨⟨y, σ₁⟩, -, hx⟩ := Option.bind_eq_some_iff.mp hx
    cases hagain : y.again with
    | true =>
      rw [if_pos hagain] at hx
      exact absurd hjumps (Bool.eq_false_iff.mp (rounds_jumps hx))
    | false =>
      rw [if_neg (Bool.eq_false_iff.mp hagain)] at hx
      cases hx
      exact absurd hjumps (Bool.eq_false_iff.mp y.jumps_ofLoop)
  | forLoop init cond step s =>
    obtain ⟨σ₁, -, hx⟩ := Option.bind_eq_some_iff.mp hx
    exact absurd hjumps (Bool.eq_false_iff.mp (rounds_jumps hx))
  | breakStmt | continueStmt => exact h
  | returnStmt a =>
    cases a with
    | none =>
      cases hx
      cases hjumps
    | some a =>
      obtain ⟨r, -, heq⟩ := Option.map_eq_some_iff.mp hx
      cases heq
      cases hjumps

theorem Block.jumps (b : Block) {t : Symbols} {l fuel : Nat} {σ σ' : Store} {x : Exit (Option Word)} (h : b.Valid t l)
    (hx : b.exec fuel σ = some (x, σ')) (hjumps : x.jumps = true) : 0 < l := by
  cases b with
  | nil =>
    cases hx
    cases hjumps
  | cons s b =>
    obtain ⟨⟨y, σ₁⟩, hfirst, hx⟩ := Option.bind_eq_some_iff.mp hx
    by_cases hy : y = .next
    · rw [if_pos hy] at hx
      exact b.jumps h.2 hx hjumps
    · rw [if_neg hy] at hx
      cases hx
      exact s.jumps h.1 hfirst hjumps

end

end RainbowOs.Cc
