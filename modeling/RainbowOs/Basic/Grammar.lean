import RainbowOs.Basic.Division
import RainbowOs.Basic.Indexed
import RainbowOs.Basic.LineNumbers

/-!
# The grammar of numbers

`apps/basic/expr.c` has one function for each level of precedence. Here an
expression on numbers is a tree, `NumExpr.eval` says what it is worth and
`Written` how its tokens may stand in a line, at each level. A level reads
its first operand at the level below and goes on with the operators that
are its own: `restAt` is that second part. `parsed_of_written` carries the
reading through the tree, with the rounds of the loop that are left open,
so that an operator of the same level may follow; `expr_evaluates` closes
it at the outermost level.
-/

namespace RainbowOs.Basic

open RainbowOs.Lib
open Prog (Goes get modify tell halt bind_run_quiet get_bind_run modify_bind_run tell_bind_run)

/-! ## Expressions -/

/-- The binary operators on numbers. -/
inductive NumOp where
  | mul | div | mod | add | sub | eq | ne | lt | gt | le | ge | and | or
  deriving DecidableEq, Repr

/-- The number of a condition. -/
def condition (b : Bool) : Int := if b then -1 else 0

namespace NumOp

/-- The token of an operator. -/
def tok : NumOp → UInt8
  | mul => 42
  | div => 47
  | mod => Tok.mod
  | add => 43
  | sub => 45
  | eq => 61
  | ne => Tok.ne
  | lt => 60
  | gt => 62
  | le => Tok.le
  | ge => Tok.ge
  | and => Tok.and
  | or => Tok.or

/-- The level of an operator: the lower it is, the closer the operator binds. -/
def level : NumOp → Nat
  | mul | div | mod => 1
  | add | sub => 2
  | eq | ne | lt | gt | le | ge => 3
  | and => 4
  | or => 5

/-- The level of the left operand. The operators associate to the left, save that there is one
comparison. -/
def left (op : NumOp) : Nat := if op.level = 3 then 2 else op.level

/-- The value on two numbers, where there is one: a division by zero has none. -/
def apply : NumOp → Int → Int → Option Int
  | mul, a, b => some (i32 (a * b))
  | div, a, b => if b = 0 then none else some (a.tdiv b)
  | mod, a, b => if b = 0 then none else some (a.tmod b)
  | add, a, b => some (i32 (a + b))
  | sub, a, b => some (i32 (a - b))
  | eq, a, b => some (condition (a = b))
  | ne, a, b => some (condition (a ≠ b))
  | lt, a, b => some (condition (a < b))
  | gt, a, b => some (condition (a > b))
  | le, a, b => some (condition (a ≤ b))
  | ge, a, b => some (condition (a ≥ b))
  | and, a, b => some (condition (a ≠ 0 ∧ b ≠ 0))
  | or, a, b => some (condition (a ≠ 0 ∨ b ≠ 0))

end NumOp

/-- An expression on numbers; a variable is one of the 26 letters. -/
inductive NumExpr where
  | lit (n : Int)
  | var (letter : Fin 26)
  | neg (a : NumExpr)
  | not (a : NumExpr)
  | bin (op : NumOp) (a b : NumExpr)
  deriving DecidableEq, Repr

namespace NumExpr

/-- The value of an expression, with both operands of every operator evaluated. It has none if there
is a division by zero. -/
def eval (vars : Fin 26 → Int) : NumExpr → Option Int
  | lit n => some n
  | var letter => some (vars letter)
  | neg a => (a.eval vars).map fun x => i32 (-x)
  | not a => (a.eval vars).map fun x => if x ≠ 0 then 0 else 1
  | bin op a b => (a.eval vars).bind fun x => (b.eval vars).bind fun y => op.apply x y

/-- The least number is not divided by -1. -/
def NoOverflow (vars : Fin 26 → Int) : NumExpr → Prop
  | lit _ | var _ => True
  | neg a | not a => a.NoOverflow vars
  | bin op a b => a.NoOverflow vars ∧ ∀ x, a.eval vars = some x → b.NoOverflow vars ∧
      (op = .div ∨ op = .mod → x = -2147483648 → b.eval vars ≠ some (-1))

end NumExpr

/-- The tokens of an expression, written as an operand of a level: 0 is that of `parse_primary`, 5
that of `parse_or`. There may be blanks before every token. -/
inductive Written : Nat → NumExpr → List UInt8 → Prop where
  | lit {n : Int} (h : -2147483648 ≤ n ∧ n < 2147483648) : Written 0 (.lit n) (Tok.num :: numBytes n)
  | var {c : UInt8} {letter : Fin 26} (hc : isAlpha c = true) (h : plainSlot c = letter) :
      Written 0 (.var letter) [c]
  | neg {a : NumExpr} {s : List UInt8} (h : Written 0 a s) : Written 0 (.neg a) (45 :: s)
  | not {a : NumExpr} {s : List UInt8} (h : Written 0 a s) : Written 0 (.not a) (Tok.not :: s)
  | paren {a : NumExpr} {s : List UInt8} (blanks : Nat) (h : Written 5 a s) :
      Written 0 a (40 :: (s ++ (List.replicate blanks 32 ++ [41])))
  | blank {a : NumExpr} {s : List UInt8} (h : Written 0 a s) : Written 0 a (32 :: s)
  | up {l : Nat} {a : NumExpr} {s : List UInt8} (hl : l < 5) (h : Written l a s) : Written (l + 1) a s
  | bin (op : NumOp) {a b : NumExpr} {s s' : List UInt8} (blanks : Nat) (ha : Written op.left a s)
      (hb : Written (op.level - 1) b s') :
      Written op.level (.bin op a b) (s ++ (List.replicate blanks 32 ++ op.tok :: s'))

/-- The literals are numbers of 32 bits. -/
def NumExpr.Literals : NumExpr → Prop
  | .lit n => -2147483648 ≤ n ∧ n < 2147483648
  | .var _ => True
  | .neg a | .not a => a.Literals
  | .bin _ a b => a.Literals ∧ b.Literals

theorem NumOp.level_bounds (op : NumOp) : 1 ≤ op.level ∧ op.level ≤ 5 := by
  cases op <;> decide

theorem NumOp.tok_facts (op : NumOp) : op.tok ≠ 32 ∧ op.tok ≠ 36 ∧ isDigit op.tok = false ∧ op.tok ≠ 41 := by
  cases op <;> decide

theorem NumOp.tok_inj {op op' : NumOp} (h : op.tok = op'.tok) : op = op' := by
  revert h
  cases op <;> cases op' <;> decide

/-- What is written at a level may stand at any above. -/
theorem Written.mono {l l' : Nat} {a : NumExpr} {s : List UInt8} (h : Written l a s) (hle : l ≤ l')
    (hl' : l' ≤ 5) : Written l' a s := by
  induction hle with
  | refl => exact h
  | step hle ih => exact .up hl' (ih (Nat.le_of_succ_le hl'))

/-- Every expression can be written, at every level. -/
theorem exists_written (a : NumExpr) (h : a.Literals) : ∃ s, Written 0 a s := by
  have hparen : ∀ {l : Nat} {a : NumExpr} {s : List UInt8}, Written l a s → l ≤ 5 → ∃ s, Written 0 a s :=
    fun h hl => ⟨_, .paren 0 (h.mono hl (Nat.le_refl 5))⟩
  induction a with
  | lit n => exact ⟨_, .lit h⟩
  | var letter =>
    have hletters : ∀ i : Fin 26, isAlpha (65 + UInt8.ofNat i) = true ∧ plainSlot (65 + UInt8.ofNat i) = i := by
      decide
    exact ⟨_, .var (hletters letter).1 (hletters letter).2⟩
  | neg a ih =>
    obtain ⟨s, hs⟩ := ih h
    exact ⟨_, .neg hs⟩
  | not a ih =>
    obtain ⟨s, hs⟩ := ih h
    exact ⟨_, .not hs⟩
  | bin op a b iha ihb =>
    obtain ⟨s, hs⟩ := iha h.1
    obtain ⟨s', hs'⟩ := ihb h.2
    have hleft : op.left ≤ 5 := by cases op <;> decide
    have hright : op.level - 1 ≤ 5 := Nat.le_trans (Nat.sub_le _ 1) op.level_bounds.2
    exact hparen (.bin op 0 (hs.mono (Nat.zero_le _) hleft) (hs'.mono (Nat.zero_le _) hright)) op.level_bounds.2

/-! ## Levels -/

namespace Eval

section Levels

variable (t : Tokens) (len : Nat) (vars : Vars) (ram : Bytes) (n : Nat)

/-- The function of a level. -/
def parseAt : Nat → EvalM Value
  | 0 => parsePrimary t len vars ram n
  | 1 => parseMul t len (parsePrimary t len vars ram n) n
  | 2 => parseAdd t len (parsePrimary t len vars ram n) n
  | 3 => parseCompare t len (parsePrimary t len vars ram n) n
  | 4 => parseAnd t len (parsePrimary t len vars ram n) n
  | _ => parseOr t len (parsePrimary t len vars ram n) n

/-- What `parse_compare` does after its first operand. -/
def compareRest (add : EvalM Value) (left : Value) : EvalM Value := do
  skip t len
  let tok ← peek t len
  if tok = 61 ∨ tok = 60 ∨ tok = 62 ∨ tok = Tok.le ∨ tok = Tok.ge ∨ tok = Tok.ne then
    advance 1
    let right ← add
    if (← get).error then return .num 0
    else match left, right with
      | .str a, .str b => return compare tok (strcmp (cstr a) (cstr b))
      | .num a, .num b => return compare tok (a - b)
      | _, _ => fail
  else return left

/-- What a level does after its first operand, in `m` rounds. -/
def restAt : Nat → Nat → Value → EvalM Value
  | 0, _, left => pure left
  | 1, m, left => mulLoop t len (parseAt t len vars ram n 0) m left
  | 2, m, left => addLoop t len (parseAt t len vars ram n 1) m left
  | 3, _, left => compareRest t len (parseAt t len vars ram n 2) left
  | 4, m, left => logicLoop t len Tok.and and (parseAt t len vars ram n 3) m left
  | _, m, left => logicLoop t len Tok.or or (parseAt t len vars ram n 4) m left

/-- A level is the one below with what comes after it. -/
theorem parseAt_succ {l : Nat} (hl : l < 5) : parseAt t len vars ram n (l + 1) =
    (parseAt t len vars ram n l >>= fun left => get >>= fun e =>
      if e.error then pure left else restAt t len vars ram n (l + 1) n left) := by
  match l with
  | 0 | 1 | 2 | 3 | 4 => rfl

/-- An expression ends at a position for the levels up to `l`: there is no operator of these, nor a
character that would belong to the name of a variable. -/
structure ExprEnds (l pos : Nat) : Prop where
  dollar : peekTok t len pos ≠ 36
  digit : isDigit (peekTok t len pos) = false
  operator : ∀ op : NumOp, op.level ≤ l → peekTok t len (skipSp t len pos) ≠ op.tok

end Levels

variable {t : Tokens} {len : Nat} {vars : Vars} {ram : Bytes} {n : Nat} {e : Eval} {pos : Nat}

theorem ExprEnds.mono {l l' : Nat} (h : ExprEnds t len l pos) (hle : l' ≤ l) : ExprEnds t len l' pos :=
  { h with operator := fun op hop => h.operator op (Nat.le_trans hop hle) }

/-- Where an expression ends, a level is done. -/
theorem restAt_end {l : Nat} (hl : l < 5) (h : ExprEnds t len (l + 1) pos) (m : Nat) (left : Value) :
    restAt t len vars ram n (l + 1) (m + 1) left (e.at pos) =
      ⟨.done left, e.at (skipSp t len pos), []⟩ := by
  have hop := fun op hop => h.operator op hop
  obtain rfl | rfl | rfl | rfl | rfl : l = 0 ∨ l = 1 ∨ l = 2 ∨ l = 3 ∨ l = 4 := by omega
  · have hnot : ¬(peekTok t len (skipSp t len pos) = 42 ∨ peekTok t len (skipSp t len pos) = 47 ∨
        peekTok t len (skipSp t len pos) = Tok.mod) := by
      rintro (heq | heq | heq)
      · exact hop .mul (by decide) heq
      · exact hop .div (by decide) heq
      · exact hop .mod (by decide) heq
    show mulLoop t len _ (m + 1) left (e.at pos) = _
    rw [mulLoop, bind_run_quiet (skip_at pos), bind_run_quiet (peek_at _), if_neg hnot]
    rfl
  · have hnot : ¬(peekTok t len (skipSp t len pos) = 43 ∨ peekTok t len (skipSp t len pos) = 45) := by
      rintro (heq | heq)
      · exact hop .add (by decide) heq
      · exact hop .sub (by decide) heq
    show addLoop t len _ (m + 1) left (e.at pos) = _
    rw [addLoop, bind_run_quiet (skip_at pos), bind_run_quiet (peek_at _), if_neg hnot]
    rfl
  · have hnot : ¬(peekTok t len (skipSp t len pos) = 61 ∨ peekTok t len (skipSp t len pos) = 60 ∨
        peekTok t len (skipSp t len pos) = 62 ∨ peekTok t len (skipSp t len pos) = Tok.le ∨
        peekTok t len (skipSp t len pos) = Tok.ge ∨ peekTok t len (skipSp t len pos) = Tok.ne) := by
      rintro (heq | heq | heq | heq | heq | heq)
      · exact hop .eq (by decide) heq
      · exact hop .lt (by decide) heq
      · exact hop .gt (by decide) heq
      · exact hop .le (by decide) heq
      · exact hop .ge (by decide) heq
      · exact hop .ne (by decide) heq
    show compareRest t len _ left (e.at pos) = _
    rw [compareRest, bind_run_quiet (skip_at pos), bind_run_quiet (peek_at _), if_neg hnot]
    rfl
  · have hnot : peekTok t len (skipSp t len pos) ≠ Tok.and := hop .and (by decide)
    show logicLoop t len Tok.and and _ (m + 1) left (e.at pos) = _
    rw [logicLoop, bind_run_quiet (skip_at pos), bind_run_quiet (peek_at _), if_neg hnot]
    rfl
  · have hnot : peekTok t len (skipSp t len pos) ≠ Tok.or := hop .or (by decide)
    show logicLoop t len Tok.or or _ (m + 1) left (e.at pos) = _
    rw [logicLoop, bind_run_quiet (skip_at pos), bind_run_quiet (peek_at _), if_neg hnot]
    rfl

/-- Blanks do not matter to what comes after an operand. -/
theorem restAt_skip {l : Nat} (hl : l < 5) (m : Nat) (left : Value) (pos : Nat) :
    restAt t len vars ram n (l + 1) (m + 1) left (e.at (skipSp t len pos)) =
      restAt t len vars ram n (l + 1) (m + 1) left (e.at pos) := by
  have hskip : skip t len (e.at (skipSp t len pos)) = ⟨.done (), e.at (skipSp t len pos), []⟩ := by
    rw [skip_at, skipSp_skipSp]
  have hbind : ∀ f : Unit → EvalM Value, (skip t len >>= f) (e.at (skipSp t len pos)) =
      (skip t len >>= f) (e.at pos) := fun f => by
    rw [bind_run_quiet hskip, bind_run_quiet (skip_at pos)]
  obtain rfl | rfl | rfl | rfl | rfl : l = 0 ∨ l = 1 ∨ l = 2 ∨ l = 3 ∨ l = 4 := by omega
  all_goals exact hbind _

variable (t len vars ram n) in
/-- What a level does with the two operands of an operator. -/
def operate (op : NumOp) (m : Nat) (x y : Int) : EvalM Value :=
  if op.level = 1 then do
    let v ← arith op.tok x y
    if (← get).error then return v else restAt t len vars ram n 1 m v
  else if op.level = 2 then
    restAt t len vars ram n 2 m (.num (i32 (if op.tok = 43 then x + y else x - y)))
  else if op.level = 3 then return compare op.tok (x - y)
  else if op.level = 4 then restAt t len vars ram n 4 m (.num (if x ≠ 0 && y ≠ 0 then -1 else 0))
  else restAt t len vars ram n 5 m (.num (if x ≠ 0 || y ≠ 0 then -1 else 0))

/-- At an operator its right operand is read at the level below. -/
theorem restAt_operator {op : NumOp} {q : Nat} (hop : peekTok t len (skipSp t len pos) = op.tok)
    (hq : adv (skipSp t len pos) 1 = q) (m : Nat) (x : Int) :
    ∃ f : Value → EvalM Value, restAt t len vars ram n op.level (m + 1) (.num x) (e.at pos) =
      (parseAt t len vars ram n (op.level - 1) >>= fun right => get >>= fun e =>
        if e.error then pure (.num 0) else f right) (e.at q) ∧
      ∀ y, f (.num y) = operate t len vars ram n op m x y := by
  subst hq
  cases op with
  | mul | div | mod =>
    constructor
    constructor
    · show mulLoop t len _ (m + 1) _ (e.at pos) = _
      rw [mulLoop, bind_run_quiet (skip_at pos), bind_run_quiet (peek_at _), hop, if_pos (by decide),
        bind_run_quiet (advance_at _ 1)]
      rfl
    · exact fun _ => rfl
  | add | sub =>
    constructor
    constructor
    · show addLoop t len _ (m + 1) _ (e.at pos) = _
      rw [addLoop, bind_run_quiet (skip_at pos), bind_run_quiet (peek_at _), hop, if_pos (by decide),
        bind_run_quiet (advance_at _ 1)]
      rfl
    · exact fun _ => rfl
  | eq | ne | lt | gt | le | ge =>
    constructor
    constructor
    · show compareRest t len _ _ (e.at pos) = _
      rw [compareRest, bind_run_quiet (skip_at pos), bind_run_quiet (peek_at _), hop, if_pos (by decide),
        bind_run_quiet (advance_at _ 1)]
      rfl
    · exact fun _ => rfl
  | and | or =>
    constructor
    constructor
    · show logicLoop t len _ _ _ (m + 1) _ (e.at pos) = _
      rw [logicLoop, bind_run_quiet (skip_at pos), bind_run_quiet (peek_at _), hop, if_pos (by decide),
        bind_run_quiet (advance_at _ 1)]
      rfl
    · exact fun _ => rfl

/-- A program comes to an error of the expression. -/
def Errs (p : EvalM Value) (e : Eval) : Prop :=
  ∃ v e', Goes p e (pure v) e' ∧ e'.error = true

theorem Errs.of_goes {p q : EvalM Value} {e e' : Eval} (h : Goes p e q e') (herr : Errs q e') : Errs p e := by
  obtain ⟨v, e'', hgoes, herror⟩ := herr
  exact ⟨v, e'', h.trans hgoes, herror⟩

/-- What follows an error keeps it, if it only returns. -/
theorem Errs.bind {p : EvalM Value} {f : Value → EvalM Value} {e : Eval} (h : Errs p e)
    (hf : ∀ v e', e'.error = true → Errs (f v) e') : Errs (p >>= f) e := by
  obtain ⟨v, e', hgoes, herror⟩ := h
  exact (hf v e' herror).of_goes (hgoes.bind_pure f)

theorem errs_fail (e : Eval) : Errs fail e := ⟨.num 0, { e with error := true }, .of_eq rfl, rfl⟩

/-- Where an operand has a value, it is handed on. -/
theorem goes_guarded {p : EvalM Value} {e e' : Eval} {v : Value} (g : Value → Value) (f : Value → EvalM Value)
    (h : Goes p e (pure v) e') (he : e'.error = false) :
    Goes (p >>= fun v => get >>= fun e => if e.error then pure (g v) else f v) e (f v) e' := by
  refine (h.bind_pure _).trans (.of_eq ?_)
  rw [get_bind_run, if_neg (by rw [he]; decide)]

/-- An operand that is an error is the last one. -/
theorem errs_guarded {p : EvalM Value} {e : Eval} (g : Value → Value) (f : Value → EvalM Value) (h : Errs p e) :
    Errs (p >>= fun v => get >>= fun e => if e.error then pure (g v) else f v) e := by
  refine h.bind fun v e' herror => ⟨g v, e', .of_eq ?_, herror⟩
  rw [get_bind_run, if_pos herror]

theorem arith_apply {op : NumOp} {x y z : Int} (hop : op.level = 1) (hz : op.apply x y = some z)
    (hover : op = .div ∨ op = .mod → x = -2147483648 → y ≠ -1) (e : Eval) :
    Goes (arith op.tok x y) e (pure (.num z)) e := by
  have hdivide : ∀ {q : Int} {tok : UInt8}, tok ≠ 42 → (x = -2147483648 → y ≠ -1) →
      (if y = 0 then none else some q) = some z → (if tok = 47 then x.tdiv y else x.tmod y) = q →
      Goes (arith tok x y) e (pure (.num z)) e := by
    rintro q tok htok hover hz rfl
    split at hz
    · cases hz
    next hy =>
    cases hz
    exact ⟨[.divide x y], arith_divide htok hy (fun h => hover h.1 h.2) e⟩
  cases op with
  | mul =>
    cases hz
    exact .of_eq rfl
  | div => exact hdivide (by decide) (hover (.inl rfl)) hz rfl
  | mod => exact hdivide (by decide) (hover (.inr rfl)) hz rfl
  | add | sub | eq | ne | lt | gt | le | ge | and | or => cases hop

/-- A comparison looks at the difference of its operands. -/
theorem compare_apply {op : NumOp} {x y z : Int} (hop : op.level = 3) (hz : op.apply x y = some z) :
    compare op.tok (x - y) = .num z := by
  have hcondition : ∀ (p q : Prop) [Decidable p] [Decidable q], (p ↔ q) → some (condition q) = some z →
      Value.num (if decide p then -1 else 0) = .num z := by
    intro p q _ _ hiff hz
    cases hz
    rw [condition, decide_eq_decide.mpr hiff]
  cases op with
  | eq => exact hcondition (x - y = 0) (x = y) (by omega) hz
  | ne => exact hcondition (x - y ≠ 0) (x ≠ y) (by omega) hz
  | lt => exact hcondition (x - y < 0) (x < y) (by omega) hz
  | gt => exact hcondition (x - y > 0) (x > y) (by omega) hz
  | le => exact hcondition (x - y ≤ 0) (x ≤ y) (by omega) hz
  | ge => exact hcondition (x - y ≥ 0) (x ≥ y) (by omega) hz
  | mul | div | mod | add | sub | and | or => cases hop

/-- The two operands of an operator come to its value. -/
theorem operate_some {op : NumOp} {x y z : Int} (hz : op.apply x y = some z)
    (hover : op = .div ∨ op = .mod → x = -2147483648 → y ≠ -1) (he : e.error = false) (m : Nat) :
    Goes (operate t len vars ram n op m x y) e
      (if op.level = 3 then pure (.num z) else restAt t len vars ram n op.level m (.num z)) e := by
  cases op with
  | mul | div | mod =>
    exact goes_guarded id _ (arith_apply rfl hz hover e) he
  | add | sub =>
    cases hz
    exact .refl _ e
  | eq | ne | lt | gt | le | ge =>
    have hcompare := compare_apply rfl hz
    exact .of_eq (congrArg (fun v => (pure v : EvalM Value) e) hcompare)
  | and =>
    cases hz
    rw [condition, Bool.decide_and]
    exact .refl _ e
  | or =>
    cases hz
    rw [condition, Bool.decide_or]
    exact .refl _ e

/-- A division by zero is an error. -/
theorem operate_none {op : NumOp} {x y : Int} (hz : op.apply x y = none) (m : Nat) (e : Eval) :
    Errs (operate t len vars ram n op m x y) e := by
  have hzero : ∀ tok : UInt8, tok ≠ 42 → y = 0 → Errs (arith tok x y) e := fun tok htok hy => by
    subst hy
    exact ⟨.num 0, { e with error := true }, ⟨[.refuse x], arith_zero htok x e⟩, rfl⟩
  cases op with
  | div | mod =>
    have hy : y = 0 := by
      refine Decidable.byContradiction fun hy => ?_
      rw [NumOp.apply, if_neg hy] at hz
      cases hz
    exact errs_guarded id _ (hzero _ (by decide) hy)
  | mul | add | sub | eq | ne | lt | gt | le | ge | and | or => cases hz

/-! ## The tree -/

variable (t len vars ram e) in
/-- A level reads an expression between two positions: it comes to the value with some rounds of its
loop gone, or to an error where there is no value. -/
def Parses (l : Nat) (a : NumExpr) (p q : Nat) : Prop :=
  ∃ k bound, ∀ n, bound ≤ n → k < n ∧
    (∀ x, a.eval (fun i => vars.nums i) = some x →
      Goes (parseAt t len vars ram n l) (e.at p) (restAt t len vars ram n l (n - k) (.num x)) (e.at q)) ∧
    (a.eval (fun i => vars.nums i) = none → Errs (parseAt t len vars ram n l) (e.at p))

/-- The level to which an expression of a level has to end: at the level of the comparisons there is
no second one. -/
def reach (l : Nat) : Nat := if l = 3 then 3 else l - 1

/-- Where the expression ends, the level is done. -/
theorem Parses.closed {l : Nat} {a : NumExpr} {p q : Nat} (hl : l ≤ 5) (h : Parses t len vars ram e l a p q)
    (hends : ExprEnds t len l q) : ∃ q' bound, skipSp t len q' = skipSp t len q ∧ (l = 0 → q' = q) ∧
      (l ≠ 0 → skipSp t len q' = q') ∧
      ∀ n, bound ≤ n →
        (∀ x, a.eval (fun i => vars.nums i) = some x →
          Goes (parseAt t len vars ram n l) (e.at p) (pure (.num x)) (e.at q')) ∧
        (a.eval (fun i => vars.nums i) = none → Errs (parseAt t len vars ram n l) (e.at p)) := by
  obtain ⟨k, bound, hparse⟩ := h
  cases l with
  | zero =>
    exact ⟨q, bound, rfl, fun _ => rfl, fun h => absurd rfl h, fun n hn => (hparse n hn).2⟩
  | succ l =>
    refine ⟨skipSp t len q, bound, skipSp_skipSp q, fun h => absurd h l.succ_ne_zero,
      fun _ => skipSp_skipSp q, fun n hn => ⟨fun x hx => ?_, (hparse n hn).2.2⟩⟩
    obtain ⟨hk, hgoes, -⟩ := hparse n hn
    obtain ⟨m, hm⟩ : ∃ m, n - k = m + 1 := ⟨n - k - 1, by omega⟩
    refine (hgoes x hx).trans (.of_eq ?_)
    rw [hm]
    exact restAt_end hl hends m _

/-- A level may be left at once, for the next one. -/
theorem Parses.up {l : Nat} {a : NumExpr} {p q : Nat} (hl : l < 5) (h : Parses t len vars ram e l a p q)
    (hends : ExprEnds t len l q) (he : e.error = false) : Parses t len vars ram e (l + 1) a p q := by
  obtain ⟨q', bound, hskip, -, -, hclosed⟩ := h.closed (Nat.le_of_lt hl) hends
  refine ⟨0, bound + 1, fun n hn => ⟨by omega, fun x hx => ?_, fun hx => ?_⟩⟩
  · obtain ⟨m, rfl⟩ : ∃ m, n = m + 1 := ⟨n - 1, by omega⟩
    have hrest : restAt t len vars ram (m + 1) (l + 1) (m + 1) (.num x) (e.at q') =
        restAt t len vars ram (m + 1) (l + 1) (m + 1) (.num x) (e.at q) := by
      rw [← restAt_skip hl _ _ q', hskip, restAt_skip hl]
    rw [parseAt_succ _ _ _ _ _ hl]
    exact (goes_guarded id _ ((hclosed (m + 1) (by omega)).1 x hx) he).trans (.of_eq hrest)
  · rw [parseAt_succ _ _ _ _ _ hl]
    exact errs_guarded id _ ((hclosed n (by omega)).2 hx)

theorem reach_bounds {l : Nat} (hl : 1 ≤ l) : l - 1 ≤ reach l ∧ reach (l - 1) ≤ reach l := by
  unfold reach
  constructor
  · split <;> omega
  · split <;> split <;> omega

/-- An operator takes the operand that has been read, and reads its own. -/
theorem Parses.bin {op : NumOp} {a b : NumExpr} {p q₁ q₂ q : Nat}
    (ha : Parses t len vars ram e op.level a p q₁) (hop : peekTok t len (skipSp t len q₁) = op.tok)
    (hq₂ : adv (skipSp t len q₁) 1 = q₂)
    (hb : ∀ x, a.eval (fun i => vars.nums i) = some x → Parses t len vars ram e (op.level - 1) b q₂ q)
    (hends : ExprEnds t len (reach op.level) q) (he : e.error = false)
    (hover : ∀ x, a.eval (fun i => vars.nums i) = some x → op = .div ∨ op = .mod → x = -2147483648 →
      b.eval (fun i => vars.nums i) ≠ some (-1)) :
    Parses t len vars ram e op.level (.bin op a b) p q := by
  have hbounds := op.level_bounds
  obtain ⟨k, bound, hparse⟩ := ha
  cases hx : a.eval (fun i => vars.nums i) with
  | none =>
    refine ⟨k, bound, fun n hn => ⟨(hparse n hn).1, fun z hz => ?_, fun _ => (hparse n hn).2.2 hx⟩⟩
    rw [NumExpr.eval, hx] at hz
    cases hz
  | some x =>
  obtain ⟨q', bound', hskip, -, hstay, hclosed⟩ := (hb x hx).closed (by omega)
    (hends.mono (reach_bounds hbounds.1).1)
  refine ⟨k + 1, max (bound + 1) bound', fun n hn => ?_⟩
  obtain ⟨hk, hleft, -⟩ := hparse n (by omega)
  obtain ⟨hright, hrighterr⟩ := hclosed n (by omega)
  have hk' : k < n - 1 := (hparse (n - 1) (by omega)).1
  obtain ⟨m, hm⟩ : ∃ m, n - k = m + 1 + 1 := ⟨n - k - 2, by omega⟩
  have hm' : n - (k + 1) = m + 1 := by omega
  obtain ⟨f, hoperator, hf⟩ : ∃ f : Value → EvalM Value,
      restAt t len vars ram n op.level (n - k) (.num x) (e.at q₁) =
        (parseAt t len vars ram n (op.level - 1) >>= fun right => get >>= fun e =>
          if e.error then pure (.num 0) else f right) (e.at q₂) ∧
      ∀ y, f (.num y) = operate t len vars ram n op (m + 1) x y := by
    rw [hm]
    exact restAt_operator hop hq₂ (m + 1) x
  have hleft : Goes (parseAt t len vars ram n op.level) (e.at p) _ (e.at q₂) :=
    (hleft x hx).trans (.of_eq hoperator)
  -- the value goes back to the loop, where blanks do not matter
  have hback : ∀ z : Int, (if op.level = 3 then pure (.num z) else
      restAt t len vars ram n op.level (m + 1) (.num z)) (e.at q') =
      restAt t len vars ram n op.level (m + 1) (.num z) (e.at q) := fun z => by
    obtain ⟨l, hl⟩ : ∃ l, op.level = l + 1 := ⟨op.level - 1, by omega⟩
    have hl5 : l < 5 := by omega
    by_cases h3 : op.level = 3
    · have hq' : q' = skipSp t len q := (hstay (by omega)).symm.trans hskip
      have hends3 : ExprEnds t len 3 q := by
        rw [h3] at hends
        exact hends
      rw [if_pos h3, h3, hq']
      exact (restAt_end (l := 2) (by decide) hends3 m _).symm
    · rw [if_neg h3, hl, ← restAt_skip hl5 _ _ q', hskip, restAt_skip hl5]
  have heval : (NumExpr.bin op a b).eval (fun i => vars.nums i) =
      (b.eval fun i => vars.nums i).bind fun y => op.apply x y := by
    rw [NumExpr.eval, hx]
    rfl
  rw [heval, hm']
  refine ⟨by omega, fun z hz => ?_, fun hnone => ?_⟩
  · obtain ⟨y, hy, hz⟩ := Option.bind_eq_some_iff.mp hz
    have hvalue : Goes (operate t len vars ram n op (m + 1) x y) (e.at q') _ (e.at q') :=
      operate_some (e := e.at q') hz (fun h hx' hy' => hover x hx h hx' (hy' ▸ hy)) he (m + 1)
    rw [← hf] at hvalue
    have hoperand := (goes_guarded (fun _ => .num 0) f (hright y hy) he).trans hvalue
    exact hleft.trans (hoperand.trans (.of_eq (hback z)))
  · refine .of_goes hleft ?_
    cases hy : b.eval (fun i => vars.nums i) with
    | none => exact errs_guarded (fun _ => .num 0) f (hrighterr hy)
    | some y =>
      rw [hy] at hnone
      refine .of_goes (goes_guarded (fun _ => .num 0) f (hright y hy) he) ?_
      rw [hf]
      exact operate_none hnone (m + 1) (e.at q')

/-! ## Operands -/

/-- The bytes are in the tokens from a position on, and in the line. -/
structure Stands (t : Tokens) (len p : Nat) (s : List UInt8) : Prop where
  bytes : t.mem.slice (t.addr + p) s.length = s
  fits : p + s.length ≤ len

theorem Stands.cons {p : Nat} {c : UInt8} {s : List UInt8} (h : Stands t len p (c :: s)) :
    peekTok t len p = c ∧ p < len ∧ Stands t len (p + 1) s := by
  obtain ⟨hbytes, hfits⟩ := h
  rw [List.length_cons] at hbytes hfits
  rw [Bytes.slice_succ] at hbytes
  obtain ⟨hc, hs⟩ := List.cons.inj hbytes
  exact ⟨(if_neg (by omega)).trans hc, by omega, hs, by omega⟩

theorem Stands.append {p : Nat} {s s' : List UInt8} (h : Stands t len p (s ++ s')) :
    Stands t len p s ∧ Stands t len (p + s.length) s' := by
  obtain ⟨hbytes, hfits⟩ := h
  rw [List.length_append] at hbytes hfits
  rw [Bytes.slice_add] at hbytes
  obtain ⟨hs, hs'⟩ := List.append_inj hbytes (Bytes.length_slice _ _ _)
  rw [Nat.add_assoc] at hs'
  exact ⟨⟨hs, by omega⟩, hs', by omega⟩

theorem Stands.skip {p : Nat} {c : UInt8} {s : List UInt8} (h : Stands t len p (c :: s)) (hc : c ≠ 32) :
    skipSp t len p = p := by
  obtain ⟨hpeek, hlt, -⟩ := h.cons
  rw [peekTok, if_neg (Nat.not_le.mpr hlt)] at hpeek
  exact skipSp_of_ne (hpeek.symm ▸ hc)

/-- Blanks before a token are skipped. -/
theorem Stands.skip_blanks {p blanks : Nat} {c : UInt8} {s : List UInt8}
    (h : Stands t len p (List.replicate blanks 32 ++ c :: s)) (hc : c ≠ 32) :
    skipSp t len p = p + blanks := by
  induction blanks generalizing p with
  | zero => exact h.skip hc
  | succ blanks ih =>
    obtain ⟨hpeek, hlt, hrest⟩ := Stands.cons h
    rw [peekTok, if_neg (Nat.not_le.mpr hlt)] at hpeek
    rw [skipSp_of_lt t len hlt, if_pos hpeek, ih hrest, Nat.add_assoc, Nat.add_comm 1]

theorem adv_of_lt {p k : Nat} (h : p + k < 256) : adv p k = p + k := Nat.mod_eq_of_lt h

/-- An operand is an operand of its level. -/
theorem Parses.primary {a : NumExpr} {p q : Nat} (bound : Nat)
    (h : ∀ n, bound ≤ n → (∀ x, a.eval (fun i => vars.nums i) = some x →
        Goes (parsePrimary t len vars ram (n + 1)) (e.at p) (pure (.num x)) (e.at q)) ∧
      (a.eval (fun i => vars.nums i) = none → Errs (parsePrimary t len vars ram (n + 1)) (e.at p))) :
    Parses t len vars ram e 0 a p q := by
  refine ⟨0, bound + 1, fun n hn => ?_⟩
  obtain ⟨m, rfl⟩ : ∃ m, n = m + 1 := ⟨n - 1, by omega⟩
  exact ⟨by omega, h m (by omega)⟩

/-- A blank before an operand does not matter. -/
theorem Parses.blank {a : NumExpr} {p q : Nat} {s : List UInt8} (hs : Stands t len p (32 :: s))
    (h : Parses t len vars ram e 0 a (p + 1) q) : Parses t len vars ram e 0 a p q := by
  obtain ⟨hpeek, hlt, -⟩ := hs.cons
  rw [peekTok, if_neg (Nat.not_le.mpr hlt)] at hpeek
  have hskip : skipSp t len p = skipSp t len (p + 1) := by rw [skipSp_of_lt t len hlt, if_pos hpeek]
  have hsame : ∀ n, parsePrimary t len vars ram (n + 1) (e.at p) =
      parsePrimary t len vars ram (n + 1) (e.at (p + 1)) := fun n => by
    rw [parsePrimary, bind_run_quiet (skip_at p), bind_run_quiet (skip_at (p + 1)), hskip]
  obtain ⟨k, bound, hparse⟩ := h
  refine .primary bound fun n hn => ?_
  obtain ⟨-, hval, herr⟩ := hparse (n + 1) (Nat.le_succ_of_le hn)
  exact ⟨fun x hx => (Goes.of_eq (hsame n)).trans (hval x hx), fun hx => .of_goes (.of_eq (hsame n)) (herr hx)⟩

/-- An operator before its operand. -/
theorem Parses.unary {a b : NumExpr} {p q : Nat} {f : Int → Int} {g : Value → EvalM Value}
    (h : Parses t len vars ram e 0 a (p + 1) q)
    (hb : b.eval (fun i => vars.nums i) = (a.eval fun i => vars.nums i).map f)
    (hrun : ∀ n, parsePrimary t len vars ram (n + 1) (e.at p) =
      (parsePrimary t len vars ram n >>= g) (e.at (p + 1)))
    (hnum : ∀ x, g (.num x) = pure (.num (f x))) (hstr : ∀ s, g (.str s) = fail) :
    Parses t len vars ram e 0 b p q := by
  obtain ⟨k, bound, hparse⟩ := h
  refine .primary bound fun n hn => ?_
  obtain ⟨-, hval, herr⟩ := hparse n hn
  refine ⟨fun y hy => ?_, fun hnone => ?_⟩
  · rw [hb] at hy
    obtain ⟨x, hx, rfl⟩ := Option.map_eq_some_iff.mp hy
    have hgoes : Goes (parsePrimary t len vars ram n >>= g) (e.at (p + 1)) (g (.num x)) (e.at q) :=
      (hval x hx).bind_pure g
    rw [hnum] at hgoes
    exact (Goes.of_eq (hrun n)).trans hgoes
  · rw [hb] at hnone
    refine .of_goes (.of_eq (hrun n)) ((herr (Option.map_eq_none_iff.mp hnone)).bind fun v e' herror => ?_)
    cases v with
    | num x =>
      rw [hnum]
      exact ⟨_, e', .refl _ _, herror⟩
    | str s =>
      rw [hstr]
      exact errs_fail e'

section Operands

variable {p q : Nat} {s : List UInt8} {a : NumExpr}

/-- An operand starts with its first token. -/
theorem parsePrimary_token {c : UInt8} (hs : Stands t len p (c :: s)) (hc : c ≠ 32) (hlen : len < 256) :
    skip t len (e.at p) = ⟨.done (), e.at p, []⟩ ∧ peek t len (e.at p) = ⟨.done c, e.at p, []⟩ ∧
      advance 1 (e.at p) = ⟨.done (), e.at (p + 1), []⟩ := by
  obtain ⟨hpeek, hlt, -⟩ := hs.cons
  have hadv : adv p 1 = p + 1 := adv_of_lt (by omega)
  rw [skip_at, peek_at, advance_at, hs.skip hc, hpeek, hadv]
  exact ⟨rfl, rfl, rfl⟩

theorem parses_neg (hs : Stands t len p (45 :: s)) (hlen : len < 256)
    (h : Parses t len vars ram e 0 a (p + 1) q) : Parses t len vars ram e 0 (.neg a) p q := by
  obtain ⟨hskip, hpeek, hadvance⟩ := parsePrimary_token (e := e) hs (by decide) hlen
  apply Parses.unary (f := fun x => i32 (-x)) h rfl
  · intro n
    rw [parsePrimary, bind_run_quiet hskip, bind_run_quiet hpeek, if_pos rfl, bind_run_quiet hadvance]
  · exact fun _ => rfl
  · exact fun _ => rfl

theorem parses_not (hs : Stands t len p (Tok.not :: s)) (hlen : len < 256)
    (h : Parses t len vars ram e 0 a (p + 1) q) : Parses t len vars ram e 0 (.not a) p q := by
  obtain ⟨hskip, hpeek, hadvance⟩ := parsePrimary_token (e := e) hs (by decide) hlen
  apply Parses.unary (f := fun x => if x ≠ 0 then 0 else 1) h rfl
  · intro n
    rw [parsePrimary, bind_run_quiet hskip, bind_run_quiet hpeek, if_neg (by decide), if_pos rfl,
      bind_run_quiet hadvance]
  · exact fun _ => rfl
  · exact fun _ => rfl

theorem parses_lit {n : Int} (hn : -2147483648 ≤ n ∧ n < 2147483648)
    (hs : Stands t len p (Tok.num :: numBytes n)) (hlen : len < 256) :
    Parses t len vars ram e 0 (.lit n) p (p + 5) := by
  obtain ⟨hskip, hpeek, hadvance⟩ := parsePrimary_token (e := e) hs (by decide) hlen
  obtain ⟨-, -, hrest⟩ := hs.cons
  have hfits : p + 1 + 4 ≤ len := hrest.fits
  have hbytes : t.mem.slice (t.addr + (p + 1)) 4 = numBytes n := hrest.bytes
  have hnum : t.num (p + 1) = n := by
    rw [Tokens.num, Bytes.word32_of_le32 hbytes, i32]
    omega
  have hadv : adv (p + 1) 4 = p + 5 := adv_of_lt (by omega)
  refine .primary 0 fun m _ => ⟨fun x hx => .of_eq ?_, fun hnone => absurd hnone (Option.some_ne_none _)⟩
  cases hx
  rw [parsePrimary, bind_run_quiet hskip, bind_run_quiet hpeek, if_neg (by decide), if_neg (by decide),
    if_neg (by decide), if_pos rfl, bind_run_quiet hadvance, get_bind_run, bind_run_quiet (advance_at _ 4), hadv]
  exact congrArg (fun v => (pure (.num v) : EvalM Value) (e.at (p + 5))) hnum

theorem parses_var {c : UInt8} {letter : Fin 26} (hc : isAlpha c = true) (hletter : plainSlot c = letter)
    (hs : Stands t len p [c]) (hlen : len < 256) (hends : ExprEnds t len 0 (p + 1)) :
    Parses t len vars ram e 0 (.var letter) p (p + 1) := by
  have hne : ∀ d, isAlpha d = false → c ≠ d := fun d hd => letter_ne hc hd
  obtain ⟨hskip, hpeek, hadvance⟩ := parsePrimary_token (e := e) hs (hne 32 rfl) hlen
  have hfunction : ¬(Tok.abs ≤ c ∧ c ≤ Tok.int) := fun h =>
    absurd (UInt8.lt_of_le_of_lt h.1 (letter_facts c hc).2.2.2.2.1) (by decide)
  refine .primary 0 fun m _ => ⟨fun x hx => .of_eq ?_, fun hnone => absurd hnone (Option.some_ne_none _)⟩
  cases hx
  rw [parsePrimary, bind_run_quiet hskip, bind_run_quiet hpeek, if_neg (hne _ rfl), if_neg (hne _ rfl),
    if_neg (hne _ rfl), if_neg (hne _ rfl), if_neg (hne _ rfl), if_neg hfunction, if_pos hc, variable_,
    bind_run_quiet hadvance, bind_run_quiet (peek_at _), if_neg hends.dollar, bind_run_quiet (peek_at _)]
  simp only [hends.digit, Bool.false_eq_true, if_false, varNum_plain hc, hletter]

/-- What may be left out does not undo an error. -/
theorem optional_run (t : Tokens) (len : Nat) (c : UInt8) (e : Eval) : ∃ e', optional t len c e = ⟨.done (), e', []⟩ ∧
    e'.error = e.error := by
  have hskip : skip t len e = ⟨.done (), e.at (skipSp t len e.pos), []⟩ := rfl
  unfold optional
  rw [bind_run_quiet hskip, bind_run_quiet (peek_at _)]
  split
  · exact ⟨_, rfl, rfl⟩
  · exact ⟨_, rfl, rfl⟩

/-- A parenthesis is closed where the expression in it ends. -/
theorem parses_paren {blanks q₁ : Nat} (hs : Stands t len p (40 :: s)) (hlen : len < 256)
    (h : Parses t len vars ram e 5 a (p + 1) q₁) (hends : ExprEnds t len 5 q₁)
    (hclose : Stands t len q₁ (List.replicate blanks 32 ++ [41])) :
    Parses t len vars ram e 0 a p (q₁ + blanks + 1) := by
  obtain ⟨hskip, hpeek, hadvance⟩ := parsePrimary_token (e := e) hs (by decide) hlen
  obtain ⟨q', bound, hskip', -, -, hclosed⟩ := h.closed (Nat.le_refl 5) hends
  have hblanks : skipSp t len q' = q₁ + blanks := hskip'.trans (hclose.skip_blanks (by decide))
  obtain ⟨-, hbracket⟩ := hclose.append
  rw [List.length_replicate] at hbracket
  obtain ⟨hpeek', hlt, -⟩ := hbracket.cons
  have hadv : adv (q₁ + blanks) 1 = q₁ + blanks + 1 := adv_of_lt (by omega)
  have hrun : ∀ n, parsePrimary t len vars ram (n + 1) (e.at p) =
      (parseAt t len vars ram n 5 >>= fun v => optional t len 41 >>= fun _ => pure v) (e.at (p + 1)) :=
    fun n => by
      rw [parsePrimary, bind_run_quiet hskip, bind_run_quiet hpeek, if_neg (by decide), if_neg (by decide),
        if_pos rfl, bind_run_quiet hadvance]
      rfl
  have hoptional : optional t len 41 (e.at q') = ⟨.done (), e.at (q₁ + blanks + 1), []⟩ := by
    unfold optional
    rw [bind_run_quiet (skip_at q'), hblanks, bind_run_quiet (peek_at _), if_pos hpeek', advance_at, hadv]
  refine .primary bound fun n hn => ⟨fun x hx => ?_, fun hx => ?_⟩
  · refine ((Goes.of_eq (hrun n)).trans ((hclosed n hn).1 x hx |>.bind_pure _)).trans (.of_eq ?_)
    rw [bind_run_quiet hoptional]
  · refine .of_goes (.of_eq (hrun n)) (((hclosed n hn).2 hx).bind fun v e' herror => ?_)
    obtain ⟨e'', hrun', herror'⟩ := optional_run t len 41 e'
    exact ⟨v, e'', .of_eq (bind_run_quiet hrun'), herror'.trans herror⟩

end Operands

/-- A token that is no operator of a level ends the expression before it there. -/
theorem Stands.ends {q blanks l : Nat} {c : UInt8} {s : List UInt8}
    (h : Stands t len q (List.replicate blanks 32 ++ c :: s))
    (hc : c ≠ 32 ∧ c ≠ 36 ∧ isDigit c = false) (hop : ∀ op : NumOp, op.level ≤ l → c ≠ op.tok) :
    ExprEnds t len l q := by
  have hskip := h.skip_blanks hc.1
  obtain ⟨-, hlast⟩ := h.append
  rw [List.length_replicate] at hlast
  have hpeek : peekTok t len q = 32 ∨ peekTok t len q = c := by
    cases blanks with
    | zero => exact .inr (Stands.cons h).1
    | succ blanks => exact .inl (Stands.cons h).1
  refine ⟨?_, ?_, fun op hlevel => ?_⟩
  · rcases hpeek with hpeek | hpeek
    · rw [hpeek]
      decide
    · rw [hpeek]
      exact hc.2.1
  · rcases hpeek with hpeek | hpeek
    · rw [hpeek]
      decide
    · rw [hpeek]
      exact hc.2.2
  · rw [hskip, hlast.cons.1]
    exact hop op hlevel

/-- What is written at a level, the level reads. -/
theorem parsed_of_written {l : Nat} {a : NumExpr} {s : List UInt8} (h : Written l a s) (hlen : len < 256)
    (he : e.error = false) {p : Nat} (hs : Stands t len p s) (hends : ExprEnds t len (reach l) (p + s.length))
    (hover : a.NoOverflow fun i => vars.nums i) : Parses t len vars ram e l a p (p + s.length) := by
  induction h generalizing p with
  | lit hn => exact parses_lit hn hs hlen
  | var hc hletter => exact parses_var hc hletter hs hlen hends
  | @neg a s h ih =>
    have hq : p + (45 :: s).length = p + 1 + s.length := by rw [List.length_cons]; omega
    rw [hq] at hends ⊢
    exact parses_neg hs hlen (ih hs.cons.2.2 hends hover)
  | @not a s h ih =>
    have hq : p + (Tok.not :: s).length = p + 1 + s.length := by rw [List.length_cons]; omega
    rw [hq] at hends ⊢
    exact parses_not hs hlen (ih hs.cons.2.2 hends hover)
  | @blank a s h ih =>
    have hq : p + (32 :: s).length = p + 1 + s.length := by rw [List.length_cons]; omega
    rw [hq] at hends ⊢
    exact (ih hs.cons.2.2 hends hover).blank hs
  | @paren a s blanks h ih =>
    have hq : p + (40 :: (s ++ (List.replicate blanks 32 ++ [41]))).length = p + 1 + s.length + blanks + 1 := by
      simp only [List.length_cons, List.length_append, List.length_replicate, List.length_nil]
      omega
    obtain ⟨hinner, hclose⟩ := hs.cons.2.2.append
    have hends5 : ExprEnds t len 5 (p + 1 + s.length) :=
      hclose.ends (by decide) fun op _ => (op.tok_facts.2.2.2).symm
    rw [hq]
    exact parses_paren hs hlen (ih hinner (hends5.mono (by decide)) hover) hends5 hclose
  | @up l a s hl h ih =>
    have hreach := reach_bounds (l := l + 1) (Nat.le_add_left 1 l)
    exact (ih hs (hends.mono hreach.2) hover).up hl (hends.mono hreach.1) he
  | @bin op a b s s' blanks ha hb iha ihb =>
    obtain ⟨hsa, hop⟩ := hs.append
    obtain ⟨-, hsb⟩ := hop.append
    rw [List.length_replicate] at hsb
    have hq : p + (s ++ (List.replicate blanks 32 ++ op.tok :: s')).length =
        p + s.length + blanks + 1 + s'.length := by
      simp only [List.length_cons, List.length_append, List.length_replicate]
      omega
    have hreach := reach_bounds op.level_bounds.1
    have hleft : ExprEnds t len (op.level - 1) (p + s.length) :=
      hop.ends ⟨op.tok_facts.1, op.tok_facts.2.1, op.tok_facts.2.2.1⟩ fun op' hlevel heq => by
        have := op.level_bounds
        rw [← NumOp.tok_inj heq] at hlevel
        omega
    have hparsed : Parses t len vars ram e op.level a p (p + s.length) := by
      by_cases h3 : op.level = 3
      · have hl : op.left = 2 := if_pos h3
        rw [hl] at iha
        rw [h3] at hleft ⊢
        exact (iha hsa (hleft.mono (by decide)) hover.1).up (by decide) hleft he
      · have hl : op.left = op.level := if_neg h3
        rw [hl] at iha
        have hreach' : reach op.level = op.level - 1 := if_neg h3
        exact iha hsa (hreach' ▸ hleft) hover.1
    rw [hq] at hends ⊢
    have hskip := hop.skip_blanks op.tok_facts.1
    have hpeek : peekTok t len (skipSp t len (p + s.length)) = op.tok := by
      rw [hskip]
      exact hsb.cons.1
    have hadv : adv (skipSp t len (p + s.length)) 1 = p + s.length + blanks + 1 := by
      have := hsb.cons.2.1
      rw [hskip]
      exact adv_of_lt (by omega)
    exact hparsed.bin hpeek hadv (fun x hx => ihb hsb.cons.2.2 (hends.mono hreach.2) (hover.2 x hx).1)
      hends he fun x hx => (hover.2 x hx).2

/-- An expression that takes the rest of its line ends with it. -/
theorem ends_line (l : Nat) : ExprEnds t len l len := by
  have hpeek : peekTok t len len = 0 := if_pos (Nat.le_refl len)
  refine ⟨by rw [hpeek]; decide, by rw [hpeek]; decide, fun op _ => ?_⟩
  rw [skipSp_of_le t len (Nat.le_refl len), hpeek]
  cases op <;> decide

end Eval

open Eval

/-- `expr_eval` gives an expression on numbers its value and stops behind it, wherever it is written and
whichever way the grammar lets it be written; the error flag is set just where the expression has a
division by zero. -/
theorem expr_evaluates {a : NumExpr} {s : List UInt8} (h : Written 5 a s) {t : Tokens} {len p : Nat}
    (hs : Stands t len p s) (hlen : len < 256) (hends : p + s.length < len → ExprEnds t len 5 (p + s.length))
    (vars : Vars) (hover : a.NoOverflow fun i => vars.nums i) (ram : Bytes) (spool : Nat) (rnd : BitVec 32) :
    ∃ bound, ∀ fuel, bound ≤ fuel → ∃ v e', exprEval t len vars ram fuel ⟨p, spool, false, rnd⟩ = some (v, e') ∧
      (e'.error = true ↔ a.eval (fun i => vars.nums i) = none) ∧
      ∀ x, a.eval (fun i => vars.nums i) = some x →
        v = .num x ∧ e' = ⟨skipSp t len (p + s.length), spool, false, rnd⟩ := by
  let e : Eval := ⟨p, spool, false, rnd⟩
  have hends' : ExprEnds t len 5 (p + s.length) := by
    rcases Nat.lt_or_eq_of_le hs.fits with hlt | heq
    · exact hends hlt
    · rw [heq]
      exact ends_line 5
  have hparsed : Parses t len vars ram e 5 a p (p + s.length) :=
    parsed_of_written h hlen rfl hs (hends'.mono (by decide)) hover
  obtain ⟨q', bound, hskip, -, hstay, hclosed⟩ := hparsed.closed (Nat.le_refl 5) hends'
  have hq' : q' = skipSp t len (p + s.length) := (hstay (by decide)).symm.trans hskip
  have hreturns : ∀ {fuel : Nat} {v : Value} {e' : Eval}, Goes (parseAt t len vars ram fuel 5) (e.at p) (pure v) e' →
      exprEval t len vars ram fuel e = some (v, e') := by
    intro fuel v e' hgoes
    obtain ⟨hout, hstate⟩ :
      (exprRun t len vars ram fuel e).out = .done v ∧ (exprRun t len vars ram fuel e).state = e' :=
      hgoes.done
    rw [exprEval, hout, hstate]
  refine ⟨bound, fun fuel hfuel => ?_⟩
  obtain ⟨hval, herr⟩ := hclosed fuel hfuel
  cases heval : a.eval (fun i => vars.nums i) with
  | none =>
    obtain ⟨v, e', hgoes, herror⟩ := herr heval
    exact ⟨v, e', hreturns hgoes, iff_of_true herror rfl, fun x hx => absurd hx.symm (Option.some_ne_none x)⟩
  | some x =>
    refine ⟨.num x, e.at q', hreturns (hval x heval), iff_of_false Bool.false_ne_true (Option.some_ne_none x),
      fun y hy => ?_⟩
    cases hy
    rw [hq']
    exact ⟨rfl, rfl⟩

/-- The tokens of `7 - A*(2=2 )`. -/
def differenceTokens : List UInt8 :=
  (Tok.num :: numBytes 7) ++ [32, 45, 32, 65, 42, 40] ++ (Tok.num :: numBytes 2) ++ [61] ++
    (Tok.num :: numBytes 2) ++ [32, 41]

/-- With 5 in the variable they come to 12: the condition is -1. -/
theorem difference_evaluates : ∃ bound, ∀ fuel, bound ≤ fuel → ∃ v e',
    exprEval ⟨Bytes.store Bytes.zeros 0 differenceTokens, 0⟩ differenceTokens.length ⟨fun _ => 5, fun _ => []⟩
      Bytes.zeros fuel ⟨0, 0, false, 1⟩ = some (v, e') ∧ v = .num 12 ∧ e'.error = false ∧
      e'.pos = differenceTokens.length := by
  let a : NumExpr := .bin .sub (.lit 7) (.bin .mul (.var 0) (.bin .eq (.lit 2) (.lit 2)))
  have heq : Written 3 (.bin .eq (.lit 2) (.lit 2)) _ :=
    .bin .eq 0 (.up (by decide) (.up (by decide) (.lit (by decide))))
      (.up (by decide) (.up (by decide) (.lit (by decide))))
  have hmul : Written 1 (.bin .mul (.var 0) (.bin .eq (.lit 2) (.lit 2))) _ :=
    .bin .mul 0 (.up (by decide) (.blank (.var (c := 65) (by decide) (by decide))))
      (.paren 1 (.up (by decide) (.up (by decide) heq)))
  have h : Written 5 a differenceTokens :=
    .up (by decide) (.up (by decide) (.up (by decide)
      (.bin .sub 1 (.up (by decide) (.up (by decide) (.lit (by decide)))) hmul)))
  have hover : a.NoOverflow fun i => (⟨fun _ => 5, fun _ => []⟩ : Vars).nums i := by
    simp [a, NumExpr.NoOverflow]
  obtain ⟨bound, hbound⟩ := expr_evaluates h
    (t := ⟨Bytes.store Bytes.zeros 0 differenceTokens, 0⟩) (p := 0) ⟨by decide, Nat.le_refl _⟩ (by decide)
    (fun hlt => absurd hlt (by decide)) ⟨fun _ => 5, fun _ => []⟩ hover Bytes.zeros 0 1
  refine ⟨bound, fun fuel hfuel => ?_⟩
  obtain ⟨v, e', hrun, herror, hval⟩ := hbound fuel hfuel
  obtain ⟨rfl, rfl⟩ := hval 12 (by decide)
  exact ⟨_, _, hrun, rfl, rfl, by decide⟩

end RainbowOs.Basic
