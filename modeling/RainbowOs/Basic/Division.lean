import RainbowOs.Basic.Tokenizer

/-!
# Divisions of BASIC

`parse_mul` looks whether a divisor is zero before it divides. The least
number divided by -1 has no such test, and is the only division on which the
processor faults.
-/

namespace RainbowOs.Basic

open RainbowOs.Lib

/-- The processor is asked for a quotient that is no `int32_t`. -/
def Division.Overflows : Division → Prop
  | .divide a b => a = -2147483648 ∧ b = -1
  | .refuse _ => False

/-- The processor is asked for a division by zero. -/
def Division.ByZero : Division → Prop
  | .divide _ b => b = 0
  | .refuse _ => False

/-- The division is an error of the expression. -/
def Division.Refused (d : Division) : Prop := ∃ a, d = .refuse a

namespace Eval

open Prog (get modify tell halt)

/-- A run from `e` asks for no division by zero, faults only on a division that overflows, and has
an error of which it is told, or which it makes of a division, until its end. -/
structure Guards {α : Type} (e : Eval) (r : Run Eval Fault Division α) : Prop where
  nonzero : ∀ d ∈ r.log, ¬d.ByZero
  fault : r.out = .halt .divide → ∃ d ∈ r.log, d.Overflows
  refused : (∃ d ∈ r.log, d.Refused) → r.state.error = true
  error : e.error = true → r.state.error = true

/-- A program whose runs are all guarded. -/
def Guarded {α : Type} (p : EvalM α) : Prop := ∀ e, Guards e (p e)

namespace Guarded

variable {α β : Type} {p q : EvalM α} {f : α → EvalM β} {c : Prop} [Decidable c]

/-- A program without a division. -/
theorem of_quiet (hlog : ∀ e, (p e).log = []) (hout : ∀ e, (p e).out ≠ .halt .divide)
    (herror : ∀ e, e.error = true → (p e).state.error = true) : Guarded p := fun e =>
  { nonzero := fun _ hd => absurd (hlog e ▸ hd) List.not_mem_nil
    fault := fun h => absurd h (hout e)
    refused := fun ⟨_, hd, _⟩ => absurd (hlog e ▸ hd) List.not_mem_nil
    error := herror e }

theorem pure (a : α) : Guarded (pure a : EvalM α) :=
  of_quiet (fun _ => rfl) (fun _ => nofun) fun _ h => h

theorem get : Guarded (get : EvalM Eval) := of_quiet (fun _ => rfl) (fun _ => nofun) fun _ h => h

theorem modify {g : Eval → Eval} (h : ∀ e, e.error = true → (g e).error = true) :
    Guarded (modify g : EvalM Unit) :=
  of_quiet (fun _ => rfl) (fun _ => nofun) h

theorem halt {r : Fault} (h : r ≠ .divide) : Guarded (halt r : EvalM α) :=
  of_quiet (fun _ => rfl) (fun _ heq => h (Outcome.halt.inj heq)) fun _ h => h

theorem bind (hp : Guarded p) (hf : ∀ a, Guarded (f a)) : Guarded (p >>= f) := by
  intro e
  have hfirst := hp e
  cases hrun : p e with
  | mk out e' l =>
    rw [hrun] at hfirst
    cases out with
    | halt r =>
      rw [Prog.bind_run_halt hrun]
      exact { hfirst with fault := fun h => hfirst.fault (congrArg Outcome.halt (Outcome.halt.inj h)) }
    | done a =>
      have hrest := hf a e'
      rw [Prog.bind_run_done hrun]
      refine ⟨fun d hd => ?_, fun h => ?_, fun ⟨d, hd, hrefused⟩ => ?_, fun h => ?_⟩
      · rcases List.mem_append.mp hd with hd | hd
        · exact hfirst.nonzero d hd
        · exact hrest.nonzero d hd
      · obtain ⟨d, hd, hover⟩ := hrest.fault h
        exact ⟨d, List.mem_append_right _ hd, hover⟩
      · rcases List.mem_append.mp hd with hd | hd
        · exact hrest.error (hfirst.refused ⟨d, hd, hrefused⟩)
        · exact hrest.refused ⟨d, hd, hrefused⟩
      · exact hrest.error (hfirst.error h)

theorem ite (hp : Guarded p) (hq : Guarded q) : Guarded (if c then p else q) := by
  split
  · exact hp
  · exact hq

end Guarded

/-! ## The evaluator -/

variable {t : Tokens} {len : Nat} {vars : Vars} {ram : Bytes}

theorem guarded_fail : Guarded fail := .bind (.modify fun _ _ => rfl) fun _ => .pure _

theorem guarded_advance (k : Nat) : Guarded (advance k) := .modify fun _ h => h

theorem guarded_alloc (s : List UInt8) : Guarded (alloc s) :=
  .bind .get fun _ => .ite guarded_fail (.bind (.modify fun _ h => h) fun _ => .pure _)

theorem guarded_skip : Guarded (skip t len) := .modify fun _ h => h

theorem guarded_peek : Guarded (peek t len) := .bind .get fun _ => .pure _

theorem guarded_optional (c : UInt8) : Guarded (optional t len c) :=
  .bind guarded_skip fun _ => .bind guarded_peek fun _ => .ite (guarded_advance 1) (.pure _)

/-- A division by zero is refused. -/
theorem arith_zero {op : UInt8} (hop : op ≠ 42) (a : Int) (e : Eval) :
    arith op a 0 e = ⟨.done (.num 0), { e with error := true }, [.refuse a]⟩ := by
  unfold arith
  rw [if_neg hop, if_pos rfl, Prog.tell_bind_run]
  rfl

/-- The least number divided by -1 faults. -/
theorem arith_overflow {op : UInt8} (hop : op ≠ 42) (e : Eval) :
    arith op (-2147483648) (-1) e = ⟨.halt .divide, e, [.divide (-2147483648) (-1)]⟩ := by
  unfold arith
  rw [if_neg hop, if_neg (by decide), if_pos ⟨rfl, rfl⟩]
  rfl

/-- Any other division is carried out. -/
theorem arith_divide {op : UInt8} {a b : Int} (hop : op ≠ 42) (hb : b ≠ 0)
    (hover : ¬(a = -2147483648 ∧ b = -1)) (e : Eval) :
    arith op a b e = ⟨.done (.num (if op = 47 then a.tdiv b else a.tmod b)), e, [.divide a b]⟩ := by
  unfold arith
  rw [if_neg hop, if_neg hb, if_neg hover, Prog.tell_bind_run]
  split
  · rfl
  · rfl

theorem guarded_arith (op : UInt8) (a b : Int) : Guarded (arith op a b) := by
  by_cases hop : op = 42
  · unfold arith
    rw [if_pos hop]
    exact .pure _
  intro e
  by_cases hb : b = 0
  · rw [hb, arith_zero hop]
    exact ⟨fun d hd => List.mem_singleton.mp hd ▸ id, nofun, fun _ => rfl, fun _ => rfl⟩
  by_cases hover : a = -2147483648 ∧ b = -1
  · obtain ⟨rfl, rfl⟩ := hover
    rw [arith_overflow hop]
    refine ⟨fun d hd => List.mem_singleton.mp hd ▸ nofun,
      fun _ => ⟨_, List.mem_singleton_self _, rfl, rfl⟩, ?_, id⟩
    rintro ⟨d, hd, a, rfl⟩
    exact absurd (List.mem_singleton.mp hd) nofun
  · rw [arith_divide hop hb hover]
    refine ⟨fun d hd => List.mem_singleton.mp hd ▸ hb, nofun, ?_, id⟩
    rintro ⟨d, hd, a, rfl⟩
    exact absurd (List.mem_singleton.mp hd) nofun

section Levels

variable {primary : EvalM Value}

theorem guarded_mulLoop (h : Guarded primary) (fuel : Nat) (left : Value) :
    Guarded (mulLoop t len primary fuel left) := by
  induction fuel generalizing left with
  | zero => exact .halt nofun
  | succ fuel ih =>
    rw [mulLoop]
    refine .bind guarded_skip fun _ => .bind guarded_peek fun tok => .ite ?_ (.pure _)
    refine .bind (guarded_advance 1) fun _ => .bind h fun right => .bind .get fun e => .ite (.pure _) ?_
    split
    · exact .bind (guarded_arith tok _ _) fun v => .bind .get fun _ => .ite (.pure _) (ih v)
    · exact guarded_fail

theorem guarded_parseMul (h : Guarded primary) (fuel : Nat) : Guarded (parseMul t len primary fuel) :=
  .bind h fun left => .bind .get fun _ => .ite (.pure _) (guarded_mulLoop h fuel left)

theorem guarded_addLoop {mul : EvalM Value} (h : Guarded mul) (fuel : Nat) (left : Value) :
    Guarded (addLoop t len mul fuel left) := by
  induction fuel generalizing left with
  | zero => exact .halt nofun
  | succ fuel ih =>
    rw [addLoop]
    refine .bind guarded_skip fun _ => .bind guarded_peek fun tok => .ite ?_ (.pure _)
    refine .bind (guarded_advance 1) fun _ => .bind h fun right => .bind .get fun e => .ite (.pure _) ?_
    split
    · exact .ite (.bind (guarded_alloc _) fun v => .bind .get fun _ => .ite (.pure _) (ih v)) guarded_fail
    · exact ih _
    · exact guarded_fail

theorem guarded_parseAdd (h : Guarded primary) (fuel : Nat) : Guarded (parseAdd t len primary fuel) :=
  .bind (guarded_parseMul h fuel) fun left => .bind .get fun _ =>
    .ite (.pure _) (guarded_addLoop (guarded_parseMul h fuel) fuel left)

theorem guarded_parseCompare (h : Guarded primary) (fuel : Nat) :
    Guarded (parseCompare t len primary fuel) := by
  refine .bind (guarded_parseAdd h fuel) fun left => .bind .get fun _ => .ite (.pure _) ?_
  refine .bind guarded_skip fun _ => .bind guarded_peek fun tok => .ite ?_ (.pure _)
  refine .bind (guarded_advance 1) fun _ => .bind (guarded_parseAdd h fuel) fun right =>
    .bind .get fun _ => .ite (.pure _) ?_
  split
  · exact .pure _
  · exact .pure _
  · exact guarded_fail

theorem guarded_logicLoop {tok : UInt8} {op : Bool → Bool → Bool} {operand : EvalM Value}
    (h : Guarded operand) (fuel : Nat) (left : Value) :
    Guarded (logicLoop t len tok op operand fuel left) := by
  induction fuel generalizing left with
  | zero => exact .halt nofun
  | succ fuel ih =>
    rw [logicLoop]
    refine .bind guarded_skip fun _ => .bind guarded_peek fun _ => .ite ?_ (.pure _)
    exact .bind (guarded_advance 1) fun _ => .bind h fun right => .bind .get fun _ => .ite (.pure _) (ih _)

theorem guarded_parseAnd (h : Guarded primary) (fuel : Nat) : Guarded (parseAnd t len primary fuel) :=
  .bind (guarded_parseCompare h fuel) fun left => .bind .get fun _ =>
    .ite (.pure _) (guarded_logicLoop (guarded_parseCompare h fuel) fuel left)

theorem guarded_parseOr (h : Guarded primary) (fuel : Nat) : Guarded (parseOr t len primary fuel) :=
  .bind (guarded_parseAnd h fuel) fun left => .bind .get fun _ =>
    .ite (.pure _) (guarded_logicLoop (guarded_parseAnd h fuel) fuel left)

theorem guarded_unary (arg : Value) {onNum : Int → EvalM Value} {onStr : List UInt8 → EvalM Value}
    (hnum : ∀ n, Guarded (onNum n)) (hstr : ∀ s, Guarded (onStr s)) :
    Guarded (unary t len arg onNum onStr) := by
  refine .bind (guarded_optional 41) fun _ => ?_
  cases arg with
  | num n => exact hnum n
  | str s => exact hstr s

theorem guarded_parseFunction {or : EvalM Value} (h : Guarded or) (func : UInt8) :
    Guarded (parseFunction t len ram or func) := by
  have hnum : ∀ arg (f : Int → Int), Guarded (unary t len arg (fun n => return .num (f n)) fun _ => fail) :=
    fun arg f => guarded_unary arg (fun _ => .pure _) fun _ => guarded_fail
  unfold parseFunction
  refine .bind guarded_skip fun _ => .bind guarded_peek fun _ => .ite guarded_fail ?_
  refine .bind (guarded_advance 1) fun _ => .bind h fun arg => .bind .get fun _ => .ite (.pure _) ?_
  refine .ite (hnum arg _) (.ite (guarded_unary arg (fun _ => ?_) fun _ => guarded_fail) ?_)
  · exact .of_quiet (fun _ => rfl) (fun _ => nofun) fun _ h => h
  refine .ite (hnum arg _) (.ite (guarded_unary arg (fun _ => guarded_fail) fun _ => .pure _) ?_)
  refine .ite (guarded_unary arg (fun _ => guarded_fail) fun _ => .pure _) ?_
  refine .ite (guarded_unary arg (fun _ => guarded_alloc _) fun _ => guarded_fail) ?_
  refine .ite (guarded_unary arg (fun _ => guarded_alloc _) fun _ => guarded_fail) ?_
  refine .ite (hnum arg _) (.ite ?_ (.ite ?_ guarded_fail))
  · refine .bind (guarded_optional 44) fun _ => .bind h fun arg2 => .bind (guarded_optional 41) fun _ => ?_
    split
    · exact guarded_alloc _
    · exact guarded_fail
  · refine .bind (guarded_optional 44) fun _ => .bind h fun arg2 => .bind (guarded_optional 44) fun _ => ?_
    refine .bind h fun arg3 => .bind (guarded_optional 41) fun _ => ?_
    split
    · exact .ite (.halt nofun) (guarded_alloc _)
    · exact guarded_fail

end Levels

theorem guarded_variable (name : UInt8) : Guarded (variable_ t len vars name) := by
  unfold variable_
  refine .bind (guarded_advance 1) fun _ => .bind guarded_peek fun _ => .ite ?_ ?_
  · refine .bind (guarded_advance 1) fun _ => ?_
    split
    · exact guarded_alloc _
    · exact guarded_fail
  · refine .bind guarded_peek fun c => .ite (.bind (guarded_advance 1) fun _ => ?_) ?_
    all_goals
      split
      · exact .pure _
      · exact guarded_fail

theorem guarded_parsePrimary (fuel : Nat) : Guarded (parsePrimary t len vars ram fuel) := by
  induction fuel with
  | zero => exact .halt nofun
  | succ fuel ih =>
    have hor : Guarded (parseOr t len (parsePrimary t len vars ram fuel) fuel) := guarded_parseOr ih fuel
    rw [parsePrimary]
    refine .bind guarded_skip fun _ => .bind guarded_peek fun tok => .ite ?neg (.ite ?not (.ite ?group
      (.ite ?num (.ite ?lit (.ite ?func (.ite (guarded_variable tok) guarded_fail))))))
    case neg | not =>
      refine .bind (guarded_advance 1) fun _ => .bind ih fun v => ?_
      split
      · exact .pure _
      · exact guarded_fail
    case group =>
      exact .bind (guarded_advance 1) fun _ => .bind hor fun _ => .bind (guarded_optional 41) fun _ => .pure _
    case num => exact .bind (guarded_advance 1) fun _ => .bind .get fun _ => .bind (guarded_advance 4) fun _ => .pure _
    case lit =>
      refine .bind (guarded_advance 1) fun _ => .bind .get fun _ => .bind (guarded_advance 1) fun _ =>
        .bind (guarded_alloc _) fun v => ?_
      split
      · exact .bind (guarded_advance _) fun _ => .pure _
      · exact .pure _
    case func => exact .bind (guarded_advance 1) fun _ => guarded_parseFunction hor tok

theorem guarded_exprRun (fuel : Nat) : Guarded (exprRun t len vars ram fuel) :=
  guarded_parseOr (guarded_parsePrimary fuel) fuel

/-- What a run is to do with its divisions: none that the processor is asked for is by zero or
overflows, none faults, and the others are an error of the expression. -/
def Divides {α : Type} (r : Run Eval Fault Division α) : Prop :=
  (∀ d ∈ r.log, ¬d.ByZero ∧ ¬d.Overflows) ∧ r.out ≠ .halt .divide ∧
    ((∃ d ∈ r.log, d.Refused) → r.state.error = true)

theorem Guards.divides_iff {α : Type} {e : Eval} {r : Run Eval Fault Division α} (h : Guards e r) :
    Divides r ↔ ∀ d ∈ r.log, ¬d.Overflows := by
  constructor
  · rintro ⟨hlog, -, -⟩ d hd
    exact (hlog d hd).2
  · intro hover
    refine ⟨fun d hd => ⟨h.nonzero d hd, hover d hd⟩, fun hfault => ?_, h.refused⟩
    obtain ⟨d, hd, hd'⟩ := h.fault hfault
    exact hover d hd hd'

/-- A division does what it is to do, unless it overflows. -/
theorem arith_divides_iff {op : UInt8} (hop : op ≠ 42) (a b : Int) (e : Eval) :
    Divides (arith op a b e) ↔ ¬(a = -2147483648 ∧ b = -1) := by
  rw [(guarded_arith op a b e).divides_iff]
  constructor
  · rintro h ⟨rfl, rfl⟩
    rw [arith_overflow hop] at h
    exact h _ (List.mem_singleton_self _) ⟨rfl, rfl⟩
  · intro hover d hd hd'
    by_cases hb : b = 0
    · rw [hb, arith_zero hop] at hd
      obtain rfl := List.mem_singleton.mp hd
      exact hd'
    · rw [arith_divide hop hb hover] at hd
      obtain rfl := List.mem_singleton.mp hd
      exact hover hd'

end Eval

open Eval

/-- The loop of `parse_mul` does with `/` and `MOD` what it is to do, except where the left operand is
the least number and the right one is -1; and an evaluation does so to its end if no division that
it comes to has these operands. -/
theorem division_safe_iff (t : Tokens) (len : Nat) (vars : Vars) (ram : Bytes) (fuel : Nat) (e : Eval) :
    (∀ (op : UInt8) (a b : Int) (e : Eval), op ≠ 42 →
      (Divides (arith op a b e) ↔ ¬(a = -2147483648 ∧ b = -1))) ∧
    (Divides (exprRun t len vars ram fuel e) ↔
      ∀ d ∈ (exprRun t len vars ram fuel e).log, ¬d.Overflows) :=
  ⟨fun _ a b e hop => arith_divides_iff hop a b e, (guarded_exprRun fuel e).divides_iff⟩

/-- The tokens of 2147483648, a slash and -1. -/
def leastDivision : List UInt8 :=
  tokenize 160 [50, 49, 52, 55, 52, 56, 51, 54, 52, 56, 47, 45, 49]

/-- The literal 2147483648 is read as the least number, and its division by -1 faults. -/
theorem least_division_faults :
    ¬∀ (t : Tokens) (len : Nat) (vars : Vars) (ram : Bytes) (fuel : Nat) (e : Eval),
      Divides (exprRun t len vars ram fuel e) := by
  intro h
  have hfault : (exprRun ⟨Bytes.store (fun _ => 0) 0 leastDivision, 0⟩ leastDivision.length .clear
      (fun _ => 0) 3 ⟨0, 0, false, 12345⟩).out = .halt .divide := by decide
  exact (h _ _ _ _ _ _).2.1 hfault

end RainbowOs.Basic
