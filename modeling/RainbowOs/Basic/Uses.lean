import RainbowOs.Basic.Conditional
import RainbowOs.Basic.Values

/-!
# Uses of values by the statements of BASIC

`exec_statement` of `apps/basic/exec.c` on the unions of `expr_eval`, with the
notes of the evaluations and of what the statements themselves read. What a
statement does besides is as it is without notes.

A statement reads each value as what it is and reports an error of one that is
not what it needs, except for what `AND` and `OR` do inside its expressions.
-/

namespace RainbowOs.Basic

open RainbowOs.Lib
open Prog (note bare Erases Erased Law)

/-- A program of the interpreter that notes its uses. -/
abbrev UnionExec := Prog Interp Stuck (Event ⊕ Use)

namespace Unions

open Prog (get modify tell halt)

section Statement

variable (pool : PoolAddr) (t : Tokens) (len : Nat)

/-- What a statement has of an evaluation. -/
def evaluated (r : Run Eval Fault (Division ⊕ Use) BasValue) : UnionExec BasValue := do
  note (notes r.log)
  match r.out with
  | .halt _ => halt .stuck
  | .done v => do
    bare (modify fun s => { s with
      spoolPos := r.state.spoolPos
      exprError := r.state.error
      rnd := r.state.rnd
      exec := { s.exec with pos := r.state.pos } })
    return v

/-- `expr_eval`, with the error flag cleared before. -/
def evaluate (fuel : Nat) : UnionExec BasValue := do
  let s ← bare get
  evaluated (exprRun pool t len s.vars s.ram fuel ⟨s.exec.pos, s.spoolPos, false, s.rnd⟩)

/-- An expression, and what to do with its value. -/
def withExpr (fuel : Nat) (k : BasValue → UnionExec Unit) : UnionExec Unit := do
  let v ← evaluate pool t len fuel
  if (← bare get).exprError then bare (setError "SYNTAX ERROR") else k v

/-- An expression that has to be a number. -/
def withNum (fuel : Nat) (k : BasValue → UnionExec Unit) : UnionExec Unit :=
  withExpr pool t len fuel fun v =>
    checked .number [v] (v.type = .num) (bare (setError "SYNTAX ERROR")) (k v)

/-- What is printed of a value. -/
def printed (v : BasValue) : UnionExec (List UInt8) :=
  if v.type = .num then do return i32ToStr (← v.readNum) else v.readStr

/-- The loop of `TOK_PRINT`. -/
def printLoop (fuel : Nat) : (rounds : Nat) → (newline : Bool) → UnionExec Unit
  | 0, _ => halt .stuck
  | rounds + 1, newline => do
    let finish : UnionExec Unit := bare (if newline then put [10] else pure ())
    let pos ← bare getPos
    if pos < len ∧ t.tok pos ≠ 58 ∧ t.tok pos ≠ Tok.else_ then
      bare (skip t len)
      let pos ← bare getPos
      if pos ≥ len ∨ t.tok pos = 58 ∨ t.tok pos = Tok.else_ then finish
      else if t.tok pos = 59 then
        bare (setPos (adv · 1))
        printLoop fuel rounds false
      else if t.tok pos = 44 then
        bare (put [9])
        bare (setPos (adv · 1))
        printLoop fuel rounds false
      else
        withExpr pool t len fuel fun v => do
          note [.apply .print [v.type] false]
          bare (put (← printed v))
          printLoop fuel rounds true
    else finish

/-- `TOK_PRINT` -/
def execPrint (fuel : Nat) : UnionExec Unit := do
  bare (setPos (adv · 1))
  printLoop pool t len fuel fuel true

/-- `do_assignment` -/
def execAssignment (fuel : Nat) : UnionExec Unit := do
  match ← bare (parseVarTarget t len) with
  | none => bare (setError "SYNTAX ERROR")
  | some v => do
    bare (skip t len)
    if (← bare (peek t len)) ≠ 61 then bare (setError "SYNTAX ERROR")
    else
      bare (setPos (adv · 1))
      withExpr pool t len fuel fun value =>
        if v.isString then
          checked (.assign .str) [value] (value.type = .str) (bare (setError "TYPE MISMATCH")) do
            let s ← value.readStr
            bare (setStr v.name s)
        else
          checked (.assign .num) [value] (value.type = .num) (bare (setError "TYPE MISMATCH")) do
            let n ← value.readNum
            bare (setNum v.name v.idx n)

/-- `TOK_GOTO` -/
def execGoto (fuel : Nat) : UnionExec Unit := do
  bare (setPos (adv · 1))
  withNum pool t len fuel fun v => do
    let n ← v.readNum
    bare (jumpTo n)

/-- `TOK_GOSUB` -/
def execGosub (fuel : Nat) : UnionExec Unit := do
  bare (setPos (adv · 1))
  withNum pool t len fuel fun v => do
    if (← bare get).exec.gosubStack.length ≥ 32 then bare (setError "OUT OF MEMORY")
    else
      let pos ← bare getPos
      bare (tell (.gosub t.addr pos))
      bare (modifyExec fun x => { x with gosubStack := (x.currentLine, x.pos) :: x.gosubStack })
      let n ← v.readNum
      bare (jumpTo n)

/-- A token that has to be there. -/
def expect (c : UInt8) (k : UnionExec Unit) : UnionExec Unit := do
  bare (skip t len)
  if (← bare (peek t len)) ≠ c then bare (setError "SYNTAX ERROR")
  else
    bare (setPos (adv · 1))
    k

/-- `TOK_STEP` with its number, or 1. -/
def withStep (fuel : Nat) (k : Int → UnionExec Unit) : UnionExec Unit := do
  bare (skip t len)
  if (← bare (peek t len)) = Tok.step then
    bare (setPos (adv · 1))
    withNum pool t len fuel fun v => do
      let n ← v.readNum
      k n
  else k 1

/-- The end of `TOK_FOR`: the loop is put on the stack. -/
def enterLoop (v : VarTarget) (limit : BasValue) (step : Int) : UnionExec Unit := do
  let s ← bare get
  bare (tell (.loop v.name v.idx s.exec.forStack))
  if s.exec.forStack.length ≥ 8 then bare (setError "OUT OF MEMORY")
  else
    let n ← limit.readNum
    bare (modifyExec fun x => { x with
      forStack := ⟨v.name, v.idx, n, step, x.currentLine, x.pos⟩ :: x.forStack })

/-- `TOK_FOR` -/
def execFor (fuel : Nat) : UnionExec Unit := do
  bare (setPos (adv · 1))
  match ← bare (parseVarTarget t len) with
  | none => bare (setError "SYNTAX ERROR")
  | some v =>
    if v.isString then bare (setError "SYNTAX ERROR")
    else
      expect t len 61 <| withNum pool t len fuel fun start =>
      expect t len Tok.to_ <| withNum pool t len fuel fun limit =>
      withStep pool t len fuel fun step => do
        let n ← start.readNum
        bare (setNum v.name v.idx n)
        enterLoop v limit step

/-- `TOK_POKE` -/
def execPoke (fuel : Nat) : UnionExec Unit := do
  bare (setPos (adv · 1))
  withNum pool t len fuel fun addr => do
    bare (skip t len)
    bare (optional t len 44)
    withNum pool t len fuel fun val => do
      let a ← addr.readNum
      let n ← val.readNum
      bare (modify fun s => { s with
        ram := s.ram.store (a % 4294967296).toNat [UInt8.ofNat (n % 256).toNat] })

/-- Whether the condition of `TOK_IF` holds. -/
def isTrue (v : BasValue) : UnionExec Bool :=
  if v.type = .num then do return (← v.readNum) ≠ 0 else do return (← v.readStr).length > 0

/-- `TOK_IF` where the condition holds: the number of a line, or a statement. -/
def execThen (statement : UnionExec Unit) : UnionExec Unit := do
  bare (skip t len)
  if (← bare (peek t len)) = Tok.num then
    bare (setPos (adv · 1))
    let target := t.num (← bare getPos)
    bare (setPos (adv · 4))
    bare (jumpTo target)
  else statement

/-- `TOK_IF` where it does not hold. -/
def execElse (statement : UnionExec Unit) : UnionExec Unit := do
  bare (setPos fun pos => findElse t pos (len - pos))
  if (← bare getPos) < len then
    bare (setPos (adv · 1))
    statement

/-- `TOK_IF`, where `statement` executes the statement at the position. -/
def execIf (fuel : Nat) (statement : UnionExec Unit) : UnionExec Unit := do
  bare (setPos (adv · 1))
  withExpr pool t len fuel fun cond => do
    bare (skip t len)
    bare (optional t len Tok.then_)
    note [.apply .condition [cond.type] false]
    if ← isTrue cond then execThen t len statement else execElse t len statement

/-- The `switch` of `exec_statement`, where `statement` executes the statement at the position. -/
def execSwitch (fuel : Nat) (statement : UnionExec Unit) (tok : UInt8) : UnionExec Unit :=
  if tok = Tok.print then execPrint pool t len fuel
  else if tok = Tok.input then bare (execInput t len fuel)
  else if tok = Tok.let_ then do
    bare (setPos (adv · 1))
    execAssignment pool t len fuel
  else if isAlpha tok then execAssignment pool t len fuel
  else if tok = Tok.if_ then execIf pool t len fuel statement
  else if tok = Tok.goto then execGoto pool t len fuel
  else if tok = Tok.gosub then execGosub pool t len fuel
  else if tok = Tok.return_ then bare (execReturn t)
  else if tok = Tok.for_ then execFor pool t len fuel
  else if tok = Tok.next then bare (execNext t len)
  else if tok = Tok.rem then bare (setPos fun _ => len)
  else if tok = Tok.end_ then do
    bare (setPos (adv · 1))
    bare (modifyExec fun x => { x with running := false })
  else if tok = Tok.poke then execPoke pool t len fuel
  else if tok = Tok.cls then do
    bare (setPos (adv · 1))
    bare (tell .clear)
  else if tok = Tok.clr then do
    bare (setPos (adv · 1))
    bare (modify fun s => { s with vars := Vars.clear })
  else bare (setError "SYNTAX ERROR")

/-- `exec_statement` -/
def execStatement : (fuel : Nat) → UnionExec Unit
  | 0 => halt .stuck
  | fuel + 1 => do
    bare (skip t len)
    let pos ← bare getPos
    if pos ≥ len then pure ()
    else
      let stop ← bare interrupted
      if stop then pure ()
      else
        bare (tell (.stmt t.addr pos))
        execSwitch pool t len fuel (execStatement fuel) (t.tok pos)

end Statement

/-! ## What a statement does with values -/

variable {pool : PoolAddr} {t : Tokens} {len : Nat}

/-- What is refused is an error of the program. -/
def execLaw : Law Interp Use where
  notes := TypedIfLogic
  run _ l s' := (∃ u ∈ l, u.Refused) → s'.hasError = true
  nil := .nil
  append := .append

/-- The statement on unions is the one on values, and goes by the law. -/
abbrev Does (p : UnionExec Unit) (q : Exec Unit) : Prop := Erases execLaw id p q

theorem does_bare (p : Exec Unit) : Does (bare p) p :=
  .bare fun _ _ _ ⟨_, hu, _⟩ => absurd hu List.not_mem_nil

theorem does_pure : Does (pure ()) (pure ()) := does_bare (pure ())

theorem does_bare_bind {α : Type} {p : Exec α} {f : α → UnionExec Unit} {f' : α → Exec Unit}
    (hf : ∀ a, Does (f a) (f' a)) : Does (bare p >>= f) (p >>= f') :=
  .bare_bind (fun _ _ _ _ h => h) hf

/-- A use that the types allow, and what goes on after it. -/
theorem does_note {u : Use} {f : Unit → UnionExec Unit} {q : Exec Unit} (hu : u.Typed) (hr : ¬u.Refused)
    (hf : Does (f ()) q) : Does (note [u] >>= f) q := by
  refine Erases.note_bind (TypedIfLogic.single hu) (fun s l s' hrun => ?_) hf
  rintro ⟨u', hu', hrefused⟩
  rcases List.mem_cons.mp hu' with rfl | hu'
  · exact absurd hrefused hr
  · exact hrun ⟨u', hu', hrefused⟩

theorem does_readNum {v : BasValue} {f : Int → UnionExec Unit} {q : Exec Unit} (hv : v.type = .num)
    (hf : Does (f v.num) q) : Does (v.readNum >>= f) q := by
  unfold BasValue.readNum
  rw [Prog.bind_assoc]
  exact does_note hv id hf

theorem does_readStr {v : BasValue} {f : List UInt8 → UnionExec Unit} {q : Exec Unit} (hv : v.type = .str)
    (hf : Does (f v.str) q) : Does (v.readStr >>= f) q := by
  unfold BasValue.readStr
  rw [Prog.bind_assoc]
  exact does_note hv id hf

/-- A value of the type that is wanted. -/
theorem does_accepted {user : User} {v : BasValue} {refuse k : UnionExec Unit} {q : Exec Unit}
    (h : user.accepts [v.type] = true) (hk : Does k q) : Does (checked user [v] true refuse k) q :=
  does_note (typed_apply h) nofun hk

/-- A value of the other type. -/
theorem does_refused {user : User} {v : BasValue} {k : UnionExec Unit} {msg : String}
    (h : user.accepts [v.type] = false) :
    Does (checked user [v] false (bare (setError msg)) k) (setError msg) := fun _ =>
  { out := rfl
    state := rfl
    log := rfl
    notes := .single (typed_apply h)
    run := fun _ _ _ => rfl }

/-- What a statement has of an evaluation is what it has of the one on values, and what is refused in
it is an error of the expression. -/
theorem erased_evaluate (pool : PoolAddr) (t : Tokens) (len fuel : Nat) (s : Interp) :
    Erased ⟨TypedIfLogic, fun _ l s' => (∃ u ∈ l, u.Refused) → s'.exprError = true, .nil, .append⟩
      BasValue.value s (evaluate pool t len fuel s) (Basic.evaluate t len fuel s) := by
  have hmeans : Erased evalLaw BasValue.value _ (exprRun pool t len s.vars s.ram fuel _)
      (Eval.exprRun t len s.vars s.ram fuel _) :=
    means_exprRun fuel ⟨s.exec.pos, s.spoolPos, false, s.rnd⟩
  unfold evaluate Basic.evaluate Eval.exprEval
  rw [Prog.bare_get_bind_run, Prog.get_bind_run]
  generalize exprRun pool t len s.vars s.ram fuel ⟨s.exec.pos, s.spoolPos, false, s.rnd⟩ = r at hmeans ⊢
  generalize Eval.exprRun t len s.vars s.ram fuel ⟨s.exec.pos, s.spoolPos, false, s.rnd⟩ = r' at hmeans ⊢
  obtain ⟨out, e, l⟩ := r
  obtain ⟨out', e', l'⟩ := r'
  obtain ⟨hout, hstate, -, hnotes, hrun⟩ := hmeans
  subst hout hstate
  unfold evaluated
  rw [Prog.note_bind_run]
  cases out with
  | halt f =>
    show Erased _ _ s ⟨.halt Stuck.stuck, s, (notes l).map .inr ++ []⟩
      ⟨.halt Stuck.stuck, s, []⟩
    rw [List.append_nil]
    exact .of_notes hnotes nofun
  | done v =>
    show Erased _ _ s ⟨.done v, _, (notes l).map .inr ++ []⟩ ⟨.done v.value, _, []⟩
    rw [List.append_nil]
    exact .of_notes hnotes fun _ _ => (hrun v rfl).1

/-- An expression, and what goes on with its value. -/
theorem does_withExpr {fuel : Nat} {k : BasValue → UnionExec Unit} {k' : Value → Exec Unit}
    (hk : ∀ v, Does (k v) (k' v.value)) :
    Does (withExpr pool t len fuel k) (Basic.withExpr t len fuel k') := by
  intro s
  have heval := erased_evaluate pool t len fuel s
  unfold withExpr Basic.withExpr
  generalize evaluate pool t len fuel = p at heval ⊢
  generalize Basic.evaluate t len fuel = q at heval ⊢
  cases hp : p s with
  | mk out s' l =>
    rw [hp] at heval
    have hstate : s' = (q s).state := heval.state
    cases out with
    | halt e =>
      rw [Prog.bind_run_halt hp, Prog.bind_run_halt (Prog.run_eq heval.out.symm rfl)]
      exact ⟨rfl, heval.state, heval.log, heval.notes, nofun⟩
    | done v =>
      rw [Prog.bind_run_done hp, Prog.bind_run_done (Prog.run_eq heval.out.symm rfl), ← hstate,
        Prog.bare_get_bind_run, Prog.get_bind_run]
      have hnext := Erases.ite (c := s'.exprError = true) (does_bare (setError "SYNTAX ERROR")) (hk v) s'
      refine ⟨hnext.out, hnext.state, ?_, ?_, fun _ ha => ?_⟩
      · exact (entries_append _ _).trans (congrArg₂ _ heval.log hnext.log)
      · exact (notes_append l _).symm ▸ TypedIfLogic.append heval.notes hnext.notes
      · rintro ⟨u, hu, hrefused⟩
        rcases List.mem_append.mp (notes_append l _ ▸ hu) with hu | hu
        · have herror : s'.exprError = true := heval.run v rfl ⟨u, hu, hrefused⟩
          simp only [herror, if_true]
          rfl
        · exact hnext.run _ ha ⟨u, hu, hrefused⟩

/-- An expression that has to be a number, and what goes on with it. -/
theorem does_withNum {fuel : Nat} {k : BasValue → UnionExec Unit} {k' : Int → Exec Unit}
    (hk : ∀ v, v.type = .num → Does (k v) (k' v.num)) :
    Does (withNum pool t len fuel k) (Basic.withNum t len fuel k') := by
  refine does_withExpr fun v => ?_
  obtain ⟨type, n, s, hs⟩ := v
  cases type with
  | num => exact does_accepted rfl (hk _ rfl)
  | str => exact does_refused rfl

/-! ### The statements -/

theorem does_printed {v : BasValue} {f : List UInt8 → UnionExec Unit} {f' : List UInt8 → Exec Unit}
    (hf : ∀ s, Does (f s) (f' s)) : Does (printed v >>= f) (f' (match v.value with
      | .num n => i32ToStr n
      | .str s => s)) := by
  obtain ⟨type, n, s, hs⟩ := v
  cases type with
  | num =>
    show Does ((_ >>= fun n => pure (i32ToStr n)) >>= f) _
    rw [Prog.bind_assoc]
    exact does_readNum rfl (hf _)
  | str => exact does_readStr rfl (hf _)

theorem does_printLoop (fuel rounds : Nat) (newline : Bool) :
    Does (printLoop pool t len fuel rounds newline) (Basic.printLoop t len fuel rounds newline) := by
  induction rounds generalizing newline with
  | zero => exact .halt _
  | succ rounds ih =>
    rw [printLoop, Basic.printLoop]
    refine does_bare_bind fun pos => .ite ?_ (does_bare _)
    refine does_bare_bind fun _ => does_bare_bind fun pos => .ite (does_bare _) (.ite ?_ (.ite ?_ ?_))
    · exact does_bare_bind fun _ => ih false
    · exact does_bare_bind fun _ => does_bare_bind fun _ => ih false
    · refine does_withExpr fun v => does_note rfl nofun ?_
      exact does_printed fun s => does_bare_bind fun _ => ih true

theorem does_execPrint (fuel : Nat) : Does (execPrint pool t len fuel) (Basic.execPrint t len fuel) :=
  does_bare_bind fun _ => does_printLoop fuel fuel true

theorem does_execAssignment (fuel : Nat) :
    Does (execAssignment pool t len fuel) (Basic.execAssignment t len fuel) := by
  refine does_bare_bind fun target => ?_
  cases target with
  | none => exact does_bare _
  | some v =>
    refine does_bare_bind fun _ => does_bare_bind fun _ => .ite (does_bare _) ?_
    refine does_bare_bind fun _ => does_withExpr fun value => ?_
    obtain ⟨type, n, s, hs⟩ := value
    cases v.isString with
    | true =>
      cases type with
      | num => exact does_refused rfl
      | str => exact does_accepted rfl (does_readStr rfl (does_bare _))
    | false =>
      cases type with
      | num => exact does_accepted rfl (does_readNum rfl (does_bare _))
      | str => exact does_refused rfl

theorem does_execGoto (fuel : Nat) : Does (execGoto pool t len fuel) (Basic.execGoto t len fuel) :=
  does_bare_bind fun _ => does_withNum fun _ hv => does_readNum hv (does_bare _)

theorem does_execGosub (fuel : Nat) : Does (execGosub pool t len fuel) (Basic.execGosub t len fuel) := by
  refine does_bare_bind fun _ => does_withNum fun v hv => does_bare_bind fun s => .ite (does_bare _) ?_
  exact does_bare_bind fun pos => does_bare_bind fun _ => does_bare_bind fun _ =>
    does_readNum hv (does_bare _)

theorem does_expect {c : UInt8} {k : UnionExec Unit} {k' : Exec Unit} (hk : Does k k') :
    Does (expect t len c k) (Basic.expect t len c k') :=
  does_bare_bind fun _ => does_bare_bind fun _ => .ite (does_bare _) (does_bare_bind fun _ => hk)

theorem does_withStep {fuel : Nat} {k : Int → UnionExec Unit} {k' : Int → Exec Unit}
    (hk : ∀ n, Does (k n) (k' n)) : Does (withStep pool t len fuel k) (Basic.withStep t len fuel k') :=
  does_bare_bind fun _ => does_bare_bind fun _ =>
    .ite (does_bare_bind fun _ => does_withNum fun _ hv => does_readNum hv (hk _)) (hk 1)

theorem does_enterLoop {v : VarTarget} {limit : BasValue} {step : Int} (hlimit : limit.type = .num) :
    Does (enterLoop v limit step) (Basic.enterLoop v limit.num step) :=
  does_bare_bind fun _ => does_bare_bind fun _ => .ite (does_bare _) (does_readNum hlimit (does_bare _))

theorem does_execFor (fuel : Nat) : Does (execFor pool t len fuel) (Basic.execFor t len fuel) := by
  refine does_bare_bind fun _ => does_bare_bind fun target => ?_
  cases target with
  | none => exact does_bare _
  | some v =>
    refine .ite (does_bare _) (does_expect (does_withNum fun start hstart => ?_))
    refine does_expect (does_withNum fun limit hlimit => does_withStep fun step => ?_)
    exact does_readNum hstart (does_bare_bind fun _ => does_enterLoop hlimit)

theorem does_execPoke (fuel : Nat) : Does (execPoke pool t len fuel) (Basic.execPoke t len fuel) := by
  refine does_bare_bind fun _ => does_withNum fun addr haddr => ?_
  refine does_bare_bind fun _ => does_bare_bind fun _ => does_withNum fun val hval => ?_
  exact does_readNum haddr (does_readNum hval (does_bare _))

theorem does_isTrue {v : BasValue} {f : Bool → UnionExec Unit} {f' : Bool → Exec Unit}
    (hf : ∀ b, Does (f b) (f' b)) : Does (isTrue v >>= f) (f' v.value.isTrue) := by
  obtain ⟨type, n, s, hs⟩ := v
  cases type with
  | num =>
    show Does ((_ >>= fun n => pure (decide (n ≠ 0))) >>= f) _
    rw [Prog.bind_assoc]
    exact does_readNum rfl (hf _)
  | str =>
    show Does ((_ >>= fun s : List UInt8 => pure (decide (s.length > 0))) >>= f) _
    rw [Prog.bind_assoc]
    exact does_readStr rfl (hf _)

section Recursive

variable {statement : UnionExec Unit} {statement' : Exec Unit} (h : Does statement statement')
include h

theorem does_execThen : Does (execThen t len statement) (Basic.execThen t len statement') := by
  refine does_bare_bind fun _ => does_bare_bind fun _ => .ite ?_ h
  exact does_bare_bind fun _ => does_bare_bind fun _ => does_bare_bind fun _ => does_bare _

theorem does_execElse : Does (execElse t len statement) (Basic.execElse t len statement') :=
  does_bare_bind fun _ => does_bare_bind fun _ => .ite (does_bare_bind fun _ => h) does_pure

theorem does_execIf (fuel : Nat) :
    Does (execIf pool t len fuel statement) (Basic.execIf t len fuel statement') := by
  refine does_bare_bind fun _ => does_withExpr fun cond => does_bare_bind fun _ => does_bare_bind fun _ => ?_
  have hbranch (b : Bool) : Does (if b then execThen t len statement else execElse t len statement)
      (if b then Basic.execThen t len statement' else Basic.execElse t len statement') :=
    .ite (does_execThen h) (does_execElse h)
  exact does_note rfl nofun (does_isTrue hbranch)

theorem does_execSwitch (fuel : Nat) (tok : UInt8) :
    Does (execSwitch pool t len fuel statement tok) (Basic.execSwitch t len fuel statement' tok) := by
  unfold execSwitch Basic.execSwitch
  refine .ite (does_execPrint fuel) (.ite (does_bare _) (.ite ?assign (.ite (does_execAssignment fuel) (.ite
    (does_execIf h fuel) (.ite (does_execGoto fuel) (.ite (does_execGosub fuel) (.ite (does_bare _) (.ite
    (does_execFor fuel) (.ite (does_bare _) (.ite (does_bare _) (.ite ?ends (.ite (does_execPoke fuel) (.ite
    ?clears (.ite ?resets (does_bare _)))))))))))))))
  case assign => exact does_bare_bind fun _ => does_execAssignment fuel
  case ends | clears | resets => exact does_bare_bind fun _ => does_bare _

end Recursive

/-- A statement on unions is the statement on values. -/
theorem does_execStatement (fuel : Nat) :
    Does (execStatement pool t len fuel) (Basic.execStatement t len fuel) := by
  induction fuel with
  | zero => exact .halt _
  | succ fuel ih =>
    rw [execStatement, Basic.execStatement]
    refine does_bare_bind fun pos => does_bare_bind fun _ => .ite ?_ (does_bare_bind fun stop => .ite ?_ ?_)
    · exact does_pure
    · exact does_pure
    · exact does_bare_bind fun _ => does_execSwitch ih fuel _

end Unions

/-- A run uses values at their types: each field that it reads is of the type of the value, what is
applied to values of another type reports an error, and such an error is there where the run returns. -/
structure UsesTyped {σ ε κ α : Type} (error : σ → Bool) (r : Run σ ε (κ ⊕ Use) α) : Prop where
  typed : ∀ u ∈ notes r.log, u.Typed
  reported : ∀ a, r.out = .done a → (∃ u ∈ notes r.log, u.Refused) → error r.state = true

/-- `AND` and `OR` are carried out on numbers only. -/
def LogicOnNumbers {σ ε κ α : Type} (r : Run σ ε (κ ⊕ Use) α) : Prop := ∀ u ∈ notes r.log, u.LogicTyped

/-- Without its notes, the run is the other one. -/
structure SameRun {σ ε κ α β : Type} (g : α → β) (r : Run σ ε (κ ⊕ Use) α) (r' : Run σ ε κ β) : Prop where
  out : r.out.map g = r'.out
  state : r.state = r'.state
  log : entries r.log = r'.log

open Unions in
/-- Expressions and statements use values at their types exactly if they carry out `AND` and `OR` on
numbers only; and but for their notes they are the expressions and statements of the interpreter. -/
theorem values_typed_iff (pool : PoolAddr) (t : Tokens) (len fuel : Nat) :
    (∀ (vars : Vars) (ram : Bytes) (e : Eval),
      (UsesTyped (·.error) (exprRun pool t len vars ram fuel e) ↔
        LogicOnNumbers (exprRun pool t len vars ram fuel e)) ∧
      SameRun BasValue.value (exprRun pool t len vars ram fuel e) (Eval.exprRun t len vars ram fuel e)) ∧
    ∀ s : Interp,
      (UsesTyped (·.hasError) (Unions.execStatement pool t len fuel s) ↔
        LogicOnNumbers (Unions.execStatement pool t len fuel s)) ∧
      SameRun id (Unions.execStatement pool t len fuel s) (execStatement t len fuel s) := by
  refine ⟨fun vars ram e => ?_, fun s => ?_⟩
  · have h : Erased evalLaw BasValue.value e (exprRun pool t len vars ram fuel e)
        (Eval.exprRun t len vars ram fuel e) := means_exprRun fuel e
    refine ⟨⟨fun huses u hu => (huses.typed u hu).logic, fun hlogic => ?_⟩, h.out, h.state, h.log⟩
    exact ⟨h.notes hlogic, fun a ha => (h.run a ha).1⟩
  · have h : Erased execLaw id s (Unions.execStatement pool t len fuel s) (execStatement t len fuel s) :=
      does_execStatement fuel s
    refine ⟨⟨fun huses u hu => (huses.typed u hu).logic, fun hlogic => ?_⟩, h.out, h.state, h.log⟩
    exact ⟨h.notes hlogic, h.run⟩

/-- A line that takes a string for a condition. -/
def stringAnd : Interp := Interp.ofText (ascii "PRINT \"A\" AND 1")

/-- It reads the pointer to the string as a number, and goes on. -/
theorem string_and_read : ¬∀ (pool : PoolAddr) (t : Tokens) (len fuel : Nat) (s : Interp),
    UsesTyped (·.hasError) (Unions.execStatement pool t len fuel s) := by
  intro h
  have huses := h ⟨1, by decide, by decide⟩ (stringAnd.prog.tokens 0) (stringAnd.prog.dataLen 0) 4 stringAnd
  have hread : Use.read .num .str ∈ notes (Unions.execStatement ⟨1, by decide, by decide⟩
      (stringAnd.prog.tokens 0) (stringAnd.prog.dataLen 0) 4 stringAnd).log := by decide
  exact absurd (huses.typed _ hread) nofun

end RainbowOs.Basic
