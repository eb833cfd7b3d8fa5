import RainbowOs.Basic.Loops
import RainbowOs.Basic.Pieces
import RainbowOs.Basic.Places

/-!
# `FOR … NEXT`

`NEXT` adds the step to the variable in 32 bits before it looks whether the
limit is passed. A lap of a loop is a run from after its `FOR` to its `NEXT`
that leaves the variable and the loop alone; whatever the body is, the value
at each `NEXT` is known, and so is the number of laps. `for_next_count_iff`
says for which loops it is what it should be.
-/

namespace RainbowOs.Basic

open RainbowOs.Lib
open Prog (get_bind_run modify_bind_run tell_bind_run bind_run_prepend bind_run_quiet)

/-- The limit is passed. -/
def Past (step limit v : Int) : Prop := if step > 0 then v > limit else v < limit

instance (step limit v : Int) : Decidable (Past step limit v) :=
  inferInstanceAs (Decidable (if step > 0 then v > limit else v < limit))

/-- How often the body of a loop is to be executed. -/
def lapCount (start limit step : Int) : Nat := (max 1 ((limit - start).fdiv step + 1)).toNat

/-- The variable that a `NEXT` names, and where it ends. -/
def nameAt (t : Tokens) (len pos : Nat) : Option (UInt8 × Int) × Nat :=
  let q := skipSp t len pos
  let c := peekTok t len q
  let d := peekTok t len (adv q 1)
  if isAlpha c then
    if isDigit d then (some (toUpper c, d.toNat - 48), adv (adv q 1) 1)
    else (some (toUpper c, -1), adv q 1)
  else (none, q)

/-- The variable that `parse_var_target` finds, and where it ends. -/
def targetAt (t : Tokens) (len pos : Nat) : Option VarTarget × Nat :=
  let q := skipSp t len pos
  let c := peekTok t len q
  let d := peekTok t len (adv q 1)
  if isAlpha c then
    if d = 36 then (some ⟨toUpper c, -1, true⟩, adv (adv q 1) 1)
    else if isDigit d then (some ⟨toUpper c, d.toNat - 48, false⟩, adv (adv q 1) 1)
    else (some ⟨toUpper c, -1, false⟩, adv q 1)
  else (none, q)

/-- The state with a number in a slot. -/
def Interp.withNum (s : Interp) (slot : Nat) (n : Int) : Interp :=
  { s with vars := { s.vars with nums := Function.update s.vars.nums slot n } }

section Statements

variable {t : Tokens} {len fuel : Nat} {s : Interp}

theorem nextName_run (pos : Nat) : nextName t len (s.at pos) =
    ⟨.done (nameAt t len pos).1, s.at (nameAt t len pos).2, []⟩ := by
  rw [nextName, bind_run_quiet (skip_at t len s pos), bind_run_quiet (peek_at t len s _), nameAt]
  split
  · rw [bind_run_quiet (setPos_at s _), bind_run_quiet (peek_at t len s _)]
    split
    · rfl
    · rfl
  · rfl

theorem parseVarTarget_run (pos : Nat) : parseVarTarget t len (s.at pos) =
    ⟨.done (targetAt t len pos).1, s.at (targetAt t len pos).2, []⟩ := by
  rw [parseVarTarget, bind_run_quiet (skip_at t len s pos), bind_run_quiet (peek_at t len s _), targetAt]
  split
  · rw [bind_run_quiet (setPos_at s _), bind_run_quiet (peek_at t len s _)]
    split
    · rfl
    split
    · rfl
    · rfl
  · rfl

theorem setNum_run {name : UInt8} {idx : Int} {slot : Nat} (h : varNum name idx = some slot) (n : Int) :
    setNum name idx n s = ⟨.done (), s.withNum slot n, []⟩ := by
  rw [setNum, h]
  rfl

/-- The state in which `NEXT` goes back to the loop. -/
def Interp.looped (s : Interp) (f : ForEntry) : Interp :=
  { s with exec := { s.exec with currentLine := f.line, pos := f.pos, jumped := true } }

/-- The state in which `NEXT` leaves the loop. -/
def Interp.left (s : Interp) (rest : List ForEntry) : Interp :=
  { s with exec := { s.exec with forStack := rest } }

/-- `NEXT` steps the variable of its loop, goes back, or takes the loop off with all above it. -/
theorem execNext_run {f : ForEntry} {above rest : List ForEntry} {slot q : Nat}
    (hname : (nameAt t len (adv q 1)).1 = some (f.var, f.varIdx))
    (hstack : s.exec.forStack = above ++ f :: rest) (habove : ∀ g ∈ above, g.loop ≠ f.loop)
    (hslot : varNum f.var f.varIdx = some slot) : execNext t len (s.at q) =
      ⟨.done (), if Past f.step f.limit (i32 (s.vars.nums slot + f.step))
        then ((s.at (nameAt t len (adv q 1)).2).withNum slot (i32 (s.vars.nums slot + f.step))).left rest
        else ((s.at (nameAt t len (adv q 1)).2).withNum slot (i32 (s.vars.nums slot + f.step))).looped f,
        []⟩ := by
  have hdrop : ∀ pos, (s.at pos).exec.forStack.dropWhile
      (fun g => g.var ≠ f.var ∨ g.varIdx ≠ f.varIdx) = f :: rest := by
    intro pos
    show s.exec.forStack.dropWhile _ = _
    rw [hstack, List.dropWhile_append_of_pos]
    · simp [List.dropWhile]
    · exact fun g hg => decide_eq_true (not_and_or.mp fun h => habove g hg (Prod.ext h.1 h.2))
  have hnextName := @nextName_run t len s (adv q 1)
  rw [hname] at hnextName
  rw [execNext, bind_run_quiet (setPos_at s q), bind_run_quiet hnextName, get_bind_run]
  simp only [hdrop, hslot]
  rw [get_bind_run, bind_run_quiet (setNum_run hslot _)]
  by_cases hpast : Past f.step f.limit (i32 (s.vars.nums slot + f.step))
  · rw [if_pos hpast]
    exact congrFun (if_pos hpast) _
  · rw [if_neg hpast]
    exact congrFun (if_neg hpast) _

/-- What is read of `FOR` at a position: the variable, the three numbers, and the state of the
evaluator at the end. A step that is not there is 1. -/
structure ForHead (t : Tokens) (len fuel : Nat) (s : Interp) (q : Nat) (v : VarTarget)
    (start limit st : Int) (e : Eval) : Prop where
  target : (targetAt t len (adv q 1)).1 = some v
  number : v.isString = false
  numbers : ∃ e₁ e₂ : Eval, ∃ p₁ p₂ p₃ : Nat,
    skipSp t len (targetAt t len (adv q 1)).2 = p₁ ∧ peekTok t len p₁ = 61 ∧
    Eval.exprEval t len s.vars s.ram fuel ⟨adv p₁ 1, s.spoolPos, false, s.rnd⟩ =
      some (.num start, e₁) ∧ e₁.error = false ∧
    skipSp t len e₁.pos = p₂ ∧ peekTok t len p₂ = Tok.to_ ∧
    Eval.exprEval t len s.vars s.ram fuel ⟨adv p₂ 1, e₁.spoolPos, false, e₁.rnd⟩ =
      some (.num limit, e₂) ∧ e₂.error = false ∧
    skipSp t len e₂.pos = p₃ ∧
    (peekTok t len p₃ = Tok.step ∧ e.error = false ∧
        Eval.exprEval t len s.vars s.ram fuel ⟨adv p₃ 1, e₂.spoolPos, false, e₂.rnd⟩ = some (.num st, e) ∨
      peekTok t len p₃ ≠ Tok.step ∧ st = 1 ∧ e = { e₂ with pos := p₃ })

/-- The entry that `FOR` puts on the stack. -/
def ForHead.entry (s : Interp) (v : VarTarget) (limit st : Int) (e : Eval) : ForEntry :=
  ⟨v.name, v.idx, limit, st, s.exec.currentLine, e.pos⟩

/-- The state after `FOR`. -/
def Interp.begun (s : Interp) (slot : Nat) (start : Int) (f : ForEntry) (e : Eval) : Interp :=
  let s := ((s.evaluated e).at e.pos).withNum slot start
  { s with exec := { s.exec with forStack := f :: s.exec.forStack } }

theorem expect_run {c : UInt8} {pos p : Nat} (hskip : skipSp t len pos = p) (hpeek : peekTok t len p = c)
    (k : Exec Unit) : expect t len c k (s.at pos) = k (s.at (adv p 1)) := by
  rw [expect, bind_run_quiet (skip_at t len s pos), hskip, bind_run_quiet (peek_at t len s p),
    if_neg (not_not_intro hpeek), bind_run_quiet (setPos_at s p)]

theorem enterLoop_run {v : VarTarget} {limit st : Int} (hroom : s.exec.forStack.length < 8) :
    enterLoop v limit st s = ⟨.done (), { s with exec := { s.exec with
      forStack := ⟨v.name, v.idx, limit, st, s.exec.currentLine, s.exec.pos⟩ :: s.exec.forStack } },
      [.loop v.name v.idx s.exec.forStack]⟩ := by
  rw [enterLoop, get_bind_run, tell_bind_run, if_neg (Nat.not_le.mpr hroom)]
  rfl

/-- `FOR` sets its variable and puts the loop on the stack. -/
theorem execFor_run {q slot : Nat} {v : VarTarget} {start limit st : Int} {e : Eval}
    (h : ForHead t len fuel s q v start limit st e) (hslot : varNum v.name v.idx = some slot)
    (hroom : s.exec.forStack.length < 8) : execFor t len fuel (s.at q) =
      ⟨.done (), s.begun slot start (ForHead.entry s v limit st e) e, [.loop v.name v.idx s.exec.forStack]⟩ := by
  obtain ⟨e₁, e₂, p₁, p₂, p₃, hskip₁, htok₁, hval₁, herr₁, hskip₂, htok₂, hval₂, herr₂, hskip₃, hstep⟩ := h.numbers
  have htarget := @parseVarTarget_run t len s (adv q 1)
  rw [h.target] at htarget
  rw [execFor, bind_run_quiet (setPos_at s q), bind_run_quiet htarget]
  simp only [h.number, Bool.false_eq_true, if_false]
  rw [expect_run hskip₁ htok₁, withNum_run hval₁ herr₁, expect_run hskip₂ htok₂,
    withNum_run (s := s.evaluated e₁) hval₂ herr₂, withStep,
    bind_run_quiet (skip_at t len ((s.evaluated e₁).evaluated e₂) e₂.pos), hskip₃,
    bind_run_quiet (peek_at t len ((s.evaluated e₁).evaluated e₂) p₃)]
  rcases hstep with ⟨htok₃, herr, hval⟩ | ⟨htok₃, rfl, rfl⟩
  · rw [if_pos htok₃, bind_run_quiet (setPos_at _ p₃),
      withNum_run (s := (s.evaluated e₁).evaluated e₂) hval herr, bind_run_quiet (setNum_run hslot start)]
    exact enterLoop_run hroom
  · rw [if_neg htok₃, bind_run_quiet (setNum_run hslot start)]
    exact enterLoop_run hroom

theorem execSwitch_next (statement : Exec Unit) :
    execSwitch t len fuel statement Tok.next = execNext t len := rfl

theorem execSwitch_for (statement : Exec Unit) :
    execSwitch t len fuel statement Tok.for_ = execFor t len fuel := rfl

end Statements

/-! ## Laps -/

/-- The run is at the `NEXT` of the loop `f`, which is on the stack above `rest`. -/
structure AtNext (f : ForEntry) (rest : List ForEntry) (c : Place) (rounds q : Nat) : Prop where
  at_ : c.At rounds q
  tok : c.tokens.tok q = Tok.next
  name : (nameAt c.tokens c.len (adv q 1)).1 = some (f.var, f.varIdx)
  noBreak : ¬c.state.Break
  notJumped : c.state.exec.jumped = false
  stack : ∃ above, c.state.exec.forStack = above ++ f :: rest ∧ ∀ g ∈ above, g.loop ≠ f.loop

/-- The variable of the loop, when `NEXT` has stepped it. -/
def Place.stepped (c : Place) (f : ForEntry) (slot : Nat) : Int :=
  i32 (c.state.vars.nums slot + f.step)

/-- The state when the variable is stepped, after the `NEXT` at `q`. -/
def Place.afterNext (c : Place) (f : ForEntry) (slot q : Nat) : Interp :=
  (c.state.polled.at (nameAt c.tokens c.len (adv q 1)).2).withNum slot (c.stepped f slot)

/-- A step of the variable changes nothing but the variables and the position. -/
theorem Place.afterNext_state (c : Place) (f : ForEntry) (slot q : Nat) :
    (c.afterNext f slot q).exec = { c.state.exec with pos := (nameAt c.tokens c.len (adv q 1)).2 } ∧
      (c.afterNext f slot q).prog = c.state.prog ∧
      (c.afterNext f slot q).hasError = c.state.hasError ∧
      (c.afterNext f slot q).hasKey = c.state.hasKey := by
  unfold Place.afterNext
  generalize c.stepped f slot = v
  generalize (nameAt c.tokens c.len (adv q 1)).2 = p
  exact ⟨rfl, rfl, rfl, rfl⟩

/-- Where `NEXT` goes back to. -/
def Place.back (c : Place) (fuel : Nat) (f : ForEntry) (line slot q : Nat) : Place :=
  ((c.afterNext f slot q).looped f).enters fuel line f.pos

theorem Place.back_state (c : Place) (fuel : Nat) (f : ForEntry) (line slot q : Nat) :
    (c.back fuel f line slot q).state.exec =
        { c.state.exec with currentLine := f.line, pos := f.pos, jumped := false } ∧
      (c.back fuel f line slot q).state.prog = c.state.prog ∧
      (c.back fuel f line slot q).state.hasError = c.state.hasError ∧
      (c.back fuel f line slot q).state.hasKey = c.state.hasKey := by
  obtain ⟨hexec, hprog, herror, hkey⟩ := c.afterNext_state f slot q
  unfold Place.back
  generalize c.afterNext f slot q = s at hexec hprog herror hkey
  refine ⟨?_, hprog, herror, hkey⟩
  show { s.exec with currentLine := f.line, pos := f.pos, jumped := false } = _
  rw [hexec]

/-- Where `NEXT` leaves the loop to. -/
def Place.leave (c : Place) (f : ForEntry) (rest : List ForEntry) (slot rounds q : Nat) : Place :=
  ⟨c.line, rounds, (c.afterNext f slot q).left rest⟩

/-- The body of the loop is executed from a place on, up to its `NEXT`, and neither sets the variable
of the loop nor takes the loop off. -/
structure Body (fuel : Nat) (f : ForEntry) (rest : List ForEntry) (slot : Nat) (c : Place)
    (l : List Event) (c' : Place) (rounds q : Nat) : Prop where
  runs : RunsTo fuel c l c'
  ends : AtNext f rest c' rounds q
  keeps : c'.state.vars.nums slot = c.state.vars.nums slot

/-- The body is executed `n` times from a place on, each time up to `NEXT`, and `NEXT` leaves the loop
after the last one. -/
inductive Laps (fuel : Nat) (f : ForEntry) (line : Nat) (rest : List ForEntry) (slot : Nat) :
    Nat → Place → List Event → Place → Prop where
  | last {c c' : Place} {l : List Event} {rounds q : Nat} (hbody : Body fuel f rest slot c l c' rounds q)
      (hpast : Past f.step f.limit (c'.stepped f slot)) :
      Laps fuel f line rest slot 1 c (l ++ [.stmt (c'.line + 3) q]) (c'.leave f rest slot rounds q)
  | again {n : Nat} {c c' c'' : Place} {l l' : List Event} {rounds q : Nat}
      (hbody : Body fuel f rest slot c l c' rounds q) (hpast : ¬Past f.step f.limit (c'.stepped f slot))
      (hlaps : Laps fuel f line rest slot n (c'.back fuel f line slot q) l' c'') :
      Laps fuel f line rest slot (n + 1) c (l ++ .stmt (c'.line + 3) q :: l') c''

section Laps

variable {fuel line slot rounds q n : Nat} {f : ForEntry} {rest : List ForEntry} {c c' : Place}
  {l : List Event}

/-- What the statement `NEXT` does. -/
theorem AtNext.run (h : AtNext f rest c rounds q) (hslot : varNum f.var f.varIdx = some slot) :
    execStatement c.tokens c.len (fuel + 1) (c.state.at q) = ⟨.done (),
      if Past f.step f.limit (c.stepped f slot) then (c.afterNext f slot q).left rest
      else (c.afterNext f slot q).looped f, [.stmt (c.line + 3) q]⟩ := by
  obtain ⟨above, hstack, habove⟩ := h.stack
  have hstay : skipSp c.tokens c.len (c.state.at q).exec.pos = q := by
    have hskip := @skipSp_skipSp c.tokens c.len c.state.exec.pos
    rw [h.at_.skip] at hskip
    exact hskip
  rw [execStatement_run hstay h.at_.inLine h.at_.running h.noBreak, h.tok, execSwitch_next]
  have hnext := @execNext_run c.tokens c.len c.state.polled _ _ _ _ _ h.name hstack habove hslot
  unfold Place.afterNext Place.stepped
  exact congrArg (Run.prepend [.stmt (c.line + 3) q]) hnext

/-- A lap that is not the last one. -/
theorem AtNext.goes_back (h : AtNext f rest c rounds q) (hslot : varNum f.var f.varIdx = some slot)
    (hline : f.line = some line) (hpast : ¬Past f.step f.limit (c.stepped f slot)) :
    RunsTo (fuel + 1) c [.stmt (c.line + 3) q] (c.back (fuel + 1) f line slot q) := by
  obtain ⟨hexec, -, herror, -⟩ := c.afterNext_state f slot q
  have hrun := @AtNext.run fuel slot _ _ _ _ _ h hslot
  rw [if_neg hpast] at hrun
  unfold Place.back
  generalize c.afterNext f slot q = s at hexec herror hrun
  refine RunsTo.jump h.at_ hrun rfl ?_ (herror.trans h.at_.noError) hline
  show s.exec.running = true
  rw [hexec]
  exact h.at_.running

/-- The last one. -/
theorem AtNext.leaves (h : AtNext f rest c rounds q) (hslot : varNum f.var f.varIdx = some slot)
    (hpast : Past f.step f.limit (c.stepped f slot)) :
    RunsTo (fuel + 1) c [.stmt (c.line + 3) q] (c.leave f rest slot rounds q) := by
  obtain ⟨hexec, hprog, -, -⟩ := c.afterNext_state f slot q
  have hrun := @AtNext.run fuel slot _ _ _ _ _ h hslot
  rw [if_pos hpast] at hrun
  unfold Place.leave
  generalize c.afterNext f slot q = s at hexec hprog hrun
  refine RunsTo.statement h.at_ hrun hprog ?_
  show s.exec.jumped = false
  rw [hexec]
  exact h.notJumped

/-- Laps are a run. -/
theorem Laps.runsTo (hslot : varNum f.var f.varIdx = some slot) (hline : f.line = some line)
    (h : Laps (fuel + 1) f line rest slot n c l c') : RunsTo (fuel + 1) c l c' := by
  induction h with
  | last hbody hpast => exact hbody.runs.trans (hbody.ends.leaves hslot hpast)
  | again hbody hpast _ ih =>
    exact hbody.runs.trans ((hbody.ends.goes_back hslot hline hpast).trans ih)

/-- A loop that is left is taken off the stack. -/
theorem Laps.popped (h : Laps fuel f line rest slot n c l c') : c'.state.exec.forStack = rest := by
  induction h with
  | last => rfl
  | again _ _ _ ih => exact ih

theorem i32_add (x y : Int) : i32 (i32 x + y) = i32 (x + y) := by
  unfold i32
  omega

theorem stepped_keeps (h : Body fuel f rest slot c l c' rounds q) :
    c'.stepped f slot = i32 (c.state.vars.nums slot + f.step) := by
  rw [Place.stepped, h.keeps]

/-- The variable after a lap. -/
theorem back_value (h : Body fuel f rest slot c l c' rounds q) (k : Nat) :
    i32 ((c'.back fuel f line slot q).state.vars.nums slot + k * f.step) =
      i32 (c.state.vars.nums slot + (k + 1 : Nat) * f.step) := by
  have hvalue : (c'.back fuel f line slot q).state.vars.nums slot = c'.stepped f slot :=
    Function.update_self ..
  rw [hvalue, stepped_keeps h, i32_add, Int.natCast_add, Int.add_mul, Int.add_assoc]
  congr 2
  rw [Int.add_comm]
  simp

/-- After the last lap the limit is passed. -/
theorem Laps.past (h : Laps fuel f line rest slot n c l c') :
    Past f.step f.limit (i32 (c.state.vars.nums slot + n * f.step)) := by
  induction h with
  | last hbody hpast =>
    rw [stepped_keeps hbody] at hpast
    simpa using hpast
  | again hbody _ _ ih =>
    rw [back_value hbody] at ih
    exact ih

/-- Where the limit is passed for the first time after `n` laps, there are `n` laps. -/
theorem exists_laps {Inv : Place → Prop} (hinv : ∀ c, Inv c → ∃ l c' rounds q,
      Body fuel f rest slot c l c' rounds q ∧ Inv (c'.back fuel f line slot q))
    (n : Nat) {c : Place} (hc : Inv c)
    (hbefore : ∀ k : Nat, 1 ≤ k → k ≤ n → ¬Past f.step f.limit (i32 (c.state.vars.nums slot + k * f.step)))
    (hpast : Past f.step f.limit (i32 (c.state.vars.nums slot + (n + 1 : Nat) * f.step))) :
    ∃ l c', Laps fuel f line rest slot (n + 1) c l c' := by
  induction n generalizing c with
  | zero =>
    obtain ⟨l, c', rounds, q, hbody, -⟩ := hinv c hc
    refine ⟨_, _, .last hbody ?_⟩
    rw [stepped_keeps hbody]
    simpa using hpast
  | succ n ih =>
    obtain ⟨l, c', rounds, q, hbody, hback⟩ := hinv c hc
    have hfirst : ¬Past f.step f.limit (c'.stepped f slot) := by
      have h := hbefore 1 (Nat.le_refl 1) (Nat.le_add_left 1 n)
      rw [stepped_keeps hbody]
      simpa using h
    obtain ⟨l', c'', hlaps⟩ := ih hback
      (fun k hk hn => by
        rw [back_value hbody]
        exact hbefore (k + 1) (Nat.le_add_left 1 k) (Nat.succ_le_succ hn))
      (by
        rw [back_value hbody]
        exact hpast)
    exact ⟨_, _, .again hbody hfirst hlaps⟩

end Laps

/-! ## The count -/

section Count

variable {start limit st : Int}

theorem lapCount_pos (start limit st : Int) : 1 ≤ lapCount start limit st := by
  unfold lapCount
  omega

/-- Before the last lap the variable is between the start and the limit. -/
theorem between_of_lt {k : Nat} (h : k < lapCount start limit st) (hk : 1 ≤ k) :
    (0 < st → start ≤ start + k * st ∧ start + k * st ≤ limit) ∧
      (st < 0 → limit ≤ start + k * st ∧ start + k * st ≤ start) := by
  have hle : (k : Int) ≤ (limit - start).fdiv st := by
    unfold lapCount at h
    omega
  constructor
  · intro hpos
    rw [Int.fdiv_eq_ediv_of_nonneg _ (Int.le_of_lt hpos)] at hle
    have hmul := Int.mul_le_of_le_ediv hpos hle
    have hnonneg : 0 ≤ (k : Int) * st := Int.mul_nonneg (by omega) (Int.le_of_lt hpos)
    omega
  · intro hneg
    rw [← Int.neg_fdiv_neg, Int.fdiv_eq_ediv_of_nonneg _ (by omega)] at hle
    have hmul := Int.mul_le_of_le_ediv (by omega : 0 < -st) hle
    have hnonneg : 0 ≤ (k : Int) * -st := Int.mul_nonneg (by omega) (by omega)
    rw [Int.mul_neg] at hmul hnonneg
    omega

/-- Nor is the limit passed, in 32 bits. -/
theorem not_past_of_lt {k : Nat} (hstart : -2147483648 ≤ start ∧ start < 2147483648)
    (hlimit : -2147483648 ≤ limit ∧ limit < 2147483648) (hst : st ≠ 0)
    (h : k < lapCount start limit st) (hk : 1 ≤ k) : ¬Past st limit (i32 (start + k * st)) := by
  obtain ⟨hup, hdown⟩ := between_of_lt h hk
  unfold Past
  rcases Int.lt_or_gt_of_ne hst with hneg | hpos
  · have hbetween := hdown hneg
    rw [i32_eq (by omega), if_neg (by omega)]
    omega
  · have hbetween := hup hpos
    rw [i32_eq (by omega), if_pos hpos]
    omega

/-- After the last lap it is passed, counted exactly. -/
theorem past_lapCount (hst : st ≠ 0) : Past st limit (start + lapCount start limit st * st) := by
  have hle : (limit - start).fdiv st + 1 ≤ lapCount start limit st := by
    unfold lapCount
    omega
  unfold Past
  rcases Int.lt_or_gt_of_ne hst with hneg | hpos
  · rw [if_neg (by omega)]
    rw [← Int.neg_fdiv_neg] at hle
    have hlt := Int.lt_fdiv_add_one_mul_self (-(limit - start)) (by omega : 0 < -st)
    have hmul := Int.mul_le_mul_of_nonneg_right hle (by omega : 0 ≤ -st)
    rw [Int.mul_neg (lapCount start limit st : Int)] at hmul
    omega
  · rw [if_pos hpos]
    have hlt := Int.lt_fdiv_add_one_mul_self (limit - start) hpos
    have hmul := Int.mul_le_mul_of_nonneg_right hle (Int.le_of_lt hpos)
    omega

/-- And in 32 bits, if the value fits. -/
theorem past_of_fits (hst : st ≠ 0)
    (h : -2147483648 ≤ start + lapCount start limit st * st ∧
      start + lapCount start limit st * st < 2147483648) :
    Past st limit (i32 (start + lapCount start limit st * st)) := by
  rw [i32_eq h]
  exact past_lapCount hst

end Count

/-- The place after `FOR`. -/
def Place.begun (c : Place) (rounds slot : Nat) (v : VarTarget) (start limit st : Int) (e : Eval) : Place :=
  ⟨c.line, rounds, c.state.polled.begun slot start (ForHead.entry c.state v limit st e) e⟩

/-- The body of the loop is executed `n` times, which is a run of the code, and the loop is then off the
stack. -/
def RunsLaps (fuel : Nat) (f : ForEntry) (line : Nat) (rest : List ForEntry) (slot n : Nat) (c : Place) :
    Prop :=
  ∃ l c', Laps fuel f line rest slot n c l c' ∧ RunsTo fuel c l c' ∧ c'.state.exec.forStack = rest

/-- The numbers of laps of a loop whose body reaches its `NEXT`. -/
theorem runsLaps_iff {Inv : Place → Prop} {fuel line slot n : Nat} {f : ForEntry} {rest : List ForEntry}
    {c : Place} (hslot : varNum f.var f.varIdx = some slot) (hline : f.line = some line)
    (hinv : ∀ c, Inv c → ∃ l c' rounds q,
      Body (fuel + 1) f rest slot c l c' rounds q ∧ Inv (c'.back (fuel + 1) f line slot q))
    (hc : Inv c) (hn : 1 ≤ n)
    (hbefore : ∀ k : Nat, 1 ≤ k → k < n → ¬Past f.step f.limit (i32 (c.state.vars.nums slot + k * f.step))) :
    RunsLaps (fuel + 1) f line rest slot n c ↔
      Past f.step f.limit (i32 (c.state.vars.nums slot + n * f.step)) := by
  constructor
  · rintro ⟨l, c', hlaps, -, -⟩
    exact hlaps.past
  · intro hpast
    obtain ⟨m, rfl⟩ : ∃ m, n = m + 1 := ⟨n - 1, by omega⟩
    obtain ⟨l, c', hlaps⟩ := exists_laps hinv m hc
      (fun k hk hle => hbefore k hk (Nat.lt_succ_of_le hle)) hpast
    exact ⟨l, c', hlaps, hlaps.runsTo hslot hline, hlaps.popped⟩

/-- A run is at `FOR v = start TO limit STEP st`, for numbers of 32 bits and a step that is not 0, and the
body of the loop is any that runs, from after the `FOR` and from where `NEXT` goes back to, to the
`NEXT` of the loop, and neither sets the variable nor takes the loop off. -/
structure ForLoop (fuel : Nat) (c : Place) (rounds q slot line : Nat) (v : VarTarget)
    (start limit st : Int) (e : Eval) (Inv : Place → Prop) : Prop where
  at_ : c.At rounds q
  tok : c.tokens.tok q = Tok.for_
  head : ForHead c.tokens c.len fuel c.state q v start limit st e
  slot_ : varNum v.name v.idx = some slot
  room : c.state.exec.forStack.length < 8
  line_ : c.state.exec.currentLine = some line
  noBreak : ¬c.state.Break
  notJumped : c.state.exec.jumped = false
  start_ : -2147483648 ≤ start ∧ start < 2147483648
  limit_ : -2147483648 ≤ limit ∧ limit < 2147483648
  step : st ≠ 0
  body : ∀ c', Inv c' → ∃ l c'' rounds' q',
    Body (fuel + 1) (ForHead.entry c.state v limit st e) c.state.exec.forStack slot c' l c'' rounds' q' ∧
      Inv (c''.back (fuel + 1) (ForHead.entry c.state v limit st e) line slot q')
  begins : Inv (c.begun rounds slot v start limit st e)

section Loop

variable {fuel rounds q slot line : Nat} {c : Place} {v : VarTarget} {start limit st : Int} {e : Eval}
  {Inv : Place → Prop}

/-- The `FOR` is executed. -/
theorem ForLoop.runs_for (h : ForLoop fuel c rounds q slot line v start limit st e Inv) :
    RunsTo (fuel + 1) c [.stmt (c.line + 3) q, .loop v.name v.idx c.state.exec.forStack]
      (c.begun rounds slot v start limit st e) := by
  have hstay : skipSp c.tokens c.len (c.state.at q).exec.pos = q := by
    have hskip := @skipSp_skipSp c.tokens c.len c.state.exec.pos
    rw [h.at_.skip] at hskip
    exact hskip
  have hfor := execFor_run (s := c.state.polled) ⟨h.head.target, h.head.number, h.head.numbers⟩
    h.slot_ h.room
  refine @RunsTo.statement (fuel + 1) c _ rounds q (c.begun rounds slot v start limit st e).state h.at_ ?_ rfl
    h.notJumped
  rw [execStatement_run hstay h.at_.inLine h.at_.running h.noBreak, h.tok, execSwitch_for]
  exact congrArg (Run.prepend [.stmt (c.line + 3) q]) hfor

/-- What is needed for the laps to be as many as they should be. -/
theorem ForLoop.laps_iff (h : ForLoop fuel c rounds q slot line v start limit st e Inv) :
    RunsLaps (fuel + 1) (ForHead.entry c.state v limit st e) line c.state.exec.forStack slot
        (lapCount start limit st) (c.begun rounds slot v start limit st e) ↔
      Past st limit (i32 (start + lapCount start limit st * st)) := by
  have hvalue : (c.begun rounds slot v start limit st e).state.vars.nums slot = start :=
    Function.update_self ..
  rw [runsLaps_iff h.slot_ h.line_ h.body h.begins (lapCount_pos start limit st), hvalue]
  · rfl
  · intro k hk hlt
    rw [hvalue]
    exact not_past_of_lt h.start_ h.limit_ h.step hlt hk

end Loop

/-- `FOR` begins its loop, and the body is executed as often as it should be, after which the loop is
off the stack, just when the value after the last time is past the limit in 32 bits too. -/
theorem for_next_count_iff {fuel rounds q slot line : Nat} {c : Place} {v : VarTarget}
    {start limit st : Int} {e : Eval} {Inv : Place → Prop}
    (h : ForLoop fuel c rounds q slot line v start limit st e Inv) :
    RunsTo (fuel + 1) c [.stmt (c.line + 3) q, .loop v.name v.idx c.state.exec.forStack]
        (c.begun rounds slot v start limit st e) ∧
      (RunsLaps (fuel + 1) (ForHead.entry c.state v limit st e) line c.state.exec.forStack slot
          (lapCount start limit st) (c.begun rounds slot v start limit st e) ↔
        Past st limit (i32 (start + lapCount start limit st * st))) :=
  ⟨h.runs_for, h.laps_iff⟩

/-! ## A loop around `CLS` -/

theorem execSwitch_cls {t : Tokens} {len fuel : Nat} (statement : Exec Unit) :
    execSwitch t len fuel statement Tok.cls = (do setPos (adv · 1); Prog.tell .clear) := rfl

/-- After the loop there is a colon at `p`, `CLS` at `r`, a colon, and the `NEXT` of `I` at `q`. -/
structure ClsLoop (prog : Program) (p r q : Nat) : Prop where
  before : p < prog.dataLen 0
  colon : (prog.tokens 0).tok p = 58
  body : skipSp (prog.tokens 0) (prog.dataLen 0) (adv p 1) = r
  inBody : r < prog.dataLen 0
  cls : (prog.tokens 0).tok r = Tok.cls
  inColon : adv r 1 < prog.dataLen 0
  colon' : (prog.tokens 0).tok (adv r 1) = 58
  after : skipSp (prog.tokens 0) (prog.dataLen 0) (adv (adv r 1) 1) = q
  inLine : q < prog.dataLen 0
  next : (prog.tokens 0).tok q = Tok.next
  name : (nameAt (prog.tokens 0) (prog.dataLen 0) (adv q 1)).1 = some (73, -1)

/-- The places at the colon. -/
structure AtColon (prog : Program) (p : Nat) (f : ForEntry) (c : Place) : Prop where
  line : c.line = 0
  rounds : ∃ n, c.rounds = n + 4
  prog : c.state.prog = prog
  pos : c.state.exec.pos = p
  running : c.state.exec.running = true
  noError : c.state.hasError = false
  notJumped : c.state.exec.jumped = false
  noKey : ∀ n, c.state.hasKey n = false
  stack : c.state.exec.forStack = [f]

/-- From the colon the body is executed. -/
theorem ClsLoop.runs {prog : Program} {p r q fuel n : Nat} (h : ClsLoop prog p r q) {s : Interp}
    (hprog : s.prog = prog) (hpos : s.exec.pos = p) (hrun : s.exec.running = true) (herr : s.hasError = false)
    (hjumped : s.exec.jumped = false) (hkey : ∀ n, s.hasKey n = false) :
    RunsTo (fuel + 1) ⟨0, n + 4, s⟩ [.stmt 3 r, .clear] ⟨0, n + 1, s.polled.at (adv (adv r 1) 1)⟩ := by
  subst hprog hpos
  have hcolon : ∀ q : Nat, (s.prog.tokens 0).tok q = 58 → (s.prog.tokens 0).tok q ≠ 32 := by
    intro q hq
    rw [hq]
    decide
  have hcls : (s.prog.tokens 0).tok r ≠ 58 := by
    rw [h.cls]
    decide
  have hstay : skipSp (s.prog.tokens 0) (s.prog.dataLen 0) r = r := by
    refine skipSp_of_ne ?_
    rw [h.cls]
    decide
  have hexec : execStatement (s.prog.tokens 0) (s.prog.dataLen 0) (fuel + 1) (s.at r) =
      ⟨.done (), s.polled.at (adv r 1), [.stmt 3 r, .clear]⟩ := by
    have hbreak : ¬(s.at r).Break := fun hbreak => Bool.false_ne_true ((hkey _).symm.trans hbreak.1)
    rw [execStatement_run (s := s.at r) hstay h.inBody hrun hbreak, h.cls, execSwitch_cls]
    rfl
  have hfirst : RunsTo (fuel + 1) ⟨0, n + 4, s⟩ [] ⟨0, n + 3, s.at (adv s.exec.pos 1)⟩ :=
    RunsTo.colon (c := ⟨0, n + 4, s⟩) rfl (skipSp_of_ne (hcolon _ h.colon)) h.before h.colon hrun herr
  have hbody : RunsTo (fuel + 1) ⟨0, n + 3, s.at (adv s.exec.pos 1)⟩ [.stmt 3 r, .clear]
      ⟨0, n + 2, s.polled.at (adv r 1)⟩ :=
    RunsTo.statement (c := ⟨0, n + 3, s.at (adv s.exec.pos 1)⟩) ⟨rfl, h.body, h.inBody, hcls, hrun, herr⟩ hexec
      rfl hjumped
  have hlast : RunsTo (fuel + 1) ⟨0, n + 2, s.polled.at (adv r 1)⟩ [] ⟨0, n + 1, s.polled.at (adv (adv r 1) 1)⟩ :=
    RunsTo.colon (c := ⟨0, n + 2, s.polled.at (adv r 1)⟩) rfl (skipSp_of_ne (hcolon _ h.colon')) h.inColon
      h.colon' hrun herr
  exact hfirst.trans (hbody.trans hlast)

theorem ClsLoop.laps {prog : Program} {p r q fuel slot : Nat} (h : ClsLoop prog p r q) {f : ForEntry}
    (hvar : f.var = 73) (hidx : f.varIdx = -1) (hpos : f.pos = p) {c : Place} (hc : AtColon prog p f c) :
    ∃ l c' rounds q', Body (fuel + 4) f [] slot c l c' rounds q' ∧
      AtColon prog p f (c'.back (fuel + 4) f 0 slot q') := by
  obtain ⟨line, rounds, s⟩ := c
  obtain ⟨rfl, ⟨n, rfl⟩, rfl, rfl, hrun, herr, hjumped, hkey, hstack⟩ := hc
  have hnext : (s.prog.tokens 0).tok q ≠ 58 := by
    rw [h.next]
    decide
  refine ⟨[.stmt 3 r, .clear], ⟨0, n + 1, s.polled.at (adv (adv r 1) 1)⟩, n, q, ⟨?_, ?_, rfl⟩, ?_⟩
  · exact h.runs rfl rfl hrun herr hjumped hkey
  · exact ⟨⟨rfl, h.after, h.inLine, hnext, hrun, herr⟩, h.next, by rw [hvar, hidx]; exact h.name,
      fun hbreak => Bool.false_ne_true ((hkey _).symm.trans hbreak.1), hjumped, [], hstack, nofun⟩
  · obtain ⟨hexec, hprog, herror, hhasKey⟩ :=
      Place.back_state ⟨0, n + 1, s.polled.at (adv (adv r 1) 1)⟩ (fuel + 4) f 0 slot q
    exact {
      line := rfl
      rounds := ⟨fuel, rfl⟩
      prog := hprog
      pos := by rw [hexec, hpos]
      running := by
        rw [hexec]
        exact hrun
      noError := herror.trans herr
      notJumped := by rw [hexec]
      noKey := fun n => by
        rw [hhasKey]
        exact hkey _
      stack := by
        rw [hexec]
        exact hstack }

/-- Before the loop of a program that has just begun. -/
structure AtStart (s : Interp) : Prop where
  line : s.exec.currentLine = some 0
  pos : s.exec.pos = 0
  running : s.exec.running = true
  noError : s.hasError = false
  notJumped : s.exec.jumped = false
  noKey : ∀ n, s.hasKey n = false
  stack : s.exec.forStack = []

theorem ClsLoop.forLoop {s : Interp} {p r q fuel n : Nat} {start limit st : Int} {e : Eval}
    (h : ClsLoop s.prog p r q) (hs : AtStart s) (htok : (s.prog.tokens 0).tok 0 = Tok.for_)
    (hhead : ForHead (s.prog.tokens 0) (s.prog.dataLen 0) (fuel + 3) s 0 ⟨73, -1, false⟩ start limit st e)
    (hpos : e.pos = p) (hstart : -2147483648 ≤ start ∧ start < 2147483648)
    (hlimit : -2147483648 ≤ limit ∧ limit < 2147483648) (hst : st ≠ 0) :
    ForLoop (fuel + 3) ⟨0, n + 5, s⟩ (n + 4) 0 8 0 ⟨73, -1, false⟩ start limit st e
      (AtColon s.prog p (ForHead.entry s ⟨73, -1, false⟩ limit st e)) where
  at_ := {
    rounds := rfl
    skip := by
      show skipSp _ _ s.exec.pos = 0
      rw [hs.pos]
      refine skipSp_of_ne ?_
      show (s.prog.tokens 0).tok 0 ≠ 32
      rw [htok]
      decide
    inLine := Nat.lt_of_le_of_lt (Nat.zero_le q) h.inLine
    notColon := by
      show (s.prog.tokens 0).tok 0 ≠ 58
      rw [htok]
      decide
    running := hs.running
    noError := hs.noError }
  tok := htok
  head := hhead
  slot_ := by decide
  room := by
    show s.exec.forStack.length < 8
    rw [hs.stack]
    decide
  line_ := hs.line
  noBreak := fun hbreak => Bool.false_ne_true ((hs.noKey _).symm.trans hbreak.1)
  notJumped := hs.notJumped
  start_ := hstart
  limit_ := hlimit
  step := hst
  body := fun c hc => by
    show ∃ l c'' rounds' q', Body (fuel + 4) _ s.exec.forStack 8 c l c'' rounds' q' ∧ _
    rw [hs.stack]
    exact h.laps rfl rfl hpos hc
  begins := {
    line := rfl
    rounds := ⟨n, rfl⟩
    prog := rfl
    pos := hpos
    running := hs.running
    noError := hs.noError
    notJumped := hs.notJumped
    noKey := hs.noKey
    stack := congrArg (_ :: ·) hs.stack }

/-- A program of one line, when it is entered. -/
def Interp.ofTokens (tokens : List UInt8) : Interp :=
  { Interp.withLines [⟨10, tokens⟩] with
    exec := { ExecState.init with currentLine := some 0, running := true } }

theorem atStart_ofTokens (tokens : List UInt8) : AtStart (Interp.ofTokens tokens) :=
  ⟨rfl, rfl, rfl, rfl, rfl, fun _ => rfl, rfl⟩

/-- `FOR I=1 TO 3:CLS:NEXT I` -/
def threeLaps : Interp := Interp.ofTokens
  [Tok.for_, 32, 73, 61, Tok.num, 1, 0, 0, 0, 32, Tok.to_, 32, Tok.num, 3, 0, 0, 0, 58, Tok.cls, 58,
    Tok.next, 32, 73]

theorem clsLoop_three : ClsLoop threeLaps.prog 17 18 20 := by
  constructor <;> decide

theorem head_three : ForHead (threeLaps.prog.tokens 0) (threeLaps.prog.dataLen 0) 4 threeLaps 0
    ⟨73, -1, false⟩ 1 3 1 ⟨17, 0, false, 12345⟩ where
  target := by decide
  number := rfl
  numbers := by
    refine ⟨⟨10, 0, false, 12345⟩, ⟨17, 0, false, 12345⟩, 3, 10, 17, ?_, ?_, ?_, rfl, ?_, ?_, ?_, rfl, ?_, ?_⟩
    all_goals decide

/-- Three laps. -/
theorem for_next_count_iff_three : RunsLaps 5 ⟨73, -1, 3, 1, some 0, 17⟩ 0 [] 8 3
    ((⟨0, 5, threeLaps⟩ : Place).begun 4 8 ⟨73, -1, false⟩ 1 3 1 ⟨17, 0, false, 12345⟩) :=
  (for_next_count_iff (ClsLoop.forLoop clsLoop_three (n := 0) (atStart_ofTokens _) (by decide)
    head_three rfl (by decide) (by decide) (by decide))).2.mpr (past_of_fits (by decide) (by decide))

/-- `FOR I=2147483647 TO 2147483647:CLS:NEXT I` -/
def greatestLap : Interp := Interp.ofTokens
  [Tok.for_, 32, 73, 61, Tok.num, 255, 255, 255, 127, 32, Tok.to_, 32, Tok.num, 255, 255, 255, 127, 58,
    Tok.cls, 58, Tok.next, 32, 73]

theorem clsLoop_greatest : ClsLoop greatestLap.prog 17 18 20 := by
  constructor <;> decide

theorem head_greatest : ForHead (greatestLap.prog.tokens 0) (greatestLap.prog.dataLen 0) 4 greatestLap 0
    ⟨73, -1, false⟩ 2147483647 2147483647 1 ⟨17, 0, false, 12345⟩ where
  target := by decide
  number := rfl
  numbers := by
    refine ⟨⟨10, 0, false, 12345⟩, ⟨17, 0, false, 12345⟩, 3, 10, 17, ?_, ?_, ?_, rfl, ?_, ?_, ?_, rfl, ?_, ?_⟩
    all_goals decide

/-- The loop goes on when the variable wraps. -/
theorem for_next_wraps : ¬∀ (fuel rounds q slot line : Nat) (c : Place) (v : VarTarget)
    (start limit st : Int) (e : Eval) (Inv : Place → Prop),
    ForLoop fuel c rounds q slot line v start limit st e Inv →
      RunsLaps (fuel + 1) (ForHead.entry c.state v limit st e) line c.state.exec.forStack slot
        (lapCount start limit st) (c.begun rounds slot v start limit st e) := by
  intro h
  have hloop := ClsLoop.forLoop clsLoop_greatest (n := 0) (atStart_ofTokens _) (by decide)
    head_greatest rfl (by decide) (by decide) (by decide)
  have hpast := hloop.laps_iff.mp (h _ _ _ _ _ _ _ _ _ _ _ _ hloop)
  exact absurd hpast (by decide)

end RainbowOs.Basic
