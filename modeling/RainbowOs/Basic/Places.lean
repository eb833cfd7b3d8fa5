import RainbowOs.Basic.Conditional

/-!
# Runs from place to place

A place is where a run is between two statements: the line it executes, the
state, and how often its loop may still go round. `RunsTo` says that what a
run does from one place is a log and then what it does from another. The
rules are those of `exec_line_at` and `cmd_run`: a statement, a colon, a
transfer and the end of a line.
-/

namespace RainbowOs.Basic

open RainbowOs.Lib
open Prog (get_bind_run modify_bind_run tell_bind_run bind_run_prepend bind_run_quiet bind_prepend)

section Tokens

variable {t : Tokens} {len fuel : Nat} {s : Interp}

theorem peek_at (t : Tokens) (len : Nat) (s : Interp) (pos : Nat) :
    peek t len (s.at pos) = ⟨.done (peekTok t len pos), s.at pos, []⟩ := rfl

theorem skip_at (t : Tokens) (len : Nat) (s : Interp) (pos : Nat) :
    skip t len (s.at pos) = ⟨.done (), s.at (skipSp t len pos), []⟩ := rfl

theorem setPos_at (s : Interp) (pos : Nat) :
    setPos (adv · 1) (s.at pos) = ⟨.done (), s.at (adv pos 1), []⟩ := rfl

theorem withNum_run {k : Int → Exec Unit} {n : Int} {e : Eval} {pos : Nat}
    (hv : Eval.exprEval t len s.vars s.ram fuel ⟨pos, s.spoolPos, false, s.rnd⟩ = some (.num n, e))
    (he : e.error = false) :
    withNum t len fuel k (s.at pos) = k n ((s.evaluated e).at e.pos) := withExpr_run hv he

end Tokens

/-- Where a run is between two statements. -/
structure Place where
  line : Nat
  rounds : Nat
  state : Interp

namespace Place

/-- The tokens of the line. -/
def tokens (c : Place) : Tokens := c.state.prog.tokens c.line

def len (c : Place) : Nat := c.state.prog.dataLen c.line

end Place

/-- What `cmd_run` does after a line. -/
def afterLine (fuel rounds : Nat) : Exec Unit := do
  let s ← Prog.get
  if s.exec.running ∧ ¬s.hasError then
    if s.exec.jumped then runLoop fuel rounds s.exec.pos
    else
      modifyExec fun x => { x with currentLine := x.currentLine.bind s.prog.nextLine }
      runLoop fuel rounds 0
  else runLoop fuel rounds 0

/-- A statement begins at a position after blanks. -/
structure Place.At (c : Place) (rounds q : Nat) : Prop where
  rounds : c.rounds = rounds + 1
  skip : skipSp c.tokens c.len c.state.exec.pos = q
  inLine : q < c.len
  notColon : c.tokens.tok q ≠ 58
  running : c.state.exec.running = true
  noError : c.state.hasError = false

/-- The rest of a run, from a place on. -/
def Place.run (fuel : Nat) (c : Place) (rounds : Nat) : Run Interp Stuck Event Unit :=
  (lineLoop c.tokens c.len fuel c.rounds >>= fun _ => afterLine fuel rounds) c.state

/-- The run from a place on is a log and the run from another place on. -/
def RunsTo (fuel : Nat) (c : Place) (l : List Event) (c' : Place) : Prop :=
  ∃ k, ∀ rounds, c.run fuel (rounds + k) = (c'.run fuel rounds).prepend l

/-- The place at the start of a line, or in it. -/
def Interp.enters (s : Interp) (fuel line pos : Nat) : Place := ⟨line, fuel, s.entered.at pos⟩

/-- A run that goes on at a line is a run from a place in it. -/
theorem runLoop_enters {s : Interp} {fuel rounds line pos : Nat}
    (hline : s.exec.currentLine = some line) (hrun : s.exec.running = true)
    (herr : s.hasError = false) :
    runLoop fuel (rounds + 1) pos s = (s.enters fuel line pos).run fuel rounds := by
  have hexec : execLineAt (s.prog.tokens line) (s.prog.dataLen line) fuel pos s =
      (lineLoop (s.prog.tokens line) (s.prog.dataLen line) fuel fuel (s.entered.at pos)).prepend [] :=
    execLineAt_run
  rw [runLoop, get_bind_run, hline]
  simp only [hrun, herr, Bool.false_eq_true, not_false_eq_true, and_self, if_true]
  exact bind_prepend hexec

namespace RunsTo

variable {fuel : Nat} {c c' c'' : Place} {l l' : List Event}

theorem refl (c : Place) : RunsTo fuel c [] c := ⟨0, fun _ => rfl⟩

theorem trans (h : RunsTo fuel c l c') (h' : RunsTo fuel c' l' c'') : RunsTo fuel c (l ++ l') c'' := by
  obtain ⟨k, hk⟩ := h
  obtain ⟨k', hk'⟩ := h'
  refine ⟨k' + k, fun rounds => ?_⟩
  rw [← Nat.add_assoc, hk, hk', Prog.prepend_prepend]

/-- What the line does at a statement. -/
theorem at_run {rounds q : Nat} (h : c.At rounds q) (rr : Nat) : c.run fuel rr =
    (execStatement c.tokens c.len fuel >>= fun _ => afterStatement c.tokens c.len fuel rounds >>= fun _ =>
      afterLine fuel rr) (c.state.at q) := by
  have hline : lineLoop c.tokens c.len fuel (rounds + 1) c.state =
      ((execStatement c.tokens c.len fuel >>= fun _ => afterStatement c.tokens c.len fuel rounds)
        (c.state.at q)).prepend [] :=
    lineLoop_statement h.skip h.inLine h.notColon h.running h.noError
  rw [← h.rounds] at hline
  rw [Place.run, bind_prepend hline, Prog.bind_assoc]
  rfl

/-- A statement that goes nowhere. -/
theorem statement {rounds q : Nat} {s' : Interp} (h : c.At rounds q)
    (hexec : execStatement c.tokens c.len fuel (c.state.at q) = ⟨.done (), s', l⟩)
    (hprog : s'.prog = c.state.prog) (hjumped : s'.exec.jumped = false) :
    RunsTo fuel c l ⟨c.line, rounds, s'⟩ := by
  refine ⟨0, fun rr => ?_⟩
  have hafter : afterStatement c.tokens c.len fuel rounds s' =
      (lineLoop c.tokens c.len fuel rounds s').prepend [] := afterStatement_run hjumped
  rw [at_run h, bind_run_prepend hexec, bind_prepend hafter]
  show Run.prepend l ((lineLoop (c.state.prog.tokens c.line) (c.state.prog.dataLen c.line) fuel rounds >>= _) s') = _
  rw [← hprog]
  rfl

/-- A statement that goes to a line. -/
theorem jump {rounds q line : Nat} {s' : Interp} (h : c.At rounds q)
    (hexec : execStatement c.tokens c.len fuel (c.state.at q) = ⟨.done (), s', l⟩)
    (hjumped : s'.exec.jumped = true) (hrun : s'.exec.running = true) (herr : s'.hasError = false)
    (hline : s'.exec.currentLine = some line) : RunsTo fuel c l (s'.enters fuel line s'.exec.pos) := by
  refine ⟨1, fun rr => ?_⟩
  have hafter : afterStatement c.tokens c.len fuel rounds s' = ⟨.done (), s', []⟩ := by
    rw [afterStatement, get_bind_run, if_pos hjumped]
    rfl
  rw [at_run h, bind_run_prepend hexec, bind_run_quiet hafter, afterLine, get_bind_run,
    if_pos ⟨hrun, by simp [herr]⟩, if_pos hjumped, runLoop_enters hline hrun herr]

/-- A colon. -/
theorem colon {rounds q : Nat} (hrounds : c.rounds = rounds + 1)
    (hskip : skipSp c.tokens c.len c.state.exec.pos = q) (hlt : q < c.len)
    (hcolon : c.tokens.tok q = 58) (hrun : c.state.exec.running = true)
    (herr : c.state.hasError = false) : RunsTo fuel c [] ⟨c.line, rounds, c.state.at (adv q 1)⟩ := by
  refine ⟨0, fun rr => ?_⟩
  have hpos : c.state.exec.pos < c.len := by
    by_contra hge
    rw [skipSp_of_le c.tokens c.len (Nat.not_lt.mp hge)] at hskip
    omega
  have hline : lineLoop c.tokens c.len fuel (rounds + 1) c.state =
      (lineLoop c.tokens c.len fuel rounds (c.state.at (adv q 1))).prepend [] := by
    rw [lineLoop, get_bind_run, if_pos ⟨hpos, hrun, by simp [herr]⟩, bind_run_quiet (skip_run hskip),
      bind_run_quiet (getPos_run q), if_neg (Nat.not_le.mpr hlt), if_pos hcolon]
    exact modify_bind_run _ _ _
  rw [← hrounds] at hline
  exact bind_prepend hline

end RunsTo

end RainbowOs.Basic
