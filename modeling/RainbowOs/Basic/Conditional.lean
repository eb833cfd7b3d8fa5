import RainbowOs.Basic.Flow
import RainbowOs.Basic.Jumps
import RainbowOs.Basic.Tokenizer

/-!
# `IF … THEN … ELSE`

A line `IF c THEN s₁ ELSE s₂` is given by the positions of its three
keywords. `Condition` is what the evaluation of `c` has to give, and
`FallsThrough` what a statement does that goes nowhere else. Whoever ran the
statement after `THEN` is left at the `ELSE`, which is no statement; and the
statement after `ELSE` is looked for byte by byte, also in the numbers of the
other. `if_else_iff` says when neither matters.
-/

namespace RainbowOs.Basic

open RainbowOs.Lib
open Prog (get_bind_run modify_bind_run tell_bind_run bind_run_prepend bind_run_quiet)

/-- The state at another position. -/
def Interp.at (s : Interp) (pos : Nat) : Interp := { s with exec := { s.exec with pos := pos } }

/-- The state after it has been looked whether there is a key. -/
def Interp.polled (s : Interp) : Interp :=
  { s with
    asked := s.asked + 1
    keysRead := if s.hasKey s.asked then s.keysRead + 1 else s.keysRead }

/-- The next key interrupts the program. -/
def Interp.Break (s : Interp) : Prop := s.hasKey s.asked = true ∧ s.keys s.keysRead = keyCtrlC

/-- The state in which a line is entered. -/
def Interp.entered (s : Interp) : Interp :=
  { s with exec := { s.exec with jumped := false }, spoolPos := 0 }

/-- The state after an expression. -/
def Interp.evaluated (s : Interp) (e : Eval) : Interp :=
  { s with
    spoolPos := e.spoolPos
    exprError := e.error
    rnd := e.rnd }

/-- The state at another line. -/
def Interp.goto (s : Interp) (line : Option Nat) : Interp :=
  { s with exec := { s.exec with currentLine := line } }

/-- The line is `IF c THEN s₁ ELSE s₂`, and `s₁` is not the number of a line. -/
structure IfElse (t : Tokens) (len ifAt thenAt elseAt : Nat) : Prop where
  tokIf : t.tok ifAt = Tok.if_
  tokThen : t.tok thenAt = Tok.then_
  tokElse : t.tok elseAt = Tok.else_
  thenAfter : ifAt < thenAt
  elseAfter : thenAt < elseAt
  inLine : elseAt < len
  fits : len < 256
  statement : t.tok (skipSp t len (thenAt + 1)) ≠ Tok.num

/-- The condition has the value `n`, and ends at `THEN`. -/
structure Condition (t : Tokens) (len fuel : Nat) (s : Interp) (ifAt thenAt : Nat) (n : Int)
    (e : Eval) : Prop where
  value : Eval.exprEval t len s.vars s.ram fuel ⟨adv ifAt 1, s.spoolPos, false, s.rnd⟩ =
    some (.num n, e)
  noError : e.error = false
  stop : skipSp t len e.pos = thenAt

/-- The statement at the position of a state comes to the position `stop` without an error, and
goes nowhere else. -/
structure FallsThrough (t : Tokens) (len fuel : Nat) (s : Interp) (stop : Nat) (l : List Event)
    (s' : Interp) : Prop where
  run : execStatement t len fuel s = ⟨.done (), s', l⟩
  stop : min (skipSp t len s'.exec.pos) len = stop
  noError : s'.hasError = false
  running : s'.exec.running = true
  jumped : s'.exec.jumped = false
  line : s'.exec.currentLine = s.exec.currentLine

section Runs

variable {t : Tokens} {len fuel : Nat} {s : Interp}

/-- A statement that falls through, from what one run of it shows. -/
theorem FallsThrough.of_run {stop : Nat} {l : List Event} {r : Run Interp Stuck Event Unit}
    (hr : execStatement t len fuel s = r)
    (h : r.out = .done () ∧ r.log = l ∧ min (skipSp t len r.state.exec.pos) len = stop ∧
      r.state.hasError = false ∧ r.state.exec.running = true ∧ r.state.exec.jumped = false ∧
      r.state.exec.currentLine = s.exec.currentLine) : FallsThrough t len fuel s stop l r.state := by
  obtain ⟨hout, hlog, hstop, herr, hrunning, hjumped, hline⟩ := h
  subst hr
  exact ⟨Prog.run_eq hout hlog, hstop, herr, hrunning, hjumped, hline⟩

theorem keyboardHasKey_run :
    keyboardHasKey s = ⟨.done (s.hasKey s.asked), { s with asked := s.asked + 1 }, []⟩ := rfl

theorem getchar_run :
    getchar s = ⟨.done (s.keys s.keysRead), { s with keysRead := s.keysRead + 1 }, []⟩ := rfl

theorem interrupted_of_break (hrun : s.exec.running = true) (h : s.Break) : ∃ s',
    s'.exec.running = false ∧ interrupted s = ⟨.done true, s', [.put (breakText s.polled)]⟩ := by
  refine ⟨{ s.polled with exec := { s.exec with running := false } }, rfl, ?_⟩
  rw [interrupted, get_bind_run, if_pos hrun, bind_run_quiet keyboardHasKey_run, if_pos h.1,
    bind_run_quiet getchar_run, if_pos h.2, get_bind_run]
  simp only [Interp.polled, if_pos h.1]
  rfl

theorem interrupted_of_not_break (hrun : s.exec.running = true) (h : ¬s.Break) :
    interrupted s = ⟨.done false, s.polled, []⟩ := by
  rw [interrupted, get_bind_run, if_pos hrun, bind_run_quiet keyboardHasKey_run, Interp.polled]
  by_cases hkey : s.hasKey s.asked = true
  · have hc : s.keys s.keysRead ≠ keyCtrlC := fun hc => h ⟨hkey, hc⟩
    rw [if_pos hkey, bind_run_quiet getchar_run, if_neg hc, if_pos hkey]
    rfl
  · rw [if_neg hkey, if_neg hkey]
    rfl

theorem skip_run {q : Nat} (hq : skipSp t len s.exec.pos = q) :
    skip t len s = ⟨.done (), s.at q, []⟩ := by
  subst hq
  rfl

theorem getPos_run (q : Nat) : getPos (s.at q) = ⟨.done q, s.at q, []⟩ := rfl

/-- A statement is executed at the position after the blanks. -/
theorem execStatement_run {q : Nat} (hq : skipSp t len s.exec.pos = q) (hlt : q < len)
    (hrun : s.exec.running = true) (hkey : ¬s.Break) : execStatement t len (fuel + 1) s =
      (execSwitch t len fuel (execStatement t len fuel) (t.tok q) (s.polled.at q)).prepend
        [.stmt t.addr q] := by
  have hpoll : interrupted (s.at q) = ⟨.done false, s.polled.at q, []⟩ :=
    interrupted_of_not_break hrun hkey
  rw [execStatement, bind_run_quiet (skip_run hq), bind_run_quiet (getPos_run q),
    if_neg (Nat.not_le.mpr hlt), bind_run_quiet hpoll]
  exact tell_bind_run _ _ _

variable (fuel) in
theorem execStatement_of_break {q : Nat} (hq : skipSp t len s.exec.pos = q) (hlt : q < len)
    (hrun : s.exec.running = true) (hkey : s.Break) : ∃ s', s'.exec.running = false ∧
      execStatement t len (fuel + 1) s = ⟨.done (), s', [.put (breakText (s.polled.at q))]⟩ := by
  obtain ⟨s', hstop, hs'⟩ := interrupted_of_break (s := s.at q) hrun hkey
  refine ⟨s', hstop, ?_⟩
  rw [execStatement, bind_run_quiet (skip_run hq), bind_run_quiet (getPos_run q),
    if_neg (Nat.not_le.mpr hlt), bind_run_prepend hs']
  rfl

variable (fuel) in
/-- There is nothing to execute at the end of a line. -/
theorem execStatement_end (h : len ≤ skipSp t len s.exec.pos) :
    execStatement t len (fuel + 1) s = ⟨.done (), s.at (skipSp t len s.exec.pos), []⟩ := by
  rw [execStatement, bind_run_quiet (skip_run rfl), bind_run_quiet (getPos_run _), if_pos h]
  rfl

variable (fuel) in
/-- A statement logs that it is executed, or that the program is interrupted. -/
theorem log_execStatement {q : Nat} (hq : skipSp t len s.exec.pos = q) (hlt : q < len)
    (hrun : s.exec.running = true) :
    (∃ l, (execStatement t len (fuel + 1) s).log = .stmt t.addr q :: l) ∨
      ∃ msg, (execStatement t len (fuel + 1) s).log = [.put msg] ∧
        (execStatement t len (fuel + 1) s).state.exec.running = false := by
  by_cases hkey : s.Break
  · obtain ⟨s', hstop, hs'⟩ := execStatement_of_break fuel hq hlt hrun hkey
    rw [hs']
    exact .inr ⟨_, rfl, hstop⟩
  · rw [execStatement_run hq hlt hrun hkey]
    exact .inl ⟨_, rfl⟩

variable (fuel) in
theorem lineLoop_end (rounds : Nat) (h : len ≤ skipSp t len s.exec.pos) : ∃ pos,
    lineLoop t len fuel (rounds + 1) s = ⟨.done (), s.at pos, []⟩ := by
  rw [lineLoop, get_bind_run]
  split
  · refine ⟨skipSp t len s.exec.pos, ?_⟩
    rw [bind_run_quiet (skip_run rfl), bind_run_quiet (getPos_run _), if_pos h]
    rfl
  · exact ⟨s.exec.pos, rfl⟩

theorem lineLoop_statement {rounds q : Nat} (hq : skipSp t len s.exec.pos = q) (hlt : q < len)
    (hcolon : t.tok q ≠ 58) (hrun : s.exec.running = true) (herr : s.hasError = false) :
    lineLoop t len fuel (rounds + 1) s = (execStatement t len fuel >>= fun _ =>
      Prog.get >>= fun s' => if s'.exec.jumped then pure () else lineLoop t len fuel rounds)
        (s.at q) := by
  have hpos : s.exec.pos < len := by
    by_contra hge
    rw [skipSp_of_le t len (Nat.not_lt.mp hge)] at hq
    omega
  rw [lineLoop, get_bind_run, if_pos ⟨hpos, hrun, by simp [herr]⟩, bind_run_quiet (skip_run hq),
    bind_run_quiet (getPos_run q), if_neg (Nat.not_le.mpr hlt), if_neg hcolon]

/-! ## The statement `IF` -/

theorem peek_run {pos : Nat} (h : pos < len) :
    peek t len (s.at pos) = ⟨.done (t.tok pos), s.at pos, []⟩ := by
  rw [peek, bind_run_quiet (getPos_run pos), peekTok, if_neg (Nat.not_le.mpr h)]
  rfl

/-- A token that is there is read. -/
theorem optional_run {pos : Nat} {c : UInt8} (h : pos < len) (hlen : len < 256)
    (hc : t.tok pos = c) : optional t len c (s.at pos) = ⟨.done (), s.at (pos + 1), []⟩ := by
  have hadv : adv pos 1 = pos + 1 := Nat.mod_eq_of_lt (by omega)
  rw [optional, bind_run_quiet (peek_run h), if_pos hc]
  exact congrArg (fun q => (⟨.done (), s.at q, []⟩ : Run Interp Stuck Event Unit)) hadv

theorem withExpr_run {k : Value → Exec Unit} {v : Value} {e : Eval} {pos : Nat}
    (hv : Eval.exprEval t len s.vars s.ram fuel ⟨pos, s.spoolPos, false, s.rnd⟩ = some (v, e))
    (he : e.error = false) :
    withExpr t len fuel k (s.at pos) = k v ((s.evaluated e).at e.pos) := by
  have hstart : Eval.exprEval t len (s.at pos).vars (s.at pos).ram fuel
      ⟨(s.at pos).exec.pos, (s.at pos).spoolPos, false, (s.at pos).rnd⟩ = some (v, e) := hv
  have heval : evaluate t len fuel (s.at pos) = ⟨.done v, (s.evaluated e).at e.pos, []⟩ := by
    rw [evaluate, get_bind_run, hstart]
    rfl
  rw [withExpr, bind_run_quiet heval, get_bind_run, if_neg]
  rw [show ((s.evaluated e).at e.pos).exprError = e.error from rfl, he]
  decide

theorem le_skipSp (pos : Nat) : pos ≤ skipSp t len pos := by
  by_cases hlt : pos < len
  · rw [skipSp_of_lt t len hlt]
    split
    · exact Nat.le_of_succ_le (le_skipSp (pos + 1))
    · exact Nat.le_refl _
  · rw [skipSp_of_le t len (Nat.not_lt.mp hlt)]
termination_by len - pos

/-- Blanks end before a token that is none. -/
theorem skipSp_le (pos : Nat) {q : Nat} (hpos : pos ≤ q) (hlt : q < len) (hq : t.tok q ≠ 32) :
    skipSp t len pos ≤ q := by
  rw [skipSp_of_lt t len (Nat.lt_of_le_of_lt hpos hlt)]
  split
  · next hblank =>
    have hne : pos ≠ q := by
      rintro rfl
      exact hq hblank
    exact skipSp_le (pos + 1) (Nat.lt_of_le_of_ne hpos hne) hlt hq
  · exact hpos
termination_by len - pos

theorem skipSp_of_ne {pos : Nat} (h : t.tok pos ≠ 32) : skipSp t len pos = pos := by
  by_cases hlt : pos < len
  · rw [skipSp_of_lt t len hlt, if_neg h]
  · exact skipSp_of_le t len (Nat.not_lt.mp hlt)

theorem skipSp_skipSp (pos : Nat) : skipSp t len (skipSp t len pos) = skipSp t len pos := by
  by_cases hlt : skipSp t len pos < len
  · exact skipSp_of_ne (tok_skipSp t len pos hlt)
  · exact skipSp_of_le t len (Nat.not_lt.mp hlt)

/-- Blanks before a statement do not matter. -/
theorem execStatement_skipSp (pos : Nat) : execStatement t len (fuel + 1) (s.at (skipSp t len pos)) =
    execStatement t len (fuel + 1) (s.at pos) := by
  have hskip : skip t len (s.at (skipSp t len pos)) = ⟨.done (), s.at (skipSp t len pos), []⟩ :=
    skip_run (s := s.at (skipSp t len pos)) (skipSp_skipSp pos)
  have hskip' : skip t len (s.at pos) = ⟨.done (), s.at (skipSp t len pos), []⟩ := rfl
  rw [execStatement, bind_run_quiet hskip, bind_run_quiet hskip']

/-- The first `ELSE` is found, be it a token or not. -/
theorem findElse_eq (pos n : Nat) {q : Nat} (hpos : pos ≤ q) (hn : q < pos + n)
    (hq : t.tok q = Tok.else_) : t.tok (findElse t pos n) = Tok.else_ ∧ pos ≤ findElse t pos n ∧
      findElse t pos n ≤ q := by
  induction n generalizing pos with
  | zero => omega
  | succ n ih =>
    rw [findElse]
    split
    · next h => exact ⟨h, Nat.le_refl _, hpos⟩
    · next h =>
      have hne : pos ≠ q := by
        rintro rfl
        exact h hq
      obtain ⟨htok, hge, hle⟩ := ih (pos + 1) (by omega) (by omega)
      exact ⟨htok, by omega, hle⟩

variable {ifAt thenAt elseAt : Nat}

/-- A condition is followed by one of the two parts. -/
theorem execIf_run (h : IfElse t len ifAt thenAt elseAt) {n : Int} {e : Eval}
    (hcond : Condition t len fuel s ifAt thenAt n e) (statement : Exec Unit) :
    execIf t len fuel statement (s.at ifAt) =
      (if n ≠ 0 then execThen t len statement else execElse t len statement)
        ((s.evaluated e).at (thenAt + 1)) := by
  have hthen : thenAt < len := Nat.lt_trans h.elseAfter h.inLine
  have hset : setPos (adv · 1) (s.at ifAt) = ⟨.done (), s.at (adv ifAt 1), []⟩ := rfl
  have hskip : skip t len ((s.evaluated e).at e.pos) =
      ⟨.done (), (s.evaluated e).at thenAt, []⟩ := skip_run hcond.stop
  rw [execIf, bind_run_quiet hset, withExpr_run hcond.value hcond.noError, bind_run_quiet hskip,
    bind_run_quiet (optional_run hthen h.fits h.tokThen)]
  by_cases hn : n = 0
  · simp [Value.isTrue, hn]
  · simp [Value.isTrue, hn]

theorem execThen_run (h : IfElse t len ifAt thenAt elseAt) (statement : Exec Unit) :
    execThen t len statement (s.at (thenAt + 1)) =
      statement (s.at (skipSp t len (thenAt + 1))) := by
  have hblank : t.tok elseAt ≠ 32 := by
    rw [h.tokElse]
    decide
  have hlt : skipSp t len (thenAt + 1) < len :=
    Nat.lt_of_le_of_lt (skipSp_le _ h.elseAfter h.inLine hblank) h.inLine
  have hskip : skip t len (s.at (thenAt + 1)) =
      ⟨.done (), s.at (skipSp t len (thenAt + 1)), []⟩ := rfl
  rw [execThen, bind_run_quiet hskip, bind_run_quiet (peek_run hlt), if_neg h.statement]

/-- Where the condition does not hold, the statement after the first `ELSE` is executed. -/
theorem execElse_run (h : IfElse t len ifAt thenAt elseAt) (statement : Exec Unit) :
    ∃ q, t.tok q = Tok.else_ ∧ thenAt < q ∧
      (∀ k, thenAt < k → k ≤ elseAt → t.tok k = Tok.else_ → q ≤ k) ∧
      execElse t len statement (s.at (thenAt + 1)) = statement (s.at (q + 1)) := by
  have hlen := h.inLine
  have hfits := h.fits
  have hfind : ∀ k, thenAt < k → k ≤ elseAt → t.tok k = Tok.else_ →
      t.tok (findElse t (thenAt + 1) (len - (thenAt + 1))) = Tok.else_ ∧
        thenAt + 1 ≤ findElse t (thenAt + 1) (len - (thenAt + 1)) ∧
        findElse t (thenAt + 1) (len - (thenAt + 1)) ≤ k :=
    fun k hk hke htok => findElse_eq _ _ hk (by omega) htok
  obtain ⟨htok, hge, hle⟩ := hfind elseAt h.elseAfter (Nat.le_refl _) h.tokElse
  have hset : setPos (fun pos => findElse t pos (len - pos)) (s.at (thenAt + 1)) =
      ⟨.done (), s.at (findElse t (thenAt + 1) (len - (thenAt + 1))), []⟩ := rfl
  generalize findElse t (thenAt + 1) (len - (thenAt + 1)) = q at *
  have hadv : adv q 1 = q + 1 := Nat.mod_eq_of_lt (by omega)
  have hnext : setPos (adv · 1) (s.at q) = ⟨.done (), s.at (q + 1), []⟩ :=
    congrArg (fun pos => (⟨.done (), s.at pos, []⟩ : Run Interp Stuck Event Unit)) hadv
  refine ⟨q, htok, hge, fun k hk hke hk' => (hfind k hk hke hk').2.2, ?_⟩
  rw [execElse, bind_run_quiet hset, bind_run_quiet (getPos_run q), if_pos (by omega),
    bind_run_quiet hnext]

theorem execSwitch_if (statement : Exec Unit) :
    execSwitch t len fuel statement Tok.if_ = execIf t len fuel statement := rfl

/-- The whole statement. -/
theorem execStatement_if (h : IfElse t len ifAt thenAt elseAt) {n : Int} {e : Eval}
    (hrun : s.exec.running = true) (hkey : ¬s.Break)
    (hcond : Condition t len fuel s.polled ifAt thenAt n e) :
    execStatement t len (fuel + 1) (s.at ifAt) =
      ((if n ≠ 0 then execThen t len (execStatement t len fuel)
        else execElse t len (execStatement t len fuel))
          ((s.polled.evaluated e).at (thenAt + 1))).prepend [.stmt t.addr ifAt] := by
  have hblank : t.tok ifAt ≠ 32 := by
    rw [h.tokIf]
    decide
  have hlt : ifAt < len := Nat.lt_trans h.thenAfter (Nat.lt_trans h.elseAfter h.inLine)
  have hstmt : execStatement t len (fuel + 1) (s.at ifAt) =
      (execSwitch t len fuel (execStatement t len fuel) (t.tok ifAt) (s.polled.at ifAt)).prepend
        [.stmt t.addr ifAt] :=
    execStatement_run (s := s.at ifAt) (skipSp_of_ne hblank) hlt hrun hkey
  rw [hstmt, h.tokIf, execSwitch_if, execIf_run h hcond]

end Runs

/-! ## Lines -/

/-- The line runs the statement that left `s'` and logged `l`, and no other, and goes on to the
next line. -/
def RunsOnly (fuel start line ifAt : Nat) (s s' : Interp) (l : List Event) : Prop :=
  let t := s.prog.tokens line
  let len := s.prog.dataLen line
  ∃ pos, execLineAt t len fuel start s = ⟨.done (), s'.at pos, .stmt t.addr ifAt :: l⟩ ∧
    ∀ rounds, runLoop fuel (rounds + 1) start s =
      (runLoop fuel rounds 0 ((s'.at pos).goto (s.prog.nextLine line))).prepend (.stmt t.addr ifAt :: l)

section Lines

variable {s : Interp} {line start ifAt thenAt elseAt fuel : Nat}

theorem execLineAt_run {t : Tokens} {len : Nat} :
    execLineAt t len fuel start s = lineLoop t len fuel fuel (s.entered.at start) :=
  modify_bind_run _ _ s

/-- Statements do not change the program. -/
theorem execStatement_prog {s' : Interp} {l : List Event}
    (hrun : s.exec.running = true) (hjumped : s.exec.jumped = false)
    (hexec : execStatement (s.prog.tokens line) (s.prog.dataLen line) fuel s = ⟨.done (), s', l⟩) :
    s'.prog = s.prog := by
  have hentry : Entry s.prog line (s.prog.tokens line) (s.prog.dataLen line) ⟨none, none⟩ s :=
    ⟨rfl, nofun, hjumped, hrun, nofun⟩
  obtain ⟨g, -, hdone⟩ := watched_execStatement _ _ rfl fuel hentry
  rw [hexec] at hdone
  exact (hdone () rfl).prog

/-- A line that is done is followed by the next one. -/
theorem runLoop_run {rounds : Nat} {s' : Interp} {l : List Event}
    (hline : s.exec.currentLine = some line) (hrun : s.exec.running = true)
    (herr : s.hasError = false)
    (hexec : execLineAt (s.prog.tokens line) (s.prog.dataLen line) fuel start s =
      ⟨.done (), s', l⟩)
    (hprog : s'.prog = s.prog) (hline' : s'.exec.currentLine = some line)
    (hrun' : s'.exec.running = true) (herr' : s'.hasError = false)
    (hjumped : s'.exec.jumped = false) : runLoop fuel (rounds + 1) start s =
      (runLoop fuel rounds 0 (s'.goto (s.prog.nextLine line))).prepend l := by
  have hnext : modifyExec (fun x => { x with currentLine := x.currentLine.bind s'.prog.nextLine })
      s' = ⟨.done (), s'.goto (s.prog.nextLine line), []⟩ := by
    simp [modifyExec, Interp.goto, hline', hprog]
  rw [runLoop, get_bind_run, hline]
  simp only [hrun, herr, Bool.false_eq_true, not_false_eq_true, and_self, if_true]
  rw [bind_run_prepend hexec, get_bind_run, if_pos ⟨hrun', by simp [herr']⟩, hjumped,
    if_neg (by decide), bind_run_quiet hnext]

/-- What follows the first statement of a line. -/
def afterStatement (t : Tokens) (len fuel rounds : Nat) : Exec Unit :=
  Prog.get >>= fun s' => if s'.exec.jumped then pure () else lineLoop t len fuel rounds

theorem afterStatement_run {t : Tokens} {len rounds : Nat} (h : s.exec.jumped = false) :
    afterStatement t len fuel rounds s = lineLoop t len fuel rounds s := by
  rw [afterStatement, get_bind_run, h, if_neg (by decide)]

section IfElse

variable {t : Tokens} {len : Nat} {n : Int} {e : Eval} {s' : Interp} {l : List Event}

theorem execLineAt_if (h : IfElse t len ifAt thenAt elseAt) (hstart : skipSp t len start = ifAt)
    (hrun : s.exec.running = true) (herr : s.hasError = false) :
    execLineAt t len (fuel + 1) start s =
      (execStatement t len (fuel + 1) >>= fun _ => afterStatement t len (fuel + 1) fuel)
        (s.entered.at ifAt) := by
  have hlt : ifAt < len := Nat.lt_trans h.thenAfter (Nat.lt_trans h.elseAfter h.inLine)
  have hcolon : t.tok ifAt ≠ 58 := by
    rw [h.tokIf]
    decide
  rw [execLineAt_run]
  exact lineLoop_statement (s := s.entered.at start) hstart hlt hcolon hrun herr

/-- Whoever ran the statement after `THEN` comes to the `ELSE`. -/
theorem log_execLineAt_then (h : IfElse t len ifAt thenAt elseAt)
    (hstart : skipSp t len start = ifAt) (hrun : s.exec.running = true)
    (herr : s.hasError = false) (hkey : ¬s.Break)
    (hcond : Condition t len fuel s.entered.polled ifAt thenAt n e) (hn : n ≠ 0)
    (hbranch : FallsThrough t len fuel ((s.entered.polled.evaluated e).at (thenAt + 1)) elseAt l s') :
    ∃ x rest, (execLineAt t len (fuel + 1) start s).log = .stmt t.addr ifAt :: l ++ x :: rest := by
  have helse : skipSp t len s'.exec.pos = elseAt := by
    have hstop := hbranch.stop
    have hlen := h.inLine
    omega
  have hne : t.tok elseAt ≠ 58 := by
    rw [h.tokElse]
    decide
  cases fuel with
  | zero => cases hbranch.run
  | succ f =>
    have hstmt : execStatement t len (f + 2) (s.entered.at ifAt) =
        ⟨.done (), s', .stmt t.addr ifAt :: l⟩ := by
      rw [execStatement_if (s := s.entered) h hrun hkey hcond, if_pos hn, execThen_run h, execStatement_skipSp,
        hbranch.run]
      rfl
    have hloop : (execStatement t len (f + 2) (s'.at elseAt)).log <+:
        (lineLoop t len (f + 2) (f + 1) s').log := by
      rw [lineLoop_statement helse h.inLine hne hbranch.running hbranch.noError]
      exact Prog.log_prefix_bind _ _ _
    obtain ⟨rest, hrest⟩ := hloop
    have hblank : t.tok elseAt ≠ 32 := by
      rw [h.tokElse]
      decide
    have hlog : (execLineAt t len (f + 2) start s).log =
        .stmt t.addr ifAt :: l ++ (lineLoop t len (f + 2) (f + 1) s').log := by
      rw [execLineAt_if h hstart hrun herr, bind_run_prepend hstmt,
        afterStatement_run hbranch.jumped]
      rfl
    rw [hlog, ← hrest]
    rcases log_execStatement (f + 1) (s := s'.at elseAt) (skipSp_of_ne hblank) h.inLine
      hbranch.running with ⟨l', hl⟩ | ⟨msg, hl, -⟩
    · rw [hl]
      exact ⟨_, _, rfl⟩
    · rw [hl]
      exact ⟨_, _, rfl⟩

/-- Where the condition does not hold, the statement after the first `ELSE` runs. -/
theorem execStatement_else (h : IfElse t len ifAt thenAt elseAt) (hrun : s.exec.running = true)
    (hkey : ¬s.Break) (hcond : Condition t len fuel s.entered.polled ifAt thenAt 0 e) :
    ∃ q, t.tok q = Tok.else_ ∧ thenAt < q ∧
      (∀ k, thenAt < k → k ≤ elseAt → t.tok k = Tok.else_ → q ≤ k) ∧
      execStatement t len (fuel + 1) (s.entered.at ifAt) =
        (execStatement t len fuel ((s.entered.polled.evaluated e).at (q + 1))).prepend
          [.stmt t.addr ifAt] := by
  obtain ⟨q, htok, hafter, hfirst, hq⟩ := execElse_run (s := s.entered.polled.evaluated e) h
    (execStatement t len fuel)
  refine ⟨q, htok, hafter, hfirst, ?_⟩
  rw [execStatement_if (s := s.entered) h hrun hkey hcond, if_neg (not_not.mpr rfl), hq]

/-- If the first `ELSE` is the one of the line, the line is done after the statement. -/
theorem execLineAt_else (h : IfElse t len ifAt thenAt elseAt) (hstart : skipSp t len start = ifAt)
    (hrun : s.exec.running = true) (herr : s.hasError = false) (hkey : ¬s.Break)
    (hcond : Condition t len fuel s.entered.polled ifAt thenAt 0 e)
    (hfree : ∀ k, thenAt < k → k < elseAt → t.tok k ≠ Tok.else_)
    (hbranch : FallsThrough t len fuel ((s.entered.polled.evaluated e).at (elseAt + 1)) len l s') :
    ∃ pos, execLineAt t len (fuel + 1) start s =
      ⟨.done (), s'.at pos, .stmt t.addr ifAt :: l⟩ := by
  obtain ⟨q, htok, hafter, hfirst, hstmt⟩ := execStatement_else h hrun hkey hcond
  have hle := hfirst elseAt h.elseAfter (Nat.le_refl _) h.tokElse
  have hq : q = elseAt := by
    by_contra hne
    exact hfree q hafter (Nat.lt_of_le_of_ne hle hne) htok
  subst hq
  rw [hbranch.run] at hstmt
  have hend : len ≤ skipSp t len s'.exec.pos := by
    have hstop := hbranch.stop
    omega
  cases fuel with
  | zero => cases hbranch.run
  | succ f =>
    obtain ⟨pos, hpos⟩ := lineLoop_end (f + 2) f hend
    refine ⟨pos, ?_⟩
    rw [execLineAt_if h hstart hrun herr, bind_run_prepend hstmt, afterStatement_run hbranch.jumped,
      hpos]
    simp [Run.prepend]

/-- A byte that looks like `ELSE` keeps the statement from being run. -/
theorem log_execLineAt_else (h : IfElse t len ifAt thenAt elseAt)
    (hstart : skipSp t len start = ifAt) (hrun : s.exec.running = true)
    (herr : s.hasError = false) (hkey : ¬s.Break)
    (hcond : Condition t len fuel s.entered.polled ifAt thenAt 0 e)
    {k : Nat} (hk : thenAt < k) (hke : k < elseAt) (htok : t.tok k = Tok.else_)
    (hbranch : FallsThrough t len fuel ((s.entered.polled.evaluated e).at (elseAt + 1)) len l s') :
    (execLineAt t len (fuel + 1) start s).log ≠ .stmt t.addr ifAt :: l := by
  obtain ⟨q, -, hafter, hfirst, hstmt⟩ := execStatement_else h hrun hkey hcond
  have hqk := hfirst k hk (Nat.le_of_lt hke) htok
  have hblank : t.tok elseAt ≠ 32 := by
    rw [h.tokElse]
    decide
  have hle : skipSp t len (q + 1) ≤ elseAt := skipSp_le _ (by omega) h.inLine hblank
  have hlt : skipSp t len (q + 1) < len := Nat.lt_of_le_of_lt hle h.inLine
  have hprefix : (execStatement t len (fuel + 1) (s.entered.at ifAt)).log <+:
      (execLineAt t len (fuel + 1) start s).log := by
    rw [execLineAt_if h hstart hrun herr]
    exact Prog.log_prefix_bind _ _ _
  rw [hstmt] at hprefix
  obtain ⟨rest, hrest⟩ := hprefix
  intro hlog
  rw [← hrest] at hlog
  cases fuel with
  | zero => cases hbranch.run
  | succ f =>
    have hl : (execStatement t len (f + 1) ((s.entered.polled.evaluated e).at (q + 1))).log ++ rest =
        l := (List.cons.inj hlog).2
    have hthis := log_execStatement f (s := (s.entered.polled.evaluated e).at (q + 1)) rfl
      hlt hrun
    by_cases hin : skipSp t len (elseAt + 1) < len
    · have hthat := log_execStatement f
        (s := (s.entered.polled.evaluated e).at (elseAt + 1)) rfl hin hrun
      rw [hbranch.run] at hthat
      have hge : elseAt + 1 ≤ skipSp t len (elseAt + 1) := le_skipSp _
      rcases hthat with ⟨l', hl'⟩ | ⟨msg, -, hstop⟩
      · change l = _ at hl'
        rcases hthis with ⟨l'', hl''⟩ | ⟨msg, hl'', -⟩
        · rw [hl'', hl'] at hl
          injection hl with hx
          injection hx with _ hx
          have hsame : skipSp t len (q + 1) = skipSp t len (elseAt + 1) := hx
          omega
        · rw [hl'', hl'] at hl
          cases hl
      · rw [hbranch.running] at hstop
        cases hstop
    · have hend := execStatement_end f
        (s := (s.entered.polled.evaluated e).at (elseAt + 1)) (Nat.not_lt.mp hin)
      rw [hbranch.run] at hend
      injection hend with _ _ hnil
      rw [hnil] at hl
      rcases hthis with ⟨l'', hl''⟩ | ⟨msg, hl'', -⟩
      · rw [hl''] at hl
        cases hl
      · rw [hl''] at hl
        cases hl

end IfElse

/-- A line `IF c THEN s₁ ELSE s₂` is entered, its condition has the value `n`, and the statement
that it selects leaves `s'` and logs `l`. -/
structure Selects (fuel start line ifAt thenAt elseAt : Nat) (s : Interp) (n : Int) (e : Eval)
    (s' : Interp) (l : List Event) : Prop where
  atLine : s.exec.currentLine = some line
  running : s.exec.running = true
  noError : s.hasError = false
  noBreak : ¬s.Break
  form : IfElse (s.prog.tokens line) (s.prog.dataLen line) ifAt thenAt elseAt
  enters : skipSp (s.prog.tokens line) (s.prog.dataLen line) start = ifAt
  condition : Condition (s.prog.tokens line) (s.prog.dataLen line) fuel s.entered.polled ifAt
    thenAt n e
  branch : FallsThrough (s.prog.tokens line) (s.prog.dataLen line) fuel
    ((s.entered.polled.evaluated e).at ((if n = 0 then elseAt else thenAt) + 1))
    (if n = 0 then s.prog.dataLen line else elseAt) l s'

/-- The statement that the condition selects is run, and no other, exactly if it is the one after
`ELSE` and no byte of the one before looks like an `ELSE`. -/
theorem if_else_iff {n : Int} {e : Eval} {s' : Interp} {l : List Event}
    (h : Selects fuel start line ifAt thenAt elseAt s n e s' l) :
    RunsOnly (fuel + 1) start line ifAt s s' l ↔
      n = 0 ∧ ∀ k, thenAt < k → k < elseAt → (s.prog.tokens line).tok k ≠ Tok.else_ := by
  obtain ⟨hline, hrun, herr, hkey, hform, hstart, hcond, hbranch⟩ := h
  by_cases hn : n = 0
  · subst hn
    rw [if_pos rfl, if_pos rfl] at hbranch
    refine ⟨fun ⟨pos, hexec, _⟩ => ⟨rfl, fun k hk hke htok => ?_⟩, fun ⟨_, hfree⟩ => ?_⟩
    · refine log_execLineAt_else hform hstart hrun herr hkey hcond hk hke htok hbranch ?_
      rw [hexec]
    · obtain ⟨pos, hexec⟩ := execLineAt_else hform hstart hrun herr hkey hcond hfree hbranch
      have hprog : s'.prog = s.prog :=
        execStatement_prog (s := (s.entered.polled.evaluated e).at (elseAt + 1)) hrun rfl hbranch.run
      exact ⟨pos, hexec, fun rounds => runLoop_run hline hrun herr hexec hprog
        (hbranch.line.trans hline) hbranch.running hbranch.noError hbranch.jumped⟩
  · rw [if_neg hn, if_neg hn] at hbranch
    refine ⟨fun ⟨pos, hexec, _⟩ => ?_, fun ⟨hzero, _⟩ => absurd hzero hn⟩
    obtain ⟨x, rest, hlog⟩ :=
      log_execLineAt_then hform hstart hrun herr hkey hcond hn hbranch
    rw [hexec] at hlog
    have hlength := congrArg List.length hlog
    simp at hlength

end Lines

/-- A program of one line, from its text, when it is entered. -/
def Interp.ofText (src : List UInt8) : Interp :=
  { Interp.withLines [⟨10, tokenize 120 src⟩] with
    exec := { ExecState.init with currentLine := some 0, running := true } }

/-- `IF 0 THEN PRINT 1 ELSE PRINT 2` -/
def zeroText : List UInt8 := ascii "IF 0 THEN PRINT 1 ELSE PRINT 2"

theorem tokenize_zeroText : tokenize 120 zeroText =
    [131, 32, 254, 0, 0, 0, 0, 32, 132, 32, 128, 32, 254, 1, 0, 0, 0, 32, 143, 32, 128, 32, 254, 2, 0, 0,
      0] := by
  decide +kernel

theorem selects_zero : ∃ s', Selects 8 0 0 0 8 18 (Interp.ofText zeroText) 0
    ⟨8, 0, false, 12345⟩ s' [.stmt 3 20, .put [50], .put [10]] := by
  rw [Interp.ofText, tokenize_zeroText]
  exact ⟨_, {
    atLine := rfl
    running := rfl
    noError := rfl
    noBreak := fun h => Bool.false_ne_true h.1
    form := by constructor <;> decide
    enters := by decide
    condition := by constructor <;> decide +kernel
    branch := .of_run rfl (by decide +kernel) }⟩

/-- The second number is printed. -/
theorem if_else_iff_zero : ∃ s', RunsOnly 9 0 0 0 (Interp.ofText zeroText) s'
    [.stmt 3 20, .put [50], .put [10]] := by
  obtain ⟨s', h⟩ := selects_zero
  have hfree : ∀ k < 18, 8 < k → ((Interp.ofText zeroText).prog.tokens 0).tok k ≠ Tok.else_ := by
    rw [Interp.ofText, tokenize_zeroText]
    decide
  exact ⟨s', (if_else_iff h).mpr ⟨rfl, fun k hk hke => hfree k hke hk⟩⟩

/-- `IF 1 THEN PRINT 1 ELSE PRINT 2` -/
def oneText : List UInt8 := ascii "IF 1 THEN PRINT 1 ELSE PRINT 2"

theorem tokenize_oneText : tokenize 120 oneText =
    [131, 32, 254, 1, 0, 0, 0, 32, 132, 32, 128, 32, 254, 1, 0, 0, 0, 32, 143, 32, 128, 32, 254, 2, 0, 0,
      0] := by
  decide +kernel

theorem selects_one : ∃ s', Selects 8 0 0 0 8 18 (Interp.ofText oneText) 1
    ⟨8, 0, false, 12345⟩ s' [.stmt 3 10, .put [49], .put [10]] := by
  rw [Interp.ofText, tokenize_oneText]
  exact ⟨_, {
    atLine := rfl
    running := rfl
    noError := rfl
    noBreak := fun h => Bool.false_ne_true h.1
    form := by constructor <;> decide
    enters := by decide
    condition := by constructor <;> decide +kernel
    branch := .of_run rfl (by decide +kernel) }⟩

/-- The line ends in an error of its own. -/
theorem else_is_error : ¬∀ (src : List UInt8) (fuel start line ifAt thenAt elseAt : Nat)
    (s : Interp) (n : Int) (e : Eval) (s' : Interp) (l : List Event),
    s.prog.buf.slice (line + 3) (s.prog.dataLen line) = tokenize 120 src →
      Selects fuel start line ifAt thenAt elseAt s n e s' l →
        RunsOnly (fuel + 1) start line ifAt s s' l := by
  intro h
  obtain ⟨s', hselects⟩ := selects_one
  have htokens : (Interp.ofText oneText).prog.buf.slice 3 ((Interp.ofText oneText).prog.dataLen 0) =
      tokenize 120 oneText := by
    rw [Interp.ofText, tokenize_oneText]
    rfl
  obtain ⟨pos, hexec, -⟩ := h oneText _ _ _ _ _ _ _ _ _ _ _ htokens hselects
  have herror : ∀ r, execLineAt ((Interp.ofText oneText).prog.tokens 0)
      ((Interp.ofText oneText).prog.dataLen 0) 9 0 (Interp.ofText oneText) = r →
      r.state.hasError = true := by
    rintro r rfl
    rw [Interp.ofText, tokenize_oneText]
    decide +kernel
  have hnone : s'.hasError = false := hselects.branch.noError
  have hset : s'.hasError = true := herror _ hexec
  rw [hnone] at hset
  cases hset

end RainbowOs.Basic
