import RainbowOs.Basic.Frame

/-!
# Where control goes

`Finds` says which statement is next from a position of a line on: one that
follows in the line, or the first one of a line after it. `Flow` is a
monitor of runs that knows, after a jump, which statement has to be next,
and keeps the calls that have not returned; `watched_cmdRun` says that every
run of a program goes with it. A return is watched only where it can work;
after one that cannot, the calls are no longer known.
-/

namespace RainbowOs.Basic

open RainbowOs.Lib
open Prog (Watched Reads tell)
open RainbowOs.Basic.Frame (watched_get watched_getPos)

/-- The position of the first statement from `pos` on, in the next `n` tokens. -/
def stmtWithin (t : Tokens) (pos : Nat) : Nat → Option Nat
  | 0 => none
  | n + 1 => if t.tok pos = 32 ∨ t.tok pos = 58 then stmtWithin t (pos + 1) n else some pos

/-- The position of the first statement from `pos` on. -/
def stmtFrom (t : Tokens) (len pos : Nat) : Option Nat := stmtWithin t pos (len - pos)

/-- The first statement of a line from `pos` on. -/
def Program.stmtFrom (p : Program) (line pos : Nat) : Option Nat :=
  Basic.stmtFrom (p.tokens line) (p.dataLen line) pos

/-- The statement that is next from a position of a line on, by the address of its tokens and
the position in them. -/
inductive Finds (p : Program) : Option Nat → Nat → Nat × Nat → Prop where
  | here {line pos q : Nat} (h : p.stmtFrom line pos = some q) :
      Finds p (some line) pos (line + 3, q)
  | later {line pos : Nat} {loc : Nat × Nat} (h : p.stmtFrom line pos = none)
      (hnext : Finds p (p.nextLine line) 0 loc) : Finds p (some line) pos loc

/-- A return can work: it is in the line of the call, or neither line has a statement from the
position of the call on. -/
def Returns (p : Program) (addr : Nat) (call : Nat × Nat) : Prop :=
  addr = call.1 ∨ p.stmtFrom (addr - 3) call.2 = none ∧ p.stmtFrom (call.1 - 3) call.2 = none

/-- What the monitor knows: where the next statement is looked for, and the calls that have not
returned, unless that is lost. -/
structure Ghost where
  pending : Option (Nat × Nat)
  calls : Option (List (Nat × Nat))

/-- What the monitor reads. -/
inductive Flow (p : Program) : Ghost → Event → Ghost → Prop where
  | stmt {g : Ghost} {addr pos : Nat}
      (h : ∀ l q, g.pending = some (l, q) → Finds p (some l) q (addr, pos)) :
      Flow p g (.stmt addr pos) { g with pending := none }
  | jump {g : Ghost} {num line pos : Nat} (hg : g.pending = none)
      (hline : p.findLine num = some (some line)) :
      Flow p g (.jump num line pos) { g with pending := some (line, pos) }
  | gosub {g : Ghost} {addr pos : Nat} (hg : g.pending = none) :
      Flow p g (.gosub addr pos) { g with calls := g.calls.map ((addr, pos) :: ·) }
  | ret {g : Ghost} {addr : Nat} {call : Nat × Nat} {calls : List (Nat × Nat)}
      (hg : g.pending = none) (hcalls : g.calls = some (call :: calls)) (h : Returns p addr call) :
      Flow p g (.ret addr) ⟨some (call.1 - 3, call.2), some calls⟩
  | stray {g : Ghost} {addr : Nat} {call : Nat × Nat} {calls : List (Nat × Nat)}
      (hg : g.pending = none) (hcalls : g.calls = some (call :: calls))
      (h : ¬Returns p addr call) : Flow p g (.ret addr) ⟨none, none⟩
  | lost {g : Ghost} {addr : Nat} (hg : g.pending = none) (hcalls : g.calls = none) :
      Flow p g (.ret addr) ⟨none, none⟩
  | loop {g : Ghost} {var : UInt8} {varIdx : Int} {stack : List ForEntry} :
      Flow p g (.loop var varIdx stack) g
  | put {g : Ghost} {s : List UInt8} : Flow p g (.put s) g
  | clear {g : Ghost} : Flow p g .clear g

/-- The stack of the interpreter that goes with the calls. -/
def gosubStackOf (calls : List (Nat × Nat)) : List (Option Nat × Nat) :=
  calls.map fun c => (some (c.1 - 3), c.2)

/-! ## Positions -/

section Positions

variable (t : Tokens) (len : Nat)

theorem skipSp_of_lt {pos : Nat} (h : pos < len) :
    skipSp t len pos = if t.tok pos = 32 then skipSp t len (pos + 1) else pos := by
  have hlen : len - pos = len - (pos + 1) + 1 := by omega
  rw [skipSp, hlen]
  rfl

theorem skipSp_of_le {pos : Nat} (h : len ≤ pos) : skipSp t len pos = pos := by
  rw [skipSp, Nat.sub_eq_zero_of_le h]
  rfl

/-- There is no blank where blanks were skipped. -/
theorem tok_skipSp (pos : Nat) (h : skipSp t len pos < len) : t.tok (skipSp t len pos) ≠ 32 := by
  by_cases hpos : pos < len
  · rw [skipSp_of_lt t len hpos] at h ⊢
    split
    · next hblank =>
      rw [if_pos hblank] at h
      exact tok_skipSp (pos + 1) h
    · next hblank => exact hblank
  · rw [skipSp_of_le t len (Nat.not_lt.mp hpos)] at h
    exact absurd h hpos
termination_by len - pos

end Positions

/-! ## What goes with the monitor -/

/-- In a statement of the line `r`: nothing is pending. -/
structure Mid (p : Program) (r : Nat) (g : Ghost) (s : Interp) : Prop where
  prog : s.prog = p
  pending : g.pending = none
  jumped : s.exec.jumped = false
  running : s.exec.running = true
  calls : ∀ calls, g.calls = some calls →
    s.exec.gosubStack = gosubStackOf calls ∧ s.exec.currentLine = some r

/-- The statement that the code comes to from the line `r`. -/
def Ahead (p : Program) (r : Nat) (x : ExecState) (loc : Nat × Nat) : Prop :=
  match p.stmtFrom r x.pos with
  | some q => loc = (r + 3, q)
  | none => Finds p (x.currentLine.bind p.nextLine) 0 loc

/-- Between the statements of the line `r`: if the program goes on, it goes to what is pending. -/
structure Between (p : Program) (r : Nat) (g : Ghost) (s : Interp) : Prop where
  prog : s.prog = p
  stay : s.exec.running = true → s.exec.jumped = false →
    ∀ l q, g.pending = some (l, q) → ∀ loc, Ahead p r s.exec loc → Finds p (some l) q loc
  gone : s.exec.running = true → s.exec.jumped = true →
    ∀ l q, g.pending = some (l, q) → ∀ loc, Finds p s.exec.currentLine s.exec.pos loc →
      Finds p (some l) q loc
  calls : s.exec.running = true → ∀ calls, g.calls = some calls →
    s.exec.gosubStack = gosubStackOf calls
  line : s.exec.running = true → s.exec.jumped = false → ∀ calls, g.calls = some calls →
    s.exec.currentLine = some r ∨ p.stmtFrom r s.exec.pos = none

section Statements

variable {p : Program} {r : Nat}

theorem Mid.between {g : Ghost} {s : Interp} (h : Mid p r g s) : Between p r g s where
  prog := h.prog
  stay := fun _ _ l q hp => by
    rw [h.pending] at hp
    cases hp
  gone := fun _ hj => by
    rw [h.jumped] at hj
    cases hj
  calls := fun _ calls hc => (h.calls calls hc).1
  line := fun _ _ calls hc => .inl (h.calls calls hc).2

/-- A program that stops is done. -/
theorem Between.stopped {g : Ghost} {s : Interp} (hprog : s.prog = p)
    (hrunning : s.exec.running = false) : Between p r g s where
  prog := hprog
  stay := fun h => by
    rw [hrunning] at h
    cases h
  gone := fun h => by
    rw [hrunning] at h
    cases h
  calls := fun h => by
    rw [hrunning] at h
    cases h
  line := fun h => by
    rw [hrunning] at h
    cases h

theorem Mid.alike {g : Ghost} {s s' : Interp} (hs : Alike s s') (h : Mid p r g s) : Mid p r g s' where
  prog := hs.prog.trans h.prog
  pending := h.pending
  jumped := hs.jumped.trans h.jumped
  running := hs.running.trans h.running
  calls := fun calls hc => ⟨hs.stack.trans (h.calls calls hc).1, hs.line.trans (h.calls calls hc).2⟩

/-- The program does something inside a statement. -/
abbrev StaysIn (p : Program) (r : Nat) {α : Type} (c : Exec α) : Prop := Stays (Flow p) (Mid p r) c

/-- The program does the rest of a statement. -/
abbrev EndsIn (p : Program) (r : Nat) (c : Exec Unit) : Prop :=
  Ends (Flow p) (Mid p r) (Between p r) c

/-- A transfer leaves the line and the position pending. -/
theorem ends_jumpTo (target : Int) : EndsIn p r (jumpTo target) := by
  unfold jumpTo
  refine watched_get.bind fun s => ?_
  split
  · exact Watched.halt _
  · exact Watched.modify fun g s h => Between.stopped h.2.prog rfl
  · next line hfind =>
    refine (watched_getPos.mono (fun _ _ h => h) fun _ _ _ h => h).bind fun pos => ?_
    refine Watched.bind (Q := fun _ g s => s.prog = p ∧ g.pending = some (line, s.exec.pos) ∧
      ∀ calls, g.calls = some calls → s.exec.gosubStack = gosubStackOf calls)
      (Watched.tell ?_) fun _ => Watched.modify ?_
    · rintro g s' ⟨rfl, rfl, h⟩
      rw [h.prog] at hfind
      exact ⟨_, .jump h.pending hfind, h.prog, rfl, fun calls hc => (h.calls calls hc).1⟩
    · rintro g s' ⟨hprog, hpending, hcalls⟩
      refine ⟨hprog, fun _ hj => absurd hj (by simp), fun _ _ l q hp loc hloc => ?_,
        fun _ => hcalls, fun _ hj => absurd hj (by simp)⟩
      rw [hpending] at hp
      cases hp
      exact hloc

/-- What is not control is nothing to the monitor. -/
theorem flow_frame : Frame (Flow p) (Mid p r) (Between p r) where
  puts _ _ := .put
  clears _ := .clear
  alike := Mid.alike
  ends := Mid.between
  stops h hprog hrunning _ := Between.stopped (hprog.trans h.prog) hrunning
  goes := ends_jumpTo

variable (t : Tokens) (len : Nat)

/-- A call that is saved is known. -/
theorem stays_pushCall (haddr : t.addr = r + 3) : StaysIn p r (do
    tell (.gosub t.addr (← getPos))
    modifyExec fun x => { x with gosubStack := (x.currentLine, x.pos) :: x.gosubStack }) := by
  intro g s h
  refine ⟨_, .cons (.gosub h.pending) (.nil _), fun _ _ =>
    ⟨h.prog, h.pending, h.jumped, h.running, fun calls hc => ?_⟩⟩
  obtain ⟨calls', hcalls', rfl⟩ := Option.map_eq_some_iff.mp hc
  obtain ⟨hstack, hline⟩ := h.calls calls' hcalls'
  refine ⟨?_, hline⟩
  show (s.exec.currentLine, s.exec.pos) :: s.exec.gosubStack = _
  rw [hstack, hline, gosubStackOf, gosubStackOf, List.map_cons, haddr]
  rfl

theorem ends_execGosub (haddr : t.addr = r + 3) (fuel : Nat) : EndsIn p r (execGosub t len fuel) := by
  refine (flow_frame.stays_setPos _).bind fun _ => flow_frame.ends_withNum t len
    fun n => Frame.stays_get.bind fun s => ?_
  split
  · exact flow_frame.ends_setError _
  · have hpush := (stays_pushCall (p := p) t haddr).bind fun _ => ends_jumpTo n
    rwa [Prog.bind_assoc] at hpush

/-- After a return that can work the code goes where it should. -/
theorem Returns.ahead {x : ExecState} {call : Nat × Nat} (h : Returns p (r + 3) call)
    (hline : x.currentLine = some (call.1 - 3)) (hpos : x.pos = call.2) {loc : Nat × Nat}
    (hloc : Ahead p r x loc) : Finds p (some (call.1 - 3)) call.2 loc := by
  rw [Ahead, hline, hpos] at hloc
  rcases h with hsame | ⟨hreturn, hcall⟩
  · have hr : call.1 - 3 = r := by omega
    rw [hr] at hloc ⊢
    cases hstmt : p.stmtFrom r call.2 with
    | some q =>
      rw [hstmt] at hloc
      rw [hloc]
      exact .here hstmt
    | none =>
      rw [hstmt] at hloc
      exact .later hstmt hloc
  · rw [Nat.add_sub_cancel] at hreturn
    rw [hreturn] at hloc
    exact .later hcall hloc

theorem ends_execReturn (haddr : t.addr = r + 3) : EndsIn p r (execReturn t) := by
  unfold execReturn
  refine (flow_frame.stays_setPos _).bind fun _ => watched_get.bind fun s' => ?_
  split
  · exact Watched.modify fun g s h => Between.stopped h.2.prog rfl
  · next line pos stack hstack =>
    rintro g s ⟨rfl, h⟩
    cases hcalls : g.calls with
    | none =>
      refine ⟨_, .cons (.lost h.pending hcalls) (.nil _), fun _ _ => ⟨h.prog, ?_, ?_, ?_, ?_⟩⟩
      · exact fun _ _ l q hp => by cases hp
      · exact fun _ _ l q hp => by cases hp
      · exact fun _ calls hc => by cases hc
      · exact fun _ _ calls hc => by cases hc
    | some calls =>
      have hknown := (h.calls calls hcalls).1
      rw [hstack] at hknown
      cases calls with
      | nil => cases hknown
      | cons call calls =>
        obtain ⟨hcall, hrest⟩ := List.cons.inj hknown
        cases hcall
        by_cases hreturns : Returns p t.addr call
        · refine ⟨_, .cons (.ret h.pending hcalls hreturns) (.nil _), fun _ _ =>
            ⟨h.prog, ?_, ?_, ?_, ?_⟩⟩
          · intro _ _ l q hp loc hloc
            cases hp
            exact (haddr ▸ hreturns).ahead rfl rfl hloc
          · exact fun _ hj => absurd (h.jumped.symm.trans hj) Bool.false_ne_true
          · intro _ calls' hc
            cases hc
            exact hrest
          · intro _ _ _ _
            rcases hreturns with hsame | ⟨hnone, -⟩
            · left
              show some (call.1 - 3) = some r
              rw [← hsame, haddr]
              rfl
            · right
              rw [haddr] at hnone
              exact hnone
        · refine ⟨_, .cons (.stray h.pending hcalls hreturns) (.nil _), fun _ _ =>
            ⟨h.prog, ?_, ?_, ?_, ?_⟩⟩
          · exact fun _ _ l q hp => by cases hp
          · exact fun _ _ l q hp => by cases hp
          · exact fun _ calls hc => by cases hc
          · exact fun _ _ calls hc => by cases hc

theorem ends_enterLoop (v : VarTarget) (limit step : Int) : EndsIn p r (enterLoop v limit step) := by
  refine Frame.stays_get.bind fun s => ?_
  refine Watched.bind (Q := fun _ => Mid p r) (Watched.tell fun g s h => ⟨g, .loop, h⟩) fun _ => ?_
  split
  · exact flow_frame.ends_setError _
  · exact Watched.modify fun g s h => Mid.between ⟨h.prog, h.pending, h.jumped, h.running, h.calls⟩

theorem ends_execNext : EndsIn p r (execNext t len) := by
  unfold execNext
  refine (flow_frame.stays_setPos _).bind fun _ => (flow_frame.stays_nextName t len).bind fun name =>
    Frame.stays_get.bind fun s => ?_
  simp only
  split
  · exact flow_frame.ends_setError _
  · split
    · exact flow_frame.ends_setError _
    · refine Frame.stays_get.bind fun s => (flow_frame.stays_setNum _ _ _).bind fun _ => Watched.ite
        (fun _ => ?_) fun _ => ?_
      · exact Watched.modify fun g s h => Mid.between ⟨h.prog, h.pending, h.jumped, h.running, h.calls⟩
      · refine Watched.modify fun g s h => ⟨h.prog, fun _ hj => absurd hj (by simp), ?_,
          fun _ calls hc => (h.calls calls hc).1, fun _ hj => absurd hj (by simp)⟩
        intro _ _ l q hp
        rw [h.pending] at hp
        cases hp

/-! ## Lines -/

theorem skipSp_of_tok {pos : Nat} (h : t.tok pos ≠ 32) : skipSp t len pos = pos := by
  by_cases hpos : pos < len
  · rw [skipSp_of_lt t len hpos, if_neg h]
  · exact skipSp_of_le t len (Nat.not_lt.mp hpos)

/-- Before the statement at a position. -/
structure Here (p : Program) (r pos : Nat) (g : Ghost) (s : Interp) : Prop where
  prog : s.prog = p
  pending : ∀ l q, g.pending = some (l, q) → Finds p (some l) q (r + 3, pos)
  jumped : s.exec.jumped = false
  running : s.exec.running = true
  calls : ∀ calls, g.calls = some calls →
    s.exec.gosubStack = gosubStackOf calls ∧ s.exec.currentLine = some r

/-- A program is interrupted, or the statement is next. -/
theorem watched_interrupted (pos : Nat) : Watched (Flow p) (Here p r pos) interrupted fun b g s =>
    if b then s.prog = p ∧ s.exec.running = false else Here p r pos g s := by
  have hkey : Watched (Flow p) (Here p r pos) keyboardHasKey fun _ => Here p r pos := by
    refine watched_get.bind fun s => Watched.bind (Q := fun _ => Here p r pos) (Watched.modify ?_) fun _ =>
      Watched.pure fun _ _ h => h
    exact fun g s' h => ⟨h.2.prog, h.2.pending, h.2.jumped, h.2.running, h.2.calls⟩
  have hchar : Watched (Flow p) (Here p r pos) getchar fun _ => Here p r pos := by
    refine watched_get.bind fun s => Watched.bind (Q := fun _ => Here p r pos) (Watched.modify ?_) fun _ =>
      Watched.pure fun _ _ h => h
    exact fun g s' h => ⟨h.2.prog, h.2.pending, h.2.jumped, h.2.running, h.2.calls⟩
  unfold interrupted
  refine (watched_get.mono (fun _ _ h => h) fun _ _ _ h => h.2).bind fun s => ?_
  split
  · refine hkey.bind fun b => ?_
    split
    · refine hchar.bind fun c => ?_
      split
      · refine (watched_get.mono (fun _ _ h => h) fun _ _ _ h => h.2).bind fun s => ?_
        refine Watched.bind (Q := fun _ => Here p r pos) (Watched.tell fun g _ h => ⟨g, .put, h⟩) fun _ => ?_
        refine Watched.bind (Q := fun _ _ s => s.prog = p ∧ s.exec.running = false)
          (Watched.modify fun g s h => ⟨h.prog, rfl⟩) fun _ => Watched.pure fun _ _ h => by simpa using h
      · exact Watched.pure fun _ _ h => h
    · exact Watched.pure fun _ _ h => h
  · exact Watched.pure fun _ _ h => h

/-- Before a statement, which may not be there if nothing is pending. -/
structure Entry (p : Program) (r : Nat) (t : Tokens) (len : Nat) (g : Ghost) (s : Interp) : Prop where
  prog : s.prog = p
  pending : ∀ l q, g.pending = some (l, q) → skipSp t len s.exec.pos < len ∧
    Finds p (some l) q (r + 3, skipSp t len s.exec.pos)
  jumped : s.exec.jumped = false
  running : s.exec.running = true
  calls : ∀ calls, g.calls = some calls →
    s.exec.gosubStack = gosubStackOf calls ∧ s.exec.currentLine = some r

theorem Mid.entry {g : Ghost} {s : Interp} (h : Mid p r g s) : Entry p r t len g s where
  prog := h.prog
  pending := fun l q hp => by
    rw [h.pending] at hp
    cases hp
  jumped := h.jumped
  running := h.running
  calls := h.calls

/-- A statement goes with the monitor. -/
theorem watched_execStatement (haddr : t.addr = r + 3) : ∀ fuel,
    Watched (Flow p) (Entry p r t len) (execStatement t len fuel) fun _ => Between p r
  | 0 => Watched.halt _
  | fuel + 1 => by
    have hinner : EndsIn p r (execStatement t len fuel) :=
      (watched_execStatement haddr fuel).mono (fun _ _ h => h.entry t len) fun _ _ _ h => h
    unfold execStatement
    refine Watched.bind (Q := fun _ g s => if s.exec.pos < len then Here p r s.exec.pos g s
      else Mid p r g s) (Watched.modify ?_) fun _ => ?_
    · intro g s h
      split
      · exact ⟨h.prog, fun l q hp => (h.pending l q hp).2, h.jumped, h.running, h.calls⟩
      · next hpos =>
        have hnone : g.pending = none := by
          cases hp : g.pending with
          | none => rfl
          | some at' => exact absurd (h.pending at'.1 at'.2 hp).1 hpos
        exact ⟨h.prog, hnone, h.jumped, h.running, h.calls⟩
    refine watched_getPos.bind fun pos => Watched.ite (fun hle => ?_) fun hlt => ?_
    · refine Watched.pure fun g s ⟨hpos, h⟩ => ?_
      rw [if_neg (hpos ▸ Nat.not_lt.mpr hle)] at h
      exact h.between
    · refine Watched.bind (((watched_interrupted (p := p) (r := r) pos).mono ?_) fun _ _ _ h => h)
        fun stop => ?_
      · rintro g s ⟨rfl, h⟩
        rw [if_pos (Nat.not_le.mp hlt)] at h
        exact h
      refine Watched.ite (fun hstop => ?_) fun hgo => ?_
      · refine Watched.pure fun g s h => ?_
        rw [if_pos hstop] at h
        exact Between.stopped h.1 h.2
      · refine Watched.bind (Q := fun _ => Mid p r) (Watched.tell fun g s h => ?_) fun _ =>
          flow_frame.ends_execSwitch t len fuel hinner (ends_execGosub t len haddr fuel)
            (ends_execReturn t haddr) (flow_frame.ends_execFor t len fuel ends_enterLoop) (ends_execNext t len) _
        rw [if_neg hgo] at h
        rw [haddr]
        exact ⟨_, .stmt h.pending, h.prog, rfl, h.jumped, h.running, h.calls⟩

/-- A move to where the same statement is next. -/
theorem Between.move {g : Ghost} {s : Interp} (h : Between p r g s) (hjumped : s.exec.jumped = false)
    {pos : Nat} (hpos : p.stmtFrom r pos = p.stmtFrom r s.exec.pos) :
    Between p r g { s with exec := { s.exec with pos := pos } } where
  prog := h.prog
  stay := fun hrunning _ l q hp loc hloc => by
    refine h.stay hrunning hjumped l q hp loc ?_
    rw [Ahead] at hloc ⊢
    rw [hpos] at hloc
    exact hloc
  gone := fun _ hj => absurd (hjumped.symm.trans hj) Bool.false_ne_true
  calls := h.calls
  line := fun hrunning _ calls hc => (h.line hrunning hjumped calls hc).imp_right hpos.trans

/-- At a statement the code is about to execute it. -/
theorem Between.entry {g : Ghost} {s : Interp} (h : Between p r g s) (hjumped : s.exec.jumped = false)
    (hrunning : s.exec.running = true) (hstmt : p.stmtFrom r s.exec.pos = some s.exec.pos)
    (hblank : (p.tokens r).tok s.exec.pos ≠ 32) (hpos : s.exec.pos < p.dataLen r) :
    Entry p r (p.tokens r) (p.dataLen r) g s where
  prog := h.prog
  pending := fun l q hp => by
    rw [skipSp_of_tok _ _ hblank]
    refine ⟨hpos, h.stay hrunning hjumped l q hp _ ?_⟩
    rw [Ahead, hstmt]
  jumped := hjumped
  running := hrunning
  calls := fun calls hc => by
    refine ⟨h.calls hrunning calls hc, (h.line hrunning hjumped calls hc).resolve_right ?_⟩
    rw [hstmt]
    exact Option.some_ne_none _

end Statements

end RainbowOs.Basic
