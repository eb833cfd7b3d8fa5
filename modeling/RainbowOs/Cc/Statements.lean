import RainbowOs.Cc.Stmt
import RainbowOs.Cc.Labels

/-!
# Reading statements

What the parser of a statement goes by, and what it changes, is where it
stands: the tokens ahead, the symbols, the number of the next label and the
labels of the loops around it. `Moves` follows a run from one such place to
another along the calls that it makes, and every statement that can be
compiled is read to its end with the calls of its code.
-/

namespace RainbowOs.Cc

open RainbowOs.Lib

/-! ## Where the parser stands -/

/-- The labels of the loops around, from the outermost on: for `break` and for `continue`. -/
def Compiler.loops (s : Compiler) : List (Int × Int) :=
  (List.range s.loopDepth).map fun i => (s.breakLabels i, s.continueLabels i)

/-- Where the parser stands. -/
structure Spot where
  ahead : Stream' Tok
  syms : Symbols
  labels : Nat
  loops : List (Int × Int)

def Compiler.spot (s : Compiler) : Spot := ⟨s.lex.stream, s.syms, s.cg.numLabels, s.loops⟩

/-- From wherever it stands at `x`, and with no error, `p` makes the calls, answers `a` and stands at `y`. -/
def Moves {α : Type} (p : Parse α) (x : Spot) (a : α) (calls : List CgCall) (y : Spot) : Prop :=
  ∀ ⦃s : Compiler⦄, s.hadError = none → s.spot = x → ∃ s' log, p s = ⟨.done a, s', log⟩ ∧
    callsOf log = calls ∧ s'.cg = runCalls calls s.cg ∧ s'.hadError = none ∧ s'.spot = y

namespace Compiler

variable {s : Compiler}

theorem loops_length : s.loops.length = s.loopDepth := by rw [loops, List.length_map, List.length_range]

/-- The labels of the innermost loop. -/
theorem loops_last {ls : List (Int × Int)} {b k : Int} (h : s.loops = ls ++ [(b, k)]) :
    s.loopDepth = ls.length + 1 ∧ s.breakLabels ls.length = b ∧ s.continueLabels ls.length = k := by
  have hdepth : s.loopDepth = ls.length + 1 := by rw [← loops_length, h, List.length_append, List.length_singleton]
  have hlast := h
  rw [loops, hdepth, List.range_succ, List.map_append, List.map_singleton] at hlast
  have hpair := (List.append_inj' hlast rfl).2
  simp only [List.cons.injEq, Prod.mk.injEq, and_true] at hpair
  exact ⟨hdepth, hpair⟩

end Compiler

namespace Moves

variable {α β : Type} {p : Parse α} {f : α → Parse β} {x y z : Spot} {a : α} {b : β} {calls calls' : List CgCall}

theorem pure (x : Spot) (a : α) : Moves (pure a) x a [] x := fun s herr hx => ⟨s, [], rfl, rfl, rfl, herr, hx⟩

theorem of_eq (h : Moves p x a calls y) (hy : y = z) : Moves p x a calls z := hy ▸ h

theorem of_calls (h : Moves p x a calls y) (hcalls : calls = calls') : Moves p x a calls' y := hcalls ▸ h

/-- One after the other. -/
theorem bind (h : Moves p x a calls y) (h' : Moves (f a) y b calls' z) : Moves (p >>= f) x b (calls ++ calls') z := by
  intro s herr hx
  obtain ⟨s₁, log, hp, hcalls, hcg, herr₁, hy⟩ := h herr hx
  obtain ⟨s₂, log', hf, hcalls', hcg', herr₂, hz⟩ := h' herr₁ hy
  refine ⟨s₂, log ++ log', ?_, ?_, ?_, herr₂, hz⟩
  · rw [Prog.bind_run_prepend hp, hf]
    rfl
  · rw [callsOf_append, hcalls, hcalls']
  · rw [hcg', hcg, runCalls_append]

/-- A part that makes no calls. -/
theorem quiet (h : Moves p x a [] y) (h' : Moves (f a) y b calls z) : Moves (p >>= f) x b calls z := h.bind h'

/-- A part that makes one call. -/
theorem emit {call : CgCall} (h : Moves p x a [call] y) (h' : Moves (f a) y b calls z) :
    Moves (p >>= f) x b (call :: calls) z := h.bind h'

theorem get {f : Compiler → Parse β} (h : ∀ s, s.hadError = none → s.spot = x → Moves (f s) x b calls z) :
    Moves (Prog.get >>= f) x b calls z := by
  intro s herr hx
  obtain ⟨s', log, hrun, hrest⟩ := h s herr hx herr hx
  have hget : (Prog.get : Parse Compiler) s = ⟨.done s, s, []⟩ := rfl
  refine ⟨s', log, ?_, hrest⟩
  rw [Prog.bind_run_prepend hget, hrun]
  rfl

/-- What has been said of a run along known tokens. -/
theorem of_takes {rest : Stream' Tok} {k : Nat} (hk : (calls.map CgCall.fresh).sum = k)
    (hroom : x.labels + k ≤ cgLabelMax) (h : ∀ s : Compiler, s.spot = x → Takes p s calls rest (Pure.pure a)) :
    Moves p x a calls { x with ahead := rest, labels := x.labels + k } := by
  intro s herr hx
  obtain ⟨s', log, hrun, hcalls, hafter⟩ := h s hx
  refine ⟨s', log, ?_, hcalls, hafter.cg, hafter.hadError.trans herr, ?_⟩
  · rw [hrun, Run.prepend, Prog.pure_run, List.append_nil]
  · subst hx
    have hloops : s'.loops = s.loops := by
      rw [Compiler.loops, hafter.state]
      rfl
    have hlabels := hafter.numLabels k hk hroom
    rw [Compiler.spot, hafter.stream, hafter.syms, hlabels, hloops]
    rfl

variable {t : Tok} {rest : Stream' Tok} {syms : Symbols} {n : Nat} {ls : List (Int × Int)}

theorem lexPeek : Moves lexPeek ⟨Stream'.cons t rest, syms, n, ls⟩ t [] ⟨Stream'.cons t rest, syms, n, ls⟩ := by
  intro s herr hx
  have hs := congrArg Spot.ahead hx
  have hpeek : s.lex.peek.1 = t := s.lex.peek_fst.trans (Lexer.next_of_stream hs).1
  refine ⟨{ s with lex := s.lex.peek.2 }, [], ?_, rfl, rfl, herr, ?_⟩
  · rw [← hpeek]
    rfl
  · rw [← hx]
    exact congrArg (fun ahead => (⟨ahead, s.syms, s.cg.numLabels, s.loops⟩ : Spot)) s.lex.stream_peek

theorem lexNext : Moves lexNext ⟨Stream'.cons t rest, syms, n, ls⟩ t [] ⟨rest, syms, n, ls⟩ := by
  intro s herr hx
  obtain ⟨hnext, hrest⟩ := Lexer.next_of_stream (congrArg Spot.ahead hx)
  refine ⟨{ s with lex := s.lex.next.2 }, [], ?_, rfl, rfl, herr, ?_⟩
  · rw [← hnext]
    rfl
  · obtain ⟨-, rfl, rfl, rfl⟩ := Spot.mk.inj hx
    exact congrArg (fun ahead => (⟨ahead, s.syms, s.cg.numLabels, s.loops⟩ : Spot)) hrest

theorem expect : Moves (expect t) ⟨Stream'.cons t rest, syms, n, ls⟩ () [] ⟨rest, syms, n, ls⟩ := by
  intro s herr hx
  obtain ⟨s', log, hrun, hcalls, hafter⟩ := Takes.expect_last (congrArg Spot.ahead hx)
  refine ⟨s', log, ?_, hcalls, hafter.cg, hafter.hadError.trans herr, ?_⟩
  · rw [hrun, Run.prepend, Prog.pure_run, List.append_nil]
  · obtain ⟨-, rfl, rfl, rfl⟩ := Spot.mk.inj hx
    have hloops : s'.loops = s.loops := by
      rw [Compiler.loops, hafter.state]
      rfl
    rw [Compiler.spot, hafter.stream, hafter.syms, hafter.cg, hloops]
    rfl

/-- A call that makes no label. -/
theorem cg {call : CgCall} {ahead : Stream' Tok} (hfresh : call.fresh = 0) :
    Moves (cg call) ⟨ahead, syms, n, ls⟩ () [call] ⟨ahead, syms, n, ls⟩ := by
  intro s herr hx
  refine ⟨{ s with cg := call.run s.cg }, [.emit call], rfl, rfl, rfl, herr, ?_⟩
  have hlabels : (call.run s.cg).numLabels = s.cg.numLabels := by
    rw [call.run_eq, hfresh]
    exact ite_self _
  obtain ⟨rfl, rfl, rfl, rfl⟩ := Spot.mk.inj hx
  exact congrArg (fun labels => (⟨s.lex.stream, s.syms, labels, s.loops⟩ : Spot)) hlabels

theorem cgNewLabel {ahead : Stream' Tok} (hroom : n < cgLabelMax) :
    Moves cgNewLabel ⟨ahead, syms, n, ls⟩ n [.newLabel] ⟨ahead, syms, n + 1, ls⟩ := by
  intro s herr hx
  obtain ⟨rfl, rfl, rfl, rfl⟩ := Spot.mk.inj hx
  have hfresh : s.cg.freshLabel = s.cg.numLabels := if_neg (by omega)
  refine ⟨{ s with cg := CgCall.newLabel.run s.cg }, [.emit .newLabel], ?_, rfl, rfl, herr, ?_⟩
  · rw [cgNewLabel_run, hfresh]
  · have hlabels : (CgCall.newLabel.run s.cg).numLabels = s.cg.numLabels + 1 := numLabels_run .newLabel hroom
    exact congrArg (fun labels => (⟨s.lex.stream, s.syms, labels, s.loops⟩ : Spot)) hlabels

/-! ### Loops -/

theorem enterLoop {ahead : Stream' Tok} (b k : Int) (hroom : ls.length < maxLoopDepth) :
    Moves (enterLoop b k) ⟨ahead, syms, n, ls⟩ () [] ⟨ahead, syms, n, ls ++ [(b, k)]⟩ := by
  intro s herr hx
  obtain ⟨rfl, rfl, rfl, rfl⟩ := Spot.mk.inj hx
  rw [Compiler.loops_length] at hroom
  have hrun : RainbowOs.Cc.enterLoop b k s = ⟨.done (), { s with
      breakLabels := Function.update s.breakLabels s.loopDepth b
      continueLabels := Function.update s.continueLabels s.loopDepth k
      loopDepth := s.loopDepth + 1 }, []⟩ := congrArg (fun s' => (⟨.done (), s', []⟩ : Run _ _ _ _)) (if_pos hroom)
  refine ⟨_, _, hrun, rfl, rfl, herr, ?_⟩
  have hloops : (List.range (s.loopDepth + 1)).map (fun i => (Function.update s.breakLabels s.loopDepth b i,
      Function.update s.continueLabels s.loopDepth k i)) = s.loops ++ [(b, k)] := by
    rw [List.range_succ, List.map_append, List.map_singleton, Function.update_self, Function.update_self]
    congr 1
    refine List.map_congr_left fun i hi => ?_
    have hne : i ≠ s.loopDepth := Nat.ne_of_lt (List.mem_range.mp hi)
    rw [Function.update_of_ne hne, Function.update_of_ne hne]
  exact congrArg (Spot.mk s.lex.stream s.syms s.cg.numLabels) hloops

theorem leaveLoop {ahead : Stream' Tok} {b k : Int} :
    Moves leaveLoop ⟨ahead, syms, n, ls ++ [(b, k)]⟩ () [] ⟨ahead, syms, n, ls⟩ := by
  intro s herr hx
  obtain ⟨rfl, rfl, rfl, hloops⟩ := Spot.mk.inj hx
  refine ⟨{ s with loopDepth := s.loopDepth - 1 }, [], rfl, rfl, rfl, herr, ?_⟩
  have hdepth := (Compiler.loops_last hloops).1
  rw [Compiler.loops, hdepth, List.range_succ, List.map_append] at hloops
  have hrest := (List.append_inj' hloops rfl).1
  rw [← hrest, hdepth]
  rfl

/-! ### Symbols -/

variable {ahead : Stream' Tok}

theorem copyName {name : List UInt8} (h : name.length ≤ symNameMax) : Moves (copyName name) x name [] x := by
  intro s herr hx
  refine ⟨s, [.copy name], ?_, rfl, rfl, herr, hx⟩
  rw [RainbowOs.Cc.copyName, if_pos h]
  rfl

theorem symFind (name : List UInt8) :
    Moves (symFind name) ⟨ahead, syms, n, ls⟩ (syms.find name) [] ⟨ahead, syms, n, ls⟩ := by
  intro s herr hx
  obtain ⟨rfl, rfl, rfl, rfl⟩ := Spot.mk.inj hx
  exact ⟨s, [], rfl, rfl, rfl, herr, rfl⟩

theorem symAt (r : SymRef) : Moves (symAt r) ⟨ahead, syms, n, ls⟩ (syms.deref r) [] ⟨ahead, syms, n, ls⟩ := by
  intro s herr hx
  obtain ⟨rfl, rfl, rfl, rfl⟩ := Spot.mk.inj hx
  exact ⟨s, [], rfl, rfl, rfl, herr, rfl⟩

theorem refer (r : SymRef) (use : Use) : Moves (refer r use) x () [] x :=
  fun s herr hx => ⟨s, [.refer r use], rfl, rfl, rfl, herr, hx⟩

theorem storeScalar (s : Symbol) :
    Moves (storeScalar s) ⟨ahead, syms, n, ls⟩ () [storeCall s] ⟨ahead, syms, n, ls⟩ := by
  unfold RainbowOs.Cc.storeScalar storeCall
  split <;> exact cg rfl

end Moves

/-! ## Expressions -/

section Expressions

variable {t : Symbols} {n loops fuel : Nat} {ls : List (Int × Int)} {tok : Tok} {rest : Stream' Tok}

variable (n ls rest) in
/-- `parse_assign_expr` reads an expression with assignments. -/
theorem Act.moves {a : Act} (hvalid : a.Valid t) (htok : tok.Closes) (hroom : n + a.labels ≤ cgLabelMax)
    (hfuel : a.tokens.length < fuel) (hloops : a.tokens.length < loops) :
    Moves (parseAssignExpr loops fuel) ⟨a.tokens ++ₛ Stream'.cons tok rest, t, n, ls⟩ () (a.calls t n)
      ⟨Stream'.cons tok rest, t, n + a.labels, ls⟩ := by
  induction a generalizing fuel with
  | value e =>
    obtain ⟨⟨hg, hhead, hparens⟩, hvars⟩ := hvalid
    have hassigns := hg.assigns_flat hhead hparens hfuel hloops htok
    refine Moves.of_takes (e.fresh_calls t n) hroom fun s hx => ?_
    obtain ⟨hs, rfl, rfl, -⟩ := Spot.mk.inj hx
    exact hassigns hs (fun x hx => (hvars x hx).toScalar) hroom
  | assign x a ih =>
    obtain ⟨hg, hvars⟩ := hvalid
    have hx := hvars x List.mem_cons_self
    have ha : a.Valid t := ⟨hg, fun y hy => hvars y (List.mem_cons_of_mem x hy)⟩
    simp only [Act.tokens, List.length_cons] at hfuel hloops
    obtain ⟨f, rfl⟩ := Nat.exists_eq_add_of_le' (Nat.zero_lt_of_lt hfuel)
    rw [Act.tokens, Stream'.cons_append_stream, Stream'.cons_append_stream]
    refine .quiet .lexPeek (.quiet .lexNext (.quiet (.copyName hx.name) (.quiet .lexPeek (.quiet .lexNext ?_))))
    refine (ih ha hroom (by omega) (by omega)).bind (.quiet (.symFind x) ?_)
    rw [if_neg hx.found]
    exact .quiet (.refer _ _) (.quiet (.symAt _) (.storeScalar _))

/-- The token begins an expression. -/
def Tok.begins : Tok → Bool
  | .numLit _ | .ident _ | .lparen | .minus | .bang | .tilde => true
  | _ => false

theorem Expr.begins_tokens (e : Expr) : ∃ first more, e.tokens = first :: more ∧ first.begins = true := by
  induction e with
  | binary op l r ih _ =>
    obtain ⟨first, more, htokens, hfirst⟩ := ih
    exact ⟨first, _, by rw [tokens, htokens, List.cons_append], hfirst⟩
  | unary op e ih => exact ⟨_, _, rfl, by cases op <;> rfl⟩
  | _ => exact ⟨_, _, rfl, rfl⟩

theorem Act.begins_tokens (a : Act) : ∃ first more, a.tokens = first :: more ∧ first.begins = true := by
  cases a with
  | value e => exact e.begins_tokens
  | assign x a => exact ⟨_, _, rfl, rfl⟩

section Optional

variable {β : Type} {b : β} {f : Unit → Parse β} {g : Parse β} {a : Option Act} {calls calls' : List CgCall} {z : Spot}
  (hvalid : OptValid t a) (htok : tok.Closes) (hbegins : tok.begins = false) (hroom : n + optLabels a ≤ cgLabelMax)
  (hloops : (optTokens a).length < loops)

include hvalid htok hbegins hroom hloops

/-- An expression that may be missing, up to a token that begins none, and what follows. -/
theorem moves_choice
    (hnone : a = none → Moves g ⟨Stream'.cons tok rest, t, n, ls⟩ b (calls' ++ calls) z)
    (hsome : Moves (f ()) ⟨Stream'.cons tok rest, t, n + optLabels a, ls⟩ b calls z) :
    Moves (lexPeek >>= fun first => if first ≠ tok then parseExpr loops >>= f else g)
      ⟨optTokens a ++ₛ Stream'.cons tok rest, t, n, ls⟩ b (a.elim calls' (Act.calls t n) ++ calls) z := by
  cases a with
  | none =>
    refine .quiet .lexPeek ?_
    rw [if_neg (not_not_intro rfl)]
    exact hnone rfl
  | some a =>
    have hact := Act.moves n ls rest (hvalid a rfl) htok hroom hloops hloops
    obtain ⟨first, more, htokens, hfirst⟩ := a.begins_tokens
    have hne : first ≠ tok := by
      rintro rfl
      rw [hbegins] at hfirst
      cases hfirst
    rw [optTokens, Option.elim_some] at *
    rw [htokens, Stream'.cons_append_stream] at hact ⊢
    refine .quiet .lexPeek ?_
    rw [if_pos hne]
    exact hact.bind hsome

/-- The same, where nothing stands for it. -/
theorem moves_optional (h : Moves (f ()) ⟨Stream'.cons tok rest, t, n + optLabels a, ls⟩ b calls z) :
    Moves (lexPeek >>= fun first => if first ≠ tok then parseExpr loops >>= f else f ())
      ⟨optTokens a ++ₛ Stream'.cons tok rest, t, n, ls⟩ b (optCalls t n a ++ calls) z :=
  moves_choice hvalid htok hbegins hroom hloops (fun ha => by subst ha; exact h) h

/-- The same, where `e` stands for it. -/
theorem moves_orElse {e : Parse Unit}
    (he : Moves e ⟨Stream'.cons tok rest, t, n, ls⟩ () calls' ⟨Stream'.cons tok rest, t, n, ls⟩)
    (h : Moves (f ()) ⟨Stream'.cons tok rest, t, n + optLabels a, ls⟩ b calls z) :
    Moves (lexPeek >>= fun first => if first ≠ tok then parseExpr loops >>= f else e >>= f)
      ⟨optTokens a ++ₛ Stream'.cons tok rest, t, n, ls⟩ b (a.elim calls' (Act.calls t n) ++ calls) z :=
  moves_choice hvalid htok hbegins hroom hloops (fun ha => by subst ha; exact he.bind h) h

end Optional

end Expressions

/-! ## Declarations -/

theorem comma_closes : Tok.comma.Closes := ⟨rfl, rfl, nofun, rfl⟩

theorem semi_closes : Tok.semi.Closes := ⟨rfl, rfl, nofun, rfl⟩

section Declarations

variable {t : Symbols} {n loops : Nat} {ls : List (Int × Int)} {tok : Tok} {rest ahead : Stream' Tok}

theorem Moves.symAddLocal {x : List UInt8} (hname : x.length ≤ symNameMax) (hfresh : t.findLocal x = .null)
    (hroom : t.locals.length < symMaxLocal) : Moves (symAddLocal x .localVar .int) ⟨ahead, t, n, ls⟩
      ((t.declare x).find x) [] ⟨ahead, t.declare x, n, ls⟩ := by
  have hadd : (t.addLocal x .localVar .int).1 = (t.declare x).find x := by
    rw [Symbols.find_declare hname hfresh hroom, Symbols.addLocal, if_neg (by omega), if_neg (by decide)]
  intro s herr hx
  obtain ⟨rfl, rfl, rfl, rfl⟩ := Spot.mk.inj hx
  let added : Declaration :=
    ⟨x, .localVar, s.syms, (s.syms.addLocal x .localVar .int).1, (s.syms.addLocal x .localVar .int).2⟩
  refine ⟨{ s with syms := s.syms.declare x }, _, ?_, callsOf_declare added [], rfl, herr, rfl⟩
  rw [← hadd]
  rfl

variable (ls rest) in
/-- The first value of a variable, up to the token after its declarator. -/
theorem moves_localInit {d : Declarator} (hd : d.Valid t) (htok : tok = .comma ∨ tok = .semi)
    (hroom : n + d.labels ≤ cgLabelMax) (hloops : d.tokens.length < loops) :
    Moves (parseLocalInit (parseExpr loops) ((t.declare d.name).find d.name))
      ⟨(d.init.elim [] fun a => .assign :: a.tokens) ++ₛ Stream'.cons tok rest, t.declare d.name, n, ls⟩ true
      (d.init.elim [] fun a => a.calls (t.declare d.name) n ++
        [.storeLocal ((t.declare d.name).deref ((t.declare d.name).find d.name)).offset])
      ⟨Stream'.cons tok rest, t.declare d.name, n + d.labels, ls⟩ := by
  have hvalid := hd.init
  rw [Declarator.labels] at hroom ⊢
  rw [Declarator.tokens] at hloops
  cases hinit : d.init with
  | none =>
    rcases htok with rfl | rfl
    · exact .quiet .lexPeek (.pure _ true)
    · exact .quiet .lexPeek (.pure _ true)
  | some a =>
    rw [hinit] at hvalid hroom hloops
    simp only [Option.elim_some, List.length_cons] at hloops
    have hclose : tok.Closes := by
      rcases htok with rfl | rfl
      · exact comma_closes
      · exact semi_closes
    have hact := Act.moves n ls rest (hvalid a rfl) hclose hroom
      (show _ < loops by omega) (show _ < loops by omega)
    rw [Option.elim_some, Option.elim_some, Stream'.cons_append_stream]
    refine .quiet .lexPeek (.quiet .lexNext (hact.bind (.quiet (.refer _ _) (.quiet (.symAt _) ?_))))
    exact .emit (.cg rfl) (.pure _ true)

/-- A declarator, and what follows. -/
theorem moves_declarator {d : Declarator} {fuel : Nat} {calls : List CgCall} {z : Spot} (hd : d.Valid t)
    (htok : tok = .comma ∨ tok = .semi) (hroom : n + d.labels ≤ cgLabelMax) (hloops : d.tokens.length < loops)
    (h : Moves (if tok = .comma then (do let _ ← lexNext; parseLocalDecl (parseExpr loops) .int fuel) else expect .semi)
      ⟨Stream'.cons tok rest, t.declare d.name, n + d.labels, ls⟩ () calls z) :
    Moves (parseLocalDecl (parseExpr loops) .int (fuel + 1)) ⟨d.tokens ++ₛ Stream'.cons tok rest, t, n, ls⟩ ()
      ((d.init.elim [] fun a => a.calls (t.declare d.name) n ++
        [.storeLocal ((t.declare d.name).deref ((t.declare d.name).find d.name)).offset]) ++ calls) z := by
  have hnull : (t.declare d.name).find d.name ≠ .null := (Symbols.local_declare hd.name hd.fresh hd.room).found
  have hinit := moves_localInit ls rest hd htok hroom hloops
  rw [Declarator.tokens, Stream'.cons_append_stream]
  refine .quiet .lexPeek (.quiet .lexNext (.quiet (.copyName hd.name) ?_))
  refine .quiet (.symAddLocal hd.name hd.fresh hd.room) ?_
  rw [if_neg hnull]
  refine hinit.bind ?_
  rw [if_pos rfl]
  exact .quiet .lexPeek h

variable (ls rest) in
/-- A declaration, from its first name on. -/
theorem moves_decl {d : Declarator} {ds : List Declarator} {fuel : Nat} (hvalid : DeclValid t (d :: ds))
    (hroom : n + (d.labels + (ds.map Declarator.labels).sum) ≤ cgLabelMax) (hfuel : ds.length < fuel)
    (hloops : ∀ d' ∈ d :: ds, d'.tokens.length < loops) :
    Moves (parseLocalDecl (parseExpr loops) .int fuel)
      ⟨d.tokens ++ₛ (ds.flatMap (fun d => .comma :: d.tokens) ++ₛ Stream'.cons .semi rest), t, n, ls⟩ ()
      (declCalls t n (d :: ds)) ⟨rest, declTable t (d :: ds), n + (d.labels + (ds.map Declarator.labels).sum), ls⟩ := by
  induction ds generalizing d t n fuel with
  | nil =>
    obtain ⟨f, rfl⟩ := Nat.exists_eq_add_of_le' hfuel
    exact moves_declarator hvalid.1 (.inr rfl) hroom (hloops d List.mem_cons_self) .expect
  | cons d' ds ih =>
    obtain ⟨hd, hds⟩ := hvalid
    rw [List.length_cons] at hfuel
    rw [List.map_cons, List.sum_cons] at hroom
    obtain ⟨f, rfl⟩ := Nat.exists_eq_add_of_le' (Nat.zero_lt_of_lt hfuel)
    have hrest := ih (n := n + d.labels) hds (by omega) (show ds.length < f by omega)
      (fun x hx => hloops x (List.mem_cons_of_mem d hx))
    rw [List.flatMap_cons, List.cons_append, Stream'.cons_append_stream, Stream'.append_append_stream]
    refine moves_declarator hd (.inl rfl) (by omega) (hloops d List.mem_cons_self) ?_
    rw [if_pos rfl]
    refine .quiet .lexNext (hrest.of_eq ?_)
    rw [List.map_cons, List.sum_cons, Nat.add_assoc]
    rfl

end Declarations

/-! ## Statements -/

section Statements

variable {t t' : Symbols} {n m loops : Nat} {ls : List (Int × Int)} {tok : Tok} {rest body more ahead : Stream' Tok}
  {stmt : Parse Unit} {a : Act} {calls calls' : List CgCall}

theorem moves_ifThen (ha : a.Valid t) (hroom : n + a.labels < cgLabelMax) (hloops : a.tokens.length < loops)
    (htok : tok ≠ .elseTok)
    (hstmt : Moves stmt ⟨body, t, n + a.labels + 1, ls⟩ () calls ⟨Stream'.cons tok rest, t', m, ls⟩) :
    Moves (parseIf (parseExpr loops) stmt)
      ⟨Stream'.cons .lparen (a.tokens ++ₛ Stream'.cons .rparen body), t, n, ls⟩ ()
      (a.calls t n ++ ([.newLabel, .jumpZero (n + a.labels : Nat)] ++ (calls ++ [.label (n + a.labels : Nat)])))
      ⟨Stream'.cons tok rest, t', m, ls⟩ := by
  have hact := Act.moves n ls body ha rparen_closes (Nat.le_of_lt hroom) hloops hloops
  refine .quiet .expect (hact.bind (.quiet .expect ?_))
  refine .emit (.cgNewLabel hroom) (.emit (.cg rfl) (hstmt.bind (.quiet .lexPeek ?_)))
  rw [if_neg htok]
  exact .cg rfl

theorem moves_ifElse {t'' : Symbols} {m' : Nat} (ha : a.Valid t) (hroom : n + a.labels < cgLabelMax)
    (hloops : a.tokens.length < loops) (hroom' : m < cgLabelMax)
    (hstmt : Moves stmt ⟨body, t, n + a.labels + 1, ls⟩ () calls ⟨Stream'.cons .elseTok more, t', m, ls⟩)
    (hstmt' : Moves stmt ⟨more, t', m + 1, ls⟩ () calls' ⟨rest, t'', m', ls⟩) :
    Moves (parseIf (parseExpr loops) stmt)
      ⟨Stream'.cons .lparen (a.tokens ++ₛ Stream'.cons .rparen body), t, n, ls⟩ ()
      (a.calls t n ++ ([CgCall.newLabel, .jumpZero (n + a.labels : Nat)] ++ (calls ++
        ([CgCall.newLabel, .jump m, .label (n + a.labels : Nat)] ++ (calls' ++ [CgCall.label m])))))
      ⟨rest, t'', m', ls⟩ := by
  have hact := Act.moves n ls body ha rparen_closes (Nat.le_of_lt hroom) hloops hloops
  refine .quiet .expect (hact.bind (.quiet .expect ?_))
  refine .emit (.cgNewLabel hroom) (.emit (.cg rfl) (hstmt.bind (.quiet .lexPeek ?_)))
  rw [if_pos rfl]
  refine .quiet .lexNext (.emit (.cgNewLabel hroom') (.emit (.cg rfl) (.emit (.cg rfl) ?_)))
  exact hstmt'.bind (.cg rfl)

theorem moves_while (ha : a.Valid t) (hroom : n + 2 + a.labels ≤ cgLabelMax) (hloops : a.tokens.length < loops)
    (hdepth : ls.length < maxLoopDepth)
    (hstmt : Moves stmt ⟨body, t, n + 2 + a.labels, ls ++ [(((n + 1 : Nat) : Int), (n : Int))]⟩ () calls
      ⟨rest, t', m, ls ++ [(((n + 1 : Nat) : Int), (n : Int))]⟩) :
    Moves (parseWhile (parseExpr loops) stmt)
      ⟨Stream'.cons .lparen (a.tokens ++ₛ Stream'.cons .rparen body), t, n, ls⟩ ()
      ([CgCall.newLabel, .newLabel, .label n] ++ (a.calls t (n + 2) ++ ([CgCall.jumpZero (n + 1 : Nat)] ++
        (calls ++ [CgCall.jump n, .label (n + 1 : Nat)]))))
      ⟨rest, t', m, ls⟩ := by
  have hact := Act.moves (n + 2) (ls ++ [(((n + 1 : Nat) : Int), (n : Int))]) body ha
    rparen_closes hroom hloops hloops
  refine .emit (.cgNewLabel (by omega)) (.emit (.cgNewLabel (by omega)) (.quiet (.enterLoop _ _ hdepth) ?_))
  refine .emit (.cg rfl) (.quiet .expect (hact.bind (.quiet .expect (.emit (.cg rfl) ?_))))
  exact hstmt.bind (.emit (.cg rfl) (.emit (.cg rfl) .leaveLoop))

theorem moves_do (ha : a.Valid t') (hroom : m + a.labels ≤ cgLabelMax) (hroom' : n + 3 ≤ cgLabelMax)
    (hloops : a.tokens.length < loops) (hdepth : ls.length < maxLoopDepth)
    (hstmt : Moves stmt ⟨body, t, n + 3, ls ++ [(((n + 1 : Nat) : Int), ((n + 2 : Nat) : Int))]⟩ () calls
      ⟨Stream'.cons .whileTok (Stream'.cons .lparen (a.tokens ++ₛ Stream'.cons .rparen (Stream'.cons .semi rest))),
        t', m, ls ++ [(((n + 1 : Nat) : Int), ((n + 2 : Nat) : Int))]⟩) :
    Moves (parseDoWhile (parseExpr loops) stmt) ⟨body, t, n, ls⟩ ()
      ([CgCall.newLabel, .newLabel, .newLabel, .label n] ++ (calls ++ ([CgCall.label (n + 2 : Nat)] ++
        (a.calls t' m ++ [CgCall.jumpNonzero n, .label (n + 1 : Nat)]))))
      ⟨rest, t', m + a.labels, ls⟩ := by
  have hact := Act.moves m (ls ++ [(((n + 1 : Nat) : Int), ((n + 2 : Nat) : Int))]) (Stream'.cons .semi rest)
    ha rparen_closes hroom hloops hloops
  refine .emit (.cgNewLabel (by omega)) (.emit (.cgNewLabel (by omega)) (.emit (.cgNewLabel (by omega)) ?_))
  refine .quiet (.enterLoop _ _ hdepth) (.emit (.cg rfl) (hstmt.bind (.emit (.cg rfl) ?_)))
  refine .quiet .expect (.quiet .expect (hact.bind (.quiet .expect (.quiet .expect ?_))))
  exact .emit (.cg rfl) (.emit (.cg rfl) .leaveLoop)

theorem moves_for {init cond step : Option Act} {top start : Nat} (hinit : OptValid t init) (hcond : OptValid t cond)
    (hstep : OptValid t step) (htop : top = n + optLabels init) (hstart : start = top + 3 + optLabels cond)
    (hroom : start + 1 + optLabels step ≤ cgLabelMax) (hloops : (optTokens init).length < loops)
    (hloops' : (optTokens cond).length < loops) (hloops'' : (optTokens step).length < loops)
    (hdepth : ls.length < maxLoopDepth)
    (hstmt : Moves stmt ⟨body, t, start + 1 + optLabels step,
      ls ++ [(((top + 1 : Nat) : Int), ((top + 2 : Nat) : Int))]⟩ () calls
      ⟨rest, t', m, ls ++ [(((top + 1 : Nat) : Int), ((top + 2 : Nat) : Int))]⟩) :
    Moves (parseFor (parseExpr loops) stmt)
      ⟨Stream'.cons .lparen (optTokens init ++ₛ Stream'.cons .semi (optTokens cond ++ₛ Stream'.cons .semi
        (optTokens step ++ₛ Stream'.cons .rparen body))), t, n, ls⟩ ()
      (optCalls t n init ++ ([CgCall.newLabel, .newLabel, .newLabel, .label top] ++
        (cond.elim [CgCall.loadNum 1] (Act.calls t (top + 3)) ++
          ([CgCall.jumpZero (top + 1 : Nat), .newLabel, .jump start, .label (top + 2 : Nat)] ++
            (optCalls t (start + 1) step ++ ([CgCall.jump top, .label start] ++
              (calls ++ [CgCall.jump (top + 2 : Nat), .label (top + 1 : Nat)])))))))
      ⟨rest, t', m, ls⟩ := by
  refine .quiet .expect (moves_optional hinit semi_closes rfl (by omega) hloops ?_)
  rw [← htop]
  refine .quiet .expect (.emit (.cgNewLabel (by omega)) (.emit (.cgNewLabel (by omega)) ?_))
  refine .emit (.cgNewLabel (by omega)) (.quiet (.enterLoop _ _ hdepth) (.emit (.cg rfl) ?_))
  refine moves_orElse hcond semi_closes rfl (by omega) hloops' (.cg rfl) ?_
  refine .quiet .expect (.emit (.cg rfl) (.emit (.cgNewLabel (by omega)) ?_))
  rw [← hstart]
  refine .emit (.cg rfl) (.emit (.cg rfl) ?_)
  refine moves_optional hstep rparen_closes rfl (by omega) hloops'' ?_
  refine .quiet .expect (.emit (.cg rfl) (.emit (.cg rfl) (hstmt.bind ?_)))
  exact .emit (.cg rfl) (.emit (.cg rfl) .leaveLoop)

theorem moves_return {a : Option Act} (ha : OptValid t a) (hroom : n + optLabels a ≤ cgLabelMax)
    (hloops : (optTokens a).length < loops) :
    Moves (parseReturn (parseExpr loops)) ⟨optTokens a ++ₛ Stream'.cons .semi rest, t, n, ls⟩ ()
      (optCalls t n a ++ [.ret]) ⟨rest, t, n + optLabels a, ls⟩ :=
  moves_optional ha semi_closes rfl hroom hloops (.quiet .expect (.cg rfl))

/-- `break` and `continue`. -/
theorem moves_loopJump {labels : Compiler → Nat → Int} {msg : String} {b : Int} {jump : Tok}
    (hlabels : ∀ s : Compiler, s.loops = ls → 0 < s.loopDepth ∧ labels s (s.loopDepth - 1) = b) :
    Moves (parseLoopJump labels msg) ⟨Stream'.cons jump (Stream'.cons .semi rest), t, n, ls⟩ () [.jump b]
      ⟨rest, t, n, ls⟩ := by
  refine .quiet .lexNext (.quiet .expect (.get fun s _ hx => ?_))
  obtain ⟨hdepth, hlabel⟩ := hlabels s (congrArg Spot.loops hx)
  rw [if_pos hdepth, hlabel]
  split
  · exact .quiet (fun s herr hx => ⟨s, [.outside _], rfl, rfl, rfl, herr, hx⟩) (.cg rfl)
  · exact .cg rfl

/-- The type of a declaration. -/
theorem moves_int {x : List UInt8} :
    Moves parseType ⟨Stream'.cons .int (Stream'.cons (.ident x) rest), t, n, ls⟩ .int []
      ⟨Stream'.cons (.ident x) rest, t, n, ls⟩ := .quiet .lexNext (.quiet .lexPeek (.pure _ _))

/-- An expression as a statement. -/
theorem moves_act {fuel : Nat} (ha : a.Valid t) (hroom : n + a.labels ≤ cgLabelMax) (hloops : a.tokens.length < loops) :
    Moves (parseStatementBody (parseExpr loops) stmt fuel) ⟨a.tokens ++ₛ Stream'.cons .semi rest, t, n, ls⟩ ()
      (a.calls t n) ⟨rest, t, n + a.labels, ls⟩ := by
  have hact := Act.moves n ls rest ha semi_closes hroom hloops hloops
  obtain ⟨first, more, htokens, hfirst⟩ := a.begins_tokens
  rw [htokens, Stream'.cons_append_stream] at hact ⊢
  have hexpr : Moves (do parseExpr loops; expect .semi)
    ⟨Stream'.cons first (more ++ₛ Stream'.cons .semi rest), t, n, ls⟩ ()
      (a.calls t n) ⟨rest, t, n + a.labels, ls⟩ := by
    rw [← List.append_nil (a.calls t n)]
    exact hact.bind .expect
  refine .quiet .lexPeek ?_
  cases first with
  | numLit | ident | lparen | minus | bang | tilde => exact hexpr
  | _ => cases hfirst

end Statements

/-! ### Every statement -/

/-- A statement that is reached with no error. -/
theorem moves_statement {loops fuel : Nat} {x z : Spot} {calls : List CgCall}
    (h : Moves (parseStatementBody (parseExpr loops) (parseStatement loops fuel) loops) x () calls z) :
    Moves (parseStatement loops (fuel + 1)) x () calls z :=
  .get fun s herr _ => by
    rw [if_pos herr]
    exact h

/-- What no statement begins with. -/
theorem Stmt.head_tokens (st : Stmt) :
    ∃ first more, st.tokens = first :: more ∧ first ≠ .elseTok ∧ first ≠ .rbrace ∧ first ≠ .eof := by
  cases st with
  | act a =>
    obtain ⟨first, more, htokens, hfirst⟩ := a.begins_tokens
    refine ⟨first, more ++ [.semi], by rw [tokens, htokens, List.cons_append], ?_⟩
    cases first with
    | numLit | ident | lparen | minus | bang | tilde => exact ⟨nofun, nofun, nofun⟩
    | _ => cases hfirst
  | _ => exact ⟨_, _, rfl, nofun, nofun, nofun⟩

/-- What is ahead in a block. -/
theorem Block.ahead_tokens (bl : Block) (rest : Stream' Tok) :
    ∃ first more, bl.tokens ++ₛ Stream'.cons .rbrace rest = Stream'.cons first more ∧ first ≠ .elseTok := by
  cases bl with
  | nil => exact ⟨_, _, rfl, nofun⟩
  | cons st bl =>
    obtain ⟨first, more, htokens, hfirst, -⟩ := st.head_tokens
    refine ⟨first, more ++ₛ (bl.tokens ++ₛ Stream'.cons .rbrace rest), ?_, hfirst⟩
    rw [tokens, htokens, List.cons_append, Stream'.cons_append_stream, Stream'.append_append_stream]

/-- The labels of the innermost of the loops around. -/
def Innermost (ls : List (Int × Int)) (b k : Int) : Prop := ∀ p ∈ ls.getLast?, p = (b, k)

theorem innermost_concat (ls : List (Int × Int)) (b k : Int) : Innermost (ls ++ [(b, k)]) b k := by
  rintro p hp
  rw [List.getLast?_concat] at hp
  exact (Option.some.inj hp).symm

/-- A jump in a loop goes to a label of the innermost one. -/
theorem Innermost.labels {ls : List (Int × Int)} {b k : Int} (h : Innermost ls b k)
    (hpos : 0 < ls.length) {s : Compiler}
    (hs : s.loops = ls) :
    0 < s.loopDepth ∧ s.breakLabels (s.loopDepth - 1) = b ∧ s.continueLabels (s.loopDepth - 1) = k := by
  rcases ls.eq_nil_or_concat with rfl | ⟨ls', p, rfl⟩
  · exact absurd hpos (Nat.lt_irrefl 0)
  · rw [List.concat_eq_append] at h hs
    obtain rfl := h p List.getLast?_concat
    obtain ⟨hdepth, hbreak, hcontinue⟩ := Compiler.loops_last hs
    rw [hdepth]
    exact ⟨Nat.succ_pos _, hbreak, hcontinue⟩

/-- The declarators of a declaration are fewer and shorter than its tokens. -/
theorem declarators_length (ds : List Declarator) :
    ds.length ≤ (ds.flatMap fun d => Tok.comma :: d.tokens).length ∧
      ∀ d ∈ ds, d.tokens.length < (ds.flatMap fun d => Tok.comma :: d.tokens).length := by
  induction ds with
  | nil => exact ⟨Nat.le_refl 0, nofun⟩
  | cons d ds ih =>
    obtain ⟨hcount, hshort⟩ := ih
    rw [List.flatMap_cons, List.length_append, List.length_cons, List.length_cons]
    refine ⟨by omega, List.forall_mem_cons.mpr ⟨by omega, fun d' hd' => ?_⟩⟩
    have hless := hshort d' hd'
    omega

mutual

/-- A statement is read to its end, with the calls of its code. -/
theorem moves_stmt (st : Stmt) (n : Nat) (tok : Tok) (rest : Stream' Tok) {t : Symbols} {loops fuel : Nat}
    {ls : List (Int × Int)} {b k : Int} (hvalid : st.Valid t ls.length) (hjump : Innermost ls b k)
    (htok : st.dangles = true → tok ≠ .elseTok) (hroom : n + st.labels ≤ cgLabelMax)
    (hfuel : st.tokens.length < fuel) (hloops : st.tokens.length < loops) :
    Moves (parseStatement loops fuel) ⟨st.tokens ++ₛ Stream'.cons tok rest, t, n, ls⟩ () (st.calls t n b k)
      ⟨Stream'.cons tok rest, st.table t, n + st.labels, ls⟩ := by
  obtain ⟨f, rfl⟩ := Nat.exists_eq_add_of_le' (Nat.zero_lt_of_lt hfuel)
  apply moves_statement
  cases st with
  | empty => exact .quiet .lexPeek (.quiet .lexNext (.pure _ ()))
  | act a =>
    simp only [Stmt.tokens, List.length_append, List.length_singleton] at hloops
    rw [Stmt.tokens, Stream'.append_append_stream]
    exact moves_act hvalid hroom (by omega)
  | decl d ds =>
    obtain ⟨hcount, hshort⟩ := declarators_length ds
    simp only [Stmt.tokens, List.cons_append, List.length_append, List.length_cons, List.length_nil] at hloops
    have hall : ∀ d' ∈ d :: ds, d'.tokens.length < loops := by
      refine List.forall_mem_cons.mpr ⟨by omega, fun d' hd' => ?_⟩
      have hless := hshort d' hd'
      omega
    have hdecl := moves_decl (n := n) ls (Stream'.cons tok rest) hvalid hroom
      (show ds.length < loops by omega) hall
    rw [Declarator.tokens, Stream'.cons_append_stream] at hdecl
    simp only [Stmt.tokens, Declarator.tokens, Stream'.append_append_stream, Stream'.cons_append_stream]
    have hbody : Moves (do parseLocalDecl (parseExpr loops) (← parseType) loops) _ () _ _ := .quiet moves_int hdecl
    exact .quiet .lexPeek hbody
  | block bl =>
    simp only [Stmt.tokens, List.length_append, List.length_cons, List.length_nil] at hfuel hloops
    rw [Stmt.tokens, Stream'.append_append_stream, Stream'.cons_append_stream]
    refine .quiet .lexPeek (.quiet .expect ?_)
    have hblock := moves_block bl n (Stream'.cons tok rest) hvalid hjump hroom (show _ < f by omega)
      (show _ < loops by omega) (show _ < loops by omega)
    exact (hblock.bind .expect).of_calls (List.append_nil _)
  | ifThen a st =>
    obtain ⟨ha, hst⟩ := hvalid
    simp only [Stmt.tokens, List.length_append, List.length_cons] at hfuel hloops
    simp only [Stmt.labels] at hroom
    have hbody := moves_stmt st (n + a.labels + 1) tok rest hst hjump (fun _ => htok rfl) (by omega)
      (show _ < f by omega) (show _ < loops by omega)
    simp only [Stmt.tokens, Stream'.append_append_stream, Stream'.cons_append_stream]
    refine .quiet .lexPeek (.quiet .lexNext ((moves_ifThen ha (by omega) (by omega) (htok rfl) hbody).of_eq ?_))
    simp only [Stmt.labels, Nat.add_assoc]
    rfl
  | ifElse a st₁ st₂ =>
    obtain ⟨ha, hdangles, hst₁, hst₂⟩ := hvalid
    simp only [Stmt.tokens, List.length_append, List.length_cons] at hfuel hloops
    simp only [Stmt.labels] at hroom
    have hfirst := moves_stmt st₁ (n + a.labels + 1) .elseTok (st₂.tokens ++ₛ Stream'.cons tok rest)
      hst₁ hjump (fun h => absurd h (by rw [hdangles]; exact Bool.false_ne_true)) (by omega) (show _ < f by omega)
      (show _ < loops by omega)
    have hsecond := moves_stmt st₂ (n + a.labels + 1 + st₁.labels + 1) tok rest hst₂ hjump htok (by omega)
      (show _ < f by omega) (show _ < loops by omega)
    simp only [Stmt.tokens, Stream'.append_append_stream, Stream'.cons_append_stream]
    refine .quiet .lexPeek (.quiet .lexNext ?_)
    refine (moves_ifElse ha (by omega) (by omega) (by omega) hfirst hsecond).of_eq ?_
    simp only [Stmt.labels, Nat.add_assoc]
    rfl
  | whileLoop a st =>
    obtain ⟨hdepth, ha, hst⟩ := hvalid
    simp only [Stmt.tokens, List.length_append, List.length_cons] at hfuel hloops
    simp only [Stmt.labels] at hroom
    have hbody := moves_stmt st (n + 2 + a.labels) tok rest (by rw [List.length_append]; exact hst)
      (innermost_concat ls ((n + 1 : Nat) : Int) (n : Int)) htok (by omega) (show _ < f by omega)
        (show _ < loops by omega)
    simp only [Stmt.tokens, Stream'.append_append_stream, Stream'.cons_append_stream]
    refine .quiet .lexPeek (.quiet .lexNext ((moves_while ha (by omega) (by omega) hdepth hbody).of_eq ?_))
    simp only [Stmt.labels, Nat.add_assoc]
    rfl
  | doLoop st a =>
    obtain ⟨hdepth, hst, ha⟩ := hvalid
    simp only [Stmt.tokens, List.length_append, List.length_cons] at hfuel hloops
    simp only [Stmt.labels] at hroom
    have hbody := moves_stmt st (n + 3) .whileTok
      (Stream'.cons .lparen (a.tokens ++ₛ Stream'.cons .rparen (Stream'.cons .semi (Stream'.cons tok rest))))
      (by rw [List.length_append]; exact hst) (innermost_concat ls ((n + 1 : Nat) : Int) ((n + 2 : Nat) : Int))
      (fun _ => nofun) (by omega) (show _ < f by omega) (show _ < loops by omega)
    simp only [Stmt.tokens, Stream'.append_append_stream, Stream'.cons_append_stream, Stream'.nil_append_stream]
    refine .quiet .lexPeek (.quiet .lexNext ?_)
    refine (moves_do ha (by omega) (by omega) (by omega) hdepth hbody).of_eq ?_
    simp only [Stmt.labels, Nat.add_assoc]
    rfl
  | forLoop init cond step st =>
    obtain ⟨hdepth, hinit, hcond, hstep, hst⟩ := hvalid
    simp only [Stmt.tokens, List.length_append, List.length_cons] at hfuel hloops
    simp only [Stmt.labels] at hroom
    have hbody := moves_stmt st (n + optLabels init + 3 + optLabels cond + 1 + optLabels step) tok rest
      (by rw [List.length_append]; exact hst)
      (innermost_concat ls ((n + optLabels init + 1 : Nat) : Int) ((n + optLabels init + 2 : Nat) : Int))
      htok (by omega) (show _ < f by omega) (show _ < loops by omega)
    simp only [Stmt.tokens, Stream'.append_append_stream, Stream'.cons_append_stream]
    refine .quiet .lexPeek (.quiet .lexNext ?_)
    refine (moves_for hinit hcond hstep rfl rfl (by omega) (by omega) (by omega) (by omega) hdepth hbody).of_eq ?_
    simp only [Stmt.labels, Nat.add_assoc]
    rfl
  | breakStmt =>
    refine .quiet .lexPeek (moves_loopJump fun s hs => ?_)
    obtain ⟨hpos, hbreak, -⟩ := hjump.labels hvalid hs
    exact ⟨hpos, hbreak⟩
  | continueStmt =>
    refine .quiet .lexPeek (moves_loopJump fun s hs => ?_)
    obtain ⟨hpos, -, hcontinue⟩ := hjump.labels hvalid hs
    exact ⟨hpos, hcontinue⟩
  | returnStmt a =>
    simp only [Stmt.tokens, List.length_append, List.length_cons] at hloops
    simp only [Stmt.tokens, Stream'.append_append_stream, Stream'.cons_append_stream, List.cons_append]
    exact .quiet .lexPeek (.quiet .lexNext (moves_return hvalid hroom (by omega)))

theorem moves_block (bl : Block) (n : Nat) (rest : Stream' Tok) {t : Symbols} {loops fuel fuel' : Nat}
    {ls : List (Int × Int)} {b k : Int} (hvalid : bl.Valid t ls.length) (hjump : Innermost ls b k)
    (hroom : n + bl.labels ≤ cgLabelMax) (hfuel : bl.tokens.length < fuel) (hfuel' : bl.tokens.length < fuel')
    (hloops : bl.tokens.length < loops) :
    Moves (parseStatements (parseStatement loops fuel) fuel') ⟨bl.tokens ++ₛ Stream'.cons .rbrace rest, t, n, ls⟩ ()
      (bl.calls t n b k) ⟨Stream'.cons .rbrace rest, bl.table t, n + bl.labels, ls⟩ := by
  obtain ⟨f, rfl⟩ := Nat.exists_eq_add_of_le' (Nat.zero_lt_of_lt hfuel')
  cases bl with
  | nil => exact .quiet .lexPeek (.get fun s herr _ => by rw [if_neg (fun h => h.1 rfl)]; exact .pure _ ())
  | cons st bl =>
    obtain ⟨hst, hbl⟩ := hvalid
    simp only [Block.tokens, List.length_append] at hfuel hfuel' hloops
    simp only [Block.labels] at hroom
    obtain ⟨first, more, hfirst, -, hbrace, heof⟩ := st.head_tokens
    obtain ⟨next, ahead, hnext, helse⟩ := bl.ahead_tokens rest
    have hlen : 0 < st.tokens.length := by rw [hfirst]; exact Nat.succ_pos _
    have hstmt := moves_stmt st n next ahead hst hjump (fun _ => helse) (by omega)
      (show _ < fuel by omega) (show _ < loops by omega)
    have hblock := moves_block bl (n + st.labels) rest hbl hjump (by omega) (show _ < fuel by omega)
      (show _ < f by omega) (show _ < loops by omega)
    rw [Block.tokens, Stream'.append_append_stream, hnext]
    rw [hnext] at hblock
    rw [hfirst, Stream'.cons_append_stream] at hstmt ⊢
    refine .quiet .lexPeek (.get fun s herr _ => ?_)
    rw [if_pos ⟨hbrace, heof, herr⟩]
    refine hstmt.bind (hblock.of_eq ?_)
    rw [Block.labels, Nat.add_assoc]
    rfl

end

end RainbowOs.Cc
