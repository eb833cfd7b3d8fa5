import RainbowOs.Cc.Statements

/-!
# Reading functions

A function of `int` parameters: its tokens after the opening parenthesis, the
symbol table that its body begins with, and the calls that `parse_function`
makes for it. Parameters are above the frame pointer and locals below it, in
the order of their declarations.
-/

namespace RainbowOs.Cc

open RainbowOs.Lib

/-- A function of `int` parameters. -/
structure Function where
  params : List (List UInt8)
  body : Block

/-- The parameters, with their types. -/
def paramTokens : List (List UInt8) → List Tok
  | [] => []
  | [x] => [.int, .ident x]
  | x :: y :: xs => .int :: .ident x :: .comma :: paramTokens (y :: xs)

/-- The symbol table with one more parameter. -/
def Symbols.param (t : Symbols) (x : List UInt8) : Symbols := (t.addLocal x .param .int).2

/-- The symbol of a function, in a table that has it. -/
def Symbols.function (t : Symbols) (name : List UInt8) (dt : DataType) : SymRef × Symbols :=
  if t.findGlobal name = .null then t.addGlobal name .function dt else (t.findGlobal name, t)

namespace Function

variable (f : Function)

/-- The tokens after the opening parenthesis. -/
def tokens : List Tok := paramTokens f.params ++ .rparen :: .lbrace :: f.body.tokens ++ [.rbrace]

/-- The table after the parameters. -/
def scope (name : List UInt8) (dt : DataType) (t : Symbols) : Symbols :=
  f.params.foldl Symbols.param
    (((t.function name dt).2.modify (fun s => { s with defined := true }) (t.function name dt).1).beginLocals)

/-- The table that the body begins with, where the code of the function is at `pos`. -/
def table (name : List UInt8) (dt : DataType) (t : Symbols) (pos : Int) : Symbols :=
  (f.scope name dt t).modify (fun s => { s with offset := pos }) (t.function name dt).1

/-- The calls for the function, where the next label is `n`. -/
def calls (name : List UInt8) (dt : DataType) (t : Symbols) (pos : Int) (n : Nat) : List CgCall :=
  .funcBegin (t.function name dt).1 :: (f.body.calls (f.table name dt t pos) (n + 1) 0 0 ++ [.funcEnd])

/-- The names of the parameters are new, and the body can be compiled. -/
structure Valid (name : List UInt8) (dt : DataType) (t : Symbols) (pos : Int) : Prop where
  names : ∀ x ∈ f.params, x.length ≤ symNameMax
  nodup : f.params.Nodup
  room : f.params.length ≤ symMaxLocal
  body : f.body.Valid (f.table name dt t pos) 0

end Function

/-! ## Reading -/

section Reading

variable {t : Symbols} {n : Nat} {ls : List (Int × Int)} {rest ahead : Stream' Tok}

namespace Moves

theorem modify_syms (g : Symbols → Symbols) : Moves (Prog.modify fun s => { s with syms := g s.syms })
    ⟨ahead, t, n, ls⟩ () [] ⟨ahead, g t, n, ls⟩ := by
  intro s herr hx
  obtain ⟨rfl, rfl, rfl, rfl⟩ := Spot.mk.inj hx
  exact ⟨{ s with syms := g s.syms }, [], rfl, rfl, rfl, herr, rfl⟩

theorem setSym (r : SymRef) (g : Symbol → Symbol) :
    Moves (setSym r g) ⟨ahead, t, n, ls⟩ () [] ⟨ahead, t.modify g r, n, ls⟩ := modify_syms fun t => t.modify g r

theorem symParam (x : List UInt8) : Moves (RainbowOs.Cc.symAddLocal x .param .int) ⟨ahead, t, n, ls⟩
    (t.addLocal x .param .int).1 [] ⟨ahead, t.param x, n, ls⟩ := by
  intro s herr hx
  obtain ⟨rfl, rfl, rfl, rfl⟩ := Spot.mk.inj hx
  exact ⟨{ s with syms := s.syms.param x }, _, rfl, callsOf_declare _ [], rfl, herr, rfl⟩

theorem symFindGlobal (name : List UInt8) :
    Moves (symFindGlobal name) ⟨ahead, t, n, ls⟩ (t.findGlobal name) [] ⟨ahead, t, n, ls⟩ := by
  intro s herr hx
  obtain ⟨rfl, rfl, rfl, rfl⟩ := Spot.mk.inj hx
  exact ⟨s, [], rfl, rfl, rfl, herr, rfl⟩

theorem symAddGlobal (name : List UInt8) (kind : SymKind) (dt : DataType) :
    Moves (symAddGlobal name kind dt) ⟨ahead, t, n, ls⟩ (t.addGlobal name kind dt).1 []
      ⟨ahead, (t.addGlobal name kind dt).2, n, ls⟩ := by
  intro s herr hx
  obtain ⟨rfl, rfl, rfl, rfl⟩ := Spot.mk.inj hx
  exact ⟨{ s with syms := (s.syms.addGlobal name kind dt).2 }, _, rfl, callsOf_declare _ [], rfl, herr, rfl⟩

theorem symKept (name : List UInt8) (found : SymRef) :
    Moves (symKept name found) ⟨ahead, t, n, ls⟩ found [] ⟨ahead, t, n, ls⟩ :=
  fun s herr hx => ⟨s, _, rfl, callsOf_declare _ [], rfl, herr, hx⟩

end Moves

/-- Parameters begin with a type, and are fewer than their tokens. -/
theorem paramTokens_cons (x : List UInt8) (xs : List (List UInt8)) :
    ∃ more, paramTokens (x :: xs) = .int :: more ∧ xs.length < more.length := by
  induction xs generalizing x with
  | nil => exact ⟨_, rfl, Nat.one_pos⟩
  | cons y xs ih =>
    obtain ⟨more, htokens, hcount⟩ := ih y
    refine ⟨_, rfl, ?_⟩
    rw [htokens]
    simp only [List.length_cons]
    omega

/-- Parameters, up to the closing parenthesis. -/
theorem moves_params (x : List UInt8) (xs : List (List UInt8)) {fuel : Nat} (hfuel : xs.length < fuel) :
    Moves (parseParams fuel) ⟨paramTokens (x :: xs) ++ₛ Stream'.cons .rparen rest, t, n, ls⟩ () []
      ⟨Stream'.cons .rparen rest, (x :: xs).foldl Symbols.param t, n, ls⟩ := by
  induction xs generalizing x t fuel with
  | nil =>
    obtain ⟨f, rfl⟩ := Nat.exists_eq_add_of_le' hfuel
    exact .quiet moves_int (.quiet .lexPeek (.quiet .lexNext (.quiet (.symParam x) (.quiet .lexPeek (.pure _ ())))))
  | cons y xs ih =>
    rw [List.length_cons] at hfuel
    obtain ⟨f, rfl⟩ := Nat.exists_eq_add_of_le' (Nat.zero_lt_of_lt hfuel)
    have hrest := ih y (t := t.param x) (show xs.length < f by omega)
    refine .quiet moves_int (.quiet .lexPeek (.quiet .lexNext (.quiet (.symParam x) (.quiet .lexPeek ?_))))
    rw [if_pos rfl]
    exact .quiet .lexNext hrest

/-- What a run from a known state of the code generator does: the address of a function is in the table. -/
def MovesFrom {α : Type} (c : Codegen) (p : Parse α) (x : Spot) (a : α) (calls : List CgCall) (y : Spot) : Prop :=
  ∀ ⦃s : Compiler⦄, s.hadError = none → s.spot = x → s.cg = c → ∃ s' log, p s = ⟨.done a, s', log⟩ ∧
    callsOf log = calls ∧ s'.cg = runCalls calls c ∧ s'.hadError = none ∧ s'.spot = y

namespace MovesFrom

variable {α β : Type} {c : Codegen} {p : Parse α} {f : α → Parse β} {x y z : Spot} {a : α} {b : β}
  {calls : List CgCall}

/-- A part that makes no calls, and the rest. -/
theorem quiet (h : Moves p x a [] y) (h' : MovesFrom c (f a) y b calls z) : MovesFrom c (p >>= f) x b calls z := by
  intro s herr hx hc
  obtain ⟨s₁, log, hp, hcalls, hcg, herr₁, hy⟩ := h herr hx
  obtain ⟨s₂, log', hf, hcalls', hcg', herr₂, hz⟩ := h' herr₁ hy (hcg.trans hc)
  refine ⟨s₂, log ++ log', ?_, ?_, hcg', herr₂, hz⟩
  · rw [Prog.bind_run_prepend hp, hf]
    rfl
  · rw [callsOf_append, hcalls, hcalls', List.nil_append]

/-- The symbol of the function, and the rest. -/
theorem function {name : List UInt8} {dt : DataType} {f : SymRef → Parse β}
    (h : MovesFrom c (f (t.function name dt).1) ⟨ahead, (t.function name dt).2, n, ls⟩ b calls z) :
    MovesFrom c (if t.findGlobal name = .null then symAddGlobal name .function dt >>= f
      else symKept name (t.findGlobal name) >>= f) ⟨ahead, t, n, ls⟩ b calls z := by
  by_cases hnew : t.findGlobal name = .null
  · rw [Symbols.function, if_pos hnew] at h
    rw [if_pos hnew]
    exact quiet (.symAddGlobal name .function dt) h
  · rw [Symbols.function, if_neg hnew] at h
    rw [if_neg hnew]
    exact quiet (.symKept name _) h

/-- The beginning of a function, and the rest. -/
theorem funcBegin {f : Unit → Parse β} {fn : SymRef} (hroom : n < cgLabelMax)
    (h : Moves (f ()) ⟨ahead, t.modify (fun s => { s with offset := c.codePos }) fn, n + 1, ls⟩ b calls z) :
    MovesFrom c (cgFuncBegin fn >>= f) ⟨ahead, t, n, ls⟩ b (.funcBegin fn :: calls) z := by
  intro s herr hx hc
  obtain ⟨hahead, hsyms, hlabels, hloops⟩ := Spot.mk.inj hx
  have hbegin : cgFuncBegin fn s = ⟨.done (), { s with
      syms := s.syms.modify (fun g => { g with offset := s.cg.codePos }) fn
      cg := (CgCall.funcBegin fn).run s.cg }, [.emit (.funcBegin fn)]⟩ := rfl
  generalize hs₁ : ({ s with
      syms := s.syms.modify (fun g => { g with offset := s.cg.codePos }) fn
      cg := (CgCall.funcBegin fn).run s.cg } : Compiler) = s₁ at hbegin
  have herr₁ : s₁.hadError = none := by rw [← hs₁, herr]
  have hcg₁ : s₁.cg = (CgCall.funcBegin fn).run c := by rw [← hs₁, hc]
  have hahead₁ : s₁.lex.stream = ahead := by rw [← hs₁, hahead]
  have hsyms₁ : s₁.syms = t.modify (fun g => { g with offset := c.codePos }) fn := by rw [← hs₁, hsyms, hc]
  have hloops₁ : s₁.loops = ls := by
    rw [← hs₁]
    exact hloops
  have hlabels₁ : s₁.cg.numLabels = n + 1 := by
    rw [hcg₁, numLabels_run _ (by rw [← hc, hlabels]; exact hroom), ← hc, hlabels]
    rfl
  have hspot : s₁.spot = ⟨ahead, t.modify (fun s => { s with offset := c.codePos }) fn, n + 1, ls⟩ := by
    rw [Compiler.spot, hahead₁, hsyms₁, hlabels₁, hloops₁]
  obtain ⟨s₂, log, hf, hcalls, hcg, herr₂, hz⟩ := h herr₁ hspot
  refine ⟨s₂, [.emit (.funcBegin fn)] ++ log, ?_, ?_, ?_, herr₂, hz⟩
  · rw [Prog.bind_run_prepend hbegin, hf]
    rfl
  · rw [callsOf_append, hcalls]
    rfl
  · rw [hcg, hcg₁, runCalls_cons]

end MovesFrom

/-- A function is read to its end, with the calls of its code. -/
theorem moves_function {f : Function} {name : List UInt8} {dt : DataType} {c : Codegen} {fuel : Nat}
    (hvalid : f.Valid name dt t c.codePos) (hroom : n + (1 + f.body.labels) ≤ cgLabelMax)
    (hfuel : f.tokens.length < fuel) :
    MovesFrom c (parseFunction fuel name dt) ⟨f.tokens ++ₛ rest, t, n, []⟩ () (f.calls name dt t c.codePos n)
      ⟨rest, f.body.table (f.table name dt t c.codePos), n + (1 + f.body.labels), []⟩ := by
  have hlen : f.body.tokens.length < fuel := by
    simp only [Function.tokens, List.length_append, List.length_cons] at hfuel
    omega
  have hbody : Moves (do parseBlock (parseStatement fuel fuel) fuel; cg .funcEnd)
      ⟨Stream'.cons .lbrace (f.body.tokens ++ₛ Stream'.cons .rbrace rest), f.table name dt t c.codePos, n + 1, []⟩ ()
      (f.body.calls (f.table name dt t c.codePos) (n + 1) 0 0 ++ [.funcEnd])
      ⟨rest, f.body.table (f.table name dt t c.codePos), n + (1 + f.body.labels), []⟩ := by
    have hjump : Innermost [] 0 0 := fun p hp => absurd hp (Option.not_mem_none p)
    have hblock := moves_block f.body (n + 1) rest hvalid.body hjump (by omega) hlen hlen hlen
    have hclosed : Moves (parseBlock (parseStatement fuel fuel) fuel) _ () _ _ :=
      .quiet .expect ((hblock.bind .expect).of_calls (List.append_nil _))
    rw [← Nat.add_assoc]
    exact hclosed.bind (.cg rfl)
  have hrest : MovesFrom c (do
      expect .rparen
      cgFuncBegin (t.function name dt).1
      parseBlock (parseStatement fuel fuel) fuel
      cg .funcEnd)
      ⟨Stream'.cons .rparen (Stream'.cons .lbrace (f.body.tokens ++ₛ Stream'.cons .rbrace rest)), f.scope name dt t, n,
        []⟩ () (f.calls name dt t c.codePos n)
      ⟨rest, f.body.table (f.table name dt t c.codePos), n + (1 + f.body.labels), []⟩ :=
    .quiet .expect (.funcBegin (by omega) hbody)
  rw [Function.scope] at hrest
  refine .quiet (.symFindGlobal name) (.function (.quiet (.setSym _ _) (.quiet (.modify_syms _) ?_)))
  simp only [Function.tokens, List.append_assoc, List.cons_append, Stream'.append_append_stream,
    Stream'.cons_append_stream, Stream'.nil_append_stream]
  cases hparams : f.params with
  | nil =>
    rw [hparams] at hrest
    refine .quiet .lexPeek ?_
    rw [if_neg (not_not_intro rfl)]
    exact hrest
  | cons x xs =>
    rw [hparams] at hrest
    obtain ⟨more, htokens, hcount⟩ := paramTokens_cons x xs
    have hparamLen : xs.length < fuel := by
      simp only [Function.tokens, hparams, htokens, List.length_append, List.length_cons] at hfuel
      omega
    rw [htokens, Stream'.cons_append_stream]
    refine .quiet .lexPeek ?_
    rw [if_pos nofun, ← Stream'.cons_append_stream, ← htokens]
    exact .quiet (moves_params x xs hparamLen) hrest

end Reading

end RainbowOs.Cc
