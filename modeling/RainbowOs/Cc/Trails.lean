import RainbowOs.Cc.Laws

/-!
# Trails that most calls leave alone

Few trails care about every production of the grammar. `PlainLaw` is what a
trail owes the calls that place no label, begin or end no function and name
no string and no function; from it come the productions that make such calls
only. `SymbolLaw` is for a trail that minds no change of the symbol tables,
`FreeLaw` for one that minds no call of the code generator.
-/

namespace RainbowOs.Cc

open RainbowOs.Lib
open Prog (Obeys Composes)

/-- The calls that place no label, frame no function, and name no string and no function. -/
def CgCall.isPlain : CgCall → Bool
  | .label _ | .funcBegin _ | .funcEnd | .callSymbol _ | .addString _ | .allocGlobal _ => false
  | _ => true

/-- The call of a function that is no builtin: its symbol is found or made. -/
def callFunction (name : List UInt8) : Parse Unit := do
  let found ← symFindGlobal name
  let fn ← if found = .null then symAddGlobal name .function .int else pure found
  cg (.callSymbol fn)

/-! ## Stretches that read no token -/

theorem cg_quiet (call : CgCall) : Sat SameLex (cg call) := by
  intro s a s' l _ hrun
  cases hrun
  exact ⟨rfl, trivial⟩

theorem refer_quiet (r : SymRef) (use : Use) : Sat SameLex (refer r use) := by
  intro s a s' l _ hrun
  cases hrun
  exact ⟨rfl, trivial⟩

theorem symAt_quiet (r : SymRef) : Sat SameLex (symAt r) := by
  intro s a s' l _ hrun
  cases hrun
  exact ⟨rfl, trivial⟩

theorem symFind_quiet (x : List UInt8) : Sat SameLex (symFind x) := by
  intro s a s' l _ hrun
  cases hrun
  exact ⟨rfl, trivial⟩

theorem loadAddress_quiet (s : Symbol) : Sat SameLex (loadAddress s) := by
  unfold loadAddress
  split <;> exact cg_quiet _

/-- The call of a function, and what follows it. -/
theorem callFunction_bind (name : List UInt8) (k : Parse Unit) : (do
    let found ← symFindGlobal name
    let fn ← if found = .null then symAddGlobal name .function .int else pure found
    cg (.callSymbol fn)
    k) = callFunction name >>= fun _ => k := by
  rw [callFunction, Prog.bind_assoc]
  refine congrArg (symFindGlobal name >>= ·) (funext fun found => ?_)
  by_cases hfound : found = .null
  · simp only [if_pos hfound, Prog.bind_assoc]
  · simp only [if_neg hfound, Prog.bind_assoc]

/-- What a trail owes the plain calls and the references to variables. -/
structure PlainLaw (R : Trail) : Prop extends TokenLaw R where
  emit : ∀ call, CgCall.isPlain call = true → Sat R (cg call)
  refer : ∀ r use, Sat R (refer r use)
  outside : ∀ i, Sat R (Prog.tell (.outside i))

namespace PlainLaw

variable {R : Trail} (hR : PlainLaw R) {assign unary operand expr : Parse Unit}

include hR

theorem symAt {α : Type} {r : SymRef} {f : Symbol → Parse α} (hf : ∀ s, Sat R (f s)) :
    Sat R (symAt r >>= f) :=
  .seq hR.toTokenLaw (.read hR.toTokenLaw _) hf

theorem symFind {α : Type} {x : List UInt8} {f : SymRef → Parse α} (hf : ∀ r, Sat R (f r)) :
    Sat R (symFind x >>= f) :=
  .seq hR.toTokenLaw (.read hR.toTokenLaw _) hf

/-- The error of a name that is not declared, with or without the code for 0. -/
theorem undeclared : Sat R (do
    error "undeclared variable"
    cg (.loadNum 0)) := .seq hR.toTokenLaw (hR.report _) fun _ => hR.emit _ rfl

theorem loadAddress (s : Symbol) : Sat R (loadAddress s) := by
  unfold RainbowOs.Cc.loadAddress
  split <;> exact hR.emit _ rfl

theorem loadScalar (s : Symbol) : Sat R (loadScalar s) := by
  unfold RainbowOs.Cc.loadScalar
  split <;> exact hR.emit _ rfl

theorem storeScalar (s : Symbol) : Sat R (storeScalar s) := by
  unfold RainbowOs.Cc.storeScalar
  split <;> exact hR.emit _ rfl

theorem loadVariable (r : SymRef) (s : Symbol) : Sat R (loadVariable r s) := by
  unfold RainbowOs.Cc.loadVariable
  split
  · exact .seq hR.toTokenLaw (hR.refer _ _) fun _ => hR.loadAddress s
  · exact .seq hR.toTokenLaw (hR.refer _ _) fun _ => hR.loadScalar s

theorem scaleIndex (s : Symbol) : Sat R (scaleIndex s) := by
  unfold RainbowOs.Cc.scaleIndex
  split
  · exact hR.emit _ rfl
  · exact .pure hR.toTokenLaw _

theorem derefElement (s : Symbol) : Sat R (derefElement s) := by
  unfold RainbowOs.Cc.derefElement
  split <;> exact hR.emit _ rfl

theorem variable_ (x : List UInt8) : Sat R (do
    let r ← RainbowOs.Cc.symFind x
    if r = .null then
      error "undeclared variable"
      cg (.loadNum 0)
    else RainbowOs.Cc.loadVariable r (← RainbowOs.Cc.symAt r)) := by
  apply hR.symFind
  intro r
  split
  · exact hR.undeclared
  · exact hR.symAt fun s => hR.loadVariable r s

theorem named (x : List UInt8) : Sat R (loadNamed x) := by
  apply hR.symFind
  intro r
  split
  · exact hR.undeclared
  · apply hR.symAt
    intro s
    split
    · exact hR.emit _ rfl
    · exact hR.loadVariable r s

theorem addressOf : SatAt R .amp parseAddressOf := by
  have hT := hR.toTokenLaw
  apply SatAt.take hT (t := .amp) nofun
  apply Sat.peek hT
  intro t
  split
  · next str =>
    apply SatAt.take hT (t := .ident str) nofun
    apply hR.symFind
    intro r
    split
    · exact hR.undeclared
    · exact .seq hT (hR.refer _ _) fun _ => hR.symAt fun s => hR.loadAddress s
  · exact (Sat.seq hT (hR.report _) fun _ => hR.emit _ rfl).at t

theorem element (name : List UInt8) (hexpr : Sat R expr) : SatAt R .lbracket (parseElement expr name) := by
  have hT := hR.toTokenLaw
  apply SatAt.seq hT (.read hT _) (symFind_quiet name)
  intro r
  split
  · exact hR.undeclared.at _
  · apply SatAt.seq hT (hR.refer _ _) (refer_quiet _ _)
    intro _
    apply SatAt.seq hT (.read hT _) (symAt_quiet r)
    intro s
    apply SatAt.seq hT (hR.loadAddress s) (loadAddress_quiet s)
    intro _
    apply SatAt.seq hT (hR.emit _ rfl) (cg_quiet _)
    intro _
    apply SatAt.take hT (t := .lbracket) nofun
    apply Sat.seq hT hexpr
    intro _
    apply hR.symAt
    intro s
    apply Sat.seq hT (hR.scaleIndex s)
    intro _
    apply Sat.seq hT (hR.emit _ rfl)
    intro _
    apply Sat.seq hT (hR.emit _ rfl)
    intro _
    apply hR.symAt
    intro s
    exact .seq hT (hR.derefElement s) fun _ => .expect hT .rbracket nofun

omit hR in
theorem isPlain_unary {call : CgCall} (h : call.isUnary = true) : call.isPlain = true := by
  cases call <;> first | rfl | cases h

omit hR in
theorem isPlain_strict {call : CgCall} (h : call.isStrict = true) : call.isPlain = true := by
  cases call <;> first | rfl | cases h

omit hR in
theorem isPlain_compound (t : Tok) : (compoundCall t).isPlain = true := by
  unfold compoundCall
  split
  · rfl
  · split
    · rfl
    · split <;> rfl

theorem unaryOp {t : Tok} {call : CgCall} (hcall : call.isUnary = true) (ht : t ≠ .eof)
    (hunary : Sat R unary) : SatAt R t (unaryOp unary call) := by
  have hT := hR.toTokenLaw
  exact .take hT ht (.seq hT hunary fun _ => hR.emit _ (isPlain_unary hcall))

theorem binary {t : Tok} {call : Tok → CgCall} (hcall : ∀ t, (call t).isStrict = true)
    (ht : t ≠ .eof) (hoperand : Sat R operand) : SatAt R t (binary operand call) := by
  have hT := hR.toTokenLaw
  apply SatAt.take hT ht
  apply Sat.seq hT (hR.emit _ rfl)
  intro _
  apply Sat.seq hT hoperand
  intro _
  exact .seq hT (hR.emit _ rfl) fun _ => hR.emit _ (isPlain_strict (hcall t))

theorem simpleAssign (name : List UInt8) (hassign : Sat R assign) :
    SatAt R .assign (parseSimpleAssign assign name) := by
  have hT := hR.toTokenLaw
  apply SatAt.take hT (t := .assign) nofun
  apply Sat.seq hT hassign
  intro _
  apply hR.symFind
  intro r
  split
  · exact hT.report _
  · exact .seq hT (hR.refer _ _) fun _ => hR.symAt hR.storeScalar

theorem compoundAssign {t : Tok} (name : List UInt8) (ht : isCompound t = true)
    (hassign : Sat R assign) : SatAt R t (parseCompoundAssign assign name) := by
  have hT := hR.toTokenLaw
  apply SatAt.take hT
  · rintro rfl
    cases ht
  apply hR.symFind
  intro r
  split
  · exact hT.report _
  · apply Sat.seq hT (hR.refer _ _)
    intro _
    apply hR.symAt
    intro s
    apply Sat.seq hT (hR.loadScalar s)
    intro _
    apply Sat.seq hT (hR.emit _ rfl)
    intro _
    apply Sat.seq hT hassign
    intro _
    apply Sat.seq hT (hR.emit _ rfl)
    intro _
    apply Sat.seq hT (hR.emit _ (isPlain_compound t))
    intro _
    exact .seq hT (hR.refer _ _) fun _ => hR.symAt hR.storeScalar

/-- The two ways an element is used in `parse_assign_expr`. -/
theorem elementUse (r : SymRef) (hassign : Sat R assign) : Sat R (do
    if (← lexPeek) = .assign then
      let _ ← lexNext
      cg .push
      assign
      cg .popIntoEcx
      if (← RainbowOs.Cc.symAt r).dataType = .char then cg .storeDerefByte else cg .storeDerefDword
    else
      cg .popIntoEcx
      cg .popToEax
      RainbowOs.Cc.derefElement (← RainbowOs.Cc.symAt r)) := by
  have hT := hR.toTokenLaw
  apply Sat.peek hT
  intro t
  split
  · next h =>
    subst h
    apply SatAt.take hT (t := .assign) nofun
    apply Sat.seq hT (hR.emit _ rfl)
    intro _
    apply Sat.seq hT hassign
    intro _
    apply Sat.seq hT (hR.emit _ rfl)
    intro _
    apply hR.symAt
    intro s
    split <;> exact hR.emit _ rfl
  · apply Sat.at
    apply Sat.seq hT (hR.emit _ rfl)
    intro _
    exact .seq hT (hR.emit _ rfl) fun _ => hR.symAt hR.derefElement

theorem elementAssign (name : List UInt8) (hassign : Sat R assign) :
    SatAt R .lbracket (parseElementAssign assign name) := by
  have hT := hR.toTokenLaw
  apply SatAt.seq hT (.read hT _) (symFind_quiet name)
  intro r
  split
  · exact (hT.report _).at _
  · apply SatAt.take hT (t := .lbracket) nofun
    apply Sat.seq hT (hR.refer _ _)
    intro _
    apply hR.symAt
    intro s
    apply Sat.seq hT (hR.loadAddress s)
    intro _
    apply Sat.seq hT (hR.emit _ rfl)
    intro _
    apply Sat.seq hT hassign
    intro _
    apply hR.symAt
    intro s
    apply Sat.seq hT (hR.scaleIndex s)
    intro _
    apply Sat.seq hT (hR.emit _ rfl)
    intro _
    apply Sat.seq hT (hR.emit _ rfl)
    intro _
    apply Sat.seq hT (hR.emit _ rfl)
    intro _
    exact .seq hT (.expect hT .rbracket nofun) fun _ => hR.elementUse r hassign

theorem pointerStore (hassign : Sat R assign) : SatAt R .assign (do
    let _ ← lexNext
    cg .push
    assign
    cg .popIntoEcx
    cg .storeDerefDword) := by
  have hT := hR.toTokenLaw
  apply SatAt.take hT (t := .assign) nofun
  apply Sat.seq hT (hR.emit _ rfl)
  intro _
  apply Sat.seq hT hassign
  intro _
  exact .seq hT (hR.emit _ rfl) fun _ => hR.emit _ rfl

theorem moreArgs (hassign : Sat R assign) : ∀ fuel argc, Sat R (parseMoreArgs assign fuel argc)
  | 0, _ => .halt _
  | fuel + 1, argc => by
    have hT := hR.toTokenLaw
    apply Sat.peek hT
    intro t
    split
    · next h =>
      subst h
      apply SatAt.take hT (t := .comma) nofun
      apply Sat.seq hT hassign
      intro _
      exact .seq hT (hR.emit _ rfl) fun _ => moreArgs hassign fuel (argc + 1)
    · exact (Sat.pure hT argc).at t

theorem args (fuel : Nat) (hassign : Sat R assign) : Sat R (parseArgs assign fuel) := by
  have hT := hR.toTokenLaw
  apply Sat.peek hT
  intro t
  apply Sat.at
  split
  · apply Sat.seq hT hassign
    intro _
    exact .seq hT (hR.emit _ rfl) fun _ => hR.moreArgs hassign fuel 1
  · exact .pure hT 0

theorem builtinCall (sysIdx argc : Nat) : Sat R (emitBuiltinCall sysIdx argc) := by
  have hT := hR.toTokenLaw
  have hrest : Sat R (do
      cg (.callSyscall sysIdx)
      if argc > 0 then cg (.addEsp (argc * 4))) := by
    apply Sat.seq hT (hR.emit _ rfl)
    intro _
    split
    · exact hR.emit _ rfl
    · exact .pure hT _
  show Sat R (if argc ≥ 2 then _ else _)
  split
  · exact .seq hT (hR.emit _ rfl) fun _ => hrest
  · exact hrest

theorem call (fuel : Nat) (name : List UInt8) (hassign : Sat R assign)
    (hfunction : Sat R (callFunction name)) : SatAt R .lparen (parseCall assign fuel name) := by
  have hT := hR.toTokenLaw
  apply SatAt.take hT (t := .lparen) nofun
  apply Sat.seq hT (hR.args fuel hassign)
  intro argc
  apply Sat.seq hT (.expect hT .rparen nofun)
  intro _
  split
  · exact hR.builtinCall _ _
  · rw [callFunction_bind]
    apply Sat.seq hT hfunction
    intro _
    split
    · exact hR.emit _ rfl
    · exact .pure hT _

theorem returnStmt (hexpr : Sat R expr) : Sat R (parseReturn expr) := by
  have hT := hR.toTokenLaw
  have hrest : Sat R (do
      expect .semi
      cg .ret) := .seq hT (.expect hT .semi nofun) fun _ => hR.emit _ rfl
  apply Sat.peek hT
  intro t
  apply Sat.at
  show Sat R (if t ≠ .semi then _ else _)
  split
  · exact .seq hT hexpr fun _ => hrest
  · exact hrest

theorem loopJump {t : Tok} (ht : t ≠ .eof) (labels : Compiler → Nat → Int) (msg : String) :
    SatAt R t (parseLoopJump labels msg) := by
  have hT := hR.toTokenLaw
  apply SatAt.take hT ht
  apply Sat.seq hT (.expect hT .semi nofun)
  intro _
  apply Sat.seq hT (.get hT)
  intro s
  split
  · show Sat R (if s.loopDepth > maxLoopDepth then _ else _)
    split
    · exact .seq hT (hR.outside _) fun _ => hR.emit _ rfl
    · exact hR.emit _ rfl
  · exact hT.report msg

/-- The productions for expressions, from those that are not plain. -/
theorem exprLaw (hstring : ∀ str, Sat R (do cg (.loadNum (← cgAddString str))))
    (hfunction : ∀ name, Sat R (callFunction name))
    (hand : ∀ {unary fuel}, Sat R (parseBitorExpr unary fuel) → SatAt R .and (andStep unary fuel))
    (hor : ∀ {unary fuel}, Sat R (parseAndExpr unary fuel) → SatAt R .or (orStep unary fuel)) :
    ExprLaw R where
  toTokenLaw := hR.toTokenLaw
  loadNum _ := hR.emit _ rfl
  string := hstring
  variable_ := hR.variable_
  named := hR.named
  call fuel name hassign := hR.call fuel name hassign (hfunction name)
  element := hR.element
  addressOf := hR.addressOf
  unary := hR.unaryOp
  binary := hR.binary
  andStep := hand
  orStep := hor
  simpleAssign := hR.simpleAssign
  compoundAssign := hR.compoundAssign
  elementAssign := hR.elementAssign
  pointerStore := hR.pointerStore
  deref := hR.emit _ rfl

end PlainLaw

/-! ## Declarations -/

/-- What a trail that minds no change of the symbol tables owes. -/
structure SymbolLaw (R : Trail) : Prop extends TokenLaw R where
  declare : ∀ d, Sat R (tellDeclared d)
  symbols : ∀ f : Symbols → Symbols, Sat R (Prog.modify fun s => { s with syms := f s.syms })

namespace SymbolLaw

variable {R : Trail} (hR : SymbolLaw R)

include hR

theorem addGlobal (name : List UInt8) (kind : SymKind) (dt : DataType) :
    Sat R (symAddGlobal name kind dt) := by
  have hT := hR.toTokenLaw
  exact .seq hT (.get hT) fun s => .seq hT (hR.declare _) fun _ =>
    .seq hT (hR.symbols fun t => (t.addGlobal name kind dt).2) fun _ => .pure hT _

theorem addLocal (name : List UInt8) (kind : SymKind) (dt : DataType) :
    Sat R (symAddLocal name kind dt) := by
  have hT := hR.toTokenLaw
  exact .seq hT (.get hT) fun s => .seq hT (hR.declare _) fun _ =>
    .seq hT (hR.symbols fun t => (t.addLocal name kind dt).2) fun _ => .pure hT _

theorem kept (name : List UInt8) (found : SymRef) : Sat R (symKept name found) := by
  have hT := hR.toTokenLaw
  exact .seq hT (.get hT) fun s => .seq hT (hR.declare _) fun _ => .pure hT found

theorem setSym (r : SymRef) (f : Symbol → Symbol) : Sat R (setSym r f) :=
  hR.symbols fun t => t.modify f r

theorem callFunction (hcall : ∀ fn, Sat R (cg (.callSymbol fn))) (name : List UInt8) :
    Sat R (callFunction name) := by
  have hT := hR.toTokenLaw
  apply Sat.seq hT (.read hT _)
  intro found
  split
  · exact .seq hT (hR.addGlobal _ _ _) fun fn => hcall fn
  · exact .seq hT (.pure hT _) fun fn => hcall fn

theorem localDecl (hplain : PlainLaw R) {expr : Parse Unit} (hexpr : Sat R expr) (dt : DataType) :
    ∀ fuel, Sat R (parseLocalDecl expr dt fuel)
  | 0 => .halt _
  | fuel + 1 => by
    have hT := hR.toTokenLaw
    have hinit : ∀ r, Sat R (parseLocalInit expr r) := by
      intro r
      apply Sat.peek hT
      intro t
      split
      · apply SatAt.take hT (t := .lbracket) nofun
        apply Sat.peek hT
        intro t
        split
        · next n =>
          apply SatAt.take hT (t := .numLit n) nofun
          exact .seq hT (hR.setSym r _) fun _ => .seq hT (.expect hT .rbracket nofun) fun _ => .pure hT _
        · exact (Sat.seq hT (hT.report _) fun _ => .pure hT _).at t
      · apply SatAt.take hT (t := .assign) nofun
        apply Sat.seq hT hexpr
        intro _
        apply Sat.seq hT (hplain.refer _ _)
        intro _
        exact hplain.symAt fun s => .seq hT (hplain.emit _ rfl) fun _ => .pure hT _
      · exact (Sat.pure hT true).at t
    apply Sat.peek hT
    intro t
    split
    · next str =>
      apply SatAt.take hT (t := .ident str) nofun
      apply Sat.seq hT (.copyName hT str)
      intro name
      apply Sat.seq hT (hR.addLocal _ _ _)
      intro r
      split
      · exact hT.report _
      · apply Sat.seq hT (hinit r)
        intro more
        split
        · apply Sat.peek hT
          intro t
          split
          · next h =>
            subst h
            exact SatAt.take hT (t := .comma) nofun (localDecl hplain hexpr dt fuel)
          · exact (Sat.expect hT .semi nofun).at t
        · exact .pure hT _
    · exact (hT.report _).at t

theorem params : ∀ fuel, Sat R (parseParams fuel)
  | 0 => .halt _
  | fuel + 1 => by
    have hT := hR.toTokenLaw
    apply Sat.seq hT (.type_ hT)
    intro pt
    apply Sat.peek hT
    intro t
    split
    · next str =>
      apply SatAt.take hT (t := .ident str) nofun
      apply Sat.seq hT (hR.addLocal _ _ _)
      intro _
      apply Sat.peek hT
      intro t
      split
      · next h =>
        subst h
        exact SatAt.take hT (t := .comma) nofun (params fuel)
      · exact (Sat.pure hT ()).at t
    · exact (hT.report _).at t

/-- A function, from the law of its body. -/
theorem function {fuel : Nat} (hbody : ∀ fn, Sat R (do
      cgFuncBegin fn
      parseBlock (parseStatement fuel fuel) fuel
      cg .funcEnd)) (name : List UInt8) (dt : DataType) : Sat R (parseFunction fuel name dt) := by
  have hT := hR.toTokenLaw
  have hrest : ∀ fn, Sat R (do
      RainbowOs.Cc.setSym fn fun f => { f with defined := true }
      Prog.modify fun s => { s with syms := s.syms.beginLocals }
      if (← lexPeek) ≠ .rparen then parseParams fuel
      expect .rparen
      cgFuncBegin fn
      parseBlock (parseStatement fuel fuel) fuel
      cg .funcEnd) := by
    intro fn
    have hend : Sat R (do
        expect .rparen
        cgFuncBegin fn
        parseBlock (parseStatement fuel fuel) fuel
        cg .funcEnd) := .seq hT (.expect hT .rparen nofun) fun _ => hbody fn
    apply Sat.seq hT (hR.setSym fn _)
    intro _
    apply Sat.seq hT (hR.symbols Symbols.beginLocals)
    intro _
    apply Sat.seq hT (.lexPeek hT)
    intro t
    show Sat R (if t ≠ .rparen then _ else _)
    split
    · exact .seq hT (hR.params fuel) fun _ => hend
    · exact hend
  apply Sat.seq hT (.read hT _)
  intro found
  show Sat R (if found = .null then _ else _)
  split
  · exact .seq hT (hR.addGlobal _ _ _) fun fn => hrest fn
  · exact .seq hT (hR.kept name found) fun fn => hrest fn

theorem globalSize (r : SymRef) : Sat R (parseGlobalSize r) := by
  have hT := hR.toTokenLaw
  apply Sat.peek hT
  intro t
  split
  · next h =>
    subst h
    apply SatAt.take hT (t := .lbracket) nofun
    apply Sat.peek hT
    intro t
    split
    · next n =>
      apply SatAt.take hT (t := .numLit n) nofun
      exact .seq hT (hR.setSym r _) fun _ => .expect hT .rbracket nofun
    · exact (Sat.seq hT (.pure hT ()) fun _ => .expect hT .rbracket nofun).at t
  · exact (Sat.pure hT ()).at t

variable (halloc : ∀ bytes, Sat R (cg (.allocGlobal bytes)))

include halloc

theorem allocGlobal (bytes : Int) : Sat R (cgAllocGlobal bytes) := by
  have hT := hR.toTokenLaw
  exact .seq hT (.get hT) fun s => .seq hT (halloc bytes) fun _ => .pure hT _

theorem moreGlobals (dt : DataType) : ∀ fuel, Sat R (parseMoreGlobals dt fuel)
  | 0 => .halt _
  | fuel + 1 => by
    have hT := hR.toTokenLaw
    apply Sat.peek hT
    intro t
    split
    · next h =>
      subst h
      apply SatAt.take hT (t := .comma) nofun
      apply Sat.peek hT
      intro t
      split
      · next str =>
        apply SatAt.take hT (t := .ident str) nofun
        apply Sat.seq hT (hR.addGlobal _ _ _)
        intro r
        show Sat R (if r ≠ .null then _ else _)
        split
        · exact .seq hT (hR.allocGlobal halloc _) fun offset =>
            .seq hT (hR.setSym r _) fun _ => moreGlobals dt fuel
        · exact moreGlobals dt fuel
      · exact (hT.report _).at t
    · exact (Sat.expect hT .semi nofun).at t

theorem globalVar (fuel : Nat) (name : List UInt8) (dt : DataType) :
    Sat R (parseGlobalVar fuel name dt) := by
  have hT := hR.toTokenLaw
  apply Sat.seq hT (hR.addGlobal _ _ _)
  intro r
  split
  · exact hT.report _
  · apply Sat.seq hT (hR.globalSize r)
    intro _
    apply Sat.seq hT (.read hT _)
    intro s
    exact .seq hT (hR.allocGlobal halloc _) fun offset =>
      .seq hT (hR.setSym r _) fun _ => hR.moreGlobals halloc dt fuel

/-- The declarations of a program, from the law of a function's body. -/
theorem programLaw (hbody : ∀ fuel fn, Sat R (do
    cgFuncBegin fn
    parseBlock (parseStatement fuel fuel) fuel
    cg .funcEnd)) : ProgramLaw R where
  toTokenLaw := hR.toTokenLaw
  function _ := hR.function (hbody _)
  globalVar := hR.globalVar halloc

end SymbolLaw

end RainbowOs.Cc
