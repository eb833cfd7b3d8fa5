import RainbowOs.Cc.Reading
import RainbowOs.Lib.Relate

/-!
# What holds along every run of the parser

A trail relates the statics before and after a stretch of the parser, with
its log. `Law` lists what a trail owes the productions of the grammar, each
for the parsers of its parts; `ProgramLaw` adds functions and globals. The
recursion of the parser itself is followed here once: a trail with the laws
holds of every expression, every statement and every program.
-/

namespace RainbowOs.Cc

open RainbowOs.Lib
open Prog (Obeys Composes)

/-- A relation between the statics before and after a stretch of the parser, with its log. -/
abbrev Trail := Compiler → List Event → Compiler → Prop

/-- Every run that returns is in the trail. -/
def Sat (R : Trail) {α : Type} (p : Parse α) : Prop := Obeys R (fun _ => True) p fun _ _ => True

/-- Every run that returns and starts at the token is in the trail. -/
def SatAt (R : Trail) (t : Tok) {α : Type} (p : Parse α) : Prop :=
  Obeys R (fun s => s.lex.next.1 = t) p fun _ _ => True

/-- No token is read. -/
def SameLex : Trail := fun s _ s' => s'.lex = s.lex

/-- What a trail owes the primitives that read tokens and report errors. A token is taken
where it is known not to be the end of the text, or where an error is reported. -/
structure TokenLaw (R : Trail) : Prop where
  composes : Composes R
  peek : ∀ s, R s [] { s with lex := s.lex.peek.2 }
  take : ∀ s, s.lex.next.1 ≠ .eof → R s [] { s with lex := s.lex.next.2 }
  copy : ∀ name s, R s [.copy name] s
  report : ∀ msg, Sat R (error msg)
  mismatch : ∀ msg, Sat R (do
    let _ ← lexNext
    error msg)
  skip : ∀ msg, Sat R (do
    error msg
    lexNext)

/-- The statics with another lexer and error. -/
def Compiler.reading (s : Compiler) (lex : Lexer) (e : Option (String × Nat)) : Compiler :=
  { s with lex := lex, hadError := e }

theorem error_run (msg : String) (s : Compiler) : error msg s =
    ⟨.done (), s.reading s.lex (some (s.hadError.getD (msg, s.lex.line))), []⟩ := by
  obtain ⟨lex, syms, cg, hadError, depth, breaks, continues⟩ := s
  cases hadError <;> rfl

/-- The primitives that read tokens and report errors change the lexer and the error only. -/
theorem TokenLaw.of_reading {R : Trail} (hR : Composes R)
    (h : ∀ s lex e, (e = none → s.hadError = none) → R s [] (s.reading lex e))
    (hcopy : ∀ name s, R s [.copy name] s) : TokenLaw R where
  composes := hR
  peek s := h s _ _ id
  take s _ := h s _ _ id
  copy := hcopy
  report msg := by
    intro s a s' l _ hrun
    rw [error_run] at hrun
    cases hrun
    exact ⟨h s _ _ nofun, trivial⟩
  mismatch msg := by
    intro s a s' l _ hrun
    obtain ⟨t, s₁, l₁, l₂, hnext, herror, rfl⟩ := Prog.bind_done hrun
    cases hnext
    rw [error_run] at herror
    cases herror
    exact ⟨h s _ _ nofun, trivial⟩
  skip msg := by
    intro s a s' l _ hrun
    obtain ⟨t, s₁, l₁, l₂, herror, hnext, rfl⟩ := Prog.bind_done hrun
    rw [error_run] at herror
    cases herror
    cases hnext
    exact ⟨h s _ _ nofun, trivial⟩

/-! ## Rules -/

section Rules

variable {R : Trail} {α β : Type}

theorem Sat.at {p : Parse α} (h : Sat R p) (t : Tok) : SatAt R t p :=
  h.mono (fun _ _ => trivial) fun _ _ h => h

/-- A stretch asked for of the states with `P`. -/
theorem Sat.of {p : Parse α} (h : Sat R p) (P : Compiler → Prop) : Obeys R P p fun _ _ => True :=
  h.mono (fun _ _ => trivial) fun _ _ h => h

theorem Sat.halt (e : Stop) : Sat R (Prog.halt e : Parse α) := Obeys.halt e

variable (hR : TokenLaw R)

include hR

theorem Sat.pure (a : α) : Sat R (pure a : Parse α) := Obeys.pure hR.composes fun _ _ => trivial

theorem Sat.get : Sat R (Prog.get : Parse Compiler) := Obeys.get hR.composes fun _ _ => trivial

theorem Sat.seq {p : Parse α} {f : α → Parse β} (hp : Sat R p) (hf : ∀ a, Sat R (f a)) :
    Sat R (p >>= f) := Obeys.bind hR.composes hp hf

/-- What only reads the statics. -/
theorem Sat.read (f : Compiler → α) : Sat R (do return f (← Prog.get)) :=
  .seq hR (.get hR) fun s => .pure hR (f s)

theorem Sat.lexPeek : Sat R lexPeek := by
  intro s a s' l _ hrun
  cases hrun
  exact ⟨hR.peek s, trivial⟩

/-- A token that is peeked at is known to be ahead. -/
theorem Sat.peek {f : Tok → Parse β} (hf : ∀ t, SatAt R t (f t)) :
    Sat R (RainbowOs.Cc.lexPeek >>= f) := by
  apply Obeys.bind hR.composes _ hf
  intro s a s' l _ hrun
  cases hrun
  exact ⟨hR.peek s, (congrArg Prod.fst s.lex.next_peek).trans s.lex.peek_fst.symm⟩

/-- A stretch that reads no token leaves the token ahead. -/
theorem SatAt.seq {t : Tok} {p : Parse α} {f : α → Parse β} (hp : Sat R p)
    (hquiet : Sat SameLex p) (hf : ∀ a, SatAt R t (f a)) : SatAt R t (p >>= f) := by
  apply Obeys.bind hR.composes (Q := fun _ s => s.lex.next.1 = t) _ hf
  intro s a s' l hs hrun
  have hlex := (hquiet trivial hrun).1
  exact ⟨(hp trivial hrun).1, (congrArg (fun lex => lex.next.1) hlex).trans hs⟩

/-- A second look at the token that is ahead. -/
theorem SatAt.peek {t : Tok} {f : Tok → Parse β} (hf : SatAt R t (f t)) :
    SatAt R t (lexPeek >>= f) := by
  apply Obeys.bind hR.composes (Q := fun a s => a = t ∧ s.lex.next.1 = t)
  · intro s a s' l hs hrun
    cases hrun
    have ht : s.lex.peek.1 = t := s.lex.peek_fst.trans hs
    exact ⟨hR.peek s, ht, (congrArg Prod.fst s.lex.next_peek).trans hs⟩
  · intro a
    apply Obeys.of_forall
    rintro s ⟨rfl, hs⟩
    exact hf.mono (fun s' hs' => hs' ▸ hs) fun _ _ h => h

/-- A token that is ahead is taken. -/
theorem SatAt.take {t : Tok} {f : Tok → Parse β} (ht : t ≠ .eof) (hf : Sat R (f t)) :
    SatAt R t (lexNext >>= f) := by
  apply Obeys.bind hR.composes (Q := fun a _ => a = t)
  · intro s a s' l hs hrun
    cases hrun
    exact ⟨hR.take s (hs ▸ ht), hs⟩
  · intro a
    apply Obeys.of_forall
    rintro s rfl
    exact hf.of _

theorem SatAt.take_ {t : Tok} (ht : t ≠ .eof) : SatAt R t (do let _ ← lexNext) := by
  exact SatAt.take hR ht (.pure hR ())

/-- A token that is expected. -/
theorem Sat.expect (tok : Tok) (htok : tok ≠ .eof) : Sat R (expect tok) := by
  intro s a s' l _ hrun
  have hnext : RainbowOs.Cc.expect tok s = (if s.lex.next.1 ≠ tok then error (expectMsg tok)
      else Pure.pure ()) { s with lex := s.lex.next.2 } := rfl
  by_cases htaken : s.lex.next.1 = tok
  · rw [hnext, if_neg (not_not_intro htaken)] at hrun
    cases hrun
    exact ⟨hR.take s (htaken ▸ htok), trivial⟩
  · rw [hnext, if_pos htaken] at hrun
    exact hR.mismatch (expectMsg tok) trivial hrun

/-- A token that is taken at once, with an error where it is not a wanted one. -/
theorem Sat.next {f : Tok → Parse β} (good : Tok → Bool) (heof : good .eof = false)
    (hgood : ∀ t, good t = true → Sat R (f t))
    (hbad : ∀ t, good t = false → ∃ msg k, f t = (error msg >>= k) ∧ ∀ a, Sat R (k a)) :
    Sat R (lexNext >>= f) := by
  intro s b s' l _ hrun
  cases hwanted : good s.lex.next.1 with
  | true =>
    apply SatAt.take hR _ (hgood _ hwanted) rfl hrun
    intro h
    rw [h, heof] at hwanted
    cases hwanted
  | false =>
    obtain ⟨msg, k, hf, hk⟩ := hbad _ hwanted
    have hnext : lexNext s = ⟨.done s.lex.next.1, { s with lex := s.lex.next.2 }, []⟩ := rfl
    have hfail : (lexNext >>= fun _ => RainbowOs.Cc.error msg) s =
        (RainbowOs.Cc.error msg { s with lex := s.lex.next.2 }).prepend [] :=
      Prog.bind_run_prepend hnext
    have hsame : (lexNext >>= f) s = ((lexNext >>= fun _ => RainbowOs.Cc.error msg) >>= k) s := by
      rw [Prog.bind_run_prepend hnext, hf]
      exact (Prog.bind_prepend hfail).symm
    exact Sat.seq hR (hR.mismatch msg) hk trivial (hsame.symm.trans hrun)

/-- The loops of the parser. -/
theorem Sat.whilePeek {more : Tok → Bool} {body : Parse Unit}
    (hbody : ∀ t, more t = true → SatAt R t body) : ∀ fuel, Sat R (whilePeek more body fuel)
  | 0 => .halt _
  | fuel + 1 => by
    apply Sat.peek hR
    intro t
    split
    · next hmore =>
      apply Obeys.bind hR.composes (hbody t hmore)
      exact fun _ => Sat.whilePeek hbody fuel
    · exact (Sat.pure hR ()).at t

theorem Sat.copyName (name : List UInt8) : Sat R (copyName name) := by
  apply Sat.seq hR
  · intro s a s' l _ hrun
    cases hrun
    exact ⟨hR.copy name s, trivial⟩
  · intro _
    split
    · exact .pure hR _
    · exact .halt _

theorem Sat.pointer (dt : DataType) : Sat R (parsePointer dt) := by
  apply Sat.peek hR
  intro t
  split
  · next h =>
    subst h
    apply SatAt.take hR (t := .star) nofun
    cases dt <;> exact .pure hR _
  · exact (Sat.pure hR dt).at t

theorem Sat.type_ : Sat R parseType := by
  apply Sat.next hR isType rfl
  · intro t ht
    split
    · exact .pointer hR .int
    · exact .pointer hR .char
    · exact .pointer hR .void
    · exact .seq hR (hR.report _) fun _ => .pure hR _
  · intro t ht
    refine ⟨"expected type", fun _ => Pure.pure .int, ?_, fun _ => .pure hR _⟩
    split
    · cases ht
    · cases ht
    · cases ht
    · rfl

end Rules

/-! ## The laws -/

/-- The calls of a unary operator. -/
def CgCall.isUnary (call : CgCall) : Bool :=
  call = .negate || call = .logicalNot || call = .bitwiseNot || call = .derefDword

/-- The calls that apply an operator to ECX and EAX. -/
def CgCall.isStrict : CgCall → Bool
  | .add | .sub | .mul | .div | .mod | .bitand | .bitor | .bitxor | .shl | .shr | .cmp _ => true
  | _ => false

theorem isStrict_mulCall (t : Tok) : (mulCall t).isStrict = true := by
  unfold mulCall
  split
  · rfl
  · split <;> rfl

theorem isStrict_addCall (t : Tok) : (addCall t).isStrict = true := by
  unfold addCall
  split <;> rfl

theorem isStrict_shiftCall (t : Tok) : (shiftCall t).isStrict = true := by
  unfold shiftCall
  split <;> rfl

/-- What a trail owes the productions for expressions. -/
structure ExprLaw (R : Trail) : Prop extends TokenLaw R where
  loadNum : ∀ n, Sat R (cg (.loadNum n))
  string : ∀ str, Sat R (do cg (.loadNum (← cgAddString str)))
  variable_ : ∀ x, Sat R (do
    let r ← symFind x
    if r = .null then
      error "undeclared variable"
      cg (.loadNum 0)
    else loadVariable r (← symAt r))
  named : ∀ x, Sat R (loadNamed x)
  call : ∀ {assign} fuel name, Sat R assign → SatAt R .lparen (parseCall assign fuel name)
  element : ∀ {expr} name, Sat R expr → SatAt R .lbracket (parseElement expr name)
  addressOf : SatAt R .amp parseAddressOf
  unary : ∀ {unary t call}, CgCall.isUnary call = true → t ≠ .eof → Sat R unary →
    SatAt R t (unaryOp unary call)
  binary : ∀ {operand t call}, (∀ t, CgCall.isStrict (call t) = true) → t ≠ .eof → Sat R operand →
    SatAt R t (binary operand call)
  andStep : ∀ {unary fuel}, Sat R (parseBitorExpr unary fuel) → SatAt R .and (andStep unary fuel)
  orStep : ∀ {unary fuel}, Sat R (parseAndExpr unary fuel) → SatAt R .or (orStep unary fuel)
  simpleAssign : ∀ {assign} name, Sat R assign → SatAt R .assign (parseSimpleAssign assign name)
  compoundAssign : ∀ {assign t} name, isCompound t = true → Sat R assign →
    SatAt R t (parseCompoundAssign assign name)
  elementAssign : ∀ {assign} name, Sat R assign → SatAt R .lbracket (parseElementAssign assign name)
  pointerStore : ∀ {assign}, Sat R assign → SatAt R .assign (do
    let _ ← lexNext
    cg .push
    assign
    cg .popIntoEcx
    cg .storeDerefDword)
  deref : Sat R (cg .derefDword)

/-! ## Expressions -/

namespace ExprLaw

variable {R : Trail} (hR : ExprLaw R) {assign unary : Parse Unit} (hassign : Sat R assign)
  (hunary : Sat R unary) (fuel : Nat)

include hR

include hassign hunary in
theorem primary : Sat R (parsePrimaryExpr assign unary fuel) := by
  have hT := hR.toTokenLaw
  have hskip := Sat.seq hT (hT.skip "expected expression") fun _ => hR.loadNum 0
  rw [Prog.bind_assoc] at hskip
  apply Sat.peek hT
  intro t
  cases t with
  | numLit n | charLit n => exact .take hT nofun (hR.loadNum n)
  | strLit str => exact .take hT nofun (hR.string str)
  | ident str =>
    apply SatAt.take hT (t := .ident str) nofun
    apply Sat.seq hT (.copyName hT str)
    intro name
    apply Sat.peek hT
    intro next
    split
    · exact hR.call fuel name hassign
    · exact hR.element name hassign
    · exact (hR.variable_ name).at next
  | lparen =>
    apply SatAt.take hT (t := .lparen) nofun
    apply Sat.peek hT
    intro next
    split
    · next htype =>
      apply SatAt.take hT
      · rintro rfl
        cases htype
      · apply Sat.seq hT
        · apply Sat.whilePeek hT
          intro t ht
          exact .take_ hT (fun h => by subst h; cases ht)
        · intro _
          exact .seq hT (.expect hT .rparen nofun) fun _ => hunary
    · exact (Sat.seq hT hassign fun _ => .expect hT .rparen nofun).at next
  | _ => exact hskip.at _

include hassign hunary in
theorem postfix_ : Sat R (parsePostfixExpr assign unary fuel) := by
  have hT := hR.toTokenLaw
  apply Sat.seq hT (hR.primary hassign hunary fuel)
  intro _
  apply Sat.whilePeek hT
  intro t ht
  exact .take_ hT (fun h => by subst h; cases ht)

include hassign in
theorem unaryExpr (loops : Nat) : ∀ fuel, Sat R (parseUnaryExpr assign loops fuel)
  | 0 => .halt _
  | fuel + 1 => by
    have ih := unaryExpr loops fuel
    apply Sat.peek hR.toTokenLaw
    intro t
    cases t with
    | minus | bang | tilde | star => exact hR.unary rfl nofun ih
    | amp => exact hR.addressOf
    | _ => exact (hR.postfix_ hassign ih loops).at _

/-- A level of the grammar. -/
theorem level {isOp : Tok → Bool} {call : Tok → CgCall} {operand : Parse Unit}
    (hop : isOp .eof = false) (hcall : ∀ t, (call t).isStrict = true) (hoperand : Sat R operand) :
    Sat R (level isOp call operand fuel) := by
  have hT := hR.toTokenLaw
  apply Sat.seq hT hoperand
  intro _
  apply Sat.whilePeek hT
  intro t ht
  exact hR.binary hcall (fun h => by rw [h, hop] at ht; cases ht) hoperand

include hunary

theorem mulExpr : Sat R (parseMulExpr unary fuel) :=
  hR.level fuel rfl isStrict_mulCall hunary

theorem addExpr : Sat R (parseAddExpr unary fuel) :=
  hR.level fuel rfl isStrict_addCall (hR.mulExpr hunary fuel)

theorem shiftExpr : Sat R (parseShiftExpr unary fuel) :=
  hR.level fuel rfl isStrict_shiftCall (hR.addExpr hunary fuel)

theorem relExpr : Sat R (parseRelExpr unary fuel) :=
  hR.level fuel rfl (fun _ => rfl) (hR.shiftExpr hunary fuel)

theorem eqExpr : Sat R (parseEqExpr unary fuel) :=
  hR.level fuel rfl (fun _ => rfl) (hR.relExpr hunary fuel)

theorem bitorExpr : Sat R (parseBitorExpr unary fuel) :=
  hR.level fuel rfl (fun _ => rfl) (hR.level fuel rfl (fun _ => rfl)
    (hR.level fuel rfl (fun _ => rfl) (hR.eqExpr hunary fuel)))

theorem andExpr : Sat R (parseAndExpr unary fuel) := by
  have hT := hR.toTokenLaw
  apply Sat.seq hT (hR.bitorExpr hunary fuel)
  intro _
  apply Sat.whilePeek hT
  intro t ht
  rw [of_decide_eq_true ht]
  exact hR.andStep (hR.bitorExpr hunary fuel)

theorem orExpr : Sat R (parseOrExpr unary fuel) := by
  have hT := hR.toTokenLaw
  apply Sat.seq hT (hR.andExpr hunary fuel)
  intro _
  apply Sat.whilePeek hT
  intro t ht
  rw [of_decide_eq_true ht]
  exact hR.orStep (hR.andExpr hunary fuel)

/-- One round of `continue_binops`, by the operator that is ahead. -/
theorem binopStep {t : Tok} (ht : isBinop t = true) : SatAt R t (binopStep unary fuel) := by
  have hT := hR.toTokenLaw
  have hne : t ≠ .eof := by
    rintro rfl
    cases ht
  have heq := hR.eqExpr hunary fuel
  have haddExpr := hR.addExpr hunary fuel
  apply SatAt.peek hT
  split
  · exact hR.binary isStrict_addCall hne (hR.mulExpr hunary fuel)
  · split
    · exact hR.binary isStrict_mulCall hne hunary
    · split
      · exact hR.binary (fun _ => rfl) hne haddExpr
      · split
        · next hand =>
          rw [hand]
          exact hR.andStep (hR.bitorExpr hunary fuel)
        · split
          · next hor =>
            rw [hor]
            exact hR.orStep (hR.andExpr hunary fuel)
          · split
            · exact hR.binary (fun _ => rfl) hne heq
            · split
              · exact hR.binary (fun _ => rfl) hne heq
              · split
                · exact hR.binary (fun _ => rfl) hne heq
                · exact hR.binary isStrict_shiftCall hne haddExpr

theorem continueBinops : Sat R (continueBinops unary fuel) :=
  .whilePeek hR.toTokenLaw (fun _ ht => hR.binopStep hunary fuel ht) fuel

omit hunary in
include hassign in
/-- `parse_assign_expr` at an identifier. -/
theorem assignIdent (loops : Nat) (name : List UInt8) : Sat R (do
    let next ← lexPeek
    if next = .assign then parseSimpleAssign assign name
    else if isCompound next then parseCompoundAssign assign name
    else if next = .lbracket then parseElementAssign assign name
    else
      if next = .lparen then parseCall assign loops name else loadNamed name
      RainbowOs.Cc.continueBinops (parseUnaryExpr assign loops loops) loops) := by
  have hT := hR.toTokenLaw
  have hbinops := hR.continueBinops (hR.unaryExpr hassign loops loops) loops
  apply Sat.peek hT
  intro next
  split
  · next h =>
    subst h
    exact hR.simpleAssign name hassign
  · split
    · next h => exact hR.compoundAssign name h hassign
    · split
      · next h =>
        subst h
        exact hR.elementAssign name hassign
      · show SatAt R next (if next = .lparen then _ else _)
        split
        · next h =>
          subst h
          exact Obeys.bind hT.composes (hR.call loops name hassign) fun _ => hbinops
        · exact (Sat.seq hT (hR.named name) fun _ => hbinops).at next

omit hunary in
include hassign in
/-- `parse_assign_expr` after a `*`. -/
theorem assignPointer (loops : Nat) : Sat R (do
    parseUnaryExpr assign loops loops
    if (← lexPeek) = .assign then
      let _ ← lexNext
      cg .push
      assign
      cg .popIntoEcx
      cg .storeDerefDword
    else
      cg .derefDword
      RainbowOs.Cc.continueBinops (parseUnaryExpr assign loops loops) loops) := by
  have hT := hR.toTokenLaw
  have hun := hR.unaryExpr hassign loops loops
  apply Sat.seq hT hun
  intro _
  apply Sat.peek hT
  intro next
  split
  · next h =>
    subst h
    exact hR.pointerStore hassign
  · exact (Sat.seq hT hR.deref fun _ => hR.continueBinops hun loops).at next

omit hassign hunary in
theorem assignExpr (loops : Nat) : ∀ fuel, Sat R (parseAssignExpr loops fuel)
  | 0 => .halt _
  | fuel + 1 => by
    have hT := hR.toTokenLaw
    have ih := assignExpr loops fuel
    apply Sat.peek hT
    intro t
    cases t with
    | ident str =>
      apply SatAt.take hT (t := .ident str) nofun
      exact .seq hT (.copyName hT str) fun name => hR.assignIdent ih loops name
    | star =>
      exact .take hT nofun (hR.assignPointer ih loops)
    | _ => exact (hR.orExpr (hR.unaryExpr ih loops loops) loops).at _

omit hassign hunary in
theorem expr : Sat R (parseExpr fuel) := hR.assignExpr fuel fuel

end ExprLaw

/-! ## Statements and declarations -/

/-- What a trail owes the productions for statements. -/
structure StmtLaw (R : Trail) : Prop extends ExprLaw R where
  ifStmt : ∀ {expr stmt}, Sat R expr → Sat R stmt → Sat R (parseIf expr stmt)
  whileStmt : ∀ {expr stmt}, Sat R expr → Sat R stmt → Sat R (parseWhile expr stmt)
  forStmt : ∀ {expr stmt}, Sat R expr → Sat R stmt → Sat R (parseFor expr stmt)
  doStmt : ∀ {expr stmt}, Sat R expr → Sat R stmt → Sat R (parseDoWhile expr stmt)
  returnStmt : ∀ {expr}, Sat R expr → Sat R (parseReturn expr)
  breakStmt : SatAt R .breakTok (parseLoopJump Compiler.breakLabels "break outside loop")
  continueStmt : SatAt R .continueTok (parseLoopJump Compiler.continueLabels "continue outside loop")
  localDecl : ∀ {expr} dt fuel, Sat R expr → Sat R (parseLocalDecl expr dt fuel)

namespace StmtLaw

variable {R : Trail} (hR : StmtLaw R) {expr stmt : Parse Unit} (hexpr : Sat R expr)
  (hstmt : Sat R stmt) (fuel : Nat)

include hR

include hstmt in
theorem statements : ∀ fuel, Sat R (parseStatements stmt fuel)
  | 0 => .halt _
  | fuel + 1 => by
    have hT := hR.toTokenLaw
    apply Sat.peek hT
    intro t
    apply Sat.at
    apply Sat.seq hT (.get hT)
    intro s
    split
    · exact .seq hT hstmt fun _ => statements fuel
    · exact .pure hT _

include hstmt in
theorem block : Sat R (parseBlock stmt fuel) := by
  have hT := hR.toTokenLaw
  exact .seq hT (.expect hT .lbrace nofun) fun _ =>
    .seq hT (hR.statements hstmt fuel) fun _ => .expect hT .rbrace nofun

include hexpr hstmt in
theorem statementBody : Sat R (parseStatementBody expr stmt fuel) := by
  have hT := hR.toTokenLaw
  apply Sat.peek hT
  intro t
  cases t with
  | lbrace => exact (hR.block hstmt fuel).at _
  | ifTok => exact .take hT nofun (hR.ifStmt hexpr hstmt)
  | whileTok => exact .take hT nofun (hR.whileStmt hexpr hstmt)
  | forTok => exact .take hT nofun (hR.forStmt hexpr hstmt)
  | doTok => exact .take hT nofun (hR.doStmt hexpr hstmt)
  | returnTok => exact .take hT nofun (hR.returnStmt hexpr)
  | breakTok => exact hR.breakStmt
  | continueTok => exact hR.continueStmt
  | semi => exact .take hT nofun (.pure hT ())
  | int | char | void => exact (Sat.seq hT (.type_ hT) fun dt => hR.localDecl dt fuel hexpr).at _
  | _ => exact (Sat.seq hT hexpr fun _ => .expect hT .semi nofun).at _

theorem statement (loops : Nat) : ∀ fuel, Sat R (parseStatement loops fuel)
  | 0 => .halt _
  | fuel + 1 => by
    have hT := hR.toTokenLaw
    apply Sat.seq hT (.get hT)
    intro s
    split
    · exact hR.statementBody (hR.expr loops) (statement loops fuel) loops
    · exact .pure hT _

end StmtLaw

/-- What a trail owes the declarations of a program. -/
structure ProgramLaw (R : Trail) : Prop extends TokenLaw R where
  function : ∀ fuel name dt, Sat R (parseFunction fuel name dt)
  globalVar : ∀ fuel name dt, Sat R (parseGlobalVar fuel name dt)

/-- A trail that the declarations have is had by every program. -/
theorem ProgramLaw.declarations {R : Trail} (hR : ProgramLaw R) (loops : Nat) :
    ∀ fuel, Sat R (parseDeclarations loops fuel)
  | 0 => .halt _
  | fuel + 1 => by
    have hT := hR.toTokenLaw
    apply Sat.peek hT
    intro t
    apply Sat.at
    apply Sat.seq hT (.get hT)
    intro s
    split
    · apply Sat.seq hT (.type_ hT)
      intro dt
      apply Sat.peek hT
      intro next
      split
      · next str =>
        apply SatAt.take hT (t := .ident str) nofun
        apply Sat.seq hT (.copyName hT str)
        intro name
        apply Sat.peek hT
        intro next
        show SatAt R next (if next = .lparen then _ else _)
        split
        · next h =>
          subst h
          apply SatAt.take hT (t := .lparen) nofun
          exact .seq hT (hR.function loops name dt) fun _ => declarations hR loops fuel
        · exact (Sat.seq hT (hR.globalVar loops name dt) fun _ =>
            declarations hR loops fuel).at next
      · exact (hT.report _).at next
    · exact .pure hT _

end RainbowOs.Cc
