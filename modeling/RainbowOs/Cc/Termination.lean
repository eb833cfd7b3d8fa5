import RainbowOs.Lib.Settles
import RainbowOs.Cc.SourceLines
import RainbowOs.Cc.Laws

/-!
# The front end comes to an end

The parser has loops that go on after an error and recursions that look at
a token without taking it, and the lexer answers with the end of the text
for a byte in its middle. What pays for all of them is the text that is
left, with one more for a token that was peeked at: every token but the end
of the text takes some of it, and every round of a loop and every recursion
takes such a token first.

So there is one run of `parse_program` on every text, which every fuel
above its length has.
-/

namespace RainbowOs.Cc

open RainbowOs.Lib
open Prog (Settles)

/-! ## The measure -/

/-- What a token takes: something, unless it is the end of the text. -/
def Tok.cost (t : Tok) : Nat := if t = .eof then 0 else 1

theorem Tok.cost_le (t : Tok) : t.cost ≤ 1 := by
  unfold cost
  split <;> omega

theorem Tok.cost_of_ne {t : Tok} (h : t ≠ .eof) : t.cost = 1 := if_neg h

/-- The text that is left, and the token that was peeked at. -/
def Lexer.left (l : Lexer) : Nat := l.pos.rest.length + l.peeked.elim 0 Tok.cost

theorem left_lexScan (p : Pos) : (lexScan p).2.rest.length + (lexScan p).1.cost ≤ p.rest.length := by
  have hskip := (passes_skipWhitespace .code p.line p.rest).rest.length_le
  unfold lexScan
  split
  · next line h => exact Nat.zero_le _
  · next c rest line h =>
    rw [h] at hskip
    have htoken := (passes_lexToken c line rest).rest.length_le
    have hcost := (lexToken c line rest).1.cost_le
    simp only [List.length_cons] at hskip
    dsimp only at htoken
    omega

namespace Lexer

variable (l : Lexer)

theorem left_next : l.next.2.left + l.next.1.cost ≤ l.left := by
  obtain ⟨pos, peeked⟩ := l
  cases peeked with
  | none => exact left_lexScan pos
  | some t => exact Nat.le_refl _

theorem left_peek : l.peek.2.left ≤ l.left := by
  obtain ⟨pos, peeked⟩ := l
  cases peeked with
  | none => exact left_lexScan pos
  | some t => exact Nat.le_refl _

end Lexer

/-! ## Stretches that end -/

section Rules

variable {α β : Type}

/-- Both stretches have one run where less than `n` is left, which does not run out of fuel. -/
abbrev Ends (n : Nat) (p q : Parse α) : Prop :=
  Settles (fun s : Compiler => s.lex.left) Stop.fuel n (fun _ => True) 0 p q

/-- The same from a token that is ahead, and they take `k` of what is left. -/
abbrev EndsAt (t : Tok) (n k : Nat) (p q : Parse α) : Prop :=
  Settles (fun s : Compiler => s.lex.left) Stop.fuel n (fun s => s.lex.next.1 = t) k p q

/-- Both stretches take the token that is ahead. -/
def Eats (n : Nat) (p q : Parse α) : Prop := ∀ t, EndsAt t n t.cost p q

variable {n m k : Nat} {t : Tok} {p q : Parse α} {f g : α → Parse β}

theorem Ends.at (h : Ends n p q) (t : Tok) : EndsAt t n 0 p q := h.mono (Nat.le_refl n) fun _ _ => trivial

theorem Ends.less (h : Ends n p q) (hm : m ≤ n) : Ends m p q := h.mono hm fun _ hs => hs

theorem Eats.less (h : Eats n p q) (hm : m ≤ n) : Eats m p q := fun t => (h t).mono hm fun _ hs => hs

/-- What takes the token that is ahead ends, whatever it is. -/
theorem Eats.ends (h : Eats n p q) : Ends n p q := fun s _ hn => (h s.lex.next.1).keep s rfl hn

theorem Ends.seq (hp : Ends n p q) (hf : ∀ a, Ends n (f a) (g a)) : Ends n (p >>= f) (q >>= g) := Settles.seq hp hf

theorem Ends.ite {c : Prop} [Decidable c] {p' q' : Parse α} (hc : c → Ends n p q) (hn : ¬c → Ends n p' q') :
    Ends n (if c then p else p') (if c then q else q') := Settles.ite hc hn

theorem EndsAt.ite {c : Prop} [Decidable c] {p' q' : Parse α} (hc : c → EndsAt t n k p q)
    (hn : ¬c → EndsAt t n k p' q') : EndsAt t n k (if c then p else p') (if c then q else q') := Settles.ite hc hn

/-- A branch, and what follows either way. -/
theorem Ends.branch {c : Prop} [Decidable c] {p' q' : Parse α} (hp : Ends n p q) (hp' : Ends n p' q')
    (hf : ∀ a, Ends n (f a) (g a)) :
    Ends n (if c then p >>= f else p' >>= f) (if c then q >>= g else q' >>= g) :=
  .ite (fun _ => hp.seq hf) fun _ => hp'.seq hf

theorem EndsAt.seq (hp : EndsAt t n k p q) (hf : ∀ a, Ends n (f a) (g a)) : EndsAt t n k (p >>= f) (q >>= g) :=
  Settles.seq hp fun a => (hf a).less (Nat.sub_le n k)

theorem Eats.seq (hp : Eats n p q) (hf : ∀ a, Ends n (f a) (g a)) : Eats n (p >>= f) (q >>= g) :=
  fun t => EndsAt.seq (hp t) hf

theorem wp_lexPeek (s : Compiler) : lexPeek.wp (fun _ => True)
    (fun a s' => s'.lex.left ≤ s.lex.left ∧ a = s.lex.next.1 ∧ s'.lex.next.1 = s.lex.next.1)
    (fun e _ => e ≠ Stop.fuel) s :=
  Prog.wp_of_run rfl (fun _ _ => trivial) ⟨s.lex.left_peek, s.lex.peek_fst, congrArg Prod.fst s.lex.next_peek⟩

theorem Ends.peek {f g : Tok → Parse β} (hf : ∀ t, EndsAt t n 0 (f t) (g t)) :
    Ends n (lexPeek >>= f) (lexPeek >>= g) := by
  refine Settles.after (fun s _ => ?_) hf
  refine Prog.wp_mono (wp_lexPeek s) (fun _ hx => hx) (fun a s' h => ?_) fun _ _ h => h
  obtain ⟨hle, ha, hs'⟩ := h
  exact ⟨hle, hs'.trans ha.symm⟩

/-- A look at the token that is ahead finds it and leaves it there. -/
theorem EndsAt.peek {f g : Tok → Parse β} (hf : EndsAt t n k (f t) (g t)) :
    EndsAt t n k (lexPeek >>= f) (lexPeek >>= g) := by
  refine Settles.after (Q := fun a s => a = t ∧ s.lex.next.1 = t) (fun s hs => ?_) fun a s hs hn => ?_
  · refine Prog.wp_mono (wp_lexPeek s) (fun _ hx => hx) (fun a s' h => ?_) fun _ _ h => h
    obtain ⟨hle, ha, hs'⟩ := h
    exact ⟨hle, ha.trans hs, hs'.trans hs⟩
  · obtain ⟨rfl, hs⟩ := hs
    exact hf s hs hn

theorem Eats.peek {f g : Tok → Parse β} (hf : ∀ t, EndsAt t n t.cost (f t) (g t)) :
    Eats n (lexPeek >>= f) (lexPeek >>= g) := fun t => (hf t).peek

theorem wp_lexNext (s : Compiler) : lexNext.wp (fun _ => True)
    (fun a s' => s'.lex.left + a.cost ≤ s.lex.left ∧ a = s.lex.next.1) (fun e _ => e ≠ Stop.fuel) s :=
  Prog.wp_of_run rfl (fun _ _ => trivial) ⟨s.lex.left_next, rfl⟩

/-- The token that is ahead is taken: what follows has less. -/
theorem EndsAt.take {f g : Tok → Parse β} (hf : Ends (n - t.cost) (f t) (g t)) :
    EndsAt t n t.cost (lexNext >>= f) (lexNext >>= g) := by
  refine Settles.bind (Q := fun a _ => a = t) (j := 0) (fun s hs _ => ⟨rfl, ?_⟩) fun a s ha hn => ?_
  · refine Prog.wp_mono (wp_lexNext s) (fun _ hx => hx) (fun a s' h => ?_) fun _ _ h => h
    obtain ⟨hle, ha⟩ := h
    have hat : a = t := ha.trans hs
    exact ⟨hat ▸ hle, hat⟩
  · subst ha
    exact hf s trivial hn

/-- A token is taken, whichever it is. -/
theorem Ends.next {f g : Tok → Parse β} (hf : ∀ t, Ends n (f t) (g t)) :
    Ends n (lexNext >>= f) (lexNext >>= g) :=
  Eats.ends fun t => EndsAt.take ((hf t).less (Nat.sub_le n t.cost))

/-! ### What reads no token -/

/-- A stretch that reads no token and does not loop. -/
def Quiet (p : Parse α) : Prop :=
  ∀ s, p.wp (fun _ => True) (fun _ s' => s'.lex = s.lex) (fun e _ => e ≠ Stop.fuel) s

theorem Quiet.ends (h : Quiet p) : Ends n p p := by
  refine Settles.refl fun s _ _ => ?_
  exact Prog.wp_mono (h s) (fun _ hx => hx) (fun _ s' h => Nat.le_of_eq (congrArg Lexer.left h)) fun _ _ h => h

/-- A stretch that reads no token leaves the token ahead. -/
theorem EndsAt.after (hp : Quiet p) (hf : ∀ a, EndsAt t n k (f a) (g a)) : EndsAt t n k (p >>= f) (p >>= g) := by
  refine Settles.after (Q := fun _ s => s.lex.next.1 = t) (fun s hs => ?_) hf
  refine Prog.wp_mono (hp s) (fun _ hx => hx) (fun _ s' h => ?_) fun _ _ h => h
  exact ⟨Nat.le_of_eq (congrArg Lexer.left h), (congrArg (fun lex => lex.next.1) h).trans hs⟩

namespace Quiet

theorem pure (a : α) : Quiet (pure a) := fun _ => Prog.wp_pure rfl

theorem seq (hp : Quiet p) (hf : ∀ a, Quiet (f a)) : Quiet (p >>= f) := fun s =>
  Prog.wp_seq (hp s) fun a s' h => Prog.wp_mono (hf a s') (fun _ hx => hx) (fun _ _ h' => h'.trans h) fun _ _ h => h

theorem get : Quiet Prog.get := fun _ => Prog.wp_get rfl

theorem tell (x : Event) : Quiet (Prog.tell x) := fun _ => Prog.wp_tell trivial rfl

theorem modify {u : Compiler → Compiler} (h : ∀ s, (u s).lex = s.lex) : Quiet (Prog.modify u) :=
  fun s => Prog.wp_modify (h s)

theorem ite {c : Prop} [Decidable c] {p q : Parse α} (hp : Quiet p) (hq : Quiet q) : Quiet (if c then p else q) :=
  fun s => Prog.wp_ite (fun _ => hp s) fun _ => hq s

/-- What only reads the statics. -/
theorem read (u : Compiler → α) : Quiet (do return u (← Prog.get)) := seq get fun s => pure (u s)

theorem cg (call : CgCall) : Quiet (cg call) := seq (tell _) fun _ => modify fun _ => rfl

/-- A call of the code generator that answers with what it found there. -/
theorem cgRead (call : CgCall) (u : Codegen → Int) : Quiet (do
    let s ← Prog.get
    RainbowOs.Cc.cg call
    return u s.cg) := seq get fun s => seq (cg call) fun _ => pure (u s.cg)

theorem error (msg : String) : Quiet (error msg) := modify fun s => by
  cases s.hadError <;> rfl

theorem setSym (r : SymRef) (u : Symbol → Symbol) : Quiet (setSym r u) := modify fun _ => rfl

theorem refer (r : SymRef) (use : Use) : Quiet (refer r use) := tell _

theorem copyName (name : List UInt8) : Quiet (copyName name) :=
  seq (tell _) fun _ => ite (pure name) fun _ => Prog.wp_halt nofun

theorem loadAddress (s : Symbol) : Quiet (loadAddress s) := ite (cg _) (cg _)

theorem loadScalar (s : Symbol) : Quiet (loadScalar s) := ite (cg _) (cg _)

theorem storeScalar (s : Symbol) : Quiet (storeScalar s) := ite (cg _) (cg _)

theorem loadVariable (r : SymRef) (s : Symbol) : Quiet (loadVariable r s) :=
  ite (seq (refer r _) fun _ => loadAddress s) (seq (refer r _) fun _ => loadScalar s)

theorem scaleIndex (s : Symbol) : Quiet (scaleIndex s) := ite (cg _) (pure ())

theorem derefElement (s : Symbol) : Quiet (derefElement s) := ite (cg _) (cg _)

end Quiet

/-! ### Tokens and loops -/

theorem Eats.expect (tok : Tok) : Eats n (expect tok) (expect tok) := fun _ =>
  EndsAt.take (Quiet.ends (.ite (.error _) (.pure ())))

theorem Ends.expect (tok : Tok) : Ends n (expect tok) (expect tok) := (Eats.expect tok).ends

/-- One token and nothing else. -/
theorem EndsAt.skip : EndsAt t n t.cost (do let _ ← lexNext) (do let _ ← lexNext) :=
  EndsAt.take (Quiet.ends (.pure ()))

theorem Ends.pointer (dt : DataType) : Ends n (parsePointer dt) (parsePointer dt) := by
  refine .peek fun t => .ite (fun h => ?_) fun _ => (Quiet.ends (.pure dt)).at t
  refine (EndsAt.take (Quiet.ends ?_)).keep
  cases dt <;> exact .pure _

theorem Eats.type_ : Eats n parseType parseType := by
  intro t
  apply EndsAt.take
  cases t with
  | int => exact Ends.pointer .int
  | char => exact Ends.pointer .char
  | void => exact Ends.pointer .void
  | _ => exact Quiet.ends (.seq (.error _) fun _ => .pure DataType.int)

theorem EndsAt.of_ne (ht : t ≠ .eof) (h : EndsAt t n t.cost p q) : EndsAt t n 1 p q := Tok.cost_of_ne ht ▸ h

/-- A loop ends when each round takes a token: the rounds are paid for by what is left. -/
theorem Ends.whilePeek {more : Tok → Bool} (heof : more .eof = false) {body body' : Parse Unit} {fuel fuel' : Nat}
    (hbody : ∀ t, more t = true → EndsAt t n t.cost body body') (h : n ≤ fuel) (h' : n ≤ fuel') :
    Ends n (whilePeek more body fuel) (whilePeek more body' fuel') := by
  induction n generalizing fuel fuel' with
  | zero => exact .zero
  | succ n ih =>
    cases fuel with
    | zero => omega
    | succ fuel =>
    cases fuel' with
    | zero => omega
    | succ fuel' =>
    refine .peek fun t => .ite (fun hmore => ?_) fun _ => (Quiet.ends (.pure ())).at t
    have hne : t ≠ .eof := by
      rintro rfl
      rw [heof] at hmore
      cases hmore
    refine (Settles.seq (EndsAt.of_ne hne (hbody t hmore)) fun _ => ?_).keep
    exact ih (fun t ht => (hbody t ht).mono (Nat.le_succ n) fun _ h => h) (by omega) (by omega)

end Rules

/-! ## Expressions -/

section Expressions

variable {n : Nat} {assign assign' unary unary' : Parse Unit} {fuel fuel' : Nat}

theorem Ends.moreArgs (hassign : Ends n assign assign') (h : n ≤ fuel) (h' : n ≤ fuel') (argc : Nat) :
    Ends n (parseMoreArgs assign fuel argc) (parseMoreArgs assign' fuel' argc) := by
  induction n generalizing fuel fuel' argc with
  | zero => exact .zero
  | succ n ih =>
    cases fuel with
    | zero => omega
    | succ fuel =>
    cases fuel' with
    | zero => omega
    | succ fuel' =>
    have hless := hassign.less (Nat.le_succ n)
    refine .peek fun t => .ite (fun ht => ?_) fun _ => (Quiet.ends (.pure argc)).at t
    subst ht
    refine (EndsAt.take ?_).keep
    exact .seq hless fun _ => .seq (Quiet.ends (.cg .push)) fun _ => ih hless (by omega) (by omega) (argc + 1)

theorem Ends.args (hassign : Ends n assign assign') (h : n ≤ fuel) (h' : n ≤ fuel') :
    Ends n (parseArgs assign fuel) (parseArgs assign' fuel') := by
  refine .peek fun t => .ite (fun _ => ?_) fun _ => (Quiet.ends (.pure 0)).at t
  exact (Ends.seq hassign fun _ => .seq (Quiet.ends (.cg .push)) fun _ => .moreArgs hassign h h' 1).at t

theorem Quiet.addEsp (argc : Nat) : Quiet (if argc > 0 then RainbowOs.Cc.cg (.addEsp (argc * 4)) else Pure.pure ()) :=
  .ite (.cg _) (.pure ())

theorem Quiet.emitBuiltinCall (sysIdx argc : Nat) : Quiet (emitBuiltinCall sysIdx argc) :=
  .ite (.seq (.cg _) fun _ => .seq (.cg _) fun _ => .addEsp argc) (.seq (.cg _) fun _ => .addEsp argc)

theorem Quiet.symFind (name : List UInt8) : Quiet (symFind name) := .read _

theorem Quiet.symAt (r : SymRef) : Quiet (symAt r) := .read _

theorem Quiet.symAddGlobal (name : List UInt8) (kind : SymKind) (dt : DataType) :
    Quiet (symAddGlobal name kind dt) :=
  .seq .get fun _ => .seq (.tell _) fun _ => .seq (.modify fun _ => rfl) fun _ => .pure _

theorem Ends.call (hassign : Ends n assign assign') (h : n ≤ fuel) (h' : n ≤ fuel') (name : List UInt8) :
    Ends n (parseCall assign fuel name) (parseCall assign' fuel' name) := by
  refine .next fun _ => .seq (.args hassign h h') fun argc => .seq (.expect .rparen) fun _ => Quiet.ends ?_
  cases builtinSyscallIndex name with
  | some sysIdx => exact .emitBuiltinCall sysIdx argc
  | none =>
    have hcall : ∀ fn, Quiet (do
        cg (.callSymbol fn)
        if argc > 0 then cg (.addEsp (argc * 4))) := fun _ => .seq (.cg _) fun _ => .addEsp argc
    exact .seq (.read _) fun found => .ite (.seq (.symAddGlobal _ _ _) hcall) (.seq (.pure found) hcall)

theorem Quiet.undeclared : Quiet (do
    RainbowOs.Cc.error "undeclared variable"
    RainbowOs.Cc.cg (.loadNum 0)) := .seq (.error _) fun _ => .cg _

theorem Ends.element (hexpr : Ends n assign assign') (name : List UInt8) :
    Ends n (parseElement assign name) (parseElement assign' name) := by
  refine .seq (Quiet.ends (.symFind name)) fun r => .ite (fun _ => Quiet.ends .undeclared) fun _ => ?_
  refine .seq (Quiet.ends (.refer r _)) fun _ => .seq (Quiet.ends (.symAt r)) fun s => ?_
  refine .seq (Quiet.ends (.loadAddress s)) fun _ => .seq (Quiet.ends (.cg _)) fun _ => .next fun _ => ?_
  refine .seq hexpr fun _ => .seq (Quiet.ends (.symAt r)) fun s => .seq (Quiet.ends (.scaleIndex s)) fun _ => ?_
  refine .seq (Quiet.ends (.cg _)) fun _ => .seq (Quiet.ends (.cg _)) fun _ => ?_
  exact .seq (Quiet.ends (.symAt r)) fun s => .seq (Quiet.ends (.derefElement s)) fun _ => .expect .rbracket

theorem Eats.primary (hassign : Ends n assign assign') (hunary : Ends n unary unary') (h : n ≤ fuel) (h' : n ≤ fuel') :
    Eats (n + 1) (parsePrimaryExpr assign unary fuel) (parsePrimaryExpr assign' unary' fuel') := by
  apply Eats.peek
  intro t
  cases t with
  | numLit _ | charLit _ => exact .take (Quiet.ends (.cg _))
  | strLit str =>
    refine .take (Quiet.ends ?_)
    exact .seq (.cgRead (.addString str) fun c => c.stringPos) fun _ => .cg _
  | ident str =>
    apply EndsAt.take
    refine Ends.seq (Quiet.ends (.copyName str)) fun name => .peek fun next => ?_
    cases next with
    | lparen => exact (Ends.call hassign h h' name).at _
    | lbracket => exact (Ends.element hassign name).at _
    | _ =>
      refine (Quiet.ends ?_).at _
      exact .seq (.symFind name) fun r => .ite .undeclared (.seq (.symAt r) fun s => .loadVariable r s)
  | lparen =>
    apply EndsAt.take
    refine Ends.peek fun next => .ite (fun _ => ?_) fun _ => ?_
    · refine (Ends.next fun _ => .seq ?_ fun _ => .seq (.expect .rparen) fun _ => hunary).at _
      exact .whilePeek rfl (fun _ _ => .skip) h h'
    · exact (Ends.seq hassign fun _ => .expect .rparen).at _
  | _ => exact .after (.error _) fun _ => .take (Quiet.ends (.cg _))

theorem EndsAt.addressOf {t : Tok} : EndsAt t n t.cost parseAddressOf parseAddressOf := by
  refine EndsAt.take (Ends.peek fun next => ?_)
  cases next with
  | ident str =>
    refine (EndsAt.take (Quiet.ends ?_)).keep
    refine .seq (.symFind str) fun r => .ite .undeclared ?_
    exact .seq (.refer r _) fun _ => .seq (.symAt r) fun s => .loadAddress s
  | _ => exact (Quiet.ends (.seq (.error _) fun _ => .cg _)).at _

/-- The recursion is paid for by the operator or the parenthesis before it. -/
theorem Eats.unaryExpr {loops loops' m : Nat} (hassign : Ends m assign assign') (hm : m < loops) (hm' : m < loops')
    (hn : n ≤ m + 1) (h : n ≤ fuel) (h' : n ≤ fuel') :
    Eats n (parseUnaryExpr assign loops fuel) (parseUnaryExpr assign' loops' fuel') := by
  induction n generalizing fuel fuel' with
  | zero => exact fun _ => .zero
  | succ n ih =>
    cases fuel with
    | zero => omega
    | succ fuel =>
    cases fuel' with
    | zero => omega
    | succ fuel' =>
    have hunary := (ih (Nat.le_of_succ_le hn) (Nat.le_of_succ_le_succ h) (Nat.le_of_succ_le_succ h')).ends
    apply Eats.peek
    intro t
    cases t with
    | minus | bang | tilde | star => exact EndsAt.take (Ends.seq hunary fun _ => Quiet.ends (.cg _))
    | amp => exact EndsAt.addressOf
    | _ =>
      refine Eats.seq (.primary (hassign.less (by omega)) hunary (by omega) (by omega)) (fun _ => ?_) _
      exact .whilePeek rfl (fun _ _ => .skip) (by omega) (by omega)

end Expressions

/-- A label of its own, then what goes on with it. -/
theorem Ends.newLabel {n : Nat} {α : Type} {f g : Int → Parse α} (hf : ∀ lbl, Ends n (f lbl) (g lbl)) :
    Ends n (cgNewLabel >>= f) (cgNewLabel >>= g) :=
  Ends.seq (Quiet.ends (.cgRead .newLabel fun c => c.freshLabel)) hf

/-- The jumps after the second operand of `&&` or `||`. -/
theorem quiet_shortCircuit (jump : CgCall) (value other : Int) (lbl : Int) : Quiet (do
    cg jump
    cg (.loadNum value)
    let last ← cgNewLabel
    cg (.jump last)
    cg (.label lbl)
    cg (.loadNum other)
    cg (.label last)) :=
  .seq (.cg _) fun _ => .seq (.cg _) fun _ => .seq (.cgRead .newLabel fun c => c.freshLabel) fun _ =>
    .seq (.cg _) fun _ => .seq (.cg _) fun _ => .seq (.cg _) fun _ => .cg _

section Levels

variable {n : Nat} {unary unary' : Parse Unit} {fuel fuel' : Nat}

theorem EndsAt.binary {t : Tok} {operand operand' : Parse Unit} (hoperand : Ends n operand operand')
    (call : Tok → CgCall) :
    EndsAt t n t.cost (binary operand call) (binary operand' call) := by
  refine EndsAt.take (Ends.less ?_ (Nat.sub_le n t.cost))
  refine .seq (Quiet.ends (.cg _)) fun _ => .seq hoperand fun _ => ?_
  exact Quiet.ends (.seq (.cg _) fun _ => .cg _)

variable (h : n ≤ fuel) (h' : n ≤ fuel')

include h h'

theorem Eats.level {isOp : Tok → Bool} (hop : isOp .eof = false) (call : Tok → CgCall) {operand operand' : Parse Unit}
    (hoperand : Eats n operand operand') : Eats n (level isOp call operand fuel) (level isOp call operand' fuel') :=
  .seq hoperand fun _ => .whilePeek hop (fun _ _ => .binary hoperand.ends call) h h'

variable (hunary : Eats n unary unary')

include hunary

theorem Eats.mulExpr : Eats n (parseMulExpr unary fuel) (parseMulExpr unary' fuel') := .level h h' rfl _ hunary

theorem Eats.addExpr : Eats n (parseAddExpr unary fuel) (parseAddExpr unary' fuel') :=
  .level h h' rfl _ (.mulExpr h h' hunary)

theorem Eats.eqExpr : Eats n (parseEqExpr unary fuel) (parseEqExpr unary' fuel') :=
  .level h h' rfl _ (.level h h' rfl _ (.level h h' rfl _ (.addExpr h h' hunary)))

theorem Eats.bitorExpr : Eats n (parseBitorExpr unary fuel) (parseBitorExpr unary' fuel') :=
  .level h h' rfl _ (.level h h' rfl _ (.level h h' rfl _ (.eqExpr h h' hunary)))

theorem EndsAt.andStep {t : Tok} : EndsAt t n t.cost (andStep unary fuel) (andStep unary' fuel') := by
  refine EndsAt.take (Ends.less (Ends.newLabel fun lbl => ?_) (Nat.sub_le n t.cost))
  refine .seq (Quiet.ends (.cg _)) fun _ => .seq (Eats.bitorExpr h h' hunary).ends fun _ => ?_
  exact (quiet_shortCircuit _ 1 0 lbl).ends

theorem Eats.andExpr : Eats n (parseAndExpr unary fuel) (parseAndExpr unary' fuel') :=
  .seq (.bitorExpr h h' hunary) fun _ => .whilePeek rfl (fun _ _ => .andStep h h' hunary) h h'

theorem EndsAt.orStep {t : Tok} : EndsAt t n t.cost (orStep unary fuel) (orStep unary' fuel') := by
  refine EndsAt.take (Ends.less (Ends.newLabel fun lbl => ?_) (Nat.sub_le n t.cost))
  refine .seq (Quiet.ends (.cg _)) fun _ => .seq (Eats.andExpr h h' hunary).ends fun _ => ?_
  exact (quiet_shortCircuit _ 0 1 lbl).ends

theorem Eats.orExpr : Eats n (parseOrExpr unary fuel) (parseOrExpr unary' fuel') :=
  .seq (.andExpr h h' hunary) fun _ => .whilePeek rfl (fun _ _ => .orStep h h' hunary) h h'

/-- Whatever the operator is, a round of `continue_binops` takes it. -/
theorem EndsAt.binopStep {t : Tok} : EndsAt t n t.cost (binopStep unary fuel) (binopStep unary' fuel') := by
  have heq := (Eats.eqExpr h h' hunary).ends
  have hadd := (Eats.addExpr h h' hunary).ends
  refine .peek (.ite (fun _ => .binary (Eats.mulExpr h h' hunary).ends _) fun _ => ?_)
  refine .ite (fun _ => .binary hunary.ends _) fun _ => .ite (fun _ => .binary hadd _) fun _ => ?_
  refine .ite (fun _ => .andStep h h' hunary) fun _ => .ite (fun _ => .orStep h h' hunary) fun _ => ?_
  refine .ite (fun _ => .binary heq _) fun _ => .ite (fun _ => .binary heq _) fun _ => ?_
  exact .ite (fun _ => .binary heq _) fun _ => .binary hadd _

theorem Ends.continueBinops : Ends n (continueBinops unary fuel) (continueBinops unary' fuel') :=
  .whilePeek rfl (fun _ _ => .binopStep h h' hunary) h h'

end Levels

section Assignments

variable {n : Nat} {assign assign' : Parse Unit} (hassign : Ends n assign assign')

include hassign

theorem Ends.simpleAssign (name : List UInt8) :
    Ends n (parseSimpleAssign assign name) (parseSimpleAssign assign' name) := by
  refine .next fun _ => .seq hassign fun _ => Quiet.ends ?_
  refine .seq (.symFind name) fun r => .ite (.error _) (.seq (.refer r _) fun _ => ?_)
  exact .seq (.symAt r) fun s => .storeScalar s

theorem Ends.compoundAssign (name : List UInt8) :
    Ends n (parseCompoundAssign assign name) (parseCompoundAssign assign' name) := by
  refine .next fun op => .seq (Quiet.ends (.symFind name)) fun r => .ite (fun _ => Quiet.ends (.error _)) fun _ => ?_
  refine .seq (Quiet.ends (.refer r _)) fun _ => .seq (Quiet.ends (.symAt r)) fun s => ?_
  refine .seq (Quiet.ends (.loadScalar s)) fun _ => .seq (Quiet.ends (.cg _)) fun _ => .seq hassign fun _ => ?_
  refine Quiet.ends (.seq (.cg _) fun _ => .seq (.cg _) fun _ => .seq (.refer r _) fun _ => ?_)
  exact .seq (.symAt r) fun s => .storeScalar s

theorem Ends.elementAssign (name : List UInt8) :
    Ends n (parseElementAssign assign name) (parseElementAssign assign' name) := by
  refine .seq (Quiet.ends (.symFind name)) fun r => .ite (fun _ => Quiet.ends (.error _)) fun _ => .next fun _ => ?_
  refine .seq (Quiet.ends (.refer r _)) fun _ => .seq (Quiet.ends (.symAt r)) fun s => ?_
  refine .seq (Quiet.ends (.loadAddress s)) fun _ => .seq (Quiet.ends (.cg _)) fun _ => .seq hassign fun _ => ?_
  refine .seq (Quiet.ends (.symAt r)) fun s => .seq (Quiet.ends (.scaleIndex s)) fun _ => ?_
  refine .seq (Quiet.ends (.cg _)) fun _ => .seq (Quiet.ends (.cg _)) fun _ => .seq (Quiet.ends (.cg _)) fun _ => ?_
  refine .seq (.expect .rbracket) fun _ => .peek fun next => .ite (fun _ => ?_) fun _ => ?_
  · refine (Ends.next fun _ => .seq (Quiet.ends (.cg _)) fun _ => .seq hassign fun _ => Quiet.ends ?_).at next
    exact .seq (.cg _) fun _ => .seq (.symAt r) fun s => .ite (.cg _) (.cg _)
  · refine (Quiet.ends ?_).at next
    exact .seq (.cg _) fun _ => .seq (.cg _) fun _ => .seq (.symAt r) fun s => .derefElement s

omit hassign in
theorem Quiet.loadNamed (name : List UInt8) : Quiet (loadNamed name) :=
  .seq (.symFind name) fun r => .ite .undeclared (.seq (.symAt r) fun s => .ite (.cg _) (.loadVariable r s))

theorem Ends.pointerStore : Ends n (do
    cg .push
    assign
    cg .popIntoEcx
    cg .storeDerefDword) (do
    cg .push
    assign'
    cg .popIntoEcx
    cg .storeDerefDword) :=
  .seq (Quiet.ends (.cg _)) fun _ => .seq hassign fun _ => Quiet.ends (.seq (.cg _) fun _ => .cg _)

end Assignments

/-- An operand of an assignment is parsed after a token of it. -/
theorem Eats.assignExpr {n loops loops' fuel fuel' : Nat} (hl : n ≤ loops) (hl' : n ≤ loops') (h : n ≤ fuel)
    (h' : n ≤ fuel') : Eats n (parseAssignExpr loops fuel) (parseAssignExpr loops' fuel') := by
  induction n generalizing fuel fuel' with
  | zero => exact fun _ => .zero
  | succ n ih =>
    cases fuel with
    | zero => omega
    | succ fuel =>
    cases fuel' with
    | zero => omega
    | succ fuel' =>
    have hassign := (ih (Nat.le_of_succ_le hl) (Nat.le_of_succ_le hl') (Nat.le_of_succ_le_succ h)
      (Nat.le_of_succ_le_succ h')).ends
    have hunary : Eats (n + 1) (parseUnaryExpr (parseAssignExpr loops fuel) loops loops)
        (parseUnaryExpr (parseAssignExpr loops' fuel') loops' loops') :=
      .unaryExpr hassign hl hl' (Nat.le_refl _) hl hl'
    have hless := hunary.less (Nat.le_succ n)
    have hbinops := Ends.continueBinops (Nat.le_of_succ_le hl) (Nat.le_of_succ_le hl') hless
    apply Eats.peek
    intro t
    cases t with
    | ident str =>
      apply EndsAt.take
      refine Ends.seq (Quiet.ends (.copyName str)) fun name => .peek fun next => ?_
      refine .ite (fun _ => (Ends.simpleAssign hassign name).at next) fun _ => ?_
      refine .ite (fun _ => (Ends.compoundAssign hassign name).at next) fun _ => ?_
      refine .ite (fun _ => (Ends.elementAssign hassign name).at next) fun _ => ?_
      refine .ite (fun _ => ?_) fun _ => (Ends.seq (Quiet.ends (.loadNamed name)) fun _ => hbinops).at next
      exact (Ends.seq (.call hassign (Nat.le_of_succ_le hl) (Nat.le_of_succ_le hl') name) fun _ => hbinops).at next
    | star =>
      apply EndsAt.take
      refine Ends.seq hless.ends fun _ => .peek fun next => .ite (fun _ => ?_) fun _ => ?_
      · exact (Ends.next fun _ => .pointerStore hassign).at next
      · exact (Ends.seq (Quiet.ends (.cg _)) fun _ => hbinops).at next
    | _ => exact Eats.orExpr hl hl' hunary _

theorem Eats.expr {n fuel fuel' : Nat} (h : n ≤ fuel) (h' : n ≤ fuel') : Eats n (parseExpr fuel) (parseExpr fuel') :=
  .assignExpr h h' h h'

/-! ## Statements -/

/-- A statement takes its token where no error has been reported, and ends anyway. -/
structure Steps (n : Nat) (p q : Parse Unit) : Prop where
  ends : Ends n p q
  clean : ∀ t, Settles (fun s : Compiler => s.lex.left) Stop.fuel n
    (fun s => s.lex.next.1 = t ∧ s.hadError = none) t.cost p q

theorem Steps.less {n m : Nat} {p q : Parse Unit} (h : Steps n p q) (hm : m ≤ n) : Steps m p q :=
  ⟨h.ends.less hm, fun t => (h.clean t).mono hm fun _ hs => hs⟩

section Statements

variable {n : Nat} {expr expr' stmt stmt' : Parse Unit} {fuel fuel' : Nat}

/-- The statements of a block come to an end: after an error there is none, and before it each takes a token. -/
theorem Ends.statements (hstmt : Steps n stmt stmt') (h : n ≤ fuel) (h' : n ≤ fuel') :
    Ends n (parseStatements stmt fuel) (parseStatements stmt' fuel') := by
  induction n generalizing fuel fuel' with
  | zero => exact .zero
  | succ n ih =>
    cases fuel with
    | zero => omega
    | succ fuel =>
    cases fuel' with
    | zero => omega
    | succ fuel' =>
    refine .peek fun t => Settles.after (Q := fun a s => a = s ∧ s.lex.next.1 = t)
      (fun s hs => Prog.wp_get ⟨Nat.le_refl _, rfl, hs⟩) fun a => Settles.ite (fun hgo => ?_) fun _ => ?_
    · have hround := (hstmt.clean t).mono (R := fun s => a = s ∧ s.lex.next.1 = t) (Nat.le_refl _)
        (fun s hs => ⟨hs.2, hs.1 ▸ hgo.2.2⟩)
      refine (Settles.seq hround fun _ => ?_).keep
      rw [Tok.cost_of_ne hgo.2.1]
      exact ih (hstmt.less (Nat.le_succ n)) (Nat.le_of_succ_le_succ h) (Nat.le_of_succ_le_succ h')
    · exact Settles.pure _

theorem Eats.block (hstmt : Steps n stmt stmt') (h : n ≤ fuel) (h' : n ≤ fuel') :
    EndsAt .lbrace (n + 1) 1 (parseBlock stmt fuel) (parseBlock stmt' fuel') :=
  Settles.seq (Eats.expect .lbrace .lbrace) fun _ => Ends.seq (.statements hstmt h h') fun _ => .expect .rbrace

theorem Ends.block (hstmt : Steps n stmt stmt') (h : n ≤ fuel) (h' : n ≤ fuel') :
    Ends n (parseBlock stmt fuel) (parseBlock stmt' fuel') :=
  .seq (.expect .lbrace) fun _ => .seq (.statements hstmt h h') fun _ => .expect .rbrace

section Parts

variable (hexpr : Ends n expr expr') (hstmt : Ends n stmt stmt')

include hexpr

/-- An expression that may be missing, and what follows. -/
theorem Ends.optional {c : Tok → Prop} [DecidablePred c] {e : Parse Unit} (he : Quiet e) {f f' : Unit → Parse Unit}
    (hf : ∀ u, Ends n (f u) (f' u)) : Ends n
      (lexPeek >>= fun t => if c t then expr >>= f else e >>= f)
      (lexPeek >>= fun t => if c t then expr' >>= f' else e >>= f') :=
  .peek fun t => (Ends.branch hexpr (Quiet.ends he) hf).at t

include hstmt

theorem Ends.ifStmt : Ends n (parseIf expr stmt) (parseIf expr' stmt') := by
  refine .seq (.expect .lparen) fun _ => .seq hexpr fun _ => .seq (.expect .rparen) fun _ => .newLabel fun lbl => ?_
  refine .seq (Quiet.ends (.cg _)) fun _ => .seq hstmt fun _ => .peek fun t => .ite (fun _ => ?_) fun _ => ?_
  · refine (Ends.next fun _ => .newLabel fun last => .seq (Quiet.ends (.cg _)) fun _ => ?_).at t
    exact .seq (Quiet.ends (.cg _)) fun _ => .seq hstmt fun _ => Quiet.ends (.cg _)
  · exact (Quiet.ends (.cg _)).at t

omit hexpr hstmt in
theorem Quiet.enterLoop (breakLabel continueLabel : Int) : Quiet (enterLoop breakLabel continueLabel) :=
  .modify fun s => by
    split <;> rfl

omit hexpr hstmt in
theorem Quiet.leaveLoop : Quiet leaveLoop := .modify fun _ => rfl

theorem Ends.whileStmt : Ends n (parseWhile expr stmt) (parseWhile expr' stmt') := by
  refine .newLabel fun top => .newLabel fun last => .seq (Quiet.ends (.enterLoop _ _)) fun _ => ?_
  refine .seq (Quiet.ends (.cg _)) fun _ => .seq (.expect .lparen) fun _ => .seq hexpr fun _ => ?_
  refine .seq (.expect .rparen) fun _ => .seq (Quiet.ends (.cg _)) fun _ => .seq hstmt fun _ => Quiet.ends ?_
  exact .seq (.cg _) fun _ => .seq (.cg _) fun _ => .leaveLoop

theorem Ends.forStmt : Ends n (parseFor expr stmt) (parseFor expr' stmt') := by
  refine .seq (.expect .lparen) fun _ => .optional hexpr (.pure ()) fun _ => .seq (.expect .semi) fun _ => ?_
  refine .newLabel fun top => .newLabel fun last => .newLabel fun stepLabel => ?_
  refine .seq (Quiet.ends (.enterLoop _ _)) fun _ => .seq (Quiet.ends (.cg _)) fun _ => ?_
  refine .optional hexpr (.cg _) fun _ => .seq (.expect .semi) fun _ => .seq (Quiet.ends (.cg _)) fun _ => ?_
  refine .newLabel fun body => .seq (Quiet.ends (.cg _)) fun _ => .seq (Quiet.ends (.cg _)) fun _ => ?_
  refine .optional hexpr (.pure ()) fun _ => .seq (.expect .rparen) fun _ => .seq (Quiet.ends (.cg _)) fun _ => ?_
  refine .seq (Quiet.ends (.cg _)) fun _ => .seq hstmt fun _ => Quiet.ends ?_
  exact .seq (.cg _) fun _ => .seq (.cg _) fun _ => .leaveLoop

theorem Ends.doStmt : Ends n (parseDoWhile expr stmt) (parseDoWhile expr' stmt') := by
  refine .newLabel fun top => .newLabel fun last => .newLabel fun cont => ?_
  refine .seq (Quiet.ends (.enterLoop _ _)) fun _ => .seq (Quiet.ends (.cg _)) fun _ => .seq hstmt fun _ => ?_
  refine .seq (Quiet.ends (.cg _)) fun _ => .seq (.expect _) fun _ => .seq (.expect _) fun _ => .seq hexpr fun _ => ?_
  refine .seq (.expect _) fun _ => .seq (.expect _) fun _ => Quiet.ends ?_
  exact .seq (.cg _) fun _ => .seq (.cg _) fun _ => .leaveLoop

omit hstmt in
theorem Ends.returnStmt : Ends n (parseReturn expr) (parseReturn expr') :=
  .optional hexpr (.pure ()) fun _ => .seq (.expect .semi) fun _ => Quiet.ends (.cg _)

omit hstmt in
theorem Ends.localInit (r : SymRef) : Ends n (parseLocalInit expr r) (parseLocalInit expr' r) := by
  apply Ends.peek
  intro t
  cases t with
  | lbracket =>
    refine (EndsAt.take (Ends.peek fun size => ?_)).keep
    cases size with
    | numLit k =>
      refine (Ends.next fun _ => .seq (Quiet.ends (.setSym r _)) fun _ => ?_).at _
      exact .seq (.expect .rbracket) fun _ => Quiet.ends (.pure true)
    | _ => exact (Quiet.ends (.seq (.error _) fun _ => .pure false)).at _
  | assign =>
    refine (Ends.next fun _ => .seq hexpr fun _ => Quiet.ends ?_).at _
    exact .seq (.refer r _) fun _ => .seq (.symAt r) fun s => .seq (.cg _) fun _ => .pure true
  | _ => exact (Quiet.ends (.pure true)).at _

omit hexpr hstmt in
theorem Quiet.symAddLocal (name : List UInt8) (kind : SymKind) (dt : DataType) :
    Quiet (symAddLocal name kind dt) :=
  .seq .get fun _ => .seq (.tell _) fun _ => .seq (.modify fun _ => rfl) fun _ => .pure _

omit hstmt in
theorem Ends.localDecl (dt : DataType) (h : n ≤ fuel) (h' : n ≤ fuel') :
    Ends n (parseLocalDecl expr dt fuel) (parseLocalDecl expr' dt fuel') := by
  induction n generalizing fuel fuel' with
  | zero => exact .zero
  | succ n ih =>
    cases fuel with
    | zero => omega
    | succ fuel =>
    cases fuel' with
    | zero => omega
    | succ fuel' =>
    have hless := hexpr.less (Nat.le_succ n)
    have hnext := ih hless (Nat.le_of_succ_le_succ h) (Nat.le_of_succ_le_succ h')
    apply Ends.peek
    intro t
    cases t with
    | ident str =>
      refine (EndsAt.take ?_).keep
      refine Ends.seq (Quiet.ends (.copyName str)) fun name => .seq (Quiet.ends (.symAddLocal name _ dt)) fun r => ?_
      refine .ite (fun _ => Quiet.ends (.error _)) fun _ => .seq (.localInit hless r) fun more => ?_
      refine .ite (fun _ => .peek fun next => .ite (fun _ => (Ends.next fun _ => hnext).at next) fun _ => ?_)
        fun _ => ?_
      · exact (Ends.expect .semi).at next
      · exact Quiet.ends (.pure ())
    | _ => exact (Quiet.ends (.error _)).at _

end Parts

theorem EndsAt.loopJump {t : Tok} (labels : Compiler → Nat → Int) (msg : String) :
    EndsAt t n t.cost (parseLoopJump labels msg) (parseLoopJump labels msg) := by
  refine EndsAt.take (Ends.seq (.expect .semi) fun _ => Quiet.ends ?_)
  refine .seq .get fun s => .ite ?_ (.error msg)
  exact .ite (.seq (.tell _) fun _ => .cg _) (.cg _)

theorem Eats.statementBody (hexpr : Eats (n + 1) expr expr') (hstmt : Steps n stmt stmt') (h : n + 1 ≤ fuel)
    (h' : n + 1 ≤ fuel') : Eats (n + 1) (parseStatementBody expr stmt fuel) (parseStatementBody expr' stmt' fuel') := by
  have he := hexpr.ends.less (Nat.le_succ n)
  have hs := hstmt.ends
  apply Eats.peek
  intro t
  cases t with
  | lbrace => exact Eats.block hstmt (Nat.le_of_succ_le h) (Nat.le_of_succ_le h')
  | ifTok => exact EndsAt.take (Ends.ifStmt he hs)
  | whileTok => exact EndsAt.take (Ends.whileStmt he hs)
  | forTok => exact EndsAt.take (Ends.forStmt he hs)
  | doTok => exact EndsAt.take (Ends.doStmt he hs)
  | returnTok => exact EndsAt.take (Ends.returnStmt he)
  | breakTok => exact EndsAt.loopJump _ _
  | continueTok => exact EndsAt.loopJump _ _
  | semi => exact EndsAt.skip
  | int | char | void => exact Eats.seq .type_ (fun dt => .localDecl hexpr.ends dt h h') _
  | _ => exact Eats.seq hexpr (fun _ => .expect .semi) _

/-- A statement is paid for by its first token, or there has been an error and it is none. -/
theorem Steps.statement {loops loops' : Nat} (hl : n ≤ loops) (hl' : n ≤ loops') (h : n ≤ fuel) (h' : n ≤ fuel') :
    Steps n (parseStatement loops fuel) (parseStatement loops' fuel') := by
  induction n generalizing fuel fuel' with
  | zero => exact ⟨.zero, fun _ => .zero⟩
  | succ n ih =>
    cases fuel with
    | zero => omega
    | succ fuel =>
    cases fuel' with
    | zero => omega
    | succ fuel' =>
    have hbody := Eats.statementBody (.expr hl hl') (ih (Nat.le_of_succ_le hl) (Nat.le_of_succ_le hl')
      (Nat.le_of_succ_le_succ h) (Nat.le_of_succ_le_succ h')) hl hl'
    refine ⟨.seq (Quiet.ends .get) fun a => .ite (fun _ => hbody.ends) fun _ => Quiet.ends (.pure ()), fun t => ?_⟩
    refine Settles.after (Q := fun a s => a = s ∧ s.lex.next.1 = t ∧ s.hadError = none)
      (fun s hs => Prog.wp_get ⟨Nat.le_refl _, rfl, hs⟩) fun a => ?_
    by_cases hclean : a.hadError = none
    · rw [if_pos hclean, if_pos hclean]
      exact (hbody t).mono (Nat.le_refl _) fun _ hs => hs.2.1
    · intro s hs
      exact absurd (hs.1 ▸ hs.2.2) hclean

end Statements

/-! ## Declarations -/

section Declarations

variable {n : Nat} {fuel fuel' : Nat}

theorem Ends.params (h : n ≤ fuel) (h' : n ≤ fuel') : Ends n (parseParams fuel) (parseParams fuel') := by
  induction n generalizing fuel fuel' with
  | zero => exact .zero
  | succ n ih =>
    cases fuel with
    | zero => omega
    | succ fuel =>
    cases fuel' with
    | zero => omega
    | succ fuel' =>
    have hnext := ih (Nat.le_of_succ_le_succ h) (Nat.le_of_succ_le_succ h')
    refine Ends.seq Eats.type_.ends fun pt => .peek fun t => ?_
    cases t with
    | ident str =>
      refine (EndsAt.take ?_).keep
      refine Ends.seq (Quiet.ends (.symAddLocal str _ pt)) fun _ => .peek fun next => .ite (fun _ => ?_) fun _ => ?_
      · exact (Ends.next fun _ => hnext).at next
      · exact (Quiet.ends (.pure ())).at next
    | _ => exact (Quiet.ends (.error _)).at _

theorem Quiet.symKept (name : List UInt8) (found : SymRef) : Quiet (symKept name found) :=
  .seq .get fun _ => .seq (.tell _) fun _ => .pure _

theorem Ends.function (h : n ≤ fuel) (h' : n ≤ fuel') (name : List UInt8) (dt : DataType) :
    Ends n (parseFunction fuel name dt) (parseFunction fuel' name dt) := by
  refine .seq (Quiet.ends (.read _)) fun found =>
    .branch (Quiet.ends (.symAddGlobal name _ dt)) (Quiet.ends (.symKept name found)) fun fn => ?_
  refine .seq (Quiet.ends (.setSym fn _)) fun _ => .seq (Quiet.ends (.modify fun _ => rfl)) fun _ => ?_
  refine .optional (.params h h') (.pure ()) fun _ => .seq (.expect .rparen) fun _ => ?_
  refine .seq (Quiet.ends (.seq .get fun s => .seq (.setSym fn _) fun _ => .cg _)) fun _ => ?_
  exact .seq (.block (.statement h h' h h') h h') fun _ => Quiet.ends (.cg _)

theorem Ends.globalSize (r : SymRef) : Ends n (parseGlobalSize r) (parseGlobalSize r) := by
  refine .peek fun t => .ite (fun _ => ?_) fun _ => (Quiet.ends (.pure ())).at t
  refine (Ends.next fun _ => .peek fun size => ?_).at t
  cases size with
  | numLit k => exact (Ends.next fun _ => .seq (Quiet.ends (.setSym r _)) fun _ => .expect .rbracket).at _
  | _ => exact (Ends.seq (Quiet.ends (.pure ())) fun _ => .expect .rbracket).at _

theorem Ends.moreGlobals (dt : DataType) (h : n ≤ fuel) (h' : n ≤ fuel') :
    Ends n (parseMoreGlobals dt fuel) (parseMoreGlobals dt fuel') := by
  induction n generalizing fuel fuel' with
  | zero => exact .zero
  | succ n ih =>
    cases fuel with
    | zero => omega
    | succ fuel =>
    cases fuel' with
    | zero => omega
    | succ fuel' =>
    have hnext := ih (Nat.le_of_succ_le_succ h) (Nat.le_of_succ_le_succ h')
    refine .peek fun t => .ite (fun ht => ?_) fun _ => (Ends.expect .semi).at t
    subst ht
    refine (EndsAt.take (Ends.peek fun name => ?_)).keep
    cases name with
    | ident str =>
      refine (Ends.next fun _ => .seq (Quiet.ends (.symAddGlobal str _ dt)) fun r => .ite (fun _ => ?_)
        fun _ => ?_).at _
      · refine .seq (Quiet.ends (.cgRead (.allocGlobal dt.size) fun c => c.globalDataOffset)) fun offset => ?_
        exact .seq (Quiet.ends (.setSym r _)) fun _ => hnext
      · exact .seq (Quiet.ends (.pure ())) fun _ => hnext
    | _ => exact (Quiet.ends (.error _)).at _

theorem Ends.globalVar (h : n ≤ fuel) (h' : n ≤ fuel') (name : List UInt8) (dt : DataType) :
    Ends n (parseGlobalVar fuel name dt) (parseGlobalVar fuel' name dt) := by
  refine .seq (Quiet.ends (.symAddGlobal name _ dt)) fun r => .ite (fun _ => Quiet.ends (.error _)) fun _ => ?_
  refine .seq (.globalSize r) fun _ => .seq (Quiet.ends (.symAt r)) fun s => ?_
  refine .seq (Quiet.ends (.cgRead (.allocGlobal (s.bytes dt)) fun c => c.globalDataOffset)) fun offset => ?_
  exact .seq (Quiet.ends (.setSym r _)) fun _ => .moreGlobals dt h h'

/-- A declaration takes its first token, whether or not it is a type. -/
theorem Ends.declarations {loops loops' : Nat} (hl : n ≤ loops) (hl' : n ≤ loops') (h : n ≤ fuel) (h' : n ≤ fuel') :
    Ends n (parseDeclarations loops fuel) (parseDeclarations loops' fuel') := by
  induction n generalizing fuel fuel' with
  | zero => exact .zero
  | succ n ih =>
    cases fuel with
    | zero => omega
    | succ fuel =>
    cases fuel' with
    | zero => omega
    | succ fuel' =>
    have hl₁ := Nat.le_of_succ_le hl
    have hl₁' := Nat.le_of_succ_le hl'
    have hnext := ih hl₁ hl₁' (Nat.le_of_succ_le_succ h) (Nat.le_of_succ_le_succ h')
    refine .peek fun t => .after .get fun a => .ite (fun hgo => ?_) fun _ => (Quiet.ends (.pure ())).at t
    refine (Settles.seq (Eats.type_ t) fun dt => ?_).keep
    rw [Tok.cost_of_ne hgo.1]
    refine Ends.peek fun next => ?_
    cases next with
    | ident str =>
      refine (Ends.next fun _ => .seq (Quiet.ends (.copyName str)) fun name => .peek fun paren => ?_).at _
      refine .ite (fun _ => ?_) fun _ => ?_
      · exact (Ends.next fun _ => .seq (.function hl₁ hl₁' name dt) fun _ => hnext).at paren
      · exact (Ends.seq (.globalVar hl₁ hl₁' name dt) fun _ => hnext).at paren
    | _ => exact (Quiet.ends (.error _)).at _

end Declarations

/-- There is one run of `parse_program` on a text: it does not run out of fuel, and every fuel
above the length of the text has it. -/
theorem parseProgram_ends (s : Compiler) (source : List UInt8) :
    ∃ r, r.out ≠ .halt Stop.fuel ∧ ∀ fuel, source.length < fuel → parseProgram fuel (s.init source) = r := by
  have hsettles : ∀ m m', source.length + 1 ≤ m → source.length + 1 ≤ m' →
      Ends (source.length + 1) (parseProgram m) (parseProgram m') := fun m m' h h' =>
    .seq (Quiet.ends (.modify fun _ => rfl)) fun _ => .declarations h h' h h'
  have hrun := Settles.run hsettles (s := s.init source) trivial (Nat.lt_succ_self source.length)
  exact ⟨_, hrun.1, fun fuel h => hrun.2 fuel h⟩

end RainbowOs.Cc
