import RainbowOs.Cc.Reading

/-!
# Precedence climbing reads the expressions of C

The functions from `parse_mul_expr` to `parse_or_expr` are ten rounds of one
scheme, `climb`: an operand of the round below, then a loop over the
operators of the round. `Expr.Climbs` says what every round does with the
tokens of an expression that binds tightly enough for it: it makes the
expression's calls, and is left in its loop, which goes on or ends at the
token that follows. The induction is on the expression; the left operand of
an operator leaves the parser in the very loop that reads the operator.
-/

namespace RainbowOs.Cc

open RainbowOs.Lib

/-! ## The ten rounds -/

/-- The operators of a round. -/
def isOpOf (m : Nat) (t : Tok) : Bool :=
  match m with
  | 0 => isMulOp t
  | 1 => isAddOp t
  | 2 => isShiftOp t
  | 3 => isRelOp t
  | 4 => isEqOp t
  | 5 => t = .amp
  | 6 => t = .caret
  | 7 => t = .pipe
  | 8 => t = .and
  | _ => t = .or

/-- The call for an operator of a round. -/
def callOf (m : Nat) (t : Tok) : CgCall :=
  match m with
  | 0 => mulCall t
  | 1 => addCall t
  | 2 => shiftCall t
  | 3 | 4 => .cmp t
  | 5 => .bitand
  | 6 => .bitxor
  | _ => .bitor

section Rounds

variable (unary : Parse Unit) (fuel : Nat)

/-- One step of the loop of a round. -/
def climbStep (m : Nat) (operand : Parse Unit) : Parse Unit :=
  match m with
  | 8 => andStep unary fuel
  | 9 => orStep unary fuel
  | m => binary operand (callOf m)

/-- The first `n` rounds. -/
def climb : (n : Nat) → Parse Unit
  | 0 => unary
  | m + 1 => do
    climb m
    whilePeek (isOpOf m) (climbStep unary fuel m (climb m)) fuel

theorem climb_mul : climb unary fuel 1 = parseMulExpr unary fuel := rfl
theorem climb_add : climb unary fuel 2 = parseAddExpr unary fuel := rfl
theorem climb_eq : climb unary fuel 5 = parseEqExpr unary fuel := rfl
theorem climb_bitor : climb unary fuel 8 = parseBitorExpr unary fuel := rfl
theorem climb_and : climb unary fuel 9 = parseAndExpr unary fuel := rfl
theorem climb_or : climb unary fuel 10 = parseOrExpr unary fuel := rfl

/-- The loop of the last round, with `j` of its rounds done. -/
def climbLoop (n j : Nat) : Parse Unit :=
  match n with
  | 0 => pure ()
  | m + 1 => whilePeek (isOpOf m) (climbStep unary fuel m (climb unary fuel m)) (fuel - j)

end Rounds

/-! ## Operators and tokens -/

namespace BinOp

theorem isOpOf_tok (op : BinOp) {m : Nat} (hm : m < 10) :
    isOpOf m op.tok = true ↔ m = op.rank := by
  revert m
  cases op <;> decide

theorem callOf_tok (op : BinOp) (hop : op.jumps = false) : callOf op.rank op.tok = op.call := by
  cases op <;> first | rfl | cases hop

theorem rank_lt (op : BinOp) : op.rank < 10 := by cases op <;> decide

end BinOp

/-- A variable that the program may use as an `int`. -/
structure Symbols.Scalar (t : Symbols) (x : List UInt8) : Prop where
  name : x.length ≤ symNameMax
  found : t.find x ≠ .null
  size : (t.deref (t.find x)).size ≤ 0
  kind : (t.deref (t.find x)).kind ≠ .function
  dataType : (t.deref (t.find x)).dataType = .int

/-- Every variable of the expression is a declared scalar. -/
def Expr.Declared (t : Symbols) (e : Expr) : Prop := ∀ x ∈ e.vars, t.Scalar x

/-- The token does not make a call, an element or a postfix operator of what is before it. -/
def Tok.endsOperand (t : Tok) : Bool :=
  t ≠ .lparen && t ≠ .lbracket && t ≠ .inc && t ≠ .dec

/-- The token after an operand of the first `n` rounds. -/
structure Tok.Follows (n : Nat) (t : Tok) : Prop where
  ends : t.endsOperand = true
  loose : ∀ m, m + 1 < n → isOpOf m t = false

theorem BinOp.follows (op : BinOp) {n : Nat} (hn : n ≤ op.rank + 1) : op.tok.Follows n := by
  refine ⟨by cases op <;> rfl, fun m hm => ?_⟩
  have hlt := op.rank_lt
  have hne := (op.isOpOf_tok (m := m) (by omega)).not.mpr (by omega)
  exact Bool.eq_false_iff.mpr hne

theorem Tok.Follows.mono {n m : Nat} {t : Tok} (h : t.Follows n) (hm : m ≤ n) : t.Follows m :=
  ⟨h.ends, fun k hk => h.loose k (by omega)⟩

namespace Expr

theorem rank_le (e : Expr) : e.rank ≤ 10 := by
  cases e with
  | binary op l r => exact op.rank_lt
  | _ => exact Nat.zero_le _

/-- How many rounds of its own loop an expression of the round takes. -/
def spine (m : Nat) : Expr → Nat
  | binary op l _ => if op.rank = m then l.spine m + 1 else 0
  | _ => 0

theorem tokens_pos (e : Expr) : 0 < e.tokens.length := by
  cases e with
  | binary op l r =>
    rw [tokens, List.length_append, List.length_cons]
    omega
  | _ => exact Nat.succ_pos _

theorem spine_lt (m : Nat) (e : Expr) : e.spine m < e.tokens.length := by
  induction e with
  | binary op l r hl hr =>
    simp only [spine, tokens, List.length_append, List.length_cons]
    split <;> omega
  | _ => exact tokens_pos _

/-- How many labels the calls of an expression make. -/
theorem fresh_calls (t : Symbols) (n : Nat) (e : Expr) :
    ((e.calls t n).map CgCall.fresh).sum = e.labels := by
  induction e generalizing n with
  | num k => rfl
  | var x =>
    unfold calls loadCall
    split <;> rfl
  | paren e ih => exact ih n
  | unary op e ih =>
    rw [calls, List.map_append, List.sum_append, ih]
    cases op <;> rfl
  | binary op l r hl hr =>
    rw [calls, List.map_append, List.sum_append, hl, labels]
    generalize hn : (if op.jumps then _ else _ : Nat) = k
    have hright := hr k
    cases op <;> simp [rightCalls, shortCircuit, CgCall.fresh, BinOp.call, BinOp.jumps, hright] <;> omega

theorem spine_eq_zero {m : Nat} {e : Expr} (h : e.rank ≤ m) : e.spine m = 0 := by
  cases e with
  | binary op l r => exact if_neg (by rw [rank] at h; omega)
  | _ => rfl

/-- The first token of an expression. -/
theorem head_tokens (e : Expr) : ∃ t ts, e.tokens = t :: ts ∧ isType t = false ∧ t ≠ .star ∧
    (e.headed = false → ∀ x, t ≠ .ident x) := by
  induction e with
  | num n => exact ⟨_, _, rfl, rfl, nofun, fun _ _ => nofun⟩
  | var x => exact ⟨_, _, rfl, rfl, nofun, nofun⟩
  | paren e ih => exact ⟨_, _, rfl, rfl, nofun, fun _ _ => nofun⟩
  | unary op e ih =>
    refine ⟨_, _, rfl, ?_⟩
    cases op <;> exact ⟨rfl, nofun, fun _ _ => nofun⟩
  | binary op l r hl hr =>
    obtain ⟨t, ts, htokens, ht⟩ := hl
    exact ⟨t, ts ++ op.tok :: r.tokens, by rw [tokens, htokens, List.cons_append], ht⟩

end Expr

/-! ## One round -/

namespace Takes

variable {s : Compiler} {calls : List CgCall} {rest rest' : Stream' Tok} {k : Parse Unit}

theorem cgNewLabel {f : Int → Parse Unit} (hroom : s.cg.numLabels < cgLabelMax)
    (h : ∀ s', After s [.newLabel] s.lex.stream s' →
      Takes (f s.cg.numLabels) s' calls rest' k) :
    Takes (cgNewLabel >>= f) s (.newLabel :: calls) rest' k := by
  have hfresh : s.cg.freshLabel = s.cg.numLabels := if_neg (by omega)
  refine step (a := (s.cg.numLabels : Int)) [.emit .newLabel]
    { s with cg := CgCall.newLabel.run s.cg } ?_ ⟨rfl, rfl⟩ h
  rw [← hfresh]
  rfl

theorem cg_last (call : CgCall) : Takes (RainbowOs.Cc.cg call) s [call] s.lex.stream (pure ()) :=
  ⟨{ s with cg := call.run s.cg }, [.emit call], rfl, rfl, rfl, rfl⟩

end Takes

section Climb

variable {unary : Parse Unit} {fuel : Nat}

/-- Round `n` makes the calls of the expression and is left in its loop. -/
def Expr.Climbs (unary : Parse Unit) (fuel n : Nat) (e : Expr) : Prop :=
  ∀ ⦃s : Compiler⦄ ⦃t : Tok⦄ ⦃rest : Stream' Tok⦄, s.lex.stream = e.tokens ++ₛ Stream'.cons t rest →
    t.Follows n → e.Declared s.syms → s.cg.numLabels + e.labels ≤ cgLabelMax →
      Takes (climb unary fuel n) s (e.calls s.syms s.cg.numLabels) (Stream'.cons t rest)
        (climbLoop unary fuel n (e.spine (n - 1)))

/-- The loop of a round ends at a token that is none of its operators. -/
theorem climbLoop_end {n j : Nat} {s : Compiler} {t : Tok} {rest : Stream' Tok}
    (hs : s.lex.stream = Stream'.cons t rest) (ht : t.Follows (n + 1)) (hj : j < fuel) :
    Takes (climbLoop unary fuel n j) s [] (Stream'.cons t rest) (pure ()) := by
  cases n with
  | zero =>
    rw [← hs]
    exact .refl _ s
  | succ m => exact .whilePeek_end hs (ht.loose m (Nat.lt_succ_self _)) (by omega)

namespace Expr.Climbs

variable {e : Expr} {n : Nat}

/-- The whole round, where no operator of it follows. -/
theorem done (h : e.Climbs unary fuel n) (hfuel : e.tokens.length < fuel) {s : Compiler} {t : Tok}
    {rest : Stream' Tok} (hs : s.lex.stream = e.tokens ++ₛ Stream'.cons t rest)
    (ht : t.Follows (n + 1)) (hd : e.Declared s.syms)
    (hl : s.cg.numLabels + e.labels ≤ cgLabelMax) :
    Takes (climb unary fuel n) s (e.calls s.syms s.cg.numLabels) (Stream'.cons t rest) (pure ()) := by
  have hj := e.spine_lt (n - 1)
  rw [← List.append_nil (e.calls s.syms s.cg.numLabels)]
  apply (h hs (ht.mono (Nat.le_succ n)) hd hl).trans
  intro s' hs'
  exact climbLoop_end hs'.stream ht (by omega)

/-- The next round reads what this one reads. -/
theorem succ (h : e.Climbs unary fuel n) (hn : e.rank ≤ n) (hfuel : e.tokens.length < fuel) :
    e.Climbs unary fuel (n + 1) := by
  intro s t rest hs ht hd hl
  rw [Nat.add_sub_cancel, spine_eq_zero hn]
  exact (h.done hfuel hs ht hd hl).bind_pure

theorem le (h : e.Climbs unary fuel n) (hn : e.rank ≤ n) (hfuel : e.tokens.length < fuel) :
    ∀ {m : Nat}, n ≤ m → e.Climbs unary fuel m := by
  intro m hm
  induction hm with
  | refl => exact h
  | step hm ih => exact ih.succ (Nat.le_trans hn hm) hfuel

end Expr.Climbs

/-! ## Operators -/

/-- The labels that there are after some calls. -/
theorem After.numLabels {s s' : Compiler} {rest : Stream' Tok} {calls : List CgCall}
    (h : After s calls rest s') (k : Nat) (hk : (calls.map CgCall.fresh).sum = k)
    (hl : s.cg.numLabels + k ≤ cgLabelMax) : s'.cg.numLabels = s.cg.numLabels + k := by
  subst hk
  rw [h.cg, runCalls_numLabels hl]

section Right

variable {op : BinOp} {r : Expr} {s : Compiler} {t : Tok} {rest : Stream' Tok}

/-- The step of a strict operator, with a right operand of any round. -/
theorem binary_takes_at {n : Nat} {call : Tok → CgCall} (hcall : call op.tok = op.call)
    (hr : r.Climbs unary fuel n) (hfuel : r.tokens.length < fuel)
    (hs : s.lex.stream = Stream'.cons op.tok (r.tokens ++ₛ Stream'.cons t rest))
    (ht : t.Follows (n + 1)) (hd : r.Declared s.syms)
    (hl : s.cg.numLabels + r.labels ≤ cgLabelMax) :
    Takes (binary (climb unary fuel n) call) s
      (.push :: (r.calls s.syms s.cg.numLabels ++ [.popIntoEcx, op.call])) (Stream'.cons t rest)
      (pure ()) := by
  apply Takes.lexNext hs
  intro s₁ h₁
  apply Takes.cg .push
  intro s₂ h₂
  have hsyms : s₂.syms = s.syms := h₂.syms.trans h₁.syms
  have hlabels : s₂.cg.numLabels = s.cg.numLabels :=
    (h₁.trans h₂).numLabels 0 rfl (by omega)
  rw [← hsyms, ← hlabels]
  apply Takes.trans
  · exact (hr.done hfuel (h₂.stream.trans h₁.stream) ht (hsyms ▸ hd) (hlabels ▸ hl)).bind_pure
  intro s₃ h₃
  apply Takes.cg .popIntoEcx
  intro s₄ h₄
  rw [hcall, ← h₃.stream, ← h₄.stream]
  exact .cg_last op.call

/-- The step of a strict operator. -/
theorem binary_takes (hop : op.jumps = false) (hr : r.Climbs unary fuel op.rank)
    (hfuel : r.tokens.length < fuel)
    (hs : s.lex.stream = Stream'.cons op.tok (r.tokens ++ₛ Stream'.cons t rest))
    (ht : t.Follows (op.rank + 1)) (hd : r.Declared s.syms)
    (hl : s.cg.numLabels + r.labels ≤ cgLabelMax) :
    Takes (binary (climb unary fuel op.rank) (callOf op.rank)) s
      (.push :: (r.calls s.syms s.cg.numLabels ++ [.popIntoEcx, op.call])) (Stream'.cons t rest)
      (pure ()) :=
  binary_takes_at (op.callOf_tok hop) hr hfuel hs ht hd hl

/-- The step of `&&` and of `||`, from the label on: `jump` where an operand decides. -/
theorem shortCircuit_takes (jump : Int → CgCall) (hjump : ∀ id, (jump id).fresh = 0)
    (decided other : Int) {m : Nat} {tok : Tok} (hr : r.Climbs unary fuel m)
    (hfuel : r.tokens.length < fuel)
    (hs : s.lex.stream = Stream'.cons tok (r.tokens ++ₛ Stream'.cons t rest))
    (ht : t.Follows (m + 1)) (hd : r.Declared s.syms)
    (hl : s.cg.numLabels + (r.labels + 2) ≤ cgLabelMax) :
    Takes (do
      let _ ← lexNext
      let lbl ← cgNewLabel
      cg (jump lbl)
      climb unary fuel m
      cg (jump lbl)
      cg (.loadNum other)
      let last ← cgNewLabel
      cg (.jump last)
      cg (.label lbl)
      cg (.loadNum decided)
      cg (.label last)) s
      (Expr.shortCircuit jump decided other s.cg.numLabels (s.cg.numLabels + 1 + r.labels)
        (r.calls s.syms (s.cg.numLabels + 1))) (Stream'.cons t rest) (pure ()) := by
  apply Takes.lexNext hs
  intro s₁ h₁
  have hlabels₁ : s₁.cg.numLabels = s.cg.numLabels := h₁.numLabels 0 rfl (by omega)
  apply Takes.cgNewLabel (by omega)
  intro s₂ h₂
  rw [hlabels₁]
  apply Takes.cg (jump s.cg.numLabels)
  intro s₃ h₃
  have h₀₃ := (h₁.trans h₂).trans h₃
  have hsyms : s₃.syms = s.syms := h₀₃.syms
  have hlabels₃ : s₃.cg.numLabels = s.cg.numLabels + 1 := by
    apply h₀₃.numLabels 1 _ (by omega)
    simp only [List.map_append, List.map_cons, List.map_nil, List.sum_append, List.sum_cons,
      List.sum_nil, hjump]
    rfl
  rw [← hsyms, ← hlabels₃]
  apply Takes.trans
  · exact (hr.done hfuel ((h₃.stream.trans h₂.stream).trans h₁.stream) ht (hsyms ▸ hd)
      (by omega)).bind_pure
  intro s₄ h₄
  have hlabels₄ : s₄.cg.numLabels = s₃.cg.numLabels + r.labels :=
    h₄.numLabels r.labels (r.fresh_calls _ _) (by omega)
  apply Takes.cg (jump s.cg.numLabels)
  intro s₅ h₅
  apply Takes.cg (.loadNum other)
  intro s₆ h₆
  have hlabels₆ : s₆.cg.numLabels = s₄.cg.numLabels := by
    apply (h₅.trans h₆).numLabels 0 _ (by omega)
    simp only [List.map_append, List.map_cons, List.map_nil, List.sum_append, List.sum_cons,
      List.sum_nil, hjump]
    rfl
  apply Takes.cgNewLabel (by omega)
  intro s₇ h₇
  rw [hlabels₆, hlabels₄]
  apply Takes.cg
  intro s₈ h₈
  apply Takes.cg
  intro s₉ h₉
  apply Takes.cg
  intro s' h'
  rw [← h₄.stream, ← h₅.stream, ← h₆.stream, ← h₇.stream, ← h₈.stream, ← h₉.stream, ← h'.stream]
  exact .cg_last _

theorem andStep_takes (hr : r.Climbs unary fuel 8) (hfuel : r.tokens.length < fuel)
    (hs : s.lex.stream = Stream'.cons .and (r.tokens ++ₛ Stream'.cons t rest))
    (ht : t.Follows 9) (hd : r.Declared s.syms) (hl : s.cg.numLabels + (r.labels + 2) ≤ cgLabelMax) :
    Takes (andStep unary fuel) s
      (Expr.shortCircuit .jumpZero 0 1 s.cg.numLabels (s.cg.numLabels + 1 + r.labels)
        (r.calls s.syms (s.cg.numLabels + 1))) (Stream'.cons t rest) (pure ()) := by
  have h := shortCircuit_takes .jumpZero (fun _ => rfl) 0 1 hr hfuel hs ht hd hl
  rw [climb_bitor] at h
  exact h

theorem orStep_takes (hr : r.Climbs unary fuel 9) (hfuel : r.tokens.length < fuel)
    (hs : s.lex.stream = Stream'.cons .or (r.tokens ++ₛ Stream'.cons t rest))
    (ht : t.Follows 10) (hd : r.Declared s.syms) (hl : s.cg.numLabels + (r.labels + 2) ≤ cgLabelMax) :
    Takes (orStep unary fuel) s
      (Expr.shortCircuit .jumpNonzero 1 0 s.cg.numLabels (s.cg.numLabels + 1 + r.labels)
        (r.calls s.syms (s.cg.numLabels + 1))) (Stream'.cons t rest) (pure ()) := by
  have h := shortCircuit_takes .jumpNonzero (fun _ => rfl) 1 0 hr hfuel hs ht hd hl
  rw [climb_and] at h
  exact h

/-- The step of any operator. -/
theorem climbStep_takes (hr : r.Climbs unary fuel op.rank) (hfuel : r.tokens.length < fuel)
    (hs : s.lex.stream = Stream'.cons op.tok (r.tokens ++ₛ Stream'.cons t rest))
    (ht : t.Follows (op.rank + 1)) (hd : r.Declared s.syms)
    (hl : s.cg.numLabels + (r.labels + if op.jumps then 2 else 0) ≤ cgLabelMax) :
    Takes (climbStep unary fuel op.rank (climb unary fuel op.rank)) s
      (Expr.rightCalls op s.cg.numLabels r.labels
        (r.calls s.syms (if op.jumps then s.cg.numLabels + 1 else s.cg.numLabels)))
      (Stream'.cons t rest) (pure ()) := by
  cases hop : op.jumps with
  | false =>
    rw [hop] at hl
    have hstep : climbStep unary fuel op.rank (climb unary fuel op.rank) =
        binary (climb unary fuel op.rank) (callOf op.rank) := by
      cases op <;> first | exact absurd hop (by decide) | rfl
    have hcalls : ∀ n k right, Expr.rightCalls op n k right =
        .push :: (right ++ [.popIntoEcx, op.call]) := by
      cases op <;> first | exact absurd hop (by decide) | exact fun _ _ _ => rfl
    rw [hstep, hcalls]
    exact binary_takes hop hr hfuel hs ht hd hl
  | true =>
    rw [hop] at hl
    cases op with
    | land => exact andStep_takes hr hfuel hs ht hd hl
    | lor => exact orStep_takes hr hfuel hs ht hd hl
    | _ => exact absurd hop (by decide)

/-- A binary expression, in the round of its operator. -/
theorem Expr.Climbs.binary {l : Expr} (hlc : l.Climbs unary fuel (op.rank + 1))
    (hr : r.Climbs unary fuel op.rank) (hfuel : (Expr.binary op l r).tokens.length < fuel) :
    (Expr.binary op l r).Climbs unary fuel (op.rank + 1) := by
  intro s t rest hs ht hd hlab
  simp only [Expr.tokens, List.length_append, List.length_cons] at hfuel
  simp only [Expr.labels] at hlab
  rw [Expr.tokens, Stream'.append_append_stream, Stream'.cons_append_stream] at hs
  have hspine : (Expr.binary op l r).spine (op.rank + 1 - 1) = l.spine op.rank + 1 := if_pos rfl
  have hj := l.spine_lt (op.rank + 1 - 1)
  rw [hspine, Expr.calls]
  have hleft := hlc hs (op.follows (Nat.le_refl _)) (fun x hx => hd x (List.mem_append_left _ hx))
    (by omega)
  apply hleft.trans
  intro s' hs'
  have hlabels := hs'.numLabels l.labels (l.fresh_calls _ _) (by omega)
  rw [← hlabels, ← hs'.syms]
  apply Takes.whilePeek_round hs'.stream ((op.isOpOf_tok op.rank_lt).mpr rfl) (by omega)
  intro s'' hs''
  have hlabels' : s''.cg.numLabels = s'.cg.numLabels := hs''.numLabels 0 rfl (by omega)
  have hsyms : s''.syms = s'.syms := hs''.syms
  rw [← hlabels', ← hsyms]
  apply climbStep_takes hr (by omega) hs''.stream ht
  · rw [hsyms, hs'.syms]
    exact fun x hx => hd x (List.mem_append_right _ hx)
  · omega

end Right

end Climb

/-! ## Operands -/

section Operands

variable {assign unary : Parse Unit} {loops : Nat} {s : Compiler} {t : Tok} {rest : Stream' Tok}
  {calls : List CgCall}

/-- A primary expression with no postfix operator after it. -/
theorem postfix_takes (h : Takes (parsePrimaryExpr assign unary loops) s calls (Stream'.cons t rest)
    (pure ())) (ht : t.endsOperand = true) (hloops : 0 < loops) :
    Takes (parsePostfixExpr assign unary loops) s calls (Stream'.cons t rest) (pure ()) := by
  rw [← List.append_nil calls]
  apply h.bind_pure.trans
  intro s' hs'
  apply Takes.whilePeek_end hs'.stream _ hloops
  cases t <;> first | rfl | cases ht

/-- A literal. -/
theorem primary_num {n : Int} (hs : s.lex.stream = Stream'.cons (.numLit n) (Stream'.cons t rest)) :
    Takes (parsePrimaryExpr assign unary loops) s [.loadNum n] (Stream'.cons t rest) (pure ()) := by
  apply Takes.lexPeek hs
  intro s₁ h₁
  apply Takes.lexNext h₁.stream
  intro s₂ h₂
  rw [← h₂.stream]
  exact .cg_last _

/-- A variable that is loaded. -/
theorem loadVariable_takes {x : List UInt8} (hx : s.syms.Scalar x) :
    Takes (loadVariable (s.syms.find x) (s.syms.deref (s.syms.find x))) s
      [Expr.loadCall (s.syms.deref (s.syms.find x))] s.lex.stream (pure ()) := by
  unfold loadVariable
  rw [if_neg (Int.not_lt.mpr hx.size)]
  apply Takes.look [.refer (s.syms.find x) .load] rfl rfl
  unfold loadScalar Expr.loadCall
  split
  · exact .cg_last _
  · exact .cg_last _

/-- A variable. -/
theorem primary_var {x : List UInt8}
    (hs : s.lex.stream = Stream'.cons (.ident x) (Stream'.cons t rest))
    (ht : t.endsOperand = true) (hx : s.syms.Scalar x) :
    Takes (parsePrimaryExpr assign unary loops) s [Expr.loadCall (s.syms.deref (s.syms.find x))]
      (Stream'.cons t rest) (pure ()) := by
  apply Takes.lexPeek hs
  intro s₁ h₁
  apply Takes.lexNext h₁.stream
  intro s₂ h₂
  apply Takes.copyName hx.name
  apply Takes.lexPeek h₂.stream
  intro s₃ h₃
  have hsyms : s₃.syms = s.syms := h₃.syms.trans (h₂.syms.trans h₁.syms)
  have hload : Takes (do
      let r ← symFind x
      if r = .null then do
        error "undeclared variable"
        cg (.loadNum 0)
      else loadVariable r (← symAt r)) s₃ [Expr.loadCall (s.syms.deref (s.syms.find x))]
        (Stream'.cons t rest) (pure ()) := by
    apply Takes.look (a := s.syms.find x) [] (hsyms ▸ rfl) rfl
    rw [if_neg hx.found]
    apply Takes.look (a := s.syms.deref (s.syms.find x)) [] (hsyms ▸ rfl) rfl
    rw [← hsyms, ← h₃.stream]
    exact loadVariable_takes (hsyms.symm ▸ hx)
  cases t <;> first | exact hload | cases ht

/-- An expression in parentheses. -/
theorem primary_paren {e : Expr} (hs : s.lex.stream = Stream'.cons .lparen
      (e.tokens ++ₛ Stream'.cons .rparen (Stream'.cons t rest)))
    (h : ∀ s', After s [] (e.tokens ++ₛ Stream'.cons .rparen (Stream'.cons t rest)) s' →
      Takes assign s' calls (Stream'.cons .rparen (Stream'.cons t rest)) (pure ())) :
    Takes (parsePrimaryExpr assign unary loops) s calls (Stream'.cons t rest) (pure ()) := by
  obtain ⟨first, more, htokens, htype, -⟩ := e.head_tokens
  apply Takes.lexPeek hs
  intro s₁ h₁
  apply Takes.lexNext h₁.stream
  intro s₂ h₂
  have hahead := h₂.stream
  rw [htokens, Stream'.cons_append_stream] at hahead
  apply Takes.lexPeek hahead
  intro s₃ h₃
  rw [htype, if_neg Bool.false_ne_true, ← List.append_nil calls]
  have hafter := (h₁.trans h₂).trans h₃
  rw [← Stream'.cons_append_stream, ← htokens] at hafter
  apply (h s₃ hafter).bind_pure.trans
  intro s₄ h₄
  exact .expect_last h₄.stream

/-- The operand of a unary operator. -/
theorem unaryOp_takes {call : CgCall} {tok : Tok} {ahead : Stream' Tok}
    (hs : s.lex.stream = Stream'.cons tok ahead)
    (h : ∀ s', After s [] ahead s' → Takes unary s' calls (Stream'.cons t rest) (pure ())) :
    Takes (unaryOp unary call) s (calls ++ [call]) (Stream'.cons t rest) (pure ()) := by
  apply Takes.lexNext hs
  intro s₁ h₁
  apply (h s₁ h₁).bind_pure.trans
  intro s₂ h₂
  rw [← h₂.stream]
  exact .cg_last call

end Operands

/-! ## Expressions -/

section Expressions

variable {assign : Parse Unit} {loops : Nat}

/-- `parse_unary_expr` reads the expression. -/
def Expr.Unaries (assign : Parse Unit) (loops : Nat) (e : Expr) : Prop :=
  ∀ ⦃fuel : Nat⦄ ⦃s : Compiler⦄ ⦃t : Tok⦄ ⦃rest : Stream' Tok⦄, e.tokens.length ≤ fuel →
    s.lex.stream = e.tokens ++ₛ Stream'.cons t rest → t.endsOperand = true →
      e.Declared s.syms → s.cg.numLabels + e.labels ≤ cgLabelMax →
        Takes (parseUnaryExpr assign loops fuel) s (e.calls s.syms s.cg.numLabels)
          (Stream'.cons t rest) (pure ())

/-- `assign` reads the expression, where `t` follows. -/
def Expr.Assigns (assign : Parse Unit) (t : Tok) (e : Expr) : Prop :=
  ∀ ⦃s : Compiler⦄ ⦃rest : Stream' Tok⦄, s.lex.stream = e.tokens ++ₛ Stream'.cons t rest →
    e.Declared s.syms → s.cg.numLabels + e.labels ≤ cgLabelMax →
      Takes assign s (e.calls s.syms s.cg.numLabels) (Stream'.cons t rest) (pure ())

theorem unaries_num (n : Int) (hloops : 0 < loops) : (Expr.num n).Unaries assign loops := by
  intro fuel s t rest hfuel hs ht _ _
  obtain ⟨u, rfl⟩ := Nat.exists_eq_add_of_le' hfuel
  apply Takes.lexPeek hs
  intro s₁ h₁
  exact postfix_takes (primary_num h₁.stream) ht hloops

theorem unaries_var (x : List UInt8) (hloops : 0 < loops) : (Expr.var x).Unaries assign loops := by
  intro fuel s t rest hfuel hs ht hd _
  obtain ⟨u, rfl⟩ := Nat.exists_eq_add_of_le' hfuel
  apply Takes.lexPeek hs
  intro s₁ h₁
  have hx := hd x List.mem_cons_self
  rw [Expr.calls, ← h₁.syms] at *
  exact postfix_takes (primary_var h₁.stream ht hx) ht hloops

theorem unaries_paren {e : Expr} (h : e.Assigns assign .rparen) (hloops : 0 < loops) :
    (Expr.paren e).Unaries assign loops := by
  intro fuel s t rest hfuel hs ht hd hl
  obtain ⟨u, rfl⟩ := Nat.exists_eq_add_of_le' (Nat.lt_of_lt_of_le (Nat.succ_pos _) hfuel)
  rw [Expr.tokens, List.cons_append, Stream'.cons_append_stream, Stream'.append_append_stream] at hs
  apply Takes.lexPeek hs
  intro s₁ h₁
  apply postfix_takes _ ht hloops
  apply primary_paren h₁.stream
  intro s₂ h₂
  have hlabels : s₂.cg.numLabels = s.cg.numLabels :=
    (h₁.trans h₂).numLabels 0 rfl (Nat.le_trans (Nat.le_add_right _ _) hl)
  have hsyms : s₂.syms = s.syms := (h₁.trans h₂).syms
  rw [← hlabels, ← hsyms]
  exact h h₂.stream (hsyms.symm ▸ hd) (hlabels.symm ▸ hl)

theorem unaries_unary {op : UnOp} {e : Expr} (h : e.Unaries assign loops) :
    (Expr.unary op e).Unaries assign loops := by
  intro fuel s t rest hfuel hs ht hd hl
  obtain ⟨u, rfl⟩ := Nat.exists_eq_add_of_le' (Nat.lt_of_lt_of_le (Nat.succ_pos _) hfuel)
  apply Takes.lexPeek hs
  intro s₁ h₁
  have hop : Takes (unaryOp (parseUnaryExpr assign loops u) op.call) s₁
      (e.calls s.syms s.cg.numLabels ++ [op.call]) (Stream'.cons t rest) (pure ()) := by
    apply unaryOp_takes h₁.stream
    intro s₂ h₂
    have hlabels : s₂.cg.numLabels = s.cg.numLabels :=
      (h₁.trans h₂).numLabels 0 rfl (Nat.le_trans (Nat.le_add_right _ _) hl)
    have hsyms : s₂.syms = s.syms := (h₁.trans h₂).syms
    rw [← hlabels, ← hsyms]
    exact h (Nat.le_of_succ_le_succ hfuel) h₂.stream ht (hsyms.symm ▸ hd) (hlabels.symm ▸ hl)
  cases op <;> exact hop

/-- A unary expression is what the round before the first one reads. -/
theorem Expr.Unaries.climbs {e : Expr} (h : e.Unaries assign loops)
    (hfuel : e.tokens.length < loops) :
    e.Climbs (parseUnaryExpr assign loops loops) loops 0 :=
  fun _ _ _ hs ht hd hl => h (Nat.le_of_lt hfuel) hs ht.ends hd hl

/-- The token after a whole expression: nothing of an expression goes on with it. -/
structure Tok.Closes (t : Tok) : Prop where
  ends : t.endsOperand = true
  binop : isBinop t = false
  assign : t ≠ .assign
  compound : isCompound t = false

theorem Tok.Closes.follows {t : Tok} (h : t.Closes) (n : Nat) : t.Follows n := by
  refine ⟨h.ends, fun m _ => ?_⟩
  have hbinop := h.binop
  unfold isBinop at hbinop
  unfold isOpOf
  split <;> simp_all

theorem rparen_closes : Tok.rparen.Closes := ⟨rfl, rfl, nofun, rfl⟩

/-- `parse_assign_expr` reads a variable by itself. -/
theorem assigns_var (x : List UInt8) {fuel : Nat} {t : Tok} (ht : t.Closes) (hloops : 0 < loops) :
    (Expr.var x).Assigns (parseAssignExpr loops (fuel + 1)) t := by
  intro s rest hs hd _
  have hx := hd x List.mem_cons_self
  apply Takes.lexPeek hs
  intro s₁ h₁
  apply Takes.lexNext h₁.stream
  intro s₂ h₂
  apply Takes.copyName hx.name
  apply Takes.lexPeek h₂.stream
  intro s₃ h₃
  have hsyms : s₃.syms = s.syms := h₃.syms.trans (h₂.syms.trans h₁.syms)
  have hload : Takes (loadNamed x) s₃ [Expr.loadCall (s.syms.deref (s.syms.find x))]
      (Stream'.cons t rest) (pure ()) := by
    apply Takes.look (a := s.syms.find x) [] (hsyms ▸ rfl) rfl
    rw [if_neg hx.found]
    apply Takes.look (a := s.syms.deref (s.syms.find x)) [] (hsyms ▸ rfl) rfl
    rw [if_neg hx.kind, ← hsyms, ← h₃.stream]
    exact loadVariable_takes (hsyms.symm ▸ hx)
  have hbracket : t ≠ .lbracket := by
    rintro rfl
    exact absurd ht.ends (by decide)
  have hparen : t ≠ .lparen := by
    rintro rfl
    exact absurd ht.ends (by decide)
  rw [if_neg ht.assign, if_neg (Bool.eq_false_iff.mp ht.compound), if_neg hbracket, if_neg hparen,
    Expr.calls, ← List.append_nil [_]]
  apply hload.bind_pure.trans
  intro s₄ h₄
  exact .whilePeek_end h₄.stream ht.binop hloops

/-- `parse_assign_expr` reads an expression that begins with no identifier by climbing. -/
theorem assigns_climb {e : Expr} {fuel : Nat} {t : Tok} (ht : t.Closes) (hhead : e.headed = false)
    (h : e.Climbs (parseUnaryExpr (parseAssignExpr loops fuel) loops loops) loops 10)
    (hfuel : e.tokens.length < loops) : e.Assigns (parseAssignExpr loops (fuel + 1)) t := by
  intro s rest hs hd hl
  obtain ⟨first, more, htokens, _, hstar, hident⟩ := e.head_tokens
  have hahead := hs
  rw [htokens, Stream'.cons_append_stream] at hahead
  apply Takes.lexPeek hahead
  intro s₁ h₁
  have hor : Takes (parseOrExpr (parseUnaryExpr (parseAssignExpr loops fuel) loops loops) loops) s₁
      (e.calls s.syms s.cg.numLabels) (Stream'.cons t rest) (pure ()) := by
    have hstream := h₁.stream
    rw [← Stream'.cons_append_stream, ← htokens] at hstream
    have hlabels : s₁.cg.numLabels = s.cg.numLabels :=
      h₁.numLabels 0 rfl (Nat.le_trans (Nat.le_add_right _ _) hl)
    have hsyms : s₁.syms = s.syms := h₁.syms
    rw [← hlabels, ← hsyms]
    exact h.done hfuel hstream (ht.follows 11) (hsyms.symm ▸ hd) (hlabels.symm ▸ hl)
  cases first with
  | ident x => exact absurd rfl (hident hhead x)
  | star => exact absurd rfl hstar
  | _ => exact hor

/-- `parse_assign_expr` reads an expression that begins as it may. -/
theorem Expr.assigns_of_climbs {e : Expr} {fuel : Nat} {t : Tok} (ht : t.Closes)
    (hhead : e.plainHead = true)
    (h : e.Climbs (parseUnaryExpr (parseAssignExpr loops fuel) loops loops) loops 10)
    (hfuel : e.tokens.length < loops) : e.Assigns (parseAssignExpr loops (fuel + 1)) t := by
  have hloops : 0 < loops := Nat.lt_of_le_of_lt (Nat.zero_le _) hfuel
  cases e with
  | var x => exact assigns_var x ht hloops
  | _ => exact assigns_climb ht ((Bool.not_eq_true' _).mp hhead) h hfuel

/-- Every expression of the grammar is read as the grammar says. -/
theorem Expr.Grammatical.reads {e : Expr} (hg : e.Grammatical) (hp : e.plainParens = true) :
    ∀ {fuel : Nat}, e.tokens.length ≤ fuel → e.tokens.length < loops →
      (e.rank = 0 → e.Unaries (parseAssignExpr loops fuel) loops) ∧
        ∀ n, e.rank ≤ n → e.Climbs (parseUnaryExpr (parseAssignExpr loops fuel) loops loops) loops n := by
  -- a unary expression is read by every round
  have lift : ∀ {e : Expr} {fuel : Nat}, e.rank = 0 → e.tokens.length < loops →
      e.Unaries (parseAssignExpr loops fuel) loops →
        (e.rank = 0 → e.Unaries (parseAssignExpr loops fuel) loops) ∧
          ∀ n, e.rank ≤ n →
            e.Climbs (parseUnaryExpr (parseAssignExpr loops fuel) loops loops) loops n :=
    fun hrank hloops hu => ⟨fun _ => hu, fun n _ =>
      (hu.climbs hloops).le (Nat.le_of_eq hrank) hloops (Nat.zero_le n)⟩
  induction e with
  | num n =>
    intro fuel _ hloops
    exact lift rfl hloops (unaries_num n (Nat.zero_lt_of_lt hloops))
  | var x =>
    intro fuel _ hloops
    exact lift rfl hloops (unaries_var x (Nat.zero_lt_of_lt hloops))
  | paren e ih =>
    intro fuel hfuel hloops
    obtain ⟨hhead, hparens⟩ := (Bool.and_eq_true _ _).mp hp
    have hlen : (paren e).tokens.length = e.tokens.length + 2 := by
      rw [tokens, List.length_append, List.length_cons]
      rfl
    obtain ⟨f, rfl⟩ := Nat.exists_eq_add_of_le' (show 1 ≤ fuel by omega)
    have hinner := (ih hg hparens (show e.tokens.length ≤ f by omega) (by omega)).2 10 e.rank_le
    have hassign := Expr.assigns_of_climbs rparen_closes hhead hinner (by omega)
    exact lift rfl hloops (unaries_paren hassign (Nat.zero_lt_of_lt hloops))
  | unary op e ih =>
    intro fuel hfuel hloops
    have hlen : (unary op e).tokens.length = e.tokens.length + 1 := rfl
    exact lift rfl hloops (unaries_unary ((ih hg.2 hp (by omega) (by omega)).1 hg.1))
  | binary op l r hl hr =>
    intro fuel hfuel hloops
    obtain ⟨hlrank, hrrank, hlg, hrg⟩ := hg
    obtain ⟨hlp, hrp⟩ := (Bool.and_eq_true _ _).mp hp
    have hlen : (binary op l r).tokens.length = l.tokens.length + (r.tokens.length + 1) := by
      rw [tokens, List.length_append, List.length_cons]
    have hleft := (hl hlg hlp (show _ ≤ fuel by omega) (by omega)).2 (op.rank + 1) hlrank
    have hright := (hr hrg hrp (show _ ≤ fuel by omega) (by omega)).2 op.rank hrrank
    refine ⟨nofun, fun n hn => ?_⟩
    exact (hleft.binary hright hloops).le (Nat.le_refl _) hloops hn

/-- `parse_expr` reads an expression that begins, like each of its parts in parentheses, with
no identifier unless it is one. -/
theorem Expr.Grammatical.assigns {e : Expr} (hg : e.Grammatical) (hhead : e.plainHead = true)
    (hp : e.plainParens = true) {fuel : Nat} (hfuel : e.tokens.length < fuel) {t : Tok}
    (ht : t.Closes) : e.Assigns (parseExpr fuel) t := by
  obtain ⟨f, rfl⟩ := Nat.exists_eq_add_of_le' (Nat.zero_lt_of_lt hfuel)
  have hclimbs := (hg.reads hp (Nat.le_of_lt_succ hfuel) hfuel).2 10 e.rank_le
  exact Expr.assigns_of_climbs ht hhead hclimbs hfuel

end Expressions

end RainbowOs.Cc
