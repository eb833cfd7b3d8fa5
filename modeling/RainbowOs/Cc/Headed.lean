import RainbowOs.Cc.Climb

/-!
# Expressions that begin with an identifier

At an identifier `parse_assign_expr` does not climb: it loads the variable
and hands over to `continue_binops`, which applies every operator to what
there is so far. Each operator has a reach, the round that reads its right
operand. Where every operand along the left spine of an expression is within
the reach of its operator, the flat loop makes the calls that climbing would
have made, and so does an expression whose parenthesised parts are like that.
-/

namespace RainbowOs.Cc

open RainbowOs.Lib

/-- The round that reads the right operand of the operator in `continue_binops`. -/
def BinOp.reach : BinOp → Nat
  | .mul | .div | .mod => 0
  | .add | .sub => 1
  | .shl | .shr | .lt | .gt | .le | .ge | .eq | .ne => 2
  | .band | .bxor | .bor => 5
  | .land => 8
  | .lor => 9

theorem BinOp.reach_le_rank (op : BinOp) : op.reach ≤ op.rank := by cases op <;> decide

theorem BinOp.isBinop_tok (op : BinOp) : isBinop op.tok = true := by cases op <;> rfl

namespace Expr

/-- Every right operand along the left spine is within the reach of its operator. -/
def flat : Expr → Bool
  | binary op l r => l.flat && r.rank ≤ op.reach
  | _ => true

/-- An expression that begins with an identifier is flat. -/
def headFlat (e : Expr) : Bool := !e.headed || e.flat

/-- The parenthesised parts that begin with an identifier are flat. -/
def flatParens : Expr → Bool
  | num _ | var _ => true
  | paren e => e.headFlat && e.flatParens
  | unary _ e => e.flatParens
  | binary _ l r => l.flatParens && r.flatParens

/-- How many rounds of `continue_binops` an expression takes. -/
def rounds : Expr → Nat
  | binary _ l _ => l.rounds + 1
  | _ => 0

theorem rounds_lt (e : Expr) : e.rounds < e.tokens.length := by
  induction e with
  | binary op l r hl hr =>
    rw [rounds, tokens, List.length_append, List.length_cons]
    omega
  | _ => exact tokens_pos _

end Expr

/-- The token after an identifier that is the head of an expression. -/
structure Tok.FollowsHead (t : Tok) : Prop where
  ends : t.endsOperand = true
  assign : t ≠ .assign
  compound : isCompound t = false

theorem BinOp.followsHead (op : BinOp) : op.tok.FollowsHead := by
  cases op <;> exact ⟨rfl, nofun, rfl⟩

theorem Tok.Closes.followsHead {t : Tok} (h : t.Closes) : t.FollowsHead := ⟨h.ends, h.assign, h.compound⟩

section Chains

variable {loops fuel : Nat} {s : Compiler} {t : Tok} {rest : Stream' Tok}

/-- `continue_binops` with `j` of its rounds done, in `parse_assign_expr`. -/
def binopsLoop (loops fuel j : Nat) : Parse Unit :=
  whilePeek isBinop (binopStep (parseUnaryExpr (parseAssignExpr loops fuel) loops loops) loops) (loops - j)

/-- `parse_assign_expr` makes the calls of the expression and is left in `continue_binops`. -/
def Expr.Chains (loops fuel : Nat) (e : Expr) : Prop :=
  ∀ ⦃s : Compiler⦄ ⦃t : Tok⦄ ⦃rest : Stream' Tok⦄, s.lex.stream = e.tokens ++ₛ Stream'.cons t rest →
    t.FollowsHead → t.Follows e.rank → e.Declared s.syms → s.cg.numLabels + e.labels ≤ cgLabelMax →
      Takes (parseAssignExpr loops (fuel + 1)) s (e.calls s.syms s.cg.numLabels) (Stream'.cons t rest)
        (binopsLoop loops fuel e.rounds)

/-- The variable at the head. -/
theorem chains_var (x : List UInt8) : (Expr.var x).Chains loops fuel := by
  intro s t rest hs ht _ hd _
  have hx := hd x List.mem_cons_self
  apply Takes.lexPeek hs
  intro s₁ h₁
  apply Takes.lexNext h₁.stream
  intro s₂ h₂
  apply Takes.copyName hx.name
  apply Takes.lexPeek h₂.stream
  intro s₃ h₃
  have hsyms : s₃.syms = s.syms := h₃.syms.trans (h₂.syms.trans h₁.syms)
  have hload : Takes (loadNamed x) s₃ [Expr.loadCall (s.syms.deref (s.syms.find x))]
      (Stream'.cons t rest) (pure ()) := by
    apply Takes.look (a := s.syms.find x) [] (hsyms ▸ rfl) rfl
    rw [if_neg hx.found]
    apply Takes.look (a := s.syms.deref (s.syms.find x)) [] (hsyms ▸ rfl) rfl
    rw [if_neg hx.kind, ← hsyms, ← h₃.stream]
    exact loadVariable_takes (hsyms.symm ▸ hx)
  have hbracket : t ≠ .lbracket := by
    rintro rfl
    exact absurd ht.ends (by decide)
  have hparen : t ≠ .lparen := by
    rintro rfl
    exact absurd ht.ends (by decide)
  rw [if_neg ht.assign, if_neg (Bool.eq_false_iff.mp ht.compound), if_neg hbracket, if_neg hparen]
  exact hload.bind_pure

/-- A round of `continue_binops` at an operator whose right operand is within its reach. -/
theorem binopStep_takes {unary : Parse Unit} {op : BinOp} {r : Expr} (hr : r.Climbs unary loops op.reach)
    (hfuel : r.tokens.length < loops)
    (hs : s.lex.stream = Stream'.cons op.tok (r.tokens ++ₛ Stream'.cons t rest))
    (ht : t.Follows (op.rank + 1)) (hd : r.Declared s.syms)
    (hl : s.cg.numLabels + (r.labels + if op.jumps then 2 else 0) ≤ cgLabelMax) :
    Takes (binopStep unary loops) s
      (Expr.rightCalls op s.cg.numLabels r.labels
        (r.calls s.syms (if op.jumps then s.cg.numLabels + 1 else s.cg.numLabels)))
      (Stream'.cons t rest) (pure ()) := by
  apply Takes.lexPeek hs
  intro s₁ h₁
  have hlabels : s₁.cg.numLabels = s.cg.numLabels := h₁.numLabels 0 rfl (by omega)
  have hsyms : s₁.syms = s.syms := h₁.syms
  have hreach := op.reach_le_rank
  rw [← hlabels, ← hsyms]
  rw [← hlabels] at hl
  rw [← hsyms] at hd
  have hstrict : op.jumps = false → ∀ {call : Tok → CgCall}, call op.tok = op.call →
      Takes (binary (climb unary loops op.reach) call) s₁
        (.push :: (r.calls s₁.syms s₁.cg.numLabels ++ [.popIntoEcx, op.call])) (Stream'.cons t rest) (pure ()) :=
    fun hop _ hcall => binary_takes_at hcall hr hfuel h₁.stream (ht.mono (by omega)) hd (by rw [hop] at hl; exact hl)
  cases op with
  | land => exact andStep_takes hr hfuel h₁.stream ht hd hl
  | lor => exact orStep_takes hr hfuel h₁.stream ht hd hl
  | _ => exact hstrict rfl rfl

/-- An operator with its right operand, in the loop that its left operand is in. -/
theorem Expr.Chains.binary {op : BinOp} {l r : Expr} (hlc : l.Chains loops fuel)
    (hr : r.Climbs (parseUnaryExpr (parseAssignExpr loops fuel) loops loops) loops op.reach)
    (hrank : l.rank ≤ op.rank + 1) (hfuel : (Expr.binary op l r).tokens.length < loops) :
    (Expr.binary op l r).Chains loops fuel := by
  intro s t rest hs _ ht hd hlab
  simp only [Expr.tokens, List.length_append, List.length_cons] at hfuel
  simp only [Expr.labels] at hlab
  rw [Expr.tokens, Stream'.append_append_stream, Stream'.cons_append_stream] at hs
  have hj := l.rounds_lt
  rw [Expr.calls]
  have hleft := hlc hs op.followsHead (op.follows hrank) (fun x hx => hd x (List.mem_append_left _ hx)) (by omega)
  apply hleft.trans
  intro s' hs'
  have hlabels := hs'.numLabels l.labels (l.fresh_calls _ _) (by omega)
  rw [← hlabels, ← hs'.syms]
  apply Takes.whilePeek_round hs'.stream op.isBinop_tok (by omega)
  intro s'' hs''
  have hlabels' : s''.cg.numLabels = s'.cg.numLabels := hs''.numLabels 0 rfl (by omega)
  have hsyms : s''.syms = s'.syms := hs''.syms
  rw [← hlabels', ← hsyms]
  apply binopStep_takes hr (by omega) hs''.stream ht
  · rw [hsyms, hs'.syms]
    exact fun x hx => hd x (List.mem_append_right _ hx)
  · omega

end Chains

section Reading

variable {loops : Nat}

/-- `parse_assign_expr` reads an expression that begins with an identifier. -/
theorem Expr.Chains.assigns {e : Expr} {fuel : Nat} {t : Tok} (h : e.Chains loops fuel) (ht : t.Closes)
    (hfuel : e.tokens.length < loops) : e.Assigns (parseAssignExpr loops (fuel + 1)) t := by
  intro s rest hs hd hl
  have hj := e.rounds_lt
  rw [← List.append_nil (e.calls s.syms s.cg.numLabels)]
  apply (h hs ht.followsHead (ht.follows _) hd hl).trans
  intro s' hs'
  exact .whilePeek_end hs'.stream ht.binop (by omega)

/-- `parse_assign_expr` reads a head-flat expression. -/
theorem Expr.assigns_of_headFlat {e : Expr} {fuel : Nat} {t : Tok} (ht : t.Closes)
    (h : e.Climbs (parseUnaryExpr (parseAssignExpr loops fuel) loops loops) loops 10)
    (hchains : e.headed = true → e.Chains loops fuel) (hfuel : e.tokens.length < loops) :
    e.Assigns (parseAssignExpr loops (fuel + 1)) t := by
  cases hhead : e.headed with
  | true => exact (hchains hhead).assigns ht hfuel
  | false => exact assigns_climb ht hhead h hfuel

/-- Every expression of the grammar is read as the grammar says, by climbing, and by the flat loop
where it begins with an identifier and is flat. -/
theorem Expr.Grammatical.chains {e : Expr} (hg : e.Grammatical) (hp : e.flatParens = true) :
    ∀ {fuel : Nat}, e.tokens.length ≤ fuel → e.tokens.length < loops →
      (e.rank = 0 → e.Unaries (parseAssignExpr loops fuel) loops) ∧
        (∀ n, e.rank ≤ n → e.Climbs (parseUnaryExpr (parseAssignExpr loops fuel) loops loops) loops n) ∧
        (e.headed = true → e.flat = true → e.Chains loops fuel) := by
  -- a unary expression is read by every round
  have lift : ∀ {e : Expr} {fuel : Nat}, e.rank = 0 → e.tokens.length < loops →
      e.Unaries (parseAssignExpr loops fuel) loops →
        (e.rank = 0 → e.Unaries (parseAssignExpr loops fuel) loops) ∧
          ∀ n, e.rank ≤ n →
            e.Climbs (parseUnaryExpr (parseAssignExpr loops fuel) loops loops) loops n :=
    fun hrank hloops hu => ⟨fun _ => hu, fun n _ =>
      (hu.climbs hloops).le (Nat.le_of_eq hrank) hloops (Nat.zero_le n)⟩
  induction e with
  | num n =>
    intro fuel _ hloops
    obtain ⟨hunary, hclimbs⟩ := lift rfl hloops (unaries_num n (Nat.zero_lt_of_lt hloops))
    exact ⟨hunary, hclimbs, fun h => absurd h Bool.false_ne_true⟩
  | var x =>
    intro fuel _ hloops
    obtain ⟨hunary, hclimbs⟩ := lift rfl hloops (unaries_var x (Nat.zero_lt_of_lt hloops))
    exact ⟨hunary, hclimbs, fun _ _ => chains_var x⟩
  | paren e ih =>
    intro fuel hfuel hloops
    obtain ⟨hhead, hparens⟩ := (Bool.and_eq_true _ _).mp hp
    have hlen : (paren e).tokens.length = e.tokens.length + 2 := by
      rw [tokens, List.length_append, List.length_cons]
      rfl
    obtain ⟨f, rfl⟩ := Nat.exists_eq_add_of_le' (show 1 ≤ fuel by omega)
    obtain ⟨-, hclimbs, hchains⟩ := ih hg hparens (show e.tokens.length ≤ f by omega) (by omega)
    have hflat : e.headed = true → e.Chains loops f := fun hheaded => by
      rw [headFlat, hheaded] at hhead
      exact hchains hheaded hhead
    have hassign := Expr.assigns_of_headFlat rparen_closes (hclimbs 10 e.rank_le) hflat (by omega)
    obtain ⟨hunary, hclimbs'⟩ := lift rfl hloops (unaries_paren hassign (Nat.zero_lt_of_lt hloops))
    exact ⟨hunary, hclimbs', fun h => absurd h Bool.false_ne_true⟩
  | unary op e ih =>
    intro fuel hfuel hloops
    have hlen : (unary op e).tokens.length = e.tokens.length + 1 := rfl
    have hinner : e.Unaries (parseAssignExpr loops fuel) loops := (ih hg.2 hp (by omega) (by omega)).1 hg.1
    obtain ⟨hunary, hclimbs⟩ := lift rfl hloops (unaries_unary hinner)
    exact ⟨hunary, hclimbs, fun h => absurd h Bool.false_ne_true⟩
  | binary op l r hl hr =>
    intro fuel hfuel hloops
    obtain ⟨hlrank, hrrank, hlg, hrg⟩ := hg
    obtain ⟨hlp, hrp⟩ := (Bool.and_eq_true _ _).mp hp
    have hlen : (binary op l r).tokens.length = l.tokens.length + (r.tokens.length + 1) := by
      rw [tokens, List.length_append, List.length_cons]
    obtain ⟨-, hlclimbs, hlchains⟩ := hl hlg hlp (show _ ≤ fuel by omega) (by omega)
    obtain ⟨-, hrclimbs, -⟩ := hr hrg hrp (show _ ≤ fuel by omega) (by omega)
    refine ⟨fun h => absurd h (Nat.succ_ne_zero _), fun n hn => ?_, fun hheaded hflat => ?_⟩
    · exact ((hlclimbs (op.rank + 1) hlrank).binary (hrclimbs op.rank hrrank) hloops).le (Nat.le_refl _) hloops hn
    · obtain ⟨hlflat, hreach⟩ := (Bool.and_eq_true _ _).mp hflat
      exact (hlchains hheaded hlflat).binary (hrclimbs op.reach (of_decide_eq_true hreach)) hlrank hloops

/-- `parse_assign_expr` reads an expression that is flat, like each of its parts in parentheses,
where it begins with an identifier. -/
theorem Expr.Grammatical.assigns_flat {e : Expr} (hg : e.Grammatical) (hhead : e.headFlat = true)
    (hp : e.flatParens = true) {fuel : Nat} (hfuel : e.tokens.length < fuel) (hloops : e.tokens.length < loops)
    {t : Tok} (ht : t.Closes) : e.Assigns (parseAssignExpr loops fuel) t := by
  obtain ⟨f, rfl⟩ := Nat.exists_eq_add_of_le' (Nat.zero_lt_of_lt hfuel)
  obtain ⟨-, hclimbs, hchains⟩ := hg.chains hp (Nat.le_of_lt_succ hfuel) hloops
  refine Expr.assigns_of_headFlat ht (hclimbs 10 e.rank_le) (fun hheaded => ?_) hloops
  rw [headFlat, hheaded] at hhead
  exact hchains hheaded hhead

end Reading

end RainbowOs.Cc
