import RainbowOs.Cc.Stmt
import RainbowOs.Cc.Eval
import RainbowOs.Cc.Labels

/-!
# The frame of a running function

ESP and EBP stay where they are from statement to statement, every variable
has a cell on the stack, and below ESP there is room for the operands of
expressions. `Goes` is what a run of the machine comes to when it writes in
the frame only; the laws of this module run one expression of a statement,
the store that ends an assignment, and one jump.
-/

namespace RainbowOs.Cc

open RainbowOs.Lib
open X86 (Word Cpu Reg Instr)

/-- Where the frame is, and the variables that have cells in it. -/
structure Frame where
  env : Linkage
  table : Symbols
  esp : Word
  ebp : Word
  lo : Nat

namespace Frame

variable (F : Frame)

/-- The address of a variable. -/
def cell (x : List UInt8) : Word := F.ebp + imm (F.table.deref (F.table.find x)).offset

/-- What the function may write: the room below ESP and the cells of its variables. -/
def Owns (a : Nat) : Prop := (F.lo ≤ a ∧ a < F.esp.toNat) ∨
  ∃ x, F.table.Local x ∧ (F.cell x).toNat ≤ a ∧ a < (F.cell x).toNat + 4

/-- The cells are above ESP, and no two of them meet. -/
structure Sound : Prop where
  above : ∀ x, F.table.Local x → F.esp.toNat ≤ (F.cell x).toNat
  apart : ∀ x y, F.table.Local x → F.table.Local y → x ≠ y →
    (F.cell x).toNat + 4 ≤ (F.cell y).toNat ∨ (F.cell y).toNat + 4 ≤ (F.cell x).toNat

/-- The processor is in the frame, and the cells hold the values of the variables. -/
structure Holds (σ : Store) (s : Cpu) : Prop where
  esp : s.regs .esp = F.esp
  ebp : s.regs .ebp = F.ebp
  vars : ∀ x, F.table.Local x → X86.read s.mem (F.cell x) = σ x

/-- What a stretch of the function keeps: all registers but three, and what is not the function's. -/
structure Keeps (s s' : Cpu) : Prop where
  regs : ∀ r, r ≠ .eax → r ≠ .ecx → r ≠ .edx → s'.regs r = s.regs r
  mem : ∀ a, ¬F.Owns a → s'.mem a = s.mem a

/-- Memory holds the code of the calls, out of reach of the function's writes. -/
structure Code (m : Bytes) (c : Codegen) (calls : List CgCall) : Prop where
  placed : Placed F.env m false c calls
  clear : ∀ a, codeBase + c.code.length ≤ a → a < codeBase + (runCalls calls c).code.length → ¬F.Owns a

/-- The machine gets to a state with `P`, and keeps what the function keeps. -/
def Goes (s : Cpu) (P : Cpu → Prop) : Prop := ∃ s', X86.Reaches s s' ∧ F.Keeps s s' ∧ P s'

end Frame

/-- The calls that a statement consists of: none adds a string or begins a function. -/
def CgCall.flows : CgCall → Bool
  | .addString _ | .funcBegin _ => false
  | _ => true

theorem CgCall.flows_string {call : CgCall} (h : call.flows = true) : call.isAddString = false := by
  cases call <;> first | rfl | cases h

theorem CgCall.flows_begin {call : CgCall} (h : call.flows = true) (fn : SymRef) : call ≠ .funcBegin fn := by
  rintro rfl
  cases h

/-- A sequence of such calls. -/
def Flows (calls : List CgCall) : Prop := calls.all CgCall.flows = true

namespace Flows

variable {calls calls' : List CgCall}

theorem append (h : Flows calls) (h' : Flows calls') : Flows (calls ++ calls') := by
  rw [Flows, List.all_append, h, h', Bool.and_self]

theorem cons {call : CgCall} (hcall : call.flows = true) (h : Flows calls) : Flows (call :: calls) := by
  rw [Flows, List.all_cons, hcall, Bool.true_and]
  exact h

theorem strings (h : Flows calls) : ∀ call ∈ calls, call.isAddString = false :=
  fun call hcall => CgCall.flows_string (List.all_eq_true.mp h call hcall)

/-- The right operand of `&&` or `||`, with the jumps around it. -/
theorem around {first second : CgCall} {last : List CgCall} (h : Flows calls) (hfirst : first.flows = true)
    (hsecond : second.flows = true) (hlast : Flows last) :
    Flows ([first, second] ++ calls ++ last) := by
  refine Flows.append (Flows.append ?_ h) hlast
  rw [Flows, List.all_cons, List.all_cons, hfirst, hsecond]
  rfl

/-- The label of the function's end stays. -/
theorem epilogue (h : Flows calls) (c : Codegen) : (runCalls calls c).funcEpilogueLabel = c.funcEpilogueLabel := by
  induction calls generalizing c with
  | nil => rfl
  | cons call calls ih =>
    obtain ⟨hcall, hcalls⟩ := (Bool.and_eq_true _ _).mp h
    rw [runCalls_cons, ih hcalls, epilogue_run call (CgCall.flows_begin hcall)]

end Flows

namespace Frame

variable {F : Frame} {s s' s'' : Cpu} {σ : Store} {c : Codegen} {calls calls' : List CgCall} {m : Bytes}

/-! ## What is kept -/

namespace Keeps

theorem refl (s : Cpu) : F.Keeps s s := ⟨fun _ _ _ _ => rfl, fun _ _ => rfl⟩

theorem trans (h : F.Keeps s s') (h' : F.Keeps s' s'') : F.Keeps s s'' :=
  ⟨fun r ha hc hd => (h'.regs r ha hc hd).trans (h.regs r ha hc hd), fun a ha => (h'.mem a ha).trans (h.mem a ha)⟩

/-- An expression keeps it. -/
theorem of_kept (h : Kept F.lo s s') (hesp : s.regs .esp = F.esp) : F.Keeps s s' := by
  refine ⟨h.regs, fun a ha => h.mem a ?_⟩
  rw [hesp]
  have hout : ¬(F.lo ≤ a ∧ a < F.esp.toNat) := fun h => ha (Or.inl h)
  omega

theorem of_eq (hregs : s'.regs = s.regs) (hmem : s'.mem = s.mem) : F.Keeps s s' :=
  ⟨fun r _ _ _ => congrFun hregs r, fun a _ => congrFun hmem a⟩

end Keeps

theorem Holds.of_eq (h : F.Holds σ s) (hregs : s'.regs = s.regs) (hmem : s'.mem = s.mem) : F.Holds σ s' :=
  ⟨hregs ▸ h.esp, hregs ▸ h.ebp, fun x hx => hmem ▸ h.vars x hx⟩

namespace Code

theorem keep (h : F.Code s.mem c calls) (hk : F.Keeps s s') : F.Code s'.mem c calls :=
  ⟨h.placed.congr fun a ha ha' => hk.mem a (h.clear a ha ha'), h.clear⟩

theorem append (hflows : Flows calls) (h : F.Code m c (calls ++ calls')) :
    F.Code m c calls ∧ F.Code m (runCalls calls c) calls' := by
  obtain ⟨hfirst, hsecond⟩ := h.placed.append hflows.strings
  have hmore := length_le_runCalls calls' (runCalls calls c)
  have hless := length_le_runCalls calls c
  refine ⟨⟨hfirst, fun a ha ha' => h.clear a ha ?_⟩, ⟨hsecond, fun a ha ha' => h.clear a ?_ ?_⟩⟩
  · rw [runCalls_append]
    omega
  · omega
  · rwa [runCalls_append]

/-- Where the linkage has a label that the code places. -/
theorem label_eq {id : Int} (hflows : Flows calls) (h : F.Code m c (calls ++ .label id :: calls')) :
    F.env.label id = (runCalls calls c).code.length := h.placed.label_eq hflows.strings

end Code

/-! ## Runs -/

namespace Goes

variable {P Q : Cpu → Prop}

theorem here (h : P s) : F.Goes s P := ⟨s, .refl, .refl s, h⟩

theorem trans (h : F.Goes s P) (h' : ∀ s', F.Keeps s s' → P s' → F.Goes s' Q) : F.Goes s Q := by
  obtain ⟨s₁, hruns, hkeeps, hs₁⟩ := h
  obtain ⟨s₂, hruns', hkeeps', hs₂⟩ := h' s₁ hkeeps hs₁
  exact ⟨s₂, hruns.trans hruns', hkeeps.trans hkeeps', hs₂⟩

theorem mono (h : F.Goes s P) (hPQ : ∀ s', P s' → Q s') : F.Goes s Q :=
  h.trans fun _ _ hs' => here (hPQ _ hs')

end Goes

/-- The processor is where the code places a label. -/
def AtLabel (F : Frame) (id : Int) (s : Cpu) : Prop := s.eip = imm (codeBase + F.env.label id)

theorem Code.at_label {id : Int} (hflows : Flows calls) (h : F.Code m c (calls ++ .label id :: calls'))
    (hs : F.AtLabel id s) : (runCalls calls c).At s := Codegen.At.of_label hs (h.label_eq hflows)

/-! ### Expressions -/

section Expressions

variable {t : Symbols} {n : Nat} {v : Word} (hF : F.Sound) (ht : t.Below F.table) (hat : c.At s) (hs : F.Holds σ s)

include hF ht hat hs

/-- The code of an expression. -/
theorem goes_expr {e : Expr} (hvars : ∀ x ∈ e.vars, t.Local x) (hcode : F.Code s.mem c (e.calls t n))
    (hlo : F.lo + 4 * e.depth ≤ F.esp.toNat) (hv : e.eval σ = some v) :
    F.Goes s fun s' => (runCalls (e.calls t n) c).At s' ∧ s'.regs .eax = v ∧ F.Holds σ s' := by
  have hesp := hs.esp
  have hcell : ∀ x ∈ e.vars, F.table.Local x ∧ t.cell F.env s x = F.cell x := by
    intro x hx
    obtain ⟨hlocal, hsym⟩ := ht.symbol (hvars x hx)
    refine ⟨hlocal, ?_⟩
    rw [Symbols.cell, if_pos (hvars x hx).stack, hs.ebp, cell, hsym]
  have hloaded : Loaded F.env s.mem F.lo F.esp.toNat c (e.calls t n) := by
    refine ⟨hcode.placed, fun a ha ha' => ?_⟩
    have hout : ¬(F.lo ≤ a ∧ a < F.esp.toNat) := fun h => hcode.clear a ha ha' (Or.inl h)
    omega
  have hsees : Sees F.env t σ F.lo F.esp.toNat s e.vars := by
    intro x hx
    obtain ⟨hlocal, hxcell⟩ := hcell x hx
    rw [hxcell]
    exact ⟨Or.inr (hF.above x hlocal), hs.vars x hlocal⟩
  obtain ⟨s', hruns, hend, heax, hkept⟩ := e.runs F.env t σ F.lo F.esp.toNat hloaded hat (hesp.symm ▸ hlo)
    (Nat.le_of_eq (congrArg BitVec.toNat hesp)) hsees hv
  refine ⟨s', hruns.reaches, .of_kept hkept hesp, hend, heax, hkept.esp.trans hesp, hkept.ebp.trans hs.ebp, ?_⟩
  intro x hx
  rw [← hs.vars x hx]
  refine X86.read_congr fun k hk _ => hkept.mem k (Or.inr ?_)
  have habove := hF.above x hx
  rw [hesp]
  omega

/-- The store that ends an assignment. -/
theorem goes_store {x : List UInt8} (hx : t.Local x) (hcode : F.Code s.mem c [storeCall (t.deref (t.find x))])
    (heax : s.regs .eax = v) : F.Goes s fun s' => (runCalls [storeCall (t.deref (t.find x))] c).At s' ∧
      s'.regs .eax = v ∧ F.Holds (Function.update σ x v) s' := by
  obtain ⟨hlocal, hsym⟩ := ht.symbol hx
  rw [storeCall, if_pos hx.stack] at hcode ⊢
  have haddr : s.regs .ebp + imm (t.deref (t.find x)).offset = F.cell x := by rw [hs.ebp, cell, hsym]
  have hbytes := hcode.placed.codeAt hat
  have hstep : X86.step s =
      Instr.exec (s.fetched 6) (.store (.disp .ebp (imm (t.deref (t.find x)).offset)) .eax) :=
    hbytes.step_eq rfl
  have hmem : X86.write s.mem (s.regs .ebp + imm (t.deref (t.find x)).offset) (s.regs .eax) =
      X86.write s.mem (F.cell x) v := by rw [haddr, heax]
  refine ⟨_, .single hstep, ⟨fun _ _ _ _ => rfl, fun a ha => ?_⟩, ?_, heax, hs.esp, hs.ebp, fun y hy => ?_⟩
  · have hout : ¬((F.cell x).toNat ≤ a ∧ a < (F.cell x).toNat + 4) := fun h => ha (Or.inr ⟨x, hlocal, h⟩)
    refine (congrFun hmem a).trans (X86.write_of_not_mem ?_)
    omega
  · rw [runCalls_cons, runCalls, List.foldl_nil, Codegen.At, length_run hcode.placed.fits, ← Nat.add_assoc]
    exact hbytes.fetched_eip 6
  · show X86.read (X86.write s.mem (s.regs .ebp + imm (t.deref (t.find x)).offset) (s.regs .eax)) (F.cell y) = _
    rw [hmem]
    by_cases hxy : y = x
    · subst hxy
      rw [X86.read_write, Function.update_self]
    · rw [Function.update_of_ne hxy, X86.read_write_of_apart (hF.apart x y hlocal hy (Ne.symm hxy))]
      exact hs.vars y hy

end Expressions

/-! ### Jumps -/

section Jumps

variable {id : Int} (hat : c.At s) (hs : F.Holds σ s)

include hat hs

theorem goes_jump (hcode : F.Code s.mem c (.jump id :: calls)) :
    F.Goes s fun s' => F.AtLabel id s' ∧ s'.regs .eax = s.regs .eax ∧ F.Holds σ s' := by
  obtain ⟨s', hruns, heip, hregs, hmem⟩ := hcode.placed.jump hat
  exact ⟨s', hruns.reaches, .of_eq hregs hmem, heip, congrFun hregs .eax, hs.of_eq hregs hmem⟩

theorem goes_jumpZero (hcode : F.Code s.mem c (.jumpZero id :: calls)) :
    F.Goes s fun s' => (if s.regs .eax = 0 then F.AtLabel id s' else ((CgCall.jumpZero id).run c).At s') ∧
      F.Holds σ s' := by
  obtain ⟨s', hruns, hregs, hmem, heip⟩ := hcode.placed.jumpZero hat
  exact ⟨s', hruns.reaches, .of_eq hregs hmem, heip, hs.of_eq hregs hmem⟩

theorem goes_jumpNonzero (hcode : F.Code s.mem c (.jumpNonzero id :: calls)) :
    F.Goes s fun s' => (if s.regs .eax = 0 then ((CgCall.jumpNonzero id).run c).At s' else F.AtLabel id s') ∧
      F.Holds σ s' := by
  obtain ⟨s', hruns, hregs, hmem, heip⟩ := hcode.placed.jumpNonzero hat
  exact ⟨s', hruns.reaches, .of_eq hregs hmem, heip, hs.of_eq hregs hmem⟩

/-- The jump of `return`. -/
theorem goes_ret (hcode : F.Code s.mem c (.ret :: calls)) : F.Goes s fun s' =>
    F.AtLabel c.funcEpilogueLabel s' ∧ s'.regs .eax = s.regs .eax ∧ F.Holds σ s' := by
  have hbytes := hcode.placed.codeAt hat
  have hstep : X86.step s = Instr.exec (s.fetched 5) (.jmp (c.rel (F.env.label c.funcEpilogueLabel) 5)) :=
    hbytes.step_eq rfl
  refine ⟨_, .single hstep, .of_eq rfl rfl, ?_, rfl, hs.of_eq rfl rfl⟩
  rw [AtLabel, ← Placed.jump_eip hbytes (codeBase + F.env.label c.funcEpilogueLabel) 5]
  refine congrArg ((s.fetched 5).eip + ·) (congrArg imm ?_)
  omega

end Jumps

end Frame

/-! ## Assignments -/

theorem flows_expr (t : Symbols) (e : Expr) : ∀ n, Flows (e.calls t n) := by
  induction e with
  | num k => exact fun _ => rfl
  | var x =>
    intro n
    unfold Expr.calls Expr.loadCall
    split <;> rfl
  | paren e ih => exact ih
  | unary op e ih => exact fun n => (ih n).append (by cases op <;> rfl)
  | binary op l r hl hr =>
    intro n
    refine (hl n).append ?_
    cases hop : op.jumps with
    | false =>
      rw [Expr.rightCalls_strict hop]
      exact (hr _).append (by cases op <;> rfl)
    | true =>
      cases op with
      | land | lor => exact (hr _).around rfl rfl rfl
      | _ => cases hop

theorem flows_act (t : Symbols) (n : Nat) (a : Act) : Flows (a.calls t n) := by
  induction a with
  | value e => exact flows_expr t e n
  | assign x a ih =>
    refine ih.append ?_
    unfold storeCall
    split <;> rfl

theorem flows_opt (t : Symbols) (n : Nat) (a : Option Act) : Flows (optCalls t n a) := by
  cases a with
  | none => rfl
  | some a => exact flows_act t n a

namespace Frame

variable {F : Frame} {s : Cpu} {σ σ' : Store} {c : Codegen} {t : Symbols} {n : Nat} {v : Word}

/-- The code of an expression with assignments. -/
theorem goes_act (hF : F.Sound) (ht : t.Below F.table) {a : Act} (ha : a.Valid t) (hat : c.At s)
    (hs : F.Holds σ s) (hcode : F.Code s.mem c (a.calls t n)) (hlo : F.lo + 4 * a.depth ≤ F.esp.toNat)
    (hv : a.run σ = some (v, σ')) :
    F.Goes s fun s' => (runCalls (a.calls t n) c).At s' ∧ s'.regs .eax = v ∧ F.Holds σ' s' := by
  induction a generalizing σ' with
  | value e =>
    obtain ⟨w, hw, heq⟩ := Option.map_eq_some_iff.mp hv
    cases heq
    exact goes_expr hF ht hat hs ha.2 hcode hlo hw
  | assign x a ih =>
    obtain ⟨⟨w, σ₁⟩, hw, heq⟩ := Option.map_eq_some_iff.mp hv
    cases heq
    obtain ⟨hg, hvars⟩ := ha
    obtain ⟨hinner, hstore⟩ := hcode.append (flows_act t n a)
    have hrest := ih ⟨hg, fun y hy => hvars y (List.mem_cons_of_mem x hy)⟩ hinner hlo hw
    refine hrest.trans fun s₁ hkeeps h₁ => ?_
    obtain ⟨hat₁, heax, hs₁⟩ := h₁
    have hstored := goes_store hF ht hat₁ hs₁ (hvars x List.mem_cons_self) (hstore.keep hkeeps) heax
    rwa [← runCalls_append] at hstored

/-- An expression that may be missing. -/
theorem goes_opt (hF : F.Sound) (ht : t.Below F.table) {a : Option Act} (ha : OptValid t a) (hat : c.At s)
    (hs : F.Holds σ s) (hcode : F.Code s.mem c (optCalls t n a)) (hlo : F.lo + 4 * optDepth a ≤ F.esp.toNat)
    (hv : optRun a σ = some σ') :
    F.Goes s fun s' => (runCalls (optCalls t n a) c).At s' ∧ F.Holds σ' s' := by
  cases a with
  | none =>
    cases hv
    exact .here ⟨hat, hs⟩
  | some a =>
    obtain ⟨⟨w, σ₁⟩, hw, rfl⟩ := Option.map_eq_some_iff.mp hv
    exact (goes_act hF ht (ha a rfl) hat hs hcode hlo hw).mono fun s' h => ⟨h.1, h.2.2⟩

end Frame

end RainbowOs.Cc
