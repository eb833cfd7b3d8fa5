import RainbowOs.Cc.Climb
import RainbowOs.Cc.Eval
import RainbowOs.Cc.Image

/-!
# Expressions of compiled programs

Anywhere in a program that compiles within the limits, the code of an
expression that begins with no identifier computes the value C gives it:
what `Expr.Grammatical.assigns` says of the parser and `Expr.runs` of the
processor, joined by the image that `cg_output` leaves.
-/

namespace RainbowOs.Cc

open RainbowOs.Lib
open X86 (Word Cpu Reg)

/-- A stretch of a run of `parse_program`, from `s` on: `pre` was logged before it and `post`
after it, no string waits to be loaded, and the whole program is within the limits. -/
structure Stretch (fuel : Nat) (s₀ s₁ s : Compiler) (pre log post : List Event) : Prop where
  init : ∃ c : Codegen, s₀.cg = c.init
  run : parseProgram fuel s₀ = ⟨.done (), s₁, pre ++ (log ++ post)⟩
  start : s.cg = runCalls (callsOf pre) s₀.cg
  strings : StringsLoaded false (callsOf pre)
  limits : Fits s₀.cg (callsOf (pre ++ (log ++ post)))

/-- The code of a stretch in the memory that the image is loaded to. -/
theorem Stretch.placed {fuel : Nat} {s₀ s₁ s : Compiler} {pre log post : List Event}
    (h : Stretch fuel s₀ s₁ s pre log post) {m buf : Bytes}
    (hm : Loads m (s₁.cg.output s₁.syms buf) s₁.cg.stringStart) :
    Placed (s₁.cg.linkage s₁.syms) m false s.cg (callsOf log ++ callsOf post) := by
  obtain ⟨c, hc⟩ := h.init
  obtain ⟨hlink, -⟩ := linkable_program fuel trivial h.run
  have hfits := h.limits
  have hrets := hlink.rets
  have hlabels := hlink.labels
  have hcg := hlink.cg
  rw [hc] at hfits hrets hlabels hcg
  rw [hcg] at hm ⊢
  have hplaced := placed_output hfits hlink.strings hrets hlabels s₁.syms buf hm
  generalize hall : runCalls (callsOf (pre ++ (log ++ post))) c.init = c₁ at hplaced ⊢
  rw [callsOf_append, callsOf_append] at hplaced
  rw [h.start, hc]
  exact hplaced.stretch h.strings

/-- The code of a stretch ends where the code of the program does or before. -/
theorem Stretch.length_le {fuel : Nat} {s₀ s₁ s : Compiler} {pre log post : List Event}
    (h : Stretch fuel s₀ s₁ s pre log post) :
    (runCalls (callsOf log) s.cg).code.length ≤ s₁.cg.code.length := by
  obtain ⟨hlink, -⟩ := linkable_program fuel trivial h.run
  rw [hlink.cg, h.start, callsOf_append, callsOf_append, runCalls_append, runCalls_append]
  exact length_le_runCalls _ _

section Expressions

variable {fuel fuel' : Nat} {s₀ s₁ s : Compiler} {pre post : List Event} {e : Expr} {t : Tok}
  {rest : Stream' Tok}

/-- Expressions are compiled correctly: `parse_expr` reads all of the expression and nothing
else, and its code, in the image of the program, leaves the value of the expression in EAX. It
keeps ESP, and no step of it writes at ESP or above. -/
theorem expression_compiled (hg : e.Grammatical) (hhead : e.plainHead = true)
    (hparens : e.plainParens = true) (hfuel : e.tokens.length < fuel') (ht : t.Closes)
    (hs : s.lex.stream = e.tokens ++ₛ Stream'.cons t rest) (hdecl : e.Declared s.syms)
    (hroom : s.cg.numLabels + e.labels ≤ cgLabelMax)
    (h : Stretch fuel s₀ s₁ s pre (parseExpr fuel' s).log post) :
    ∃ s', parseExpr fuel' s = ⟨.done (), s', (parseExpr fuel' s).log⟩ ∧
      s'.lex.stream = Stream'.cons t rest ∧ s'.hadError = s.hadError ∧
      ∀ (buf : Bytes) (σ : List UInt8 → Word) (cpu : Cpu) (lo : Nat) (v : Word),
        Loads cpu.mem (s₁.cg.output s₁.syms buf) s₁.cg.stringStart → s.cg.At cpu →
        lo + 4 * e.depth ≤ (cpu.regs .esp).toNat →
        (∀ a, cgLoadAddr ≤ a → a < cgLoadAddr + s₁.cg.stringStart →
          a < lo ∨ (cpu.regs .esp).toNat ≤ a) →
        Sees (s₁.cg.linkage s₁.syms) s.syms σ lo (cpu.regs .esp).toNat cpu e.vars →
        e.eval σ = some v →
        ∃ cpu', X86.RunsBelow (cpu.regs .esp).toNat cpu cpu' ∧ s'.cg.At cpu' ∧
          cpu'.regs .eax = v ∧ cpu'.regs .esp = cpu.regs .esp ∧ cpu'.regs .ebp = cpu.regs .ebp ∧
          ∀ a, (cpu.regs .esp).toNat ≤ a → cpu'.mem a = cpu.mem a := by
  obtain ⟨s', log, hrun, hcalls, hafter⟩ := hg.assigns hhead hparens hfuel ht hs hdecl hroom
  have hlog : (parseExpr fuel' s).log = log := by
    rw [hrun]
    exact List.append_nil log
  have hdone : parseExpr fuel' s = ⟨.done (), s', (parseExpr fuel' s).log⟩ := by
    rw [hlog, hrun, Run.prepend, Prog.pure_run, List.append_nil]
  refine ⟨s', hdone, hafter.stream, hafter.hadError, ?_⟩
  intro buf σ cpu lo v hm hat hlo hclear hx hv
  have hplaced := h.placed hm
  have hlength := h.length_le
  rw [hlog, hcalls] at hplaced hlength
  have hstr := e.isAddString_calls s.syms s.cg.numLabels
  have hloaded : Loaded (s₁.cg.linkage s₁.syms) cpu.mem lo (cpu.regs .esp).toNat s.cg
      (e.calls s.syms s.cg.numLabels) := by
    have hbase : codeBase = cgLoadAddr + Codegen.codeStart := rfl
    refine ⟨(hplaced.append hstr).1, fun a ha ha' => hclear a ?_ ?_⟩
    · omega
    · rw [Codegen.stringStart, Codegen.codePos]
      omega
  obtain ⟨cpu', hruns, hend, heax, hkept⟩ :=
    Expr.runs _ s.syms σ lo _ e hloaded hat hlo (Nat.le_refl _) hx hv
  rw [← hafter.cg] at hend
  exact ⟨cpu', hruns, hend, heax, hkept.esp, hkept.ebp, fun a ha => hkept.mem a (Or.inr ha)⟩

end Expressions

/-! ### A program -/

/-- `int x; int main() { return 2+3*!x; }` -/
def sumSource : List UInt8 := "int x;int main()\x7breturn 2+3*!x;\x7d".toList.map chr

/-- `2 + 3 * !x` -/
def sumExpr : Expr :=
  .binary .add (.num 2) (.binary .mul (.num 3) (.unary .lnot (.var [chr 'x'])))

/-- The statics when `parse_expr` is called. -/
def sumState : Compiler :=
  { Compiler.boot.init sumSource with
    lex := lexInit ("2+3*!x;\x7d".toList.map chr)
    syms := ⟨[⟨[chr 'x'], .globalVar, .int, 0, 0, false⟩], [], 0, Compiler.boot.syms.null⟩
    cg := runCalls [.allocGlobal 4, .funcBegin (.glob 1)] (Compiler.boot.init sumSource).cg }

/-- What the parser has logged then. -/
def sumHead : List Event :=
  let x := [chr 'x']
  let main := "main".toList.map chr
  let syms := (Compiler.boot.syms.addGlobal x .globalVar .int).2
  [.copy x, .declare ⟨x, .globalVar, Compiler.boot.syms, .glob 0, syms⟩, .emit (.allocGlobal 4), .copy main,
    .declare ⟨main, .function, syms, .glob 1, (syms.addGlobal main .function .int).2⟩,
    .emit (.funcBegin (.glob 1))]

/-- The statics when `parse_program` has returned. -/
def sumCompiled : Compiler := (parseProgram 30 (Compiler.boot.init sumSource)).state

/-- The image in memory, with zeros after the code. -/
def sumCpu : Cpu where
  regs := Function.update (fun _ => 0) .esp 0x90000
  eip := BitVec.ofNat 32 (codeBase + sumState.cg.code.length)
  zf := false
  sf := false
  of := false
  mem a :=
    if a < cgLoadAddr + sumCompiled.cg.stringStart then
      sumCompiled.cg.output sumCompiled.syms (fun _ => 0) (a - cgLoadAddr)
    else 0

/-- The code for `2 + 3 * !x`, where `x` is 0, leaves 5 in EAX. -/
theorem expression_compiled_sum : ∃ cpu', X86.RunsBelow 0x90000 sumCpu cpu' ∧
    cpu'.regs .eax = 5 ∧ cpu'.regs .esp = 0x90000 := by
  have hout : (parseProgram 30 (Compiler.boot.init sumSource)).out = .done () := by decide +kernel
  have hlog : (parseProgram 30 (Compiler.boot.init sumSource)).log =
      sumHead ++ ((parseExpr 10 sumState).log ++ [.emit .ret, .emit .funcEnd]) := by decide +kernel
  have hstretch : Stretch 30 (Compiler.boot.init sumSource) sumCompiled sumState sumHead
      (parseExpr 10 sumState).log [.emit .ret, .emit .funcEnd] :=
    ⟨⟨Compiler.boot.cg, rfl⟩, Prog.run_eq hout hlog, rfl,
      ⟨fun h => absurd h Bool.false_ne_true, fun h => absurd h Bool.false_ne_true, rfl⟩, by decide +kernel⟩
  have htokens : (sumState.lex.ahead 7).1 = sumExpr.tokens ++ [.semi] := by decide +kernel
  have hs : sumState.lex.stream =
      sumExpr.tokens ++ₛ Stream'.cons .semi (sumState.lex.ahead 7).2.stream := by
    rw [sumState.lex.stream_ahead 7, htokens, Stream'.append_append_stream]
    rfl
  have hg : sumExpr.Grammatical := by simp [sumExpr, Expr.Grammatical, Expr.rank, BinOp.rank]
  have hdecl : sumExpr.Declared sumState.syms := by
    intro x hx
    rw [List.mem_singleton.mp hx]
    exact ⟨by decide +kernel, by decide +kernel, by decide +kernel, by decide +kernel, by decide +kernel⟩
  have hesp : (sumCpu.regs .esp).toNat = 0x90000 := rfl
  have hbase : cgLoadAddr = 0x200000 := rfl
  have hload : Loads sumCpu.mem (sumCompiled.cg.output sumCompiled.syms fun _ => 0)
      sumCompiled.cg.stringStart := by
    intro i hi
    have hmem : sumCpu.mem (cgLoadAddr + i) =
        if cgLoadAddr + i < cgLoadAddr + sumCompiled.cg.stringStart then
          sumCompiled.cg.output sumCompiled.syms (fun _ => 0) (cgLoadAddr + i - cgLoadAddr)
        else 0 := by rw [sumCpu]
    rw [hmem, if_pos (Nat.add_lt_add_left hi _), Nat.add_sub_cancel_left]
  have hsees : Sees (sumCompiled.cg.linkage sumCompiled.syms) sumState.syms (fun _ => 0) 0x80000
      0x90000 sumCpu sumExpr.vars := by
    intro x hx
    rw [List.mem_singleton.mp hx]
    decide +kernel
  have hat : sumState.cg.At sumCpu := by rw [Codegen.At, sumCpu]
  have hv : sumExpr.eval (fun _ => 0) = some 5 := by decide +kernel
  have hclear : ∀ a, cgLoadAddr ≤ a → a < cgLoadAddr + sumCompiled.cg.stringStart →
      a < 0x80000 ∨ 0x90000 ≤ a := by
    intro a ha _
    omega
  have hroom : sumState.cg.numLabels + sumExpr.labels ≤ cgLabelMax := by decide +kernel
  obtain ⟨s', -, -, -, hrun⟩ := expression_compiled hg (by decide +kernel) (by decide +kernel)
    (by decide +kernel) (⟨rfl, rfl, by decide, rfl⟩ : Tok.semi.Closes) hs hdecl hroom hstretch
  obtain ⟨cpu', hruns, -, heax, hesp', -, -⟩ := hrun (fun _ => 0) (fun _ => 0) sumCpu 0x80000 5
    hload hat (by rw [hesp]; decide) (by rw [hesp]; exact hclear) (by rw [hesp]; exact hsees) hv
  rw [hesp] at hruns
  exact ⟨cpu', hruns, heax, hesp'⟩

end RainbowOs.Cc
