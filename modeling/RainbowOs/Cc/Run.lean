import RainbowOs.Cc.Link
import RainbowOs.Cc.Expr
import RainbowOs.Lib.X86Run

/-!
# Running linked code

`Placed` says that memory holds the instructions of a sequence of calls at
the address the image gives them, and that the linkage has their labels
there. The laws of this module run one call each: straight code, a push, a
jump. What they leave is again at the address of the call that follows.
-/

namespace RainbowOs.Cc

open RainbowOs.Lib
open X86 (Word Cpu Reg Instr)

/-- The address of the first byte of the code. -/
abbrev codeBase : Nat := cgLoadAddr + Codegen.codeStart

/-- Memory holds the code of the calls, and their labels are where the linkage has them. -/
def Placed (env : Linkage) (m : Bytes) (str : Bool) (c : Codegen) : List CgCall → Prop
  | [] => True
  | call :: calls =>
    c.code.length + call.raw.length ≤ cgCodeMax ∧
      m.slice (codeBase + c.code.length) call.raw.length =
        (call.asm env str c).flatMap Instr.encode ∧
      (∀ id ∈ call.places c, env.label id = c.code.length) ∧
      Placed env m call.isAddString (call.run c) calls

/-- The processor is where the code of `c` ends. -/
def Codegen.At (c : Codegen) (s : Cpu) : Prop := s.eip = BitVec.ofNat 32 (codeBase + c.code.length)

theorem length_run {call : CgCall} {c : Codegen} (h : c.code.length + call.raw.length ≤ cgCodeMax) :
    (call.run c).code.length = c.code.length + call.raw.length := by
  rw [call.run_code, appendCode_of_le h, List.length_append]

theorem length_le_runCalls (calls : List CgCall) (c : Codegen) :
    c.code.length ≤ (runCalls calls c).code.length := by
  induction calls generalizing c with
  | nil => exact Nat.le_refl _
  | cons call calls ih =>
    apply Nat.le_trans _ (ih (call.run c))
    rw [call.run_code, appendCode, List.length_append]
    exact Nat.le_add_right _ _

theorem length_asm (env : Linkage) (str : Bool) (c : Codegen) (call : CgCall) :
    ((call.asm env str c).flatMap Instr.encode).length = call.raw.length := by
  cases call with
  | reverseStack n =>
    rw [CgCall.asm, CgCall.raw, List.flatMap_assoc]
    rfl
  | _ => rfl

namespace Placed

variable {env : Linkage} {m m' : Bytes} {str : Bool} {c : Codegen} {call : CgCall}
  {calls calls' : List CgCall} {s s' : Cpu}

theorem tail (h : Placed env m str c (call :: calls)) :
    Placed env m call.isAddString (call.run c) calls := h.2.2.2

theorem fits (h : Placed env m str c (call :: calls)) :
    c.code.length + call.raw.length ≤ cgCodeMax := h.1

/-- The code of two sequences, the first of which adds no string. -/
theorem append (hstr : ∀ call ∈ calls, call.isAddString = false)
    (h : Placed env m false c (calls ++ calls')) :
    Placed env m false c calls ∧ Placed env m false (runCalls calls c) calls' := by
  induction calls generalizing c with
  | nil => exact ⟨trivial, h⟩
  | cons call calls ih =>
    obtain ⟨hfit, hslice, hlabel, hrest⟩ := h
    have hcall := hstr call List.mem_cons_self
    rw [hcall] at hrest
    obtain ⟨hfirst, hsecond⟩ := ih (fun x hx => hstr x (List.mem_cons_of_mem call hx)) hrest
    exact ⟨⟨hfit, hslice, hlabel, hcall ▸ hfirst⟩, hsecond⟩

/-- Where the linkage has a label that the code places. -/
theorem label_eq {id : Int} (hstr : ∀ call ∈ calls, call.isAddString = false)
    (h : Placed env m false c (calls ++ .label id :: calls')) :
    env.label id = (runCalls calls c).code.length :=
  (h.append hstr).2.2.2.1 id rfl

/-- Code stays in a memory that has the same bytes there. -/
theorem congr (h : Placed env m str c calls)
    (hm : ∀ a, codeBase + c.code.length ≤ a → a < codeBase + (runCalls calls c).code.length →
      m' a = m a) : Placed env m' str c calls := by
  induction calls generalizing c str with
  | nil => trivial
  | cons call calls ih =>
    obtain ⟨hfit, hslice, hlabel, hrest⟩ := h
    have hlen := length_run hfit
    have hle := length_le_runCalls calls (call.run c)
    refine ⟨hfit, Eq.trans (Bytes.slice_congr fun k hk => ?_) hslice, hlabel, ih hrest ?_⟩
    · apply hm
      · exact Nat.le_add_right _ _
      · rw [runCalls_cons]
        omega
    · intro a ha ha'
      exact hm a (by omega) ha'

/-- The bytes at a processor that is at the first call. -/
theorem codeAt (h : Placed env s.mem str c (call :: calls)) (hs : c.At s) :
    X86.CodeAt s (codeBase + c.code.length) ((call.asm env str c).flatMap Instr.encode) := by
  obtain ⟨hfit, hslice, -, -⟩ := h
  have hlen := length_asm env str c call
  refine ⟨hs, ?_, ?_⟩
  · have hmax : cgCodeMax = 8192 := rfl
    have hbase : codeBase = 0x200005 := rfl
    omega
  · rw [hlen]
    exact hslice

/-- A call that leaves no code is passed. -/
theorem pass (hraw : call.raw = []) (hs : c.At s) : (call.run c).At s := by
  have hlen : (call.run c).code.length = c.code.length := by
    rw [call.run_code, hraw, appendCode_nil]
  rw [Codegen.At, hlen]
  exact hs

/-- Straight code. -/
theorem straight (h : Placed env s.mem str c (call :: calls)) (hs : c.At s)
    (hstraight : ∀ i ∈ call.asm env str c, i.Straight)
    (hexec : X86.execAll (call.asm env str c) s = some s') :
    X86.RunsBelow 0 s s' ∧ (call.run c).At s' ∧ s'.mem = s.mem := by
  have hcode := h.codeAt hs
  rw [← List.append_nil ((call.asm env str c).flatMap Instr.encode)] at hcode
  obtain ⟨hruns, hend, hmem⟩ :=
    X86.runs_straight (call.plain_asm env str c) hstraight hcode hexec
  refine ⟨hruns, ?_, hmem⟩
  rw [Codegen.At, length_run h.fits, ← Nat.add_assoc, ← length_asm env str c call]
  exact hend.eip

/-- A push of EAX. -/
theorem push (h : Placed env s.mem str c (.push :: calls)) (hs : c.At s)
    (hesp : 4 ≤ (s.regs .esp).toNat) :
    ∃ s', X86.RunsBelow (s.regs .esp).toNat s s' ∧ (CgCall.push.run c).At s' ∧
      s'.regs = Function.update s.regs .esp (s.regs .esp - 4) ∧
      s'.mem = X86.write s.mem (s.regs .esp - 4) (s.regs .eax) := by
  have hcode := h.codeAt hs
  have hstep : X86.step s = Instr.exec (s.fetched 1) (.push .eax) := hcode.step_eq rfl
  refine ⟨_, .single ⟨hstep, fun a ha => ?_⟩, ?_, rfl, rfl⟩
  · apply X86.write_of_not_mem
    right
    have hsub : (s.regs .esp - 4).toNat = (s.regs .esp).toNat - 4 := X86.toNat_sub_four hesp
    show (s.regs .esp - 4).toNat + 4 ≤ a
    omega
  · rw [Codegen.At, length_run h.fits, ← Nat.add_assoc]
    exact hcode.fetched_eip 1

/-- The end of a relative jump. -/
theorem jump_eip {a : Nat} {bs : List UInt8} (hcode : X86.CodeAt s a bs) (target : Int) (n : Nat) :
    (s.fetched n).eip + imm (target - (a + n : Nat)) = imm target := by
  have hnat : BitVec.ofNat 32 (a + n) = imm ((a + n : Nat) : Int) := (BitVec.ofInt_natCast _ _).symm
  rw [hcode.fetched_eip, hnat, ← BitVec.ofInt_add]
  congr 1
  omega

/-- A jump. -/
theorem jump {id : Int} (h : Placed env s.mem str c (.jump id :: calls)) (hs : c.At s) :
    ∃ s', X86.RunsBelow 0 s s' ∧ s'.eip = imm (codeBase + env.label id) ∧ s'.regs = s.regs ∧
      s'.mem = s.mem := by
  have hcode := h.codeAt hs
  have hstep : X86.step s = Instr.exec (s.fetched 5) (.jmp (c.rel (env.label id) 5)) :=
    hcode.step_eq rfl
  refine ⟨_, .of_step hstep rfl, ?_, rfl, rfl⟩
  rw [← jump_eip hcode (codeBase + env.label id) 5]
  refine congrArg ((s.fetched 5).eip + ·) (congrArg imm ?_)
  omega

/-- A jump where EAX is zero, or where it is not. -/
theorem branch {cond : X86.Cond} {id : Int} (h : Placed env s.mem str c (call :: calls))
    (hasm : call.asm env str c = [.test .eax .eax, .jcc cond (c.rel (env.label id) 8)])
    (hs : c.At s) : ∃ s', X86.RunsBelow 0 s s' ∧ s'.regs = s.regs ∧ s'.mem = s.mem ∧
      if (s.flags (s.regs .eax) false).holds cond then s'.eip = imm (codeBase + env.label id)
      else (call.run c).At s' := by
  have hcode := h.codeAt hs
  have hraw := length_asm env str c call
  rw [hasm] at hcode hraw
  have hlen : 8 = call.raw.length := hraw
  have hfirst : X86.step s = Instr.exec (s.fetched 2) (.test .eax .eax) := hcode.step_eq rfl
  let s₁ := (s.fetched 2).flags (s.regs .eax &&& s.regs .eax) false
  have hnext : X86.CodeAt s₁ (codeBase + c.code.length + 2)
      ((Instr.jcc cond (c.rel (env.label id) 8)).encode ++ []) :=
    hcode.next (hcode.fetched_eip 2) rfl
  have hsecond : X86.step s₁ = Instr.exec (s₁.fetched 6) (.jcc cond (c.rel (env.label id) 8)) :=
    hnext.step_eq rfl
  have hholds : (s₁.fetched 6).holds cond = (s.flags (s.regs .eax) false).holds cond := by
    have hand : s.regs .eax &&& s.regs .eax = s.regs .eax := BitVec.and_self
    rw [← hand]
    cases cond <;> rfl
  have hrun : X86.RunsBelow 0 s s₁ := .of_step hfirst rfl
  rw [Instr.exec, hholds] at hsecond
  by_cases hcond : (s.flags (s.regs .eax) false).holds cond
  · rw [if_pos hcond] at hsecond
    refine ⟨_, hrun.trans (X86.RunsBelow.of_step hsecond rfl), rfl, rfl, ?_⟩
    rw [if_pos hcond, ← jump_eip hnext (codeBase + env.label id) 6]
    refine congrArg ((s₁.fetched 6).eip + ·) (congrArg imm ?_)
    omega
  · rw [if_neg hcond] at hsecond
    refine ⟨_, hrun.trans (X86.RunsBelow.of_step hsecond rfl), rfl, rfl, ?_⟩
    rw [if_neg hcond, Codegen.At, length_run h.fits, ← hlen]
    exact hnext.fetched_eip 6

/-- A jump where EAX is zero. -/
theorem jumpZero {id : Int} (h : Placed env s.mem str c (.jumpZero id :: calls)) (hs : c.At s) :
    ∃ s', X86.RunsBelow 0 s s' ∧ s'.regs = s.regs ∧ s'.mem = s.mem ∧
      if s.regs .eax = 0 then s'.eip = imm (codeBase + env.label id)
      else ((CgCall.jumpZero id).run c).At s' := by
  obtain ⟨s', hruns, hregs, hmem, heip⟩ := h.branch rfl hs
  refine ⟨s', hruns, hregs, hmem, ?_⟩
  rw [X86.holds_test_e] at heip
  by_cases hzero : s.regs .eax = 0
  · rw [if_pos hzero]
    rwa [if_pos (decide_eq_true hzero)] at heip
  · rw [if_neg hzero]
    rwa [if_neg (Bool.eq_false_iff.mp (decide_eq_false hzero))] at heip

/-- A jump where EAX is not zero. -/
theorem jumpNonzero {id : Int} (h : Placed env s.mem str c (.jumpNonzero id :: calls))
    (hs : c.At s) : ∃ s', X86.RunsBelow 0 s s' ∧ s'.regs = s.regs ∧ s'.mem = s.mem ∧
      if s.regs .eax = 0 then ((CgCall.jumpNonzero id).run c).At s'
      else s'.eip = imm (codeBase + env.label id) := by
  obtain ⟨s', hruns, hregs, hmem, heip⟩ := h.branch rfl hs
  refine ⟨s', hruns, hregs, hmem, ?_⟩
  rw [X86.holds_test_ne] at heip
  by_cases hzero : s.regs .eax = 0
  · rw [if_pos hzero]
    rwa [if_neg (Bool.eq_false_iff.mp (decide_eq_false (not_not_intro hzero)))] at heip
  · rw [if_neg hzero]
    rwa [if_pos (decide_eq_true hzero)] at heip

end Placed

end RainbowOs.Cc
