import RainbowOs.Cc.Layout
import RainbowOs.Cc.Control
import RainbowOs.Cc.Precedence

/-!
# Calls of compiled functions

What a function saves at its beginning it restores at its end, so a call of
it comes back to where it was called from, with the value that its body
returns and the registers of its caller. The code is that of the function
in the image of the program, wherever it was compiled in it.
-/

namespace RainbowOs.Cc

open RainbowOs.Lib
open X86 (Word Cpu Reg Instr)

/-! ## The code around a body -/

/-- What the beginning of a function leaves: a frame, with the registers of the caller at its ends. -/
structure Entered (e : Word) (s s' : Cpu) : Prop where
  esp : s'.regs .esp = e - 144
  ebp : s'.regs .ebp = e - 4
  caller : X86.read s'.mem (e - 4) = s.regs .ebp
  ebx : X86.read s'.mem (e - 144 + 4 + 4) = s.regs .ebx
  esi : X86.read s'.mem (e - 144 + 4) = s.regs .esi
  edi : X86.read s'.mem (e - 144) = s.regs .edi
  mem : ∀ k, k < e.toNat - 144 ∨ (e.toNat - 132 ≤ k ∧ k < e.toNat - 4) ∨ e.toNat ≤ k → s'.mem k = s.mem k

/-- The places of the saved registers. -/
theorem saved_places (e : Word) : e - 144 = e - 4 - 128 - 4 - 4 - 4 ∧ e - 144 + 4 = e - 4 - 128 - 4 - 4 ∧
    e - 144 + 4 + 4 = e - 4 - 128 - 4 := by
  refine ⟨?_, ?_, ?_⟩ <;> simp [BitVec.sub_eq_add_neg, BitVec.add_assoc]

/-- The beginning of a function. -/
theorem enters {s : Cpu} {a : Nat} {e : Word} {env : Linkage} {c : Codegen} {fn : SymRef}
    (hcode : X86.CodeAt s a (((CgCall.funcBegin fn).asm env false c).flatMap Instr.encode)) (he : s.regs .esp = e)
    (hroom : 144 ≤ e.toNat) (hclear : ∀ k, a ≤ k → k < a + 12 → k < e.toNat - 144 ∨ e.toNat ≤ k) :
    ∃ s', X86.Reaches s s' ∧ s'.eip = BitVec.ofNat 32 (a + 12) ∧ Entered e s s' := by
  have h4 : (e - 4).toNat = e.toNat - 4 := by bv_omega
  have h132 : (e - 4 - 128).toNat = e.toNat - 132 := by bv_omega
  have h136 : (e - 4 - 128 - 4).toNat = e.toNat - 136 := by bv_omega
  have h140 : (e - 4 - 128 - 4 - 4).toNat = e.toNat - 140 := by bv_omega
  have h144 : (e - 4 - 128 - 4 - 4 - 4).toNat = e.toNat - 144 := by bv_omega
  obtain ⟨hat, hat₁, hat₂⟩ := saved_places e
  -- the frame pointer of the caller, and the frame
  have hcode₀ : X86.CodeAt s a ((Instr.push .ebp).encode ++
      ([Instr.mov .ebp .esp, .aluImm .sub .esp 128].flatMap Instr.encode ++ ((Instr.push .ebx).encode ++
        ((Instr.push .esi).encode ++ ((Instr.push .edi).encode ++ []))))) := hcode
  obtain ⟨s₁, hstep₁, hcode₁, hregs₁, hmem₁⟩ := hcode₀.push_next he (by omega) fun k hk hk' => by
    have := hclear k (by omega) (show k < a + 12 from hk')
    omega
  obtain ⟨s₂, hexec, hregs₂⟩ : ∃ s₂, X86.execAll [.mov .ebp .esp, .aluImm .sub .esp 128] s₁ = some s₂ ∧
      s₂.regs = Function.update (Function.update s₁.regs .ebp (s₁.regs .esp)) .esp (s₁.regs .esp - 128) :=
    ⟨_, rfl, rfl⟩
  obtain ⟨hruns, hcode₂, hmem₂⟩ := X86.runs_straight (by decide) (by decide) hcode₁ hexec
  -- the registers that are the caller's
  have hesp₂ : s₂.regs .esp = e - 4 - 128 := by
    rw [hregs₂, hregs₁, Function.update_self, Function.update_self]
  obtain ⟨s₃, hstep₃, hcode₃, hregs₃, hmem₃⟩ := hcode₂.push_next hesp₂ (by omega) fun k hk hk' => by
    have := hclear k (by omega) (show k < a + 12 from hk')
    omega
  have hesp₃ : s₃.regs .esp = e - 4 - 128 - 4 := by rw [hregs₃, Function.update_self]
  obtain ⟨s₄, hstep₄, hcode₄, hregs₄, hmem₄⟩ := hcode₃.push_next hesp₃ (by omega) fun k hk hk' => by
    have := hclear k (by omega) (show k < a + 12 from hk')
    omega
  have hesp₄ : s₄.regs .esp = e - 4 - 128 - 4 - 4 := by rw [hregs₄, Function.update_self]
  obtain ⟨s₅, hstep₅, hcode₅, hregs₅, hmem₅⟩ := hcode₄.push_next hesp₄ (by omega) fun k hk hk' => by
    have := hclear k (by omega) (show k < a + 12 from hk')
    omega
  have hesp₅ : s₅.regs .esp = e - 144 := by rw [hregs₅, Function.update_self, hat]
  have hebp₅ : s₅.regs .ebp = e - 4 := by
    rw [hregs₅, hregs₄, hregs₃, hregs₂, hregs₁]
    rfl
  have hold : ∀ r, r ≠ .esp → r ≠ .ebp → s₂.regs r = s.regs r ∧ s₃.regs r = s.regs r ∧ s₄.regs r = s.regs r := by
    intro r hr hr'
    simp only [hregs₄, hregs₃, hregs₂, hregs₁, Function.update_of_ne hr, Function.update_of_ne hr', and_self]
  refine ⟨s₅, ?_, hcode₅.eip, ?_⟩
  · have hfirst : X86.Reaches s s₂ := hruns.reaches.head hstep₁
    exact ((hfirst.tail hstep₃).tail hstep₄).tail hstep₅
  obtain ⟨hebx, -, -⟩ := hold .ebx (by decide) (by decide)
  obtain ⟨-, hesi, -⟩ := hold .esi (by decide) (by decide)
  obtain ⟨-, -, hedi⟩ := hold .edi (by decide) (by decide)
  rw [hebx] at hmem₃
  rw [hesi] at hmem₄
  rw [hedi] at hmem₅
  refine ⟨hesp₅, hebp₅, ?_, ?_, ?_, ?_, fun k hk => ?_⟩
  · rw [hmem₅, X86.read_write_of_apart, hmem₄, X86.read_write_of_apart, hmem₃, X86.read_write_of_apart, hmem₂, hmem₁,
      X86.read_write] <;> omega
  · rw [hat₂, hmem₅, X86.read_write_of_apart, hmem₄, X86.read_write_of_apart, hmem₃, X86.read_write] <;> omega
  · rw [hat₁, hmem₅, X86.read_write_of_apart, hmem₄, X86.read_write]
    omega
  · rw [hat, hmem₅, X86.read_write]
  · rw [hmem₅, X86.write_of_not_mem, hmem₄, X86.write_of_not_mem, hmem₃, X86.write_of_not_mem, hmem₂, hmem₁,
      X86.write_of_not_mem] <;> omega

/-- The end of a function: the registers are read back, and the processor goes to where the call came from. -/
theorem leaves {s : Cpu} {a : Nat} {e : Word} {env : Linkage} {c : Codegen}
    (hcode : X86.CodeAt s a ((CgCall.funcEnd.asm env false c).flatMap Instr.encode)) (hesp : s.regs .esp = e - 144)
    (hebp : s.regs .ebp = e - 4) : ∃ s', X86.Reaches s s' ∧ s'.mem = s.mem ∧ s'.eip = X86.read s.mem e ∧
      s'.regs .esp = e + 4 ∧ s'.regs .ebp = X86.read s.mem (e - 4) ∧ s'.regs .edi = X86.read s.mem (e - 144) ∧
      s'.regs .esi = X86.read s.mem (e - 144 + 4) ∧ s'.regs .ebx = X86.read s.mem (e - 144 + 4 + 4) ∧
      s'.regs .eax = s.regs .eax := by
  have hcode₀ : X86.CodeAt s a (([Instr.pop .edi, .pop .esi, .pop .ebx, .mov .esp .ebp, .pop .ebp] : List Instr).flatMap
      Instr.encode ++ (Instr.ret.encode ++ [])) := hcode
  obtain ⟨s₁, hexec, hedi, hesi, hebx, hesp₁, hebp₁, heax⟩ :
      ∃ s₁, X86.execAll [.pop .edi, .pop .esi, .pop .ebx, .mov .esp .ebp, .pop .ebp] s = some s₁ ∧
        s₁.regs .edi = X86.read s.mem (s.regs .esp) ∧ s₁.regs .esi = X86.read s.mem (s.regs .esp + 4) ∧
        s₁.regs .ebx = X86.read s.mem (s.regs .esp + 4 + 4) ∧ s₁.regs .esp = s.regs .ebp + 4 ∧
        s₁.regs .ebp = X86.read s.mem (s.regs .ebp) ∧ s₁.regs .eax = s.regs .eax :=
    ⟨_, rfl, rfl, rfl, rfl, rfl, rfl, rfl⟩
  obtain ⟨hruns, hcode₁, hmem⟩ := X86.runs_straight (by decide) (by decide) hcode₀ hexec
  have hstep : X86.step s₁ = Instr.exec (s₁.fetched 1) .ret := hcode₁.step_eq rfl
  have hback : e - 4 + 4 = e := BitVec.sub_add_cancel e 4
  rw [hesp] at hedi hesi hebx
  rw [hebp] at hesp₁ hebp₁
  rw [hback] at hesp₁
  refine ⟨_, hruns.reaches.tail hstep, hmem, ?_, ?_, hebp₁, hedi, hesi, hebx, heax⟩
  · show X86.read s₁.mem (s₁.regs .esp) = _
    rw [hmem, hesp₁]
  · show s₁.regs .esp + 4 = _
    rw [hesp₁]

/-! ## Calls -/

/-- The values of the variables in the table when a function is called: arguments, and what the
stack holds where the locals will be. -/
def entryStore (T : Symbols) (s : Cpu) : Store :=
  fun x => X86.read s.mem (s.regs .esp - 4 + imm (T.deref (T.find x)).offset)

/-- What a call of a function with `p` parameters comes to, whose body ends with `x`. -/
structure Returned (p lo : Nat) (x : Exit (Option Word)) (s s' : Cpu) : Prop where
  eip : s'.eip = X86.read s.mem (s.regs .esp)
  esp : s'.regs .esp = s.regs .esp + 4
  saved : s'.regs .ebp = s.regs .ebp ∧ s'.regs .ebx = s.regs .ebx ∧ s'.regs .esi = s.regs .esi ∧
    s'.regs .edi = s.regs .edi
  value : ∀ v, x = .ret (some v) → s'.regs .eax = v
  mem : ∀ a, a < lo ∨ ((s.regs .esp).toNat ≤ a ∧ a < (s.regs .esp).toNat + 4) ∨
    (s.regs .esp).toNat + 4 + 4 * p ≤ a → s'.mem a = s.mem a

section Frame

variable {env : Linkage} {T : Symbols} {e : Word} {lo p : Nat} {s s₁ s₂ : Cpu} {c : Codegen} {calls : List CgCall}
  (hT : T.Laid p) (hlo : lo + 144 ≤ e.toNat) (hhi : e.toNat + 4 + 4 * p ≤ 4294967296)

include hT hlo hhi

/-- The frame is there when the body begins. -/
theorem Entered.holds (h : Entered e s s₁) (he : s.regs .esp = e) :
    (callFrame env T e lo).Holds (entryStore T s) s₁ := by
  have hroom : 144 ≤ e.toNat := by omega
  refine ⟨h.esp, h.ebp, fun y hy => ?_⟩
  rw [entryStore, he]
  refine X86.read_congr fun k hk hk' => h.mem k ?_
  have howns := owns_callFrame hT hroom hhi (.inr ⟨y, hy, hk, hk'⟩)
  have habove : (e - 144).toNat ≤ ((callFrame env T e lo).cell y).toNat := (sound_callFrame hT hroom hhi).above y hy
  rw [toNat_frame hroom] at habove
  omega

/-- So is the code, where it is clear of the stack and of the arguments. -/
theorem Entered.code (h : Entered e s s₁) (hplaced : Placed env s.mem false c calls)
    (hclear : ∀ a, codeBase + c.code.length ≤ a → a < codeBase + (runCalls calls c).code.length →
      a < lo ∨ e.toNat + 4 + 4 * p ≤ a) : (callFrame env T e lo).Code s₁.mem c calls := by
  refine ⟨hplaced.congr fun a ha ha' => h.mem a ?_, fun a ha ha' howns => ?_⟩
  · have hout := hclear a ha ha'
    omega
  · have hout := hclear a ha ha'
    have hin := owns_callFrame hT (by omega) hhi howns
    omega

/-- The call comes back from a body that kept the frame. -/
theorem Entered.returns {a : Nat} {x : Exit (Option Word)} {σ : Store} (h : Entered e s s₁) (he : s.regs .esp = e)
    (hkeeps : (callFrame env T e lo).Keeps s₁ s₂) (hholds : (callFrame env T e lo).Holds σ s₂)
    (hvalue : ∀ v, x = .ret (some v) → s₂.regs .eax = v)
    (hcode : X86.CodeAt s₂ a ((CgCall.funcEnd.asm env false c).flatMap Instr.encode)) :
    ∃ s', X86.Reaches s₂ s' ∧ Returned p lo x s s' := by
  have hroom : 144 ≤ e.toNat := by omega
  have hesp := toNat_frame hroom
  have h4 : (e - 4).toNat = e.toNat - 4 := X86.toNat_sub_four (by omega)
  have h140 : (e - 144 + 4).toNat = e.toNat - 140 := by
    rw [BitVec.toNat_add, hesp]
    show (_ + 4) % 4294967296 = _
    omega
  have h136 : (e - 144 + 4 + 4).toNat = e.toNat - 136 := by
    rw [BitVec.toNat_add, h140]
    show (_ + 4) % 4294967296 = _
    omega
  -- what is saved is not in a cell
  have hsaved : ∀ a : Word, (a.toNat = e.toNat - 4 ∨ a.toNat = e.toNat ∨
      (e.toNat - 144 ≤ a.toNat ∧ a.toNat + 4 ≤ e.toNat - 132)) → X86.read s₂.mem a = X86.read s₁.mem a := by
    intro a ha
    refine X86.read_congr fun k hk hk' => hkeeps.mem k fun howns => ?_
    have hin := owns_callFrame hT hroom hhi howns
    omega
  obtain ⟨s₃, hruns, hmem, heip, hesp₃, hebp₃, hedi, hesi, hebx, heax⟩ := leaves hcode hholds.esp hholds.ebp
  refine ⟨s₃, hruns, ?_, ?_, ⟨?_, ?_, ?_, ?_⟩, fun v hv => heax.trans (hvalue v hv), fun a ha => ?_⟩
  · rw [heip, hsaved e (by omega), he]
    exact X86.read_congr fun k hk hk' => h.mem k (by omega)
  · rw [hesp₃, he]
  · rw [hebp₃, hsaved _ (by omega), h.caller]
  · rw [hebx, hsaved _ (by omega), h.ebx]
  · rw [hesi, hsaved _ (by omega), h.esi]
  · rw [hedi, hsaved _ (by omega), h.edi]
  · rw [he] at ha
    have hout : ¬(callFrame env T e lo).Owns a := fun howns => by
      have hin := owns_callFrame hT hroom hhi howns
      omega
    rw [hmem, hkeeps.mem a hout]
    exact h.mem a (by omega)

end Frame

/-- The code of a function does what the function does. -/
theorem Function.runs {f : Function} {name : List UInt8} {dt : DataType} {t : Symbols} {c : Codegen} {env : Linkage}
    {n lo fuel : Nat} {s : Cpu} {x : Exit (Option Word)} {σ' : Store} (hvalid : f.Valid name dt t c.codePos)
    (hplaced : Placed env s.mem false c (f.calls name dt t c.codePos n)) (hat : c.At s)
    (hlo : lo + 144 + 4 * f.body.depth ≤ (s.regs .esp).toNat)
    (hhi : (s.regs .esp).toNat + 4 + 4 * f.params.length ≤ 4294967296)
    (hclear : ∀ a, codeBase + c.code.length ≤ a →
      a < codeBase + (runCalls (f.calls name dt t c.codePos n) c).code.length →
        a < lo ∨ (s.regs .esp).toNat + 4 + 4 * f.params.length ≤ a)
    (h : f.body.exec fuel (entryStore (f.body.table (f.table name dt t c.codePos)) s) = some (x, σ')) :
    ∃ s', X86.Reaches s s' ∧ Returned f.params.length lo x s s' := by
  generalize he : s.regs .esp = e at hlo hhi hclear
  have hlaid := hvalid.laid.grows (f.body.grows hvalid.body)
  have hroom : 144 ≤ e.toNat := by omega
  have hlo' : lo + 144 ≤ e.toNat := by omega
  have hlen : ((CgCall.funcBegin (t.function name dt).1).run c).code.length = c.code.length + 12 :=
    length_run hplaced.fits
  have hmore := length_le_runCalls (f.body.calls (f.table name dt t c.codePos) (n + 1) 0 0 ++ [.funcEnd])
    ((CgCall.funcBegin (t.function name dt).1).run c)
  rw [Function.calls, runCalls_cons] at hclear
  -- the beginning
  obtain ⟨s₁, hruns₁, heip₁, hentered⟩ := enters (hplaced.codeAt hat) he hroom fun k hk hk' => by
    have hout := hclear k hk (by omega)
    omega
  have hat₁ : ((CgCall.funcBegin (t.function name dt).1).run c).At s₁ := by
    rw [Codegen.At, hlen, ← Nat.add_assoc, heip₁]
  obtain ⟨hfirst, hlast⟩ := (hentered.code hlaid hlo' hhi hplaced.tail fun a ha ha' =>
    hclear a (by omega) ha').append (f.body.flows _ _ _ _)
  -- the body
  have hdepth : lo + 4 * f.body.depth ≤ (e - 144).toNat := by
    rw [toNat_frame hroom]
    omega
  have hsound : (callFrame env (f.body.table (f.table name dt t c.codePos)) e lo).Sound :=
    sound_callFrame hlaid hroom hhi
  obtain ⟨s₂, hruns₂, hkeeps, hends, hholds⟩ := Frame.does_block (n := n + 1) (b := 0) (k := 0) hsound f.body
    hvalid.body (.refl _) hdepth h hfirst hat₁ (hentered.holds hlaid hlo' hhi he)
  have hend : (runCalls (f.body.calls (f.table name dt t c.codePos) (n + 1) 0 0)
      ((CgCall.funcBegin (t.function name dt).1).run c)).At s₂ ∧ ∀ v, x = .ret (some v) → s₂.regs .eax = v := by
    cases x with
    | next => exact ⟨hends, fun v hv => by cases hv⟩
    | brk | cont => exact absurd (f.body.jumps hvalid.body h rfl) (Nat.lt_irrefl 0)
    | ret w =>
      refine ⟨Codegen.At.of_label hends.1 ?_, fun v hv => ?_⟩
      · rw [← (f.body.flows _ _ _ _).epilogue]
        exact hlast.placed.2.2.1 _ rfl
      · cases hv
        exact hends.2 v rfl
  -- the end
  obtain ⟨s₃, hruns₃, hreturned⟩ := hentered.returns hlaid hlo' hhi he hkeeps hholds hend.2
    ((hlast.keep hkeeps).placed.codeAt hend.1)
  exact ⟨s₃, (hruns₁.trans hruns₂).trans hruns₃, hreturned⟩

/-- The arguments are above the return address, the first one at the top of the stack. -/
theorem Function.Valid.entryStore_param {f : Function} {name : List UInt8} {dt : DataType} {t : Symbols} {pos : Int}
    (h : f.Valid name dt t pos) (s : Cpu) {i : Nat} (hi : i < f.params.length) :
    entryStore (f.body.table (f.table name dt t pos)) s f.params[i] =
      X86.read s.mem (s.regs .esp + BitVec.ofNat 32 (4 + 4 * i)) := by
  have hlaid := h.laid.grows (f.body.grows h.body)
  have hoffset := hlaid.offset i (Nat.lt_of_lt_of_le hi hlaid.params)
  have hsum : (8 + 4 * (i : Int)) = 4 + ((4 + 4 * i : Nat) : Int) := by omega
  rw [slotOffset, if_pos hi, hsum] at hoffset
  rw [entryStore, h.find_param hi, hoffset, imm, BitVec.ofInt_add, BitVec.ofInt_natCast, ← BitVec.add_assoc]
  exact congrArg (fun w => X86.read s.mem (w + _)) (BitVec.sub_add_cancel _ 4)

section Program

variable {fuel fuel' : Nat} {s₀ s₁ s : Compiler} {pre post : List Event} {f : Function} {name : List UInt8}
  {dt : DataType} {rest : Stream' Tok}

/-- Functions are compiled correctly: `parse_function` reads all of the function and nothing else,
and a call of its code, in the image of the program, comes back with what the body returns. It
keeps the registers of the caller, and writes only its arguments and the stack below them. -/
theorem function_compiled (hvalid : f.Valid name dt s.syms s.cg.codePos) (herr : s.hadError = none)
    (hloops : s.loops = []) (hs : s.lex.stream = f.tokens ++ₛ rest)
    (hroom : s.cg.numLabels + (1 + f.body.labels) ≤ cgLabelMax) (hfuel : f.tokens.length < fuel')
    (h : Stretch fuel s₀ s₁ s pre (parseFunction fuel' name dt s).log post) :
    ∃ s', parseFunction fuel' name dt s = ⟨.done (), s', (parseFunction fuel' name dt s).log⟩ ∧
      s'.lex.stream = rest ∧ s'.hadError = none ∧
      ∀ (buf : Bytes) (cpu : Cpu) (lo steps : Nat) (x : Exit (Option Word)) (σ : Store),
        Loads cpu.mem (s₁.cg.output s₁.syms buf) s₁.cg.stringStart → s.cg.At cpu →
        lo + 144 + 4 * f.body.depth ≤ (cpu.regs .esp).toNat →
        (cpu.regs .esp).toNat + 4 + 4 * f.params.length ≤ 4294967296 →
        (∀ a, cgLoadAddr ≤ a → a < cgLoadAddr + s₁.cg.stringStart →
          a < lo ∨ (cpu.regs .esp).toNat + 4 + 4 * f.params.length ≤ a) →
        f.body.exec steps (entryStore (f.body.table (f.table name dt s.syms s.cg.codePos)) cpu) = some (x, σ) →
        (∀ i (hi : i < f.params.length),
          entryStore (f.body.table (f.table name dt s.syms s.cg.codePos)) cpu f.params[i] =
            X86.read cpu.mem (cpu.regs .esp + BitVec.ofNat 32 (4 + 4 * i))) ∧
        ∃ cpu', X86.Reaches cpu cpu' ∧ Returned f.params.length lo x cpu cpu' := by
  have hspot : s.spot = ⟨f.tokens ++ₛ rest, s.syms, s.cg.numLabels, []⟩ := by rw [Compiler.spot, hs, hloops]
  obtain ⟨s', log, hrun, hcalls, -, herr', hspot'⟩ := moves_function hvalid hroom hfuel herr hspot rfl
  have hlog : (parseFunction fuel' name dt s).log = log := by rw [hrun]
  refine ⟨s', by rw [hlog, hrun], (Spot.mk.inj hspot').1, herr', ?_⟩
  intro buf cpu lo steps x σ hm hat hlo hhi hclear hx
  have hplaced := h.placed hm
  have hlength := h.length_le
  rw [hlog, hcalls] at hplaced hlength
  have hstr : ∀ call ∈ f.calls name dt s.syms s.cg.codePos s.cg.numLabels, call.isAddString = false := by
    intro call hcall
    rcases List.mem_cons.mp hcall with rfl | hcall
    · rfl
    · exact ((f.body.flows _ _ _ _).append (show Flows [.funcEnd] from rfl)).strings call hcall
  refine ⟨fun i hi => hvalid.entryStore_param cpu hi,
    Function.runs hvalid (hplaced.append hstr).1 hat hlo hhi (fun a ha ha' => hclear a ?_ ?_) hx⟩
  · have hbase : codeBase = cgLoadAddr + Codegen.codeStart := rfl
    omega
  · have hbase : codeBase = cgLoadAddr + Codegen.codeStart := rfl
    rw [Codegen.stringStart, Codegen.codePos]
    omega

end Program

/-! ### A program -/

/-- `int f(int n) { int s=0; while(n) { s=s+n; n=n-1; } return s; }` -/
def addSource : List UInt8 :=
  "int f(int n)\x7bint s=0;while(n)\x7bs=s+n;n=n-1;\x7dreturn s;\x7d".toList.map chr

/-- The function. -/
def addFunction : Function where
  params := [[chr 'n']]
  body :=
    .cons (.decl ⟨[chr 's'], some (.value (.num 0))⟩ []) <|
    .cons (.whileLoop (.value (.var [chr 'n'])) <| .block <|
      .cons (.act (.assign [chr 's'] (.value (.binary .add (.var [chr 's']) (.var [chr 'n']))))) <|
      .cons (.act (.assign [chr 'n'] (.value (.binary .sub (.var [chr 'n']) (.num 1))))) .nil) <|
    .cons (.returnStmt (some (.value (.var [chr 's'])))) .nil

/-- The statics when `parse_function` is called. -/
def addState : Compiler :=
  { Compiler.boot.init addSource with
    lex := lexInit ("int n)\x7bint s=0;while(n)\x7bs=s+n;n=n-1;\x7dreturn s;\x7d".toList.map chr) }

/-- The statics when `parse_program` has returned. -/
def addCompiled : Compiler := (parseProgram 60 (Compiler.boot.init addSource)).state

/-- The image in memory, and a call of the function with the argument 3 that comes from address 0x1234. -/
def addCpu : Cpu where
  regs := Function.update (fun _ => 0) .esp 0x90000
  eip := BitVec.ofNat 32 (codeBase + addState.cg.code.length)
  zf := false
  sf := false
  of := false
  mem a :=
    if a < cgLoadAddr then Bytes.store (fun _ => 0) 0x90000 [0x34, 0x12, 0, 0, 3] a
    else if a < cgLoadAddr + addCompiled.cg.stringStart then
      addCompiled.cg.output addCompiled.syms (fun _ => 0) (a - cgLoadAddr)
    else 0

/-- It can be compiled. -/
theorem addFunction_valid : addFunction.Valid [chr 'f'] .int addState.syms addState.cg.codePos := by
  generalize ht : addFunction.table [chr 'f'] .int addState.syms addState.cg.codePos = t
  have hn : t.Local [chr 'n'] := by
    subst ht
    exact ⟨⟨by decide +kernel, by decide +kernel, by decide +kernel, by decide +kernel, by decide +kernel⟩,
      by decide +kernel, by decide +kernel⟩
  have hroom : t.locals.length < symMaxLocal := by
    subst ht
    decide +kernel
  have hfresh : t.findLocal [chr 's'] = .null := by
    subst ht
    decide +kernel
  have hs := Symbols.local_declare (by decide) hfresh hroom
  have hn' := ((Symbols.below_declare (x := [chr 's']) hroom).symbol hn).1
  have hzero : (Act.value (.num 0)).Valid (t.declare [chr 's']) := by
    simp [Act.Valid, Act.Grammatical, Act.vars, Expr.vars, Expr.Grammatical, Expr.headFlat,
      Expr.flatParens, Expr.headed,
      Expr.flat]
  refine ⟨by decide, by decide, by decide, ?_⟩
  rw [ht]
  simp [addFunction, Block.Valid, Stmt.Valid, DeclValid, OptValid, Act.Valid, Act.Grammatical, Act.vars, Expr.vars,
    Expr.Grammatical, Expr.headFlat, Expr.flatParens, Expr.headed, Expr.flat, Expr.rank, BinOp.rank, Stmt.table,
    Block.table, declTable, hn', hs]
  exact ⟨by decide, hfresh, hroom, fun a ha => Option.mem_some_iff.mp ha ▸ hzero⟩

/-- The sum of the numbers to 3 is 6. -/
theorem function_compiled_sum : ∃ cpu', X86.Reaches addCpu cpu' ∧ cpu'.eip = 0x1234 ∧ cpu'.regs .eax = 6 ∧
    cpu'.regs .esp = 0x90004 := by
  have hout : (parseProgram 60 (Compiler.boot.init addSource)).out = .done () := by decide +kernel
  have hlog : (parseProgram 60 (Compiler.boot.init addSource)).log =
      [.copy [chr 'f']] ++ ((parseFunction 60 [chr 'f'] .int addState).log ++ []) := by decide +kernel
  have hstretch : Stretch 60 (Compiler.boot.init addSource) addCompiled addState [.copy [chr 'f']]
      (parseFunction 60 [chr 'f'] .int addState).log [] :=
    ⟨⟨Compiler.boot.cg, rfl⟩, Prog.run_eq hout hlog, rfl, rfl, by decide +kernel⟩
  have htokens : (addState.lex.ahead 31).1 = addFunction.tokens := by decide +kernel
  have hs : addState.lex.stream = addFunction.tokens ++ₛ (addState.lex.ahead 31).2.stream := by
    rw [addState.lex.stream_ahead 31, htokens]
  have hesp : (addCpu.regs .esp).toNat = 0x90000 := rfl
  have hbase : cgLoadAddr = 0x200000 := rfl
  have hload : Loads addCpu.mem (addCompiled.cg.output addCompiled.syms fun _ => 0) addCompiled.cg.stringStart := by
    intro i hi
    show (if cgLoadAddr + i < cgLoadAddr then _ else _) = _
    rw [if_neg (by omega), if_pos (Nat.add_lt_add_left hi _), Nat.add_sub_cancel_left]
  have hvalue : (addFunction.body.exec 4 (entryStore (addFunction.body.table
      (addFunction.table [chr 'f'] .int addState.syms addState.cg.codePos)) addCpu)).map Prod.fst =
        some (.ret (some 6)) := by decide +kernel
  obtain ⟨⟨x, σ⟩, hx, hend⟩ := Option.map_eq_some_iff.mp hvalue
  obtain ⟨s', -, -, -, hrun⟩ := function_compiled addFunction_valid rfl rfl hs (by decide +kernel)
    (by decide +kernel) hstretch
  have hclear : ∀ a, cgLoadAddr ≤ a → a < cgLoadAddr + addCompiled.cg.stringStart →
      a < 0x80000 ∨ (addCpu.regs .esp).toNat + 4 + 4 * addFunction.params.length ≤ a := by
    intro a ha _
    rw [hesp]
    exact Or.inr (Nat.le_trans (by decide) ha)
  obtain ⟨-, cpu', hruns, hreturned⟩ := hrun (fun _ => 0) addCpu 0x80000 4 x σ hload rfl
    (by rw [hesp]; decide +kernel) (by rw [hesp]; decide) hclear hx
  have heip : X86.read addCpu.mem (addCpu.regs .esp) = 0x1234 := by decide +kernel
  exact ⟨cpu', hruns, hreturned.eip.trans heip, hreturned.value 6 hend, hreturned.esp⟩

end RainbowOs.Cc
