import RainbowOs.Cc.Run

/-!
# What the code of an expression computes

The calls of an expression, placed in memory, leave its value in EAX, every
register but EAX, ECX and EDX as it was, and the memory outside a stretch of
the stack below ESP. The induction is on the expression: a strict operator
keeps its left operand on the stack while the right one is computed, `&&`
and `||` jump over theirs.
-/

namespace RainbowOs.Cc

open RainbowOs.Lib
open X86 (Word Cpu Reg Instr)

/-! ## Operators on the machine -/

/-- What the code of an expression leaves: all registers but three, and the memory outside the
stretch from `lo` up to ESP. -/
structure Kept (lo : Nat) (s s' : Cpu) : Prop where
  regs : ∀ r, r ≠ .eax → r ≠ .ecx → r ≠ .edx → s'.regs r = s.regs r
  mem : ∀ a, a < lo ∨ (s.regs .esp).toNat ≤ a → s'.mem a = s.mem a

namespace Kept

variable {lo : Nat} {s s' s'' : Cpu}

theorem refl (lo : Nat) (s : Cpu) : Kept lo s s := ⟨fun _ _ _ _ => rfl, fun _ _ => rfl⟩

theorem esp (h : Kept lo s s') : s'.regs .esp = s.regs .esp := h.regs .esp nofun nofun nofun

theorem ebp (h : Kept lo s s') : s'.regs .ebp = s.regs .ebp := h.regs .ebp nofun nofun nofun

theorem trans (h : Kept lo s s') (h' : Kept lo s' s'') : Kept lo s s'' := by
  refine ⟨fun r ha hc hd => (h'.regs r ha hc hd).trans (h.regs r ha hc hd), fun a ha => ?_⟩
  exact (h'.mem a (h.esp.symm ▸ ha)).trans (h.mem a ha)

/-- The memory outside a stretch that ESP is in. -/
theorem outside (h : Kept lo s s') (hi : Nat) (hhi : (s.regs .esp).toNat ≤ hi) (a : Nat)
    (ha : a < lo ∨ hi ≤ a) : s'.mem a = s.mem a := h.mem a (by omega)

/-- Code that changes registers only. -/
theorem of_mem (hregs : ∀ r, r ≠ .eax → r ≠ .ecx → r ≠ .edx → s'.regs r = s.regs r)
    (hmem : s'.mem = s.mem) : Kept lo s s' := ⟨hregs, fun a _ => congrFun hmem a⟩

end Kept

theorem sle_eq (a b : Word) : (decide (a = b) || a.slt b) = decide (a.toInt ≤ b.toInt) := by
  have heq : decide (a = b) = decide (a.toInt = b.toInt) := decide_eq_decide.mpr BitVec.toInt_inj.symm
  have hlt : a.slt b = decide (a.toInt < b.toInt) := rfl
  rw [heq, hlt, ← Bool.decide_or]
  exact decide_eq_decide.mpr (by omega)

/-- A comparison, by its condition. -/
theorem BinOp.compare_eq {op : BinOp} {a b v : Word} (hcall : op.call = .cmp op.tok)
    (hop : op.jumps = false) (hv : op.apply a b = some v) :
    truth ((condOf op.tok).compare a b) = v := by
  cases op with
  | lt | eq =>
    cases hv
    rfl
  | le =>
    cases hv
    exact congrArg truth (sle_eq a b)
  | gt =>
    cases hv
    apply congrArg truth
    show (!(decide (a = b) || a.slt b)) = _
    rw [sle_eq, ← decide_not]
    exact decide_eq_decide.mpr Int.not_le
  | ge =>
    cases hv
    apply congrArg truth
    show (!decide (a.toInt < b.toInt)) = _
    rw [← decide_not]
    exact decide_eq_decide.mpr Int.not_lt
  | ne =>
    cases hv
    rfl
  | land | lor => cases hop
  | _ => cases hcall

/-- The truth value that a comparison of ECX with EAX leaves. -/
theorem exec_compare (env : Linkage) (str : Bool) (c : Codegen) (op : Tok) {s : Cpu} {a b : Word}
    (ha : s.regs .ecx = a) (hb : s.regs .eax = b) :
    ∃ s', X86.execAll ((CgCall.cmp op).asm env str c) s = some s' ∧
      s'.regs .eax = truth ((condOf op).compare a b) ∧
      ∀ r, r ≠ .eax → r ≠ .ecx → r ≠ .edx → s'.regs r = s.regs r := by
  subst ha hb
  refine ⟨_, rfl, ?_, ?_⟩
  · have hflags := X86.holds_flags s (condOf op) (s.regs .ecx) (s.regs .eax)
    have hlow := X86.and_or_low (s.regs .eax) ((condOf op).compare (s.regs .ecx) (s.regs .eax))
    rw [← hflags] at hlow ⊢
    exact hlow
  · intro r hr _ _
    simp [Cpu.set, Cpu.fetched, Cpu.alu, Cpu.flags, hr]

/-- The quotient and the remainder of ECX and EAX. -/
theorem exec_divide {s : Cpu} {a b : Word} (ha : s.regs .ecx = a) (hb : s.regs .eax = b)
    (hfit : ¬(b = 0 ∨ (a = BitVec.intMin 32 ∧ b = -1))) :
    ∃ s', X86.execAll [.xchg .ecx, .cdq, .idiv .ecx] s = some s' ∧ s'.regs .eax = a.sdiv b ∧
      s'.regs .edx = a.srem b ∧ ∀ r, r ≠ .eax → r ≠ .ecx → r ≠ .edx → s'.regs r = s.regs r := by
  subst ha hb
  let s₁ := (((s.fetched 1).set .eax (s.regs .ecx)).set .ecx (s.regs .eax)).fetched 1
  let s₂ := (s₁.set .edx (if (s₁.regs .eax).msb then BitVec.allOnes 32 else 0)).fetched 2
  have heax : s₂.regs .eax = s.regs .ecx := rfl
  have hdiv := X86.divide_eq heax (s := s₂) rfl (not_or.mp hfit).1 (not_or.mp hfit).2
  refine ⟨_, congrArg (Option.bind · some) hdiv, rfl, rfl, fun r hr hr' hr'' => ?_⟩
  simp [s₂, s₁, Cpu.set, Cpu.fetched, hr, hr', hr'']

/-- The code of a strict operator. -/
theorem BinOp.exec {op : BinOp} (hop : op.jumps = false) (env : Linkage) (str : Bool) (c : Codegen)
    {s : Cpu} {a b v : Word} (ha : s.regs .ecx = a) (hb : s.regs .eax = b)
    (hv : op.apply a b = some v) :
    ∃ s', X86.execAll (op.call.asm env str c) s = some s' ∧ s'.regs .eax = v ∧
      ∀ r, r ≠ .eax → r ≠ .ecx → r ≠ .edx → s'.regs r = s.regs r := by
  cases op with
  | land | lor => cases hop
  | lt | gt | le | ge | eq | ne =>
    obtain ⟨s', hexec, heax, hregs⟩ :=
      exec_compare env str c (BinOp.tok _) ha hb
    exact ⟨s', hexec, heax.trans (BinOp.compare_eq rfl rfl hv), hregs⟩
  | add | mul | band | bxor | bor =>
    subst ha hb
    cases hv
    refine ⟨_, rfl, ?_, fun r hr _ _ => ?_⟩
    · simp [Cpu.set, Cpu.fetched, Cpu.alu, Cpu.flags, BitVec.add_comm, BitVec.mul_comm, BitVec.and_comm,
        BitVec.or_comm, BitVec.xor_comm]
    · simp [Cpu.set, Cpu.fetched, Cpu.alu, Cpu.flags, hr]
  | sub =>
    subst ha hb
    cases hv
    refine ⟨_, rfl, ?_, fun r hr hr' _ => ?_⟩
    · simp [Cpu.set, Cpu.fetched, Cpu.alu, Cpu.flags]
    · simp [Cpu.set, Cpu.fetched, Cpu.alu, Cpu.flags, hr, hr']
  | shl =>
    subst ha hb
    simp only [apply] at hv
    split at hv
    · next hlt =>
      cases hv
      refine ⟨_, rfl, ?_, fun r hr hr' _ => ?_⟩
      · simp [Cpu.set, Cpu.fetched, Nat.mod_eq_of_lt hlt]
      · simp [Cpu.set, Cpu.fetched, hr, hr']
    · cases hv
  | shr =>
    subst ha hb
    simp only [apply] at hv
    split at hv
    · next hlt =>
      cases hv
      refine ⟨_, rfl, ?_, fun r hr hr' _ => ?_⟩
      · have hmsb : (s.regs .ecx).msb = false := by
          rw [BitVec.msb_eq_toInt]
          exact decide_eq_false (Int.not_lt.mpr hlt.2)
        simp [Cpu.set, Cpu.fetched, Nat.mod_eq_of_lt hlt.1, BitVec.sshiftRight_eq_of_msb_false hmsb]
      · simp [Cpu.set, Cpu.fetched, hr, hr']
    · cases hv
  | div =>
    simp only [apply] at hv
    split at hv
    · cases hv
    · next hfit =>
      cases hv
      obtain ⟨s', hexec, heax, _, hregs⟩ := exec_divide ha hb hfit
      exact ⟨s', hexec, heax, hregs⟩
  | mod =>
    simp only [apply] at hv
    split at hv
    · cases hv
    · next hfit =>
      cases hv
      obtain ⟨s', hexec, _, hedx, hregs⟩ := exec_divide ha hb hfit
      refine ⟨(s'.fetched 2).set .eax (s'.regs .edx), ?_, hedx, fun r hr hr' hr'' => ?_⟩
      · exact (X86.execAll_append [.xchg .ecx, .cdq, .idiv .ecx] [.mov .eax .edx] s).trans
          (congrArg (Option.bind · _) hexec)
      · rw [← hregs r hr hr' hr'']
        exact Function.update_of_ne hr _ _

/-- The code of a unary operator. -/
theorem UnOp.exec (op : UnOp) (env : Linkage) (str : Bool) (c : Codegen) (s : Cpu) :
    ∃ s', X86.execAll (op.call.asm env str c) s = some s' ∧ s'.regs .eax = op.apply (s.regs .eax) ∧
      ∀ r, r ≠ .eax → r ≠ .ecx → r ≠ .edx → s'.regs r = s.regs r := by
  cases op with
  | neg | bnot =>
    refine ⟨_, rfl, rfl, fun r hr _ _ => ?_⟩
    exact Function.update_of_ne hr _ _
  | lnot =>
    refine ⟨_, rfl, ?_, fun r hr _ _ => ?_⟩
    · have hvalue : UnOp.lnot.apply (s.regs .eax) =
          truth ((s.flags (s.regs .eax &&& s.regs .eax) false).holds .e) := by
        rw [X86.holds_test_e, BitVec.and_self]
        rfl
      have hlow := X86.and_or_low (s.regs .eax)
        ((s.flags (s.regs .eax &&& s.regs .eax) false).holds .e)
      rw [hvalue]
      exact hlow
    · simp [Cpu.set, Cpu.fetched, Cpu.flags, hr]

theorem BinOp.straight {op : BinOp} (hop : op.jumps = false) (env : Linkage) (str : Bool)
    (c : Codegen) : ∀ i ∈ op.call.asm env str c, i.Straight := by
  apply List.all_eq_true.mp
  cases op with
  | land | lor => cases hop
  | _ => rfl

theorem UnOp.straight (op : UnOp) (env : Linkage) (str : Bool) (c : Codegen) :
    ∀ i ∈ op.call.asm env str c, i.Straight := by
  apply List.all_eq_true.mp
  cases op <;> rfl

/-! ## Code and variables outside the stack -/

/-- Memory holds the code of the calls, outside the stretch of the stack. -/
structure Loaded (env : Linkage) (m : Bytes) (lo hi : Nat) (c : Codegen) (calls : List CgCall) :
    Prop where
  placed : Placed env m false c calls
  clear : ∀ a, codeBase + c.code.length ≤ a → a < codeBase + (runCalls calls c).code.length →
    a < lo ∨ hi ≤ a

namespace Loaded

variable {env : Linkage} {m m' : Bytes} {lo hi : Nat} {c : Codegen} {calls calls' : List CgCall}

theorem congr (h : Loaded env m lo hi c calls) (hm : ∀ a, a < lo ∨ hi ≤ a → m' a = m a) :
    Loaded env m' lo hi c calls :=
  ⟨h.placed.congr fun a ha ha' => hm a (h.clear a ha ha'), h.clear⟩

theorem append (hstr : ∀ call ∈ calls, call.isAddString = false)
    (h : Loaded env m lo hi c (calls ++ calls')) :
    Loaded env m lo hi c calls ∧ Loaded env m lo hi (runCalls calls c) calls' := by
  obtain ⟨hfirst, hsecond⟩ := h.placed.append hstr
  have hle := length_le_runCalls calls c
  have hle' := length_le_runCalls calls' (runCalls calls c)
  have hclear := h.clear
  rw [runCalls_append] at hclear
  exact ⟨⟨hfirst, fun a ha ha' => hclear a ha (by omega)⟩,
    ⟨hsecond, fun a ha ha' => hclear a (by omega) ha'⟩⟩

theorem tail {call : CgCall} (hstr : call.isAddString = false)
    (h : Loaded env m lo hi c (call :: calls)) : Loaded env m lo hi (call.run c) calls := by
  have hone : ∀ x ∈ [call], x.isAddString = false := by
    intro x hx
    rw [List.mem_singleton.mp hx, hstr]
  exact (append hone h).2

end Loaded

/-- Where a variable is in memory. -/
def Symbols.cell (t : Symbols) (env : Linkage) (s : Cpu) (x : List UInt8) : Word :=
  let sym := t.deref (t.find x)
  if sym.onStack then s.regs .ebp + imm sym.offset else imm (env.data + sym.offset)

/-- The variables are in memory, outside the stretch of the stack, and have the values of `σ`. -/
def Sees (env : Linkage) (t : Symbols) (σ : List UInt8 → Word) (lo hi : Nat) (s : Cpu)
    (xs : List (List UInt8)) : Prop :=
  ∀ x ∈ xs, ((t.cell env s x).toNat + 4 ≤ lo ∨ hi ≤ (t.cell env s x).toNat) ∧
    X86.read s.mem (t.cell env s x) = σ x

theorem Sees.congr {env : Linkage} {t : Symbols} {σ : List UInt8 → Word} {lo hi : Nat} {s s' : Cpu}
    {xs : List (List UInt8)} (h : Sees env t σ lo hi s xs) (hebp : s'.regs .ebp = s.regs .ebp)
    (hm : ∀ a, a < lo ∨ hi ≤ a → s'.mem a = s.mem a) : Sees env t σ lo hi s' xs := by
  intro x hx
  have hcell : t.cell env s' x = t.cell env s x := by rw [Symbols.cell, Symbols.cell, hebp]
  obtain ⟨hplace, hvalue⟩ := h x hx
  rw [hcell]
  refine ⟨hplace, Eq.trans (X86.read_congr fun k hk hk' => hm k ?_) hvalue⟩
  omega

/-! ## Expressions -/

/-- Where a jump to a label ends. -/
theorem Codegen.At.of_label {env : Linkage} {id : Int} {c : Codegen} {s : Cpu}
    (hs : s.eip = imm (codeBase + env.label id)) (hid : env.label id = c.code.length) : c.At s := by
  rw [Codegen.At, hs, hid, ← BitVec.ofInt_natCast]
  rfl

section Run

variable {env : Linkage} {c : Codegen} {calls : List CgCall} {s : Cpu} {lo hi : Nat}

/-- A run of `calls` from `s` that leaves `v` in EAX and keeps the rest. -/
def RunsTo (calls : List CgCall) (c : Codegen) (lo : Nat) (s : Cpu) (v : Word) : Prop :=
  ∃ s', X86.RunsBelow (s.regs .esp).toNat s s' ∧ (runCalls calls c).At s' ∧ s'.regs .eax = v ∧
    Kept lo s s'

/-- The first call, and the others. -/
theorem runsTo_cons {call : CgCall} {v : Word} :
    RunsTo (call :: calls) c lo s v ↔ RunsTo calls (call.run c) lo s v := Iff.rfl

/-- One call of straight code that keeps what an expression keeps. -/
theorem runsTo_of_exec {call : CgCall} {v : Word} (h : Loaded env s.mem lo hi c (call :: calls))
    (hs : c.At s) (hstraight : ∀ i ∈ call.asm env false c, i.Straight)
    (hexec : ∃ s', X86.execAll (call.asm env false c) s = some s' ∧ s'.regs .eax = v ∧
      ∀ r, r ≠ .eax → r ≠ .ecx → r ≠ .edx → s'.regs r = s.regs r) : RunsTo [call] c lo s v := by
  obtain ⟨s', hexec, heax, hregs⟩ := hexec
  obtain ⟨hruns, hat, hmem⟩ := h.placed.straight hs hstraight hexec
  exact ⟨s', hruns.mono (Nat.zero_le _), hat, heax, .of_mem hregs hmem⟩

/-- A literal. -/
theorem runsTo_loadNum {k : Int} (h : Loaded env s.mem lo hi c (.loadNum k :: calls)) (hs : c.At s) :
    RunsTo [.loadNum k] c lo s (imm k) :=
  runsTo_of_exec h hs (List.all_eq_true.mp rfl)
    ⟨_, rfl, rfl, fun _ hr _ _ => Function.update_of_ne hr _ _⟩

/-- A variable. -/
theorem runsTo_loadCall {t : Symbols} {σ : List UInt8 → Word} {x : List UInt8}
    (h : Loaded env s.mem lo hi c (Expr.loadCall (t.deref (t.find x)) :: calls)) (hs : c.At s)
    (hx : Sees env t σ lo hi s [x]) :
    RunsTo [Expr.loadCall (t.deref (t.find x))] c lo s (σ x) := by
  have hvalue := (hx x List.mem_cons_self).2
  rw [Symbols.cell] at hvalue
  unfold Expr.loadCall at h ⊢
  split
  · next hstack =>
    rw [if_pos hstack] at h hvalue
    exact runsTo_of_exec h hs (List.all_eq_true.mp rfl)
      ⟨_, rfl, hvalue, fun _ hr _ _ => Function.update_of_ne hr _ _⟩
  · next hstack =>
    rw [if_neg hstack] at h hvalue
    exact runsTo_of_exec h hs (List.all_eq_true.mp rfl)
      ⟨_, rfl, hvalue, fun _ hr _ _ => Function.update_of_ne hr _ _⟩

/-- Two stretches of code. -/
theorem RunsTo.append {calls' : List CgCall} {v v' : Word} (h : RunsTo calls c lo s v)
    (h' : ∀ s', (runCalls calls c).At s' → s'.regs .eax = v → Kept lo s s' →
      RunsTo calls' (runCalls calls c) lo s' v') : RunsTo (calls ++ calls') c lo s v' := by
  obtain ⟨s₁, hruns, hat, heax, hkept⟩ := h
  obtain ⟨s₂, hruns', hat', heax', hkept'⟩ := h' s₁ hat heax hkept
  refine ⟨s₂, hruns.trans (hkept.esp ▸ hruns'), ?_, heax', hkept.trans hkept'⟩
  rw [runCalls_append]
  exact hat'

/-- The right operand of a strict operator, and the operator. -/
theorem runsTo_strict {op : BinOp} (hop : op.jumps = false) {right : List CgCall} {a b v : Word}
    {k : Nat} (hstr : ∀ call ∈ right, call.isAddString = false)
    (h : Loaded env s.mem lo hi c (.push :: right ++ [.popIntoEcx, op.call])) (hs : c.At s)
    (heax : s.regs .eax = a) (hlo : lo + 4 * (k + 1) ≤ (s.regs .esp).toNat)
    (hhi : (s.regs .esp).toNat ≤ hi) (hv : op.apply a b = some v)
    (hright : ∀ s₁, (CgCall.push.run c).At s₁ → Loaded env s₁.mem lo hi (CgCall.push.run c) right →
      lo + 4 * k ≤ (s₁.regs .esp).toNat → (s₁.regs .esp).toNat ≤ hi →
      s₁.regs .ebp = s.regs .ebp → (∀ a, a < lo ∨ hi ≤ a → s₁.mem a = s.mem a) →
        RunsTo right (CgCall.push.run c) lo s₁ b) :
    RunsTo (.push :: right ++ [.popIntoEcx, op.call]) c lo s v := by
  obtain ⟨s₁, hruns₁, hat₁, hregs₁, hmem₁⟩ := h.placed.push hs (by omega)
  have hesp₁ : s₁.regs .esp = s.regs .esp - 4 := by rw [hregs₁, Function.update_self]
  have hother₁ : ∀ r, r ≠ .esp → s₁.regs r = s.regs r := fun r hr => by
    rw [hregs₁, Function.update_of_ne hr]
  have hsub : (s₁.regs .esp).toNat = (s.regs .esp).toNat - 4 := by
    rw [hesp₁, X86.toNat_sub_four (by omega)]
  -- the push writes to the stack only
  have hframe₁ : ∀ x, x < lo ∨ (s.regs .esp).toNat ≤ x → s₁.mem x = s.mem x := by
    intro x hx
    rw [hmem₁]
    apply X86.write_of_not_mem
    rw [← hesp₁]
    omega
  have hout₁ : ∀ x, x < lo ∨ hi ≤ x → s₁.mem x = s.mem x := fun x hx => hframe₁ x (by omega)
  have hloaded₁ := (h.congr hout₁).tail rfl
  obtain ⟨hloadedr, hloadedt⟩ := hloaded₁.append hstr
  obtain ⟨s₂, hruns₂, hat₂, heax₂, hkept₂⟩ :=
    hright s₁ hat₁ hloadedr (by omega) (by omega) (hother₁ .ebp nofun) hout₁
  have hloaded₂ := hloadedt.congr (hkept₂.outside hi (by omega))
  -- the left operand is still on the stack
  have hpop : X86.read s₂.mem (s₂.regs .esp) = a := by
    rw [hkept₂.esp, ← heax, ← X86.read_write s.mem (s₁.regs .esp) (s.regs .eax), hesp₁, ← hmem₁]
    apply X86.read_congr
    intro x hx _
    exact hkept₂.mem x (Or.inr (hesp₁ ▸ hx))
  let s₃ := ((s₂.fetched 1).set .esp (s₂.regs .esp + 4)).set .ecx (X86.read s₂.mem (s₂.regs .esp))
  let c₂ := runCalls right (CgCall.push.run c)
  have hexec₃ : X86.execAll (CgCall.popIntoEcx.asm env false c₂) s₂ = some s₃ := rfl
  obtain ⟨hruns₃, hat₃, hmem₃⟩ :=
    hloaded₂.placed.straight hat₂ (List.all_eq_true.mp rfl) hexec₃
  have hloaded₃ := (hloaded₂.congr fun x _ => congrFun hmem₃ x).tail rfl
  have hecx₃ : s₃.regs .ecx = a := hpop
  obtain ⟨s₄, hexec₄, heax₄, hregs₄⟩ := BinOp.exec hop env false (CgCall.popIntoEcx.run c₂)
    hecx₃ heax₂ hv
  obtain ⟨hruns₄, hat₄, hmem₄⟩ :=
    hloaded₃.placed.straight hat₃ (BinOp.straight hop env false _) hexec₄
  refine ⟨s₄, ?_, ?_, heax₄, ?_, ?_⟩
  · exact hruns₁.trans ((hruns₂.mono (by omega)).trans
      ((hruns₃.mono (Nat.zero_le _)).trans (hruns₄.mono (Nat.zero_le _))))
  · rw [List.cons_append, runCalls_cons, runCalls_append]
    exact hat₄
  · intro r hr hr' hr''
    rw [hregs₄ r hr hr' hr'']
    by_cases hsp : r = .esp
    · subst hsp
      have hback : s₂.regs .esp + 4 = s.regs .esp := by
        rw [hkept₂.esp, hesp₁]
        exact BitVec.sub_add_cancel _ _
      simpa [s₃, Cpu.set] using hback
    · have hback := (hkept₂.regs r hr hr' hr'').trans (hother₁ r hsp)
      simpa [s₃, Cpu.set, Cpu.fetched, hr', hsp] using hback
  · intro x hx
    rw [hmem₄, hmem₃, hkept₂.mem x (by omega), hframe₁ x hx]

/-- A run that goes on from a state with the same registers and memory. -/
theorem RunsTo.after {c' : Codegen} {calls' : List CgCall} {s' : Cpu} {v : Word}
    (h : RunsTo calls c lo s' v) (hruns : X86.RunsBelow 0 s s') (hregs : s'.regs = s.regs)
    (hmem : s'.mem = s.mem) (hend : runCalls calls' c' = runCalls calls c) :
    RunsTo calls' c' lo s v := by
  obtain ⟨s₂, hruns', hat, heax, hkept⟩ := h
  rw [hregs] at hruns'
  refine ⟨s₂, (hruns.mono (Nat.zero_le _)).trans hruns', hend ▸ hat, heax, ?_, ?_⟩
  · exact fun r hr hr' hr'' => (hkept.regs r hr hr' hr'').trans (congrFun hregs r)
  · exact fun x hx => (hkept.mem x (hregs ▸ hx)).trans (congrFun hmem x)

/-- A label after the code of a value. -/
theorem RunsTo.label {v : Word} (h : RunsTo calls c lo s v) (id : Int) :
    RunsTo (calls ++ [.label id]) c lo s v := by
  apply h.append
  intro s' hs' heax _
  have hat : ((CgCall.label id).run (runCalls calls c)).At s' := Placed.pass rfl hs'
  exact ⟨s', .refl, hat, heax, .refl lo s'⟩

/-- A jump that is taken where `P` holds of EAX. -/
def BranchesOn (jump : Int → CgCall) (P : Word → Prop) : Prop :=
  ∀ ⦃env : Linkage⦄ ⦃c : Codegen⦄ ⦃id : Int⦄ ⦃calls : List CgCall⦄ ⦃s : Cpu⦄,
    Placed env s.mem false c (jump id :: calls) → c.At s →
      ∃ s', X86.RunsBelow 0 s s' ∧ s'.regs = s.regs ∧ s'.mem = s.mem ∧
        (P (s.regs .eax) → s'.eip = imm (codeBase + env.label id)) ∧
        (¬P (s.regs .eax) → ((jump id).run c).At s')

theorem branchesOn_jumpZero : BranchesOn .jumpZero (· = 0) := by
  intro env c id calls s h hs
  obtain ⟨s', hruns, hregs, hmem, heip⟩ := h.jumpZero hs
  exact ⟨s', hruns, hregs, hmem, fun hp => (if_pos hp).mp heip, fun hp => (if_neg hp).mp heip⟩

theorem branchesOn_jumpNonzero : BranchesOn .jumpNonzero (· ≠ 0) := by
  intro env c id calls s h hs
  obtain ⟨s', hruns, hregs, hmem, heip⟩ := h.jumpNonzero hs
  exact ⟨s', hruns, hregs, hmem, fun hp => (if_neg hp).mp heip,
    fun hp => (if_pos (not_not.mp hp)).mp heip⟩

/-- The calls from the label of `&&` and `||` on: an operand has decided. -/
def decidedCalls (decided : Int) (lbl last : Nat) : List CgCall :=
  [.label lbl, .loadNum decided, .label last]

/-- The calls after both operands of `&&` and `||`: none has decided. -/
def otherCalls (decided other : Int) (lbl last : Nat) : List CgCall :=
  [.loadNum other, .newLabel, .jump last] ++ decidedCalls decided lbl last

variable {decided other : Int} {lbl last : Nat}

theorem runsTo_decided (h : Loaded env s.mem lo hi c (decidedCalls decided lbl last)) (hs : c.At s) :
    RunsTo (decidedCalls decided lbl last) c lo s (imm decided) := by
  have hload := (runsTo_loadNum (h.tail rfl) (Placed.pass rfl hs)).label last
  exact runsTo_cons.mpr hload

theorem runsTo_other (h : Loaded env s.mem lo hi c (otherCalls decided other lbl last))
    (hs : c.At s) (hhi : (s.regs .esp).toNat ≤ hi) :
    RunsTo (otherCalls decided other lbl last) c lo s (imm other) := by
  simp only [otherCalls, decidedCalls, List.cons_append, List.nil_append] at h ⊢
  obtain ⟨s₁, hruns₁, hat₁, heax₁, hkept₁⟩ := runsTo_loadNum h hs
  rw [runCalls_cons, runCalls_nil] at hat₁
  have hjump := ((h.congr (hkept₁.outside hi hhi)).tail rfl).tail rfl
  have hend := ((hjump.tail rfl).tail rfl).tail rfl
  obtain ⟨s₂, hruns₂, heip₂, hregs₂, hmem₂⟩ := hjump.placed.jump (Placed.pass rfl hat₁)
  have hat₂ := Codegen.At.of_label heip₂ (hend.placed.2.2.1 last rfl)
  refine ⟨s₂, hruns₁.trans (hruns₂.mono (Nat.zero_le _)), ?_, ?_, ?_, ?_⟩
  · simp only [runCalls_cons, runCalls_nil]
    exact Placed.pass rfl hat₂
  · rw [hregs₂, heax₁]
  · exact fun r hr hr' hr'' => (congrFun hregs₂ r).trans (hkept₁.regs r hr hr' hr'')
  · exact fun x hx => (congrFun hmem₂ x).trans (hkept₁.mem x hx)

/-- `&&` and `||` after their left operand: `P` says where an operand decides. -/
theorem runsTo_shortCircuit {jump : Int → CgCall} {P : Word → Prop} (hjump : BranchesOn jump P)
    (hnostr : ∀ id, (jump id).isAddString = false) {right : List CgCall} {v : Word}
    (hstr : ∀ call ∈ right, call.isAddString = false)
    (h : Loaded env s.mem lo hi c (Expr.shortCircuit jump decided other lbl last right))
    (hs : c.At s) (hhi : (s.regs .esp).toNat ≤ hi) (hdecided : P (s.regs .eax) → v = imm decided)
    (hright : ¬P (s.regs .eax) → ∃ b, (P b → v = imm decided) ∧ (¬P b → v = imm other) ∧
      ∀ s₁, Loaded env s₁.mem lo hi (runCalls [.newLabel, jump lbl] c) right →
        (runCalls [.newLabel, jump lbl] c).At s₁ → s₁.regs = s.regs → s₁.mem = s.mem →
          RunsTo right (runCalls [.newLabel, jump lbl] c) lo s₁ b) :
    RunsTo (Expr.shortCircuit jump decided other lbl last right) c lo s v := by
  let c₁ := (jump lbl).run (CgCall.newLabel.run c)
  let c₃ := (jump lbl).run (runCalls right c₁)
  let c₄ := runCalls [.loadNum other, .newLabel, .jump last] c₃
  have hcalls : Expr.shortCircuit jump decided other lbl last right =
      .newLabel :: jump lbl :: (right ++ jump lbl :: otherCalls decided other lbl last) := by
    rw [Expr.shortCircuit, List.append_assoc]
    rfl
  have hend : runCalls (Expr.shortCircuit jump decided other lbl last right) c =
      runCalls (otherCalls decided other lbl last) c₃ := by
    rw [hcalls, runCalls_cons, runCalls_cons, runCalls_append, runCalls_cons]
  have hdecidedEnd : runCalls (otherCalls decided other lbl last) c₃ =
      runCalls (decidedCalls decided lbl last) c₄ := runCalls_append _ _ _
  rw [hcalls] at h
  obtain ⟨hfirst, hsecond⟩ := ((h.tail rfl).tail (hnostr lbl)).append hstr
  have hother : Loaded env s.mem lo hi c₃ (otherCalls decided other lbl last) :=
    hsecond.tail (hnostr lbl)
  have hdecide : Loaded env s.mem lo hi c₄ (decidedCalls decided lbl last) := by
    apply (hother.append _).2
    simp [CgCall.isAddString]
  have hlbl : env.label lbl = c₄.code.length := hdecide.placed.2.2.1 lbl rfl
  obtain ⟨s₁, hruns₁, hregs₁, hmem₁, htaken₁, hpast₁⟩ :=
    hjump (h.tail rfl).placed (Placed.pass rfl hs)
  have hm₁ : ∀ a, a < lo ∨ hi ≤ a → s₁.mem a = s.mem a := fun a _ => congrFun hmem₁ a
  by_cases hp : P (s.regs .eax)
  · rw [hdecided hp]
    have hrun := runsTo_decided (hdecide.congr hm₁) (.of_label (htaken₁ hp) hlbl)
    exact hrun.after hruns₁ hregs₁ hmem₁ (hend.trans hdecidedEnd)
  · obtain ⟨b, hbdecided, hbother, hruns⟩ := hright hp
    have hrun : RunsTo (right ++ jump lbl :: otherCalls decided other lbl last) c₁ lo s₁ v := by
      apply (hruns s₁ (hfirst.congr hm₁) (hpast₁ hp) hregs₁ hmem₁).append
      intro s₂ hat₂ heax₂ hkept₂
      have hsp₂ : (s₂.regs .esp).toNat ≤ hi := by
        rw [hkept₂.esp, hregs₁]
        exact hhi
      have hm₂ : ∀ a, a < lo ∨ hi ≤ a → s₂.mem a = s.mem a := fun a ha =>
        (hkept₂.outside hi (hregs₁ ▸ hhi) a ha).trans (hm₁ a ha)
      obtain ⟨s₃, hruns₃, hregs₃, hmem₃, htaken₃, hpast₃⟩ :=
        hjump (hsecond.congr hm₂).placed hat₂
      have hm₃ : ∀ a, a < lo ∨ hi ≤ a → s₃.mem a = s.mem a := fun a ha =>
        (congrFun hmem₃ a).trans (hm₂ a ha)
      rw [heax₂] at htaken₃ hpast₃
      by_cases hpb : P b
      · rw [hbdecided hpb]
        have hrun := runsTo_decided (hdecide.congr hm₃) (.of_label (htaken₃ hpb) hlbl)
        exact hrun.after hruns₃ hregs₃ hmem₃ ((runCalls_cons _ _ _).trans hdecidedEnd)
      · rw [hbother hpb]
        have hrun := runsTo_other (hother.congr hm₃) (hpast₃ hpb) (hregs₃ ▸ hsp₂)
        exact hrun.after hruns₃ hregs₃ hmem₃ (runCalls_cons _ _ _)
    apply hrun.after hruns₁ hregs₁ hmem₁
    rw [hend, runCalls_append, runCalls_cons]

end Run

namespace Expr

theorem eval_strict {op : BinOp} (hop : op.jumps = false) (σ : List UInt8 → Word) (l r : Expr) :
    (binary op l r).eval σ = (l.eval σ).bind fun a => (r.eval σ).bind fun b => op.apply a b := by
  cases op <;> first | rfl | cases hop

theorem rightCalls_strict {op : BinOp} (hop : op.jumps = false) (n k : Nat) (right : List CgCall) :
    rightCalls op n k right = .push :: right ++ [.popIntoEcx, op.call] := by
  cases op <;> first | rfl | cases hop

/-- An expression adds no string. -/
theorem isAddString_calls (t : Symbols) (e : Expr) :
    ∀ n, ∀ call ∈ e.calls t n, call.isAddString = false := by
  induction e with
  | num k =>
    intro n call hcall
    rw [List.mem_singleton.mp hcall]
    rfl
  | var x =>
    intro n call hcall
    rw [List.mem_singleton.mp hcall, loadCall]
    split <;> rfl
  | paren e ih => exact ih
  | unary op e ih =>
    intro n call hcall
    rcases List.mem_append.mp hcall with hcall | hcall
    · exact ih n call hcall
    · rw [List.mem_singleton.mp hcall]
      cases op <;> rfl
  | binary op l r hl hr =>
    intro n call hcall
    rcases List.mem_append.mp hcall with hcall | hcall
    · exact hl n call hcall
    · cases hop : op.jumps with
      | false =>
        rw [rightCalls_strict hop] at hcall
        simp only [List.cons_append, List.mem_cons, List.mem_append, List.not_mem_nil,
          or_false] at hcall
        rcases hcall with rfl | hcall | rfl | rfl
        · rfl
        · exact hr _ call hcall
        · rfl
        · cases op <;> rfl
      | true =>
        cases op with
        | land | lor =>
          simp only [rightCalls, shortCircuit, List.cons_append, List.nil_append, List.mem_cons,
            List.mem_append, List.not_mem_nil, or_false] at hcall
          rcases hcall with rfl | rfl | hcall | rfl | rfl | rfl | rfl | rfl | rfl | rfl
          all_goals first
            | rfl
            | exact hr _ call hcall
        | _ => cases hop

section Runs

variable {env : Linkage} {t : Symbols} {σ : List UInt8 → Word} {lo hi : Nat}

/-- The code of the expression, wherever it is, leaves its value in EAX. -/
def Runs (env : Linkage) (t : Symbols) (σ : List UInt8 → Word) (lo hi : Nat) (e : Expr) : Prop :=
  ∀ ⦃n : Nat⦄ ⦃c : Codegen⦄ ⦃s : Cpu⦄ ⦃v : Word⦄, Loaded env s.mem lo hi c (e.calls t n) →
    c.At s → lo + 4 * e.depth ≤ (s.regs .esp).toNat → (s.regs .esp).toNat ≤ hi →
      Sees env t σ lo hi s e.vars → e.eval σ = some v → RunsTo (e.calls t n) c lo s v

variable {op : BinOp} {l r : Expr}

/-- The left operand of an operator, and what its right one may rely on. -/
theorem Runs.left (hl : l.Runs env t σ lo hi) {n : Nat} {c : Codegen} {s : Cpu} {a v : Word}
    (h : Loaded env s.mem lo hi c ((binary op l r).calls t n)) (hs : c.At s)
    (hlo : lo + 4 * (binary op l r).depth ≤ (s.regs .esp).toNat) (hhi : (s.regs .esp).toNat ≤ hi)
    (hx : Sees env t σ lo hi s (binary op l r).vars) (ha : l.eval σ = some a) {right : List CgCall}
    (hcalls : (binary op l r).calls t n = l.calls t n ++ right)
    (hright : ∀ s', Loaded env s'.mem lo hi (runCalls (l.calls t n) c) right →
      (runCalls (l.calls t n) c).At s' → s'.regs .eax = a →
        lo + 4 * (r.depth + if op.jumps then 0 else 1) ≤ (s'.regs .esp).toNat →
          (s'.regs .esp).toNat ≤ hi → Sees env t σ lo hi s' r.vars →
            RunsTo right (runCalls (l.calls t n) c) lo s' v) :
    RunsTo ((binary op l r).calls t n) c lo s v := by
  have hdl : l.depth ≤ (binary op l r).depth := Nat.le_max_left _ _
  have hdr : (r.depth + if op.jumps then 0 else 1) ≤ (binary op l r).depth := Nat.le_max_right _ _
  rw [hcalls] at h ⊢
  obtain ⟨hfirst, hsecond⟩ := h.append (l.isAddString_calls t n)
  have hxl : Sees env t σ lo hi s l.vars := fun x hxl => hx x (List.mem_append_left _ hxl)
  have hxr : Sees env t σ lo hi s r.vars := fun x hxr => hx x (List.mem_append_right _ hxr)
  apply (hl hfirst hs (by omega) hhi hxl ha).append
  intro s' hs' heax hkept
  have hout := hkept.outside hi hhi
  have hesp := hkept.esp
  exact hright s' (hsecond.congr hout) hs' heax (by rw [hesp]; omega) (by rw [hesp]; exact hhi)
    (hxr.congr hkept.ebp hout)

theorem Runs.strict (hop : op.jumps = false) (hl : l.Runs env t σ lo hi)
    (hr : r.Runs env t σ lo hi) : (binary op l r).Runs env t σ lo hi := by
  intro n c s v h hs hlo hhi hx hv
  rw [eval_strict hop] at hv
  obtain ⟨a, ha, hv⟩ := Option.bind_eq_some_iff.mp hv
  obtain ⟨b, hb, hv⟩ := Option.bind_eq_some_iff.mp hv
  apply hl.left h hs hlo hhi hx ha rfl
  intro s' h' hs' heax hlo' hhi' hx'
  rw [rightCalls_strict hop] at h' ⊢
  rw [hop] at hlo'
  apply runsTo_strict hop (r.isAddString_calls t _) h' hs' heax hlo' hhi' hv
  intro s₁ hs₁ h₁ hlo₁ hhi₁ hebp₁ hm₁
  exact hr h₁ hs₁ hlo₁ hhi₁ (hx'.congr hebp₁ hm₁) hb

/-- The right operand of `&&` and `||`, in a state that is the one after the left operand. -/
theorem Runs.right (hr : r.Runs env t σ lo hi) {n : Nat} {c : Codegen} {s s₁ : Cpu} {b : Word}
    (hlo : lo + 4 * r.depth ≤ (s.regs .esp).toNat) (hhi : (s.regs .esp).toNat ≤ hi)
    (hx : Sees env t σ lo hi s r.vars) (hb : r.eval σ = some b)
    (h₁ : Loaded env s₁.mem lo hi c (r.calls t n)) (hs₁ : c.At s₁) (hregs : s₁.regs = s.regs)
    (hmem : s₁.mem = s.mem) : RunsTo (r.calls t n) c lo s₁ b :=
  hr h₁ hs₁ (hregs ▸ hlo) (hregs ▸ hhi) (hx.congr (congrFun hregs .ebp) fun a _ => congrFun hmem a) hb

theorem Runs.land (hl : l.Runs env t σ lo hi) (hr : r.Runs env t σ lo hi) :
    (binary .land l r).Runs env t σ lo hi := by
  intro n c s v h hs hlo hhi hx hv
  obtain ⟨a, ha, hv⟩ := Option.bind_eq_some_iff.mp hv
  apply hl.left h hs hlo hhi hx ha rfl
  intro s' h' hs' heax hlo' hhi' hx'
  apply runsTo_shortCircuit branchesOn_jumpZero (fun _ => rfl) (r.isAddString_calls t _) h' hs' hhi'
  · intro hp
    rw [heax] at hp
    rw [if_pos hp] at hv
    exact (Option.some.inj hv).symm
  · intro hp
    rw [heax] at hp
    rw [if_neg hp] at hv
    obtain ⟨b, hb, rfl⟩ := Option.map_eq_some_iff.mp hv
    refine ⟨b, fun hpb => ?_, fun hpb => ?_, fun s₁ h₁ hs₁ hregs hmem => ?_⟩
    · exact congrArg truth (decide_eq_false (not_not_intro hpb))
    · exact congrArg truth (decide_eq_true hpb)
    · exact hr.right hlo' hhi' hx' hb h₁ hs₁ hregs hmem

theorem Runs.lor (hl : l.Runs env t σ lo hi) (hr : r.Runs env t σ lo hi) :
    (binary .lor l r).Runs env t σ lo hi := by
  intro n c s v h hs hlo hhi hx hv
  obtain ⟨a, ha, hv⟩ := Option.bind_eq_some_iff.mp hv
  apply hl.left h hs hlo hhi hx ha rfl
  intro s' h' hs' heax hlo' hhi' hx'
  apply runsTo_shortCircuit branchesOn_jumpNonzero (fun _ => rfl) (r.isAddString_calls t _) h' hs'
    hhi'
  · intro hp
    rw [heax] at hp
    rw [if_neg hp] at hv
    exact (Option.some.inj hv).symm
  · intro hp
    rw [heax] at hp
    rw [if_pos (not_not.mp hp)] at hv
    obtain ⟨b, hb, rfl⟩ := Option.map_eq_some_iff.mp hv
    refine ⟨b, fun hpb => ?_, fun hpb => ?_, fun s₁ h₁ hs₁ hregs hmem => ?_⟩
    · exact congrArg truth (decide_eq_true hpb)
    · exact congrArg truth (decide_eq_false hpb)
    · exact hr.right hlo' hhi' hx' hb h₁ hs₁ hregs hmem

/-- The code of an expression leaves its value in EAX. -/
theorem runs (env : Linkage) (t : Symbols) (σ : List UInt8 → Word) (lo hi : Nat) (e : Expr) :
    e.Runs env t σ lo hi := by
  induction e with
  | num k =>
    intro n c s v h hs _ _ _ hv
    cases hv
    exact runsTo_loadNum h hs
  | var x =>
    intro n c s v h hs _ _ hx hv
    cases hv
    exact runsTo_loadCall h hs hx
  | paren e ih => exact ih
  | unary op e ih =>
    intro n c s v h hs hlo hhi hx hv
    obtain ⟨a, ha, rfl⟩ := Option.map_eq_some_iff.mp hv
    obtain ⟨hinner, hop⟩ := h.append (e.isAddString_calls t n)
    apply (ih hinner hs hlo hhi hx ha).append
    intro s' hs' heax hkept
    rw [← heax]
    exact runsTo_of_exec (hop.congr (hkept.outside hi hhi)) hs' (op.straight env false _)
      (op.exec env false _ s')
  | binary op l r hl hr =>
    cases op with
    | land => exact hl.land hr
    | lor => exact hl.lor hr
    | _ => exact hl.strict rfl hr

end Runs

end Expr

end RainbowOs.Cc
