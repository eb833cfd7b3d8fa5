import RainbowOs.Lib.X86

/-!
# Runs of x86 code

`CodeAt s a bs` says that the processor is at address `a`, where memory holds
the bytes `bs`. A straight instruction changes registers and flags only; a
list of them at EIP runs to its end (`runs_straight`). Stores, calls and
jumps come one at a time, with what they leave of the code that follows
(`CodeAt.step`).
-/

namespace RainbowOs.Lib.X86

/-- The processor is at `a`, and the bytes there are `bs`. -/
structure CodeAt (s : Cpu) (a : Nat) (bs : List UInt8) : Prop where
  eip : s.eip = BitVec.ofNat 32 a
  bound : a + bs.length < 4294967296
  bytes : s.mem.slice a bs.length = bs

/-- The processor after the fetch of `n` bytes. -/
def Cpu.fetched (s : Cpu) (n : Nat) : Cpu := { s with eip := s.eip + BitVec.ofNat 32 n }

namespace CodeAt

variable {s s' : Cpu} {a : Nat} {i : Instr} {bs : List UInt8}

theorem eip_toNat (h : CodeAt s a bs) : s.eip.toNat = a := by
  have hlt := h.bound
  rw [h.eip, BitVec.toNat_ofNat]
  exact Nat.mod_eq_of_lt (by omega)

/-- The first bytes, and the rest. -/
theorem split (h : CodeAt s a (i.encode ++ bs)) :
    s.mem.slice a i.encode.length = i.encode ∧ s.mem.slice (a + i.encode.length) bs.length = bs := by
  have hbytes := h.bytes
  rw [List.length_append, Bytes.slice_add] at hbytes
  exact List.append_inj hbytes (Bytes.length_slice _ _ _)

theorem fetched_eip (h : CodeAt s a bs) (n : Nat) :
    (s.fetched n).eip = BitVec.ofNat 32 (a + n) := by
  rw [Cpu.fetched, h.eip, BitVec.ofNat_add]

/-- One instruction. -/
theorem step_eq (h : CodeAt s a (i.encode ++ bs)) (hi : i.Plain) :
    step s = i.exec (s.fetched i.encode.length) := by
  apply step_of_slice hi
  rw [h.eip_toNat]
  exact h.split.1

/-- The code after an instruction that leaves it and goes on to it. -/
theorem next (h : CodeAt s a (i.encode ++ bs))
    (heip : s'.eip = BitVec.ofNat 32 (a + i.encode.length))
    (hmem : s'.mem.slice (a + i.encode.length) bs.length =
      s.mem.slice (a + i.encode.length) bs.length) : CodeAt s' (a + i.encode.length) bs := by
  have hlen := h.bound
  rw [List.length_append] at hlen
  exact ⟨heip, by omega, hmem.trans h.split.2⟩

end CodeAt

/-! ## Runs that leave the memory from an address on -/

/-- A step that leaves the memory from `hi` on. -/
def StepBelow (hi : Nat) (s s' : Cpu) : Prop := step s = some s' ∧ ∀ a, hi ≤ a → s'.mem a = s.mem a

/-- A run each step of which leaves the memory from `hi` on. -/
abbrev RunsBelow (hi : Nat) : Cpu → Cpu → Prop := Relation.ReflTransGen (StepBelow hi)

namespace RunsBelow

variable {hi hi' : Nat} {s s' : Cpu}

theorem mono (h : RunsBelow hi s s') (hle : hi ≤ hi') : RunsBelow hi' s s' :=
  Relation.ReflTransGen.mono (fun _ _ hstep =>
    ⟨hstep.1, fun a ha => hstep.2 a (Nat.le_trans hle ha)⟩) _ _ h

theorem reaches (h : RunsBelow hi s s') : Reaches s s' :=
  Relation.ReflTransGen.mono (fun _ _ hstep => hstep.1) _ _ h

theorem mem (h : RunsBelow hi s s') {a : Nat} (ha : hi ≤ a) : s'.mem a = s.mem a := by
  induction h with
  | refl => rfl
  | tail _ hstep ih => exact (hstep.2 a ha).trans ih

/-- One step that leaves the whole memory. -/
theorem of_step (h : step s = some s') (hmem : s'.mem = s.mem) : RunsBelow hi s s' :=
  Relation.ReflTransGen.single ⟨h, fun a _ => congrFun hmem a⟩

end RunsBelow

/-! ## Runs up to an address -/

/-- A step from anywhere but `stop`. -/
def StepTo (stop : Word) (s s' : Cpu) : Prop := s.eip ≠ stop ∧ step s = some s'

/-- The machine gets to `stop` for the first time. -/
def Arrives (stop : Word) (s s' : Cpu) : Prop := Relation.ReflTransGen (StepTo stop) s s' ∧ s'.eip = stop

/-- It gets there in one state. -/
theorem Arrives.unique {stop : Word} {s s₁ s₂ : Cpu} (h₁ : Arrives stop s s₁) (h₂ : Arrives stop s s₂) :
    s₁ = s₂ := by
  have hfun : Relator.RightUnique (StepTo stop) := fun s t u ht hu =>
    Option.some.inj (ht.2.symm.trans hu.2)
  have hend : ∀ {t u : Cpu}, t.eip = stop → Relation.ReflTransGen (StepTo stop) t u → t = u := by
    intro t u ht h
    rcases h.cases_head with heq | ⟨v, hstep, -⟩
    · exact heq
    · exact absurd ht hstep.1
  rcases Relation.ReflTransGen.total_of_right_unique hfun h₁.1 h₂.1 with h | h
  · exact hend h₁.2 h
  · exact (hend h₂.2 h).symm

/-! ## Straight instructions -/

/-- The instructions that change registers and flags only. -/
def Instr.Straight : Instr → Bool
  | .push _ | .store _ _ | .storeByte | .jmp _ | .jcc _ _ | .call _ | .ret | .int _ => false
  | _ => true

theorem Cpu.alu_frame (s : Cpu) (op : Alu) (dst : Reg) (b : Word) :
    (s.alu op dst b).mem = s.mem ∧ (s.alu op dst b).eip = s.eip := by
  cases op <;> exact ⟨rfl, rfl⟩

theorem Cpu.divide_frame {s s' : Cpu} {d : Word} (h : s.divide d = some s') :
    s'.mem = s.mem ∧ s'.eip = s.eip := by
  simp only [divide] at h
  split at h
  · cases h
  · cases h
    exact ⟨rfl, rfl⟩

/-- A straight instruction leaves the memory and EIP. -/
theorem Instr.Straight.frame {i : Instr} (hi : i.Straight) {s s' : Cpu} (h : i.exec s = some s') :
    s'.mem = s.mem ∧ s'.eip = s.eip := by
  cases i with
  | push | store | storeByte | jmp | jcc | call | ret | int => cases hi
  | alu op dst src =>
    cases h
    exact s.alu_frame op dst _
  | aluImm op dst imm =>
    cases h
    exact s.alu_frame op dst _
  | idiv r => exact Cpu.divide_frame h
  | _ =>
    cases h
    exact ⟨rfl, rfl⟩

/-- Instructions one after the other. -/
def execAll : List Instr → Cpu → Option Cpu
  | [], s => some s
  | i :: is, s => (i.exec (s.fetched i.encode.length)).bind (execAll is)

theorem execAll_append (is js : List Instr) (s : Cpu) :
    execAll (is ++ js) s = (execAll is s).bind (execAll js) := by
  induction is generalizing s with
  | nil => rfl
  | cons i is ih =>
    rw [List.cons_append, execAll, execAll, Option.bind_assoc]
    exact congrArg _ (funext ih)

/-- Straight code runs to its end. -/
theorem runs_straight {is : List Instr} (hplain : ∀ i ∈ is, i.Plain)
    (hstraight : ∀ i ∈ is, i.Straight) : ∀ {s s' : Cpu} {a : Nat} {bs : List UInt8},
      CodeAt s a (is.flatMap Instr.encode ++ bs) → execAll is s = some s' →
        RunsBelow 0 s s' ∧ CodeAt s' (a + (is.flatMap Instr.encode).length) bs ∧
          s'.mem = s.mem := by
  induction is with
  | nil =>
    intro s s' a bs hcode h
    cases h
    exact ⟨.refl, hcode, rfl⟩
  | cons i is ih =>
    intro s s' a bs hcode h
    obtain ⟨s₁, hexec, hrest⟩ := Option.bind_eq_some_iff.mp h
    rw [List.flatMap_cons, List.append_assoc] at hcode
    have hi := hplain i List.mem_cons_self
    obtain ⟨hmem, heip⟩ := Instr.Straight.frame (hstraight i List.mem_cons_self) hexec
    have hnext : CodeAt s₁ (a + i.encode.length) (is.flatMap Instr.encode ++ bs) := by
      apply hcode.next
      · rw [heip, hcode.fetched_eip]
      · rw [hmem]
        rfl
    obtain ⟨hreach, hend, hsame⟩ := ih (fun j hj => hplain j (List.mem_cons_of_mem i hj))
      (fun j hj => hstraight j (List.mem_cons_of_mem i hj)) hnext hrest
    have hstep : RunsBelow 0 s s₁ := .of_step ((hcode.step_eq hi).trans hexec) hmem
    refine ⟨hstep.trans hreach, ?_, hsame.trans hmem⟩
    rw [List.flatMap_cons, List.length_append, ← Nat.add_assoc]
    exact hend

/-! ## The stack -/

/-- A word that was written is read. -/
theorem read_write (m : Bytes) (a v : Word) : read (write m a v) a = v := by
  apply BitVec.eq_of_toNat_eq
  rw [read, write, bytes32, Bytes.word32_store_le32, BitVec.toNat_ofNat]
  have := v.isLt
  omega

/-- Words are read from their four bytes. -/
theorem read_congr {m m' : Bytes} {a : Word} (h : ∀ k, a.toNat ≤ k → k < a.toNat + 4 → m k = m' k) :
    read m a = read m' a := by
  simp only [read, Bytes.word32, Bytes.word16]
  rw [h _ (by omega) (by omega), h _ (by omega) (by omega), h _ (by omega) (by omega),
    h _ (by omega) (by omega)]

theorem write_of_not_mem {m : Bytes} {a v : Word} {k : Nat} (h : k < a.toNat ∨ a.toNat + 4 ≤ k) :
    write m a v k = m k := Bytes.store_of_not_mem h

/-- A word is read where another one was written. -/
theorem read_write_of_apart {m : Bytes} {a b v : Word}
    (h : a.toNat + 4 ≤ b.toNat ∨ b.toNat + 4 ≤ a.toNat) : read (write m a v) b = read m b :=
  read_congr fun _ _ _ => write_of_not_mem (by omega)

/-- Two words of the memory change places. -/
def exchange (m : Bytes) (a b : Word) : Bytes := write (write m a (read m b)) b (read m a)

theorem exchange_of_not_mem {m : Bytes} {a b : Word} {k : Nat} (ha : k < a.toNat ∨ a.toNat + 4 ≤ k)
    (hb : k < b.toNat ∨ b.toNat + 4 ≤ k) : exchange m a b k = m k := by
  rw [exchange, write_of_not_mem hb, write_of_not_mem ha]

/-- The address below the top of the stack. -/
theorem toNat_sub_four {a : Word} (h : 4 ≤ a.toNat) : (a - 4).toNat = a.toNat - 4 := by
  bv_omega

/-- A push, where the code that follows is not on the stack. -/
theorem CodeAt.push_next {s : Cpu} {a : Nat} {r : Reg} {e : Word} {bs : List UInt8}
    (hcode : CodeAt s a ((Instr.push r).encode ++ bs)) (he : s.regs .esp = e) (hroom : 4 ≤ e.toNat)
    (hclear : ∀ k, a + 1 ≤ k → k < a + 1 + bs.length → k < e.toNat - 4 ∨ e.toNat ≤ k) :
    ∃ s', step s = some s' ∧ CodeAt s' (a + 1) bs ∧ s'.regs = Function.update s.regs .esp (e - 4) ∧
      s'.mem = write s.mem (e - 4) (s.regs r) := by
  subst he
  refine ⟨_, hcode.step_eq rfl, hcode.next (hcode.fetched_eip 1) (Bytes.slice_congr fun k hk => ?_), rfl, rfl⟩
  have hsub : (s.regs .esp - 4).toNat = (s.regs .esp).toNat - 4 := toNat_sub_four hroom
  have hk' := hclear (a + 1 + k) (by omega) (by omega)
  refine write_of_not_mem (a := s.regs .esp - 4) ?_
  show a + 1 + k < _ ∨ _ ≤ a + 1 + k
  omega

/-! ## Comparisons -/

theorem sub_eq_zero_iff (a b : Word) : a - b = 0 ↔ a = b := by
  bv_omega

/-- The signed comparison, by the flags of a subtraction. -/
theorem slt_flags (a b : Word) : ((a - b).msb != BitVec.ssubOverflow a b) = a.slt b := by
  have ha : a.toInt < 2147483648 := BitVec.toInt_lt
  have ha' : -2147483648 ≤ a.toInt := BitVec.le_toInt a
  have hb : b.toInt < 2147483648 := BitVec.toInt_lt
  have hb' : -2147483648 ≤ b.toInt := BitVec.le_toInt b
  have hsub : (a - b).toInt = (a.toInt - b.toInt).bmod 4294967296 := BitVec.toInt_sub
  have hover : BitVec.ssubOverflow a b =
      decide (a.toInt - b.toInt ≥ 2147483648 ∨ a.toInt - b.toInt < -2147483648) := by
    simp only [BitVec.ssubOverflow, Bool.decide_or]
    rfl
  rw [BitVec.slt, BitVec.msb_eq_toInt, hsub, hover, Int.bmod_def, Bool.eq_iff_iff]
  simp only [bne_iff_ne, ne_eq, decide_eq_decide, decide_eq_true_eq]
  generalize a.toInt = x at *
  generalize b.toInt = y at *
  split <;> omega

/-- The condition holds after a comparison of `a` with `b`. -/
def Cond.compare (c : Cond) (a b : Word) : Bool :=
  match c with
  | .e => a = b
  | .ne => a ≠ b
  | .l => a.slt b
  | .ge => !a.slt b
  | .le => a = b || a.slt b
  | .g => !(a = b || a.slt b)

theorem holds_flags (s : Cpu) (c : Cond) (a b : Word) :
    (s.flags (a - b) (BitVec.ssubOverflow a b)).holds c = c.compare a b := by
  have hless := slt_flags a b
  have hzero : decide (a - b = 0) = decide (a = b) := decide_eq_decide.mpr (sub_eq_zero_iff a b)
  cases c with
  | e => exact hzero
  | ne =>
    simp only [Cpu.holds, Cpu.flags, Cond.compare, hzero, ne_eq, decide_not]
  | l => exact hless
  | ge =>
    rw [Cond.compare, ← hless]
    simp only [Cpu.holds, Cpu.flags, bne, Bool.not_not]
  | le =>
    rw [Cond.compare, ← hless]
    simp only [Cpu.holds, Cpu.flags, hzero]
  | g =>
    rw [Cond.compare, ← hless]
    simp only [Cpu.holds, Cpu.flags, hzero, Bool.not_or, bne, Bool.not_not]

/-- `setcc` and `movzx` leave the condition in EAX. -/
theorem and_or_low (x : Word) (b : Bool) :
    ((x &&& 0xFFFFFF00) ||| if b then 1 else 0) &&& 0xFF = if b then 1 else 0 := by
  have hlow : (0xFFFFFF00 : Word) &&& 0xFF = 0#32 := by decide
  rw [BitVec.and_or_distrib_right, BitVec.and_assoc, hlow, BitVec.and_zero, BitVec.zero_or]
  cases b <;> decide

theorem holds_test_e (s : Cpu) (x : Word) : (s.flags x false).holds .e = decide (x = 0) := rfl

theorem holds_test_ne (s : Cpu) (x : Word) : (s.flags x false).holds .ne = decide (x ≠ 0) :=
  decide_not.symm

/-! ## Division -/

/-- EDX:EAX after `cdq` is EAX. -/
theorem cdq_toInt (a : Word) :
    (if a.msb then BitVec.allOnes 32 else 0 : Word).toInt * 4294967296 + a.toNat = a.toInt := by
  have htoInt := a.toInt_eq_msb_cond
  cases hmsb : a.msb with
  | true =>
    rw [hmsb, if_pos rfl] at htoInt
    rw [if_pos rfl, htoInt]
    have hones : (BitVec.allOnes 32).toInt = -1 := by decide
    rw [hones]
    omega
  | false =>
    rw [hmsb, if_neg (by decide)] at htoInt
    rw [if_neg (by decide), htoInt]
    simp

/-- The quotient of two words, where it fits. -/
theorem divide_eq {s : Cpu} {a d : Word} (ha : s.regs .eax = a)
    (hdx : s.regs .edx = if a.msb then BitVec.allOnes 32 else 0) (hd : d ≠ 0)
    (hfit : ¬(a = BitVec.intMin 32 ∧ d = -1)) :
    s.divide d = some ((s.set .eax (a.sdiv d)).set .edx (a.srem d)) := by
  have hq : BitVec.ofInt 32 (a.toInt.tdiv d.toInt) = a.sdiv d := by
    apply BitVec.eq_of_toInt_eq
    rw [BitVec.toInt_ofInt, BitVec.toInt_sdiv]
  have hr : BitVec.ofInt 32 (a.toInt.tmod d.toInt) = a.srem d := by
    apply BitVec.eq_of_toInt_eq
    rw [BitVec.toInt_ofInt, ← BitVec.toInt_srem, BitVec.toInt_bmod_cancel]
  have hexact := BitVec.toInt_sdiv_of_ne_or_ne a d (not_and_or.mp hfit)
  have hlo : -2147483648 ≤ (a.sdiv d).toInt := BitVec.le_toInt _
  have hhi : (a.sdiv d).toInt < 2147483648 := BitVec.toInt_lt
  rw [hexact] at hlo hhi
  simp only [Cpu.divide, ha, hdx, cdq_toInt, hq, hr]
  rw [if_neg]
  rintro (h | h | h)
  · exact hd h
  · omega
  · omega

end RainbowOs.Lib.X86
