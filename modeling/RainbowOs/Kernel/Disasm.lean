import RainbowOs.Cc.Image
import Mathlib.Algebra.Ring.Nat

/-!
# The disassembler of the debugger

`kernel/debug/disasm.c` decodes one instruction into text. It knows the
instructions that the compiler emits and no others; a byte it does not know
becomes `db`. `disasmOne_encode` says that at every instruction a call of the
code generator makes it answers the length of the encoding, and
`image_disassembled` that it therefore walks through an image from one
instruction to the next.
-/

namespace RainbowOs.Kernel

open RainbowOs.Lib
open RainbowOs.Cc
open X86 (Word Instr)

/-- `struct sb`: the text that is built, and the size of the buffer for it. -/
structure Sb where
  text : List UInt8
  size : Nat
  deriving DecidableEq, Repr

namespace Sb

variable (b : Sb)

/-- `s_ch` -/
def ch (c : UInt8) : Sb :=
  if b.text.length < b.size - 1 then { b with text := b.text ++ [c] } else b

/-- Characters one after the other. -/
def chs (cs : List UInt8) : Sb := cs.foldl ch b

/-- `s_str` -/
def str (s : String) : Sb := b.chs (s.toList.map chr)

/-- A digit of `s_hex`. -/
def hexDigit (nib : Nat) : UInt8 :=
  if nib < 10 then UInt8.ofNat (48 + nib) else UInt8.ofNat (97 + nib - 10)

/-- `s_hex`, without the `0x`. -/
def hexDigits (v : Nat) (digits : Nat) : List UInt8 :=
  (List.range digits).reverse.map fun i => hexDigit (v / 16 ^ i % 16)

/-- `s_hex` -/
def hex (v : Nat) (digits : Nat) : Sb := (b.str "0x").chs (hexDigits v digits)

/-- The digits that `s_dec` puts into `t`, the last one first. -/
def decDigits : Nat → Nat → List UInt8
  | 0, _ => []
  | n + 1, v => if v = 0 then [] else UInt8.ofNat (48 + v % 10) :: decDigits n (v / 10)

/-- `s_dec`, once the sign is out. -/
def dec' (v : Int) : Sb :=
  b.chs (if v = 0 then [48] else (decDigits 12 v.toNat).reverse)

/-- `s_dec` -/
def dec (v : Int) : Sb := if v < 0 then (b.ch 45).dec' (wrap32 (-v)) else b.dec' v

/-- `s_ebp_disp` -/
def ebpDisp (disp : Int) : Sb :=
  let b := b.str "[ebp"
  (if disp < 0 then (b.ch 45).dec (wrap32 (-disp)) else (b.ch 43).dec disp).ch 93

end Sb

/-- `rd32`, unsigned. -/
def rd32 (c : Bytes) (k : Nat) : Word := BitVec.ofNat 32 (c.word32 k)

/-- `disasm_one`: the text it writes and the length it answers. -/
def disasmOne (c : Bytes) (addr : Word) (outsz : Nat) : Sb × Nat :=
  let b : Sb := ⟨[], outsz⟩
  let op := c 0
  let m := c 1
  let unknown := ((b.str "db   ").hex op.toNat 2, 1)
  match op with
  | 0x50 => (b.str "push eax", 1)
  | 0x53 => (b.str "push ebx", 1)
  | 0x56 => (b.str "push esi", 1)
  | 0x57 => (b.str "push edi", 1)
  | 0x55 => (b.str "push ebp", 1)
  | 0x58 => (b.str "pop  eax", 1)
  | 0x59 => (b.str "pop  ecx", 1)
  | 0x5B => (b.str "pop  ebx", 1)
  | 0x5D => (b.str "pop  ebp", 1)
  | 0x5E => (b.str "pop  esi", 1)
  | 0x5F => (b.str "pop  edi", 1)
  | 0x91 => (b.str "xchg eax, ecx", 1)
  | 0x99 => (b.str "cdq", 1)
  | 0xC3 => (b.str "ret", 1)
  | 0x6A => ((b.str "push ").dec (signed8 m), 2)
  | 0xCD => ((b.str "int  ").hex m.toNat 2, 2)
  | 0xB8 => ((b.str "mov  eax, ").hex (rd32 c 1).toNat 8, 5)
  | 0xA1 => (((b.str "mov  eax, [").hex (rd32 c 1).toNat 8).ch 93, 5)
  | 0xA3 => (((b.str "mov  [").hex (rd32 c 1).toNat 8).str "], eax", 5)
  | 0xE9 => ((b.str "jmp  ").hex (addr + 5 + rd32 c 1).toNat 8, 5)
  | 0xE8 => ((b.str "call ").hex (addr + 5 + rd32 c 1).toNat 8, 5)
  | 0x01 => if m = 0xC8 then (b.str "add  eax, ecx", 2) else unknown
  | 0x29 => if m = 0xC1 then (b.str "sub  ecx, eax", 2) else unknown
  | 0x21 => if m = 0xC8 then (b.str "and  eax, ecx", 2) else unknown
  | 0x09 => if m = 0xC8 then (b.str "or   eax, ecx", 2) else unknown
  | 0x31 => if m = 0xC8 then (b.str "xor  eax, ecx", 2) else unknown
  | 0x39 => if m = 0xC1 then (b.str "cmp  ecx, eax", 2) else unknown
  | 0x88 => if m = 0x01 then (b.str "mov  [ecx], al", 2) else unknown
  | 0x85 => if m = 0xC0 then (b.str "test eax, eax", 2) else unknown
  | 0xD3 =>
    if m = 0xE0 then (b.str "shl  eax, cl", 2)
    else if m = 0xE8 then (b.str "shr  eax, cl", 2)
    else unknown
  | 0xF7 =>
    if m = 0xF9 then (b.str "idiv ecx", 2)
    else if m = 0xD8 then (b.str "neg  eax", 2)
    else if m = 0xD0 then (b.str "not  eax", 2)
    else unknown
  | 0x89 =>
    match m with
    | 0xC8 => (b.str "mov  eax, ecx", 2)
    | 0xD0 => (b.str "mov  eax, edx", 2)
    | 0xE5 => (b.str "mov  ebp, esp", 2)
    | 0xEC => (b.str "mov  esp, ebp", 2)
    | 0xE3 => (b.str "mov  ebx, esp", 2)
    | 0x01 => (b.str "mov  [ecx], eax", 2)
    | 0x85 => (((b.str "mov  ").ebpDisp (rd32 c 2).toInt).str ", eax", 6)
    | 0x44 =>
      if c 2 = 0x24 then (((b.str "mov  [esp+").dec (signed8 (c 3))).str "], eax", 4) else unknown
    | 0x4C =>
      if c 2 = 0x24 then (((b.str "mov  [esp+").dec (signed8 (c 3))).str "], ecx", 4) else unknown
    | _ => unknown
  | 0x8B =>
    match m with
    | 0x85 => ((b.str "mov  eax, ").ebpDisp (rd32 c 2).toInt, 6)
    | 0x00 => (b.str "mov  eax, [eax]", 2)
    | 0x44 =>
      if c 2 = 0x24 then (((b.str "mov  eax, [esp+").dec (signed8 (c 3))).ch 93, 4) else unknown
    | 0x4C =>
      if c 2 = 0x24 then (((b.str "mov  ecx, [esp+").dec (signed8 (c 3))).ch 93, 4) else unknown
    | _ => unknown
  | 0x8D => if m = 0x85 then ((b.str "lea  eax, ").ebpDisp (rd32 c 2).toInt, 6) else unknown
  | 0x81 =>
    if m = 0xC4 then ((b.str "add  esp, ").hex (rd32 c 2).toNat 8, 6)
    else if m = 0xEC then ((b.str "sub  esp, ").hex (rd32 c 2).toNat 8, 6)
    else unknown
  | 0xC1 => if m = 0xE0 then ((b.str "shl  eax, ").dec (c 2).toNat, 3) else unknown
  | 0x0F =>
    match m with
    | 0xAF => if c 2 = 0xC1 then (b.str "imul eax, ecx", 3) else unknown
    | 0xB6 =>
      if c 2 = 0xC0 then (b.str "movzx eax, al", 3)
      else if c 2 = 0x00 then (b.str "movzx eax, byte [eax]", 3)
      else unknown
    | 0x94 => (b.str "sete  al", 3)
    | 0x95 => (b.str "setne al", 3)
    | 0x9C => (b.str "setl  al", 3)
    | 0x9D => (b.str "setge al", 3)
    | 0x9E => (b.str "setle al", 3)
    | 0x9F => (b.str "setg  al", 3)
    | 0x84 => ((b.str "jz   ").hex (addr + 6 + rd32 c 2).toNat 8, 6)
    | 0x85 => ((b.str "jnz  ").hex (addr + 6 + rd32 c 2).toNat 8, 6)
    | _ => unknown
  | _ => unknown

/-! ## The text -/

namespace Sb

variable (b : Sb)

/-- Text appended, as far as there is room. -/
def put (cs : List UInt8) : Sb :=
  { b with text := b.text ++ cs.take (b.size - 1 - b.text.length) }

theorem put_put (xs ys : List UInt8) : (b.put xs).put ys = b.put (xs ++ ys) := by
  simp only [put, List.append_assoc, List.length_append, List.length_take, List.take_append]
  congr 4
  omega

theorem chs_eq (cs : List UInt8) : b.chs cs = b.put cs := by
  induction cs generalizing b with
  | nil => simp [chs, put]
  | cons x cs ih =>
    have hone : b.ch x = b.put [x] := by
      unfold ch put
      split
      · next h => rw [List.take_of_length_le (by simp only [List.length_singleton]; omega)]
      · next h => rw [Nat.sub_eq_zero_of_le (by omega), List.take_zero, List.append_nil]
    have hstep : b.chs (x :: cs) = (b.ch x).chs cs := rfl
    rw [hstep, ih, hone, put_put]
    rfl

/-- The text begins with `s`, as far as there is room for it. -/
def Begins (s : List UInt8) : Prop := ∃ t, b = (⟨[], b.size⟩ : Sb).put (s ++ t)

variable {b} {s : List UInt8}

theorem begins_str (n : Nat) (s : String) : ((⟨[], n⟩ : Sb).str s).Begins (s.toList.map chr) := by
  refine ⟨[], ?_⟩
  rw [List.append_nil, str, chs_eq]
  rfl

theorem Begins.chs (h : b.Begins s) (cs : List UInt8) : (b.chs cs).Begins s := by
  obtain ⟨t, ht⟩ := h
  refine ⟨t ++ cs, ?_⟩
  have hsize : (b.chs cs).size = b.size := by rw [chs_eq]; rfl
  rw [hsize, chs_eq, ← List.append_assoc, ← put_put, ← ht]

theorem Begins.ch (h : b.Begins s) (x : UInt8) : (b.ch x).Begins s := h.chs [x]

theorem Begins.str (h : b.Begins s) (s' : String) : (b.str s').Begins s := h.chs _

theorem Begins.hex (h : b.Begins s) (v digits : Nat) : (b.hex v digits).Begins s := (h.str _).chs _

theorem Begins.dec' (h : b.Begins s) (v : Int) : (b.dec' v).Begins s := h.chs _

theorem Begins.dec (h : b.Begins s) (v : Int) : (b.dec v).Begins s := by
  unfold Sb.dec
  split
  · exact (h.ch _).dec' _
  · exact h.dec' _

theorem Begins.ebpDisp (h : b.Begins s) (disp : Int) : (b.ebpDisp disp).Begins s := by
  unfold Sb.ebpDisp
  apply Begins.ch
  split
  · exact ((h.str _).ch _).dec _
  · exact ((h.str _).ch _).dec _

end Sb

/-! ## One instruction -/

/-- Where an instruction at `addr` transfers control, and the mnemonic it is listed under. -/
def transfer (addr : Word) : Instr → Option (String × Word)
  | .jmp rel => some ("jmp  ", addr + 5 + rel)
  | .call rel => some ("call ", addr + 5 + rel)
  | .jcc .e rel => some ("jz   ", addr + 6 + rel)
  | .jcc .ne rel => some ("jnz  ", addr + 6 + rel)
  | _ => none

/-- The disassembler knows the instruction in front of it: the length is right, the text is no
`db`, and an instruction that transfers control is listed with its target. -/
structure Lists (c : Bytes) (addr : Word) (outsz : Nat) (i : Instr) : Prop where
  length : (disasmOne c addr outsz).2 = i.encode.length
  known : ∃ s, (disasmOne c addr outsz).1.Begins s ∧ 2 ≤ s.length ∧ s.take 2 ≠ [chr 'd', chr 'b']
  target : ∀ name a, transfer addr i = some (name, a) →
    (disasmOne c addr outsz).1 = ((⟨[], outsz⟩ : Sb).str name).hex a.toNat 8

/-- It looks at six bytes. -/
theorem disasmOne_congr {c c' : Bytes} (h : ∀ k < 6, c k = c' k) (addr : Word) (outsz : Nat) :
    disasmOne c addr outsz = disasmOne c' addr outsz := by
  have h1 : rd32 c 1 = rd32 c' 1 := by
    simp only [rd32, Bytes.word32, Bytes.word16, h 1 (by decide), h 2 (by decide), h 3 (by decide),
      h 4 (by decide)]
  have h2 : rd32 c 2 = rd32 c' 2 := by
    simp only [rd32, Bytes.word32, Bytes.word16, h 2 (by decide), h 3 (by decide),
      h 4 (by decide), h 5 (by decide)]
  simp only [disasmOne, h 0 (by decide), h 1 (by decide), h 2 (by decide), h 3 (by decide), h1, h2]

/-- The bytes of a word, read back. -/
theorem rd32_bytes32 (pre : List UInt8) (w : Word) (post : List UInt8) :
    rd32 (fun k => (pre ++ (X86.bytes32 w ++ post)).getD k 0) pre.length = w := by
  have hw : dwordAt (pre ++ (X86.bytes32 w ++ post)) pre.length = w.toNat := by
    rw [dwordAt_append]
    have hlt := w.isLt
    simp only [dwordAt, Bytes.word32, Bytes.word16, X86.bytes32, Bytes.le32, Bytes.le16,
      List.cons_append, List.nil_append, List.getD_cons_zero, List.getD_cons_succ,
      UInt8.toNat_ofNat']
    omega
  rw [rd32, ← dwordAt, hw, BitVec.ofNat_toNat, BitVec.setWidth_eq]

section Lists

variable {c : Bytes} {addr : Word} {outsz : Nat} {i : Instr}

/-- An instruction whose text does not depend on it. -/
theorem lists_plain {b : Sb} {n : Nat} {s : String} (h : disasmOne c addr outsz = (b, n))
    (hb : b.Begins (s.toList.map chr)) (hn : n = i.encode.length) (hs : 2 ≤ (s.toList.map chr).length)
    (hdb : (s.toList.map chr).take 2 ≠ [chr 'd', chr 'b']) (ht : transfer addr i = none) :
    Lists c addr outsz i where
  length := by rw [h, hn]
  known := ⟨_, by rw [h]; exact hb, hs, hdb⟩
  target := fun name a htarget => by
    rw [ht] at htarget
    cases htarget

/-- An instruction that transfers control. -/
theorem lists_transfer {name : String} {a : Word} {n : Nat} (ht : transfer addr i = some (name, a))
    (h : disasmOne c addr outsz = (((⟨[], outsz⟩ : Sb).str name).hex a.toNat 8, n))
    (hn : n = i.encode.length) (hs : 2 ≤ (name.toList.map chr).length)
    (hdb : (name.toList.map chr).take 2 ≠ [chr 'd', chr 'b']) : Lists c addr outsz i := by
  have htext : (disasmOne c addr outsz).1 = ((⟨[], outsz⟩ : Sb).str name).hex a.toNat 8 := by rw [h]
  refine ⟨by rw [h, hn], ⟨name.toList.map chr, ?_, hs, hdb⟩, fun name' a' htarget => ?_⟩
  · rw [htext]
    exact (Sb.begins_str outsz name).hex _ _
  · obtain ⟨rfl, rfl⟩ := Prod.mk.inj (Option.some.inj (ht.symm.trans htarget))
    exact htext

end Lists

section Instructions

variable (post : List UInt8) (addr : Word) (outsz : Nat)

theorem lists_jmp (rel : Word) :
    Lists (fun k => ((Instr.jmp rel).encode ++ post).getD k 0) addr outsz (.jmp rel) := by
  refine lists_transfer (n := 5) rfl ?_ rfl (by decide) (by decide)
  have hrel := rd32_bytes32 [0xE9] rel post
  exact congrArg (fun w : Word => (((⟨[], outsz⟩ : Sb).str "jmp  ").hex (addr + 5 + w).toNat 8, 5)) hrel

theorem lists_call (rel : Word) :
    Lists (fun k => ((Instr.call rel).encode ++ post).getD k 0) addr outsz (.call rel) := by
  refine lists_transfer (n := 5) rfl ?_ rfl (by decide) (by decide)
  have hrel := rd32_bytes32 [0xE8] rel post
  exact congrArg (fun w : Word => (((⟨[], outsz⟩ : Sb).str "call ").hex (addr + 5 + w).toNat 8, 5)) hrel

theorem lists_jz (rel : Word) :
    Lists (fun k => ((Instr.jcc .e rel).encode ++ post).getD k 0) addr outsz (.jcc .e rel) := by
  refine lists_transfer (n := 6) rfl ?_ rfl (by decide) (by decide)
  have hrel := rd32_bytes32 [0x0F, 0x84] rel post
  exact congrArg (fun w : Word => (((⟨[], outsz⟩ : Sb).str "jz   ").hex (addr + 6 + w).toNat 8, 6)) hrel

theorem lists_jnz (rel : Word) :
    Lists (fun k => ((Instr.jcc .ne rel).encode ++ post).getD k 0) addr outsz (.jcc .ne rel) := by
  refine lists_transfer (n := 6) rfl ?_ rfl (by decide) (by decide)
  have hrel := rd32_bytes32 [0x0F, 0x85] rel post
  exact congrArg (fun w : Word => (((⟨[], outsz⟩ : Sb).str "jnz  ").hex (addr + 6 + w).toNat 8, 6)) hrel

theorem lists_setcc (c : X86.Cond) :
    Lists (fun k => ((Instr.setcc c).encode ++ post).getD k 0) addr outsz (.setcc c) := by
  cases c
  all_goals exact lists_plain rfl (Sb.begins_str _ _) rfl (by decide) (by decide) rfl

/-- The disassembler knows every instruction that a call of the code generator makes. -/
theorem lists_asm (env : Linkage) (str : Bool) (cg : Codegen) (call : CgCall) {i : Instr}
    (hi : i ∈ call.asm env str cg) :
    Lists (fun k => (i.encode ++ post).getD k 0) addr outsz i := by
  cases call with
  | push | popIntoEcx | popToEax | add | sub | mul | div | mod | bitand | bitor | bitxor | shl
  | shr | negate | logicalNot | bitwiseNot | derefDword | derefByte | storeDerefDword
  | storeDerefByte | funcEnd =>
    simp only [CgCall.asm, List.mem_cons, List.not_mem_nil, or_false] at hi
    rcases hi with rfl | rfl | rfl | rfl | rfl | rfl
    all_goals exact lists_plain rfl (Sb.begins_str _ _) rfl (by decide) (by decide) rfl
  | loadNum val | addEsp bytes =>
    cases List.mem_singleton.mp hi
    exact lists_plain rfl ((Sb.begins_str _ _).hex _ _) rfl (by decide) (by decide) rfl
  | loadGlobal addr =>
    cases List.mem_singleton.mp hi
    exact lists_plain rfl (((Sb.begins_str _ _).hex _ _).ch _) rfl (by decide) (by decide) rfl
  | storeGlobal addr =>
    cases List.mem_singleton.mp hi
    exact lists_plain rfl (((Sb.begins_str _ _).hex _ _).str _) rfl (by decide) (by decide) rfl
  | loadLocal offset | leaLocal offset =>
    cases List.mem_singleton.mp hi
    exact lists_plain rfl ((Sb.begins_str _ _).ebpDisp _) rfl (by decide) (by decide) rfl
  | storeLocal offset =>
    cases List.mem_singleton.mp hi
    exact lists_plain rfl (((Sb.begins_str _ _).ebpDisp _).str _) rfl (by decide) (by decide) rfl
  | shlImm bits =>
    cases List.mem_singleton.mp hi
    exact lists_plain rfl ((Sb.begins_str _ _).dec _) rfl (by decide) (by decide) rfl
  | cmp op =>
    simp only [CgCall.asm, List.mem_cons, List.not_mem_nil, or_false] at hi
    rcases hi with rfl | rfl | rfl
    · exact lists_plain rfl (Sb.begins_str _ _) rfl (by decide) (by decide) rfl
    · exact lists_setcc post addr outsz _
    · exact lists_plain rfl (Sb.begins_str _ _) rfl (by decide) (by decide) rfl
  | jump id | ret =>
    cases List.mem_singleton.mp hi
    exact lists_jmp post addr outsz _
  | callSymbol fn =>
    cases List.mem_singleton.mp hi
    exact lists_call post addr outsz _
  | jumpZero id =>
    simp only [CgCall.asm, List.mem_cons, List.not_mem_nil, or_false] at hi
    rcases hi with rfl | rfl
    · exact lists_plain rfl (Sb.begins_str _ _) rfl (by decide) (by decide) rfl
    · exact lists_jz post addr outsz _
  | jumpNonzero id =>
    simp only [CgCall.asm, List.mem_cons, List.not_mem_nil, or_false] at hi
    rcases hi with rfl | rfl
    · exact lists_plain rfl (Sb.begins_str _ _) rfl (by decide) (by decide) rfl
    · exact lists_jnz post addr outsz _
  | funcBegin fn =>
    simp only [CgCall.asm, List.mem_cons, List.not_mem_nil, or_false] at hi
    rcases hi with rfl | rfl | rfl | rfl | rfl | rfl
    case inr.inr.inl =>
      exact lists_plain rfl ((Sb.begins_str _ _).hex _ _) rfl (by decide) (by decide) rfl
    all_goals exact lists_plain rfl (Sb.begins_str _ _) rfl (by decide) (by decide) rfl
  | callSyscall index =>
    simp only [CgCall.asm, List.mem_cons, List.not_mem_nil, or_false] at hi
    rcases hi with rfl | rfl | rfl
    · exact lists_plain rfl (Sb.begins_str _ _) rfl (by decide) (by decide) rfl
    all_goals exact lists_plain rfl ((Sb.begins_str _ _).hex _ _) rfl (by decide) (by decide) rfl
  | reverseStack n =>
    obtain ⟨k, -, hk⟩ := List.mem_flatMap.mp hi
    simp only [List.mem_cons, List.not_mem_nil, or_false] at hk
    rcases hk with rfl | rfl | rfl | rfl
    · exact lists_plain rfl (((Sb.begins_str _ _).dec _).ch _) rfl (by decide) (by decide) rfl
    · exact lists_plain rfl (((Sb.begins_str _ _).dec _).ch _) rfl (by decide) (by decide) rfl
    · exact lists_plain rfl (((Sb.begins_str _ _).dec _).str _) rfl (by decide) (by decide) rfl
    · exact lists_plain rfl (((Sb.begins_str _ _).dec _).str _) rfl (by decide) (by decide) rfl
  | newLabel | label | addString | allocGlobal => cases hi

end Instructions

/-- A transfer is made unless it is conditional and the condition does not hold. -/
def taken (cpu : X86.Cpu) : Instr → Bool
  | .jcc c _ => cpu.holds c
  | _ => true

/-- Control really gets to where a transfer is listed to go. -/
theorem step_transfer {cpu : X86.Cpu} {i : Instr} {name : String} {a : Word}
    (hm : cpu.mem.slice cpu.eip.toNat i.encode.length = i.encode)
    (ht : transfer cpu.eip i = some (name, a)) : ∃ cpu', X86.step cpu = some cpu' ∧
      cpu'.eip = if taken cpu i then a else cpu.eip + 6 := by
  cases i with
  | jmp rel | call rel =>
    cases ht
    exact ⟨_, X86.step_of_slice rfl hm, rfl⟩
  | jcc c rel =>
    have hholds : X86.Cpu.holds { cpu with eip := cpu.eip + 6 } c = cpu.holds c := by
      cases c <;> rfl
    have ha : a = cpu.eip + 6 + rel := by
      cases c with
      | e | ne =>
        cases ht
        rfl
      | _ => cases ht
    refine ⟨_, X86.step_of_slice rfl hm, ?_⟩
    show X86.Cpu.eip (if X86.Cpu.holds { cpu with eip := cpu.eip + 6 } c
      then X86.Cpu.jump { cpu with eip := cpu.eip + 6 } rel
      else { cpu with eip := cpu.eip + 6 }) = if cpu.holds c then a else cpu.eip + 6
    rw [hholds, ha]
    cases cpu.holds c <;> rfl
  | _ => cases ht

/-! ## The image -/

/-- The addresses that are visited by going on after each instruction, up to `stop`. -/
def walk (m : Bytes) (outsz stop : Nat) : Nat → Nat → List Nat
  | 0, _ => []
  | fuel + 1, a =>
    if a < stop then
      a :: walk m outsz stop fuel
        (a + (disasmOne (fun k => m (a + k)) (BitVec.ofNat 32 a) outsz).2)
    else []

/-- Where instructions start that are one after the other from `a` on. -/
def starts (a : Nat) : List Instr → List Nat
  | [] => []
  | i :: is => a :: starts (a + i.encode.length) is

/-- The code of a program, after the jump that it is entered by. -/
def instructions (syms : Symbols) (c : Codegen) (calls : List CgCall) : List Instr :=
  .jmp (imm (entryOffset syms)) ::
    assemble ((runCalls calls c).linkage syms) false c calls

theorem one_le_length_encode (i : Instr) : 1 ≤ i.encode.length := by
  cases i with
  | load dst src => cases src <;> simp [X86.Instr.encode]
  | store dst src => cases dst <;> simp [X86.Instr.encode]
  | _ => simp [X86.Instr.encode]

/-- What the disassembler knows it knows in memory. -/
theorem lists_of_slice {m : Bytes} {a outsz : Nat} {addr : Word} {i : Instr}
    (hm : m.slice a i.encode.length = i.encode)
    (h : ∀ post, Lists (fun k => (i.encode ++ post).getD k 0) addr outsz i) :
    Lists (fun k => m (a + k)) addr outsz i := by
  obtain ⟨d, hd⟩ := Nat.exists_eq_add_of_le (X86.length_encode_le i)
  have hsix : m.slice a 6 = i.encode ++ m.slice (a + i.encode.length) d := by
    rw [hd, Bytes.slice_add, hm]
  have hbytes : ∀ k < 6, m (a + k) = (i.encode ++ m.slice (a + i.encode.length) d).getD k 0 := by
    intro k hk
    rw [← hsix, List.getD_eq_getElem?_getD, Bytes.getElem?_slice hk, Option.getD_some]
  have hsame := disasmOne_congr hbytes addr outsz
  obtain ⟨hlength, hknown, htarget⟩ := h (m.slice (a + i.encode.length) d)
  constructor
  · rw [hsame]
    exact hlength
  · rw [hsame]
    exact hknown
  · rw [hsame]
    exact htarget

/-- Instructions one after the other that the disassembler knows are visited one by one. -/
theorem walk_eq_starts {m : Bytes} {outsz : Nat} {is : List Instr} {a fuel : Nat}
    (hlists : ∀ pre i post, is = pre ++ i :: post →
      Lists (fun k => m (a + (pre.flatMap Instr.encode).length + k))
        (BitVec.ofNat 32 (a + (pre.flatMap Instr.encode).length)) outsz i)
    (hfuel : (is.flatMap Instr.encode).length < fuel) :
    walk m outsz (a + (is.flatMap Instr.encode).length) fuel a = starts a is := by
  induction is generalizing a fuel with
  | nil =>
    obtain ⟨fuel, rfl⟩ := Nat.exists_eq_succ_of_ne_zero (Nat.ne_zero_of_lt hfuel)
    exact if_neg (Nat.lt_irrefl a)
  | cons i is ih =>
    have hone := one_le_length_encode i
    have hlen : ((i :: is).flatMap Instr.encode).length =
        i.encode.length + (is.flatMap Instr.encode).length := by
      rw [List.flatMap_cons, List.length_append]
    obtain ⟨fuel, rfl⟩ := Nat.exists_eq_succ_of_ne_zero (Nat.ne_zero_of_lt hfuel)
    rw [hlen] at hfuel ⊢
    have hfirst : (disasmOne (fun k => m (a + k)) (BitVec.ofNat 32 a) outsz).2 = i.encode.length :=
      (hlists [] i is rfl).length
    rw [walk, if_pos (by omega), starts, hfirst, ← Nat.add_assoc]
    refine congrArg (a :: ·) (ih (fun pre j post hsplit => ?_) (by omega))
    have hj := hlists (i :: pre) j post (congrArg (i :: ·) hsplit)
    rw [List.flatMap_cons, List.length_append, ← Nat.add_assoc] at hj
    exact hj

/-- Every instruction of a sequence of calls is one that some call makes. -/
theorem mem_assemble {env : Linkage} {str : Bool} {c : Codegen} {calls : List CgCall} {i : Instr}
    (h : i ∈ assemble env str c calls) : ∃ str' c' call, i ∈ CgCall.asm env str' c' call := by
  induction calls generalizing str c with
  | nil => exact absurd h List.not_mem_nil
  | cons call calls ih =>
    rcases List.mem_append.mp h with hcall | hrest
    · exact ⟨str, c, call, hcall⟩
    · exact ih hrest

/-- The image is its instructions. -/
theorem slice_image {c : Codegen} {calls : List CgCall} (h : Emits c.init calls)
    (hstr : StringsLoaded false calls) (hrets : RetsIn c.init calls) (syms : Symbols) (buf : Bytes)
    {m : Bytes} (hm : Loads m ((runCalls calls c.init).output syms buf)
      (runCalls calls c.init).stringStart) :
    m.slice cgLoadAddr (runCalls calls c.init).stringStart =
      (instructions syms c.init calls).flatMap Instr.encode := by
  have hload : m.slice cgLoadAddr (runCalls calls c.init).stringStart =
      ((runCalls calls c.init).output syms buf).slice 0 (runCalls calls c.init).stringStart := by
    apply List.ext_getElem?
    intro i
    by_cases hi : i < (runCalls calls c.init).stringStart
    · rw [Bytes.getElem?_slice hi, Bytes.getElem?_slice hi, hm i hi, Nat.zero_add]
    · rw [List.getElem?_eq_none, List.getElem?_eq_none] <;> rw [Bytes.length_slice] <;> omega
  have hentry : ((runCalls calls c.init).output syms buf).slice 0 Codegen.codeStart =
      (Instr.jmp (imm (entryOffset syms))).encode := by
    rw [slice_entry h hstr, X86.Instr.encode, bytes32_imm]
  have hcode := slice_output h hstr hrets syms buf
  rw [hload, Codegen.stringStart, Bytes.slice_add, hentry, Nat.zero_add, Codegen.codePos, hcode]
  rfl

/-- The disassembler agrees with the code generator: from the start of the image it visits
every instruction and nothing else up to the end of the code, knows each, and lists each
transfer with the address that control gets to. -/
theorem image_disassembled {c : Codegen} {calls : List CgCall} (h : Emits c.init calls)
    (hstr : StringsLoaded false calls) (hrets : RetsIn c.init calls) (syms : Symbols) (buf : Bytes)
    {m : Bytes} (hm : Loads m ((runCalls calls c.init).output syms buf)
      (runCalls calls c.init).stringStart) (outsz : Nat) :
    (∀ fuel, (runCalls calls c.init).stringStart < fuel →
      walk m outsz (cgLoadAddr + (runCalls calls c.init).stringStart) fuel cgLoadAddr =
        starts cgLoadAddr (instructions syms c.init calls)) ∧
    ∀ pre i post, instructions syms c.init calls = pre ++ i :: post →
      ∀ a, a = cgLoadAddr + (pre.flatMap Instr.encode).length →
        Lists (fun k => m (a + k)) (BitVec.ofNat 32 a) outsz i ∧
        ∀ name target, transfer (BitVec.ofNat 32 a) i = some (name, target) →
          ∀ cpu : X86.Cpu, cpu.mem = m → cpu.eip = BitVec.ofNat 32 a →
            ∃ cpu', X86.step cpu = some cpu' ∧
              cpu'.eip = if taken cpu i then target else cpu.eip + 6 := by
  have himage := slice_image h hstr hrets syms buf hm
  have hlength := congrArg List.length himage
  rw [Bytes.length_slice] at hlength
  have hat : ∀ pre i post, instructions syms c.init calls = pre ++ i :: post →
      m.slice (cgLoadAddr + (pre.flatMap Instr.encode).length) i.encode.length = i.encode := by
    intro pre i post hsplit
    have hbytes := himage
    rw [hlength, hsplit, List.flatMap_append, List.flatMap_cons, List.length_append,
      Bytes.slice_add] at hbytes
    have hrest := (List.append_inj hbytes (Bytes.length_slice _ _ _)).2
    rw [List.length_append, Bytes.slice_add] at hrest
    exact (List.append_inj hrest (Bytes.length_slice _ _ _)).1
  have hlists : ∀ pre i post, instructions syms c.init calls = pre ++ i :: post →
      Lists (fun k => m (cgLoadAddr + (pre.flatMap Instr.encode).length + k))
        (BitVec.ofNat 32 (cgLoadAddr + (pre.flatMap Instr.encode).length)) outsz i := by
    intro pre i post hsplit
    apply lists_of_slice (hat pre i post hsplit)
    intro rest
    have hmem : i ∈ instructions syms c.init calls := by
      rw [hsplit]
      exact List.mem_append_right _ List.mem_cons_self
    rcases List.mem_cons.mp hmem with rfl | hcode
    · exact lists_jmp _ _ _ _
    · obtain ⟨str, c', call, hi⟩ := mem_assemble hcode
      exact lists_asm _ _ _ _ str c' call hi
  constructor
  · intro fuel hfuel
    rw [hlength] at hfuel ⊢
    exact walk_eq_starts hlists hfuel
  · rintro pre i post hsplit a rfl
    refine ⟨hlists pre i post hsplit, ?_⟩
    rintro name target ht cpu rfl heip
    rw [← heip] at ht
    apply step_transfer _ ht
    have hmax : cgLoadAddr + (pre.flatMap Instr.encode).length < 2 ^ 32 := by
      have hcode := h.length_code (Nat.zero_le _)
      have hstart : (runCalls calls c.init).stringStart =
          Codegen.codeStart + (runCalls calls c.init).code.length := rfl
      rw [hsplit, List.flatMap_append, List.length_append] at hlength
      have hbase : cgLoadAddr = 0x200000 := rfl
      have hmax : cgCodeMax = 8192 := rfl
      have hentry : Codegen.codeStart = 5 := rfl
      omega
    rw [heip, BitVec.toNat_ofNat, Nat.mod_eq_of_lt hmax]
    exact hat pre i post hsplit

/-! ### A program -/

/-- `void main() { while (f()); }`, roughly. -/
def loopCalls : List CgCall :=
  [.funcBegin (.glob 0), .newLabel, .label 1, .callSymbol (.glob 0), .jumpNonzero 1, .funcEnd]

/-- The statics that it leaves. -/
def loopCompiled : Codegen := runCalls loopCalls Compiler.boot.cg.init

/-- Its instructions are visited one by one. -/
theorem image_disassembled_loop : walk (fun a => loopCompiled.output Compiler.boot.syms (fun _ => 0)
      (a - cgLoadAddr)) 64 (cgLoadAddr + loopCompiled.stringStart) 64 cgLoadAddr =
    [0x200000, 0x200005, 0x200006, 0x200008, 0x20000E, 0x20000F, 0x200010, 0x200011, 0x200016,
      0x200018, 0x20001E, 0x20001F, 0x200020, 0x200021, 0x200023, 0x200024] := by
  have hemits : Fits Compiler.boot.cg.init loopCalls := by decide +kernel
  have hload : Loads (fun a => loopCompiled.output Compiler.boot.syms (fun _ => 0) (a - cgLoadAddr))
      (loopCompiled.output Compiler.boot.syms fun _ => 0) loopCompiled.stringStart := by
    intro i _
    simp only [Nat.add_sub_cancel_left]
  have hwalk := (image_disassembled hemits.emits ⟨nofun, nofun, nofun, nofun, nofun, nofun, rfl⟩
    ⟨nofun, nofun, nofun, nofun, nofun, nofun, trivial⟩ Compiler.boot.syms (fun _ => 0) hload 64).1
  rw [loopCompiled] at *
  rw [hwalk 64 (by decide +kernel)]
  decide +kernel

end RainbowOs.Kernel
