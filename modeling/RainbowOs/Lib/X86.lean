import RainbowOs.Lib.Bytes
import Mathlib.Logic.Relation

/-!
# x86: the instructions a small compiler needs

The 32-bit registers, three flags and a flat memory; instructions with
their encoding, a decoder for the bytes, and the step of the machine, which
fetches and decodes at EIP. Code is bytes in the memory that it runs on.

`decode_encode` says that the decoder reads back what was encoded, whatever
follows it, and `step_of_slice` that the machine at encoded bytes does what
the instruction does. A fault of the machine is `none`: a division that
overflows, and bytes outside the subset. `int` is `none` too, for it leaves
the program. The flags of `imul`, `idiv`, `neg` and the shifts are left as
they were.
-/

namespace RainbowOs.Lib.X86

/-- A 32-bit word. -/
abbrev Word := BitVec 32

/-- The registers, in the order of their codes. -/
inductive Reg where
  | eax | ecx | edx | ebx | esp | ebp | esi | edi
  deriving DecidableEq, Repr

/-- The code of a register. -/
def Reg.code : Reg → Nat
  | .eax => 0 | .ecx => 1 | .edx => 2 | .ebx => 3 | .esp => 4 | .ebp => 5 | .esi => 6 | .edi => 7

/-- The register of a code. -/
def Reg.ofCode (n : Nat) : Reg :=
  [Reg.eax, .ecx, .edx, .ebx, .esp, .ebp, .esi, .edi].getD n .eax

/-- What a conditional instruction tests. -/
inductive Cond where
  | e | ne | l | ge | le | g
  deriving DecidableEq, Repr

def Cond.code : Cond → Nat
  | .e => 4 | .ne => 5 | .l => 12 | .ge => 13 | .le => 14 | .g => 15

def Cond.ofCode : Nat → Option Cond
  | 4 => some .e
  | 5 => some .ne
  | 12 => some .l
  | 13 => some .ge
  | 14 => some .le
  | 15 => some .g
  | _ => none

/-- Two-operand arithmetic, in the order of the opcodes. -/
inductive Alu where
  | add | or | and | sub | xor | cmp
  deriving DecidableEq, Repr

def Alu.code : Alu → Nat
  | .add => 0 | .or => 1 | .and => 4 | .sub => 5 | .xor => 6 | .cmp => 7

def Alu.ofCode : Nat → Option Alu
  | 0 => some .add
  | 1 => some .or
  | 4 => some .and
  | 5 => some .sub
  | 6 => some .xor
  | 7 => some .cmp
  | _ => none

/-- An operand in memory: `[r]`, `[esp + d8]`, `[r + d32]` or an address. -/
inductive Operand where
  | ind (r : Reg)
  | stack (d : UInt8)
  | disp (r : Reg) (d : Word)
  | abs (a : Word)
  deriving DecidableEq, Repr

/-- Instructions. `setcc` and `movzx` use the low byte of EAX; `shl` and `shr` shift by CL;
`xchg` exchanges with EAX. -/
inductive Instr where
  | push (r : Reg)
  | pop (r : Reg)
  | mov (dst src : Reg)
  | movImm (dst : Reg) (imm : Word)
  | load (dst : Reg) (src : Operand)
  | store (dst : Operand) (src : Reg)
  | loadByte
  | storeByte
  | lea (dst : Reg) (base : Reg) (disp : Word)
  | alu (op : Alu) (dst src : Reg)
  | aluImm (op : Alu) (dst : Reg) (imm : Word)
  | test (a b : Reg)
  | imul (dst src : Reg)
  | xchg (r : Reg)
  | cdq
  | idiv (r : Reg)
  | neg (r : Reg)
  | not (r : Reg)
  | shl (r : Reg)
  | shr (r : Reg)
  | shlImm (r : Reg) (n : UInt8)
  | setcc (c : Cond)
  | movzx
  | jmp (rel : Word)
  | jcc (c : Cond) (rel : Word)
  | call (rel : Word)
  | ret
  | int (n : UInt8)
  deriving DecidableEq, Repr

/-! ## Encoding -/

/-- The four bytes of a word, low byte first. -/
def bytes32 (w : Word) : List UInt8 := Bytes.le32 w.toNat

/-- The word of four bytes. -/
def word (b0 b1 b2 b3 : UInt8) : Word :=
  BitVec.ofNat 32 (b0.toNat + 256 * b1.toNat + 65536 * (b2.toNat + 256 * b3.toNat))

/-- A ModRM byte. -/
def modrm (mod reg rm : Nat) : UInt8 := UInt8.ofNat (64 * mod + 8 * reg + rm)

/-- The ModRM byte of a memory operand, with what follows it. -/
def Operand.encode (reg : Nat) : Operand → List UInt8
  | .ind r => [modrm 0 reg r.code]
  | .stack d => [modrm 1 reg 4, 0x24, d]
  | .disp r d => modrm 2 reg r.code :: bytes32 d
  | .abs a => modrm 0 reg 5 :: bytes32 a

def Instr.encode : Instr → List UInt8
  | .push r => [UInt8.ofNat (0x50 + r.code)]
  | .pop r => [UInt8.ofNat (0x58 + r.code)]
  | .mov dst src => [0x89, modrm 3 src.code dst.code]
  | .movImm dst imm => UInt8.ofNat (0xB8 + dst.code) :: bytes32 imm
  | .load _ (.abs a) => 0xA1 :: bytes32 a
  | .load dst src => 0x8B :: src.encode dst.code
  | .store (.abs a) _ => 0xA3 :: bytes32 a
  | .store dst src => 0x89 :: dst.encode src.code
  | .loadByte => [0x0F, 0xB6, 0x00]
  | .storeByte => [0x88, 0x01]
  | .lea dst base disp => 0x8D :: (Operand.disp base disp).encode dst.code
  | .alu op dst src => [UInt8.ofNat (8 * op.code + 1), modrm 3 src.code dst.code]
  | .aluImm op dst imm => 0x81 :: modrm 3 op.code dst.code :: bytes32 imm
  | .test a b => [0x85, modrm 3 b.code a.code]
  | .imul dst src => [0x0F, 0xAF, modrm 3 dst.code src.code]
  | .xchg r => [UInt8.ofNat (0x90 + r.code)]
  | .cdq => [0x99]
  | .idiv r => [0xF7, modrm 3 7 r.code]
  | .neg r => [0xF7, modrm 3 3 r.code]
  | .not r => [0xF7, modrm 3 2 r.code]
  | .shl r => [0xD3, modrm 3 4 r.code]
  | .shr r => [0xD3, modrm 3 5 r.code]
  | .shlImm r n => [0xC1, modrm 3 4 r.code, n]
  | .setcc c => [0x0F, UInt8.ofNat (0x90 + c.code), 0xC0]
  | .movzx => [0x0F, 0xB6, 0xC0]
  | .jmp rel => 0xE9 :: bytes32 rel
  | .jcc c rel => 0x0F :: UInt8.ofNat (0x80 + c.code) :: bytes32 rel
  | .call rel => 0xE8 :: bytes32 rel
  | .ret => [0xC3]
  | .int n => [0xCD, n]

/-- The operands the subset has an encoding for: `[r]` and `[r + d32]` need a base that is no
escape of the ModRM byte. -/
def Operand.Plain : Operand → Bool
  | .ind r => r ≠ .esp && r ≠ .ebp
  | .stack _ => true
  | .disp r _ => r ≠ .esp
  | .abs _ => false

/-- The instructions that have an encoding in the subset. -/
def Instr.Plain : Instr → Bool
  | .load dst (.abs _) => dst = .eax
  | .load _ src => src.Plain
  | .store (.abs _) src => src = .eax
  | .store dst _ => dst.Plain
  | .lea _ base _ => base ≠ .esp
  | .xchg r => r ≠ .eax
  | _ => true

/-! ## Decoding -/

/-- The memory operand after a ModRM byte, and how many bytes follow that. -/
def decodeOperand (m : UInt8) (rest : List UInt8) : Option (Operand × Nat) :=
  let rm := m.toNat % 8
  match m.toNat / 64, rest with
  | 0, _ => if rm = 4 ∨ rm = 5 then none else some (.ind (.ofCode rm), 0)
  | 1, sib :: d :: _ => if rm = 4 ∧ sib = 0x24 then some (.stack d, 2) else none
  | 2, b0 :: b1 :: b2 :: b3 :: _ =>
    if rm = 4 then none else some (.disp (.ofCode rm) (word b0 b1 b2 b3), 4)
  | _, _ => none

/-- The instruction of a two-byte opcode, and its length. -/
def decodeTwo (b : UInt8) (rest : List UInt8) : Option (Instr × Nat) :=
  let n := b.toNat
  if n / 16 = 8 then
    match Cond.ofCode (n % 16), rest with
    | some c, b0 :: b1 :: b2 :: b3 :: _ => some (.jcc c (word b0 b1 b2 b3), 6)
    | _, _ => none
  else if n / 16 = 9 then
    match Cond.ofCode (n % 16), rest with
    | some c, m :: _ => if m = 0xC0 then some (.setcc c, 3) else none
    | _, _ => none
  else match rest with
    | [] => none
    | m :: _ =>
      if n = 0xAF then
        if m.toNat / 64 = 3 then
          some (.imul (.ofCode (m.toNat / 8 % 8)) (.ofCode (m.toNat % 8)), 3)
        else none
      else if n = 0xB6 then
        if m = 0xC0 then some (.movzx, 3) else if m = 0x00 then some (.loadByte, 3) else none
      else none

/-- The instruction of an opcode with a ModRM byte, and its length. -/
def decodeModrm (n : Nat) (m : UInt8) (rest : List UInt8) : Option (Instr × Nat) :=
  let mod := m.toNat / 64
  let reg := m.toNat / 8 % 8
  let rm := Reg.ofCode (m.toNat % 8)
  if n = 0x89 then
    if mod = 3 then some (.mov rm (.ofCode reg), 2)
    else (decodeOperand m rest).map fun o => (.store o.1 (.ofCode reg), 2 + o.2)
  else if n = 0x8B then (decodeOperand m rest).map fun o => (.load (.ofCode reg) o.1, 2 + o.2)
  else if n = 0x8D then
    match decodeOperand m rest with
    | some (.disp base d, _) => some (.lea (.ofCode reg) base d, 6)
    | _ => none
  else if n = 0x88 then if m = 0x01 then some (.storeByte, 2) else none
  else if mod ≠ 3 then none
  else if n = 0x85 then some (.test rm (.ofCode reg), 2)
  else if n = 0x81 then
    match Alu.ofCode reg, rest with
    | some op, b0 :: b1 :: b2 :: b3 :: _ => some (.aluImm op rm (word b0 b1 b2 b3), 6)
    | _, _ => none
  else if n = 0xF7 then
    if reg = 7 then some (.idiv rm, 2) else if reg = 3 then some (.neg rm, 2)
    else if reg = 2 then some (.not rm, 2) else none
  else if n = 0xD3 then
    if reg = 4 then some (.shl rm, 2) else if reg = 5 then some (.shr rm, 2) else none
  else if n = 0xC1 then
    match rest with
    | k :: _ => if reg = 4 then some (.shlImm rm k, 3) else none
    | [] => none
  else if n % 8 = 1 then (Alu.ofCode (n / 8)).map fun op => (.alu op rm (.ofCode reg), 2)
  else none

/-- The instruction at the start of the bytes, and its length. -/
def decode : List UInt8 → Option (Instr × Nat)
  | [] => none
  | b :: rest =>
    let n := b.toNat
    let r := Reg.ofCode (n % 8)
    if n / 8 = 10 then some (.push r, 1)
    else if n / 8 = 11 then some (.pop r, 1)
    else if n / 8 = 18 ∧ n ≠ 0x90 then some (.xchg r, 1)
    else if n = 0x99 then some (.cdq, 1)
    else if n = 0xC3 then some (.ret, 1)
    else if n = 0x0F then
      match rest with
      | m :: rest => decodeTwo m rest
      | [] => none
    else if n / 8 = 23 ∨ n = 0xA1 ∨ n = 0xA3 ∨ n = 0xE8 ∨ n = 0xE9 then
      match rest with
      | b0 :: b1 :: b2 :: b3 :: _ =>
        let w := word b0 b1 b2 b3
        if n / 8 = 23 then some (.movImm r w, 5)
        else if n = 0xA1 then some (.load .eax (.abs w), 5)
        else if n = 0xA3 then some (.store (.abs w) .eax, 5)
        else if n = 0xE8 then some (.call w, 5)
        else some (.jmp w, 5)
      | _ => none
    else match rest with
      | m :: rest => if n = 0xCD then some (.int m, 2) else decodeModrm n m rest
      | [] => none

/-- The bytes of a word read back. -/
@[simp] theorem word_le32 (w : Word) :
    word (UInt8.ofNat w.toNat) (UInt8.ofNat (w.toNat / 256)) (UInt8.ofNat (w.toNat / 65536))
      (UInt8.ofNat (w.toNat / 65536 / 256)) = w := by
  apply BitVec.eq_of_toNat_eq
  have := w.isLt
  simp only [word, BitVec.toNat_ofNat, UInt8.toNat_ofNat']
  omega

theorem bytes32_eq (w : Word) : bytes32 w =
    [UInt8.ofNat w.toNat, UInt8.ofNat (w.toNat / 256), UInt8.ofNat (w.toNat / 65536),
      UInt8.ofNat (w.toNat / 65536 / 256)] := rfl

theorem length_encode_le (i : Instr) : i.encode.length ≤ 6 := by
  cases i with
  | load dst src => cases src <;> simp [Instr.encode, Operand.encode, bytes32_eq]
  | store dst src => cases dst <;> simp [Instr.encode, Operand.encode, bytes32_eq]
  | _ => simp [Instr.encode, Operand.encode, bytes32_eq]

/-- A load from an operand with a ModRM byte reads back. -/
theorem decode_encode_load {dst : Reg} {src : Operand} (h : (Instr.load dst src).Plain)
    (rest : List UInt8) : decode ((Instr.load dst src).encode ++ rest) =
      some (.load dst src, (Instr.load dst src).encode.length) := by
  cases src with
  | ind r => cases r <;> first | exact Bool.noConfusion h | (cases dst <;> rfl)
  | stack d => cases dst <;> rfl
  | disp r d =>
    simp only [Instr.encode, Operand.encode, bytes32_eq]
    cases r <;> first
      | exact Bool.noConfusion h
      | (cases dst <;>
          exact congrArg (fun w => some (Instr.load _ (.disp _ w), 6)) (word_le32 d))
  | abs a =>
    cases dst <;> first
      | exact congrArg (fun w => some (Instr.load _ (.abs w), 5)) (word_le32 a)
      | exact Bool.noConfusion h

/-- A store to an operand with a ModRM byte reads back. -/
theorem decode_encode_store {dst : Operand} {src : Reg} (h : (Instr.store dst src).Plain)
    (rest : List UInt8) : decode ((Instr.store dst src).encode ++ rest) =
      some (.store dst src, (Instr.store dst src).encode.length) := by
  cases dst with
  | ind r => cases r <;> first | exact Bool.noConfusion h | (cases src <;> rfl)
  | stack d => cases src <;> rfl
  | disp r d =>
    simp only [Instr.encode, Operand.encode, bytes32_eq]
    cases r <;> first
      | exact Bool.noConfusion h
      | (cases src <;>
          exact congrArg (fun w => some (Instr.store (.disp _ w) _, 6)) (word_le32 d))
  | abs a =>
    cases src <;> first
      | exact congrArg (fun w => some (Instr.store (.abs w) _, 5)) (word_le32 a)
      | exact Bool.noConfusion h

/-- What was encoded decodes to itself, whatever follows. -/
theorem decode_encode {i : Instr} (h : i.Plain) (rest : List UInt8) :
    decode (i.encode ++ rest) = some (i, i.encode.length) := by
  cases i with
  | load dst src => exact decode_encode_load h rest
  | store dst src => exact decode_encode_store h rest
  | movImm dst imm =>
    rw [Instr.encode, bytes32_eq]
    cases dst <;> exact congrArg (fun w => some (Instr.movImm _ w, 5)) (word_le32 imm)
  | lea dst base disp =>
    simp only [Instr.encode, Operand.encode, bytes32_eq]
    cases base <;> first
      | exact Bool.noConfusion h
      | (cases dst <;> exact congrArg (fun w => some (Instr.lea _ _ w, 6)) (word_le32 disp))
  | aluImm op dst imm =>
    simp only [Instr.encode, bytes32_eq]
    cases op <;> cases dst <;>
      exact congrArg (fun w => some (Instr.aluImm _ _ w, 6)) (word_le32 imm)
  | jmp rel =>
    rw [Instr.encode, bytes32_eq]
    exact congrArg (fun w => some (Instr.jmp w, 5)) (word_le32 rel)
  | jcc c rel =>
    rw [Instr.encode, bytes32_eq]
    cases c <;> exact congrArg (fun w => some (Instr.jcc _ w, 6)) (word_le32 rel)
  | call rel =>
    rw [Instr.encode, bytes32_eq]
    exact congrArg (fun w => some (Instr.call w, 5)) (word_le32 rel)
  | alu op dst src => cases op <;> cases dst <;> cases src <;> rfl
  | mov dst src | test dst src | imul dst src => cases dst <;> cases src <;> rfl
  | push r | pop r | idiv r | neg r | not r | shl r | shr r | shlImm r n => cases r <;> rfl
  | xchg r => cases r <;> first | exact Bool.noConfusion h | rfl
  | setcc c => cases c <;> rfl
  | loadByte | storeByte | cdq | movzx | ret | int n => rfl

/-! ## The machine -/

/-- A processor with its memory. -/
structure Cpu where
  regs : Reg → Word
  eip : Word
  zf : Bool
  sf : Bool
  of : Bool
  mem : Bytes

/-- The word at an address. -/
def read (m : Bytes) (a : Word) : Word := BitVec.ofNat 32 (m.word32 a.toNat)

/-- A word stored at an address. -/
def write (m : Bytes) (a v : Word) : Bytes := m.store a.toNat (bytes32 v)

namespace Cpu

variable (s : Cpu)

/-- A register set. -/
def set (r : Reg) (v : Word) : Cpu := { s with regs := Function.update s.regs r v }

/-- The flags that the result `v` of an operation leaves, `o` its overflow. -/
def flags (v : Word) (o : Bool) : Cpu := { s with zf := v = 0, sf := v.msb, of := o }

/-- A transfer to `rel` bytes past the next instruction. -/
def jump (rel : Word) : Cpu := { s with eip := s.eip + rel }

def push (v : Word) : Cpu :=
  { s.set .esp (s.regs .esp - 4) with mem := write s.mem (s.regs .esp - 4) v }

/-- The address of a memory operand. -/
def address : Operand → Word
  | .ind r => s.regs r
  | .stack d => s.regs .esp + (BitVec.ofNat 8 d.toNat).signExtend 32
  | .disp r d => s.regs r + d
  | .abs a => a

/-- A condition, by the flags. -/
def holds : Cond → Bool
  | .e => s.zf
  | .ne => !s.zf
  | .l => s.sf != s.of
  | .ge => s.sf == s.of
  | .le => s.zf || s.sf != s.of
  | .g => !s.zf && s.sf == s.of

/-- Two-operand arithmetic. -/
def alu (op : Alu) (dst : Reg) (b : Word) : Cpu :=
  let a := s.regs dst
  match op with
  | .add => (s.flags (a + b) (BitVec.saddOverflow a b)).set dst (a + b)
  | .sub => (s.flags (a - b) (BitVec.ssubOverflow a b)).set dst (a - b)
  | .cmp => s.flags (a - b) (BitVec.ssubOverflow a b)
  | .and => (s.flags (a &&& b) false).set dst (a &&& b)
  | .or => (s.flags (a ||| b) false).set dst (a ||| b)
  | .xor => (s.flags (a ^^^ b) false).set dst (a ^^^ b)

/-- The signed division of EDX:EAX: a fault where the quotient does not fit. -/
def divide (d : Word) : Option Cpu :=
  let n := (s.regs .edx).toInt * 4294967296 + (s.regs .eax).toNat
  let q := n.tdiv d.toInt
  if d = 0 ∨ q < -2147483648 ∨ 2147483647 < q then none
  else some ((s.set .eax (BitVec.ofInt 32 q)).set .edx (BitVec.ofInt 32 (n.tmod d.toInt)))

end Cpu

/-- What an instruction does once EIP is past it. -/
def Instr.exec (s : Cpu) : Instr → Option Cpu
  | .push r => some (s.push (s.regs r))
  | .pop r => some ((s.set .esp (s.regs .esp + 4)).set r (read s.mem (s.regs .esp)))
  | .mov dst src => some (s.set dst (s.regs src))
  | .movImm dst imm => some (s.set dst imm)
  | .load dst src => some (s.set dst (read s.mem (s.address src)))
  | .store dst src => some { s with mem := write s.mem (s.address dst) (s.regs src) }
  | .loadByte => some (s.set .eax (BitVec.ofNat 32 (s.mem (s.regs .eax).toNat).toNat))
  | .storeByte => some { s with
      mem := s.mem.store (s.regs .ecx).toNat [UInt8.ofNat (s.regs .eax).toNat] }
  | .lea dst base disp => some (s.set dst (s.regs base + disp))
  | .alu op dst src => some (s.alu op dst (s.regs src))
  | .aluImm op dst imm => some (s.alu op dst imm)
  | .test a b => some (s.flags (s.regs a &&& s.regs b) false)
  | .imul dst src => some (s.set dst (s.regs dst * s.regs src))
  | .xchg r => some ((s.set .eax (s.regs r)).set r (s.regs .eax))
  | .cdq => some (s.set .edx (if (s.regs .eax).msb then BitVec.allOnes 32 else 0))
  | .idiv r => s.divide (s.regs r)
  | .neg r => some (s.set r (-s.regs r))
  | .not r => some (s.set r (~~~s.regs r))
  | .shl r => some (s.set r (s.regs r <<< ((s.regs .ecx).toNat % 32)))
  | .shr r => some (s.set r (s.regs r >>> ((s.regs .ecx).toNat % 32)))
  | .shlImm r n => some (s.set r (s.regs r <<< (n.toNat % 32)))
  | .setcc c => some (s.set .eax ((s.regs .eax &&& 0xFFFFFF00) ||| if s.holds c then 1 else 0))
  | .movzx => some (s.set .eax (s.regs .eax &&& 0xFF))
  | .jmp rel => some (s.jump rel)
  | .jcc c rel => some (if s.holds c then s.jump rel else s)
  | .call rel => some ((s.push s.eip).jump rel)
  | .ret => some { s.set .esp (s.regs .esp + 4) with eip := read s.mem (s.regs .esp) }
  | .int _ => none

/-- Fetch, decode, execute. -/
def step (s : Cpu) : Option Cpu :=
  match decode (s.mem.slice s.eip.toNat 6) with
  | some (i, n) => i.exec { s with eip := s.eip + BitVec.ofNat 32 n }
  | none => none

/-- The machine gets from one state to the other. -/
abbrev Reaches : Cpu → Cpu → Prop := Relation.ReflTransGen fun s s' => step s = some s'

/-- At encoded bytes the machine does what the instruction does. -/
theorem step_of_slice {s : Cpu} {i : Instr} (hp : i.Plain)
    (h : s.mem.slice s.eip.toNat i.encode.length = i.encode) :
    step s = i.exec { s with eip := s.eip + BitVec.ofNat 32 i.encode.length } := by
  obtain ⟨d, hd⟩ := Nat.exists_eq_add_of_le (length_encode_le i)
  rw [step, hd, Bytes.slice_add, h, decode_encode hp]

end RainbowOs.Lib.X86
