import RainbowOs.Cc.Symbols
import RainbowOs.Lib.Bytes

/-!
# The code generator of the C compiler

`kernel/cc/codegen.c`, function by function: each appends bytes to `code`
and records what is to be patched. A store that does not fit is left out,
as the source leaves it out: a byte past the end of the code, a fixup past
the end of its table, a label past the last one (which is answered with
label 0), a byte of a string.

`label_pos` is read at whatever index a fixup holds, so it is given at every
integer; `cg_init` sets the 256 entries that are the table.
-/

namespace RainbowOs.Cc

open RainbowOs.Lib

abbrev cgCodeMax : Nat := 8192
abbrev cgDataMax : Nat := 4096
abbrev cgFixupMax : Nat := 256
abbrev cgLabelMax : Nat := 256
abbrev cgStringMax : Nat := 2048
abbrev cgStrFixupMax : Nat := 128
abbrev cgLoadAddr : Nat := 0x200000

/-- `struct fixup` -/
structure Fixup where
  codeOffset : Nat
  labelId : Int
  sym : SymRef
  deriving DecidableEq, Repr

/-- The statics of `codegen.c`. -/
structure Codegen where
  code : List UInt8
  strings : List UInt8
  labelPos : Int → Int
  numLabels : Nat
  fixups : List Fixup
  strFixups : List Nat
  globalDataOffset : Int
  funcEpilogueLabel : Int

/-- The four bytes of `(uint32_t)d`. -/
def le32 (d : Int) : List UInt8 := Bytes.le32 (d % 4294967296).toNat

namespace Codegen

variable (c : Codegen)

/-- `code_pos` -/
def codePos : Nat := c.code.length

/-- `string_pos` -/
def stringPos : Nat := c.strings.length

/-- `cg_init` -/
def init : Codegen where
  code := []
  strings := []
  labelPos := fun id => if 0 ≤ id ∧ id < cgLabelMax then -1 else c.labelPos id
  numLabels := 0
  fixups := []
  strFixups := []
  globalDataOffset := 0
  funcEpilogueLabel := c.funcEpilogueLabel

/-- `cg_emit_byte` -/
def emitByte (b : UInt8) : Codegen :=
  if c.codePos < cgCodeMax then { c with code := c.code ++ [b] } else c

/-- Bytes one after the other. -/
def emitBytes (bs : List UInt8) : Codegen := bs.foldl emitByte c

/-- `cg_emit_dword` -/
def emitDword (d : Int) : Codegen := c.emitBytes (le32 d)

/-- A fixup at the position the code has reached. -/
def addFixup (labelId : Int) (sym : SymRef) : Codegen :=
  if c.fixups.length < cgFixupMax then
    { c with fixups := c.fixups ++ [⟨c.codePos, labelId, sym⟩] }
  else c

/-- `emit_rel_jump` -/
def emitRelJump (opcode : UInt8) (label : Int) : Codegen :=
  ((c.emitByte opcode).addFixup label .null).emitDword 0

/-- `emit_rel_jump2` -/
def emitRelJump2 (byte1 byte2 : UInt8) (label : Int) : Codegen :=
  (((c.emitByte byte1).emitByte byte2).addFixup label .null).emitDword 0

/-! ## Load and store -/

/-- `cg_load_num` -/
def loadNum (val : Int) : Codegen := (c.emitByte 0xB8).emitDword val

/-- `cg_load_global` -/
def loadGlobal (addr : Int) : Codegen := ((c.emitByte 0xA1).addFixup (-2) .null).emitDword addr

/-- `cg_load_local` -/
def loadLocal (offset : Int) : Codegen := (c.emitBytes [0x8B, 0x85]).emitDword offset

/-- `cg_lea_local` -/
def leaLocal (offset : Int) : Codegen := (c.emitBytes [0x8D, 0x85]).emitDword offset

/-- `cg_store_global` -/
def storeGlobal (addr : Int) : Codegen := ((c.emitByte 0xA3).addFixup (-2) .null).emitDword addr

/-- `cg_store_local` -/
def storeLocal (offset : Int) : Codegen := (c.emitBytes [0x89, 0x85]).emitDword offset

/-! ## Stack operations -/

/-- `cg_push` -/
def push : Codegen := c.emitBytes [0x50]

/-- `cg_pop_into_ecx` -/
def popIntoEcx : Codegen := c.emitBytes [0x59]

/-- `cg_pop_to_eax` -/
def popToEax : Codegen := c.emitBytes [0x58]

/-- `cg_add_esp` -/
def addEsp (bytes : Int) : Codegen := (c.emitBytes [0x81, 0xC4]).emitDword bytes

/-! ## Arithmetic: the left operand in ECX, the right one in EAX -/

/-- `cg_add` -/
def add : Codegen := c.emitBytes [0x01, 0xC8]

/-- `cg_sub` -/
def sub : Codegen := c.emitBytes [0x29, 0xC1, 0x89, 0xC8]

/-- `cg_mul` -/
def mul : Codegen := c.emitBytes [0x0F, 0xAF, 0xC1]

/-- `cg_div` -/
def div : Codegen := c.emitBytes [0x91, 0x99, 0xF7, 0xF9]

/-- `cg_mod` -/
def mod : Codegen := c.emitBytes [0x91, 0x99, 0xF7, 0xF9, 0x89, 0xD0]

/-- `cg_bitand` -/
def bitand : Codegen := c.emitBytes [0x21, 0xC8]

/-- `cg_bitor` -/
def bitor : Codegen := c.emitBytes [0x09, 0xC8]

/-- `cg_bitxor` -/
def bitxor : Codegen := c.emitBytes [0x31, 0xC8]

/-- `cg_shl` -/
def shl : Codegen := c.emitBytes [0x91, 0xD3, 0xE0]

/-- `cg_shr` -/
def shr : Codegen := c.emitBytes [0x91, 0xD3, 0xE8]

/-- `cg_shl_imm` -/
def shlImm (bits : UInt8) : Codegen := c.emitBytes [0xC1, 0xE0, bits]

/-- `cg_negate` -/
def negate : Codegen := c.emitBytes [0xF7, 0xD8]

/-- `cg_logical_not` -/
def logicalNot : Codegen := c.emitBytes [0x85, 0xC0, 0x0F, 0x94, 0xC0, 0x0F, 0xB6, 0xC0]

/-- `cg_bitwise_not` -/
def bitwiseNot : Codegen := c.emitBytes [0xF7, 0xD0]

/-- The second opcode byte of the `setcc` of `cg_cmp`. -/
def setcc : Tok → UInt8
  | .eq => 0x94
  | .ne => 0x95
  | .lt => 0x9C
  | .gt => 0x9F
  | .le => 0x9E
  | .ge => 0x9D
  | _ => 0x94

/-- `cg_cmp` -/
def cmp (op : Tok) : Codegen := c.emitBytes [0x39, 0xC1, 0x0F, setcc op, 0xC0, 0x0F, 0xB6, 0xC0]

/-! ## Pointers -/

/-- `cg_deref_dword` -/
def derefDword : Codegen := c.emitBytes [0x8B, 0x00]

/-- `cg_deref_byte` -/
def derefByte : Codegen := c.emitBytes [0x0F, 0xB6, 0x00]

/-- `cg_store_deref_dword` -/
def storeDerefDword : Codegen := c.emitBytes [0x89, 0x01]

/-- `cg_store_deref_byte` -/
def storeDerefByte : Codegen := c.emitBytes [0x88, 0x01]

/-! ## Labels and jumps -/

/-- The label `cg_new_label` answers. -/
def freshLabel : Int := if c.numLabels ≥ cgLabelMax then 0 else c.numLabels

/-- `cg_new_label` -/
def newLabel : Codegen :=
  if c.numLabels ≥ cgLabelMax then c
  else { c with
    numLabels := c.numLabels + 1
    labelPos := Function.update c.labelPos c.numLabels (-1) }

/-- `cg_label` -/
def label (id : Int) : Codegen :=
  if 0 ≤ id ∧ id < cgLabelMax then
    { c with labelPos := Function.update c.labelPos id c.codePos }
  else c

/-- `cg_jump` -/
def jump (label : Int) : Codegen := c.emitRelJump 0xE9 label

/-- `cg_jump_zero` -/
def jumpZero (label : Int) : Codegen := (c.emitBytes [0x85, 0xC0]).emitRelJump2 0x0F 0x84 label

/-- `cg_jump_nonzero` -/
def jumpNonzero (label : Int) : Codegen := (c.emitBytes [0x85, 0xC0]).emitRelJump2 0x0F 0x85 label

/-! ## Functions -/

/-- `cg_func_begin`, but for the address it stores in the symbol. -/
def funcBegin : Codegen :=
  let c := { c.newLabel with funcEpilogueLabel := c.freshLabel }
  ((c.emitBytes [0x55, 0x89, 0xE5, 0x81, 0xEC]).emitDword 128).emitBytes [0x53, 0x56, 0x57]

/-- `cg_func_end` -/
def funcEnd : Codegen :=
  (c.label c.funcEpilogueLabel).emitBytes [0x5F, 0x5E, 0x5B, 0x89, 0xEC, 0x5D, 0xC3]

/-- `cg_call_symbol` -/
def callSymbol (fn : SymRef) : Codegen := ((c.emitByte 0xE8).addFixup (-3) fn).emitDword 0

/-- `cg_call_syscall` -/
def callSyscall (index : Nat) : Codegen :=
  (((c.emitBytes [0x89, 0xE3]).emitByte 0xB8).emitDword index).emitBytes [0xCD, 0x80]

/-- One exchange of `cg_reverse_stack`. -/
def swapStack (lo hi : Nat) : Codegen :=
  c.emitBytes [0x8B, 0x44, 0x24, UInt8.ofNat lo, 0x8B, 0x4C, 0x24, UInt8.ofNat hi,
    0x89, 0x4C, 0x24, UInt8.ofNat lo, 0x89, 0x44, 0x24, UInt8.ofNat hi]

/-- `cg_reverse_stack` -/
def reverseStack (n : Nat) : Codegen :=
  (List.range (n / 2)).foldl (fun c i => c.swapStack (i * 4) ((n - 1 - i) * 4)) c

/-- `cg_return` -/
def ret : Codegen := c.jump c.funcEpilogueLabel

/-! ## Strings and global data -/

/-- A byte of `strings`. -/
def pushString (b : UInt8) : Codegen :=
  if c.stringPos < cgStringMax then { c with strings := c.strings ++ [b] } else c

/-- `cg_add_string`; the offset it answers is `string_pos` before it. -/
def addString (s : List UInt8) : Codegen :=
  let c := (s.foldl pushString c).pushString 0
  if c.strFixups.length < cgStrFixupMax then
    { c with strFixups := c.strFixups ++ [c.codePos + 1] }
  else c

/-- `(offset + 3) & ~3` -/
def align4 (offset : Int) : Int := wrap32 (wrap32 (offset + 3) / 4 * 4)

/-- `cg_alloc_global`; the offset it answers is `global_data_offset` before it. -/
def allocGlobal (bytes : Int) : Codegen :=
  { c with globalDataOffset := align4 (wrap32 (c.globalDataOffset + bytes)) }

/-! ## Output -/

/-- `code_start` -/
abbrev codeStart : Nat := 5

/-- `string_start` -/
def stringStart : Nat := codeStart + c.codePos

/-- `data_start` -/
def dataStart : Nat := c.stringStart + c.stringPos

/-- What a fixup stores over the dword `old` at `co`: an address in the global data, or a
distance to the code of a function or to a label. -/
def fixed (syms : Symbols) (f : Fixup) (co : Nat) (old : Nat) : Int :=
  if f.labelId = -2 then cgLoadAddr + c.dataStart + old
  else if f.labelId = -3 then codeStart + (syms.deref f.sym).offset - (co + 4)
  else codeStart + c.labelPos f.labelId - (co + 4)

/-- The loop that resolves the fixups. -/
def resolveFixups (syms : Symbols) (out : Bytes) : Bytes :=
  c.fixups.foldl (fun out f =>
    let co := f.codeOffset + codeStart
    out.store co (le32 (c.fixed syms f co (out.word32 co)))) out

/-- The loop that patches the references to strings. -/
def resolveStrings (out : Bytes) : Bytes :=
  c.strFixups.foldl (fun out f =>
    let co := f + codeStart
    out.store co (le32 (cgLoadAddr + c.stringStart + out.word32 co))) out

/-- `total_size` -/
def totalSize : Int := c.dataStart + c.globalDataOffset

/-- `cg_output`: `output_buf`, from what it holds before. The length is `totalSize`. -/
def output (syms : Symbols) (buf : Bytes) : Bytes :=
  let main := syms.findGlobal ("main".toList.map chr)
  let mainOffset : Int := if main = .null then 0 else (syms.deref main).offset
  let out := (buf.store 0 [0xE9]).store 1 (le32 mainOffset)
  let out := c.resolveFixups syms (out.store codeStart c.code)
  let out := c.resolveStrings (out.store c.stringStart c.strings)
  out.fill c.dataStart c.globalDataOffset.toNat 0

end Codegen

/-! ## The calls of the code generator -/

/-- A call of a function of `codegen.c`. -/
inductive CgCall where
  | loadNum (val : Int)
  | loadGlobal (addr : Int)
  | loadLocal (offset : Int)
  | leaLocal (offset : Int)
  | storeGlobal (addr : Int)
  | storeLocal (offset : Int)
  | push
  | popIntoEcx
  | popToEax
  | addEsp (bytes : Int)
  | add | sub | mul | div | mod
  | bitand | bitor | bitxor
  | shl | shr
  | shlImm (bits : UInt8)
  | negate | logicalNot | bitwiseNot
  | cmp (op : Tok)
  | derefDword | derefByte | storeDerefDword | storeDerefByte
  | newLabel
  | label (id : Int)
  | jump (id : Int)
  | jumpZero (id : Int)
  | jumpNonzero (id : Int)
  | funcBegin (fn : SymRef)
  | funcEnd
  | callSymbol (fn : SymRef)
  | callSyscall (index : Nat)
  | reverseStack (n : Nat)
  | ret
  | addString (s : List UInt8)
  | allocGlobal (bytes : Int)
  deriving DecidableEq, Repr

/-- What a call does to the statics of `codegen.c`. -/
def CgCall.run : CgCall → Codegen → Codegen
  | .loadNum val, c => c.loadNum val
  | .loadGlobal addr, c => c.loadGlobal addr
  | .loadLocal offset, c => c.loadLocal offset
  | .leaLocal offset, c => c.leaLocal offset
  | .storeGlobal addr, c => c.storeGlobal addr
  | .storeLocal offset, c => c.storeLocal offset
  | .push, c => c.push
  | .popIntoEcx, c => c.popIntoEcx
  | .popToEax, c => c.popToEax
  | .addEsp bytes, c => c.addEsp bytes
  | .add, c => c.add
  | .sub, c => c.sub
  | .mul, c => c.mul
  | .div, c => c.div
  | .mod, c => c.mod
  | .bitand, c => c.bitand
  | .bitor, c => c.bitor
  | .bitxor, c => c.bitxor
  | .shl, c => c.shl
  | .shr, c => c.shr
  | .shlImm bits, c => c.shlImm bits
  | .negate, c => c.negate
  | .logicalNot, c => c.logicalNot
  | .bitwiseNot, c => c.bitwiseNot
  | .cmp op, c => c.cmp op
  | .derefDword, c => c.derefDword
  | .derefByte, c => c.derefByte
  | .storeDerefDword, c => c.storeDerefDword
  | .storeDerefByte, c => c.storeDerefByte
  | .newLabel, c => c.newLabel
  | .label id, c => c.label id
  | .jump id, c => c.jump id
  | .jumpZero id, c => c.jumpZero id
  | .jumpNonzero id, c => c.jumpNonzero id
  | .funcBegin _, c => c.funcBegin
  | .funcEnd, c => c.funcEnd
  | .callSymbol fn, c => c.callSymbol fn
  | .callSyscall index, c => c.callSyscall index
  | .reverseStack n, c => c.reverseStack n
  | .ret, c => c.ret
  | .addString s, c => c.addString s
  | .allocGlobal bytes, c => c.allocGlobal bytes

/-- A sequence of calls. -/
def runCalls (calls : List CgCall) (c : Codegen) : Codegen := calls.foldl (fun c i => i.run c) c

end RainbowOs.Cc
