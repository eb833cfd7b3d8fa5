import RainbowOs.Cc.Codegen
import RainbowOs.Lib.Reloc
import RainbowOs.Lib.X86
import Mathlib.Algebra.GroupWithZero.Nat

/-!
# What each call of the code generator emits

The bytes a call appends to `code`, the fixup it records and the labels it
places. A call that fits leaves exactly these; `Fits` says that all calls of
a list do. `CgCall.asm` is what the bytes mean once they are linked: the
instructions of the processor, for a linkage that says where labels,
functions, strings and global data are.
-/

namespace RainbowOs.Cc

open RainbowOs.Lib

/-! ## Bytes -/

/-- Bytes appended to the code, as far as there is room. -/
def appendCode (code bs : List UInt8) : List UInt8 := code ++ bs.take (cgCodeMax - code.length)

theorem appendCode_of_le {code bs : List UInt8} (h : code.length + bs.length ≤ cgCodeMax) :
    appendCode code bs = code ++ bs := by
  rw [appendCode, List.take_of_length_le (by omega)]

@[simp] theorem appendCode_nil (code : List UInt8) : appendCode code [] = code := by
  simp [appendCode]

theorem appendCode_append (code a b : List UInt8) :
    appendCode (appendCode code a) b = appendCode code (a ++ b) := by
  simp only [appendCode, List.append_assoc, List.length_append, List.length_take, List.take_append]
  congr 3
  omega

/-- Bytes appended to the strings, as far as there is room. -/
def appendString (strings bs : List UInt8) : List UInt8 :=
  strings ++ bs.take (cgStringMax - strings.length)

theorem appendString_append (strings a b : List UInt8) :
    appendString (appendString strings a) b = appendString strings (a ++ b) := by
  simp only [appendString, List.append_assoc, List.length_append, List.length_take,
    List.take_append]
  congr 3
  omega

/-- A fixup appended to the table, if there is room. -/
def appendFixup (fs : List Fixup) (f : Fixup) : List Fixup :=
  if fs.length < cgFixupMax then fs ++ [f] else fs

/-- The bytes of one exchange of `cg_reverse_stack`. -/
def swapBytes (lo hi : Nat) : List UInt8 :=
  [0x8B, 0x44, 0x24, UInt8.ofNat lo, 0x8B, 0x4C, 0x24, UInt8.ofNat hi,
    0x89, 0x4C, 0x24, UInt8.ofNat lo, 0x89, 0x44, 0x24, UInt8.ofNat hi]

namespace Codegen

variable (c : Codegen)

theorem emitByte_eq (b : UInt8) : c.emitByte b = { c with code := appendCode c.code [b] } := by
  unfold emitByte appendCode codePos
  split
  · next h => rw [List.take_of_length_le (by simp only [List.length_singleton]; omega)]
  · next h => rw [Nat.sub_eq_zero_of_le (by omega), List.take_zero, List.append_nil]

theorem emitBytes_eq (bs : List UInt8) :
    c.emitBytes bs = { c with code := appendCode c.code bs } := by
  induction bs generalizing c with
  | nil => simp [emitBytes]
  | cons b bs ih =>
    have hstep : c.emitBytes (b :: bs) = (c.emitByte b).emitBytes bs := rfl
    rw [hstep, ih, emitByte_eq, appendCode_append]
    rfl

theorem emitDword_eq (d : Int) :
    c.emitDword d = { c with code := appendCode c.code (le32 d) } := c.emitBytes_eq _

theorem foldl_emitBytes (f : Nat → List UInt8) (l : List Nat) :
    l.foldl (fun c i => c.emitBytes (f i)) c = c.emitBytes (l.flatMap f) := by
  induction l generalizing c with
  | nil => rfl
  | cons i l ih =>
    rw [List.foldl_cons, ih, List.flatMap_cons, emitBytes_eq, emitBytes_eq, emitBytes_eq,
      appendCode_append]

theorem reverseStack_eq (n : Nat) : c.reverseStack n =
    c.emitBytes ((List.range (n / 2)).flatMap fun i => swapBytes (i * 4) ((n - 1 - i) * 4)) :=
  c.foldl_emitBytes (fun i => swapBytes (i * 4) ((n - 1 - i) * 4)) _

theorem addFixup_eq (labelId : Int) (sym : SymRef) : c.addFixup labelId sym =
    { c with fixups := appendFixup c.fixups ⟨c.code.length, labelId, sym⟩ } := by
  unfold addFixup appendFixup codePos
  split <;> rfl

theorem pushString_eq (b : UInt8) :
    c.pushString b = { c with strings := appendString c.strings [b] } := by
  unfold pushString appendString stringPos
  split
  · next h => rw [List.take_of_length_le (by simp only [List.length_singleton]; omega)]
  · next h => rw [Nat.sub_eq_zero_of_le (by omega), List.take_zero, List.append_nil]

theorem foldl_pushString (s : List UInt8) :
    s.foldl pushString c = { c with strings := appendString c.strings s } := by
  induction s generalizing c with
  | nil => simp [appendString]
  | cons b s ih =>
    rw [List.foldl_cons, ih, pushString_eq, appendString_append]
    rfl

theorem addString_eq (s : List UInt8) : c.addString s =
    { c with
      strings := appendString c.strings (s ++ [0])
      strFixups := if c.strFixups.length < cgStrFixupMax then c.strFixups ++ [c.code.length + 1]
        else c.strFixups } := by
  unfold addString
  simp only [foldl_pushString, pushString_eq, appendString_append, codePos]
  split <;> rfl

theorem newLabel_eq : c.newLabel =
    { c with
      numLabels := if c.numLabels ≥ cgLabelMax then c.numLabels else c.numLabels + 1
      labelPos := if c.numLabels ≥ cgLabelMax then c.labelPos
        else Function.update c.labelPos c.numLabels (-1) } := by
  unfold newLabel
  split <;> rfl

theorem label_eq (id : Int) : c.label id =
    { c with
      labelPos := if 0 ≤ id ∧ id < cgLabelMax then Function.update c.labelPos id c.code.length
        else c.labelPos } := by
  unfold label codePos
  split <;> rfl

theorem freshLabel_nonneg : 0 ≤ c.freshLabel := by
  unfold freshLabel
  split <;> omega

end Codegen

/-- The bytes a call appends, before they are linked. -/
def CgCall.raw : CgCall → List UInt8
  | .loadNum val => 0xB8 :: le32 val
  | .loadGlobal addr => 0xA1 :: le32 addr
  | .loadLocal offset => 0x8B :: 0x85 :: le32 offset
  | .leaLocal offset => 0x8D :: 0x85 :: le32 offset
  | .storeGlobal addr => 0xA3 :: le32 addr
  | .storeLocal offset => 0x89 :: 0x85 :: le32 offset
  | .push => [0x50]
  | .popIntoEcx => [0x59]
  | .popToEax => [0x58]
  | .addEsp bytes => 0x81 :: 0xC4 :: le32 bytes
  | .add => [0x01, 0xC8]
  | .sub => [0x29, 0xC1, 0x89, 0xC8]
  | .mul => [0x0F, 0xAF, 0xC1]
  | .div => [0x91, 0x99, 0xF7, 0xF9]
  | .mod => [0x91, 0x99, 0xF7, 0xF9, 0x89, 0xD0]
  | .bitand => [0x21, 0xC8]
  | .bitor => [0x09, 0xC8]
  | .bitxor => [0x31, 0xC8]
  | .shl => [0x91, 0xD3, 0xE0]
  | .shr => [0x91, 0xD3, 0xE8]
  | .shlImm bits => [0xC1, 0xE0, bits]
  | .negate => [0xF7, 0xD8]
  | .logicalNot => [0x85, 0xC0, 0x0F, 0x94, 0xC0, 0x0F, 0xB6, 0xC0]
  | .bitwiseNot => [0xF7, 0xD0]
  | .cmp op => [0x39, 0xC1, 0x0F, Codegen.setcc op, 0xC0, 0x0F, 0xB6, 0xC0]
  | .derefDword => [0x8B, 0x00]
  | .derefByte => [0x0F, 0xB6, 0x00]
  | .storeDerefDword => [0x89, 0x01]
  | .storeDerefByte => [0x88, 0x01]
  | .jump _ | .ret => 0xE9 :: le32 0
  | .jumpZero _ => 0x85 :: 0xC0 :: 0x0F :: 0x84 :: le32 0
  | .jumpNonzero _ => 0x85 :: 0xC0 :: 0x0F :: 0x85 :: le32 0
  | .funcBegin _ => [0x55, 0x89, 0xE5, 0x81, 0xEC] ++ le32 128 ++ [0x53, 0x56, 0x57]
  | .funcEnd => [0x5F, 0x5E, 0x5B, 0x89, 0xEC, 0x5D, 0xC3]
  | .callSymbol _ => 0xE8 :: le32 0
  | .callSyscall index => [0x89, 0xE3, 0xB8] ++ le32 index ++ [0xCD, 0x80]
  | .reverseStack n => (List.range (n / 2)).flatMap fun i => swapBytes (i * 4) ((n - 1 - i) * 4)
  | .newLabel | .label _ | .addString _ | .allocGlobal _ => []

/-- The fixup of a call: how far into its bytes, and what it refers to. -/
def CgCall.fixup (epilogue : Int) : CgCall → Option (Nat × Int × SymRef)
  | .loadGlobal _ | .storeGlobal _ => some (1, -2, .null)
  | .jump id => some (1, id, .null)
  | .ret => some (1, epilogue, .null)
  | .jumpZero id | .jumpNonzero id => some (4, id, .null)
  | .callSymbol fn => some (1, -3, fn)
  | _ => none

theorem CgCall.fixup_le {call : CgCall} {e : Int} {f : Nat × Int × SymRef}
    (h : call.fixup e = some f) : f.1 + 4 ≤ call.raw.length := by
  cases call with
  | loadGlobal | storeGlobal | jump | jumpZero | jumpNonzero | ret | callSymbol =>
    cases h
    exact Nat.le_refl _
  | _ => cases h

/-- The table of fixups after a call. -/
def CgCall.fixups (call : CgCall) (c : Codegen) : List Fixup :=
  match call.fixup c.funcEpilogueLabel with
  | none => c.fixups
  | some (off, id, sym) =>
    appendFixup c.fixups ⟨(appendCode c.code (call.raw.take off)).length, id, sym⟩

/-- The positions of the labels after a call. -/
def CgCall.labels (c : Codegen) : CgCall → Int → Int
  | .newLabel | .funcBegin _ =>
    if c.numLabels ≥ cgLabelMax then c.labelPos else Function.update c.labelPos c.numLabels (-1)
  | .label id =>
    if 0 ≤ id ∧ id < cgLabelMax then Function.update c.labelPos id c.code.length else c.labelPos
  | .funcEnd =>
    if 0 ≤ c.funcEpilogueLabel ∧ c.funcEpilogueLabel < cgLabelMax then
      Function.update c.labelPos c.funcEpilogueLabel c.code.length
    else c.labelPos
  | _ => c.labelPos

/-- The label a call places. -/
def CgCall.places (c : Codegen) : CgCall → Option Int
  | .label id => some id
  | .funcEnd => some c.funcEpilogueLabel
  | _ => none

/-- How many labels a call makes. -/
def CgCall.fresh : CgCall → Nat
  | .newLabel | .funcBegin _ => 1
  | _ => 0

/-- The functions of `codegen.c` as updates of its statics. -/
theorem CgCall.run_eq (call : CgCall) (c : Codegen) : call.run c =
    { code := appendCode c.code call.raw
      strings := match call with
        | .addString s => appendString c.strings (s ++ [0])
        | _ => c.strings
      labelPos := call.labels c
      numLabels :=
        if c.numLabels ≥ cgLabelMax then c.numLabels else c.numLabels + call.fresh
      fixups := call.fixups c
      strFixups := match call with
        | .addString _ =>
          if c.strFixups.length < cgStrFixupMax then c.strFixups ++ [c.code.length + 1]
          else c.strFixups
        | _ => c.strFixups
      globalDataOffset := match call with
        | .allocGlobal bytes => Codegen.align4 (wrap32 (c.globalDataOffset + bytes))
        | _ => c.globalDataOffset
      funcEpilogueLabel := match call with
        | .funcBegin _ => c.freshLabel
        | _ => c.funcEpilogueLabel } := by
  cases call with
  | reverseStack n =>
    show c.reverseStack n = _
    rw [c.reverseStack_eq, c.emitBytes_eq]
    simp only [fresh, labels, fixups, fixup, Nat.add_zero, ite_self]
    rfl
  | _ =>
    simp only [run, raw, labels, fixups, fixup, fresh, Codegen.loadNum, Codegen.loadGlobal,
      Codegen.loadLocal, Codegen.leaLocal, Codegen.storeGlobal, Codegen.storeLocal, Codegen.push,
      Codegen.popIntoEcx, Codegen.popToEax, Codegen.addEsp, Codegen.add, Codegen.sub, Codegen.mul,
      Codegen.div, Codegen.mod, Codegen.bitand, Codegen.bitor, Codegen.bitxor, Codegen.shl,
      Codegen.shr, Codegen.shlImm, Codegen.negate, Codegen.logicalNot, Codegen.bitwiseNot,
      Codegen.cmp, Codegen.derefDword, Codegen.derefByte, Codegen.storeDerefDword,
      Codegen.storeDerefByte, Codegen.jump, Codegen.jumpZero, Codegen.jumpNonzero,
      Codegen.emitRelJump, Codegen.emitRelJump2, Codegen.callSymbol, Codegen.callSyscall,
      Codegen.ret, Codegen.emitByte_eq, Codegen.emitBytes_eq, Codegen.emitDword_eq,
      Codegen.addFixup_eq, Codegen.funcBegin, Codegen.funcEnd, Codegen.newLabel_eq,
      Codegen.label_eq, Codegen.addString_eq, Codegen.allocGlobal, appendCode_append,
      List.cons_append, List.nil_append, appendCode_nil, List.take_succ_cons, List.take_zero,
      Nat.add_zero, ite_self]

theorem CgCall.run_code (call : CgCall) (c : Codegen) :
    (call.run c).code = appendCode c.code call.raw := by rw [run_eq]

theorem CgCall.run_fixups (call : CgCall) (c : Codegen) :
    (call.run c).fixups = call.fixups c := by rw [run_eq]

theorem CgCall.run_labelPos (call : CgCall) (c : Codegen) :
    (call.run c).labelPos = call.labels c := by rw [run_eq]

/-! ## Calls that fit -/

/-- The labels a call names. -/
def CgCall.labelIds : CgCall → List Int
  | .label id | .jump id | .jumpZero id | .jumpNonzero id => [id]
  | _ => []

/-- The bytes a call stores with the strings. -/
def CgCall.stringBytes : CgCall → Nat
  | .addString s => s.length + 1
  | _ => 0

/-- How many references to strings a call records. -/
def CgCall.stringRefs : CgCall → Nat
  | .addString _ => 1
  | _ => 0

/-- The bytes a call reserves in the data section. -/
def CgCall.dataBytes : CgCall → Int
  | .allocGlobal bytes => bytes
  | _ => 0

/-- There is room for all that a call stores. -/
structure CgCall.FitsIn (c : Codegen) (call : CgCall) : Prop where
  code : c.code.length + call.raw.length ≤ cgCodeMax
  fixups : c.fixups.length + (call.fixup c.funcEpilogueLabel).toList.length ≤ cgFixupMax
  labels : c.numLabels + call.fresh ≤ cgLabelMax
  labelIds : ∀ id ∈ call.labelIds, 0 ≤ id ∧ id < cgLabelMax
  strings : c.strings.length + call.stringBytes ≤ cgStringMax
  stringRefs : c.strFixups.length + call.stringRefs ≤ cgStrFixupMax
  data : 0 ≤ call.dataBytes ∧ c.globalDataOffset + call.dataBytes ≤ cgDataMax

instance (c : Codegen) (call : CgCall) : Decidable (call.FitsIn c) :=
  decidable_of_iff (c.code.length + call.raw.length ≤ cgCodeMax ∧
    c.fixups.length + (call.fixup c.funcEpilogueLabel).toList.length ≤ cgFixupMax ∧
    c.numLabels + call.fresh ≤ cgLabelMax ∧ (∀ id ∈ call.labelIds, 0 ≤ id ∧ id < cgLabelMax) ∧
    c.strings.length + call.stringBytes ≤ cgStringMax ∧
    c.strFixups.length + call.stringRefs ≤ cgStrFixupMax ∧
    0 ≤ call.dataBytes ∧ c.globalDataOffset + call.dataBytes ≤ cgDataMax)
    ⟨fun ⟨h₁, h₂, h₃, h₄, h₅, h₆, h₇⟩ => ⟨h₁, h₂, h₃, h₄, h₅, h₆, h₇⟩,
      fun ⟨h₁, h₂, h₃, h₄, h₅, h₆, h₇⟩ => ⟨h₁, h₂, h₃, h₄, h₅, h₆, h₇⟩⟩

/-- There is room for the code of a call and for what is to be patched in it. -/
structure CgCall.EmitsIn (c : Codegen) (call : CgCall) : Prop where
  code : c.code.length + call.raw.length ≤ cgCodeMax
  fixups : c.fixups.length + (call.fixup c.funcEpilogueLabel).toList.length ≤ cgFixupMax
  labelIds : ∀ id ∈ call.labelIds, 0 ≤ id
  stringRefs : c.strFixups.length + call.stringRefs ≤ cgStrFixupMax

/-- There is room for the code of a sequence of calls. -/
def Emits (c : Codegen) : List CgCall → Prop
  | [] => True
  | call :: calls => call.EmitsIn c ∧ Emits (call.run c) calls

/-- There is room for all that a sequence of calls stores. -/
def Fits (c : Codegen) : List CgCall → Prop
  | [] => True
  | call :: calls => call.FitsIn c ∧ Fits (call.run c) calls

instance Fits.decide : (c : Codegen) → (calls : List CgCall) → Decidable (Fits c calls)
  | _, [] => inferInstanceAs (Decidable True)
  | c, call :: calls => @instDecidableAnd _ _ _ (Fits.decide (call.run c) calls)

@[simp] theorem runCalls_nil (c : Codegen) : runCalls [] c = c := rfl

@[simp] theorem runCalls_cons (call : CgCall) (calls : List CgCall) (c : Codegen) :
    runCalls (call :: calls) c = runCalls calls (call.run c) := rfl

theorem runCalls_append (l l' : List CgCall) (c : Codegen) :
    runCalls (l ++ l') c = runCalls l' (runCalls l c) := List.foldl_append

/-- The labels that a sequence of calls makes. -/
theorem runCalls_numLabels {calls : List CgCall} {c : Codegen}
    (h : c.numLabels + (calls.map CgCall.fresh).sum ≤ cgLabelMax) :
    (runCalls calls c).numLabels = c.numLabels + (calls.map CgCall.fresh).sum := by
  induction calls generalizing c with
  | nil => rfl
  | cons call calls ih =>
    rw [List.map_cons, List.sum_cons] at h ⊢
    have hone : (call.run c).numLabels = c.numLabels + call.fresh := by
      rw [call.run_eq]
      simp only
      split
      · next hfull => omega
      · rfl
    rw [runCalls_cons, ih (by omega), hone, Nat.add_assoc]

theorem fits_append {l l' : List CgCall} {c : Codegen} :
    Fits c (l ++ l') ↔ Fits c l ∧ Fits (runCalls l c) l' := by
  induction l generalizing c with
  | nil => simp [Fits]
  | cons call l ih => simp only [List.cons_append, Fits, runCalls_cons, ih, and_assoc]

namespace CgCall.EmitsIn

variable {c : Codegen} {call : CgCall} (h : call.EmitsIn c)

include h

theorem run_code : (call.run c).code = c.code ++ call.raw :=
  (call.run_code c).trans (appendCode_of_le h.code)

/-- The fixup of a call, at the place of its dword. -/
theorem run_fixups : (call.run c).fixups = c.fixups ++
    ((call.fixup c.funcEpilogueLabel).map fun f => ⟨c.code.length + f.1, f.2.1, f.2.2⟩).toList := by
  have hroom := h.fixups
  have hcode := h.code
  rw [call.run_fixups, CgCall.fixups]
  cases hfix : call.fixup c.funcEpilogueLabel with
  | none => exact (List.append_nil _).symm
  | some f =>
    have hoff := CgCall.fixup_le hfix
    have hpre : (call.raw.take f.1).length = f.1 := List.length_take_of_le (by omega)
    rw [hfix, Option.toList_some, List.length_singleton] at hroom
    simp only [Option.map_some, Option.toList_some]
    rw [appendFixup, if_pos (by omega), appendCode_of_le (by omega), List.length_append, hpre]

theorem run_strFixups : (call.run c).strFixups =
    c.strFixups ++ List.replicate call.stringRefs (c.code.length + 1) := by
  have hroom := h.stringRefs
  rw [call.run_eq]
  cases call with
  | addString s => exact if_pos (Nat.lt_of_succ_le hroom)
  | _ => exact (List.append_nil _).symm

end CgCall.EmitsIn

theorem Emits.length_code {c : Codegen} {calls : List CgCall} (h : Emits c calls)
    (hc : c.code.length ≤ cgCodeMax) : (runCalls calls c).code.length ≤ cgCodeMax := by
  induction calls generalizing c with
  | nil => exact hc
  | cons call calls ih =>
    refine ih h.2 ?_
    rw [h.1.run_code, List.length_append]
    exact h.1.code

namespace CgCall.FitsIn

variable {c : Codegen} {call : CgCall} (h : call.FitsIn c)

include h

theorem emits : call.EmitsIn c :=
  ⟨h.code, h.fixups, fun id hid => (h.labelIds id hid).1, h.stringRefs⟩

theorem run_code : (call.run c).code = c.code ++ call.raw := h.emits.run_code

theorem run_numLabels : (call.run c).numLabels = c.numLabels + call.fresh := by
  have hroom := h.labels
  rw [call.run_eq]
  simp only
  split
  · next hfull => omega
  · rfl

end CgCall.FitsIn

theorem Fits.emits {c : Codegen} {calls : List CgCall} (h : Fits c calls) : Emits c calls := by
  induction calls generalizing c with
  | nil => trivial
  | cons call calls ih => exact ⟨h.1.emits, ih h.2⟩

end RainbowOs.Cc
