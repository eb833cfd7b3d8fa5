import RainbowOs.Cc.Asm

/-!
# The image: `cg_output` links the code

A linkage says where labels and functions are in the code, and at which
addresses strings and global data are. `CgCall.asm` gives the instructions
of a call under a linkage, and `slice_output` says that the code of the
image is the instructions of all calls, one after the other, for the linkage
that `cg_output` has: each of the two loops of `cg_output` fills the holes of
the pieces it is about and leaves all else.
-/

namespace RainbowOs.Cc

open RainbowOs.Lib

/-- Where the image has what the code refers to: positions in the code for labels and
functions, addresses for strings and global data. -/
structure Linkage where
  label : Int → Int
  func : SymRef → Int
  strings : Int
  data : Int

/-- An immediate operand. -/
abbrev imm (x : Int) : X86.Word := BitVec.ofInt 32 x

/-- The condition of the `setcc` of `cg_cmp`. -/
def condOf : Tok → X86.Cond
  | .eq => .e
  | .ne => .ne
  | .lt => .l
  | .gt => .g
  | .le => .le
  | .ge => .ge
  | _ => .e

/-- A distance in the code, from the end of `len` bytes at the place the code has reached. -/
def Codegen.rel (c : Codegen) (target : Int) (len : Nat) : X86.Word :=
  imm (target - (c.code.length + len))

/-- The instructions of a call; `str` says that it loads the address of a string. -/
def CgCall.asm (env : Linkage) (str : Bool) (c : Codegen) : CgCall → List X86.Instr
  | .loadNum val => [.movImm .eax (imm (if str then env.strings + val else val))]
  | .loadGlobal addr => [.load .eax (.abs (imm (env.data + addr)))]
  | .loadLocal offset => [.load .eax (.disp .ebp (imm offset))]
  | .leaLocal offset => [.lea .eax .ebp (imm offset)]
  | .storeGlobal addr => [.store (.abs (imm (env.data + addr))) .eax]
  | .storeLocal offset => [.store (.disp .ebp (imm offset)) .eax]
  | .push => [.push .eax]
  | .popIntoEcx => [.pop .ecx]
  | .popToEax => [.pop .eax]
  | .addEsp bytes => [.aluImm .add .esp (imm bytes)]
  | .add => [.alu .add .eax .ecx]
  | .sub => [.alu .sub .ecx .eax, .mov .eax .ecx]
  | .mul => [.imul .eax .ecx]
  | .div => [.xchg .ecx, .cdq, .idiv .ecx]
  | .mod => [.xchg .ecx, .cdq, .idiv .ecx, .mov .eax .edx]
  | .bitand => [.alu .and .eax .ecx]
  | .bitor => [.alu .or .eax .ecx]
  | .bitxor => [.alu .xor .eax .ecx]
  | .shl => [.xchg .ecx, .shl .eax]
  | .shr => [.xchg .ecx, .shr .eax]
  | .shlImm bits => [.shlImm .eax bits]
  | .negate => [.neg .eax]
  | .logicalNot => [.test .eax .eax, .setcc .e, .movzx]
  | .bitwiseNot => [.not .eax]
  | .cmp op => [.alu .cmp .ecx .eax, .setcc (condOf op), .movzx]
  | .derefDword => [.load .eax (.ind .eax)]
  | .derefByte => [.loadByte]
  | .storeDerefDword => [.store (.ind .ecx) .eax]
  | .storeDerefByte => [.storeByte]
  | .jump id => [.jmp (c.rel (env.label id) 5)]
  | .ret => [.jmp (c.rel (env.label c.funcEpilogueLabel) 5)]
  | .jumpZero id => [.test .eax .eax, .jcc .e (c.rel (env.label id) 8)]
  | .jumpNonzero id => [.test .eax .eax, .jcc .ne (c.rel (env.label id) 8)]
  | .funcBegin _ =>
    [.push .ebp, .mov .ebp .esp, .aluImm .sub .esp 128, .push .ebx, .push .esi, .push .edi]
  | .funcEnd => [.pop .edi, .pop .esi, .pop .ebx, .mov .esp .ebp, .pop .ebp, .ret]
  | .callSymbol fn => [.call (c.rel (env.func fn) 5)]
  | .callSyscall index => [.mov .ebx .esp, .movImm .eax (imm index), .int 0x80]
  | .reverseStack n => (List.range (n / 2)).flatMap fun i =>
      let lo := UInt8.ofNat (i * 4)
      let hi := UInt8.ofNat ((n - 1 - i) * 4)
      [.load .eax (.stack lo), .load .ecx (.stack hi), .store (.stack lo) .ecx,
        .store (.stack hi) .eax]
  | .newLabel | .label _ | .addString _ | .allocGlobal _ => []

/-- What a fixup stores over the dword `old`. -/
def Linkage.value (env : Linkage) (f : Fixup) (old : Nat) : Int :=
  if f.labelId = -2 then env.data + old
  else if f.labelId = -3 then env.func f.sym - (f.codeOffset + 4)
  else env.label f.labelId - (f.codeOffset + 4)

/-- The bytes of a call with the fixup it records. -/
def CgCall.piece (env : Linkage) (c : Codegen) (call : CgCall) : Piece where
  bytes := call.raw
  hole := (call.fixup c.funcEpilogueLabel).map fun f =>
    ⟨f.1, fun old => (env.value ⟨c.code.length + f.1, f.2.1, f.2.2⟩ old % 4294967296).toNat⟩

/-- The bytes of a call after the fixups, with the reference to a string that it makes. -/
def CgCall.stringPiece (env : Linkage) (str : Bool) (c : Codegen) (call : CgCall) : Piece where
  bytes := (call.piece env c).linked
  hole := if str then some ⟨1, fun old => ((env.strings + old) % 4294967296).toNat⟩ else none

/-! ## Instructions and bytes -/

theorem bytes32_imm (x : Int) : X86.bytes32 (imm x) = le32 x := by
  rw [X86.bytes32, BitVec.toNat_ofInt]
  rfl

theorem le32_congr {x y : Int} (h : x % 4294967296 = y % 4294967296) : le32 x = le32 y := by
  rw [le32, le32, h]

theorem dwordAt_le32 (d : Int) (post : List UInt8) :
    dwordAt (le32 d ++ post) 0 = (d % 4294967296).toNat := by
  have hlt : d % 4294967296 < 4294967296 := Int.emod_lt_of_pos d (by decide)
  simp only [dwordAt, Bytes.word32, Bytes.word16, le32, Bytes.le32, Bytes.le16, List.cons_append,
    List.nil_append, List.getD_cons_zero, List.getD_cons_succ, UInt8.toNat_ofNat']
  omega

theorem dwordAt_append (pre bs : List UInt8) : dwordAt (pre ++ bs) pre.length = dwordAt bs 0 := by
  have hbyte : ∀ k, (pre ++ bs).getD (pre.length + k) 0 = bs.getD k 0 := by
    intro k
    rw [List.getD_append_right _ _ _ _ (Nat.le_add_right _ _), Nat.add_sub_cancel_left]
  have hfirst : (pre ++ bs).getD pre.length 0 = bs.getD 0 0 := hbyte 0
  simp only [dwordAt, Bytes.word32, Bytes.word16, Nat.add_assoc, Nat.zero_add, hbyte, hfirst]

/-- A hole at the end of a piece, filled. -/
theorem linked_tail (pre : List UInt8) (d : Int) (v : Nat → Int) :
    (Piece.mk (pre ++ le32 d)
      (some ⟨pre.length, fun old => (v old % 4294967296).toNat⟩)).linked =
      pre ++ le32 (v (d % 4294967296).toNat) := by
  have hold : dwordAt (pre ++ le32 d) pre.length = (d % 4294967296).toNat := by
    rw [dwordAt_append, ← dwordAt_le32 d [], List.append_nil]
  have hrest : (pre ++ le32 d).drop (pre.length + 4) = [] :=
    List.drop_eq_nil_of_le (by rw [List.length_append]; exact Nat.le_refl _)
  simp only [Piece.linked, hold, hrest, List.take_left', List.append_nil]
  rfl

/-- An address in a section, from the offset that the hole held. -/
theorem le32_add_hole (base d : Int) :
    le32 (base + ((d % 4294967296).toNat : Int)) = le32 (base + d) := by
  apply le32_congr
  rw [Int.toNat_of_nonneg (Int.emod_nonneg d (by decide)), Int.add_emod_emod]

namespace Linkage

variable (env : Linkage)

theorem value_data (off : Nat) (sym : SymRef) (old : Nat) :
    env.value ⟨off, -2, sym⟩ old = env.data + old := rfl

theorem value_func (off : Nat) (sym : SymRef) (old : Nat) :
    env.value ⟨off, -3, sym⟩ old = env.func sym - (off + 4) := rfl

theorem value_label (off : Nat) {id : Int} (hid : 0 ≤ id) (sym : SymRef) (old : Nat) :
    env.value ⟨off, id, sym⟩ old = env.label id - (off + 4) := by
  rw [value, if_neg (by show id ≠ -2; omega), if_neg (by show id ≠ -3; omega)]

end Linkage

/-- A jump with its hole filled. -/
theorem jump_linked (env : Linkage) (c : Codegen) (pre : List UInt8) {id : Int} (hid : 0 ≤ id) :
    (Piece.mk (pre ++ le32 0) (some ⟨pre.length, fun old =>
      (env.value ⟨c.code.length + pre.length, id, .null⟩ old % 4294967296).toNat⟩)).linked =
      pre ++ X86.bytes32 (c.rel (env.label id) (pre.length + 4)) := by
  rw [linked_tail pre 0 fun old => env.value ⟨c.code.length + pre.length, id, .null⟩ old,
    env.value_label _ hid, Codegen.rel, bytes32_imm, Int.natCast_add, Int.natCast_add,
    Int.add_assoc]
  rfl

/-- The bytes of a call, once the fixups are done, are its instructions. -/
theorem CgCall.encode_asm (env : Linkage) (c : Codegen) (call : CgCall)
    (hids : ∀ id ∈ call.labelIds, 0 ≤ id) (he : call = .ret → 0 ≤ c.funcEpilogueLabel) :
    (call.asm env false c).flatMap X86.Instr.encode = (call.piece env c).linked := by
  cases call with
  | loadGlobal addr =>
    refine Eq.trans ?_ (linked_tail [0xA1] addr _).symm
    rw [env.value_data, le32_add_hole, ← bytes32_imm]
    exact List.append_nil _
  | storeGlobal addr =>
    refine Eq.trans ?_ (linked_tail [0xA3] addr _).symm
    rw [env.value_data, le32_add_hole, ← bytes32_imm]
    exact List.append_nil _
  | callSymbol fn =>
    refine Eq.trans ?_ (linked_tail [0xE8] 0 _).symm
    rw [env.value_func, ← bytes32_imm, Int.natCast_add, Int.add_assoc]
    exact List.append_nil _
  | jump id =>
    exact (List.append_nil _).trans (jump_linked env c [0xE9] (hids id List.mem_cons_self)).symm
  | ret => exact (List.append_nil _).trans (jump_linked env c [0xE9] (he rfl)).symm
  | jumpZero id =>
    refine Eq.trans ?_ (jump_linked env c [0x85, 0xC0, 0x0F, 0x84] (hids id List.mem_cons_self)).symm
    exact congrArg ([0x85, 0xC0] ++ ·) (List.append_nil _)
  | jumpNonzero id =>
    refine Eq.trans ?_ (jump_linked env c [0x85, 0xC0, 0x0F, 0x85] (hids id List.mem_cons_self)).symm
    exact congrArg ([0x85, 0xC0] ++ ·) (List.append_nil _)
  | reverseStack n =>
    simp only [asm, piece, Piece.linked, fixup, raw, Option.map_none, List.flatMap_assoc]
    rfl
  | callSyscall index =>
    refine congrArg (fun b => [0x89, 0xE3, 0xB8] ++ b ++ [0xCD, 0x80]) (bytes32_imm index)
  | cmp op => cases op <;> rfl
  | funcBegin fn => rfl
  | _ =>
    simp [asm, piece, Piece.linked, fixup, X86.Instr.encode, X86.Operand.encode, raw, bytes32_imm,
      X86.Reg.code, X86.modrm, X86.Alu.code, X86.Cond.code]

/-- A call that loads the address of a string, once both loops are done. -/
theorem CgCall.encode_asm_string (env : Linkage) (str : Bool) (c : Codegen) (call : CgCall)
    (hids : ∀ id ∈ call.labelIds, 0 ≤ id) (he : call = .ret → 0 ≤ c.funcEpilogueLabel)
    (hstr : str → ∃ val, call = .loadNum val) :
    (call.asm env str c).flatMap X86.Instr.encode = (call.stringPiece env str c).linked := by
  cases str with
  | false => exact call.encode_asm env c hids he
  | true =>
    obtain ⟨val, rfl⟩ := hstr rfl
    refine Eq.trans ?_ (linked_tail [0xB8] val fun old => env.strings + old).symm
    rw [le32_add_hole, ← bytes32_imm]
    exact List.append_nil _

/-- The instructions of every call have an encoding. -/
theorem CgCall.plain_asm (env : Linkage) (str : Bool) (c : Codegen) (call : CgCall) :
    ∀ i ∈ call.asm env str c, i.Plain := by
  cases call with
  | reverseStack n =>
    intro i hi
    obtain ⟨k, _, hk⟩ := List.mem_flatMap.mp hi
    simp only [List.mem_cons, List.not_mem_nil, or_false] at hk
    rcases hk with rfl | rfl | rfl | rfl <;> rfl
  | _ => simp [asm, X86.Instr.Plain, X86.Operand.Plain]

/-! ## The two passes -/

def CgCall.isAddString : CgCall → Bool
  | .addString _ => true
  | _ => false

/-- Each string is loaded by the call after the one that adds it; `str` says that the call
before the first one added a string. -/
def StringsLoaded (str : Bool) : List CgCall → Prop
  | [] => str = false
  | call :: calls => (str → ∃ val, call = .loadNum val) ∧ StringsLoaded call.isAddString calls

/-- A function has begun wherever one returns. -/
def RetsIn (c : Codegen) : List CgCall → Prop
  | [] => True
  | call :: calls => (call = .ret → 0 ≤ c.funcEpilogueLabel) ∧ RetsIn (call.run c) calls

/-- The instructions of a sequence of calls. -/
def assemble (env : Linkage) (str : Bool) (c : Codegen) : List CgCall → List X86.Instr
  | [] => []
  | call :: calls => call.asm env str c ++ assemble env call.isAddString (call.run c) calls

/-- The pieces of a sequence of calls, as the loop over the fixups sees them. -/
def pieces (env : Linkage) (c : Codegen) : List CgCall → List Piece
  | [] => []
  | call :: calls => call.piece env c :: pieces env (call.run c) calls

/-- The pieces as the loop over the references to strings sees them. -/
def stringPieces (env : Linkage) (str : Bool) (c : Codegen) : List CgCall → List Piece
  | [] => []
  | call :: calls =>
    call.stringPiece env str c :: stringPieces env call.isAddString (call.run c) calls

/-- The hole of a fixup in the image. -/
def Linkage.hole (env : Linkage) (f : Fixup) : Hole :=
  ⟨f.codeOffset + Codegen.codeStart, fun old => (env.value f old % 4294967296).toNat⟩

/-- The hole of a reference to a string. -/
def Linkage.stringHole (env : Linkage) (off : Nat) : Hole :=
  ⟨off + Codegen.codeStart, fun old => ((env.strings + old) % 4294967296).toNat⟩

section Passes

variable {env : Linkage} {c : Codegen} {calls : List CgCall}

theorem piece_ok (env : Linkage) (c : Codegen) (call : CgCall) : (call.piece env c).Ok := by
  intro h hh
  obtain ⟨f, hf, rfl⟩ := Option.map_eq_some_iff.mp hh
  exact CgCall.fixup_le hf

theorem pieces_ok : ∀ p ∈ pieces env c calls, p.Ok := by
  induction calls generalizing c with
  | nil => exact fun p hp => absurd hp List.not_mem_nil
  | cons call calls ih =>
    intro p hp
    cases hp with
    | head => exact piece_ok env c call
    | tail _ hp => exact ih p hp

/-- What the calls of a sequence that fits append to the code. -/
theorem Emits.code (h : Emits c calls) : (runCalls calls c).code = c.code ++ code (pieces env c calls) := by
  induction calls generalizing c with
  | nil => exact (List.append_nil _).symm
  | cons call calls ih =>
    rw [runCalls_cons, ih h.2, h.1.run_code, List.append_assoc]
    rfl

/-- The holes of the fixups that they record. -/
theorem Emits.fixups (h : Emits c calls) : (runCalls calls c).fixups.map env.hole =
    c.fixups.map env.hole ++ holes (c.code.length + Codegen.codeStart) (pieces env c calls) := by
  induction calls generalizing c with
  | nil => exact (List.append_nil _).symm
  | cons call calls ih =>
    have hshift : c.code.length + Codegen.codeStart + call.raw.length =
        (call.run c).code.length + Codegen.codeStart := by
      rw [h.1.run_code, List.length_append]
      omega
    rw [runCalls_cons, ih h.2, h.1.run_fixups, List.map_append, List.append_assoc, pieces, holes]
    show _ ++ (_ ++ _) = _ ++ (_ ++ holes (c.code.length + Codegen.codeStart + call.raw.length) _)
    rw [hshift]
    congr 2
    simp only [CgCall.piece]
    cases call.fixup c.funcEpilogueLabel with
    | none => rfl
    | some f =>
      simp only [Option.map_some, Option.toList_some, List.map_cons, List.map_nil, Linkage.hole,
        Hole.shift, Nat.add_right_comm]

/-- The first pass leaves the pieces that the second one starts from. -/
theorem linkedCode_pieces (env : Linkage) (c : Codegen) (calls : List CgCall) (str : Bool) :
    linkedCode (pieces env c calls) = code (stringPieces env str c calls) := by
  induction calls generalizing c str with
  | nil => rfl
  | cons call calls ih =>
    rw [pieces, stringPieces, linkedCode, code, List.flatMap_cons, List.flatMap_cons]
    exact congrArg ((call.piece env c).linked ++ ·) (ih (call.run c) call.isAddString)

theorem stringPiece_ok {str : Bool} {call : CgCall} (h : str → ∃ val, call = .loadNum val) :
    (call.stringPiece env str c).Ok := by
  intro hole hh
  cases str with
  | false => cases hh
  | true =>
    obtain ⟨val, rfl⟩ := h rfl
    cases hh
    exact Nat.le_refl _

theorem stringPieces_ok {str : Bool} (h : StringsLoaded str calls) :
    ∀ p ∈ stringPieces env str c calls, p.Ok := by
  induction calls generalizing c str with
  | nil => exact fun p hp => absurd hp List.not_mem_nil
  | cons call calls ih =>
    intro p hp
    cases hp with
    | head => exact stringPiece_ok h.1
    | tail _ hp => exact ih h.2 p hp

/-- The holes of the references to strings, after the one that is due where `str` says so. -/
theorem Emits.strFixups (h : Emits c calls) {str : Bool} (hstr : StringsLoaded str calls)
    (before : List Hole) (hdue : c.strFixups.map env.stringHole =
      before ++ if str then [env.stringHole (c.code.length + 1)] else []) :
    (runCalls calls c).strFixups.map env.stringHole =
      before ++ holes (c.code.length + Codegen.codeStart) (stringPieces env str c calls) := by
  induction calls generalizing c str before with
  | nil =>
    rw [show str = false from hstr] at hdue
    exact hdue
  | cons call calls ih =>
    obtain ⟨hfit, hfits⟩ := h
    have hlen : (call.run c).code.length = c.code.length + call.raw.length := by
      rw [hfit.run_code, List.length_append]
    have hraw : (call.stringPiece env str c).bytes.length = call.raw.length :=
      Piece.length_linked (piece_ok env c call)
    have hnext : c.code.length + Codegen.codeStart + (call.stringPiece env str c).bytes.length =
        (call.run c).code.length + Codegen.codeStart := by
      rw [hraw, hlen]
      omega
    rw [runCalls_cons, stringPieces, holes, hnext, ← List.append_assoc]
    apply ih hfits hstr.2
    rw [hfit.run_strFixups, List.map_append, hdue, List.append_assoc, List.append_assoc]
    refine congrArg (before ++ ·) ?_
    cases str with
    | true =>
      obtain ⟨val, rfl⟩ := hstr.1 rfl
      simp only [CgCall.stringRefs, CgCall.isAddString, CgCall.stringPiece, if_true,
        List.replicate_zero, List.map_nil, Option.map_some, Option.toList_some, Linkage.stringHole,
        Hole.shift, Nat.add_right_comm]
      rfl
    | false =>
      cases call with
      | addString s =>
        rw [hlen]
        rfl
      | _ => rfl

/-- What both passes leave is the instructions of the calls. -/
theorem Emits.linkedCode (h : Emits c calls) {str : Bool} (hstr : StringsLoaded str calls)
    (he : RetsIn c calls) : linkedCode (stringPieces env str c calls) =
      (assemble env str c calls).flatMap X86.Instr.encode := by
  induction calls generalizing c str with
  | nil => rfl
  | cons call calls ih =>
    rw [stringPieces, assemble, List.flatMap_append, ← ih h.2 hstr.2 he.2,
      call.encode_asm_string env str c h.1.labelIds he.1 hstr.1]
    rfl

end Passes

/-! ## `cg_output` -/

namespace Codegen

variable (c : Codegen) (syms : Symbols) (out : Bytes)

/-- The linkage of `cg_output`. -/
def linkage : Linkage where
  label := c.labelPos
  func r := (syms.deref r).offset
  strings := cgLoadAddr + c.stringStart
  data := cgLoadAddr + c.dataStart

theorem fixed_eq (f : Fixup) (old : Nat) :
    c.fixed syms f (f.codeOffset + codeStart) old = (c.linkage syms).value f old := by
  simp only [fixed, Linkage.value, linkage]
  split
  · rfl
  · split <;> omega

theorem resolveFixups_eq :
    c.resolveFixups syms out = patchAll out (c.fixups.map (c.linkage syms).hole) := by
  rw [resolveFixups, patchAll, List.foldl_map]
  refine congrArg (fun g => List.foldl g out c.fixups) ?_
  funext m f
  exact congrArg (fun v => m.store _ (le32 v)) (c.fixed_eq syms f _)

theorem resolveStrings_eq :
    c.resolveStrings out = patchAll out (c.strFixups.map (c.linkage syms).stringHole) := by
  rw [resolveStrings, patchAll, List.foldl_map]
  rfl

end Codegen

/-- The operand of the jump that the image begins with: where the code of `main` is. -/
def entryOffset (syms : Symbols) : Int :=
  if syms.findGlobal ("main".toList.map chr) = .null then 0
  else (syms.deref (syms.findGlobal ("main".toList.map chr))).offset

/-- Code with the holes of two passes filled and the strings stored in between: outside the code
only the strings change. -/
theorem slice_passes {m : Bytes} {a n b : Nat} {ps qs : List Piece} {strs : List UInt8}
    (hps : ∀ p ∈ ps, p.Ok) (hqs : ∀ p ∈ qs, p.Ok) (hpq : linkedCode ps = code qs)
    (hn : (code ps).length = n) (hq : (code qs).length = n) (hm : m.slice a n = code ps)
    (hb : a + n ≤ b) :
    (patchAll ((patchAll m (holes a ps)).store b strs) (holes a qs)).slice a n = linkedCode qs ∧
      ∀ i, i < a ∨ a + n ≤ i →
        patchAll ((patchAll m (holes a ps)).store b strs) (holes a qs) i = m.store b strs i := by
  obtain ⟨hfirst, hkeep⟩ := slice_patchAll hps (hn ▸ hm)
  rw [hn, hpq] at hfirst
  have hstore : ((patchAll m (holes a ps)).store b strs).slice a (code qs).length = code qs := by
    rw [hq, Bytes.slice_store_of_disjoint (Or.inl hb), hfirst]
  obtain ⟨hsecond, hframe⟩ := slice_patchAll hqs hstore
  rw [hq] at hsecond hframe
  refine ⟨hsecond, fun i hi => ?_⟩
  rw [hframe i hi]
  exact Bytes.store_congr (hkeep i (by rw [hn]; exact hi))

/-- The image before the data section: the code linked, and around it what was stored. -/
theorem output_passes {c : Codegen} {calls : List CgCall} (h : Emits c.init calls)
    (hstr : StringsLoaded false calls) (syms : Symbols) (buf : Bytes) {c₁ : Codegen}
    (hc₁ : runCalls calls c.init = c₁) : ∃ m : Bytes,
    c₁.output syms buf = m.fill c₁.dataStart c₁.globalDataOffset.toNat 0 ∧
    m.slice Codegen.codeStart c₁.code.length =
      linkedCode (stringPieces (c₁.linkage syms) false c.init calls) ∧
    ∀ i, i < Codegen.codeStart ∨ c₁.stringStart ≤ i → m i =
      (((buf.store 0 [0xE9]).store 1 (le32 (entryOffset syms))).store Codegen.codeStart
        c₁.code).store c₁.stringStart c₁.strings i := by
  let env := c₁.linkage syms
  have hcode : c₁.code = code (pieces env c.init calls) := by
    rw [← hc₁]
    exact h.code
  have hfix : c₁.fixups.map env.hole = holes Codegen.codeStart (pieces env c.init calls) := by
    rw [← hc₁]
    exact h.fixups
  have hstrs : c₁.strFixups.map env.stringHole =
      holes Codegen.codeStart (stringPieces env false c.init calls) := by
    rw [← hc₁]
    exact h.strFixups hstr [] rfl
  have hpieces := linkedCode_pieces env c.init calls false
  have hlen : (code (stringPieces env false c.init calls)).length = c₁.code.length := by
    rw [← hpieces, length_linkedCode pieces_ok, hcode]
  refine ⟨_, rfl, ?_⟩
  rw [Codegen.resolveFixups_eq, Codegen.resolveStrings_eq _ syms, hfix, hstrs]
  apply slice_passes pieces_ok (stringPieces_ok hstr) hpieces (congrArg List.length hcode).symm hlen
  · rw [← hcode]
    exact Bytes.slice_store_self _ _ _
  · exact Nat.le_refl _

/-- The image begins with a jump. -/
theorem slice_entry {c : Codegen} {calls : List CgCall} (h : Emits c.init calls)
    (hstr : StringsLoaded false calls) (syms : Symbols) (buf : Bytes) :
    ((runCalls calls c.init).output syms buf).slice 0 Codegen.codeStart =
      0xE9 :: le32 (entryOffset syms) := by
  obtain ⟨m, hout, -, hframe⟩ := output_passes h hstr syms buf rfl
  have hstart : (runCalls calls c.init).stringStart =
      Codegen.codeStart + (runCalls calls c.init).code.length := rfl
  have hdata : (runCalls calls c.init).dataStart =
      (runCalls calls c.init).stringStart + (runCalls calls c.init).stringPos := rfl
  have hsame : ((runCalls calls c.init).output syms buf).slice 0 Codegen.codeStart =
      ((buf.store 0 [0xE9]).store 1 (le32 (entryOffset syms))).slice 0 (1 + 4) := by
    refine Bytes.slice_congr fun k hk => ?_
    rw [hout, Nat.zero_add]
    refine (if_neg fun hin => absurd hin.1 (by omega)).trans ((hframe k (.inl hk)).trans ?_)
    rw [Bytes.store_of_lt (by omega), Bytes.store_of_lt hk]
  rw [hsame, Bytes.slice_add]
  have hfirst : ((buf.store 0 [0xE9]).store 1 (le32 (entryOffset syms))).slice 0 1 = [0xE9] := by
    have hbefore : 0 + 1 ≤ 1 ∨ 1 + (le32 (entryOffset syms)).length ≤ 0 := Or.inl (Nat.le_refl _)
    exact (Bytes.slice_store_of_disjoint hbefore).trans (Bytes.slice_store_self buf 0 [0xE9])
  have hdword : ((buf.store 0 [0xE9]).store 1 (le32 (entryOffset syms))).slice (0 + 1) 4 =
      le32 (entryOffset syms) := Bytes.slice_store_self (buf.store 0 [0xE9]) 1 (le32 (entryOffset syms))
  rw [hfirst, hdword]
  rfl

/-- The code of the image is the instructions of all calls. -/
theorem slice_output {c : Codegen} {calls : List CgCall} (h : Emits c.init calls)
    (hstr : StringsLoaded false calls) (he : RetsIn c.init calls) (syms : Symbols)
    (buf : Bytes) : ((runCalls calls c.init).output syms buf).slice Codegen.codeStart
      (runCalls calls c.init).code.length =
      (assemble ((runCalls calls c.init).linkage syms) false c.init calls).flatMap
        X86.Instr.encode := by
  obtain ⟨m, hout, hslice, -⟩ := output_passes h hstr syms buf rfl
  rw [← h.linkedCode hstr he, hout, ← hslice]
  exact Bytes.slice_congr fun i hi => if_neg fun hin => absurd hin.1 (by
    rw [Codegen.dataStart, Codegen.stringStart, Codegen.codePos]
    omega)

end RainbowOs.Cc
