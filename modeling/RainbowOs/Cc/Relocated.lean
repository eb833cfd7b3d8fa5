import RainbowOs.Cc.Image

/-!
# Every reference of the image

`cg_output` changes a dword of the code where a call refers to a label, a
function, a global or a string, and no other byte. `CgCall.ref` is what a
call refers to and where its dword is; `Ref.Resolved` what the dword has to
lead to. `image_relocated` says that every dword does, for any calls that
stay within the limits and refer only to labels that are placed and strings
that have just been added.
-/

namespace RainbowOs.Cc

open RainbowOs.Lib

/-- What a dword of the code refers to. -/
inductive Ref where
  | label (id : Int)
  | func (fn : SymRef)
  | data (addr : Int)
  | string (s : List UInt8) (off : Int)
  deriving DecidableEq, Repr

/-- What a call refers to, and where in its bytes; `str` is the string just added, if one was. -/
def CgCall.ref (str : Option (List UInt8)) (c : Codegen) : CgCall → Option (Nat × Ref)
  | .loadGlobal addr | .storeGlobal addr => some (1, .data addr)
  | .jump id => some (1, .label id)
  | .ret => some (1, .label c.funcEpilogueLabel)
  | .jumpZero id | .jumpNonzero id => some (4, .label id)
  | .callSymbol fn => some (1, .func fn)
  | .loadNum val => str.map fun s => (1, .string s val)
  | _ => none

/-- The labels a call jumps to. -/
def CgCall.uses (c : Codegen) : CgCall → List Int
  | .jump id | .jumpZero id | .jumpNonzero id => [id]
  | .ret => [c.funcEpilogueLabel]
  | _ => []

/-- A label that was made is placed. -/
def Defined (c : Codegen) (calls : List CgCall) (id : Int) : Prop :=
  0 ≤ id ∧ ∃ pre call post, calls = pre ++ call :: post ∧
    call.places (runCalls pre c) = some id ∧ id < (runCalls pre c).numLabels

/-- Every label that a call jumps to is. -/
def LabelsDefined (c : Codegen) (calls : List CgCall) : Prop :=
  ∀ pre call post, calls = pre ++ call :: post →
    ∀ id ∈ call.uses (runCalls pre c), Defined c calls id

/-- Each string is loaded, at its offset, by the call after the one that adds it. -/
def StringsFollowed (c : Codegen) : List CgCall → Prop
  | [] => True
  | call :: calls => (∀ s, call = .addString s → ∃ rest, calls = .loadNum c.stringPos :: rest) ∧
      StringsFollowed (call.run c) calls

/-- Where the next byte of the code is in the image. -/
def Codegen.here (c : Codegen) : Nat := Codegen.codeStart + c.code.length

/-- The string a call adds. -/
def CgCall.addedString : CgCall → Option (List UInt8)
  | .addString s => some s
  | _ => none

/-- The string that the last call before a place adds. -/
def added (str : Option (List UInt8)) : List CgCall → Option (List UInt8)
  | [] => str
  | call :: calls => added call.addedString calls

theorem stringsLoaded_of_followed {c : Codegen} {calls : List CgCall} (h : StringsFollowed c calls)
    {str : Bool} (hstr : str → ∃ val rest, calls = .loadNum val :: rest) :
    StringsLoaded str calls := by
  induction calls generalizing c str with
  | nil =>
    cases str with
    | false => rfl
    | true =>
      obtain ⟨val, rest, hnil⟩ := hstr rfl
      cases hnil
  | cons call calls ih =>
    refine ⟨fun hs => ?_, ih h.2 fun hadd => ?_⟩
    · obtain ⟨val, rest, hcons⟩ := hstr hs
      exact ⟨val, (List.cons.inj hcons).1⟩
    · cases call with
      | addString s =>
        obtain ⟨rest, hrest⟩ := h.1 s rfl
        exact ⟨_, rest, hrest⟩
      | _ => cases hadd

/-! ## Where labels are -/

theorem exists_last_place {id : Int} {c : Codegen} {calls : List CgCall} (h : id ∈ placedIds c calls) :
    ∃ pre call post, calls = pre ++ call :: post ∧ call.places (runCalls pre c) = some id ∧
      id ∉ placedIds (call.run (runCalls pre c)) post := by
  induction calls generalizing c with
  | nil => exact absurd h List.not_mem_nil
  | cons call calls ih =>
    by_cases hlater : id ∈ placedIds (call.run c) calls
    · obtain ⟨pre, call', post, rfl, hplaces, hlast⟩ := ih hlater
      exact ⟨call :: pre, call', post, rfl, hplaces, hlast⟩
    · have hfirst := (List.mem_append.mp h).resolve_right hlater
      exact ⟨[], call, calls, rfl, Option.mem_toList.mp hfirst, hlater⟩

/-- A label that is defined ends where it was placed last. -/
theorem Defined.labelPos {id : Int} {c : Codegen} {calls : List CgCall} (h : Defined c calls id)
    (hfits : Fits c calls) : ∃ pre call post, calls = pre ++ call :: post ∧
      call.places (runCalls pre c) = some id ∧ id ∉ placedIds (call.run (runCalls pre c)) post ∧
      (runCalls calls c).labelPos id = (runCalls pre c).code.length := by
  obtain ⟨hid, pre, call, post, rfl, hplaces, hmade⟩ := h
  have hlast : ∃ pre' call' post', pre ++ call :: post = pre' ++ call' :: post' ∧
      call'.places (runCalls pre' c) = some id ∧ id < (runCalls pre' c).numLabels ∧
      id ∉ placedIds (call'.run (runCalls pre' c)) post' := by
    by_cases hlater : id ∈ placedIds (call.run (runCalls pre c)) post
    · obtain ⟨pre', call', post', rfl, hplaces', hlast⟩ := exists_last_place hlater
      have hrun : runCalls (pre ++ call :: pre') c = runCalls pre' (call.run (runCalls pre c)) := by
        rw [runCalls_append, runCalls_cons]
      have hone := numLabels_le_run call (runCalls pre c)
      have hmore := numLabels_le_runCalls pre' (call.run (runCalls pre c))
      refine ⟨pre ++ call :: pre', call', post', by rw [List.append_assoc]; rfl, ?_, ?_, ?_⟩
      · rw [hrun]
        exact hplaces'
      · rw [hrun]
        omega
      · rw [hrun]
        exact hlast
    · exact ⟨pre, call, post, rfl, hplaces, hmade, hlater⟩
  obtain ⟨pre', call', post', hcalls, hplaces', hmade', hlast'⟩ := hlast
  refine ⟨pre', call', post', hcalls, hplaces', hlast', ?_⟩
  rw [hcalls] at hfits ⊢
  obtain ⟨-, hfit, -⟩ := fits_append.mp hfits
  have hroom := hfit.labels
  have hle := numLabels_le_run call' (runCalls pre' c)
  rw [runCalls_append, runCalls_cons, labelPos_runCalls (by omega) hlast']
  exact labelPos_place hplaces' ⟨hid, by omega⟩

/-! ## The pieces of the image -/

theorem CgCall.isSome_addedString (call : CgCall) : call.addedString.isSome = call.isAddString := by
  cases call <;> rfl

theorem stringPieces_append (env : Linkage) (str : Option (List UInt8)) (c : Codegen)
    (l l' : List CgCall) : stringPieces env str.isSome c (l ++ l') =
      stringPieces env str.isSome c l ++
        stringPieces env (added str l).isSome (runCalls l c) l' := by
  induction l generalizing str c with
  | nil => rfl
  | cons call l ih =>
    have hrest := ih call.addedString (call.run c)
    rw [call.isSome_addedString] at hrest
    exact congrArg (_ :: ·) hrest

theorem linkedCode_append (ps qs : List Piece) :
    linkedCode (ps ++ qs) = linkedCode ps ++ linkedCode qs := List.flatMap_append

theorem length_stringPieces {env : Linkage} {str : Bool} {c : Codegen} {calls : List CgCall}
    (h : Fits c calls) (hok : ∀ p ∈ stringPieces env str c calls, p.Ok) :
    (runCalls calls c).code.length =
      c.code.length + (linkedCode (stringPieces env str c calls)).length := by
  rw [length_linkedCode hok, ← linkedCode_pieces, length_linkedCode pieces_ok,
    @Emits.code env _ _ h.emits, List.length_append]

/-- The bytes of one call in the image. -/
theorem slice_call {env : Linkage} {out : Bytes} {c : Codegen} {calls pre post : List CgCall}
    {call : CgCall} (hcalls : calls = pre ++ call :: post) (h : Fits c.init calls)
    (hstr : StringsLoaded false calls)
    (hm : out.slice Codegen.codeStart (runCalls calls c.init).code.length =
      linkedCode (stringPieces env false c.init calls)) :
    out.slice (runCalls pre c.init).here call.raw.length =
      (call.stringPiece env (added none pre).isSome (runCalls pre c.init)).linked := by
  subst hcalls
  obtain ⟨hpre, hcall⟩ := fits_append.mp h
  have hsplit := stringPieces_append env none c.init pre (call :: post)
  have hok : ∀ p ∈ stringPieces env false c.init (pre ++ call :: post), p.Ok :=
    stringPieces_ok hstr
  rw [Option.isSome_none] at hsplit
  rw [hsplit] at hok
  rw [hsplit] at hm
  have hlen := length_stringPieces hpre fun p hp => hok p (List.mem_append_left _ hp)
  have hlen' := length_stringPieces hcall fun p hp => hok p (List.mem_append_right _ hp)
  have hzero : c.init.code.length = 0 := rfl
  have hraw : (call.stringPiece env (added none pre).isSome (runCalls pre c.init)).linked.length =
      call.raw.length := by
    rw [Piece.length_linked (hok _ (List.mem_append_right _ List.mem_cons_self))]
    exact Piece.length_linked (piece_ok env _ call)
  rw [runCalls_append, hlen', linkedCode_append, Bytes.slice_add] at hm
  obtain ⟨-, hrest⟩ := List.append_inj hm (by rw [Bytes.length_slice, hlen, hzero, Nat.zero_add])
  rw [stringPieces, linkedCode, List.flatMap_cons, List.length_append, hraw, Bytes.slice_add] at hrest
  exact (List.append_inj hrest (by rw [Bytes.length_slice, hraw])).1

/-! ## What is in the dwords -/

/-- What a dword that ends at `after` in the code holds. -/
def Ref.value (env : Linkage) (after : Nat) : Ref → Int
  | .label id => env.label id - after
  | .func fn => env.func fn - after
  | .data addr => env.data + addr
  | .string _ off => env.strings + off

/-- A jump, with its dword at the end. -/
theorem linked_jump (env : Linkage) (c : Codegen) (pre : List UInt8) {id : Int} (hid : 0 ≤ id) :
    (Piece.mk (pre ++ le32 0) (some ⟨pre.length, fun old =>
      (env.value ⟨c.code.length + pre.length, id, .null⟩ old % 4294967296).toNat⟩)).linked =
      pre ++ le32 ((Ref.label id).value env (c.code.length + pre.length + 4)) := by
  rw [jump_linked env c pre hid, Codegen.rel, bytes32_imm, Ref.value]
  congr 3

/-- A call has its bytes, but for the dword that refers to something. -/
theorem linked_ref (env : Linkage) (str : Option (List UInt8)) (c : Codegen) (call : CgCall)
    (hids : ∀ id ∈ call.uses c, 0 ≤ id) (hstr : ∀ s ∈ str, ∃ val, call = .loadNum val) :
    (call.stringPiece env str.isSome c).linked = match call.ref str c with
      | none => call.raw
      | some (off, r) => call.raw.take off ++ le32 (r.value env (c.code.length + off + 4)) ++
          call.raw.drop (off + 4) := by
  cases str with
  | some s =>
    obtain ⟨val, rfl⟩ := hstr s rfl
    refine (linked_tail [0xB8] val fun old => env.strings + old).trans ?_
    rw [le32_add_hole]
    exact (List.append_nil _).symm
  | none =>
    show (call.piece env c).linked = _
    cases call with
    | loadGlobal addr =>
      refine (linked_tail [0xA1] addr fun old => env.data + old).trans ?_
      rw [le32_add_hole]
      exact (List.append_nil _).symm
    | storeGlobal addr =>
      refine (linked_tail [0xA3] addr fun old => env.data + old).trans ?_
      rw [le32_add_hole]
      exact (List.append_nil _).symm
    | callSymbol fn =>
      refine (linked_tail [0xE8] 0 fun old => env.value ⟨c.code.length + 1, -3, fn⟩ old).trans ?_
      exact (List.append_nil _).symm
    | jump id =>
      exact (linked_jump env c [0xE9] (hids id List.mem_cons_self)).trans (List.append_nil _).symm
    | ret =>
      exact (linked_jump env c [0xE9] (hids _ List.mem_cons_self)).trans (List.append_nil _).symm
    | jumpZero id =>
      exact (linked_jump env c [0x85, 0xC0, 0x0F, 0x84] (hids id List.mem_cons_self)).trans
        (List.append_nil _).symm
    | jumpNonzero id =>
      exact (linked_jump env c [0x85, 0xC0, 0x0F, 0x85] (hids id List.mem_cons_self)).trans
        (List.append_nil _).symm
    | _ => rfl

/-! ## Strings -/

theorem CgCall.FitsIn.run_strings {c : Codegen} {call : CgCall} (h : call.FitsIn c) :
    (call.run c).strings = c.strings ++ ((call.addedString.map (· ++ [0])).getD []) := by
  have hroom := h.strings
  rw [call.run_eq]
  cases call with
  | addString s =>
    show c.strings ++ (s ++ [0]).take _ = c.strings ++ (s ++ [0])
    rw [List.take_of_length_le]
    rw [List.length_append]
    exact Nat.le_sub_of_add_le' hroom
  | _ => exact (List.append_nil _).symm

theorem Fits.strings_prefix {c : Codegen} {calls : List CgCall} (h : Fits c calls) :
    c.strings <+: (runCalls calls c).strings := by
  induction calls generalizing c with
  | nil => exact List.prefix_rfl
  | cons call calls ih => exact List.IsPrefix.trans ⟨_, h.1.run_strings.symm⟩ (ih h.2)

/-- The string that was just added was added by the last call. -/
theorem added_eq {str : Option (List UInt8)} {l : List CgCall} {s : List UInt8}
    (h : added str l = some s) : l = [] ∧ str = some s ∨ ∃ l', l = l' ++ [.addString s] := by
  induction l generalizing str with
  | nil => exact .inl ⟨rfl, h⟩
  | cons call l ih =>
    right
    rcases ih h with ⟨rfl, hcall⟩ | ⟨l', rfl⟩
    · cases call with
      | addString s' =>
        cases hcall
        exact ⟨[], rfl⟩
      | _ => cases hcall
    · exact ⟨call :: l', rfl⟩

/-- The call after the one that adds a string loads its offset. -/
theorem StringsFollowed.loads {c : Codegen} {l : List CgCall} {s : List UInt8} {call : CgCall}
    {post : List CgCall} (h : StringsFollowed c (l ++ .addString s :: call :: post)) :
    call = .loadNum (runCalls l c).stringPos := by
  induction l generalizing c with
  | nil =>
    obtain ⟨rest, hrest⟩ := h.1 s rfl
    exact (List.cons.inj hrest).1
  | cons first l ih => exact ih h.2

/-- A string that is added is in the strings at the offset that is loaded. -/
theorem string_added {c : Codegen} {calls l post : List CgCall} {s : List UInt8} {val : Int}
    (hcalls : calls = l ++ .addString s :: .loadNum val :: post) (h : Fits c calls)
    (hf : StringsFollowed c calls) : val = (runCalls l c).stringPos ∧
      (runCalls l c).strings ++ (s ++ [0]) <+: (runCalls calls c).strings := by
  subst hcalls
  obtain ⟨-, hadd, hrest⟩ := fits_append.mp h
  have hpre := hrest.strings_prefix
  rw [hadd.run_strings, ← runCalls_cons, ← runCalls_append] at hpre
  exact ⟨CgCall.loadNum.inj hf.loads, hpre⟩

/-! ## The image -/

/-- What a program is that is within all limits and complete. -/
structure Complete (c : Codegen) (calls : List CgCall) (syms : Symbols) : Prop where
  fits : Fits c calls
  followed : StringsFollowed c calls
  labels : LabelsDefined c calls
  main : syms.findGlobal ("main".toList.map chr) ≠ .null

/-- Where a reference leads: `w` is its dword in the image `out`, and `after` where the dword
ends there. -/
def Ref.Resolved (c : Codegen) (calls : List CgCall) (syms : Symbols) (out : Bytes) (after : Nat)
    (w : X86.Word) : Ref → Prop
  | .label id => ∃ pre call post, calls = pre ++ call :: post ∧
      call.places (runCalls pre c) = some id ∧ id ∉ placedIds (call.run (runCalls pre c)) post ∧
      imm after + w = imm (runCalls pre c).here
  | .func fn => imm after + w = imm (Codegen.codeStart + (syms.deref fn).offset)
  | .data addr => w = imm (cgLoadAddr + (runCalls calls c).dataStart + addr)
  | .string s _ => ∃ pos : Nat, w = imm (cgLoadAddr + pos) ∧ out.slice pos (s.length + 1) = s ++ [0]

section Image

variable {c : Codegen} {calls : List CgCall} {syms : Symbols} {buf : Bytes}

variable (syms buf) in
/-- The strings of the image. -/
theorem slice_strings (h : Fits c.init calls) (hstr : StringsLoaded false calls) :
    ((runCalls calls c.init).output syms buf).slice (runCalls calls c.init).stringStart
      (runCalls calls c.init).strings.length = (runCalls calls c.init).strings := by
  obtain ⟨m, hout, -, hframe⟩ := output_passes h.emits hstr syms buf rfl
  rw [hout]
  refine Eq.trans ?_ (Bytes.slice_store_self (((buf.store 0 [0xE9]).store 1
    (le32 (entryOffset syms))).store Codegen.codeStart (runCalls calls c.init).code)
    (runCalls calls c.init).stringStart (runCalls calls c.init).strings)
  refine Bytes.slice_congr fun k hk => ?_
  refine Eq.trans (if_neg fun hin => ?_) (hframe _ (.inr (Nat.le_add_right _ _)))
  exact absurd hin.1 (Nat.not_le.mpr (Nat.add_lt_add_left hk _))

/-- The jump that the image begins with. -/
theorem output_entry (h : Fits c.init calls) (hstr : StringsLoaded false calls) :
    (runCalls calls c.init).output syms buf 0 = 0xE9 ∧
      imm (((runCalls calls c.init).output syms buf).word32 1) = imm (entryOffset syms) := by
  have hslice := slice_entry h.emits hstr syms buf
  have hword : ((runCalls calls c.init).output syms buf).word32 (0 + 1) =
      dwordAt ([0xE9] ++ (le32 (entryOffset syms) ++ [])) 1 := word32_of_slice hslice (by decide)
  constructor
  · exact (List.cons.inj ((Bytes.slice_succ _ _ _).symm.trans hslice)).1
  · rw [hword, show 1 = [(0xE9 : UInt8)].length from rfl, dwordAt_append, dwordAt_le32]
    apply BitVec.eq_of_toNat_eq
    rw [BitVec.toNat_ofInt, BitVec.toNat_ofInt]
    omega

/-- Bytes in the middle of a slice. -/
theorem slice_of_prefix {m : Bytes} {a : Nat} {l l₁ l₂ : List UInt8} (h : m.slice a l.length = l)
    (hl : l₁ ++ l₂ <+: l) : m.slice (a + l₁.length) l₂.length = l₂ := by
  obtain ⟨rest, rfl⟩ := hl
  rw [List.length_append, List.length_append, Nat.add_assoc, Bytes.slice_add, Bytes.slice_add,
    List.append_assoc] at h
  have hnext := (List.append_inj h (Bytes.length_slice _ _ _)).2
  exact (List.append_inj hnext (Bytes.length_slice _ _ _)).1

theorem word_label (x y : Int) (n : Nat) : imm n + imm (x - y) = imm (n + x - y) := by
  rw [← BitVec.ofInt_add]
  congr 1
  omega

variable (buf) in
/-- Every reference is resolved. -/
theorem ref_resolved (h : Complete c.init calls syms) {pre post : List CgCall} {call : CgCall}
    (hcalls : calls = pre ++ call :: post) (off : Nat) (r : Ref)
    (hr : call.ref (added none pre) (runCalls pre c.init) = some (off, r)) :
    r.Resolved c.init calls syms ((runCalls calls c.init).output syms buf)
      ((runCalls pre c.init).here + off + 4)
      (imm (r.value ((runCalls calls c.init).linkage syms)
        ((runCalls pre c.init).code.length + off + 4))) := by
  have hhere : (runCalls pre c.init).here = Codegen.codeStart + (runCalls pre c.init).code.length := rfl
  cases r with
  | label id =>
    have hused : id ∈ call.uses (runCalls pre c.init) := by
      cases call with
      | jump | jumpZero | jumpNonzero | ret =>
        cases hr
        exact List.mem_cons_self
      | loadNum val =>
        obtain ⟨s, -, hs⟩ := Option.map_eq_some_iff.mp hr
        cases hs
      | _ => cases hr
    obtain ⟨pre', call', post', hsplit, hplaces, hlast, hpos⟩ :=
      (h.labels pre call post hcalls id hused).labelPos h.fits
    refine ⟨pre', call', post', hsplit, hplaces, hlast, ?_⟩
    show imm _ + imm ((runCalls calls c.init).labelPos id - _) = _
    rw [hpos, word_label, hhere, Codegen.here]
    congr 1
    omega
  | func fn =>
    show imm _ + imm ((syms.deref fn).offset - _) = imm _
    rw [word_label, hhere]
    congr 1
    omega
  | data addr => rfl
  | string s val =>
    have hlast : added none pre = some s ∧ call = .loadNum val := by
      cases call with
      | loadNum val' =>
        obtain ⟨s', hs', hs⟩ := Option.map_eq_some_iff.mp hr
        cases hs
        exact ⟨hs', rfl⟩
      | _ => cases hr
    obtain ⟨hadd, rfl⟩ := hlast
    rcases added_eq hadd with ⟨-, hnone⟩ | ⟨l, rfl⟩
    · cases hnone
    · rw [List.append_assoc] at hcalls
      have hstr : StringsLoaded false calls := stringsLoaded_of_followed h.followed nofun
      obtain ⟨hval, hpre⟩ := string_added hcalls h.fits h.followed
      refine ⟨(runCalls calls c.init).stringStart + (runCalls l c.init).stringPos, ?_, ?_⟩
      · show imm (cgLoadAddr + (runCalls calls c.init).stringStart + val) = _
        rw [hval]
        congr 1
        omega
      · have hbytes := slice_of_prefix (slice_strings syms buf h.fits hstr) hpre
        rw [List.length_append] at hbytes
        exact hbytes

/-- Relocation is exact: the image jumps to `main` and ends with a zeroed data section, and each
call has in it the bytes it emitted, but for the dword of its reference, which leads to what it
refers to. -/
theorem image_relocated (h : Complete c.init calls syms) :
    let c₁ := runCalls calls c.init
    let out := c₁.output syms buf
    (out 0 = 0xE9 ∧ imm Codegen.codeStart + imm (out.word32 1) = imm (Codegen.codeStart +
      (syms.deref (syms.findGlobal ("main".toList.map chr))).offset)) ∧
    (∀ pre call post, calls = pre ++ call :: post →
      match call.ref (added none pre) (runCalls pre c.init) with
      | none => out.slice (runCalls pre c.init).here call.raw.length = call.raw
      | some (off, r) => ∃ w : X86.Word,
          out.slice (runCalls pre c.init).here call.raw.length =
            call.raw.take off ++ X86.bytes32 w ++ call.raw.drop (off + 4) ∧
          r.Resolved c.init calls syms out ((runCalls pre c.init).here + off + 4) w) ∧
    ∀ i, i < c₁.globalDataOffset.toNat → out (c₁.dataStart + i) = 0 := by
  intro c₁ out
  have hstr : StringsLoaded false calls := stringsLoaded_of_followed h.followed nofun
  obtain ⟨m, hout, hslice, hframe⟩ := output_passes h.fits.emits hstr syms buf rfl
  refine ⟨⟨?_, ?_⟩, ?_, ?_⟩
  · exact (output_entry h.fits hstr).1
  · rw [(output_entry h.fits hstr).2, entryOffset, if_neg h.main, ← BitVec.ofInt_add]
  · intro pre call post hcalls
    have hsame : out.slice Codegen.codeStart c₁.code.length =
        linkedCode (stringPieces (c₁.linkage syms) false c.init calls) := by
      rw [← hslice]
      show (c₁.output syms buf).slice _ _ = _
      rw [hout]
      exact Bytes.slice_congr fun i hi => if_neg fun hin => absurd hin.1 (by
        have hdata : (runCalls calls c.init).dataStart = Codegen.codeStart + c₁.code.length +
          c₁.stringPos := rfl
        omega)
    have hcall := slice_call hcalls h.fits hstr hsame
    rw [linked_ref] at hcall
    · have hresolved := ref_resolved buf h hcalls
      generalize call.ref (added none pre) (runCalls pre c.init) = ref at hcall hresolved
      cases ref with
      | none => exact hcall
      | some ref =>
        obtain ⟨off, r⟩ := ref
        refine ⟨_, ?_, hresolved off r rfl⟩
        rw [bytes32_imm]
        exact hcall
    · exact fun id hid => (h.labels pre call post hcalls id hid).1
    · intro s hs
      rcases added_eq hs with ⟨-, hnone⟩ | ⟨l, rfl⟩
      · cases hnone
      · rw [List.append_assoc] at hcalls
        exact ⟨_, (hcalls ▸ h.followed).loads⟩
  · intro i hi
    show c₁.output syms buf _ = 0
    rw [hout]
    exact if_pos ⟨Nat.le_add_right _ _, Nat.add_lt_add_left hi _⟩

end Image

/-! ### A program -/

/-- `int main() { return "Hi"; }` -/
def greetCalls : List CgCall :=
  [.funcBegin (.glob 0), .addString [72, 105], .loadNum 0, .ret, .funcEnd]

def greetSyms : Symbols :=
  ⟨[⟨"main".toList.map chr, .function, .int, 0, 0, true⟩], [], 0, Compiler.boot.syms.null⟩

theorem greet_complete : Complete Compiler.boot.cg.init greetCalls greetSyms where
  fits := by decide
  followed := by
    refine ⟨nofun, fun s hs => ?_, nofun, nofun, nofun, trivial⟩
    cases hs
    exact ⟨_, rfl⟩
  labels := by
    intro pre call post hcalls id hid
    have huses : ∀ i < greetCalls.length, ∀ call ∈ greetCalls[i]?,
        ∀ id ∈ call.uses (runCalls (greetCalls.take i) Compiler.boot.cg.init), id = 0 := by
      decide
    have hlen : greetCalls.length = pre.length + (post.length + 1) := by
      rw [hcalls, List.length_append, List.length_cons]
    have hat : greetCalls[pre.length]? = some call := by
      rw [hcalls, List.getElem?_append_right (Nat.le_refl _), Nat.sub_self]
      rfl
    have hpre : greetCalls.take pre.length = pre := by rw [hcalls, List.take_left]
    have hzero := huses pre.length (by omega) call hat id (by rw [hpre]; exact hid)
    subst hzero
    exact ⟨Int.le_refl _, greetCalls.take 4, .funcEnd, [], rfl, by decide +kernel, by decide +kernel⟩
  main := by decide

/-- The string that it returns is where the code says. -/
theorem image_relocated_greet :
    let out := (runCalls greetCalls Compiler.boot.cg.init).output greetSyms fun _ => 0
    ∃ pos : Nat, out.slice 17 5 = 0xB8 :: X86.bytes32 (imm (cgLoadAddr + pos)) ∧
      out.slice pos 3 = [72, 105, 0] := by
  obtain ⟨-, hcalls, -⟩ := @image_relocated _ _ _ (fun _ => 0) greet_complete
  obtain ⟨w, hbytes, pos, rfl, hstring⟩ :=
    hcalls [.funcBegin (.glob 0), .addString [72, 105]] (.loadNum 0) [.ret, .funcEnd] rfl
  exact ⟨pos, hbytes, hstring⟩

end RainbowOs.Cc
