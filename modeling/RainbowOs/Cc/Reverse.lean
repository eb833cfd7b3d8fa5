import RainbowOs.Cc.Link
import RainbowOs.Lib.X86Run

/-!
# The arguments of a built-in

`cg_reverse_stack`: arguments are pushed from left to right, and before a system
call they are turned round, by exchanges of two dwords of the stack. Each dword
is addressed with a displacement of 8 bits, which the processor extends with its
sign. Up to 32 arguments all displacements stay below 128; with more, the first
exchange takes a dword below the stack for the last argument.
-/

namespace RainbowOs.Cc

open RainbowOs.Lib
open X86 (Word Cpu Instr Arrives StepTo CodeAt exchange exchange_of_not_mem)

/-- `#define PP_BUF_SIZE`: a call has fewer arguments than the text has characters. -/
abbrev ppBufSize : Nat := 8192

/-- What the processor adds to ESP for the displacement that is emitted for `d`. -/
def extended (d : Nat) : Word := (BitVec.ofNat 8 (UInt8.ofNat d).toNat).signExtend 32

/-- The `k`-th dword from the top of the stack. -/
def dword (m : Bytes) (esp : Word) (k : Nat) : Word := X86.read m (esp + BitVec.ofNat 32 (4 * k))

/-- The code that `cg_reverse_stack` emits. -/
def reversal (n : Nat) : List UInt8 := (CgCall.reverseStack n).raw

/-- The processor is at that code, at `a`, with `n` dwords on the stack and the code not among them. -/
structure AtReversal (n a : Nat) (s : Cpu) : Prop where
  code : CodeAt s a (reversal n)
  stack : (s.regs .esp).toNat + 4 * n ≤ 4294967296
  apart : (s.regs .esp).toNat + 4 * n ≤ a ∨ a + (reversal n).length ≤ (s.regs .esp).toNat

/-- The `n` dwords are in reversed order, and all else is as it was. -/
structure Reversed (n : Nat) (s s' : Cpu) : Prop where
  esp : s'.regs .esp = s.regs .esp
  words : ∀ k < n, dword s'.mem (s.regs .esp) k = dword s.mem (s.regs .esp) (n - 1 - k)
  frame : ∀ x, x < (s.regs .esp).toNat ∨ (s.regs .esp).toNat + 4 * n ≤ x → s'.mem x = s.mem x

/-! ## One exchange -/

/-- An exchange, in the memory. -/
def swapAt (esp : Word) (m : Bytes) (lo hi : Nat) : Bytes :=
  exchange m (esp + extended lo) (esp + extended hi)

/-- A dword lies outside an area. -/
def Clear (w : Word) (a b : Nat) : Prop := w.toNat + 4 ≤ a ∨ b ≤ w.toNat

/-- An instruction before the end. -/
theorem stepTo_of_code {s s' : Cpu} {a stop : Nat} {i : Instr} {rest : List UInt8}
    (hcode : CodeAt s a (i.encode ++ rest)) (hi : i.Plain) (hlt : a < stop) (hbound : stop < 4294967296)
    (hexec : i.exec (s.fetched i.encode.length) = some s') : StepTo (BitVec.ofNat 32 stop) s s' := by
  refine ⟨fun heq => ?_, (hcode.step_eq hi).trans hexec⟩
  have haddr := congrArg BitVec.toNat heq
  rw [hcode.eip_toNat, BitVec.toNat_ofNat, Nat.mod_eq_of_lt hbound] at haddr
  omega

/-- A load from the stack. -/
theorem load_runs {s : Cpu} {a stop : Nat} {r : X86.Reg} {d : UInt8} {rest : List UInt8}
    (hcode : CodeAt s a ((Instr.load r (.stack d)).encode ++ rest)) (hlt : a < stop)
    (hbound : stop < 4294967296) :
    ∃ s', StepTo (BitVec.ofNat 32 stop) s s' ∧ CodeAt s' (a + 4) rest ∧ s'.mem = s.mem ∧
      s'.regs = Function.update s.regs r (X86.read s.mem (s.address (.stack d))) := by
  refine ⟨_, stepTo_of_code hcode rfl hlt hbound rfl, ?_, rfl, rfl⟩
  exact hcode.next (hcode.fetched_eip 4) rfl

/-- A store to the stack, away from what follows. -/
theorem store_runs {s : Cpu} {a stop : Nat} {r : X86.Reg} {d : UInt8} {rest : List UInt8}
    (hcode : CodeAt s a ((Instr.store (.stack d) r).encode ++ rest)) (hlt : a < stop)
    (hbound : stop < 4294967296) (hclear : Clear (s.address (.stack d)) (a + 4) (a + 4 + rest.length)) :
    ∃ s', StepTo (BitVec.ofNat 32 stop) s s' ∧ CodeAt s' (a + 4) rest ∧ s'.regs = s.regs ∧
      s'.mem = X86.write s.mem (s.address (.stack d)) (s.regs r) := by
  refine ⟨_, stepTo_of_code hcode rfl hlt hbound rfl, ?_, rfl, rfl⟩
  refine hcode.next (hcode.fetched_eip 4) (Bytes.slice_congr fun k hk => ?_)
  refine X86.write_of_not_mem ?_
  rcases hclear with hbelow | habove
  · exact Or.inr (Nat.le_trans hbelow (Nat.le_add_right _ _))
  · exact Or.inl (Nat.lt_of_lt_of_le (Nat.add_lt_add_left hk _) habove)

/-- The code of an exchange runs to what follows it. -/
theorem swap_runs {s : Cpu} {a stop lo hi : Nat} {rest : List UInt8}
    (hcode : CodeAt s a (swapBytes lo hi ++ rest)) (hstop : a + 16 ≤ stop) (hbound : stop < 4294967296)
    (hlo : Clear (s.regs .esp + extended lo) a (a + (16 + rest.length)))
    (hhi : Clear (s.regs .esp + extended hi) a (a + (16 + rest.length))) :
    ∃ s', Relation.ReflTransGen (StepTo (BitVec.ofNat 32 stop)) s s' ∧ CodeAt s' (a + 16) rest ∧
      s'.regs .esp = s.regs .esp ∧ s'.mem = swapAt (s.regs .esp) s.mem lo hi := by
  have hfirst : CodeAt s a ((Instr.load .eax (.stack (UInt8.ofNat lo))).encode ++
      ((Instr.load .ecx (.stack (UInt8.ofNat hi))).encode ++
        ((Instr.store (.stack (UInt8.ofNat lo)) .ecx).encode ++
          ((Instr.store (.stack (UInt8.ofNat hi)) .eax).encode ++ rest)))) := hcode
  obtain ⟨s₁, hstep₁, hcode₁, hmem₁, hregs₁⟩ := load_runs hfirst (by omega) hbound
  obtain ⟨s₂, hstep₂, hcode₂, hmem₂, hregs₂⟩ := load_runs hcode₁ (by omega) hbound
  have hesp₁ : s₁.regs .esp = s.regs .esp := by
    rw [hregs₁]
    rfl
  have hesp₂ : s₂.regs .esp = s.regs .esp := by
    rw [hregs₂, ← hesp₁]
    rfl
  have hlo₂ : s₂.address (.stack (UInt8.ofNat lo)) = s.regs .esp + extended lo := by
    rw [X86.Cpu.address, hesp₂, extended]
  have hlen : ((Instr.store (.stack (UInt8.ofNat hi)) .eax).encode ++ rest).length = 4 + rest.length :=
    List.length_append
  obtain ⟨s₃, hstep₃, hcode₃, hregs₃, hmem₃⟩ := store_runs hcode₂ (by omega) hbound (by
    rw [hlo₂, hlen]
    exact hlo.imp (fun h => by omega) fun h => by omega)
  have hesp₃ : s₃.regs .esp = s.regs .esp := by rw [hregs₃, hesp₂]
  have hhi₃ : s₃.address (.stack (UInt8.ofNat hi)) = s.regs .esp + extended hi := by
    rw [X86.Cpu.address, hesp₃, extended]
  obtain ⟨s₄, hstep₄, hcode₄, hregs₄, hmem₄⟩ := store_runs hcode₃ (by omega) hbound (by
    rw [hhi₃]
    exact hhi.imp (fun h => by omega) fun h => by omega)
  refine ⟨s₄, .head hstep₁ (.head hstep₂ (.head hstep₃ (.single hstep₄))), hcode₄, ?_, ?_⟩
  · rw [hregs₄, hesp₃]
  · have heax : s₃.regs .eax = X86.read s.mem (s.regs .esp + extended lo) := by
      rw [hregs₃, hregs₂, hregs₁]
      rfl
    have hecx : s₂.regs .ecx = X86.read s.mem (s.regs .esp + extended hi) := by
      rw [hregs₂, hmem₁, ← hesp₁]
      rfl
    rw [hmem₄, hhi₃, heax, hmem₃, hlo₂, hecx, hmem₂, hmem₁]
    rfl

/-! ## All exchanges -/

/-- The code of the exchanges at the indices `l`. -/
def exchanges (n : Nat) (l : List Nat) : List UInt8 :=
  l.flatMap fun i => swapBytes (i * 4) ((n - 1 - i) * 4)

theorem exchanges_cons (n i : Nat) (l : List Nat) :
    exchanges n (i :: l) = swapBytes (i * 4) ((n - 1 - i) * 4) ++ exchanges n l :=
  List.flatMap_cons

theorem length_exchanges (n : Nat) (l : List Nat) : (exchanges n l).length = 16 * l.length := by
  induction l with
  | nil => rfl
  | cons i l ih =>
    have hswap : (swapBytes (i * 4) ((n - 1 - i) * 4)).length = 16 := rfl
    rw [exchanges_cons, List.length_append, ih, hswap, List.length_cons]
    omega

theorem length_reversal (n : Nat) : (reversal n).length = 16 * (n / 2) := by
  have h := length_exchanges n (List.range (n / 2))
  rwa [List.length_range] at h

/-- The exchanges at the indices `l`, in the memory. -/
def swapsAt (n : Nat) (esp : Word) (m : Bytes) (l : List Nat) : Bytes :=
  l.foldl (fun m i => swapAt esp m (i * 4) ((n - 1 - i) * 4)) m

theorem Clear.mono {w : Word} {a a' b : Nat} (h : Clear w a b) (ha : a ≤ a') : Clear w a' b :=
  h.imp_left fun hle => Nat.le_trans hle ha

/-- The code of some exchanges runs to its end, where none of them is in the code. -/
theorem exchanges_run {n : Nat} {l : List Nat} {s : Cpu} {a stop : Nat} (hcode : CodeAt s a (exchanges n l))
    (hstop : a + 16 * l.length = stop)
    (hclear : ∀ i ∈ l, Clear (s.regs .esp + extended (i * 4)) a stop ∧
      Clear (s.regs .esp + extended ((n - 1 - i) * 4)) a stop) :
    ∃ s', Arrives (BitVec.ofNat 32 stop) s s' ∧ s'.regs .esp = s.regs .esp ∧
      s'.mem = swapsAt n (s.regs .esp) s.mem l := by
  have hbound := hcode.bound
  rw [length_exchanges, hstop] at hbound
  induction l generalizing s a with
  | nil =>
    refine ⟨s, ⟨.refl, ?_⟩, rfl, rfl⟩
    rw [hcode.eip, ← hstop]
    rfl
  | cons i l ih =>
    rw [List.length_cons] at hstop
    have hend : a + (16 + (exchanges n l).length) = stop := by
      rw [length_exchanges]
      omega
    obtain ⟨hlo, hhi⟩ := hclear i List.mem_cons_self
    rw [← hend] at hlo hhi
    rw [exchanges_cons] at hcode
    obtain ⟨s₁, hruns, hcode₁, hesp, hmem⟩ := swap_runs hcode (by omega) hbound hlo hhi
    obtain ⟨s', harrives, hesp', hmem'⟩ := ih hcode₁ (by omega) fun j hj => by
      rw [hesp]
      exact (hclear j (List.mem_cons_of_mem i hj)).imp (fun h => h.mono (Nat.le_add_right _ _))
        fun h => h.mono (Nat.le_add_right _ _)
    refine ⟨s', ⟨hruns.trans harrives.1, harrives.2⟩, hesp'.trans hesp, ?_⟩
    rw [hmem', hesp, hmem]
    rfl

/-- The code of `cg_reverse_stack` runs to its end. -/
theorem reversal_runs {n a : Nat} {s : Cpu} (hcode : CodeAt s a (reversal n))
    (hclear : ∀ i < n / 2, Clear (s.regs .esp + extended (i * 4)) a (a + (reversal n).length) ∧
      Clear (s.regs .esp + extended ((n - 1 - i) * 4)) a (a + (reversal n).length)) :
    ∃ s', Arrives (BitVec.ofNat 32 (a + (reversal n).length)) s s' ∧ s'.regs .esp = s.regs .esp ∧
      s'.mem = swapsAt n (s.regs .esp) s.mem (List.range (n / 2)) := by
  refine exchanges_run hcode ?_ fun i hi => hclear i (List.mem_range.mp hi)
  rw [length_reversal, List.length_range]

/-! ## Up to 32 arguments -/

/-- The displacements that do not get a sign. -/
theorem extended_of_lt {d : Nat} (hd : d < 128) : extended d = BitVec.ofNat 32 d := by
  have h : ∀ d < 128, extended d = BitVec.ofNat 32 d := by decide +kernel
  exact h d hd

section Dwords

variable {esp : Word} {m : Bytes} {n : Nat}

theorem toNat_slot (h : esp.toNat + 4 * n ≤ 4294967296) {k : Nat} (hk : k < n) :
    (esp + BitVec.ofNat 32 (4 * k)).toNat = esp.toNat + 4 * k := by
  have hlt := esp.isLt
  rw [BitVec.toNat_add, BitVec.toNat_ofNat, Nat.mod_eq_of_lt (a := 4 * k) (by omega)]
  exact Nat.mod_eq_of_lt (by omega)

theorem swapAt_eq {i j : Nat} (hi : i < 32) (hj : j < 32) : swapAt esp m (i * 4) (j * 4) =
    exchange m (esp + BitVec.ofNat 32 (4 * i)) (esp + BitVec.ofNat 32 (4 * j)) := by
  rw [swapAt, Nat.mul_comm i, Nat.mul_comm j, extended_of_lt (by omega), extended_of_lt (by omega)]

/-- The dwords after an exchange of two of them. -/
theorem dword_exchange (h : esp.toNat + 4 * n ≤ 4294967296) {i j k : Nat} (hi : i < n) (hj : j < n) (hk : k < n)
    (hij : i ≠ j) :
    dword (exchange m (esp + BitVec.ofNat 32 (4 * i)) (esp + BitVec.ofNat 32 (4 * j))) esp k =
      if k = i then dword m esp j else if k = j then dword m esp i else dword m esp k := by
  have hslot : ∀ {k l : Nat}, k < n → l < n → k ≠ l →
      (esp + BitVec.ofNat 32 (4 * k)).toNat + 4 ≤ (esp + BitVec.ofNat 32 (4 * l)).toNat ∨
        (esp + BitVec.ofNat 32 (4 * l)).toNat + 4 ≤ (esp + BitVec.ofNat 32 (4 * k)).toNat := by
    intro k l hk hl hne
    rw [toNat_slot h hk, toNat_slot h hl]
    omega
  unfold dword exchange
  split
  · next heq =>
    rw [heq, X86.read_write_of_apart (hslot hj hi hij.symm), X86.read_write]
  · next hne =>
    split
    · next heq => rw [heq, X86.read_write]
    · next hne' =>
      rw [X86.read_write_of_apart (hslot hj hk fun heq => hne' heq.symm),
        X86.read_write_of_apart (hslot hi hk fun heq => hne heq.symm)]

/-- The memory after the first `j` exchanges. -/
structure Turned (n : Nat) (esp : Word) (m m' : Bytes) (j : Nat) : Prop where
  words : ∀ k < n, dword m' esp k = dword m esp (if k < j ∨ n - j ≤ k then n - 1 - k else k)
  frame : ∀ x, x < esp.toNat ∨ esp.toNat + 4 * n ≤ x → m' x = m x

theorem Turned.swap (h : esp.toNat + 4 * n ≤ 4294967296) (hn : n ≤ 32) {m' : Bytes} {j : Nat} (hj : j < n / 2)
    (ht : Turned n esp m m' j) : Turned n esp m (swapAt esp m' (j * 4) ((n - 1 - j) * 4)) (j + 1) := by
  have hjn : j < n := by omega
  have hmirror : n - 1 - j < n := by omega
  rw [swapAt_eq (by omega) (by omega)]
  constructor
  · intro k hk
    rw [dword_exchange h hjn hmirror hk (by omega)]
    split
    · next heq =>
      rw [ht.words _ hmirror, heq, if_neg (by omega), if_pos (by omega)]
    · next hne =>
      split
      · next heq =>
        rw [ht.words _ hjn, if_neg (by omega), if_pos (by omega)]
        congr 1
        omega
      · next hne' =>
        rw [ht.words _ hk]
        congr 1
        exact if_congr (by omega) rfl rfl
  · intro x hx
    rw [exchange_of_not_mem, ht.frame x hx]
    · rw [toNat_slot h hjn]
      omega
    · rw [toNat_slot h hmirror]
      omega

theorem turned_swapsAt (h : esp.toNat + 4 * n ≤ 4294967296) (hn : n ≤ 32) {j : Nat} (hj : j ≤ n / 2) :
    Turned n esp m (swapsAt n esp m (List.range j)) j := by
  induction j with
  | zero => exact ⟨fun k hk => by rw [if_neg (by omega)]; rfl, fun _ _ => rfl⟩
  | succ j ih =>
    have hstep : swapsAt n esp m (List.range (j + 1)) =
        swapAt esp (swapsAt n esp m (List.range j)) (j * 4) ((n - 1 - j) * 4) := by
      rw [swapsAt, List.range_succ, List.foldl_append]
      rfl
    rw [hstep]
    exact (ih (by omega)).swap h hn (by omega)

end Dwords

/-- With at most 32 arguments they are turned round. -/
theorem AtReversal.reversed {n a : Nat} {s : Cpu} (h : AtReversal n a s) (hn : n ≤ 32) :
    ∃ s', Arrives (BitVec.ofNat 32 (a + (reversal n).length)) s s' ∧ Reversed n s s' := by
  have hslot : ∀ k < n, Clear (s.regs .esp + extended (k * 4)) a (a + (reversal n).length) := by
    intro k hk
    rw [Nat.mul_comm, extended_of_lt (by omega), Clear, toNat_slot h.stack hk]
    have hapart := h.apart
    omega
  obtain ⟨s', harrives, hesp, hmem⟩ := reversal_runs h.code fun i hi =>
    ⟨hslot i (by omega), hslot (n - 1 - i) (by omega)⟩
  have hturned := turned_swapsAt (m := s.mem) h.stack hn (Nat.le_refl (n / 2))
  rw [← hmem] at hturned
  refine ⟨s', harrives, hesp, fun k hk => ?_, hturned.frame⟩
  rw [hturned.words k hk]
  -- the middle one of an odd number is its own image
  split
  · rfl
  · congr 1
    omega

/-! ## More than 32 arguments -/

/-- A displacement of 8 bits reaches 128 bytes down and 124 up. -/
theorem extended_reach (k : Nat) :
    (extended (k * 4)).toNat ≤ 124 ∨ 4294967296 - 128 ≤ (extended (k * 4)).toNat := by
  have hall : ∀ k < 64, (extended (k * 4)).toNat ≤ 124 ∨ 4294967296 - 128 ≤ (extended (k * 4)).toNat := by
    decide +kernel
  have hmod : extended (k * 4) = extended (k % 64 * 4) := by
    have hbyte : UInt8.ofNat (k * 4) = UInt8.ofNat (k % 64 * 4) := by
      rw [← UInt8.toNat_inj, UInt8.toNat_ofNat', UInt8.toNat_ofNat']
      omega
    rw [extended, extended, hbyte]
  rw [hmod]
  exact hall _ (Nat.mod_lt _ (by decide))

/-- No exchange is further away than that. -/
theorem slot_reach {esp : Word} (hlow : 128 ≤ esp.toNat) (hhigh : esp.toNat + 128 ≤ 4294967296) (k : Nat) :
    esp.toNat - 128 ≤ (esp + extended (k * 4)).toNat ∧ (esp + extended (k * 4)).toNat + 4 ≤ esp.toNat + 128 := by
  have hreach := extended_reach k
  have hlt := (extended (k * 4)).isLt
  rw [BitVec.toNat_add]
  omega

theorem swapsAt_above {esp : Word} (hlow : 128 ≤ esp.toNat) (hhigh : esp.toNat + 128 ≤ 4294967296) {n x : Nat}
    (hx : esp.toNat + 128 ≤ x) (l : List Nat) (m : Bytes) : swapsAt n esp m l x = m x := by
  induction l generalizing m with
  | nil => rfl
  | cons i l ih =>
    have hlo := slot_reach hlow hhigh i
    have hhi := slot_reach hlow hhigh (n - 1 - i)
    refine (ih _).trans (exchange_of_not_mem ?_ ?_)
    · exact Or.inr (by omega)
    · exact Or.inr (by omega)

/-- With more arguments the last dword stays, and is not the first one. -/
theorem AtReversal.not_reversed {n a : Nat} {s : Cpu} (h : AtReversal n a s) (hn : 32 < n)
    (hlow : a + (reversal n).length + 128 ≤ (s.regs .esp).toNat)
    (hdiff : dword s.mem (s.regs .esp) 0 ≠ dword s.mem (s.regs .esp) (n - 1)) :
    ¬∃ s', Arrives (BitVec.ofNat 32 (a + (reversal n).length)) s s' ∧ Reversed n s s' := by
  have hstack := h.stack
  have hreach : ∀ k, (s.regs .esp).toNat - 128 ≤ (s.regs .esp + extended (k * 4)).toNat ∧
      (s.regs .esp + extended (k * 4)).toNat + 4 ≤ (s.regs .esp).toNat + 128 :=
    fun k => slot_reach (by omega) (by omega) k
  obtain ⟨s₁, harrives₁, -, hmem⟩ := reversal_runs h.code fun i _ =>
    ⟨Or.inr (by have := hreach i; omega), Or.inr (by have := hreach (n - 1 - i); omega)⟩
  rintro ⟨s', harrives, hreversed⟩
  rw [harrives.unique harrives₁] at hreversed
  have hkept : dword s₁.mem (s.regs .esp) (n - 1) = dword s.mem (s.regs .esp) (n - 1) := by
    refine X86.read_congr fun x hx _ => ?_
    rw [toNat_slot hstack (by omega)] at hx
    rw [hmem]
    exact swapsAt_above (by omega) (by omega) (by omega) _ _
  have hlast := hreversed.words (n - 1) (by omega)
  rw [hkept, Nat.sub_self] at hlast
  exact hdiff hlast.symm

/-- The code where programs are loaded, and one argument that is not 0. -/
def oneArgument (n : Nat) : Cpu where
  regs r := if r = .esp then 0x2F0000 else 0
  eip := BitVec.ofNat 32 (cgLoadAddr + Codegen.codeStart)
  zf := false
  sf := false
  of := false
  mem := Bytes.store (fun x => if x = 0x2F0000 then 1 else 0) (cgLoadAddr + Codegen.codeStart) (reversal n)

theorem oneArgument_mem {n x : Nat} (hn : n ≤ ppBufSize) (hx : 0x2F0000 ≤ x) :
    (oneArgument n).mem x = if x = 0x2F0000 then 1 else 0 := by
  have hmax : ppBufSize = 8192 := rfl
  have hbase : cgLoadAddr + Codegen.codeStart = 0x200005 := rfl
  have hlen := length_reversal n
  have hafter : cgLoadAddr + Codegen.codeStart + (reversal n).length ≤ x := by omega
  simp only [oneArgument, Bytes.store_of_not_mem (Or.inr hafter)]

theorem oneArgument_atReversal {n : Nat} (hn : n ≤ ppBufSize) :
    AtReversal n (cgLoadAddr + Codegen.codeStart) (oneArgument n) := by
  have hmax : ppBufSize = 8192 := rfl
  have hbase : cgLoadAddr + Codegen.codeStart = 0x200005 := rfl
  have hesp : ((oneArgument n).regs .esp).toNat = 0x2F0000 := rfl
  have hlen := length_reversal n
  refine ⟨⟨rfl, by omega, Bytes.slice_store_self _ _ _⟩, ?_, Or.inr ?_⟩
  · omega
  · omega

theorem oneArgument_not_reversed {n : Nat} (hn : n ≤ ppBufSize) (hmany : 32 < n) :
    ¬∃ s', Arrives (BitVec.ofNat 32 (cgLoadAddr + Codegen.codeStart + (reversal n).length)) (oneArgument n) s' ∧
      Reversed n (oneArgument n) s' := by
  have hmax : ppBufSize = 8192 := rfl
  have hbase : cgLoadAddr + Codegen.codeStart = 0x200005 := rfl
  have hesp : ((oneArgument n).regs .esp).toNat = 0x2F0000 := rfl
  have hat := oneArgument_atReversal hn
  have hlen := length_reversal n
  refine hat.not_reversed hmany (by omega) ?_
  have hfirst : dword (oneArgument n).mem ((oneArgument n).regs .esp) 0 = 1 := by
    have hread : X86.read (fun x => if x = 0x2F0000 then 1 else 0) 0x2F0000 = 1 := by decide
    rw [← hread]
    exact X86.read_congr fun x hx _ => oneArgument_mem hn hx
  have hlast : dword (oneArgument n).mem ((oneArgument n).regs .esp) (n - 1) = 0 := by
    have hzero : ∀ w, X86.read (fun _ => 0) w = 0 := fun _ => rfl
    rw [← hzero ((oneArgument n).regs .esp + BitVec.ofNat 32 (4 * (n - 1)))]
    refine X86.read_congr fun x hx _ => ?_
    rw [toNat_slot hat.stack (by omega), hesp] at hx
    rw [oneArgument_mem hn (by omega), if_neg (by omega)]
  rw [hfirst, hlast]
  decide

/-- For any number of arguments that a call can have: the code is what `cg_reverse_stack` appends, and it
turns them round, at any place and over any stack, if and only if there are at most 32. -/
theorem reverse_stack_iff {n : Nat} (hn : n ≤ ppBufSize) :
    (∀ c : Codegen, (c.reverseStack n).code = appendCode c.code (reversal n)) ∧
    ((∀ a s, AtReversal n a s →
      ∃ s', Arrives (BitVec.ofNat 32 (a + (reversal n).length)) s s' ∧ Reversed n s s') ↔ n ≤ 32) := by
  refine ⟨fun c => (CgCall.reverseStack n).run_code c, fun hall => ?_, fun hfew a s h => h.reversed hfew⟩
  by_contra hmany
  exact oneArgument_not_reversed hn (Nat.lt_of_not_le hmany) (hall _ _ (oneArgument_atReversal hn))

/-- Three arguments of `printf`. -/
theorem reverse_stack_three : (∀ c : Codegen, (c.reverseStack 3).code = appendCode c.code (reversal 3)) ∧
    ((∀ a s, AtReversal 3 a s →
      ∃ s', Arrives (BitVec.ofNat 32 (a + (reversal 3).length)) s s' ∧ Reversed 3 s s') ↔ 3 ≤ 32) :=
  reverse_stack_iff (by decide)

/-- A call with 33 arguments. -/
theorem reverse_stack_scrambled : ¬∀ n ≤ ppBufSize, ∀ a s, AtReversal n a s →
    ∃ s', Arrives (BitVec.ofNat 32 (a + (reversal n).length)) s s' ∧ Reversed n s s' :=
  fun hall => oneArgument_not_reversed (by decide) (by decide)
    (hall 33 (by decide) _ _ (oneArgument_atReversal (by decide)))

end RainbowOs.Cc
