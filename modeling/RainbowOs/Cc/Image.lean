import RainbowOs.Cc.Labels
import RainbowOs.Cc.Run

/-!
# The image in memory

A program that can be linked and stays within the limits leaves an image
that holds its code: every label that a call places ends where it was
placed, so the linkage of `cg_output` has it there. `placed_output` says so
of the whole program, `Placed.stretch` of any stretch of it.
-/

namespace RainbowOs.Cc

open RainbowOs.Lib
open X86 (Instr)

/-- The first `n` bytes of the image are in memory, at the address programs are loaded to. -/
def Loads (m out : Bytes) (n : Nat) : Prop := ∀ i < n, m (cgLoadAddr + i) = out i

/-! ## Where labels end -/

/-- A call leaves a label that is made and that it does not place. -/
theorem labelPos_run {call : CgCall} {c : Codegen} {id : Int} (hid : id < c.numLabels)
    (hplaces : call.places c ≠ some id) : (call.run c).labelPos id = c.labelPos id := by
  rw [call.run_labelPos]
  cases call with
  | newLabel | funcBegin =>
    simp only [CgCall.labels]
    split
    · rfl
    · exact Function.update_of_ne (Int.ne_of_lt hid) _ _
  | label id' =>
    simp only [CgCall.labels]
    split
    · exact Function.update_of_ne (fun h => hplaces (congrArg some h.symm)) _ _
    · rfl
  | funcEnd =>
    simp only [CgCall.labels]
    split
    · exact Function.update_of_ne (fun h => hplaces (congrArg some h.symm)) _ _
    · rfl
  | _ => rfl

/-- A call places its label where the code ends before it. -/
theorem labelPos_place {call : CgCall} {c : Codegen} {id : Int} (hplaces : call.places c = some id)
    (hid : 0 ≤ id ∧ id < cgLabelMax) : (call.run c).labelPos id = c.code.length := by
  rw [call.run_labelPos]
  cases call with
  | label id' =>
    cases hplaces
    simp only [CgCall.labels]
    rw [if_pos hid, Function.update_self]
  | funcEnd =>
    cases hplaces
    simp only [CgCall.labels]
    rw [if_pos hid, Function.update_self]
  | _ => cases hplaces

theorem labelPos_runCalls {calls : List CgCall} {c : Codegen} {id : Int} (hid : id < c.numLabels)
    (hplaces : id ∉ placedIds c calls) : (runCalls calls c).labelPos id = c.labelPos id := by
  induction calls generalizing c with
  | nil => rfl
  | cons call calls ih =>
    have hle : (c.numLabels : Int) ≤ (call.run c).numLabels :=
      Int.ofNat_le.mpr (numLabels_le_run call c)
    have hfirst : call.places c ≠ some id := fun h =>
      hplaces (List.mem_append_left _ (Option.mem_toList.mpr h))
    rw [runCalls_cons, ih (Int.lt_of_lt_of_le hid hle) fun h => hplaces (List.mem_append_right _ h)]
    exact labelPos_run hid hfirst

/-! ## The code of the image -/

/-- Memory with the instructions of all calls holds each of them, and has each label where the
linkage says. -/
theorem placed_of_slice {env : Linkage} {m : Bytes} {str : Bool} {c : Codegen} {calls : List CgCall}
    (h : Fits c calls) (hmade : Made c calls) (hnodup : (placedIds c calls).Nodup)
    (hnonneg : ∀ id ∈ placedIds c calls, 0 ≤ id) (henv : env.label = (runCalls calls c).labelPos)
    (hm : m.slice (codeBase + c.code.length) ((runCalls calls c).code.length - c.code.length) =
      (assemble env str c calls).flatMap Instr.encode) : Placed env m str c calls := by
  induction calls generalizing c str with
  | nil => trivial
  | cons call calls ih =>
    obtain ⟨hfit, hfits⟩ := h
    obtain ⟨hid, hmade⟩ := hmade
    have hlen := length_run hfit.code
    have hle := length_le_runCalls calls (call.run c)
    have hraw := length_asm env str c call
    have hsum : (runCalls (call :: calls) c).code.length - c.code.length =
        call.raw.length + ((runCalls calls (call.run c)).code.length - (call.run c).code.length) := by
      rw [runCalls_cons]
      omega
    rw [hsum, Bytes.slice_add, assemble, List.flatMap_append] at hm
    obtain ⟨hfirst, hrest⟩ := List.append_inj hm (by rw [Bytes.length_slice, hraw])
    obtain ⟨-, hnodup', hdisjoint⟩ := List.nodup_append.mp hnodup
    refine ⟨hfit.code, hfirst, fun id hplaces => ?_, ih hfits hmade hnodup' ?_ henv ?_⟩
    · have hmem : id ∈ (call.places c).toList := Option.mem_toList.mpr hplaces
      have hlt := hid id hplaces
      have hroom := hfit.labels
      have hbelow : (c.numLabels : Int) ≤ (call.run c).numLabels :=
        Int.ofNat_le.mpr (numLabels_le_run call c)
      have hzero := hnonneg id (List.mem_append_left _ hmem)
      rw [henv, runCalls_cons, labelPos_runCalls (Int.lt_of_lt_of_le hlt hbelow)
        fun h => hdisjoint id hmem id h rfl]
      exact labelPos_place hplaces ⟨hzero, by omega⟩
    · exact fun id hid => hnonneg id (List.mem_append_right _ hid)
    · rw [hlen, ← Nat.add_assoc]
      rw [hlen] at hrest
      exact hrest

/-- Calls that fit make no more labels than there are. -/
theorem Fits.freshIn {c : Codegen} {calls : List CgCall} (h : Fits c calls)
    (hc : c.numLabels ≤ cgLabelMax) : c.numLabels + freshIn calls ≤ cgLabelMax := by
  induction calls generalizing c with
  | nil => exact hc
  | cons call calls ih =>
    obtain ⟨hfit, hfits⟩ := h
    have hrest := ih hfits (by rw [hfit.run_numLabels]; exact hfit.labels)
    rw [hfit.run_numLabels] at hrest
    rw [Placing.freshIn_cons]
    omega

/-- The code of a program that is linked and loaded. -/
theorem placed_output {c : Codegen} {calls : List CgCall} (h : Fits c.init calls)
    (hstr : StringsLoaded false calls) (hrets : RetsIn c.init calls)
    (hlabels : Placing [] c.init calls) (syms : Symbols) (buf : Bytes) {m : Bytes}
    (hm : Loads m ((runCalls calls c.init).output syms buf) (runCalls calls c.init).stringStart) :
    Placed ((runCalls calls c.init).linkage syms) m false c.init calls := by
  obtain ⟨hmade, hnodup, hin⟩ := hlabels List.nodup_nil (h.freshIn (Nat.zero_le _))
  apply placed_of_slice h hmade hnodup _ rfl
  · rw [← slice_output h.emits hstr hrets syms buf]
    refine Eq.trans (congrArg (m.slice codeBase) (Nat.sub_zero _)) ?_
    apply List.ext_getElem?
    intro i
    by_cases hi : i < (runCalls calls c.init).code.length
    · rw [Bytes.getElem?_slice hi, Bytes.getElem?_slice hi]
      have hload := hm (Codegen.codeStart + i) (Nat.add_lt_add_left hi _)
      rw [← Nat.add_assoc] at hload
      exact congrArg some hload
    · rw [List.getElem?_eq_none, List.getElem?_eq_none] <;> rw [Bytes.length_slice] <;> omega
  · intro id hid
    have hlow := (hin id hid).resolve_left List.not_mem_nil
    exact Int.le_trans (Int.natCast_nonneg _) hlow.1

/-- The code of a stretch, after one that leaves no string to be loaded. -/
theorem Placed.stretch {env : Linkage} {m : Bytes} {str : Bool} {c : Codegen}
    {pre calls post : List CgCall} (h : Placed env m str c (pre ++ (calls ++ post)))
    (hstr : StringsLoaded str pre) : Placed env m false (runCalls pre c) (calls ++ post) := by
  induction pre generalizing c str with
  | nil =>
    rw [show str = false from hstr] at h
    exact h
  | cons call pre ih => exact ih h.tail hstr.2

end RainbowOs.Cc
