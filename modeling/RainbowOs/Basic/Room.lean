import Mathlib.Data.List.TakeWhile
import RainbowOs.Basic.Program

/-!
# A full program store

`prog_insert_line` takes the old line of a number out before it asks whether
the new one fits. A line that does not fit leaves the store as it was just
where its number had no line.
-/

namespace RainbowOs.Basic

open RainbowOs.Lib

/-- What a call leaves of a list of lines: a line that does not fit is not inserted, but the old one
is gone. -/
def Op.settle (ls : List Line) : Op → List Line
  | .insert l => if size (Basic.insert l ls) ≤ progSize then Basic.insert l ls else erase l.num ls
  | .delete num => erase num ls

/-- The line does not fit once the old one of its number is gone. -/
def Program.Refuses (p : Program) (num : Nat) (tokens : List UInt8) : Prop :=
  ∃ q, p.deleteLine num = some q ∧ q.progEnd + (tokens.length + 3) % 256 > progSize

/-- The program is what calls have made of an empty one. -/
def Program.Reachable (p : Program) : Prop :=
  ∃ (p₀ : Program) (ops : List Op), (∀ op ∈ ops, op.Valid) ∧
    ops.foldlM (fun p op => op.run p) p₀.init = some p

variable {p p' q : Program} {ls : List Line} {num : Nat} {tokens : List UInt8}

/-- A line that does not fit is not inserted. -/
theorem insertLine_refused (hdelete : p.deleteLine num = some q)
    (hfull : q.progEnd + (tokens.length + 3) % 256 > progSize) : p.insertLine num tokens = some q := by
  simp only [Program.insertLine, hdelete, Option.bind_eq_bind, Option.bind_some, if_pos hfull]
  rfl

/-- Every call, whether there is room or not. -/
theorem Stored.settle (h : Stored p ls) {op : Op} (hop : op.Valid) :
    ∃ p', op.run p = some p' ∧ Stored p' (op.settle ls) := by
  cases op with
  | delete num => exact h.delete num
  | insert l =>
    rw [Op.settle]
    split
    · next hroom => exact h.insert hop hroom
    · next hfull =>
      obtain ⟨q, hdelete, hstored⟩ := h.delete l.num
      have hshort := Line.Valid.short hop
      have hmore : q.progEnd + (l.tokens.length + 3) % 256 > progSize := by
        rw [size_insert] at hfull
        rw [Nat.mod_eq_of_lt (by omega), hstored.progEnd]
        omega
      exact ⟨q, insertLine_refused hdelete hmore, hstored⟩

/-- Every run. -/
theorem Stored.settles (h : Stored p ls) {ops : List Op} (hops : ∀ op ∈ ops, op.Valid) :
    ∃ p', ops.foldlM (fun p op => op.run p) p = some p' ∧ Stored p' (ops.foldl Op.settle ls) := by
  induction ops generalizing p ls with
  | nil => exact ⟨p, rfl, h⟩
  | cons op ops ih =>
    obtain ⟨p₁, hrun, h₁⟩ := h.settle (hops op List.mem_cons_self)
    obtain ⟨p', hruns, h'⟩ := ih h₁ fun o ho => hops o (List.mem_cons_of_mem op ho)
    refine ⟨p', ?_, h'⟩
    rw [List.foldlM_cons, hrun]
    exact hruns

theorem Program.Reachable.stored (h : p.Reachable) : ∃ ls, Stored p ls := by
  obtain ⟨p₀, ops, hops, hruns⟩ := h
  obtain ⟨p', hruns', hstored⟩ := (Stored.init p₀).settles hops
  obtain rfl := Option.some.inj (hruns.symm.trans hruns')
  exact ⟨_, hstored⟩

/-- The deletion of a line shortens the store, and nothing else is deleted. -/
theorem Stored.deleteLine_eq_self_iff (h : Stored p ls) :
    p.deleteLine num = some p ↔ p.findLine num = some none := by
  rcases split_num num ls with ⟨pre, l, post, rfl, rfl⟩ | hnot
  · have hfind := h.findLine_mem
    obtain ⟨q, hdelete, hstored⟩ := h.delete l.num
    have hless : q.progEnd < p.progEnd := by
      rw [hstored.progEnd, h.progEnd, erase_mid h.sorted]
      simp only [size_append, size_cons]
      omega
    constructor
    · intro hsame
      obtain rfl := Option.some.inj (hdelete.symm.trans hsame)
      exact absurd hless (Nat.lt_irrefl _)
    · intro hnone
      cases hfind.symm.trans hnone
  · have hfind := h.findLine_not_mem hnot
    simp only [Program.deleteLine, hfind, Option.bind_eq_bind, Option.bind_some, iff_true]
    rfl

/-- A line that is not stored for want of room leaves the store as it was just where there was no
line of its number. -/
theorem refused_unchanged_iff (hreach : p.Reachable) (hfull : p.Refuses num tokens)
    (h : p.insertLine num tokens = some p') : p' = p ↔ p.findLine num = some none := by
  obtain ⟨ls, hstored⟩ := hreach.stored
  obtain ⟨q, hdelete, hmore⟩ := hfull
  obtain rfl := Option.some.inj (h.symm.trans (insertLine_refused hdelete hmore))
  rw [← hstored.deleteLine_eq_self_iff, hdelete, Option.some.injEq]

/-! ## A store that is filled -/

/-- A line behind all others. -/
theorem settle_last {l : Line} (hlast : ∀ a ∈ ls, a.num < l.num)
    (hroom : size ls + (l.tokens.length + 3) ≤ progSize) : Op.settle ls (.insert l) = ls ++ [l] := by
  have herase : erase l.num ls = ls := erase_of_not_mem fun a ha => Nat.ne_of_lt (hlast a ha)
  have hbefore : ∀ a ∈ ls, decide (¬l.num ≤ a.num) = true := fun a ha =>
    decide_eq_true (Nat.not_le_of_lt (hlast a ha))
  have hinsert : Basic.insert l ls = ls ++ [l] := by
    rw [insert_eq, herase, List.takeWhile_eq_self_iff.mpr hbefore, List.dropWhile_eq_nil_iff.mpr hbefore]
  rw [Op.settle, hinsert, if_pos]
  simpa using hroom

/-- Lines of 119 tokens, numbered from 1 on. -/
def longLines (n : Nat) : List Line := (List.range n).map fun i => ⟨i + 1, List.replicate 119 58⟩

theorem longLines_succ (n : Nat) : longLines (n + 1) = longLines n ++ [⟨n + 1, List.replicate 119 58⟩] := by
  rw [longLines, List.range_succ, List.map_append]
  rfl

theorem num_longLines {n : Nat} {l : Line} (h : l ∈ longLines n) : l.num ≤ n := by
  obtain ⟨i, hi, rfl⟩ := List.mem_map.mp h
  exact List.mem_range.mp hi

theorem valid_longLines {n : Nat} (hn : n < 65536) {l : Line} (h : l ∈ longLines n) : l.Valid := by
  have hle := num_longLines h
  obtain ⟨i, -, rfl⟩ := List.mem_map.mp h
  exact ⟨Nat.lt_of_le_of_lt hle hn, by simp, by simp⟩

theorem size_longLines (n : Nat) : size (longLines n) = 122 * n := by
  induction n with
  | zero => rfl
  | succ n ih =>
    rw [longLines_succ, size_append, ih]
    simp
    omega

/-- Each of them is stored, as far as there is room. -/
theorem settle_longLines {n : Nat} (h : 122 * n ≤ progSize) :
    ((longLines n).map Op.insert).foldl Op.settle [] = longLines n := by
  induction n with
  | zero => rfl
  | succ n ih =>
    rw [longLines_succ, List.map_append, List.foldl_append, ih (by omega)]
    refine settle_last (fun l hl => Nat.lt_succ_of_le (num_longLines hl)) ?_
    rw [size_longLines]
    simp
    omega

/-- All that fit, and a short one in the room that is left. -/
def filledLines : List Line := longLines 67 ++ [⟨100, [58]⟩]

theorem size_filledLines : size filledLines = 8178 := by
  rw [filledLines, size_append, size_longLines]
  rfl

theorem settle_filledLines : (filledLines.map Op.insert).foldl Op.settle [] = filledLines := by
  have hmax : progSize = 8192 := rfl
  rw [filledLines, List.map_append, List.foldl_append, settle_longLines (by omega), List.map_singleton,
    List.foldl_cons, List.foldl_nil]
  refine settle_last (fun l hl => Nat.lt_of_le_of_lt (num_longLines hl) (by decide)) ?_
  rw [size_longLines, hmax]
  simp

theorem valid_filledLines : ∀ op ∈ filledLines.map Op.insert, op.Valid := by
  intro op hop
  obtain ⟨l, hl, rfl⟩ := List.mem_map.mp hop
  rw [filledLines] at hl
  rcases List.mem_append.mp hl with hl | hl
  · exact valid_longLines (by omega) hl
  · obtain rfl := List.mem_singleton.mp hl
    exact ⟨by decide, by decide, by decide⟩

/-- The program of these lines. -/
theorem exists_filled : ∃ p : Program, p.Reachable ∧ Stored p filledLines := by
  obtain ⟨p, hruns, hstored⟩ := (Stored.init ⟨Bytes.zeros, 0⟩).settles valid_filledLines
  rw [settle_filledLines] at hstored
  exact ⟨p, ⟨_, _, valid_filledLines, hruns⟩, hstored⟩

/-- A long line does not fit, where the line of its number is no long one. -/
theorem Stored.refuses (h : Stored p filledLines) (hsize : size (erase num filledLines) ≥ 8174) :
    p.Refuses num (List.replicate 119 58) := by
  obtain ⟨q, hdelete, hstored⟩ := h.delete num
  have hmax : progSize = 8192 := rfl
  have hlen : ((List.replicate 119 (58 : UInt8)).length + 3) % 256 = 122 := by simp
  refine ⟨q, hdelete, ?_⟩
  rw [hlen, hstored.progEnd]
  omega

theorem refused_unchanged_iff_filled : ∃ p p' : Program, p.Refuses 200 (List.replicate 119 58) ∧
    p.insertLine 200 (List.replicate 119 58) = some p' ∧ (p' = p ↔ p.findLine 200 = some none) := by
  obtain ⟨p, hreach, hstored⟩ := exists_filled
  have hnew : erase 200 filledLines = filledLines := by
    refine erase_of_not_mem fun l hl => ?_
    rw [filledLines] at hl
    rcases List.mem_append.mp hl with hl | hl
    · have hle := num_longLines hl
      omega
    · obtain rfl := List.mem_singleton.mp hl
      decide
  have hfull : p.Refuses 200 (List.replicate 119 58) :=
    hstored.refuses (by rw [hnew, size_filledLines]; decide)
  obtain ⟨q, hdelete, hmore⟩ := hfull
  have hinsert := insertLine_refused hdelete hmore
  exact ⟨p, q, ⟨q, hdelete, hmore⟩, hinsert, refused_unchanged_iff hreach ⟨q, hdelete, hmore⟩ hinsert⟩

/-- A longer text for a line that is there deletes it. -/
theorem refused_deletes : ¬∀ (p p' : Program) (num : Nat) (tokens : List UInt8), p.Reachable →
    p.Refuses num tokens → p.insertLine num tokens = some p' → p' = p := by
  intro hclaim
  obtain ⟨p, hreach, hstored⟩ := exists_filled
  have hgone : erase 100 filledLines = longLines 67 := by
    rw [filledLines, erase, List.filter_append, ← erase, erase_of_not_mem]
    · exact List.append_nil _
    · exact fun l hl => Nat.ne_of_lt (Nat.lt_of_le_of_lt (num_longLines hl) (by decide))
  have hfull : p.Refuses 100 (List.replicate 119 58) :=
    hstored.refuses (by rw [hgone, size_longLines])
  obtain ⟨q, hdelete, hmore⟩ := hfull
  obtain rfl := hclaim p q 100 _ hreach ⟨q, hdelete, hmore⟩ (insertLine_refused hdelete hmore)
  cases hstored.findLine_mem.symm.trans (hstored.deleteLine_eq_self_iff.mp hdelete)

end RainbowOs.Basic
