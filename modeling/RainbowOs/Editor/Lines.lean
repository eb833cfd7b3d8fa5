import RainbowOs.Editor.Cursor
import RainbowOs.Editor.Motions
import RainbowOs.Lib.Lines

/-!
# The line index

The functions of the line index read the buffer one character at a time. Of a
buffer that holds a text they answer what the lines of the text are: how many
there are, where each starts and how long it is, and which of them the cursor
is in.
-/

namespace RainbowOs.Editor

open RainbowOs.Lib

/-- The text of the buffer, as functions that only read see it. -/
structure Reads (b : Buffer) (t : List UInt8) : Prop where
  length : b.bufLength = t.length
  charAt : ∀ pos, b.bufCharAt pos = t.getD pos 0

variable {b : Buffer} {t : List UInt8}

theorem Shows.reads {l r : List UInt8} (h : Shows b l r) : Reads b (l ++ r) :=
  ⟨Split.In.length (s := ⟨l, r⟩) h, Split.In.charAt (s := ⟨l, r⟩) h⟩

/-- The lines of a text. -/
abbrev lines (t : List UInt8) : List (List UInt8) := t.splitOn 10

theorem lines_eq_iff {before after : List (List UInt8)} {line : List UInt8} :
    lines t = before ++ line :: after ↔
      t = ended 10 before ++ (line ++ preceded 10 after) ∧ ∀ l ∈ before ++ line :: after, 10 ∉ l :=
  splitOn_eq_iff

/-- A position is in one line, or at its end. -/
theorem exists_line {pos : Nat} (hpos : pos ≤ t.length) : ∃ before line after,
    lines t = before ++ line :: after ∧
      (ended 10 before).length ≤ pos ∧ pos ≤ (ended 10 before).length + line.length :=
  exists_line_at hpos

/-- Each number of a line is that of one. -/
theorem exists_line_of_lt {k : Nat} (hk : k < (lines t).length) : ∃ before line after,
    lines t = before ++ line :: after ∧ before.length = k := by
  refine ⟨_, _, _, (List.take_append_drop k _).symm.trans
    (congrArg _ (List.drop_eq_getElem_cons hk)), ?_⟩
  rw [List.length_take]
  omega

theorem lineStartFrom_succ (line n i cur : Nat) : lineStartFrom b line (n + 1) i cur =
    if b.bufCharAt i = 10 then
      if cur + 1 = line then i + 1 else lineStartFrom b line n (i + 1) (cur + 1)
    else lineStartFrom b line n (i + 1) cur := rfl

/-- The column behind so many characters of a line. -/
theorem colFrom_eq {start m : Nat} (hstart : start = 0 ∨ b.bufCharAt (start - 1) = 10)
    (hfree : ∀ k < m, b.bufCharAt (start + k) ≠ 10) (col : Nat) : colFrom b (start + m) col = col + m := by
  induction m generalizing col with
  | zero =>
    cases start with
    | zero => rfl
    | succ k =>
      obtain hzero | hchar := hstart
      · cases hzero
      · rw [Nat.add_sub_cancel] at hchar
        rw [Nat.add_zero, colFrom, if_pos hchar]
        rfl
  | succ m ih =>
    rw [← Nat.add_assoc, colFrom, if_neg (hfree m (Nat.lt_succ_self m)),
      ih fun k hk => hfree k (Nat.lt_succ_of_lt hk)]
    omega

theorem takeWhile_line {after : List (List UInt8)} {line : List UInt8} (hline : 10 ∉ line) :
    (line ++ preceded 10 after).takeWhile (· ≠ 10) = line := by
  have hall : ∀ c ∈ line, decide (c ≠ 10) = true := fun c hc => decide_eq_true fun h => by
    subst h
    exact hline hc
  rw [List.takeWhile_append_of_pos hall]
  cases after with
  | nil => exact List.append_nil line
  | cons l after => exact List.append_nil line

namespace Reads

section Loops

variable (hb : Reads b t) {p : UInt8 → Bool} {i n : Nat} {c : UInt8} {l r : List UInt8}

include hb

theorem charAt_of_drop (h : t.drop i = c :: r) : b.bufCharAt i = c := by
  rw [hb.charAt, List.getD_eq_getElem?_getD, ← List.head?_drop, h]
  rfl

theorem whileFrom_eq (h : t.drop i = r) : whileFrom b p r.length i = i + (r.takeWhile p).length := by
  induction r generalizing i with
  | nil => rfl
  | cons c r ih =>
    have hnext : t.drop (i + 1) = r := by rw [← List.drop_drop, h, List.drop_one, List.tail_cons]
    rw [List.length_cons, whileFrom, hb.charAt_of_drop h, List.takeWhile_cons]
    split
    · rw [ih hnext, List.length_cons, Nat.add_assoc, Nat.add_comm 1]
    · rfl

/-- A loop that goes on as long as the characters are of a kind. -/
theorem skipWhile_eq (p : UInt8 → Bool) (i : Nat) :
    skipWhile b p b.bufLength i = i + ((t.drop i).takeWhile p).length := by
  rw [skipWhile, hb.length, ← List.length_drop, hb.whileFrom_eq rfl]

theorem newlines_eq (hn : n ≤ t.length) : newlines b n = (t.take n).count 10 := by
  induction n with
  | zero => rfl
  | succ n ih =>
    have hlt : n < t.length := hn
    have hchar : b.bufCharAt n = t[n] := hb.charAt_of_drop (List.drop_eq_getElem_cons hlt)
    have hlast : newlines b (n + 1) = newlines b n + if b.bufCharAt n = 10 then 1 else 0 := by
      rw [newlines, List.range_succ, List.countP_append, List.countP_singleton]
      simp only [decide_eq_true_eq]
      rfl
    rw [hlast, ih (Nat.le_of_succ_le hn), hchar, List.take_add_one, List.getElem?_eq_getElem hlt,
      Option.toList_some, List.count_append, List.count_singleton]
    simp only [beq_iff_eq]

theorem lineStartFrom_line (hl : 10 ∉ l) (h : t.drop i = l ++ r) (line cur : Nat) :
    lineStartFrom b line (l ++ r).length i cur = lineStartFrom b line r.length (i + l.length) cur := by
  induction l generalizing i with
  | nil => rfl
  | cons c l ih =>
    have hnext : t.drop (i + 1) = l ++ r := by rw [← List.drop_drop, h]; rfl
    have hc : c ≠ 10 := fun hc => hl (hc ▸ List.mem_cons_self)
    rw [List.cons_append, List.length_cons, lineStartFrom, hb.charAt_of_drop h, if_neg hc,
      ih (fun hmem => hl (List.mem_cons_of_mem _ hmem)) hnext, List.length_cons, Nat.add_assoc, Nat.add_comm 1]

/-- The line after so many is found behind their newlines. -/
theorem lineStartFrom_eq {before : List (List UInt8)} (hne : before ≠ []) (hfree : ∀ l ∈ before, 10 ∉ l)
    (h : t.drop i = ended 10 before ++ r) (cur : Nat) :
    lineStartFrom b (cur + before.length) (ended 10 before ++ r).length i cur =
      i + (ended 10 before).length := by
  induction before generalizing i cur with
  | nil => exact absurd rfl hne
  | cons l before ih =>
    have hl := hfree l List.mem_cons_self
    rw [ended_cons, List.append_assoc, List.cons_append] at h ⊢
    have hafter : t.drop (i + l.length) = 10 :: (ended 10 before ++ r) := by
      rw [← List.drop_drop, h, List.drop_left]
    have hnext : t.drop (i + l.length + 1) = ended 10 before ++ r := by
      rw [← List.drop_drop, hafter, List.drop_one, List.tail_cons]
    rw [hb.lineStartFrom_line hl h, List.length_cons, List.length_cons, lineStartFrom_succ,
      hb.charAt_of_drop hafter, if_pos rfl]
    cases before with
    | nil =>
      rw [List.length_nil, if_pos rfl, List.length_append]
      rfl
    | cons l' before =>
      have hmore : cur + 1 ≠ cur + ((l' :: before).length + 1) := by simp
      rw [if_neg hmore, show cur + ((l' :: before).length + 1) = cur + 1 + (l' :: before).length by omega,
        ih (by simp) (fun l hl => hfree l (List.mem_cons_of_mem _ hl)) hnext, List.length_append,
        List.length_cons]
      omega

end Loops

section Index

variable (hb : Reads b t) {before after : List (List UInt8)} {line : List UInt8}

include hb

theorem lineCount : bufLineCount b = (lines t).length := by
  rw [bufLineCount, hb.length, hb.newlines_eq (Nat.le_refl _), List.take_length, length_splitOn, Nat.add_comm]

theorem lineStart (h : lines t = before ++ line :: after) :
    bufLineStart b before.length = (ended 10 before).length := by
  obtain ⟨ht, hfree⟩ := lines_eq_iff.mp h
  rw [bufLineStart]
  split
  · next hzero =>
    rw [List.length_eq_zero_iff.mp hzero]
    rfl
  · next hpos =>
    have hne : before ≠ [] := fun hnil => hpos (hnil ▸ rfl)
    have hfound := hb.lineStartFrom_eq (i := 0) hne (fun l hl => hfree l (List.mem_append_left _ hl)) ht 0
    rw [← ht, Nat.zero_add, Nat.zero_add] at hfound
    rw [hb.length, hfound]

theorem lineLength (h : lines t = before ++ line :: after) :
    bufLineLength b before.length = line.length := by
  obtain ⟨ht, hfree⟩ := lines_eq_iff.mp h
  have hline := hfree line (List.mem_append_right _ List.mem_cons_self)
  have hdrop : t.drop (ended 10 before).length = line ++ preceded 10 after := by rw [ht, List.drop_left]
  rw [bufLineLength, hb.lineStart h, hb.skipWhile_eq, hdrop, takeWhile_line hline, Nat.add_sub_cancel_left]

/-- The characters of a line are no newlines. -/
theorem no_newline (h : lines t = before ++ line :: after) (i : Nat) (hle : (ended 10 before).length ≤ i)
    (hlt : i < (ended 10 before).length + line.length) : b.bufCharAt i ≠ 10 := by
  obtain ⟨ht, hfree⟩ := lines_eq_iff.mp h
  obtain ⟨k, rfl⟩ := Nat.exists_eq_add_of_le hle
  have hk : k < line.length := by omega
  have hread : b.bufCharAt ((ended 10 before).length + k) = (line)[k] := by
    refine hb.charAt_of_drop (r := line.drop (k + 1) ++ preceded 10 after) ?_
    rw [← List.drop_drop, ht, List.drop_left, List.drop_append_of_le_length (Nat.le_of_lt hk),
      List.drop_eq_getElem_cons hk]
    rfl
  intro hchar
  have hmem : (line)[k] ∈ line := List.getElem_mem hk
  rw [← hread, hchar] at hmem
  exact hfree line (List.mem_append_right _ List.mem_cons_self) hmem

/-- The line that the cursor is in, and its place there. -/
theorem cursor (h : lines t = before ++ line :: after) (hle : (ended 10 before).length ≤ b.bufCursorPos)
    (hpos : b.bufCursorPos ≤ (ended 10 before).length + line.length) :
    bufCursorLine b = before.length ∧ bufCursorCol b = b.bufCursorPos - (ended 10 before).length := by
  obtain ⟨ht, hfree⟩ := lines_eq_iff.mp h
  have hlength : b.bufCursorPos ≤ t.length := by
    rw [ht, List.length_append, List.length_append]
    omega
  refine ⟨?_, ?_⟩
  · rw [bufCursorLine, hb.newlines_eq hlength, count_take_of_line h hle hpos]
  · obtain ⟨m, hm⟩ := Nat.exists_eq_add_of_le hle
    have hstart : (ended 10 before).length = 0 ∨ b.bufCharAt ((ended 10 before).length - 1) = 10 := by
      rcases List.eq_nil_or_concat' before with rfl | ⟨before, l, rfl⟩
      · exact .inl rfl
      · refine .inr (hb.charAt_of_drop (r := line ++ preceded 10 after) ?_)
        rw [ht, ended_concat, ← List.append_assoc, List.append_assoc _ [10], List.length_append,
          List.length_singleton, Nat.add_sub_cancel, List.drop_left]
        rfl
    have hin : ∀ k < m, b.bufCharAt ((ended 10 before).length + k) ≠ 10 := fun k hk =>
      hb.no_newline h _ (Nat.le_add_right _ _) (by omega)
    rw [bufCursorCol, hm, colFrom_eq hstart hin, Nat.zero_add, Nat.add_sub_cancel_left]

end Index

end Reads

/-- The line index agrees with itself: the cursor is in a line of the text, as far from its start as
its column says, and the lines follow each other from the start of the text to its end. -/
theorem line_index_consistent (hgap : b.gapStart ≤ b.gapEnd) (hfits : b.gapEnd ≤ bufferSize) :
    bufCursorLine b < bufLineCount b ∧
    bufLineStart b (bufCursorLine b) + bufCursorCol b = b.bufCursorPos ∧
    bufLineStart b 0 = 0 ∧
    ∀ k < bufLineCount b,
      (∀ i, bufLineStart b k ≤ i → i < bufLineStart b k + bufLineLength b k → b.bufCharAt i ≠ 10) ∧
      (k + 1 < bufLineCount b → bufLineStart b (k + 1) = bufLineStart b k + bufLineLength b k + 1) ∧
      (k + 1 = bufLineCount b → bufLineStart b k + bufLineLength b k = b.bufLength) := by
  have hsplit := b.split_in hgap hfits
  generalize b.split = s at hsplit
  obtain ⟨l, r⟩ := s
  have hb : Reads b (l ++ r) := Shows.reads hsplit
  have hcursor : b.bufCursorPos = l.length := Shows.gapStart hsplit
  have hpos : b.bufCursorPos ≤ (l ++ r).length := by
    rw [hcursor, List.length_append]
    exact Nat.le_add_right _ _
  obtain ⟨before, line, after, hlines, hle, hend⟩ := exists_line hpos
  obtain ⟨hline, hcol⟩ := hb.cursor hlines hle hend
  rw [hb.lineCount, hline, hcol, hb.lineStart hlines]
  refine ⟨?_, Nat.add_sub_cancel' hle, rfl, fun k hk => ?_⟩
  · rw [hlines, List.length_append, List.length_cons]
    omega
  obtain ⟨before, line, after, hlines, rfl⟩ := exists_line_of_lt hk
  obtain ⟨ht, hfree⟩ := lines_eq_iff.mp hlines
  rw [hb.lineStart hlines, hb.lineLength hlines]
  refine ⟨hb.no_newline hlines, fun hmore => ?_, fun hlast => ?_⟩
  · cases after with
    | nil =>
      rw [hlines, List.length_append, List.length_singleton] at hmore
      exact absurd hmore (Nat.lt_irrefl _)
    | cons next after =>
      have hnext : lines (l ++ r) = (before ++ [line]) ++ next :: after := by rw [hlines, List.append_cons]
      have hstart := hb.lineStart hnext
      rw [List.length_append, List.length_singleton] at hstart
      rw [hstart, ended_concat, List.length_append, List.length_append, List.length_singleton, Nat.add_assoc]
  · have hnil : after = [] := by
      rw [hlines, List.length_append, List.length_cons] at hlast
      exact List.length_eq_zero_iff.mp (by omega)
    rw [hb.length, ht, hnil, preceded_nil, List.append_nil, List.length_append]

/-- A line, and an empty one. -/
def twoLines : Buffer := blankBuffer.bufLoad [97, 10]

theorem line_index_consistent_two : bufCursorLine twoLines < bufLineCount twoLines ∧
    bufLineStart twoLines (bufCursorLine twoLines) + bufCursorCol twoLines = twoLines.bufCursorPos ∧
    bufLineStart twoLines 0 = 0 ∧
    ∀ k < bufLineCount twoLines,
      (∀ i, bufLineStart twoLines k ≤ i → i < bufLineStart twoLines k + bufLineLength twoLines k →
        twoLines.bufCharAt i ≠ 10) ∧
      (k + 1 < bufLineCount twoLines →
        bufLineStart twoLines (k + 1) = bufLineStart twoLines k + bufLineLength twoLines k + 1) ∧
      (k + 1 = bufLineCount twoLines →
        bufLineStart twoLines k + bufLineLength twoLines k = twoLines.bufLength) :=
  line_index_consistent (Nat.le_of_ble_eq_true rfl) (Nat.le_refl _)

end RainbowOs.Editor
