import Mathlib.Tactic.Common
import Mathlib.Data.List.Basic

/-!
# Texts in lines

A text is split into lines at a separator: there is one more line than there
are separators, and the lines hold none. With `t.splitOn nl = before ++ line ::
after`, the text is the lines before, each ended by a separator, the line, and
the lines after, each preceded by one. So the line starts at the length of the
first part, and every position of the text is in one line or at its end.
-/

namespace RainbowOs.Lib

variable {α : Type} (nl : α)

/-- Lines that are each ended. -/
def ended (ls : List (List α)) : List α := ls.flatMap (· ++ [nl])

/-- Lines that each follow another. -/
def preceded (ls : List (List α)) : List α := ls.flatMap (nl :: ·)

@[simp] theorem ended_nil : ended nl [] = [] := rfl

@[simp] theorem ended_cons (l : List α) (ls : List (List α)) : ended nl (l :: ls) = l ++ nl :: ended nl ls := by
  rw [ended, List.flatMap_cons, List.append_assoc, List.singleton_append]
  rfl

@[simp] theorem ended_append (ls ls' : List (List α)) :
    ended nl (ls ++ ls') = ended nl ls ++ ended nl ls' := List.flatMap_append

theorem ended_concat (ls : List (List α)) (l : List α) : ended nl (ls ++ [l]) = ended nl ls ++ (l ++ [nl]) := by
  rw [ended_append, ended_cons, ended_nil]

@[simp] theorem preceded_nil : preceded nl [] = [] := rfl

@[simp] theorem preceded_cons (l : List α) (ls : List (List α)) :
    preceded nl (l :: ls) = nl :: (l ++ preceded nl ls) := rfl

@[simp] theorem preceded_append (ls ls' : List (List α)) :
    preceded nl (ls ++ ls') = preceded nl ls ++ preceded nl ls' := List.flatMap_append

/-- Lines that are ended are the lines between newlines, with one more behind them. -/
theorem ended_cons_eq (line : List α) (more : List (List α)) :
    ended nl (line :: more) = line ++ (preceded nl more ++ [nl]) := by
  induction more generalizing line with
  | nil => rw [ended_cons, ended_nil, preceded_nil, List.nil_append]
  | cons l more ih => rw [ended_cons, ih, preceded_cons, List.cons_append, List.append_assoc]

/-- A text from its lines. -/
theorem intercalate_eq (before : List (List α)) (line : List α) (after : List (List α)) :
    [nl].intercalate (before ++ line :: after) = ended nl before ++ (line ++ preceded nl after) := by
  induction before with
  | nil =>
    show [nl].intercalate (line :: after) = line ++ preceded nl after
    induction after generalizing line with
    | nil => simp
    | cons l after ih =>
      rw [List.intercalate_cons_cons, ih, preceded_cons, List.append_assoc, List.singleton_append]
  | cons l before ih =>
    rw [List.cons_append, List.intercalate_cons_of_ne_nil (by simp), ih, ended_cons]
    simp only [List.append_assoc, List.cons_append, List.nil_append]

section Split

variable [BEq α] [LawfulBEq α] {nl} {t : List α} {before after : List (List α)} {line : List α}

theorem not_mem_of_mem_splitOn {l : List α} (h : l ∈ t.splitOn nl) : nl ∉ l := by
  induction t generalizing l with
  | nil =>
    rw [List.splitOn_nil, List.mem_singleton] at h
    subst h
    exact List.not_mem_nil
  | cons x t ih =>
    rw [List.splitOn_cons_eq_if_modifyHead] at h
    obtain ⟨first, rest, hsplit⟩ := List.exists_cons_of_ne_nil (List.splitOn_ne_nil nl t)
    rw [hsplit] at h ih
    split at h
    · rcases List.mem_cons.mp h with rfl | hl
      · exact List.not_mem_nil
      · exact ih hl
    · next hx =>
      rw [List.modifyHead_cons] at h
      rcases List.mem_cons.mp h with rfl | hl
      · intro hmem
        rcases List.mem_cons.mp hmem with rfl | hmem
        · exact hx (beq_self_eq_true nl)
        · exact ih List.mem_cons_self hmem
      · exact ih (List.mem_cons_of_mem _ hl)

/-- The lines of a text. -/
theorem splitOn_eq_iff : t.splitOn nl = before ++ line :: after ↔
    t = ended nl before ++ (line ++ preceded nl after) ∧ ∀ l ∈ before ++ line :: after, nl ∉ l := by
  rw [← intercalate_eq]
  constructor
  · intro h
    rw [← h]
    exact ⟨(List.intercalate_splitOn nl).symm, fun l hl => not_mem_of_mem_splitOn hl⟩
  · rintro ⟨rfl, hfree⟩
    exact List.splitOn_intercalate nl hfree (by simp)

theorem count_of_not_mem {l : List α} (h : nl ∉ l) : l.count nl = 0 := List.count_eq_zero.mpr h

theorem count_ended {ls : List (List α)} (h : ∀ l ∈ ls, nl ∉ l) : (ended nl ls).count nl = ls.length := by
  induction ls with
  | nil => rfl
  | cons l ls ih =>
    rw [ended_cons, List.count_append, List.count_cons_self,
      count_of_not_mem (h l List.mem_cons_self), ih fun l hl => h l (List.mem_cons_of_mem _ hl),
      List.length_cons, Nat.zero_add]

/-- There is one line more than there are separators. -/
theorem length_splitOn : (t.splitOn nl).length = t.count nl + 1 := by
  obtain ⟨line, after, hsplit⟩ := List.exists_cons_of_ne_nil (List.splitOn_ne_nil nl t)
  obtain ⟨before, last, hlast⟩ : ∃ before last, line :: after = before ++ [last] :=
    ⟨_, _, (List.dropLast_append_getLast (List.cons_ne_nil line after)).symm⟩
  rw [hlast] at hsplit
  obtain ⟨ht, hfree⟩ := splitOn_eq_iff.mp hsplit
  rw [hsplit, ht, preceded_nil, List.append_nil, List.count_append,
    count_ended fun l hl => hfree l (List.mem_append_left _ hl),
    count_of_not_mem (hfree last (List.mem_append_right _ List.mem_cons_self)), List.length_append]
  rfl

/-- The lines of two texts, one after the other: the last of the first and the first of the second
are one line. -/
theorem splitOn_append {u v : List α} {first : List α} (hu : u.splitOn nl = before ++ [line])
    (hv : v.splitOn nl = first :: after) : (u ++ v).splitOn nl = before ++ (line ++ first) :: after := by
  obtain ⟨hu, hfree⟩ := splitOn_eq_iff.mp hu
  obtain ⟨hv, hfree'⟩ := splitOn_eq_iff.mp (show v.splitOn nl = [] ++ first :: after from hv)
  refine splitOn_eq_iff.mpr ⟨?_, fun l hl hmem => ?_⟩
  · rw [hu, hv]
    simp
  · rcases List.mem_append.mp hl with hl | hl
    · exact hfree l (List.mem_append_left _ hl) hmem
    · rcases List.mem_cons.mp hl with rfl | hl
      · rcases List.mem_append.mp hmem with hmem | hmem
        · exact hfree line (List.mem_append_right _ List.mem_cons_self) hmem
        · exact hfree' first List.mem_cons_self hmem
      · exact hfree' l (List.mem_cons_of_mem _ hl) hmem

/-- Every position is in one line, or at its end. -/
theorem exists_line_at {pos : Nat} (hpos : pos ≤ t.length) : ∃ before line after,
    t.splitOn nl = before ++ line :: after ∧
      (ended nl before).length ≤ pos ∧ pos ≤ (ended nl before).length + line.length := by
  obtain ⟨first, after, hdrop⟩ := List.exists_cons_of_ne_nil (List.splitOn_ne_nil nl (t.drop pos))
  have hne := List.splitOn_ne_nil nl (t.take pos)
  have htake := (List.dropLast_append_getLast hne).symm
  have hsplit := splitOn_append htake hdrop
  rw [List.take_append_drop] at hsplit
  refine ⟨_, _, after, hsplit, ?_⟩
  have hlength := congrArg List.length (splitOn_eq_iff.mp htake).1
  rw [List.length_take, preceded_nil, List.append_nil, List.length_append] at hlength
  rw [List.length_append]
  omega

/-- The separators before a position of a line are those of the lines before it. -/
theorem count_take_of_line (h : t.splitOn nl = before ++ line :: after) {pos : Nat}
    (hle : (ended nl before).length ≤ pos) (hpos : pos ≤ (ended nl before).length + line.length) :
    (t.take pos).count nl = before.length := by
  obtain ⟨ht, hfree⟩ := splitOn_eq_iff.mp h
  have htake : t.take pos = ended nl before ++ line.take (pos - (ended nl before).length) := by
    rw [ht, List.take_append, List.take_of_length_le hle,
      List.take_append_of_le_length (Nat.sub_le_iff_le_add'.mpr hpos)]
  have hline : nl ∉ line.take (pos - (ended nl before).length) := fun hmem =>
    hfree line (List.mem_append_right _ List.mem_cons_self) (List.mem_of_mem_take hmem)
  rw [htake, List.count_append, count_ended fun l hl => hfree l (List.mem_append_left _ hl),
    count_of_not_mem hline, Nat.add_zero]

end Split

end RainbowOs.Lib
