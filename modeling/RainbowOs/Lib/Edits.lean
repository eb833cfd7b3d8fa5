import Mathlib.Tactic.Common

/-!
# Edits

An edit of a text is a list of pieces: items that are kept, and parts
that are replaced. `olds` is the text before, `news` the text after. Where
no part that is replaced is empty, the pieces before a place of the text are
known from the whole, so that two edits of a text are compared part by part.
-/

namespace RainbowOs.Lib

/-- A piece of an edited text. -/
inductive Edit (α : Type) where
  | kept (a : α)
  | replaced (old new : List α)
  deriving DecidableEq, Repr

namespace Edit

variable {α : Type}

/-- What is there before. -/
def old : Edit α → List α
  | kept a => [a]
  | replaced old _ => old

/-- What is there after. -/
def new : Edit α → List α
  | kept a => [a]
  | replaced _ new => new

/-- The text before the edit. -/
def olds (ps : List (Edit α)) : List α := ps.flatMap old

/-- The text after it. -/
def news (ps : List (Edit α)) : List α := ps.flatMap new

@[simp] theorem olds_append (ps qs : List (Edit α)) : olds (ps ++ qs) = olds ps ++ olds qs :=
  List.flatMap_append

@[simp] theorem news_append (ps qs : List (Edit α)) : news (ps ++ qs) = news ps ++ news qs :=
  List.flatMap_append

@[simp] theorem olds_cons (p : Edit α) (ps : List (Edit α)) : olds (p :: ps) = p.old ++ olds ps :=
  List.flatMap_cons

@[simp] theorem news_cons (p : Edit α) (ps : List (Edit α)) : news (p :: ps) = p.new ++ news ps :=
  List.flatMap_cons

@[simp] theorem olds_kept (s : List α) : olds (s.map kept) = s := by
  induction s with
  | nil => rfl
  | cons a s ih => rw [List.map_cons, olds_cons, ih]; rfl

@[simp] theorem news_kept (s : List α) : news (s.map kept) = s := by
  induction s with
  | nil => rfl
  | cons a s ih => rw [List.map_cons, news_cons, ih]; rfl

/-- Pieces that are not empty are none where there is no text. -/
theorem eq_nil_of_olds {ps : List (Edit α)} (h : ∀ p ∈ ps, p.old ≠ []) (hnil : olds ps = []) : ps = [] := by
  cases ps with
  | nil => rfl
  | cons p ps =>
    rw [olds_cons, List.append_eq_nil_iff] at hnil
    exact absurd hnil.1 (h p List.mem_cons_self)

/-- Two edits that are the same are so before each place that both have. -/
theorem append_inj {ps ps' qs qs' : List (Edit α)} (hne : ∀ p ∈ ps ++ qs, p.old ≠ [])
    (holds : olds ps = olds ps') (h : ps ++ qs = ps' ++ qs') : ps = ps' ∧ qs = qs' := by
  rcases List.append_eq_append_iff.mp h with ⟨ms, rfl, rfl⟩ | ⟨ms, rfl, rfl⟩
  · have hms : ms = [] := by
      refine eq_nil_of_olds (fun p hp => hne p ?_) ?_
      · exact List.mem_append_right _ (List.mem_append_left _ hp)
      · simpa using holds
    rw [hms, List.append_nil, List.nil_append]
    exact ⟨rfl, rfl⟩
  · have hms : ms = [] := by
      refine eq_nil_of_olds (fun p hp => hne p ?_) ?_
      · exact List.mem_append_left _ (List.mem_append_right _ hp)
      · simpa using holds
    rw [hms, List.append_nil, List.nil_append]
    exact ⟨rfl, rfl⟩

end Edit

end RainbowOs.Lib
