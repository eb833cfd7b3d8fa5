import Mathlib.Data.List.Basic
import Mathlib.Tactic.Common

/-!
# Histories that are walked both ways

A log of entries with marks between its groups (`none` is a mark), and a
place in it: what is behind the place, the nearest entry first, and what is
ahead. A walk goes over one mark, if one is next, and over the entries up to
the mark after them. `Trail` says which states lie on one side, group by
group; a place with a trail on both sides keeps them, each walk moving one
state from one side to the other.
-/

namespace RainbowOs.Lib.History

variable {E S : Type}

/-- A mark is next. -/
def Marked (l : List (Option E)) : Prop := l.head? = some none

/-- What is after a mark. -/
def skip : List (Option E) → List (Option E)
  | none :: l => l
  | l => l

/-- The mark that is next, if one is. -/
def marks : List (Option E) → List (Option E)
  | none :: _ => [none]
  | _ => []

/-- The entries up to a mark. -/
def group : List (Option E) → List E
  | some e :: l => e :: group l
  | _ => []

/-- What is left after them. -/
def rest : List (Option E) → List (Option E)
  | some _ :: l => rest l
  | l => l

/-- One side after a walk away from it, and the other side after it. -/
def walk (side other : List (Option E)) : List (Option E) × List (Option E) :=
  (rest (skip side), (group (skip side)).reverse.map some ++ (marks side ++ other))

/-- A mark is put behind the place, where there are entries and no mark. -/
def mark : List (Option E) → List (Option E)
  | some e :: l => none :: some e :: l
  | l => l

/-- What is ahead after that: a mark forgets it. -/
def aheadOfMark : (past future : List (Option E)) → List (Option E)
  | some _ :: _, _ => []
  | _, future => future

/-- There is nothing, or a mark is next. -/
def Closed (l : List (Option E)) : Prop := l = [] ∨ Marked l

/-- The states along one side: a group of entries `g` leads from `s` to `c` when `R g s c`. -/
def Trail (R : List E → S → S → Prop) : List (Option E) → S → List S → Prop
  | l, _, [] => skip l = []
  | l, s, c :: cs => ∃ g l', g ≠ [] ∧ skip l = g.map some ++ l' ∧ Closed l' ∧ R g s c ∧ Trail R l' c cs

/-- A place in a history, with the states before and after it. -/
structure Place (back forward : List E → S → S → Prop) (past future : List (Option E))
    (before : List S) (s : S) (after : List S) : Prop where
  behind : Trail back past s before
  ahead : Trail forward future s after
  once : ¬(Marked past ∧ Marked future)
  seam : past = [] ∨ future = [] ∨ Marked past ∨ Marked future

/-- The entries lead from one state to another, one by one. -/
def Chain (step : E → S → S → Prop) : List E → S → S → Prop
  | [], s, c => s = c
  | e :: g, s, c => ∃ s', step e s s' ∧ Chain step g s' c

/-- The entries are taken back, one by one. -/
def Unchain (step : E → S → S → Prop) : List E → S → S → Prop := Chain fun e s s' => step e s' s

variable {R R' back forward : List E → S → S → Prop} {l l' past future : List (Option E)}
  {g : List E} {s c : S} {cs before after : List S}

@[simp] theorem marked_none_cons (l : List (Option E)) : Marked (none :: l) := rfl

@[simp] theorem not_marked_nil : ¬Marked ([] : List (Option E)) := nofun

@[simp] theorem not_marked_some_cons (e : E) (l : List (Option E)) : ¬Marked (some e :: l) := nofun

theorem skip_of_not_marked (h : ¬Marked l) : skip l = l ∧ marks l = [] := by
  cases l with
  | nil => exact ⟨rfl, rfl⟩
  | cons x l =>
    cases x with
    | none => exact absurd rfl h
    | some e => exact ⟨rfl, rfl⟩

theorem group_append (g : List E) (h : Closed l) :
    group (g.map some ++ l) = g ∧ rest (g.map some ++ l) = l := by
  induction g with
  | nil =>
    rcases h with rfl | h
    · exact ⟨rfl, rfl⟩
    · obtain ⟨l, rfl⟩ := List.head?_eq_some_iff.mp h
      exact ⟨rfl, rfl⟩
  | cons e g ih => exact ⟨congrArg (e :: ·) ih.1, ih.2⟩

theorem not_marked_map (hg : g ≠ []) (l : List (Option E)) : ¬Marked (g.map some ++ l) := by
  obtain ⟨e, g, rfl⟩ := List.exists_cons_of_ne_nil hg
  exact not_marked_some_cons e _

theorem closed_mark (l : List (Option E)) : Closed (mark l) := by
  cases l with
  | nil => exact .inl rfl
  | cons x l => cases x <;> exact .inr rfl

theorem Chain.append {step : E → S → S → Prop} {g g' : List E} {s c s' : S}
    (h : Chain step g s c) (h' : Chain step g' c s') : Chain step (g ++ g') s s' := by
  induction g generalizing s with
  | nil =>
    obtain rfl : s = c := h
    exact h'
  | cons e g ih =>
    obtain ⟨t, he, hg⟩ := h
    exact ⟨t, he, ih hg⟩

/-- A chain leads through a state after each of its entries. -/
theorem Chain.cut {step : E → S → S → Prop} {g : List E} {s c : S} (h : Chain step g s c) (n : Nat) :
    ∃ s', Chain step (g.take n) s s' ∧ Chain step (g.drop n) s' c := by
  induction g generalizing n s with
  | nil =>
    rw [List.take_nil, List.drop_nil]
    exact ⟨s, rfl, h⟩
  | cons e g ih =>
    cases n with
    | zero => exact ⟨s, rfl, h⟩
    | succ n =>
      obtain ⟨t, he, hg⟩ := h
      obtain ⟨s', htake, hdrop⟩ := ih hg n
      exact ⟨s', ⟨t, he, htake⟩, hdrop⟩

/-- What led here is taken back in the opposite order. -/
theorem Chain.reverse {step : E → S → S → Prop} {g : List E} {s c : S} (h : Chain step g s c) :
    Unchain step g.reverse c s := by
  induction g generalizing s with
  | nil => exact (show s = c from h).symm
  | cons e g ih =>
    obtain ⟨t, he, hg⟩ := h
    rw [List.reverse_cons]
    exact (ih hg).append ⟨s, he, rfl⟩

theorem Unchain.reverse {step : E → S → S → Prop} {g : List E} {s c : S} (h : Unchain step g s c) :
    Chain step g.reverse c s :=
  @Chain.reverse E S (fun e s s' => step e s' s) g s c h

/-- A mark more does not change where a trail leads. -/
theorem Trail.mark (h : Trail R l s cs) : Trail R (mark l) s cs := by
  cases l with
  | nil => exact h
  | cons x l =>
    cases x with
    | none => exact h
    | some e =>
      cases cs with
      | nil => cases h
      | cons c cs => exact h

/-- A group in front of a closed trail. -/
theorem Trail.cons (hg : g ≠ []) (hl : Closed l) (hR : R g s c) (h : Trail R l c cs) :
    Trail R (g.map some ++ l) s (c :: cs) :=
  ⟨g, l, hg, (skip_of_not_marked (not_marked_map hg l)).1, hl, hR, h⟩

/-- The two sides of a place are alike. -/
theorem Place.swap (h : Place back forward past future before s after) :
    Place forward back future past after s before := by
  refine ⟨h.ahead, h.behind, fun hm => h.once hm.symm, ?_⟩
  rcases h.seam with h | h | h | h
  · exact .inr (.inl h)
  · exact .inl h
  · exact .inr (.inr (.inr h))
  · exact .inr (.inr (.inl h))

/-- A walk back goes over the entries that lead to the state before. -/
theorem Place.walk (hR : ∀ g s c, back g s c → forward g.reverse c s)
    (h : Place back forward past future (c :: before) s after) :
    back (group (skip past)) s c ∧ group (skip past) ≠ [] ∧
      Place back forward (walk past future).1 (walk past future).2 before c (s :: after) := by
  obtain ⟨g, p', hg, hskip, hclosed, hback, htrail⟩ := h.behind
  obtain ⟨hgroup, hrest⟩ := group_append g hclosed
  have hother : Closed (marks past ++ future) ∧ Trail forward (marks past ++ future) s after := by
    by_cases hmark : Marked past
    · obtain ⟨p, rfl⟩ := List.head?_eq_some_iff.mp hmark
      have hnot : ¬Marked future := fun hf => h.once ⟨hmark, hf⟩
      refine ⟨.inr rfl, ?_⟩
      have hfuture := h.ahead
      cases after with
      | nil =>
        show future = []
        rw [← (skip_of_not_marked hnot).1]
        exact hfuture
      | cons a after =>
        obtain ⟨g', l', hg', hskip', hrest'⟩ := hfuture
        exact ⟨g', l', hg', by rw [← hskip', (skip_of_not_marked hnot).1]; rfl, hrest'⟩
    · rw [(skip_of_not_marked hmark).2, List.nil_append]
      refine ⟨?_, h.ahead⟩
      rcases h.seam with rfl | hnil | hm | hm
      · exact absurd hskip (by simp [skip, hg])
      · exact .inl hnil
      · exact absurd hm hmark
      · exact .inr hm
  have hreverse : g.reverse ≠ [] := by simpa using hg
  rw [History.walk, hskip, hgroup, hrest]
  refine ⟨hback, hg, htrail, ?_, fun hm => ?_, ?_⟩
  · exact Trail.cons hreverse hother.1 (hR g s c hback) hother.2
  · exact not_marked_map hreverse _ hm.2
  · rcases hclosed with hnil | hm
    · exact .inl hnil
    · exact .inr (.inr (.inl hm))

/-- At the start there is at most a mark to go over. -/
theorem Place.walk_nil (h : Place back forward past future [] s after) :
    Place back forward [] (marks past ++ future) [] s after := by
  have hskip : skip past = [] := h.behind
  by_cases hmark : Marked past
  · obtain ⟨p, rfl⟩ := List.head?_eq_some_iff.mp hmark
    have hnot : ¬Marked future := fun hf => h.once ⟨hmark, hf⟩
    have hsame : skip (none :: future) = skip future := (skip_of_not_marked hnot).1.symm
    refine ⟨rfl, ?_, fun hm => not_marked_nil hm.1, .inl rfl⟩
    have hahead := h.ahead
    cases after with
    | nil => exact hsame.trans hahead
    | cons a after =>
      obtain ⟨g, l', hg, hskip', hrest⟩ := hahead
      exact ⟨g, l', hg, hsame.trans hskip', hrest⟩
  · rw [(skip_of_not_marked hmark).2]
    exact ⟨rfl, h.ahead, fun hm => not_marked_nil hm.1, .inl rfl⟩

end RainbowOs.Lib.History
