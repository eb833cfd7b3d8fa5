import Mathlib.Tactic.Common
import Mathlib.Data.List.Infix
import Mathlib.Logic.Function.Basic

/-!
# Keys and latches

Keys go down and up, and one flag is kept for a group of them: a key of the
group that goes down sets it, and a key of the group that goes up clears it.
For one key the flag is the state of the key. For more it may forget a key that
is still down, and it does so in exactly one way: a key of the group goes up
while another one is held.
-/

namespace RainbowOs.Lib

/-- A key goes down, for the first time or again, or it goes up. -/
inductive Move (κ : Type) where
  | press (k : κ)
  | release (k : κ)
  deriving DecidableEq

namespace Move

variable {κ : Type} [DecidableEq κ]

def key : Move κ → κ
  | .press k => k
  | .release k => k

/-- The keys that are held after a move. -/
def hold (h : κ → Bool) : Move κ → κ → Bool
  | .press k => Function.update h k true
  | .release k => Function.update h k false

/-- The keys that are held after a run. -/
def held (h : κ → Bool) (ms : List (Move κ)) : κ → Bool := ms.foldl hold h

/-- The flag of the group `G` after a move. -/
def latch (G : List κ) (b : Bool) : Move κ → Bool
  | .press k => if k ∈ G then true else b
  | .release k => if k ∈ G then false else b

/-- The flag after a run. -/
def latched (G : List κ) (b : Bool) (ms : List (Move κ)) : Bool := ms.foldl (latch G) b

/-- The flag says whether a key of the group is held. -/
def Tells (G : List κ) (b : Bool) (h : κ → Bool) : Prop := b = true ↔ ∃ k ∈ G, h k = true

/-- A key of the group goes up while another one is held. -/
def LetsGo (G : List κ) (h : κ → Bool) : Move κ → Prop
  | .press _ => False
  | .release k => k ∈ G ∧ ∃ k' ∈ G, k' ≠ k ∧ h k' = true

instance (G : List κ) (h : κ → Bool) (m : Move κ) : Decidable (LetsGo G h m) := by
  cases m <;> unfold LetsGo <;> infer_instance

variable {G : List κ} {b : Bool} {h : κ → Bool} {k : κ}

@[simp] theorem hold_press_self (h : κ → Bool) (k : κ) : hold h (.press k) k = true :=
  Function.update_self ..

@[simp] theorem hold_release_self (h : κ → Bool) (k : κ) : hold h (.release k) k = false :=
  Function.update_self ..

theorem hold_of_ne {m : Move κ} (hk : k ≠ m.key) : hold h m k = h k := by
  cases m <;> exact Function.update_of_ne hk ..

theorem held_concat (h : κ → Bool) (ms : List (Move κ)) (m : Move κ) :
    held h (ms ++ [m]) = hold (held h ms) m :=
  List.foldl_concat ..

theorem latched_concat (G : List κ) (b : Bool) (ms : List (Move κ)) (m : Move κ) :
    latched G b (ms ++ [m]) = latch G (latched G b ms) m :=
  List.foldl_concat ..

theorem latch_of_not_mem {m : Move κ} (hm : m.key ∉ G) : latch G b m = b := by
  cases m <;> exact if_neg hm

theorem Tells.press (hb : Tells G b h) (k : κ) : Tells G (latch G b (.press k)) (hold h (.press k)) := by
  by_cases hk : k ∈ G
  · rw [latch, if_pos hk]
    exact ⟨fun _ => ⟨k, hk, hold_press_self h k⟩, fun _ => rfl⟩
  · rw [latch, if_neg hk]
    refine hb.trans (exists_congr fun k' => and_congr_right fun hk' => ?_)
    rw [hold_of_ne (m := .press k) (ne_of_mem_of_not_mem hk' hk)]

theorem Tells.release_iff (hb : Tells G b h) (k : κ) :
    Tells G (latch G b (.release k)) (hold h (.release k)) ↔ ¬LetsGo G h (.release k) := by
  by_cases hk : k ∈ G
  · rw [latch, if_pos hk]
    constructor
    · rintro htells ⟨-, k', hk', hne, hheld⟩
      refine absurd (htells.mpr ⟨k', hk', ?_⟩) Bool.false_ne_true
      rw [hold_of_ne (m := .release k) hne, hheld]
    · intro hfree
      refine ⟨fun hf => absurd hf Bool.false_ne_true, fun ⟨k', hk', hheld⟩ => ?_⟩
      by_cases hne : k' = k
      · rw [hne, hold_release_self] at hheld
        exact hheld
      · rw [hold_of_ne (m := .release k) hne] at hheld
        exact absurd ⟨hk, k', hk', hne, hheld⟩ hfree
  · rw [latch, if_neg hk]
    refine ⟨fun _ hgo => hk hgo.1, fun _ => hb.trans ?_⟩
    refine exists_congr fun k' => and_congr_right fun hk' => ?_
    rw [hold_of_ne (m := .release k) (ne_of_mem_of_not_mem hk' hk)]

/-- One move. -/
theorem Tells.step_iff (hb : Tells G b h) (m : Move κ) :
    Tells G (latch G b m) (hold h m) ↔ ¬LetsGo G h m := by
  cases m with
  | press k => exact ⟨fun _ => id, fun _ => hb.press k⟩
  | release k => exact hb.release_iff k

/-- A run: the flag is right all the way if and only if no key of the group goes up while another one
is held. -/
theorem Tells.run_iff (hb : Tells G b h) (ms : List (Move κ)) :
    (∀ pre, pre <+: ms → Tells G (latched G b pre) (held h pre)) ↔
      ∀ pre m, pre ++ [m] <+: ms → ¬LetsGo G (held h pre) m := by
  induction ms generalizing b h with
  | nil =>
    refine ⟨fun _ pre m hpre => ?_, fun _ pre hpre => ?_⟩
    · exact absurd (List.prefix_nil.mp hpre) (by simp)
    · rw [List.prefix_nil.mp hpre]
      exact hb
  | cons x ms ih =>
    constructor
    · intro hall
      have hx : Tells G (latch G b x) (hold h x) := hall [x] ⟨ms, rfl⟩
      intro pre m hpre
      cases pre with
      | nil =>
        obtain ⟨rfl, -⟩ := List.cons_prefix_cons.mp hpre
        exact (hb.step_iff m).mp hx
      | cons y pre =>
        obtain ⟨rfl, hrest⟩ := List.cons_prefix_cons.mp hpre
        exact (ih hx).mp (fun p hp => hall (y :: p) (List.cons_prefix_cons.mpr ⟨rfl, hp⟩)) pre m hrest
    · intro hfree
      have hx : Tells G (latch G b x) (hold h x) := (hb.step_iff x).mpr (hfree [] x ⟨ms, rfl⟩)
      intro pre hpre
      cases pre with
      | nil => exact hb
      | cons y pre =>
        obtain ⟨rfl, hrest⟩ := List.cons_prefix_cons.mp hpre
        refine (ih hx).mpr (fun p m hp => ?_) pre hrest
        exact hfree (y :: p) m (List.cons_prefix_cons.mpr ⟨rfl, hp⟩)

/-- The flag of one key is the state of the key. -/
theorem latched_singleton (k : κ) (h : κ → Bool) (ms : List (Move κ)) :
    latched [k] (h k) ms = held h ms k := by
  induction ms generalizing h with
  | nil => rfl
  | cons m ms ih =>
    have hstep : latch [k] (h k) m = hold h m k := by
      cases m <;> simp [latch, hold, Function.update_apply, eq_comm]
    show latched [k] (latch [k] (h k) m) ms = held (hold h m) ms k
    rw [hstep, ih]

end Move

end RainbowOs.Lib
