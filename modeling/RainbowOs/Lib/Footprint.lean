import RainbowOs.Lib.Prog
import RainbowOs.Lib.Bytes

/-!
# Footprints — a program touches what it logs

For a program over a byte memory whose log says which bytes each access
covers, `Footprint` is the statement that the log is complete: a byte no
access covers is neither changed nor looked at. The first half is a frame
law. The second is a locality law: a memory that agrees on the covered
bytes runs the program to the same result, with the same log, and the
bytes it shares with the first memory stay shared.

Both halves compose, so a program has a footprint when its primitive
accesses have one.
-/

namespace RainbowOs.Lib.Prog

variable {ε ι α β : Type} {covers : ι → Nat → Prop}

/-- The program changes and reads only the bytes its log covers. -/
def Footprint (covers : ι → Nat → Prop) (p : Prog Bytes ε ι α) : Prop := ∀ m : Bytes,
  (∀ k, (∀ x ∈ (p m).log, ¬ covers x k) → (p m).state k = m k) ∧
  ∀ m' : Bytes, (∀ x ∈ (p m).log, ∀ k, covers x k → m' k = m k) →
    (p m').out = (p m).out ∧ (p m').log = (p m).log ∧
      ∀ k, m' k = m k → (p m').state k = (p m).state k

namespace Footprint

theorem pure (a : α) : Footprint covers (pure a : Prog Bytes ε ι α) := fun _ =>
  ⟨fun _ _ => rfl, fun _ _ => ⟨rfl, rfl, fun _ h => h⟩⟩

theorem halt (e : ε) : Footprint covers (Prog.halt e : Prog Bytes ε ι α) := fun _ =>
  ⟨fun _ _ => rfl, fun _ _ => ⟨rfl, rfl, fun _ h => h⟩⟩

theorem bind {p : Prog Bytes ε ι α} {f : α → Prog Bytes ε ι β} (hp : Footprint covers p)
    (hf : ∀ a, Footprint covers (f a)) : Footprint covers (p >>= f) := by
  intro m
  obtain ⟨hframe, hlocal⟩ := hp m
  cases hrun : p m with
  | mk out s l =>
    rw [hrun] at hframe hlocal
    cases out with
    | halt e =>
      rw [bind_run_halt hrun]
      refine ⟨hframe, fun m' hm' => ?_⟩
      obtain ⟨hout, hlog, hstate⟩ := hlocal m' hm'
      rw [bind_run_halt (run_eq hout hlog)]
      exact ⟨rfl, rfl, hstate⟩
    | done a =>
      obtain ⟨hframe', hlocal'⟩ := hf a s
      rw [bind_run_done hrun]
      refine ⟨fun k hk => ?_, fun m' hm' => ?_⟩
      · have h1 := hframe k fun x hx => hk x (List.mem_append_left _ hx)
        have h2 := hframe' k fun x hx => hk x (List.mem_append_right _ hx)
        exact h2.trans h1
      · obtain ⟨hout, hlog, hstate⟩ := hlocal m' fun x hx => hm' x (List.mem_append_left _ hx)
        obtain ⟨hout', hlog', hstate'⟩ := hlocal' (p m').state fun x hx k hk =>
          hstate k (hm' x (List.mem_append_right _ hx) k hk)
        rw [bind_run_done (run_eq hout hlog)]
        exact ⟨hout', congrArg (l ++ ·) hlog', fun k hk => hstate' k (hstate k hk)⟩

variable {p : Prog Bytes ε ι α} {m m' : Bytes} {lo : Nat}

/-- A program that covers nothing below `lo` leaves everything below it. -/
theorem state_eq (h : Footprint covers p) {k : Nat}
    (hlog : ∀ x ∈ (p m).log, ¬ covers x k) : (p m).state k = m k :=
  (h m).1 k hlog

/-- The same result from a memory with the same covered bytes. -/
theorem out_eq (h : Footprint covers p) (hm : ∀ x ∈ (p m).log, ∀ k, covers x k → m' k = m k) :
    (p m').out = (p m).out :=
  ((h m).2 m' hm).1

end Footprint

end RainbowOs.Lib.Prog
