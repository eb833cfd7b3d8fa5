import RainbowOs.Basic.Exec
import RainbowOs.Lib.Monitor

/-!
# Statements beside a monitor

Most of what a statement does touches neither the program nor its control:
it reads tokens, evaluates expressions, prints and sets variables. `Frame`
says what a monitor has to allow for this, with the states inside a
statement and those after one; the rules for the statements follow from it,
down to the transfers, which each monitor watches for itself.
-/

namespace RainbowOs.Basic

open RainbowOs.Lib
open Prog (Watched)

/-- The states differ in nothing that controls the program. -/
structure Alike (s s' : Interp) : Prop where
  prog : s'.prog = s.prog
  line : s'.exec.currentLine = s.exec.currentLine
  jumped : s'.exec.jumped = s.exec.jumped
  running : s'.exec.running = s.exec.running
  stack : s'.exec.gosubStack = s.exec.gosubStack
  loops : s'.exec.forStack = s.exec.forStack

/-- What a program of the interpreter does inside a statement. -/
abbrev Stays {γ α : Type} (step : γ → Event → γ → Prop) (P : γ → Interp → Prop) (c : Exec α) : Prop :=
  Watched step P c fun _ => P

/-- The rest of a statement. -/
abbrev Ends {γ : Type} (step : γ → Event → γ → Prop) (P Q : γ → Interp → Prop) (c : Exec Unit) : Prop :=
  Watched step P c fun _ => Q

/-- The monitor allows what is not control: `P` are the states inside a statement, `Q` those after
one. -/
structure Frame {γ : Type} (step : γ → Event → γ → Prop) (P Q : γ → Interp → Prop) : Prop where
  puts : ∀ g l, step g (.put l) g
  clears : ∀ g, step g .clear g
  alike : ∀ {g s s'}, Alike s s' → P g s → P g s'
  ends : ∀ {g s}, P g s → Q g s
  stops : ∀ {g s s'}, P g s → s'.prog = s.prog → s'.exec.running = false →
    s'.exec.forStack = s.exec.forStack → Q g s'
  goes : ∀ target, Ends step P Q (jumpTo target)

namespace Frame

variable {γ : Type} {step : γ → Event → γ → Prop} {P Q : γ → Interp → Prop}

theorem stays_pure {α : Type} (a : α) : Stays step P (pure a : Exec α) := Watched.pure fun _ _ h => h

theorem stays_get : Stays step P (Prog.get : Exec Interp) := Watched.get fun _ _ h => h

theorem stays_getPos : Stays step P getPos := stays_get.bind fun _ => stays_pure _

theorem stays_peek (t : Tokens) (len : Nat) : Stays step P (peek t len) :=
  stays_getPos.bind fun _ => stays_pure _

/-- The state is what it is. -/
theorem watched_get : Watched step P (Prog.get : Exec Interp) fun s' g s => s' = s ∧ P g s :=
  Watched.get fun _ _ h => ⟨rfl, h⟩

theorem watched_getPos : Watched step P getPos fun pos g s => pos = s.exec.pos ∧ P g s :=
  watched_get.bind fun _ => Watched.pure fun _ _ ⟨hs, h⟩ => ⟨congrArg (fun s => s.exec.pos) hs, h⟩

variable (h : Frame step P Q) (t : Tokens) (len : Nat)

include h

theorem toEnds {c : Exec Unit} (hc : Stays step P c) : Ends step P Q c :=
  hc.mono (fun _ _ hs => hs) fun _ _ _ hs => h.ends hs

theorem stays_modify {f : Interp → Interp} (hf : ∀ s, Alike s (f s)) :
    Stays step P (Prog.modify f : Exec Unit) :=
  Watched.modify fun _ s hs => h.alike (hf s) hs

theorem stays_setPos (f : Nat → Nat) : Stays step P (setPos f) :=
  h.stays_modify fun _ => ⟨rfl, rfl, rfl, rfl, rfl, rfl⟩

theorem stays_put (s : List UInt8) : Stays step P (put s) := Watched.tell fun g _ hs => ⟨g, h.puts g s, hs⟩

theorem ends_setError (msg : String) : Ends step P Q (setError msg) :=
  Watched.modify fun _ _ hs => h.stops hs rfl rfl rfl

theorem stays_getchar : Stays step P getchar := by
  refine stays_get.bind fun _ => Watched.bind (h.stays_modify ?_) fun _ => stays_pure _
  exact fun _ => ⟨rfl, rfl, rfl, rfl, rfl, rfl⟩

theorem stays_readInputLine (max : Nat) : ∀ fuel buf, Stays step P (readInputLine max fuel buf)
  | 0, _ => Watched.halt _
  | fuel + 1, buf => by
    unfold readInputLine
    refine h.stays_getchar.bind fun c => ?_
    split
    · exact (h.stays_put _).bind fun _ => stays_pure _
    split
    · split
      · exact (h.stays_put _).bind fun _ => stays_readInputLine max fuel _
      · exact stays_readInputLine max fuel _
    split
    · exact stays_pure _
    split
    · exact (h.stays_put _).bind fun _ => stays_readInputLine max fuel _
    · exact stays_readInputLine max fuel _

/-! ## Tokens and expressions -/

theorem stays_skip : Stays step P (skip t len) := h.stays_setPos _

theorem stays_optional (c : UInt8) : Stays step P (optional t len c) := by
  refine (stays_peek t len).bind fun _ => ?_
  split
  · exact h.stays_setPos _
  · exact stays_pure _

theorem stays_evaluate (fuel : Nat) : Stays step P (evaluate t len fuel) := by
  unfold evaluate
  refine stays_get.bind fun s => ?_
  split
  · exact Watched.halt _
  · refine Watched.bind (h.stays_modify ?_) fun _ => stays_pure _
    exact fun _ => ⟨rfl, rfl, rfl, rfl, rfl, rfl⟩

theorem ends_withExpr {fuel : Nat} {k : Value → Exec Unit} (hk : ∀ v, Ends step P Q (k v)) :
    Ends step P Q (withExpr t len fuel k) := by
  refine (h.stays_evaluate t len fuel).bind fun v => stays_get.bind fun s => ?_
  split
  · exact h.ends_setError _
  · exact hk v

theorem ends_withNum {fuel : Nat} {k : Int → Exec Unit} (hk : ∀ n, Ends step P Q (k n)) :
    Ends step P Q (withNum t len fuel k) :=
  h.ends_withExpr t len fun
    | .num n => hk n
    | .str _ => h.ends_setError _

theorem stays_parseVarTarget : Stays step P (parseVarTarget t len) := by
  unfold parseVarTarget
  refine (h.stays_skip t len).bind fun _ => (stays_peek t len).bind fun tok => ?_
  split
  · refine (h.stays_setPos _).bind fun _ => (stays_peek t len).bind fun c => ?_
    split
    · exact (h.stays_setPos _).bind fun _ => stays_pure _
    split
    · exact (h.stays_setPos _).bind fun _ => stays_pure _
    · exact stays_pure _
  · exact stays_pure _

theorem stays_setNum (name : UInt8) (idx n : Int) : Stays step P (setNum name idx n) := by
  refine h.stays_modify fun s => ?_
  split <;> exact ⟨rfl, rfl, rfl, rfl, rfl, rfl⟩

theorem stays_setStr (name : UInt8) (v : List UInt8) : Stays step P (setStr name v) := by
  refine h.stays_modify fun s => ?_
  split <;> exact ⟨rfl, rfl, rfl, rfl, rfl, rfl⟩

theorem ends_expect (c : UInt8) {k : Exec Unit} (hk : Ends step P Q k) :
    Ends step P Q (expect t len c k) := by
  unfold expect
  refine (h.stays_skip t len).bind fun _ => (stays_peek t len).bind fun tok => ?_
  split
  · exact h.ends_setError _
  · exact (h.stays_setPos _).bind fun _ => hk

theorem ends_withStep {fuel : Nat} {k : Int → Exec Unit} (hk : ∀ n, Ends step P Q (k n)) :
    Ends step P Q (withStep t len fuel k) := by
  unfold withStep
  refine (h.stays_skip t len).bind fun _ => (stays_peek t len).bind fun tok => ?_
  split
  · exact (h.stays_setPos _).bind fun _ => h.ends_withNum t len hk
  · exact hk 1

theorem stays_nextName : Stays step P (nextName t len) := by
  unfold nextName
  refine (h.stays_skip t len).bind fun _ => (stays_peek t len).bind fun c => ?_
  split
  · refine (h.stays_setPos _).bind fun _ => (stays_peek t len).bind fun d => ?_
    split
    · exact (h.stays_setPos _).bind fun _ => stays_pure _
    · exact stays_pure _
  · exact stays_pure _

/-! ## The statements -/

theorem ends_printLoop (fuel : Nat) : ∀ rounds newline,
    Ends step P Q (printLoop t len fuel rounds newline)
  | 0, _ => Watched.halt _
  | rounds + 1, newline => by
    have hfinish : Ends step P Q (if newline then put [10] else pure ()) := by
      split
      · exact h.toEnds (h.stays_put _)
      · exact h.toEnds (stays_pure _)
    unfold printLoop
    refine stays_getPos.bind fun pos => ?_
    split
    · refine (h.stays_skip t len).bind fun _ => stays_getPos.bind fun pos => ?_
      split
      · exact hfinish
      split
      · exact (h.stays_setPos _).bind fun _ => ends_printLoop fuel rounds _
      split
      · exact (h.stays_put _).bind fun _ => (h.stays_setPos _).bind fun _ => ends_printLoop fuel rounds _
      · exact h.ends_withExpr t len fun v => (h.stays_put _).bind fun _ => ends_printLoop fuel rounds _
    · exact hfinish

theorem ends_execPrint (fuel : Nat) : Ends step P Q (execPrint t len fuel) :=
  (h.stays_setPos _).bind fun _ => h.ends_printLoop t len fuel fuel true

theorem stays_inputPrompt : Stays step P (inputPrompt t len) := by
  unfold inputPrompt
  refine (stays_peek t len).bind fun c => ?_
  split
  · exact (h.stays_setPos _).bind fun _ => stays_getPos.bind fun pos => (h.stays_setPos _).bind fun _ =>
      (h.stays_put _).bind fun _ => (h.stays_setPos _).bind fun _ => (h.stays_skip t len).bind fun _ =>
      h.stays_optional t len 59
  · exact stays_pure _

theorem ends_execInput (fuel : Nat) : Ends step P Q (execInput t len fuel) := by
  unfold execInput
  refine (h.stays_setPos _).bind fun _ => (h.stays_skip t len).bind fun _ =>
    (h.stays_inputPrompt t len).bind fun _ => (h.stays_put _).bind fun _ =>
    (h.stays_parseVarTarget t len).bind fun v => ?_
  split
  · exact h.ends_setError _
  · refine (h.stays_readInputLine 80 fuel []).bind fun ibuf => ?_
    split
    · exact h.toEnds (h.stays_setStr _ _)
    · exact h.toEnds (h.stays_setNum _ _ _)

theorem ends_execAssignment (fuel : Nat) : Ends step P Q (execAssignment t len fuel) := by
  unfold execAssignment
  refine (h.stays_parseVarTarget t len).bind fun v => ?_
  split
  · exact h.ends_setError _
  · refine (h.stays_skip t len).bind fun _ => (stays_peek t len).bind fun c => ?_
    split
    · exact h.ends_setError _
    · refine (h.stays_setPos _).bind fun _ => h.ends_withExpr t len fun value => ?_
      split
      · exact h.toEnds (h.stays_setStr _ _)
      · exact h.toEnds (h.stays_setNum _ _ _)
      · exact h.ends_setError _

theorem ends_execGoto (fuel : Nat) : Ends step P Q (execGoto t len fuel) :=
  (h.stays_setPos _).bind fun _ => h.ends_withNum t len h.goes

theorem ends_execPoke (fuel : Nat) : Ends step P Q (execPoke t len fuel) := by
  unfold execPoke
  refine (h.stays_setPos _).bind fun _ => h.ends_withNum t len fun addr => (h.stays_skip t len).bind fun _ =>
    (h.stays_optional t len 44).bind fun _ => h.ends_withNum t len fun val => h.toEnds (h.stays_modify ?_)
  exact fun _ => ⟨rfl, rfl, rfl, rfl, rfl, rfl⟩

theorem ends_execThen {statement : Exec Unit} (hs : Ends step P Q statement) :
    Ends step P Q (execThen t len statement) := by
  unfold execThen
  refine (h.stays_skip t len).bind fun _ => (stays_peek t len).bind fun c => ?_
  split
  · exact (h.stays_setPos _).bind fun _ => stays_getPos.bind fun pos => (h.stays_setPos _).bind fun _ =>
      h.goes _
  · exact hs

theorem ends_execElse {statement : Exec Unit} (hs : Ends step P Q statement) :
    Ends step P Q (execElse t len statement) := by
  unfold execElse
  refine (h.stays_setPos _).bind fun _ => stays_getPos.bind fun pos => ?_
  split
  · exact (h.stays_setPos _).bind fun _ => hs
  · exact h.toEnds (stays_pure ())

theorem ends_execIf (fuel : Nat) {statement : Exec Unit} (hs : Ends step P Q statement) :
    Ends step P Q (execIf t len fuel statement) := by
  unfold execIf
  refine (h.stays_setPos _).bind fun _ => h.ends_withExpr t len fun cond => (h.stays_skip t len).bind fun _ =>
    (h.stays_optional t len _).bind fun _ => ?_
  split
  · exact h.ends_execThen t len hs
  · exact h.ends_execElse t len hs

theorem ends_execFor (fuel : Nat) (henter : ∀ v limit st, Ends step P Q (enterLoop v limit st)) :
    Ends step P Q (execFor t len fuel) := by
  unfold execFor
  refine (h.stays_setPos _).bind fun _ => (h.stays_parseVarTarget t len).bind fun v => ?_
  split
  · exact h.ends_setError _
  split
  · exact h.ends_setError _
  · exact h.ends_expect t len _ (h.ends_withNum t len fun start => h.ends_expect t len _
      (h.ends_withNum t len fun limit => h.ends_withStep t len fun st =>
        (h.stays_setNum _ _ _).bind fun _ => henter _ limit st))

/-- Every statement ends, if those do that control the program. -/
theorem ends_execSwitch (fuel : Nat) {statement : Exec Unit} (hs : Ends step P Q statement)
    (hgosub : Ends step P Q (execGosub t len fuel)) (hreturn : Ends step P Q (execReturn t))
    (hfor : Ends step P Q (execFor t len fuel)) (hnext : Ends step P Q (execNext t len)) (tok : UInt8) :
    Ends step P Q (execSwitch t len fuel statement tok) := by
  unfold execSwitch
  refine Watched.ite (fun _ => h.ends_execPrint t len fuel) fun _ => ?_
  refine Watched.ite (fun _ => h.ends_execInput t len fuel) fun _ => ?_
  refine Watched.ite (fun _ => (h.stays_setPos _).bind fun _ => h.ends_execAssignment t len fuel) fun _ => ?_
  refine Watched.ite (fun _ => h.ends_execAssignment t len fuel) fun _ => ?_
  refine Watched.ite (fun _ => h.ends_execIf t len fuel hs) fun _ => ?_
  refine Watched.ite (fun _ => h.ends_execGoto t len fuel) fun _ => ?_
  refine Watched.ite (fun _ => hgosub) fun _ => ?_
  refine Watched.ite (fun _ => hreturn) fun _ => ?_
  refine Watched.ite (fun _ => hfor) fun _ => ?_
  refine Watched.ite (fun _ => hnext) fun _ => ?_
  refine Watched.ite (fun _ => h.toEnds (h.stays_setPos _)) fun _ => ?_
  refine Watched.ite (fun _ => (h.stays_setPos _).bind fun _ => Watched.modify ?_) fun _ => ?_
  · exact fun g s hs => h.stops hs rfl rfl rfl
  refine Watched.ite (fun _ => h.ends_execPoke t len fuel) fun _ => ?_
  refine Watched.ite (fun _ => (h.stays_setPos _).bind fun _ => Watched.tell ?_) fun _ => ?_
  · exact fun g s hs => ⟨g, h.clears g, h.ends hs⟩
  refine Watched.ite (fun _ => (h.stays_setPos _).bind fun _ => h.toEnds (h.stays_modify ?_)) fun _ => ?_
  · exact fun _ => ⟨rfl, rfl, rfl, rfl, rfl, rfl⟩
  exact h.ends_setError _

end Frame

end RainbowOs.Basic
