import Mathlib.Data.List.Dedup
import RainbowOs.Basic.Jumps
import RainbowOs.Basic.Tokenizer

/-!
# The stack of loops

`FOR` puts its loop on the stack without looking whether the variable is
there, and only a loop that runs to its end, or one around it that does, is
taken off. `Disciplined` is what a `FOR` is to find; a monitor that knows
whether a loop has been entered again before it was taken off shows that
nothing else goes wrong.
-/

namespace RainbowOs.Basic

open RainbowOs.Lib
open Prog (Watched Reads)

/-- The variable of a loop. -/
def ForEntry.loop (f : ForEntry) : UInt8 × Int := (f.var, f.varIdx)

/-- Each variable is on the stack once at most. -/
def OneEach (stack : List ForEntry) : Prop := (stack.map ForEntry.loop).Nodup

/-- The loops that are nested, when one is entered. -/
def nested (var : UInt8) (varIdx : Int) (stack : List ForEntry) : List (UInt8 × Int) :=
  ((var, varIdx) :: stack.map ForEntry.loop).dedup

/-- A loop is entered while its variable is on the stack. -/
def Reenters : Event → Prop
  | .loop var varIdx stack => (var, varIdx) ∈ stack.map ForEntry.loop
  | _ => False

/-- What is asked of a `FOR`: each variable is on the stack once at most, before it and after it, and
the stack is full only if more than 8 loops are nested. -/
def Disciplined : Event → Prop
  | .loop var varIdx stack => OneEach stack ∧ (var, varIdx) ∉ stack.map ForEntry.loop ∧
      (8 ≤ stack.length → 8 < (nested var varIdx stack).length)
  | _ => True

/-- A monitor that knows whether every loop so far was entered without its variable on the stack. -/
inductive Entered : Prop → Event → Prop → Prop where
  | loop {ok : Prop} {var : UInt8} {varIdx : Int} {stack : List ForEntry} (h : ok → OneEach stack) :
      Entered ok (.loop var varIdx stack) (ok ∧ ¬Reenters (.loop var varIdx stack))
  | other {ok : Prop} {e : Event} (h : ∀ var varIdx stack, e ≠ .loop var varIdx stack) :
      Entered ok e ok

/-- What the monitor knows of the stack. -/
def Known (ok : Prop) (s : Interp) : Prop := ok → OneEach s.exec.forStack

/-- The program goes with the monitor. -/
abbrev Enters (c : Exec Unit) : Prop := Ends Entered Known Known c

theorem enters_jumpTo (target : Int) : Enters (jumpTo target) := by
  unfold jumpTo
  refine Frame.stays_get.bind fun s => ?_
  split
  · exact Watched.halt _
  · exact Watched.modify fun _ _ h => h
  · refine Frame.stays_getPos.bind fun pos => Watched.bind (Q := fun _ => Known)
      (Watched.tell fun ok _ h => ⟨ok, .other nofun, h⟩) fun _ => Watched.modify fun _ _ h => h

/-- What is not control does not touch the stack of loops. -/
theorem enters_frame : Frame Entered Known Known where
  puts _ _ := .other nofun
  clears _ := .other nofun
  alike hs h := fun hok => by
    rw [hs.loops]
    exact h hok
  ends h := h
  stops h _ _ hloops := fun hok => by
    rw [hloops]
    exact h hok
  goes := enters_jumpTo

theorem enters_execGosub (t : Tokens) (len fuel : Nat) : Enters (execGosub t len fuel) := by
  refine (enters_frame.stays_setPos _).bind fun _ => enters_frame.ends_withNum t len fun n =>
    Frame.stays_get.bind fun s => ?_
  split
  · exact enters_frame.ends_setError _
  · refine Frame.stays_getPos.bind fun pos => Watched.bind (Q := fun _ => Known)
      (Watched.tell fun ok _ h => ⟨ok, .other nofun, h⟩) fun _ => ?_
    exact Watched.bind (Q := fun _ => Known) (Watched.modify fun _ _ h => h) fun _ => enters_jumpTo n

theorem enters_execReturn (t : Tokens) : Enters (execReturn t) := by
  unfold execReturn
  refine (enters_frame.stays_setPos _).bind fun _ => Frame.stays_get.bind fun s => ?_
  split
  · exact enters_frame.ends_setError _
  · exact Watched.bind (Q := fun _ => Known) (Watched.tell fun ok _ h => ⟨ok, .other nofun, h⟩) fun _ =>
      Watched.modify fun _ _ h => h

/-- A loop is put on top of the stack that the event shows. -/
theorem enters_enterLoop (v : VarTarget) (limit st : Int) : Enters (enterLoop v limit st) := by
  refine Frame.watched_get.bind fun s' => ?_
  refine Watched.bind (Q := fun _ ok s => ok → OneEach s.exec.forStack ∧
    (v.name, v.idx) ∉ s.exec.forStack.map ForEntry.loop) (Watched.tell ?_) fun _ => ?_
  · rintro ok s ⟨rfl, h⟩
    exact ⟨_, .loop h, fun hok => ⟨h hok.1, hok.2⟩⟩
  · split
    · exact Watched.modify fun ok s h hok => (h hok).1
    · exact Watched.modify fun ok s h hok => List.nodup_cons.mpr ⟨(h hok).2, (h hok).1⟩

/-- A loop that is done is taken off with all above it. -/
theorem enters_execNext (t : Tokens) (len : Nat) : Enters (execNext t len) := by
  unfold execNext
  refine (enters_frame.stays_setPos _).bind fun _ => (enters_frame.stays_nextName t len).bind fun name =>
    Frame.watched_get.bind fun s' => ?_
  simp only
  split
  · exact Watched.modify fun ok s h => h.2
  · next f rest hloops =>
    have hsuffix : rest <:+ s'.exec.forStack := by
      have hrest : rest <:+ f :: rest := List.suffix_cons f rest
      rw [← hloops] at hrest
      refine hrest.trans ?_
      split
      · exact List.suffix_refl _
      · exact List.dropWhile_suffix _
    split
    · exact Watched.modify fun ok s h => h.2
    · refine Watched.bind (Q := fun _ ok s => Known ok s ∧ s.exec.forStack = s'.exec.forStack)
        (Watched.get fun ok s h => ⟨h.2, h.1 ▸ rfl⟩) fun s'' => ?_
      refine Watched.bind (Q := fun _ ok s => Known ok s ∧ s.exec.forStack = s'.exec.forStack)
        (Watched.modify fun ok s h => ?_) fun _ => Watched.ite (fun _ => ?_) fun _ => ?_
      · split
        · exact h
        · exact h
      · exact Watched.modify fun ok s h hok => (h.2 ▸ h.1 hok : OneEach s'.exec.forStack).sublist
          (hsuffix.sublist.map _)
      · exact Watched.modify fun ok s h => h.1

theorem enters_interrupted : Watched Entered Known interrupted fun _ => Known := by
  have hstay : ∀ {f : Interp → Interp}, (∀ s, (f s).exec.forStack = s.exec.forStack) →
      Stays Entered Known (Prog.modify f : Exec Unit) := fun hf => Watched.modify fun ok s h hok => by
    rw [hf s]
    exact h hok
  unfold interrupted
  refine Frame.stays_get.bind fun s => ?_
  split
  · have hkey : Stays Entered Known keyboardHasKey := by
      refine Frame.stays_get.bind fun s => Watched.bind (hstay ?_) fun _ => Frame.stays_pure _
      exact fun _ => rfl
    refine hkey.bind fun b => ?_
    split
    · refine enters_frame.stays_getchar.bind fun c => ?_
      split
      · refine Frame.stays_get.bind fun s => (enters_frame.stays_put _).bind fun _ =>
          Watched.bind (hstay ?_) fun _ => Frame.stays_pure _
        exact fun _ => rfl
      · exact Frame.stays_pure _
    · exact Frame.stays_pure _
  · exact Frame.stays_pure _

theorem enters_execStatement (t : Tokens) (len : Nat) : ∀ fuel, Enters (execStatement t len fuel)
  | 0 => Watched.halt _
  | fuel + 1 => by
    unfold execStatement
    refine (enters_frame.stays_skip t len).bind fun _ => Frame.stays_getPos.bind fun pos => ?_
    split
    · exact Frame.stays_pure _
    · refine enters_interrupted.bind fun stop => ?_
      split
      · exact Frame.stays_pure _
      · refine Watched.bind (Q := fun _ => Known)
          (Watched.tell fun ok _ h => ⟨ok, .other (by intros; simp), h⟩) fun _ => ?_
        exact enters_frame.ends_execSwitch t len fuel (enters_execStatement t len fuel)
          (enters_execGosub t len fuel) (enters_execReturn t)
          (enters_frame.ends_execFor t len fuel enters_enterLoop) (enters_execNext t len) _

theorem enters_lineLoop (t : Tokens) (len fuel : Nat) : ∀ rounds, Enters (lineLoop t len fuel rounds)
  | 0 => Watched.halt _
  | rounds + 1 => by
    unfold lineLoop
    refine Frame.stays_get.bind fun s => ?_
    split
    · refine (enters_frame.stays_skip t len).bind fun _ => Frame.stays_getPos.bind fun pos => ?_
      split
      · exact Frame.stays_pure _
      split
      · exact (enters_frame.stays_setPos _).bind fun _ => enters_lineLoop t len fuel rounds
      · refine (enters_execStatement t len fuel).bind fun _ => Frame.stays_get.bind fun s => ?_
        split
        · exact Frame.stays_pure _
        · exact enters_lineLoop t len fuel rounds
    · exact Frame.stays_pure _

theorem enters_runLoop (fuel : Nat) : ∀ rounds pos, Enters (runLoop fuel rounds pos)
  | 0, _ => Watched.halt _
  | rounds + 1, pos => by
    unfold runLoop
    refine Frame.stays_get.bind fun s => ?_
    split
    · exact Frame.stays_pure _
    split
    · have hline : ∀ t len, Enters (execLineAt t len fuel pos) := fun t len =>
        Watched.bind (Q := fun _ => Known) (Watched.modify fun _ _ h => h) fun _ => enters_lineLoop t len fuel fuel
      refine (hline _ _).bind fun _ => Frame.stays_get.bind fun s => ?_
      split
      · split
        · exact enters_runLoop fuel rounds _
        · exact Watched.bind (Q := fun _ => Known) (Watched.modify fun _ _ h => h) fun _ => enters_runLoop fuel rounds 0
      · exact enters_runLoop fuel rounds 0
    · exact Frame.stays_pure _

/-- Every run goes with the monitor. -/
theorem enters_cmdRun (fuel : Nat) : Watched Entered (fun _ _ => True) (cmdRun fuel) fun _ => Known := by
  unfold cmdRun
  refine Watched.bind (Q := fun _ => Known) (Watched.modify fun _ _ _ _ => List.nodup_nil) fun _ =>
    (enters_runLoop fuel fuel 0).bind fun _ => Frame.stays_get.bind fun s => ?_
  split
  · exact enters_frame.stays_put _
  · exact Frame.stays_pure _

/-- While no loop is entered again, every `FOR` is disciplined. -/
theorem disciplined_of_reads {ok ok' : Prop} {l : List Event} (h : Reads Entered ok l ok') (hok : ok)
    (hl : ∀ e ∈ l, ¬Reenters e) : ok' ∧ ∀ e ∈ l, Disciplined e := by
  induction h with
  | nil => exact ⟨hok, nofun⟩
  | cons hx _ ih =>
    have hfirst := hl _ List.mem_cons_self
    have hrest := fun e he => hl e (List.mem_cons_of_mem _ he)
    cases hx with
    | @loop var varIdx stack hone =>
      obtain ⟨hend, hall⟩ := ih ⟨hok, hfirst⟩ hrest
      refine ⟨hend, List.forall_mem_cons.mpr ⟨⟨hone hok, hfirst, fun hfull => ?_⟩, hall⟩⟩
      have hnodup : ((var, varIdx) :: stack.map ForEntry.loop).Nodup := List.nodup_cons.mpr ⟨hfirst, hone hok⟩
      rw [nested, hnodup.dedup, List.length_cons, List.length_map]
      omega
    | other hother =>
      obtain ⟨hend, hall⟩ := ih hok hrest
      refine ⟨hend, List.forall_mem_cons.mpr ⟨?_, hall⟩⟩
      unfold Disciplined
      split
      · exact absurd rfl (hother _ _ _)
      · trivial

/-- In a run, each variable is on the stack once at most whenever a loop is entered and at the end, and
the stack is full only if more than 8 loops are nested, just when no loop is entered while its
variable is on the stack. -/
theorem for_stack_iff (fuel : Nat) (s : Interp) : ((∀ e ∈ (cmdRun fuel s).log, Disciplined e) ∧
    ((cmdRun fuel s).out = .done () → OneEach (cmdRun fuel s).state.exec.forStack)) ↔
      ∀ e ∈ (cmdRun fuel s).log, ¬Reenters e := by
  constructor
  · rintro ⟨hall, -⟩ e he hreenters
    have hdisciplined := hall e he
    unfold Reenters at hreenters
    split at hreenters
    · exact hdisciplined.2.1 hreenters
    · exact hreenters
  · intro hnone
    obtain ⟨ok, hreads, hdone⟩ := enters_cmdRun fuel (g := True) (s := s) trivial
    obtain ⟨hok, hall⟩ := disciplined_of_reads hreads trivial hnone
    exact ⟨hall, fun hend => hdone () hend hok⟩

/-- `FOR` is refused just when it finds the stack full. -/
theorem enterLoop_refused_iff (v : VarTarget) (limit st : Int) {s : Interp} (h : s.hasError = false) :
    (enterLoop v limit st s).state.hasError = true ↔ 8 ≤ s.exec.forStack.length := by
  have hrun : enterLoop v limit st s = Run.prepend [.loop v.name v.idx s.exec.forStack]
      ((if s.exec.forStack.length ≥ 8 then setError "OUT OF MEMORY" else modifyExec fun x => { x with
        forStack := ⟨v.name, v.idx, limit, st, x.currentLine, x.pos⟩ :: x.forStack } : Exec Unit) s) := rfl
  rw [hrun]
  split
  · next hfull => exact ⟨fun _ => hfull, fun _ => rfl⟩
  · next hfull =>
    exact ⟨fun herror => absurd (h.symm.trans herror) Bool.false_ne_true, fun hge => absurd hge hfull⟩

/-- `10 REM`, `20 FOR I=1 TO 2`, `30 GOTO 10` -/
def reentering : List Line :=
  [⟨10, tokenize 120 (ascii "REM")⟩, ⟨20, tokenize 120 (ascii "FOR I=1 TO 2")⟩,
    ⟨30, tokenize 120 (ascii "GOTO 10")⟩]

/-- One loop is entered again and again, until there is no room. -/
theorem for_stack_fills : ¬∀ (fuel : Nat) (s : Interp), ∀ e ∈ (cmdRun fuel s).log, Disciplined e := by
  intro h
  have hlog : .loop 73 (-1) (List.replicate 8 ⟨73, -1, 2, 1, some 4, 17⟩) ∈
      (cmdRun 40 (Interp.withLines reentering)).log := by decide +kernel
  exact absurd ((h _ _ _ hlog).2.2 (by decide)) (by decide)

end RainbowOs.Basic
