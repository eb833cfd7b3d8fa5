import RainbowOs.Kernel.Debugger

/-!
# What a session does to the program

All that a command or a trap does to memory is to put a breakpoint in or to take
one out, so a property of memory and the table that survives these survives a
session. `Patched` is the one that matters: the code is as it was loaded but for
the breakpoints in the table, and the table knows what it has replaced.

There is one step it does not survive by itself. When the program is stepped off
a breakpoint, its slot is kept by number and armed again at the next
single-step trap, also when it has been deleted at the prompt.
-/

namespace RainbowOs.Kernel.Debug

open RainbowOs.Lib
open RainbowOs.Cc (cgLoadAddr)
open X86 (Word)

variable {d d' : Debugger} {addr : Word} {i : Nat}

/-! ## The table -/

/-- Slot `i` holds a breakpoint. -/
def Debugger.Active (d : Debugger) (i : Nat) : Prop := i < maxBp ∧ (d.bps i).active = true

theorem findBp_eq_some (h : d.findBp addr = some i) : d.Active i ∧ (d.bps i).addr = addr := by
  have hi := List.mem_range.mp (List.mem_of_find?_eq_some h)
  have hfound := List.find?_some h
  rw [Bool.and_eq_true, beq_iff_eq] at hfound
  exact ⟨⟨hi, hfound.1⟩, hfound.2⟩

theorem findBp_eq_none : d.findBp addr = none ↔ ∀ i, d.Active i → (d.bps i).addr ≠ addr := by
  unfold Debugger.findBp
  rw [List.find?_eq_none]
  constructor
  · intro h i hi heq
    exact h i (List.mem_range.mpr hi.1) (by rw [hi.2, heq, beq_self_eq_true]; rfl)
  · intro h i hi hfound
    rw [Bool.and_eq_true, beq_iff_eq] at hfound
    exact h i ⟨List.mem_range.mp hi, hfound.1⟩ hfound.2

/-- The byte of slot `i` replaced by `int3`. -/
def Debugger.armed (d : Debugger) (i : Nat) : Debugger :=
  { d with mem := Function.update d.mem (d.bps i).addr.toNat 0xCC }

/-- The byte of slot `i` put back. -/
def Debugger.disarmed (d : Debugger) (i : Nat) : Debugger :=
  { d with mem := Function.update d.mem (d.bps i).addr.toNat (d.bps i).orig }

/-- A breakpoint put into slot `i`. -/
def Debugger.placed (d : Debugger) (i : Nat) (addr : Word) : Debugger :=
  (d.setSlot i ⟨addr, d.mem addr.toNat, true⟩).armed i

theorem armBp_run (d : Debugger) (i : Nat) :
    armBp i d = ⟨.done (), d.armed i, [⟨true, (d.bps i).addr.toNat, 1⟩]⟩ := rfl

theorem disarmBp_run (d : Debugger) (i : Nat) :
    disarmBp i d = ⟨.done (), d.disarmed i, [⟨true, (d.bps i).addr.toNat, 1⟩]⟩ := rfl

/-- `set_bp` refuses, or takes a free slot. -/
theorem setBp_cases (d : Debugger) (addr : Word) : setBp addr d = ⟨.done (), d, []⟩ ∨
    ∃ i, i < maxBp ∧ (d.bps i).active = false ∧ inUser addr = true ∧ d.findBp addr = none ∧
      setBp addr d = ⟨.done (), d.placed i addr, [⟨false, addr.toNat, 1⟩, ⟨true, addr.toNat, 1⟩]⟩ := by
  unfold setBp
  by_cases hout : inUser addr = false
  · rw [if_pos hout]
    exact .inl rfl
  rw [if_neg hout, Prog.get_bind_run]
  cases hfind : d.findBp addr with
  | some j => exact .inl rfl
  | none =>
    rw [if_neg (show ¬ (none : Option Nat).isSome = true from Bool.false_ne_true), Prog.get_bind_run]
    cases hfree : (List.range maxBp).find? fun i => !(d.bps i).active with
    | none => exact .inl rfl
    | some j =>
      have hfound := List.find?_some hfree
      rw [Bool.not_eq_true'] at hfound
      have hin : inUser addr = true := by
        rwa [Bool.not_eq_false] at hout
      have hself : ((d.setSlot j ⟨addr, d.mem addr.toNat, true⟩).bps j).addr = addr := by
        show (Function.update d.bps j _ j).addr = addr
        rw [Function.update_self]
      refine .inr ⟨j, List.mem_range.mp (List.mem_of_find?_eq_some hfree), hfound, hin, rfl, ?_⟩
      show (loadByte addr >>= fun orig =>
        Prog.modify (fun d => d.setSlot j ⟨addr, orig, true⟩) >>= fun _ => armBp j) d = _
      rw [Prog.bind_run_done (loadByte_run d addr), Prog.modify_bind_run, armBp_run, hself]
      rfl

/-- `del_bp` finds nothing, or empties the slot. -/
theorem delBp_cases (d : Debugger) (addr : Word) : delBp addr d = ⟨.done (), d, []⟩ ∨
    ∃ i, d.findBp addr = some i ∧
      delBp addr d = ⟨.done (), (d.disarmed i).drop i, [⟨true, (d.bps i).addr.toNat, 1⟩]⟩ := by
  unfold delBp
  rw [Prog.get_bind_run]
  cases hfind : d.findBp addr with
  | none => exact .inl rfl
  | some i => exact .inr ⟨i, rfl, rfl⟩

/-! ## What a session keeps -/

/-- A property of memory and the table that survives a breakpoint put in or taken out. -/
structure Stable (P : Debugger → Prop) : Prop where
  congr : ∀ {d d' : Debugger}, P d → d'.mem = d.mem → d'.bps = d.bps → P d'
  placed : ∀ {d : Debugger} {i : Nat} {addr : Word}, P d → i < maxBp → (d.bps i).active = false →
    inUser addr = true → d.findBp addr = none → P (d.placed i addr)
  disarmed : ∀ {d : Debugger} {i : Nat}, P d → d.Active i → P (d.disarmed i)
  dropped : ∀ {d : Debugger} {i : Nat}, P d → d.Active i → P ((d.disarmed i).drop i)

section Stable

variable {P : Debugger → Prop}

/-- Nothing is asked of the accesses. -/
abbrev Any (_ : Access) : Prop := True

theorem Stable.setBp (hP : Stable P) (h : P d) (addr : Word) :
    (setBp addr).total Any (fun _ d' => P d' ∧ d'.dbgActive = d.dbgActive) d := by
  rcases setBp_cases d addr with hrun | ⟨i, hi, hfree, hin, hnone, hrun⟩
  · exact Prog.wp_of_run hrun (fun _ _ => trivial) ⟨h, rfl⟩
  · exact Prog.wp_of_run hrun (fun _ _ => trivial) ⟨hP.placed h hi hfree hin hnone, rfl⟩

theorem Stable.delBp (hP : Stable P) (h : P d) (addr : Word) :
    (delBp addr).total Any (fun _ d' => P d' ∧ d'.dbgActive = d.dbgActive) d := by
  rcases delBp_cases d addr with hrun | ⟨i, hfind, hrun⟩
  · exact Prog.wp_of_run hrun (fun _ _ => trivial) ⟨h, rfl⟩
  · exact Prog.wp_of_run hrun (fun _ _ => trivial) ⟨hP.dropped h (findBp_eq_some hfind).1, rfl⟩

/-- No slot is in use. -/
def Debugger.Cleared (d : Debugger) : Prop := ∀ i < maxBp, (d.bps i).active = false

theorem drop_active (d : Debugger) (i j : Nat) :
    ((d.drop i).bps j).active = if j = i then false else (d.bps j).active := by
  show (Function.update d.bps i _ j).active = _
  by_cases hj : j = i
  · rw [hj, Function.update_self, if_pos rfl]
  · rw [Function.update_of_ne hj, if_neg hj]

theorem Stable.clearLoop (hP : Stable P) {A : Access → Prop}
    (hA : ∀ {d : Debugger} {i : Nat}, P d → d.Active i → A ⟨true, (d.bps i).addr.toNat, 1⟩) {n i : Nat}
    (h : P d) (hi : i + n = maxBp) (hclear : ∀ j < i, (d.bps j).active = false) :
    (clearLoop n i).total A (fun _ d' => P d' ∧ d'.Cleared) d := by
  induction n generalizing d i with
  | zero =>
    refine Prog.total_pure ⟨h, fun j hj => hclear j ?_⟩
    omega
  | succ n ih =>
    unfold Debug.clearLoop
    refine Prog.wp_bind.mpr (Prog.wp_get ?_)
    by_cases hact : (d.bps i).active = true
    · rw [if_pos hact]
      have hslot : d.Active i := ⟨by omega, hact⟩
      refine Prog.wp_bind.mpr (Prog.wp_of_run (disarmBp_run d i)
        (fun _ hx => List.mem_singleton.mp hx ▸ hA h hslot) ?_)
      refine Prog.wp_bind.mpr (Prog.wp_modify (ih (hP.dropped h hslot) (by omega) fun j hj => ?_))
      rw [drop_active]
      split
      · rfl
      · exact hclear j (by omega)
    · rw [if_neg hact]
      refine ih h (by omega) fun j hj => ?_
      rcases Nat.eq_or_lt_of_le (Nat.le_of_lt_succ hj) with rfl | hlt
      · exact (Bool.not_eq_true _).mp hact
      · exact hclear j hlt

theorem Stable.clearAllBps (hP : Stable P) (h : P d) :
    clearAllBps.total Any (fun _ d' => P d' ∧ d'.Cleared) d :=
  hP.clearLoop (fun _ _ => trivial) h rfl fun _ hj => absurd hj (Nat.not_lt_zero _)

/-- A view keeps everything. -/
theorem total_view {p : Dbg Unit} {l : List Access} (hrun : p d = ⟨.done (), d, l⟩) (h : P d) {f : TrapFrame} :
    (p >>= fun _ => pure (f, false) : Dbg (TrapFrame × Bool)).wp Any
      (fun _ d' => P d' ∧ d'.dbgActive = d.dbgActive) (fun _ d' => P d') d :=
  Prog.wp_bind.mpr (Prog.wp_of_run hrun (fun _ _ => trivial) (Prog.wp_pure ⟨h, rfl⟩))

/-- A command keeps it, whether or not it comes back. -/
theorem Stable.dbgLine (hP : Stable P) (h : P d) (f : TrapFrame) (line : List UInt8) :
    (dbgLine f line).wp Any (fun _ d' => P d' ∧ d'.dbgActive = d.dbgActive) (fun _ d' => P d') d := by
  have hsame : ∀ r : TrapFrame × Bool, (pure r : Dbg (TrapFrame × Bool)).wp Any
      (fun _ d' => P d' ∧ d'.dbgActive = d.dbgActive) (fun _ d' => P d') d := fun r => Prog.wp_pure ⟨h, rfl⟩
  have hthen : ∀ p : Dbg Unit, p.total Any (fun _ d' => P d' ∧ d'.dbgActive = d.dbgActive) d →
      (p >>= fun _ => pure (f, false) : Dbg (TrapFrame × Bool)).wp Any
        (fun _ d' => P d' ∧ d'.dbgActive = d.dbgActive) (fun _ d' => P d') d := fun p hp =>
    Prog.wp_bind.mpr (Prog.wp_mono hp (fun _ h => h) (fun _ _ hd => Prog.wp_pure hd) fun _ _ h => h.elim)
  unfold Debug.dbgLine
  refine Prog.wp_ite (fun _ => hsame _) fun _ => ?_
  refine Prog.wp_ite (fun _ => total_view (backtraceLoop_run d 15 f.ebp) h) fun _ => ?_
  refine Prog.wp_ite (fun _ => ?_) fun _ => ?_
  · refine Prog.wp_bind.mpr (Prog.wp_get ?_)
    cases d.atBp with
    | none => exact hsame _
    | some i => exact Prog.wp_bind.mpr (Prog.wp_modify (Prog.wp_pure ⟨hP.congr h rfl rfl, rfl⟩))
  refine Prog.wp_ite (fun _ => ?_) fun _ => ?_
  · exact Prog.wp_bind.mpr (Prog.wp_modify (Prog.wp_pure ⟨hP.congr h rfl rfl, rfl⟩))
  refine Prog.wp_ite (fun _ => ?_) fun _ => ?_
  · exact Prog.wp_bind.mpr (Prog.wp_modify (Prog.wp_bind.mpr (Prog.wp_mono
      (hP.clearAllBps (hP.congr h rfl rfl)) (fun _ h => h) (fun _ _ hd => Prog.wp_halt hd.1)
      fun _ _ h => h.elim)))
  refine Prog.wp_ite (fun _ => ?_) fun _ => ?_
  · exact Prog.wp_ite (fun _ => hthen _ (hP.setBp h _)) fun _ => hsame _
  refine Prog.wp_ite (fun _ => ?_) fun _ => ?_
  · exact Prog.wp_ite (fun _ => hthen _ (hP.delBp h _)) fun _ => hsame _
  refine Prog.wp_ite (fun _ => ?_) fun _ => ?_
  · refine Prog.wp_ite (fun _ => hthen _ ?_) fun _ => hsame _
    exact Prog.wp_ite (fun _ => Prog.wp_pure ⟨h, rfl⟩) fun _ =>
      Prog.wp_of_run (memLoop_run d _ _ 0) (fun _ _ => trivial) ⟨h, rfl⟩
  exact Prog.wp_ite (fun _ => total_view (disasmLoop_run d 10 _) h) fun _ => hsame _

theorem Stable.dbgBpHandler (hP : Stable P) (h : P d) (f : TrapFrame) : (dbgBpHandler f).wp Any
    (fun _ d' => P d' ∧ d'.dbgActive = d.dbgActive) (fun _ d' => P d') d := by
  unfold Debug.dbgBpHandler
  refine Prog.wp_bind.mpr (Prog.wp_get (Prog.wp_ite (fun _ => Prog.wp_halt h) fun _ => ?_))
  cases hfind : d.findBp (f.eip - 1) with
  | some i =>
    refine Prog.wp_bind.mpr (Prog.wp_of_run (disarmBp_run d i) (fun _ _ => trivial) ?_)
    refine Prog.wp_bind.mpr (Prog.wp_modify ?_)
    refine Prog.wp_bind.mpr (Prog.wp_of_run (disasmLoop_run _ 10 _) (fun _ _ => trivial) (Prog.wp_pure ?_))
    exact ⟨hP.congr (hP.disarmed h (findBp_eq_some hfind).1) rfl rfl, rfl⟩
  | none =>
    refine Prog.wp_bind.mpr (Prog.wp_modify ?_)
    refine Prog.wp_bind.mpr (Prog.wp_of_run (disasmLoop_run _ 10 _) (fun _ _ => trivial) (Prog.wp_pure ?_))
    exact ⟨hP.congr h rfl rfl, rfl⟩

theorem Stable.dbgStepHandler (hP : Stable P) (h : P d)
    (harm : ∀ i, d.pendingReinsert = some i → P (d.armed i)) (f : TrapFrame) : (dbgStepHandler f).wp Any
      (fun _ d' => P d' ∧ d'.dbgActive = d.dbgActive) (fun _ d' => P d') d := by
  have hreinsert : reinsert.total Any (fun _ d' => P d' ∧ d'.dbgActive = d.dbgActive) d := by
    unfold reinsert
    refine Prog.wp_bind.mpr (Prog.wp_get ?_)
    cases hpend : d.pendingReinsert with
    | none => exact Prog.wp_pure ⟨h, rfl⟩
    | some i =>
      refine Prog.wp_bind.mpr (Prog.wp_of_run (armBp_run d i) (fun _ _ => trivial) (Prog.wp_modify ?_))
      exact ⟨hP.congr (harm i hpend) rfl rfl, rfl⟩
  unfold Debug.dbgStepHandler
  refine Prog.wp_bind.mpr (Prog.wp_get (Prog.wp_ite (fun _ => Prog.wp_pure ⟨h, rfl⟩) fun _ => ?_))
  refine Prog.wp_bind.mpr (Prog.wp_mono hreinsert (fun _ h => h) (fun _ d' hd => ?_) fun _ _ h => h.elim)
  refine Prog.wp_ite (fun _ => ?_) fun _ => Prog.wp_pure hd
  refine Prog.wp_bind.mpr (Prog.wp_modify ?_)
  refine Prog.wp_bind.mpr (Prog.wp_of_run (disasmLoop_run _ 10 _) (fun _ _ => trivial) (Prog.wp_pure ?_))
  exact ⟨hP.congr hd.1 rfl rfl, hd.2⟩

/-- A session that has kept it: while it lasts the handlers are on, and when it is over the table is empty. -/
structure Session.Keeps (P : Debugger → Prop) (s : Session) : Prop where
  holds : P s.dbg
  alive : s.mode ≠ .finished → s.dbg.dbgActive = true
  ended : s.mode = .finished → s.dbg.Cleared

theorem Stable.leave (hP : Stable P) (h : P d) : (Session.leave d).Keeps P := by
  have h' : P { d with dbgActive := false } := hP.congr h rfl rfl
  obtain ⟨_, _, hkept, hcleared⟩ := (hP.clearAllBps h').returns
  exact ⟨hkept, fun hne => absurd rfl hne, fun _ => hcleared⟩

theorem Stable.next {α : Type} {p : Dbg α} {mode : α → Mode} (hP : Stable P)
    (hp : p.wp Any (fun _ d' => P d' ∧ d'.dbgActive = d.dbgActive) (fun _ d' => P d') d)
    (hact : d.dbgActive = true) (hmode : ∀ a, mode a ≠ .finished) : (Session.next (p d) mode).Keeps P := by
  have hout := hp.2
  unfold Session.next
  cases hres : (p d).out with
  | done a =>
    rw [hres] at hout
    exact ⟨hout.1, fun _ => hout.2.trans hact, fun h => absurd h (hmode a)⟩
  | halt e =>
    rw [hres] at hout
    exact hP.leave hout

/-- One event. -/
theorem Stable.step (hP : Stable P) {s s' : Session} {e : Event} (hs : s.Keeps P) (hstep : s.step e = some s')
    (hexec : ∀ mem, e = .execute mem → P { s.dbg with mem := mem })
    (harm : ∀ f i, e = .stepTrap f → s.dbg.pendingReinsert = some i → P (s.dbg.armed i)) : s'.Keeps P := by
  have halive : ∀ m, s.mode = m → m ≠ .finished → s.dbg.dbgActive = true := fun m hm hne =>
    hs.alive (hm ▸ hne)
  unfold Session.step at hstep
  split at hstep
  case h_1 mem hm =>
    obtain rfl := Option.some.inj hstep
    exact ⟨hexec mem rfl, fun _ => halive _ hm Mode.noConfusion, Mode.noConfusion⟩
  case h_2 f hm =>
    obtain rfl := Option.some.inj hstep
    exact hP.next (hP.dbgBpHandler hs.holds f) (halive _ hm Mode.noConfusion) fun _ => Mode.noConfusion
  case h_3 f hm =>
    obtain rfl := Option.some.inj hstep
    refine hP.next (hP.dbgStepHandler hs.holds (fun i hi => harm f i rfl hi) f)
      (halive _ hm Mode.noConfusion) fun r => ?_
    split
    · exact Mode.noConfusion
    · exact Mode.noConfusion
  case h_4 hm =>
    obtain rfl := Option.some.inj hstep
    exact hP.leave hs.holds
  case h_5 f line hm =>
    obtain rfl := Option.some.inj hstep
    refine hP.next (hP.dbgLine hs.holds f line) (halive _ hm Mode.noConfusion) fun r => ?_
    split
    · exact Mode.noConfusion
    · exact Mode.noConfusion
  case h_6 => cases hstep

theorem Stable.start (hP : Stable P) (h : P (Session.fresh d)) : (Session.start d).Keeps P := by
  obtain ⟨_, _, hkept, hact⟩ := (hP.setBp h (BitVec.ofNat 32 cgLoadAddr)).returns
  exact ⟨hkept, fun _ => hact, Mode.noConfusion⟩

/-- Each event of a run is of kind `C` where it happens. -/
def Session.Along (C : Session → Event → Prop) : Session → List Event → Prop
  | _, [] => True
  | s, e :: es => C s e ∧ ∀ s', s.step e = some s' → Session.Along C s' es

/-- A run of events. -/
theorem Stable.run (hP : Stable P) {C : Session → Event → Prop} {events : List Event} {s s' : Session}
    (hs : s.Keeps P) (hrun : s.run events = some s') (hal : s.Along C events)
    (hexec : ∀ (s : Session) mem, P s.dbg → C s (.execute mem) → P { s.dbg with mem := mem })
    (harm : ∀ (s : Session) f i, P s.dbg → C s (.stepTrap f) → s.dbg.pendingReinsert = some i →
      P (s.dbg.armed i)) : s'.Keeps P := by
  induction events generalizing s with
  | nil =>
    obtain rfl := Option.some.inj hrun
    exact hs
  | cons e es ih =>
    rw [Session.run] at hrun
    obtain ⟨s₁, hstep, hrest⟩ := Option.bind_eq_some_iff.mp hrun
    have hs₁ : s₁.Keeps P := hP.step hs hstep (fun mem he => hexec s mem hs.holds (he ▸ hal.1))
      fun f i he hi => harm s f i hs.holds (he ▸ hal.1) hi
    exact ih hs₁ hrest (hal.2 s₁ hstep)

end Stable

/-! ## The code of the program -/

/-- An address that the table has a breakpoint for. -/
def Debugger.Has (d : Debugger) (a : Nat) : Prop := ∃ i, d.Active i ∧ (d.bps i).addr.toNat = a

/-- The code is the image but for the breakpoints in the table, each of which can be taken out. -/
structure Patched (image : Bytes) (code : Nat → Prop) (d : Debugger) : Prop where
  bytes : ∀ a, code a → d.mem a = image a ∨ d.mem a = 0xCC ∧ d.Has a
  orig : ∀ i, d.Active i → code (d.bps i).addr.toNat → (d.bps i).orig = image (d.bps i).addr.toNat

section Patched

variable {image : Bytes} {code : Nat → Prop}

theorem active_congr (h : d'.bps = d.bps) {i : Nat} : d'.Active i ↔ d.Active i := by
  unfold Debugger.Active
  rw [h]

theorem has_congr (h : d'.bps = d.bps) {a : Nat} : d'.Has a ↔ d.Has a := by
  unfold Debugger.Has Debugger.Active
  rw [h]

/-- Other memory under the same table. -/
theorem Patched.of_bytes (h : Patched image code d) (hbps : d'.bps = d.bps)
    (hbytes : ∀ a, code a → d'.mem a = image a ∨ d'.mem a = 0xCC ∧ d.Has a) : Patched image code d' := by
  refine ⟨fun a ha => (hbytes a ha).imp_right fun hcc => ⟨hcc.1, (has_congr hbps).mpr hcc.2⟩,
    fun i hi hcode => ?_⟩
  rw [hbps] at hcode ⊢
  exact h.orig i ((active_congr hbps).mp hi) hcode

/-- The byte of a breakpoint in the table may be armed or not. -/
theorem Patched.disarmed (h : Patched image code d) {i : Nat} (hi : d.Active i) :
    Patched image code (d.disarmed i) := by
  refine h.of_bytes rfl fun a ha => ?_
  by_cases haddr : a = (d.bps i).addr.toNat
  · subst haddr
    exact .inl ((Function.update_self ..).trans (h.orig i hi ha))
  · rw [show (d.disarmed i).mem a = d.mem a from Function.update_of_ne haddr ..]
    exact h.bytes a ha

theorem Patched.armed (h : Patched image code d) {i : Nat}
    (hi : code (d.bps i).addr.toNat → d.Has (d.bps i).addr.toNat ∨ image (d.bps i).addr.toNat = 0xCC) :
    Patched image code (d.armed i) := by
  refine h.of_bytes rfl fun a ha => ?_
  by_cases haddr : a = (d.bps i).addr.toNat
  · subst haddr
    have hcc : (d.armed i).mem (d.bps i).addr.toNat = 0xCC := Function.update_self ..
    rw [hcc]
    exact (hi ha).elim (fun hhas => .inr ⟨rfl, hhas⟩) fun himage => .inl himage.symm
  · rw [show (d.armed i).mem a = d.mem a from Function.update_of_ne haddr ..]
    exact h.bytes a ha

theorem active_drop {i j : Nat} : (d.drop i).Active j ↔ j ≠ i ∧ d.Active j := by
  unfold Debugger.Active
  rw [drop_active]
  by_cases hj : j = i
  · rw [if_pos hj]
    exact ⟨fun h => absurd h.2 Bool.false_ne_true, fun h => absurd hj h.1⟩
  · rw [if_neg hj]
    exact ⟨fun h => ⟨hj, h⟩, And.right⟩

theorem drop_bps {i j : Nat} (hj : j ≠ i) : (d.drop i).bps j = d.bps j := Function.update_of_ne hj ..

theorem Patched.dropped (h : Patched image code d) {i : Nat} (hi : d.Active i) :
    Patched image code ((d.disarmed i).drop i) := by
  have hact : ∀ {j}, ((d.disarmed i).drop i).Active j → j ≠ i ∧ d.Active j := fun hj => active_drop.mp hj
  refine ⟨fun a ha => ?_, fun j hj hcode => ?_⟩
  · show (Function.update d.mem (d.bps i).addr.toNat (d.bps i).orig) a = image a ∨ _
    by_cases haddr : a = (d.bps i).addr.toNat
    · subst haddr
      exact .inl ((Function.update_self ..).trans (h.orig i hi ha))
    · rcases h.bytes a ha with himage | ⟨hcc, j, hj, hja⟩
      · exact .inl ((Function.update_of_ne haddr ..).trans himage)
      · have hji : j ≠ i := fun hji => haddr (hji ▸ hja.symm)
        refine .inr ⟨(Function.update_of_ne haddr ..).trans hcc, j, active_drop.mpr ⟨hji, hj⟩, ?_⟩
        rw [drop_bps hji]
        exact hja
  · obtain ⟨hji, hj⟩ := hact hj
    rw [drop_bps hji] at hcode ⊢
    exact h.orig j hj hcode

theorem Patched.placed (h : Patched image code d) {i : Nat} {addr : Word} (hi : i < maxBp)
    (hfree : (d.bps i).active = false) (hnone : d.findBp addr = none) :
    Patched image code (d.placed i addr) := by
  have hself : (d.placed i addr).bps i = ⟨addr, d.mem addr.toNat, true⟩ := Function.update_self ..
  have hother : ∀ {j}, j ≠ i → (d.placed i addr).bps j = d.bps j := fun hj => Function.update_of_ne hj ..
  have haddr : ((d.setSlot i ⟨addr, d.mem addr.toNat, true⟩).bps i).addr = addr := congrArg Bp.addr hself
  have hact : ∀ {j}, j ≠ i → ((d.placed i addr).Active j ↔ d.Active j) := fun hj => by
    unfold Debugger.Active
    rw [hother hj]
  have hnew : (d.placed i addr).Active i := ⟨hi, congrArg Bp.active hself⟩
  have hnot : ¬ d.Has addr.toNat := fun ⟨j, hj, hja⟩ =>
    findBp_eq_none.mp hnone j hj (BitVec.eq_of_toNat_eq hja)
  have hmem : (d.placed i addr).mem = Function.update d.mem addr.toNat 0xCC := by
    show Function.update d.mem ((d.setSlot i ⟨addr, d.mem addr.toNat, true⟩).bps i).addr.toNat 0xCC = _
    rw [haddr]
  refine ⟨fun a ha => ?_, fun j hj hcode => ?_⟩
  · rw [hmem]
    by_cases hat : a = addr.toNat
    · subst hat
      exact .inr ⟨Function.update_self .., i, hnew, by rw [hself]⟩
    · rw [Function.update_of_ne hat]
      refine (h.bytes a ha).imp_right fun ⟨hcc, j, hj, hja⟩ => ⟨hcc, j, ?_⟩
      have hji : j ≠ i := fun hji => by
        rw [hji] at hj
        exact absurd (hfree.symm.trans hj.2) Bool.false_ne_true
      rw [hother hji]
      exact ⟨(hact hji).mpr hj, hja⟩
  · by_cases hji : j = i
    · subst hji
      rw [hself] at hcode ⊢
      exact (h.bytes _ hcode).elim id fun hcc => absurd hcc.2 hnot
    · rw [hother hji] at hcode ⊢
      exact h.orig j ((hact hji).mp hj) hcode

theorem stable_patched : Stable (Patched image code) where
  congr h hmem hbps := h.of_bytes hbps fun a ha => by
    rw [hmem]
    exact h.bytes a ha
  placed h hi hfree _ hnone := h.placed hi hfree hnone
  disarmed h hi := h.disarmed hi
  dropped h hi := h.dropped hi

/-- When nothing is left in the table the code is the image. -/
theorem Patched.cleared (h : Patched image code d) (hclear : d.Cleared) {a : Nat} (ha : code a) :
    d.mem a = image a :=
  (h.bytes a ha).elim id fun ⟨_, i, hi, _⟩ => absurd ((hclear i hi.1).symm.trans hi.2) Bool.false_ne_true

/-! ## Transparency -/

/-- What a session promises of the program: when it runs, its code is the image but for an `int3` at each
address that has a breakpoint; a trap on a breakpoint stops there; after the session the code is the image. -/
structure Session.Transparent (image : Bytes) (code : Nat → Prop) (s : Session) : Prop where
  resumed : s.mode = .running → ∀ a, code a → s.dbg.mem a = image a ∨ s.dbg.mem a = 0xCC ∧ s.dbg.Has a
  stops : s.mode = .running → ∀ f i, f.cs % 4 = 3 → s.dbg.findBp (f.eip - 1) = some i →
    ∃ d', s.step (.bpTrap f) = some ⟨d', .stopped { f with eip := f.eip - 1 }⟩
  ended : s.mode = .finished → ∀ a, code a → s.dbg.mem a = image a

/-- The program does not modify its code. -/
def KeepsCode (code : Nat → Prop) (s : Session) (e : Event) : Prop :=
  ∀ mem, e = .execute mem → ∀ a, code a → mem a = s.dbg.mem a

/-- At a single-step trap, the breakpoint that waits to be armed again is in the table, or `int3` is what the
image has there. -/
def Relists (image : Bytes) (code : Nat → Prop) (s : Session) (e : Event) : Prop :=
  ∀ f i, e = .stepTrap f → s.dbg.pendingReinsert = some i → code (s.dbg.bps i).addr.toNat →
    (s.dbg.findBp (s.dbg.bps i).addr).isSome = true ∨ image (s.dbg.bps i).addr.toNat = 0xCC

theorem bpTrap_stops {f : TrapFrame} {i : Nat} (hact : d.dbgActive = true) (hcs : f.cs % 4 = 3)
    (hfind : d.findBp (f.eip - 1) = some i) :
    ∃ d', Session.next (dbgBpHandler f d) .stopped = ⟨d', .stopped { f with eip := f.eip - 1 }⟩ := by
  have htotal : (dbgBpHandler f).total Any (fun r _ => r = { f with eip := f.eip - 1 }) d := by
    unfold dbgBpHandler
    refine Prog.wp_bind.mpr (Prog.wp_get (Prog.wp_ite (fun hno => ?_) fun _ => ?_))
    · rcases hno with hoff | hring
      · exact Bool.noConfusion (hact.symm.trans hoff)
      · exact absurd hcs hring
    rw [hfind]
    refine Prog.wp_bind.mpr (Prog.wp_of_run (disarmBp_run d i) (fun _ _ => trivial) ?_)
    refine Prog.wp_bind.mpr (Prog.wp_modify ?_)
    exact Prog.wp_bind.mpr (Prog.wp_of_run (disasmLoop_run _ 10 _) (fun _ _ => trivial) (Prog.wp_pure rfl))
  obtain ⟨r, hr, rfl⟩ := htotal.returns
  unfold Session.next
  rw [hr]
  exact ⟨_, rfl⟩

theorem Session.Keeps.transparent {s : Session} (h : s.Keeps (Patched image code)) :
    s.Transparent image code where
  resumed _ := h.holds.bytes
  stops hm f i hcs hfind := by
    have hact : s.dbg.dbgActive = true := h.alive fun hf => Mode.noConfusion (hm.symm.trans hf)
    obtain ⟨d', hnext⟩ := bpTrap_stops hact hcs hfind
    refine ⟨d', ?_⟩
    rw [← hnext]
    unfold Session.step
    rw [hm]
  ended hm _ ha := h.holds.cleared (h.ended hm) ha

theorem Session.Along.and {C C' : Session → Event → Prop} {s : Session} {events : List Event}
    (h : s.Along C events) (h' : s.Along C' events) : s.Along (fun s e => C s e ∧ C' s e) events := by
  induction events generalizing s with
  | nil => trivial
  | cons e es ih => exact ⟨⟨h.1, h'.1⟩, fun s' hs' => ih (h.2 s' hs') (h'.2 s' hs')⟩

theorem Session.along_of_forall {C : Session → Event → Prop} {s : Session} {events : List Event}
    (h : ∀ e ∈ events, ∀ s, C s e) : s.Along C events := by
  induction events generalizing s with
  | nil => trivial
  | cons e es ih =>
    rw [List.forall_mem_cons] at h
    exact ⟨h.1 s, fun _ _ => ih h.2⟩

/-- A session keeps to its promises in every state it comes to, as long as no breakpoint is armed again that
has been deleted. -/
theorem session_transparent {events : List Event} {s : Session}
    (hrun : (Session.start d).run events = some s) (hcode : (Session.start d).Along (KeepsCode code) events)
    (hlist : (Session.start d).Along (Relists d.mem code) events) : s.Transparent d.mem code := by
  have hfresh : Patched d.mem code (Session.fresh d) :=
    ⟨fun _ _ => .inl rfl, fun i hi => absurd hi.2 Bool.false_ne_true⟩
  refine (stable_patched.run (stable_patched.start hfresh) hrun (hcode.and hlist) ?_ ?_).transparent
  · intro s mem h hC
    refine h.of_bytes rfl fun a ha => ?_
    rw [show ({ s.dbg with mem := mem } : Debugger).mem a = mem a from rfl, hC.1 mem rfl a ha]
    exact h.bytes a ha
  · intro s f i h hC hpend
    refine h.armed fun ha => (hC.2 f i rfl hpend ha).imp_left fun hsome => ?_
    obtain ⟨j, hj⟩ := Option.isSome_iff_exists.mp hsome
    obtain ⟨hact, haddr⟩ := findBp_eq_some hj
    exact ⟨j, hact, congrArg BitVec.toNat haddr⟩

end Patched

/-! ## A session with one breakpoint -/

/-- A program of zeros, loaded. -/
def loaded : Debugger := ⟨Bytes.zeros, fun _ => ⟨0, 0, false⟩, false, none, false, none⟩

/-- A trap of the program. -/
def trapAt (eip : Word) : TrapFrame := ⟨0, eip, 0x1B, 0x202⟩

/-- The first stop, `c`, the step off the breakpoint, and the end. -/
def continued : List Event := [.bpTrap (trapAt 0x200001), .line [0x63], .stepTrap (trapAt 0x200002), .exit]

theorem session_transparent_continued :
    ∃ s, (Session.start loaded).run continued = some s ∧ s.Transparent loaded.mem fun a => a < 0x200100 := by
  obtain ⟨s, hs⟩ := Option.isSome_iff_exists.mp
    (show ((Session.start loaded).run continued).isSome = true by decide +kernel)
  refine ⟨s, hs, session_transparent hs ?_ ?_⟩
  · exact Session.along_of_forall fun e he _ mem heq => by
      rw [heq] at he
      simp [continued] at he
  · refine ⟨fun f i he => Event.noConfusion he, fun s₁ h₁ => ⟨fun f i he => Event.noConfusion he, fun s₂ h₂ => ⟨?_,
      fun s₃ _ => ⟨fun f i he => Event.noConfusion he, fun _ _ => trivial⟩⟩⟩⟩
    intro f i _ hpend _
    have hrun : (Session.start loaded).run [.bpTrap (trapAt 0x200001), .line [0x63]] = some s₂ := by
      rw [Session.run, h₁, Option.bind_some, Session.run, h₂]
      rfl
    have hkept : ((Session.start loaded).run [.bpTrap (trapAt 0x200001), .line [0x63]]).map
        (fun s => (s.dbg.pendingReinsert, (s.dbg.findBp (s.dbg.bps 0).addr).isSome)) = some (some 0, true) := by
      decide +kernel
    rw [hrun, Option.map_some, Option.some_inj, Prod.mk.injEq] at hkept
    obtain rfl := Option.some.inj (hpend.symm.trans hkept.1)
    exact .inl hkept.2

/-- The first stop, `d 200000`, `c`, and the step off the breakpoint that is gone. -/
def deleted : List Event := [.bpTrap (trapAt 0x200001), .line [0x64, 0x20, 0x32, 0x30, 0x30, 0x30, 0x30, 0x30],
  .line [0x63], .stepTrap (trapAt 0x200002)]

/-- The claim fails for it: the program goes on with an `int3` that no breakpoint stands for. -/
theorem session_not_transparent : ¬ ∀ (d : Debugger) (code : Nat → Prop) (events : List Event) (s : Session),
    (Session.start d).run events = some s → (Session.start d).Along (KeepsCode code) events →
      s.Transparent d.mem code := by
  intro h
  have hend : ((Session.start loaded).run deleted).map
      (fun s => (s.mode, s.dbg.mem 0x200000, s.dbg.findBp 0x200000)) = some (.running, 0xCC, none) := by
    decide +kernel
  obtain ⟨s, hrun, heq⟩ := Option.map_eq_some_iff.mp hend
  rw [Prod.mk.injEq, Prod.mk.injEq] at heq
  obtain ⟨hmode, hmem, hnone⟩ := heq
  have hkeeps : (Session.start loaded).Along (KeepsCode fun a => a = 0x200000) deleted :=
    Session.along_of_forall fun e he _ mem heq => by
      rw [heq] at he
      simp [deleted] at he
  rcases (h loaded _ deleted s hrun hkeeps).resumed hmode 0x200000 rfl with himage | ⟨_, i, hi, haddr⟩
  · rw [hmem] at himage
    exact absurd himage (by decide)
  · exact findBp_eq_none.mp hnone i hi (BitVec.eq_of_toNat_eq haddr)

end RainbowOs.Kernel.Debug
