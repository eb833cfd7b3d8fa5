import RainbowOs.Kernel.Breakpoints

/-!
# Where the debugger looks

`x` checks the address it starts from and `bt` the frame pointer, but not what
lies behind them, and `u` checks nothing. `b` and `d` stay in the window, for the
table only ever holds addresses that `set_bp` has checked.
-/

namespace RainbowOs.Kernel.Debug

open RainbowOs.Lib
open X86 (Word)

variable {d : Debugger}

/-- The bytes of an access are in the user region. -/
def InWindow (x : Access) : Prop := userRegionBase ≤ x.addr ∧ x.addr + x.len ≤ userRegionTop

theorem inUser_iff {a : Word} : inUser a = true ↔ userRegionBase ≤ a.toNat ∧ a.toNat < userRegionTop := by
  unfold inUser
  rw [Bool.and_eq_true, decide_eq_true_iff, decide_eq_true_iff]

theorem inWindow_byte {write : Bool} {a : Word} : InWindow ⟨write, a.toNat, 1⟩ ↔ inUser a = true :=
  inUser_iff.symm

/-- Every breakpoint in the table is in the user region. -/
def Housed (d : Debugger) : Prop := ∀ i, d.Active i → inUser (d.bps i).addr = true

theorem stable_housed : Stable Housed where
  congr {d d'} h _ hbps i hi := by
    rw [hbps]
    exact h i ((active_congr hbps).mp hi)
  placed {d j addr} h _ _ hin _ i hi := by
    by_cases hij : i = j
    · rw [hij, show (d.placed j addr).bps j = ⟨addr, d.mem addr.toNat, true⟩ from Function.update_self ..]
      exact hin
    · have hbps : (d.placed j addr).bps i = d.bps i := Function.update_of_ne hij ..
      unfold Debugger.Active at hi
      rw [hbps] at hi ⊢
      exact h i hi
  disarmed h _ := h
  dropped {d j} h _ i hi := by
    obtain ⟨hij, hact⟩ := active_drop.mp hi
    rw [drop_bps hij]
    exact h i hact

/-- The table of a session. -/
theorem housed_of_run {events : List Event} {s : Session} (hrun : (Session.start d).run events = some s) :
    Housed s.dbg := by
  have hfresh : Housed (Session.fresh d) := fun i hi => absurd hi.2 Bool.false_ne_true
  have hal : (Session.start d).Along (fun _ _ => True) events := Session.along_of_forall fun _ _ _ => trivial
  exact (stable_housed.run (stable_housed.start hfresh) hrun hal (fun _ _ h _ => h) fun _ _ _ h _ _ => h).holds

/-! ## The views -/

theorem log_view {p : Dbg Unit} {d' : Debugger} {l : List Access} {r : TrapFrame × Bool}
    (h : p d = ⟨.done (), d', l⟩) : ((p >>= fun _ => pure r : Dbg (TrapFrame × Bool)) d).log = l := by
  rw [Prog.bind_run_done h]
  exact List.append_nil l

/-- A dump of so many bytes, in whole rows, ends in the region. -/
def DumpFits (addr : Word) (n : Int) : Prop := inUser addr = true → addr.toNat + 16 * rows n ≤ userRegionTop

theorem toNat_row {addr : Word} {r k : Nat} (h : addr.toNat + (16 * r + k) < 4294967296) :
    (addr + BitVec.ofNat 32 (16 * r) + BitVec.ofNat 32 k).toNat = addr.toNat + (16 * r + k) := by
  rw [BitVec.toNat_add, BitVec.toNat_add, BitVec.toNat_ofNat, BitVec.toNat_ofNat]
  omega

theorem showMem_inWindow (addr : Word) (n : Int) :
    (∀ x ∈ (showMem addr n d).log, InWindow x) ↔ DumpFits addr n := by
  unfold showMem DumpFits
  by_cases hout : inUser addr = false
  · rw [if_pos hout, hout]
    exact ⟨fun _ h => absurd h Bool.false_ne_true, fun _ _ hx => absurd hx List.not_mem_nil⟩
  rw [if_neg hout, memLoop_run]
  rw [Bool.not_eq_false] at hout
  obtain ⟨hbase, htop⟩ := inUser_iff.mp hout
  have hsmall : userRegionTop = 3145728 := rfl
  have hmem : ∀ x, x ∈ (List.range' 0 (rows n)).flatMap (fun r =>
      rowLog (addr + BitVec.ofNat 32 (16 * r)) 16 0 ++ rowLog (addr + BitVec.ofNat 32 (16 * r)) 16 0) ↔
      ∃ r < rows n, ∃ k < 16, x = ⟨false, (addr + BitVec.ofNat 32 (16 * r) + BitVec.ofNat 32 k).toNat, 1⟩ :=
    fun x => by
      simp only [List.mem_flatMap, List.mem_append, or_self, rowLog, List.mem_map, List.mem_range'_1, Nat.zero_le,
        true_and, Nat.zero_add, eq_comm]
  constructor
  · intro h _
    refine Nat.le_of_not_lt fun hlt => ?_
    -- the byte at the top is in one of the rows
    obtain ⟨m, hm⟩ : ∃ m, addr.toNat + m = userRegionTop := ⟨userRegionTop - addr.toNat, by omega⟩
    have hx := h _ ((hmem _).mpr ⟨m / 16, by omega, m % 16, Nat.mod_lt _ (by decide), rfl⟩)
    rw [toNat_row (by omega)] at hx
    have hle : addr.toNat + (16 * (m / 16) + m % 16) + 1 ≤ userRegionTop := hx.2
    omega
  · intro h x hx
    have hend := h hout
    obtain ⟨r, hr, k, hk, rfl⟩ := (hmem x).mp hx
    rw [toNat_row (by omega)]
    exact ⟨by simp only; omega, by simp only; omega⟩

/-- Each of the ten instructions that a listing goes through has eight bytes in the region. -/
def ListingFits (d : Debugger) (addr : Word) : Prop :=
  ∀ a ∈ d.insns 10 addr, userRegionBase ≤ a.toNat ∧ a.toNat + 8 ≤ userRegionTop

theorem codeLog_inWindow (h : Housed d) (a : Word) : (∀ x ∈ d.codeLog a, InWindow x) ↔ inUser a = true := by
  unfold Debugger.codeLog
  cases hfind : d.findBp a with
  | none =>
    rw [List.forall_mem_singleton]
    exact inWindow_byte
  | some i =>
    obtain ⟨hact, haddr⟩ := findBp_eq_some hfind
    exact ⟨fun _ => haddr ▸ h i hact, fun _ _ hx => absurd hx List.not_mem_nil⟩

theorem showDisasm_inWindow (h : Housed d) (addr : Word) :
    (∀ x ∈ (showDisasm addr d).log, InWindow x) ↔ ListingFits d addr := by
  unfold showDisasm ListingFits
  rw [disasmLoop_run]
  simp only [List.forall_mem_flatMap, codeLog_inWindow h, List.mem_range'_1, Nat.zero_le, true_and, Nat.zero_add]
  refine forall₂_congr fun a _ => ?_
  have hsmall : userRegionTop = 3145728 := rfl
  have hat : ∀ k < 8, inUser a = true → (a + BitVec.ofNat 32 k).toNat = a.toNat + k := fun k hk hin => by
    have htop := (inUser_iff.mp hin).2
    rw [BitVec.toNat_add, BitVec.toNat_ofNat]
    omega
  constructor
  · intro hall
    have hfirst : inUser a = true := by simpa using hall 0 (by decide)
    have hlast := inUser_iff.mp (hall 7 (by decide))
    rw [hat 7 (by decide) hfirst] at hlast
    have hbase := (inUser_iff.mp hfirst).1
    omega
  · intro hfit k hk
    have hin : inUser a = true := inUser_iff.mpr (by omega)
    refine inUser_iff.mpr ?_
    rw [hat k hk hin]
    omega

/-- Each frame that a backtrace looks into has its two dwords in the region. -/
def BacktraceFits (d : Debugger) (ebp : Word) : Prop := ∀ e ∈ d.frames 15 ebp, e.toNat + 8 ≤ userRegionTop

theorem inUser_of_mem_frames {n : Nat} {ebp e : Word} (h : e ∈ d.frames n ebp) : inUser e = true := by
  induction n generalizing ebp with
  | zero => exact absurd h List.not_mem_nil
  | succ n ih =>
    unfold Debugger.frames at h
    by_cases hout : inUser ebp = false ∨ ebp = 0
    · rw [if_pos hout] at h
      exact absurd h List.not_mem_nil
    rw [if_neg hout, List.mem_cons] at h
    rcases h with rfl | h
    · rw [not_or, Bool.not_eq_false] at hout
      exact hout.1
    · split at h
      · exact absurd h List.not_mem_nil
      · exact ih h

theorem showBacktrace_inWindow (f : TrapFrame) :
    (∀ x ∈ (showBacktrace f d).log, InWindow x) ↔ BacktraceFits d f.ebp := by
  unfold showBacktrace BacktraceFits
  rw [backtraceLoop_run]
  simp only [List.forall_mem_flatMap]
  refine forall₂_congr fun e he => ?_
  obtain ⟨hbase, htop⟩ := inUser_iff.mp (inUser_of_mem_frames he)
  have hsmall : userRegionTop = 3145728 := rfl
  have hret : (e + 4).toNat = e.toNat + 4 := by
    rw [BitVec.toNat_add, show (4 : Word).toNat = 4 from rfl]
    omega
  simp only [List.forall_mem_cons, List.not_mem_nil, false_imp_iff, implies_true, and_true, InWindow, hret]
  omega

/-! ## The commands -/

/-- The condition of a command line. -/
structure LineFits (d : Debugger) (f : TrapFrame) (line : List UInt8) : Prop where
  backtrace : (skipWs line).headD 0 = 0x62 → (skipWs line).getD 1 0 = 0x74 → BacktraceFits d f.ebp
  dump : (skipWs line).headD 0 = 0x78 → (parseHex (skipWs line).tail).2 = true →
    DumpFits (parseHex (skipWs line).tail).1 (dumpCount (skipWs line).tail)
  listing : (skipWs line).headD 0 = 0x75 → ListingFits d
    (if (parseHex (skipWs line).tail).2 then (parseHex (skipWs line).tail).1 else f.eip)

theorem setBp_inWindow (addr : Word) : ∀ x ∈ (setBp addr d).log, InWindow x := by
  rcases setBp_cases d addr with hrun | ⟨i, -, -, hin, -, hrun⟩
  · rw [hrun]
    exact fun _ hx => absurd hx List.not_mem_nil
  · rw [hrun, List.forall_mem_cons, List.forall_mem_singleton]
    exact ⟨inWindow_byte.mpr hin, inWindow_byte.mpr hin⟩

theorem delBp_inWindow (h : Housed d) (addr : Word) : ∀ x ∈ (delBp addr d).log, InWindow x := by
  rcases delBp_cases d addr with hrun | ⟨i, hfind, hrun⟩
  · rw [hrun]
    exact fun _ hx => absurd hx List.not_mem_nil
  · rw [hrun, List.forall_mem_singleton]
    exact inWindow_byte.mpr (h i (findBp_eq_some hfind).1)

/-- A command that always comes back logs what its work logs. -/
theorem log_then {p : Dbg Unit} {r : TrapFrame × Bool} (h : (p d).out = .done ()) :
    ((p >>= fun _ => pure r : Dbg (TrapFrame × Bool)) d).log = (p d).log :=
  log_view (Prog.run_eq h rfl)

theorem dbgLine_inWindow (h : Housed d) (f : TrapFrame) (line : List UInt8) :
    (∀ x ∈ (dbgLine f line d).log, InWindow x) ↔ LineFits d f line := by
  obtain ⟨a, ha⟩ : ∃ a, a = skipWs line := ⟨_, rfl⟩
  have hfits : LineFits d f line ↔ (a.headD 0 = 0x62 → a.getD 1 0 = 0x74 → BacktraceFits d f.ebp) ∧
      (a.headD 0 = 0x78 → (parseHex a.tail).2 = true → DumpFits (parseHex a.tail).1 (dumpCount a.tail)) ∧
      (a.headD 0 = 0x75 → ListingFits d (if (parseHex a.tail).2 then (parseHex a.tail).1 else f.eip)) := by
    rw [ha]
    exact ⟨fun h => ⟨h.1, h.2, h.3⟩, fun h => ⟨h.1, h.2.1, h.2.2⟩⟩
  have hquiet : ∀ r : TrapFrame × Bool, ∀ x ∈ ((pure r : Dbg (TrapFrame × Bool)) d).log, InWindow x :=
    fun _ _ hx => absurd hx List.not_mem_nil
  rw [hfits]
  have hfree : a.headD 0 ≠ 0x62 → a.headD 0 ≠ 0x78 → a.headD 0 ≠ 0x75 → _ := fun hb hx hu =>
    hfits.mpr ⟨fun h => absurd h hb, fun h => absurd h hx, fun h => absurd h hu⟩
  rw [← hfits]
  unfold dbgLine
  rw [← ha]
  by_cases h0 : a.headD 0 = 0
  · rw [if_pos h0]
    exact iff_of_true (hquiet _) (hfree (by rw [h0]; decide) (by rw [h0]; decide) (by rw [h0]; decide))
  rw [if_neg h0]
  by_cases hbt : a.headD 0 = 0x62 ∧ a.getD 1 0 = 0x74
  · rw [if_pos hbt, log_then (by rw [showBacktrace, backtraceLoop_run]), showBacktrace_inWindow, hfits]
    refine ⟨fun hfit => ⟨fun _ _ => hfit, ?_, ?_⟩, fun hfit => hfit.1 hbt.1 hbt.2⟩
    · exact fun hx => absurd (hbt.1.symm.trans hx) (by decide)
    · exact fun hu => absurd (hbt.1.symm.trans hu) (by decide)
  rw [if_neg hbt]
  by_cases hc : a.headD 0 = 0x63
  · rw [if_pos hc, Prog.get_bind_run]
    refine iff_of_true ?_ (hfree (by rw [hc]; decide) (by rw [hc]; decide) (by rw [hc]; decide))
    cases d.atBp with
    | none => exact hquiet _
    | some i => exact fun _ hx => absurd hx List.not_mem_nil
  rw [if_neg hc]
  by_cases hs : a.headD 0 = 0x73
  · rw [if_pos hs]
    refine iff_of_true (fun _ hx => absurd hx List.not_mem_nil) ?_
    exact hfree (by rw [hs]; decide) (by rw [hs]; decide) (by rw [hs]; decide)
  rw [if_neg hs]
  by_cases hq : a.headD 0 = 0x71
  · rw [if_pos hq]
    refine iff_of_true ?_ (hfree (by rw [hq]; decide) (by rw [hq]; decide) (by rw [hq]; decide))
    rw [Prog.modify_bind_run]
    have hclear : clearAllBps.total InWindow (fun _ _ => True) { d with dbgActive := false } :=
      Prog.total_mono (stable_housed.clearLoop (fun h hi => inWindow_byte.mpr (h _ hi))
        (stable_housed.congr h rfl rfl) rfl fun _ hj => absurd hj (Nat.not_lt_zero _)) (fun _ h => h)
        fun _ _ _ => trivial
    have hquit : (clearAllBps >>= fun _ => Prog.halt () : Dbg (TrapFrame × Bool)).wp InWindow
        (fun _ _ => True) (fun _ _ => True) { d with dbgActive := false } :=
      Prog.wp_bind.mpr (Prog.wp_mono hclear (fun _ h => h) (fun _ _ _ => Prog.wp_halt trivial)
        fun _ _ h => h.elim)
    exact hquit.log
  rw [if_neg hq]
  by_cases hb : a.headD 0 = 0x62
  · rw [if_pos hb]
    refine iff_of_true ?_ (hfits.mpr ⟨fun _ ht => absurd ⟨hb, ht⟩ hbt,
      fun hx => absurd (hb.symm.trans hx) (by decide), fun hu => absurd (hb.symm.trans hu) (by decide)⟩)
    split
    · rw [log_then ((stable_housed.setBp h _).returns.elim fun _ hr => hr.1)]
      exact setBp_inWindow _
    · exact hquiet _
  rw [if_neg hb]
  by_cases hd : a.headD 0 = 0x64
  · rw [if_pos hd]
    refine iff_of_true ?_ (hfree hb (by rw [hd]; decide) (by rw [hd]; decide))
    split
    · rw [log_then ((stable_housed.delBp h _).returns.elim fun _ hr => hr.1)]
      exact delBp_inWindow h _
    · exact hquiet _
  rw [if_neg hd]
  by_cases hx : a.headD 0 = 0x78
  · have hu : a.headD 0 ≠ 0x75 := by
      rw [hx]
      decide
    rw [if_pos hx, hfits]
    split
    · next hok =>
      have hdone : (showMem (parseHex a.tail).1 (dumpCount a.tail) d).out = .done () := by
        unfold showMem
        split
        · rfl
        · rw [memLoop_run]
      rw [log_then hdone, showMem_inWindow]
      exact ⟨fun hfit => ⟨fun h => absurd h hb, fun _ _ => hfit, fun h => absurd h hu⟩, fun hfit => hfit.2.1 hx hok⟩
    · next hno =>
      exact iff_of_true (hquiet _) ⟨fun h => absurd h hb, fun _ hok => absurd hok hno, fun h => absurd h hu⟩
  rw [if_neg hx]
  by_cases hu : a.headD 0 = 0x75
  · rw [if_pos hu, log_then (by rw [showDisasm, disasmLoop_run]), showDisasm_inWindow h, hfits]
    exact ⟨fun hfit => ⟨fun h => absurd h hb, fun h => absurd h hx, fun _ => hfit⟩, fun hfit => hfit.2.2 hu⟩
  · rw [if_neg hu]
    exact iff_of_true (hquiet _) (hfree hb hx hu)

/-- In every session, the bytes that a command line has read and written are in the user region exactly when
a backtrace meets no frame in its last seven bytes, the rows of a dump end in it, and each instruction of a
listing has eight bytes in it. -/
theorem commands_inWindow_iff {events : List Event} {s : Session}
    (hrun : (Session.start d).run events = some s) (f : TrapFrame) (line : List UInt8) :
    (∀ x ∈ (dbgLine f line s.dbg).log, InWindow x) ↔ LineFits s.dbg f line :=
  dbgLine_inWindow (housed_of_run hrun) f line

/-- At the first stop of a program. -/
def stopped : List Event := [.bpTrap (trapAt 0x200001)]

/-- `x 2fffc0` dumps the last 64 bytes of the region. -/
theorem commands_inWindow_last : ∃ s, (Session.start loaded).run stopped = some s ∧
    ∀ x ∈ (dbgLine (trapAt 0x200000) [0x78, 0x20, 0x32, 0x66, 0x66, 0x66, 0x63, 0x30] s.dbg).log, InWindow x := by
  obtain ⟨s, hs⟩ := Option.isSome_iff_exists.mp
    (show ((Session.start loaded).run stopped).isSome = true by decide +kernel)
  exact ⟨s, hs, (commands_inWindow_iff hs _ _).mpr
    ⟨fun h => absurd h (by decide), fun _ _ _ => by decide, fun h => absurd h (by decide)⟩⟩

/-- The claim fails for `x 2fffff`: the dump goes on behind the region. -/
theorem commands_not_inWindow : ¬ ∀ (d : Debugger) (events : List Event) (s : Session) (f : TrapFrame)
    (line : List UInt8), (Session.start d).run events = some s →
      ∀ x ∈ (dbgLine f line s.dbg).log, InWindow x := by
  intro h
  obtain ⟨s, hs⟩ := Option.isSome_iff_exists.mp
    (show ((Session.start loaded).run stopped).isSome = true by decide +kernel)
  have hfit := (dbgLine_inWindow (housed_of_run hs) (trapAt 0x200000) _).mp
    (h loaded stopped s _ [0x78, 0x20, 0x32, 0x66, 0x66, 0x66, 0x66, 0x66] hs)
  exact absurd (hfit.dump (by decide) (by decide) (by decide)) (by decide)

end RainbowOs.Kernel.Debug
