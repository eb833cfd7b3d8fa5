import Mathlib.Logic.Function.Iterate
import Mathlib.Tactic.Common

/-!
# Exceptions of ring-3 programs

`kernel/idt.c` dispatches every interrupt through one table, and the table
is filled in by five modules. Outside a debugger session only two of its
first 32 slots are taken, #GP and #PF; for every other exception
`isr_handler` logs a line and returns, and the `iret` takes the program
back to the instruction that faulted.

A ring-3 program is any machine that executes instructions and raises
exceptions. A fault saves the address of the faulting instruction and a
trap the address of the next one, which is all of the processor that
matters here.
-/

namespace RainbowOs.Kernel

/-- The functions that are ever registered. -/
inductive Handler where
  | timer
  | pageFault
  | keyboard
  | syscall
  | gpf
  | dbgStep
  | dbgBp
  deriving DecidableEq, Repr

/-- `interrupt_handlers` -/
abbrev HandlerTable := Nat → Option Handler

/-- The table `idt_init` leaves. -/
def idtInit : HandlerTable := fun _ => none

/-- `register_interrupt_handler` -/
def registerInterruptHandler (t : HandlerTable) (n : Nat) (handler : Option Handler) :
    HandlerTable :=
  Function.update t n handler

/-- The registrations of `kernel_main`, in the order of its calls. -/
def kernelMain : HandlerTable :=
  let t := idtInit
  let t := registerInterruptHandler t 32 (some .timer) -- timer_init
  let t := registerInterruptHandler t 14 (some .pageFault) -- paging_init
  let t := registerInterruptHandler t 33 (some .keyboard) -- keyboard_init
  let t := registerInterruptHandler t 128 (some .syscall) -- runtime_init
  registerInterruptHandler t 13 (some .gpf)

/-- The registrations of `debugger_run` before it enters the program. -/
def debuggerEnter (t : HandlerTable) : HandlerTable :=
  registerInterruptHandler (registerInterruptHandler t 1 (some .dbgStep)) 3 (some .dbgBp)

/-- And after the program is finished. -/
def debuggerLeave (t : HandlerTable) : HandlerTable :=
  registerInterruptHandler (registerInterruptHandler t 1 none) 3 none

/-- The table outside the debugger, after so many sessions of it. -/
def outsideDebugger (sessions : Nat) : HandlerTable :=
  (fun t => debuggerLeave (debuggerEnter t))^[sessions] kernelMain

/-- The fields of `struct isr_frame` that the fault handlers read. -/
structure IsrFrame where
  intNo : Nat
  eip : Nat
  cs : Nat
  deriving DecidableEq, Repr

/-- Where control goes from a handler: back to the interrupted code, to the kernel code
that entered the program, with an exit code, or nowhere. -/
inductive Effect where
  | resume
  | toKernel (exitCode : Int)
  | halt
  deriving DecidableEq, Repr

/-- `prog_fault` -/
def progFault : Effect := .toKernel (-1)

/-- `gpf_handler` -/
def gpfHandler (f : IsrFrame) : Effect := if f.cs % 4 = 3 then progFault else .halt

/-- `page_fault_handler` -/
def pageFaultHandler (f : IsrFrame) : Effect := if f.cs % 4 = 3 then progFault else .halt

/-- A registered function, given what those do that are no fault handlers. -/
def Handler.run (other : Handler → IsrFrame → Effect) : Handler → IsrFrame → Effect
  | .gpf, f => gpfHandler f
  | .pageFault, f => pageFaultHandler f
  | h, f => other h f

/-- `isr_handler`: where control goes, and the IRQ that is acknowledged on the way. -/
def isrHandler (other : Handler → IsrFrame → Effect) (t : HandlerTable) (f : IsrFrame) :
    Effect × Option Nat :=
  let effect :=
    match t f.intNo with
    | some h => h.run other f
    | none => .resume -- "Unhandled interrupt"
  match effect with
  | .resume => (.resume, if 32 ≤ f.intNo ∧ f.intNo < 48 then some (f.intNo - 32) else none)
  | e => (e, none)

/-! ## The table -/

/-- A debugger session leaves the two slots it used empty. -/
theorem debugger_session (t : HandlerTable) :
    debuggerLeave (debuggerEnter t) = fun n => if n = 1 ∨ n = 3 then none else t n := by
  funext n
  unfold debuggerLeave debuggerEnter registerInterruptHandler
  simp only [Function.update_apply]
  split_ifs <;> first | rfl | omega

theorem outsideDebugger_eq (sessions : Nat) : outsideDebugger sessions = kernelMain := by
  induction sessions with
  | zero => rfl
  | succ sessions ih =>
    unfold outsideDebugger at ih ⊢
    rw [Function.iterate_succ_apply', ih, debugger_session]
    funext n
    split_ifs with h
    · rcases h with rfl | rfl <;> rfl
    · rfl

/-- Two exceptions have a handler. -/
theorem kernelMain_exception {n : Nat} (hn : n < 32) :
    kernelMain n = if n = 13 then some .gpf else if n = 14 then some .pageFault else none := by
  unfold kernelMain registerInterruptHandler idtInit
  simp only [Function.update_apply]
  split_ifs <;> first | rfl | omega

variable (other : Handler → IsrFrame → Effect)

/-- What becomes of an exception of ring 3 outside the debugger. -/
theorem isrHandler_exception (sessions : Nat) {f : IsrFrame} (hn : f.intNo < 32)
    (hcs : f.cs % 4 = 3) :
    isrHandler other (outsideDebugger sessions) f =
      if f.intNo = 13 ∨ f.intNo = 14 then (progFault, none) else (.resume, none) := by
  have hirq : ¬ (32 ≤ f.intNo ∧ f.intNo < 48) := by omega
  unfold isrHandler
  rw [outsideDebugger_eq, kernelMain_exception hn]
  by_cases h13 : f.intNo = 13
  · rw [if_pos h13, if_pos (Or.inl h13)]
    simp only [Handler.run, gpfHandler, if_pos hcs, progFault]
  by_cases h14 : f.intNo = 14
  · rw [if_neg h13, if_pos h14, if_pos (Or.inr h14)]
    simp only [Handler.run, pageFaultHandler, if_pos hcs, progFault]
  · rw [if_neg h13, if_neg h14, if_neg (not_or.mpr ⟨h13, h14⟩)]
    simp only [if_neg hirq]

/-! ## Programs -/

/-- What a program does next: it goes on (by an instruction, or an interrupt or a system
call that returns), it leaves for the shell, or it raises an exception. -/
inductive Event (S : Type) where
  | step (s : S)
  | exit
  | fault (vector : Fin 32)
  | trap (vector : Fin 32) (s : S)

/-- A ring-3 program. -/
structure Program where
  State : Type
  eip : State → Nat
  cs : State → Nat
  ring3 : ∀ s, cs s % 4 = 3
  next : State → Event State

/-- The machine: in the program, back in the kernel, or halted. -/
inductive Cpu (S : Type) where
  | user (s : S)
  | shell
  | halted

namespace Program

variable (p : Program)

/-- The frame of the exception that is raised, if one is. -/
def exceptionAt : Cpu p.State → Option IsrFrame
  | .user s =>
    match p.next s with
    | .fault v => some ⟨v, p.eip s, p.cs s⟩
    | .trap v s' => some ⟨v, p.eip s', p.cs s'⟩
    | _ => none
  | _ => none

/-- Control after the exception with frame `f`, when the saved state is `s`. -/
def deliver (t : HandlerTable) (f : IsrFrame) (s : p.State) : Cpu p.State :=
  match (isrHandler other t f).1 with
  | .resume => .user s
  | .toKernel _ => .shell
  | .halt => .halted

/-- One step of the machine. -/
def step (t : HandlerTable) : Cpu p.State → Cpu p.State
  | .user s =>
    match p.next s with
    | .step s' => .user s'
    | .exit => .shell
    | .fault v => p.deliver other t ⟨v, p.eip s, p.cs s⟩ s
    | .trap v s' => p.deliver other t ⟨v, p.eip s', p.cs s'⟩ s'
  | c => c

/-- The machine after `n` steps from `s`. -/
def run (t : HandlerTable) (s : p.State) (n : Nat) : Cpu p.State := (p.step other t)^[n] (.user s)

theorem run_succ (t : HandlerTable) (s : p.State) (n : Nat) :
    p.run other t s (n + 1) = p.step other t (p.run other t s n) :=
  Function.iterate_succ_apply' _ _ _

/-- Every exception of the run goes through `isr_handler` to `prog_fault` and the shell. -/
def Killed (t : HandlerTable) (s : p.State) : Prop :=
  ∀ n f, p.exceptionAt (p.run other t s n) = some f →
    (isrHandler other t f).1 = progFault ∧ p.run other t s (n + 1) = .shell

/-- No exception is taken at the same place again and again. -/
def NoLoop (t : HandlerTable) (s : p.State) : Prop :=
  ∀ f, ¬ ∀ n, ∃ k, n ≤ k ∧ p.exceptionAt (p.run other t s k) = some f

variable {p} {other} {t : HandlerTable} {s : p.State}

/-- The frame of an exception comes from ring 3, with a vector below 32. -/
theorem exceptionAt_frame {c : Cpu p.State} {f : IsrFrame} (h : p.exceptionAt c = some f) :
    f.intNo < 32 ∧ f.cs % 4 = 3 := by
  cases c with
  | shell => exact absurd h.symm (Option.some_ne_none f)
  | halted => exact absurd h.symm (Option.some_ne_none f)
  | user s =>
    unfold exceptionAt at h
    cases hn : p.next s with
    | step s' => simp only [hn, reduceCtorEq] at h
    | exit => simp only [hn, reduceCtorEq] at h
    | fault v =>
      simp only [hn, Option.some.injEq] at h
      exact h ▸ ⟨v.isLt, p.ring3 s⟩
    | trap v s' =>
      simp only [hn, Option.some.injEq] at h
      exact h ▸ ⟨v.isLt, p.ring3 s'⟩

/-- An exception is delivered to its handler. -/
theorem step_of_exception {c : Cpu p.State} {f : IsrFrame} (h : p.exceptionAt c = some f) :
    ∃ s, p.step other t c = p.deliver other t f s := by
  cases c with
  | shell => exact absurd h.symm (Option.some_ne_none f)
  | halted => exact absurd h.symm (Option.some_ne_none f)
  | user s =>
    unfold exceptionAt at h
    unfold step
    cases hn : p.next s with
    | step s' => simp only [hn, reduceCtorEq] at h
    | exit => simp only [hn, reduceCtorEq] at h
    | fault v =>
      simp only [hn, Option.some.injEq] at h
      exact ⟨s, by simp only [hn, h]⟩
    | trap v s' =>
      simp only [hn, Option.some.injEq] at h
      exact ⟨s', by simp only [hn, h]⟩

/-- Once in the shell, the program is over. -/
theorem run_of_shell {n : Nat} (h : p.run other t s n = .shell) (k : Nat) :
    p.run other t s (n + k) = .shell := by
  induction k with
  | zero => exact h
  | succ k ih =>
    rw [← Nat.add_assoc, run_succ, ih]
    rfl

theorem Killed.noLoop (h : p.Killed other t s) : p.NoLoop other t s := by
  intro f hloop
  obtain ⟨k, _, hk⟩ := hloop 0
  have hshell := (h k f hk).2
  obtain ⟨j, hj, hf⟩ := hloop (k + 1)
  obtain ⟨d, rfl⟩ := Nat.exists_eq_add_of_le hj
  rw [run_of_shell hshell] at hf
  exact absurd hf.symm (Option.some_ne_none f)

/-- A fault that has no handler is taken at the same instruction for ever. -/
theorem run_of_unhandled_fault {sessions : Nat} {v : Fin 32} (hv : v.val ≠ 13 ∧ v.val ≠ 14)
    (hs : p.next s = .fault v) (n : Nat) :
    p.run other (outsideDebugger sessions) s n = .user s := by
  induction n with
  | zero => rfl
  | succ n ih =>
    have hisr := isrHandler_exception other sessions (f := ⟨v, p.eip s, p.cs s⟩) v.isLt (p.ring3 s)
    rw [if_neg (not_or.mpr hv)] at hisr
    rw [run_succ, ih]
    simp only [step, hs, deliver, hisr]

/-- Outside the debugger, a run of any ring-3 program is one in which every exception
kills the program and none is taken for ever, exactly when every exception it raises is a
#GP or a page fault. -/
theorem exceptions_killed_iff (other : Handler → IsrFrame → Effect) (sessions : Nat)
    (p : Program) (s : p.State) :
    (p.Killed other (outsideDebugger sessions) s ∧ p.NoLoop other (outsideDebugger sessions) s) ↔
      ∀ n f, p.exceptionAt (p.run other (outsideDebugger sessions) s n) = some f →
        f.intNo = 13 ∨ f.intNo = 14 := by
  constructor
  · rintro ⟨hkill, _⟩ n f hf
    obtain ⟨hlt, hcs⟩ := exceptionAt_frame hf
    have hfault := (hkill n f hf).1
    rw [isrHandler_exception other sessions hlt hcs] at hfault
    by_contra hne
    rw [if_neg hne] at hfault
    exact absurd hfault (by decide)
  · intro h
    have hkill : p.Killed other (outsideDebugger sessions) s := by
      intro n f hf
      obtain ⟨hlt, hcs⟩ := exceptionAt_frame hf
      have hisr := isrHandler_exception other sessions hlt hcs
      rw [if_pos (h n f hf)] at hisr
      obtain ⟨s', hstep⟩ := step_of_exception (t := outsideDebugger sessions) hf
      refine ⟨congrArg Prod.fst hisr, ?_⟩
      rw [run_succ, hstep]
      simp only [deliver, hisr, progFault]
    exact ⟨hkill, hkill.noLoop⟩

end Program

/-- A program whose first instruction divides by zero. -/
def divideByZero : Program where
  State := Unit
  eip _ := 0x200000
  cs _ := 0x1B
  ring3 _ := rfl
  next _ := .fault 0

/-- It is not killed: it takes the same fault for ever. -/
theorem exceptions_not_killed :
    ¬ ∀ (other : Handler → IsrFrame → Effect) (sessions : Nat) (p : Program) (s : p.State),
      p.Killed other (outsideDebugger sessions) s ∧ p.NoLoop other (outsideDebugger sessions) s := by
  intro h
  obtain ⟨_, hloop⟩ := h (fun _ _ => .resume) 0 divideByZero ()
  refine hloop ⟨0, 0x200000, 0x1B⟩ fun n => ⟨n, Nat.le_refl n, ?_⟩
  have hrun : divideByZero.run (fun _ _ => .resume) (outsideDebugger 0) () n = .user () :=
    Program.run_of_unhandled_fault (v := 0) (by decide) rfl n
  rw [hrun]
  rfl

end RainbowOs.Kernel
