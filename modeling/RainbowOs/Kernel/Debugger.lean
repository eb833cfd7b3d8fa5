import RainbowOs.Kernel.Disasm
import RainbowOs.Kernel.Paging

/-!
# The debugger

`kernel/debug/debugger.c`: a table of sixteen breakpoints, each a byte of the
program replaced by `int3`, a prompt that is opened in the handlers of the two
debug traps, and a session that runs a program under them. Memory is the
debugger's own view of it, byte by byte, and every access to it is logged. The
text that goes to the screen is left out.

A session is a program that runs and traps as it likes. What it did between two
traps is an event that hands over the memory it left.
-/

namespace RainbowOs.Kernel.Debug

open RainbowOs.Lib
open RainbowOs.Cc (cgLoadAddr)
open X86 (Word)

/-- `#define TF` -/
abbrev tf : Word := 0x100

/-- `#define MAX_BP` -/
abbrev maxBp : Nat := 16

/-- `struct bp` -/
structure Bp where
  addr : Word
  orig : UInt8
  active : Bool
  deriving DecidableEq, Repr

/-- Memory, and the statics of `debugger.c`. An index of -1 is `none`. -/
structure Debugger where
  mem : Bytes
  bps : Nat → Bp
  dbgActive : Bool
  pendingReinsert : Option Nat
  wantStep : Bool
  atBp : Option Nat

/-- The fields of `struct isr_frame` that the debugger goes by. -/
structure TrapFrame where
  ebp : Word
  eip : Word
  cs : Nat
  eflags : Word
  deriving DecidableEq, Repr

/-- An access to memory: `len` bytes from `addr`. -/
structure Access where
  write : Bool
  addr : Nat
  len : Nat
  deriving DecidableEq, Repr

/-- Code of the debugger. A stop is `prog_fault`, which does not return. -/
abbrev Dbg (α : Type) := Prog Debugger Unit Access α

def loadByte (addr : Word) : Dbg UInt8 := do
  Prog.tell ⟨false, addr.toNat, 1⟩
  return (← Prog.get).mem addr.toNat

def loadDword (addr : Word) : Dbg Word := do
  Prog.tell ⟨false, addr.toNat, 4⟩
  return BitVec.ofNat 32 ((← Prog.get).mem.word32 addr.toNat)

def storeByte (addr : Word) (b : UInt8) : Dbg Unit := do
  Prog.tell ⟨true, addr.toNat, 1⟩
  Prog.modify fun d => { d with mem := Function.update d.mem addr.toNat b }

/-! ## The breakpoint table -/

/-- `in_user` -/
def inUser (a : Word) : Bool := userRegionBase ≤ a.toNat && a.toNat < userRegionTop

/-- `find_bp` -/
def Debugger.findBp (d : Debugger) (addr : Word) : Option Nat :=
  (List.range maxBp).find? fun i => (d.bps i).active && (d.bps i).addr == addr

def Debugger.setSlot (d : Debugger) (i : Nat) (b : Bp) : Debugger :=
  { d with bps := Function.update d.bps i b }

/-- `bps[i].active = 0` -/
def Debugger.drop (d : Debugger) (i : Nat) : Debugger :=
  d.setSlot i { d.bps i with active := false }

/-- `arm_bp` -/
def armBp (i : Nat) : Dbg Unit := do
  storeByte ((← Prog.get).bps i).addr 0xCC

/-- `disarm_bp` -/
def disarmBp (i : Nat) : Dbg Unit := do
  storeByte ((← Prog.get).bps i).addr ((← Prog.get).bps i).orig

/-- `set_bp` -/
def setBp (addr : Word) : Dbg Unit := do
  if inUser addr = false then return () -- "addr outside program"
  else if ((← Prog.get).findBp addr).isSome then return () -- "bp exists"
  else
    let d ← Prog.get
    match (List.range maxBp).find? fun i => !(d.bps i).active with
    | some i =>
      let orig ← loadByte addr
      Prog.modify fun d => d.setSlot i ⟨addr, orig, true⟩
      armBp i
    | none => return () -- "bp table full"

/-- `del_bp` -/
def delBp (addr : Word) : Dbg Unit := do
  match (← Prog.get).findBp addr with
  | some i =>
    disarmBp i
    Prog.modify fun d => d.drop i
  | none => return () -- "no bp there"

/-- The loop of `clear_all_bps`, over `n` slots from `i`. -/
def clearLoop : (n i : Nat) → Dbg Unit
  | 0, _ => return ()
  | n + 1, i => do
    if ((← Prog.get).bps i).active then
      disarmBp i
      Prog.modify fun d => d.drop i
      clearLoop n (i + 1)
    else clearLoop n (i + 1)

/-- `clear_all_bps` -/
def clearAllBps : Dbg Unit := clearLoop maxBp 0

/-- `code_byte` -/
def codeByte (addr : Word) : Dbg UInt8 := do
  let d ← Prog.get
  match d.findBp addr with
  | some i => return (d.bps i).orig
  | none => loadByte addr

/-! ## The views -/

/-- A pass of `show_mem` over a row, `n` bytes from byte `i` of it. -/
def rowLoop (addr : Word) : (n i : Nat) → Dbg Unit
  | 0, _ => return ()
  | n + 1, i => do
    let _ ← loadByte (addr + BitVec.ofNat 32 i)
    rowLoop addr n (i + 1)

/-- The rows of `show_mem`, `n` of them from row `row`: each is gone over twice. -/
def memLoop (addr : Word) : (n row : Nat) → Dbg Unit
  | 0, _ => return ()
  | n + 1, row => do
    rowLoop (addr + BitVec.ofNat 32 (16 * row)) 16 0
    rowLoop (addr + BitVec.ofNat 32 (16 * row)) 16 0
    memLoop addr n (row + 1)

/-- The rounds of `for (int row = 0; row < n; row += 16)`. -/
def rows (n : Int) : Nat := ((n + 15) / 16).toNat

/-- `show_mem` -/
def showMem (addr : Word) (n : Int) : Dbg Unit :=
  if inUser addr = false then return () else memLoop addr (rows n) 0

/-- The loop of `show_disasm` that fills `buf`, `n` bytes from byte `j`. -/
def codeLoop (addr : Word) : (n j : Nat) → Dbg (List UInt8)
  | 0, _ => return []
  | n + 1, j => do
    let b ← codeByte (addr + BitVec.ofNat 32 j)
    return b :: (← codeLoop addr n (j + 1))

/-- What `disasm_one` answers for a buffer. -/
def lengthOf (buf : List UInt8) (addr : Word) : Nat := (disasmOne (fun k => buf.getD k 0) addr 64).2

/-- `n` rounds of `show_disasm`. -/
def disasmLoop : (n : Nat) → Word → Dbg Unit
  | 0, _ => return ()
  | n + 1, addr => do
    let buf ← codeLoop addr 8 0
    disasmLoop n (addr + BitVec.ofNat 32 (lengthOf buf addr))

/-- `show_disasm` -/
def showDisasm (addr : Word) : Dbg Unit := disasmLoop 10 addr

/-- `n` rounds of `show_backtrace`. -/
def backtraceLoop : (n : Nat) → Word → Dbg Unit
  | 0, _ => return ()
  | n + 1, ebp => do
    if inUser ebp = false ∨ ebp = 0 then return ()
    else
      let ret ← loadDword (ebp + 4)
      let prev ← loadDword ebp
      if inUser ret = false then return () else backtraceLoop n prev

/-- `show_backtrace` -/
def showBacktrace (f : TrapFrame) : Dbg Unit := backtraceLoop 15 f.ebp

/-! ## The command line -/

/-- `skip_ws` -/
def skipWs (s : List UInt8) : List UInt8 := s.dropWhile (· == 0x20)

/-- The value of a hexadecimal digit, as `parse_hex` takes it. -/
def hexValue (c : UInt8) : Option Nat :=
  if 0x30 ≤ c ∧ c ≤ 0x39 then some (c.toNat - 0x30)
  else if 0x61 ≤ c ∧ c ≤ 0x66 then some (c.toNat - 0x61 + 10)
  else if 0x41 ≤ c ∧ c ≤ 0x46 then some (c.toNat - 0x41 + 10)
  else none

/-- The digits of `parse_hex`: the value so far, and whether there has been one. -/
def hexLoop (v : Word) (any : Bool) : List UInt8 → Word × Bool
  | [] => (v, any)
  | c :: s =>
    match hexValue c with
    | some d => hexLoop (v * 16 + BitVec.ofNat 32 d) true s
    | none => (v, any)

/-- `parse_hex`: the value and `ok`. -/
def parseHex (s : List UInt8) : Word × Bool :=
  let s := skipWs s
  if s.headD 0 = 0x30 ∧ (s.getD 1 0 = 0x78 ∨ s.getD 1 0 = 0x58) then hexLoop 0 false (s.drop 2)
  else hexLoop 0 false s

/-- The number of bytes that an `x` command asks for: what is after its address, 64 if that is no number. -/
def dumpCount (rest : List UInt8) : Int :=
  let n := parseHex ((skipWs rest).dropWhile (· != 0x20))
  if n.2 then n.1.toInt else 64

/-- A line typed at the prompt of `dbg_repl`: the frame it leaves, and whether the program goes on. -/
def dbgLine (f : TrapFrame) (line : List UInt8) : Dbg (TrapFrame × Bool) := do
  let a := skipWs line
  let cmd := a.headD 0
  let rest := a.tail
  if cmd = 0 then return (f, false)
  else if cmd = 0x62 ∧ a.getD 1 0 = 0x74 then -- bt
    showBacktrace f
    return (f, false)
  else if cmd = 0x63 then -- c
    match (← Prog.get).atBp with
    | some i =>
      Prog.modify fun d => { d with pendingReinsert := some i, wantStep := false }
      return ({ f with eflags := f.eflags ||| tf }, true)
    | none => return ({ f with eflags := f.eflags &&& ~~~tf }, true)
  else if cmd = 0x73 then -- s
    Prog.modify fun d => { d with
      wantStep := true
      pendingReinsert := if d.atBp.isSome then d.atBp else d.pendingReinsert }
    return ({ f with eflags := f.eflags ||| tf }, true)
  else if cmd = 0x71 then -- q
    Prog.modify fun d => { d with dbgActive := false }
    clearAllBps
    Prog.halt ()
  else if cmd = 0x62 then -- b
    if (parseHex rest).2 then
      setBp (parseHex rest).1
      return (f, false)
    else return (f, false)
  else if cmd = 0x64 then -- d
    if (parseHex rest).2 then
      delBp (parseHex rest).1
      return (f, false)
    else return (f, false)
  else if cmd = 0x78 then -- x
    if (parseHex rest).2 then
      showMem (parseHex rest).1 (dumpCount rest)
      return (f, false)
    else return (f, false)
  else if cmd = 0x75 then -- u
    showDisasm (if (parseHex rest).2 then (parseHex rest).1 else f.eip)
    return (f, false)
  else return (f, false) -- r, h and what is no command

/-! ## The traps -/

/-- `dbg_bp_handler`, up to the first prompt. -/
def dbgBpHandler (f : TrapFrame) : Dbg TrapFrame := do
  let d ← Prog.get
  if d.dbgActive = false ∨ f.cs % 4 ≠ 3 then Prog.halt ()
  else
    match d.findBp (f.eip - 1) with
    | some i =>
      disarmBp i
      Prog.modify fun d => { d with atBp := some i }
      showDisasm (f.eip - 1)
      return { f with eip := f.eip - 1 }
    | none =>
      Prog.modify fun d => { d with atBp := none }
      showDisasm f.eip
      return f

/-- The start of `dbg_step_handler`: the breakpoint that was stepped off is armed again. -/
def reinsert : Dbg Unit := do
  match (← Prog.get).pendingReinsert with
  | some i =>
    armBp i
    Prog.modify fun d => { d with pendingReinsert := none }
  | none => return ()

/-- `dbg_step_handler`, up to the first prompt: the frame, and whether there is a prompt. -/
def dbgStepHandler (f : TrapFrame) : Dbg (TrapFrame × Bool) := do
  let d ← Prog.get
  if d.dbgActive = false ∨ f.cs % 4 ≠ 3 then return (f, false)
  else
    reinsert
    if d.wantStep then
      Prog.modify fun d => { d with atBp := none }
      showDisasm f.eip
      return (f, true)
    else return ({ f with eflags := f.eflags &&& ~~~tf }, false)

/-! ## Runs of the views

A view changes nothing, so its run is the list of what it reads. -/

section Views

variable (d : Debugger)

theorem loadByte_run (addr : Word) :
    loadByte addr d = ⟨.done (d.mem addr.toNat), d, [⟨false, addr.toNat, 1⟩]⟩ := rfl

theorem loadDword_run (addr : Word) : loadDword addr d =
    ⟨.done (BitVec.ofNat 32 (d.mem.word32 addr.toNat)), d, [⟨false, addr.toNat, 4⟩]⟩ := rfl

/-- What a pass over a row reads. -/
def rowLog (addr : Word) (n i : Nat) : List Access :=
  (List.range' i n).map fun k => ⟨false, (addr + BitVec.ofNat 32 k).toNat, 1⟩

theorem rowLoop_run (addr : Word) (n i : Nat) : rowLoop addr n i d = ⟨.done (), d, rowLog addr n i⟩ := by
  induction n generalizing i with
  | zero => rfl
  | succ n ih =>
    show (loadByte (addr + BitVec.ofNat 32 i) >>= fun _ => rowLoop addr n (i + 1)) d = _
    rw [Prog.bind_run_done (loadByte_run d _), ih]
    rfl

theorem memLoop_run (addr : Word) (n row : Nat) : memLoop addr n row d = ⟨.done (), d,
    (List.range' row n).flatMap fun r => rowLog (addr + BitVec.ofNat 32 (16 * r)) 16 0 ++
      rowLog (addr + BitVec.ofNat 32 (16 * r)) 16 0⟩ := by
  induction n generalizing row with
  | zero => rfl
  | succ n ih =>
    rw [memLoop, Prog.bind_run_done (rowLoop_run d _ 16 0), Prog.bind_run_done (rowLoop_run d _ 16 0), ih,
      List.range'_succ, List.flatMap_cons, List.append_assoc]

/-- What `code_byte` answers. -/
def Debugger.code (addr : Word) : UInt8 :=
  match d.findBp addr with
  | some i => (d.bps i).orig
  | none => d.mem addr.toNat

/-- What `code_byte` reads of memory. -/
def Debugger.codeLog (addr : Word) : List Access :=
  match d.findBp addr with
  | some _ => []
  | none => [⟨false, addr.toNat, 1⟩]

theorem codeByte_run (addr : Word) : codeByte addr d = ⟨.done (d.code addr), d, d.codeLog addr⟩ := by
  unfold codeByte Debugger.code Debugger.codeLog
  rw [Prog.get_bind_run]
  cases d.findBp addr with
  | none => rfl
  | some i => rfl

theorem codeLoop_run (addr : Word) (n j : Nat) : codeLoop addr n j d =
    ⟨.done ((List.range' j n).map fun k => d.code (addr + BitVec.ofNat 32 k)), d,
      (List.range' j n).flatMap fun k => d.codeLog (addr + BitVec.ofNat 32 k)⟩ := by
  induction n generalizing j with
  | zero => rfl
  | succ n ih =>
    rw [codeLoop, Prog.bind_run_done (codeByte_run d _), Prog.bind_run_done (ih (j + 1)), List.range'_succ,
      List.map_cons, List.flatMap_cons]
    rw [Prog.pure_run, List.append_nil]

/-- The address after the instruction at `addr`, as the debugger decodes it. -/
def Debugger.after (addr : Word) : Word :=
  addr + BitVec.ofNat 32 (lengthOf ((List.range' 0 8).map fun k => d.code (addr + BitVec.ofNat 32 k)) addr)

/-- The addresses of the next `n` instructions. -/
def Debugger.insns : (n : Nat) → Word → List Word
  | 0, _ => []
  | n + 1, addr => addr :: Debugger.insns n (d.after addr)

theorem disasmLoop_run (n : Nat) (addr : Word) : disasmLoop n addr d = ⟨.done (), d,
    (d.insns n addr).flatMap fun a =>
      (List.range' 0 8).flatMap fun k => d.codeLog (a + BitVec.ofNat 32 k)⟩ := by
  induction n generalizing addr with
  | zero => rfl
  | succ n ih =>
    rw [disasmLoop, Prog.bind_run_done (codeLoop_run d addr 8 0), ih, Debugger.insns, List.flatMap_cons]
    rfl

/-- The frames that a backtrace looks into, `n` of them at most. -/
def Debugger.frames : (n : Nat) → Word → List Word
  | 0, _ => []
  | n + 1, ebp =>
    if inUser ebp = false ∨ ebp = 0 then []
    else ebp :: if inUser (BitVec.ofNat 32 (d.mem.word32 (ebp + 4).toNat)) = false then []
      else Debugger.frames n (BitVec.ofNat 32 (d.mem.word32 ebp.toNat))

theorem backtraceLoop_run (n : Nat) (ebp : Word) : backtraceLoop n ebp d = ⟨.done (), d,
    (d.frames n ebp).flatMap fun e => [⟨false, (e + 4).toNat, 4⟩, ⟨false, e.toNat, 4⟩]⟩ := by
  induction n generalizing ebp with
  | zero => rfl
  | succ n ih =>
    rw [backtraceLoop, Debugger.frames]
    by_cases hout : inUser ebp = false ∨ ebp = 0
    · rw [if_pos hout, if_pos hout]
      rfl
    · rw [if_neg hout, if_neg hout, Prog.bind_run_done (loadDword_run d _),
        Prog.bind_run_done (loadDword_run d _), List.flatMap_cons]
      by_cases hret : inUser (BitVec.ofNat 32 (d.mem.word32 (ebp + 4).toNat)) = false
      · rw [if_pos hret, if_pos hret]
        rfl
      · rw [if_neg hret, if_neg hret, ih]
        rfl

end Views

/-! ## Sessions -/

/-- What the processor is in: the program, the prompt with the frame it was opened on, or neither any more. -/
inductive Mode where
  | running
  | stopped (f : TrapFrame)
  | finished
  deriving DecidableEq, Repr

structure Session where
  dbg : Debugger
  mode : Mode

/-- What can happen next: the program runs for a while and leaves memory, it traps, it ends, or a line is
typed at the prompt. -/
inductive Event where
  | execute (mem : Bytes)
  | bpTrap (f : TrapFrame)
  | stepTrap (f : TrapFrame)
  | exit
  | line (s : List UInt8)

namespace Session

/-- The statics as `debugger_run` initialises them. -/
def fresh (d : Debugger) : Debugger where
  mem := d.mem
  bps := fun i => { d.bps i with active := false }
  dbgActive := true
  pendingReinsert := none
  wantStep := false
  atBp := none

/-- `debugger_run` up to `enter_user`, from the program that `prog_load` has left in memory. -/
def start (d : Debugger) : Session where
  dbg := (setBp (BitVec.ofNat 32 cgLoadAddr) (fresh d)).state
  mode := .running

/-- `debugger_run` after `enter_user` has come back. -/
def leave (d : Debugger) : Session where
  dbg := (clearAllBps { d with dbgActive := false }).state
  mode := .finished

/-- Where a handler or a command has left the session. -/
def next {α : Type} (r : Run Debugger Unit Access α) (mode : α → Mode) : Session :=
  match r.out with
  | .done a => ⟨r.state, mode a⟩
  | .halt _ => leave r.state

/-- One event, where it can happen. -/
def step (s : Session) (e : Event) : Option Session :=
  match s.mode, e with
  | .running, .execute mem => some ⟨{ s.dbg with mem := mem }, .running⟩
  | .running, .bpTrap f => some (next (dbgBpHandler f s.dbg) .stopped)
  | .running, .stepTrap f => some (next (dbgStepHandler f s.dbg) fun r =>
      if r.2 then .stopped r.1 else .running)
  | .running, .exit => some (leave s.dbg)
  | .stopped f, .line l => some (next (dbgLine f l s.dbg) fun r =>
      if r.2 then .running else .stopped r.1)
  | _, _ => none

/-- A sequence of events. -/
def run : Session → List Event → Option Session
  | s, [] => some s
  | s, e :: es => (s.step e).bind fun s' => s'.run es

end Session

end RainbowOs.Kernel.Debug
