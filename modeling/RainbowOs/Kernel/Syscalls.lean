import RainbowOs.Basic.Decimal
import RainbowOs.Fat12.Persist
import RainbowOs.Kernel.Console
import RainbowOs.Kernel.Scancodes
import RainbowOs.Kernel.Window
import RainbowOs.Lib.Zoom

/-!
# System calls

`kernel/cc/runtime.c`: a program in ring 3 asks for a service with `int 0x80`, its number
in EAX and the address of its arguments in EBX. Every address that a program hands over is
checked before the kernel goes there for it.

`ram` is the memory as programs and the pointers of system calls see it; the statics of the
kernel have fields of their own. Where they end in memory is left open: a store below that
end may make anything of them. The log of a call has what it has accessed through a pointer
of the program, in the grid of the console, in the mounted volume and on the drive.
-/

namespace RainbowOs.Kernel

open RainbowOs.Lib
open RainbowOs.Fat12 (DiskState CString Fault AtaCommand Fat fat12ReadFile fat12WriteFile diskfsWriteFile
  onVol syncAfter)
open X86 (Word)

/-- What `prog_arg` holds: 63 characters at most, and a NUL. -/
abbrev ProgArg : Type := { s : List UInt8 // (0 : UInt8) ∉ s ∧ s.length < 64 }

/-- The memory, and the statics behind the system calls. `incoming` are the scancodes that
arrive while a call waits for a key. -/
structure System where
  ram : Bytes
  console : Console
  keys : KeyboardStatics
  incoming : List UInt8
  ticks : Nat
  disk : DiskState
  progArg : ProgArg
  progExited : Bool
  progExitCode : Int

/-- Why a call does not return to the program. -/
inductive Stop where
  /-- `return_to_kernel` -/
  | toKernel
  /-- No key comes. -/
  | waiting
  /-- The text has no end in all of memory. -/
  | runaway
  | file (e : Fault)
  deriving DecidableEq, Repr

/-- What a call accesses. -/
inductive Touch where
  | user (x : Debug.Access)
  | grid (x : Cells)
  | volume (onRamdisk : Bool) (x : Fat12.Access)
  | drive (c : AtaCommand)
  deriving DecidableEq, Repr

abbrev Sys (α : Type) := Prog System Stop Touch α

/-- A call of the console. -/
def onConsole {α : Type} (p : Vga α) : Sys α :=
  Prog.zoom ⟨System.console, fun console s => { s with console }⟩ (fun _ => .runaway) .grid p

/-- Code that commands the drive. -/
def onDisk {α : Type} (p : Fat12.Disk α) : Sys α :=
  Prog.zoom ⟨System.disk, fun disk s => { s with disk }⟩ .file .drive p

/-- A driver call on the buffer that `vol` points to. -/
def onVolume {α : Type} (p : Fat α) : Sys α := do
  let onRamdisk := (← Prog.get).disk.onRamdisk
  Prog.zoom ⟨fun s => s.disk.vol, fun vol s => { s with disk := s.disk.setVol vol }⟩ .file (.volume onRamdisk) p

/-- `fat12_read_file` of the mounted volume. -/
def readFile (name : CString) (bufSize : Nat) : Sys (Option (List UInt8)) := do
  onVolume (fat12ReadFile (← Prog.get).disk.bpb name bufSize)

/-- `diskfs_write_file` -/
def writeFile (name : CString) (data : List UInt8) : Sys Int := do
  let result ← onVolume (fat12WriteFile (← Prog.get).disk.bpb name data)
  onDisk (syncAfter result)
  return result

/-- It is the call of the file system, with the accesses to the volume in the log. -/
theorem writeFile_diskfs (name : CString) (data : List UInt8) (s : System) :
    (writeFile name data s).out = (onDisk (diskfsWriteFile name data) s).out ∧
      (writeFile name data s).state = (onDisk (diskfsWriteFile name data) s).state := by
  obtain ⟨⟨out, v, log⟩, hrun⟩ : ∃ r, fat12WriteFile s.disk.bpb name data s.disk.vol = r := ⟨_, rfl⟩
  have hvolume : onVolume (fat12WriteFile s.disk.bpb name data) s =
      ⟨out.mapHalt .file, { s with disk := s.disk.setVol v }, log.map (.volume s.disk.onRamdisk)⟩ := by
    unfold onVolume
    rw [Prog.get_bind_run, Prog.zoom, hrun]
  have hvol : onVol (fat12WriteFile s.disk.bpb name data) s.disk = ⟨out, s.disk.setVol v, []⟩ := by
    rw [onVol, hrun]
  show (writeFile name data s).out = (diskfsWriteFile name data s.disk).out.mapHalt .file ∧
    (writeFile name data s).state = { s with disk := (diskfsWriteFile name data s.disk).state }
  unfold writeFile diskfsWriteFile
  rw [Prog.get_bind_run, Prog.get_bind_run]
  cases out with
  | halt e =>
    rw [Prog.bind_run_halt hvolume, Prog.bind_run_halt hvol]
    exact ⟨rfl, rfl⟩
  | done r =>
    rw [Prog.bind_run_done hvolume, Prog.bind_run_done hvol]
    obtain ⟨⟨out', d, log'⟩, hsync⟩ : ∃ r', syncAfter r (s.disk.setVol v) = r' := ⟨_, rfl⟩
    have hzoom : onDisk (syncAfter r)
        { s with disk := s.disk.setVol v } = ⟨out'.mapHalt .file, { s with disk := d }, log'.map .drive⟩ := by
      rw [onDisk, Prog.zoom, hsync]
    cases out' with
    | halt e =>
      rw [Prog.bind_run_halt hzoom, Prog.bind_run_halt hsync]
      exact ⟨rfl, rfl⟩
    | done _ =>
      rw [Prog.bind_run_done hzoom, Prog.bind_run_done hsync]
      exact ⟨rfl, rfl⟩

/-- Where the linker has put the end of the kernel, and what its statics are after a store to a
byte before that. -/
structure Placement where
  kernelEnd : Nat
  scribble : System → System

/-- A store to `addr` and up is done: the statics are no longer what they were if it was theirs. -/
def Placement.stored (place : Placement) (addr : Nat) (s : System) : System :=
  if addr < place.kernelEnd then place.scribble s else s

variable (place : Placement)

/-! ## Memory of the program -/

def loadUser (addr n : Nat) : Sys (List UInt8) := do
  Prog.tell (.user ⟨false, addr, n⟩)
  return (← Prog.get).ram.slice addr n

def wordAt (ram : Bytes) (addr : Word) : Word := BitVec.ofNat 32 (ram.word32 addr.toNat)

def loadWord (addr : Word) : Sys Word := do
  Prog.tell (.user ⟨false, addr.toNat, 4⟩)
  return wordAt (← Prog.get).ram addr

def storeUser (addr : Nat) (bs : List UInt8) : Sys Unit := do
  Prog.tell (.user ⟨true, addr, bs.length⟩)
  Prog.modify fun s => if bs = [] then s else place.stored addr { s with ram := s.ram.store addr bs }

/-- `prog_fault` -/
def Sys.progFault (reason : String) : Sys Unit := do
  onConsole do
    vgaSetColor 12 0
    vgaWrite (ascii "\n[program killed: ")
    vgaWrite (ascii reason)
    vgaWrite (ascii "]\n")
    vgaSetColor 15 0
  Prog.modify fun s => { s with progExitCode := -1, progExited := true }
  Prog.halt .toKernel

/-- `user_range_ok` -/
def userRangeOk (addr len : Word) : Bool :=
  let stop := addr + len
  len = 0 || (stop ≥ addr && userRegionBase ≤ addr.toNat && stop.toNat ≤ userRegionTop)

/-- The loop of `user_str_ok`. -/
def scanNul : (n addr : Nat) → Sys Bool
  | 0, _ => return false
  | n + 1, addr => do
    if (← loadUser addr 1) = [0] then return true else scanNul n (addr + 1)

/-- `user_str_ok` -/
def userStrOk (addr : Word) : Sys Bool :=
  if addr.toNat < userRegionBase ∨ addr.toNat ≥ userRegionTop then return false
  else scanNul (userRegionTop - addr.toNat) addr.toNat

/-- `check_ptr` -/
def checkPtr (addr len : Word) : Sys Unit :=
  if userRangeOk addr len then return () else Sys.progFault "bad syscall pointer"

/-- `check_str` -/
def checkStr (addr : Word) : Sys Unit := do
  if ← userStrOk addr then return () else Sys.progFault "bad syscall pointer"

/-- A C string in memory, read to its NUL. The addresses wrap around. -/
def readString : (fuel : Nat) → Word → Sys (List UInt8)
  | 0, _ => Prog.halt .runaway
  | n + 1, addr => do
    let b := (← loadUser addr.toNat 1).getD 0 0
    if b = 0 then return []
    else
      let rest ← readString n (addr + 1)
      return b :: rest

/-- The number of addresses. -/
abbrev addresses : Nat := 4294967296

theorem zero_notMem_takeWhile (s : List UInt8) : (0 : UInt8) ∉ s.takeWhile (· ≠ 0) := fun h => by
  simpa using List.mem_takeWhile_imp h

def toCString (s : List UInt8) : CString := ⟨s.takeWhile (· ≠ 0), zero_notMem_takeWhile s⟩

/-! ## Printing -/

/-- The loop of `print_hex`: the digits from the last one on. -/
def hexRev : (n val : Nat) → List UInt8
  | 0, _ => []
  | n + 1, val =>
    if val = 0 then []
    else (if val % 16 < 10 then 0x30 + UInt8.ofNat (val % 16) else 0x61 + UInt8.ofNat (val % 16) - 10) ::
      hexRev n (val / 16)

/-- `print_hex` -/
def printHex (val : Word) : List UInt8 := if val = 0 then [0x30] else (hexRev 9 val.toNat).reverse

/-- `print_unsigned` -/
def printUnsigned (val : Word) : List UInt8 :=
  if val = 0 then [0x30] else (Basic.digitsRev 12 val.toNat).reverse

/-- `next_arg`, with the address of the argument after it. -/
def nextArg (ap : Word) : Sys (Word × Word) := do
  checkPtr ap 4
  let arg ← loadWord ap
  return (arg, ap + 4)

/-- `vga_write` of a string of the program. -/
def writeString (addr : Word) : Sys Unit := do
  let s ← readString addresses addr
  onConsole (vgaWrite s)

/-- The `switch` of `do_printf`. -/
def directive (c : UInt8) (ap : Word) : Sys Word := do
  if c = 0x64 then
    let (val, ap) ← nextArg ap
    onConsole (vgaWrite (Basic.printDec val.toInt))
    return ap
  else if c = 0x75 then
    let (val, ap) ← nextArg ap
    onConsole (vgaWrite (printUnsigned val))
    return ap
  else if c = 0x78 then
    let (val, ap) ← nextArg ap
    onConsole (vgaWrite (printHex val))
    return ap
  else if c = 0x73 then
    let (s, ap) ← nextArg ap
    if s = 0 then return ap
    else
      checkStr s
      writeString s
      return ap
  else if c = 0x63 then
    let (val, ap) ← nextArg ap
    onConsole (vgaPutchar (UInt8.ofNat val.toNat))
    return ap
  else if c = 0x25 then
    onConsole (vgaPutchar 0x25)
    return ap
  else
    onConsole (vgaWrite [0x25, c])
    return ap

/-- `do_printf`; the result is 0. A character that follows a `%` is passed over, a NUL too. -/
def doPrintf : (fuel : Nat) → (fmt ap : Word) → Sys Unit
  | 0, _, _ => Prog.halt .runaway
  | n + 1, fmt, ap => do
    let c := (← loadUser fmt.toNat 1).getD 0 0
    if c = 0 then return ()
    else if c = 0x25 then
      let d := (← loadUser (fmt + 1).toNat 1).getD 0 0
      let ap ← directive d ap
      doPrintf n (fmt + 2) ap
    else
      onConsole (vgaPutchar c)
      doPrintf n (fmt + 1) ap

/-! ## The calls -/

/-- The `SYS_` constants. -/
inductive Syscall where
  | putchar | getchar | puts | exit | peek | poke | memset | printf
  | ticks | keydown | keydownExt | blit | getfont | yield | clear | kbflush
  | putat | setcur | dims | readfile | writefile | getarg | setcolor | haskey
  deriving DecidableEq, Repr

/-- In the order of their numbers. -/
def syscalls : List Syscall :=
  [.putchar, .getchar, .puts, .exit, .peek, .poke, .memset, .printf,
    .ticks, .keydown, .keydownExt, .blit, .getfont, .yield, .clear, .kbflush,
    .putat, .setcur, .dims, .readfile, .writefile, .getarg, .setcolor, .haskey]

/-- `sys_argc` -/
def Syscall.argc : Syscall → Nat
  | .getchar | .ticks | .yield | .clear | .kbflush | .dims | .haskey => 0
  | .putchar | .puts | .exit | .peek | .printf | .keydown | .keydownExt | .blit | .getfont => 1
  | .poke | .setcur | .getarg | .setcolor => 2
  | .memset | .readfile | .writefile => 3
  | .putat => 5

/-- `keyboard_getchar`, with the scancodes that arrive while it waits. -/
def keyboardGetchar : List UInt8 → KeyboardStatics → Option (Int × KeyboardStatics × List UInt8)
  | incoming, d =>
    if d.kbd.kbdHead ≠ d.kbd.kbdTail then
      some (d.kbd.kbdRing d.kbd.kbdTail,
        { d with kbd := { d.kbd with kbdTail := (d.kbd.kbdTail + 1) % kbdBufSize } }, incoming)
    else
      match incoming with
      | [] => none
      | scancode :: incoming => keyboardGetchar incoming (keyboardIrqHandler d scancode)

/-- `sys_getchar` -/
def sysGetchar : Sys Word := do
  let s ← Prog.get
  match keyboardGetchar s.incoming s.keys with
  | none => Prog.halt .waiting
  | some (c, keys, incoming) =>
    Prog.modify fun s => { s with keys, incoming }
    return BitVec.ofInt 32 c

/-- `sys_exit` -/
def sysExit (code : Word) : Sys Unit := do
  Prog.modify fun s => { s with progExitCode := code.toInt, progExited := true }
  Prog.halt .toKernel

def byteOf (w : Word) : UInt8 := UInt8.ofNat w.toNat

def flag (b : Bool) : Word := if b then 1 else 0

/-- The bytes that `SYS_GETARG` stores. -/
def argBytes (arg : ProgArg) (m : Nat) : List UInt8 := if m = 0 then [] else arg.val.take (m - 1) ++ [0]

/-- A case of the `switch`, with the address of the arguments and the EAX of the frame: the EAX after it. -/
def Syscall.run (a eax : Word) : Syscall → Sys Word
  | .putchar => do
    onConsole (vgaPutchar (byteOf (← loadWord a)))
    return eax
  | .getchar => sysGetchar
  | .puts => do
    let s ← loadWord a
    checkStr s
    writeString s
    return eax
  | .exit => do
    sysExit (← loadWord a)
    return eax
  | .peek => do
    let addr ← loadWord a
    checkPtr addr 1
    return BitVec.ofNat 32 ((← loadUser addr.toNat 1).getD 0 0).toNat
  | .poke => do
    let addr ← loadWord a
    checkPtr addr 1
    storeUser place addr.toNat [byteOf (← loadWord (a + 4))]
    return eax
  | .memset => do
    let dst ← loadWord a
    let n ← loadWord (a + 8)
    checkPtr dst n
    storeUser place dst.toNat (List.replicate n.toNat (byteOf (← loadWord (a + 4))))
    return eax
  | .printf => do
    let fmt ← loadWord a
    checkStr fmt
    doPrintf addresses fmt (a + 4)
    return 0
  | .ticks => return BitVec.ofNat 32 (← Prog.get).ticks
  | .keydown => do
    let scancode := byteOf (← loadWord a)
    return flag ((← Prog.get).keys.keyDown (scancode &&& 0x7F) ≠ 0)
  | .keydownExt => do
    let scancode := byteOf (← loadWord a)
    return flag ((← Prog.get).keys.extDown (scancode &&& 0x7F) ≠ 0)
  | .blit => do
    let buf ← loadWord a
    checkPtr buf (BitVec.ofNat 32 svgaTotal)
    Prog.tell (.user ⟨false, buf.toNat, svgaTotal⟩)
    Prog.modify fun s => { s with console := { s.console with svga := svgaBlit s.console.svga s.ram buf.toNat } }
    return eax
  | .getfont => do
    let dst ← loadWord a
    checkPtr dst 4096
    storeUser place dst.toNat ((← Prog.get).console.font.slice 0 4096)
    return eax
  | .yield => return eax
  | .clear => do
    onConsole vgaClear
    return eax
  | .kbflush => do
    Prog.modify fun s => { s with keys := { s.keys with kbd := { s.keys.kbd with kbdTail := s.keys.kbd.kbdHead } } }
    return eax
  | .putat => do
    let row ← loadWord a
    let col ← loadWord (a + 4)
    let c ← loadWord (a + 8)
    let fg ← loadWord (a + 12)
    let bg ← loadWord (a + 16)
    onConsole (vgaPutcharAt (byteOf row) (byteOf col) (byteOf c) (byteOf fg) (byteOf bg))
    return eax
  | .setcur => do
    let row ← loadWord a
    let col ← loadWord (a + 4)
    onConsole (vgaSetCursor (byteOf row) (byteOf col))
    return eax
  | .dims => return BitVec.ofNat 32 (vgaHeight * 256 + vgaWidth)
  | .readfile => do
    let name ← loadWord a
    checkStr name
    let buf ← loadWord (a + 4)
    let size ← loadWord (a + 8)
    checkPtr buf size
    let name ← readString addresses name
    match ← readFile (toCString name) size.toNat with
    | none => return BitVec.ofInt 32 (-1)
    | some bs =>
      storeUser place buf.toNat bs
      return BitVec.ofNat 32 bs.length
  | .writefile => do
    let name ← loadWord a
    checkStr name
    let buf ← loadWord (a + 4)
    let size ← loadWord (a + 8)
    checkPtr buf size
    let name ← readString addresses name
    let data ← loadUser buf.toNat size.toNat
    return BitVec.ofInt 32 (← writeFile (toCString name) data)
  | .getarg => do
    let d ← loadWord a
    let m ← loadWord (a + 4)
    checkPtr d m
    storeUser place d.toNat (argBytes (← Prog.get).progArg m.toNat)
    return eax
  | .setcolor => do
    let fg ← loadWord a
    let bg ← loadWord (a + 4)
    onConsole (vgaSetColor (byteOf fg) (byteOf bg))
    return eax
  | .haskey => return flag (keyboardHasKey (← Prog.get).keys.kbd)

/-- `syscall_handler`, with the EAX and the EBX of the frame: the EAX after it. -/
def syscallHandler (eax ebx : Word) : Sys Word :=
  match syscalls[eax.toNat]? with
  | none => do
    Sys.progFault "bad syscall args"
    return eax
  | some c => do
    if userRangeOk ebx (BitVec.ofNat 32 (4 * c.argc)) then c.run place ebx eax
    else
      Sys.progFault "bad syscall args"
      return eax

/-! ## Programs -/

/-- `CG_LOAD_ADDR` -/
abbrev cgLoadAddr : Nat := 0x200000

abbrev userExitStub : Nat := 0x2F0000

abbrev userStackTop : Nat := 0x300000

/-- `stub_code`: `push 0; mov ebx, esp; mov eax, SYS_EXIT; int 0x80`. -/
def stubCode : List UInt8 := [0x6A, 0x00, 0x89, 0xE3, 0xB8, 3, 0x00, 0x00, 0x00, 0xCD, 0x80]

/-- `prog_set_arg` -/
def progSetArg (arg : CString) : ProgArg :=
  ⟨arg.val.take 63, fun h => arg.property (List.mem_of_mem_take h),
    Nat.lt_of_le_of_lt (List.length_take_le 63 arg.val) (by decide)⟩

/-- `prog_load`; `none` is 0. -/
def progLoad (filename : CString) : Sys (Option Word) := do
  match ← readFile filename 65536 with
  | none =>
    onConsole do
      vgaSetColor 12 0
      vgaWrite (ascii "File not found: ")
      vgaSetColor 15 0
      vgaWrite filename.val
      vgaPutchar 0x0A
    return none
  | some bytes =>
    storeUser place cgLoadAddr bytes
    storeUser place userExitStub stubCode
    storeUser place (userStackTop - 4) (Bytes.le32 userExitStub)
    return some (BitVec.ofNat 32 (userStackTop - 4))

/-- What the handlers that end a program have caught: `gpf_handler`, `page_fault_handler`,
`dbg_bp_handler` outside a session, and the `q` of a session. -/
inductive UserFault where
  | protection
  | page
  | breakpoint
  | quit
  deriving DecidableEq, Repr

def UserFault.reason : UserFault → String
  | .protection => "protection fault"
  | .page => "page fault"
  | .breakpoint => "breakpoint"
  | .quit => "debugger: quit"

/-- What happens while a program runs: it computes, in its own memory and in any way, it is
interrupted, it is stopped by a fault, or it calls, and scancodes may arrive while the call
waits. An exception that no handler is registered for changes nothing. -/
inductive UserEvent where
  | compute (mem : Bytes)
  | scancode (c : UInt8)
  | tick
  | fault (f : UserFault)
  | call (eax ebx : Word) (incoming : List UInt8)

def UserEvent.run : UserEvent → Sys Unit
  | .compute mem => Prog.modify fun s => place.stored userRegionBase { s with
      ram := fun a => if userRegionBase ≤ a ∧ a < userRegionTop then mem a else s.ram a }
  | .scancode c => Prog.modify fun s => { s with keys := keyboardIrqHandler s.keys c }
  | .tick => Prog.modify fun s => { s with ticks := s.ticks + 1 }
  | .fault f => Sys.progFault f.reason
  | .call eax ebx incoming => do
    Prog.modify fun s => { s with incoming }
    let _ ← syscallHandler place eax ebx

end RainbowOs.Kernel
