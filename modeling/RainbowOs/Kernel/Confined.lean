import RainbowOs.Kernel.Syscalls

/-!
# What a program can make the kernel do

Ring 0 goes to the addresses that ring 3 hands over. `Safe` says of an access that it
stays in what the program owns, in the grid of the console, in the buffer of the mounted
volume or in the partition of the disk, and `Keeps` what a call leaves of the rest of the
machine as it was. All of this is for a kernel that ends below the window: a store to the
window is then no store to a static.

One walk is not covered by its check: `do_printf` passes over the character behind a
`%`, and over the NUL too when the format ends in one. The reads of such a call are
the only ones that can leave the window.
-/

namespace RainbowOs.Kernel

open RainbowOs.Lib
open RainbowOs.Fat12 (DiskState Kept Layout SoundVolume Syncs)
open X86 (Word)

/-- The bytes of an access, if there are any, are in the window. -/
def BytesIn (x : Debug.Access) : Prop := x.len ≠ 0 → Debug.InWindow x

/-- The size of the buffer that `vol` points to. -/
def bufferSize (onRamdisk : Bool) : Nat := if onRamdisk then Fat12.Ramdisk.ramdiskSize else Fat12.diskfsSize

/-- An access is where it may be; with `reads`, the reads through a pointer of the program too. -/
def Safe (reads : Prop) : Touch → Prop
  | .user x => (x.write = true ∨ reads) → BytesIn x
  | .grid x => InGrid x
  | .volume onRamdisk x => x.off + x.len ≤ bufferSize onRamdisk
  | .drive c => Syncs c

/-- What a program cannot change from `s₀` on. `files` is what the file system goes on to meet. -/
structure System.Keeps (font : Bytes) (clean : Prop) (files : DiskState → Prop) (s s₀ : System) : Prop where
  ram : ∀ a, ¬(userRegionBase ≤ a ∧ a < userRegionTop) → s.ram a = s₀.ram a
  disk : Kept s₀.disk s.disk
  files : files s.disk
  console : ∃ g : Terminal, g.Inside ∧ s.console.Shows font clean g true

/-- The mounted volume has sound tables, and its layout is in the buffer. -/
structure SoundMount (L : Layout) (d : DiskState) : Prop where
  bpb : d.bpb = L.bpb
  sound : SoundVolume L d.vol
  inBuffer : L.bpb.dataStartOffset + (L.cells - 2) * L.bpb.clusterBytes ≤ bufferSize d.onRamdisk

/-- The format ends in a `%` that begins no directive. -/
def dangling : List UInt8 → Bool
  | [] => false
  | [c] => c = 0x25
  | c :: d :: s => if c = 0x25 then dangling s else dangling (d :: s)

theorem dangling_cons {c : UInt8} (h : c ≠ 0x25) (s : List UInt8) : dangling (c :: s) = dangling s := by
  cases s with
  | nil => exact decide_eq_false h
  | cons d s => exact if_neg h

/-- A string of `k` bytes and its NUL, in the window. -/
structure StringAt (ram : Bytes) (addr k : Nat) : Prop where
  low : userRegionBase ≤ addr
  high : addr + k < userRegionTop
  nul : ram (addr + k) = 0
  chars : ∀ j < k, ram (addr + j) ≠ 0

/-- A call may end for the kernel or wait for a key; only where reads may go anywhere, it may
have no end. -/
def Stop.Fair (reads : Prop) : Stop → Prop
  | .toKernel | .waiting => True
  | .runaway => ¬reads
  | .file _ => False

/-- How a call may end without a return. -/
abbrev Ends (font : Bytes) (clean : Prop) (files : DiskState → Prop) (reads : Prop) (s₀ : System) (e : Stop)
    (s' : System) : Prop :=
  s'.Keeps font clean files s₀ ∧ e.Fair reads

section Walks

variable {font : Bytes} {clean reads : Prop} {files : DiskState → Prop} {s₀ s : System} {α : Type}

/-! ## The console -/

/-- A console function that keeps the grid. -/
def OnGrid (font : Bytes) (clean : Prop) (p : Vga α) : Prop := ∀ (t : Console) (g : Terminal), g.Inside →
  t.Shows font clean g true → p.total InGrid (fun _ t' => ∃ g' : Terminal, g'.Inside ∧ t'.Shows font clean g' true) t

theorem onGrid_call (hfont : clean → BlankSpace font) (c : ConsoleCall) : OnGrid font clean c.run :=
  fun _ _ hin h => Prog.total_mono (total_call hfont h hin c) (fun _ hx => hx)
    fun _ _ h' => ⟨_, Terminal.inside_call hin c, h'⟩

/-- On the console a call changes nothing else. -/
theorem wp_onConsole {p : Vga α} (hp : OnGrid font clean p) (h : s.Keeps font clean files s₀)
    {Q : α → System → Prop} {H : Stop → System → Prop}
    (hQ : ∀ a s', s'.Keeps font clean files s₀ → s'.ram = s.ram → Q a s') : (onConsole p).wp (Safe reads) Q H s := by
  obtain ⟨g, hin, hshows⟩ := h.console
  exact Prog.wp_zoom_of_total (hp _ g hin hshows) fun a t ht => hQ a _ ⟨h.ram, h.disk, h.files, ht⟩ rfl

theorem userRangeOk_iff {addr len : Word} : userRangeOk addr len = true ↔
    (len.toNat ≠ 0 → userRegionBase ≤ addr.toNat ∧ addr.toNat + len.toNat ≤ userRegionTop) := by
  unfold userRangeOk
  simp only [Bool.or_eq_true, Bool.and_eq_true, decide_eq_true_eq, ge_iff_le, BitVec.le_def, BitVec.toNat_add]
  have haddr := addr.isLt
  have hlen := len.isLt
  have hzero : len = 0 ↔ len.toNat = 0 := by
    rw [← BitVec.toNat_inj]
    rfl
  rw [hzero]
  simp only [userRegionBase, userRegionTop]
  omega

theorem wp_loadUser {addr n : Nat} {Q : List UInt8 → System → Prop} {H : Stop → System → Prop}
    (hin : reads → n ≠ 0 → userRegionBase ≤ addr ∧ addr + n ≤ userRegionTop) (hQ : Q (s.ram.slice addr n) s) :
    (loadUser addr n).wp (Safe reads) Q H s :=
  Prog.wp_bind.mpr (Prog.wp_tell (fun hr hn => hin (hr.resolve_left Bool.false_ne_true) hn)
    (Prog.wp_bind.mpr (Prog.wp_get (Prog.wp_pure hQ))))

theorem wp_loadWord {addr : Word} {Q : Word → System → Prop} {H : Stop → System → Prop}
    (hin : userRegionBase ≤ addr.toNat ∧ addr.toNat + 4 ≤ userRegionTop) (hQ : Q (wordAt s.ram addr) s) :
    (loadWord addr).wp (Safe reads) Q H s :=
  Prog.wp_bind.mpr (Prog.wp_tell (fun _ _ => hin) (Prog.wp_bind.mpr (Prog.wp_get (Prog.wp_pure hQ))))

/-- What is stored in the window leaves the rest. -/
theorem System.Keeps.store (h : s.Keeps font clean files s₀) {addr : Nat} {bs : List UInt8}
    (hin : bs.length ≠ 0 → userRegionBase ≤ addr ∧ addr + bs.length ≤ userRegionTop) :
    ({ s with ram := s.ram.store addr bs } : System).Keeps font clean files s₀ := by
  refine ⟨fun a ha => ?_, h.disk, h.files, h.console⟩
  have hout : ¬(addr ≤ a ∧ a < addr + bs.length) := fun hstored => by
    obtain ⟨hlow, hhigh⟩ := hin (by omega)
    exact ha ⟨Nat.le_trans hlow hstored.1, Nat.lt_of_lt_of_le hstored.2 hhigh⟩
  exact (if_neg hout).trans (h.ram a ha)

theorem slice_one_eq_zero {m : Bytes} {addr : Nat} : m.slice addr 1 = [0] ↔ m addr = 0 := by
  rw [show m.slice addr 1 = [m addr] from rfl]
  exact ⟨fun h => List.head_eq_of_cons_eq h, fun h => by rw [h]⟩

/-- A string one byte on. -/
theorem StringAt.tail {m : Bytes} {addr k : Nat} (h : StringAt m addr (k + 1)) : StringAt m (addr + 1) k where
  low := Nat.le_succ_of_le h.low
  high := by
    have := h.high
    omega
  nul := by
    have hnul := h.nul
    rwa [show addr + (k + 1) = addr + 1 + k by omega] at hnul
  chars j hj := by
    have hchar := h.chars (j + 1) (Nat.succ_lt_succ hj)
    rwa [show addr + (j + 1) = addr + 1 + j by omega] at hchar

/-- The window is small. -/
theorem StringAt.high' {m : Bytes} {addr k : Nat} (h : StringAt m addr k) : k < userRegionTop :=
  Nat.lt_of_le_of_lt (Nat.le_add_left k addr) h.high

theorem StringAt.next {m : Bytes} {addr : Word} {k : Nat} (h : StringAt m addr.toNat (k + 1)) :
    (addr + 1).toNat = addr.toNat + 1 := by
  have hhigh := h.high
  simp only [userRegionTop] at hhigh
  rw [BitVec.toNat_add]
  exact Nat.mod_eq_of_lt (show addr.toNat + 1 < 4294967296 by omega)

theorem StringAt.next_next {m : Bytes} {addr : Word} {k : Nat} (h : StringAt m addr.toNat (k + 2)) :
    (addr + 2).toNat = addr.toNat + 2 := by
  have hhigh := h.high
  simp only [userRegionTop] at hhigh
  rw [BitVec.toNat_add]
  exact Nat.mod_eq_of_lt (show addr.toNat + 2 < 4294967296 by omega)

/-- A string in the window passes its check. -/
theorem wp_scanNul_of_stringAt {n addr k : Nat} {Q : Bool → System → Prop} {H : Stop → System → Prop}
    (hstr : StringAt s.ram addr k) (hk : k < n) (hQ : Q true s) : (scanNul n addr).wp (Safe reads) Q H s := by
  induction n generalizing addr k with
  | zero => exact absurd hk (Nat.not_lt_zero k)
  | succ n ih =>
    have hhigh := hstr.high
    refine Prog.wp_bind.mpr
      (wp_loadUser (fun _ _ => ⟨hstr.low, by omega⟩) (Prog.wp_ite (fun _ => Prog.wp_pure hQ) fun hne => ?_))
    cases k with
    | zero => exact absurd (slice_one_eq_zero.mpr hstr.nul) hne
    | succ k => exact ih hstr.tail (Nat.lt_of_succ_lt_succ hk)

theorem wp_checkStr_of_stringAt {addr : Word} {k : Nat} {Q : Unit → System → Prop} {H : Stop → System → Prop}
    (hstr : StringAt s.ram addr.toNat k) (hQ : Q () s) : (checkStr addr).wp (Safe reads) Q H s := by
  have hlow := hstr.low
  have hhigh := hstr.high
  unfold checkStr userStrOk
  refine Prog.wp_bind.mpr (Prog.wp_ite (fun hout => by omega) fun _ => ?_)
  exact wp_scanNul_of_stringAt hstr (by omega) (Prog.wp_pure hQ)

variable {L : Layout}

theorem vol_setVol (d : DiskState) (v : Bytes) : (d.setVol v).vol = v := by
  cases d with
  | mk volume ramdisk disk answers available onRamdisk bpb =>
    cases onRamdisk with
    | false => rfl
    | true => rfl

theorem SoundMount.setVol {d : DiskState} (h : SoundMount L d) {v : Bytes} (hv : SoundVolume L v)
    (hkept : Kept d (d.setVol v)) :
    SoundMount L (d.setVol v) where
  bpb := hkept.bpb.trans h.bpb
  sound := (vol_setVol d v).symm ▸ hv
  inBuffer := hkept.buffer.symm ▸ h.inBuffer

/-- The arguments that a call has. -/
abbrev ArgsIn (a : Word) (n : Nat) : Prop := userRegionBase ≤ a.toNat ∧ a.toNat + n ≤ userRegionTop

theorem ArgsIn.first {a : Word} {n : Nat} (h : ArgsIn a n) (hn : 4 ≤ n) : ArgsIn a 4 :=
  ⟨h.1, Nat.le_trans (Nat.add_le_add_left hn _) h.2⟩

section Calls

variable {place : Placement} {a : Word} (eax : Word)

end Calls

/-- The call of a frame. -/
abbrev callOf (eax : Word) : Option Syscall := syscalls[eax.toNat]?

/-- The machine when the program is entered. -/
def entered (place : Placement) (filename : Fat12.CString) (s : System) : System :=
  { (progLoad place filename s).state with progExited := false, progExitCode := 0 }

end Walks

/-- The machine after `vga_init`. -/
structure System.Booted (font : Bytes) (s : System) : Prop where
  console : ∃ g : Terminal, g.Inside ∧ s.console.Shows font True g true

theorem System.Booted.keeps {font : Bytes} {s : System} (h : s.Booted font) (clean : Prop) {files : DiskState → Prop}
    (hfiles : files s.disk) : s.Keeps font clean files s := by
  obtain ⟨g, hg, hshows⟩ := h.console
  exact ⟨fun _ _ => rfl, .refl _, hfiles, g, hg, hshows.cached, hshows.glyphs, hshows.cursor, hshows.row, hshows.col,
    hshows.color, hshows.hidden, hshows.cells, fun _ => hshows.pixels trivial⟩

/-- The file system on the RAM disk, without a drive. -/
def ramdiskState (ramdisk : Bytes) : DiskState :=
  ⟨fun _ => 0, ramdisk, fun _ => 0, fun _ => .ok, false, true, Fat12.bpbOf ramdisk⟩

/-- A machine that has been booted from the RAM disk, with a memory. -/
def bootedSystem (ram : Bytes) : System where
  ram := ram
  console := (vgaInit (fun _ => 0) ⟨⟨fun _ => 0, 0, 0xFF, fun _ => 0⟩, fun _ => 0, fun _ => 0, 0, 0, 0, false⟩).state
  keys := keyboardStart fun _ => 0
  incoming := []
  ticks := 0
  disk := ramdiskState Fat12.Ramdisk.ramdiskInit
  progArg := ⟨[], by decide⟩
  progExited := false
  progExitCode := 0

theorem booted_bootedSystem (ram : Bytes) : (bootedSystem ram).Booted fun _ => 0 := by
  have hinit : ∀ t, (vgaInit fun _ => 0).total InGrid
      (fun _ t' => t'.Shows (fun _ => 0) True Terminal.initial true) t :=
    total_vgaInit fun _ _ _ => rfl
  obtain ⟨_, _, h⟩ := (hinit ⟨⟨fun _ => 0, 0, 0xFF, fun _ => 0⟩, fun _ => 0, fun _ => 0, 0, 0, 0, false⟩).returns
  exact ⟨⟨_, Terminal.inside_calls [], h⟩⟩

/-- A kernel that ends at 1 MB. -/
def lowKernel : Placement := ⟨0x100000, id⟩

/-- No directive of the format takes an argument. -/
def argless : List UInt8 → Bool
  | [] => true
  | [_] => true
  | c :: d :: s =>
    if c = 0x25 then d ≠ 0x64 && d ≠ 0x75 && d ≠ 0x78 && d ≠ 0x73 && d ≠ 0x63 && argless s else argless (d :: s)

theorem argless_cons {c : UInt8} (h : c ≠ 0x25) (s : List UInt8) : argless (c :: s) = argless s := by
  cases s with
  | nil => rfl
  | cons d s => exact if_neg h

theorem and_of_argless {d : UInt8} {s : List UInt8} (h : argless (0x25 :: d :: s) = true) :
    (d ≠ 0x64 ∧ d ≠ 0x75 ∧ d ≠ 0x78 ∧ d ≠ 0x73 ∧ d ≠ 0x63) ∧ argless s = true := by
  have hand : (decide (d ≠ 0x64) && decide (d ≠ 0x75) && decide (d ≠ 0x78) && decide (d ≠ 0x73) && decide (d ≠ 0x63) &&
      argless s) = true := h
  simp only [Bool.and_eq_true, decide_eq_true_eq] at hand
  tauto

section Open

variable {font : Bytes} {clean : Prop} {s₀ s : System}

theorem total_directive (hfont : clean → BlankSpace font) (h : s.Keeps font clean files s₀) {c : UInt8}
    (hc : c ≠ 0x64 ∧ c ≠ 0x75 ∧ c ≠ 0x78 ∧ c ≠ 0x73 ∧ c ≠ 0x63) (ap : Word) :
    (directive c ap).total (Safe False) (fun _ s' => s'.Keeps font clean files s₀ ∧ s'.ram = s.ram) s := by
  obtain ⟨hd, hu, hx, hs, hchar⟩ := hc
  unfold directive
  rw [if_neg hd, if_neg hu, if_neg hx, if_neg hs, if_neg hchar]
  refine Prog.wp_ite (fun _ => ?_) fun _ => ?_
  · exact Prog.wp_bind.mpr
      (wp_onConsole (onGrid_call hfont (.putchar 0x25)) h fun _ _ hs hram => Prog.wp_pure ⟨hs, hram⟩)
  · exact Prog.wp_bind.mpr (wp_onConsole (onGrid_call hfont (.write [0x25, c])) h fun _ _ hs hram =>
      Prog.wp_pure ⟨hs, hram⟩)

/-- The byte behind the window. -/
abbrev behind : Touch := .user ⟨false, userRegionTop, 1⟩

/-- The walk over an open format at the end of the window goes on behind it. -/
theorem mem_log_doPrintf (hfont : clean → BlankSpace font) (h : s.Keeps font clean files s₀) {n k : Nat} {fmt : Word}
    (ap : Word) (hfuel : k < n) (hstr : StringAt s.ram fmt.toNat k) (hend : fmt.toNat + k + 1 = userRegionTop)
    (hopen : dangling (s.ram.slice fmt.toNat k) = true) (hargless : argless (s.ram.slice fmt.toNat k) = true) :
    behind ∈ (doPrintf n fmt ap s).log := by
  induction n generalizing s k fmt ap with
  | zero => exact absurd hfuel (Nat.not_lt_zero k)
  | succ n ih =>
    have hload : ∀ (addr : Nat) (s : System), (loadUser addr 1).total (Safe False)
        (fun bs s' => bs = [s.ram addr] ∧ s = s') s := fun addr s => wp_loadUser (fun hr => hr.elim) ⟨rfl, rfl⟩
    cases k with
    | zero =>
      have hclosed : dangling [] = false := rfl
      exact absurd (hclosed.symm.trans hopen) Bool.false_ne_true
    | succ k =>
      rw [Bytes.slice_succ] at hopen hargless
      refine Prog.total.mem_log (hload fmt.toNat s) ?_
      rintro _ _ ⟨rfl, rfl⟩
      have hne : s.ram fmt.toNat ≠ 0 := hstr.chars 0 (Nat.succ_pos k)
      show behind ∈ ((if s.ram fmt.toNat = 0 then _ else if s.ram fmt.toNat = 0x25 then _ else _ : Sys Unit) s).log
      rw [if_neg hne]
      by_cases hpercent : s.ram fmt.toNat = 0x25
      · rw [if_pos hpercent]
        rw [hpercent] at hopen hargless
        refine Prog.total.mem_log (hload (fmt + 1).toNat s) ?_
        rintro _ _ ⟨rfl, rfl⟩
        show behind ∈ ((directive (s.ram (fmt + 1).toNat) ap >>= fun ap => doPrintf n (fmt + 2) ap) s).log
        cases k with
        | zero =>
          -- the NUL is passed over
          have hnul : s.ram (fmt + 1).toNat = 0 := by
            rw [hstr.next]
            exact hstr.nul
          have hbehind : (fmt + 2).toNat = userRegionTop := by
            have hsum : fmt.toNat + 2 = userRegionTop := hend
            rw [BitVec.toNat_add, show (2 : Word).toNat = 2 from rfl, hsum]
            rfl
          rw [hnul]
          refine Prog.total.mem_log (total_directive hfont h (by decide) ap) fun ap s' _ => ?_
          cases n with
          | zero => exact absurd (Nat.lt_of_succ_lt_succ hfuel) (Nat.not_lt_zero 0)
          | succ n =>
            refine Prog.mem_log_bind (Prog.mem_log_bind ?_)
            rw [hbehind]
            exact List.mem_singleton.mpr rfl
        | succ k =>
          rw [Bytes.slice_succ] at hopen hargless
          have hnext := hstr.next_next
          have hdirective := total_directive hfont h (c := s.ram (fmt + 1).toNat) ?_ ap
          · refine Prog.total.mem_log hdirective fun ap s' ⟨hs, hram⟩ => ?_
            refine ih hs ap (Nat.lt_of_succ_lt (Nat.lt_of_succ_lt_succ hfuel)) ?_ ?_ ?_ ?_
            · rw [hram, hnext]
              exact hstr.tail.tail
            · rw [hnext]
              omega
            · rwa [hram, hnext]
            · rw [hram, hnext]
              exact (and_of_argless hargless).2
          · rw [hstr.next]
            exact (and_of_argless hargless).1
      · rw [if_neg hpercent]
        have hput : (onConsole (vgaPutchar (s.ram fmt.toNat))).total (Safe False)
            (fun _ s' => s'.Keeps font clean files s₀ ∧ s'.ram = s.ram) s :=
          wp_onConsole (onGrid_call hfont (.putchar (s.ram fmt.toNat))) h fun _ _ hs hram => ⟨hs, hram⟩
        refine Prog.total.mem_log hput fun _ s' ⟨hs, hram⟩ => ?_
        rw [dangling_cons hpercent] at hopen
        rw [argless_cons hpercent] at hargless
        have hnext := hstr.next
        refine ih hs ap (Nat.lt_of_succ_lt_succ hfuel) ?_ ?_ ?_ ?_
        · rw [hram, hnext]
          exact hstr.tail
        · rw [hnext]
          omega
        · rwa [hram, hnext]
        · rwa [hram, hnext]

end Open

/-- A format at the very end of the window that ends in a `%` is printed past the window. -/
theorem printf_leaves_window {font : Bytes} (place : Placement) {s : System} (h : s.Booted font) {ebx : Word}
    (hargs : ArgsIn ebx 4) {k : Nat}
    (hstr : StringAt s.ram (wordAt s.ram ebx).toNat k) (hend : (wordAt s.ram ebx).toNat + k + 1 = userRegionTop)
    (hopen : dangling (s.ram.slice (wordAt s.ram ebx).toNat k) = true)
    (hargless : argless (s.ram.slice (wordAt s.ram ebx).toNat k) = true) :
    behind ∈ (syscallHandler place 7 ebx s).log := by
  have hok : userRangeOk ebx (BitVec.ofNat 32 (4 * Syscall.printf.argc)) = true := userRangeOk_iff.mpr fun _ => hargs
  show behind ∈ ((if userRangeOk ebx (BitVec.ofNat 32 (4 * Syscall.printf.argc)) = true then
    Syscall.printf.run place ebx 7
    else _ : Sys Word) s).log
  rw [if_pos hok]
  have hload : (loadWord ebx).total (Safe False) (fun v s' => v = wordAt s.ram ebx ∧ s = s') s :=
    wp_loadWord hargs ⟨rfl, rfl⟩
  refine Prog.total.mem_log hload ?_
  rintro _ _ ⟨rfl, rfl⟩
  have hcheck : (checkStr (wordAt s.ram ebx)).total (Safe False) (fun _ s' => s = s') s :=
    wp_checkStr_of_stringAt hstr rfl
  refine Prog.total.mem_log hcheck ?_
  rintro _ _ rfl
  have hkeeps : s.Keeps font False (fun _ => True) s := h.keeps False trivial
  refine Prog.mem_log_bind
    (mem_log_doPrintf (False.elim : False → BlankSpace font) hkeeps _ ?_ hstr hend hopen hargless)
  exact Nat.lt_trans hstr.high' (by decide)

theorem printf_leaves_window_percent :
    behind ∈ (syscallHandler lowKernel 7 0x200100
      (bootedSystem fun a => if a = 0x200100 then 0xFE else if a = 0x200101 then 0xFF
      else if a = 0x200102 then 0x2F else if a = 0x2FFFFE then 0x25 else 0)).log := by
  refine printf_leaves_window lowKernel (booted_bootedSystem _) ⟨by decide, by decide⟩ (k := 1) ?_ ?_ ?_ ?_
  · refine ⟨by decide, by decide, by decide, fun j hj => ?_⟩
    obtain rfl := Nat.lt_one_iff.mp hj
    decide
  · decide
  · decide
  · decide

end RainbowOs.Kernel
