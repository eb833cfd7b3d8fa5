import RainbowOs.Kernel.Keyboard
import RainbowOs.Lib.Bytes
import RainbowOs.Lib.Latch

/-!
# Scancodes

`kernel/drivers/keyboard.c`, the other half: `keyboard_irq_handler` takes one
byte of scancode set 1 at a time. Bit 7 tells a release from a press, `0xE0`
goes before the keys that were added later, and out of these bytes the handler
keeps who is held and puts characters into the queue.

There is one `shift_held` for two keys. It is right until one of them goes up
while the other is down, and in no other way can it go wrong.
-/

namespace RainbowOs.Kernel

open RainbowOs.Lib
open Move (hold held latch latched Tells LetsGo latch_of_not_mem hold_of_ne hold_press_self
  hold_release_self held_concat latched_concat latched_singleton)

/-- The statics of the driver. -/
structure KeyboardStatics where
  kbd : Keyboard
  shiftHeld : Bool
  ctrlHeld : Bool
  extended : Bool
  keyPressed : Bool
  keyDown : UInt8 → UInt8
  extDown : UInt8 → UInt8

/-- `scancode_ascii`; what is not listed is 0. -/
def scancodeAscii : List UInt8 :=
  [0, 27] ++ ascii "1234567890-=" ++ [8] ++
  [9] ++ ascii "qwertzuiop[+" ++ [10] ++
  [0] ++ ascii "asdfghjkl;'^" ++
  [0] ++ ascii "#yxcvbnm,.-" ++ [0] ++
  ascii "*" ++ [0] ++ ascii " " ++ [0] ++
  [0, 0, 0, 0, 0, 0, 0, 0, 0, 0] ++
  [0, 0] ++
  [0, 0, 0] ++ ascii "-" ++ [0, 0, 0] ++ ascii "+" ++ [0, 0, 0, 0, 0] ++
  [0, 0] ++
  ascii "<" ++ [0]

/-- `scancode_ascii_shift` -/
def scancodeAsciiShift : List UInt8 :=
  [0, 27] ++ ascii "!\"#$%&/()=?`" ++ [8] ++
  [9] ++ ascii "QWERTZUIOP\x7b*" ++ [10] ++
  [0] ++ ascii "ASDFGHJKL:\"~" ++
  [0] ++ ascii "'YXCVBNM;:_" ++ [0] ++
  ascii "*" ++ [0] ++ ascii " " ++ [0] ++
  [0, 0, 0, 0, 0, 0, 0, 0, 0, 0] ++
  [0, 0] ++
  [0, 0, 0] ++ ascii "-" ++ [0, 0, 0] ++ ascii "+" ++ [0, 0, 0, 0, 0] ++
  [0, 0] ++
  ascii ">" ++ [0]

/-- The `KEY_` constants of `keyboard.h`, by the scancode that follows the prefix; 0 for no key. -/
def extendedKey (scancode : UInt8) : Int :=
  match scancode with
  | 0x48 => 0x80 -- KEY_UP
  | 0x50 => 0x81 -- KEY_DOWN
  | 0x4B => 0x82 -- KEY_LEFT
  | 0x4D => 0x83 -- KEY_RIGHT
  | 0x47 => 0x84 -- KEY_HOME
  | 0x4F => 0x85 -- KEY_END
  | 0x49 => 0x86 -- KEY_PGUP
  | 0x51 => 0x87 -- KEY_PGDN
  | 0x53 => 0x88 -- KEY_DELETE
  | _ => 0

/-- `key_pressed = true`, and `kbd_push`. -/
def KeyboardStatics.push (d : KeyboardStatics) (key : Int) : KeyboardStatics :=
  { d with keyPressed := true, kbd := (kbdPush d.kbd key).1 }

/-- A letter becomes a control character while Ctrl is held. -/
def withCtrl (ctrl : Bool) (c : UInt8) : UInt8 :=
  if ctrl && 97 ≤ c && c ≤ 122 then c &&& 0x1F
  else if ctrl && 65 ≤ c && c ≤ 90 then c &&& 0x1F
  else c

/-- `keyboard_irq_handler`, with the byte that it reads from the port. -/
def keyboardIrqHandler (d : KeyboardStatics) (scancode : UInt8) : KeyboardStatics :=
  if scancode = 0xE0 then { d with extended := true }
  else if d.extended then
    let d := { d with extended := false }
    if scancode &&& 0x80 ≠ 0 then
      { d with extDown := Function.update d.extDown (scancode &&& 0x7F) 0 }
    else
      let d := { d with extDown := Function.update d.extDown (scancode &&& 0x7F) 1 }
      if extendedKey scancode ≠ 0 then d.push (extendedKey scancode) else d
  else if scancode &&& 0x80 ≠ 0 then
    let released := scancode &&& 0x7F
    { d with
      keyDown := Function.update d.keyDown released 0
      shiftHeld := if released = 0x2A ∨ released = 0x36 then false else d.shiftHeld
      ctrlHeld := if released = 0x1D then false else d.ctrlHeld }
  else
    let d := { d with keyDown := Function.update d.keyDown (scancode &&& 0x7F) 1 }
    if scancode = 0x2A ∨ scancode = 0x36 then { d with shiftHeld := true }
    else if scancode = 0x1D then { d with ctrlHeld := true }
    else
      let c := (if d.shiftHeld then scancodeAsciiShift else scancodeAscii).getD scancode.toNat 0
      if c ≠ 0 then d.push (withCtrl d.ctrlHeld c).toNat else d

/-- The statics at boot, which are zero, after `keyboard_init`. -/
def keyboardStart (ring : Nat → Int) : KeyboardStatics :=
  ⟨(keyboardInit ring).kbd, false, false, false, false, fun _ => 0, fun _ => 0⟩

/-- Bytes from the port, one interrupt each. -/
def deliver (d : KeyboardStatics) (scancodes : List UInt8) : KeyboardStatics :=
  scancodes.foldl keyboardIrqHandler d

/-! ## Keys -/

/-- A key of scancode set 1, plain or behind the prefix. None has the code `0x60`, with which it would
be released by the prefix itself. -/
structure Key where
  ext : Bool
  code : UInt8
  make : code < 0x80
  notEscape : code ≠ 0x60
  deriving DecidableEq

def leftShift : Key := ⟨false, 0x2A, by decide, by decide⟩
def rightShift : Key := ⟨false, 0x36, by decide, by decide⟩
def leftCtrl : Key := ⟨false, 0x1D, by decide, by decide⟩

def shiftKeys : List Key := [leftShift, rightShift]

/-- What the keyboard sends. -/
def scancodes : Move Key → List UInt8
  | .press k => (if k.ext then [0xE0] else []) ++ [k.code]
  | .release k => (if k.ext then [0xE0] else []) ++ [k.code ||| 0x80]

/-- The state after a run of moves from boot. -/
def typed (ring : Nat → Int) (ms : List (Move Key)) : KeyboardStatics :=
  deliver (keyboardStart ring) (ms.flatMap scancodes)

/-- A table has 1 at the keys that are held, and 0 elsewhere. -/
def Marks (table : UInt8 → UInt8) (ext : Bool) (h : Key → Bool) : Prop :=
  ∀ s, (table s = 0 ∨ table s = 1) ∧ (table s = 1 ↔ ∃ k : Key, k.ext = ext ∧ k.code = s ∧ h k = true)

/-- What is right in every run. -/
structure TracksKeys (d : KeyboardStatics) (h : Key → Bool) : Prop where
  ctrl : d.ctrlHeld = true ↔ h leftCtrl = true
  keyDown : Marks d.keyDown false h
  extDown : Marks d.extDown true h

/-- All that is kept of the keys that are held. -/
structure Tracks (d : KeyboardStatics) (h : Key → Bool) : Prop extends TracksKeys d h where
  shift : d.shiftHeld = true ↔ h leftShift = true ∨ h rightShift = true

/-! ## What a move does -/

/-- A make code, and the break code of it. -/
theorem code_facts : ∀ c : UInt8, c < 0x80 →
    (c &&& 0x80 = 0 ∧ c &&& 0x7F = c ∧ c ≠ 0xE0) ∧
    ((c ||| 0x80) &&& 0x80 ≠ 0 ∧ (c ||| 0x80) &&& 0x7F = c ∧ (c ≠ 0x60 → c ||| 0x80 ≠ 0xE0)) :=
  byte_forall (by decide +kernel)

/-- What a move leaves at its key. -/
def bit : Move Key → UInt8
  | .press _ => 1
  | .release _ => 0

/-- The effect of a move on the statics, but for the queue. -/
structure Keystroke (d d' : KeyboardStatics) (m : Move Key) : Prop where
  extended : d'.extended = false
  shift : d'.shiftHeld = latch shiftKeys d.shiftHeld m
  ctrl : d'.ctrlHeld = latch [leftCtrl] d.ctrlHeld m
  keyDown : d'.keyDown = if m.key.ext then d.keyDown else Function.update d.keyDown m.key.code (bit m)
  extDown : d'.extDown = if m.key.ext then Function.update d.extDown m.key.code (bit m) else d.extDown

@[simp] theorem push_keyDown (d : KeyboardStatics) (key : Int) : (d.push key).keyDown = d.keyDown := rfl

@[simp] theorem push_extDown (d : KeyboardStatics) (key : Int) : (d.push key).extDown = d.extDown := rfl

theorem Key.eq_iff (k k' : Key) : k = k' ↔ k.ext = k'.ext ∧ k.code = k'.code := by
  rw [Key.mk.injEq]

theorem mem_shiftKeys (k : Key) : k ∈ shiftKeys ↔ k.ext = false ∧ (k.code = 0x2A ∨ k.code = 0x36) := by
  simp only [shiftKeys, List.mem_cons, List.not_mem_nil, or_false, Key.eq_iff, leftShift, rightShift]
  tauto

theorem mem_ctrl (k : Key) : k ∈ [leftCtrl] ↔ k.ext = false ∧ k.code = 0x1D := by
  rw [List.mem_singleton, Key.eq_iff]
  rfl

section Branches

variable {d : KeyboardStatics} {c : UInt8}

theorem irq_prefixed (d : KeyboardStatics) : keyboardIrqHandler d 0xE0 = { d with extended := true } :=
  if_pos rfl

/-- A press behind the prefix. -/
theorem irq_ext_make (hd : d.extended = true) (hc : c < 0x80) : keyboardIrqHandler d c =
    if extendedKey c ≠ 0 then
      KeyboardStatics.push { d with extended := false, extDown := Function.update d.extDown c 1 } (extendedKey c)
    else { d with extended := false, extDown := Function.update d.extDown c 1 } := by
  obtain ⟨⟨hbit, hmask, hne⟩, -⟩ := code_facts c hc
  rw [keyboardIrqHandler, if_neg hne, if_pos hd]
  simp only [hbit, hmask, ne_eq, not_true_eq_false, if_false]

/-- A release behind the prefix. -/
theorem irq_ext_break (hd : d.extended = true) (hc : c < 0x80) (hcode : c ≠ 0x60) :
    keyboardIrqHandler d (c ||| 0x80) =
      { d with extended := false, extDown := Function.update d.extDown c 0 } := by
  obtain ⟨-, hbit, hmask, hne⟩ := code_facts c hc
  rw [keyboardIrqHandler, if_neg (hne hcode), if_pos hd]
  show (if (c ||| 0x80) &&& 0x80 ≠ 0 then _ else _) = _
  rw [if_pos hbit, hmask]

/-- The release of a plain key. -/
theorem irq_break (hd : d.extended = false) (hc : c < 0x80) (hcode : c ≠ 0x60) :
    keyboardIrqHandler d (c ||| 0x80) = { d with
      keyDown := Function.update d.keyDown c 0
      shiftHeld := if c = 0x2A ∨ c = 0x36 then false else d.shiftHeld
      ctrlHeld := if c = 0x1D then false else d.ctrlHeld } := by
  obtain ⟨-, hbit, hmask, hne⟩ := code_facts c hc
  rw [keyboardIrqHandler, if_neg (hne hcode), if_neg (by rw [hd]; exact Bool.false_ne_true), if_pos hbit]
  simp only [hmask]

/-- The press of a plain key. -/
theorem irq_make (hd : d.extended = false) (hc : c < 0x80) :
    (keyboardIrqHandler d c).extended = false ∧
    (keyboardIrqHandler d c).shiftHeld = (if c = 0x2A ∨ c = 0x36 then true else d.shiftHeld) ∧
    (keyboardIrqHandler d c).ctrlHeld = (if c = 0x1D then true else d.ctrlHeld) ∧
    (keyboardIrqHandler d c).keyDown = Function.update d.keyDown c 1 ∧
    (keyboardIrqHandler d c).extDown = d.extDown := by
  obtain ⟨⟨hbit, hmask, hne⟩, -⟩ := code_facts c hc
  rw [keyboardIrqHandler, if_neg hne, if_neg (by rw [hd]; exact Bool.false_ne_true),
    if_neg (not_not_intro hbit), hmask]
  by_cases hshift : c = 0x2A ∨ c = 0x36
  · have hctrl : c ≠ 0x1D := by
      rintro rfl
      revert hshift
      decide
    simp [hshift, hctrl, hd]
  · by_cases hctrl : c = 0x1D
    · simp [hctrl, hd]
    · simp only [if_neg hshift, if_neg hctrl]
      generalize (if d.shiftHeld then scancodeAsciiShift else scancodeAscii).getD c.toNat 0 = ascii
      by_cases hascii : ascii ≠ 0
      · rw [if_pos hascii]
        exact ⟨hd, rfl, rfl, rfl, rfl⟩
      · rw [if_neg hascii]
        exact ⟨hd, rfl, rfl, rfl, rfl⟩

end Branches

/-- A move, in the terms of its key. -/
theorem effect_scancodes (d : KeyboardStatics) (hd : d.extended = false) (m : Move Key) :
    Keystroke d (deliver d (scancodes m)) m := by
  have hgroup : ∀ k : Key, k.ext = true → k ∉ shiftKeys ∧ k ∉ [leftCtrl] := by
    intro k hext
    rw [mem_shiftKeys, mem_ctrl, hext]
    simp
  rcases hext : m.key.ext with _ | _
  · cases m with
    | press k =>
      have hext : k.ext = false := hext
      have hbytes : deliver d (scancodes (.press k)) = keyboardIrqHandler d k.code := by
        rw [scancodes, hext]
        rfl
      obtain ⟨hextended, hshift, hctrl, hdown, hextDown⟩ := irq_make hd k.make
      rw [hbytes]
      constructor
      · exact hextended
      · rw [hshift, latch]
        simp only [mem_shiftKeys, hext, true_and]
      · rw [hctrl, latch]
        simp only [mem_ctrl, hext, true_and]
      · rw [hdown]
        simp [Move.key, hext, bit]
      · rw [hextDown]
        simp [Move.key, hext]
    | release k =>
      have hext : k.ext = false := hext
      have hbytes : deliver d (scancodes (.release k)) = keyboardIrqHandler d (k.code ||| 0x80) := by
        rw [scancodes, hext]
        rfl
      rw [hbytes, irq_break hd k.make k.notEscape]
      constructor
      · exact hd
      · rw [latch]
        simp only [mem_shiftKeys, hext, true_and]
      · rw [latch]
        simp only [mem_ctrl, hext, true_and]
      · simp [Move.key, hext, bit]
      · simp [Move.key, hext]
  · obtain ⟨hshift, hctrl⟩ := hgroup m.key hext
    cases m with
    | press k =>
      have hext : k.ext = true := hext
      have hbytes : deliver d (scancodes (.press k)) = keyboardIrqHandler (keyboardIrqHandler d 0xE0) k.code := by
        rw [scancodes, hext]
        rfl
      rw [hbytes, irq_prefixed, irq_ext_make rfl k.make]
      split
      all_goals
        refine ⟨rfl, (latch_of_not_mem hshift).symm, (latch_of_not_mem hctrl).symm, ?_, ?_⟩
        · simp [Move.key, hext]
        · simp [Move.key, hext, bit]
    | release k =>
      have hext : k.ext = true := hext
      have hbytes : deliver d (scancodes (.release k)) =
          keyboardIrqHandler (keyboardIrqHandler d 0xE0) (k.code ||| 0x80) := by
        rw [scancodes, hext]
        rfl
      rw [hbytes, irq_prefixed, irq_ext_break rfl k.make k.notEscape]
      refine ⟨rfl, (latch_of_not_mem hshift).symm, (latch_of_not_mem hctrl).symm, ?_, ?_⟩
      · simp [Move.key, hext]
      · simp [Move.key, hext, bit]

/-! ## Runs -/

/-- A move at a table. -/
theorem Marks.hold {table : UInt8 → UInt8} {ext : Bool} {h : Key → Bool} (hM : Marks table ext h) (m : Move Key) :
    Marks (if m.key.ext = ext then Function.update table m.key.code (bit m) else table) ext (hold h m) := by
  have hother : ∀ k : Key, k ≠ m.key → Move.hold h m k = h k := fun k hk => hold_of_ne hk
  intro s
  by_cases hkey : m.key.ext = ext ∧ s = m.key.code
  · obtain ⟨hext, rfl⟩ := hkey
    rw [if_pos hext, Function.update_self]
    have hthe : ∀ k : Key, k.ext = ext → k.code = m.key.code → k = m.key :=
      fun k hk hc => (Key.eq_iff _ _).mpr ⟨hk.trans hext.symm, hc⟩
    cases m with
    | press k =>
      exact ⟨Or.inr rfl, fun _ => ⟨k, hext, rfl, hold_press_self h k⟩, fun _ => rfl⟩
    | release k =>
      refine ⟨Or.inl rfl, fun hbit => absurd hbit UInt8.zero_ne_one, fun ⟨k', hk', hc, hheld⟩ => ?_⟩
      rw [hthe k' hk' hc] at hheld
      exact absurd hheld (by rw [Move.key, hold_release_self]; exact Bool.false_ne_true)
  · have hsame : (if m.key.ext = ext then Function.update table m.key.code (bit m) else table) s = table s := by
      split
      · next hext => exact Function.update_of_ne (fun hs => hkey ⟨hext, hs⟩) ..
      · rfl
    rw [hsame]
    refine ⟨(hM s).1, (hM s).2.trans ?_⟩
    refine exists_congr fun k => and_congr_right fun hk => and_congr_right fun hc => ?_
    rw [hother k (fun heq => hkey ⟨heq ▸ hk, by rw [← hc, heq]⟩)]

def noKey : Key → Bool := fun _ => false

theorem typed_concat (ring : Nat → Int) (ms : List (Move Key)) (m : Move Key) :
    typed ring (ms ++ [m]) = deliver (typed ring ms) (scancodes m) := by
  rw [typed, List.flatMap_append, List.flatMap_singleton, deliver, List.foldl_append]
  rfl

/-- What the statics are after a run. -/
structure Follows (d : KeyboardStatics) (ms : List (Move Key)) : Prop where
  extended : d.extended = false
  shift : d.shiftHeld = latched shiftKeys false ms
  ctrl : d.ctrlHeld = held noKey ms leftCtrl
  keyDown : Marks d.keyDown false (held noKey ms)
  extDown : Marks d.extDown true (held noKey ms)

theorem follows_typed (ring : Nat → Int) (ms : List (Move Key)) : Follows (typed ring ms) ms := by
  induction ms using List.reverseRecOn with
  | nil =>
    have hnone : ∀ ext, Marks (fun _ => 0) ext noKey := fun ext s =>
      ⟨Or.inl rfl, fun h => absurd h UInt8.zero_ne_one, fun ⟨_, _, _, hheld⟩ => absurd hheld Bool.false_ne_true⟩
    exact ⟨rfl, rfl, rfl, hnone false, hnone true⟩
  | append_singleton ms m ih =>
    have heffect := effect_scancodes (typed ring ms) ih.extended m
    rw [typed_concat]
    constructor
    · exact heffect.extended
    · rw [heffect.shift, ih.shift, latched_concat]
    · rw [heffect.ctrl, ih.ctrl, ← latched_singleton, ← latched_singleton, latched_concat]
    · rw [heffect.keyDown, held_concat]
      have hmarks := ih.keyDown.hold m
      cases hext : m.key.ext <;> simpa [hext] using hmarks
    · rw [heffect.extDown, held_concat]
      have hmarks := ih.extDown.hold m
      cases hext : m.key.ext <;> simpa [hext] using hmarks

/-- The states of a run, also between the prefix and the code of a move, with the keys that are held
there. -/
inductive Reached (ring : Nat → Int) (ms : List (Move Key)) : KeyboardStatics → (Key → Bool) → Prop where
  | between (pre : List (Move Key)) (h : pre <+: ms) : Reached ring ms (typed ring pre) (held noKey pre)
  | within (pre : List (Move Key)) (m : Move Key) (h : pre ++ [m] <+: ms) (hext : m.key.ext = true) :
    Reached ring ms (keyboardIrqHandler (typed ring pre) 0xE0) (held noKey pre)

theorem Follows.tracksKeys {d : KeyboardStatics} {ms : List (Move Key)} (h : Follows d ms) :
    TracksKeys d (held noKey ms) :=
  ⟨by rw [h.ctrl], h.keyDown, h.extDown⟩

theorem tells_shiftKeys {b : Bool} {h : Key → Bool} :
    Tells shiftKeys b h ↔ (b = true ↔ h leftShift = true ∨ h rightShift = true) := by
  simp [Tells, shiftKeys]

/-- In every run of presses, repeats and releases the tables and `ctrl_held` say who is held.
`shift_held` does so in every state of the run if and only if no shift key goes up while the other one
is down. -/
theorem modifiers_tracked_iff (ring : Nat → Int) (ms : List (Move Key)) :
    (∀ d h, Reached ring ms d h → TracksKeys d h) ∧
    ((∀ d h, Reached ring ms d h → Tracks d h) ↔
      ∀ pre m, pre ++ [m] <+: ms → ¬LetsGo shiftKeys (held noKey pre) m) := by
  have hkeys : ∀ d h, Reached ring ms d h → TracksKeys d h := by
    intro d h hreached
    cases hreached with
    | between pre _ => exact (follows_typed ring pre).tracksKeys
    | within pre m _ _ =>
      obtain ⟨hctrl, hdown, hext⟩ := (follows_typed ring pre).tracksKeys
      rw [irq_prefixed]
      exact ⟨hctrl, hdown, hext⟩
  have hstart : Tells shiftKeys false noKey := by simp [Tells, noKey]
  have hshift : ∀ pre, Tells shiftKeys (latched shiftKeys false pre) (held noKey pre) ↔
      ((typed ring pre).shiftHeld = true ↔ held noKey pre leftShift = true ∨ held noKey pre rightShift = true) := by
    intro pre
    rw [(follows_typed ring pre).shift, tells_shiftKeys]
  refine ⟨hkeys, Iff.trans ⟨fun hall pre hpre => ?_, fun htells d h hreached => ?_⟩ (hstart.run_iff ms)⟩
  · exact (hshift pre).mpr (hall _ _ (.between pre hpre)).shift
  · refine ⟨hkeys d h hreached, ?_⟩
    cases hreached with
    | between pre hpre => exact (hshift pre).mp (htells pre hpre)
    | within pre m hpre hext =>
      rw [irq_prefixed]
      exact (hshift pre).mp (htells pre ((List.prefix_append _ _).trans hpre))

/-- Both shift keys go down, and the left one goes up. -/
theorem shift_forgotten : ¬∀ ring ms d h, Reached ring ms d h → Tracks d h := by
  intro hall
  have hshift := (hall (fun _ => 0) [.press leftShift, .press rightShift, .release leftShift] _ _
    (.between _ List.prefix_rfl)).shift
  exact absurd (hshift.mpr (Or.inr (by decide))) (by decide)

/-! ## The queue -/

/-- A byte puts one key into the queue, or none. -/
theorem irq_kbd (d : KeyboardStatics) (c : UInt8) :
    (keyboardIrqHandler d c).kbd = d.kbd ∨ ∃ key, (keyboardIrqHandler d c).kbd = (kbdPush d.kbd key).1 := by
  unfold keyboardIrqHandler
  split
  · exact .inl rfl
  · split
    · dsimp only
      split
      · exact .inl rfl
      · split
        · exact .inr ⟨_, rfl⟩
        · exact .inl rfl
    · split
      · exact .inl rfl
      · dsimp only
        split
        · exact .inl rfl
        · split
          · exact .inl rfl
          · generalize (if d.shiftHeld then scancodeAsciiShift else scancodeAscii).getD c.toNat 0 = ascii
            split
            · exact .inr ⟨_, rfl⟩
            · exact .inl rfl

/-- To the queue, bytes are pushes. -/
theorem deliver_kbd (d : KeyboardStatics) (consumer : Getchar) (cs : List UInt8) :
    ∃ keys : List Int, ((⟨d.kbd, consumer⟩ : KeyboardSystem).run (keys.map .push)).1 =
      ⟨(deliver d cs).kbd, consumer⟩ := by
  induction cs generalizing d with
  | nil => exact ⟨[], rfl⟩
  | cons c cs ih =>
    obtain ⟨keys, hkeys⟩ := ih (keyboardIrqHandler d c)
    rcases irq_kbd d c with hsame | ⟨key, hpush⟩
    · refine ⟨keys, ?_⟩
      rw [← hsame]
      exact hkeys
    · refine ⟨key :: keys, ?_⟩
      rw [hpush] at hkeys
      exact hkeys

end RainbowOs.Kernel
