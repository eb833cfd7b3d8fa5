import RainbowOs.Lib.Ring

/-!
# The keyboard queue

`kernel/drivers/keyboard.c`: the interrupt puts keys into a ring of 64, and
`keyboard_getchar` takes them out. A push is one step, for nothing runs while
the interrupt does; the consumer can be interrupted after it has seen that
there is a key, and again after it has read it. Any order of these steps is a
run, and the keys come out as they went in.
-/

namespace RainbowOs.Kernel

open RainbowOs.Lib

abbrev kbdBufSize : Nat := 64

/-- The statics of the queue. -/
structure Keyboard where
  kbdRing : Nat → Int
  kbdHead : Nat
  kbdTail : Nat

/-- Where the consumer is in `keyboard_getchar`. -/
inductive Getchar where
  /-- At the test of the loop, or not called. -/
  | waiting
  /-- There is a key. -/
  | ready
  /-- The key is read, and its slot not yet given back. -/
  | took (c : Int)
  deriving DecidableEq

structure KeyboardSystem where
  kbd : Keyboard
  consumer : Getchar

/-- What is seen of a run. -/
inductive KeyEvent where
  | accepted (key : Int)
  | refused (key : Int)
  | returned (key : Int)
  | hasKey (answer : Bool)
  deriving DecidableEq

/-- `kbd_push` -/
def kbdPush (k : Keyboard) (key : Int) : Keyboard × KeyEvent :=
  let next := (k.kbdHead + 1) % kbdBufSize
  if next ≠ k.kbdTail then
    ({ k with kbdRing := Function.update k.kbdRing k.kbdHead key, kbdHead := next }, .accepted key)
  else (k, .refused key)

/-- `keyboard_has_key` -/
def keyboardHasKey (k : Keyboard) : Bool := k.kbdHead ≠ k.kbdTail

/-- The next step of `keyboard_getchar`, with the key it returns. -/
def getcharStep (s : KeyboardSystem) : KeyboardSystem × Option KeyEvent :=
  match s.consumer with
  | .waiting => (if s.kbd.kbdHead = s.kbd.kbdTail then s else { s with consumer := .ready }, none)
  | .ready => ({ s with consumer := .took (s.kbd.kbdRing s.kbd.kbdTail) }, none)
  | .took c =>
    (⟨{ s.kbd with kbdTail := (s.kbd.kbdTail + 1) % kbdBufSize }, .waiting⟩, some (.returned c))

/-- A step of either side. -/
inductive KeyStep where
  | push (key : Int)
  | getchar
  | hasKey

def KeyboardSystem.step (s : KeyboardSystem) : KeyStep → KeyboardSystem × Option KeyEvent
  | .push key => let (kbd, e) := kbdPush s.kbd key; ({ s with kbd }, some e)
  | .getchar => getcharStep s
  | .hasKey => (s, some (.hasKey (keyboardHasKey s.kbd)))

/-- A run, with what is seen of it. -/
def KeyboardSystem.run (s : KeyboardSystem) : List KeyStep → KeyboardSystem × List KeyEvent
  | [] => (s, [])
  | c :: steps =>
    (((s.step c).1.run steps).1, (s.step c).2.toList ++ ((s.step c).1.run steps).2)

/-- `keyboard_init`; what is in the slots does not matter. -/
def keyboardInit (ring : Nat → Int) : KeyboardSystem := ⟨⟨ring, 0, 0⟩, .waiting⟩

/-- The keys that `kbd_push` took. -/
def pushed (l : List KeyEvent) : List Int :=
  l.filterMap fun | .accepted key => some key | _ => none

/-- The keys that `keyboard_getchar` returned. -/
def received (l : List KeyEvent) : List Int :=
  l.filterMap fun | .returned key => some key | _ => none

@[simp] theorem pushed_append (l l' : List KeyEvent) : pushed (l ++ l') = pushed l ++ pushed l' :=
  List.filterMap_append

@[simp] theorem received_append (l l' : List KeyEvent) : received (l ++ l') = received l ++ received l' :=
  List.filterMap_append

/-- The keys in the queue, and where the consumer stands with the first of them. -/
structure Queues (s : KeyboardSystem) (keys : List Int) : Prop where
  tail : s.kbd.kbdTail < kbdBufSize
  room : keys.length < kbdBufSize
  head : s.kbd.kbdHead = Ring.index kbdBufSize s.kbd.kbdTail keys.length
  slots : Ring.ahead kbdBufSize s.kbd.kbdRing s.kbd.kbdTail keys.length = keys
  consumer : match s.consumer with
    | .waiting => True
    | .ready => keys ≠ []
    | .took c => keys.head? = some c

section Steps

variable {s : KeyboardSystem} {keys : List Int}

/-- The queue is empty where the indices meet. -/
theorem Queues.empty_iff (h : Queues s keys) : s.kbd.kbdHead = s.kbd.kbdTail ↔ keys = [] := by
  rw [h.head]
  constructor
  · intro heq
    by_contra hne
    refine Ring.index_ne (i := s.kbd.kbdTail) (List.length_pos_iff.mpr hne) h.room ?_
    rw [heq, Ring.index_zero h.tail]
  · rintro rfl
    exact Ring.index_zero h.tail

/-- A push is refused when one slot is left, and there only. -/
theorem Queues.full_iff (h : Queues s keys) :
    (s.kbd.kbdHead + 1) % kbdBufSize = s.kbd.kbdTail ↔ keys.length = 63 := by
  have hnext : (s.kbd.kbdHead + 1) % kbdBufSize = Ring.index kbdBufSize s.kbd.kbdTail (keys.length + 1) := by
    rw [← Ring.next_index, ← h.head]
    rfl
  have hroom : keys.length < 64 := h.room
  rw [hnext]
  constructor
  · intro heq
    by_contra hne
    have hlt : keys.length + 1 < 64 := by omega
    refine Ring.index_ne (i := s.kbd.kbdTail) (Nat.zero_lt_succ _) hlt ?_
    rw [heq, Ring.index_zero h.tail]
  · intro hlen
    rw [hlen, Ring.index, Nat.add_mod_right, Nat.mod_eq_of_lt h.tail]

theorem Queues.push (h : Queues s keys) (key : Int) :
    if keys.length = 63 then s.step (.push key) = (s, some (.refused key))
    else (s.step (.push key)).2 = some (.accepted key) ∧
      Queues (s.step (.push key)).1 (keys ++ [key]) := by
  have hfull := h.full_iff
  split
  · next hlen => simp [KeyboardSystem.step, kbdPush, hfull.mpr hlen]
  · next hlen =>
    have hne := fun heq => hlen (hfull.mp heq)
    have hroom : keys.length < 64 := h.room
    have hstep : s.step (.push key) =
        ({ s with kbd := { s.kbd with
            kbdRing := Function.update s.kbd.kbdRing s.kbd.kbdHead key
            kbdHead := (s.kbd.kbdHead + 1) % kbdBufSize } }, some (.accepted key)) := by
      rw [KeyboardSystem.step, kbdPush, if_pos hne]
    rw [hstep]
    refine ⟨rfl, h.tail, ?_, ?_, ?_, ?_⟩
    · have hlt : keys.length + 1 < 64 := by omega
      rwa [List.length_append, List.length_singleton]
    · show (s.kbd.kbdHead + 1) % kbdBufSize = _
      rw [List.length_append, List.length_singleton, ← Ring.next_index, ← h.head]
      rfl
    · show Ring.ahead kbdBufSize (Function.update s.kbd.kbdRing s.kbd.kbdHead key) s.kbd.kbdTail _ = _
      rw [List.length_append, List.length_singleton, Ring.ahead_snoc h.tail, h.head,
        Ring.ahead_update h.tail (Nat.le_refl _) h.room, h.slots, Function.update_self]
    · have hconsumer := h.consumer
      show match s.consumer with
        | .waiting => True
        | .ready => keys ++ [key] ≠ []
        | .took c => (keys ++ [key]).head? = some c
      cases hc : s.consumer with
      | waiting => trivial
      | ready => exact List.append_ne_nil_of_right_ne_nil keys (List.cons_ne_nil key [])
      | took c =>
        simp only [hc] at hconsumer
        simp [List.head?_append, hconsumer]

/-- The consumer takes the first key at its third step. -/
theorem Queues.getchar (h : Queues s keys) :
    match (s.step .getchar).2 with
    | none => Queues (s.step .getchar).1 keys
    | some e => ∃ key rest, keys = key :: rest ∧ e = .returned key ∧ Queues (s.step .getchar).1 rest := by
  have hconsumer := h.consumer
  cases s with
  | mk kbd consumer =>
    cases consumer with
    | waiting =>
      show Queues (if kbd.kbdHead = kbd.kbdTail then _ else _) keys
      split
      · exact h
      · next hne => exact ⟨h.tail, h.room, h.head, h.slots, fun hnil => hne (h.empty_iff.mpr hnil)⟩
    | ready =>
      obtain ⟨key, rest, rfl⟩ := List.exists_cons_of_ne_nil hconsumer
      have hslots := h.slots
      rw [List.length_cons, Ring.ahead] at hslots
      exact ⟨h.tail, h.room, h.head, h.slots, congrArg some (List.cons.inj hslots).1.symm⟩
    | took c =>
      obtain ⟨rest, rfl⟩ := List.head?_eq_some_iff.mp hconsumer
      have hslots := h.slots
      rw [List.length_cons, Ring.ahead] at hslots
      refine ⟨c, rest, rfl, rfl, Ring.next_lt (by decide) _, Nat.lt_of_succ_lt h.room, ?_,
        (List.cons.inj hslots).2, trivial⟩
      exact h.head.trans (Ring.index_next _ _).symm

end Steps

/-- What an event says of the events before it. -/
def KeyEvent.Fits (past : List KeyEvent) : KeyEvent → Prop
  | .accepted _ => (pushed past).length < (received past).length + 63
  | .refused _ => (pushed past).length = (received past).length + 63
  | .returned key => received past ++ [key] <+: pushed past
  | .hasKey answer => answer = true ↔ received past ≠ pushed past

/-- What a run has seen, against the keys that are still in the queue. -/
structure Delivered (s : KeyboardSystem) (l : List KeyEvent) : Prop where
  queue : ∃ keys, Queues s keys ∧ pushed l = received l ++ keys
  events : ∀ pre e post, l = pre ++ e :: post → e.Fits pre

/-- One more event that fits. -/
theorem fits_snoc {l : List KeyEvent} {x : KeyEvent}
    (h : ∀ pre e post, l = pre ++ e :: post → e.Fits pre) (hx : x.Fits l) :
    ∀ pre e post, l ++ [x] = pre ++ e :: post → e.Fits pre := by
  intro pre e post hsplit
  rcases List.eq_nil_or_concat post with rfl | ⟨post', y, rfl⟩
  · obtain ⟨rfl, hlast⟩ := List.append_inj' hsplit rfl
    exact (List.cons.inj hlast).1 ▸ hx
  · rw [List.concat_eq_append, ← List.cons_append, ← List.append_assoc] at hsplit
    exact h pre e post' (List.append_inj' hsplit rfl).1

theorem Delivered.step {s : KeyboardSystem} {l : List KeyEvent} (h : Delivered s l) (c : KeyStep) :
    Delivered (s.step c).1 (l ++ (s.step c).2.toList) := by
  obtain ⟨keys, hkeys, hall⟩ := h.queue
  have hlength : (pushed l).length = (received l).length + keys.length := by
    rw [hall, List.length_append]
  cases c with
  | push key =>
    have hpush := hkeys.push key
    split at hpush
    · next hfull =>
      rw [hpush]
      refine ⟨⟨keys, hkeys, by simpa [pushed, received] using hall⟩, fits_snoc h.events ?_⟩
      rw [KeyEvent.Fits, hlength, hfull]
    · next hroom =>
      obtain ⟨hevent, hqueues⟩ := hpush
      have hlt : keys.length < 64 := hkeys.room
      rw [hevent]
      have hall' : pushed (l ++ [.accepted key]) = received (l ++ [.accepted key]) ++ (keys ++ [key]) := by
        rw [pushed_append, received_append, hall]
        simp [pushed, received]
      refine ⟨⟨keys ++ [key], hqueues, hall'⟩, fits_snoc h.events ?_⟩
      rw [KeyEvent.Fits, hlength]
      omega
  | getchar =>
    have hget := hkeys.getchar
    generalize s.step .getchar = r at hget ⊢
    obtain ⟨s', e⟩ := r
    cases e with
    | none =>
      rw [Option.toList_none, List.append_nil]
      exact ⟨⟨keys, hget, hall⟩, h.events⟩
    | some e =>
      obtain ⟨key, rest, rfl, rfl, hqueues⟩ := hget
      refine ⟨⟨rest, hqueues, by simpa [pushed, received] using hall⟩, fits_snoc h.events ?_⟩
      rw [KeyEvent.Fits, hall]
      exact ⟨rest, by simp⟩
  | hasKey =>
    refine ⟨⟨keys, hkeys, by simpa [KeyboardSystem.step, pushed, received] using hall⟩,
      fits_snoc h.events ?_⟩
    rw [KeyEvent.Fits, keyboardHasKey, decide_eq_true_iff, hall, Ne, hkeys.empty_iff]
    simp

theorem Delivered.run {s : KeyboardSystem} {l : List KeyEvent} (h : Delivered s l)
    (steps : List KeyStep) : Delivered (s.run steps).1 (l ++ (s.run steps).2) := by
  induction steps generalizing s l with
  | nil =>
    rw [KeyboardSystem.run, List.append_nil]
    exact h
  | cons c steps ih =>
    rw [KeyboardSystem.run, ← List.append_assoc]
    exact ih (h.step c)

/-- The consumer gets to the first key within three steps. -/
theorem Queues.next {s : KeyboardSystem} {key : Int} {rest : List Int} (h : Queues s (key :: rest)) :
    ∃ n, received (s.run (List.replicate n .getchar)).2 = [key] ∧
      Queues (s.run (List.replicate n .getchar)).1 rest := by
  have hstep : ∀ {s : KeyboardSystem}, (s.step .getchar).2 = none →
      (∃ n, received ((s.step .getchar).1.run (List.replicate n .getchar)).2 = [key] ∧
        Queues ((s.step .getchar).1.run (List.replicate n .getchar)).1 rest) →
      ∃ n, received (s.run (List.replicate n .getchar)).2 = [key] ∧
        Queues (s.run (List.replicate n .getchar)).1 rest := by
    rintro s hquiet ⟨n, hn⟩
    refine ⟨n + 1, ?_⟩
    rw [List.replicate_succ, KeyboardSystem.run, hquiet]
    exact hn
  have htook : ∀ {s : KeyboardSystem} {c : Int}, Queues s (key :: rest) → s.consumer = .took c →
      ∃ n, received (s.run (List.replicate n .getchar)).2 = [key] ∧
        Queues (s.run (List.replicate n .getchar)).1 rest := by
    intro s c h hc
    have hget := h.getchar
    have hevent : (s.step .getchar).2 = some (.returned c) := by
      simp only [KeyboardSystem.step, getcharStep, hc]
    rw [hevent] at hget
    obtain ⟨key', rest', hkeys, hc', hrest⟩ := hget
    obtain ⟨rfl, rfl⟩ := List.cons.inj hkeys
    obtain rfl := KeyEvent.returned.inj hc'
    refine ⟨1, ?_, hrest⟩
    show received ((s.step .getchar).2.toList ++ []) = _
    rw [hevent]
    rfl
  have hready : ∀ {s : KeyboardSystem}, Queues s (key :: rest) → s.consumer = .ready →
      ∃ n, received (s.run (List.replicate n .getchar)).2 = [key] ∧
        Queues (s.run (List.replicate n .getchar)).1 rest := by
    intro s h hc
    have hget := h.getchar
    have hnext : s.step .getchar = ({ s with consumer := .took (s.kbd.kbdRing s.kbd.kbdTail) }, none) := by
      simp only [KeyboardSystem.step, getcharStep, hc]
    rw [hnext] at hget
    exact hstep (by rw [hnext]) (by rw [hnext]; exact htook hget rfl)
  cases hc : s.consumer with
  | took c => exact htook h hc
  | ready => exact hready h hc
  | waiting =>
    have hget := h.getchar
    have hne : ¬s.kbd.kbdHead = s.kbd.kbdTail := fun heq => List.cons_ne_nil key rest (h.empty_iff.mp heq)
    have hnext : s.step .getchar = ({ s with consumer := .ready }, none) := by
      simp only [KeyboardSystem.step, getcharStep, hc, if_neg hne]
    rw [hnext] at hget
    exact hstep (by rw [hnext]) (by rw [hnext]; exact hready hget rfl)

end RainbowOs.Kernel
