import RainbowOs.Cc.Asm
import RainbowOs.Cc.Expr
import Mathlib.Data.Stream.Init

/-!
# Following the parser along known tokens

The tokens that lie ahead of the lexer are a stream: peeking leaves it,
taking a token drops its head. `Takes p s calls rest q` says that `p`, run
from `s`, makes the calls `calls` and goes on as `q` where `rest` lies ahead,
with everything else as in `s`. One rule for each primitive of the parser
follows a run along.
-/

namespace RainbowOs.Cc

open RainbowOs.Lib

/-! ## The tokens ahead -/

namespace Lexer

/-- The tokens that `lex_next` will answer. -/
def stream (l : Lexer) : Stream' Tok
  | 0 => l.next.1
  | n + 1 => l.next.2.stream n

theorem stream_eq (l : Lexer) : l.stream = Stream'.cons l.next.1 l.next.2.stream := by
  funext n
  cases n <;> rfl

theorem next_peek (l : Lexer) : l.peek.2.next = l.next := by
  cases h : l.peeked <;> simp [peek, next, h]

theorem stream_peek (l : Lexer) : l.peek.2.stream = l.stream := by
  rw [stream_eq, next_peek, ← stream_eq]

theorem peek_fst (l : Lexer) : l.peek.1 = l.next.1 := by
  cases h : l.peeked <;> simp [peek, next, h]

variable {l : Lexer} {t : Tok} {rest : Stream' Tok}

theorem next_of_stream (h : l.stream = Stream'.cons t rest) :
    l.next.1 = t ∧ l.next.2.stream = rest := by
  rw [stream_eq] at h
  exact Stream'.cons_injective2 h

/-- The next tokens, and the lexer after them. -/
def ahead : Nat → Lexer → List Tok × Lexer
  | 0, l => ([], l)
  | n + 1, l => (l.next.1 :: (ahead n l.next.2).1, (ahead n l.next.2).2)

theorem stream_ahead (n : Nat) (l : Lexer) :
    l.stream = (l.ahead n).1 ++ₛ (l.ahead n).2.stream := by
  induction n generalizing l with
  | zero => rfl
  | succ n ih =>
    rw [stream_eq, ih l.next.2]
    rfl

end Lexer

/-! ## What a run has done -/

/-- `s'` is `s` after the calls, with `rest` ahead. -/
structure After (s : Compiler) (calls : List CgCall) (rest : Stream' Tok) (s' : Compiler) : Prop where
  stream : s'.lex.stream = rest
  state : s' = { s with lex := s'.lex, cg := runCalls calls s.cg }

namespace After

variable {s s' s'' : Compiler} {calls calls' : List CgCall} {rest rest' : Stream' Tok}

theorem refl (s : Compiler) : After s [] s.lex.stream s := ⟨rfl, rfl⟩

theorem trans (h : After s calls rest s') (h' : After s' calls' rest' s'') :
    After s (calls ++ calls') rest' s'' := by
  refine ⟨h'.stream, h'.state.trans ?_⟩
  generalize s''.lex = l
  rw [h.state, runCalls_append]

theorem syms (h : After s calls rest s') : s'.syms = s.syms := by rw [h.state]

theorem cg (h : After s calls rest s') : s'.cg = runCalls calls s.cg := by rw [h.state]

theorem hadError (h : After s calls rest s') : s'.hadError = s.hadError := by rw [h.state]

end After

/-- `p` from `s` makes the calls, and goes on as `q` with `rest` ahead. -/
def Takes {α : Type} (p : Parse α) (s : Compiler) (calls : List CgCall) (rest : Stream' Tok)
    (q : Parse α) : Prop :=
  ∃ s' log, p s = (q s').prepend log ∧ callsOf log = calls ∧ After s calls rest s'

namespace Takes

variable {α β : Type} {p q r : Parse α} {s : Compiler} {calls calls' : List CgCall}
  {rest rest' : Stream' Tok}

theorem refl (p : Parse α) (s : Compiler) : Takes p s [] s.lex.stream p :=
  ⟨s, [], (Prog.prepend_nil _).symm, rfl, .refl s⟩

/-- Two stretches of a run. -/
theorem trans (h : Takes p s calls rest q)
    (h' : ∀ s', After s calls rest s' → Takes q s' calls' rest' r) :
    Takes p s (calls ++ calls') rest' r := by
  obtain ⟨s₁, log, hp, hcalls, hafter⟩ := h
  obtain ⟨s₂, log', hq, hcalls', hafter'⟩ := h' s₁ hafter
  refine ⟨s₂, log ++ log', ?_, ?_, hafter.trans hafter'⟩
  · rw [hp, hq, Prog.prepend_prepend]
  · rw [callsOf_append, hcalls, hcalls']

/-- The first part of a bind. -/
theorem bind {p q : Parse α} {f : α → Parse β} (h : Takes p s calls rest q) :
    Takes (p >>= f) s calls rest (q >>= f) := by
  obtain ⟨s', log, hp, hlog⟩ := h
  exact ⟨s', log, Prog.bind_prepend hp, hlog⟩

/-- A first part that answers `a`. -/
theorem bind_pure {p : Parse α} {a : α} {f : α → Parse β} (h : Takes p s calls rest (pure a)) :
    Takes (p >>= f) s calls rest (f a) := by
  obtain ⟨s', log, hp, hlog⟩ := h
  refine ⟨s', log, ?_, hlog⟩
  rw [Prog.bind_prepend hp, Prog.bind_run_prepend (Prog.pure_run a s')]
  rfl

/-- A primitive that answers at once, and what the rest of the program does. -/
theorem step {p : Parse α} {a : α} {f : α → Parse β} {k : Parse β} (log : List Event)
    (s₁ : Compiler) (hp : p s = ⟨.done a, s₁, log⟩) (hafter : After s (callsOf log) rest s₁)
    (h : ∀ s', After s (callsOf log) rest s' → Takes (f a) s' calls' rest' k) :
    Takes (p >>= f) s (callsOf log ++ calls') rest' k := by
  obtain ⟨s₂, log', hf, hcalls', hafter'⟩ := h s₁ hafter
  refine ⟨s₂, log ++ log', ?_, ?_, hafter.trans hafter'⟩
  · rw [Prog.bind_run_prepend hp, hf, Prog.prepend_prepend]
  · rw [callsOf_append, hcalls']

variable {t : Tok} {k : Parse β}

theorem lexPeek {f : Tok → Parse β} (hs : s.lex.stream = Stream'.cons t rest)
    (h : ∀ s', After s [] (Stream'.cons t rest) s' → Takes (f t) s' calls rest' k) :
    Takes (lexPeek >>= f) s calls rest' k := by
  have hpeek : s.lex.peek.1 = t := s.lex.peek_fst.trans (Lexer.next_of_stream hs).1
  apply step (a := t) [] { s with lex := s.lex.peek.2 } _ _ h
  · rw [← hpeek]
    rfl
  · exact ⟨s.lex.stream_peek.trans hs, rfl⟩

theorem lexNext {f : Tok → Parse β} (hs : s.lex.stream = Stream'.cons t rest)
    (h : ∀ s', After s [] rest s' → Takes (f t) s' calls rest' k) :
    Takes (lexNext >>= f) s calls rest' k := by
  obtain ⟨hnext, hrest⟩ := Lexer.next_of_stream hs
  apply step (a := t) [] { s with lex := s.lex.next.2 } _ _ h
  · rw [← hnext]
    rfl
  · exact ⟨hrest, rfl⟩

theorem cg {f : Unit → Parse β} (call : CgCall)
    (h : ∀ s', After s [call] s.lex.stream s' → Takes (f ()) s' calls rest' k) :
    Takes (cg call >>= f) s (call :: calls) rest' k :=
  step [.emit call] { s with cg := call.run s.cg } rfl ⟨rfl, rfl⟩ h

/-- A first part that only looks. -/
theorem look {p : Parse α} {a : α} {f : α → Parse β} (log : List Event)
    (hp : p s = ⟨.done a, s, log⟩) (hlog : callsOf log = []) (h : Takes (f a) s calls rest k) :
    Takes (p >>= f) s calls rest k := by
  obtain ⟨s', log', hf, hcalls, hafter⟩ := h
  refine ⟨s', log ++ log', ?_, ?_, hafter⟩
  · rw [Prog.bind_run_prepend hp, hf, Prog.prepend_prepend]
  · rw [callsOf_append, hlog, hcalls, List.nil_append]

/-- A name that has room is copied. -/
theorem copyName {name : List UInt8} {f : List UInt8 → Parse β} (hname : name.length ≤ symNameMax)
    (h : Takes (f name) s calls rest k) : Takes (copyName name >>= f) s calls rest k := by
  refine look [.copy name] ?_ rfl h
  rw [RainbowOs.Cc.copyName, if_pos hname]
  rfl

/-- A token that is expected. -/
theorem expect {f : Unit → Parse β} (hs : s.lex.stream = Stream'.cons t rest)
    (h : ∀ s', After s [] rest s' → Takes (f ()) s' calls rest' k) :
    Takes (expect t >>= f) s calls rest' k := by
  obtain ⟨hnext, hrest⟩ := Lexer.next_of_stream hs
  apply step (a := ()) [] { s with lex := s.lex.next.2 } _ _ h
  · have hrun : RainbowOs.Cc.expect t s = (if s.lex.next.1 ≠ t then error (expectMsg t)
        else pure ()) { s with lex := s.lex.next.2 } := rfl
    rw [hrun, if_neg (not_not_intro hnext)]
    rfl
  · exact ⟨hrest, rfl⟩

theorem expect_last (hs : s.lex.stream = Stream'.cons t rest) :
    Takes (RainbowOs.Cc.expect t) s [] rest (pure ()) := by
  obtain ⟨hnext, hrest⟩ := Lexer.next_of_stream hs
  refine ⟨{ s with lex := s.lex.next.2 }, [], ?_, rfl, hrest, rfl⟩
  have hrun : RainbowOs.Cc.expect t s = (if s.lex.next.1 ≠ t then error (expectMsg t)
      else pure ()) { s with lex := s.lex.next.2 } := rfl
  rw [hrun, if_neg (not_not_intro hnext)]
  rfl

/-- The loops of the parser end at a token that does not continue them. -/
theorem whilePeek_end {more : Tok → Bool} {body : Parse Unit} {fuel : Nat}
    (hs : s.lex.stream = Stream'.cons t rest) (ht : more t = false) (hfuel : 0 < fuel) :
    Takes (whilePeek more body fuel) s [] (Stream'.cons t rest) (pure ()) := by
  obtain ⟨n, rfl⟩ := Nat.exists_eq_add_of_lt hfuel
  rw [Nat.zero_add]
  apply Takes.lexPeek hs
  intro s' hs'
  rw [ht, if_neg Bool.false_ne_true, ← hs'.stream]
  exact refl _ s'

/-- And go on after a round at any other. -/
theorem whilePeek_round {more : Tok → Bool} {body : Parse Unit} {fuel : Nat}
    (hs : s.lex.stream = Stream'.cons t rest) (ht : more t = true) (hfuel : 0 < fuel)
    (h : ∀ s', After s [] (Stream'.cons t rest) s' → Takes body s' calls rest' (pure ())) :
    Takes (whilePeek more body fuel) s calls rest' (whilePeek more body (fuel - 1)) := by
  obtain ⟨n, rfl⟩ := Nat.exists_eq_add_of_lt hfuel
  rw [Nat.zero_add]
  apply Takes.lexPeek hs
  intro s' hs'
  rw [ht, if_pos rfl]
  exact bind_pure (h s' hs')

end Takes

end RainbowOs.Cc
