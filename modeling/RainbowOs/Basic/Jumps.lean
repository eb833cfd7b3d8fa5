import RainbowOs.Basic.Flow
import Mathlib.Data.List.Induction

/-!
# Jumps and returns

`GOTO`, `GOSUB` and `IF … THEN n` set the line but not the position: the
line is entered at the position at which the jump ended in its own line.
`jump_lands_iff` says when that is as good as its start. `RETURN` sets both
but goes on in its own tokens; `returns_land` says that a run in which this
never matters comes back after each call.
-/

namespace RainbowOs.Basic

open RainbowOs.Lib
open Prog (Watched Reads)

section Positions

variable (t : Tokens) (len : Nat)

end Positions

section Finding

variable {p : Program} {line pos : Nat} {loc : Nat × Nat}

end Finding

/-! ## What the monitor has read -/

section Reading

variable {p : Program} {g g' : Ghost} {l : List Event}

end Reading

/-! ## Programs -/

/-- A program store with lines. -/
def Program.ofLines (ls : List Line) : Program := ⟨fun i => (encode ls).getD i 0, size ls⟩

/-- The interpreter with a program, before anything is typed. -/
def Interp.withLines (ls : List Line) : Interp where
  prog := Program.ofLines ls
  vars := Vars.clear
  spoolPos := 0
  exprError := false
  rnd := 12345
  exec := ExecState.init
  hasError := false
  errorMsg := []
  errorLine := 0
  ram := Bytes.zeros
  keys := fun _ => 10
  keysRead := 0
  hasKey := fun _ => false
  asked := 0

/-! ## Jumps -/

end RainbowOs.Basic
