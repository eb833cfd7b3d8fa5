import RainbowOs.Basic.Conditional
import RainbowOs.Basic.Listing

/-!
# Indexed variables of BASIC

`vars.c` has ten numbers for each letter besides the plain one, and all who
read a variable look for a digit after its letter. But the tokenizer makes a
number literal of the digit, so nobody finds it: the name that was typed is
the plain letter, with a literal after it.
-/

namespace RainbowOs.Basic

open RainbowOs.Lib
open Prog (get_bind_run modify_bind_run tell_bind_run bind_run_prepend bind_run_quiet)

/-- The tokens that are put out where the tokenizer comes to the letter `l` and the digit `d`. -/
def Spelled (l d : UInt8) (out : List UInt8) : Prop :=
  ∃ maxLen fuel pos rest, out = tokenizeLoop maxLen fuel pos (l :: d :: rest)

/-- The name `ld` is at a position of a line. -/
def Occurs (t : Tokens) (len pos : Nat) (l d : UInt8) : Prop :=
  pos < len ∧ Spelled l d (t.mem.slice (t.addr + pos) (len - pos))

/-- The variable of a letter, and that of a letter and a digit. -/
def plainSlot (l : UInt8) : Nat := (toUpper l - 65).toNat

def indexedSlot (l d : UInt8) : Nat := 26 + (toUpper l - 65).toNat * 10 + (d - 48).toNat

section Names

variable {l d : UInt8}

theorem letter_facts : ∀ l : UInt8, isAlpha l = true → isDigit l = false ∧ toUpper l ≤ 90 ∧
    65 ≤ toUpper l ∧ toUpper (toUpper l) = toUpper l ∧ l < 0x80 ∧ 62 < l :=
  byte_forall (by decide +kernel)

theorem varNum_plain (h : isAlpha l = true) : varNum l (-1) = some (plainSlot l) := by
  obtain ⟨-, hle, hge, -, -, -⟩ := letter_facts l h
  simp [varNum, hle, hge, plainSlot]

theorem plainSlot_lt (h : isAlpha l = true) : plainSlot l < 26 := by
  obtain ⟨-, hle, hge, -, -, -⟩ := letter_facts l h
  rw [plainSlot, UInt8.toNat_sub_of_le _ _ hge]
  exact Nat.lt_succ_of_le (Nat.sub_le_sub_right (UInt8.le_iff_toNat_le.mp hle) 65)

/-- A letter and its digit are not the variable of the letter. -/
theorem plainSlot_ne_indexedSlot (h : isAlpha l = true) (d : UInt8) :
    plainSlot l ≠ indexedSlot l d := by
  have hlt := plainSlot_lt h
  unfold indexedSlot
  omega

/-! ## The tokenizer -/

/-- A letter before a digit is put out alone. -/
theorem tokenizeStep_letter (hl : isAlpha l = true) (hd : isDigit d = true) (maxLen pos : Nat)
    (rest : List UInt8) : tokenizeStep maxLen pos l (d :: rest) = ([l], d :: rest) := by
  obtain ⟨hdigit, -, -, -, -, habove⟩ := letter_facts l hl
  have hkeyword : findKeyword (l :: d :: rest) keywords = none := by
    refine (findKeyword_none fun k => keyword_ne_nil).mpr fun k hk hspells => ?_
    have hlen := (keyword_facts k hk).1
    obtain ⟨a, kw, hkw⟩ := List.exists_cons_of_ne_nil (keyword_ne_nil hk)
    cases kw with
    | nil => simp [hkw] at hlen
    | cons b kw =>
      have hstarts := hspells.1
      rw [hkw, List.map_cons, List.map_cons, List.cons_prefix_cons, List.cons_prefix_cons] at hstarts
      have hstop := toUpper_stop (.inl hd)
      rw [← hstarts.2.1] at hstop
      rcases keyword_letters k hk b (hkw ▸ List.mem_cons_of_mem _ List.mem_cons_self) with hb | hb
      · exact hstop.1 hb
      · exact hstop.2 hb
  have hne : ∀ c : UInt8, c ≤ 62 → l ≠ c := by
    rintro c hc rfl
    exact absurd hc (UInt8.not_le.mpr habove)
  have hcomparison : findComparison (l :: d :: rest) = none := by
    unfold findComparison
    split
    · next heq => exact absurd (List.cons.inj heq).1 (hne 60 (by decide))
    · next heq => exact absurd (List.cons.inj heq).1 (hne 62 (by decide))
    · next heq => exact absurd (List.cons.inj heq).1 (hne 60 (by decide))
    · rfl
  rw [tokenizeStep, if_neg (hne 32 (by decide)), hkeyword]
  simp only [hdigit, Bool.false_eq_true, if_false, if_neg (hne 34 (by decide)), hcomparison]

/-- A digit starts a number. -/
theorem tokenizeStep_digit (hd : isDigit d = true) (maxLen pos : Nat) (rest : List UInt8) :
    ∃ more rest', tokenizeStep maxLen pos d rest = (Tok.num :: more, rest') := by
  have hblank : d ≠ 32 := by
    rintro rfl
    cases hd
  rw [tokenizeStep, if_neg hblank, findKeyword_of_head (toUpper_stop (.inl hd)), if_pos hd]
  exact ⟨_, _, rfl⟩

/-- After the letter there is a literal, or the line is cut off. -/
theorem Spelled.shape (hl : isAlpha l = true) (hd : isDigit d = true) {out : List UInt8}
    (h : Spelled l d out) : out = [] ∨ out = [l] ∨ ∃ more, out = l :: Tok.num :: more := by
  obtain ⟨maxLen, fuel, pos, rest, rfl⟩ := h
  cases fuel with
  | zero => exact .inl rfl
  | succ fuel =>
    rw [tokenizeLoop, tokenizeStep_letter hl hd]
    split
    · refine .inr ?_
      show [l] ++ tokenizeLoop maxLen fuel (pos + 1) (d :: rest) = [l] ∨
        ∃ more, [l] ++ tokenizeLoop maxLen fuel (pos + 1) (d :: rest) = l :: Tok.num :: more
      cases fuel with
      | zero => exact .inl rfl
      | succ fuel =>
        obtain ⟨more, rest', hstep⟩ := tokenizeStep_digit hd maxLen (pos + 1) rest
        rw [tokenizeLoop, hstep]
        split
        · exact .inr ⟨_, rfl⟩
        · exact .inl rfl
    · exact .inl rfl

variable {t : Tokens} {len pos : Nat}

theorem Occurs.tok (hl : isAlpha l = true) (hd : isDigit d = true) (h : Occurs t len pos l d) :
    t.tok pos = l ∧ (peekTok t len (pos + 1) = 0 ∨ peekTok t len (pos + 1) = Tok.num) := by
  obtain ⟨hlt, hspelled⟩ := h
  obtain ⟨k, hk⟩ : ∃ k, len - pos = k + 1 := ⟨len - pos - 1, by omega⟩
  rw [hk, Bytes.slice_succ] at hspelled
  rcases hspelled.shape hl hd with hnil | hone | ⟨more, hmore⟩
  · cases hnil
  · obtain ⟨htok, hend⟩ := List.cons.inj hone
    have hlength := congrArg List.length hend
    rw [Bytes.length_slice] at hlength
    have hle : len ≤ pos + 1 := by
      rw [hlength, List.length_nil] at hk
      omega
    exact ⟨htok, .inl (if_pos hle)⟩
  · obtain ⟨htok, hnext⟩ := List.cons.inj hmore
    cases k with
    | zero => cases hnext
    | succ k =>
      rw [Bytes.slice_succ] at hnext
      have hgt : ¬pos + 1 ≥ len := by omega
      exact ⟨htok, .inr ((if_neg hgt).trans (List.cons.inj hnext).1)⟩

/-! ## The three parsers -/

/-- What follows a name that is a letter and a digit is none of the characters that are looked for. -/
theorem Occurs.next (hl : isAlpha l = true) (hd : isDigit d = true) (h : Occurs t len pos l d) :
    isDigit (peekTok t len (pos + 1)) = false ∧ peekTok t len (pos + 1) ≠ 36 ∧
      peekTok t len (skipSp t len (pos + 1)) ≠ 61 := by
  obtain ⟨-, hnext⟩ := h.tok hl hd
  have hstay : peekTok t len (skipSp t len (pos + 1)) = peekTok t len (pos + 1) := by
    by_cases hlt : pos + 1 < len
    · rw [peekTok, if_neg (Nat.not_le.mpr hlt)] at hnext
      rw [skipSp_of_ne]
      rcases hnext with hnext | hnext
      all_goals
        rw [hnext]
        decide
    · rw [skipSp_of_le t len (Nat.not_lt.mp hlt)]
  rw [hstay]
  rcases hnext with hnext | hnext
  all_goals
    rw [hnext]
    decide

theorem Occurs.skip (hl : isAlpha l = true) (hd : isDigit d = true) (h : Occurs t len pos l d) :
    skipSp t len pos = pos ∧ peekTok t len pos = l := by
  obtain ⟨htok, -⟩ := h.tok hl hd
  refine ⟨skipSp_of_ne ?_, (if_neg (Nat.not_le.mpr h.1)).trans htok⟩
  rw [htok]
  rintro rfl
  cases hl

theorem letter_ne (hl : isAlpha l = true) {c : UInt8} (hc : isAlpha c = false) : l ≠ c := by
  rintro rfl
  exact Bool.false_ne_true (hc.symm.trans hl)

/-- An expression reads the plain letter. -/
theorem parsePrimary_occurs (hl : isAlpha l = true) (hd : isDigit d = true) (hlen : len < 256)
    (h : Occurs t len pos l d) (vars : Vars) (ram : Bytes) (fuel : Nat) {e : Eval}
    (he : e.pos = pos) : Eval.parsePrimary t len vars ram (fuel + 1) e =
      ⟨.done (.num (vars.nums (plainSlot l))), { e with pos := pos + 1 }, []⟩ := by
  subst he
  obtain ⟨hskip, hpeek⟩ := h.skip hl hd
  obtain ⟨hdigit, hdollar, -⟩ := h.next hl hd
  have hfunction : ¬(Tok.abs ≤ l ∧ l ≤ Tok.int) := fun h => by
    have hlow := (letter_facts l hl).2.2.2.2.1
    exact absurd (UInt8.lt_of_le_of_lt h.1 hlow) (by decide)
  have hadv : adv e.pos 1 = e.pos + 1 := Nat.mod_eq_of_lt (by have := h.1; omega)
  have hstay : Eval.skip t len e = ⟨.done (), e, []⟩ := by
    show (⟨.done (), { e with pos := skipSp t len e.pos }, []⟩ : Run Eval Fault Division Unit) = _
    rw [hskip]
  have hread : Eval.peek t len e = ⟨.done l, e, []⟩ := by
    show (⟨.done (peekTok t len e.pos), e, []⟩ : Run Eval Fault Division UInt8) = _
    rw [hpeek]
  have hadvance : Eval.advance 1 e = ⟨.done (), { e with pos := e.pos + 1 }, []⟩ := by
    show (⟨.done (), { e with pos := adv e.pos 1 }, []⟩ : Run Eval Fault Division Unit) = _
    rw [hadv]
  have hafter : Eval.peek t len { e with pos := e.pos + 1 } =
      ⟨.done (peekTok t len (e.pos + 1)), { e with pos := e.pos + 1 }, []⟩ := rfl
  rw [Eval.parsePrimary, bind_run_quiet hstay, bind_run_quiet hread, if_neg (letter_ne hl rfl),
    if_neg (letter_ne hl rfl), if_neg (letter_ne hl rfl), if_neg (letter_ne hl rfl),
    if_neg (letter_ne hl rfl), if_neg hfunction, if_pos hl, Eval.variable_, bind_run_quiet hadvance,
    bind_run_quiet hafter, if_neg hdollar, bind_run_quiet hafter]
  simp only [hdigit, Bool.false_eq_true, if_false, varNum_plain hl]
  rfl

variable {s : Interp}

theorem setPos_adv (hlt : pos + 1 < 256) : setPos (adv · 1) (s.at pos) = ⟨.done (), s.at (pos + 1), []⟩ := by
  have hadv : adv pos 1 = pos + 1 := Nat.mod_eq_of_lt hlt
  exact congrArg (fun q => (⟨.done (), s.at q, []⟩ : Run Interp Stuck Event Unit)) hadv

/-- So do the targets of an assignment, of `FOR` and of `INPUT`. -/
theorem parseVarTarget_occurs (hl : isAlpha l = true) (hd : isDigit d = true) (hlen : len < 256)
    (h : Occurs t len pos l d) : parseVarTarget t len (s.at pos) =
      ⟨.done (some ⟨toUpper l, -1, false⟩), s.at (pos + 1), []⟩ := by
  obtain ⟨hskip, hpeek⟩ := h.skip hl hd
  obtain ⟨hdigit, hdollar, -⟩ := h.next hl hd
  have hread : peek t len (s.at pos) = ⟨.done l, s.at pos, []⟩ := by
    rw [← hpeek]
    rfl
  have hafter : peek t len (s.at (pos + 1)) = ⟨.done (peekTok t len (pos + 1)), s.at (pos + 1), []⟩ := rfl
  have hstay : skip t len (s.at pos) = ⟨.done (), s.at pos, []⟩ := skip_run (s := s.at pos) hskip
  rw [parseVarTarget, bind_run_quiet hstay, bind_run_quiet hread, if_pos hl,
    bind_run_quiet (setPos_adv (by have := h.1; omega)), bind_run_quiet hafter, if_neg hdollar,
    hdigit, if_neg (by decide)]
  rfl

/-- And `NEXT`. -/
theorem nextName_occurs (hl : isAlpha l = true) (hd : isDigit d = true) (hlen : len < 256)
    (h : Occurs t len pos l d) : nextName t len (s.at pos) =
      ⟨.done (some (toUpper l, -1)), s.at (pos + 1), []⟩ := by
  obtain ⟨hskip, hpeek⟩ := h.skip hl hd
  obtain ⟨hdigit, -, -⟩ := h.next hl hd
  have hread : peek t len (s.at pos) = ⟨.done l, s.at pos, []⟩ := by
    rw [← hpeek]
    rfl
  have hafter : peek t len (s.at (pos + 1)) = ⟨.done (peekTok t len (pos + 1)), s.at (pos + 1), []⟩ := rfl
  have hstay : skip t len (s.at pos) = ⟨.done (), s.at pos, []⟩ := skip_run (s := s.at pos) hskip
  rw [nextName, bind_run_quiet hstay, bind_run_quiet hread, if_pos hl,
    bind_run_quiet (setPos_adv (by have := h.1; omega)), bind_run_quiet hafter, hdigit,
    if_neg (by decide)]
  rfl

/-- An assignment finds no `=`, and leaves the variables alone. -/
theorem execAssignment_occurs (hl : isAlpha l = true) (hd : isDigit d = true) (hlen : len < 256)
    (h : Occurs t len pos l d) (fuel : Nat) : ∃ s', execAssignment t len fuel (s.at pos) =
      ⟨.done (), s', []⟩ ∧ s'.hasError = true ∧ s'.vars = s.vars ∧ s'.exec.jumped = s.exec.jumped := by
  obtain ⟨-, -, hequal⟩ := h.next hl hd
  have hpeek : peek t len (s.at (skipSp t len (pos + 1))) =
      ⟨.done (peekTok t len (skipSp t len (pos + 1))), s.at (skipSp t len (pos + 1)), []⟩ := rfl
  have hskip : skip t len (s.at (pos + 1)) = ⟨.done (), s.at (skipSp t len (pos + 1)), []⟩ := rfl
  refine ⟨(setError "SYNTAX ERROR" (s.at (skipSp t len (pos + 1)))).state, ?_, rfl, rfl, rfl⟩
  rw [execAssignment, bind_run_quiet (parseVarTarget_occurs hl hd hlen h)]
  show (skip t len >>= fun _ => peek t len >>= fun c => if c ≠ 61 then setError "SYNTAX ERROR" else _)
    (s.at (pos + 1)) = _
  rw [bind_run_quiet hskip, bind_run_quiet hpeek, if_pos hequal]
  rfl

theorem execSwitch_letter (hl : isAlpha l = true) (fuel : Nat) (statement : Exec Unit) :
    execSwitch t len fuel statement l = execAssignment t len fuel := by
  rw [execSwitch, if_neg (letter_ne hl rfl), if_neg (letter_ne hl rfl), if_neg (letter_ne hl rfl),
    if_pos hl]

/-- A line that starts with the name is an error, and changes no variable. -/
theorem execLineAt_occurs (hl : isAlpha l = true) (hd : isDigit d = true) (hlen : len < 256)
    (h : Occurs t len 0 l d) (hrun : s.exec.running = true) (herr : s.hasError = false)
    (hkey : ¬s.Break) (fuel : Nat) : ∃ s', s'.hasError = true ∧ s'.vars = s.vars ∧
      execLineAt t len (fuel + 2) 0 s = ⟨.done (), s', [.stmt t.addr 0]⟩ := by
  obtain ⟨hskip, -⟩ := h.skip hl hd
  obtain ⟨htok, -⟩ := h.tok hl hd
  have hcolon : t.tok 0 ≠ 58 := htok ▸ letter_ne hl rfl
  obtain ⟨s', hexec, hset, hvars, hjumped⟩ :=
    execAssignment_occurs (s := s.entered.polled) hl hd hlen h (fuel + 1)
  have hstmt : execStatement t len (fuel + 2) (s.entered.at 0) = ⟨.done (), s', [.stmt t.addr 0]⟩ := by
    rw [execStatement_run (s := s.entered.at 0) hskip h.1 hrun hkey, htok, execSwitch_letter hl]
    exact congrArg (Run.prepend _) hexec
  have hline : execLineAt t len (fuel + 2) 0 s = (execStatement t len (fuel + 2) >>= fun _ =>
      afterStatement t len (fuel + 2) (fuel + 1)) (s.entered.at 0) :=
    execLineAt_run.trans (lineLoop_statement (s := s.entered.at 0) hskip h.1 hcolon hrun herr)
  refine ⟨s', hset, hvars, ?_⟩
  rw [hline, bind_run_prepend hstmt, afterStatement_run hjumped, lineLoop, get_bind_run,
    if_neg (by simp [hset])]
  rfl

end Names

/-- The line at `t` is what the tokenizer makes of a text. -/
def HasText (t : Tokens) (len : Nat) (src : List UInt8) : Prop :=
  t.mem.slice t.addr len = tokenize 120 src

/-- A line in which an indexed variable is assigned has its name first. -/
theorem HasText.occurs {t : Tokens} {len : Nat} {l d : UInt8} {src : List UInt8}
    (hl : isAlpha l = true) (hd : isDigit d = true) (h : HasText t len (l :: d :: src)) :
    Occurs t len 0 l d := by
  have hspelled : Spelled l d (t.mem.slice t.addr len) := ⟨120, _, 0, src, h⟩
  refine ⟨?_, hspelled⟩
  have hlength := congrArg List.length h
  rw [Bytes.length_slice, tokenize, List.length_cons, tokenizeLoop, if_pos (by decide),
    tokenizeStep_letter hl hd] at hlength
  rw [hlength]
  exact Nat.succ_pos _

/-- The assignment of `n` to a variable is carried out. -/
def Stores (slot : Nat) (n : Int) (s' : Interp) : Prop :=
  s'.hasError = false ∧ s'.vars.nums slot = n

/-- `ld=e` never stores anything: it is an error, and changes no variable. And wherever the name `ld`
is in a line, an expression, a target of an assignment, of `FOR` or of `INPUT`, and `NEXT` take
it for the plain letter. -/
theorem indexed_never {l d : UInt8} (hl : isAlpha l = true) (hd : isDigit d = true) {t : Tokens}
    {len : Nat} (hlen : len < 256) :
    (∀ (e : List UInt8) (s : Interp) (fuel : Nat) (n : Int), HasText t len (l :: d :: 61 :: e) →
      s.exec.running = true → s.hasError = false → ¬s.Break →
      ¬Stores (indexedSlot l d) n (execLineAt t len (fuel + 2) 0 s).state ∧
        (execLineAt t len (fuel + 2) 0 s).state.hasError = true ∧
        (execLineAt t len (fuel + 2) 0 s).state.vars = s.vars) ∧
    ∀ pos, Occurs t len pos l d → plainSlot l ≠ indexedSlot l d ∧
      (∀ (vars : Vars) (ram : Bytes) (fuel : Nat) (e : Eval), e.pos = pos →
        Eval.parsePrimary t len vars ram (fuel + 1) e =
          ⟨.done (.num (vars.nums (plainSlot l))), { e with pos := pos + 1 }, []⟩) ∧
      ∀ s : Interp, s.exec.pos = pos →
        (∃ s', parseVarTarget t len s = ⟨.done (some ⟨toUpper l, -1, false⟩), s', []⟩) ∧
        ∃ s', nextName t len s = ⟨.done (some (toUpper l, -1)), s', []⟩ := by
  refine ⟨fun e s fuel n htext hrun herr hkey => ?_, fun pos h => ?_⟩
  · obtain ⟨s', hset, hvars, hexec⟩ := execLineAt_occurs hl hd hlen (htext.occurs hl hd) hrun herr hkey fuel
    rw [hexec]
    exact ⟨fun hstores => Bool.false_ne_true (hstores.1.symm.trans hset), hset, hvars⟩
  · refine ⟨plainSlot_ne_indexedSlot hl d,
      fun vars ram fuel e he => parsePrimary_occurs hl hd hlen h vars ram fuel he, fun s hs => ?_⟩
    have hat : s.at pos = s := by
      rw [← hs]
      rfl
    exact ⟨⟨_, hat ▸ parseVarTarget_occurs hl hd hlen h⟩, ⟨_, hat ▸ nextName_occurs hl hd hlen h⟩⟩

/-- `A1=5` -/
def indexedText : List UInt8 := ascii "A1=5"

theorem hasText_indexed : HasText ((Interp.ofText indexedText).prog.tokens 0)
    ((Interp.ofText indexedText).prog.dataLen 0) indexedText := by
  unfold HasText
  decide

theorem indexed_never_five : (execLineAt ((Interp.ofText indexedText).prog.tokens 0)
    ((Interp.ofText indexedText).prog.dataLen 0) 4 0 (Interp.ofText indexedText)).state.vars =
      (Interp.ofText indexedText).vars :=
  ((indexed_never (l := 65) (d := 49) rfl rfl (by decide)).1 [53] _ 2 5 hasText_indexed rfl rfl
    fun h => Bool.false_ne_true h.1).2.2

/-- The text `e` is an expression of the value `n`. -/
def HasValue (fuel : Nat) (s : Interp) (e : List UInt8) (n : Int) : Prop :=
  ∃ e' : Eval, e'.error = false ∧ Eval.exprEval ⟨Bytes.zeros.store 0 (tokenize 120 e), 0⟩
    (tokenize 120 e).length s.vars s.ram fuel ⟨0, 0, false, s.rnd⟩ = some (.num n, e')

/-- `A1=5` stores nothing. -/
theorem indexed_unreachable : ¬∀ (l d : UInt8) (e : List UInt8) (t : Tokens) (len fuel : Nat)
    (s : Interp) (n : Int), isAlpha l = true → isDigit d = true →
    HasText t len (l :: d :: 61 :: e) → s.exec.running = true → s.hasError = false → ¬s.Break →
    HasValue fuel s e n → Stores (indexedSlot l d) n (execLineAt t len (fuel + 2) 0 s).state := by
  intro h
  have hvalue : HasValue 4 (Interp.ofText indexedText) [53] 5 :=
    ⟨⟨5, 0, false, 12345⟩, rfl, by decide⟩
  have hstores := h 65 49 [53] _ _ 4 (Interp.ofText indexedText) 5 rfl rfl hasText_indexed rfl rfl
    (fun h => Bool.false_ne_true h.1) hvalue
  exact Bool.false_ne_true (hstores.1.symm.trans (by decide +kernel))

end RainbowOs.Basic
