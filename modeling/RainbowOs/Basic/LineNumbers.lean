import RainbowOs.Basic.ForNext
import RainbowOs.Basic.RoundTrip

/-!
# Line numbers

The number before a line is read in 16 bits where the line is entered and
where it is loaded, and the number after `GOTO` is cut to 16 bits; so each of
them stands for what is left of it modulo 65536. `LIST` without arguments
ends at 9999. `line_numbers_iff` says which numerals are honoured.
-/

namespace RainbowOs.Basic

open RainbowOs.Lib
open Prog (get_bind_run modify_bind_run tell_bind_run bind_run_prepend bind_run_quiet)

/-! ## Numerals -/

/-- The number that digits stand for. -/
def numeralValue (ds : List UInt8) : Nat := ds.foldl (fun n c => n * 10 + (c.toNat - 48)) 0

/-- A numeral, and the text that follows it. -/
structure Numbered (ds s : List UInt8) : Prop where
  digits : ∀ c ∈ ds, isDigit c = true
  nonempty : ds ≠ []
  ends : isDigit (s.headD 0) = false
  nonzero : ∀ c ∈ s, c ≠ 0
  text : s.dropWhile (· = 32) ≠ []

/-- The tokens of the text after a numeral. -/
def tokensAfter (s : List UInt8) : List UInt8 := tokenize 120 (s.dropWhile (· = 32))

section Numerals

variable {ds s t : List UInt8}

theorem takeWhile_digits (hds : ∀ c ∈ ds, isDigit c = true) (hs : isDigit (s.headD 0) = false) :
    (ds ++ s).takeWhile isDigit = ds ∧ (ds ++ s).dropWhile isDigit = s := by
  rw [List.takeWhile_append_of_pos hds, List.dropWhile_append_of_pos hds]
  cases s with
  | nil => exact ⟨List.append_nil ds, rfl⟩
  | cons c s =>
    have hc : ¬isDigit c = true := Bool.eq_false_iff.mp hs
    rw [List.takeWhile_cons_of_neg hc, List.dropWhile_cons_of_neg hc]
    exact ⟨List.append_nil ds, rfl⟩

/-- `parse_line_number` reads a numeral modulo 65536. -/
theorem parseLineNumber_numeral (hds : ∀ c ∈ ds, isDigit c = true)
    (hs : isDigit (s.headD 0) = false) : parseLineNumber (ds ++ s) = (numeralValue ds % 65536, s) := by
  obtain ⟨htake, hdrop⟩ := takeWhile_digits hds hs
  have hfold : ∀ (ds : List UInt8) (n : Nat),
      ds.foldl (fun num c => (num * 10 + (c.toNat - 48)) % 65536) (n % 65536) =
        ds.foldl (fun n c => n * 10 + (c.toNat - 48)) n % 65536 := by
    intro ds
    induction ds with
    | nil => exact fun _ => rfl
    | cons c ds ih =>
      intro n
      have hstep : (n % 65536 * 10 + (c.toNat - 48)) % 65536 = (n * 10 + (c.toNat - 48)) % 65536 := by omega
      rw [List.foldl_cons, List.foldl_cons, hstep]
      exact ih _
  rw [parseLineNumber, htake, hdrop, numeralValue, ← hfold ds 0]

/-- So does `GOTO` read the token that `parse_number` made of it. -/
theorem parseNumber_numeral (hds : ∀ c ∈ ds, isDigit c = true) :
    (parseNumber ds % 65536).toNat = numeralValue ds % 65536 := by
  have hfold : ∀ (ds : List UInt8), (∀ c ∈ ds, isDigit c = true) → ∀ (v : Int) (n : Nat),
      v % 65536 = (n : Int) % 65536 →
      ds.foldl (fun val c => i32 (val * 10 + (c.toNat - 48))) v % 65536 =
        ((ds.foldl (fun n c => n * 10 + (c.toNat - 48)) n : Nat) : Int) % 65536 := by
    intro ds
    induction ds with
    | nil => exact fun _ _ _ h => h
    | cons c ds ih =>
      intro hds v n hv
      rw [List.foldl_cons, List.foldl_cons]
      refine ih (fun d hd => hds d (List.mem_cons_of_mem c hd)) _ _ ?_
      have hle : 48 ≤ c.toNat := by
        have hdigit := hds c List.mem_cons_self
        rw [isDigit, Bool.and_eq_true] at hdigit
        have hlow : 48 ≤ c := of_decide_eq_true hdigit.1
        exact hlow
      unfold i32
      omega
  have hdigits := digitsVal_append hds (t := []) rfl 0
  rw [List.append_nil] at hdigits
  rw [parseNumber, hdigits]
  have hmod := hfold ds hds 0 0 rfl
  rw [hmod, numeralValue]
  omega

end Numerals

/-! ## What a number stands for -/

/-- The tokens that `prog_find_line` finds for a number. -/
def Program.lookup (p : Program) (num : Nat) : Option (List UInt8) :=
  match p.findLine num with
  | some (some line) => some (p.buf.slice (line + 3) (p.dataLen line))
  | _ => none

/-- A line that is typed in, or that is in a file. -/
inductive Source where
  | typed (s : List UInt8)
  | read (s : List UInt8)

def Source.store (p : Program) : Source → Option Program
  | typed s => enterLine p s
  | read s => loadLine p s

/-- The program is what such lines have made of an empty one. -/
def Program.Entered (p : Program) : Prop :=
  ∃ (p₀ : Program) (sources : List Source), sources.foldlM Source.store p₀.init = some p

/-- The store holds the lines, and none has the number 0. -/
structure Program.Holds (p : Program) (ls : List Line) : Prop where
  stored : Stored p ls
  pos : ∀ l ∈ ls, 0 < l.num

section Store

variable {p p' : Program} {ls : List Line} {l : Line} {num : Nat} {tokens : List UInt8}

theorem Stored.dataLen_at {pre post : List Line} (h : Stored p (pre ++ l :: post)) :
    p.dataLen (size pre) = l.tokens.length := by
  have hshort := h.valid_at.short
  show (p.lineLength (size pre) + 253) % 256 = l.tokens.length
  rw [h.lineLength_at]
  omega

/-- The tokens of a line in the buffer. -/
theorem Stored.tok_at {pre post : List Line} (h : Stored p (pre ++ l :: post)) {i : Nat} {c : UInt8}
    (hi : l.tokens[i]? = some c) : (p.tokens (size pre)).tok i = c := by
  have hlt : i < l.tokens.length := (List.getElem?_eq_some_iff.mp hi).1
  have hbyte := h.byte_at (i := 3 + i) (by omega)
  have hget : l.bytes[3 + i]? = some c := by
    rw [← hi, Line.bytes, List.getElem?_append_right (Nat.le_add_right 3 i)]
    exact congrArg _ (Nat.add_sub_cancel_left 3 i)
  have heq := Option.some.inj (hbyte.symm.trans hget)
  rw [← Nat.add_assoc] at heq
  exact heq

/-- A number in the tokens of a line. -/
theorem Stored.num_at {pre post : List Line} (h : Stored p (pre ++ l :: post)) {v : Int}
    {before after : List UInt8} (hv : -2147483648 ≤ v ∧ v < 2147483648)
    (htokens : l.tokens = before ++ (numBytes v ++ after)) :
    (p.tokens (size pre)).num before.length = v := by
  have hbytes : ∀ i < 4, p.buf (size pre + 3 + (before.length + i)) = (numBytes v ++ after).getD i 0 := by
    intro i hi
    apply h.tok_at
    have hlen : i < (numBytes v ++ after).length := by
      rw [List.length_append]
      exact Nat.lt_of_lt_of_le hi (Nat.le_add_right 4 after.length)
    rw [htokens, List.getElem?_append_right (Nat.le_add_right _ _), Nat.add_sub_cancel_left,
      List.getD_eq_getElem?_getD, List.getElem?_eq_getElem hlen]
    rfl
  have hword : p.buf.word32 (size pre + 3 + before.length) =
      Bytes.word32 (fun i => (numBytes v ++ after).getD i 0) 0 := by
    simp only [Bytes.word32, Bytes.word16]
    rw [← hbytes 0 (by decide), ← hbytes 1 (by decide), ← hbytes 2 (by decide), ← hbytes 3 (by decide)]
    rfl
  show i32 (p.buf.word32 (size pre + 3 + before.length)) = v
  rw [hword]
  exact i32_numBytes hv after

/-- A line is found with its tokens, and no other is. -/
theorem Stored.lookup_iff (h : Stored p ls) : p.lookup num = some tokens ↔ ⟨num, tokens⟩ ∈ ls := by
  rcases split_num num ls with ⟨pre, l, post, rfl, rfl⟩ | hnot
  · have hlookup : p.lookup l.num = some l.tokens := by
      rw [Program.lookup, h.findLine_mem]
      show some (p.buf.slice (size pre + 3) (p.dataLen (size pre))) = _
      rw [h.dataLen_at, h.tokens_at]
    rw [hlookup, Option.some.injEq]
    constructor
    · rintro rfl
      exact List.mem_append_right _ List.mem_cons_self
    · intro hmem
      by_contra hne
      have hother : (⟨l.num, tokens⟩ : Line) ∈ erase l.num (pre ++ l :: post) := by
        rw [erase_mid h.sorted]
        rcases List.mem_append.mp hmem with hmem | hmem
        · exact List.mem_append_left _ hmem
        · refine List.mem_append_right _ ((List.mem_cons.mp hmem).resolve_left fun heq => hne ?_)
          exact (congrArg Line.tokens heq).symm
      exact ne_of_mem_erase hother rfl
  · constructor
    · intro hlookup
      rw [Program.lookup, h.findLine_not_mem hnot] at hlookup
      cases hlookup
    · exact fun hmem => absurd rfl (hnot _ hmem)

theorem mem_putLine_iff {a : Line} (hne : a.num ≠ l.num) : a ∈ putLine l ls ↔ a ∈ ls := by
  have hal : a ≠ l := fun h => hne (congrArg Line.num h)
  rw [putLine]
  split
  · simp [mem_insert, mem_erase, hal, hne]
  · simp [mem_erase, hne]

/-- The lookups of another number, in a list and in the list with one line more. -/
theorem lookup_putLine (h : Stored p ls) (h' : Stored p' (putLine l ls)) (hne : num ≠ l.num) :
    p'.lookup num = p.lookup num := by
  refine Option.ext fun tokens => ?_
  rw [h'.lookup_iff, h.lookup_iff]
  exact mem_putLine_iff hne

/-- A line that was put is what is found, or there is none. -/
theorem lookup_putLine_self (h' : Stored p' (putLine l ls)) :
    p'.lookup l.num = some l.tokens ∨ p'.lookup l.num = none := by
  cases hlookup : p'.lookup l.num with
  | none => exact .inr rfl
  | some tokens =>
    have hmem := h'.lookup_iff.mp hlookup
    rw [putLine] at hmem
    split at hmem
    · rcases mem_insert.mp hmem with heq | hmem
      · exact .inl (congrArg (fun a => some a.tokens) heq)
      · exact absurd rfl (ne_of_mem_erase hmem)
    · exact absurd rfl (ne_of_mem_erase hmem)

/-! ## Entering and loading -/

theorem length_tokenize_le (s : List UInt8) : (tokenize 120 s).length ≤ 119 := by
  have hloop : ∀ (fuel pos : Nat) (s : List UInt8), pos ≤ 119 →
      pos + (tokenizeLoop 120 fuel pos s).length ≤ 119 := by
    intro fuel
    induction fuel with
    | zero => exact fun _ _ h => h
    | succ fuel ih =>
      intro pos s hpos
      cases s with
      | nil => exact hpos
      | cons c s =>
        rw [tokenizeLoop]
        split
        · next hroom =>
          obtain ⟨piece, rest, hcut, -, hstep⟩ := tokenizeStep_cut pos c s
          have hrest := ih (pos + piece.tokens.length) rest (hcut.room hroom)
          rw [hstep, List.length_append, ← Nat.add_assoc]
          exact hrest
        · exact hpos
  have hle := hloop s.length 0 s (by decide)
  rwa [Nat.zero_add] at hle

theorem insertText_put (h : Stored p ls) (hnum : num < 65536) {s : List UInt8} (hs : s ≠ []) :
    ∃ p', insertText p num s = some p' ∧ Stored p' (putLine ⟨num, tokenize 120 s⟩ ls) := by
  have hpos : (tokenize 120 s).length > 0 := List.length_pos_iff.mpr (tokenize_ne_nil hs)
  obtain ⟨p', hinsert, h'⟩ := h.put (l := ⟨num, tokenize 120 s⟩) ⟨hnum, hpos, length_tokenize_le s⟩
  refine ⟨p', ?_, h'⟩
  rw [insertText, if_pos hpos]
  exact hinsert

theorem Program.Holds.put (h : p.Holds ls) (hpos : 0 < num) (hnum : num < 65536) {s : List UInt8}
    (hs : s ≠ []) : ∃ p' ls', insertText p num s = some p' ∧ p'.Holds ls' := by
  obtain ⟨p', hinsert, h'⟩ := insertText_put h.stored hnum hs
  refine ⟨p', _, hinsert, h', fun l hl => ?_⟩
  rcases mem_putLine hl with rfl | hl
  · exact hpos
  · exact h.pos l hl

/-- A line of either kind leaves lines in the store. -/
theorem Program.Holds.store (h : p.Holds ls) (source : Source) :
    ∃ p' ls', source.store p = some p' ∧ p'.Holds ls' := by
  cases source with
  | typed s =>
    have hnum := parseLineNumber_lt s
    rw [Source.store, enterLine]
    simp only
    split
    · next hpos =>
      split
      · obtain ⟨p', hdelete, h'⟩ := h.stored.delete (parseLineNumber s).1
        exact ⟨p', _, hdelete, h', fun l hl => h.pos l (mem_erase.mp hl).1⟩
      · next hne => exact h.put hpos hnum hne
    · exact ⟨p, ls, rfl, h⟩
  | read s =>
    have hnum := parseLineNumber_lt (cText s)
    rw [Source.store, loadLine]
    split
    · exact ⟨p, ls, rfl, h⟩
    simp only
    split
    · exact ⟨p, ls, rfl, h⟩
    · next hzero =>
      by_cases hs : (parseLineNumber (cText s)).2.dropWhile (· = 32) = []
      · refine ⟨p, ls, ?_, h⟩
        rw [hs]
        rfl
      · exact h.put (Nat.pos_of_ne_zero hzero) hnum hs

theorem Program.Entered.holds (h : p.Entered) : ∃ ls, p.Holds ls := by
  obtain ⟨p₀, sources, hrun⟩ := h
  have hruns : ∀ (sources : List Source) (q : Program) (ls : List Line), q.Holds ls →
      sources.foldlM Source.store q = some p → ∃ ls, p.Holds ls := by
    intro sources
    induction sources with
    | nil =>
      intro q ls hq hrun
      obtain rfl := Option.some.inj hrun
      exact ⟨ls, hq⟩
    | cons source sources ih =>
      intro q ls hq hrun
      obtain ⟨q', ls', hstore, hq'⟩ := hq.store source
      rw [List.foldlM_cons, hstore] at hrun
      exact ih q' ls' hq' hrun
  exact hruns sources p₀.init [] ⟨Stored.init p₀, nofun⟩ hrun

section Numbered

variable {ds s : List UInt8}

theorem Numbered.parse (h : Numbered ds s) :
    parseLineNumber (ds ++ s) = (numeralValue ds % 65536, s) := parseLineNumber_numeral h.digits h.ends

theorem Numbered.cText (h : Numbered ds s) : cText (ds ++ s) = ds ++ s := by
  rw [Basic.cText, List.takeWhile_eq_self_iff]
  intro c hc
  have hne : c ≠ 0 := by
    rcases List.mem_append.mp hc with hc | hc
    · rintro rfl
      exact absurd (h.digits 0 hc) (by decide)
    · exact h.nonzero c hc
  simpa using hne

/-- A numbered line is entered, and loaded, under what is left of its number modulo 65536. -/
theorem Numbered.store (h : Numbered ds s) (hp : Stored p ls) (hpos : numeralValue ds % 65536 ≠ 0) :
    ∃ p', enterLine p (ds ++ s) = some p' ∧ loadLine p (ds ++ s) = some p' ∧
      Stored p' (putLine ⟨numeralValue ds % 65536, tokensAfter s⟩ ls) := by
  obtain ⟨p', hinsert, h'⟩ := insertText_put hp (Nat.mod_lt (numeralValue ds) (by decide)) h.text
  refine ⟨p', ?_, ?_, h'⟩
  · rw [enterLine, h.parse]
    simp only [if_pos (Nat.pos_of_ne_zero hpos), if_neg h.text]
    exact hinsert
  · rw [loadLine, if_neg (List.append_ne_nil_of_left_ne_nil h.nonempty s), h.cText, h.parse]
    simp only [if_neg hpos]
    exact hinsert

/-- A multiple of 65536 is no number. -/
theorem Numbered.no_store (h : Numbered ds s) (hzero : numeralValue ds % 65536 = 0) :
    enterLine p (ds ++ s) = some p ∧ loadLine p (ds ++ s) = some p := by
  constructor
  · rw [enterLine, h.parse, hzero]
    rfl
  · rw [loadLine, if_neg (List.append_ne_nil_of_left_ne_nil h.nonempty s), h.cText, h.parse, hzero]
    rfl

end Numbered

end Store

/-! ## Listing -/

/-- What `cmd_list` prints for a line. -/
def listedLine (l : Line) : List UInt8 :=
  i32ToStr l.num ++ 32 :: (cText (detokenize 160 l.tokens) ++ [10])

/-- `LIST` without arguments shows the line. -/
def Program.Shows (p : Program) (l : Line) : Prop :=
  ∃ out, cmdList p [] = some out ∧ listedLine l <:+: out

section Listing

variable {p : Program} {pre ls : List Line} {l : Line}

theorem saveLine_at (h : Stored p (pre ++ l :: ls)) : saveLine p (size pre) = listedLine l := by
  have hlen : (p.lineLength (size pre) + 253) % 256 = l.tokens.length := h.dataLen_at
  rw [saveLine, h.lineNumber_at]
  simp only [hlen, h.tokens_at]
  rfl

/-- The loop of `cmd_list` prints the lines of the range. -/
theorem listFrom_eq (range : Nat × Nat) (h : Stored p (pre ++ ls)) {fuel : Nat} (hfuel : ls.length < fuel)
    (out : List UInt8) : listFrom p range fuel (if ls = [] then none else some (size pre)) out =
      some (out ++ (ls.filter fun l => range.1 ≤ l.num ∧ l.num ≤ range.2).flatMap listedLine) := by
  induction ls generalizing pre fuel out with
  | nil =>
    obtain ⟨n, rfl⟩ := Nat.exists_eq_succ_of_ne_zero (Nat.ne_zero_of_lt hfuel)
    simp [listFrom]
  | cons l ls ih =>
    obtain ⟨n, rfl⟩ := Nat.exists_eq_succ_of_ne_zero (Nat.ne_zero_of_lt hfuel)
    have hsplit : Stored p ((pre ++ [l]) ++ ls) := by
      rw [List.append_assoc]
      exact h
    rw [if_neg (List.cons_ne_nil l ls), listFrom, h.nextLine_at, h.lineNumber_at, saveLine_at h,
      ih hsplit (Nat.lt_of_succ_lt_succ hfuel), List.filter_cons]
    by_cases hrange : range.1 ≤ l.num ∧ l.num ≤ range.2
    · simp [hrange]
    · rw [if_neg hrange, if_neg (by simpa using hrange)]

/-- `LIST` without arguments prints the lines up to 9999. -/
theorem cmdList_eq (h : Stored p ls) :
    cmdList p [] = some ((ls.filter fun l => 0 ≤ l.num ∧ l.num ≤ 9999).flatMap listedLine) := by
  have hlist := listFrom_eq (listRange []) (show Stored p ([] ++ ls) from h) h.fuel_lt []
  rw [cmdList, h.firstLine_eq]
  exact hlist

theorem shows_of_le (h : Stored p ls) (hl : l ∈ ls) (hle : l.num ≤ 9999) : p.Shows l := by
  refine ⟨_, cmdList_eq h, ?_⟩
  have hmem : l ∈ ls.filter fun l => 0 ≤ l.num ∧ l.num ≤ 9999 :=
    List.mem_filter.mpr ⟨hl, by simpa using hle⟩
  obtain ⟨before, after, hsplit⟩ := List.append_of_mem hmem
  rw [hsplit, List.flatMap_append, List.flatMap_cons]
  exact ⟨before.flatMap listedLine, after.flatMap listedLine, by rw [List.append_assoc]⟩

/-- A line alone in the store is not shown above 9999. -/
theorem not_shows_of_gt (h : Stored p [l]) (hgt : 9999 < l.num) : ¬p.Shows l := by
  rintro ⟨out, hlist, hshown⟩
  have hnone : cmdList p [] = some [] := by
    rw [cmdList_eq h, List.filter_cons_of_neg (by simpa using hgt)]
    rfl
  obtain rfl : [] = out := Option.some.inj (hnone.symm.trans hlist)
  have hnil := List.infix_nil.mp hshown
  exact List.append_ne_nil_of_right_ne_nil (i32ToStr l.num) (List.cons_ne_nil _ _) hnil

end Listing

/-! ## Lines with numerals -/

/-- A line that is entered is stored under its number, where `LIST` shows it, or not at all, and
whatever has another number stays. -/
def EntryHonoured (ds s : List UInt8) : Prop :=
  ∀ p : Program, p.Entered → ∃ p', enterLine p (ds ++ s) = some p' ∧
    (∀ num, num ≠ numeralValue ds → p'.lookup num = p.lookup num) ∧
    (p'.lookup (numeralValue ds) = some (tokensAfter s) ∨
      p'.lookup (numeralValue ds) = p.lookup (numeralValue ds) ∨ p'.lookup (numeralValue ds) = none) ∧
    (p'.lookup (numeralValue ds) = some (tokensAfter s) → p'.Shows ⟨numeralValue ds, tokensAfter s⟩)

/-- A line that is loaded leaves the lines of other numbers as they are. -/
def LoadHonoured (ds s : List UInt8) : Prop :=
  ∀ p : Program, p.Entered → ∃ p', loadLine p (ds ++ s) = some p' ∧
    ∀ num tokens, num ≠ numeralValue ds → p.lookup num = some tokens → p'.lookup num = some tokens

section Lines

variable {ds s : List UInt8}

/-- There is room for one line. -/
theorem putLine_nil {l : Line} (hshort : l.tokens.length ≤ 119) : putLine l [] = [l] := by
  have hroom : size (insert l []) ≤ progSize := by
    rw [size_insert]
    show l.tokens.length + 3 + 0 ≤ 8192
    omega
  rw [putLine, if_pos hroom]
  rfl

/-- The program of one line. -/
theorem entered_line {num : Nat} (hpos : 0 < num) (hnum : num < 65536) {s : List UInt8} (hs : s ≠ [])
    (hhead : s.head? ≠ some 32) (hzero : ∀ c ∈ s, c ≠ 0) :
    ∃ p : Program, p.Entered ∧ Stored p [⟨num, tokenize 120 s⟩] := by
  let p₀ : Program := ⟨fun _ => 0, 0⟩
  have hblank : (32 :: s).dropWhile (· = 32) = s := by
    cases s with
    | nil => exact absurd rfl hs
    | cons c s =>
      rw [List.dropWhile_cons_of_pos (by decide)]
      exact List.dropWhile_cons_of_neg (by simpa using hhead)
  obtain ⟨p, hinsert, hstored⟩ := insertText_put (Stored.init p₀) hnum hs
  rw [putLine_nil (length_tokenize_le s)] at hstored
  refine ⟨p, ⟨p₀, [.typed (i32ToStr num ++ 32 :: s)], ?_⟩, hstored⟩
  have henter : enterLine p₀.init (i32ToStr num ++ 32 :: s) = some p := by
    rw [enterLine, parseLineNumber_listing hnum]
    simp only [if_pos hpos, hblank, if_neg hs]
    exact hinsert
  rw [List.foldlM_cons, Source.store, henter]
  rfl

/-- There is a program whose line of a number is another. -/
theorem exists_other {num : Nat} (hpos : 0 < num) (hnum : num < 65536) (tokens : List UInt8) :
    ∃ (p : Program) (l : Line), p.Entered ∧ Stored p [l] ∧ l.num = num ∧ l.tokens ≠ tokens := by
  obtain ⟨p, hp, hstored⟩ := entered_line hpos hnum (s := ascii "X") (by decide) (by decide) (by decide)
  obtain ⟨q, hq, hstored'⟩ := entered_line hpos hnum (s := ascii "Y") (by decide) (by decide) (by decide)
  by_cases hx : tokenize 120 (ascii "X") = tokens
  · refine ⟨q, _, hq, hstored', rfl, fun hy => ?_⟩
    have hsame : tokenize 120 (ascii "X") = tokenize 120 (ascii "Y") := hx.trans hy.symm
    exact absurd hsame (by decide)
  · exact ⟨p, _, hp, hstored, rfl, hx⟩

/-- A line that is not stored changes nothing, and none had its number. -/
theorem lookup_zero {p : Program} {ls : List Line} (h : p.Holds ls) {n : Nat} (hzero : n % 65536 = 0) :
    p.lookup n = none := by
  cases hlookup : p.lookup n with
  | none => rfl
  | some tokens =>
    have hmem := h.stored.lookup_iff.mp hlookup
    have hpos := h.pos _ hmem
    have hlt := (h.stored.valid _ hmem).num
    simp only at hpos hlt
    omega

theorem entry_iff (h : Numbered ds s) :
    EntryHonoured ds s ↔ numeralValue ds ≤ 9999 ∨ numeralValue ds % 65536 = 0 := by
  by_cases hzero : numeralValue ds % 65536 = 0
  · refine iff_of_true (fun p hp => ?_) (.inr hzero)
    obtain ⟨ls, hls⟩ := hp.holds
    refine ⟨p, (h.no_store hzero).1, fun _ _ => rfl, .inr (.inl rfl), fun hsome => ?_⟩
    rw [lookup_zero hls hzero] at hsome
    cases hsome
  · constructor
    · intro hentry
      -- the line alone is under another number, or it is not shown
      let p₀ : Program := ⟨fun _ => 0, 0⟩
      obtain ⟨p', henter, -, hstored⟩ := h.store (Stored.init p₀) hzero
      rw [putLine_nil (length_tokenize_le _)] at hstored
      obtain ⟨p'', henter', hothers, -, hshows⟩ := hentry p₀.init ⟨p₀, [], rfl⟩
      obtain rfl := Option.some.inj (henter.symm.trans henter')
      have hfound := hstored.lookup_iff.mpr List.mem_cons_self
      have hempty : ∀ num, p₀.init.lookup num = none := fun num => rfl
      have hsame : numeralValue ds % 65536 = numeralValue ds := by
        by_contra hne
        have hnone := (hothers _ hne).trans (hempty _)
        cases hfound.symm.trans hnone
      rw [hsame] at hfound hstored
      refine .inl (Nat.not_lt.mp fun hgt => ?_)
      exact not_shows_of_gt hstored hgt (hshows hfound)
    · intro hle p hp
      have hle := hle.resolve_right hzero
      have hmod : numeralValue ds % 65536 = numeralValue ds := Nat.mod_eq_of_lt (by omega)
      obtain ⟨ls, hls⟩ := hp.holds
      obtain ⟨p', henter, -, hstored⟩ := h.store hls.stored hzero
      rw [hmod] at hstored
      refine ⟨p', henter, fun num hne => lookup_putLine hls.stored hstored hne, ?_, fun hfound => ?_⟩
      · exact (lookup_putLine_self hstored).imp_right .inr
      · exact shows_of_le hstored (hstored.lookup_iff.mp hfound) hle

theorem load_iff (h : Numbered ds s) :
    LoadHonoured ds s ↔ numeralValue ds ≤ 65535 ∨ numeralValue ds % 65536 = 0 := by
  by_cases hzero : numeralValue ds % 65536 = 0
  · exact iff_of_true (fun p hp => ⟨p, (h.no_store hzero).2, fun _ _ _ => id⟩) (.inr hzero)
  · constructor
    · intro hload
      obtain ⟨p, l, hp, hl, hnum, hother⟩ :=
        exists_other (Nat.pos_of_ne_zero hzero) (Nat.mod_lt _ (by decide)) (tokensAfter s)
      obtain ⟨p', -, hrun, hstored⟩ := h.store hl hzero
      obtain ⟨p'', hrun', hkeeps⟩ := hload p hp
      obtain rfl := Option.some.inj (hrun.symm.trans hrun')
      refine .inl (Nat.not_lt.mp fun hgt => ?_)
      have hne : l.num ≠ numeralValue ds := by
        rw [hnum]
        have hlt := Nat.mod_lt (numeralValue ds) (y := 65536) (by decide)
        omega
      have hkept := hkeeps l.num l.tokens hne (hl.lookup_iff.mpr List.mem_cons_self)
      have hself := lookup_putLine_self hstored
      rw [← hnum, hkept] at hself
      exact hself.elim (fun heq => hother (Option.some.inj heq)) nofun
    · intro hle p hp
      have hmod : numeralValue ds % 65536 = numeralValue ds :=
        Nat.mod_eq_of_lt (Nat.lt_succ_of_le (hle.resolve_right hzero))
      obtain ⟨ls, hls⟩ := hp.holds
      obtain ⟨p', -, hrun, hstored⟩ := h.store hls.stored hzero
      rw [hmod] at hstored
      exact ⟨p', hrun, fun num tokens hne hfound => (lookup_putLine hls.stored hstored hne).trans hfound⟩

end Lines

/-! ## Numerals in statements -/

/-- No operator of an expression. -/
def NoOperator (c : UInt8) : Prop :=
  c ∉ [42, 47, Tok.mod, 43, 45, 61, 60, 62, Tok.le, Tok.ge, Tok.ne, Tok.and, Tok.or]

instance (c : UInt8) : Decidable (NoOperator c) := inferInstanceAs (Decidable (c ∉ _))

/-- At a position there is a number in the tokens, and the expression ends after it. -/
structure Literal (t : Tokens) (len pos : Nat) (n : Int) : Prop where
  tok : peekTok t len (skipSp t len pos) = Tok.num
  value : t.num (adv (skipSp t len pos) 1) = n
  ends : NoOperator (peekTok t len (skipSp t len (adv (adv (skipSp t len pos) 1) 4)))

/-- The state at another position. -/
def Eval.at (e : Eval) (pos : Nat) : Eval := { e with pos := pos }

namespace Eval

open Prog (get modify halt)

variable {t : Tokens} {len : Nat} {vars : Vars} {ram : Bytes} {e : Eval} {pos : Nat}

theorem skip_at (pos : Nat) : skip t len (e.at pos) = ⟨.done (), e.at (skipSp t len pos), []⟩ := rfl

theorem peek_at (pos : Nat) : peek t len (e.at pos) = ⟨.done (peekTok t len pos), e.at pos, []⟩ := rfl

theorem advance_at (pos k : Nat) : advance k (e.at pos) = ⟨.done (), e.at (adv pos k), []⟩ := rfl

theorem parsePrimary_literal {n : Int} (h : Literal t len pos n) (fuel : Nat) :
    parsePrimary t len vars ram (fuel + 1) (e.at pos) =
      ⟨.done (.num n), e.at (adv (adv (skipSp t len pos) 1) 4), []⟩ := by
  obtain ⟨htok, rfl, -⟩ := h
  rw [parsePrimary, bind_run_quiet (skip_at pos), bind_run_quiet (peek_at _), htok]
  rfl

section Loops

variable {primary : EvalM Value} {left : Value} {fuel : Nat}

theorem mulLoop_end (h : NoOperator (peekTok t len (skipSp t len pos))) :
    mulLoop t len primary (fuel + 1) left (e.at pos) = ⟨.done left, e.at (skipSp t len pos), []⟩ := by
  have hnot : ¬(peekTok t len (skipSp t len pos) = 42 ∨ peekTok t len (skipSp t len pos) = 47 ∨
      peekTok t len (skipSp t len pos) = Tok.mod) := by
    rintro (heq | heq | heq) <;> rw [heq] at h <;> exact h (by decide)
  rw [mulLoop, bind_run_quiet (skip_at pos), bind_run_quiet (peek_at _), if_neg hnot]
  rfl

theorem addLoop_end (h : NoOperator (peekTok t len (skipSp t len pos))) :
    addLoop t len primary (fuel + 1) left (e.at pos) = ⟨.done left, e.at (skipSp t len pos), []⟩ := by
  have hnot : ¬(peekTok t len (skipSp t len pos) = 43 ∨ peekTok t len (skipSp t len pos) = 45) := by
    rintro (heq | heq) <;> rw [heq] at h <;> exact h (by decide)
  rw [addLoop, bind_run_quiet (skip_at pos), bind_run_quiet (peek_at _), if_neg hnot]
  rfl

theorem logicLoop_end {tok : UInt8} {op : Bool → Bool → Bool} (htok : ¬NoOperator tok)
    (h : NoOperator (peekTok t len (skipSp t len pos))) :
    logicLoop t len tok op primary (fuel + 1) left (e.at pos) =
      ⟨.done left, e.at (skipSp t len pos), []⟩ := by
  have hnot : peekTok t len (skipSp t len pos) ≠ tok := fun heq => htok (heq ▸ h)
  rw [logicLoop, bind_run_quiet (skip_at pos), bind_run_quiet (peek_at _), if_neg hnot]
  rfl

end Loops

/-- An expression that is a number has its value. -/
theorem exprEval_literal {n : Int} (h : Literal t len pos n) (he : e.error = false) (fuel : Nat) :
    ∃ q, exprEval t len vars ram (fuel + 1) (e.at pos) = some (.num n, e.at q) := by
  let q := adv (adv (skipSp t len pos) 1) 4
  have hends : NoOperator (peekTok t len (skipSp t len q)) := h.ends
  have hsame : skipSp t len (skipSp t len q) = skipSp t len q := skipSp_skipSp q
  have hends' : NoOperator (peekTok t len (skipSp t len (skipSp t len q))) := hsame.symm ▸ hends
  have herr : ∀ pos, ¬(e.at pos).error = true := fun pos => by simp [Eval.at, he]
  have hmul : parseMul t len (parsePrimary t len vars ram (fuel + 1)) (fuel + 1) (e.at pos) =
      ⟨.done (.num n), e.at (skipSp t len q), []⟩ := by
    rw [parseMul, bind_run_quiet (parsePrimary_literal h fuel), get_bind_run, if_neg (herr q)]
    exact mulLoop_end hends
  have hadd : parseAdd t len (parsePrimary t len vars ram (fuel + 1)) (fuel + 1) (e.at pos) =
      ⟨.done (.num n), e.at (skipSp t len q), []⟩ := by
    rw [parseAdd, bind_run_quiet hmul, get_bind_run, if_neg (herr _), addLoop_end hends', hsame]
  have hcompare : parseCompare t len (parsePrimary t len vars ram (fuel + 1)) (fuel + 1) (e.at pos) =
      ⟨.done (.num n), e.at (skipSp t len q), []⟩ := by
    have hnot : ¬(peekTok t len (skipSp t len q) = 61 ∨ peekTok t len (skipSp t len q) = 60 ∨
        peekTok t len (skipSp t len q) = 62 ∨ peekTok t len (skipSp t len q) = Tok.le ∨
        peekTok t len (skipSp t len q) = Tok.ge ∨ peekTok t len (skipSp t len q) = Tok.ne) := by
      rintro (heq | heq | heq | heq | heq | heq) <;> rw [heq] at hends <;> exact hends (by decide)
    rw [parseCompare, bind_run_quiet hadd, get_bind_run, if_neg (herr _), bind_run_quiet (skip_at _), hsame,
      bind_run_quiet (peek_at _), if_neg hnot]
    rfl
  have hand : parseAnd t len (parsePrimary t len vars ram (fuel + 1)) (fuel + 1) (e.at pos) =
      ⟨.done (.num n), e.at (skipSp t len q), []⟩ := by
    rw [parseAnd, bind_run_quiet hcompare, get_bind_run, if_neg (herr _),
      logicLoop_end (by decide) hends', hsame]
  have hor : exprRun t len vars ram (fuel + 1) (e.at pos) =
      ⟨.done (.num n), e.at (skipSp t len q), []⟩ := by
    rw [exprRun, parseOr, bind_run_quiet hand, get_bind_run, if_neg (herr _),
      logicLoop_end (by decide) hends', hsame]
  exact ⟨skipSp t len q, by rw [exprEval, hor]⟩

end Eval

/-! ## Transfers -/

/-- At a position in a line of the program there is `GOTO` or `GOSUB` with a numeral. -/
structure GoesTo (p : Program) (line q : Nat) (ds : List UInt8) : Prop where
  inLine : q < p.dataLen line
  tok : (p.tokens line).tok q = Tok.goto ∨ (p.tokens line).tok q = Tok.gosub
  numeral : Literal (p.tokens line) (p.dataLen line) (adv q 1) (parseNumber ds)

/-- A transfer reaches no line but that of the numeral. -/
def GotoHonoured (ds : List UInt8) : Prop :=
  ∀ p : Program, p.Entered → ∀ line q, GoesTo p line q ds → ∀ (fuel : Nat) (s : Interp),
    s.prog = p → s.exec.pos = q → s.exec.running = true → ∀ num target pos,
      .jump num target pos ∈ (execStatement (p.tokens line) (p.dataLen line) fuel s).log →
        p.lineNumber target = numeralValue ds

section Transfers

variable {t : Tokens} {len fuel : Nat} {s : Interp}

theorem execSwitch_goto (statement : Exec Unit) :
    execSwitch t len fuel statement Tok.goto = execGoto t len fuel := rfl

/-- A line that is found has the number. -/
theorem findFrom_number {p : Program} {num line : Nat} (fuel : Nat) (start : Option Nat)
    (h : p.findFrom num fuel start = some (some line)) : p.lineNumber line = num := by
  induction fuel generalizing start with
  | zero => cases h
  | succ fuel ih =>
    cases start with
    | none => cases h
    | some start =>
      rw [Program.findFrom] at h
      split at h
      · next hnum =>
        cases h
        exact hnum
      split at h
      · cases h
      · exact ih _ h

theorem jumpTo_log {n : Int} {event : Event} (h : event ∈ (jumpTo n s).log) :
    ∃ line pos, event = .jump (n % 65536).toNat line pos ∧
      s.prog.findLine (n % 65536).toNat = some (some line) := by
  rw [jumpTo, get_bind_run] at h
  cases hfind : s.prog.findLine (n % 65536).toNat with
  | none =>
    rw [hfind] at h
    cases h
  | some found =>
    rw [hfind] at h
    cases found with
    | none => cases h
    | some line => exact ⟨line, s.exec.pos, List.mem_singleton.mp h, rfl⟩

/-- `GOTO` or `GOSUB` with a number goes to the line of its low 16 bits. -/
theorem jump_of_literal {n : Int} {q : Nat} (hn : Literal t len (adv q 1) n) {num target pos : Nat}
    (h : .jump num target pos ∈ (execGoto t len fuel (s.at q)).log ∨
      .jump num target pos ∈ (execGosub t len fuel (s.at q)).log) :
    s.prog.findLine (n % 65536).toNat = some (some target) := by
  cases fuel with
  | zero => rcases h with h | h <;> cases h
  | succ fuel =>
    obtain ⟨q', hvalue⟩ := @Eval.exprEval_literal t len s.vars s.ram ⟨0, s.spoolPos, false, s.rnd⟩
      (adv q 1) n hn rfl fuel
    rcases h with h | h
    · rw [execGoto, bind_run_quiet (setPos_at s q), withNum_run hvalue rfl] at h
      obtain ⟨line, pos', heq, hline⟩ := jumpTo_log h
      cases heq
      exact hline
    · rw [execGosub, bind_run_quiet (setPos_at s q), withNum_run hvalue rfl, get_bind_run] at h
      split at h
      · cases h
      · rcases List.mem_cons.mp h with heq | h
        · cases heq
        obtain ⟨line, pos', heq, hline⟩ := jumpTo_log h
        cases heq
        exact hline

end Transfers

/-! ## A line that goes to a numeral -/

section GotoLine

variable {ds : List UInt8}

theorem tokenizeStep_goto (s : List UInt8) :
    tokenizeStep 120 0 71 (79 :: 84 :: 79 :: 32 :: s) = ([Tok.goto], 32 :: s) := rfl

theorem tokenizeStep_digits {pos : Nat} {c : UInt8} (h : ∀ d ∈ c :: ds, isDigit d = true) :
    tokenizeStep 120 pos c ds = (Tok.num :: numBytes (parseNumber (c :: ds)), []) := by
  have hc : isDigit c = true := h c List.mem_cons_self
  have hrest : ds.dropWhile isDigit = [] :=
    List.dropWhile_eq_nil_iff.mpr fun d hd => h d (List.mem_cons_of_mem c hd)
  have hblank : c ≠ 32 := by
    rintro rfl
    exact absurd hc (by decide)
  have hletter : ∀ c : UInt8,
      isDigit c = true → ¬(65 ≤ toUpper c ∧ toUpper c ≤ 90) ∧ toUpper c ≠ 36 :=
    byte_forall (by decide +kernel)
  have hnone : findKeyword (c :: ds) keywords = none := findKeyword_of_head (hletter c hc) ds
  rw [tokenizeStep, if_neg hblank, hnone]
  simp only [hc, if_true, hrest]

theorem tokenize_goto (hds : ∀ c ∈ ds, isDigit c = true) (hne : ds ≠ []) :
    tokenize 120 (ascii "GOTO " ++ ds) = Tok.goto :: 32 :: Tok.num :: numBytes (parseNumber ds) := by
  obtain ⟨c, ds, rfl⟩ := List.exists_cons_of_ne_nil hne
  show tokenizeLoop 120 (ds.length + 6) 0 (71 :: 79 :: 84 :: 79 :: 32 :: c :: ds) = _
  rw [tokenizeLoop, if_pos (by decide), tokenizeStep_goto]
  show Tok.goto :: tokenizeLoop 120 (ds.length + 5) 1 (32 :: c :: ds) = _
  rw [tokenizeLoop, if_pos (by decide)]
  show Tok.goto :: 32 :: tokenizeLoop 120 (ds.length + 4) 2 (c :: ds) = _
  rw [tokenizeLoop, if_pos (by decide), tokenizeStep_digits hds]
  simp only [tokenizeLoop_end (.inl rfl), List.append_nil]

/-- The line of a number that goes to a numeral. -/
theorem exists_goesTo {num : Nat} (hpos : 0 < num) (hnum : num < 65536) (hds : ∀ c ∈ ds, isDigit c = true)
    (hne : ds ≠ []) : ∃ (p : Program) (l : Line), p.Entered ∧ Stored p [l] ∧ l.num = num ∧
      GoesTo p 0 0 ds ∧ (p.tokens 0).tok 0 = Tok.goto := by
  have hzero : ∀ c ∈ ascii "GOTO " ++ ds, c ≠ 0 := by
    intro c hc
    rcases List.mem_append.mp hc with hc | hc
    · have hletters : ∀ c ∈ ascii "GOTO ", c ≠ 0 := by decide
      exact hletters c hc
    · rintro rfl
      exact absurd (hds 0 hc) (by decide)
  have hhead : (ascii "GOTO " ++ ds).head? = some 71 := rfl
  obtain ⟨p, hp, hstored⟩ := entered_line hpos hnum (List.append_ne_nil_of_right_ne_nil _ hne)
    (by simp [hhead]) hzero
  rw [tokenize_goto hds hne] at hstored
  have hline : Stored p ([] ++ ⟨num, Tok.goto :: 32 :: Tok.num :: numBytes (parseNumber ds)⟩ :: []) := hstored
  have hlen : p.dataLen 0 = 7 := hline.dataLen_at
  have hgoto : (p.tokens 0).tok 0 = Tok.goto := hline.tok_at rfl
  have hblank : (p.tokens 0).tok 1 = 32 := hline.tok_at rfl
  have hnumber : (p.tokens 0).tok 2 = Tok.num := hline.tok_at rfl
  have hvalue : (p.tokens 0).num 3 = parseNumber ds :=
    @Stored.num_at p _ [] [] hline _ [Tok.goto, 32, Tok.num] [] (digitsVal_range ds (by decide))
      (congrArg _ (List.append_nil _).symm)
  have hskip : skipSp (p.tokens 0) 7 (adv 0 1) = 2 := by
    have hstop : (p.tokens 0).tok 2 ≠ 32 := by
      rw [hnumber]
      decide
    show skipSp (p.tokens 0) 7 1 = 2
    rw [skipSp_of_lt _ 7 (by decide), if_pos hblank, skipSp_of_ne hstop]
  have hafter : skipSp (p.tokens 0) 7 7 = 7 := skipSp_of_le (p.tokens 0) 7 (Nat.le_refl 7)
  refine ⟨p, _, hp, hstored, rfl, ⟨?_, .inl hgoto, ?_⟩, hgoto⟩
  · rw [hlen]
    decide
  · rw [hlen]
    constructor
    · rw [hskip]
      exact hnumber
    · rw [hskip]
      exact hvalue
    · rw [hskip]
      show NoOperator (peekTok (p.tokens 0) 7 (skipSp (p.tokens 0) 7 7))
      rw [hafter]
      exact (by decide : NoOperator 0)

/-- A program that runs the line at its beginning. -/
def Interp.running (p : Program) : Interp :=
  { Interp.withLines [] with
    prog := p
    exec := { ExecState.init with running := true } }

/-- A transfer to a line that there is goes there. -/
theorem goesTo_jumps {p : Program} {l : Line} (h : Stored p [l]) (hgoto : GoesTo p 0 0 ds)
    (htok : (p.tokens 0).tok 0 = Tok.goto) (hnum : (parseNumber ds % 65536).toNat = l.num) : ∃ pos,
    .jump l.num 0 pos ∈ (execStatement (p.tokens 0) (p.dataLen 0) 2 (Interp.running p)).log := by
  have hjump : ∀ s : Interp, s.prog = p → (jumpTo (parseNumber ds) s).log = [.jump l.num 0 s.exec.pos] := by
    intro s hs
    have hfind : s.prog.findLine (parseNumber ds % 65536).toNat = some (some 0) := by
      rw [hs, hnum]
      exact @Stored.findLine_mem p [] [] l h
    rw [jumpTo, get_bind_run, hfind, hnum]
    rfl
  have hskip : skipSp (p.tokens 0) (p.dataLen 0) 0 = 0 := by
    refine skipSp_of_ne ?_
    rw [htok]
    decide
  have hkey : ¬(Interp.running p).Break := fun h => Bool.false_ne_true h.1
  obtain ⟨q, hvalue⟩ := @Eval.exprEval_literal (p.tokens 0) (p.dataLen 0) Vars.clear Bytes.zeros
    ⟨0, 0, false, 12345⟩ (adv 0 1) (parseNumber ds) hgoto.numeral rfl 0
  rw [execStatement_run (s := Interp.running p) hskip hgoto.inLine rfl hkey, htok, execSwitch_goto, execGoto,
    bind_run_quiet (setPos_at (Interp.running p).polled 0),
    withNum_run (s := (Interp.running p).polled) hvalue rfl]
  exact ⟨_, List.mem_cons_of_mem _ (by rw [hjump _ rfl]; exact List.mem_cons_self)⟩

theorem goto_iff (hds : ∀ c ∈ ds, isDigit c = true) (hne : ds ≠ []) :
    GotoHonoured ds ↔ numeralValue ds ≤ 65535 ∨ numeralValue ds % 65536 = 0 := by
  have hmod := parseNumber_numeral hds
  constructor
  · intro hgoto
    by_cases hzero : numeralValue ds % 65536 = 0
    · exact .inr hzero
    · obtain ⟨p, l, hp, hstored, hnum, hgoes, htok⟩ :=
        exists_goesTo (Nat.pos_of_ne_zero hzero) (Nat.mod_lt _ (by decide)) hds hne
      obtain ⟨pos, hjump⟩ := goesTo_jumps hstored hgoes htok (hmod.trans hnum.symm)
      have hreached := hgoto p hp 0 0 hgoes 2 (Interp.running p) rfl rfl rfl _ _ _ hjump
      have hline : p.lineNumber 0 = l.num := @Stored.lineNumber_at p [] [] l hstored
      rw [hline, hnum] at hreached
      have hlt := Nat.mod_lt (numeralValue ds) (y := 65536) (by decide)
      exact .inl (by omega)
  · intro hcond p hp line q hgoes fuel s hprog hpos hrun num target pos hjump
    subst hprog hpos
    have htok : (s.prog.tokens line).tok s.exec.pos ≠ 32 := by
      rcases hgoes.tok with htok | htok
      all_goals
        rw [htok]
        decide
    have hskip := @skipSp_of_ne _ (s.prog.dataLen line) _ htok
    cases fuel with
    | zero => cases hjump
    | succ fuel =>
      by_cases hkey : s.Break
      · obtain ⟨s', -, hbreak⟩ := execStatement_of_break fuel hskip hgoes.inLine hrun hkey
        rw [hbreak] at hjump
        rcases List.mem_cons.mp hjump with heq | hjump
        · cases heq
        · cases hjump
      · rw [execStatement_run hskip hgoes.inLine hrun hkey] at hjump
        rcases List.mem_cons.mp hjump with heq | hjump
        · cases heq
        have hjump : .jump num target pos ∈ (execGoto (s.prog.tokens line) (s.prog.dataLen line) fuel
              (s.polled.at s.exec.pos)).log ∨
            .jump num target pos ∈ (execGosub (s.prog.tokens line) (s.prog.dataLen line) fuel
              (s.polled.at s.exec.pos)).log := by
          rcases hgoes.tok with htok | htok
          · rw [htok] at hjump
            exact .inl hjump
          · rw [htok] at hjump
            exact .inr hjump
        have hfind := @jump_of_literal _ _ fuel s.polled _ _ hgoes.numeral num target pos hjump
        rw [hmod] at hfind
        have hprog : s.polled.prog = s.prog := rfl
        rw [hprog] at hfind
        have hline := findFrom_number _ _ hfind
        rcases hcond with hle | hzero
        · have hlt : numeralValue ds < 65536 := by omega
          rw [hline, Nat.mod_eq_of_lt hlt]
        · obtain ⟨ls, hls⟩ := hp.holds
          have hnone : s.prog.lookup 0 = none := lookup_zero hls (Nat.zero_mod _)
          rw [hzero] at hfind
          rw [Program.lookup, hfind] at hnone
          cases hnone

/-- Every numbered line is honoured just where its number is at most 9999, or is a multiple of 65536,
which stands for no line. -/
theorem line_numbers_iff {s : List UInt8} (h : Numbered ds s) :
    (EntryHonoured ds s ∧ LoadHonoured ds s ∧ GotoHonoured ds ↔
        numeralValue ds ≤ 9999 ∨ numeralValue ds % 65536 = 0) ∧
      (LoadHonoured ds s ↔ numeralValue ds ≤ 65535 ∨ numeralValue ds % 65536 = 0) ∧
      (GotoHonoured ds ↔ numeralValue ds ≤ 65535 ∨ numeralValue ds % 65536 = 0) := by
  have hentry := entry_iff h
  have hload := load_iff h
  have hgoto := goto_iff h.digits h.nonempty
  refine ⟨?_, hload, hgoto⟩
  rw [hentry, hload, hgoto]
  omega

theorem numbered_ten : Numbered (ascii "10") (ascii " X") := by
  constructor <;> decide

theorem line_numbers_iff_ten : EntryHonoured (ascii "10") (ascii " X") :=
  ((line_numbers_iff numbered_ten).1.mpr (.inl (by decide))).1

/-- The line 65546 is entered as line 10. -/
theorem line_number_wraps : ¬∀ ds s, Numbered ds s →
    EntryHonoured ds s ∧ LoadHonoured ds s ∧ GotoHonoured ds := by
  intro h
  have hnumbered : Numbered (ascii "65546") (ascii " PRINT 1") := by
    constructor <;> decide
  exact absurd ((entry_iff hnumbered).mp (h _ _ hnumbered).1) (by decide)

end GotoLine

end RainbowOs.Basic
