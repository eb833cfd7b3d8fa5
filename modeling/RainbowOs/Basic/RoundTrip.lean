import RainbowOs.Basic.Listing
import RainbowOs.Basic.Room
import RainbowOs.Basic.Shell
import RainbowOs.Fat12.ReadBack
import RainbowOs.Fat12.Runs

/-!
# Saving and loading a program

`entered` is the program that input lines make, as a list of lines.
`cmd_save` writes the listing of each line into its buffer, until there is
little room left in it; `cmd_load` enters what it finds, line by line. The
lines come back where each of them is listed as it was entered (`Kept`), and
all of them are saved (`AllSaved`).
-/

namespace RainbowOs.Basic

open RainbowOs.Lib RainbowOs.Fat12

/-! ## Entering -/

/-- The lines with one more, unless there is no room for it: then the line of its number is gone
and nothing is in its place. -/
def putLine (l : Line) (ls : List Line) : List Line :=
  if size (insert l ls) ≤ progSize then insert l ls else erase l.num ls

/-- The lines after an input line. -/
def enterList (ls : List Line) (input : List UInt8) : List Line :=
  let (num, s) := parseLineNumber input
  if num > 0 then
    let s := s.dropWhile (· = 32)
    if s = [] then erase num ls else putLine ⟨num, tokenize 120 s⟩ ls
  else ls

/-- The lines after all of the input. -/
def entered (inputs : List (List UInt8)) : List Line := inputs.foldl enterList []

/-- A line that was made from text. -/
structure Line.Typed (l : Line) : Prop where
  pos : 0 < l.num
  num : l.num < 65536
  text : ∃ s, s ≠ [] ∧ s.head? ≠ some 32 ∧ (∀ c ∈ s, IsTyped c) ∧ l.tokens = tokenize 120 s

theorem tokenize_ne_nil {s : List UInt8} (hs : s ≠ []) : tokenize 120 s ≠ [] := by
  obtain ⟨c, s, rfl⟩ := List.exists_cons_of_ne_nil hs
  obtain ⟨p, rest, -, -, hstep⟩ := tokenizeStep_cut 0 c s
  have htokens : p.tokens ≠ [] := by cases p <;> simp [Piece.tokens]
  rw [tokenize, List.length_cons, tokenizeLoop, if_pos (by decide), hstep]
  exact List.append_ne_nil_of_left_ne_nil htokens _

theorem Line.Typed.valid {l : Line} (h : l.Typed) : l.Valid := by
  obtain ⟨s, hne, -, hs, htokens⟩ := h.text
  refine ⟨h.num, ?_, ?_⟩
  · rw [htokens]
    exact List.length_pos_iff.mpr (tokenize_ne_nil hne)
  · rw [htokens]
    exact length_tokenize hs

section Entering

variable {p : Program} {ls : List Line}

/-- A line that does not fit is not inserted, and the one of its number is deleted. -/
theorem Stored.put (h : Stored p ls) {l : Line} (hl : l.Valid) :
    ∃ p', p.insertLine l.num l.tokens = some p' ∧ Stored p' (Basic.putLine l ls) :=
  @Stored.settle p ls h (.insert l) hl

theorem mem_putLine {l a : Line} (h : a ∈ putLine l ls) : a = l ∨ a ∈ ls := by
  rw [putLine] at h
  split at h
  · exact (mem_insert.mp h).imp_right fun ha => (mem_erase.mp ha).1
  · exact .inr (mem_erase.mp h).1

/-- A text is inserted as its tokens. -/
theorem insertText_run (h : Stored p ls) {num : Nat} (hpos : 0 < num) (hnum : num < 65536)
    {s : List UInt8} (hne : s ≠ []) (hhead : s.head? ≠ some 32) (hs : ∀ c ∈ s, IsTyped c) :
    (Line.mk num (tokenize 120 s)).Typed ∧ ∃ p', insertText p num s = some p' ∧
      Stored p' (putLine ⟨num, tokenize 120 s⟩ ls) := by
  have htyped : (Line.mk num (tokenize 120 s)).Typed := ⟨hpos, hnum, s, hne, hhead, hs, rfl⟩
  obtain ⟨p', hinsert, h'⟩ := h.put htyped.valid
  refine ⟨htyped, p', ?_, h'⟩
  rw [insertText, if_pos (List.length_pos_iff.mpr (tokenize_ne_nil hne))]
  exact hinsert

theorem parseLineNumber_lt (s : List UInt8) : (parseLineNumber s).1 < 65536 := by
  have hfold : ∀ (ds : List UInt8) (n : Nat), n < 65536 →
      ds.foldl (fun num c => (num * 10 + (c.toNat - 48)) % 65536) n < 65536 := by
    intro ds
    induction ds with
    | nil => exact fun _ h => h
    | cons c ds ih => exact fun _ _ => ih _ (Nat.mod_lt _ (by decide))
  exact hfold _ 0 (by decide)

/-- An input line does to the store what it does to the list. -/
theorem enterLine_run (h : Stored p ls) (htyped : ∀ l ∈ ls, l.Typed) {input : List UInt8}
    (hinput : ∀ c ∈ input, IsTyped c) : ∃ p', enterLine p input = some p' ∧
      Stored p' (enterList ls input) ∧ ∀ l ∈ enterList ls input, l.Typed := by
  have hlt := parseLineNumber_lt input
  have hsuffix : (parseLineNumber input).2 <:+ input := List.dropWhile_suffix _
  rw [enterLine, enterList]
  generalize parseLineNumber input = parsed at *
  obtain ⟨num, s⟩ := parsed
  simp only
  split
  · next hpos =>
    split
    · obtain ⟨p', hdelete, h'⟩ := h.delete num
      exact ⟨p', hdelete, h', fun l hl => htyped l (mem_erase.mp hl).1⟩
    · next hne =>
      have hhead : (s.dropWhile (· = 32)).head? ≠ some 32 := by
        intro hhead
        have hnot := List.head?_dropWhile_not (· = 32) s
        rw [hhead] at hnot
        simp at hnot
      have hs : ∀ c ∈ s.dropWhile (· = 32), IsTyped c :=
        fun c hc => hinput c (hsuffix.subset ((List.dropWhile_suffix _).subset hc))
      obtain ⟨hline, p', hinsert, h'⟩ := insertText_run h hpos hlt hne hhead hs
      refine ⟨p', hinsert, h', fun l hl => ?_⟩
      rcases mem_putLine hl with rfl | hl
      · exact hline
      · exact htyped l hl
  · exact ⟨p, rfl, h, htyped⟩

/-- So does all of the input. -/
theorem entered_run {inputs : List (List UInt8)} (hinputs : ∀ i ∈ inputs, ∀ c ∈ i, IsTyped c)
    (p : Program) : ∃ p', inputs.foldlM enterLine p.init = some p' ∧ Stored p' (entered inputs) ∧
      ∀ l ∈ entered inputs, l.Typed := by
  have hrun : ∀ (inputs : List (List UInt8)) (p : Program) (ls : List Line), Stored p ls →
      (∀ l ∈ ls, l.Typed) → (∀ i ∈ inputs, ∀ c ∈ i, IsTyped c) →
      ∃ p', inputs.foldlM enterLine p = some p' ∧ Stored p' (inputs.foldl enterList ls) ∧
        ∀ l ∈ inputs.foldl enterList ls, l.Typed := by
    intro inputs
    induction inputs with
    | nil => exact fun p ls h htyped _ => ⟨p, rfl, h, htyped⟩
    | cons input inputs ih =>
      intro p ls h htyped hinputs
      obtain ⟨p₁, henter, h₁, htyped₁⟩ := enterLine_run h htyped (hinputs input List.mem_cons_self)
      obtain ⟨p', hruns, h', htyped'⟩ :=
        ih p₁ _ h₁ htyped₁ fun i hi => hinputs i (List.mem_cons_of_mem input hi)
      refine ⟨p', ?_, h', htyped'⟩
      rw [List.foldlM_cons, henter]
      exact hruns
  exact hrun inputs p.init [] (Stored.init p) (by simp) hinputs

end Entering

/-! ## Saving -/

/-- The listing of a line, up to its newline. -/
def listing (l : Line) : List UInt8 := i32ToStr l.num ++ 32 :: textOf (pieces l.tokens)

/-- The listing of a program. -/
def listings (ls : List Line) : List UInt8 := ls.flatMap fun l => listing l ++ [10]

/-- The line is listed as it was entered: it has no negative number, no single characters at its
end spell a keyword, and the listing is not too long to be loaded. -/
structure Line.Kept (l : Line) : Prop where
  num : ∀ v, .num v ∈ pieces l.tokens → 0 ≤ v
  ends : endsInKeyword (pieces l.tokens) = false
  short : (listing l).length ≤ 158

/-- There is room in the buffer before each line. -/
def AllSaved (ls : List Line) : Prop :=
  ∀ pre l post, ls = pre ++ l :: post → (listings pre).length < 4096 - 170

/-- What is known of the listing of a line. -/
structure Listed (l : Line) : Prop where
  again : tokenize 120 (textOf (pieces l.tokens)) = l.tokens
  typed : ∀ c ∈ textOf (pieces l.tokens), IsTyped c
  head : (textOf (pieces l.tokens)).head? ≠ some 32
  listed : detokenize 160 l.tokens = textOf (pieces l.tokens)

theorem Line.Kept.listed {l : Line} (h : l.Kept) (htyped : l.Typed) : Listed l := by
  obtain ⟨s, -, hhead, hs, htokens⟩ := htyped.text
  have hshort : (textOf (pieces l.tokens)).length < 160 := by
    have hlength := h.short
    rw [listing, List.length_append, List.length_cons] at hlength
    omega
  obtain ⟨hagain, htext, hhead', hdetokenize⟩ :=
    tokenize_listing hs (congrArg pieces htokens.symm) h.num h.ends
  exact ⟨hagain.trans htokens.symm, htext, hhead' hhead, htokens ▸ hdetokenize hshort⟩

theorem cText_of_typed {s : List UInt8} (hs : ∀ c ∈ s, IsTyped c) : cText s = s := by
  rw [cText, List.takeWhile_eq_self_iff]
  intro c hc
  have hne : c ≠ 0 := by
    rintro rfl
    exact absurd (hs 0 hc).1 (by decide)
  simpa using hne

section Saving

variable {p : Program} {pre ls : List Line}

/-- A line is saved as its listing. -/
theorem saveLine_eq {l : Line} (h : Stored p (pre ++ l :: ls)) (hl : Listed l) :
    saveLine p (size pre) = listing l ++ [10] := by
  have hlen := h.lineLength_at
  have hshort := h.valid_at.short
  have htokens : (l.tokens.length + 3 + 253) % 256 = l.tokens.length := by omega
  rw [saveLine, hlen, h.lineNumber_at]
  simp only [htokens, h.tokens_at, hl.listed, cText_of_typed hl.typed, listing, List.append_assoc,
    List.cons_append]

/-- The loop of `cmd_save` saves all lines that there is room for. -/
theorem saveFrom_eq (h : Stored p (pre ++ ls)) (hlisted : ∀ l ∈ ls, Listed l)
    (hroom : AllSaved (pre ++ ls)) {fuel : Nat} (hfuel : ls.length < fuel) :
    saveFrom p fuel (if ls = [] then none else some (size pre)) (listings pre) =
      some (listings (pre ++ ls)) := by
  induction ls generalizing pre fuel with
  | nil =>
    obtain ⟨n, rfl⟩ := Nat.exists_eq_succ_of_ne_zero (Nat.ne_zero_of_lt hfuel)
    rw [if_pos rfl, saveFrom, List.append_nil]
  | cons l ls ih =>
    obtain ⟨n, rfl⟩ := Nat.exists_eq_succ_of_ne_zero (Nat.ne_zero_of_lt hfuel)
    have hsplit : pre ++ l :: ls = (pre ++ [l]) ++ ls := by simp
    have hlistings : listings (pre ++ [l]) = listings pre ++ saveLine p (size pre) := by
      rw [saveLine_eq h (hlisted l List.mem_cons_self)]
      simp [listings]
    rw [if_neg (List.cons_ne_nil l ls), saveFrom, if_pos (hroom pre l ls rfl), h.nextLine_at, ← hlistings]
    rw [hsplit] at h hroom ⊢
    exact ih h (fun a ha => hlisted a (List.mem_cons_of_mem l ha)) hroom
      (Nat.lt_of_succ_lt_succ hfuel)

theorem saved_eq (h : Stored p ls) (hlisted : ∀ l ∈ ls, Listed l) (hroom : AllSaved ls) :
    saveFrom p (p.progEnd + 2) p.firstLine [] = some (listings ls) := by
  rw [h.firstLine_eq]
  exact saveFrom_eq (show Stored p ([] ++ ls) from h) hlisted hroom h.fuel_lt

end Saving

/-! ## Loading -/

theorem parseLineNumber_listing {num : Nat} (hnum : num < 65536) (t : List UInt8) :
    parseLineNumber (i32ToStr num ++ 32 :: t) = (num, 32 :: t) := by
  have hdigits := i32ToStr_digits (Int.natCast_nonneg num)
  have htake : (i32ToStr num ++ 32 :: t).takeWhile isDigit = i32ToStr num := by
    rw [List.takeWhile_append_of_pos hdigits, List.takeWhile_cons_of_neg (by decide), List.append_nil]
  have hdrop : (i32ToStr num ++ 32 :: t).dropWhile isDigit = 32 :: t := by
    rw [List.dropWhile_append_of_pos hdigits, List.dropWhile_cons_of_neg (by decide)]
  have hstep : ∀ a d, d < 10 → a * 10 + d ≤ 65535 →
      (a * 10 + ((UInt8.ofNat (48 + d)).toNat - 48)) % 65536 = a * 10 + d := by
    intro a d hd hle
    rw [(digit_facts d hd).2.1, Nat.mod_eq_of_lt (by omega)]
  have hfold : (i32ToStr num).foldl (fun num c => (num * 10 + (c.toNat - 48)) % 65536) 0 = num := by
    unfold i32ToStr
    split
    · next hzero =>
      obtain rfl : num = 0 := by omega
      rfl
    · rw [if_neg (by omega), Int.toNat_natCast]
      exact foldl_digitsRev (fun num c => (num * 10 + (c.toNat - 48)) % 65536) (fun a : Nat => a) 65535
        hstep 12 num (by omega) (by omega)
  rw [parseLineNumber, htake, hdrop, hfold]

/-- A line with a greater number goes to the end. -/
theorem putLine_last {pre : List Line} {l : Line}
    (hsorted : (pre ++ [l]).Pairwise fun l l' => l.num < l'.num)
    (hroom : size (pre ++ [l]) ≤ progSize) : putLine l pre = pre ++ [l] := by
  have hlt : ∀ a ∈ pre, a.num < l.num :=
    fun a ha => (List.pairwise_append.mp hsorted).2.2 a ha l List.mem_cons_self
  have herase : erase l.num pre = pre := erase_of_not_mem fun a ha => Nat.ne_of_lt (hlt a ha)
  have hbefore : ∀ a ∈ pre, (decide ¬l.num ≤ a.num) = true := by
    intro a ha
    have := hlt a ha
    simpa using this
  have hinsert : insert l pre = pre ++ [l] := by
    rw [insert_eq, herase, List.takeWhile_eq_self_iff.mpr hbefore,
      List.dropWhile_eq_nil_iff.mpr hbefore]
  rw [putLine, hinsert, if_pos hroom]

section Loading

variable {p : Program} {pre ls : List Line} {l : Line}

theorem listing_typed (htext : ∀ c ∈ textOf (pieces l.tokens), IsTyped c) :
    ∀ c ∈ listing l, IsTyped c := by
  intro c hc
  rcases List.mem_append.mp hc with hc | hc
  · exact isTyped_of_isDigit (i32ToStr_digits (Int.natCast_nonneg _) c hc)
  · rcases List.mem_cons.mp hc with rfl | hc
    · exact ⟨by decide, by decide⟩
    · exact htext c hc

/-- A line that is listed is loaded as the line. -/
theorem loadLine_run (h : Stored p pre) (htyped : l.Typed) (hl : Listed l) :
    ∃ p', loadLine p (listing l) = some p' ∧ Stored p' (putLine l pre) := by
  obtain ⟨p', hinsert, h'⟩ := h.put htyped.valid
  refine ⟨p', ?_, h'⟩
  have hne : listing l ≠ [] := List.append_ne_nil_of_right_ne_nil _ (List.cons_ne_nil _ _)
  have hblank : (32 :: textOf (pieces l.tokens)).dropWhile (· = 32) = textOf (pieces l.tokens) := by
    have hhead := hl.head
    rw [List.dropWhile_cons_of_pos (by decide)]
    cases htext : textOf (pieces l.tokens) with
    | nil => rfl
    | cons c t =>
      rw [htext] at hhead
      exact List.dropWhile_cons_of_neg (by simpa using hhead)
  have hpos : l.num ≠ 0 := Nat.ne_of_gt htyped.pos
  rw [loadLine, if_neg hne, cText_of_typed (listing_typed hl.typed), listing,
    parseLineNumber_listing htyped.num]
  simp only [if_neg hpos, hblank, insertText, hl.again]
  rw [if_pos (show l.tokens.length > 0 from htyped.valid.pos)]
  exact hinsert

theorem listings_cons (l : Line) (ls : List Line) : listings (l :: ls) = listing l ++ 10 :: listings ls := by
  simp [listings]

/-- The loop of `cmd_load` loads all lines that are listed. -/
theorem loadFrom_run (h : Stored p pre) (hls : ∀ l ∈ ls, l.Typed ∧ l.Kept)
    (hsorted : (pre ++ ls).Pairwise fun l l' => l.num < l'.num) (hroom : size (pre ++ ls) ≤ progSize)
    {fuel : Nat} (hfuel : (listings ls).length ≤ fuel) :
    ∃ p', loadFrom fuel (listings ls) p = some p' ∧ Stored p' (pre ++ ls) := by
  induction ls generalizing p pre fuel with
  | nil =>
    refine ⟨p, ?_, by rwa [List.append_nil]⟩
    cases fuel <;> rfl
  | cons l ls ih =>
    obtain ⟨htyped, hkept⟩ := hls l List.mem_cons_self
    have hlisted := hkept.listed htyped
    have hsplit : pre ++ l :: ls = (pre ++ [l]) ++ ls := by simp
    rw [hsplit] at hsorted hroom ⊢
    have hroom' : size (pre ++ [l]) ≤ progSize := by
      rw [size_append] at hroom
      omega
    obtain ⟨p₁, hload, h₁⟩ := loadLine_run h htyped hlisted
    rw [putLine_last (List.pairwise_append.mp hsorted).1 hroom'] at h₁
    -- the line is read up to its newline
    have hnewline : ∀ c ∈ listing l, (decide (c ≠ 10)) = true := by
      intro c hc
      have hne : c ≠ 10 := by
        rintro rfl
        exact absurd (listing_typed hlisted.typed 10 hc).1 (by decide)
      simpa using hne
    have hline : (listing l ++ 10 :: listings ls).takeWhile (· ≠ 10) = listing l := by
      rw [List.takeWhile_append_of_pos hnewline, List.takeWhile_cons_of_neg (by decide),
        List.append_nil]
    rw [listings_cons] at hfuel ⊢
    obtain ⟨c, s, hs⟩ := List.exists_cons_of_ne_nil
      (show listing l ++ 10 :: listings ls ≠ [] from List.append_ne_nil_of_right_ne_nil _ (List.cons_ne_nil _ _))
    have hlength : (listings ls).length + 1 ≤ fuel := by
      rw [List.length_append, List.length_cons] at hfuel
      omega
    obtain ⟨n, rfl⟩ := Nat.exists_eq_add_of_le' (Nat.le_of_add_left_le hlength)
    obtain ⟨p', hrest, h'⟩ := ih h₁ (fun a ha => hls a (List.mem_cons_of_mem l ha)) hsorted hroom
      (Nat.le_of_succ_le_succ hlength)
    refine ⟨p', ?_, h'⟩
    rw [hs, loadFrom, ← hs, hline, List.take_of_length_le hkept.short, hload, List.drop_left]
    exact hrest

end Loading

/-! ## The round trip -/

/-- What is saved fits the buffer. -/
theorem length_listings {ls : List Line} (hkept : ∀ l ∈ ls, l.Kept) (hsaved : AllSaved ls) :
    (listings ls).length ≤ 4096 := by
  rcases List.eq_nil_or_concat ls with rfl | ⟨pre, l, rfl⟩
  · exact Nat.zero_le _
  · rw [List.concat_eq_append] at hkept hsaved ⊢
    have hbefore := hsaved pre l [] rfl
    have hshort := (hkept l (List.mem_append_right _ List.mem_cons_self)).short
    have hsplit : listings (pre ++ [l]) = listings pre ++ (listing l ++ [10]) := by simp [listings]
    rw [hsplit, List.length_append, List.length_append, List.length_singleton]
    omega

/-- A program is loaded as it was saved, if each of its lines is listed as it was entered and all
of them are saved. -/
theorem save_load_restores {inputs : List (List UInt8)} (hinputs : ∀ i ∈ inputs, ∀ c ∈ i, IsTyped c)
    {p₀ p : Program} (hrun : inputs.foldlM enterLine p₀.init = some p)
    (hkept : ∀ l ∈ entered inputs, l.Kept) (hsaved : AllSaved (entered inputs)) {L : Layout}
    {s : DiskState} {filename : CString} (hbpb : s.bpb = L.bpb) (hsound : SoundVolume L s.vol)
    (hfit : (Call.write filename (listings (entered inputs))).Fits L s.vol)
    (hname : filename.Printable) (hok : (cmdSave p filename s).out = .done .ok) (q : Program) :
    ∃ p', (cmdLoad q filename (cmdSave p filename s).state).out = .done (.ok, p') ∧
      p'.progEnd = p.progEnd ∧ p'.buf.slice 0 p.progEnd = p.buf.slice 0 p.progEnd := by
  obtain ⟨p₁, hrun₁, hstored, htyped⟩ := entered_run hinputs p₀
  obtain rfl : p₁ = p := Option.some.inj (hrun₁.symm.trans hrun)
  generalize entered inputs = ls at *
  have hlisted : ∀ l ∈ ls, Listed l := fun l hl => (hkept l hl).listed (htyped l hl)
  have hne : filename.val ≠ [] := by
    intro hnil
    rw [cmdSave, if_pos hnil] at hok
    cases hok
  obtain ⟨r, hr, hread⟩ := (write_reads_back hbpb hsound hfit hname).returns
  have hsave : cmdSave p₁ filename s = (diskfsWriteFile filename (listings ls) >>= fun r =>
      (if r = 0 then pure .ok else pure .saveError : Disk Message)) s := by
    rw [cmdSave, if_neg hne, saved_eq hstored hlisted hsaved]
  rw [hsave, Prog.bind_run_prepend (Prog.run_eq hr rfl)] at hok ⊢
  have hzero : r = 0 := by
    by_contra hzero
    rw [if_neg hzero] at hok
    cases hok
  subst hzero
  have hfile := hread rfl 4096
  rw [List.take_of_length_le (length_listings hkept hsaved)] at hfile
  obtain ⟨p', hload, h'⟩ := loadFrom_run (Stored.init q) (fun l hl => ⟨htyped l hl, hkept l hl⟩)
    hstored.sorted hstored.room (Nat.le_refl _)
  refine ⟨p', ?_, h'.progEnd.trans hstored.progEnd.symm, ?_⟩
  · show (cmdLoad q filename (diskfsWriteFile filename (listings ls) s).state).out = _
    generalize (diskfsWriteFile filename (listings ls) s).state = s' at hfile ⊢
    have hvol : onVol (fat12ReadFile s'.bpb filename 4096) s' = ⟨.done (some (listings ls)),
        s'.setVol (fat12ReadFile s'.bpb filename 4096 s'.vol).state, []⟩ := by
      rw [onVol, hfile]
    rw [cmdLoad, if_neg hne, Prog.get_bind_run, Prog.bind_run_quiet hvol]
    simp only [hload]
    rfl
  · rw [hstored.progEnd, hstored.bytes]
    exact h'.bytes

/-! ## Two lines on the ramdisk -/

/-- The file system without a hard disk. -/
def withoutDisk (ramdisk : Bytes) : DiskState where
  volume := Bytes.zeros
  ramdisk := ramdisk
  disk := Bytes.zeros
  answers := fun _ => .ok
  diskAvailable := false
  onRamdisk := true
  bpb := Ramdisk.bpb

theorem withoutDisk_vol (v : Bytes) : (withoutDisk v).vol = v := rfl

def ramdiskOnly : DiskState := withoutDisk Ramdisk.ramdiskInit

theorem ramdiskOnly_sound : SoundVolume Ramdisk.layout ramdiskOnly.vol := by
  rw [ramdiskOnly, withoutDisk_vol]
  exact ramdisk_sound

def noProgram : Program := ⟨Bytes.zeros, 0⟩

def smallNumber : List UInt8 := ascii "10 A=1"

theorem save_load_restores_small : ∃ p, [smallNumber].foldlM enterLine noProgram.init = some p ∧
    ∃ p', (cmdLoad noProgram xName (cmdSave p xName ramdiskOnly).state).out = .done (.ok, p') ∧
      p'.progEnd = p.progEnd ∧ p'.buf.slice 0 p.progEnd = p.buf.slice 0 p.progEnd := by
  have hinputs : ∀ i ∈ [smallNumber], ∀ c ∈ i, IsTyped c := by
    unfold IsTyped
    decide +kernel
  have hentered : entered [smallNumber] = [⟨10, [65, 61, 254, 1, 0, 0, 0]⟩] := by decide +kernel
  have hpieces : pieces [65, 61, 254, 1, 0, 0, 0] = [.char 65, .char 61, .num 1] := by decide +kernel
  have hkept : ∀ l ∈ entered [smallNumber], l.Kept := by
    rw [hentered]
    simp only [List.mem_singleton, forall_eq]
    refine ⟨?_, ?_, by decide +kernel⟩
    · rw [hpieces]
      simp
    · rw [hpieces]
      decide +kernel
  have hsaved : AllSaved (entered [smallNumber]) := by
    rw [hentered]
    intro pre l post hsplit
    obtain ⟨rfl, -⟩ | ⟨_, hmore⟩ := List.cons_eq_append_iff.mp hsplit
    · decide
    · simp at hmore
  have hname : xName.Printable := by
    unfold CString.Printable
    decide
  have hok : ([smallNumber].foldlM enterLine noProgram.init).map
      (fun p => (cmdSave p xName ramdiskOnly).out) = some (.done .ok) := by decide +kernel
  obtain ⟨p, hrun, hout⟩ := Option.map_eq_some_iff.mp hok
  exact ⟨p, hrun, save_load_restores hinputs hrun hkept hsaved
    (L := Ramdisk.layout) rfl ramdiskOnly_sound (Call.fits_of_full Ramdisk.layout_full _) hname hout
    noProgram⟩

/-- A number that is listed as a negative one. -/
def greatNumber : List UInt8 := ascii "10 A=3000000000"

/-- The negative number is loaded as two tokens. -/
theorem great_number_not_restored : ¬∀ inputs : List (List UInt8),
    (∀ i ∈ inputs, ∀ c ∈ i, IsTyped c) → ∀ p₀ p : Program,
    inputs.foldlM enterLine p₀.init = some p → ∀ (s : DiskState) (filename : CString),
    s.bpb = Ramdisk.bpb → SoundVolume Ramdisk.layout s.vol → filename.Printable →
    (cmdSave p filename s).out = .done .ok → ∀ q : Program,
    ∃ p', (cmdLoad q filename (cmdSave p filename s).state).out = .done (.ok, p') ∧
      p'.progEnd = p.progEnd ∧ p'.buf.slice 0 p.progEnd = p.buf.slice 0 p.progEnd := by
  intro h
  have hok : ([greatNumber].foldlM enterLine noProgram.init).map (fun p =>
      ((cmdSave p xName ramdiskOnly).out, p.progEnd)) = some (.done .ok, 10) := by decide +kernel
  have hload : ([greatNumber].foldlM enterLine noProgram.init).map (fun p =>
      match (cmdLoad noProgram xName (cmdSave p xName ramdiskOnly).state).out with
      | .done (_, p') => p'.progEnd
      | .halt _ => 0) = some 11 := by decide +kernel
  obtain ⟨p, hrun, hout⟩ := Option.map_eq_some_iff.mp hok
  obtain ⟨hout, hend⟩ := Prod.mk.inj hout
  have hinputs : ∀ i ∈ [greatNumber], ∀ c ∈ i, IsTyped c := by
    unfold IsTyped
    decide +kernel
  have hname : xName.Printable := by
    unfold CString.Printable
    decide
  obtain ⟨p', hp', hsame, -⟩ :=
    h [greatNumber] hinputs noProgram p hrun ramdiskOnly xName rfl ramdiskOnly_sound hname hout noProgram
  rw [hrun, Option.map_some, hp'] at hload
  have hend' : p'.progEnd = 11 := Option.some.inj hload
  omega

end RainbowOs.Basic
