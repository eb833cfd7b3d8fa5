import RainbowOs.Cc.Preproc
import RainbowOs.Lib.Scan
import Mathlib.Data.List.TakeWhile

/-!
# The rounds of the preprocessor

A round leaves a suffix of what there was. So `preprocess`, which keeps a
position, is a scanner of the text that is left, as long as it comes to no
`#include`; and what a source becomes can be put together from what its
parts become.
-/

namespace RainbowOs.Cc

open RainbowOs.Lib
open Scan (Round Reads)

section Stop

variable {α : Type} {p : α → Bool} {d : α}

/-- An item at which a run stops may be followed by anything. -/
theorem takeWhile_append_stop (hd : p d = false) (s t : List α) :
    (s ++ d :: t).takeWhile p = s.takeWhile p := by
  induction s with
  | nil => simp [hd]
  | cons c s ih => simp [List.takeWhile_cons, ih]

theorem dropWhile_append_stop (hd : p d = false) (s t : List α) :
    (s ++ d :: t).dropWhile p = s.dropWhile p ++ d :: t := by
  induction s with
  | nil => simp [hd]
  | cons c s ih =>
    rw [List.cons_append, List.dropWhile_cons, List.dropWhile_cons, ih]
    split <;> rfl

end Stop

/-! ## What is left -/

section Suffix

variable (macros : List Macro) (r : Region) (c : UInt8) (s : List UInt8)

theorem readWord_suffix (max : Nat) : (readWord max s).2 <:+ s := List.drop_suffix _ _

theorem skipSpaces_suffix : skipSpaces s <:+ s := List.dropWhile_suffix _

theorem readLine_suffix (max : Nat) : (readLine max s).2 <:+ s := List.drop_suffix _ _

theorem skipLine_suffix : skipLine s <:+ s := List.dropWhile_suffix _

theorem finishLine_suffix : (finishLine macros r s).rest <:+ s := by
  have h := skipLine_suffix s
  rw [finishLine]
  split
  · exact List.nil_suffix
  · next hs =>
    rw [hs] at h
    exact (List.suffix_cons _ _).trans h

/-- The rest of a line is gone after it. -/
theorem length_finishLine : (finishLine macros r (c :: s)).rest.length ≤ s.length := by
  have h := (skipLine_suffix (c :: s)).length_le
  rw [finishLine]
  split
  · exact Nat.zero_le _
  · next hs =>
    rw [hs] at h
    exact Nat.le_of_succ_le_succ h

theorem readDirective_suffix : (readDirective s).2 <:+ s :=
  (skipSpaces_suffix _).trans ((readWord_suffix _ 15).trans (skipSpaces_suffix s))

theorem directive_suffix (name : List UInt8) : (directive macros r name s).2.2 <:+ s := by
  have hword := readWord_suffix s macroNameMax
  unfold directive
  split
  · exact (readLine_suffix _ _).trans ((skipSpaces_suffix _).trans hword)
  split
  · split
    · exact hword
    · exact List.suffix_rfl
  split
  · split
    · exact hword
    · exact List.suffix_rfl
  split
  · exact List.suffix_rfl
  split
  · exact List.suffix_rfl
  · exact List.suffix_rfl

theorem readLiteral_suffix (quote : UInt8) : ∀ s, (readLiteral quote s).2 <:+ s
  | [] => List.suffix_rfl
  | [c] => List.nil_suffix
  | c :: d :: s => by
    rw [readLiteral]
    split
    · exact List.suffix_cons _ _
    split
    · exact (readLiteral_suffix quote s).trans ((List.suffix_cons d s).trans (List.suffix_cons c _))
    · exact (readLiteral_suffix quote (d :: s)).trans (List.suffix_cons c _)

/-- At least one character is read. -/
theorem length_readLiteral (quote c : UInt8) (s : List UInt8) : (readLiteral quote (c :: s)).2.length ≤ s.length := by
  cases s with
  | nil => exact Nat.le_refl _
  | cons d s =>
    rw [readLiteral]
    split
    · exact Nat.le_refl _
    split
    · exact Nat.le_succ_of_le (readLiteral_suffix quote s).length_le
    · exact (readLiteral_suffix quote (d :: s)).length_le

/-- A literal is copied. -/
theorem readLiteral_verbatim (quote : UInt8) (s : List UInt8) :
    (readLiteral quote s).1 ++ (readLiteral quote s).2 = s := by
  fun_induction readLiteral quote s with
  | case1 => rfl
  | case2 => rfl
  | case3 => rfl
  | case4 d s h ih => rw [List.cons_append, List.cons_append, ih]
  | case5 c d s h h' ih => rw [List.cons_append, ih]

/-- A word is not empty where one starts. -/
theorem readWord_cons (h : isIdentChar c) (max : Nat) :
    readWord (max + 1) (c :: s) = (c :: (readWord max s).1, (readWord max s).2) := by
  simp [readWord, h]

theorem isIdentChar_of_start (h : isIdentStart c) : isIdentChar c := by
  simp only [isIdentStart, isIdentChar, Bool.or_eq_true] at h ⊢
  rcases h with (h | h) | h
  · exact .inl (.inl (.inl h))
  · exact .inl (.inl (.inr h))
  · exact .inr h

theorem textStep_suffix : (textStep macros c s).2 <:+ s := by
  unfold textStep
  split
  · exact readLiteral_suffix c s
  split
  · next h =>
    rw [readWord_cons c s (isIdentChar_of_start c h)]
    exact readWord_suffix s 30
  · exact List.suffix_rfl

theorem step_suffix : (step macros r c s).rest <:+ s := by
  unfold step
  split
  · exact (finishLine_suffix _ _ _).trans ((directive_suffix _ _ _ _).trans (readDirective_suffix s))
  split
  · exact textStep_suffix macros c s
  · have hlength := length_finishLine macros r c s
    have hsuffix := finishLine_suffix macros r (c :: s)
    exact List.suffix_of_suffix_length_le hsuffix (List.suffix_cons c s) hlength

/-- What is left from a position further on. -/
theorem Source.rest_add (src : Source) (buf : Bytes) (ip k : Nat) :
    src.rest buf (ip + k) = (src.rest buf ip).drop k := by
  cases src with
  | text t => rw [Source.rest, Source.rest, List.drop_drop]
  | included len =>
    rw [Source.rest, Source.rest]
    by_cases hk : k ≤ len - ip
    · rw [Bytes.drop_slice buf ip hk, Nat.sub_sub]
    · rw [List.drop_of_length_le (by rw [Bytes.length_slice]; omega),
        show len - (ip + k) = 0 by omega]
      rfl

/-- The position of what is left. -/
theorem Source.rest_suffix {src : Source} {buf : Bytes} {ip : Nat} {l rest : List UInt8}
    (h : src.rest buf ip = l) (hr : rest <:+ l) :
    src.rest buf (ip + (l.length - rest.length)) = rest := by
  rw [src.rest_add, h]
  exact (List.suffix_iff_eq_drop.mp hr).symm

end Suffix

/-! ## Readers before a newline -/

section Newline

variable (s t : List UInt8)

theorem readWord_newline (max : Nat) :
    readWord max (s ++ 10 :: t) = ((readWord max s).1, (readWord max s).2 ++ 10 :: t) := by
  have htake : (s ++ 10 :: t).takeWhile isIdentChar = s.takeWhile isIdentChar :=
    takeWhile_append_stop (by decide) s t
  have hle : ((s.takeWhile isIdentChar).take max).length ≤ s.length :=
    Nat.le_trans (List.length_take_le' _ _) (List.takeWhile_prefix _).length_le
  simp only [readWord, htake, List.drop_append_of_le_length hle]

theorem skipSpaces_newline : skipSpaces (s ++ 10 :: t) = skipSpaces s ++ 10 :: t :=
  dropWhile_append_stop (by decide) s t

theorem readLine_newline (max : Nat) :
    readLine max (s ++ 10 :: t) = ((readLine max s).1, (readLine max s).2 ++ 10 :: t) := by
  have htake : (s ++ 10 :: t).takeWhile (· ≠ 10) = s.takeWhile (· ≠ 10) :=
    takeWhile_append_stop (by decide) s t
  have hle : ((s.takeWhile (· ≠ 10)).take max).length ≤ s.length :=
    Nat.le_trans (List.length_take_le' _ _) (List.takeWhile_prefix _).length_le
  simp only [readLine, htake, List.drop_append_of_le_length hle]

theorem skipLine_newline : skipLine (s ++ 10 :: t) = skipLine s ++ 10 :: t :=
  dropWhile_append_stop (by decide) s t

theorem readDirective_newline : readDirective (s ++ 10 :: t) =
    ((readDirective s).1, (readDirective s).2 ++ 10 :: t) := by
  simp only [readDirective, skipSpaces_newline, readWord_newline]

theorem directive_newline (macros : List Macro) (r : Region) (name : List UInt8) :
    directive macros r name (s ++ 10 :: t) = ((directive macros r name s).1,
      (directive macros r name s).2.1, (directive macros r name s).2.2 ++ 10 :: t) := by
  simp only [directive, readWord_newline, skipSpaces_newline, readLine_newline]
  split_ifs <;> rfl

theorem finishLine_newline (macros : List Macro) (r : Region) (h : (10 : UInt8) ∉ s) :
    finishLine macros r (s ++ 10 :: t) = ⟨[10], macros, r, t⟩ := by
  have hs : skipLine s = [] := by
    rw [skipLine, List.dropWhile_eq_nil_iff]
    intro c hc
    have hne : c ≠ 10 := by
      rintro rfl
      exact h hc
    simpa using hne
  rw [finishLine, skipLine_newline, hs]
  rfl

/-- Whether a literal is closed. -/
def closes (quote : UInt8) : List UInt8 → Bool
  | [] => false
  | [c] => c = quote
  | c :: d :: s =>
    if c = quote then true
    else if c = chr '\\' then closes quote s
    else closes quote (d :: s)

/-- A literal that is closed may be followed by anything. -/
theorem readLiteral_append (quote : UInt8) (t : List UInt8) : ∀ s, closes quote s →
    readLiteral quote (s ++ t) = ((readLiteral quote s).1, (readLiteral quote s).2 ++ t)
  | [], h => nomatch h
  | [c], h => by
    have hc : c = quote := by simpa [closes] using h
    cases t with
    | nil => rfl
    | cons d t => simp [readLiteral, hc]
  | c :: d :: s, h => by
    rw [closes] at h
    rw [List.cons_append, List.cons_append, readLiteral, readLiteral]
    split
    · rfl
    · next hc =>
      rw [if_neg hc] at h
      split
      · next hback =>
        rw [if_pos hback] at h
        rw [readLiteral_append quote t s h]
      · next hback =>
        rw [if_neg hback] at h
        rw [← List.cons_append, readLiteral_append quote t (d :: s) h]

end Newline

/-! ## Rounds without files -/

/-- The macros and the regions. -/
abbrev PpState := List Macro × Region

/-- A round of `preprocess`, unless it is an `#include`. -/
def plainStep (x : PpState) (c : UInt8) (s : List UInt8) : Option (Round PpState UInt8 UInt8) :=
  match includeName x.2 c s with
  | none => some ⟨(step x.1 x.2 c s).out, ((step x.1 x.2 c s).macros, (step x.1 x.2 c s).region),
      (step x.1 x.2 c s).rest⟩
  | some _ => none

theorem plainStep_suffix {x : PpState} {c : UInt8} {s : List UInt8}
    {r : Round PpState UInt8 UInt8} (h : plainStep x c s = some r) : r.rest <:+ s := by
  unfold plainStep at h
  split at h
  · cases h
    exact step_suffix _ _ _ _
  · cases h

section Lines

variable {x : PpState} {c : UInt8} {s raw : List UInt8}

theorem includeName_eq_none (hc : c ≠ chr '#') (r : Region) : includeName r c s = none := by
  simp only [includeName, hc, false_and, if_false]

/-- A round in text. -/
theorem plainStep_text (hactive : x.2.active = true) (hc : c ≠ chr '#') : plainStep x c s =
    some ⟨(textStep x.1 c s).1, x, (textStep x.1 c s).2⟩ := by
  simp only [plainStep, includeName_eq_none hc, step, if_neg hc, hactive, if_true]

theorem textStep_newline (macros : List Macro) (t : List UInt8)
    (h : c = chr '"' ∨ c = chr '\'' → closes c s) : textStep macros c (s ++ 10 :: t) =
      ((textStep macros c s).1, (textStep macros c s).2 ++ 10 :: t) := by
  unfold textStep
  split
  · next hq => rw [readLiteral_append c _ s (h hq)]
  split
  · rw [← List.cons_append, readWord_newline]
  · rfl

/-- A word is replaced by its macro. -/
theorem textStep_word (hq : ¬(c = chr '"' ∨ c = chr '\'')) (hi : isIdentStart c)
    (macros : List Macro) (s : List UInt8) : textStep macros c s =
      (((findMacro macros (readWord macroNameMax (c :: s)).1).map (·.value)).getD
        (readWord macroNameMax (c :: s)).1, (readWord macroNameMax (c :: s)).2) := by
  rw [textStep, if_neg hq, if_pos hi]

/-- What is left after text does not depend on the macros. -/
theorem textStep_rest (macros : List Macro) : (textStep macros c s).2 = (textStep [] c s).2 := by
  unfold textStep
  split
  · rfl
  split <;> rfl

/-- A directive is a round up to the end of its line. -/
theorem plainStep_directive (hname : includeName x.2 (chr '#') (s ++ 10 :: t) = none)
    (hs : (10 : UInt8) ∉ s) : plainStep x (chr '#') (s ++ 10 :: t) =
      some ⟨[10], ((directive x.1 x.2 (readDirective s).1 (readDirective s).2).1,
        (directive x.1 x.2 (readDirective s).1 (readDirective s).2).2.1), t⟩ := by
  have hrest : (10 : UInt8) ∉ (directive x.1 x.2 (readDirective s).1 (readDirective s).2).2.2 := by
    intro hin
    exact hs (List.Subset.trans (directive_suffix _ _ _ _).subset (readDirective_suffix s).subset hin)
  simp only [plainStep, hname, step, if_true, readDirective_newline, directive_newline,
    finishLine_newline _ _ _ _ hrest]

/-- A newline is put out wherever it is. -/
theorem plainStep_newline (t : List UInt8) : plainStep x 10 t = some ⟨[10], x, t⟩ := by
  have hten : (10 : UInt8) ≠ chr '#' := by decide
  cases hactive : x.2.active with
  | true => exact plainStep_text hactive hten
  | false =>
    simp only [plainStep, includeName_eq_none hten, step, if_neg hten, hactive, Bool.false_eq_true,
      if_false]
    rfl

/-- A line is skipped where it is not active, unless a directive is at its start. -/
theorem reads_skip (hactive : x.2.active = false) (hs : (10 : UInt8) ∉ raw)
    (hhash : raw.head? ≠ some (chr '#')) (t : List UInt8) :
    Reads plainStep x (raw ++ 10 :: t) [10] x t := by
  cases raw with
  | nil =>
    exact .single (plainStep_newline t)
  | cons c raw =>
    have hc : c ≠ chr '#' := fun hc => hhash (congrArg some hc)
    have hround : plainStep x c (raw ++ 10 :: t) = some ⟨[10], x, t⟩ := by
      simp only [plainStep, includeName_eq_none hc, step, if_neg hc, hactive, Bool.false_eq_true,
        if_false]
      rw [← List.cons_append, finishLine_newline _ _ _ _ hs]
    exact .single hround

/-- What a line of text becomes. -/
def expandLine (macros : List Macro) : Nat → List UInt8 → List UInt8
  | _, [] => []
  | 0, _ :: _ => []
  | n + 1, c :: s => (textStep macros c s).1 ++ expandLine macros n (textStep macros c s).2

/-- There is no `#` in the text, and its literals are closed. -/
def closedText : Nat → List UInt8 → Bool
  | _, [] => true
  | 0, _ :: _ => false
  | n + 1, c :: s => c ≠ chr '#' && (!(c = chr '"' || c = chr '\'') || closes c s) &&
      closedText n (textStep [] c s).2

/-- A line of text is expanded. -/
theorem reads_text (hactive : x.2.active = true) (t : List UInt8) : ∀ n raw, closedText n raw →
    Reads plainStep x (raw ++ 10 :: t) (expandLine x.1 n raw) x (10 :: t)
  | 0, [], _ => .refl _ _
  | _ + 1, [], _ => .refl _ _
  | n + 1, c :: raw, h => by
    simp only [closedText, Bool.and_eq_true, decide_eq_true_eq] at h
    obtain ⟨⟨hc, hquote⟩, hrest⟩ := h
    have hclosed : c = chr '"' ∨ c = chr '\'' → closes c raw := by
      rintro (hq | hq)
      · simpa [hq] using hquote
      · simpa [hq] using hquote
    rw [← textStep_rest x.1] at hrest
    have hround := plainStep_text (s := raw ++ 10 :: t) hactive hc
    rw [textStep_newline x.1 t hclosed] at hround
    exact .round hround (reads_text hactive t n _ hrest)

/-- Blanks are put out. -/
theorem reads_blanks (hactive : x.2.active = true) {blanks : List UInt8}
    (h : ∀ c ∈ blanks, isBlank c) (t : List UInt8) : Reads plainStep x (blanks ++ t) blanks x t := by
  have hround : ∀ c ∈ blanks, ∀ s, plainStep x c s = some ⟨[c], x, s⟩ := by
    intro c hc s
    have hblank : c = chr ' ' ∨ c = 9 := by simpa [isBlank] using h c hc
    rcases hblank with rfl | rfl
    · exact plainStep_text hactive (by decide)
    · exact plainStep_text hactive (by decide)
  have hmap := Reads.map (f := fun c => [c]) (s := t) hround
  rwa [List.flatMap_singleton'] at hmap

/-! ## The last newline -/

/-- A literal that is not closed is the rest of the source. -/
theorem readLiteral_open (quote : UInt8) : ∀ s, closes quote s = false → readLiteral quote s = (s, [])
  | [], _ => rfl
  | [c], _ => rfl
  | c :: d :: s, h => by
    rw [closes] at h
    rw [readLiteral]
    split at h
    · cases h
    · next hc =>
      rw [if_neg hc]
      split at h
      · next hback => rw [if_pos hback, readLiteral_open quote s h]
      · next hback => rw [if_neg hback, readLiteral_open quote (d :: s) h]

theorem closes_newline {quote : UInt8} (hq : quote ≠ 10) : ∀ s, closes quote s = false →
    closes quote (s ++ [10]) = false
  | [], _ => by simp [closes, Ne.symm hq]
  | [c], h => by
    have hc : c ≠ quote := by simpa [closes] using h
    simp [closes, hc, Ne.symm hq]
  | c :: d :: s, h => by
    rw [closes] at h
    rw [List.cons_append, List.cons_append, closes]
    split at h
    · cases h
    · next hc =>
      rw [if_neg hc]
      split at h
      · next hback => rw [if_pos hback, closes_newline hq s h]
      · next hback => rw [if_neg hback, ← List.cons_append, closes_newline hq (d :: s) h]

/-- A literal that is left open goes on behind a newline. -/
theorem readLiteral_through {quote : UInt8} (hq : quote ≠ 10) {t : List UInt8} (ht : t ≠ []) :
    ∀ s, closes quote s = false → (readLiteral quote (s ++ 10 :: t)).2.length < t.length
  | [], _ => by
    obtain ⟨d, t, rfl⟩ := List.exists_cons_of_ne_nil ht
    rw [List.nil_append, readLiteral, if_neg (Ne.symm hq), if_neg (by decide)]
    exact Nat.lt_succ_of_le (length_readLiteral quote d t)
  | [c], h => by
    have hc : c ≠ quote := by simpa [closes] using h
    rw [List.singleton_append, readLiteral, if_neg hc]
    obtain ⟨d, t, rfl⟩ := List.exists_cons_of_ne_nil ht
    split
    · exact Nat.lt_succ_of_le (length_readLiteral quote d t)
    · exact readLiteral_through hq ht [] rfl
  | c :: d :: s, h => by
    rw [closes] at h
    rw [List.cons_append, List.cons_append, readLiteral]
    split at h
    · cases h
    · next hc =>
      rw [if_neg hc]
      split at h
      · next hback =>
        rw [if_pos hback]
        exact readLiteral_through hq ht s h
      · next hback =>
        rw [if_neg hback]
        exact readLiteral_through hq ht (d :: s) h

/-- A round up to the newline before `t`, at most, does the same in a source that ends before the newline. -/
def Unterminated (t : List UInt8) (r r' : Round PpState UInt8 UInt8) : Prop :=
  r'.state = r.state ∧ ((r'.out = r.out ∧ r.rest = r'.rest ++ 10 :: t) ∨
    (r.out = r'.out ++ [10] ∧ r.rest = t ∧ r'.rest = []))

theorem textStep_unterminated (macros : List Macro) {t : List UInt8}
    (hleft : t.length ≤ (textStep macros c (s ++ 10 :: t)).2.length) :
    Unterminated t ⟨(textStep macros c (s ++ 10 :: t)).1, x, (textStep macros c (s ++ 10 :: t)).2⟩
      ⟨(textStep macros c s).1, x, (textStep macros c s).2⟩ := by
  refine ⟨rfl, ?_⟩
  by_cases hclosed : c = chr '"' ∨ c = chr '\'' → closes c s
  · rw [textStep_newline macros t hclosed]
    exact .inl ⟨rfl, rfl⟩
  · obtain ⟨hq, hopen⟩ := Classical.not_imp.mp hclosed
    have hopen := Bool.not_eq_true _ |>.mp hopen
    have hten : c ≠ 10 := by
      rintro rfl
      revert hq
      decide
    rw [textStep, if_pos hq] at hleft
    -- a literal that is left open ends before `t` only if there is no `t`
    have ht : t = [] := by
      by_contra ht
      exact absurd hleft (Nat.not_le_of_lt (readLiteral_through hten ht s hopen))
    subst ht
    rw [textStep, textStep, if_pos hq, if_pos hq, readLiteral_open c s hopen,
      readLiteral_open c _ (closes_newline hten s hopen)]
    exact .inr ⟨rfl, rfl, rfl⟩

theorem finishLine_unterminated (macros : List Macro) (r : Region) (s t : List UInt8) :
    Unterminated t
      ⟨(finishLine macros r (s ++ 10 :: t)).out, ((finishLine macros r (s ++ 10 :: t)).macros,
        (finishLine macros r (s ++ 10 :: t)).region), (finishLine macros r (s ++ 10 :: t)).rest⟩
      ⟨(finishLine macros r s).out, ((finishLine macros r s).macros, (finishLine macros r s).region),
        (finishLine macros r s).rest⟩ := by
  rw [finishLine, finishLine, skipLine_newline]
  cases skipLine s with
  | nil => exact ⟨rfl, .inr ⟨rfl, rfl, rfl⟩⟩
  | cons c rest => exact ⟨rfl, .inl ⟨rfl, rfl⟩⟩

theorem includeName_unterminated {r : Region} {t : List UInt8} (h : includeName r c (s ++ 10 :: t) = none) :
    includeName r c s = none := by
  unfold includeName at h ⊢
  rw [readDirective_newline] at h
  simp only at h ⊢
  split
  · next hc =>
    rw [if_pos hc] at h
    cases hs : (readDirective s).2 with
    | nil => rfl
    | cons q s' =>
      rw [hs, List.cons_append] at h
      simp only at h ⊢
      split
      · next hq =>
        rw [if_pos hq] at h
        cases h
      · rfl
  · rfl

theorem step_unterminated {t : List UInt8} (hleft : t.length ≤ (step x.1 x.2 c (s ++ 10 :: t)).rest.length) :
    Unterminated t
      ⟨(step x.1 x.2 c (s ++ 10 :: t)).out, ((step x.1 x.2 c (s ++ 10 :: t)).macros,
        (step x.1 x.2 c (s ++ 10 :: t)).region), (step x.1 x.2 c (s ++ 10 :: t)).rest⟩
      ⟨(step x.1 x.2 c s).out, ((step x.1 x.2 c s).macros, (step x.1 x.2 c s).region),
        (step x.1 x.2 c s).rest⟩ := by
  unfold step at hleft ⊢
  split
  · simp only [readDirective_newline, directive_newline]
    exact finishLine_unterminated _ _ _ _
  · next hc =>
    rw [if_neg hc] at hleft
    split
    · next hactive =>
      rw [if_pos hactive] at hleft
      exact textStep_unterminated x.1 hleft
    · exact finishLine_unterminated x.1 x.2 (c :: s) t

theorem plainStep_unterminated {t : List UInt8} {r : Round PpState UInt8 UInt8}
    (h : plainStep x c (s ++ 10 :: t) = some r) (hleft : t.length ≤ r.rest.length) :
    ∃ r', plainStep x c s = some r' ∧ Unterminated t r r' := by
  unfold plainStep at h
  split at h
  · next hname =>
    cases h
    exact ⟨_, by rw [plainStep, includeName_unterminated hname], step_unterminated hleft⟩
  · cases h

/-- A source up to the newline before `t` becomes the same in a source that ends there, but for that newline. -/
theorem reads_unterminated_of {f : PpState → UInt8 → List UInt8 → Option (Round PpState UInt8 UInt8)}
    {t : List UInt8} (hsuffix : ∀ x c s r, f x c s = some r → r.rest <:+ s)
    (hnewline : ∀ x, f x 10 t = some ⟨[10], x, t⟩)
    (hf : ∀ x c s r, f x c (s ++ 10 :: t) = some r → t.length ≤ r.rest.length →
      ∃ r', f x c s = some r' ∧ Unterminated t r r')
    {x x' : PpState} {s o : List UInt8} (h : Reads f x (s ++ 10 :: t) o x' t) :
    ∃ o', o = o' ++ [10] ∧ Reads f x s o' x' [] := by
  generalize hl : s ++ 10 :: t = l at h
  generalize hend : t = e at h
  induction h generalizing s with
  | refl =>
    subst hend
    have hlength := congrArg List.length hl
    rw [List.length_append, List.length_cons] at hlength
    omega
  | @round x x' c s' e out r hr h ih =>
    subst hend
    cases s with
    | nil =>
      cases hl
      cases hr.symm.trans (hnewline x)
      obtain ⟨rfl, rfl⟩ := h.of_eq hsuffix rfl
      exact ⟨[], rfl, .refl _ _⟩
    | cons c s =>
      cases hl
      obtain ⟨r', hr', hstate, ⟨hout, hrest⟩ | ⟨hout, hrest, hrest'⟩⟩ := hf _ _ _ _ hr (h.suffix hsuffix).length_le
      · obtain ⟨o', rfl, hreads⟩ := ih hrest.symm rfl
        rw [← hstate] at hreads
        refine ⟨r'.out ++ o', ?_, .round hr' hreads⟩
        rw [hout, List.append_assoc]
      · obtain ⟨rfl, rfl⟩ := h.of_eq hsuffix hrest
        have hsingle := Reads.single hr'
        rw [hrest', hstate] at hsingle
        exact ⟨r'.out, by rw [hout, List.append_nil], hsingle⟩

/-- A source without its last newline becomes the same, without its last newline. -/
theorem reads_unterminated {x x' : PpState} {s o : List UInt8} (h : Reads plainStep x (s ++ [10]) o x' []) :
    ∃ o', o = o' ++ [10] ∧ Reads plainStep x s o' x' [] :=
  reads_unterminated_of (f := plainStep) (t := []) (fun _ _ _ _ => plainStep_suffix)
    (fun _ => plainStep_newline []) (fun _ _ _ _ => plainStep_unterminated) h

end Lines

theorem emit_emit (outMax : Nat) (out s s' : List UInt8) :
    emit outMax (emit outMax out s) s' = emit outMax out (s ++ s') := by
  simp only [emit, ← List.append_assoc]
  generalize out ++ s = l
  rw [List.take_append, List.take_append]
  simp only [List.take_take, Nat.min_self, List.length_take]
  congr 2
  omega

theorem emit_nil {outMax : Nat} {out : List UInt8} (h : out.length ≤ outMax - 1) :
    emit outMax out [] = out := by
  rw [emit, List.append_nil, List.take_of_length_le h]

theorem length_emit (outMax : Nat) (out s : List UInt8) : (emit outMax out s).length ≤ outMax - 1 :=
  List.length_take_le _ _

section Loop

variable {files : List UInt8 → Option (List UInt8)} {x x' : PpState} {s o s' : List UInt8}
  {src : Source} {outMax ip : Nat} {buf : Bytes} {out : List UInt8}

theorem preprocessLoop_round {c : UInt8} {r : Round PpState UInt8 UInt8}
    (hs : src.rest buf ip = c :: s) (hr : plainStep x c s = some r) (fuel : Nat) :
    preprocessLoop files (fuel + 1) src outMax ⟨x.1, buf⟩ x.2 ip out =
      preprocessLoop files fuel src outMax ⟨r.state.1, buf⟩ r.state.2
        (ip + ((c :: s).length - r.rest.length)) (emit outMax out r.out) := by
  unfold plainStep at hr
  split at hr
  · next hname =>
    cases hr
    rw [preprocessLoop]
    simp only [hs, action, hname]
  · cases hr

/-- The loop is the scanner. -/
theorem preprocessLoop_reads (h : Reads plainStep x s o x' s') (hs : src.rest buf ip = s)
    (hout : out.length ≤ outMax - 1) : ∃ n ip', n + s'.length ≤ s.length ∧
      src.rest buf ip' = s' ∧ ∀ fuel,
        preprocessLoop files (fuel + n) src outMax ⟨x.1, buf⟩ x.2 ip out =
          preprocessLoop files fuel src outMax ⟨x'.1, buf⟩ x'.2 ip' (emit outMax out o) := by
  induction h generalizing ip out with
  | refl x s =>
    refine ⟨0, ip, by omega, hs, fun fuel => ?_⟩
    rw [emit_nil hout]
    rfl
  | @round x x' c s s' o r hr _ ih =>
    have hsuffix := plainStep_suffix hr
    have hrest := Source.rest_suffix hs (hsuffix.trans (List.suffix_cons c s))
    obtain ⟨n, ip', hn, hip, hloop⟩ := ih hrest (length_emit outMax out r.out)
    have hlength := hsuffix.length_le
    refine ⟨n + 1, ip', ?_, hip, fun fuel => ?_⟩
    · rw [List.length_cons]
      omega
    · rw [← Nat.add_assoc, preprocessLoop_round hs hr, hloop, emit_emit]

/-- What is read to its end is what becomes of a source. -/
theorem preprocessLoop_done (h : Reads plainStep x s o x' []) (hs : src.rest buf ip = s)
    (hout : out.length ≤ outMax - 1) {fuel : Nat} (hfuel : s.length < fuel) :
    preprocessLoop files fuel src outMax ⟨x.1, buf⟩ x.2 ip out =
      some (⟨x'.1, buf⟩, some (emit outMax out o)) := by
  obtain ⟨n, ip', hn, hip, hloop⟩ := preprocessLoop_reads h hs hout
  obtain ⟨k, rfl⟩ : ∃ k, fuel = k + 1 + n := ⟨fuel - n - 1, by
    rw [List.length_nil] at hn
    omega⟩
  rw [hloop, preprocessLoop]
  simp only [hip]

theorem preprocess_reads {st : Statics} (h : Reads plainStep ([], Region.init) s o x' []) {fuel : Nat}
    (hfuel : s.length < fuel) : preprocess files fuel (.text s) outMax st =
      some (⟨x'.1, st.includeBuf⟩, some (o.take (outMax - 1))) := by
  have hrest : (Source.text s).rest st.includeBuf 0 = s := List.drop_zero
  have hout : ([] : List UInt8).length ≤ outMax - 1 := Nat.zero_le _
  exact preprocessLoop_done h hrest hout hfuel

end Loop

end RainbowOs.Cc
