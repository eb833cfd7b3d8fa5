import RainbowOs.Cc.Rounds

/-!
# Included files

`preprocess` calls itself for an included file, with the statics it works on
itself: the call forgets the macros, and reads the buffer that the file was
read into. `roundStep` is a round with the call in it, so that a source with
its files is read by a scanner again. `ownStep` is a round of a file that ends
what it begins; such a file may stand in the text in its own place, if the
files that it includes itself leave alone what is still to be read of it.
-/

namespace RainbowOs.Cc

open RainbowOs.Lib
open Scan (Round Reads)

/-! ## The call -/

section Call

variable {files : List UInt8 → Option (List UInt8)} {src : Source} {outMax : Nat} {r : Region}
  {ip : Nat} {out : List UInt8}

/-- More fuel changes nothing. -/
theorem preprocessLoop_succ {fuel : Nat} {st : Statics} {v : Statics × Option (List UInt8)}
    (h : preprocessLoop files fuel src outMax st r ip out = some v) :
    preprocessLoop files (fuel + 1) src outMax st r ip out = some v := by
  induction fuel generalizing src outMax st r ip out v with
  | zero => cases h
  | succ fuel ih =>
    rw [preprocessLoop] at h ⊢
    split at h
    · exact h
    · split at h
      · exact ih h
      · split at h
        · cases h
        · next hinc =>
          simp only [ih hinc]
          dsimp only at h
          split at h
          · next hfull =>
            rw [if_pos hfull]
            exact h
          · next hfull =>
            rw [if_neg hfull]
            exact ih h

theorem preprocessLoop_mono {n fuel : Nat} (hle : n ≤ fuel) {st : Statics}
    {v : Statics × Option (List UInt8)}
    (h : preprocessLoop files n src outMax st r ip out = some v) :
    preprocessLoop files fuel src outMax st r ip out = some v := by
  induction hle with
  | refl => exact h
  | step _ ih => exact preprocessLoop_succ ih

/-- How much of the buffer a source reads. -/
def Source.reach : Source → Nat
  | .text _ => 0
  | .included len => len

theorem Source.rest_congr {buf buf' : Bytes} {n : Nat} (h : ∀ i < n, buf i = buf' i)
    (hreach : src.reach ≤ n) (ip : Nat) : src.rest buf ip = src.rest buf' ip := by
  cases src with
  | text s => rfl
  | included len =>
    have hlen : len ≤ n := hreach
    refine Bytes.slice_congr fun k hk => h _ ?_
    omega

/-- What is beyond the source in the buffer is not read. -/
theorem preprocessLoop_congr {fuel n : Nat} {macros : List Macro} {buf buf' : Bytes}
    (hbuf : ∀ i < n, buf i = buf' i) (hreach : src.reach ≤ n) {st : Statics}
    {res : Option (List UInt8)}
    (h : preprocessLoop files fuel src outMax ⟨macros, buf⟩ r ip out = some (st, res)) :
    ∃ buf'', (∀ i < n, st.includeBuf i = buf'' i) ∧
      preprocessLoop files fuel src outMax ⟨macros, buf'⟩ r ip out =
        some (⟨st.macros, buf''⟩, res) := by
  induction fuel generalizing src outMax macros buf buf' r ip out n st res with
  | zero => cases h
  | succ fuel ih =>
    rw [preprocessLoop] at h ⊢
    simp only [← Source.rest_congr hbuf hreach] at h ⊢
    split at h
    · cases h
      exact ⟨buf', hbuf, rfl⟩
    · split at h
      · exact ih hbuf hreach h
      · next bytes rest _ =>
        -- the buffers agree where the file is read to, too
        have hstore : ∀ i < max n (bytes.length + 1),
            buf.store 0 (bytes ++ [0]) i = buf'.store 0 (bytes ++ [0]) i := by
          intro i hi
          by_cases hin : i < n
          · exact Bytes.store_congr (hbuf i hin)
          · have hlt : i < (bytes ++ [0]).length := by
              rw [List.length_append, List.length_singleton]
              omega
            rw [← Nat.zero_add i, Bytes.store_add hlt, Bytes.store_add hlt]
        split at h
        · cases h
        · next st₁ inc hinc =>
          have hlen : (Source.included bytes.length).reach ≤ max n (bytes.length + 1) :=
            Nat.le_trans (Nat.le_succ _) (Nat.le_max_right _ _)
          obtain ⟨buf₁, hbuf₁, hinc'⟩ := ih hstore hlen hinc
          have hbuf₁ : ∀ i < n, st₁.includeBuf i = buf₁ i :=
            fun i hi => hbuf₁ i (Nat.lt_of_lt_of_le hi (Nat.le_max_left _ _))
          simp only [hinc']
          split at h
          · next hfull =>
            rw [if_pos hfull]
            cases h
            exact ⟨buf₁, hbuf₁, rfl⟩
          · next hfull =>
            rw [if_neg hfull]
            simp only [← Source.rest_congr hbuf₁ hreach] at h ⊢
            exact ih hbuf₁ hreach h

/-- A round, with the call for a file in it. -/
def roundStep (files : List UInt8 → Option (List UInt8)) (n : Nat) (x : PpState) (c : UInt8)
    (s : List UInt8) : Option (Round PpState UInt8 UInt8) :=
  match action files x.1 x.2 c s with
  | .plain y => some ⟨y.out, (y.macros, y.region), y.rest⟩
  | .file bytes rest =>
    match preprocessLoop files n (.included bytes.length) includeBufSz
        ⟨[], Bytes.zeros.store 0 (bytes ++ [0])⟩ Region.init 0 [] with
    | none => none
    | some (st, inc) =>
      let y := finishLine st.macros x.2 rest
      some ⟨inc.getD [] ++ y.out, (st.macros, x.2), y.rest⟩

/-- A file that was read into the buffer is what there is to read. -/
theorem rest_included (buf : Bytes) (bytes : List UInt8) :
    (Source.included bytes.length).rest (buf.store 0 (bytes ++ [0])) 0 = bytes := by
  have hself := Bytes.slice_store_self buf 0 (bytes ++ [0])
  rw [Source.rest, Nat.sub_zero, ← Bytes.take_slice _ _ (List.prefix_append bytes [0]).length_le, hself,
    List.take_left]

/-- A call reads no more of the buffer than was read into it. -/
theorem call_eq {fuel n : Nat} (hle : fuel ≤ n) (buf : Bytes) {bytes : List UInt8}
    {st : Statics} {inc : Option (List UInt8)}
    (h : preprocessLoop files fuel (.included bytes.length) includeBufSz
      ⟨[], buf.store 0 (bytes ++ [0])⟩ Region.init 0 [] = some (st, inc)) (buf' : Bytes) :
    ∃ buf'', preprocessLoop files n (.included bytes.length) includeBufSz
      ⟨[], buf'.store 0 (bytes ++ [0])⟩ Region.init 0 [] = some (⟨st.macros, buf''⟩, inc) := by
  have hbuf : ∀ i < bytes.length,
      buf.store 0 (bytes ++ [0]) i = buf'.store 0 (bytes ++ [0]) i := by
    intro i hi
    have hlt : i < (bytes ++ [0]).length := by
      rw [List.length_append]
      omega
    rw [← Nat.zero_add i, Bytes.store_add hlt, Bytes.store_add hlt]
  obtain ⟨buf'', -, hcall⟩ := preprocessLoop_congr hbuf (Nat.le_refl _) h
  exact ⟨buf'', preprocessLoop_mono hle hcall⟩

theorem includeName_suffix {c : UInt8} {s name rest : List UInt8}
    (h : includeName r c s = some (name, rest)) : rest <:+ s := by
  have hdirective := readDirective_suffix s
  unfold includeName at h
  dsimp only at h
  split at h
  · split at h
    · cases h
    · next q s' hs =>
      split at h
      · cases h
        rw [hs] at hdirective
        exact (List.drop_suffix _ _).trans ((List.drop_suffix _ _).trans
          ((List.suffix_cons q s').trans hdirective))
      · cases h
  · cases h

theorem action_file_suffix {macros : List Macro} {c : UInt8} {s bytes rest : List UInt8}
    (h : action files macros r c s = .file bytes rest) : rest <:+ s := by
  unfold action at h
  split at h
  · cases h
  · next hname =>
    split at h
    · cases h
      exact includeName_suffix hname
    · cases h

theorem action_plain_suffix {macros : List Macro} {c : UInt8} {s : List UInt8} {y : Step}
    (h : action files macros r c s = .plain y) : y.rest <:+ s := by
  unfold action at h
  split at h
  · cases h
    exact step_suffix _ _ _ _
  · next hname =>
    split at h
    · cases h
    · cases h
      exact (finishLine_suffix _ _ _).trans (includeName_suffix hname)

theorem roundStep_suffix {n : Nat} {x : PpState} {c : UInt8} {s : List UInt8}
    {y : Round PpState UInt8 UInt8} (h : roundStep files n x c s = some y) : y.rest <:+ s := by
  unfold roundStep at h
  split at h
  · next haction =>
    cases h
    exact action_plain_suffix haction
  · next haction =>
    split at h
    · cases h
    · cases h
      exact (finishLine_suffix _ _ _).trans (action_file_suffix haction)

theorem emit_append (outMax : Nat) (out s s' : List UInt8) :
    emit outMax (out ++ s) s' = emit outMax out (s ++ s') := by
  simp [emit]

/-- A source with its files is read in rounds. -/
theorem reads_of_preprocessLoop {fuel n : Nat} (hle : fuel ≤ n) {t : List UInt8} {x : PpState}
    {buf : Bytes} {st : Statics} {res : List UInt8} (hout : out.length ≤ outMax - 1)
    (h : preprocessLoop files fuel (.text t) outMax ⟨x.1, buf⟩ x.2 ip out = some (st, some res)) :
    ∃ o x', Reads (roundStep files n) x (t.drop ip) o x' [] ∧ x'.1 = st.macros ∧
      res = emit outMax out o := by
  induction fuel generalizing x buf ip out with
  | zero => cases h
  | succ fuel ih =>
    have hle' : fuel ≤ n := Nat.le_of_succ_le hle
    rw [preprocessLoop] at h
    cases hs : (Source.text t).rest buf ip with
    | nil =>
      simp only [hs] at h
      cases h
      have hs : t.drop ip = [] := hs
      rw [hs]
      exact ⟨[], x, .refl _ _, rfl, (emit_nil hout).symm⟩
    | cons c s =>
      simp only [hs] at h
      have hs' : t.drop ip = c :: s := hs
      cases haction : action files x.1 x.2 c s with
      | plain y =>
        simp only [haction] at h
        have hround : roundStep files n x c s = some ⟨y.out, (y.macros, y.region), y.rest⟩ := by
          simp only [roundStep, haction]
        have hrest := Source.rest_suffix hs ((roundStep_suffix hround).trans (List.suffix_cons c s))
        obtain ⟨o, x', hreads, hmacros, hres⟩ := ih hle' (x := (y.macros, y.region))
          (length_emit outMax out y.out) h
        rw [emit_emit] at hres
        rw [hs']
        refine ⟨y.out ++ o, x', .round hround ?_, hmacros, hres⟩
        rwa [show t.drop (ip + ((c :: s).length - y.rest.length)) = y.rest from hrest] at hreads
      | file bytes rest =>
        simp only [haction] at h
        cases hcall : preprocessLoop files fuel (.included bytes.length) includeBufSz
            ⟨[], buf.store 0 (bytes ++ [0])⟩ Region.init 0 [] with
        | none => simp [hcall] at h
        | some called =>
          obtain ⟨⟨macros, buf₁⟩, inc⟩ := called
          obtain ⟨buf'', hcall'⟩ := call_eq hle' buf hcall Bytes.zeros
          have hleft : (Source.text t).rest buf₁ (ip + ((c :: s).length - rest.length)) = rest :=
            Source.rest_suffix hs'
              ((action_file_suffix haction).trans (List.suffix_cons c s))
          have hrest := Source.rest_suffix hleft (finishLine_suffix macros x.2 rest)
          simp only [hcall, hleft] at h
          split at h
          · cases h
          · obtain ⟨o, x', hreads, hmacros, hres⟩ := ih hle' (x := (macros, x.2))
              (length_emit outMax _ _) h
            have hround : roundStep files n x c s = some ⟨inc.getD [] ++
                (finishLine macros x.2 rest).out, (macros, x.2), (finishLine macros x.2 rest).rest⟩ := by
              simp only [roundStep, haction, hcall']
            rw [emit_emit, emit_append] at hres
            rw [hs']
            refine ⟨_, x', .round hround ?_, hmacros, by rw [hres, List.append_assoc]⟩
            have hrest' : t.drop _ = _ := hrest
            rwa [hrest'] at hreads

theorem emit_of_le {outMax : Nat} {out s : List UInt8} (h : (out ++ s).length ≤ outMax - 1) :
    emit outMax out s = out ++ s := List.take_of_length_le h

/-- The call for a file leaves alone what is left of the source: its last `left` bytes are where they were. -/
def Source.Spared (src : Source) (files : List UInt8 → Option (List UInt8)) (bytes : List UInt8)
    (left : Nat) : Prop :=
  match src with
  | .text _ => True
  | .included len => ∀ (fuel : Nat) (buf : Bytes) (st : Statics) (inc : Option (List UInt8)),
      preprocessLoop files fuel (.included bytes.length) includeBufSz ⟨[], buf.store 0 (bytes ++ [0])⟩
        Region.init 0 [] = some (st, inc) → ∀ i, len - left ≤ i → i < len → st.includeBuf i = buf i

theorem Source.rest_spared {bytes rest : List UInt8} (h : src.Spared files bytes rest.length) {fuel : Nat}
    {buf : Bytes} {st : Statics} {inc : Option (List UInt8)}
    (hcall : preprocessLoop files fuel (.included bytes.length) includeBufSz
      ⟨[], buf.store 0 (bytes ++ [0])⟩ Region.init 0 [] = some (st, inc))
    (hs : src.rest buf ip = rest) : src.rest st.includeBuf ip = rest := by
  cases src with
  | text s => exact hs
  | included len =>
    have hlength : len - ip = rest.length := by rw [← hs, Source.rest, Bytes.length_slice]
    rw [← hs]
    refine Bytes.slice_congr fun k hk => h fuel buf st inc hcall _ ?_ ?_ <;> omega

/-- A file without files of its own that is shorter than what has been read of the source. -/
theorem Source.spared_of_short {bytes o : List UInt8} {x' : PpState} {len left : Nat}
    (h : Reads plainStep ([], Region.init) bytes o x' []) (hshort : bytes.length < len - left) :
    (Source.included len).Spared files bytes left := by
  intro fuel buf st inc hcall i hi _
  have hfuel : bytes.length < max fuel (bytes.length + 1) := by omega
  have hdone : preprocessLoop files (max fuel (bytes.length + 1)) (.included bytes.length) includeBufSz
      ⟨[], buf.store 0 (bytes ++ [0])⟩ Region.init 0 [] = some (⟨x'.1, _⟩, _) :=
    preprocessLoop_done h (rest_included buf bytes) (Nat.zero_le _) hfuel
  cases (preprocessLoop_mono (Nat.le_max_left _ _) hcall).symm.trans hdone
  refine Bytes.store_of_le ?_
  rw [List.length_append, List.length_singleton]
  omega

/-- Rounds are the loop, as long as there is room, and the files that are read leave the source alone. -/
theorem preprocessLoop_of_reads {n : Nat} {x x' : PpState} {s o e : List UInt8}
    (h : Reads (roundStep files n) x s o x' e) (he : e = []) (buf : Bytes) (hs : src.rest buf ip = s)
    (hspared : ∀ o₁ x₁ c u bytes rest, Reads (roundStep files n) x s o₁ x₁ (c :: u) →
      action files x₁.1 x₁.2 c u = .file bytes rest → src.Spared files bytes rest.length)
    (hroom : (out ++ o).length ≤ outMax - 1) :
    ∃ fuel buf', preprocessLoop files fuel src outMax ⟨x.1, buf⟩ x.2 ip out =
      some (⟨x'.1, buf'⟩, some (out ++ o)) := by
  induction h generalizing ip out buf with
  | refl =>
    subst he
    exact ⟨1, buf, by simp [preprocessLoop, hs]⟩
  | @round x x' c s e o y hy h ih =>
    have hround := hy
    have hsuffix := (roundStep_suffix hy).trans (List.suffix_cons c s)
    have hspared' : ∀ o₁ x₁ c u bytes rest, Reads (roundStep files n) y.state y.rest o₁ x₁ (c :: u) →
        action files x₁.1 x₁.2 c u = .file bytes rest → src.Spared files bytes rest.length :=
      fun o₁ x₁ c u bytes rest h => hspared _ x₁ c u bytes rest (.round hround h)
    rw [← List.append_assoc] at hroom ⊢
    have hroom' : (out ++ y.out).length ≤ outMax - 1 :=
      Nat.le_trans (List.prefix_append (out ++ y.out) o).length_le hroom
    unfold roundStep at hy
    split at hy
    · next z haction =>
      cases hy
      have hrest := Source.rest_suffix hs hsuffix
      obtain ⟨fuel, buf', hloop⟩ := ih he buf hrest hspared' hroom
      refine ⟨fuel + 1, buf', ?_⟩
      rw [preprocessLoop]
      simp only [hs, haction]
      rwa [emit_of_le hroom']
    · next bytes rest haction =>
      split at hy
      · cases hy
      · next st inc hcall =>
        cases hy
        obtain ⟨buf₁, hcall'⟩ := call_eq (Nat.le_refl n) Bytes.zeros hcall buf
        have hkept := hspared [] x c s bytes rest (.refl _ _) haction
        have hleft : src.rest buf₁ (ip + ((c :: s).length - rest.length)) = rest :=
          Source.rest_spared hkept hcall'
            (Source.rest_suffix hs ((action_file_suffix haction).trans (List.suffix_cons c s)))
        have hrest := Source.rest_suffix hleft (finishLine_suffix st.macros x.2 rest)
        obtain ⟨fuel, buf', hloop⟩ := ih he buf₁ hrest hspared' hroom
        refine ⟨max n fuel + 1, buf', ?_⟩
        rw [← List.append_assoc] at hroom'
        have hfull : ¬outMax - 1 < out.length + (inc.getD []).length := by
          simp only [List.length_append] at hroom'
          omega
        have hcall'' := preprocessLoop_mono (Nat.le_max_left n fuel) hcall'
        have hloop' := preprocessLoop_mono (Nat.le_max_right n fuel) hloop
        rw [preprocessLoop]
        simp only [hs, haction, hcall'', if_neg hfull, hleft]
        rw [emit_of_le hroom', List.append_assoc out]
        exact hloop'

theorem roundStep_mono {n fuel : Nat} (hle : n ≤ fuel) (x : PpState) (c : UInt8) (s : List UInt8)
    (y : Round PpState UInt8 UInt8) (h : roundStep files n x c s = some y) :
    roundStep files fuel x c s = some y := by
  unfold roundStep at h ⊢
  split at h
  · exact h
  · split at h
    · cases h
    · next hcall =>
      simp only [preprocessLoop_mono hle hcall]
      exact h

/-- A round without a file. -/
theorem roundStep_plain (n : Nat) {x : PpState} {c : UInt8} {s : List UInt8}
    (h : includeName x.2 c s = none) : roundStep files n x c s = plainStep x c s := by
  simp only [roundStep, action, plainStep, h]

theorem includeName_inactive (hactive : r.active = false) (c : UInt8) (s : List UInt8) :
    includeName r c s = none := by
  simp [includeName, hactive]

/-! ### The last newline -/

theorem takeWhile_take {p : UInt8 → Bool} {s t : List UInt8} {m : Nat}
    (h : (((s ++ t).takeWhile p).take m).length < s.length) :
    ((s ++ t).takeWhile p).take m = (s.takeWhile p).take m := by
  rw [List.takeWhile_append] at h ⊢
  split
  · next hall =>
    rw [if_pos hall] at h
    have hm : m < s.length := by
      simp only [List.length_take, List.length_append] at h
      omega
    have hs : s.takeWhile p = s := (List.takeWhile_prefix p).eq_of_length hall
    rw [List.take_append_of_le_length (Nat.le_of_lt hm), hs]
  · rfl

/-- The name of a file that ends before the newline. -/
theorem includeName_newline {c : UInt8} {s t name rest : List UInt8}
    (h : includeName r c (s ++ 10 :: t) = some (name, rest)) (hrest : t.length < rest.length) :
    ∃ u, rest = u ++ 10 :: t ∧ includeName r c s = some (name, u) := by
  unfold includeName at h ⊢
  rw [readDirective_newline] at h
  simp only at h ⊢
  split at h
  · next hc =>
    rw [if_pos hc]
    cases hs : (readDirective s).2 with
    | nil =>
      rw [hs] at h
      cases h
    | cons q v =>
      rw [hs, List.cons_append] at h
      simp only at h ⊢
      split at h
      · next hq =>
        rw [if_pos hq]
        cases h
        generalize hfile : ((v ++ 10 :: t).takeWhile (· ≠ chr '"')).take 31 = file at hrest ⊢
        have hlength : file.length < v.length := by
          simp only [List.length_drop, List.length_append, List.length_cons] at hrest
          omega
        have hname : (v.takeWhile (· ≠ chr '"')).take 31 = file := by
          rw [← hfile] at hlength ⊢
          exact (takeWhile_take hlength).symm
        refine ⟨(v.drop file.length).drop 1, ?_, by rw [hname]⟩
        rw [List.drop_drop, List.drop_drop, List.drop_append_of_le_length hlength]
      · cases h
  · cases h

/-- A round that stops before `t` does the same in a source that ends before the newline. -/
theorem roundStep_unterminated {n : Nat} {t : List UInt8} (ht : t ≠ []) {x : PpState} {c : UInt8}
    {s : List UInt8} {y : Round PpState UInt8 UInt8} (h : roundStep files n x c (s ++ 10 :: t) = some y)
    (hleft : t.length ≤ y.rest.length) :
    ∃ y', roundStep files n x c s = some y' ∧ Unterminated t y y' := by
  cases hname : includeName x.2 c (s ++ 10 :: t) with
  | none =>
    rw [roundStep_plain n hname] at h
    rw [roundStep_plain n (includeName_unterminated hname)]
    exact plainStep_unterminated h hleft
  | some found =>
    obtain ⟨name, rest⟩ := found
    have hshort (macros : List Macro) (hle : t.length ≤ (finishLine macros x.2 rest).rest.length) :
        t.length < rest.length := by
      cases rest with
      | nil => exact absurd (List.length_eq_zero_iff.mp (Nat.le_zero.mp hle)) ht
      | cons d rest => exact Nat.lt_succ_of_le (Nat.le_trans hle (length_finishLine _ _ _ _))
    unfold roundStep action at h ⊢
    simp only [hname] at h
    cases hfile : files name with
    | none =>
      simp only [hfile] at h
      cases h
      obtain ⟨u, rfl, hname'⟩ := includeName_newline hname (hshort _ hleft)
      simp only [hname', hfile]
      exact ⟨_, rfl, finishLine_unterminated _ _ _ _⟩
    | some bytes =>
      cases bytes with
      | nil =>
        simp only [hfile] at h
        cases h
        obtain ⟨u, rfl, hname'⟩ := includeName_newline hname (hshort _ hleft)
        simp only [hname', hfile]
        exact ⟨_, rfl, finishLine_unterminated _ _ _ _⟩
      | cons b bytes =>
        simp only [hfile] at h
        split at h
        · cases h
        · next st inc hcall =>
          cases h
          obtain ⟨u, rfl, hname'⟩ := includeName_newline hname (hshort _ hleft)
          simp only [hname', hfile, hcall]
          refine ⟨_, rfl, rfl, ?_⟩
          rcases (finishLine_unterminated st.macros x.2 u t).2 with ⟨hout, hrest⟩ | ⟨hout, hrest, hrest'⟩
          · exact .inl ⟨congrArg (inc.getD [] ++ ·) hout, hrest⟩
          · refine .inr ⟨?_, hrest, hrest'⟩
            simp only [List.append_assoc] at hout ⊢
            exact congrArg (inc.getD [] ++ ·) hout

end Call

/-! ## A file that ends what it begins -/

/-- A round that leaves the conditionals around the file as they are and, if there are any, does not go
deeper than the limit. -/
def ownStep (files : List UInt8 → Option (List UInt8)) (n floor : Nat) (x : PpState) (c : UInt8)
    (s : List UInt8) : Option (Round PpState UInt8 UInt8) :=
  let name := (readDirective s).1
  if 0 < floor ∧ c = chr '#' ∧ ((name = word "else" ∨ name = word "endif") ∧ x.2.ifs.length ≤ floor ∨
      (name = word "ifdef" ∨ name = word "ifndef") ∧ maxIfDepth ≤ x.2.ifs.length) then none
  else roundStep files n x c s

/-- A text is read to its end, whatever follows it. -/
def Whole (step : PpState → UInt8 → List UInt8 → Option (Round PpState UInt8 UInt8)) (x : PpState)
    (s o : List UInt8) (x' : PpState) : Prop :=
  ∀ t, Reads step x (s ++ t) o x' t

section Own

variable {files : List UInt8 → Option (List UInt8)} {n : Nat} {base e : List (Bool × Bool)} {active : Bool}
  {macros : List Macro} {name s : List UInt8}

variable (active macros s) in
/-- A directive inside the file does the same without what is around the file. -/
theorem directive_own (hbase : parentActive base = true)
    (hfloor : base ≠ [] → name = word "else" ∨ name = word "endif" → e ≠ [])
    (hdepth : base ≠ [] → name = word "ifdef" ∨ name = word "ifndef" → (e ++ base).length < maxIfDepth) :
    ∃ e', (directive macros ⟨e ++ base, active⟩ name s).2.1.ifs = e' ++ base ∧
      directive macros ⟨e, active⟩ name s = ((directive macros ⟨e ++ base, active⟩ name s).1,
        ⟨e', (directive macros ⟨e ++ base, active⟩ name s).2.1.active⟩,
        (directive macros ⟨e ++ base, active⟩ name s).2.2) := by
  by_cases hnone : base = []
  · subst hnone
    rw [List.append_nil]
    exact ⟨_, (List.append_nil _).symm, rfl⟩
  have hfloor := hfloor hnone
  have hdepth := hdepth hnone
  have hparent : ∀ e', parentActive (e' ++ base) = parentActive e' := by
    intro e'
    cases e' with
    | nil => exact hbase
    | cons _ _ => rfl
  have hinner : e.length ≤ (e ++ base).length := by simp
  unfold directive
  by_cases hdefine : name = word "define" ∧ active = true
  · simp only [hdefine, and_self, if_true]
    exact ⟨e, rfl, rfl⟩
  simp only [if_neg hdefine]
  by_cases hifdef : name = word "ifdef"
  · have hdepth := hdepth (.inl hifdef)
    simp only [if_pos hifdef, if_pos hdepth, if_pos (Nat.lt_of_le_of_lt hinner hdepth)]
    exact ⟨_ :: e, rfl, rfl⟩
  simp only [if_neg hifdef]
  by_cases hifndef : name = word "ifndef"
  · have hdepth := hdepth (.inr hifndef)
    simp only [if_pos hifndef, if_pos hdepth, if_pos (Nat.lt_of_le_of_lt hinner hdepth)]
    exact ⟨_ :: e, rfl, rfl⟩
  simp only [if_neg hifndef]
  by_cases helse : name = word "else"
  · simp only [if_pos helse]
    cases e with
    | nil => exact absurd rfl (hfloor (.inl helse))
    | cons p e =>
      simp only [List.cons_append, Region.else_, hparent]
      split
      · exact ⟨_ :: e, rfl, rfl⟩
      · exact ⟨_ :: e, rfl, rfl⟩
  simp only [if_neg helse]
  by_cases hendif : name = word "endif"
  · simp only [if_pos hendif]
    cases e with
    | nil => exact absurd rfl (hfloor (.inr hendif))
    | cons p e =>
      simp only [List.cons_append, Region.endif, hparent]
      exact ⟨e, rfl, rfl⟩
  simp only [if_neg hendif]
  exact ⟨e, rfl, rfl⟩

/-- The rest of a line is skipped in any state. -/
theorem finishLine_eq (macros : List Macro) (r : Region) (s : List UInt8) : finishLine macros r s =
    ⟨(finishLine [] Region.init s).out, macros, r, (finishLine [] Region.init s).rest⟩ := by
  simp only [finishLine]
  split <;> rfl

theorem ownStep_eq {floor : Nat} {x : PpState} {c : UInt8} {y : Round PpState UInt8 UInt8}
    (h : ownStep files n floor x c s = some y) : roundStep files n x c s = some y ∧ (0 < floor → c = chr '#' →
      ((readDirective s).1 = word "else" ∨ (readDirective s).1 = word "endif" →
        floor < x.2.ifs.length) ∧
      ((readDirective s).1 = word "ifdef" ∨ (readDirective s).1 = word "ifndef" →
        x.2.ifs.length < maxIfDepth)) := by
  unfold ownStep at h
  dsimp only at h
  split at h
  · cases h
  · next hnot =>
    refine ⟨h, fun hpos hc => ⟨fun hname => ?_, fun hname => ?_⟩⟩
    · exact Nat.lt_of_not_le fun hle => hnot ⟨hpos, hc, .inl ⟨hname, hle⟩⟩
    · exact Nat.lt_of_not_le fun hle => hnot ⟨hpos, hc, .inr ⟨hname, hle⟩⟩

/-- A round inside the file is the same round of the file on its own. -/
theorem plainStep_own (hbase : parentActive base = true) {c : UInt8} {y : Round PpState UInt8 UInt8}
    (hdirective : 0 < base.length → c = chr '#' →
      ((readDirective s).1 = word "else" ∨ (readDirective s).1 = word "endif" →
        base.length < (e ++ base).length) ∧
      ((readDirective s).1 = word "ifdef" ∨ (readDirective s).1 = word "ifndef" →
        (e ++ base).length < maxIfDepth))
    (h : plainStep (macros, ⟨e ++ base, active⟩) c s = some y) :
    ∃ e', y.state.2.ifs = e' ++ base ∧ plainStep (macros, ⟨e, active⟩) c s =
      some ⟨y.out, (y.state.1, ⟨e', y.state.2.active⟩), y.rest⟩ := by
  unfold plainStep at h ⊢
  have hname : includeName ⟨e ++ base, active⟩ c s = includeName ⟨e, active⟩ c s := rfl
  simp only [hname] at h
  split at h
  · next hnone =>
    cases h
    simp only [hnone, step]
    by_cases hc : c = chr '#'
    · have hdirective := fun hne => hdirective (List.length_pos_iff.mpr hne) hc
      have hfloor : base ≠ [] → (readDirective s).1 = word "else" ∨ (readDirective s).1 = word "endif" →
          e ≠ [] := by
        rintro hne hclosing rfl
        exact absurd ((hdirective hne).1 hclosing) (Nat.lt_irrefl _)
      obtain ⟨e', hifs, hd⟩ := directive_own active macros (readDirective s).2 hbase hfloor
        fun hne => (hdirective hne).2
      refine ⟨e', ?_, ?_⟩
      · rw [if_pos hc, finishLine_eq]
        exact hifs
      · rw [if_pos hc, if_pos hc, hd, finishLine_eq, finishLine_eq (directive _ _ _ _).1]
    · simp only [if_neg hc]
      cases active with
      | true => exact ⟨e, rfl, rfl⟩
      | false =>
        simp only [Bool.false_eq_true, if_false]
        refine ⟨e, ?_, ?_⟩
        · rw [finishLine_eq]
        · rw [finishLine_eq, finishLine_eq macros ⟨e ++ base, false⟩]
  · cases h

/-- An `#include` inside the file leaves the conditionals alone. -/
theorem roundStep_own (hbase : parentActive base = true) {c : UInt8} {y : Round PpState UInt8 UInt8}
    (h : ownStep files n base.length (macros, ⟨e ++ base, active⟩) c s = some y) :
    ∃ e', y.state.2.ifs = e' ++ base ∧ roundStep files n (macros, ⟨e, active⟩) c s =
      some ⟨y.out, (y.state.1, ⟨e', y.state.2.active⟩), y.rest⟩ := by
  obtain ⟨hround, hdirective⟩ := ownStep_eq h
  have hsame : includeName ⟨e ++ base, active⟩ c s = includeName ⟨e, active⟩ c s := rfl
  cases hname : includeName ⟨e, active⟩ c s with
  | none =>
    rw [roundStep_plain n (hsame.trans hname)] at hround
    rw [roundStep_plain n hname]
    exact plainStep_own hbase hdirective hround
  | some found =>
    unfold roundStep action at hround ⊢
    simp only [hsame, hname] at hround ⊢
    split at hround
    · next haction =>
      cases hround
      split at haction
      · cases haction
      · next hfile =>
        cases haction
        refine ⟨e, by rw [finishLine_eq], ?_⟩
        rw [finishLine_eq, finishLine_eq macros ⟨e ++ base, active⟩]
    · next haction =>
      split at haction
      · next hfile =>
        cases haction
        split at hround
        · cases hround
        · next hcall =>
          cases hround
          refine ⟨e, rfl, ?_⟩
          simp only [hcall]
          rw [finishLine_eq _ ⟨e, active⟩, finishLine_eq _ ⟨e ++ base, active⟩]
      · cases haction

/-- A file inside a text does the same on its own. -/
theorem reads_own (hbase : parentActive base = true) {x x' : PpState} {s s' o : List UInt8}
    (h : Reads (ownStep files n base.length) x s o x' s') {e : List (Bool × Bool)}
    (he : x.2.ifs = e ++ base) : ∃ e', x'.2.ifs = e' ++ base ∧
      Reads (roundStep files n) (x.1, ⟨e, x.2.active⟩) s o (x'.1, ⟨e', x'.2.active⟩) s' := by
  induction h generalizing e with
  | refl => exact ⟨e, he, .refl _ _⟩
  | @round x x' c s s' o y hy h ih =>
    obtain ⟨macros, ⟨ifs, active⟩⟩ := x
    subst he
    obtain ⟨e₁, hifs, hround⟩ := roundStep_own hbase hy
    obtain ⟨e', hifs', hreads⟩ := ih hifs
    refine ⟨e', hifs', ?_⟩
    exact .round (r := ⟨y.out, (y.state.1, ⟨e₁, y.state.2.active⟩), y.rest⟩) hround hreads

/-- Everything in the file is skipped. -/
def Skipped (base : List (Bool × Bool)) (r : Region) : Prop :=
  ∃ e, r = ⟨e ++ base, false⟩ ∧ ∀ p ∈ e, p.1 = false

variable (macros s) in
theorem directive_skipped (hbase : parentActive base = false) {r : Region} (hr : Skipped base r)
    (hfloor : name = word "else" ∨ name = word "endif" → base.length < r.ifs.length) :
    ∃ r' s', directive macros r name s = (macros, r', s') ∧ Skipped base r' := by
  have hstay := hr
  obtain ⟨e, rfl, he⟩ := hr
  have hparent : ∀ e' : List (Bool × Bool), (∀ p ∈ e', p.1 = false) →
      parentActive (e' ++ base) = false := by
    intro e' he'
    cases e' with
    | nil => exact hbase
    | cons p e' => exact he' p List.mem_cons_self
  have hopen : ∀ b, Skipped base (Region.open_ ⟨e ++ base, false⟩ b) :=
    fun b => ⟨(false, false) :: e, rfl, by simpa using he⟩
  have hclosing : name = word "else" ∨ name = word "endif" → e ≠ [] := by
    rintro hname rfl
    exact absurd (hfloor hname) (Nat.lt_irrefl _)
  unfold directive
  rw [if_neg (by simp)]
  split
  · split
    · exact ⟨_, _, rfl, hopen _⟩
    · exact ⟨_, _, rfl, hstay⟩
  split
  · split
    · exact ⟨_, _, rfl, hopen _⟩
    · exact ⟨_, _, rfl, hstay⟩
  split
  · next helse =>
    cases e with
    | nil => exact absurd rfl (hclosing (.inl helse))
    | cons p e =>
      have he' : ∀ p ∈ e, p.1 = false := fun q hq => he q (List.mem_cons_of_mem _ hq)
      refine ⟨_, _, rfl, (false, p.2) :: e, ?_, by simpa using he'⟩
      simp [Region.else_, hparent e he']
  split
  · next hendif =>
    cases e with
    | nil => exact absurd rfl (hclosing (.inr hendif))
    | cons p e =>
      have he' : ∀ p ∈ e, p.1 = false := fun q hq => he q (List.mem_cons_of_mem _ hq)
      refine ⟨_, _, rfl, e, ?_, he'⟩
      simp [Region.endif, hparent e he']
  · exact ⟨_, _, rfl, hstay⟩

theorem finishLine_out (macros : List Macro) (r : Region) (s : List UInt8) :
    ∀ c ∈ (finishLine macros r s).out, c = 10 := by
  rw [finishLine]
  split
  · simp
  · next c rest hs =>
    have hhead := List.head?_dropWhile_not (· ≠ 10) s
    have hs : s.dropWhile (· ≠ 10) = c :: rest := hs
    rw [hs] at hhead
    simpa using hhead

/-- A file that is skipped becomes newlines. -/
theorem reads_skipped (hbase : parentActive base = false) {x x' : PpState} {s s' o : List UInt8}
    (h : Reads (ownStep files n base.length) x s o x' s') (hx : Skipped base x.2) :
    x'.1 = x.1 ∧ ∀ c ∈ o, c = 10 := by
  induction h with
  | refl => simp
  | @round x x' c s s' o y hy h ih =>
    obtain ⟨hplain, hdirective⟩ := ownStep_eq hy
    have hne : base ≠ [] := by
      rintro rfl
      cases hbase
    have hdirective := hdirective (List.length_pos_iff.mpr hne)
    have hinactive : x.2.active = false := by
      obtain ⟨e, hr, -⟩ := hx
      rw [hr]
    rw [roundStep_plain n (includeName_inactive hinactive c s)] at hplain
    have hround : y.state.1 = x.1 ∧ Skipped base y.state.2 ∧ ∀ c ∈ y.out, c = 10 := by
      unfold plainStep at hplain
      split at hplain
      · cases hplain
        simp only [step]
        split
        · next hc =>
          obtain ⟨r', s', hd, hskipped⟩ :=
            directive_skipped x.1 (readDirective s).2 hbase hx (hdirective hc).1
          rw [hd, finishLine_eq]
          exact ⟨rfl, hskipped, finishLine_out _ _ _⟩
        · simp only [hinactive, Bool.false_eq_true, if_false]
          rw [finishLine_eq]
          exact ⟨rfl, hx, finishLine_out _ _ _⟩
      · cases hplain
    obtain ⟨hmacros, hskipped, hout⟩ := hround
    obtain ⟨hmacros', hout'⟩ := ih hskipped
    refine ⟨hmacros'.trans hmacros, fun c hc => ?_⟩
    rcases List.mem_append.mp hc with hc | hc
    · exact hout c hc
    · exact hout' c hc

end Own

/-! ## The line -/

/-- `active` is the innermost conditional's. -/
def Region.Coherent (r : Region) : Prop := r.active = parentActive r.ifs

theorem directive_coherent (macros : List Macro) {r : Region} (hr : r.Coherent)
    (name s : List UInt8) : (directive macros r name s).2.1.Coherent := by
  unfold directive
  split
  · exact hr
  split
  · split
    · exact rfl
    · exact hr
  split
  · split
    · exact rfl
    · exact hr
  split
  · unfold Region.else_
    split
    · exact hr
    · split <;> rfl
  split
  · unfold Region.endif
    split
    · exact hr
    · exact rfl
  · exact hr

theorem roundStep_coherent {files : List UInt8 → Option (List UInt8)} {n : Nat} (x : PpState)
    (c : UInt8) (s : List UInt8) (y : Round PpState UInt8 UInt8) (h : roundStep files n x c s = some y)
    (hx : x.2.Coherent) : y.state.2.Coherent := by
  unfold roundStep action at h
  split at h
  · next haction =>
    cases h
    split at haction
    · cases haction
      dsimp only [step]
      split
      · rw [finishLine_eq]
        exact directive_coherent x.1 hx _ _
      split
      · exact hx
      · rw [finishLine_eq]
        exact hx
    · split at haction
      · cases haction
      · cases haction
        rw [finishLine_eq]
        exact hx
  · split at h
    · cases h
    · cases h
      exact hx

/-- The name of a file, as it may stand in an `#include`. -/
def IsFileName (f : List UInt8) : Prop :=
  f.length ≤ 31 ∧ ∀ c ∈ f, c ≠ 0 ∧ c ≠ 10 ∧ c ≠ chr '"'

instance (f : List UInt8) : Decidable (IsFileName f) :=
  inferInstanceAs (Decidable (f.length ≤ 31 ∧ ∀ c ∈ f, c ≠ 0 ∧ c ≠ 10 ∧ c ≠ chr '"'))

/-- `#include "f"` -/
def includeLine (f : List UInt8) : List UInt8 := word "#include \"" ++ f ++ word "\""

theorem directive_include {r : Region} (hactive : r.active = false) (macros : List Macro)
    (s : List UInt8) : directive macros r (word "include") s = (macros, r, s) := by
  simp only [directive, hactive, Bool.false_eq_true, and_false, if_false]
  rfl

section Line

variable {f : List UInt8}

theorem readDirective_include (u : List UInt8) :
    readDirective (word "include \"" ++ u) = (word "include", chr '"' :: u) := by
  rfl

theorem includeName_line (hf : IsFileName f) {r : Region} (hactive : r.active = true) (t : List UInt8) :
    includeName r (chr '#') (word "include \"" ++ (f ++ (chr '"' :: t))) = some (f, t) := by
  have hquote : (f ++ chr '"' :: t).takeWhile (· ≠ chr '"') = f := by
    rw [takeWhile_append_stop (by simp), List.takeWhile_eq_self_iff]
    simpa using fun c hc => (hf.2 c hc).2.2
  have hzero : f.takeWhile (· ≠ 0) = f := by
    rw [List.takeWhile_eq_self_iff]
    simpa using fun c hc => (hf.2 c hc).1
  simp only [includeName, readDirective_include, hactive, and_self, if_true, hquote,
    List.take_of_length_le hf.1, hzero, List.drop_left]
  rfl

theorem includeLine_eq (f t : List UInt8) : includeLine f ++ t =
    chr '#' :: (word "include \"" ++ (f ++ (chr '"' :: t))) := by
  simp only [includeLine, List.append_assoc]
  rfl

variable {files : List UInt8 → Option (List UInt8)} {macros : List Macro} {r : Region}

/-- Where lines are skipped, the line is. -/
theorem roundStep_skip (hf : IsFileName f) (hactive : r.active = false) (n : Nat) (t : List UInt8) :
    roundStep files n (macros, r) (chr '#') (word "include \"" ++ (f ++ (chr '"' :: 10 :: t))) =
      some ⟨[10], (macros, r), t⟩ := by
  have hline : word "include \"" ++ (f ++ (chr '"' :: 10 :: t)) =
      (word "include \"" ++ (f ++ [chr '"'])) ++ 10 :: t := by simp
  have hnewline : (10 : UInt8) ∉ word "include \"" ++ (f ++ [chr '"']) := by
    intro hin
    simp only [List.mem_append, List.mem_singleton] at hin
    rcases hin with hin | hin | hin
    · revert hin
      decide
    · exact (hf.2 10 hin).2.1 rfl
    · revert hin
      decide
  have hname : includeName r (chr '#') ((word "include \"" ++ (f ++ [chr '"'])) ++ 10 :: t) = none := by
    simp [includeName, hactive]
  have hround := plainStep_directive (x := (macros, r)) hname hnewline
  rw [readDirective_include, directive_include hactive] at hround
  rw [hline]
  rw [roundStep_plain n hname]
  exact hround

/-- A file that is empty or missing is nothing. -/
theorem roundStep_empty (hf : IsFileName f) (hfile : (files f).getD [] = []) (hactive : r.active = true)
    (n : Nat) (t : List UInt8) :
    roundStep files n (macros, r) (chr '#') (word "include \"" ++ (f ++ (chr '"' :: 10 :: t))) =
      some ⟨[10], (macros, r), t⟩ := by
  cases hread : files f with
  | none =>
    simp only [roundStep, action, includeName_line hf hactive, hread]
    rfl
  | some bytes =>
    rw [hread] at hfile
    obtain rfl : bytes = [] := hfile
    simp only [roundStep, action, includeName_line hf hactive, hread]
    rfl

/-- Where the file comes to another one, what is left of it is left alone. -/
def Undisturbed (files : List UInt8 → Option (List UInt8)) (n : Nat) (content : List UInt8) : Prop :=
  ∀ o x c s bytes rest, Reads (roundStep files n) ([], Region.init) content o x (c :: s) →
    action files x.1 x.2 c s = .file bytes rest →
      (Source.included content.length).Spared files bytes rest.length

/-- A file is preprocessed on its own. -/
theorem roundStep_file (hf : IsFileName f) {content : List UInt8} (hfile : files f = some content)
    (hcontent : content ≠ []) (hactive : r.active = true) {n : Nat} {x' : PpState} {o : List UInt8}
    (h : Reads (roundStep files n) ([], Region.init) content o x' []) (hspared : Undisturbed files n content)
    (hfits : o.length < includeBufSz) : ∃ n₁, ∀ N ≥ n₁, ∀ t,
      roundStep files N (macros, r) (chr '#') (word "include \"" ++ (f ++ (chr '"' :: 10 :: t))) =
        some ⟨o ++ [10], (x'.1, r), t⟩ := by
  obtain ⟨b, bytes, rfl⟩ := List.exists_cons_of_ne_nil hcontent
  have hbuf := rest_included Bytes.zeros (b :: bytes)
  have hroom : ([] ++ o).length ≤ includeBufSz - 1 := Nat.le_sub_one_of_lt hfits
  obtain ⟨n₁, buf', hcall⟩ := preprocessLoop_of_reads h rfl _ hbuf hspared hroom
  refine ⟨n₁, fun N hN t => ?_⟩
  have hcall := preprocessLoop_mono hN hcall
  simp only [roundStep, action, includeName_line hf hactive, hfile, hcall]
  rfl

/-- The line becomes what the text of the file becomes, up to newlines. -/
theorem reads_includeLine {content o : List UInt8} {macros' : List Macro} {n : Nat} (hf : IsFileName f)
    (hfile : files f = some content) (hr : r.Coherent)
    (hown : Whole (ownStep files n r.ifs.length) (macros, r) (content ++ [10]) o (macros', r))
    (hmacros : r.active = true → content ≠ [] → macros = [])
    (hspared : r.active = true → Undisturbed files n content) (hfits : o.length ≤ includeBufSz) :
    ∃ n₁ o', (∀ N ≥ n₁, ∀ t,
        Reads (roundStep files N) (macros, r) (includeLine f ++ 10 :: t) o' (macros', r) t) ∧
      o'.length ≤ o.length ∧ o'.filter (· ≠ 10) = o.filter (· ≠ 10) := by
  have hend (t : List UInt8) : Reads (ownStep files n r.ifs.length) (macros, r) (content ++ 10 :: t) o
      (macros', r) t := by
    have h := hown t
    rwa [List.append_assoc] at h
  -- a text that goes on shows what the file does up to its last newline
  have hunterminated {x x' : PpState} (h : Reads (roundStep files n) x (content ++ 10 :: [10]) o x' [10]) :
      ∃ o', o = o' ++ [10] ∧ Reads (roundStep files n) x content o' x' [] := by
    refine reads_unterminated_of (f := roundStep files n) (t := [10]) (fun _ _ _ _ => roundStep_suffix) (fun x => ?_)
      (fun x c s y => roundStep_unterminated (List.cons_ne_nil _ _)) h
    rw [roundStep_plain n (includeName_eq_none (by decide) x.2)]
    exact plainStep_newline [10]
  obtain ⟨o₀, rfl, hplain⟩ := hunterminated ((hend [10]).mono fun x c s y hy => (ownStep_eq hy).1)
  simp only [includeLine_eq f]
  cases hactive : r.active with
  | false =>
    have hskipped : Skipped r.ifs r := ⟨[], by rw [List.nil_append, ← hactive], by simp⟩
    obtain ⟨hsame, hnewlines⟩ := reads_skipped (hr.symm.trans hactive) (hend []) hskipped
    have hsame : macros' = macros := hsame
    rw [hsame]
    refine ⟨0, [10], fun N _ t => .single (roundStep_skip hf hactive N t), by simp, ?_⟩
    have hfilter : (o₀ ++ [10]).filter (· ≠ 10) = [] := by
      rw [List.filter_eq_nil_iff]
      simpa using hnewlines
    rw [hfilter]
    rfl
  | true =>
    by_cases hcontent : content = []
    · subst hcontent
      obtain ⟨rfl, hsame, -⟩ := hplain.of_nil
      cases hsame
      exact ⟨0, [10], fun N _ t => .single (roundStep_empty hf (by rw [hfile]; rfl) hactive N t), by simp, rfl⟩
    · have hnone := hmacros hactive hcontent
      subst hnone
      obtain ⟨e, hifs, halone⟩ := reads_own (hr.symm.trans hactive) (hend [10]) (List.nil_append _).symm
      have he : e = [] := by simpa using hifs
      subst he
      simp only [hactive] at halone
      obtain ⟨o', ho', halone⟩ := hunterminated halone
      obtain rfl := List.append_cancel_right ho'
      have hlength : o₀.length < includeBufSz := by simpa [Nat.succ_le_iff] using hfits
      obtain ⟨n₁, hround⟩ : ∃ n₁, ∀ N ≥ n₁, ∀ t, roundStep files N ([], r) (chr '#')
          (word "include \"" ++ (f ++ (chr '"' :: 10 :: t))) = some ⟨o₀ ++ [10], (macros', r), t⟩ :=
        roundStep_file hf hfile hcontent hactive halone (hspared hactive) hlength
      exact ⟨n₁, o₀ ++ [10], fun N hN t => .single (hround N hN t), Nat.le_refl _, rfl⟩

/-- A text that is preprocessed is read in rounds. -/
theorem reads_of_preprocess {fuel n outMax : Nat} (hle : fuel ≤ n) {t out : List UInt8}
    {st st' : Statics} (h : preprocess files fuel (.text t) outMax st = some (st', some out)) :
    ∃ o x', Reads (roundStep files n) ([], Region.init) t o x' [] ∧ x'.1 = st'.macros ∧
      out = o.take (outMax - 1) := by
  have hout : ([] : List UInt8).length ≤ outMax - 1 := Nat.zero_le _
  exact reads_of_preprocessLoop (x := ([], Region.init)) hle hout h

theorem preprocess_of_reads {n outMax : Nat} {t o : List UInt8} {x' : PpState}
    (h : Reads (roundStep files n) ([], Region.init) t o x' []) (hroom : o.length ≤ outMax - 1)
    (st : Statics) : ∃ fuel buf, preprocess files fuel (.text t) outMax st =
      some (⟨x'.1, buf⟩, some o) :=
  preprocessLoop_of_reads h rfl st.includeBuf rfl (fun _ _ _ _ _ _ _ _ => trivial) hroom

/-- The output is all there is: more room makes no difference to it. -/
def Entire (files : List UInt8 → Option (List UInt8)) (t : List UInt8) (outMax : Nat) (st : Statics)
    (out : List UInt8) : Prop :=
  ∀ size ≥ outMax, ∃ fuel st', preprocess files fuel (.text t) size st = some (st', some out)

/-- What fits is what the rounds put out. -/
theorem Entire.reads {n outMax : Nat} {t o out : List UInt8} {st : Statics} {x' : PpState}
    (h : Entire files t outMax st out) (hreads : Reads (roundStep files n) ([], Region.init) t o x' []) :
    o = out ∧ out.length ≤ outMax - 1 := by
  have hall : ∀ size ≥ outMax, out = o.take (size - 1) := by
    intro size hsize
    obtain ⟨fuel, st', hrun⟩ := h size hsize
    obtain ⟨o', x'', hreads', -, hout⟩ := reads_of_preprocess (Nat.le_max_right n fuel) hrun
    obtain ⟨o'', rfl, hnothing⟩ :=
      (hreads.mono (roundStep_mono (Nat.le_max_left n fuel))).split hreads' rfl
    obtain ⟨rfl, -, -⟩ := hnothing.of_nil
    rw [hout, List.append_nil]
  have hmore := hall (max outMax (o.length + 1)) (Nat.le_max_left _ _)
  rw [List.take_of_length_le (by omega)] at hmore
  have hlength := congrArg List.length (hall outMax (Nat.le_refl _))
  rw [List.length_take] at hlength
  exact ⟨hmore.symm, by omega⟩

/-- What leaves room fits. -/
theorem entire_of_lt {fuel outMax : Nat} {t out : List UInt8} {st st' : Statics}
    (h : preprocess files fuel (.text t) outMax st = some (st', some out)) (hlt : out.length < outMax - 1) :
    Entire files t outMax st out := by
  intro size hsize
  obtain ⟨o, x', hreads, -, hout⟩ := reads_of_preprocess (Nat.le_refl fuel) h
  have hlength := congrArg List.length hout
  rw [List.length_take] at hlength
  rw [List.take_of_length_le (by omega)] at hout
  obtain ⟨fuel', buf, hrun⟩ := preprocess_of_reads hreads (show o.length ≤ size - 1 by omega) st
  rw [hout]
  exact ⟨fuel', _, hrun⟩

/-- An included file is as good as its text, up to newlines, if in effect it finds no macro
defined, ends every literal and every conditional that it begins, and is left alone by the files that it
includes itself. -/
theorem include_inlined {content pre post o₁ o out : List UInt8} {macros₁ macros₂ : List Macro}
    {n fuel outMax : Nat} {st st' : Statics} (hf : IsFileName f) (hfile : files f = some content)
    (hpre : Whole (roundStep files n) ([], Region.init) pre o₁ (macros₁, r))
    (hown : Whole (ownStep files n r.ifs.length) (macros₁, r) (content ++ [10]) o (macros₂, r))
    (hmacros : r.active = true → content ≠ [] → macros₁ = [])
    (hspared : r.active = true → Undisturbed files n content) (hfits : o.length ≤ includeBufSz)
    (hrun : preprocess files fuel (.text (pre ++ (content ++ 10 :: post))) outMax st = some (st', some out))
    (hroom : Entire files (pre ++ (content ++ 10 :: post)) outMax st out) :
    ∃ fuel₁, ∀ fuel' ≥ fuel₁, ∃ buf out',
      preprocess files fuel' (.text (pre ++ (includeLine f ++ 10 :: post))) outMax st =
        some (⟨st'.macros, buf⟩, some out') ∧ out'.filter (· ≠ 10) = out.filter (· ≠ 10) := by
  have hcoherent : r.Coherent :=
    Reads.keeps (P := fun x : PpState => x.2.Coherent) roundStep_coherent (hpre []) rfl
  obtain ⟨n₁, oLine, hline, hlength, hfilter⟩ :=
    reads_includeLine hf hfile hcoherent hown hmacros hspared hfits
  let N := max (max n fuel) n₁
  have hN : n ≤ N ∧ fuel ≤ N ∧ n₁ ≤ N := by omega
  have hpre' : ∀ t, Reads (roundStep files N) ([], Region.init) (pre ++ t) o₁ (macros₁, r) t :=
    fun t => (hpre t).mono (roundStep_mono hN.1)
  -- the text with the contents, read up to them, over them and to the end
  obtain ⟨o', x', hreads, hx', -⟩ := reads_of_preprocess hN.2.1 hrun
  obtain ⟨rfl, hshort⟩ := hroom.reads hreads
  obtain ⟨o₂, rfl, hrest⟩ := (hpre' _).split hreads rfl
  have hcontent : Reads (roundStep files N) (macros₁, r) (content ++ 10 :: post) o (macros₂, r) post := by
    have h := (hown post).mono fun x c s y hy => roundStep_mono hN.1 x c s y (ownStep_eq hy).1
    rwa [List.append_assoc] at h
  obtain ⟨o₃, rfl, hpost⟩ := hcontent.split hrest rfl
  -- the text with the line, read over the line where the other was over the contents
  have hall := (hpre' _).trans ((hline N hN.2.2 post).trans hpost)
  have hroom' : (o₁ ++ (oLine ++ o₃)).length ≤ outMax - 1 := by
    simp only [List.length_append] at hshort ⊢
    omega
  obtain ⟨fuel₁, buf, hrun'⟩ := preprocess_of_reads hall hroom' st
  refine ⟨fuel₁, fun fuel' hfuel => ⟨buf, o₁ ++ (oLine ++ o₃), ?_, ?_⟩⟩
  · rw [← hx']
    exact preprocessLoop_mono hfuel hrun'
  · simp only [List.filter_append, hfilter]

end Line

/-- The file `f` has `#include "g"` and `#define A 1`, and the file `g` has `y`. -/
def defineFile : List UInt8 → Option (List UInt8) := fun name =>
  if name = word "f" then some (word "#include \"g\"\n#define A 1")
  else if name = word "g" then some (word "y")
  else none

/-- A macro of the file is known after it. -/
theorem include_inlined_define : ∃ fuel₁, ∀ fuel' ≥ fuel₁, ∃ buf out',
    preprocess defineFile fuel' (.text (word "x " ++ (includeLine (word "f") ++ 10 :: word "A"))) 100
      ⟨[], Bytes.zeros⟩ = some (⟨[⟨word "A", word "1"⟩], buf⟩, some out') ∧
        out'.filter (· ≠ 10) = (word "x y\n\n1").filter (· ≠ 10) := by
  have hpre : Whole (roundStep defineFile 3) ([], Region.init) (word "x ") (word "x ")
      ([], Region.init) := by
    intro t
    have hx : roundStep defineFile 3 ([], Region.init) (chr 'x') (32 :: t) =
        some ⟨word "x", ([], Region.init), 32 :: t⟩ := rfl
    have hblank : roundStep defineFile 3 ([], Region.init) 32 t =
        some ⟨[32], ([], Region.init), t⟩ := rfl
    exact .round hx (.single hblank)
  have hown : Whole (ownStep defineFile 3 0) ([], Region.init) (word "#include \"g\"\n#define A 1" ++ [10])
      (word "y\n\n") ([⟨word "A", word "1"⟩], Region.init) := by
    intro t
    have hg : roundStep defineFile 3 ([], Region.init) (chr '#')
        (word "include \"g\"\n#define A 1" ++ 10 :: t) =
          some ⟨word "y\n", ([], Region.init), word "#define A 1" ++ 10 :: t⟩ := rfl
    have hword : readDirective (word "define A 1") = (word "define", word "A 1") := by decide
    have hname : includeName Region.init (chr '#') (word "define A 1" ++ 10 :: t) = none := by
      simp only [includeName, readDirective_newline, hword]
      exact if_neg (by decide)
    have hround := plainStep_directive (x := ([], Region.init)) hname (by decide)
    have hdirective : directive [] Region.init (word "define") (word "A 1") =
        ([⟨word "A", word "1"⟩], Region.init, []) := by decide
    rw [hword, hdirective] at hround
    have hplain : roundStep defineFile 3 ([], Region.init) (chr '#') (word "define A 1" ++ 10 :: t) =
        plainStep ([], Region.init) (chr '#') (word "define A 1" ++ 10 :: t) := roundStep_plain 3 hname
    exact .round hg (.single (hplain.trans hround))
  have hspared : Undisturbed defineFile 3 (word "#include \"g\"\n#define A 1") := by
    have hround : plainStep ([], Region.init) (chr 'y') [] = some ⟨word "y", ([], Region.init), []⟩ := rfl
    have hy : Reads plainStep ([], Region.init) (word "y") (word "y") ([], Region.init) [] := .single hround
    intro o x c s bytes rest h haction
    cases h with
    | refl =>
      cases haction
      exact Source.spared_of_short hy (by decide)
    | round hr h =>
      have hg : roundStep defineFile 3 ([], Region.init) (chr '#') (word "include \"g\"\n#define A 1") =
          some ⟨word "y\n", ([], Region.init), word "#define A 1"⟩ := rfl
      cases hr.symm.trans hg
      cases h with
      | refl => cases haction
      | round hr h =>
        have hdefine : roundStep defineFile 3 ([], Region.init) (chr '#') (word "define A 1") =
            some ⟨[], ([⟨word "A", word "1"⟩], Region.init), []⟩ := rfl
        cases hr.symm.trans hdefine
        exact absurd h.of_nil.2.2 (List.cons_ne_nil _ _)
  obtain ⟨⟨st', _⟩, hrun, hst'⟩ := Option.map_eq_some_iff.mp
    (show (preprocess defineFile 30
      (.text (word "x " ++ (word "#include \"g\"\n#define A 1" ++ 10 :: word "A"))) 100
      ⟨[], Bytes.zeros⟩).map (fun v => (v.1.macros, v.2)) =
        some ([⟨word "A", word "1"⟩], some (word "x y\n\n1")) by decide)
  obtain ⟨hmacros, rfl⟩ := Prod.mk.inj hst'
  have hname : IsFileName (word "f") := by decide
  have hfile : defineFile (word "f") = some (word "#include \"g\"\n#define A 1") := rfl
  have h := include_inlined hname hfile hpre hown (fun _ _ => rfl) (fun _ => hspared) (by decide) hrun
    (entire_of_lt hrun (by decide))
  rwa [hmacros] at h

/-- The macros before the line are not known after it: of `#define A 1`, the line of a file with
`x`, and `A`. -/
theorem include_forgets_macros : ¬∀ (files : List UInt8 → Option (List UInt8))
    (f content pre post out out' : List UInt8) (fuel outMax : Nat) (st st₁ st₂ : Statics),
    IsFileName f → files f = some content → content.length < includeBufSz → chr '#' ∉ content →
    pre.getLast? = some 10 →
    preprocess files fuel (.text (pre ++ (content ++ 10 :: post))) outMax st = some (st₁, some out) →
    out.length < outMax - 1 →
    preprocess files fuel (.text (pre ++ (includeLine f ++ 10 :: post))) outMax st =
      some (st₂, some out') → out'.length < outMax - 1 →
    out'.filter (· ≠ 10) = out.filter (· ≠ 10) := by
  intro h
  obtain ⟨⟨st₁, _⟩, hcontent, rfl⟩ := Option.map_eq_some_iff.mp
    (show (preprocess (fun _ => some (word "x")) 30
      (.text (word "#define A 1\n" ++ (word "x" ++ 10 :: word "A"))) 100 ⟨[], Bytes.zeros⟩).map (·.2) =
        some (some (word "\nx\n1")) by decide)
  obtain ⟨⟨st₂, _⟩, hline, rfl⟩ := Option.map_eq_some_iff.mp
    (show (preprocess (fun _ => some (word "x")) 30
      (.text (word "#define A 1\n" ++ (includeLine (word "f") ++ 10 :: word "A"))) 100
        ⟨[], Bytes.zeros⟩).map (·.2) = some (some (word "\nx\nA")) by decide)
  have hname : IsFileName (word "f") := by decide
  have hsame := h (fun _ => some (word "x")) (word "f") (word "x") (word "#define A 1\n") (word "A")
    _ _ _ _ _ _ _ hname rfl (by decide) (by decide) rfl hcontent (by decide) hline (by decide)
  revert hsame
  decide

end RainbowOs.Cc
