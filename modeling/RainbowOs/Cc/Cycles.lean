import RainbowOs.Cc.Include
import RainbowOs.Lib.Descent
import Mathlib.Data.FinEnum
import Mathlib.Data.Set.Finite.List

/-!
# Files that include each other

`preprocess` takes its own position on in every round, so a call of it ends
unless a call for an included file does not. That call begins with no macro,
whatever the file that includes it has defined: so a file that is included
again before its end is included again without end, and a guard of `#ifndef`
does not help.
-/

namespace RainbowOs.Cc

open RainbowOs.Lib
open Relation

/-- A place in the loop of `preprocess`. -/
structure Place where
  st : Statics
  region : Region
  ip : Nat
  out : List UInt8

/-- The place that a call begins at. -/
def Place.start (buf : Bytes) : Place := ⟨⟨[], buf⟩, Region.init, 0, []⟩

/-- What is left to read at a place. -/
def Place.left (a : Place) (src : Source) : List UInt8 := src.rest a.st.includeBuf a.ip

/-- The call for a file, read into a buffer. -/
def callFile (files : List UInt8 → Option (List UInt8)) (fuel : Nat) (bytes : List UInt8) (buf : Bytes) :
    Option (Statics × Option (List UInt8)) :=
  preprocessLoop files fuel (.included bytes.length) includeBufSz
    ⟨[], buf.store 0 (bytes ++ [0])⟩ Region.init 0 []

/-- The place after a round at `c` that reads no file. -/
def Place.plain (a : Place) (outMax : Nat) (c : UInt8) (s : List UInt8) (x : Step) : Place :=
  ⟨{ a.st with macros := x.macros }, x.region, a.ip + ((c :: s).length - x.rest.length), emit outMax a.out x.out⟩

/-- The place after a round at `c` that has read a file, whose call left `st` and `inc`. -/
def Place.included (a : Place) (src : Source) (outMax : Nat) (c : UInt8) (s rest : List UInt8)
    (st : Statics) (inc : List UInt8) : Place :=
  let ip := a.ip + ((c :: s).length - rest.length)
  let left := src.rest st.includeBuf ip
  let x := finishLine st.macros a.region left
  ⟨st, a.region, ip + (left.length - x.rest.length), emit outMax (a.out ++ inc) x.out⟩

/-- A round of the loop that goes on. -/
inductive Goes (files : List UInt8 → Option (List UInt8)) (src : Source) (outMax : Nat) : Place → Place → Prop
  | plain {a c s x} (hs : a.left src = c :: s)
      (haction : action files a.st.macros a.region c s = .plain x) :
      Goes files src outMax a (a.plain outMax c s x)
  | file {a c s bytes rest fuel st inc} (hs : a.left src = c :: s)
      (haction : action files a.st.macros a.region c s = .file bytes rest)
      (hcall : callFile files fuel bytes a.st.includeBuf = some (st, inc))
      (hroom : ¬outMax - 1 < a.out.length + (inc.getD []).length) :
      Goes files src outMax a (a.included src outMax c s rest st (inc.getD []))

/-- A source comes, from a place on, to an `#include` of a file of some content. -/
inductive Includes (files : List UInt8 → Option (List UInt8)) (src : Source) (outMax : Nat) :
    Place → List UInt8 → Prop
  | here {a c s bytes rest} (hs : a.left src = c :: s)
      (haction : action files a.st.macros a.region c s = .file bytes rest) : Includes files src outMax a bytes
  | later {a b bytes} (hgoes : Goes files src outMax a b) (h : Includes files src outMax b bytes) :
      Includes files src outMax a bytes

/-- A file comes to an `#include` of another one. -/
def FileIncludes (files : List UInt8 → Option (List UInt8)) (a b : List UInt8) : Prop :=
  Includes files (.included a.length) includeBufSz (.start (Bytes.zeros.store 0 (a ++ [0]))) b

section Cycles

variable {files : List UInt8 → Option (List UInt8)} {src : Source} {outMax : Nat}

/-! ## What is included -/

theorem length_rest (src : Source) (buf buf' : Bytes) (ip : Nat) :
    (src.rest buf ip).length = (src.rest buf' ip).length := by
  cases src with
  | text s => rfl
  | included len => simp [Source.rest]

theorem includeName_length {r : Region} {c : UInt8} {s name rest : List UInt8}
    (h : includeName r c s = some (name, rest)) : name.length ≤ 31 := by
  unfold includeName at h
  dsimp only at h
  split at h
  · split at h
    · cases h
    · split at h
      · cases h
        exact Nat.le_trans (List.takeWhile_prefix _).length_le (List.length_take_le _ _)
      · cases h
  · cases h

theorem action_file_named {macros : List Macro} {r : Region} {c : UInt8} {s bytes rest : List UInt8}
    (h : action files macros r c s = .file bytes rest) :
    ∃ name : List UInt8, name.length ≤ 31 ∧ files name = some bytes := by
  unfold action at h
  split at h
  · cases h
  · next name s' hname =>
    split at h
    · next b bytes' hfile =>
      cases h
      exact ⟨name, includeName_length hname, hfile⟩
    · cases h

theorem named_of_includes {a : Place} {bytes : List UInt8} (h : Includes files src outMax a bytes) :
    ∃ name : List UInt8, name.length ≤ 31 ∧ files name = some bytes := by
  induction h with
  | here _ haction => exact action_file_named haction
  | later _ _ ih => exact ih

/-- There are only so many names, and so many files. -/
theorem finite_named (files : List UInt8 → Option (List UInt8)) :
    {bytes | ∃ name : List UInt8, name.length ≤ 31 ∧ files name = some bytes}.Finite := by
  refine ((List.finite_length_le UInt8 31).image fun name => (files name).getD []).subset ?_
  rintro bytes ⟨name, hname, hfile⟩
  exact ⟨name, hname, by simp [hfile]⟩

/-! ## Rounds -/

theorem callFile_mono {n fuel : Nat} (hle : n ≤ fuel) {bytes : List UInt8} {buf : Bytes}
    {v : Statics × Option (List UInt8)} (h : callFile files n bytes buf = some v) :
    callFile files fuel bytes buf = some v := preprocessLoop_mono hle h

/-- Whether a call returns does not depend on what was in the buffer. -/
theorem callFile_returns {n : Nat} {bytes : List UInt8} {buf : Bytes}
    (h : ∃ v, callFile files n bytes buf = some v) (buf' : Bytes) :
    ∃ v, callFile files n bytes buf' = some v := by
  obtain ⟨⟨st, inc⟩, h⟩ := h
  obtain ⟨buf'', h'⟩ := call_eq (Nat.le_refl n) buf h buf'
  exact ⟨_, h'⟩

/-- A place, its loop and a round of it. -/
theorem loop_plain {fuel : Nat} {a : Place} {c : UInt8} {s : List UInt8} {x : Step}
    (hs : a.left src = c :: s) (haction : action files a.st.macros a.region c s = .plain x) :
    preprocessLoop files (fuel + 1) src outMax a.st a.region a.ip a.out =
      preprocessLoop files fuel src outMax (a.plain outMax c s x).st (a.plain outMax c s x).region
        (a.plain outMax c s x).ip (a.plain outMax c s x).out := by
  have hs : src.rest a.st.includeBuf a.ip = c :: s := hs
  rw [preprocessLoop]
  simp only [hs, haction]
  rfl

theorem loop_file {fuel : Nat} {a : Place} {c : UInt8} {s bytes rest : List UInt8} {st : Statics}
    {inc : Option (List UInt8)} (hs : a.left src = c :: s)
    (haction : action files a.st.macros a.region c s = .file bytes rest)
    (hcall : callFile files fuel bytes a.st.includeBuf = some (st, inc)) :
    preprocessLoop files (fuel + 1) src outMax a.st a.region a.ip a.out =
      if outMax - 1 < a.out.length + (inc.getD []).length then some (st, none)
      else
        let b := a.included src outMax c s rest st (inc.getD [])
        preprocessLoop files fuel src outMax b.st b.region b.ip b.out := by
  have hs : src.rest a.st.includeBuf a.ip = c :: s := hs
  unfold callFile at hcall
  rw [preprocessLoop]
  simp only [hs, haction, hcall]
  rfl

/-- A loop that returns has returned from every place that it goes on to. -/
theorem returns_of_goes {a b : Place} (hgoes : Goes files src outMax a b) {fuel : Nat}
    {v : Statics × Option (List UInt8)}
    (h : preprocessLoop files (fuel + 1) src outMax a.st a.region a.ip a.out = some v) :
    preprocessLoop files fuel src outMax b.st b.region b.ip b.out = some v := by
  cases hgoes with
  | plain hs haction => rwa [loop_plain hs haction] at h
  | @file c s bytes rest n st inc hs haction hcall hroom =>
    cases hcall' : callFile files fuel bytes a.st.includeBuf with
    | none =>
      have hs : src.rest a.st.includeBuf a.ip = c :: s := hs
      unfold callFile at hcall'
      rw [preprocessLoop] at h
      simp [hs, haction, hcall'] at h
    | some called =>
      obtain ⟨st', inc'⟩ := called
      -- with more fuel, both calls are one
      have heq := (callFile_mono (Nat.le_max_left n fuel) hcall).symm.trans
        (callFile_mono (Nat.le_max_right n fuel) hcall')
      cases heq
      rwa [loop_file hs haction hcall', if_neg hroom] at h

/-- A loop that returns calls nothing that does not, and calls it with less fuel. -/
theorem call_of_includes {a : Place} {bytes : List UInt8} (hincludes : Includes files src outMax a bytes)
    {fuel : Nat} {v : Statics × Option (List UInt8)}
    (h : preprocessLoop files fuel src outMax a.st a.region a.ip a.out = some v) :
    ∃ m < fuel, ∃ v, callFile files m bytes Bytes.zeros = some v := by
  induction hincludes generalizing fuel with
  | @here a c s bytes rest hs haction =>
    cases fuel with
    | zero => cases h
    | succ fuel =>
      cases hcall : callFile files fuel bytes a.st.includeBuf with
      | some v => exact ⟨fuel, Nat.lt_succ_self fuel, callFile_returns ⟨v, hcall⟩ _⟩
      | none =>
        have hs : src.rest a.st.includeBuf a.ip = c :: s := hs
        unfold callFile at hcall
        rw [preprocessLoop] at h
        simp [hs, haction, hcall] at h
  | later hgoes _ ih =>
    cases fuel with
    | zero => cases h
    | succ fuel =>
      obtain ⟨m, hm, hcall⟩ := ih (returns_of_goes hgoes h)
      exact ⟨m, Nat.lt_succ_of_lt hm, hcall⟩

/-- The loop takes its position on; so it returns if all that it calls does. -/
theorem loop_returns {n : Nat} {a : Place} (hn : (a.left src).length ≤ n)
    (hcalls : ∀ bytes, Includes files src outMax a bytes →
      ∃ fuel v, callFile files fuel bytes Bytes.zeros = some v) :
    ∃ fuel v, preprocessLoop files fuel src outMax a.st a.region a.ip a.out = some v := by
  induction n generalizing a with
  | zero =>
    have hs : src.rest a.st.includeBuf a.ip = [] := List.length_eq_zero_iff.mp (Nat.le_zero.mp hn)
    exact ⟨1, (a.st, some a.out), by rw [preprocessLoop]; simp only [hs]⟩
  | succ n ih =>
    cases hs : a.left src with
    | nil =>
      have hs : src.rest a.st.includeBuf a.ip = [] := hs
      exact ⟨1, (a.st, some a.out), by rw [preprocessLoop]; simp only [hs]⟩
    | cons c s =>
      rw [hs, List.length_cons] at hn
      cases haction : action files a.st.macros a.region c s with
      | plain x =>
        have hsuffix := action_plain_suffix haction
        have hleft : (a.plain outMax c s x).left src = x.rest :=
          Source.rest_suffix hs (hsuffix.trans (List.suffix_cons c s))
        have hlength : ((a.plain outMax c s x).left src).length ≤ n := by
          rw [hleft]
          exact Nat.le_trans hsuffix.length_le (Nat.le_of_succ_le_succ hn)
        obtain ⟨fuel, v, hloop⟩ := ih hlength fun bytes h => hcalls bytes (.later (.plain hs haction) h)
        exact ⟨fuel + 1, v, by rw [loop_plain hs haction, hloop]⟩
      | file bytes rest =>
        have hsuffix := action_file_suffix haction
        obtain ⟨n₁, hn₁⟩ := hcalls bytes (.here hs haction)
        obtain ⟨⟨st, inc⟩, hcall⟩ := callFile_returns hn₁ a.st.includeBuf
        by_cases hroom : outMax - 1 < a.out.length + (inc.getD []).length
        · exact ⟨n₁ + 1, (st, none), by rw [loop_file hs haction hcall, if_pos hroom]⟩
        · have hlength : ((a.included src outMax c s rest st (inc.getD [])).left src).length ≤ n := by
            -- what is left is as long as what was left before the call
            have hrest : src.rest a.st.includeBuf (a.ip + ((c :: s).length - rest.length)) = rest :=
              Source.rest_suffix hs (hsuffix.trans (List.suffix_cons c s))
            have hleft := length_rest src st.includeBuf a.st.includeBuf
              (a.ip + ((c :: s).length - rest.length))
            rw [hrest] at hleft
            have hfinish := finishLine_suffix st.macros a.region
              (src.rest st.includeBuf (a.ip + ((c :: s).length - rest.length)))
            have hat : (a.included src outMax c s rest st (inc.getD [])).left src = _ :=
              Source.rest_suffix rfl hfinish
            rw [hat]
            have := hfinish.length_le
            have := hsuffix.length_le
            omega
          obtain ⟨n₂, v, hloop⟩ := ih hlength fun bytes' h =>
            hcalls bytes' (.later (.file hs haction hcall hroom) h)
          refine ⟨max n₁ n₂ + 1, v, ?_⟩
          rw [loop_file hs haction (callFile_mono (Nat.le_max_left n₁ n₂) hcall), if_neg hroom]
          exact preprocessLoop_mono (Nat.le_max_right n₁ n₂) hloop

/-! ## Circles -/

/-- A call that returns with some fuel calls with less. -/
theorem fileIncludes_lt (n : Nat) (a b : List UInt8) (ha : ∃ v, callFile files n a Bytes.zeros = some v)
    (h : FileIncludes files a b) : ∃ m < n, ∃ v, callFile files m b Bytes.zeros = some v := by
  obtain ⟨v, ha⟩ := ha
  exact call_of_includes h ha

theorem callFile_returns_of_acc {a : List UInt8} (h : Acc (fun b a => FileIncludes files a b) a) :
    ∃ fuel v, callFile files fuel a Bytes.zeros = some v := by
  induction h with
  | intro a _ ih => exact loop_returns (a := .start _) (Nat.le_refl _) ih

/-- `preprocess` returns if and only if no file that it comes to is included again, by itself or by
what it includes, before its end. -/
theorem preprocess_returns_iff (files : List UInt8 → Option (List UInt8)) (source : List UInt8) (outMax : Nat)
    (st : Statics) :
    (∃ fuel v, preprocess files fuel (.text source) outMax st = some v) ↔
      ∀ a b, Includes files (.text source) outMax (.start st.includeBuf) a →
        ReflTransGen (FileIncludes files) a b → ¬TransGen (FileIncludes files) b b := by
  constructor
  · rintro ⟨fuel, v, h⟩ a b ha hab
    have hcall : ∃ m v, callFile files m b Bytes.zeros = some v := by
      induction hab with
      | refl =>
        obtain ⟨m, -, hm⟩ := call_of_includes ha h
        exact ⟨m, hm⟩
      | tail _ hbc ih =>
        obtain ⟨m, hm⟩ := ih
        obtain ⟨k, -, hk⟩ := fileIncludes_lt m _ _ hm hbc
        exact ⟨k, hk⟩
    obtain ⟨m, hm⟩ := hcall
    exact not_cycle_of_lt fileIncludes_lt hm
  · intro hno
    refine loop_returns (a := .start st.includeBuf) (Nat.le_refl _) fun a ha => ?_
    refine callFile_returns_of_acc (acc_of_acyclic (finite_named files) (fun _ _ => named_of_includes) ?_)
    exact fun c hc => hno a c ha hc.to_reflTransGen

end Cycles

/-- A file that includes itself. -/
def selfIncluding : List UInt8 := word "#include \"a\""

/-- The volume that it is the only file of. -/
def selfVolume (name : List UInt8) : Option (List UInt8) := if name = word "a" then some selfIncluding else none

theorem callFile_selfIncluding (fuel : Nat) (buf : Bytes) :
    callFile selfVolume fuel selfIncluding buf = none := by
  induction fuel generalizing buf with
  | zero => rfl
  | succ fuel ih =>
    have hrest : (Source.included selfIncluding.length).rest (buf.store 0 (selfIncluding ++ [0])) 0 =
        chr '#' :: selfIncluding.tail := rest_included buf selfIncluding
    have haction : action selfVolume [] Region.init (chr '#') selfIncluding.tail = .file selfIncluding [] := by
      rfl
    unfold callFile at ih ⊢
    rw [preprocessLoop]
    simp only [hrest, haction, ih]

theorem preprocess_selfIncluding :
    ¬∃ fuel v, preprocess selfVolume fuel (.text selfIncluding) 65536 ⟨[], Bytes.zeros⟩ = some v := by
  rintro ⟨fuel, v, h⟩
  cases fuel with
  | zero => cases h
  | succ fuel =>
    have hrest : (Source.text selfIncluding).rest Bytes.zeros 0 = chr '#' :: selfIncluding.tail := rfl
    have haction : action selfVolume [] Region.init (chr '#') selfIncluding.tail = .file selfIncluding [] := rfl
    have hcall := callFile_selfIncluding fuel Bytes.zeros
    unfold callFile at hcall
    unfold preprocess at h
    rw [preprocessLoop] at h
    simp [hrest, haction, hcall] at h

end RainbowOs.Cc
