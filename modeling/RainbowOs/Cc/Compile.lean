import RainbowOs.Fat12.ReadBack
import RainbowOs.Fat12.Runs

/-!
# The output file

`kernel/cc/cc.c`: `cc_compile` reads a source by its name and writes the
program under a name that `make_output_name` builds from it. The two are cut
apart at different dots: `make_output_name` at the last of the first 27
characters, `name_to_83` at the first of all. What lies between is the passes
of the compiler, and any function stands for them here.
-/

namespace RainbowOs.Cc

open RainbowOs.Lib RainbowOs.Fat12

abbrev srcBufSize : Nat := 8192

abbrev outNameSize : Nat := 32

/-- `'.'` -/
abbrev dotByte : UInt8 := 0x2E

/-- The loop that finds the last dot below `n`. -/
def lastDot (s : List UInt8) : Nat → Option Nat
  | 0 => none
  | j + 1 => if s.getD j 0 = dotByte then some j else lastDot s j

/-- `".bin"` -/
def binSuffix : List UInt8 := [0x2E, 0x62, 0x69, 0x6E]

/-- The characters `make_output_name` copies. -/
def copied (input : List UInt8) (max : Nat) : List UInt8 := input.take (max - 5)

/-- The string `make_output_name` leaves in `output`. -/
def outputBytes (input : List UInt8) (max : Nat) : List UInt8 :=
  match lastDot (copied input max) (copied input max).length with
  | some dot => (copied input max).take dot ++ binSuffix
  | none => copied input max ++ binSuffix

theorem zero_not_mem_outputBytes (input : CString) (max : Nat) : (0 : UInt8) ∉ outputBytes input.val max := by
  have hcopied : (0 : UInt8) ∉ copied input.val max := fun h => input.property (List.mem_of_mem_take h)
  have hsuffix : (0 : UInt8) ∉ binSuffix := by decide
  unfold outputBytes
  split <;> rw [List.mem_append, not_or]
  · exact ⟨fun h => hcopied (List.mem_of_mem_take h), hsuffix⟩
  · exact ⟨hcopied, hsuffix⟩

/-- `make_output_name` -/
def makeOutputName (input : CString) (max : Nat) : CString :=
  ⟨outputBytes input.val max, zero_not_mem_outputBytes input max⟩

/-- `cc_compile`, less its messages. `translate` is what `preprocess`, `parse_program` and `cg_output` make of a
volume and a source: the program, or nothing after an error. -/
def ccCompile (translate : Bytes → List UInt8 → Option (List UInt8)) (filename : CString) : Disk Int := do
  match ← onVol (fat12ReadFile (← Prog.get).bpb filename (srcBufSize - 1)) with
  | none => return -1
  | some src =>
    match translate (← Prog.get).vol src with
    | none => return -1
    | some out =>
      if out.length ≤ 0 then return -1
      else if (← diskfsWriteFile (makeOutputName filename outNameSize) out) < 0 then return -1
      else return 0

/-! ## The two names -/

/-- The extension of a folded name. -/
def extension83 (name : CString) : List UInt8 := (nameTo83 name).drop 8

/-- `"BIN"` -/
def binExtension : List UInt8 := [0x42, 0x49, 0x4E]

theorem lastDot_spec {s : List UInt8} {n : Nat} :
    match lastDot s n with
    | some d => d < n ∧ s.getD d 0 = dotByte
    | none => ∀ j, j < n → s.getD j 0 ≠ dotByte := by
  induction n with
  | zero => exact fun j hj => absurd hj (Nat.not_lt_zero j)
  | succ n ih =>
    unfold lastDot
    by_cases hdot : s.getD n 0 = dotByte
    · rw [if_pos hdot]
      exact ⟨Nat.lt_succ_self n, hdot⟩
    · rw [if_neg hdot]
      cases hrest : lastDot s n with
      | some d =>
        rw [hrest] at ih
        exact ⟨Nat.lt_succ_of_lt ih.1, ih.2⟩
      | none =>
        rw [hrest] at ih
        intro j hj
        rcases Nat.lt_succ_iff_lt_or_eq.mp hj with hlt | rfl
        · exact ih j hlt
        · exact hdot

theorem exists_cut {s : List UInt8} {d : Nat} (hd : d < s.length) (hdot : s.getD d 0 = dotByte) :
    s = s.take d ++ dotByte :: s.drop (d + 1) := by
  rw [List.getD_eq_getElem _ _ hd] at hdot
  conv_lhs => rw [← List.take_append_drop d s, List.drop_eq_getElem_cons hd, hdot]

/-- The folded form of a name cut at its first dot. -/
theorem nameTo83_of_dot {name : CString} {u r : List UInt8} (h : name.val = u ++ dotByte :: r) (hu : dotByte ∉ u) :
    nameTo83 name = padTo 8 ((u.take 8).map upper) ++ padTo 3 ((r.take 3).map upper) := by
  have hfirst : (u ++ dotByte :: r).idxOf? dotByte = some u.length := by
    rw [List.idxOf?_eq_some_iff]
    refine ⟨by rw [List.length_append, List.length_cons]; omega, by simp, fun j hj heq => hu ?_⟩
    rw [List.getElem_append_left hj] at heq
    exact heq ▸ List.getElem_mem hj
  have hhead : (u ++ dotByte :: r).take (min u.length 8) = u.take 8 := by
    rw [List.take_append_of_le_length (Nat.min_le_left _ _), Nat.min_comm, ← List.take_take, List.take_length]
  have htail : (u ++ dotByte :: r).drop (u.length + 1) = r := by
    rw [← List.drop_drop, List.drop_left]
    rfl
  unfold nameTo83
  rw [h, hfirst]
  dsimp only [Option.getD_some]
  rw [hhead, htail]

theorem extension83_of_dot {name : CString} {u r : List UInt8} (h : name.val = u ++ dotByte :: r)
    (hu : dotByte ∉ u) : extension83 name = padTo 3 ((r.take 3).map upper) := by
  have hshort : ((u.take 8).map upper).length ≤ 8 := by
    rw [List.length_map, List.length_take]
    exact Nat.min_le_left 8 _
  have hlength := length_padTo hshort
  rw [extension83, nameTo83_of_dot h hu, List.drop_left' hlength]

/-- Two names cut at a first dot behind the same characters differ where their extensions do. -/
theorem nameTo83_eq_iff {name name' : CString} {u r r' : List UInt8} (h : name.val = u ++ dotByte :: r)
    (h' : name'.val = u ++ dotByte :: r') (hu : dotByte ∉ u) :
    nameTo83 name = nameTo83 name' ↔ extension83 name = extension83 name' := by
  rw [nameTo83_of_dot h hu, nameTo83_of_dot h' hu, extension83_of_dot h hu, extension83_of_dot h' hu,
    List.append_right_inj]

/-- Behind the same first characters, an extension is one without blanks when its rest is. -/
theorem padTo_eq_iff {n : Nat} {A x y : List UInt8} (hx : (A ++ x).length = n) (hblank : blank ∉ x) :
    padTo n (A ++ y) = padTo n (A ++ x) ↔ y = x := by
  have hfull : padTo n (A ++ x) = A ++ x := by
    rw [padTo, hx, Nat.sub_self, List.replicate_zero, List.append_nil]
  refine ⟨fun h => ?_, fun h => by rw [h]⟩
  rw [hfull, padTo, List.append_assoc, List.append_right_inj] at h
  by_cases hshort : n - (A ++ y).length = 0
  · rw [hshort, List.replicate_zero, List.append_nil] at h
    exact h
  · have hmem : blank ∈ x := by
      rw [← h]
      exact List.mem_append_right _ (List.mem_replicate.mpr ⟨hshort, rfl⟩)
    exact absurd hmem hblank

/-- What `make_output_name` puts behind the last dot does not reach the extension, or makes another of it. -/
def OutputApart (name : CString) : Prop :=
  match (copied name.val outNameSize).idxOf? dotByte,
    lastDot (copied name.val outNameSize) (copied name.val outNameSize).length with
  | some f, some d => f < d →
    ((name.val.drop (d + 1)).take (3 - (d - f))).map upper ≠ binExtension.take (3 - (d - f))
  | _, _ => True

instance (name : CString) : Decidable (OutputApart name) := by
  unfold OutputApart
  split <;> infer_instance

theorem outputBytes_some {input : List UInt8} {max d : Nat}
    (h : lastDot (copied input max) (copied input max).length = some d) :
    outputBytes input max = (copied input max).take d ++ binSuffix := by
  unfold outputBytes
  rw [h]

theorem outputBytes_none {input : List UInt8} {max : Nat}
    (h : lastDot (copied input max) (copied input max).length = none) :
    outputBytes input max = copied input max ++ binSuffix := by
  unfold outputBytes
  rw [h]

/-- A name whose only dot is the one before `bin` has that extension. -/
theorem extension83_bin {name : CString} {u : List UInt8} (h : name.val = u ++ binSuffix) (hu : dotByte ∉ u) :
    extension83 name = binExtension :=
  (extension83_of_dot h hu).trans (by decide)

/-- What is copied of a name stands in the name. -/
theorem copied_get {input : List UInt8} {max d : Nat} (hd : d < (copied input max).length)
    (hdot : (copied input max).getD d 0 = dotByte) :
    d < input.length ∧ input.getD d 0 = dotByte ∧ input.take d = (copied input max).take d := by
  have hd' := hd
  rw [copied, List.length_take] at hd'
  refine ⟨by omega, ?_, by rw [copied, List.take_take, Nat.min_eq_left (by omega)]⟩
  rw [List.getD_eq_getElem _ _ hd] at hdot
  rw [List.getD_eq_getElem _ _ (by omega), ← hdot]
  exact List.getElem_take.symm

/-- The first dot is not behind any other one, and no dot is before it. -/
theorem first_dot {s : List UInt8} {f d : Nat} (hfirst : s.idxOf? dotByte = some f) (hd : d < s.length)
    (hdot : s.getD d 0 = dotByte) : f ≤ d ∧ dotByte ∉ s.take f ∧ s = s.take f ++ dotByte :: s.drop (f + 1) := by
  obtain ⟨hf, heq, hbefore⟩ := List.idxOf?_eq_some_iff.mp hfirst
  rw [List.getD_eq_getElem _ _ hd] at hdot
  refine ⟨Nat.le_of_not_lt fun hlt => hbefore d hlt hdot, fun hmem => ?_,
    exists_cut hf ((List.getD_eq_getElem _ _ hf).trans heq)⟩
  obtain ⟨j, hj, hjdot⟩ := List.getElem_of_mem hmem
  rw [List.getElem_take] at hjdot
  rw [List.length_take] at hj
  exact hbefore j (by omega) hjdot

/-- An extension cut behind a dot of its own: only what is left of the three characters counts. -/
theorem extension_eq_iff {mid rest : List UInt8} :
    padTo 3 (((mid ++ binSuffix).take 3).map upper) = padTo 3 (((mid ++ dotByte :: rest).take 3).map upper) ↔
      (rest.take (2 - mid.length)).map upper = binExtension.take (2 - mid.length) := by
  have hcut : ∀ x : List UInt8, ((mid ++ dotByte :: x).take 3).map upper =
      ((mid ++ [dotByte]).take 3).map upper ++ (x.take (2 - mid.length)).map upper := fun x => by
    have hlength : 3 - (mid ++ [dotByte]).length = 2 - mid.length := by
      rw [List.length_append, List.length_singleton]
      omega
    rw [List.append_cons, List.take_append, List.map_append, hlength]
  have hbin : (([0x62, 0x69, 0x6E] : List UInt8).take (2 - mid.length)).map upper =
      binExtension.take (2 - mid.length) := by
    rw [List.map_take]
    rfl
  have hblank : blank ∉ binExtension.take (2 - mid.length) := fun h =>
    absurd (List.mem_of_mem_take h) (by decide)
  have hfull : (((mid ++ [dotByte]).take 3).map upper ++ binExtension.take (2 - mid.length)).length = 3 := by
    rw [List.length_append, List.length_map, List.length_take, List.length_take, List.length_append,
      List.length_singleton, show binExtension.length = 3 from rfl]
    omega
  rw [binSuffix, hcut [0x62, 0x69, 0x6E], hcut rest, hbin, eq_comm, padTo_eq_iff hfull hblank]

/-- The name of the output folds to another one than that of the source exactly where the dots allow it. -/
theorem output_ne_iff {name : CString} (hext : extension83 name ≠ binExtension) :
    nameTo83 (makeOutputName name outNameSize) ≠ nameTo83 name ↔ OutputApart name := by
  have hapart : extension83 (makeOutputName name outNameSize) = binExtension →
      nameTo83 (makeOutputName name outNameSize) ≠ nameTo83 name := fun hbin heq =>
    hext ((congrArg (List.drop 8) heq).symm.trans hbin)
  have hspec := lastDot_spec (s := copied name.val outNameSize) (n := (copied name.val outNameSize).length)
  unfold OutputApart
  cases hlast : lastDot (copied name.val outNameSize) (copied name.val outNameSize).length with
  | none =>
    rw [hlast] at hspec
    have hu : dotByte ∉ copied name.val outNameSize := fun hmem => by
      obtain ⟨j, hj, heq⟩ := List.getElem_of_mem hmem
      exact hspec j hj ((List.getD_eq_getElem _ _ hj).trans heq)
    exact iff_of_true (hapart (extension83_bin (outputBytes_none hlast) hu)) (by simp)
  | some d =>
    rw [hlast] at hspec
    obtain ⟨hd, hdot⟩ := hspec
    cases hfirst : (copied name.val outNameSize).idxOf? dotByte with
    | none =>
      rw [List.getD_eq_getElem _ _ hd] at hdot
      exact absurd (hdot ▸ List.getElem_mem hd) (List.idxOf?_eq_none_iff.mp hfirst)
    | some f =>
      obtain ⟨hle, hu, hcut⟩ := first_dot hfirst hd hdot
      have hout := outputBytes_some hlast
      obtain ⟨hd', hdot', htaken⟩ := copied_get hd hdot
      generalize copied name.val outNameSize = p at *
      rcases Nat.eq_or_lt_of_le hle with rfl | hlt
      · exact iff_of_true (hapart (extension83_bin hout hu)) fun h => absurd h (Nat.lt_irrefl f)
      · obtain ⟨mid, hmid⟩ : ∃ mid, mid = (p.drop (f + 1)).take (d - f - 1) := ⟨_, rfl⟩
        have hhead : (p.take f).length = f := by
          rw [List.length_take]
          omega
        have htake : p.take d = p.take f ++ dotByte :: mid := by
          conv_lhs => rw [hcut, List.take_append, hhead, List.take_of_length_le (by omega),
            show d - f = d - f - 1 + 1 by omega, List.take_succ_cons, ← hmid]
        have hrest : name.val = p.take f ++ dotByte :: (mid ++ dotByte :: name.val.drop (d + 1)) := by
          rw [← List.cons_append, ← List.append_assoc, ← htake, ← htaken]
          exact exists_cut hd' hdot'
        have hout' : (makeOutputName name outNameSize).val = p.take f ++ dotByte :: (mid ++ binSuffix) := by
          rw [← List.cons_append, ← List.append_assoc, ← htake]
          exact hout
        have hshort : 2 - mid.length = 3 - (d - f) := by
          rw [hmid, List.length_take, List.length_drop]
          omega
        rw [Ne, nameTo83_eq_iff hout' hrest hu, extension83_of_dot hout' hu, extension83_of_dot hrest hu,
          extension_eq_iff, hshort]
        exact ⟨fun h _ => h, fun h => h hlt⟩

/-! ## The volume -/

section Volume

variable {L : Layout} {s : DiskState} {name : CString} {translate : Bytes → List UInt8 → Option (List UInt8)}

/-- Whatever program comes out, its clusters are among those the FAT has entries for. -/
def OutputFits (L : Layout) (v : Bytes) (name : CString) (translate : Bytes → List UInt8 → Option (List UInt8)) :
    Prop :=
  ∀ src out, translate v src = some out → (Call.write (makeOutputName name outNameSize) out).Fits L v

/-- What is read under a name. -/
def readsAs (s : DiskState) (name : CString) (bufSize : Nat) : Outcome Fault (Option (List UInt8)) :=
  (fat12ReadFile s.bpb name bufSize s.vol).out

/-- `cc_compile` leaves the volume or writes one file. -/
theorem ccCompile_cases (hbpb : s.bpb = L.bpb) (hsound : SoundVolume L s.vol)
    (hfits : OutputFits L s.vol name translate) :
    (ccCompile translate name).total Syncs (fun r s' => s'.bpb = s.bpb ∧ (r = -1 ∧ s'.vol = s.vol ∨
      ∃ src out w, readsAs s name (srcBufSize - 1) = .done (some src) ∧ translate s.vol src = some out ∧
        (fat12WriteFile s.bpb (makeOutputName name outNameSize) out s.vol).out = .done w ∧
        s'.vol = (fat12WriteFile s.bpb (makeOutputName name outNameSize) out s.vol).state ∧
        r = if w < 0 then -1 else 0)) s := by
  have hshows := shows_tablesOf L s.vol
  obtain ⟨found, hfound, -, hvol⟩ := (total_readFile hshows name (srcBufSize - 1) (hsound.reads _)).returns
  rw [← hbpb] at hfound hvol
  unfold ccCompile
  refine Prog.wp_bind.mpr (Prog.wp_get (Prog.wp_bind.mpr (wp_onVol (fun found' hfound' => ?_) fun e he => ?_)))
  · obtain rfl := Outcome.done.inj (hfound.symm.trans hfound')
    rw [hvol, DiskState.setVol_vol]
    cases found with
    | none => exact Prog.wp_pure ⟨rfl, .inl ⟨rfl, rfl⟩⟩
    | some src =>
      refine Prog.wp_bind.mpr (Prog.wp_get ?_)
      cases hout : translate s.vol src with
      | none => exact Prog.wp_pure ⟨rfl, .inl ⟨rfl, rfl⟩⟩
      | some out =>
        dsimp only
        split
        · exact Prog.wp_pure ⟨rfl, .inl ⟨rfl, rfl⟩⟩
        · obtain ⟨w, hw, -⟩ := (total_writeFile hshows (makeOutputName name outNameSize) out (hsound.reads _)
            (hfits src out hout)).returns
          rw [← hbpb] at hw
          refine Prog.wp_bind.mpr (Prog.wp_mono (total_diskfsWriteFile hw) (fun _ h => h) (fun w' s' hs' => ?_)
            fun _ _ h => h)
          obtain ⟨rfl, hvol', hbpb'⟩ := hs'
          split
          next hneg => exact Prog.wp_pure ⟨hbpb', .inr ⟨src, out, w', hfound, hout, hw, hvol', (if_pos hneg).symm⟩⟩
          next hneg => exact Prog.wp_pure ⟨hbpb', .inr ⟨src, out, w', hfound, hout, hw, hvol', (if_neg hneg).symm⟩⟩
  · rw [hfound] at he
    cases he

/-- A write leaves what is read under the other names. -/
theorem write_keeps_other {v : Bytes} (hsound : SoundVolume L v) {other : CString} {data : List UInt8}
    (hfit : (Call.write other data).Fits L v) (hne : nameTo83 other ≠ nameTo83 name) {src : List UInt8}
    (hfound : (tablesOf L.bpb v).files L (nameTo83 name) = some src) (bufSize : Nat) :
    (fat12ReadFile L.bpb name bufSize (fat12WriteFile L.bpb other data v).state).out =
      (fat12ReadFile L.bpb name bufSize v).out := by
  have hshows := shows_tablesOf L v
  obtain ⟨w, -, -, hshows'⟩ := (total_writeFile hshows other data (hsound.reads _) hfit).returns
  obtain ⟨hsound', hkeeps⟩ := writeFile_sound hsound data
    (nameTo83_ne_zero other _ (headD_nameTo83_mem other))
  rw [read_out hshows' hsound' name bufSize, read_out hshows hsound name bufSize]
  obtain ⟨j, hj, -⟩ := Option.map_eq_some_iff.mp hfound
  obtain ⟨hlive, hname⟩ := hsound.find_eq_some_iff.mp hj
  have hother : (tablesOf L.bpb v).find (nameTo83 other) L.bpb.rootEntryCount 0 ≠ some j := fun h =>
    hne ((hsound.find_eq_some_iff.mp h).2.symm.trans hname)
  rw [← hname, files_of_keeps hsound hsound' hlive (hkeeps j hlive hother)]

/-- A write under a name that folds to that of a file replaces the file. -/
theorem write_replaces {v : Bytes} (hsound : SoundVolume L v) {other : CString} {data : List UInt8}
    (hfit : (Call.write other data).Fits L v) (heq : nameTo83 other = nameTo83 name) {src : List UInt8}
    (hfound : (tablesOf L.bpb v).files L (nameTo83 name) = some src) {w : Int} (hw : 0 ≤ w)
    (hdone : (fat12WriteFile L.bpb other data v).out = .done w) (bufSize : Nat) :
    (fat12ReadFile L.bpb name bufSize (fat12WriteFile L.bpb other data v).state).out =
      .done (some (data.take bufSize)) := by
  have hshows := shows_tablesOf L v
  obtain ⟨w', hw', hret, hshows'⟩ := (total_writeFile hshows other data (hsound.reads _) hfit).returns
  obtain rfl := Outcome.done.inj (hdone.symm.trans hw')
  obtain ⟨hsound', -⟩ := writeFile_sound hsound data (nameTo83_ne_zero other _ (headD_nameTo83_mem other))
  obtain ⟨j, hj, -⟩ := Option.map_eq_some_iff.mp hfound
  obtain ⟨hlive, hname⟩ := hsound.find_eq_some_iff.mp hj
  have hdeleted : (nameTo83 other).headD 0 ≠ 0xE5 := by
    rw [heq, ← hname]
    exact hlive.2.2.1
  have hzero : ((tablesOf L.bpb v).writeFile L (nameTo83 other) data).1 = 0 := by
    have hneg : ¬ (0 : Int) ≤ -1 := by decide
    rw [hret] at hw
    rcases writeFile_cases L (tablesOf L.bpb v) (nameTo83 other) data with
      ⟨-, h⟩ | ⟨-, ⟨i, -, h⟩ | ⟨-, -, h⟩ | ⟨i, -, -, h⟩⟩
    · rw [h] at hw
      exact absurd hw hneg
    · rw [h]
    · rw [h] at hw
      exact absurd hw hneg
    · rw [h]
  rw [read_out hshows' hsound' name bufSize, ← heq,
    files_of_written hsound (fun c h2 hc => length_dat hshows h2 hc) hdeleted hzero]
  rfl

/-- A source found by its name, whose extension is not `BIN`, is kept by every run exactly where the name of the
output folds to another one; where it does not, a run that succeeds has put the program in its place. -/
theorem source_kept_iff (hext : extension83 name ≠ binExtension) (hbpb : s.bpb = L.bpb)
    (hsound : SoundVolume L s.vol) (hfits : OutputFits L s.vol name translate) {src : List UInt8}
    (hfound : readsAs s name (srcBufSize - 1) = .done (some src)) :
    (nameTo83 (makeOutputName name outNameSize) ≠ nameTo83 name ↔ OutputApart name) ∧
      (ccCompile translate name).total Syncs (fun r s' =>
        (OutputApart name → ∀ n, readsAs s' name n = readsAs s name n) ∧
        (r = 0 → ∃ out, translate s.vol src = some out ∧
          ((∀ n, readsAs s' name n = readsAs s name n) ↔
            OutputApart name ∨ ∀ n, readsAs s name n = .done (some (out.take n))))) s := by
  have hnames := output_ne_iff hext
  have hshows := shows_tablesOf L s.vol
  obtain ⟨file, hfile⟩ : ∃ file, (tablesOf L.bpb s.vol).files L (nameTo83 name) = some file := by
    have hread := hfound
    rw [readsAs, hbpb, read_out hshows hsound] at hread
    obtain ⟨file, hfile, -⟩ := Option.map_eq_some_iff.mp (Outcome.done.inj hread)
    exact ⟨file, hfile⟩
  refine ⟨hnames, Prog.wp_mono (ccCompile_cases hbpb hsound hfits) (fun _ h => h) (fun r s' hrun => ?_)
    fun _ _ h => h⟩
  obtain ⟨hbpb', ⟨rfl, hvol⟩ | ⟨src', out, w, hsrc, hout, hw, hvol, hr⟩⟩ := hrun
  · refine ⟨fun _ n => ?_, fun hzero => absurd hzero (by decide)⟩
    rw [readsAs, hbpb', hvol, readsAs]
  · obtain rfl : src' = src := Option.some.inj (Outcome.done.inj (hsrc.symm.trans hfound))
    have hfit := hfits src' out hout
    have hkept : OutputApart name → ∀ n, readsAs s' name n = readsAs s name n := fun hapart n => by
      rw [readsAs, readsAs, hbpb', hvol, hbpb]
      exact write_keeps_other hsound hfit (hnames.mpr hapart) hfile n
    refine ⟨hkept, fun hzero => ⟨out, hout, ?_⟩⟩
    by_cases hapart : OutputApart name
    · exact iff_of_true (hkept hapart) (.inl hapart)
    · have heq := not_not.mp (mt hnames.mp hapart)
      have hpos : 0 ≤ w := by
        rw [hr] at hzero
        exact Int.not_lt.mp fun hneg => absurd ((if_pos hneg).symm.trans hzero) (by decide)
      rw [hbpb] at hw
      have hreplaced : ∀ n, readsAs s' name n = .done (some (out.take n)) := fun n => by
        rw [readsAs, hbpb', hvol, hbpb]
        exact write_replaces hsound hfit heq hfile hpos hw n
      rw [or_iff_right hapart]
      exact forall_congr' fun n => by rw [hreplaced n, eq_comm]

end Volume

/-- A system with its ramdisk mounted. -/
def onRamdisk (ramdisk : Bytes) : DiskState :=
  { freshDisk fun _ => .ok with ramdisk, onRamdisk := true, bpb := Ramdisk.bpb }

theorem vol_onRamdisk (ramdisk : Bytes) : (onRamdisk ramdisk).vol = ramdisk := rfl

theorem bpb_onRamdisk (ramdisk : Bytes) : (onRamdisk ramdisk).bpb = Ramdisk.layout.bpb := rfl

/-- `hello.c` -/
def helloName : CString := ⟨[0x68, 0x65, 0x6C, 0x6C, 0x6F, 0x2E, 0x63], by decide⟩

theorem source_kept_iff_hello :
    (ccCompile (fun _ _ => some [0xC3]) helloName).total Syncs
      (fun _ s' => ∀ n, readsAs s' helloName n = readsAs (onRamdisk Ramdisk.ramdiskInit) helloName n)
      (onRamdisk Ramdisk.ramdiskInit) := by
  have hsample : Ramdisk.sampleFiles (nameTo83 helloName) ≠ none := by decide
  obtain ⟨file, hfile⟩ := Option.ne_none_iff_exists'.mp hsample
  have hread := (ramdisk_holds.read helloName (srcBufSize - 1)).1
  rw [hfile] at hread
  have hvol := vol_onRamdisk Ramdisk.ramdiskInit
  have hbpb := bpb_onRamdisk Ramdisk.ramdiskInit
  have hfound : readsAs (onRamdisk Ramdisk.ramdiskInit) helloName (srcBufSize - 1) =
      .done (some (file.take (srcBufSize - 1))) := by
    rw [readsAs, hvol, hbpb]
    exact hread
  have hsound : SoundVolume Ramdisk.layout (onRamdisk Ramdisk.ramdiskInit).vol := by
    rw [hvol]
    exact ramdisk_sound
  have hfits : OutputFits Ramdisk.layout (onRamdisk Ramdisk.ramdiskInit).vol helloName fun _ _ => some [0xC3] :=
    fun _ _ _ => room_of_full Ramdisk.layout_full _ _
  have h := source_kept_iff (by decide) hbpb hsound hfits hfound
  exact Prog.wp_mono h.2 (fun _ h => h) (fun _ _ hrun => hrun.1 (by decide)) fun _ _ h => h

/-- `a.tar.c` -/
def tarName : CString := ⟨[0x61, 0x2E, 0x74, 0x61, 0x72, 0x2E, 0x63], by decide⟩

/-- `int main(){}` -/
def emptyMain : List UInt8 := [0x69, 0x6E, 0x74, 0x20, 0x6D, 0x61, 0x69, 0x6E, 0x28, 0x29, 0x7B, 0x7D]

/-- The program it is translated to. -/
def emptyProgram : List UInt8 :=
  [0xE9, 0, 0, 0, 0, 0x55, 0x89, 0xE5, 0x81, 0xEC, 0x80, 0, 0, 0, 0x53, 0x56, 0x57, 0x5F, 0x5E, 0x5B, 0x89, 0xEC,
    0x5D, 0xC3]

/-- A volume on which that source is called `a.tar.c`. -/
def tarDisk : DiskState :=
  { freshDisk fun _ => .ok with
    volume := (fat12WriteFile Diskfs.bpb tarName emptyMain (Diskfs.formatVolume Bytes.zeros)).state }

/-- The output is called `a.tar.bin`, which is the same file. -/
theorem source_overwritten :
    extension83 tarName ≠ binExtension ∧ readsAs tarDisk tarName 100 = .done (some emptyMain) ∧
      (ccCompile (fun _ _ => some emptyProgram) tarName tarDisk).out = .done 0 ∧
      readsAs (ccCompile (fun _ _ => some emptyProgram) tarName tarDisk).state tarName 100 =
        .done (some emptyProgram) := by
  decide +kernel

end RainbowOs.Cc
