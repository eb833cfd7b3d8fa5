import RainbowOs.Cc.Link
import RainbowOs.Cc.Trails

/-!
# The labels and strings of a program

The parser places each label it makes at most once, and loads each string
right after it adds it. `Tidy` says so of a stretch of the parser, `owed`
being labels made before it that it may place; `Owes` is the triple for it,
with a rule for a label that is made, one for a label that is placed and one
for a stretch that owes nothing. `tidy_stmtLaw` has one law for each
statement; `linkable_program` is what follows for whole programs.
-/

namespace RainbowOs.Cc

open RainbowOs.Lib
open Prog (Obeys Composes)

/-- How many labels a sequence of calls makes. -/
def freshIn (calls : List CgCall) : Nat := (calls.map CgCall.fresh).sum

/-- The labels that a sequence of calls places. -/
def placedIds (c : Codegen) : List CgCall → List Int
  | [] => []
  | call :: calls => (call.places c).toList ++ placedIds (call.run c) calls

/-- Each label is placed after it is made. -/
def Made (c : Codegen) : List CgCall → Prop
  | [] => True
  | call :: calls => (∀ id ∈ call.places c, id < c.numLabels) ∧ Made (call.run c) calls

theorem made_append (c : Codegen) (l l' : List CgCall) :
    Made c (l ++ l') ↔ Made c l ∧ Made (runCalls l c) l' := by
  induction l generalizing c with
  | nil => simp [Made]
  | cons call l ih => simp only [List.cons_append, Made, ih, runCalls_cons, and_assoc]

theorem made_of_nil {c : Codegen} {calls : List CgCall} (h : placedIds c calls = []) :
    Made c calls := by
  induction calls generalizing c with
  | nil => trivial
  | cons call calls ih =>
    obtain ⟨hfirst, hrest⟩ := List.append_eq_nil_iff.mp h
    refine ⟨fun id hid => ?_, ih hrest⟩
    rw [Option.toList_eq_nil_iff.mp hfirst] at hid
    cases hid

theorem freshIn_append (l l' : List CgCall) : freshIn (l ++ l') = freshIn l + freshIn l' := by
  rw [freshIn, List.map_append, List.sum_append]
  rfl

theorem placedIds_append (c : Codegen) (l l' : List CgCall) :
    placedIds c (l ++ l') = placedIds c l ++ placedIds (runCalls l c) l' := by
  induction l generalizing c with
  | nil => rfl
  | cons call l ih => rw [List.cons_append, placedIds, ih, placedIds, List.append_assoc, runCalls_cons]

theorem retsIn_append (c : Codegen) (l l' : List CgCall) :
    RetsIn c (l ++ l') ↔ RetsIn c l ∧ RetsIn (runCalls l c) l' := by
  induction l generalizing c with
  | nil => simp [RetsIn]
  | cons call l ih => simp only [List.cons_append, RetsIn, ih, runCalls_cons, and_assoc]

theorem stringsLoaded_append {str : Bool} {l l' : List CgCall} (h : StringsLoaded str l)
    (h' : StringsLoaded false l') : StringsLoaded str (l ++ l') := by
  induction l generalizing str with
  | nil =>
    rw [show str = false from h]
    exact h'
  | cons call l ih => exact ⟨h.1, ih h.2⟩

theorem numLabels_le_run (call : CgCall) (c : Codegen) : c.numLabels ≤ (call.run c).numLabels := by
  rw [call.run_eq]
  simp only
  split
  · exact Nat.le_refl _
  · exact Nat.le_add_right _ _

theorem numLabels_le_runCalls (calls : List CgCall) (c : Codegen) :
    c.numLabels ≤ (runCalls calls c).numLabels := by
  induction calls generalizing c with
  | nil => exact Nat.le_refl _
  | cons call calls ih => exact Nat.le_trans (numLabels_le_run call c) (ih (call.run c))

theorem numLabels_run (call : CgCall) {c : Codegen} (h : c.numLabels + call.fresh ≤ cgLabelMax) :
    (call.run c).numLabels = c.numLabels + call.fresh := by
  rw [call.run_eq]
  simp only
  split
  · omega
  · rfl

/-- The label that a call makes is below the labels made, also where it made none. -/
theorem freshLabel_lt_run (call : CgCall) (hfresh : call.fresh = 1) (c : Codegen) :
    c.freshLabel < (call.run c).numLabels := by
  have hmax : cgLabelMax = 256 := rfl
  rw [Codegen.freshLabel]
  split
  · have hle := numLabels_le_run call c
    omega
  · rw [numLabels_run call (by omega), hfresh]
    exact Int.lt_succ _

/-! ## Labels that are owed -/

/-- The labels that a sequence of calls places are new ones or owed ones, each once. -/
def Placing (owed : List Int) (c : Codegen) (calls : List CgCall) : Prop :=
  owed.Nodup → c.numLabels + freshIn calls ≤ cgLabelMax →
    Made c calls ∧ (placedIds c calls).Nodup ∧ ∀ id ∈ placedIds c calls,
      id ∈ owed ∨ c.numLabels ≤ id ∧ id < c.numLabels + freshIn calls

namespace Placing

variable {owed : List Int} {c : Codegen} {call : CgCall} {calls calls' : List CgCall}

theorem of_nil (h : placedIds c calls = []) : Placing owed c calls := by
  intro _ _
  have hmade := made_of_nil h
  rw [h]
  exact ⟨hmade, List.nodup_nil, fun _ h => absurd h List.not_mem_nil⟩

/-- A sequence that owes nothing may place what is owed. -/
theorem weaken (h : Placing [] c calls) : Placing owed c calls := by
  intro _ hroom
  obtain ⟨hmade, hnodup, hin⟩ := h List.nodup_nil hroom
  exact ⟨hmade, hnodup, fun id hid => Or.inr ((hin id hid).resolve_left List.not_mem_nil)⟩

theorem perm {owed' : List Int} (hperm : owed.Perm owed') (h : Placing owed' c calls) :
    Placing owed c calls := by
  intro hnodup hroom
  obtain ⟨hmade, hids, hin⟩ := h (hperm.nodup_iff.mp hnodup) hroom
  exact ⟨hmade, hids, fun id hid => (hin id hid).imp_left hperm.mem_iff.mpr⟩

/-- A sequence that owes nothing, before one that does. -/
theorem append (h : Placing [] c calls) (h' : Placing owed (runCalls calls c) calls')
    (howed : ∀ x ∈ owed, x < c.numLabels) : Placing owed c (calls ++ calls') := by
  intro hnodup hroom
  rw [freshIn_append] at hroom
  have hnum : (runCalls calls c).numLabels = c.numLabels + freshIn calls :=
    runCalls_numLabels (Nat.le_trans (by rw [freshIn]; omega) hroom)
  obtain ⟨hmade₁, hnodup₁, hin₁⟩ := h List.nodup_nil (by omega)
  obtain ⟨hmade₂, hnodup₂, hin₂⟩ := h' hnodup (by omega)
  rw [placedIds_append, freshIn_append]
  refine ⟨(made_append _ _ _).mpr ⟨hmade₁, hmade₂⟩, List.nodup_append.mpr ⟨hnodup₁, hnodup₂, ?_⟩, fun id hid => ?_⟩
  · rintro id hid _ hid' rfl
    have hlow := (hin₁ id hid).resolve_left List.not_mem_nil
    rcases hin₂ id hid' with ho | hhigh
    · have hbelow := howed id ho
      omega
    · omega
  · rcases List.mem_append.mp hid with hid | hid
    · have hlow := (hin₁ id hid).resolve_left List.not_mem_nil
      omega
    · rcases hin₂ id hid with ho | hhigh
      · exact Or.inl ho
      · omega

theorem freshIn_cons (call : CgCall) (calls : List CgCall) :
    freshIn (call :: calls) = call.fresh + freshIn calls := by
  rw [freshIn, List.map_cons, List.sum_cons]
  rfl

/-- A new label is owed by what follows. -/
theorem new (hfresh : call.fresh = 1) (hplaces : call.places c = none)
    (howed : ∀ x ∈ owed, x < c.numLabels) (h : Placing (c.freshLabel :: owed) (call.run c) calls) :
    Placing owed c (call :: calls) := by
  intro hnodup hroom
  rw [freshIn_cons, hfresh] at hroom
  have hlabel : c.freshLabel = c.numLabels := if_neg (by omega)
  have hnum : (call.run c).numLabels = c.numLabels + 1 := by
    rw [numLabels_run call (by omega), hfresh]
  have hnew : c.freshLabel ∉ owed := fun hmem => by
    have hbelow := howed _ hmem
    omega
  obtain ⟨hmade, hids, hin⟩ := h (List.nodup_cons.mpr ⟨hnew, hnodup⟩) (by omega)
  rw [placedIds, hplaces, freshIn_cons, hfresh]
  refine ⟨⟨fun id hid => ?_, hmade⟩, hids, fun id hid => ?_⟩
  · rw [hplaces] at hid
    cases hid
  rcases hin id hid with hid | hid
  · rcases List.mem_cons.mp hid with rfl | hid
    · omega
    · exact Or.inl hid
  · omega

/-- An owed label is placed. -/
theorem place {id : Int} (hfresh : call.fresh = 0) (hplaces : call.places c = some id)
    (hid : id < c.numLabels) (h : Placing owed (call.run c) calls) :
    Placing (id :: owed) c (call :: calls) := by
  intro hnodup hroom
  rw [freshIn_cons, hfresh, Nat.zero_add] at hroom
  have hnum : (call.run c).numLabels = c.numLabels := by
    rw [numLabels_run call (by omega), hfresh]
    rfl
  obtain ⟨hnotin, howednodup⟩ := List.nodup_cons.mp hnodup
  obtain ⟨hmade, hids, hin⟩ := h howednodup (by omega)
  rw [placedIds, hplaces, freshIn_cons, hfresh]
  refine ⟨⟨fun x hx => ?_, hmade⟩, List.nodup_cons.mpr ⟨fun hmem => ?_, hids⟩, fun x hx => ?_⟩
  · rw [hplaces] at hx
    rwa [← Option.some.inj hx]
  · rcases hin id hmem with hmem | hmem
    · exact hnotin hmem
    · omega
  · rcases List.mem_cons.mp hx with rfl | hx
    · exact Or.inl List.mem_cons_self
    · rcases hin x hx with hx | hx
      · exact Or.inl (List.mem_cons_of_mem id hx)
      · omega

end Placing

/-! ## Stretches of statements -/

/-- The labels placed are new ones or owed ones, each once; every string is loaded, and every
return is in a function. -/
structure Tidy (owed : List Int) (s : Compiler) (log : List Event) (s' : Compiler) : Prop where
  cg : s'.cg = runCalls (callsOf log) s.cg
  strings : StringsLoaded false (callsOf log)
  epilogue : s'.cg.funcEpilogueLabel = s.cg.funcEpilogueLabel
  rets : 0 ≤ s.cg.funcEpilogueLabel → RetsIn s.cg (callsOf log)
  labels : Placing owed s.cg (callsOf log)

/-- A stretch that may place the labels that are owed. -/
def Owes (owed : List Int) {α : Type} (p : Parse α) : Prop :=
  Obeys (Tidy owed) (fun s => ∀ x ∈ owed, x < s.cg.numLabels) p fun _ _ => True

namespace Tidy

variable {owed : List Int} {s s' s'' : Compiler} {l l' : List Event}

/-- No call of the code generator. -/
theorem of_quiet (hcalls : callsOf l = []) (hcg : s'.cg = s.cg) : Tidy owed s l s' := by
  refine ⟨?_, ?_, congrArg Codegen.funcEpilogueLabel hcg, fun _ => ?_, ?_⟩
  · rw [hcalls, hcg, runCalls_nil]
  · rw [hcalls]
    rfl
  · rw [hcalls]
    trivial
  · rw [hcalls]
    exact .of_nil rfl

/-- Nothing but the statics outside the code generator changes. -/
theorem of_cg (hcg : s'.cg = s.cg) : Tidy owed s [] s' := .of_quiet rfl hcg

/-- A stretch that owes nothing is one that may place what is owed. -/
theorem weaken (h : Tidy [] s l s') : Tidy owed s l s' :=
  ⟨h.cg, h.strings, h.epilogue, h.rets, h.labels.weaken⟩

/-- A stretch that owes nothing, before one that does. -/
theorem seq (h : Tidy [] s l s') (h' : Tidy owed s' l' s'')
    (howed : ∀ x ∈ owed, x < s.cg.numLabels) : Tidy owed s (l ++ l') s'' := by
  have hcg := h.cg
  refine ⟨?_, ?_, h'.epilogue.trans h.epilogue, fun he => ?_, ?_⟩
  · rw [h'.cg, hcg, callsOf_append, runCalls_append]
  · rw [callsOf_append]
    exact stringsLoaded_append h.strings h'.strings
  · rw [callsOf_append, retsIn_append, ← hcg]
    exact ⟨h.rets he, h'.rets (h.epilogue ▸ he)⟩
  · rw [callsOf_append]
    exact h.labels.append (hcg ▸ h'.labels) howed

end Tidy

theorem tidy_composes : Composes (Tidy []) :=
  ⟨fun _ => .of_cg rfl, fun h h' => h.seq h' fun _ hx => absurd hx List.not_mem_nil⟩

theorem cgNewLabel_run (s : Compiler) : cgNewLabel s =
    ⟨.done s.cg.freshLabel, { s with cg := CgCall.newLabel.run s.cg }, [.emit .newLabel]⟩ := rfl

theorem cg_run (call : CgCall) (s : Compiler) :
    cg call s = ⟨.done (), { s with cg := call.run s.cg }, [.emit call]⟩ := rfl

theorem cg_done {call : CgCall} {s s' : Compiler} {a : Unit} {l : List Event}
    (h : cg call s = ⟨.done a, s', l⟩) : s'.cg = call.run s.cg ∧ l = [.emit call] := by
  rw [cg_run] at h
  generalize hs₁ : ({ s with cg := call.run s.cg } : Compiler) = s₁ at h
  have hcg : s₁.cg = call.run s.cg := by rw [← hs₁]
  cases h
  exact ⟨hcg, rfl⟩

theorem cgFuncBegin_done {fn : SymRef} {s s' : Compiler} {a : Unit} {l : List Event}
    (h : cgFuncBegin fn s = ⟨.done a, s', l⟩) :
    s'.cg = (CgCall.funcBegin fn).run s.cg ∧ l = [.emit (.funcBegin fn)] := by
  have hset : setSym fn (fun f => { f with offset := s.cg.codePos }) s = ⟨.done (),
      { s with syms := s.syms.modify (fun f => { f with offset := s.cg.codePos }) fn }, []⟩ := rfl
  have hget : (Prog.get : Parse Compiler) s = ⟨.done s, s, []⟩ := rfl
  rw [cgFuncBegin, Prog.bind_run_prepend hget, Prog.bind_run_prepend hset,
    Prog.prepend_nil, Prog.prepend_nil] at h
  obtain ⟨hcg, hl⟩ := cg_done h
  exact ⟨hcg, hl⟩

/-- Only the start of a function changes the label of its end. -/
theorem epilogue_run (call : CgCall) (h : ∀ fn, call ≠ .funcBegin fn) (c : Codegen) :
    (call.run c).funcEpilogueLabel = c.funcEpilogueLabel := by
  rw [call.run_eq]
  cases call with
  | funcBegin fn => exact absurd rfl (h fn)
  | _ => rfl

/-- One call before a stretch, with what is known of the labels of both. -/
theorem Tidy.cons {owed owed' : List Int} {s s₁ s' : Compiler} {l : List Event} (call : CgCall)
    (hcg : s₁.cg = call.run s.cg) (hstr : call.isAddString = false)
    (hfn : ∀ fn, call ≠ .funcBegin fn) (h : Tidy owed' s₁ l s')
    (hlabels : Placing owed s.cg (call :: callsOf l)) : Tidy owed s (.emit call :: l) s' := by
  have hepi : s₁.cg.funcEpilogueLabel = s.cg.funcEpilogueLabel := by rw [hcg, epilogue_run call hfn]
  refine ⟨?_, ?_, h.epilogue.trans hepi, fun he => ?_, hlabels⟩
  · rw [h.cg, hcg, callsOf_emit, runCalls_cons]
  · refine ⟨nofun, ?_⟩
    rw [hstr]
    exact h.strings
  · refine ⟨fun _ => he, ?_⟩
    rw [← hcg]
    exact h.rets (hepi.symm ▸ he)

namespace Owes

variable {owed : List Int} {α β : Type}

theorem of_sat {p : Parse α} (h : Sat (Tidy []) p) : Owes owed p := by
  intro s a s' l _ hrun
  exact ⟨(h trivial hrun).1.weaken, trivial⟩

theorem sat {p : Parse α} (h : Owes [] p) : Sat (Tidy []) p :=
  h.mono (fun _ _ _ hx => absurd hx List.not_mem_nil) fun _ _ h => h

/-- A stretch that owes nothing, before one that does. -/
theorem seq {p : Parse α} {f : α → Parse β} (hp : Sat (Tidy []) p) (hf : ∀ a, Owes owed (f a)) :
    Owes owed (p >>= f) := by
  intro s b s' l howed hrun
  obtain ⟨a, s₁, l₁, l₂, hfirst, hsecond, rfl⟩ := Prog.bind_done hrun
  have h₁ := (hp trivial hfirst).1
  have hle : s.cg.numLabels ≤ s₁.cg.numLabels := by
    rw [h₁.cg]
    exact numLabels_le_runCalls _ _
  have h₂ := (hf a (fun x hx => Int.lt_of_lt_of_le (howed x hx) (Int.ofNat_le.mpr hle)) hsecond).1
  exact ⟨h₁.seq h₂ howed, trivial⟩

/-- A new label is owed by what follows. -/
theorem new {f : Int → Parse β} (hf : ∀ id, Owes (id :: owed) (f id)) :
    Owes owed (cgNewLabel >>= f) := by
  intro s b s' l howed hrun
  rw [Prog.bind_run_prepend (cgNewLabel_run s)] at hrun
  generalize hs₁ : ({ s with cg := CgCall.newLabel.run s.cg } : Compiler) = s₁ at hrun
  have hcg : s₁.cg = CgCall.newLabel.run s.cg := by rw [← hs₁]
  cases hsecond : f s.cg.freshLabel s₁ with
  | mk out s₂ l₂ =>
    rw [hsecond] at hrun
    cases hrun
    have hbelow : ∀ x ∈ s.cg.freshLabel :: owed, x < s₁.cg.numLabels := by
      intro x hx
      rw [hcg]
      rcases List.mem_cons.mp hx with rfl | hx
      · exact freshLabel_lt_run _ rfl s.cg
      · exact Int.lt_of_lt_of_le (howed x hx) (Int.ofNat_le.mpr (numLabels_le_run .newLabel s.cg))
    obtain ⟨h, -⟩ := hf _ hbelow hsecond
    exact ⟨h.cons (l := l₂) .newLabel hcg rfl nofun (.new rfl rfl howed (hcg ▸ h.labels)), trivial⟩

/-- An owed label is placed. -/
theorem place {id : Int} {f : Unit → Parse β} (hf : Owes owed (f ())) :
    Owes (id :: owed) (cg (.label id) >>= f) := by
  intro s b s' l howed hrun
  rw [Prog.bind_run_prepend (cg_run (.label id) s)] at hrun
  generalize hs₁ : ({ s with cg := (CgCall.label id).run s.cg } : Compiler) = s₁ at hrun
  have hcg : s₁.cg = (CgCall.label id).run s.cg := by rw [← hs₁]
  have hnum : s₁.cg.numLabels = s.cg.numLabels := by
    rw [hcg, CgCall.run_eq]
    exact ite_self _
  cases hsecond : f () s₁ with
  | mk out s₂ l₂ =>
    rw [hsecond] at hrun
    cases hrun
    have hbelow : ∀ x ∈ owed, x < s₁.cg.numLabels := fun x hx =>
      hnum ▸ howed x (List.mem_cons_of_mem id hx)
    obtain ⟨h, -⟩ := hf hbelow hsecond
    have hid := howed id List.mem_cons_self
    exact ⟨h.cons (l := l₂) (.label id) hcg rfl nofun (.place rfl rfl hid (hcg ▸ h.labels)), trivial⟩

/-- An owed label is placed at the end. -/
theorem place_last (id : Int) : Owes (id :: owed) (cg (.label id)) := by
  have hpure : Owes owed (pure () : Parse Unit) := by
    intro s a s' l _ hrun
    cases hrun
    exact ⟨.of_cg rfl, trivial⟩
  exact place (f := fun _ => pure ()) hpure

/-- The order of what is owed does not matter. -/
theorem perm {owed' : List Int} {p : Parse α} (hperm : owed.Perm owed') (h : Owes owed' p) :
    Owes owed p := by
  intro s a s' l howed hrun
  obtain ⟨htidy, -⟩ := h (fun z hz => howed z (hperm.mem_iff.mpr hz)) hrun
  exact ⟨⟨htidy.cg, htidy.strings, htidy.epilogue, htidy.rets, htidy.labels.perm hperm⟩, trivial⟩

theorem swap {x y : Int} {p : Parse α} (h : Owes (y :: x :: owed) p) : Owes (x :: y :: owed) p :=
  .perm (.swap y x owed) h

end Owes

/-! ## The laws of statements -/

/-- A call that places no label. -/
theorem tidy_emit {call : CgCall} (hstr : call.isAddString = false)
    (hfn : ∀ fn, call ≠ .funcBegin fn) (hplaces : ∀ c, call.places c = none) :
    Sat (Tidy []) (cg call) := by
  intro s a s' l _ hrun
  rw [cg_run] at hrun
  generalize hs₁ : ({ s with cg := call.run s.cg } : Compiler) = s₁ at hrun
  have hcg : s₁.cg = call.run s.cg := by rw [← hs₁]
  cases hrun
  have hrest : Tidy [] s' [] s' := .of_cg rfl
  refine ⟨hrest.cons call hcg hstr hfn (.of_nil ?_), trivial⟩
  rw [callsOf_nil, placedIds, hplaces]
  rfl

theorem tidy_tokenLaw : TokenLaw (Tidy []) :=
  .of_reading tidy_composes (fun _ _ _ _ => .of_cg rfl) fun _ _ => .of_quiet rfl rfl

theorem tidy_plain {call : CgCall} (hcall : call.isPlain = true) : Sat (Tidy []) (cg call) := by
  apply tidy_emit
  · cases call <;> first | rfl | cases hcall
  · rintro fn rfl
    cases hcall
  · intro c
    cases call <;> first | rfl | cases hcall

theorem tidy_plainLaw : PlainLaw (Tidy []) where
  toTokenLaw := tidy_tokenLaw
  emit _ hcall := tidy_plain hcall
  refer r use := by
    intro s a s' l _ hrun
    cases hrun
    exact ⟨.of_quiet rfl rfl, trivial⟩
  outside i := by
    intro s a s' l _ hrun
    cases hrun
    exact ⟨.of_quiet rfl rfl, trivial⟩

theorem tidy_next : Sat (Tidy []) lexNext := by
  intro s a s' l _ hrun
  cases hrun
  exact ⟨.of_cg rfl, trivial⟩

/-- What only changes the symbols. -/
theorem tidy_modify {f : Compiler → Compiler} (hf : ∀ s, (f s).cg = s.cg) :
    Sat (Tidy []) (Prog.modify f) := by
  intro s a s' l _ hrun
  cases hrun
  exact ⟨.of_cg (hf s), trivial⟩

theorem tidy_symbolLaw : SymbolLaw (Tidy []) where
  toTokenLaw := tidy_tokenLaw
  declare d := by
    intro s a s' l _ hrun
    cases hrun
    exact ⟨.of_quiet rfl rfl, trivial⟩
  symbols _ := tidy_modify fun _ => rfl

theorem tidy_callFunction (name : List UInt8) : Sat (Tidy []) (callFunction name) :=
  SymbolLaw.callFunction tidy_symbolLaw (fun _ => tidy_emit rfl nofun fun _ => rfl) name

/-- A string is added and loaded. -/
theorem Tidy.of_string {s s' : Compiler} {str : List UInt8} {n : Int}
    (hcg : s'.cg = (CgCall.loadNum n).run ((CgCall.addString str).run s.cg)) :
    Tidy [] s [.emit (.addString str), .emit (.loadNum n)] s' where
  cg := by
    rw [hcg, callsOf_emit, callsOf_emit, callsOf_nil, runCalls_cons, runCalls_cons, runCalls_nil]
  strings := ⟨nofun, fun _ => ⟨n, rfl⟩, rfl⟩
  epilogue := by rw [hcg, epilogue_run (.loadNum n) nofun, epilogue_run (.addString str) nofun]
  rets _ := ⟨nofun, nofun, trivial⟩
  labels := .of_nil rfl

theorem tidy_string (str : List UInt8) : Sat (Tidy []) (do cg (.loadNum (← cgAddString str))) := by
  intro s a s' l _ hrun
  have hstring : cgAddString str s = ⟨.done (s.cg.stringPos : Int),
      { s with cg := (CgCall.addString str).run s.cg }, [.emit (.addString str)]⟩ := rfl
  rw [Prog.bind_run_prepend hstring, cg_run] at hrun
  cases hrun
  refine ⟨.of_string ?_, trivial⟩
  dsimp only

/-- `&&` and `||`, from the label on. -/
theorem tidy_shortCircuit {operand : Parse Unit} {jump : Int → CgCall} (decided other : Int)
    (hjump : ∀ id, (jump id).isPlain = true) (h : Sat (Tidy []) operand) : Sat (Tidy []) (do
      let lbl ← cgNewLabel
      cg (jump lbl)
      operand
      cg (jump lbl)
      cg (.loadNum other)
      let last ← cgNewLabel
      cg (.jump last)
      cg (.label lbl)
      cg (.loadNum decided)
      cg (.label last)) := by
  apply Owes.sat
  apply Owes.new
  intro lbl
  apply Owes.seq (tidy_plain (hjump lbl))
  intro _
  apply Owes.seq h
  intro _
  apply Owes.seq (tidy_plain (hjump lbl))
  intro _
  apply Owes.seq (tidy_plain rfl)
  intro _
  apply Owes.new
  intro last
  apply Owes.seq (tidy_plain rfl)
  intro _
  apply Owes.swap
  apply Owes.place
  exact .seq (tidy_plain rfl) fun _ => .place_last last

/-- The productions for expressions. -/
theorem tidy_exprLaw : ExprLaw (Tidy []) := by
  have hT := tidy_tokenLaw
  apply PlainLaw.exprLaw tidy_plainLaw tidy_string tidy_callFunction
  · intro unary fuel h
    exact .take hT nofun (tidy_shortCircuit 0 1 (fun _ => rfl) h)
  · intro unary fuel h
    exact .take hT nofun (tidy_shortCircuit 1 0 (fun _ => rfl) h)

section Statements

variable {expr stmt : Parse Unit} (hexpr : Sat (Tidy []) expr) (hstmt : Sat (Tidy []) stmt)

include hexpr in
/-- An expression where there is one. -/
theorem tidy_unless (t : Tok) (k : Parse Unit) {owed : List Int} (hk : Owes owed k) :
    Owes owed (do
      if (← lexPeek) ≠ t then expr
      k) := by
  have hT := tidy_tokenLaw
  apply Owes.seq (.lexPeek hT)
  intro next
  show Owes owed (if next ≠ t then _ else _)
  split
  · exact .seq hexpr fun _ => hk
  · exact hk

include hexpr hstmt in
theorem tidy_if : Sat (Tidy []) (parseIf expr stmt) := by
  have hT := tidy_tokenLaw
  apply Owes.sat
  apply Owes.seq (.expect hT .lparen nofun)
  intro _
  apply Owes.seq hexpr
  intro _
  apply Owes.seq (.expect hT .rparen nofun)
  intro _
  apply Owes.new
  intro elseLabel
  apply Owes.seq (tidy_plain rfl)
  intro _
  apply Owes.seq hstmt
  intro _
  apply Owes.seq (.lexPeek hT)
  intro next
  split
  · apply Owes.seq tidy_next
    intro _
    apply Owes.new
    intro endLabel
    apply Owes.seq (tidy_plain rfl)
    intro _
    apply Owes.swap
    apply Owes.place
    exact .seq hstmt fun _ => .place_last endLabel
  · exact .place_last elseLabel

theorem tidy_enterLoop (breakLabel continueLabel : Int) :
    Sat (Tidy []) (enterLoop breakLabel continueLabel) := by
  apply tidy_modify
  intro s
  split <;> rfl

theorem tidy_leaveLoop : Sat (Tidy []) leaveLoop := tidy_modify fun _ => rfl

include hexpr hstmt in
theorem tidy_while : Sat (Tidy []) (parseWhile expr stmt) := by
  have hT := tidy_tokenLaw
  apply Owes.sat
  apply Owes.new
  intro top
  apply Owes.new
  intro last
  apply Owes.seq (tidy_enterLoop last top)
  intro _
  apply Owes.swap
  apply Owes.place
  apply Owes.seq (.expect hT .lparen nofun)
  intro _
  apply Owes.seq hexpr
  intro _
  apply Owes.seq (.expect hT .rparen nofun)
  intro _
  apply Owes.seq (tidy_plain rfl)
  intro _
  apply Owes.seq hstmt
  intro _
  apply Owes.seq (tidy_plain rfl)
  intro _
  apply Owes.place
  exact .of_sat tidy_leaveLoop

include hexpr hstmt in
theorem tidy_for : Sat (Tidy []) (parseFor expr stmt) := by
  have hT := tidy_tokenLaw
  apply Owes.sat
  apply Owes.seq (.expect hT .lparen nofun)
  intro _
  apply tidy_unless hexpr
  apply Owes.seq (.expect hT .semi nofun)
  intro _
  apply Owes.new
  intro top
  apply Owes.new
  intro last
  apply Owes.new
  intro stepLabel
  apply Owes.seq (tidy_enterLoop last stepLabel)
  intro _
  -- from the condition on
  have hrest : Owes [stepLabel, last] (do
      expect .semi
      cg (.jumpZero last)
      let bodyLabel ← cgNewLabel
      cg (.jump bodyLabel)
      cg (.label stepLabel)
      if (← lexPeek) ≠ .rparen then expr
      expect .rparen
      cg (.jump top)
      cg (.label bodyLabel)
      stmt
      cg (.jump stepLabel)
      cg (.label last)
      leaveLoop) := by
    apply Owes.seq (.expect hT .semi nofun)
    intro _
    apply Owes.seq (tidy_plain rfl)
    intro _
    apply Owes.new
    intro bodyLabel
    apply Owes.seq (tidy_plain rfl)
    intro _
    apply Owes.swap
    apply Owes.place
    apply tidy_unless hexpr
    apply Owes.seq (.expect hT .rparen nofun)
    intro _
    apply Owes.seq (tidy_plain rfl)
    intro _
    apply Owes.place
    apply Owes.seq hstmt
    intro _
    apply Owes.seq (tidy_plain rfl)
    intro _
    apply Owes.place
    exact .of_sat tidy_leaveLoop
  apply Owes.perm (@List.perm_append_comm _ [stepLabel, last] [top])
  apply Owes.place
  apply Owes.seq (.lexPeek hT)
  intro next
  show Owes _ (if next ≠ .semi then _ else _)
  split
  · exact .seq hexpr fun _ => hrest
  · exact .seq (tidy_plain rfl) fun _ => hrest

include hexpr hstmt in
theorem tidy_do : Sat (Tidy []) (parseDoWhile expr stmt) := by
  have hT := tidy_tokenLaw
  apply Owes.sat
  apply Owes.new
  intro top
  apply Owes.new
  intro last
  apply Owes.new
  intro cont
  apply Owes.seq (tidy_enterLoop last cont)
  intro _
  apply Owes.perm (@List.perm_append_comm _ [cont, last] [top])
  apply Owes.place
  apply Owes.seq hstmt
  intro _
  apply Owes.place
  apply Owes.seq (.expect hT .whileTok nofun)
  intro _
  apply Owes.seq (.expect hT .lparen nofun)
  intro _
  apply Owes.seq hexpr
  intro _
  apply Owes.seq (.expect hT .rparen nofun)
  intro _
  apply Owes.seq (.expect hT .semi nofun)
  intro _
  apply Owes.seq (tidy_plain rfl)
  intro _
  apply Owes.place
  exact .of_sat tidy_leaveLoop

end Statements

/-- The productions for statements. -/
theorem tidy_stmtLaw : StmtLaw (Tidy []) where
  toExprLaw := tidy_exprLaw
  ifStmt := tidy_if
  whileStmt := tidy_while
  forStmt := tidy_for
  doStmt := tidy_do
  returnStmt := PlainLaw.returnStmt tidy_plainLaw
  breakStmt := PlainLaw.loopJump tidy_plainLaw (t := .breakTok) nofun _ _
  continueStmt := PlainLaw.loopJump tidy_plainLaw (t := .continueTok) nofun _ _
  localDecl dt fuel hexpr := SymbolLaw.localDecl tidy_symbolLaw tidy_plainLaw hexpr dt fuel

/-! ## Whole programs -/

/-- A stretch that can be linked: the strings are loaded, the returns are in functions, and the
labels placed are new ones, each once. -/
structure Linkable (s : Compiler) (log : List Event) (s' : Compiler) : Prop where
  cg : s'.cg = runCalls (callsOf log) s.cg
  strings : StringsLoaded false (callsOf log)
  rets : RetsIn s.cg (callsOf log)
  labels : Placing [] s.cg (callsOf log)

namespace Linkable

/-- One call that neither returns nor places a label. -/
theorem of_call {s s' : Compiler} {call : CgCall} (hcg : s'.cg = call.run s.cg) (hret : call ≠ .ret)
    (hstr : call.isAddString = false) (hplaces : call.places s.cg = none) :
    Linkable s [.emit call] s' := by
  refine ⟨?_, ⟨nofun, hstr⟩, ⟨fun h => absurd h hret, trivial⟩, .of_nil ?_⟩
  · rw [hcg, callsOf_emit, callsOf_nil, runCalls_cons, runCalls_nil]
  · rw [callsOf_emit, callsOf_nil, placedIds, hplaces]
    rfl

end Linkable

theorem linkable_composes : Composes Linkable where
  refl s := ⟨rfl, rfl, trivial, .of_nil rfl⟩
  trans {s s' s'' l l'} h h' := by
    have hcg := h.cg
    refine ⟨?_, ?_, ?_, ?_⟩
    · rw [h'.cg, hcg, callsOf_append, runCalls_append]
    · rw [callsOf_append]
      exact stringsLoaded_append h.strings h'.strings
    · rw [callsOf_append, retsIn_append, ← hcg]
      exact ⟨h.rets, h'.rets⟩
    · rw [callsOf_append]
      exact h.labels.append (hcg ▸ h'.labels) fun _ hx => absurd hx List.not_mem_nil

theorem linkable_of_quiet {s s' : Compiler} {l : List Event} (hcalls : callsOf l = []) (hcg : s'.cg = s.cg) :
    Linkable s l s' := by
  refine ⟨?_, ?_, ?_, ?_⟩
  · rw [hcalls]
    exact hcg
  · rw [hcalls]
    rfl
  · rw [hcalls]
    trivial
  · rw [hcalls]
    exact .of_nil rfl

theorem linkable_of_cg {s s' : Compiler} (hcg : s'.cg = s.cg) : Linkable s [] s' := linkable_of_quiet rfl hcg

theorem linkable_symbolLaw : SymbolLaw Linkable where
  toTokenLaw := .of_reading linkable_composes (fun _ _ _ _ => linkable_of_cg rfl) fun _ _ => linkable_of_quiet rfl rfl
  declare d := by
    intro s a s' l _ hrun
    cases hrun
    exact ⟨linkable_of_quiet rfl rfl, trivial⟩
  symbols f := by
    intro s a s' l _ hrun
    cases hrun
    exact ⟨linkable_of_cg rfl, trivial⟩

/-- The body of a function: the label of its end is new, and placed at the end. -/
theorem linkable_body (fuel : Nat) (fn : SymRef) : Sat Linkable (do
    cgFuncBegin fn
    parseBlock (parseStatement fuel fuel) fuel
    cg .funcEnd) := by
  intro s a s' l _ hrun
  obtain ⟨_, s₁, l₁, _, hbegin, hrest, rfl⟩ := Prog.bind_done hrun
  obtain ⟨_, s₂, l₂, l₃, hblock, hend, rfl⟩ := Prog.bind_done hrest
  obtain ⟨hcg₁, rfl⟩ := cgFuncBegin_done hbegin
  obtain ⟨hcg', rfl⟩ := cg_done hend
  obtain ⟨h, -⟩ := StmtLaw.block tidy_stmtLaw (StmtLaw.statement tidy_stmtLaw fuel fuel) fuel trivial hblock
  have hepi₁ : s₁.cg.funcEpilogueLabel = s.cg.freshLabel := by rw [hcg₁, CgCall.run_eq]
  have hepi₂ : s₂.cg.funcEpilogueLabel = s.cg.freshLabel := h.epilogue.trans hepi₁
  have hcalls : callsOf ([.emit (.funcBegin fn)] ++ (l₂ ++ [.emit .funcEnd])) =
      .funcBegin fn :: (callsOf l₂ ++ [.funcEnd]) := by
    rw [callsOf_append, callsOf_append]
    rfl
  have hlast : Placing [s.cg.freshLabel] s₂.cg [.funcEnd] := by
    have hbelow : s.cg.freshLabel < s₂.cg.numLabels := by
      apply Int.lt_of_lt_of_le (freshLabel_lt_run (.funcBegin fn) rfl s.cg)
      rw [h.cg, ← hcg₁]
      exact Int.ofNat_le.mpr (numLabels_le_runCalls _ _)
    exact .place rfl (congrArg some hepi₂) hbelow (.of_nil rfl)
  refine ⟨⟨?_, ?_, ?_, ?_⟩, trivial⟩
  · rw [hcalls, runCalls_cons, runCalls_append, runCalls_cons, runCalls_nil, hcg', h.cg, hcg₁]
  · rw [hcalls]
    exact ⟨nofun, stringsLoaded_append h.strings ⟨nofun, rfl⟩⟩
  · rw [hcalls]
    refine ⟨nofun, (retsIn_append _ _ _).mpr ?_⟩
    rw [← hcg₁, ← h.cg]
    exact ⟨h.rets (hepi₁ ▸ s.cg.freshLabel_nonneg), nofun, trivial⟩
  · rw [hcalls]
    apply Placing.new rfl rfl fun _ hx => absurd hx List.not_mem_nil
    rw [← hcg₁]
    apply h.labels.append (h.cg ▸ hlast)
    intro x hx
    rw [List.mem_singleton.mp hx, hcg₁]
    exact freshLabel_lt_run _ rfl s.cg

/-- Every program can be linked. -/
theorem linkable_program (fuel : Nat) : Sat Linkable (parseProgram fuel) := by
  apply Sat.seq (SymbolLaw.toTokenLaw linkable_symbolLaw)
  · intro s a s' l _ hrun
    cases hrun
    exact ⟨linkable_of_cg rfl, trivial⟩
  · intro _
    have hdecls := SymbolLaw.programLaw linkable_symbolLaw (fun bytes => ?_) linkable_body
    · exact hdecls.declarations fuel fuel
    · intro s a s' l _ hrun
      cases hrun
      exact ⟨.of_call rfl nofun rfl rfl, trivial⟩

end RainbowOs.Cc
