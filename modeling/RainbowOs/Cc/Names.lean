import RainbowOs.Cc.Reading
import RainbowOs.Cc.Preproc
import Mathlib.Data.List.TakeDrop

/-!
# The lengths of names

The lexer reads identifiers of up to 63 characters, and a symbol has room for
23 of them. Where the parser copies a name, it has an array of the size of a
symbol's, and does not look at the length; where it hands a name to the symbol
table itself, the table cuts it short, and does not find it again.
-/

namespace RainbowOs.Cc

open RainbowOs.Lib

/-! ## The symbol table -/

namespace Symbols

variable {name : List UInt8} {l : List Symbol} {t : Symbols} {kind : SymKind} {dt : DataType}

theorem indexOf_lt {i : Nat} (h : indexOf name l = some i) : i < l.length := by
  induction l generalizing i with
  | nil => cases h
  | cons s l ih =>
    rw [indexOf] at h
    split at h
    · cases h
      exact Nat.zero_lt_succ _
    · obtain ⟨j, hj, rfl⟩ := Option.map_eq_some_iff.mp h
      exact Nat.succ_lt_succ (ih hj)

/-- A symbol that is found has the name. -/
theorem name_of_indexOf {i : Nat} (h : indexOf name l = some i) : (l.map (·.name))[i]? = some name := by
  induction l generalizing i with
  | nil => cases h
  | cons s l ih =>
    rw [indexOf] at h
    split at h
    · next hname =>
      cases h
      exact congrArg some hname
    · obtain ⟨j, hj, rfl⟩ := Option.map_eq_some_iff.mp h
      exact ih hj

/-- The search reads the names only. -/
theorem indexOf_congr {l' : List Symbol} (h : l.map (·.name) = l'.map (·.name)) :
    indexOf name l = indexOf name l' := by
  induction l generalizing l' with
  | nil =>
    rw [List.map_nil] at h
    rw [List.map_eq_nil_iff.mp h.symm]
  | cons s l ih =>
    obtain ⟨s', l', rfl, hs, hl⟩ := List.map_eq_cons_iff.mp h.symm
    rw [indexOf, indexOf, ih hl.symm, hs]

theorem names_numberParams (idx : Nat) (l : List Symbol) :
    (numberParams idx l).map (·.name) = l.map (·.name) := by
  induction l generalizing idx with
  | nil => rfl
  | cons s l ih =>
    rw [numberParams]
    split <;> rw [List.map_cons, List.map_cons, ih]

/-- The last symbol is found by its name, if there is no other one. -/
theorem indexOf_concat (s : Symbol) : indexOf name (l ++ [s]) = some l.length ↔
    s.name = name ∧ indexOf name l = none := by
  induction l with
  | nil =>
    rw [List.nil_append, indexOf]
    by_cases h : s.name = name <;> simp [h, indexOf]
  | cons s' l ih =>
    rw [List.cons_append, indexOf, indexOf]
    split
    · simp
    · simp [ih]

theorem findLocal_eq_null : t.findLocal name = .null ↔ indexOf name t.locals = none := by
  unfold findLocal
  split
  · next h => simp [h]
  · next h => simp [h]

theorem findGlobal_eq_null : t.findGlobal name = .null ↔ indexOf name t.globals = none := by
  unfold findGlobal
  split
  · next h => simp [h]
  · next h => simp [h]

theorem findGlobal_eq_glob {i : Nat} : t.findGlobal name = .glob i ↔ indexOf name t.globals = some i := by
  unfold findGlobal
  split
  · next h => simp [h]
  · next h => simp [h]

theorem find_eq_loc {i : Nat} : t.find name = .loc i ↔ indexOf name t.locals = some i := by
  unfold find
  split
  · next h =>
    rw [findLocal_eq_null.mp h]
    unfold findGlobal
    split <;> simp
  · unfold findLocal
    split
    · next h => simp [h]
    · next h => simp [h]

theorem addLocal_of_room (h : (t.addLocal name kind dt).1 ≠ .null) :
    (t.addLocal name kind dt).1 = .loc t.locals.length ∧ ∃ s : Symbol, s.name = name.take symNameMax ∧
      (t.addLocal name kind dt).2.locals.map (·.name) = (t.locals ++ [s]).map (·.name) := by
  unfold addLocal at h ⊢
  split
  · next hfull =>
    rw [if_pos hfull] at h
    exact absurd rfl h
  · split
    · exact ⟨rfl, _, rfl, names_numberParams 0 _⟩
    · exact ⟨rfl, _, rfl, rfl⟩

/-- A local is found by the name that it was declared with if the name fits and was not there. -/
theorem find_addLocal (h : (t.addLocal name kind dt).1 ≠ .null) :
    (t.addLocal name kind dt).2.find name = (t.addLocal name kind dt).1 ↔
      name.length ≤ symNameMax ∧ t.findLocal name = .null := by
  obtain ⟨hr, s, hs, hnames⟩ := addLocal_of_room h
  rw [hr, find_eq_loc, indexOf_congr hnames, indexOf_concat, hs, List.take_eq_self_iff, findLocal_eq_null]

theorem findGlobal_addGlobal (h : (t.addGlobal name kind dt).1 ≠ .null) :
    (t.addGlobal name kind dt).2.findGlobal name = (t.addGlobal name kind dt).1 ↔
      name.length ≤ symNameMax ∧ t.findGlobal name = .null := by
  unfold addGlobal at h ⊢
  split
  · next hfull =>
    rw [if_pos hfull] at h
    exact absurd rfl h
  · rw [findGlobal_eq_glob, indexOf_concat, List.take_eq_self_iff, findGlobal_eq_null]

/-- The name by which a symbol is found. -/
def nameAt (t : Symbols) : SymRef → Option (List UInt8)
  | .null => none
  | .glob i => (t.globals.map (·.name))[i]?
  | .loc i => (t.locals.map (·.name))[i]?

theorem nameAt_find (h : t.find name ≠ .null) : t.nameAt (t.find name) = some name := by
  unfold find at h ⊢
  split
  · next hlocal =>
    rw [if_pos hlocal] at h
    unfold findGlobal at h ⊢
    split
    · next hi => exact name_of_indexOf hi
    · next hi => simp [hi] at h
  · next hlocal =>
    unfold findLocal at hlocal ⊢
    split
    · next hi => exact name_of_indexOf hi
    · next hi => simp [hi] at hlocal

theorem nameAt_findGlobal (h : t.findGlobal name ≠ .null) : t.nameAt (t.findGlobal name) = some name := by
  unfold findGlobal at h ⊢
  split
  · next hi => exact name_of_indexOf hi
  · next hi => simp [hi] at h

/-- A symbol is not found by two names. -/
theorem find_injective {name' : List UInt8} (h : t.find name = t.find name') (hfound : t.find name ≠ .null) :
    name = name' := by
  have hname := nameAt_find hfound
  rw [h, nameAt_find (h ▸ hfound)] at hname
  exact (Option.some_inj.mp hname).symm

theorem findGlobal_injective {name' : List UInt8} (h : t.findGlobal name = t.findGlobal name')
    (hfound : t.findGlobal name ≠ .null) : name = name' := by
  have hname := nameAt_findGlobal hfound
  rw [h, nameAt_findGlobal (h ▸ hfound)] at hname
  exact (Option.some_inj.mp hname).symm

theorem addLocal_eq_null : (t.addLocal name kind dt).1 = .null ↔ ¬t.locals.length < symMaxLocal := by
  unfold addLocal
  rw [Nat.not_lt]
  split
  · next hfull => exact ⟨fun _ => hfull, fun _ => rfl⟩
  · next hroom => split <;> exact ⟨nofun, fun h => absurd h hroom⟩

theorem addGlobal_eq_null : (t.addGlobal name kind dt).1 = .null ↔ ¬t.globals.length < symMaxGlobal := by
  unfold addGlobal
  rw [Nat.not_lt]
  split
  · next hfull => exact ⟨fun _ => hfull, fun _ => rfl⟩
  · next hroom => exact ⟨nofun, fun h => absurd h hroom⟩

/-- Distinct names denote distinct symbols. -/
structure Distinct (t : Symbols) : Prop where
  find : ∀ name name', t.find name = t.find name' → t.find name ≠ .null → name = name'
  findGlobal : ∀ name name', t.findGlobal name = t.findGlobal name' → t.findGlobal name ≠ .null →
    name = name'

theorem distinct (t : Symbols) : t.Distinct := ⟨fun _ _ => find_injective, fun _ _ => findGlobal_injective⟩

end Symbols

/-! ## Declarations -/

/-- There is a symbol, and the name finds it. -/
def Declaration.Found (d : Declaration) : Prop :=
  d.sym ≠ .null ∧
    match d.kind with
    | .localVar | .param => d.after.find d.name = d.sym
    | .globalVar | .function => d.after.findGlobal d.name = d.sym

/-- What a declaration asks for: the name fits into a symbol, and the table has no symbol of the name and room
for one. A function may have its symbol already. -/
def Declaration.Clear (d : Declaration) : Prop :=
  match d.kind with
  | .localVar | .param =>
    d.name.length ≤ symNameMax ∧ d.before.findLocal d.name = .null ∧ d.before.locals.length < symMaxLocal
  | .globalVar =>
    d.name.length ≤ symNameMax ∧ d.before.findGlobal d.name = .null ∧ d.before.globals.length < symMaxGlobal
  | .function =>
    d.before.findGlobal d.name = .null → d.name.length ≤ symNameMax ∧ d.before.globals.length < symMaxGlobal

/-- The declarations that the parser makes: a local, a global, a function that has no symbol yet, and one
that has. -/
inductive Declaration.Made : Declaration → Prop
  | local {name : List UInt8} {kind : SymKind} (t : Symbols) (dt : DataType)
      (hkind : kind = .localVar ∨ kind = .param) :
      Made ⟨name, kind, t, (t.addLocal name kind dt).1, (t.addLocal name kind dt).2⟩
  | global {name : List UInt8} (t : Symbols) (dt : DataType) :
      Made ⟨name, .globalVar, t, (t.addGlobal name .globalVar dt).1, (t.addGlobal name .globalVar dt).2⟩
  | function {name : List UInt8} (t : Symbols) (dt : DataType) (hnew : t.findGlobal name = .null) :
      Made ⟨name, .function, t, (t.addGlobal name .function dt).1, (t.addGlobal name .function dt).2⟩
  | kept {name : List UInt8} (t : Symbols) (hfound : t.findGlobal name ≠ .null) :
      Made ⟨name, .function, t, t.findGlobal name, t⟩

theorem Declaration.Made.found_iff {d : Declaration} (h : d.Made) : d.Found ↔ d.Clear := by
  have hlocal {name : List UInt8} (t : Symbols) (kind : SymKind) (dt : DataType) :
      ((t.addLocal name kind dt).1 ≠ .null ∧
        (t.addLocal name kind dt).2.find name = (t.addLocal name kind dt).1) ↔
      name.length ≤ symNameMax ∧ t.findLocal name = .null ∧ t.locals.length < symMaxLocal := by
    by_cases hroom : t.locals.length < symMaxLocal
    · have hsym : (t.addLocal name kind dt).1 ≠ .null := fun h => Symbols.addLocal_eq_null.mp h hroom
      simp [hsym, Symbols.find_addLocal hsym, hroom]
    · simp [Symbols.addLocal_eq_null.mpr hroom, hroom]
  have hglobal {name : List UInt8} (t : Symbols) (kind : SymKind) (dt : DataType) :
      ((t.addGlobal name kind dt).1 ≠ .null ∧
        (t.addGlobal name kind dt).2.findGlobal name = (t.addGlobal name kind dt).1) ↔
      name.length ≤ symNameMax ∧ t.findGlobal name = .null ∧ t.globals.length < symMaxGlobal := by
    by_cases hroom : t.globals.length < symMaxGlobal
    · have hsym : (t.addGlobal name kind dt).1 ≠ .null := fun h => Symbols.addGlobal_eq_null.mp h hroom
      simp [hsym, Symbols.findGlobal_addGlobal hsym, hroom]
    · simp [Symbols.addGlobal_eq_null.mpr hroom, hroom]
  cases h with
  | «local» t dt hkind => rcases hkind with rfl | rfl <;> exact hlocal t _ dt
  | global t dt => exact hglobal t _ dt
  | function t dt hnew =>
    refine (hglobal t _ dt).trans ⟨fun ⟨hfits, _, hroom⟩ _ => ⟨hfits, hroom⟩, fun h => ?_⟩
    exact ⟨(h hnew).1, hnew, (h hnew).2⟩
  | kept t hfound => exact ⟨fun _ hnew => absurd hnew hfound, fun _ => ⟨hfound, rfl⟩⟩

/-- From `s` on, the array is overrun exactly after the copy of a name that is too long, and every declaration
is one that the parser makes. -/
def ToldAt {α : Type} (p : Parse α) (s : Compiler) : Prop :=
  ((p s).out = .halt .nameOverflow ↔ ∃ name, .copy name ∈ (p s).log ∧ symNameMax < name.length) ∧
    ∀ d, .declare d ∈ (p s).log → d.Made

/-- What is told from every state. -/
def Told {α : Type} (p : Parse α) : Prop := ∀ s, ToldAt p s

section

variable {α β : Type} {p : Parse α} {f : α → Parse β} {s : Compiler}

/-- Where neither a name is copied nor a symbol declared. -/
theorem toldAt_of_silent (hout : (p s).out ≠ .halt .nameOverflow) (hcopy : ∀ name, .copy name ∉ (p s).log)
    (hdeclare : ∀ d, .declare d ∉ (p s).log) : ToldAt p s :=
  ⟨⟨fun h => absurd h hout, fun ⟨name, hname, _⟩ => absurd hname (hcopy name)⟩,
    fun d hd => absurd hd (hdeclare d)⟩

/-- Of what a bind tells, its first part tells what comes first. -/
theorem ToldAt.bind (hp : ToldAt p s) (hf : ∀ a, (p s).out = .done a → ToldAt (f a) (p s).state) :
    ToldAt (p >>= f) s := by
  obtain ⟨hout, hmade⟩ := hp
  cases hrun : p s with
  | mk out s' l =>
    rw [hrun] at hout hmade hf
    cases out with
    | done a =>
      obtain ⟨hout', hmade'⟩ := hf a rfl
      rw [ToldAt, Prog.bind_run_done hrun]
      simp only [List.mem_append]
      refine ⟨hout'.trans ⟨fun ⟨name, hname, hlong⟩ => ⟨name, .inr hname, hlong⟩, ?_⟩, ?_⟩
      · rintro ⟨name, hname | hname, hlong⟩
        · cases hout.mpr ⟨name, hname, hlong⟩
        · exact ⟨name, hname, hlong⟩
      · rintro d (hd | hd)
        · exact hmade d hd
        · exact hmade' d hd
    | halt e =>
      rw [ToldAt, Prog.bind_run_halt hrun]
      refine ⟨Iff.trans ⟨fun h => ?_, fun h => ?_⟩ hout, hmade⟩
      · cases h
        rfl
      · cases h
        rfl

/-- A symbol is looked up before what goes on with it. -/
theorem ToldAt.read {g : Compiler → α} (h : ToldAt (f (g s)) s) :
    ToldAt ((do return g (← Prog.get)) >>= f) s := h

theorem ToldAt.get {f : Compiler → Parse β} (h : ToldAt (f s) s) : ToldAt (Prog.get >>= f) s := h

end

namespace Told

variable {α β : Type} {p q : Parse α} {f : α → Parse β}

theorem bind (hp : Told p) (hf : ∀ a, Told (f a)) : Told (p >>= f) :=
  fun s => (hp s).bind fun a _ => hf a _

theorem pure (a : α) : Told (pure a : Parse α) :=
  fun _ => toldAt_of_silent nofun (fun _ => List.not_mem_nil) fun _ => List.not_mem_nil

theorem get : Told (Prog.get : Parse Compiler) :=
  fun _ => toldAt_of_silent nofun (fun _ => List.not_mem_nil) fun _ => List.not_mem_nil

theorem fuel : Told (Prog.halt .fuel : Parse α) :=
  fun _ => toldAt_of_silent nofun (fun _ => List.not_mem_nil) fun _ => List.not_mem_nil

theorem modify (g : Compiler → Compiler) : Told (Prog.modify g : Parse Unit) :=
  fun _ => toldAt_of_silent nofun (fun _ => List.not_mem_nil) fun _ => List.not_mem_nil

theorem emit (call : CgCall) : Told (Prog.tell (.emit call) : Parse Unit) :=
  fun _ => toldAt_of_silent nofun (by simp) (by simp)

theorem refer (r : SymRef) (use : Use) : Told (refer r use) :=
  fun _ => toldAt_of_silent nofun (by simp [RainbowOs.Cc.refer]) (by simp [RainbowOs.Cc.refer])

theorem outside (i : Nat) : Told (Prog.tell (.outside i) : Parse Unit) :=
  fun _ => toldAt_of_silent nofun (by simp) (by simp)

/-- The copy of a name: it fits, or the array is overrun. -/
theorem copyName (str : List UInt8) : Told (copyName str) := by
  intro s
  by_cases hfits : str.length ≤ symNameMax
  · have hrun : RainbowOs.Cc.copyName str s = ⟨.done str, s, [.copy str]⟩ := by
      rw [RainbowOs.Cc.copyName, if_pos hfits]
      rfl
    simp [ToldAt, hrun, hfits]
  · have hrun : RainbowOs.Cc.copyName str s = ⟨.halt .nameOverflow, s, [.copy str]⟩ := by
      rw [RainbowOs.Cc.copyName, if_neg hfits]
      rfl
    simp [ToldAt, hrun, Nat.lt_of_not_le hfits]

theorem declare {d : Declaration} (h : d.Made) : Told (tellDeclared d) := by
  intro s
  have hrun : tellDeclared d s = ⟨.done (), s, [.declare d]⟩ := rfl
  simp [ToldAt, hrun, h]

theorem ite {c : Prop} [Decidable c] (hp : Told p) (hq : Told q) : Told (if c then p else q) := by
  split
  · exact hp
  · exact hq

/-- What goes on after both branches. -/
theorem ite_bind {c : Prop} [Decidable c] (hp : Told p) (hq : Told q) (hf : ∀ a, Told (f a)) :
    Told (if c then p >>= f else q >>= f) := ite (bind hp hf) (bind hq hf)

/-- What goes on after a branch that may be left out. -/
theorem ite_then {c : Prop} [Decidable c] {p : Parse Unit} {f : Unit → Parse β} (hp : Told p)
    (hf : ∀ u, Told (f u)) : Told (if c then p >>= f else f ()) := ite (bind hp hf) (hf ())

theorem lexNext : Told lexNext := bind get fun _ => bind (modify _) fun _ => pure _

theorem lexPeek : Told lexPeek := bind get fun _ => bind (modify _) fun _ => pure _

theorem read (g : Compiler → α) : Told (do return g (← Prog.get)) := bind get fun s => pure (g s)

/-! ### The statics -/

theorem cg (call : CgCall) : Told (cg call) := bind (emit _) fun _ => modify _

theorem cgNewLabel : Told cgNewLabel := bind get fun _ => bind (cg _) fun _ => pure _

theorem cgAddString (str : List UInt8) : Told (cgAddString str) :=
  bind get fun _ => bind (cg _) fun _ => pure _

theorem cgAllocGlobal (bytes : Int) : Told (cgAllocGlobal bytes) :=
  bind get fun _ => bind (cg _) fun _ => pure _

theorem setSym (r : SymRef) (f : Symbol → Symbol) : Told (setSym r f) := modify _

/-- The variables that are added are those of a declaration. -/
theorem symAddGlobal (name : List UInt8) (dt : DataType) : Told (symAddGlobal name .globalVar dt) :=
  bind get fun s => bind (declare (.global s.syms dt)) fun _ => bind (modify _) fun _ => pure _

theorem symAddLocal (name : List UInt8) {kind : SymKind} (hkind : kind = .localVar ∨ kind = .param)
    (dt : DataType) : Told (symAddLocal name kind dt) :=
  bind get fun s => bind (declare (.local s.syms dt hkind)) fun _ => bind (modify _) fun _ => pure _

/-- A function is added only if there is no symbol of its name. -/
theorem functionSymbol (name : List UInt8) (dt : DataType) {keep : SymRef → Parse SymRef} {f : SymRef → Parse β}
    (hkeep : ∀ s, s.syms.findGlobal name ≠ .null → ToldAt (keep (s.syms.findGlobal name)) s)
    (hf : ∀ fn, Told (f fn)) :
    Told (symFindGlobal name >>= fun found =>
      if found = .null then RainbowOs.Cc.symAddGlobal name .function dt >>= f else keep found >>= f) := by
  refine fun s => ToldAt.read ?_
  split
  · next hnew =>
    refine ToldAt.bind (ToldAt.get ?_) fun fn _ => hf fn _
    exact bind (declare (.function s.syms dt hnew)) (fun _ => bind (modify _) fun _ => pure _) s
  · next hfound => exact ToldAt.bind (hkeep s hfound) fun fn _ => hf fn _

theorem symKept {name : List UInt8} {s : Compiler} (hfound : s.syms.findGlobal name ≠ .null) :
    ToldAt (symKept name (s.syms.findGlobal name)) s :=
  ToldAt.get (bind (declare (.kept s.syms hfound)) (fun _ => pure _) s)

theorem error (msg : String) : Told (error msg) := modify _

theorem expect (tok : Tok) : Told (expect tok) := bind lexNext fun _ => ite (error _) (pure ())

theorem parsePointer (dt : DataType) : Told (parsePointer dt) := by
  refine bind lexPeek fun _ => ite (bind lexNext fun _ => ?_) (pure dt)
  cases dt <;> exact pure _

theorem parseType : Told parseType := by
  refine bind lexNext fun t => ?_
  split
  · exact parsePointer _
  · exact parsePointer _
  · exact parsePointer _
  · exact bind (error _) fun _ => pure _

theorem whilePeek {more : Tok → Bool} {body : Parse Unit} (hbody : Told body) :
    ∀ n, Told (whilePeek more body n)
  | 0 => fuel
  | n + 1 => bind lexPeek fun _ => ite (bind hbody fun _ => whilePeek hbody n) (pure ())

/-! ### Expressions -/

section Expressions

variable {assign unary operand : Parse Unit} (hassign : Told assign) (hunary : Told unary)

theorem emitBuiltinCall (sysIdx argc : Nat) : Told (emitBuiltinCall sysIdx argc) :=
  ite_then (cg _) fun _ => bind (cg _) fun _ => ite (cg _) (pure ())

include hassign in
theorem parseMoreArgs : ∀ n argc, Told (parseMoreArgs assign n argc)
  | 0, _ => fuel
  | n + 1, argc => bind lexPeek fun _ => ite
      (bind lexNext fun _ => bind hassign fun _ => bind (cg _) fun _ => parseMoreArgs n (argc + 1)) (pure argc)

include hassign in
theorem parseCall (n : Nat) (name : List UInt8) : Told (parseCall assign n name) := by
  have hargs : Told (parseArgs assign n) := bind lexPeek fun _ => ite
    (bind hassign fun _ => bind (cg _) fun _ => parseMoreArgs hassign n 1) (pure 0)
  refine bind lexNext fun _ => bind hargs fun argc => bind (expect _) fun _ => ?_
  split
  · exact emitBuiltinCall _ _
  · exact functionSymbol name .int (fun s _ => pure _ s) fun _ => bind (cg _) fun _ => ite (cg _) (pure ())

theorem loadAddress (s : Symbol) : Told (loadAddress s) := ite (cg _) (cg _)

theorem loadScalar (s : Symbol) : Told (loadScalar s) := ite (cg _) (cg _)

theorem storeScalar (s : Symbol) : Told (storeScalar s) := ite (cg _) (cg _)

theorem loadVariable (r : SymRef) (s : Symbol) : Told (loadVariable r s) :=
  ite (bind (refer _ _) fun _ => loadAddress s) (bind (refer _ _) fun _ => loadScalar s)

theorem scaleIndex (s : Symbol) : Told (scaleIndex s) := ite (cg _) (pure ())

theorem derefElement (s : Symbol) : Told (derefElement s) := ite (cg _) (cg _)

/-- A name that is not declared. -/
theorem undeclared : Told (do
    RainbowOs.Cc.error "undeclared variable"
    RainbowOs.Cc.cg (.loadNum 0)) := bind (error _) fun _ => cg _

include hassign in
theorem parseElement (name : List UInt8) : Told (parseElement assign name) :=
  bind (read _) fun _ => ite undeclared
    (bind (refer _ _) fun _ => bind (read _) fun _ => bind (loadAddress _) fun _ => bind (cg _) fun _ =>
      bind lexNext fun _ => bind hassign fun _ => bind (read _) fun _ => bind (scaleIndex _) fun _ =>
      bind (cg _) fun _ => bind (cg _) fun _ => bind (read _) fun _ => bind (derefElement _) fun _ => expect _)

include hassign hunary

theorem parsePrimaryExpr (n : Nat) : Told (parsePrimaryExpr assign unary n) := by
  refine bind lexPeek fun t => ?_
  split
  · exact bind lexNext fun _ => cg _
  · exact bind lexNext fun _ => cg _
  · exact bind lexNext fun _ => bind (cgAddString _) fun _ => cg _
  · refine bind lexNext fun _ => bind (copyName _) fun name => bind lexPeek fun _ => ?_
    split
    · exact parseCall hassign n name
    · exact parseElement hassign name
    · exact bind (read _) fun r => ite undeclared (bind (read _) fun _ => loadVariable r _)
  · refine bind lexNext fun _ => bind lexPeek fun _ => ite ?_ (bind hassign fun _ => expect _)
    have hstars : Told (RainbowOs.Cc.whilePeek (· = .star) (do let _ ← RainbowOs.Cc.lexNext) n) :=
      whilePeek (bind lexNext fun _ => pure ()) n
    exact bind lexNext fun _ => bind hstars fun _ => bind (expect _) fun _ => hunary
  · exact bind (error _) fun _ => bind lexNext fun _ => cg _

theorem parsePostfixExpr (n : Nat) : Told (parsePostfixExpr assign unary n) :=
  bind (parsePrimaryExpr hassign hunary n) fun _ => whilePeek (bind lexNext fun _ => pure ()) n

omit hunary hassign in
theorem parseAddressOf : Told parseAddressOf := by
  refine bind lexNext fun _ => bind lexPeek fun _ => ?_
  split
  · exact bind lexNext fun _ => bind (read _) fun _ => ite undeclared
      (bind (refer _ _) fun _ => bind (read _) fun _ => loadAddress _)
  · exact bind (error _) fun _ => cg _

omit hassign in
theorem unaryOp (call : CgCall) : Told (unaryOp unary call) :=
  bind lexNext fun _ => bind hunary fun _ => cg call

omit hunary in
theorem parseUnaryExpr (loops : Nat) : ∀ n, Told (parseUnaryExpr assign loops n)
  | 0 => fuel
  | n + 1 => by
    have ih := parseUnaryExpr loops n
    refine bind lexPeek fun _ => ?_
    split
    · exact unaryOp ih _
    · exact unaryOp ih _
    · exact unaryOp ih _
    · exact unaryOp ih _
    · exact parseAddressOf
    · exact parsePostfixExpr hassign ih loops

omit hassign hunary

theorem binary (hoperand : Told operand) (call : Tok → CgCall) : Told (binary operand call) :=
  bind lexNext fun _ => bind (cg _) fun _ => bind hoperand fun _ => bind (cg _) fun _ => cg _

theorem level (isOp : Tok → Bool) (call : Tok → CgCall) (hoperand : Told operand) (n : Nat) :
    Told (level isOp call operand n) :=
  bind hoperand fun _ => whilePeek (binary hoperand call) n

include hunary

theorem parseMulExpr (n : Nat) : Told (parseMulExpr unary n) := level _ _ hunary n

theorem parseAddExpr (n : Nat) : Told (parseAddExpr unary n) := level _ _ (parseMulExpr hunary n) n

theorem parseEqExpr (n : Nat) : Told (parseEqExpr unary n) :=
  level _ _ (level _ _ (level _ _ (parseAddExpr hunary n) n) n) n

theorem parseBitorExpr (n : Nat) : Told (parseBitorExpr unary n) :=
  level _ _ (level _ _ (level _ _ (parseEqExpr hunary n) n) n) n

theorem andStep (n : Nat) : Told (andStep unary n) :=
  bind lexNext fun _ => bind cgNewLabel fun _ => bind (cg _) fun _ => bind (parseBitorExpr hunary n) fun _ =>
    bind (cg _) fun _ => bind (cg _) fun _ => bind cgNewLabel fun _ => bind (cg _) fun _ =>
    bind (cg _) fun _ => bind (cg _) fun _ => cg _

theorem parseAndExpr (n : Nat) : Told (parseAndExpr unary n) :=
  bind (parseBitorExpr hunary n) fun _ => whilePeek (andStep hunary n) n

theorem orStep (n : Nat) : Told (orStep unary n) :=
  bind lexNext fun _ => bind cgNewLabel fun _ => bind (cg _) fun _ => bind (parseAndExpr hunary n) fun _ =>
    bind (cg _) fun _ => bind (cg _) fun _ => bind cgNewLabel fun _ => bind (cg _) fun _ =>
    bind (cg _) fun _ => bind (cg _) fun _ => cg _

theorem parseOrExpr (n : Nat) : Told (parseOrExpr unary n) :=
  bind (parseAndExpr hunary n) fun _ => whilePeek (orStep hunary n) n

theorem continueBinops (n : Nat) : Told (continueBinops unary n) := by
  have hadd := parseAddExpr hunary n
  have heq := parseEqExpr hunary n
  refine whilePeek (bind lexPeek fun _ => ?_) n
  exact ite (binary (parseMulExpr hunary n) _) (ite (binary hunary _) (ite (binary hadd _)
    (ite (andStep hunary n) (ite (orStep hunary n) (ite (binary heq _) (ite (binary heq _)
    (ite (binary heq _) (binary hadd _))))))))

omit hunary
include hassign

theorem parseSimpleAssign (name : List UInt8) : Told (parseSimpleAssign assign name) :=
  bind lexNext fun _ => bind hassign fun _ => bind (read _) fun _ => ite (error _)
    (bind (refer _ _) fun _ => bind (read _) fun _ => storeScalar _)

theorem parseCompoundAssign (name : List UInt8) : Told (parseCompoundAssign assign name) :=
  bind lexNext fun _ => bind (read _) fun _ => ite (error _)
    (bind (refer _ _) fun _ => bind (read _) fun _ => bind (loadScalar _) fun _ => bind (cg _) fun _ =>
      bind hassign fun _ => bind (cg _) fun _ => bind (cg _) fun _ => bind (refer _ _) fun _ =>
      bind (read _) fun _ => storeScalar _)

theorem parseElementAssign (name : List UInt8) : Told (parseElementAssign assign name) := by
  refine bind (read _) fun _ => ite (error _) (bind lexNext fun _ => bind (refer _ _) fun _ =>
    bind (read _) fun _ => bind (loadAddress _) fun _ => bind (cg _) fun _ => bind hassign fun _ =>
    bind (read _) fun _ => bind (scaleIndex _) fun _ => bind (cg _) fun _ => bind (cg _) fun _ =>
    bind (cg _) fun _ => bind (expect _) fun _ => bind lexPeek fun _ => ite ?_ ?_)
  · exact bind lexNext fun _ => bind (cg _) fun _ => bind hassign fun _ => bind (cg _) fun _ =>
      bind (read _) fun _ => ite (cg _) (cg _)
  · exact bind (cg _) fun _ => bind (cg _) fun _ => bind (read _) fun _ => derefElement _

omit hassign in
theorem loadNamed (name : List UInt8) : Told (loadNamed name) :=
  bind (read _) fun r => ite undeclared (bind (read _) fun _ => ite (cg _) (loadVariable r _))

omit hassign in
theorem parseAssignExpr (loops : Nat) : ∀ n, Told (parseAssignExpr loops n)
  | 0 => fuel
  | n + 1 => by
    have ih := parseAssignExpr loops n
    have hun := parseUnaryExpr ih loops loops
    have hbinops := continueBinops hun loops
    refine bind lexPeek fun t => ?_
    split
    · refine bind lexNext fun _ => bind (copyName _) fun name => bind lexPeek fun _ => ?_
      exact ite (parseSimpleAssign ih name) (ite (parseCompoundAssign ih name) (ite (parseElementAssign ih name)
        (ite (bind (parseCall ih loops name) fun _ => hbinops) (bind (loadNamed name) fun _ => hbinops))))
    · refine bind lexNext fun _ => bind hun fun _ => bind lexPeek fun _ => ite ?_ (bind (cg _) fun _ => hbinops)
      exact bind lexNext fun _ => bind (cg _) fun _ => bind ih fun _ => bind (cg _) fun _ => cg _
    · exact parseOrExpr hun loops

omit hassign in
theorem parseExpr (n : Nat) : Told (parseExpr n) := parseAssignExpr n n

end Expressions

/-! ### Statements -/

theorem enterLoop (breakLabel continueLabel : Int) : Told (enterLoop breakLabel continueLabel) := by
  exact modify _

theorem leaveLoop : Told leaveLoop := modify _

section Statements

variable {expr stmt : Parse Unit} (hexpr : Told expr) (hstmt : Told stmt)

include hexpr hstmt

theorem parseIf : Told (parseIf expr stmt) := by
  refine bind (expect _) fun _ => bind hexpr fun _ => bind (expect _) fun _ => bind cgNewLabel fun _ =>
    bind (cg _) fun _ => bind hstmt fun _ => bind lexPeek fun _ => ite ?_ (cg _)
  exact bind lexNext fun _ => bind cgNewLabel fun _ => bind (cg _) fun _ => bind (cg _) fun _ =>
    bind hstmt fun _ => cg _

theorem parseWhile : Told (parseWhile expr stmt) :=
  bind cgNewLabel fun _ => bind cgNewLabel fun _ => bind (enterLoop _ _) fun _ => bind (cg _) fun _ =>
    bind (expect _) fun _ => bind hexpr fun _ => bind (expect _) fun _ => bind (cg _) fun _ =>
    bind hstmt fun _ => bind (cg _) fun _ => bind (cg _) fun _ => leaveLoop

theorem parseFor : Told (parseFor expr stmt) :=
  bind (expect _) fun _ => bind lexPeek fun _ => ite_then hexpr fun _ => bind (expect _) fun _ =>
    bind cgNewLabel fun _ => bind cgNewLabel fun _ => bind cgNewLabel fun _ => bind (enterLoop _ _) fun _ =>
    bind (cg _) fun _ => bind lexPeek fun _ => ite_bind hexpr (cg _) fun _ => bind (expect _) fun _ =>
    bind (cg _) fun _ => bind cgNewLabel fun _ => bind (cg _) fun _ => bind (cg _) fun _ =>
    bind lexPeek fun _ => ite_then hexpr fun _ => bind (expect _) fun _ => bind (cg _) fun _ =>
    bind (cg _) fun _ => bind hstmt fun _ => bind (cg _) fun _ => bind (cg _) fun _ => leaveLoop

theorem parseDoWhile : Told (parseDoWhile expr stmt) :=
  bind cgNewLabel fun _ => bind cgNewLabel fun _ => bind cgNewLabel fun _ => bind (enterLoop _ _) fun _ =>
    bind (cg _) fun _ => bind hstmt fun _ => bind (cg _) fun _ => bind (expect _) fun _ =>
    bind (expect _) fun _ => bind hexpr fun _ => bind (expect _) fun _ => bind (expect _) fun _ =>
    bind (cg _) fun _ => bind (cg _) fun _ => leaveLoop

omit hstmt in
theorem parseReturn : Told (parseReturn expr) :=
  bind lexPeek fun _ => ite_then hexpr fun _ => bind (expect _) fun _ => cg _

omit hstmt in
theorem parseLocalInit (r : SymRef) : Told (parseLocalInit expr r) := by
  refine bind lexPeek fun _ => ?_
  split
  · refine bind lexNext fun _ => bind lexPeek fun _ => ?_
    split
    · exact bind lexNext fun _ => bind (setSym _ _) fun _ => bind (expect _) fun _ => pure true
    · exact bind (error _) fun _ => pure false
  · exact bind lexNext fun _ => bind hexpr fun _ => bind (refer _ _) fun _ => bind (read _) fun _ =>
      bind (cg _) fun _ => pure true
  · exact pure true

omit hstmt in
theorem parseLocalDecl (dt : DataType) : ∀ n, Told (parseLocalDecl expr dt n)
  | 0 => fuel
  | n + 1 => by
    refine bind lexPeek fun t => ?_
    split
    · refine bind lexNext fun _ => bind (copyName _) fun name => bind (symAddLocal _ (.inl rfl) _) fun r => ?_
      refine ite (error _) (bind (parseLocalInit hexpr r) fun _ => ite
        (bind lexPeek fun _ => ite ?_ (expect _)) (pure ()))
      exact bind lexNext fun _ => parseLocalDecl dt n
    · exact error _

omit hexpr in
theorem parseStatements : ∀ n, Told (parseStatements stmt n)
  | 0 => fuel
  | n + 1 => bind lexPeek fun _ => bind get fun _ =>
      ite (bind hstmt fun _ => parseStatements n) (pure ())

omit hexpr in
theorem parseBlock (n : Nat) : Told (parseBlock stmt n) :=
  bind (expect _) fun _ => bind (parseStatements hstmt n) fun _ => expect _

omit hexpr hstmt in
theorem parseLoopJump (labels : Compiler → Nat → Int) (msg : String) : Told (parseLoopJump labels msg) := by
  refine bind lexNext fun _ => bind (expect _) fun _ => bind get fun s => ite ?_ (error _)
  exact ite (bind (outside _) fun _ => cg _) (cg _)

theorem parseStatementBody (n : Nat) : Told (parseStatementBody expr stmt n) := by
  refine bind lexPeek fun t => ?_
  split
  · exact parseBlock hstmt n
  · exact bind lexNext fun _ => parseIf hexpr hstmt
  · exact bind lexNext fun _ => parseWhile hexpr hstmt
  · exact bind lexNext fun _ => parseFor hexpr hstmt
  · exact bind lexNext fun _ => parseDoWhile hexpr hstmt
  · exact bind lexNext fun _ => parseReturn hexpr
  · exact parseLoopJump _ _
  · exact parseLoopJump _ _
  · exact bind lexNext fun _ => pure ()
  · exact ite (bind parseType fun dt => parseLocalDecl hexpr dt n) (bind hexpr fun _ => expect _)

end Statements

theorem parseStatement (loops : Nat) : ∀ n, Told (parseStatement loops n)
  | 0 => fuel
  | n + 1 => bind get fun _ =>
      ite (parseStatementBody (parseExpr loops) (parseStatement loops n) loops) (pure ())

/-! ### Declarations -/

theorem parseParams : ∀ n, Told (parseParams n)
  | 0 => fuel
  | n + 1 => by
    refine bind parseType fun _ => bind lexPeek fun _ => ?_
    split
    · exact bind lexNext fun _ => bind (symAddLocal _ (.inr rfl) _) fun _ => bind lexPeek fun _ =>
        ite (bind lexNext fun _ => parseParams n) (pure ())
    · exact error _

theorem parseFunction (n : Nat) (name : List UInt8) (retType : DataType) :
    Told (parseFunction n name retType) :=
  functionSymbol name retType (fun _ => symKept) fun _ => bind (setSym _ _) fun _ =>
    bind (modify _) fun _ => bind lexPeek fun _ => ite_then (parseParams n) fun _ =>
    bind (expect _) fun _ => bind (bind get fun _ => bind (setSym _ _) fun _ => cg _) fun _ =>
    bind (parseBlock (parseStatement n n) n) fun _ => cg _

theorem parseGlobalSize (r : SymRef) : Told (parseGlobalSize r) := by
  refine bind lexPeek fun _ => ite (bind lexNext fun _ => bind lexPeek fun _ => ?_) (pure ())
  split
  · exact bind lexNext fun _ => bind (setSym _ _) fun _ => expect _
  · exact expect _

theorem parseMoreGlobals (dt : DataType) : ∀ n, Told (parseMoreGlobals dt n)
  | 0 => fuel
  | n + 1 => by
    refine bind lexPeek fun _ => ite (bind lexNext fun _ => bind lexPeek fun _ => ?_) (expect _)
    split
    · refine bind lexNext fun _ => bind (symAddGlobal _ _) fun r => ite ?_ (parseMoreGlobals dt n)
      exact bind (cgAllocGlobal _) fun _ => bind (setSym _ _) fun _ => parseMoreGlobals dt n
    · exact error _

theorem parseGlobalVar (n : Nat) (name : List UInt8) (dt : DataType) : Told (parseGlobalVar n name dt) :=
  bind (symAddGlobal _ _) fun r => ite (error _) (bind (parseGlobalSize r) fun _ => bind (read _) fun _ =>
    bind (cgAllocGlobal _) fun _ => bind (setSym _ _) fun _ => parseMoreGlobals dt n)

theorem parseDeclarations (loops : Nat) : ∀ n, Told (parseDeclarations loops n)
  | 0 => fuel
  | n + 1 => by
    have ih := parseDeclarations loops n
    refine bind lexPeek fun _ => bind get fun _ => ite (bind parseType fun dt => bind lexPeek fun t => ?_) (pure ())
    split
    · refine bind lexNext fun _ => bind (copyName _) fun name => bind lexPeek fun _ => ite ?_ ?_
      · exact bind lexNext fun _ => bind (parseFunction loops name dt) fun _ => ih
      · exact bind (parseGlobalVar loops name dt) fun _ => ih
    · exact error _

theorem parseProgram (n : Nat) : Told (parseProgram n) :=
  bind (modify _) fun _ => parseDeclarations n n

end Told

/-! ## Longer names -/

/-- An identifier is read up to the first character that is none of its own. -/
theorem lexIdent_append {line n : Nat} {m : List UInt8} (hm : ∀ c ∈ m, isAlnum c = true) (hn : m.length ≤ n)
    (str : List UInt8) {rest : List UInt8} (hrest : ∀ d ∈ rest.head?, isAlnum d = false) :
    lexIdent line n str (m ++ rest) = (str ++ m, ⟨rest, line⟩) := by
  induction m generalizing n str with
  | nil =>
    rw [List.nil_append, List.append_nil]
    cases n with
    | zero => rfl
    | succ n =>
      cases rest with
      | nil => rfl
      | cons d rest => rw [lexIdent, hrest d rfl, if_neg Bool.false_ne_true]
  | cons c m ih =>
    cases n with
    | zero => cases hn
    | succ n =>
      rw [List.cons_append, lexIdent, if_pos (hm c List.mem_cons_self),
        ih (fun c hc => hm c (List.mem_cons_of_mem _ hc)) (Nat.le_of_succ_le_succ hn), List.append_assoc]
      rfl

/-- A keyword is short. -/
theorem checkKeyword_long {name : List UInt8} (h : symNameMax < name.length) :
    checkKeyword name = .ident name := by
  have hne (k : List UInt8) (hk : k.length ≤ symNameMax) : name ≠ k := by
    rintro rfl
    omega
  unfold checkKeyword
  simp only [hne _ (show ("int".toList.map chr).length ≤ symNameMax by decide),
    hne _ (show ("char".toList.map chr).length ≤ symNameMax by decide),
    hne _ (show ("void".toList.map chr).length ≤ symNameMax by decide),
    hne _ (show ("if".toList.map chr).length ≤ symNameMax by decide),
    hne _ (show ("else".toList.map chr).length ≤ symNameMax by decide),
    hne _ (show ("while".toList.map chr).length ≤ symNameMax by decide),
    hne _ (show ("for".toList.map chr).length ≤ symNameMax by decide),
    hne _ (show ("do".toList.map chr).length ≤ symNameMax by decide),
    hne _ (show ("return".toList.map chr).length ≤ symNameMax by decide),
    hne _ (show ("break".toList.map chr).length ≤ symNameMax by decide),
    hne _ (show ("continue".toList.map chr).length ≤ symNameMax by decide), if_false]

/-- The source that declares one variable. -/
def declaring (name : List UInt8) : List UInt8 := word "int " ++ name ++ word ";"

/-- What begins an identifier is neither white space nor a comment nor a digit. -/
theorem isSpace_of_alpha {c : UInt8} (h : isAlpha c = true) : isSpace c = false := by
  by_contra hspace
  simp only [isSpace, Bool.not_eq_false, Bool.or_eq_true, beq_iff_eq] at hspace
  rcases hspace with ((rfl | rfl) | rfl) | rfl <;> cases h

theorem isDigit_of_alpha {c : UInt8} (h : isAlpha c = true) : isDigit c = false := by
  by_contra hdigit
  have ha : (chr 'a').toNat = 97 := rfl
  have hA : (chr 'A').toNat = 65 := rfl
  have h9 : (chr '9').toNat = 57 := rfl
  simp only [isDigit, Bool.not_eq_false, Bool.and_eq_true, decide_eq_true_eq, UInt8.le_iff_toNat_le] at hdigit
  simp only [isAlpha, Bool.or_eq_true, Bool.and_eq_true, decide_eq_true_eq, UInt8.le_iff_toNat_le,
    beq_iff_eq] at h
  rcases h with (⟨h, -⟩ | ⟨h, -⟩) | rfl
  · omega
  · omega
  · exact absurd hdigit.2 (by decide)

section Long

variable {c : UInt8} {m : List UInt8} (hc : isAlpha c = true) (hm : ∀ d ∈ m, isAlnum d = true)
  (hlex : m.length < lexIdentMax) (hlong : symNameMax ≤ m.length)

include hc hm hlex hlong

theorem stream_declaring : ∃ rest, (lexInit (declaring (c :: m))).stream =
    Stream'.cons .int (Stream'.cons (.ident (c :: m)) rest) := by
  have hfirst : lexScan ⟨declaring (c :: m), 1⟩ = (.int, ⟨chr ' ' :: c :: (m ++ word ";"), 1⟩) := rfl
  have hslash : ¬c = chr '/' := by
    rintro rfl
    cases hc
  have hskip : skipWhitespace .code 1 (chr ' ' :: c :: (m ++ word ";")) = ⟨c :: (m ++ word ";"), 1⟩ := by
    obtain ⟨d, rest, hrest⟩ : ∃ d rest, m ++ word ";" = d :: rest :=
      List.exists_cons_of_ne_nil (List.append_ne_nil_of_right_ne_nil m (by decide))
    have hspace := isSpace_of_alpha hc
    rw [hrest, skipWhitespace, if_pos (show isSpace (chr ' ') = true from rfl), skipWhitespace]
    simp [hspace, hslash]
    rfl
  have hident : lexIdent 1 (lexIdentMax - 1) [c] (m ++ chr ';' :: []) = ([c] ++ m, ⟨[chr ';'], 1⟩) :=
    lexIdent_append hm (Nat.le_sub_one_of_lt hlex) [c] fun d hd => by cases hd; rfl
  have hsecond : (lexScan ⟨chr ' ' :: c :: (m ++ word ";"), 1⟩).1 = .ident (c :: m) := by
    rw [lexScan, hskip]
    show (lexToken c 1 (m ++ word ";")).1 = _
    unfold lexToken
    rw [isDigit_of_alpha hc, if_neg Bool.false_ne_true, if_pos hc]
    have hm' : m ++ word ";" = m ++ chr ';' :: [] := rfl
    rw [hm', hident]
    exact checkKeyword_long (Nat.lt_succ_of_le hlong)
  refine ⟨(lexInit (declaring (c :: m))).next.2.next.2.stream, ?_⟩
  rw [Lexer.stream_eq, Lexer.stream_eq (Lexer.next _).2]
  have h₁ : (lexInit (declaring (c :: m))).next = (.int, ⟨⟨chr ' ' :: c :: (m ++ word ";"), 1⟩, none⟩) := by
    rw [lexInit, Lexer.next]
    simp only [hfirst]
  have h₂ : (Lexer.next ⟨⟨chr ' ' :: c :: (m ++ word ";"), 1⟩, none⟩).1 = .ident (c :: m) := hsecond
  rw [h₁, h₂]

end Long

/-- A declaration copies its name. -/
theorem parseDeclarations_long {s : Compiler} {name : List UInt8} {rest : Stream' Tok}
    (hs : s.lex.stream = Stream'.cons .int (Stream'.cons (.ident name) rest)) (herr : s.hadError = none)
    (hlong : symNameMax < name.length) (loops n : Nat) :
    (parseDeclarations loops (n + 1) s).out = .halt .nameOverflow := by
  have htype (s' : Compiler) (h : s'.lex.stream = Stream'.cons .int (Stream'.cons (.ident name) rest)) :
      Takes parseType s' [] (Stream'.cons (.ident name) rest) (pure .int) := by
    apply Takes.lexNext h
    intro s₁ h₁
    apply Takes.lexPeek h₁.stream
    intro s₂ h₂
    rw [if_neg nofun, ← h₂.stream]
    exact Takes.refl _ s₂
  have hcopy : Takes (parseDeclarations loops (n + 1)) s [] rest (copyName name >>= fun name => do
      if (← lexPeek) = .lparen then
        let _ ← lexNext
        parseFunction loops name .int
      else parseGlobalVar loops name .int
      parseDeclarations loops n) := by
    apply Takes.lexPeek hs
    intro s₁ h₁
    apply Takes.look [] (Prog.get_run s₁) rfl
    rw [if_pos ⟨nofun, h₁.hadError.trans herr⟩]
    show Takes _ s₁ ([] ++ []) rest _
    refine Takes.trans (Takes.bind_pure (htype s₁ h₁.stream)) fun s₂ h₂ => ?_
    apply Takes.lexPeek h₂.stream
    intro s₃ h₃
    apply Takes.lexNext h₃.stream
    intro s₄ h₄
    rw [← h₄.stream]
    exact Takes.refl _ s₄
  obtain ⟨s', log, hrun, -⟩ := hcopy
  have hhalt : copyName name s' = ⟨.halt .nameOverflow, s', [.copy name]⟩ := by
    rw [copyName, if_neg (Nat.not_le_of_lt hlong)]
    rfl
  rw [hrun, Prog.bind_run_halt hhalt]
  rfl

/-- A longer name overruns the array of the declaration of a variable. -/
theorem declaring_overruns (s : Compiler) (fuel : Nat) {c : UInt8} {m : List UInt8} (hc : isAlpha c = true)
    (hm : ∀ d ∈ m, isAlnum d = true) (hlex : m.length < lexIdentMax) (hlong : symNameMax ≤ m.length) :
    (parseProgram (fuel + 1) (s.init (declaring (c :: m)))).out = .halt .nameOverflow := by
  obtain ⟨rest, hstream⟩ := stream_declaring hc hm hlex hlong
  rw [parseProgram, Prog.modify_bind_run]
  exact parseDeclarations_long hstream rfl (show symNameMax < (c :: m).length from Nat.lt_succ_of_le hlong) _ _

/-! ## Every run -/

/-- The names of a run are handled: no array is overrun, and after each declaration the name finds its symbol,
as no other name does. -/
structure NamesHandled (r : Run Compiler Stop Event Unit) : Prop where
  fits : r.out ≠ .halt .nameOverflow
  found : ∀ d, .declare d ∈ r.log → d.Found
  distinct : ∀ d, .declare d ∈ r.log → d.after.Distinct

/-- What an event asks of its name. -/
def Event.Clear : Event → Prop
  | .copy name => name.length ≤ symNameMax
  | .declare d => d.Clear
  | _ => True

/-- The names of a run are handled exactly if every name that it copies has at most 23 characters, and every
name that it declares finds no symbol of its own, and room for one, in the table it comes to. -/
theorem names_handled (s : Compiler) (source : List UInt8) (fuel : Nat) :
    NamesHandled (parseProgram fuel (s.init source)) ↔
      ∀ e ∈ (parseProgram fuel (s.init source)).log, e.Clear := by
  obtain ⟨hout, hmade⟩ := Told.parseProgram fuel (s.init source)
  constructor
  · rintro ⟨hfits, hfound, -⟩ e he
    cases e with
    | copy name => exact Nat.le_of_not_lt fun hlong => hfits (hout.mpr ⟨name, he, hlong⟩)
    | declare d => exact (hmade d he).found_iff.mp (hfound d he)
    | emit _ | refer _ _ | outside _ => trivial
  · intro hclear
    refine ⟨fun hover => ?_, fun d hd => (hmade d hd).found_iff.mpr (hclear _ hd), fun d _ => d.after.distinct⟩
    obtain ⟨name, hname, hlong⟩ := hout.mp hover
    exact absurd (hclear _ hname) (Nat.not_le_of_lt hlong)

/-- A name of 24 characters. -/
def longName : List UInt8 := List.replicate 24 (chr 'a')

/-- A longer name behind the end of what is read does no harm. -/
theorem names_handled_behind : NamesHandled
    (parseProgram 9 (Compiler.boot.init (word "int x; @ int aaaaaaaaaaaaaaaaaaaaaaaa;"))) := by
  have hlog : (parseProgram 9 (Compiler.boot.init (word "int x; @ int aaaaaaaaaaaaaaaaaaaaaaaa;"))).log =
      [Event.copy (word "x"), .declare ⟨word "x", .globalVar, Compiler.boot.syms, .glob 0,
        (Compiler.boot.syms.addGlobal (word "x") .globalVar .int).2⟩, .emit (.allocGlobal 4)] := by decide +kernel
  refine (names_handled _ _ 9).mpr ?_
  rw [hlog, List.forall_mem_cons, List.forall_mem_cons, List.forall_mem_singleton]
  exact ⟨show (word "x").length ≤ symNameMax by decide, ⟨by decide, rfl, by decide⟩, trivial⟩

theorem longName_overrun : ¬NamesHandled (parseProgram 10 (Compiler.boot.init (declaring longName))) :=
  fun h => h.fits (declaring_overruns Compiler.boot 9 rfl (by decide) (by decide) (by decide))

end RainbowOs.Cc
