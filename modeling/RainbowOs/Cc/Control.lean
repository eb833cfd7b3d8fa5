import RainbowOs.Cc.Frame

/-!
# Running the code of statements

The code of a statement, run from where it begins, takes the cells of the
variables from their values before the statement to those after it, and the
processor to where the statement ends: to the next one, to one of the labels
that `break` and `continue` jump to, or to the end of the function with the
answer in EAX. Loops go by `rounds_induction`, and the rest by the statement.
-/

namespace RainbowOs.Cc

open RainbowOs.Lib
open X86 (Word Cpu)

/-! ## The calls of statements -/

theorem flows_decl (ds : List Declarator) : ∀ t n, Flows (declCalls t n ds) := by
  induction ds with
  | nil => exact fun _ _ => rfl
  | cons d ds ih =>
    intro t n
    refine Flows.append ?_ (ih _ _)
    cases d.init with
    | none => rfl
    | some a => exact (flows_act _ n a).append rfl

mutual

theorem Stmt.flows (s : Stmt) (t : Symbols) (n : Nat) (b k : Int) : Flows (s.calls t n b k) := by
  cases s with
  | empty | breakStmt | continueStmt => rfl
  | act a => exact flows_act t n a
  | decl d ds => exact flows_decl (d :: ds) t n
  | block bl => exact bl.flows t n b k
  | ifThen a s => exact (flows_act t n a).append (.append rfl ((s.flows _ _ b k).append rfl))
  | ifElse a s₁ s₂ =>
    refine (flows_act t n a).append (.append rfl ((s₁.flows _ _ b k).append (.append rfl ?_)))
    exact (s₂.flows _ _ b k).append rfl
  | whileLoop a s => exact .append rfl ((flows_act t _ a).append (.append rfl ((s.flows _ _ _ _).append rfl)))
  | doLoop s a => exact .append rfl ((s.flows _ _ _ _).append (.append rfl ((flows_act _ _ a).append rfl)))
  | forLoop init cond step s =>
    refine (flows_opt t n init).append (.append rfl (.append ?_ (.append rfl ((flows_opt t _ step).append ?_))))
    · cases cond with
      | none => rfl
      | some a => exact flows_act t _ a
    · exact .append rfl ((s.flows _ _ _ _).append rfl)
  | returnStmt a => exact (flows_opt t n a).append rfl

theorem Block.flows (bl : Block) (t : Symbols) (n : Nat) (b k : Int) : Flows (bl.calls t n b k) := by
  cases bl with
  | nil => rfl
  | cons s bl => exact (s.flows t n b k).append (bl.flows _ _ b k)

end

namespace Frame

variable {F : Frame} {c : Codegen} {calls calls' : List CgCall} {b k e id : Int} {s : Cpu}
  {σ σ₁ σ' : Store} {x : Exit (Option Word)} {t : Symbols} {n : Nat}

/-- A label is passed. -/
theorem at_label_end (hat : (runCalls calls c).At s) (id : Int) : (runCalls (calls ++ [CgCall.label id]) c).At s := by
  rw [runCalls_append, runCalls_cons, runCalls_nil]
  exact Placed.pass rfl hat

/-! ## Pieces of a function -/

/-- Where a piece of the function that ends so leaves the processor. -/
def Ends (F : Frame) (e b k : Int) (c : Codegen) : Exit (Option Word) → Cpu → Prop
  | .next, s => c.At s
  | .brk, s => F.AtLabel b s
  | .cont, s => F.AtLabel k s
  | .ret v, s => F.AtLabel e s ∧ ∀ w ∈ v, s.regs .eax = w

/-- The code of a piece of the function does what the piece does. -/
def Does (F : Frame) (b k : Int) (c : Codegen) (calls : List CgCall) (σ : Store) (x : Exit (Option Word))
    (σ' : Store) : Prop :=
  ∀ ⦃s⦄, F.Code s.mem c calls → c.At s → F.Holds σ s →
    F.Goes s fun s' => F.Ends c.funcEpilogueLabel b k (runCalls calls c) x s' ∧ F.Holds σ' s'

namespace Does

theorem nil : F.Does b k c [] σ .next σ := fun _ _ hat hs => .here ⟨hat, hs⟩

/-- A piece from the middle of the code on. -/
theorem rest (hflows : Flows calls) (h : F.Does b k (runCalls calls c) calls' σ x σ')
    (hcode : F.Code s.mem c (calls ++ calls')) (hat : (runCalls calls c).At s) (hs : F.Holds σ s) :
    F.Goes s fun s' => F.Ends c.funcEpilogueLabel b k (runCalls (calls ++ calls') c) x s' ∧ F.Holds σ' s' := by
  have hgoes := h (hcode.append hflows).2 hat hs
  rwa [hflows.epilogue, ← runCalls_append] at hgoes

/-- A piece from a label in the code on. -/
theorem from_label (hflows : Flows calls) (h : F.Does b k (runCalls (calls ++ [CgCall.label id]) c) calls' σ x σ')
    (hcode : F.Code s.mem c (calls ++ .label id :: calls')) (hat : F.AtLabel id s) (hs : F.Holds σ s) :
    F.Goes s fun s' => F.Ends c.funcEpilogueLabel b k (runCalls (calls ++ .label id :: calls') c) x s' ∧
      F.Holds σ' s' := by
  have hend := at_label_end (hcode.at_label hflows hat) id
  rw [List.append_cons] at hcode ⊢
  exact h.rest (hflows.append rfl) hcode hend hs

/-- A piece that goes on, and the next one. -/
theorem seq (hflows : Flows calls) (h : F.Does b k c calls σ .next σ₁)
    (h' : F.Does b k (runCalls calls c) calls' σ₁ x σ') : F.Does b k c (calls ++ calls') σ x σ' := by
  intro s hcode hat hs
  refine (h (hcode.append hflows).1 hat hs).trans fun s₁ hkeeps h₁ => ?_
  exact h'.rest hflows (hcode.keep hkeeps) h₁.1 h₁.2

/-- A piece that does not go on. -/
theorem leave (hflows : Flows calls) (h : F.Does b k c calls σ x σ') (hx : x ≠ .next) :
    F.Does b k c (calls ++ calls') σ x σ' := by
  intro s hcode hat hs
  refine (h (hcode.append hflows).1 hat hs).mono fun s' h' => ⟨?_, h'.2⟩
  cases x with
  | next => exact absurd rfl hx
  | brk | cont | ret => exact h'.1

/-- A label at the end is passed. -/
theorem label (h : F.Does b k c calls σ x σ') (hflows : Flows calls) (id : Int) :
    F.Does b k c (calls ++ [CgCall.label id]) σ x σ' := by
  by_cases hx : x = .next
  · subst hx
    refine h.seq hflows fun s _ hat hs => .here ⟨?_, hs⟩
    have hnil : (runCalls [] (runCalls calls c)).At s := hat
    exact at_label_end hnil id
  · exact h.leave hflows hx

end Does

/-! ## Conditions -/

/-- Calls that leave no code are passed. -/
theorem pass_all {q : List CgCall} (hquiet : ∀ call ∈ q, call.raw = []) (hat : c.At s) :
    (runCalls q c).At s := by
  induction q generalizing c with
  | nil => exact hat
  | cons call q ih =>
    exact ih (fun call' hcall => hquiet call' (List.mem_cons_of_mem call hcall))
      (Placed.pass (hquiet call List.mem_cons_self) hat)

/-- A value, and the jump that is taken where it is zero. -/
theorem goes_branch {v : Word} {q : List CgCall} (hflows : Flows calls) (hquiet : ∀ call ∈ q, call.raw = [])
    (hqflows : Flows q) (hcode : F.Code s.mem c (calls ++ (q ++ .jumpZero id :: calls')))
    (hval : F.Code s.mem c calls →
      F.Goes s fun s' => (runCalls calls c).At s' ∧ s'.regs .eax = v ∧ F.Holds σ' s') :
    F.Goes s fun s' => (if v = 0 then F.AtLabel id s'
      else (runCalls (calls ++ (q ++ [CgCall.jumpZero id])) c).At s') ∧ F.Holds σ' s' := by
  obtain ⟨hfirst, hrest⟩ := hcode.append hflows
  refine (hval hfirst).trans fun s₁ hkeeps h₁ => ?_
  obtain ⟨hat, rfl, hs⟩ := h₁
  rw [runCalls_append, runCalls_append, runCalls_cons, runCalls_nil]
  exact goes_jumpZero (pass_all hquiet hat) hs ((hrest.append hqflows).2.keep hkeeps)

section Conditions

variable (hF : F.Sound) (ht : t.Below F.table) (hat : c.At s) (hs : F.Holds σ s) {go : Bool} {q : List CgCall}
  (hquiet : ∀ call ∈ q, call.raw = []) (hqflows : Flows q)

include hF ht hat hs hquiet hqflows

/-- A condition, and the jump that is taken where it does not hold. -/
theorem goes_test {a : Act} (ha : a.Valid t)
    (hcode : F.Code s.mem c (a.calls t n ++ (q ++ .jumpZero id :: calls)))
    (hlo : F.lo + 4 * a.depth ≤ F.esp.toNat) (hv : a.test σ = some (go, σ')) : F.Goes s fun s' =>
      (if go then (runCalls (a.calls t n ++ (q ++ [CgCall.jumpZero id])) c).At s'
        else F.AtLabel id s') ∧ F.Holds σ' s' := by
  obtain ⟨⟨v, σ₁⟩, hrun, heq⟩ := Option.map_eq_some_iff.mp hv
  cases heq
  have hgoes := goes_branch (flows_act t n a) hquiet hqflows hcode fun hact => goes_act hF ht ha hat hs hact hlo hrun
  refine hgoes.mono fun s' h => ⟨?_, h.2⟩
  by_cases hzero : v = 0
  · simpa [hzero] using h.1
  · simpa [hzero] using h.1

/-- The condition of `for`, which holds where it is missing. -/
theorem goes_optTest {a : Option Act} (ha : OptValid t a)
    (hcode : F.Code s.mem c (a.elim [CgCall.loadNum 1] (Act.calls t n) ++ (q ++ .jumpZero id :: calls)))
    (hlo : F.lo + 4 * optDepth a ≤ F.esp.toNat) (hv : optTest a σ = some (go, σ')) : F.Goes s fun s' =>
      (if go then (runCalls (a.elim [CgCall.loadNum 1] (Act.calls t n) ++ (q ++ [CgCall.jumpZero id])) c).At s'
        else F.AtLabel id s') ∧ F.Holds σ' s' := by
  cases a with
  | some a => exact goes_test hF ht hat hs hquiet hqflows (ha a rfl) hcode hlo hv
  | none =>
    cases hv
    have hone : Flows [CgCall.loadNum 1] := rfl
    exact goes_branch hone hquiet hqflows hcode fun hload =>
      goes_expr (e := .num 1) (n := 0) hF (.refl F.table) hat hs nofun hload hlo rfl

end Conditions

/-! ## Loops -/

/-- A loop, by what its parts do. -/
theorem goes_rounds {test : Store → Option (Bool × Store)} {body : Store → Option (Exit (Option Word) × Store)}
    {step : Store → Option Store} {C T B N : Cpu → Prop} {O : Exit (Option Word) → Cpu → Prop}
    (hC : ∀ s s', F.Keeps s s' → C s → C s')
    (htest : ∀ s σ σ' go, C s → T s → F.Holds σ s → test σ = some (go, σ') →
      F.Goes s fun s' => (if go then B s' else O .next s') ∧ F.Holds σ' s')
    (hbody : ∀ s σ σ' x, C s → B s → F.Holds σ s → body σ = some (x, σ') →
      F.Goes s fun s' => (if x.again then N s' else O x.ofLoop s') ∧ F.Holds σ' s')
    (hstep : ∀ s σ σ', C s → N s → F.Holds σ s → step σ = some σ' → F.Goes s fun s' => T s' ∧ F.Holds σ' s')
    {fuel : Nat} (h : rounds test body step fuel σ = some (x, σ')) (hs : C s) (htop : T s) (hσ : F.Holds σ s) :
    F.Goes s fun s' => O x s' ∧ F.Holds σ' s' := by
  refine rounds_induction (R := fun σ x σ' => ∀ s, C s → T s → F.Holds σ s →
    F.Goes s fun s' => O x s' ∧ F.Holds σ' s') ?_ ?_ ?_ h s hs htop hσ
  · intro σ σ' hgo s hs htop hσ
    exact htest s σ σ' false hs htop hσ hgo
  · intro σ σ₁ σ₂ x hgo hx hagain s hs htop hσ
    refine (htest s σ σ₁ true hs htop hσ hgo).trans fun s₁ hkeeps h₁ => ?_
    have hleft := hbody s₁ σ₁ σ₂ x (hC s s₁ hkeeps hs) h₁.1 h₁.2 hx
    rwa [hagain] at hleft
  · intro σ σ₁ σ₂ σ₃ σ' x y hgo hx hagain hnext ih s hs htop hσ
    refine (htest s σ σ₁ true hs htop hσ hgo).trans fun s₁ hkeeps h₁ => ?_
    have hC₁ := hC s s₁ hkeeps hs
    have hround := hbody s₁ σ₁ σ₂ x hC₁ h₁.1 h₁.2 hx
    rw [hagain] at hround
    refine hround.trans fun s₂ hkeeps₂ h₂ => ?_
    have hC₂ := hC s₁ s₂ hkeeps₂ hC₁
    refine (hstep s₂ σ₂ σ₃ hC₂ h₂.1 h₂.2 hnext).trans fun s₃ hkeeps₃ h₃ => ?_
    exact ih s₃ (hC s₂ s₃ hkeeps₃ hC₂) h₃.1 h₃.2

/-- The end of the body of a loop, where a jump to the next round is: `continue` jumps there too. -/
theorem goes_back {last top : Int} (hcode : F.Code s.mem c [CgCall.jump top, .label last])
    (hends : F.Ends e last top c x s) (hs : F.Holds σ s) : F.Goes s fun s' =>
      (if x.again then F.AtLabel top s' else F.Ends e b k (runCalls [CgCall.jump top, .label last] c) x.ofLoop s') ∧
        F.Holds σ s' := by
  cases x with
  | next => exact (goes_jump hends hs hcode).mono fun s' h => ⟨h.1, h.2.2⟩
  | brk =>
    have hjump : Flows [CgCall.jump top] := rfl
    have hat : (runCalls [CgCall.jump top] c).At s := Code.at_label hjump hcode hends
    exact .here ⟨at_label_end hat last, hs⟩
  | cont => exact .here ⟨hends, hs⟩
  | ret v => exact .here ⟨hends, hs⟩

/-- The body of a loop. -/
theorem goes_body {last top : Int} (hflows : Flows calls) (h : F.Does last top c calls σ x σ')
    (hcode : F.Code s.mem c (calls ++ [CgCall.jump top, .label last])) (hat : c.At s) (hs : F.Holds σ s) :
    F.Goes s fun s' => (if x.again then F.AtLabel top s'
      else F.Ends c.funcEpilogueLabel b k (runCalls (calls ++ [CgCall.jump top, .label last]) c) x.ofLoop s') ∧
        F.Holds σ' s' := by
  obtain ⟨hfirst, hlast⟩ := hcode.append hflows
  refine (h hfirst hat hs).trans fun s₁ hkeeps h₁ => ?_
  rw [runCalls_append]
  exact goes_back (hlast.keep hkeeps) h₁.1 h₁.2

/-! ## Statements -/

section Statements

variable (hF : F.Sound)

include hF

theorem does_act {a : Act} {v : Word} (ht : t.Below F.table) (ha : a.Valid t)
    (hlo : F.lo + 4 * a.depth ≤ F.esp.toNat) (hv : a.run σ = some (v, σ')) :
    F.Does b k c (a.calls t n) σ .next σ' :=
  fun _ hcode hat hs => (goes_act hF ht ha hat hs hcode hlo hv).mono fun _ h => ⟨h.1, h.2.2⟩

theorem does_opt {a : Option Act} (ht : t.Below F.table) (ha : OptValid t a)
    (hlo : F.lo + 4 * optDepth a ≤ F.esp.toNat) (hv : optRun a σ = some σ') :
    F.Does b k c (optCalls t n a) σ .next σ' :=
  fun _ hcode hat hs => goes_opt hF ht ha hat hs hcode hlo hv

/-- A declaration. -/
theorem does_decl {ds : List Declarator} (hvalid : DeclValid t ds) (ht : (declTable t ds).Below F.table)
    (hlo : F.lo + 4 * (ds.map fun d => optDepth d.init).foldr max 0 ≤ F.esp.toNat)
    (hv : declare ds σ = some σ') : F.Does b k c (declCalls t n ds) σ .next σ' := by
  induction ds generalizing t n c σ with
  | nil =>
    cases hv
    exact .nil
  | cons d ds ih =>
    obtain ⟨hd, hds⟩ := hvalid
    have hbelow := (grows_declTable hds).below.trans ht
    have hlocal := Symbols.local_declare hd.name hd.fresh hd.room
    rw [List.map_cons, List.foldr_cons] at hlo
    have hrest : F.lo + 4 * (ds.map fun d => optDepth d.init).foldr max 0 ≤ F.esp.toNat := by omega
    cases hinit : d.init with
    | none =>
      simp only [declare, hinit] at hv
      simp only [declCalls, hinit, Option.elim_none, List.nil_append]
      exact ih hds ht hrest hv
    | some a =>
      simp only [declare, hinit] at hv
      obtain ⟨⟨v, σ₁⟩, hrun, hv⟩ := Option.bind_eq_some_iff.mp hv
      rw [hinit, optDepth, Option.elim_some] at hlo
      obtain ⟨hg, hvars⟩ := hd.init a hinit
      -- the first value is assigned
      have hassign : (Act.assign d.name a).Valid (t.declare d.name) :=
        ⟨hg, List.forall_mem_cons.mpr ⟨hlocal, hvars⟩⟩
      have hassigned : (Act.assign d.name a).run σ = some (v, Function.update σ₁ d.name v) := by
        rw [Act.run, hrun]
        rfl
      have hstore : storeCall ((t.declare d.name).deref ((t.declare d.name).find d.name)) =
          .storeLocal ((t.declare d.name).deref ((t.declare d.name).find d.name)).offset := if_pos hlocal.stack
      simp only [declCalls, hinit, Option.elim_some, ← hstore]
      refine Does.seq (flows_act (t.declare d.name) n (.assign d.name a)) ?_ (ih hds ht hrest hv)
      exact does_act hF hbelow hassign (by rw [Act.depth]; omega) hassigned

/-! ### Conditionals -/

section Conditionals

variable {a : Act} {go : Bool} {lbl last : Int} (ht : t.Below F.table) (ha : a.Valid t)
  (hlo : F.lo + 4 * a.depth ≤ F.esp.toNat) (hv : a.test σ = some (go, σ₁)) (hflows : Flows calls)

include ht ha hlo hv hflows

theorem does_ifThen
    (hthen : go = true → F.Does b k (runCalls (a.calls t n ++ [CgCall.newLabel, .jumpZero lbl]) c) calls σ₁ x σ')
    (helse : go = false → x = .next ∧ σ' = σ₁) :
    F.Does b k c (a.calls t n ++ ([CgCall.newLabel, .jumpZero lbl] ++ (calls ++ [CgCall.label lbl]))) σ x σ' := by
  intro s hcode hat hs
  have htest := goes_test (q := [CgCall.newLabel]) hF ht hat hs (by simp [CgCall.raw]) rfl ha hcode hlo hv
  have hfirst : Flows (a.calls t n ++ [CgCall.newLabel, .jumpZero lbl]) := (flows_act t n a).append rfl
  rw [← List.append_assoc] at hcode ⊢
  refine htest.trans fun s₁ hkeeps h₁ => ?_
  obtain ⟨hat₁, hs₁⟩ := h₁
  have hcode₁ := hcode.keep hkeeps
  cases go with
  | true =>
    exact ((hthen rfl).label hflows lbl).rest hfirst hcode₁ hat₁ hs₁
  | false =>
    obtain ⟨rfl, rfl⟩ := helse rfl
    rw [← List.append_assoc] at hcode₁ ⊢
    exact .here ⟨at_label_end (Code.at_label (hfirst.append hflows) hcode₁ hat₁) lbl, hs₁⟩

omit ht ha hlo hv hF in
/-- The first alternative, and the jump over the second. -/
theorem does_jumpOver (hflows' : Flows calls') (h : F.Does b k c calls σ₁ x σ') :
    F.Does b k c (calls ++ ([CgCall.newLabel, .jump last, .label lbl] ++ (calls' ++ [CgCall.label last]))) σ₁ x σ' := by
  by_cases hx : x = .next
  · subst hx
    refine h.seq hflows fun s hcode hat hs => ?_
    have hjumps : Flows ([CgCall.newLabel, .jump last, .label lbl] ++ calls') := Flows.append rfl hflows'
    have hnew : Flows [CgCall.newLabel] := rfl
    rw [← List.append_assoc] at hcode ⊢
    refine (goes_jump (pass_all (q := [CgCall.newLabel]) (by simp [CgCall.raw]) hat) hs (hcode.append hnew).2).trans
      fun s₁ hkeeps h₁ => ?_
    exact .here ⟨at_label_end (Code.at_label hjumps (hcode.keep hkeeps) h₁.1) last, h₁.2.2⟩
  · exact h.leave hflows hx

theorem does_ifElse (hflows' : Flows calls')
    (hthen : go = true → F.Does b k (runCalls (a.calls t n ++ [CgCall.newLabel, .jumpZero lbl]) c) calls σ₁ x σ')
    (helse : go = false → F.Does b k (runCalls (a.calls t n ++ [CgCall.newLabel, .jumpZero lbl] ++
      (calls ++ [CgCall.newLabel, .jump last, .label lbl])) c) calls' σ₁ x σ') :
    F.Does b k c (a.calls t n ++ ([CgCall.newLabel, .jumpZero lbl] ++ (calls ++
      ([CgCall.newLabel, .jump last, .label lbl] ++ (calls' ++ [CgCall.label last]))))) σ x σ' := by
  intro s hcode hat hs
  have htest := goes_test (q := [CgCall.newLabel]) hF ht hat hs (by simp [CgCall.raw]) rfl ha hcode hlo hv
  have hfirst : Flows (a.calls t n ++ [CgCall.newLabel, .jumpZero lbl]) := (flows_act t n a).append rfl
  rw [← List.append_assoc] at hcode ⊢
  refine htest.trans fun s₁ hkeeps h₁ => ?_
  obtain ⟨hat₁, hs₁⟩ := h₁
  have hcode₁ := hcode.keep hkeeps
  cases go with
  | true => exact (does_jumpOver hflows hflows' (hthen rfl)).rest hfirst hcode₁ hat₁ hs₁
  | false =>
    generalize a.calls t n ++ [CgCall.newLabel, .jumpZero lbl] = first at *
    have hjump : Flows (first ++ (calls ++ [CgCall.newLabel, .jump last])) := hfirst.append (hflows.append rfl)
    have hsplit : first ++ (calls ++ ([CgCall.newLabel, .jump last, .label lbl] ++ (calls' ++ [CgCall.label last]))) =
        first ++ (calls ++ [CgCall.newLabel, .jump last]) ++ .label lbl :: (calls' ++ [CgCall.label last]) := by simp
    have hlbl : first ++ (calls ++ [CgCall.newLabel, .jump last, .label lbl]) =
        first ++ (calls ++ [CgCall.newLabel, .jump last]) ++ [CgCall.label lbl] := by simp
    rw [hsplit] at hcode₁ ⊢
    rw [hlbl] at helse
    exact ((helse rfl).label hflows' last).from_label hjump hcode₁ hat₁ hs₁

end Conditionals

/-! ### Loops -/

section Loops

variable {a : Act} {last top : Int} {fuel : Nat} {body : Store → Option (Exit (Option Word) × Store)}
  (ht : t.Below F.table) (ha : a.Valid t) (hlo : F.lo + 4 * a.depth ≤ F.esp.toNat) (hflows : Flows calls)

include ht ha hlo hflows

/-- The rounds of `while`. -/
theorem does_rounds (htop : ∀ s, F.AtLabel top s → c.At s)
    (hbody : ∀ {σ x σ'}, body σ = some (x, σ') →
      F.Does last top (runCalls (a.calls t n ++ [CgCall.jumpZero last]) c) calls σ x σ')
    (h : rounds a.test body some fuel σ = some (x, σ')) :
    F.Does b k c (a.calls t n ++ ([CgCall.jumpZero last] ++ (calls ++ [CgCall.jump top, .label last]))) σ x σ' := by
  have hact := flows_act t n a
  have hfirst : Flows (a.calls t n ++ [CgCall.jumpZero last]) := hact.append rfl
  have hfront : Flows (a.calls t n ++ [CgCall.jumpZero last] ++ (calls ++ [CgCall.jump top])) :=
    hfirst.append (hflows.append rfl)
  have hsplit : a.calls t n ++ ([CgCall.jumpZero last] ++ (calls ++ [CgCall.jump top, .label last])) =
      a.calls t n ++ [CgCall.jumpZero last] ++ (calls ++ [CgCall.jump top]) ++ [CgCall.label last] := by simp
  intro s hcode hat hs
  refine goes_rounds (C := fun s => F.Code s.mem c (a.calls t n ++ ([CgCall.jumpZero last] ++
    (calls ++ [CgCall.jump top, .label last])))) (T := c.At)
      (B := (runCalls (a.calls t n ++ [CgCall.jumpZero last]) c).At)
    (N := F.AtLabel top) (O := F.Ends c.funcEpilogueLabel b k _) (fun _ _ hkeeps hcode => hcode.keep hkeeps)
    ?_ ?_ ?_ h hcode hat hs
  · intro s σ σ' go hcode hat hs hgo
    refine (goes_test (q := []) hF ht hat hs nofun rfl ha hcode hlo hgo).mono fun s' h => ⟨?_, h.2⟩
    cases go with
    | true => exact h.1
    | false =>
      rw [hsplit] at hcode ⊢
      exact at_label_end (hcode.at_label hfront h.1) last
  · intro s σ σ' x hcode hat hs hx
    rw [← List.append_assoc] at hcode ⊢
    have hrest := goes_body (b := b) (k := k) hflows (hbody hx) (hcode.append hfirst).2 hat hs
    rwa [hfirst.epilogue, ← runCalls_append] at hrest
  · intro s σ σ' hcode hnext hs hstep
    cases hstep
    exact .here ⟨htop s hnext, hs⟩

omit ht ha hlo hF in
/-- The body of `do`, from the label that `continue` jumps to on. -/
theorem goes_doBody {cont : Int} (h : F.Does last cont c calls σ x σ')
    (hcode : F.Code s.mem c (calls ++ ([CgCall.label cont] ++ (a.calls t n ++ [CgCall.jumpNonzero top, .label last]))))
    (hat : c.At s) (hs : F.Holds σ s) :
    F.Goes s fun s' => (if x.again then (runCalls (calls ++ [CgCall.label cont]) c).At s'
      else F.Ends c.funcEpilogueLabel b k
        (runCalls (calls ++ ([CgCall.label cont] ++ (a.calls t n ++ [CgCall.jumpNonzero top, .label last]))) c)
          x.ofLoop s') ∧
      F.Holds σ' s' := by
  refine (h (hcode.append hflows).1 hat hs).trans fun s₁ hkeeps h₁ => ?_
  obtain ⟨hend, hs₁⟩ := h₁
  have hcode₁ := hcode.keep hkeeps
  cases x with
  | next => exact .here ⟨at_label_end hend cont, hs₁⟩
  | cont => exact .here ⟨at_label_end (hcode₁.at_label hflows hend) cont, hs₁⟩
  | ret v => exact .here ⟨hend, hs₁⟩
  | brk =>
    have hfront : Flows (calls ++ ([CgCall.label cont] ++ (a.calls t n ++ [CgCall.jumpNonzero top]))) :=
      hflows.append (.append rfl ((flows_act t n a).append rfl))
    have hsplit : calls ++ ([CgCall.label cont] ++ (a.calls t n ++ [CgCall.jumpNonzero top, .label last])) =
        calls ++ ([CgCall.label cont] ++ (a.calls t n ++ [CgCall.jumpNonzero top])) ++ [CgCall.label last] := by simp
    rw [hsplit] at hcode₁ ⊢
    exact .here ⟨at_label_end (hcode₁.at_label hfront hend) last, hs₁⟩

/-- `do`, after the label of its body. -/
theorem does_doLoop {cont : Int} (htop : ∀ s, F.AtLabel top s → c.At s)
    (hbody : ∀ {σ x σ'}, body σ = some (x, σ') → F.Does last cont c calls σ x σ')
    (h : ((body σ).bind fun r => if r.1.again then rounds a.test body some fuel r.2 else some (r.1.ofLoop, r.2)) =
      some (x, σ')) :
    F.Does b k c (calls ++ ([CgCall.label cont] ++ (a.calls t n ++ [CgCall.jumpNonzero top, .label last]))) σ x σ' := by
  have hact := flows_act t n a
  have hcont : Flows (calls ++ [CgCall.label cont]) := hflows.append rfl
  have hsplit : calls ++ ([CgCall.label cont] ++ (a.calls t n ++ [CgCall.jumpNonzero top, .label last])) =
      calls ++ [CgCall.label cont] ++ (a.calls t n ++ [CgCall.jumpNonzero top, .label last]) := by simp
  have hlast : calls ++ [CgCall.label cont] ++ (a.calls t n ++ [CgCall.jumpNonzero top, .label last]) =
      calls ++ [CgCall.label cont] ++ (a.calls t n ++ [CgCall.jumpNonzero top]) ++ [CgCall.label last] := by simp
  obtain ⟨⟨y, σ₁⟩, hfirst, h⟩ := Option.bind_eq_some_iff.mp h
  intro s hcode hat hs
  refine (goes_doBody (b := b) (k := k) hflows (hbody hfirst) hcode hat hs).trans fun s₁ hkeeps h₁ => ?_
  obtain ⟨hend, hs₁⟩ := h₁
  cases hagain : y.again with
  | false =>
    rw [hagain] at h hend
    cases h
    exact .here ⟨hend, hs₁⟩
  | true =>
    rw [hagain] at h hend
    have hcond : (runCalls (calls ++ [CgCall.label cont]) c).At s₁ := hend
    refine goes_rounds (C := fun s => F.Code s.mem c (calls ++ ([CgCall.label cont] ++ (a.calls t n ++
      [CgCall.jumpNonzero top, .label last])))) (T := (runCalls (calls ++ [CgCall.label cont]) c).At) (B := c.At)
      (N := (runCalls (calls ++ [CgCall.label cont]) c).At) (O := F.Ends c.funcEpilogueLabel b k _)
      (fun _ _ hkeeps hcode => hcode.keep hkeeps) ?_ ?_ ?_ h (hcode.keep hkeeps) hcond hs₁
    · intro s σ σ' go hcode hat hs hgo
      obtain ⟨⟨v, σ₁⟩, hrun, heq⟩ := Option.map_eq_some_iff.mp hgo
      cases heq
      rw [hsplit] at hcode
      obtain ⟨hcond, hjump⟩ := (hcode.append hcont).2.append hact
      refine (goes_act hF ht ha hat hs hcond hlo hrun).trans fun s₁ hkeeps h₁ => ?_
      obtain ⟨hat₁, rfl, hs₁⟩ := h₁
      refine (goes_jumpNonzero hat₁ hs₁ (hjump.keep hkeeps)).mono fun s₂ h₂ => ⟨?_, h₂.2⟩
      have hpast := h₂.1
      by_cases hzero : s₁.regs .eax = 0
      · rw [if_pos hzero] at hpast
        rw [if_neg (by simp [hzero]), hsplit, hlast]
        have hend : (runCalls (calls ++ [CgCall.label cont] ++ (a.calls t n ++ [CgCall.jumpNonzero top])) c).At s₂ := by
          rw [runCalls_append, runCalls_append _ [_], runCalls_cons, runCalls_nil]
          exact hpast
        exact at_label_end hend last
      · rw [if_neg hzero] at hpast
        rw [if_pos (decide_eq_true hzero)]
        exact htop s₂ hpast
    · intro s σ σ' x hcode hat hs hx
      exact goes_doBody hflows (hbody hx) hcode hat hs
    · intro s σ σ' hcode hnext hs hstep
      cases hstep
      exact .here ⟨hnext, hs⟩

end Loops

section For

variable {cond step : Option Act} {m : Nat} {last next top start : Int} {fuel : Nat}
  {body : Store → Option (Exit (Option Word) × Store)}

/-- The calls of `for` after its first label. -/
def forCalls (t : Symbols) (n m : Nat) (last next top start : Int) (cond step : Option Act) (calls : List CgCall) :
    List CgCall :=
  cond.elim [CgCall.loadNum 1] (Act.calls t n) ++ ([CgCall.jumpZero last, .newLabel, .jump start, .label next] ++
    (optCalls t m step ++ ([CgCall.jump top, .label start] ++ (calls ++ [CgCall.jump next, .label last]))))

omit hF in
theorem flows_cond (t : Symbols) (n : Nat) (cond : Option Act) :
    Flows (cond.elim [CgCall.loadNum 1] (Act.calls t n)) := by
  cases cond with
  | none => rfl
  | some a => exact flows_act t n a

/-- `for`, after its first label: the code of the step is before that of the body. -/
theorem does_forLoop (ht : t.Below F.table) (hcond : OptValid t cond) (hstep : OptValid t step)
    (hlocond : F.lo + 4 * optDepth cond ≤ F.esp.toNat) (hlostep : F.lo + 4 * optDepth step ≤ F.esp.toNat)
    (hflows : Flows calls) (htop : ∀ s, F.AtLabel top s → c.At s)
    (hbody : ∀ {c σ x σ'}, body σ = some (x, σ') → F.Does last next c calls σ x σ')
    (h : rounds (optTest cond) body (optRun step) fuel σ = some (x, σ')) :
    F.Does b k c (forCalls t n m last next top start cond step calls) σ x σ' := by
  let jumps := cond.elim [CgCall.loadNum 1] (Act.calls t n) ++ [CgCall.jumpZero last, .newLabel, .jump start]
  let steps := jumps ++ .label next :: (optCalls t m step ++ [CgCall.jump top])
  have hjumps : Flows jumps := (flows_cond t n cond).append rfl
  have hsteps : Flows steps := hjumps.append (.cons rfl ((flows_opt t m step).append rfl))
  have hnext : forCalls t n m last next top start cond step calls = jumps ++ .label next :: (optCalls t m step ++
      ([CgCall.jump top, .label start] ++ (calls ++ [CgCall.jump next, .label last]))) := by simp [forCalls, jumps]
  have hstart : forCalls t n m last next top start cond step calls = steps ++ .label start ::
      (calls ++ [CgCall.jump next, .label last]) := by simp [forCalls, jumps, steps]
  have hlast : forCalls t n m last next top start cond step calls = steps ++ .label start ::
      (calls ++ [CgCall.jump next]) ++ [CgCall.label last] := by simp [forCalls, jumps, steps]
  have hfront : Flows (steps ++ .label start :: (calls ++ [CgCall.jump next])) :=
    hsteps.append (.cons rfl (hflows.append rfl))
  intro s hcode hat hs
  refine goes_rounds (C := fun s => F.Code s.mem c (forCalls t n m last next top start cond step calls)) (T := c.At)
    (B := F.AtLabel start) (N := F.AtLabel next) (O := F.Ends c.funcEpilogueLabel b k _)
    (fun _ _ hkeeps hcode => hcode.keep hkeeps) ?_ ?_ ?_ h hcode hat hs
  · intro s σ σ' go hcode hat hs hgo
    refine (goes_optTest (q := []) hF ht hat hs nofun rfl hcond hcode hlocond hgo).trans fun s₁ hkeeps h₁ => ?_
    obtain ⟨hend, hs₁⟩ := h₁
    have hcode₁ := hcode.keep hkeeps
    cases go with
    | true =>
      have htest : Flows (cond.elim [CgCall.loadNum 1] (Act.calls t n) ++ [CgCall.jumpZero last]) :=
        (flows_cond t n cond).append rfl
      have hsplit : forCalls t n m last next top start cond step calls = cond.elim [CgCall.loadNum 1] (Act.calls t n) ++
          [CgCall.jumpZero last] ++ ([CgCall.newLabel] ++ .jump start :: CgCall.label next :: (optCalls t m step ++
            ([CgCall.jump top, .label start] ++ (calls ++ [CgCall.jump next, .label last])))) := by simp [forCalls]
      rw [hsplit] at hcode₁
      have hnew : Flows [CgCall.newLabel] := rfl
      have hjump := ((hcode₁.append htest).2.append hnew).2
      have hat₁ := pass_all (q := [CgCall.newLabel]) (by simp [CgCall.raw]) hend
      exact (goes_jump hat₁ hs₁ hjump).mono fun s' h => ⟨h.1, h.2.2⟩
    | false =>
      rw [hlast] at hcode₁ ⊢
      exact .here ⟨at_label_end (hcode₁.at_label hfront hend) last, hs₁⟩
  · intro s σ σ' x hcode hat hs hx
    have hfirst : Flows (steps ++ [CgCall.label start]) := hsteps.append rfl
    rw [hstart] at hcode ⊢
    have hend := at_label_end (hcode.at_label hsteps hat) start
    rw [List.append_cons] at hcode ⊢
    have hrest := goes_body (b := b) (k := k) hflows (hbody hx) (hcode.append hfirst).2 hend hs
    rwa [hfirst.epilogue, ← runCalls_append] at hrest
  · intro s σ σ' hcode hat hs hrun
    have hfirst : Flows (jumps ++ [CgCall.label next]) := hjumps.append rfl
    rw [hnext] at hcode
    have hend := at_label_end (hcode.at_label hjumps hat) next
    rw [List.append_cons] at hcode
    obtain ⟨hopt, hjump⟩ := (hcode.append hfirst).2.append (flows_opt t m step)
    refine (goes_opt hF ht hstep hend hs hopt hlostep hrun).trans fun s₁ hkeeps h₁ => ?_
    exact (goes_jump h₁.1 h₁.2 (hjump.keep hkeeps)).mono fun s' h => ⟨htop s' h.1, h.2.2⟩

end For

/-! ### Every statement -/

omit hF in
/-- The label of a loop after calls that leave no code. -/
theorem at_loop {q : List CgCall} (hflows : Flows q) (h : F.Code s.mem c (q ++ CgCall.label id :: calls)) (s' : Cpu)
    (hat : F.AtLabel id s') : (runCalls (q ++ [CgCall.label id]) c).At s' :=
  at_label_end (h.at_label hflows hat) id

omit hF in
/-- A loop after its labels. -/
theorem does_labelled {q : List CgCall} (hquiet : ∀ call ∈ q, call.raw = []) (hflows : Flows q)
    (h : (∀ s, F.AtLabel id s → (runCalls (q ++ [CgCall.label id]) c).At s) →
      F.Does b k (runCalls (q ++ [CgCall.label id]) c) calls σ x σ') :
    F.Does b k c (q ++ CgCall.label id :: calls) σ x σ' := by
  intro s hcode hat hs
  have hrest := h fun s' => at_loop hflows hcode s'
  rw [List.append_cons] at hcode ⊢
  exact hrest.rest (hflows.append rfl) hcode (at_label_end (pass_all hquiet hat) id) hs

end Statements

mutual

/-- The code of a statement does what the statement does. -/
theorem does_stmt (hF : F.Sound) (st : Stmt) {t : Symbols} {n l fuel : Nat} {b k : Int} {c : Codegen} {σ σ' : Store}
    {x : Exit (Option Word)} (hvalid : st.Valid t l) (ht : (st.table t).Below F.table)
    (hlo : F.lo + 4 * st.depth ≤ F.esp.toNat) (h : st.exec fuel σ = some (x, σ')) :
    F.Does b k c (st.calls t n b k) σ x σ' := by
  have hbelow := (st.grows hvalid).below.trans ht
  cases st with
  | empty =>
    cases h
    exact .nil
  | act a =>
    obtain ⟨⟨v, σ₁⟩, hrun, heq⟩ := Option.map_eq_some_iff.mp h
    cases heq
    exact does_act hF hbelow hvalid hlo hrun
  | decl d ds =>
    obtain ⟨σ₁, hrun, heq⟩ := Option.map_eq_some_iff.mp h
    cases heq
    exact does_decl hF hvalid ht hlo hrun
  | block bl => exact does_block hF bl hvalid ht hlo h
  | ifThen a st =>
    obtain ⟨⟨go, σ₁⟩, hgo, h⟩ := Option.bind_eq_some_iff.mp h
    obtain ⟨ha, hst⟩ := hvalid
    rw [Stmt.depth] at hlo
    refine does_ifThen hF hbelow ha (by omega) hgo (st.flows _ _ _ _) ?_ ?_
    · rintro rfl
      exact does_stmt hF st hst ht (by omega) h
    · rintro rfl
      cases h
      exact ⟨rfl, rfl⟩
  | ifElse a st₁ st₂ =>
    obtain ⟨⟨go, σ₁⟩, hgo, h⟩ := Option.bind_eq_some_iff.mp h
    obtain ⟨ha, -, hst₁, hst₂⟩ := hvalid
    rw [Stmt.depth] at hlo
    refine does_ifElse hF hbelow ha (by omega) hgo (st₁.flows _ _ _ _) (st₂.flows _ _ _ _) ?_ ?_
    · rintro rfl
      exact does_stmt hF st₁ hst₁ ((st₂.grows hst₂).below.trans ht) (by omega) h
    · rintro rfl
      exact does_stmt hF st₂ hst₂ ht (by omega) h
  | whileLoop a st =>
    obtain ⟨-, ha, hst⟩ := hvalid
    rw [Stmt.depth] at hlo
    refine does_labelled (q := [.newLabel, .newLabel]) (by simp [CgCall.raw]) rfl fun htop => ?_
    refine does_rounds hF hbelow ha (by omega) (st.flows _ _ _ _) htop (fun hx => ?_) h
    exact does_stmt hF st hst ht (by omega) hx
  | doLoop st a =>
    obtain ⟨-, hst, ha⟩ := hvalid
    rw [Stmt.depth] at hlo
    refine does_labelled (q := [.newLabel, .newLabel, .newLabel]) (by simp [CgCall.raw]) rfl fun htop => ?_
    refine does_doLoop hF ht ha (by omega) (st.flows _ _ _ _) htop (fun hx => ?_) h
    exact does_stmt hF st hst ht (by omega) hx
  | forLoop init cond step st =>
    obtain ⟨σ₁, hinit, h⟩ := Option.bind_eq_some_iff.mp h
    obtain ⟨-, hvinit, hvcond, hvstep, hst⟩ := hvalid
    rw [Stmt.depth] at hlo
    refine (does_opt hF hbelow hvinit (by omega) hinit).seq (flows_opt t n init) ?_
    refine does_labelled (q := [.newLabel, .newLabel, .newLabel]) (by simp [CgCall.raw]) rfl fun htop => ?_
    refine does_forLoop hF hbelow hvcond hvstep (by omega) (by omega) (st.flows _ _ _ _) htop (fun hx => ?_) h
    exact does_stmt hF st hst ht (by omega) hx
  | breakStmt =>
    cases h
    exact fun s hcode hat hs => (goes_jump hat hs hcode).mono fun s' h => ⟨h.1, h.2.2⟩
  | continueStmt =>
    cases h
    exact fun s hcode hat hs => (goes_jump hat hs hcode).mono fun s' h => ⟨h.1, h.2.2⟩
  | returnStmt a =>
    rw [Stmt.depth] at hlo
    cases a with
    | none =>
      cases h
      exact fun s hcode hat hs => (goes_ret hat hs hcode).mono fun s' h => ⟨⟨h.1, nofun⟩, h.2.2⟩
    | some a =>
      obtain ⟨⟨v, σ₁⟩, hrun, heq⟩ := Option.map_eq_some_iff.mp h
      cases heq
      intro s hcode hat hs
      obtain ⟨hact, hret⟩ := hcode.append (flows_act t n a)
      refine (goes_act hF hbelow (hvalid a rfl) hat hs hact hlo hrun).trans fun s₁ hkeeps h₁ => ?_
      obtain ⟨hat₁, heax, hs₁⟩ := h₁
      refine (goes_ret hat₁ hs₁ (hret.keep hkeeps)).mono fun s₂ h₂ => ⟨⟨?_, ?_⟩, h₂.2.2⟩
      · rw [(flows_act t n a).epilogue] at h₂
        exact h₂.1
      · rintro w ⟨⟩
        exact h₂.2.1.trans heax

theorem does_block (hF : F.Sound) (bl : Block) {t : Symbols} {n l fuel : Nat} {b k : Int} {c : Codegen} {σ σ' : Store}
    {x : Exit (Option Word)} (hvalid : bl.Valid t l) (ht : (bl.table t).Below F.table)
    (hlo : F.lo + 4 * bl.depth ≤ F.esp.toNat) (h : bl.exec fuel σ = some (x, σ')) :
    F.Does b k c (bl.calls t n b k) σ x σ' := by
  cases bl with
  | nil =>
    cases h
    exact .nil
  | cons st bl =>
    obtain ⟨⟨y, σ₁⟩, hfirst, h⟩ := Option.bind_eq_some_iff.mp h
    obtain ⟨hst, hbl⟩ := hvalid
    rw [Block.depth] at hlo
    have hdoes : F.Does b k c (st.calls t n b k) σ y σ₁ :=
      does_stmt hF st hst ((bl.grows hbl).below.trans ht) (by omega) hfirst
    by_cases hy : y = .next
    · subst hy
      exact hdoes.seq (st.flows t n b k) (does_block hF bl hbl ht (by omega) h)
    · rw [if_neg hy] at h
      cases h
      exact hdoes.leave (st.flows t n b k) hy

end

end Frame

end RainbowOs.Cc
