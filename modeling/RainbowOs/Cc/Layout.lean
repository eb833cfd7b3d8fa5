import RainbowOs.Cc.Functions
import RainbowOs.Cc.Frame

/-!
# Where the variables of a function are

The parameters of a function are above its frame pointer and its locals below
it, each in the order of the declarations; the frame has room for as many
locals as a function can have.
-/

namespace RainbowOs.Cc

open RainbowOs.Lib
open X86 (Word)

/-! ## Offsets -/

/-- The offset of the local of index `i`, where the first `p` are parameters. -/
def slotOffset (p i : Nat) : Int := if i < p then 8 + 4 * i else -(4 * ((i : Int) - p) + 4)

/-- The symbol of the parameter of index `i`. -/
def paramAt (i : Nat) (x : List UInt8) : Symbol := ⟨x.take symNameMax, .param, .int, 8 + 4 * i, 0, true⟩

namespace Symbols

variable {t t' : Symbols} {p : Nat} {x : List UInt8}

/-- The table of a function with `p` parameters. -/
structure Laid (p : Nat) (t : Symbols) : Prop where
  room : t.locals.length ≤ symMaxLocal
  params : p ≤ t.locals.length
  next : t.localsOffset = 4 * ((t.locals.length : Int) - p)
  offset : ∀ i < t.locals.length, (t.deref (.loc i)).offset = slotOffset p i

namespace Laid

theorem declare (h : t.Laid p) (hroom : t.locals.length < symMaxLocal) (x : List UInt8) : (t.declare x).Laid p := by
  have hlen : (t.declare x).locals.length = t.locals.length + 1 := by
    rw [declare_eq hroom, List.length_append, List.length_singleton]
  have hparams := h.params
  refine ⟨hlen ▸ hroom, hlen ▸ Nat.le_succ_of_le hparams, ?_, fun i hi => ?_⟩
  · have hnext : (t.declare x).localsOffset = t.localsOffset + 4 := by rw [declare_eq hroom]
    rw [hlen, hnext, h.next]
    omega
  · rw [hlen] at hi
    by_cases hlast : i = t.locals.length
    · rw [hlast, deref_declare hroom, declared, h.next, slotOffset, if_neg (by omega)]
    · have hlt : i < t.locals.length := by omega
      have hold : (t.declare x).deref (.loc i) = t.deref (.loc i) := by
        rw [declare_eq hroom, deref, deref, List.getD_append _ _ _ _ hlt]
      rw [hold, h.offset i hlt]

theorem grows (h : t.Laid p) (hg : t.Grows t') : t'.Laid p := by
  induction hg with
  | refl => exact h
  | tail _ hstep ih =>
    obtain ⟨hroom, x, rfl⟩ := hstep
    exact ih.declare hroom x

end Laid

/-- A variable of the function is a local of its table. -/
theorem Local.index (h : t.Local x) : ∃ i < t.locals.length, t.find x = .loc i := by
  cases hi : indexOf x t.locals with
  | none => exact absurd (findLocal_eq_null.mpr hi) h.own
  | some i => exact ⟨i, indexOf_lt hi, find_eq_loc.mpr hi⟩

/-! ### Parameters -/

/-- Parameters that have their offsets keep them. -/
theorem numberParams_params (k : Nat) (xs : List (List UInt8)) :
    numberParams k (xs.mapIdx fun i x => paramAt (k + i) x) = xs.mapIdx fun i x => paramAt (k + i) x := by
  induction xs generalizing k with
  | nil => rfl
  | cons x xs ih =>
    have hshift : (fun (i : Nat) x => paramAt (k + (i + 1)) x) = fun i x => paramAt (k + 1 + i) x := by
      funext i x
      rw [Nat.add_right_comm, Nat.add_assoc]
    rw [List.mapIdx_cons, hshift, numberParams, if_pos (by rfl), ih]
    rfl

/-- One more parameter. -/
theorem param_eq {ys : List (List UInt8)} (h : t.locals = ys.mapIdx paramAt) (hroom : ys.length < symMaxLocal) :
    t.param x = { t with locals := (ys ++ [x]).mapIdx paramAt } := by
  have hlen : t.locals.length = ys.length := by rw [h, List.length_mapIdx]
  have hsame := numberParams_params 0 (ys ++ [x])
  simp only [Nat.zero_add] at hsame
  rw [param, addLocal, if_neg (by omega), if_pos rfl, hlen, h]
  show { t with locals := numberParams 0 (ys.mapIdx paramAt ++ [paramAt ys.length x]) } = _
  rw [← List.mapIdx_concat, hsame]

/-- All parameters, one after the other. -/
theorem params_eq (xs : List (List UInt8)) {ys : List (List UInt8)} (h : t.locals = ys.mapIdx paramAt)
    (hroom : ys.length + xs.length ≤ symMaxLocal) :
    xs.foldl Symbols.param t = { t with locals := (ys ++ xs).mapIdx paramAt } := by
  induction xs generalizing t ys with
  | nil => rw [List.append_nil, ← h, List.foldl_nil]
  | cons x xs ih =>
    rw [List.length_cons] at hroom
    have hmore : (ys ++ [x]).length + xs.length ≤ symMaxLocal := by
      rw [List.length_append, List.length_singleton]
      omega
    rw [List.foldl_cons, param_eq h (by omega), ih rfl hmore, List.append_assoc, List.singleton_append]

/-- A parameter is found by its name. -/
theorem indexOf_params {xs : List (List UInt8)} (hnodup : xs.Nodup) (hnames : ∀ x ∈ xs, x.length ≤ symNameMax) (k : Nat)
    {i : Nat} (hi : i < xs.length) : indexOf xs[i] (xs.mapIdx fun i x => paramAt (k + i) x) = some i := by
  induction xs generalizing k i with
  | nil => cases hi
  | cons x xs ih =>
    obtain ⟨hx, hxs⟩ := List.nodup_cons.mp hnodup
    have hname : (paramAt (k + 0) x).name = x := List.take_of_length_le (hnames x List.mem_cons_self)
    have hshift : (fun (i : Nat) x => paramAt (k + (i + 1)) x) = fun i x => paramAt (k + 1 + i) x := by
      funext i x
      rw [Nat.add_right_comm, Nat.add_assoc]
    rw [List.mapIdx_cons, hshift, indexOf, hname]
    cases i with
    | zero => rw [List.getElem_cons_zero, if_pos rfl]
    | succ i =>
      have hlt : i < xs.length := Nat.lt_of_succ_lt_succ hi
      have hne : x ≠ xs[i] := fun heq => hx (heq ▸ List.getElem_mem hlt)
      rw [List.getElem_cons_succ, if_neg hne,
        ih hxs (fun y hy => hnames y (List.mem_cons_of_mem x hy)) (k + 1) hlt]
      rfl

/-- The symbol of a function is not a local. -/
theorem function_ne_loc (t : Symbols) (name : List UInt8) (dt : DataType) (i : Nat) :
    (t.function name dt).1 ≠ .loc i := by
  rw [Symbols.function]
  split
  · rw [addGlobal]
    split <;> rintro ⟨⟩
  · rw [findGlobal]
    split <;> rintro ⟨⟩

/-- A store to it leaves the locals. -/
theorem modify_locals {r : SymRef} (hr : ∀ i, r ≠ .loc i) (g : Symbol → Symbol) :
    (t.modify g r).locals = t.locals ∧ (t.modify g r).localsOffset = t.localsOffset := by
  cases r with
  | null | glob => exact ⟨rfl, rfl⟩
  | loc i => exact absurd rfl (hr i)

end Symbols

namespace Function

variable {f : Function} {name : List UInt8} {dt : DataType} {t : Symbols} {pos : Int}

/-- The locals that the body begins with are the parameters. -/
theorem Valid.locals_table (h : f.Valid name dt t pos) :
    (f.table name dt t pos).locals = f.params.mapIdx paramAt ∧ (f.table name dt t pos).localsOffset = 0 := by
  obtain ⟨hlocals, hoffset⟩ := Symbols.modify_locals (t := f.scope name dt t) (t.function_ne_loc name dt)
    fun s => { s with offset := pos }
  have hscope := Symbols.params_eq f.params
    (t := ((t.function name dt).2.modify (fun s => { s with defined := true }) (t.function name dt).1).beginLocals)
    (show _ = [].mapIdx paramAt from rfl) (by simpa using h.room)
  rw [table, hlocals, hoffset, scope, hscope]
  exact ⟨rfl, rfl⟩

theorem Valid.laid (h : f.Valid name dt t pos) : (f.table name dt t pos).Laid f.params.length := by
  obtain ⟨hlocals, hoffset⟩ := h.locals_table
  have hlen : (f.table name dt t pos).locals.length = f.params.length := by rw [hlocals, List.length_mapIdx]
  refine ⟨hlen ▸ h.room, Nat.le_of_eq hlen.symm, ?_, fun i hi => ?_⟩
  · rw [hoffset, hlen]
    omega
  · rw [hlen] at hi
    rw [Symbols.deref, hlocals, List.getD_eq_getElem _ _ (by rwa [List.length_mapIdx]), List.getElem_mapIdx, paramAt,
      slotOffset, if_pos hi]

/-- A parameter is still itself at the end of the body. -/
theorem Valid.find_param (h : f.Valid name dt t pos) {i : Nat} (hi : i < f.params.length) :
    (f.body.table (f.table name dt t pos)).find f.params[i] = .loc i := by
  obtain ⟨hlocals, -⟩ := h.locals_table
  have hindex := Symbols.indexOf_params h.nodup h.names 0 hi
  simp only [Nat.zero_add] at hindex
  have hfind : (f.table name dt t pos).find f.params[i] = .loc i := Symbols.find_eq_loc.mpr (hlocals ▸ hindex)
  have hown : (f.table name dt t pos).findLocal f.params[i] ≠ .null := fun hnull => by
    rw [Symbols.findLocal_eq_null, Symbols.find_eq_loc.mp hfind] at hnull
    cases hnull
  obtain ⟨hsame, -⟩ := (f.body.grows h.body).below _ hown
  rw [Symbols.find_of_local (hsame ▸ hown), hsame, ← Symbols.find_of_local hown, hfind]

end Function

/-! ## Addresses -/

/-- The address of a local of index `i`, where ESP is `e` at the entry. -/
def slotAt (p e i : Nat) : Nat := if i < p then e + 4 + 4 * i else e - 8 - 4 * (i - p)

theorem toNat_add_imm (w : Word) (k : Int) (h : 0 ≤ w.toNat + k) (h' : w.toNat + k < 4294967296) :
    ((w + imm k).toNat : Int) = w.toNat + k := by
  rw [BitVec.toNat_add, BitVec.toNat_ofInt]
  omega

/-- The end of the frame. -/
theorem toNat_frame {e : Word} (h : 144 ≤ e.toNat) : (e - 144).toNat = e.toNat - 144 := by
  bv_omega

/-- The frame of a call, where the table has the variables and ESP is `e` at the entry. -/
def callFrame (env : Linkage) (T : Symbols) (e : Word) (lo : Nat) : Frame := ⟨env, T, e - 144, e - 4, lo⟩

section Addresses

variable {env : Linkage} {T : Symbols} {e : Word} {lo p : Nat} {x : List UInt8} {i : Nat}

/-- The cell of a variable. -/
theorem cell_callFrame (hT : T.Laid p) (hlo : 144 ≤ e.toNat) (hhi : e.toNat + 4 + 4 * p ≤ 4294967296)
    (hx : T.find x = .loc i) (hi : i < T.locals.length) :
    ((callFrame env T e lo).cell x).toNat = slotAt p e.toNat i := by
  have hmax := hT.room
  have hbase : (e - 4).toNat = e.toNat - 4 := X86.toNat_sub_four (by omega)
  have hoffset := hT.offset i hi
  rw [Frame.cell]
  show ((e - 4) + imm (T.deref (T.find x)).offset).toNat = _
  rw [hx, hoffset]
  have hroom : symMaxLocal = 32 := rfl
  have hadd := toNat_add_imm (e - 4) (slotOffset p i)
  rw [hbase] at hadd
  unfold slotAt
  unfold slotOffset at hadd ⊢
  split
  · next hparam =>
    rw [if_pos hparam] at hadd
    have := hadd (by omega) (by omega)
    omega
  · next hlocal =>
    rw [if_neg hlocal] at hadd
    have := hadd (by omega) (by omega)
    omega

/-- The cells are apart from each other and from what is saved. -/
theorem sound_callFrame (hT : T.Laid p) (hlo : 144 ≤ e.toNat) (hhi : e.toNat + 4 + 4 * p ≤ 4294967296) :
    (callFrame env T e lo).Sound := by
  have hesp := toNat_frame hlo
  have hroom : symMaxLocal = 32 := rfl
  have hmax := hT.room
  constructor
  · intro x hx
    obtain ⟨i, (hi : i < T.locals.length), hfind⟩ := hx.index
    rw [cell_callFrame hT hlo hhi hfind hi, slotAt]
    show (e - 144).toNat ≤ _
    split <;> omega
  · intro x y hx hy hne
    obtain ⟨i, (hi : i < T.locals.length), hfind⟩ := hx.index
    obtain ⟨j, (hj : j < T.locals.length), hfind'⟩ := hy.index
    have hij : i ≠ j := by
      rintro rfl
      exact hne (Symbols.find_injective (hfind.trans hfind'.symm) (hfind ▸ fun hnull => by cases hnull))
    rw [cell_callFrame hT hlo hhi hfind hi, cell_callFrame hT hlo hhi hfind' hj, slotAt, slotAt]
    split <;> split <;> omega

/-- What a call may write: the stack below ESP at the entry and its arguments, but not what is saved. -/
theorem owns_callFrame (hT : T.Laid p) (hlo : 144 ≤ e.toNat) (hhi : e.toNat + 4 + 4 * p ≤ 4294967296) {a : Nat}
    (ha : (callFrame env T e lo).Owns a) : (lo ≤ a ∧ a < e.toNat - 144) ∨
      (e.toNat - 132 ≤ a ∧ a < e.toNat - 4) ∨ (e.toNat + 4 ≤ a ∧ a < e.toNat + 4 + 4 * p) := by
  have hesp := toNat_frame hlo
  have hroom : symMaxLocal = 32 := rfl
  have hmax := hT.room
  rcases ha with ⟨hlow, hbelow⟩ | ⟨x, hx, hlow, hbelow⟩
  · exact .inl ⟨hlow, hesp ▸ hbelow⟩
  · obtain ⟨i, (hi : i < T.locals.length), hfind⟩ := hx.index
    rw [cell_callFrame hT hlo hhi hfind hi, slotAt] at hlow hbelow
    right
    split at hlow
    · next hparam =>
      rw [if_pos hparam] at hbelow
      right
      omega
    · next hlocal =>
      rw [if_neg hlocal] at hbelow
      left
      omega

end Addresses

end RainbowOs.Cc
