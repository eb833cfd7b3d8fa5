import RainbowOs.Basic.Division
import RainbowOs.Lib.Notes

/-!
# Values of BASIC at their types

`struct bas_value` is a union behind a type, and nothing but a test of the
type keeps the code from reading the one as the other. Here the evaluator of
`apps/basic/expr.c` runs on such unions: the number of a string is the pointer
that stands in its place. It notes each field that it reads, with the type of
the value, and each operator and function that it applies, with the types of
the operands and whether it refused them. Without the notes it is the evaluator
on values that know what they are.

All operators and functions test what they are applied to, except `AND` and
`OR`, which take the number of any value.
-/

namespace RainbowOs.Basic

open RainbowOs.Lib
open Prog (note bare Erases Law)

/-- `enum val_type` -/
inductive ValType where
  | num
  | str
  deriving DecidableEq, Repr

/-- `struct bas_value`: `num` is the number or the pointer to the text, which is not null. -/
structure BasValue where
  type : ValType
  num : Int
  str : List UInt8
  text_ne : type = .str → num ≠ 0

/-- The value that is meant. -/
def BasValue.value (v : BasValue) : Value :=
  match v.type with
  | .num => .num v.num
  | .str => .str v.str

/-! ## What is applied to values -/

/-- An operator or a function, by its token, or a statement. -/
inductive User where
  | unary (tok : UInt8)
  | binary (tok : UInt8)
  | function (tok : UInt8)
  | print
  | condition
  | assign (target : ValType)
  | number
  deriving DecidableEq, Repr

/-- The operators that take two strings as well as two numbers. -/
def onStrings (tok : UInt8) : Bool :=
  tok = 43 ∨ tok = 61 ∨ tok = 60 ∨ tok = 62 ∨ tok = Tok.le ∨ tok = Tok.ge ∨ tok = Tok.ne

/-- The types of the arguments of a function. -/
def params (func : UInt8) : List ValType :=
  if func = Tok.len ∨ func = Tok.val then [.str]
  else if func = Tok.left ∨ func = Tok.right then [.str, .num]
  else if func = Tok.mid then [.str, .num, .num]
  else [.num]

/-- The types of BASIC: the operands that there are for each. -/
def User.accepts : User → List ValType → Bool
  | .binary _, [.num, .num] => true
  | .binary tok, [.str, .str] => onStrings tok
  | .binary _, _ => false
  | .function func, types => types = params func
  | .print, types | .condition, types => types.length = 1
  | .assign target, types => types = [target]
  | .unary _, types | .number, types => types = [.num]

/-- What is done with values: a field of one is read, or something is applied to some. -/
inductive Use where
  | read (field type : ValType)
  | apply (user : User) (operands : List ValType) (refused : Bool)
  deriving DecidableEq, Repr

/-- A field is read of a value of its type, and what is applied to values of another type is an error. -/
def Use.Typed : Use → Prop
  | .read field type => type = field
  | .apply user operands refused => refused = !user.accepts operands

theorem typed_apply {user : User} {operands : List ValType} {ok : Bool} (h : user.accepts operands = ok) :
    (Use.apply user operands !ok).Typed := (congrArg (!·) h).symm

/-- `AND` and `OR` are carried out on numbers. -/
def Use.LogicTyped : Use → Prop
  | .apply (.binary tok) operands false => tok = Tok.and ∨ tok = Tok.or → operands = [.num, .num]
  | _ => True

/-- `AND` and `OR` are there for numbers only. -/
theorem accepts_logic {tok : UInt8} (htok : tok = Tok.and ∨ tok = Tok.or) :
    ∀ {operands : List ValType}, (User.binary tok).accepts operands = true → operands = [.num, .num]
  | [.num, .num], _ => rfl
  | [.str, .str], h => by
    have hstrings : onStrings tok = false := by
      rcases htok with rfl | rfl
      all_goals rfl
    exact absurd (hstrings.symm.trans h) Bool.false_ne_true

theorem Use.Typed.logic {u : Use} (h : u.Typed) : u.LogicTyped := by
  unfold Use.LogicTyped
  split
  · next tok operands =>
    have haccepts : (User.binary tok).accepts operands = true := by simpa [Use.Typed] using h
    exact fun htok => accepts_logic htok haccepts
  · trivial

/-- What is applied reports an error. -/
def Use.Refused : Use → Prop
  | .apply _ _ refused => refused = true
  | .read .. => False

section Notes

variable {σ ε κ α : Type}

/-- `v.num` -/
def BasValue.readNum (v : BasValue) : Prog σ ε (κ ⊕ Use) Int := do
  note [.read .num v.type]
  return v.num

/-- `v.str` -/
def BasValue.readStr (v : BasValue) : Prog σ ε (κ ⊕ Use) (List UInt8) := do
  note [.read .str v.type]
  return v.str

theorem BasValue.readNum_bind_run (v : BasValue) (f : Int → Prog σ ε (κ ⊕ Use) α) (s : σ) :
    (v.readNum >>= f) s = (f v.num s).prepend [.inr (.read .num v.type)] := by
  unfold BasValue.readNum
  rw [Prog.bind_assoc]
  exact Prog.note_bind_run _ _ s

/-- A test of the types of the operands: `ok` is what it finds. -/
def checked (user : User) (operands : List BasValue) (ok : Bool) (refuse k : Prog σ ε (κ ⊕ Use) α) :
    Prog σ ε (κ ⊕ Use) α := do
  note [.apply user (operands.map BasValue.type) !ok]
  if ok then k else refuse

end Notes

/-! ## The evaluator -/

theorem value_of_num {v : BasValue} (h : v.type = .num) : v.value = .num v.num := by
  unfold BasValue.value
  rw [h]

/-- The address of `string_pool`. -/
structure PoolAddr where
  addr : Nat
  pos : 0 < addr
  fits : addr + stringPoolSize ≤ 4294967296

theorem PoolAddr.i32_ne_zero (pool : PoolAddr) {at_ : Nat} (h : at_ < stringPoolSize) :
    i32 (pool.addr + at_) ≠ 0 := by
  have hpos := pool.pos
  have hfits := pool.fits
  unfold i32
  omega

/-- An evaluation that notes its uses. -/
abbrev UnionM := Prog Eval Fault (Division ⊕ Use)

namespace Unions

open Prog (get modify tell halt)

/-- `make_num` -/
def makeNum (n : Int) : BasValue := ⟨.num, n, [], nofun⟩

/-- `make_str`, of the text at a place in the pool. -/
def makeStr (pool : PoolAddr) (at_ : Nat) (h : at_ < stringPoolSize) (s : List UInt8) : BasValue :=
  ⟨.str, i32 (pool.addr + at_), s, fun _ => pool.i32_ne_zero h⟩

@[simp] theorem makeNum_value (n : Int) : (makeNum n).value = .num n := rfl

@[simp] theorem makeStr_value (pool : PoolAddr) {at_ : Nat} (h : at_ < stringPoolSize) (s : List UInt8) :
    (makeStr pool at_ h s).value = .str s := rfl

def fail : UnionM BasValue := do
  bare (modify fun e => { e with error := true })
  return makeNum 0

/-- `string_pool_alloc`, with the text that is put there. -/
def alloc (pool : PoolAddr) (s : List UInt8) : UnionM BasValue := do
  let e ← bare get
  if h : e.spoolPos + s.length + 1 > stringPoolSize then fail
  else
    bare (modify fun e => { e with spoolPos := e.spoolPos + s.length + 1 })
    return makeStr pool e.spoolPos (by omega) s

section Parse

variable (pool : PoolAddr) (t : Tokens) (len : Nat) (vars : Vars) (ram : Bytes)

/-- A binary operator on numbers. -/
def arith (op : UInt8) (a b : Int) : UnionM BasValue :=
  if op = 42 then return makeNum (i32 (a * b))
  else if b = 0 then do
    bare (tell (.refuse a))
    fail
  else do
    bare (tell (.divide a b))
    if a = -2147483648 ∧ b = -1 then halt .divide
    else if op = 47 then return makeNum (a.tdiv b)
    else return makeNum (a.tmod b)

/-- The loop of `parse_mul`. -/
def mulLoop (primary : UnionM BasValue) : Nat → BasValue → UnionM BasValue
  | 0, _ => halt .fuel
  | fuel + 1, left => do
    bare (Eval.skip t len)
    let tok ← bare (Eval.peek t len)
    if tok = 42 ∨ tok = 47 ∨ tok = Tok.mod then
      bare (Eval.advance 1)
      let right ← primary
      if (← bare get).error then return makeNum 0
      else
        checked (.binary tok) [left, right] (left.type = .num ∧ right.type = .num) fail do
          let v ← arith tok (← left.readNum) (← right.readNum)
          if (← bare get).error then return v else mulLoop primary fuel v
    else return left

/-- `parse_mul` -/
def parseMul (primary : UnionM BasValue) (fuel : Nat) : UnionM BasValue := do
  let left ← primary
  if (← bare get).error then return left else mulLoop t len primary fuel left

/-- The loop of `parse_add`. -/
def addLoop (mul : UnionM BasValue) : Nat → BasValue → UnionM BasValue
  | 0, _ => halt .fuel
  | fuel + 1, left => do
    bare (Eval.skip t len)
    let tok ← bare (Eval.peek t len)
    if tok = 43 ∨ tok = 45 then
      bare (Eval.advance 1)
      let right ← mul
      if (← bare get).error then return makeNum 0
      else if tok = 43 ∧ left.type = .str ∧ right.type = .str then
        checked (.binary tok) [left, right] true fail do
          let a ← left.readStr
          let b ← right.readStr
          let v ← alloc pool ((a ++ b).take ((a.length + b.length) % 256))
          if (← bare get).error then return v else addLoop mul fuel v
      else
        checked (.binary tok) [left, right] (left.type = .num ∧ right.type = .num) fail do
          let a ← left.readNum
          let b ← right.readNum
          addLoop mul fuel (makeNum (i32 (if tok = 43 then a + b else a - b)))
    else return left

/-- `parse_add` -/
def parseAdd (primary : UnionM BasValue) (fuel : Nat) : UnionM BasValue := do
  let left ← parseMul t len primary fuel
  if (← bare get).error then return left
  else addLoop pool t len (parseMul t len primary fuel) fuel left

/-- What a comparison makes of the order of its operands. -/
def compare (tok : UInt8) (cmp : Int) : BasValue :=
  let result : Bool :=
    if tok = 61 then cmp = 0
    else if tok = Tok.ne then cmp ≠ 0
    else if tok = 60 then cmp < 0
    else if tok = 62 then cmp > 0
    else if tok = Tok.le then cmp ≤ 0
    else cmp ≥ 0
  makeNum (if result then -1 else 0)

/-- `parse_compare` -/
def parseCompare (primary : UnionM BasValue) (fuel : Nat) : UnionM BasValue := do
  let left ← parseAdd pool t len primary fuel
  if (← bare get).error then return left
  else
    bare (Eval.skip t len)
    let tok ← bare (Eval.peek t len)
    if tok = 61 ∨ tok = 60 ∨ tok = 62 ∨ tok = Tok.le ∨ tok = Tok.ge ∨ tok = Tok.ne then
      bare (Eval.advance 1)
      let right ← parseAdd pool t len primary fuel
      if (← bare get).error then return makeNum 0
      else if left.type = .str ∧ right.type = .str then
        checked (.binary tok) [left, right] true fail do
          let a ← left.readStr
          let b ← right.readStr
          return compare tok (strcmp (cstr a) (cstr b))
      else
        checked (.binary tok) [left, right] (left.type = .num ∧ right.type = .num) fail do
          let a ← left.readNum
          let b ← right.readNum
          return compare tok (a - b)
    else return left

/-- `left.num && right.num` and `left.num || right.num`: there is no test of the types, and the number
on the right is read where the one on the left does not decide. -/
def logic (tok : UInt8) (op : Bool → Bool → Bool) (left right : BasValue) : UnionM Bool := do
  note [.apply (.binary tok) [left.type, right.type] false]
  let a ← left.readNum
  if op (a ≠ 0) true = op (a ≠ 0) false then return op (a ≠ 0) true
  else return op (a ≠ 0) ((← right.readNum) ≠ 0)

/-- The loop of `parse_and` and of `parse_or`. -/
def logicLoop (tok : UInt8) (op : Bool → Bool → Bool) (operand : UnionM BasValue) :
    Nat → BasValue → UnionM BasValue
  | 0, _ => halt .fuel
  | fuel + 1, left => do
    bare (Eval.skip t len)
    if (← bare (Eval.peek t len)) = tok then
      bare (Eval.advance 1)
      let right ← operand
      if (← bare get).error then return makeNum 0
      else
        let result ← logic tok op left right
        logicLoop tok op operand fuel (makeNum (if result then -1 else 0))
    else return left

/-- `parse_and` -/
def parseAnd (primary : UnionM BasValue) (fuel : Nat) : UnionM BasValue := do
  let left ← parseCompare pool t len primary fuel
  if (← bare get).error then return left
  else logicLoop t len Tok.and and (parseCompare pool t len primary fuel) fuel left

/-- `parse_or` -/
def parseOr (primary : UnionM BasValue) (fuel : Nat) : UnionM BasValue := do
  let left ← parseAnd pool t len primary fuel
  if (← bare get).error then return left
  else logicLoop t len Tok.or or (parseAnd pool t len primary fuel) fuel left

/-- A function of one argument. -/
def unary (func : UInt8) (type : ValType) (arg : BasValue) (k : UnionM BasValue) : UnionM BasValue := do
  bare (Eval.optional t len 41)
  checked (.function func) [arg] (arg.type = type) fail k

/-- `parse_function` -/
def parseFunction (or : UnionM BasValue) (func : UInt8) : UnionM BasValue := do
  bare (Eval.skip t len)
  if (← bare (Eval.peek t len)) ≠ 40 then fail
  else
    bare (Eval.advance 1)
    let arg ← or
    if (← bare get).error then return makeNum 0
    else if func = Tok.abs then
      unary t len func .num arg do
        let n ← arg.readNum
        return makeNum (if n < 0 then i32 (-n) else n)
    else if func = Tok.rnd then
      unary t len func .num arg do
        let n ← arg.readNum
        let (r, e) := (← bare get).basicRnd n
        bare (modify fun _ => e)
        return makeNum r
    else if func = Tok.int then unary t len func .num arg (return arg)
    else if func = Tok.len then
      unary t len func .str arg do
        let s ← arg.readStr
        return makeNum s.length
    else if func = Tok.val then
      unary t len func .str arg do
        let s ← arg.readStr
        return makeNum (strToI32 s)
    else if func = Tok.chr then
      unary t len func .num arg do
        let n ← arg.readNum
        alloc pool [UInt8.ofNat (n % 256).toNat]
    else if func = Tok.str then
      unary t len func .num arg do
        let n ← arg.readNum
        alloc pool (i32ToStr n)
    else if func = Tok.peek then
      unary t len func .num arg do
        let n ← arg.readNum
        return makeNum (ram (n % 4294967296).toNat).toNat
    else if func = Tok.left ∨ func = Tok.right then
      bare (Eval.optional t len 44)
      let arg2 ← or
      bare (Eval.optional t len 41)
      checked (.function func) [arg, arg2] (arg.type = .str ∧ arg2.type = .num) fail do
        let n ← arg2.readNum
        let s ← arg.readStr
        let n := Eval.clamp n s.length
        alloc pool (if func = Tok.left then s.take n else s.drop (s.length - n))
    else if func = Tok.mid then
      bare (Eval.optional t len 44)
      let arg2 ← or
      bare (Eval.optional t len 44)
      let arg3 ← or
      bare (Eval.optional t len 41)
      checked (.function func) [arg, arg2, arg3]
          (arg.type = .str ∧ arg2.type = .num ∧ arg3.type = .num) fail do
        let p ← arg2.readNum
        let n ← arg3.readNum
        let s ← arg.readStr
        let p := Eval.clamp (i32 (p - 1)) s.length
        let n := if n < 0 then 0 else n
        let n := if i32 (p + n) > s.length then (s.length : Int) - p else n
        -- the sum overflows: the copy runs over the memory
        if p + n > s.length then halt .copy else alloc pool ((s.drop p).take n.toNat)
    else fail

/-- A variable. -/
def variable_ (name : UInt8) : UnionM BasValue := do
  bare (Eval.advance 1)
  if (← bare (Eval.peek t len)) = 36 then
    bare (Eval.advance 1)
    match varStr name with
    | some row => alloc pool (vars.strs row)
    | none => fail
  else
    let c ← bare (Eval.peek t len)
    let idx : Int := if isDigit c then c.toNat - 48 else -1
    if isDigit c then bare (Eval.advance 1)
    match varNum name idx with
    | some slot => return makeNum (vars.nums slot)
    | none => fail

/-- `parse_primary` -/
def parsePrimary : Nat → UnionM BasValue
  | 0 => halt .fuel
  | fuel + 1 => do
    bare (Eval.skip t len)
    let tok ← bare (Eval.peek t len)
    if tok = 45 then
      bare (Eval.advance 1)
      let v ← parsePrimary fuel
      checked (.unary tok) [v] (v.type = .num) fail do
        let n ← v.readNum
        return makeNum (i32 (-n))
    else if tok = Tok.not then
      bare (Eval.advance 1)
      let v ← parsePrimary fuel
      checked (.unary tok) [v] (v.type = .num) fail do
        let n ← v.readNum
        return makeNum (if n ≠ 0 then 0 else 1)
    else if tok = 40 then
      bare (Eval.advance 1)
      let v ← parseOr pool t len (parsePrimary fuel) fuel
      bare (Eval.optional t len 41)
      return v
    else if tok = Tok.num then
      bare (Eval.advance 1)
      let n := t.num (← bare get).pos
      bare (Eval.advance 4)
      return makeNum n
    else if tok = Tok.strLit then
      bare (Eval.advance 1)
      let pos := (← bare get).pos
      let slen := (t.tok pos).toNat
      bare (Eval.advance 1)
      let v ← alloc pool (t.mem.slice (t.addr + adv pos 1) slen)
      match v.type with
      | .str =>
        bare (Eval.advance slen)
        return v
      -- there was no room
      | .num => return v
    else if Tok.abs ≤ tok ∧ tok ≤ Tok.int then
      bare (Eval.advance 1)
      parseFunction pool t len ram (parseOr pool t len (parsePrimary fuel) fuel) tok
    else if isAlpha tok then variable_ pool t len vars tok
    else fail

/-- The run of `expr_eval`. -/
def exprRun (fuel : Nat) : UnionM BasValue :=
  parseOr pool t len (parsePrimary pool t len vars ram fuel) fuel

end Parse

/-! ## What the evaluator does with values -/

/-- Where `AND` and `OR` have numbers, all have what they are to have. -/
def TypedIfLogic (l : List Use) : Prop := (∀ u ∈ l, u.LogicTyped) → ∀ u ∈ l, u.Typed

theorem TypedIfLogic.nil : TypedIfLogic [] := fun _ _ h => absurd h List.not_mem_nil

theorem TypedIfLogic.append {l l' : List Use} (h : TypedIfLogic l) (h' : TypedIfLogic l') :
    TypedIfLogic (l ++ l') := by
  intro hlogic u hu
  rcases List.mem_append.mp hu with hu | hu
  · exact h (fun u hu => hlogic u (List.mem_append_left _ hu)) u hu
  · exact h' (fun u hu => hlogic u (List.mem_append_right _ hu)) u hu

theorem TypedIfLogic.single {u : Use} (h : u.Typed) : TypedIfLogic [u] :=
  fun _ _ hu => List.mem_singleton.mp hu ▸ h

/-- What is refused is an error at the end of the evaluation, and so is an error before it. -/
def evalLaw : Law Eval Use where
  notes := TypedIfLogic
  run e l e' := ((∃ u ∈ l, u.Refused) → e'.error = true) ∧ (e.error = true → e'.error = true)
  nil := .nil
  append := .append

theorem evalLaw_composes : evalLaw.Composes where
  refl _ := ⟨fun ⟨_, hu, _⟩ => absurd hu List.not_mem_nil, id⟩
  trans := by
    rintro s s' s'' l l' ⟨hrefused, hkeep⟩ ⟨hrefused', hkeep'⟩
    refine ⟨fun ⟨u, hu, h⟩ => ?_, fun h => hkeep' (hkeep h)⟩
    rcases List.mem_append.mp hu with hu | hu
    · exact hkeep' (hrefused ⟨u, hu, h⟩)
    · exact hrefused' ⟨u, hu, h⟩

/-- The evaluation on unions is the one on values, and goes by the law. -/
abbrev Means (p : UnionM BasValue) (q : EvalM Value) : Prop := Erases evalLaw BasValue.value p q

theorem erases_bare {α : Type} {p : EvalM α}
    (h : ∀ e, e.error = true → (p e).state.error = true) : Erases evalLaw id (bare p) p :=
  .bare fun e _ _ => ⟨fun ⟨_, hu, _⟩ => absurd hu List.not_mem_nil, h e⟩

theorem means_return (v : BasValue) : Means (return v) (return v.value) := .pure evalLaw_composes v

/-- A part that both have in common, and what goes on with it. -/
theorem means_bare {α : Type} {p : EvalM α} {f : α → UnionM BasValue} {f' : α → EvalM Value}
    (h : Eval.Guarded p) (hf : ∀ a, Means (f a) (f' a)) : Means (bare p >>= f) (p >>= f') :=
  .bind evalLaw_composes (erases_bare fun e => (h e).error) hf

theorem means_tell {x : Division} {f : Unit → UnionM BasValue} {f' : Unit → EvalM Value}
    (hf : Means (f ()) (f' ())) : Means (bare (tell x) >>= f) (tell x >>= f') :=
  .bind evalLaw_composes (erases_bare fun _ h => h) fun _ => hf

/-- A value, and what goes on with it. -/
theorem means_bind {p : UnionM BasValue} {q : EvalM Value} {f : BasValue → UnionM BasValue}
    {f' : Value → EvalM Value} (h : Means p q) (hf : ∀ v, Means (f v) (f' v.value)) :
    Means (p >>= f) (q >>= f') :=
  .bind evalLaw_composes h hf

/-- A value, and what goes on with it if there is no error. -/
theorem means_value {p : UnionM BasValue} {q : EvalM Value} {other f : BasValue → UnionM BasValue}
    {other' f' : Value → EvalM Value} (h : Means p q) (ho : ∀ v, Means (other v) (other' v.value))
    (hf : ∀ v, Means (f v) (f' v.value)) :
    Means (do let v ← p; if (← bare get).error then other v else f v)
      (do let v ← q; if (← get).error then other' v else f' v) :=
  means_bind h fun v => means_bare .get fun _ => .ite (ho v) (hf v)

theorem means_fail : Means fail Eval.fail :=
  means_bare (.modify fun _ _ => rfl) fun _ => means_return _

theorem means_alloc (pool : PoolAddr) (s : List UInt8) : Means (alloc pool s) (Eval.alloc s) := by
  refine means_bare .get fun e => ?_
  split
  · exact means_fail
  · exact means_bare (.modify fun _ h => h) fun _ => means_return _

/-- Operands of the types that are wanted. -/
theorem means_accepted {user : User} {operands : List BasValue} {k : UnionM BasValue} {q : EvalM Value}
    (h : user.accepts (operands.map BasValue.type) = true) (hk : Means k q) :
    Means (checked user operands true fail k) q := by
  refine Erases.note_bind (TypedIfLogic.single ?_) (fun e l e' hrun => ⟨?_, hrun.2⟩) hk
  · exact typed_apply h
  · rintro ⟨u, hu, hrefused⟩
    rcases List.mem_cons.mp hu with rfl | hu
    · exact absurd hrefused nofun
    · exact hrun.1 ⟨u, hu, hrefused⟩

/-- Operands of other types. -/
theorem means_refused {user : User} {operands : List BasValue} {k : UnionM BasValue}
    (h : user.accepts (operands.map BasValue.type) = false) :
    Means (checked user operands false fail k) Eval.fail := fun _ =>
  { out := rfl
    state := rfl
    log := rfl
    notes := .single (typed_apply h)
    run := fun _ _ => ⟨fun _ => rfl, fun _ => rfl⟩ }

/-- A field that is read of a value of its type. -/
theorem means_note_read {field type : ValType} {p : UnionM BasValue} {q : EvalM Value}
    (htype : type = field) (hp : Means p q) : Means (do note [.read field type]; p) q := by
  refine Erases.note_bind (TypedIfLogic.single htype) (fun e l e' hrun => ⟨?_, hrun.2⟩) hp
  rintro ⟨u, hu, hrefused⟩
  rcases List.mem_cons.mp hu with rfl | hu
  · exact absurd hrefused id
  · exact hrun.1 ⟨u, hu, hrefused⟩

theorem means_readNum {v : BasValue} {f : Int → UnionM BasValue} {q : EvalM Value} (hv : v.type = .num)
    (hf : Means (f v.num) q) : Means (v.readNum >>= f) q := by
  unfold BasValue.readNum
  rw [Prog.bind_assoc]
  exact means_note_read hv hf

theorem means_readStr {v : BasValue} {f : List UInt8 → UnionM BasValue} {q : EvalM Value}
    (hv : v.type = .str) (hf : Means (f v.str) q) : Means (v.readStr >>= f) q := by
  unfold BasValue.readStr
  rw [Prog.bind_assoc]
  exact means_note_read hv hf

/-- The number of a value, or its pointer, is what makes it a condition. -/
theorem truth_value (v : BasValue) : Eval.truth v.value = decide (v.num ≠ 0) := by
  obtain ⟨type, n, s, h⟩ := v
  cases type with
  | num => rfl
  | str => exact (decide_eq_true (h rfl)).symm

/-- `AND` and `OR` note their operands, and read the number of one or of both. -/
theorem logic_run (tok : UInt8) (op : Bool → Bool → Bool) (left right : BasValue) (e : Eval) :
    ∃ reads : List Use,
      logic tok op left right e = ⟨.done (op (left.num ≠ 0) (right.num ≠ 0)), e,
        (.apply (.binary tok) [left.type, right.type] false :: reads).map .inr⟩ ∧
      ∀ u ∈ reads, u = .read .num left.type ∨ u = .read .num right.type := by
  by_cases hop : op (left.num ≠ 0) true = op (left.num ≠ 0) false
  · refine ⟨[.read .num left.type], ?_, by simp⟩
    have hright : op (left.num ≠ 0) (right.num ≠ 0) = op (left.num ≠ 0) true := by
      cases decide (right.num ≠ 0) with
      | true => rfl
      | false => exact hop.symm
    rw [hright]
    unfold logic
    rw [Prog.note_bind_run, BasValue.readNum_bind_run, if_pos hop]
    rfl
  · refine ⟨[.read .num left.type, .read .num right.type], ?_, by simp⟩
    unfold logic
    rw [Prog.note_bind_run, BasValue.readNum_bind_run, if_neg hop, BasValue.readNum_bind_run]
    rfl

/-- What they read is of its type if the operands are numbers. -/
theorem erases_logic {tok : UInt8} (htok : tok = Tok.and ∨ tok = Tok.or) (op : Bool → Bool → Bool)
    (left right : BasValue) : Erases evalLaw id (logic tok op left right)
      (return op (Eval.truth left.value) (Eval.truth right.value)) := by
  intro e
  obtain ⟨reads, hrun, hreads⟩ := logic_run tok op left right e
  rw [hrun, truth_value, truth_value]
  refine .of_notes (fun hlogic u hu => ?_) fun _ _ => ⟨?_, id⟩
  · have htypes : [left.type, right.type] = [.num, .num] := hlogic _ List.mem_cons_self htok
    obtain ⟨hleft, hright⟩ : left.type = .num ∧ right.type = .num := by simpa using htypes
    rcases List.mem_cons.mp hu with rfl | hu
    · show false = !User.accepts _ _
      rw [htypes]
      rfl
    · rcases hreads u hu with rfl | rfl
      · exact hleft
      · exact hright
  · rintro ⟨u, hu, hrefused⟩
    rcases List.mem_cons.mp hu with rfl | hu
    · exact absurd hrefused nofun
    · rcases hreads u hu with rfl | rfl
      · exact absurd hrefused id
      · exact absurd hrefused id

/-! ### The levels of precedence -/

variable {pool : PoolAddr} {t : Tokens} {len : Nat} {vars : Vars} {ram : Bytes}

theorem means_arith (op : UInt8) (a b : Int) : Means (arith op a b) (Eval.arith op a b) := by
  unfold arith Eval.arith
  refine .ite (means_return _) (.ite (means_tell means_fail) (means_tell ?_))
  exact .ite (.halt _) (.ite (means_return _) (means_return _))

section Levels

variable {primary : UnionM BasValue} {primary' : EvalM Value}

theorem means_mulLoop (h : Means primary primary') (fuel : Nat) (left : BasValue) :
    Means (mulLoop t len primary fuel left) (Eval.mulLoop t len primary' fuel left.value) := by
  induction fuel generalizing left with
  | zero => exact .halt _
  | succ fuel ih =>
    rw [mulLoop, Eval.mulLoop]
    refine means_bare Eval.guarded_skip fun _ => means_bare Eval.guarded_peek fun tok => ?_
    split
    · next htok =>
      have hstrings : onStrings tok = false := by
        rcases htok with rfl | rfl | rfl
        all_goals rfl
      refine means_bare (Eval.guarded_advance 1) fun _ => means_value h (fun _ => means_return _) fun right => ?_
      obtain ⟨type, a, s, hs⟩ := left
      obtain ⟨type', b, s', hs'⟩ := right
      cases type with
      | str =>
        cases type' with
        | str => exact means_refused hstrings
        | num => exact means_refused rfl
      | num =>
        cases type' with
        | str => exact means_refused rfl
        | num =>
          refine means_accepted rfl (means_readNum rfl (means_readNum rfl ?_))
          exact means_value (means_arith tok a b) means_return fun v => ih v
    · exact means_return left

theorem means_parseMul (h : Means primary primary') (fuel : Nat) :
    Means (parseMul t len primary fuel) (Eval.parseMul t len primary' fuel) :=
  means_value h means_return fun left => means_mulLoop h fuel left

theorem means_addLoop {mul : UnionM BasValue} {mul' : EvalM Value} (h : Means mul mul') (fuel : Nat)
    (left : BasValue) :
    Means (addLoop pool t len mul fuel left) (Eval.addLoop t len mul' fuel left.value) := by
  induction fuel generalizing left with
  | zero => exact .halt _
  | succ fuel ih =>
    rw [addLoop, Eval.addLoop]
    refine means_bare Eval.guarded_skip fun _ => means_bare Eval.guarded_peek fun tok => ?_
    split
    · next htok =>
      refine means_bare (Eval.guarded_advance 1) fun _ => means_value h (fun _ => means_return _) fun right => ?_
      obtain ⟨type, a, s, hs⟩ := left
      obtain ⟨type', b, s', hs'⟩ := right
      cases type with
      | str =>
        cases type' with
        | str =>
          rcases htok with rfl | rfl
          · refine means_accepted rfl (means_readStr rfl (means_readStr rfl ?_))
            exact means_value (means_alloc pool _) means_return fun v => ih v
          · exact means_refused rfl
        | num =>
          rw [if_neg (by simp)]
          exact means_refused rfl
      | num =>
        rw [if_neg (by simp)]
        cases type' with
        | str => exact means_refused rfl
        | num => exact means_accepted rfl (means_readNum rfl (means_readNum rfl (ih _)))
    · exact means_return left

theorem means_parseAdd (h : Means primary primary') (fuel : Nat) :
    Means (parseAdd pool t len primary fuel) (Eval.parseAdd t len primary' fuel) :=
  means_value (means_parseMul h fuel) means_return fun left => means_addLoop (means_parseMul h fuel) fuel left

theorem means_parseCompare (h : Means primary primary') (fuel : Nat) :
    Means (parseCompare pool t len primary fuel) (Eval.parseCompare t len primary' fuel) := by
  refine means_value (means_parseAdd h fuel) means_return fun left => ?_
  refine means_bare Eval.guarded_skip fun _ => means_bare Eval.guarded_peek fun tok => ?_
  split
  · next htok =>
    have hstrings : onStrings tok = true := by
      rcases htok with rfl | rfl | rfl | rfl | rfl | rfl
      all_goals rfl
    refine means_bare (Eval.guarded_advance 1) fun _ =>
      means_value (means_parseAdd h fuel) (fun _ => means_return _) fun right => ?_
    obtain ⟨type, a, s, hs⟩ := left
    obtain ⟨type', b, s', hs'⟩ := right
    cases type with
    | str =>
      cases type' with
      | str => exact means_accepted hstrings (means_readStr rfl (means_readStr rfl (means_return _)))
      | num =>
        rw [if_neg (by simp)]
        exact means_refused rfl
    | num =>
      rw [if_neg (by simp)]
      cases type' with
      | str => exact means_refused rfl
      | num => exact means_accepted rfl (means_readNum rfl (means_readNum rfl (means_return _)))
  · exact means_return left

theorem means_logicLoop {tok : UInt8} (htok : tok = Tok.and ∨ tok = Tok.or) {op : Bool → Bool → Bool}
    {operand : UnionM BasValue} {operand' : EvalM Value} (h : Means operand operand') (fuel : Nat)
    (left : BasValue) :
    Means (logicLoop t len tok op operand fuel left) (Eval.logicLoop t len tok op operand' fuel left.value) := by
  induction fuel generalizing left with
  | zero => exact .halt _
  | succ fuel ih =>
    rw [logicLoop, Eval.logicLoop]
    refine means_bare Eval.guarded_skip fun _ => means_bare Eval.guarded_peek fun _ =>
      .ite ?_ (means_return left)
    refine means_bare (Eval.guarded_advance 1) fun _ => means_value h (fun _ => means_return _) fun right => ?_
    show Means _ (pure (op (Eval.truth left.value) (Eval.truth right.value)) >>= fun result : Bool =>
      Eval.logicLoop t len tok op operand' fuel (.num (if result then -1 else 0)))
    exact .bind evalLaw_composes (erases_logic htok op left right) fun result => ih _

theorem means_parseAnd (h : Means primary primary') (fuel : Nat) :
    Means (parseAnd pool t len primary fuel) (Eval.parseAnd t len primary' fuel) :=
  means_value (means_parseCompare h fuel) means_return fun left =>
    means_logicLoop (.inl rfl) (means_parseCompare h fuel) fuel left

theorem means_parseOr (h : Means primary primary') (fuel : Nat) :
    Means (parseOr pool t len primary fuel) (Eval.parseOr t len primary' fuel) :=
  means_value (means_parseAnd h fuel) means_return fun left =>
    means_logicLoop (.inr rfl) (means_parseAnd h fuel) fuel left

theorem accepts_function {func : UInt8} {types : List ValType} (h : params func = types)
    (types' : List ValType) : (User.function func).accepts types' = decide (types' = types) :=
  h ▸ rfl

/-- A function of a number. -/
theorem means_unary_num {func : UInt8} {arg : BasValue} {k : UnionM BasValue} {onNum : Int → EvalM Value}
    (h : params func = [.num]) (hk : arg.type = .num → Means k (onNum arg.num)) :
    Means (unary t len func .num arg k) (Eval.unary t len arg.value onNum fun _ => Eval.fail) := by
  refine means_bare (Eval.guarded_optional 41) fun _ => ?_
  obtain ⟨type, n, s, hs⟩ := arg
  cases type with
  | num => exact means_accepted (accepts_function h _) (hk rfl)
  | str => exact means_refused (accepts_function h _)

/-- A function of a string. -/
theorem means_unary_str {func : UInt8} {arg : BasValue} {k : UnionM BasValue}
    {onStr : List UInt8 → EvalM Value} (h : params func = [.str])
    (hk : arg.type = .str → Means k (onStr arg.str)) :
    Means (unary t len func .str arg k) (Eval.unary t len arg.value (fun _ => Eval.fail) onStr) := by
  refine means_bare (Eval.guarded_optional 41) fun _ => ?_
  obtain ⟨type, n, s, hs⟩ := arg
  cases type with
  | num => exact means_refused (accepts_function h _)
  | str => exact means_accepted (accepts_function h _) (hk rfl)

theorem means_parseFunction {or : UnionM BasValue} {or' : EvalM Value} (h : Means or or') (func : UInt8) :
    Means (parseFunction pool t len ram or func) (Eval.parseFunction t len ram or' func) := by
  unfold parseFunction Eval.parseFunction
  refine means_bare Eval.guarded_skip fun _ => means_bare Eval.guarded_peek fun _ => .ite means_fail ?_
  refine means_bare (Eval.guarded_advance 1) fun _ => means_value h (fun _ => means_return _) fun arg => ?_
  by_cases habs : func = Tok.abs
  · rw [if_pos habs, if_pos habs]
    exact means_unary_num (habs ▸ rfl) fun harg => means_readNum harg (means_return _)
  rw [if_neg habs, if_neg habs]
  by_cases hrnd : func = Tok.rnd
  · rw [if_pos hrnd, if_pos hrnd]
    refine means_unary_num (hrnd ▸ rfl) fun harg => means_readNum harg fun e => ?_
    -- the error is the one of the state that the random number is taken from
    exact ⟨rfl, rfl, rfl, .nil, fun _ _ => ⟨fun ⟨_, hu, _⟩ => absurd hu List.not_mem_nil, id⟩⟩
  rw [if_neg hrnd, if_neg hrnd]
  by_cases hint : func = Tok.int
  · rw [if_pos hint, if_pos hint]
    refine means_unary_num (hint ▸ rfl) fun harg => ?_
    rw [← value_of_num harg]
    exact means_return arg
  rw [if_neg hint, if_neg hint]
  by_cases hlen : func = Tok.len
  · rw [if_pos hlen, if_pos hlen]
    exact means_unary_str (hlen ▸ rfl) fun harg => means_readStr harg (means_return _)
  rw [if_neg hlen, if_neg hlen]
  by_cases hval : func = Tok.val
  · rw [if_pos hval, if_pos hval]
    exact means_unary_str (hval ▸ rfl) fun harg => means_readStr harg (means_return _)
  rw [if_neg hval, if_neg hval]
  by_cases hchr : func = Tok.chr
  · rw [if_pos hchr, if_pos hchr]
    exact means_unary_num (hchr ▸ rfl) fun harg => means_readNum harg (means_alloc pool _)
  rw [if_neg hchr, if_neg hchr]
  by_cases hstr : func = Tok.str
  · rw [if_pos hstr, if_pos hstr]
    exact means_unary_num (hstr ▸ rfl) fun harg => means_readNum harg (means_alloc pool _)
  rw [if_neg hstr, if_neg hstr]
  by_cases hpeek : func = Tok.peek
  · rw [if_pos hpeek, if_pos hpeek]
    exact means_unary_num (hpeek ▸ rfl) fun harg => means_readNum harg (means_return _)
  rw [if_neg hpeek, if_neg hpeek]
  by_cases hside : func = Tok.left ∨ func = Tok.right
  · rw [if_pos hside, if_pos hside]
    have hparams : params func = [.str, .num] := by
      rcases hside with rfl | rfl
      all_goals rfl
    refine means_bare (Eval.guarded_optional 44) fun _ => means_bind h fun arg2 =>
      means_bare (Eval.guarded_optional 41) fun _ => ?_
    obtain ⟨type, n, s, hs⟩ := arg
    obtain ⟨type2, n2, s2, hs2⟩ := arg2
    cases type with
    | num => exact means_refused (accepts_function hparams _)
    | str =>
      cases type2 with
      | str => exact means_refused (accepts_function hparams _)
      | num =>
        refine means_accepted (accepts_function hparams _) (means_readNum rfl (means_readStr rfl ?_))
        exact means_alloc pool _
  rw [if_neg hside, if_neg hside]
  by_cases hmid : func = Tok.mid
  · rw [if_pos hmid, if_pos hmid]
    have hparams : params func = [.str, .num, .num] := hmid ▸ rfl
    refine means_bare (Eval.guarded_optional 44) fun _ => means_bind h fun arg2 =>
      means_bare (Eval.guarded_optional 44) fun _ => means_bind h fun arg3 =>
      means_bare (Eval.guarded_optional 41) fun _ => ?_
    obtain ⟨type, n, s, hs⟩ := arg
    obtain ⟨type2, n2, s2, hs2⟩ := arg2
    obtain ⟨type3, n3, s3, hs3⟩ := arg3
    cases type with
    | num => exact means_refused (accepts_function hparams _)
    | str =>
      cases type2 with
      | str => exact means_refused (accepts_function hparams _)
      | num =>
        cases type3 with
        | str => exact means_refused (accepts_function hparams _)
        | num =>
          refine means_accepted (accepts_function hparams _)
            (means_readNum rfl (means_readNum rfl (means_readStr rfl ?_)))
          exact .ite (.halt _) (means_alloc pool _)
  rw [if_neg hmid, if_neg hmid]
  exact means_fail

end Levels

theorem means_variable (name : UInt8) :
    Means (variable_ pool t len vars name) (Eval.variable_ t len vars name) := by
  unfold variable_ Eval.variable_
  refine means_bare (Eval.guarded_advance 1) fun _ => means_bare Eval.guarded_peek fun _ => .ite ?_ ?_
  · refine means_bare (Eval.guarded_advance 1) fun _ => ?_
    cases varStr name with
    | some row => exact means_alloc pool _
    | none => exact means_fail
  · refine means_bare Eval.guarded_peek fun c => ?_
    have hvalue : Means (match varNum name (if isDigit c then (c.toNat : Int) - 48 else -1) with
        | some slot => pure (makeNum (vars.nums slot))
        | none => fail) (match varNum name (if isDigit c then (c.toNat : Int) - 48 else -1) with
        | some slot => pure (.num (vars.nums slot))
        | none => Eval.fail) := by
      split
      · exact means_return _
      · exact means_fail
    exact .ite (means_bare (Eval.guarded_advance 1) fun _ => hvalue) hvalue

theorem means_parsePrimary (fuel : Nat) :
    Means (parsePrimary pool t len vars ram fuel) (Eval.parsePrimary t len vars ram fuel) := by
  induction fuel with
  | zero => exact .halt _
  | succ fuel ih =>
    have hor : Means (parseOr pool t len (parsePrimary pool t len vars ram fuel) fuel)
        (Eval.parseOr t len (Eval.parsePrimary t len vars ram fuel) fuel) := means_parseOr ih fuel
    rw [parsePrimary, Eval.parsePrimary]
    refine means_bare Eval.guarded_skip fun _ => means_bare Eval.guarded_peek fun tok => .ite ?neg (.ite ?not
      (.ite ?group (.ite ?num (.ite ?lit (.ite ?func (.ite (means_variable tok) means_fail))))))
    case neg | not =>
      refine means_bare (Eval.guarded_advance 1) fun _ => means_bind ih fun v => ?_
      obtain ⟨type, n, s, hs⟩ := v
      cases type with
      | num => exact means_accepted rfl (means_readNum rfl (means_return _))
      | str => exact means_refused rfl
    case group =>
      exact means_bare (Eval.guarded_advance 1) fun _ => means_bind hor fun v =>
        means_bare (Eval.guarded_optional 41) fun _ => means_return v
    case num =>
      exact means_bare (Eval.guarded_advance 1) fun _ => means_bare .get fun _ =>
        means_bare (Eval.guarded_advance 4) fun _ => means_return _
    case lit =>
      refine means_bare (Eval.guarded_advance 1) fun _ => means_bare .get fun _ =>
        means_bare (Eval.guarded_advance 1) fun _ => means_bind (means_alloc pool _) fun v => ?_
      obtain ⟨type, n, s, hs⟩ := v
      cases type with
      | num => exact means_return _
      | str => exact means_bare (Eval.guarded_advance _) fun _ => means_return _
    case func => exact means_bare (Eval.guarded_advance 1) fun _ => means_parseFunction hor tok

/-- An evaluation on unions is the evaluation on values. -/
theorem means_exprRun (fuel : Nat) :
    Means (exprRun pool t len vars ram fuel) (Eval.exprRun t len vars ram fuel) :=
  means_parseOr (means_parsePrimary fuel) fuel

end Unions

end RainbowOs.Basic
