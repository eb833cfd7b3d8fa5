import RainbowOs.Cc.Lexer

/-!
# The symbol tables of the C compiler

`kernel/cc/sym.c`: a table of globals that grows, and a table of the locals
of the function at hand. A pointer to a symbol is the table it is in and
its index there. The kernel maps page 0, so a null pointer points to a
symbol too: the bytes at address 0.
-/

namespace RainbowOs.Cc

abbrev symMaxGlobal : Nat := 128
abbrev symMaxLocal : Nat := 32
abbrev symNameMax : Nat := 23

/-- Symbol kinds. -/
inductive SymKind where
  | globalVar
  | localVar
  | function
  | param
  deriving DecidableEq, Repr

/-- Data types. -/
inductive DataType where
  | int
  | char
  | void
  | ptrInt
  | ptrChar
  deriving DecidableEq, Repr

/-- `dt_size` -/
def DataType.size (dt : DataType) : Int := if dt = .char then 1 else 4

/-- `struct symbol`. `offset` is a stack offset, the address of a function's code or an
offset into the global data; `size` is the number of elements of an array, or 0. -/
structure Symbol where
  name : List UInt8
  kind : SymKind
  dataType : DataType
  offset : Int
  size : Int
  defined : Bool
  deriving DecidableEq, Repr

/-- A pointer to a symbol. -/
inductive SymRef where
  | null
  | glob (i : Nat)
  | loc (i : Nat)
  deriving DecidableEq, Repr

/-- The statics of `sym.c`, and the symbol at address 0. -/
structure Symbols where
  globals : List Symbol
  locals : List Symbol
  localsOffset : Int
  null : Symbol
  deriving DecidableEq, Repr

namespace Symbols

variable (t : Symbols)

/-- `sym_init` -/
def init : Symbols := { t with globals := [], locals := [], localsOffset := 0 }

/-- The index of the first symbol with the name. -/
def indexOf (name : List UInt8) : List Symbol → Option Nat
  | [] => none
  | s :: l => if s.name = name then some 0 else (indexOf name l).map (· + 1)

/-- `sym_add_global` -/
def addGlobal (name : List UInt8) (kind : SymKind) (dt : DataType) : SymRef × Symbols :=
  if t.globals.length ≥ symMaxGlobal then (.null, t)
  else (.glob t.globals.length, { t with
    globals := t.globals ++ [⟨name.take symNameMax, kind, dt, 0, 0, false⟩] })

/-- `sym_find_global` -/
def findGlobal (name : List UInt8) : SymRef :=
  match indexOf name t.globals with
  | some i => .glob i
  | none => .null

/-- `sym_begin_locals` -/
def beginLocals : Symbols := { t with locals := [], localsOffset := 0 }

/-- The offsets of the parameters, counted from `idx` on. -/
def numberParams (idx : Nat) : List Symbol → List Symbol
  | [] => []
  | s :: l =>
    if s.kind = .param then { s with offset := 8 + 4 * idx } :: numberParams (idx + 1) l
    else s :: numberParams idx l

/-- `sym_add_local` -/
def addLocal (name : List UInt8) (kind : SymKind) (dt : DataType) : SymRef × Symbols :=
  if t.locals.length ≥ symMaxLocal then (.null, t)
  else if kind = .param then
    (.loc t.locals.length, { t with
      locals := numberParams 0
        (t.locals ++ [⟨name.take symNameMax, kind, dt, 8 + 4 * t.locals.length, 0, true⟩]) })
  else
    (.loc t.locals.length, { t with
      localsOffset := t.localsOffset + 4
      locals := t.locals ++
        [⟨name.take symNameMax, kind, dt, -(t.localsOffset + 4), 0, true⟩] })

/-- `sym_find_local` -/
def findLocal (name : List UInt8) : SymRef :=
  match indexOf name t.locals with
  | some i => .loc i
  | none => .null

/-- `sym_find` -/
def find (name : List UInt8) : SymRef :=
  if t.findLocal name = .null then t.findGlobal name else t.findLocal name

/-- The symbol a pointer points to. -/
def deref : SymRef → Symbol
  | .null => t.null
  | .glob i => t.globals.getD i t.null
  | .loc i => t.locals.getD i t.null

/-- A store through a pointer to a symbol. -/
def modify (f : Symbol → Symbol) : SymRef → Symbols
  | .null => { t with null := f t.null }
  | .glob i => { t with globals := t.globals.modify i f }
  | .loc i => { t with locals := t.locals.modify i f }

end Symbols

end RainbowOs.Cc
