import RainbowOs.Basic.Decimal

/-!
# The string pool

`apps/basic/expr.c` puts every string that an expression makes into a pool:
`string_pool_alloc` takes a block, of the length it is asked for and one
more, and the operation copies into it. Here the pool is memory, and each
write is logged. The length of a block is a `uint8_t`, and what is copied is
counted in 32 bits; `string_op_iff` says when the two agree and the string
is what it should be.
-/

namespace RainbowOs.Basic

open RainbowOs.Lib
open Eval (clamp)
open Prog (get modify tell get_bind_run modify_bind_run tell_bind_run bind_run_quiet)

/-! ## Operations -/

/-- Memory, with `spool_pos`. -/
structure Pool where
  mem : Bytes
  pos : Nat

/-- The string of a `struct bas_value`. -/
structure Str where
  ptr : Nat
  len : Nat
  short : len < 256

/-- `make_str` -/
def makeStr (ptr len : Nat) : Str := ⟨ptr, len % 256, Nat.mod_lt len (by decide)⟩

/-- The characters of a string. -/
def Pool.text (s : Pool) (a : Str) : List UInt8 := s.mem.slice a.ptr a.len

/-- A write of `n` bytes. -/
structure Write where
  addr : Nat
  n : Nat

/-- An operation on the pool, with its writes. -/
abbrev PoolM := Prog Pool Empty Write

/-- `memcpy`, byte by byte from the first one on. -/
def copyBytes (m : Bytes) (dst src : Nat) : Nat → Bytes
  | 0 => m
  | n + 1 => copyBytes (m.store dst [m src]) (dst + 1) (src + 1) n

def memcpy (dst src n : Nat) : PoolM Unit := do
  tell ⟨dst, n⟩
  modify fun s => { s with mem := copyBytes s.mem dst src n }

/-- Bytes that are not in the pool are put into it. -/
def putBytes (dst : Nat) (bs : List UInt8) : PoolM Unit := do
  tell ⟨dst, bs.length⟩
  modify fun s => { s with mem := s.mem.store dst bs }

section Operations

variable (spool : Nat)

/-- `string_pool_alloc`, of a `uint8_t` -/
def stringPoolAlloc (len : Nat) : PoolM (Option Nat) := do
  let s ← get
  if s.pos + len + 1 > stringPoolSize then return none
  else
    modify fun s => { s with pos := s.pos + len + 1 }
    return some (spool + s.pos)

/-- What `LEFT$`, `RIGHT$` and `MID$` end with: `n` characters from `off` on. -/
def substring (a : Str) (off n : Nat) : PoolM (Option Str) := do
  match ← stringPoolAlloc spool (n % 256) with
  | none => return none
  | some s => do
    memcpy s (a.ptr + off) n
    putBytes (s + n) [0]
    return some (makeStr s n)

/-- `TOK_LEFT` -/
def leftStr (a : Str) (n : Int) : PoolM (Option Str) := substring spool a 0 (clamp n a.len)

/-- `TOK_RIGHT` -/
def rightStr (a : Str) (n : Int) : PoolM (Option Str) :=
  substring spool a (a.len - clamp n a.len) (clamp n a.len)

/-- The first character of `MID$`, counted from 0. -/
def midStart (a : Str) (p : Int) : Nat := clamp (i32 (p - 1)) a.len

/-- The number of characters of `MID$`. -/
def midLen (a : Str) (p n : Int) : Nat :=
  let n := if n < 0 then 0 else n
  (if i32 (midStart a p + n) > a.len then (a.len : Int) - midStart a p else n).toNat

/-- `TOK_MID` -/
def midStr (a : Str) (p n : Int) : PoolM (Option Str) :=
  substring spool a (midStart a p) (midLen a p n)

/-- `TOK_CHR` -/
def chrStr (n : Int) : PoolM (Option Str) := do
  match ← stringPoolAlloc spool 1 with
  | none => return none
  | some s => do
    putBytes s [UInt8.ofNat (n % 256).toNat]
    putBytes (s + 1) [0]
    return some (makeStr s 1)

/-- `TOK_STR` -/
def strStr (n : Int) : PoolM (Option Str) := do
  let buf := i32ToStr n
  let l := buf.length % 256
  match ← stringPoolAlloc spool l with
  | none => return none
  | some s => do
    putBytes s ((buf ++ [0]).take (l + 1))
    return some (makeStr s l)

/-- The concatenation of `parse_add`. -/
def concatStr (a b : Str) : PoolM (Option Str) := do
  let newlen := (a.len + b.len) % 256
  match ← stringPoolAlloc spool newlen with
  | none => return none
  | some s => do
    memcpy s a.ptr a.len
    memcpy (s + a.len) b.ptr b.len
    putBytes (s + newlen) [0]
    return some (makeStr s newlen)

end Operations

/-- An operation that makes a string. -/
inductive StrOp where
  | concat (a b : Str)
  | left (a : Str) (n : Int)
  | right (a : Str) (n : Int)
  | mid (a : Str) (p n : Int)
  | chr (n : Int)
  | str (n : Int)

namespace StrOp

/-- The operation: a string, or an error of the expression. -/
def run (spool : Nat) : StrOp → PoolM (Option Str)
  | concat a b => concatStr spool a b
  | left a n => leftStr spool a n
  | right a n => rightStr spool a n
  | mid a p n => midStr spool a p n
  | chr n => chrStr spool n
  | str n => strStr spool n

/-- The length that `string_pool_alloc` is asked for. -/
def blockLen : StrOp → Nat
  | concat a b => (a.len + b.len) % 256
  | left a n => clamp n a.len % 256
  | right a n => clamp n a.len % 256
  | mid a p n => midLen a p n % 256
  | chr _ => 1
  | str n => (i32ToStr n).length % 256

/-- The string the operation should make. `MID$` has the characters from `p` to `p + n - 1`, the first
character being 1. -/
def result (s : Pool) : StrOp → List UInt8
  | concat a b => s.text a ++ s.text b
  | left a n => (s.text a).take n.toNat
  | right a n => (s.text a).drop (a.len - n.toNat)
  | mid a p n => ((s.text a).take (p + n - 1).toNat).drop (p - 1).toNat
  | chr n => [UInt8.ofNat (n % 256).toNat]
  | str n => numeral n

/-- The strings of an operation. -/
def operands : StrOp → List Str
  | concat a b => [a, b]
  | left a _ => [a]
  | right a _ => [a]
  | mid a _ _ => [a]
  | chr _ => []
  | str _ => []

/-- The numbers of an operation. -/
def numbers : StrOp → List Int
  | concat _ _ => []
  | left _ n => [n]
  | right _ n => [n]
  | mid _ p n => [p, n]
  | chr n => [n]
  | str n => [n]

/-- The operation is one of the code: its numbers are `int32_t`, and its strings are not in the part of
the pool that is free. -/
structure Live (spool : Nat) (s : Pool) (op : StrOp) : Prop where
  numbers : ∀ n ∈ op.numbers, -2147483648 ≤ n ∧ n < 2147483648
  apart : ∀ a ∈ op.operands, a.ptr + a.len ≤ spool + s.pos ∨ spool + stringPoolSize ≤ a.ptr

/-- The operation reports an error and changes nothing, or makes the right string, writes only into its
block, and leaves the string off what is free for the next operations. -/
structure Correct (spool : Nat) (s : Pool) (op : StrOp) : Prop where
  refused : ∀ s' l, op.run spool s = ⟨.done none, s', l⟩ → s' = s ∧ l = []
  made : ∀ r s' l, op.run spool s = ⟨.done (some r), s', l⟩ → s'.text r = op.result s ∧
    ∀ w ∈ l, ∀ k, w.addr ≤ k → k < w.addr + w.n → spool + s.pos ≤ k ∧ k < spool + s'.pos
  live : ∀ r s' l, op.run spool s = ⟨.done (some r), s', l⟩ → r.ptr + r.len ≤ spool + s'.pos

end StrOp

/-! ## Runs -/

/-- A copy away from what is copied puts it there. -/
theorem copyBytes_eq (m : Bytes) {dst src n : Nat} (h : src + n ≤ dst ∨ dst + n ≤ src) :
    copyBytes m dst src n = m.store dst (m.slice src n) := by
  induction n generalizing m dst src with
  | zero => exact (Bytes.store_nil m dst).symm
  | succ n ih =>
    have hrest : (m.store dst [m src]).slice (src + 1) n = m.slice (src + 1) n :=
      Bytes.slice_store_of_disjoint (by rw [List.length_singleton]; omega)
    rw [copyBytes, ih _ (by omega), hrest, Bytes.slice_succ]
    exact (Bytes.store_append m dst [m src] _).symm

section Runs

variable {spool : Nat} {s : Pool}

theorem alloc_room {len : Nat} (h : s.pos + len + 1 ≤ stringPoolSize) :
    stringPoolAlloc spool len s = ⟨.done (some (spool + s.pos)), { s with pos := s.pos + len + 1 }, []⟩ := by
  rw [stringPoolAlloc, get_bind_run, if_neg (Nat.not_lt.mpr h)]
  rfl

theorem alloc_full {len : Nat} (h : stringPoolSize < s.pos + len + 1) :
    stringPoolAlloc spool len s = ⟨.done none, s, []⟩ := by
  rw [stringPoolAlloc, get_bind_run, if_pos h]
  rfl

theorem substring_full (a : Str) (off : Nat) {n : Nat} (h : stringPoolSize < s.pos + n % 256 + 1) :
    substring spool a off n s = ⟨.done none, s, []⟩ := by
  rw [substring, bind_run_quiet (alloc_full h)]
  rfl

/-- Where there is no room there is an error, and nothing is written. -/
theorem StrOp.run_full (op : StrOp) (h : stringPoolSize < s.pos + op.blockLen + 1) :
    op.run spool s = ⟨.done none, s, []⟩ := by
  cases op with
  | concat a b =>
    have halloc : stringPoolAlloc spool ((a.len + b.len) % 256) s = ⟨.done none, s, []⟩ := alloc_full h
    show concatStr spool a b s = _
    rw [concatStr, bind_run_quiet halloc]
    rfl
  | left a n => exact substring_full a 0 h
  | right a n => exact substring_full a _ h
  | mid a p n => exact substring_full a _ h
  | chr n =>
    have halloc : stringPoolAlloc spool 1 s = ⟨.done none, s, []⟩ := alloc_full h
    show chrStr spool n s = _
    rw [chrStr, bind_run_quiet halloc]
    rfl
  | str n =>
    have halloc : stringPoolAlloc spool ((i32ToStr n).length % 256) s = ⟨.done none, s, []⟩ := alloc_full h
    show strStr spool n s = _
    rw [strStr, bind_run_quiet halloc]
    rfl

/-- The block at the end of what is taken of the pool. -/
def Pool.block (spool : Nat) (s : Pool) : Nat := spool + s.pos

/-- The string in a block ends before what is free behind it. -/
theorem block_ends {n k : Nat} (h : n % 256 ≤ k) : (makeStr (s.block spool) n).ptr +
    (makeStr (s.block spool) n).len ≤ spool + (s.pos + k + 1) := by
  show spool + s.pos + n % 256 ≤ spool + (s.pos + k + 1)
  omega

theorem substring_room (a : Str) (off n : Nat) (h : s.pos + n % 256 + 1 ≤ stringPoolSize) :
    substring spool a off n s = ⟨.done (some (makeStr (s.block spool) n)),
      ⟨(copyBytes s.mem (s.block spool) (a.ptr + off) n).store (s.block spool + n) [0], s.pos + n % 256 + 1⟩,
      [⟨s.block spool, n⟩, ⟨s.block spool + n, 1⟩]⟩ := by
  rw [substring, bind_run_quiet (alloc_room h)]
  rfl

theorem chrStr_room (n : Int) (h : s.pos + 1 + 1 ≤ stringPoolSize) :
    chrStr spool n s = ⟨.done (some (makeStr (s.block spool) 1)),
      ⟨(s.mem.store (s.block spool) [UInt8.ofNat (n % 256).toNat]).store (s.block spool + 1) [0],
        s.pos + 1 + 1⟩, [⟨s.block spool, 1⟩, ⟨s.block spool + 1, 1⟩]⟩ := by
  rw [chrStr, bind_run_quiet (alloc_room h)]
  rfl

theorem concatStr_room (a b : Str) (h : s.pos + (a.len + b.len) % 256 + 1 ≤ stringPoolSize) :
    concatStr spool a b s = ⟨.done (some (makeStr (s.block spool) ((a.len + b.len) % 256))),
      ⟨(copyBytes (copyBytes s.mem (s.block spool) a.ptr a.len) (s.block spool + a.len) b.ptr b.len).store
          (s.block spool + (a.len + b.len) % 256) [0], s.pos + (a.len + b.len) % 256 + 1⟩,
      [⟨s.block spool, a.len⟩, ⟨s.block spool + a.len, b.len⟩,
        ⟨s.block spool + (a.len + b.len) % 256, 1⟩]⟩ := by
  rw [concatStr, bind_run_quiet (alloc_room h)]
  rfl

theorem strStr_room (n : Int) (h : s.pos + (i32ToStr n).length % 256 + 1 ≤ stringPoolSize) :
    strStr spool n s = ⟨.done (some (makeStr (s.block spool) ((i32ToStr n).length % 256))),
      ⟨s.mem.store (s.block spool) ((i32ToStr n ++ [0]).take ((i32ToStr n).length % 256 + 1)),
        s.pos + (i32ToStr n).length % 256 + 1⟩,
      [⟨s.block spool, ((i32ToStr n ++ [0]).take ((i32ToStr n).length % 256 + 1)).length⟩]⟩ := by
  rw [strStr, bind_run_quiet (alloc_room h)]
  rfl

end Runs

/-! ## Substrings -/

namespace StrOp

/-- `MID$` counts no further than an `int32_t`, and begins in the string or has no character, or all
of them. -/
def MidFits (a : Str) (p n : Int) : Prop :=
  (midStart a p : Int) + max n 0 ≤ 2147483647 ∧
    (1 ≤ p ∨ p = -2147483648 ∨ n ≤ 0 ∨ (a.len : Int) ≤ p + n - 1 ∨ a.len = 0)

instance (a : Str) (p n : Int) : Decidable (MidFits a p n) := inferInstanceAs (Decidable (_ ∧ _))

/-- What is asked for is an operation whose result fits. -/
def Fits : StrOp → Prop
  | concat a b => a.len + b.len ≤ 255
  | left _ _ => True
  | right _ _ => True
  | mid a p n => MidFits a p n
  | chr _ => True
  | str n => n ≠ -2147483648

variable {spool : Nat} {s s' : Pool} {op : StrOp} {r : Str} {l : List Write}

/-- Of an operation that makes a string there is one run to look at. -/
theorem correct_iff (hrun : op.run spool s = ⟨.done (some r), s', l⟩) (hends : r.ptr + r.len ≤ spool + s'.pos) :
    op.Correct spool s ↔ s'.text r = op.result s ∧
      ∀ w ∈ l, ∀ k, w.addr ≤ k → k < w.addr + w.n → spool + s.pos ≤ k ∧ k < spool + s'.pos := by
  constructor
  · exact fun h => h.made r s' l hrun
  · intro h
    refine ⟨fun t l' hrun' => ?_, fun r' t l' hrun' => ?_, fun r' t l' hrun' => ?_⟩
    all_goals
      rw [hrun] at hrun'
      cases hrun'
    · exact h
    · exact hends

theorem correct_of_full (h : stringPoolSize < s.pos + op.blockLen + 1) : op.Correct spool s := by
  refine ⟨fun s' l hrun => ?_, fun r s' l hrun => ?_, fun r s' l hrun => ?_⟩
  all_goals
    rw [op.run_full h] at hrun
    cases hrun
  exact ⟨rfl, rfl⟩

end StrOp

section Substrings

variable {spool : Nat} {s : Pool} {a : Str} {off n : Nat}

/-- The characters of a string are copied. -/
theorem substring_text (hapart : a.ptr + a.len ≤ spool + s.pos ∨ spool + stringPoolSize ≤ a.ptr)
    (hn : off + n ≤ a.len) (hroom : s.pos + n % 256 + 1 ≤ stringPoolSize) :
    Pool.text ⟨(copyBytes s.mem (s.block spool) (a.ptr + off) n).store (s.block spool + n) [0],
      s.pos + n % 256 + 1⟩ (makeStr (s.block spool) n) = ((s.text a).drop off).take n := by
  have hshort := a.short
  have hlen : n % 256 = n := Nat.mod_eq_of_lt (by omega)
  rw [hlen] at hroom
  have haway : a.ptr + off + n ≤ s.block spool ∨ s.block spool + n ≤ a.ptr + off := by
    rw [Pool.block]
    omega
  show Bytes.slice _ (s.block spool) (n % 256) = _
  rw [hlen, Bytes.slice_store_of_disjoint (.inl (Nat.le_refl _)), copyBytes_eq s.mem haway]
  have hself := Bytes.slice_store_self s.mem (s.block spool) (s.mem.slice (a.ptr + off) n)
  rw [Bytes.length_slice] at hself
  rw [hself, Pool.text, Bytes.drop_slice _ _ (by omega), Bytes.take_slice _ _ (by omega)]

/-- What is written is the block. -/
theorem substring_writes (hn : n < 256) : ∀ w ∈ [(⟨s.block spool, n⟩ : Write), ⟨s.block spool + n, 1⟩],
    ∀ k, w.addr ≤ k → k < w.addr + w.n → spool + s.pos ≤ k ∧ k < spool + (s.pos + n % 256 + 1) := by
  have hlen : n % 256 = n := Nat.mod_eq_of_lt hn
  intro w hw k hlow hhigh
  rw [Pool.block] at hw
  rw [hlen]
  rcases List.mem_cons.mp hw with rfl | hw
  · simp only at hlow hhigh
    omega
  · obtain rfl := List.mem_singleton.mp hw
    simp only at hlow hhigh
    omega

/-- A substring is right just where the characters are. -/
theorem substring_correct {op : StrOp} (hop : op.run spool = substring spool a off n)
    (hapart : a.ptr + a.len ≤ spool + s.pos ∨ spool + stringPoolSize ≤ a.ptr) (hn : off + n ≤ a.len)
    (hroom : s.pos + n % 256 + 1 ≤ stringPoolSize) :
    op.Correct spool s ↔ ((s.text a).drop off).take n = op.result s := by
  have hrun := @substring_room spool s a off n hroom
  rw [← hop] at hrun
  have hshort := a.short
  rw [StrOp.correct_iff hrun (block_ends (Nat.le_refl _)), substring_text hapart hn hroom]
  exact and_iff_left (substring_writes (by omega))

/-- More characters than the length of a block has room for are written outside of it. -/
theorem substring_overrun {op : StrOp} (hop : op.run spool = substring spool a off n) (hn : 256 < n)
    (hroom : s.pos + n % 256 + 1 ≤ stringPoolSize) : ¬op.Correct spool s := by
  have hrun := @substring_room spool s a off n hroom
  rw [← hop] at hrun
  rw [StrOp.correct_iff hrun (block_ends (Nat.le_refl _))]
  rintro ⟨-, hwrites⟩
  have hmod := Nat.mod_lt n (y := 256) (by decide)
  have hlast := (hwrites _ List.mem_cons_self (s.block spool + 256) (Nat.le_add_right _ _)
    (Nat.add_lt_add_left hn _)).2
  rw [Pool.block] at hlast
  simp only at hlast
  omega

end Substrings

/-! ## `MID$` -/

section Mid

variable {a : Str} {p n : Int}

theorem clamp_eq (n : Int) (max : Nat) : clamp n max = min n.toNat max := by
  rw [clamp]
  split
  · omega
  · omega

theorem midStart_eq (hp : -2147483648 ≤ p ∧ p < 2147483648) :
    midStart a p = if p = -2147483648 then a.len else min (p - 1).toNat a.len := by
  have hshort := a.short
  rw [midStart, clamp_eq]
  split
  · next hleast =>
    have hwrap : i32 (p - 1) = 2147483647 := by
      rw [hleast]
      rfl
    rw [hwrap]
    omega
  · rw [i32_eq (by omega)]

theorem midStart_le : midStart a p ≤ a.len := by
  rw [midStart, clamp_eq]
  exact Nat.min_le_right _ _

/-- Where the sum is an `int32_t`, the characters are in the string. -/
theorem midLen_eq (h : (midStart a p : Int) + max n 0 ≤ 2147483647) :
    midLen a p n = min n.toNat (a.len - midStart a p) := by
  have hstart := @midStart_le a p
  have hnonneg : (if n < 0 then 0 else n) = max n 0 := by
    split
    · omega
    · omega
  have hsum : i32 (midStart a p + max n 0) = midStart a p + max n 0 := i32_eq (by omega)
  rw [midLen]
  simp only [hnonneg, hsum]
  split
  · omega
  · omega

/-- Where it is not, all are asked for. -/
theorem midLen_of_overflow (hn : n < 2147483648) (h : 2147483647 < (midStart a p : Int) + max n 0) :
    256 < midLen a p n := by
  have hstart := @midStart_le a p
  have hshort := a.short
  have hnonneg : (if n < 0 then 0 else n) = max n 0 := by
    split
    · omega
    · omega
  have hsum : i32 (midStart a p + max n 0) < 0 := by
    rw [i32]
    omega
  rw [midLen]
  simp only [hnonneg]
  rw [if_neg (by omega)]
  omega

/-- The characters of `MID$`. -/
theorem mid_text_iff {s : List UInt8} (hs : s.length = a.len) (hp : -2147483648 ≤ p ∧ p < 2147483648)
    (hn : n < 2147483648) (h : (midStart a p : Int) + max n 0 ≤ 2147483647) :
    (s.drop (midStart a p)).take (midLen a p n) = (s.take (p + n - 1).toNat).drop (p - 1).toNat ↔
      1 ≤ p ∨ p = -2147483648 ∨ n ≤ 0 ∨ (a.len : Int) ≤ p + n - 1 ∨ a.len = 0 := by
  rw [midLen_eq h, midStart_eq hp, List.drop_take]
  by_cases hleast : p = -2147483648
  · -- before all characters, and counted from behind them
    have hnone : (p + n - 1).toNat = 0 := by omega
    refine iff_of_true ?_ (.inr (.inl hleast))
    rw [if_pos hleast, hnone, Nat.zero_sub, List.take_zero, ← hs, List.drop_length, List.take_nil]
  rw [if_neg hleast]
  by_cases hpos : 1 ≤ p
  · have hcount : (p + n - 1).toNat - (p - 1).toNat = n.toNat := by omega
    refine iff_of_true ?_ (.inl hpos)
    rw [hcount]
    by_cases hin : (p - 1).toNat ≤ a.len
    · rw [Nat.min_eq_left hin, ← hs, ← List.length_drop, ← List.take_eq_take_min]
    · have hout : a.len ≤ (p - 1).toNat := Nat.le_of_not_le hin
      rw [Nat.min_eq_right hout, ← hs, List.drop_length, List.drop_eq_nil_of_le (hs ▸ hout), List.take_nil,
        List.take_nil]
  · -- the first character is clamped, and the number of them is not
    have hzero : (p - 1).toNat = 0 := by omega
    simp only [hzero, Nat.zero_min, List.drop_zero, Nat.sub_zero]
    constructor
    · intro heq
      have hlen := congrArg List.length heq
      rw [List.length_take, List.length_take, hs] at hlen
      omega
    · intro hcond
      rw [List.take_eq_take_iff, hs]
      omega

end Mid

/-! ## All operations -/

section Operations

variable {spool : Nat} {s : Pool}

theorem Pool.length_text (s : Pool) (a : Str) : (s.text a).length = a.len := Bytes.length_slice _ _ _

theorem left_correct {a : Str} {n : Int} (hlive : (StrOp.left a n).Live spool s)
    (hroom : s.pos + (StrOp.left a n).blockLen + 1 ≤ stringPoolSize) : (StrOp.left a n).Correct spool s := by
  have hle : 0 + clamp n a.len ≤ a.len := by
    rw [clamp_eq]
    omega
  refine (substring_correct rfl (hlive.apart a List.mem_cons_self) hle hroom).mpr ?_
  rw [List.drop_zero, clamp_eq, StrOp.result, ← s.length_text a, ← List.take_eq_take_min]

theorem right_correct {a : Str} {n : Int} (hlive : (StrOp.right a n).Live spool s)
    (hroom : s.pos + (StrOp.right a n).blockLen + 1 ≤ stringPoolSize) :
    (StrOp.right a n).Correct spool s := by
  have hle : a.len - clamp n a.len + clamp n a.len ≤ a.len := by
    rw [clamp_eq]
    omega
  refine (substring_correct rfl (hlive.apart a List.mem_cons_self) hle hroom).mpr ?_
  have hstart : a.len - clamp n a.len = a.len - n.toNat := by
    rw [clamp_eq]
    omega
  rw [StrOp.result, hstart, List.take_of_length_le]
  rw [List.length_drop, s.length_text, clamp_eq]
  omega

theorem mid_correct_iff {a : Str} {p n : Int} (hlive : (StrOp.mid a p n).Live spool s)
    (hroom : s.pos + (StrOp.mid a p n).blockLen + 1 ≤ stringPoolSize) :
    (StrOp.mid a p n).Correct spool s ↔ StrOp.MidFits a p n := by
  have hp := hlive.numbers p List.mem_cons_self
  have hn := hlive.numbers n (List.mem_cons_of_mem _ List.mem_cons_self)
  rw [StrOp.MidFits]
  by_cases hsum : (midStart a p : Int) + max n 0 ≤ 2147483647
  · have hle : midStart a p + midLen a p n ≤ a.len := by
      have hstart := @midStart_le a p
      rw [midLen_eq hsum]
      omega
    rw [substring_correct rfl (hlive.apart a List.mem_cons_self) hle hroom,
      and_iff_right hsum]
    exact mid_text_iff (s.length_text a) hp hn.2 hsum
  · refine iff_of_false ?_ fun h => hsum h.1
    exact substring_overrun rfl (midLen_of_overflow hn.2 (Int.not_le.mp hsum)) hroom

theorem chr_text (n : Int) :
    Pool.text ⟨(s.mem.store (s.block spool) [UInt8.ofNat (n % 256).toNat]).store (s.block spool + 1) [0],
      s.pos + 1 + 1⟩ (makeStr (s.block spool) 1) = [UInt8.ofNat (n % 256).toNat] := by
  show Bytes.slice _ (s.block spool) 1 = _
  rw [Bytes.slice_store_of_disjoint (.inl (Nat.le_refl _))]
  exact Bytes.slice_store_self s.mem (s.block spool) [_]

theorem chr_correct {n : Int} (hroom : s.pos + (StrOp.chr n).blockLen + 1 ≤ stringPoolSize) :
    (StrOp.chr n).Correct spool s := by
  have hrun : (StrOp.chr n).run spool s = _ := chrStr_room n hroom
  refine (StrOp.correct_iff hrun (block_ends (Nat.le_refl 1))).mpr ⟨chr_text n, fun w hw k hlow hhigh => ?_⟩
  show spool + s.pos ≤ k ∧ k < spool + (s.pos + 1 + 1)
  rw [Pool.block] at hw
  rcases List.mem_cons.mp hw with rfl | hw
  · simp only at hlow hhigh
    omega
  · obtain rfl := List.mem_singleton.mp hw
    simp only at hlow hhigh
    omega

/-- The most negative number is written as a sign. -/
theorem least_numeral : i32ToStr (-2147483648) ≠ numeral (-2147483648) := by
  have hsign : i32ToStr (-2147483648) = [45] := by decide
  have hnumeral : numeral (-2147483648) =
      45 :: (Nat.digits 10 2147483648).reverse.map fun d => UInt8.ofNat (48 + d) := rfl
  rw [hsign, hnumeral]
  intro heq
  have hnil := (List.cons.inj heq).2.symm
  rw [List.map_eq_nil_iff, List.reverse_eq_nil_iff, Nat.digits_eq_nil_iff_eq_zero] at hnil
  cases hnil

/-- `STR$` puts the digits and the zero into the block. -/
theorem str_run {n : Int} (hn : -2147483648 ≤ n ∧ n < 2147483648)
    (hroom : s.pos + (StrOp.str n).blockLen + 1 ≤ stringPoolSize) : (StrOp.str n).run spool s =
      ⟨.done (some (makeStr (s.block spool) (i32ToStr n).length)),
        ⟨s.mem.store (s.block spool) (i32ToStr n ++ [0]), s.pos + (i32ToStr n).length + 1⟩,
        [⟨s.block spool, (i32ToStr n ++ [0]).length⟩]⟩ := by
  have hlen := length_i32ToStr hn
  have hmod : (i32ToStr n).length % 256 = (i32ToStr n).length := Nat.mod_eq_of_lt (by omega)
  have hall : (i32ToStr n ++ [0]).take ((i32ToStr n).length + 1) = i32ToStr n ++ [0] := by
    rw [List.take_of_length_le]
    rw [List.length_append, List.length_singleton]
  have hrun := @strStr_room spool s n hroom
  rw [hmod, hall] at hrun
  exact hrun

theorem str_text {n : Int} (hn : -2147483648 ≤ n ∧ n < 2147483648) :
    Pool.text ⟨s.mem.store (s.block spool) (i32ToStr n ++ [0]), s.pos + (i32ToStr n).length + 1⟩
      (makeStr (s.block spool) (i32ToStr n).length) = i32ToStr n := by
  have hlen := length_i32ToStr hn
  show Bytes.slice _ (s.block spool) ((i32ToStr n).length % 256) = _
  rw [Nat.mod_eq_of_lt (by omega), Bytes.store_append,
    Bytes.slice_store_of_disjoint (.inl (Nat.le_refl _))]
  exact Bytes.slice_store_self s.mem (s.block spool) _

theorem str_correct_iff {n : Int} (hlive : (StrOp.str n).Live spool s)
    (hroom : s.pos + (StrOp.str n).blockLen + 1 ≤ stringPoolSize) :
    (StrOp.str n).Correct spool s ↔ n ≠ -2147483648 := by
  have hn := hlive.numbers n List.mem_cons_self
  rw [StrOp.correct_iff (str_run hn hroom) (block_ends (Nat.mod_le _ _)), str_text hn, StrOp.result]
  constructor
  · rintro ⟨heq, -⟩ rfl
    exact least_numeral heq
  · intro hne
    refine ⟨i32ToStr_eq_numeral ⟨lt_of_le_of_ne hn.1 hne.symm, hn.2⟩, fun w hw k hlow hhigh => ?_⟩
    obtain rfl := List.mem_singleton.mp hw
    show spool + s.pos ≤ k ∧ k < spool + (s.pos + (i32ToStr n).length + 1)
    rw [Pool.block] at hlow hhigh
    simp only [List.length_append, List.length_singleton] at hlow hhigh
    omega

/-- The two strings are copied one after the other. -/
theorem concat_text {a b : Str} (hlive : (StrOp.concat a b).Live spool s) (hfits : a.len + b.len ≤ 255)
    (hroom : s.pos + (StrOp.concat a b).blockLen + 1 ≤ stringPoolSize) :
    Pool.text ⟨(copyBytes (copyBytes s.mem (s.block spool) a.ptr a.len) (s.block spool + a.len) b.ptr
          b.len).store (s.block spool + (a.len + b.len) % 256) [0], s.pos + (a.len + b.len) % 256 + 1⟩
      (makeStr (s.block spool) ((a.len + b.len) % 256)) = s.text a ++ s.text b := by
  have hmod : (a.len + b.len) % 256 = a.len + b.len := Nat.mod_eq_of_lt (by omega)
  have hblock : (StrOp.concat a b).blockLen = (a.len + b.len) % 256 := rfl
  rw [hblock, hmod] at hroom
  have ha := hlive.apart a List.mem_cons_self
  have hb := hlive.apart b (List.mem_cons_of_mem _ List.mem_cons_self)
  have haway : a.ptr + a.len ≤ s.block spool ∨ s.block spool + a.len ≤ a.ptr := by
    rw [Pool.block]
    omega
  have hbway : b.ptr + b.len ≤ s.block spool + a.len ∨ s.block spool + a.len + b.len ≤ b.ptr := by
    rw [Pool.block]
    omega
  have hkept : (s.mem.store (s.block spool) (s.text a)).slice b.ptr b.len = s.text b := by
    refine Bytes.slice_store_of_disjoint ?_
    rw [s.length_text, Pool.block]
    omega
  show Bytes.slice _ (s.block spool) ((a.len + b.len) % 256 % 256) = _
  rw [hmod, hmod, Bytes.slice_store_of_disjoint (.inl (Nat.le_refl _)), copyBytes_eq s.mem haway,
    copyBytes_eq _ hbway]
  have hfirst : (s.mem.slice a.ptr a.len) = s.text a := rfl
  rw [hfirst, hkept]
  have hstore := Bytes.store_append s.mem (s.block spool) (s.text a) (s.text b)
  rw [s.length_text] at hstore
  rw [← hstore]
  have hself := Bytes.slice_store_self s.mem (s.block spool) (s.text a ++ s.text b)
  rwa [List.length_append, s.length_text, s.length_text] at hself

/-- A concatenation is right just where its length is a `uint8_t`. -/
theorem concat_correct_iff {a b : Str} (hlive : (StrOp.concat a b).Live spool s)
    (hroom : s.pos + (StrOp.concat a b).blockLen + 1 ≤ stringPoolSize) :
    (StrOp.concat a b).Correct spool s ↔ a.len + b.len ≤ 255 := by
  have ha := a.short
  have hb := b.short
  have hrun : (StrOp.concat a b).run spool s = _ := concatStr_room a b hroom
  rw [StrOp.correct_iff hrun (block_ends (Nat.mod_le _ _))]
  constructor
  · rintro ⟨-, hwrites⟩
    by_contra hlong
    -- the last character of the second string
    have hmod : (a.len + b.len) % 256 = a.len + b.len - 256 := by omega
    have hlast := (hwrites ⟨s.block spool + a.len, b.len⟩ (List.mem_cons_of_mem _ List.mem_cons_self)
      (s.block spool + a.len + (b.len - 1)) (Nat.le_add_right _ _) (by simp only; omega)).2
    rw [hmod, Pool.block] at hlast
    simp only at hlast
    omega
  · intro hfits
    have hmod : (a.len + b.len) % 256 = a.len + b.len := Nat.mod_eq_of_lt (by omega)
    refine ⟨concat_text hlive hfits hroom, fun w hw k hlow hhigh => ?_⟩
    show spool + s.pos ≤ k ∧ k < spool + (s.pos + (a.len + b.len) % 256 + 1)
    rw [Pool.block, hmod] at hw
    rw [hmod]
    simp only [List.mem_cons, List.not_mem_nil, or_false] at hw
    rcases hw with rfl | rfl | rfl
    all_goals
      simp only at hlow hhigh
      omega

/-- An operation on strings is an error or right, and writes only into its block, just where its result
fits, or there is no room for the block. -/
theorem string_op_iff (op : StrOp) (hlive : op.Live spool s) :
    op.Correct spool s ↔ op.Fits ∨ stringPoolSize < s.pos + op.blockLen + 1 := by
  by_cases hfull : stringPoolSize < s.pos + op.blockLen + 1
  · exact iff_of_true (StrOp.correct_of_full hfull) (.inr hfull)
  have hroom := Nat.not_lt.mp hfull
  rw [or_iff_left hfull]
  cases op with
  | concat a b => exact concat_correct_iff hlive hroom
  | left a n => exact iff_of_true (left_correct hlive hroom) trivial
  | right a n => exact iff_of_true (right_correct hlive hroom) trivial
  | mid a p n => exact mid_correct_iff hlive hroom
  | chr n => exact iff_of_true (chr_correct hroom) trivial
  | str n => exact str_correct_iff hlive hroom

theorem string_op_iff_left : (StrOp.left ⟨65536, 3, by decide⟩ 2).Correct 65536 ⟨Bytes.zeros, 4⟩ :=
  (string_op_iff (.left ⟨65536, 3, by decide⟩ 2) ⟨by decide, by decide⟩).mpr (.inl trivial)

/-- `A$+A$+A$+A$`, where `A$` has 80 characters: the last concatenation writes behind its block. -/
theorem concat_overruns : ¬∀ (spool : Nat) (s : Pool) (op : StrOp), op.Live spool s → op.Correct spool s := by
  intro h
  have hlive : (StrOp.concat ⟨65940, 240, by decide⟩ ⟨66181, 80, by decide⟩).Live 65536
      ⟨Bytes.zeros, 726⟩ := ⟨by decide, by decide⟩
  exact absurd ((concat_correct_iff hlive (by decide)).mp (h _ _ _ hlive)) (by decide)

end Operations

/-! ## The evaluator -/

namespace StrOp

/-- The text that the evaluator has for an operation. -/
def value (s : Pool) : StrOp → List UInt8
  | concat a b => (s.text a ++ s.text b).take ((a.len + b.len) % 256)
  | left a n => (s.text a).take (clamp n a.len)
  | right a n => (s.text a).drop (a.len - clamp n a.len)
  | mid a p n => ((s.text a).drop (midStart a p)).take (midLen a p n)
  | chr n => [UInt8.ofNat (n % 256).toNat]
  | str n => i32ToStr n

/-- No copy runs out of its block. -/
def Inside : StrOp → Prop
  | concat a b => a.len + b.len ≤ 255
  | mid a p n => (midStart a p : Int) + max n 0 ≤ 2147483647
  | _ => True

variable {spool : Nat} {s : Pool} {op : StrOp}

/-- The block is as long as the text. -/
theorem length_value (hlive : op.Live spool s) (h : op.Inside) : (op.value s).length = op.blockLen := by
  cases op with
  | concat a b =>
    have hfits : a.len + b.len ≤ 255 := h
    rw [value, List.length_take, List.length_append, s.length_text, s.length_text, blockLen]
    omega
  | left a n =>
    have hshort := a.short
    rw [value, List.length_take, s.length_text, blockLen, clamp_eq]
    omega
  | right a n =>
    have hshort := a.short
    rw [value, List.length_drop, s.length_text, blockLen, clamp_eq]
    omega
  | mid a p n =>
    have hshort := a.short
    rw [value, List.length_take, List.length_drop, s.length_text, blockLen, midLen_eq h]
    omega
  | chr n => rfl
  | str n =>
    have hlen := length_i32ToStr (hlive.numbers n List.mem_cons_self)
    rw [value, blockLen, Nat.mod_eq_of_lt (by omega)]

/-- An operation for which there is room puts its text into the block. -/
theorem run_room (hlive : op.Live spool s) (h : op.Inside) (hroom : s.pos + op.blockLen + 1 ≤ stringPoolSize) :
    ∃ r s' l, op.run spool s = ⟨.done (some r), s', l⟩ ∧ s'.text r = op.value s ∧
      s'.pos = s.pos + op.blockLen + 1 := by
  cases op with
  | concat a b =>
    have hfits : a.len + b.len ≤ 255 := h
    have hall : (s.text a ++ s.text b).take ((a.len + b.len) % 256) = s.text a ++ s.text b := by
      rw [List.take_of_length_le]
      rw [List.length_append, s.length_text, s.length_text]
      omega
    exact ⟨_, _, _, concatStr_room a b hroom, (concat_text hlive hfits hroom).trans hall.symm, rfl⟩
  | left a n =>
    have hle : 0 + clamp n a.len ≤ a.len := by
      rw [clamp_eq]
      omega
    exact ⟨_, _, _, substring_room a 0 _ hroom,
      substring_text (hlive.apart a List.mem_cons_self) hle hroom, rfl⟩
  | right a n =>
    have hle : a.len - clamp n a.len + clamp n a.len ≤ a.len := by
      rw [clamp_eq]
      omega
    refine ⟨_, _, _, substring_room a _ _ hroom,
      (substring_text (hlive.apart a List.mem_cons_self) hle hroom).trans (List.take_of_length_le ?_), rfl⟩
    rw [List.length_drop, s.length_text]
    omega
  | mid a p n =>
    have hle : midStart a p + midLen a p n ≤ a.len := by
      have hstart := @midStart_le a p
      rw [midLen_eq h]
      omega
    exact ⟨_, _, _, substring_room a _ _ hroom,
      substring_text (hlive.apart a List.mem_cons_self) hle hroom, rfl⟩
  | chr n => exact ⟨_, _, _, chrStr_room n hroom, chr_text n, rfl⟩
  | str n =>
    have hn := hlive.numbers n List.mem_cons_self
    have hlen := length_i32ToStr hn
    have hmod : (i32ToStr n).length % 256 = (i32ToStr n).length := Nat.mod_eq_of_lt (by omega)
    refine ⟨_, _, _, str_run hn hroom, str_text hn, ?_⟩
    rw [blockLen, hmod]

/-- The evaluator, which has the text of a string and the count of what is taken, does what the
operation does in memory. -/
theorem refines (hlive : op.Live spool s) (h : op.Inside) {e : Eval} (he : e.spoolPos = s.pos) :
    op.run spool s = ⟨.done none, s, []⟩ ∧ Eval.alloc (op.value s) e = Eval.fail e ∨
      ∃ r s' l, op.run spool s = ⟨.done (some r), s', l⟩ ∧ Eval.alloc (op.value s) e =
        ⟨.done (.str (s'.text r)), { e with spoolPos := s'.pos }, []⟩ := by
  have hlen := length_value hlive h
  by_cases hfull : stringPoolSize < s.pos + op.blockLen + 1
  · refine .inl ⟨op.run_full hfull, ?_⟩
    rw [Eval.alloc, get_bind_run, if_pos (by rw [he, hlen]; exact hfull)]
  · obtain ⟨r, s', l, hrun, htext, hpos⟩ := run_room hlive h (Nat.not_lt.mp hfull)
    refine .inr ⟨r, s', l, hrun, ?_⟩
    rw [Eval.alloc, get_bind_run, if_neg (by rw [he, hlen]; exact hfull), htext, hpos, ← hlen, ← he]
    rfl

end StrOp

end RainbowOs.Basic
