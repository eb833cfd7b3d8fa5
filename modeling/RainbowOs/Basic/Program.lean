import RainbowOs.Lib.Bytes
import Mathlib.Data.List.Sort

/-!
# The program store of BASIC

`apps/basic/program.c`: the lines of a program in one flat buffer, each with
its number, its length and its tokens, in the order of their numbers. A
pointer into the buffer is an offset. The two loops over the lines count
`fuel`, one round for each byte that is used and two more: a line of length
0, which the code never leaves, is the only thing that outlasts it.

`Stored` is what the buffer is for: a list of lines in strict order. Each
operation refines the one on lists, so a run of them is a map from numbers
to tokens (`store_is_map`).
-/

namespace RainbowOs.Basic

open RainbowOs.Lib

abbrev progSize : Nat := 8192

/-- The statics of `program.c`. -/
structure Program where
  buf : Bytes
  progEnd : Nat

namespace Program

variable (p : Program)

/-- `prog_init` -/
def init : Program := ⟨p.buf.fill 0 progSize 0, 0⟩

/-- `prog_line_number` -/
def lineNumber (line : Nat) : Nat := p.buf.word16 line

/-- `prog_line_length` -/
def lineLength (line : Nat) : Nat := (p.buf (line + 2)).toNat

/-- `prog_first_line` -/
def firstLine : Option Nat := if p.progEnd = 0 then none else some 0

/-- `prog_next_line` -/
def nextLine (current : Nat) : Option Nat :=
  if current + p.lineLength current ≥ p.progEnd then none else some (current + p.lineLength current)

/-- The loop of `prog_find_line`, from a line on. -/
def findFrom (num : Nat) : (fuel : Nat) → Option Nat → Option (Option Nat)
  | 0, _ => none
  | _ + 1, none => some none
  | fuel + 1, some line =>
    if p.lineNumber line = num then some (some line)
    else if p.lineNumber line > num then some none
    else findFrom num fuel (p.nextLine line)

/-- `prog_find_line`; `none` where its loop does not end. -/
def findLine (num : Nat) : Option (Option Nat) := p.findFrom num (p.progEnd + 2) p.firstLine

/-- The loop of `find_insert_pos`, from a line on. -/
def insertPosFrom (num : Nat) : (fuel : Nat) → Option Nat → Option Nat
  | 0, _ => none
  | _ + 1, none => some p.progEnd
  | fuel + 1, some line =>
    if p.lineNumber line ≥ num then some line else insertPosFrom num fuel (p.nextLine line)

/-- `find_insert_pos` -/
def findInsertPos (num : Nat) : Option Nat := p.insertPosFrom num (p.progEnd + 2) p.firstLine

/-- `memmove` inside the buffer. -/
def move (dst src n : Nat) : Bytes := p.buf.store dst (p.buf.slice src n)

/-- `prog_delete_line` -/
def deleteLine (num : Nat) : Option Program := do
  match ← p.findLine num with
  | none => return p
  | some line =>
    let len := p.lineLength line
    let tail := u32 (p.progEnd - (line + len))
    return ⟨if tail > 0 then p.move line (line + len) tail else p.buf, p.progEnd - len⟩

/-- `prog_insert_line` -/
def insertLine (num : Nat) (tokens : List UInt8) : Option Program := do
  let p ← p.deleteLine num
  let total := (tokens.length + 3) % 256
  if p.progEnd + total > progSize then return p
  else
    let pos ← p.findInsertPos num
    let tail := p.progEnd - pos
    let buf := if tail > 0 then p.move (pos + total) pos tail else p.buf
    let header := [UInt8.ofNat num, UInt8.ofNat (num / 256), UInt8.ofNat total]
    return ⟨(buf.store pos header).store (pos + 3) tokens, p.progEnd + total⟩

end Program

/-! ## Lists of lines -/

/-- A line: its number and its tokens. -/
structure Line where
  num : Nat
  tokens : List UInt8
  deriving DecidableEq, Repr

namespace Line

/-- A line the store has room for. -/
structure Valid (l : Line) : Prop where
  num : l.num < 65536
  pos : 1 ≤ l.tokens.length
  short : l.tokens.length ≤ 119

/-- The bytes of a line in the buffer. -/
def bytes (l : Line) : List UInt8 :=
  [UInt8.ofNat l.num, UInt8.ofNat (l.num / 256), UInt8.ofNat (l.tokens.length + 3)] ++ l.tokens

theorem length_bytes (l : Line) : l.bytes.length = l.tokens.length + 3 := by
  rw [bytes, List.length_append, Nat.add_comm]
  rfl

end Line

/-- The bytes of lines one after the other. -/
def encode (ls : List Line) : List UInt8 := ls.flatMap Line.bytes

/-- The bytes that lines take. -/
def size (ls : List Line) : Nat := (encode ls).length

@[simp] theorem size_nil : size [] = 0 := rfl

@[simp] theorem size_cons (l : Line) (ls : List Line) :
    size (l :: ls) = l.tokens.length + 3 + size ls := by
  rw [size, encode, List.flatMap_cons, List.length_append, l.length_bytes]
  rfl

theorem encode_append (ls ls' : List Line) : encode (ls ++ ls') = encode ls ++ encode ls' :=
  List.flatMap_append

@[simp] theorem size_append (ls ls' : List Line) : size (ls ++ ls') = size ls + size ls' := by
  rw [size, encode_append, List.length_append]
  rfl

/-- The buffer holds the lines, in strict order of their numbers. -/
structure Stored (p : Program) (ls : List Line) : Prop where
  bytes : p.buf.slice 0 (size ls) = encode ls
  progEnd : p.progEnd = size ls
  room : size ls ≤ progSize
  sorted : ls.Pairwise fun l l' => l.num < l'.num
  valid : ∀ l ∈ ls, l.Valid

/-- The lines without one number. -/
def erase (num : Nat) (ls : List Line) : List Line := ls.filter fun l => l.num ≠ num

/-- The lines with one more, in its place. -/
def insert (l : Line) (ls : List Line) : List Line :=
  (erase l.num ls).orderedInsert (fun l l' => l.num ≤ l'.num) l

/-! ## Walking the lines -/

namespace Stored

variable {p : Program} {pre post ls : List Line} {l : Line}

/-- What the buffer has at the lines after some. -/
theorem slice_at (h : Stored p (pre ++ ls)) :
    p.buf.slice (size pre) (size ls) = encode ls := by
  have hbytes := h.bytes
  rw [size_append, Bytes.slice_add, encode_append, Nat.zero_add] at hbytes
  exact (List.append_inj hbytes (Bytes.length_slice _ _ _)).2

theorem line_at (h : Stored p (pre ++ l :: post)) :
    p.buf.slice (size pre) (l.tokens.length + 3) = l.bytes := by
  have hbytes := h.slice_at
  rw [size_cons, Bytes.slice_add, encode, List.flatMap_cons] at hbytes
  exact (List.append_inj hbytes (by rw [Bytes.length_slice, l.length_bytes])).1

theorem byte_at (h : Stored p (pre ++ l :: post)) {i : Nat} (hi : i < l.tokens.length + 3) :
    l.bytes[i]? = some (p.buf (size pre + i)) := by
  rw [← h.line_at, Bytes.getElem?_slice hi]

theorem valid_at (h : Stored p (pre ++ l :: post)) : l.Valid :=
  h.valid l (List.mem_append_right _ List.mem_cons_self)

theorem lineNumber_at (h : Stored p (pre ++ l :: post)) : p.lineNumber (size pre) = l.num := by
  have hnum := h.valid_at.num
  have h₀ := h.byte_at (i := 0) (by omega)
  have h₁ := h.byte_at (i := 1) (by omega)
  have hlow : UInt8.ofNat l.num = p.buf (size pre) := Option.some.inj h₀
  have hhigh : UInt8.ofNat (l.num / 256) = p.buf (size pre + 1) := Option.some.inj h₁
  rw [Program.lineNumber, Bytes.word16, ← hlow, ← hhigh, UInt8.toNat_ofNat', UInt8.toNat_ofNat']
  omega

theorem lineLength_at (h : Stored p (pre ++ l :: post)) :
    p.lineLength (size pre) = l.tokens.length + 3 := by
  have hshort := h.valid_at.short
  have h₂ := h.byte_at (i := 2) (by omega)
  have hlen : UInt8.ofNat (l.tokens.length + 3) = p.buf (size pre + 2) := Option.some.inj h₂
  rw [Program.lineLength, ← hlen, UInt8.toNat_ofNat']
  omega

/-- The line after one, and the end after the last. -/
theorem nextLine_at (h : Stored p (pre ++ l :: post)) :
    p.nextLine (size pre) = if post = [] then none else some (size (pre ++ [l])) := by
  have hend := h.progEnd
  rw [Program.nextLine, h.lineLength_at, hend]
  cases post with
  | nil => simp
  | cons l' post =>
    have hmore : ¬size pre + (l.tokens.length + 3) ≥ size (pre ++ l :: l' :: post) := by
      simp only [size_append, size_cons]
      omega
    rw [if_neg hmore, if_neg (List.cons_ne_nil l' post), size_append, size_cons, size_nil, Nat.add_zero]

theorem firstLine_eq (h : Stored p ls) :
    p.firstLine = if ls = [] then none else some 0 := by
  have hend := h.progEnd
  rw [Program.firstLine, hend]
  cases ls with
  | nil => rfl
  | cons l ls => simp

/-! ## The loops -/

/-- The loop of `prog_find_line` finds the line. -/
theorem findFrom_mem (h : Stored p (pre ++ (ls ++ l :: post))) {fuel : Nat}
    (hfuel : ls.length < fuel) :
    p.findFrom l.num fuel (some (size pre)) = some (some (size (pre ++ ls))) := by
  induction ls generalizing pre fuel with
  | nil =>
    obtain ⟨f, rfl⟩ := Nat.exists_eq_succ_of_ne_zero (Nat.ne_zero_of_lt hfuel)
    rw [Program.findFrom, if_pos h.lineNumber_at, List.append_nil]
  | cons l' ls ih =>
    obtain ⟨f, rfl⟩ := Nat.exists_eq_succ_of_ne_zero (Nat.ne_zero_of_lt hfuel)
    have hlt : l'.num < l.num :=
      List.rel_of_pairwise_cons (List.pairwise_append.mp h.sorted).2.1
        (List.mem_append_right _ List.mem_cons_self)
    have hnum : p.lineNumber (size pre) = l'.num := h.lineNumber_at
    have hnext : p.nextLine (size pre) = some (size (pre ++ [l'])) := by
      exact h.nextLine_at.trans (if_neg (List.append_ne_nil_of_right_ne_nil ls (List.cons_ne_nil _ _)))
    rw [Program.findFrom, hnum, if_neg (Nat.ne_of_lt hlt), if_neg (Nat.lt_asymm hlt), hnext]
    rw [List.append_cons pre l' ls]
    apply ih
    · rw [List.append_assoc]
      exact h
    · exact Nat.lt_of_succ_lt_succ hfuel

/-- And ends where there is none. -/
theorem findFrom_not_mem (h : Stored p (pre ++ ls)) {num fuel : Nat} (hnum : ∀ l ∈ ls, l.num ≠ num)
    (hfuel : ls.length < fuel) :
    p.findFrom num fuel (if ls = [] then none else some (size pre)) = some none := by
  induction ls generalizing pre fuel with
  | nil =>
    obtain ⟨f, rfl⟩ := Nat.exists_eq_succ_of_ne_zero (Nat.ne_zero_of_lt hfuel)
    rfl
  | cons l' ls ih =>
    obtain ⟨f, rfl⟩ := Nat.exists_eq_succ_of_ne_zero (Nat.ne_zero_of_lt hfuel)
    have hne : l'.num ≠ num := hnum l' List.mem_cons_self
    have hpre : Stored p (pre ++ [l'] ++ ls) := by
      rw [List.append_assoc]
      exact h
    have hrest := ih hpre (fun l hl => hnum l (List.mem_cons_of_mem l' hl)) (Nat.lt_of_succ_lt_succ hfuel)
    rw [if_neg (List.cons_ne_nil _ _), Program.findFrom, h.lineNumber_at, if_neg hne, h.nextLine_at,
      hrest, ite_self]

/-- The loop of `find_insert_pos` ends at the first line that is not before the number. -/
theorem insertPosFrom_eq (h : Stored p (pre ++ ls)) (num : Nat) {fuel : Nat}
    (hfuel : ls.length < fuel) :
    p.insertPosFrom num fuel (if ls = [] then none else some (size pre)) =
      some (size (pre ++ ls.takeWhile fun l => ¬num ≤ l.num)) := by
  induction ls generalizing pre fuel with
  | nil =>
    obtain ⟨f, rfl⟩ := Nat.exists_eq_succ_of_ne_zero (Nat.ne_zero_of_lt hfuel)
    rw [if_pos rfl, Program.insertPosFrom, h.progEnd, List.takeWhile_nil]
  | cons l' ls ih =>
    obtain ⟨f, rfl⟩ := Nat.exists_eq_succ_of_ne_zero (Nat.ne_zero_of_lt hfuel)
    have hpre : Stored p (pre ++ [l'] ++ ls) := by
      rw [List.append_assoc]
      exact h
    have hrest := ih hpre (Nat.lt_of_succ_lt_succ hfuel)
    rw [if_neg (List.cons_ne_nil _ _), Program.insertPosFrom, h.lineNumber_at, List.takeWhile_cons]
    by_cases hle : num ≤ l'.num
    · simp [hle]
    · simp only [hle, if_false, h.nextLine_at, hrest, not_false_eq_true, decide_true, if_true,
        List.append_assoc, List.cons_append, List.nil_append]

theorem length_le_size (ls : List Line) : ls.length ≤ size ls := by
  induction ls with
  | nil => exact Nat.le_refl _
  | cons l ls ih =>
    rw [size_cons, List.length_cons]
    omega

theorem fuel_lt (h : Stored p ls) : ls.length < p.progEnd + 2 := by
  have hle := length_le_size ls
  rw [h.progEnd]
  omega

/-- `prog_find_line` finds the line of a number. -/
theorem findLine_mem (h : Stored p (pre ++ l :: post)) :
    p.findLine l.num = some (some (size pre)) := by
  have hfuel := h.fuel_lt
  rw [List.length_append] at hfuel
  rw [Program.findLine, h.firstLine_eq,
    if_neg (List.append_ne_nil_of_right_ne_nil _ (List.cons_ne_nil _ _))]
  exact findFrom_mem (show Stored p ([] ++ (pre ++ l :: post)) from h) (by omega)

/-- And answers null where there is none. -/
theorem findLine_not_mem (h : Stored p ls) {num : Nat} (hnum : ∀ l ∈ ls, l.num ≠ num) :
    p.findLine num = some none := by
  rw [Program.findLine, h.firstLine_eq]
  exact findFrom_not_mem (show Stored p ([] ++ ls) from h) hnum h.fuel_lt

theorem findInsertPos_eq (h : Stored p ls) (num : Nat) :
    p.findInsertPos num = some (size (ls.takeWhile fun l => ¬num ≤ l.num)) := by
  rw [Program.findInsertPos, h.firstLine_eq]
  exact insertPosFrom_eq (show Stored p ([] ++ ls) from h) num h.fuel_lt

end Stored

/-! ## Deletion and insertion -/

/-- A buffer holds lines if it holds two parts of them one after the other. -/
theorem slice_append {m : Bytes} {ls ls' : List Line} (h : m.slice 0 (size ls) = encode ls)
    (h' : m.slice (size ls) (size ls') = encode ls') :
    m.slice 0 (size (ls ++ ls')) = encode (ls ++ ls') := by
  rw [size_append, Bytes.slice_add, Nat.zero_add, h, h', encode_append]

/-- A move of nothing changes nothing. -/
theorem move_eq (p : Program) (dst src n : Nat) :
    (if n > 0 then p.move dst src n else p.buf) = p.move dst src n := by
  split
  · rfl
  · next h =>
    rw [Nat.eq_zero_of_not_pos h, Program.move]
    exact (Bytes.store_nil p.buf dst).symm

theorem erase_of_not_mem {num : Nat} {ls : List Line} (h : ∀ l ∈ ls, l.num ≠ num) :
    erase num ls = ls :=
  List.filter_eq_self.mpr fun l hl => decide_eq_true (h l hl)

theorem erase_mid {pre post : List Line} {l : Line}
    (h : (pre ++ l :: post).Pairwise fun l l' => l.num < l'.num) :
    erase l.num (pre ++ l :: post) = pre ++ post := by
  obtain ⟨-, hpost, hpre⟩ := List.pairwise_append.mp h
  rw [erase, List.filter_append, List.filter_cons_of_neg (by simp)]
  refine congrArg₂ (· ++ ·) (erase_of_not_mem fun l' hl' => ?_) (erase_of_not_mem fun l' hl' => ?_)
  · exact Nat.ne_of_lt (hpre l' hl' l List.mem_cons_self)
  · exact Nat.ne_of_gt (List.rel_of_pairwise_cons hpost hl')

/-- A list of lines has a line of the number, or none. -/
theorem split_num (num : Nat) (ls : List Line) :
    (∃ pre l post, ls = pre ++ l :: post ∧ l.num = num) ∨ ∀ l ∈ ls, l.num ≠ num := by
  by_cases h : ∃ l ∈ ls, l.num = num
  · obtain ⟨l, hl, hnum⟩ := h
    obtain ⟨pre, post, rfl⟩ := List.append_of_mem hl
    exact Or.inl ⟨pre, l, post, rfl, hnum⟩
  · exact Or.inr fun l hl hnum => h ⟨l, hl, hnum⟩

/-- `prog_delete_line` takes the line of the number out. -/
theorem Stored.delete {p : Program} {ls : List Line} (h : Stored p ls) (num : Nat) :
    ∃ p', p.deleteLine num = some p' ∧ Stored p' (erase num ls) := by
  rcases split_num num ls with ⟨pre, l, post, rfl, rfl⟩ | hnot
  · have hfind := h.findLine_mem
    have hlen := h.lineLength_at
    have hend := h.progEnd
    have hroom := h.room
    have hmax : progSize = 8192 := rfl
    rw [size_append, size_cons] at hend hroom
    have htail : u32 (p.progEnd - (size pre + (l.tokens.length + 3))) = size post := by
      rw [u32, hend]
      omega
    refine ⟨⟨p.move (size pre) (size pre + (l.tokens.length + 3)) (size post),
      size pre + size post⟩, ?_, ?_⟩
    · simp only [Program.deleteLine, hfind, hlen, htail, move_eq, Option.bind_eq_bind,
        Option.bind_some]
      congr 2
      omega
    rw [erase_mid h.sorted]
    have hafter : p.buf.slice (size pre + (l.tokens.length + 3)) (size post) = encode post := by
      have hstored : Stored p ((pre ++ [l]) ++ post) := by
        rw [List.append_assoc]
        exact h
      have hslice := hstored.slice_at
      rwa [size_append, size_cons, size_nil] at hslice
    have hbefore : p.buf.slice 0 (size pre) = encode pre := by
      have hbytes := h.bytes
      rw [size_append, Bytes.slice_add, encode_append] at hbytes
      exact (List.append_inj hbytes (Bytes.length_slice _ _ _)).1
    obtain ⟨hpre, hpost, hcross⟩ := List.pairwise_append.mp h.sorted
    refine ⟨slice_append ?_ ?_, (size_append _ _).symm, ?_, ?_, ?_⟩
    · rw [Program.move, Bytes.slice_store_of_disjoint (Or.inl (Nat.le_of_eq (Nat.zero_add _))), hbefore]
    · rw [Program.move, hafter]
      exact Bytes.slice_store_self _ _ _
    · rw [size_append]
      omega
    · refine List.pairwise_append.mpr ⟨hpre, hpost.of_cons, fun a ha b hb => ?_⟩
      exact hcross a ha b (List.mem_cons_of_mem l hb)
    · intro a ha
      rcases List.mem_append.mp ha with ha | ha
      · exact h.valid a (List.mem_append_left _ ha)
      · exact h.valid a (List.mem_append_right _ (List.mem_cons_of_mem l ha))
  · refine ⟨p, ?_, ?_⟩
    · simp only [Program.deleteLine, h.findLine_not_mem hnot, Option.bind_eq_bind, Option.bind_some]
      rfl
    · rw [erase_of_not_mem hnot]
      exact h

theorem size_perm {ls ls' : List Line} (h : ls.Perm ls') : size ls = size ls' :=
  (h.flatMap_right Line.bytes).length_eq

theorem size_insert (l : Line) (ls : List Line) :
    size (insert l ls) = l.tokens.length + 3 + size (erase l.num ls) := by
  rw [insert, size_perm (List.perm_orderedInsert _ l _), size_cons]

/-- The lines before a line that is inserted, and those after it. -/
theorem insert_eq (l : Line) (ls : List Line) : insert l ls =
    ((erase l.num ls).takeWhile fun l' => ¬l.num ≤ l'.num) ++
      l :: (erase l.num ls).dropWhile fun l' => ¬l.num ≤ l'.num :=
  List.orderedInsert_eq_take_drop _ l _

theorem mem_insert {l a : Line} {ls : List Line} :
    a ∈ insert l ls ↔ a = l ∨ a ∈ erase l.num ls := List.mem_orderedInsert _

theorem ne_of_mem_erase {num : Nat} {ls : List Line} {a : Line} (h : a ∈ erase num ls) :
    a.num ≠ num := of_decide_eq_true (List.mem_filter.mp h).2

/-- The place of a line keeps the order strict. -/
theorem sorted_insert {l : Line} {ls : List Line} (h : ls.Pairwise fun l l' => l.num < l'.num) :
    (insert l ls).Pairwise fun l l' => l.num < l'.num := by
  have herase : (erase l.num ls).Pairwise fun l l' => l.num < l'.num := h.filter _
  have : Std.Total fun l l' : Line => l.num ≤ l'.num := ⟨fun _ _ => Nat.le_total _ _⟩
  have : IsTrans Line fun l l' => l.num ≤ l'.num := ⟨fun _ _ _ => Nat.le_trans⟩
  have hle : (insert l ls).Pairwise fun l l' => l.num ≤ l'.num :=
    (herase.imp Nat.le_of_lt).orderedInsert l _
  have hne : (insert l ls).Pairwise fun l l' => l.num ≠ l'.num := by
    refine (List.perm_orderedInsert _ l _).symm.pairwise (List.pairwise_cons.mpr ⟨?_, ?_⟩) Ne.symm
    · exact fun a ha => (ne_of_mem_erase ha).symm
    · exact herase.imp Nat.ne_of_lt
  exact hle.imp₂ (fun _ _ h h' => Nat.lt_of_le_of_ne h h') hne

/-- `prog_insert_line` puts the line in its place. -/
theorem Stored.insert {p : Program} {ls : List Line} (h : Stored p ls) {l : Line} (hl : l.Valid)
    (hroom : size (insert l ls) ≤ progSize) :
    ∃ p', p.insertLine l.num l.tokens = some p' ∧ Stored p' (Basic.insert l ls) := by
  obtain ⟨p₁, hdelete, h₁⟩ := h.delete l.num
  have hshort := hl.short
  have hsize := size_insert l ls
  have htotal : (l.tokens.length + 3) % 256 = l.tokens.length + 3 := Nat.mod_eq_of_lt (by omega)
  have hpos := h₁.findInsertPos_eq l.num
  have hsplit := List.takeWhile_append_dropWhile (p := fun l' => ¬l.num ≤ l'.num) (l := erase l.num ls)
  have hsorted := sorted_insert (l := l) h.sorted
  have hvalid : ∀ a ∈ Basic.insert l ls, a.Valid := by
    intro a ha
    rcases mem_insert.mp ha with rfl | ha
    · exact hl
    · exact h₁.valid a ha
  rw [insert_eq] at hroom hsize hsorted hvalid ⊢
  rw [← hsplit] at h₁
  generalize (erase l.num ls).takeWhile (fun l' => ¬l.num ≤ l'.num) = lo at *
  generalize (erase l.num ls).dropWhile (fun l' => ¬l.num ≤ l'.num) = hi at *
  have hend := h₁.progEnd
  rw [size_append] at hend
  rw [size_append, size_cons] at hroom
  refine ⟨⟨(p₁.move (size lo + (l.tokens.length + 3)) (size lo) (size hi)).store (size lo) l.bytes,
    size lo + size hi + (l.tokens.length + 3)⟩, ?_, ?_⟩
  · have htail : p₁.progEnd - size lo = size hi := by omega
    have hfits : ¬p₁.progEnd + (l.tokens.length + 3) > progSize := by omega
    simp only [Program.insertLine, hdelete, Option.bind_eq_bind, Option.bind_some, htotal, hpos,
      htail, move_eq, if_neg hfits]
    rw [hend, Line.bytes, Bytes.store_append]
    rfl
  have hlen := l.length_bytes
  have hbefore : p₁.buf.slice 0 (size lo) = encode lo := by
    have hbytes := h₁.bytes
    rw [size_append, Bytes.slice_add, encode_append] at hbytes
    exact (List.append_inj hbytes (Bytes.length_slice _ _ _)).1
  have hafter : p₁.buf.slice (size lo) (size hi) = encode hi := h₁.slice_at
  refine ⟨slice_append ?_ ?_, ?_, ?_, hsorted, hvalid⟩
  · rw [Bytes.slice_store_of_disjoint (by omega), Program.move,
      Bytes.slice_store_of_disjoint (by omega), hbefore]
  · rw [size_cons, Bytes.slice_add, encode, List.flatMap_cons, ← hlen]
    refine congrArg₂ (· ++ ·) (Bytes.slice_store_self _ _ _) ?_
    rw [Bytes.slice_store_of_disjoint (by omega), Program.move, hafter, hlen]
    exact Bytes.slice_store_self _ _ _
  · rw [size_append, size_cons]
    show size lo + size hi + (l.tokens.length + 3) = _
    omega
  · rw [size_append, size_cons]
    omega

/-! ## Runs -/

/-- A call that changes the program. -/
inductive Op where
  | insert (l : Line)
  | delete (num : Nat)
  deriving DecidableEq, Repr

namespace Op

/-- What the code does. -/
def run (p : Program) : Op → Option Program
  | insert l => p.insertLine l.num l.tokens
  | delete num => p.deleteLine num

/-- What it is for. -/
def apply (ls : List Line) : Op → List Line
  | insert l => Basic.insert l ls
  | delete num => erase num ls

/-- The tokens that a number has after a call. -/
def update (num : Nat) (v : Option (List UInt8)) : Op → Option (List UInt8)
  | insert l => if l.num = num then some l.tokens else v
  | delete n => if n = num then none else v

def Valid : Op → Prop
  | insert l => l.Valid
  | delete num => num < 65536

end Op

/-- The lines after a sequence of calls. -/
def linesAfter (ops : List Op) : List Line := ops.foldl Op.apply []

/-- The tokens that were last inserted for a number, unless it was deleted since. -/
def lastInserted (num : Nat) (ops : List Op) : Option (List UInt8) := ops.foldl (Op.update num) none

/-- The lines take up the buffer from an offset to the end: each has its number, its length and
its tokens, and the walk goes from each to the one that begins where it ends. -/
def Tiles (p : Program) : (line : Nat) → List Line → Prop
  | line, [] => line = p.progEnd
  | line, l :: ls => p.lineNumber line = l.num ∧ p.lineLength line = l.tokens.length + 3 ∧
      p.buf.slice (line + 3) l.tokens.length = l.tokens ∧
      (p.nextLine line = if ls = [] then none else some (line + p.lineLength line)) ∧
      Tiles p (line + p.lineLength line) ls

theorem Stored.tokens_at {p : Program} {pre post : List Line} {l : Line}
    (h : Stored p (pre ++ l :: post)) : p.buf.slice (size pre + 3) l.tokens.length = l.tokens := by
  have hline := h.line_at
  rw [Nat.add_comm, Bytes.slice_add, Line.bytes] at hline
  exact (List.append_inj hline (Bytes.length_slice _ _ _)).2

theorem Stored.tiles {p : Program} {pre ls : List Line} (h : Stored p (pre ++ ls)) :
    Tiles p (size pre) ls := by
  induction ls generalizing pre with
  | nil =>
    rw [List.append_nil] at h
    exact h.progEnd.symm
  | cons l ls ih =>
    have hlen := h.lineLength_at
    have hsize : size (pre ++ [l]) = size pre + p.lineLength (size pre) := by
      rw [hlen, size_append, size_cons, size_nil, Nat.add_zero]
    refine ⟨h.lineNumber_at, hlen, h.tokens_at, ?_, ?_⟩
    · rw [h.nextLine_at, hsize]
    · rw [← hsize]
      apply ih
      rw [List.append_assoc]
      exact h

theorem Stored.init (p : Program) : Stored p.init [] :=
  ⟨rfl, rfl, Nat.zero_le _, List.Pairwise.nil, fun _ h => absurd h List.not_mem_nil⟩

/-- One call keeps the store in step with the list. -/
theorem Stored.step {p : Program} {ls : List Line} (h : Stored p ls) {op : Op} (hop : op.Valid)
    (hroom : size (op.apply ls) ≤ progSize) :
    ∃ p', op.run p = some p' ∧ Stored p' (op.apply ls) := by
  cases op with
  | insert l => exact h.insert hop hroom
  | delete num => exact h.delete num

/-- So does a run. -/
theorem Stored.steps {p : Program} {ls : List Line} (h : Stored p ls) {ops : List Op}
    (hops : ∀ op ∈ ops, op.Valid)
    (hroom : ∀ k, size ((ops.take k).foldl Op.apply ls) ≤ progSize) :
    ∃ p', ops.foldlM (fun p op => op.run p) p = some p' ∧ Stored p' (ops.foldl Op.apply ls) := by
  induction ops generalizing p ls with
  | nil => exact ⟨p, rfl, h⟩
  | cons op ops ih =>
    obtain ⟨p₁, hrun, h₁⟩ := h.step (hops op List.mem_cons_self) (hroom 1)
    obtain ⟨p', hruns, h'⟩ := ih h₁ (fun o ho => hops o (List.mem_cons_of_mem op ho))
      fun k => hroom (k + 1)
    refine ⟨p', ?_, h'⟩
    rw [List.foldlM_cons, hrun]
    exact hruns

theorem mem_erase {num : Nat} {ls : List Line} {a : Line} :
    a ∈ erase num ls ↔ a ∈ ls ∧ a.num ≠ num := by
  rw [erase, List.mem_filter, decide_eq_true_iff]

/-- A call does to a list what it does to the tokens of each number. -/
theorem mem_apply {ls : List Line} {v : Nat → Option (List UInt8)}
    (h : ∀ a, a ∈ ls ↔ v a.num = some a.tokens) (op : Op) (a : Line) :
    a ∈ op.apply ls ↔ op.update a.num (v a.num) = some a.tokens := by
  cases op with
  | delete num =>
    simp only [Op.apply, Op.update, mem_erase, h]
    by_cases hnum : num = a.num
    · simp [hnum]
    · simp [hnum, Ne.symm hnum]
  | insert l =>
    simp only [Op.apply, Op.update, mem_insert, mem_erase, h]
    by_cases hnum : l.num = a.num
    · have heq : a = l ↔ l.tokens = a.tokens := by
        refine ⟨fun heq => by rw [heq], fun htokens => ?_⟩
        cases a
        cases l
        simp_all
      simp [hnum, heq]
    · have hne : a ≠ l := fun heq => hnum (by rw [heq])
      simp [hnum, Ne.symm hnum, hne]

/-- The list has, for each number, the tokens that were last inserted. -/
theorem mem_linesAfter (ops : List Op) (l : Line) :
    l ∈ linesAfter ops ↔ lastInserted l.num ops = some l.tokens := by
  have hrun : ∀ (ops : List Op) (ls : List Line) (v : Nat → Option (List UInt8)),
      (∀ a, a ∈ ls ↔ v a.num = some a.tokens) → (l ∈ ops.foldl Op.apply ls ↔
        ops.foldl (Op.update l.num) (v l.num) = some l.tokens) := by
    intro ops
    induction ops with
    | nil => exact fun _ _ h => h l
    | cons op ops ih => exact fun ls v h => ih _ (fun num => op.update num (v num)) (mem_apply h op)
  exact hrun ops [] (fun _ => none) fun a => by simp

/-- The program store is a sorted map: after any calls that stay within the buffer, the lines
tile it in strict order of their numbers, and `prog_find_line` answers the line with the tokens
that were last inserted for a number, or null where there are none. -/
theorem store_is_map (p : Program) (ops : List Op) (hops : ∀ op ∈ ops, op.Valid)
    (hroom : ∀ k, size (linesAfter (ops.take k)) ≤ progSize) :
    ∃ p', ops.foldlM (fun p op => op.run p) p.init = some p' ∧
      (p'.firstLine = if linesAfter ops = [] then none else some 0) ∧
      Tiles p' 0 (linesAfter ops) ∧
      ((linesAfter ops).Pairwise fun l l' => l.num < l'.num) ∧
      ∀ num, match lastInserted num ops with
        | none => p'.findLine num = some none
        | some tokens => ∃ line, p'.findLine num = some (some line) ∧ p'.lineNumber line = num ∧
            p'.lineLength line = tokens.length + 3 ∧
            p'.buf.slice (line + 3) tokens.length = tokens := by
  obtain ⟨p', hruns, h⟩ := (Stored.init p).steps hops hroom
  have htiles : Tiles p' 0 (linesAfter ops) :=
    Stored.tiles (show Stored p' ([] ++ linesAfter ops) from h)
  refine ⟨p', hruns, h.firstLine_eq, htiles, h.sorted, fun num => ?_⟩
  cases hlast : lastInserted num ops with
  | none =>
    apply h.findLine_not_mem
    rintro l hl rfl
    rw [mem_linesAfter ops l |>.mp hl] at hlast
    cases hlast
  | some tokens =>
    obtain ⟨pre, post, hsplit⟩ := List.append_of_mem ((mem_linesAfter ops ⟨num, tokens⟩).mpr hlast)
    rw [show ops.foldl Op.apply [] = _ from hsplit] at h
    exact ⟨size pre, h.findLine_mem, h.lineNumber_at, h.lineLength_at, h.tokens_at⟩

/-- Lines 20 and 10 inserted, line 20 replaced and line 10 deleted. -/
def edits : List Op := [.insert ⟨20, [1]⟩, .insert ⟨10, [2, 3]⟩, .insert ⟨20, [4, 5]⟩, .delete 10]

/-- What the store holds after the edits. -/
theorem store_is_map_edits : ∃ p', edits.foldlM (fun p op => op.run p)
      (Program.init ⟨fun _ => 7, 3⟩) = some p' ∧ p'.findLine 10 = some none ∧
    ∃ line, p'.findLine 20 = some (some line) ∧ p'.buf.slice (line + 3) 2 = [4, 5] := by
  have hops : ∀ op ∈ edits, op.Valid := by
    intro op hop
    simp only [edits, List.mem_cons, List.not_mem_nil, or_false] at hop
    rcases hop with rfl | rfl | rfl | rfl
    · exact ⟨by decide, by decide, by decide⟩
    · exact ⟨by decide, by decide, by decide⟩
    · exact ⟨by decide, by decide, by decide⟩
    · exact (by decide : 10 < 65536)
  have hroom : ∀ k, size (linesAfter (edits.take k)) ≤ progSize := by
    intro k
    match k with
    | 0 | 1 | 2 | 3 => decide
    | k + 4 =>
      rw [List.take_of_length_le (Nat.le_add_left 4 k)]
      decide
  obtain ⟨p', hruns, -, -, -, hfind⟩ := store_is_map ⟨fun _ => 7, 3⟩ edits hops hroom
  obtain ⟨line, hline, -, -, htokens⟩ := hfind 20
  exact ⟨p', hruns, hfind 10, line, hline, htokens⟩

end RainbowOs.Basic
