import RainbowOs.Lib.Bytes

/-!
# Relocation — code with holes that are filled afterwards

A single-pass code generator emits bytes with holes, the dwords it does not
know yet, and fills them once the layout is known. Code is a list of pieces
with at most one hole each. `slice_patchAll` says that filling the holes one
after the other leaves every piece with its own hole filled, and nothing
outside the code changed: no patch reads or writes what another one does.
-/

namespace RainbowOs.Lib

/-- A dword to be filled: where it is, and its value from the one it holds. -/
structure Hole where
  off : Nat
  fill : Nat → Nat

/-- A hole further on by `a`. -/
def Hole.shift (a : Nat) (h : Hole) : Hole := { h with off := a + h.off }

/-- Code with at most one hole. -/
structure Piece where
  bytes : List UInt8
  hole : Option Hole

/-- The dword of a list of bytes. -/
def dwordAt (bs : List UInt8) (off : Nat) : Nat := Bytes.word32 (fun i => bs.getD i 0) off

namespace Piece

/-- The hole lies within the piece. -/
def Ok (p : Piece) : Prop := ∀ h ∈ p.hole, h.off + 4 ≤ p.bytes.length

/-- The piece with its hole filled. -/
def linked (p : Piece) : List UInt8 :=
  match p.hole with
  | none => p.bytes
  | some h => p.bytes.take h.off ++ Bytes.le32 (h.fill (dwordAt p.bytes h.off)) ++
      p.bytes.drop (h.off + 4)

theorem length_linked {p : Piece} (hp : p.Ok) : p.linked.length = p.bytes.length := by
  unfold linked
  cases hh : p.hole with
  | none => rfl
  | some h =>
    have := hp h (hh ▸ rfl)
    simp only [List.length_append, List.length_take, List.length_drop, Bytes.length_le32]
    omega

end Piece

/-- The bytes of pieces. -/
def code (ps : List Piece) : List UInt8 := ps.flatMap Piece.bytes

/-- The bytes of pieces with their holes filled. -/
def linkedCode (ps : List Piece) : List UInt8 := ps.flatMap Piece.linked

theorem length_linkedCode {ps : List Piece} (hps : ∀ p ∈ ps, p.Ok) :
    (linkedCode ps).length = (code ps).length := by
  induction ps with
  | nil => rfl
  | cons p ps ih =>
    have hrest := ih fun q hq => hps q (List.mem_cons_of_mem p hq)
    simp only [linkedCode, code, List.flatMap_cons, List.length_append] at hrest ⊢
    rw [hrest, Piece.length_linked (hps p List.mem_cons_self)]

/-- The holes of pieces that start at `a`. -/
def holes (a : Nat) : List Piece → List Hole
  | [] => []
  | p :: ps => (p.hole.map (Hole.shift a)).toList ++ holes (a + p.bytes.length) ps

/-- A hole filled in memory. -/
def patch (m : Bytes) (h : Hole) : Bytes := m.store h.off (Bytes.le32 (h.fill (m.word32 h.off)))

/-- Holes filled one after the other. -/
def patchAll (m : Bytes) (hs : List Hole) : Bytes := hs.foldl patch m

/-! ## One hole -/

theorem slice_store_within (m : Bytes) (a n off : Nat) (bs : List UInt8)
    (h : off + bs.length ≤ n) : (m.store (a + off) bs).slice a n =
      (m.slice a n).take off ++ bs ++ (m.slice a n).drop (off + bs.length) := by
  obtain ⟨d, rfl⟩ := Nat.exists_eq_add_of_le h
  rw [Bytes.slice_add, Bytes.slice_add, Bytes.slice_store_self,
    Bytes.slice_store_of_disjoint (Or.inl (Nat.le_refl _)),
    Bytes.slice_store_of_disjoint (Or.inr (by omega)), Bytes.take_slice m a (by omega),
    Bytes.drop_slice m a (by omega), Nat.add_sub_cancel_left]

theorem word32_of_slice {m : Bytes} {a n off : Nat} {bs : List UInt8} (h : m.slice a n = bs)
    (hoff : off + 4 ≤ n) : m.word32 (a + off) = dwordAt bs off := by
  have hbyte : ∀ k, k < n → bs.getD k 0 = m (a + k) := by
    intro k hk
    rw [← h, List.getD_eq_getElem?_getD, Bytes.getElem?_slice hk, Option.getD_some]
  simp only [dwordAt, Bytes.word32, Bytes.word16, hbyte off (by omega),
    hbyte (off + 1) (by omega), hbyte (off + 2) (by omega), hbyte (off + 2 + 1) (by omega),
    Nat.add_assoc]

/-- A piece in memory, after its hole has been filled. -/
theorem slice_patch_piece {m : Bytes} {a : Nat} {p : Piece} {h : Hole} (hp : p.Ok)
    (hh : p.hole = some h) (hm : m.slice a p.bytes.length = p.bytes) :
    (patch m (h.shift a)).slice a p.bytes.length = p.linked := by
  have hoff := hp h (hh ▸ rfl)
  rw [patch, Hole.shift, slice_store_within m a _ h.off _ hoff, hm, word32_of_slice hm hoff]
  simp only [Piece.linked, hh, Bytes.length_le32]

theorem patch_of_not_mem {m : Bytes} {h : Hole} {i : Nat} (hi : i < h.off ∨ h.off + 4 ≤ i) :
    patch m h i = m i := Bytes.store_of_not_mem hi

/-! ## All of them -/

/-- Filling the holes of a piece, if it has one. -/
theorem patchAll_piece {m : Bytes} {a : Nat} {p : Piece} (hp : p.Ok)
    (hm : m.slice a p.bytes.length = p.bytes) :
    (patchAll m (p.hole.map (Hole.shift a)).toList).slice a p.bytes.length = p.linked ∧
      ∀ i, i < a ∨ a + p.bytes.length ≤ i →
        patchAll m (p.hole.map (Hole.shift a)).toList i = m i := by
  cases hh : p.hole with
  | none =>
    refine ⟨?_, fun i _ => rfl⟩
    simp only [Piece.linked, hh]
    exact hm
  | some h =>
    have hoff := hp h (hh ▸ rfl)
    refine ⟨slice_patch_piece hp hh hm, fun i hi => patch_of_not_mem ?_⟩
    simp only [Hole.shift]
    omega

/-- Filling the holes of code leaves each piece with its own hole filled, and changes
nothing outside the code. -/
theorem slice_patchAll {ps : List Piece} (hps : ∀ p ∈ ps, p.Ok) : ∀ {m : Bytes} {a : Nat},
    m.slice a (code ps).length = code ps →
      (patchAll m (holes a ps)).slice a (code ps).length = linkedCode ps ∧
        ∀ i, i < a ∨ a + (code ps).length ≤ i → patchAll m (holes a ps) i = m i := by
  induction ps with
  | nil => exact fun _ => ⟨rfl, fun _ _ => rfl⟩
  | cons p ps ih =>
    intro m a hm
    have hp := hps p List.mem_cons_self
    have hlen : (code (p :: ps)).length = p.bytes.length + (code ps).length := List.length_append
    rw [hlen] at hm ⊢
    have hcode : code (p :: ps) = p.bytes ++ code ps := rfl
    rw [hcode, Bytes.slice_add] at hm
    obtain ⟨hhead, htail⟩ := List.append_inj hm (Bytes.length_slice m a _)
    obtain ⟨hfirst, hkeep⟩ := patchAll_piece hp hhead
    have hrest : (patchAll m (p.hole.map (Hole.shift a)).toList).slice (a + p.bytes.length)
        (code ps).length = code ps := by
      refine Eq.trans ?_ htail
      exact Bytes.slice_congr fun k _ => hkeep _ (Or.inr (Nat.le_add_right _ _))
    obtain ⟨hlinked, hframe⟩ := ih (fun q hq => hps q (List.mem_cons_of_mem p hq)) hrest
    have hall : patchAll m (holes a (p :: ps)) =
        patchAll (patchAll m (p.hole.map (Hole.shift a)).toList) (holes (a + p.bytes.length) ps) :=
      List.foldl_append
    rw [hall]
    refine ⟨?_, fun i hi => ?_⟩
    · have hkept : (patchAll (patchAll m (p.hole.map (Hole.shift a)).toList)
          (holes (a + p.bytes.length) ps)).slice a p.bytes.length = p.linked :=
        (Bytes.slice_congr fun k hk => hframe _ (Or.inl (by omega))).trans hfirst
      rw [Bytes.slice_add, hlinked, hkept]
      rfl
    · rw [hframe i (by omega), hkeep i (by omega)]

end RainbowOs.Lib
