import Mathlib.Tactic.Common

/-!
# 8.3 names

`fat12.c` keeps a file under eleven bytes: eight of name and three of
extension, upper case, padded with blanks. `nameTo83` folds what a caller
writes into that form and `formatName` unfolds it for display. Everything
the driver does with a name it does with the folded one, so the folded
name is the key of a file.
-/

namespace RainbowOs.Fat12

/-- A C string: the bytes before the terminating NUL. -/
def CString : Type := { s : List UInt8 // (0 : UInt8) ∉ s }

/-- `' '` -/
abbrev blank : UInt8 := 0x20

/-- The case fold of `name_to_83`: `if (c >= 'a' && c <= 'z') c -= 32`. -/
def upper (c : UInt8) : UInt8 := if 0x61 ≤ c ∧ c ≤ 0x7A then c - 32 else c

/-- The case fold of `format_name`. -/
def lower (c : UInt8) : UInt8 := if 0x41 ≤ c ∧ c ≤ 0x5A then c + 32 else c

/-- Fill up to `n` bytes with blanks. -/
def padTo (n : Nat) (bs : List UInt8) : List UInt8 := bs ++ List.replicate (n - bs.length) blank

/-- `name_to_83`: up to eight bytes before the first dot and up to three
after it, folded to upper case and padded with blanks. -/
def nameTo83 (name : CString) : List UInt8 :=
  let dot := name.val.idxOf? 0x2E
  let limit := min (dot.getD name.val.length) 8
  let ext := match dot with
    | some d => ((name.val.drop (d + 1)).take 3).map upper
    | none => []
  padTo 8 ((name.val.take limit).map upper) ++ padTo 3 ext

/-- `format_name`: the two parts up to their first blank, folded to lower
case, with a dot between them when there is an extension. -/
def formatName (raw : List UInt8) : List UInt8 :=
  ((raw.take 8).takeWhile (· ≠ blank)).map lower ++
    if raw.getD 8 0 ≠ blank then
      0x2E :: (((raw.drop 8).take 3).takeWhile (· ≠ blank)).map lower
    else []

theorem length_padTo {n : Nat} {bs : List UInt8} (h : bs.length ≤ n) : (padTo n bs).length = n := by
  rw [padTo, List.length_append, List.length_replicate]
  omega

/-- A folded name has eleven bytes. -/
theorem length_nameTo83 (name : CString) : (nameTo83 name).length = 11 := by
  unfold nameTo83
  rw [List.length_append, length_padTo, length_padTo]
  · split <;> simp only [List.length_map, List.length_take, List.length_nil] <;> omega
  · rw [List.length_map, List.length_take]
    omega

/-- Every byte of a folded name is a blank or a folded byte of the name. -/
theorem mem_nameTo83 {name : CString} {b : UInt8} (hb : b ∈ nameTo83 name) :
    b = blank ∨ ∃ c ∈ name.val, b = upper c := by
  have hpad : ∀ {n : Nat} {l : List UInt8}, (∀ c ∈ l, c ∈ name.val) →
      b ∈ padTo n (l.map upper) → b = blank ∨ ∃ c ∈ name.val, b = upper c := by
    intro n l hl hmem
    rcases List.mem_append.mp hmem with hmem | hmem
    · obtain ⟨c, hc, rfl⟩ := List.mem_map.mp hmem
      exact Or.inr ⟨c, hl c hc, rfl⟩
    · exact Or.inl (List.mem_replicate.mp hmem).2
  unfold nameTo83 at hb
  rcases List.mem_append.mp hb with hb | hb
  · exact hpad (fun c hc => List.mem_of_mem_take hc) hb
  · split at hb
    · exact hpad (fun c hc => List.mem_of_mem_drop (List.mem_of_mem_take hc)) hb
    · exact hpad (l := []) (fun c hc => absurd hc List.not_mem_nil) hb

/-- Folding to upper case makes no byte outside `'A'..'Z'`. -/
theorem upper_ne {b c : UInt8} (hc : c ≠ b) (hb : ¬ (0x41 ≤ b ∧ b ≤ 0x5A)) : upper c ≠ b := by
  unfold upper
  split
  · next h =>
    rintro rfl
    have h1 := UInt8.le_iff_toNat_le.mp h.1
    have h2 := UInt8.le_iff_toNat_le.mp h.2
    have h61 : (0x61 : UInt8).toNat = 97 := rfl
    have h7A : (0x7A : UInt8).toNat = 122 := rfl
    have h32 : (32 : UInt8).toNat = 32 := rfl
    have hsub : (c - 32).toNat = c.toNat - 32 :=
      UInt8.toNat_sub_of_le _ _ (UInt8.le_iff_toNat_le.mpr (by omega))
    apply hb
    rw [UInt8.le_iff_toNat_le, UInt8.le_iff_toNat_le, hsub]
    have h41 : (0x41 : UInt8).toNat = 65 := rfl
    have h5A : (0x5A : UInt8).toNat = 90 := rfl
    omega
  · exact hc

/-- A folded name contains no NUL, so it never looks like the end of the
directory. -/
theorem nameTo83_ne_zero (name : CString) : ∀ b ∈ nameTo83 name, b ≠ 0 := by
  intro b hb
  rcases mem_nameTo83 hb with rfl | ⟨c, hc, rfl⟩
  · decide
  · exact upper_ne (fun h => name.property (h ▸ hc)) (by decide)

/-- Printable ASCII, 0x20..0x7E. -/
def CString.Printable (name : CString) : Prop := ∀ b ∈ name.val, 0x20 ≤ b ∧ b ≤ 0x7E

/-- A folded printable name never looks like a deleted entry. -/
theorem nameTo83_ne_deleted {name : CString} (h : name.Printable) :
    ∀ b ∈ nameTo83 name, b ≠ 0xE5 := by
  intro b hb
  rcases mem_nameTo83 hb with rfl | ⟨c, hc, rfl⟩
  · decide
  · exact upper_ne (fun heq => absurd (heq ▸ (h c hc).2) (by decide)) (by decide)

/-- A folded name has a first byte. -/
theorem headD_nameTo83_mem (name : CString) : (nameTo83 name).headD 0 ∈ nameTo83 name := by
  have hlen := length_nameTo83 name
  cases hn : nameTo83 name with
  | nil =>
    rw [hn] at hlen
    exact absurd hlen (by decide)
  | cons b bs => exact List.mem_cons_self

/-- Only the first byte of a name decides about the first of the folded one. -/
theorem headD_nameTo83 (name : CString) : (nameTo83 name).headD 0 =
    match name.val with
    | [] => blank
    | c :: _ => if c = 0x2E then blank else upper c := by
  obtain ⟨s, hs⟩ := name
  cases s with
  | nil => rfl
  | cons c cs =>
    by_cases hdot : c = 0x2E
    · subst hdot
      simp [nameTo83, padTo, List.idxOf?_cons, List.replicate_succ]
    · have hlimit : ∃ k, min (((c :: cs).idxOf? 0x2E).getD (c :: cs).length) 8 = k + 1 := by
        rw [List.idxOf?_cons, if_neg (by simpa using hdot)]
        cases cs.idxOf? 0x2E with
        | none => exact ⟨min cs.length 7, by simp only [Option.map_none, Option.getD_none, List.length_cons]; omega⟩
        | some d => exact ⟨min d 7, by simp only [Option.map_some, Option.getD_some]; omega⟩
      obtain ⟨k, hk⟩ := hlimit
      unfold nameTo83
      dsimp only
      rw [hk, List.take_succ_cons, List.map_cons, padTo, List.cons_append, List.cons_append, List.headD_cons,
        if_neg hdot]

end RainbowOs.Fat12
