import Mathlib.Logic.Function.Basic
import Mathlib.Tactic.Common

/-!
# Paging

`kernel/paging.c`: the identity map of the first 32 MB and the window of
it that ring 3 may touch. `pagingInit_user_iff` says what the tables come
to: a ring-3 access goes through exactly in the window, and lands on the
physical address of the same number.
-/

namespace RainbowOs.Kernel

abbrev pageSize : Nat := 4096
abbrev pagePresent : BitVec 32 := 0x01#32
abbrev pageWrite : BitVec 32 := 0x02#32
abbrev pageUser : BitVec 32 := 0x04#32
abbrev userRegionBase : Nat := 0x200000
abbrev userRegionTop : Nat := 0x300000
abbrev identityMapTables : Nat := 8

/-- `page_directory` and `page_tables`; `addr` is where the tables lie. -/
structure PageTables where
  addr : Nat
  directory : Nat → BitVec 32
  tables : Nat → Nat → BitVec 32

/-- The inner loop of the identity map: one table. -/
def fillTable (t : Nat) (table : Nat → BitVec 32) : Nat → BitVec 32 :=
  (List.range 1024).foldl (fun table i =>
    Function.update table i (BitVec.ofNat 32 ((t * 1024 + i) * pageSize) ||| pagePresent |||
      pageWrite)) table

/-- One round of its outer loop. -/
def mapTable (p : PageTables) (t : Nat) : PageTables :=
  { p with
    tables := Function.update p.tables t (fillTable t (p.tables t))
    directory := Function.update p.directory t
      (BitVec.ofNat 32 (p.addr + t * pageSize) ||| pagePresent ||| pageWrite) }

/-- One round of the loop that marks the ring-3 window. -/
def markUser (p : PageTables) (addr : Nat) : PageTables :=
  let i := addr / pageSize
  { p with
    tables := Function.update p.tables (i / 1024) (Function.update (p.tables (i / 1024)) (i % 1024)
      (p.tables (i / 1024) (i % 1024) ||| pageUser))
    directory := Function.update p.directory (i / 1024) (p.directory (i / 1024) ||| pageUser) }

/-- The addresses that loop takes. -/
def windowPages : List Nat :=
  List.range' userRegionBase ((userRegionTop - userRegionBase) / pageSize) pageSize

/-- `paging_init` -/
def pagingInit (p : PageTables) : PageTables :=
  windowPages.foldl markUser ((List.range identityMapTables).foldl mapTable
    { p with directory := fun _ => 0 })

/-! ## The processor's view -/

namespace PageTables

variable (p : PageTables)

/-- The directory entry of a linear address. -/
def pde (a : Nat) : BitVec 32 := p.directory (a / 4194304)

/-- The table entry of a linear address, in the table its directory entry points to. -/
def pte (a : Nat) : BitVec 32 :=
  p.tables (((p.pde a >>> 12).toNat * pageSize - p.addr) / pageSize) (a / pageSize % 1024)

/-- A ring-3 access to the linear address `a` goes through: both entries are present
and marked for the user. -/
def UserAccess (a : Nat) : Prop :=
  ((p.pde a).getLsbD 0 = true ∧ (p.pde a).getLsbD 2 = true) ∧
    (p.pte a).getLsbD 0 = true ∧ (p.pte a).getLsbD 2 = true

/-- Where the access lands. -/
def physical (a : Nat) : Nat := (p.pte a >>> 12).toNat * pageSize + a % pageSize

end PageTables

/-! ## What the loops leave -/

theorem foldl_update {β : Type} (g : Nat → β) (f : Nat → β) (n i : Nat) :
    (List.range n).foldl (fun f i => Function.update f i (g i)) f i = if i < n then g i else f i := by
  induction n with
  | zero => rfl
  | succ n ih =>
    rw [List.range_succ, List.foldl_append, List.foldl_cons, List.foldl_nil]
    by_cases hi : i = n
    · rw [hi, Function.update_self, if_pos (Nat.lt_succ_self n)]
    · rw [Function.update_of_ne hi, ih]
      by_cases hlt : i < n
      · rw [if_pos hlt, if_pos (Nat.lt_succ_of_lt hlt)]
      · rw [if_neg hlt, if_neg (by omega)]

theorem fillTable_of_lt (t : Nat) (table : Nat → BitVec 32) {i : Nat} (hi : i < 1024) :
    fillTable t table i =
      BitVec.ofNat 32 ((t * 1024 + i) * pageSize) ||| pagePresent ||| pageWrite := by
  unfold fillTable
  rw [foldl_update, if_pos hi]

/-- The identity map, table by table. -/
theorem foldl_mapTable (p : PageTables) (n : Nat) :
    ((List.range n).foldl mapTable p).addr = p.addr ∧
    (∀ d, ((List.range n).foldl mapTable p).directory d =
      if d < n then BitVec.ofNat 32 (p.addr + d * pageSize) ||| pagePresent ||| pageWrite
      else p.directory d) ∧
    ∀ t i, t < n → i < 1024 → ((List.range n).foldl mapTable p).tables t i =
      BitVec.ofNat 32 ((t * 1024 + i) * pageSize) ||| pagePresent ||| pageWrite := by
  induction n with
  | zero => exact ⟨rfl, fun _ => rfl, fun t i ht => absurd ht (Nat.not_lt_zero t)⟩
  | succ n ih =>
    obtain ⟨haddr, hdir, htab⟩ := ih
    rw [List.range_succ, List.foldl_append, List.foldl_cons, List.foldl_nil]
    refine ⟨haddr, fun d => ?_, fun t i ht hi => ?_⟩
    · show Function.update _ n _ d = _
      by_cases hd : d = n
      · rw [hd, Function.update_self, if_pos (Nat.lt_succ_self n), haddr]
      · rw [Function.update_of_ne hd, hdir]
        by_cases hlt : d < n
        · rw [if_pos hlt, if_pos (Nat.lt_succ_of_lt hlt)]
        · rw [if_neg hlt, if_neg (by omega)]
    · show (Function.update ((List.range n).foldl mapTable p).tables n _ t) i = _
      by_cases htn : t = n
      · rw [htn, Function.update_self, fillTable_of_lt n _ hi]
      · rw [Function.update_of_ne htn, htab t i (by omega) hi]

/-- Marking pages sets the user bit of their entries and nothing else. -/
theorem foldl_markUser (p : PageTables) (l : List Nat) :
    (l.foldl markUser p).addr = p.addr ∧
    (∀ d, (l.foldl markUser p).directory d = p.directory d |||
      if ∃ a ∈ l, a / pageSize / 1024 = d then pageUser else 0#32) ∧
    ∀ t i, (l.foldl markUser p).tables t i = p.tables t i |||
      if ∃ a ∈ l, a / pageSize / 1024 = t ∧ a / pageSize % 1024 = i then pageUser else 0#32 := by
  induction l generalizing p with
  | nil =>
    refine ⟨rfl, fun d => ?_, fun t i => ?_⟩
    · rw [if_neg (by simp), BitVec.or_zero]
      rfl
    · rw [if_neg (by simp), BitVec.or_zero]
      rfl
  | cons a l ih =>
    obtain ⟨haddr, hdir, htab⟩ := ih (markUser p a)
    have horor : ∀ x : BitVec 32, x ||| pageUser ||| pageUser = x ||| pageUser := fun x => by
      rw [BitVec.or_assoc, BitVec.or_self]
    rw [List.foldl_cons]
    refine ⟨haddr, fun d => ?_, fun t i => ?_⟩
    · rw [hdir d]
      show Function.update p.directory (a / pageSize / 1024) _ d ||| _ = _
      simp only [List.mem_cons, exists_eq_or_imp]
      by_cases hd : d = a / pageSize / 1024
      · rw [hd, Function.update_self, if_pos (Or.inl rfl)]
        split
        · rw [horor]
        · rw [BitVec.or_zero]
      · have hne : ¬ a / pageSize / 1024 = d := fun h => hd h.symm
        simp only [Function.update_of_ne hd, hne, false_or]
    · rw [htab t i]
      show Function.update p.tables (a / pageSize / 1024) _ t i ||| _ = _
      simp only [List.mem_cons, exists_eq_or_imp]
      by_cases ht : t = a / pageSize / 1024
      · rw [ht, Function.update_self]
        by_cases hi : i = a / pageSize % 1024
        · rw [hi, Function.update_self, if_pos (Or.inl ⟨rfl, rfl⟩)]
          split
          · rw [horor]
          · rw [BitVec.or_zero]
        · have hne : ¬ a / pageSize % 1024 = i := fun h => hi h.symm
          simp only [Function.update_of_ne hi, hne, and_false, false_or]
      · have hne : ¬ a / pageSize / 1024 = t := fun h => ht h.symm
        simp only [Function.update_of_ne ht, hne, false_and, false_or]

theorem mem_windowPages {a : Nat} :
    a ∈ windowPages ↔ userRegionBase ≤ a ∧ a < userRegionTop ∧ a % pageSize = 0 := by
  unfold windowPages
  rw [List.mem_range']
  simp only [userRegionBase, userRegionTop, pageSize]
  constructor
  · rintro ⟨i, hi, rfl⟩
    omega
  · rintro ⟨h1, h2, h3⟩
    exact ⟨(a - 0x200000) / 4096, by omega, by omega⟩

/-! ## The entries -/

/-- The frame and the two low bits of an entry made of a frame address and flags. -/
theorem entry_bits {k : Nat} (hk : k < 1048576) (user : Bool) {e : BitVec 32}
    (he : e = BitVec.ofNat 32 (k * pageSize) ||| pagePresent ||| pageWrite |||
      if user then pageUser else 0#32) :
    (e >>> 12).toNat = k ∧ e.getLsbD 0 = true ∧ e.getLsbD 2 = user := by
  subst he
  have hbit : (BitVec.ofNat 32 (k * pageSize)).getLsbD 2 = false := by
    rw [BitVec.getLsbD_ofNat]
    have : (k * pageSize).testBit 2 = false := by
      rw [Nat.testBit_eq_decide_div_mod_eq]
      refine decide_eq_false ?_
      simp only [pageSize]
      omega
    rw [this, Bool.and_false]
  have hframe : (BitVec.ofNat 32 (k * pageSize) >>> 12).toNat = k := by
    rw [BitVec.toNat_ushiftRight, BitVec.toNat_ofNat, Nat.shiftRight_eq_div_pow]
    simp only [pageSize]
    omega
  have hflags : ∀ x y z : BitVec 32, y >>> 12 = 0#32 → (x ||| y ||| z) >>> 12 = (x ||| z) >>> 12 := by
    intro x y z hy
    rw [BitVec.ushiftRight_or_distrib, BitVec.ushiftRight_or_distrib, hy, BitVec.or_zero,
      ← BitVec.ushiftRight_or_distrib]
  refine ⟨?_, ?_, ?_⟩
  · rw [hflags _ pageWrite _ (by decide), hflags _ pagePresent _ (by decide),
      BitVec.ushiftRight_or_distrib]
    have hz : (if user then pageUser else 0#32) >>> 12 = 0#32 := by cases user <;> decide
    rw [hz, BitVec.or_zero, hframe]
  · simp only [BitVec.getLsbD_or]
    have hp : (pagePresent : BitVec 32).getLsbD 0 = true := by decide
    rw [hp]
    simp only [Bool.or_true, Bool.true_or]
  · simp only [BitVec.getLsbD_or, hbit]
    cases user <;> decide

theorem pagingInit_entries (p : PageTables) :
    (pagingInit p).addr = p.addr ∧
    (∀ d, (pagingInit p).directory d =
      (if d < identityMapTables then
        BitVec.ofNat 32 (p.addr + d * pageSize) ||| pagePresent ||| pageWrite else 0#32) |||
      if d = 0 then pageUser else 0#32) ∧
    ∀ i, i < 1024 → (pagingInit p).tables 0 i =
      BitVec.ofNat 32 (i * pageSize) ||| pagePresent ||| pageWrite |||
        if decide (userRegionBase ≤ i * pageSize ∧ i * pageSize < userRegionTop)
          then pageUser else 0#32 := by
  obtain ⟨haddr, hdir, htab⟩ := foldl_mapTable { p with directory := fun _ => 0 } identityMapTables
  obtain ⟨haddr', hdir', htab'⟩ := foldl_markUser
    ((List.range identityMapTables).foldl mapTable { p with directory := fun _ => 0 }) windowPages
  refine ⟨haddr'.trans haddr, fun d => ?_, fun i hi => ?_⟩
  · have hiff : (∃ a ∈ windowPages, a / pageSize / 1024 = d) ↔ d = 0 := by
      constructor
      · rintro ⟨a, ha, rfl⟩
        have hwin := mem_windowPages.mp ha
        simp only [userRegionBase, userRegionTop, pageSize] at hwin ⊢
        omega
      · rintro rfl
        exact ⟨userRegionBase, mem_windowPages.mpr (by decide), by decide⟩
    unfold pagingInit
    rw [hdir' d, hdir d]
    simp only [hiff]
    rfl
  · have hiff : (∃ a ∈ windowPages, a / pageSize / 1024 = 0 ∧ a / pageSize % 1024 = i) ↔
        userRegionBase ≤ i * pageSize ∧ i * pageSize < userRegionTop := by
      constructor
      · rintro ⟨a, ha, hd, rfl⟩
        have hwin := mem_windowPages.mp ha
        simp only [userRegionBase, userRegionTop, pageSize] at hwin hd ⊢
        omega
      · intro hwin
        refine ⟨i * pageSize, mem_windowPages.mpr ⟨hwin.1, hwin.2, Nat.mul_mod_left i pageSize⟩, ?_⟩
        simp only [pageSize]
        omega
    unfold pagingInit
    rw [htab' 0 i, htab 0 i (by decide) hi, Nat.zero_mul, Nat.zero_add]
    simp only [hiff, decide_eq_true_eq]

/-- What the tables of `paging_init` come to: ring 3 reaches exactly its window, and the
window is mapped to itself. -/
theorem pagingInit_user_iff (p : PageTables) (halign : p.addr % pageSize = 0)
    (hfit : p.addr + identityMapTables * pageSize ≤ 4294967296) {a : Nat} :
    ((pagingInit p).UserAccess a ↔ userRegionBase ≤ a ∧ a < userRegionTop) ∧
      ((pagingInit p).UserAccess a → (pagingInit p).physical a = a) := by
  obtain ⟨haddr, hdir, htab⟩ := pagingInit_entries p
  by_cases hlow : a / 4194304 = 0
  · have hbase : p.addr / pageSize * pageSize = p.addr := by
      simp only [pageSize] at halign ⊢
      omega
    -- the directory entry is the first, and points to the first table
    have hpde : (pagingInit p).pde a = BitVec.ofNat 32 (p.addr / pageSize * pageSize) |||
        pagePresent ||| pageWrite ||| if true then pageUser else 0#32 := by
      unfold PageTables.pde
      rw [hlow, hdir 0, if_pos (by decide), if_pos rfl, Nat.zero_mul, Nat.add_zero, hbase, if_pos rfl]
    obtain ⟨hframe, h0, h2⟩ := entry_bits
      (by simp only [pageSize, identityMapTables] at hfit ⊢; omega) true hpde
    have hidx : a / pageSize % 1024 = a / pageSize := by
      simp only [pageSize]
      omega
    have hpte : (pagingInit p).pte a = BitVec.ofNat 32 (a / pageSize * pageSize) ||| pagePresent |||
        pageWrite ||| if decide (userRegionBase ≤ a / pageSize * pageSize ∧
          a / pageSize * pageSize < userRegionTop) then pageUser else 0#32 := by
      unfold PageTables.pte
      rw [hframe, haddr, hbase, Nat.sub_self, Nat.zero_div, hidx,
        htab _ (by simp only [pageSize]; omega)]
    obtain ⟨hframe', h0', h2'⟩ := entry_bits (by simp only [pageSize]; omega) _ hpte
    have hwin : (userRegionBase ≤ a / pageSize * pageSize ∧ a / pageSize * pageSize < userRegionTop) ↔
        userRegionBase ≤ a ∧ a < userRegionTop := by
      simp only [userRegionBase, userRegionTop, pageSize]
      omega
    have hphys : a / pageSize * pageSize + a % pageSize = a := Nat.div_add_mod' a pageSize
    unfold PageTables.UserAccess PageTables.physical
    rw [h0, h2, h0', h2', hframe', hphys, decide_eq_true_eq, hwin]
    simp
  · have hnot : ¬ (pagingInit p).UserAccess a := by
      rintro ⟨⟨_, h2⟩, _⟩
      unfold PageTables.pde at h2
      rw [hdir, if_neg hlow, BitVec.or_zero] at h2
      split at h2
      · next hlt =>
        have hmul : p.addr + a / 4194304 * pageSize =
            (p.addr / pageSize + a / 4194304) * pageSize := by
          simp only [pageSize] at halign ⊢
          omega
        have hbits := entry_bits (k := p.addr / pageSize + a / 4194304)
          (by simp only [pageSize, identityMapTables] at *; omega) false rfl
        rw [if_neg Bool.false_ne_true, BitVec.or_zero, ← hmul] at hbits
        exact Bool.false_ne_true (hbits.2.2.symm.trans h2)
      · rw [BitVec.getLsbD_zero] at h2
        exact Bool.false_ne_true h2
    refine ⟨⟨fun h => absurd h hnot, fun h => ?_⟩, fun h => absurd h hnot⟩
    simp only [userRegionBase, userRegionTop] at h
    omega

end RainbowOs.Kernel
