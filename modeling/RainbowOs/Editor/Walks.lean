import RainbowOs.Editor.Undo

/-!
# Undoing and redoing

A run of edits records entries that lead from the text before it to the text
after it. Where none of them has been lost, the texts at the boundaries are
the places of a history, and `buf_undo` and `buf_redo` walk along it.
-/

namespace RainbowOs.Editor

open RainbowOs.Lib RainbowOs.Lib.History

/-- What is ahead after entries have been recorded. -/
def aheadOf (es : List UndoEntry) (f : List (Option UndoEntry)) : List (Option UndoEntry) :=
  if es = [] then f else []

/-- The past with more entries, as far as there is room for them. -/
def pushed (es : List UndoEntry) (p : List (Option UndoEntry)) : List (Option UndoEntry) :=
  (es.reverse.map some ++ p).take undoStackSize

section Recording

variable {b : Buffer} {p f : List (Option UndoEntry)} {t : List UInt8} {c : BufCall}

theorem LogAt.length_le {rep : Bool} (h : LogAt b rep p f t) : p.length ≤ undoStackSize := by
  rw [← h.undoCount]
  exact Nat.le_of_add_right_le h.ok.count

theorem pushed_nil (h : p.length ≤ undoStackSize) : pushed [] p = p := List.take_of_length_le h

theorem pushed_pushed (es es' : List UndoEntry) (p : List (Option UndoEntry)) :
    pushed es' (pushed es p) = pushed (es ++ es') p := by
  unfold pushed
  have hmin : min (undoStackSize - (es'.reverse.map some).length) undoStackSize =
      undoStackSize - (es'.reverse.map some).length := Nat.min_eq_left (Nat.sub_le _ _)
  rw [List.reverse_append, List.map_append, List.append_assoc, List.take_append, List.take_take, hmin,
    ← List.take_append]

theorem aheadOf_aheadOf (es es' : List UndoEntry) (f : List (Option UndoEntry)) :
    aheadOf es' (aheadOf es f) = aheadOf (es ++ es') f := by
  unfold aheadOf
  by_cases h : es = []
  · rw [if_pos h, h, List.nil_append]
  · rw [if_neg h, if_neg (List.append_ne_nil_of_left_ne_nil h es'), ite_self]

/-- One edit records one entry. -/
theorem LogAt.push (h : LogAt b false p f t) {b' : Buffer} {e : UndoEntry} {t' : List UInt8}
    (he : e.Step t t') (hlog : b'.log = (b.undoPush e.type e.pos e.ch).log) (hhas : b'.Has t') :
    LogAt b' false (pushed [e] p) (aheadOf [e] f) t' := by
  obtain ⟨hok, hrep, hpast, hfuture⟩ := undoPush_log h.ok h.on e.type e.pos e.ch
  have htype : ¬e.type = .boundary := by
    intro htype
    rw [UndoEntry.Step, htype] at he
    exact he
  refine ⟨hok.congr hlog, (replaying_congr hlog).trans hrep, ?_, (future_congr hlog).trans hfuture, hhas⟩
  rw [past_congr hlog, hpast, h.past]
  show (UndoEntry.toOption e :: p).take undoStackSize = _
  rw [toOption_edit htype]
  rfl

theorem LogAt.stay (h : LogAt b false p f t) {b' : Buffer} (hlog : b'.log = b.log) (hhas : b'.Has t) :
    LogAt b' false (pushed [] p) (aheadOf [] f) t := by
  rw [pushed_nil h.length_le]
  exact h.entry hlog hhas

theorem inserted_at (l r : List UInt8) (c : UInt8) (hroom : l.length + r.length < bufferSize) :
    Inserted l.length c (l ++ r) (l ++ c :: r) := by
  refine ⟨?_, ?_, ?_⟩
  · rw [List.length_append]
    exact Nat.le_add_right _ _
  · rwa [List.length_append]
  · rw [List.take_left, List.drop_left]

/-- An edit, and what it records. -/
theorem LogAt.call (h : LogAt b false p f t) (hc : c.IsEdit) :
    ∃ t', LogAt (c.run b) false (pushed (c.entries b) p) (aheadOf (c.entries b) f) t' ∧
      Chain UndoEntry.Step (c.entries b) t t' := by
  obtain ⟨l, r, hshows, rfl⟩ := h.has
  have hstart := hshows.gapStart
  have hend := hshows.gapEnd
  have hlength := hshows.length_le
  cases c with
  | insert c =>
    by_cases hroom : l.length + r.length < bufferSize
    · obtain ⟨hinsert, hlog⟩ := hshows.insert c hroom
      have hstep : UndoEntry.Step ⟨.insert, l.length, c⟩ (l ++ r) (l ++ c :: r) := inserted_at l r c hroom
      have hhas := hinsert.has
      rw [List.append_assoc] at hhas
      rw [BufCall.entries_insert, if_pos (by omega), hstart]
      exact ⟨_, h.push hstep hlog hhas, _, hstep, rfl⟩
    · rw [BufCall.entries_insert, if_neg (by omega), BufCall.run, hshows.insert_full hroom]
      exact ⟨_, h.stay rfl h.has, rfl⟩
  | deleteBack =>
    rcases List.eq_nil_or_concat l with rfl | ⟨l, c, rfl⟩
    · rw [List.length_nil] at hstart
      rw [BufCall.entries_deleteBack, if_neg (by omega), BufCall.run, hshows.deleteBack_nil]
      exact ⟨_, h.stay rfl h.has, rfl⟩
    · rw [List.concat_eq_append] at *
      rw [List.length_append, List.length_singleton] at hstart hlength
      obtain ⟨hdelete, hlog⟩ := hshows.deleteBack
      have hread : b.buf l.length = c := by
        have hleft := hshows.left
        rw [hstart, slice_snoc] at hleft
        exact (List.cons.inj (List.append_inj' hleft rfl).2).1
      have hstep : UndoEntry.Step ⟨.delete, l.length, c⟩ (l ++ [c] ++ r) (l ++ r) := by
        rw [List.append_assoc]
        exact inserted_at l r c (by omega)
      rw [BufCall.entries_deleteBack, if_pos (by omega), show b.gapStart - 1 = l.length by omega, hread]
      exact ⟨_, h.push hstep hlog hdelete.has, _, hstep, rfl⟩
  | deleteFwd =>
    cases r with
    | nil =>
      rw [List.length_nil] at hend
      rw [BufCall.entries_deleteFwd, if_neg (by omega), BufCall.run, hshows.deleteFwd_nil]
      exact ⟨_, h.stay rfl h.has, rfl⟩
    | cons c r =>
      rw [List.length_cons] at hend hlength
      obtain ⟨hdelete, hlog⟩ := hshows.deleteFwd
      have hread : b.buf b.gapEnd = c := by
        have hright := hshows.right
        rw [show bufferSize - b.gapEnd = bufferSize - (b.gapEnd + 1) + 1 by omega,
          Bytes.slice_succ] at hright
        exact (List.cons.inj hright).1
      have hstep : UndoEntry.Step ⟨.delete, l.length, c⟩ (l ++ c :: r) (l ++ r) :=
        inserted_at l r c (by omega)
      rw [BufCall.entries_deleteFwd, if_pos (by omega), hstart, hread]
      exact ⟨_, h.push hstep hlog hdelete.has, _, hstep, rfl⟩
  | moveLeft =>
    refine ⟨_, h.stay (log_moveLeft b) ?_, rfl⟩
    rcases List.eq_nil_or_concat l with rfl | ⟨l, c, rfl⟩
    · rw [BufCall.run, hshows.moveLeft_nil]
      exact hshows.has
    · rw [List.concat_eq_append] at *
      have hhas := hshows.moveLeft.has
      rwa [List.append_cons] at hhas
  | moveRight =>
    refine ⟨_, h.stay (log_moveRight b) ?_, rfl⟩
    cases r with
    | nil =>
      rw [BufCall.run, hshows.moveRight_nil]
      exact hshows.has
    | cons c r =>
      have hhas := hshows.moveRight.has
      rwa [← List.append_cons] at hhas
  | moveTo pos =>
    obtain ⟨hmoved, hlog⟩ := hshows.moveTo pos
    refine ⟨_, h.stay hlog ?_, rfl⟩
    have hhas := hmoved.has
    rwa [List.take_append_drop] at hhas
  | undoBoundary => exact hc.elim
  | undo => exact hc.elim
  | redo => exact hc.elim

/-- A run of edits, and what it records. -/
theorem LogAt.calls (h : LogAt b false p f t) {calls : List BufCall} (hcalls : ∀ c ∈ calls, c.IsEdit) :
    ∃ t', LogAt (b.runs calls) false (pushed (recorded b calls) p) (aheadOf (recorded b calls) f) t' ∧
      Chain UndoEntry.Step (recorded b calls) t t' := by
  induction calls generalizing b p f t with
  | nil => exact ⟨t, h.stay rfl h.has, rfl⟩
  | cons c calls ih =>
    obtain ⟨t₁, h₁, hchain₁⟩ := h.call (hcalls c List.mem_cons_self)
    obtain ⟨t', h', hchain⟩ := ih h₁ fun d hd => hcalls d (List.mem_cons_of_mem c hd)
    rw [pushed_pushed, aheadOf_aheadOf] at h'
    exact ⟨t', h', hchain₁.append hchain⟩

end Recording

/-! ## Groups of edits -/

/-- The groups with a boundary between each two. -/
def separated : List (List BufCall) → List BufCall
  | [] => []
  | [g] => g
  | g :: gs => g ++ .undoBoundary :: separated gs

/-- The texts after each group that records something. -/
def changes : Buffer → List (List BufCall) → List (List UInt8)
  | _, [] => []
  | b, g :: gs =>
    (if recorded b g = [] then [] else [(b.runs g).text]) ++ changes (b.runs g).bufUndoBoundary gs

/-- A function called so many times, with what it returns. -/
def times (f : Buffer → Bool × Buffer) : Nat → Buffer → List Bool × Buffer
  | 0, b => ([], b)
  | n + 1, b => ((f b).1 :: (times f n (f b).2).1, (times f n (f b).2).2)

/-- A place of the history that the log is. -/
abbrev TextPlace (p f : List (Option UndoEntry)) (before : List (List UInt8)) (t : List UInt8)
    (after : List (List UInt8)) : Prop :=
  Place (Unchain UndoEntry.Step) (Chain UndoEntry.Step) p f before t after

/-- A buffer at a place of its history. -/
def Buffer.Stands (b : Buffer) (before : List (List UInt8)) (t : List UInt8)
    (after : List (List UInt8)) : Prop :=
  ∃ p f, LogAt b false p f t ∧ TextPlace p f before t after

section Standing

variable {b : Buffer} {before after : List (List UInt8)} {t c : List UInt8}

theorem Buffer.Stands.undo (h : b.Stands (c :: before) t after) :
    b.bufUndo.1 = true ∧ b.bufUndo.2.Stands before c (t :: after) := by
  obtain ⟨p, f, hlog, hplace⟩ := h
  obtain ⟨hback, hne, hplace'⟩ := hplace.walk fun _ _ _ h => h.reverse
  have hskip : skip p ≠ [] := by
    intro hnil
    rw [hnil] at hne
    exact hne rfl
  obtain ⟨hret, hlog'⟩ := hlog.bufUndo hback hskip
  exact ⟨hret, _, _, hlog', hplace'⟩

theorem Buffer.Stands.redo (h : b.Stands before t (c :: after)) :
    b.bufRedo.1 = true ∧ b.bufRedo.2.Stands (t :: before) c after := by
  obtain ⟨p, f, hlog, hplace⟩ := h
  obtain ⟨hforward, hne, hplace'⟩ := hplace.swap.walk fun _ _ _ h => Chain.reverse h
  have hskip : skip f ≠ [] := by
    intro hnil
    rw [hnil] at hne
    exact hne rfl
  obtain ⟨hret, hlog'⟩ := hlog.bufRedo hforward hskip
  exact ⟨hret, _, _, hlog', hplace'.swap⟩

theorem Buffer.Stands.text (h : b.Stands before t after) : b.text = t := by
  obtain ⟨p, f, hlog, -⟩ := h
  exact hlog.has.text

/-- A buffer that shows the text of an index in a list of texts, the others being before it and
after it. -/
def Buffer.StandsAt (b : Buffer) (texts : List (List UInt8)) (i : Nat) : Prop :=
  ∃ before t after, b.Stands before t after ∧ texts = before.reverse ++ t :: after ∧ i = before.length

variable {texts : List (List UInt8)} {i : Nat}

theorem Buffer.StandsAt.text (h : b.StandsAt texts i) : texts[i]? = some b.text := by
  obtain ⟨before, t, after, hstands, rfl, rfl⟩ := h
  rw [hstands.text, List.getElem?_append_right (Nat.le_of_eq List.length_reverse), List.length_reverse,
    Nat.sub_self, List.getElem?_cons_zero]

theorem Buffer.StandsAt.undo (h : b.StandsAt texts (i + 1)) :
    b.bufUndo.1 = true ∧ b.bufUndo.2.StandsAt texts i := by
  obtain ⟨before, t, after, hstands, rfl, hi⟩ := h
  cases before with
  | nil => cases hi
  | cons c before =>
    obtain ⟨hret, hstands'⟩ := hstands.undo
    refine ⟨hret, before, c, t :: after, hstands', ?_, Nat.succ_inj.mp hi⟩
    rw [List.reverse_cons, List.append_assoc, List.singleton_append]

theorem Buffer.StandsAt.redo (h : b.StandsAt texts i) (hi : i + 1 < texts.length) :
    b.bufRedo.1 = true ∧ b.bufRedo.2.StandsAt texts (i + 1) := by
  obtain ⟨before, t, after, hstands, rfl, rfl⟩ := h
  cases after with
  | nil =>
    rw [List.length_append, List.length_reverse, List.length_singleton] at hi
    exact absurd hi (Nat.lt_irrefl _)
  | cons c after =>
    obtain ⟨hret, hstands'⟩ := hstands.redo
    refine ⟨hret, t :: before, c, after, hstands', ?_, rfl⟩
    rw [List.reverse_cons, List.append_assoc, List.singleton_append]

theorem Buffer.StandsAt.undo_times {k : Nat} (h : b.StandsAt texts (i + k)) :
    (times Buffer.bufUndo k b).1 = List.replicate k true ∧
      (times Buffer.bufUndo k b).2.StandsAt texts i := by
  induction k generalizing b with
  | zero => exact ⟨rfl, h⟩
  | succ k ih =>
    obtain ⟨hret, h'⟩ := h.undo
    obtain ⟨hrets, h''⟩ := ih h'
    exact ⟨by rw [times, hret, hrets, List.replicate_succ], h''⟩

theorem Buffer.StandsAt.redo_times {j : Nat} (h : b.StandsAt texts i) (hj : i + j < texts.length) :
    (times Buffer.bufRedo j b).1 = List.replicate j true ∧
      (times Buffer.bufRedo j b).2.StandsAt texts (i + j) := by
  induction j generalizing b i with
  | zero => exact ⟨rfl, h⟩
  | succ j ih =>
    obtain ⟨hret, h'⟩ := h.redo (by omega)
    obtain ⟨hrets, h''⟩ := ih h' (by omega)
    refine ⟨by rw [times, hret, hrets, List.replicate_succ], ?_⟩
    rwa [show i + (j + 1) = i + 1 + j by omega]

end Standing

/-! ## The texts of a run -/

section Groups

variable {b : Buffer} {p : List (Option UndoEntry)} {before : List (List UInt8)} {t : List UInt8}

/-- A buffer that ends its history, after a boundary or at the start. -/
structure Newest (b : Buffer) (p : List (Option UndoEntry)) (before : List (List UInt8))
    (t : List UInt8) : Prop where
  log : LogAt b false p [] t
  trail : Trail (Unchain UndoEntry.Step) p t before

theorem Newest.stands (h : Newest b p before t) : b.Stands before t [] :=
  ⟨p, [], h.log, h.trail, rfl, fun hm => not_marked_nil hm.2, .inr (.inl rfl)⟩

/-- A group of edits, where none of the entries is lost. -/
theorem Newest.group (h : Newest b p before t) (hclosed : Closed p) {g : List BufCall}
    (hg : ∀ c ∈ g, c.IsEdit) (hroom : (recorded b g).length + p.length ≤ undoStackSize) :
    ∃ t', Newest (b.runs g) ((recorded b g).reverse.map some ++ p)
        (if recorded b g = [] then before else t :: before) t' ∧
      (recorded b g = [] → t' = t) := by
  obtain ⟨t', hlog, hchain⟩ := h.log.calls hg
  have hpushed : pushed (recorded b g) p = (recorded b g).reverse.map some ++ p := by
    refine List.take_of_length_le ?_
    rw [List.length_append, List.length_map, List.length_reverse]
    exact hroom
  have hahead : aheadOf (recorded b g) [] = [] := ite_self _
  rw [hpushed, hahead] at hlog
  generalize recorded b g = es at *
  by_cases hnil : es = []
  · subst hnil
    obtain rfl : t = t' := hchain
    exact ⟨t, ⟨hlog, h.trail⟩, fun _ => rfl⟩
  · refine ⟨t', ⟨hlog, ?_⟩, fun h => absurd h hnil⟩
    rw [if_neg hnil]
    exact Trail.cons (by simpa using hnil) hclosed hchain.reverse h.trail

/-- A boundary, where it loses no entry. -/
theorem Newest.boundary (h : Newest b p before t) (hroom : (mark p).length ≤ undoStackSize) :
    Newest b.bufUndoBoundary (mark p) before t := by
  have hlog := h.log.boundary
  have hahead : aheadOfMark p ([] : List (Option UndoEntry)) = [] := by
    cases p with
    | nil => rfl
    | cons x p => cases x <;> rfl
  rw [List.take_of_length_le hroom, hahead] at hlog
  exact ⟨hlog, h.trail.mark⟩

theorem length_mark (h : LogAt b false p [] t) :
    (mark p).length = (BufCall.undoBoundary.entries b).length + p.length := by
  have hmarked := marked_past_iff (b := b)
  have hcount := h.undoCount
  rw [h.past] at hmarked
  rw [BufCall.entries_undoBoundary]
  cases p with
  | nil =>
    rw [List.length_nil] at hcount
    rw [if_pos (.inl hcount)]
    rfl
  | cons x p =>
    cases x with
    | none =>
      rw [if_pos (.inr (hmarked.mp rfl).2)]
      exact (Nat.zero_add _).symm
    | some e =>
      rw [List.length_cons] at hcount
      rw [if_neg]
      · exact Nat.add_comm _ 1
      · rintro (hzero | htype)
        · omega
        · exact not_marked_some_cons e p (hmarked.mpr ⟨by omega, htype⟩)

theorem recorded_append (b : Buffer) (g g' : List BufCall) :
    recorded b (g ++ g') = recorded b g ++ recorded (b.runs g) g' := by
  induction g generalizing b with
  | nil => rfl
  | cons c g ih =>
    rw [List.cons_append, recorded, ih, recorded, List.append_assoc]
    rfl

theorem runs_append (b : Buffer) (g g' : List BufCall) : b.runs (g ++ g') = (b.runs g).runs g' :=
  List.foldl_append

/-- The texts, with those of one group more. -/
theorem texts_group {g : List BufCall} {t' : List UInt8} {rest : List (List UInt8)}
    (ht : (b.runs g).text = t') (hsame : recorded b g = [] → t' = t) :
    (if recorded b g = [] then before else t :: before).reverse ++ t' :: rest =
      before.reverse ++ t :: ((if recorded b g = [] then [] else [(b.runs g).text]) ++ rest) := by
  split
  · next hnil => rw [hsame hnil, List.nil_append]
  · rw [ht, List.reverse_cons, List.append_assoc, List.singleton_append, List.singleton_append]

/-- All groups, where none of the entries is lost. -/
theorem Newest.groups {gs : List (List BufCall)} (h : Newest b p before t) (hclosed : Closed p)
    (hgs : ∀ g ∈ gs, ∀ c ∈ g, c.IsEdit)
    (hroom : (recorded b (separated gs)).length + p.length ≤ undoStackSize) :
    ∃ p' before' t', Newest (b.runs (separated gs)) p' before' t' ∧
      before'.reverse ++ [t'] = before.reverse ++ t :: changes b gs := by
  induction gs generalizing b p before t with
  | nil => exact ⟨p, before, t, h, rfl⟩
  | cons g gs ih =>
    have hg := hgs g List.mem_cons_self
    cases gs with
    | nil =>
      obtain ⟨t', h', hsame⟩ := h.group hclosed hg hroom
      exact ⟨_, _, t', h', texts_group h'.log.has.text hsame⟩
    | cons g' gs =>
      have hsplit : separated (g :: g' :: gs) = g ++ .undoBoundary :: separated (g' :: gs) := rfl
      rw [hsplit, recorded_append, recorded, List.length_append, List.length_append] at hroom
      obtain ⟨t₁, h₁, hsame⟩ := h.group hclosed hg (by omega)
      have hmark := length_mark h₁.log
      have hlength : ((recorded b g).reverse.map some ++ p).length = (recorded b g).length + p.length := by
        rw [List.length_append, List.length_map, List.length_reverse]
      have h₂ := h₁.boundary (by omega)
      obtain ⟨p', before', t', h', htexts⟩ := ih h₂ (closed_mark _)
        (fun a ha => hgs a (List.mem_cons_of_mem g ha)) (by
          show (recorded (BufCall.undoBoundary.run (b.runs g)) (separated (g' :: gs))).length + _ ≤ _
          omega)
      refine ⟨p', before', t', ?_, ?_⟩
      · rw [hsplit, runs_append]
        exact h'
      · rw [htexts]
        exact texts_group h₁.log.has.text hsame

theorem newest_load (b : Buffer) (text : List UInt8) :
    Newest (b.bufLoad text) [] [] (text.take bufferSize) := by
  have hhas := (shows_load b text).has
  rw [List.append_nil] at hhas
  exact ⟨⟨⟨Nat.zero_lt_succ _, Nat.zero_le _⟩, rfl, rfl, rfl, hhas⟩, rfl⟩

end Groups

/-- After groups of edits that record no more entries than the log has room for, each undo goes
back to the text before a group, and each redo to the text after it. -/
theorem undo_redo_walk (b : Buffer) (text : List UInt8) {gs : List (List BufCall)}
    (hgs : ∀ g ∈ gs, ∀ c ∈ g, c.IsEdit)
    (hroom : (recorded (b.bufLoad text) (separated gs)).length ≤ undoStackSize) {k j : Nat}
    (hk : k ≤ (changes (b.bufLoad text) gs).length) (hj : j ≤ k) :
    let texts := text.take bufferSize :: changes (b.bufLoad text) gs
    let n := (changes (b.bufLoad text) gs).length
    let undone := times Buffer.bufUndo k ((b.bufLoad text).runs (separated gs))
    let redone := times Buffer.bufRedo j undone.2
    undone.1 = List.replicate k true ∧ texts[n - k]? = some undone.2.text ∧
      redone.1 = List.replicate j true ∧ texts[n - k + j]? = some redone.2.text := by
  intro texts n undone redone
  obtain ⟨p', before', t', h, htexts⟩ := (newest_load b text).groups (.inl rfl) hgs hroom
  have hlength := congrArg List.length htexts
  simp only [List.length_append, List.length_reverse, List.length_cons, List.length_nil] at hlength
  have hstands : ((b.bufLoad text).runs (separated gs)).StandsAt texts (n - k + k) := by
    refine ⟨before', t', [], h.stands, htexts.symm, ?_⟩
    omega
  obtain ⟨hundone, h₁⟩ := hstands.undo_times
  have hlt : n - k + j < texts.length := by
    rw [List.length_cons]
    omega
  obtain ⟨hredone, h₂⟩ := h₁.redo_times hlt
  exact ⟨hundone, h₁.text, hredone, h₂.text⟩

/-- The buffer at boot. -/
def blankBuffer : Buffer := ⟨Bytes.zeros, 0, 0, fun _ => ⟨.insert, 0, 0⟩, 0, 0, 0, false⟩

/-- Three groups, the second of which records nothing: two undos and a redo. -/
theorem undo_redo_walk_three :
    let gs := [[.insert 65], [.moveLeft], [.deleteFwd, .insert 66]]
    let texts := [67].take bufferSize :: changes (blankBuffer.bufLoad [67]) gs
    let n := (changes (blankBuffer.bufLoad [67]) gs).length
    let undone := times Buffer.bufUndo 2 ((blankBuffer.bufLoad [67]).runs (separated gs))
    let redone := times Buffer.bufRedo 1 undone.2
    undone.1 = List.replicate 2 true ∧ texts[n - 2]? = some undone.2.text ∧
      redone.1 = List.replicate 1 true ∧ texts[n - 2 + 1]? = some redone.2.text :=
  undo_redo_walk blankBuffer [67] (by decide) (by decide) (by decide) (by decide)

end RainbowOs.Editor
