import RainbowOs.Fat12.Calls
import RainbowOs.Lib.Prefixes
import RainbowOs.Fat12.Diskfs
import Mathlib.Data.List.TakeWhile

/-!
# The command line of the shell

`kernel/shell/shell.c`, the line that is typed: what a key does to it, and its
completion. `cmd` is `cmd_buf` up to `cmd_len`; what is put out is kept as it
is put out, without its colours. A command that is entered goes to
`shell_execute`, which is not part of this model but for its being called.

The completion knows the files that fit its array, and the volume on disk has
room for twice as many.
-/

namespace RainbowOs.Kernel

open RainbowOs.Lib
open RainbowOs.Fat12

/-- `#define CMD_MAX_LEN` -/
abbrev cmdMaxLen : Nat := 78

/-- `#define FAT12_MAX_FILES` -/
abbrev fat12MaxFiles : Nat := 32

/-- `shell_commands` -/
def shellCommands : List (List UInt8) :=
  ["help", "clear", "version", "meminfo", "ls", "cat", "rm", "sync", "cc", "run", "debug", "gfx", "reboot",
    "shutdown"].map ascii

/-- The line, what was put out on the screen and the serial port, and the commands that were entered. -/
structure Shell where
  cmd : List UInt8
  screen : List UInt8
  serial : List UInt8
  executed : List (List UInt8)
  deriving DecidableEq, Repr

/-- `shell_prompt` -/
def shellPrompt (s : Shell) : Shell := { s with screen := s.screen ++ ascii "> " }

/-- `shell_init` -/
def shellInit (s : Shell) : Shell := shellPrompt { s with cmd := [] }

/-- A character to the screen and the serial port. -/
def echo (s : Shell) (c : UInt8) : Shell := { s with screen := s.screen ++ [c], serial := s.serial ++ [c] }

/-- `shell_emit` -/
def shellEmit (s : Shell) (c : UInt8) : Shell :=
  if s.cmd.length < cmdMaxLen then echo { s with cmd := s.cmd ++ [c] } c else s

/-! ## Completion -/

/-- `tok_start`, from `n` on back. -/
def tokStart (cmd : List UInt8) : (n : Nat) → Nat
  | 0 => 0
  | n + 1 => if cmd.getD n 0 ≠ 0x20 then tokStart cmd n else n + 1

/-- `strncmp`, of a string that ends in NUL and `n` bytes. -/
def strncmp : (n : Nat) → (s1 s2 : List UInt8) → Int
  | 0, _, _ => 0
  | _ + 1, [], s2 => -((s2.headD 0).toNat : Int)
  | _ + 1, c :: _, [] => c.toNat
  | n + 1, c :: s1, d :: s2 => if c = d then strncmp n s1 s2 else (c.toNat : Int) - d.toNat

/-- `lcp` and `match_count`. -/
structure Found where
  lcp : List UInt8
  count : Nat
  deriving DecidableEq, Repr

/-- A candidate; `lcp` has room for 15 characters. -/
def consider (pre : List UInt8) (found : Found) (name : List UInt8) : Found :=
  if strncmp pre.length name pre ≠ 0 then found
  else if found.count = 0 then ⟨name.take 15, 1⟩
  else ⟨commonPrefix found.lcp name, found.count + 1⟩

/-- The candidates, listed below the line, and the line again. -/
def listCandidates (pre : List UInt8) (names : List (List UInt8)) (s : Shell) : Shell :=
  let shown := names.filter fun name => strncmp pre.length name pre = 0
  let s := echo s 10
  let s := { s with screen := s.screen ++ shown.flatMap (fun name => name ++ ascii "  ") ++ [10] }
  s.cmd.foldl echo (shellPrompt s)

/-- The names of the entries of a directory, as strings that end in NUL. -/
def entryNames (entries : List Dirent) : List (List UInt8) := entries.map fun e => e.name.takeWhile (· ≠ 0)

/-- The candidates for the first word, or for a later one. -/
def candidates (g : Bpb) (isCmd : Bool) : Fat (List (List UInt8)) :=
  if isCmd then return shellCommands
  else do return entryNames (← fat12ListRoot g fat12MaxFiles)

/-- `shell_complete` -/
def shellComplete (g : Bpb) (s : Shell) : Fat Shell := do
  let start := tokStart s.cmd s.cmd.length
  let pre := s.cmd.drop start
  let names ← candidates g (start = 0)
  let found := names.foldl (consider pre) ⟨[], 0⟩
  if found.count = 0 then return s
  else
    let s := (found.lcp.drop pre.length).foldl shellEmit s
    if found.count = 1 then return shellEmit s 0x20
    else if found.lcp.length = pre.length then return listCandidates pre names s
    else return s

/-- `shell_process_char` -/
def shellProcessChar (g : Bpb) (s : Shell) (c : Nat) : Fat Shell :=
  if c = 10 then
    let s := echo s 10
    return shellPrompt { s with executed := s.executed ++ [s.cmd], cmd := [] }
  else if c = 8 then
    if s.cmd.length > 0 then
      return { s with
        cmd := s.cmd.dropLast
        screen := s.screen ++ [8]
        serial := s.serial ++ [8, 0x20, 8] }
    else return s
  else if c = 9 then shellComplete g s
  else if 0x20 ≤ c ∧ c < 127 ∧ s.cmd.length < cmdMaxLen then
    return echo { s with cmd := s.cmd ++ [UInt8.ofNat c] } (UInt8.ofNat c)
  else return s

/-- A line that fits the buffer and is a string. -/
structure Shell.Fits (s : Shell) : Prop where
  length : s.cmd.length ≤ cmdMaxLen
  nonzero : (0 : UInt8) ∉ s.cmd

/-! ## The line -/

section Line

variable {s : Shell} {cmd before token : List UInt8}

theorem cmd_foldl_echo (l : List UInt8) : (l.foldl echo s).cmd = s.cmd := by
  induction l generalizing s with
  | nil => rfl
  | cons c l ih => exact ih

theorem cmd_listCandidates (pre : List UInt8) (names : List (List UInt8)) :
    (listCandidates pre names s).cmd = s.cmd := cmd_foldl_echo s.cmd

/-- Characters are put in as long as there is room. -/
theorem cmd_foldl_shellEmit (hs : s.cmd.length ≤ cmdMaxLen) (l : List UInt8) :
    (l.foldl shellEmit s).cmd = (s.cmd ++ l).take cmdMaxLen := by
  induction l generalizing s with
  | nil => rw [List.append_nil, List.take_of_length_le hs, List.foldl_nil]
  | cons c l ih =>
    rw [List.foldl_cons]
    by_cases hroom : s.cmd.length < cmdMaxLen
    · have hcmd : (shellEmit s c).cmd = s.cmd ++ [c] := by rw [shellEmit, if_pos hroom]; rfl
      rw [ih (by rw [hcmd, List.length_append]; exact hroom), hcmd, List.append_assoc]
      rfl
    · have hcmd : shellEmit s c = s := if_neg hroom
      have hfull : s.cmd.length = cmdMaxLen := Nat.le_antisymm hs (Nat.le_of_not_lt hroom)
      rw [hcmd, ih hs, ← hfull, List.take_left, List.take_left]

/-- The token begins after the last blank. -/
theorem tokStart_eq (htoken : (0x20 : UInt8) ∉ token) :
    tokStart (before ++ 0x20 :: token) (before ++ 0x20 :: token).length = before.length + 1 := by
  have hback (k : Nat) (hk : k ≤ token.length) :
      tokStart (before ++ 0x20 :: token) (before.length + 1 + k) = before.length + 1 := by
    induction k with
    | zero => simp [tokStart]
    | succ k ih =>
      have hat : (before ++ 0x20 :: token).getD (before.length + 1 + k) 0 = token[k] := by
        rw [List.getD_append_right _ _ _ _ (by omega), Nat.add_assoc, Nat.add_sub_cancel_left, Nat.add_comm 1 k,
          List.getD_cons_succ, List.getD_eq_getElem]
      rw [← Nat.add_assoc, tokStart, hat, if_pos, ih (Nat.le_of_succ_le hk)]
      rintro h
      exact htoken (h ▸ List.getElem_mem _)
  rw [List.length_append, List.length_cons, Nat.add_comm token.length, ← Nat.add_assoc]
  exact hback _ (Nat.le_refl _)

/-- On strings, the comparison asks for a prefix. -/
theorem strncmp_eq_zero {pre name : List UInt8} (hpre : (0 : UInt8) ∉ pre) :
    strncmp pre.length name pre = 0 ↔ pre <+: name := by
  induction pre generalizing name with
  | nil => simp [strncmp]
  | cons c pre ih =>
    have hc : c.toNat ≠ 0 := by
      intro h
      have hzero : c = 0 := UInt8.toNat_inj.mp h
      exact hpre (hzero ▸ List.mem_cons_self)
    cases name with
    | nil => simp [strncmp, hc]
    | cons d name =>
      rw [List.length_cons, strncmp, List.cons_prefix_cons]
      split
      · next h =>
        rw [ih fun h => hpre (List.mem_cons_of_mem _ h)]
        exact ⟨fun h' => ⟨h.symm, h'⟩, fun h' => h'.2⟩
      · next h =>
        have hne : d.toNat ≠ c.toNat := fun h' => h (UInt8.toNat_inj.mp h')
        constructor
        · intro h'
          omega
        · exact fun h' => absurd h'.1.symm h

end Line

/-! ## The candidates -/

/-- The names that begin with a token. -/
def matching (names : List (List UInt8)) (token : List UInt8) : List (List UInt8) :=
  names.filter fun name => decide (token <+: name)

/-- The names that the root directory shows. -/
def rootNames (L : Layout) (v : Bytes) : List (List UInt8) :=
  entryNames ((tablesOf L.bpb v).listRoot L L.bpb.rootEntryCount)

/-- What a token is completed to. -/
def Target (names : List (List UInt8)) (token k : List UInt8) : Prop :=
  if matching names token = [] then k = token else Longest (matching names token) k

section Candidates

variable {names : List (List UInt8)} {token : List UInt8}

/-- All candidates, one after the other. -/
theorem foldl_consider (htoken : (0 : UInt8) ∉ token) (hnames : ∀ name ∈ names, name.length ≤ 15) :
    ∃ lcp, names.foldl (consider token) ⟨[], 0⟩ = ⟨lcp, (matching names token).length⟩ ∧
      (matching names token ≠ [] → Longest (matching names token) lcp) := by
  induction names using List.reverseRecOn with
  | nil => exact ⟨[], rfl, fun h => absurd rfl h⟩
  | append_singleton names name ih =>
    obtain ⟨lcp, hfold, hlcp⟩ := ih fun n hn => hnames n (List.mem_append_left _ hn)
    have hlength := hnames name (List.mem_append_right _ (List.mem_singleton_self name))
    rw [List.foldl_append, hfold, List.foldl_cons, List.foldl_nil, consider]
    unfold matching at hlcp ⊢
    rw [List.filter_append]
    by_cases hmatch : token <+: name
    · have hlast : [name].filter (fun name => decide (token <+: name)) = [name] := by simp [hmatch]
      rw [if_neg (not_not_intro ((strncmp_eq_zero htoken).mpr hmatch)), hlast]
      by_cases hnone : names.filter (fun name => decide (token <+: name)) = []
      · rw [hnone]
        exact ⟨name.take 15, rfl, fun _ => by
          rw [List.take_of_length_le hlength]
          exact .singleton name⟩
      · rw [if_neg (fun h => hnone (List.length_eq_zero_iff.mp h)), List.length_append]
        exact ⟨_, rfl, fun _ => (hlcp hnone).concat name⟩
    · have hlast : [name].filter (fun name => decide (token <+: name)) = [] := by simp [hmatch]
      rw [if_pos (fun h => hmatch ((strncmp_eq_zero htoken).mp h)), hlast, List.append_nil]
      exact ⟨lcp, rfl, hlcp⟩

theorem length_formatName (raw : List UInt8) : (formatName raw).length ≤ 12 := by
  have hname : ((raw.take 8).takeWhile (· ≠ blank)).length ≤ 8 :=
    Nat.le_trans (List.takeWhile_prefix _).length_le (List.length_take_le _ _)
  have hext : (((raw.drop 8).take 3).takeWhile (· ≠ blank)).length ≤ 3 :=
    Nat.le_trans (List.takeWhile_prefix _).length_le (List.length_take_le _ _)
  unfold formatName
  rw [List.length_append, List.length_map]
  split
  · rw [List.length_cons, List.length_map]
    omega
  · rw [List.length_nil]
    omega

/-- A name of the directory fits `lcp`. -/
theorem length_rootNames {L : Layout} {v : Bytes} {name : List UInt8} (h : name ∈ rootNames L v) :
    name.length ≤ 15 := by
  obtain ⟨e, he, rfl⟩ := List.mem_map.mp h
  obtain ⟨i, -, rfl⟩ := List.mem_map.mp he
  have hformat := length_formatName ((tablesOf L.bpb v).ent i).name
  have hlength := (List.takeWhile_prefix (l := formatName ((tablesOf L.bpb v).ent i).name) (· ≠ 0)).length_le
  exact Nat.le_trans hlength (Nat.le_trans hformat (by decide))

theorem length_live (t : Tables) (n i : Nat) : (t.live n i).length ≤ n := by
  have hrange : (List.range' i n).length = n := List.length_range'
  exact Nat.le_trans (List.length_filter_le _ _)
    (Nat.le_trans (List.takeWhile_prefix _).length_le (Nat.le_of_eq hrange))

/-- The driver gives the shell the first files of the directory. -/
theorem candidates_run (L : Layout) (v : Bytes) : ∃ log, candidates L.bpb false v =
    ⟨.done ((rootNames L v).take fat12MaxFiles), v, log⟩ := by
  obtain ⟨r, hr, hret, hstate⟩ := (total_listRoot (shows_tablesOf L v) fat12MaxFiles).returns
  have hrun := Prog.bind_run_done (f := fun r => (pure (entryNames r) : Fat (List (List UInt8))))
    (Prog.run_eq hr rfl)
  have hnames : entryNames r = (rootNames L v).take fat12MaxFiles := by
    have hall := length_live (tablesOf L.bpb v) L.bpb.rootEntryCount 0
    rw [hret, rootNames, entryNames, entryNames, Tables.listRoot, Tables.listRoot, List.take_of_length_le hall,
      List.map_take, List.map_take]
  rw [hstate] at hrun
  rw [← hnames]
  exact ⟨_, hrun⟩

end Candidates

/-! ## The completion -/

/-- A line with a last word, as far as there is room for it. -/
def filled (before word : List UInt8) : List UInt8 := (before ++ 0x20 :: word).take cmdMaxLen

/-- The last word of a line is completed among the names: it is what all that begin with it have in common, and
a blank comes after it only if there is one of them. -/
def Completes (names : List (List UInt8)) (before token cmd : List UInt8) : Prop :=
  ∃ k, Longest (matching names token) k ∧
    (cmd = filled before k ∨ (matching names token).length = 1 ∧ cmd = filled before (k ++ [0x20]))

/-- The first files of a directory complete a word as all of them do. -/
structure Suffices (names : List (List UInt8)) (before token : List UInt8) : Prop where
  target : ∀ k l, Target (names.take fat12MaxFiles) token k → Longest (matching names token) l →
    filled before k = filled before l
  single : ∀ k, Target (names.take fat12MaxFiles) token k →
    (matching (names.take fat12MaxFiles) token).length = 1 → (before ++ 0x20 :: k).length < cmdMaxLen →
    (matching names token).length = 1

section Complete

variable {L : Layout} {v : Bytes} {s : Shell} {names : List (List UInt8)} {before token k l : List UInt8}

theorem matching_take (n : Nat) : (matching (names.take n) token).Sublist (matching names token) :=
  (List.take_sublist n names).filter _

theorem prefix_of_target (h : Target names token k) : token <+: k := by
  unfold Target at h
  split at h
  · rw [h]
  · exact h.longest token fun l hl => of_decide_eq_true (List.mem_filter.mp hl).2

/-- The files that the shell knows, and what it makes of the line. -/
theorem shellComplete_cmd (hs : s.Fits) (hcmd : s.cmd = before ++ 0x20 :: token) (htoken : (0x20 : UInt8) ∉ token) :
    ∃ s' log k, shellComplete L.bpb s v = ⟨.done s', v, log⟩ ∧
      Target ((rootNames L v).take fat12MaxFiles) token k ∧
      s'.cmd = filled before
        (if (matching ((rootNames L v).take fat12MaxFiles) token).length = 1 then k ++ [0x20] else k) := by
  obtain ⟨log, hnames⟩ := candidates_run L v
  have hstart : tokStart s.cmd s.cmd.length = before.length + 1 := by
    rw [hcmd]
    exact tokStart_eq htoken
  have hpre : s.cmd.drop (before.length + 1) = token := by
    rw [hcmd, ← List.drop_drop, List.drop_left]
    rfl
  have hzero : (0 : UInt8) ∉ token := fun h => hs.nonzero (by
    rw [hcmd]
    exact List.mem_append_right _ (List.mem_cons_of_mem _ h))
  obtain ⟨lcp, hfold, hlongest⟩ := foldl_consider hzero
    fun name (hname : name ∈ (rootNames L v).take fat12MaxFiles) => length_rootNames (List.mem_of_mem_take hname)
  have hline : filled before token = s.cmd := by
    rw [filled, ← hcmd, List.take_of_length_le hs.length]
  have hcmdStart : decide (before.length + 1 = 0) = false := rfl
  unfold shellComplete
  simp only [hstart, hpre, hcmdStart]
  rw [Prog.bind_run_prepend hnames, hfold]
  by_cases hnone : matching ((rootNames L v).take fat12MaxFiles) token = []
  · have hcount : (matching ((rootNames L v).take fat12MaxFiles) token).length = 0 := by rw [hnone]; rfl
    refine ⟨s, _, token, by rw [if_pos hcount]; rfl, by unfold Target; rw [if_pos hnone], ?_⟩
    rw [hcount, if_neg (by decide), hline]
  · have hcount : ¬(matching ((rootNames L v).take fat12MaxFiles) token).length = 0 :=
      fun h => hnone (List.length_eq_zero_iff.mp h)
    have htarget : Target ((rootNames L v).take fat12MaxFiles) token lcp := by
      unfold Target
      rw [if_neg hnone]
      exact hlongest hnone
    obtain ⟨more, rfl⟩ := prefix_of_target htarget
    have hfilled (l : List UInt8) : (l.foldl shellEmit s).cmd = filled before (token ++ l) := by
      rw [cmd_foldl_shellEmit hs.length, hcmd, List.append_assoc]
      rfl
    rw [if_neg hcount, List.drop_left]
    by_cases hone : (matching ((rootNames L v).take fat12MaxFiles) token).length = 1
    · refine ⟨shellEmit (more.foldl shellEmit s) 0x20, _, _, by rw [if_pos hone]; rfl, htarget, ?_⟩
      have hblank := hfilled (more ++ [0x20])
      rw [List.foldl_append] at hblank
      rw [if_pos hone, List.append_assoc, ← hblank]
      rfl
    · rw [if_neg hone]
      split
      · refine ⟨_, _, _, rfl, htarget, ?_⟩
        rw [cmd_listCandidates, hfilled]
      · refine ⟨_, _, _, rfl, htarget, ?_⟩
        rw [hfilled]

theorem length_filled (before word : List UInt8) :
    (filled before word).length = min cmdMaxLen (before.length + 1 + word.length) := by
  rw [filled, List.length_take, List.length_append, List.length_cons, Nat.add_comm word.length, Nat.add_assoc]

/-- Where a word fills the line, more of it does not show. -/
theorem filled_eq_of_full (h : l <+: k) (hfull : cmdMaxLen ≤ before.length + 1 + l.length) :
    filled before k = filled before l := by
  obtain ⟨more, rfl⟩ := h
  have happend : before ++ 0x20 :: (l ++ more) = (before ++ 0x20 :: l) ++ more := by
    rw [List.append_assoc, List.cons_append]
  rw [filled, filled, happend, List.take_append_of_le_length]
  rw [List.length_append, List.length_cons]
  omega

theorem Target.longest (h : Target names token k) (hsome : matching names token ≠ []) :
    Longest (matching names token) k := by
  unfold Target at h
  rwa [if_neg hsome] at h

theorem Target.unique (h : Target names token k) (h' : Target names token l) : k = l := by
  by_cases hnone : matching names token = []
  · unfold Target at h h'
    rw [if_pos hnone] at h h'
    rw [h, h']
  · exact (h.longest hnone).unique (h'.longest hnone)

/-- The line that the first files make of a word is the one that all of them ask for if they suffice. -/
theorem completes_iff (hsome : matching names token ≠ []) (hk : Target (names.take fat12MaxFiles) token k) :
    Completes names before token (filled before
        (if (matching (names.take fat12MaxFiles) token).length = 1 then k ++ [0x20] else k)) ↔
      Suffices names before token := by
  have hsub : (matching (names.take fat12MaxFiles) token).Sublist (matching names token) := matching_take _
  have hroom (w : List UInt8) : (before ++ 0x20 :: w).length = before.length + 1 + w.length := by
    rw [List.length_append, List.length_cons, Nat.add_comm w.length, Nat.add_assoc]
  constructor
  · rintro ⟨l, hl, hline⟩
    by_cases hone : (matching (names.take fat12MaxFiles) token).length = 1
    · have hfirst : matching (names.take fat12MaxFiles) token ≠ [] := by
        intro h
        rw [h] at hone
        cases hone
      have hlk : l <+: k := (hk.longest hfirst).anti hl hsub.subset
      rw [if_pos hone] at hline
      rcases hline with hline | ⟨hall, -⟩
      · -- a blank that does not show: the line is full
        have hlength := congrArg List.length hline
        rw [length_filled, length_filled, List.length_append, List.length_singleton] at hlength
        have hle := hlk.length_le
        have hfull : cmdMaxLen ≤ before.length + 1 + l.length := by omega
        refine ⟨fun k' l' hk' hl' => ?_, fun k' hk' _ hlt => ?_⟩
        · rw [hk'.unique hk, hl'.unique hl]
          exact filled_eq_of_full hlk hfull
        · rw [hk'.unique hk, hroom] at hlt
          omega
      · have hsame := hsub.eq_of_length (hone.trans hall.symm)
        refine ⟨fun k' l' hk' hl' => ?_, fun _ _ _ _ => hall⟩
        have hk' := hk'.longest hfirst
        rw [hsame] at hk'
        rw [hk'.unique hl']
    · rw [if_neg hone] at hline
      refine ⟨fun k' l' hk' hl' => ?_, fun _ _ h _ => absurd h hone⟩
      rw [hk'.unique hk, hl'.unique hl]
      rcases hline with hline | ⟨hall, hline⟩
      · exact hline
      · -- the one file that matches is not among the first, and the line is full
        have hle := hsub.length_le
        have hnone : matching (names.take fat12MaxFiles) token = [] :=
          List.length_eq_zero_iff.mp (by omega)
        have hktoken : k = token := by
          unfold Target at hk
          rwa [if_pos hnone] at hk
        have htokenl : token <+: l := hl.longest token fun n hn => of_decide_eq_true (List.mem_filter.mp hn).2
        have hlength := congrArg List.length hline
        have htokenle := htokenl.length_le
        rw [hktoken, length_filled, length_filled, List.length_append, List.length_singleton] at hlength
        rw [hktoken]
        exact (filled_eq_of_full htokenl (by omega)).symm
  · intro h
    obtain ⟨l, hl⟩ := exists_longest hsome
    have htarget := h.target k l hk hl
    by_cases hone : (matching (names.take fat12MaxFiles) token).length = 1
    · rw [if_pos hone]
      by_cases hlt : (before ++ 0x20 :: k).length < cmdMaxLen
      · have hall := h.single k hk hone hlt
        have hsame := hsub.eq_of_length (hone.trans hall.symm)
        have hfirst : matching (names.take fat12MaxFiles) token ≠ [] := by rwa [hsame]
        exact ⟨k, hsame ▸ hk.longest hfirst, Or.inr ⟨hall, rfl⟩⟩
      · rw [hroom] at hlt
        have hblank : filled before (k ++ [0x20]) = filled before k :=
          filled_eq_of_full (List.prefix_append k _) (Nat.le_of_not_lt hlt)
        exact ⟨l, hl, Or.inl (hblank.trans htarget)⟩
    · rw [if_neg hone]
      exact ⟨l, hl, Or.inl htarget⟩

/-- `shell_complete` completes the last word of a line among the files of the root directory if and only if the
first files that it asks for do. -/
theorem shellComplete_iff (hs : s.Fits) (hcmd : s.cmd = before ++ 0x20 :: token)
    (htoken : (0x20 : UInt8) ∉ token) (hmatch : ∃ name ∈ rootNames L v, token <+: name) :
    ∃ s' log, shellComplete L.bpb s v = ⟨.done s', v, log⟩ ∧
      (Completes (rootNames L v) before token s'.cmd ↔ Suffices (rootNames L v) before token) := by
  obtain ⟨s', log, k, hrun, hk, hcmd'⟩ := shellComplete_cmd (L := L) (v := v) hs hcmd htoken
  obtain ⟨name, hname, hprefix⟩ := hmatch
  have hmem : name ∈ matching (rootNames L v) token := List.mem_filter.mpr ⟨hname, decide_eq_true hprefix⟩
  refine ⟨s', log, hrun, ?_⟩
  rw [hcmd']
  exact completes_iff (List.ne_nil_of_mem hmem) hk

end Complete

/-- Where there are no more files than the shell asks for, they suffice. -/
theorem suffices_of_few {names : List (List UInt8)} (h : names.length ≤ fat12MaxFiles)
    (before token : List UInt8) : Suffices names before token := by
  have htake : names.take fat12MaxFiles = names := List.take_of_length_le h
  refine ⟨fun k l hk hl => ?_, fun k _ hone _ => ?_⟩
  · rw [htake] at hk
    by_cases hnone : matching names token = []
    · rw [hnone] at hl
      have hle := (hl.longest (l ++ [0]) nofun).length_le
      rw [List.length_append, List.length_singleton] at hle
      omega
    · rw [(hk.longest hnone).unique hl]
  · rwa [htake] at hone

/-! ## Every line -/

section Fits

variable {g : Bpb} {s s' : Shell} {v v' : Bytes} {log : List Access}

theorem Shell.Fits.emit (hs : s.Fits) {c : UInt8} (hc : c ≠ 0) : (shellEmit s c).Fits := by
  unfold shellEmit
  split
  · next hroom =>
    refine ⟨?_, fun h => ?_⟩
    · show (s.cmd ++ [c]).length ≤ cmdMaxLen
      rw [List.length_append]
      exact hroom
    · rcases List.mem_append.mp h with h | h
      · exact hs.nonzero h
      · exact hc (List.mem_singleton.mp h).symm
  · exact hs

theorem Shell.Fits.emits (hs : s.Fits) {l : List UInt8} (hl : (0 : UInt8) ∉ l) : (l.foldl shellEmit s).Fits := by
  induction l generalizing s with
  | nil => exact hs
  | cons c l ih =>
    exact ih (hs.emit fun h => hl (h ▸ List.mem_cons_self)) fun h => hl (List.mem_cons_of_mem c h)

theorem nonzero_foldl_consider {names : List (List UInt8)} (hnames : ∀ name ∈ names, (0 : UInt8) ∉ name)
    {pre : List UInt8} {found : Found} (hfound : (0 : UInt8) ∉ found.lcp) :
    (0 : UInt8) ∉ (names.foldl (consider pre) found).lcp := by
  induction names generalizing found with
  | nil => exact hfound
  | cons name names ih =>
    refine ih (fun n hn => hnames n (List.mem_cons_of_mem _ hn)) ?_
    unfold consider
    split
    · exact hfound
    · split
      · exact fun h => hnames name List.mem_cons_self (List.mem_of_mem_take h)
      · exact fun h => hfound ((prefix_commonPrefix.mp List.prefix_rfl).1.subset h)

theorem nonzero_candidates {isCmd : Bool} {names : List (List UInt8)}
    (h : candidates g isCmd v = ⟨.done names, v', log⟩) : ∀ name ∈ names, (0 : UInt8) ∉ name := by
  unfold candidates at h
  cases isCmd with
  | true =>
    cases h
    decide
  | false =>
    obtain ⟨entries, v₁, l₁, l₂, -, hnames, -⟩ := Prog.bind_done h
    cases hnames
    intro name hname hzero
    obtain ⟨e, -, rfl⟩ := List.mem_map.mp hname
    have hne := List.mem_takeWhile_imp hzero
    exact absurd hne (by decide)

/-- Completion leaves a line that fits. -/
theorem Shell.Fits.complete (hs : s.Fits) (h : shellComplete g s v = ⟨.done s', v', log⟩) : s'.Fits := by
  obtain ⟨names, v₁, l₁, l₂, hnames, hrest, -⟩ := Prog.bind_done h
  have hmore (pre : List UInt8) (n : Nat) :
      (((names.foldl (consider pre) ⟨[], 0⟩).lcp.drop n).foldl shellEmit s).Fits :=
    hs.emits fun hzero => nonzero_foldl_consider (nonzero_candidates hnames) List.not_mem_nil
      (List.mem_of_mem_drop hzero)
  dsimp only at hrest
  split at hrest
  · cases hrest
    exact hs
  · split at hrest
    · cases hrest
      exact (hmore _ _).emit (by decide)
    · split at hrest
      · cases hrest
        refine ⟨?_, ?_⟩
        · rw [cmd_listCandidates]
          exact (hmore _ _).length
        · rw [cmd_listCandidates]
          exact (hmore _ _).nonzero
      · cases hrest
        exact hmore _ _

/-- Every key leaves a line that fits; so every line that is typed does. -/
theorem Shell.Fits.processChar (hs : s.Fits) {c : Nat} (h : shellProcessChar g s c v = ⟨.done s', v', log⟩) :
    s'.Fits := by
  unfold shellProcessChar at h
  split at h
  · cases h
    exact ⟨Nat.zero_le _, nofun⟩
  split at h
  · split at h
    · cases h
      refine ⟨?_, fun hzero => hs.nonzero (List.mem_of_mem_dropLast hzero)⟩
      have hle := hs.length
      show s.cmd.dropLast.length ≤ cmdMaxLen
      rw [List.length_dropLast]
      omega
    · cases h
      exact hs
  split at h
  · exact hs.complete h
  split at h
  · next hc =>
    cases h
    refine ⟨?_, fun hzero => ?_⟩
    · show (s.cmd ++ [UInt8.ofNat c]).length ≤ cmdMaxLen
      rw [List.length_append]
      exact hc.2.2
    · rcases List.mem_append.mp hzero with hzero | hzero
      · exact hs.nonzero hzero
      · have htoNat := congrArg UInt8.toNat (List.mem_singleton.mp hzero)
        rw [UInt8.toNat_ofNat_of_lt' (Nat.lt_trans hc.2.1 (by decide))] at htoNat
        have hz : (0 : UInt8).toNat = 0 := rfl
        omega
  · cases h
    exact hs

end Fits

/-- A directory of 33 files, `a00` to `a31` and `b32`. -/
def crowded : Bytes := fun a =>
  let i := (a - 2048) / 32
  if a < 2048 ∨ 33 ≤ i then 0
  else
    match (a - 2048) % 32 with
    | 0 => if i < 32 then 0x41 else 0x42
    | 1 => UInt8.ofNat (0x30 + i / 10)
    | 2 => UInt8.ofNat (0x30 + i % 10)
    | k => if k ≤ 11 then 0x20 else 0

theorem shellComplete_iff_crowded :
    ∃ s' log, shellComplete Diskfs.bpb ⟨ascii "cat a", [], [], []⟩ crowded = ⟨.done s', crowded, log⟩ ∧
      (Completes (rootNames Diskfs.layout crowded) (ascii "cat") (ascii "a") s'.cmd ↔
        Suffices (rootNames Diskfs.layout crowded) (ascii "cat") (ascii "a")) :=
  shellComplete_iff (L := Diskfs.layout) ⟨by decide, by decide⟩ rfl (by decide) ⟨ascii "a00", by decide, by decide⟩

/-- The last file is the only one that begins with `b`, and the shell does not know it. -/
theorem shellComplete_crowded :
    (rootNames Diskfs.layout crowded).length ≤ 64 ∧ ascii "b32" ∈ rootNames Diskfs.layout crowded ∧
    ∃ s' log, shellComplete Diskfs.bpb ⟨ascii "cat b", [], [], []⟩ crowded = ⟨.done s', crowded, log⟩ ∧
      s'.cmd = ascii "cat b" ∧
      ¬Completes (rootNames Diskfs.layout crowded) (ascii "cat") (ascii "b") s'.cmd := by
  have hall : matching (rootNames Diskfs.layout crowded) (ascii "b") = [ascii "b32"] := by decide
  have hfirst : matching ((rootNames Diskfs.layout crowded).take fat12MaxFiles) (ascii "b") = [] := by decide
  refine ⟨by decide, by decide, ?_⟩
  obtain ⟨s', log, k, hrun, hk, hcmd⟩ := shellComplete_cmd (L := Diskfs.layout) (v := crowded)
    (s := ⟨ascii "cat b", [], [], []⟩) ⟨by decide, by decide⟩
    (show ascii "cat b" = ascii "cat" ++ 0x20 :: ascii "b" from rfl) (by decide)
  unfold Target at hk
  rw [if_pos hfirst] at hk
  rw [hfirst, hk] at hcmd
  refine ⟨s', log, hrun, hcmd, ?_⟩
  rintro ⟨l, hl, hline⟩
  rw [hall] at hl hline
  rw [hcmd, hl.unique (.singleton _)] at hline
  revert hline
  decide

end RainbowOs.Kernel
