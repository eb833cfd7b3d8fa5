import RainbowOs.Fat12.Ramdisk

/-!
# Runs of the driver

A run is a list of calls, made one after the other on the volume the one
before left. On a layout with a FAT entry for every cluster no call needs
anything but a sound volume, and every call leaves one, so the properties
of sound volumes hold after every run from the ramdisk: no two files share
a cluster, and the volume is the finite map its successful calls describe.
-/

namespace RainbowOs.Fat12

open RainbowOs.Lib RainbowOs.Lib.Linked

/-- A call of the driver. -/
inductive Call where
  | list (maxEntries : Nat)
  | read (name : CString) (bufSize : Nat)
  | write (name : CString) (data : List UInt8)
  | delete (name : CString)

/-- What a call hands back. -/
inductive Reply where
  | entries (l : List Dirent)
  | bytes (r : Option (List UInt8))
  | status (r : Int)
  deriving DecidableEq

def Call.run (g : Bpb) : Call → Fat Reply
  | .list n => do return .entries (← fat12ListRoot g n)
  | .read name n => do return .bytes (← fat12ReadFile g name n)
  | .write name data => do return .status (← fat12WriteFile g name data)
  | .delete name => do return .status (← fat12DeleteFile g name)

/-- The volume after a run. -/
def after (g : Bpb) (v : Bytes) (calls : List Call) : Bytes :=
  calls.foldl (fun v c => (c.run g v).state) v

@[simp] theorem after_nil (g : Bpb) (v : Bytes) : after g v [] = v := rfl

/-- A property of a call and the volume it is made on, at every call of a run. -/
def Along (g : Bpb) (P : Bytes → Call → Prop) : Bytes → List Call → Prop
  | _, [] => True
  | v, c :: calls => P v c ∧ Along g P (c.run g v).state calls

/-- A volume whose tables are sound. -/
def SoundVolume (L : Layout) (v : Bytes) : Prop := (tablesOf L.bpb v).Sound L

variable {L : Layout} {v : Bytes} {t : Tables}

/-- Soundness is about what a volume shows. -/
theorem SoundVolume.of_shows (h : Shows L v t) (hs : t.Sound L) : SoundVolume L v := by
  have hent : ∀ i, i < L.bpb.rootEntryCount → (tablesOf L.bpb v).ent i = t.ent i := h.ent
  have hlive : ∀ i, (tablesOf L.bpb v).LiveAt L i → t.LiveAt L i := fun i hi =>
    ⟨hi.1, hent i hi.1 ▸ hi.2⟩
  refine Tables.Sound.of_family (t.cellsOf L.cells) (fun i j hij hj hz => ?_)
    (fun i j hi hj heq => ?_) ?_
  · rw [hent i (by omega)] at hz
    rw [hent j hj]
    exact hs.ended i j hij hj hz
  · rw [hent i hi.1, hent j hj.1] at heq
    exact hs.unique i j (hlive i hi) (hlive j hj) heq
  · refine ((hs.family.mono hlive).congr (fun i hi => ?_) fun _ _ => rfl).congr_next
      fun i hi c hc => ?_
    · exact congrArg Entry.first (hent i hi.1)
    · exact (h.fat c (hs.family.rising i (hlive i hi) c hc).2.1).symm

theorem room_of_full (hL : L.Full) (name83 data : List UInt8) : t.Room L name83 data := Or.inr hL

/-- The search for free clusters of the call, if it is a write, ends among the cells. -/
def Call.Fits (L : Layout) (v : Bytes) : Call → Prop
  | .write name data => (tablesOf L.bpb v).Room L (nameTo83 name) data
  | _ => True

theorem Call.fits_of_full (hL : L.Full) (c : Call) : c.Fits L v := by
  cases c with
  | write name data => exact room_of_full hL _ _
  | list _ => trivial
  | read _ _ => trivial
  | delete _ => trivial

/-- A read of a sound volume stays inside, changes nothing and returns what there is room for. -/
theorem SoundVolume.readFile (h : SoundVolume L v) (name : CString) (bufSize : Nat) :
    (fat12ReadFile L.bpb name bufSize).total (Inside L)
      (fun r v' => SoundVolume L v' ∧ ∀ bs, r = some bs → bs.length ≤ bufSize) v := by
  refine Prog.total_mono (total_readFile (shows_tablesOf L v) name bufSize (h.reads _)) (fun _ ha => ha)
    fun r v' hr => ⟨hr.2 ▸ h, fun bs hbs => ?_⟩
  obtain ⟨i, _, rfl⟩ := Option.map_eq_some_iff.mp (hr.1.symm.trans hbs)
  exact List.length_take_le _ _

/-- A write that fits stays inside and leaves a sound volume. -/
theorem SoundVolume.writeFile (h : SoundVolume L v) {name : CString} {data : List UInt8}
    (hfit : (Call.write name data).Fits L v) :
    (fat12WriteFile L.bpb name data).total (Inside L) (fun _ v' => SoundVolume L v') v :=
  Prog.total_mono (total_writeFile (shows_tablesOf L v) name data (h.reads _) hfit) (fun _ ha => ha) fun _ _ hr =>
    .of_shows hr.2 (writeFile_sound h data (nameTo83_ne_zero name _ (headD_nameTo83_mem name))).1

/-- Every call that fits returns, stays inside its regions and leaves a sound volume. -/
theorem Call.run_total (h : SoundVolume L v) {c : Call} (hfit : c.Fits L v) :
    (c.run L.bpb).total (Inside L) (fun _ v' => SoundVolume L v') v := by
  have hshows := shows_tablesOf L v
  cases c with
  | list n =>
    exact Prog.total_seq (total_listRoot hshows n) fun _ v' hr => Prog.total_pure (hr.2 ▸ h)
  | read name n => exact Prog.total_seq (h.readFile name n) fun _ _ hr => Prog.total_pure hr.1
  | write name data => exact Prog.total_seq (h.writeFile hfit) fun _ _ hr => Prog.total_pure hr
  | delete name =>
    exact Prog.total_seq (total_deleteFile hshows name (h.reads _)) fun _ v' hr =>
      Prog.total_pure (.of_shows hr.2 (deleteFile_sound h _).1)

/-- Every run keeps a volume sound. -/
theorem after_sound (hL : L.Full) (h : SoundVolume L v) (calls : List Call) :
    SoundVolume L (after L.bpb v calls) := by
  induction calls generalizing v with
  | nil => exact h
  | cons c calls ih =>
    obtain ⟨_, _, hsound⟩ := (Call.run_total h (c.fits_of_full hL)).returns
    exact ih hsound

/-! ## No cross-linked files -/

/-- `l` is the cluster chain of entry `i`: the clusters from its first one along the FAT
to an end-of-chain mark. An empty file, whose first cluster is 0, has none. -/
def ClusterChain (g : Bpb) (v : Bytes) (i : Nat) (l : List Nat) : Prop :=
  (l = [] ∧ Stop (entryAt g v i).first) ∨
    (l ≠ [] ∧ Chain (fatAt g v) (fun c => 0xFF8 ≤ c) (entryAt g v i).first l)

/-- A chain whose links never fall back below 2 ends in an end-of-chain mark. -/
theorem Chain.eoc {next : Nat → Nat} {c : Nat} {l : List Nat} (h : Chain next Stop c l)
    (hc : 2 ≤ c) (hup : ∀ d ∈ l, 2 ≤ next d) : Chain next (fun c => 0xFF8 ≤ c) c l := by
  induction h with
  | @nil c hs =>
    refine .nil ?_
    have := stops_eq_true_iff.mp hs
    omega
  | @cons c l _ ih =>
    exact .cons (ih (hup c List.mem_cons_self) fun d hd => hup d (List.mem_cons_of_mem _ hd))

theorem ramdisk_sound : SoundVolume Ramdisk.layout Ramdisk.ramdiskInit := by
  obtain ⟨s, t, hs, _, h⟩ := Ramdisk.ramdisk_built
  exact hs ▸ .of_shows h.shows h.sound

/-- After any run from the ramdisk the chains of the live entries lie within clusters
2..508, repeat no cluster, end in an end-of-chain mark, contain no free cluster, and
are pairwise disjoint. -/
theorem ramdisk_files_not_crosslinked (calls : List Call) :
    ∃ chain : Nat → List Nat,
      (∀ i, i < Ramdisk.bpb.rootEntryCount →
        (entryAt Ramdisk.bpb (after Ramdisk.bpb Ramdisk.ramdiskInit calls) i).Live →
          ClusterChain Ramdisk.bpb (after Ramdisk.bpb Ramdisk.ramdiskInit calls) i (chain i) ∧
          (chain i).Nodup ∧
          ∀ c ∈ chain i, 2 ≤ c ∧ c ≤ 508 ∧
            fatAt Ramdisk.bpb (after Ramdisk.bpb Ramdisk.ramdiskInit calls) c ≠ 0) ∧
      ∀ i j, i < Ramdisk.bpb.rootEntryCount → j < Ramdisk.bpb.rootEntryCount → i ≠ j →
        (entryAt Ramdisk.bpb (after Ramdisk.bpb Ramdisk.ramdiskInit calls) i).Live →
        (entryAt Ramdisk.bpb (after Ramdisk.bpb Ramdisk.ramdiskInit calls) j).Live →
          (chain i).Disjoint (chain j) := by
  have hsound := after_sound Ramdisk.layout_full ramdisk_sound calls
  have hbpb : Ramdisk.layout.bpb = Ramdisk.bpb := rfl
  rw [hbpb] at hsound
  generalize after Ramdisk.bpb Ramdisk.ramdiskInit calls = v at hsound
  have hfam := hsound.family
  refine ⟨(tablesOf Ramdisk.bpb v).cellsOf 509, fun i hi hlive => ?_,
    fun i j hi hj hij hli hlj => hfam.apart i j ⟨hi, hli⟩ ⟨hj, hlj⟩ hij⟩
  have hlv : (tablesOf Ramdisk.layout.bpb v).LiveAt Ramdisk.layout i := ⟨hi, hlive⟩
  have hrise := hfam.rising i hlv
  have hchain := hfam.chain i hlv
  refine ⟨?_, (hsound.owns hlv).nodup (by decide), fun c hc => ?_⟩
  · have hchain' : Chain (fatAt Ramdisk.bpb v) Stop (entryAt Ramdisk.bpb v i).first
        ((tablesOf Ramdisk.bpb v).cellsOf 509 i) := hchain
    have hrise' : ∀ c ∈ (tablesOf Ramdisk.bpb v).cellsOf 509 i,
        2 ≤ c ∧ c < 509 ∧ c < fatAt Ramdisk.bpb v c := hrise
    cases hl : (tablesOf Ramdisk.bpb v).cellsOf 509 i with
    | nil =>
      rw [hl] at hchain'
      cases hchain' with
      | nil hstop => exact Or.inl ⟨rfl, hstop⟩
    | cons c l =>
      rw [hl] at hchain' hrise'
      have hfirst : 2 ≤ (entryAt Ramdisk.bpb v i).first :=
        hchain'.head_eq ▸ (hrise' c List.mem_cons_self).1
      refine Or.inr ⟨List.cons_ne_nil c l, Chain.eoc hchain' hfirst fun d hd => ?_⟩
      have := hrise' d hd
      omega
  · obtain ⟨h2, hlt, hup⟩ := hrise c hc
    have hN : c < 509 := hlt
    exact ⟨h2, by omega, Nat.ne_of_gt (Nat.lt_of_le_of_lt (Nat.zero_le c) hup)⟩

/-! ## The driver refines a finite map -/

/-- The calls that name a file to change name it in printable ASCII. -/
def Call.Printable : Call → Prop
  | .write name _ => name.Printable
  | .delete name => name.Printable
  | _ => True

/-- The call returns 0, if it is a write. -/
def Call.Succeeds (g : Bpb) (v : Bytes) : Call → Prop
  | .write name data => (fat12WriteFile g name data v).out = .done 0
  | _ => True

/-- Every write of the run returned 0. -/
def WritesSucceed (g : Bpb) : Bytes → List Call → Prop := Along g fun v c => c.Succeeds g v

/-- A call on the map from folded names to contents. -/
def Call.onFiles (m : List UInt8 → Option (List UInt8)) : Call → List UInt8 → Option (List UInt8)
  | .write name data => Function.update m (nameTo83 name) (some data)
  | .delete name => Function.update m (nameTo83 name) none
  | _ => m

/-- The volume holds exactly the files of `m`, all of them whole. -/
def Holds (L : Layout) (v : Bytes) (m : List UInt8 → Option (List UInt8)) : Prop :=
  ∃ t, Shows L v t ∧ t.Sound L ∧ t.Whole L ∧ t.files L = m

variable {m : List UInt8 → Option (List UInt8)}

/-- A write with room for it returns, and where it succeeds it has set its key. -/
theorem holds_writeFile {t : Tables} (hshows : Shows L v t) (hsound : t.Sound L) (hwhole : t.Whole L)
    {name : CString} {data : List UInt8} (hroom : t.Room L (nameTo83 name) data)
    (hfirst : (nameTo83 name).headD 0 ≠ 0xE5) :
    ∃ r, (fat12WriteFile L.bpb name data v).out = .done r ∧
      (r = 0 → Holds L (fat12WriteFile L.bpb name data v).state
        (Function.update (t.files L) (nameTo83 name) (some data))) := by
  obtain ⟨r, hr, hret, hshows'⟩ := (total_writeFile hshows name data (hsound.reads _) hroom).returns
  have h0 := nameTo83_ne_zero name _ (headD_nameTo83_mem name)
  refine ⟨r, hr, fun hzero => ?_⟩
  obtain ⟨hfiles, hwhole'⟩ := writeFile_files hsound hwhole
    (fun c h2 hc => length_dat hshows h2 hc) h0 hfirst (hret.symm.trans hzero)
  exact ⟨_, hshows', (writeFile_sound hsound data h0).1, hwhole', hfiles⟩

/-- A successful write sets its key. -/
theorem Holds.write (hL : L.Full) (h : Holds L v m) {name : CString} (hname : name.Printable)
    {data : List UInt8} (hret : (fat12WriteFile L.bpb name data v).out = .done 0) :
    Holds L (fat12WriteFile L.bpb name data v).state
      (Function.update m (nameTo83 name) (some data)) := by
  obtain ⟨t, hshows, hsound, hwhole, rfl⟩ := h
  have hfirst := nameTo83_ne_deleted hname _ (headD_nameTo83_mem name)
  obtain ⟨r, hr, hholds⟩ := holds_writeFile hshows hsound hwhole (room_of_full hL _ data) hfirst
  exact hholds (Outcome.done.inj (hr.symm.trans hret))

/-- A deletion answers whether the key was there, and removes it. -/
theorem Holds.delete (h : Holds L v m) (name : CString) :
    ∃ r, (fat12DeleteFile L.bpb name v).out = .done r ∧
      (r = 0 ↔ m (nameTo83 name) ≠ none) ∧ (r ≠ 0 → r = -1) ∧
      Holds L (fat12DeleteFile L.bpb name v).state (Function.update m (nameTo83 name) none) := by
  obtain ⟨t, hshows, hsound, hwhole, rfl⟩ := h
  obtain ⟨r, hr, hret, hshows'⟩ := (total_deleteFile hshows name (hsound.reads _)).returns
  obtain ⟨hiff, hfiles, hwhole'⟩ := deleteFile_files hsound hwhole (nameTo83 name)
  refine ⟨r, hr, hret ▸ hiff, fun hne => ?_, _, hshows', (deleteFile_sound hsound _).1, hwhole',
    hfiles⟩
  rw [hret] at hne ⊢
  unfold Tables.deleteFile at hne ⊢
  split
  · rfl
  · next hsome =>
    rw [hsome] at hne
    exact absurd rfl hne

/-- What a read returns, on a sound volume. -/
theorem read_out (hshows : Shows L v t) (hs : t.Sound L) (name : CString) (bufSize : Nat) :
    (fat12ReadFile L.bpb name bufSize v).out =
      .done ((t.files L (nameTo83 name)).map fun data => data.take bufSize) := by
  obtain ⟨r, hr, hret, _⟩ := (total_readFile hshows name bufSize (hs.reads _)).returns
  rw [hr, hret, readFile_eq_files]

/-- A read looks its key up. -/
theorem Holds.read (h : Holds L v m) (name : CString) (bufSize : Nat) :
    (fat12ReadFile L.bpb name bufSize v).out =
      .done ((m (nameTo83 name)).map fun data => data.take bufSize) ∧
      (fat12ReadFile L.bpb name bufSize v).state = v := by
  obtain ⟨t, hshows, hsound, _, rfl⟩ := h
  obtain ⟨r, hr, hret, hstate⟩ := (total_readFile hshows name bufSize (hsound.reads _)).returns
  exact ⟨read_out hshows hsound name bufSize, hstate⟩

/-- A volume holds one file under a name. -/
theorem Holds.agree {m' : List UInt8 → Option (List UInt8)} (h : Holds L v m) (h' : Holds L v m')
    (name : CString) : m (nameTo83 name) = m' (nameTo83 name) := by
  have hread : ∀ n, (m (nameTo83 name)).map (fun data => data.take n) =
      (m' (nameTo83 name)).map fun data => data.take n := fun n =>
    Outcome.done.inj ((h.read name n).1.symm.trans (h'.read name n).1)
  cases hm : m (nameTo83 name) with
  | none =>
    rw [hm] at hread
    exact (Option.map_eq_none_iff.mp (hread 0).symm).symm
  | some data =>
    cases hm' : m' (nameTo83 name) with
    | none =>
      rw [hm, hm'] at hread
      cases hread 0
    | some data' =>
      rw [hm, hm'] at hread
      have hsame : data.take (max data.length data'.length) = data'.take (max data.length data'.length) :=
        Option.some.inj (hread (max data.length data'.length))
      rw [List.take_of_length_le (Nat.le_max_left _ _), List.take_of_length_le (Nat.le_max_right _ _)] at hsame
      rw [hsame]

/-- A listing with room enumerates the keys. -/
theorem Holds.list (h : Holds L v m) :
    ∃ keys : List (List UInt8), keys.Nodup ∧ (∀ key, key ∈ keys ↔ m key ≠ none) ∧
      ∀ maxEntries, keys.length ≤ maxEntries →
        (fat12ListRoot L.bpb maxEntries v).out = .done (keys.map fun key =>
          ⟨formatName key, ((m key).getD []).length, 0x20⟩) := by
  obtain ⟨t, hshows, hsound, hwhole, rfl⟩ := h
  obtain ⟨keys, hnd, hmem, hlist⟩ := listRoot_files hsound hwhole
  refine ⟨keys, hnd, hmem, fun maxEntries hmax => ?_⟩
  obtain ⟨r, hr, hret, _⟩ := (total_listRoot hshows maxEntries).returns
  rw [hr, hret, hlist maxEntries hmax]

/-- One call of a run. -/
theorem Holds.call (hL : L.Full) (h : Holds L v m) {c : Call} (hc : c.Printable)
    (hok : c.Succeeds L.bpb v) : Holds L (c.run L.bpb v).state (c.onFiles m) := by
  have hbind : ∀ {α : Type} {p : Fat α} {f : α → Reply} {a : α}, (p v).out = .done a →
      ((do return f (← p)) : Fat Reply) v = ⟨.done (f a), (p v).state, (p v).log ++ []⟩ :=
    fun hp => Prog.bind_run_done (by rw [← hp])
  cases c with
  | list n =>
    obtain ⟨t, hshows, hrest⟩ := h
    obtain ⟨r, hr, _, hstate⟩ := (total_listRoot hshows n).returns
    rw [Call.run, hbind hr, hstate]
    exact ⟨t, hshows, hrest⟩
  | read name n =>
    obtain ⟨hr, hstate⟩ := h.read name n
    rw [Call.run, hbind hr, hstate]
    exact h
  | write name data =>
    rw [Call.run, hbind hok]
    exact h.write hL hc hok
  | delete name =>
    obtain ⟨r, hr, _, _, hholds⟩ := h.delete name
    rw [Call.run, hbind hr]
    exact hholds

/-- A run whose writes succeed is a run on the map. -/
theorem Holds.after (hL : L.Full) {calls : List Call} (h : Holds L v m)
    (hprint : ∀ c ∈ calls, c.Printable) (hok : WritesSucceed L.bpb v calls) :
    Holds L (after L.bpb v calls) (calls.foldl Call.onFiles m) := by
  induction calls generalizing v m with
  | nil => exact h
  | cons c calls ih =>
    exact ih (h.call hL (hprint c List.mem_cons_self) hok.1)
      (fun d hd => hprint d (List.mem_cons_of_mem c hd)) hok.2

theorem ramdisk_holds : Holds Ramdisk.layout Ramdisk.ramdiskInit Ramdisk.sampleFiles := by
  obtain ⟨s, t, hs, _, h⟩ := Ramdisk.ramdisk_built
  exact hs ▸ ⟨t, h.shows, h.sound, h.whole, h.files⟩

/-- From the ramdisk, any run whose writes all returned 0, with printable names, is a
run on the finite map that starts with the sample files: reads return the first
`bufSize` bytes last written under the folded name, or -1 when it has no file;
deletions return 0 exactly for the names that have one; and a listing with room
shows every file once, under its name and size. -/
theorem ramdisk_refines_map (calls : List Call) (hprint : ∀ c ∈ calls, c.Printable)
    (hok : WritesSucceed Ramdisk.bpb Ramdisk.ramdiskInit calls) :
    (∀ name bufSize,
      (fat12ReadFile Ramdisk.bpb name bufSize (after Ramdisk.bpb Ramdisk.ramdiskInit calls)).out =
        .done ((calls.foldl Call.onFiles Ramdisk.sampleFiles (nameTo83 name)).map
          fun data => data.take bufSize)) ∧
    (∀ name, ∃ r,
      (fat12DeleteFile Ramdisk.bpb name (after Ramdisk.bpb Ramdisk.ramdiskInit calls)).out =
        .done r ∧
      (r = 0 ↔ calls.foldl Call.onFiles Ramdisk.sampleFiles (nameTo83 name) ≠ none)) ∧
    ∃ keys : List (List UInt8), keys.Nodup ∧
      (∀ key, key ∈ keys ↔ calls.foldl Call.onFiles Ramdisk.sampleFiles key ≠ none) ∧
      ∀ maxEntries, keys.length ≤ maxEntries →
        (fat12ListRoot Ramdisk.bpb maxEntries
          (after Ramdisk.bpb Ramdisk.ramdiskInit calls)).out = .done (keys.map fun key =>
          ⟨formatName key,
            ((calls.foldl Call.onFiles Ramdisk.sampleFiles key).getD []).length, 0x20⟩) := by
  have h : Holds Ramdisk.layout (after Ramdisk.bpb Ramdisk.ramdiskInit calls)
      (calls.foldl Call.onFiles Ramdisk.sampleFiles) :=
    ramdisk_holds.after Ramdisk.layout_full hprint hok
  refine ⟨fun name bufSize => (h.read name bufSize).1, fun name => ?_, h.list⟩
  obtain ⟨r, hr, hiff, _⟩ := h.delete name
  exact ⟨r, hr, hiff⟩

/-- `readme.txt` -/
def readmeName : CString :=
  ⟨[0x72, 0x65, 0x61, 0x64, 0x6D, 0x65, 0x2E, 0x74, 0x78, 0x74], by decide⟩

theorem readmeName_printable : readmeName.Printable := by
  unfold CString.Printable
  decide

theorem zero_not_mem_x : (0 : UInt8) ∉ [0x78] := by decide

/-- `x` -/
def xName : CString := ⟨[0x78], zero_not_mem_x⟩

/-- Emptying a file that exists succeeds. -/
theorem Holds.truncate (hL : L.Full) (h : Holds L v m) {name : CString}
    (hsome : m (nameTo83 name) ≠ none) : (fat12WriteFile L.bpb name [] v).out = .done 0 := by
  obtain ⟨t, hshows, hsound, _, rfl⟩ := h
  obtain ⟨r, hr, hret, _⟩ :=
    (total_writeFile hshows name [] (hsound.reads _) (room_of_full hL _ _)).returns
  have hk : clustersFor L.bpb.clusterBytes ([] : List UInt8).length = 0 :=
    clustersFor_zero L.clusterBytes_pos
  have hfind : t.find (nameTo83 name) L.bpb.rootEntryCount 0 ≠ none := fun hn => hsome (by
    unfold Tables.files
    rw [hn, Option.map_none])
  rcases writeFile_cases L t (nameTo83 name) [] with
    ⟨hfull, _⟩ | ⟨_, ⟨i, _, heq⟩ | ⟨hn, _, _⟩ | ⟨i, hn, _, _⟩⟩
  · rw [hk] at hfull
    exact absurd hfull (Nat.not_lt_zero _)
  · rw [hr, hret, heq]
  · exact absurd hn hfind
  · exact absurd hn hfind

theorem ramdisk_refines_map_readme :
    (fat12ReadFile Ramdisk.bpb readmeName 100
      (after Ramdisk.bpb Ramdisk.ramdiskInit [.write readmeName [], .delete readmeName])).out =
        .done none := by
  have hsample : Ramdisk.sampleFiles (nameTo83 readmeName) ≠ none := by decide
  have hwrite := ramdisk_holds.truncate Ramdisk.layout_full hsample
  have h := (ramdisk_refines_map [.write readmeName [], .delete readmeName]
    (fun c hc => by
      rcases List.mem_cons.mp hc with rfl | hc
      · exact readmeName_printable
      · obtain rfl := List.mem_singleton.mp hc
        exact readmeName_printable)
    ⟨hwrite, trivial, trivial⟩).1 readmeName 100
  rw [h]
  simp only [List.foldl_cons, List.foldl_nil, Call.onFiles, Function.update_self, Option.map_none]

end RainbowOs.Fat12
