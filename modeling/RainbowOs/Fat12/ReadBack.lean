import RainbowOs.Fat12.FileMap
import RainbowOs.Fat12.Persist

/-!
# Reading a file back

A file that `diskfs_write_file` has reported written is read back by
`fat12_read_file`, on every sound volume and whatever the drive answers to
the sync: the sync reads the volume and does not change it.
-/

namespace RainbowOs.Fat12

open RainbowOs.Lib RainbowOs.Lib.Linked

variable {L : Layout} {t : Tables} {v : Bytes} {s : DiskState} {name : CString} {data : List UInt8}

/-- The named entry is live after a write that returned 0. -/
theorem files_of_written (h : t.Sound L)
    (hdat : ∀ c, 2 ≤ c → c < L.cells → (t.dat c).length = L.bpb.clusterBytes)
    (hdeleted : (nameTo83 name).headD 0 ≠ 0xE5) (hret : (t.writeFile L (nameTo83 name) data).1 = 0) :
    (t.writeFile L (nameTo83 name) data).2.files L (nameTo83 name) = some data := by
  have hmark := nameTo83_ne_zero name _ (headD_nameTo83_mem name)
  have hsound := (writeFile_sound h data hmark).1
  obtain ⟨i, hi, hent, -, hattr, hcontents, -⟩ := writeFile_ok h hdat hmark hret
  generalize (t.writeFile L (nameTo83 name) data).2 = t' at *
  have hlive : t'.LiveAt L i := by
    have hplain : (t'.ent i).attr &&& 0x08 = 0 ∧ (t'.ent i).attr &&& 0x10 = 0 := by
      rcases hattr with ⟨j, hj, heq⟩ | heq
      · rw [heq]
        exact hj.2.2.2
      · rw [heq]
        decide
    refine ⟨hi, ?_, ?_, hplain⟩
    · rwa [Entry.mark, hent]
    · rwa [Entry.mark, hent]
  have hfiles := files_eq_some hsound hlive
  rwa [hent, hcontents hlive] at hfiles

/-- The sync leaves the volume. -/
theorem total_syncAfter (result : Int) (s : DiskState) :
    (syncAfter result).total Syncs (fun _ s' => s'.vol = s.vol ∧ s'.bpb = s.bpb) s := by
  unfold syncAfter
  refine Prog.wp_bind.mpr (Prog.wp_get ?_)
  split
  · next h =>
    unfold diskfsSync
    refine Prog.wp_bind.mpr (Prog.wp_bind.mpr (Prog.wp_get ?_))
    rw [if_pos h.2]
    refine Prog.wp_mono (wp_writePartition s) (fun _ h => h) (fun r s' hr => ?_) fun _ _ h => h
    obtain ⟨disk, answers, rfl, -, -⟩ := hr
    exact Prog.wp_pure ⟨rfl, rfl⟩
  · exact Prog.wp_pure ⟨rfl, rfl⟩

/-- The sync does not change what the write has returned and left. -/
theorem total_diskfsWriteFile {r : Int} (hr : (fat12WriteFile s.bpb name data s.vol).out = .done r) :
    (diskfsWriteFile name data).total Syncs (fun r' s' => r' = r ∧
      s'.vol = (fat12WriteFile s.bpb name data s.vol).state ∧ s'.bpb = s.bpb) s := by
  have hset : ∀ v, (s.setVol v).vol = v ∧ (s.setVol v).bpb = s.bpb := fun v => by
    cases s with
    | mk volume ramdisk disk answers available onRamdisk bpb =>
      cases onRamdisk <;> exact ⟨rfl, rfl⟩
  obtain ⟨hvol, hbpb⟩ := hset (fat12WriteFile s.bpb name data s.vol).state
  unfold diskfsWriteFile
  refine Prog.wp_bind.mpr (Prog.wp_get (Prog.wp_bind.mpr (wp_onVol (fun r' hr' => ?_) fun e he => ?_)))
  · obtain rfl := Outcome.done.inj (hr.symm.trans hr')
    refine Prog.wp_bind.mpr (Prog.wp_mono (total_syncAfter r _) (fun _ h => h) (fun _ s' hs' => ?_)
      fun _ _ h => h)
    exact Prog.wp_pure ⟨rfl, hs'.1.trans hvol, hs'.2.trans hbpb⟩
  · rw [hr] at he
    cases he

/-- What a write has reported done is read. -/
theorem write_reads_back (hbpb : s.bpb = L.bpb) (hsound : SoundVolume L s.vol)
    (hfit : (Call.write name data).Fits L s.vol) (hname : name.Printable) :
    (diskfsWriteFile name data).total Syncs (fun r s' => r = 0 → ∀ bufSize,
      (fat12ReadFile s'.bpb name bufSize s'.vol).out = .done (some (data.take bufSize))) s := by
  have hshows := shows_tablesOf L s.vol
  obtain ⟨r, hr, hret, hshows'⟩ := (total_writeFile hshows name data (hsound.reads _) hfit).returns
  have hmark := nameTo83_ne_zero name _ (headD_nameTo83_mem name)
  have hsound' := (writeFile_sound hsound data hmark).1
  rw [← hbpb] at hr hshows'
  refine Prog.wp_mono (total_diskfsWriteFile hr) (fun _ h => h) (fun r' s' hs' => ?_) fun _ _ h => h
  obtain ⟨rfl, hvol, hbpb'⟩ := hs'
  intro hzero bufSize
  rw [hvol, hbpb', hbpb]
  rw [hbpb] at hshows'
  obtain ⟨res, hres, heq, -⟩ := (total_readFile hshows' name bufSize (hsound'.reads _)).returns
  rw [hres, heq, readFile_eq_files, files_of_written hsound
    (fun c h2 hc => length_dat hshows h2 hc) (nameTo83_ne_deleted hname _ (headD_nameTo83_mem name))
    (hret.symm.trans hzero)]
  rfl

end RainbowOs.Fat12
