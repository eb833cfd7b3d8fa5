import Mathlib.Data.List.Nodup
import RainbowOs.Fat12.Files

/-!
# A volume is a finite map

The purpose of the driver in four equations. `Tables.files` is the map from
folded names to contents; on a sound volume whose files are whole, a
successful write is an update of that map, a deletion removes a key, a read
looks a key up, and a listing enumerates the keys.
-/

namespace RainbowOs.Fat12

open RainbowOs.Lib RainbowOs.Lib.Linked

variable {L : Layout} {t : Tables} {name83 data : List UInt8}

/-- The entry of a written name is live unless the name starts with the deletion mark. -/
theorem liveAt_of_name {i : Nat} (hi : i < L.bpb.rootEntryCount) (hname : (t.ent i).name = name83)
    (hattr : (t.ent i).attr = 0x20) (h0 : name83.headD 0 ≠ 0x00) (h5 : name83.headD 0 ≠ 0xE5) :
    t.LiveAt L i := by
  refine ⟨hi, ?_, ?_, ?_, ?_⟩
  · unfold Entry.mark
    rwa [hname]
  · unfold Entry.mark
    rwa [hname]
  · rw [hattr]
    decide
  · rw [hattr]
    decide

/-- A successful write sets one key and keeps every file whole. -/
theorem writeFile_files (h : t.Sound L) (hw : t.Whole L)
    (hdat : ∀ c, 2 ≤ c → c < L.cells → (t.dat c).length = L.bpb.clusterBytes)
    (h0 : name83.headD 0 ≠ 0x00) (h5 : name83.headD 0 ≠ 0xE5)
    (hret : (t.writeFile L name83 data).1 = 0) :
    (t.writeFile L name83 data).2.files L = Function.update (t.files L) name83 (some data) ∧
      (t.writeFile L name83 data).2.Whole L := by
  obtain ⟨hsound, hkeep⟩ := writeFile_sound h data h0
  obtain ⟨i, hilt, hname, hsize, hattr, hcontents, hrest⟩ := writeFile_ok h hdat h0 hret
  generalize (t.writeFile L name83 data).2 = t' at *
  have hattr' : (t'.ent i).attr = 0x20 := by
    rcases hattr with ⟨j, hj, heq⟩ | heq
    · rw [heq]
      exact (hw j hj).1
    · exact heq
  have hi : t'.LiveAt L i := liveAt_of_name hilt hname hattr' h0 h5
  have hback : ∀ j, t'.LiveAt L j → j ≠ i → t.LiveAt L j ∧ (t.ent j).name ≠ name83 := by
    intro j hj hji
    have hent := hrest j hji
    refine ⟨⟨hj.1, hent ▸ hj.2⟩, fun heq => hji ?_⟩
    exact hsound.unique j i hj hi (by rw [hent, heq, hname])
  have hkeep' : ∀ j, t.LiveAt L j → (t.ent j).name ≠ name83 → t.Keeps L t' j := fun j hj hne =>
    hkeep j hj fun hf => hne (h.find_eq_some_iff.mp hf).2
  refine ⟨?_, fun j hj => ?_⟩
  · funext key
    by_cases hkey : key = name83
    · rw [hkey, Function.update_self, ← hname, files_eq_some hsound hi, hcontents hi]
    · rw [Function.update_of_ne hkey]
      exact files_of_keeps_but h hsound hkeep'
        (fun j hj hne => hback j hj fun hji => hne (hji ▸ hname)) hkey
  · by_cases hji : j = i
    · subst hji
      exact ⟨hattr', by rw [hcontents hi, hsize]⟩
    · obtain ⟨hj₀, hne⟩ := hback j hj hji
      have hk := hkeep' j hj₀ hne
      rw [hk.contents, hk.ent]
      exact hw j hj₀

/-- A deletion removes one key and keeps every file whole. -/
theorem deleteFile_files (h : t.Sound L) (hw : t.Whole L) (name83 : List UInt8) :
    ((t.deleteFile L name83).1 = 0 ↔ t.files L name83 ≠ none) ∧
      (t.deleteFile L name83).2.files L = Function.update (t.files L) name83 none ∧
      (t.deleteFile L name83).2.Whole L := by
  obtain ⟨hsound, hkeep⟩ := deleteFile_sound h name83
  cases hfind : t.find name83 L.bpb.rootEntryCount 0 with
  | none =>
    have hdel : t.deleteFile L name83 = (-1, t) := by
      unfold Tables.deleteFile
      rw [hfind]
    have hfiles : t.files L name83 = none := by
      unfold Tables.files
      rw [hfind, Option.map_none]
    rw [hdel, hfiles]
    refine ⟨⟨fun h => absurd h (show ¬ (-1 : Int) = 0 by decide), fun h => absurd rfl h⟩, ?_, hw⟩
    rw [← hfiles, Function.update_eq_self]
  | some i =>
    obtain ⟨hi, hname⟩ := h.find_eq_some_iff.mp hfind
    have hdel : t.deleteFile L name83 =
        (0, (t.release L.cells (some i)).dropEntry i) := by
      unfold Tables.deleteFile
      rw [hfind]
    have hfiles : t.files L name83 ≠ none := by
      unfold Tables.files
      rw [hfind, Option.map_some]
      exact Option.some_ne_none _
    have hent : ∀ j, j ≠ i → (t.deleteFile L name83).2.ent j = t.ent j := by
      intro j hji
      rw [hdel]
      unfold Tables.dropEntry
      rw [setEnt_of_ne hji, release_ent]
    have hmark : ((t.deleteFile L name83).2.ent i).mark = 0xE5 := by
      rw [hdel]
      unfold Tables.dropEntry
      rw [setEnt_self]
      rfl
    have hret : (t.deleteFile L name83).1 = 0 := by rw [hdel]
    generalize (t.deleteFile L name83) = out at *
    obtain ⟨r, t'⟩ := out
    have hback : ∀ j, t'.LiveAt L j → t.LiveAt L j ∧ (t.ent j).name ≠ name83 := by
      intro j hj
      have hji : j ≠ i := fun hji => not_live_of_mark hmark (hji ▸ hj.2)
      refine ⟨⟨hj.1, hent j hji ▸ hj.2⟩, fun heq => hji ?_⟩
      exact h.unique j i ⟨hj.1, hent j hji ▸ hj.2⟩ hi (heq.trans hname.symm)
    have hkeep' : ∀ j, t.LiveAt L j → (t.ent j).name ≠ name83 → t.Keeps L t' j := fun j hj hne =>
      hkeep j hj fun hf => hne (h.find_eq_some_iff.mp hf).2
    refine ⟨⟨fun _ => hfiles, fun _ => hret⟩, ?_, fun j hj => ?_⟩
    · funext key
      by_cases hkey : key = name83
      · have hnone : t'.find name83 L.bpb.rootEntryCount 0 = none := by
          refine hsound.find_eq_none_iff.mpr fun j hj heq => ?_
          obtain ⟨hj₀, hne⟩ := hback j hj
          exact hne ((hkeep' j hj₀ hne).ent ▸ heq)
        rw [hkey, Function.update_self]
        unfold Tables.files
        rw [hnone, Option.map_none]
      · rw [Function.update_of_ne hkey]
        exact files_of_keeps_but h hsound hkeep' (fun j hj _ => hback j hj) hkey
    · obtain ⟨hj₀, hne⟩ := hback j hj
      have hk := hkeep' j hj₀ hne
      rw [hk.contents, hk.ent]
      exact hw j hj₀

/-- A listing with room enumerates the keys, each once, with the size of its file. -/
theorem listRoot_files (h : t.Sound L) (hw : t.Whole L) :
    ∃ keys : List (List UInt8), keys.Nodup ∧
      (∀ key, key ∈ keys ↔ t.files L key ≠ none) ∧
      ∀ maxEntries, keys.length ≤ maxEntries → t.listRoot L maxEntries = keys.map fun key =>
        ⟨formatName key, ((t.files L key).getD []).length, 0x20⟩ := by
  refine ⟨(t.live L.bpb.rootEntryCount 0).map fun i => (t.ent i).name, ?_, fun key => ?_,
    fun maxEntries hmax => ?_⟩
  · refine List.Nodup.map_on (fun i hi j hj heq => ?_) ?_
    · exact h.unique i j (h.mem_live_iff.mp hi) (h.mem_live_iff.mp hj) heq
    · exact ((List.nodup_range').sublist (List.takeWhile_sublist _)).filter _
  · rw [List.mem_map]
    constructor
    · rintro ⟨i, hi, rfl⟩
      rw [files_eq_some h (h.mem_live_iff.mp hi)]
      exact Option.some_ne_none _
    · intro hne
      cases hfind : t.find key L.bpb.rootEntryCount 0 with
      | none =>
        refine absurd ?_ hne
        unfold Tables.files
        rw [hfind, Option.map_none]
      | some i =>
        obtain ⟨hi, hname⟩ := h.find_eq_some_iff.mp hfind
        exact ⟨i, h.mem_live_iff.mpr hi, hname⟩
  · rw [List.length_map] at hmax
    unfold Tables.listRoot
    rw [List.take_of_length_le hmax, List.map_map]
    refine List.map_congr_left fun i hi => ?_
    obtain ⟨hattr, hsize⟩ := hw i (h.mem_live_iff.mp hi)
    show (t.ent i).listed = _
    simp only [Function.comp_apply, files_eq_some h (h.mem_live_iff.mp hi), Option.getD_some,
      hsize, ← hattr]
    rfl

end RainbowOs.Fat12
