import Kyuzen.Kfs.Capacity
import Kyuzen.Kfs.View

/-!
# Replacing a file

A file is replaced by a delete and a create on one path. The delete gives back the sectors of the
file and its slot, so the create fits when the new sectors are no more than the free ones and the
old ones together (`replace_spec`). When it does not fit, the path names nothing afterwards.
-/

namespace Kyuzen.Kfs

open Lib.Memory Lib.Chain

variable {s s' : State} {t : Tree} {path : CStr} {a : Item}

/-! ## Deleting -/

/-- The sectors that are free after a file was deleted. -/
theorem freeSectors_removed (h : Rep s t) (hrem : Removed s t s' a)
    (hfreed : ∀ x ∈ t.chain a.entry.startSector, s'.fatTable x = fatFree)
    (hsame : ∀ x, x ∉ t.chain a.entry.startSector → s'.fatTable x = s.fatTable x) :
    (freeSectors s').card = (freeSectors s).card + chainLength a.entry.sizeBytes := by
  have hhead := Tree.isHead_of_mem hrem.mem
  have hc := h.chains _ hhead
  have hset : freeSectors s' = freeSectors s ∪ (t.chain a.entry.startSector).toFinset := by
    ext x
    rw [Finset.mem_union, List.mem_toFinset, mem_freeSectors, mem_freeSectors, hrem.layout.root,
      hrem.layout.total]
    by_cases hx : x ∈ t.chain a.entry.startSector
    · -- the chain of a file does not go through the root directory
      have hne : x ≠ s.currentFs.rootDirSector := by
        rintro rfl
        rw [← h.root] at hx
        have hroot := h.ok.head_mem t.root (Or.inl rfl)
        exact h.ok.start_ne a hrem.mem (h.ok.disjoint _ _ _ hhead (Or.inl rfl) hx hroot)
      obtain ⟨hlo, hhi⟩ := hc.range x hx
      exact ⟨fun _ => Or.inr hx, fun _ => ⟨by omega, hhi, hfreed x hx⟩⟩
    · rw [hsame x hx]
      exact ⟨fun hfree => Or.inl hfree, fun hor => hor.resolve_right hx⟩
  have hdisjoint : Disjoint (freeSectors s) (t.chain a.entry.startSector).toFinset := by
    rw [Finset.disjoint_right]
    intro x hx hfree
    exact hc.fat_ne_free h.geometry (List.mem_toFinset.mp hx) (mem_freeSectors.mp hfree).2.2
  rw [hset, Finset.card_union_of_disjoint hdisjoint,
    List.toFinset_card_of_nodup (hc.nodup h.geometry), h.ok.length a hrem.mem hrem.file]

/-- The slot of the file is empty. -/
theorem Removed.not_dirFull (hrem : Removed s t s' a) (h : Rep s t) : ¬DirFull s' a.dir := by
  intro hfull
  obtain ⟨hdir, hsec, hidx, -, -⟩ := (h.mem_iff a).mp hrem.mem
  have hdir' : (t.erase a).IsDir a.dir := by
    rcases hdir with hroot | ⟨b, hb, hbf, hstart⟩
    · exact Or.inl hroot
    · refine Or.inr ⟨b, Finset.mem_erase.mpr ⟨?_, hb⟩, hbf, hstart⟩
      rintro rfl
      rw [hrem.file] at hbf
      exact absurd hbf (by decide)
  have hslot := List.find?_eq_none.mp ((dirFull_iff hrem.rep hdir').mp hfull a.slot.1 hsec) a.slot.2
    (List.mem_range.mpr hidx)
  have hused : (s'.entry a.slot).flags ≠ flagEmpty := by
    intro hflags
    exact hslot (decide_eq_true hflags)
  have hmem : (⟨a.dir, a.slot, s'.entry a.slot⟩ : Item) ∈ (t.erase a).items :=
    (hrem.rep.mem_iff _).mpr ⟨hdir', hsec, hidx, rfl, hused⟩
  obtain ⟨hne, hmem'⟩ := Finset.mem_erase.mp hmem
  exact hne (h.slot_inj hmem' hrem.mem rfl)

/-- The path of the deleted file can be created again. -/
theorem Removed.absent (hrem : Removed s t s' a) (h : Fs s t) (hp : Resolvable path)
    (hsplit : splitLast s path = some (some (a.dir, lastName path)))
    (hname : storedName a.entry.filename = lastName path) : Absent s' path a.dir := by
  have h' := hrem.fs h
  obtain ⟨-, hne, hwalk⟩ := (splitLast_iff h.rep h.unique hp.1).mp hsplit
  have hfolders : ∀ b ∈ t.items, b.entry.flags = flagFolder → b ∈ (t.erase a).items := by
    intro b hb hbf
    refine Finset.mem_erase.mpr ⟨?_, hb⟩
    rintro rfl
    rw [hrem.file] at hbf
    exact absurd hbf (by decide)
  have hwalk' : (t.erase a).Walk (t.erase a).root (components (parentPath path)) a.dir :=
    Tree.walk_mono hfolders hwalk
  have hsplit' : splitLast s' path = some (some (a.dir, lastName path)) :=
    (splitLast_iff h'.rep h'.unique hp.1).mpr ⟨rfl, hne, hwalk'⟩
  refine ⟨hsplit', ?_⟩
  rcases splitLast_cases h'.rep hp.1 with hnone | ⟨d, hd, _, hsplit''⟩
  · rw [hsplit'] at hnone
    cases hnone
  · obtain rfl : a.dir = d := by simpa using hsplit'.symm.trans hsplit''
    rcases findEntryIn_cases h'.rep hd (nul_notMem_lastName hp.1) with
      ⟨b, hb, hbd, hbn, _⟩ | ⟨hfind, _⟩
    · obtain ⟨hba, hb'⟩ := Finset.mem_erase.mp hb
      exact absurd (h.unique b hb' a hrem.mem hbd (hbn.trans hname.symm)) hba
    · exact hfind

/-- A path that names a file can be deleted, which leaves room for another one. -/
theorem kfsDeleteFile_file (h : Fs s t) (hp : Resolvable path) {old : List UInt8}
    (hold : fileAt s path = some ⟨flagFile, old⟩) : ∃ out d t', kfsDeleteFile s path = some out ∧
      Fs out.state t' ∧ Absent out.state path d ∧ ¬DirFull out.state d ∧
      (freeSectors out.state).card = (freeSectors s).card + chainLength old.length := by
  unfold fileAt at hold
  rcases entryOf_cases h.rep hp.1 with ⟨a, ha, hentry, hsplit, hfind, hname⟩ | ⟨hnone, _⟩
  · rw [hentry, Option.map_some, Option.some_inj] at hold
    obtain ⟨hfile, hcontent⟩ := File.mk.inj hold
    obtain ⟨out, hrun, hrem, hfreed, hsame⟩ := kfsDeleteFile_item h.rep ha hfile hsplit hfind
    refine ⟨out, a.dir, _, hrun, hrem.fs h, hrem.absent h hp hsplit hname,
      hrem.not_dirFull h.rep, ?_⟩
    rw [freeSectors_removed h.rep hrem hfreed hsame, ← hcontent, contentOf_length h.toSound ha]
  · rw [hnone] at hold
    cases hold

/-! ## Creating -/

theorem fileAt_absent {d : Nat} (ha : Absent s path d) : fileAt s path = none := by
  unfold fileAt entryOf
  rw [ha.1]
  simp [ha.2]

/-- A new name is created when it fits, and else it names nothing. -/
theorem create_spec (h : Fs s t) (hp : Resolvable path) {d : Nat} (ha : Absent s path d)
    (hshort : (lastName path).length ≤ 22) (drive : Drive) (noise : Noise) (data : Mem)
    {size : Nat} (hsize : size ≤ 0xFFFFFE00) :
    ∃ out t', kfsCreateFile drive noise.fat noise.stack s path data size = some out ∧
      Fs out.state t' ∧
      (Fits s d (chainLength size) ∧ out.ret = 1 ∧
          fileAt out.state path = some ⟨flagFile, prefixOf data size⟩ ∨
        ¬Fits s d (chainLength size) ∧ out.ret = 0 ∧ fileAt out.state path = none) := by
  obtain ⟨out, hrun, hcases⟩ :=
    kfsCreateFile_absent h.rep hp.1 ha drive noise.fat noise.stack data size
  rw [sectorsNeeded_eq hsize] at hcases
  have hexec : exec drive noise s (.createFile path data size) = some out := hrun
  have hv : (Op.createFile path data size).Valid := ⟨hp.1, hsize⟩
  obtain ⟨t', h', -⟩ := exec_fileAt h hv hshort hexec
  rcases hcases with ⟨hfits, hret⟩ | ⟨hno, hret, l, halloc, -, -⟩
  · exact ⟨out, t', hrun, h',
      Or.inl ⟨hfits, hret, kfsCreateFile_fileAt h hp hshort hsize hrun hret⟩⟩
  · refine ⟨out, t', hrun, h', Or.inr ⟨hno, hret, ?_⟩⟩
    obtain ⟨hrep, hdisk, -⟩ := allocated_rep h.rep halloc
    have hfs : Fs out.state t := ⟨⟨hrep, h.folder⟩, h.unique⟩
    rw [fileAt_congr h hfs (kept_of_disk hdisk) hp fun _ => Iff.rfl]
    exact fileAt_absent ha

/-- A file is deleted and created anew: the new one is there when it fits into the free sectors
and those of the old one, and else there is none. -/
theorem replace_spec (h : Fs s t) (hp : Resolvable path) (hshort : (lastName path).length ≤ 22)
    {old : List UInt8} (hold : fileAt s path = some ⟨flagFile, old⟩) (drive : Drive)
    (noise : Noise) (data : Mem) {size : Nat} (hsize : size ≤ 0xFFFFFE00) :
    ∃ out₁ out₂ t', kfsDeleteFile s path = some out₁ ∧
      kfsCreateFile drive noise.fat noise.stack out₁.state path data size = some out₂ ∧
      Fs out₂.state t' ∧
      (chainLength size ≤ (freeSectors s).card + chainLength old.length ∧ out₂.ret = 1 ∧
          fileAt out₂.state path = some ⟨flagFile, prefixOf data size⟩ ∨
        ¬chainLength size ≤ (freeSectors s).card + chainLength old.length ∧ out₂.ret = 0 ∧
          fileAt out₂.state path = none) := by
  obtain ⟨out₁, d, t₁, hdel, h₁, ha, hroom, hcard⟩ := kfsDeleteFile_file h hp hold
  obtain ⟨out₂, t', hcreate, h', hcases⟩ := create_spec h₁ hp ha hshort drive noise data hsize
  refine ⟨out₁, out₂, t', hdel, hcreate, h', ?_⟩
  have hfits : Fits out₁.state d (chainLength size) ↔
      chainLength size ≤ (freeSectors s).card + chainLength old.length := by
    unfold Fits
    rw [hcard]
    exact and_iff_left fun hfull => hroom hfull.1
  rwa [hfits] at hcases

end Kyuzen.Kfs
