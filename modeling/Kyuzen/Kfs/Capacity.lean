import Kyuzen.Kfs.Runs

/-!
# Room on the disk

When a create succeeds. A file takes `sectorsNeeded size` sectors, a folder takes one, and a full
directory one more for its entry. `kfs_create_file` takes the sectors one by one, and when it
fails it keeps those it has taken (`kfsCreateFile_absent`); `kfs_create_folder` gives its sector
back in memory (`kfsCreateFolder_absent`).
-/

namespace Kyuzen.Kfs

open Lib.Chain

/-- The sectors that `find_free_sector` can return. -/
def freeSectors (s : State) : Finset Nat :=
  (Finset.range s.totalDiskSectors).filter fun x =>
    s.currentFs.rootDirSector < x ∧ s.fatTable x = fatFree

theorem mem_freeSectors {s : State} {x : Nat} : x ∈ freeSectors s ↔
    s.currentFs.rootDirSector < x ∧ x < s.totalDiskSectors ∧ s.fatTable x = fatFree := by
  unfold freeSectors
  rw [Finset.mem_filter, Finset.mem_range]
  tauto

theorem findFreeSector_mem {s : State} (h : findFreeSector s ≠ 0) :
    findFreeSector s ∈ freeSectors s :=
  mem_freeSectors.mpr (findFreeSector_spec h)

theorem findFreeSector_eq_zero {s : State} : findFreeSector s = 0 ↔ freeSectors s = ∅ := by
  constructor
  · intro h
    apply Finset.eq_empty_of_forall_notMem
    intro x hx
    obtain ⟨hlo, hhi, hfree⟩ := mem_freeSectors.mp hx
    exact findFreeSector_none h hlo hhi hfree
  · intro h
    by_contra hne
    have hmem := findFreeSector_mem hne
    rw [h] at hmem
    exact Finset.notMem_empty _ hmem

section Allocated

variable {data : Nat → UInt8} {size : Nat} {s s' : State} {l : List Nat}

theorem Allocated.nodup (hg : Geometry s) (h : Allocated data size s s' l) : l.Nodup := by
  by_cases hne : l = []
  · rw [hne]
    exact List.nodup_nil
  · exact (h.isChain hne).nodup (hg.congr h.sameLayout)

/-- The sectors of the list are those that are no longer free. -/
theorem Allocated.freeSectors (hg : Geometry s) (h : Allocated data size s s' l) :
    l.toFinset ⊆ freeSectors s ∧ Kfs.freeSectors s' = Kfs.freeSectors s \ l.toFinset := by
  constructor
  · intro x hx
    obtain ⟨hfree, hlo, hhi⟩ := h.free x (List.mem_toFinset.mp hx)
    exact mem_freeSectors.mpr ⟨hlo, hhi, hfree⟩
  · ext x
    rw [Finset.mem_sdiff, List.mem_toFinset, mem_freeSectors, mem_freeSectors, h.header, h.total]
    constructor
    · rintro ⟨hlo, hhi, hfree⟩
      have hx := h.notMem hg hfree
      exact ⟨⟨hlo, hhi, (h.fat x hx).symm.trans hfree⟩, hx⟩
    · rintro ⟨⟨hlo, hhi, hfree⟩, hx⟩
      exact ⟨hlo, hhi, (h.fat x hx).trans hfree⟩

theorem Allocated.card (hg : Geometry s) (h : Allocated data size s s' l) :
    l.length ≤ (Kfs.freeSectors s).card ∧
      (Kfs.freeSectors s').card = (Kfs.freeSectors s).card - l.length := by
  obtain ⟨hsub, heq⟩ := h.freeSectors hg
  have hcard := Finset.card_le_card hsub
  rw [List.toFinset_card_of_nodup (h.nodup hg)] at hcard
  rw [heq, Finset.card_sdiff_of_subset hsub, List.toFinset_card_of_nodup (h.nodup hg)]
  exact ⟨hcard, rfl⟩

end Allocated

/-- The allocation loop takes as many sectors as it needs, or all there are. -/
theorem writeChunks_card {data : Nat → UInt8} {size n : Nat} {s : State} (hg : Geometry s) :
    ∃ s' l, Allocated data size s s' l ∧ l.length = min n (freeSectors s).card ∧
      (l = [] → s' = s) ∧ writeChunks data n s 0 0 0 size =
        (if n ≤ (freeSectors s).card then some (l.headD 0) else none, s') := by
  obtain ⟨s', l, halloc, hrun⟩ := writeChunks_allocated hg n (Allocated.refl data size s)
  simp only [List.headD_nil, List.getLastD_nil, List.length_nil, Nat.mul_zero, Nat.zero_min,
    Nat.sub_zero, Nat.zero_add] at hrun
  obtain ⟨hle, hcard⟩ := halloc.card hg
  have hlen : l.length = min n (freeSectors s).card ∧ writeChunks data n s 0 0 0 size =
      (if n ≤ (freeSectors s).card then some (l.headD 0) else none, s') := by
    rcases hrun with ⟨hrun, hfull, hlt⟩ | ⟨hrun, hlen⟩
    · rw [findFreeSector_eq_zero] at hfull
      rw [hfull, Finset.card_empty] at hcard
      rw [hrun, if_neg (by omega)]
      exact ⟨by omega, rfl⟩
    · rw [hrun, if_pos (by omega)]
      exact ⟨by omega, rfl⟩
  refine ⟨s', l, halloc, hlen.1, fun hnil => ?_, hlen.2⟩
  have hstate : s' = (writeChunks data n s 0 0 0 size).2 := by rw [hlen.2]
  rw [hstate]
  cases n with
  | zero => rfl
  | succ n =>
    have hzero : (freeSectors s).card = 0 := by
      have hmin := hlen.1
      rw [hnil, List.length_nil] at hmin
      omega
    rw [Finset.card_eq_zero, ← findFreeSector_eq_zero] at hzero
    rw [writeChunks]
    simp only [if_pos hzero]

/-! ## Directories -/

section Directory

variable {s : State} {t : Tree} {d : Nat}

theorem dirFull_iff (h : Rep s t) (hd : t.IsDir d) :
    DirFull s d ↔ ∀ x ∈ t.chain d, emptyInSector (s.disk x) = none := by
  have hc := h.chains d (Tree.isHead_of_isDir hd)
  constructor
  · exact fun hfull => hfull _ (hc.follows h.geometry)
  · intro hfull l hl
    rw [hc.eq_of_follows h.geometry hl]
    exact hfull

theorem dirFull_congr {s' : State} (h : Rep s t) (h' : Rep s' t) (hd : t.IsDir d)
    (hdisk : ∀ x, t.Used x → s'.disk x = s.disk x) : DirFull s' d ↔ DirFull s d := by
  rw [dirFull_iff h hd, dirFull_iff h' hd]
  have hused : ∀ x ∈ t.chain d, s'.disk x = s.disk x := fun x hx =>
    hdisk x ⟨d, Tree.isHead_of_isDir hd, hx⟩
  constructor
  · intro hfull x hx
    rw [← hused x hx]
    exact hfull x hx
  · intro hfull x hx
    rw [hused x hx]
    exact hfull x hx

/-- An entry finds no room only in a full directory on a full disk. -/
theorem insertDirEntry_ret (h : Rep s t) (hd : t.IsDir d) (e : Entry) :
    ∃ inserted s', insertDirEntry s d e = some (inserted, s') ∧
      (inserted = false ↔ DirFull s d ∧ freeSectors s = ∅) ∧ (inserted = false → s' = s) := by
  rw [dirFull_iff h hd, ← findFreeSector_eq_zero]
  rcases insertDirEntry_steps h hd e with
    ⟨x, hx, i, hi, hflags, hrun⟩ | ⟨hfull, ⟨hfree, hrun⟩ | ⟨hfree, _, _, hrun⟩⟩
  · refine ⟨true, _, hrun, ?_, fun hc => by cases hc⟩
    constructor
    · intro hc
      cases hc
    · rintro ⟨hfull, -⟩
      have hslot := List.find?_eq_none.mp (hfull x hx) i (List.mem_range.mpr hi)
      exact absurd (decide_eq_true hflags) hslot
  · exact ⟨false, s, hrun, ⟨fun _ => ⟨hfull, hfree⟩, fun _ => rfl⟩, fun _ => rfl⟩
  · exact ⟨true, _, hrun, ⟨fun hc => (by cases hc), fun hc => absurd hc.2 hfree⟩,
      fun hc => by cases hc⟩

end Directory

/-! ## The calls -/

section Calls

variable {s : State} {t : Tree} {d : Nat} {path : CStr}

/-- The path has the directory `d` and a last component that is not there yet. -/
def Absent (s : State) (path : CStr) (d : Nat) : Prop :=
  splitLast s path = some (some (d, lastName path)) ∧
    findEntryIn s d (lastName path) = some none

/-- `n` sectors and the entry find room. -/
def Fits (s : State) (d n : Nat) : Prop :=
  n ≤ (freeSectors s).card ∧ ¬(DirFull s d ∧ n = (freeSectors s).card)

theorem absent_isDir (h : Rep s t) (hpath : 0 ∉ path) (ha : Absent s path d) : t.IsDir d := by
  rcases splitLast_cases h hpath with hnone | ⟨d', hd, _, hsplit⟩
  · rw [ha.1] at hnone
    cases hnone
  · rw [ha.1] at hsplit
    obtain rfl : d = d' := by simpa using hsplit
    exact hd

theorem not_absent_cases (h : Rep s t) (hpath : 0 ∉ path) (hno : ¬∃ d, Absent s path d) :
    splitLast s path = some none ∨ ∃ d found, splitLast s path = some (some (d, lastName path)) ∧
      findEntryIn s d (lastName path) = some (some found) := by
  rcases splitLast_cases h hpath with hsplit | ⟨d, hd, _, hsplit⟩
  · exact Or.inl hsplit
  rcases findEntryIn_cases h hd (nul_notMem_lastName hpath) with ⟨b, _, _, _, hfind⟩ | ⟨hfind, _⟩
  · exact Or.inr ⟨d, _, hsplit, hfind⟩
  · exact absurd ⟨d, hsplit, hfind⟩ hno

/-- A create of a name that is there, or in no directory, does nothing. -/
theorem kfsCreateFile_present (h : Rep s t) (hpath : 0 ∉ path) (hno : ¬∃ d, Absent s path d)
    (drive : Drive) (staleFat : Nat → UInt32) (stale : Nat → UInt8) (data : Nat → UInt8)
    (size : Nat) : ∃ out, kfsCreateFile drive staleFat stale s path data size = some out ∧
      out.ret = 0 ∧ out.state = s := by
  have hroot : ¬s.currentFs.rootDirSector < 2 := not_lt.mpr h.geometry.two_le
  unfold kfsCreateFile
  simp only [if_neg hroot]
  rcases not_absent_cases h hpath hno with hsplit | ⟨d, found, hsplit, hfind⟩
  · simp only [hsplit, Option.bind_eq_bind, Option.bind_some]
    exact ⟨_, rfl, rfl, rfl⟩
  · simp only [hsplit, hfind, Option.bind_eq_bind, Option.bind_some]
    exact ⟨_, rfl, rfl, rfl⟩

theorem kfsCreateFolder_present (h : Rep s t) (hpath : 0 ∉ path) (hno : ¬∃ d, Absent s path d)
    (stale : Nat → UInt8) : ∃ out, kfsCreateFolder stale s path = some out ∧
      out.ret = 0 ∧ out.state = s := by
  unfold kfsCreateFolder
  rcases not_absent_cases h hpath hno with hsplit | ⟨d, found, hsplit, hfind⟩
  · simp only [hsplit, Option.bind_eq_bind, Option.bind_some]
    exact ⟨_, rfl, rfl, rfl⟩
  · simp only [hsplit, hfind, Option.bind_eq_bind, Option.bind_some]
    exact ⟨_, rfl, rfl, rfl⟩

/-- A create of a new name succeeds when it fits. A failed one has taken what it could. -/
theorem kfsCreateFile_absent (h : Rep s t) (hpath : 0 ∉ path) (ha : Absent s path d)
    (drive : Drive) (staleFat : Nat → UInt32) (stale : Nat → UInt8) (data : Nat → UInt8)
    (size : Nat) : ∃ out, kfsCreateFile drive staleFat stale s path data size = some out ∧
      (Fits s d (sectorsNeeded size) ∧ out.ret = 1 ∨
        ¬Fits s d (sectorsNeeded size) ∧ out.ret = 0 ∧ ∃ l, Allocated data size s out.state l ∧
          l.length = min (sectorsNeeded size) (freeSectors s).card ∧ (l = [] → out.state = s)) := by
  have hroot : ¬s.currentFs.rootDirSector < 2 := not_lt.mpr h.geometry.two_le
  have hd := absent_isDir h hpath ha
  obtain ⟨s₂, l, halloc, hlen, hkept, hrun⟩ :=
    @writeChunks_card data size (sectorsNeeded size) s h.geometry
  obtain ⟨h₂, hdisk, -⟩ := allocated_rep h halloc
  obtain ⟨-, hcard⟩ := halloc.card h.geometry
  unfold kfsCreateFile
  simp only [if_neg hroot, ha.1, ha.2, hrun, Option.bind_eq_bind, Option.bind_some]
  by_cases hle : sectorsNeeded size ≤ (freeSectors s).card
  · obtain ⟨inserted, s₃, hins, hiff, hsame⟩ := insertDirEntry_ret h₂ hd
      ⟨newFilename stale (lastName path), flagFile, l.headD 0, size⟩
    have hfits : inserted = false ↔ ¬Fits s d (sectorsNeeded size) := by
      rw [hiff, dirFull_congr h h₂ hd hdisk, ← Finset.card_eq_zero, hcard]
      unfold Fits
      constructor
      · rintro ⟨hfull, hzero⟩ ⟨-, hroom⟩
        exact hroom ⟨hfull, by omega⟩
      · intro hno
        by_contra hc
        exact hno ⟨hle, fun ⟨hfull, heq⟩ => hc ⟨hfull, by omega⟩⟩
    simp only [if_pos hle, hins, Option.bind_some]
    cases inserted with
    | true =>
      exact ⟨_, rfl, Or.inl ⟨by_contra fun hno => absurd (hfits.mpr hno) (by decide), rfl⟩⟩
    | false =>
      refine ⟨_, rfl, Or.inr ⟨hfits.mp rfl, rfl, l, ?_⟩⟩
      rw [hsame rfl]
      exact ⟨halloc, hlen, hkept⟩
  · simp only [if_neg hle]
    exact ⟨_, rfl, Or.inr ⟨fun hfits => hle hfits.1, rfl, l, halloc, hlen, hkept⟩⟩

/-- A folder is created when its sector fits. A failed create gives the sector back in memory. -/
theorem kfsCreateFolder_absent (h : Rep s t) (hpath : 0 ∉ path) (ha : Absent s path d)
    (stale : Nat → UInt8) : ∃ out, kfsCreateFolder stale s path = some out ∧
      (Fits s d 1 ∧ out.ret = 1 ∨ out.ret = 0 ∧ (freeSectors s = ∅ ∧ out.state = s ∨
        LastSector s path ∧ out.state =
          setFat (takeFolderSector s (findFreeSector s)) (findFreeSector s) fatFree)) := by
  have hd := absent_isDir h hpath ha
  unfold kfsCreateFolder
  simp only [ha.1, ha.2, Option.bind_eq_bind, Option.bind_some]
  by_cases hfree : findFreeSector s = 0
  · simp only [if_pos hfree]
    exact ⟨_, rfl, Or.inr ⟨rfl, Or.inl ⟨findFreeSector_eq_zero.mp hfree, rfl⟩⟩⟩
  · obtain ⟨hlo, hhi, hfat⟩ := findFreeSector_spec hfree
    obtain ⟨hlayout, h₂, hdisk, -, -, -⟩ := takeFolderSector_rep h hfat ⟨hlo, hhi⟩
    have hset : freeSectors (takeFolderSector s (findFreeSector s)) =
        (freeSectors s).erase (findFreeSector s) := by
      ext x
      rw [Finset.mem_erase, mem_freeSectors, mem_freeSectors, hlayout.root, hlayout.total]
      have htable : (takeFolderSector s (findFreeSector s)).fatTable =
          Function.update s.fatTable (findFreeSector s) fatEof := by
        simp [takeFolderSector, ataWriteSector, setFat]
      rw [htable]
      by_cases hx : x = findFreeSector s
      · rw [hx, Function.update_self]
        exact ⟨fun hc => absurd hc.2.2 (by decide), fun hc => absurd rfl hc.1⟩
      · rw [Function.update_of_ne hx]
        exact ⟨fun hc => ⟨hx, hc⟩, fun hc => hc.2⟩
    obtain ⟨inserted, s₃, hins, hiff, hsame⟩ := insertDirEntry_ret h₂ hd
      ⟨newFilename stale (lastName path), flagFolder, findFreeSector s, 0⟩
    rw [dirFull_congr h h₂ hd hdisk, hset] at hiff
    have hmem := findFreeSector_mem hfree
    have hpos := Finset.card_pos.mpr ⟨_, hmem⟩
    rw [takeFolderSector] at hins
    simp only [if_neg hfree, hins, Option.bind_some]
    cases inserted with
    | true =>
      refine ⟨_, rfl, Or.inl ⟨⟨hpos, fun hlast => ?_⟩, rfl⟩⟩
      obtain ⟨hfull, hone⟩ := hlast
      have hnone : (freeSectors s).erase (findFreeSector s) = ∅ := by
        rw [← Finset.card_eq_zero, Finset.card_erase_of_mem hmem, ← hone]
      exact absurd (hiff.mpr ⟨hfull, hnone⟩) (by decide)
    | false =>
      obtain ⟨hfull, hnone⟩ := hiff.mp rfl
      refine ⟨_, rfl, Or.inr ⟨rfl, Or.inr ⟨⟨d, ha.1, ha.2, hfull, hfree, fun x hlo' hhi' hx => ?_⟩,
        ?_⟩⟩⟩
      · by_contra hne
        have hx' := Finset.mem_erase.mpr ⟨hne, mem_freeSectors.mpr ⟨hlo', hhi', hx⟩⟩
        rw [hnone] at hx'
        exact Finset.notMem_empty _ hx'
      · rw [hsame rfl]

end Calls

end Kyuzen.Kfs
