import Kyuzen.Kfs.Backed

/-!
# What a failed create leaves behind

`kfs_create_file` takes sectors one after the other and does not give them back when the disk is
full or the directory has no room for the entry; `kfs_create_folder` gives its sector back in
memory only. `NoTrace` says that nothing of this is left, in memory and on the disk.
`failed_create_no_trace` gives the exact cases for every reachable state.
-/

namespace Kyuzen.Kfs

open Lib.Chain

/-- A directory, or the first sector of a file or folder. -/
def IsObject (s : State) (h : Nat) : Prop :=
  ReachDir s h ∨ ∃ p ∈ entries s, (s.entry p).startSector = h

/-- The free sectors are the same, and so are the sectors and the contents of every directory and
every file. -/
structure SameContents (s s' : State) : Prop where
  root : s'.currentFs.rootDirSector = s.currentFs.rootDirSector
  free : freeSectors s' = freeSectors s
  object : ∀ h, IsObject s h → ∀ l, Follows s h l →
    Follows s' h l ∧ ∀ x ∈ l, s'.disk x = s.disk x

/-- Nothing has changed, in memory and for a mount of the disk. -/
def NoTrace (s s' : State) : Prop :=
  SameContents s s' ∧ SameContents (fromDisk s) (fromDisk s')

theorem SameContents.refl (s : State) : SameContents s s :=
  ⟨rfl, rfl, fun _ _ _ hl => ⟨hl, fun _ _ => rfl⟩⟩

theorem NoTrace.refl (s : State) : NoTrace s s := ⟨SameContents.refl s, SameContents.refl _⟩

theorem Rep.isObject_iff {s : State} {t : Tree} (h : Rep s t) {k : Nat} :
    IsObject s k ↔ t.IsHead k := by
  constructor
  · rintro (hd | ⟨p, hp, rfl⟩)
    · exact Tree.isHead_of_isDir (h.reachDir_iff.mp hd)
    · obtain ⟨a, ha, -, hentry⟩ := h.mem_entries.mp hp
      rw [← hentry]
      exact Tree.isHead_of_mem ha
  · rintro (hroot | ⟨a, ha, hstart⟩)
    · exact Or.inl (h.reachDir_iff.mpr (Or.inl hroot))
    · obtain ⟨-, -, -, hentry, -⟩ := (h.mem_iff a).mp ha
      exact Or.inr ⟨a.slot, h.mem_entries.mpr ⟨a, ha, rfl, hentry.symm⟩, by rw [hentry, hstart]⟩

/-- Two states of one tree. -/
theorem sameContents_of_rep {s s' : State} {t : Tree} (h : Rep s t) (h' : Rep s' t)
    (htotal : s'.totalDiskSectors = s.totalDiskSectors)
    (hfree : ∀ x, s.currentFs.rootDirSector < x → x < s.totalDiskSectors →
      (s'.fatTable x = fatFree ↔ s.fatTable x = fatFree))
    (hdisk : ∀ x, t.Used x → s'.disk x = s.disk x) : SameContents s s' := by
  have hroot := h'.root.symm.trans h.root
  have hset : freeSectors s' = freeSectors s := by
    ext x
    rw [mem_freeSectors, mem_freeSectors, hroot, htotal]
    exact and_congr_right fun hlo => and_congr_right fun hhi => hfree x hlo hhi
  refine ⟨hroot, hset, fun k hk l hl => ?_⟩
  have hhead := h.isObject_iff.mp hk
  rw [(h.chains k hhead).eq_of_follows h.geometry hl]
  exact ⟨(h'.chains k hhead).follows h'.geometry, fun x hx => hdisk x ⟨k, hhead, hx⟩⟩

/-! ## Files -/

/-- The sectors that are taken before the disk or the directory turns out to be full. -/
def FileTraces (s : State) (path : CStr) (size : Nat) : Prop :=
  ∃ d, Absent s path d ∧ 0 < sectorsNeeded size ∧ freeSectors s ≠ ∅ ∧
    ¬Fits s d (sectorsNeeded size)

variable {s : State} {t : Tree} {path : CStr}

theorem Absent.unique {d d' : Nat} (h : Absent s path d) (h' : Absent s path d') : d = d' := by
  have heq := h.1.symm.trans h'.1
  simpa using heq

/-- A claimed sector is missing from the free ones. -/
theorem Allocated.trace {data : Nat → UInt8} {size : Nat} {s' : State} {l : List Nat}
    (hg : Geometry s) (halloc : Allocated data size s s' l) (hne : l ≠ []) : ¬NoTrace s s' := by
  intro hno
  obtain ⟨x, hx⟩ := List.exists_mem_of_ne_nil l hne
  have hfree := (halloc.freeSectors hg).1 (List.mem_toFinset.mpr hx)
  rw [← hno.1.free, mem_freeSectors] at hfree
  exact halloc.notMem hg hfree.2.2 hx

theorem createFile_noTrace_iff (h : Rep s t) (hpath : 0 ∉ path) (drive : Drive) (noise : Noise)
    (data : Nat → UInt8) (size : Nat) :
    (∀ out, kfsCreateFile drive noise.fat noise.stack s path data size = some out → out.ret = 0 →
      NoTrace s out.state) ↔ ¬FileTraces s path size := by
  by_cases habsent : ∃ d, Absent s path d
  · obtain ⟨d, ha⟩ := habsent
    obtain ⟨out, hrun, hcases⟩ :=
      kfsCreateFile_absent h hpath ha drive noise.fat noise.stack data size
    rcases hcases with ⟨hfits, hone⟩ | ⟨hno, hzero, l, halloc, hlen, hsame⟩
    · constructor
      · rintro - ⟨d', ha', -, -, hno⟩
        rw [ha'.unique ha] at hno
        exact hno hfits
      · intro _ out' hrun' hzero
        rw [hrun] at hrun'
        rw [← Option.some.inj hrun', hone] at hzero
        cases hzero
    · constructor
      · rintro hclean ⟨-, -, hneeded, hfree, -⟩
        refine halloc.trace h.geometry ?_ (hclean out hrun hzero)
        have hpos := Finset.card_pos.mpr (Finset.nonempty_iff_ne_empty.mpr hfree)
        apply List.ne_nil_of_length_pos
        omega
      · intro hno' out' hrun' _
        rw [hrun] at hrun'
        rw [← Option.some.inj hrun', hsame ?_]
        · exact NoTrace.refl s
        · rw [← List.length_eq_zero_iff, hlen]
          by_contra hne
          refine hno' ⟨d, ha, by omega, fun hempty => ?_, hno⟩
          rw [hempty, Finset.card_empty] at hne
          omega
  · obtain ⟨out, hrun, -, hsame⟩ :=
      kfsCreateFile_present h hpath habsent drive noise.fat noise.stack data size
    constructor
    · rintro - ⟨d, ha, -⟩
      exact habsent ⟨d, ha⟩
    · intro _ out' hrun' _
      rw [hrun] at hrun'
      rw [← Option.some.inj hrun', hsame]
      exact NoTrace.refl s

/-! ## Folders -/

/-- The last free sector is taken for a folder whose entry has no room, and the disk has it as a
free one. -/
def FolderTraces (s : State) (path : CStr) : Prop :=
  LastSector s path ∧ diskFat s (findFreeSector s) = fatFree

/-- The state after the sector was given back in memory. -/
def givenBack (s : State) : State :=
  setFat (takeFolderSector s (findFreeSector s)) (findFreeSector s) fatFree

theorem givenBack_fatTable (hfree : findFreeSector s ≠ 0) :
    (givenBack s).fatTable = s.fatTable := by
  have htable : (takeFolderSector s (findFreeSector s)).fatTable =
      Function.update s.fatTable (findFreeSector s) fatEof := by
    simp [takeFolderSector, ataWriteSector, setFat]
  show Function.update (takeFolderSector s (findFreeSector s)).fatTable _ _ = _
  rw [htable, Function.update_idem, ← (findFreeSector_spec hfree).2.2, Function.update_eq_self]

/-- The FAT sector of the sector was written while that was taken. -/
theorem givenBack_diskFat (h : Rep s t) (hb : Backed s ∅) (hfree : findFreeSector s ≠ 0) {x : Nat}
    (hx : x < s.totalDiskSectors) : diskFat (givenBack s) x =
      if x / 128 = findFreeSector s / 128 then
        if x = findFreeSector s then fatEof else s.fatTable x
      else diskFat s x := by
  obtain ⟨hlo, hhi, hfat⟩ := findFreeSector_spec hfree
  have hg := h.geometry
  have hroot := hg.root
  have hcover := hg.cover
  obtain ⟨hlayout, -, -, -, -, -⟩ := takeFolderSector_rep h hfat ⟨hlo, hhi⟩
  have hg' : Geometry (givenBack s) := (hg.congr hlayout).setFat _ _
  have htotal : (givenBack s).totalDiskSectors = s.totalDiskSectors := hlayout.total
  have hdisk : (givenBack s).disk (1 + x / 128) =
      if x / 128 = findFreeSector s / 128 then
        encodeFat (Function.update s.fatTable (findFreeSector s) fatEof) (x / 128)
      else s.disk (1 + x / 128) := by
    show Function.update (kfsSyncFat (setFat s (findFreeSector s) fatEof)
      (findFreeSector s)).disk (findFreeSector s) _ (1 + x / 128) = _
    rw [Function.update_of_ne (by omega), kfsSyncFat]
    rw [if_neg (show ¬findFreeSector s ≥ (setFat s _ fatEof).totalDiskSectors from not_le.mpr hhi)]
    show Function.update s.disk (1 + findFreeSector s / 128) _ (1 + x / 128) = _
    by_cases hsec : x / 128 = findFreeSector s / 128
    · rw [if_pos hsec, hsec, Function.update_self]
      rfl
    · rw [if_neg hsec, Function.update_of_ne (by omega)]
  rw [diskFat_of_lt hg' (by rwa [htotal]), hdisk]
  by_cases hsec : x / 128 = findFreeSector s / 128
  · rw [if_pos hsec, if_pos hsec, load_encodeFat _ _ (by omega), Nat.div_add_mod]
    by_cases hxf : x = findFreeSector s
    · rw [if_pos hxf, hxf, Function.update_self]
      rfl
    · rw [if_neg hxf, Function.update_of_ne hxf, Nat.mod_eq_of_lt (hb.lt x)]
  · rw [if_neg hsec, if_neg hsec, diskFat_of_lt hg hx]

/-- When a sector is the only free one, giving it back leaves no trace but in its own entry. -/
theorem givenBack_noTrace_iff (h : Rep s t) (hb : Backed s ∅) (hlast : LastSector s path) :
    NoTrace s (givenBack s) ↔ diskFat s (findFreeSector s) ≠ fatFree := by
  obtain ⟨d, -, -, -, hfree, honly⟩ := hlast
  obtain ⟨hlo, hhi, hfat⟩ := findFreeSector_spec hfree
  obtain ⟨hlayout, h₂, hdisk, hunused, -, -⟩ := takeFolderSector_rep h hfat ⟨hlo, hhi⟩
  have heof : fatEof ≠ fatFree := by decide
  have hown := givenBack_diskFat h hb hfree hhi
  rw [if_pos rfl, if_pos rfl] at hown
  constructor
  · intro hno hdiskfree
    have hfromDisk := (fromDisk_rep h hb).root.symm.trans h.root
    have hmem : findFreeSector s ∈ freeSectors (fromDisk s) := by
      rw [mem_freeSectors, hfromDisk]
      exact ⟨hlo, hhi, hdiskfree⟩
    rw [← hno.2.free, mem_freeSectors] at hmem
    exact heof (hown.symm.trans hmem.2.2)
  · intro hne
    have hrep : Rep (givenBack s) t := by
      refine h₂.frame ⟨rfl, rfl, rfl⟩ rfl fun x hu => ⟨Function.update_of_ne ?_ _ _, rfl⟩
      rintro rfl
      exact hunused hu
    have hb' : Backed (givenBack s) ∅ :=
      (takeFolderSector_backed h.geometry hb hlo.le hhi).setFat_free _
    refine ⟨sameContents_of_rep h hrep hlayout.total
      (fun x _ _ => by rw [givenBack_fatTable hfree]) hdisk,
      sameContents_of_rep (fromDisk_rep h hb) (fromDisk_rep hrep hb') hlayout.total
        (fun x hx hxhi => ?_) hdisk⟩
    rw [(fromDisk_rep h hb).root.symm.trans h.root] at hx
    show diskFat (givenBack s) x = fatFree ↔ diskFat s x = fatFree
    rw [givenBack_diskFat h hb hfree hxhi]
    split_ifs with hsec hxf
    · rw [hxf]
      exact ⟨fun hc => absurd hc heof, fun hc => absurd hc hne⟩
    · -- no other sector is free, so the disk already has its entry
      have hxne : s.fatTable x ≠ fatFree := fun hc => hxf (honly x hx hxhi hc)
      rw [hb.fat x hxhi (Set.notMem_empty x) hxne]
    · exact Iff.rfl

theorem LastSector.absent (h : LastSector s path) : ∃ d, Absent s path d ∧ DirFull s d := by
  obtain ⟨d, hsplit, hfind, hfull, -⟩ := h
  exact ⟨d, ⟨hsplit, hfind⟩, hfull⟩

/-- The only free sector is not enough for a folder in a full directory. -/
theorem LastSector.not_fits (h : LastSector s path) {d : Nat} (ha : Absent s path d) :
    ¬Fits s d 1 := by
  obtain ⟨d', hsplit, hfind, hfull, hfree, honly⟩ := h
  have hd : d = d' := ha.unique ⟨hsplit, hfind⟩
  rintro ⟨-, hroom⟩
  refine hroom ⟨hd ▸ hfull, ?_⟩
  symm
  rw [Finset.card_eq_one]
  refine ⟨findFreeSector s, Finset.eq_singleton_iff_unique_mem.mpr ⟨findFreeSector_mem hfree, ?_⟩⟩
  intro x hx
  obtain ⟨hlo, hhi, hfat⟩ := mem_freeSectors.mp hx
  exact honly x hlo hhi hfat

theorem createFolder_noTrace_iff (h : Rep s t) (hb : Backed s ∅) (hpath : 0 ∉ path)
    (noise : Noise) : (∀ out, kfsCreateFolder noise.stack s path = some out → out.ret = 0 →
      NoTrace s out.state) ↔ ¬FolderTraces s path := by
  by_cases habsent : ∃ d, Absent s path d
  · obtain ⟨d, ha⟩ := habsent
    obtain ⟨out, hrun, hcases⟩ := kfsCreateFolder_absent h hpath ha noise.stack
    rcases hcases with ⟨hfits, hone⟩ | ⟨hzero, ⟨hempty, hsame⟩ | ⟨hlast, hstate⟩⟩
    · constructor
      · rintro - ⟨hlast, -⟩
        exact hlast.not_fits ha hfits
      · intro _ out' hrun' hzero
        rw [hrun] at hrun'
        rw [← Option.some.inj hrun', hone] at hzero
        cases hzero
    · constructor
      · rintro - ⟨⟨-, -, -, -, hfree, -⟩, -⟩
        exact hfree (findFreeSector_eq_zero.mpr hempty)
      · intro _ out' hrun' _
        rw [hrun] at hrun'
        rw [← Option.some.inj hrun', hsame]
        exact NoTrace.refl s
    · constructor
      · rintro hclean ⟨-, hdiskfree⟩
        have hno := hclean out hrun hzero
        rw [hstate] at hno
        exact (givenBack_noTrace_iff h hb hlast).mp hno hdiskfree
      · intro hno out' hrun' _
        rw [hrun] at hrun'
        rw [← Option.some.inj hrun', hstate]
        exact (givenBack_noTrace_iff h hb hlast).mpr fun hdiskfree => hno ⟨hlast, hdiskfree⟩
  · obtain ⟨out, hrun, -, hsame⟩ := kfsCreateFolder_present h hpath habsent noise.stack
    constructor
    · rintro - ⟨hlast, -⟩
      obtain ⟨d, ha, -⟩ := hlast.absent
      exact habsent ⟨d, ha⟩
    · intro _ out' hrun' _
      rw [hrun] at hrun'
      rw [← Option.some.inj hrun', hsame]
      exact NoTrace.refl s

/-! ## Reachable states -/

/-- In every reachable state a failed create leaves a trace exactly when it has taken sectors
before it fails, or gives back the last sector without writing the FAT. -/
theorem failed_create_no_trace {drive : Drive} (hroom : drive.HasRoom) {s : State}
    (h : Reach drive (fun _ _ => True) s) {path : CStr} (hpath : 0 ∉ path) (noise : Noise)
    (data : Nat → UInt8) (size : Nat) :
    ((∀ out, kfsCreateFile drive noise.fat noise.stack s path data size = some out →
        out.ret = 0 → NoTrace s out.state) ↔ ¬FileTraces s path size) ∧
      ((∀ out, kfsCreateFolder noise.stack s path = some out →
        out.ret = 0 → NoTrace s out.state) ↔ ¬FolderTraces s path) := by
  obtain ⟨t, ht⟩ := reach_rep hroom h
  exact ⟨createFile_noTrace_iff ht hpath drive noise data size,
    createFolder_noTrace_iff ht (reach_backed hroom h) hpath noise⟩

theorem failed_create_no_trace_fresh :
    Reach smallDrive (fun _ _ => True) (kfsFormat smallDrive (fun _ => 0) blankState) ∧
      ((∀ out, kfsCreateFile smallDrive noNoise.fat noNoise.stack
          (kfsFormat smallDrive (fun _ => 0) blankState) [97] (fun _ => 0) 600 = some out →
          out.ret = 0 → NoTrace (kfsFormat smallDrive (fun _ => 0) blankState) out.state) ↔
        ¬FileTraces (kfsFormat smallDrive (fun _ => 0) blankState) [97] 600) ∧
      ((∀ out, kfsCreateFolder noNoise.stack (kfsFormat smallDrive (fun _ => 0) blankState)
          [97] = some out → out.ret = 0 →
          NoTrace (kfsFormat smallDrive (fun _ => 0) blankState) out.state) ↔
        ¬FolderTraces (kfsFormat smallDrive (fun _ => 0) blankState) [97]) :=
  ⟨Reach.format _ _, failed_create_no_trace smallDrive_hasRoom (Reach.format _ _) (by decide)
    noNoise (fun _ => 0) 600⟩

/-- Eighteen sectors of data on a disk with seventeen free ones: the call fails, and the
seventeen are gone. -/
theorem full_disk_after_failure : ∃ out,
    kfsCreateFile smallDrive noNoise.fat noNoise.stack
      (kfsFormat smallDrive (fun _ => 0) blankState) [97] (fun _ => 0) 9216 = some out ∧
    out.ret = 0 ∧ ¬NoTrace (kfsFormat smallDrive (fun _ => 0) blankState) out.state := by
  have hval : (kfsCreateFile smallDrive noNoise.fat noNoise.stack
      (kfsFormat smallDrive (fun _ => 0) blankState) [97] (fun _ => 0) 9216).map
      (fun out => (out.ret, findFreeSector out.state)) = some (0, 0) := by decide +kernel
  obtain ⟨out, hrun, hfields⟩ := Option.map_eq_some_iff.mp hval
  obtain ⟨hret, hfull⟩ := Prod.mk.inj hfields
  refine ⟨out, hrun, hret, fun hno => ?_⟩
  have hfree : findFreeSector (kfsFormat smallDrive (fun _ => 0) blankState) ≠ 0 := by
    decide +kernel
  rw [ne_eq, findFreeSector_eq_zero, ← hno.1.free, ← findFreeSector_eq_zero] at hfree
  exact hfree hfull

end Kyuzen.Kfs
