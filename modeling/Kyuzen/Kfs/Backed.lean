import Kyuzen.Kfs.Capacity
import Kyuzen.Kfs.Persistence

/-!
# Sectors in use on the disk

`kfs_create_folder` gives a sector back without writing the FAT, so after it a sector that is
free in memory may not be free on the disk. The other direction holds in every run: a sector that
is not free in memory has the same entry in the FAT on the disk (`Backed`, `reach_backed`). A
mount of the disk therefore finds every directory and every file (`fromDisk_rep`).
-/

namespace Kyuzen.Kfs

/-- The FAT that the disk holds. -/
def diskFat (s : State) : Nat → Nat := readFat s.disk s.fatSectorsNeeded

/-- What a mount of the disk reads. -/
def fromDisk (s : State) : State :=
  { s with fatTable := diskFat s, currentFs := decodeHeader (s.disk 0) }

/-- The disk holds the header, and the FAT entries of the sectors that are not free, those in
`pending` apart. -/
structure Backed (s : State) (pending : Set Nat) : Prop where
  header : s.disk 0 = encodeHeader s.currentFs
  lt : ∀ i, s.fatTable i < 2 ^ 32
  fat : ∀ i, i < s.totalDiskSectors → i ∉ pending → s.fatTable i ≠ fatFree →
    diskFat s i = s.fatTable i

theorem diskFat_of_lt {s : State} (hg : Geometry s) {i : Nat} (hi : i < s.totalDiskSectors) :
    diskFat s i = Lib.Memory.load (s.disk (1 + i / 128)) (4 * (i % 128)) 4 := by
  have hcover := hg.cover
  exact if_pos (by omega)

theorem Persisted.backed {s : State} (h : Persisted s) : Backed s ∅ :=
  ⟨h.header, h.lt, fun i _ _ _ => congrFun (readFat_eq h) i⟩

namespace Backed

variable {s : State} {pending pending' : Set Nat}

theorem setFat (h : Backed s pending) {i v : Nat} (hv : v < 2 ^ 32)
    (hsub : ∀ j, j ∈ pending ∨ j = i → j ∈ pending') : Backed (Kfs.setFat s i v) pending' := by
  refine ⟨h.header, fun j => ?_, fun j hj hpending hne => ?_⟩
  · show Function.update s.fatTable i v j < _
    by_cases hji : j = i
    · rw [hji, Function.update_self]
      exact hv
    · rw [Function.update_of_ne hji]
      exact h.lt j
  · have hji : j ≠ i := fun hji => hpending (hsub j (Or.inr hji))
    have hsame : (Kfs.setFat s i v).fatTable j = s.fatTable j := Function.update_of_ne hji _ _
    rw [hsame] at hne ⊢
    exact h.fat j hj (fun hc => hpending (hsub j (Or.inl hc))) hne

/-- A sector that becomes free need not be written. -/
theorem setFat_free (h : Backed s pending) (i : Nat) :
    Backed (Kfs.setFat s i fatFree) pending := by
  refine ⟨h.header, fun j => ?_, fun j hj hpending hne => ?_⟩
  · show Function.update s.fatTable i fatFree j < _
    by_cases hji : j = i
    · rw [hji, Function.update_self]
      decide
    · rw [Function.update_of_ne hji]
      exact h.lt j
  · by_cases hji : j = i
    · rw [hji] at hne
      exact absurd (Function.update_self _ _ _) hne
    · have hsame : (Kfs.setFat s i fatFree).fatTable j = s.fatTable j :=
        Function.update_of_ne hji _ _
      rw [hsame] at hne ⊢
      exact h.fat j hj hpending hne

theorem sync (hg : Geometry s) (h : Backed s pending) {i : Nat}
    (hsub : ∀ j, j ∈ pending → j < s.totalDiskSectors → j / 128 = i / 128 ∧
      i < s.totalDiskSectors ∨ j ∈ pending') : Backed (kfsSyncFat s i) pending' := by
  refine ⟨?_, fun j => ?_, fun j hj hpending hne => ?_⟩
  · rw [kfsSyncFat_disk hg i (Or.inl rfl), kfsSyncFat_currentFs]
    exact h.header
  · rw [kfsSyncFat_fatTable]
    exact h.lt j
  rw [kfsSyncFat_total] at hj
  rw [kfsSyncFat_fatTable] at hne ⊢
  have hfat := fun hc => h.fat j hj hc hne
  rw [diskFat_of_lt hg hj] at hfat
  rw [diskFat_of_lt (hg.kfsSyncFat i) (by rwa [kfsSyncFat_total]), kfsSyncFat]
  by_cases hi : i ≥ s.totalDiskSectors
  · rw [if_pos hi]
    refine hfat fun hc => ?_
    rcases hsub j hc hj with ⟨_, hlt⟩ | hmem
    · omega
    · exact hpending hmem
  · rw [if_neg hi]
    show Lib.Memory.load (Function.update s.disk (1 + i / 128) _ (1 + j / 128)) _ 4 = _
    by_cases hsec : j / 128 = i / 128
    · rw [hsec, Function.update_self, ← hsec, load_encodeFat _ _ (by omega), Nat.div_add_mod,
        Nat.mod_eq_of_lt (h.lt j)]
    · rw [Function.update_of_ne (by omega)]
      refine hfat fun hc => ?_
      rcases hsub j hc hj with ⟨heq, _⟩ | hmem
      · exact hsec heq
      · exact hpending hmem

theorem write (hg : Geometry s) (h : Backed s pending) {x : Nat}
    (hx : s.currentFs.rootDirSector ≤ x) (b : Lib.Memory.Mem) :
    Backed (ataWriteSector s x b) pending := by
  have hroot := hg.root
  have hcover := hg.cover
  refine ⟨(Function.update_of_ne (by omega) _ _).trans h.header, h.lt,
    fun j hj hpending hne => ?_⟩
  have hfat := h.fat j hj hpending hne
  rw [diskFat_of_lt hg hj] at hfat
  have hj' : j < s.totalDiskSectors := hj
  have hg' : Geometry (ataWriteSector s x b) := hg.congr ⟨rfl, rfl, rfl⟩
  rw [diskFat_of_lt hg' hj]
  show Lib.Memory.load (Function.update s.disk x b (1 + j / 128)) _ 4 = _
  rw [Function.update_of_ne (by omega)]
  exact hfat

theorem setTotalFiles (hg : Geometry s) (h : Backed s pending) (n : Nat) :
    Backed (Kfs.setTotalFiles s n) pending := by
  refine ⟨?_, h.lt, fun j hj hpending hne => ?_⟩
  · simp [Kfs.setTotalFiles, writeHeader, ataWriteSector]
  · have hj' : j < s.totalDiskSectors := hj
    have hfat := h.fat j hj hpending hne
    have hg' : Geometry (Kfs.setTotalFiles s n) := hg.congr ⟨by simp, rfl, rfl⟩
    rw [diskFat_of_lt hg hj'] at hfat
    rw [diskFat_of_lt hg' hj, setTotalFiles_disk (by omega)]
    exact hfat

end Backed

/-! ## The loops -/

variable {s : State} {t : Tree} {d : Nat}

theorem linkSector_backed (hg : Geometry s) (h : Backed s ∅) {start prev f : Nat}
    (hf : f < s.totalDiskSectors) (hprev : start ≠ 0 → prev < s.totalDiskSectors) :
    Backed (linkSector s start prev f) ∅ := by
  have hbound := hg.bound
  have hset : Backed (setFat s f fatEof) {f} := h.setFat (by decide) (by simp)
  unfold linkSector
  split_ifs with hstart
  · exact hset.sync (hg.setFat _ _) fun j hj _ => Or.inl ⟨by rw [hj], hf⟩
  · have hset₂ : Backed (setFat (setFat s f fatEof) prev f) {f, prev} :=
      hset.setFat (by omega) fun j hj => by simpa using hj
    have hg₂ := (hg.setFat f fatEof).setFat prev f
    have hsync : Backed (kfsSyncFat (setFat (setFat s f fatEof) prev f) prev) {f} := by
      refine hset₂.sync hg₂ fun j hj _ => ?_
      rcases hj with hj | hj
      · exact Or.inr hj
      · exact Or.inl ⟨by rw [hj], hprev hstart⟩
    refine hsync.sync (hg₂.kfsSyncFat prev) fun j hj _ => Or.inl ⟨by rw [hj], ?_⟩
    rw [kfsSyncFat_total]
    exact hf

theorem writeChunks_backed (data : Nat → UInt8) : ∀ (count : Nat) {s : State}
    {start prev offset remaining : Nat}, Geometry s → Backed s ∅ →
    (start ≠ 0 → prev < s.totalDiskSectors) →
    Backed (writeChunks data count s start prev offset remaining).2 ∅ := by
  intro count
  induction count with
  | zero => exact fun _ h _ => h
  | succ count ih =>
    intro s start prev offset remaining hg h hprev
    rw [writeChunks]
    by_cases hfree : findFreeSector s = 0
    · simp only [if_pos hfree]
      exact h
    · obtain ⟨hlo, hhi, -⟩ := findFreeSector_spec hfree
      obtain ⟨hfs, htotal, hneeded⟩ := linkSector_layout s start prev (findFreeSector s)
      have hg' : Geometry (linkSector s start prev (findFreeSector s)) :=
        hg.congr ⟨by rw [hfs], htotal, hneeded⟩
      have hroot : (linkSector s start prev (findFreeSector s)).currentFs.rootDirSector ≤
          findFreeSector s := by
        rw [hfs]
        exact hlo.le
      have hround := (linkSector_backed hg h hhi hprev).write hg' hroot
        (chunkAt data offset (if remaining > 512 then 512 else remaining))
      simp only [if_neg hfree]
      refine ih (hg'.congr ⟨rfl, rfl, rfl⟩) hround fun _ => ?_
      show findFreeSector s < (linkSector s start prev (findFreeSector s)).totalDiskSectors
      rw [htotal]
      exact hhi

theorem freeChain_backed : ∀ {fuel : Nat} {s s' : State} {curr : Nat}, Geometry s →
    Backed s ∅ → freeChain fuel s curr = some s' → Backed s' ∅ := by
  intro fuel
  induction fuel with
  | zero =>
    intro s s' curr _ _ hrun
    cases hrun
  | succ fuel ih =>
    intro s s' curr hg h hrun
    rw [freeChain] at hrun
    by_cases hend : curr = fatEof ∨ curr = fatFree
    · rw [if_pos hend] at hrun
      rw [← Option.some.inj hrun]
      exact h
    · rw [if_neg hend] at hrun
      have hg' := hg.setFat curr fatFree
      refine ih (hg'.kfsSyncFat curr) ?_ hrun
      exact (h.setFat_free curr).sync hg' fun j hj => absurd hj (Set.notMem_empty j)

theorem linkDirSector_backed (hg : Geometry s) (h : Backed s ∅) {last new : Nat}
    (hlast : last < s.totalDiskSectors) (hlo : s.currentFs.rootDirSector ≤ new)
    (hhi : new < s.totalDiskSectors) : Backed (linkDirSector s last new) ∅ := by
  have hbound := hg.bound
  have hset : Backed (setFat (setFat s last new) new fatEof) {last, new} :=
    (@Backed.setFat s ∅ {last} h last new (by omega) (by simp)).setFat (by decide) fun j hj => by
      simpa using hj
  have hg₂ := (hg.setFat last new).setFat new fatEof
  have hsync : Backed (kfsSyncFat (setFat (setFat s last new) new fatEof) last) {new} := by
    refine hset.sync hg₂ fun j hj _ => ?_
    rcases hj with hj | hj
    · exact Or.inl ⟨by rw [hj], hlast⟩
    · exact Or.inr hj
  have hsync₂ : Backed (kfsSyncFat (kfsSyncFat (setFat (setFat s last new) new fatEof) last) new)
      ∅ := by
    refine hsync.sync (hg₂.kfsSyncFat last) fun j hj _ => Or.inl ⟨by rw [hj], ?_⟩
    rw [kfsSyncFat_total]
    exact hhi
  refine hsync₂.write ((hg₂.kfsSyncFat last).kfsSyncFat new) ?_ _
  rw [kfsSyncFat_currentFs, kfsSyncFat_currentFs]
  exact hlo

theorem insertDirEntry_backed (h : Rep s t) (hb : Backed s ∅) (hd : t.IsDir d) {e : Entry}
    {inserted : Bool} {s' : State} (hrun : insertDirEntry s d e = some (inserted, s')) :
    Geometry s' ∧ Backed s' ∅ := by
  have hhead := Tree.isHead_of_isDir hd
  have hg := h.geometry
  rcases insertDirEntry_steps h hd e with
    ⟨x, hx, i, _, _, hins⟩ | ⟨-, ⟨_, hins⟩ | ⟨hfree, s₁, hs₁, hins⟩⟩
  all_goals
    rw [hins] at hrun
    obtain ⟨-, rfl⟩ := Prod.mk.inj (Option.some.inj hrun)
  · exact ⟨hg.congr ⟨rfl, rfl, rfl⟩, hb.write hg ((h.chains d hhead).range x hx).1 _⟩
  · exact ⟨hg, hb⟩
  · obtain ⟨hlo, hhi, -⟩ := findFreeSector_spec hfree
    obtain ⟨hfs, hlayout, -⟩ :=
      linkDirSector_frame s ((t.chain d).getLastD d) (findFreeSector s)
    have hg₁ : Geometry s₁ := by
      rw [hs₁]
      exact hg.congr hlayout
    have hlast : (t.chain d).getLastD d < s.totalDiskSectors :=
      ((h.chains d hhead).range _ (getLastD_mem d (h.chains d hhead).ne)).2
    have hb₁ : Backed s₁ ∅ := by
      rw [hs₁]
      exact linkDirSector_backed hg hb hlast hlo.le hhi
    refine ⟨hg₁.congr ⟨rfl, rfl, rfl⟩, hb₁.write hg₁ ?_ _⟩
    rw [hs₁, hfs]
    exact hlo.le

/-! ## The calls -/

theorem addFile_backed (h : Geometry s ∧ Backed s ∅) : Backed (addFile s) ∅ :=
  h.2.setTotalFiles h.1 _

theorem kfsCreateFile_backed (h : Rep s t) (hb : Backed s ∅) {path : CStr} (hpath : 0 ∉ path)
    {drive : Drive} {noise : Noise} {data : Nat → UInt8} {size : Nat} {out : Outcome}
    (hrun : kfsCreateFile drive noise.fat noise.stack s path data size = some out) :
    Backed out.state ∅ := by
  by_cases habsent : ∃ d, Absent s path d
  · obtain ⟨d, ha⟩ := habsent
    have hroot : ¬s.currentFs.rootDirSector < 2 := not_lt.mpr h.geometry.two_le
    have hd := absent_isDir h hpath ha
    obtain ⟨s₂, l, halloc, -, -, hchunks⟩ :=
      @writeChunks_card data size (sectorsNeeded size) s h.geometry
    obtain ⟨h₂, -, -⟩ := allocated_rep h halloc
    have hb₂ : Backed s₂ ∅ := by
      have hloop := @writeChunks_backed data (sectorsNeeded size) s 0 0 0 size h.geometry hb
        fun hc => absurd rfl hc
      rw [hchunks] at hloop
      exact hloop
    unfold kfsCreateFile at hrun
    simp only [if_neg hroot, ha.1, ha.2, hchunks, Option.bind_eq_bind, Option.bind_some] at hrun
    by_cases hle : sectorsNeeded size ≤ (freeSectors s).card
    · obtain ⟨inserted, s₃, hins, -, -⟩ := insertDirEntry_ret h₂ hd
        ⟨newFilename noise.stack (lastName path), flagFile, l.headD 0, size⟩
      have hb₃ := insertDirEntry_backed h₂ hb₂ hd hins
      simp only [if_pos hle, hins, Option.bind_some] at hrun
      cases inserted with
      | true =>
        rw [← Option.some.inj hrun]
        exact addFile_backed hb₃
      | false =>
        rw [← Option.some.inj hrun]
        exact hb₃.2
    · simp only [if_neg hle] at hrun
      rw [← Option.some.inj hrun]
      exact hb₂
  · obtain ⟨out', hrun', -, hsame⟩ :=
      kfsCreateFile_present h hpath habsent drive noise.fat noise.stack data size
    rw [hrun] at hrun'
    rw [Option.some.inj hrun', hsame]
    exact hb

theorem takeFolderSector_backed (hg : Geometry s) (hb : Backed s ∅) {new : Nat}
    (hlo : s.currentFs.rootDirSector ≤ new) (hhi : new < s.totalDiskSectors) :
    Backed (takeFolderSector s new) ∅ := by
  have hset : Backed (setFat s new fatEof) {new} := hb.setFat (by decide) (by simp)
  have hg' := hg.setFat new fatEof
  have hsync : Backed (kfsSyncFat (setFat s new fatEof) new) ∅ :=
    hset.sync hg' fun j hj _ => Or.inl ⟨by rw [hj], hhi⟩
  refine hsync.write (hg'.kfsSyncFat new) ?_ _
  rw [kfsSyncFat_currentFs]
  exact hlo

theorem kfsCreateFolder_backed (h : Rep s t) (hb : Backed s ∅) {path : CStr} (hpath : 0 ∉ path)
    {noise : Noise} {out : Outcome} (hrun : kfsCreateFolder noise.stack s path = some out) :
    Backed out.state ∅ := by
  by_cases habsent : ∃ d, Absent s path d
  · obtain ⟨d, ha⟩ := habsent
    have hd := absent_isDir h hpath ha
    unfold kfsCreateFolder at hrun
    simp only [ha.1, ha.2, Option.bind_eq_bind, Option.bind_some] at hrun
    by_cases hfree : findFreeSector s = 0
    · simp only [if_pos hfree] at hrun
      rw [← Option.some.inj hrun]
      exact hb
    · obtain ⟨hlo, hhi, hfat⟩ := findFreeSector_spec hfree
      obtain ⟨-, h₂, -, -, -, -⟩ := takeFolderSector_rep h hfat ⟨hlo, hhi⟩
      have hb₂ := takeFolderSector_backed h.geometry hb hlo.le hhi
      obtain ⟨inserted, s₃, hins, -, -⟩ := insertDirEntry_ret h₂ hd
        ⟨newFilename noise.stack (lastName path), flagFolder, findFreeSector s, 0⟩
      have hb₃ := insertDirEntry_backed h₂ hb₂ hd hins
      rw [takeFolderSector] at hins
      simp only [if_neg hfree, hins, Option.bind_some] at hrun
      cases inserted with
      | true =>
        rw [← Option.some.inj hrun]
        exact addFile_backed hb₃
      | false =>
        rw [← Option.some.inj hrun]
        exact hb₃.2.setFat_free _
  · obtain ⟨out', hrun', -, hsame⟩ := kfsCreateFolder_present h hpath habsent noise.stack
    rw [hrun] at hrun'
    rw [Option.some.inj hrun', hsame]
    exact hb

theorem kfsDeleteFile_backed (h : Rep s t) (hb : Backed s ∅) {path : CStr} (hpath : 0 ∉ path)
    {out : Outcome} (hrun : kfsDeleteFile s path = some out) : Backed out.state ∅ := by
  unfold kfsDeleteFile at hrun
  rcases splitLast_cases h hpath with hsplit | ⟨d, hd, _, hsplit⟩
  · simp only [hsplit, Option.bind_eq_bind, Option.bind_some] at hrun
    rw [← Option.some.inj hrun]
    exact hb
  simp only [hsplit, Option.bind_eq_bind, Option.bind_some] at hrun
  rcases findEntryIn_cases h hd (nul_notMem_lastName hpath) with
    ⟨a, ha, _, _, hfind⟩ | ⟨hfind, _⟩
  · simp only [hfind, Option.bind_some] at hrun
    by_cases hfolder : a.entry.flags = flagFolder
    · simp only [if_pos hfolder] at hrun
      rw [← Option.some.inj hrun]
      exact hb
    · have hc := h.chains _ (Tree.isHead_of_mem ha)
      obtain ⟨hne, hfuel⟩ := hc.walkable h.geometry
      obtain ⟨s', hfreed, hfs, htotal, hneeded, -, -, -⟩ := freeChain_eq h.geometry hc.path hne
        (fun x hx => (hc.range x hx).2) (hc.nodup h.geometry) hfuel
      have hg' : Geometry s' := h.geometry.congr ⟨by rw [hfs], htotal, hneeded⟩
      have hslot : s'.currentFs.rootDirSector ≤ a.slot.1 := by
        rw [hfs]
        exact (h.used_range (h.slot_used ha)).1
      simp only [if_neg hfolder, hfreed, Option.bind_some] at hrun
      rw [← Option.some.inj hrun]
      have hcleared : Backed (clearEntry s' a.slot.1 a.slot.2) ∅ :=
        (freeChain_backed h.geometry hb hfreed).write hg' hslot _
      have hg'' : Geometry (clearEntry s' a.slot.1 a.slot.2) := hg'.congr ⟨rfl, rfl, rfl⟩
      exact hcleared.setTotalFiles hg'' _
  · simp only [hfind, Option.bind_some] at hrun
    rw [← Option.some.inj hrun]
    exact hb

theorem exec_backed {drive : Drive} {noise : Noise} (h : Rep s t) (hb : Backed s ∅) {op : Op}
    (hv : op.Valid) {out : Outcome} (hrun : exec drive noise s op = some out) :
    Backed out.state ∅ := by
  cases op with
  | createFile path data size => exact kfsCreateFile_backed h hb hv.1 hrun
  | createFolder path => exact kfsCreateFolder_backed h hb hv hrun
  | deleteFile path => exact kfsDeleteFile_backed h hb hv hrun

/-- In every run the disk holds the FAT entries of all sectors in use. -/
theorem reach_backed {drive : Drive} (hroom : drive.HasRoom) {P : State → Op → Prop}
    (h : Reach drive P s) : Backed s ∅ := by
  induction h with
  | format stale s => exact Persisted.backed (format_persisted hroom stale s)
  | step noise hreach hv _ hrun ih =>
    obtain ⟨t, ht⟩ := reach_rep hroom hreach
    exact exec_backed ht ih hv hrun

/-- A mount of the disk finds the same tree. -/
theorem fromDisk_rep (h : Rep s t) (hb : Backed s ∅) : Rep (fromDisk s) t := by
  have hroom := h.geometry.room
  have hbound := h.geometry.bound
  have hcount := h.count
  have hle := h.count_le
  have hheader : decodeHeader (s.disk 0) = s.currentFs := by
    rw [hb.header]
    exact decodeHeader_encodeHeader (by omega) (by omega)
  refine h.frame ⟨?_, rfl, rfl⟩ ?_ fun x hu => ⟨?_, rfl⟩
  · exact congrArg Header.rootDirSector hheader
  · exact congrArg Header.totalFiles hheader
  · exact hb.fat x (h.used_range hu).2 (Set.notMem_empty x) (h.used_ne_free hu)

end Kyuzen.Kfs
