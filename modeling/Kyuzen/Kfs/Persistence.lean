import Kyuzen.Kfs.Runs

/-!
# Remounting

There is no single place where KyuzenFS writes its FAT back: every assignment to `fat_table`
is followed by its own `kfs_sync_fat`. One is missing. When `kfs_create_folder` has taken the
last free sector for the folder and the parent directory turns out to be full, the sector is
given back in memory only, and stays allocated on the disk (`sector_lost_on_remount`).

In a run that never does this (`KeepsSector`), the disk always holds the FAT and the header as
they are in memory, so `kfs_init` reproduces the state and nothing later can tell the
difference (`remount_same`).
-/

namespace Kyuzen.Kfs

/-- The call does not create a folder in a full directory with the last free sector. -/
def KeepsSector (s : State) (op : Op) : Prop :=
  ∀ path, op = .createFolder path → ¬ LastSector s path

/-- A state of a mounted drive, with everything written. -/
structure Mounted (drive : Drive) (s : State) (t : Tree) : Prop where
  rep : Rep s t
  persisted : Persisted s
  total : s.totalDiskSectors = totalSectors drive
  needed : s.fatSectorsNeeded = fatSectors drive

theorem format_mounted {drive : Drive} (hroom : drive.HasRoom) (stale : Nat → UInt32)
    (s : State) : Mounted drive (kfsFormat drive stale s) (freshTree drive) :=
  have hmem := kfsFormat_memory drive stale s
  ⟨format_rep hroom stale s, format_persisted hroom stale s, hmem.2.2.1, hmem.2.2.2⟩

theorem Mounted.congr {drive : Drive} {s s' : State} {t t' : Tree} (h : Mounted drive s t)
    (hrep : Rep s' t') (hlayout : SameLayout s s') (hper : Persisted s → Persisted s') :
    Mounted drive s' t' :=
  ⟨hrep, hper h.persisted, hlayout.total.trans h.total, hlayout.needed.trans h.needed⟩

theorem exec_mounted {drive : Drive} {s : State} {t : Tree} (h : Mounted drive s t)
    (noise : Noise) {op : Op} (hv : op.Valid) (hkeep : KeepsSector s op) :
    ∃ out t', exec drive noise s op = some out ∧ Mounted drive out.state t' := by
  cases op with
  | createFile path data size =>
    obtain ⟨out, hrun, ⟨_, href, hper⟩ | ⟨_, t', _, hadd, _⟩⟩ :=
      kfsCreateFile_cases h.rep drive noise.fat noise.stack hv.1 data hv.2
    · exact ⟨out, t, hrun, h.congr href.rep href.layout hper⟩
    · exact ⟨out, t', hrun, h.congr hadd.rep hadd.layout hadd.persisted⟩
  | createFolder path =>
    obtain ⟨out, hrun, ⟨_, href, hper⟩ | ⟨_, t', _, hadd, _⟩⟩ :=
      kfsCreateFolder_cases h.rep noise.stack hv
    · exact ⟨out, t, hrun, h.congr href.rep href.layout (hper (hkeep path rfl))⟩
    · exact ⟨out, t', hrun, h.congr hadd.rep hadd.layout hadd.persisted⟩
  | deleteFile path =>
    obtain ⟨out, hrun, hsame | ⟨a, hrem, _⟩⟩ := kfsDeleteFile_cases h.rep hv
    · refine ⟨out, t, hrun, ?_⟩
      rw [hsame]
      exact h
    · exact ⟨out, _, hrun, h.congr hrem.rep hrem.layout hrem.persisted⟩

theorem reach_mounted {drive : Drive} (hroom : drive.HasRoom) {s : State}
    (h : Reach drive KeepsSector s) : ∃ t, Mounted drive s t := by
  induction h with
  | format stale s => exact ⟨_, format_mounted hroom stale s⟩
  | step noise _ hv hp hrun ih =>
    obtain ⟨t, ht⟩ := ih
    obtain ⟨out, t', hrun', ht'⟩ := exec_mounted ht noise hv hp
    rw [hrun] at hrun'
    cases hrun'
    exact ⟨t', ht'⟩

/-! ## Reading the disk back -/

theorem readFat_eq {s : State} (h : Persisted s) :
    readFat s.disk s.fatSectorsNeeded = s.fatTable := by
  funext i
  unfold readFat
  split_ifs with hi
  · rw [h.fat (i / 128) (by omega) (Set.notMem_empty _), load_encodeFat _ _ (by omega),
      Nat.div_add_mod, Nat.mod_eq_of_lt (h.lt i)]
  · rw [h.beyond i (by omega)]

theorem decodeHeader_eq {s : State} {t : Tree} (h : Rep s t) (hper : Persisted s) :
    decodeHeader (s.disk 0) = s.currentFs := by
  have h1 := h.geometry.room
  have h2 := h.geometry.bound
  have h3 := h.count
  have h4 := h.count_le
  rw [hper.header]
  exact decodeHeader_encodeHeader (by omega) (by omega)

/-- Mounting the disk again gives back the state. -/
theorem Mounted.kfsInit_eq {drive : Drive} {s s' : State} {t : Tree} (h : Mounted drive s t)
    (stale : Nat → UInt32) (hdisk : s'.disk = s.disk) : kfsInit drive stale s' = s := by
  have hheader := decodeHeader_eq h.rep h.persisted
  have hmagic := h.persisted.magic
  unfold kfsInit
  simp only [hdisk, hheader]
  rw [if_neg (by simp [hmagic.1, hmagic.2]), ← h.needed, ← h.total, readFat_eq h.persisted]

/-- In every run that keeps clear of the missing write, the FAT and the header on the disk are
those in memory, and a remount changes nothing. -/
theorem remount_same {drive : Drive} (hroom : drive.HasRoom) {s : State}
    (h : Reach drive KeepsSector s) :
    s.disk 0 = encodeHeader s.currentFs ∧
      (∀ k, k < s.fatSectorsNeeded → s.disk (1 + k) = encodeFat s.fatTable k) ∧
      ∀ stale s', s'.disk = s.disk → kfsInit drive stale s' = s ∧
        ∀ noise ops, run drive noise (kfsInit drive stale s') ops = run drive noise s ops := by
  obtain ⟨t, ht⟩ := reach_mounted hroom h
  refine ⟨ht.persisted.header, fun k hk => ht.persisted.fat k hk (Set.notMem_empty _),
    fun stale s' hdisk => ?_⟩
  have hinit := ht.kfsInit_eq stale hdisk
  exact ⟨hinit, fun noise ops => by rw [hinit]⟩

theorem remount_same_files : ∃ s,
    run smallDrive noNoise (kfsFormat smallDrive (fun _ => 0) blankState)
      [.createFile [97] (fun _ => 1) 600, .deleteFile [97]] = some s ∧
      kfsInit smallDrive (fun _ => 0) { blankState with disk := s.disk } = s := by
  have hsome : (run smallDrive noNoise (kfsFormat smallDrive (fun _ => 0) blankState)
      [.createFile [97] (fun _ => 1) 600, .deleteFile [97]]).isSome = true := by decide +kernel
  obtain ⟨s, hs⟩ := Option.isSome_iff_exists.mp hsome
  have hreach : Reach smallDrive KeepsSector s := by
    refine (Reach.format _ _).run (fun op hop => ?_) (fun op hop s path hpath => ?_) hs
    · simp only [List.mem_cons, List.not_mem_nil, or_false] at hop
      rcases hop with rfl | rfl
      · exact ⟨by decide, by decide⟩
      · exact (by decide : (0 : UInt8) ∉ [97])
    · subst hpath
      simp at hop
  exact ⟨s, hs, ((remount_same smallDrive_hasRoom hreach).2.2 (fun _ => 0) _ rfl).1⟩

/-- Sixteen files fill the root directory and all sectors but one; then a folder. -/
def fillAndMkdir : List Op :=
  (List.range 16).map (fun i => .createFile [UInt8.ofNat (97 + i)] (fun _ => 0) 0) ++
    [.createFolder [122]]

theorem fillAndMkdir_valid : ∀ op ∈ fillAndMkdir, op.Valid := by
  intro op hop
  rcases List.mem_append.mp hop with hop | hop
  · obtain ⟨i, hi, rfl⟩ := List.mem_map.mp hop
    have hne : ∀ i < 16, (0 : UInt8) ∉ [UInt8.ofNat (97 + i)] := by decide
    exact ⟨hne i (List.mem_range.mp hi), by decide⟩
  · rw [List.mem_singleton.mp hop]
    exact (by decide : (0 : UInt8) ∉ [122])

/-- The folder's sector, 19, is free in memory and allocated on the disk, also after a
remount. -/
theorem sector_lost_on_remount : ∃ s, Reach smallDrive (fun _ _ => True) s ∧
    s.fatTable 19 = fatFree ∧ s.disk 1 ≠ encodeFat s.fatTable 0 ∧
    (kfsInit smallDrive (fun _ => 0) s).fatTable 19 = fatEof := by
  have hval : (run smallDrive noNoise (kfsFormat smallDrive (fun _ => 0) blankState)
      fillAndMkdir).map (fun s => (s.fatTable 19, (kfsInit smallDrive (fun _ => 0) s).fatTable 19,
        s.disk 1 76, encodeFat s.fatTable 0 76)) = some (fatFree, fatEof, 255, 0) := by
    decide +kernel
  obtain ⟨s, hs, hfields⟩ := Option.map_eq_some_iff.mp hval
  simp only [Prod.mk.injEq] at hfields
  obtain ⟨h1, h2, h3, h4⟩ := hfields
  refine ⟨s, (Reach.format _ _).run fillAndMkdir_valid (by simp) hs, h1, fun heq => ?_, h2⟩
  rw [heq, h4] at h3
  exact absurd h3 (by decide)

end Kyuzen.Kfs
