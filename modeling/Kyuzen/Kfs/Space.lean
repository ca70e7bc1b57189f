import Kyuzen.Kfs.Capacity

/-!
# Total and used space

`kfs_get_total_space` and `kfs_get_used_space` count sectors and answer in bytes, as 32-bit
numbers. The sector counts are right on every disk and at every fill level; the bytes are right up
to 4 GiB (`disk_accounting`).
-/

namespace Kyuzen.Kfs

/-- The counting loop of `kfs_get_used_space`, over `n` sectors from `i` on. -/
def countFree (fat : Nat → Nat) : Nat → Nat → Nat
  | 0, _ => 0
  | n + 1, i => (if fat i = fatFree then 1 else 0) + countFree fat n (i + 1)

def kfsGetTotalSpace (s : State) : Nat := s.totalDiskSectors * 512 % 2 ^ 32

def kfsGetUsedSpace (s : State) : Nat :=
  let freeSec := countFree s.fatTable
    (s.totalDiskSectors - (s.currentFs.rootDirSector + 1)) (s.currentFs.rootDirSector + 1)
  let usedSec := s.totalDiskSectors - freeSec
  usedSec * 512 % 2 ^ 32

/-- The sectors that are metadata (the header, the FAT, the first sector of the root directory) or
not free. -/
def usedSectors (s : State) : Finset Nat :=
  (Finset.range s.totalDiskSectors).filter fun x =>
    x ≤ s.currentFs.rootDirSector ∨ s.fatTable x ≠ fatFree

/-- The two calls tell the space of the disk in bytes. -/
structure Accounts (s : State) : Prop where
  total : kfsGetTotalSpace s = 512 * s.totalDiskSectors
  used : kfsGetUsedSpace s = 512 * (usedSectors s).card
  le : kfsGetUsedSpace s ≤ kfsGetTotalSpace s

/-! ## Counting -/

theorem countFree_eq (fat : Nat → Nat) : ∀ n i : Nat, countFree fat n i =
    ((Finset.Ico i (i + n)).filter fun x => fat x = fatFree).card := by
  intro n
  induction n with
  | zero => simp [countFree]
  | succ n ih =>
    intro i
    rw [countFree, ih, ← Finset.insert_Ico_add_one_left_eq_Ico (show i < i + (n + 1) by omega),
      Finset.filter_insert, show i + 1 + n = i + (n + 1) by omega]
    split_ifs with hfree
    · rw [Finset.card_insert_of_notMem (by simp), Nat.add_comm]
    · exact Nat.zero_add _

theorem countFree_freeSectors (s : State) : countFree s.fatTable
    (s.totalDiskSectors - (s.currentFs.rootDirSector + 1)) (s.currentFs.rootDirSector + 1) =
      (freeSectors s).card := by
  rw [countFree_eq]
  congr 1
  ext x
  rw [Finset.mem_filter, Finset.mem_Ico, mem_freeSectors]
  constructor
  · rintro ⟨⟨hlo, hhi⟩, hfree⟩
    exact ⟨by omega, by omega, hfree⟩
  · rintro ⟨hlo, hhi, hfree⟩
    exact ⟨⟨by omega, by omega⟩, hfree⟩

/-- Every sector is used or free. -/
theorem card_used_free (s : State) :
    (usedSectors s).card + (freeSectors s).card = s.totalDiskSectors := by
  have hsplit := Finset.card_filter_add_card_filter_not (s := Finset.range s.totalDiskSectors)
    fun x => x ≤ s.currentFs.rootDirSector ∨ s.fatTable x ≠ fatFree
  rw [Finset.card_range] at hsplit
  have hfree : freeSectors s = (Finset.range s.totalDiskSectors).filter fun x =>
      ¬(x ≤ s.currentFs.rootDirSector ∨ s.fatTable x ≠ fatFree) := by
    ext x
    rw [Finset.mem_filter, Finset.mem_range, mem_freeSectors, not_or, not_le, not_not]
    tauto
  rw [usedSectors, hfree]
  exact hsplit

/-- The bytes are right exactly when the size of the disk in bytes is a 32-bit number. -/
theorem accounts_iff (s : State) : Accounts s ↔ s.totalDiskSectors < 2 ^ 23 := by
  have hcard := card_used_free s
  constructor
  · intro h
    have htotal := h.total
    unfold kfsGetTotalSpace at htotal
    omega
  · intro h
    have htotal : kfsGetTotalSpace s = 512 * s.totalDiskSectors := by
      unfold kfsGetTotalSpace
      omega
    have hused : kfsGetUsedSpace s = 512 * (usedSectors s).card := by
      unfold kfsGetUsedSpace
      dsimp only
      rw [countFree_freeSectors]
      omega
    exact ⟨htotal, hused, by omega⟩

/-! ## Runs -/

theorem writeChunks_total (data : Nat → UInt8) : ∀ (count : Nat) (s : State)
    (startSector prevSector offset remaining : Nat),
    (writeChunks data count s startSector prevSector offset remaining).2.totalDiskSectors =
      s.totalDiskSectors := by
  intro count
  induction count with
  | zero => exact fun _ _ _ _ _ => rfl
  | succ count ih =>
    intro s startSector prevSector offset remaining
    rw [writeChunks]
    dsimp only
    generalize (if remaining > 512 then 512 else remaining) = toWrite
    split_ifs
    · rfl
    · rw [ih]
      exact kfsSyncFat_total _ _
    · rw [ih]
      exact (kfsSyncFat_total _ _).trans (kfsSyncFat_total _ _)

theorem insertDirEntry_total {s s' : State} {d : Nat} {e : Entry} {inserted : Bool}
    (h : insertDirEntry s d e = some (inserted, s')) :
    s'.totalDiskSectors = s.totalDiskSectors := by
  unfold insertDirEntry at h
  obtain ⟨⟨slot, lastSec⟩, -, h⟩ := Option.bind_eq_some_iff.mp h
  cases slot with
  | some p =>
    obtain ⟨-, rfl⟩ := Prod.mk.inj (Option.some.inj h)
    rfl
  | none =>
    dsimp only at h
    split_ifs at h
    · obtain ⟨-, rfl⟩ := Prod.mk.inj (Option.some.inj h)
      rfl
    · obtain ⟨-, rfl⟩ := Prod.mk.inj (Option.some.inj h)
      exact (kfsSyncFat_total _ _).trans (kfsSyncFat_total _ _)

theorem freeChain_total : ∀ {fuel : Nat} {s s' : State} {curr : Nat},
    freeChain fuel s curr = some s' → s'.totalDiskSectors = s.totalDiskSectors := by
  intro fuel
  induction fuel with
  | zero =>
    intro s s' curr h
    cases h
  | succ fuel ih =>
    intro s s' curr h
    rw [freeChain] at h
    split_ifs at h
    · obtain rfl := Option.some.inj h
      rfl
    · exact (ih h).trans (kfsSyncFat_total _ _)

variable {drive : Drive} {noise : Noise} {s : State} {op : Op} {out : Outcome}

theorem kfsCreateFile_total {staleFat : Nat → UInt32} {stale data : Nat → UInt8} {path : CStr}
    {size : Nat} (h : s.totalDiskSectors = totalSectors drive)
    (hrun : kfsCreateFile drive staleFat stale s path data size = some out) :
    out.state.totalDiskSectors = totalSectors drive := by
  unfold kfsCreateFile at hrun
  dsimp only at hrun
  have hs : (if s.currentFs.rootDirSector < 2 then kfsFormat drive staleFat s
      else s).totalDiskSectors = totalSectors drive := by
    split_ifs
    · exact (kfsFormat_memory drive staleFat s).2.2.1
    · exact h
  generalize (if s.currentFs.rootDirSector < 2 then kfsFormat drive staleFat s else s) = s₁
    at hs hrun
  obtain ⟨r, -, hrun⟩ := Option.bind_eq_some_iff.mp hrun
  rcases r with _ | ⟨parentSec, name⟩
  · obtain rfl := Option.some.inj hrun
    exact hs
  obtain ⟨r, -, hrun⟩ := Option.bind_eq_some_iff.mp hrun
  rcases r with _ | found
  · dsimp only at hrun
    have htotal := writeChunks_total data (sectorsNeeded size) s₁ 0 0 0 size
    cases hwrite : writeChunks data (sectorsNeeded size) s₁ 0 0 0 size with
    | mk start s₂ =>
      rw [hwrite] at hrun htotal
      cases start with
      | none =>
        obtain rfl := Option.some.inj hrun
        exact htotal.trans hs
      | some start =>
        obtain ⟨⟨inserted, s₃⟩, hinsert, hrun⟩ := Option.bind_eq_some_iff.mp hrun
        have hthree := (insertDirEntry_total hinsert).trans (htotal.trans hs)
        dsimp only at hrun
        split_ifs at hrun
        · obtain rfl := Option.some.inj hrun
          exact hthree
        · obtain rfl := Option.some.inj hrun
          exact hthree
  · obtain rfl := Option.some.inj hrun
    exact hs

theorem kfsCreateFolder_total {stale : Nat → UInt8} {path : CStr}
    (hrun : kfsCreateFolder stale s path = some out) :
    out.state.totalDiskSectors = s.totalDiskSectors := by
  unfold kfsCreateFolder at hrun
  obtain ⟨r, -, hrun⟩ := Option.bind_eq_some_iff.mp hrun
  rcases r with _ | ⟨parentSec, name⟩
  · obtain rfl := Option.some.inj hrun
    rfl
  obtain ⟨r, -, hrun⟩ := Option.bind_eq_some_iff.mp hrun
  rcases r with _ | found
  · dsimp only at hrun
    split_ifs at hrun
    · obtain rfl := Option.some.inj hrun
      rfl
    · obtain ⟨⟨inserted, s₃⟩, hinsert, hrun⟩ := Option.bind_eq_some_iff.mp hrun
      have hthree := insertDirEntry_total hinsert
      have htwo : s₃.totalDiskSectors = s.totalDiskSectors :=
        hthree.trans (kfsSyncFat_total _ _)
      dsimp only at hrun
      split_ifs at hrun
      · obtain rfl := Option.some.inj hrun
        exact htwo
      · obtain rfl := Option.some.inj hrun
        exact htwo
  · obtain rfl := Option.some.inj hrun
    rfl

theorem kfsDeleteFile_total {path : CStr} (hrun : kfsDeleteFile s path = some out) :
    out.state.totalDiskSectors = s.totalDiskSectors := by
  obtain ⟨-, heq | ⟨start, dirSec, dirIdx, s', hfree, heq⟩⟩ := kfsDeleteFile_outcome hrun
  · rw [heq]
  · have hfreed : s'.totalDiskSectors = s.totalDiskSectors := freeChain_total hfree
    rw [heq]
    exact hfreed

/-- No call changes the number of sectors, on any disk. -/
theorem exec_total (h : s.totalDiskSectors = totalSectors drive)
    (hrun : exec drive noise s op = some out) :
    out.state.totalDiskSectors = totalSectors drive := by
  cases op with
  | createFile path data size => exact kfsCreateFile_total h hrun
  | createFolder path => exact (kfsCreateFolder_total hrun).trans h
  | deleteFile path => exact (kfsDeleteFile_total hrun).trans h

theorem reach_total {P : State → Op → Prop} (h : Reach drive P s) :
    s.totalDiskSectors = totalSectors drive := by
  induction h with
  | format stale s => exact (kfsFormat_memory drive stale s).2.2.1
  | step noise _ _ _ hrun ih => exact exec_total ih hrun

/-- In every state that is reached on a disk, whatever its size, the accounts are right if and
only if the disk has less than 2^23 sectors. -/
theorem disk_accounting (h : Reach drive (fun _ _ => True) s) :
    Accounts s ↔ totalSectors drive < 2 ^ 23 := by
  rw [accounts_iff, reach_total h]

theorem disk_accounting_small :
    Accounts (kfsFormat smallDrive (fun _ => 0) blankState) ↔ totalSectors smallDrive < 2 ^ 23 :=
  disk_accounting (Reach.format _ _)

/-- A disk of 4 GiB. -/
def largeDrive : Drive := ⟨2 ^ 23, by norm_num⟩

/-- It has a total space of 0 bytes. -/
theorem large_disk_empty :
    ¬Accounts (kfsFormat largeDrive (fun _ => 0) blankState) ∧
      kfsGetTotalSpace (kfsFormat largeDrive (fun _ => 0) blankState) = 0 := by
  have htotal : (kfsFormat largeDrive (fun _ => 0) blankState).totalDiskSectors = 2 ^ 23 :=
    (kfsFormat_memory largeDrive (fun _ => 0) blankState).2.2.1
  refine ⟨fun hacc => ?_, ?_⟩
  · have hlt := (accounts_iff _).mp hacc
    omega
  · rw [kfsGetTotalSpace, htotal]
    norm_num

end Kyuzen.Kfs
