import Kyuzen.Kfs.Effects

/-!
# KyuzenFS over whole runs

Runs of the file system from `kfs_format`: any sequence of `kfs_create_file`,
`kfs_create_folder` and `kfs_delete_file`, on any paths, whether they succeed or fail. Every
state of a run represents a tree (`reach_rep`), and no call runs for ever (`exec_returns`).
`chains_ok` spells out what that means on the disk.
-/

namespace Kyuzen.Kfs

open Lib.Chain

/-- The disk has room for the header, the FAT and the root directory. -/
def Drive.HasRoom (drive : Drive) : Prop := 1 + fatSectors drive < totalSectors drive

/-- Uninitialised memory a call may see. -/
structure Noise where
  fat : Nat → UInt32
  stack : Nat → UInt8

inductive Op where
  | createFile (path : CStr) (data : Nat → UInt8) (size : Nat)
  | createFolder (path : CStr)
  | deleteFile (path : CStr)

def Op.path : Op → CStr
  | .createFile path _ _ => path
  | .createFolder path => path
  | .deleteFile path => path

/-- A path is a C string, and the size of a file leaves room for rounding it up. -/
def Op.Valid : Op → Prop
  | .createFile path _ size => 0 ∉ path ∧ size ≤ 0xFFFFFE00
  | .createFolder path => 0 ∉ path
  | .deleteFile path => 0 ∉ path

def exec (drive : Drive) (noise : Noise) (s : State) : Op → Option Outcome
  | .createFile path data size => kfsCreateFile drive noise.fat noise.stack s path data size
  | .createFolder path => kfsCreateFolder noise.stack s path
  | .deleteFile path => kfsDeleteFile s path

/-- The states of the runs from `kfs_format` whose steps all meet `P`. -/
inductive Reach (drive : Drive) (P : State → Op → Prop) : State → Prop
  | format (stale : Nat → UInt32) (s : State) : Reach drive P (kfsFormat drive stale s)
  | step {s : State} {op : Op} {out : Outcome} (noise : Noise) (h : Reach drive P s)
      (hv : op.Valid) (hp : P s op) (hrun : exec drive noise s op = some out) :
      Reach drive P out.state

/-! ## A formatted disk -/

theorem markEof_apply (fat : Nat → Nat) (n i : Nat) :
    markEof fat n i = if i < n then fatEof else fat i := by
  induction n with
  | zero => simp [markEof]
  | succ n ih =>
    rw [markEof]
    by_cases hi : i = n
    · subst hi
      simp
    · rw [Function.update_of_ne hi, ih]
      congr 1
      simp only [eq_iff_iff]
      omega

theorem flushFat_frame (s : State) (n : Nat) :
    (flushFat s n).currentFs = s.currentFs ∧ (flushFat s n).fatTable = s.fatTable ∧
      (flushFat s n).totalDiskSectors = s.totalDiskSectors ∧
      (flushFat s n).fatSectorsNeeded = s.fatSectorsNeeded := by
  induction n with
  | zero => exact ⟨rfl, rfl, rfl, rfl⟩
  | succ n ih => exact ih

theorem flushFat_disk (s : State) (n x : Nat) :
    (flushFat s n).disk x = if 1 ≤ x ∧ x ≤ n then encodeFat s.fatTable (x - 1) else s.disk x := by
  induction n with
  | zero =>
    rw [if_neg (by omega)]
    rfl
  | succ n ih =>
    change Function.update (flushFat s n).disk (1 + n) _ x = _
    by_cases hx : x = 1 + n
    · subst hx
      rw [Function.update_self, if_pos (by omega), Nat.add_sub_cancel_left]
    · rw [Function.update_of_ne hx, ih]
      congr 1
      simp only [eq_iff_iff]
      omega

theorem totalSectors_bounds (drive : Drive) :
    0 < totalSectors drive ∧ totalSectors drive < 2 ^ 28 := by
  have := drive.lba28
  unfold totalSectors
  split_ifs <;> omega

theorem fatSectors_bounds (drive : Drive) :
    1 ≤ fatSectors drive ∧ totalSectors drive ≤ 128 * fatSectors drive := by
  have := totalSectors_bounds drive
  unfold fatSectors
  omega

/-- The FAT of a fresh file system. -/
def freshFat (drive : Drive) (stale : Nat → UInt32) : Nat → Nat :=
  Function.update (markEof (fun i => if i < totalSectors drive then fatFree
    else if i < 128 * fatSectors drive then (stale i).toNat else 0) (fatSectors drive + 1))
    (1 + fatSectors drive) fatEof

theorem freshFat_lt (drive : Drive) (stale : Nat → UInt32) (i : Nat) :
    freshFat drive stale i < 2 ^ 32 := by
  unfold freshFat
  by_cases hi : i = 1 + fatSectors drive
  · rw [hi, Function.update_self]
    decide
  · rw [Function.update_of_ne hi, markEof_apply]
    split_ifs
    · decide
    · decide
    · exact (stale i).toNat_lt
    · decide

theorem freshFat_beyond {drive : Drive} (hroom : drive.HasRoom) (stale : Nat → UInt32) {i : Nat}
    (hi : 128 * fatSectors drive ≤ i) : freshFat drive stale i = 0 := by
  obtain ⟨h1, h2⟩ := fatSectors_bounds drive
  have hroot : 1 + fatSectors drive < totalSectors drive := hroom
  unfold freshFat
  rw [Function.update_of_ne (by omega), markEof_apply, if_neg (by omega), if_neg (by omega),
    if_neg (by omega)]

/-- The tree of a fresh file system: an empty root directory. -/
def freshTree (drive : Drive) : Tree :=
  { root := 1 + fatSectors drive, items := ∅, chain := fun _ => [1 + fatSectors drive] }

/-- The memory of a fresh file system, before anything is written. -/
def freshMemory (drive : Drive) (stale : Nat → UInt32) (s : State) : State :=
  { s with
    currentFs := { s.currentFs with
      magic := ![75, 90, 70, 83]
      rootDirSector := 1 + fatSectors drive
      totalFiles := 0 }
    fatTable := freshFat drive stale
    totalDiskSectors := totalSectors drive
    fatSectorsNeeded := fatSectors drive }

theorem kfsFormat_eq (drive : Drive) (stale : Nat → UInt32) (s : State) :
    kfsFormat drive stale s =
      ataWriteSector (flushFat (writeHeader (freshMemory drive stale s)) (fatSectors drive))
        (1 + fatSectors drive) fun _ => flagEmpty := rfl

theorem kfsFormat_memory (drive : Drive) (stale : Nat → UInt32) (s : State) :
    (kfsFormat drive stale s).currentFs = (freshMemory drive stale s).currentFs ∧
      (kfsFormat drive stale s).fatTable = freshFat drive stale ∧
      (kfsFormat drive stale s).totalDiskSectors = totalSectors drive ∧
      (kfsFormat drive stale s).fatSectorsNeeded = fatSectors drive :=
  flushFat_frame (writeHeader (freshMemory drive stale s)) (fatSectors drive)

theorem kfsFormat_root (drive : Drive) (stale : Nat → UInt32) (s : State) :
    (kfsFormat drive stale s).currentFs.rootDirSector = 1 + fatSectors drive := by
  rw [(kfsFormat_memory drive stale s).1]
  rfl

theorem format_geometry {drive : Drive} (hroom : drive.HasRoom) (stale : Nat → UInt32)
    (s : State) : Geometry (kfsFormat drive stale s) := by
  obtain ⟨h1, h2⟩ := fatSectors_bounds drive
  obtain ⟨_, h3⟩ := totalSectors_bounds drive
  obtain ⟨_, _, htot, hneed⟩ := kfsFormat_memory drive stale s
  have hroot := kfsFormat_root drive stale s
  unfold Drive.HasRoom at hroom
  exact ⟨by omega, by omega, by omega, by omega, by omega⟩

theorem format_persisted {drive : Drive} (hroom : drive.HasRoom) (stale : Nat → UInt32)
    (s : State) : Persisted (kfsFormat drive stale s) := by
  obtain ⟨hfs, hfat, htot, hneed⟩ := kfsFormat_memory drive stale s
  refine ⟨?_, fun k hk _ => ?_, fun i => ?_, fun i hi => ?_, ?_⟩
  · rw [hfs, kfsFormat_eq]
    have h0 : 0 ≠ 1 + fatSectors drive := by omega
    refine (Function.update_of_ne h0 _ _).trans ?_
    rw [flushFat_disk, if_neg (by omega)]
    simp [writeHeader, ataWriteSector]
  · rw [hneed] at hk
    have hk0 : 1 + k ≠ 1 + fatSectors drive := by omega
    rw [hfat, kfsFormat_eq]
    refine (Function.update_of_ne hk0 _ _).trans ?_
    rw [flushFat_disk, if_pos (by omega), Nat.add_sub_cancel_left]
    rfl
  · rw [hfat]
    exact freshFat_lt drive stale i
  · rw [hneed] at hi
    rw [hfat]
    exact freshFat_beyond hroom stale hi
  · rw [hfs]
    exact ⟨rfl, rfl⟩

theorem format_rep {drive : Drive} (hroom : drive.HasRoom) (stale : Nat → UInt32) (s : State) :
    Rep (kfsFormat drive stale s) (freshTree drive) := by
  obtain ⟨hfs, hfat, htot, hneed⟩ := kfsFormat_memory drive stale s
  have hroot := kfsFormat_root drive stale s
  have hhead : ∀ h, (freshTree drive).IsHead h → h = 1 + fatSectors drive := by
    rintro h (h | ⟨a, ha, _⟩)
    · exact h
    · exact absurd ha (Finset.notMem_empty a)
  have hempty : ∀ i, ((kfsFormat drive stale s).entry (1 + fatSectors drive, i)).flags =
      flagEmpty := by
    intro i
    rw [kfsFormat_eq]
    simp [State.entry, ataWriteSector, entryAt]
  refine ⟨⟨?_, ?_, ?_, ?_, ?_, ?_, ?_, ?_⟩, format_geometry hroom stale s, hroot.symm, ?_, ?_, ?_⟩
  · exact fun a ha => absurd ha (Finset.notMem_empty a)
  · exact fun a ha => absurd ha (Finset.notMem_empty a)
  · exact fun a ha => absurd ha (Finset.notMem_empty a)
  · exact fun a ha => absurd ha (Finset.notMem_empty a)
  · intro h hh
    rw [hhead h hh]
    exact List.mem_cons_self
  · intro h k x hh hk _ _
    rw [hhead h hh, hhead k hk]
  · exact fun a ha => absurd ha (Finset.notMem_empty a)
  · intro d hd
    rw [hhead d (Tree.isHead_of_isDir hd)]
    exact Tree.Reach.root (t := freshTree drive)
  · intro h hh
    rw [hhead h hh]
    refine ⟨⟨rfl, ?_⟩, by simp [freshTree], fun x hx => ?_⟩
    · rw [hfat]
      exact Function.update_self _ _ _
    · rw [List.mem_singleton.mp hx, hroot, htot]
      exact ⟨le_refl _, hroom⟩
  · intro a
    refine ⟨fun ha => absurd ha (Finset.notMem_empty a), ?_⟩
    rintro ⟨_, hsec, _, hentry, hflags⟩
    rw [← hentry, ← Prod.mk.eta (p := a.slot), List.mem_singleton.mp hsec] at hflags
    exact absurd (hempty _) hflags
  · rw [hfs]
    rfl

/-! ## Whole runs -/

/-- Every admissible call on a represented file system returns, and the result represents a
tree again. -/
theorem exec_rep {drive : Drive} {s : State} {t : Tree} (h : Rep s t) (noise : Noise) {op : Op}
    (hv : op.Valid) : ∃ out t', exec drive noise s op = some out ∧ Rep out.state t' ∧
      SameLayout s out.state := by
  cases op with
  | createFile path data size =>
    obtain ⟨out, hrun, ⟨_, href, _⟩ | ⟨_, t', _, hadd, _⟩⟩ :=
      kfsCreateFile_cases h drive noise.fat noise.stack hv.1 data hv.2
    · exact ⟨out, t, hrun, href.rep, href.layout⟩
    · exact ⟨out, t', hrun, hadd.rep, hadd.layout⟩
  | createFolder path =>
    obtain ⟨out, hrun, ⟨_, href, _⟩ | ⟨_, t', _, hadd, _⟩⟩ :=
      kfsCreateFolder_cases h noise.stack hv
    · exact ⟨out, t, hrun, href.rep, href.layout⟩
    · exact ⟨out, t', hrun, hadd.rep, hadd.layout⟩
  | deleteFile path =>
    obtain ⟨out, hrun, hsame | ⟨a, hrem, _⟩⟩ := kfsDeleteFile_cases h hv
    · refine ⟨out, t, hrun, ?_, ?_⟩
      · rw [hsame]
        exact h
      · rw [hsame]
        exact ⟨rfl, rfl, rfl⟩
    · exact ⟨out, _, hrun, hrem.rep, hrem.layout⟩

theorem reach_rep {drive : Drive} (hroom : drive.HasRoom) {P : State → Op → Prop} {s : State}
    (h : Reach drive P s) : ∃ t, Rep s t := by
  induction h with
  | format stale s => exact ⟨_, format_rep hroom stale s⟩
  | step noise _ hv _ hrun ih =>
    obtain ⟨t, ht⟩ := ih
    obtain ⟨out, t', hrun', ht', _⟩ := exec_rep ht noise hv
    rw [hrun] at hrun'
    cases hrun'
    exact ⟨t', ht'⟩

/-- A sequence of calls. -/
def run (drive : Drive) (noise : Noise) : State → List Op → Option State
  | s, [] => some s
  | s, op :: ops => do
    let out ← exec drive noise s op
    run drive noise out.state ops

theorem Reach.run {drive : Drive} {noise : Noise} {P : State → Op → Prop} :
    ∀ {ops : List Op} {s s' : State}, Reach drive P s → (∀ op ∈ ops, op.Valid) →
      (∀ op ∈ ops, ∀ s, P s op) → run drive noise s ops = some s' → Reach drive P s' := by
  intro ops
  induction ops with
  | nil =>
    intro s s' h _ _ hrun
    cases hrun
    exact h
  | cons op ops ih =>
    intro s s' h hv hp hrun
    obtain ⟨out, hout, hrest⟩ := Option.bind_eq_some_iff.mp hrun
    exact ih (Reach.step noise h (hv op List.mem_cons_self) (hp op List.mem_cons_self s) hout)
      (fun o ho => hv o (List.mem_cons_of_mem _ ho))
      (fun o ho => hp o (List.mem_cons_of_mem _ ho)) hrest

/-! ## What a tree means on the disk -/

/-- The directories that folders lead to from the root. -/
inductive ReachDir (s : State) : Nat → Prop
  | root : ReachDir s s.currentFs.rootDirSector
  | folder {d : Nat} {l : List Nat} {p : Nat × Nat} (h : ReachDir s d) (hl : Follows s d l)
      (hp : p.1 ∈ l) (hidx : p.2 < 16) (hf : (s.entry p).flags = flagFolder) :
      ReachDir s (s.entry p).startSector

/-- The non-empty directory slots of the whole tree. -/
def entries (s : State) : Set (Nat × Nat) :=
  {p | p.2 < 16 ∧ (s.entry p).flags ≠ flagEmpty ∧
    ∃ d l, ReachDir s d ∧ Follows s d l ∧ p.1 ∈ l}

/-- The chain of an object: it ends, stays in the data area and has no free sector. -/
structure GoodChain (s : State) (h : Nat) (l : List Nat) : Prop where
  follows : Follows s h l
  nonempty : l ≠ []
  range : ∀ x ∈ l, s.currentFs.rootDirSector ≤ x ∧ x < s.totalDiskSectors
  notFree : ∀ x ∈ l, s.fatTable x ≠ fatFree

structure ChainsOk (s : State) : Prop where
  root : ∃ l, GoodChain s s.currentFs.rootDirSector l
  object : ∀ p ∈ entries s, ∃ l, GoodChain s (s.entry p).startSector l
  length : ∀ p ∈ entries s, (s.entry p).flags = flagFile →
    ∀ l, Follows s (s.entry p).startSector l → l.length = chainLength (s.entry p).sizeBytes
  disjoint : ∀ p ∈ entries s, ∀ q ∈ entries s, p ≠ q → ∀ l k,
    Follows s (s.entry p).startSector l → Follows s (s.entry q).startSector k → l.Disjoint k
  disjoint_root : ∀ p ∈ entries s, ∀ l k, Follows s s.currentFs.rootDirSector l →
    Follows s (s.entry p).startSector k → l.Disjoint k
  count : s.currentFs.totalFiles = (entries s).ncard

namespace Rep

variable {s : State} {t : Tree}

theorem reachDir_iff (h : Rep s t) {d : Nat} : ReachDir s d ↔ t.IsDir d := by
  constructor
  · intro hd
    induction hd with
    | root => exact Or.inl h.root.symm
    | @folder d l p _ hl hp hidx hf ih =>
      rw [(h.chains d (Tree.isHead_of_isDir ih)).eq_of_follows h.geometry hl] at hp
      have hmem : (⟨d, p, s.entry p⟩ : Item) ∈ t.items :=
        (h.mem_iff _).mpr ⟨ih, hp, hidx, rfl, by rw [hf]; decide⟩
      exact Or.inr ⟨_, hmem, hf, rfl⟩
  · intro hd
    have hreach := h.ok.reach d hd
    clear hd
    induction hreach with
    | root =>
      rw [h.root]
      exact ReachDir.root
    | folder _ ha hf ih =>
      obtain ⟨had, hsec, hidx, hentry, _⟩ := (h.mem_iff _).mp ha
      rw [← hentry] at hf ⊢
      exact ReachDir.folder ih
        ((h.chains _ (Tree.isHead_of_isDir had)).follows h.geometry) hsec hidx hf

theorem mem_entries (h : Rep s t) {p : Nat × Nat} :
    p ∈ entries s ↔ ∃ a ∈ t.items, a.slot = p ∧ a.entry = s.entry p := by
  constructor
  · rintro ⟨hidx, hflags, d, l, hd, hl, hp⟩
    have hdir := h.reachDir_iff.mp hd
    rw [(h.chains d (Tree.isHead_of_isDir hdir)).eq_of_follows h.geometry hl] at hp
    exact ⟨⟨d, p, s.entry p⟩, (h.mem_iff _).mpr ⟨hdir, hp, hidx, rfl, hflags⟩, rfl, rfl⟩
  · rintro ⟨a, ha, rfl, _⟩
    obtain ⟨had, hsec, hidx, hentry, hflags⟩ := (h.mem_iff a).mp ha
    rw [← hentry] at hflags
    exact ⟨hidx, hflags, a.dir, _, h.reachDir_iff.mpr had,
      (h.chains _ (Tree.isHead_of_isDir had)).follows h.geometry, hsec⟩

theorem ncard_entries (h : Rep s t) : (entries s).ncard = t.items.card := by
  have himage : entries s = ((t.items.image Item.slot : Finset (Nat × Nat)) : Set (Nat × Nat)) := by
    ext p
    rw [h.mem_entries, Finset.mem_coe, Finset.mem_image]
    constructor
    · rintro ⟨a, ha, hslot, _⟩
      exact ⟨a, ha, hslot⟩
    · rintro ⟨a, ha, hslot⟩
      exact ⟨a, ha, hslot, by rw [← hslot, ((h.mem_iff a).mp ha).2.2.2.1]⟩
  rw [himage, Set.ncard_coe_finset]
  exact Finset.card_image_of_injOn fun a ha b hb => h.slot_inj ha hb

theorem goodChain (h : Rep s t) {k : Nat} (hk : t.IsHead k) : GoodChain s k (t.chain k) :=
  have hc := h.chains k hk
  ⟨hc.follows h.geometry, hc.ne, hc.range, fun _ hx => hc.fat_ne_free h.geometry hx⟩

theorem chainsOk (h : Rep s t) : ChainsOk s := by
  have hfollow : ∀ {k l}, t.IsHead k → Follows s k l → l = t.chain k := fun hk hl =>
    (h.chains _ hk).eq_of_follows h.geometry hl
  refine ⟨⟨_, h.root ▸ h.goodChain (Or.inl rfl)⟩, fun p hp => ?_, fun p hp hf l hl => ?_,
    fun p hp q hq hpq l k hl hk => ?_, fun p hp l k hl hk => ?_, ?_⟩
  · obtain ⟨a, ha, _, hentry⟩ := h.mem_entries.mp hp
    rw [← hentry]
    exact ⟨_, h.goodChain (Tree.isHead_of_mem ha)⟩
  · obtain ⟨a, ha, _, hentry⟩ := h.mem_entries.mp hp
    rw [← hentry] at hf hl ⊢
    rw [hfollow (Tree.isHead_of_mem ha) hl]
    exact h.ok.length a ha hf
  · obtain ⟨a, ha, haslot, hentry⟩ := h.mem_entries.mp hp
    obtain ⟨b, hb, hbslot, hentry'⟩ := h.mem_entries.mp hq
    rw [← hentry] at hl
    rw [← hentry'] at hk
    rw [hfollow (Tree.isHead_of_mem ha) hl, hfollow (Tree.isHead_of_mem hb) hk]
    intro x hx hx'
    have heq := h.ok.disjoint _ _ x (Tree.isHead_of_mem ha) (Tree.isHead_of_mem hb) hx hx'
    exact hpq (by rw [← haslot, ← hbslot, h.ok.inj a ha b hb heq])
  · obtain ⟨a, ha, _, hentry⟩ := h.mem_entries.mp hp
    rw [← h.root] at hl
    rw [← hentry] at hk
    rw [hfollow (Or.inl rfl) hl, hfollow (Tree.isHead_of_mem ha) hk]
    intro x hx hx'
    exact h.ok.start_ne a ha (h.ok.disjoint _ _ x (Tree.isHead_of_mem ha) (Or.inl rfl) hx' hx)
  · rw [h.count, h.ncard_entries]

end Rep

/-- In every state of every run the chains of all reachable objects end, stay in the data
area, avoid free sectors and each other, and have the length the size asks for; the header
counts the entries; and every call returns. -/
theorem chains_ok {drive : Drive} (hroom : drive.HasRoom) {s : State}
    (h : Reach drive (fun _ _ => True) s) :
    ChainsOk s ∧ ∀ noise op, op.Valid → ∃ out, exec drive noise s op = some out := by
  obtain ⟨t, ht⟩ := reach_rep hroom h
  refine ⟨ht.chainsOk, fun noise op hv => ?_⟩
  obtain ⟨out, _, hrun, _, _⟩ := exec_rep ht noise hv
  exact ⟨out, hrun⟩

/-- A disk of twenty sectors: header, one FAT sector, the root directory, seventeen others. -/
def smallDrive : Drive := ⟨20, by decide⟩

/-- Zeros everywhere. -/
def blankState : State :=
  ⟨fun _ _ => 0, ⟨fun _ => 0, 0, 0, fun _ => 0⟩, fun _ => 0, 0, 0⟩

def noNoise : Noise := ⟨fun _ => 0, fun _ => 0⟩

theorem smallDrive_hasRoom : smallDrive.HasRoom := by
  unfold Drive.HasRoom
  decide

/-- A folder, a file in it, and a file that does not fit. -/
def smallRun : List Op :=
  [.createFolder [97], .createFile [47, 97, 47, 98] (fun i => UInt8.ofNat i) 1000,
    .createFile [99] (fun _ => 1) 20000]

theorem chains_ok_smallRun : ∃ s,
    run smallDrive noNoise (kfsFormat smallDrive (fun _ => 0) blankState) smallRun = some s ∧
      ChainsOk s := by
  have hsome : (run smallDrive noNoise (kfsFormat smallDrive (fun _ => 0) blankState)
      smallRun).isSome = true := by decide +kernel
  obtain ⟨s, hs⟩ := Option.isSome_iff_exists.mp hsome
  refine ⟨s, hs, (chains_ok smallDrive_hasRoom ((Reach.format _ _).run ?_ (by simp) hs)).1⟩
  intro op hop
  simp only [smallRun, List.mem_cons, List.not_mem_nil, or_false] at hop
  rcases hop with rfl | rfl | rfl
  · exact (by decide : (0 : UInt8) ∉ [97])
  · exact ⟨by decide, by decide⟩
  · exact ⟨by decide, by decide⟩

end Kyuzen.Kfs
