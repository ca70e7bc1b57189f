import Kyuzen.Kfs.Lookups
import Kyuzen.Kfs.Replace
import Kyuzen.Vfs.WriteBack

/-!
# Closing keeps the new file or the old one

A changed descriptor deletes the file on its path before it creates it again, so the file is lost
when the new one does not fit. `close_lossless_iff` says when this happens: for every descriptor
on a file, `vfs_close` and each flush of `vfs_close_all` keep one of the two exactly when the new
sectors are no more than the free ones and the old ones together. A path of more than 22 bytes
keeps its old file, since another one is written.
-/

namespace Kyuzen.Vfs

open Lib.Memory
open Kfs (CStr Fs Resolvable components fileAt flagFile prefixOf slash chainLength freeSectors)

/-- The path that the descriptor was opened on holds the bytes of its buffer. -/
def Stored (vf : VfsFile) (fs : Kfs.State) : Prop :=
  fileAt fs vf.opened = some ⟨flagFile, prefixOf vf.buf vf.size⟩

/-- The path holds the new bytes or the old ones. -/
def Lossless (vf : VfsFile) (old : List UInt8) (fs : Kfs.State) : Prop :=
  Stored vf fs ∨ fileAt fs vf.opened = some ⟨flagFile, old⟩

/-- The new file fits once the old one is deleted. -/
def FitsAnew (fs : Kfs.State) (vf : VfsFile) (old : List UInt8) : Prop :=
  chainLength vf.size ≤ (freeSectors fs).card + chainLength old.length

/-- A descriptor as `vfs_open` has installed it. -/
structure Installed (vf : VfsFile) : Prop where
  fits : FileFits vf
  path : vf.path = pathCopy vf.opened
  opened : Resolvable vf.opened

structure Tracked (s : State) : Prop where
  fs : ∃ t, Fs s.fs t
  files : ∀ i, (s.fds i).used = true → Installed (s.fds i)

/-- The descriptor does not write to a path. -/
def Spares (vf : VfsFile) (q : CStr) : Prop :=
  vf.used = true → vf.dirty = true → components vf.path ≠ components q

variable {drive : Kfs.Drive} {s s₁ s' : State} {vf vf' : VfsFile} {fs fs' : Kfs.State}
  {t : Kfs.Tree} {old : List UInt8}

/-! ## Flushing -/

theorem Installed.length_path (h : Installed vf) : vf.path.length ≤ 22 := by
  rw [h.path, pathCopy, List.length_take]
  exact Nat.min_le_left _ _

/-- A path that names something and does not fit its descriptor names nothing that the descriptor
writes to. -/
theorem components_pathCopy_ne {path : CStr} (hlong : 22 < path.length)
    (hname : Kfs.lastName path ≠ []) : components (pathCopy path) ≠ components path := by
  intro heq
  have hrest : (path.drop 22).filter (· != slash) = [] := by
    have hflat := congrArg List.flatten heq
    rw [Kfs.components_flatten, Kfs.components_flatten] at hflat
    have hsplit : path.filter (· != slash) =
        (path.take 22).filter (· != slash) ++ (path.drop 22).filter (· != slash) := by
      rw [← List.filter_append, List.take_append_drop]
    exact List.append_cancel_left ((hsplit.symm.trans hflat.symm).trans (List.append_nil _).symm)
  -- all that is cut off are slashes, so the path ends in one
  have hne : path.drop 22 ≠ [] := by
    intro hnil
    rw [List.drop_eq_nil_iff] at hnil
    omega
  have hlast : path.getLast? = some ((path.drop 22).getLast hne) := by
    rw [List.getLast?_eq_some_getLast (List.ne_nil_of_length_pos (by omega)), List.getLast_drop]
  have hslash : (path.drop 22).getLast hne = slash := by
    have hall := List.filter_eq_nil_iff.mp hrest _ (List.getLast_mem hne)
    simpa using hall
  rw [hslash] at hlast
  exact hname (Kfs.lastName_eq_nil.mpr (Or.inr hlast))

theorem lastName_ne_nil_of_fileAt (h : Fs fs t) {path : CStr} (hp : Resolvable path)
    {f : Kfs.File} (hf : fileAt fs path = some f) : Kfs.lastName path ≠ [] := by
  rcases Kfs.entryOf_lookup h hp with ⟨-, -, hne, -⟩ | ⟨hnone, -⟩
  · exact hne
  · rw [fileAt, hnone] at hf
    cases hf

/-- What a flush leaves alone. -/
theorem flushLocked_other (drive : Kfs.Drive) (h : Fs fs t) (hvf : Installed vf)
    (noise : Kfs.Noise) : ∃ stored fs' t', flushLocked drive noise fs vf = some (stored, fs') ∧
      Fs fs' t' ∧ ∀ q, Resolvable q → (vf.dirty = true → components vf.path ≠ components q) →
        fileAt fs' q = fileAt fs q := by
  cases hdirty : vf.dirty with
  | false => exact ⟨0, fs, t, flushLocked_clean drive hdirty noise, h, fun _ _ _ => rfl⟩
  | true =>
    obtain ⟨stored, fs', t', hflush, h', hother, -⟩ :=
      flushLocked_dirty drive h hvf.fits hvf.length_path hdirty noise
    exact ⟨stored, fs', t', hflush, h', fun q hq hne => hother q hq (hne rfl).symm⟩

/-- What a changed descriptor leaves of a file. -/
theorem flushLocked_file (drive : Kfs.Drive) (h : Fs fs t) (hvf : Installed vf)
    (hdirty : vf.dirty = true) (hold : fileAt fs vf.opened = some ⟨flagFile, old⟩)
    (noise : Kfs.Noise) : ∃ stored fs' t', flushLocked drive noise fs vf = some (stored, fs') ∧
      Fs fs' t' ∧
      (vf.opened.length ≤ 22 ∧ FitsAnew fs vf old ∧ Stored vf fs' ∨
        vf.opened.length ≤ 22 ∧ ¬FitsAnew fs vf old ∧ fileAt fs' vf.opened = none ∨
        22 < vf.opened.length ∧ fileAt fs' vf.opened = some ⟨flagFile, old⟩) := by
  by_cases hlen : vf.opened.length ≤ 22
  · have hpath : vf.path = vf.opened := by
      rw [hvf.path]
      exact List.take_of_length_le hlen
    have hshort : (Kfs.lastName vf.opened).length ≤ 22 := (length_lastName_le _).trans hlen
    obtain ⟨out₁, out₂, t', hdel, hcreate, h', hcases⟩ :=
      Kfs.replace_spec h hvf.opened hshort hold drive noise vf.buf (hvf.fits.size.trans hvf.fits.cap)
    have hthere : Kfs.kfsExists fs vf.opened = some 1 := by
      rw [Kfs.kfsExists_fileAt h.rep hvf.opened.1, hold]
      rfl
    refine ⟨out₂.ret, out₂.state, t', ?_, h', ?_⟩
    · simp [flushLocked, hdirty, deleteExisting, hpath, hthere, hdel, hcreate]
    · rcases hcases with ⟨hroom, -, hnew⟩ | ⟨hno, -, hnone⟩
      · exact Or.inl ⟨hlen, hroom, hnew⟩
      · exact Or.inr (Or.inl ⟨hlen, hno, hnone⟩)
  · obtain ⟨stored, fs', t', hflush, h', hother⟩ := flushLocked_other drive h hvf noise
    refine ⟨stored, fs', t', hflush, h', Or.inr (Or.inr ⟨not_le.mp hlen, ?_⟩)⟩
    rw [hother vf.opened hvf.opened fun _ => ?_, hold]
    rw [hvf.path]
    exact components_pathCopy_ne (not_le.mp hlen) (lastName_ne_nil_of_fileAt h hvf.opened hold)

/-! ## Closing -/

theorem closeSlot_eq {noise : Kfs.Noise} {slot stored : Nat}
    (hflush : flushLocked drive noise s.fs (s.fds slot) = some (stored, fs')) :
    ∃ s', closeSlot drive noise s slot = some (stored, s') ∧ s'.fs = fs' := by
  simp [closeSlot, hflush]

theorem Tracked.closed (h : Tracked s) {noise : Kfs.Noise} {slot stored : Nat}
    (hclose : closeSlot drive noise s slot = some (stored, s')) (hfs : Fs s'.fs t) :
    Tracked s' := by
  refine ⟨⟨t, hfs⟩, fun i hi => ?_⟩
  obtain ⟨-, heq⟩ := closeSlot_fds hclose hi
  rw [heq] at hi ⊢
  exact h.files i hi

theorem closeSlot_other (drive : Kfs.Drive) (h : Tracked s) {slot : Nat}
    (hused : (s.fds slot).used = true) (noise : Kfs.Noise) :
    ∃ stored s', closeSlot drive noise s slot = some (stored, s') ∧ Tracked s' ∧
      ∀ q, Resolvable q → Spares (s.fds slot) q → fileAt s'.fs q = fileAt s.fs q := by
  obtain ⟨t, ht⟩ := h.fs
  obtain ⟨stored, fs', t', hflush, ht', hother⟩ :=
    flushLocked_other drive ht (h.files slot hused) noise
  obtain ⟨s', hclose, rfl⟩ := closeSlot_eq hflush
  exact ⟨stored, s', hclose, h.closed hclose ht', fun q hq hspare => hother q hq (hspare hused)⟩

/-- Further rounds of the loop leave what their descriptors spare. -/
theorem closeUpTo_other_files (drive : Kfs.Drive) {noise : Nat → Kfs.Noise} {base n : Nat}
    (hrun : closeUpTo drive noise s base n = some s₁) (h₁ : Tracked s₁) : ∀ k, ∃ s',
      closeUpTo drive noise s base (n + k) = some s' ∧ Tracked s' ∧ ∀ q, Resolvable q →
        (∀ j, n ≤ j → j < n + k → Spares (s.fds (base + j)) q) →
        fileAt s'.fs q = fileAt s₁.fs q := by
  intro k
  induction k with
  | zero => exact ⟨s₁, hrun, h₁, fun _ _ _ => rfl⟩
  | succ k ih =>
    obtain ⟨s₂, hrun₂, h₂, hfile₂⟩ := ih
    have hsame : s₂.fds (base + (n + k)) = s.fds (base + (n + k)) :=
      closeUpTo_other hrun₂ fun j hj => by omega
    rw [← Nat.add_assoc, closeUpTo, hrun₂, Option.bind_eq_bind, Option.bind_some]
    by_cases hused : (s₂.fds (base + (n + k))).used = true
    · rw [if_pos hused]
      obtain ⟨stored, s', hclose, h', hother⟩ := closeSlot_other drive h₂ hused (noise (n + k))
      refine ⟨s', by rw [hclose]; rfl, h', fun q hq hspare => ?_⟩
      have hlast : Spares (s₂.fds (base + (n + k))) q :=
        hsame ▸ hspare (n + k) (by omega) (by omega)
      rw [hother q hq hlast]
      exact hfile₂ q hq fun j hj hjk => hspare j hj (by omega)
    · rw [if_neg hused]
      exact ⟨s₂, rfl, h₂, fun q hq hspare => hfile₂ q hq fun j hj hjk => hspare j hj (by omega)⟩

theorem closeUpTo_tracked (drive : Kfs.Drive) (h : Tracked s) (noise : Nat → Kfs.Noise)
    (base n : Nat) : ∃ s', closeUpTo drive noise s base n = some s' ∧ Tracked s' ∧
      ∀ q, Resolvable q → (∀ j < n, Spares (s.fds (base + j)) q) →
        fileAt s'.fs q = fileAt s.fs q := by
  have hzero : closeUpTo drive noise s base 0 = some s := rfl
  obtain ⟨s', hrun, h', hfile⟩ := closeUpTo_other_files drive hzero h n
  rw [Nat.zero_add] at hrun hfile
  exact ⟨s', hrun, h', fun q hq hspare => hfile q hq fun j _ hj => hspare j hj⟩

/-! ## Which closes keep a file -/

/-- The flush of the descriptor keeps the old file or stores the new one. -/
def Keeps (fs : Kfs.State) (vf : VfsFile) (old : List UInt8) : Prop :=
  vf.opened.length ≤ 22 → FitsAnew fs vf old

/-- The flush of the descriptor stores the new file, or there is nothing new. -/
def Stores (fs : Kfs.State) (vf : VfsFile) (old : List UInt8) : Prop :=
  if vf.opened.length ≤ 22 then FitsAnew fs vf old else prefixOf vf.buf vf.size = old

theorem stored_iff_of_old (hfile : fileAt fs vf.opened = some ⟨flagFile, old⟩) :
    Stored vf fs ↔ prefixOf vf.buf vf.size = old := by
  unfold Stored
  rw [hfile]
  constructor
  · intro heq
    exact (Kfs.File.mk.inj (Option.some.inj heq)).2.symm
  · intro heq
    rw [heq]

/-- One flush of a changed descriptor on a file. -/
theorem closeSlot_file (drive : Kfs.Drive) (h : Tracked s) {slot : Nat}
    (hused : (s.fds slot).used = true) (hdirty : (s.fds slot).dirty = true)
    (hold : fileAt s.fs (s.fds slot).opened = some ⟨flagFile, old⟩) (noise : Kfs.Noise) :
    ∃ stored s', closeSlot drive noise s slot = some (stored, s') ∧ Tracked s' ∧
      (Lossless (s.fds slot) old s'.fs ↔ Keeps s.fs (s.fds slot) old) ∧
      (Stored (s.fds slot) s'.fs ↔ Stores s.fs (s.fds slot) old) := by
  obtain ⟨t, ht⟩ := h.fs
  obtain ⟨stored, fs', t', hflush, ht', hcases⟩ :=
    flushLocked_file drive ht (h.files slot hused) hdirty hold noise
  obtain ⟨s', hclose, rfl⟩ := closeSlot_eq hflush
  refine ⟨stored, s', hclose, h.closed hclose ht', ?_⟩
  unfold Lossless Keeps Stores
  rcases hcases with ⟨hlen, hroom, hnew⟩ | ⟨hlen, hno, hnone⟩ | ⟨hlen, hfile⟩
  · rw [if_pos hlen]
    exact ⟨⟨fun _ _ => hroom, fun _ => Or.inl hnew⟩, fun _ => hroom, fun _ => hnew⟩
  · have hlost : ¬Stored (s.fds slot) s'.fs := by
      unfold Stored
      rw [hnone]
      intro hnew
      cases hnew
    rw [if_pos hlen, hnone]
    refine ⟨⟨fun hor => ?_, fun hroom => absurd (hroom hlen) hno⟩, fun hnew => absurd hnew hlost,
      fun hroom => absurd hroom hno⟩
    rcases hor with hnew | hfile
    · exact absurd hnew hlost
    · cases hfile
  · rw [if_neg (not_le.mpr hlen)]
    exact ⟨⟨fun _ hle => absurd hle (not_le.mpr hlen), fun _ => Or.inr hfile⟩,
      stored_iff_of_old hfile⟩

theorem vfsClose_file (drive : Kfs.Drive) (h : Tracked s) {task fd : Int} {slot : Nat}
    (hres : resolve s task fd = some slot) (hdirty : (s.fds slot).dirty = true)
    (hold : fileAt s.fs (s.fds slot).opened = some ⟨flagFile, old⟩) (noise : Kfs.Noise) :
    ∃ ret s', vfsClose drive noise s task fd = some (ret, s') ∧
      (Lossless (s.fds slot) old s'.fs ∧ (ret = 0 → Stored (s.fds slot) s'.fs) ↔
        Stores s.fs (s.fds slot) old) := by
  obtain ⟨stored, s', hclose, -, -, hstored⟩ :=
    closeSlot_file drive h (resolve_used hres) hdirty hold noise
  refine ⟨0, s', by simp [vfsClose, hres, hclose], ?_⟩
  rw [← hstored]
  exact ⟨fun hboth => hboth.2 rfl, fun hnew => ⟨Or.inl hnew, fun _ => hnew⟩⟩

/-- One flush of the loop, and what the other flushes leave of the file. -/
theorem vfsCloseAll_file (drive : Kfs.Drive) (h : Tracked s) {task : Int}
    (htask : 0 ≤ task ∧ task < maxTasks) {i : Nat} (hi : i < maxFds) {vf : VfsFile}
    (hvf : s.fds (task.toNat * maxFds + i) = vf) (hused : vf.used = true)
    (hdirty : vf.dirty = true) (noise : Nat → Kfs.Noise) :
    ∃ s₁ s₂ s', closeUpTo drive noise s (task.toNat * maxFds) i = some s₁ ∧
      closeUpTo drive noise s (task.toNat * maxFds) (i + 1) = some s₂ ∧
      vfsCloseAll drive noise s task = some s' ∧
      (∀ old, fileAt s₁.fs vf.opened = some ⟨flagFile, old⟩ →
        (Lossless vf old s₂.fs ↔ Keeps s₁.fs vf old)) ∧
      ((∀ j < i, Spares (s.fds (task.toNat * maxFds + j)) vf.opened) →
        fileAt s₁.fs vf.opened = fileAt s.fs vf.opened) ∧
      ((∀ j, i < j → j < maxFds → Spares (s.fds (task.toNat * maxFds + j)) vf.opened) →
        fileAt s'.fs vf.opened = fileAt s₂.fs vf.opened) := by
  have hopened : Resolvable vf.opened := by
    rw [← hvf] at hused ⊢
    exact (h.files _ hused).opened
  obtain ⟨s₁, hrun₁, h₁, hfile₁⟩ := closeUpTo_tracked drive h noise (task.toNat * maxFds) i
  have hsame : s₁.fds (task.toNat * maxFds + i) = vf :=
    (closeUpTo_other hrun₁ fun j hj => by omega).trans hvf
  rw [← hsame] at hused hdirty
  obtain ⟨stored, s₂, hclose, h₂, -⟩ := closeSlot_other drive h₁ hused (noise i)
  have hrun₂ : closeUpTo drive noise s (task.toNat * maxFds) (i + 1) = some s₂ := by
    simp [closeUpTo, hrun₁, hused, hclose]
  obtain ⟨s', hrun, -, hfile⟩ := closeUpTo_other_files drive hrun₂ h₂ (maxFds - (i + 1))
  rw [Nat.add_sub_cancel' hi] at hrun hfile
  have hall : vfsCloseAll drive noise s task = some s' := by
    unfold vfsCloseAll
    rw [if_neg (by omega)]
    exact hrun
  refine ⟨s₁, s₂, s', hrun₁, hrun₂, hall, fun old hold => ?_, hfile₁ _ hopened,
    fun hspare => hfile _ hopened fun j hj hjn => hspare j hj hjn⟩
  rw [← hsame] at hold ⊢
  obtain ⟨stored', s₂', hclose', -, hiff, -⟩ :=
    closeSlot_file drive h₁ hused hdirty hold (noise i)
  rw [hclose] at hclose'
  obtain ⟨-, rfl⟩ := Prod.mk.inj (Option.some.inj hclose')
  exact hiff

/-- Closing keeps the new file or the old one, and says so, exactly when the new one fits. -/
theorem close_lossless_iff (drive : Kfs.Drive) (h : Tracked s) :
    (∀ noise task fd slot old, resolve s task fd = some slot → (s.fds slot).dirty = true →
      fileAt s.fs (s.fds slot).opened = some ⟨flagFile, old⟩ →
      ∃ ret s', vfsClose drive noise s task fd = some (ret, s') ∧
        (Lossless (s.fds slot) old s'.fs ∧ (ret = 0 → Stored (s.fds slot) s'.fs) ↔
          Stores s.fs (s.fds slot) old)) ∧
    ∀ noise (task : Int), 0 ≤ task ∧ task < maxTasks → ∀ i < maxFds, ∀ vf,
      s.fds (task.toNat * maxFds + i) = vf → vf.used = true → vf.dirty = true →
      ∃ s₁ s₂ s', closeUpTo drive noise s (task.toNat * maxFds) i = some s₁ ∧
        closeUpTo drive noise s (task.toNat * maxFds) (i + 1) = some s₂ ∧
        vfsCloseAll drive noise s task = some s' ∧
        (∀ old, fileAt s₁.fs vf.opened = some ⟨flagFile, old⟩ →
          (Lossless vf old s₂.fs ↔ Keeps s₁.fs vf old)) ∧
        ((∀ j < i, Spares (s.fds (task.toNat * maxFds + j)) vf.opened) →
          fileAt s₁.fs vf.opened = fileAt s.fs vf.opened) ∧
        ((∀ j, i < j → j < maxFds → Spares (s.fds (task.toNat * maxFds + j)) vf.opened) →
          fileAt s'.fs vf.opened = fileAt s₂.fs vf.opened) :=
  ⟨fun noise _ _ _ _ hres hdirty hold => vfsClose_file drive h hres hdirty hold noise,
    fun noise _ htask _ hi _ hvf hused hdirty =>
      vfsCloseAll_file drive h htask hi hvf hused hdirty noise⟩

/-! ## Whole runs -/

/-- What is created has a name that fits its entry. -/
def ShortNames (env : Env) (s : State) (op : Op) : Prop :=
  env.Fits ∧ ∀ kop, op = .kfs kop → Kfs.ShortCreate s.fs kop

theorem Installed.touched {env : Env} (hfits : env.Fits) (h : Installed vf)
    (ht : Touched env.heap vf vf') : Installed vf' :=
  ⟨h.fits.touched hfits ht, by rw [ht.path, ht.opened, h.path], ht.opened ▸ h.opened⟩

theorem exec_tracked {env : Env} {op : Op} (h : Tracked s) (hv : op.Valid)
    (hp : ShortNames env s op) (hrun : exec drive env s op = some s') : Tracked s' := by
  refine ⟨?_, exec_files h.files (fun task path flags l hop hload => ?_)
    (fun vf vf' hvf ht => hvf.touched hp.1 ht) hrun⟩
  · refine exec_fs (J := fun fs => ∃ t, Fs fs t) h.files h.fs
      (fun fs vf noise r hfs hvf hr => ?_) (fun kop out hop hout => ?_) hrun
    · obtain ⟨t, ht⟩ := hfs
      obtain ⟨stored, fs', t', hflush, ht', -⟩ := flushLocked_other drive ht hvf noise
      obtain rfl := Option.some.inj (hflush.symm.trans hr)
      exact ⟨t', ht'⟩
    · obtain ⟨t, ht⟩ := h.fs
      have hshort := hp.2 kop hop
      subst hop
      obtain ⟨t', ht', -⟩ := Kfs.exec_fileAt ht hv.1 hshort hout
      exact ⟨t', ht'⟩
  · subst hop
    exact ⟨newFile_fits hp.1 hv.1 hload, rfl, hv.1, le_trans hv.2.2 (by decide)⟩

theorem reach_tracked (hroom : drive.HasRoom) (h : Reach drive ShortNames s) : Tracked s := by
  induction h with
  | boot stale fs fds =>
    exact ⟨⟨_, Kfs.format_fs hroom stale fs⟩, fun i hi => by cases hi⟩
  | step env _ hv hp hrun ih => exact exec_tracked ih hv hp hrun

/-- Task 1 opens a file of one byte and writes `count` bytes to it. -/
def grownFile (count : Nat) : Option State := do
  let s ← exec Kfs.smallDrive quietEnv bootState (.kfs (.createFile [97] (fun _ => 1) 1))
  let s ← exec Kfs.smallDrive quietEnv s (.openFile 1 [97] oRdwr)
  exec Kfs.smallDrive quietEnv s (.write 1 0 (some fun _ => 2) count)

theorem grownFile_reach {count : Nat} (h : grownFile count = some s) :
    Reach Kfs.smallDrive ShortNames s := by
  unfold grownFile at h
  obtain ⟨s₁, hcreate, h⟩ := Option.bind_eq_some_iff.mp h
  obtain ⟨s₂, hopen, hwrite⟩ := Option.bind_eq_some_iff.mp h
  have hquiet : ∀ (s : State) (op : Op), (∀ kop, op ≠ .kfs kop) → ShortNames quietEnv s op :=
    fun s op hno => ⟨quietEnv_fits, fun kop hop => absurd hop (hno kop)⟩
  have hshort : ShortNames quietEnv bootState (.kfs (.createFile [97] (fun _ => 1) 1)) := by
    refine ⟨quietEnv_fits, fun kop hop => ?_⟩
    obtain rfl := Op.kfs.inj hop
    show ([97] : CStr).length ≤ 22
    decide
  have hv₁ : (Op.kfs (.createFile [97] (fun _ => 1) 1)).Valid :=
    ⟨⟨by decide, by decide⟩, by decide⟩
  have hv₂ : (Op.openFile 1 [97] oRdwr).Valid := ⟨by decide, by decide, by decide⟩
  have hv₃ : (Op.write 1 0 (some fun _ => 2) count).Valid := trivial
  refine Reach.step quietEnv (Reach.step quietEnv (Reach.step quietEnv
    (Reach.boot _ _ _) hv₁ hshort hcreate) hv₂ (hquiet _ _ ?_) hopen) hv₃ (hquiet _ _ ?_) hwrite
  all_goals
    intro kop hop
    cases hop

theorem close_lossless_iff_small : ∃ s, grownFile 1 = some s ∧
    ∃ ret s', vfsClose Kfs.smallDrive Kfs.noNoise s 1 0 = some (ret, s') ∧
      (Lossless (s.fds 16) [1] s'.fs ∧ (ret = 0 → Stored (s.fds 16) s'.fs) ↔
        Stores s.fs (s.fds 16) [1]) := by
  have hval : ((grownFile 1).map fun s => (resolve s 1 0, (s.fds 16).dirty,
      fileAt s.fs (s.fds 16).opened)) = some (some 16, true, some ⟨flagFile, [1]⟩) := by
    decide +kernel
  obtain ⟨s, hs, hfields⟩ := Option.map_eq_some_iff.mp hval
  obtain ⟨hres, hfields⟩ := Prod.mk.inj hfields
  obtain ⟨hdirty, hold⟩ := Prod.mk.inj hfields
  exact ⟨s, hs, (close_lossless_iff Kfs.smallDrive
    (reach_tracked Kfs.smallDrive_hasRoom (grownFile_reach hs))).1 Kfs.noNoise 1 0 16 [1] hres
    hdirty hold⟩

/-- A file grows to 9217 bytes on a disk with seventeen sectors: it is deleted, the new one takes
nineteen, and both calls to close it lose it. `vfs_close` returns 0. -/
theorem grown_file_lost : ∃ s, Reach Kfs.smallDrive ShortNames s ∧ resolve s 1 0 = some 16 ∧
    (s.fds 16).dirty = true ∧ fileAt s.fs (s.fds 16).opened = some ⟨flagFile, [1]⟩ ∧
    (∃ s', vfsClose Kfs.smallDrive Kfs.noNoise s 1 0 = some (0, s') ∧
      ¬Lossless (s.fds 16) [1] s'.fs) ∧
    ∃ s', vfsCloseAll Kfs.smallDrive (fun _ => Kfs.noNoise) s 1 = some s' ∧
      ¬Lossless (s.fds 16) [1] s'.fs := by
  have hval : (grownFile 9217).bind (fun s =>
      (vfsClose Kfs.smallDrive Kfs.noNoise s 1 0).bind fun r =>
        (vfsCloseAll Kfs.smallDrive (fun _ => Kfs.noNoise) s 1).map fun s' =>
          decide (resolve s 1 0 = some 16 ∧ (s.fds 16).dirty = true ∧
            fileAt s.fs (s.fds 16).opened = some ⟨flagFile, [1]⟩ ∧ r.1 = 0 ∧
            fileAt r.2.fs (s.fds 16).opened = none ∧ fileAt s'.fs (s.fds 16).opened = none)) =
      some true := by decide +kernel
  obtain ⟨s, hs, hrest⟩ := Option.bind_eq_some_iff.mp hval
  obtain ⟨⟨ret, s₁⟩, hclose, hrest⟩ := Option.bind_eq_some_iff.mp hrest
  obtain ⟨s₂, hall, hfields⟩ := Option.map_eq_some_iff.mp hrest
  obtain ⟨hres, hdirty, hold, rfl, hnone₁, hnone₂⟩ := of_decide_eq_true hfields
  have hlost : ∀ {fs : Kfs.State}, fileAt fs (s.fds 16).opened = none →
      ¬Lossless (s.fds 16) [1] fs := by
    intro fs hnone hor
    unfold Lossless Stored at hor
    rw [hnone] at hor
    rcases hor with hnew | hfile
    · cases hnew
    · cases hfile
  exact ⟨s, grownFile_reach hs, hres, hdirty, hold, ⟨s₁, hclose, hlost hnone₁⟩, s₂, hall,
    hlost hnone₂⟩

end Kyuzen.Vfs
