import Kyuzen.Vfs.Effects

/-!
# A descriptor writes back to its file

Closing a descriptor runs `kfs_exists`, `kfs_delete_file` and `kfs_create_file` on the copy of
the path that the descriptor keeps, which is the first 22 bytes of it. A descriptor that was
opened on a path of at most 22 bytes changes what that path names and nothing else
(`closes_ok`). A longer path is admitted by `sys_open` and flushed to another file
(`long_path_stray`).
-/

namespace Kyuzen.Vfs

open Lib.Memory
open Kfs (CStr Fs Resolvable components fileAt flagFile prefixOf)

/-- What closing a descriptor may do to the file system; `stored` is the answer of
`kfs_create_file`. -/
structure WritesBack (vf : VfsFile) (stored : Nat) (fs fs' : Kfs.State) : Prop where
  other : ∀ q, Resolvable q → components q ≠ components vf.opened → fileAt fs' q = fileAt fs q
  clean : vf.dirty = false → fs' = fs
  written : vf.dirty = true → stored = 1 →
    fileAt fs' vf.opened = some ⟨flagFile, prefixOf vf.buf vf.size⟩

/-- Every descriptor that is closed, alone or with all others of its task, writes back. -/
structure ClosesOk (drive : Kfs.Drive) (s : State) : Prop where
  close : ∀ noise task fd slot, resolve s task fd = some slot →
    ∃ stored s', closeSlot drive noise s slot = some (stored, s') ∧
      vfsClose drive noise s task fd = some (0, s') ∧
      WritesBack (s.fds slot) stored s.fs s'.fs
  closeAll : ∀ noise base n, ∃ s₁, closeUpTo drive noise s base n = some s₁ ∧
    ((s₁.fds (base + n)).used = true →
      ∃ stored s₂, closeSlot drive (noise n) s₁ (base + n) = some (stored, s₂) ∧
        closeUpTo drive noise s base (n + 1) = some s₂ ∧
        WritesBack (s₁.fds (base + n)) stored s₁.fs s₂.fs)

/-! ## The condition -/

/-- The descriptor can be written to, or the file does not exist yet. -/
def Writes (fs : Kfs.State) (path : CStr) (flags : Nat) : Prop :=
  has flags (oWronly ||| oRdwr) = true ∨ has flags oTrunc = true ∨ Kfs.kfsExists fs path = some 0

/-- What is opened for writing has a path that fits its descriptor, and what is created besides
has a name that fits its entry. -/
def ShortPaths (env : Env) (s : State) (op : Op) : Prop :=
  env.Fits ∧ match op with
    | .openFile _ path flags => Writes s.fs path flags → path.length ≤ maxPath - 1
    | .kfs op => Kfs.ShortCreate s.fs op
    | _ => True

structure FileOk (vf : VfsFile) : Prop where
  fits : FileFits vf
  path : vf.path = pathCopy vf.opened
  opened : Resolvable vf.opened
  short : vf.dirty = true ∨ has vf.flags (oWronly ||| oRdwr) = true →
    vf.opened.length ≤ maxPath - 1

structure Inv (s : State) : Prop where
  fs : ∃ t, Fs s.fs t
  files : ∀ i, (s.fds i).used = true → FileOk (s.fds i)

variable {drive : Kfs.Drive} {s s' : State} {vf vf' : VfsFile} {fs fs' : Kfs.State} {t : Kfs.Tree}

/-! ## Flushing -/

theorem FileOk.path_eq (h : FileOk vf) (hdirty : vf.dirty = true) : vf.path = vf.opened := by
  rw [h.path, pathCopy, List.take_of_length_le (h.short (Or.inl hdirty))]

theorem length_lastName_le (path : CStr) : (Kfs.lastName path).length ≤ path.length := by
  rw [Kfs.lastName, List.length_reverse]
  exact (List.takeWhile_sublist _).length_le.trans (List.length_reverse).le

/-- The file is removed if it is there. -/
theorem deleteExisting_spec (h : Fs fs t) {path : CStr} (hp : Resolvable path) :
    ∃ fs' t', deleteExisting fs path = some fs' ∧ Fs fs' t' ∧
      ∀ q, Resolvable q → components q ≠ components path → fileAt fs' q = fileAt fs q := by
  obtain ⟨fs', hrun, rfl | ⟨out, hdel, rfl⟩⟩ := deleteExisting_cases h.toSound hp.1
  · exact ⟨fs', t, hrun, h, fun _ _ _ => rfl⟩
  · have hexec : Kfs.exec ⟨0, by decide⟩ ⟨fun _ => 0, fun _ => 0⟩ fs (.deleteFile path) = some out :=
      hdel
    have hv : (Kfs.Op.deleteFile path).Valid := hp.1
    obtain ⟨t', ht', hother⟩ := Kfs.exec_fileAt h hv trivial hexec
    exact ⟨out.state, t', hrun, ht', hother hp.2⟩

/-- A changed descriptor replaces what the copy of its path names. -/
theorem flushLocked_dirty (drive : Kfs.Drive) (h : Fs fs t) (hfits : FileFits vf)
    (hlen : vf.path.length ≤ 22) (hdirty : vf.dirty = true) (noise : Kfs.Noise) :
    ∃ stored fs' t', flushLocked drive noise fs vf = some (stored, fs') ∧ Fs fs' t' ∧
      (∀ q, Resolvable q → components q ≠ components vf.path → fileAt fs' q = fileAt fs q) ∧
      (stored = 1 → fileAt fs' vf.path = some ⟨flagFile, prefixOf vf.buf vf.size⟩) := by
  have hp : Resolvable vf.path := ⟨hfits.nul, by omega⟩
  have hshort : (Kfs.lastName vf.path).length ≤ 22 := (length_lastName_le vf.path).trans hlen
  have hsize : vf.size ≤ 0xFFFFFE00 := hfits.size.trans hfits.cap
  obtain ⟨fs₁, t₁, hdel, h₁, hother₁⟩ := deleteExisting_spec h hp
  obtain ⟨out, hcreate, _⟩ :=
    Kfs.kfsCreateFile_cases h₁.rep drive noise.fat noise.stack hp.1 vf.buf hsize
  have hexec : Kfs.exec drive noise fs₁ (.createFile vf.path vf.buf vf.size) = some out := hcreate
  have hv : (Kfs.Op.createFile vf.path vf.buf vf.size).Valid := ⟨hp.1, hsize⟩
  obtain ⟨t₂, h₂, hother₂⟩ := Kfs.exec_fileAt h₁ hv hshort hexec
  refine ⟨out.ret, out.state, t₂, ?_, h₂, fun q hq hne => ?_, fun hret => ?_⟩
  · simp [flushLocked, hdirty, hdel, hcreate]
  · rw [hother₂ hp.2 q hq hne, hother₁ q hq hne]
  · exact Kfs.kfsCreateFile_fileAt h₁ hp hshort hsize hcreate hret

theorem flushLocked_clean (drive : Kfs.Drive) (hclean : vf.dirty = false) (noise : Kfs.Noise) :
    flushLocked drive noise fs vf = some (0, fs) := by
  simp [flushLocked, hclean]

theorem flushLocked_spec (drive : Kfs.Drive) (h : Fs fs t) (hok : FileOk vf) (noise : Kfs.Noise) :
    ∃ stored fs' t', flushLocked drive noise fs vf = some (stored, fs') ∧ Fs fs' t' ∧
      WritesBack vf stored fs fs' := by
  cases hdirty : vf.dirty with
  | false =>
    refine ⟨0, fs, t, flushLocked_clean drive hdirty noise, h, fun _ _ _ => rfl, fun _ => rfl,
      fun hd => ?_⟩
    rw [hdirty] at hd
    cases hd
  | true =>
    have hpath := hok.path_eq hdirty
    have hlen : vf.path.length ≤ 22 := hpath ▸ hok.short (Or.inl hdirty)
    obtain ⟨stored, fs', t', hflush, h', hother, hwritten⟩ :=
      flushLocked_dirty drive h hok.fits hlen hdirty noise
    rw [hpath] at hother hwritten
    refine ⟨stored, fs', t', hflush, h', hother, fun hd => ?_, fun _ => hwritten⟩
    rw [hdirty] at hd
    cases hd

/-! ## Closing -/

theorem closeSlot_spec (drive : Kfs.Drive) (h : Inv s) {slot : Nat} (hused : (s.fds slot).used = true)
    (noise : Kfs.Noise) : ∃ stored s', closeSlot drive noise s slot = some (stored, s') ∧ Inv s' ∧
      WritesBack (s.fds slot) stored s.fs s'.fs := by
  obtain ⟨t, ht⟩ := h.fs
  obtain ⟨stored, fs', t', hflush, ht', hback⟩ :=
    flushLocked_spec drive ht (h.files slot hused) noise
  obtain ⟨s', hclose, rfl⟩ : ∃ s', closeSlot drive noise s slot = some (stored, s') ∧
      s'.fs = fs' := by
    simp [closeSlot, hflush]
  refine ⟨stored, s', hclose, ⟨⟨t', ht'⟩, fun i hi => ?_⟩, hback⟩
  obtain ⟨_, heq⟩ := closeSlot_fds hclose hi
  rw [heq] at hi ⊢
  exact h.files i hi

theorem closeUpTo_spec (drive : Kfs.Drive) (h : Inv s) (noise : Nat → Kfs.Noise) (base n : Nat) :
    ∃ s', closeUpTo drive noise s base n = some s' ∧ Inv s' := by
  induction n with
  | zero => exact ⟨s, rfl, h⟩
  | succ n ih =>
    obtain ⟨s₁, hrun, h₁⟩ := ih
    simp only [closeUpTo, hrun, Option.bind_eq_bind, Option.bind_some]
    split_ifs with hused
    · obtain ⟨_, s₂, hclose, h₂, _⟩ := closeSlot_spec drive h₁ hused (noise n)
      exact ⟨s₂, by rw [hclose]; rfl, h₂⟩
    · exact ⟨s₁, rfl, h₁⟩

theorem Inv.closesOk (h : Inv s) : ClosesOk drive s := by
  refine ⟨fun noise task fd slot hres => ?_, fun noise base n => ?_⟩
  · obtain ⟨stored, s', hclose, _, hback⟩ :=
      closeSlot_spec drive h (resolve_used hres) noise
    refine ⟨stored, s', hclose, ?_, hback⟩
    simp [vfsClose, hres, hclose]
  · obtain ⟨s₁, hrun, h₁⟩ := closeUpTo_spec drive h noise base n
    refine ⟨s₁, hrun, fun hused => ?_⟩
    obtain ⟨stored, s₂, hclose, _, hback⟩ := closeSlot_spec drive h₁ hused (noise n)
    refine ⟨stored, s₂, hclose, ?_, hback⟩
    simp [closeUpTo, hrun, hused, hclose]

/-! ## Whole runs -/

theorem FileOk.touched {env : Env} (hfits : env.Fits) (h : FileOk vf)
    (ht : Touched env.heap vf vf') : FileOk vf' := by
  refine ⟨h.fits.touched hfits ht, ?_, ht.opened ▸ h.opened, fun hwrites => ?_⟩
  · rw [ht.path, ht.opened]
    exact h.path
  · rw [ht.opened]
    refine h.short ?_
    rcases hwrites with hdirty | hflags
    · exact ht.dirty hdirty
    · exact Or.inr (ht.flags ▸ hflags)

theorem newFile_ok {env : Env} (hfits : env.Fits) {task : Int} {path : CStr} {flags : Nat}
    {l : Loaded} (hp : Resolvable path) (hshort : Writes s.fs path flags →
      path.length ≤ maxPath - 1)
    (hload : vfsLoad env.heap s.fs s.fs s.fs path flags = some (some l)) :
    FileOk (newFile task path flags l) := by
  refine ⟨newFile_fits hfits hp.1 hload, rfl, hp, fun hwrites => hshort ?_⟩
  rcases hwrites with hdirty | hflags
  · have hdirty : l.existed = false ∨ has flags oTrunc = true := by
      simpa [newFile] using hdirty
    rcases hdirty with hno | htrunc
    · exact Or.inr (Or.inr ((vfsLoad_fits hload).2.2 hno))
    · exact Or.inr (Or.inl htrunc)
  · exact Or.inl hflags

theorem exec_inv {env : Env} {op : Op} (h : Inv s) (hv : op.Valid) (hp : ShortPaths env s op)
    (hrun : exec drive env s op = some s') : Inv s' := by
  refine ⟨?_, exec_files h.files (fun task path flags l hop hload => ?_)
    (fun vf vf' hvf ht => hvf.touched hp.1 ht) hrun⟩
  · refine exec_fs (J := fun fs => ∃ t, Fs fs t) h.files h.fs
      (fun fs vf noise r hfs hvf hr => ?_) (fun kop out hop hout => ?_) hrun
    · obtain ⟨t, ht⟩ := hfs
      obtain ⟨stored, fs', t', hflush, ht', _⟩ := flushLocked_spec drive ht hvf noise
      obtain rfl := Option.some.inj (hflush.symm.trans hr)
      exact ⟨t', ht'⟩
    · subst hop
      obtain ⟨t, ht⟩ := h.fs
      obtain ⟨t', ht', _⟩ := Kfs.exec_fileAt ht hv.1 hp.2 hout
      exact ⟨t', ht'⟩
  · subst hop
    exact newFile_ok hp.1 ⟨hv.1, le_trans hv.2.2 (by decide)⟩ hp.2 hload

theorem reach_inv (hroom : drive.HasRoom) (h : Reach drive ShortPaths s) : Inv s := by
  induction h with
  | boot stale fs fds =>
    exact ⟨⟨_, Kfs.format_fs hroom stale fs⟩, fun i hi => by cases hi⟩
  | step env _ hv hp hrun ih => exact exec_inv ih hv hp hrun

/-- In every run that opens only paths of at most 22 bytes for writing, closing a descriptor
changes what its path names, to the descriptor's bytes when the store succeeds, and nothing
else. -/
theorem closes_ok (hroom : drive.HasRoom) (h : Reach drive ShortPaths s) : ClosesOk drive s :=
  (reach_inv hroom h).closesOk

/-- A heap with one block of every size, all zeros. -/
def zeroHeap : Heap := fun n => if n ≤ 0xFFFFFE00 then some fun _ => 0 else none

def quietEnv : Env := ⟨zeroHeap, fun _ => Kfs.noNoise⟩

theorem quietEnv_fits : quietEnv.Fits := by
  intro n hn
  by_contra hbig
  simp [quietEnv, zeroHeap, hbig] at hn

/-- No descriptor in use, on an empty disk. -/
def bootState : State :=
  boot Kfs.smallDrive (fun _ => 0) Kfs.blankState
    fun _ => ⟨false, 0, [], fun _ => 0, 0, 0, 0, 0, false, []⟩

/-- Task 1 opens the file `path` to write. -/
def openNew (path : CStr) : Op := .openFile 1 path (oWronly ||| oCreat)

theorem closes_ok_new : ∃ s, exec Kfs.smallDrive quietEnv bootState (openNew [97]) = some s ∧
    (s.fds 16).used = true ∧ (s.fds 16).dirty = true ∧ ClosesOk Kfs.smallDrive s := by
  have hval : ((exec Kfs.smallDrive quietEnv bootState (openNew [97])).map fun s =>
      ((s.fds 16).used, (s.fds 16).dirty)) = some (true, true) := by decide +kernel
  obtain ⟨s, hs, hfields⟩ := Option.map_eq_some_iff.mp hval
  obtain ⟨hused, hdirty⟩ := Prod.mk.inj hfields
  refine ⟨s, hs, hused, hdirty, closes_ok Kfs.smallDrive_hasRoom ?_⟩
  have hv : (openNew [97]).Valid := ⟨by decide, by decide, by decide⟩
  have hshort : ShortPaths quietEnv bootState (openNew [97]) := ⟨quietEnv_fits, fun _ => by decide⟩
  exact Reach.step quietEnv (Reach.boot _ _ _) hv hshort hs

/-- Opened on a name of 23 bytes, the descriptor creates a file under the first 22 of them. -/
theorem long_path_stray : ∃ s, Reach Kfs.smallDrive (fun _ _ _ => True) s ∧
    (s.fds 16).used = true ∧ (s.fds 16).opened = Kfs.longName ∧
    ¬ ClosesOk Kfs.smallDrive s := by
  have hval : ((exec Kfs.smallDrive quietEnv bootState (openNew Kfs.longName)).bind fun s =>
      (closeSlot Kfs.smallDrive Kfs.noNoise s 16).map fun r =>
        decide ((s.fds 16).used = true ∧ (s.fds 16).opened = Kfs.longName ∧
          resolve s 1 0 = some 16 ∧
          fileAt r.2.fs (Kfs.longName.take 22) ≠ fileAt s.fs (Kfs.longName.take 22))) =
      some true := by decide +kernel
  obtain ⟨s, hs, hrest⟩ := Option.bind_eq_some_iff.mp hval
  obtain ⟨r, hr, hfields⟩ := Option.map_eq_some_iff.mp hrest
  obtain ⟨hused, hopened, hres, hstray⟩ := of_decide_eq_true hfields
  refine ⟨s, ?_, hused, hopened, fun hok => ?_⟩
  · have hv : (openNew Kfs.longName).Valid := ⟨by decide, by decide, by decide⟩
    exact Reach.step quietEnv (Reach.boot _ _ _) hv trivial hs
  · obtain ⟨stored, s', hclose, _, hback⟩ := hok.close Kfs.noNoise 1 0 16 hres
    rw [hr] at hclose
    obtain rfl := Option.some.inj hclose
    refine hstray (hback.other _ ⟨by decide, by decide⟩ ?_)
    rw [hopened]
    decide

end Kyuzen.Vfs
