import Kyuzen.Vfs.Refinement

/-!
# The settings file

`settings_save` and `settings_load` of libui: the theme of a window is written to `settings.ui` and
read back by the next window, of this or another program.

A save answers 1 as soon as the file could be opened (`settings_round_trip`). The theme is then on
the disk exactly when the bounce buffer of the write could be had and the file was there before or
fits as a new one; else the file is empty or missing. A load whose two buffers can be had delivers
the theme that is on the disk, unless it is all zero.
-/

namespace Kyuzen.Ui.Settings

open Lib.Memory
open Kfs (CStr Fs Resolvable Absent Fits fileAt flagFile prefixOf length_prefixOf
  getElem?_prefixOf chainLength freeSectors)
open Vfs

/-- `ui_theme_t`. -/
structure Theme where
  bg : UInt32
  fg : UInt32
  accent : UInt32
  buttonBg : UInt32
  buttonFg : UInt32
  buttonHover : UInt32
deriving DecidableEq

/-- The constructor of `Theme`. -/
def Theme.default : Theme := ⟨0x1A1A2E, 0xE0E0E0, 0xE94560, 0x0F3460, 0xFFFFFF, 0x2A4A7E⟩

/-- `sizeof(ui_theme_t)`. -/
def themeSize : Nat := 24

/-- `"settings.ui"`. -/
def settingsUi : CStr := [115, 101, 116, 116, 105, 110, 103, 115, 46, 117, 105]

/-- The structure in memory. -/
def Theme.mem (t : Theme) : Mem :=
  store (store (store (store (store (store (fun _ => 0) 0 4 t.bg.toNat) 4 4 t.fg.toNat)
    8 4 t.accent.toNat) 12 4 t.buttonBg.toNat) 16 4 t.buttonFg.toNat) 20 4 t.buttonHover.toNat

def Theme.ofMem (m : Mem) : Theme where
  bg := UInt32.ofNat (load m 0 4)
  fg := UInt32.ofNat (load m 4 4)
  accent := UInt32.ofNat (load m 8 4)
  buttonBg := UInt32.ofNat (load m 12 4)
  buttonFg := UInt32.ofNat (load m 16 4)
  buttonHover := UInt32.ofNat (load m 20 4)

def oRdonly : Nat := 0x0

/-! ## The system calls -/

variable (drive : Kfs.Drive) (env : Env) (task : Int)

/-- System call 49 on a range that is mapped: the bytes go through a bounce buffer. -/
def sysWriteFd (s : State) (fd : Int) (data : Mem) (count : Nat) : Option (Int × State) :=
  match env.heap count with
  | none => some (-1, s)
  | some bounce =>
    (call drive env task settingsUi s (.write fd (some (fill bounce 0 count data)) count)).map
      fun r => (r.1.1, r.2)

/-- System call 48 on a range that is mapped. -/
def sysReadFd (s : State) (fd : Int) (buf : Mem) (count : Nat) : Option (Int × Mem × State) :=
  match env.heap count with
  | none => some (-1, buf, s)
  | some bounce =>
    (call drive env task settingsUi s (.read fd (some bounce) count)).map fun r =>
      (r.1.1, if r.1.1 > 0 then fill buf 0 r.1.1.toNat (r.1.2.getD bounce) else buf, r.2)

/-- `settings_save`; each system call has its own surroundings. -/
def settingsSave (env : Nat → Env) (s : State) (theme : Theme) : Option (Int × State) := do
  let ((fd, _), s) ← call drive (env 0) task settingsUi s (.openFile (oWronly ||| oCreat ||| oTrunc))
  if fd < 0 then return (0, s)
  let (_, s) ← sysWriteFd drive (env 1) task s fd theme.mem themeSize
  let (_, s) ← call drive (env 2) task settingsUi s (.close fd)
  return (1, s)

/-- `settings_load`, with the theme that the window has afterwards: `set_theme` takes all of the
structure. `t` is what the stack holds. -/
def settingsLoad (env : Nat → Env) (s : State) (t : Mem) (theme : Theme) :
    Option ((Int × Theme) × State) := do
  let ((fd, _), s) ← call drive (env 0) task settingsUi s (.openFile oRdonly)
  if fd < 0 then return ((0, theme), s)
  let (n, t, s) ← sysReadFd drive (env 1) task s fd t themeSize
  let (_, s) ← call drive (env 2) task settingsUi s (.close fd)
  if n ≠ themeSize then return ((0, theme), s)
  let t := Theme.ofMem t
  if t.bg = 0 ∧ t.fg = 0 ∧ t.accent = 0 ∧ t.buttonBg = 0 ∧ t.buttonFg = 0 ∧ t.buttonHover = 0 then
    return ((0, theme), s)
  return ((1, t), s)

variable {drive env task} {envs : Nat → Env} {s s' : State} {r : Ref} {f : RefFile} {fd : Int}
  {t : Kfs.Tree} {file : Option (List UInt8)}

/-! ## Themes in memory -/

/-- The bytes of a theme, as they stand in the file. -/
def Theme.bytes (t : Theme) : List UInt8 := prefixOf t.mem themeSize

@[simp] theorem Theme.length_bytes (t : Theme) : t.bytes.length = themeSize :=
  length_prefixOf t.mem themeSize

theorem Theme.ofMem_congr {m m' : Mem} (h : ∀ i < themeSize, m i = m' i) :
    Theme.ofMem m = Theme.ofMem m' := by
  unfold themeSize at h
  have hload : ∀ a, a + 4 ≤ 24 → load m a 4 = load m' a 4 := by
    intro a ha
    refine load_congr fun x h1 h2 => h x ?_
    omega
  simp only [Theme.ofMem, hload 0 (by omega), hload 4 (by omega), hload 8 (by omega),
    hload 12 (by omega), hload 16 (by omega), hload 20 (by omega)]

/-- A word that is written is read. -/
theorem ofNat_load_store (m : Mem) (a : Nat) (v : UInt32) :
    UInt32.ofNat (load (store m a 4 v.toNat) a 4) = v := by
  have hlt : v.toNat < 256 ^ 4 := v.toNat_lt
  rw [load_store, Nat.mod_eq_of_lt hlt]
  exact UInt32.ofNat_toNat

theorem Theme.ofMem_mem (t : Theme) : Theme.ofMem t.mem = t := by
  have hskip : ∀ (m : Mem) (a v b : Nat), b + 4 ≤ a →
      load (store m a 4 v) b 4 = load m b 4 := by
    intro m a v b h
    exact load_store_of_disjoint (Or.inl h)
  simp only [Theme.ofMem, Theme.mem]
  simp (disch := omega) only [hskip, ofNat_load_store]

/-- The bytes of a file begin with a theme. -/
theorem Theme.ofMem_bytes {m : Mem} (t : Theme) (h : ∀ i < themeSize, t.bytes[i]? = some (m i)) :
    Theme.ofMem m = t := by
  rw [← t.ofMem_mem]
  refine Theme.ofMem_congr fun i hi => ?_
  have hb := h i hi
  rw [Theme.bytes, getElem?_prefixOf t.mem hi] at hb
  exact (Option.some.inj hb).symm

/-! ## The disk -/

/-- The disk takes a file of at most one sector in place of what is there. -/
def TakesFile (fs : Kfs.State) (file : Option (List UInt8)) : Prop :=
  file.isSome = true ∨ ∀ d, Absent fs settingsUi d → Fits fs d 1

theorem settingsUi_resolvable : Resolvable settingsUi := ⟨by decide, by decide⟩

theorem room_iff {fs : Kfs.State} (hfile : FileIs fs settingsUi file) {size : Nat}
    (hsize : size ≤ 512) : Room fs settingsUi size ↔ TakesFile fs file := by
  have hone : chainLength size = 1 := by
    unfold chainLength
    omega
  unfold Room TakesFile
  rw [hone]
  cases file with
  | none =>
    obtain ⟨d, ha⟩ := hfile
    have hnone := Kfs.fileAt_absent ha
    constructor
    · intro hroom
      exact Or.inr hroom.2
    · rintro (hsome | hfits)
      · cases hsome
      · refine ⟨fun old hold => ?_, hfits⟩
        rw [hnone] at hold
        cases hold
  | some bytes =>
    have hold : fileAt fs settingsUi = some ⟨flagFile, bytes⟩ := hfile
    refine ⟨fun _ => Or.inl rfl, fun _ => ⟨fun old _ => ?_, fun d ha => ?_⟩⟩
    · unfold chainLength
      omega
    · rw [Kfs.fileAt_absent ha] at hold
      cases hold

/-- The path has one component, so what it does not name is absent from the root. -/
theorem absent_of_fileAt {fs : Kfs.State} (h : Fs fs t) (hnone : fileAt fs settingsUi = none) :
    FileIs fs settingsUi none := by
  have hp := settingsUi_resolvable
  have hname : Kfs.lastName settingsUi = settingsUi := by decide
  have hsplit : Kfs.splitLast fs settingsUi = some (some (t.root, settingsUi)) := by
    apply (Kfs.splitLast_iff h.rep h.unique hp.1).mpr
    exact ⟨hname.symm, by decide, rfl⟩
  have hfind := Kfs.findEntryIn_eq h.rep (Or.inl rfl : t.IsDir t.root) hp.1
  refine ⟨t.root, by rw [hsplit, hname], ?_⟩
  rw [hname, hfind]
  unfold fileAt Kfs.entryOf at hnone
  rw [hsplit] at hnone
  simp only [hfind, Option.bind_some, Option.map_map, Option.map_eq_none_iff] at hnone ⊢
  rw [hnone]
  rfl

/-! ## The calls -/

theorem fs_openFile {ans : Answer} {flags : Nat}
    (h : call drive env task settingsUi s (.openFile flags) = some (ans, s')) : s'.fs = s.fs := by
  obtain ⟨r, hopen, heq⟩ := Option.map_eq_some_iff.mp h
  obtain rfl := (Prod.mk.inj heq).2
  rcases vfsOpen_effect hopen with hsame | ⟨l, slot, -, hset⟩
  · rw [hsame]
  · rw [hset]
    rfl

/-- An open call whose buffer cannot be had. -/
theorem call_refused {flags : Nat} (h : Fs s.fs t) (hfile : FileIs s.fs settingsUi file)
    (hheap : env.heap (openCap (file.elim 0 List.length)) = none) :
    call drive env task settingsUi s (.openFile flags) = some ((-1, none), s) := by
  have hp := settingsUi_resolvable
  have hexists := Kfs.kfsExists_fileAt h.rep hp.1
  have hfileAt := hfile.fileAt
  have hload : vfsLoad env.heap s.fs s.fs s.fs settingsUi flags = some none := by
    unfold vfsLoad
    cases file with
    | none =>
      rw [hfileAt] at hexists
      rw [hexists]
      by_cases hcreat : has flags oCreat = false
      · simp [hcreat]
      · have hheap : env.heap (openCap 0) = none := hheap
        simp [hcreat, openSize, hheap]
    | some bytes =>
      have hsize : Kfs.kfsGetFileSize s.fs settingsUi = some bytes.length := by
        rw [Kfs.kfsGetFileSize_fileAt h.toSound hp.1, hfileAt]
        rfl
      have hheap : env.heap (openCap bytes.length) = none := hheap
      rw [hfileAt] at hexists
      rw [hexists]
      simp [openSize, hsize, hheap]
  have hopen : vfsOpen env.heap s task settingsUi flags = some (-1, s) := by
    unfold vfsOpen
    rw [if_neg (by decide), hload]
    split_ifs <;> rfl
  rw [call, hopen]
  rfl

theorem fs_write (heap : Heap) (s : State) (task fd : Int) (data : Option Mem) (count : Nat) :
    (vfsWrite heap s task fd data count).2.fs = s.fs := by
  unfold vfsWrite
  split
  · rfl
  · rfl
  · split
    · rfl
    · dsimp only
      split <;> rfl

/-- A changed file of at most one sector is stored when the disk takes it, and else the path is
left without a file. -/
theorem close_small (drive : Kfs.Drive) (env : Env) (h : Matches task settingsUi s r)
    (hfd : r.opened fd = some f) (hchanged : f.changed = true) (hsize : f.bytes.length ≤ 512) : ∃ s' saved,
      call drive env task settingsUi s (.close fd) = some ((0, none), s') ∧
      Matches task settingsUi s' { r.set fd none with file := saved } ∧
      (TakesFile s.fs r.file ∧ saved = some f.bytes ∨ ¬TakesFile s.fs r.file ∧ saved = none) := by
  obtain ⟨slot, hslot, hvf⟩ := h.opened fd f hfd
  have hres := hvf.resolve hslot
  have hlen : (s.fds slot).size ≤ 512 := by
    rwa [← hvf.bytes, length_prefixOf] at hsize
  have hroom := room_iff h.file hlen
  have hdirty : (s.fds slot).dirty = true := hvf.dirty.trans hchanged
  by_cases htakes : TakesFile s.fs r.file
  · have henough : Enough env s task settingsUi (.close fd) := by
      intro slot' hslot' _
      obtain rfl := Option.some.inj (hres.symm.trans hslot')
      exact hroom.mpr htakes
    obtain ⟨s', hcall, h'⟩ : Agrees drive env task settingsUi s r (.close fd) :=
      h.close settingsUi_resolvable (by decide) fd henough
    simp only [Ref.call, hfd, hchanged, if_true] at hcall h'
    exact ⟨s', some f.bytes, hcall, h', Or.inl ⟨htakes, rfl⟩⟩
  · cases hfile : r.file with
    | some bytes => exact absurd (Or.inl (by rw [hfile]; rfl)) htakes
    | none =>
      obtain ⟨t, ht⟩ := h.fs
      have hf := h.file
      rw [hfile] at hf htakes hroom
      obtain ⟨d, ha⟩ := hf
      have hno : ¬Fits s.fs d (chainLength (s.fds slot).size) := by
        intro hfits
        refine htakes (hroom.mp ⟨fun old hold => ?_, fun d' ha' => ?_⟩)
        · rw [Kfs.fileAt_absent ha] at hold
          cases hold
        · have heq := ha.1.symm.trans ha'.1
          simp only [Option.some.injEq, Prod.mk.injEq, and_true] at heq
          rwa [← heq]
      have hsmall : (s.fds slot).size ≤ 0xFFFFFE00 := by omega
      obtain ⟨out, t', hcreate, h', hcases⟩ := Kfs.create_spec ht settingsUi_resolvable ha
        (by decide) drive (env.noise 0) (s.fds slot).buf hsmall
      rcases hcases with ⟨hfits, -⟩ | ⟨-, -, hnew⟩
      · exact absurd hfits hno
      · have hthere := Kfs.kfsExists_fileAt ht.rep settingsUi_resolvable.1
        rw [Kfs.fileAt_absent ha] at hthere
        have hflush : flushLocked drive (env.noise 0) s.fs (s.fds slot) =
            some (out.ret, out.state) := by
          simp [flushLocked, hdirty, deleteExisting, hvf.path, hthere, hcreate]
        have hnil : ∀ bytes ∈ (none : Option (List UInt8)), bytes.length < 2 ^ 31 := by
          intro bytes hbytes
          cases hbytes
        have hclose : call drive env task settingsUi s (.close fd) = some ((0, none),
            { setFd s slot { s.fds slot with
                dirty := false
                buf := fun _ => 0
                used := false } with fs := out.state }) := by
          simp only [call, vfsClose, hres, closeSlot, hflush, Option.bind_eq_bind,
            Option.bind_some]
          rfl
        exact ⟨_, none, hclose, h.unset hslot rfl h' (absent_of_fileAt h' hnew) hnil,
          Or.inr ⟨htakes, rfl⟩⟩

/-! ## Saving -/

/-- The flags that `settings_save` opens the file with. -/
def saveFlags : Nat := oWronly ||| oCreat ||| oTrunc

/-- The references on the way of a save: nothing is open, the new file is open. -/
def idle (file : Option (List UInt8)) : Ref := ⟨file, fun _ => none, false⟩

def opened (file : Option (List UInt8)) (flags : Nat) (bytes : List UInt8) (pos : Nat)
    (changed : Bool) : Ref :=
  ⟨file, Function.update (fun _ => none) 0 (some ⟨bytes, pos, flags, changed⟩), false⟩

theorem opened_zero (file : Option (List UInt8)) (flags : Nat) (bytes : List UInt8) (pos : Nat)
    (changed : Bool) : (opened file flags bytes pos changed).opened 0 =
      some ⟨bytes, pos, flags, changed⟩ := rfl

theorem opened_ne {flags pos : Nat} {bytes : List UInt8} {changed : Bool} (hne : fd ≠ 0) :
    (opened file flags bytes pos changed).opened fd = none := by
  simp only [opened, Function.update_of_ne hne]

/-- A task without open files, on a sound disk. -/
structure Ready (task : Int) (s : State) (file : Option (List UInt8)) : Prop where
  sound : ∃ t, Fs s.fs t
  holds : FileIs s.fs settingsUi file
  small : ∀ bytes ∈ file, bytes.length < 2 ^ 31
  free : ∀ fd slot, slotOf task fd = some slot → (s.fds slot).used = false
  valid : 0 ≤ task ∧ task < maxTasks

theorem Ready.matches (h : Ready task s file) : Matches task settingsUi s (idle file) :=
  ⟨h.sound, h.holds, h.small, fun _ _ hf => (Option.some_ne_none _ hf.symm).elim,
    fun fd slot _ hslot => h.free fd slot hslot⟩

theorem ready_of_matches (htask : 0 ≤ task ∧ task < maxTasks) (h : Matches task settingsUi s r)
    (hnone : ∀ fd, r.opened fd = none) : Ready task s r.file :=
  ⟨h.fs, h.file, h.small, fun fd slot hslot => h.closed fd slot (hnone fd) hslot, htask⟩

theorem call_openFile_save (file : Option (List UInt8)) :
    (idle file).call (.openFile saveFlags) = ((0, none), opened file saveFlags [] 0 true) := by
  cases file <;> rfl

/-- A file that was opened can take 64 bytes. -/
theorem cap_openFile {flags i : Nat} (h : call drive env task settingsUi s (.openFile flags) =
    some (((i : Int), none), s')) {slot : Nat} (hslot : slotOf task (i : Int) = some slot) :
    64 ≤ (s'.fds slot).cap := by
  obtain ⟨r, hopen, heq⟩ := Option.map_eq_some_iff.mp h
  rcases vfsOpen_cases hopen with rfl | ⟨l, fd, hfd, hload, rfl⟩
  · simp at heq
  · obtain ⟨hans, rfl⟩ := Prod.mk.inj heq
    have hsame : ((fd : Nat) : Int) = i := (Prod.mk.inj hans).1
    rw [hsame] at hfd
    obtain rfl := Option.some.inj (hfd.symm.trans hslot)
    have hcap : ∃ n, l.cap = openCap n := by
      obtain ⟨_, n, _, -, -, -, ⟨-, -, -, _, _, -, -, rfl⟩ | ⟨-, rfl⟩⟩ := vfsLoad_cases hload
      · exact ⟨n, rfl⟩
      · exact ⟨n, rfl⟩
    obtain ⟨n, hn⟩ := hcap
    have hle : 64 ≤ openCap n := by
      unfold openCap
      split_ifs <;> omega
    show 64 ≤ (Function.update s.fds _ (newFile task settingsUi flags l) _).cap
    rw [Function.update_self]
    exact hle.trans_eq hn.symm

/-- The write of a save. -/
theorem write_theme (drive : Kfs.Drive) (env : Env)
    (h : Matches task settingsUi s (opened file saveFlags [] 0 true))
    (hcap : ∀ slot, slotOf task 0 = some slot → 64 ≤ (s.fds slot).cap) (theme : Theme) :
    ∃ n s', sysWriteFd drive env task s 0 theme.mem themeSize = some (n, s') ∧ s'.fs = s.fs ∧
      ∃ bytes pos, Matches task settingsUi s' (opened file saveFlags bytes pos true) ∧
        bytes = if env.heap themeSize = none then [] else theme.bytes := by
  unfold sysWriteFd
  cases hheap : env.heap themeSize with
  | none => exact ⟨-1, s, rfl, rfl, [], 0, h, rfl⟩
  | some bounce =>
    have hopen := opened_zero file saveFlags [] 0 true
    have hsame : prefixOf (fill bounce 0 themeSize theme.mem) themeSize = theme.bytes := by
      refine List.map_congr_left fun i hi => ?_
      have hlt := List.mem_range.mp hi
      rw [fill, if_pos (by omega)]
    -- the reference writes the bytes at the start
    have hcall : (opened file saveFlags [] 0 true).call
        (.write 0 (some (fill bounce 0 themeSize theme.mem)) themeSize) =
        ((((themeSize : Nat) : Int), none), opened file saveFlags theme.bytes themeSize true) := by
      have hflags : ¬has saveFlags (oWronly ||| oRdwr) = false := by decide
      simp only [Ref.call, hopen, if_neg hflags]
      have hfile : (RefFile.write ⟨[], 0, saveFlags, true⟩
          (prefixOf (fill bounce 0 themeSize theme.mem) themeSize)) =
          ⟨theme.bytes, themeSize, saveFlags, true⟩ := by
        rw [hsame]
        have hstart : RefFile.start ⟨[], 0, saveFlags, true⟩ = 0 := by decide
        simp [RefFile.write, hstart]
      rw [hfile]
      simp [Ref.set, opened]
    have hbound : (Call.write 0 (some (fill bounce 0 themeSize theme.mem)) themeSize).Bounded
        (opened file saveFlags [] 0 true) := by
      refine ⟨fun fd f hf => ?_, fun fd offset whence hc => by cases hc⟩
      rw [hcall] at hf
      by_cases heq : fd = 0
      · subst heq
        rw [opened_zero] at hf
        obtain rfl := Option.some.inj hf
        rw [Theme.length_bytes]
        decide
      · rw [opened_ne heq] at hf
        cases hf
    have henough : Enough env s task settingsUi
        (.write 0 (some (fill bounce 0 themeSize theme.mem)) themeSize) := by
      intro slot n hres hgrow
      obtain ⟨slot', hslot, hvf⟩ := h.opened 0 _ hopen
      obtain rfl := Option.some.inj ((hvf.resolve hslot).symm.trans hres)
      have hroom := hcap _ hslot
      have hpos : (seekAppend (s.fds slot')).pos = 0 := by
        rw [hvf.seekAppend]
        rfl
      rw [grownCap, hpos, if_pos (by unfold themeSize; omega)] at hgrow
      cases hgrow
    obtain ⟨s', hrun, h'⟩ : Agrees drive env task settingsUi s _ _ := h.write 0 _ _ hbound henough
    rw [hcall] at hrun h'
    refine ⟨themeSize, s', ?_, ?_, theme.bytes, themeSize, h', by simp⟩
    · dsimp only
      rw [hrun]
      rfl
    have hfs := (Prod.mk.inj (Option.some.inj hrun)).2
    rw [← hfs]
    exact fs_write _ _ _ _ _ _

/-- What is on the path after a save. -/
inductive Saved (fs : Kfs.State) (file : Option (List UInt8)) (bounce : Option Mem)
    (theme : Theme) : Option (List UInt8) → Prop
  | stored (hroom : TakesFile fs file) (hbounce : bounce ≠ none) :
      Saved fs file bounce theme (some theme.bytes)
  | empty (hroom : TakesFile fs file) (hbounce : bounce = none) :
      Saved fs file bounce theme (some [])
  | missing (hroom : ¬TakesFile fs file) : Saved fs file bounce theme none

theorem settingsSave_spec (drive : Kfs.Drive) (h : Ready task s file)
    (hheap : (envs 0).heap (openCap (file.elim 0 List.length)) ≠ none) (theme : Theme) :
    ∃ s' saved, settingsSave drive task envs s theme = some (1, s') ∧ Ready task s' saved ∧
      Saved s.fs file ((envs 1).heap themeSize) theme saved := by
  have henough : Enough (envs 0) s task settingsUi (.openFile saveFlags) := by
    unfold Enough
    rw [h.holds.fileAt]
    cases file <;> exact hheap
  obtain ⟨s₁, hopen, h₁⟩ : Agrees drive (envs 0) task settingsUi s (idle file) _ :=
    h.matches.openFile settingsUi_resolvable (by decide) h.valid saveFlags henough
  rw [call_openFile_save] at hopen h₁
  have hfs₁ := fs_openFile hopen
  have hopen' : call drive (envs 0) task settingsUi s (.openFile saveFlags) =
    some ((((0 : Nat) : Int), none), s₁) := hopen
  obtain ⟨n, s₂, hwrite, hfs₂, bytes, pos, h₂, hbytes⟩ :=
    write_theme drive (envs 1) h₁ (fun slot hslot => cap_openFile hopen' hslot) theme
  have hlen : bytes.length ≤ 512 := by
    rw [hbytes]
    split_ifs
    · exact Nat.zero_le _
    · rw [Theme.length_bytes]
      decide
  obtain ⟨s₃, saved, hclose, h₃, hcases⟩ :=
    close_small drive (envs 2) h₂ (opened_zero _ _ _ _ _) rfl hlen
  have hnone : ∀ fd, ((opened file saveFlags bytes pos true).set 0 none).opened fd = none := by
    intro fd
    unfold Ref.set
    by_cases heq : fd = 0
    · simp only [heq, Function.update_self]
    · simp only [Function.update_of_ne heq, opened_ne heq]
  refine ⟨s₃, saved, ?_, ready_of_matches h.valid h₃ hnone, ?_⟩
  · have hflags : oWronly ||| oCreat ||| oTrunc = saveFlags := rfl
    unfold settingsSave
    rw [hflags, hopen]
    simp [hwrite, hclose]
  · rw [hfs₂, hfs₁] at hcases
    rcases hcases with ⟨htakes, rfl⟩ | ⟨hno, rfl⟩
    · dsimp only
      rw [hbytes]
      split_ifs with hb
      · exact Saved.empty htakes hb
      · exact Saved.stored htakes hb
    · exact Saved.missing hno

/-! ## Loading -/

/-- The theme that is refused. -/
def Theme.black : Theme := ⟨0, 0, 0, 0, 0, 0⟩

theorem Theme.eq_black_iff (t : Theme) : (t.bg = 0 ∧ t.fg = 0 ∧ t.accent = 0 ∧ t.buttonBg = 0 ∧
    t.buttonFg = 0 ∧ t.buttonHover = 0) ↔ t = Theme.black := by
  cases t
  simp only [Theme.black, Theme.mk.injEq]

/-- What a load makes of the bytes of the file. -/
def loadBytes (bytes : List UInt8) (old : Theme) : Int × Theme :=
  let t := Theme.ofMem fun i => bytes.getD i 0
  if bytes.length < themeSize ∨ t = Theme.black then (0, old) else (1, t)

theorem loadBytes_bytes (theme old : Theme) :
    loadBytes theme.bytes old = if theme = Theme.black then (0, old) else (1, theme) := by
  have hof : (Theme.ofMem fun i => theme.bytes.getD i 0) = theme := by
    refine theme.ofMem_bytes fun i hi => ?_
    rw [List.getD_eq_getElem?_getD, List.getElem?_eq_getElem (by rwa [Theme.length_bytes])]
    rfl
  unfold loadBytes
  rw [hof, Theme.length_bytes]
  simp

theorem call_openFile_load (bytes : List UInt8) :
    (idle (some bytes)).call (.openFile oRdonly) =
      ((0, none), opened (some bytes) oRdonly bytes 0 false) := by
  rfl

/-- The read of a load. -/
theorem read_theme (drive : Kfs.Drive) (env : Env) {bytes : List UInt8}
    (h : Matches task settingsUi s (opened (some bytes) oRdonly bytes 0 false)) (t : Mem) :
    ∃ t' s',
      sysReadFd drive env task s 0 t themeSize =
        some (if (env.heap themeSize).isSome then ((min themeSize bytes.length : Nat) : Int)
          else -1, t', s') ∧
      ((env.heap themeSize).isSome → themeSize ≤ bytes.length →
        Theme.ofMem t' = Theme.ofMem fun i => bytes.getD i 0) ∧
      ∃ pos, Matches task settingsUi s' (opened (some bytes) oRdonly bytes pos false) := by
  cases hbounce : env.heap themeSize with
  | none =>
    have hsys : sysReadFd drive env task s 0 t themeSize = some (-1, t, s) := by
      rw [sysReadFd, hbounce]
    exact ⟨t, s, hsys, fun hsome => absurd hsome Bool.false_ne_true, 0, h⟩
  | some bounce =>
  rw [Option.isSome_some, if_pos rfl]
  obtain ⟨s', hrun, h'⟩ : Agrees drive env task settingsUi s _ _ := h.read 0 (some bounce) themeSize
  have hopen := opened_zero (some bytes) oRdonly bytes 0 false
  have hahead : RefFile.ahead ⟨bytes, 0, oRdonly, false⟩ themeSize = bytes.take themeSize := rfl
  have hflags : has oRdonly oWronly = false := by decide
  have hread := Ref.call_read hopen hflags bounce themeSize
  have hlen : (bytes.take themeSize).length = min themeSize bytes.length := List.length_take
  rw [hread, hahead, hlen] at hrun
  have hsys : sysReadFd drive env task s 0 t themeSize =
      some (((min themeSize bytes.length : Nat) : Int),
        if ((min themeSize bytes.length : Nat) : Int) > 0 then
          fill t 0 ((min themeSize bytes.length : Nat) : Int).toNat
            fun i => (bytes.take themeSize).getD i (bounce i)
        else t, s') := by
    unfold sysReadFd
    rw [hbounce]
    dsimp only
    rw [hrun]
    rfl
  refine ⟨_, s', hsys, fun _ hle => ?_, ?_⟩
  · refine Theme.ofMem_congr fun i hi => ?_
    have hmin : min themeSize bytes.length = themeSize := Nat.min_eq_left hle
    have hpos : ((themeSize : Nat) : Int) > 0 := by decide
    rw [hmin, if_pos hpos, Int.toNat_natCast, fill, if_pos (by omega)]
    simp only [List.getD_eq_getElem?_getD, List.getElem?_take_of_lt hi]
    rw [List.getElem?_eq_getElem (by omega)]
    rfl
  · have hstep : ((opened (some bytes) oRdonly bytes 0 false).call
        (.read 0 (some bounce) themeSize)).2 = opened (some bytes) oRdonly bytes
          (0 + (RefFile.ahead ⟨bytes, 0, oRdonly, false⟩ themeSize).length) false := by
      simp [Ref.call, hflags, Ref.set, opened]
    rw [hstep] at h'
    exact ⟨_, h'⟩

/-- Both buffers of a load can be had. -/
def granted (envs : Nat → Env) (file : Option (List UInt8)) : Bool :=
  ((envs 0).heap (openCap (file.elim 0 List.length))).isSome && ((envs 1).heap themeSize).isSome

theorem settingsLoad_spec (drive : Kfs.Drive) (h : Ready task s file) (t : Mem) (old : Theme) :
    ∃ s', settingsLoad drive task envs s t old =
        some (if granted envs file then file.elim (0, old) fun bytes => loadBytes bytes old
          else (0, old), s') ∧ Ready task s' file := by
  obtain ⟨tree, ht⟩ := h.sound
  by_cases hheap : (envs 0).heap (openCap (file.elim 0 List.length)) = none
  · refine ⟨s, ?_, h⟩
    rw [granted, hheap, Option.isSome_none, Bool.false_and, if_neg Bool.false_ne_true,
      settingsLoad, call_refused ht h.holds hheap]
    rfl
  have hsome := Option.isSome_iff_ne_none.mpr hheap
  have henough : Enough (envs 0) s task settingsUi (.openFile oRdonly) := by
    unfold Enough
    rw [h.holds.fileAt]
    cases file <;> exact hheap
  obtain ⟨s₁, hopen, h₁⟩ : Agrees drive (envs 0) task settingsUi s (idle file) _ :=
    h.matches.openFile settingsUi_resolvable (by decide) h.valid oRdonly henough
  unfold settingsLoad
  cases file with
  | none =>
    have hfail : (idle none).call (.openFile oRdonly) = ((-1, none), idle none) := rfl
    rw [hfail] at hopen h₁
    rw [hopen, Option.elim_none, ite_self]
    exact ⟨s₁, rfl, ready_of_matches h.valid h₁ fun _ => rfl⟩
  | some bytes =>
    rw [call_openFile_load] at hopen h₁
    obtain ⟨t', s₂, hread, htheme, pos, h₂⟩ := read_theme drive (envs 1) h₁ t
    have hclean : Enough (envs 2) s₂ task settingsUi (.close 0) := by
      intro slot hres hdirty
      obtain ⟨slot', hslot, hvf⟩ := h₂.opened 0 _ (opened_zero _ _ _ _ _)
      obtain rfl := Option.some.inj ((hvf.resolve hslot).symm.trans hres)
      rw [hvf.dirty] at hdirty
      cases hdirty
    obtain ⟨s₃, hclose, h₃⟩ : Agrees drive (envs 2) task settingsUi s₂ _ (.close 0) :=
      h₂.close settingsUi_resolvable (by decide) 0 hclean
    have hcall : (opened (some bytes) oRdonly bytes pos false).call (.close 0) =
        ((0, none), idle (some bytes)) := by
      simp [Ref.call, Ref.set, opened, idle, Function.update_idem]
    rw [hcall] at hclose h₃
    refine ⟨s₃, ?_, ready_of_matches h.valid h₃ fun _ => rfl⟩
    have hgranted : granted envs (some bytes) = ((envs 1).heap themeSize).isSome := by
      rw [granted, hsome, Bool.true_and]
    rw [hopen, hgranted]
    simp only [Option.bind_eq_bind, Option.bind_some, hread, hclose, Theme.eq_black_iff,
      Option.elim_some, loadBytes]
    rw [if_neg (lt_irrefl _)]
    by_cases hbounce : ((envs 1).heap themeSize).isSome = true
    · rw [if_pos hbounce, if_pos hbounce]
      by_cases hshort : bytes.length < themeSize
      · have hne : ((min themeSize bytes.length : Nat) : Int) ≠ (themeSize : Nat) := by omega
        rw [if_pos hne, if_pos (Or.inl hshort)]
        rfl
      · have heq : ¬((min themeSize bytes.length : Nat) : Int) ≠ (themeSize : Nat) := by omega
        rw [if_neg heq, htheme hbounce (Nat.le_of_not_lt hshort)]
        simp only [hshort, false_or]
        split_ifs <;> rfl
    · rw [if_neg hbounce, if_neg hbounce, if_pos (by decide)]
      rfl

/-! ## Round trip -/

theorem Saved.load {fs : Kfs.State} {bounce : Option Mem} {theme : Theme}
    {saved : Option (List UInt8)} (h : Saved fs file bounce theme saved) (old : Theme) :
    (saved.elim (0, old) fun bytes => loadBytes bytes old) =
      if saved = some theme.bytes ∧ theme ≠ Theme.black then (1, theme) else (0, old) := by
  cases h with
  | stored =>
    rw [Option.elim_some, loadBytes_bytes]
    by_cases hblack : theme = Theme.black
    · rw [if_pos hblack, if_neg fun hc => hc.2 hblack]
    · rw [if_neg hblack, if_pos ⟨rfl, hblack⟩]
  | empty =>
    have hne : ¬(some [] = some theme.bytes ∧ theme ≠ Theme.black) := by
      rintro ⟨heq, -⟩
      have hlen := theme.length_bytes
      rw [← Option.some.inj heq] at hlen
      cases hlen
    rw [if_neg hne]
    rfl
  | missing =>
    rw [if_neg fun hc => Option.some_ne_none _ hc.1.symm]
    rfl

/-- A save whose file cannot be opened answers 0 and changes nothing. Else it answers 1 whether or
not the theme was stored, and any later load answers 1 with this theme exactly when it was stored
and is not black, and the two buffers of the load can be had. -/
theorem settings_round_trip (drive : Kfs.Drive) (envs : Nat → Env) (h : Ready task s file)
    (theme : Theme) :
    if (envs 0).heap (openCap (file.elim 0 List.length)) = none then
      settingsSave drive task envs s theme = some (0, s)
    else
      ∃ s' saved, settingsSave drive task envs s theme = some (1, s') ∧ Ready task s' saved ∧
        Saved s.fs file ((envs 1).heap themeSize) theme saved ∧
        ∀ task₂ s₂ envs₂, Ready task₂ s₂ saved → ∀ t old, ∃ s₃,
          settingsLoad drive task₂ envs₂ s₂ t old =
            some (if saved = some theme.bytes ∧ theme ≠ Theme.black ∧ granted envs₂ saved then
              (1, theme) else (0, old), s₃) ∧ Ready task₂ s₃ saved := by
  obtain ⟨tree, ht⟩ := h.sound
  split_ifs with hheap
  · rw [settingsSave, call_refused ht h.holds hheap]
    rfl
  obtain ⟨s', saved, hsave, hready, hsaved⟩ := settingsSave_spec drive h hheap theme
  refine ⟨s', saved, hsave, hready, hsaved, fun task₂ s₂ envs₂ h₂ t old => ?_⟩
  obtain ⟨s₃, hload, h₃⟩ := settingsLoad_spec drive h₂ t old
  refine ⟨s₃, ?_, h₃⟩
  rw [hload, hsaved.load]
  by_cases hgranted : granted envs₂ saved = true
  · rw [if_pos hgranted]
    simp only [hgranted, and_true]
  · rw [if_neg hgranted, if_neg fun hc => hgranted hc.2.2]

/-- On the formatted disk the theme is stored, and the window that is opened next has it. -/
theorem settings_round_trip_boot : Ready 1 bootState none ∧ ∃ s' saved,
    settingsSave Kfs.smallDrive 1 (fun _ => quietEnv) bootState Theme.default = some (1, s') ∧
      saved = some Theme.default.bytes ∧
      ∃ s₃, settingsLoad Kfs.smallDrive 1 (fun _ => quietEnv) s' (fun _ => 0) Theme.black =
        some ((1, Theme.default), s₃) := by
  have hfs : Fs bootState.fs (Kfs.freshTree Kfs.smallDrive) :=
    Kfs.format_fs Kfs.smallDrive_hasRoom _ _
  have hval : (fileAt bootState.fs settingsUi).isNone = true ∧
      1 < (freeSectors bootState.fs).card := by decide +kernel
  have hnone := absent_of_fileAt hfs (Option.isNone_iff_eq_none.mp hval.1)
  have hready : Ready 1 bootState none := by
    refine ⟨⟨_, hfs⟩, hnone, fun bytes hbytes => ?_, fun fd slot hslot => rfl, by decide⟩
    cases hbytes
  have hbounce : quietEnv.heap themeSize ≠ none := Option.some_ne_none _
  have hopen : ¬quietEnv.heap (openCap ((none : Option (List UInt8)).elim 0 List.length)) = none :=
    Option.some_ne_none _
  have hround := settings_round_trip Kfs.smallDrive (fun _ => quietEnv) hready Theme.default
  rw [if_neg hopen] at hround
  obtain ⟨s', saved, hsave, hready', hsaved, hload⟩ := hround
  have htakes : TakesFile bootState.fs none :=
    Or.inr fun d _ => ⟨hval.2.le, fun hfull => hval.2.ne hfull.2⟩
  have hstored : saved = some Theme.default.bytes := by
    cases hsaved with
    | stored => rfl
    | empty _ hno => exact absurd hno hbounce
    | missing hno => exact absurd htakes hno
  have hgranted : granted (fun _ => quietEnv) saved = true := by
    rw [hstored, granted, Option.elim_some, Theme.length_bytes]
    rfl
  obtain ⟨s₃, hrun, -⟩ := hload 1 s' (fun _ => quietEnv) hready' (fun _ => 0) Theme.black
  rw [if_pos ⟨hstored, by decide, hgranted⟩] at hrun
  exact ⟨hready, s', saved, hsave, hstored, s₃, hrun⟩

end Kyuzen.Ui.Settings
