import Kyuzen.Vfs.WriteBack
import Kyuzen.Proc.Runs

/-!
# What an application leaves behind

`sys_exit` ends an application in one of two ways. A task of `sys_spawn` goes through
`task_exit`, which closes the descriptors of the task; an application that the shell has started
with `sys_exec` only loses its windows, its heap and its address space, and the task lives on as
the shell. Sockets have no owner, and neither way closes them.

Both ways return every frame of the address space, destroy the windows and clear the list of
regions (`exit_clean`). What stays are the sockets of the application, and on the way back to
the shell the descriptors that it has not closed (`exit_keeps_socket`).
-/

namespace Kyuzen.Proc

variable {drive : Kfs.Drive} {noise : Nat → Kfs.Noise} {s s' : State} {t : Nat}

/-- The slot of descriptor `i` of task `t`. -/
def fdSlot (t i : Nat) : Nat := t * Vfs.maxFds + i

/-- Descriptor `i` of `t` is open, and the application `cookie` has opened it. -/
def HoldsFile (s : State) (t cookie i : Nat) : Prop :=
  (s.vfs.fds (fdSlot t i)).used = true ∧ s.openedBy (fdSlot t i) = cookie

/-- Socket `i` is allocated, and the application `cookie` has allocated it. -/
def HoldsSock (s : State) (cookie i : Nat) : Prop :=
  (s.socks i).state ≠ .free ∧ (s.socks i).app = cookie

/-- `flush_locked` has run on the open descriptor `vf`, and has turned `fs` into `fs'`. -/
def Flushed (drive : Kfs.Drive) (vf : Vfs.VfsFile) (fs fs' : Kfs.State) : Prop :=
  vf.used = true ∧ ∃ noise stored, Vfs.flushLocked drive noise fs vf = some (stored, fs')

/-- The application that `t` runs in `s` holds nothing in `s'`. -/
structure ExitClean (drive : Kfs.Drive) (s : State) (t : Nat) (s' : State) : Prop where
  files : ∀ i < Vfs.maxFds, ¬ HoldsFile s' t (s.tasks t).cookie i
  /-- The file system has changed by the flushes of descriptors of `t` only, one after the other,
  and those of the application are among them. -/
  flushed : ∃ fs : Nat → Kfs.State, fs 0 = s.vfs.fs ∧ fs Vfs.maxFds = s'.vfs.fs ∧
    ∀ i < Vfs.maxFds, Flushed drive (s.vfs.fds (fdSlot t i)) (fs i) (fs (i + 1)) ∨
      ¬ HoldsFile s t (s.tasks t).cookie i ∧ fs (i + 1) = fs i
  socks : ∀ i < ksockMax, ¬ HoldsSock s' (s.tasks t).cookie i
  windows : ∀ i < maxWindows, (s'.windows i).active = true → (s'.windows i).ownerTask ≠ t
  regions : (s'.tasks t).uheapRegions = []
  frames : (s.tasks t).pml4Phys ≠ Pmm.physNull →
    ∀ f ∈ Paging.spaceFrames s.vm (s.tasks t).pml4Phys true, s'.vm.pmm.used (f / 4096) = false

/-- The application has closed its sockets and, if the shell has started it, its descriptors. -/
structure NothingOpen (s : State) (t : Nat) : Prop where
  socks : ∀ i < ksockMax, ¬ HoldsSock s (s.tasks t).cookie i
  files : (s.tasks t).spawned = false → ∀ i < Vfs.maxFds, ¬ HoldsFile s t (s.tasks t).cookie i

/-! ## The two routes -/

theorem Exited.windows_clean (h : Exited drive noise s t s') :
    ∀ i < maxWindows, (s'.windows i).active = true → (s'.windows i).ownerTask ≠ t := by
  intro i hi hactive howner
  rw [h.windows] at hactive howner
  dsimp only [kwmDestroyWindowsOf] at hactive howner
  split_ifs at hactive howner with hmine
  · cases hactive
  · exact hmine ⟨hi, hactive, howner⟩

theorem Exited.regions_clean (h : Exited drive noise s t s') :
    (s'.tasks t).uheapRegions = [] := by
  rw [h.tasks, Function.update_self]
  rfl

theorem Exited.frames_clean (h : Exited drive noise s t s') {spaces : Finset Nat}
    (hs : SpacesOk s spaces) (ha : (s.tasks t).alive = true)
    (hp : (s.tasks t).pml4Phys ≠ Pmm.physNull) :
    ∀ f ∈ Paging.spaceFrames s.vm (s.tasks t).pml4Phys true,
      s'.vm.pmm.used (f / 4096) = false := by
  rw [h.vm, dropVm, if_neg hp]
  exact hs.ready.destroy_frees (hs.mem t ha hp)

/-- `task_exit` has flushed and closed all descriptors of the task. -/
theorem Exited.files_closed (h : Exited drive noise s t s') (ht : t < maxTasks)
    (hspawned : (s.tasks t).spawned = true) :
    (∀ i < Vfs.maxFds, (s'.vfs.fds (fdSlot t i)).used = false) ∧
      ∃ fs : Nat → Kfs.State, fs 0 = s.vfs.fs ∧ fs Vfs.maxFds = s'.vfs.fs ∧
        ∀ i < Vfs.maxFds, Flushed drive (s.vfs.fds (fdSlot t i)) (fs i) (fs (i + 1)) ∨
          (s.vfs.fds (fdSlot t i)).used = false ∧ fs (i + 1) = fs i := by
  have hclose := h.spawned hspawned
  have hmax : (Vfs.maxTasks : Int) = 16 := rfl
  have hmax' : maxTasks = 16 := rfl
  unfold Vfs.vfsCloseAll at hclose
  rw [if_neg (by omega), Int.toNat_natCast] at hclose
  obtain ⟨fs, hfirst, hlast, hflush⟩ := Vfs.closeUpTo_flushes hclose
  refine ⟨fun i hi => ?_, fs, hfirst, hlast, fun i hi => ?_⟩
  · rw [Bool.eq_false_iff]
    intro hused
    exact (Vfs.closeUpTo_fds hclose hused).2 i hi rfl
  · obtain ⟨hopen, hfree⟩ := hflush i hi
    cases hused : (s.vfs.fds (fdSlot t i)).used with
    | true => exact Or.inl ⟨hused, noise i, hopen hused⟩
    | false => exact Or.inr ⟨rfl, hfree hused⟩

/-- What an application holds when it exits stays, unless `task_exit` closes it. -/
theorem Exited.clean_iff (h : Exited drive noise s t s') {spaces : Finset Nat}
    (hs : SpacesOk s spaces) (ha : (s.tasks t).alive = true) (ht : t < maxTasks) :
    ExitClean drive s t s' ↔ NothingOpen s t := by
  have hsocks : (∀ i < ksockMax, ¬ HoldsSock s' (s.tasks t).cookie i) ↔
      ∀ i < ksockMax, ¬ HoldsSock s (s.tasks t).cookie i := by
    unfold HoldsSock
    rw [h.socks]
  refine ⟨fun hclean => ⟨hsocks.mp hclean.socks, fun hlaunched i hi hfile => ?_⟩, fun hno => ?_⟩
  · refine hclean.files i hi ?_
    unfold HoldsFile
    rw [h.launched hlaunched, h.openedBy]
    exact hfile
  · have hrest := And.intro h.windows_clean
      (And.intro h.regions_clean (h.frames_clean hs ha))
    cases hspawned : (s.tasks t).spawned with
    | true =>
      obtain ⟨hclosed, fs, hfirst, hlast, hflush⟩ := h.files_closed ht hspawned
      refine ⟨fun i hi hfile => ?_, ⟨fs, hfirst, hlast, fun i hi => ?_⟩,
        hsocks.mpr hno.socks, hrest.1, hrest.2.1, hrest.2.2⟩
      · have hused := hfile.1
        rw [hclosed i hi] at hused
        cases hused
      · refine (hflush i hi).imp_right fun hfree => ⟨fun hfile => ?_, hfree.2⟩
        have hused := hfile.1
        rw [hfree.1] at hused
        cases hused
    | false =>
      have hnone := hno.files hspawned
      refine ⟨fun i hi hfile => hnone i hi ?_,
        ⟨fun _ => s.vfs.fs, rfl, ?_, fun i hi => Or.inr ⟨hnone i hi, rfl⟩⟩,
        hsocks.mpr hno.socks, hrest.1, hrest.2.1, hrest.2.2⟩
      · unfold HoldsFile at hfile
        rw [h.launched hspawned, h.openedBy] at hfile
        exact hfile
      · rw [h.launched hspawned]

/-- After every run, `sys_exit` returns, and it leaves nothing behind exactly when the
application holds no socket and, started by the shell, no descriptor. -/
theorem exit_clean (hroom : drive.HasRoom) (h : Reach drive s) (ha : (s.tasks t).alive = true)
    (ht : t < maxTasks) (noise : Nat → Kfs.Noise) :
    ∃ s', sysExit drive noise s t = some s' ∧ (ExitClean drive s t s' ↔ NothingOpen s t) := by
  have hinv := reach_inv hroom h
  obtain ⟨spaces, hs⟩ := hinv.spaces
  obtain ⟨s', hrun, he⟩ := sysExit_exited drive noise t hinv.fits
  exact ⟨s', hrun, he.clean_iff hs ha ht⟩

/-! ## An application of the shell -/

/-- A machine with one task, the shell, that holds nothing. -/
def smallState : State where
  vm := Paging.smallSys.vm
  cr3 := Paging.smallSys.vm.kernelPml4Phys
  tasks t := ⟨Pmm.physNull, 0, false, t == 1, [], 0⟩
  asCookieCounter := 0
  windows _ := kwmFreeSlot
  socks _ := ⟨.free, 0, 0⟩
  vfs := Vfs.bootState
  openedBy _ := 0

theorem smallState_boot : Boot Kfs.smallDrive smallState :=
  ⟨⟨Paging.smallSys, Paging.smallSys_reach _, rfl, rfl⟩, fun _ => ⟨rfl, rfl, rfl, rfl⟩,
    fun _ => rfl, fun _ => rfl, _, _, _, rfl⟩

/-- An ELF32 file with one segment of 8 bytes at its entry point, `0x4000000`. -/
def smallProgram : Program where
  copied := true
  file :=
    { buf := fun i => (([0x7F, 0x45, 0x4C, 0x46, 1] ++ List.replicate 19 0 ++ [0, 0, 0, 4, 52] ++
        List.replicate 15 0 ++ [1] ++ List.replicate 7 0 ++ [1] ++ List.replicate 7 0 ++
        [0, 0, 0, 4] ++ List.replicate 4 0 ++ [8, 0, 0, 0, 8] : List UInt8)[i]?).getD 0
      size := 84
      size_lt := by decide }
  heap := true

def smallEnv : Env := ⟨10, Vfs.quietEnv⟩

/-- The shell starts the program in the small machine. -/
def started : Option State := exec Kfs.smallDrive smallEnv smallState (.exec 1 smallProgram)

theorem started_reach (h : started = some s) : Reach Kfs.smallDrive s := by
  have hv : Op.Valid smallState (.exec 1 smallProgram) := ⟨rfl, by decide⟩
  exact Reach.step smallEnv (Reach.boot smallState_boot) hv Vfs.quietEnv_fits h

theorem exit_clean_started : ∃ s s', started = some s ∧ (s.tasks 1).pml4Phys = 0x4801000 ∧
    NothingOpen s 1 ∧ sysExit Kfs.smallDrive Vfs.quietEnv.noise s 1 = some s' ∧
    ExitClean Kfs.smallDrive s 1 s' := by
  have hval : (started.map fun s => decide ((s.tasks 1).alive = true ∧
      (s.tasks 1).pml4Phys = 0x4801000 ∧ (∀ i < ksockMax, (s.socks i).state = .free) ∧
      ∀ i < Vfs.maxFds, (s.vfs.fds (fdSlot 1 i)).used = false)) = some true := by decide +kernel
  obtain ⟨s, hs, hfields⟩ := Option.map_eq_some_iff.mp hval
  obtain ⟨ha, hpml4, hsocks, hfiles⟩ := of_decide_eq_true hfields
  have hno : NothingOpen s 1 := by
    refine ⟨fun i hi hsock => hsock.1 (hsocks i hi), fun _ i hi hfile => ?_⟩
    have hused := hfile.1
    rw [hfiles i hi] at hused
    cases hused
  obtain ⟨s', hexit, hclean⟩ := exit_clean Kfs.smallDrive_hasRoom (started_reach hs) ha (by decide)
    Vfs.quietEnv.noise
  exact ⟨s, s', hs, hpml4, hno, hexit, hclean.mpr hno⟩

/-- The program opens a file to write and a socket, and exits. Both are still open. -/
theorem exit_keeps_socket : ∃ s s', Reach Kfs.smallDrive s ∧ (s.tasks 1).alive = true ∧
    sysExit Kfs.smallDrive Vfs.quietEnv.noise s 1 = some s' ∧
    HoldsSock s' (s.tasks 1).cookie 0 ∧ HoldsFile s' 1 (s.tasks 1).cookie 0 ∧
    ¬ ExitClean Kfs.smallDrive s 1 s' := by
  have hval : (started.bind fun s₁ =>
      (exec Kfs.smallDrive smallEnv s₁ (.vfs (Vfs.openNew [97]) 1)).bind fun s₂ =>
        (exec Kfs.smallDrive smallEnv s₂ (.socket 1 true)).bind fun s =>
          (sysExit Kfs.smallDrive Vfs.quietEnv.noise s 1).map fun s' =>
            decide (((s₁.tasks 1).alive = true ∧ (s₂.tasks 1).alive = true ∧
              (s.tasks 1).alive = true) ∧
              ((s'.socks 0).state ≠ .free ∧ (s'.socks 0).app = (s.tasks 1).cookie) ∧
              (s'.vfs.fds (fdSlot 1 0)).used = true ∧
              s'.openedBy (fdSlot 1 0) = (s.tasks 1).cookie)) = some true := by
    decide +kernel
  obtain ⟨s₁, h₁, hval⟩ := Option.bind_eq_some_iff.mp hval
  obtain ⟨s₂, h₂, hval⟩ := Option.bind_eq_some_iff.mp hval
  obtain ⟨s, h₃, hval⟩ := Option.bind_eq_some_iff.mp hval
  obtain ⟨s', hexit, hfields⟩ := Option.map_eq_some_iff.mp hval
  obtain ⟨⟨ha₁, ha₂, ha⟩, hsock, hfile⟩ := of_decide_eq_true hfields
  have hreach₂ : Reach Kfs.smallDrive s₂ := by
    have hv : Op.Valid s₁ (.vfs (Vfs.openNew [97]) 1) := by
      refine ⟨⟨by decide, by decide, by decide⟩, fun task path flags hop => ?_, ha₁, by decide⟩
      cases hop
      rfl
    exact Reach.step smallEnv (started_reach h₁) hv Vfs.quietEnv_fits h₂
  have hv : Op.Valid s₂ (.socket 1 true) := ⟨ha₂, by decide⟩
  have hreach : Reach Kfs.smallDrive s := Reach.step smallEnv hreach₂ hv Vfs.quietEnv_fits h₃
  exact ⟨s, s', hreach, ha, hexit, hsock, hfile, fun hclean => hclean.socks 0 (by decide) hsock⟩

end Kyuzen.Proc
