import Kyuzen.Loader.Files
import Kyuzen.Proc.Exit

/-!
# A program that cannot be started

`sys_exec` and `sys_load_elf` give the caller a new address space before they know that the
program can be loaded. `sys_load_elf` destroys the old one when the new one exists, `sys_exec`
destroys the windows and the old address space first of all. When the loader then fails, 0 is
returned to a caller whose memory is gone.

Which calls that return 0 leave their caller unharmed is decided by the state before the call
(`failed_exec`). For `sys_load_elf` they are those that have not got as far as the loader. After
`sys_exec` a task without windows and heap may find the same PML4 again, since the lowest free frame
is handed out first (`Again`); so it is when the shell repeats a call for a file that is missing.
-/

namespace Kyuzen.Proc

open Loader (Valid)
open Paging (vmmCreateAddressSpace translate pml4Idx spaceFrames)

variable {drive : Kfs.Drive} {s s' : State} {spaces : Finset Nat} {t fuel : Nat} {p : Program}

/-- The task finds what it had before the call. -/
structure Unharmed (s : State) (t : Nat) (s' : State) : Prop where
  pml4Phys : (s'.tasks t).pml4Phys = (s.tasks t).pml4Phys
  user : ∀ va, (pml4Idx va).val < 256 →
    translate s'.vm (spaceOf s' t) va = translate s.vm (spaceOf s t) va
  regions : (s'.tasks t).uheapRegions = (s.tasks t).uheapRegions
  windows : ∀ i < maxWindows, (s.windows i).active = true → (s.windows i).ownerTask = t →
    s'.windows i = s.windows i
  cr3 : s'.cr3 = s.cr3

/-- The task has no window and no region of its heap. -/
structure Bare (s : State) (t : Nat) : Prop where
  windows : ∀ i < maxWindows, (s.windows i).active = true → (s.windows i).ownerTask ≠ t
  regions : (s.tasks t).uheapRegions = []

/-- No frame is free. -/
def Exhausted (s : State) : Prop := ∀ i < s.vm.pmm.totalPages, s.vm.pmm.used i = true

/-- The task runs in an address space of its own, whose PML4 lies below all free frames and below
all frames that would be free without it. -/
structure Again (s : State) (t : Nat) : Prop where
  space : (s.tasks t).pml4Phys ≠ Pmm.physNull
  current : s.cr3 = (s.tasks t).pml4Phys
  free : ∀ i < s.vm.pmm.totalPages, s.vm.pmm.used i = false → (s.tasks t).pml4Phys ≤ i * 4096
  own : ∀ f ∈ spaceFrames s.vm (s.tasks t).pml4Phys true, (s.tasks t).pml4Phys ≤ f

/-- Its user half is empty. -/
def Vacant (s : State) (t : Nat) : Prop :=
  ∀ va, (pml4Idx va).val < 256 → translate s.vm (s.tasks t).pml4Phys va = none

/-- The loader gives up before it maps a page: the file is missing, there is no memory for it, or
its header is not accepted. -/
def Refused (p : Program) : Prop := ¬(p.heap = true ∧ Valid p.file)

/-- `sys_exec` stops at the name; or there is nothing that it could take away, and no address space
can be made, or the same one is made again, as empty as it was. -/
def Spared (p : Program) (s : State) (t : Nat) : Prop :=
  p.copied = false ∨ Bare s t ∧
    ((s.tasks t).pml4Phys = Pmm.physNull ∧ Exhausted s ∨ Again s t ∧ Vacant s t ∧ Refused p)

theorem Unharmed.refl (s : State) (t : Nat) : Unharmed s t s :=
  ⟨rfl, fun _ _ => rfl, rfl, fun _ _ _ _ => rfl, rfl⟩

/-- Without an address space the loader leaves the memory. -/
theorem loadProgram_null {r : Elf.Result × State}
    (h : loadProgram fuel p s Pmm.physNull = some r) : r.2 = s := by
  rw [loadProgram_eq h]
  dsimp only
  rw [(elfLoadFile_null fuel p.file p.heap true s.vm).2]

/-- A file that is refused is not loaded. -/
theorem elfLoadFile_refused (hrefused : Refused p) (fuel pml4 : Nat) (vm : Paging.State) :
    Elf.elfLoadFile fuel p.file p.heap true pml4 vm = ⟨some 0, 0, ⟨vm, []⟩⟩ := by
  unfold Elf.elfLoadFile
  dsimp only
  split_ifs with hsize hheap hmagic hclass htarget hfits hclass htarget hfits
  all_goals try rfl
  · simp only [Bool.not_eq_true, Bool.not_eq_false'] at hheap hmagic hfits
    exact absurd ⟨hheap, hsize, hmagic, Or.inl ⟨hclass, hfits⟩⟩ hrefused
  · simp only [Bool.not_eq_true, Bool.not_eq_false'] at hheap hmagic hfits
    exact absurd ⟨hheap, hsize, hmagic, Or.inr ⟨hclass, hfits⟩⟩ hrefused

theorem loadProgram_refused (hrefused : Refused p) (fuel : Nat) (s : State) (pml4 : Nat) :
    ∃ r, loadProgram fuel p s pml4 = some r ∧ r.1.entry = some 0 := by
  refine ⟨(⟨some 0, 0, ⟨s.vm, []⟩⟩, s), ?_, rfl⟩
  unfold loadProgram
  rw [elfLoadFile_refused hrefused]
  dsimp only
  rw [if_neg (by simp)]

/-! ## `sys_load_elf` -/

theorem sysLoadElf_unharmed (hs : SpacesOk s spaces) (ha : (s.tasks t).alive = true)
    {ret : Nat} (hrun : sysLoadElf fuel p s t = some (ret, s')) :
    Unharmed s t s' ↔ p.copied = false ∨ Exhausted s := by
  unfold Exhausted
  rw [← hs.ready.create_null_iff]
  cases hcopied : p.copied with
  | false =>
    unfold sysLoadElf at hrun
    rw [if_pos hcopied] at hrun
    obtain ⟨_, rfl⟩ := Prod.mk.inj (Option.some.inj hrun)
    exact ⟨fun _ => Or.inl rfl, fun _ => Unharmed.refl s t⟩
  | true =>
    obtain ⟨new, vm, s₁, res, hcreate, hnull, hnew, hload, _⟩ := sysLoadElf_spec hrun hcopied
    rw [hcreate]
    rcases hs.ready.create with heq | ⟨m, vm', heq, hm, hnot, _⟩
    · obtain ⟨rfl, rfl⟩ := Prod.mk.inj (hcreate.symm.trans heq)
      have hsame : s' = s := (loadProgram_null hload).trans (hnull rfl)
      rw [hsame]
      exact ⟨fun _ => Or.inr rfl, fun _ => Unharmed.refl s t⟩
    · obtain ⟨rfl, rfl⟩ := Prod.mk.inj (hcreate.symm.trans heq)
      obtain ⟨_, hprep, _⟩ := hnew hm
      have htasks : s'.tasks = s₁.tasks := congrArg (fun r => r.2.tasks) (loadProgram_eq hload)
      refine ⟨fun h => ?_, fun hor => ?_⟩
      · have hold := h.pml4Phys
        rw [htasks, hprep.self.1] at hold
        exact absurd (hold ▸ hs.mem t ha (hold ▸ hm)) hnot
      · rcases hor with hor | hor
        · cases hor
        · exact absurd hor hm

/-! ## `sys_exec` -/

theorem windows_kept_iff (s : State) (t : Nat) :
    (∀ i < maxWindows, (s.windows i).active = true → (s.windows i).ownerTask = t →
      (kwmDestroyWindowsOf s t).windows i = s.windows i) ↔
    ∀ i < maxWindows, (s.windows i).active = true → (s.windows i).ownerTask ≠ t := by
  refine ⟨fun h i hi hactive howner => ?_, fun h i hi hactive howner => ?_⟩
  · have hsame := h i hi hactive howner
    have hgone : (kwmDestroyWindowsOf s t).windows i = kwmFreeSlot :=
      if_pos ⟨hi, hactive, howner⟩
    rw [← hsame, hgone] at hactive
    cases hactive
  · exact absurd howner (h i hi hactive)

theorem sysExec_refused (fuel : Nat) (hcopied : p.copied = true) (hrefused : Refused p)
    (s : State) (t : Nat) : ∃ s', sysExec fuel p s t = some (0, s') := by
  unfold sysExec
  rw [if_neg (by rw [hcopied]; simp)]
  dsimp only
  obtain ⟨r, hload, hentry⟩ := loadProgram_refused hrefused fuel _ _
  rw [hload]
  refine ⟨r.2, ?_⟩
  rw [Option.bind_eq_bind, Option.bind_some, hentry]
  rfl

/-- What a call that gets as far as the loader has made of the task: a new address space, and
what the loader puts there. -/
structure Replaced (fuel : Nat) (p : Program) (s : State) (t : Nat) (s' : State) (new : Nat)
    (vm : Paging.State) : Prop where
  create : vmmCreateAddressSpace (dropVm s.vm (s.tasks t).pml4Phys) = (new, vm)
  pml4Phys : (s'.tasks t).pml4Phys = new
  regions : (s'.tasks t).uheapRegions = []
  windows : s'.windows = (kwmDestroyWindowsOf s t).windows
  loaded : s'.vm = (Elf.elfLoadFile fuel p.file p.heap true new vm).load.vm
  cr3 : new ≠ Pmm.physNull → s'.cr3 = new
  kept : (s.tasks t).pml4Phys = Pmm.physNull → new = Pmm.physNull → s'.cr3 = s.cr3

theorem sysExec_replaced {ret : Nat} (hrun : sysExec fuel p s t = some (ret, s'))
    (hcopied : p.copied = true) : ∃ new vm, Replaced fuel p s t s' new vm := by
  obtain ⟨new, s₁, res, hcreate, hprep, hwindows, hcr3, hload, _⟩ := sysExec_spec hrun hcopied
  have hs' : s' = { s₁ with
      vm := (Elf.elfLoadFile fuel p.file p.heap true new s₁.vm).load.vm } :=
    congrArg Prod.snd (loadProgram_eq hload)
  rw [hs']
  exact ⟨new, s₁.vm, hcreate, hprep.self.1, hprep.self.2, hwindows, rfl, hprep.cr3, hcr3⟩

variable {new : Nat} {vm : Paging.State}

theorem spaceOf_eq (h : (s.tasks t).pml4Phys ≠ Pmm.physNull) :
    spaceOf s t = (s.tasks t).pml4Phys := if_neg h

theorem Replaced.bare (h : Replaced fuel p s t s' new vm) (hu : Unharmed s t s') : Bare s t := by
  refine ⟨?_, hu.regions.symm.trans h.regions⟩
  have hkept := hu.windows
  rw [h.windows] at hkept
  exact (windows_kept_iff s t).mp hkept

/-- The PML4 that is made behind the destruction is the old one exactly if it lies low enough. -/
theorem dropped_again_iff (hs : SpacesOk s spaces) (ha : (s.tasks t).alive = true)
    (hspace : (s.tasks t).pml4Phys ≠ Pmm.physNull) (hcurrent : s.cr3 = (s.tasks t).pml4Phys) :
    (vmmCreateAddressSpace (dropVm s.vm (s.tasks t).pml4Phys)).1 = (s.tasks t).pml4Phys ↔
      Again s t := by
  rw [dropVm, if_neg hspace, hs.ready.create_again_iff (hs.mem t ha hspace)]
  exact ⟨fun h => ⟨hspace, hcurrent, h.1, h.2⟩, fun h => ⟨h.free, h.own⟩⟩

/-- The new PML4 of an unharmed task is the old one. -/
theorem Replaced.same (h : Replaced fuel p s t s' new vm) (hs : SpacesOk s spaces)
    (ha : (s.tasks t).alive = true) (hu : Unharmed s t s') :
    (s.tasks t).pml4Phys = Pmm.physNull ∧ Exhausted s ∨
      Again s t ∧ (Refused p → Vacant s t) := by
  have hold : new = (s.tasks t).pml4Phys := h.pml4Phys.symm.trans hu.pml4Phys
  have hcreate := h.create
  by_cases hnull : (s.tasks t).pml4Phys = Pmm.physNull
  · rw [dropVm, if_pos hnull] at hcreate
    refine Or.inl ⟨hnull, hs.ready.create_null_iff.mp ?_⟩
    rw [hcreate]
    exact hold.trans hnull
  · have hnull' : (s'.tasks t).pml4Phys ≠ Pmm.physNull := fun hc => hnull (hu.pml4Phys.symm.trans hc)
    have hcurrent : s.cr3 = (s.tasks t).pml4Phys := by
      rw [← hu.cr3, h.cr3 (hold ▸ hnull), hold]
    refine Or.inr ⟨(dropped_again_iff hs ha hnull hcurrent).mp (by rw [hcreate]; exact hold), ?_⟩
    intro hrefused va hva
    have huser := hu.user va hva
    rw [spaceOf_eq hnull', spaceOf_eq hnull, h.pml4Phys, h.loaded,
      elfLoadFile_refused hrefused] at huser
    have hempty := (hs.ready.drop (hs.mem t ha)).create_empty hva
    rw [hcreate] at hempty
    exact huser.symm.trans (hempty (hold ▸ hnull))

theorem Replaced.windows_kept (h : Replaced fuel p s t s' new vm) (hbare : Bare s t) :
    ∀ i < maxWindows, (s.windows i).active = true → (s.windows i).ownerTask = t →
      s'.windows i = s.windows i := by
  rw [h.windows]
  exact (windows_kept_iff s t).mpr hbare.windows

/-- Nothing was there, and nothing could be made. -/
theorem Replaced.unharmed_null (h : Replaced fuel p s t s' new vm) (hs : SpacesOk s spaces)
    (hbare : Bare s t) (hnull : (s.tasks t).pml4Phys = Pmm.physNull)
    (hfull : Exhausted s) : Unharmed s t s' := by
  have hfail := hs.ready.create_null_iff.mpr hfull
  have hcreate := h.create
  rw [dropVm, if_pos hnull] at hcreate
  rcases hs.ready.create with heq | ⟨m, vm', heq, hm, _⟩
  · obtain ⟨rfl, rfl⟩ := Prod.mk.inj (hcreate.symm.trans heq)
    have hvm : s'.vm = s.vm := by
      rw [h.loaded, (elfLoadFile_null fuel p.file p.heap true s.vm).2]
    refine ⟨h.pml4Phys.trans hnull.symm, fun va _ => ?_, h.regions.trans hbare.regions.symm,
      h.windows_kept hbare, h.kept hnull rfl⟩
    unfold spaceOf
    rw [h.pml4Phys, hnull, hvm]
  · rw [heq] at hfail
    exact absurd hfail hm

/-- What was there is made again. -/
theorem Replaced.unharmed_again (h : Replaced fuel p s t s' new vm) (hs : SpacesOk s spaces)
    (ha : (s.tasks t).alive = true) (hbare : Bare s t) (hagain : Again s t) (hvacant : Vacant s t)
    (hrefused : Refused p) : Unharmed s t s' := by
  have hcreate := h.create
  have hold : new = (s.tasks t).pml4Phys := by
    rw [← (dropped_again_iff hs ha hagain.space hagain.current).mpr hagain, hcreate]
  have hpml4 := h.pml4Phys.trans hold
  have hnull' : (s'.tasks t).pml4Phys ≠ Pmm.physNull := fun hc =>
    hagain.space (hpml4.symm.trans hc)
  refine ⟨hpml4, fun va hva => ?_, h.regions.trans hbare.regions.symm, h.windows_kept hbare, ?_⟩
  · have hempty := (hs.ready.drop (hs.mem t ha)).create_empty hva
    rw [hcreate] at hempty
    rw [spaceOf_eq hnull', spaceOf_eq hagain.space, h.pml4Phys, h.loaded,
      elfLoadFile_refused hrefused, hvacant va hva]
    exact hempty (hold ▸ hagain.space)
  · rw [hagain.current, ← hold]
    exact h.cr3 (hold ▸ hagain.space)

theorem sysExec_spared (hs : SpacesOk s spaces) (ha : (s.tasks t).alive = true) {ret : Nat}
    (hrun : sysExec fuel p s t = some (ret, s')) (hspared : Spared p s t) : Unharmed s t s' := by
  cases hcopied : p.copied with
  | false =>
    unfold sysExec at hrun
    rw [if_pos hcopied] at hrun
    obtain ⟨_, rfl⟩ := Prod.mk.inj (Option.some.inj hrun)
    exact Unharmed.refl s t
  | true =>
    obtain ⟨new, vm, h⟩ := sysExec_replaced hrun hcopied
    obtain ⟨hbare, ⟨hnull, hfull⟩ | ⟨hagain, hvacant, hrefused⟩⟩ :=
      hspared.resolve_left (by rw [hcopied]; simp)
    · exact h.unharmed_null hs hbare hnull hfull
    · exact h.unharmed_again hs ha hbare hagain hvacant hrefused

/-- An unharmed caller was spared; only when a file is loaded in part can the address space that is
built again be the old one by chance. -/
theorem sysExec_unharmed (hs : SpacesOk s spaces) (ha : (s.tasks t).alive = true) {ret : Nat}
    (hrun : sysExec fuel p s t = some (ret, s')) (hu : Unharmed s t s') :
    Spared p s t ∨ Bare s t ∧ Again s t ∧ ¬Refused p := by
  cases hcopied : p.copied with
  | false => exact Or.inl (Or.inl hcopied)
  | true =>
    obtain ⟨new, vm, h⟩ := sysExec_replaced hrun hcopied
    have hbare := h.bare hu
    rcases h.same hs ha hu with hnone | ⟨hagain, hvacant⟩
    · exact Or.inl (Or.inr ⟨hbare, Or.inl hnone⟩)
    · by_cases hrefused : Refused p
      · exact Or.inl (Or.inr ⟨hbare, Or.inr ⟨hagain, hvacant hrefused, hrefused⟩⟩)
      · exact Or.inr ⟨hbare, hagain, hrefused⟩

/-- After every run, a call that returns 0 leaves its caller unharmed if it cannot touch the address
space, or builds the same empty one again. For `sys_load_elf` no other call does so, and for
`sys_exec` at most one whose file was loaded in part into the PML4 that the caller had. -/
theorem failed_exec (hroom : drive.HasRoom) (h : Reach drive s) (ha : (s.tasks t).alive = true)
    (fuel : Nat) (p : Program) :
    (∀ s', sysLoadElf fuel p s t = some (0, s') →
      (Unharmed s t s' ↔ p.copied = false ∨ Exhausted s)) ∧
    ∀ s', sysExec fuel p s t = some (0, s') → (Spared p s t → Unharmed s t s') ∧
      (Unharmed s t s' → Spared p s t ∨ Bare s t ∧ Again s t ∧ ¬Refused p) := by
  obtain ⟨spaces, hs⟩ := (reach_inv hroom h).spaces
  exact ⟨fun s' hrun => sysLoadElf_unharmed hs ha hrun,
    fun s' hrun => ⟨sysExec_spared hs ha hrun, sysExec_unharmed hs ha hrun⟩⟩

/-- A name that cannot be copied in. -/
def badPointer : Program := { smallProgram with copied := false }

/-- A file that does not exist. -/
def missingProgram : Program where
  copied := true
  file := ⟨fun _ => 0, 0, by decide⟩
  heap := true

theorem missingProgram_refused : Refused missingProgram := fun hvalid => hvalid.2.size rfl

/-- The shell calls `sys_exec` for a file that does not exist, and has an empty address space
afterwards. It keeps this one when it repeats the call, or passes a bad pointer to `sys_load_elf`. -/
theorem failed_exec_again : ∃ s s', Reach Kfs.smallDrive s ∧
    (s.tasks 1).pml4Phys ≠ Pmm.physNull ∧
    sysLoadElf 10 badPointer s 1 = some (0, s) ∧ Unharmed s 1 s ∧
    sysExec 10 missingProgram s 1 = some (0, s') ∧ Unharmed s 1 s' := by
  have hval : ((sysExec 10 missingProgram smallState 1).map fun r => decide (
      (r.2.tasks 1).alive = true ∧ (r.2.tasks 1).pml4Phys ≠ Pmm.physNull ∧
      r.2.cr3 = (r.2.tasks 1).pml4Phys ∧ (r.2.tasks 1).uheapRegions = [] ∧
      ∀ i < maxWindows, (r.2.windows i).active = false)) = some true := by decide
  obtain ⟨⟨ret, s⟩, hfirst, hfields⟩ := Option.map_eq_some_iff.mp hval
  obtain ⟨ha, hspace, hcurrent, hregions, hwindows⟩ := of_decide_eq_true hfields
  have hv : Op.Valid smallState (.exec 1 missingProgram) := ⟨rfl, by decide⟩
  have hrun : exec Kfs.smallDrive smallEnv smallState (.exec 1 missingProgram) = some s := by
    show (sysExec 10 missingProgram smallState 1).map Prod.snd = some s
    rw [hfirst]
    rfl
  have hreach : Reach Kfs.smallDrive s :=
    Reach.step smallEnv (Reach.boot smallState_boot) hv Vfs.quietEnv_fits hrun
  obtain ⟨spaces, hs⟩ := (reach_inv Kfs.smallDrive_hasRoom hreach).spaces
  have hbare : Bare s 1 := by
    refine ⟨fun i hi hactive => ?_, hregions⟩
    rw [hwindows i hi] at hactive
    cases hactive
  obtain ⟨new, vm, hr⟩ := sysExec_replaced hfirst rfl
  have hcreate : vmmCreateAddressSpace smallState.vm = (new, vm) := hr.create
  have hloaded := hr.loaded
  rw [elfLoadFile_refused missingProgram_refused] at hloaded
  have hlow : (vmmCreateAddressSpace (dropVm s.vm (s.tasks 1).pml4Phys)).1 =
      (s.tasks 1).pml4Phys := by
    have hagain := smallState_boot.vm.create_destroy_create
    rw [hcreate] at hagain
    rw [dropVm, if_neg hspace, hloaded, hr.pml4Phys]
    exact hagain (hr.pml4Phys ▸ hspace)
  have hvacant : Vacant s 1 := by
    intro va hva
    have hempty := smallState_boot.vm.create_empty hva
    rw [hcreate] at hempty
    rw [hloaded, hr.pml4Phys]
    exact hempty (hr.pml4Phys ▸ hspace)
  have hspared : Spared missingProgram s 1 :=
    Or.inr ⟨hbare, Or.inr ⟨(dropped_again_iff hs ha hspace hcurrent).mp hlow, hvacant,
      missingProgram_refused⟩⟩
  obtain ⟨s', hexec⟩ := sysExec_refused 10 rfl missingProgram_refused s 1
  refine ⟨s, s', hreach, hspace, rfl, ?_, hexec, ?_⟩
  · exact ((failed_exec Kfs.smallDrive_hasRoom hreach ha 10 badPointer).1 s rfl).mpr (Or.inl rfl)
  · exact ((failed_exec Kfs.smallDrive_hasRoom hreach ha 10 missingProgram).2 s' hexec).1 hspared

/-- Both calls return 0 for a file that does not exist. The caller has another address space
after `sys_load_elf`, and after `sys_exec` its window is gone. -/
theorem failed_exec_harms : ∃ s, Reach Kfs.smallDrive s ∧ (s.tasks 1).alive = true ∧
    (∃ s', sysLoadElf 10 missingProgram s 1 = some (0, s') ∧ ¬ Unharmed s 1 s') ∧
    ∃ s', sysExec 10 missingProgram s 1 = some (0, s') ∧ ¬ Unharmed s 1 s' := by
  have hval : (started.bind fun s₁ =>
      (exec Kfs.smallDrive smallEnv s₁ (.createWindow 1 10 10 true)).bind fun s =>
        (sysLoadElf 10 missingProgram s 1).map fun r =>
          decide (((s₁.tasks 1).alive = true ∧ (s.tasks 1).alive = true) ∧ r.1 = 0 ∧
            (r.2.tasks 1).pml4Phys ≠ (s.tasks 1).pml4Phys ∧
            (s.windows 0).active = true ∧ (s.windows 0).ownerTask = 1)) = some true := by
    decide +kernel
  obtain ⟨s₁, h₁, hval⟩ := Option.bind_eq_some_iff.mp hval
  obtain ⟨s, h₂, hval⟩ := Option.bind_eq_some_iff.mp hval
  obtain ⟨⟨ret, s₂⟩, hload, hfields⟩ := Option.map_eq_some_iff.mp hval
  obtain ⟨⟨ha₁, ha⟩, rfl, hpml4, hactive, howner⟩ := of_decide_eq_true hfields
  have hv : Op.Valid s₁ (.createWindow 1 10 10 true) := ⟨ha₁, by decide⟩
  have hreach : Reach Kfs.smallDrive s :=
    Reach.step smallEnv (started_reach h₁) hv Vfs.quietEnv_fits h₂
  obtain ⟨s₃, hexec⟩ := sysExec_refused 10 rfl missingProgram_refused s 1
  obtain ⟨spaces, hs⟩ := (reach_inv Kfs.smallDrive_hasRoom hreach).spaces
  refine ⟨s, hreach, ha, ⟨s₂, hload, fun h => hpml4 h.pml4Phys⟩, ⟨s₃, hexec, fun h => ?_⟩⟩
  rcases sysExec_unharmed hs ha hexec h with (hcopied | ⟨hbare, _⟩) | ⟨hbare, _⟩
  · cases hcopied
  · exact hbare.windows 0 (by decide) hactive howner
  · exact hbare.windows 0 (by decide) hactive howner

end Kyuzen.Proc
