import Kyuzen.Vfs.Effects
import Kyuzen.Proc.Spaces

/-!
# Runs of the applications

Any sequence of system calls of any tasks, from boot. In every state each task that lives has an
address space of its own or none (`SpacesOk`), and every descriptor can be closed (`reach_inv`).
-/

namespace Kyuzen.Proc

open Paging (vmmCreateAddressSpace vmmDestroyAddressSpace)

variable {drive : Kfs.Drive} {s s' : State} {spaces spaces' : Finset Nat} {t : Nat}

/-! ## The address spaces of all tasks -/

structure SpacesOk (s : State) (spaces : Finset Nat) : Prop where
  ready : Ready s.vm spaces
  mem : ∀ t, (s.tasks t).alive = true → (s.tasks t).pml4Phys ≠ Pmm.physNull →
    (s.tasks t).pml4Phys ∈ spaces
  inj : ∀ t u, (s.tasks t).alive = true → (s.tasks u).alive = true →
    (s.tasks t).pml4Phys ≠ Pmm.physNull → (s.tasks t).pml4Phys = (s.tasks u).pml4Phys → t = u
  heap : ∀ t, (s.tasks t).alive = true → HeapOk (s.tasks t)

/-- A call that leaves the tasks. -/
theorem SpacesOk.congr (h : SpacesOk s spaces) (htasks : s'.tasks = s.tasks)
    (hready : Ready s'.vm spaces) : SpacesOk s' spaces := by
  refine ⟨hready, ?_, ?_, ?_⟩
  · rw [htasks]
    exact h.mem
  · rw [htasks]
    exact h.inj
  · rw [htasks]
    exact h.heap

/-- A call that changes one task. -/
theorem SpacesOk.replace {task : Task} (h : SpacesOk s spaces)
    (htasks : s'.tasks = Function.update s.tasks t task) (hready : Ready s'.vm spaces')
    (hother : ∀ u, u ≠ t → (s.tasks u).alive = true → (s.tasks u).pml4Phys ≠ Pmm.physNull →
      (s.tasks u).pml4Phys ∈ spaces' ∧ (s.tasks u).pml4Phys ≠ task.pml4Phys)
    (hself : task.alive = true → task.pml4Phys ≠ Pmm.physNull → task.pml4Phys ∈ spaces')
    (hheap : task.alive = true → HeapOk task) : SpacesOk s' spaces' := by
  have hsame : s'.tasks t = task := by rw [htasks, Function.update_self]
  have hne : ∀ u, u ≠ t → s'.tasks u = s.tasks u := fun u hu => by
    rw [htasks, Function.update_of_ne hu]
  refine ⟨hready, fun u ha hp => ?_, fun u w hau haw hp heq => ?_, fun u ha => ?_⟩
  · by_cases hu : u = t
    · rw [hu, hsame] at ha hp ⊢
      exact hself ha hp
    · rw [hne u hu] at ha hp ⊢
      exact (hother u hu ha hp).1
  · by_cases hu : u = t <;> by_cases hw : w = t
    · rw [hu, hw]
    · rw [hu, hsame] at heq hp
      rw [hne w hw] at heq haw
      rw [heq] at hp
      exact absurd heq.symm (hother w hw haw hp).2
    · rw [hw, hsame] at heq
      rw [hne u hu] at heq hau hp
      exact absurd heq (hother u hu hau hp).2
    · rw [hne u hu] at heq hau hp
      rw [hne w hw] at heq haw
      exact h.inj u w hau haw hp heq
  · by_cases hu : u = t
    · rw [hu, hsame] at ha ⊢
      exact hheap ha
    · rw [hne u hu] at ha ⊢
      exact h.heap u ha

/-- The other tasks do not have the address space of `t`. -/
theorem SpacesOk.other (h : SpacesOk s spaces) (ha : (s.tasks t).alive = true) {u : Nat}
    (hu : u ≠ t) (hau : (s.tasks u).alive = true) (hp : (s.tasks u).pml4Phys ≠ Pmm.physNull) :
    (s.tasks u).pml4Phys ∈ spaces ∧ (s.tasks u).pml4Phys ≠ (s.tasks t).pml4Phys :=
  ⟨h.mem u hau hp, fun heq => hu (h.inj u t hau ha hp heq)⟩

theorem SpacesOk.setHeap (h : SpacesOk s spaces) (ha : (s.tasks t).alive = true)
    {r : Nat × Task × Paging.State} (hcall : HeapCall spaces (s.tasks t) r) :
    SpacesOk (setHeap s t r) spaces := by
  refine h.replace rfl hcall.ready (fun u hu hau hp => ?_) (fun _ hp => ?_) fun _ => hcall.ok
  · rw [hcall.pml4Phys]
    exact h.other ha hu hau hp
  · rw [hcall.pml4Phys] at hp ⊢
    exact h.mem t ha hp

/-! ## Dropping an address space -/

/-- The memory without the address space `r`, if there is one. -/
def dropVm (vm : Paging.State) (r : Nat) : Paging.State :=
  if r = Pmm.physNull then vm else vmmDestroyAddressSpace vm r true

theorem Ready.drop {vm : Paging.State} {r : Nat} (h : Ready vm spaces)
    (hr : r ≠ Pmm.physNull → r ∈ spaces) : Ready (dropVm vm r) (spaces.erase r) := by
  unfold dropVm
  split_ifs with hnull
  · rw [Finset.erase_eq_of_notMem fun hmem => h.ne_null hmem hnull]
    exact h
  · exact h.destroy (hr hnull)

theorem vmmSwitchToKernelAs_eq (s : State) :
    ∃ cr3, vmmSwitchToKernelAs s = { s with cr3 := cr3 } := by
  unfold vmmSwitchToKernelAs
  split_ifs
  · exact ⟨s.cr3, rfl⟩
  · exact ⟨_, rfl⟩

theorem vmmDestroyTaskAs_eq (s : State) (r : Nat) :
    ∃ cr3, vmmDestroyTaskAs s r = { s with vm := dropVm s.vm r, cr3 := cr3 } := by
  obtain ⟨cr3, heq⟩ := vmmSwitchToKernelAs_eq s
  unfold vmmDestroyTaskAs dropVm
  split_ifs
  · exact ⟨s.cr3, rfl⟩
  · exact ⟨cr3, by rw [heq]⟩

theorem dropSpace_eq (s : State) (t : Nat) : ∃ cr3, dropSpace s t = { s with
    vm := dropVm s.vm (s.tasks t).pml4Phys
    tasks := Function.update s.tasks t { s.tasks t with pml4Phys := Pmm.physNull }
    cr3 := cr3 } ∧ ((s.tasks t).pml4Phys = Pmm.physNull → cr3 = s.cr3) := by
  unfold dropSpace
  split_ifs with hnull
  · refine ⟨s.cr3, ?_, fun _ => rfl⟩
    have htask : { s.tasks t with pml4Phys := Pmm.physNull } = s.tasks t := by rw [← hnull]
    rw [htask, Function.update_eq_self, dropVm, if_pos hnull]
  · obtain ⟨cr3, heq⟩ := vmmDestroyTaskAs_eq s (s.tasks t).pml4Phys
    exact ⟨cr3, by rw [heq]; rfl, fun hnull' => absurd hnull' hnull⟩

/-! ## Starting an application -/

/-- The new address space, or none, is that of the task; nothing is left of the old one. -/
theorem SpacesOk.enter {task : Task} {new : Nat} {vm vm' : Paging.State} (h : SpacesOk s spaces)
    (ha : (s.tasks t).alive = true) (hready : Ready vm (spaces.erase (s.tasks t).pml4Phys))
    (hcreate : vmmCreateAddressSpace vm = (new, vm'))
    (htasks : s'.tasks = Function.update s.tasks t task) (hvm : s'.vm = vm')
    (hnew : task.pml4Phys = new) (hheap : HeapOk task) :
    ∃ spaces', SpacesOk s' spaces' ∧ (new ≠ Pmm.physNull → new ∈ spaces') := by
  have herase : ∀ u, u ≠ t → (s.tasks u).alive = true → (s.tasks u).pml4Phys ≠ Pmm.physNull →
      (s.tasks u).pml4Phys ∈ spaces.erase (s.tasks t).pml4Phys := fun u hu hau hp => by
    obtain ⟨hmem, hne⟩ := h.other ha hu hau hp
    exact Finset.mem_erase.mpr ⟨hne, hmem⟩
  rcases hready.create with heq | ⟨m, vm₁, heq, hm, hnot, hready'⟩
  · obtain ⟨rfl, rfl⟩ := Prod.mk.inj (hcreate.symm.trans heq)
    refine ⟨_, h.replace htasks (hvm ▸ hready) (fun u hu hau hp => ?_) ?_ fun _ => hheap,
      fun hne => absurd rfl hne⟩
    · exact ⟨herase u hu hau hp, hnew ▸ hp⟩
    · exact fun _ hp => absurd hnew hp
  · obtain ⟨rfl, rfl⟩ := Prod.mk.inj (hcreate.symm.trans heq)
    refine ⟨_, h.replace htasks (hvm ▸ hready') (fun u hu hau hp => ?_) ?_ fun _ => hheap,
      fun _ => Finset.mem_insert_self _ _⟩
    · have hmem := herase u hu hau hp
      refine ⟨Finset.mem_insert_of_mem hmem, fun heq => hnot ?_⟩
      rw [hnew] at heq
      rwa [← heq]
    · intro _ _
      rw [hnew]
      exact Finset.mem_insert_self _ _

theorem loadProgram_eq {fuel pml4 : Nat} {p : Program} {r : Elf.Result × State}
    (h : loadProgram fuel p s pml4 = some r) :
    r = (Elf.elfLoadFile fuel p.file p.heap true pml4 s.vm,
      { s with vm := (Elf.elfLoadFile fuel p.file p.heap true pml4 s.vm).load.vm }) := by
  unfold loadProgram at h
  dsimp only at h
  split_ifs at h
  exact (Option.some.inj h).symm

theorem SpacesOk.load {fuel pml4 : Nat} {p : Program} {r : Elf.Result × State}
    (h : SpacesOk s spaces) (hpml4 : pml4 ≠ Pmm.physNull → pml4 ∈ spaces)
    (hrun : loadProgram fuel p s pml4 = some r) : SpacesOk r.2 spaces := by
  rw [loadProgram_eq hrun]
  refine h.congr rfl ?_
  by_cases hnull : pml4 = Pmm.physNull
  · rw [hnull]
    dsimp only
    rw [(elfLoadFile_null fuel p.file p.heap true s.vm).2]
    exact h.ready
  · exact elfLoadFile_ready (hpml4 hnull) fuel p.file p.heap true h.ready

/-- Before the program is loaded, `t` has the new address space, or none, and an empty heap. -/
structure Prepared (s : State) (t new : Nat) (s₁ : State) : Prop where
  tasks : ∃ cookie, s₁.tasks = Function.update s.tasks t
    { uheapReset (s.tasks t) with pml4Phys := new, cookie := cookie }
  vfs : s₁.vfs = s.vfs
  cr3 : new ≠ Pmm.physNull → s₁.cr3 = new

theorem Prepared.self {new : Nat} {s₁ : State} (h : Prepared s t new s₁) :
    (s₁.tasks t).pml4Phys = new ∧ (s₁.tasks t).uheapRegions = [] := by
  obtain ⟨cookie, htasks⟩ := h.tasks
  rw [htasks, Function.update_self]
  exact ⟨rfl, rfl⟩

theorem enterSpace_prepared {old new : Nat} {s₁ : State} (htasks : s₁.tasks =
      Function.update s.tasks t { uheapReset (s.tasks t) with pml4Phys := old })
    (hvfs : s₁.vfs = s.vfs) : Prepared s t new (enterSpace s₁ t new) := by
  refine ⟨⟨(s₁.asCookieCounter + 1) % 2 ^ 32, ?_⟩, hvfs, fun _ => rfl⟩
  simp only [enterSpace, asCookieNext, setTask, htasks, Function.update_idem,
    Function.update_self]

/-- The state in which `sys_exec` makes the new address space. -/
theorem execBase_eq (s : State) (t : Nat) :
    let s₀ := dropSpace (kwmDestroyWindowsOf s t) t
    let s₁ := setTask s₀ t (uheapReset (s₀.tasks t))
    s₁.vm = dropVm s.vm (s.tasks t).pml4Phys ∧
      s₁.tasks = Function.update s.tasks t
        { uheapReset (s.tasks t) with pml4Phys := Pmm.physNull } ∧
      s₁.windows = (kwmDestroyWindowsOf s t).windows ∧ s₁.vfs = s.vfs ∧
      ((s.tasks t).pml4Phys = Pmm.physNull → s₁.cr3 = s.cr3) := by
  obtain ⟨cr3, hdrop, hcr3⟩ := dropSpace_eq (kwmDestroyWindowsOf s t) t
  dsimp only
  rw [hdrop]
  refine ⟨rfl, ?_, rfl, rfl, hcr3⟩
  simp only [setTask, Function.update_idem, Function.update_self]
  rfl

/-- `sys_exec` destroys the old address space, and then makes a new one. -/
theorem sysExec_spec {fuel : Nat} {p : Program} {r : Nat × State}
    (h : sysExec fuel p s t = some r) (hcopied : p.copied = true) :
    ∃ new s₁ res, vmmCreateAddressSpace (dropVm s.vm (s.tasks t).pml4Phys) = (new, s₁.vm) ∧
      Prepared s t new s₁ ∧ s₁.windows = (kwmDestroyWindowsOf s t).windows ∧
      ((s.tasks t).pml4Phys = Pmm.physNull → new = Pmm.physNull → s₁.cr3 = s.cr3) ∧
      loadProgram fuel p s₁ new = some (res, r.2) ∧
      r.1 = if res.entry = some 0 then 0 else 1 := by
  obtain ⟨hvm, htasks, hwindows, hvfs, hcr3⟩ := execBase_eq s t
  unfold sysExec at h
  rw [if_neg (by rw [hcopied]; simp)] at h
  dsimp only at h hvm htasks hwindows hvfs hcr3
  generalize setTask (dropSpace (kwmDestroyWindowsOf s t) t) t
    (uheapReset ((dropSpace (kwmDestroyWindowsOf s t) t).tasks t)) = s₀
    at h hvm htasks hwindows hvfs hcr3
  rw [← hvm]
  cases hcreate : vmmCreateAddressSpace s₀.vm with
  | mk new vm =>
  rw [hcreate] at h
  dsimp only at h
  obtain ⟨⟨res, s₂⟩, hload, hr⟩ := Option.bind_eq_some_iff.mp h
  obtain rfl := Option.some.inj hr
  split_ifs at hload with hnull
  · refine ⟨new, { s₀ with vm := vm }, res, rfl, ⟨⟨(s.tasks t).cookie, ?_⟩, hvfs, ?_⟩, hwindows,
      fun hold _ => hcr3 hold, hload, rfl⟩
    · rw [hnull]
      exact htasks
    · exact fun hne => absurd hnull hne
  · exact ⟨new, enterSpace { s₀ with vm := vm } t new, res, rfl, enterSpace_prepared htasks hvfs,
      hwindows, fun _ hnull' => absurd hnull' hnull, hload, rfl⟩

/-- The state in which `sys_load_elf` enters the new address space. -/
theorem loadBase_eq (s : State) (vm : Paging.State) (t : Nat) :
    let s₀ := vmmDestroyTaskAs { s with vm := vm } (s.tasks t).pml4Phys
    let s₁ := setTask s₀ t (uheapReset (s₀.tasks t))
    s₁.vm = dropVm vm (s.tasks t).pml4Phys ∧
      s₁.tasks = Function.update s.tasks t
        { uheapReset (s.tasks t) with pml4Phys := (s.tasks t).pml4Phys } ∧
      s₁.windows = s.windows ∧ s₁.vfs = s.vfs := by
  obtain ⟨cr3, hdrop⟩ := vmmDestroyTaskAs_eq { s with vm := vm } (s.tasks t).pml4Phys
  dsimp only
  rw [hdrop]
  exact ⟨rfl, rfl, rfl, rfl⟩

/-- `sys_load_elf` makes the new address space first, and leaves the windows. -/
theorem sysLoadElf_spec {fuel : Nat} {p : Program} {r : Nat × State}
    (h : sysLoadElf fuel p s t = some r) (hcopied : p.copied = true) :
    ∃ new vm s₁ res, vmmCreateAddressSpace s.vm = (new, vm) ∧
      (new = Pmm.physNull → s₁ = { s with vm := vm }) ∧
      (new ≠ Pmm.physNull → s₁.vm = dropVm vm (s.tasks t).pml4Phys ∧ Prepared s t new s₁ ∧
        s₁.windows = s.windows) ∧
      loadProgram fuel p s₁ new = some (res, r.2) ∧ r.1 = res.entry.getD 0 := by
  unfold sysLoadElf at h
  rw [if_neg (by rw [hcopied]; simp)] at h
  cases hcreate : vmmCreateAddressSpace s.vm with
  | mk new vm =>
  rw [hcreate] at h
  dsimp only at h
  obtain ⟨⟨res, s₂⟩, hload, hr⟩ := Option.bind_eq_some_iff.mp h
  obtain rfl := Option.some.inj hr
  obtain ⟨hvm, htasks, hwindows, hvfs⟩ := loadBase_eq s vm t
  dsimp only at hvm htasks hwindows hvfs
  generalize setTask (vmmDestroyTaskAs { s with vm := vm } (s.tasks t).pml4Phys) t
    (uheapReset ((vmmDestroyTaskAs { s with vm := vm } (s.tasks t).pml4Phys).tasks t)) = s₀
    at hload hvm htasks hwindows hvfs
  split_ifs at hload with hnull
  · exact ⟨new, vm, _, res, rfl, fun _ => rfl, fun hne => absurd hnull hne, hload, rfl⟩
  · exact ⟨new, vm, enterSpace s₀ t new, res, rfl, fun hnull' => absurd hnull' hnull,
      fun _ => ⟨hvm, enterSpace_prepared htasks hvfs, hwindows⟩, hload, rfl⟩

/-! ## Every call keeps the address spaces apart -/

theorem SpacesOk.sysExec {fuel : Nat} {p : Program} {r : Nat × State} (h : SpacesOk s spaces)
    (ha : (s.tasks t).alive = true) (hrun : sysExec fuel p s t = some r) :
    ∃ spaces', SpacesOk r.2 spaces' := by
  cases hcopied : p.copied with
  | false =>
    unfold Proc.sysExec at hrun
    rw [if_pos hcopied] at hrun
    obtain rfl := Option.some.inj hrun
    exact ⟨spaces, h⟩
  | true =>
    obtain ⟨new, s₁, res, hcreate, hprep, _, _, hload, _⟩ := sysExec_spec hrun hcopied
    obtain ⟨cookie, htasks⟩ := hprep.tasks
    have hready := h.ready.drop (h.mem t ha)
    obtain ⟨spaces', h₁, hmem⟩ := h.enter ha hready hcreate htasks rfl rfl
      ⟨(uheapReset_ok (s.tasks t)).brk, fun hne => absurd rfl hne, fun n hn => by cases hn⟩
    exact ⟨spaces', h₁.load hmem hload⟩

theorem SpacesOk.sysLoadElf {fuel : Nat} {p : Program} {r : Nat × State} (h : SpacesOk s spaces)
    (ha : (s.tasks t).alive = true) (hrun : sysLoadElf fuel p s t = some r) :
    ∃ spaces', SpacesOk r.2 spaces' := by
  cases hcopied : p.copied with
  | false =>
    unfold Proc.sysLoadElf at hrun
    rw [if_pos hcopied] at hrun
    obtain rfl := Option.some.inj hrun
    exact ⟨spaces, h⟩
  | true =>
    obtain ⟨new, vm, s₁, res, hcreate, hnull, hnew, hload, _⟩ := sysLoadElf_spec hrun hcopied
    rcases h.ready.create with heq | ⟨m, vm', heq, hm, hnot, hready⟩
    · obtain ⟨rfl, rfl⟩ := Prod.mk.inj (hcreate.symm.trans heq)
      rw [hnull rfl] at hload
      exact ⟨spaces, SpacesOk.load (h.congr rfl h.ready) (fun hne => absurd rfl hne) hload⟩
    · obtain ⟨rfl, rfl⟩ := Prod.mk.inj (hcreate.symm.trans heq)
      obtain ⟨hvm, hprep, _⟩ := hnew hm
      obtain ⟨cookie, htasks⟩ := hprep.tasks
      have hold : (s.tasks t).pml4Phys ≠ Pmm.physNull → (s.tasks t).pml4Phys ∈ insert new spaces :=
        fun hne => Finset.mem_insert_of_mem (h.mem t ha hne)
      have hnew' : new ∈ (insert new spaces).erase (s.tasks t).pml4Phys := by
        refine Finset.mem_erase.mpr ⟨fun heq => ?_, Finset.mem_insert_self _ _⟩
        exact hnot (heq ▸ h.mem t ha (heq ▸ hm))
      have h₁ : SpacesOk s₁ ((insert new spaces).erase (s.tasks t).pml4Phys) := by
        refine h.replace htasks (hvm ▸ hready.drop hold) (fun u hu hau hp => ?_) ?_ ?_
        · obtain ⟨hmem, hne⟩ := h.other ha hu hau hp
          refine ⟨Finset.mem_erase.mpr ⟨hne, Finset.mem_insert_of_mem hmem⟩, fun heq => hnot ?_⟩
          have hsame : (s.tasks u).pml4Phys = new := heq
          exact hsame ▸ hmem
        · exact fun _ _ => hnew'
        · exact fun _ => ⟨(uheapReset_ok (s.tasks t)).brk, fun hne => absurd rfl hne,
            fun n hn => by cases hn⟩
      exact ⟨_, h₁.load (fun _ => hnew') hload⟩

/-- An address space that no task has is destroyed. -/
theorem SpacesOk.discard {r : Nat} (h : SpacesOk s spaces) (hr : r ∈ spaces)
    (hno : ∀ u, (s.tasks u).alive = true → (s.tasks u).pml4Phys ≠ r) :
    SpacesOk (vmmDestroyTaskAs s r) (spaces.erase r) := by
  obtain ⟨cr3, heq⟩ := vmmDestroyTaskAs_eq s r
  rw [heq]
  refine ⟨h.ready.drop fun _ => hr, fun u ha hp => ?_, h.inj, h.heap⟩
  exact Finset.mem_erase.mpr ⟨hno u ha, h.mem u ha hp⟩

/-- A task is made in a slot of a dead one, or none is. -/
theorem createUserTask_cases {stack queued : Bool} {pml4 cookie : Nat} {out : Option Nat × State}
    (h : createUserTask stack queued s pml4 cookie = out) : out = (none, s) ∨
      ∃ slot, (s.tasks slot).alive = false ∧
        (out.1 = none → queued = false) ∧ out.2 = setTask s slot
          { uheapReset (s.tasks slot) with
            pml4Phys := pml4, cookie := cookie, spawned := true, alive := queued } := by
  subst h
  unfold createUserTask
  by_cases hstack : stack = false
  · rw [if_pos hstack]
    exact Or.inl rfl
  rw [if_neg hstack]
  cases hfind : (List.range maxTasks).find? fun i => 0 < i && !(s.tasks i).alive with
  | none => exact Or.inl rfl
  | some slot =>
    have hdead : (s.tasks slot).alive = false := by
      have hp := List.find?_some hfind
      simpa using (Bool.and_eq_true_iff.mp hp).2
    refine Or.inr ⟨slot, hdead, ?_⟩
    cases queued with
    | false => exact ⟨fun _ => rfl, rfl⟩
    | true => exact ⟨fun hnone => (by cases hnone), rfl⟩

/-- The new task has the address space that was made for it. -/
theorem SpacesOk.createUserTask {stack queued : Bool} {child cookie : Nat}
    {out : Option Nat × State} (h : SpacesOk s spaces) (hchild : child ∈ spaces)
    (hno : ∀ u, (s.tasks u).alive = true → (s.tasks u).pml4Phys ≠ child)
    (hrun : createUserTask stack queued s child cookie = out) :
    SpacesOk out.2 spaces ∧ (out.1 = none →
      ∀ u, (out.2.tasks u).alive = true → (out.2.tasks u).pml4Phys ≠ child) := by
  rcases createUserTask_cases hrun with rfl | ⟨slot, hdead, hnone, hout⟩
  · exact ⟨h, fun _ => hno⟩
  · have htasks := congrArg State.tasks hout
    have hvm : out.2.vm = s.vm := by rw [hout]; rfl
    refine ⟨h.replace htasks (hvm ▸ h.ready) (fun u hu hau hp => ?_) (fun _ _ => hchild) ?_,
      fun hout₁ u hau => ?_⟩
    · exact ⟨h.mem u hau hp, hno u hau⟩
    · exact fun _ => ⟨(uheapReset_ok (s.tasks slot)).brk, fun hne => absurd rfl hne,
        fun n hn => by cases hn⟩
    · by_cases hu : u = slot
      · rw [htasks, hu, hnone hout₁] at hau
        simp only [setTask, Function.update_self] at hau
        cases hau
      · rw [htasks] at hau ⊢
        simp only [setTask, Function.update_of_ne hu] at hau ⊢
        exact hno u hau

theorem SpacesOk.sysSpawn {fuel : Nat} {p : Program} {stack queued : Bool}
    {r : Option Nat × State} (h : SpacesOk s spaces)
    (hrun : sysSpawn fuel p stack queued s = some r) : ∃ spaces', SpacesOk r.2 spaces' := by
  unfold Proc.sysSpawn at hrun
  by_cases hcopied : p.copied = false
  · rw [if_pos hcopied] at hrun
    obtain rfl := Option.some.inj hrun
    exact ⟨spaces, h⟩
  rw [if_neg hcopied] at hrun
  rcases h.ready.create with heq | ⟨child, vm, heq, hchild, hnot, hready⟩
  · rw [heq] at hrun
    dsimp only at hrun
    rw [if_pos rfl] at hrun
    obtain rfl := Option.some.inj hrun
    exact ⟨spaces, h.congr rfl h.ready⟩
  rw [heq] at hrun
  dsimp only at hrun
  rw [if_neg hchild] at hrun
  obtain ⟨⟨res, s₁⟩, hload, hrun⟩ := Option.bind_eq_some_iff.mp hrun
  have hmem : child ∈ insert child spaces := Finset.mem_insert_self _ _
  have h₀ : SpacesOk { s with vm := vm } (insert child spaces) :=
    ⟨hready, fun u ha hp => Finset.mem_insert_of_mem (h.mem u ha hp), h.inj, h.heap⟩
  have h₁ := h₀.load (fun _ => hmem) hload
  have htasks : s₁.tasks = s.tasks := congrArg (fun r => r.2.tasks) (loadProgram_eq hload)
  have hno : ∀ u, (s₁.tasks u).alive = true → (s₁.tasks u).pml4Phys ≠ child := by
    rintro u ha rfl
    rw [htasks] at ha hchild hnot
    exact hnot (h.mem u ha hchild)
  dsimp only at hrun h₁
  by_cases hok : res.entry ≠ some 0 ∧ res.stackTop ≠ 0
  · rw [if_pos hok] at hrun
    have h₂ : SpacesOk (asCookieNext s₁).2 (insert child spaces) := h₁.congr rfl h₁.ready
    cases hcreate : Proc.createUserTask stack queued (asCookieNext s₁).2 child (asCookieNext s₁).1 with
    | mk tid s₃ =>
    obtain ⟨h₃, hno₃⟩ := h₂.createUserTask hmem hno hcreate
    rw [hcreate] at hrun
    cases tid with
    | some tid =>
      obtain rfl := Option.some.inj hrun
      exact ⟨_, h₃⟩
    | none =>
      obtain rfl := Option.some.inj hrun
      exact ⟨_, h₃.discard hmem (hno₃ rfl)⟩
  · rw [if_neg hok] at hrun
    obtain rfl := Option.some.inj hrun
    exact ⟨_, h₁.discard hmem hno⟩

/-! ## Ending an application -/

/-- What `sys_exit` does, on both routes. -/
structure Exited (drive : Kfs.Drive) (noise : Nat → Kfs.Noise) (s : State) (t : Nat)
    (s' : State) : Prop where
  vm : s'.vm = dropVm s.vm (s.tasks t).pml4Phys
  tasks : s'.tasks = Function.update s.tasks t { uheapReset (s.tasks t) with
    pml4Phys := Pmm.physNull
    alive := (s.tasks t).alive && !(s.tasks t).spawned }
  windows : s'.windows = (kwmDestroyWindowsOf s t).windows
  socks : s'.socks = s.socks
  openedBy : s'.openedBy = s.openedBy
  spawned : (s.tasks t).spawned = true → Vfs.vfsCloseAll drive noise s.vfs t = some s'.vfs
  launched : (s.tasks t).spawned = false → s'.vfs = s.vfs

theorem taskExit_exited {noise : Nat → Kfs.Noise} (hspawned : (s.tasks t).spawned = true)
    {vfs : Vfs.State} (hclose : Vfs.vfsCloseAll drive noise s.vfs t = some vfs) :
    ∃ s', taskExit drive noise (kwmDestroyWindowsOf s t) t = some s' ∧
      Exited drive noise s t s' := by
  have hclose' : Vfs.vfsCloseAll drive noise (kwmDestroyWindowsOf s t).vfs t = some vfs := hclose
  obtain ⟨cr3, hswitch⟩ := vmmSwitchToKernelAs_eq { kwmDestroyWindowsOf s t with vfs := vfs }
  unfold taskExit
  simp only [hclose', Option.bind_eq_bind, Option.bind_some, hswitch]
  have halive : ((s.tasks t).alive && !(s.tasks t).spawned) = false := by
    rw [hspawned]
    simp
  refine ⟨_, rfl, ?_⟩
  by_cases hnull : (s.tasks t).pml4Phys = Pmm.physNull
  · have hnull' : ((kwmDestroyWindowsOf s t).tasks t).pml4Phys = Pmm.physNull := hnull
    simp only [if_pos hnull']
    refine ⟨?_, ?_, rfl, rfl, rfl, fun _ => hclose, fun hno => ?_⟩
    · rw [dropVm, if_pos hnull]
      rfl
    · rw [halive]
      rfl
    · rw [hspawned] at hno
      cases hno
  · have hnull' : ¬ ((kwmDestroyWindowsOf s t).tasks t).pml4Phys = Pmm.physNull := hnull
    simp only [if_neg hnull']
    refine ⟨?_, ?_, rfl, rfl, rfl, fun _ => hclose, fun hno => ?_⟩
    · rw [dropVm, if_neg hnull]
      rfl
    · rw [halive]
      rfl
    · rw [hspawned] at hno
      cases hno

theorem sysExit_exited (drive : Kfs.Drive) (noise : Nat → Kfs.Noise) (t : Nat)
    (hfits : Vfs.Fits s.vfs) :
    ∃ s', sysExit drive noise s t = some s' ∧ Exited drive noise s t s' := by
  unfold sysExit
  dsimp only
  cases hspawned : (s.tasks t).spawned with
  | true =>
    have hspawned' : ((kwmDestroyWindowsOf s t).tasks t).spawned = true := hspawned
    rw [if_pos hspawned']
    obtain ⟨vfs, hclose, _⟩ := Vfs.vfsCloseAll_fits drive hfits noise t
    exact taskExit_exited hspawned hclose
  | false =>
    have hspawned' : ¬ ((kwmDestroyWindowsOf s t).tasks t).spawned = true := by
      change ¬ (s.tasks t).spawned = true
      rw [hspawned]
      simp
    rw [if_neg hspawned']
    refine ⟨_, rfl, ?_⟩
    obtain ⟨cr3, hdrop, _⟩ := dropSpace_eq (setTask (kwmDestroyWindowsOf s t) t
      (uheapReset ((kwmDestroyWindowsOf s t).tasks t))) t
    rw [hdrop]
    refine ⟨?_, ?_, rfl, rfl, rfl, fun hno => ?_, fun _ => rfl⟩
    · simp only [setTask, Function.update_self]
      rfl
    · simp only [setTask, Function.update_self, Function.update_idem, hspawned, Bool.not_false,
        Bool.and_true]
      rfl
    · rw [hspawned] at hno
      cases hno

theorem SpacesOk.exited {noise : Nat → Kfs.Noise} (h : SpacesOk s spaces)
    (ha : (s.tasks t).alive = true) (he : Exited drive noise s t s') :
    SpacesOk s' (spaces.erase (s.tasks t).pml4Phys) := by
  refine h.replace he.tasks (he.vm ▸ h.ready.drop (h.mem t ha)) (fun u hu hau hp => ?_) ?_ ?_
  · obtain ⟨hmem, hne⟩ := h.other ha hu hau hp
    exact ⟨Finset.mem_erase.mpr ⟨hne, hmem⟩, hp⟩
  · exact fun _ hp => absurd rfl hp
  · exact fun _ => ⟨(uheapReset_ok (s.tasks t)).brk, fun hne => absurd rfl hne,
      fun n hn => by cases hn⟩

/-! ## Whole runs -/

/-- After boot no task has an address space of its own, and nothing is held. -/
structure Boot (drive : Kfs.Drive) (s : State) : Prop where
  vm : Ready s.vm ∅
  tasks : ∀ t, (s.tasks t).pml4Phys = Pmm.physNull ∧ (s.tasks t).spawned = false ∧
    (s.tasks t).uheapRegions = [] ∧ (s.tasks t).uheapBrk = 0
  windows : ∀ i, (s.windows i).active = false
  socks : ∀ i, (s.socks i).state = .free
  vfs : ∃ stale fs fds, s.vfs = Vfs.boot drive stale fs fds

/-- The states of the runs from boot. No block of the kernel heap is longer than
`0xFFFFFE00` bytes. -/
inductive Reach (drive : Kfs.Drive) : State → Prop
  | boot {s : State} (h : Boot drive s) : Reach drive s
  | step {s s' : State} {op : Op} (env : Env) (h : Reach drive s) (hv : op.Valid s)
      (hfits : env.files.Fits) (hrun : exec drive env s op = some s') : Reach drive s'

structure Inv (s : State) : Prop where
  spaces : ∃ spaces, SpacesOk s spaces
  fits : Vfs.Fits s.vfs

theorem boot_inv (hroom : drive.HasRoom) (h : Boot drive s) : Inv s := by
  obtain ⟨stale, fs, fds, hvfs⟩ := h.vfs
  refine ⟨⟨∅, h.vm, fun t _ hp => ?_, fun t u _ _ hp => ?_, fun t _ => ⟨?_, fun hne => ?_, ?_⟩⟩, ?_⟩
  · exact absurd (h.tasks t).1 hp
  · exact absurd (h.tasks t).1 hp
  · rw [(h.tasks t).2.2.2]
    exact Nat.zero_le _
  · exact absurd (h.tasks t).2.2.1 hne
  · rw [(h.tasks t).2.2.1]
    intro n hn
    cases hn
  · rw [hvfs]
    exact Vfs.boot_fits hroom stale fs fds

/-- The calls that leave the tasks, the memory and the descriptors. -/
theorem Inv.congr (h : Inv s) (htasks : s'.tasks = s.tasks) (hvm : s'.vm = s.vm)
    (hvfs : s'.vfs = s.vfs) : Inv s' := by
  obtain ⟨spaces, hs⟩ := h.spaces
  exact ⟨⟨spaces, hs.congr htasks (hvm ▸ hs.ready)⟩, hvfs ▸ h.fits⟩

/-- A call of the user heap. -/
theorem Inv.heapCall (h : Inv s) (ha : (s.tasks t).alive = true)
    {r : Nat × Task × Paging.State} (hcall : ∀ spaces, SpacesOk s spaces →
      HeapCall spaces (s.tasks t) r) : Inv (Proc.setHeap s t r) := by
  obtain ⟨spaces, hs⟩ := h.spaces
  exact ⟨⟨spaces, hs.setHeap ha (hcall spaces hs)⟩, h.fits⟩

/-- A window operation leaves everything else. -/
theorem kwmCreateWindow_eq (canvas : Bool) (s : State) (t width height : Nat) :
    ∃ windows, (kwmCreateWindow canvas s t width height).2 = { s with windows := windows } := by
  unfold kwmCreateWindow
  split_ifs
  · exact ⟨s.windows, rfl⟩
  · exact ⟨s.windows, rfl⟩
  · split <;> exact ⟨_, rfl⟩
  · split <;> exact ⟨_, rfl⟩

theorem kwmCreateDesktop_eq (screen canvas : Bool) (s : State) (t : Nat) :
    ∃ windows, (kwmCreateDesktop screen canvas s t).2 = { s with windows := windows } := by
  unfold kwmCreateDesktop
  by_cases hany : ((List.range maxWindows).any fun i =>
    (s.windows i).active && (s.windows i).desktop) = true
  · rw [if_pos hany]
    exact ⟨s.windows, rfl⟩
  rw [if_neg hany]
  split_ifs
  · exact ⟨s.windows, rfl⟩
  · split <;> exact ⟨_, rfl⟩
  · split <;> exact ⟨_, rfl⟩

theorem sysKwmDestroyWindow_eq (s : State) (t : Nat) (wid : Int) :
    ∃ windows, sysKwmDestroyWindow s t wid = { s with windows := windows } := by
  unfold sysKwmDestroyWindow
  split_ifs <;> exact ⟨_, rfl⟩

theorem ksockSocket_eq (pcb : Bool) (s : State) (t : Nat) :
    ∃ socks, (ksockSocket pcb s t).2 = { s with socks := socks } := by
  unfold ksockSocket
  split
  · exact ⟨s.socks, rfl⟩
  · split_ifs <;> exact ⟨_, rfl⟩

theorem ksockConnect_eq (s : State) (fd : Int) :
    ∃ socks, ksockConnect s fd = { s with socks := socks } := by
  unfold ksockConnect
  split
  · exact ⟨s.socks, rfl⟩
  · split_ifs <;> exact ⟨_, rfl⟩

theorem ksockEvent_eq (s : State) (i : Nat) (ok : Bool) :
    ∃ socks, ksockEvent s i ok = { s with socks := socks } := by
  unfold ksockEvent
  by_cases hfree : (s.socks i).state = .free
  · rw [if_pos hfree]
    exact ⟨s.socks, rfl⟩
  · rw [if_neg hfree]
    exact ⟨_, rfl⟩

theorem ksockClose_eq (s : State) (fd : Int) :
    ∃ socks, (ksockClose s fd).2 = { s with socks := socks } := by
  unfold ksockClose
  split
  · exact ⟨s.socks, rfl⟩
  · split_ifs <;> exact ⟨_, rfl⟩

/-- A call that starts a program leaves the descriptors. -/
theorem sysExec_vfs {fuel : Nat} {p : Program} {r : Nat × State}
    (h : sysExec fuel p s t = some r) : r.2.vfs = s.vfs := by
  cases hcopied : p.copied with
  | false =>
    unfold sysExec at h
    rw [if_pos hcopied] at h
    obtain rfl := Option.some.inj h
    rfl
  | true =>
    obtain ⟨new, s₁, res, _, hprep, _, _, hload, _⟩ := sysExec_spec h hcopied
    rw [← hprep.vfs]
    exact congrArg (fun r => r.2.vfs) (loadProgram_eq hload)

theorem sysLoadElf_vfs {fuel : Nat} {p : Program} {r : Nat × State}
    (h : sysLoadElf fuel p s t = some r) : r.2.vfs = s.vfs := by
  cases hcopied : p.copied with
  | false =>
    unfold sysLoadElf at h
    rw [if_pos hcopied] at h
    obtain rfl := Option.some.inj h
    rfl
  | true =>
    obtain ⟨new, vm, s₁, res, _, hnull, hnew, hload, _⟩ := sysLoadElf_spec h hcopied
    have hvfs : s₁.vfs = s.vfs := by
      by_cases hn : new = Pmm.physNull
      · rw [hnull hn]
      · exact (hnew hn).2.1.vfs
    rw [← hvfs]
    exact congrArg (fun r => r.2.vfs) (loadProgram_eq hload)

theorem vmmDestroyTaskAs_vfs (s : State) (r : Nat) : (vmmDestroyTaskAs s r).vfs = s.vfs := by
  obtain ⟨cr3, heq⟩ := vmmDestroyTaskAs_eq s r
  rw [heq]

theorem createUserTask_vfs {stack queued : Bool} {pml4 cookie : Nat} {out : Option Nat × State}
    (h : createUserTask stack queued s pml4 cookie = out) : out.2.vfs = s.vfs := by
  rcases createUserTask_cases h with rfl | ⟨slot, _, _, hout⟩
  · rfl
  · rw [hout]
    rfl

theorem sysSpawn_vfs {fuel : Nat} {p : Program} {stack queued : Bool} {r : Option Nat × State}
    (h : sysSpawn fuel p stack queued s = some r) : r.2.vfs = s.vfs := by
  unfold sysSpawn at h
  split_ifs at h with hcopied
  · obtain rfl := Option.some.inj h
    rfl
  dsimp only at h
  split_ifs at h with hnull
  · obtain rfl := Option.some.inj h
    rfl
  obtain ⟨⟨res, s₁⟩, hload, h⟩ := Option.bind_eq_some_iff.mp h
  have hvfs : s₁.vfs = s.vfs := congrArg (fun r => r.2.vfs) (loadProgram_eq hload)
  dsimp only at h
  split_ifs at h with hok
  · cases hcreate : createUserTask stack queued (asCookieNext s₁).2
      (vmmCreateAddressSpace s.vm).1 (asCookieNext s₁).1 with
    | mk tid s₂ =>
    have hvfs₂ : s₂.vfs = s.vfs := (createUserTask_vfs hcreate).trans hvfs
    rw [hcreate] at h
    cases tid with
    | some tid =>
      obtain rfl := Option.some.inj h
      exact hvfs₂
    | none =>
      obtain rfl := Option.some.inj h
      exact (vmmDestroyTaskAs_vfs s₂ _).trans hvfs₂
  · obtain rfl := Option.some.inj h
    exact (vmmDestroyTaskAs_vfs s₁ _).trans hvfs

theorem Exited.fits {noise : Nat → Kfs.Noise} (he : Exited drive noise s t s')
    (h : Vfs.Fits s.vfs) : Vfs.Fits s'.vfs := by
  cases hspawned : (s.tasks t).spawned with
  | true =>
    obtain ⟨vfs, hclose, hfits⟩ := Vfs.vfsCloseAll_fits drive h noise t
    obtain rfl := Option.some.inj (hclose.symm.trans (he.spawned hspawned))
    exact hfits
  | false =>
    rw [he.launched hspawned]
    exact h

/-- Every call keeps the address spaces of the tasks apart and the descriptors closable. -/
theorem exec_inv {env : Env} {op : Op} (h : Inv s) (hv : op.Valid s) (hfits : env.files.Fits)
    (hrun : exec drive env s op = some s') : Inv s' := by
  obtain ⟨spaces, hs⟩ := h.spaces
  cases op with
  | vfs op t =>
    obtain ⟨vfs, hvfs, rfl⟩ := Option.map_eq_some_iff.mp hrun
    exact ⟨⟨spaces, hs.congr rfl hs.ready⟩, Vfs.exec_fits h.fits hv.1 hfits hvfs⟩
  | alloc t size node =>
    obtain rfl := Option.some.inj hrun
    exact h.heapCall hv.1 fun _ hs =>
      uheapAlloc_call hs.ready (hs.heap t hv.1) (hs.mem t hv.1) node size
  | free t uaddr =>
    obtain rfl := Option.some.inj hrun
    exact h.heapCall hv.1 fun _ hs =>
      uheapFree_call hs.ready (hs.heap t hv.1) (hs.mem t hv.1) uaddr
  | realloc t uaddr size node =>
    obtain rfl := Option.some.inj hrun
    exact h.heapCall hv.1 fun _ hs =>
      uheapRealloc_call hs.ready (hs.heap t hv.1) (hs.mem t hv.1) node uaddr size
  | createWindow t width height canvas =>
    obtain rfl := Option.some.inj hrun
    obtain ⟨windows, heq⟩ := kwmCreateWindow_eq canvas s t width height
    rw [heq]
    exact h.congr rfl rfl rfl
  | createDesktop t screen canvas =>
    obtain rfl := Option.some.inj hrun
    obtain ⟨windows, heq⟩ := kwmCreateDesktop_eq screen canvas s t
    rw [heq]
    exact h.congr rfl rfl rfl
  | destroyWindow t wid =>
    obtain rfl := Option.some.inj hrun
    obtain ⟨windows, heq⟩ := sysKwmDestroyWindow_eq s t wid
    rw [heq]
    exact h.congr rfl rfl rfl
  | socket t pcb =>
    obtain rfl := Option.some.inj hrun
    obtain ⟨socks, heq⟩ := ksockSocket_eq pcb s t
    rw [heq]
    exact h.congr rfl rfl rfl
  | connect fd =>
    obtain rfl := Option.some.inj hrun
    obtain ⟨socks, heq⟩ := ksockConnect_eq s fd
    rw [heq]
    exact h.congr rfl rfl rfl
  | sockEvent i ok =>
    obtain rfl := Option.some.inj hrun
    obtain ⟨socks, heq⟩ := ksockEvent_eq s i ok
    rw [heq]
    exact h.congr rfl rfl rfl
  | sockClose fd =>
    obtain rfl := Option.some.inj hrun
    obtain ⟨socks, heq⟩ := ksockClose_eq s fd
    rw [heq]
    exact h.congr rfl rfl rfl
  | loadElf t p =>
    obtain ⟨r, hr, rfl⟩ := Option.map_eq_some_iff.mp hrun
    exact ⟨hs.sysLoadElf hv.1 hr, (sysLoadElf_vfs hr).symm ▸ h.fits⟩
  | exec t p =>
    obtain ⟨r, hr, rfl⟩ := Option.map_eq_some_iff.mp hrun
    exact ⟨hs.sysExec hv.1 hr, (sysExec_vfs hr).symm ▸ h.fits⟩
  | spawn p stack queued =>
    obtain ⟨r, hr, rfl⟩ := Option.map_eq_some_iff.mp hrun
    exact ⟨hs.sysSpawn hr, (sysSpawn_vfs hr).symm ▸ h.fits⟩
  | exit t =>
    obtain ⟨s₁, hexit, he⟩ := sysExit_exited drive env.files.noise t h.fits
    obtain rfl := Option.some.inj (hexit.symm.trans hrun)
    exact ⟨⟨_, hs.exited hv.1 he⟩, he.fits h.fits⟩
  | growHeap va =>
    obtain rfl := Option.some.inj hrun
    exact ⟨⟨spaces, hs.congr rfl (hs.ready.allocKernel va 3)⟩, h.fits⟩
  | switch t =>
    obtain rfl := Option.some.inj hrun
    exact h.congr rfl rfl rfl

theorem reach_inv (hroom : drive.HasRoom) (h : Reach drive s) : Inv s := by
  induction h with
  | boot hboot => exact boot_inv hroom hboot
  | step env _ hv hfits hrun ih => exact exec_inv ih hv hfits hrun

end Kyuzen.Proc
