import Kyuzen.Loader.Frames
import Kyuzen.Loader.Needed
import Kyuzen.Proc.Exec

/-!
# `sys_spawn` and its caller

The system call as its caller sees it (`kernel/syscall.c`, number 57): CR3 and the `pml4_phys` of
the caller are borrowed while the program is loaded, and restored behind the load. What comes
after the load switches CR3, too: when no task could be made, `vmm_destroy_task_as` leaves the
PML4 of the kernel. So a caller with an address space of its own does not get it back when the call
fails, and all callers get everything back when it succeeds (`spawn_returns`). Whether it succeeds
is known before the call: the file must be one that can be loaded, and there must be the frames that it
needs, a kernel stack, a slot and a place in a run queue (`Starts`).

Without the borrowed fields and the bytes this is the `sysSpawn` of the runs.
-/

namespace Kyuzen.Proc

open Lib.Memory (Mem)
open Loader (Valid Loadable LowerHalf MeetsOnce NothingReplaced Takes framesNeeded freshSpace
  frames_back_iff)
open Paging (freePages lowerEnd translate takePage vmmCreateAddressSpace vmmDestroyAddressSpace)

/-- The system with the bytes of its memory, and what is recorded of the processor. -/
structure Machine where
  os : State
  bytes : Mem
  /-- `current_cr3` of the processor. -/
  currentCr3 : Nat

namespace Machine

def setVm (m : Machine) (vm : Paging.State) : Machine := { m with os := { m.os with vm := vm } }

/-- CR3 is loaded, and recorded. -/
def setCr3 (m : Machine) (pml4 : Nat) : Machine :=
  { m with os := { m.os with cr3 := pml4 }, currentCr3 := pml4 }

def vmmSwitchPml4 (m : Machine) (pml4 : Nat) : Machine :=
  if pml4 = Pmm.physNull then m else m.setCr3 pml4

def vmmSwitchToKernelAs (m : Machine) : Machine :=
  if m.os.vm.kernelPml4Phys = Pmm.physNull then m else m.setCr3 m.os.vm.kernelPml4Phys

def vmmDestroyTaskAs (m : Machine) (pml4 : Nat) : Machine :=
  if pml4 = Pmm.physNull then m
  else
    let m := m.vmmSwitchToKernelAs
    m.setVm (vmmDestroyAddressSpace m.os.vm pml4 true)

/-- `self ? self->pml4_phys : PHYS_NULL`. -/
def pml4Of (m : Machine) (caller : Option Nat) : Nat :=
  match caller with
  | none => Pmm.physNull
  | some t => (m.os.tasks t).pml4Phys

/-- `if (self) self->pml4_phys = pml4`. -/
def setPml4 (m : Machine) (caller : Option Nat) (pml4 : Nat) : Machine :=
  match caller with
  | none => m
  | some t => { m with os := setTask m.os t { m.os.tasks t with pml4Phys := pml4 } }

/-- System call 57; `caller` is `self`, the task that calls. -/
def sysSpawn (fuel : Nat) (p : Program) (stack queued : Bool) (caller : Option Nat) (m : Machine) :
    Option (Option Nat × Machine) :=
  if p.copied = false then some (none, m)
  else
    let (child, vm) := vmmCreateAddressSpace m.os.vm
    let m := m.setVm vm
    if child = Pmm.physNull then some (none, m)
    else
      let savedAs := m.pml4Of caller
      let savedCr3 := m.os.cr3
      let m := (m.setPml4 caller child).vmmSwitchPml4 child
      let r := Loader.elfLoadFile fuel p.file p.heap true child ⟨m.os.vm, m.bytes⟩
      match r.entry with
      | none => none
      | some entry =>
        let m := { m.setVm r.store.vm with bytes := r.store.bytes }
        let m := (m.vmmSwitchPml4 savedCr3).setPml4 caller savedAs
        if entry ≠ 0 ∧ r.stackTop ≠ 0 then
          let (cookie, os) := asCookieNext m.os
          match createUserTask stack queued os child cookie with
          | (some tid, os) => some (some tid, { m with os := os })
          | (none, os) => some (none, vmmDestroyTaskAs { m with os := os } child)
        else some (none, m.vmmDestroyTaskAs child)

end Machine

/-- A task makes a system call: CR3 is that of an address space, which is recorded, and the task
is alive. -/
structure Calls (m : Machine) (caller : Option Nat) (spaces : Finset Nat) : Prop where
  ready : Ready m.os.vm spaces
  kernel : m.os.vm.kernelPml4Phys ≠ Pmm.physNull
  cr3 : m.os.cr3 = m.os.vm.kernelPml4Phys ∨ m.os.cr3 ∈ spaces
  recorded : m.currentCr3 = m.os.cr3
  alive : ∀ t, caller = some t → (m.os.tasks t).alive = true
  own : ∀ t, caller = some t → (m.os.tasks t).pml4Phys ≠ Pmm.physNull →
    (m.os.tasks t).pml4Phys ∈ spaces

/-- The caller has everything back. -/
structure Returned (caller : Option Nat) (m : Machine) (ret : Option Nat) (m' : Machine) :
    Prop where
  cr3 : m'.os.cr3 = m.os.cr3
  currentCr3 : m'.currentCr3 = m.currentCr3
  own : m'.pml4Of caller = m.pml4Of caller
  /-- In the space of CR3, and in that of the caller. -/
  pages : ∀ r, r = m.os.cr3 ∨ r = m.pml4Of caller → r ≠ Pmm.physNull → ∀ va < lowerEnd,
    translate m'.os.vm r va = translate m.os.vm r va
  frames : ret = none → ∀ i, m'.os.vm.pmm.used i = m.os.vm.pmm.used i

def SpawnReturns (fuel : Nat) (p : Program) (stack queued : Bool) (caller : Option Nat)
    (m : Machine) : Prop :=
  ∀ ret m', m.sysSpawn fuel p stack queued caller = some (ret, m') → Returned caller m ret m'

/-- The load into the new address space. -/
def Machine.load (m : Machine) (fuel : Nat) (p : Program) : Loader.Result :=
  Loader.elfLoadFile fuel p.file p.heap true (vmmCreateAddressSpace m.os.vm).1
    ⟨(vmmCreateAddressSpace m.os.vm).2, m.bytes⟩

/-- The program is a 64-bit one that can be loaded, with an entry point, and what the start of its
task takes is there: the frames of its address space, a kernel stack, a slot, a place in a run
queue. -/
structure Starts (p : Program) (stack queued : Bool) (m : Machine) : Prop where
  heap : p.heap = true
  file : Loadable p.file
  class64 : p.file.elfClass = 2
  entry : p.file.entry64 ≠ 0
  frames : framesNeeded p.file + 1 ≤ (freePages m.os.vm.pmm).card
  stack : stack = true
  slot : ∃ t < maxTasks, 0 < t ∧ (m.os.tasks t).alive = false
  queued : queued = true

/-- The call ends before it has an address space, or with a new task; or the caller runs on the PML4
of the kernel, and no loop of the load meets a page twice. -/
def Restores (p : Program) (stack queued : Bool) (m : Machine) : Prop :=
  p.copied = false ∨ Exhausted m.os ∨ Starts p stack queued m ∨
    m.os.cr3 = m.os.vm.kernelPml4Phys ∧ (p.heap = true → MeetsOnce p.file true)

/-- The load has ended with an entry point and a stack, and there is the rest that a task needs. -/
structure Loaded (fuel : Nat) (p : Program) (stack queued : Bool) (m : Machine) : Prop where
  entry : (m.load fuel p).entry ≠ some 0
  stackTop : (m.load fuel p).stackTop ≠ 0
  stack : stack = true
  slot : ∃ t < maxTasks, 0 < t ∧ (m.os.tasks t).alive = false
  queued : queued = true

variable {vm vm' : Paging.State} {spaces : Finset Nat} {child r va fuel : Nat} {p : Program}
  {stack queued : Bool} {caller : Option Nat} {m m' : Machine} {ret : Option Nat}

/-! ## Other address spaces -/

/-- The address space of the kernel, or of a task. -/
def Live (vm : Paging.State) (spaces : Finset Nat) (r : Nat) : Prop :=
  r = vm.kernelPml4Phys ∨ r ∈ spaces

/-- The lower half of `r` and the PML4 of the kernel stay. -/
structure Elsewhere (r : Nat) (vm vm' : Paging.State) : Prop where
  kernel : vm'.kernelPml4Phys = vm.kernelPml4Phys
  page : ∀ va < lowerEnd, translate vm' r va = translate vm r va

theorem Elsewhere.trans {vm'' : Paging.State} (h : Elsewhere r vm vm') (h' : Elsewhere r vm' vm'') :
    Elsewhere r vm vm'' :=
  ⟨h'.kernel.trans h.kernel, fun va hva => (h'.page va hva).trans (h.page va hva)⟩

theorem mem_live {x : Paging.Sys} : r ∈ x.live ↔ Live x.vm x.spaces r := Finset.mem_insert

theorem Ready.takePage_elsewhere (h : Ready vm spaces) (hchild : child ∈ spaces)
    (hva : va < lowerEnd) (hr : Live vm spaces r) (hne : r ≠ child) :
    Elsewhere r vm (takePage child va vm).2 := by
  have hnull := h.ne_null hchild
  obtain ⟨x, top, -, rfl, rfl, hs⟩ := h.sound
  have hlive : r ∈ x.live := mem_live.mpr hr
  have hmem : child ∈ x.live := Finset.mem_insert_of_mem hchild
  have hlow := Paging.pml4Idx_lower hva
  rw [Paging.takePage_eq hnull]
  obtain ⟨hs₁, hf₁⟩ := Paging.allocPage_shape hs.ok.shape hs.owned.fresh
  constructor
  · have hmap : ∀ paddr,
        (Paging.mapPage (Paging.allocPage x.vm).2 va paddr 7 child).2.kernelPml4Phys =
          x.vm.kernelPml4Phys := by
      intro paddr
      rcases Paging.mapPage_cases hs₁ hf₁ hmem va paddr 7 with
        ⟨s', heq, hg⟩ | ⟨s', pt, hg, hpt, heq⟩
      · rw [heq]
        exact hg.kernel
      · rw [heq]
        exact hg.kernel
    unfold Paging.allocAndMap
    dsimp only
    split_ifs
    · rfl
    · have hkernel := hmap (Paging.allocPage x.vm).1
      revert hkernel
      generalize Paging.mapPage (Paging.allocPage x.vm).2 va (Paging.allocPage x.vm).1 7 child = out
      obtain ⟨ok, s'⟩ := out
      intro hkernel
      cases ok with
      | true => exact hkernel
      | false => exact hkernel
  · intro va' _
    apply Paging.allocAndMap_elsewhere
    intro paddr
    refine (Paging.mapPage_elsewhere hs₁ hf₁ hmem hlive ?_ paddr 7).trans
      (Paging.translate_congr rfl)
    rintro ⟨-, hc | hc⟩
    · exact hne hc
    · omega

/-- What is mapped in the child is not seen elsewhere. -/
theorem Ready.takes_elsewhere {l : List (Paging.State × Nat)} (htakes : Takes child vm l vm')
    (h : Ready vm spaces) (hchild : child ∈ spaces) (hr : Live vm spaces r) (hne : r ≠ child) :
    Ready vm' spaces ∧ Elsewhere r vm vm' := by
  induction htakes with
  | refl vm => exact ⟨h, rfl, fun _ _ => rfl⟩
  | @fail vm _ _ va hva _ _ ih =>
    have hone := h.takePage_elsewhere hchild hva hr hne
    have hlive : Live (takePage child va vm).2 spaces r := hr.imp (·.trans hone.kernel.symm) id
    obtain ⟨hready, hrest⟩ := ih (Loader.takePage_ready h hchild va) hlive
    exact ⟨hready, hone.trans hrest⟩
  | @page vm _ _ va hva _ _ ih =>
    have hone := h.takePage_elsewhere hchild hva hr hne
    have hlive : Live (takePage child va vm).2 spaces r := hr.imp (·.trans hone.kernel.symm) id
    obtain ⟨hready, hrest⟩ := ih (Loader.takePage_ready h hchild va) hlive
    exact ⟨hready, hone.trans hrest⟩

theorem Ready.create_elsewhere (h : Ready vm spaces) (heq : vmmCreateAddressSpace vm = (child, vm'))
    (hchild : child ≠ Pmm.physNull) (hr : Live vm spaces r) : Elsewhere r vm vm' ∧ r ≠ child := by
  obtain ⟨x, top, -, rfl, rfl, hs⟩ := h.sound
  have hlive : r ∈ x.live := mem_live.mpr hr
  rcases Paging.createSpace_cases hs.ok.shape hs.owned.fresh with hfail | ⟨m, vm', hok, hc⟩
  · rw [heq] at hfail
    exact absurd (congrArg Prod.fst hfail) hchild
  rw [heq] at hok
  cases hok
  have hmap := (Paging.create_map hs.ok hs.owned.fresh).1 r hlive
  rw [heq] at hmap
  refine ⟨⟨hc.kernel, fun va _ => hmap va⟩, ?_⟩
  rintro rfl
  exact hc.notMem hlive

theorem Ready.destroy_elsewhere (h : Ready vm spaces) (hchild : child ∈ spaces)
    (hr : Live vm spaces r) (hne : r ≠ child) :
    Elsewhere r vm (vmmDestroyAddressSpace vm child true) := by
  obtain ⟨x, top, -, rfl, rfl, hs⟩ := h.sound
  have hd := hs.owned.dissolved hchild true
  refine ⟨hd.destroyed.cleared.kernel, fun va _ => ?_⟩
  exact Paging.destroy_map hs.ok hchild true (mem_live.mpr hr) (Or.inl hne)

/-! ## The load -/

/-- What the caller has after the load, in its own space and in the memory. -/
theorem Calls.load_elsewhere (h : Calls m caller spaces) (hlow : LowerHalf p.file)
    (hchild : (vmmCreateAddressSpace m.os.vm).1 ≠ Pmm.physNull) (hr : Live m.os.vm spaces r)
    (fuel : Nat) :
    Elsewhere r m.os.vm (m.load fuel p).store.vm ∧
      Elsewhere r m.os.vm (vmmDestroyAddressSpace (m.load fuel p).store.vm
        (vmmCreateAddressSpace m.os.vm).1 true) := by
  unfold Machine.load
  cases heq : vmmCreateAddressSpace m.os.vm with
  | mk child vm =>
    rw [heq] at hchild
    dsimp only at hchild ⊢
    obtain ⟨hfresh, -⟩ := freshSpace h.ready heq hchild
    obtain ⟨hcreate, hne⟩ := h.ready.create_elsewhere heq hchild hr
    have hlive : Live vm (insert child spaces) r :=
      hr.imp (·.trans hcreate.kernel.symm) Finset.mem_insert_of_mem
    have hload : Ready (Loader.elfLoadFile fuel p.file p.heap true child ⟨vm, m.bytes⟩).store.vm
        (insert child spaces) ∧ Elsewhere r vm
        (Loader.elfLoadFile fuel p.file p.heap true child ⟨vm, m.bytes⟩).store.vm := by
      by_cases hvalid : p.heap = true ∧ Valid p.file
      · obtain ⟨hheap, hvalid⟩ := hvalid
        rw [hheap]
        obtain ⟨l, htakes, -⟩ := Loader.elfLoadFile_takes hvalid hlow hchild true fuel
          ⟨vm, m.bytes⟩
        exact hfresh.ready.takes_elsewhere htakes hfresh.mem hlive hne
      · rw [Loader.elfLoadFile_rejected hvalid]
        exact ⟨hfresh.ready, rfl, fun _ _ => rfl⟩
    obtain ⟨hready, hload⟩ := hload
    have hlive' : Live (Loader.elfLoadFile fuel p.file p.heap true child
        ⟨vm, m.bytes⟩).store.vm (insert child spaces) r :=
      hlive.imp (·.trans hload.kernel.symm) id
    exact ⟨hcreate.trans hload,
      (hcreate.trans hload).trans (hready.destroy_elsewhere hfresh.mem hlive' hne)⟩

/-- The machine behind the load, with what was borrowed given back. -/
def Machine.loaded (m : Machine) (fuel : Nat) (p : Program) : Machine :=
  ⟨{ m.os with vm := (m.load fuel p).store.vm }, (m.load fuel p).store.bytes, m.os.cr3⟩

/-- The task is made, or the new address space destroyed. -/
def Machine.finish (m : Machine) (fuel : Nat) (p : Program) (stack queued : Bool) :
    Option Nat × Machine :=
  let child := (vmmCreateAddressSpace m.os.vm).1
  let m' := m.loaded fuel p
  if (m.load fuel p).entry ≠ some 0 ∧ (m.load fuel p).stackTop ≠ 0 then
    let (cookie, os) := asCookieNext m'.os
    match createUserTask stack queued os child cookie with
    | (some tid, os) => (some tid, { m' with os := os })
    | (none, os) => (none, Machine.vmmDestroyTaskAs { m' with os := os } child)
  else (none, m'.vmmDestroyTaskAs child)

/-- Borrowing and giving back `pml4_phys` and CR3 leaves the caller as it was. -/
theorem borrowed_back {child : Nat} {store : Paging.Store} (caller : Option Nat)
    (hchild : child ≠ Pmm.physNull) (hcr3 : m.os.cr3 ≠ Pmm.physNull) :
    (({ (((m.setVm vm).setPml4 caller child).vmmSwitchPml4 child).setVm store.vm with
        bytes := store.bytes } : Machine).vmmSwitchPml4 m.os.cr3).setPml4 caller (m.pml4Of caller) =
      ⟨{ m.os with vm := store.vm }, store.bytes, m.os.cr3⟩ := by
  unfold Machine.vmmSwitchPml4
  rw [if_neg hchild, if_neg hcr3]
  cases caller with
  | none => rfl
  | some t =>
    have htasks : Function.update (Function.update m.os.tasks t
        { m.os.tasks t with pml4Phys := child }) t
        { Function.update m.os.tasks t { m.os.tasks t with pml4Phys := child } t with
          pml4Phys := (m.os.tasks t).pml4Phys } = m.os.tasks := by
      rw [Function.update_idem, Function.update_self]
      exact Function.update_eq_self t m.os.tasks
    simp only [Machine.setVm, Machine.setPml4, Machine.setCr3, Machine.pml4Of, setTask, htasks]

theorem Calls.cr3_ne (h : Calls m caller spaces) : m.os.cr3 ≠ Pmm.physNull := by
  rcases h.cr3 with heq | hmem
  · rw [heq]
    exact h.kernel
  · exact h.ready.ne_null hmem

/-- The call is the load with what comes after it. -/
theorem Calls.sysSpawn_eq (h : Calls m caller spaces) (hcopied : ¬p.copied = false)
    (hchild : (vmmCreateAddressSpace m.os.vm).1 ≠ Pmm.physNull) :
    m.sysSpawn fuel p stack queued caller =
      (m.load fuel p).entry.map fun _ => m.finish fuel p stack queued := by
  have hback : (({ (((m.setVm (vmmCreateAddressSpace m.os.vm).2).setPml4 caller
        (vmmCreateAddressSpace m.os.vm).1).vmmSwitchPml4 (vmmCreateAddressSpace m.os.vm).1).setVm
          (m.load fuel p).store.vm with
        bytes := (m.load fuel p).store.bytes } : Machine).vmmSwitchPml4 m.os.cr3).setPml4 caller
          (m.pml4Of caller) = m.loaded fuel p :=
    borrowed_back caller hchild h.cr3_ne
  have hload : Loader.elfLoadFile fuel p.file p.heap true (vmmCreateAddressSpace m.os.vm).1
      ⟨(((m.setVm (vmmCreateAddressSpace m.os.vm).2).setPml4 caller
        (vmmCreateAddressSpace m.os.vm).1).vmmSwitchPml4 (vmmCreateAddressSpace m.os.vm).1).os.vm,
      (((m.setVm (vmmCreateAddressSpace m.os.vm).2).setPml4 caller
        (vmmCreateAddressSpace m.os.vm).1).vmmSwitchPml4 (vmmCreateAddressSpace m.os.vm).1).bytes⟩ =
      m.load fuel p := by
    unfold Machine.load Machine.vmmSwitchPml4
    rw [if_neg hchild]
    cases caller with
    | none => rfl
    | some t => rfl
  have hown : (m.setVm (vmmCreateAddressSpace m.os.vm).2).pml4Of caller = m.pml4Of caller := by
    cases caller with
    | none => rfl
    | some t => rfl
  unfold Machine.sysSpawn Machine.finish
  rw [if_neg hcopied]
  dsimp only
  rw [if_neg hchild, hload, hown]
  cases (m.load fuel p).entry with
  | none => rfl
  | some e =>
  dsimp only
  have hcr3 : (m.setVm (vmmCreateAddressSpace m.os.vm).2).os.cr3 = m.os.cr3 := rfl
  rw [hcr3, hback, Option.map_some]
  by_cases hgo : e ≠ 0 ∧ (m.load fuel p).stackTop ≠ 0
  · have hgo' : some e ≠ some 0 ∧ (m.load fuel p).stackTop ≠ 0 :=
      ⟨fun hc => hgo.1 (Option.some.inj hc), hgo.2⟩
    rw [if_pos hgo, if_pos hgo']
    generalize createUserTask stack queued _ _ _ = out
    obtain ⟨tid, os⟩ := out
    cases tid with
    | none => rfl
    | some tid => rfl
  · have hgo' : ¬(some e ≠ some 0 ∧ (m.load fuel p).stackTop ≠ 0) := by
      rintro ⟨hne, htop⟩
      exact hgo ⟨fun hc => hne (congrArg some hc), htop⟩
    rw [if_neg hgo, if_neg hgo']

/-! ## The end of the call -/

theorem createUserTask_isSome (stack queued : Bool) (s : State) (pml4 cookie : Nat) :
    (createUserTask stack queued s pml4 cookie).1.isSome = true ↔ stack = true ∧
      (∃ t < maxTasks, 0 < t ∧ (s.tasks t).alive = false) ∧ queued = true := by
  unfold createUserTask
  by_cases hstack : stack = false
  · rw [if_pos hstack]
    simp [hstack]
  rw [if_neg hstack]
  rw [Bool.not_eq_false] at hstack
  cases hfind : (List.range maxTasks).find? fun i => 0 < i && !(s.tasks i).alive with
  | none =>
    have hno : ¬∃ t < maxTasks, 0 < t ∧ (s.tasks t).alive = false := by
      rintro ⟨t, hlt, hpos, hdead⟩
      have hnot := List.find?_eq_none.mp hfind t (List.mem_range.mpr hlt)
      simp [hpos, hdead] at hnot
    simp [hno]
  | some slot =>
    have hp := List.find?_some hfind
    have hlt := List.mem_range.mp (List.mem_of_find?_eq_some hfind)
    simp only [Bool.and_eq_true, decide_eq_true_eq, Bool.not_eq_true'] at hp
    have hslot : ∃ t < maxTasks, 0 < t ∧ (s.tasks t).alive = false := ⟨slot, hlt, hp⟩
    cases queued with
    | false => simp
    | true => simp [hstack, hslot]

/-- The memory, CR3 and the tasks that are alive have stayed. -/
structure Undisturbed (s s' : State) : Prop where
  vm : s'.vm = s.vm
  cr3 : s'.cr3 = s.cr3
  tasks : ∀ t, (s.tasks t).alive = true → s'.tasks t = s.tasks t

theorem createUserTask_undisturbed (stack queued : Bool) (s : State) (pml4 cookie : Nat) :
    Undisturbed s (createUserTask stack queued s pml4 cookie).2 := by
  rcases createUserTask_cases (show createUserTask stack queued s pml4 cookie = _ from rfl) with
    heq | ⟨slot, hdead, -, heq⟩
  · rw [heq]
    exact ⟨rfl, rfl, fun _ _ => rfl⟩
  · rw [heq]
    refine ⟨rfl, rfl, fun t ht => Function.update_of_ne ?_ _ _⟩
    rintro rfl
    rw [hdead] at ht
    cases ht

/-- The task is made exactly if all that it needs is there; else its address space is destroyed. -/
theorem Machine.finish_cases (m : Machine) (fuel : Nat) (p : Program) (stack queued : Bool) :
    ∃ os, Undisturbed (m.loaded fuel p).os os ∧
      (Loaded fuel p stack queued m ∧
          (∃ tid, m.finish fuel p stack queued = (some tid, { m.loaded fuel p with os := os })) ∨
        ¬Loaded fuel p stack queued m ∧ m.finish fuel p stack queued =
          (none, Machine.vmmDestroyTaskAs { m.loaded fuel p with os := os }
            (vmmCreateAddressSpace m.os.vm).1)) := by
  unfold Machine.finish
  dsimp only
  by_cases hload : (m.load fuel p).entry ≠ some 0 ∧ (m.load fuel p).stackTop ≠ 0
  · rw [if_pos hload]
    have hsome := createUserTask_isSome stack queued (asCookieNext (m.loaded fuel p).os).2
      (vmmCreateAddressSpace m.os.vm).1 (asCookieNext (m.loaded fuel p).os).1
    have hsame := createUserTask_undisturbed stack queued (asCookieNext (m.loaded fuel p).os).2
      (vmmCreateAddressSpace m.os.vm).1 (asCookieNext (m.loaded fuel p).os).1
    revert hsome hsame
    generalize createUserTask stack queued (asCookieNext (m.loaded fuel p).os).2
      (vmmCreateAddressSpace m.os.vm).1 (asCookieNext (m.loaded fuel p).os).1 = out
    obtain ⟨tid, os⟩ := out
    intro hsome hsame
    refine ⟨os, ⟨hsame.vm, hsame.cr3, hsame.tasks⟩, ?_⟩
    cases tid with
    | some tid =>
      obtain ⟨hstack, hslot, hqueued⟩ := hsome.mp rfl
      exact Or.inl ⟨⟨hload.1, hload.2, hstack, hslot, hqueued⟩, tid, rfl⟩
    | none =>
      refine Or.inr ⟨fun hc => ?_, rfl⟩
      exact Bool.false_ne_true (hsome.mpr ⟨hc.stack, hc.slot, hc.queued⟩)
  · rw [if_neg hload]
    refine ⟨(m.loaded fuel p).os, ⟨rfl, rfl, fun _ _ => rfl⟩, Or.inr ⟨?_, rfl⟩⟩
    exact fun hc => hload ⟨hc.entry, hc.stackTop⟩

/-- The caller, who is alive, has its PML4. -/
theorem Calls.pml4Of_eq (h : Calls m caller spaces)
    (htasks : ∀ t, (m.os.tasks t).alive = true → m'.os.tasks t = m.os.tasks t) :
    m'.pml4Of caller = m.pml4Of caller := by
  cases hself : caller with
  | none => rfl
  | some t =>
    show (m'.os.tasks t).pml4Phys = (m.os.tasks t).pml4Phys
    rw [htasks t (h.alive t hself)]

/-- The spaces of the caller. -/
theorem Calls.live (h : Calls m caller spaces) (hr : r = m.os.cr3 ∨ r = m.pml4Of caller)
    (hnull : r ≠ Pmm.physNull) : Live m.os.vm spaces r := by
  rcases hr with rfl | rfl
  · exact h.cr3
  · cases hself : caller with
    | none =>
      rw [hself] at hnull
      exact absurd rfl hnull
    | some t =>
      rw [hself] at hnull
      exact Or.inr (h.own t hself hnull)

theorem Returned.refl : Returned caller m ret m :=
  ⟨rfl, rfl, rfl, fun _ _ _ _ _ => rfl, fun _ _ => rfl⟩

/-- A task that has been made takes nothing from the caller. -/
theorem Calls.returned (h : Calls m caller spaces) (hlow : LowerHalf p.file)
    (hchild : (vmmCreateAddressSpace m.os.vm).1 ≠ Pmm.physNull) {os : State}
    (hos : Undisturbed (m.loaded fuel p).os os) (tid : Nat) :
    Returned caller m (some tid) { m.loaded fuel p with os := os } := by
  refine ⟨hos.cr3, h.recorded.symm, h.pml4Of_eq hos.tasks, ?_, fun hc => by cases hc⟩
  intro r hr hnull va hva
  obtain ⟨hload, -⟩ := h.load_elsewhere hlow hchild (h.live hr hnull) fuel
  rw [hos.vm]
  exact hload.page va hva

/-- What is left when the new address space is destroyed. -/
theorem Calls.destroyed_eq (h : Calls m caller spaces) (hlow : LowerHalf p.file)
    (hchild : (vmmCreateAddressSpace m.os.vm).1 ≠ Pmm.physNull) {os : State}
    (hos : Undisturbed (m.loaded fuel p).os os) :
    Machine.vmmDestroyTaskAs { m.loaded fuel p with os := os } (vmmCreateAddressSpace m.os.vm).1 =
      ⟨{ os with
          cr3 := m.os.vm.kernelPml4Phys
          vm := vmmDestroyAddressSpace (m.load fuel p).store.vm (vmmCreateAddressSpace m.os.vm).1
            true },
        (m.load fuel p).store.bytes, m.os.vm.kernelPml4Phys⟩ := by
  have hvm : os.vm = (m.load fuel p).store.vm := hos.vm
  have hkernel : os.vm.kernelPml4Phys = m.os.vm.kernelPml4Phys := by
    rw [hvm]
    exact (h.load_elsewhere hlow hchild (Or.inl rfl) fuel).1.kernel
  unfold Machine.vmmDestroyTaskAs Machine.vmmSwitchToKernelAs
  rw [if_neg hchild, if_neg (by rw [hkernel]; exact h.kernel)]
  show Machine.setVm (Machine.setCr3 _ os.vm.kernelPml4Phys)
    (vmmDestroyAddressSpace os.vm _ true) = _
  rw [hkernel, hvm]
  rfl

/-- A call that fails returns to the PML4 of the kernel. -/
theorem Calls.returned_iff (h : Calls m caller spaces) (hlow : LowerHalf p.file)
    (hchild : (vmmCreateAddressSpace m.os.vm).1 ≠ Pmm.physNull) {os : State}
    (hos : Undisturbed (m.loaded fuel p).os os) :
    Returned caller m none (Machine.vmmDestroyTaskAs { m.loaded fuel p with os := os }
        (vmmCreateAddressSpace m.os.vm).1) ↔
      m.os.cr3 = m.os.vm.kernelPml4Phys ∧ (p.heap = true → Valid p.file →
        NothingReplaced p.file true (vmmCreateAddressSpace m.os.vm).1 fuel
          ⟨(vmmCreateAddressSpace m.os.vm).2, m.bytes⟩) := by
  rw [h.destroyed_eq hlow hchild hos]
  constructor
  · intro hret
    exact ⟨hret.cr3.symm, (frames_back_iff h.ready rfl hchild hlow).mp (hret.frames rfl)⟩
  · rintro ⟨hcr3, hnew⟩
    refine ⟨hcr3.symm, (h.recorded.trans hcr3).symm, h.pml4Of_eq hos.tasks, ?_,
      fun _ => (frames_back_iff h.ready rfl hchild hlow).mpr hnew⟩
    intro r hr hnull va hva
    exact (h.load_elsewhere hlow hchild (h.live hr hnull) fuel).2.page va hva

/-- Without memory for a PML4 nothing has happened. -/
theorem Calls.sysSpawn_null (h : Calls m caller spaces) (hcopied : ¬p.copied = false)
    (hchild : (vmmCreateAddressSpace m.os.vm).1 = Pmm.physNull) :
    m.sysSpawn fuel p stack queued caller = some (none, m) := by
  have hvm : (vmmCreateAddressSpace m.os.vm).2 = m.os.vm := by
    rcases h.ready.create with heq | ⟨child, vm, heq, hne, -, -⟩
    · rw [heq]
    · rw [heq] at hchild
      exact absurd hchild hne
  unfold Machine.sysSpawn
  rw [if_neg hcopied]
  dsimp only
  rw [if_pos hchild, hvm]
  rfl

/-- A load that returns has ended well exactly if the file can be loaded and its frames are free. -/
theorem Calls.loaded_iff (h : Calls m caller spaces) (hlow : LowerHalf p.file)
    (hchild : (vmmCreateAddressSpace m.os.vm).1 ≠ Pmm.physNull)
    (hreturns : (m.load fuel p).entry ≠ none) :
    Loaded fuel p stack queued m ↔ Starts p stack queued m := by
  have hpair := (Prod.mk.eta (p := vmmCreateAddressSpace m.os.vm)).symm
  obtain ⟨hfresh, hcard⟩ := freshSpace h.ready hpair hchild
  have hframes := fun hvalid (hclass : p.file.elfClass = 2) hacc => Loader.load64_frames m.bytes
    (Loader.spent_fresh h.ready hpair hchild) hvalid hclass hacc fuel
  have haccepted : Loadable p.file → p.file.elfClass = 2 →
      ∀ ph ∈ Loader.headers p.file, p.file.accepts ph = true ∧ Loader.InLowerHalf ph := by
    intro hfile hclass ph hph
    refine ⟨hfile.accepted ph hph, hlow (hfile.valid.elf64 hclass) ph ?_⟩
    have hheaders := Loader.headers64 hclass
    rw [Loader.accepted_eq (hheaders ▸ hfile.accepted), ← hheaders]
    exact hph
  unfold Machine.load at hreturns
  constructor
  · intro hl
    have hentry := hl.entry
    have htop := hl.stackTop
    unfold Machine.load at hentry htop
    obtain ⟨e, he⟩ := Option.ne_none_iff_exists'.mp hreturns
    have hne : e ≠ 0 := by
      rintro rfl
      exact hentry he
    obtain ⟨hheap, -⟩ := Loader.valid_of_entry he hne
    obtain ⟨hfile, hloads⟩ := Loader.elfLoadFile_entry hfresh hlow he hne
    have hclass : p.file.elfClass = 2 := by
      by_contra hclass
      have hnone : Loader.stackOf p.file true = false := by
        unfold Loader.stackOf
        rw [decide_eq_false hclass, Bool.false_and]
      exact htop (hloads.stackTop.trans (if_neg (by rw [hnone]; exact Bool.false_ne_true)))
    have hall := hframes hfile.valid hclass (haccepted hfile hclass)
    rw [hheap] at hreturns he
    rcases hall with hnone | ⟨hsome, -, hroom⟩ | ⟨hzero, -⟩
    · exact absurd hnone hreturns
    · rw [he] at hsome
      exact ⟨hheap, hfile, hclass, Option.some.inj hsome ▸ hne, by omega, hl.stack, hl.slot,
        hl.queued⟩
    · rw [he] at hzero
      exact absurd (Option.some.inj hzero) hne
  · intro hs
    have hroom := hs.frames
    have htop : Elf.userStackTop ≠ 0 := by decide
    rw [hs.heap] at hreturns
    rcases hframes hs.file.valid hs.class64 (haccepted hs.file hs.class64) with
      hnone | ⟨hsome, hstackTop, -⟩ | ⟨-, hshort⟩
    · exact absurd hnone hreturns
    · refine ⟨?_, ?_, hs.stack, hs.slot, hs.queued⟩
      · unfold Machine.load
        rw [hs.heap, hsome]
        exact fun hc => hs.entry (Option.some.inj hc)
      · unfold Machine.load
        rw [hs.heap, hstackTop]
        exact htop
    · omega

theorem Calls.returns (h : Calls m caller spaces) (hlow : LowerHalf p.file)
    (hrestores : Restores p stack queued m) : SpawnReturns fuel p stack queued caller m := by
  intro ret m' heq
  by_cases hcopied : p.copied = false
  · unfold Machine.sysSpawn at heq
    rw [if_pos hcopied] at heq
    cases heq
    exact .refl
  by_cases hchild : (vmmCreateAddressSpace m.os.vm).1 = Pmm.physNull
  · rw [h.sysSpawn_null hcopied hchild] at heq
    cases heq
    exact .refl
  rw [h.sysSpawn_eq hcopied hchild] at heq
  obtain ⟨e, hentry, hfinish⟩ := Option.map_eq_some_iff.mp heq
  obtain ⟨os, hos, ⟨hloaded, tid, hdone⟩ | ⟨hno, hdone⟩⟩ := m.finish_cases fuel p stack queued
  · rw [hdone] at hfinish
    cases hfinish
    exact h.returned hlow hchild hos tid
  · rw [hdone] at hfinish
    cases hfinish
    refine (h.returned_iff hlow hchild hos).mpr ?_
    rcases hrestores with hc | hc | hc | ⟨hkernel, honce⟩
    · exact absurd hc hcopied
    · exact absurd (h.ready.create_null_iff.mpr hc) hchild
    · exact absurd ((h.loaded_iff hlow hchild (by rw [hentry]; exact Option.some_ne_none e)).mpr hc)
        hno
    · obtain ⟨hfresh, -⟩ := freshSpace h.ready
        (Prod.mk.eta (p := vmmCreateAddressSpace m.os.vm)).symm hchild
      exact ⟨hkernel, fun hheap hvalid => (honce hheap).nothingReplaced hlow hvalid hfresh⟩

/-- A caller that has everything back meets the condition, unless it runs on the PML4 of the kernel
and the file is one whose loops meet a page twice. -/
theorem Calls.restores (h : Calls m caller spaces) (hlow : LowerHalf p.file)
    (hrun : m.sysSpawn fuel p stack queued caller = some (ret, m'))
    (hreturned : Returned caller m ret m') : Restores p stack queued m ∨
      m.os.cr3 = m.os.vm.kernelPml4Phys ∧ p.heap = true ∧ ¬MeetsOnce p.file true := by
  by_cases hcopied : p.copied = false
  · exact Or.inl (Or.inl hcopied)
  by_cases hchild : (vmmCreateAddressSpace m.os.vm).1 = Pmm.physNull
  · exact Or.inl (Or.inr (Or.inl (h.ready.create_null_iff.mp hchild)))
  rw [h.sysSpawn_eq hcopied hchild] at hrun
  obtain ⟨e, hentry, hfinish⟩ := Option.map_eq_some_iff.mp hrun
  obtain ⟨os, hos, ⟨hloaded, -⟩ | ⟨hno, hdone⟩⟩ := m.finish_cases fuel p stack queued
  · exact Or.inl (Or.inr (Or.inr (Or.inl ((h.loaded_iff hlow hchild
      (by rw [hentry]; exact Option.some_ne_none e)).mp hloaded))))
  · rw [hdone] at hfinish
    cases hfinish
    obtain ⟨hkernel, -⟩ := (h.returned_iff hlow hchild hos).mp hreturned
    by_cases honce : p.heap = true → MeetsOnce p.file true
    · exact Or.inl (Or.inr (Or.inr (Or.inr ⟨hkernel, honce⟩)))
    · exact Or.inr ⟨hkernel, Classical.not_imp.mp honce⟩

theorem vmmDestroyTaskAs_os (m : Machine) (pml4 : Nat) :
    (m.vmmDestroyTaskAs pml4).os = vmmDestroyTaskAs m.os pml4 := by
  unfold Machine.vmmDestroyTaskAs Machine.vmmSwitchToKernelAs Proc.vmmDestroyTaskAs
    Proc.vmmSwitchToKernelAs
  split_ifs
  · rfl
  · rfl
  · rfl

/-- Without what is borrowed, this is the call of the runs. -/
theorem Calls.sysSpawn_os (h : Calls m caller spaces)
    (hrun : m.sysSpawn fuel p stack queued caller = some (ret, m')) :
    sysSpawn fuel p stack queued m.os = some (ret, m'.os) := by
  unfold Proc.sysSpawn
  by_cases hcopied : p.copied = false
  · unfold Machine.sysSpawn at hrun
    rw [if_pos hcopied] at hrun ⊢
    cases hrun
    rfl
  rw [if_neg hcopied]
  by_cases hchild : (vmmCreateAddressSpace m.os.vm).1 = Pmm.physNull
  · rw [h.sysSpawn_null hcopied hchild] at hrun
    cases hrun
    rcases h.ready.create with heq | ⟨child, vm, heq, hne, -, -⟩
    · rw [heq]
      exact if_pos rfl
    · rw [heq] at hchild
      exact absurd hchild hne
  rw [h.sysSpawn_eq hcopied hchild] at hrun
  obtain ⟨e, hentry, hfinish⟩ := Option.map_eq_some_iff.mp hrun
  obtain ⟨he, htop, hvm⟩ := Loader.elfLoadFile_load fuel p.file p.heap true
    (vmmCreateAddressSpace m.os.vm).1 ⟨(vmmCreateAddressSpace m.os.vm).2, m.bytes⟩ e hentry
  have hload : loadProgram fuel p { m.os with vm := (vmmCreateAddressSpace m.os.vm).2 }
      (vmmCreateAddressSpace m.os.vm).1 = some (Elf.elfLoadFile fuel p.file p.heap true
        (vmmCreateAddressSpace m.os.vm).1 (vmmCreateAddressSpace m.os.vm).2,
      (m.loaded fuel p).os) := by
    unfold loadProgram
    dsimp only at he hvm ⊢
    rw [if_neg (by rw [he]; exact Option.some_ne_none e), hvm]
    rfl
  dsimp only at he htop ⊢
  rw [if_neg hchild, hload]
  unfold Machine.finish at hfinish
  dsimp only at hfinish
  show (if _ then _ else _) = _
  rw [he, htop]
  rw [hentry] at hfinish
  change (if some e ≠ some 0 ∧ (m.load fuel p).stackTop ≠ 0 then _ else _) = _
  split_ifs at hfinish ⊢
  · revert hfinish
    generalize createUserTask stack queued _ _ _ = out
    obtain ⟨tid, os⟩ := out
    intro hfinish
    cases tid with
    | some tid =>
      cases hfinish
      rfl
    | none =>
      cases hfinish
      rw [vmmDestroyTaskAs_os]
      rfl
  · cases hfinish
    rw [vmmDestroyTaskAs_os]
    rfl

/-- A caller of `sys_spawn` for a file below the kernel's half has everything back when the call
returns if the condition holds before. If it does not hold, the caller has not, unless it runs on the
PML4 of the kernel and the file is one whose loops meet a page twice. What the call does to the
system is what it does in the runs. -/
theorem spawn_returns (p : Program) (stack queued : Bool) (caller : Option Nat) (m : Machine)
    (spaces : Finset Nat) (h : Calls m caller spaces) (fuel : Nat) :
    (LowerHalf p.file ∧ Restores p stack queued m →
      SpawnReturns fuel p stack queued caller m) ∧
    (LowerHalf p.file → ∀ ret m', m.sysSpawn fuel p stack queued caller = some (ret, m') →
      Returned caller m ret m' → Restores p stack queued m ∨
        m.os.cr3 = m.os.vm.kernelPml4Phys ∧ p.heap = true ∧ ¬MeetsOnce p.file true) ∧
    ∀ ret m', m.sysSpawn fuel p stack queued caller = some (ret, m') →
      sysSpawn fuel p stack queued m.os = some (ret, m'.os) :=
  ⟨fun hc => h.returns hc.1 hc.2, fun hlow _ _ => h.restores hlow, fun _ _ => h.sysSpawn_os⟩

/-! ## A file that does not exist -/

theorem missingProgram_lowerHalf : LowerHalf missingProgram.file := fun h => absurd rfl h.1

theorem missingProgram_meetsOnce : MeetsOnce missingProgram.file true where
  blocks := fun hvalid => absurd rfl hvalid.size
  stack := fun hfile => absurd rfl hfile.valid.size

theorem missingProgram_load (m : Machine) (fuel : Nat) :
    (m.load fuel missingProgram).entry = some 0 := by
  unfold Machine.load Loader.elfLoadFile
  dsimp only
  rw [if_pos (show missingProgram.file.size = 0 from rfl)]

/-- The shell, which runs on the PML4 of the kernel, spawns it. -/
theorem spawnReturns_shell :
    SpawnReturns 0 missingProgram true true (some 1) ⟨smallState, fun _ => 0, smallState.cr3⟩ := by
  have hcalls : Calls ⟨smallState, fun _ => 0, smallState.cr3⟩ (some 1) ∅ := by
    refine ⟨smallState_boot.vm, by decide, Or.inl rfl, rfl, ?_, ?_⟩
    · intro t ht
      cases ht
      rfl
    · intro t _ hne
      exact absurd rfl hne
  apply (spawn_returns missingProgram true true (some 1) _ ∅ hcalls 0).1
  exact ⟨missingProgram_lowerHalf,
    Or.inr (Or.inr (Or.inr ⟨rfl, fun _ => missingProgram_meetsOnce⟩))⟩

/-- Task 1 of the small machine with an address space of its own. -/
def userState (pml4 : Nat) (vm : Paging.State) : State :=
  { smallState with
    vm := vm
    cr3 := pml4
    tasks := fun t => ⟨if t = 1 then pml4 else Pmm.physNull, 0, false, t == 1, [], 0⟩ }

theorem userState_calls {pml4 : Nat} (hready : Ready vm {pml4})
    (hkernel : vm.kernelPml4Phys ≠ Pmm.physNull) :
    Calls ⟨userState pml4 vm, fun _ => 0, pml4⟩ (some 1) {pml4} := by
  refine ⟨hready, hkernel, Or.inr (Finset.mem_singleton_self _), rfl, ?_, ?_⟩
  · intro t ht
    cases ht
    rfl
  · intro t ht _
    cases ht
    exact Finset.mem_singleton_self _

/-- It spawns a file that does not exist, and returns to the PML4 of the kernel. -/
theorem spawnReturns_stranded : ∃ pml4 vm, vmmCreateAddressSpace Paging.smallSys.vm = (pml4, vm) ∧
    Calls ⟨userState pml4 vm, fun _ => 0, pml4⟩ (some 1) {pml4} ∧
      ¬SpawnReturns 0 missingProgram true true (some 1) ⟨userState pml4 vm, fun _ => 0, pml4⟩ := by
  have hne : (vmmCreateAddressSpace Paging.smallSys.vm).1 ≠ Pmm.physNull := by decide
  have hother : (vmmCreateAddressSpace Paging.smallSys.vm).1 ≠
      (vmmCreateAddressSpace Paging.smallSys.vm).2.kernelPml4Phys := by decide +kernel
  have hkernel : (vmmCreateAddressSpace Paging.smallSys.vm).2.kernelPml4Phys ≠ Pmm.physNull := by
    decide +kernel
  have hmore : (vmmCreateAddressSpace (vmmCreateAddressSpace Paging.smallSys.vm).2).1 ≠
      Pmm.physNull := by decide +kernel
  cases hpair : vmmCreateAddressSpace Paging.smallSys.vm with
  | mk pml4 vm =>
    rw [hpair] at hne hother hkernel hmore
    have hboot : Ready Paging.smallSys.vm ∅ := smallState_boot.vm
    have hfresh := (freshSpace hboot hpair hne).1.ready
    rw [insert_empty_eq] at hfresh
    have hcalls := userState_calls hfresh hkernel
    refine ⟨pml4, vm, rfl, hcalls, fun hreturns => ?_⟩
    obtain ⟨ret, m', hrun⟩ : ∃ ret m', Machine.sysSpawn 0 missingProgram true true (some 1)
        ⟨userState pml4 vm, fun _ => 0, pml4⟩ = some (ret, m') := by
      rw [hcalls.sysSpawn_eq (by decide) hmore, missingProgram_load]
      exact ⟨_, _, rfl⟩
    rcases hcalls.restores missingProgram_lowerHalf hrun (hreturns _ _ hrun) with
      (hc | hc | hc | ⟨hc, -⟩) | ⟨hc, -⟩
    · cases hc
    · exact hmore (hcalls.ready.create_null_iff.mpr hc)
    · exact absurd rfl hc.file.valid.size
    · exact hother hc
    · exact hother hc

end Kyuzen.Proc
