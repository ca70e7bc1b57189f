import Kyuzen.Paging.Spaces

/-!
# The system

A `Sys` is the virtual memory manager together with what its callers keep: the address spaces
that exist, and the frames that somebody got from the physical memory manager and has neither
given back nor handed over to an address space. `exec` runs one call; frames move between the
callers and the lower halves of the address spaces as the calls map and unmap them.

In every run whose calls name existing address spaces and in which the physical memory manager
hands out no table (`FreshCalls`), the tables keep their shape (`reach_ok`).
-/

namespace Kyuzen.Paging

open Lib.Radix

structure Sys where
  vm : State
  spaces : Finset Nat
  held : Finset Nat

namespace Sys

variable (x : Sys)

/-- All PML4s. -/
def live : Finset Nat := insert x.vm.kernelPml4Phys x.spaces

/-- The upper half of every PML4. -/
def top : Fin 512 → Nat := x.vm.mem x.vm.kernelPml4Phys

def Fresh : Prop := Paging.Fresh x.vm x.live x.top

/-- The page of `va` in the lower half of a created address space. -/
def UserPage (r va : Nat) : Prop := r ∈ x.spaces ∧ (pml4Idx va).val < 256

instance (r va : Nat) : Decidable (x.UserPage r va) := inferInstanceAs (Decidable (_ ∧ _))

end Sys

inductive Op where
  | create
  | destroy (r : Nat) (freePml4 : Bool)
  | map (va paddr flags : Nat)
  | mapKernel (va paddr flags : Nat)
  | mapInto (va paddr flags target : Nat)
  | allocKernel (va flags : Nat)
  | allocInto (va flags target : Nat)
  | unmap (va : Nat)
  | unmapFrom (va target : Nat)
  | alloc
  | free (addr : Nat)

def exec (x : Sys) : Op → Sys
  | .create =>
    let out := vmmCreateAddressSpace x.vm
    { x with
      vm := out.2
      spaces := if out.1 = Pmm.physNull then x.spaces else insert out.1 x.spaces }
  | .destroy r freePml4 =>
    { x with
      vm := vmmDestroyAddressSpace x.vm r freePml4
      spaces := if freePml4 then x.spaces.erase r else x.spaces }
  | .map va paddr flags => { x with vm := (vmmMapPage x.vm va paddr flags).2 }
  | .mapKernel va paddr flags => { x with vm := (vmmMapPageKernel x.vm va paddr flags).2 }
  | .mapInto va paddr flags target =>
    let out := vmmMapPageInto x.vm va paddr flags target
    { x with
      vm := out.2
      held := if out.1 ∧ x.UserPage target va then x.held.erase paddr else x.held }
  | .allocKernel va flags =>
    let out := vmmAllocPageKernel x.vm va flags
    { x with
      vm := out.2
      held := if out.1 then insert (allocPage x.vm).1 x.held else x.held }
  | .allocInto va flags target =>
    let out := vmmAllocPageInto x.vm va flags target
    { x with
      vm := out.2
      held := if out.1 ∧ ¬ x.UserPage target va then insert (allocPage x.vm).1 x.held
        else x.held }
  | .unmap va => { x with vm := (vmmUnmapPage x.vm va).2 }
  | .unmapFrom va target =>
    let out := vmmUnmapPageFrom x.vm va target
    { x with
      vm := out.2
      held := if out.1 ≠ Pmm.physNull ∧ x.UserPage target va then insert out.1 x.held
        else x.held }
  | .alloc =>
    let out := allocPage x.vm
    { x with
      vm := out.2
      held := if out.1 = Pmm.physNull then x.held else insert out.1 x.held }
  | .free addr => { x with vm := freePage x.vm addr, held := x.held.erase addr }

/-- The address spaces that a call names exist. -/
def Op.Targets (x : Sys) : Op → Prop
  | .destroy r _ => r ∈ x.spaces
  | .mapInto _ _ _ target => target = Pmm.physNull ∨ target ∈ x.live
  | .allocInto _ _ target => target = Pmm.physNull ∨ target ∈ x.live
  | .unmapFrom _ target => target = Pmm.physNull ∨ target ∈ x.live
  | _ => True

/-- The states of the runs from `init_paging` whose calls all meet `P`. -/
inductive Reach (P : Sys → Op → Prop) : Sys → Prop
  | boot {s s' : State} {cr3 : Nat} {held : Finset Nat} (h : BootTables s (pageMask cr3))
      (hheld : ∀ f ∈ held, PmmUsed s.pmm f ∧
        ∀ a p, tableAt s {pageMask cr3} (s.mem (pageMask cr3)) a p ≠ some f)
      (hrun : initPaging cr3 s = some s') : Reach P ⟨s', ∅, held⟩
  | step {x : Sys} {op : Op} (h : Reach P x) (hp : P x op) : Reach P (exec x op)

/-! ## The shape of the tables in a run -/

variable {s s' : State} {live : Finset Nat} {top : Fin 512 → Nat} {x : Sys}

/-- Only the upper half of `top` counts. -/
theorem roots_congr {top' : Fin 512 → Nat} (h : ∀ i : Fin 512, 256 ≤ i.val → top' i = top i) :
    roots live top' = roots live top := by
  funext a
  cases a with
  | space r => rfl
  | kernel i =>
    by_cases hi : 256 ≤ i.val
    · simp only [roots, h i hi]
    · simp [roots, hi]

theorem Shape.roots_top (h : Shape s live top) :
    roots live (s.mem s.kernelPml4Phys) = roots live top :=
  roots_congr fun i hi => h.top_eq _ h.kernel i hi

theorem Shape.fresh_top (h : Shape s live top) :
    Fresh s live (s.mem s.kernelPml4Phys) ↔ Fresh s live top := by
  unfold Fresh tableAt
  rw [h.roots_top]

/-- The tables have their shape, with the upper half `top`. -/
structure Ok (x : Sys) (top : Fin 512 → Nat) : Prop where
  shape : Shape x.vm x.live top
  kernel : x.vm.kernelPml4Phys ∉ x.spaces

theorem Ok.fresh (h : Ok x top) : x.Fresh ↔ Fresh x.vm x.live top := h.shape.fresh_top

theorem Ok.kernel_mem (x : Sys) : x.vm.kernelPml4Phys ∈ x.live := Finset.mem_insert_self _ _

/-- A call that creates and destroys no address space. -/
theorem Ok.congr (h : Ok x top) {held : Finset Nat} (hs : Shape s' x.live top)
    (hk : s'.kernelPml4Phys = x.vm.kernelPml4Phys) : Ok ⟨s', x.spaces, held⟩ top := by
  refine ⟨?_, ?_⟩
  · unfold Sys.live
    rw [hk]
    exact hs
  · rw [hk]
    exact h.kernel

/-- The state after a mapping call, whatever it returned. -/
theorem mapPage_shape (h : Shape s live top) (hf : Fresh s live top) {r : Nat} (hr : r ∈ live)
    (va paddr flags : Nat) : Shape (mapPage s va paddr flags r).2 live top ∧
      Fresh (mapPage s va paddr flags r).2 live top ∧
      (mapPage s va paddr flags r).2.kernelPml4Phys = s.kernelPml4Phys := by
  rcases mapPage_cases h hf hr va paddr flags with ⟨s', heq, hg⟩ | ⟨s', pt, hg, hpt, heq⟩
  · rw [heq]
    exact ⟨hg.shape, hg.fresh, hg.kernel⟩
  · obtain ⟨hw, _⟩ := setEntry_written hg.shape hg.fresh hpt (dirPath_length r va) (ptIdx va)
      (pageMask paddr ||| flags)
    rw [heq]
    exact ⟨hw.shape, hw.fresh, hw.kernel.trans hg.kernel⟩

theorem mapInto_shape (h : Shape s live top) (hf : Fresh s live top) {target : Nat}
    (ht : target = Pmm.physNull ∨ target ∈ live) (va paddr flags : Nat) :
    Shape (vmmMapPageInto s va paddr flags target).2 live top ∧
      Fresh (vmmMapPageInto s va paddr flags target).2 live top ∧
      (vmmMapPageInto s va paddr flags target).2.kernelPml4Phys = s.kernelPml4Phys := by
  unfold vmmMapPageInto
  split_ifs with hnull
  · exact ⟨h, hf, rfl⟩
  · exact mapPage_shape h hf (ht.resolve_left hnull) va paddr flags

theorem vmmMapPage_eq (h : Shape s live top) (va paddr flags : Nat) :
    vmmMapPage s va paddr flags = mapPage s va paddr flags s.kernelPml4Phys := by
  rw [vmmMapPage, h.current]

theorem Shape.congr_pmm (h : Shape s live top) {p : Pmm.State} {w : List Pmm.Warning}
    (hp : Pmm.Inv p) : Shape { s with pmm := p, warnings := w } live top :=
  ⟨h.current, h.kernel, h.top_eq, h.top_table, h.lower, h.separate, hp⟩

theorem freePage_shape (h : Shape s live top) (addr : Nat) : Shape (freePage s addr) live top :=
  h.congr_pmm (freePage_inv h.pmm addr)

theorem allocPage_shape (h : Shape s live top) (hf : Fresh s live top) :
    Shape (allocPage s).2 live top ∧ Fresh (allocPage s).2 live top := by
  rcases allocPage_cases h.pmm with ⟨m, _, _, hinv, heq⟩ | heq
  · rw [heq]
    refine ⟨h.congr_pmm (w := s.warnings) hinv, fun a p n hn hfree => ?_⟩
    exact hf a p n hn (PmmFree.of_take hfree).1
  · rw [heq]
    exact ⟨h, hf⟩

/-- The two allocating calls. -/
theorem allocAndMap_shape (h : Shape s live top) (hf : Fresh s live top)
    (map : State → Nat → Bool × State)
    (hmap : ∀ s' paddr, Shape s' live top → Fresh s' live top →
      s'.kernelPml4Phys = s.kernelPml4Phys →
      Shape (map s' paddr).2 live top ∧ (map s' paddr).2.kernelPml4Phys = s'.kernelPml4Phys) :
    Shape (allocAndMap map s).2 live top ∧
      (allocAndMap map s).2.kernelPml4Phys = s.kernelPml4Phys := by
  obtain ⟨h₁, hf₁⟩ := allocPage_shape h hf
  obtain ⟨h₂, hk₂⟩ := hmap (allocPage s).2 (allocPage s).1 h₁ hf₁ rfl
  unfold allocAndMap
  dsimp only
  split_ifs
  · exact ⟨h₁, rfl⟩
  · cases hout : map (allocPage s).2 (allocPage s).1 with
    | mk ok s' =>
      rw [hout] at h₂ hk₂
      cases ok with
      | true => exact ⟨h₂, hk₂⟩
      | false => exact ⟨freePage_shape h₂ _, hk₂⟩

theorem unmapPage_shape (h : Shape s live top) (hf : Fresh s live top) {r : Nat} (hr : r ∈ live)
    (va : Nat) : Shape (unmapPage s va r).2 live top ∧
      (unmapPage s va r).2.kernelPml4Phys = s.kernelPml4Phys := by
  rcases unmapPage_cases h hr va with ⟨heq, _⟩ | ⟨pt, e, hpt, _, heq⟩
  · rw [heq]
    exact ⟨h, rfl⟩
  · rw [heq]
    exact ⟨(setEntry_written h hf hpt (dirPath_length r va) (ptIdx va) 0).1.shape, rfl⟩

theorem targetPml4_mem (h : Shape s live top) {target : Nat}
    (ht : target = Pmm.physNull ∨ target ∈ live) :
    ∃ r ∈ live, targetPml4 s target = some r := by
  unfold targetPml4
  split_ifs with hnull
  · exact ⟨target, ht.resolve_left hnull, rfl⟩
  · exact ⟨_, h.kernel, h.current⟩

theorem unmapFrom_snd {r target va : Nat} (ht : targetPml4 s target = some r) :
    (vmmUnmapPageFrom s va target).2 = (unmapPage s va r).2 := by
  rw [vmmUnmapPageFrom, ht]
  dsimp only
  cases unmapPage s va r with
  | mk o s' => cases o <;> rfl

theorem vmmUnmapPage_snd (h : Shape s live top) (va : Nat) :
    (vmmUnmapPage s va).2 = (unmapPage s va s.kernelPml4Phys).2 := by
  rw [vmmUnmapPage, h.current]

theorem allocKernel_shape (h : Shape s live top) (hf : Fresh s live top) (va flags : Nat) :
    Shape (vmmAllocPageKernel s va flags).2 live top ∧
      (vmmAllocPageKernel s va flags).2.kernelPml4Phys = s.kernelPml4Phys := by
  refine allocAndMap_shape h hf _ fun s' paddr hs' hf' _ => ?_
  have hm := mapInto_shape hs' hf' (Or.inr hs'.kernel) va paddr flags
  exact ⟨hm.1, hm.2.2⟩

theorem allocInto_shape (h : Shape s live top) (hf : Fresh s live top) {target : Nat}
    (ht : target = Pmm.physNull ∨ target ∈ live) (va flags : Nat) :
    Shape (vmmAllocPageInto s va flags target).2 live top ∧
      (vmmAllocPageInto s va flags target).2.kernelPml4Phys = s.kernelPml4Phys := by
  refine allocAndMap_shape h hf _ fun s' paddr hs' hf' _ => ?_
  split_ifs with hnull
  · have hm := mapInto_shape hs' hf' ht va paddr flags
    exact ⟨hm.1, hm.2.2⟩
  · rw [vmmMapPage_eq hs']
    have hm := mapPage_shape hs' hf' hs'.kernel va paddr flags
    exact ⟨hm.1, hm.2.2⟩

theorem Ok.create (h : Ok x top) (hf : Fresh x.vm x.live top) : Ok (exec x .create) top := by
  rcases createSpace_cases h.shape hf with heq | ⟨m, s', heq, hc⟩
  · simp only [exec, heq, if_true]
    exact h
  · have hne : m ≠ Pmm.physNull := by
      have h1 := hc.above
      have h2 : Pmm.kernelZone = 0x4800000 := rfl
      have h3 : Pmm.physNull = 0 := rfl
      omega
    simp only [exec, heq, if_neg hne]
    refine ⟨?_, ?_⟩
    · have hlive : Sys.live ⟨s', insert m x.spaces, x.held⟩ = insert m x.live := by
        unfold Sys.live
        dsimp only
        rw [hc.kernel, Finset.insert_comm]
      rw [hlive]
      exact hc.shape
    · dsimp only
      rw [hc.kernel, Finset.mem_insert, not_or]
      refine ⟨?_, h.kernel⟩
      rintro rfl
      exact hc.notMem (Ok.kernel_mem x)

theorem Ok.destroy (h : Ok x top) {r : Nat} (hr : r ∈ x.spaces) (freePml4 : Bool) :
    Ok (exec x (.destroy r freePml4)) top := by
  have hd := destroySpace_destroyed h.shape (Finset.mem_insert_of_mem hr) freePml4
  have hkernel : (exec x (.destroy r freePml4)).vm.kernelPml4Phys = x.vm.kernelPml4Phys :=
    hd.cleared.kernel
  have hsub : (exec x (.destroy r freePml4)).spaces ⊆ x.spaces := by
    simp only [exec]
    split_ifs
    · exact Finset.erase_subset r x.spaces
    · exact Finset.Subset.refl _
  refine ⟨hd.shape _ ?_ ?_, ?_⟩
  · unfold Sys.live
    rw [hkernel]
    exact Finset.insert_subset_insert _ hsub
  · rw [← hkernel]
    exact Ok.kernel_mem _
  · rw [hkernel]
    exact fun hmem => h.kernel (hsub hmem)

/-- Every call on existing address spaces keeps the shape, when no table can be handed out. -/
theorem exec_ok (h : Ok x top) (hf : x.Fresh) {op : Op} (ht : op.Targets x) :
    Ok (exec x op) top := by
  rw [h.fresh] at hf
  have hk := Ok.kernel_mem x
  cases op with
  | create => exact h.create hf
  | destroy r freePml4 => exact h.destroy ht freePml4
  | map va paddr flags =>
    have hm := mapPage_shape h.shape hf hk va paddr flags
    simp only [exec, vmmMapPage_eq h.shape]
    exact h.congr hm.1 hm.2.2
  | mapKernel va paddr flags =>
    have hm := mapInto_shape h.shape hf (Or.inr hk) va paddr flags
    exact h.congr hm.1 hm.2.2
  | mapInto va paddr flags target =>
    have hm := mapInto_shape h.shape hf ht va paddr flags
    exact h.congr hm.1 hm.2.2
  | allocKernel va flags =>
    have hm := allocKernel_shape h.shape hf va flags
    exact h.congr hm.1 hm.2
  | allocInto va flags target =>
    have hm := allocInto_shape h.shape hf ht va flags
    exact h.congr hm.1 hm.2
  | unmap va =>
    have hu := unmapPage_shape h.shape hf hk va
    simp only [exec, vmmUnmapPage_snd h.shape]
    exact h.congr hu.1 hu.2
  | unmapFrom va target =>
    obtain ⟨r, hr, htarget⟩ := targetPml4_mem h.shape ht
    have hu := unmapPage_shape h.shape hf hr va
    simp only [exec, unmapFrom_snd htarget]
    exact h.congr hu.1 hu.2
  | alloc => exact h.congr (allocPage_shape h.shape hf).1 rfl
  | free addr => exact h.congr (freePage_shape h.shape addr) rfl

/-- The calls name existing address spaces, and no table can be handed out. -/
def FreshCalls (x : Sys) (op : Op) : Prop := op.Targets x ∧ x.Fresh

theorem boot_ok {s s' : State} {cr3 : Nat} {held : Finset Nat}
    (h : BootTables s (pageMask cr3)) (hrun : initPaging cr3 s = some s') :
    Ok ⟨s', ∅, held⟩ (s'.mem (pageMask cr3)) ∧
      Fresh s' (Sys.live ⟨s', ∅, held⟩) (s'.mem (pageMask cr3)) := by
  obtain ⟨hk, hs, hf, _⟩ := initPaging_shape h hrun
  have hlive : Sys.live ⟨s', ∅, held⟩ = {pageMask cr3} := by
    unfold Sys.live
    rw [hk]
    rfl
  rw [hlive]
  exact ⟨⟨by rw [hlive]; exact hs, Finset.notMem_empty _⟩, hf⟩

theorem reach_ok (h : Reach FreshCalls x) : ∃ top, Ok x top := by
  induction h with
  | boot hb _ hrun => exact ⟨_, (boot_ok hb hrun).1⟩
  | step _ hp ih =>
    obtain ⟨top, hok⟩ := ih
    exact ⟨top, exec_ok hok hp.2 hp.1⟩

/-! ## A small machine -/

/-- The physical memory manager of a machine with eight pages behind the kernel zone, the first
of which holds the bitmap. -/
def smallPmm : Pmm.State where
  ready := true
  bitmap i := if i < 2304 then 0xFF#8 else if i = 2304 then 1#8 else 0#8
  bitmapBytes := 4096
  bitmapPages := 0x4808
  realTotalRam := 0x4808000
  totalPages := 0x4808
  usedPages := 0x4801
  nextFreeHint := 0x4800

/-- A PML4 at 0x1000 with 256 empty PDPTs from 0x200000 on. -/
def smallMem (n : Nat) (i : Fin 512) : Nat :=
  if n = 0x1000 ∧ 256 ≤ i.val then (0x100000 + i.val * 4096) ||| 7 else 0

def smallBoot : State := ⟨smallPmm, smallMem, none, 0, []⟩

/-- The small machine after `init_paging`, which finds every PDPT present. -/
def smallSys : Sys := ⟨{ smallBoot with currentPml4 := some 0x1000, kernelPml4Phys := 0x1000 }, ∅, ∅⟩

theorem smallPmm_low {i : Nat} (hi : i < 0x4800) : smallPmm.used i = true := by
  have hword : smallPmm.bitmap (i / 8) = 0xFF#8 := if_pos (by omega)
  have hbits : ∀ j < 8, (0xFF#8).getLsbD j = true := by decide
  rw [Pmm.State.used, Lib.Bitmap.test_eq (by decide), hword]
  exact hbits _ (Nat.mod_lt i (by decide))

theorem smallPmm_inv : Pmm.Inv smallPmm :=
  ⟨rfl, rfl, by decide, by decide, fun _ hi => smallPmm_low hi, fun _ hi => smallPmm_low hi⟩

theorem smallMem_upper {i : Fin 512} (hi : 256 ≤ i.val) :
    smallMem 0x1000 i = (0x100000 + i.val * 4096) ||| 7 := if_pos ⟨rfl, hi⟩

theorem smallMem_other {n : Nat} (hn : n ≠ 0x1000) (i : Fin 512) : smallMem n i = 0 :=
  if_neg fun hc => hn hc.1

theorem small_node {a : Anchor} {p : List (Fin 512)} {n : Nat}
    (h : tableAt smallBoot {0x1000} (smallMem 0x1000) a p = some n) :
    p = [] ∧ (a = .space 0x1000 ∧ n = 0x1000 ∨
      ∃ i : Fin 512, 256 ≤ i.val ∧ a = .kernel i ∧ n = 0x100000 + i.val * 4096) := by
  cases a with
  | space r =>
    obtain ⟨root, hroot, hwalk⟩ := Option.bind_eq_some_iff.mp h
    simp only [roots, Finset.mem_singleton] at hroot
    split_ifs at hroot with hr
    cases hroot
    subst hr
    cases p with
    | nil =>
      cases hwalk
      exact ⟨rfl, Or.inl ⟨rfl, rfl⟩⟩
    | cons i p =>
      have hnone : nextOf 3 i (smallBoot.mem 0x1000 i) = none := by
        change nextOf 3 i (smallMem 0x1000 i) = none
        by_cases hi : 256 ≤ i.val
        · simp [nextOf, hi]
        · simp [smallMem, hi, nextOf_zero]
      simp [walk, hnone] at hwalk
  | kernel i =>
    obtain ⟨root, hroot, hwalk⟩ := Option.bind_eq_some_iff.mp h
    simp only [roots] at hroot
    split_ifs at hroot with hi
    have haligned : (0x100000 + i.val * 4096) % 4096 = 0 := by omega
    rw [smallMem_upper hi.1, pageMask_or haligned (by decide)] at hroot
    cases hroot
    cases p with
    | nil =>
      cases hwalk
      exact ⟨rfl, Or.inr ⟨i, hi.1, rfl, rfl⟩⟩
    | cons j p =>
      have hnone : nextOf 2 j (smallBoot.mem (0x100000 + i.val * 4096) j) = none := by
        change nextOf 2 j (smallMem _ j) = none
        rw [smallMem_other (by omega), nextOf_zero]
      simp [walk, hnone] at hwalk

theorem small_bootTables : BootTables smallBoot (pageMask 0x1000) := by
  change BootTables smallBoot 0x1000
  refine ⟨fun i => ?_, fun a b p q n hp hq => ?_, fun a p n hn hfree => ?_, smallPmm_inv⟩
  · by_cases hi : 256 ≤ i.val
    · change huge (smallMem 0x1000 i) = false
      rw [smallMem_upper hi]
      exact huge_table (by omega)
    · simp [smallBoot, smallMem, hi, huge]
  · obtain ⟨rfl, ha⟩ := small_node hp
    obtain ⟨rfl, hb⟩ := small_node hq
    refine ⟨?_, rfl⟩
    rcases ha with ⟨rfl, hn⟩ | ⟨i, _, rfl, hn⟩ <;> rcases hb with ⟨rfl, hn'⟩ | ⟨j, _, rfl, hn'⟩
    · rfl
    · omega
    · omega
    · rw [Fin.ext (by omega : i.val = j.val)]
  · obtain ⟨_, ha⟩ := small_node hn
    have hlow : n / 4096 < Pmm.kernelLockPages := by
      have hz : Pmm.kernelLockPages = 0x4800 := rfl
      rcases ha with ⟨_, rfl⟩ | ⟨i, _, _, rfl⟩ <;> omega
    have hused := smallPmm_inv.zone _ hlow
    have hfree' : smallPmm.used (n / 4096) = false := hfree.free
    rw [hused] at hfree'
    cases hfree'

theorem populateAll_present {l : List (Fin 512)}
    (h : ∀ i ∈ l, present (s.mem s.kernelPml4Phys i) = true) : l.foldlM populate s = some s := by
  induction l with
  | nil => rfl
  | cons i l ih =>
    rw [List.foldlM_cons, populate, if_pos (h i List.mem_cons_self)]
    exact ih fun j hj => h j (List.mem_cons_of_mem _ hj)

theorem small_initPaging : initPaging 0x1000 smallBoot = some smallSys.vm := by
  refine populateAll_present fun i hi => ?_
  change present (smallMem 0x1000 i) = true
  rw [smallMem_upper (mem_higherHalf.mp hi), present_or]
  simp [present]

theorem smallSys_reach (P : Sys → Op → Prop) : Reach P smallSys :=
  Reach.boot small_bootTables (by simp) small_initPaging

theorem smallSys_fresh : smallSys.Fresh := (boot_ok small_bootTables small_initPaging).2

end Kyuzen.Paging
