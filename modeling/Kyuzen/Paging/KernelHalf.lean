import Kyuzen.Paging.Owner
import Kyuzen.Paging.Map

/-!
# One kernel half for all

The callers of the virtual memory manager map into user space only frames they hold, and give
back only frames they hold (`Disciplined`): the ELF loader and the user heap map pages that
`pmm_alloc_page` has just returned, and free what `vmm_unmap_page_from` returned. Every call of
such callers keeps `Owned` (`exec_owned`), so no table is given back while it is in use, and the
upper halves of all PML4s stay one and the same (`kernel_half_shared`).
-/

namespace Kyuzen.Paging

open Lib.Radix

variable {s s' : State} {live spaces held : Finset Nat} {top : Fin 512 → Nat} {x : Sys}

/-- What the callers promise. -/
def Disciplined (x : Sys) (op : Op) : Prop :=
  op.Targets x ∧ match op with
    | .mapInto va paddr flags target => x.UserPage target va → paddr ∈ x.held ∧ flags < 4096
    | .allocInto va flags target => x.UserPage target va → flags < 4096
    | .free addr => addr ∈ x.held
    | _ => True

/-! ## Single calls -/

theorem not_user_anchor {r va : Nat} (h : ¬ (r ∈ spaces ∧ (pml4Idx va).val < 256)) :
    ∀ q ∈ spaces, Anchor.space q ≠ anchorOf r va := by
  intro q hq heq
  unfold anchorOf at heq
  split_ifs at heq with hlow
  cases heq
  exact h ⟨hq, hlow⟩

/-- A page outside the lower halves of the created spaces. -/
theorem Owned.mapPage_other (h : Owned s live spaces held top) {r va : Nat} (hr : r ∈ live)
    (hne : ∀ q ∈ spaces, Anchor.space q ≠ anchorOf r va) (paddr flags : Nat) :
    Owned (mapPage s va paddr flags r).2 live spaces held top := by
  rcases mapPage_cases h.shape h.fresh hr va paddr flags with ⟨s', heq, hg⟩ | ⟨s', pt, hg, hpt, heq⟩
  · rw [heq]
    exact h.grown hg
  · obtain ⟨hw, _⟩ := setEntry_written hg.shape hg.fresh hpt (dirPath_length r va) (ptIdx va)
      (pageMask paddr ||| flags)
    rw [heq]
    exact (h.grown hg).written_other hw hne

/-- A page in the lower half of a created space, mapped to a frame that the caller holds. -/
theorem Owned.mapPage_user (h : Owned s live spaces held top) {r va paddr flags : Nat}
    (hr : r ∈ spaces) (hlow : (pml4Idx va).val < 256) (hp : paddr ∈ held) (hf : flags < 4096) :
    Owned (mapPage s va paddr flags r).2 live spaces
      (if (mapPage s va paddr flags r).1 then held.erase paddr else held) top := by
  have ha : anchorOf r va = .space r := if_pos hlow
  rcases mapPage_cases h.shape h.fresh (h.sub hr) va paddr flags with
    ⟨s', heq, hg⟩ | ⟨s', pt, hg, hpt, heq⟩
  · rw [heq]
    exact h.grown hg
  · obtain ⟨hw, hentry⟩ := setEntry_written hg.shape hg.fresh hpt (dirPath_length r va) (ptIdx va)
      (pageMask paddr ||| flags)
    rw [heq]
    rw [ha] at hw hentry
    refine (h.grown hg).written_map hr hw hp fun e he => ?_
    rw [hentry] at he
    split_ifs at he
    cases he
    have hal := (h.held_used paddr hp).aligned
    rw [pageMask_of_dvd hal, pageMask_or hal hf]

theorem Owned.unmapPage_other (h : Owned s live spaces held top) {r va : Nat} (hr : r ∈ live)
    (hne : ∀ q ∈ spaces, Anchor.space q ≠ anchorOf r va) :
    Owned (unmapPage s va r).2 live spaces held top := by
  rcases unmapPage_cases h.shape hr va with ⟨heq, _⟩ | ⟨pt, e, hpt, _, heq⟩
  · rw [heq]
    exact h
  · rw [heq]
    exact h.written_other (setEntry_written h.shape h.fresh hpt (dirPath_length r va) _ 0).1 hne

/-- The frame that was mapped is held afterwards. -/
theorem Owned.unmapPage_user (h : Owned s live spaces held top) {r va : Nat}
    (hr : r ∈ spaces) (hlow : (pml4Idx va).val < 256) :
    unmapPage s va r = (none, s) ∨ ∃ e s', unmapPage s va r = (some e, s') ∧
      PmmUsed s.pmm (pageMask e) ∧ Owned s' live spaces (insert (pageMask e) held) top := by
  have ha : anchorOf r va = .space r := if_pos hlow
  have hlen : (pagePath va).length = 4 := by
    rw [pagePath_length r, ha]
    rfl
  rcases unmapPage_cases h.shape (h.sub hr) va with ⟨heq, _⟩ | ⟨pt, e, hpt, hentry, heq⟩
  · exact Or.inl heq
  · obtain ⟨hw, hnone⟩ := setEntry_written h.shape h.fresh hpt (dirPath_length r va) (ptIdx va) 0
    rw [ha] at hw hnone hentry
    exact Or.inr ⟨e, _, heq, h.leaf_used hr ⟨hlen, e, hentry, rfl⟩,
      h.written_unmap hr hlen hw hentry hnone⟩

/-- The page that `pmm_alloc_page` returns is held by nobody else. -/
theorem Owned.allocPage_cases (h : Owned s live spaces held top) :
    (∃ m s', allocPage s = (m, s') ∧ m ≠ Pmm.physNull ∧ m ∉ held ∧
      Owned s' live spaces (insert m held) top) ∨ allocPage s = (Pmm.physNull, s) := by
  rcases Paging.allocPage_cases h.shape.pmm with ⟨m, hm, hz, hinv, heq⟩ | heq
  · exact Or.inl ⟨m, _, heq, (used_of_take hm hz).ne_null,
      fun hmem => (h.held_used m hmem).not_free hm, h.alloc hm hz hinv⟩
  · exact Or.inr heq

/-- The two allocating calls: on success the frame is held, or mapped in user space. -/
theorem Owned.allocAndMap (h : Owned s live spaces held top) (map : State → Nat → Bool × State)
    (user : Prop) [Decidable user]
    (hmap : ∀ s' m held', Owned s' live spaces held' top → m ∈ held' →
      s'.kernelPml4Phys = s.kernelPml4Phys → s'.currentPml4 = s.currentPml4 →
      Owned (map s' m).2 live spaces
        (if (map s' m).1 ∧ user then held'.erase m else held') top) :
    Owned (allocAndMap map s).2 live spaces
      (if (Paging.allocAndMap map s).1 ∧ ¬ user then insert (allocPage s).1 held else held) top := by
  rcases h.allocPage_cases with ⟨m, s', heq, hnull, hm, ho⟩ | heq
  · have hstate : s' = (allocPage s).2 := by rw [heq]
    have hmapped := hmap s' m _ ho (Finset.mem_insert_self m held) (by rw [hstate]; rfl)
      (by rw [hstate]; rfl)
    cases hout : map s' m with
    | mk ok s₁ =>
      rw [hout] at hmapped
      cases ok with
      | true =>
        have hres : Paging.allocAndMap map s = (true, s₁) := by
          simp only [Paging.allocAndMap, heq, hnull, hout, if_false]
        rw [hres, heq]
        by_cases hu : user
        · rw [if_pos ⟨rfl, hu⟩, Finset.erase_insert hm] at hmapped
          rw [if_neg fun hc => hc.2 hu]
          exact hmapped
        · rw [if_neg fun hc => hu hc.2] at hmapped
          rw [if_pos ⟨rfl, hu⟩]
          exact hmapped
      | false =>
        have hres : Paging.allocAndMap map s = (false, freePage s₁ m) := by
          simp only [Paging.allocAndMap, heq, hnull, hout, if_false]
        rw [if_neg (by simp)] at hmapped
        have hfreed := hmapped.free (Finset.mem_insert_self m held)
        rw [Finset.erase_insert hm] at hfreed
        rw [hres, if_neg (by simp)]
        exact hfreed
  · have hres : Paging.allocAndMap map s = (false, s) := by
      simp only [Paging.allocAndMap, heq, if_true]
    rw [hres, if_neg (by simp)]
    exact h

/-! ## Runs -/

/-- A mapping call on any PML4. -/
theorem Owned.mapPage (h : Owned s live spaces held top) {r va paddr flags : Nat} (hr : r ∈ live)
    (hd : r ∈ spaces ∧ (pml4Idx va).val < 256 → paddr ∈ held ∧ flags < 4096) :
    Owned (mapPage s va paddr flags r).2 live spaces
      (if (Paging.mapPage s va paddr flags r).1 ∧ r ∈ spaces ∧ (pml4Idx va).val < 256
        then held.erase paddr else held) top := by
  by_cases hu : r ∈ spaces ∧ (pml4Idx va).val < 256
  · have hm := h.mapPage_user hu.1 hu.2 (hd hu).1 (hd hu).2
    simpa only [hu, and_true] using hm
  · rw [if_neg fun hc => hu hc.2]
    exact h.mapPage_other hr (not_user_anchor hu) paddr flags

/-- The frames have their owners, and the kernel's PML4 is none of the created ones. -/
structure Sound (x : Sys) (top : Fin 512 → Nat) : Prop where
  ok : Ok x top
  owned : Owned x.vm x.live x.spaces x.held top

/-- A call that creates and destroys no address space. -/
theorem Sound.congr (h : Sound x top) (ho : Owned s' x.live x.spaces held top)
    (hk : s'.kernelPml4Phys = x.vm.kernelPml4Phys) : Sound ⟨s', x.spaces, held⟩ top := by
  refine ⟨h.ok.congr ho.shape hk, ?_⟩
  unfold Sys.live
  rw [hk]
  exact ho

theorem Sound.not_user (h : Sound x top) (va : Nat) : ¬ x.UserPage x.vm.kernelPml4Phys va :=
  fun hu => h.ok.kernel hu.1

theorem Sound.create (h : Sound x top) : Sound (exec x .create) top := by
  refine ⟨exec_ok h.ok (h.ok.fresh.mpr h.owned.fresh) trivial, ?_⟩
  rcases createSpace_cases h.ok.shape h.owned.fresh with heq | ⟨m, s', heq, hc⟩
  · simp only [exec, heq, if_true]
    exact h.owned
  · have hlive : Sys.live ⟨s', insert m x.spaces, x.held⟩ = insert m x.live := by
      unfold Sys.live
      dsimp only
      rw [hc.kernel, Finset.insert_comm]
    have hne : m ≠ Pmm.physNull := (used_of_take hc.free hc.above).ne_null
    simp only [exec, heq, if_neg hne]
    rw [hlive]
    exact h.owned.created hc

theorem Sound.destroy (h : Sound x top) {r : Nat} (hr : r ∈ x.spaces) (freePml4 : Bool) :
    Sound (exec x (.destroy r freePml4)) top := by
  refine ⟨exec_ok h.ok (h.ok.fresh.mpr h.owned.fresh) hr, ?_⟩
  have hne : x.vm.kernelPml4Phys ≠ r := fun heq => h.ok.kernel (heq ▸ hr)
  have hd := destroySpace_destroyed h.ok.shape (Finset.mem_insert_of_mem hr) freePml4
  have hkernel : (exec x (.destroy r freePml4)).vm.kernelPml4Phys = x.vm.kernelPml4Phys :=
    hd.cleared.kernel
  refine h.owned.destroy hr (Ok.kernel_mem x) hne freePml4 ?_ rfl
  unfold Sys.live
  rw [hkernel]
  cases freePml4 with
  | true => exact (Finset.erase_insert_of_ne hne).symm
  | false => rfl

theorem Sound.mapKernel (h : Sound x top) (va paddr flags : Nat) :
    Sound (exec x (.mapKernel va paddr flags)) top := by
  have hk := Ok.kernel_mem x
  have hm := mapInto_shape h.ok.shape h.owned.fresh (Or.inr hk) va paddr flags
  refine h.congr ?_ hm.2.2
  unfold vmmMapPageKernel vmmMapPageInto
  split_ifs
  · exact h.owned
  · exact h.owned.mapPage_other hk (not_user_anchor (h.not_user va)) paddr flags

theorem Sound.mapInto (h : Sound x top) {target va paddr flags : Nat}
    (ht : target = Pmm.physNull ∨ target ∈ x.live)
    (hd : x.UserPage target va → paddr ∈ x.held ∧ flags < 4096) :
    Sound (exec x (.mapInto va paddr flags target)) top := by
  have hm := mapInto_shape h.ok.shape h.owned.fresh ht va paddr flags
  refine h.congr ?_ hm.2.2
  by_cases hnull : target = Pmm.physNull
  · have hres : vmmMapPageInto x.vm va paddr flags target = (false, x.vm) := if_pos hnull
    rw [hres, if_neg (by simp)]
    exact h.owned
  · have hres : vmmMapPageInto x.vm va paddr flags target = Paging.mapPage x.vm va paddr flags target :=
      if_neg hnull
    rw [hres]
    exact h.owned.mapPage (ht.resolve_left hnull) hd

theorem Sound.allocKernel (h : Sound x top) (va flags : Nat) :
    Sound (exec x (.allocKernel va flags)) top := by
  have ho := h.owned.allocAndMap (fun s paddr => vmmMapPageKernel s va paddr flags) False
    fun s' m held' ho _ hkernel _ => by
      rw [if_neg (by simp)]
      unfold vmmMapPageKernel vmmMapPageInto
      split_ifs
      · exact ho
      · refine ho.mapPage_other ho.shape.kernel ?_ m flags
        rw [hkernel]
        exact not_user_anchor (h.not_user va)
  simp only [not_false_eq_true, and_true] at ho
  exact h.congr ho (allocKernel_shape h.ok.shape h.owned.fresh va flags).2

theorem Sound.allocInto (h : Sound x top) {target va flags : Nat}
    (ht : target = Pmm.physNull ∨ target ∈ x.live) (hd : x.UserPage target va → flags < 4096) :
    Sound (exec x (.allocInto va flags target)) top := by
  have ho := h.owned.allocAndMap (fun s paddr =>
      if target ≠ Pmm.physNull then vmmMapPageInto s va paddr flags target
      else vmmMapPage s va paddr flags) (x.UserPage target va) fun s' m held' ho hm hkernel _ => by
    by_cases hnull : target = Pmm.physNull
    · have hu : ¬ x.UserPage target va := fun hu => h.owned.ne_null hu.1 hnull
      rw [if_neg (not_not_intro hnull), vmmMapPage_eq ho.shape, if_neg fun hc => hu hc.2]
      refine ho.mapPage_other ho.shape.kernel ?_ m flags
      rw [hkernel]
      exact not_user_anchor (h.not_user va)
    · have hres : vmmMapPageInto s' va m flags target = Paging.mapPage s' va m flags target :=
        if_neg hnull
      rw [if_pos hnull, hres]
      exact ho.mapPage (ht.resolve_left hnull) fun hu => ⟨hm, hd hu⟩
  exact h.congr ho (allocInto_shape h.ok.shape h.owned.fresh ht va flags).2

/-- A frame that is unmapped from a user page is the caller's. -/
theorem Sound.unmapFrom (h : Sound x top) {target : Nat}
    (ht : target = Pmm.physNull ∨ target ∈ x.live) (va : Nat) :
    Sound (exec x (.unmapFrom va target)) top := by
  obtain ⟨r, hr, htarget⟩ := targetPml4_mem h.ok.shape ht
  have hkernel : (vmmUnmapPageFrom x.vm va target).2.kernelPml4Phys = x.vm.kernelPml4Phys := by
    rw [unmapFrom_snd htarget]
    exact (unmapPage_shape h.ok.shape h.owned.fresh hr va).2
  refine h.congr ?_ hkernel
  by_cases hu : x.UserPage target va
  · have hrt : targetPml4 x.vm target = some target := if_pos (h.owned.ne_null hu.1)
    rcases h.owned.unmapPage_user hu.1 hu.2 with heq | ⟨e, s', heq, hused, ho⟩
    · have hres : vmmUnmapPageFrom x.vm va target = (Pmm.physNull, x.vm) := by
        rw [vmmUnmapPageFrom, hrt]
        simp only [heq]
      rw [hres, if_neg fun hc => hc.1 rfl]
      exact h.owned
    · have hres : vmmUnmapPageFrom x.vm va target = (pageMask e, s') := by
        rw [vmmUnmapPageFrom, hrt]
        simp only [heq]
      rw [hres, if_pos ⟨hused.ne_null, hu⟩]
      exact ho
  · rw [if_neg fun hc => hu hc.2, unmapFrom_snd htarget]
    refine h.owned.unmapPage_other hr (not_user_anchor ?_)
    unfold targetPml4 at htarget
    split_ifs at htarget with hnull
    · cases htarget
      exact hu
    · rw [h.ok.shape.current] at htarget
      cases htarget
      exact h.not_user va

/-- Every call of a caller that keeps its promises. -/
theorem exec_sound (h : Sound x top) {op : Op} (hd : Disciplined x op) : Sound (exec x op) top := by
  obtain ⟨ht, hd⟩ := hd
  have hk := Ok.kernel_mem x
  have hother := fun va => not_user_anchor (h.not_user va)
  cases op with
  | create => exact h.create
  | destroy r freePml4 => exact h.destroy ht freePml4
  | map va paddr flags =>
    simp only [exec, vmmMapPage_eq h.ok.shape]
    exact h.congr (h.owned.mapPage_other hk (hother va) paddr flags)
      (mapPage_shape h.ok.shape h.owned.fresh hk va paddr flags).2.2
  | mapKernel va paddr flags => exact h.mapKernel va paddr flags
  | mapInto va paddr flags target => exact h.mapInto ht hd
  | allocKernel va flags => exact h.allocKernel va flags
  | allocInto va flags target => exact h.allocInto ht hd
  | unmap va =>
    simp only [exec, vmmUnmapPage_snd h.ok.shape]
    exact h.congr (h.owned.unmapPage_other hk (hother va))
      (unmapPage_shape h.ok.shape h.owned.fresh hk va).2
  | unmapFrom va target => exact h.unmapFrom ht va
  | alloc =>
    rcases h.owned.allocPage_cases with ⟨m, s', heq, hnull, _, ho⟩ | heq
    · have hstate : s' = (allocPage x.vm).2 := by rw [heq]
      simp only [exec, heq, if_neg hnull]
      exact h.congr ho (by rw [hstate]; rfl)
    · simp only [exec, heq, if_true]
      exact h
  | free addr => exact h.congr (h.owned.free hd) rfl

theorem boot_sound {s s' : State} {cr3 : Nat} {held : Finset Nat}
    (h : BootTables s (pageMask cr3))
    (hheld : ∀ f ∈ held, PmmUsed s.pmm f ∧
      ∀ a p, tableAt s {pageMask cr3} (s.mem (pageMask cr3)) a p ≠ some f)
    (hrun : initPaging cr3 s = some s') : Sound ⟨s', ∅, held⟩ (s'.mem (pageMask cr3)) := by
  obtain ⟨hok, hf⟩ := boot_ok h hrun
  obtain ⟨hk, _, _, hout⟩ := initPaging_shape h hrun
  have hlive : Sys.live ⟨s', ∅, held⟩ = {pageMask cr3} := by
    unfold Sys.live
    rw [hk]
    rfl
  refine ⟨hok, ⟨hok.shape, hf, Finset.empty_subset _, fun hr _ => absurd hr (by simp),
    fun hr _ => absurd hr (by simp), fun hr _ _ _ => absurd hr (by simp),
    fun hr _ => absurd hr (by simp), fun f hmem => (hout f (hheld f hmem)).1, fun f hmem a p => ?_,
    fun _ _ r hr => absurd hr (by simp)⟩⟩
  rw [hlive]
  exact (hout f (hheld f hmem)).2 a p

theorem reach_sound (h : Reach Disciplined x) : ∃ top, Sound x top := by
  induction h with
  | boot hb hheld hrun => exact ⟨_, boot_sound hb hheld hrun⟩
  | step _ hd ih =>
    obtain ⟨top, hs⟩ := ih
    exact ⟨top, exec_sound hs hd⟩

/-- In every run the upper half of every address space translates as the kernel's does. -/
theorem kernel_half_shared (h : Reach Disciplined x) {r va : Nat} (hr : r ∈ x.live)
    (hva : 256 ≤ (pml4Idx va).val) :
    translate x.vm r va = translate x.vm x.vm.kernelPml4Phys va := by
  obtain ⟨top, hs⟩ := reach_sound h
  have hanchor : anchorOf r va = anchorOf x.vm.kernelPml4Phys va := by
    unfold anchorOf
    rw [if_neg (by omega), if_neg (by omega)]
  rw [translate_eq hs.ok.shape hr, translate_eq hs.ok.shape (Ok.kernel_mem x), hanchor]

/-- The small machine with a kernel page and then an address space. -/
def spaceSys : Sys := exec mappedSys .create

theorem spaceSys_reach : Reach Disciplined spaceSys :=
  Reach.step (Reach.step (smallSys_reach _) ⟨trivial, trivial⟩) ⟨trivial, trivial⟩

theorem spaceSys_live : (vmmCreateAddressSpace mappedSys.vm).1 ∈ spaceSys.live := by
  have hne : (vmmCreateAddressSpace mappedSys.vm).1 ≠ Pmm.physNull := by decide
  refine Finset.mem_insert_of_mem ?_
  rw [spaceSys, exec]
  dsimp only
  rw [if_neg hne]
  exact Finset.mem_insert_self _ _

theorem kernel_half_shared_spaceSys :
    translate spaceSys.vm (vmmCreateAddressSpace mappedSys.vm).1 firstKernelPage =
      translate spaceSys.vm spaceSys.vm.kernelPml4Phys firstKernelPage :=
  kernel_half_shared spaceSys_reach spaceSys_live (by decide)

end Kyuzen.Paging
