import Kyuzen.Paging.KernelHalf

/-!
# Calls that leave some pages alone

The pages of a part of one address space are what they were after every call that does not name
them: a call that maps or unmaps pages elsewhere, that creates a space or destroys another one, or
that only takes or gives back frames (`exec_elsewhere`). Flags do not matter here.
-/

namespace Kyuzen.Paging

variable {s s' : State} {live : Finset Nat} {top : Fin 512 → Nat} {x : Sys} {r r' va va' : Nat}

/-! ## Single calls -/

/-- The walk of the processor reads the tables only. -/
theorem translate_congr (h : s'.mem = s.mem) : translate s' r va = translate s r va := by
  simp only [translate, h]

theorem mapPage_elsewhere (h : Shape s live top) (hf : Fresh s live top) (hr' : r' ∈ live)
    (hr : r ∈ live) (hne : ¬(SamePage va va' ∧ (r = r' ∨ 256 ≤ (pml4Idx va).val)))
    (paddr flags : Nat) :
    translate (mapPage s va paddr flags r').2 r va' = translate s r va' := by
  rcases mapPage_cases h hf hr' va paddr flags with ⟨s', heq, hg⟩ | ⟨s', pt, hg, hpt, heq⟩
  · rw [heq, translate_eq hg.shape hr, translate_eq h hr, hg.entries _ _ (pagePath_length r va')]
  · obtain ⟨hw, -⟩ := setEntry_written hg.shape hg.fresh hpt (dirPath_length r' va) (ptIdx va)
      (pageMask paddr ||| flags)
    rw [heq, translate_eq hw.shape hr, translate_eq h hr,
      hw.entries _ _ (pagePath_length r va') fun hc => hne (page_eq_iff.mp hc),
      hg.entries _ _ (pagePath_length r va')]

theorem unmapPage_elsewhere (h : Shape s live top) (hf : Fresh s live top) (hr' : r' ∈ live)
    (hr : r ∈ live) (hne : ¬(SamePage va va' ∧ (r = r' ∨ 256 ≤ (pml4Idx va).val))) :
    translate (unmapPage s va r').2 r va' = translate s r va' := by
  rcases unmapPage_cases h hr' va with ⟨heq, -⟩ | ⟨pt, e, hpt, -, heq⟩
  · rw [heq]
  · obtain ⟨hw, -⟩ := setEntry_written h hf hpt (dirPath_length r' va) (ptIdx va) 0
    rw [heq, translate_eq hw.shape hr, translate_eq h hr,
      hw.entries _ _ (pagePath_length r va') fun hc => hne (page_eq_iff.mp hc)]

theorem mapInto_elsewhere (h : Shape s live top) (hf : Fresh s live top)
    (hr' : r' = Pmm.physNull ∨ r' ∈ live) (hr : r ∈ live)
    (hne : ¬(SamePage va va' ∧ (r = r' ∨ 256 ≤ (pml4Idx va).val))) (paddr flags : Nat) :
    translate (vmmMapPageInto s va paddr flags r').2 r va' = translate s r va' := by
  unfold vmmMapPageInto
  split
  · rfl
  · rename_i hnull
    exact mapPage_elsewhere h hf (hr'.resolve_left hnull) hr hne paddr flags

/-- The frame that is mapped, or given back, plays no part. -/
theorem allocAndMap_elsewhere {map : State → Nat → Bool × State}
    (hmap : ∀ paddr, translate (map (allocPage s).2 paddr).2 r va' = translate s r va') :
    translate (allocAndMap map s).2 r va' = translate s r va' := by
  unfold allocAndMap
  dsimp only
  split
  · exact translate_congr rfl
  · cases hout : map (allocPage s).2 (allocPage s).1 with
    | mk ok s' =>
      have hsame := hmap (allocPage s).1
      rw [hout] at hsame
      cases ok with
      | true => exact hsame
      | false => exact hsame

/-! ## All calls -/

/-- The call neither destroys the space `r` nor names a page of `zone` in it. -/
def Op.Spares (r : Nat) (zone : Nat → Prop) : Op → Prop
  | .destroy r' _ => r' ≠ r
  | .mapInto va _ _ target => target = r → ∀ va', zone va' → ¬SamePage va va'
  | .allocInto va _ target => target = r → ∀ va', zone va' → ¬SamePage va va'
  | .unmapFrom va target => target = r → ∀ va', zone va' → ¬SamePage va va'
  | _ => True

/-- Pages of user space are not those of the kernel's PML4. -/
theorem Sound.kernel_ne (h : Sound x top) (hr : r ∈ x.spaces) : r ≠ x.vm.kernelPml4Phys := by
  rintro rfl
  exact h.ok.kernel hr

theorem exec_elsewhere (h : Sound x top) {op : Op} (hd : Disciplined x op) (hr : r ∈ x.spaces)
    {zone : Nat → Prop} (hlow : ∀ va, zone va → (pml4Idx va).val < 256) (hs : op.Spares r zone) :
    r ∈ (exec x op).spaces ∧
      ∀ va, zone va → translate (exec x op).vm r va = translate x.vm r va := by
  have hlive : r ∈ x.live := Finset.mem_insert_of_mem hr
  have hk := Ok.kernel_mem x
  have hne : r ≠ x.vm.kernelPml4Phys := h.kernel_ne hr
  obtain ⟨ht, -⟩ := hd
  -- a page of `zone` is not one that the call names
  have hother : ∀ {target va va'}, (target = r → ∀ va', zone va' → ¬SamePage va va') → zone va' →
      ¬(SamePage va va' ∧ (r = target ∨ 256 ≤ (pml4Idx va).val)) := by
    rintro target va va' hspares hva' ⟨hsame, rfl | hhigh⟩
    · exact hspares rfl va' hva' hsame
    · have := hlow va' hva'
      rw [← hsame.1] at this
      omega
  have hkernel : ∀ {va va'}, zone va' →
      ¬(SamePage va va' ∧ (r = x.vm.kernelPml4Phys ∨ 256 ≤ (pml4Idx va).val)) :=
    hother fun heq => absurd heq.symm hne
  cases op with
  | create =>
    refine ⟨?_, fun va _ => (create_map h.ok h.owned.fresh).1 r hlive va⟩
    show r ∈ if (vmmCreateAddressSpace x.vm).1 = Pmm.physNull then x.spaces else insert _ x.spaces
    split
    · exact hr
    · exact Finset.mem_insert_of_mem hr
  | destroy r' freePml4 =>
    have hs : r' ≠ r := hs
    refine ⟨?_, fun va _ => destroy_map h.ok ht freePml4 hlive (Or.inl hs.symm)⟩
    show r ∈ if freePml4 = true then x.spaces.erase r' else x.spaces
    split
    · exact Finset.mem_erase.mpr ⟨hs.symm, hr⟩
    · exact hr
  | map va paddr flags =>
    refine ⟨hr, fun va' hva' => ?_⟩
    show translate (vmmMapPage x.vm va paddr flags).2 r va' = _
    rw [vmmMapPage_eq h.ok.shape]
    exact mapPage_elsewhere h.ok.shape h.owned.fresh hk hlive (hkernel hva') paddr flags
  | mapKernel va paddr flags =>
    refine ⟨hr, fun va' hva' => ?_⟩
    exact mapInto_elsewhere h.ok.shape h.owned.fresh (Or.inr hk) hlive (hkernel hva') paddr flags
  | mapInto va paddr flags target =>
    refine ⟨hr, fun va' hva' => ?_⟩
    exact mapInto_elsewhere h.ok.shape h.owned.fresh ht hlive (hother hs hva') paddr flags
  | allocKernel va flags =>
    refine ⟨hr, fun va' hva' => ?_⟩
    obtain ⟨hs₁, hf₁⟩ := allocPage_shape h.ok.shape h.owned.fresh
    apply allocAndMap_elsewhere
    intro paddr
    refine (mapInto_elsewhere hs₁ hf₁ (Or.inr hk) hlive (hkernel hva') paddr flags).trans ?_
    exact translate_congr rfl
  | allocInto va flags target =>
    refine ⟨hr, fun va' hva' => ?_⟩
    obtain ⟨hs₁, hf₁⟩ := allocPage_shape h.ok.shape h.owned.fresh
    apply allocAndMap_elsewhere
    intro paddr
    split
    · refine (mapInto_elsewhere hs₁ hf₁ ht hlive (hother hs hva') paddr flags).trans ?_
      exact translate_congr rfl
    · rw [vmmMapPage_eq hs₁]
      refine (mapPage_elsewhere hs₁ hf₁ hk hlive (hkernel hva') paddr flags).trans ?_
      exact translate_congr rfl
  | unmap va =>
    refine ⟨hr, fun va' hva' => ?_⟩
    show translate (vmmUnmapPage x.vm va).2 r va' = _
    rw [vmmUnmapPage_snd h.ok.shape]
    exact unmapPage_elsewhere h.ok.shape h.owned.fresh hk hlive (hkernel hva')
  | unmapFrom va target =>
    refine ⟨hr, fun va' hva' => ?_⟩
    show translate (vmmUnmapPageFrom x.vm va target).2 r va' = _
    by_cases hzero : target = Pmm.physNull
    · have htarget : targetPml4 x.vm target = some x.vm.kernelPml4Phys := by
        rw [targetPml4, if_neg (by simpa using hzero)]
        exact h.ok.shape.current
      rw [unmapFrom_snd htarget]
      exact unmapPage_elsewhere h.ok.shape h.owned.fresh hk hlive (hkernel hva')
    · have htarget : targetPml4 x.vm target = some target := if_pos hzero
      rw [unmapFrom_snd htarget]
      exact unmapPage_elsewhere h.ok.shape h.owned.fresh (ht.resolve_left hzero) hlive
        (hother hs hva')
  | alloc => exact ⟨hr, fun va' _ => translate_congr rfl⟩
  | free addr => exact ⟨hr, fun va' _ => translate_congr rfl⟩

end Kyuzen.Paging
