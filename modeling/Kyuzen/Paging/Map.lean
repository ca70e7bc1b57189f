import Kyuzen.Paging.System

/-!
# Page tables as a finite map

Every address space is a map from 4 KiB pages to entries, and the higher half is one map that
all spaces share. `calls_are_map` says for each call what it does to these maps: a mapping that
returns 1 updates one page, an unmapping removes one page and returns its frame, a call that
fails changes nothing, `paging_is_mapped_into` agrees with the map, and a new or destroyed
space does not touch the others.

There is one exception to "a call that returns `PHYS_NULL` changes nothing": a page that is
mapped to frame 0 is unmapped, and its frame is `PHYS_NULL` (`frame_zero_unmapped`).
-/

namespace Kyuzen.Paging

open Lib.Radix

variable {s s' : State} {live : Finset Nat} {top : Fin 512 → Nat} {x : Sys}

instance (va va' : Nat) : Decidable (SamePage va va') := inferInstanceAs (Decidable (_ ∧ _))

/-- The page of `va` in `r` (and, in the higher half, in all spaces) has become `m`; no other
page has changed. -/
def Updates (x : Sys) (s' : State) (r va : Nat) (m : Option Mapping) : Prop :=
  ∀ r' ∈ x.live, ∀ va', translate s' r' va' =
    if SamePage va va' ∧ (r' = r ∨ 256 ≤ (pml4Idx va).val) then m else translate x.vm r' va'

/-- No page has changed. -/
def Keeps (x : Sys) (s' : State) : Prop :=
  ∀ r' ∈ x.live, ∀ va', translate s' r' va' = translate x.vm r' va'

/-- What the calls do to the maps. -/
structure MapCalls (x : Sys) : Prop where
  mapInto : ∀ r ∈ x.live, ∀ va paddr flags, present flags = true →
    ((vmmMapPageInto x.vm va paddr flags r).1 = true →
      Updates x (vmmMapPageInto x.vm va paddr flags r).2 r va
        (some ⟨0, pageMask paddr ||| flags⟩)) ∧
    ((vmmMapPageInto x.vm va paddr flags r).1 = false →
      Keeps x (vmmMapPageInto x.vm va paddr flags r).2)
  map : ∀ va paddr flags, present flags = true →
    ((vmmMapPage x.vm va paddr flags).1 = true →
      Updates x (vmmMapPage x.vm va paddr flags).2 x.vm.kernelPml4Phys va
        (some ⟨0, pageMask paddr ||| flags⟩)) ∧
    ((vmmMapPage x.vm va paddr flags).1 = false → Keeps x (vmmMapPage x.vm va paddr flags).2)
  unmapFrom : ∀ target r, r ∈ x.live → targetPml4 x.vm target = some r → ∀ va,
    (∀ e, translate x.vm r va = some ⟨0, e⟩ →
      (vmmUnmapPageFrom x.vm va target).1 = pageMask e ∧
        Updates x (vmmUnmapPageFrom x.vm va target).2 r va none) ∧
    ((∀ e, translate x.vm r va ≠ some ⟨0, e⟩) →
      (vmmUnmapPageFrom x.vm va target).1 = Pmm.physNull ∧
        Keeps x (vmmUnmapPageFrom x.vm va target).2) ∧
    ((vmmUnmapPageFrom x.vm va target).1 = Pmm.physNull →
      (∀ e, translate x.vm r va = some ⟨0, e⟩ → pageMask e ≠ 0) →
        Keeps x (vmmUnmapPageFrom x.vm va target).2)
  unmap : ∀ va,
    ((vmmUnmapPage x.vm va).1 = true ↔ ∃ e, translate x.vm x.vm.kernelPml4Phys va = some ⟨0, e⟩) ∧
    ((vmmUnmapPage x.vm va).1 = true →
      Updates x (vmmUnmapPage x.vm va).2 x.vm.kernelPml4Phys va none) ∧
    ((vmmUnmapPage x.vm va).1 = false → Keeps x (vmmUnmapPage x.vm va).2)
  isMapped : ∀ target r, targetPml4 x.vm target = some r → ∀ va,
    pagingIsMappedInto x.vm va target = (translate x.vm r va).isSome
  create : Keeps x (vmmCreateAddressSpace x.vm).2 ∧
    ((vmmCreateAddressSpace x.vm).1 ≠ Pmm.physNull → ∀ va,
      translate (vmmCreateAddressSpace x.vm).2 (vmmCreateAddressSpace x.vm).1 va =
        if 256 ≤ (pml4Idx va).val then translate x.vm x.vm.kernelPml4Phys va else none)
  destroy : ∀ r ∈ x.spaces, ∀ freePml4, ∀ r' ∈ x.live, ∀ va,
    r' ≠ r ∨ 256 ≤ (pml4Idx va).val →
      translate (vmmDestroyAddressSpace x.vm r freePml4) r' va = translate x.vm r' va

/-! ## Entries and translations -/

theorem keeps_of_entries (h : Ok x top) (hs' : Shape s' x.live top)
    (hentries : ∀ b p, p.length = b.level + 1 →
      entryAt s' x.live top b p = entryAt x.vm x.live top b p) : Keeps x s' := by
  intro r' hr' va'
  rw [translate_eq hs' hr', translate_eq h.shape hr', hentries _ _ (pagePath_length r' va')]

theorem updates_of_entries (h : Ok x top) (hs' : Shape s' x.live top) {r va : Nat}
    {m : Option (Nat × Nat)}
    (hpage : entryAt s' x.live top (anchorOf r va) (pagePath va) = m)
    (hentries : ∀ b p, p.length = b.level + 1 → ¬ (b = anchorOf r va ∧ p = pagePath va) →
      entryAt s' x.live top b p = entryAt x.vm x.live top b p) :
    Updates x s' r va (m.map fun x => ⟨x.1, x.2⟩) := by
  intro r' hr' va'
  rw [translate_eq hs' hr', translate_eq h.shape hr']
  split_ifs with hpageEq
  · obtain ⟨ha, hp⟩ := page_eq_iff.mpr hpageEq
    rw [ha, hp, hpage]
  · rw [hentries _ _ (pagePath_length r' va') fun hc => hpageEq (page_eq_iff.mp hc)]

theorem mapPage_map (h : Ok x top) (hf : Fresh x.vm x.live top) {r : Nat} (hr : r ∈ x.live)
    (va paddr : Nat) {flags : Nat} (hflags : present flags = true) :
    ((mapPage x.vm va paddr flags r).1 = true →
      Updates x (mapPage x.vm va paddr flags r).2 r va (some ⟨0, pageMask paddr ||| flags⟩)) ∧
    ((mapPage x.vm va paddr flags r).1 = false → Keeps x (mapPage x.vm va paddr flags r).2) := by
  rcases mapPage_cases h.shape hf hr va paddr flags with ⟨s', heq, hg⟩ | ⟨s', pt, hg, hpt, heq⟩
  · rw [heq]
    refine ⟨fun hc => absurd hc (by simp), fun _ => ?_⟩
    exact keeps_of_entries h hg.shape hg.entries
  · obtain ⟨hw, hentry⟩ := setEntry_written hg.shape hg.fresh hpt (dirPath_length r va) (ptIdx va)
      (pageMask paddr ||| flags)
    have hpres : present (pageMask paddr ||| flags) = true := by
      rw [present_or, hflags, Bool.or_true]
    rw [hpres, if_pos rfl] at hentry
    rw [heq]
    refine ⟨fun _ => ?_, fun hc => absurd hc (by simp)⟩
    refine updates_of_entries h hw.shape hentry fun b p hp hne => ?_
    rw [hw.entries b p hp hne, hg.entries b p hp]

theorem unmapPage_map (h : Ok x top) (hf : Fresh x.vm x.live top) {r : Nat} (hr : r ∈ x.live)
    (va : Nat) :
    (∀ e, translate x.vm r va = some ⟨0, e⟩ → (unmapPage x.vm va r).1 = some e ∧
      Updates x (unmapPage x.vm va r).2 r va none) ∧
    ((∀ e, translate x.vm r va ≠ some ⟨0, e⟩) → unmapPage x.vm va r = (none, x.vm)) := by
  have htrans := translate_eq h.shape hr va
  have hiff : ∀ e, translate x.vm r va = some ⟨0, e⟩ ↔
      entryAt x.vm x.live top (anchorOf r va) (pagePath va) = some (0, e) := by
    intro e
    rw [htrans]
    cases entryAt x.vm x.live top (anchorOf r va) (pagePath va) with
    | none => simp
    | some y => simp [Prod.ext_iff]
  rcases unmapPage_cases h.shape hr va with ⟨heq, hnone⟩ | ⟨pt, e, hpt, hentry, heq⟩
  · refine ⟨fun e he => absurd ((hiff e).mp he) (hnone e), fun _ => heq⟩
  · refine ⟨fun e' he' => ?_, fun hno => absurd ((hiff e).mpr hentry) (hno e)⟩
    have hee : e' = e := by
      have := (hiff e').mp he'
      rw [hentry] at this
      simpa using this.symm
    obtain ⟨hw, hentry'⟩ := setEntry_written h.shape hf hpt (dirPath_length r va) (ptIdx va) 0
    rw [heq, hee]
    exact ⟨rfl, updates_of_entries h hw.shape hentry' hw.entries⟩

theorem isMapped_eq {target r : Nat} (ht : targetPml4 s target = some r) (va : Nat) :
    pagingIsMappedInto s va target = (translate s r va).isSome := by
  rw [pagingIsMappedInto, ht, translate]
  dsimp only
  split_ifs <;> simp_all

theorem create_map (h : Ok x top) (hf : Fresh x.vm x.live top) :
    Keeps x (vmmCreateAddressSpace x.vm).2 ∧
    ((vmmCreateAddressSpace x.vm).1 ≠ Pmm.physNull → ∀ va,
      translate (vmmCreateAddressSpace x.vm).2 (vmmCreateAddressSpace x.vm).1 va =
        if 256 ≤ (pml4Idx va).val then translate x.vm x.vm.kernelPml4Phys va else none) := by
  rcases createSpace_cases h.shape hf with heq | ⟨m, s', heq, hc⟩
  · rw [heq]
    exact ⟨fun _ _ _ => rfl, fun hne => absurd rfl hne⟩
  · rw [heq]
    have hold : ∀ r' ∈ x.live, ∀ va, anchorOf r' va ≠ .space m := by
      intro r' hr' va hanchor
      unfold anchorOf at hanchor
      split_ifs at hanchor
      cases hanchor
      exact hc.notMem hr'
    have hkeep : ∀ r' ∈ x.live, ∀ va, translate s' r' va = translate x.vm r' va := by
      intro r' hr' va
      rw [translate_eq hc.shape (Finset.mem_insert_of_mem hr'), translate_eq h.shape hr',
        hc.entries _ _ (hold r' hr' va)]
    refine ⟨hkeep, fun _ va => ?_⟩
    dsimp only
    have hk := Ok.kernel_mem x
    rw [translate_eq hc.shape (Finset.mem_insert_self m x.live)]
    by_cases hi : 256 ≤ (pml4Idx va).val
    · rw [if_pos hi, ← hkeep _ hk va, translate_eq hc.shape (Finset.mem_insert_of_mem hk)]
      simp [anchorOf, show ¬ (pml4Idx va).val < 256 by omega]
    · rw [if_neg hi]
      have hlow : (pml4Idx va).val < 256 := by omega
      simp [anchorOf, pagePath, dirPath, pdptPath, hlow, hc.empty _ _ hlow]

theorem destroy_map (h : Ok x top) {r r' : Nat} (hr : r ∈ x.spaces) (freePml4 : Bool)
    (hr' : r' ∈ x.live) {va : Nat} (hne : r' ≠ r ∨ 256 ≤ (pml4Idx va).val) :
    translate (vmmDestroyAddressSpace x.vm r freePml4) r' va = translate x.vm r' va := by
  have hd := destroySpace_destroyed h.shape (Finset.mem_insert_of_mem hr) freePml4
  have hs := hd.shape x.live (Finset.Subset.refl _) (Ok.kernel_mem x)
  rw [translate_eq hs hr', translate_eq h.shape hr',
    hd.entries x.live (Finset.Subset.refl _) _ _ ?_ rfl]
  unfold anchorOf
  split_ifs with hlow
  · intro heq
    cases heq
    rcases hne with hne | hne
    · exact hne rfl
    · omega
  · simp

theorem Ok.mapCalls (hok : Ok x top) (hf : x.Fresh) : MapCalls x := by
  rw [hok.fresh] at hf
  have hk := Ok.kernel_mem x
  refine ⟨fun r hr va paddr flags hflags => ?_, fun va paddr flags hflags => ?_,
    fun target r hr ht va => ?_, fun va => ?_, fun target r ht va => isMapped_eq ht va,
    create_map hok hf, fun r hr freePml4 r' hr' va hne => destroy_map hok hr freePml4 hr' hne⟩
  · unfold vmmMapPageInto
    split_ifs with hnull
    · exact ⟨fun hc => absurd hc (by simp), fun _ _ _ _ => rfl⟩
    · exact mapPage_map hok hf hr va paddr hflags
  · rw [vmmMapPage_eq hok.shape]
    exact mapPage_map hok hf hk va paddr hflags
  · obtain ⟨hsome, hnone⟩ := unmapPage_map hok hf hr va
    have hret : ∀ e, translate x.vm r va = some ⟨0, e⟩ →
        (vmmUnmapPageFrom x.vm va target).1 = pageMask e := by
      intro e he
      rw [vmmUnmapPageFrom, ht]
      dsimp only
      rw [← Prod.mk.eta (p := unmapPage x.vm va r), (hsome e he).1]
    rw [unmapFrom_snd ht]
    refine ⟨fun e he => ⟨hret e he, (hsome e he).2⟩, fun hno => ?_, fun hnull hframe => ?_⟩
    · rw [vmmUnmapPageFrom, ht]
      dsimp only
      rw [hnone hno]
      exact ⟨rfl, fun _ _ _ => rfl⟩
    · by_cases hmapped : ∃ e, translate x.vm r va = some ⟨0, e⟩
      · obtain ⟨e, he⟩ := hmapped
        exact absurd ((hret e he).symm.trans hnull) (hframe e he)
      · rw [hnone fun e he => hmapped ⟨e, he⟩]
        exact fun _ _ _ => rfl
  · obtain ⟨hsome, hnone⟩ := unmapPage_map hok hf hk va
    rw [vmmUnmapPage, hok.shape.current]
    dsimp only
    by_cases hmapped : ∃ e, translate x.vm x.vm.kernelPml4Phys va = some ⟨0, e⟩
    · obtain ⟨e, he⟩ := hmapped
      obtain ⟨hret, hupd⟩ := hsome e he
      rw [hret]
      exact ⟨⟨fun _ => ⟨e, he⟩, fun _ => rfl⟩, fun _ => hupd, fun hc => absurd hc (by simp)⟩
    · rw [hnone fun e he => hmapped ⟨e, he⟩]
      exact ⟨⟨fun hc => absurd hc (by simp), fun hc => absurd hc hmapped⟩,
        fun hc => absurd hc (by simp), fun _ _ _ _ => rfl⟩

/-- In every run, every call treats the tables as maps from pages to entries. -/
theorem calls_are_map (h : Reach FreshCalls x) (hf : x.Fresh) : MapCalls x := by
  obtain ⟨top, hok⟩ := reach_ok h
  exact hok.mapCalls hf

/-! ## Frame 0 -/

/-- The first page of the higher half. -/
def firstKernelPage : Nat := 0xFFFF800000000000

/-- The small machine with that page mapped to frame 0. -/
def mappedSys : Sys := exec smallSys (.map firstKernelPage 0 7)

theorem smallSys_ok : Ok smallSys smallSys.top := (boot_ok small_bootTables small_initPaging).1

theorem mappedSys_ok : Ok mappedSys smallSys.top := exec_ok smallSys_ok smallSys_fresh trivial

theorem mappedSys_fresh : mappedSys.Fresh := by
  have hm := mapPage_shape smallSys_ok.shape smallSys_fresh (Ok.kernel_mem _) firstKernelPage 0 7
  have heq := vmmMapPage_eq smallSys_ok.shape firstKernelPage 0 7
  rw [mappedSys_ok.fresh, mappedSys, exec, heq]
  unfold Sys.live
  dsimp only
  rw [hm.2.2]
  exact hm.2.1

theorem mappedSys_reach : Reach FreshCalls mappedSys :=
  Reach.step (smallSys_reach _) ⟨trivial, smallSys_fresh⟩

theorem calls_are_map_mappedSys : mappedSys.Fresh ∧ MapCalls mappedSys :=
  ⟨mappedSys_fresh, calls_are_map mappedSys_reach mappedSys_fresh⟩

/-- The page is unmapped, and `PHYS_NULL` returned. -/
theorem frame_zero_unmapped : Reach FreshCalls mappedSys ∧ mappedSys.Fresh ∧
    (vmmUnmapPageFrom mappedSys.vm firstKernelPage 0x1000).1 = Pmm.physNull ∧
    ¬ Keeps mappedSys (vmmUnmapPageFrom mappedSys.vm firstKernelPage 0x1000).2 := by
  have hret : (vmmMapPage smallSys.vm firstKernelPage 0 7).1 = true := by decide
  have hkernel : mappedSys.vm.kernelPml4Phys = 0x1000 := by
    have hm := mapPage_shape smallSys_ok.shape smallSys_fresh (Ok.kernel_mem _) firstKernelPage 0 7
    rw [mappedSys, exec, vmmMapPage_eq smallSys_ok.shape]
    exact hm.2.2
  have hlive : 0x1000 ∈ mappedSys.live := hkernel ▸ Ok.kernel_mem mappedSys
  have hmapped : translate mappedSys.vm 0x1000 firstKernelPage = some ⟨0, 7⟩ := by
    have hupd := ((smallSys_ok.mapCalls smallSys_fresh).map firstKernelPage 0 7 (by decide)).1 hret
    exact (hupd 0x1000 (Ok.kernel_mem smallSys) firstKernelPage).trans (if_pos (by decide))
  obtain ⟨hnull, hupd⟩ := ((mappedSys_ok.mapCalls mappedSys_fresh).unmapFrom 0x1000 0x1000 hlive
    rfl firstKernelPage).1 7 hmapped
  refine ⟨mappedSys_reach, mappedSys_fresh, hnull, fun hkeep => ?_⟩
  have hafter := (hupd 0x1000 hlive firstKernelPage).trans (if_pos (by decide))
  rw [hkeep 0x1000 hlive firstKernelPage, hmapped] at hafter
  cases hafter

end Kyuzen.Paging
