import Kyuzen.Paging.Bytes
import Kyuzen.Paging.Elsewhere
import Kyuzen.Proc.Spaces

/-!
# Pages of the lower half

What the calls of the loader and of the user heap do to the pages of one address space: a frame is
taken (`Taken`), mapped at a page (`MapsPage`) or not (`KeepsPages`), unmapped and given back
(`Ready.unmap`). A frame that backs a page is in use, and backs no other page, so that two
addresses of programs never stand for one byte (`Ready.physAddr_inj`).

What a sequence of such calls leaves in use beyond the frames that were in use before is seen by
comparing with the memory from which the space has been taken out: these are the tables of the
space and its pages (`Ready.frames_back`).
-/

namespace Kyuzen.Proc

open Paging (translate SamePage allocPage freePage freeOwned vmmMapPageInto vmmAllocPageInto
  vmmUnmapPageFrom Disciplined lowerEnd physAddr)

variable {vm vm' : Paging.State} {spaces : Finset Nat} {r va va' pa e e' : Nat}

theorem Ready.sound (h : Ready vm spaces) :
    ∃ (x : Paging.Sys) (top : Fin 512 → Nat), Paging.Reach Disciplined x ∧ x.vm = vm ∧
      x.spaces = spaces ∧ Paging.Sound x top := by
  obtain ⟨x, hx, rfl, rfl⟩ := h
  obtain ⟨top, hs⟩ := Paging.reach_sound hx
  exact ⟨x, top, hx, rfl, rfl, hs⟩

/-- The addresses of a page of a region. -/
theorem page_iff {base i : Nat} (hbase : base % 4096 = 0) :
    (base + i * 4096) / 4096 = va / 4096 ↔
      base + i * 4096 ≤ va ∧ va < base + (i + 1) * 4096 := by
  omega

/-! ## Single calls -/

/-- A frame that was free has been taken. -/
structure Taken (vm : Paging.State) (pa : Nat) (vm' : Paging.State) : Prop where
  ne_null : pa ≠ Pmm.physNull
  aligned : pa % 4096 = 0
  free : vm.pmm.used (pa / 4096) = false
  used : vm'.pmm.used (pa / 4096) = true
  mono : ∀ i, vm.pmm.used i = true → vm'.pmm.used i = true
  mem : vm'.mem = vm.mem

theorem Ready.alloc (h : Ready vm spaces) :
    Taken vm (allocPage vm).1 (allocPage vm).2 ∨ allocPage vm = (Pmm.physNull, vm) := by
  obtain ⟨x, top, -, rfl, rfl, hs⟩ := h.sound
  rcases Paging.allocPage_cases hs.ok.shape.pmm with ⟨m, hm, hz, -, heq⟩ | heq
  · left
    rw [heq]
    have hused := Paging.used_of_take hm hz
    refine ⟨hused.ne_null, hm.aligned, hm.free, hused.used, ?_, rfl⟩
    intro i hi
    show (x.vm.pmm.take (m / 4096)).used i = true
    rw [Pmm.used_take, hi, Bool.or_true]
  · exact Or.inr heq

/-- Giving a frame back frees no other frame. -/
theorem freePage_used {i : Nat} (hne : i ≠ pa / 4096) :
    (freePage vm pa).pmm.used i = vm.pmm.used i := by
  unfold freePage Pmm.pmmFreePage
  dsimp only
  split_ifs
  all_goals try rfl
  show (vm.pmm.release (pa / 4096)).used i = vm.pmm.used i
  rw [Pmm.used_release, decide_eq_true hne, Bool.true_and]

/-- A frame that has been taken and is given back was free. -/
theorem Taken.mono_freePage {vm₁ vm₂ : Paging.State} (h : Taken vm pa vm₁)
    (hmono : ∀ i, vm₁.pmm.used i = true → vm₂.pmm.used i = true) {i : Nat}
    (hi : vm.pmm.used i = true) : (freePage vm₂ pa).pmm.used i = true := by
  have hne : i ≠ pa / 4096 := by
    rintro rfl
    rw [h.free] at hi
    cases hi
  rw [freePage_used hne]
  exact hmono i (h.mono i hi)

/-- The page of `va` has become `pa`; the other pages of the lower half stay. -/
structure MapsPage (r va pa : Nat) (vm vm' : Paging.State) : Prop where
  page : ∀ va' < lowerEnd, translate vm' r va' =
    if va / 4096 = va' / 4096 then some ⟨0, Paging.pageMask pa ||| 7⟩ else translate vm r va'
  mono : ∀ i, vm.pmm.used i = true → vm'.pmm.used i = true

/-- No page has changed. -/
structure KeepsPages (r : Nat) (vm vm' : Paging.State) : Prop where
  page : ∀ va', translate vm' r va' = translate vm r va'
  mono : ∀ i, vm.pmm.used i = true → vm'.pmm.used i = true

theorem Ready.map_mono (h : Ready vm spaces) (hr : r ∈ spaces) (va pa : Nat) {i : Nat}
    (hi : vm.pmm.used i = true) : (vmmMapPageInto vm va pa 7 r).2.pmm.used i = true := by
  have hnull := h.ne_null hr
  obtain ⟨x, top, -, rfl, rfl, hs⟩ := h.sound
  have hlive : r ∈ x.live := Finset.mem_insert_of_mem hr
  unfold vmmMapPageInto
  rw [if_neg hnull]
  rcases Paging.mapPage_cases hs.ok.shape hs.owned.fresh hlive va pa 7 with
    ⟨s', heq, hg⟩ | ⟨s', pt, hg, -, heq⟩
  · rw [heq]
    exact hg.used_mono i hi
  · rw [heq]
    exact hg.used_mono i hi

theorem Ready.map (h : Ready vm spaces) (hr : r ∈ spaces) (hva : va < lowerEnd) (pa : Nat) :
    (vmmMapPageInto vm va pa 7 r).1 = true ∧ MapsPage r va pa vm (vmmMapPageInto vm va pa 7 r).2 ∨
      (vmmMapPageInto vm va pa 7 r).1 = false ∧
        KeepsPages r vm (vmmMapPageInto vm va pa 7 r).2 := by
  have hmono := fun i => h.map_mono hr va pa (i := i)
  obtain ⟨x, top, -, rfl, rfl, hs⟩ := h.sound
  have hcalls := hs.ok.mapCalls (hs.ok.fresh.mpr hs.owned.fresh)
  have hlive : r ∈ x.live := Finset.mem_insert_of_mem hr
  obtain ⟨hdone, hfail⟩ := hcalls.mapInto r hlive va pa 7 (by decide)
  cases hout : (vmmMapPageInto x.vm va pa 7 r).1 with
  | false => exact Or.inr ⟨rfl, fun va' => hfail hout r hlive va', hmono⟩
  | true =>
    refine Or.inl ⟨rfl, ?_, hmono⟩
    intro va' hva'
    rw [hdone hout r hlive va']
    by_cases hpage : va / 4096 = va' / 4096
    · rw [if_pos hpage, if_pos ⟨(Paging.samePage_lower hva hva').mpr hpage, Or.inl rfl⟩]
    · rw [if_neg hpage, if_neg fun hc => hpage ((Paging.samePage_lower hva hva').mp hc.1)]

/-- `vmm_alloc_page_into` maps a new frame, or gives back what it has taken. -/
theorem Ready.allocInto_cases (h : Ready vm spaces) (hr : r ∈ spaces) (hva : va < lowerEnd) :
    (vmmAllocPageInto vm va 7 r).1 = true ∧
        (∃ pa vm₁, Taken vm pa vm₁ ∧ MapsPage r va pa vm₁ (vmmAllocPageInto vm va 7 r).2) ∨
      (vmmAllocPageInto vm va 7 r).1 = false ∧
        KeepsPages r vm (vmmAllocPageInto vm va 7 r).2 := by
  have hnull := h.ne_null hr
  obtain ⟨halloc, -⟩ := h.allocMap hr va
  unfold vmmAllocPageInto Paging.allocAndMap
  dsimp only
  rcases h.alloc with ht | heq
  · rw [if_neg ht.ne_null, if_pos hnull]
    have hcases := halloc.map hr hva (allocPage vm).1
    cases hout : vmmMapPageInto (allocPage vm).2 va (allocPage vm).1 7 r with
    | mk ok vm₂ =>
      rw [hout] at hcases
      cases ok with
      | true =>
        obtain ⟨-, hm⟩ : true = true ∧ _ := by simpa using hcases
        exact Or.inl ⟨rfl, _, _, ht, hm⟩
      | false =>
        obtain ⟨-, hk⟩ : false = false ∧ _ := by simpa using hcases
        refine Or.inr ⟨rfl, ?_, ?_⟩
        · intro va'
          exact (hk.page va').trans (Paging.translate_congr ht.mem)
        · exact fun i hi => ht.mono_freePage hk.mono hi
  · rw [heq, if_pos rfl]
    exact Or.inr ⟨rfl, fun _ => rfl, fun _ => id⟩

/-- A page is unmapped, if it is not part of a huge page. -/
theorem Ready.unmap (h : Ready vm spaces) (hr : r ∈ spaces) (hva : va < lowerEnd)
    (hsmall : ∀ m, translate vm r va = some m → m.level = 0) :
    ∀ va' < lowerEnd, translate (vmmUnmapPageFrom vm va r).2 r va' =
      if va / 4096 = va' / 4096 then none else translate vm r va' := by
  have hnull := h.ne_null hr
  obtain ⟨x, top, -, rfl, rfl, hs⟩ := h.sound
  have hcalls := hs.ok.mapCalls (hs.ok.fresh.mpr hs.owned.fresh)
  have hlive : r ∈ x.live := Finset.mem_insert_of_mem hr
  obtain ⟨hmapped, hfree, -⟩ := hcalls.unmapFrom r r hlive (if_pos hnull) va
  intro va' hva'
  cases htrans : translate x.vm r va with
  | none =>
    rw [(hfree (by rw [htrans]; exact fun e hc => by cases hc)).2 r hlive va']
    by_cases hpage : va / 4096 = va' / 4096
    · rw [if_pos hpage, ← htrans]
      exact (Paging.translate_page hva hva' hpage).symm
    · rw [if_neg hpage]
  | some m =>
    obtain ⟨level, e⟩ := m
    have hlevel : level = 0 := hsmall _ htrans
    subst hlevel
    rw [(hmapped e htrans).2 r hlive va']
    by_cases hpage : va / 4096 = va' / 4096
    · rw [if_pos hpage, if_pos ⟨(Paging.samePage_lower hva hva').mpr hpage, Or.inl rfl⟩]
    · rw [if_neg hpage, if_neg fun hc => hpage ((Paging.samePage_lower hva hva').mp hc.1)]

/-! ## Frames -/

/-- A page of the lower half is a leaf of the forest of tables. -/
theorem leaf_of_translate {live : Finset Nat} {top : Fin 512 → Nat}
    (hs : Paging.Shape vm live top) (hr : r ∈ live) (hlow : (Paging.pml4Idx va).val < 256)
    (he : translate vm r va = some ⟨0, e⟩) :
    Paging.Leaf vm live top r (Paging.pagePath va) (Paging.pageMask e) := by
  have hanchor : Paging.anchorOf r va = .space r := if_pos hlow
  rw [Paging.translate_eq hs hr, hanchor] at he
  obtain ⟨y, hy, heq⟩ := Option.map_eq_some_iff.mp he
  have hy0 : y = (0, e) := by
    injection heq with h0 h1
    exact Prod.ext h0 h1
  rw [hy0] at hy
  refine ⟨?_, e, hy, rfl⟩
  rw [Paging.pagePath_length r, hanchor]
  rfl

/-- A frame backs one page, of all pages of all address spaces. -/
theorem Ready.frame_unique (h : Ready vm spaces) {r' : Nat} (hr : r ∈ spaces)
    (hr' : r' ∈ spaces) (hlow : (Paging.pml4Idx va).val < 256)
    (hlow' : (Paging.pml4Idx va').val < 256) (he : translate vm r va = some ⟨0, e⟩)
    (he' : translate vm r' va' = some ⟨0, e'⟩) (hframe : Paging.pageMask e = Paging.pageMask e') :
    r = r' ∧ SamePage va va' := by
  obtain ⟨x, top, -, rfl, rfl, hs⟩ := h.sound
  have hone := leaf_of_translate hs.ok.shape (Finset.mem_insert_of_mem hr) hlow he
  have hother := leaf_of_translate hs.ok.shape (Finset.mem_insert_of_mem hr') hlow' he'
  rw [hframe] at hone
  obtain ⟨rfl, hpath⟩ := hs.owned.leaf_inj hr hr' hone hother
  refine ⟨rfl, ?_⟩
  have hanchor : Paging.anchorOf r va' = Paging.anchorOf r va := by
    rw [Paging.anchorOf, Paging.anchorOf, if_pos hlow, if_pos hlow']
  exact (Paging.page_eq_iff.mp ⟨hanchor, hpath.symm⟩).1

theorem Ready.frame_used (h : Ready vm spaces) (hr : r ∈ spaces) (hva : va < lowerEnd)
    (he : translate vm r va = some ⟨0, e⟩) : vm.pmm.used (Paging.pageMask e / 4096) = true := by
  obtain ⟨x, top, -, rfl, rfl, hs⟩ := h.sound
  exact (hs.owned.leaf_used hr (leaf_of_translate hs.ok.shape (Finset.mem_insert_of_mem hr)
    (Paging.pml4Idx_lower hva) he)).used

theorem frame_offset {m n i j : Nat} (h : m / 4096 * 4096 + i % 4096 = n / 4096 * 4096 + j % 4096) :
    m / 4096 * 4096 = n / 4096 * 4096 ∧ i % 4096 = j % 4096 := by
  omega

theorem pageMask_add_div (e va : Nat) :
    (Paging.pageMask e + va % 4096) / 4096 = Paging.pageMask e / 4096 := by
  unfold Paging.pageMask
  omega

/-- Two addresses of a program stand for two bytes. -/
theorem Ready.physAddr_inj (h : Ready vm spaces) (hr : r ∈ spaces) (hva : va < lowerEnd)
    (hva' : va' < lowerEnd) (he : translate vm r va = some ⟨0, e⟩)
    (he' : translate vm r va' = some ⟨0, e'⟩) (heq : physAddr vm r va = physAddr vm r va') :
    va = va' := by
  rw [Paging.physAddr_page hva he, Paging.physAddr_page hva' he'] at heq
  obtain ⟨hframe, hoffset⟩ := frame_offset (Option.some.inj heq)
  have hsame := (h.frame_unique hr hr (Paging.pml4Idx_lower hva) (Paging.pml4Idx_lower hva') he he'
    hframe).2
  have hpage := (Paging.samePage_lower hva hva').mp hsame
  omega

/-! ## What stays in use -/

/-- `f` is reached from the PML4 `r` through entries that point to tables. -/
def PageTable (vm : Paging.State) (r f : Nat) : Prop :=
  ∃ p, Lib.Radix.walk Paging.nextOf vm.mem 3 r p = some f

/-- A frame that is taken for a page, as the allocating calls do it. -/
theorem allocMap_eq (va r : Nat) (vm : Paging.State) :
    (if (allocPage vm).1 = Pmm.physNull then (allocPage vm).2
      else if (vmmMapPageInto (allocPage vm).2 va (allocPage vm).1 7 r).1 = true then
        (vmmMapPageInto (allocPage vm).2 va (allocPage vm).1 7 r).2
      else freePage (vmmMapPageInto (allocPage vm).2 va (allocPage vm).1 7 r).2 (allocPage vm).1) =
    Paging.userExec r vm (.mapInto va 7) := by
  simp only [Paging.userExec, Paging.allocAndMap]
  split_ifs with hnull hok
  · rfl
  · rw [← Prod.mk.eta (p := vmmMapPageInto _ _ _ _ _), hok]
  · rw [Bool.not_eq_true] at hok
    rw [← Prod.mk.eta (p := vmmMapPageInto _ _ _ _ _), hok]

/-- Unmapping a page gives its frame back. -/
structure Unmaps (r va : Nat) (vm vm' : Paging.State) : Prop where
  exec : vm' = Paging.userExec r vm (.unmapFrom va)
  freed : ∀ e, translate vm r va = some ⟨0, e⟩ → vm'.pmm.used (Paging.pageMask e / 4096) = false
  mono : ∀ i, vm'.pmm.used i = true → vm.pmm.used i = true

theorem Ready.unmaps (h : Ready vm spaces) (hr : r ∈ spaces) (hva : va < lowerEnd) :
    Unmaps r va vm (if (vmmUnmapPageFrom vm va r).1 = Pmm.physNull then (vmmUnmapPageFrom vm va r).2
      else freeOwned (vmmUnmapPageFrom vm va r).2 (vmmUnmapPageFrom vm va r).1) := by
  have hnull := h.ne_null hr
  obtain ⟨x, top, -, rfl, rfl, hs⟩ := h.sound
  have hlive : r ∈ x.live := Finset.mem_insert_of_mem hr
  have hlow := Paging.pml4Idx_lower hva
  have ha : Paging.anchorOf r va = .space r := if_pos hlow
  have htarget : Paging.targetPml4 x.vm r = some r := if_pos hnull
  rcases Paging.unmapPage_cases hs.ok.shape hlive va with
    ⟨heq, hnone⟩ | ⟨pt, e, hpt, hentry, heq⟩
  · have hout : vmmUnmapPageFrom x.vm va r = (Pmm.physNull, x.vm) := by
      unfold vmmUnmapPageFrom
      simp only [htarget, heq]
    rw [hout, if_pos rfl]
    refine ⟨?_, ?_, fun _ => id⟩
    · simp only [Paging.userExec, hout, if_true]
    · intro e he
      rw [Paging.translate_eq hs.ok.shape hlive] at he
      obtain ⟨y, hy, hye⟩ := Option.map_eq_some_iff.mp he
      have hy0 : y = (0, e) := by
        injection hye with h0 h1
        exact Prod.ext h0 h1
      rw [hy0] at hy
      exact absurd hy (hnone e)
  · have hout : vmmUnmapPageFrom x.vm va r =
        (Paging.pageMask e, Paging.setEntry x.vm pt (Paging.ptIdx va) 0) := by
      unfold vmmUnmapPageFrom
      simp only [htarget, heq]
    obtain ⟨hw, -⟩ := Paging.setEntry_written hs.ok.shape hs.owned.fresh hpt
      (Paging.dirPath_length r va) (Paging.ptIdx va) 0
    have htrans : translate x.vm r va = some ⟨0, e⟩ := by
      rw [Paging.translate_eq hs.ok.shape hlive, hentry]
      rfl
    have hleaf := leaf_of_translate hs.ok.shape hlive hlow htrans
    have hused := hs.owned.leaf_used hr hleaf
    have hne := hused.ne_null
    rw [← hw.pmm] at hused
    obtain ⟨hfree, hfree', -⟩ := Paging.freeOwned_used hw.shape.pmm hused
    rw [hout, if_neg hne]
    refine ⟨?_, ?_, ?_⟩
    · simp only [Paging.userExec, hout, if_neg hne, hfree, hfree']
    · intro e' he'
      rw [htrans] at he'
      cases he'
      rw [hfree]
      show (Pmm.State.release _ _).used _ = false
      rw [Pmm.used_release, decide_eq_false (not_not.mpr rfl), Bool.false_and]
    · intro i hi
      rw [hfree] at hi
      have hi : (Pmm.State.release _ _).used i = true := hi
      rw [Pmm.used_release, Bool.and_eq_true] at hi
      rw [← hw.pmm]
      exact hi.2

/-- The address of the page at a path. -/
theorem exists_page {live : Finset Nat} {top : Fin 512 → Nat} (hs : Paging.Shape vm live top)
    (hlive : r ∈ live) {p : List (Fin 512)} {f : Nat} (hl : Paging.Leaf vm live top r p f) :
    ∃ va e, va < lowerEnd ∧ translate vm r va = some ⟨0, e⟩ ∧ Paging.pageMask e = f := by
  have hend : lowerEnd = 140737488355328 := rfl
  obtain ⟨i4, q, rfl, hi⟩ := hl.lower hlive
  obtain ⟨hlen, e, hentry, hf⟩ := hl
  obtain ⟨i3, i2, i1, rfl⟩ : ∃ i3 i2 i1, q = [i3, i2, i1] := by
    have hq : q.length = 3 := by simpa using hlen
    exact List.length_eq_three.mp hq
  have h3 := i3.isLt
  have h2 := i2.isLt
  have h1 := i1.isLt
  generalize hva : i4.val * 549755813888 + i3.val * 1073741824 + i2.val * 2097152 +
    i1.val * 4096 = va
  have hidx : Paging.pml4Idx va = i4 ∧ Paging.pdptIdx va = i3 ∧ Paging.pdIdx va = i2 ∧
      Paging.ptIdx va = i1 := by
    refine ⟨Fin.ext ?_, Fin.ext ?_, Fin.ext ?_, Fin.ext ?_⟩
    · show va / 2 ^ 39 % 512 = i4.val
      omega
    · show va / 2 ^ 30 % 512 = i3.val
      omega
    · show va / 2 ^ 21 % 512 = i2.val
      omega
    · show va / 2 ^ 12 % 512 = i1.val
      omega
  obtain ⟨e4, e3, e2, e1⟩ := hidx
  have hlow : (Paging.pml4Idx va).val < 256 := by
    rw [e4]
    exact hi
  have hpath : Paging.pagePath va = [i4, i3, i2, i1] := by
    unfold Paging.pagePath Paging.dirPath Paging.pdptPath
    rw [if_pos hlow, e4, e3, e2, e1]
    rfl
  have hanchor : Paging.anchorOf r va = .space r := if_pos hlow
  refine ⟨va, e, by omega, ?_, hf⟩
  rw [Paging.translate_eq hs hlive, hanchor, hpath, hentry]
  rfl

/-- The memory without the space `r` is the begin of a life of `r` that has led to the memory
with it. -/
theorem conserved_self {x : Paging.Sys} {top : Fin 512 → Nat} (hs : Paging.Sound x top)
    (hr : r ∈ x.spaces) :
    Paging.Conserved (Paging.vmmDestroyAddressSpace x.vm r true) (x.live.erase r)
      (x.spaces.erase r) x.held x.held top r x.vm := by
  have hlive : r ∈ x.live := Finset.mem_insert_of_mem hr
  have hd := hs.owned.dissolved hr true
  have hframe : ∀ f, f ∈ Paging.spaceFrames x.vm r true ↔ Paging.FrameOf x.vm x.live top r f :=
    fun _ => Paging.frameOf_iff hlive
  have hback : insert r (x.live.erase r) = x.live := Finset.insert_erase hlive
  refine ⟨?_, ?_, ?_, ?_, ?_, hd.freed.warnings.symm⟩
  · rw [hback, Finset.insert_erase hr]
    exact hs.owned
  · intro i hi
    rw [hback]
    by_cases hf : Paging.FrameOf x.vm x.live top r (i * 4096)
    · exact Or.inr (Or.inl hf)
    · exact Or.inl ((hd.freed.used i).mpr ⟨hi, fun hc => hf ((hframe _).mp hc)⟩)
  · exact fun i hi => ((hd.freed.used i).mp hi).1
  · rintro f (hf | ⟨hf, hno⟩)
    · rw [hback] at hf
      have hmem := (hframe f).mpr hf
      rw [← Bool.not_eq_true]
      intro hu
      have haligned : f % 4096 = 0 := by
        obtain ⟨p, hp | hl⟩ := hf
        · exact (hs.owned.table_used hr hp).aligned
        · exact (hs.owned.leaf_used hr hl).aligned
      refine ((hd.freed.used _).mp hu).2 ?_
      rwa [Paging.page_index haligned]
    · exact absurd hf hno
  · intro b q n hb hn
    obtain ⟨hold, -⟩ := hd.table (Finset.erase_subset r x.live)
      (fun _ => Finset.notMem_erase r x.live) hn
    rw [hback]
    exact ⟨hold, (hd.destroyed.other hb hold).symm⟩

/-- After calls that have left the pages of the space as they were, only frames of its tables have
come into use. -/
theorem Ready.frames_back (h : Ready vm spaces) (hr : r ∈ spaces)
    (hrun : Paging.UserRun r vm vm')
    (hsame : ∀ va < lowerEnd, translate vm' r va = translate vm r va) {i : Nat}
    (hi : vm'.pmm.used i = true) : vm.pmm.used i = true ∨ PageTable vm' r (i * 4096) := by
  obtain ⟨x, top, -, rfl, rfl, hs⟩ := h.sound
  have hlive : r ∈ x.live := Finset.mem_insert_of_mem hr
  have hback : insert r (x.live.erase r) = x.live := Finset.insert_erase hlive
  have hcons := hrun.conserved (conserved_self hs hr)
  have hd := hs.owned.dissolved hr true
  rcases hcons.used i hi with hold | ⟨p, hp | hl⟩ | hheld
  · exact Or.inl ((hd.freed.used i).mp hold).1
  · right
    refine ⟨p, ?_⟩
    rw [hback, Paging.tableAt, Lib.Radix.node_of_root (Paging.roots_space hlive)] at hp
    exact hp
  · left
    have hshape := hcons.owned.shape
    rw [hback] at hl hshape
    obtain ⟨va, e, hva, he, hf⟩ := exists_page hshape hlive hl
    rw [hsame va hva] at he
    have hused := h.frame_used hr hva he
    rw [hf] at hused
    rwa [Nat.mul_div_cancel i (by decide)] at hused
  · left
    have hused := (hs.owned.held_used _ hheld).used
    rwa [Nat.mul_div_cancel i (by decide)] at hused

end Kyuzen.Proc
