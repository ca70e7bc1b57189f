import Kyuzen.Paging.Conserve
import Kyuzen.Proc.Model

/-!
# The address spaces of the tasks

Every call of an application keeps the discipline of the virtual memory manager's callers: the
loader and the user heap map only frames that they have just got, and give back only frames that
they have just unmapped. So the memory of a reachable state is one of those that
`Paging.Reach Disciplined` describes (`Ready`), and the address spaces that exist are at least
those of the tasks, each of which has its own (`reach_spaces`).
-/

namespace Kyuzen.Proc

open Paging (Sys Disciplined allocPage freePage freeOwned vmmMapPageInto vmmUnmapPageFrom
  vmmAllocPageInto vmmCreateAddressSpace vmmDestroyAddressSpace)

/-- The memory that calls of the virtual memory manager lead to, with these address spaces. -/
def Ready (vm : Paging.State) (spaces : Finset Nat) : Prop :=
  ∃ x : Sys, Paging.Reach Disciplined x ∧ x.vm = vm ∧ x.spaces = spaces

variable {vm : Paging.State} {spaces : Finset Nat} {r : Nat}

namespace Ready

theorem ne_null (h : Ready vm spaces) (hr : r ∈ spaces) : r ≠ Pmm.physNull := by
  obtain ⟨x, hx, rfl, rfl⟩ := h
  obtain ⟨top, hs⟩ := Paging.reach_sound hx
  exact hs.owned.ne_null hr

theorem allocInto (h : Ready vm spaces) (hr : r ∈ spaces) (va : Nat) :
    Ready (vmmAllocPageInto vm va 7 r).2 spaces := by
  obtain ⟨x, hx, rfl, rfl⟩ := h
  refine ⟨Paging.exec x (.allocInto va 7 r), hx.step ⟨Or.inr ?_, fun _ => by decide⟩, rfl, rfl⟩
  exact Finset.mem_insert_of_mem hr

theorem allocKernel (h : Ready vm spaces) (va flags : Nat) :
    Ready (Paging.vmmAllocPageKernel vm va flags).2 spaces := by
  obtain ⟨x, hx, rfl, rfl⟩ := h
  exact ⟨Paging.exec x (.allocKernel va flags), hx.step ⟨trivial, trivial⟩, rfl, rfl⟩

/-- A frame is allocated, and mapped or given back. -/
theorem allocMap (h : Ready vm spaces) (hr : r ∈ spaces) (va : Nat) :
    let m := allocPage vm
    let out := vmmMapPageInto m.2 va m.1 7 r
    Ready m.2 spaces ∧ (m.1 ≠ Pmm.physNull →
      Ready out.2 spaces ∧ (out.1 = false → Ready (freePage out.2 m.1) spaces)) := by
  obtain ⟨x, hx, rfl, rfl⟩ := h
  dsimp only
  have halloc : Paging.Reach Disciplined (Paging.exec x .alloc) := hx.step ⟨trivial, trivial⟩
  refine ⟨⟨_, halloc, rfl, rfl⟩, fun hm => ?_⟩
  have hheld : (allocPage x.vm).1 ∈ (Paging.exec x .alloc).held := by
    simp only [Paging.exec, if_neg hm]
    exact Finset.mem_insert_self _ _
  have hmap : Paging.Reach Disciplined
      (Paging.exec (Paging.exec x .alloc) (.mapInto va (allocPage x.vm).1 7 r)) :=
    halloc.step ⟨Or.inr (Finset.mem_insert_of_mem hr), fun _ => ⟨hheld, by decide⟩⟩
  refine ⟨⟨_, hmap, rfl, rfl⟩, fun hfail => ?_⟩
  have hstill : (allocPage x.vm).1 ∈ (Paging.exec (Paging.exec x .alloc)
      (.mapInto va (allocPage x.vm).1 7 r)).held := by
    have hno : ¬ ((vmmMapPageInto (Paging.exec x .alloc).vm va (allocPage x.vm).1 7 r).1 = true ∧
        (Paging.exec x .alloc).UserPage r va) := fun hc => by
      have hfail' : (vmmMapPageInto (Paging.exec x .alloc).vm va (allocPage x.vm).1 7 r).1 =
        false := hfail
      rw [hfail'] at hc
      cases hc.1
    have heq : (Paging.exec (Paging.exec x .alloc) (.mapInto va (allocPage x.vm).1 7 r)).held =
        (Paging.exec x .alloc).held := if_neg hno
    rw [heq]
    exact hheld
  have hfree : Paging.Reach Disciplined (Paging.exec (Paging.exec (Paging.exec x .alloc)
      (.mapInto va (allocPage x.vm).1 7 r)) (.free (allocPage x.vm).1)) :=
    hmap.step ⟨trivial, hstill⟩
  exact ⟨_, hfree, rfl, rfl⟩

/-- A user page is unmapped, and its frame given back. -/
theorem unmapFree (h : Ready vm spaces) (hr : r ∈ spaces) {va : Nat}
    (hva : (Paging.pml4Idx va).val < 256) :
    let out := vmmUnmapPageFrom vm va r
    Ready (if out.1 = Pmm.physNull then out.2 else freeOwned out.2 out.1) spaces := by
  obtain ⟨x, hx, rfl, rfl⟩ := h
  dsimp only
  have hunmap : Paging.Reach Disciplined (Paging.exec x (.unmapFrom va r)) :=
    hx.step ⟨Or.inr (Finset.mem_insert_of_mem hr), trivial⟩
  split_ifs with hnull
  · exact ⟨_, hunmap, rfl, rfl⟩
  · unfold freeOwned
    split_ifs with howns
    · refine ⟨Paging.exec (Paging.exec x (.unmapFrom va r)) (.free (vmmUnmapPageFrom x.vm va r).1),
        hunmap.step ⟨trivial, ?_⟩, rfl, rfl⟩
      have hyes : (vmmUnmapPageFrom x.vm va r).1 ≠ Pmm.physNull ∧ x.UserPage r va :=
        ⟨hnull, hr, hva⟩
      have heq : (Paging.exec x (.unmapFrom va r)).held =
          insert (vmmUnmapPageFrom x.vm va r).1 x.held := if_pos hyes
      change _ ∈ (Paging.exec x (.unmapFrom va r)).held
      rw [heq]
      exact Finset.mem_insert_self _ _
    · exact ⟨_, hunmap, rfl, rfl⟩

/-- A new address space, or nothing. -/
theorem create (h : Ready vm spaces) :
    vmmCreateAddressSpace vm = (Pmm.physNull, vm) ∨
      ∃ m vm', vmmCreateAddressSpace vm = (m, vm') ∧ m ≠ Pmm.physNull ∧ m ∉ spaces ∧
        Ready vm' (insert m spaces) := by
  obtain ⟨x, hx, rfl, rfl⟩ := h
  obtain ⟨top, hs⟩ := Paging.reach_sound hx
  rcases Paging.createSpace_cases hs.ok.shape hs.owned.fresh with heq | ⟨m, vm', heq, hc⟩
  · exact Or.inl heq
  · have hm : m ≠ Pmm.physNull := (Paging.used_of_take hc.free hc.above).ne_null
    refine Or.inr ⟨m, vm', heq, hm, fun hmem => hc.notMem (Finset.mem_insert_of_mem hmem), ?_⟩
    refine ⟨Paging.exec x .create, hx.step ⟨trivial, trivial⟩, ?_, ?_⟩
    · simp only [Paging.exec, heq]
    · simp only [Paging.exec, heq, if_neg hm]

/-- The PML4 of a new address space is the frame that is handed out next. -/
theorem create_fst (h : Ready vm spaces) :
    (vmmCreateAddressSpace vm).1 = (Pmm.pmmAllocPage vm.pmm).1 := by
  obtain ⟨x, hx, rfl, rfl⟩ := h
  obtain ⟨top, hs⟩ := Paging.reach_sound hx
  unfold vmmCreateAddressSpace Paging.allocPageVirt allocPage
  rw [hs.ok.shape.current]
  dsimp only
  by_cases hnull : (Pmm.pmmAllocPage x.vm.pmm).1 = Pmm.physNull
  · rw [if_pos hnull, hnull]
  · rw [if_neg hnull]

/-- It is not made exactly if no frame is free. -/
theorem create_null_iff (h : Ready vm spaces) : (vmmCreateAddressSpace vm).1 = Pmm.physNull ↔
    ∀ i < vm.pmm.totalPages, vm.pmm.used i = true := by
  rw [h.create_fst]
  obtain ⟨x, hx, rfl, rfl⟩ := h
  obtain ⟨top, hs⟩ := Paging.reach_sound hx
  exact Pmm.alloc_eq_null_iff hs.ok.shape.pmm

/-- The lower half of a new address space is empty. -/
theorem create_empty (h : Ready vm spaces) {va : Nat} (hva : (Paging.pml4Idx va).val < 256)
    (hne : (vmmCreateAddressSpace vm).1 ≠ Pmm.physNull) :
    Paging.translate (vmmCreateAddressSpace vm).2 (vmmCreateAddressSpace vm).1 va = none := by
  obtain ⟨x, hx, rfl, rfl⟩ := h
  obtain ⟨top, hs⟩ := Paging.reach_sound hx
  rw [(Paging.create_map hs.ok hs.owned.fresh).2 hne va]
  exact if_neg (by omega)

theorem destroy (h : Ready vm spaces) (hr : r ∈ spaces) :
    Ready (vmmDestroyAddressSpace vm r true) (spaces.erase r) := by
  obtain ⟨x, hx, rfl, rfl⟩ := h
  exact ⟨Paging.exec x (.destroy r true), hx.step ⟨hr, trivial⟩, rfl, rfl⟩

/-- All frames of an address space that is destroyed are free afterwards. -/
theorem destroy_frees (h : Ready vm spaces) (hr : r ∈ spaces) :
    ∀ f ∈ Paging.spaceFrames vm r true,
      (vmmDestroyAddressSpace vm r true).pmm.used (f / 4096) = false := by
  obtain ⟨x, hx, rfl, rfl⟩ := h
  obtain ⟨top, hs⟩ := Paging.reach_sound hx
  have hd := hs.owned.dissolved hr true
  intro f hf
  have hused : Paging.PmmUsed x.vm.pmm f := by
    rcases Paging.mem_spaceFrames.mp hf with ⟨p, _, hp⟩ | ⟨_, rfl⟩
    · exact hs.owned.frame_used hr hp
    · exact hs.owned.table_used hr (Paging.tableAt_space (hs.owned.sub hr))
  rw [Bool.eq_false_iff]
  intro hstill
  refine ((hd.freed.used _).mp hstill).2 ?_
  rwa [Paging.page_index hused.aligned]

/-- Destroyed and made again, an address space has the PML4 that it had exactly if no free frame,
and no other frame of its own, lies below. -/
theorem create_again_iff (h : Ready vm spaces) (hr : r ∈ spaces) :
    (vmmCreateAddressSpace (vmmDestroyAddressSpace vm r true)).1 = r ↔
      (∀ i < vm.pmm.totalPages, vm.pmm.used i = false → r ≤ i * 4096) ∧
        ∀ f ∈ Paging.spaceFrames vm r true, r ≤ f := by
  rw [(h.destroy hr).create_fst]
  obtain ⟨x, hx, rfl, rfl⟩ := h
  obtain ⟨top, hs⟩ := Paging.reach_sound hx
  have hd := (hs.owned.dissolved hr true).freed
  have hself := hs.owned.table_used hr (Paging.tableAt_space (hs.owned.sub hr))
  have hpage : r / 4096 * 4096 = r := Paging.page_index hself.aligned
  have hmem : r ∈ Paging.spaceFrames x.vm r true := Paging.mem_spaceFrames.mpr (Or.inr ⟨rfl, rfl⟩)
  have hfree : ∀ i, (vmmDestroyAddressSpace x.vm r true).pmm.used i = false ↔
      x.vm.pmm.used i = false ∨ i * 4096 ∈ Paging.spaceFrames x.vm r true := by
    intro i
    rw [← Bool.not_eq_true, hd.used, not_and_or, Bool.not_eq_true, not_not]
  have hlowest : (Pmm.pmmAllocPage (vmmDestroyAddressSpace x.vm r true).pmm).1 = r ↔
      Pmm.LowestFree (vmmDestroyAddressSpace x.vm r true).pmm (r / 4096) := by
    rcases Pmm.alloc_cases hd.inv with ⟨i, hi, -, heq⟩ | ⟨hall, -⟩
    · rw [heq]
      refine ⟨fun hir => ?_, fun hlow => ?_⟩
      · have hir : i * 4096 = r := hir
        have hi' : i = r / 4096 := by omega
        exact hi' ▸ hi
      · rw [hi.unique hlow]
        exact hpage
    · have hused := hall (r / 4096) (hd.pages ▸ hself.tracked)
      rw [(hfree _).mpr (Or.inr (hpage.symm ▸ hmem))] at hused
      cases hused
  rw [hlowest]
  constructor
  · rintro ⟨-, hleast⟩
    refine ⟨fun i hi hno => ?_, fun f hf => ?_⟩
    · have := hleast ⟨hd.pages ▸ hi, (hfree i).mpr (Or.inl hno)⟩
      omega
    · have hused : Paging.PmmUsed x.vm.pmm f := by
        rcases Paging.mem_spaceFrames.mp hf with ⟨p, _, hp⟩ | ⟨_, rfl⟩
        · exact hs.owned.frame_used hr hp
        · exact hself
      have hfpage : f / 4096 * 4096 = f := Paging.page_index hused.aligned
      have := hleast ⟨hd.pages ▸ hused.tracked, (hfree _).mpr (Or.inr (hfpage.symm ▸ hf))⟩
      omega
  · rintro ⟨hother, hown⟩
    refine ⟨⟨hd.pages ▸ hself.tracked, (hfree _).mpr (Or.inr (hpage.symm ▸ hmem))⟩, ?_⟩
    rintro i ⟨hi, hno⟩
    rcases (hfree i).mp hno with hno | hf
    · have := hother i (hd.pages ▸ hi) hno
      omega
    · have := hown _ hf
      omega

/-- Destroyed at once and made again, a new address space has the PML4 that it had. -/
theorem create_destroy_create (h : Ready vm spaces)
    (hne : (vmmCreateAddressSpace vm).1 ≠ Pmm.physNull) :
    (vmmCreateAddressSpace (vmmDestroyAddressSpace (vmmCreateAddressSpace vm).2
      (vmmCreateAddressSpace vm).1 true)).1 = (vmmCreateAddressSpace vm).1 := by
  rcases h.create with heq | ⟨m, vm', heq, hm, hnew, hready⟩
  · rw [heq] at hne
    exact absurd rfl hne
  have hfst := h.create_fst
  rw [heq] at hfst ⊢
  refine (hready.create_again_iff (Finset.mem_insert_self m spaces)).mpr ?_
  obtain ⟨x, hx, rfl, rfl⟩ := h
  obtain ⟨top, hs⟩ := Paging.reach_sound hx
  rcases Paging.createSpace_cases hs.ok.shape hs.owned.fresh with hnull | ⟨m', s', hcreated, hc⟩
  · rw [heq] at hnull
    exact absurd (Prod.mk.inj hnull).1 hm
  rw [heq] at hcreated
  obtain ⟨rfl, rfl⟩ := Prod.mk.inj hcreated
  constructor
  · -- the frame was the lowest free one
    intro i hi hfree
    rcases Pmm.alloc_cases hs.ok.shape.pmm with ⟨j, hj, -, halloc⟩ | ⟨-, halloc⟩
    · rw [hc.pmm] at hi hfree
      have hold : x.vm.pmm.used i = false := by
        rw [Pmm.used_take] at hfree
        exact (Bool.or_eq_false_iff.mp hfree).2
      have hle := hj.2 ⟨hi, hold⟩
      rw [halloc] at hfst
      change m = j * 4096 at hfst
      omega
    · rw [halloc] at hfst
      exact absurd hfst hm
  · -- no entry of the lower half leads on
    intro f hf
    rcases Paging.mem_spaceFrames.mp hf with ⟨p, hp, hwalk⟩ | ⟨_, rfl⟩
    swap
    · exact le_refl f
    obtain ⟨i, q, rfl⟩ := List.exists_cons_of_ne_nil hp
    obtain ⟨n, hn, -⟩ := Option.bind_eq_some_iff.mp hwalk
    have hnode : Paging.tableAt vm' (insert m x.live) top (.space m) [i] = some n := by
      rw [Paging.tableAt,
        Lib.Radix.node_of_root (Paging.roots_space (Finset.mem_insert_self m x.live))]
      exact Option.bind_eq_some_iff.mpr ⟨n, hn, rfl⟩
    rcases hc.tables.mp hnode with ⟨-, hnil, -⟩ | hold
    · cases hnil
    · simp [Paging.tableAt, Lib.Radix.node, Paging.roots, hc.notMem] at hold

end Ready

/-! ## The loader -/

section Loader

variable (hr : r ∈ spaces)

include hr

theorem premap64_ready {segEnd : Nat} : ∀ {fuel page : Nat} {l : Elf.Load}, Ready l.vm spaces →
    Ready (Elf.premap64 r segEnd fuel page l).2.vm spaces := by
  intro fuel
  induction fuel with
  | zero => exact fun h => h
  | succ fuel ih =>
    intro page l h
    rw [Elf.premap64]
    dsimp only
    split_ifs
    · exact ih h
    · exact ih (h.allocInto hr page)
    · exact h.allocInto hr page
    · exact h

theorem premap32_ready {segEnd : Nat} : ∀ {fuel block : Nat} {l : Elf.Load}, Ready l.vm spaces →
    Ready (Elf.premap32 r segEnd fuel block l).2.vm spaces := by
  intro fuel
  induction fuel with
  | zero => exact fun h => h
  | succ fuel ih =>
    intro block l h
    rw [Elf.premap32]
    dsimp only
    split_ifs
    · exact ih (h.allocInto hr block)
    · exact h.allocInto hr block
    · exact h

omit hr in
theorem andThen_ready {next : Elf.Load → Elf.Outcome × Elf.Load} {out : Elf.Outcome × Elf.Load}
    (hout : Ready out.2.vm spaces)
    (hnext : ∀ l, Ready l.vm spaces → Ready (next l).2.vm spaces) :
    Ready (Elf.andThen next out).2.vm spaces := by
  obtain ⟨o, l⟩ := out
  cases o with
  | spinning => exact hout
  | failed => exact hout
  | done => exact hnext l hout

theorem segment64_ready (f : Elf.File) (fuel : Nat) (ph : Elf.Phdr) {l : Elf.Load}
    (h : Ready l.vm spaces) : Ready (Elf.segment64 f r fuel ph l).2.vm spaces := by
  unfold Elf.segment64
  split_ifs
  · exact h
  · exact h
  · exact andThen_ready (premap64_ready hr h) fun _ h => h

theorem segment32_ready (f : Elf.File) (fuel : Nat) (ph : Elf.Phdr) {l : Elf.Load}
    (h : Ready l.vm spaces) : Ready (Elf.segment32 f r fuel ph l).2.vm spaces := by
  unfold Elf.segment32
  split_ifs
  · exact h
  · exact andThen_ready (premap32_ready hr h) fun _ h => h

omit hr in
theorem segments_ready {segment : Elf.Phdr → Elf.Load → Elf.Outcome × Elf.Load}
    (hsegment : ∀ ph l, Ready l.vm spaces → Ready (segment ph l).2.vm spaces) :
    ∀ (phs : List Elf.Phdr) {l : Elf.Load}, Ready l.vm spaces →
      Ready (Elf.segments segment phs l).2.vm spaces := by
  intro phs
  induction phs with
  | nil => exact fun h => h
  | cons ph phs ih =>
    intro l h
    rw [Elf.segments]
    split_ifs
    · exact ih h
    · exact andThen_ready (hsegment ph l h) fun _ h => ih h

theorem mapStack_ready : ∀ (pages : List Nat) {l : Elf.Load}, Ready l.vm spaces →
    Ready (Elf.mapStack r pages l).2.vm spaces := by
  intro pages
  induction pages with
  | nil => exact fun h => h
  | cons page pages ih =>
    intro l h
    obtain ⟨halloc, hmap⟩ := h.allocMap hr page
    rw [Elf.mapStack]
    dsimp only
    split_ifs with hnull
    · exact halloc
    · obtain ⟨hdone, hfail⟩ := hmap hnull
      cases hout : vmmMapPageInto (allocPage l.vm).2 page (allocPage l.vm).1 7 r with
      | mk ok vm =>
        rw [hout] at hdone hfail
        cases ok with
        | true => exact ih hdone
        | false => exact hfail rfl

theorem elfLoadFile_ready (fuel : Nat) (f : Elf.File) (heap wantStack : Bool)
    (h : Ready vm spaces) : Ready (Elf.elfLoadFile fuel f heap wantStack r vm).load.vm spaces := by
  unfold Elf.elfLoadFile
  dsimp only
  split_ifs
  all_goals try exact h
  · have hload := segments_ready (fun ph l h => segment64_ready hr f fuel ph h)
      f.phdrs64 (l := ⟨vm, []⟩) h
    generalize Elf.segments (Elf.segment64 f r fuel) f.phdrs64 ⟨vm, []⟩ = out at hload
    obtain ⟨o, l⟩ := out
    cases o with
    | spinning => exact hload
    | failed => exact hload
    | done =>
      dsimp only [Elf.finish64]
      split_ifs
      · exact hload
      · have hstack := mapStack_ready hr Elf.stackPages hload
        cases hout : Elf.mapStack r Elf.stackPages l with
        | mk ok l' =>
          rw [hout] at hstack
          cases ok <;> exact hstack
  · have hload := segments_ready (fun ph l h => segment32_ready hr f fuel ph h)
      f.phdrs32 (l := ⟨vm, []⟩) h
    generalize Elf.segments (Elf.segment32 f r fuel) f.phdrs32 ⟨vm, []⟩ = out at hload
    obtain ⟨o, l⟩ := out
    cases o <;> exact hload

end Loader

/-- Without an address space nothing is loaded. -/
theorem elfLoadFile_null (fuel : Nat) (f : Elf.File) (heap wantStack : Bool)
    (vm : Paging.State) :
    (Elf.elfLoadFile fuel f heap wantStack Pmm.physNull vm).entry = some 0 ∧
      (Elf.elfLoadFile fuel f heap wantStack Pmm.physNull vm).load.vm = vm := by
  unfold Elf.elfLoadFile
  dsimp only
  simp only [if_true]
  split_ifs <;> exact ⟨rfl, rfl⟩

/-! ## The heap of an application -/

theorem userPage_of_lt {va : Nat} (h : va < uheapEnd) : (Paging.pml4Idx va).val < 256 := by
  have hend : uheapEnd = 0x40000000 := rfl
  change va / 2 ^ 39 % 512 < 256
  omega

theorem uheapUnmapRange_ready (hr : r ∈ spaces) {base : Nat} : ∀ {pages : Nat},
    base + pages * 4096 ≤ uheapEnd → Ready vm spaces →
    Ready (uheapUnmapRange r base pages vm) spaces := by
  intro pages
  induction pages with
  | zero => exact fun _ h => h
  | succ pages ih =>
    intro hend h
    have hva : base + pages * 4096 < uheapEnd := by omega
    have hrest := ih hva.le h
    have huser : (Paging.pml4Idx (base + pages * 4096)).val < 256 := userPage_of_lt hva
    have hunmap := hrest.unmapFree hr huser
    rw [uheapUnmapRange]
    exact hunmap

theorem uheapMapPages_ready (hr : r ∈ spaces) (base : Nat) : ∀ (count : Nat) {i : Nat}
    {vm : Paging.State}, Ready vm spaces →
    Ready (uheapMapPages r base count i vm).2 spaces ∧
      (uheapMapPages r base count i vm).1 ≤ i + count := by
  intro count
  induction count with
  | zero => exact fun h => ⟨h, le_refl _⟩
  | succ count ih =>
    intro i vm h
    obtain ⟨halloc, hmap⟩ := h.allocMap hr (base + i * 4096)
    rw [uheapMapPages]
    dsimp only
    split_ifs with hnull
    · exact ⟨halloc, by omega⟩
    · obtain ⟨hdone, hfail⟩ := hmap hnull
      cases hout : vmmMapPageInto (allocPage vm).2 (base + i * 4096) (allocPage vm).1 7 r with
      | mk ok vm' =>
        rw [hout] at hdone hfail
        cases ok with
        | true =>
          obtain ⟨h1, h2⟩ := ih (i := i + 1) hdone
          exact ⟨h1, le_trans h2 (by omega)⟩
        | false => exact ⟨hfail rfl, Nat.le_add_right i _⟩

/-- The heap of a task lies in its zone, and needs an address space. -/
structure HeapOk (t : Task) : Prop where
  brk : t.uheapBrk ≤ uheapEnd
  space : t.uheapRegions ≠ [] → t.pml4Phys ≠ Pmm.physNull
  regions : ∀ n ∈ t.uheapRegions, n.base + n.pages * 4096 ≤ uheapEnd

theorem uheapReset_ok (t : Task) : HeapOk (uheapReset t) :=
  ⟨(by decide : uheapBase ≤ uheapEnd), fun h => absurd rfl h, fun _ hn => by cases hn⟩

/-- What a call of the user heap leaves of the task. -/
structure HeapCall (spaces : Finset Nat) (t : Task) (r : Nat × Task × Paging.State) : Prop where
  ready : Ready r.2.2 spaces
  ok : HeapOk r.2.1
  pml4Phys : r.2.1.pml4Phys = t.pml4Phys
  alive : r.2.1.alive = t.alive

theorem HeapCall.refused {t : Task} (h : Ready vm spaces) (hok : HeapOk t) (ret : Nat) :
    HeapCall spaces t (ret, t, vm) := ⟨h, hok, rfl, rfl⟩

theorem uheapAlloc_call {t : Task} (h : Ready vm spaces) (hok : HeapOk t)
    (hspace : t.pml4Phys ≠ Pmm.physNull → t.pml4Phys ∈ spaces) (node : Bool) (size : Nat) :
    HeapCall spaces t (uheapAlloc node vm t size) := by
  unfold uheapAlloc
  dsimp only
  by_cases hnull : t.pml4Phys = Pmm.physNull
  · rw [if_pos hnull]
    exact HeapCall.refused h hok 0
  rw [if_neg hnull]
  by_cases hsize : size = 0 ∨ size > uheapMaxAlloc
  · rw [if_pos hsize]
    exact HeapCall.refused h hok 0
  rw [if_neg hsize]
  generalize hbrk : (if t.uheapBrk = 0 then uheapBase else t.uheapBrk) = brk
  generalize hpages : (size + 4095) / 4096 = pages
  by_cases hend : brk + pages * 4096 + 4096 > uheapEnd
  · rw [if_pos hend]
    exact HeapCall.refused h hok 0
  rw [if_neg hend]
  by_cases hnode : node = false
  · rw [if_pos hnode]
    exact HeapCall.refused h hok 0
  rw [if_neg hnode]
  obtain ⟨hready, hle⟩ := uheapMapPages_ready (hspace hnull) brk pages
    (i := 0) h
  split_ifs with hmapped
  · refine HeapCall.refused (uheapUnmapRange_ready (hspace hnull) ?_ hready) hok 0
    have hmul : (uheapMapPages t.pml4Phys brk pages 0 vm).1 * 4096 ≤ pages * 4096 :=
      Nat.mul_le_mul_right 4096 hmapped.le
    omega
  · refine ⟨hready, ⟨by dsimp only; omega, fun _ => hnull, fun n hn => ?_⟩, rfl, rfl⟩
    rcases List.mem_cons.mp hn with rfl | hn
    · dsimp only
      omega
    · exact hok.regions n hn

theorem uheapFree_call {t : Task} (h : Ready vm spaces) (hok : HeapOk t)
    (hspace : t.pml4Phys ≠ Pmm.physNull → t.pml4Phys ∈ spaces) (uaddr : Nat) :
    HeapCall spaces t (uheapFree vm t uaddr) := by
  unfold uheapFree
  split_ifs with hzero
  · exact HeapCall.refused h hok 0
  split
  · exact HeapCall.refused h hok 0
  · rename_i n hfind
    have hmem := List.mem_of_find?_eq_some hfind
    have hr := hspace (hok.space (List.ne_nil_of_mem hmem))
    refine ⟨uheapUnmapRange_ready hr (hok.regions n hmem) h,
      ⟨hok.brk, fun _ => hok.space (List.ne_nil_of_mem hmem), fun m hm => ?_⟩, rfl, rfl⟩
    exact hok.regions m (List.mem_of_mem_eraseP hm)

theorem mem_resizeRegion {uaddr newSize : Nat} {m : Region} : ∀ {l : List Region},
    m ∈ resizeRegion uaddr newSize l → ∃ n ∈ l, m.base = n.base ∧ m.pages = n.pages := by
  intro l
  induction l with
  | nil =>
    intro hm
    cases hm
  | cons n l ih =>
    intro hm
    rw [resizeRegion] at hm
    split_ifs at hm with hbase
    · rcases List.mem_cons.mp hm with rfl | hm
      · exact ⟨n, List.mem_cons_self, rfl, rfl⟩
      · exact ⟨m, List.mem_cons_of_mem _ hm, rfl, rfl⟩
    · rcases List.mem_cons.mp hm with rfl | hm
      · exact ⟨m, List.mem_cons_self, rfl, rfl⟩
      · obtain ⟨k, hk, heq⟩ := ih hm
        exact ⟨k, List.mem_cons_of_mem _ hk, heq⟩

theorem uheapRealloc_call {t : Task} (h : Ready vm spaces) (hok : HeapOk t)
    (hspace : t.pml4Phys ≠ Pmm.physNull → t.pml4Phys ∈ spaces) (node : Bool)
    (uaddr newSize : Nat) : HeapCall spaces t (uheapRealloc node vm t uaddr newSize) := by
  unfold uheapRealloc
  split_ifs with hzero hfree hbig
  · exact uheapAlloc_call h hok hspace node newSize
  · have hcall := uheapFree_call h hok hspace uaddr
    exact ⟨hcall.ready, hcall.ok, hcall.pml4Phys, hcall.alive⟩
  · exact HeapCall.refused h hok 0
  split
  · exact HeapCall.refused h hok 0
  · rename_i n hfind
    have hne := List.ne_nil_of_mem (List.mem_of_find?_eq_some hfind)
    split_ifs with hfits
    · refine ⟨h, ⟨hok.brk, fun _ => hok.space hne, fun m hm => ?_⟩, rfl, rfl⟩
      obtain ⟨k, hk, hbase, hpages⟩ := mem_resizeRegion hm
      rw [hbase, hpages]
      exact hok.regions k hk
    · have halloc := uheapAlloc_call h hok hspace node newSize
      dsimp only
      split_ifs with hnew
      · exact ⟨halloc.ready, halloc.ok, halloc.pml4Phys, halloc.alive⟩
      · have hcall := uheapFree_call halloc.ready halloc.ok
          (by rw [halloc.pml4Phys]; exact hspace) uaddr
        exact ⟨hcall.ready, hcall.ok, hcall.pml4Phys.trans halloc.pml4Phys,
          hcall.alive.trans halloc.alive⟩

end Kyuzen.Proc
