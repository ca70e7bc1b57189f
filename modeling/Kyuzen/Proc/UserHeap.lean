import Kyuzen.Proc.Pages

/-!
# The heap of an application and its pages

`uheap_alloc`, `uheap_free` and `uheap_realloc` keep three things in step: the list of regions, the
bump pointer `uheap_brk` and the pages of the address space. Whatever fails on the way, the pages
that are mapped in the zone of the heap are those of the listed regions, each region is followed by
a page that is not mapped, and no address is handed out twice (`user_heap`).

Between two calls other tasks use the virtual memory manager. What they do is arbitrary, as long as
it keeps the discipline of its callers and does not name the pages of this heap; so `pmm_alloc_page`
fails whenever others have taken all pages.
-/

namespace Kyuzen.Proc

open Paging (translate SamePage allocPage freePage freeOwned vmmMapPageInto vmmUnmapPageFrom
  Disciplined)

variable {vm vm' vm'' : Paging.State} {spaces : Finset Nat} {r : Nat}

/-! ## Pages of the heap -/

def InHeap (va : Nat) : Prop := uheapBase ≤ va ∧ va < uheapEnd

theorem lt_lowerEnd {va : Nat} (hva : va < uheapEnd) : va < Paging.lowerEnd :=
  lt_trans hva (by decide)

/-- A frame is mapped at a page of the heap, or nothing changes. -/
theorem Ready.map_translate (h : Ready vm spaces) (hr : r ∈ spaces) {va : Nat} (pa : Nat)
    (hva : va < uheapEnd) :
    ((vmmMapPageInto vm va pa 7 r).1 = true → ∀ va' < uheapEnd,
      translate (vmmMapPageInto vm va pa 7 r).2 r va' =
        if va / 4096 = va' / 4096 then some ⟨0, Paging.pageMask pa ||| 7⟩
        else translate vm r va') ∧
    ((vmmMapPageInto vm va pa 7 r).1 = false → ∀ va',
      translate (vmmMapPageInto vm va pa 7 r).2 r va' = translate vm r va') := by
  rcases h.map hr (lt_lowerEnd hva) pa with ⟨hok, hmaps⟩ | ⟨hok, hkeeps⟩
  · refine ⟨fun _ va' hva' => hmaps.page va' (lt_lowerEnd hva'), fun hf => ?_⟩
    rw [hok] at hf
    cases hf
  · refine ⟨fun ht => ?_, fun _ => hkeeps.page⟩
    rw [hok] at ht
    cases ht

/-! ## Mapping and unmapping a region -/

/-- Pages `lo` to `hi` of a region have been mapped, and no other page has changed. -/
structure MapsPages (r base lo hi : Nat) (vm vm' : Paging.State) : Prop where
  inside : ∀ va, base + lo * 4096 ≤ va → va < base + hi * 4096 →
    ∃ e, translate vm' r va = some ⟨0, e⟩
  outside : ∀ va < uheapEnd, ¬(base + lo * 4096 ≤ va ∧ va < base + hi * 4096) →
    translate vm' r va = translate vm r va

theorem MapsPages.nothing {base i : Nat} (h : ∀ va, translate vm' r va = translate vm r va) :
    MapsPages r base i i vm vm' := by
  refine ⟨?_, fun va _ _ => h va⟩
  intro va hlo hhi
  omega

theorem uheapMapPages_spec (hr : r ∈ spaces) {base : Nat} (hbase : base % 4096 = 0) (count : Nat)
    {i : Nat} (h : Ready vm spaces) (hend : base + (i + count) * 4096 ≤ uheapEnd) :
    i ≤ (uheapMapPages r base count i vm).1 ∧
      MapsPages r base i (uheapMapPages r base count i vm).1 vm
        (uheapMapPages r base count i vm).2 := by
  induction count generalizing i vm with
  | zero => exact ⟨le_refl i, MapsPages.nothing fun _ => rfl⟩
  | succ count ih =>
    obtain ⟨halloc, hmap⟩ := h.allocMap hr (base + i * 4096)
    have hva : base + i * 4096 < uheapEnd := by omega
    have hnext : base + (i + 1 + count) * 4096 ≤ uheapEnd := by grind
    obtain ⟨hdone, hfail⟩ := halloc.map_translate hr (allocPage vm).1 hva
    have hkeep : ∀ va, translate (allocPage vm).2 r va = translate vm r va :=
      fun va => Paging.translate_congr rfl
    rw [uheapMapPages]
    dsimp only
    split
    · exact ⟨le_refl i, MapsPages.nothing hkeep⟩
    · rename_i hnull
      cases hout : vmmMapPageInto (allocPage vm).2 (base + i * 4096) (allocPage vm).1 7 r with
      | mk ok vm₁ =>
        rw [hout] at hdone hfail
        cases ok with
        | true =>
          have hready : Ready vm₁ spaces := by
            have := (hmap hnull).1
            rw [hout] at this
            exact this
          obtain ⟨hle, hspec⟩ := ih hready (i := i + 1) hnext
          refine ⟨by dsimp only; omega, ?_, ?_⟩
          · intro va hlo hhi
            by_cases hfirst : va < base + (i + 1) * 4096
            · rw [hspec.outside va (by omega) (by omega), hdone rfl va (by omega),
                if_pos (by omega)]
              exact ⟨_, rfl⟩
            · exact hspec.inside va (by grind) hhi
          · intro va hlt hout
            rw [hspec.outside va hlt (by grind), hdone rfl va hlt, hkeep]
            dsimp only at hout
            rw [if_neg (by omega)]
        | false =>
          refine ⟨le_refl i, MapsPages.nothing fun va => ?_⟩
          exact (hfail rfl va).trans (hkeep va)

/-- The pages of a region have been unmapped and their frames are free, as after calls of
`vmm_unmap_page_from`; no other page has changed. -/
structure Unwinds (r base pages : Nat) (vm vm' : Paging.State) : Prop where
  page : ∀ va < Paging.lowerEnd, translate vm' r va =
    if base ≤ va ∧ va < base + pages * 4096 then none else translate vm r va
  freed : ∀ va e, base ≤ va → va < base + pages * 4096 → translate vm r va = some ⟨0, e⟩ →
    vm'.pmm.used (Paging.pageMask e / 4096) = false
  mono : ∀ i, vm'.pmm.used i = true → vm.pmm.used i = true
  run : ∀ {vm₀ : Paging.State}, Paging.UserRun r vm₀ vm → Paging.UserRun r vm₀ vm'

theorem uheapUnmapRange_unwinds (hr : r ∈ spaces) {base : Nat} (hbase : base % 4096 = 0)
    {pages : Nat} (h : Ready vm spaces) (hend : base + pages * 4096 ≤ uheapEnd)
    (hsmall : ∀ va, base ≤ va → va < base + pages * 4096 →
      ∀ m, translate vm r va = some m → m.level = 0) :
    Unwinds r base pages vm (uheapUnmapRange r base pages vm) := by
  induction pages with
  | zero =>
    refine ⟨?_, ?_, fun _ => id, id⟩
    · intro va _
      rw [if_neg (by omega)]
      rfl
    · intro va e hlo hhi
      omega
  | succ pages ih =>
    have hva : base + pages * 4096 < uheapEnd := by omega
    have hlt := lt_lowerEnd hva
    have hrest := uheapUnmapRange_ready hr hva.le h
    obtain ⟨hpage, hfreed, hmono, hrun⟩ := ih hva.le fun va hlo hhi => hsmall va hlo (by grind)
    have hlevel : ∀ m, translate (uheapUnmapRange r base pages vm) r (base + pages * 4096) =
        some m → m.level = 0 := by
      rw [hpage _ hlt, if_neg (by omega)]
      exact hsmall _ (by omega) (by omega)
    have hun := hrest.unmaps hr hlt
    have hstep := hrest.unmap hr hlt hlevel
    have hlast : ∀ va < Paging.lowerEnd,
        translate (uheapUnmapRange r base (pages + 1) vm) r va =
          if (base + pages * 4096) / 4096 = va / 4096 then none
          else translate (uheapUnmapRange r base pages vm) r va := by
      intro va hva
      rw [← hstep va hva, uheapUnmapRange]
      dsimp only
      split
      · rfl
      · unfold freeOwned
        split
        · rfl
        · rfl
    have hmul : base + pages * 4096 ≤ base + (pages + 1) * 4096 :=
      Nat.add_le_add_left (Nat.mul_le_mul_right 4096 (Nat.le_succ pages)) base
    refine ⟨?_, ?_, fun i hi => hmono i (hun.mono i hi), ?_⟩
    · intro va hva
      rw [hlast va hva, hpage va hva]
      simp only [page_iff hbase]
      split_ifs <;> grind
    · intro va e hlo hhi he
      by_cases hlastpage : (base + pages * 4096) / 4096 = va / 4096
      · apply hun.freed e
        have hva : va < Paging.lowerEnd := lt_lowerEnd (lt_of_lt_of_le hhi hend)
        have hnew := (page_iff hbase).mp hlastpage
        rw [Paging.translate_page hlt hva hlastpage, hpage va hva,
          if_neg fun hc => absurd hnew.1 (Nat.not_le.mpr hc.2)]
        exact he
      · rw [page_iff hbase] at hlastpage
        rw [← Bool.not_eq_true]
        intro hused
        have hstill := hun.mono _ hused
        rw [hfreed va e hlo (Nat.lt_of_not_le fun hc => hlastpage ⟨hc, hhi⟩) he] at hstill
        cases hstill
    · intro vm₀ h₀
      rw [uheapUnmapRange]
      dsimp only
      rw [hun.exec]
      exact (hrun h₀).step (Paging.pml4Idx_lower hlt)

/-- The pages of a region have been unmapped, and no other page has changed. -/
structure UnmapsPages (r base pages : Nat) (vm vm' : Paging.State) : Prop where
  inside : ∀ va, base ≤ va → va < base + pages * 4096 → translate vm' r va = none
  outside : ∀ va < uheapEnd, ¬(base ≤ va ∧ va < base + pages * 4096) →
    translate vm' r va = translate vm r va

theorem uheapUnmapRange_spec (hr : r ∈ spaces) {base : Nat} (hbase : base % 4096 = 0)
    {pages : Nat} (h : Ready vm spaces) (hend : base + pages * 4096 ≤ uheapEnd)
    (hsmall : ∀ va, base ≤ va → va < base + pages * 4096 →
      ∀ m, translate vm r va = some m → m.level = 0) :
    UnmapsPages r base pages vm (uheapUnmapRange r base pages vm) := by
  have hun := uheapUnmapRange_unwinds hr hbase h hend hsmall
  refine ⟨?_, ?_⟩
  · intro va hlo hhi
    rw [hun.page va (lt_lowerEnd (lt_of_lt_of_le hhi hend)), if_pos ⟨hlo, hhi⟩]
  · intro va hva hno
    rw [hun.page va (lt_lowerEnd hva), if_neg hno]

/-! ## The invariant -/

/-- The end of a region that is given by its base and its number of pages. -/
def stop (p : Nat × Nat) : Nat := p.1 + p.2 * 4096

/-- The regions of a heap, without the sizes that were asked for. -/
def spansOf (t : Task) : List (Nat × Nat) := t.uheapRegions.map fun n => (n.base, n.pages)

/-- Where the next region will start. -/
def heapBrk (t : Task) : Nat := if t.uheapBrk = 0 then uheapBase else t.uheapBrk

/-- The regions and the pages of the heap of space `r`. -/
structure Spans (vm : Paging.State) (r brk : Nat) (spans : List (Nat × Nat)) : Prop where
  aligned : ∀ p ∈ spans, p.1 % 4096 = 0
  inside : ∀ p ∈ spans, uheapBase ≤ p.1 ∧ stop p + 4096 ≤ brk
  apart : spans.Pairwise fun p q => stop q + 4096 ≤ p.1
  mapped : ∀ va, InHeap va →
    ((∃ m, translate vm r va = some m) ↔ ∃ p ∈ spans, p.1 ≤ va ∧ va < stop p)
  small : ∀ va, InHeap va → ∀ m, translate vm r va = some m → m.level = 0

structure HeapInv (vm : Paging.State) (spaces : Finset Nat) (r : Nat) (t : Task) : Prop where
  ready : Ready vm spaces
  space : r ∈ spaces
  pml4 : t.pml4Phys = r
  brk : heapBrk t % 4096 = 0 ∧ uheapBase ≤ heapBrk t ∧ heapBrk t ≤ uheapEnd
  spans : Spans vm r (heapBrk t) (spansOf t)

variable {t : Task} {brk : Nat} {spans : List (Nat × Nat)}

theorem Spans.unmapped (h : Spans vm r brk spans) {va : Nat} (hva : InHeap va)
    (hno : ∀ p ∈ spans, ¬(p.1 ≤ va ∧ va < stop p)) : translate vm r va = none := by
  rw [Option.eq_none_iff_forall_ne_some]
  intro m hm
  obtain ⟨p, hp, hin⟩ := (h.mapped va hva).mp ⟨m, hm⟩
  exact hno p hp hin

/-- Nothing is mapped from the bump pointer on. -/
theorem Spans.unmapped_above (h : Spans vm r brk spans) {va : Nat} (hva : InHeap va)
    (hbrk : brk ≤ va) : translate vm r va = none := by
  apply h.unmapped hva
  intro p hp hin
  have := (h.inside p hp).2
  omega

theorem Spans.apart_of_ne (h : Spans vm r brk spans) {p q : Nat × Nat} (hp : p ∈ spans)
    (hq : q ∈ spans) (hne : p ≠ q) : stop q + 4096 ≤ p.1 ∨ stop p + 4096 ≤ q.1 := by
  have hsymm : Std.Symm fun a b : Nat × Nat => stop b + 4096 ≤ a.1 ∨ stop a + 4096 ≤ b.1 :=
    ⟨fun _ _ hab => hab.symm⟩
  have hpairs : spans.Pairwise fun a b => stop b + 4096 ≤ a.1 ∨ stop a + 4096 ≤ b.1 :=
    h.apart.imp Or.inl
  exact hpairs.forall hp hq hne

/-- The page behind a region is not mapped. -/
theorem Spans.guard (h : Spans vm r brk spans) (hend : brk ≤ uheapEnd) {p : Nat × Nat}
    (hp : p ∈ spans) {va : Nat} (hlo : stop p ≤ va) (hhi : va < stop p + 4096) :
    translate vm r va = none := by
  have hin := h.inside p hp
  have hstart : p.1 ≤ stop p := Nat.le_add_right _ _
  apply h.unmapped ⟨by omega, by omega⟩
  intro q hq hva
  by_cases hne : p = q
  · subst hne
    omega
  · have hapart := h.apart_of_ne hp hq hne
    omega

theorem Spans.keep (h : Spans vm r brk spans)
    (hsame : ∀ va < uheapEnd, translate vm' r va = translate vm r va) :
    Spans vm' r brk spans := by
  refine ⟨h.aligned, h.inside, h.apart, ?_, ?_⟩
  · intro va hva
    rw [hsame va hva.2]
    exact h.mapped va hva
  · intro va hva
    rw [hsame va hva.2]
    exact h.small va hva

/-- A region of `pages` pages is added at the bump pointer. -/
theorem Spans.add {pages : Nat} (h : Spans vm r brk spans) (hbrk : brk % 4096 = 0)
    (hlow : uheapBase ≤ brk) (hmaps : MapsPages r brk 0 pages vm vm') :
    Spans vm' r (brk + pages * 4096 + 4096) ((brk, pages) :: spans) := by
  have hstop : stop (brk, pages) = brk + pages * 4096 := rfl
  have hinside : ∀ va, brk ≤ va → va < stop (brk, pages) →
      ∃ e, translate vm' r va = some ⟨0, e⟩ := by
    intro va hlo hhi
    exact hmaps.inside va (by omega) hhi
  have houtside : ∀ va, InHeap va → ¬(brk ≤ va ∧ va < stop (brk, pages)) →
      translate vm' r va = translate vm r va := by
    intro va hva hno
    exact hmaps.outside va hva.2 (by omega)
  refine ⟨?_, ?_, ?_, ?_, ?_⟩
  · intro p hp
    rcases List.mem_cons.mp hp with rfl | hp
    · exact hbrk
    · exact h.aligned p hp
  · intro p hp
    rcases List.mem_cons.mp hp with rfl | hp
    · exact ⟨hlow, le_refl _⟩
    · have := h.inside p hp
      exact ⟨this.1, by omega⟩
  · refine List.pairwise_cons.mpr ⟨?_, h.apart⟩
    exact fun p hp => (h.inside p hp).2
  · intro va hva
    by_cases hnew : brk ≤ va ∧ va < stop (brk, pages)
    · obtain ⟨e, he⟩ := hinside va hnew.1 hnew.2
      exact ⟨fun _ => ⟨_, List.mem_cons_self, hnew⟩, fun _ => ⟨_, he⟩⟩
    · rw [houtside va hva hnew, h.mapped va hva]
      constructor
      · rintro ⟨p, hp, hin⟩
        exact ⟨p, List.mem_cons_of_mem _ hp, hin⟩
      · rintro ⟨p, hp, hin⟩
        rcases List.mem_cons.mp hp with rfl | hp
        · exact absurd hin hnew
        · exact ⟨p, hp, hin⟩
  · intro va hva m hm
    by_cases hnew : brk ≤ va ∧ va < stop (brk, pages)
    · obtain ⟨e, he⟩ := hinside va hnew.1 hnew.2
      rw [he] at hm
      cases hm
      rfl
    · rw [houtside va hva hnew] at hm
      exact h.small va hva m hm

/-- A region is taken out of the list. -/
theorem Spans.remove {before after : List (Nat × Nat)} {p : Nat × Nat}
    (h : Spans vm r brk (before ++ p :: after)) (hun : UnmapsPages r p.1 p.2 vm vm') :
    Spans vm' r brk (before ++ after) := by
  have hp : p ∈ before ++ p :: after := List.mem_append_right _ List.mem_cons_self
  have hsub : ∀ q ∈ before ++ after, q ∈ before ++ p :: after := by
    intro q hq
    rcases List.mem_append.mp hq with hq | hq
    · exact List.mem_append_left _ hq
    · exact List.mem_append_right _ (List.mem_cons_of_mem _ hq)
  have hne : ∀ q ∈ before ++ after, p ≠ q := by
    have hnodup : (before ++ p :: after).Nodup := by
      apply h.apart.imp
      rintro a b hab rfl
      have : a.1 ≤ stop a := Nat.le_add_right _ _
      omega
    rintro q hq rfl
    exact (List.nodup_cons.mp (List.nodup_middle.mp hnodup)).1 hq
  refine ⟨fun q hq => h.aligned q (hsub q hq), fun q hq => h.inside q (hsub q hq), ?_, ?_, ?_⟩
  · exact h.apart.sublist (List.Sublist.append_left (List.sublist_cons_self p after) before)
  · intro va hva
    by_cases hgone : p.1 ≤ va ∧ va < stop p
    · rw [hun.inside va hgone.1 hgone.2]
      constructor
      · rintro ⟨m, hm⟩
        cases hm
      · rintro ⟨q, hq, hin⟩
        have hapart := h.apart_of_ne hp (hsub q hq) (hne q hq)
        omega
    · rw [hun.outside va hva.2 hgone, h.mapped va hva]
      constructor
      · rintro ⟨q, hq, hin⟩
        refine ⟨q, ?_, hin⟩
        rcases List.mem_append.mp hq with hq | hq
        · exact List.mem_append_left _ hq
        · rcases List.mem_cons.mp hq with rfl | hq
          · exact absurd hin hgone
          · exact List.mem_append_right _ hq
      · rintro ⟨q, hq, hin⟩
        exact ⟨q, hsub q hq, hin⟩
  · intro va hva m hm
    by_cases hgone : p.1 ≤ va ∧ va < stop p
    · rw [hun.inside va hgone.1 hgone.2] at hm
      cases hm
    · rw [hun.outside va hva.2 hgone] at hm
      exact h.small va hva m hm

/-! ## Calls -/

theorem HeapInv.keep {spaces' : Finset Nat} (h : HeapInv vm spaces r t) (hready : Ready vm' spaces')
    (hspace : r ∈ spaces') (hsame : ∀ va < uheapEnd, translate vm' r va = translate vm r va) :
    HeapInv vm' spaces' r t :=
  ⟨hready, hspace, h.pml4, h.brk, h.spans.keep hsame⟩

/-- The task after a region of `pages` pages has been added. -/
def addRegion (t : Task) (size pages : Nat) : Task :=
  { t with
    uheapRegions := ⟨heapBrk t, size, pages⟩ :: t.uheapRegions
    uheapBrk := heapBrk t + pages * 4096 + 4096 }

theorem heapBrk_addRegion (t : Task) (size pages : Nat) :
    heapBrk (addRegion t size pages) = heapBrk t + pages * 4096 + 4096 :=
  if_neg (Nat.succ_ne_zero _)

/-- What `uheap_alloc` can do: nothing that is left, or a region at the bump pointer. -/
theorem HeapInv.alloc_cases (h : HeapInv vm spaces r t) (node : Bool) (size : Nat) :
    (∃ vm', uheapAlloc node vm t size = (0, t, vm') ∧ HeapInv vm' spaces r t) ∨
      ∃ vm' pages, uheapAlloc node vm t size = (heapBrk t, addRegion t size pages, vm') ∧
        HeapInv vm' spaces r (addRegion t size pages) := by
  have hnothing : ∃ vm', ((0 : Nat), t, vm) = (0, t, vm') ∧ HeapInv vm' spaces r t :=
    ⟨vm, rfl, h⟩
  obtain ⟨halign, hlow, hhigh⟩ := h.brk
  obtain rfl := h.pml4
  unfold uheapAlloc
  rw [if_neg (h.ready.ne_null h.space)]
  by_cases hsize : size = 0 ∨ size > uheapMaxAlloc
  · rw [if_pos hsize]
    exact Or.inl hnothing
  rw [if_neg hsize]
  dsimp only
  rw [show (if t.uheapBrk = 0 then uheapBase else t.uheapBrk) = heapBrk t from rfl]
  generalize (size + 4095) / 4096 = pages
  by_cases hend : heapBrk t + pages * 4096 + 4096 > uheapEnd
  · rw [if_pos hend]
    exact Or.inl hnothing
  rw [if_neg hend]
  by_cases hnode : node = false
  · rw [if_pos hnode]
    exact Or.inl hnothing
  rw [if_neg hnode]
  have hfits : heapBrk t + (0 + pages) * 4096 ≤ uheapEnd := by
    rw [Nat.zero_add]
    omega
  obtain ⟨hready, hle⟩ := uheapMapPages_ready h.space (heapBrk t) pages (i := 0) h.ready
  obtain ⟨-, hmaps⟩ := uheapMapPages_spec h.space halign pages h.ready hfits
  revert hready hle hmaps
  generalize uheapMapPages t.pml4Phys (heapBrk t) pages 0 vm = out
  obtain ⟨mapped, vm₁⟩ := out
  intro hready hle hmaps
  dsimp only at hready hle hmaps ⊢
  rw [Nat.zero_add] at hle
  by_cases hfew : mapped < pages
  · -- the pages that have been mapped are unmapped again
    rw [if_pos hfew]
    left
    have hend₁ : heapBrk t + mapped * 4096 ≤ uheapEnd := by
      rw [Nat.zero_add] at hfits
      exact le_trans (Nat.add_le_add_left (Nat.mul_le_mul_right 4096 hle) _) hfits
    have hunmaps := uheapUnmapRange_spec h.space halign hready hend₁ (by
      intro va hlo hhi m hm
      obtain ⟨e, he⟩ := hmaps.inside va (by omega) hhi
      rw [he] at hm
      cases hm
      rfl)
    refine ⟨_, rfl, h.keep (uheapUnmapRange_ready h.space hend₁ hready) h.space ?_⟩
    intro va hva
    by_cases hin : heapBrk t ≤ va ∧ va < heapBrk t + mapped * 4096
    · rw [hunmaps.inside va hin.1 hin.2]
      exact (h.spans.unmapped_above ⟨by omega, hva⟩ hin.1).symm
    · rw [hunmaps.outside va hva hin, hmaps.outside va hva (by omega)]
  · rw [if_neg hfew]
    right
    have hall : mapped = pages := by omega
    subst hall
    refine ⟨vm₁, mapped, rfl, hready, h.space, h.pml4, ?_, ?_⟩
    · rw [heapBrk_addRegion]
      omega
    · rw [heapBrk_addRegion]
      exact h.spans.add halign hlow hmaps

/-- `uheap_free` takes a region out, or does nothing. -/
theorem HeapInv.free (h : HeapInv vm spaces r t) (uaddr : Nat) :
    HeapInv (uheapFree vm t uaddr).2.2 spaces r (uheapFree vm t uaddr).2.1 ∧
      heapBrk (uheapFree vm t uaddr).2.1 = heapBrk t := by
  unfold uheapFree
  by_cases hzero : uaddr = 0
  · rw [if_pos hzero]
    exact ⟨h, rfl⟩
  rw [if_neg hzero]
  cases hfind : t.uheapRegions.find? (·.base = uaddr) with
  | none => exact ⟨h, rfl⟩
  | some n =>
    refine ⟨?_, rfl⟩
    obtain ⟨hbase, before, after, hsplit, hnot⟩ := List.find?_eq_some_iff_append.mp hfind
    have herase : t.uheapRegions.eraseP (·.base = uaddr) = before ++ after := by
      rw [hsplit, List.eraseP_append_right _ (fun b hb => by simpa using hnot b hb)]
      congr 1
      exact List.eraseP_cons_of_pos (p := fun n : Region => n.base = uaddr) hbase
    have hspans : Spans vm r (heapBrk t)
        (before.map (fun n => (n.base, n.pages)) ++ (n.base, n.pages) ::
          after.map fun n => (n.base, n.pages)) := by
      have hall := h.spans
      rw [spansOf, hsplit, List.map_append, List.map_cons] at hall
      exact hall
    have hmem : (n.base, n.pages) ∈ before.map (fun n => (n.base, n.pages)) ++
        (n.base, n.pages) :: after.map fun n => (n.base, n.pages) :=
      List.mem_append_right _ List.mem_cons_self
    have hend : n.base + n.pages * 4096 ≤ uheapEnd := by
      have hin : stop (n.base, n.pages) + 4096 ≤ heapBrk t := (hspans.inside _ hmem).2
      have hstop : stop (n.base, n.pages) = n.base + n.pages * 4096 := rfl
      have hbrk := h.brk.2.2
      omega
    have hunmaps := uheapUnmapRange_spec h.space (hspans.aligned _ hmem) h.ready hend (by
      intro va hlo hhi
      exact hspans.small va ⟨le_trans (hspans.inside _ hmem).1 hlo, lt_of_lt_of_le hhi hend⟩)
    obtain rfl := h.pml4
    refine ⟨uheapUnmapRange_ready h.space hend h.ready, h.space, rfl, h.brk, ?_⟩
    show Spans _ _ (heapBrk t) ((t.uheapRegions.eraseP (·.base = uaddr)).map _)
    rw [herase, List.map_append]
    exact hspans.remove hunmaps

theorem spansOf_resize (uaddr newSize : Nat) (l : List Region) :
    (resizeRegion uaddr newSize l).map (fun n => (n.base, n.pages)) =
      l.map fun n => (n.base, n.pages) := by
  induction l with
  | nil => rfl
  | cons n l ih =>
    rw [resizeRegion]
    split
    · rfl
    · rw [List.map_cons, List.map_cons, ih]

inductive HeapOp where
  | alloc (node : Bool) (size : Nat)
  | free (uaddr : Nat)
  | realloc (node : Bool) (uaddr newSize : Nat)

def heapCall (vm : Paging.State) (t : Task) : HeapOp → Nat × Task × Paging.State
  | .alloc node size => uheapAlloc node vm t size
  | .free uaddr => uheapFree vm t uaddr
  | .realloc node uaddr newSize => uheapRealloc node vm t uaddr newSize

/-- The base of the region that a call has opened: `free` opens none, and a `realloc` that returns
its argument has not moved the region. -/
def newBase : HeapOp → Nat → Option Nat
  | .alloc _ _, ret => if ret = 0 then none else some ret
  | .free _, _ => none
  | .realloc _ uaddr _, ret => if ret = 0 ∨ ret = uaddr then none else some ret

/-- A call keeps the invariant, and opens a region only at the bump pointer, which it moves on. -/
structure CallOk (vm : Paging.State) (spaces : Finset Nat) (r : Nat) (t : Task) (op : HeapOp) :
    Prop where
  inv : HeapInv (heapCall vm t op).2.2 spaces r (heapCall vm t op).2.1
  le : heapBrk t ≤ heapBrk (heapCall vm t op).2.1
  opened : ∀ b, newBase op (heapCall vm t op).1 = some b →
    b = heapBrk t ∧ b < heapBrk (heapCall vm t op).2.1

theorem heapBrk_lt_addRegion (t : Task) (size pages : Nat) :
    heapBrk t < heapBrk (addRegion t size pages) := by
  rw [heapBrk_addRegion, Nat.add_assoc]
  exact Nat.lt_add_of_pos_right (Nat.succ_pos _)

theorem HeapInv.call_alloc (h : HeapInv vm spaces r t) (node : Bool) (size : Nat) :
    CallOk vm spaces r t (.alloc node size) := by
  obtain ⟨vm', heq, hinv⟩ | ⟨vm', pages, heq, hinv⟩ := h.alloc_cases node size
  · have hcall : heapCall vm t (.alloc node size) = (0, t, vm') := heq
    refine ⟨?_, ?_, ?_⟩
    · rw [hcall]
      exact hinv
    · rw [hcall]
    · intro b hb
      rw [hcall] at hb
      cases hb
  · have hcall : heapCall vm t (.alloc node size) =
        (heapBrk t, addRegion t size pages, vm') := heq
    have hlt := heapBrk_lt_addRegion t size pages
    refine ⟨?_, ?_, ?_⟩
    · rw [hcall]
      exact hinv
    · rw [hcall]
      exact hlt.le
    · intro b hb
      rw [hcall] at hb ⊢
      have hb : (if heapBrk t = 0 then none else some (heapBrk t)) = some b := hb
      split at hb
      · cases hb
      · cases hb
        exact ⟨rfl, hlt⟩

/-- A call that returns 0 opens no region. -/
theorem CallOk.of_zero {op : HeapOp} {t' : Task}
    (hcall : heapCall vm t op = (0, t', vm')) (hinv : HeapInv vm' spaces r t')
    (hle : heapBrk t ≤ heapBrk t') : CallOk vm spaces r t op := by
  refine ⟨?_, ?_, ?_⟩
  · rw [hcall]
    exact hinv
  · rw [hcall]
    exact hle
  · intro b hb
    rw [hcall] at hb
    cases op with
    | alloc node size => cases hb
    | free uaddr => cases hb
    | realloc node uaddr newSize =>
      have hb : (if 0 = 0 ∨ 0 = uaddr then none else some 0) = some b := hb
      rw [if_pos (Or.inl rfl)] at hb
      cases hb

theorem HeapInv.heapBrk_pos (h : HeapInv vm spaces r t) : heapBrk t ≠ 0 := by
  have hlow := h.brk.2.1
  have hbase : uheapBase = 0x10000000 := rfl
  omega

theorem HeapInv.resize (h : HeapInv vm spaces r t) (uaddr newSize : Nat) :
    HeapInv vm spaces r { t with uheapRegions := resizeRegion uaddr newSize t.uheapRegions } := by
  refine ⟨h.ready, h.space, h.pml4, h.brk, ?_⟩
  show Spans vm r (heapBrk t) ((resizeRegion uaddr newSize t.uheapRegions).map _)
  rw [spansOf_resize]
  exact h.spans

/-- The region stays where it is. -/
theorem HeapInv.call_resize (h : HeapInv vm spaces r t) {node : Bool} {uaddr newSize : Nat}
    {n : Region} (hcall : heapCall vm t (.realloc node uaddr newSize) =
      (n.base, { t with uheapRegions := resizeRegion uaddr newSize t.uheapRegions }, vm))
    (hbase : n.base = uaddr) : CallOk vm spaces r t (.realloc node uaddr newSize) := by
  refine ⟨?_, ?_, ?_⟩
  · rw [hcall]
    exact h.resize uaddr newSize
  · rw [hcall]
    exact le_refl (heapBrk t)
  · intro b hb
    rw [hcall] at hb
    have hb : (if n.base = 0 ∨ n.base = uaddr then none else some n.base) = some b := hb
    rw [if_pos (Or.inr hbase)] at hb
    cases hb

/-- The region moves: a new one is opened, and the old one is freed. -/
theorem HeapInv.call_move (h : HeapInv vm spaces r t) {node : Bool} {uaddr newSize : Nat}
    (hmove : heapCall vm t (.realloc node uaddr newSize) =
      if (uheapAlloc node vm t newSize).1 = 0 then (0, (uheapAlloc node vm t newSize).2)
      else ((uheapAlloc node vm t newSize).1,
        (uheapFree (uheapAlloc node vm t newSize).2.2
          (uheapAlloc node vm t newSize).2.1 uaddr).2)) :
    CallOk vm spaces r t (.realloc node uaddr newSize) := by
  obtain ⟨vm', heq, hinv⟩ | ⟨vm', pages, heq, hinv⟩ := h.alloc_cases node newSize
  · rw [heq, if_pos rfl] at hmove
    exact CallOk.of_zero hmove hinv (le_refl _)
  · rw [heq, if_neg h.heapBrk_pos] at hmove
    obtain ⟨hfreed, hbrk⟩ := hinv.free uaddr
    have hlt := heapBrk_lt_addRegion t newSize pages
    rw [← hbrk] at hlt
    refine ⟨?_, ?_, ?_⟩
    · rw [hmove]
      exact hfreed
    · rw [hmove]
      exact hlt.le
    · intro b hb
      rw [hmove] at hb ⊢
      have hb : (if heapBrk t = 0 ∨ heapBrk t = uaddr then none else some (heapBrk t)) =
        some b := hb
      split at hb
      · cases hb
      · cases hb
        exact ⟨rfl, hlt⟩

theorem HeapInv.call_realloc (h : HeapInv vm spaces r t) (node : Bool) (uaddr newSize : Nat) :
    CallOk vm spaces r t (.realloc node uaddr newSize) := by
  by_cases hzero : uaddr = 0
  · have hcall : heapCall vm t (.realloc node uaddr newSize) =
        heapCall vm t (.alloc node newSize) := if_pos hzero
    have halloc := h.call_alloc node newSize
    refine ⟨?_, ?_, ?_⟩
    · rw [hcall]
      exact halloc.inv
    · rw [hcall]
      exact halloc.le
    · rw [hcall]
      intro b hb
      apply halloc.opened
      rw [← hb, hzero]
      simp only [newBase, or_self]
  by_cases hfree : newSize = 0
  · have hcall : heapCall vm t (.realloc node uaddr newSize) = (0, (uheapFree vm t uaddr).2) := by
      show uheapRealloc node vm t uaddr newSize = _
      rw [uheapRealloc, if_neg hzero, if_pos hfree]
    obtain ⟨hinv, hbrk⟩ := h.free uaddr
    exact CallOk.of_zero hcall hinv hbrk.ge
  by_cases hbig : newSize > uheapMaxAlloc
  · have hcall : heapCall vm t (.realloc node uaddr newSize) = (0, t, vm) := by
      show uheapRealloc node vm t uaddr newSize = _
      rw [uheapRealloc, if_neg hzero, if_neg hfree, if_pos hbig]
    exact CallOk.of_zero hcall h (le_refl _)
  cases hfind : t.uheapRegions.find? (·.base = uaddr) with
  | none =>
    have hcall : heapCall vm t (.realloc node uaddr newSize) = (0, t, vm) := by
      show uheapRealloc node vm t uaddr newSize = _
      rw [uheapRealloc, if_neg hzero, if_neg hfree, if_neg hbig, hfind]
    exact CallOk.of_zero hcall h (le_refl _)
  | some n =>
    have hbase : n.base = uaddr := by simpa using List.find?_some hfind
    by_cases hfits : newSize ≤ n.pages * 4096
    · have hcall : heapCall vm t (.realloc node uaddr newSize) =
          (n.base, { t with uheapRegions := resizeRegion uaddr newSize t.uheapRegions }, vm) := by
        show uheapRealloc node vm t uaddr newSize = _
        rw [uheapRealloc, if_neg hzero, if_neg hfree, if_neg hbig, hfind]
        dsimp only
        rw [if_pos hfits]
      exact h.call_resize hcall hbase
    · have hmove : heapCall vm t (.realloc node uaddr newSize) =
          if (uheapAlloc node vm t newSize).1 = 0 then (0, (uheapAlloc node vm t newSize).2)
          else ((uheapAlloc node vm t newSize).1,
            (uheapFree (uheapAlloc node vm t newSize).2.2
              (uheapAlloc node vm t newSize).2.1 uaddr).2) := by
        show uheapRealloc node vm t uaddr newSize = _
        rw [uheapRealloc, if_neg hzero, if_neg hfree, if_neg hbig, hfind]
        dsimp only
        rw [if_neg hfits]
      exact h.call_move hmove

theorem HeapInv.call (h : HeapInv vm spaces r t) (op : HeapOp) : CallOk vm spaces r t op := by
  cases op with
  | alloc node size => exact h.call_alloc node size
  | free uaddr =>
    obtain ⟨hinv, hbrk⟩ := h.free uaddr
    refine ⟨hinv, hbrk.ge, ?_⟩
    intro b hb
    cases hb
  | realloc node uaddr newSize => exact h.call_realloc node uaddr newSize

/-! ## Runs -/

/-- The life of a heap: calls of its task, and calls of the virtual memory manager for others. The
list holds the bases of the regions that have been opened, the last one first. -/
inductive HeapRun (r : Nat) : Paging.State → Finset Nat → Task → List Nat → Prop
  | start {vm : Paging.State} {spaces : Finset Nat} {t : Task} (hready : Ready vm spaces)
      (hspace : r ∈ spaces) (hpml4 : t.pml4Phys = r) (hregions : t.uheapRegions = [])
      (hbrk : t.uheapBrk = 0 ∨ t.uheapBrk = uheapBase)
      (hempty : ∀ va, InHeap va → translate vm r va = none) : HeapRun r vm spaces t []
  | call {vm : Paging.State} {spaces : Finset Nat} {t : Task} {bases : List Nat} (op : HeapOp)
      (h : HeapRun r vm spaces t bases) :
      HeapRun r (heapCall vm t op).2.2 spaces (heapCall vm t op).2.1
        ((newBase op (heapCall vm t op).1).toList ++ bases)
  | other {x : Paging.Sys} {t : Task} {bases : List Nat} (op : Paging.Op)
      (h : HeapRun r x.vm x.spaces t bases) (hx : Paging.Reach Disciplined x)
      (hop : Disciplined x op) (hspares : op.Spares r InHeap) :
      HeapRun r (Paging.exec x op).vm (Paging.exec x op).spaces t bases

theorem HeapInv.start (hready : Ready vm spaces) (hspace : r ∈ spaces) (hpml4 : t.pml4Phys = r)
    (hregions : t.uheapRegions = []) (hbrk : t.uheapBrk = 0 ∨ t.uheapBrk = uheapBase)
    (hempty : ∀ va, InHeap va → translate vm r va = none) : HeapInv vm spaces r t := by
  have hnone : spansOf t = [] := by rw [spansOf, hregions, List.map_nil]
  have hheap : heapBrk t = uheapBase := by
    unfold heapBrk
    split
    · rfl
    · rename_i hne
      exact hbrk.resolve_left hne
  refine ⟨hready, hspace, hpml4, ?_, ?_⟩
  · rw [hheap]
    decide
  · rw [hnone]
    refine ⟨?_, ?_, List.Pairwise.nil, ?_, ?_⟩
    · intro p hp
      cases hp
    · intro p hp
      cases hp
    · intro va hva
      rw [hempty va hva]
      constructor
      · rintro ⟨m, hm⟩
        cases hm
      · rintro ⟨p, hp, -⟩
        cases hp
    · intro va hva m hm
      rw [hempty va hva] at hm
      cases hm

theorem HeapInv.other {x : Paging.Sys} (h : HeapInv x.vm x.spaces r t)
    (hx : Paging.Reach Disciplined x) {op : Paging.Op} (hop : Disciplined x op)
    (hspares : op.Spares r InHeap) :
    HeapInv (Paging.exec x op).vm (Paging.exec x op).spaces r t := by
  obtain ⟨top, hs⟩ := Paging.reach_sound hx
  obtain ⟨hspace, hsame⟩ := Paging.exec_elsewhere hs hop h.space
    (fun va hva => userPage_of_lt hva.2) hspares
  refine ⟨⟨_, hx.step hop, rfl, rfl⟩, hspace, h.pml4, h.brk, ?_⟩
  refine ⟨h.spans.aligned, h.spans.inside, h.spans.apart, ?_, ?_⟩
  · intro va hva
    rw [hsame va hva]
    exact h.spans.mapped va hva
  · intro va hva
    rw [hsame va hva]
    exact h.spans.small va hva

/-- The bases that have been handed out grow, up to the bump pointer. -/
structure BasesOk (t : Task) (bases : List Nat) : Prop where
  below : ∀ b ∈ bases, b < heapBrk t
  increasing : bases.Pairwise (· > ·)

theorem BasesOk.call {bases : List Nat} (h : BasesOk t bases) {op : HeapOp}
    (hcall : CallOk vm spaces r t op) :
    BasesOk (heapCall vm t op).2.1 ((newBase op (heapCall vm t op).1).toList ++ bases) := by
  have hbelow : ∀ b ∈ bases, b < heapBrk (heapCall vm t op).2.1 :=
    fun b hb => lt_of_lt_of_le (h.below b hb) hcall.le
  cases hnew : newBase op (heapCall vm t op).1 with
  | none => exact ⟨hbelow, h.increasing⟩
  | some b =>
    obtain ⟨hb, hlt⟩ := hcall.opened b hnew
    refine ⟨?_, ?_⟩
    · intro c hc
      rcases List.mem_cons.mp hc with rfl | hc
      · exact hlt
      · exact hbelow c hc
    · refine List.pairwise_cons.mpr ⟨?_, h.increasing⟩
      intro c hc
      rw [hb]
      exact h.below c hc

theorem HeapRun.inv {bases : List Nat} (h : HeapRun r vm spaces t bases) :
    HeapInv vm spaces r t ∧ BasesOk t bases := by
  induction h with
  | start hready hspace hpml4 hregions hbrk hempty =>
    refine ⟨HeapInv.start hready hspace hpml4 hregions hbrk hempty, ?_, List.Pairwise.nil⟩
    intro b hb
    cases hb
  | call op _ ih =>
    have hcall := ih.1.call op
    exact ⟨hcall.inv, ih.2.call hcall⟩
  | other op _ hx hop hspares ih => exact ⟨ih.1.other hx hop hspares, ih.2⟩

/-- The heap of the task with address space `r`. -/
structure UserHeap (vm : Paging.State) (spaces : Finset Nat) (r : Nat) (t : Task)
    (bases : List Nat) : Prop where
  aligned : ∀ n ∈ t.uheapRegions, n.base % 4096 = 0
  inside : ∀ n ∈ t.uheapRegions, uheapBase ≤ n.base ∧ n.base + n.pages * 4096 ≤ uheapEnd ∧
    n.base + n.pages * 4096 ≤ t.uheapBrk
  apart : t.uheapRegions.Pairwise fun n n' => n'.base + n'.pages * 4096 + 4096 ≤ n.base
  guard : ∀ n ∈ t.uheapRegions, ∀ va, n.base + n.pages * 4096 ≤ va →
    va < n.base + n.pages * 4096 + 4096 → translate vm r va = none
  mapped : ∀ va, InHeap va → ((∃ m, translate vm r va = some m) ↔
    ∃ n ∈ t.uheapRegions, n.base ≤ va ∧ va < n.base + n.pages * 4096)
  frames : ∀ va m, InHeap va → translate vm r va = some m → m.level = 0 ∧
    ∀ r' ∈ spaces, ∀ va' e', (Paging.pml4Idx va').val < 256 →
      translate vm r' va' = some ⟨0, e'⟩ → Paging.pageMask m.entry = Paging.pageMask e' →
      r = r' ∧ SamePage va va'
  increasing : bases.Pairwise (· > ·)

/-- Whatever a task allocates, frees and reallocates, and whatever fails: its regions are aligned,
lie in the zone below the bump pointer and have a page between them that is not mapped; exactly
their pages are mapped, each to a frame of its own; and new regions start above all earlier ones. -/
theorem user_heap {bases : List Nat} (h : HeapRun r vm spaces t bases) :
    UserHeap vm spaces r t bases := by
  obtain ⟨hinv, hbases⟩ := h.inv
  have hspan : ∀ n ∈ t.uheapRegions, (n.base, n.pages) ∈ spansOf t :=
    fun n hn => List.mem_map_of_mem hn
  have hstop : ∀ n : Region, stop (n.base, n.pages) = n.base + n.pages * 4096 := fun _ => rfl
  refine ⟨?_, ?_, ?_, ?_, ?_, ?_, hbases.increasing⟩
  · exact fun n hn => hinv.spans.aligned _ (hspan n hn)
  · intro n hn
    obtain ⟨hlow, hhigh⟩ := hinv.spans.inside _ (hspan n hn)
    rw [hstop] at hhigh
    have hbrk := hinv.brk.2.2
    have hpos : n.base + n.pages * 4096 ≤ heapBrk t := by omega
    refine ⟨hlow, le_trans hpos hbrk, ?_⟩
    unfold heapBrk at hpos hhigh
    split at hhigh
    · rename_i hzero
      have hlow : uheapBase ≤ n.base := hlow
      omega
    · rename_i hne
      rw [if_neg hne] at hpos
      exact hpos
  · have hapart := hinv.spans.apart
    rw [spansOf, List.pairwise_map] at hapart
    exact hapart
  · intro n hn va hlo hhi
    exact hinv.spans.guard hinv.brk.2.2 (hspan n hn) hlo hhi
  · intro va hva
    rw [hinv.spans.mapped va hva, spansOf]
    constructor
    · rintro ⟨p, hp, hin⟩
      obtain ⟨n, hn, rfl⟩ := List.mem_map.mp hp
      exact ⟨n, hn, hin⟩
    · rintro ⟨n, hn, hin⟩
      exact ⟨_, hspan n hn, hin⟩
  · intro va m hva hm
    obtain ⟨level, e⟩ := m
    have hlevel : level = 0 := hinv.spans.small va hva _ hm
    subst hlevel
    refine ⟨rfl, ?_⟩
    intro r' hr' va' e' hlow' he' hframe
    exact hinv.ready.frame_unique hinv.space hr' (userPage_of_lt hva.2) hlow' hm he' hframe

/-- The heap of an address space that has just been created is empty. -/
theorem HeapRun.created {x : Paging.Sys} (hx : Paging.Reach Disciplined x)
    (hne : (Paging.vmmCreateAddressSpace x.vm).1 ≠ Pmm.physNull)
    (hpml4 : t.pml4Phys = (Paging.vmmCreateAddressSpace x.vm).1) (hregions : t.uheapRegions = [])
    (hbrk : t.uheapBrk = 0) :
    HeapRun (Paging.vmmCreateAddressSpace x.vm).1 (Paging.vmmCreateAddressSpace x.vm).2
      (insert (Paging.vmmCreateAddressSpace x.vm).1 x.spaces) t [] := by
  obtain ⟨top, hs⟩ := Paging.reach_sound hx
  have hspaces : (Paging.exec x .create).spaces =
      insert (Paging.vmmCreateAddressSpace x.vm).1 x.spaces := if_neg hne
  apply HeapRun.start
  · have hop : Disciplined x .create := ⟨trivial, trivial⟩
    exact ⟨_, hx.step hop, rfl, hspaces⟩
  · exact Finset.mem_insert_self _ _
  · exact hpml4
  · exact hregions
  · exact Or.inl hbrk
  · intro va hva
    rw [(Paging.create_map hs.ok hs.owned.fresh).2 hne va]
    exact if_neg (Nat.not_le.mpr (userPage_of_lt hva.2))

/-- A task of the small machine that has just got its address space. -/
def smallTask : Task :=
  ⟨(Paging.vmmCreateAddressSpace Paging.smallSys.vm).1, 0, true, true, [], 0⟩

/-- Some calls, and the bases of the regions that they open. -/
def heapCalls (s : Paging.State × Task × List Nat) (ops : List HeapOp) :
    Paging.State × Task × List Nat :=
  ops.foldl (fun s op =>
    let r := heapCall s.1 s.2.1 op
    (r.2.2, r.2.1, (newBase op r.1).toList ++ s.2.2)) s

theorem HeapRun.calls {bases : List Nat} (h : HeapRun r vm spaces t bases) (ops : List HeapOp) :
    HeapRun r (heapCalls (vm, t, bases) ops).1 spaces (heapCalls (vm, t, bases) ops).2.1
      (heapCalls (vm, t, bases) ops).2.2 := by
  induction ops generalizing vm t bases with
  | nil => exact h
  | cons op ops ih => exact ih (h.call op)

/-- The first region is freed, no node can be had for the third one, and the second one moves. -/
def smallCalls : List HeapOp :=
  [.alloc true 100, .alloc true 100, .free uheapBase, .alloc false 100,
    .realloc true (uheapBase + 0x2000) 5000]

/-- The small machine after these calls. -/
def smallHeap : Paging.State × Task × List Nat :=
  heapCalls ((Paging.vmmCreateAddressSpace Paging.smallSys.vm).2, smallTask, []) smallCalls

theorem user_heap_smallTask :
    (smallHeap.2.1.uheapRegions.map fun n => (n.base, n.pages)) = [(uheapBase + 0x4000, 2)] ∧
      UserHeap smallHeap.1 (insert smallTask.pml4Phys Paging.smallSys.spaces) smallTask.pml4Phys
        smallHeap.2.1 smallHeap.2.2 := by
  have hne : smallTask.pml4Phys ≠ Pmm.physNull := by decide
  have hrun := HeapRun.created (t := smallTask) (Paging.smallSys_reach _) hne rfl rfl rfl
  have hcalls := hrun.calls smallCalls
  rw [← smallHeap] at hcalls
  exact ⟨by decide +kernel, user_heap hcalls⟩

end Kyuzen.Proc
