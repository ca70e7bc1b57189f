import Kyuzen.Loader.Loaded

/-!
# How many frames a load takes

A page costs a frame, and one for each table above it that is not there yet. So the frames that an
address space takes depend only on the set of its pages (`framesFor`), and a page of the stack that
a segment has mapped before costs one more, since it is mapped again. An ELF64 file whose segments
are accepted is loaded exactly if as many frames are free (`load64_frames`).
-/

namespace Kyuzen.Loader

open Lib Lib.Memory
open Elf (File Phdr userStackTop userStackSize)
open Proc (Ready Taken MapsPage)
open Paging (State Store lowerEnd translate freePages allocPage vmmMapPageInto vmmAllocPageInto
  vmmCreateAddressSpace nextOf)

/-! ## Frames for pages -/

/-- The frames of an address space with the pages `S`: those of the pages, and those of the PTs, the
PDs and the PDPTs above them. -/
def framesFor (S : Finset Nat) : Nat :=
  S.card + (S.image (· / 2 ^ 9)).card + (S.image (· / 2 ^ 18)).card + (S.image (· / 2 ^ 27)).card

/-- The pages of a segment. -/
def pagesOf (ph : Phdr) : Finset Nat :=
  Finset.Ico (ph.pVaddr / 4096) ((ph.pVaddr + ph.pMemsz + 4095) / 4096)

def pagesOfAll (phs : List Phdr) : Finset Nat := phs.foldr (fun ph S => pagesOf ph ∪ S) ∅

/-- The pages of the stack window. -/
def stackWindow : Finset Nat :=
  Finset.Ico ((userStackTop - userStackSize) / 4096) (userStackTop / 4096)

/-- The frames that a load with a stack takes, beside that of the PML4. -/
def framesNeeded (f : File) : Nat :=
  framesFor (pagesOfAll (headers f) ∪ stackWindow) + (pagesOfAll (headers f) ∩ stackWindow).card

/-- A segment of one page, with two PTs, a PD and a PDPT. -/
example : framesNeeded (oneSegment 0x400000 8 8) = 69 := by decide

/-- The tables that page `i` lacks when the pages `S` are there. -/
def newTables (S : Finset Nat) (i : Nat) : Nat :=
  (if i / 2 ^ 27 ∈ S.image (· / 2 ^ 27) then 0 else 1) +
    (if i / 2 ^ 18 ∈ S.image (· / 2 ^ 18) then 0 else 1) +
    if i / 2 ^ 9 ∈ S.image (· / 2 ^ 9) then 0 else 1

variable {S T : Finset Nat} {i lost free : Nat}

theorem framesFor_mono (h : S ⊆ T) : framesFor S ≤ framesFor T := by
  unfold framesFor
  gcongr

theorem card_image_insert (g : Nat → Nat) (S : Finset Nat) (i : Nat) :
    ((insert i S).image g).card = (S.image g).card + if g i ∈ S.image g then 0 else 1 := by
  rw [Finset.image_insert]
  split_ifs with hmem
  · rw [Finset.insert_eq_of_mem hmem, Nat.add_zero]
  · exact Finset.card_insert_of_notMem hmem

theorem framesFor_insert (hi : i ∉ S) :
    framesFor (insert i S) = framesFor S + 1 + newTables S i := by
  unfold framesFor newTables
  rw [Finset.card_insert_of_notMem hi, card_image_insert, card_image_insert, card_image_insert]
  omega

/-- Where the page is there, so are its tables. -/
theorem newTables_of_mem (hi : i ∈ S) : newTables S i = 0 := by
  unfold newTables
  rw [if_pos (Finset.mem_image_of_mem _ hi), if_pos (Finset.mem_image_of_mem _ hi),
    if_pos (Finset.mem_image_of_mem _ hi)]

/-! ## Tables for pages -/

/-- The path of the table of depth `k` above page `i`. -/
def tablePath (k i : Nat) : List (Fin 512) :=
  [Paging.pml4Idx (i * 4096), Paging.pdptIdx (i * 4096), Paging.pdIdx (i * 4096)].take k

/-- The number of pages below such a table. -/
def tableSpan (k : Nat) : Nat := 2 ^ (36 - 9 * k)

theorem tablePath_length {k : Nat} (hk : k ≤ 3) (i : Nat) : (tablePath k i).length = k := by
  unfold tablePath
  rw [List.length_take]
  exact Nat.min_eq_left hk

theorem tablePath_eq_iff {k j : Nat} (hk : 1 ≤ k ∧ k ≤ 3) (hi : i < 2 ^ 35) (hj : j < 2 ^ 35) :
    tablePath k i = tablePath k j ↔ i / tableSpan k = j / tableSpan k := by
  obtain rfl | rfl | rfl : k = 1 ∨ k = 2 ∨ k = 3 := by omega
  · simp only [tablePath, tableSpan, Paging.pml4Idx, List.take, List.cons.injEq, Fin.mk.injEq,
      and_true]
    omega
  · simp only [tablePath, tableSpan, Paging.pml4Idx, Paging.pdptIdx, List.take, List.cons.injEq,
      Fin.mk.injEq, and_true]
    omega
  · simp only [tablePath, tableSpan, Paging.pml4Idx, Paging.pdptIdx, Paging.pdIdx, List.take,
      List.cons.injEq, Fin.mk.injEq, and_true]
    omega

/-- Is the table of depth `k` above page `i` there? -/
def hasTable (vm : State) (r k i : Nat) : Bool :=
  (Radix.walk nextOf vm.mem 3 r (tablePath k i)).isSome

/-- The target maps the pages `S`, with the tables above them and no others, and what it and the
pages that have been `lost` have taken of `free` frames is gone. -/
structure Spent (vm : State) (spaces : Finset Nat) (r : Nat) (S : Finset Nat) (lost free : Nat) :
    Prop where
  ready : Ready vm spaces
  mem : r ∈ spaces
  small : SmallPages vm r
  tables : ∀ k, 1 ≤ k ∧ k ≤ 3 → ∀ i < 2 ^ 35, hasTable vm r k i = true ↔
    i / tableSpan k ∈ S.image (· / tableSpan k)
  pages : ∀ i < 2 ^ 35, (translate vm r (i * 4096)).isSome = true ↔ i ∈ S
  frames : (freePages vm.pmm).card + framesFor S + lost = free

variable {vm vm₁ : State} {spaces : Finset Nat} {r fuel k : Nat} {f : File} {ph : Phdr} {st : Store}

theorem lacks_eq {live : Finset Nat} {top : Fin 512 → Nat} (hr : r ∈ live) (k i : Nat) :
    Paging.lacks vm live top (.space r) (tablePath k i) =
      if hasTable vm r k i = true then 0 else 1 := by
  unfold Paging.lacks hasTable
  rw [Paging.tableAt, Radix.node_of_root (Paging.roots_space hr)]

/-- The tables that a page lacks, counted in the machine and for the set of its pages. -/
theorem Spent.tableCost_eq (h : Spent vm spaces r S lost free) (hi : i < 2 ^ 35)
    {live : Finset Nat} {top : Fin 512 → Nat} (hr : r ∈ live) (hmem : vm₁.mem = vm.mem) :
    Paging.tableCost vm₁ live top r (i * 4096) = newTables S i := by
  have hone : ∀ k, 1 ≤ k ∧ k ≤ 3 → Paging.lacks vm₁ live top (.space r) (tablePath k i) =
      if i / tableSpan k ∈ S.image (· / tableSpan k) then 0 else 1 := by
    intro k hk
    rw [lacks_eq hr]
    have hsame : hasTable vm₁ r k i = hasTable vm r k i := by
      unfold hasTable
      rw [hmem]
    rw [hsame]
    simp only [h.tables k hk i hi]
  unfold Paging.tableCost newTables
  exact congrArg₂ (· + ·) (congrArg₂ (· + ·) (hone 1 (by decide)) (hone 2 (by decide)))
    (hone 3 (by decide))

/-! ## One page -/

/-- The frames that are gone when page `i` is mapped, which may be there already. -/
def lostBy (S : Finset Nat) (i : Nat) : Nat := if i ∈ S then 1 else 0

theorem framesFor_page (S : Finset Nat) (i : Nat) :
    framesFor (insert i S) + lostBy S i = framesFor S + 1 + newTables S i := by
  unfold lostBy
  by_cases hi : i ∈ S
  · rw [if_pos hi, Finset.insert_eq_of_mem hi, newTables_of_mem hi, Nat.add_zero]
  · rw [if_neg hi, framesFor_insert hi, Nat.add_zero]

theorem page_lower {j : Nat} (hj : j < 2 ^ 35) : j * 4096 < lowerEnd := by
  have hend : lowerEnd = 140737488355328 := rfl
  omega

theorem page_ne {j : Nat} (hij : ¬j = i) : ¬i * 4096 / 4096 = j * 4096 / 4096 := by
  omega

/-- A page is mapped to a new frame exactly if there are frames for it and for its tables. -/
theorem Spent.page (h : Spent vm spaces r S lost free) (hi : i < 2 ^ 35) :
    (∃ pa vm₁ vm₂, allocPage vm = (pa, vm₁) ∧ pa ≠ Pmm.physNull ∧
      vmmMapPageInto vm₁ (i * 4096) pa 7 r = (true, vm₂) ∧
      Spent vm₂ spaces r (insert i S) (lost + lostBy S i) free) ∨
    free < framesFor (insert i S) + (lost + lostBy S i) ∧
      ((allocPage vm).1 = Pmm.physNull ∨ (allocPage vm).1 ≠ Pmm.physNull ∧
        (vmmMapPageInto (allocPage vm).2 (i * 4096) (allocPage vm).1 7 r).1 = false) := by
  have hcount := framesFor_page S i
  have hfree := h.frames
  have hva := page_lower hi
  have hidx := Paging.pml4Idx_lower hva
  have hnull := h.ready.ne_null h.mem
  obtain ⟨halloc, hmap⟩ := h.ready.allocMap h.mem (i * 4096)
  rcases h.ready.alloc with ht | hfull
  swap
  · right
    have hnone : (freePages vm.pmm).card = 0 := by
      obtain ⟨x, top, -, rfl, -, hs⟩ := h.ready.sound
      by_contra hpos
      obtain ⟨m, hm, hz, -, heq⟩ := Paging.allocPage_room hs.ok.shape.pmm (by omega)
      rw [heq] at hfull
      exact (Paging.used_of_take hm hz).ne_null (congrArg Prod.fst hfull)
    exact ⟨by omega, Or.inl (congrArg Prod.fst hfull)⟩
  have hcard : (freePages (allocPage vm).2.pmm).card + 1 = (freePages vm.pmm).card := by
    obtain ⟨x, top, -, rfl, -, hs⟩ := h.ready.sound
    rcases Paging.allocPage_cases hs.ok.shape.pmm with ⟨m, hm, -, -, heq⟩ | heq
    · rw [heq]
      exact Paging.freePages_take hm
    · exact absurd (congrArg Prod.fst heq) ht.ne_null
  obtain ⟨hready, -⟩ := hmap ht.ne_null
  have hexact : ((vmmMapPageInto (allocPage vm).2 (i * 4096) (allocPage vm).1 7 r).1 = true ∧
      SmallPages (vmmMapPageInto (allocPage vm).2 (i * 4096) (allocPage vm).1 7 r).2 r ∧
      (freePages (vmmMapPageInto (allocPage vm).2 (i * 4096) (allocPage vm).1 7 r).2.pmm).card +
        newTables S i = (freePages (allocPage vm).2.pmm).card ∧
      ∀ k, 1 ≤ k ∧ k ≤ 3 → ∀ j < 2 ^ 35,
        hasTable (vmmMapPageInto (allocPage vm).2 (i * 4096) (allocPage vm).1 7 r).2 r k j = true ↔
          hasTable vm r k j = true ∨ tablePath k j = tablePath k i) ∨
      (freePages (allocPage vm).2.pmm).card < newTables S i ∧
        (vmmMapPageInto (allocPage vm).2 (i * 4096) (allocPage vm).1 7 r).1 = false := by
    obtain ⟨x, top, -, hx, rfl, hs⟩ := halloc.sound
    have hlive : r ∈ x.live := Finset.mem_insert_of_mem h.mem
    have hsmall : SmallPages x.vm r := by
      unfold SmallPages
      rw [hx, ht.mem]
      exact h.small
    have hcost : Paging.tableCost x.vm x.live top r (i * 4096) = newTables S i :=
      h.tableCost_eq hi hlive (hx ▸ ht.mem)
    have hwalk : ∀ (s : State) q, (Paging.tableAt s x.live top (.space r) q).isSome =
        (Radix.walk nextOf s.mem 3 r q).isSome := by
      intro s q
      rw [Paging.tableAt, Radix.node_of_root (Paging.roots_space hlive)]
    unfold vmmMapPageInto
    rw [if_neg hnull, ← hx]
    rcases Paging.mapPage_exact hs.ok.shape hs.owned.fresh hlive hidx
      ((smallPages_iff top hlive).mp hsmall) (allocPage vm).1 7 with
      ⟨hok, hplain, hfrees, htables⟩ | ⟨hshort, hfail⟩
    · left
      refine ⟨hok, (smallPages_iff top hlive).mpr hplain, hcost ▸ hfrees, fun k hk j hj => ?_⟩
      have hiff := htables (tablePath k j)
      rw [hwalk, hwalk, hx, ht.mem] at hiff
      rw [hx]
      refine hiff.trans (or_congr_right ?_)
      have hlen := tablePath_length hk.2 j
      constructor
      · rintro (heq | heq | heq)
        all_goals
          rw [heq] at hlen
          rw [heq, ← hlen]
          rfl
      · intro heq
        rw [heq]
        obtain rfl | rfl | rfl : k = 1 ∨ k = 2 ∨ k = 3 := by omega
        · exact Or.inl rfl
        · exact Or.inr (Or.inl rfl)
        · exact Or.inr (Or.inr rfl)
    · exact Or.inr ⟨hcost ▸ hshort, hfail⟩
  have hpages := halloc.map h.mem hva (allocPage vm).1
  rcases hexact with ⟨hok, hsmall, hfrees, htables⟩ | ⟨hshort, hfail⟩
  · left
    refine ⟨(allocPage vm).1, (allocPage vm).2,
      (vmmMapPageInto (allocPage vm).2 (i * 4096) (allocPage vm).1 7 r).2, rfl, ht.ne_null,
      Prod.ext hok rfl, hready, h.mem, hsmall, ?_, ?_, by omega⟩
    · intro k hk j hj
      rw [htables k hk j hj, h.tables k hk j hj, tablePath_eq_iff hk hj hi, Finset.image_insert,
        Finset.mem_insert]
      tauto
    · intro j hj
      rcases hpages with ⟨-, hm⟩ | ⟨hfail, -⟩
      · rw [hm.page _ (page_lower hj), Paging.translate_congr ht.mem, Finset.mem_insert]
        by_cases hij : j = i
        · simp [hij]
        · rw [if_neg (page_ne hij), h.pages j hj]
          simp [hij]
      · rw [hok] at hfail
        cases hfail
  · exact Or.inr ⟨by omega, Or.inr ⟨ht.ne_null, hfail⟩⟩


theorem Spent.allocInto (h : Spent vm spaces r S lost free) (hi : i < 2 ^ 35) :
    (∃ vm₂, vmmAllocPageInto vm (i * 4096) 7 r = (true, vm₂) ∧
      Spent vm₂ spaces r (insert i S) (lost + lostBy S i) free) ∨
    free < framesFor (insert i S) + (lost + lostBy S i) ∧
      (vmmAllocPageInto vm (i * 4096) 7 r).1 = false := by
  have hnull := h.ready.ne_null h.mem
  unfold vmmAllocPageInto Paging.allocAndMap
  dsimp only
  rcases h.page hi with ⟨pa, vm₁, vm₂, halloc, hne, hmap, hspent⟩ | ⟨hshort, hfull | ⟨hne, hfail⟩⟩
  · left
    rw [halloc]
    dsimp only
    rw [if_neg hne, if_pos hnull, hmap]
    exact ⟨vm₂, rfl, hspent⟩
  · right
    rw [if_pos hfull]
    exact ⟨hshort, rfl⟩
  · right
    rw [if_neg hne, if_pos hnull]
    revert hfail
    generalize vmmMapPageInto (allocPage vm).2 (i * 4096) (allocPage vm).1 7 r = out
    obtain ⟨ok, vm₂⟩ := out
    rintro rfl
    exact ⟨hshort, rfl⟩

/-! ## Segments -/

/-- The pre-map loop from page `i` on: it spins, or maps the pages up to the end of the segment, or
there are no frames for them. -/
theorem premap64_frames {segEnd : Nat} (hend : segEnd ≤ lowerEnd) :
    ∀ {fuel i : Nat} {l : Elf.Load} {S : Finset Nat}, Spent l.vm spaces r S lost free →
      (Elf.premap64 r segEnd fuel (i * 4096) l).1 = .spinning ∨
      (Elf.premap64 r segEnd fuel (i * 4096) l).1 = .done ∧
        Spent (Elf.premap64 r segEnd fuel (i * 4096) l).2.vm spaces r
          (Finset.Ico i ((segEnd + 4095) / 4096) ∪ S) lost free ∨
      (Elf.premap64 r segEnd fuel (i * 4096) l).1 = .failed ∧
        free < framesFor (Finset.Ico i ((segEnd + 4095) / 4096) ∪ S) + lost := by
  have hlower : lowerEnd = 140737488355328 := rfl
  intro fuel
  induction fuel with
  | zero => exact fun _ => Or.inl rfl
  | succ fuel ih =>
    intro i l S h
    rw [Elf.premap64]
    by_cases hpage : i * 4096 < segEnd
    swap
    · have hnone : Finset.Ico i ((segEnd + 4095) / 4096) = ∅ :=
        Finset.Ico_eq_empty (by omega)
      rw [if_neg hpage, hnone, Finset.empty_union]
      exact Or.inr (Or.inl ⟨rfl, h⟩)
    have hi : i < 2 ^ 35 := by omega
    have hnext : (i * 4096 + 4096) % 2 ^ 64 = (i + 1) * 4096 := by omega
    have hrest : Finset.Ico i ((segEnd + 4095) / 4096) ∪ S =
        Finset.Ico (i + 1) ((segEnd + 4095) / 4096) ∪ insert i S := by
      have hlt : i < (segEnd + 4095) / 4096 := by omega
      rw [← Finset.insert_Ico_add_one_left_eq_Ico hlt, Finset.insert_union, Finset.union_insert]
    rw [if_pos hpage, isMapped_iff h.ready h.mem, hnext, hrest]
    by_cases hmapped : (translate l.vm r (i * 4096)).isSome = true
    · have hmem := (h.pages i hi).mp hmapped
      rw [if_pos hmapped, Finset.insert_eq_of_mem hmem]
      exact ih h
    · have hnew : i ∉ S := fun hmem => hmapped ((h.pages i hi).mpr hmem)
      have hlost : lost + lostBy S i = lost := by
        unfold lostBy
        rw [if_neg hnew, Nat.add_zero]
      rw [if_neg hmapped]
      rcases h.allocInto hi with ⟨vm₂, hok, hspent⟩ | ⟨hshort, hfail⟩
      · rw [hlost] at hspent
        rw [hok]
        exact ih (l := ⟨vm₂, l.log ++ [.map (i * 4096)]⟩) hspent
      · rw [hlost] at hshort
        dsimp only
        rw [hfail]
        refine Or.inr (Or.inr ⟨rfl, ?_⟩)
        have hmono : framesFor (insert i S) ≤
            framesFor (Finset.Ico (i + 1) ((segEnd + 4095) / 4096) ∪ insert i S) :=
          framesFor_mono Finset.subset_union_right
        omega

/-- What a part of the load, which maps the pages `T`, comes to. -/
def TakesFrames (spaces : Finset Nat) (r : Nat) (T : Finset Nat) (lost free : Nat)
    (out : Outcome × Store) : Prop :=
  out.1 = .spinning ∨ out.1 = .faulted ∨
    out.1 = .done ∧ Spent out.2.vm spaces r T lost free ∨
    out.1 = .failed ∧ free < framesFor T + lost

theorem segment64_frames (h : Spent st.vm spaces r S lost free) (hacc : f.accepts ph = true)
    (hlow : InLowerHalf ph) (fuel : Nat) :
    TakesFrames spaces r (pagesOf ph ∪ S) lost free (segment64 f r fuel ph st) := by
  have hlower : lowerEnd = 140737488355328 := rfl
  rw [segment64_of_accepts hacc]
  have hloop : (premap64 r fuel ph st.vm).1 = .spinning ∨
      (premap64 r fuel ph st.vm).1 = .done ∧
        Spent (premap64 r fuel ph st.vm).2.vm spaces r (pagesOf ph ∪ S) lost free ∨
      (premap64 r fuel ph st.vm).1 = .failed ∧ free < framesFor (pagesOf ph ∪ S) + lost := by
    unfold premap64 pagesOf
    by_cases hempty : ph.pVaddr / 4096 * 4096 < ph.pVaddr + ph.pMemsz
    · have hlast := hlow.pages _ ⟨Nat.mul_mod_left _ _, last_page hempty⟩
      exact premap64_frames (l := ⟨st.vm, []⟩) (by omega) h
    · have hnone : Finset.Ico (ph.pVaddr / 4096) ((ph.pVaddr + ph.pMemsz + 4095) / 4096) = ∅ :=
        Finset.Ico_eq_empty (by omega)
      rw [hnone, Finset.empty_union]
      cases fuel with
      | zero => exact Or.inl rfl
      | succ fuel =>
        rw [Elf.premap64, if_neg hempty]
        exact Or.inr (Or.inl ⟨rfl, h⟩)
  revert hloop
  generalize premap64 r fuel ph st.vm = out
  obtain ⟨o, l⟩ := out
  rintro (hspin | ⟨hdone, hspent⟩ | ⟨hfail, hshort⟩)
  · cases hspin
    exact Or.inl rfl
  · cases hdone
    unfold copyMapped
    dsimp only
    cases copySegment f (Paging.physAddr l.vm r) ph st.bytes with
    | none => exact Or.inr (Or.inl rfl)
    | some bytes => exact Or.inr (Or.inr (Or.inl ⟨rfl, hspent⟩))
  · cases hfail
    exact Or.inr (Or.inr (Or.inr ⟨rfl, hshort⟩))

theorem pagesOfAll_loads_cons {phs : List Phdr} (htype : ph.pType = 1) :
    pagesOfAll (loads (ph :: phs)) = pagesOf ph ∪ pagesOfAll (loads phs) := by
  have hloads : loads (ph :: phs) = ph :: loads phs :=
    List.filter_cons_of_pos (decide_eq_true htype)
  rw [hloads]
  rfl

/-- The loop over the headers. -/
theorem segments64_frames (fuel : Nat) : ∀ {phs : List Phdr} {st : Store} {S : Finset Nat},
    Spent st.vm spaces r S lost free →
      (∀ ph ∈ loads phs, f.accepts ph = true ∧ InLowerHalf ph) →
      TakesFrames spaces r (pagesOfAll (loads phs) ∪ S) lost free
        (segments (segment64 f r fuel) phs st) := by
  intro phs
  induction phs with
  | nil =>
    intro st S h _
    refine Or.inr (Or.inr (Or.inl ⟨rfl, ?_⟩))
    rw [show pagesOfAll (loads []) = ∅ from rfl, Finset.empty_union]
    exact h
  | cons ph rest ih =>
    intro st S h hacc
    rw [segments]
    by_cases htype : ph.pType = 1
    swap
    · have hloads : loads (ph :: rest) = loads rest :=
        List.filter_cons_of_neg (by rw [decide_eq_true_eq]; exact htype)
      rw [hloads] at hacc ⊢
      rw [if_pos htype]
      exact ih h hacc
    have hacc' := fun q hq => hacc q (mem_loads.mpr
      ⟨List.mem_cons_of_mem ph (mem_loads.mp hq).1, (mem_loads.mp hq).2⟩)
    obtain ⟨haccepts, hlow⟩ := hacc ph (mem_loads.mpr ⟨List.mem_cons_self, htype⟩)
    rw [if_neg (not_not.mpr htype), pagesOfAll_loads_cons htype]
    have hone := segment64_frames h haccepts hlow fuel
    revert hone
    generalize segment64 f r fuel ph st = out
    obtain ⟨o, st₁⟩ := out
    rintro (hspin | hfault | ⟨hdone, hspent⟩ | ⟨hfail, hshort⟩)
    · cases hspin
      exact Or.inl rfl
    · cases hfault
      exact Or.inr (Or.inl rfl)
    · cases hdone
      rw [Finset.union_comm (pagesOf ph), Finset.union_assoc]
      exact ih hspent hacc'
    · cases hfail
      refine Or.inr (Or.inr (Or.inr ⟨rfl, hshort.trans_le ?_⟩))
      have hsub : pagesOf ph ∪ S ⊆ pagesOf ph ∪ pagesOfAll (loads rest) ∪ S :=
        Finset.union_subset_union_left Finset.subset_union_left
      exact Nat.add_le_add_right (framesFor_mono hsub) lost

/-! ## The stack -/

/-- The stack takes frames for all its pages, those that a segment has mapped included. -/
theorem mapStack_frames : ∀ {pages : List Nat} {st : Store} {S : Finset Nat} {lost : Nat},
    Spent st.vm spaces r S lost free → pages.Nodup → (∀ i ∈ pages, i < 2 ^ 35) →
      (mapStack r (pages.map (· * 4096)) st).1 = true ∧
        framesFor (S ∪ pages.toFinset) + (lost + (S ∩ pages.toFinset).card) ≤ free ∨
      (mapStack r (pages.map (· * 4096)) st).1 = false ∧
        free < framesFor (S ∪ pages.toFinset) + (lost + (S ∩ pages.toFinset).card) := by
  intro pages
  induction pages with
  | nil =>
    intro st S lost h _ _
    have hframes := h.frames
    left
    refine ⟨rfl, ?_⟩
    rw [List.toFinset_nil, Finset.union_empty, Finset.inter_empty, Finset.card_empty]
    omega
  | cons i rest ih =>
    intro st S lost h hnodup hlow
    obtain ⟨hnotMem, hnodup'⟩ := List.nodup_cons.mp hnodup
    have hall : S ∪ (i :: rest).toFinset = insert i S ∪ rest.toFinset := by
      rw [List.toFinset_cons, Finset.union_insert, Finset.insert_union]
    have hlost : lost + (S ∩ (i :: rest).toFinset).card =
        lost + lostBy S i + (insert i S ∩ rest.toFinset).card := by
      have hsame : insert i S ∩ rest.toFinset = S ∩ rest.toFinset :=
        Finset.insert_inter_of_notMem (by rwa [List.mem_toFinset])
      unfold lostBy
      rw [hsame, List.toFinset_cons]
      split_ifs with hi
      · have hfresh : i ∉ S ∩ rest.toFinset := fun hc =>
          hnotMem (List.mem_toFinset.mp (Finset.mem_inter.mp hc).2)
        rw [Finset.inter_insert_of_mem hi, Finset.card_insert_of_notMem hfresh]
        omega
      · rw [Finset.inter_insert_of_notMem hi]
        rfl
    rw [hall, hlost, List.map_cons, mapStack]
    dsimp only
    rcases h.page (hlow i List.mem_cons_self) with
      ⟨pa, vm₁, vm₂, halloc, hne, hmap, hspent⟩ | ⟨hshort, hfail⟩
    · rw [halloc]
      dsimp only
      rw [if_neg hne, hmap]
      exact @ih ⟨vm₂, Paging.zeroFrame st.bytes pa⟩ _ _ hspent hnodup'
        fun j hj => hlow j (List.mem_cons_of_mem i hj)
    · right
      have hmono : framesFor (insert i S) ≤ framesFor (insert i S ∪ rest.toFinset) :=
        framesFor_mono Finset.subset_union_left
      refine ⟨?_, by omega⟩
      rcases hfail with hfull | ⟨hne, hfail⟩
      · rw [if_pos hfull]
      · rw [if_neg hne]
        revert hfail
        generalize vmmMapPageInto (allocPage st.vm).2 (i * 4096) (allocPage st.vm).1 7 r = out
        obtain ⟨ok, vm₂⟩ := out
        rintro rfl
        rfl

/-! ## Loads -/

/-- What the creation of an address space leaves: no pages, and all free frames but one. -/
theorem spent_fresh {vm₀ : State} {spaces₀ : Finset Nat} (h : Ready vm₀ spaces₀)
    (heq : vmmCreateAddressSpace vm₀ = (r, vm)) (hr : r ≠ Pmm.physNull) :
    Spent vm (insert r spaces₀) r ∅ 0 (freePages vm.pmm).card := by
  have hfresh := (freshSpace h heq hr).1
  refine ⟨hfresh.ready, hfresh.mem, hfresh.small, fun k hk i _ => ?_, fun i hi => ?_, rfl⟩
  · rw [Finset.image_empty]
    refine ⟨fun htable => ?_, fun hc => absurd hc (Finset.notMem_empty _)⟩
    obtain ⟨x, top, -, rfl, rfl, hs⟩ := h.sound
    rcases Paging.createSpace_cases hs.ok.shape hs.owned.fresh with hfail | ⟨m, vm', hok, hc⟩
    · rw [heq] at hfail
      exact absurd (congrArg Prod.fst hfail) hr
    rw [heq] at hok
    cases hok
    obtain ⟨n, hn⟩ := Option.isSome_iff_exists.mp htable
    have hnode : Paging.tableAt vm (insert r x.live) top (.space r) (tablePath k i) = some n := by
      rw [Paging.tableAt,
        Radix.node_of_root (Paging.roots_space (Finset.mem_insert_self r x.live))]
      exact hn
    rcases hc.tables.mp hnode with ⟨-, hnil, -⟩ | hold
    · have hlen := tablePath_length hk.2 i
      rw [hnil, List.length_nil] at hlen
      omega
    · obtain ⟨root, hroot, -⟩ := Option.bind_eq_some_iff.mp hold
      have hnone : Paging.roots x.live top (.space r) = none := if_neg hc.notMem
      rw [hnone] at hroot
      cases hroot
  · rw [hfresh.empty _ (page_lower hi)]
    exact ⟨fun hc => (by cases hc), fun hc => absurd hc (Finset.notMem_empty _)⟩

/-- The numbers of the pages that the stack loop maps, in its order. -/
def stackNumbers : List Nat :=
  (List.range (userStackSize / 4096)).map ((userStackTop - userStackSize) / 4096 + ·)

theorem stackPages_eq : Elf.stackPages = stackNumbers.map (· * 4096) := by decide

theorem stackNumbers_window : stackNumbers.toFinset = stackWindow := by decide

/-- An ELF64 file whose segments are accepted is loaded, with its stack, exactly if the frames that
it needs are free; unless the load does not return. -/
theorem load64_frames (bytes : Mem) (h : Spent vm spaces r ∅ 0 free) (hvalid : Valid f)
    (hclass : f.elfClass = 2) (hacc : ∀ ph ∈ headers f, f.accepts ph = true ∧ InLowerHalf ph)
    (fuel : Nat) :
    (elfLoadFile fuel f true true r ⟨vm, bytes⟩).entry = none ∨
    (elfLoadFile fuel f true true r ⟨vm, bytes⟩).entry = some f.entry64 ∧
      (elfLoadFile fuel f true true r ⟨vm, bytes⟩).stackTop = userStackTop ∧
      framesNeeded f ≤ free ∨
    (elfLoadFile fuel f true true r ⟨vm, bytes⟩).entry = some 0 ∧ free < framesNeeded f := by
  have hheaders := headers64 hclass
  rw [elfLoadFile_class64 hvalid hclass (h.ready.ne_null h.mem)]
  rw [hheaders] at hacc
  have hsegments : TakesFrames spaces r (pagesOfAll (loads f.phdrs64) ∪ ∅) 0 free
      (segments (segment64 f r fuel) f.phdrs64 ⟨vm, bytes⟩) := segments64_frames fuel h hacc
  rw [← hheaders, Finset.union_empty] at hsegments
  unfold segments64
  revert hsegments
  generalize segments (segment64 f r fuel) f.phdrs64 ⟨vm, bytes⟩ = out
  obtain ⟨o, st⟩ := out
  rintro (hspin | hfault | ⟨hdone, hspent⟩ | ⟨hfail, hshort⟩)
  · cases hspin
    exact Or.inl rfl
  · cases hfault
    exact Or.inl rfl
  · cases hdone
    have hstack := @mapStack_frames _ _ _ stackNumbers _ _ _ hspent (by decide) (by decide)
    rw [← stackPages_eq, stackNumbers_window, Nat.zero_add] at hstack
    rw [finish64]
    unfold framesNeeded
    revert hstack
    generalize mapStack r Elf.stackPages st = out
    obtain ⟨ok, st'⟩ := out
    rintro (⟨hok, hroom⟩ | ⟨hok, hshort⟩)
    · cases hok
      exact Or.inr (Or.inl ⟨rfl, rfl, hroom⟩)
    · cases hok
      exact Or.inr (Or.inr ⟨rfl, hshort⟩)
  · cases hfail
    refine Or.inr (Or.inr ⟨rfl, ?_⟩)
    have hmono : framesFor (pagesOfAll (headers f)) ≤
        framesFor (pagesOfAll (headers f) ∪ stackWindow) :=
      framesFor_mono Finset.subset_union_left
    unfold framesNeeded
    omega

end Kyuzen.Loader
