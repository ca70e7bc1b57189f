import Kyuzen.Paging.System

/-!
# Enough memory

A call that maps a page can fail because memory is exhausted or because a huge page is in the way.
With three free frames for its tables (`freePages`) and without huge pages below its anchor
(`Plain`) it succeeds, and leaves the anchor without huge pages (`mapPage_room`). Below an anchor of
an address space it succeeds exactly if a frame is free for each table that the page lacks
(`mapPage_exact`). `bigSys` is a machine whose memory is enough for every program.
-/

namespace Kyuzen.Paging

open Lib.Radix

variable {s s' : State} {live : Finset Nat} {top : Fin 512 → Nat}

/-! ## Free frames -/

/-- The pages that the physical memory manager can still hand out. -/
def freePages (p : Pmm.State) : Finset Nat :=
  (Finset.range p.totalPages).filter fun i => p.used i = false

theorem mem_freePages {p : Pmm.State} {i : Nat} :
    i ∈ freePages p ↔ i < p.totalPages ∧ p.used i = false := by
  unfold freePages
  rw [Finset.mem_filter, Finset.mem_range]

theorem freePages_take {p : Pmm.State} {m : Nat} (h : PmmFree p m) :
    (freePages (p.take (m / 4096))).card + 1 = (freePages p).card := by
  have hmem : m / 4096 ∈ freePages p := mem_freePages.mpr ⟨h.tracked, h.free⟩
  have herase : freePages (p.take (m / 4096)) = (freePages p).erase (m / 4096) := by
    ext i
    have htotal : (p.take (m / 4096)).totalPages = p.totalPages := rfl
    rw [Finset.mem_erase, mem_freePages, mem_freePages, htotal, Pmm.used_take,
      Bool.or_eq_false_iff, decide_eq_false_iff_not]
    tauto
  rw [herase]
  exact Finset.card_erase_add_one hmem

theorem allocPage_room (h : Pmm.Inv s.pmm) (hroom : 0 < (freePages s.pmm).card) :
    ∃ m, PmmFree s.pmm m ∧ Pmm.kernelZone ≤ m ∧ Pmm.Inv (s.pmm.take (m / 4096)) ∧
      allocPage s = (m, { s with pmm := s.pmm.take (m / 4096) }) := by
  rcases allocPage_cases h with hsome | hnone
  · exact hsome
  · obtain ⟨i, hi⟩ := Finset.card_pos.mp hroom
    obtain ⟨hlt, hfree⟩ := mem_freePages.mp hi
    have hall := (Pmm.alloc_eq_null_iff h).mp (congrArg Prod.fst hnone) i hlt
    rw [hfree] at hall
    cases hall

theorem allocPageVirt_room (h : Pmm.Inv s.pmm) (hroom : 0 < (freePages s.pmm).card) :
    ∃ m, PmmFree s.pmm m ∧ Pmm.kernelZone ≤ m ∧ Pmm.Inv (s.pmm.take (m / 4096)) ∧
      allocPageVirt s = (some m, zeroed s m) := by
  obtain ⟨m, hm, hz, hinv, heq⟩ := allocPage_room h hroom
  refine ⟨m, hm, hz, hinv, ?_⟩
  unfold allocPageVirt
  rw [heq]
  exact if_neg (used_of_take hm hz).ne_null

/-! ## Anchors without huge pages -/

/-- No entry above the PTs of the anchor is that of a huge page. -/
def Plain (s : State) (live : Finset Nat) (top : Fin 512 → Nat) (a : Anchor) : Prop :=
  ∀ p n, tableAt s live top a p = some n → p.length < a.level →
    ∀ i : Fin 512, (a.level - p.length = 3 → i.val < 256) → huge (s.mem n i) = false

section

variable {a b : Anchor} {p : List (Fin 512)} {n m : Nat} {i : Fin 512}

theorem Plain.pointer (hb : Plain s live top b) (h : Shape s live top) (hf : Fresh s live top)
    (hn : tableAt s live top a p = some n) (hp : p.length < a.level)
    (hi : a.level - p.length = 3 → i.val < 256) (habsent : present (s.mem n i) = false)
    (hm : PmmFree s.pmm m) : Plain (setEntry (zeroed s m) n i (m ||| 7)) live top b := by
  intro q x hx hq j hj
  by_cases hxm : x = m
  · -- the new table is empty
    subst hxm
    have hne : ¬(x = n ∧ j = i) := fun hc => hf.ne hm hn hc.1.symm
    have hzero : (setEntry (zeroed s x) n i (x ||| 7)).mem x j = 0 :=
      (write_of_ne hne).trans (zeroed_self s x j)
    rw [hzero]
    rfl
  · rcases (pointer_tableAt h hf hn hp hi habsent hm).mp hx with ⟨-, -, hc⟩ | hold
    · exact absurd hc hxm
    by_cases hxj : x = n ∧ j = i
    · rw [hxj.1, hxj.2, setEntry_self]
      exact huge_table hm.aligned
    · rw [pointer_mem hxj hxm]
      exact hb q x hold hq j hj

theorem Plain.written (hb : Plain s live top b) (h : Shape s live top)
    (hw : Written live top a (p ++ [i]) s (setEntry s n i m))
    (hn : tableAt s live top a p = some n) (hp : p.length = a.level) :
    Plain (setEntry s n i m) live top b := by
  intro q x hx hq j hj
  rw [hw.tables] at hx
  -- a PT lies deeper than the tables in question
  have hne : x ≠ n := by
    rintro rfl
    obtain ⟨rfl, rfl⟩ := h.separate hx hn
    omega
  rw [show (setEntry s n i m).mem x j = s.mem x j from congrFun (write_table_of_ne hne) j]
  exact hb q x hx hq j hj

/-- The frame that the table at this path costs, if it is not there. -/
def lacks (s : State) (live : Finset Nat) (top : Fin 512 → Nat) (a : Anchor)
    (q : List (Fin 512)) : Nat :=
  if (tableAt s live top a q).isSome then 0 else 1

/-- The table at this path has been made, unless it was there, and no other one. -/
structure Extended (live : Finset Nat) (top : Fin 512 → Nat) (a : Anchor) (q : List (Fin 512))
    (s s' : State) : Prop where
  grown : Grown live top a s s'
  plain : ∀ b, Plain s live top b → Plain s' live top b
  cost : (freePages s'.pmm).card + lacks s live top a q = (freePages s.pmm).card
  tables : ∀ x, (tableAt s' live top a x).isSome = true ↔
    (tableAt s live top a x).isSome = true ∨ x = q

/-- One level of the walk: it succeeds exactly if there is a frame for what it lacks. -/
theorem nextTable_exact (h : Shape s live top) (hf : Fresh s live top)
    (hn : tableAt s live top a p = some n) (hp : p.length < a.level)
    (hi : a.level - p.length = 3 → i.val < 256) (hplain : Plain s live top a) :
    (∃ m s', nextTable s n i = (some m, s') ∧ tableAt s' live top a (p ++ [i]) = some m ∧
      Extended live top a (p ++ [i]) s s') ∨
    (freePages s.pmm).card < lacks s live top a (p ++ [i]) ∧ nextTable s n i = (none, s) := by
  by_cases hpres : present (s.mem n i) = true
  · left
    rcases nextTable_cases h hf hn hp hi (hplain p n hn hp i hi) with heq | ⟨m, s', heq, hg, htable⟩
    · rw [nextTable, if_pos hpres] at heq
      cases heq
    · have hs : s' = s := by
        rw [nextTable, if_pos hpres] at heq
        exact (congrArg Prod.snd heq).symm
      subst hs
      have hthere : (tableAt s' live top a (p ++ [i])).isSome = true := by
        rw [htable]
        rfl
      refine ⟨m, s', heq, htable, hg, fun _ => id, ?_, fun x => ⟨Or.inl, ?_⟩⟩
      · unfold lacks
        rw [if_pos hthere, Nat.add_zero]
      · rintro (hx | rfl)
        · exact hx
        · exact hthere
  · rw [Bool.not_eq_true] at hpres
    have hnone : tableAt s live top a (p ++ [i]) = none := by
      obtain ⟨r, hroot, hlevel⟩ := tableAt_root hn
      rw [tableAt, node_through hroot hn, nextOf_of_absent hpres]
      rfl
    have hone : lacks s live top a (p ++ [i]) = 1 := by
      unfold lacks
      rw [hnone]
      rfl
    rw [hone]
    by_cases hroom : 0 < (freePages s.pmm).card
    · left
      obtain ⟨m, hm, hz, hinv, heq⟩ := allocPageVirt_room h.pmm hroom
      obtain ⟨hg, htable⟩ := grown_pointer h hf hn hp hi hpres hm hz hinv
      refine ⟨m, _, ?_, htable, hg, fun b hb => hb.pointer h hf hn hp hi hpres hm, ?_, fun x => ?_⟩
      · unfold nextTable
        rw [if_neg (by rw [hpres]; exact Bool.false_ne_true), heq]
        dsimp only
        rw [setEntry_self, pageMask_or hm.aligned (by decide)]
      · rw [hone]
        exact freePages_take hm
      · rw [Option.isSome_iff_exists, Option.isSome_iff_exists]
        constructor
        · rintro ⟨y, hy⟩
          rcases (pointer_tableAt h hf hn hp hi hpres hm).mp hy with ⟨-, hx, -⟩ | hold
          · exact Or.inr hx
          · exact Or.inl ⟨y, hold⟩
        · rintro (⟨y, hy⟩ | rfl)
          · exact ⟨y, hg.old hy⟩
          · exact ⟨m, htable⟩
    · right
      refine ⟨by omega, ?_⟩
      rcases allocPageVirt_cases h.pmm with ⟨m, hm, -, -, -⟩ | heq
      · have := freePages_take hm
        omega
      · unfold nextTable
        rw [if_neg (by rw [hpres]; exact Bool.false_ne_true), heq]

theorem lacks_le (s : State) (live : Finset Nat) (top : Fin 512 → Nat) (a : Anchor)
    (q : List (Fin 512)) : lacks s live top a q ≤ 1 := by
  unfold lacks
  split_ifs
  · exact Nat.zero_le 1
  · exact le_refl 1

/-- One level of the walk, with a frame to spare. -/
theorem nextTable_room (h : Shape s live top) (hf : Fresh s live top)
    (hn : tableAt s live top a p = some n) (hp : p.length < a.level)
    (hi : a.level - p.length = 3 → i.val < 256) (hplain : Plain s live top a)
    (hroom : 0 < (freePages s.pmm).card) :
    ∃ m s', nextTable s n i = (some m, s') ∧ Grown live top a s s' ∧
      tableAt s' live top a (p ++ [i]) = some m ∧
      (∀ b, Plain s live top b → Plain s' live top b) ∧
      (freePages s.pmm).card ≤ (freePages s'.pmm).card + 1 := by
  have hle := lacks_le s live top a (p ++ [i])
  rcases nextTable_exact h hf hn hp hi hplain with ⟨m, s', heq, htable, he⟩ | ⟨hfull, -⟩
  · have hcost := he.cost
    exact ⟨m, s', heq, he.grown, htable, he.plain, by omega⟩
  · omega

end

/-! ## Mapping a page -/

variable {r va : Nat}

theorem pdpt_room (h : Shape s live top) (hf : Fresh s live top) (hr : r ∈ live)
    (hplain : Plain s live top (anchorOf r va)) (hroom : 0 < (freePages s.pmm).card) :
    ∃ pdpt s', nextTable s r (pml4Idx va) = (some pdpt, s') ∧
      Grown live top (anchorOf r va) s s' ∧
      tableAt s' live top (anchorOf r va) (pdptPath va) = some pdpt ∧
      (∀ b, Plain s live top b → Plain s' live top b) ∧
      (freePages s.pmm).card ≤ (freePages s'.pmm).card + 1 := by
  by_cases h4 : (pml4Idx va).val < 256
  · have ha : anchorOf r va = .space r := if_pos h4
    have hpath : pdptPath va = [pml4Idx va] := if_pos h4
    rw [ha] at hplain
    rw [ha, hpath]
    exact nextTable_room h hf (tableAt_space hr) (Nat.succ_pos 2) (fun _ => h4) hplain hroom
  · rcases pdpt_cases h hf hr va with heq | ⟨pdpt, s', heq, hg, htable⟩
    · rw [nextTable, h.top_eq r hr _ (Nat.le_of_not_lt h4),
        if_pos (h.top_table _ (Nat.le_of_not_lt h4))] at heq
      cases heq
    · have hs : s' = s := by
        rw [nextTable, h.top_eq r hr _ (Nat.le_of_not_lt h4),
          if_pos (h.top_table _ (Nat.le_of_not_lt h4))] at heq
        exact (congrArg Prod.snd heq).symm
      subst hs
      exact ⟨pdpt, s', heq, hg, htable, fun _ => id, Nat.le_succ _⟩

/-- A page is mapped when there are frames for three tables. -/
theorem mapPage_room (h : Shape s live top) (hf : Fresh s live top) (hr : r ∈ live)
    (hplain : Plain s live top (anchorOf r va)) (hroom : 3 ≤ (freePages s.pmm).card)
    (paddr flags : Nat) :
    (mapPage s va paddr flags r).1 = true ∧
      (∀ b, Plain s live top b → Plain (mapPage s va paddr flags r).2 live top b) ∧
      (freePages s.pmm).card ≤ (freePages (mapPage s va paddr flags r).2.pmm).card + 3 := by
  have hlen := pdptPath_length r va
  obtain ⟨pdpt, s₁, heq₁, hg₁, ht₁, hp₁, hc₁⟩ := pdpt_room h hf hr hplain (by omega)
  have hhuge₁ := hp₁ _ hplain _ _ ht₁ (by omega) (pdptIdx va) (by omega)
  obtain ⟨pd, s₂, heq₂, hg₂, ht₂, hp₂, hc₂⟩ := nextTable_room (i := pdptIdx va) hg₁.shape hg₁.fresh
    ht₁ (by omega) (by omega) (hp₁ _ hplain) (by omega)
  have hlen₂ : (pdptPath va ++ [pdptIdx va]).length + 1 = (anchorOf r va).level := by
    rw [List.length_append, List.length_singleton]
    omega
  have hhuge₂ := hp₂ _ (hp₁ _ hplain) _ _ ht₂ (by omega) (pdIdx va) (by omega)
  obtain ⟨pt, s₃, heq₃, hg₃, ht₃, hp₃, hc₃⟩ := nextTable_room (i := pdIdx va) hg₂.shape hg₂.fresh
    ht₂ (by omega) (by omega) (hp₂ _ (hp₁ _ hplain)) (by omega)
  rw [List.append_assoc] at ht₃
  have heq : mapPage s va paddr flags r =
      (true, setEntry s₃ pt (ptIdx va) (pageMask paddr ||| flags)) := by
    unfold mapPage
    rw [heq₁]
    dsimp only
    rw [if_neg (by rw [hhuge₁]; exact Bool.false_ne_true), heq₂]
    dsimp only
    rw [if_neg (by rw [hhuge₂]; exact Bool.false_ne_true), heq₃]
  obtain ⟨hw, -⟩ := setEntry_written hg₃.shape hg₃.fresh ht₃ (dirPath_length r va) (ptIdx va)
    (pageMask paddr ||| flags)
  rw [heq]
  refine ⟨rfl, ?_, ?_⟩
  · intro b hb
    exact (hp₃ b (hp₂ b (hp₁ b hb))).written hg₃.shape hw ht₃ (dirPath_length r va)
  · show (freePages s.pmm).card ≤ (freePages s₃.pmm).card + 3
    omega

/-- The frames for the tables that a page of the lower half lacks. -/
def tableCost (s : State) (live : Finset Nat) (top : Fin 512 → Nat) (r va : Nat) : Nat :=
  lacks s live top (.space r) [pml4Idx va] +
    lacks s live top (.space r) [pml4Idx va, pdptIdx va] +
    lacks s live top (.space r) [pml4Idx va, pdptIdx va, pdIdx va]

/-- A page of the lower half is mapped exactly if there are frames for the tables that it lacks.
Then these tables are there, and no others have been made. -/
theorem mapPage_exact (h : Shape s live top) (hf : Fresh s live top) (hr : r ∈ live)
    (hlow : (pml4Idx va).val < 256) (hplain : Plain s live top (.space r)) (paddr flags : Nat) :
    ((mapPage s va paddr flags r).1 = true ∧
      Plain (mapPage s va paddr flags r).2 live top (.space r) ∧
      (freePages (mapPage s va paddr flags r).2.pmm).card + tableCost s live top r va =
        (freePages s.pmm).card ∧
      ∀ x, (tableAt (mapPage s va paddr flags r).2 live top (.space r) x).isSome = true ↔
        (tableAt s live top (.space r) x).isSome = true ∨ x = [pml4Idx va] ∨
          x = [pml4Idx va, pdptIdx va] ∨ x = [pml4Idx va, pdptIdx va, pdIdx va]) ∨
    (freePages s.pmm).card < tableCost s live top r va ∧
      (mapPage s va paddr flags r).1 = false := by
  -- a table that has just been made is not one that the next levels lack
  have hstays : ∀ (q' : List (Fin 512)) {q : List (Fin 512)} {s s' : State},
      Extended live top (.space r) q s s' → q' ≠ q →
        lacks s' live top (.space r) q' = lacks s live top (.space r) q' := by
    intro q' q s s' he hne
    unfold lacks
    have hiff := he.tables q'
    simp only [hne, or_false] at hiff
    simp only [hiff]
  unfold tableCost
  rcases nextTable_exact (i := pml4Idx va) h hf (tableAt_space hr) (Nat.succ_pos 2) (fun _ => hlow)
    hplain with ⟨pdpt, s₁, heq₁, ht₁, he₁⟩ | ⟨hfull, heq⟩
  swap
  · right
    rw [List.nil_append] at hfull
    refine ⟨by omega, ?_⟩
    unfold mapPage
    rw [heq]
  rw [List.nil_append] at ht₁ he₁
  have hplain₁ := he₁.plain _ hplain
  have hcost₁ := he₁.cost
  have hlevel : (Anchor.space r).level = 3 := rfl
  have hhuge₁ := hplain₁ _ _ ht₁ (by simp [hlevel]) (pdptIdx va) (by simp [hlevel])
  have hlack₂ := hstays [pml4Idx va, pdptIdx va] he₁ (by simp)
  have hlack₃ := hstays [pml4Idx va, pdptIdx va, pdIdx va] he₁ (by simp)
  rcases nextTable_exact (i := pdptIdx va) he₁.grown.shape he₁.grown.fresh ht₁ (by simp [hlevel])
    (by simp [hlevel]) hplain₁ with ⟨pd, s₂, heq₂, ht₂, he₂⟩ | ⟨hfull, heq⟩
  swap
  · right
    rw [List.singleton_append, hlack₂] at hfull
    refine ⟨by omega, ?_⟩
    unfold mapPage
    rw [heq₁]
    dsimp only
    rw [if_neg (by rw [hhuge₁]; exact Bool.false_ne_true), heq]
  rw [List.singleton_append] at ht₂ he₂
  have hplain₂ := he₂.plain _ hplain₁
  have hcost₂ := he₂.cost
  rw [hlack₂] at hcost₂
  have hhuge₂ := hplain₂ _ _ ht₂ (by simp [hlevel]) (pdIdx va) (by simp [hlevel])
  have hlack₃' := hstays [pml4Idx va, pdptIdx va, pdIdx va] he₂ (by simp)
  rcases nextTable_exact (i := pdIdx va) he₂.grown.shape he₂.grown.fresh ht₂ (by simp [hlevel])
    (by simp [hlevel]) hplain₂ with ⟨pt, s₃, heq₃, ht₃, he₃⟩ | ⟨hfull, heq⟩
  swap
  · right
    rw [List.cons_append, List.singleton_append, hlack₃', hlack₃] at hfull
    refine ⟨by omega, ?_⟩
    unfold mapPage
    rw [heq₁]
    dsimp only
    rw [if_neg (by rw [hhuge₁]; exact Bool.false_ne_true), heq₂]
    dsimp only
    rw [if_neg (by rw [hhuge₂]; exact Bool.false_ne_true), heq]
  left
  rw [List.cons_append, List.singleton_append] at ht₃ he₃
  have hcost₃ := he₃.cost
  rw [hlack₃', hlack₃] at hcost₃
  have heq : mapPage s va paddr flags r =
      (true, setEntry s₃ pt (ptIdx va) (pageMask paddr ||| flags)) := by
    unfold mapPage
    rw [heq₁]
    dsimp only
    rw [if_neg (by rw [hhuge₁]; exact Bool.false_ne_true), heq₂]
    dsimp only
    rw [if_neg (by rw [hhuge₂]; exact Bool.false_ne_true), heq₃]
  obtain ⟨hw, -⟩ := setEntry_written he₃.grown.shape he₃.grown.fresh ht₃ rfl (ptIdx va)
    (pageMask paddr ||| flags)
  rw [heq]
  refine ⟨rfl, (he₃.plain _ hplain₂).written he₃.grown.shape hw ht₃ rfl, ?_, fun x => ?_⟩
  · show (freePages s₃.pmm).card + _ = _
    omega
  · rw [hw.tables, he₃.tables, he₂.tables, he₁.tables]
    tauto

/-! ## A large machine -/

/-- The physical memory manager of a machine with 2 ^ 40 pages, as many as a physical address can
name. The bitmap stands behind the kernel zone. -/
def bigPmm : Pmm.State where
  ready := true
  bitmap i := if i < 0x400900 then 0xFF#8 else 0#8
  bitmapBytes := 2 ^ 37
  bitmapPages := 2 ^ 40
  realTotalRam := 2 ^ 52
  totalPages := 2 ^ 40
  usedPages := 0x2004800
  nextFreeHint := 0x2004800

theorem bigPmm_used (i : Nat) : bigPmm.used i = decide (i < 0x2004800) := by
  have hbits : ∀ j < 8, (0xFF#8).getLsbD j = true := by decide
  rw [Pmm.State.used, Lib.Bitmap.test_eq (by decide)]
  by_cases hi : i < 0x2004800
  · have hword : bigPmm.bitmap (i / 8) = 0xFF#8 := if_pos (by omega)
    rw [hword, decide_eq_true hi]
    exact hbits _ (Nat.mod_lt i (by decide))
  · have hword : bigPmm.bitmap (i / 8) = 0#8 := if_neg (by omega)
    rw [hword, decide_eq_false hi, BitVec.getLsbD_zero]

theorem bigPmm_inv : Pmm.Inv bigPmm := by
  have hlow : ∀ i, i < 0x2004800 → bigPmm.used i = true := by
    intro i hi
    rw [bigPmm_used, decide_eq_true hi]
  have hzone : Pmm.kernelLockPages = 0x4800 := rfl
  exact ⟨rfl, rfl, by decide, by decide, hlow, fun i hi => hlow i (by omega)⟩

theorem bigPmm_free : 2 ^ 39 < (freePages bigPmm).card := by
  have hsub : Finset.Ico 0x2004800 (2 ^ 40) ⊆ freePages bigPmm := by
    intro i hi
    rw [Finset.mem_Ico] at hi
    rw [mem_freePages, bigPmm_used, decide_eq_false (by omega)]
    exact ⟨hi.2, rfl⟩
  have hcard := Finset.card_le_card hsub
  rw [Nat.card_Ico] at hcard
  omega

/-- The tables of the small machine, with much memory. -/
def bigBoot : State := ⟨bigPmm, smallMem, none, 0, []⟩

def bigSys : Sys := ⟨{ bigBoot with currentPml4 := some 0x1000, kernelPml4Phys := 0x1000 }, ∅, ∅⟩

theorem big_bootTables : BootTables bigBoot (pageMask 0x1000) := by
  obtain ⟨hhuge, hseparate, -, -⟩ := small_bootTables
  refine ⟨hhuge, hseparate, ?_, bigPmm_inv⟩
  intro a p n hn hfree
  have hz : Pmm.kernelLockPages = 0x4800 := rfl
  have hlow : n / 4096 < Pmm.kernelLockPages := by
    obtain ⟨-, ha⟩ := small_node hn
    rcases ha with ⟨-, rfl⟩ | ⟨i, -, -, rfl⟩
    · omega
    · omega
  have hused := bigPmm_inv.zone _ hlow
  have hfree' : bigPmm.used (n / 4096) = false := hfree.free
  rw [hused] at hfree'
  cases hfree'

theorem big_initPaging : initPaging 0x1000 bigBoot = some bigSys.vm := by
  apply populateAll_present
  intro i hi
  show present (smallMem 0x1000 i) = true
  rw [smallMem_upper (mem_higherHalf.mp hi), present_or]
  simp [present]

theorem bigSys_reach (P : Sys → Op → Prop) : Reach P bigSys :=
  Reach.boot big_bootTables (by simp) big_initPaging

/-- An address space is created if there is a frame for its PML4. -/
theorem createSpace_room (h : Shape s live top) (hroom : 0 < (freePages s.pmm).card) :
    (vmmCreateAddressSpace s).1 ≠ Pmm.physNull := by
  obtain ⟨m, hm, hz, -, heq⟩ := allocPageVirt_room h.pmm hroom
  unfold vmmCreateAddressSpace
  rw [h.current]
  dsimp only
  rw [heq]
  exact (used_of_take hm hz).ne_null

end Kyuzen.Paging
