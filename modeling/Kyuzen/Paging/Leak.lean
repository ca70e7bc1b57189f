import Kyuzen.Paging.Conserve

/-!
# Frames that are lost

Mapping a page that is mapped already replaces its entry. The frame that the entry had is in no
table any more, so that the destruction of the space does not give it back
(`Accounted.leaks`), whatever is mapped later (`takePage_stays`). As long as only new pages are
mapped, all that has been taken belongs to the space (`Accounted.takePage`).
-/

namespace Kyuzen.Paging

open Lib.Radix

variable {s₀ s s' : State} {live spaces held : Finset Nat} {top : Fin 512 → Nat}
  {r va m flags f : Nat}

/-- A new frame is mapped at `va`. -/
def takePage (r va : Nat) (s : State) : Bool × State :=
  allocAndMap (fun s paddr => vmmMapPageInto s va paddr 7 r) s

/-- All that has been taken since `s₀` belongs to the space `r`. -/
def Accounted (s₀ : State) (spaces : Finset Nat) (r : Nat) (s : State) : Prop :=
  ∃ live held top, Owned s₀ live spaces held top ∧ Conserved s₀ live spaces held held top r s

/-- The page `i` stays in use when `r` is destroyed. -/
def Stays (r i : Nat) (s : State) : Prop := (vmmDestroyAddressSpace s r true).pmm.used i = true

theorem Owned.stays_iff (h : Owned s live spaces held top) (hr : r ∈ spaces) (i : Nat) :
    Stays r i s ↔ s.pmm.used i = true ∧ ¬FrameOf s live top r (i * 4096) := by
  unfold Stays
  rw [(h.dissolved hr true).freed.used, frameOf_iff (h.sub hr)]

theorem takePage_eq (hr : r ≠ Pmm.physNull) (va : Nat) (s : State) :
    takePage r va s = allocAndMap (fun s paddr => mapPage s va paddr 7 r) s := by
  have hmap : (fun s paddr => vmmMapPageInto s va paddr 7 r) =
      fun s paddr => mapPage s va paddr 7 r := by
    funext s paddr
    exact if_neg hr
  unfold takePage
  rw [hmap]

theorem allocInto_eq (hr : r ≠ Pmm.physNull) (va : Nat) (s : State) :
    vmmAllocPageInto s va 7 r = takePage r va s := by
  have hmap : (fun s paddr => if r ≠ Pmm.physNull then vmmMapPageInto s va paddr 7 r
      else vmmMapPage s va paddr 7) = fun s paddr => vmmMapPageInto s va paddr 7 r := by
    funext s paddr
    exact if_pos hr
  unfold vmmAllocPageInto takePage
  rw [hmap]

/-- The frame is allocated, mapped, and given back if that fails. -/
theorem takePage_split (r va : Nat) (s : State) :
    takePage r va s = if (allocPage s).1 = Pmm.physNull then (false, (allocPage s).2)
      else if (vmmMapPageInto (allocPage s).2 va (allocPage s).1 7 r).1 = true then
        (true, (vmmMapPageInto (allocPage s).2 va (allocPage s).1 7 r).2)
      else
        (false, freePage (vmmMapPageInto (allocPage s).2 va (allocPage s).1 7 r).2
          (allocPage s).1) := by
  unfold takePage allocAndMap
  generalize allocPage s = out
  obtain ⟨paddr, s₁⟩ := out
  dsimp only
  generalize vmmMapPageInto s₁ va paddr 7 r = out
  obtain ⟨ok, s₂⟩ := out
  cases ok with
  | true => rfl
  | false => rfl

/-! ## The frames of a space -/

/-- The entry of a page in a PT. -/
theorem entryAt_of_table {a : Anchor} {p : List (Fin 512)} {pt : Nat}
    (hpt : tableAt s live top a p = some pt) (hp : p.length = a.level) (i : Fin 512) :
    entryAt s live top a (p ++ [i]) =
      if present (s.mem pt i) = true then some (0, s.mem pt i) else none := by
  obtain ⟨root, hroot, hlevel⟩ := tableAt_root hpt
  have hzero : root.1 - p.length = 0 := by omega
  have hn : node nextOf s.mem (roots live top) a p = some pt := hpt
  unfold entryAt
  rw [find_through hroot hn, hzero, lookup, nextOf_pt]
  cases hpres : present (s.mem pt i) <;> simp [Option.filter, hpres]

/-- A mapping call adds its frame and new tables. -/
theorem mapPage_frames (h : Owned s live spaces held top) (hr : r ∈ live)
    (hlow : (pml4Idx va).val < 256) (hm : m % 4096 = 0) (hflags : flags < 4096)
    (hf : FrameOf (mapPage s va m flags r).2 live top r f) :
    FrameOf s live top r f ∨ PmmFree s.pmm f ∨ f = m := by
  have ha : anchorOf r va = .space r := if_pos hlow
  -- tables that have been added were free
  have hgrown : ∀ {s'}, Grown live top (.space r) s s' → FrameOf s' live top r f →
      FrameOf s live top r f ∨ PmmFree s.pmm f := by
    rintro s' hg ⟨p, hp | hl⟩
    · rcases hg.new hp with hp | ⟨-, hfree, -⟩
      · exact Or.inl ⟨p, Or.inl hp⟩
      · exact Or.inr hfree
    · exact Or.inl ⟨p, Or.inr (hg.leaf.mp hl)⟩
  rcases mapPage_cases h.shape h.fresh hr va m flags with ⟨s', heq, hg⟩ | ⟨s', pt, hg, hpt, heq⟩
  · rw [ha] at hg
    rw [heq] at hf
    rcases hgrown hg hf with hold | hfree
    · exact Or.inl hold
    · exact Or.inr (Or.inl hfree)
  · obtain ⟨hw, hentry⟩ := setEntry_written hg.shape hg.fresh hpt (dirPath_length r va) (ptIdx va)
      (pageMask m ||| flags)
    rw [ha] at hg hw hentry
    rw [heq] at hf
    obtain ⟨p, hp | hl⟩ := hf
    · rw [hw.tables] at hp
      rcases hgrown hg ⟨p, Or.inl hp⟩ with hold | hfree
      · exact Or.inl hold
      · exact Or.inr (Or.inl hfree)
    · by_cases hpath : p = pagePath va
      · obtain ⟨-, e, he, rfl⟩ := hl
        have he' := hentry.symm.trans (hpath ▸ he)
        split_ifs at he'
        cases he'
        right
        right
        rw [pageMask_of_dvd hm, pageMask_or hm hflags]
      · have hleaf := (hw.leaf fun hc => hpath hc.2).mp hl
        exact Or.inl ⟨p, Or.inr (hg.leaf.mp hleaf)⟩

theorem takePage_frames (h : Owned s live spaces held top) (hr : r ∈ spaces)
    (hlow : (pml4Idx va).val < 256) (hf : FrameOf (takePage r va s).2 live top r f) :
    FrameOf s live top r f ∨ PmmFree s.pmm f := by
  rw [takePage_eq (h.ne_null hr)] at hf
  rcases allocPage_cases h.shape.pmm with ⟨m, hm, hz, hinv, heq⟩ | heq
  · have hframe :
        FrameOf (mapPage { s with pmm := s.pmm.take (m / 4096) } va m 7 r).2 live top r f := by
      simp only [allocAndMap, heq, (used_of_take hm hz).ne_null, if_false] at hf
      revert hf
      cases mapPage { s with pmm := s.pmm.take (m / 4096) } va m 7 r with
      | mk ok s' =>
        cases ok with
        | true => exact id
        | false => exact id
    rcases mapPage_frames (h.alloc hm hz hinv) (h.sub hr) hlow hm.aligned (by decide) hframe with
      hold | hfree | rfl
    · exact Or.inl hold
    · exact Or.inr (PmmFree.of_take hfree).1
    · exact Or.inr hm
  · simp only [allocAndMap, heq, if_true] at hf
    exact Or.inl hf

/-- What is lost stays lost when a page is mapped. -/
theorem takePage_stays {live' held' : Finset Nat} {top' : Fin 512 → Nat}
    (h : Owned s live spaces held top) (h' : Owned (takePage r va s).2 live' spaces held' top')
    (hr : r ∈ spaces) (hlow : (pml4Idx va).val < 256)
    (hmono : ∀ i, s.pmm.used i = true → (takePage r va s).2.pmm.used i = true) {i : Nat}
    (hi : Stays r i s) : Stays r i (takePage r va s).2 := by
  obtain ⟨hused, hno⟩ := (h.stays_iff hr i).mp hi
  refine (h'.stays_iff hr i).mpr ⟨hmono i hused, ?_⟩
  intro hf
  have hframe : FrameOf (takePage r va s).2 live top r (i * 4096) :=
    (frameOf_iff (h.sub hr)).mp ((frameOf_iff (h'.sub hr)).mpr hf)
  rcases takePage_frames h hr hlow hframe with hold | hfree
  · exact hno hold
  · have hnot := hfree.free
    rw [Nat.mul_div_cancel i (by decide), hused] at hnot
    cases hnot

/-! ## New pages and old ones -/

theorem Accounted.back (h : Accounted s₀ spaces r s) (i : Nat) :
    (vmmDestroyAddressSpace s r true).pmm.used i = s₀.pmm.used i := by
  obtain ⟨live, held, top, howned, hc⟩ := h
  exact hc.destroyed howned i

theorem Accounted.takePage (h : Accounted s₀ spaces r s) (hlow : (pml4Idx va).val < 256)
    (hnone : (takePage r va s).1 = true → translate s r va = none) :
    Accounted s₀ spaces r (takePage r va s).2 := by
  obtain ⟨live, held, top, howned, hc⟩ := h
  exact ⟨live, held, top, howned, hc.allocAndMap hlow hnone (by decide) (by decide)⟩

/-- The frame of a page that is mapped again is lost. -/
theorem Conserved.mapPage_again (h : Conserved s₀ live spaces held (insert m held) top r s)
    (hlow : (pml4Idx va).val < 256) (hflags : flags < 4096)
    (hdone : (Paging.mapPage s va m flags r).1 = true) (hmapped : translate s r va ≠ none) :
    ∃ i, s₀.pmm.used i = false ∧ Stays r i (Paging.mapPage s va m flags r).2 := by
  have ha : anchorOf r va = .space r := if_pos hlow
  have hlen : (pagePath va).length = 4 := by
    rw [pagePath_length r, ha]
    rfl
  have hr : r ∈ insert r spaces := Finset.mem_insert_self r spaces
  have hheld : m ∈ insert m held := Finset.mem_insert_self m held
  rcases mapPage_cases h.owned.shape h.owned.fresh h.mem_live va m flags with
    ⟨s', heq, -⟩ | ⟨s', pt, hg, hpt, heq⟩
  · rw [heq] at hdone
    cases hdone
  obtain ⟨hw, hentry⟩ := setEntry_written hg.shape hg.fresh hpt (dirPath_length r va) (ptIdx va)
    (pageMask m ||| flags)
  have hpath := entryAt_of_table hpt (dirPath_length r va) (ptIdx va)
  rw [ha] at hg hw hentry hpath
  have hsame := hg.entries (.space r) (pagePath va) hlen
  have hal := (h.owned.held_used m hheld).aligned
  have hmask : pageMask (pageMask m ||| flags) = m := by
    rw [pageMask_of_dvd hal, pageMask_or hal hflags]
  -- the entry that is replaced
  obtain ⟨e, hold⟩ : ∃ e, entryAt s (insert r live) top (.space r) (pagePath va) = some (0, e) := by
    rw [translate_eq h.owned.shape h.mem_live, ha, ← hsame] at hmapped
    rw [← hsame]
    change (entryAt s' (insert r live) top (.space r) (dirPath va ++ [ptIdx va])).map _ ≠ none
      at hmapped
    change ∃ e, entryAt s' (insert r live) top (.space r) (dirPath va ++ [ptIdx va]) = _
    rw [hpath] at hmapped ⊢
    split_ifs at hmapped ⊢
    · exact ⟨_, rfl⟩
    · exact absurd rfl hmapped
  have hleaf : Leaf s (insert r live) top r (pagePath va) (pageMask e) := ⟨hlen, e, hold, rfl⟩
  have hused := h.owned.leaf_used hr hleaf
  have hpage := page_index hused.aligned
  have howned := (h.owned.grown hg).written_map hr hw hheld fun e' he' => by
    have heq' := hentry.symm.trans he'
    split_ifs at heq'
    cases heq'
    exact hmask
  rw [heq]
  refine ⟨pageMask e / 4096, h.new _ (Or.inl ⟨pagePath va, Or.inr hleaf⟩), ?_⟩
  refine (howned.stays_iff hr _).mpr ⟨?_, ?_⟩
  · show (setEntry s' pt (ptIdx va) (pageMask m ||| flags)).pmm.used _ = true
    rw [hw.pmm]
    exact (hg.pmmUsed hused).used
  · rw [hpage]
    rintro ⟨q, hq | hl⟩
    · rw [hw.tables] at hq
      rcases hg.new hq with hq | ⟨-, hfree, -⟩
      · exact h.owned.leaf_table hr hleaf _ _ hq
      · exact hused.not_free hfree
    · by_cases hqp : q = pagePath va
      · obtain ⟨-, e', he', hf⟩ := hl
        rw [hqp] at he'
        have heq' := hentry.symm.trans he'
        split_ifs at heq'
        cases heq'
        rw [← hf, hmask] at hleaf
        exact h.owned.held_leaf m hheld r hr _ hleaf
      · have hl' := hg.leaf.mp ((hw.leaf fun hc => hqp hc.2).mp hl)
        exact hqp (h.owned.leaf_inj hr hr hl' hleaf).2

/-- A page that is mapped twice loses its first frame. -/
theorem Accounted.leaks (h : Accounted s₀ spaces r s) (hlow : (pml4Idx va).val < 256)
    (hdone : (Paging.takePage r va s).1 = true) (hmapped : translate s r va ≠ none) :
    ∃ i, s₀.pmm.used i = false ∧ Stays r i (Paging.takePage r va s).2 := by
  obtain ⟨live, held, top, -, hc⟩ := h
  rw [takePage_eq hc.ne_null] at hdone ⊢
  rcases allocPage_cases hc.owned.shape.pmm with ⟨m, hm, hz, hinv, heq⟩ | heq
  · have hagain := (hc.alloc hm hz hinv).mapPage_again hlow (show 7 < 4096 by decide)
    simp only [allocAndMap, heq, (used_of_take hm hz).ne_null, if_false] at hdone ⊢
    revert hdone hagain
    cases Paging.mapPage { s with pmm := s.pmm.take (m / 4096) } va m 7 r with
    | mk ok s' =>
      intro hagain hdone
      cases ok with
      | true => exact hagain rfl hmapped
      | false => cases hdone
  · simp only [allocAndMap, heq, if_true] at hdone
    cases hdone

end Kyuzen.Paging
