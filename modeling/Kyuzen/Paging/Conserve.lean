import Kyuzen.Paging.KernelHalf

/-!
# Frames of an address space are conserved

The life of an address space, as the ELF loader, the user heap and the exit path lead it: it is
created, pages are mapped to new frames and unmapped again in any order, and at the end it is
destroyed. `Conserved` compares every state of such a life with the one before the creation: the
pages that have become used since then are the frames of the space, and those that the caller
has in hand. After the destruction nothing is left (`space_conserved`).
-/

namespace Kyuzen.Paging

open Lib.Radix

/-- What a caller does to the lower half of an address space. -/
inductive UserOp where
  | mapInto (va flags : Nat)
  | allocInto (va flags : Nat)
  | unmapFrom (va : Nat)

/-- One such call, with the allocation before it or the release after it. -/
def userExec (r : Nat) (s : State) : UserOp → State
  | .mapInto va flags => (allocAndMap (fun s paddr => vmmMapPageInto s va paddr flags r) s).2
  | .allocInto va flags => (vmmAllocPageInto s va flags r).2
  | .unmapFrom va =>
    let out := vmmUnmapPageFrom s va r
    if out.1 = Pmm.physNull then out.2 else freePage out.2 out.1

/-- New frames go to user pages that are not mapped, with the flags of a page. -/
def UserOp.Admissible (s : State) (r : Nat) : UserOp → Prop
  | .mapInto va flags | .allocInto va flags =>
    (pml4Idx va).val < 256 ∧ translate s r va = none ∧ present flags = true ∧ flags < 4096
  | .unmapFrom va => (pml4Idx va).val < 256

inductive UserRun (r : Nat) (s : State) : State → Prop
  | refl : UserRun r s s
  | step {s' : State} {op : UserOp} (h : UserRun r s s') (hop : op.Admissible s' r) :
    UserRun r s (userExec r s' op)

/-- `f` is a table of `r` or a page in its lower half. -/
def FrameOf (s : State) (live : Finset Nat) (top : Fin 512 → Nat) (r f : Nat) : Prop :=
  ∃ p, tableAt s live top (.space r) p = some f ∨ Leaf s live top r p f

/-- These are the frames that the destruction of `r` gives back. -/
theorem frameOf_iff {s : State} {live : Finset Nat} {top : Fin 512 → Nat} {r f : Nat}
    (hr : r ∈ live) : f ∈ spaceFrames s r true ↔ FrameOf s live top r f := by
  rw [mem_spaceFrames]
  constructor
  · rintro (⟨p, -, hp⟩ | ⟨-, rfl⟩)
    · exact ⟨p, (frame_iff hr).mp hp⟩
    · exact ⟨[], Or.inl (tableAt_space hr)⟩
  · rintro ⟨p, hp⟩
    have hwalk := (frame_iff hr).mpr hp
    cases p with
    | nil => exact Or.inr ⟨rfl, (Option.some.inj hwalk).symm⟩
    | cons j q => exact Or.inl ⟨j :: q, List.cons_ne_nil j q, hwalk⟩

/-- The state `s` in the life of the space `r` that began in `s₀`. -/
structure Conserved (s₀ : State) (live spaces held held' : Finset Nat) (top : Fin 512 → Nat)
    (r : Nat) (s : State) : Prop where
  owned : Owned s (insert r live) (insert r spaces) held' top
  used : ∀ i, s.pmm.used i = true → s₀.pmm.used i = true ∨
    FrameOf s (insert r live) top r (i * 4096) ∨ i * 4096 ∈ held'
  kept : ∀ i, s₀.pmm.used i = true → s.pmm.used i = true
  new : ∀ f, FrameOf s (insert r live) top r f ∨ f ∈ held' ∧ f ∉ held →
    s₀.pmm.used (f / 4096) = false
  tables : ∀ {b q n}, b ≠ .space r → tableAt s₀ live top b q = some n →
    tableAt s (insert r live) top b q = some n ∧ s.mem n = s₀.mem n
  warnings : s.warnings = s₀.warnings

variable {s₀ s s' : State} {live spaces held held' : Finset Nat} {top : Fin 512 → Nat} {r : Nat}

theorem page_index {f : Nat} (h : f % 4096 = 0) : f / 4096 * 4096 = f := pageMask_of_dvd h

theorem not_used_of_kept {p p₀ : Pmm.State} (h : ∀ i, p₀.used i = true → p.used i = true) {i : Nat}
    (hi : p.used i = false) : p₀.used i = false := by
  by_contra hc
  rw [Bool.not_eq_false] at hc
  rw [h i hc] at hi
  cases hi

/-! ## Steps -/

theorem Conserved.created (h : Owned s₀ live spaces held top) (hc : Created live top r s₀ s) :
    Conserved s₀ live spaces held held top r s := by
  have hpage := page_index hc.free.aligned
  refine ⟨h.created hc, fun i hi => ?_, fun i hi => ?_, fun f hf => ?_, fun {b q n} hb hn => ?_,
    hc.warnings⟩
  · rw [hc.pmm, Pmm.used_take, Bool.or_eq_true, decide_eq_true_eq] at hi
    rcases hi with rfl | hi
    · refine Or.inr (Or.inl ⟨[], Or.inl ?_⟩)
      rw [hpage]
      exact tableAt_space (Finset.mem_insert_self r live)
    · exact Or.inl hi
  · rw [hc.pmm, Pmm.used_take, hi, Bool.or_true]
  · rcases hf with ⟨p, hp | hl⟩ | ⟨hf, hno⟩
    · rcases hc.tables.mp hp with ⟨_, _, rfl⟩ | hold
      · exact hc.free.free
      · obtain ⟨root, hroot, _⟩ := tableAt_root hold
        simp [roots, hc.notMem] at hroot
    · obtain ⟨i, q, rfl, hi⟩ := hl.lower (Finset.mem_insert_self r live)
      obtain ⟨_, e, he, _⟩ := hl
      rw [hc.empty i q hi] at he
      cases he
    · exact absurd hf hno
  · refine ⟨hc.tables.mpr (Or.inr hn), hc.mem n ?_⟩
    rintro rfl
    exact h.fresh _ _ _ hn hc.free

theorem Conserved.alloc {m : Nat} (h : Conserved s₀ live spaces held held' top r s)
    (hm : PmmFree s.pmm m) (hz : Pmm.kernelZone ≤ m) (hinv : Pmm.Inv (s.pmm.take (m / 4096))) :
    Conserved s₀ live spaces held (insert m held') top r
      { s with pmm := s.pmm.take (m / 4096) } := by
  refine ⟨h.owned.alloc hm hz hinv, fun i hi => ?_, fun i hi => ?_, fun f hf => ?_, h.tables,
    h.warnings⟩
  · rw [Pmm.used_take, Bool.or_eq_true, decide_eq_true_eq] at hi
    rcases hi with rfl | hi
    · rw [page_index hm.aligned]
      exact Or.inr (Or.inr (Finset.mem_insert_self m held'))
    · rcases h.used i hi with hu | hframe | hheld
      · exact Or.inl hu
      · exact Or.inr (Or.inl hframe)
      · exact Or.inr (Or.inr (Finset.mem_insert_of_mem hheld))
  · rw [Pmm.used_take, h.kept i hi, Bool.or_true]
  · rcases hf with hframe | ⟨hmem, hno⟩
    · exact h.new f (Or.inl hframe)
    · rcases Finset.mem_insert.mp hmem with rfl | hmem
      · exact not_used_of_kept h.kept hm.free
      · exact h.new f (Or.inr ⟨hmem, hno⟩)

theorem Conserved.grown (h : Conserved s₀ live spaces held held' top r s)
    (hg : Grown (insert r live) top (.space r) s s') :
    Conserved s₀ live spaces held held' top r s' := by
  refine ⟨h.owned.grown hg, fun i hi => ?_, fun i hi => hg.used_mono i (h.kept i hi),
    fun f hf => ?_, fun {b q n} hb hn => ?_, hg.warnings.trans h.warnings⟩
  · rcases hg.used i hi with hu | ⟨p, hp⟩
    · rcases h.used i hu with hu | ⟨p, hp | hl⟩ | hheld
      · exact Or.inl hu
      · exact Or.inr (Or.inl ⟨p, Or.inl (hg.old hp)⟩)
      · exact Or.inr (Or.inl ⟨p, Or.inr (hg.leaf.mpr hl)⟩)
      · exact Or.inr (Or.inr hheld)
    · exact Or.inr (Or.inl ⟨p, Or.inl hp⟩)
  · rcases hf with ⟨p, hp | hl⟩ | hheld
    · rcases hg.new hp with hp | ⟨_, hfree, _⟩
      · exact h.new f (Or.inl ⟨p, Or.inl hp⟩)
      · exact not_used_of_kept h.kept hfree.free
    · exact h.new f (Or.inl ⟨p, Or.inr (hg.leaf.mp hl)⟩)
    · exact h.new f (Or.inr hheld)
  · obtain ⟨hold, hmem⟩ := h.tables hb hn
    exact ⟨hg.old hold, (hg.other hb hold).trans hmem⟩

/-- A frame in hand is mapped at a page that was not mapped. -/
theorem Conserved.written_map {f e : Nat} {p : List (Fin 512)}
    (h : Conserved s₀ live spaces held held' top r s)
    (hw : Written (insert r live) top (.space r) p s s') (hp : p.length = 4) (hf : f ∈ held')
    (hno : f ∉ held) (hold : entryAt s (insert r live) top (.space r) p = none)
    (hentry : entryAt s' (insert r live) top (.space r) p = some (0, e)) (he : pageMask e = f) :
    Conserved s₀ live spaces held (held'.erase f) top r s' := by
  have hr : r ∈ insert r spaces := Finset.mem_insert_self r spaces
  have howned := h.owned.written_map hr hw hf fun e' he' => by
    rw [hentry] at he'
    cases he'
    exact he
  -- no page is lost, because the one that is written was not mapped
  have hleaf : ∀ {q g}, Leaf s (insert r live) top r q g → Leaf s' (insert r live) top r q g := by
    intro q g hl
    refine (hw.leaf ?_).mpr hl
    rintro ⟨_, rfl⟩
    obtain ⟨_, e', he', _⟩ := hl
    rw [hold] at he'
    cases he'
  refine ⟨howned, fun i hi => ?_, fun i hi => ?_, fun g hg => ?_, fun {b q n} hb hn => ?_,
    hw.warnings.trans h.warnings⟩
  · rw [hw.pmm] at hi
    rcases h.used i hi with hu | ⟨q, hq | hl⟩ | hheld
    · exact Or.inl hu
    · exact Or.inr (Or.inl ⟨q, Or.inl (by rw [hw.tables]; exact hq)⟩)
    · exact Or.inr (Or.inl ⟨q, Or.inr (hleaf hl)⟩)
    · by_cases heq : i * 4096 = f
      · exact Or.inr (Or.inl ⟨p, Or.inr ⟨hp, e, hentry, he.trans heq.symm⟩⟩)
      · exact Or.inr (Or.inr (Finset.mem_erase.mpr ⟨heq, hheld⟩))
  · rw [hw.pmm]
    exact h.kept i hi
  · rcases hg with ⟨q, hq | hl⟩ | ⟨hg, hgno⟩
    · rw [hw.tables] at hq
      exact h.new g (Or.inl ⟨q, Or.inl hq⟩)
    · by_cases hqp : q = p
      · obtain ⟨_, e', he', rfl⟩ := hl
        rw [hqp, hentry] at he'
        cases he'
        rw [he]
        exact h.new f (Or.inr ⟨hf, hno⟩)
      · exact h.new g (Or.inl ⟨q, Or.inr ((hw.leaf fun hc => hqp hc.2).mp hl)⟩)
    · exact h.new g (Or.inr ⟨Finset.mem_of_mem_erase hg, hgno⟩)
  · obtain ⟨htable, hmem⟩ := h.tables hb hn
    exact ⟨(hw.tables b q).trans htable, (hw.other hb htable).trans hmem⟩

theorem Conserved.written_unmap {e : Nat} {p : List (Fin 512)}
    (h : Conserved s₀ live spaces held held' top r s)
    (hw : Written (insert r live) top (.space r) p s s') (hp : p.length = 4)
    (hold : entryAt s (insert r live) top (.space r) p = some (0, e))
    (hentry : entryAt s' (insert r live) top (.space r) p = none) :
    Conserved s₀ live spaces held (insert (pageMask e) held') top r s' := by
  have hr : r ∈ insert r spaces := Finset.mem_insert_self r spaces
  have hgone : Leaf s (insert r live) top r p (pageMask e) := ⟨hp, e, hold, rfl⟩
  have hback : ∀ {q g}, Leaf s' (insert r live) top r q g → Leaf s (insert r live) top r q g := by
    intro q g hl
    refine (hw.leaf ?_).mp hl
    rintro ⟨_, rfl⟩
    obtain ⟨_, e', he', _⟩ := hl
    rw [hentry] at he'
    cases he'
  refine ⟨h.owned.written_unmap hr hp hw hold hentry, fun i hi => ?_, fun i hi => ?_,
    fun g hg => ?_, fun {b q n} hb hn => ?_, hw.warnings.trans h.warnings⟩
  · rw [hw.pmm] at hi
    rcases h.used i hi with hu | ⟨q, hq | hl⟩ | hheld
    · exact Or.inl hu
    · exact Or.inr (Or.inl ⟨q, Or.inl (by rw [hw.tables]; exact hq)⟩)
    · by_cases hqp : q = p
      · obtain ⟨_, e', he', hpage⟩ := hl
        rw [hqp, hold] at he'
        cases he'
        rw [← hpage]
        exact Or.inr (Or.inr (Finset.mem_insert_self _ _))
      · exact Or.inr (Or.inl ⟨q, Or.inr ((hw.leaf fun hc => hqp hc.2).mpr hl)⟩)
    · exact Or.inr (Or.inr (Finset.mem_insert_of_mem hheld))
  · rw [hw.pmm]
    exact h.kept i hi
  · rcases hg with ⟨q, hq | hl⟩ | ⟨hg, hgno⟩
    · rw [hw.tables] at hq
      exact h.new g (Or.inl ⟨q, Or.inl hq⟩)
    · exact h.new g (Or.inl ⟨q, Or.inr (hback hl)⟩)
    · rcases Finset.mem_insert.mp hg with rfl | hg
      · exact h.new _ (Or.inl ⟨p, Or.inr hgone⟩)
      · exact h.new g (Or.inr ⟨hg, hgno⟩)
  · obtain ⟨htable, hmem⟩ := h.tables hb hn
    exact ⟨(hw.tables b q).trans htable, (hw.other hb htable).trans hmem⟩

theorem Conserved.free {f : Nat} (h : Conserved s₀ live spaces held held' top r s)
    (hf : f ∈ held') (hno : f ∉ held) :
    Conserved s₀ live spaces held (held'.erase f) top r (freePage s f) := by
  have howned := h.owned.free hf
  have hused := h.owned.held_used f hf
  obtain ⟨_, heq, _⟩ := freeOwned_used h.owned.shape.pmm hused
  rw [heq] at howned ⊢
  refine ⟨howned, fun i hi => ?_, fun i hi => ?_, fun g hg => ?_, h.tables, h.warnings⟩
  · rw [Pmm.used_release, Bool.and_eq_true, decide_eq_true_eq] at hi
    rcases h.used i hi.2 with hu | hframe | hheld
    · exact Or.inl hu
    · exact Or.inr (Or.inl hframe)
    · refine Or.inr (Or.inr (Finset.mem_erase.mpr ⟨fun hc => hi.1 ?_, hheld⟩))
      rw [← hc]
      omega
  · have hne : i ≠ f / 4096 := by
      rintro rfl
      have := h.new f (Or.inr ⟨hf, hno⟩)
      rw [hi] at this
      cases this
    rw [Pmm.used_release, h.kept i hi, Bool.and_true, decide_eq_true_eq]
    exact hne
  · rcases hg with hframe | ⟨hg, hgno⟩
    · exact h.new g (Or.inl hframe)
    · exact h.new g (Or.inr ⟨Finset.mem_of_mem_erase hg, hgno⟩)

/-! ## Runs -/

theorem Conserved.mem_live (h : Conserved s₀ live spaces held held' top r s) : r ∈ insert r live :=
  h.owned.sub (Finset.mem_insert_self r spaces)

theorem Conserved.ne_null (h : Conserved s₀ live spaces held held' top r s) : r ≠ Pmm.physNull :=
  h.owned.ne_null (Finset.mem_insert_self r spaces)

/-- A frame in hand is mapped, or given back when that fails. -/
theorem Conserved.mapPage {va m flags : Nat} (hm : m ∉ held)
    (h : Conserved s₀ live spaces held (insert m held) top r s) (hlow : (pml4Idx va).val < 256)
    (hnone : (Paging.mapPage s va m flags r).1 = true → translate s r va = none)
    (hpres : present flags = true) (hflags : flags < 4096) : Conserved s₀ live spaces held
      (if (Paging.mapPage s va m flags r).1 then held else insert m held) top r
      (Paging.mapPage s va m flags r).2 := by
  have ha : anchorOf r va = .space r := if_pos hlow
  have hlen : (pagePath va).length = 4 := by
    rw [pagePath_length r, ha]
    rfl
  have hheld : m ∈ insert m held := Finset.mem_insert_self m held
  rcases mapPage_cases h.owned.shape h.owned.fresh h.mem_live va m flags with
    ⟨s', heq, hg⟩ | ⟨s', pt, hg, hpt, heq⟩
  · rw [ha] at hg
    rw [heq]
    exact h.grown hg
  · obtain ⟨hw, hentry⟩ := setEntry_written hg.shape hg.fresh hpt (dirPath_length r va) (ptIdx va)
      (pageMask m ||| flags)
    rw [present_or, hpres, Bool.or_true, if_pos rfl] at hentry
    rw [ha] at hg hw hentry
    have hal := (h.owned.held_used m hheld).aligned
    have hmask : pageMask (pageMask m ||| flags) = m := by
      rw [pageMask_of_dvd hal, pageMask_or hal hflags]
    have hold : entryAt s (insert r live) top (.space r) (pagePath va) = none := by
      have htrans := translate_eq h.owned.shape h.mem_live va
      rw [hnone (congrArg Prod.fst heq), ha] at htrans
      exact Option.map_eq_none_iff.mp htrans.symm
    have hmapped := (h.grown hg).written_map hw hlen hheld hm
      ((hg.entries _ _ hlen).trans hold) hentry hmask
    rw [Finset.erase_insert hm] at hmapped
    rw [heq]
    exact hmapped

theorem Conserved.allocAndMap {va flags : Nat} (h : Conserved s₀ live spaces held held top r s)
    (hlow : (pml4Idx va).val < 256)
    (hnone : (allocAndMap (fun s paddr => vmmMapPageInto s va paddr flags r) s).1 = true →
      translate s r va = none)
    (hpres : present flags = true) (hflags : flags < 4096) :
    Conserved s₀ live spaces held held top r
      (allocAndMap (fun s paddr => vmmMapPageInto s va paddr flags r) s).2 := by
  have hmap : (fun s paddr => vmmMapPageInto s va paddr flags r) =
      fun s paddr => Paging.mapPage s va paddr flags r := by
    funext s paddr
    exact if_neg h.ne_null
  rw [hmap] at hnone ⊢
  rcases allocPage_cases h.owned.shape.pmm with ⟨m, hm, hz, hinv, heq⟩ | heq
  · have hno : m ∉ held := fun hmem => (h.owned.held_used m hmem).not_free hm
    have hmapped := @Conserved.mapPage _ _ _ _ _ _ _ va m flags hno (h.alloc hm hz hinv) hlow
    simp only [Paging.allocAndMap, heq, (used_of_take hm hz).ne_null, if_false] at hnone ⊢
    cases hout : Paging.mapPage { s with pmm := s.pmm.take (m / 4096) } va m flags r with
    | mk ok s' =>
      rw [hout] at hmapped hnone
      cases ok with
      | true => exact hmapped (fun _ => hnone rfl) hpres hflags
      | false =>
        have hfreed := (hmapped (fun hc => by cases hc) hpres hflags).free
          (Finset.mem_insert_self m held) hno
        rw [if_neg (by simp), Finset.erase_insert hno] at hfreed
        exact hfreed
  · simp only [Paging.allocAndMap, heq, if_true]
    exact h

theorem Conserved.unmapFrom {va : Nat} (h : Conserved s₀ live spaces held held top r s)
    (hlow : (pml4Idx va).val < 256) :
    Conserved s₀ live spaces held held top r (userExec r s (.unmapFrom va)) := by
  have ha : anchorOf r va = .space r := if_pos hlow
  have hlen : (pagePath va).length = 4 := by
    rw [pagePath_length r, ha]
    rfl
  have htarget : targetPml4 s r = some r := if_pos h.ne_null
  unfold userExec vmmUnmapPageFrom
  rw [htarget]
  rcases unmapPage_cases h.owned.shape h.mem_live va with ⟨heq, _⟩ | ⟨pt, e, hpt, hentry, heq⟩
  · simp only [heq, if_true]
    exact h
  · obtain ⟨hw, hnone⟩ := setEntry_written h.owned.shape h.owned.fresh hpt (dirPath_length r va)
      (ptIdx va) 0
    rw [ha] at hw hnone hentry
    have hleaf : Leaf s (insert r live) top r (pagePath va) (pageMask e) := ⟨hlen, e, hentry, rfl⟩
    have hr := Finset.mem_insert_self r spaces
    have hne := (h.owned.leaf_used hr hleaf).ne_null
    have hno : pageMask e ∉ held := fun hmem => h.owned.held_leaf _ hmem r hr _ hleaf
    have hfreed := (h.written_unmap hw hlen hentry hnone).free (Finset.mem_insert_self _ held) hno
    rw [Finset.erase_insert hno] at hfreed
    simp only [heq, hne, if_false]
    exact hfreed

theorem userExec_conserved {op : UserOp} (h : Conserved s₀ live spaces held held top r s)
    (hop : op.Admissible s r) : Conserved s₀ live spaces held held top r (userExec r s op) := by
  cases op with
  | mapInto va flags => exact h.allocAndMap hop.1 (fun _ => hop.2.1) hop.2.2.1 hop.2.2.2
  | allocInto va flags =>
    have heq : vmmAllocPageInto s va flags r =
        Paging.allocAndMap (fun s paddr => vmmMapPageInto s va paddr flags r) s := by
      unfold vmmAllocPageInto
      simp only [ne_eq, h.ne_null, not_false_eq_true, if_true]
    rw [userExec, heq]
    exact h.allocAndMap hop.1 (fun _ => hop.2.1) hop.2.2.1 hop.2.2.2
  | unmapFrom va => exact h.unmapFrom hop

theorem UserRun.conserved {s₁ : State} (hrun : UserRun r s₁ s)
    (h : Conserved s₀ live spaces held held top r s₁) :
    Conserved s₀ live spaces held held top r s := by
  induction hrun with
  | refl => exact h
  | step _ hop ih => exact userExec_conserved ih hop

/-- The frames of `r` are the ones that were not used when its life began. -/
theorem Conserved.destroyed (h : Conserved s₀ live spaces held held top r s)
    (h₀ : Owned s₀ live spaces held top) (i : Nat) :
    (vmmDestroyAddressSpace s r true).pmm.used i = s₀.pmm.used i := by
  have hr := Finset.mem_insert_self r spaces
  have hd := h.owned.dissolved hr true
  rw [Bool.eq_iff_iff, hd.freed.used, frameOf_iff h.mem_live]
  constructor
  · rintro ⟨hu, hno⟩
    rcases h.used i hu with hu | hframe | hheld
    · exact hu
    · exact absurd hframe hno
    · have hused := (h₀.held_used _ hheld).used
      rwa [Nat.mul_div_cancel i (by decide)] at hused
  · intro hu
    refine ⟨h.kept i hu, fun hframe => ?_⟩
    have hnew := h.new _ (Or.inl hframe)
    rw [Nat.mul_div_cancel i (by decide), hu] at hnew
    cases hnew

/-- Nothing is left of an address space after its life: the used pages are what they were before
the creation, nothing was freed twice, and the kernel's tables are as they were. -/
theorem space_conserved {x : Sys} (hx : Reach Disciplined x) {r : Nat} {s₁ s : State}
    (hcreate : vmmCreateAddressSpace x.vm = (r, s₁)) (hr : r ≠ Pmm.physNull)
    (hrun : UserRun r s₁ s) :
    (∀ i, (vmmDestroyAddressSpace s r true).pmm.used i = x.vm.pmm.used i) ∧
    (vmmDestroyAddressSpace s r true).warnings = x.vm.warnings ∧
    (∀ r' ∈ x.live, ∀ i : Fin 512, 256 ≤ i.val →
      (vmmDestroyAddressSpace s r true).mem r' i = x.vm.mem r' i) ∧
    ∀ i q n, tableAt x.vm x.live x.top (.kernel i) q = some n →
      (vmmDestroyAddressSpace s r true).mem n = x.vm.mem n := by
  obtain ⟨top, hs⟩ := reach_sound hx
  rcases createSpace_cases hs.ok.shape hs.owned.fresh with heq | ⟨m, s', heq, hc⟩
  · rw [hcreate] at heq
    exact absurd (congrArg Prod.fst heq) hr
  rw [hcreate] at heq
  obtain ⟨rfl, rfl⟩ := Prod.mk.inj heq
  have h := hrun.conserved (Conserved.created hs.owned hc)
  have hd := h.owned.dissolved (Finset.mem_insert_self r x.spaces) true
  have htables : ∀ {b q n}, b ≠ .space r → tableAt x.vm x.live top b q = some n →
      (vmmDestroyAddressSpace s r true).mem n = x.vm.mem n := by
    intro b q n hb hn
    obtain ⟨hold, hmem⟩ := h.tables hb hn
    exact (hd.destroyed.other hb hold).trans hmem
  refine ⟨h.destroyed hs.owned, hd.freed.warnings.trans h.warnings, fun r' hr' i _ => ?_,
    fun i q n hn => ?_⟩
  · refine congrFun (htables (b := .space r') ?_ (tableAt_space hr')) i
    intro hc'
    cases hc'
    exact hc.notMem hr'
  · unfold tableAt at hn
    rw [Sys.top, hs.ok.shape.roots_top] at hn
    exact htables (by simp) hn

/-- The first page of a program. -/
def programPage : Nat := 0x400000

theorem smallSys_programPage : translate (vmmCreateAddressSpace smallSys.vm).2
    (vmmCreateAddressSpace smallSys.vm).1 programPage = none := by
  have hne : (vmmCreateAddressSpace smallSys.vm).1 ≠ Pmm.physNull := by decide
  exact ((create_map smallSys_ok smallSys_fresh).2 hne programPage).trans (if_neg (by decide))

theorem smallSys_admissible : (UserOp.mapInto programPage 7).Admissible
    (vmmCreateAddressSpace smallSys.vm).2 (vmmCreateAddressSpace smallSys.vm).1 :=
  ⟨by decide, smallSys_programPage, by decide, by decide⟩

/-- An address space of the small machine with one page. -/
theorem space_conserved_smallSys : (vmmCreateAddressSpace smallSys.vm).1 ≠ Pmm.physNull ∧
    ∀ i, (vmmDestroyAddressSpace (userExec (vmmCreateAddressSpace smallSys.vm).1
      (vmmCreateAddressSpace smallSys.vm).2 (.mapInto programPage 7))
      (vmmCreateAddressSpace smallSys.vm).1 true).pmm.used i = smallSys.vm.pmm.used i := by
  have hne : (vmmCreateAddressSpace smallSys.vm).1 ≠ Pmm.physNull := by decide
  have hpair := (Prod.mk.eta (p := vmmCreateAddressSpace smallSys.vm)).symm
  exact ⟨hne, (space_conserved (smallSys_reach _) hpair hne
    (UserRun.step UserRun.refl smallSys_admissible)).1⟩

end Kyuzen.Paging
