import Kyuzen.Loader.Premapped
import Kyuzen.Paging.Leak

/-!
# Entries that a load replaces

Three loops map pages: that of ELF64 segments leaves mapped pages alone, that of ELF32 segments and
that of the stack do not look. A page that is mapped twice loses its first frame: all frames are
back when the address space is destroyed exactly if the load has replaced no entry
(`frames_back_iff`).
-/

namespace Kyuzen.Loader

open Lib Lib.Memory
open Elf (File Phdr)
open Proc (Ready)
open Paging (State Store lowerEnd translate allocPage freePage vmmMapPageInto vmmAllocPageInto
  pagingIsMappedInto vmmCreateAddressSpace vmmDestroyAddressSpace takePage Accounted Stays)

/-! ## Entries -/

/-- The pages that the loop for ELF64 maps, each with the memory before. -/
def installs64 (target segEnd : Nat) : Nat → Nat → State → List (State × Nat)
  | 0, _, _ => []
  | fuel + 1, page, vm =>
    if page < segEnd then
      if pagingIsMappedInto vm page target then
        installs64 target segEnd fuel ((page + 4096) % 2 ^ 64) vm
      else
        let out := vmmAllocPageInto vm page 7 target
        if out.1 then (vm, page) :: installs64 target segEnd fuel ((page + 4096) % 2 ^ 64) out.2
        else []
    else []

/-- Those of the loop for ELF32. -/
def installs32 (target segEnd : Nat) : Nat → Nat → State → List (State × Nat)
  | 0, _, _ => []
  | fuel + 1, block, vm =>
    if block < segEnd then
      let out := vmmAllocPageInto vm block 7 target
      if out.1 then (vm, block) :: installs32 target segEnd fuel ((block + 0x400000) % 2 ^ 32) out.2
      else []
    else []

def premapInstalls (f : File) (target fuel : Nat) (ph : Phdr) (vm : State) : List (State × Nat) :=
  if f.elfClass = 2 then
    installs64 target (ph.pVaddr + ph.pMemsz) fuel (ph.pVaddr / 4096 * 4096) vm
  else
    installs32 target ((ph.pVaddr + ph.pMemsz) % 2 ^ 32) fuel
      (ph.pVaddr / 0x400000 * 0x400000) vm

/-- The pages of the stack that are mapped. -/
def stackInstalls (target : Nat) : List Nat → State → List (State × Nat)
  | [], _ => []
  | page :: rest, vm =>
    let m := allocPage vm
    if m.1 = Pmm.physNull then []
    else
      let out := vmmMapPageInto m.2 page m.1 7 target
      if out.1 then (vm, page) :: stackInstalls target rest out.2 else []

/-- The entries of these pages were not present. -/
def New (target : Nat) (l : List (State × Nat)) : Prop :=
  ∀ w ∈ l, translate w.1 target w.2 = none

/-- A load replaces no entry. -/
structure NothingReplaced (f : File) (wantStack : Bool) (target fuel : Nat) (st : Store) :
    Prop where
  premaps : ∀ q ∈ reached (segmentStep f target fuel) (table f) st, f.accepts q.1 = true →
    New target (premapInstalls f target fuel q.1 q.2.vm)
  stack : ∀ st', segments (segmentStep f target fuel) (table f) st = (.done, st') →
    stackOf f wantStack = true → New target (stackInstalls target Elf.stackPages st'.vm)

/-! ## Runs of mapping calls -/

/-- Calls that map new frames, and the pages that were mapped by them. -/
inductive Takes (r : Nat) : State → List (State × Nat) → State → Prop
  | refl (vm : State) : Takes r vm [] vm
  | fail {vm vm' : State} {l : List (State × Nat)} {va : Nat} (hva : va < lowerEnd)
      (hfail : (takePage r va vm).1 = false) (h : Takes r (takePage r va vm).2 l vm') :
      Takes r vm l vm'
  | page {vm vm' : State} {l : List (State × Nat)} {va : Nat} (hva : va < lowerEnd)
      (hok : (takePage r va vm).1 = true) (h : Takes r (takePage r va vm).2 l vm') :
      Takes r vm ((vm, va) :: l) vm'

variable {f : File} {ph : Phdr} {vm₀ vm vm' : State} {spaces : Finset Nat} {r fuel i : Nat}
  {st : Store} {l l' : List (State × Nat)} {wantStack : Bool}

theorem Takes.trans {vm'' : State} (h : Takes r vm l vm') (h' : Takes r vm' l' vm'') :
    Takes r vm (l ++ l') vm'' := by
  induction h with
  | refl vm => exact h'
  | fail hva hfail _ ih => exact .fail hva hfail (ih h')
  | page hva hok _ ih => exact .page hva hok (ih h')

theorem new_append : New r (l ++ l') ↔ New r l ∧ New r l' := by
  unfold New
  simp only [List.mem_append, or_imp, forall_and]

theorem new_cons {w : State × Nat} :
    New r (w :: l) ↔ translate w.1 r w.2 = none ∧ New r l := by
  unfold New
  simp only [List.mem_cons, forall_eq_or_imp]

theorem new_nil : New r [] := fun _ hw => absurd hw List.not_mem_nil

theorem takePage_ready (h : Ready vm spaces) (hr : r ∈ spaces) (va : Nat) :
    Ready (Paging.takePage r va vm).2 spaces := by
  rw [← Paging.allocInto_eq (h.ne_null hr)]
  exact h.allocInto hr va

theorem stays_takePage (h : Ready vm spaces) (hr : r ∈ spaces) {va : Nat}
    (hva : va < lowerEnd) (hi : Stays r i vm) : Stays r i (Paging.takePage r va vm).2 := by
  have heq := Paging.allocInto_eq (h.ne_null hr) va vm
  have hmono : ∀ i, vm.pmm.used i = true → (Paging.takePage r va vm).2.pmm.used i = true := by
    intro i hi
    rw [← heq]
    rcases h.allocInto_cases hr hva with ⟨-, pa, vm₁, ht, hm⟩ | ⟨-, hk⟩
    · exact hm.mono i (ht.mono i hi)
    · exact hk.mono i hi
  obtain ⟨x', top', -, heq', hspaces, hs'⟩ := (takePage_ready h hr va).sound
  obtain ⟨x, top, -, rfl, rfl, hs⟩ := h.sound
  have howned := hs'.owned
  rw [heq', hspaces] at howned
  exact Paging.takePage_stays hs.owned howned hr (Paging.pml4Idx_lower hva) hmono hi

theorem Takes.stays (h : Takes r vm l vm') (hready : Ready vm spaces) (hr : r ∈ spaces)
    (hi : Stays r i vm) : Stays r i vm' := by
  induction h with
  | refl vm => exact hi
  | fail hva _ _ ih => exact ih (takePage_ready hready hr _) (stays_takePage hready hr hva hi)
  | page hva _ _ ih => exact ih (takePage_ready hready hr _) (stays_takePage hready hr hva hi)

/-- While only new pages are mapped, nothing is lost. -/
theorem Takes.accounted (h : Takes r vm l vm') (hacc : Accounted vm₀ spaces r vm)
    (hnew : New r l) : Accounted vm₀ spaces r vm' := by
  induction h with
  | refl vm => exact hacc
  | fail hva hfail _ ih =>
    refine ih (hacc.takePage (Paging.pml4Idx_lower hva) fun hc => ?_) hnew
    rw [hfail] at hc
    cases hc
  | page hva _ _ ih =>
    obtain ⟨hnone, hrest⟩ := new_cons.mp hnew
    exact ih (hacc.takePage (Paging.pml4Idx_lower hva) fun _ => hnone) hrest

/-- The first page that is mapped again loses a frame. -/
theorem Takes.leaks {spaces' : Finset Nat} (h : Takes r vm l vm') (hready : Ready vm spaces')
    (hr : r ∈ spaces') (hacc : Accounted vm₀ spaces r vm) (hnew : ¬New r l) :
    ∃ i, vm₀.pmm.used i = false ∧ Stays r i vm' := by
  induction h with
  | refl vm => exact absurd new_nil hnew
  | fail hva hfail _ ih =>
    refine ih (takePage_ready hready hr _) (hacc.takePage (Paging.pml4Idx_lower hva) fun hc => ?_)
      hnew
    rw [hfail] at hc
    cases hc
  | @page vm vm' l va hva hok hrest ih =>
    have hready' := takePage_ready hready hr va
    by_cases hnone : translate vm r va = none
    · refine ih hready' (hacc.takePage (Paging.pml4Idx_lower hva) fun _ => hnone) fun hc => ?_
      exact hnew (new_cons.mpr ⟨hnone, hc⟩)
    · obtain ⟨i, hfree, hstays⟩ := hacc.leaks (Paging.pml4Idx_lower hva) hok hnone
      exact ⟨i, hfree, hrest.stays hready' hr hstays⟩

theorem Takes.back_iff {spaces' : Finset Nat} (h : Takes r vm l vm') (hready : Ready vm spaces')
    (hr : r ∈ spaces') (hacc : Accounted vm₀ spaces r vm) :
    (∀ i, (vmmDestroyAddressSpace vm' r true).pmm.used i = vm₀.pmm.used i) ↔ New r l := by
  constructor
  · intro hback
    by_contra hnew
    obtain ⟨i, hfree, hstays⟩ := h.leaks hready hr hacc hnew
    have hused : (vmmDestroyAddressSpace vm' r true).pmm.used i = true := hstays
    rw [hback, hfree] at hused
    cases hused
  · intro hnew
    exact (h.accounted hacc hnew).back

/-! ## Loops -/

theorem premap64_takes {segEnd : Nat} (hr : r ≠ Pmm.physNull) : ∀ {fuel page : Nat} {l : Elf.Load},
    page % 4096 = 0 → (∀ p, p % 4096 = 0 → page ≤ p → p < segEnd → p < lowerEnd) →
      Takes r l.vm (installs64 r segEnd fuel page l.vm)
        (Elf.premap64 r segEnd fuel page l).2.vm := by
  have hend : lowerEnd = 140737488355328 := rfl
  intro fuel
  induction fuel with
  | zero => exact fun _ _ => .refl _
  | succ fuel ih =>
    intro page l halign hpages
    rw [Elf.premap64, installs64]
    by_cases hpage : page < segEnd
    · have hlow := hpages page halign (le_refl page) hpage
      have hnext : (page + 4096) % 2 ^ 64 = page + 4096 := Nat.mod_eq_of_lt (by omega)
      have hrest : ∀ p, p % 4096 = 0 → page + 4096 ≤ p → p < segEnd → p < lowerEnd :=
        fun p hp hle => hpages p hp (by omega)
      rw [if_pos hpage, if_pos hpage, hnext, Paging.allocInto_eq hr]
      by_cases hmapped : pagingIsMappedInto l.vm page r = true
      · rw [if_pos hmapped, if_pos hmapped]
        exact ih (by omega) hrest
      · rw [if_neg hmapped, if_neg hmapped]
        dsimp only
        split_ifs with hok
        · exact .page hlow hok (ih (l := ⟨(takePage r page l.vm).2, _⟩) (by omega) hrest)
        · exact .fail hlow (Bool.not_eq_true _ ▸ hok) (.refl _)
    · rw [if_neg hpage, if_neg hpage]
      exact .refl _

theorem premap32_takes {segEnd : Nat} (hr : r ≠ Pmm.physNull) :
    ∀ {fuel block : Nat} {l : Elf.Load}, block < lowerEnd →
      Takes r l.vm (installs32 r segEnd fuel block l.vm)
        (Elf.premap32 r segEnd fuel block l).2.vm := by
  have hend : lowerEnd = 140737488355328 := rfl
  intro fuel
  induction fuel with
  | zero => exact fun _ => .refl _
  | succ fuel ih =>
    intro block l hlow
    rw [Elf.premap32, installs32]
    by_cases hblock : block < segEnd
    · have hnext : (block + 0x400000) % 2 ^ 32 < lowerEnd := by omega
      rw [if_pos hblock, if_pos hblock, Paging.allocInto_eq hr]
      dsimp only
      split_ifs with hok
      · exact .page hlow hok (ih (l := ⟨(takePage r block l.vm).2, _⟩) hnext)
      · exact .fail hlow (Bool.not_eq_true _ ▸ hok) (.refl _)
    · rw [if_neg hblock, if_neg hblock]
      exact .refl _

theorem mapStack_takes (r : Nat) : ∀ (pages : List Nat) (st : Store), (∀ p ∈ pages, p < lowerEnd) →
    Takes r st.vm (stackInstalls r pages st.vm) (mapStack r pages st).2.vm := by
  intro pages
  induction pages with
  | nil => exact fun _ _ => .refl _
  | cons page rest ih =>
    intro st hpages
    have hlow := hpages page List.mem_cons_self
    have hrest := fun p hp => hpages p (List.mem_cons_of_mem page hp)
    have htake := Paging.takePage_split r page st.vm
    rw [mapStack, stackInstalls]
    dsimp only
    by_cases hnull : (allocPage st.vm).1 = Pmm.physNull
    · rw [if_pos hnull] at htake
      rw [if_pos hnull, if_pos hnull]
      have hfail := Takes.fail hlow (congrArg Prod.fst htake) (.refl _)
      rw [htake] at hfail
      exact hfail
    · rw [if_neg hnull] at htake
      rw [if_neg hnull, if_neg hnull]
      revert htake
      generalize vmmMapPageInto (allocPage st.vm).2 page (allocPage st.vm).1 7 r = out
      obtain ⟨ok, vm'⟩ := out
      intro htake
      cases ok with
      | false =>
        have hfail := Takes.fail hlow (congrArg Prod.fst htake) (.refl _)
        rw [htake] at hfail
        exact hfail
      | true =>
        apply Takes.page hlow (congrArg Prod.fst htake)
        rw [htake]
        exact ih ⟨vm', _⟩ hrest

/-! ## Segments -/

/-- What the loader relies on in a program header. -/
def Placed (f : File) (ph : Phdr) : Prop :=
  if f.elfClass = 2 then f.accepts ph = true → InLowerHalf ph else Fields32 ph

theorem segmentStep_rejected (h : Placed f ph) (hacc : ¬f.accepts ph = true) :
    segmentStep f r fuel ph st = (.failed, st) := by
  unfold Placed at h
  unfold segmentStep
  split_ifs at h ⊢ with hclass
  · unfold File.accepts at hacc
    rw [Bool.and_eq_true, decide_eq_true_eq, not_and_or] at hacc
    unfold segment64
    split_ifs with hwrap hholds
    · rfl
    · rfl
    · rw [Bool.not_eq_true, Bool.not_eq_false'] at hholds
      rcases hacc with hc | hc
      · exact absurd hwrap (by omega)
      · exact absurd hholds hc
  · rw [accepts32 h, Bool.not_eq_true] at hacc
    unfold segment32
    rw [hacc]
    rfl

theorem segmentStep_takes (h : Placed f ph) (hacc : f.accepts ph = true) (hr : r ≠ Pmm.physNull) :
    Takes r st.vm (premapInstalls f r fuel ph st.vm) (segmentStep f r fuel ph st).2.vm := by
  have hend : lowerEnd = 140737488355328 := rfl
  unfold Placed at h
  unfold segmentStep premapInstalls
  split_ifs at h ⊢ with hclass
  · have hin := h hacc
    rw [segment64_of_accepts hacc, copyMapped_vm]
    exact premap64_takes (l := ⟨st.vm, []⟩) hr (Nat.mul_mod_left _ _)
      fun p hp hlo hhi => hin.pages p ⟨hp, hlo, hhi⟩
  · have hv := h.pVaddr
    rw [segment32_of_holds (accepts_holds hacc), copyMapped_vm]
    exact premap32_takes (l := ⟨st.vm, []⟩) hr (by omega)

theorem segments_takes (hr : r ≠ Pmm.physNull) (fuel : Nat) : ∀ (phs : List Phdr) (st : Store),
    (f.elfClass ≠ 2 → ∀ ph ∈ phs, Fields32 ph) →
    (f.elfClass = 2 → ∀ ph ∈ f.accepted phs, InLowerHalf ph) →
    ∃ l, Takes r st.vm l (segments (segmentStep f r fuel) phs st).2.vm ∧
      (New r l ↔ ∀ q ∈ reached (segmentStep f r fuel) phs st, f.accepts q.1 = true →
        New r (premapInstalls f r fuel q.1 q.2.vm)) := by
  intro phs
  induction phs with
  | nil =>
    intro st _ _
    exact ⟨[], .refl _, fun _ q hq => absurd hq List.not_mem_nil, fun _ => new_nil⟩
  | cons ph rest ih =>
    intro st hfields hlow
    have hfields' := fun hclass q hq => hfields hclass q (List.mem_cons_of_mem ph hq)
    rw [File.accepted] at hlow
    rw [reached, segments]
    by_cases htype : ph.pType = 1
    swap
    · rw [if_pos htype] at hlow
      rw [if_pos htype, if_pos htype]
      exact ih st hfields' hlow
    rw [if_neg (not_not.mpr htype)] at hlow
    rw [if_neg (not_not.mpr htype), if_neg (not_not.mpr htype)]
    by_cases hacc : f.accepts ph = true
    swap
    · have hplaced : Placed f ph := by
        unfold Placed
        split_ifs with hclass
        · exact fun hc => absurd hc hacc
        · exact hfields hclass ph List.mem_cons_self
      rw [segmentStep_rejected hplaced hacc]
      refine ⟨[], .refl _, ?_, fun _ => new_nil⟩
      intro _ q hq hc
      rw [List.mem_singleton.mp hq] at hc
      exact absurd hc hacc
    rw [if_pos hacc] at hlow
    have hplaced : Placed f ph := by
      unfold Placed
      split_ifs with hclass
      · exact fun _ => hlow hclass ph List.mem_cons_self
      · exact hfields hclass ph List.mem_cons_self
    have htakes : Takes r st.vm (premapInstalls f r fuel ph st.vm)
        (segmentStep f r fuel ph st).2.vm := segmentStep_takes hplaced hacc hr
    have hfirst : New r (premapInstalls f r fuel ph st.vm) ↔ ∀ q ∈ [(ph, st)],
        f.accepts q.1 = true → New r (premapInstalls f r fuel q.1 q.2.vm) := by
      simp [hacc]
    revert htakes
    generalize segmentStep f r fuel ph st = out
    obtain ⟨o, st'⟩ := out
    intro htakes
    cases o with
    | spinning => exact ⟨_, htakes, hfirst⟩
    | failed => exact ⟨_, htakes, hfirst⟩
    | faulted => exact ⟨_, htakes, hfirst⟩
    | done =>
      have hlow' := fun hclass q hq => hlow hclass q (List.mem_cons_of_mem ph hq)
      obtain ⟨l, hrest, hnew⟩ := ih st' hfields' hlow'
      refine ⟨_, htakes.trans hrest, ?_⟩
      rw [new_append, hnew]
      simp [hacc]

/-! ## Loads -/

/-- A load that does not get past the header leaves the memory alone. -/
theorem elfLoadFile_rejected {heap : Bool} {target : Nat} (h : ¬(heap = true ∧ Valid f)) :
    (elfLoadFile fuel f heap wantStack target st).store = st := by
  unfold elfLoadFile
  dsimp only
  split_ifs with hsize hheap hmagic hclass htarget hfits hclass htarget hfits
  all_goals try rfl
  · simp only [Bool.not_eq_true, Bool.not_eq_false'] at hheap hmagic hfits
    exact absurd ⟨hheap, hsize, hmagic, Or.inl ⟨hclass, hfits⟩⟩ h
  · simp only [Bool.not_eq_true, Bool.not_eq_false'] at hheap hmagic hfits
    exact absurd ⟨hheap, hsize, hmagic, Or.inr ⟨hclass, hfits⟩⟩ h

theorem segmentStep64 (hclass : f.elfClass = 2) : segmentStep f r fuel = segment64 f r fuel := by
  ext1 ph
  ext1 st
  exact if_pos hclass

theorem segmentStep32 (hclass : f.elfClass = 1) : segmentStep f r fuel = segment32 f r fuel := by
  ext1 ph
  ext1 st
  exact if_neg (by omega)

/-- The memory after a load: the segments have been loaded and then, when that was done, the stack
of a 64-bit program. -/
theorem elfLoadFile_vm (hvalid : Valid f) (hr : r ≠ Pmm.physNull) (wantStack : Bool) (fuel : Nat)
    {o : Outcome} {st st' : Store}
    (hseg : segments (segmentStep f r fuel) (table f) st = (o, st')) :
    (elfLoadFile fuel f true wantStack r st).store.vm =
      if o = .done ∧ stackOf f wantStack = true then (mapStack r Elf.stackPages st').2.vm
      else st'.vm := by
  rcases hvalid.class with hclass | hclass
  · have hwant : stackOf f wantStack = wantStack := by
      rw [stackOf, decide_eq_true hclass, Bool.true_and]
    rw [segmentStep64 hclass, table64 hclass] at hseg
    rw [elfLoadFile_class64 hvalid hclass hr, segments64, hseg, hwant]
    cases o with
    | spinning => rfl
    | failed => rfl
    | faulted => rfl
    | done =>
      cases wantStack with
      | false => rfl
      | true =>
        rw [finish64]
        cases mapStack r Elf.stackPages st' with
        | mk ok st'' =>
          cases ok with
          | false => rfl
          | true => rfl
  · have hwant : ¬(o = .done ∧ stackOf f wantStack = true) := by
      rw [stackOf, decide_eq_false (by omega), Bool.false_and]
      simp
    rw [segmentStep32 hclass, table32 hclass] at hseg
    rw [elfLoadFile_class32 hvalid hclass hr, segments32, hseg, if_neg hwant]
    cases o with
    | spinning => rfl
    | failed => rfl
    | faulted => rfl
    | done => rfl

/-- What a load maps, in the order in which it does. -/
theorem elfLoadFile_takes (hvalid : Valid f) (hlow : LowerHalf f) (hr : r ≠ Pmm.physNull)
    (wantStack : Bool) (fuel : Nat) (st : Store) :
    ∃ l, Takes r st.vm l (elfLoadFile fuel f true wantStack r st).store.vm ∧
      (New r l ↔ NothingReplaced f wantStack r fuel st) := by
  have hend : lowerEnd = 140737488355328 := rfl
  have htop : Elf.userStackTop = 201326592 := rfl
  obtain ⟨l, htakes, hnew⟩ := segments_takes (f := f) hr fuel (table f) st
    (by
      intro hclass ph hph
      rw [table32 (hvalid.class.resolve_left hclass)] at hph
      exact fields32 f hph)
    (by
      intro hclass
      rw [table64 hclass]
      exact hlow (hvalid.elf64 hclass))
  cases hseg : segments (segmentStep f r fuel) (table f) st with
  | mk o st' =>
    rw [hseg] at htakes
    rw [elfLoadFile_vm hvalid hr wantStack fuel hseg]
    by_cases hstack : o = .done ∧ stackOf f wantStack = true
    · rw [if_pos hstack]
      obtain ⟨rfl, hwant⟩ := hstack
      have hpages : ∀ p ∈ Elf.stackPages, p < lowerEnd := by
        intro p hp
        rw [mem_stackPages] at hp
        omega
      refine ⟨_, htakes.trans (mapStack_takes r Elf.stackPages st' hpages), ?_⟩
      rw [new_append, hnew]
      constructor
      · rintro ⟨hpremaps, hnone⟩
        refine ⟨hpremaps, fun st'' heq _ => ?_⟩
        rw [hseg] at heq
        cases heq
        exact hnone
      · exact fun h => ⟨h.premaps, h.stack st' hseg hwant⟩
    · -- no stack is mapped
      rw [if_neg hstack]
      refine ⟨l, htakes, fun h => ⟨hnew.mp h, fun st'' heq hwant => ?_⟩,
        fun h => hnew.mpr h.premaps⟩
      rw [hseg] at heq
      cases heq
      exact absurd ⟨rfl, hwant⟩ hstack

/-- All frames belong to a space that has just been created. -/
theorem accounted_created (h : Ready vm₀ spaces) (heq : vmmCreateAddressSpace vm₀ = (r, vm))
    (hr : r ≠ Pmm.physNull) : Accounted vm₀ spaces r vm := by
  obtain ⟨x, top, -, rfl, rfl, hs⟩ := h.sound
  rcases Paging.createSpace_cases hs.ok.shape hs.owned.fresh with hfail | ⟨m, vm', hok, hc⟩
  · rw [heq] at hfail
    exact absurd (congrArg Prod.fst hfail) hr
  · rw [heq] at hok
    cases hok
    exact ⟨x.live, x.held, top, hs.owned, .created hs.owned hc⟩

/-- The frames of a load are back exactly if it has replaced no entry. -/
theorem frames_back_iff {bytes : Mem} {heap : Bool} (h : Ready vm₀ spaces)
    (heq : vmmCreateAddressSpace vm₀ = (r, vm)) (hr : r ≠ Pmm.physNull) (hlow : LowerHalf f) :
    (∀ i, (vmmDestroyAddressSpace (elfLoadFile fuel f heap wantStack r ⟨vm, bytes⟩).store.vm r
      true).pmm.used i = vm₀.pmm.used i) ↔
      (heap = true → Valid f → NothingReplaced f wantStack r fuel ⟨vm, bytes⟩) := by
  obtain ⟨hfresh, -⟩ := freshSpace h heq hr
  have hacc := accounted_created h heq hr
  by_cases hvalid : heap = true ∧ Valid f
  · obtain ⟨rfl, hvalid⟩ := hvalid
    obtain ⟨l, htakes, hnew⟩ := elfLoadFile_takes hvalid hlow hr wantStack fuel ⟨vm, bytes⟩
    rw [htakes.back_iff hfresh.ready hfresh.mem hacc, hnew]
    exact ⟨fun h _ _ => h, fun h => h rfl hvalid⟩
  · rw [elfLoadFile_rejected hvalid]
    exact ⟨fun _ hheap hc => absurd ⟨hheap, hc⟩ hvalid, fun _ => hacc.back⟩

end Kyuzen.Loader
