import Kyuzen.Loader.Leaks

/-!
# The frames of a load

Which files make a load replace entries: an ELF64 file whose segments meet the stack, and an ELF32
file whose segments meet each other, or reach the last block, where the loop does not end.
`FramesKept` says that no entry is replaced, and that all frames are back when the address space is
destroyed, whether the load succeeded or not. This is so exactly if the loops of the file meet no
page twice (`framesKept_iff`).
-/

namespace Kyuzen.Loader

open Lib Lib.Memory
open Elf (File Phdr userStackSize userStackTop)
open Proc (Ready Taken MapsPage)
open Paging (State Store lowerEnd translate allocPage vmmMapPageInto vmmAllocPageInto
  vmmCreateAddressSpace vmmDestroyAddressSpace)

/-! ## Files -/

/-- No load of this file into a fresh address space replaces an entry, or loses a frame. -/
def FramesKept (f : File) (wantStack : Bool) : Prop :=
  ∀ vm₀ spaces r vm, Ready vm₀ spaces → vmmCreateAddressSpace vm₀ = (r, vm) →
    r ≠ Pmm.physNull → ∀ bytes fuel,
      (Valid f → NothingReplaced f wantStack r fuel ⟨vm, bytes⟩) ∧
      ∀ heap e, (elfLoadFile fuel f heap wantStack r ⟨vm, bytes⟩).entry = some e → ∀ i,
        (vmmDestroyAddressSpace (elfLoadFile fuel f heap wantStack r ⟨vm, bytes⟩).store.vm r
          true).pmm.used i = vm₀.pmm.used i

/-! ## Files -/

/-- Each segment that the loader gets to meets new pages only, and its loop ends. -/
def Apart (f : File) (L : Premap) : (Nat → Prop) → List Phdr → Prop
  | _, [] => True
  | mapped, ph :: rest => f.accepts ph = true →
    Ends f ph ∧ (∀ x, L.visits ph x = true → ¬mapped x) ∧
      ((∀ x, (byteAt f ph x).isSome = true → mapped x ∨ L.visits ph x = true) →
        Apart f L (fun x => mapped x ∨ L.visits ph x = true) rest)

/-- The loops of the file meet no page twice. -/
structure MeetsOnce (f : File) (wantStack : Bool) : Prop where
  blocks : Valid f → f.elfClass = 1 → Apart f elf32 (fun _ => False) (headers f)
  stack : Loadable f → stackOf f wantStack = true → ∀ ph ∈ headers f, ∀ a, InStack a →
    elf64.visits ph a = false

variable {f : File} {ph : Phdr} {vm vm₁ : State} {spaces S : Finset Nat} {r k fuel x : Nat}
  {st₀ st : Store} {im : Image} {wantStack : Bool}

/-! ## Loops that meet new pages -/

/-- The loop for ELF64 maps new pages only. -/
theorem premap64_new {segEnd : Nat} (hr : r ∈ spaces) : ∀ {fuel page : Nat} {vm : State},
    Ready vm spaces → New r (installs64 r segEnd fuel page vm) := by
  intro fuel
  induction fuel with
  | zero => exact fun _ => new_nil
  | succ fuel ih =>
    intro page vm h
    rw [installs64, isMapped_iff h hr]
    dsimp only
    split_ifs with hpage hmapped hok
    · exact ih h
    · have hnone := Option.not_isSome_iff_eq_none.mp hmapped
      exact new_cons.mpr ⟨hnone, ih (h.allocInto hr page)⟩
    · exact new_nil
    · exact new_nil

/-- So does the loop for ELF32, if its blocks are new. -/
theorem premap32_new {segEnd : Nat} (hr : r ∈ spaces) (hend : segEnd ≤ lastBlock) :
    ∀ {fuel block : Nat} {vm : State}, Ready vm spaces → block % 0x400000 = 0 →
      (∀ p, p % 0x400000 = 0 → block ≤ p → p < segEnd → translate vm r p = none) →
      New r (installs32 r segEnd fuel block vm) := by
  have hlast : lastBlock = 4290772992 := rfl
  have hlower : lowerEnd = 140737488355328 := rfl
  intro fuel
  induction fuel with
  | zero => exact fun _ _ _ => new_nil
  | succ fuel ih =>
    intro block vm h halign hnew
    rw [installs32]
    by_cases hblock : block < segEnd
    swap
    · rw [if_neg hblock]
      exact new_nil
    have hlow : block < lowerEnd := by omega
    have hnext : (block + 0x400000) % 2 ^ 32 = block + 0x400000 := Nat.mod_eq_of_lt (by omega)
    rw [if_pos hblock, hnext]
    dsimp only
    rcases h.allocInto_cases hr hlow with ⟨hok, pa, vm₁, ht, hm⟩ | ⟨hok, -⟩
    · rw [if_pos hok]
      refine new_cons.mpr ⟨hnew block halign (le_refl block) hblock, ?_⟩
      apply ih (h.allocInto hr block) (by omega)
      intro p hp hlo hhi
      rw [hm.page p (by omega), if_neg (by omega), Paging.translate_congr ht.mem]
      exact hnew p hp (by omega) hhi
    · rw [hok]
      exact new_nil

theorem stackInstalls_new (hr : r ∈ spaces) : ∀ {pages : List Nat} {vm : State}, Ready vm spaces →
    pages.Nodup → (∀ p ∈ pages, p % 4096 = 0 ∧ p < lowerEnd) →
      (∀ p ∈ pages, translate vm r p = none) → New r (stackInstalls r pages vm) := by
  intro pages
  induction pages with
  | nil => exact fun _ _ _ _ => new_nil
  | cons page rest ih =>
    intro vm h hnodup hpages hnone
    obtain ⟨hnotMem, hnodup'⟩ := List.nodup_cons.mp hnodup
    obtain ⟨halign, hlow⟩ := hpages page List.mem_cons_self
    obtain ⟨hready₁, hrest⟩ := h.allocMap hr page
    rw [stackInstalls]
    dsimp only at hrest ⊢
    rcases h.alloc with ht | hfail
    · have hnull := ht.ne_null
      obtain ⟨hready₂, -⟩ := hrest hnull
      rw [if_neg hnull]
      rcases hready₁.map hr hlow (allocPage vm).1 with ⟨hok, hm⟩ | ⟨hok, -⟩
      · rw [if_pos hok]
        refine new_cons.mpr ⟨hnone page List.mem_cons_self, ?_⟩
        apply ih hready₂ hnodup' fun p hp => hpages p (List.mem_cons_of_mem page hp)
        intro p hp
        obtain ⟨halign', hlow'⟩ := hpages p (List.mem_cons_of_mem page hp)
        have hne : page / 4096 ≠ p / 4096 := by
          intro hc
          have heq : page = p := by omega
          rw [heq] at hnotMem
          exact hnotMem hp
        rw [hm.page p hlow', if_neg hne, Paging.translate_congr ht.mem]
        exact hnone p (List.mem_cons_of_mem page hp)
      · rw [hok]
        exact new_nil
    · rw [hfail]
      exact new_nil

/-! ## Segments that map new pages -/

theorem reached_loads (segment : Phdr → Store → Outcome × Store) : ∀ (phs : List Phdr)
    (st : Store), reached segment phs st = reached segment (loads phs) st := by
  intro phs
  induction phs with
  | nil => exact fun _ => rfl
  | cons ph rest ih =>
    intro st
    by_cases htype : ph.pType = 1
    · have hloads : loads (ph :: rest) = ph :: loads rest :=
        List.filter_cons_of_pos (decide_eq_true htype)
      rw [hloads, reached, reached, if_neg (not_not.mpr htype), if_neg (not_not.mpr htype)]
      generalize segment ph st = out
      obtain ⟨o, st₁⟩ := out
      cases o with
      | done => exact congrArg _ (ih st₁)
      | spinning => rfl
      | failed => rfl
      | faulted => rfl
    · have hloads : loads (ph :: rest) = loads rest :=
        List.filter_cons_of_neg (by rw [decide_eq_true_eq]; exact htype)
      rw [hloads, reached, if_pos htype]
      exact ih st

theorem apart_congr {L : Premap} {mapped mapped' : Nat → Prop} (h : ∀ x, mapped x ↔ mapped' x)
    (phs : List Phdr) : Apart f L mapped phs ↔ Apart f L mapped' phs := by
  have heq : mapped = mapped' := by
    ext1 x
    exact propext (h x)
  rw [heq]

theorem elf32_visits : elf32.visits ph x = true ↔ x / 4096 * 4096 % 0x400000 = 0 ∧
    ph.pVaddr / 0x400000 * 0x400000 ≤ x / 4096 * 4096 ∧
    x / 4096 * 4096 < (ph.pVaddr + ph.pMemsz) % 2 ^ 32 :=
  decide_eq_true_iff

/-- What a segment that has been copied leaves mapped. -/
theorem segment32_mapped {im' : Image} (hfields : Fields32 ph)
    (him : segmentImage32 f ph im = some im') :
    (∀ x, (byteAt f ph x).isSome = true → (im x).isSome = true ∨ elf32.visits ph x = true) ∧
      ∀ x, (im' x).isSome = true ↔ (im x).isSome = true ∨ elf32.visits ph x = true := by
  rw [segmentImage32_eq] at him
  obtain ⟨hlands, rfl⟩ := (copyImage_eq_some hfields.noWrap).mp him
  refine ⟨fun x hx => (enter_isSome x).mp (hlands x hx), ?_⟩
  intro x
  rw [overlay_isSome hlands, enter_isSome]

/-- The segments of an ELF32 file, if they lie apart. -/
theorem segments32_new (hclass : f.elfClass = 1) (hr : r ∈ spaces) :
    ∀ {phs : List Phdr} {st : Store} {im : Image}, (∀ ph ∈ phs, ph.pType = 1 ∧ Fields32 ph) →
      Sim r st₀ st im → Ready st.vm spaces → Apart f elf32 (fun x => (im x).isSome = true) phs →
      ∀ q ∈ reached (segment32 f r fuel) phs st, f.accepts q.1 = true → New r
        (installs32 r ((q.1.pVaddr + q.1.pMemsz) % 2 ^ 32) fuel
          (q.1.pVaddr / 0x400000 * 0x400000) q.2.vm) := by
  have hlast : lastBlock = 4290772992 := rfl
  have hlower : lowerEnd = 140737488355328 := rfl
  intro phs
  induction phs with
  | nil => exact fun _ _ _ _ q hq => absurd hq List.not_mem_nil
  | cons ph rest ih =>
    intro st im hphs hsim h hapart q hq hacc
    obtain ⟨htype, hfields⟩ := hphs ph List.mem_cons_self
    have hphs' := fun q hq => hphs q (List.mem_cons_of_mem ph hq)
    rw [reached, if_neg (not_not.mpr htype)] at hq
    rcases List.mem_cons.mp hq with rfl | hq
    · obtain ⟨hends, hnew, -⟩ := hapart hacc
      apply premap32_new hr (hends hclass) h (Nat.mul_mod_left _ _)
      intro p hp hlo hhi
      have hpage : p / 4096 * 4096 = p := by omega
      rw [hsim.translate_none (by omega), ← Option.not_isSome_iff_eq_none]
      apply hnew p
      rw [elf32_visits, hpage]
      exact ⟨hp, hlo, hhi⟩
    · have hfollows : Follows spaces r st₀ (segment32 f r fuel ph st) (segmentImage32 f ph im) :=
        hsim.segment32 h hr hfields
      have hends : (segment32 f r fuel ph st).1 = .done → f.accepts ph = true ∧
          (ph.pVaddr + ph.pMemsz) % 2 ^ 32 ≤ lastBlock := segment32_ends hfields
      revert hq hfollows hends
      generalize segment32 f r fuel ph st = out
      obtain ⟨o, st₁⟩ := out
      intro hq hfollows hends
      cases o with
      | spinning => exact absurd hq List.not_mem_nil
      | failed => exact absurd hq List.not_mem_nil
      | faulted => exact absurd hq List.not_mem_nil
      | done =>
        obtain ⟨im', him, hsim'⟩ := hfollows.done rfl
        obtain ⟨hlands, hmapped⟩ := segment32_mapped hfields him
        obtain ⟨-, -, hrest⟩ := hapart (hends rfl).1
        have hapart' := (apart_congr hmapped rest).mpr (hrest hlands)
        exact ih hphs' hsim' hfollows.ready hapart' q hq hacc

/-! ## Loads that lose nothing -/

/-- The stack is mapped behind segments that do not meet it. -/
theorem MeetsOnce.stack_new (h : MeetsOnce f wantStack) (hlow : LowerHalf f) (hvalid : Valid f)
    (hclass : f.elfClass = 2) {bytes : Mem} (hfresh : FreshSpace vm spaces r)
    (hdone : segments (segment64 f r fuel) f.phdrs64 ⟨vm, bytes⟩ = (.done, st))
    (hwant : stackOf f wantStack = true) : New r (stackInstalls r Elf.stackPages st.vm) := by
  have hend : lowerEnd = 140737488355328 := rfl
  have htop : userStackTop = 201326592 := rfl
  have hin := hlow (hvalid.elf64 hclass)
  have hfollows : Follows spaces r ⟨vm, bytes⟩ (segments64 f r fuel ⟨vm, bytes⟩)
      (segmentImages (segmentImage64 f) f.phdrs64 Image.empty) :=
    (hfresh.sim bytes).segments64 hfresh.ready hfresh.mem hin
  have hacc : (segments (segment64 f r fuel) f.phdrs64 ⟨vm, bytes⟩).1 = .done →
      ∀ ph ∈ loads f.phdrs64, f.accepts ph = true :=
    segments_done fun ph _ st hdone => segment64_accepts hdone
  rw [segments64, hdone] at hfollows
  rw [hdone] at hacc
  obtain ⟨im, him, hsim⟩ := hfollows.done rfl
  rw [segmentImage64_eq, ← premapOf64 hclass] at him
  have hheaders := headers64 hclass
  obtain ⟨hloadable, rfl⟩ := Loadable.of_image hvalid hlow hheaders
    (hheaders ▸ hacc rfl) (fun _ _ hc => by omega) him
  have hlands : Lands f (premapOf f) (fun x => (Image.empty x).isSome = true) (headers f) := by
    refine (lands_congr ?_ _).mpr hloadable.lands
    intro x
    simp [Image.empty]
  apply stackInstalls_new hfresh.mem hfollows.ready (by decide)
  · intro p hp
    rw [mem_stackPages] at hp
    exact ⟨hp.2.2, by omega⟩
  · intro p hp
    rw [mem_stackPages] at hp
    rw [hsim.translate_none (by omega), ← Option.not_isSome_iff_eq_none, build_isSome p hlands,
      premapOf64 hclass]
    rintro (hc | ⟨q, hq, hvisits⟩)
    · simp [Image.empty] at hc
    · rw [h.stack hloadable hwant q hq p ⟨hp.1, hp.2.1⟩] at hvisits
      cases hvisits

theorem MeetsOnce.nothingReplaced (h : MeetsOnce f wantStack) (hlow : LowerHalf f)
    (hvalid : Valid f) {bytes : Mem} (hfresh : FreshSpace vm spaces r) :
    NothingReplaced f wantStack r fuel ⟨vm, bytes⟩ := by
  rcases hvalid.class with hclass | hclass
  · constructor
    · intro q hq _
      obtain ⟨hready, -, -⟩ := mem_reached (f := f) (I := fun st => Ready st.vm spaces)
        (fun _ _ hst => segmentStep_ready hfresh.mem hst)
        (fun ph hph st hdone => segmentStep_accepts hvalid hph hdone) hfresh.ready q hq
      unfold premapInstalls
      rw [if_pos hclass]
      exact premap64_new hfresh.mem hready
    · intro st hdone hwant
      rw [segmentStep64 hclass, table64 hclass] at hdone
      exact h.stack_new hlow hvalid hclass hfresh hdone hwant
  · have hnot : ¬f.elfClass = 2 := by omega
    constructor
    · intro q hq hacc
      have hphs : ∀ ph ∈ headers f, ph.pType = 1 ∧ Fields32 ph := by
        intro ph hph
        rw [headers32 hclass] at hph
        obtain ⟨hmem, htype⟩ := mem_loads.mp hph
        exact ⟨htype, fields32 f hmem⟩
      have hapart : Apart f elf32 (fun x => (Image.empty x).isSome = true) (headers f) := by
        refine (apart_congr ?_ _).mp (h.blocks hvalid hclass)
        intro x
        simp [Image.empty]
      rw [segmentStep32 hclass, table32 hclass, reached_loads, ← headers32 hclass] at hq
      unfold premapInstalls
      rw [if_neg hnot]
      exact segments32_new hclass hfresh.mem hphs (hfresh.sim bytes) hfresh.ready hapart q hq hacc
    · intro st _ hwant
      unfold stackOf at hwant
      rw [decide_eq_false hnot, Bool.false_and] at hwant
      cases hwant

theorem MeetsOnce.kept (h : MeetsOnce f wantStack) (hlow : LowerHalf f) :
    FramesKept f wantStack := by
  intro vm₀ spaces r vm hready hcreate hr bytes fuel
  obtain ⟨hfresh, -⟩ := freshSpace hready hcreate hr
  have hnew : Valid f → NothingReplaced f wantStack r fuel ⟨vm, bytes⟩ :=
    fun hvalid => h.nothingReplaced hlow hvalid hfresh
  refine ⟨hnew, ?_⟩
  intro heap e _
  exact (frames_back_iff hready hcreate hr hlow).mpr fun _ => hnew

/-! ## Pages that are met twice -/

/-- A page that is mapped stays mapped. -/
theorem stays_mapped {pa va p : Nat} {vm₂ : State} (ht : Taken vm pa vm₁)
    (hm : MapsPage r va pa vm₁ vm₂) (hp : p < lowerEnd) (hnone : translate vm₂ r p = none) :
    translate vm r p = none := by
  rw [hm.page p hp, Paging.translate_congr ht.mem] at hnone
  split_ifs at hnone
  exact hnone

/-- With memory for all its blocks, the loop for ELF32 meets those that are mapped. -/
theorem installs32_meets {segEnd : Nat} (hend : segEnd ≤ lastBlock) :
    ∀ {fuel block j : Nat} {vm : State}, Ample vm spaces r S (j + 4 * blocks block segEnd) →
      block % 0x400000 = 0 → blocks block segEnd < fuel →
      New r (installs32 r segEnd fuel block vm) →
      ∀ p, p % 0x400000 = 0 → block ≤ p → p < segEnd → translate vm r p = none := by
  have hlast : lastBlock = 4290772992 := rfl
  have hlower : lowerEnd = 140737488355328 := rfl
  intro fuel
  induction fuel with
  | zero => exact fun _ _ hpos => absurd hpos (Nat.not_lt_zero _)
  | succ fuel ih =>
    intro block j vm h halign hfuel hnew p hp hlo hhi
    have hblock : block < segEnd := by omega
    have hnext : (block + 0x400000) % 2 ^ 32 = block + 0x400000 := Nat.mod_eq_of_lt (by omega)
    have hcount : blocks block segEnd = blocks (block + 0x400000) segEnd + 1 := by
      unfold blocks
      omega
    rw [hcount] at h hfuel
    have hspare : Ample vm spaces r S (j + 4 * blocks (block + 0x400000) segEnd + 4) :=
      h.mono (by omega)
    obtain ⟨pa, vm₁, vm₂, hok, ht, hm, hample⟩ := hspare.allocInto (show block < lowerEnd by omega)
    rw [installs32, if_pos hblock, hok, hnext] at hnew
    by_cases hfirst : p = block
    · rw [hfirst]
      exact hnew (vm, block) List.mem_cons_self
    · apply stays_mapped ht hm (by omega)
      exact ih hample (by omega) (by omega) (fun w hw => hnew w (List.mem_cons_of_mem _ hw)) p hp
        (by omega) hhi

/-- A loop that does not end comes back to a block that is mapped, `d` blocks from here. -/
theorem installs32_returns {segEnd : Nat} (hend : lastBlock < segEnd) :
    ∀ {d fuel block : Nat} {vm : State}, Ample vm spaces r S (4 * (d + 1)) → d < fuel →
      block % 0x400000 = 0 → block < 2 ^ 32 →
      translate vm r ((block + d * 0x400000) % 2 ^ 32) ≠ none →
      ¬New r (installs32 r segEnd fuel block vm) := by
  have hlast : lastBlock = 4290772992 := rfl
  have hlower : lowerEnd = 140737488355328 := rfl
  intro d
  induction d with
  | zero =>
    intro fuel block vm h hfuel halign hlt hmapped hnew
    obtain ⟨fuel, rfl⟩ := Nat.exists_eq_add_one_of_ne_zero (Nat.ne_of_gt hfuel)
    obtain ⟨pa, vm₁, vm₂, hok, -, -, -⟩ := Ample.allocInto (k := 0) h
      (show block < lowerEnd by omega)
    rw [installs32, if_pos (show block < segEnd by omega), hok] at hnew
    rw [Nat.zero_mul, Nat.add_zero, Nat.mod_eq_of_lt hlt] at hmapped
    exact hmapped (hnew (vm, block) List.mem_cons_self)
  | succ d ih =>
    intro fuel block vm h hfuel halign hlt hmapped hnew
    obtain ⟨fuel, rfl⟩ := Nat.exists_eq_add_one_of_ne_zero (Nat.ne_of_gt (Nat.zero_lt_of_lt hfuel))
    obtain ⟨pa, vm₁, vm₂, hok, ht, hm, hample⟩ :=
      Ample.allocInto (k := 4 * (d + 1)) h (show block < lowerEnd by omega)
    rw [installs32, if_pos (show block < segEnd by omega), hok] at hnew
    have hsame : ((block + 0x400000) % 2 ^ 32 + d * 0x400000) % 2 ^ 32 =
        (block + (d + 1) * 0x400000) % 2 ^ 32 := by omega
    refine ih hample (by omega) (by omega) (Nat.mod_lt _ (by decide)) ?_
      fun w hw => hnew w (List.mem_cons_of_mem _ hw)
    rw [hsame]
    intro hnone
    exact hmapped (stays_mapped ht hm (by omega) hnone)

/-- It has mapped its first block when it comes back to it. -/
theorem installs32_endless {segEnd block : Nat} (hend : lastBlock < segEnd)
    (h : Ample vm spaces r S (4096 + 4)) (hfuel : 1024 < fuel) (halign : block % 0x400000 = 0)
    (hlt : block < 2 ^ 32) : ¬New r (installs32 r segEnd fuel block vm) := by
  have hlast : lastBlock = 4290772992 := rfl
  have hlower : lowerEnd = 140737488355328 := rfl
  intro hnew
  obtain ⟨fuel, rfl⟩ := Nat.exists_eq_add_one_of_ne_zero (show fuel ≠ 0 by omega)
  obtain ⟨pa, vm₁, vm₂, hok, -, hm, hample⟩ := h.allocInto (show block < lowerEnd by omega)
  rw [installs32, if_pos (show block < segEnd by omega), hok] at hnew
  have hsame : ((block + 0x400000) % 2 ^ 32 + 1023 * 0x400000) % 2 ^ 32 = block := by omega
  refine installs32_returns (d := 1023) hend hample (by omega) (by omega)
    (Nat.mod_lt _ (by decide)) ?_ fun w hw => hnew w (List.mem_cons_of_mem _ hw)
  rw [hsame, hm.page block (by omega), if_pos rfl]
  exact Option.some_ne_none _

/-- The stack, too, meets the pages that are mapped. -/
theorem stackInstalls_meets : ∀ {pages : List Nat} {j : Nat} {vm : State},
    Ample vm spaces r S (j + 4 * pages.length) → (∀ p ∈ pages, p < lowerEnd) →
      New r (stackInstalls r pages vm) → ∀ p ∈ pages, translate vm r p = none := by
  intro pages
  induction pages with
  | nil => exact fun _ _ _ p hp => absurd hp List.not_mem_nil
  | cons page rest ih =>
    intro j vm h hpages hnew p hp
    rw [List.length_cons] at h
    have hspare : Ample vm spaces r S (j + 4 * rest.length + 4) := h.mono (by omega)
    obtain ⟨pa, vm₁, vm₂, halloc, ht, hmap, hm, hample⟩ :=
      hspare.page (hpages page List.mem_cons_self)
    rw [stackInstalls, halloc] at hnew
    dsimp only at hnew
    rw [if_neg ht.ne_null, hmap, if_pos rfl] at hnew
    rcases List.mem_cons.mp hp with rfl | hp
    · exact hnew (vm, p) List.mem_cons_self
    · have hrest := fun q hq => hpages q (List.mem_cons_of_mem page hq)
      apply stays_mapped ht hm (hrest p hp)
      exact ih hample hrest (fun w hw => hnew w (List.mem_cons_of_mem _ hw)) p hp

/-! ## Files that lose nothing -/

/-- ELF32 segments that map new pages only lie apart. -/
theorem apart_of_new (hfuel : enoughFuel ≤ fuel) :
    ∀ {phs : List Phdr} {st : Store} {im : Image}, (∀ ph ∈ phs, ph.pType = 1 ∧ Fields32 ph) →
      Sim r st₀ st im → Ample st.vm spaces r S (k + 4100 + 4096 * phs.length) →
      (∀ q ∈ reached (segment32 f r fuel) phs st, f.accepts q.1 = true → New r
        (installs32 r ((q.1.pVaddr + q.1.pMemsz) % 2 ^ 32) fuel
          (q.1.pVaddr / 0x400000 * 0x400000) q.2.vm)) →
      Apart f elf32 (fun x => (im x).isSome = true) phs := by
  have henough : enoughFuel = 34359738369 := rfl
  have hlast : lastBlock = 4290772992 := rfl
  have hlower : lowerEnd = 140737488355328 := rfl
  intro phs
  induction phs with
  | nil => exact fun _ _ _ _ => trivial
  | cons ph rest ih =>
    intro st im hphs hsim hample hnew
    obtain ⟨htype, hfields⟩ := hphs ph List.mem_cons_self
    have hv := hfields.pVaddr
    rw [List.length_cons] at hample
    rw [reached, if_neg (not_not.mpr htype)] at hnew
    intro hacc
    have hone := hnew (ph, st) List.mem_cons_self hacc
    dsimp only at hone
    have hends : (ph.pVaddr + ph.pMemsz) % 2 ^ 32 ≤ lastBlock := by
      by_contra hc
      exact installs32_endless (Nat.lt_of_not_le hc) (hample.mono (by omega)) (by omega)
        (Nat.mul_mod_left _ _) (by omega) hone
    have hcount : blocks (ph.pVaddr / 0x400000 * 0x400000) ((ph.pVaddr + ph.pMemsz) % 2 ^ 32) ≤
        1024 := by
      unfold blocks
      omega
    have hnone := installs32_meets hends (j := 0) (hample.mono (by omega)) (Nat.mul_mod_left _ _)
      (by omega) hone
    refine ⟨fun _ => hends, ?_, ?_⟩
    · intro x hx
      obtain ⟨hp, hlo, hhi⟩ := elf32_visits.mp hx
      show ¬(im x).isSome = true
      have hpage : x / 4096 * 4096 < lowerEnd := by omega
      rw [hsim.page_isSome hpage (by omega), hnone _ hp hlo hhi]
      exact Bool.false_ne_true
    · intro hlands
      have hfree : Ample st.vm spaces r S (k + 4100 + 4096 * rest.length + 4096) :=
        hample.mono (by omega)
      have hproceeds := hsim.segment32_proceeds hfree hfuel (accepts_holds hacc) hfields hends
      have him : segmentImage32 f ph im = some (overlay f ph (elf32.enter ph im)) := by
        rw [segmentImage32_eq]
        refine (copyImage_eq_some hfields.noWrap).mpr ⟨?_, rfl⟩
        exact fun x hx => (enter_isSome x).mpr (hlands x hx)
      rcases hproceeds with ⟨st', im', hdone, him', hsim', hample'⟩ | ⟨-, hfault⟩
      · obtain ⟨-, hmapped⟩ := segment32_mapped hfields him'
        rw [hdone] at hnew
        refine (apart_congr hmapped rest).mp ?_
        exact ih (fun q hq => hphs q (List.mem_cons_of_mem ph hq)) hsim' hample'
          fun q hq => hnew q (List.mem_cons_of_mem _ hq)
      · rw [him] at hfault
        cases hfault

/-- On a large machine, a page that is met twice is replaced. -/
theorem FramesKept.meetsOnce (h : FramesKept f wantStack) (hlow : LowerHalf f) :
    MeetsOnce f wantStack := by
  obtain ⟨hready, r, vm, hcreate, hr, hfresh, -, hample⟩ := exists_ample
  obtain ⟨hall, -⟩ := h _ _ r vm hready hcreate hr (fun _ => 0) enoughFuel
  constructor
  · intro hvalid hclass
    have hnew := (hall hvalid).premaps
    have hlen := phdrs32_length f
    have hphs : ∀ ph ∈ loads f.phdrs32, ph.pType = 1 ∧ Fields32 ph := by
      intro ph hph
      obtain ⟨hmem, htype⟩ := mem_loads.mp hph
      exact ⟨htype, fields32 f hmem⟩
    have hle : (loads f.phdrs32).length ≤ f.phdrs32.length := List.length_filter_le _ _
    rw [segmentStep32 hclass, table32 hclass, reached_loads] at hnew
    rw [headers32 hclass]
    refine (apart_congr ?_ _).mp (apart_of_new (k := 0) (le_refl enoughFuel) hphs
      (hfresh.sim fun _ => 0) (hample.mono (by omega)) ?_)
    · intro x
      simp [Image.empty]
    · intro q hq hacc
      have hone := hnew q hq hacc
      have hnot : ¬f.elfClass = 2 := by omega
      unfold premapInstalls at hone
      rw [if_neg hnot] at hone
      exact hone
  · intro hloadable hwant ph hph a ha
    have hclass : f.elfClass = 2 := by
      unfold stackOf at hwant
      rw [Bool.and_eq_true, decide_eq_true_eq] at hwant
      exact hwant.1
    have hend : lowerEnd = 140737488355328 := rfl
    have htop : userStackTop = 201326592 := rfl
    have hsize : userStackSize = 262144 := rfl
    have hheaders := headers64 hclass
    have hin := hlow (hloadable.valid.elf64 hclass)
    rw [accepted_eq (hheaders ▸ hloadable.accepted), ← hheaders] at hin
    obtain ⟨st, hdone, hsim, hample'⟩ := segments64_enough (fun _ => 0) hfresh hample
      (le_refl enoughFuel) hloadable hclass hin
      fun ph hph p hp => mem_lowerPages ((hin ph hph).pages p hp)
    have hnew := (hall hloadable.valid).stack
    rw [segmentStep64 hclass, table64 hclass] at hnew
    have hlen : Elf.stackPages.length = 64 := by decide
    have hnone := stackInstalls_meets (j := 0) (hample'.mono (by rw [hlen]; omega))
      (fun p hp => by rw [mem_stackPages] at hp; omega) (hnew st hdone hwant) (a / 4096 * 4096)
      (mem_stackPages.mpr ⟨by have := ha.1; omega, by have := ha.2; omega, Nat.mul_mod_left _ _⟩)
    have hlt := ha.2
    rw [hsim.translate_none (by omega), ← Option.not_isSome_iff_eq_none] at hnone
    by_contra hvisits
    rw [Bool.not_eq_false, elf64_visits] at hvisits
    apply hnone
    have hlands : Lands f (premapOf f) (fun x => (Image.empty x).isSome = true) (headers f) := by
      refine (lands_congr ?_ _).mpr hloadable.lands
      intro x
      simp [Image.empty]
    rw [build_isSome _ hlands, premapOf64 hclass]
    refine Or.inr ⟨ph, hph, elf64_visits.mpr ?_⟩
    rw [Nat.mul_div_cancel _ (by decide)]
    exact hvisits

/-- No frame is lost if the loops of the file meet no page twice and stay below the kernel's half,
and of the files that stay below it exactly those lose none. -/
theorem framesKept_iff (f : File) (wantStack : Bool) :
    (LowerHalf f ∧ MeetsOnce f wantStack → FramesKept f wantStack) ∧
      (LowerHalf f → FramesKept f wantStack → MeetsOnce f wantStack) :=
  ⟨fun h => h.2.kept h.1, fun hlow h => h.meetsOnce hlow⟩

/-- A segment below the stack. -/
theorem framesKept_oneSegment : FramesKept (oneSegment 0x400000 8 8) true := by
  have hregular : Regular (oneSegment 0x400000 8 8) :=
    oneSegment_regular (by decide) (by decide) (by decide)
  refine (framesKept_iff _ true).1 ⟨hregular.lowerHalf, ?_, ?_⟩
  · intro _ hclass
    rw [oneSegment_class] at hclass
    cases hclass
  · intro _ _ ph hph a ha
    have hone : ph = ⟨1, 0, 0x400000, 8, 8⟩ := by
      rw [oneSegment_headers, List.mem_singleton] at hph
      exact hph
    have hlo : 0x0BFC0000 ≤ a := ha.1
    by_contra hvisits
    rw [Bool.not_eq_false, elf64_visits, hone] at hvisits
    dsimp only at hvisits
    omega

/-- Eight bytes in the stack window: the stack replaces the page of the segment. -/
theorem framesKept_stackSegment : LowerHalf (oneSegment 0x0BFC0000 8 8) ∧
    ¬FramesKept (oneSegment 0x0BFC0000 8 8) true := by
  have hend : lowerEnd = 140737488355328 := rfl
  have hclass := oneSegment_class 0x0BFC0000 8 8
  have hvalid := oneSegment_valid 0x0BFC0000 8 8
  have hphdrs : (oneSegment 0x0BFC0000 8 8).phdrs64 = [⟨1, 0, 0x0BFC0000, 8, 8⟩] :=
    oneSegment_phdrs 0x0BFC0000 8 8
  have hheaders : headers (oneSegment 0x0BFC0000 8 8) = [⟨1, 0, 0x0BFC0000, 8, 8⟩] :=
    oneSegment_headers 0x0BFC0000 8 8
  have hlow : LowerHalf (oneSegment 0x0BFC0000 8 8) := by
    intro _ ph hph
    have hone : ph = ⟨1, 0, 0x0BFC0000, 8, 8⟩ := by
      have hmem := accepted_sub _ hph
      rw [hphdrs, List.mem_singleton] at hmem
      exact hmem
    subst hone
    refine ⟨?_, ?_, ?_⟩
    · rintro p ⟨-, -, hp⟩
      dsimp only at hp
      omega
    · intro _
      dsimp only
      omega
    · intro _ _
      dsimp only
      omega
  have hloadable : Loadable (oneSegment 0x0BFC0000 8 8) := by
    refine ⟨hvalid, ?_, fun _ _ hc => ?_, ?_⟩
    · intro ph hph
      rw [hheaders, List.mem_singleton] at hph
      subst hph
      rfl
    · rw [hclass] at hc
      cases hc
    · rw [premapOf64 hclass]
      apply lands_of_own
      intro ph hph x hx
      rw [hheaders, List.mem_singleton] at hph
      subst hph
      rw [byteAt_isSome] at hx
      dsimp only at hx
      exact elf64_visits.mpr ⟨by dsimp only; omega, by dsimp only; omega⟩
  refine ⟨hlow, ?_⟩
  intro h
  have hvisits := (h.meetsOnce hlow).stack hloadable (stackOf_true hclass) ⟨1, 0, 0x0BFC0000, 8, 8⟩
    (by rw [hheaders]; exact List.mem_singleton_self _) 0x0BFC0000 ⟨by decide, by decide⟩
  revert hvisits
  decide

end Kyuzen.Loader
