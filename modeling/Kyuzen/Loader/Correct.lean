import Kyuzen.Loader.Loaded

/-!
# The image of an ELF64 program

What a program finds in its address space when it starts. For the files of `Regular`, the bytes of
its segments, its stack and its entry point are what the file says. The pages of no segment are
unmapped, with one exception: the loop that maps a segment begins at the page of its address, and
so maps this page for an empty segment, too, unless the address is that of a page
(`imageCorrect_iff`).
-/

namespace Kyuzen.Loader

open Lib Lib.Memory
open Elf (File Phdr userStackSize userStackTop)
open Proc (Ready)
open Paging (State Store physAddr lowerEnd translate freePages)

variable {f : File} {ph : Phdr} {r a : Nat}

/-- The segment has the address `a`. -/
def Covers (ph : Phdr) (a : Nat) : Prop := ph.pVaddr ≤ a ∧ a < ph.pVaddr + ph.pMemsz

/-- The segment has an address in the page of `a`. -/
def Meets (ph : Phdr) (a : Nat) : Prop := ∃ x, x / 4096 = a / 4096 ∧ Covers ph x

/-- The stack window. -/
def InStack (a : Nat) : Prop := userStackTop - userStackSize ≤ a ∧ a < userStackTop

/-- The byte that a program reads. -/
def readByte (r : Nat) (st : Store) (a : Nat) : Option UInt8 :=
  Virtual.read (physAddr st.vm r) st.bytes a

/-- An ELF64 file of ordinary segments, which passes the checks of the loader. -/
structure Regular (f : File) : Prop where
  size : 64 ≤ f.size
  valid : Valid f
  elfClass : f.elfClass = 2
  accepted : ∀ ph ∈ headers f, f.accepts ph = true
  lower : ∀ ph ∈ headers f, ph.pVaddr + ph.pMemsz ≤ lowerEnd
  filesz : ∀ ph ∈ headers f, ph.pFilesz ≤ ph.pMemsz
  bss : ∀ ph ∈ headers f, ph.pMemsz - ph.pFilesz < 2 ^ 32
  stack : ∀ ph ∈ headers f, ∀ a, Covers ph a → ¬InStack a

/-- The memory and the result are what the file says. -/
structure Correct (f : File) (r : Nat) (res : Result) : Prop where
  entry : res.entry = some f.entry64
  stackTop : res.stackTop = userStackTop
  /-- The last segment that has an address decides. -/
  bytes : ∀ pre ph post, headers f = pre ++ ph :: post → ∀ a, Covers ph a →
    (∀ q ∈ post, ¬Covers q a) → readByte r res.store a =
      some (if a < ph.pVaddr + ph.pFilesz then f.buf (ph.pOffset + (a - ph.pVaddr)) else 0)
  stack : ∀ a, InStack a → readByte r res.store a = some 0
  unmapped : ∀ a < lowerEnd, ¬InStack a → (∀ ph ∈ headers f, ¬Meets ph a) →
    translate res.store.vm r a = none

/-- The pages that the loops of the file map. -/
def visitedPages (f : File) : Finset Nat :=
  lowerPages.filter fun i => (headers f).any fun ph => (premapOf f).visits ph (i * 4096)

/-- The file is loaded correctly into every fresh address space, with memory for its pages and
its stack. -/
def ImageCorrect (f : File) : Prop :=
  ∀ vm₀ spaces r vm, Ready vm₀ spaces → Paging.vmmCreateAddressSpace vm₀ = (r, vm) →
    r ≠ Pmm.physNull → 4 * (visitedPages f).card + 256 ≤ (freePages vm.pmm).card →
    ∀ bytes fuel, enoughFuel ≤ fuel → Correct f r (elfLoadFile fuel f true true r ⟨vm, bytes⟩)

/-- An empty segment lies at the address of a page, or in a page that is mapped anyway. -/
def EmptyAligned (f : File) : Prop :=
  ∀ ph ∈ headers f, ph.pMemsz = 0 → ph.pVaddr % 4096 = 0 ∨ InStack ph.pVaddr ∨
    ∃ q ∈ headers f, Meets q ph.pVaddr

/-! ## Segments -/

theorem elf64_visits : elf64.visits ph a = true ↔
    ph.pVaddr / 4096 * 4096 ≤ a / 4096 * 4096 ∧ a / 4096 * 4096 < ph.pVaddr + ph.pMemsz :=
  decide_eq_true_iff

/-- A page that is mapped meets the segment, unless this is empty. -/
theorem visits_cases (h : elf64.visits ph a = true) : Meets ph a ∨
    ph.pMemsz = 0 ∧ ph.pVaddr % 4096 ≠ 0 ∧ ph.pVaddr / 4096 = a / 4096 := by
  obtain ⟨hlo, hhi⟩ := elf64_visits.mp h
  by_cases hempty : ph.pMemsz = 0
  · exact Or.inr ⟨hempty, by omega, by omega⟩
  · left
    by_cases hpage : ph.pVaddr ≤ a / 4096 * 4096
    · exact ⟨a / 4096 * 4096, by omega, hpage, hhi⟩
    · exact ⟨ph.pVaddr, by omega, le_refl _, by omega⟩

theorem Meets.visits (h : Meets ph a) : elf64.visits ph a = true := by
  obtain ⟨x, hx, hlo, hhi⟩ := h
  exact elf64_visits.mpr ⟨by omega, by omega⟩

theorem Regular.byteAt_isSome (h : Regular f) (hph : ph ∈ headers f) (x : Nat) :
    (byteAt f ph x).isSome = true ↔ Covers ph x := by
  have hfilesz := h.filesz ph hph
  have hbss := h.bss ph hph
  rw [Loader.byteAt_isSome, Nat.mod_eq_of_lt hbss]
  unfold Covers
  omega

theorem Regular.byteAt_eq (h : Regular f) (hph : ph ∈ headers f) {x : Nat} (hx : Covers ph x) :
    byteAt f ph x =
      some (if x < ph.pVaddr + ph.pFilesz then f.buf (ph.pOffset + (x - ph.pVaddr)) else 0) := by
  have hfilesz := h.filesz ph hph
  have hbss := h.bss ph hph
  obtain ⟨hlo, hhi⟩ := hx
  unfold byteAt
  rw [Nat.mod_eq_of_lt hbss]
  by_cases hfile : x < ph.pVaddr + ph.pFilesz
  · rw [if_pos ⟨hlo, hfile⟩, if_pos hfile]
  · rw [if_neg fun hc => hfile hc.2, if_neg hfile, if_pos ⟨by omega, by omega⟩]

theorem Regular.inLowerHalf (h : Regular f) (hph : ph ∈ headers f) : InLowerHalf ph := by
  have hlower := h.lower ph hph
  have hfilesz := h.filesz ph hph
  have hbss := h.bss ph hph
  refine ⟨?_, ?_, ?_⟩
  · rintro p ⟨-, -, hp⟩
    omega
  · intro _
    omega
  · intro _ _
    rw [Nat.mod_eq_of_lt hbss]
    omega

theorem Regular.lowerHalf (h : Regular f) : LowerHalf f := by
  intro _ ph hph
  have hheaders := headers64 h.elfClass
  rw [accepted_eq (hheaders ▸ h.accepted), ← hheaders] at hph
  exact h.inLowerHalf hph

theorem lands_of_own {L : Premap} : ∀ {phs : List Phdr} {mapped : Nat → Prop},
    (∀ ph ∈ phs, ∀ x, (byteAt f ph x).isSome = true → L.visits ph x = true) →
      Lands f L mapped phs := by
  intro phs
  induction phs with
  | nil => exact fun _ => trivial
  | cons ph rest ih =>
    intro mapped h
    refine ⟨fun x hx => Or.inr (h ph List.mem_cons_self x hx), ih ?_⟩
    exact fun q hq => h q (List.mem_cons_of_mem ph hq)

theorem Regular.loadable (h : Regular f) : Loadable f := by
  refine ⟨h.valid, h.accepted, fun _ _ hc => ?_, ?_⟩
  · rw [h.elfClass] at hc
    cases hc
  · rw [premapOf64 h.elfClass]
    apply lands_of_own
    intro ph hph x hx
    obtain ⟨hlo, hhi⟩ := (h.byteAt_isSome hph x).mp hx
    exact elf64_visits.mpr ⟨by omega, by omega⟩

/-! ## Loads -/

theorem Regular.load (h : Regular f) {vm₀ vm : State} {spaces : Finset Nat} {fuel : Nat}
    (bytes : Mem) (hready : Ready vm₀ spaces)
    (hcreate : Paging.vmmCreateAddressSpace vm₀ = (r, vm)) (hr : r ≠ Pmm.physNull)
    (hroom : 4 * (visitedPages f).card + 256 ≤ (freePages vm.pmm).card)
    (hfuel : enoughFuel ≤ fuel) : Loads f true (insert r spaces) r ⟨vm, bytes⟩
      (elfLoadFile fuel f true true r ⟨vm, bytes⟩) := by
  have hend : lowerEnd = 140737488355328 := rfl
  obtain ⟨hfresh, -⟩ := freshSpace hready hcreate hr
  have hlow : ∀ i ∈ visitedPages f, i * 4096 < lowerEnd := by
    intro i hi
    have hlt := Finset.mem_range.mp (Finset.mem_filter.mp hi).1
    omega
  refine load64_enough hfresh (hfresh.ample hlow hroom) (le_refl _) hfuel h.loadable h.elfClass
    (fun ph hph => h.inLowerHalf hph) ?_
  rintro ph hph p ⟨halign, hlo, hhi⟩
  refine Finset.mem_filter.mpr ⟨mem_lowerPages ?_, List.any_eq_true.mpr ⟨ph, hph, ?_⟩⟩
  · have := h.lower ph hph
    omega
  · rw [premapOf64 h.elfClass]
    exact elf64_visits.mpr ⟨by omega, by omega⟩

theorem stackOf_true (hclass : f.elfClass = 2) : stackOf f true = true := by
  unfold stackOf
  rw [decide_eq_true hclass]
  rfl

theorem finalImage_inside (hclass : f.elfClass = 2) (h : InStack a) :
    finalImage f true a = some (some 0) := by
  unfold finalImage
  rw [if_pos (stackOf_true hclass)]
  exact if_pos h

theorem finalImage_outside (hclass : f.elfClass = 2) (h : ¬InStack a) :
    finalImage f true a = build f (premapOf f) (headers f) Image.empty a := by
  unfold finalImage
  rw [if_pos (stackOf_true hclass)]
  exact if_neg h

/-- A page outside the stack is mapped exactly if a loop visits it. -/
theorem finalImage_isSome (h : Loadable f) (hclass : f.elfClass = 2) (hstack : ¬InStack a) :
    (finalImage f true a).isSome = true ↔ ∃ ph ∈ headers f, elf64.visits ph a = true := by
  have hlands : Lands f (premapOf f) (fun x => (Image.empty x).isSome = true) (headers f) := by
    refine (lands_congr ?_ _).mpr h.lands
    intro x
    simp [Image.empty]
  rw [finalImage_outside hclass hstack, build_isSome a hlands, premapOf64 hclass]
  simp [Image.empty]

theorem Sim.translate_none {st₀ st : Store} {im : Image} (h : Sim r st₀ st im)
    (ha : a < lowerEnd) : translate st.vm r a = none ↔ im a = none := by
  rw [← Option.not_isSome_iff_eq_none, ← physAddr_isSome ha, h.shows.mapped a ha,
    Option.not_isSome_iff_eq_none]

/-- What is loaded is correct, if every page that is mapped for an empty segment may be mapped. -/
theorem Regular.correct (h : Regular f) {spaces : Finset Nat} {st₀ : Store} {res : Result}
    (hload : Loads f true spaces r st₀ res) (hempty : EmptyAligned f) : Correct f r res := by
  have hend : lowerEnd = 140737488355328 := rfl
  have htop : userStackTop = 201326592 := rfl
  have hclass := h.elfClass
  have hstack := stackOf_true hclass
  refine ⟨?_, ?_, ?_, ?_, ?_⟩
  · rw [hload.entry]
    exact congrArg some (if_pos hclass)
  · rw [hload.stackTop, if_pos hstack]
  · intro pre ph post hsplit a hcovers hpost
    have hmem : ph ∈ headers f := by
      rw [hsplit]
      exact List.mem_append_right pre List.mem_cons_self
    have hlower := h.lower ph hmem
    apply hload.sim.shows.read (show a < lowerEnd by have := hcovers.2; omega)
    rw [finalImage_outside hclass (h.stack ph hmem a hcovers), hsplit, premapOf64 hclass]
    apply build_last (h.byteAt_eq hmem hcovers)
    intro q hq
    have hqmem : q ∈ headers f := by
      rw [hsplit]
      exact List.mem_append_right pre (List.mem_cons_of_mem ph hq)
    refine ⟨Option.not_isSome_iff_eq_none.mp fun hc => ?_, fun hc => by cases hc.1⟩
    exact hpost q hq ((h.byteAt_isSome hqmem a).mp hc)
  · intro a ha
    apply hload.sim.shows.read (show a < lowerEnd by have := ha.2; omega)
    exact finalImage_inside hclass ha
  · intro a ha hout hmeets
    rw [hload.sim.translate_none ha, ← Option.not_isSome_iff_eq_none,
      finalImage_isSome h.loadable hclass hout]
    rintro ⟨ph, hph, hvisits⟩
    rcases visits_cases hvisits with hmeet | ⟨hzero, hunaligned, hpage⟩
    · exact hmeets ph hph hmeet
    · rcases hempty ph hph hzero with halign | hin | ⟨q, hq, x, hx, hcovers⟩
      · exact hunaligned halign
      · apply hout
        unfold InStack at hin ⊢
        have hsize : userStackSize = 262144 := rfl
        omega
      · exact hmeets q hq ⟨x, hx.trans hpage, hcovers⟩

/-- An empty segment inside a page gets this page. -/
theorem Regular.emptyAligned (h : Regular f) (hcorrect : ImageCorrect f) : EmptyAligned f := by
  obtain ⟨hready, r, vm, hcreate, hr, -, hfree, -⟩ := exists_ample
  have hcard : (visitedPages f).card ≤ lowerPages.card :=
    Finset.card_le_card (Finset.filter_subset _ lowerPages)
  have hall : lowerPages.card = 2 ^ 35 := Finset.card_range _
  have hroom : 4 * (visitedPages f).card + 256 ≤ (freePages vm.pmm).card := by omega
  have hload := h.load (fun _ => 0) hready hcreate hr hroom (le_refl enoughFuel)
  have hone := hcorrect _ _ r vm hready hcreate hr hroom (fun _ => 0) enoughFuel (le_refl _)
  intro ph hph hzero
  by_contra hc
  rw [not_or, not_or, not_exists] at hc
  obtain ⟨hunaligned, hout, hno⟩ := hc
  have hlower := h.lower ph hph
  have hlt : ph.pVaddr < lowerEnd := by
    have hend : lowerEnd = 140737488355328 := rfl
    omega
  have hnone := hone.unmapped ph.pVaddr hlt hout fun q hq hmeets => hno q ⟨hq, hmeets⟩
  rw [hload.sim.translate_none hlt, ← Option.not_isSome_iff_eq_none,
    finalImage_isSome h.loadable h.elfClass hout] at hnone
  exact hnone ⟨ph, hph, elf64_visits.mpr ⟨le_refl _, by omega⟩⟩

/-- The image is correct exactly if no empty segment lies inside a page of its own. -/
theorem imageCorrect_iff (f : File) (h : Regular f) : ImageCorrect f ↔ EmptyAligned f := by
  constructor
  · exact h.emptyAligned
  · intro hempty vm₀ spaces r vm hready hcreate hr hroom bytes fuel hfuel
    exact h.correct (h.load bytes hready hcreate hr hroom hfuel) hempty

/-- A file with one segment below the stack is regular. -/
theorem oneSegment_regular {va filesz memsz : Nat} (hbelow : va + memsz ≤ 0x0BFC0000)
    (hle : filesz ≤ memsz) (hfile : filesz ≤ 120) : Regular (oneSegment va filesz memsz) := by
  have hend : lowerEnd = 140737488355328 := rfl
  have htop : userStackTop = 201326592 := rfl
  have hsize : userStackSize = 262144 := rfl
  have hheaders : headers (oneSegment va filesz memsz) = [⟨1, 0, va, filesz, memsz⟩] := by
    rw [oneSegment_headers, Nat.mod_eq_of_lt (by omega), Nat.mod_eq_of_lt (by omega),
      Nat.mod_eq_of_lt (by omega)]
  have hone : ∀ ph ∈ headers (oneSegment va filesz memsz), ph = ⟨1, 0, va, filesz, memsz⟩ := by
    intro ph hph
    rw [hheaders] at hph
    exact List.mem_singleton.mp hph
  refine ⟨?_, oneSegment_valid va filesz memsz, oneSegment_class va filesz memsz,
    ?_, ?_, ?_, ?_, ?_⟩
  · show 64 ≤ 120
    omega
  · intro ph hph
    rw [hone ph hph]
    have hwrap : memsz ≤ 2 ^ 64 - 1 - va := by omega
    have hfits : filesz ≤ (oneSegment va filesz memsz).size - 0 := hfile
    unfold File.accepts File.holds
    dsimp only
    rw [decide_eq_true hwrap, decide_eq_true (Nat.zero_le _), decide_eq_true hfits]
    rfl
  · intro ph hph
    rw [hone ph hph]
    show va + memsz ≤ lowerEnd
    omega
  · intro ph hph
    rw [hone ph hph]
    exact hle
  · intro ph hph
    rw [hone ph hph]
    show memsz - filesz < 2 ^ 32
    omega
  · intro ph hph a hcovers hin
    rw [hone ph hph] at hcovers
    have hhi : a < va + memsz := hcovers.2
    have hlo := hin.1
    omega

/-- Eight bytes at the start of a page. -/
theorem imageCorrect_oneSegment : ImageCorrect (oneSegment 0x400000 8 8) := by
  apply (imageCorrect_iff _ (oneSegment_regular (by decide) (by decide) (by decide))).mpr
  intro ph hph _
  rw [oneSegment_headers, List.mem_singleton] at hph
  rw [hph]
  exact Or.inl (by decide)

/-- An empty segment at 0x400001 gets a page. -/
theorem imageCorrect_emptySegment : Regular (oneSegment 0x400001 0 0) ∧
    ¬ImageCorrect (oneSegment 0x400001 0 0) := by
  have hregular : Regular (oneSegment 0x400001 0 0) :=
    oneSegment_regular (by decide) (by decide) (by decide)
  refine ⟨hregular, ?_⟩
  intro hcorrect
  have hempty := hregular.emptyAligned hcorrect
  have hone : ∀ ph ∈ headers (oneSegment 0x400001 0 0), ph = ⟨1, 0, 0x400001, 0, 0⟩ := by
    intro ph hph
    rw [oneSegment_headers, List.mem_singleton] at hph
    exact hph
  have hmem : (⟨1, 0, 0x400001, 0, 0⟩ : Phdr) ∈ headers (oneSegment 0x400001 0 0) := by
    rw [oneSegment_headers]
    exact List.mem_singleton.mpr rfl
  rcases hempty _ hmem rfl with halign | hin | ⟨q, hq, x, hx, hcovers⟩
  · revert halign
    decide
  · exact absurd hin.1 (by decide)
  · rw [hone q hq] at hcovers
    exact absurd hcovers.2 (Nat.not_lt.mpr hcovers.1)

end Kyuzen.Loader
