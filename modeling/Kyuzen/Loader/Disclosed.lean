import Kyuzen.Loader.Correct

/-!
# Stale bytes

`vmm_alloc_page_into` does not clear the frame that it maps, so a program finds in its pages what
the frames held before, wherever no segment has written. Two loads of one file that differ in free
frames only are compared (`SameBytes`); they leave the same bytes for every machine exactly if the
segments fill all of their pages (`disclosesNothing_iff`). The pages of the stack are cleared.
-/

namespace Kyuzen.Loader

open Lib Lib.Memory
open Elf (File Phdr)
open Proc (Ready)
open Paging (State Store lowerEnd)

variable {f : File} {wantStack : Bool} {spaces : Finset Nat} {r a : Nat} {st₀ : Store}

/-- Both loads succeed, and all pages hold the same bytes afterwards. -/
def SameBytes (r : Nat) (res res' : Result) : Prop :=
  ∀ e e', res.entry = some e → e ≠ 0 → res'.entry = some e' → e' ≠ 0 →
    ∀ a < lowerEnd, readByte r res.store a = readByte r res'.store a

/-- What a load into a fresh address space leaves does not depend on what free frames hold. -/
def DisclosesNothing (f : File) (wantStack : Bool) : Prop :=
  ∀ vm₀ spaces r vm, Ready vm₀ spaces → Paging.vmmCreateAddressSpace vm₀ = (r, vm) →
    r ≠ Pmm.physNull → ∀ bytes bytes' : Mem,
      (∀ a, vm.pmm.used (a / 4096) = true → bytes a = bytes' a) →
      ∀ fuel heap, SameBytes r (elfLoadFile fuel f heap wantStack r ⟨vm, bytes⟩)
        (elfLoadFile fuel f heap wantStack r ⟨vm, bytes'⟩)

/-- If the file can be loaded, its segments write all bytes of its pages. -/
def Filled (f : File) (wantStack : Bool) : Prop :=
  Loadable f → entryOf f ≠ 0 → ∀ a < lowerEnd,
    (∃ ph ∈ headers f, (premapOf f).visits ph a = true) →
      stackOf f wantStack = true ∧ InStack a ∨ Covered f (premapOf f) (headers f) a

/-- The bytes that are not known are those that no segment has written. -/
theorem finalImage_stale_iff : finalImage f wantStack a = some none ↔
    ¬(stackOf f wantStack = true ∧ InStack a) ∧ ¬Covered f (premapOf f) (headers f) a ∧
      ∃ ph ∈ headers f, (premapOf f).visits ph a = true := by
  have hbuild : build f (premapOf f) (headers f) Image.empty a = some none ↔
      ¬Covered f (premapOf f) (headers f) a ∧
        ∃ ph ∈ headers f, (premapOf f).visits ph a = true := by
    rw [build_stale_iff]
    simp [Image.empty]
  unfold finalImage
  by_cases hstack : stackOf f wantStack = true
  · rw [if_pos hstack]
    by_cases hin : InStack a
    · have hzero : stackImage (build f (premapOf f) (headers f) Image.empty) a = some (some 0) :=
        if_pos hin
      rw [hzero]
      simp [hstack, hin]
    · have hout : stackImage (build f (premapOf f) (headers f) Image.empty) a =
          build f (premapOf f) (headers f) Image.empty a := if_neg hin
      rw [hout, hbuild]
      simp [hin]
  · rw [if_neg hstack, hbuild]
    simp [hstack]

/-- What a program reads is decided by the image, where this knows it. -/
theorem readByte_eq {res res' : Result} {st₀' : Store} (h : Loads f wantStack spaces r st₀ res)
    (h' : Loads f wantStack spaces r st₀' res') (ha : a < lowerEnd)
    (hknown : finalImage f wantStack a ≠ some none) :
    readByte r res.store a = readByte r res'.store a := by
  cases hc : finalImage f wantStack a with
  | none =>
    unfold readByte Virtual.read
    rw [h.sim.shows.unmapped ha hc, h'.sim.shows.unmapped ha hc]
    rfl
  | some c =>
    cases c with
    | none => exact absurd hc hknown
    | some b => exact (h.sim.shows.read ha hc).trans (h'.sim.shows.read ha hc).symm

/-- A byte that nobody has written is one of a frame that was free. -/
theorem readByte_stale {res : Result} (h : Loads f wantStack spaces r st₀ res) (ha : a < lowerEnd)
    (hstale : finalImage f wantStack a = some none) :
    ∃ pa, st₀.vm.pmm.used (pa / 4096) = false ∧ readByte r res.store a = some (st₀.bytes pa) := by
  have hmapped := h.sim.shows.mapped a ha
  rw [hstale, Option.isSome_some] at hmapped
  obtain ⟨pa, hpa⟩ := Option.isSome_iff_exists.mp hmapped
  refine ⟨pa, ?_, ?_⟩
  · obtain ⟨e, he, rfl⟩ := h.sim.place ha hpa
    rw [Proc.pageMask_add_div]
    exact h.sim.new a ha e he
  · unfold readByte Virtual.read
    rw [hpa, Option.map_some, h.sim.shows.byte a pa _ ha hpa hstale]
    rfl

theorem Filled.discloses (h : Filled f wantStack) (hlow : LowerHalf f) :
    DisclosesNothing f wantStack := by
  intro vm₀ spaces r vm hready hcreate hr bytes bytes' _ fuel heap e e' he hne he' hne' a ha
  obtain ⟨hfresh, -⟩ := freshSpace hready hcreate hr
  obtain ⟨hloadable, hload⟩ := elfLoadFile_entry hfresh hlow he hne
  obtain ⟨-, hload'⟩ := elfLoadFile_entry hfresh hlow he' hne'
  have hentry : entryOf f ≠ 0 := by
    rw [hload.entry] at he
    cases he
    exact hne
  apply readByte_eq hload hload' ha
  rw [ne_eq, finalImage_stale_iff]
  rintro ⟨hstack, hcovered, hvisits⟩
  rcases h hloadable hentry a ha hvisits with hin | hin
  · exact hstack hin
  · exact hcovered hin

/-- On a large machine, a byte that nobody writes tells two memories apart. -/
theorem DisclosesNothing.filled (h : DisclosesNothing f wantStack) (hlow : LowerHalf f) :
    Filled f wantStack := by
  intro hloadable hentry a ha hvisits
  by_contra hc
  rw [not_or] at hc
  have hstale : finalImage f wantStack a = some none :=
    finalImage_stale_iff.mpr ⟨hc.1, hc.2, hvisits⟩
  obtain ⟨hready, r, vm, hcreate, hr, hfresh, -, hample⟩ := exists_ample
  -- the free frames of one memory hold zeros, those of the other ones
  let bytes : Mem := fun _ => 0
  let bytes' : Mem := fun a => if vm.pmm.used (a / 4096) = true then 0 else 1
  have hload : Loads f wantStack {r} r ⟨vm, bytes⟩ _ :=
    elfLoadFile_enough hfresh hample (le_refl enoughFuel) hloadable hlow
  have hload' : Loads f wantStack {r} r ⟨vm, bytes'⟩ _ :=
    elfLoadFile_enough hfresh hample (le_refl enoughFuel) hloadable hlow
  have hsame := h _ _ r vm hready hcreate hr bytes bytes' (fun a ha => (if_pos ha).symm)
    enoughFuel true _ _ hload.entry hentry hload'.entry hentry a ha
  obtain ⟨pa, -, hread⟩ := readByte_stale hload ha hstale
  obtain ⟨pa', hfree, hread'⟩ := readByte_stale hload' ha hstale
  rw [hread, hread'] at hsame
  have hbyte : bytes pa = bytes' pa' := Option.some.inj hsame
  have hone : bytes' pa' = 1 := if_neg (by rw [hfree]; exact Bool.false_ne_true)
  have hzero : bytes pa = 0 := rfl
  rw [hone, hzero] at hbyte
  exact absurd hbyte (by decide)

/-- Nothing is disclosed if the segments fill their pages and stay below the kernel's half, and of
the files that stay below it exactly those disclose nothing. -/
theorem disclosesNothing_iff (f : File) (wantStack : Bool) :
    (LowerHalf f ∧ Filled f wantStack → DisclosesNothing f wantStack) ∧
      (LowerHalf f → DisclosesNothing f wantStack → Filled f wantStack) :=
  ⟨fun h => h.2.discloses h.1, fun hlow h => h.filled hlow⟩

/-- A segment of one page, which is cleared as a whole. -/
theorem disclosesNothing_wholePage : DisclosesNothing (oneSegment 0x400000 0 4096) true := by
  have hregular : Regular (oneSegment 0x400000 0 4096) :=
    oneSegment_regular (by decide) (by decide) (by decide)
  refine (disclosesNothing_iff _ true).1 ⟨hregular.lowerHalf, ?_⟩
  rintro - - a - ⟨ph, hph, hvisits⟩
  rw [premapOf64 (oneSegment_class _ _ _), elf64_visits] at hvisits
  have hone : ph = ⟨1, 0, 0x400000, 0, 4096⟩ := by
    rw [oneSegment_headers, List.mem_singleton] at hph
    exact hph
  subst hone
  right
  rw [oneSegment_headers]
  refine Or.inr ⟨?_, fun _ hq => absurd hq List.not_mem_nil⟩
  rw [byteAt_isSome]
  dsimp only at hvisits ⊢
  omega

/-- Eight bytes in a page: the rest of the page is disclosed. -/
theorem disclosesNothing_smallSegment : LowerHalf (oneSegment 0x400000 8 8) ∧
    ¬DisclosesNothing (oneSegment 0x400000 8 8) true := by
  have hregular : Regular (oneSegment 0x400000 8 8) :=
    oneSegment_regular (by decide) (by decide) (by decide)
  refine ⟨hregular.lowerHalf, ?_⟩
  intro h
  have hclass := oneSegment_class 0x400000 8 8
  have hentry : entryOf (oneSegment 0x400000 8 8) ≠ 0 := by
    unfold entryOf
    rw [if_pos hclass, oneSegment_entry]
    decide
  have hvisits : ∃ ph ∈ headers (oneSegment 0x400000 8 8),
      (premapOf (oneSegment 0x400000 8 8)).visits ph 0x400008 = true := by
    rw [oneSegment_headers, premapOf64 hclass]
    exact ⟨_, List.mem_singleton_self _, by decide⟩
  rcases h.filled hregular.lowerHalf hregular.loadable hentry 0x400008 (by decide) hvisits with
    ⟨-, hin⟩ | hcovered
  · exact absurd hin.1 (by decide)
  · rw [oneSegment_headers] at hcovered
    rcases hcovered with hc | ⟨hbyte, -⟩
    · exact hc
    · rw [byteAt_isSome] at hbyte
      exact absurd hbyte.2 (by decide)

end Kyuzen.Loader
