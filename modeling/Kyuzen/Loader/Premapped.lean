import Kyuzen.Loader.Correct

/-!
# Pages before bytes

A segment is copied after a loop that is meant to map its pages. `MappedFirst` says so of every
segment that the loader gets to: the loop ends after at most as many iterations as pages meet the
segment, and each byte of the copy goes to such a page, which is mapped. Here `Good` is what makes
this true (`mappedFirst_iff`): the copy is bounded by `p_filesz`, the loop by `p_memsz`, and for
ELF32 it maps only the first page of each block of 4 MiB, and wraps around in the last one.
-/

namespace Kyuzen.Loader

open Lib Lib.Memory
open Elf (File Phdr)
open Proc (Ready)
open Paging (State Store physAddr lowerEnd translate)

variable {f : File} {ph : Phdr} {vm : State} {spaces S : Finset Nat} {r k fuel x : Nat}
  {st₀ st : Store} {im : Image}

/-- The pages that have an address of the segment. -/
def pagesMeeting (ph : Phdr) : Nat :=
  if ph.pMemsz = 0 then 0 else (ph.pVaddr + ph.pMemsz - 1) / 4096 - ph.pVaddr / 4096 + 1

/-- The bytes that `memcpy` and `memset` write. -/
def Writes (ph : Phdr) (x : Nat) : Prop :=
  (∃ i < ph.pFilesz % 2 ^ 32, x = (ph.pVaddr + i) % 2 ^ 64) ∨
    ph.pFilesz < ph.pMemsz ∧
      ∃ i < (ph.pMemsz - ph.pFilesz) % 2 ^ 32, x = (ph.pVaddr + ph.pFilesz + i) % 2 ^ 64

/-- The pre-map loop of the file's class. -/
def premapLoop (f : File) (target fuel : Nat) (ph : Phdr) (vm : State) : Elf.Outcome × Elf.Load :=
  if f.elfClass = 2 then premap64 target fuel ph vm else premap32 target fuel ph vm

/-- One iteration of the loop over the headers. -/
def segmentStep (f : File) (target fuel : Nat) (ph : Phdr) (st : Store) : Outcome × Store :=
  if f.elfClass = 2 then segment64 f target fuel ph st else segment32 f target fuel ph st

def table (f : File) : List Phdr := if f.elfClass = 2 then f.phdrs64 else f.phdrs32

/-- The loop of this segment ends in time, and the copy finds its pages. -/
structure PagesFirst (f : File) (target : Nat) (ph : Phdr) (vm : State) : Prop where
  ends : (premapLoop f target (pagesMeeting ph + 1) ph vm).1 ≠ .spinning
  mapped : ∀ fuel, (premapLoop f target fuel ph vm).1 = .done → ∀ x, Writes ph x →
    Meets ph x ∧ (physAddr (premapLoop f target fuel ph vm).2.vm target x).isSome = true

/-- All segments of the file are mapped before they are written. -/
def MappedFirst (f : File) : Prop :=
  Valid f → ∀ vm spaces target, Ready vm spaces → target ∈ spaces → ∀ bytes fuel,
    ∀ q ∈ reached (segmentStep f target fuel) (table f) ⟨vm, bytes⟩,
      f.accepts q.1 = true → PagesFirst f target q.1 q.2.vm

/-- The file data end in the last page of the segment, and an empty segment has none. -/
structure Good64 (ph : Phdr) : Prop where
  empty : ph.pMemsz = 0 → ph.pFilesz = 0 ∧ ph.pVaddr % 4096 = 0
  fits : 0 < ph.pMemsz → ph.pVaddr + ph.pFilesz ≤ (ph.pVaddr + ph.pMemsz + 4095) / 4096 * 4096

/-- The segment lies in the first page of a block, but not of the last one. -/
structure Good32 (ph : Phdr) : Prop where
  empty : ph.pMemsz = 0 → ph.pFilesz = 0 ∧ ph.pVaddr % 0x400000 = 0
  fits : 0 < ph.pMemsz → ph.pVaddr % 0x400000 + max ph.pFilesz ph.pMemsz ≤ 4096 ∧
    ph.pVaddr + ph.pMemsz ≤ lastBlock

def Good (f : File) (ph : Phdr) : Prop := if f.elfClass = 2 then Good64 ph else Good32 ph

/-! ## The copy -/

/-- The number of bytes that are written. -/
def copied (ph : Phdr) : Nat := ph.pFilesz + (ph.pMemsz - ph.pFilesz) % 2 ^ 32

theorem writes_iff (hsize : ph.pFilesz < 2 ^ 32) (hlow : ∀ i < copied ph, ph.pVaddr + i < 2 ^ 64) :
    Writes ph x ↔ ph.pVaddr ≤ x ∧ x < ph.pVaddr + copied ph := by
  unfold Writes copied at *
  rw [Nat.mod_eq_of_lt hsize]
  constructor
  · rintro (⟨i, hi, rfl⟩ | ⟨-, i, hi, rfl⟩)
    · rw [Nat.mod_eq_of_lt (hlow i (by omega))]
      omega
    · rw [Nat.mod_eq_of_lt (by have := hlow (ph.pFilesz + i) (by omega); omega)]
      omega
  · rintro ⟨hlo, hhi⟩
    have hlt := hlow (x - ph.pVaddr) (by omega)
    by_cases hfile : x < ph.pVaddr + ph.pFilesz
    · exact Or.inl ⟨x - ph.pVaddr, by omega, by rw [Nat.mod_eq_of_lt hlt]; omega⟩
    · refine Or.inr ⟨by omega, x - (ph.pVaddr + ph.pFilesz), by omega, ?_⟩
      rw [Nat.mod_eq_of_lt (by omega)]
      omega

theorem InLowerHalf.copied_lt (h : InLowerHalf ph) {i : Nat} (hi : i < copied ph) :
    ph.pVaddr + i < lowerEnd := by
  unfold copied at hi
  by_cases hfile : i < ph.pFilesz
  · have := h.file (by omega)
    omega
  · have := h.bss (by omega) (by omega)
    omega

theorem InLowerHalf.writes_iff (h : InLowerHalf ph) (hsize : ph.pFilesz < 2 ^ 32) :
    Writes ph x ↔ ph.pVaddr ≤ x ∧ x < ph.pVaddr + copied ph := by
  apply Loader.writes_iff hsize
  intro i hi
  have hend : lowerEnd = 140737488355328 := rfl
  have := h.copied_lt hi
  omega

/-- For 32 bits, nothing is cut off. -/
theorem Fields32.copied_eq (h : Fields32 ph) : copied ph = max ph.pFilesz ph.pMemsz := by
  have hm := h.pMemsz
  unfold copied
  rw [Nat.mod_eq_of_lt (by omega)]
  omega

theorem Fields32.writes_iff (h : Fields32 ph) :
    Writes ph x ↔ ph.pVaddr ≤ x ∧ x < ph.pVaddr + max ph.pFilesz ph.pMemsz := by
  have hv := h.pVaddr
  have hf := h.pFilesz
  have hm := h.pMemsz
  rw [Loader.writes_iff hf, h.copied_eq]
  intro i hi
  rw [h.copied_eq] at hi
  omega

/-! ## The loops -/

/-- Without wrapping around, the loop for ELF64 takes no more iterations than there are pages. -/
theorem premap64_ends_by {segEnd : Nat} : ∀ {fuel page : Nat} {l : Elf.Load}, page % 4096 = 0 →
    segEnd ≤ page + (fuel - 1) * 4096 → 0 < fuel →
    (∀ p, p % 4096 = 0 → page ≤ p → p < segEnd → p < lowerEnd) →
      (Elf.premap64 r segEnd fuel page l).1 ≠ .spinning := by
  have hend : lowerEnd = 140737488355328 := rfl
  intro fuel
  induction fuel with
  | zero => exact fun _ _ hpos => absurd hpos (Nat.lt_irrefl 0)
  | succ fuel ih =>
    intro page l halign hfuel _ hpages
    rw [Elf.premap64]
    by_cases hpage : page < segEnd
    · have hlow := hpages page halign (le_refl page) hpage
      have hnext : (page + 4096) % 2 ^ 64 = page + 4096 := Nat.mod_eq_of_lt (by omega)
      have hrest : ∀ p, p % 4096 = 0 → page + 4096 ≤ p → p < segEnd → p < lowerEnd :=
        fun p hp hle => hpages p hp (by omega)
      have hfuel' : segEnd ≤ page + 4096 + (fuel - 1) * 4096 := by omega
      rw [if_pos hpage, hnext]
      dsimp only
      split_ifs
      · exact ih (by omega) hfuel' (by omega) hrest
      · exact ih (by omega) hfuel' (by omega) hrest
      · exact fun hc => by cases hc
    · rw [if_neg hpage]
      exact fun hc => by cases hc

/-- A page stays mapped when another one is. -/
theorem mapped_allocInto (h : Ready vm spaces) (hr : r ∈ spaces) {va : Nat} (hva : va < lowerEnd)
    (hx : x < lowerEnd) (hmapped : (translate vm r x).isSome = true) :
    (translate (Paging.vmmAllocPageInto vm va 7 r).2 r x).isSome = true := by
  rcases h.allocInto_cases hr hva with ⟨-, pa, vm₁, ht, hm⟩ | ⟨-, hkeep⟩
  · rw [hm.page x hx, Paging.translate_congr ht.mem]
    split_ifs
    · rfl
    · exact hmapped
  · rw [hkeep.page x]
    exact hmapped

theorem premap64_keeps {segEnd : Nat} (hr : r ∈ spaces) (hx : x < lowerEnd) :
    ∀ {fuel page : Nat} {l : Elf.Load}, Ready l.vm spaces → page % 4096 = 0 →
      (∀ p, p % 4096 = 0 → page ≤ p → p < segEnd → p < lowerEnd) →
      (translate l.vm r x).isSome = true →
      (translate (Elf.premap64 r segEnd fuel page l).2.vm r x).isSome = true := by
  have hend : lowerEnd = 140737488355328 := rfl
  intro fuel
  induction fuel with
  | zero => exact fun _ _ _ hmapped => hmapped
  | succ fuel ih =>
    intro page l h halign hpages hmapped
    rw [Elf.premap64]
    by_cases hpage : page < segEnd
    · have hlow := hpages page halign (le_refl page) hpage
      have hnext : (page + 4096) % 2 ^ 64 = page + 4096 := Nat.mod_eq_of_lt (by omega)
      have hrest : ∀ p, p % 4096 = 0 → page + 4096 ≤ p → p < segEnd → p < lowerEnd :=
        fun p hp hle => hpages p hp (by omega)
      have hmapped' := mapped_allocInto h hr hlow hx hmapped
      rw [if_pos hpage, hnext]
      dsimp only
      split_ifs
      · exact ih h (by omega) hrest hmapped
      · exact ih (h.allocInto hr page) (by omega) hrest hmapped'
      · exact hmapped'
    · rw [if_neg hpage]
      exact hmapped

/-- All pages that the loop for ELF64 visits are mapped in the end. -/
theorem premap64_maps {segEnd : Nat} (hr : r ∈ spaces) (hx : x < lowerEnd) :
    ∀ {fuel page : Nat} {l : Elf.Load}, Ready l.vm spaces → page % 4096 = 0 →
      (∀ p, p % 4096 = 0 → page ≤ p → p < segEnd → p < lowerEnd) →
      (Elf.premap64 r segEnd fuel page l).1 = .done → page ≤ x / 4096 * 4096 →
      x / 4096 * 4096 < segEnd →
      (translate (Elf.premap64 r segEnd fuel page l).2.vm r x).isSome = true := by
  have hend : lowerEnd = 140737488355328 := rfl
  intro fuel
  induction fuel with
  | zero => exact fun _ _ _ hdone => by cases hdone
  | succ fuel ih =>
    intro page l h halign hpages hdone hlo hhi
    rw [Elf.premap64] at hdone ⊢
    have hpage : page < segEnd := by omega
    have hlow := hpages page halign (le_refl page) hpage
    have hnext : (page + 4096) % 2 ^ 64 = page + 4096 := Nat.mod_eq_of_lt (by omega)
    have hrest : ∀ p, p % 4096 = 0 → page + 4096 ≤ p → p < segEnd → p < lowerEnd :=
      fun p hp hle => hpages p hp (by omega)
    rw [if_pos hpage, isMapped_iff h hr, hnext] at hdone ⊢
    dsimp only at hdone ⊢
    split_ifs at hdone ⊢ with hmapped hok
    · by_cases hsame : page / 4096 = x / 4096
      · rw [Paging.translate_page hlow hx hsame] at hmapped
        exact premap64_keeps hr hx h (by omega) hrest hmapped
      · exact ih h (by omega) hrest hdone (by omega) hhi
    · have hready := h.allocInto hr page
      by_cases hsame : page / 4096 = x / 4096
      · have hnew : (translate (Paging.vmmAllocPageInto l.vm page 7 r).2 r x).isSome = true := by
          rcases h.allocInto_cases hr hlow with ⟨-, pa, vm₁, -, hm⟩ | ⟨hfail, -⟩
          · rw [hm.page x hx, if_pos hsame]
            rfl
          · rw [hfail] at hok
            cases hok
        exact premap64_keeps hr hx hready (by omega) hrest hnew
      · exact ih hready (by omega) hrest hdone (by omega) hhi

/-- The loop for ELF32 ends before the last block. -/
theorem premap32_one {segEnd block : Nat} (hblock : block < segEnd)
    (hend : segEnd ≤ block + 0x400000) (hlast : segEnd ≤ lastBlock) (fuel : Nat) (l : Elf.Load) :
    Elf.premap32 r segEnd (fuel + 2) block l =
      (if (Paging.vmmAllocPageInto l.vm block 7 r).1 = true then .done else .failed,
        ⟨(Paging.vmmAllocPageInto l.vm block 7 r).2, l.log ++ [.map block]⟩) := by
  have hbound : lastBlock = 4290772992 := rfl
  have hnext : (block + 0x400000) % 2 ^ 32 = block + 0x400000 := Nat.mod_eq_of_lt (by omega)
  rw [Elf.premap32, if_pos hblock, hnext]
  dsimp only
  split_ifs
  · rw [Elf.premap32, if_neg (by omega)]
  · rfl

/-! ## Good segments -/

theorem premapLoop64 (hclass : f.elfClass = 2) (target fuel : Nat) (ph : Phdr) (vm : State) :
    premapLoop f target fuel ph vm = premap64 target fuel ph vm := if_pos hclass

theorem premapLoop32 (hclass : f.elfClass = 1) (target fuel : Nat) (ph : Phdr) (vm : State) :
    premapLoop f target fuel ph vm = premap32 target fuel ph vm := if_neg (by omega)

theorem Good64.meets (h : Good64 ph) (hlo : ph.pVaddr ≤ x) (hhi : x < ph.pVaddr + copied ph) :
    Meets ph x := by
  unfold copied at hhi
  by_cases hempty : ph.pMemsz = 0
  · have := h.empty hempty
    omega
  · have hfits := h.fits (by omega)
    by_cases hin : x < ph.pVaddr + ph.pMemsz
    · exact ⟨x, rfl, hlo, hin⟩
    · refine ⟨ph.pVaddr + ph.pMemsz - 1, ?_, by omega, by omega⟩
      omega

theorem Good64.pagesFirst (h : Good64 ph) (hclass : f.elfClass = 2) (hlow : InLowerHalf ph)
    (hsize : ph.pFilesz < 2 ^ 32) (hready : Ready vm spaces) (hr : r ∈ spaces) :
    PagesFirst f r ph vm := by
  have hpages : ∀ p, p % 4096 = 0 → ph.pVaddr / 4096 * 4096 ≤ p → p < ph.pVaddr + ph.pMemsz →
      p < lowerEnd := fun p hp hlo hhi => hlow.pages p ⟨hp, hlo, hhi⟩
  refine ⟨?_, ?_⟩
  · rw [premapLoop64 hclass]
    apply premap64_ends_by (Nat.mul_mod_left _ _) _ (Nat.succ_pos _) hpages
    have hempty := h.empty
    unfold pagesMeeting
    split_ifs with hzero
    · have := hempty hzero
      omega
    · omega
  · intro fuel hdone x hx
    rw [premapLoop64 hclass] at hdone ⊢
    obtain ⟨hlo, hhi⟩ := (hlow.writes_iff hsize).mp hx
    have hxlow : x < lowerEnd := by
      have := hlow.copied_lt (i := x - ph.pVaddr) (by omega)
      omega
    have hmeets := h.meets hlo hhi
    obtain ⟨hlo', hhi'⟩ := elf64_visits.mp hmeets.visits
    refine ⟨hmeets, ?_⟩
    rw [physAddr_isSome hxlow]
    exact premap64_maps hr hxlow hready (Nat.mul_mod_left _ _) hpages hdone hlo' hhi'

theorem Good32.pagesFirst (h : Good32 ph) (hclass : f.elfClass = 1) (hfields : Fields32 ph)
    (hready : Ready vm spaces) (hr : r ∈ spaces) : PagesFirst f r ph vm := by
  have hlast : lastBlock = 4290772992 := rfl
  have hlower : lowerEnd = 140737488355328 := rfl
  have hv := hfields.pVaddr
  have hm := hfields.pMemsz
  by_cases hzero : ph.pMemsz = 0
  · obtain ⟨hfilesz, halign⟩ := h.empty hzero
    refine ⟨?_, ?_⟩
    · have hpages : pagesMeeting ph = 0 := if_pos hzero
      rw [premapLoop32 hclass, hpages, premap32, Elf.premap32, if_neg (by omega)]
      exact fun hc => by cases hc
    · intro fuel _ x hx
      rw [hfields.writes_iff] at hx
      omega
  · obtain ⟨hfits, hend⟩ := h.fits (by omega)
    have hsegEnd : (ph.pVaddr + ph.pMemsz) % 2 ^ 32 = ph.pVaddr + ph.pMemsz :=
      Nat.mod_eq_of_lt (by omega)
    have hblock : ph.pVaddr / 0x400000 * 0x400000 < ph.pVaddr + ph.pMemsz := by omega
    have hone := premap32_one (r := r) hblock (by omega) hend
    refine ⟨?_, ?_⟩
    · have hpages : pagesMeeting ph + 1 = 0 + 2 := by
        unfold pagesMeeting
        rw [if_neg hzero]
        omega
      rw [premapLoop32 hclass, hpages, premap32, hsegEnd, hone]
      split_ifs
      · exact fun hc => by cases hc
      · exact fun hc => by cases hc
    · intro fuel hdone x hx
      rw [hfields.writes_iff] at hx
      rw [premapLoop32 hclass] at hdone ⊢
      rw [premap32, hsegEnd] at hdone ⊢
      have hxlow : x < lowerEnd := by omega
      refine ⟨⟨ph.pVaddr, by omega, le_refl _, by omega⟩, ?_⟩
      rw [physAddr_isSome hxlow]
      cases fuel with
      | zero => cases hdone
      | succ fuel =>
        cases fuel with
        | zero =>
          rw [Elf.premap32, if_pos (by omega)] at hdone
          dsimp only at hdone
          split_ifs at hdone
          cases hdone
        | succ fuel =>
          rw [hone] at hdone ⊢
          rcases hready.allocInto_cases hr
            (show ph.pVaddr / 0x400000 * 0x400000 < lowerEnd by omega) with
            ⟨-, pa, vm₁, -, hm⟩ | ⟨hfail, -⟩
          · rw [hm.page x hxlow, if_pos (by omega)]
            rfl
          · rw [hfail] at hdone
            cases hdone

/-! ## The segments that the loader gets to -/

theorem copyMapped_vm {bytes : Mem} (out : Elf.Outcome × Elf.Load) :
    (copyMapped f r ph bytes out).2.vm = out.2.vm := by
  obtain ⟨o, l⟩ := out
  cases o with
  | spinning => rfl
  | failed => rfl
  | done =>
    unfold copyMapped
    dsimp only
    cases copySegment f (physAddr l.vm r) ph bytes with
    | none => rfl
    | some bytes' => rfl

theorem segmentStep_ready (hr : r ∈ spaces) (h : Ready st.vm spaces) :
    Ready (segmentStep f r fuel ph st).2.vm spaces := by
  unfold segmentStep segment64 segment32
  split_ifs
  all_goals try exact h
  · rw [copyMapped_vm]
    exact Proc.premap64_ready hr h
  · rw [copyMapped_vm]
    exact Proc.premap32_ready hr h

/-- Each of them is one that the loader accepts, or the last. -/
theorem mem_reached {segment : Phdr → Store → Outcome × Store} {I : Store → Prop}
    (hstep : ∀ ph st, I st → I (segment ph st).2) :
    ∀ {phs : List Phdr} {st : Store},
      (∀ ph ∈ phs, ∀ st, (segment ph st).1 = .done → f.accepts ph = true) → I st →
      ∀ q ∈ reached segment phs st,
        I q.2 ∧ q.1 ∈ phs ∧ (f.accepts q.1 = true → q.1 ∈ f.accepted phs) := by
  intro phs
  induction phs with
  | nil => exact fun _ _ q hq => absurd hq List.not_mem_nil
  | cons ph rest ih =>
    intro st hacc h q hq
    have hacc' := fun q hq => hacc q (List.mem_cons_of_mem ph hq)
    rw [reached] at hq
    rw [File.accepted]
    by_cases htype : ph.pType = 1
    · rw [if_neg (not_not.mpr htype)] at hq ⊢
      rcases List.mem_cons.mp hq with rfl | hq
      · refine ⟨h, List.mem_cons_self, ?_⟩
        intro hq
        rw [if_pos hq]
        exact List.mem_cons_self
      · have hone := hacc ph List.mem_cons_self st
        have hnext := hstep ph st h
        revert hq hone hnext
        generalize segment ph st = out
        obtain ⟨o, st₁⟩ := out
        intro hq hone hnext
        cases o with
        | spinning => exact absurd hq List.not_mem_nil
        | failed => exact absurd hq List.not_mem_nil
        | faulted => exact absurd hq List.not_mem_nil
        | done =>
          obtain ⟨hI, hmem, hin⟩ := ih hacc' hnext q hq
          refine ⟨hI, List.mem_cons_of_mem ph hmem, ?_⟩
          intro hq
          rw [if_pos (hone rfl)]
          exact List.mem_cons_of_mem ph (hin hq)
    · rw [if_pos htype] at hq ⊢
      obtain ⟨hI, hmem, hin⟩ := ih hacc' h q hq
      exact ⟨hI, List.mem_cons_of_mem ph hmem, hin⟩

theorem table64 (h : f.elfClass = 2) : table f = f.phdrs64 := if_pos h

theorem table32 (h : f.elfClass = 1) : table f = f.phdrs32 := if_neg (by omega)

theorem Valid.class (h : Valid f) : f.elfClass = 2 ∨ f.elfClass = 1 := by
  rcases h.fits with ⟨hclass, -⟩ | ⟨hclass, -⟩
  · exact Or.inl hclass
  · exact Or.inr hclass

theorem segmentStep_accepts (hvalid : Valid f) (hph : ph ∈ table f) {target : Nat}
    (hdone : (segmentStep f target fuel ph st).1 = .done) : f.accepts ph = true := by
  unfold segmentStep at hdone
  rcases hvalid.class with hclass | hclass
  · rw [if_pos hclass] at hdone
    exact segment64_accepts hdone
  · rw [if_neg (by omega)] at hdone
    rw [table32 hclass] at hph
    exact (segment32_ends (fields32 f hph) hdone).1

/-- Good segments are mapped before they are written. -/
theorem mappedFirst_of_good (hlow : LowerHalf f)
    (h : Valid f → ∀ ph ∈ f.accepted (table f), Good f ph) : MappedFirst f := by
  intro hvalid vm spaces target hready hmem bytes fuel q hq hacc
  obtain ⟨hready', hph, hin⟩ := mem_reached (f := f) (I := fun st => Ready st.vm spaces)
    (fun _ _ hst => segmentStep_ready hmem hst)
    (fun ph hph st hdone => segmentStep_accepts hvalid hph hdone) hready q hq
  have hgood := h hvalid q.1 (hin hacc)
  unfold Good at hgood
  rcases hvalid.class with hclass | hclass
  · rw [if_pos hclass] at hgood
    have hinlow := hin hacc
    rw [table64 hclass] at hinlow
    exact hgood.pagesFirst hclass (hlow (hvalid.elf64 hclass) _ hinlow)
      (holds_lt (accepts_holds hacc)) hready' hmem
  · rw [if_neg (by omega)] at hgood
    rw [table32 hclass] at hph
    exact hgood.pagesFirst hclass (fields32 f hph) hready' hmem

/-! ## With enough memory -/

theorem good64_of_pagesFirst (hclass : f.elfClass = 2) (hample : Ample st.vm spaces r lowerPages k)
    (hlow : InLowerHalf ph) (hsize : ph.pFilesz < 2 ^ 32) (h : PagesFirst f r ph st.vm) :
    Good64 ph := by
  have hends : (premapLoop f r enoughFuel ph st.vm).1 = .done := by
    rw [premapLoop64 hclass]
    exact (premap64_ends hample (le_refl _) fun p hp => mem_lowerPages (hlow.pages p hp)).1
  have hmeets : ∀ x, ph.pVaddr ≤ x → x < ph.pVaddr + ph.pFilesz → Meets ph x := by
    intro x hlo hhi
    refine (h.mapped enoughFuel hends x ((hlow.writes_iff hsize).mpr ⟨hlo, ?_⟩)).1
    unfold copied
    omega
  refine ⟨?_, ?_⟩
  · intro hzero
    constructor
    · by_contra hpos
      obtain ⟨x, -, hlo, hhi⟩ := hmeets ph.pVaddr (le_refl _) (by omega)
      omega
    · by_contra hunaligned
      -- one iteration for no page
      have hpage : ph.pVaddr / 4096 * 4096 < ph.pVaddr + ph.pMemsz := by omega
      have hlt := hlow.pages _ ⟨Nat.mul_mod_left _ _, le_refl _, hpage⟩
      have hpages : pagesMeeting ph = 0 := if_pos hzero
      apply h.ends
      rw [premapLoop64 hclass, hpages, premap64, Elf.premap64, if_pos hpage,
        isMapped_iff hample.roomy.ready hample.roomy.mem]
      split_ifs with hmapped
      · rfl
      · obtain ⟨pa, vm₁, vm₂, hok, -, -, -⟩ := hample.allocNew (Nat.mul_mod_left _ _)
          (mem_lowerPages hlt) (Option.not_isSome_iff_eq_none.mp hmapped)
        rw [hok]
        rfl
  · intro hpos
    by_contra hfits
    obtain ⟨x, hx, hlo, hhi⟩ := hmeets (ph.pVaddr + ph.pFilesz - 1) (by omega) (by omega)
    omega

/-- A segment that reaches into the last block keeps its loop busy. -/
theorem premap32_spins {segEnd : Nat} (hend : lastBlock < segEnd) :
    ∀ {fuel block : Nat} {l : Elf.Load}, Ample l.vm spaces r S (4 * fuel) →
      block % 0x400000 = 0 → block < 2 ^ 32 →
      (Elf.premap32 r segEnd fuel block l).1 = .spinning := by
  have hlast : lastBlock = 4290772992 := rfl
  have hlower : lowerEnd = 140737488355328 := rfl
  intro fuel
  induction fuel with
  | zero => exact fun _ _ _ => rfl
  | succ fuel ih =>
    intro block l h halign hlt
    obtain ⟨pa, vm₁, vm₂, hok, -, -, hample⟩ := h.allocInto (k := 4 * fuel)
      (show block < lowerEnd by omega)
    have halign' : (block + 0x400000) % 2 ^ 32 % 0x400000 = 0 := by omega
    rw [Elf.premap32, if_pos (by omega), hok]
    exact ih (l := ⟨vm₂, l.log ++ [.map block]⟩) hample halign' (Nat.mod_lt _ (by decide))

/-- Only the first pages of blocks are mapped. -/
def BlockPages (im : Image) : Prop :=
  ∀ x, (im x).isSome = true → x / 4096 * 4096 % 0x400000 = 0

theorem BlockPages.remap (h : BlockPages im) (lo hi : Nat) : BlockPages (remap im lo hi) := by
  intro x hx
  rw [remap_apply] at hx
  split_ifs at hx with hnew
  · exact hnew.1
  · exact h x hx

theorem pagesMeeting_le (h : Fields32 ph) : pagesMeeting ph + 1 ≤ 2 ^ 21 := by
  have hv := h.pVaddr
  have hm := h.pMemsz
  unfold pagesMeeting
  split_ifs
  · omega
  · omega

theorem good32_of_pagesFirst (hclass : f.elfClass = 1) (hsim : Sim r st₀ st im)
    (hblocks : BlockPages im) (hample : Ample st.vm spaces r S (2 ^ 23)) (hfields : Fields32 ph)
    (h : PagesFirst f r ph st.vm) : Good32 ph := by
  have hlast : lastBlock = 4290772992 := rfl
  have hlower : lowerEnd = 140737488355328 := rfl
  have hv := hfields.pVaddr
  have hm := hfields.pMemsz
  have hloop := premapLoop32 hclass r
  -- the loop ends before the last block, and maps first pages only
  have hend : (ph.pVaddr + ph.pMemsz) % 2 ^ 32 ≤ lastBlock := by
    by_contra hc
    have hcost := pagesMeeting_le hfields
    have hspare : Ample st.vm spaces r S (4 * (pagesMeeting ph + 1)) := hample.mono (by omega)
    apply h.ends
    rw [hloop]
    exact premap32_spins (l := ⟨st.vm, []⟩) (Nat.lt_of_not_le hc) hspare (Nat.mul_mod_left _ _)
      (by omega)
  obtain ⟨fuel, hdone⟩ : ∃ fuel, (premapLoop f r fuel ph st.vm).1 = .done := by
    refine ⟨enoughFuel, ?_⟩
    rw [hloop]
    exact (premap32_ends (k := 0) (hample.mono (by omega)) (le_refl _) hend).1
  have hfirst : ∀ x, ph.pVaddr ≤ x → x < ph.pVaddr + max ph.pFilesz ph.pMemsz →
      Meets ph x ∧ x / 4096 * 4096 % 0x400000 = 0 := by
    intro x hlo hhi
    have hf := hfields.pFilesz
    have hxlow : x < lowerEnd := by omega
    obtain ⟨hmeets, hmapped⟩ := h.mapped fuel hdone x (hfields.writes_iff.mpr ⟨hlo, hhi⟩)
    refine ⟨hmeets, ?_⟩
    rw [hloop] at hmapped hdone
    have halign : ph.pVaddr / 0x400000 * 0x400000 % 0x400000 = 0 := Nat.mul_mod_left _ _
    have hsim' := Sim.premap32 (l := ⟨st.vm, []⟩) hample.roomy.mem hend hsim hample.roomy.ready
      halign hdone
    rw [premap32, hsim'.shows.mapped x hxlow] at hmapped
    exact hblocks.remap _ _ x hmapped
  refine ⟨?_, ?_⟩
  · intro hzero
    constructor
    · by_contra hpos
      obtain ⟨⟨x, -, hlo, hhi⟩, -⟩ := hfirst ph.pVaddr (le_refl _) (by omega)
      omega
    · by_contra hunaligned
      have hpages : pagesMeeting ph = 0 := if_pos hzero
      obtain ⟨pa, vm₁, vm₂, hok, -, -, -⟩ := Ample.allocInto (k := 0)
        (hample.mono (by omega)) (show ph.pVaddr / 0x400000 * 0x400000 < lowerEnd by omega)
      apply h.ends
      rw [hloop, hpages, premap32, Elf.premap32, if_pos (by omega), hok]
      rfl
  · intro hpos
    have hone : ph.pVaddr % 0x400000 + max ph.pFilesz ph.pMemsz ≤ 4096 := by
      by_contra hc
      by_cases hstart : ph.pVaddr % 0x400000 < 4096
      · obtain ⟨-, hpage⟩ := hfirst (ph.pVaddr / 0x400000 * 0x400000 + 4096) (by omega) (by omega)
        omega
      · obtain ⟨-, hpage⟩ := hfirst ph.pVaddr (le_refl _) (by omega)
        omega
    refine ⟨hone, ?_⟩
    omega

theorem Proceeds.done {out : Outcome × Store} (h : Proceeds spaces r st₀ S k out (some im)) :
    ∃ st, out = (.done, st) ∧ Sim r st₀ st im ∧ Ample st.vm spaces r S k := by
  rcases h with ⟨st, im', heq, him, hsim, hample⟩ | ⟨-, hnone⟩
  · cases him
    exact ⟨st, heq, hsim, hample⟩
  · cases hnone

theorem Good64.image (h : Good64 ph) (hwrap : NoWrap ph) (im : Image) :
    ∃ im', segmentImage64 f ph im = some im' := by
  refine ⟨overlay f ph (elf64.enter ph im), ?_⟩
  rw [segmentImage64_eq]
  apply (copyImage_eq_some hwrap).mpr
  refine ⟨?_, rfl⟩
  intro x hx
  rw [byteAt_isSome] at hx
  exact (enter_isSome x).mpr (Or.inr (h.meets hx.1 (by unfold copied; omega)).visits)

theorem Good32.image (h : Good32 ph) (hfields : Fields32 ph) (hblocks : BlockPages im) :
    ∃ im', segmentImage32 f ph im = some im' ∧ BlockPages im' := by
  have hlast : lastBlock = 4290772992 := rfl
  have hv := hfields.pVaddr
  have hm := hfields.pMemsz
  have hwrites : ∀ x, (byteAt f ph x).isSome = true → elf32.visits ph x = true := by
    intro x hx
    rw [byteAt_isSome] at hx
    have hcopied := hfields.copied_eq
    unfold copied at hcopied
    have hpos : 0 < ph.pMemsz := by
      by_contra hzero
      have := h.empty (by omega)
      omega
    obtain ⟨hone, hend⟩ := h.fits hpos
    apply decide_eq_true
    omega
  have hsome : ∀ x, (byteAt f ph x).isSome = true → (elf32.enter ph im x).isSome = true :=
    fun x hx => (enter_isSome x).mpr (Or.inr (hwrites x hx))
  refine ⟨overlay f ph (elf32.enter ph im), ?_, ?_⟩
  · rw [segmentImage32_eq]
    exact (copyImage_eq_some hfields.noWrap).mpr ⟨hsome, rfl⟩
  · intro x hx
    rw [overlay_isSome hsome, enter_isSome] at hx
    rcases hx with hold | hnew
    · exact hblocks x hold
    · exact (of_decide_eq_true hnew).1

theorem Good32.ends (h : Good32 ph) (hfields : Fields32 ph) :
    (ph.pVaddr + ph.pMemsz) % 2 ^ 32 ≤ lastBlock := by
  have hlast : lastBlock = 4290772992 := rfl
  have hv := hfields.pVaddr
  by_cases hzero : ph.pMemsz = 0
  · have := h.empty hzero
    omega
  · have := h.fits (by omega)
    omega

/-- If every segment that is reached gives what the next one needs, all are reached. -/
theorem good_of_reached {segment : Phdr → Store → Outcome × Store} {I : Nat → Store → Prop}
    {P : Phdr → Store → Prop} {R Q : Phdr → Prop} (hmono : ∀ n st, I (n + 1) st → I n st)
    (hstep : ∀ ph st n, I (n + 1) st → R ph → f.accepts ph = true → P ph st →
      Q ph ∧ ∃ st', segment ph st = (.done, st') ∧ I n st') :
    ∀ {phs : List Phdr} {st : Store}, I phs.length st → (∀ ph ∈ f.accepted phs, R ph) →
      (∀ q ∈ reached segment phs st, f.accepts q.1 = true → P q.1 q.2) →
      ∀ ph ∈ f.accepted phs, Q ph := by
  intro phs
  induction phs with
  | nil => exact fun _ _ _ ph hph => absurd hph List.not_mem_nil
  | cons ph rest ih =>
    intro st hI hR hP
    rw [File.accepted] at hR ⊢
    rw [reached] at hP
    by_cases htype : ph.pType = 1
    · rw [if_neg (not_not.mpr htype)] at hR hP ⊢
      by_cases hacc : f.accepts ph = true
      · rw [if_pos hacc] at hR ⊢
        obtain ⟨hQ, st', heq, hI'⟩ := hstep ph st rest.length hI (hR ph List.mem_cons_self) hacc
          (hP _ List.mem_cons_self hacc)
        rw [heq] at hP
        intro q hq
        rcases List.mem_cons.mp hq with rfl | hq
        · exact hQ
        · exact ih hI' (fun q hq => hR q (List.mem_cons_of_mem ph hq))
            (fun q hq => hP q (List.mem_cons_of_mem _ hq)) q hq
      · rw [if_neg hacc]
        exact fun q hq => absurd hq List.not_mem_nil
    · rw [if_pos htype] at hR hP ⊢
      exact ih (hmono _ _ hI) hR hP

theorem accepted_sub : ∀ {phs : List Phdr}, ∀ ph ∈ f.accepted phs, ph ∈ phs := by
  intro phs
  induction phs with
  | nil => exact fun ph hph => hph
  | cons q rest ih =>
    intro ph hph
    rw [File.accepted] at hph
    split_ifs at hph
    · exact List.mem_cons_of_mem q (ih ph hph)
    · rcases List.mem_cons.mp hph with rfl | hph
      · exact List.mem_cons_self
      · exact List.mem_cons_of_mem q (ih ph hph)
    · exact absurd hph List.not_mem_nil

/-- On the large machine the loader gets to every segment that it accepts. -/
theorem good_of_mappedFirst (hlow : LowerHalf f) (h : MappedFirst f) (hvalid : Valid f) :
    ∀ ph ∈ f.accepted (table f), Good f ph := by
  obtain ⟨hready, r, vm, hcreate, hr, hfresh, -, hample⟩ := exists_ample
  have hsim := hfresh.sim fun _ => 0
  obtain ⟨fuel, henough⟩ : ∃ fuel, enoughFuel ≤ fuel := ⟨enoughFuel, le_refl _⟩
  have hreached := h hvalid vm {r} r hfresh.ready hfresh.mem (fun _ => 0) fuel
  rcases hvalid.class with hclass | hclass
  · have hseg : segmentStep f r fuel = segment64 f r fuel := by
      ext1 ph
      ext1 st
      exact if_pos hclass
    rw [hseg] at hreached
    rw [table64 hclass] at hreached ⊢
    refine good_of_reached (I := fun _ st => ∃ im, Sim r ⟨vm, fun _ => 0⟩ st im ∧
      Ample st.vm {r} r lowerPages 0) (P := fun ph st => PagesFirst f r ph st.vm)
      (R := InLowerHalf) (fun _ _ hI => hI) ?_
      ⟨_, hsim, hample.mono (Nat.zero_le _)⟩ (hlow (hvalid.elf64 hclass)) hreached
    rintro ph st n ⟨im, hsim, hample⟩ hin hacc hfirst
    have hsize := holds_lt (accepts_holds hacc)
    have hgood := good64_of_pagesFirst hclass hample hin hsize hfirst
    refine ⟨(if_pos hclass).mpr hgood, ?_⟩
    obtain ⟨im', him⟩ := hgood.image (f := f) (hin.noWrap hsize) im
    have hstep := hsim.segment64_proceeds hample henough hacc hin
      fun p hp => mem_lowerPages (hin.pages p hp)
    rw [him] at hstep
    obtain ⟨st', heq, hsim', hample'⟩ := hstep.done
    exact ⟨st', heq, im', hsim', hample'⟩
  · have hseg : segmentStep f r fuel = segment32 f r fuel := by
      ext1 ph
      ext1 st
      exact if_neg (by omega)
    have hlen := phdrs32_length f
    rw [hseg] at hreached
    rw [table32 hclass] at hreached ⊢
    refine good_of_reached (I := fun n st => ∃ im, Sim r ⟨vm, fun _ => 0⟩ st im ∧ BlockPages im ∧
      Ample st.vm {r} r lowerPages (2 ^ 23 + 4096 * n))
      (P := fun ph st => PagesFirst f r ph st.vm) (R := Fields32) ?_ ?_
      ⟨_, hsim, fun x hx => (by cases hx), hample.mono (by omega)⟩
      (fun ph hph => fields32 f (accepted_sub ph hph)) hreached
    · rintro n st ⟨im, hsim, hblocks, hample⟩
      exact ⟨im, hsim, hblocks, hample.mono (by omega)⟩
    · rintro ph st n ⟨im, hsim, hblocks, hample⟩ hfields hacc hfirst
      have hgood := good32_of_pagesFirst hclass hsim hblocks (hample.mono (by omega)) hfields
        hfirst
      refine ⟨(if_neg (by omega)).mpr hgood, ?_⟩
      obtain ⟨im', him, hblocks'⟩ := hgood.image (f := f) hfields hblocks
      have hstep := hsim.segment32_proceeds (k := 2 ^ 23 + 4096 * n) (hample.mono (by omega))
        henough (accepts_holds hacc) hfields (hgood.ends hfields)
      rw [him] at hstep
      obtain ⟨st', heq, hsim', hample'⟩ := hstep.done
      exact ⟨st', heq, im', hsim', hblocks', hample'⟩

/-- Good segments below the kernel's half are mapped before they are written, and of the files
that stay below it exactly those with good segments do so. -/
theorem mappedFirst_iff (f : File) :
    (LowerHalf f ∧ (Valid f → ∀ ph ∈ f.accepted (table f), Good f ph) → MappedFirst f) ∧
      (LowerHalf f → MappedFirst f → Valid f → ∀ ph ∈ f.accepted (table f), Good f ph) :=
  ⟨fun h => mappedFirst_of_good h.1 h.2, good_of_mappedFirst⟩

/-- Eight bytes at the start of a page. -/
theorem mappedFirst_oneSegment : MappedFirst (oneSegment 0x400000 8 8) := by
  have hregular : Regular (oneSegment 0x400000 8 8) :=
    oneSegment_regular (by decide) (by decide) (by decide)
  refine (mappedFirst_iff _).1 ⟨hregular.lowerHalf, ?_⟩
  intro _ ph hph
  have hmem := accepted_sub ph hph
  rw [table64 (oneSegment_class _ _ _), oneSegment_phdrs, List.mem_singleton] at hmem
  subst hmem
  apply (if_pos (oneSegment_class _ _ _)).mpr
  exact ⟨fun hzero => absurd hzero (by decide), fun _ => by decide⟩

/-- Eight bytes of a segment without a length are written to a page that is not mapped. -/
theorem mappedFirst_noLength : LowerHalf (oneSegment 0x400000 8 0) ∧
    ¬MappedFirst (oneSegment 0x400000 8 0) := by
  have hclass := oneSegment_class 0x400000 8 0
  have haccepted : (oneSegment 0x400000 8 0).accepted (oneSegment 0x400000 8 0).phdrs64 =
      [⟨1, 0, 0x400000, 8, 0⟩] := by
    rw [oneSegment_phdrs]
    rfl
  have hlow : LowerHalf (oneSegment 0x400000 8 0) := by
    intro _ ph hph
    rw [haccepted, List.mem_singleton] at hph
    subst hph
    refine ⟨?_, fun _ => by decide, fun hlt => absurd hlt (by decide)⟩
    rintro p ⟨-, hlo, hhi⟩
    dsimp only at hlo hhi
    omega
  refine ⟨hlow, ?_⟩
  intro h
  have hgood := good_of_mappedFirst hlow h (oneSegment_valid _ _ _) ⟨1, 0, 0x400000, 8, 0⟩ (by
    rw [table64 hclass, haccepted]
    exact List.mem_singleton_self _)
  have hempty := ((if_pos hclass).mp hgood : Good64 _).empty rfl
  exact absurd hempty.1 (by decide)

end Kyuzen.Loader
