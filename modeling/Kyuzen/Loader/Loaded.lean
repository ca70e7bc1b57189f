import Kyuzen.Loader.Enough
import Kyuzen.Loader.Files

/-!
# Loads that succeed

A load into a fresh address space that returns an entry point has gone through a file that can be
loaded, and has left its image (`elfLoadFile_entry`). With enough memory every file that can be
loaded gets that far (`elfLoadFile_enough`).
-/

namespace Kyuzen.Loader

open Lib Lib.Memory
open Elf (File Phdr userStackSize userStackTop)
open Proc (Ready)
open Paging (State Store lowerEnd translate freePages)

variable {vm : State} {spaces S : Finset Nat} {r fuel k : Nat} {st₀ st : Store} {f : File}
  {ph : Phdr} {im : Image}

/-- The load has gone through, and has left the image of the file. -/
structure Loads (f : File) (wantStack : Bool) (spaces : Finset Nat) (r : Nat) (st₀ : Store)
    (res : Result) : Prop where
  entry : res.entry = some (entryOf f)
  stackTop : res.stackTop = if stackOf f wantStack = true then userStackTop else 0
  ready : Ready res.store.vm spaces
  sim : Sim r st₀ res.store (finalImage f wantStack)

/-! ## What has been loaded -/

theorem segments_done {segment : Phdr → Store → Outcome × Store} {Q : Phdr → Prop} :
    ∀ {phs : List Phdr} {st : Store}, (∀ ph ∈ phs, ∀ st, (segment ph st).1 = .done → Q ph) →
      (segments segment phs st).1 = .done → ∀ ph ∈ loads phs, Q ph := by
  intro phs
  induction phs with
  | nil => exact fun _ _ ph hph => absurd hph List.not_mem_nil
  | cons ph rest ih =>
    intro st h hdone
    have h' := fun q hq => h q (List.mem_cons_of_mem ph hq)
    rw [segments] at hdone
    by_cases htype : ph.pType = 1
    · rw [if_neg (not_not.mpr htype)] at hdone
      have hone := h ph List.mem_cons_self st
      revert hdone hone
      generalize segment ph st = out
      obtain ⟨o, st₁⟩ := out
      intro hdone hone q hq
      cases o with
      | spinning => cases hdone
      | failed => cases hdone
      | faulted => cases hdone
      | done =>
        rcases List.mem_cons.mp (mem_loads.mp hq).1 with rfl | hmem
        · exact hone rfl
        · exact ih h' hdone q (mem_loads.mpr ⟨hmem, (mem_loads.mp hq).2⟩)
    · rw [if_pos htype] at hdone
      intro q hq
      obtain ⟨hmem, hone⟩ := mem_loads.mp hq
      rcases List.mem_cons.mp hmem with rfl | hmem
      · exact absurd hone htype
      · exact ih h' hdone q (mem_loads.mpr ⟨hmem, hone⟩)

theorem accepts32 (hfields : Fields32 ph) : f.accepts ph = f.holds ph := by
  have hv := hfields.pVaddr
  have hm := hfields.pMemsz
  unfold File.accepts
  rw [decide_eq_true (by omega), Bool.true_and]

theorem segment32_ends (hfields : Fields32 ph) (h : (segment32 f r fuel ph st).1 = .done) :
    f.accepts ph = true ∧ (ph.pVaddr + ph.pMemsz) % 2 ^ 32 ≤ lastBlock := by
  have hv := hfields.pVaddr
  unfold segment32 at h
  split_ifs at h with hholds
  rw [Bool.not_eq_true, Bool.not_eq_false'] at hholds
  refine ⟨(accepts32 hfields).trans hholds, ?_⟩
  by_contra hend
  have hendless : (premap32 r fuel ph st.vm).1 ≠ .done :=
    premap32_endless (Nat.lt_of_not_le hend) _ _ _ (Nat.mul_mod_left _ _) (by omega)
  revert h hendless
  generalize premap32 r fuel ph st.vm = out
  obtain ⟨o, l⟩ := out
  intro h hendless
  cases o with
  | spinning => cases h
  | failed => cases h
  | done => exact hendless rfl

/-- The segments that the load has gone through make the file loadable, and leave its image. -/
theorem Loadable.of_image {phs : List Phdr} (hvalid : Valid f) (hlow : LowerHalf f)
    (hheaders : headers f = loads phs) (hacc : ∀ ph ∈ headers f, f.accepts ph = true)
    (hends : ∀ ph ∈ headers f, Ends f ph)
    (him : segmentImages ((premapOf f).segment f) phs Image.empty = some im) :
    Loadable f ∧ im = build f (premapOf f) (headers f) Image.empty := by
  rw [segmentImages_loads, ← hheaders] at him
  have htype : ∀ ph ∈ headers f, ph.pType = 1 := by
    intro ph hph
    rw [hheaders] at hph
    exact (mem_loads.mp hph).2
  obtain ⟨hlands, rfl⟩ :=
    (segmentImages_eq_some (headers_noWrap hvalid hlow hacc) htype).mp him
  refine ⟨⟨hvalid, hacc, hends, ?_⟩, rfl⟩
  refine (lands_congr ?_ _).mp hlands
  intro x
  simp [Image.empty]

/-! ## The end of a load -/

theorem finish64_failed {wantStack : Bool} {e : Nat}
    (hstack : (mapStack r Elf.stackPages st).1 = false) (hwant : wantStack = true)
    (he : (finish64 f wantStack r (.done, st)).entry = some e) : e = 0 := by
  subst hwant
  rw [finish64] at he
  revert he hstack
  generalize mapStack r Elf.stackPages st = out
  obtain ⟨ok, st'⟩ := out
  intro hstack he
  cases hstack
  exact (Option.some.inj he).symm

theorem finish64_loads {wantStack : Bool} (hr : r ∈ spaces) (hclass : f.elfClass = 2)
    (hready : Ready st.vm spaces)
    (hsim : Sim r st₀ st (build f (premapOf f) (headers f) Image.empty))
    (hstack : wantStack = true → (mapStack r Elf.stackPages st).1 = true) :
    Loads f wantStack spaces r st₀ (finish64 f wantStack r (.done, st)) := by
  have hentry : f.entry64 = entryOf f := (if_pos hclass).symm
  cases wantStack with
  | false =>
    have hnone : stackOf f false = false := Bool.and_false _
    refine ⟨congrArg some hentry, ?_, hready, ?_⟩
    · rw [hnone]
      rfl
    · rw [finalImage, hnone]
      exact hsim
  | true =>
    have hsome : stackOf f true = true := by
      unfold stackOf
      rw [decide_eq_true hclass]
      rfl
    have hok := hstack rfl
    have hready' := mapStack_ready hr Elf.stackPages hready
    have hsim' := hsim.stack hready hr hok
    rw [finish64]
    revert hok hready' hsim'
    generalize mapStack r Elf.stackPages st = out
    obtain ⟨ok, st'⟩ := out
    intro hok hready' hsim'
    cases hok
    refine ⟨congrArg some hentry, ?_, hready', ?_⟩
    · rw [hsome]
      rfl
    · rw [finalImage, hsome]
      exact hsim'

theorem finish32_loads {wantStack : Bool} (hclass : f.elfClass = 1) (hready : Ready st.vm spaces)
    (hsim : Sim r st₀ st (build f (premapOf f) (headers f) Image.empty)) :
    Loads f wantStack spaces r st₀ (finish32 f (.done, st)) := by
  have hnone : stackOf f wantStack = false := by
    unfold stackOf
    rw [decide_eq_false (by omega), Bool.false_and]
  refine ⟨congrArg some (if_neg (by omega)).symm, ?_, hready, ?_⟩
  · rw [hnone]
    rfl
  · rw [finalImage, hnone]
    exact hsim

/-! ## Loads -/

theorem elfLoadFile_class64 {wantStack : Bool} {target : Nat} (hvalid : Valid f)
    (hclass : f.elfClass = 2) (htarget : target ≠ Pmm.physNull) :
    elfLoadFile fuel f true wantStack target st =
      finish64 f wantStack target (segments64 f target fuel st) := by
  have hfits := (hvalid.elf64 hclass).2.2.2
  unfold elfLoadFile
  dsimp only
  rw [if_neg hvalid.size, hvalid.magic, hfits, if_pos hclass, if_neg htarget]
  rfl

theorem elfLoadFile_class32 {wantStack : Bool} {target : Nat} (hvalid : Valid f)
    (hclass : f.elfClass = 1) (htarget : target ≠ Pmm.physNull) :
    elfLoadFile fuel f true wantStack target st = finish32 f (segments32 f target fuel st) := by
  have hfits : Elf.tableFits f f.phoff32 f.phnum32 32 = true := by
    rcases hvalid.fits with ⟨hc, -⟩ | ⟨-, hfits⟩
    · omega
    · exact hfits
  have hnot : ¬f.elfClass = 2 := by omega
  unfold elfLoadFile
  dsimp only
  rw [if_neg hvalid.size, hvalid.magic, hfits, if_neg hnot, if_pos hclass, if_neg htarget]
  rfl

/-- A load that returns an entry point got past the checks of the header. -/
theorem valid_of_entry {heap wantStack : Bool} {target e : Nat}
    (he : (elfLoadFile fuel f heap wantStack target st).entry = some e) (hne : e ≠ 0) :
    heap = true ∧ Valid f := by
  have hzero : ∀ {e : Nat}, (⟨some 0, 0, st⟩ : Result).entry = some e → e = 0 :=
    fun h => (Option.some.inj h).symm
  unfold elfLoadFile at he
  dsimp only at he
  split_ifs at he with hsize hheap hmagic hclass htarget hfits hclass htarget hfits
  all_goals try exact absurd (hzero he) hne
  · simp only [Bool.not_eq_true, Bool.not_eq_false'] at hheap hmagic hfits
    exact ⟨hheap, hsize, hmagic, Or.inl ⟨hclass, hfits⟩⟩
  · simp only [Bool.not_eq_true, Bool.not_eq_false'] at hheap hmagic hfits
    exact ⟨hheap, hsize, hmagic, Or.inr ⟨hclass, hfits⟩⟩

theorem elfLoadFile_entry {bytes : Mem} {heap wantStack : Bool} {e : Nat}
    (h : FreshSpace vm spaces r) (hlow : LowerHalf f)
    (he : (elfLoadFile fuel f heap wantStack r ⟨vm, bytes⟩).entry = some e) (hne : e ≠ 0) :
    Loadable f ∧
      Loads f wantStack spaces r ⟨vm, bytes⟩ (elfLoadFile fuel f heap wantStack r ⟨vm, bytes⟩) := by
  have hnull := h.ready.ne_null h.mem
  obtain ⟨rfl, hvalid⟩ := valid_of_entry he hne
  rcases hvalid.fits with ⟨hclass, -⟩ | ⟨hclass, -⟩
  · rw [elfLoadFile_class64 hvalid hclass hnull] at he ⊢
    have hin : ∀ ph ∈ f.accepted f.phdrs64, InLowerHalf ph := hlow (hvalid.elf64 hclass)
    have hfollows : Follows spaces r ⟨vm, bytes⟩ (segments64 f r fuel ⟨vm, bytes⟩)
        (segmentImages (segmentImage64 f) f.phdrs64 Image.empty) :=
      (h.sim bytes).segments64 h.ready h.mem hin
    have hacc : (segments (segment64 f r fuel) f.phdrs64 ⟨vm, bytes⟩).1 = .done →
        ∀ ph ∈ loads f.phdrs64, f.accepts ph = true :=
      segments_done fun ph _ st hdone => segment64_accepts hdone
    rw [segments64] at he hfollows ⊢
    revert he hfollows hacc
    generalize segments (segment64 f r fuel) f.phdrs64 ⟨vm, bytes⟩ = out
    obtain ⟨o, st⟩ := out
    intro he hfollows hacc
    cases o with
    | spinning => cases he
    | faulted => cases he
    | failed => exact absurd (Option.some.inj he).symm hne
    | done =>
      obtain ⟨im, him, hsim⟩ := hfollows.done rfl
      rw [segmentImage64_eq, ← premapOf64 hclass] at him
      have hheaders := headers64 hclass
      obtain ⟨hloadable, rfl⟩ := Loadable.of_image hvalid hlow hheaders
        (hheaders ▸ hacc rfl) (fun _ _ hc => by omega) him
      refine ⟨hloadable, finish64_loads h.mem hclass hfollows.ready hsim ?_⟩
      intro hwant
      by_contra hstack
      rw [Bool.not_eq_true] at hstack
      exact hne (finish64_failed hstack hwant he)
  · rw [elfLoadFile_class32 hvalid hclass hnull] at he ⊢
    have hfollows : Follows spaces r ⟨vm, bytes⟩ (segments32 f r fuel ⟨vm, bytes⟩)
        (segmentImages (segmentImage32 f) f.phdrs32 Image.empty) :=
      (h.sim bytes).segments32 h.ready h.mem
    have hacc : (segments (segment32 f r fuel) f.phdrs32 ⟨vm, bytes⟩).1 = .done →
        ∀ ph ∈ loads f.phdrs32, f.accepts ph = true ∧
          (ph.pVaddr + ph.pMemsz) % 2 ^ 32 ≤ lastBlock :=
      segments_done fun ph hph st hdone => segment32_ends (fields32 f hph) hdone
    rw [segments32] at he hfollows ⊢
    revert he hfollows hacc
    generalize segments (segment32 f r fuel) f.phdrs32 ⟨vm, bytes⟩ = out
    obtain ⟨o, st⟩ := out
    intro he hfollows hacc
    cases o with
    | spinning => cases he
    | faulted => cases he
    | failed => exact absurd (Option.some.inj he).symm hne
    | done =>
      obtain ⟨im, him, hsim⟩ := hfollows.done rfl
      rw [segmentImage32_eq, ← premapOf32 hclass] at him
      have hheaders := headers32 hclass
      have hall := hacc rfl
      rw [← hheaders] at hall
      obtain ⟨hloadable, rfl⟩ := Loadable.of_image hvalid hlow hheaders
        (fun ph hph => (hall ph hph).1) (fun ph hph _ => (hall ph hph).2) him
      exact ⟨hloadable, finish32_loads hclass hfollows.ready hsim⟩

/-! ## Enough memory -/

theorem Proceeds.build {L : Premap} {phs : List Phdr} {out : Outcome × Store}
    (h : Proceeds spaces r st₀ S k out (segmentImages (L.segment f) phs Image.empty))
    (hwrap : ∀ ph ∈ loads phs, NoWrap ph)
    (hlands : Lands f L (fun _ => False) (loads phs)) :
    ∃ st, out = (.done, st) ∧ Sim r st₀ st (build f L (loads phs) Image.empty) ∧
      Ample st.vm spaces r S k := by
  have hempty : Lands f L (fun x => (Image.empty x).isSome = true) (loads phs) := by
    refine (lands_congr ?_ _).mpr hlands
    intro x
    simp [Image.empty]
  have him := (segmentImages_eq_some hwrap fun ph hph => (mem_loads.mp hph).2).mpr ⟨hempty, rfl⟩
  rw [← segmentImages_loads] at him
  rcases h with ⟨st, im', heq, him', hsim, hample⟩ | ⟨-, hnone⟩
  · rw [him] at him'
    cases him'
    exact ⟨st, heq, hsim, hample⟩
  · rw [him] at hnone
    cases hnone

theorem segments64_enough (bytes : Mem) (h : FreshSpace vm spaces r)
    (hample : Ample vm spaces r S k) (hfuel : enoughFuel ≤ fuel) (hloadable : Loadable f)
    (hclass : f.elfClass = 2) (hlow : ∀ ph ∈ headers f, InLowerHalf ph)
    (hpages : ∀ ph ∈ headers f, ∀ p, ph.Page p → p / 4096 ∈ S) :
    ∃ st, segments64 f r fuel ⟨vm, bytes⟩ = (.done, st) ∧
      Sim r ⟨vm, bytes⟩ st (build f (premapOf f) (headers f) Image.empty) ∧
      Ample st.vm spaces r S k := by
  have hheaders := headers64 hclass
  have hlands := hloadable.lands
  have hacc := hloadable.accepted
  rw [premapOf64 hclass] at hlands ⊢
  rw [hheaders] at hacc hlow hpages hlands ⊢
  have hproceeds : Proceeds spaces r ⟨vm, bytes⟩ S k (segments64 f r fuel ⟨vm, bytes⟩)
      (segmentImages (segmentImage64 f) f.phdrs64 Image.empty) := by
    refine segments_proceeds (c := 0)
      (Q := fun ph => f.accepts ph = true ∧ InLowerHalf ph ∧ ∀ p, ph.Page p → p / 4096 ∈ S)
      ?_ ?_ (h.sim bytes) (hample.mono (by omega))
    · rintro ph ⟨hacc, hlow, hpages⟩ st im j hsim hample
      exact hsim.segment64_proceeds hample hfuel hacc hlow hpages
    · intro ph hph htype
      have hmem := mem_loads.mpr ⟨hph, htype⟩
      exact ⟨hacc ph hmem, hlow ph hmem, hpages ph hmem⟩
  rw [segmentImage64_eq] at hproceeds
  exact hproceeds.build
    (fun ph hph => (hlow ph hph).noWrap (holds_lt (accepts_holds (hacc ph hph)))) hlands

theorem load64_enough {bytes : Mem} {wantStack : Bool} (h : FreshSpace vm spaces r)
    (hample : Ample vm spaces r S k) (hk : 256 ≤ k) (hfuel : enoughFuel ≤ fuel)
    (hloadable : Loadable f) (hclass : f.elfClass = 2) (hlow : ∀ ph ∈ headers f, InLowerHalf ph)
    (hpages : ∀ ph ∈ headers f, ∀ p, ph.Page p → p / 4096 ∈ S) :
    Loads f wantStack spaces r ⟨vm, bytes⟩ (elfLoadFile fuel f true wantStack r ⟨vm, bytes⟩) := by
  have hend : lowerEnd = 140737488355328 := rfl
  have htop : userStackTop = 201326592 := rfl
  have hnull := h.ready.ne_null h.mem
  obtain ⟨st, hdone, hsim, hample'⟩ :=
    segments64_enough bytes h hample hfuel hloadable hclass hlow hpages
  rw [elfLoadFile_class64 hloadable.valid hclass hnull, hdone]
  refine finish64_loads h.mem hclass hample'.roomy.ready hsim ?_
  intro _
  have hlen : Elf.stackPages.length = 64 := by decide
  refine (mapStack_ample (j := 0) (hample'.mono ?_) ?_).1
  · rw [hlen]
    omega
  · intro p hp
    rw [mem_stackPages] at hp
    omega

theorem segments32_enough (bytes : Mem) (h : FreshSpace vm spaces r)
    (hample : Ample vm spaces r S (k + 4096 * f.phdrs32.length)) (hfuel : enoughFuel ≤ fuel)
    (hloadable : Loadable f) (hclass : f.elfClass = 1) :
    ∃ st, segments32 f r fuel ⟨vm, bytes⟩ = (.done, st) ∧
      Sim r ⟨vm, bytes⟩ st (build f (premapOf f) (headers f) Image.empty) ∧
      Ample st.vm spaces r S k := by
  have hheaders := headers32 hclass
  have hlands := hloadable.lands
  have hacc := hloadable.accepted
  have hends := hloadable.ends
  rw [premapOf32 hclass] at hlands ⊢
  rw [hheaders] at hacc hends hlands ⊢
  have hproceeds : Proceeds spaces r ⟨vm, bytes⟩ S k (segments32 f r fuel ⟨vm, bytes⟩)
      (segmentImages (segmentImage32 f) f.phdrs32 Image.empty) := by
    refine segments_proceeds
      (Q := fun ph => f.holds ph = true ∧ Fields32 ph ∧
        (ph.pVaddr + ph.pMemsz) % 2 ^ 32 ≤ lastBlock) ?_ ?_ (h.sim bytes) hample
    · rintro ph ⟨hholds, hfields, hend⟩ st im j hsim hample
      exact hsim.segment32_proceeds hample hfuel hholds hfields hend
    · intro ph hph htype
      have hmem := mem_loads.mpr ⟨hph, htype⟩
      exact ⟨accepts_holds (hacc ph hmem), fields32 f hph, hends ph hmem hclass⟩
  rw [segmentImage32_eq] at hproceeds
  exact hproceeds.build (fun ph hph => (fields32 f (mem_loads.mp hph).1).noWrap) hlands

theorem load32_enough {bytes : Mem} {wantStack : Bool} (h : FreshSpace vm spaces r)
    (hample : Ample vm spaces r S (k + 4096 * f.phdrs32.length)) (hfuel : enoughFuel ≤ fuel)
    (hloadable : Loadable f) (hclass : f.elfClass = 1) :
    Loads f wantStack spaces r ⟨vm, bytes⟩ (elfLoadFile fuel f true wantStack r ⟨vm, bytes⟩) := by
  have hnull := h.ready.ne_null h.mem
  obtain ⟨st, hdone, hsim, hample'⟩ :=
    segments32_enough bytes h hample hfuel hloadable hclass
  rw [elfLoadFile_class32 hloadable.valid hclass hnull, hdone]
  exact finish32_loads hclass hample'.roomy.ready hsim

/-- An ELF32 file has fewer than 2 ^ 16 headers. -/
theorem phdrs32_length (f : File) : f.phdrs32.length < 65536 := by
  unfold File.phdrs32
  rw [List.length_map, List.length_range]
  exact load_lt f.buf 44 2

/-- With memory for every page of the lower half, each file that can be loaded is loaded. -/
theorem elfLoadFile_enough {bytes : Mem} {wantStack : Bool} (h : FreshSpace vm spaces r)
    (hample : Ample vm spaces r lowerPages (2 ^ 30)) (hfuel : enoughFuel ≤ fuel)
    (hloadable : Loadable f) (hlow : LowerHalf f) :
    Loads f wantStack spaces r ⟨vm, bytes⟩ (elfLoadFile fuel f true wantStack r ⟨vm, bytes⟩) := by
  rcases hloadable.valid.fits with ⟨hclass, -⟩ | ⟨hclass, -⟩
  · have hheaders := headers64 hclass
    have hin := hlow (hloadable.valid.elf64 hclass)
    rw [accepted_eq (hheaders ▸ hloadable.accepted), ← hheaders] at hin
    exact load64_enough h hample (by omega) hfuel hloadable hclass hin
      fun ph hph p hp => mem_lowerPages ((hin ph hph).pages p hp)
  · have hlen := phdrs32_length f
    exact load32_enough (k := 0) h (hample.mono (by omega)) hfuel hloadable hclass

end Kyuzen.Loader
