import Kyuzen.Elf.Model
import Kyuzen.Paging.System

/-!
# What a file can reach

The loader checks that the segments of a file stand in the file, but not where they go: an ELF64
segment may name any 64-bit address. `confined_iff` says exactly which files are harmless, in
every state and for every target: those whose segments, up to the first one that is rejected,
lie in the lower half (`UserSegments`). `kernelFile` is one that does not. For ELF32 the
addresses have 32 bits, and every file is harmless.
-/

namespace Kyuzen.Elf

open Lib.Memory Paging

/-- `UC_USER_VA_MAX`. -/
def userEnd : Nat := 0x0000800000000000

/-- The tables translate 48 bits: the address of the page that is mapped for `va`. -/
def canonical (va : Nat) : Nat :=
  if (pml4Idx va).val < 256 then va % 2 ^ 48 else va % 2 ^ 48 + (2 ^ 64 - 2 ^ 48)

/-- The access stays in the user's half. -/
def Access.Confined : Access → Prop
  | .map va => canonical va < userEnd
  | .write va len => ∀ i < len, (va + i) % 2 ^ 64 < userEnd

def Confined (log : List Access) : Prop := ∀ a ∈ log, a.Confined

/-- The pages that the pre-map loop visits. -/
def Phdr.Page (ph : Phdr) (p : Nat) : Prop :=
  p % 4096 = 0 ∧ ph.pVaddr / 4096 * 4096 ≤ p ∧ p < ph.pVaddr + ph.pMemsz

/-- The segment lies in the lower half. -/
structure Phdr.UserRange (ph : Phdr) : Prop where
  pages : ∀ p, ph.Page p → (pml4Idx p).val < 256
  file : 0 < ph.pFilesz → ph.pVaddr + ph.pFilesz ≤ userEnd
  bss : ph.pFilesz < ph.pMemsz → 0 < (ph.pMemsz - ph.pFilesz) % 2 ^ 32 →
    ph.pVaddr + ph.pFilesz + (ph.pMemsz - ph.pFilesz) % 2 ^ 32 ≤ userEnd

/-- The two checks of a segment. -/
def File.accepts (f : File) (ph : Phdr) : Bool :=
  ph.pMemsz ≤ 2 ^ 64 - 1 - ph.pVaddr && f.holds ph

/-- The segments that the loader gets to, if there is memory enough. -/
def File.accepted (f : File) : List Phdr → List Phdr
  | [] => []
  | ph :: rest =>
    if ph.pType ≠ 1 then f.accepted rest
    else if f.accepts ph then ph :: f.accepted rest
    else []

/-- The file passes the checks of the ELF64 header. -/
def File.Elf64 (f : File) : Prop :=
  f.size ≠ 0 ∧ f.magic = true ∧ f.elfClass = 2 ∧ tableFits f f.phoff64 f.phnum64 56 = true

/-- Every segment of an ELF64 file, up to the first one that is rejected, lies in the lower
half. -/
def UserSegments (f : File) : Prop := f.Elf64 → ∀ ph ∈ f.accepted f.phdrs64, ph.UserRange

/-! ## Addresses -/

theorem pml4Idx_val (va : Nat) : (pml4Idx va).val = va / 549755813888 % 512 := rfl

theorem canonical_lt_iff (va : Nat) : canonical va < userEnd ↔ (pml4Idx va).val < 256 := by
  have hend : userEnd = 140737488355328 := rfl
  unfold canonical
  rw [pml4Idx_val, hend]
  split_ifs <;> omega

/-- The page after one in the lower half does not wrap around. -/
theorem next_lt {page : Nat} (halign : page % 4096 = 0) (hlt : page < 2 ^ 64)
    (hlow : (pml4Idx page).val < 256) : page + 4096 < 2 ^ 64 := by
  rw [pml4Idx_val] at hlow
  omega

theorem write_confined {va len : Nat} (h : 0 < len → va + len ≤ userEnd) :
    (Access.write va len).Confined := by
  intro i hi
  have hlt : va + i < userEnd := by
    have := h (by omega)
    omega
  exact lt_of_le_of_lt (Nat.mod_le _ _) hlt

theorem le_of_write_confined {va len : Nat} (hva : va < 2 ^ 64) (hlen : len < 2 ^ 32)
    (h : (Access.write va len).Confined) (hpos : 0 < len) : va + len ≤ userEnd := by
  have hend : userEnd = 140737488355328 := rfl
  have h0 := h 0 hpos
  have hlast := h (len - 1) (by omega)
  rw [hend] at h0 hlast ⊢
  omega

theorem Confined.append {l m : List Access} (h : Confined l) (h' : Confined m) :
    Confined (l ++ m) := by
  intro a ha
  rcases List.mem_append.mp ha with ha | ha
  · exact h a ha
  · exact h' a ha

theorem Confined.map {l : List Access} (h : Confined l) {va : Nat}
    (hva : (pml4Idx va).val < 256) : Confined (l ++ [.map va]) := by
  refine h.append fun a ha => ?_
  rw [List.mem_singleton.mp ha]
  exact (canonical_lt_iff va).mpr hva

/-! ## Files in the lower half -/

theorem premap64_confined {target segEnd start : Nat}
    (hpages : ∀ p, p % 4096 = 0 → start ≤ p → p < segEnd → (pml4Idx p).val < 256) :
    ∀ (fuel page : Nat) (l : Load), page % 4096 = 0 → start ≤ page → page < 2 ^ 64 →
      Confined l.log → Confined (premap64 target segEnd fuel page l).2.log := by
  intro fuel
  induction fuel with
  | zero => exact fun _ _ _ _ _ h => h
  | succ fuel ih =>
    intro page l halign hstart hlt h
    rw [premap64]
    by_cases hend : page < segEnd
    · have hlow := hpages page halign hstart hend
      have hnext : (page + 4096) % 2 ^ 64 = page + 4096 :=
        Nat.mod_eq_of_lt (next_lt halign hlt hlow)
      have hrec := fun l' => ih (page + 4096) l' (by omega) (by omega) (next_lt halign hlt hlow)
      rw [if_pos hend, hnext]
      dsimp only
      split_ifs
      · exact hrec l h
      · exact hrec _ (h.map hlow)
      · exact h.map hlow
    · rw [if_neg hend]
      exact h

theorem copySegment_confined {ph : Phdr} {l : Load}
    (hfile : 0 < ph.pFilesz % 2 ^ 32 → ph.pVaddr + ph.pFilesz % 2 ^ 32 ≤ userEnd)
    (hbss : ph.pFilesz < ph.pMemsz → 0 < (ph.pMemsz - ph.pFilesz) % 2 ^ 32 →
      ph.pVaddr + ph.pFilesz + (ph.pMemsz - ph.pFilesz) % 2 ^ 32 ≤ userEnd)
    (h : Confined l.log) : Confined (copySegment ph l).log := by
  refine h.append fun a ha => ?_
  rcases List.mem_cons.mp ha with rfl | ha
  · exact write_confined hfile
  · unfold bss at ha
    split_ifs at ha with hlt
    · rw [List.mem_singleton.mp ha]
      refine write_confined fun hpos => ?_
      have hend : userEnd = 140737488355328 := rfl
      have hle := hbss hlt hpos
      rw [Nat.mod_eq_of_lt (by omega)]
      exact hle
    · cases ha

theorem andThen_confined {next : Load → Outcome × Load} {out : Outcome × Load}
    (h : Confined out.2.log) (hnext : ∀ l : Load, Confined l.log → Confined (next l).2.log) :
    Confined (andThen next out).2.log := by
  obtain ⟨o, l⟩ := out
  cases o with
  | done => exact hnext l h
  | failed => exact h
  | spinning => exact h

theorem segment64_rejected {f : File} {ph : Phdr} (h : f.accepts ph = false) (target fuel : Nat)
    (l : Load) : segment64 f target fuel ph l = (.failed, l) := by
  unfold segment64
  unfold File.accepts at h
  split_ifs with hmem hholds
  · rfl
  · rfl
  · rw [Bool.not_eq_true, Bool.not_eq_false'] at hholds
    rw [hholds, Bool.and_true, decide_eq_false_iff_not] at h
    omega

theorem segment64_confined {f : File} {target fuel : Nat} {ph : Phdr} {l : Load}
    (hv : ph.pVaddr < 2 ^ 64) (hu : f.accepts ph = true → ph.UserRange) (h : Confined l.log) :
    Confined (segment64 f target fuel ph l).2.log := by
  unfold segment64
  split_ifs with hmem hholds
  · exact h
  · exact h
  · rw [Bool.not_eq_true, Bool.not_eq_false'] at hholds
    have hu := hu (by simpa [File.accepts, hholds] using hmem)
    have hsize : ph.pFilesz < 2 ^ 32 := by
      have hlt := f.size_lt
      unfold File.holds at hholds
      rw [Bool.and_eq_true, decide_eq_true_eq, decide_eq_true_eq] at hholds
      omega
    refine andThen_confined ?_ fun l' hl => copySegment_confined ?_ hu.bss hl
    · exact premap64_confined (fun p h1 h2 h3 => hu.pages p ⟨h1, h2, h3⟩) fuel _ l
        (Nat.mul_mod_left _ _) (le_refl _) (by omega) h
    · rw [Nat.mod_eq_of_lt hsize]
      exact hu.file

/-- The loop over the headers, for any check of a single one. -/
theorem segments_confined {segment : Phdr → Load → Outcome × Load} {phs : List Phdr}
    (hseg : ∀ ph ∈ phs, ph.pType = 1 → ∀ l : Load, Confined l.log →
      Confined (segment ph l).2.log) :
    ∀ l : Load, Confined l.log → Confined (segments segment phs l).2.log := by
  induction phs with
  | nil => exact fun _ h => h
  | cons ph rest ih =>
    intro l h
    have ih := ih fun p hp => hseg p (List.mem_cons_of_mem _ hp)
    rw [segments]
    split_ifs with htype
    · exact ih l h
    · exact andThen_confined (hseg ph List.mem_cons_self (not_not.mp htype) l h) ih

theorem phdr64_lt (f : File) (a : Nat) : (f.phdr64 a).pVaddr < 2 ^ 64 := load_lt f.buf (a + 16) 8

/-- The accepted segments come first, so a segment that is reached is one of them. -/
theorem segments64_confined {f : File} {target fuel : Nat} {phs : List Phdr}
    (hv : ∀ ph ∈ phs, ph.pVaddr < 2 ^ 64) (hu : ∀ ph ∈ f.accepted phs, ph.UserRange) :
    ∀ l : Load, Confined l.log → Confined (segments (segment64 f target fuel) phs l).2.log := by
  induction phs with
  | nil => exact fun _ h => h
  | cons ph rest ih =>
    intro l h
    have hrest := fun p hp => hv p (List.mem_cons_of_mem ph hp)
    rw [segments]
    rw [File.accepted] at hu
    split_ifs with htype
    · rw [if_pos htype] at hu
      exact ih hrest hu l h
    · rw [if_neg htype] at hu
      by_cases hacc : f.accepts ph = true
      · rw [if_pos hacc] at hu
        have hone : Confined (segment64 f target fuel ph l).2.log :=
          segment64_confined (hv ph List.mem_cons_self) (fun _ => hu ph List.mem_cons_self) h
        exact andThen_confined hone (ih hrest fun p hp => hu p (List.mem_cons_of_mem _ hp))
      · rw [segment64_rejected (Bool.eq_false_of_not_eq_true hacc)]
        exact h

theorem mapStack_confined (target : Nat) {pages : List Nat}
    (hpages : ∀ p ∈ pages, p + 4096 ≤ userEnd) :
    ∀ l : Load, Confined l.log → Confined (mapStack target pages l).2.log := by
  induction pages with
  | nil => exact fun _ h => h
  | cons page rest ih =>
    intro l h
    have hend : userEnd = 140737488355328 := rfl
    have hpage := hpages page List.mem_cons_self
    have hlow : (pml4Idx page).val < 256 := by
      rw [pml4Idx_val]
      omega
    rw [mapStack]
    dsimp only
    split_ifs
    · exact h
    · cases hout : vmmMapPageInto (allocPage l.vm).2 page (allocPage l.vm).1 7 target with
      | mk ok vm =>
        cases ok with
        | false => exact h.map hlow
        | true =>
          refine ih (fun p hp => hpages p (List.mem_cons_of_mem _ hp)) _ ?_
          have hboth := (h.map hlow).append (m := [.write page 4096]) fun a ha => by
            rw [List.mem_singleton.mp ha]
            exact write_confined fun _ => hpage
          rw [List.append_assoc] at hboth
          exact hboth

theorem stackPages_le : ∀ p ∈ stackPages, p + 4096 ≤ userEnd := by
  intro p hp
  obtain ⟨i, hi, rfl⟩ := List.mem_map.mp hp
  have hlt := List.mem_range.mp hi
  have h1 : userStackSize = 262144 := rfl
  have h2 : userStackTop = 201326592 := rfl
  have h3 : userEnd = 140737488355328 := rfl
  omega

theorem finish64_confined {f : File} {wantStack : Bool} {target : Nat} {out : Outcome × Load}
    (h : Confined out.2.log) : Confined (finish64 f wantStack target out).load.log := by
  obtain ⟨o, l⟩ := out
  cases o with
  | spinning => exact h
  | failed => exact h
  | done =>
    rw [finish64]
    split_ifs
    · exact h
    · have hs := mapStack_confined target stackPages_le l h
      cases hout : mapStack target stackPages l with
      | mk ok l' =>
        rw [hout] at hs
        cases ok <;> exact hs

/-! ## ELF32 -/

theorem premap32_confined {target segEnd : Nat} : ∀ (fuel block : Nat) (l : Load),
    block < 2 ^ 32 → Confined l.log → Confined (premap32 target segEnd fuel block l).2.log := by
  intro fuel
  induction fuel with
  | zero => exact fun _ _ _ h => h
  | succ fuel ih =>
    intro block l hlt h
    have hlow : (pml4Idx block).val < 256 := by
      rw [pml4Idx_val]
      omega
    rw [premap32]
    dsimp only
    split_ifs
    · exact ih _ _ (Nat.mod_lt _ (by decide)) (h.map hlow)
    · exact h.map hlow
    · exact h

theorem segment32_confined {f : File} {target fuel a : Nat} {l : Load} (h : Confined l.log) :
    Confined (segment32 f target fuel (f.phdr32 a) l).2.log := by
  have hend : userEnd = 140737488355328 := rfl
  have hv : (f.phdr32 a).pVaddr < 2 ^ 32 := load_lt f.buf (a + 8) 4
  have hf : (f.phdr32 a).pFilesz < 2 ^ 32 := load_lt f.buf (a + 16) 4
  unfold segment32
  split_ifs
  · exact h
  · refine andThen_confined (premap32_confined fuel _ l (by omega) h) fun l' hl =>
      copySegment_confined (fun _ => ?_) (fun _ _ => ?_) hl
    · rw [Nat.mod_eq_of_lt hf, hend]
      omega
    · have hmod := Nat.mod_lt ((f.phdr32 a).pMemsz - (f.phdr32 a).pFilesz)
        (show 0 < 2 ^ 32 by decide)
      rw [hend]
      omega

theorem finish32_confined {f : File} {out : Outcome × Load} (h : Confined out.2.log) :
    Confined (finish32 f out).load.log := by
  obtain ⟨o, l⟩ := out
  cases o <;> exact h

/-- A file in the lower half reaches nothing else, whatever the state and the target. -/
theorem elfLoadFile_confined {f : File} (h : UserSegments f) (fuel : Nat) (heap wantStack : Bool)
    (target : Nat) (vm : Paging.State) :
    Confined (elfLoadFile fuel f heap wantStack target vm).load.log := by
  have hnil : Confined (⟨vm, []⟩ : Load).log := fun a ha => absurd ha (by simp)
  unfold elfLoadFile
  dsimp only
  split_ifs with hsize hheap hmagic hclass htarget hfits hclass' htarget' hfits'
  any_goals exact hnil
  · refine finish64_confined (segments64_confined (fun ph hph => ?_) (h ⟨hsize, ?_, hclass, ?_⟩) _ hnil)
    · obtain ⟨i, _, rfl⟩ := List.mem_map.mp hph
      exact phdr64_lt f _
    · simpa using hmagic
    · simpa using hfits
  · refine finish32_confined (segments_confined (fun ph hph _ l hl => ?_) _ hnil)
    obtain ⟨i, _, rfl⟩ := List.mem_map.mp hph
    exact segment32_confined hl

/-! ## Files that are not in the lower half -/

/-- A PML4 at 0x1000 whose lower half is mapped everywhere and whose upper half is empty. -/
def lowMem (n : Nat) (i : Fin 512) : Nat :=
  if n = 0x1000 then (if i.val < 256 then 0x2007 else 0) else if n = 0x2000 then 0x2007 else 0

def lowState : Paging.State := ⟨smallPmm, lowMem, some 0x1000, 0x1000, []⟩

theorem lowState_mapped (va : Nat) :
    pagingIsMappedInto lowState va 0x1000 = decide ((pml4Idx va).val < 256) := by
  have htarget : targetPml4 lowState 0x1000 = some 0x1000 := rfl
  have hpml4 : lowState.mem 0x1000 (pml4Idx va) = if (pml4Idx va).val < 256 then 0x2007 else 0 := rfl
  have htable : ∀ i, lowState.mem 0x2000 i = 0x2007 := fun _ => rfl
  have hmask : pageMask 0x2007 = 0x2000 := rfl
  have hpres : present 0x2007 = true := rfl
  have hhuge : huge 0x2007 = false := rfl
  unfold pagingIsMappedInto
  rw [htarget]
  dsimp only
  rw [hpml4]
  split_ifs with hlow <;> simp_all [present_zero]

theorem premap64_log (target segEnd : Nat) : ∀ (fuel page : Nat) (l : Load),
    l.log ⊆ (premap64 target segEnd fuel page l).2.log := by
  intro fuel
  induction fuel with
  | zero => exact fun _ _ => List.Subset.refl _
  | succ fuel ih =>
    intro page l
    rw [premap64]
    dsimp only
    split_ifs
    · exact ih _ l
    · exact fun a ha => ih _ _ (List.mem_append_left _ ha)
    · exact fun a ha => List.mem_append_left _ ha
    · exact List.Subset.refl _

theorem andThen_log {next : Load → Outcome × Load} {out : Outcome × Load}
    (hnext : ∀ l : Load, l.log ⊆ (next l).2.log) : out.2.log ⊆ (andThen next out).2.log := by
  obtain ⟨o, l⟩ := out
  cases o with
  | done => exact hnext l
  | failed => exact List.Subset.refl _
  | spinning => exact List.Subset.refl _

theorem segment64_log (f : File) (target fuel : Nat) (ph : Phdr) (l : Load) :
    l.log ⊆ (segment64 f target fuel ph l).2.log := by
  unfold segment64
  split_ifs
  · exact List.Subset.refl _
  · exact List.Subset.refl _
  · exact fun a ha => andThen_log (fun l' b hb => List.mem_append_left _ hb)
      (premap64_log _ _ fuel _ l ha)

theorem segments_log (f : File) (target fuel : Nat) : ∀ (phs : List Phdr) (l : Load),
    l.log ⊆ (segments (segment64 f target fuel) phs l).2.log := by
  intro phs
  induction phs with
  | nil => exact fun _ => List.Subset.refl _
  | cons ph rest ih =>
    intro l
    rw [segments]
    split_ifs
    · exact ih l
    · exact fun a ha => andThen_log ih (segment64_log f target fuel ph l ha)

theorem mapStack_log (target : Nat) : ∀ (pages : List Nat) (l : Load),
    l.log ⊆ (mapStack target pages l).2.log := by
  intro pages
  induction pages with
  | nil => exact fun _ => List.Subset.refl _
  | cons page rest ih =>
    intro l
    rw [mapStack]
    dsimp only
    split_ifs
    · exact List.Subset.refl _
    · cases vmmMapPageInto (allocPage l.vm).2 page (allocPage l.vm).1 7 target with
      | mk ok vm =>
        cases ok with
        | false => exact fun a ha => List.mem_append_left _ ha
        | true => exact fun a ha => ih _ (List.mem_append_left _ ha)

theorem finish64_log (f : File) (wantStack : Bool) (target : Nat) (out : Outcome × Load) :
    out.2.log ⊆ (finish64 f wantStack target out).load.log := by
  obtain ⟨o, l⟩ := out
  cases o with
  | spinning => exact List.Subset.refl _
  | failed => exact List.Subset.refl _
  | done =>
    rw [finish64]
    split_ifs
    · exact List.Subset.refl _
    · have hlog := mapStack_log target stackPages l
      cases hout : mapStack target stackPages l with
      | mk ok l' =>
        rw [hout] at hlog
        cases ok <;> exact hlog

/-- In `lowState` the loop ends, or asks for a page of the upper half. -/
theorem premap64_low (segEnd : Nat) : ∀ (n page : Nat) (l : Load), page % 4096 = 0 →
    page < 2 ^ 64 → segEnd ≤ page + 4096 * n → l.vm = lowState →
    ∃ fuel₀, ∀ fuel, fuel₀ ≤ fuel →
      (premap64 0x1000 segEnd fuel page l = (.done, l) ∧
        ∀ p, p % 4096 = 0 → page ≤ p → p < segEnd → (pml4Idx p).val < 256) ∨
      ∃ q, 256 ≤ (pml4Idx q).val ∧ .map q ∈ (premap64 0x1000 segEnd fuel page l).2.log := by
  intro n
  induction n with
  | zero =>
    intro page l _ _ hend _
    refine ⟨1, fun fuel hfuel => Or.inl ⟨?_, fun p _ h1 h2 => by omega⟩⟩
    obtain ⟨k, rfl⟩ := Nat.exists_eq_add_of_le' hfuel
    rw [premap64, if_neg (by omega)]
  | succ n ih =>
    intro page l halign hlt hend hvm
    by_cases hpage : page < segEnd
    · by_cases hlow : (pml4Idx page).val < 256
      · have hnext := next_lt halign hlt hlow
        obtain ⟨fuel₀, hrest⟩ := ih (page + 4096) l (by omega) hnext (by omega) hvm
        refine ⟨fuel₀ + 1, fun fuel hfuel => ?_⟩
        obtain ⟨k, rfl⟩ := Nat.exists_eq_add_of_le' (Nat.le_of_add_left_le hfuel)
        have hmapped : pagingIsMappedInto l.vm page 0x1000 = true := by
          rw [hvm, lowState_mapped, decide_eq_true hlow]
        rw [premap64, if_pos hpage, if_pos hmapped, Nat.mod_eq_of_lt hnext]
        rcases hrest k (by omega) with ⟨hdone, hpages⟩ | hbad
        · refine Or.inl ⟨hdone, fun p hp h1 h2 => ?_⟩
          by_cases heq : p = page
          · rw [heq]
            exact hlow
          · exact hpages p hp (by omega) h2
        · exact Or.inr hbad
      · refine ⟨1, fun fuel hfuel => Or.inr ⟨page, by omega, ?_⟩⟩
        obtain ⟨k, rfl⟩ := Nat.exists_eq_add_of_le' hfuel
        have hmapped : pagingIsMappedInto l.vm page 0x1000 = false := by
          rw [hvm, lowState_mapped, decide_eq_false hlow]
        rw [premap64, if_pos hpage, if_neg (by rw [hmapped]; simp)]
        dsimp only
        have hlogged : ∀ vm, Access.map page ∈ (⟨vm, l.log ++ [.map page]⟩ : Load).log := fun _ =>
          List.mem_append_right _ (List.mem_singleton.mpr rfl)
        split_ifs
        · exact premap64_log _ _ k _ _ (hlogged _)
        · exact hlogged _
    · refine ⟨1, fun fuel hfuel => Or.inl ⟨?_, fun p _ h1 h2 => by omega⟩⟩
      obtain ⟨k, rfl⟩ := Nat.exists_eq_add_of_le' hfuel
      rw [premap64, if_neg hpage]

/-- A segment whose accesses are confined in `lowState` lies in the lower half. -/
theorem segment64_low {f : File} {ph : Phdr} (hacc : f.accepts ph = true)
    (hv : ph.pVaddr < 2 ^ 64) (l : Load) (hvm : l.vm = lowState) :
    ∃ fuel₀, ∀ fuel, fuel₀ ≤ fuel → Confined (segment64 f 0x1000 fuel ph l).2.log →
      ph.UserRange ∧ segment64 f 0x1000 fuel ph l = (.done, copySegment ph l) := by
  obtain ⟨hmem, hholds⟩ : ph.pMemsz ≤ 2 ^ 64 - 1 - ph.pVaddr ∧ f.holds ph = true := by
    simpa [File.accepts] using hacc
  have hsize : ph.pFilesz < 2 ^ 32 := by
    have hlt := f.size_lt
    unfold File.holds at hholds
    rw [Bool.and_eq_true, decide_eq_true_eq, decide_eq_true_eq] at hholds
    omega
  have hseg : ∀ fuel, segment64 f 0x1000 fuel ph l = andThen (fun l => (.done, copySegment ph l))
      (premap64 0x1000 (ph.pVaddr + ph.pMemsz) fuel (ph.pVaddr / 4096 * 4096) l) := by
    intro fuel
    rw [segment64, if_neg (by omega), if_neg (by simp [hholds])]
  obtain ⟨fuel₀, hloop⟩ := premap64_low (ph.pVaddr + ph.pMemsz) (2 ^ 64) (ph.pVaddr / 4096 * 4096) l
    (Nat.mul_mod_left _ _) (by omega) (by omega) hvm
  refine ⟨fuel₀, fun fuel hfuel hconf => ?_⟩
  rw [hseg] at hconf ⊢
  rcases hloop fuel hfuel with ⟨hdone, hpages⟩ | ⟨q, hq, hlogged⟩
  · rw [hdone] at hconf ⊢
    refine ⟨⟨fun p hp => hpages p hp.1 hp.2.1 hp.2.2, fun hpos => ?_, fun hlt hpos => ?_⟩, rfl⟩
    · have hw := hconf (.write ph.pVaddr (ph.pFilesz % 2 ^ 32))
        (List.mem_append_right _ List.mem_cons_self)
      rw [Nat.mod_eq_of_lt hsize] at hw
      exact le_of_write_confined hv hsize hw hpos
    · have hw := hconf (.write ((ph.pVaddr + ph.pFilesz) % 2 ^ 64)
        ((ph.pMemsz - ph.pFilesz) % 2 ^ 32))
        (List.mem_append_right _ (List.mem_cons_of_mem _ (by simp [bss, hlt])))
      rw [Nat.mod_eq_of_lt (by omega)] at hw
      exact le_of_write_confined (by omega) (Nat.mod_lt _ (by decide)) hw hpos
  · have hbad := hconf _ (andThen_log (fun l' a ha => List.mem_append_left _ ha) hlogged)
    have hlow := (canonical_lt_iff q).mp hbad
    omega

theorem segments64_low {f : File} : ∀ (phs : List Phdr), (∀ ph ∈ phs, ph.pVaddr < 2 ^ 64) →
    ∀ l : Load, l.vm = lowState → ∃ fuel₀, ∀ fuel, fuel₀ ≤ fuel →
      Confined (segments (segment64 f 0x1000 fuel) phs l).2.log →
      ∀ ph ∈ f.accepted phs, ph.UserRange := by
  intro phs
  induction phs with
  | nil => exact fun _ _ _ => ⟨0, fun _ _ _ ph hph => absurd hph (by simp [File.accepted])⟩
  | cons ph rest ih =>
    intro hv l hvm
    have ih := ih fun p hp => hv p (List.mem_cons_of_mem ph hp)
    rw [File.accepted]
    by_cases htype : ph.pType = 1
    · rw [if_neg (not_not_intro htype)]
      by_cases hacc : f.accepts ph = true
      · rw [if_pos hacc]
        obtain ⟨fuel₁, hone⟩ := segment64_low hacc (hv ph List.mem_cons_self) l hvm
        obtain ⟨fuel₂, hrest⟩ := ih (copySegment ph l) hvm
        refine ⟨max fuel₁ fuel₂, fun fuel hfuel hconf p hp => ?_⟩
        rw [segments, if_neg (not_not_intro htype)] at hconf
        obtain ⟨huser, hdone⟩ := hone fuel (le_of_max_le_left hfuel) fun a ha =>
          hconf a (andThen_log (segments_log f 0x1000 fuel rest) ha)
        rw [hdone] at hconf
        rcases List.mem_cons.mp hp with rfl | hp
        · exact huser
        · exact hrest fuel (le_of_max_le_right hfuel) hconf p hp
      · rw [if_neg hacc]
        exact ⟨0, fun _ _ _ p hp => absurd hp (by simp)⟩
    · obtain ⟨fuel₀, hrest⟩ := ih l hvm
      refine ⟨fuel₀, fun fuel hfuel hconf => ?_⟩
      rw [segments, if_pos htype] at hconf
      rw [if_pos htype]
      exact hrest fuel hfuel hconf

/-- Exactly the files in the lower half stay there in every state, for every target. -/
theorem confined_iff (f : File) :
    (∀ fuel heap wantStack target vm,
      Confined (elfLoadFile fuel f heap wantStack target vm).load.log) ↔ UserSegments f := by
  refine ⟨fun h h64 => ?_, elfLoadFile_confined⟩
  obtain ⟨hsize, hmagic, hclass, hfits⟩ := h64
  have hv : ∀ ph ∈ f.phdrs64, ph.pVaddr < 2 ^ 64 := by
    intro ph hph
    obtain ⟨i, _, rfl⟩ := List.mem_map.mp hph
    exact phdr64_lt f _
  obtain ⟨fuel, hlow⟩ := segments64_low f.phdrs64 hv ⟨lowState, []⟩ rfl
  refine hlow fuel (le_refl fuel) fun a ha => ?_
  refine h fuel true false 0x1000 lowState a ?_
  have hload : elfLoadFile fuel f true false 0x1000 lowState =
      finish64 f false 0x1000 (segments (segment64 f 0x1000 fuel) f.phdrs64 ⟨lowState, []⟩) := by
    simp [elfLoadFile, hsize, hmagic, hclass, hfits, Pmm.physNull]
  rw [hload]
  exact finish64_log f false 0x1000 _ ha

/-- An ELF64 file with one segment of eight bytes, at the first address of the higher half. -/
def kernelFile : File where
  buf i := (([0x7F, 0x45, 0x4C, 0x46, 2] ++ List.replicate 27 0 ++ [64] ++ List.replicate 23 0 ++ [1] ++
    List.replicate 7 0 ++ [1] ++ List.replicate 15 0 ++ [0, 0, 0, 0, 0, 0x80, 0xFF, 0xFF] ++
    List.replicate 8 0 ++ [8] ++ List.replicate 7 0 ++ [8] : List UInt8)[i]?).getD 0
  size := 120
  size_lt := by decide

/-- Loading it into a new address space maps a page of the kernel's half. -/
theorem kernelFile_not_confined : ¬ Confined (elfLoadFile 2 kernelFile true false
    (vmmCreateAddressSpace smallSys.vm).1 (vmmCreateAddressSpace smallSys.vm).2).load.log := by
  intro h
  have hmem : Access.map 0xFFFF800000000000 ∈ (elfLoadFile 2 kernelFile true false
      (vmmCreateAddressSpace smallSys.vm).1 (vmmCreateAddressSpace smallSys.vm).2).load.log := by
    decide +kernel
  have hcanonical : ¬ canonical 0xFFFF800000000000 < userEnd := by decide
  exact hcanonical (h _ hmem)

end Kyuzen.Elf
