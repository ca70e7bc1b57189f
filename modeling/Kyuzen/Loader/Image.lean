import Kyuzen.Elf.Confined
import Kyuzen.Lib.Image
import Kyuzen.Loader.Model
import Kyuzen.Proc.Pages

/-!
# What a load leaves in an address space

The abstract view of the loader: an image of the lower half, in which the pre-map loops map pages
whose bytes are unknown, and the copies write. `Sim` relates it to the memory of the machine, where
an unknown byte is what the frame held before the load. Each part of the loader does to the memory
what its image does (`Sim.segment64`, `Sim.segment32`, `Sim.stack`), and a segment faults exactly
when its image fails.
-/

namespace Kyuzen.Loader

open Lib Lib.Memory
open Elf (File Phdr userStackSize userStackTop)
open Proc (Ready Taken MapsPage)
open Paging (State Store zeroFrame physAddr lowerEnd translate)

/-! ## Images -/

/-- The pages from `lo` to `hi` that are not mapped get new frames. -/
def cover (im : Image) (lo hi : Nat) : Image :=
  im.map (fun x => im x = none ∧ lo ≤ x / 4096 * 4096 ∧ x / 4096 * 4096 < hi) none

theorem cover_apply (im : Image) (lo hi x : Nat) : cover im lo hi x =
    if im x = none ∧ lo ≤ x / 4096 * 4096 ∧ x / 4096 * 4096 < hi then some none else im x := rfl

/-- The first page of each block of 4 MiB gets a new frame, mapped or not. -/
def remap (im : Image) (lo hi : Nat) : Image :=
  im.map (fun x => x / 4096 * 4096 % 0x400000 = 0 ∧ lo ≤ x / 4096 * 4096 ∧
    x / 4096 * 4096 < hi) none

theorem remap_apply (im : Image) (lo hi x : Nat) : remap im lo hi x =
    if x / 4096 * 4096 % 0x400000 = 0 ∧ lo ≤ x / 4096 * 4096 ∧ x / 4096 * 4096 < hi then some none
    else im x := rfl

def copyImage (f : File) (ph : Phdr) (im : Image) : Option Image := do
  let im ← im.write (fun i => f.buf (ph.pOffset + i)) ph.pVaddr (ph.pFilesz % 2 ^ 32)
  if ph.pFilesz < ph.pMemsz then
    im.write (fun _ => 0) ((ph.pVaddr + ph.pFilesz) % 2 ^ 64) ((ph.pMemsz - ph.pFilesz) % 2 ^ 32)
  else some im

def segmentImage64 (f : File) (ph : Phdr) (im : Image) : Option Image :=
  copyImage f ph (cover im (ph.pVaddr / 4096 * 4096) (ph.pVaddr + ph.pMemsz))

def segmentImage32 (f : File) (ph : Phdr) (im : Image) : Option Image :=
  copyImage f ph
    (remap im (ph.pVaddr / 0x400000 * 0x400000) ((ph.pVaddr + ph.pMemsz) % 2 ^ 32))

/-- The loop over the program headers. -/
def segmentImages (segment : Phdr → Image → Option Image) : List Phdr → Image → Option Image
  | [], im => some im
  | ph :: rest, im =>
    if ph.pType ≠ 1 then segmentImages segment rest im
    else (segment ph im).bind (segmentImages segment rest)

/-- The pages of the stack get new frames, which are cleared. -/
def stackImage (im : Image) : Image :=
  im.map (fun x => userStackTop - userStackSize ≤ x ∧ x < userStackTop) (some 0)

/-! ## The memory of the machine -/

/-- The memory `st`, to which a load that began in `st₀` has led, holds the image. Frames that were
in use before keep their bytes. -/
structure Sim (r : Nat) (st₀ st : Store) (im : Image) : Prop where
  shows : Image.Shows (physAddr st.vm r) st₀.bytes st.bytes (· < lowerEnd) im
  small : ∀ x < lowerEnd, ∀ m, translate st.vm r x = some m → m.level = 0
  new : ∀ x < lowerEnd, ∀ e, translate st.vm r x = some ⟨0, e⟩ →
    st₀.vm.pmm.used (Paging.pageMask e / 4096) = false
  mono : ∀ i, st₀.vm.pmm.used i = true → st.vm.pmm.used i = true
  free : ∀ a, st.vm.pmm.used (a / 4096) = false → st.bytes a = st₀.bytes a
  kept : ∀ a, st₀.vm.pmm.used (a / 4096) = true → st.bytes a = st₀.bytes a

variable {spaces : Finset Nat} {r page : Nat} {st₀ st : Store} {im im' : Image}

theorem physAddr_isSome {vm : State} {x : Nat} (hx : x < lowerEnd) :
    (physAddr vm r x).isSome = (translate vm r x).isSome := by
  rw [Paging.physAddr_lower hx, Option.isSome_map]

theorem Sim.empty (h : ∀ x < lowerEnd, translate st.vm r x = none) : Sim r st st Image.empty := by
  refine ⟨⟨?_, ?_⟩, ?_, ?_, fun _ => id, fun _ _ => rfl, fun _ _ => rfl⟩
  · intro x hx
    rw [physAddr_isSome hx, h x hx]
    rfl
  · intro x a c _ _ hc
    cases hc
  · intro x hx m hm
    rw [h x hx] at hm
    cases hm
  · intro x hx e he
    rw [h x hx] at he
    cases he

/-- An address that is translated lies in a page of 4 KiB. -/
theorem Sim.leaf (h : Sim r st₀ st im) {x : Nat} (hx : x < lowerEnd)
    (hsome : (translate st.vm r x).isSome) : ∃ e, translate st.vm r x = some ⟨0, e⟩ := by
  obtain ⟨⟨level, e⟩, hm⟩ := Option.isSome_iff_exists.mp hsome
  have hlevel : level = 0 := h.small x hx _ hm
  exact ⟨e, by rw [hm, hlevel]⟩

theorem Sim.place (h : Sim r st₀ st im) {x a : Nat} (hx : x < lowerEnd)
    (ha : physAddr st.vm r x = some a) :
    ∃ e, translate st.vm r x = some ⟨0, e⟩ ∧ a = Paging.pageMask e + x % 4096 := by
  obtain ⟨e, he⟩ := h.leaf hx (by rw [← physAddr_isSome hx, ha, Option.isSome_some])
  rw [Paging.physAddr_page hx he] at ha
  exact ⟨e, he, (Option.some.inj ha).symm⟩

theorem Sim.injective (h : Sim r st₀ st im) (hready : Ready st.vm spaces) (hr : r ∈ spaces)
    {x y a : Nat} (hx : x < lowerEnd) (hy : y < lowerEnd) (hxa : physAddr st.vm r x = some a)
    (hya : physAddr st.vm r y = some a) : x = y := by
  obtain ⟨e, he, -⟩ := h.place hx hxa
  obtain ⟨e', he', -⟩ := h.place hy hya
  exact hready.physAddr_inj hr hx hy he he' (hxa.trans hya.symm)

/-! ## Pages -/

/-- A new frame with the bytes `c` at a page; `none` is what the frame held. -/
theorem Sim.newPage {pa : Nat} {vm₁ vm₂ : State} {bytes : Mem} {c : Option UInt8}
    (h : Sim r st₀ st im) (hready : Ready st.vm spaces) (hr : r ∈ spaces)
    (ht : Taken st.vm pa vm₁) (hm : MapsPage r page pa vm₁ vm₂)
    (hother : ∀ a, a / 4096 ≠ pa / 4096 → bytes a = st.bytes a)
    (hnew : ∀ i < 4096, bytes (pa + i) = c.getD (st₀.bytes (pa + i))) :
    Sim r st₀ ⟨vm₂, bytes⟩ (im.map (fun x => page / 4096 = x / 4096) c) := by
  have hmask : Paging.pageMask (Paging.pageMask pa ||| 7) = pa := by
    rw [Paging.pageMask_of_dvd ht.aligned, Paging.pageMask_or ht.aligned (by decide)]
  have hpage : ∀ x < lowerEnd, translate vm₂ r x =
      if page / 4096 = x / 4096 then some ⟨0, Paging.pageMask pa ||| 7⟩
      else translate st.vm r x := by
    intro x hx
    rw [hm.page x hx, Paging.translate_congr ht.mem]
  have hused : ∀ i, st.vm.pmm.used i = true → vm₂.pmm.used i = true ∧ i ≠ pa / 4096 := by
    intro i hi
    refine ⟨hm.mono i (ht.mono i hi), ?_⟩
    rintro rfl
    rw [ht.free] at hi
    cases hi
  refine ⟨⟨?_, ?_⟩, ?_, ?_, fun i hi => (hused i (h.mono i hi)).1, ?_, ?_⟩
  · intro x hx
    rw [physAddr_isSome hx, hpage x hx, Image.map]
    by_cases hin : page / 4096 = x / 4096
    · rw [if_pos hin, if_pos hin]
      rfl
    · rw [if_neg hin, if_neg hin, ← physAddr_isSome hx]
      exact h.shows.mapped x hx
  · intro x a b hx ha hb
    rw [Image.map] at hb
    by_cases hin : page / 4096 = x / 4096
    · have htrans := hpage x hx
      rw [if_pos hin] at hb htrans
      rw [Paging.physAddr_page hx htrans, hmask] at ha
      cases ha
      cases hb
      exact hnew (x % 4096) (Nat.mod_lt x (by decide))
    · have htrans := hpage x hx
      rw [if_neg hin] at hb htrans
      rw [Paging.physAddr_congr hx htrans] at ha
      obtain ⟨e, he, rfl⟩ := h.place hx ha
      have hframe := (hused _ (hready.frame_used hr hx he)).2
      rw [← Proc.pageMask_add_div e x] at hframe
      exact (hother _ hframe).trans (h.shows.byte x _ b hx ha hb)
  · intro x hx m he
    rw [hpage x hx] at he
    split_ifs at he
    · cases he
      rfl
    · exact h.small x hx m he
  · intro x hx e he
    rw [hpage x hx] at he
    split_ifs at he
    · cases he
      rw [hmask, ← Bool.not_eq_true]
      intro hold
      exact (hused _ (h.mono _ hold)).2 rfl
    · exact h.new x hx e he
  · intro a ha
    have hold : st.vm.pmm.used (a / 4096) = false := by
      rw [← Bool.not_eq_true]
      intro hc
      rw [(hused _ hc).1] at ha
      cases ha
    have hne : a / 4096 ≠ pa / 4096 := by
      intro hc
      rw [hc, hm.mono _ ht.used] at ha
      cases ha
    exact (hother a hne).trans (h.free a hold)
  · intro a ha
    exact (hother a (hused _ (h.mono _ ha)).2).trans (h.kept a ha)

/-- A page is mapped to a new frame, whose bytes stay. -/
theorem Sim.map {pa : Nat} {vm₁ vm₂ : State} (h : Sim r st₀ st im) (hready : Ready st.vm spaces)
    (hr : r ∈ spaces) (ht : Taken st.vm pa vm₁) (hm : MapsPage r page pa vm₁ vm₂) :
    Sim r st₀ ⟨vm₂, st.bytes⟩ (im.map (fun x => page / 4096 = x / 4096) none) := by
  apply h.newPage hready hr ht hm (fun _ _ => rfl)
  intro i hi
  apply h.free
  have hdiv : (pa + i) / 4096 = pa / 4096 := by
    have := ht.aligned
    omega
  rw [hdiv]
  exact ht.free

/-- A page is mapped to a new frame, which is cleared. -/
theorem Sim.mapCleared {pa : Nat} {vm₁ vm₂ : State} (h : Sim r st₀ st im)
    (hready : Ready st.vm spaces) (hr : r ∈ spaces) (ht : Taken st.vm pa vm₁)
    (hm : MapsPage r page pa vm₁ vm₂) :
    Sim r st₀ ⟨vm₂, zeroFrame st.bytes pa⟩
      (im.map (fun x => page / 4096 = x / 4096) (some 0)) := by
  apply h.newPage hready hr ht hm
  · exact fun a ha => Paging.zeroFrame_other st.bytes ht.aligned ha
  · intro i hi
    exact Paging.zeroFrame_inside st.bytes (Nat.le_add_right pa i) (Nat.add_lt_add_left hi pa)

/-! ## Copies -/

theorem Sim.write {data : Nat → UInt8} {va n : Nat} {bytes : Mem} (h : Sim r st₀ st im)
    (hready : Ready st.vm spaces) (hr : r ∈ spaces) (hzone : ∀ i < n, va + i < lowerEnd)
    (hw : Virtual.write (physAddr st.vm r) data va n st.bytes = some bytes)
    (him : im.write data va n = some im') : Sim r st₀ ⟨st.vm, bytes⟩ im' := by
  have hinj : ∀ x y a, x < lowerEnd → y < lowerEnd → physAddr st.vm r x = some a →
      physAddr st.vm r y = some a → x = y :=
    fun x y a hx hy hxa hya => h.injective hready hr hx hy hxa hya
  -- a frame that is free, or was in use before, is not written
  have hframe : ∀ a, (st.vm.pmm.used (a / 4096) = false ∨ st₀.vm.pmm.used (a / 4096) = true) →
      bytes a = st.bytes a := by
    intro a ha
    apply Virtual.write_frame hw
    intro i hi hc
    obtain ⟨e, he, rfl⟩ := h.place (hzone i hi) hc
    rw [Proc.pageMask_add_div] at ha
    rcases ha with ha | ha
    · rw [hready.frame_used hr (hzone i hi) he] at ha
      cases ha
    · rw [h.new _ (hzone i hi) e he] at ha
      cases ha
  refine ⟨h.shows.write hzone hinj hw him, h.small, h.new, h.mono, ?_, ?_⟩
  · exact fun a ha => (hframe a (Or.inl ha)).trans (h.free a ha)
  · exact fun a ha => (hframe a (Or.inr ha)).trans (h.kept a ha)

/-- The writes of a segment stay in the lower half. -/
structure WritesLow (ph : Phdr) : Prop where
  file : ∀ i < ph.pFilesz % 2 ^ 32, ph.pVaddr + i < lowerEnd
  bss : ph.pFilesz < ph.pMemsz → ∀ i < (ph.pMemsz - ph.pFilesz) % 2 ^ 32,
    (ph.pVaddr + ph.pFilesz) % 2 ^ 64 + i < lowerEnd

section Copies

variable {f : File} {ph : Phdr}

/-- A copy faults exactly when its image fails. -/
theorem Sim.copy (h : Sim r st₀ st im) (hready : Ready st.vm spaces) (hr : r ∈ spaces)
    (hlow : WritesLow ph) :
    (∃ bytes im', copySegment f (physAddr st.vm r) ph st.bytes = some bytes ∧
        copyImage f ph im = some im' ∧ Sim r st₀ ⟨st.vm, bytes⟩ im') ∨
      copySegment f (physAddr st.vm r) ph st.bytes = none ∧ copyImage f ph im = none := by
  have hfile := h.shows.exists_write (fun i => f.buf (ph.pOffset + i)) hlow.file
  unfold copySegment copyImage
  cases hw : Virtual.write (physAddr st.vm r) (fun i => f.buf (ph.pOffset + i)) ph.pVaddr
      (ph.pFilesz % 2 ^ 32) st.bytes with
  | none =>
    right
    cases him : im.write (fun i => f.buf (ph.pOffset + i)) ph.pVaddr (ph.pFilesz % 2 ^ 32) with
    | none => exact ⟨rfl, rfl⟩
    | some im₁ =>
      obtain ⟨bytes, hbytes⟩ := hfile.mpr ⟨im₁, him⟩
      rw [hw] at hbytes
      cases hbytes
  | some bytes₁ =>
    obtain ⟨im₁, him⟩ := hfile.mp ⟨bytes₁, hw⟩
    rw [him]
    have h₁ := h.write hready hr hlow.file hw him
    dsimp only [bind, Option.bind]
    by_cases hlt : ph.pFilesz < ph.pMemsz
    · rw [if_pos hlt, if_pos hlt]
      have hbss := h₁.shows.exists_write (fun _ => 0) (hlow.bss hlt)
      cases hw₂ : Virtual.write (physAddr st.vm r) (fun _ => 0) ((ph.pVaddr + ph.pFilesz) % 2 ^ 64)
          ((ph.pMemsz - ph.pFilesz) % 2 ^ 32) bytes₁ with
      | none =>
        right
        cases him₂ : im₁.write (fun _ => 0) ((ph.pVaddr + ph.pFilesz) % 2 ^ 64)
            ((ph.pMemsz - ph.pFilesz) % 2 ^ 32) with
        | none => exact ⟨rfl, rfl⟩
        | some im₂ =>
          obtain ⟨bytes₂, hbytes⟩ := hbss.mpr ⟨im₂, him₂⟩
          rw [hw₂] at hbytes
          cases hbytes
      | some bytes₂ =>
        left
        obtain ⟨im₂, him₂⟩ := hbss.mp ⟨bytes₂, hw₂⟩
        exact ⟨bytes₂, im₂, rfl, him₂, h₁.write hready hr (hlow.bss hlt) hw₂ him₂⟩
    · rw [if_neg hlt, if_neg hlt]
      exact Or.inl ⟨bytes₁, im₁, rfl, rfl, h₁⟩

end Copies

/-! ## Pre-map loops -/

theorem isMapped_iff {vm : State} (hready : Ready vm spaces) (hr : r ∈ spaces) (va : Nat) :
    Paging.pagingIsMappedInto vm va r = (translate vm r va).isSome := by
  have hnull := hready.ne_null hr
  obtain ⟨x, top, -, rfl, rfl, hs⟩ := hready.sound
  exact (hs.ok.mapCalls (hs.ok.fresh.mpr hs.owned.fresh)).isMapped r r (if_pos hnull) va

/-- A page is unmapped as a whole. -/
theorem Sim.page_isSome (h : Sim r st₀ st im) {x : Nat} (hpage : page < lowerEnd)
    (hx : page / 4096 = x / 4096) : (im x).isSome = (translate st.vm r page).isSome := by
  have hend : lowerEnd = 140737488355328 := rfl
  have hlt : x < lowerEnd := by omega
  rw [← h.shows.mapped x hlt, physAddr_isSome hlt, Paging.translate_page hpage hlt hx]

theorem cover_skip {lo hi : Nat} (hlo : lo % 4096 = 0)
    (hmapped : ∀ x, lo / 4096 = x / 4096 → (im x).isSome) :
    cover im (lo + 4096) hi = cover im lo hi := by
  ext1 x
  rw [cover_apply, cover_apply]
  by_cases hx : lo / 4096 = x / 4096
  · have hne : im x ≠ none := Option.isSome_iff_ne_none.mp (hmapped x hx)
    rw [if_neg fun hc => hne hc.1, if_neg fun hc => hne hc.1]
  · apply if_congr _ rfl rfl
    constructor
    · rintro ⟨hnone, hlo', hhi⟩
      exact ⟨hnone, by omega, hhi⟩
    · rintro ⟨hnone, hlo', hhi⟩
      exact ⟨hnone, by omega, hhi⟩

theorem cover_map {lo hi : Nat} (hlo : lo % 4096 = 0) (hlt : lo < hi)
    (hnone : ∀ x, lo / 4096 = x / 4096 → im x = none) :
    cover (im.map (fun x => lo / 4096 = x / 4096) none) (lo + 4096) hi = cover im lo hi := by
  ext1 x
  rw [cover_apply, cover_apply, Image.map_apply]
  by_cases hx : lo / 4096 = x / 4096
  · rw [if_pos hx, ite_self, if_pos ⟨hnone x hx, by omega, by omega⟩]
  · rw [if_neg hx]
    apply if_congr _ rfl rfl
    constructor
    · rintro ⟨hunmapped, hlo', hhi⟩
      exact ⟨hunmapped, by omega, hhi⟩
    · rintro ⟨hunmapped, hlo', hhi⟩
      exact ⟨hunmapped, by omega, hhi⟩

theorem Sim.premap64 {bytes : Mem} {segEnd : Nat} (hr : r ∈ spaces) :
    ∀ {fuel page : Nat} {l : Elf.Load} {im : Image}, Sim r st₀ ⟨l.vm, bytes⟩ im →
      Ready l.vm spaces → page % 4096 = 0 →
      (∀ p, p % 4096 = 0 → page ≤ p → p < segEnd → p < lowerEnd) →
      (Elf.premap64 r segEnd fuel page l).1 = .done →
      Sim r st₀ ⟨(Elf.premap64 r segEnd fuel page l).2.vm, bytes⟩ (cover im page segEnd) := by
  have hend : lowerEnd = 140737488355328 := rfl
  intro fuel
  induction fuel with
  | zero =>
    intro page l im h _ _ _ hdone
    cases hdone
  | succ fuel ih =>
    intro page l im h hready halign hpages hdone
    rw [Elf.premap64] at hdone ⊢
    by_cases hpage : page < segEnd
    · have hlow := hpages page halign (le_refl _) hpage
      have hnext : (page + 4096) % 2 ^ 64 = page + 4096 := Nat.mod_eq_of_lt (by omega)
      have hrest : ∀ p, p % 4096 = 0 → page + 4096 ≤ p → p < segEnd → p < lowerEnd :=
        fun p hp hle => hpages p hp (by omega)
      rw [if_pos hpage, isMapped_iff hready hr, hnext] at hdone ⊢
      by_cases hmapped : (translate l.vm r page).isSome = true
      · rw [if_pos hmapped] at hdone ⊢
        have hskip : cover im (page + 4096) segEnd = cover im page segEnd :=
          cover_skip halign fun x hx => (h.page_isSome hlow hx).trans hmapped
        rw [← hskip]
        exact ih h hready (by omega) hrest hdone
      · rw [if_neg hmapped] at hdone ⊢
        dsimp only at hdone ⊢
        rcases hready.allocInto_cases hr hlow with ⟨hok, pa, vm₁, ht, hm⟩ | ⟨hok, -⟩
        · rw [if_pos hok] at hdone ⊢
          have hnone : ∀ x, page / 4096 = x / 4096 → im x = none := by
            intro x hx
            apply Option.not_isSome_iff_eq_none.mp
            rw [h.page_isSome hlow hx]
            exact hmapped
          rw [← cover_map halign hpage hnone]
          have hmap : Sim r st₀ ⟨(Paging.vmmAllocPageInto l.vm page 7 r).2, bytes⟩
              (im.map (fun x => page / 4096 = x / 4096) none) := h.map hready hr ht hm
          exact ih hmap (hready.allocInto hr page) (by omega) hrest hdone
        · rw [hok] at hdone
          cases hdone
    · rw [if_neg hpage]
      have hnothing : cover im page segEnd = im := by
        ext1 x
        exact if_neg fun hc => hpage (by omega)
      rw [hnothing]
      exact h

theorem remap_map {lo hi : Nat} (hlo : lo % 0x400000 = 0) (hlt : lo < hi) :
    remap (im.map (fun x => lo / 4096 = x / 4096) none) (lo + 0x400000) hi = remap im lo hi := by
  ext1 x
  rw [remap_apply, remap_apply, Image.map_apply]
  by_cases hx : lo / 4096 = x / 4096
  · rw [if_pos hx, ite_self, if_pos ⟨by omega, by omega, by omega⟩]
  · rw [if_neg hx]
    apply if_congr _ rfl rfl
    constructor
    · rintro ⟨hblock, hlo', hhi⟩
      exact ⟨hblock, by omega, hhi⟩
    · rintro ⟨hblock, hlo', hhi⟩
      exact ⟨hblock, by omega, hhi⟩

/-- The last block at which the loop for ELF32 can end. Behind it the address wraps around. -/
def lastBlock : Nat := 0xFFC00000

theorem Sim.premap32 {bytes : Mem} {segEnd : Nat} (hr : r ∈ spaces) (hend : segEnd ≤ lastBlock) :
    ∀ {fuel block : Nat} {l : Elf.Load} {im : Image}, Sim r st₀ ⟨l.vm, bytes⟩ im →
      Ready l.vm spaces → block % 0x400000 = 0 →
      (Elf.premap32 r segEnd fuel block l).1 = .done →
      Sim r st₀ ⟨(Elf.premap32 r segEnd fuel block l).2.vm, bytes⟩ (remap im block segEnd) := by
  have hlast : lastBlock = 4290772992 := rfl
  have hlower : lowerEnd = 140737488355328 := rfl
  intro fuel
  induction fuel with
  | zero =>
    intro block l im h _ _ hdone
    cases hdone
  | succ fuel ih =>
    intro block l im h hready halign hdone
    rw [Elf.premap32] at hdone ⊢
    by_cases hblock : block < segEnd
    · have hnext : (block + 0x400000) % 2 ^ 32 = block + 0x400000 := Nat.mod_eq_of_lt (by omega)
      rw [if_pos hblock, hnext] at hdone ⊢
      dsimp only at hdone ⊢
      rcases hready.allocInto_cases hr (show block < lowerEnd by omega) with
        ⟨hok, pa, vm₁, ht, hm⟩ | ⟨hok, -⟩
      · rw [if_pos hok] at hdone ⊢
        rw [← remap_map halign hblock]
        have hmap : Sim r st₀ ⟨(Paging.vmmAllocPageInto l.vm block 7 r).2, bytes⟩
            (im.map (fun x => block / 4096 = x / 4096) none) := h.map hready hr ht hm
        exact ih hmap (hready.allocInto hr block) (by omega) hdone
      · rw [hok] at hdone
        cases hdone
    · rw [if_neg hblock]
      have hnothing : remap im block segEnd = im := by
        ext1 x
        exact if_neg fun hc => hblock (by omega)
      rw [hnothing]
      exact h

/-- If a segment reaches into the last block, its loop never ends well. -/
theorem premap32_endless {segEnd : Nat} (hend : lastBlock < segEnd) :
    ∀ (fuel block : Nat) (l : Elf.Load), block % 0x400000 = 0 → block < 2 ^ 32 →
      (Elf.premap32 r segEnd fuel block l).1 ≠ .done := by
  have hlast : lastBlock = 4290772992 := rfl
  intro fuel
  induction fuel with
  | zero =>
    intro block l _ _ hc
    cases hc
  | succ fuel ih =>
    intro block l halign hlt
    rw [Elf.premap32, if_pos (by omega)]
    dsimp only
    split_ifs
    · exact ih _ _ (by omega) (Nat.mod_lt _ (by decide))
    · intro hc
      cases hc

/-! ## Segments -/

/-- A part of the loader does what its image does, unless it stops before its end. -/
structure Follows (spaces : Finset Nat) (r : Nat) (st₀ : Store) (out : Outcome × Store)
    (im : Option Image) : Prop where
  ready : Ready out.2.vm spaces
  done : out.1 = .done → ∃ im', im = some im' ∧ Sim r st₀ out.2 im'
  faulted : out.1 = .faulted → im = none

variable {f : File} {ph : Phdr} {fuel : Nat}

theorem Follows.failed (h : Ready st.vm spaces) (im : Option Image) :
    Follows spaces r st₀ (.failed, st) im :=
  ⟨h, (fun hc => by cases hc), fun hc => by cases hc⟩

theorem copyMapped_follows {bytes : Mem} {out : Elf.Outcome × Elf.Load} (hr : r ∈ spaces)
    (hlow : WritesLow ph) (hready : Ready out.2.vm spaces)
    (h : out.1 = .done → Sim r st₀ ⟨out.2.vm, bytes⟩ im) :
    Follows spaces r st₀ (copyMapped f r ph bytes out) (copyImage f ph im) := by
  obtain ⟨o, l⟩ := out
  cases o with
  | spinning => exact ⟨hready, (fun hc => by cases hc), fun hc => by cases hc⟩
  | failed => exact ⟨hready, (fun hc => by cases hc), fun hc => by cases hc⟩
  | done =>
    unfold copyMapped
    dsimp only
    have hcopy := (h rfl).copy (f := f) hready hr hlow
    dsimp only at hcopy
    rcases hcopy with ⟨bytes', im', hbytes, him, hsim⟩ | ⟨hbytes, him⟩
    · rw [hbytes, him]
      exact ⟨hready, fun _ => ⟨im', rfl, hsim⟩, fun hc => by cases hc⟩
    · rw [hbytes, him]
      exact ⟨hready, (fun hc => by cases hc), fun _ => rfl⟩

/-- What an ELF64 segment maps and writes lies in the lower half. -/
structure InLowerHalf (ph : Phdr) : Prop where
  pages : ∀ p, ph.Page p → p < lowerEnd
  file : 0 < ph.pFilesz → ph.pVaddr + ph.pFilesz ≤ lowerEnd
  bss : ph.pFilesz < ph.pMemsz → 0 < (ph.pMemsz - ph.pFilesz) % 2 ^ 32 →
    ph.pVaddr + ph.pFilesz + (ph.pMemsz - ph.pFilesz) % 2 ^ 32 ≤ lowerEnd

theorem holds_lt (h : f.holds ph = true) : ph.pFilesz < 2 ^ 32 := by
  have hlt := f.size_lt
  unfold File.holds at h
  rw [Bool.and_eq_true, decide_eq_true_eq, decide_eq_true_eq] at h
  omega

theorem InLowerHalf.writes (h : InLowerHalf ph) (hsize : ph.pFilesz < 2 ^ 32) : WritesLow ph := by
  have hend : lowerEnd = 140737488355328 := rfl
  refine ⟨?_, ?_⟩
  · intro i hi
    rw [Nat.mod_eq_of_lt hsize] at hi
    have := h.file (by omega)
    omega
  · intro hlt i hi
    have := h.bss hlt (by omega)
    rw [Nat.mod_eq_of_lt (by omega)]
    omega

theorem Sim.segment64 (h : Sim r st₀ st im) (hready : Ready st.vm spaces) (hr : r ∈ spaces)
    (hlow : f.accepts ph = true → InLowerHalf ph) :
    Follows spaces r st₀ (segment64 f r fuel ph st) (segmentImage64 f ph im) := by
  unfold Loader.segment64
  split_ifs with hmem hholds
  · exact Follows.failed hready _
  · exact Follows.failed hready _
  · rw [Bool.not_eq_true, Bool.not_eq_false'] at hholds
    have hlow := hlow (by simpa [File.accepts, hholds] using hmem)
    have hloop : Ready (Loader.premap64 r fuel ph st.vm).2.vm spaces :=
      Proc.premap64_ready hr hready
    refine copyMapped_follows hr (hlow.writes (holds_lt hholds)) hloop ?_
    intro hdone
    exact Sim.premap64 hr h hready (Nat.mul_mod_left _ _)
      (fun p hp hlo hhi => hlow.pages p ⟨hp, hlo, hhi⟩) hdone

/-- The fields of an ELF32 program header have 32 bits. -/
structure Fields32 (ph : Phdr) : Prop where
  pVaddr : ph.pVaddr < 2 ^ 32
  pFilesz : ph.pFilesz < 2 ^ 32
  pMemsz : ph.pMemsz < 2 ^ 32

theorem fields32 (f : File) {ph : Phdr} (h : ph ∈ f.phdrs32) : Fields32 ph := by
  obtain ⟨i, -, rfl⟩ := List.mem_map.mp h
  exact ⟨load_lt f.buf _ 4, load_lt f.buf _ 4, load_lt f.buf _ 4⟩

theorem Fields32.writes (h : Fields32 ph) : WritesLow ph := by
  have hend : lowerEnd = 140737488355328 := rfl
  have hv := h.pVaddr
  have hf := h.pFilesz
  refine ⟨?_, ?_⟩
  · intro i hi
    omega
  · intro _ i hi
    omega

theorem Sim.segment32 (h : Sim r st₀ st im) (hready : Ready st.vm spaces) (hr : r ∈ spaces)
    (hfields : Fields32 ph) :
    Follows spaces r st₀ (segment32 f r fuel ph st) (segmentImage32 f ph im) := by
  have hv := hfields.pVaddr
  unfold Loader.segment32
  split_ifs with hholds
  · exact Follows.failed hready _
  · have hloop : Ready (Loader.premap32 r fuel ph st.vm).2.vm spaces :=
      Proc.premap32_ready hr hready
    refine copyMapped_follows hr hfields.writes hloop ?_
    intro hdone
    by_cases hend : (ph.pVaddr + ph.pMemsz) % 2 ^ 32 ≤ lastBlock
    · exact Sim.premap32 hr hend h hready (Nat.mul_mod_left _ _) hdone
    · exact absurd hdone (premap32_endless (Nat.lt_of_not_le hend) _ _ _ (Nat.mul_mod_left _ _)
        (by omega))

/-- The loop over the headers; `P` is what is known of the headers that are left. -/
theorem segments_follows {segment : Phdr → Store → Outcome × Store}
    {segmentImage : Phdr → Image → Option Image} {P : List Phdr → Prop}
    (hskip : ∀ ph rest, P (ph :: rest) → ph.pType ≠ 1 → P rest)
    (hstep : ∀ ph rest, P (ph :: rest) → ph.pType = 1 → ∀ st im, Sim r st₀ st im →
      Ready st.vm spaces → Follows spaces r st₀ (segment ph st) (segmentImage ph im) ∧
        ((segment ph st).1 = .done → P rest)) :
    ∀ {phs : List Phdr} {st : Store} {im : Image}, P phs → Sim r st₀ st im →
      Ready st.vm spaces →
      Follows spaces r st₀ (segments segment phs st) (segmentImages segmentImage phs im) := by
  intro phs
  induction phs with
  | nil => exact fun _ h hready => ⟨hready, fun _ => ⟨_, rfl, h⟩, fun hc => by cases hc⟩
  | cons ph rest ih =>
    intro st im hP h hready
    rw [segments, segmentImages]
    by_cases htype : ph.pType = 1
    · rw [if_neg (not_not.mpr htype), if_neg (not_not.mpr htype)]
      obtain ⟨hfollows, hrest⟩ := hstep ph rest hP htype st im h hready
      revert hfollows hrest
      generalize segment ph st = out
      obtain ⟨o, st₁⟩ := out
      intro hfollows hrest
      cases o with
      | spinning => exact ⟨hfollows.ready, (fun hc => by cases hc), fun hc => by cases hc⟩
      | failed => exact ⟨hfollows.ready, (fun hc => by cases hc), fun hc => by cases hc⟩
      | faulted =>
        rw [hfollows.faulted rfl]
        exact ⟨hfollows.ready, (fun hc => by cases hc), fun _ => rfl⟩
      | done =>
        obtain ⟨im', him, hsim⟩ := hfollows.done rfl
        rw [him]
        exact ih (hrest rfl) hsim hfollows.ready
    · rw [if_pos htype, if_pos htype]
      exact ih (hskip ph rest hP htype) h hready

theorem segment64_accepts {st : Store} (h : (segment64 f r fuel ph st).1 = .done) :
    f.accepts ph = true := by
  unfold segment64 at h
  split_ifs at h with hmem hholds
  rw [Bool.not_eq_true, Bool.not_eq_false'] at hholds
  unfold File.accepts
  rw [hholds, Bool.and_true, decide_eq_true_eq]
  omega

theorem Sim.segments64 (h : Sim r st₀ st im) (hready : Ready st.vm spaces) (hr : r ∈ spaces)
    (hlow : ∀ ph ∈ f.accepted f.phdrs64, InLowerHalf ph) :
    Follows spaces r st₀ (segments64 f r fuel st)
      (segmentImages (segmentImage64 f) f.phdrs64 im) := by
  refine segments_follows (P := fun phs => ∀ ph ∈ f.accepted phs, InLowerHalf ph) ?_ ?_ hlow h
    hready
  · intro ph rest hP htype
    rwa [File.accepted, if_pos htype] at hP
  · intro ph rest hP htype st im h hready
    rw [File.accepted, if_neg (not_not.mpr htype)] at hP
    refine ⟨h.segment64 hready hr ?_, ?_⟩
    · intro hacc
      rw [if_pos hacc] at hP
      exact hP ph List.mem_cons_self
    · intro hdone
      rw [if_pos (segment64_accepts hdone)] at hP
      exact fun q hq => hP q (List.mem_cons_of_mem ph hq)

theorem Sim.segments32 (h : Sim r st₀ st im) (hready : Ready st.vm spaces) (hr : r ∈ spaces) :
    Follows spaces r st₀ (segments32 f r fuel st)
      (segmentImages (segmentImage32 f) f.phdrs32 im) := by
  refine segments_follows (P := fun phs => ∀ ph ∈ phs, Fields32 ph) ?_ ?_
    (fun ph hph => fields32 f hph) h hready
  · exact fun ph rest hP _ q hq => hP q (List.mem_cons_of_mem ph hq)
  · intro ph rest hP _ st im h hready
    refine ⟨h.segment32 hready hr (hP ph List.mem_cons_self), ?_⟩
    exact fun _ q hq => hP q (List.mem_cons_of_mem ph hq)

/-! ## The stack -/

theorem mem_stackPages {p : Nat} : p ∈ Elf.stackPages ↔
    userStackTop - userStackSize ≤ p ∧ p < userStackTop ∧ p % 4096 = 0 := by
  have htop : userStackTop = 201326592 := rfl
  have hsize : userStackSize = 262144 := rfl
  unfold Elf.stackPages
  rw [List.mem_map]
  constructor
  · rintro ⟨i, hi, rfl⟩
    rw [List.mem_range] at hi
    omega
  · rintro ⟨hlo, hhi, halign⟩
    refine ⟨(p - (userStackTop - userStackSize)) / 4096, ?_, ?_⟩
    · rw [List.mem_range]
      omega
    · omega

theorem mapStack_ready (hr : r ∈ spaces) (pages : List Nat) (hready : Ready st.vm spaces) :
    Ready (mapStack r pages st).2.vm spaces := by
  rw [← (mapStack_load _ pages (l := ⟨st.vm, []⟩) rfl).2]
  exact Proc.mapStack_ready hr pages hready

theorem Sim.mapStack (hr : r ∈ spaces) : ∀ {pages : List Nat} {st : Store} {im : Image},
    Sim r st₀ st im → Ready st.vm spaces → (∀ p ∈ pages, p % 4096 = 0 ∧ p < lowerEnd) →
      (mapStack r pages st).1 = true →
      Sim r st₀ (mapStack r pages st).2
        (im.map (fun x => x / 4096 * 4096 ∈ pages) (some 0)) := by
  intro pages
  induction pages with
  | nil =>
    intro st im h _ _ _
    have hnothing : im.map (fun x => x / 4096 * 4096 ∈ ([] : List Nat)) (some 0) = im := by
      ext1 x
      exact if_neg List.not_mem_nil
    rw [hnothing]
    exact h
  | cons page rest ih =>
    intro st im h hready hpages hok
    obtain ⟨halign, hlow⟩ := hpages page List.mem_cons_self
    obtain ⟨hready₁, hrest⟩ := hready.allocMap hr page
    rw [Loader.mapStack] at hok ⊢
    rcases hready.alloc with ht | hnull
    · have hnn : (Paging.allocPage st.vm).1 ≠ Pmm.physNull := ht.ne_null
      obtain ⟨hready₂, -⟩ := hrest hnn
      dsimp only at hok hready₂ ⊢
      rw [if_neg hnn] at hok ⊢
      rcases hready₁.map hr hlow (Paging.allocPage st.vm).1 with ⟨hmapped, hm⟩ | ⟨hfail, -⟩
      · revert hok hmapped hm hready₂
        generalize Paging.vmmMapPageInto (Paging.allocPage st.vm).2 page
          (Paging.allocPage st.vm).1 7 r = out
        obtain ⟨ok, vm⟩ := out
        intro hok hready₂ hmapped hm
        cases hmapped
        dsimp only at hok hm hready₂ ⊢
        have hnew := ih (h.mapCleared hready hr ht hm) hready₂
          (fun p hp => hpages p (List.mem_cons_of_mem page hp)) hok
        convert hnew using 1
        ext1 x
        have hpage : page / 4096 = x / 4096 ↔ x / 4096 * 4096 = page := by omega
        rw [Image.map_apply, Image.map_apply, Image.map_apply]
        by_cases hx : x / 4096 * 4096 = page
        · rw [if_pos (List.mem_cons.mpr (Or.inl hx)), if_pos (hpage.mpr hx), ite_self]
        · rw [if_neg (mt hpage.mp hx)]
          apply if_congr _ rfl rfl
          rw [List.mem_cons, or_iff_right hx]
      · revert hok hfail
        generalize Paging.vmmMapPageInto (Paging.allocPage st.vm).2 page
          (Paging.allocPage st.vm).1 7 r = out
        obtain ⟨ok, vm⟩ := out
        intro hok hfail
        cases hfail
        cases hok
    · rw [hnull] at hok
      cases hok

theorem Sim.stack (h : Sim r st₀ st im) (hready : Ready st.vm spaces) (hr : r ∈ spaces)
    (hok : (Loader.mapStack r Elf.stackPages st).1 = true) :
    Sim r st₀ (Loader.mapStack r Elf.stackPages st).2 (stackImage im) := by
  have htop : userStackTop = 201326592 := rfl
  have hsize : userStackSize = 262144 := rfl
  have hend : lowerEnd = 140737488355328 := rfl
  have hpages : ∀ p ∈ Elf.stackPages, p % 4096 = 0 ∧ p < lowerEnd := by
    intro p hp
    rw [mem_stackPages] at hp
    exact ⟨hp.2.2, by omega⟩
  have himage : stackImage im = im.map (fun x => x / 4096 * 4096 ∈ Elf.stackPages) (some 0) := by
    ext1 x
    apply if_congr _ rfl rfl
    show _ ↔ x / 4096 * 4096 ∈ Elf.stackPages
    rw [mem_stackPages]
    omega
  rw [himage]
  exact h.mapStack hr hready hpages hok

end Kyuzen.Loader
