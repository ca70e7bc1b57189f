import Kyuzen.Loader.Image
import Kyuzen.Paging.Room

/-!
# Loads with enough memory

Every page that the loader maps costs at most four frames: its own, and three for tables. So a
machine with four frames for each page that a file can ask for (`Ample`) loads it, unless the
loader itself rejects the file or faults (`segments64_ample`, `segments32_ample`).
-/

namespace Kyuzen.Loader

open Lib Lib.Memory
open Elf (File Phdr)
open Proc (Ready Taken MapsPage)
open Paging (State Store lowerEnd translate freePages allocPage vmmMapPageInto vmmAllocPageInto)

variable {vm : State} {spaces : Finset Nat} {r va : Nat}

/-! ## One page -/

/-- An address space whose lower half has no huge pages. -/
def SmallPages (vm : State) (r : Nat) : Prop :=
  ∀ p n, Radix.walk Paging.nextOf vm.mem 3 r p = some n → p.length < 3 →
    ∀ i : Fin 512, (p = [] → i.val < 256) → Paging.huge (vm.mem n i) = false

theorem smallPages_iff {live : Finset Nat} (top : Fin 512 → Nat) (hr : r ∈ live) :
    SmallPages vm r ↔ Paging.Plain vm live top (.space r) := by
  have hnode : ∀ p, Paging.tableAt vm live top (.space r) p =
      Radix.walk Paging.nextOf vm.mem 3 r p := by
    intro p
    rw [Paging.tableAt, Radix.node_of_root (Paging.roots_space hr)]
  have hlevel : (Paging.Anchor.space r).level = 3 := rfl
  unfold SmallPages Paging.Plain
  rw [hlevel]
  constructor
  · intro h p n hn hp i hi
    apply h p n ((hnode p).symm.trans hn) hp i
    rintro rfl
    exact hi rfl
  · intro h p n hn hp i hi
    apply h p n ((hnode p).trans hn) hp i
    intro hlen
    exact hi (List.eq_nil_of_length_eq_zero (by omega))

/-- A target with `n` frames to spare. -/
structure Roomy (vm : State) (spaces : Finset Nat) (r n : Nat) : Prop where
  ready : Ready vm spaces
  mem : r ∈ spaces
  small : SmallPages vm r
  free : n ≤ (freePages vm.pmm).card

theorem Roomy.mono {m n : Nat} (h : Roomy vm spaces r n) (hle : m ≤ n) : Roomy vm spaces r m :=
  ⟨h.ready, h.mem, h.small, hle.trans h.free⟩

/-- A page is mapped to a new frame. -/
theorem Roomy.page {n : Nat} (h : Roomy vm spaces r (n + 4)) (hva : va < lowerEnd) :
    ∃ pa vm₁ vm₂, allocPage vm = (pa, vm₁) ∧ Taken vm pa vm₁ ∧
      vmmMapPageInto vm₁ va pa 7 r = (true, vm₂) ∧ MapsPage r va pa vm₁ vm₂ ∧
      Roomy vm₂ spaces r n := by
  have hnull := h.ready.ne_null h.mem
  obtain ⟨halloc, hmap⟩ := h.ready.allocMap h.mem va
  have htaken : Taken vm (allocPage vm).1 (allocPage vm).2 ∧
      (freePages vm.pmm).card ≤ (freePages (allocPage vm).2.pmm).card + 1 := by
    obtain ⟨x, top, -, rfl, -, hs⟩ := h.ready.sound
    have hfree := h.free
    obtain ⟨m, hm, hz, -, heq⟩ := Paging.allocPage_room hs.ok.shape.pmm (by omega)
    have hne : (allocPage x.vm).1 ≠ Pmm.physNull := by
      rw [heq]
      exact (Paging.used_of_take hm hz).ne_null
    refine ⟨h.ready.alloc.resolve_right fun hc => hne (congrArg Prod.fst hc), ?_⟩
    rw [heq]
    exact (Paging.freePages_take hm).ge
  obtain ⟨ht, hcard⟩ := htaken
  have hsmall : SmallPages (allocPage vm).2 r := by
    unfold SmallPages
    rw [ht.mem]
    exact h.small
  obtain ⟨hready, -⟩ := hmap ht.ne_null
  have hfree := h.free
  generalize allocPage vm = out at *
  obtain ⟨pa, vm₁⟩ := out
  dsimp only at *
  have hok : (vmmMapPageInto vm₁ va pa 7 r).1 = true ∧
      SmallPages (vmmMapPageInto vm₁ va pa 7 r).2 r ∧
      (freePages vm₁.pmm).card ≤ (freePages (vmmMapPageInto vm₁ va pa 7 r).2.pmm).card + 3 := by
    obtain ⟨x, top, -, rfl, rfl, hs⟩ := halloc.sound
    have hlive : r ∈ x.live := Finset.mem_insert_of_mem h.mem
    have hanchor : Paging.anchorOf r va = .space r := if_pos (Paging.pml4Idx_lower hva)
    have hplain := (smallPages_iff top hlive).mp hsmall
    obtain ⟨hok, hkeep, hcost⟩ := Paging.mapPage_room hs.ok.shape hs.owned.fresh hlive
      (hanchor ▸ hplain) (by omega) pa 7
    unfold vmmMapPageInto
    rw [if_neg hnull]
    exact ⟨hok, (smallPages_iff top hlive).mpr (hkeep _ hplain), hcost⟩
  have hcases := halloc.map h.mem hva pa
  generalize hout : vmmMapPageInto vm₁ va pa 7 r = out at *
  obtain ⟨ok, vm₂⟩ := out
  obtain ⟨hok, hsmall₂, hcost⟩ := hok
  dsimp only at *
  subst hok
  rcases hcases with ⟨-, hm⟩ | ⟨hfail, -⟩
  · have hroomy : Roomy vm₂ spaces r n := ⟨hready, h.mem, hsmall₂, by omega⟩
    exact ⟨pa, vm₁, vm₂, rfl, ht, hout, hm, hroomy⟩
  · cases hfail

theorem Roomy.allocInto {n : Nat} (h : Roomy vm spaces r (n + 4)) (hva : va < lowerEnd) :
    ∃ pa vm₁ vm₂, vmmAllocPageInto vm va 7 r = (true, vm₂) ∧ Taken vm pa vm₁ ∧
      MapsPage r va pa vm₁ vm₂ ∧ Roomy vm₂ spaces r n := by
  have hnull := h.ready.ne_null h.mem
  obtain ⟨pa, vm₁, vm₂, halloc, ht, hmap, hm, hroomy⟩ := h.page hva
  refine ⟨pa, vm₁, vm₂, ?_, ht, hm, hroomy⟩
  unfold vmmAllocPageInto Paging.allocAndMap
  rw [halloc]
  dsimp only
  rw [if_neg ht.ne_null, if_pos hnull, hmap]

/-! ## The pages of a file -/

/-- The pages of `S` that are not mapped. -/
def lacking (vm : State) (r : Nat) (S : Finset Nat) : Finset Nat :=
  S.filter fun i => translate vm r (i * 4096) = none

/-- Four frames for each page of `S` that is not mapped, and `k` frames to spare. -/
structure Ample (vm : State) (spaces : Finset Nat) (r : Nat) (S : Finset Nat) (k : Nat) :
    Prop where
  roomy : Roomy vm spaces r (4 * (lacking vm r S).card + k)
  low : ∀ i ∈ S, i * 4096 < lowerEnd

variable {S : Finset Nat} {k pa : Nat} {vm₁ vm₂ : State}

theorem Ample.mono {j : Nat} (h : Ample vm spaces r S k) (hle : j ≤ k) :
    Ample vm spaces r S j := ⟨h.roomy.mono (by omega), h.low⟩

theorem mem_lacking {i : Nat} : i ∈ lacking vm r S ↔ i ∈ S ∧ translate vm r (i * 4096) = none := by
  unfold lacking
  rw [Finset.mem_filter]

theorem lacking_map (hlow : ∀ i ∈ S, i * 4096 < lowerEnd) (ht : Taken vm pa vm₁)
    (hm : MapsPage r va pa vm₁ vm₂) : lacking vm₂ r S = (lacking vm r S).erase (va / 4096) := by
  ext i
  rw [Finset.mem_erase, mem_lacking, mem_lacking]
  by_cases hi : i ∈ S
  · rw [hm.page _ (hlow i hi), Paging.translate_congr ht.mem, Nat.mul_div_cancel i (by decide)]
    split_ifs with hpage
    · exact ⟨fun hc => (by cases hc.2), fun hc => absurd hpage.symm hc.1⟩
    · exact ⟨fun hc => ⟨fun h => hpage h.symm, hc⟩, fun hc => hc.2⟩
  · exact ⟨fun hc => absurd hc.1 hi, fun hc => absurd hc.2.1 hi⟩

/-- A page of `S` is mapped for the first time. -/
theorem Ample.allocNew (h : Ample vm spaces r S k) (halign : va % 4096 = 0) (hmem : va / 4096 ∈ S)
    (hnone : translate vm r va = none) :
    ∃ pa vm₁ vm₂, vmmAllocPageInto vm va 7 r = (true, vm₂) ∧ Taken vm pa vm₁ ∧
      MapsPage r va pa vm₁ vm₂ ∧ Ample vm₂ spaces r S k := by
  have hva : va / 4096 * 4096 = va := by omega
  have hlack : va / 4096 ∈ lacking vm r S := mem_lacking.mpr ⟨hmem, by rw [hva, hnone]⟩
  have hcard := Finset.card_erase_add_one hlack
  obtain ⟨pa, vm₁, vm₂, hok, ht, hm, hroomy⟩ := (h.roomy.mono (m :=
    4 * ((lacking vm r S).erase (va / 4096)).card + k + 4) (by omega)).allocInto
    (hva ▸ h.low _ hmem)
  rw [← lacking_map h.low ht hm] at hroomy
  exact ⟨pa, vm₁, vm₂, hok, ht, hm, hroomy, h.low⟩

/-- Any page is mapped, with frames that were to spare. -/
theorem Ample.spent (h : Ample vm spaces r S k) (ht : Taken vm pa vm₁)
    (hm : MapsPage r va pa vm₁ vm₂) {j : Nat}
    (hroomy : Roomy vm₂ spaces r (4 * (lacking vm r S).card + j)) : Ample vm₂ spaces r S j := by
  refine ⟨hroomy.mono ?_, h.low⟩
  rw [lacking_map h.low ht hm]
  have := Finset.card_le_card (Finset.erase_subset (va / 4096) (lacking vm r S))
  omega

theorem Ample.allocInto (h : Ample vm spaces r S (k + 4)) (hva : va < lowerEnd) :
    ∃ pa vm₁ vm₂, vmmAllocPageInto vm va 7 r = (true, vm₂) ∧ Taken vm pa vm₁ ∧
      MapsPage r va pa vm₁ vm₂ ∧ Ample vm₂ spaces r S k := by
  obtain ⟨pa, vm₁, vm₂, hok, ht, hm, hroomy⟩ := (h.roomy.mono (m :=
    4 * (lacking vm r S).card + k + 4) (by omega)).allocInto hva
  exact ⟨pa, vm₁, vm₂, hok, ht, hm, h.spent ht hm hroomy⟩

theorem Ample.page (h : Ample vm spaces r S (k + 4)) (hva : va < lowerEnd) :
    ∃ pa vm₁ vm₂, allocPage vm = (pa, vm₁) ∧ Taken vm pa vm₁ ∧
      vmmMapPageInto vm₁ va pa 7 r = (true, vm₂) ∧ MapsPage r va pa vm₁ vm₂ ∧
      Ample vm₂ spaces r S k := by
  obtain ⟨pa, vm₁, vm₂, halloc, ht, hmap, hm, hroomy⟩ := (h.roomy.mono (m :=
    4 * (lacking vm r S).card + k + 4) (by omega)).page hva
  exact ⟨pa, vm₁, vm₂, halloc, ht, hmap, hm, h.spent ht hm hroomy⟩

/-! ## Pre-map loops -/

theorem premap64_ample {segEnd : Nat} : ∀ {fuel page : Nat} {l : Elf.Load},
    Ample l.vm spaces r S k → page % 4096 = 0 → segEnd ≤ page + (fuel - 1) * 4096 → 0 < fuel →
      (∀ p, p % 4096 = 0 → page ≤ p → p < segEnd → p / 4096 ∈ S) →
      (Elf.premap64 r segEnd fuel page l).1 = .done ∧
        Ample (Elf.premap64 r segEnd fuel page l).2.vm spaces r S k := by
  have hend : lowerEnd = 140737488355328 := rfl
  intro fuel
  induction fuel with
  | zero => exact fun _ _ _ hpos => absurd hpos (Nat.lt_irrefl 0)
  | succ fuel ih =>
    intro page l h halign hfuel _ hpages
    rw [Elf.premap64]
    by_cases hpage : page < segEnd
    · have hmem := hpages page halign (le_refl page) hpage
      have hlow := h.low _ hmem
      have hnext : (page + 4096) % 2 ^ 64 = page + 4096 := Nat.mod_eq_of_lt (by omega)
      have hrest : ∀ p, p % 4096 = 0 → page + 4096 ≤ p → p < segEnd → p / 4096 ∈ S :=
        fun p hp hle => hpages p hp (by omega)
      have hfuel' : segEnd ≤ page + 4096 + (fuel - 1) * 4096 := by omega
      rw [if_pos hpage, isMapped_iff h.roomy.ready h.roomy.mem, hnext]
      split_ifs with hmapped
      · exact ih h (by omega) hfuel' (by omega) hrest
      · obtain ⟨pa, vm₁, vm₂, hok, -, -, hample⟩ := h.allocNew halign hmem
          (Option.not_isSome_iff_eq_none.mp hmapped)
        rw [hok]
        exact ih (l := ⟨vm₂, l.log ++ [.map page]⟩) hample (by omega) hfuel' (by omega) hrest
    · rw [if_neg hpage]
      exact ⟨rfl, h⟩

/-- The blocks that the loop for ELF32 visits. -/
def blocks (block segEnd : Nat) : Nat := (segEnd - block + 0x3FFFFF) / 0x400000

theorem premap32_ample {segEnd : Nat} (hend : segEnd ≤ lastBlock) :
    ∀ {fuel block j : Nat} {l : Elf.Load}, Ample l.vm spaces r S (j + 4 * blocks block segEnd) →
      block % 0x400000 = 0 → blocks block segEnd < fuel →
      (Elf.premap32 r segEnd fuel block l).1 = .done ∧
        Ample (Elf.premap32 r segEnd fuel block l).2.vm spaces r S j := by
  have hlast : lastBlock = 4290772992 := rfl
  have hlower : lowerEnd = 140737488355328 := rfl
  intro fuel
  induction fuel with
  | zero => exact fun _ _ hpos => absurd hpos (Nat.not_lt_zero _)
  | succ fuel ih =>
    intro block j l h halign hfuel
    rw [Elf.premap32]
    by_cases hblock : block < segEnd
    · have hnext : (block + 0x400000) % 2 ^ 32 = block + 0x400000 := Nat.mod_eq_of_lt (by omega)
      have hcount : blocks block segEnd = blocks (block + 0x400000) segEnd + 1 := by
        unfold blocks
        omega
      rw [hcount] at h hfuel
      obtain ⟨pa, vm₁, vm₂, hok, -, -, hample⟩ := Ample.allocInto
        (h.mono (j := j + 4 * blocks (block + 0x400000) segEnd + 4) (by omega))
        (show block < lowerEnd by omega)
      rw [if_pos hblock, hok, hnext]
      exact ih (l := ⟨vm₂, l.log ++ [.map block]⟩) hample (by omega) (by omega)
    · rw [if_neg hblock]
      exact ⟨rfl, h.mono (by omega)⟩

theorem mapStack_ample : ∀ {pages : List Nat} {j : Nat} {st : Store},
    Ample st.vm spaces r S (j + 4 * pages.length) → (∀ p ∈ pages, p < lowerEnd) →
      (mapStack r pages st).1 = true ∧ Ample (mapStack r pages st).2.vm spaces r S j := by
  intro pages
  induction pages with
  | nil => exact fun h _ => ⟨rfl, h⟩
  | cons page rest ih =>
    intro j st h hpages
    rw [List.length_cons] at h
    obtain ⟨pa, vm₁, vm₂, halloc, ht, hmap, -, hample⟩ := Ample.page
      (h.mono (j := j + 4 * rest.length + 4) (by omega)) (hpages page List.mem_cons_self)
    rw [mapStack, halloc]
    dsimp only
    rw [if_neg ht.ne_null, hmap]
    exact @ih j ⟨vm₂, Paging.zeroFrame st.bytes pa⟩ hample
      fun p hp => hpages p (List.mem_cons_of_mem page hp)

/-! ## Segments -/

/-- Iterations that suffice for every segment in the lower half. -/
def enoughFuel : Nat := 2 ^ 35 + 1

/-- A part of the loader ends well and leaves `k` frames to spare, unless its image fails. -/
def Proceeds (spaces : Finset Nat) (r : Nat) (st₀ : Store) (S : Finset Nat) (k : Nat)
    (out : Outcome × Store) (im : Option Image) : Prop :=
  (∃ st im', out = (.done, st) ∧ im = some im' ∧ Sim r st₀ st im' ∧ Ample st.vm spaces r S k) ∨
    out.1 = .faulted ∧ im = none

variable {st₀ st : Store} {im : Image} {f : File} {ph : Phdr} {fuel : Nat}

theorem copyMapped_proceeds {bytes : Mem} {out : Elf.Outcome × Elf.Load} (hlow : WritesLow ph)
    (hdone : out.1 = .done) (hample : Ample out.2.vm spaces r S k)
    (h : Sim r st₀ ⟨out.2.vm, bytes⟩ im) :
    Proceeds spaces r st₀ S k (copyMapped f r ph bytes out) (copyImage f ph im) := by
  obtain ⟨o, l⟩ := out
  cases hdone
  have hcopy := h.copy (f := f) hample.roomy.ready hample.roomy.mem hlow
  unfold copyMapped
  dsimp only at hcopy ⊢
  rcases hcopy with ⟨bytes', im', hbytes, him, hsim⟩ | ⟨hbytes, him⟩
  · rw [hbytes, him]
    exact Or.inl ⟨_, im', rfl, rfl, hsim, hample⟩
  · rw [hbytes, him]
    exact Or.inr ⟨rfl, rfl⟩

theorem segment64_of_accepts (h : f.accepts ph = true) (fuel : Nat) (st : Store) :
    segment64 f r fuel ph st = copyMapped f r ph st.bytes (premap64 r fuel ph st.vm) := by
  unfold File.accepts at h
  rw [Bool.and_eq_true, decide_eq_true_eq] at h
  unfold segment64
  rw [if_neg (by omega), h.2]
  rfl

/-- The last page of a segment. -/
theorem last_page {v n : Nat} (h : v / 4096 * 4096 < v + n) :
    v / 4096 * 4096 ≤ (v + n - 1) / 4096 * 4096 ∧ (v + n - 1) / 4096 * 4096 < v + n := by
  omega

theorem premap64_ends (h : Ample st.vm spaces r S k) (hfuel : enoughFuel ≤ fuel)
    (hpages : ∀ p, ph.Page p → p / 4096 ∈ S) :
    (premap64 r fuel ph st.vm).1 = .done ∧
      Ample (premap64 r fuel ph st.vm).2.vm spaces r S k := by
  have henough : enoughFuel = 34359738369 := rfl
  have hend : lowerEnd = 140737488355328 := rfl
  have hbound : ph.pVaddr + ph.pMemsz ≤ ph.pVaddr / 4096 * 4096 + (fuel - 1) * 4096 := by
    by_cases hempty : ph.pVaddr / 4096 * 4096 < ph.pVaddr + ph.pMemsz
    · have hlast : ph.Page ((ph.pVaddr + ph.pMemsz - 1) / 4096 * 4096) :=
        ⟨Nat.mul_mod_left _ _, last_page hempty⟩
      have hlow := h.low _ (hpages _ hlast)
      omega
    · omega
  exact premap64_ample (l := ⟨st.vm, []⟩) h (Nat.mul_mod_left _ _) hbound (by omega)
    fun p hp hlo hhi => hpages p ⟨hp, hlo, hhi⟩

theorem Sim.segment64_proceeds (h : Sim r st₀ st im) (hample : Ample st.vm spaces r S k)
    (hfuel : enoughFuel ≤ fuel) (hacc : f.accepts ph = true) (hlow : InLowerHalf ph)
    (hpages : ∀ p, ph.Page p → p / 4096 ∈ S) :
    Proceeds spaces r st₀ S k (Loader.segment64 f r fuel ph st) (segmentImage64 f ph im) := by
  have hholds : f.holds ph = true := by
    unfold File.accepts at hacc
    rw [Bool.and_eq_true] at hacc
    exact hacc.2
  obtain ⟨hdone, hample'⟩ := premap64_ends hample hfuel hpages
  rw [segment64_of_accepts hacc]
  apply copyMapped_proceeds (hlow.writes (holds_lt hholds)) hdone hample'
  exact Sim.premap64 hample.roomy.mem h hample.roomy.ready (Nat.mul_mod_left _ _)
    (fun p hp hlo hhi => hlow.pages p ⟨hp, hlo, hhi⟩) hdone

theorem segment32_of_holds (h : f.holds ph = true) (fuel : Nat) (st : Store) :
    segment32 f r fuel ph st = copyMapped f r ph st.bytes (premap32 r fuel ph st.vm) := by
  unfold segment32
  rw [h]
  rfl

/-- A segment for ELF32 visits at most 1024 blocks. -/
theorem premap32_ends (h : Ample st.vm spaces r S (k + 4096)) (hfuel : enoughFuel ≤ fuel)
    (hend : (ph.pVaddr + ph.pMemsz) % 2 ^ 32 ≤ lastBlock) :
    (premap32 r fuel ph st.vm).1 = .done ∧
      Ample (premap32 r fuel ph st.vm).2.vm spaces r S k := by
  have henough : enoughFuel = 34359738369 := rfl
  have hlast : lastBlock = 4290772992 := rfl
  have hcount : blocks (ph.pVaddr / 0x400000 * 0x400000) ((ph.pVaddr + ph.pMemsz) % 2 ^ 32) ≤
      1024 := by
    unfold blocks
    omega
  have hspare := h.mono (Nat.add_le_add_left (Nat.mul_le_mul_left 4 hcount) k)
  exact premap32_ample hend (l := ⟨st.vm, []⟩) hspare (Nat.mul_mod_left _ _)
    (hcount.trans_lt (by omega))

theorem Sim.segment32_proceeds (h : Sim r st₀ st im) (hample : Ample st.vm spaces r S (k + 4096))
    (hfuel : enoughFuel ≤ fuel) (hholds : f.holds ph = true) (hfields : Fields32 ph)
    (hend : (ph.pVaddr + ph.pMemsz) % 2 ^ 32 ≤ lastBlock) :
    Proceeds spaces r st₀ S k (Loader.segment32 f r fuel ph st) (segmentImage32 f ph im) := by
  obtain ⟨hdone, hample'⟩ := premap32_ends hample hfuel hend
  rw [segment32_of_holds hholds]
  apply copyMapped_proceeds hfields.writes hdone hample'
  exact Sim.premap32 hample.roomy.mem hend h hample.roomy.ready (Nat.mul_mod_left _ _) hdone

/-- The loop over the headers, of which each `PT_LOAD` costs at most `c` of the spare frames. -/
theorem segments_proceeds {segment : Phdr → Store → Outcome × Store}
    {segmentImage : Phdr → Image → Option Image} {Q : Phdr → Prop} {c : Nat}
    (hstep : ∀ ph, Q ph → ∀ st im j, Sim r st₀ st im → Ample st.vm spaces r S (j + c) →
      Proceeds spaces r st₀ S j (segment ph st) (segmentImage ph im)) :
    ∀ {phs : List Phdr} {st : Store} {im : Image}, (∀ ph ∈ phs, ph.pType = 1 → Q ph) →
      Sim r st₀ st im → Ample st.vm spaces r S (k + c * phs.length) →
      Proceeds spaces r st₀ S k (segments segment phs st)
        (segmentImages segmentImage phs im) := by
  intro phs
  induction phs with
  | nil => exact fun _ h hample => Or.inl ⟨_, _, rfl, rfl, h, hample⟩
  | cons ph rest ih =>
    intro st im hQ h hample
    have hQ' := fun q hq => hQ q (List.mem_cons_of_mem ph hq)
    have hlen : k + c * (ph :: rest).length = k + c * rest.length + c := by
      rw [List.length_cons, Nat.mul_succ, Nat.add_assoc]
    rw [hlen] at hample
    rw [segments, segmentImages]
    by_cases htype : ph.pType = 1
    · rw [if_neg (not_not.mpr htype), if_neg (not_not.mpr htype)]
      have hone := hstep ph (hQ ph List.mem_cons_self htype) st im _ h hample
      revert hone
      generalize segment ph st = out
      obtain ⟨o, st₁⟩ := out
      rintro (⟨st', im', heq, him, hsim, hample'⟩ | ⟨hfault, him⟩)
      · cases heq
        rw [him]
        exact ih hQ' hsim hample'
      · cases hfault
        rw [him]
        exact Or.inr ⟨rfl, rfl⟩
    · rw [if_pos htype, if_pos htype]
      exact ih hQ' h (hample.mono (by omega))

/-! ## Fresh address spaces -/

/-- An address space as `vmm_create_address_space` makes it. -/
structure FreshSpace (vm : State) (spaces : Finset Nat) (r : Nat) : Prop where
  ready : Ready vm spaces
  mem : r ∈ spaces
  small : SmallPages vm r
  empty : ∀ x < lowerEnd, translate vm r x = none

/-- What the creation of an address space leaves. -/
theorem freshSpace {vm₀ : State} {spaces₀ : Finset Nat} (h : Ready vm₀ spaces₀)
    (heq : Paging.vmmCreateAddressSpace vm₀ = (r, vm)) (hr : r ≠ Pmm.physNull) :
    FreshSpace vm (insert r spaces₀) r ∧
      (freePages vm.pmm).card + 1 = (freePages vm₀.pmm).card := by
  have hready : Ready vm (insert r spaces₀) := by
    rcases h.create with hfail | ⟨m, vm', hok, -, -, hready⟩
    · rw [heq] at hfail
      exact absurd (congrArg Prod.fst hfail) hr
    · rw [heq] at hok
      cases hok
      exact hready
  obtain ⟨x, top, -, rfl, rfl, hs⟩ := h.sound
  rcases Paging.createSpace_cases hs.ok.shape hs.owned.fresh with hfail | ⟨m, vm', hok, hc⟩
  · rw [heq] at hfail
    exact absurd (congrArg Prod.fst hfail) hr
  rw [heq] at hok
  cases hok
  have hlive : r ∈ insert r x.live := Finset.mem_insert_self r x.live
  refine ⟨⟨hready, Finset.mem_insert_self r _, ?_, ?_⟩, ?_⟩
  · rw [smallPages_iff top hlive]
    intro p n hn _ i hi
    rcases hc.tables.mp hn with ⟨-, rfl, rfl⟩ | hold
    · exact hc.shape.lower n hlive i (hi rfl)
    · obtain ⟨root, hroot, -⟩ := Option.bind_eq_some_iff.mp hold
      have hnone : Paging.roots x.live top (.space r) = none := if_neg hc.notMem
      rw [hnone] at hroot
      cases hroot
  · intro va hva
    have hmap := (Paging.create_map hs.ok hs.owned.fresh).2
    rw [heq] at hmap
    rw [hmap hr va]
    have := Paging.pml4Idx_lower hva
    exact if_neg (by omega)
  · rw [hc.pmm]
    exact Paging.freePages_take hc.free

/-- A load into a fresh address space begins with nothing. -/
theorem FreshSpace.sim (h : FreshSpace vm spaces r) (bytes : Mem) :
    Sim r ⟨vm, bytes⟩ ⟨vm, bytes⟩ Image.empty := Sim.empty h.empty

theorem FreshSpace.ample (h : FreshSpace vm spaces r) (hlow : ∀ i ∈ S, i * 4096 < lowerEnd)
    (hroom : 4 * S.card + k ≤ (freePages vm.pmm).card) : Ample vm spaces r S k := by
  refine ⟨⟨h.ready, h.mem, h.small, ?_⟩, hlow⟩
  have hcard := Finset.card_le_card (Finset.filter_subset
    (fun i => translate vm r (i * 4096) = none) S)
  unfold lacking
  omega

/-- All pages of the lower half. -/
def lowerPages : Finset Nat := Finset.range (2 ^ 35)

theorem mem_lowerPages {p : Nat} (h : p < lowerEnd) : p / 4096 ∈ lowerPages := by
  have hend : lowerEnd = 140737488355328 := rfl
  unfold lowerPages
  rw [Finset.mem_range]
  omega

/-- The large machine has memory enough for every file. -/
theorem exists_ample : Ready Paging.bigSys.vm ∅ ∧ ∃ r vm,
    Paging.vmmCreateAddressSpace Paging.bigSys.vm = (r, vm) ∧ r ≠ Pmm.physNull ∧
      FreshSpace vm {r} r ∧ 2 ^ 38 ≤ (freePages vm.pmm).card ∧
      Ample vm {r} r lowerPages (2 ^ 30) := by
  have hend : lowerEnd = 140737488355328 := rfl
  have hready : Ready Paging.bigSys.vm ∅ := ⟨_, Paging.bigSys_reach _, rfl, rfl⟩
  have hfree : 2 ^ 39 < (freePages Paging.bigSys.vm.pmm).card := Paging.bigPmm_free
  obtain ⟨x, top, -, hvm, -, hs⟩ := hready.sound
  have hshape := hs.ok.shape
  rw [hvm] at hshape
  have hne := Paging.createSpace_room hshape (Nat.zero_lt_of_lt hfree)
  have hpair := (Prod.mk.eta (p := Paging.vmmCreateAddressSpace Paging.bigSys.vm)).symm
  obtain ⟨hfresh, hcard⟩ := freshSpace hready hpair hne
  refine ⟨hready, _, _, hpair, hne, hfresh, by omega, hfresh.ample ?_ ?_⟩
  · intro i hi
    have hlt := Finset.mem_range.mp hi
    omega
  · rw [lowerPages, Finset.card_range]
    omega

end Kyuzen.Loader
