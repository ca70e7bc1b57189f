import Kyuzen.Pmm.Alloc

/-!
# Reserved pages

One bit per page stands for free, allocated and reserved. `pmm_free_page` refuses null,
unaligned, out-of-range and low addresses and pages whose bit is clear, but a reserved page
above 72 MiB (a hole of the memory map, or a page of the bitmap itself) has its bit set and
passes: the page enters the free list, and `pmm_owns_page` claims it before that.

So the bitmap keeps reserved pages apart only as long as nobody names one. `Frees` and
`Asks` are the calls that do not, `WholePages` the memory maps whose usable entries end on a
page boundary where it matters (the boot loader's alignment guarantee gives it,
`wholePages_of_aligned`). Under them the bits above 72 MiB mean what they should:
`Separated` says that a free page is allocatable and that an allocatable page is used
exactly when it was handed out and not freed since.
-/

namespace Kyuzen.Pmm

open Lib

/-! ## Pages the allocator may hand out -/

/-- Page `i` lies completely inside a usable entry. An entry that runs over the end of the
address space covers nothing. -/
def InsideUsable (map : Memmap) (i : Nat) : Prop :=
  ∃ e ∈ map, e.type = .usable ∧ e.base.toNat + e.length.toNat < 2 ^ 64 ∧
    e.base.toNat ≤ i * pageSize ∧ (i + 1) * pageSize ≤ e.base.toNat + e.length.toNat

/-- A page that is usable memory, above the kernel zone and not a part of the bitmap. -/
structure Allocatable (map : Memmap) (i : Nat) : Prop where
  inside : InsideUsable map i
  above : kernelLockPages ≤ i
  notBitmap : ¬ HoldsBitmap map i

theorem startsInUsable_of_inside {map : Memmap} {i : Nat} (h : InsideUsable map i) :
    StartsInUsable map i := by
  obtain ⟨e, he, hu, hwrap, hlo, hhi⟩ := h
  have hstop : e.stop = e.base.toNat + e.length.toNat := Nat.mod_eq_of_lt hwrap
  refine ⟨e, he, hu, ?_, ?_⟩
  · unfold MemmapEntry.start
    split_ifs with hal
    · simp only [pageSize] at hlo hhi ⊢
      rw [Nat.mod_eq_of_lt (by omega)]
      exact Nat.mul_le_mul_right _ (Nat.le_of_lt_succ (Nat.div_lt_of_lt_mul (by omega)))
    · exact hlo
  · rw [hstop]
    simp only [pageSize] at *
    omega

/-- Every page that step B frees lies inside a usable entry. -/
def WholePages (map : Memmap) : Prop :=
  ∀ i, i < pagesNeeded map → kernelLockPages ≤ i → ¬ HoldsBitmap map i →
    StartsInUsable map i → InsideUsable map i

/-- The boot loader's guarantee for usable entries. -/
def Aligned (map : Memmap) : Prop :=
  ∀ e ∈ map, e.type = .usable → e.base.toNat % pageSize = 0 ∧ e.length.toNat % pageSize = 0 ∧
    e.base.toNat + e.length.toNat < 2 ^ 64

theorem wholePages_of_aligned {map : Memmap} (h : Aligned map) : WholePages map := by
  rintro i _ _ _ ⟨e, he, hu, hlo, hhi⟩
  obtain ⟨hb, hl, hwrap⟩ := h e he hu
  have hstart : e.start = e.base.toNat := by simp [MemmapEntry.start, hb]
  have hstop : e.stop = e.base.toNat + e.length.toNat := Nat.mod_eq_of_lt hwrap
  rw [hstart] at hlo
  rw [hstop] at hhi
  refine ⟨e, he, hu, hwrap, hlo, ?_⟩
  simp only [pageSize] at *
  omega

/-! ## What has been handed out -/

/-- The addresses handed out and not freed since, by replaying the calls. -/
def outstanding (p : State) (held : List Nat) : List Op → List Nat
  | [] => held
  | .alloc :: ops =>
    outstanding (step p .alloc)
      (if (pmmAllocPage p).1 = physNull then held else (pmmAllocPage p).1 :: held) ops
  | .free addr :: ops =>
    outstanding (step p (.free addr))
      (if (pmmFreePage p addr).1 = none then held.filter (· ≠ addr) else held) ops
  | .owns addr :: ops => outstanding (step p (.owns addr)) held ops

/-- The property in one state: the next page handed out is allocatable, and
`pmm_owns_page(addr)` speaks only for pages handed out. -/
def HandsOutAllocatable (map : Memmap) (p : State) : Prop :=
  (pmmAllocPage p).1 = physNull ∨
    ((pmmAllocPage p).1 % pageSize = 0 ∧ Allocatable map ((pmmAllocPage p).1 / pageSize))

def OwnsOnlyHandedOut (p : State) (held : List Nat) (addr : Nat) : Prop :=
  pmmOwnsPage p addr = true → addr ∈ held

/-! ## The calls that name no reserved page -/

/-- `pmm_free_page(addr)` names no reserved page at or above 72 MiB. -/
def Frees (map : Memmap) (addr : Nat) : Prop :=
  addr % pageSize = 0 → kernelZone ≤ addr → addr / pageSize < pagesNeeded map →
    Allocatable map (addr / pageSize)

/-- `pmm_owns_page(addr)` names no reserved page. -/
def Asks (map : Memmap) (addr : Nat) : Prop :=
  addr ≠ physNull → addr % pageSize = 0 → addr / pageSize < pagesNeeded map →
    Allocatable map (addr / pageSize)

def NamesNoReserved (map : Memmap) : Op → Prop
  | .alloc => True
  | .free addr => Frees map addr
  | .owns _ => True

/-- Free, handed out and reserved pages are kept apart. -/
structure Separated (map : Memmap) (p : State) (held : List Nat) : Prop where
  inv : Inv p
  pages : p.bitmapPages = pagesNeeded map
  free_allocatable : ∀ i, i < pagesNeeded map → p.used i = false → Allocatable map i
  used_iff : ∀ i, i < pagesNeeded map → Allocatable map i →
    (p.used i = true ↔ i * pageSize ∈ held)
  held_page : ∀ addr ∈ held, addr % pageSize = 0 ∧ addr / pageSize < pagesNeeded map ∧
    Allocatable map (addr / pageSize)

theorem separated_boot {map : Memmap} {p : State} (hmap : WholePages map) (h : Booted map p) :
    Separated map p [] := by
  refine ⟨h.inv, h.bitmapPages, fun i hi hfree => ?_, fun i hi ha => ?_, by simp⟩
  · obtain ⟨hstart, hlow, hbit⟩ := (h.used_iff i hi).mp hfree
    exact ⟨hmap i hi hlow hbit hstart, hlow, hbit⟩
  · have hfree : p.used i = false :=
      (h.used_iff i hi).mpr ⟨startsInUsable_of_inside ha.inside, ha.above, ha.notBitmap⟩
    simp [hfree]

theorem separated_take {map : Memmap} {p : State} {held : List Nat} {i : Nat}
    (h : Separated map p held) (hi : LowestFree p i) :
    Separated map (p.take i) (i * pageSize :: held) := by
  have hlt : i < pagesNeeded map := by
    rw [← h.pages, ← h.inv.total]
    exact hi.1.1
  refine ⟨inv_take h.inv hi, h.pages, fun j hj hfree => ?_, fun j hj ha => ?_, ?_⟩
  · rw [used_take, Bool.or_eq_false_iff] at hfree
    exact h.free_allocatable j hj hfree.2
  · rw [used_take, Bool.or_eq_true, decide_eq_true_eq, List.mem_cons, h.used_iff j hj ha]
    refine or_congr_left ⟨fun hji => by rw [hji], fun hji => ?_⟩
    exact Nat.eq_of_mul_eq_mul_right (by decide) hji
  · intro addr haddr
    rcases List.mem_cons.mp haddr with rfl | haddr
    · rw [Nat.mul_mod_left, Nat.mul_div_cancel _ (by decide)]
      exact ⟨rfl, hlt, h.free_allocatable i hlt hi.1.2⟩
    · exact h.held_page addr haddr

theorem separated_release {map : Memmap} {p : State} {held : List Nat} {addr : Nat}
    (h : Separated map p held) (ha : Accepts p addr) (hok : Frees map addr) :
    Separated map (p.release (addr / pageSize)) (held.filter (· ≠ addr)) := by
  have hpage : addr / pageSize * pageSize = addr :=
    Nat.div_mul_cancel (Nat.dvd_of_mod_eq_zero ha.aligned)
  have halloc : Allocatable map (addr / pageSize) :=
    hok ha.aligned ha.above (by rw [← h.pages]; exact ha.tracked)
  refine ⟨inv_release h.inv ha, h.pages, fun j hj hfree => ?_, fun j hj haj => ?_, ?_⟩
  · rw [used_release, Bool.and_eq_false_iff, decide_eq_false_iff_not, not_not] at hfree
    rcases hfree with rfl | hfree
    · exact halloc
    · exact h.free_allocatable j hj hfree
  · rw [used_release, Bool.and_eq_true, decide_eq_true_eq, h.used_iff j hj haj, List.mem_filter,
      and_comm, decide_eq_true_eq]
    refine and_congr_right fun _ => not_congr ⟨fun hji => ?_, fun hji => ?_⟩
    · rw [hji, hpage]
    · rw [← hji, Nat.mul_div_cancel _ (by decide)]
  · intro a haddr
    exact h.held_page a (List.mem_of_mem_filter haddr)

theorem separated_run {map : Memmap} {p : State} {held : List Nat} (h : Separated map p held) :
    ∀ ops : List Op, (∀ op ∈ ops, NamesNoReserved map op) →
      Separated map (run p ops) (outstanding p held ops) := by
  intro ops
  induction ops generalizing p held with
  | nil => exact fun _ => h
  | cons op ops ih =>
    intro hops
    have hop := hops op List.mem_cons_self
    have hrest : ∀ op ∈ ops, NamesNoReserved map op := fun o ho =>
      hops o (List.mem_cons_of_mem _ ho)
    cases op with
    | alloc =>
      refine ih ?_ hrest
      rcases alloc_cases h.inv with ⟨i, hi, hz, heq⟩ | ⟨_, heq⟩
      · simp only [step, heq, if_neg (page_ne_null hz)]
        exact separated_take h hi
      · simp only [step, heq, if_true]
        exact h
    | free addr =>
      refine ih ?_ hrest
      rcases free_cases h.inv addr with ⟨⟨w, heq⟩, _⟩ | ⟨heq, ha⟩
      · simp only [step, heq, reduceCtorEq, if_false]
        exact h
      · simp only [step, heq, if_true]
        exact separated_release h ha hop
    | owns addr => exact ih h hrest

theorem separated_handsOut {map : Memmap} {p : State} {held : List Nat}
    (h : Separated map p held) : HandsOutAllocatable map p := by
  unfold HandsOutAllocatable
  rcases alloc_cases h.inv with ⟨i, hi, _, heq⟩ | ⟨_, heq⟩
  · right
    have hlt : i < pagesNeeded map := by
      rw [← h.pages, ← h.inv.total]
      exact hi.1.1
    rw [heq, Nat.mul_mod_left, Nat.mul_div_cancel _ (by decide)]
    exact ⟨rfl, h.free_allocatable i hlt hi.1.2⟩
  · exact Or.inl (by rw [heq])

theorem owns_iff {map : Memmap} {p : State} {held : List Nat} (h : Separated map p held)
    (addr : Nat) : pmmOwnsPage p addr = true ↔ addr ≠ physNull ∧ addr % pageSize = 0 ∧
      addr / pageSize < pagesNeeded map ∧ p.used (addr / pageSize) = true := by
  unfold pmmOwnsPage
  simp only [h.inv.ready, Bool.true_eq_false, if_false, h.pages]
  split_ifs with h1 h2
  · refine ⟨fun hf => (by cases hf), fun hc => ?_⟩
    rcases h1 with h1 | h1
    · exact absurd h1 hc.1
    · exact absurd hc.2.1 h1
  · exact ⟨fun hf => (by cases hf), fun hc => absurd hc.2.2.1 (by omega)⟩
  · rw [not_or, not_not] at h1
    exact ⟨fun hu => ⟨h1.1, h1.2, by omega, hu⟩, fun hc => hc.2.2.2⟩

/-- A question about `addr` is answered truthfully exactly when `addr` is no reserved page. -/
theorem separated_owns {map : Memmap} {p : State} {held : List Nat} (h : Separated map p held)
    (addr : Nat) : OwnsOnlyHandedOut p held addr ↔ Asks map addr := by
  unfold OwnsOnlyHandedOut Asks
  rw [owns_iff h]
  constructor
  · intro hown h0 hal hlt
    by_contra hno
    have hused : p.used (addr / pageSize) = true := by
      by_contra hfree
      rw [Bool.not_eq_true] at hfree
      exact hno (h.free_allocatable _ hlt hfree)
    exact hno (h.held_page addr (hown ⟨h0, hal, hlt, hused⟩)).2.2
  · rintro hask ⟨h0, hal, hlt, hused⟩
    have := (h.used_iff _ hlt (hask h0 hal hlt)).mp hused
    rwa [Nat.div_mul_cancel (Nat.dvd_of_mod_eq_zero hal)] at this

/-- **Reserved pages stay reserved** as long as no call names one: on a memory map of whole
pages, after any calls whose frees name no reserved page, the next page handed out is
allocatable, and `pmm_owns_page` is right about exactly the addresses of no reserved page. -/
theorem reserved_never_handed_out {map : Memmap} {p₀ : State}
    (hinit : pmmInitDynamic map = some p₀) (hmap : WholePages map) (ops : List Op)
    (hops : ∀ op ∈ ops, NamesNoReserved map op) :
    HandsOutAllocatable map (run p₀ ops) ∧
      ∀ addr, OwnsOnlyHandedOut (run p₀ ops) (outstanding p₀ [] ops) addr ↔ Asks map addr := by
  have h := separated_run (separated_boot hmap (init_spec hinit)) ops hops
  exact ⟨separated_handsOut h, separated_owns h⟩

theorem aligned_twoPages : Aligned twoPages := by
  intro e he _
  rw [twoPages, List.mem_singleton] at he
  subst he
  decide

theorem pagesNeeded_twoPages : pagesNeeded twoPages = kernelLockPages + 2 := by decide

theorem findBitmapRegion_twoPages : findBitmapRegion twoPages = some kernelZone := by
  decide

/-- The bitmap takes the first of the two pages. -/
theorem allocatable_twoPages : Allocatable twoPages (0x4801000 / pageSize) := by
  refine ⟨⟨_, List.mem_singleton_self _, by decide, by decide, by decide, by decide⟩, by decide, ?_⟩
  rintro ⟨b, hb, -, hlt⟩
  rw [findBitmapRegion_twoPages] at hb
  obtain rfl := Option.some.inj hb
  unfold allocPages allocBytes at hlt
  rw [pagesNeeded_twoPages] at hlt
  exact absurd hlt (by decide)

/-- The page that was given back is the next one handed out. -/
theorem reserved_never_handed_out_twoPages :
    ∃ p₀, pmmInitDynamic twoPages = some p₀ ∧
      HandsOutAllocatable twoPages (run p₀ [.alloc, .free 0x4801000, .free 0x1000]) ∧
      (pmmAllocPage (run p₀ [.alloc, .free 0x4801000, .free 0x1000])).1 = 0x4801000 := by
  have hval : (pmmInitDynamic twoPages).map (fun p₀ =>
      (pmmAllocPage (run p₀ [.alloc, .free 0x4801000, .free 0x1000])).1) = some 0x4801000 := by
    decide +kernel
  obtain ⟨p₀, hp₀, halloc⟩ := Option.map_eq_some_iff.mp hval
  refine ⟨p₀, hp₀, (reserved_never_handed_out hp₀ (wholePages_of_aligned aligned_twoPages) _
    ?_).1, halloc⟩
  intro op hop
  simp only [List.mem_cons, List.not_mem_nil, or_false] at hop
  rcases hop with rfl | rfl | rfl
  · trivial
  · exact fun _ _ _ => allocatable_twoPages
  · exact fun _ h => absurd h (by decide)

/-- The page at 72 MiB holds the bitmap of `twoPages`. `pmm_owns_page` claims it right after
boot, though nobody was given it; a free of it is accepted, and the next allocation hands
it out. -/
theorem bitmap_page_handed_out :
    ∃ p₀, pmmInitDynamic twoPages = some p₀ ∧
      (pmmOwnsPage p₀ 0x4800000 = true ∧ 0x4800000 ∉ outstanding p₀ [] []) ∧
      (pmmAllocPage (run p₀ [.free 0x4800000])).1 = 0x4800000 ∧
      ¬ Allocatable twoPages (0x4800000 / pageSize) ∧
      ¬ HandsOutAllocatable twoPages (run p₀ [.free 0x4800000]) := by
  have hsome : (pmmInitDynamic twoPages).isSome = true := by decide
  obtain ⟨p₀, hp₀⟩ := Option.isSome_iff_exists.mp hsome
  have hboot := init_spec hp₀
  have hsep := separated_boot (wholePages_of_aligned aligned_twoPages) hboot
  have hpage : 0x4800000 / pageSize = kernelLockPages := by decide
  have hlt : kernelLockPages < pagesNeeded twoPages := by
    rw [pagesNeeded_twoPages]
    omega
  have hholds : HoldsBitmap twoPages kernelLockPages := by
    refine ⟨kernelZone, findBitmapRegion_twoPages, le_refl _, ?_⟩
    unfold allocPages allocBytes
    rw [pagesNeeded_twoPages]
    decide
  have hno : ¬ Allocatable twoPages (0x4800000 / pageSize) := by
    rw [hpage]
    exact fun h => h.notBitmap hholds
  have hused : p₀.used kernelLockPages = true := by
    by_contra hfree
    rw [Bool.not_eq_true] at hfree
    exact ((hboot.used_iff _ hlt).mp hfree).2.2 hholds
  have hacc : Accepts p₀ 0x4800000 := by
    refine ⟨by decide, ?_, by decide, ?_⟩
    · rw [hpage, hboot.bitmapPages]
      exact hlt
    · rw [hpage]
      exact hused
  have hinv := inv_release hboot.inv hacc
  have hrun : run p₀ [.free 0x4800000] = p₀.release kernelLockPages := by
    rcases free_cases hboot.inv 0x4800000 with ⟨_, hrej⟩ | ⟨heq, _⟩
    · exact absurd hacc hrej
    · change (pmmFreePage p₀ 0x4800000).2 = _
      rw [heq, hpage]
  have hlow : LowestFree (p₀.release kernelLockPages) kernelLockPages := by
    refine ⟨⟨?_, by simp⟩, fun j hj => ?_⟩
    · change kernelLockPages < p₀.totalPages
      rw [hboot.totalPages]
      exact hlt
    · by_contra hlt'
      have := hinv.zone j (by omega)
      rw [hpage] at this
      rw [hj.2] at this
      cases this
  have halloc : (pmmAllocPage (p₀.release kernelLockPages)).1 = 0x4800000 := by
    rw [hpage] at hinv
    rw [alloc_eq_plainScan hinv, plainScan, lowestFree_iff.mp hlow]
    decide
  refine ⟨p₀, hp₀, ⟨?_, by simp [outstanding]⟩, by rw [hrun]; exact halloc, hno, ?_⟩
  · rw [owns_iff hsep, hpage]
    exact ⟨by decide, by decide, hlt, hused⟩
  · rw [hrun]
    rintro (h | h)
    · rw [halloc] at h
      exact absurd h (by decide)
    · rw [halloc] at h
      exact hno h.2

end Kyuzen.Pmm
