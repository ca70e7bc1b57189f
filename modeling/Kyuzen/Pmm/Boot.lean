import Kyuzen.Pmm.Reserved
import Kyuzen.Pmm.Account

/-!
# The state after boot

What `pmm_init_dynamic` needs from the boot loader is that usable entries are aligned and do not
wrap around (`Aligned`), and that one of them has room for the bitmap at or above 72 MiB
(`HasRoom`). Then it ends, and `init_exact` says which pages are free. That usable entries do
not overlap is not needed.

The loops never test an index against the size of the bitmap, only against the number of pages.
`initTouches` lists the calls of the bitmap helpers in their order: the bitmap is what they make
of the locked one (`init_touches`), and each of them stays inside.
-/

namespace Kyuzen.Pmm

open Lib

/-- A usable entry has room for the bitmap at or above 72 MiB. -/
def HasRoom (map : Memmap) : Prop :=
  ∃ e ∈ map, e.type = .usable ∧
    max e.base.toNat kernelZone + allocBytes map ≤ e.base.toNat + e.length.toNat

/-! ## The calls of the bitmap helpers -/

/-- A call of a bitmap helper, with the index it touches. -/
inductive Touch where
  | set (bit : Nat)
  | clear (bit : Nat)
  | test (bit : Nat)
  deriving DecidableEq, Repr

def Touch.bit : Touch → Nat
  | .set bit => bit
  | .clear bit => bit
  | .test bit => bit

def Touch.apply (bm : Bitmap.Words 8) : Touch → Bitmap.Words 8
  | .set bit => Bitmap.set bm bit
  | .clear bit => Bitmap.clear bm bit
  | .test _ => bm

/-- The calls of `freeLoop`. -/
def freeTouches (pages stop : Nat) : Nat → Nat → List Touch
  | 0, _ => []
  | fuel + 1, addr =>
    if addr < stop then
      (if addr / pageSize < pages then [.clear (addr / pageSize)] else []) ++
        freeTouches pages stop fuel ((addr + pageSize) % 2 ^ 64)
    else []

def entryTouches (pages : Nat) (e : MemmapEntry) : List Touch :=
  if e.type ≠ .usable then [] else freeTouches pages e.stop freeFuel e.start

/-- Steps B, C and D and the count of the used pages, for a bitmap at `bitmapPhys`. -/
def initTouches (map : Memmap) (bitmapPhys : Nat) : List Touch :=
  let pages := pagesNeeded map
  let startPage := bitmapPhys / pageSize
  map.flatMap (entryTouches pages) ++
    (List.range' 0 (min kernelLockPages pages)).map .set ++
    (List.range' startPage (min (allocPages map) (pages - startPage))).map .set ++
    (List.range (min (highestAddr map / pageSize) pages)).map .test

theorem freeLoop_touches {pages stop : Nat} : ∀ {fuel addr : Nat} {bm bm' : Bitmap.Words 8},
    freeLoop pages stop fuel addr bm = some bm' →
      (freeTouches pages stop fuel addr).foldl Touch.apply bm = bm' := by
  intro fuel
  induction fuel with
  | zero => intro addr bm bm' h; cases h
  | succ fuel ih =>
    intro addr bm bm' h
    rw [freeLoop] at h
    rw [freeTouches]
    split_ifs at h ⊢ with hin hpage
    · rw [List.foldl_append]
      exact ih h
    · exact ih h
    · exact Option.some.inj h

theorem freeUsable_touches {pages : Nat} {map : Memmap} {bm bm' : Bitmap.Words 8}
    (h : freeUsable pages bm map = some bm') :
    (map.flatMap (entryTouches pages)).foldl Touch.apply bm = bm' := by
  unfold freeUsable at h
  induction map generalizing bm with
  | nil => exact Option.some.inj h
  | cons e map ih =>
    rw [List.foldlM_cons] at h
    obtain ⟨mid, hmid, hrest⟩ := Option.bind_eq_some_iff.mp h
    have hone : (entryTouches pages e).foldl Touch.apply bm = mid := by
      unfold freeEntry at hmid
      unfold entryTouches
      split_ifs at hmid ⊢
      · exact Option.some.inj hmid
      · exact freeLoop_touches hmid
    rw [List.flatMap_cons, List.foldl_append, hone]
    exact ih hrest

theorem setRange_touches (bm : Bitmap.Words 8) (lo n : Nat) :
    ((List.range' lo n).map Touch.set).foldl Touch.apply bm = Bitmap.setRange bm lo n := by
  induction n with
  | zero => rfl
  | succ n ih =>
    rw [List.range'_concat, List.map_append, List.foldl_append, ih, one_mul]
    rfl

theorem test_touches (bm : Bitmap.Words 8) (bits : List Nat) :
    (bits.map Touch.test).foldl Touch.apply bm = bm := by
  induction bits with
  | nil => rfl
  | cons bit bits ih => exact ih

/-- The bitmap is what the calls make of the one in which every page is locked. -/
theorem init_touches {map : Memmap} {p : State} {bitmapPhys : Nat}
    (hregion : findBitmapRegion map = some bitmapPhys) (h : pmmInitDynamic map = some p) :
    p.bitmap = (initTouches map bitmapPhys).foldl Touch.apply (lockAll (allocBytes map)) := by
  unfold pmmInitDynamic at h
  split at h
  · cases h
  · obtain ⟨b, hb, h⟩ := Option.bind_eq_some_iff.mp h
    obtain ⟨freed, hfreed, h⟩ := Option.bind_eq_some_iff.mp h
    cases h
    rw [hregion] at hb
    cases hb
    unfold initTouches
    dsimp only
    rw [List.foldl_append, List.foldl_append, List.foldl_append, freeUsable_touches hfreed,
      setRange_touches, setRange_touches, test_touches]
    rfl

/-! ## Every call stays inside the bitmap -/

theorem freeTouches_lt {pages stop : Nat} : ∀ {fuel addr : Nat} {t : Touch},
    t ∈ freeTouches pages stop fuel addr → t.bit < pages := by
  intro fuel
  induction fuel with
  | zero => intro addr t ht; cases ht
  | succ fuel ih =>
    intro addr t ht
    rw [freeTouches] at ht
    split_ifs at ht with hin hpage
    · rcases List.mem_append.mp ht with ht | ht
      · rw [List.mem_singleton.mp ht]
        exact hpage
      · exact ih ht
    · exact ih ht
    · cases ht

theorem initTouches_lt {map : Memmap} {bitmapPhys : Nat} {t : Touch}
    (ht : t ∈ initTouches map bitmapPhys) : t.bit < pagesNeeded map := by
  unfold initTouches at ht
  simp only [List.mem_append, List.mem_flatMap, List.mem_map, List.mem_range'_1,
    List.mem_range] at ht
  rcases ht with ((⟨e, -, he⟩ | ⟨bit, hbit, rfl⟩) | ⟨bit, hbit, rfl⟩) | ⟨bit, hbit, rfl⟩
  · unfold entryTouches at he
    split_ifs at he
    · cases he
    · exact freeTouches_lt he
  · show bit < pagesNeeded map
    omega
  · show bit < pagesNeeded map
    omega
  · show bit < pagesNeeded map
    omega

/-! ## Initialisation ends -/

theorem freeLoop_isSome {pages stop : Nat} (hstop : stop ≤ 2 ^ 64 - pageSize) :
    ∀ (n addr : Nat) (bm : Bitmap.Words 8), addr % pageSize = 0 → stop ≤ addr + n * pageSize →
      ∃ bm', freeLoop pages stop (n + 1) addr bm = some bm' := by
  intro n
  induction n with
  | zero =>
    intro addr bm _ hend
    refine ⟨bm, ?_⟩
    rw [freeLoop, if_neg (by omega)]
  | succ n ih =>
    intro addr bm halign hend
    rw [freeLoop]
    by_cases hin : addr < stop
    · rw [if_pos hin]
      simp only [pageSize] at hstop halign hend ⊢
      have hnext : (addr + 4096) % 2 ^ 64 = addr + 4096 := Nat.mod_eq_of_lt (by omega)
      rw [hnext]
      apply ih
      · simp only [pageSize]
        omega
      · simp only [pageSize]
        omega
    · rw [if_neg hin]
      exact ⟨bm, rfl⟩

variable {map : Memmap}

theorem Aligned.stop_eq (hmap : Aligned map) {e : MemmapEntry} (he : e ∈ map)
    (hu : e.type = .usable) :
    e.stop = e.base.toNat + e.length.toNat ∧ e.stop ≤ 2 ^ 64 - pageSize := by
  obtain ⟨hbase, hlength, hwrap⟩ := hmap e he hu
  have hstop : e.stop = e.base.toNat + e.length.toNat := Nat.mod_eq_of_lt hwrap
  refine ⟨hstop, ?_⟩
  rw [hstop]
  simp only [pageSize] at *
  omega

theorem Aligned.start_eq (hmap : Aligned map) {e : MemmapEntry} (he : e ∈ map)
    (hu : e.type = .usable) : e.start = e.base.toNat := by
  unfold MemmapEntry.start
  rw [if_neg (not_not_intro (hmap e he hu).1)]

theorem Aligned.freeUsable_isSome (hmap : Aligned map) (pages : Nat) (bm : Bitmap.Words 8) :
    ∃ bm', freeUsable pages bm map = some bm' := by
  unfold freeUsable
  induction map generalizing bm with
  | nil => exact ⟨bm, rfl⟩
  | cons e map ih =>
    have hone : ∃ mid, freeEntry pages bm e = some mid := by
      unfold freeEntry
      split_ifs with hu
      · exact ⟨bm, rfl⟩
      · have hend := (hmap.stop_eq List.mem_cons_self (not_not.mp hu)).2
        refine freeLoop_isSome hend (2 ^ 52) e.start bm e.start_aligned ?_
        have := e.stop_lt
        simp only [pageSize]
        omega
    obtain ⟨mid, hmid⟩ := hone
    obtain ⟨bm', hbm'⟩ := ih (fun e' he' => hmap e' (List.mem_cons_of_mem e he')) mid
    refine ⟨bm', ?_⟩
    rw [List.foldlM_cons, hmid]
    exact hbm'

theorem HasRoom.region (hmap : Aligned map) (hroom : HasRoom map) :
    highestAddr map ≠ 0 ∧ ∃ bitmapPhys, findBitmapRegion map = some bitmapPhys := by
  obtain ⟨e, he, hu, hfits⟩ := hroom
  have hstop := (hmap.stop_eq he hu).1
  have hhigh := stop_le_highestAddr he hu
  have hzone : kernelZone = 75497472 := rfl
  have hpages : 0 < pagesNeeded map := by
    unfold pagesNeeded
    simp only [pageSize]
    omega
  have hbytes : 0 < allocBytes map := by
    unfold allocBytes
    simp only [pageSize]
    omega
  refine ⟨by omega, ?_⟩
  have hone : (regionFor (allocBytes map) e).isSome = true := by
    unfold regionFor
    rw [if_neg (not_not_intro hu)]
    dsimp only
    rw [hmap.start_eq he hu, hstop]
    split_ifs
    all_goals first
      | rfl
      | omega
  apply Option.isSome_iff_exists.mp
  unfold findBitmapRegion
  rw [List.findSome?_isSome_iff]
  exact ⟨e, he, hone⟩

theorem init_isSome (hmap : Aligned map) (hroom : HasRoom map) :
    ∃ p, pmmInitDynamic map = some p := by
  obtain ⟨hhigh, bitmapPhys, hregion⟩ := hroom.region hmap
  obtain ⟨freed, hfreed⟩ :=
    hmap.freeUsable_isSome (pagesNeeded map) (lockAll (allocBytes map))
  unfold pmmInitDynamic
  rw [if_neg hhigh, hregion, Option.bind_eq_bind, Option.bind_some]
  dsimp only
  rw [hfreed]
  exact ⟨_, rfl⟩

/-! ## Which pages are free -/

/-- What initialisation leaves behind, with its bitmap at `bitmapPhys`. -/
structure Exact (map : Memmap) (bitmapPhys : Nat) (p : State) : Prop where
  region : findBitmapRegion map = some bitmapPhys
  bytes : p.bitmapBytes = allocBytes map
  total : p.totalPages = highestAddr map / pageSize
  free_iff : ∀ i < p.totalPages, p.used i = false ↔
    InsideUsable map i ∧ 0x4800000 ≤ i * pageSize ∧
      ¬ (bitmapPhys ≤ i * pageSize ∧ i * pageSize < bitmapPhys + allocBytes map)
  touches : p.bitmap =
    (initTouches map bitmapPhys).foldl Touch.apply (lockAll (allocBytes map))
  inside : ∀ t ∈ initTouches map bitmapPhys, t.bit < 8 * allocBytes map
  counted : p.usedPages = (List.range p.totalPages).countP p.used

/-- Aligned entries consist of whole pages. -/
theorem Aligned.starts_iff (hmap : Aligned map) (i : Nat) :
    StartsInUsable map i ↔ InsideUsable map i := by
  refine ⟨?_, startsInUsable_of_inside⟩
  rintro ⟨e, he, hu, hlo, hhi⟩
  obtain ⟨hbase, hlength, hwrap⟩ := hmap e he hu
  rw [hmap.start_eq he hu] at hlo
  rw [(hmap.stop_eq he hu).1] at hhi
  refine ⟨e, he, hu, hwrap, hlo, ?_⟩
  simp only [pageSize] at *
  omega

/-- The bitmap lies in whole pages. -/
theorem holdsBitmap_iff {bitmapPhys : Nat} (hregion : findBitmapRegion map = some bitmapPhys)
    (i : Nat) : HoldsBitmap map i ↔
      bitmapPhys ≤ i * pageSize ∧ i * pageSize < bitmapPhys + allocBytes map := by
  obtain ⟨-, -, -, -, -, -, -, hpage⟩ := findBitmapRegion_spec hregion
  have hfull : allocBytes map % pageSize = 0 := Nat.mul_mod_left _ _
  unfold HoldsBitmap allocPages
  rw [hregion]
  simp only [pageSize, Option.mem_some_iff, exists_eq_left'] at *
  omega

theorem init_bytes {p : State} (h : pmmInitDynamic map = some p) :
    p.bitmapBytes = allocBytes map := by
  unfold pmmInitDynamic at h
  split at h
  · cases h
  · obtain ⟨b, -, h⟩ := Option.bind_eq_some_iff.mp h
    obtain ⟨freed, -, h⟩ := Option.bind_eq_some_iff.mp h
    cases h
    rfl

/-- For every memory map that the boot loader may hand over, with room for the bitmap,
initialisation ends; a page is free exactly when it is usable memory at or above 72 MiB that does
not hold the bitmap, the helpers stay inside the bitmap, and `used_pages` counts the pages that
are not free. -/
theorem init_exact (hmap : Aligned map) (hroom : HasRoom map) :
    ∃ p bitmapPhys, pmmInitDynamic map = some p ∧ Exact map bitmapPhys p := by
  obtain ⟨p, hinit⟩ := init_isSome hmap hroom
  obtain ⟨-, bitmapPhys, hregion⟩ := hroom.region hmap
  have hboot := init_spec hinit
  refine ⟨p, bitmapPhys, hinit, ?_⟩
  refine ⟨hregion, init_bytes hinit, hboot.totalPages, ?_, init_touches hregion hinit, ?_,
    init_counted hinit⟩
  · intro i hi
    rw [hboot.totalPages] at hi
    have hzone : kernelLockPages ≤ i ↔ 0x4800000 ≤ i * pageSize := by
      have : kernelLockPages = 18432 := rfl
      simp only [pageSize]
      omega
    rw [hboot.used_iff i hi, hmap.starts_iff, hzone, holdsBitmap_iff hregion]
  · intro t ht
    exact lt_of_lt_of_le (initTouches_lt ht) (pagesNeeded_le_allocBits map)

/-- A machine with two usable pages at 72 MiB: the bitmap takes the first one. -/
theorem init_exact_twoPages :
    ∃ p bitmapPhys, pmmInitDynamic twoPages = some p ∧ Exact twoPages bitmapPhys p := by
  apply init_exact aligned_twoPages
  refine ⟨⟨0x4800000, 0x2000, .usable⟩, List.mem_singleton_self _, rfl, ?_⟩
  unfold allocBytes
  rw [pagesNeeded_twoPages]
  decide

end Kyuzen.Pmm
