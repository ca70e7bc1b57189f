import Kyuzen.Pmm.Model

/-!
# What `pmm_init_dynamic` leaves behind

The three steps that fill the bitmap are read off bit by bit: step A locks everything,
step B frees the pages whose first byte lies in a usable entry, steps C and D lock the
first 72 MiB and the bitmap itself again. `init_spec` puts them together.

Two facts about the loops carry the proofs. The counter of step B can only wrap when the
last page of the address space lies below the end of the entry, and then it never leaves
the entry again (`freeLoop_wrap`); so a loop that ends has not wrapped. And the bitmap
region lies at or above 72 MiB and inside a usable entry, so the bitmap covers at least
the pages that step C locks (`kernelLockPages_le_pagesNeeded`).
-/

namespace Kyuzen.Pmm

open Lib

/-! ## The memory map -/

theorem MemmapEntry.stop_lt (e : MemmapEntry) : e.stop < 2 ^ 64 := Nat.mod_lt _ (by decide)

theorem MemmapEntry.start_lt (e : MemmapEntry) : e.start < 2 ^ 64 := by
  have hb := e.base.toNat_lt
  unfold MemmapEntry.start
  split_ifs with h
  all_goals
    simp only [pageSize] at h ⊢
    omega

theorem MemmapEntry.start_aligned (e : MemmapEntry) : e.start % pageSize = 0 := by
  unfold MemmapEntry.start
  split_ifs with h
  all_goals
    simp only [pageSize] at h ⊢
    omega

theorem foldl_highest_le (map : Memmap) (h : Nat) :
    h ≤ map.foldl (fun highest e =>
      if e.type = .usable ∧ e.stop > highest then e.stop else highest) h := by
  induction map generalizing h with
  | nil => exact le_refl h
  | cons e map ih =>
    refine le_trans ?_ (ih _)
    dsimp only
    split_ifs <;> omega

theorem stop_le_highestAddr {map : Memmap} {e : MemmapEntry} (he : e ∈ map)
    (hu : e.type = .usable) : e.stop ≤ highestAddr map := by
  unfold highestAddr
  generalize 0 = h
  induction map generalizing h with
  | nil => cases he
  | cons e' map ih =>
    rw [List.foldl_cons]
    rcases List.mem_cons.mp he with rfl | he
    · refine le_trans ?_ (foldl_highest_le map _)
      by_cases hgt : e.stop > h
      · rw [if_pos ⟨hu, hgt⟩]
      · rw [if_neg (fun hc => hgt hc.2)]
        omega
    · exact ih he _

theorem highestAddr_lt (map : Memmap) : highestAddr map < 2 ^ 64 := by
  have key : ∀ h < 2 ^ 64, map.foldl (fun highest e =>
      if e.type = .usable ∧ e.stop > highest then e.stop else highest) h < 2 ^ 64 := by
    induction map with
    | nil => exact fun h hh => hh
    | cons e map ih =>
      intro h hh
      have := e.stop_lt
      apply ih
      dsimp only
      split_ifs <;> omega
  exact key 0 (by decide)

/-- The first byte of page `i` lies in a usable entry, as the loop of step B reads it. -/
def StartsInUsable (map : Memmap) (i : Nat) : Prop :=
  ∃ e ∈ map, e.type = .usable ∧ e.start ≤ i * pageSize ∧ i * pageSize < e.stop

instance (map : Memmap) (i : Nat) : Decidable (StartsInUsable map i) := by
  unfold StartsInUsable
  infer_instance

/-- Page `i` holds a part of the bitmap. -/
def HoldsBitmap (map : Memmap) (i : Nat) : Prop :=
  ∃ b ∈ findBitmapRegion map, b / pageSize ≤ i ∧ i < b / pageSize + allocPages map

instance (map : Memmap) (i : Nat) : Decidable (HoldsBitmap map i) := by
  unfold HoldsBitmap
  infer_instance

/-! ## The bitmap region -/

theorem regionFor_spec {bytes b : Nat} {e : MemmapEntry} (h : regionFor bytes e = some b) :
    e.type = .usable ∧ kernelZone ≤ b ∧ e.start ≤ b ∧ b < e.stop ∧ bytes ≤ e.stop - b ∧
      b % pageSize = 0 := by
  have ha := e.start_aligned
  unfold regionFor at h
  split_ifs at h with h1
  all_goals have hu : e.type = .usable := not_not.mp h1
  · rename_i hlow
    dsimp only at h
    split_ifs at h with h2 h3
    cases h
    exact ⟨hu, le_refl _, by omega, by omega, by omega, by decide⟩
  · rename_i hhigh
    dsimp only at h
    split_ifs at h with h2 h3
    cases h
    exact ⟨hu, by omega, le_refl _, by omega, by omega, ha⟩

theorem findBitmapRegion_spec {map : Memmap} {b : Nat} (h : findBitmapRegion map = some b) :
    ∃ e ∈ map, e.type = .usable ∧ kernelZone ≤ b ∧ e.start ≤ b ∧ b < e.stop ∧
      allocBytes map ≤ e.stop - b ∧ b % pageSize = 0 := by
  obtain ⟨e, he, hreg⟩ := List.exists_of_findSome?_eq_some h
  exact ⟨e, he, regionFor_spec hreg⟩

theorem kernelLockPages_le_pagesNeeded {map : Memmap} {b : Nat}
    (h : findBitmapRegion map = some b) : kernelLockPages ≤ pagesNeeded map := by
  obtain ⟨e, he, hu, hz, _, hb, _, _⟩ := findBitmapRegion_spec h
  have hle := stop_le_highestAddr he hu
  unfold pagesNeeded kernelLockPages
  exact Nat.div_le_div_right (by omega)

theorem pagesNeeded_le_allocBits (map : Memmap) : pagesNeeded map ≤ 8 * allocBytes map := by
  unfold allocBytes
  simp only [pageSize]
  omega

/-! ## Step B -/

theorem freeLoop_wrap {pages stop : Nat} (hstop : 2 ^ 64 - pageSize < stop) :
    ∀ fuel addr bm, addr % pageSize = 0 → addr < 2 ^ 64 →
      freeLoop pages stop fuel addr bm = none := by
  intro fuel
  induction fuel with
  | zero => exact fun _ _ _ _ => rfl
  | succ fuel ih =>
    intro addr bm ha hlt
    simp only [pageSize] at hstop ha
    -- the largest page address is still below `stop`
    have hin : addr < stop := by omega
    rw [freeLoop, if_pos hin]
    apply ih
    · simp only [pageSize]
      omega
    · exact Nat.mod_lt _ (by decide)

theorem test_freeLoop {pages stop : Nat} :
    ∀ {fuel addr : Nat} {bm bm' : Bitmap.Words 8}, addr % pageSize = 0 → addr < 2 ^ 64 →
      freeLoop pages stop fuel addr bm = some bm' → ∀ i, (Bitmap.test bm' i = true ↔
        Bitmap.test bm i = true ∧ ¬ (i < pages ∧ addr ≤ i * pageSize ∧ i * pageSize < stop)) := by
  intro fuel
  induction fuel with
  | zero => intro addr bm bm' _ _ h; cases h
  | succ fuel ih =>
    intro addr bm bm' ha hlt h i
    rw [freeLoop] at h
    split_ifs at h with hin hp
    all_goals try
      have hwrap : ¬ 2 ^ 64 - pageSize < stop := by
        intro hwrap
        rw [freeLoop_wrap hwrap _ _ _ (by simp only [pageSize] at *; omega)
          (Nat.mod_lt _ (by decide))] at h
        cases h
      have hnext : (addr + pageSize) % 2 ^ 64 = addr + pageSize := by
        simp only [pageSize] at *
        omega
      rw [hnext] at h
      rw [ih (by simp only [pageSize] at *; omega) (by simp only [pageSize] at *; omega) h i]
    · rw [Bitmap.test_clear (by decide), Bool.and_eq_true, decide_eq_true_eq, and_right_comm,
        and_comm]
      simp only [pageSize] at *
      refine and_congr_right fun _ => ?_
      omega
    · simp only [pageSize] at *
      refine and_congr_right fun _ => ?_
      omega
    · cases h
      have hno : ¬ (i < pages ∧ addr ≤ i * pageSize ∧ i * pageSize < stop) := by omega
      simp [hno]

/-- Step B clears exactly the bits of the pages that start in a usable entry. -/
theorem test_freeUsable {pages : Nat} {map : Memmap} {bm bm' : Bitmap.Words 8}
    (h : freeUsable pages bm map = some bm') (i : Nat) : Bitmap.test bm' i = true ↔
      Bitmap.test bm i = true ∧ ¬ (i < pages ∧ StartsInUsable map i) := by
  unfold freeUsable at h
  induction map generalizing bm with
  | nil =>
    cases h
    simp [StartsInUsable]
  | cons e map ih =>
    rw [List.foldlM_cons] at h
    obtain ⟨mid, hmid, hrest⟩ := Option.bind_eq_some_iff.mp h
    have hone : Bitmap.test mid i = true ↔ Bitmap.test bm i = true ∧ ¬ (i < pages ∧
        e.type = .usable ∧ e.start ≤ i * pageSize ∧ i * pageSize < e.stop) := by
      unfold freeEntry at hmid
      split_ifs at hmid with hu
      · cases hmid
        simp [hu]
      · rw [test_freeLoop e.start_aligned e.start_lt hmid]
        simp [not_not.mp hu]
    rw [ih hrest, hone, and_assoc]
    refine and_congr_right fun _ => ?_
    have hsplit : StartsInUsable (e :: map) i ↔ (e.type = .usable ∧ e.start ≤ i * pageSize ∧
        i * pageSize < e.stop) ∨ StartsInUsable map i := by
      simp only [StartsInUsable, List.mem_cons, exists_eq_or_imp]
    rw [hsplit, and_or_left, not_or]

/-! ## The whole initialisation -/

theorem test_lockAll {bytes i : Nat} (hi : i < 8 * bytes) :
    Bitmap.test (lockAll bytes) i = true := by
  rw [Bitmap.test_eq (by decide), lockAll, if_pos (by omega)]
  have hlt : i % 8 < 8 := Nat.mod_lt _ (by decide)
  generalize i % 8 = k at hlt
  revert k
  decide

/-- Everything the later proofs need from a successful `pmm_init_dynamic`. -/
structure Booted (map : Memmap) (p : State) : Prop where
  ready : p.ready = true
  bitmapPages : p.bitmapPages = pagesNeeded map
  totalPages : p.totalPages = pagesNeeded map
  hint : p.nextFreeHint = kernelLockPages
  covers : kernelLockPages ≤ pagesNeeded map
  used_iff : ∀ i, i < pagesNeeded map →
    (p.used i = false ↔ StartsInUsable map i ∧ kernelLockPages ≤ i ∧ ¬ HoldsBitmap map i)

theorem init_spec {map : Memmap} {p : State} (h : pmmInitDynamic map = some p) :
    Booted map p := by
  unfold pmmInitDynamic at h
  split at h
  · cases h
  · obtain ⟨b, hb, h⟩ := Option.bind_eq_some_iff.mp h
    obtain ⟨freed, hfreed, h⟩ := Option.bind_eq_some_iff.mp h
    cases h
    have hcov := kernelLockPages_le_pagesNeeded hb
    refine ⟨rfl, rfl, Nat.min_self _, rfl, hcov, fun i hi => ?_⟩
    have hall : Bitmap.test (lockAll (allocBytes map)) i = true :=
      test_lockAll (lt_of_lt_of_le hi (pagesNeeded_le_allocBits map))
    have hhold : HoldsBitmap map i ↔
        b / pageSize ≤ i ∧ i < b / pageSize + allocPages map := by
      simp [HoldsBitmap, hb]
    rw [← Bool.not_eq_true]
    simp only [State.used, lockBitmap, lockKernelZone, Bitmap.test_setRange (by decide : 0 < 8),
      Bool.or_eq_true, decide_eq_true_eq, test_freeUsable hfreed, hall, true_and, hi, hhold]
    constructor
    · intro h
      push Not at h
      exact ⟨h.2.2, by omega, by omega⟩
    · rintro ⟨h1, h2, h3⟩ (h | h | h)
      · omega
      · omega
      · exact h h1

end Kyuzen.Pmm
