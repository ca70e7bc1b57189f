import Kyuzen.Pmm.Init

/-!
# The hint of the page allocator never skips a free page

`next_free_hint` is moved forward by allocations and back by frees of any address a
caller passes, valid or not. The invariant `Inv` says that every page below the hint is
used, and with it the first 72 MiB, which `pmm_free_page` refuses to give back. So the
scan from the hint is the scan from page `0` (`alloc_cases`), the wrapped second phase
never finds a page, and page `0` is never handed out, which leaves `PHYS_NULL` to mean
that no page is free.

`alloc_cases` and `free_cases` say what one call can do; every result about runs goes
through them.
-/

namespace Kyuzen.Pmm

open Lib

/-! ## Bits of the successor states -/

@[simp]
theorem used_take (p : State) (i j : Nat) :
    (p.take i).used j = (decide (j = i) || p.used j) :=
  Bitmap.test_set (by decide) p.bitmap i j

@[simp]
theorem used_release (p : State) (i j : Nat) :
    (p.release i).used j = (decide (j ≠ i) && p.used j) :=
  Bitmap.test_clear (by decide) p.bitmap i j

/-! ## The invariant -/

structure Inv (p : State) : Prop where
  ready : p.ready = true
  total : p.totalPages = p.bitmapPages
  /-- Page addresses fit in 64 bits. -/
  fits : p.totalPages * pageSize < 2 ^ 64
  covers : kernelLockPages ≤ p.totalPages
  /-- The hint skips no free page. -/
  below_hint : ∀ i, i < p.nextFreeHint → p.used i = true
  /-- The kernel zone is never free. -/
  zone : ∀ i, i < kernelLockPages → p.used i = true

theorem Booted.inv {map : Memmap} {p : State} (h : Booted map p) : Inv p := by
  have hlow : ∀ i, i < kernelLockPages → p.used i = true := by
    intro i hi
    by_contra hfree
    rw [Bool.not_eq_true] at hfree
    have := ((h.used_iff i (lt_of_lt_of_le hi h.covers)).mp hfree).2.1
    omega
  refine ⟨h.ready, by rw [h.totalPages, h.bitmapPages], ?_, by rw [h.totalPages]; exact h.covers,
    fun i hi => hlow i (by rw [← h.hint]; exact hi), hlow⟩
  have hlt := highestAddr_lt map
  rw [h.totalPages]
  unfold pagesNeeded
  simp only [pageSize]
  omega

/-! ## What one call does -/

/-- Page `i` is the lowest free page of the allocator. -/
def LowestFree (p : State) (i : Nat) : Prop := IsLeast {i | i < p.totalPages ∧ p.used i = false} i

theorem lowestFree_iff {p : State} {i : Nat} :
    LowestFree p i ↔ Bitmap.scanClear p.bitmap 0 p.totalPages = some i := by
  rw [Bitmap.scanClear_eq_some]
  constructor
  · rintro ⟨⟨hlt, hfree⟩, hleast⟩
    refine ⟨Nat.zero_le i, hlt, hfree, fun j _ hj => ?_⟩
    by_contra hne
    rw [Bool.not_eq_true] at hne
    have := hleast ⟨by omega, hne⟩
    omega
  · rintro ⟨_, hlt, hfree, hset⟩
    refine ⟨⟨hlt, hfree⟩, fun j hj => ?_⟩
    by_contra hlt'
    have hused : p.used j = true := hset j (Nat.zero_le j) (by omega)
    rw [hj.2] at hused
    cases hused

/-- An allocation takes the lowest free page, or finds every page used. -/
theorem alloc_cases {p : State} (hp : Inv p) :
    (∃ i, LowestFree p i ∧ kernelLockPages ≤ i ∧ pmmAllocPage p = (i * pageSize, p.take i)) ∨
      ((∀ i, i < p.totalPages → p.used i = true) ∧ pmmAllocPage p = (physNull, p)) := by
  unfold pmmAllocPage
  have hready : ¬ p.ready = false := by simp [hp.ready]
  rw [if_neg hready, Bitmap.scanClear_from_zero hp.below_hint]
  cases hscan : Bitmap.scanClear p.bitmap 0 p.totalPages with
  | some i =>
    left
    have hlow := lowestFree_iff.mpr hscan
    refine ⟨i, hlow, ?_, ?_⟩
    · by_contra hzone
      have := hp.zone i (by omega)
      rw [hlow.1.2] at this
      cases this
    · have hfit : i * pageSize % 2 ^ 64 = i * pageSize :=
        Nat.mod_eq_of_lt (lt_of_le_of_lt (Nat.mul_le_mul_right _ (le_of_lt hlow.1.1)) hp.fits)
      simp only [hfit]
  | none =>
    right
    have hall : ∀ i, i < p.totalPages → p.used i = true := fun i hi =>
      Bitmap.scanClear_eq_none.mp hscan i (Nat.zero_le i) hi
    refine ⟨hall, ?_⟩
    -- the wrapped phase looks at the same full bitmap
    have hwrap : Bitmap.scanClear p.bitmap 0
        (if p.nextFreeHint < p.totalPages then p.nextFreeHint else p.totalPages) = none := by
      refine Bitmap.scanClear_eq_none.mpr fun i _ hi => hall i ?_
      split_ifs at hi <;> omega
    simp only [hwrap]

/-- The frees that `pmm_free_page` accepts. -/
structure Accepts (p : State) (addr : Nat) : Prop where
  aligned : addr % pageSize = 0
  tracked : addr / pageSize < p.bitmapPages
  above : kernelZone ≤ addr
  used : p.used (addr / pageSize) = true

/-- A free is rejected with a warning and changes nothing, or it clears one bit. -/
theorem free_cases {p : State} (hp : Inv p) (addr : Nat) :
    ((∃ w, pmmFreePage p addr = (some w, p)) ∧ ¬ Accepts p addr) ∨
      (pmmFreePage p addr = (none, p.release (addr / pageSize)) ∧ Accepts p addr) := by
  unfold pmmFreePage
  simp only [hp.ready, Bool.true_eq_false, false_or]
  split_ifs with h1 h2 h3 h4 h5
  · refine Or.inl ⟨⟨_, rfl⟩, fun ha => ?_⟩
    have := ha.above
    rw [h1] at this
    exact absurd this (by decide)
  · exact Or.inl ⟨⟨_, rfl⟩, fun ha => h2 ha.aligned⟩
  · exact Or.inl ⟨⟨_, rfl⟩, fun ha => absurd ha.tracked (by omega)⟩
  · exact Or.inl ⟨⟨_, rfl⟩, fun ha => absurd ha.above (by omega)⟩
  · refine Or.inl ⟨⟨_, rfl⟩, fun ha => ?_⟩
    rw [ha.used] at h5
    cases h5
  · exact Or.inr ⟨rfl, not_not.mp h2, by omega, by omega, by simpa using h5⟩

/-! ## Runs -/

/-- The operations on the allocator after boot. -/
inductive Op where
  | alloc
  | free (addr : Nat)
  | owns (addr : Nat)
  deriving DecidableEq, Repr

def step (p : State) : Op → State
  | .alloc => (pmmAllocPage p).2
  | .free addr => (pmmFreePage p addr).2
  | .owns _ => p

def run (p : State) (ops : List Op) : State := ops.foldl step p

theorem inv_take {p : State} {i : Nat} (hp : Inv p) (hi : LowestFree p i) : Inv (p.take i) := by
  refine ⟨hp.ready, hp.total, hp.fits, hp.covers, fun j hj => ?_, fun j hj => ?_⟩
  · rw [used_take, Bool.or_eq_true, decide_eq_true_eq]
    by_cases hji : j = i
    · exact Or.inl hji
    · have hlt : j < i := by
        change j < i + 1 at hj
        omega
      refine Or.inr ?_
      by_contra hfree
      rw [Bool.not_eq_true] at hfree
      have := hi.2 ⟨lt_trans hlt hi.1.1, hfree⟩
      omega
  · rw [used_take, hp.zone j hj, Bool.or_true]

theorem inv_release {p : State} {addr : Nat} (hp : Inv p) (ha : Accepts p addr) :
    Inv (p.release (addr / pageSize)) := by
  refine ⟨hp.ready, hp.total, hp.fits, hp.covers, fun j hj => ?_, fun j hj => ?_⟩
  · have hj' : j < p.nextFreeHint ∧ j < addr / pageSize := by
      change j < (if addr / pageSize < p.nextFreeHint then addr / pageSize
        else p.nextFreeHint) at hj
      split_ifs at hj <;> omega
    rw [used_release, hp.below_hint j hj'.1, Bool.and_true, decide_eq_true_eq]
    omega
  · have hzone : kernelLockPages ≤ addr / pageSize := Nat.div_le_div_right ha.above
    rw [used_release, hp.zone j hj, Bool.and_true, decide_eq_true_eq]
    omega

theorem step_inv {p : State} (hp : Inv p) (op : Op) : Inv (step p op) := by
  cases op with
  | alloc =>
    rcases alloc_cases hp with ⟨i, hi, _, heq⟩ | ⟨_, heq⟩
    · rw [step, heq]
      exact inv_take hp hi
    · rw [step, heq]
      exact hp
  | free addr =>
    rcases free_cases hp addr with ⟨⟨w, heq⟩, _⟩ | ⟨heq, ha⟩
    · rw [step, heq]
      exact hp
    · rw [step, heq]
      exact inv_release hp ha
  | owns addr => exact hp

theorem run_inv {p : State} (hp : Inv p) (ops : List Op) : Inv (run p ops) := by
  induction ops generalizing p with
  | nil => exact hp
  | cons op ops ih => exact ih (step_inv hp op)

/-! ## The allocator and the plain scan -/

/-- What `pmm_alloc_page` would return without a hint: the first free page from `0` on. -/
def plainScan (p : State) : Nat :=
  match Bitmap.scanClear p.bitmap 0 p.totalPages with
  | some i => i * pageSize
  | none => physNull

theorem alloc_eq_plainScan {p : State} (hp : Inv p) : (pmmAllocPage p).1 = plainScan p := by
  unfold plainScan
  rcases alloc_cases hp with ⟨i, hi, _, heq⟩ | ⟨hall, heq⟩
  · rw [heq, lowestFree_iff.mp hi]
  · rw [heq, Bitmap.scanClear_eq_none.mpr fun i _ hi => hall i hi]

theorem page_ne_null {i : Nat} (hi : kernelLockPages ≤ i) :
    i * pageSize ≠ physNull := by
  unfold physNull
  simp only [kernelLockPages, kernelZone, pageSize] at *
  omega

theorem alloc_eq_null_iff {p : State} (hp : Inv p) :
    (pmmAllocPage p).1 = physNull ↔ ∀ i, i < p.totalPages → p.used i = true := by
  rcases alloc_cases hp with ⟨i, hi, hz, heq⟩ | ⟨hall, heq⟩
  · rw [heq]
    refine ⟨fun h => absurd h (page_ne_null hz), fun hall => ?_⟩
    have := hall i hi.1.1
    rw [hi.1.2] at this
    cases this
  · rw [heq]
    exact ⟨fun _ => hall, fun _ => rfl⟩

/-! ## No page is handed out twice -/

/-- During `ops`, some call `pmm_free_page(addr)` is accepted. -/
def FreedDuring (addr : Nat) : State → List Op → Prop
  | _, [] => False
  | p, op :: ops =>
    (op = .free addr ∧ (pmmFreePage p addr).1 = none) ∨ FreedDuring addr (step p op) ops

theorem used_step {p : State} (hp : Inv p) {i : Nat} (hu : p.used i = true) {op : Op}
    (hno : ¬ (op = .free (i * pageSize) ∧ (pmmFreePage p (i * pageSize)).1 = none)) :
    (step p op).used i = true := by
  cases op with
  | alloc =>
    rcases alloc_cases hp with ⟨j, _, _, heq⟩ | ⟨_, heq⟩
    · rw [step, heq, used_take, hu, Bool.or_true]
    · rw [step, heq]
      exact hu
  | free addr =>
    rcases free_cases hp addr with ⟨⟨w, heq⟩, _⟩ | ⟨heq, ha⟩
    · rw [step, heq]
      exact hu
    · rw [step, heq, used_release, hu, Bool.and_true, decide_eq_true_eq]
      rintro rfl
      have haddr : addr / pageSize * pageSize = addr :=
        Nat.div_mul_cancel (Nat.dvd_of_mod_eq_zero ha.aligned)
      rw [haddr] at hno
      exact hno ⟨rfl, by rw [heq]⟩
  | owns addr => exact hu

theorem used_run {p : State} (hp : Inv p) {i : Nat} (hu : p.used i = true) {ops : List Op}
    (hno : ¬ FreedDuring (i * pageSize) p ops) : (run p ops).used i = true := by
  induction ops generalizing p with
  | nil => exact hu
  | cons op ops ih =>
    rw [FreedDuring, not_or] at hno
    exact ih (step_inv hp op) (used_step hp hu hno.1) hno.2

theorem alloc_ne_of_used {p : State} (hp : Inv p) {i : Nat} (hi : i * pageSize ≠ physNull)
    (hu : p.used i = true) : (pmmAllocPage p).1 ≠ i * pageSize := by
  rcases alloc_cases hp with ⟨j, hj, _, heq⟩ | ⟨_, heq⟩
  · rw [heq]
    intro heq'
    have hji : j = i := Nat.eq_of_mul_eq_mul_right (by decide) heq'
    subst hji
    rw [hj.1.2] at hu
    cases hu
  · rw [heq]
    exact fun h => hi h.symm

/-- **The page allocator.** In every state after `pmm_init_dynamic` and any sequence of
calls, all bits below the hint are set; the page returned is the lowest free page, the one
a scan from page `0` finds; `PHYS_NULL` is returned exactly when no page is free; and a
page once returned is not returned again before an accepted free of it. -/
theorem alloc_lowest_free {map : Memmap} {p₀ : State} (hinit : pmmInitDynamic map = some p₀)
    (ops : List Op) :
    (∀ i, i < (run p₀ ops).nextFreeHint → (run p₀ ops).used i = true) ∧
    (∀ i, LowestFree (run p₀ ops) i → (pmmAllocPage (run p₀ ops)).1 = i * pageSize) ∧
    (pmmAllocPage (run p₀ ops)).1 = plainScan (run p₀ ops) ∧
    ((pmmAllocPage (run p₀ ops)).1 = physNull ↔
      ∀ i, i < (run p₀ ops).totalPages → (run p₀ ops).used i = true) ∧
    ∀ addr, (pmmAllocPage (run p₀ ops)).1 = addr → addr ≠ physNull →
      ∀ later, ¬ FreedDuring addr (pmmAllocPage (run p₀ ops)).2 later →
        (pmmAllocPage (run (pmmAllocPage (run p₀ ops)).2 later)).1 ≠ addr := by
  have hp : Inv (run p₀ ops) := run_inv (init_spec hinit).inv ops
  refine ⟨hp.below_hint, fun i hi => ?_, alloc_eq_plainScan hp, alloc_eq_null_iff hp, ?_⟩
  · rw [alloc_eq_plainScan hp, plainScan, lowestFree_iff.mp hi]
  · intro addr haddr hne later hno
    have hp' : Inv (pmmAllocPage (run p₀ ops)).2 := step_inv hp .alloc
    rcases alloc_cases hp with ⟨i, _, _, heq⟩ | ⟨_, heq⟩
    · rw [heq] at haddr hno hp' ⊢
      subst haddr
      have hu : ((run p₀ ops).take i).used i = true := by simp
      exact alloc_ne_of_used (run_inv hp' later) hne (used_run hp' hu hno)
    · rw [heq] at haddr
      exact absurd haddr.symm hne

/-- Two usable pages right above the kernel zone: the bitmap takes one of them. -/
def twoPages : Memmap := [⟨0x4800000, 0x2000, .usable⟩]

theorem alloc_lowest_free_twoPages :
    ∃ p₀, pmmInitDynamic twoPages = some p₀ ∧
      (pmmAllocPage (run p₀ [.alloc, .free 0x4801000])).1 =
        plainScan (run p₀ [.alloc, .free 0x4801000]) := by
  have hsome : (pmmInitDynamic twoPages).isSome = true := by decide +kernel
  obtain ⟨p₀, hp₀⟩ := Option.isSome_iff_exists.mp hsome
  exact ⟨p₀, hp₀, (alloc_lowest_free hp₀ _).2.2.1⟩

end Kyuzen.Pmm
