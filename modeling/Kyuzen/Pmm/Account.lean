import Kyuzen.Pmm.Alloc

/-!
# The counter of used pages

`used_pages` is counted once by `pmm_init_dynamic` and from then on only incremented and
decremented. An allocation takes a page below `total_pages`, and a free is accepted for pages
below `bitmap_pages`; both numbers are the same since boot, so that the counter stays the
number of set bits (`account`).
-/

namespace Kyuzen.Pmm

open Lib

/-! ## Counting the set bits -/

theorem countP_range_congr {p q : Nat → Bool} {n : Nat} (h : ∀ j < n, q j = p j) :
    (List.range n).countP q = (List.range n).countP p := by
  apply List.countP_congr
  intro j hj
  rw [h j (List.mem_range.mp hj)]

/-- One more number below `n` is counted. -/
theorem countP_range_flip {p q : Nat → Bool} {n i : Nat} (hi : i < n) (hp : p i = false)
    (hq : q i = true) (hsame : ∀ j ≠ i, q j = p j) :
    (List.range n).countP q = (List.range n).countP p + 1 := by
  induction n with
  | zero => omega
  | succ n ih =>
    rw [List.range_succ, List.countP_append, List.countP_append, List.countP_singleton,
      List.countP_singleton]
    by_cases hlast : i = n
    · subst hlast
      rw [countP_range_congr fun j hj => hsame j (Nat.ne_of_lt hj), hp, hq]
      rfl
    · rw [ih (by omega), hsame n (Ne.symm hlast)]
      omega

theorem countUsed_set {bm : Bitmap.Words 8} {total i : Nat} (hi : i < total)
    (hfree : Bitmap.test bm i = false) :
    countUsed (Bitmap.set bm i) total = countUsed bm total + 1 := by
  apply countP_range_flip hi hfree
  · rw [Bitmap.test_set (by decide), decide_eq_true rfl, Bool.true_or]
  · intro j hj
    rw [Bitmap.test_set (by decide), decide_eq_false hj, Bool.false_or]

theorem countUsed_clear {bm : Bitmap.Words 8} {total i : Nat} (hi : i < total)
    (hused : Bitmap.test bm i = true) :
    countUsed bm total = countUsed (Bitmap.clear bm i) total + 1 := by
  apply countP_range_flip hi _ hused
  · intro j hj
    rw [Bitmap.test_clear (by decide), decide_eq_true hj, Bool.true_and]
  · rw [Bitmap.test_clear (by decide), decide_eq_false (not_not.mpr rfl), Bool.false_and]

/-! ## The counter over a run -/

/-- The counter is the number of set bits. -/
def Counted (p : State) : Prop := p.usedPages = countUsed p.bitmap p.totalPages

variable {p : State}

theorem init_counted {map : Memmap} (h : pmmInitDynamic map = some p) : Counted p := by
  unfold pmmInitDynamic at h
  split at h
  · cases h
  · obtain ⟨b, -, h⟩ := Option.bind_eq_some_iff.mp h
    obtain ⟨freed, -, h⟩ := Option.bind_eq_some_iff.mp h
    cases h
    rfl

/-- A page that a free is accepted for is one of the counted ones. -/
theorem Accepts.counted (hp : Inv p) (hc : Counted p) {addr : Nat} (ha : Accepts p addr) :
    p.usedPages = countUsed (Bitmap.clear p.bitmap (addr / pageSize)) p.totalPages + 1 := by
  have htracked : addr / pageSize < p.totalPages := by
    rw [hp.total]
    exact ha.tracked
  rw [hc]
  exact countUsed_clear htracked ha.used

theorem step_counted (hp : Inv p) (hc : Counted p) (op : Op) : Counted (step p op) := by
  cases op with
  | alloc =>
    rcases alloc_cases hp with ⟨i, hi, _, heq⟩ | ⟨_, heq⟩
    · rw [step, heq]
      show p.usedPages + 1 = countUsed (Bitmap.set p.bitmap i) p.totalPages
      rw [countUsed_set hi.1.1 hi.1.2, hc]
    · rw [step, heq]
      exact hc
  | free addr =>
    rcases free_cases hp addr with ⟨⟨w, heq⟩, _⟩ | ⟨heq, ha⟩
    · rw [step, heq]
      exact hc
    · rw [step, heq]
      have hcount := ha.counted hp hc
      show (if p.usedPages > 0 then p.usedPages - 1 else p.usedPages) =
        countUsed (Bitmap.clear p.bitmap (addr / pageSize)) p.totalPages
      rw [if_pos (by omega)]
      omega
  | owns addr => exact hc

theorem run_counted (hp : Inv p) (hc : Counted p) (ops : List Op) : Counted (run p ops) := by
  induction ops generalizing p with
  | nil => exact hc
  | cons op ops ih => exact ih (step_inv hp op) (step_counted hp hc op)

/-- After boot and any sequence of allocations and frees, of whatever addresses, `used_pages` is
the number of set bits below `total_pages`; a free that is accepted finds it above zero; and a free
that is rejected changes nothing. -/
theorem account {map : Memmap} {p₀ : State} (hinit : pmmInitDynamic map = some p₀)
    (ops : List Op) :
    (run p₀ ops).usedPages = countUsed (run p₀ ops).bitmap (run p₀ ops).totalPages ∧
      ∀ addr, ((pmmFreePage (run p₀ ops) addr).1 = none → 0 < (run p₀ ops).usedPages) ∧
        ((pmmFreePage (run p₀ ops) addr).1 ≠ none →
          (pmmFreePage (run p₀ ops) addr).2 = run p₀ ops) := by
  have hboot : Inv p₀ := (init_spec hinit).inv
  have hp : Inv (run p₀ ops) := run_inv hboot ops
  have hc : Counted (run p₀ ops) := run_counted hboot (init_counted hinit) ops
  refine ⟨hc, ?_⟩
  intro addr
  rcases free_cases hp addr with ⟨⟨w, heq⟩, _⟩ | ⟨heq, ha⟩
  · rw [heq]
    refine ⟨?_, fun _ => rfl⟩
    intro hnone
    cases hnone
  · rw [heq]
    have hcount := ha.counted hp hc
    exact ⟨fun _ => by omega, fun hne => absurd rfl hne⟩

/-- The only free page of a small machine is taken and given back twice; the second free is
rejected. -/
theorem account_twoPages : ∃ p₀, pmmInitDynamic twoPages = some p₀ ∧
    (pmmFreePage (run p₀ [.alloc, .free 0x4801000]) 0x4801000).1 = some .doubleFree ∧
    (pmmFreePage (run p₀ [.alloc, .free 0x4801000]) 0x4801000).2 =
      run p₀ [.alloc, .free 0x4801000] := by
  have hval : (pmmInitDynamic twoPages).map (fun p₀ =>
      (pmmFreePage (run p₀ [.alloc, .free 0x4801000]) 0x4801000).1) = some (some .doubleFree) := by
    decide +kernel
  obtain ⟨p₀, hinit, htwice⟩ := Option.map_eq_some_iff.mp hval
  refine ⟨p₀, hinit, htwice, ((account hinit _).2 0x4801000).2 ?_⟩
  rw [htwice]
  exact Option.some_ne_none _

end Kyuzen.Pmm
