import Mathlib

/-!
# Packed bit arrays

A bit array of any length stored in words of `w` bits: bit `b` lives in word `b / w`
at position `b % w`. The three operations are the usual mask operations on one word;
the lemmas say what they do to single bits, so that no proof above this file looks at
masks again. `setRange` is the loop that sets `n` consecutive bits and `scanClear` the
loop that looks for the first clear bit of an interval.
-/

namespace Kyuzen.Lib.Bitmap

variable {w : Nat}

/-- The words of a bit array, by word index. -/
abbrev Words (w : Nat) := Nat → BitVec w

def set (bm : Words w) (bit : Nat) : Words w :=
  Function.update bm (bit / w) (bm (bit / w) ||| (1#w <<< (bit % w)))

def clear (bm : Words w) (bit : Nat) : Words w :=
  Function.update bm (bit / w) (bm (bit / w) &&& ~~~(1#w <<< (bit % w)))

def test (bm : Words w) (bit : Nat) : Bool :=
  (bm (bit / w) &&& (1#w <<< (bit % w))) != 0#w

/-! ## Single bits -/

theorem getLsbD_mask {i n : Nat} (hn : n < w) : (1#w <<< n).getLsbD i = decide (i = n) := by
  rw [BitVec.getLsbD_shiftLeft, BitVec.getLsbD_one, Bool.eq_iff_iff]
  simp only [Bool.and_eq_true, Bool.not_eq_true', decide_eq_true_eq, decide_eq_false_iff_not]
  omega

theorem test_eq (hw : 0 < w) (bm : Words w) (bit : Nat) :
    test bm bit = (bm (bit / w)).getLsbD (bit % w) := by
  have hlt : bit % w < w := Nat.mod_lt _ hw
  unfold test
  generalize bm (bit / w) = b
  cases hb : b.getLsbD (bit % w) with
  | true =>
    rw [bne_iff_ne]
    intro h
    have hz := congrArg (fun v => v.getLsbD (bit % w)) h
    simp [BitVec.getLsbD_and, hb, getLsbD_mask hlt] at hz
  | false =>
    rw [bne_eq_false_iff_eq]
    apply BitVec.eq_of_getLsbD_eq
    intro i _
    rw [BitVec.getLsbD_and, getLsbD_mask hlt]
    by_cases hi : i = bit % w
    · subst hi
      simp [hb]
    · simp [hi]

theorem eq_of_div_mod {a b : Nat} (hd : a / w = b / w) (hm : a % w = b % w) : a = b := by
  rw [← Nat.div_add_mod a w, ← Nat.div_add_mod b w, hd, hm]

@[simp]
theorem test_set (hw : 0 < w) (bm : Words w) (i j : Nat) :
    test (set bm i) j = (decide (j = i) || test bm j) := by
  have hlt : i % w < w := Nat.mod_lt _ hw
  rw [test_eq hw, test_eq hw, set, Function.update_apply]
  by_cases hd : j / w = i / w
  · rw [if_pos hd, BitVec.getLsbD_or, getLsbD_mask hlt, hd, Bool.or_comm]
    congr 1
    rw [decide_eq_decide]
    exact ⟨eq_of_div_mod hd, fun h => by rw [h]⟩
  · have hne : j ≠ i := fun h => hd (by rw [h])
    rw [if_neg hd]
    simp [hne]

@[simp]
theorem test_clear (hw : 0 < w) (bm : Words w) (i j : Nat) :
    test (clear bm i) j = (decide (j ≠ i) && test bm j) := by
  have hlt : i % w < w := Nat.mod_lt _ hw
  have hltj : j % w < w := Nat.mod_lt _ hw
  rw [test_eq hw, test_eq hw, clear, Function.update_apply]
  by_cases hd : j / w = i / w
  · rw [if_pos hd, BitVec.getLsbD_and, BitVec.getLsbD_not, getLsbD_mask hlt, hd, Bool.and_comm]
    congr 1
    rw [decide_eq_true hltj, Bool.true_and, ← decide_not, decide_eq_decide]
    exact not_congr ⟨eq_of_div_mod hd, fun h => by rw [h]⟩
  · have hne : j ≠ i := fun h => hd (by rw [h])
    rw [if_neg hd]
    simp [hne]

/-! ## Intervals of bits -/

/-- Set the `n` bits from `lo` on, one after the other. -/
def setRange (bm : Words w) (lo : Nat) : Nat → Words w
  | 0 => bm
  | n + 1 => set (setRange bm lo n) (lo + n)

theorem test_setRange (hw : 0 < w) (bm : Words w) (lo n i : Nat) :
    test (setRange bm lo n) i = (decide (lo ≤ i ∧ i < lo + n) || test bm i) := by
  induction n with
  | zero =>
    have hno : ¬ (lo ≤ i ∧ i < lo + 0) := by omega
    rw [setRange, decide_eq_false hno, Bool.false_or]
  | succ n ih =>
    rw [setRange, test_set hw, ih, ← Bool.or_assoc]
    congr 1
    rw [Bool.eq_iff_iff]
    simp only [Bool.or_eq_true, decide_eq_true_eq]
    omega

/-- The first clear bit of `[lo, hi)`, looked for from below. -/
def scanClear (bm : Words w) (lo hi : Nat) : Option Nat :=
  (List.range' lo (hi - lo)).find? (fun i => !test bm i)

theorem scanClear_eq_none {bm : Words w} {lo hi : Nat} :
    scanClear bm lo hi = none ↔ ∀ i, lo ≤ i → i < hi → test bm i = true := by
  unfold scanClear
  rw [List.find?_eq_none]
  constructor
  · intro h i h1 h2
    have := h i (List.mem_range'_1.mpr ⟨h1, by omega⟩)
    simpa using this
  · intro h i hi
    obtain ⟨h1, h2⟩ := List.mem_range'_1.mp hi
    simpa using h i h1 (by omega)

theorem find?_range' {p : Nat → Bool} {lo n i : Nat} :
    (List.range' lo n).find? p = some i ↔
      (lo ≤ i ∧ i < lo + n) ∧ p i = true ∧ ∀ j, lo ≤ j → j < i → p j = false := by
  induction n generalizing lo with
  | zero => simp
  | succ n ih =>
    rw [List.range'_succ, List.find?_cons]
    cases hp : p lo with
    | true =>
      simp only [Option.some.injEq]
      constructor
      · rintro rfl
        exact ⟨by omega, hp, fun j h1 h2 => by omega⟩
      · rintro ⟨_, _, h3⟩
        by_contra hne
        have := h3 lo (le_refl _) (by omega)
        rw [hp] at this
        cases this
    | false =>
      rw [ih]
      constructor
      · rintro ⟨h1, h2, h3⟩
        refine ⟨by omega, h2, fun j hj1 hj2 => ?_⟩
        by_cases hj : j = lo
        · rw [hj, hp]
        · exact h3 j (by omega) hj2
      · rintro ⟨h1, h2, h3⟩
        have hne : i ≠ lo := by
          rintro rfl
          rw [hp] at h2
          cases h2
        exact ⟨by omega, h2, fun j hj1 hj2 => h3 j (by omega) hj2⟩

theorem scanClear_eq_some {bm : Words w} {lo hi i : Nat} :
    scanClear bm lo hi = some i ↔
      lo ≤ i ∧ i < hi ∧ test bm i = false ∧ ∀ j, lo ≤ j → j < i → test bm j = true := by
  unfold scanClear
  rw [find?_range']
  simp only [Bool.not_eq_true', Bool.not_eq_false']
  constructor
  · rintro ⟨h1, h2, h3⟩
    exact ⟨h1.1, by omega, h2, h3⟩
  · rintro ⟨h1, h2, h3, h4⟩
    exact ⟨by omega, h3, h4⟩

/-- A scan may start anywhere below which every bit is set. -/
theorem scanClear_from_zero {bm : Words w} {lo hi : Nat}
    (hset : ∀ i, i < lo → test bm i = true) : scanClear bm lo hi = scanClear bm 0 hi := by
  cases h : scanClear bm lo hi with
  | none =>
    refine (scanClear_eq_none.mpr fun i _ hi => ?_).symm
    by_cases hlo : i < lo
    · exact hset i hlo
    · exact scanClear_eq_none.mp h i (by omega) hi
  | some i =>
    obtain ⟨_, h2, h3, h4⟩ := scanClear_eq_some.mp h
    refine (scanClear_eq_some.mpr ⟨by omega, h2, h3, fun j _ hj => ?_⟩).symm
    by_cases hlo : j < lo
    · exact hset j hlo
    · exact h4 j (by omega) hj

end Kyuzen.Lib.Bitmap
