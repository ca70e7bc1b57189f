import Mathlib.Order.Basic
import Mathlib.Tactic.Ring

/-!
# Lines of a text

The line of a position and where it begins, for a text given by where its newlines are. Positions
between which there is no newline are on one line (`lineNo_of_none`, `lineBeg_of_none`), and a
position at which a line begins is on a later line than those before it (`lineNo_lt`).
-/

namespace Kyuzen.Lib

variable {nl : Nat → Bool} {a b n : Nat}

/-- How many newlines there are before the position. -/
def lineNo (nl : Nat → Bool) : Nat → Nat
  | 0 => 0
  | n + 1 => if nl n then lineNo nl n + 1 else lineNo nl n

/-- The position at which the line of the position begins. -/
def lineBeg (nl : Nat → Bool) : Nat → Nat
  | 0 => 0
  | n + 1 => if nl n then n + 1 else lineBeg nl n

theorem lineNo_succ_of_nl (h : nl n = true) : lineNo nl (n + 1) = lineNo nl n + 1 := by
  rw [lineNo, if_pos h]

theorem lineBeg_succ_of_nl (h : nl n = true) : lineBeg nl (n + 1) = n + 1 := by
  rw [lineBeg, if_pos h]

theorem lineBeg_le (nl : Nat → Bool) (n : Nat) : lineBeg nl n ≤ n := by
  induction n with
  | zero => exact le_rfl
  | succ n ih =>
    rw [lineBeg]
    split <;> omega

theorem lineNo_mono (nl : Nat → Bool) (h : a ≤ b) : lineNo nl a ≤ lineNo nl b := by
  induction b with
  | zero =>
    obtain rfl : a = 0 := by omega
    exact le_rfl
  | succ b ih =>
    rcases Nat.lt_or_ge a (b + 1) with hlt | hge
    · have := ih (by omega)
      rw [lineNo]
      split <;> omega
    · obtain rfl : a = b + 1 := by omega
      exact le_rfl

theorem lineNo_of_none (hab : a ≤ b) (h : ∀ j, a ≤ j → j < b → nl j = false) :
    lineNo nl b = lineNo nl a := by
  induction b with
  | zero =>
    obtain rfl : a = 0 := by omega
    rfl
  | succ b ih =>
    rcases Nat.lt_or_ge a (b + 1) with hlt | hge
    · rw [lineNo, h b (by omega) (by omega), if_neg Bool.false_ne_true]
      exact ih (by omega) fun j hj hjb => h j hj (by omega)
    · obtain rfl : a = b + 1 := by omega
      rfl

theorem lineBeg_of_none (hab : a ≤ b) (h : ∀ j, a ≤ j → j < b → nl j = false) :
    lineBeg nl b = lineBeg nl a := by
  induction b with
  | zero =>
    obtain rfl : a = 0 := by omega
    rfl
  | succ b ih =>
    rcases Nat.lt_or_ge a (b + 1) with hlt | hge
    · rw [lineBeg, h b (by omega) (by omega), if_neg Bool.false_ne_true]
      exact ih (by omega) fun j hj hjb => h j hj (by omega)
    · obtain rfl : a = b + 1 := by omega
      rfl

/-- No newline lies between the beginning of the line and the position. -/
theorem nl_of_lineBeg {j : Nat} (hj : lineBeg nl n ≤ j) (hjn : j < n) : nl j = false := by
  induction n with
  | zero => exact absurd hjn (Nat.not_lt_zero j)
  | succ n ih =>
    rw [lineBeg] at hj
    by_cases hn : nl n = true
    · rw [if_pos hn] at hj
      omega
    · rw [if_neg hn] at hj
      rcases Nat.lt_succ_iff_lt_or_eq.mp hjn with hlt | rfl
      · exact ih hj hlt
      · exact Bool.eq_false_iff.mpr hn

theorem lineNo_lineBeg (nl : Nat → Bool) (n : Nat) : lineNo nl (lineBeg nl n) = lineNo nl n :=
  (lineNo_of_none (lineBeg_le nl n) fun _ hj hjn => nl_of_lineBeg hj hjn).symm

theorem lineBeg_lineBeg (nl : Nat → Bool) (n : Nat) :
    lineBeg nl (lineBeg nl n) = lineBeg nl n :=
  (lineBeg_of_none (lineBeg_le nl n) fun _ hj hjn => nl_of_lineBeg hj hjn).symm

/-- Every line up to that of a position begins somewhere before it. -/
theorem exists_lineBeg (nl : Nat → Bool) {row : Nat} (h : row ≤ lineNo nl n) :
    ∃ b ≤ n, lineBeg nl b = b ∧ lineNo nl b = row := by
  induction n with
  | zero => exact ⟨0, le_rfl, rfl, (Nat.le_zero.mp h).symm⟩
  | succ n ih =>
    rcases Nat.lt_or_ge (lineNo nl n) row with hlt | hge
    · have hnl : nl n = true := by
        by_contra hn
        rw [lineNo, if_neg hn] at h
        omega
      rw [lineNo_succ_of_nl hnl] at h
      refine ⟨n + 1, le_rfl, lineBeg_succ_of_nl hnl, ?_⟩
      rw [lineNo_succ_of_nl hnl]
      omega
    · obtain ⟨b, hb, hbeg, hrow⟩ := ih hge
      exact ⟨b, by omega, hbeg, hrow⟩

/-- A position before the beginning of a line is on an earlier line. -/
theorem lineNo_lt (hab : a < b) (hb : lineBeg nl b = b) : lineNo nl a < lineNo nl b := by
  cases b with
  | zero => exact absurd hab (Nat.not_lt_zero a)
  | succ b =>
    have hnl : nl b = true := by
      by_contra hn
      rw [lineBeg, if_neg hn] at hb
      have := lineBeg_le nl b
      omega
    rw [lineNo_succ_of_nl hnl]
    exact Nat.lt_succ_of_le (lineNo_mono nl (by omega))

end Kyuzen.Lib
