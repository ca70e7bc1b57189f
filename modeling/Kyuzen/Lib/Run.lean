import Mathlib.Data.List.Basic

/-!
# Runs of a step function

The state after the first events of a list, and induction over runs whose steps meet a condition on
the state before them.
-/

namespace Kyuzen.Lib

variable {σ ε : Type*} {step : σ → ε → σ} {s : σ} {es : List ε} {n : Nat}

/-- The state after the first `n` events. -/
def after (step : σ → ε → σ) (s : σ) (es : List ε) (n : Nat) : σ := (es.take n).foldl step s

theorem after_zero : after step s es 0 = s := by
  rw [after, List.take_zero, List.foldl_nil]

theorem after_succ {e : ε} (he : es[n]? = some e) :
    after step s es (n + 1) = step (after step s es n) e := by
  rw [after, List.take_add_one, he, Option.toList_some, List.foldl_append]
  rfl

theorem after_succ_none (he : es[n]? = none) : after step s es (n + 1) = after step s es n := by
  rw [after, List.take_add_one, he, Option.toList_none, List.append_nil, after]

/-- What every step keeps that meets the condition. -/
theorem after_induction {P : σ → Prop} {C : σ → ε → Prop} (h : P s)
    (hstep : ∀ s e, P s → C s e → P (step s e))
    (hok : ∀ n e, es[n]? = some e → C (after step s es n) e) (n : Nat) :
    P (after step s es n) := by
  induction n with
  | zero =>
    rw [after_zero]
    exact h
  | succ n ih =>
    cases he : es[n]? with
    | none =>
      rw [after_succ_none he]
      exact ih
    | some e =>
      rw [after_succ he]
      exact hstep _ e ih (hok n e he)

/-- A condition that can be evaluated is checked step by step. -/
theorem after_all {C : σ → ε → Bool}
    (h : ((List.range es.length).all fun n => es[n]?.all (C (after step s es n))) = true) (n : Nat)
    (e : ε) (he : es[n]? = some e) : C (after step s es n) e = true := by
  have hlt : n < es.length := (List.getElem?_eq_some_iff.mp he).1
  have hn := List.all_eq_true.mp h n (List.mem_range.mpr hlt)
  rw [he, Option.all_some] at hn
  exact hn

end Kyuzen.Lib
