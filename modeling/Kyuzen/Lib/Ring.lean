import Mathlib.Data.Int.ModEq
import Mathlib.Data.List.Basic
import Mathlib.Tactic.Ring

/-!
# Rings with free-running counters

A ring of `n` cells in which a list is kept: the element at position `k` after the reader's counter
`tail` is in the cell `(tail + k) % m % n`. The counters run modulo `m`, which `n` divides, so that
the cells follow each other also where a counter wraps around.
-/

namespace Kyuzen.Lib

variable {α : Type*} {n m tail : Nat} {ring : Nat → α} {l : List α} {x : α}

def RingHolds (n m : Nat) (ring : Nat → α) (tail : Nat) (l : List α) : Prop :=
  ∀ k, (hk : k < l.length) → ring ((tail + k) % m % n) = l[k]

theorem RingHolds.nil (n m : Nat) (ring : Nat → α) (tail : Nat) : RingHolds n m ring tail [] := by
  intro k hk
  exact absurd hk (Nat.not_lt_zero k)

/-- Cells of different positions are different, as long as the list fits. -/
theorem ring_cell_ne {j k : Nat} (hnm : n ∣ m) (hjk : j < k) (hk : k < n) :
    (tail + j) % m % n ≠ (tail + k) % m % n := by
  rw [Nat.mod_mod_of_dvd _ hnm, Nat.mod_mod_of_dvd _ hnm]
  intro heq
  have hdvd : n ∣ (tail + k) - (tail + j) := (Nat.modEq_iff_dvd' (by omega)).mp heq
  have hle := Nat.le_of_dvd (by omega) hdvd
  omega

/-- The writer puts an element behind the list. -/
theorem RingHolds.push (h : RingHolds n m ring tail l) (hnm : n ∣ m) (hfits : l.length < n)
    (x : α) :
    RingHolds n m (Function.update ring ((tail + l.length) % m % n) x) tail (l ++ [x]) := by
  intro k hk
  rw [List.length_append, List.length_singleton] at hk
  rcases Nat.lt_or_eq_of_le (Nat.le_of_lt_succ hk) with hlt | rfl
  · rw [Function.update_of_ne (ring_cell_ne hnm hlt hfits), List.getElem_append_left hlt]
    exact h k hlt
  · rw [Function.update_self]
    simp

/-- The reader takes the first element. -/
theorem RingHolds.pop (h : RingHolds n m ring tail (x :: l)) :
    ring (tail % m % n) = x ∧ RingHolds n m ring ((tail + 1) % m) l := by
  constructor
  · have := h 0 (Nat.succ_pos _)
    rwa [Nat.add_zero] at this
  · intro k hk
    have hnext := h (k + 1) (Nat.succ_lt_succ hk)
    rw [List.getElem_cons_succ] at hnext
    rw [← hnext, Nat.mod_add_mod]
    congr 3
    omega

/-- The reader takes any number of elements. -/
theorem RingHolds.drop (h : RingHolds n m ring tail l) (k : Nat) :
    RingHolds n m ring ((tail + k) % m) (l.drop k) := by
  intro j hj
  rw [List.length_drop] at hj
  rw [List.getElem_drop, ← h (k + j) (by omega), Nat.mod_add_mod]
  congr 3
  omega

/-- What the reader finds in the cells of the first elements. -/
theorem RingHolds.map_range (h : RingHolds n m ring tail l) {k : Nat} (hk : k ≤ l.length) :
    (List.range k).map (fun j => ring ((tail + j) % m % n)) = l.take k := by
  apply List.ext_getElem
  · simp [hk]
  · intro j hj _
    rw [List.length_map, List.length_range] at hj
    rw [List.getElem_map, List.getElem_range, List.getElem_take]
    exact h j (by omega)

/-- The counters tell the length of the list. -/
theorem ring_length {len : Nat} (ht : tail < m) (hlen : len < m) :
    ((tail + len) % m + m - tail) % m = len := by
  rcases Nat.lt_or_ge (tail + len) m with hlt | hge
  · rw [Nat.mod_eq_of_lt hlt, show tail + len + m - tail = len + m by omega, Nat.add_mod_right,
      Nat.mod_eq_of_lt hlen]
  · have hwrap : (tail + len) % m = tail + len - m := by
      rw [Nat.mod_eq_sub_mod hge, Nat.mod_eq_of_lt (by omega)]
    rw [hwrap, show tail + len - m + m - tail = len by omega, Nat.mod_eq_of_lt hlen]

end Kyuzen.Lib
