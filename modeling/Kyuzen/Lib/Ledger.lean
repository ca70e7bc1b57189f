import Kyuzen.Lib.Places

/-!
# A ledger of owners

Items of a list `R`, each owned once: by a place of the family `f` or by one of the family `g`.
A step adds an item with its owner, moves the items of a place to a place of the other family,
or drops the items of a place together with the place's claim on them.
-/

namespace Kyuzen.Lib

open Places

variable {α : Type*} [DecidableEq α]

structure Ledger (R : List α) (n m : Nat) (f g : Nat → List α) : Prop where
  nodup : R.Nodup
  balance : ∀ a, total n f a + total m g a = R.count a

variable {R : List α} {n m i j : Nat} {f g : Nat → List α} {a : α}

theorem Ledger.total_le (h : Ledger R n m f g) (a : α) : total n f a + total m g a ≤ 1 := by
  rw [h.balance a]
  exact List.nodup_iff_count_le_one.mp h.nodup a

theorem Ledger.mem_left (h : Ledger R n m f g) (hi : i < n) (ha : a ∈ f i) : a ∈ R := by
  have hle := count_le_total hi f a
  have hpos := List.count_pos_iff.mpr ha
  have hbal := h.balance a
  exact List.count_pos_iff.mp (by omega)

theorem Ledger.mem_right (h : Ledger R n m f g) (hj : j < m) (ha : a ∈ g j) : a ∈ R := by
  have hle := count_le_total hj g a
  have hpos := List.count_pos_iff.mpr ha
  have hbal := h.balance a
  exact List.count_pos_iff.mp (by omega)

theorem Ledger.unique_left (h : Ledger R n m f g) {i' : Nat} (hi : i < n) (hi' : i' < n)
    (ha : a ∈ f i) (ha' : a ∈ f i') : i = i' :=
  unique_of_total (le_trans (Nat.le_add_right _ _) (h.total_le a)) hi hi' ha ha'

theorem Ledger.apart (h : Ledger R n m f g) (hi : i < n) (hj : j < m) (ha : a ∈ f i) :
    a ∉ g j := by
  intro hag
  have h1 := count_le_total hi f a
  have h2 := count_le_total hj g a
  have h3 := List.count_pos_iff.mpr ha
  have h4 := List.count_pos_iff.mpr hag
  have := h.total_le a
  omega

theorem Ledger.unique_right (h : Ledger R n m f g) {j' : Nat} (hj : j < m) (hj' : j' < m)
    (ha : a ∈ g j) (ha' : a ∈ g j') : j = j' :=
  unique_of_total (le_trans (Nat.le_add_left _ _) (h.total_le a)) hj hj' ha ha'

theorem Ledger.owner (h : Ledger R n m f g) (ha : a ∈ R) :
    (∃ i < n, a ∈ f i) ∨ ∃ j < m, a ∈ g j := by
  have hbal := h.balance a
  have hpos := List.count_pos_iff.mpr ha
  by_cases hf : 0 < total n f a
  · exact Or.inl (exists_of_total_pos hf)
  · exact Or.inr (exists_of_total_pos (by omega))

/-- The new items `l` get an owner. -/
theorem Ledger.add (h : Ledger R n m f g) {l : List α} (hi : i < n) (hf : f i = [])
    (hnew : (l ++ R).Nodup) : Ledger (l ++ R) n m (Function.update f i l) g := by
  refine ⟨hnew, fun b => ?_⟩
  have hupd := total_update hi f l b
  have hbal := h.balance b
  rw [hf, List.count_nil] at hupd
  rw [List.count_append]
  omega

/-- The items of a place go to the other family. -/
theorem Ledger.move (h : Ledger R n m f g) (hi : i < n) (hj : j < m) (hg : g j = []) :
    Ledger R n m (Function.update f i []) (Function.update g j (f i)) := by
  refine ⟨h.nodup, fun b => ?_⟩
  have h1 := total_update hi f [] b
  have h2 := total_update hj g (f i) b
  have hbal := h.balance b
  rw [List.count_nil] at h1
  rw [hg, List.count_nil] at h2
  omega

/-- The items of a place are given up. -/
theorem Ledger.drop (h : Ledger R n m f g) (hj : j < m) :
    Ledger (R.diff (g j)) n m f (Function.update g j []) := by
  refine ⟨h.nodup.diff, fun b => ?_⟩
  have h1 := total_update hj g [] b
  have hle := count_le_total hj g b
  have hbal := h.balance b
  rw [List.count_nil] at h1
  rw [List.count_diff]
  omega

end Kyuzen.Lib
