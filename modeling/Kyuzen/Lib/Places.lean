import Mathlib

/-!
# Items in a family of lists

`total n f a` counts how often `a` occurs in the lists `f 0 .. f (n - 1)` together. A step that
changes one list of the family changes the total by the difference of two counts
(`total_update`), so that invariants of the form "each item is in one place" come down to linear
arithmetic. `swapRemove` is the removal of an array that fills the gap with the last entry.
-/

namespace Kyuzen.Lib.Places

variable {α : Type*} [DecidableEq α]

def total (n : Nat) (f : Nat → List α) (a : α) : Nat := ∑ c ∈ Finset.range n, (f c).count a

theorem total_update {n c : Nat} (hc : c < n) (f : Nat → List α) (l : List α) (a : α) :
    total n (Function.update f c l) a + (f c).count a = total n f a + l.count a := by
  have hmem : c ∈ Finset.range n := Finset.mem_range.mpr hc
  unfold total
  rw [← Finset.add_sum_erase _ _ hmem, ← Finset.add_sum_erase _ (fun c => (f c).count a) hmem]
  have hrest : ∑ x ∈ (Finset.range n).erase c, (Function.update f c l x).count a =
      ∑ x ∈ (Finset.range n).erase c, (f x).count a :=
    Finset.sum_congr rfl fun x hx => by
      rw [Function.update_of_ne (Finset.mem_erase.mp hx).1]
  rw [hrest, Function.update_self]
  omega

theorem count_le_total {n c : Nat} (hc : c < n) (f : Nat → List α) (a : α) :
    (f c).count a ≤ total n f a :=
  Finset.single_le_sum (f := fun c => (f c).count a) (fun _ _ => Nat.zero_le _)
    (Finset.mem_range.mpr hc)

/-- An item that counts once is in one list only. -/
theorem unique_of_total {n c d : Nat} {f : Nat → List α} {a : α} (h : total n f a ≤ 1)
    (hc : c < n) (hd : d < n) (hac : a ∈ f c) (had : a ∈ f d) : c = d := by
  by_contra hne
  have hsub : ({c, d} : Finset Nat) ⊆ Finset.range n := by
    intro x hx
    rcases Finset.mem_insert.mp hx with rfl | hx
    · exact Finset.mem_range.mpr hc
    · rw [Finset.mem_singleton.mp hx]
      exact Finset.mem_range.mpr hd
  have hle : ∑ x ∈ ({c, d} : Finset Nat), (f x).count a ≤ total n f a :=
    Finset.sum_le_sum_of_subset hsub
  rw [Finset.sum_pair hne] at hle
  have h1 := List.count_pos_iff.mpr hac
  have h2 := List.count_pos_iff.mpr had
  omega

theorem exists_of_total_pos {n : Nat} {f : Nat → List α} {a : α} (h : 0 < total n f a) :
    ∃ c < n, a ∈ f c := by
  obtain ⟨c, hc, hpos⟩ := Finset.exists_ne_zero_of_sum_ne_zero (Nat.ne_of_gt h)
  exact ⟨c, Finset.mem_range.mp hc, List.count_pos_iff.mp (Nat.pos_of_ne_zero hpos)⟩

theorem total_eq_zero {n : Nat} {f : Nat → List α} {a : α} :
    total n f a = 0 ↔ ∀ c < n, a ∉ f c := by
  unfold total
  rw [Finset.sum_eq_zero_iff]
  simp only [Finset.mem_range, List.count_eq_zero]

/-! ## Removal -/

/-- `entries[i] = entries[--count]`. -/
def swapRemove (l : List α) (i : Nat) : List α :=
  match l.getLast? with
  | none => []
  | some last => (l.set i last).dropLast

theorem count_swapRemove {l : List α} {i : Nat} {x : α} (h : l[i]? = some x) (a : α) :
    (swapRemove l i).count a + (if x = a then 1 else 0) = l.count a := by
  obtain ⟨hi, hx⟩ := List.getElem?_eq_some_iff.mp h
  have hne : l ≠ [] := by
    rintro rfl
    simp at hi
  have hset : (l.set i (l.getLast hne)).length = l.length := List.length_set
  have hset_ne : l.set i (l.getLast hne) ≠ [] := by
    intro hc
    rw [hc] at hset
    exact hne (List.length_eq_zero_iff.mp hset.symm)
  have hlast : (l.set i (l.getLast hne)).getLast hset_ne = l.getLast hne := by
    rw [List.getLast_eq_getElem, List.getElem_set]
    split_ifs with heq
    · rfl
    · simp only [List.length_set, List.getLast_eq_getElem]
  have hcount : (l.set i (l.getLast hne)).count a + (if x = a then 1 else 0) =
      l.count a + (if l.getLast hne = a then 1 else 0) := by
    have hpos : (if l[i] = a then 1 else 0) ≤ l.count a := by
      split_ifs with heq
      · exact List.count_pos_iff.mpr (heq ▸ List.getElem_mem hi)
      · exact Nat.zero_le _
    rw [List.count_set hi]
    simp only [beq_iff_eq, hx] at hpos ⊢
    omega
  have hdrop := congrArg (List.count a) (List.dropLast_append_getLast hset_ne)
  rw [List.count_append, hlast] at hdrop
  have hsingle : List.count a [l.getLast hne] = if l.getLast hne = a then 1 else 0 := by
    rw [List.count_singleton]
    simp only [beq_iff_eq]
  rw [swapRemove, List.getLast?_eq_some_getLast hne]
  dsimp only
  omega

end Kyuzen.Lib.Places
