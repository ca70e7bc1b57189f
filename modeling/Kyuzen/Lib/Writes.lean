import Mathlib.Data.List.Basic
import Mathlib.Logic.Function.Basic

/-!
# Loops that write

A loop over a memory whose steps all write values of one function `g`, each step where its own
condition `W` says. Afterwards the memory has the values of `g` where some step wrote, and its old
values elsewhere (`foldl_writes`, and `foldl_writes₂` for two loops, one in the other). Where the
values are not those of one function, a place has that of the last step that wrote it
(`foldl_update_cases`).
-/

namespace Kyuzen.Lib

variable {α ι κ P : Type*} {g : P → α}

theorem foldl_writes {W : ι → P → Prop} {f : ι → (P → α) → P → α} (l : List ι)
    (hin : ∀ k ∈ l, ∀ m i, W k i → f k m i = g i)
    (hout : ∀ k ∈ l, ∀ m i, ¬W k i → f k m i = m i) :
    ∀ (m : P → α) (i : P),
      ((∃ k ∈ l, W k i) → l.foldl (fun m k => f k m) m i = g i) ∧
      ((¬∃ k ∈ l, W k i) → l.foldl (fun m k => f k m) m i = m i) := by
  induction l with
  | nil => exact fun m i => ⟨fun ⟨k, hk, _⟩ => absurd hk List.not_mem_nil, fun _ => rfl⟩
  | cons k l ih =>
    intro m i
    have hrest := ih (fun j hj => hin j (List.mem_cons_of_mem k hj))
      (fun j hj => hout j (List.mem_cons_of_mem k hj)) (f k m) i
    rw [List.foldl_cons]
    by_cases hl : ∃ j ∈ l, W j i
    · refine ⟨fun _ => hrest.1 hl, fun hno => ?_⟩
      obtain ⟨j, hj, hw⟩ := hl
      exact absurd ⟨j, List.mem_cons_of_mem k hj, hw⟩ hno
    · rw [hrest.2 hl]
      constructor
      · intro hw
        obtain ⟨j, hj, hw⟩ := hw
        rcases List.mem_cons.mp hj with rfl | hj
        · exact hin j List.mem_cons_self m i hw
        · exact absurd ⟨j, hj, hw⟩ hl
      · intro hno
        exact hout k List.mem_cons_self m i fun hw => hno ⟨k, List.mem_cons_self, hw⟩

theorem foldl_writes₂ {W : ι → κ → P → Prop} {f : ι → κ → (P → α) → P → α}
    (l : List ι) (l' : List κ) (hin : ∀ k k' m i, W k k' i → f k k' m i = g i)
    (hout : ∀ k k' m i, ¬W k k' i → f k k' m i = m i) (m : P → α) (i : P) :
    ((∃ k ∈ l, ∃ k' ∈ l', W k k' i) →
      l.foldl (fun m k => l'.foldl (fun m k' => f k k' m) m) m i = g i) ∧
    ((¬∃ k ∈ l, ∃ k' ∈ l', W k k' i) →
      l.foldl (fun m k => l'.foldl (fun m k' => f k k' m) m) m i = m i) := by
  have hrow := fun k => foldl_writes (W := W k) (f := f k) l'
    (fun k' _ => hin k k') fun k' _ => hout k k'
  exact foldl_writes (W := fun k i => ∃ k' ∈ l', W k k' i)
    (f := fun k m => l'.foldl (fun m k' => f k k' m) m) l (fun k _ m i => (hrow k m i).1)
    (fun k _ m i => (hrow k m i).2) m i

/-- After a loop of assignments, a place that one of them was made to has the value of the last. -/
theorem foldl_update_cases [DecidableEq P] (place : ι → P) (value : ι → α) (l : List ι)
    (m : P → α) (i : P) :
    ((∀ k ∈ l, place k ≠ i) ∧
      l.foldl (fun m k => Function.update m (place k) (value k)) m i = m i) ∨
    ∃ before k after, l = before ++ k :: after ∧ place k = i ∧ (∀ j ∈ after, place j ≠ i) ∧
      l.foldl (fun m k => Function.update m (place k) (value k)) m i = value k := by
  induction l generalizing m with
  | nil => exact Or.inl ⟨fun k hk => absurd hk List.not_mem_nil, rfl⟩
  | cons j l ih =>
    rcases ih (Function.update m (place j) (value j)) with
      ⟨hnone, heq⟩ | ⟨before, k, after, rfl, hk, hafter, heq⟩
    · by_cases hj : place j = i
      · right
        refine ⟨[], j, l, rfl, hj, hnone, heq.trans ?_⟩
        rw [← hj, Function.update_self]
      · left
        exact ⟨List.forall_mem_cons.mpr ⟨hj, hnone⟩,
          heq.trans (Function.update_of_ne (Ne.symm hj) _ _)⟩
    · right
      exact ⟨j :: before, k, after, rfl, hk, hafter, heq⟩

end Kyuzen.Lib
