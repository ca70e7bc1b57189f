import Mathlib.Data.List.Forall2

/-!
# Folds over the lines of a text

A state that is updated line by line. If a line does the same with a carriage return at its end,
then so does the whole text with some of its line ends replaced by CRLF (`foldl_lineEnds`). A part
of the state that every line either sets or leaves as it is has afterwards what the last line that
sets it says (`foldl_last`).
-/

namespace Kyuzen.Lib

variable {α σ β γ : Type} {nl cr : α} {s t : List α}

/-- The second text is the first one with some of its line ends replaced by CRLF. -/
inductive LineEnds (nl cr : α) : List α → List α → Prop
  | nil : LineEnds nl cr [] []
  | keep (c : α) {s t : List α} : LineEnds nl cr s t → LineEnds nl cr (c :: s) (c :: t)
  | crlf {s t : List α} : LineEnds nl cr s t → LineEnds nl cr (nl :: s) (cr :: nl :: t)

/-- The lines of the two texts, which differ by a carriage return at the end. -/
theorem LineEnds.splitOn [BEq α] [LawfulBEq α] (hne : cr ≠ nl) (h : LineEnds nl cr s t) :
    List.Forall₂ (fun l l' => l' = l ∨ l' = l ++ [cr]) (s.splitOn nl) (t.splitOn nl) := by
  induction h with
  | nil => exact List.Forall₂.cons (Or.inl rfl) List.Forall₂.nil
  | @keep c s t _ ih =>
    rw [List.splitOn_cons_eq_if_modifyHead, List.splitOn_cons_eq_if_modifyHead]
    split
    · exact List.Forall₂.cons (Or.inl rfl) ih
    · generalize s.splitOn nl = ls at ih ⊢
      generalize t.splitOn nl = ls' at ih ⊢
      cases ih with
      | nil => exact List.Forall₂.nil
      | cons hl hrest =>
        refine List.Forall₂.cons ?_ hrest
        rcases hl with rfl | rfl
        · exact Or.inl rfl
        · exact Or.inr (List.cons_append ..).symm
  | crlf _ ih =>
    rw [List.splitOn_cons_eq_if_modifyHead, List.splitOn_cons_eq_if_modifyHead,
      List.splitOn_cons_eq_if_modifyHead, if_pos (beq_self_eq_true nl),
      if_neg (by rw [beq_iff_eq]; exact hne), if_pos (beq_self_eq_true nl), List.modifyHead_cons]
    exact List.Forall₂.cons (Or.inr rfl) ih

/-- Lines that differ by a carriage return at the end do the same. -/
theorem foldl_lineEnds [BEq α] [LawfulBEq α] {step : σ → List α → σ} (hne : cr ≠ nl)
    (hstep : ∀ x l, step x (l ++ [cr]) = step x l) (h : LineEnds nl cr s t) (x : σ) :
    (t.splitOn nl).foldl step x = (s.splitOn nl).foldl step x := by
  have hlines := h.splitOn hne
  clear h
  generalize s.splitOn nl = ls at hlines ⊢
  generalize t.splitOn nl = ls' at hlines ⊢
  induction hlines generalizing x with
  | nil => rfl
  | cons hl _ ih =>
    rw [List.foldl_cons, List.foldl_cons]
    rcases hl with rfl | rfl
    · exact ih _
    · rw [hstep]
      exact ih _

/-- The bytes of a line are bytes of the text. -/
theorem mem_of_mem_splitOn [BEq α] {l : List α} (hl : l ∈ s.splitOn nl) {a : α} (ha : a ∈ l) :
    a ∈ s := by
  induction s generalizing l with
  | nil =>
    rw [show List.splitOn nl [] = [[]] from rfl, List.mem_singleton] at hl
    rwa [hl] at ha
  | cons c s ih =>
    rw [List.splitOn_cons_eq_if_modifyHead] at hl
    split at hl
    · rcases List.mem_cons.mp hl with rfl | hl
      · cases ha
      · exact List.mem_cons_of_mem c (ih hl ha)
    · cases hs : s.splitOn nl with
      | nil =>
        rw [hs] at hl
        cases hl
      | cons l' ls =>
        rw [hs, List.modifyHead_cons] at hl
        rw [hs] at ih
        rcases List.mem_cons.mp hl with rfl | hl
        · rcases List.mem_cons.mp ha with rfl | ha
          · exact List.mem_cons_self
          · exact List.mem_cons_of_mem c (ih List.mem_cons_self ha)
        · exact List.mem_cons_of_mem c (ih (List.mem_cons_of_mem l' hl) ha)

/-- What the steps set or leave is afterwards what the last one that sets it says. -/
theorem foldl_last {step : σ → α → σ} (view : σ → β) (value : α → Option γ) (f : γ → β)
    (as : List α) (hstep : ∀ x, ∀ a ∈ as, view (step x a) = ((value a).map f).getD (view x))
    (x : σ) :
    view (as.foldl step x) = ((as.filterMap value).getLast?.map f).getD (view x) := by
  induction as generalizing x with
  | nil => rfl
  | cons a as ih =>
    rw [List.foldl_cons, ih (fun y b hb => hstep y b (List.mem_cons_of_mem a hb)),
      hstep x a List.mem_cons_self]
    cases ha : value a with
    | none => rw [List.filterMap_cons_none ha, Option.map_none, Option.getD_none]
    | some b =>
      rw [List.filterMap_cons_some ha, List.getLast?_cons, Option.map_some, Option.map_some,
        Option.getD_some, Option.getD_some]
      cases (as.filterMap value).getLast? <;> rfl

end Kyuzen.Lib
