import Mathlib

/-!
# Chains through a table

`Path next a l stop` says that following the table `next` from `a` visits exactly the
positions `l`, in order, and then arrives at `stop`. Paths compose (`path_append`), read the
table only at their own positions (`path_congr`), and, when they end outside themselves, are
determined by where they start and visit nothing twice.
-/

namespace Kyuzen.Lib.Chain

variable {α : Type*}

def Path (next : α → α) : α → List α → α → Prop
  | a, [], stop => a = stop
  | a, x :: l, stop => a = x ∧ Path next (next x) l stop

theorem path_append {next : α → α} {a stop : α} {xs ys : List α} :
    Path next a (xs ++ ys) stop ↔ ∃ mid, Path next a xs mid ∧ Path next mid ys stop := by
  induction xs generalizing a with
  | nil => simp [Path]
  | cons x xs ih =>
    simp only [List.cons_append, Path, ih]
    constructor
    · rintro ⟨h, mid, h1, h2⟩
      exact ⟨mid, ⟨h, h1⟩, h2⟩
    · rintro ⟨mid, ⟨h, h1⟩, h2⟩
      exact ⟨h, mid, h1, h2⟩

theorem path_congr {next next' : α → α} {a stop : α} {l : List α}
    (hn : ∀ x ∈ l, next' x = next x) (h : Path next a l stop) : Path next' a l stop := by
  induction l generalizing a with
  | nil => exact h
  | cons x l ih =>
    obtain ⟨rfl, hrest⟩ := h
    refine ⟨rfl, ?_⟩
    rw [hn a List.mem_cons_self]
    exact ih (fun y hy => hn y (List.mem_cons_of_mem _ hy)) hrest

theorem path_head {next : α → α} {a stop : α} {l : List α} (h : Path next a l stop)
    (hne : l ≠ []) : a ∈ l := by
  cases l with
  | nil => exact absurd rfl hne
  | cons x l =>
    rw [h.1]
    exact List.mem_cons_self

theorem path_stop_unique {next : α → α} {a x y : α} {l : List α} (hx : Path next a l x)
    (hy : Path next a l y) : x = y := by
  induction l generalizing a with
  | nil => exact Eq.trans (Eq.symm hx) hy
  | cons z l ih => exact ih hx.2 hy.2

/-- A path that does not meet the end of another one is part of it. -/
theorem path_subset {next : α → α} {a x y : α} {l k : List α} (hx : Path next a l x)
    (hy : Path next a k y) (hl : y ∉ l) : l ⊆ k := by
  induction l generalizing a k with
  | nil => exact List.nil_subset k
  | cons z l ih =>
    obtain ⟨rfl, hrest⟩ := hx
    cases k with
    | nil => exact absurd (show y ∈ a :: l from hy ▸ List.mem_cons_self) hl
    | cons w k =>
      obtain ⟨rfl, hy'⟩ := hy
      exact List.cons_subset_cons a (ih hrest hy' fun hmem => hl (List.mem_cons_of_mem a hmem))

/-- A path ends where it starts, or behind one of its positions. -/
theorem path_stop_mem {next : α → α} {a x : α} {l : List α} (h : Path next a l x) :
    x = a ∨ ∃ y ∈ l, x = next y := by
  induction l generalizing a with
  | nil => exact Or.inl (Eq.symm h)
  | cons z l ih =>
    obtain ⟨rfl, hrest⟩ := h
    rcases ih hrest with rfl | ⟨y, hy, rfl⟩
    · exact Or.inr ⟨a, List.mem_cons_self, rfl⟩
    · exact Or.inr ⟨y, List.mem_cons_of_mem _ hy, rfl⟩

/-- The rest of a path, from one of its positions on. -/
theorem path_from {next : α → α} {a stop x : α} {l : List α} (h : Path next a l stop)
    (hx : x ∈ l) : ∃ xs ys, l = xs ++ x :: ys ∧ Path next x (x :: ys) stop := by
  obtain ⟨xs, ys, rfl⟩ := List.append_of_mem hx
  obtain ⟨mid, _, hmid⟩ := path_append.mp h
  obtain ⟨rfl, hrest⟩ := hmid
  exact ⟨xs, ys, rfl, rfl, hrest⟩

theorem path_unique {next : α → α} {a stop : α} {xs ys : List α} (hx : Path next a xs stop)
    (hy : Path next a ys stop) (hxs : stop ∉ xs) (hys : stop ∉ ys) : xs = ys := by
  induction xs generalizing a ys with
  | nil =>
    cases ys with
    | nil => rfl
    | cons y ys =>
      rw [← hy.1, hx] at hys
      exact absurd List.mem_cons_self hys
  | cons x xs ih =>
    cases ys with
    | nil =>
      rw [← hx.1, hy] at hxs
      exact absurd List.mem_cons_self hxs
    | cons y ys =>
      obtain ⟨rfl, hx⟩ := hx
      obtain ⟨rfl, hy⟩ := hy
      rw [ih hx hy (fun h => hxs (List.mem_cons_of_mem _ h))
        fun h => hys (List.mem_cons_of_mem _ h)]

theorem path_nodup {next : α → α} {a stop : α} {l : List α} (h : Path next a l stop)
    (hl : stop ∉ l) : l.Nodup := by
  induction l generalizing a with
  | nil => exact List.nodup_nil
  | cons x l ih =>
    obtain ⟨rfl, hrest⟩ := h
    have hl' : stop ∉ l := fun h => hl (List.mem_cons_of_mem _ h)
    refine List.nodup_cons.mpr ⟨fun ha => ?_, ih hrest hl'⟩
    -- a second visit would make the rest of the path as long as the whole
    obtain ⟨xs, ys, rfl, hfrom⟩ := path_from hrest ha
    have hwhole : Path next a (a :: (xs ++ a :: ys)) stop := ⟨rfl, hrest⟩
    have heq := path_unique hfrom hwhole (fun h => hl' (List.mem_append_right _ h)) hl
    have hlen := congrArg List.length heq
    simp only [List.length_cons, List.length_append] at hlen
    omega

/-- A path grows at its end by redirecting its last position. -/
theorem path_concat {next next' : α → α} {a stop last new : α} {l : List α}
    (h : Path next a (l ++ [last]) stop)
    (hn : ∀ x ∈ l, next' x = next x) (hlast : next' last = new) (hnew : next' new = stop) :
    Path next' a (l ++ [last] ++ [new]) stop := by
  obtain ⟨mid, hpre, rfl, _⟩ := path_append.mp h
  exact path_append.mpr ⟨new, path_append.mpr ⟨mid, path_congr hn hpre, rfl, hlast⟩, rfl, hnew⟩

end Kyuzen.Lib.Chain
