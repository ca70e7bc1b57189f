import Mathlib.Data.Set.Function
import Kyuzen.Kwm.AltTab

/-!
# Renumbering in the array

`kwm_normalize_zindex_locked` as it works on its array of slots: the windows are collected, each is
inserted by moving the higher ones up by one place, and the places are written back. The array
holds, highest first, the list that the model's insertion builds (`down_shift`), so the loops
compute `kwmNormalizeZindexLocked` (`normalize_eq`). The new indices are a bijection to 1 .. n that
keeps the order of the old ones, and the order of the slots where the old ones are equal
(`zindex_normalized`).
-/

namespace Kyuzen.Kwm

variable {s : State} {order : Nat → Nat} {i n : Nat}

/-! ## The loops -/

def collectSlot (s : State) (acc : (Nat → Nat) × Nat) (w : Nat) : (Nat → Nat) × Nat :=
  if s.normal w then (Function.update acc.1 acc.2 w, acc.2 + 1) else acc

/-- The array `order` and the counter `n`. -/
def collectSlots (s : State) (count : Nat) : (Nat → Nat) × Nat :=
  (List.range count).foldl (collectSlot s) (fun _ => 0, 0)

/-- The `while` loop, at `j + 1`. -/
def shiftHigher (s : State) (z : Nat) (order : Nat → Nat) : Nat → (Nat → Nat) × Nat
  | 0 => (order, 0)
  | j + 1 =>
    if (s.windows (order j)).zIndex > z then
      shiftHigher s z (Function.update order (j + 1) (order j)) j
    else (order, j + 1)

def insertSlot (s : State) (order : Nat → Nat) (i : Nat) : Nat → Nat :=
  let w := order i
  let shifted := shiftHigher s (s.windows w).zIndex order i
  Function.update shifted.1 shifted.2 w

/-- The rounds of the sort for `i` from 1 on. -/
def sortSlots (s : State) (order : Nat → Nat) (rounds : Nat) : Nat → Nat :=
  (List.range' 1 rounds).foldl (insertSlot s) order

def writeIndex (order : Nat → Nat) (s : State) (i : Nat) : State :=
  setWindow s (order i) { s.windows (order i) with zIndex := u32 (i + 1) }

def writeIndices (order : Nat → Nat) (s : State) (n : Nat) : State :=
  (List.range n).foldl (writeIndex order) s

def kwmNormalizeZindexArray (s : State) : State :=
  let (order, n) := collectSlots s maxWindows
  { writeIndices (sortSlots s order (n - 1)) s n with nextZIndex := u32 (n + 1) }

/-! ## The array and the list -/

/-- The first entries of the array, the last of them first. -/
def down (order : Nat → Nat) (n : Nat) : List Nat := ((List.range n).map order).reverse

@[simp] theorem down_zero (order : Nat → Nat) : down order 0 = [] := rfl

@[simp] theorem down_succ (order : Nat → Nat) (n : Nat) :
    down order (n + 1) = order n :: down order n := by
  simp [down, List.range_succ]

theorem down_congr {order' : Nat → Nat} (h : ∀ p < n, order' p = order p) :
    down order' n = down order n := by
  unfold down
  congr 1
  apply List.map_congr_left
  intro p hp
  exact h p (List.mem_range.mp hp)

theorem down_update {w : Nat} (h : n ≤ i) : down (Function.update order i w) n = down order n := by
  apply down_congr
  intro p hp
  have hp : p ≠ i := by omega
  exact Function.update_of_ne hp w order

theorem collectSlots_down (s : State) (count : Nat) :
    down (collectSlots s count).1 (collectSlots s count).2 =
      ((List.range count).filter s.normal).reverse := by
  induction count with
  | zero => rfl
  | succ count ih =>
    have hstep : collectSlots s (count + 1) = collectSlot s (collectSlots s count) count := by
      simp only [collectSlots, List.range_succ, List.foldl_append, List.foldl_cons, List.foldl_nil]
    rw [hstep, List.range_succ, List.filter_append, List.reverse_append, ← ih]
    unfold collectSlot
    by_cases hn : s.normal count = true
    · simp [hn, down_update]
    · simp [hn]

/-- Moving the higher entries up leaves the place at which the list has the new element. -/
theorem down_shift (s : State) (w j : Nat) (order : Nat → Nat) :
    let shifted := shiftHigher s (s.windows w).zIndex order j
    down (Function.update shifted.1 shifted.2 w) (j + 1) = insertByZ s w (down order j) ∧
      shifted.2 ≤ j ∧ ∀ p, j < p → shifted.1 p = order p := by
  induction j generalizing order with
  | zero =>
    refine ⟨?_, le_rfl, fun p _ => rfl⟩
    simp [shiftHigher, insertByZ]
  | succ j ih =>
    by_cases hz : (s.windows (order j)).zIndex > (s.windows w).zIndex
    · obtain ⟨hdown, hle, hframe⟩ := ih (Function.update order (j + 1) (order j))
      have hmoved := hframe (j + 1) (by omega)
      rw [Function.update_self] at hmoved
      rw [down_update (n := j) (by omega : j ≤ j + 1)] at hdown
      simp only [shiftHigher, if_pos hz]
      refine ⟨?_, by omega, fun p hp => ?_⟩
      · rw [down_succ, Function.update_of_ne (by omega), hmoved, hdown, down_succ, insertByZ,
          if_pos hz]
      · rw [hframe p (by omega), Function.update_of_ne (by omega)]
    · simp only [shiftHigher, if_neg hz]
      refine ⟨?_, le_rfl, fun p _ => trivial⟩
      rw [down_succ, Function.update_self, down_update le_rfl, down_succ, insertByZ, if_neg hz]

/-- After each round, one more entry has been inserted and the later ones are as they were. -/
theorem sortSlots_down (s : State) (order : Nat → Nat) (rounds : Nat) :
    down (sortSlots s order rounds) (rounds + 1) =
        ((List.range (rounds + 1)).map order).foldl (fun sorted w => insertByZ s w sorted) [] ∧
      ∀ p, rounds < p → sortSlots s order rounds p = order p := by
  induction rounds with
  | zero => exact ⟨rfl, fun p _ => rfl⟩
  | succ rounds ih =>
    obtain ⟨hdown, hframe⟩ := ih
    have hstep : sortSlots s order (rounds + 1) =
        insertSlot s (sortSlots s order rounds) (rounds + 1) := by
      simp only [sortSlots, List.range'_concat, List.foldl_append, List.foldl_cons, List.foldl_nil]
      congr 1
      omega
    have hnext := hframe (rounds + 1) (by omega)
    obtain ⟨hshift, hle, hkeep⟩ :=
      down_shift s (order (rounds + 1)) (rounds + 1) (sortSlots s order rounds)
    rw [hstep]
    simp only [insertSlot, hnext]
    constructor
    · rw [hshift, hdown, @List.range_succ (rounds + 1), List.map_append, List.foldl_append]
      rfl
    · intro p hp
      rw [Function.update_of_ne (by omega), hkeep p (by omega), hframe p (by omega)]

theorem collectSlots_count (s : State) (count : Nat) :
    (collectSlots s count).2 = ((List.range count).filter s.normal).length := by
  have h := congrArg List.length (collectSlots_down s count)
  simpa [down] using h

/-- The sorted array is the list of the model. -/
theorem sorted_eq_zOrder (s : State) :
    (List.range (zOrder s).length).map
      (sortSlots s (collectSlots s maxWindows).1 ((collectSlots s maxWindows).2 - 1)) =
        zOrder s := by
  have hcount : (collectSlots s maxWindows).2 = (zOrder s).length := by
    rw [collectSlots_count, zOrder_length, windowCount]
  have hslots : (List.range (zOrder s).length).map (collectSlots s maxWindows).1 =
      (List.range maxWindows).filter s.normal := by
    have h := collectSlots_down s maxWindows
    rw [hcount] at h
    exact List.reverse_injective h
  rw [hcount]
  cases hn : (zOrder s).length with
  | zero =>
    rw [List.length_eq_zero_iff.mp hn]
    rfl
  | succ m =>
    have hdown := (sortSlots_down s (collectSlots s maxWindows).1 m).1
    rw [hn] at hslots
    rw [hslots] at hdown
    show _ = List.reverse _
    rw [← hdown, down, List.reverse_reverse]
    rfl

/-- After the first writes, exactly the first places have been given. -/
theorem writeIndices_windows {l : List Nat} (hl : l.Nodup)
    (horder : (List.range l.length).map order = l) (hn : n ≤ l.length) :
    writeIndices order s n = { s with
      windows := fun w =>
        if w ∈ l.take n then { s.windows w with zIndex := u32 (l.idxOf w + 1) }
        else s.windows w } := by
  induction n with
  | zero => simp [writeIndices]
  | succ n ih =>
    have hat : order n = l[n] := by
      have : l[n]? = some (order n) := by
        rw [← horder, List.getElem?_map, List.getElem?_range (by omega)]
        rfl
      rw [List.getElem?_eq_getElem (by omega)] at this
      exact (Option.some_inj.mp this).symm
    have hidx : l.idxOf (order n) = n := by
      rw [hat]
      exact hl.idxOf_getElem n (by omega)
    have htake : l.take (n + 1) = l.take n ++ [order n] := by
      rw [List.take_succ_eq_append_getElem (by omega), hat]
    have hfresh : order n ∉ l.take n := by
      intro hmem
      have := (List.nodup_append.mp (htake ▸ hl.sublist (List.take_sublist _ _))).2.2 _ hmem _
        (List.mem_singleton_self _)
      exact this rfl
    have hstep : writeIndices order s (n + 1) = writeIndex order (writeIndices order s n) n := by
      simp only [writeIndices, List.range_succ, List.foldl_append, List.foldl_cons, List.foldl_nil]
    rw [hstep, ih (by omega), htake]
    simp only [writeIndex, setWindow, if_neg hfresh]
    congr 1
    funext w
    by_cases hw : w = order n
    · subst hw
      simp [hidx]
    · simp [hw]

/-- The loops compute what the list model computes. -/
theorem normalize_eq (s : State) : kwmNormalizeZindexArray s = kwmNormalizeZindexLocked s := by
  have hcount : (collectSlots s maxWindows).2 = (zOrder s).length := by
    rw [collectSlots_count, zOrder_length, windowCount]
  simp only [kwmNormalizeZindexArray, hcount]
  rw [← hcount, writeIndices_windows (zOrder_nodup s) (sorted_eq_zOrder s) (by omega), hcount,
    List.take_length]
  rfl

/-! ## The new indices -/

/-- Equal indices keep the order of the slots. -/
theorem zOrder_idxOf_tie {v w : Nat} (hv : v ∈ zOrder s) (hw : w ∈ zOrder s) (hvw : v < w)
    (heq : (s.windows v).zIndex = (s.windows w).zIndex) :
    (zOrder s).idxOf v < (zOrder s).idxOf w := by
  obtain ⟨hv, hnv⟩ := mem_zOrder.mp hv
  obtain ⟨hw, hnw⟩ := mem_zOrder.mp hw
  have hpair : [v, w].Sublist ((List.range maxWindows).filter s.normal) := by
    apply List.sublist_of_subperm_of_pairwise (r := (· < ·))
    · exact List.subperm_of_subset (by simp [hvw.ne]) (by simp [hv, hw, hnv, hnw])
    · exact List.pairwise_pair.mpr hvw
    · exact List.pairwise_lt_range.filter _
  have hsorted : [v, w].Sublist (zOrder s) := by
    rw [zOrder_eq, ← List.reverse_reverse [v, w], List.reverse_sublist]
    exact List.pair_sublist_insertionSort heq.le hpair.reverse
  obtain ⟨l₁, l₂, hl, hmem, hsub⟩ := List.cons_sublist_iff.mp hsorted
  have hwl : w ∈ l₂ := List.singleton_sublist.mp hsub
  have hnodup := zOrder_nodup s
  rw [hl] at hnodup ⊢
  have hnot : w ∉ l₁ := fun hin => (List.nodup_append.mp hnodup).2.2 w hin w hwl rfl
  rw [List.idxOf_append_of_mem hmem, List.idxOf_append_of_notMem hnot]
  have := List.idxOf_lt_length_of_mem hmem
  omega

/-- What renumbering does to the window table. -/
structure Normalized (s s' : State) : Prop where
  untouched : ∀ w, (w < maxWindows → s.normal w = false) → s'.windows w = s.windows w
  onlyIndex : ∀ w, s'.windows w = { s.windows w with zIndex := (s'.windows w).zIndex }
  bijective : Set.BijOn (fun w => (s'.windows w).zIndex)
    {w | w < maxWindows ∧ s.normal w = true} (Set.Icc 1 (windowCount s))
  mono : ∀ v < maxWindows, ∀ w < maxWindows, s.normal v = true → s.normal w = true →
    (s.windows v).zIndex < (s.windows w).zIndex → (s'.windows v).zIndex < (s'.windows w).zIndex
  stable : ∀ v < maxWindows, ∀ w < maxWindows, s.normal v = true → s.normal w = true →
    (s.windows v).zIndex = (s.windows w).zIndex → v < w →
      (s'.windows v).zIndex < (s'.windows w).zIndex
  next : s'.nextZIndex = windowCount s + 1
  rest : s' = { s with windows := s'.windows, nextZIndex := s'.nextZIndex }

theorem normalize_bijOn (s : State) :
    Set.BijOn (fun w => ((kwmNormalizeZindexLocked s).windows w).zIndex)
      {w | w < maxWindows ∧ s.normal w = true} (Set.Icc 1 (windowCount s)) := by
  have hlen := zOrder_length s
  refine ⟨?_, ?_, ?_⟩
  · intro w ⟨hw, hn⟩
    have := List.idxOf_lt_length_of_mem (mem_zOrder.mpr ⟨hw, hn⟩)
    simp only [normalize_zIndex hw hn, Set.mem_Icc]
    omega
  · intro v ⟨hv, hnv⟩ w ⟨hw, hnw⟩ heq
    have hn := (Restacked.normalize s).normal
    apply (layered_normalize s).distinct v hv w hw _ _ heq
    · rw [hn]
      exact hnv
    · rw [hn]
      exact hnw
  · intro k hk
    obtain ⟨hk1, hkn⟩ := Set.mem_Icc.mp hk
    have hlt : k - 1 < (zOrder s).length := by omega
    obtain ⟨hw, hn⟩ := mem_zOrder.mp (List.getElem_mem hlt)
    refine ⟨(zOrder s)[k - 1], ⟨hw, hn⟩, ?_⟩
    simp only [normalize_zIndex hw hn, (zOrder_nodup s).idxOf_getElem]
    omega

theorem normalize_normalized (s : State) : Normalized s (kwmNormalizeZindexLocked s) where
  untouched w hw := by
    apply if_neg
    intro hmem
    obtain ⟨hlt, hn⟩ := mem_zOrder.mp hmem
    rw [hw hlt] at hn
    cases hn
  onlyIndex w := by
    obtain ⟨z, hz⟩ := Restacked.normalize s w
    rw [hz]
  bijective := normalize_bijOn s
  mono := (Renumbered.normalize s).mono
  stable v hv w hw hnv hnw heq hvw := by
    rw [normalize_zIndex hv hnv, normalize_zIndex hw hnw]
    have := zOrder_idxOf_tie (mem_zOrder.mpr ⟨hv, hnv⟩) (mem_zOrder.mpr ⟨hw, hnw⟩) hvw heq
    omega
  next := by rw [normalize_next, zOrder_length]
  rest := rfl

/-- The windows are already in the order that renumbering gives them. -/
theorem zOrder_normalize (s : State) : zOrder (kwmNormalizeZindexLocked s) = zOrder s := by
  apply (layered_normalize s).zOrder_eq
  · intro w
    rw [(Restacked.normalize s).normal]
    exact mem_zOrder
  · apply List.pairwise_iff_getElem.mpr
    intro i j hi hj hij
    obtain ⟨hlti, hni⟩ := mem_zOrder.mp (List.getElem_mem hi)
    obtain ⟨hltj, hnj⟩ := mem_zOrder.mp (List.getElem_mem hj)
    rw [normalize_zIndex hlti hni, normalize_zIndex hltj hnj, (zOrder_nodup s).idxOf_getElem,
      (zOrder_nodup s).idxOf_getElem]
    omega

theorem normalize_windows (s : State) (w : Nat) :
    (kwmNormalizeZindexLocked s).windows w =
      if w ∈ zOrder s then { s.windows w with zIndex := u32 ((zOrder s).idxOf w + 1) }
      else s.windows w := rfl

theorem normalize_idempotent (s : State) :
    kwmNormalizeZindexLocked (kwmNormalizeZindexLocked s) = kwmNormalizeZindexLocked s := by
  have hwindows : (kwmNormalizeZindexLocked (kwmNormalizeZindexLocked s)).windows =
      (kwmNormalizeZindexLocked s).windows := by
    funext w
    rw [normalize_windows (kwmNormalizeZindexLocked s), zOrder_normalize, normalize_windows]
    split
    · rfl
    · rfl
  have hnext : (kwmNormalizeZindexLocked (kwmNormalizeZindexLocked s)).nextZIndex =
      (kwmNormalizeZindexLocked s).nextZIndex := by
    rw [normalize_next, normalize_next, zOrder_normalize]
  rw [(normalize_normalized (kwmNormalizeZindexLocked s)).rest, hwindows, hnext]

/-- For every table: the desktop and the inactive slots stay, the others are numbered from 1 in
the order they had, and renumbering again changes nothing. -/
theorem zindex_normalized (s : State) :
    Normalized s (kwmNormalizeZindexArray s) ∧
      kwmNormalizeZindexArray (kwmNormalizeZindexArray s) = kwmNormalizeZindexArray s := by
  simp only [normalize_eq]
  exact ⟨normalize_normalized s, normalize_idempotent s⟩

end Kyuzen.Kwm
