import Mathlib.Data.List.Induction
import Mathlib.Data.List.Rotate
import Kyuzen.Kwm.Stacking

/-!
# Alt-Tab

Each press brings the lowest window to the top, when the focus is on the topmost one: the windows,
from the lowest to the highest, are rotated (`cycle_rotates`). As many presses as there are windows
visit each of them once and leave the stack as it was (`alt_tab_visits`).
-/

namespace Kyuzen.Kwm

variable {s s' : State} {i f w : Nat}

/-- A press of Tab, with the modifiers that are held. -/
def altTab (s : State) (mods : Nat) : State := (kwmHandleShortcut s mods false kbdScanTab).2.1

def altTabs (s : State) (presses : List Nat) : State := presses.foldl altTab s

/-- How many windows there are, the desktop apart. -/
def windowCount (s : State) : Nat := ((List.range maxWindows).filter s.normal).length

/-! ## The order from the lowest to the highest -/

theorem zOrder_length (s : State) : (zOrder s).length = windowCount s := by
  rw [zOrder_eq, List.length_reverse, List.length_insertionSort, List.length_reverse, windowCount]

/-- Each window is lower than those that follow. -/
theorem Layered.zOrder_strict (h : Layered s) :
    (zOrder s).Pairwise fun v u => (s.windows v).zIndex < (s.windows u).zIndex := by
  have hpair := (zOrder_sorted s).and (zOrder_nodup s)
  refine hpair.imp_of_mem fun {v u} hv hu hvu => ?_
  obtain ⟨hle, hne⟩ := hvu
  obtain ⟨hv, hnv⟩ := mem_zOrder.mp hv
  obtain ⟨hu, hnu⟩ := mem_zOrder.mp hu
  exact lt_of_le_of_ne hle fun heq => hne (h.distinct v hv u hu hnv hnu heq)

/-- A list of the windows in which each is lower than those that follow. -/
theorem Layered.zOrder_eq (h : Layered s) {l : List Nat}
    (hmem : ∀ w, w ∈ l ↔ w < maxWindows ∧ s.normal w = true)
    (hsorted : l.Pairwise fun v u => (s.windows v).zIndex < (s.windows u).zIndex) :
    zOrder s = l := by
  have hnodup : l.Nodup := hsorted.imp fun {v u} hlt heq => by
    rw [heq] at hlt
    exact lt_irrefl _ hlt
  have hperm : (zOrder s).Perm l :=
    (List.perm_ext_iff_of_nodup (zOrder_nodup s) hnodup).mpr fun w =>
      mem_zOrder.trans (hmem w).symm
  exact hperm.eq_of_pairwise (fun a b _ _ hab hba => absurd hab hba.asymm) h.zOrder_strict hsorted

/-- The last one is on top. -/
theorem Layered.onTop_iff (h : Layered s) : (zOrder s).getLast? = some i ↔ OnTop s i := by
  have hstrict := h.zOrder_strict
  constructor
  · intro hlast
    obtain ⟨l, hl⟩ := List.getLast?_eq_some_iff.mp hlast
    have hmem : i ∈ zOrder s := by rw [hl]; simp
    obtain ⟨hi, hn⟩ := mem_zOrder.mp hmem
    refine ⟨hi, hn, fun w hw hnw hne => ?_⟩
    have hw : w ∈ zOrder s := mem_zOrder.mpr ⟨hw, hnw⟩
    rw [hl] at hw hstrict
    rcases List.mem_append.mp hw with hw | hw
    · exact (List.pairwise_append.mp hstrict).2.2 w hw i (List.mem_singleton_self i)
    · exact absurd (List.mem_singleton.mp hw) hne
  · intro htop
    obtain ⟨hi, hn, hall⟩ := htop
    have hmem : i ∈ zOrder s := mem_zOrder.mpr ⟨hi, hn⟩
    have hne : zOrder s ≠ [] := List.ne_nil_of_mem hmem
    rw [List.getLast?_eq_some_getLast hne, Option.some_inj]
    by_contra hother
    obtain ⟨hlt, hnlast⟩ := mem_zOrder.mp (List.getLast_mem hne)
    have habove := hall _ hlt hnlast hother
    rw [← List.dropLast_append_getLast hne] at hmem hstrict
    rcases List.mem_append.mp hmem with hmem | hmem
    · have hbelow := (List.pairwise_append.mp hstrict).2.2 i hmem _ (List.mem_singleton_self _)
      omega
    · exact hother (List.mem_singleton.mp hmem).symm

/-! ## The window that a press chooses -/

theorem i32_natCast {n : Nat} (h : n < 2 ^ 31) : i32 (n : Int) = n :=
  Int.bmod_eq_of_le (by omega) (by omega)

/-- What the loop knows of the slots `l`, when no window is above the focused one. -/
structure Lowest (s : State) (l : List Nat) (c : Cycle) : Prop where
  target : c.target = none
  le : ∀ i ∈ l, s.normal i = true → c.lowestZ ≤ (s.windows i).zIndex
  win : c.lowestWin = none ∧ c.lowestZ = s.nextZIndex ∨
    ∃ i ∈ l, s.normal i = true ∧ c.lowestWin = some i ∧ c.lowestZ = (s.windows i).zIndex

theorem lowest_fold (h : Layered s) (hnext : s.nextZIndex < 2 ^ 31) {curZ : Int}
    (htop : ∀ i < maxWindows, s.normal i = true → ((s.windows i).zIndex : Int) ≤ curZ) :
    ∀ l : List Nat, (∀ i ∈ l, i < maxWindows) →
    Lowest s l (l.foldl (cycleStep s curZ) ⟨i32 s.nextZIndex, none, i32 s.nextZIndex, none⟩) := by
  intro l
  induction l using List.reverseRecOn with
  | nil =>
    intro _
    rw [List.foldl_nil, i32_natCast hnext]
    exact ⟨rfl, fun i hi => absurd hi List.not_mem_nil, Or.inl ⟨rfl, rfl⟩⟩
  | append_singleton l j ih =>
    intro hl
    obtain ⟨htarget, hle, hwin⟩ := ih fun i hi => hl i (List.mem_append_left _ hi)
    have hj : j < maxWindows := hl j (by simp)
    rw [List.foldl_append, List.foldl_cons, List.foldl_nil]
    generalize l.foldl (cycleStep s curZ) _ = c at htarget hle hwin ⊢
    unfold cycleStep
    cases hn : s.normal j with
    | false =>
      rw [if_neg Bool.false_ne_true]
      refine ⟨htarget, fun i hi hni => ?_, ?_⟩
      · rcases List.mem_append.mp hi with hi | hi
        · exact hle i hi hni
        · rw [List.mem_singleton.mp hi, hn] at hni
          cases hni
      · exact hwin.imp_right fun ⟨i, hi, hrest⟩ => ⟨i, List.mem_append_left _ hi, hrest⟩
    | true =>
      have hz : i32 (s.windows j).zIndex = (s.windows j).zIndex :=
        i32_natCast ((h.range j hj hn).2.trans hnext)
      have hcur := htop j hj hn
      rw [if_pos rfl]
      dsimp only
      rw [hz, if_neg (by omega)]
      by_cases hlow : ((s.windows j).zIndex : Int) < c.lowestZ
      · rw [if_pos hlow]
        refine ⟨htarget, fun i hi hni => ?_, Or.inr ⟨j, by simp, hn, rfl, rfl⟩⟩
        rcases List.mem_append.mp hi with hi | hi
        · exact hlow.le.trans (hle i hi hni)
        · rw [List.mem_singleton.mp hi]
      · rw [if_neg hlow]
        refine ⟨htarget, fun i hi hni => ?_, ?_⟩
        · rcases List.mem_append.mp hi with hi | hi
          · exact hle i hi hni
          · rw [List.mem_singleton.mp hi]
            exact not_lt.mp hlow
        · exact hwin.imp_right fun ⟨i, hi, hrest⟩ => ⟨i, List.mem_append_left _ hi, hrest⟩

/-- With the focus on the topmost window, it is the lowest one. -/
theorem cycleTarget_onTop (h : Layered s) (hnext : s.nextZIndex < 2 ^ 31)
    (hfocus : s.focusedWinId = some f) (htop : OnTop s f) :
    ∃ w l, cycleTarget s = some w ∧ zOrder s = w :: l := by
  obtain ⟨hf, hnf, habove⟩ := htop
  have hactive : (s.windows f).active = true := by
    rw [State.normal, Bool.and_eq_true] at hnf
    exact hnf.1
  have hzf := h.range f hf hnf
  have hcur : focusZ s = (s.windows f).zIndex := by
    unfold focusZ
    rw [hfocus]
    exact (if_pos ⟨hf, hactive⟩).trans (i32_natCast (hzf.2.trans hnext))
  have hle : ∀ i < maxWindows, s.normal i = true →
      ((s.windows i).zIndex : Int) ≤ focusZ s := by
    intro i hi hn
    rw [hcur]
    by_cases hif : i = f
    · rw [hif]
    · have := habove i hi hn hif
      omega
  obtain ⟨htarget, hlow, hwin⟩ := lowest_fold h hnext hle (List.range maxWindows)
    fun i hi => List.mem_range.mp hi
  have hlowf := hlow f (List.mem_range.mpr hf) hnf
  obtain ⟨w, hw, hnw, hlowest, hz⟩ := hwin.resolve_left fun hnone => by omega
  have hmem : w ∈ zOrder s := mem_zOrder.mpr ⟨List.mem_range.mp hw, hnw⟩
  have hchosen : cycleTarget s = some w := by
    unfold cycleTarget
    dsimp only
    rw [if_neg (by omega), htarget, hlowest]
  obtain ⟨v, l, hv⟩ := List.exists_cons_of_ne_nil (List.ne_nil_of_mem hmem)
  have hstrict := h.zOrder_strict
  rw [hv] at hmem hstrict
  rcases List.mem_cons.mp hmem with rfl | hmem
  · exact ⟨w, l, hchosen, hv⟩
  · -- the first one would be lower
    have hvmem : v ∈ zOrder s := hv ▸ List.mem_cons_self
    have hlt := (List.pairwise_cons.mp hstrict).1 w hmem
    have hge := hlow v (List.mem_range.mpr (mem_zOrder.mp hvmem).1) (mem_zOrder.mp hvmem).2
    omega

/-! ## One press -/

/-- The window takes the next index: it comes last. -/
theorem Pushed.zOrder_eq (h : Pushed s w s') (hs : Layered s) (hs' : Layered s')
    {l : List Nat} (hl : zOrder s = w :: l) : zOrder s' = l ++ [w] := by
  have hnodup := zOrder_nodup s
  have hstrict := hs.zOrder_strict
  rw [hl] at hnodup hstrict
  have hne : ∀ v ∈ l, v ≠ w := fun v hv heq => (List.nodup_cons.mp hnodup).1 (heq ▸ hv)
  apply hs'.zOrder_eq
  · intro v
    by_cases hv : v = w
    · rw [hv]
      exact iff_of_true (by simp) ⟨h.lt, h.normal⟩
    · rw [h.normal_ne hv, ← mem_zOrder, hl]
      simp [hv]
  · rw [List.pairwise_append]
    refine ⟨?_, List.pairwise_singleton _ _, fun v hv u hu => ?_⟩
    · refine (List.pairwise_cons.mp hstrict).2.imp_of_mem fun {v u} hv hu hlt => ?_
      rw [h.others v (hne v hv), h.others u (hne u hu)]
      exact hlt
    · rw [List.mem_singleton.mp hu]
      have hmem : v ∈ zOrder s := hl ▸ List.mem_cons_of_mem w hv
      obtain ⟨hlt, hnv⟩ := mem_zOrder.mp hmem
      exact (h.onTop hs).2.2 v hlt (by rw [h.normal_ne (hne v hv)]; exact hnv) (hne v hv)

/-- Renumbering changes nothing about the order. -/
theorem Renumbered.zOrder_eq (h : Renumbered s s') (hs : Layered s) (hs' : Layered s') :
    zOrder s' = zOrder s := by
  apply hs'.zOrder_eq
  · intro v
    rw [mem_zOrder, h.restacked.normal]
  · refine hs.zOrder_strict.imp_of_mem fun {v u} hv hu hlt => ?_
    obtain ⟨hv, hnv⟩ := mem_zOrder.mp hv
    obtain ⟨hu, hnu⟩ := mem_zOrder.mp hu
    exact h.mono v hv u hu hnv hnu hlt

theorem Layered.normalizeIfLarge (h : Layered s) : Layered (normalizeIfLarge s) := by
  unfold Kwm.normalizeIfLarge
  split_ifs
  · exact layered_normalize s
  · exact h

theorem altTab_eq {mods : Nat} (hmods : mods &&& keyModAlt ≠ 0) :
    altTab s mods = { kwmCycleFocusLocked s with altTabActive := true } := by
  unfold altTab kwmHandleShortcut
  rw [if_neg fun hend => hmods hend.2, if_pos ⟨hmods, rfl⟩, if_neg Bool.false_ne_true]

/-- What holds between the presses. -/
structure Cycling (s : State) (room : Nat) : Prop where
  layered : Layered s
  next : s.nextZIndex + room < 2 ^ 31
  focus : s.focusedWinId = (zOrder s).getLast?
  some : zOrder s ≠ []

/-- The lowest window comes to the top and gets the focus. -/
theorem cycle_rotates {room mods : Nat} (h : Cycling s (room + 1)) (hroom : room ≤ maxWindows)
    (hmods : mods &&& keyModAlt ≠ 0) :
    Cycling (altTab s mods) room ∧ zOrder (altTab s mods) = (zOrder s).rotate 1 := by
  have hnext := h.next
  have hmax : maxWindows = 16 := rfl
  obtain ⟨f, hf⟩ := Option.isSome_iff_exists.mp (List.getLast?_isSome.mpr h.some)
  have htop : OnTop s f := h.layered.onTop_iff.mp hf
  obtain ⟨w, l, htarget, hl⟩ :=
    cycleTarget_onTop h.layered (by omega) (h.focus.trans hf) htop
  obtain ⟨hw, hn⟩ := mem_zOrder.mp (hl ▸ List.mem_cons_self : w ∈ zOrder s)
  have hrange := h.layered.range w hw hn
  have hpushed : Pushed s w (raise s w) := raise_pushed hw hn (by omega)
  have hraised : Layered (raise s w) := hpushed.layered h.layered (by omega)
  have hstate : altTab s mods =
      { normalizeIfLarge (raise s w) with focusedWinId := some w, altTabActive := true } := by
    rw [altTab_eq hmods, kwmCycleFocusLocked, htarget]
  have hren : Renumbered (raise s w) (altTab s mods) := by
    rw [hstate]
    exact (Renumbered.normalizeIfLarge (raise s w)).congr rfl rfl
  have hlayered : Layered (altTab s mods) := by
    rw [hstate]
    exact ⟨hraised.normalizeIfLarge.range, hraised.normalizeIfLarge.distinct⟩
  have hsame : zOrder (altTab s mods) = l ++ [w] :=
    (hren.zOrder_eq hraised hlayered).trans (hpushed.zOrder_eq h.layered hraised hl)
  have hle := hren.nextLe
  rw [hpushed.next] at hle
  refine ⟨⟨hlayered, by omega, ?_, ?_⟩, ?_⟩
  · rw [hsame, List.getLast?_append]
    rw [hstate]
    rfl
  · rw [hsame]
    simp
  · rw [hsame, hl, List.rotate_cons_succ, List.rotate_zero]

/-! ## All presses -/

theorem Cycling.mono {room room' : Nat} (h : Cycling s room) (hle : room' ≤ room) :
    Cycling s room' :=
  ⟨h.layered, by have := h.next; omega, h.focus, h.some⟩

theorem altTabs_rotates : ∀ {presses : List Nat} {s : State},
    (∀ mods ∈ presses, mods &&& keyModAlt ≠ 0) → presses.length ≤ maxWindows →
    Cycling s presses.length →
    Cycling (altTabs s presses) 0 ∧
      zOrder (altTabs s presses) = (zOrder s).rotate presses.length := by
  intro presses
  induction presses with
  | nil => exact fun _ _ h => ⟨h, (List.rotate_zero _).symm⟩
  | cons mods presses ih =>
    intro s hmods hlen h
    rw [List.length_cons] at hlen h
    obtain ⟨hpress, horder⟩ := cycle_rotates h (by omega) (hmods mods List.mem_cons_self)
    obtain ⟨hrest, hrot⟩ :=
      ih (fun m hm => hmods m (List.mem_cons_of_mem _ hm)) (by omega) hpress
    refine ⟨hrest, ?_⟩
    rw [altTabs, List.foldl_cons]
    refine hrot.trans ?_
    rw [horder, List.rotate_rotate, List.length_cons, Nat.add_comm]

/-- Where the end of a rotated list was. -/
theorem getLast?_rotate {l : List Nat} {k : Nat} (hk : k < l.length) :
    (l.rotate (k + 1)).getLast? = l[k]? := by
  rw [← List.rotate_rotate, ← List.head?_rotate hk]
  cases l.rotate k with
  | nil => rfl
  | cons w l =>
    rw [List.rotate_cons_succ, List.rotate_zero, List.getLast?_append]
    rfl

theorem Layered.zIndex_lt_iff (h : Layered s) {v : Nat} (hv : v ∈ zOrder s) (hw : w ∈ zOrder s) :
    (s.windows v).zIndex < (s.windows w).zIndex ↔
      (zOrder s).idxOf v < (zOrder s).idxOf w := by
  refine ⟨zOrder_idxOf_lt hv hw, fun hidx => ?_⟩
  by_contra hle
  rcases Nat.lt_or_eq_of_le (not_lt.mp hle) with hlt | heq
  · have := zOrder_idxOf_lt hw hv hlt
    omega
  · obtain ⟨hv, hnv⟩ := mem_zOrder.mp hv
    obtain ⟨hw, hnw⟩ := mem_zOrder.mp hw
    rw [h.distinct w hw v hv hnw hnv heq] at hidx
    exact lt_irrefl _ hidx

/-- What the presses of Alt-Tab do to the windows. -/
structure Visits (s : State) (presses : List Nat) : Prop where
  /-- The window that a press gives the focus is topmost right after the press. -/
  onTop : ∀ k < presses.length, ∃ w,
    (altTabs s (presses.take (k + 1))).focusedWinId = some w ∧
      OnTop (altTabs s (presses.take (k + 1))) w
  /-- Every window gets the focus once. -/
  once : ∀ w < maxWindows, s.normal w = true →
    ∃! k, k < presses.length ∧ (altTabs s (presses.take (k + 1))).focusedWinId = some w
  focus : (altTabs s presses).focusedWinId = s.focusedWinId
  order : ∀ v < maxWindows, ∀ w < maxWindows, s.normal v = true → s.normal w = true →
    ((s.windows v).zIndex < (s.windows w).zIndex ↔
      ((altTabs s presses).windows v).zIndex < ((altTabs s presses).windows w).zIndex)

/-- From every state in which the windows have different indices from 1 on and below
`next_z_index`, and the focus is on the topmost one. -/
theorem alt_tab_visits {presses : List Nat} (h : Layered s)
    (hnext : s.nextZIndex < 2 ^ 31 - windowCount s) (hfocus : s.focusedWinId = some f)
    (htop : OnTop s f) (hmods : ∀ mods ∈ presses, mods &&& keyModAlt ≠ 0)
    (hlen : presses.length = windowCount s) : Visits s presses := by
  have hcount := zOrder_length s
  have hmax := zOrder_length_le s
  have hlast := h.onTop_iff.mpr htop
  have hstart : Cycling s presses.length := by
    refine ⟨h, by omega, hfocus.trans hlast.symm, fun hnil => ?_⟩
    rw [hnil] at hlast
    cases hlast
  have hafter : ∀ k ≤ presses.length, Cycling (altTabs s (presses.take k)) 0 ∧
      zOrder (altTabs s (presses.take k)) = (zOrder s).rotate k := by
    intro k hk
    have htake : (presses.take k).length = k := List.length_take_of_le hk
    have hrun := @altTabs_rotates (presses.take k) s
      (fun m hm => hmods m (List.mem_of_mem_take hm)) (by omega) (hstart.mono (by omega))
    rwa [htake] at hrun
  have hvisit : ∀ k < presses.length,
      (altTabs s (presses.take (k + 1))).focusedWinId = (zOrder s)[k]? := by
    intro k hk
    obtain ⟨hcycling, horder⟩ := hafter (k + 1) hk
    rw [hcycling.focus, horder]
    exact getLast?_rotate (by omega)
  obtain ⟨hend, hsame⟩ := hafter presses.length (le_refl _)
  rw [List.take_length, hlen, ← hcount, List.rotate_length] at hsame
  rw [List.take_length] at hend
  refine ⟨fun k hk => ?_, fun w hw hn => ?_, ?_, fun v hv w hw hnv hnw => ?_⟩
  · have hfocused := hvisit k hk
    rw [List.getElem?_eq_getElem (by omega)] at hfocused
    obtain ⟨hcycling, -⟩ := hafter (k + 1) hk
    exact ⟨_, hfocused, hcycling.layered.onTop_iff.mp (hcycling.focus.symm.trans hfocused)⟩
  · have hmem : w ∈ zOrder s := mem_zOrder.mpr ⟨hw, hn⟩
    have hidx := List.idxOf_lt_length_of_mem hmem
    refine ⟨(zOrder s).idxOf w, ⟨by omega, ?_⟩, fun k hk => ?_⟩
    · rw [hvisit _ (by omega), List.getElem?_eq_getElem hidx, List.getElem_idxOf]
    · obtain ⟨hk, hfocused⟩ := hk
      rw [hvisit k hk, List.getElem?_eq_some_iff] at hfocused
      obtain ⟨hlt, rfl⟩ := hfocused
      exact ((zOrder_nodup s).idxOf_getElem k hlt).symm
  · rw [hend.focus, hsame, hlast, hfocus]
  · have hmv : v ∈ zOrder s := mem_zOrder.mpr ⟨hv, hnv⟩
    have hmw : w ∈ zOrder s := mem_zOrder.mpr ⟨hw, hnw⟩
    rw [h.zIndex_lt_iff hmv hmw, hend.layered.zIndex_lt_iff (hsame ▸ hmv) (hsame ▸ hmw), hsame]

/-- Windows in the slots 0 and 1, and the focus on the second one. -/
def twoWindows : State :=
  { boot 800 600 with
    windows := fun i =>
      { (boot 800 600).windows i with active := i < 2, zIndex := i + 1 }
    nextZIndex := 3
    focusedWinId := some 1 }

theorem alt_tab_visits_two : Visits twoWindows [keyModAlt, keyModAlt] :=
  alt_tab_visits (f := 1) ⟨by decide, by decide⟩ (by decide) rfl ⟨by decide, by decide, by decide⟩
    (by decide) (by decide)

end Kyuzen.Kwm
