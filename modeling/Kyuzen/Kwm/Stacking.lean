import Mathlib.Data.List.Sort
import Kyuzen.Kwm.Focus

/-!
# The stack of windows

`Stacked` is the order that the window manager means to keep: every window but the desktop has
an index of its own from 1 on and below `next_z_index`, and the desktop has index 0. Taking the
next index for a window keeps the order and puts the window on top (`Pushed`), and renumbering
keeps it too (`Renumbered`).

`kwm_create_window` renumbers while its own slot is still inactive. The new window is left out of
the renumbering and keeps an index that is not below the new `next_z_index`
(`create_renumbers`). In a run in which no window is created with `next_z_index` at 16 or more,
and in which the 32-bit counter does not run out, the stack is in order after every operation
(`stacking_holds`).
-/

namespace Kyuzen.Kwm

variable {s s' s₁ : State} {i : Nat}

structure Stacked (s : State) : Prop where
  range : ∀ w < maxWindows, s.normal w = true →
    1 ≤ (s.windows w).zIndex ∧ (s.windows w).zIndex < s.nextZIndex
  distinct : ∀ v < maxWindows, ∀ w < maxWindows, s.normal v = true → s.normal w = true →
    (s.windows v).zIndex = (s.windows w).zIndex → v = w
  desktop : ∀ w < maxWindows, (s.windows w).active = true → (s.windows w).desktop = true →
    (s.windows w).zIndex = 0
  next : 1 ≤ s.nextZIndex

/-- The order among the windows themselves. -/
structure Layered (s : State) : Prop where
  range : ∀ w < maxWindows, s.normal w = true →
    1 ≤ (s.windows w).zIndex ∧ (s.windows w).zIndex < s.nextZIndex
  distinct : ∀ v < maxWindows, ∀ w < maxWindows, s.normal v = true → s.normal w = true →
    (s.windows v).zIndex = (s.windows w).zIndex → v = w

theorem Stacked.layered (h : Stacked s) : Layered s := ⟨h.range, h.distinct⟩

/-- The window is above all other windows. -/
def OnTop (s : State) (i : Nat) : Prop :=
  i < maxWindows ∧ s.normal i = true ∧ ∀ w < maxWindows, s.normal w = true → w ≠ i →
    (s.windows w).zIndex < (s.windows i).zIndex

/-! ## The insertion sort -/

theorem insertByZ_eq (s : State) (w : Nat) (l : List Nat) :
    insertByZ s w l =
      l.orderedInsert (fun v u => (s.windows u).zIndex ≤ (s.windows v).zIndex) w := by
  induction l with
  | nil => rfl
  | cons v l ih =>
    rw [insertByZ, List.orderedInsert_cons, ih]
    by_cases hv : (s.windows v).zIndex ≤ (s.windows w).zIndex
    · rw [if_neg (by omega), if_pos hv]
    · rw [if_pos (by omega), if_neg hv]

/-- The loops of the source are an insertion sort, which keeps its sorted part reversed. -/
theorem zOrder_eq (s : State) :
    zOrder s = (((List.range maxWindows).filter s.normal).reverse.insertionSort
      fun v u => (s.windows u).zIndex ≤ (s.windows v).zIndex).reverse := by
  unfold zOrder List.insertionSort
  rw [List.foldr_reverse]
  congr 2
  funext sorted w
  exact insertByZ_eq s w sorted

theorem mem_zOrder {w : Nat} : w ∈ zOrder s ↔ w < maxWindows ∧ s.normal w = true := by
  rw [zOrder_eq, List.mem_reverse, List.mem_insertionSort, List.mem_reverse, List.mem_filter,
    List.mem_range]

theorem zOrder_nodup (s : State) : (zOrder s).Nodup := by
  rw [zOrder_eq, List.nodup_reverse]
  apply (List.perm_insertionSort _ _).nodup_iff.mpr
  rw [List.nodup_reverse]
  exact List.nodup_range.filter _

theorem zOrder_length_le (s : State) : (zOrder s).length ≤ maxWindows := by
  rw [zOrder_eq, List.length_reverse, List.length_insertionSort, List.length_reverse]
  calc ((List.range maxWindows).filter s.normal).length
      ≤ (List.range maxWindows).length := List.length_filter_le _ _
    _ = maxWindows := List.length_range

theorem zOrder_sorted (s : State) :
    (zOrder s).Pairwise fun v u => (s.windows v).zIndex ≤ (s.windows u).zIndex := by
  rw [zOrder_eq, List.pairwise_reverse]
  have : IsTrans Nat fun v u => (s.windows u).zIndex ≤ (s.windows v).zIndex :=
    ⟨fun _ _ _ h h' => h'.trans h⟩
  have : Std.Total fun v u : Nat => (s.windows u).zIndex ≤ (s.windows v).zIndex :=
    ⟨fun v u => Nat.le_total _ _⟩
  exact List.pairwise_insertionSort _ _

/-- A lower window comes earlier. -/
theorem zOrder_idxOf_lt {v w : Nat} (hv : v ∈ zOrder s) (hw : w ∈ zOrder s)
    (hlt : (s.windows v).zIndex < (s.windows w).zIndex) :
    (zOrder s).idxOf v < (zOrder s).idxOf w := by
  by_contra hle
  have hlv := List.idxOf_lt_length_of_mem hv
  have hlw := List.idxOf_lt_length_of_mem hw
  rcases Nat.lt_or_eq_of_le (not_lt.mp hle) with hgt | heq
  · have hsorted := List.pairwise_iff_getElem.mp (zOrder_sorted s) _ _ hlw hlv hgt
    rw [List.getElem_idxOf, List.getElem_idxOf] at hsorted
    omega
  · have hvw : v = w := by
      rw [← List.getElem_idxOf hlv, ← List.getElem_idxOf hlw]
      congr 1
      exact heq.symm
    subst hvw
    omega

/-! ## Renumbering -/

/-- Renumbering keeps the order of the windows. -/
structure Renumbered (s s' : State) : Prop where
  restacked : Restacked s s'
  mono : ∀ v < maxWindows, ∀ w < maxWindows, s.normal v = true → s.normal w = true →
    (s.windows v).zIndex < (s.windows w).zIndex → (s'.windows v).zIndex < (s'.windows w).zIndex
  stacked : Stacked s → Stacked s'
  nextLe : s'.nextZIndex ≤ max s.nextZIndex (maxWindows + 1)

theorem Renumbered.refl (s : State) : Renumbered s s :=
  ⟨Restacked.refl s, fun _ _ _ _ _ _ h => h, fun h => h, Nat.le_max_left _ _⟩

theorem Renumbered.trans {s'' : State} (h : Renumbered s s') (h' : Renumbered s' s'') :
    Renumbered s s'' where
  restacked := h.restacked.trans h'.restacked
  mono v hv w hw hnv hnw hlt := by
    apply h'.mono v hv w hw
    · rw [h.restacked.normal]
      exact hnv
    · rw [h.restacked.normal]
      exact hnw
    · exact h.mono v hv w hw hnv hnw hlt
  stacked hs := h'.stacked (h.stacked hs)
  nextLe := by
    have := h.nextLe
    have := h'.nextLe
    omega

theorem normalize_zIndex {w : Nat} (hw : w < maxWindows) (hn : s.normal w = true) :
    ((kwmNormalizeZindexLocked s).windows w).zIndex = (zOrder s).idxOf w + 1 := by
  have hmem : w ∈ zOrder s := mem_zOrder.mpr ⟨hw, hn⟩
  have hidx := List.idxOf_lt_length_of_mem hmem
  have hlen := zOrder_length_le s
  have : maxWindows = 16 := rfl
  simp only [kwmNormalizeZindexLocked, if_pos hmem]
  exact Nat.mod_eq_of_lt (by omega)

theorem normalize_next (s : State) :
    (kwmNormalizeZindexLocked s).nextZIndex = (zOrder s).length + 1 := by
  have hlen := zOrder_length_le s
  have : maxWindows = 16 := rfl
  exact Nat.mod_eq_of_lt (by omega)

/-- Whatever the indices were, they are in order afterwards. -/
theorem layered_normalize (s : State) : Layered (kwmNormalizeZindexLocked s) := by
  have hnormal := (Restacked.normalize s).normal
  constructor
  · intro w hw hn
    rw [hnormal] at hn
    have hidx := List.idxOf_lt_length_of_mem (mem_zOrder.mpr ⟨hw, hn⟩)
    rw [normalize_zIndex hw hn, normalize_next]
    omega
  · intro v hv w hw hnv hnw heq
    rw [hnormal] at hnv hnw
    rw [normalize_zIndex hv hnv, normalize_zIndex hw hnw] at heq
    have hlv := List.idxOf_lt_length_of_mem (mem_zOrder.mpr ⟨hv, hnv⟩)
    have hlw := List.idxOf_lt_length_of_mem (mem_zOrder.mpr ⟨hw, hnw⟩)
    rw [← List.getElem_idxOf hlv, ← List.getElem_idxOf hlw]
    congr 1
    omega

theorem Stacked.normalize (h : Stacked s) : Stacked (kwmNormalizeZindexLocked s) := by
  have hnormal := (Restacked.normalize s).normal
  refine ⟨(layered_normalize s).range, (layered_normalize s).distinct, ?_, ?_⟩
  · intro w hw hactive hdesktop
    have hnot : w ∉ zOrder s := by
      intro hmem
      have hn := (mem_zOrder.mp hmem).2
      rw [← hnormal] at hn
      simp [State.normal, hdesktop] at hn
    have hsame : (kwmNormalizeZindexLocked s).windows w = s.windows w := if_neg hnot
    rw [hsame] at hactive hdesktop ⊢
    exact h.desktop w hw hactive hdesktop
  · rw [normalize_next]
    omega

theorem Renumbered.normalize (s : State) : Renumbered s (kwmNormalizeZindexLocked s) where
  restacked := Restacked.normalize s
  mono v hv w hw hnv hnw hlt := by
    rw [normalize_zIndex hv hnv, normalize_zIndex hw hnw]
    have := zOrder_idxOf_lt (mem_zOrder.mpr ⟨hv, hnv⟩) (mem_zOrder.mpr ⟨hw, hnw⟩) hlt
    omega
  stacked := Stacked.normalize
  nextLe := by
    have := zOrder_length_le s
    rw [normalize_next]
    omega

theorem Renumbered.normalizeIfLarge (s : State) : Renumbered s (normalizeIfLarge s) := by
  unfold Kwm.normalizeIfLarge
  split
  · exact Renumbered.normalize s
  · exact Renumbered.refl s

theorem Renumbered.onTop (h : Renumbered s s') (ht : OnTop s i) : OnTop s' i := by
  obtain ⟨hi, hn, htop⟩ := ht
  refine ⟨hi, by rw [h.restacked.normal]; exact hn, ?_⟩
  intro w hw hnw hne
  rw [h.restacked.normal] at hnw
  exact h.mono w hw i hi hnw hn (htop w hw hnw hne)

/-! ## Windows leave the stack, or stay as they are -/

/-- Every window of the second table is in the first one, with the same index. -/
structure Thinned (s s' : State) : Prop where
  next : s'.nextZIndex = s.nextZIndex
  kept : ∀ w, (s'.windows w).active = true → (s.windows w).active = true ∧
    (s'.windows w).desktop = (s.windows w).desktop ∧
    (s'.windows w).zIndex = (s.windows w).zIndex

theorem Thinned.of_eq (hn : s'.nextZIndex = s.nextZIndex) (hw : s'.windows = s.windows) :
    Thinned s s' := by
  refine ⟨hn, ?_⟩
  intro w hactive
  rw [hw] at hactive ⊢
  exact ⟨hactive, rfl, rfl⟩

theorem Thinned.trans {s'' : State} (h : Thinned s s') (h' : Thinned s' s'') : Thinned s s'' := by
  refine ⟨h'.next.trans h.next, ?_⟩
  intro w hactive
  obtain ⟨hactive', hdesk', hz'⟩ := h'.kept w hactive
  obtain ⟨hactive₀, hdesk, hz⟩ := h.kept w hactive'
  exact ⟨hactive₀, hdesk'.trans hdesk, hz'.trans hz⟩

theorem Thinned.setWindow (s : State) {w : Window}
    (h : w.active = true → (s.windows i).active = true ∧ w.desktop = (s.windows i).desktop ∧
      w.zIndex = (s.windows i).zIndex) : Thinned s (setWindow s i w) := by
  refine ⟨rfl, ?_⟩
  intro v hactive
  by_cases hv : v = i
  · subst hv
    rw [setWindow_self] at hactive ⊢
    exact h hactive
  · rw [setWindow_ne s w hv] at hactive ⊢
    exact ⟨hactive, rfl, rfl⟩

theorem Thinned.normal (h : Thinned s s') {w : Nat} (hn : s'.normal w = true) :
    s.normal w = true ∧ (s'.windows w).zIndex = (s.windows w).zIndex := by
  simp only [State.normal, Bool.and_eq_true, Bool.not_eq_true'] at hn ⊢
  obtain ⟨hactive, hdesk, hz⟩ := h.kept w hn.1
  exact ⟨⟨hactive, hdesk ▸ hn.2⟩, hz⟩

theorem Stacked.thinned (h : Stacked s) (ht : Thinned s s') : Stacked s' where
  range w hw hn := by
    obtain ⟨hn', hz⟩ := ht.normal hn
    rw [hz, ht.next]
    exact h.range w hw hn'
  distinct v hv w hw hnv hnw heq := by
    obtain ⟨hnv', hzv⟩ := ht.normal hnv
    obtain ⟨hnw', hzw⟩ := ht.normal hnw
    rw [hzv, hzw] at heq
    exact h.distinct v hv w hw hnv' hnw' heq
  desktop w hw hactive hdesk := by
    obtain ⟨hactive', hdesk', hz⟩ := ht.kept w hactive
    rw [hz]
    exact h.desktop w hw hactive' (hdesk' ▸ hdesk)
  next := by
    rw [ht.next]
    exact h.next

/-! ## A window takes the next index -/

/-- Window `i` has taken the next index, and the other windows are as they were. -/
structure Pushed (s : State) (i : Nat) (s' : State) : Prop where
  lt : i < maxWindows
  active : (s'.windows i).active = true
  desktop : (s'.windows i).desktop = false
  zIndex : (s'.windows i).zIndex = s.nextZIndex
  next : s'.nextZIndex = s.nextZIndex + 1
  others : ∀ w, w ≠ i → s'.windows w = s.windows w

theorem Pushed.normal (h : Pushed s i s') : s'.normal i = true := by
  simp [State.normal, h.active, h.desktop]

theorem Pushed.normal_ne (h : Pushed s i s') {w : Nat} (hw : w ≠ i) :
    s'.normal w = s.normal w := by
  simp [State.normal, h.others w hw]

theorem Pushed.onTop (h : Pushed s i s') (hs : Layered s) : OnTop s' i := by
  refine ⟨h.lt, h.normal, ?_⟩
  intro w hw hn hne
  rw [h.normal_ne hne] at hn
  rw [h.others w hne, h.zIndex]
  exact (hs.range w hw hn).2

theorem Pushed.layered (h : Pushed s i s') (hs : Layered s) (hpos : 1 ≤ s.nextZIndex) :
    Layered s' := by
  have hnext := h.next
  constructor
  · intro w hw hn
    by_cases hwi : w = i
    · subst hwi
      rw [h.zIndex]
      omega
    · rw [h.normal_ne hwi] at hn
      rw [h.others w hwi]
      have := hs.range w hw hn
      omega
  · intro v hv w hw hnv hnw heq
    by_contra hvw
    -- the window on top has an index of its own
    by_cases hvi : v = i
    · subst hvi
      have := (h.onTop hs).2.2 w hw hnw (Ne.symm hvw)
      omega
    · by_cases hwi : w = i
      · subst hwi
        have := (h.onTop hs).2.2 v hv hnv hvw
        omega
      · rw [h.others v hvi, h.others w hwi] at heq
        rw [h.normal_ne hvi] at hnv
        rw [h.normal_ne hwi] at hnw
        exact hvw (hs.distinct v hv w hw hnv hnw heq)

theorem Pushed.stacked (h : Pushed s i s') (hs : Stacked s) : Stacked s' := by
  have hlayered := h.layered hs.layered hs.next
  have hnext := h.next
  refine ⟨hlayered.range, hlayered.distinct, ?_, by omega⟩
  · intro w hw hactive hdesk
    by_cases hwi : w = i
    · subst hwi
      rw [h.desktop] at hdesk
      cases hdesk
    · rw [h.others w hwi] at hactive hdesk ⊢
      exact hs.desktop w hw hactive hdesk

theorem raise_pushed (hi : i < maxWindows) (hn : s.normal i = true)
    (hnext : s.nextZIndex < 2 ^ 32 - 1) : Pushed s i (raise s i) := by
  simp only [State.normal, Bool.and_eq_true, Bool.not_eq_true'] at hn
  have hself : (raise s i).windows i = { s.windows i with zIndex := s.nextZIndex } :=
    setWindow_self s i _
  refine ⟨hi, ?_, ?_, ?_, ?_, ?_⟩
  · rw [hself]
    exact hn.1
  · rw [hself]
    exact hn.2
  · rw [hself]
  · exact Nat.mod_eq_of_lt (by omega)
  · intro w hw
    exact setWindow_ne s _ hw

/-! ## Which window an operation puts on top -/

/-- The slot in which `kwm_create_window` puts its window: the size is allowed, a slot is free
and there is memory for the canvas. -/
def creates (block : Option (Nat → Nat)) (s : State) (width height : Nat) : Option Nat :=
  if width = 0 ∨ height = 0 ∨ width > maxDimension ∨ height > maxDimension then none
  else if width * height * 4 > maxCanvasBytes then none
  else if (displayBufferCreate width height block).isSome then freeSlot s
  else none

/-- The window under the pointer, if the packet is a click and not a part of a drag. -/
def clicked (s : State) (px py : Int) (leftDown leftUp : Bool) : Option Nat :=
  if leftUp = false ∧ (dragTarget s).isNone = true ∧ leftDown = true then kwmHitTestLocked s px py
  else none

def altTabPressed (mods : Nat) (released : Bool) (keyId : Nat) : Bool :=
  mods &&& keyModAlt != 0 && keyId == kbdScanTab && !released

/-- The window that the operation creates, activates, is a click on or cycles to. -/
def raises (s : State) : Op → Option Nat
  | .createWindow _ block _ _ width height => creates block s width height
  | .activate winId => (slotOf winId).filter s.normal
  | .mouse px py leftDown leftUp => (clicked s px py leftDown leftUp).filter s.normal
  | .shortcut mods released keyId =>
    if altTabPressed mods released keyId then cycleTarget s else none
  | _ => none

/-- How large `next_z_index` may be before the operation takes it. A window must be created
without renumbering. -/
def zLimit (limit : Nat) : Op → Nat
  | .createWindow .. => maxWindows
  | _ => limit

/-- If the operation puts a window on top, there is an index for it. -/
def StackSafe (limit : Nat) (s : State) (op : Op) : Prop :=
  ∀ i, raises s op = some i → s.nextZIndex < zLimit limit op

/-- The window that is created is the one whose number is returned. -/
theorem createWindow_result (owner : Int) (block : Option (Nat → Nat)) (s : State) (x y : Int)
    (width height : Nat) :
    (kwmCreateWindow owner block s x y width height).1 = creates block s width height := by
  unfold kwmCreateWindow creates
  split
  · rfl
  · split
    · rfl
    · cases hslot : freeSlot s with
      | none => simp
      | some i =>
        cases hcanvas : displayBufferCreate width height block with
        | none => rfl
        | some canvas => rfl

/-- A slot is handed out without renumbering. -/
theorem createdAt_pushed (hi : i < maxWindows) (hnext : s.nextZIndex < maxWindows)
    (owner x y : Int) (width height : Nat) (canvas : Canvas) :
    Pushed s i (createdAt s i owner x y width height canvas) := by
  have hmax : maxWindows = 16 := rfl
  have hsmall : ∀ w : Window, normalizeIfLarge (raise (setWindow s i w) i) =
      raise (setWindow s i w) i := by
    intro w
    apply if_neg
    show ¬ (s.nextZIndex + 1) % 2 ^ 32 > maxWindows
    rw [Nat.mod_eq_of_lt (by omega)]
    omega
  have hother : ∀ w, w ≠ i →
      (createdAt s i owner x y width height canvas).windows w = s.windows w := by
    intro w hw
    simp only [createdAt, hsmall]
    rw [setWindow_ne _ _ hw]
    show (setWindow (setWindow s i _) i _).windows w = _
    rw [setWindow_ne _ _ hw, setWindow_ne _ _ hw]
  have hself : ((createdAt s i owner x y width height canvas).windows i).zIndex =
      s.nextZIndex := by
    simp only [createdAt, hsmall, setWindow_self]
    show ((setWindow (setWindow s i _) i _).windows i).zIndex = _
    rw [setWindow_self]
    rfl
  have hnextZ : (createdAt s i owner x y width height canvas).nextZIndex = s.nextZIndex + 1 := by
    simp only [createdAt, hsmall]
    show (s.nextZIndex + 1) % 2 ^ 32 = s.nextZIndex + 1
    exact Nat.mod_eq_of_lt (by omega)
  obtain ⟨z, hz⟩ := createdAt_restacked s i owner x y width height canvas i
  rw [setWindow_self] at hz
  exact ⟨hi, by rw [hz]; rfl, by rw [hz]; rfl, hself, hnextZ, hother⟩

theorem freeSlot_thinned (s : State) (i : Nat) : Thinned s (kwmFreeSlot s i) := by
  refine ⟨rfl, ?_⟩
  intro w hactive
  by_cases hw : w = i
  · subst hw
    simp [kwmFreeSlot] at hactive
  · have hsame : (kwmFreeSlot s i).windows w = s.windows w := setWindow_ne s _ hw
    rw [hsame] at hactive ⊢
    exact ⟨hactive, rfl, rfl⟩

theorem destroyUpTo_thinned (task : Int) (s : State) (n : Nat) :
    Thinned s (destroyUpTo task s n).1 := by
  induction n with
  | zero => exact Thinned.of_eq rfl rfl
  | succ n ih =>
    simp only [destroyUpTo]
    split
    · exact ih.trans (freeSlot_thinned _ n)
    · exact ih

theorem destroyAllUpTo_thinned (s : State) (n : Nat) : Thinned s (destroyAllUpTo s n) := by
  induction n with
  | zero => exact Thinned.of_eq rfl rfl
  | succ n ih =>
    simp only [destroyAllUpTo]
    split
    · exact ih.trans (freeSlot_thinned _ n)
    · exact ih

/-! ## What an operation does to the stack -/

/-- Nothing but removals, or a window on top of the others. -/
def StackStep (s : State) (r : Option Nat) (s' : State) : Prop :=
  (r = none ∧ Thinned s s') ∨ ∃ i s₁, r = some i ∧ Pushed s i s₁ ∧ Renumbered s₁ s'

theorem Renumbered.congr (h : Renumbered s s₁) (hw : s'.windows = s₁.windows)
    (hn : s'.nextZIndex = s₁.nextZIndex) : Renumbered s s' where
  restacked w := hw ▸ h.restacked w
  mono := hw ▸ h.mono
  stacked hs := (h.stacked hs).thinned (Thinned.of_eq hn hw)
  nextLe := hn ▸ h.nextLe

theorem StackStep.raise (hi : i < maxWindows) (hn : s.normal i = true)
    (hnext : s.nextZIndex < 2 ^ 32 - 1) (hr : Renumbered (raise s i) s') :
    StackStep s (some i) s' :=
  Or.inr ⟨i, Kwm.raise s i, rfl, raise_pushed hi hn hnext, hr⟩

theorem StackStep.of_thinned (h : Thinned s s') : StackStep s none s' := Or.inl ⟨rfl, h⟩

theorem stackStep_createWindow (owner : Int) (block : Option (Nat → Nat)) (x y : Int)
    (width height : Nat)
    (hsafe : ∀ i, creates block s width height = some i → s.nextZIndex < maxWindows) :
    StackStep s (creates block s width height)
      (kwmCreateWindow owner block s x y width height).2.1 := by
  have hresult := createWindow_result owner block s x y width height
  obtain heq | ⟨i, canvas, hi, -, -, -, heq⟩ := createWindow_cases owner block s x y width height
  · rw [heq] at hresult ⊢
    rw [← hresult]
    exact StackStep.of_thinned (Thinned.of_eq rfl rfl)
  · rw [heq] at hresult ⊢
    rw [← hresult] at hsafe ⊢
    have hpushed := createdAt_pushed (freeSlot_spec hi).1 (hsafe i rfl) owner x y width height
      canvas
    exact Or.inr ⟨i, _, rfl, hpushed, Renumbered.refl _⟩

theorem stackStep_activate (winId : Int)
    (hsafe : ∀ i, (slotOf winId).filter s.normal = some i → s.nextZIndex < 2 ^ 32 - 1) :
    StackStep s ((slotOf winId).filter s.normal) (kwmActivateWindow s winId).2.1 := by
  unfold kwmActivateWindow
  cases hslot : slotOf winId with
  | none => exact StackStep.of_thinned (Thinned.of_eq rfl rfl)
  | some i =>
    rw [hslot] at hsafe
    by_cases hn : s.normal i = true
    · rw [Option.filter_some, if_pos hn] at hsafe ⊢
      dsimp only
      rw [if_neg (by simp [hn])]
      apply StackStep.raise (slotOf_lt hslot) hn (hsafe i rfl)
      have hr := (Renumbered.normalizeIfLarge (raise s i)).trans (Renumbered.normalizeIfLarge _)
      exact hr.congr rfl rfl
    · rw [Option.filter_some, if_neg hn]
      dsimp only
      rw [if_pos (by simpa using hn)]
      exact StackStep.of_thinned (Thinned.of_eq rfl rfl)

theorem stackStep_click (px py : Int)
    (hsafe : ∀ i, (kwmHitTestLocked s px py).filter s.normal = some i →
      s.nextZIndex < 2 ^ 32 - 1) :
    StackStep s ((kwmHitTestLocked s px py).filter s.normal) (clickStep s px py).2.1 := by
  unfold clickStep
  cases hhit : kwmHitTestLocked s px py with
  | none => exact StackStep.of_thinned (Thinned.of_eq rfl rfl)
  | some i =>
    rw [hhit] at hsafe
    obtain ⟨hlt, hactive⟩ := hitTest_active hhit
    by_cases hdesk : (s.windows i).desktop = true
    · have hn : ¬ s.normal i = true := by simp [State.normal, hdesk]
      rw [Option.filter_some, if_neg hn]
      dsimp only
      rw [if_pos hdesk]
      exact StackStep.of_thinned (Thinned.of_eq rfl rfl)
    · have hn : s.normal i = true := by simp [State.normal, hactive, hdesk]
      rw [Option.filter_some, if_pos hn] at hsafe ⊢
      dsimp only
      rw [if_neg hdesk]
      apply StackStep.raise hlt hn (hsafe i rfl)
      -- the titlebar decides about the drag and the marks only
      split
      · split
        · exact (Renumbered.refl _).congr rfl rfl
        · exact (Renumbered.refl _).congr rfl rfl
      · exact (Renumbered.refl _).congr rfl rfl
      · exact (Renumbered.refl _).congr rfl rfl

theorem stackStep_mouse (px py : Int) (leftDown leftUp : Bool)
    (hsafe : ∀ i, (clicked s px py leftDown leftUp).filter s.normal = some i →
      s.nextZIndex < 2 ^ 32 - 1) :
    StackStep s ((clicked s px py leftDown leftUp).filter s.normal)
      (kwmProcessMouse s px py leftDown leftUp).2.1 := by
  unfold kwmProcessMouse
  cases leftUp with
  | true => exact StackStep.of_thinned (Thinned.of_eq rfl rfl)
  | false =>
    rw [if_neg Bool.false_ne_true]
    cases hdrag : dragTarget s with
    | some i =>
      have hclick : clicked s px py leftDown false = none := by simp [clicked, hdrag]
      rw [hclick]
      apply StackStep.of_thinned
      exact Thinned.setWindow s fun hactive => ⟨hactive, rfl, rfl⟩
    | none =>
      cases leftDown with
      | false =>
        have hclick : clicked s px py false false = none := by simp [clicked]
        rw [hclick]
        exact StackStep.of_thinned (Thinned.of_eq rfl rfl)
      | true =>
        have hclick : clicked s px py true false = kwmHitTestLocked s px py := by
          simp [clicked, hdrag]
        rw [hclick] at hsafe ⊢
        exact stackStep_click px py hsafe

theorem stackStep_cycle (hsafe : ∀ i, cycleTarget s = some i → s.nextZIndex < 2 ^ 32 - 1) :
    StackStep s (cycleTarget s) (kwmCycleFocusLocked s) := by
  have hrefers := Refers.cycleTarget s
  unfold kwmCycleFocusLocked
  cases htarget : cycleTarget s with
  | none => exact StackStep.of_thinned (Thinned.of_eq rfl rfl)
  | some i =>
    obtain ⟨hlt, hn⟩ := hrefers i htarget
    apply StackStep.raise hlt hn (hsafe i htarget)
    exact (Renumbered.normalizeIfLarge (raise s i)).congr rfl rfl

theorem StackStep.congr {r : Option Nat} {s'' : State} (h : StackStep s r s')
    (hw : s''.windows = s'.windows) (hn : s''.nextZIndex = s'.nextZIndex) :
    StackStep s r s'' := by
  obtain ⟨hr, ht⟩ | ⟨i, s₁, hr, hp, hren⟩ := h
  · exact Or.inl ⟨hr, ht.trans (Thinned.of_eq hn hw)⟩
  · exact Or.inr ⟨i, s₁, hr, hp, hren.congr hw hn⟩

theorem stackStep_shortcut (mods : Nat) (released : Bool) (keyId : Nat)
    (hsafe : ∀ i, (if altTabPressed mods released keyId then cycleTarget s else none) = some i →
      s.nextZIndex < 2 ^ 32 - 1) :
    StackStep s (if altTabPressed mods released keyId then cycleTarget s else none)
      (kwmHandleShortcut s mods released keyId).2.1 := by
  unfold kwmHandleShortcut
  by_cases hend : s.altTabActive = true ∧ mods &&& keyModAlt = 0
  · have hpress : altTabPressed mods released keyId = false := by
      simp [altTabPressed, hend.2]
    rw [if_pos hend, hpress]
    exact StackStep.of_thinned (Thinned.of_eq rfl rfl)
  · rw [if_neg hend]
    by_cases hkeys : mods &&& keyModAlt ≠ 0 ∧ keyId = kbdScanTab
    · rw [if_pos hkeys]
      cases released with
      | true =>
        have hpress : altTabPressed mods true keyId = false := by simp [altTabPressed]
        rw [hpress]
        exact StackStep.of_thinned (Thinned.of_eq rfl rfl)
      | false =>
        have hpress : altTabPressed mods false keyId = true := by
          simp [altTabPressed, hkeys]
        rw [hpress] at hsafe ⊢
        exact (stackStep_cycle hsafe).congr rfl rfl
    · have hpress : altTabPressed mods released keyId = false := by
        simp only [altTabPressed, Bool.and_eq_false_iff, bne_eq_false_iff_eq, beq_eq_false_iff_ne]
        by_cases halt : mods &&& keyModAlt = 0
        · exact Or.inl (Or.inl halt)
        · exact Or.inl (Or.inr fun hkey => hkeys ⟨halt, hkey⟩)
      rw [if_neg hkeys, hpress]
      exact StackStep.of_thinned (Thinned.of_eq rfl rfl)

theorem setTitle_thinned (task : Int) (s : State) (winId : Int) (title : Option (List UInt8)) :
    Thinned s (kwmSetTitle task s winId title).2.1 := by
  unfold kwmSetTitle
  split
  · split
    · exact Thinned.of_eq rfl rfl
    · exact Thinned.setWindow s fun hactive => ⟨hactive, rfl, rfl⟩
  · exact Thinned.of_eq rfl rfl

theorem updateWindow_thinned (task : Int) (s : State) (winId : Int)
    (appBuffer : Option (Nat → Nat)) : Thinned s (kwmUpdateWindow task s winId appBuffer).1 := by
  unfold kwmUpdateWindow
  split
  · dsimp only
    split
    · exact Thinned.of_eq rfl rfl
    · split
      · exact Thinned.of_eq rfl rfl
      · exact Thinned.setWindow s fun hactive => ⟨hactive, rfl, rfl⟩
  · exact Thinned.of_eq rfl rfl

theorem destroyWindow_thinned (s : State) (winId : Int) :
    Thinned s (kwmDestroyWindow s winId).1 := by
  unfold kwmDestroyWindow
  split
  · exact Thinned.of_eq rfl rfl
  · split
    · exact Thinned.of_eq rfl rfl
    · dsimp only
      split
      · exact (freeSlot_thinned s _).trans (Thinned.of_eq rfl rfl)
      · exact freeSlot_thinned s _

theorem destroyWindowsOf_thinned (s : State) (task : Int) :
    Thinned s (kwmDestroyWindowsOf s task).1 := by
  have hloop := destroyUpTo_thinned task s maxWindows
  simp only [kwmDestroyWindowsOf]
  split
  · exact hloop.trans (Thinned.of_eq rfl rfl)
  · exact hloop

/-- The desktop is below all windows. -/
theorem Stacked.createDesktop (h : Stacked s) (owner : Int) (block : Option (Nat → Nat)) :
    Stacked (kwmCreateDesktop owner block s).2.1 := by
  obtain heq | ⟨i, canvas, -, -, -, heq⟩ := createDesktop_cases owner block s
  · rw [heq]
    exact h
  · rw [heq]
    generalize hd : { openedWindow owner 0 0 s.fbWidth s.fbHeight canvas with
      desktop := true } = d
    have hdesk : d.desktop = true := by rw [← hd]
    have hzero : d.zIndex = 0 := by rw [← hd]; rfl
    have hnormal : ∀ w, (setWindow s i d).normal w = true →
        w ≠ i ∧ s.normal w = true := by
      intro w hn
      have hne : w ≠ i := by
        rintro rfl
        simp [State.normal, hdesk] at hn
      rw [normal_setWindow_ne hne] at hn
      exact ⟨hne, hn⟩
    refine ⟨?_, ?_, ?_, h.next⟩
    · intro w hw hn
      obtain ⟨hne, hn⟩ := hnormal w hn
      rw [setWindow_ne s d hne]
      exact h.range w hw hn
    · intro v hv w hw hnv hnw
      obtain ⟨hvi, hnv⟩ := hnormal v hnv
      obtain ⟨hwi, hnw⟩ := hnormal w hnw
      rw [setWindow_ne s d hvi, setWindow_ne s d hwi]
      exact h.distinct v hv w hw hnv hnw
    · intro w hw
      by_cases hwi : w = i
      · subst hwi
        rw [setWindow_self]
        exact fun _ _ => hzero
      · rw [setWindow_ne s d hwi]
        exact h.desktop w hw

theorem StackStep.stacked {r : Option Nat} (h : StackStep s r s') (hs : Stacked s) :
    Stacked s' ∧ ∀ i, r = some i → OnTop s' i := by
  obtain ⟨rfl, ht⟩ | ⟨i, s₁, rfl, hp, hr⟩ := h
  · refine ⟨hs.thinned ht, ?_⟩
    intro i hi
    cases hi
  · refine ⟨hr.stacked (hp.stacked hs), ?_⟩
    intro j hj
    cases hj
    exact hr.onTop (hp.onTop hs.layered)

/-- Every operation but the creation of the desktop is such a step. -/
theorem exec_stackStep {limit : Nat} (hlimit : limit ≤ 2 ^ 32 - 1) {op : Op}
    (hsafe : StackSafe limit s op) :
    StackStep s (raises s op) (exec s op) ∨ ∃ owner block, op = .createDesktop owner block := by
  have hbound : ∀ r : Option Nat, (∀ i, r = some i → s.nextZIndex < limit) →
      ∀ i, r = some i → s.nextZIndex < 2 ^ 32 - 1 := by
    intro r hr i hi
    exact Nat.lt_of_lt_of_le (hr i hi) hlimit
  cases op with
  | createWindow owner block x y width height =>
    exact Or.inl (stackStep_createWindow owner block x y width height hsafe)
  | createDesktop owner block => exact Or.inr ⟨owner, block, rfl⟩
  | setTitle task winId title =>
    exact Or.inl (StackStep.of_thinned (setTitle_thinned task s winId title))
  | activate winId => exact Or.inl (stackStep_activate winId (hbound _ hsafe))
  | update task winId appBuffer =>
    exact Or.inl (StackStep.of_thinned (updateWindow_thinned task s winId appBuffer))
  | destroy winId => exact Or.inl (StackStep.of_thinned (destroyWindow_thinned s winId))
  | destroyOf task => exact Or.inl (StackStep.of_thinned (destroyWindowsOf_thinned s task))
  | destroyAll =>
    exact Or.inl (StackStep.of_thinned
      ((destroyAllUpTo_thinned s maxWindows).trans (Thinned.of_eq rfl rfl)))
  | mouse px py leftDown leftUp =>
    exact Or.inl (stackStep_mouse px py leftDown leftUp (hbound _ hsafe))
  | shortcut mods released keyId =>
    exact Or.inl (stackStep_shortcut mods released keyId (hbound _ hsafe))

theorem Stacked.exec {limit : Nat} (h : Stacked s) (hlimit : limit ≤ 2 ^ 32 - 1) {op : Op}
    (hsafe : StackSafe limit s op) :
    Stacked (exec s op) ∧ ∀ i, raises s op = some i → OnTop (exec s op) i := by
  obtain hstep | ⟨owner, block, rfl⟩ := exec_stackStep hlimit hsafe
  · exact hstep.stacked h
  · refine ⟨h.createDesktop owner block, ?_⟩
    intro i hi
    cases hi

theorem stacked_boot (fbWidth fbHeight : Nat) : Stacked (boot fbWidth fbHeight) := by
  refine ⟨?_, ?_, ?_, le_refl 1⟩
  · intro w _ hn
    cases hn
  · intro v _ w _ hn
    cases hn
  · intro w _ hactive
    cases hactive

theorem Reach.stacked {limit : Nat} (hlimit : limit ≤ 2 ^ 32 - 1)
    (h : Reach (StackSafe limit) s) : Stacked s := by
  induction h with
  | boot fbWidth fbHeight => exact stacked_boot fbWidth fbHeight
  | step op _ hsafe ih => exact (ih.exec hlimit hsafe).1

/-- The counter stays within the limit of the run. -/
theorem Reach.next_le {limit : Nat} (hlimit : limit ≤ 2 ^ 32 - 1)
    (h : Reach (StackSafe limit) s) : s.nextZIndex ≤ max limit (maxWindows + 1) := by
  have hmax : maxWindows = 16 := rfl
  induction h with
  | boot fbWidth fbHeight =>
    show 1 ≤ _
    omega
  | @step s op _ hsafe ih =>
    obtain ⟨hr, ht⟩ | ⟨i, s₁, hr, hp, hren⟩ | ⟨owner, block, rfl⟩ :=
      or_assoc.mp (exec_stackStep hlimit hsafe)
    · rw [ht.next]
      exact ih
    · have hlt := hsafe i hr
      have hzl : zLimit limit op ≤ max limit maxWindows := by
        cases op <;> simp [zLimit]
      have hnext := hp.next
      have hle := hren.nextLe
      omega
    · show (kwmCreateDesktop owner block s).2.1.nextZIndex ≤ _
      obtain heq | ⟨i, canvas, -, -, -, heq⟩ := createDesktop_cases owner block s
      · rw [heq]
        exact ih
      · rw [heq]
        exact ih

/-! ## Where the order breaks -/

theorem not_stacked_of_wrapped (h : s.nextZIndex = 0) : ¬ Stacked s := by
  intro hs
  have := hs.next
  omega

/-- The counter wraps around, and no renumbering sees that. -/
theorem normalizeIfLarge_raise_wrapped (h : s.nextZIndex = 2 ^ 32 - 1) (i : Nat) :
    (normalizeIfLarge (raise s i)).nextZIndex = 0 := by
  have hzero : (raise s i).nextZIndex = 0 := by
    show (s.nextZIndex + 1) % 2 ^ 32 = 0
    omega
  have hsmall : ¬ (raise s i).nextZIndex > maxWindows := by
    rw [hzero]
    exact Nat.not_lt_zero _
  rw [Kwm.normalizeIfLarge, if_neg hsmall]
  exact hzero

/-- Fewer than 16 windows take part if a slot does not. -/
theorem zOrder_length_lt (hi : i < maxWindows) (hn : s.normal i = false) :
    (zOrder s).length < maxWindows := by
  have hnot : i ∉ zOrder s := by
    intro hmem
    rw [(mem_zOrder.mp hmem).2] at hn
    cases hn
  have hsub : i :: zOrder s ⊆ List.range maxWindows := by
    intro w hw
    rw [List.mem_range]
    rcases List.mem_cons.mp hw with rfl | hw
    · exact hi
    · exact (mem_zOrder.mp hw).1
  have hnodup : (i :: zOrder s).Nodup := List.nodup_cons.mpr ⟨hnot, zOrder_nodup s⟩
  have hle := (List.subperm_of_subset hnodup hsub).length_le
  rw [List.length_range] at hle
  exact hle

/-- A window that is created when `next_z_index` is 16 or more misses the renumbering: its index
stays, and `next_z_index` becomes smaller. -/
theorem createdAt_breaks (hi : freeSlot s = some i) (hnext : maxWindows ≤ s.nextZIndex)
    (hbound : s.nextZIndex < 2 ^ 32) (owner x y : Int) (width height : Nat) (canvas : Canvas) :
    ¬ Stacked (createdAt s i owner x y width height canvas) := by
  obtain ⟨hlt, hfree⟩ := freeSlot_spec hi
  have hmax : maxWindows = 16 := rfl
  obtain ⟨w, hw⟩ : ∃ w : Window, w = { s.windows i with
    x := x
    y := y
    width := width
    height := height
    canvas := some canvas
    ownerTask := owner } := ⟨_, rfl⟩
  have hcreated : createdAt s i owner x y width height canvas =
      { setWindow (normalizeIfLarge (raise (setWindow s i w) i)) i
        { (normalizeIfLarge (raise (setWindow s i w) i)).windows i with
          desktop := false
          title := []
          active := true } with focusedWinId := some i } := by
    rw [hw]
    rfl
  have hinactive : (raise (setWindow s i w) i).normal i = false := by
    rw [(Restacked.raise _ i).normal]
    simp [State.normal, hw, hfree]
  rcases Nat.lt_or_ge s.nextZIndex (2 ^ 32 - 1) with hsmall | hwrap
  · have hraised : (raise (setWindow s i w) i).nextZIndex = s.nextZIndex + 1 := by
      show (s.nextZIndex + 1) % 2 ^ 32 = s.nextZIndex + 1
      exact Nat.mod_eq_of_lt (by omega)
    have hlarge : normalizeIfLarge (raise (setWindow s i w) i) =
        kwmNormalizeZindexLocked (raise (setWindow s i w) i) := by
      apply if_pos
      rw [hraised]
      omega
    have hnot : i ∉ zOrder (raise (setWindow s i w) i) := by
      intro hmem
      rw [(mem_zOrder.mp hmem).2] at hinactive
      cases hinactive
    have hkept : (kwmNormalizeZindexLocked (raise (setWindow s i w) i)).windows i =
        (raise (setWindow s i w) i).windows i := if_neg hnot
    have hz : ((raise (setWindow s i w) i).windows i).zIndex = s.nextZIndex := by
      show ((setWindow (setWindow s i w) i _).windows i).zIndex = _
      rw [setWindow_self]
      rfl
    have hlen := zOrder_length_lt hlt hinactive
    intro hs
    rw [hcreated, hlarge] at hs
    have hrange := (hs.range i hlt (by simp [State.normal])).2
    simp only [setWindow_self, hkept, hz] at hrange
    have hnext' := normalize_next (raise (setWindow s i w) i)
    change s.nextZIndex < (kwmNormalizeZindexLocked (raise (setWindow s i w) i)).nextZIndex
      at hrange
    omega
  · apply not_stacked_of_wrapped
    rw [hcreated]
    have hlast : (setWindow s i w).nextZIndex = 2 ^ 32 - 1 := by
      show s.nextZIndex = _
      omega
    exact normalizeIfLarge_raise_wrapped hlast i

theorem processMouse_clicked {px py : Int} {leftDown leftUp : Bool}
    (h : clicked s px py leftDown leftUp = some i) :
    kwmHitTestLocked s px py = some i ∧
      kwmProcessMouse s px py leftDown leftUp = clickStep s px py := by
  unfold clicked at h
  split at h
  · rename_i hclick
    obtain ⟨rfl, hdrag, rfl⟩ := hclick
    rw [Option.isNone_iff_eq_none] at hdrag
    refine ⟨h, ?_⟩
    simp [kwmProcessMouse, hdrag]
  · cases h

theorem clickStep_next {px py : Int} (h : kwmHitTestLocked s px py = some i)
    (hdesk : (s.windows i).desktop = false) :
    (clickStep s px py).2.1.nextZIndex = (raise s i).nextZIndex := by
  simp only [clickStep, h, hdesk]
  rw [if_neg Bool.false_ne_true]
  split
  · split <;> rfl
  · rfl
  · rfl

/-- Without an index for the window, the operation breaks the order. -/
theorem exec_breaks {op : Op} (hbound : s.nextZIndex < 2 ^ 32) (hr : raises s op = some i)
    (hnext : zLimit (2 ^ 32 - 1) op ≤ s.nextZIndex) : ¬ Stacked (exec s op) := by
  cases op with
  | createWindow owner block x y width height =>
    have hresult := createWindow_result owner block s x y width height
    obtain heq | ⟨j, canvas, hj, -, -, -, heq⟩ := createWindow_cases owner block s x y width height
    · rw [heq] at hresult
      rw [show raises s (.createWindow owner block x y width height) = none from
        hresult.symm] at hr
      cases hr
    · show ¬ Stacked (kwmCreateWindow owner block s x y width height).2.1
      rw [heq]
      exact createdAt_breaks hj hnext hbound owner x y width height canvas
  | activate winId =>
    have hlast : s.nextZIndex = 2 ^ 32 - 1 := by
      change 2 ^ 32 - 1 ≤ s.nextZIndex at hnext
      omega
    obtain ⟨hslot, hn⟩ := Option.filter_eq_some_iff.mp hr
    apply not_stacked_of_wrapped
    show (kwmActivateWindow s winId).2.1.nextZIndex = 0
    simp only [kwmActivateWindow, hslot, hn]
    show (normalizeIfLarge (normalizeIfLarge (raise s i))).nextZIndex = 0
    have hzero := normalizeIfLarge_raise_wrapped hlast i
    rw [show normalizeIfLarge (normalizeIfLarge (raise s i)) = normalizeIfLarge (raise s i) from
      if_neg (by rw [hzero]; exact Nat.not_lt_zero _)]
    exact hzero
  | mouse px py leftDown leftUp =>
    have hlast : s.nextZIndex = 2 ^ 32 - 1 := by
      change 2 ^ 32 - 1 ≤ s.nextZIndex at hnext
      omega
    obtain ⟨hclick, hn⟩ := Option.filter_eq_some_iff.mp hr
    obtain ⟨hhit, hmouse⟩ := processMouse_clicked hclick
    simp only [State.normal, Bool.and_eq_true, Bool.not_eq_true'] at hn
    apply not_stacked_of_wrapped
    show (kwmProcessMouse s px py leftDown leftUp).2.1.nextZIndex = 0
    rw [hmouse, clickStep_next hhit hn.2]
    show (s.nextZIndex + 1) % 2 ^ 32 = 0
    omega
  | shortcut mods released keyId =>
    have hlast : s.nextZIndex = 2 ^ 32 - 1 := by
      change 2 ^ 32 - 1 ≤ s.nextZIndex at hnext
      omega
    have hpress : altTabPressed mods released keyId = true := by
      by_contra hpress
      rw [show raises s (.shortcut mods released keyId) = none from if_neg hpress] at hr
      cases hr
    have htarget : cycleTarget s = some i := by
      rw [← hr]
      exact (if_pos hpress).symm
    simp only [altTabPressed, Bool.and_eq_true, bne_iff_ne, beq_iff_eq, Bool.not_eq_true'] at hpress
    apply not_stacked_of_wrapped
    show (kwmHandleShortcut s mods released keyId).2.1.nextZIndex = 0
    rw [kwmHandleShortcut, if_neg (fun hend => hpress.1.1 hend.2), if_pos hpress.1,
      if_neg (by simp [hpress.2])]
    show (kwmCycleFocusLocked s).nextZIndex = 0
    rw [kwmCycleFocusLocked, htarget]
    exact normalizeIfLarge_raise_wrapped hlast i
  | createDesktop owner block => cases hr
  | setTitle task winId title => cases hr
  | update task winId appBuffer => cases hr
  | destroy winId => cases hr
  | destroyOf task => cases hr
  | destroyAll => cases hr

/-! ## The property and its limits -/

/-- In a run whose windows are created before `next_z_index` reaches 16, and in which the counter
does not wrap around, the stack is always in order, and the window that an operation creates,
activates, is a click on or cycles to comes to lie on top. An operation that does not meet the
condition breaks the order at once. -/
theorem stacking_holds (h : Reach (StackSafe (2 ^ 32 - 1)) s) :
    Stacked s ∧ ∀ op, (Stacked (exec s op) ∧ ∀ i, raises s op = some i → OnTop (exec s op) i) ↔
      StackSafe (2 ^ 32 - 1) s op := by
  have hs := h.stacked (le_refl _)
  have hnext := h.next_le (le_refl _)
  have hmax : maxWindows = 16 := rfl
  refine ⟨hs, ?_⟩
  intro op
  constructor
  · rintro ⟨hs', -⟩ i hr
    by_contra hlt
    exact exec_breaks (by omega) hr (not_lt.mp hlt) hs'
  · exact hs.exec (le_refl _)

/-- A second window is created, and the first one is clicked on. -/
theorem stacking_holds_second :
    Stacked (exec (exec (boot 640 480) (.createWindow 1 (some fun _ => 0) 0 0 100 100))
      (.createWindow 2 (some fun _ => 0) 200 0 100 100)) ∧
    OnTop (exec (exec (exec (boot 640 480) (.createWindow 1 (some fun _ => 0) 0 0 100 100))
      (.createWindow 2 (some fun _ => 0) 200 0 100 100)) (.mouse 50 50 true false)) 0 := by
  have hfirst : StackSafe (2 ^ 32 - 1) (boot 640 480)
      (.createWindow 1 (some fun _ => 0) 0 0 100 100) := fun _ _ => by decide
  have hsecond : StackSafe (2 ^ 32 - 1)
      (exec (boot 640 480) (.createWindow 1 (some fun _ => 0) 0 0 100 100))
      (.createWindow 2 (some fun _ => 0) 200 0 100 100) := fun _ _ => by decide +kernel
  have hreach := Reach.step _ (Reach.step _ (Reach.boot 640 480) hfirst) hsecond
  have hclick : StackSafe (2 ^ 32 - 1)
      (exec (exec (boot 640 480) (.createWindow 1 (some fun _ => 0) 0 0 100 100))
        (.createWindow 2 (some fun _ => 0) 200 0 100 100)) (.mouse 50 50 true false) :=
    fun _ _ => by decide +kernel
  refine ⟨(stacking_holds hreach).1, ?_⟩
  exact (((stacking_holds hreach).2 (.mouse 50 50 true false)).mpr hclick).2 0 (by decide +kernel)

/-- A window is clicked on until `next_z_index` is 16, and then another one is created: its index
is 16, and the next index is 2. -/
theorem stacking_broken : ¬ ∀ (fbWidth fbHeight : Nat) (ops : List Op),
    Stacked (ops.foldl exec (boot fbWidth fbHeight)) := by
  intro h
  have hs := h 640 480 (.createWindow 1 (some fun _ => 0) 0 0 100 100 ::
    List.replicate 14 (.mouse 50 50 true false) ++
    [.createWindow 2 (some fun _ => 0) 200 0 100 100])
  exact absurd (hs.range 1 (by decide) (by decide +kernel)).2 (by decide +kernel)

end Kyuzen.Kwm
