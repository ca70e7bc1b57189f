import Kyuzen.Kwm.Model

/-!
# Focus, drag and canvases

The keyboard IRQ, the mouse IRQ and the compositor follow `focused_win_id` and `dragged_win_id`
into the table. `Sound` says that both name an active window that is not the desktop, that there
is at most one desktop, and that the canvas of a slot has the size of its window. Every operation
keeps it (`Sound.exec`), so it holds in every table that is ever reached.
-/

namespace Kyuzen.Kwm

variable {s s' : State} {i : Nat}

/-- A slot number that is kept somewhere: none, or the slot of a window with a titlebar. -/
def Refers (s : State) (r : Option Nat) : Prop :=
  ∀ i, r = some i → i < maxWindows ∧ s.normal i = true

/-- An active window has a canvas of its size, and any other slot has none. -/
def Window.CanvasFits (w : Window) : Prop :=
  w.canvas.map Canvas.count = if w.active = true then some (w.width * w.height) else none

/-- What `Sound` says beside the focus, which is wrong for a moment when a slot is freed. -/
structure SlotsOk (s : State) : Prop where
  dragged : Refers s s.draggedWinId
  desktop : ∀ i < maxWindows, ∀ j < maxWindows,
    (s.windows i).active = true → (s.windows i).desktop = true →
    (s.windows j).active = true → (s.windows j).desktop = true → i = j
  canvas : ∀ i < maxWindows, (s.windows i).CanvasFits

structure Sound (s : State) : Prop extends SlotsOk s where
  focused : Refers s s.focusedWinId

theorem Refers.ofNone (s : State) : Refers s none := by
  intro i h
  cases h

theorem Refers.ofSome (hi : i < maxWindows) (h : s.normal i = true) : Refers s (some i) := by
  intro j hj
  cases hj
  exact ⟨hi, h⟩

/-! ## Slots -/

@[simp]
theorem setWindow_self (s : State) (i : Nat) (w : Window) : (setWindow s i w).windows i = w := by
  simp [setWindow]

theorem setWindow_ne (s : State) {i j : Nat} (w : Window) (h : j ≠ i) :
    (setWindow s i w).windows j = s.windows j := by
  simp [setWindow, h]

theorem slotOf_lt {winId : Int} (h : slotOf winId = some i) : i < maxWindows := by
  unfold slotOf at h
  split at h
  · cases h
  · cases h
    rename_i hrange
    have : maxWindows = 16 := rfl
    omega

theorem freeSlot_spec (h : freeSlot s = some i) :
    i < maxWindows ∧ (s.windows i).active = false := by
  have hfind := List.find?_some h
  have hmem := List.mem_of_find?_eq_some h
  exact ⟨List.mem_range.mp hmem, by simpa using hfind⟩

/-- `display_buffer_create` refuses a size whose product does not fit. -/
theorem displayBufferCreate_count {width height : Nat} {block : Option (Nat → Nat)} {c : Canvas}
    (h : displayBufferCreate width height block = some c) : c.count = width * height := by
  unfold displayBufferCreate at h
  split at h
  · cases h
  · rename_i hzero
    dsimp only at h
    split at h
    · cases h
    · rename_i hexact
      obtain ⟨pixels, -, rfl⟩ := Option.map_eq_some_iff.mp h
      have hle : width * height * 4 % 2 ^ 64 ≤ width * height * 4 := Nat.mod_le _ _
      have hquot : width * height * 4 % 2 ^ 64 / (width * 4) = height := by
        rw [← Nat.div_div_eq_div_mul]
        exact not_not.mp hexact
      have hge := Nat.div_mul_le_self (width * height * 4 % 2 ^ 64) (width * 4)
      rw [hquot] at hge
      show width * height * 4 % 2 ^ 64 / 4 = width * height
      have hsame : width * height * 4 % 2 ^ 64 = width * height * 4 := by
        apply le_antisymm hle
        calc width * height * 4 = height * (width * 4) := by ring
          _ ≤ _ := hge
      rw [hsame]
      exact Nat.mul_div_cancel _ (by omega)

/-! ## Renumbering -/

/-- The two tables differ only in stacking indices. -/
def Restacked (s s' : State) : Prop :=
  ∀ w, ∃ z, s'.windows w = { s.windows w with zIndex := z }

theorem Restacked.refl (s : State) : Restacked s s := fun w => ⟨(s.windows w).zIndex, rfl⟩

theorem Restacked.trans {s'' : State} (h : Restacked s s') (h' : Restacked s' s'') :
    Restacked s s'' := by
  intro w
  obtain ⟨z, hz⟩ := h w
  obtain ⟨z', hz'⟩ := h' w
  exact ⟨z', by rw [hz', hz]⟩

theorem Restacked.raise (s : State) (i : Nat) : Restacked s (raise s i) := by
  intro w
  by_cases hw : w = i
  · subst hw
    exact ⟨s.nextZIndex, setWindow_self s w _⟩
  · exact ⟨(s.windows w).zIndex, setWindow_ne s _ hw⟩

theorem Restacked.normalize (s : State) : Restacked s (kwmNormalizeZindexLocked s) := by
  intro w
  show ∃ z, (if w ∈ zOrder s then _ else s.windows w) = _
  split
  · exact ⟨_, rfl⟩
  · exact ⟨_, rfl⟩

theorem Restacked.normalizeIfLarge (s : State) : Restacked s (normalizeIfLarge s) := by
  unfold Kwm.normalizeIfLarge
  split
  · exact Restacked.normalize s
  · exact Restacked.refl s

/-- The parts of the table that renumbering does not touch. -/
structure SameRest (s s' : State) : Prop where
  focused : s'.focusedWinId = s.focusedWinId
  dragged : s'.draggedWinId = s.draggedWinId
  fbWidth : s'.fbWidth = s.fbWidth
  fbHeight : s'.fbHeight = s.fbHeight

theorem SameRest.normalizeIfLarge (s : State) : SameRest s (normalizeIfLarge s) := by
  unfold Kwm.normalizeIfLarge
  split
  · exact ⟨rfl, rfl, rfl, rfl⟩
  · exact ⟨rfl, rfl, rfl, rfl⟩

theorem Restacked.normal (h : Restacked s s') (i : Nat) : s'.normal i = s.normal i := by
  obtain ⟨z, hz⟩ := h i
  simp [State.normal, hz]

theorem Refers.restacked {r : Option Nat} (h : Refers s r) (hr : Restacked s s') :
    Refers s' r := by
  intro i hi
  rw [hr.normal]
  exact h i hi

/-- Stacking indices play no part, and the references may move to other windows. -/
theorem Sound.restacked (h : Sound s) (hr : Restacked s s') (hf : Refers s s'.focusedWinId)
    (hd : Refers s s'.draggedWinId) : Sound s' where
  focused := hf.restacked hr
  dragged := hd.restacked hr
  desktop i hi j hj := by
    obtain ⟨z, hz⟩ := hr i
    obtain ⟨z', hz'⟩ := hr j
    rw [hz, hz']
    exact h.desktop i hi j hj
  canvas i hi := by
    obtain ⟨z, hz⟩ := hr i
    rw [hz]
    exact h.canvas i hi

/-! ## One slot changes -/

theorem normal_setWindow_ne {w : Window} {j : Nat} (h : j ≠ i) :
    (setWindow s i w).normal j = s.normal j := by
  simp [State.normal, setWindow_ne s w h]

/-- A window gets another place, title or content. -/
theorem Sound.setWindow (h : Sound s) {w : Window} (hactive : w.active = (s.windows i).active)
    (hdesktop : w.desktop = (s.windows i).desktop)
    (hcanvas : (s.windows i).CanvasFits → w.CanvasFits) : Sound (setWindow s i w) := by
  have hnormal : ∀ j, (Kwm.setWindow s i w).normal j = s.normal j := by
    intro j
    by_cases hj : j = i
    · subst hj
      simp [State.normal, hactive, hdesktop]
    · exact normal_setWindow_ne hj
  have hflags : ∀ j, ((Kwm.setWindow s i w).windows j).active = (s.windows j).active ∧
      ((Kwm.setWindow s i w).windows j).desktop = (s.windows j).desktop := by
    intro j
    by_cases hj : j = i
    · subst hj
      rw [setWindow_self]
      exact ⟨hactive, hdesktop⟩
    · rw [setWindow_ne s w hj]
      exact ⟨rfl, rfl⟩
  refine ⟨⟨?_, ?_, ?_⟩, ?_⟩
  · intro j hj
    rw [hnormal]
    exact h.dragged j hj
  · intro j hj k hk
    rw [(hflags j).1, (hflags j).2, (hflags k).1, (hflags k).2]
    exact h.desktop j hj k hk
  · intro j hj
    by_cases hji : j = i
    · subst hji
      rw [setWindow_self]
      exact hcanvas (h.canvas j hj)
    · rw [setWindow_ne s w hji]
      exact h.canvas j hj
  · intro j hj
    rw [hnormal]
    exact h.focused j hj

/-- A free slot gets a window; no reference leads to it yet. -/
theorem Refers.open_ne (h : Refers s (some i)) (hfree : (s.windows i).active = false) : False := by
  have hnormal := (h i rfl).2
  simp [State.normal, hfree] at hnormal

theorem Refers.create {r : Option Nat} (h : Refers s r) {w : Window}
    (hfree : (s.windows i).active = false) : Refers (Kwm.setWindow s i w) r := by
  intro j hj
  have hne : j ≠ i := by
    rintro rfl
    exact (show Refers s (some j) from hj ▸ h).open_ne hfree
  rw [normal_setWindow_ne hne]
  exact h j hj

theorem Sound.create (h : Sound s) {w : Window} (hfree : (s.windows i).active = false)
    (hcanvas : w.CanvasFits)
    (hdesktop : w.desktop = true → ∀ j < maxWindows, ¬ ((s.windows j).active = true ∧
      (s.windows j).desktop = true)) : Sound (Kwm.setWindow s i w) := by
  refine ⟨⟨?_, ?_, ?_⟩, ?_⟩
  · exact h.dragged.create hfree
  · intro j hj k hk hja hjd hka hkd
    by_cases hji : j = i
    · by_cases hki : k = i
      · rw [hji, hki]
      · subst hji
        rw [setWindow_self] at hjd
        rw [setWindow_ne s w hki] at hka hkd
        exact absurd ⟨hka, hkd⟩ (hdesktop hjd k hk)
    · rw [setWindow_ne s w hji] at hja hjd
      by_cases hki : k = i
      · subst hki
        rw [setWindow_self] at hkd
        exact absurd ⟨hja, hjd⟩ (hdesktop hkd j hj)
      · rw [setWindow_ne s w hki] at hka hkd
        exact h.desktop j hj k hk hja hjd hka hkd
  · intro j hj
    by_cases hji : j = i
    · subst hji
      rw [setWindow_self]
      exact hcanvas
    · rw [setWindow_ne s w hji]
      exact h.canvas j hj
  · exact h.focused.create hfree

/-! ## Slots are freed -/

theorem freeSlot_normal (s : State) (i j : Nat) :
    (kwmFreeSlot s i).normal j = (s.normal j && j != i) := by
  by_cases hj : j = i
  · subst hj
    simp [State.normal, kwmFreeSlot]
  · have hsame : (kwmFreeSlot s i).windows j = s.windows j := setWindow_ne s _ hj
    simp [State.normal, hsame, hj]

theorem Refers.freeSlot {r : Option Nat} (h : Refers s r) (hne : r ≠ some i) :
    Refers (kwmFreeSlot s i) r := by
  intro j hj
  have hji : j ≠ i := by
    rintro rfl
    exact hne hj
  rw [freeSlot_normal]
  simp [h j hj, hji]

theorem SlotsOk.freeSlot (h : SlotsOk s) : SlotsOk (kwmFreeSlot s i) := by
  constructor
  · show Refers _ (if s.draggedWinId = some i then none else s.draggedWinId)
    split
    · exact Refers.ofNone _
    · rename_i hne
      exact h.dragged.freeSlot hne
  · intro j hj k hk hja hjd hka hkd
    have hkeep : ∀ l, ((kwmFreeSlot s i).windows l).active = true →
        (kwmFreeSlot s i).windows l = s.windows l := by
      intro l hl
      by_cases hli : l = i
      · subst hli
        simp [kwmFreeSlot] at hl
      · exact setWindow_ne s _ hli
    have ej := hkeep j hja
    have ek := hkeep k hka
    rw [ej] at hja hjd
    rw [ek] at hka hkd
    exact h.desktop j hj k hk hja hjd hka hkd
  · intro j hj
    by_cases hji : j = i
    · subst hji
      simp [Window.CanvasFits, kwmFreeSlot]
    · show ((setWindow s i _).windows j).CanvasFits
      rw [setWindow_ne s _ hji]
      exact h.canvas j hj

/-- The loop of `kwm_refocus_locked` only ever picks such windows. -/
theorem Refers.refocus (s : State) : Refers s (kwmRefocusLocked s).focusedWinId := by
  show Refers s ((List.range maxWindows).foldl (refocusStep s) (0, none)).2
  apply List.foldlRecOn (motive := fun best : Nat × Option Nat => Refers s best.2)
  · exact Refers.ofNone s
  · intro best h k hk
    unfold refocusStep
    split
    · rename_i hpick
      simp only [Bool.and_eq_true] at hpick
      exact Refers.ofSome (List.mem_range.mp hk) hpick.1
    · exact h

theorem SlotsOk.refocus (h : SlotsOk s) : Sound (kwmRefocusLocked s) where
  dragged := h.dragged
  desktop := h.desktop
  canvas := h.canvas
  focused := Refers.refocus s

/-- The focus moves only if the focused window was destroyed. -/
theorem destroyUpTo_sound (h : Sound s) (task : Int) (n : Nat) :
    SlotsOk (destroyUpTo task s n).1 ∧ ((destroyUpTo task s n).2 = false →
      Refers (destroyUpTo task s n).1 (destroyUpTo task s n).1.focusedWinId) := by
  induction n with
  | zero => exact ⟨h.toSlotsOk, fun _ => h.focused⟩
  | succ n ih =>
    simp only [destroyUpTo]
    split
    · refine ⟨ih.1.freeSlot, ?_⟩
      intro hgone
      simp only [Bool.or_eq_false_iff, beq_eq_false_iff_ne] at hgone
      exact (ih.2 hgone.1).freeSlot hgone.2
    · exact ih

theorem destroyAllUpTo_slots (h : SlotsOk s) (n : Nat) : SlotsOk (destroyAllUpTo s n) := by
  induction n with
  | zero => exact h
  | succ n ih =>
    simp only [destroyAllUpTo]
    split
    · exact ih.freeSlot
    · exact ih

theorem Sound.destroyWindow (h : Sound s) (winId : Int) : Sound (kwmDestroyWindow s winId).1 := by
  unfold kwmDestroyWindow
  split
  · exact h
  · rename_i i _
    split
    · exact h
    · dsimp only
      split
      · exact h.toSlotsOk.freeSlot.refocus
      · rename_i hne
        exact ⟨h.toSlotsOk.freeSlot, h.focused.freeSlot hne⟩

theorem Sound.destroyWindowsOf (h : Sound s) (task : Int) :
    Sound (kwmDestroyWindowsOf s task).1 := by
  have hloop := destroyUpTo_sound h task maxWindows
  simp only [kwmDestroyWindowsOf]
  split
  · exact hloop.1.refocus
  · rename_i hgone
    exact ⟨hloop.1, hloop.2 (by simpa using hgone)⟩

theorem Sound.destroyAllWindows (h : Sound s) : Sound (kwmDestroyAllWindows s).1 := by
  have hloop := destroyAllUpTo_slots h.toSlotsOk maxWindows
  exact ⟨⟨hloop.dragged, hloop.desktop, hloop.canvas⟩, Refers.ofNone _⟩

/-! ## Windows are created -/

/-- The window in a slot that has just been handed out, whatever its stacking index. -/
def openedWindow (owner x y : Int) (width height : Nat) (canvas : Canvas) : Window where
  active := true
  x := x
  y := y
  width := width
  height := height
  canvas := some canvas
  zIndex := 0
  ownerTask := owner
  desktop := false
  title := []

/-- `kwm_create_window` once it has found slot `i` and a canvas. -/
def createdAt (s : State) (i : Nat) (owner x y : Int) (width height : Nat) (canvas : Canvas) :
    State :=
  let s₁ := setWindow s i { s.windows i with
    x := x
    y := y
    width := width
    height := height
    canvas := some canvas
    ownerTask := owner }
  let s₂ := normalizeIfLarge (raise s₁ i)
  { setWindow s₂ i { s₂.windows i with
      desktop := false
      title := []
      active := true } with focusedWinId := some i }

/-- What `kwm_create_window` can do: nothing, or a window in a free slot. -/
theorem createWindow_cases (owner : Int) (block : Option (Nat → Nat)) (s : State) (x y : Int)
    (width height : Nat) :
    kwmCreateWindow owner block s x y width height = (none, s, []) ∨
      ∃ i canvas, freeSlot s = some i ∧ displayBufferCreate width height block = some canvas ∧
        width ≤ maxDimension ∧ height ≤ maxDimension ∧
        kwmCreateWindow owner block s x y width height =
          (some i, createdAt s i owner x y width height canvas,
            kwmFrameDirty (createdAt s i owner x y width height canvas) i ++
              if s.focusedWinId = some i then []
              else frameDirtyOf (createdAt s i owner x y width height canvas) s.focusedWinId) := by
  unfold kwmCreateWindow
  split
  · exact Or.inl rfl
  · rename_i hsize
    split
    · exact Or.inl rfl
    · split
      · exact Or.inl rfl
      · rename_i i hi
        split
        · exact Or.inl rfl
        · rename_i canvas hcanvas
          exact Or.inr ⟨i, canvas, hi, hcanvas, by omega, by omega, rfl⟩

/-- The new window is in its slot, and other windows have at most moved in the stack. -/
theorem createdAt_restacked (s : State) (i : Nat) (owner x y : Int) (width height : Nat)
    (canvas : Canvas) :
    Restacked (setWindow s i (openedWindow owner x y width height canvas))
      (createdAt s i owner x y width height canvas) := by
  intro w
  have hstack := (Restacked.raise (setWindow s i { s.windows i with
    x := x
    y := y
    width := width
    height := height
    canvas := some canvas
    ownerTask := owner }) i).trans (Restacked.normalizeIfLarge _)
  obtain ⟨z, hz⟩ := hstack w
  refine ⟨z, ?_⟩
  by_cases hw : w = i
  · subst hw
    rw [setWindow_self] at hz
    simp only [createdAt, setWindow_self, hz]
    rfl
  · rw [setWindow_ne s _ hw] at hz
    show (setWindow _ i _).windows w = _
    rw [setWindow_ne _ _ hw, setWindow_ne _ _ hw]
    exact hz

theorem Window.CanvasFits.of_create {width height : Nat} {block : Option (Nat → Nat)} {c : Canvas}
    (h : displayBufferCreate width height block = some c) {w : Window}
    (hactive : w.active = true) (hcanvas : w.canvas = some c) (hw : w.width = width)
    (hh : w.height = height) : w.CanvasFits := by
  simp [Window.CanvasFits, hactive, hcanvas, hw, hh, displayBufferCreate_count h]

theorem Sound.createWindow (h : Sound s) (owner : Int) (block : Option (Nat → Nat)) (x y : Int)
    (width height : Nat) : Sound (kwmCreateWindow owner block s x y width height).2.1 := by
  obtain heq | ⟨i, canvas, hi, hcanvas, -, -, heq⟩ :=
    createWindow_cases owner block s x y width height
  · rw [heq]
    exact h
  · rw [heq]
    obtain ⟨hlt, hfree⟩ := freeSlot_spec hi
    have hopen : Sound (Kwm.setWindow s i (openedWindow owner x y width height canvas)) := by
      apply h.create hfree (Window.CanvasFits.of_create hcanvas rfl rfl rfl rfl)
      intro hdesk
      cases hdesk
    apply hopen.restacked (createdAt_restacked s i owner x y width height canvas)
    · apply Refers.ofSome hlt
      simp [State.normal, openedWindow]
    · have hdrag : (createdAt s i owner x y width height canvas).draggedWinId =
          s.draggedWinId := (SameRest.normalizeIfLarge _).dragged
      rw [hdrag]
      exact hopen.dragged

/-- What `kwm_create_desktop` can do: nothing, or the only desktop in a free slot. -/
theorem createDesktop_cases (owner : Int) (block : Option (Nat → Nat)) (s : State) :
    kwmCreateDesktop owner block s = (none, s, []) ∨
      ∃ i canvas, freeSlot s = some i ∧
        displayBufferCreate s.fbWidth s.fbHeight block = some canvas ∧
        (∀ j < maxWindows, ¬ ((s.windows j).active = true ∧ (s.windows j).desktop = true)) ∧
        kwmCreateDesktop owner block s = (some i,
          setWindow s i { openedWindow owner 0 0 s.fbWidth s.fbHeight canvas with
            desktop := true }, [screenRect s]) := by
  unfold kwmCreateDesktop
  split
  · exact Or.inl rfl
  · rename_i hnone
    split
    · exact Or.inl rfl
    · split
      · exact Or.inl rfl
      · rename_i i hi
        split
        · exact Or.inl rfl
        · rename_i canvas hcanvas
          refine Or.inr ⟨i, canvas, hi, hcanvas, ?_, rfl⟩
          intro j hj hdesk
          apply hnone
          rw [List.any_eq_true]
          exact ⟨j, List.mem_range.mpr hj, by simp [hdesk]⟩

theorem Sound.createDesktop (h : Sound s) (owner : Int) (block : Option (Nat → Nat)) :
    Sound (kwmCreateDesktop owner block s).2.1 := by
  obtain heq | ⟨i, canvas, hi, hcanvas, hnone, heq⟩ := createDesktop_cases owner block s
  · rw [heq]
    exact h
  · rw [heq]
    exact h.create (freeSlot_spec hi).2 (Window.CanvasFits.of_create hcanvas rfl rfl rfl rfl)
      fun _ => hnone

/-! ## Windows are raised, moved and painted -/

theorem Sound.setTitle (h : Sound s) (task winId : Int) (title : Option (List UInt8)) :
    Sound (kwmSetTitle task s winId title).2.1 := by
  unfold kwmSetTitle
  split
  · split
    · exact h
    · exact h.setWindow rfl rfl fun hfits => hfits
  · exact h

theorem Sound.updateWindow (h : Sound s) (task winId : Int) (appBuffer : Option (Nat → Nat)) :
    Sound (kwmUpdateWindow task s winId appBuffer).1 := by
  unfold kwmUpdateWindow
  split
  · dsimp only
    split
    · exact h
    · rename_i canvas hcanvas
      split
      · exact h
      · refine h.setWindow ?_ ?_ ?_
        · rfl
        · rfl
        · intro hfits
          simpa [Window.CanvasFits, hcanvas] using hfits
  · exact h

theorem Sound.activateWindow (h : Sound s) (winId : Int) :
    Sound (kwmActivateWindow s winId).2.1 := by
  unfold kwmActivateWindow
  split
  · exact h
  · rename_i i hi
    split
    · exact h
    · rename_i hnormal
      have hstack := ((Restacked.raise s i).trans (Restacked.normalizeIfLarge _)).trans
        (Restacked.normalizeIfLarge _)
      apply h.restacked (show Restacked s { normalizeIfLarge (normalizeIfLarge (raise s i)) with
        focusedWinId := some i } from hstack)
      · exact Refers.ofSome (slotOf_lt hi) (by simpa using hnormal)
      · have hdrag : (normalizeIfLarge (normalizeIfLarge (raise s i))).draggedWinId =
            s.draggedWinId :=
          (SameRest.normalizeIfLarge _).dragged.trans (SameRest.normalizeIfLarge _).dragged
        show Refers s (normalizeIfLarge (normalizeIfLarge (raise s i))).draggedWinId
        rw [hdrag]
        exact h.dragged

/-- The hit test answers an active window. -/
theorem hitTest_active {px py : Int} (h : kwmHitTestLocked s px py = some i) :
    i < maxWindows ∧ (s.windows i).active = true := by
  have hloop : ∀ j, ((List.range maxWindows).foldl (hitStep s px py) (-1, none)).2 = some j →
      j < maxWindows ∧ (s.windows j).active = true := by
    apply List.foldlRecOn (motive := fun best : Int × Option Nat =>
      ∀ j, best.2 = some j → j < maxWindows ∧ (s.windows j).active = true)
    · intro j hj
      cases hj
    · intro best hbest k hk j hj
      unfold hitStep at hj
      split at hj
      · rename_i hpick
        simp only [Bool.and_eq_true] at hpick
        cases hj
        exact ⟨List.mem_range.mp hk, hpick.1.1⟩
      · exact hbest j hj
  exact hloop i h

theorem Sound.click (h : Sound s) (px py : Int) : Sound (clickStep s px py).2.1 := by
  unfold clickStep
  split
  · exact ⟨⟨h.dragged, h.desktop, h.canvas⟩, Refers.ofNone s⟩
  · rename_i i hi
    obtain ⟨hlt, hactive⟩ := hitTest_active hi
    split
    · exact h
    · rename_i hdesk
      have hnormal : Refers s (some i) := by
        apply Refers.ofSome hlt
        simp [State.normal, hactive, hdesk]
      have hraised : ∀ r, Refers s r → Sound { raise s i with
          focusedWinId := some i
          draggedWinId := r } := by
        intro r hr
        exact h.restacked (show Restacked s { raise s i with
          focusedWinId := some i
          draggedWinId := r } from Restacked.raise s i) hnormal hr
      dsimp only
      split
      · split
        · exact hraised _ h.dragged
        · exact hraised _ h.dragged
      · have hs := hraised _ hnormal
        exact ⟨⟨hs.dragged, hs.desktop, hs.canvas⟩, hs.focused⟩
      · exact hraised _ h.dragged

theorem Sound.processMouse (h : Sound s) (px py : Int) (leftDown leftUp : Bool) :
    Sound (kwmProcessMouse s px py leftDown leftUp).2.1 := by
  unfold kwmProcessMouse
  split
  · exact ⟨⟨Refers.ofNone s, h.desktop, h.canvas⟩, h.focused⟩
  · split
    · exact h.setWindow rfl rfl fun hfits => hfits
    · split
      · exact h.click px py
      · exact h

/-! ## Alt-Tab -/

theorem Refers.cycleTarget (s : State) : Refers s (cycleTarget s) := by
  have hcycle : ∀ curZ, Refers s ((List.range maxWindows).foldl (cycleStep s curZ)
      ⟨i32 s.nextZIndex, none, i32 s.nextZIndex, none⟩).target ∧
      Refers s ((List.range maxWindows).foldl (cycleStep s curZ)
        ⟨i32 s.nextZIndex, none, i32 s.nextZIndex, none⟩).lowestWin := by
    intro curZ
    apply List.foldlRecOn (motive := fun c : Cycle => Refers s c.target ∧ Refers s c.lowestWin)
    · exact ⟨Refers.ofNone s, Refers.ofNone s⟩
    · intro c hc k hk
      have hlt := List.mem_range.mp hk
      unfold cycleStep
      split
      · rename_i hnormal
        have hk := Refers.ofSome hlt hnormal
        dsimp only
        split_ifs
        · exact ⟨hk, hk⟩
        · exact ⟨hc.1, hk⟩
        · exact ⟨hk, hc.2⟩
        · exact hc
      · exact hc
  have htop : Refers s ((List.range maxWindows).foldl (topStep s) (-1, none)).2 := by
    apply List.foldlRecOn (motive := fun best : Int × Option Nat => Refers s best.2)
    · exact Refers.ofNone s
    · intro best hbest k hk
      unfold topStep
      split
      · rename_i hpick
        simp only [Bool.and_eq_true] at hpick
        exact Refers.ofSome (List.mem_range.mp hk) hpick.1
      · exact hbest
  unfold Kwm.cycleTarget
  dsimp only
  split
  · split
    · rename_i i hi
      rw [← hi]
      exact htop
    · exact (hcycle _).1
  · split
    · rename_i i hi
      rw [← hi]
      exact (hcycle _).1
    · exact (hcycle _).2

theorem Sound.cycleFocus (h : Sound s) : Sound (kwmCycleFocusLocked s) := by
  have htarget := Refers.cycleTarget s
  unfold kwmCycleFocusLocked
  split
  · rename_i i hi
    rw [hi] at htarget
    apply h.restacked (show Restacked s { normalizeIfLarge (raise s i) with
      focusedWinId := some i } from (Restacked.raise s i).trans (Restacked.normalizeIfLarge _))
    · exact htarget
    · show Refers s (normalizeIfLarge (raise s i)).draggedWinId
      rw [(SameRest.normalizeIfLarge _).dragged]
      exact h.dragged
  · exact ⟨⟨h.dragged, h.desktop, h.canvas⟩, Refers.ofNone s⟩

theorem Sound.handleShortcut (h : Sound s) (mods : Nat) (released : Bool) (keyId : Nat) :
    Sound (kwmHandleShortcut s mods released keyId).2.1 := by
  unfold kwmHandleShortcut
  split
  · exact ⟨⟨h.dragged, h.desktop, h.canvas⟩, h.focused⟩
  · split
    · split
      · exact h
      · have hc := h.cycleFocus
        exact ⟨⟨hc.dragged, hc.desktop, hc.canvas⟩, hc.focused⟩
    · exact h

/-! ## Runs -/

theorem Sound.exec (h : Sound s) (op : Op) : Sound (exec s op) := by
  cases op with
  | createWindow owner block x y width height => exact h.createWindow owner block x y width height
  | createDesktop owner block => exact h.createDesktop owner block
  | setTitle task winId title => exact h.setTitle task winId title
  | activate winId => exact h.activateWindow winId
  | update task winId appBuffer => exact h.updateWindow task winId appBuffer
  | destroy winId => exact h.destroyWindow winId
  | destroyOf task => exact h.destroyWindowsOf task
  | destroyAll => exact h.destroyAllWindows
  | mouse px py leftDown leftUp => exact h.processMouse px py leftDown leftUp
  | shortcut mods released keyId => exact h.handleShortcut mods released keyId

theorem sound_boot (fbWidth fbHeight : Nat) : Sound (boot fbWidth fbHeight) := by
  refine ⟨⟨Refers.ofNone _, ?_, ?_⟩, Refers.ofNone _⟩
  · intro i _ j _ hactive
    cases hactive
  · intro i _
    rfl

theorem Reach.sound {P : State → Op → Prop} (h : Reach P s) : Sound s := by
  induction h with
  | boot fbWidth fbHeight => exact sound_boot fbWidth fbHeight
  | step op _ _ ih => exact ih.exec op

/-- After any calls, mouse packets and key presses, the focus and the drag name windows that are
there, there is at most one desktop, and every canvas has the size of its window. -/
theorem focus_safe (fbWidth fbHeight : Nat) (ops : List Op) :
    Sound (ops.foldl exec (boot fbWidth fbHeight)) := by
  apply List.foldlRecOn (motive := fun s : State => Sound s)
  · exact sound_boot fbWidth fbHeight
  · intro s h op _
    exact h.exec op

end Kyuzen.Kwm
