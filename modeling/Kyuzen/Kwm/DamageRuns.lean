import Kyuzen.Kwm.Damage

/-!
# Dirty rectangles along a run

For each operation: at a point that it has not marked, no window looks different, and the windows
there lie in the same order (`Quiet`). The conditions are those of the operation alone: what it
moves, raises or removes must paint nothing on the screen outside the marked area (`DamageSafe`).
-/

namespace Kyuzen.Kwm

variable {s s' : State} {i : Nat} {p : Point}

/-- A pixel whose full composition the operation changes lies in a rectangle that it has marked. -/
def DamageComplete (s : State) (op : Op) : Prop :=
  ∀ (font : Font) (base fb fb' : Frame) (p : Point), (screenRect s).Has p →
    fullRepaint font s base fb p ≠ fullRepaint font (exec s op) base fb' p →
    ∃ r ∈ (run s op).2, r.Has p

/-- The window that the operation puts in a new place. -/
def placed (s : State) : Op → Option Window
  | .createWindow owner block x y width height =>
    (creates block s width height).bind fun _ =>
      (displayBufferCreate width height block).map fun canvas =>
        openedWindow owner x y width height canvas
  | .createDesktop owner block =>
    (displayBufferCreate s.fbWidth s.fbHeight block).map fun canvas =>
      { openedWindow owner 0 0 s.fbWidth s.fbHeight canvas with desktop := true }
  | .mouse px py _ leftUp =>
    if leftUp then none else (dragTarget s).map fun i => (dragStep s i px py).1.windows i
  | _ => none

/-- The window that the operation raises, moves or removes. -/
def displaces (s : State) : Op → Option Nat
  | .activate winId => (slotOf winId).filter s.normal
  | .mouse px py leftDown leftUp =>
    if leftUp then none
    else (dragTarget s).or ((clicked s px py leftDown leftUp).filter s.normal)
  | .shortcut mods released keyId =>
    if altTabPressed mods released keyId then cycleTarget s else none
  | .destroy winId => (slotOf winId).filter fun i => (s.windows i).active
  | _ => none

/-- The operation is a click on the close button of a window that has an owner. -/
def ClosesWindow (s : State) : Op → Prop
  | .mouse px py leftDown leftUp => ∃ i owner,
    (clicked s px py leftDown leftUp).filter s.normal = some i ∧
      titlebarClick (s.windows i) px py = .close owner ∧ 0 ≤ owner
  | _ => False

structure DamageSafe (s : State) (op : Op) : Prop where
  stack : StackSafe (2 ^ 32 - 1) s op
  placed : ∀ w, placed s op = some w → w.Near ∧ Marked s w
  displaced : ∀ i, displaces s op = some i → Marked s (s.windows i)
  close : ¬ ClosesWindow s op

/-- All windows lie near the screen. -/
def AllNear (s : State) : Prop :=
  ∀ w < maxWindows, (s.windows w).active = true → (s.windows w).Near

/-- Nothing changes at the point but the order of windows, and that of windows elsewhere. -/
def Quiet (p : Point) (s : State) (r : Option Nat) (s' : State) : Prop :=
  (∀ w < maxWindows, UnchangedAt p s s' w) ∧
    ∀ i, r = some i → (s.windows i).active = true → ¬ (s.windows i).Covers p

theorem Quiet.of_none (h : ∀ w < maxWindows, UnchangedAt p s s' w) : Quiet p s none s' := by
  refine ⟨h, ?_⟩
  intro i hi
  cases hi

theorem Quiet.refl (p : Point) (s : State) : Quiet p s none s :=
  Quiet.of_none (unchanged_restacked (Restacked.refl s) (FocusQuiet.of_eq rfl))

theorem Restacked.dirtyRect (h : Restacked s s') (w : Nat) :
    (s'.windows w).dirtyRect = (s.windows w).dirtyRect := by
  obtain ⟨z, hz⟩ := h w
  rw [hz]
  rfl

theorem Restacked.active (h : Restacked s s') (w : Nat) :
    (s'.windows w).active = (s.windows w).active := by
  obtain ⟨z, hz⟩ := h w
  rw [hz]

/-! ## Windows are raised -/

theorem quiet_raised (hnear : AllNear s) (hr : Restacked s s') (hf : s'.focusedWinId = some i)
    (hi : i < maxWindows) (ha : (s.windows i).active = true) (hmark : Marked s (s.windows i))
    (hs : (screenRect s).Has p)
    (hun : Unmarked (kwmFrameDirty s' i ++
      if s.focusedWinId = some i then [] else frameDirtyOf s' s.focusedWinId) p) :
    Quiet p s (some i) s' := by
  have hmine : ¬ (s.windows i).dirtyRect.Has p := by
    rw [← hr.dirtyRect]
    exact unmarked_frame hun.left hi (by rw [hr.active]; exact ha)
  have hq : FocusQuiet p s s' := by
    apply focusQuiet_of_unmarked hnear hf
    · intro j hj _ _ _
      cases hj
      exact hmine
    · intro f hfocus hne hf ha
      have hright := hun.right
      rw [if_neg fun h => hne (h.symm.trans hfocus), hfocus] at hright
      rw [← hr.dirtyRect]
      exact unmarked_frame hright hf (by rw [hr.active]; exact ha)
  refine ⟨unchanged_restacked hr hq, ?_⟩
  intro j hj _ hp
  cases hj
  exact hmine (hmark p hs hp)

theorem quiet_activate (hnear : AllNear s) (winId : Int) (hsafe : DamageSafe s (.activate winId))
    (hs : (screenRect s).Has p) (hun : Unmarked (kwmActivateWindow s winId).2.2 p) :
    Quiet p s (raises s (.activate winId)) (kwmActivateWindow s winId).2.1 := by
  have hdisplaced := hsafe.displaced
  simp only [displaces] at hdisplaced
  simp only [raises]
  unfold kwmActivateWindow at hun ⊢
  cases hslot : slotOf winId with
  | none => exact Quiet.refl p s
  | some i =>
    rw [hslot] at hun hdisplaced
    by_cases hn : s.normal i = true
    · rw [Option.filter_some, if_pos hn] at hdisplaced ⊢
      dsimp only at hun ⊢
      rw [if_neg (by simp [hn])] at hun ⊢
      have hr : Restacked s { normalizeIfLarge (normalizeIfLarge (raise s i)) with
          focusedWinId := some i } :=
        ((Restacked.raise s i).trans (Restacked.normalizeIfLarge _)).trans
          (Restacked.normalizeIfLarge _)
      simp only [State.normal, Bool.and_eq_true] at hn
      exact quiet_raised hnear hr rfl (slotOf_lt hslot) hn.1 (hdisplaced i rfl) hs hun
    · rw [Option.filter_some, if_neg hn]
      dsimp only
      rw [if_pos (by simpa using hn)]
      exact Quiet.refl p s

/-- The focus goes, and no other window gets it. -/
theorem quiet_unfocus (hnear : AllNear s) (hw : s'.windows = s.windows)
    (hf : s'.focusedWinId = none) (hun : Unmarked (frameDirtyOf s' s.focusedWinId) p) :
    Quiet p s none s' := by
  apply Quiet.of_none
  have hr : Restacked s s' := by
    intro w
    rw [hw]
    exact ⟨(s.windows w).zIndex, rfl⟩
  apply unchanged_restacked hr
  apply focusQuiet_of_unmarked hnear hf
  · intro i hi
    cases hi
  · intro f hfocus _ hlt ha
    rw [hfocus] at hun
    rw [← hr.dirtyRect]
    exact unmarked_frame hun hlt (by rw [hr.active]; exact ha)

theorem quiet_click (hnear : AllNear s) {px py : Int}
    (hmark : ∀ i, (kwmHitTestLocked s px py).filter s.normal = some i → Marked s (s.windows i))
    (hclose : ∀ i owner, (kwmHitTestLocked s px py).filter s.normal = some i →
      titlebarClick (s.windows i) px py = .close owner → ¬ 0 ≤ owner)
    (hs : (screenRect s).Has p) (hun : Unmarked (clickStep s px py).2.2 p) :
    Quiet p s ((kwmHitTestLocked s px py).filter s.normal) (clickStep s px py).2.1 := by
  unfold clickStep at hun ⊢
  cases hhit : kwmHitTestLocked s px py with
  | none =>
    rw [hhit] at hun
    exact quiet_unfocus hnear rfl rfl hun
  | some i =>
    rw [hhit] at hun hmark hclose
    obtain ⟨hlt, ha⟩ := hitTest_active hhit
    dsimp only at hun ⊢
    by_cases hd : (s.windows i).desktop = true
    · rw [Option.filter_some, if_neg (by simp [State.normal, hd]), if_pos hd]
      exact Quiet.refl p s
    · rw [if_neg hd] at hun ⊢
      have hn : s.normal i = true := by simp [State.normal, ha, hd]
      rw [Option.filter_some, if_pos hn] at hmark hclose ⊢
      have hraised : ∀ s' : State, s'.windows = (raise s i).windows → s'.focusedWinId = some i →
          Unmarked (kwmFrameDirty s' i ++
            if s.focusedWinId = some i then [] else frameDirtyOf s' s.focusedWinId) p →
          Quiet p s (some i) s' := by
        intro s' hw hf hun
        have hr : Restacked s s' := by
          intro w
          rw [hw]
          exact Restacked.raise s i w
        exact quiet_raised hnear hr hf hlt ha (hmark i rfl) hs hun
      cases hbar : titlebarClick (s.windows i) px py with
      | close owner =>
        have howner := hclose i owner rfl hbar
        rw [hbar] at hun
        dsimp only at hun ⊢
        rw [if_neg howner] at hun ⊢
        exact hraised _ rfl rfl hun
      | drag =>
        rw [hbar] at hun
        exact hraised _ rfl rfl hun
      | none =>
        rw [hbar] at hun
        exact hraised _ rfl rfl hun

theorem quiet_cycle (hnear : AllNear s)
    (hmark : ∀ i, cycleTarget s = some i → Marked s (s.windows i)) (hs : (screenRect s).Has p)
    (hun : Unmarked (frameDirtyOf (kwmCycleFocusLocked s) (kwmCycleFocusLocked s).focusedWinId ++
      if s.focusedWinId = (kwmCycleFocusLocked s).focusedWinId then []
      else frameDirtyOf (kwmCycleFocusLocked s) s.focusedWinId) p) :
    Quiet p s (cycleTarget s) (kwmCycleFocusLocked s) := by
  have hrefers := Refers.cycleTarget s
  cases htarget : cycleTarget s with
  | none =>
    have hcycle : kwmCycleFocusLocked s = { s with focusedWinId := none } := by
      simp [kwmCycleFocusLocked, htarget]
    rw [hcycle] at hun ⊢
    refine quiet_unfocus hnear ?_ ?_ ?_
    · rfl
    · rfl
    have hright := hun.right
    by_cases hnone : s.focusedWinId = none
    · rw [hnone]
      intro r hr
      cases hr
    · rw [if_neg hnone] at hright
      exact hright
  | some i =>
    have hcycle : kwmCycleFocusLocked s = { normalizeIfLarge (raise s i) with
        focusedWinId := some i } := by
      simp [kwmCycleFocusLocked, htarget]
    obtain ⟨hlt, hn⟩ := hrefers i htarget
    rw [hcycle] at hun ⊢
    simp only [State.normal, Bool.and_eq_true] at hn
    have hr : Restacked s { normalizeIfLarge (raise s i) with focusedWinId := some i } :=
      (Restacked.raise s i).trans (Restacked.normalizeIfLarge _)
    exact quiet_raised hnear hr rfl hlt hn.1 (hmark i htarget) hs hun

theorem quiet_shortcut (hnear : AllNear s) (mods : Nat) (released : Bool) (keyId : Nat)
    (hsafe : DamageSafe s (.shortcut mods released keyId)) (hs : (screenRect s).Has p)
    (hun : Unmarked (kwmHandleShortcut s mods released keyId).2.2 p) :
    Quiet p s (raises s (.shortcut mods released keyId))
      (kwmHandleShortcut s mods released keyId).2.1 := by
  have hdisplaced := hsafe.displaced
  simp only [displaces] at hdisplaced
  simp only [raises]
  have hsame : ∀ b, Quiet p s none { s with altTabActive := b } := by
    intro b
    apply Quiet.of_none
    exact unchanged_restacked (fun w => ⟨(s.windows w).zIndex, rfl⟩) (FocusQuiet.of_eq rfl)
  unfold kwmHandleShortcut at hun ⊢
  cases hpress : altTabPressed mods released keyId with
  | true =>
    rw [hpress] at hdisplaced
    rw [if_pos rfl] at hdisplaced ⊢
    simp only [altTabPressed, Bool.and_eq_true, bne_iff_ne, beq_iff_eq, Bool.not_eq_true'] at hpress
    rw [if_neg fun hend => hpress.1.1 hend.2, if_pos hpress.1,
      if_neg (by simp [hpress.2])] at hun ⊢
    obtain ⟨hall, hmine⟩ := quiet_cycle hnear hdisplaced hs hun
    exact ⟨hall, hmine⟩
  | false =>
    rw [if_neg Bool.false_ne_true]
    by_cases hend : s.altTabActive = true ∧ mods &&& keyModAlt = 0
    · rw [if_pos hend]
      exact hsame false
    · rw [if_neg hend]
      by_cases hkeys : mods &&& keyModAlt ≠ 0 ∧ keyId = kbdScanTab
      · cases released with
        | true =>
          rw [if_pos hkeys]
          exact Quiet.refl p s
        | false =>
          simp [altTabPressed, hkeys] at hpress
      · rw [if_neg hkeys]
        exact Quiet.refl p s

/-! ## Windows come, go and move -/

theorem quiet_createWindow (hnear : AllNear s) (owner : Int)
    (block : Option (Nat → Nat)) (x y : Int) (width height : Nat)
    (hsafe : DamageSafe s (.createWindow owner block x y width height))
    (hs : (screenRect s).Has p)
    (hun : Unmarked (kwmCreateWindow owner block s x y width height).2.2 p) :
    Quiet p s (raises s (.createWindow owner block x y width height))
      (kwmCreateWindow owner block s x y width height).2.1 := by
  have hresult := createWindow_result owner block s x y width height
  have hplaced := hsafe.placed
  simp only [placed] at hplaced
  simp only [raises]
  obtain heq | ⟨i, canvas, hi, hcanvas, -, -, heq⟩ :=
    createWindow_cases owner block s x y width height
  · rw [heq] at hresult ⊢
    rw [← hresult]
    exact Quiet.refl p s
  · rw [heq] at hun hresult ⊢
    rw [← hresult] at hplaced ⊢
    obtain ⟨hlt, hfree⟩ := freeSlot_spec hi
    obtain ⟨hnew, hmark⟩ := hplaced (openedWindow owner x y width height canvas)
      (by simp [hcanvas])
    have hr := createdAt_restacked s i owner x y width height canvas
    -- the slot was free, so that no window loses its place
    have hinactive : (s.windows i).active = true → False := by
      rw [hfree]
      exact Bool.false_ne_true
    have hmine : ¬ ((createdAt s i owner x y width height canvas).windows i).Covers p := by
      intro hp
      obtain ⟨z, hz⟩ := hr i
      rw [setWindow_self] at hz
      have hdirty := unmarked_frame hun.left hlt (by rw [hz]; rfl)
      rw [hz] at hdirty hp
      exact hdirty (hmark p hs hp)
    have hother : ∀ w, w ≠ i → ∃ z, (createdAt s i owner x y width height canvas).windows w =
        { s.windows w with zIndex := z } := by
      intro w hw
      obtain ⟨z, hz⟩ := hr w
      rw [setWindow_ne s _ hw] at hz
      exact ⟨z, hz⟩
    have hq : FocusQuiet p s (createdAt s i owner x y width height canvas) := by
      refine focusQuiet_of_unmarked hnear (r := some i) rfl ?_ ?_
      · intro j hj _ _ ha
        cases hj
        exact absurd ha hinactive
      · intro f hfocus hne hf ha
        have hfi : f ≠ i := fun h => hne (by rw [h])
        have hright := hun.right
        rw [if_neg fun h => hne (h.symm.trans hfocus), hfocus] at hright
        obtain ⟨z, hz⟩ := hother f hfi
        have hdirty := unmarked_frame hright hf (by rw [hz]; exact ha)
        rw [hz] at hdirty
        exact hdirty
    refine ⟨unchanged_but hother hq (fun ha => absurd ha hinactive) fun _ => hmine, ?_⟩
    intro j hj ha
    cases hj
    exact absurd ha hinactive

/-- A point of the screen lies in the rectangle of the screen. -/
theorem unmarked_screen (hun : Unmarked [screenRect s] p) (hs : (screenRect s).Has p) : False :=
  hun _ (List.mem_singleton_self _) hs

theorem quiet_createDesktop (owner : Int) (block : Option (Nat → Nat))
    (hs : (screenRect s).Has p) (hun : Unmarked (kwmCreateDesktop owner block s).2.2 p) :
    (kwmCreateDesktop owner block s).2.1 = s := by
  obtain heq | ⟨i, canvas, -, -, -, heq⟩ := createDesktop_cases owner block s
  · rw [heq]
  · rw [heq] at hun
    exact (unmarked_screen hun hs).elim

theorem quiet_setTitle (hnear : AllNear s) (task winId : Int) (title : Option (List UInt8))
    (hun : Unmarked (kwmSetTitle task s winId title).2.2 p) :
    Quiet p s none (kwmSetTitle task s winId title).2.1 := by
  unfold kwmSetTitle at hun ⊢
  split
  · rename_i i text hslot
    rw [hslot] at hun
    dsimp only at hun
    split
    · exact Quiet.refl p s
    · rename_i howner
      rw [if_neg howner] at hun
      have ha : (s.windows i).active = true := by
        simp only [not_or, Bool.not_eq_false] at howner
        exact howner.1
      have hlt := slotOf_lt hslot
      apply Quiet.of_none
      intro w hw
      by_cases hwi : w = i
      · subst hwi
        have hdirty := unmarked_frame hun hlt (by rw [setWindow_self]; exact ha)
        rw [setWindow_self] at hdirty
        left
        dsimp only
        rw [setWindow_self]
        refine ⟨ha, ha, rfl, rfl, rfl, rfl, rfl, rfl, fun _ => rfl, ?_⟩
        intro hd hp
        exact absurd ((hnear w hlt ha).frame_marked (Or.inr ⟨hd, hp⟩)) hdirty
      · exact UnchangedAt.restacked (z := (s.windows w).zIndex) (setWindow_ne s _ hwi)
          (FocusQuiet.of_eq rfl) hw
  · exact Quiet.refl p s

theorem quiet_update (hnear : AllNear s) (task winId : Int) (appBuffer : Option (Nat → Nat))
    (hun : Unmarked (kwmUpdateWindow task s winId appBuffer).2 p) :
    Quiet p s none (kwmUpdateWindow task s winId appBuffer).1 := by
  unfold kwmUpdateWindow at hun ⊢
  split
  · rename_i i src hslot
    rw [hslot] at hun
    dsimp only at hun ⊢
    split
    · exact Quiet.refl p s
    · rename_i canvas hcanvas
      rw [hcanvas] at hun
      dsimp only at hun
      split
      · exact Quiet.refl p s
      · rename_i howner
        rw [if_neg howner] at hun
        have ha : (s.windows i).active = true := by
          simp only [not_or, Bool.not_eq_false] at howner
          exact howner.1
        have hlt := slotOf_lt hslot
        have hni := hnear i hlt ha
        have hcontent : ¬ (s.windows i).contentRect.Has p := by
          have hrect := hun _ (List.mem_singleton_self _)
          have hy := hni.y
          have htb := (s.windows i).tb_le
          rw [i32_eq (by omega) (by omega)] at hrect
          exact hrect
        apply Quiet.of_none
        intro w hw
        by_cases hwi : w = i
        · subst hwi
          left
          dsimp only
          rw [setWindow_self]
          refine ⟨ha, ha, rfl, rfl, rfl, rfl, rfl, ?_, ?_, fun _ _ => ⟨rfl, rfl⟩⟩
          · rw [hcanvas]
            rfl
          · intro hp
            exact absurd hp hcontent
        · exact UnchangedAt.restacked (z := (s.windows w).zIndex) (setWindow_ne s _ hwi)
            (FocusQuiet.of_eq rfl) hw
  · exact Quiet.refl p s

theorem quiet_freeSlot {r : Option Nat} (hnear : AllNear s) (hi : i < maxWindows)
    (ha : (s.windows i).active = true) (hmark : Marked s (s.windows i))
    (hs : (screenRect s).Has p)
    (hun : ¬ (frameDirtyArea (s.windows i).x (s.windows i).y (s.windows i).width
      (u32 ((s.windows i).height + titlebarH))).Has p)
    (hw : s'.windows = (kwmFreeSlot s i).windows) (hf : s'.focusedWinId = r)
    (hnew : ∀ j, r = some j → s.focusedWinId ≠ some j → j < maxWindows →
      (s.windows j).active = true → ¬ (s.windows j).dirtyRect.Has p)
    (hold : ∀ f, s.focusedWinId = some f → r ≠ some f → f = i) : Quiet p s none s' := by
  have htitle : titlebarH = 24 := rfl
  have hni := hnear i hi ha
  have hmine : ¬ (s.windows i).dirtyRect.Has p := by
    rw [hni.frameDirtyArea (by have := hni.height; omega)] at hun
    rw [hni.dirtyRect]
    have := (s.windows i).tb_le
    simp only [Rect.Has] at hun ⊢
    omega
  apply Quiet.of_none
  refine unchanged_but (i := i) ?_ ?_ ?_ ?_
  · intro w hwi
    rw [hw]
    exact ⟨_, setWindow_ne s _ hwi⟩
  · apply focusQuiet_of_unmarked hnear hf hnew
    intro f hfocus hne _ _
    rw [hold f hfocus hne]
    exact hmine
  · intro _ hp
    exact hmine (hmark p hs hp)
  · intro ha'
    rw [hw] at ha'
    simp [kwmFreeSlot] at ha'

theorem quiet_destroy (hnear : AllNear s) (winId : Int) (hsafe : DamageSafe s (.destroy winId))
    (hs : (screenRect s).Has p) (hun : Unmarked (kwmDestroyWindow s winId).2 p) :
    Quiet p s none (kwmDestroyWindow s winId).1 := by
  have hdisplaced := hsafe.displaced
  simp only [displaces] at hdisplaced
  unfold kwmDestroyWindow at hun ⊢
  cases hslot : slotOf winId with
  | none => exact Quiet.refl p s
  | some i =>
    rw [hslot] at hun hdisplaced
    dsimp only at hun ⊢
    by_cases hinactive : (s.windows i).active = false
    · rw [if_pos hinactive]
      exact Quiet.refl p s
    · have ha : (s.windows i).active = true := by simpa using hinactive
      rw [Option.filter_some, if_pos ha] at hdisplaced
      rw [if_neg hinactive] at hun ⊢
      have hlt := slotOf_lt hslot
      by_cases hfocus : s.focusedWinId = some i
      · rw [if_pos hfocus] at hun ⊢
        refine quiet_freeSlot hnear hlt ha (hdisplaced i rfl) hs (hun _ List.mem_cons_self) rfl rfl
          ?_ ?_
        · intro j hj _ hjlt hja
          have hji : j ≠ i := by
            rintro rfl
            have := (Refers.refocus (kwmFreeSlot s j) j hj).2
            simp [State.normal, kwmFreeSlot] at this
          have htail : Unmarked (kwmFrameDirty (kwmRefocusLocked (kwmFreeSlot s i)) j) p := by
            intro r hr
            apply hun r (List.mem_cons_of_mem _ _)
            rw [show (kwmRefocusLocked (kwmFreeSlot s i)).focusedWinId = some j from hj]
            exact hr
          have hsame : (kwmRefocusLocked (kwmFreeSlot s i)).windows j = s.windows j :=
            setWindow_ne s _ hji
          have hdirty := unmarked_frame htail hjlt (by rw [hsame]; exact hja)
          rw [hsame] at hdirty
          exact hdirty
        · intro f hf _
          rw [hfocus] at hf
          exact (Option.some.inj hf).symm
      · rw [if_neg hfocus] at hun ⊢
        refine quiet_freeSlot hnear hlt ha (hdisplaced i rfl) hs (hun _ List.mem_cons_self) rfl rfl
          ?_ ?_
        · intro j hj hne
          exact absurd hj hne
        · intro f hf hne
          exact absurd hf hne

theorem quiet_drag (hd : (s.windows i).desktop = false) (px py : Int)
    (hmark : Marked s (s.windows i))
    (hmark' : Marked s ((dragStep s i px py).1.windows i)) (hs : (screenRect s).Has p)
    (hun : Unmarked (dragStep s i px py).2 p) : Quiet p s none (dragStep s i px py).1 := by
  have htb : (s.windows i).tb = titlebarH := by simp [Window.tb, hd]
  have hmoved : ((dragStep s i px py).1.windows i).tb = titlebarH := by
    simp [dragStep, Window.tb, hd]
  have hmine : ¬ (s.windows i).dirtyRect.Has p := by
    have := hun _ List.mem_cons_self
    rw [Window.dirtyRect, htb]
    exact this
  have hthere : ¬ ((dragStep s i px py).1.windows i).dirtyRect.Has p := by
    have := hun _ (List.mem_cons_of_mem _ (List.mem_singleton_self _))
    rw [Window.dirtyRect, hmoved]
    simp only [dragStep, setWindow_self]
    exact this
  apply Quiet.of_none
  refine unchanged_but (i := i) ?_ ?_ ?_ ?_
  · intro w hwi
    exact ⟨_, setWindow_ne s _ hwi⟩
  · exact FocusQuiet.of_eq rfl
  · intro _ hp
    exact hmine (hmark p hs hp)
  · intro _ hp
    exact hthere (hmark' p hs hp)

theorem dragTarget_refers (hso : Sound s) (h : dragTarget s = some i) :
    i < maxWindows ∧ s.normal i = true :=
  hso.dragged i (Option.filter_eq_some_iff.mp h).1

theorem quiet_mouse (hnear : AllNear s) (hso : Sound s) (px py : Int) (leftDown leftUp : Bool)
    (hsafe : DamageSafe s (.mouse px py leftDown leftUp)) (hs : (screenRect s).Has p)
    (hun : Unmarked (kwmProcessMouse s px py leftDown leftUp).2.2 p) :
    Quiet p s (raises s (.mouse px py leftDown leftUp))
      (kwmProcessMouse s px py leftDown leftUp).2.1 := by
  have hdisplaced := hsafe.displaced
  have hplaced := hsafe.placed
  have hclose := hsafe.close
  simp only [displaces] at hdisplaced
  simp only [placed] at hplaced
  simp only [ClosesWindow, not_exists, not_and] at hclose
  simp only [raises]
  unfold kwmProcessMouse at hun ⊢
  cases leftUp with
  | true =>
    apply Quiet.of_none
    exact unchanged_restacked (fun w => ⟨(s.windows w).zIndex, rfl⟩) (FocusQuiet.of_eq rfl)
  | false =>
    rw [if_neg Bool.false_ne_true] at hun hdisplaced hplaced ⊢
    cases hdrag : dragTarget s with
    | some i =>
      rw [hdrag] at hun hdisplaced hplaced
      have hclick : clicked s px py leftDown false = none := by simp [clicked, hdrag]
      rw [hclick]
      obtain ⟨hlt, hn⟩ := dragTarget_refers hso hdrag
      simp only [State.normal, Bool.and_eq_true, Bool.not_eq_true'] at hn
      exact quiet_drag hn.2 px py (hdisplaced i rfl) (hplaced _ rfl).2 hs hun
    | none =>
      rw [hdrag] at hun hdisplaced
      cases leftDown with
      | false =>
        have hclick : clicked s px py false false = none := by simp [clicked]
        rw [hclick]
        exact Quiet.refl p s
      | true =>
        have hclick : clicked s px py true false = kwmHitTestLocked s px py := by
          simp [clicked, hdrag]
        rw [hclick] at hdisplaced hclose ⊢
        exact quiet_click hnear hdisplaced hclose hs hun

/-! ## Runs -/

/-- Every window was there before, in the same place. -/
def InPlace (s s' : State) : Prop :=
  ∀ w, (s'.windows w).active = true → (s.windows w).active = true ∧
    (s'.windows w).x = (s.windows w).x ∧ (s'.windows w).y = (s.windows w).y ∧
    (s'.windows w).width = (s.windows w).width ∧ (s'.windows w).height = (s.windows w).height

theorem AllNear.inPlace (h : AllNear s) (hp : InPlace s s') : AllNear s' := by
  intro w hw ha
  obtain ⟨ha', hx, hy, hwidth, hheight⟩ := hp w ha
  have hn := h w hw ha'
  exact ⟨hx ▸ hn.x, hy ▸ hn.y, hwidth ▸ hn.width, hheight ▸ hn.height⟩

theorem InPlace.of_eq (h : s'.windows = s.windows) : InPlace s s' := by
  intro w ha
  rw [h] at ha ⊢
  exact ⟨ha, rfl, rfl, rfl, rfl⟩

theorem InPlace.trans {s'' : State} (h : InPlace s s') (h' : InPlace s' s'') : InPlace s s'' := by
  intro w ha
  obtain ⟨ha', hx', hy', hw', hh'⟩ := h' w ha
  obtain ⟨ha₀, hx, hy, hw, hh⟩ := h w ha'
  exact ⟨ha₀, hx'.trans hx, hy'.trans hy, hw'.trans hw, hh'.trans hh⟩

theorem Restacked.inPlace (h : Restacked s s') : InPlace s s' := by
  intro w ha
  obtain ⟨z, hz⟩ := h w
  rw [hz] at ha ⊢
  exact ⟨ha, rfl, rfl, rfl, rfl⟩

theorem InPlace.setWindow {w : Window} (h : w.active = true → (s.windows i).active = true ∧
    w.x = (s.windows i).x ∧ w.y = (s.windows i).y ∧ w.width = (s.windows i).width ∧
    w.height = (s.windows i).height) : InPlace s (setWindow s i w) := by
  intro v ha
  by_cases hv : v = i
  · subst hv
    rw [setWindow_self] at ha ⊢
    exact h ha
  · rw [setWindow_ne s w hv] at ha ⊢
    exact ⟨ha, rfl, rfl, rfl, rfl⟩

theorem freeSlot_inPlace (s : State) (i : Nat) : InPlace s (kwmFreeSlot s i) := by
  intro w ha
  have hne : w ≠ i := by
    rintro rfl
    simp [kwmFreeSlot] at ha
  have hsame : (kwmFreeSlot s i).windows w = s.windows w := setWindow_ne s _ hne
  rw [hsame] at ha ⊢
  exact ⟨ha, rfl, rfl, rfl, rfl⟩

theorem destroyUpTo_inPlace (task : Int) (s : State) (n : Nat) :
    InPlace s (destroyUpTo task s n).1 := by
  induction n with
  | zero => exact InPlace.of_eq rfl
  | succ n ih =>
    simp only [destroyUpTo]
    split
    · exact ih.trans (freeSlot_inPlace _ n)
    · exact ih

theorem destroyAllUpTo_inPlace (s : State) (n : Nat) : InPlace s (destroyAllUpTo s n) := by
  induction n with
  | zero => exact InPlace.of_eq rfl
  | succ n ih =>
    simp only [destroyAllUpTo]
    split
    · exact ih.trans (freeSlot_inPlace _ n)
    · exact ih

/-- One window is put in a place near the screen. -/
theorem AllNear.put (h : AllNear s) {w : Window} (hw : w.Near) : AllNear (setWindow s i w) := by
  intro v hv ha
  by_cases hvi : v = i
  · subst hvi
    rw [setWindow_self]
    exact hw
  · rw [setWindow_ne s w hvi] at ha ⊢
    exact h v hv ha

theorem click_inPlace (px py : Int) : InPlace s (clickStep s px py).2.1 := by
  unfold clickStep
  split
  · exact InPlace.of_eq rfl
  · rename_i i _
    split
    · exact InPlace.of_eq rfl
    · have hr : ∀ s' : State, s'.windows = (raise s i).windows → InPlace s s' := fun s' hw =>
        (Restacked.raise s i).inPlace.trans (InPlace.of_eq hw)
      dsimp only
      split
      · split <;> exact hr _ rfl
      · exact hr _ rfl
      · exact hr _ rfl

theorem cycle_inPlace (s : State) : InPlace s (kwmCycleFocusLocked s) := by
  unfold kwmCycleFocusLocked
  split
  · exact ((Restacked.raise s _).trans (Restacked.normalizeIfLarge _)).inPlace.trans
      (InPlace.of_eq rfl)
  · exact InPlace.of_eq rfl

theorem setTitle_inPlace (task : Int) (s : State) (winId : Int)
    (title : Option (List UInt8)) :
    InPlace s (kwmSetTitle task s winId title).2.1 := by
  unfold kwmSetTitle
  split
  · split
    · exact InPlace.of_eq rfl
    · exact InPlace.setWindow fun ha => ⟨ha, rfl, rfl, rfl, rfl⟩
  · exact InPlace.of_eq rfl

theorem activate_inPlace (s : State) (winId : Int) :
    InPlace s (kwmActivateWindow s winId).2.1 := by
  unfold kwmActivateWindow
  split
  · exact InPlace.of_eq rfl
  · split
    · exact InPlace.of_eq rfl
    · exact (((Restacked.raise s _).trans (Restacked.normalizeIfLarge _)).trans
        (Restacked.normalizeIfLarge _)).inPlace.trans (InPlace.of_eq rfl)

theorem update_inPlace (task : Int) (s : State) (winId : Int) (appBuffer : Option (Nat → Nat)) :
    InPlace s (kwmUpdateWindow task s winId appBuffer).1 := by
  unfold kwmUpdateWindow
  split
  · dsimp only
    split
    · exact InPlace.of_eq rfl
    · split
      · exact InPlace.of_eq rfl
      · exact InPlace.setWindow fun ha => ⟨ha, rfl, rfl, rfl, rfl⟩
  · exact InPlace.of_eq rfl

theorem destroy_inPlace (s : State) (winId : Int) : InPlace s (kwmDestroyWindow s winId).1 := by
  unfold kwmDestroyWindow
  split
  · exact InPlace.of_eq rfl
  · split
    · exact InPlace.of_eq rfl
    · dsimp only
      split
      · exact (freeSlot_inPlace s _).trans (InPlace.of_eq rfl)
      · exact freeSlot_inPlace s _

theorem destroyOf_inPlace (s : State) (task : Int) :
    InPlace s (kwmDestroyWindowsOf s task).1 := by
  have hloop := destroyUpTo_inPlace task s maxWindows
  simp only [kwmDestroyWindowsOf]
  split
  · exact hloop.trans (InPlace.of_eq rfl)
  · exact hloop

theorem shortcut_inPlace (s : State) (mods : Nat) (released : Bool) (keyId : Nat) :
    InPlace s (kwmHandleShortcut s mods released keyId).2.1 := by
  unfold kwmHandleShortcut
  split
  · exact InPlace.of_eq rfl
  · split
    · split
      · exact InPlace.of_eq rfl
      · exact (cycle_inPlace s).trans (InPlace.of_eq rfl)
    · exact InPlace.of_eq rfl

theorem AllNear.exec (h : AllNear s) {op : Op} (hsafe : DamageSafe s op) :
    AllNear (exec s op) := by
  cases op with
  | createWindow owner block x y width height =>
    have hplaced := hsafe.placed
    simp only [placed, ← createWindow_result owner block s x y width height] at hplaced
    show AllNear (kwmCreateWindow owner block s x y width height).2.1
    obtain heq | ⟨i, canvas, hi, hcanvas, -, -, heq⟩ :=
      createWindow_cases owner block s x y width height
    · rw [heq]
      exact h
    · rw [heq] at hplaced ⊢
      have hnew := (hplaced (openedWindow owner x y width height canvas) (by simp [hcanvas])).1
      exact (h.put hnew).inPlace (createdAt_restacked s i owner x y width height canvas).inPlace
  | createDesktop owner block =>
    have hplaced := hsafe.placed
    simp only [placed] at hplaced
    show AllNear (kwmCreateDesktop owner block s).2.1
    obtain heq | ⟨i, canvas, -, hcanvas, -, heq⟩ := createDesktop_cases owner block s
    · rw [heq]
      exact h
    · rw [heq]
      apply h.put
      exact (hplaced _ (by simp [hcanvas])).1
  | setTitle task winId title => exact h.inPlace (setTitle_inPlace task s winId title)
  | activate winId => exact h.inPlace (activate_inPlace s winId)
  | update task winId appBuffer => exact h.inPlace (update_inPlace task s winId appBuffer)
  | destroy winId => exact h.inPlace (destroy_inPlace s winId)
  | destroyOf task => exact h.inPlace (destroyOf_inPlace s task)
  | destroyAll =>
    exact h.inPlace ((destroyAllUpTo_inPlace s maxWindows).trans (InPlace.of_eq rfl))
  | mouse px py leftDown leftUp =>
    have hplaced := hsafe.placed
    simp only [placed] at hplaced
    show AllNear (kwmProcessMouse s px py leftDown leftUp).2.1
    unfold kwmProcessMouse
    cases leftUp with
    | true => exact h.inPlace (InPlace.of_eq rfl)
    | false =>
      rw [if_neg Bool.false_ne_true] at hplaced ⊢
      cases hdrag : dragTarget s with
      | some i =>
        rw [hdrag] at hplaced
        have hnew : ((dragStep s i px py).1.windows i).Near := (hplaced _ rfl).1
        rw [show (dragStep s i px py).1.windows i = _ from setWindow_self s i _] at hnew
        exact h.put hnew
      | none =>
        dsimp only
        split
        · exact h.inPlace (click_inPlace px py)
        · exact h
  | shortcut mods released keyId => exact h.inPlace (shortcut_inPlace s mods released keyId)

theorem normalizeIfLarge_screen (s : State) : screenRect (normalizeIfLarge s) = screenRect s := by
  have h := SameRest.normalizeIfLarge s
  simp [screenRect, h.fbWidth, h.fbHeight]

theorem destroyUpTo_screen (task : Int) (s : State) (n : Nat) :
    screenRect (destroyUpTo task s n).1 = screenRect s := by
  induction n with
  | zero => rfl
  | succ n ih =>
    simp only [destroyUpTo]
    split
    · exact ih
    · exact ih

theorem destroyAllUpTo_screen (s : State) (n : Nat) :
    screenRect (destroyAllUpTo s n) = screenRect s := by
  induction n with
  | zero => rfl
  | succ n ih =>
    simp only [destroyAllUpTo]
    split
    · exact ih
    · exact ih

theorem clickStep_screen (s : State) (px py : Int) :
    screenRect (clickStep s px py).2.1 = screenRect s := by
  unfold clickStep
  split
  · rfl
  · split
    · rfl
    · dsimp only
      split
      · split <;> rfl
      · rfl
      · rfl

theorem cycleFocusLocked_screen (s : State) :
    screenRect (kwmCycleFocusLocked s) = screenRect s := by
  unfold kwmCycleFocusLocked
  split
  · exact normalizeIfLarge_screen _
  · rfl

/-- The size of the screen does not change. -/
theorem exec_screen (s : State) (op : Op) : screenRect (exec s op) = screenRect s := by
  cases op with
  | createWindow owner block x y width height =>
    show screenRect (kwmCreateWindow owner block s x y width height).2.1 = _
    obtain heq | ⟨i, canvas, -, -, -, -, heq⟩ :=
      createWindow_cases owner block s x y width height
    · rw [heq]
    · rw [heq]
      exact normalizeIfLarge_screen _
  | createDesktop owner block =>
    show screenRect (kwmCreateDesktop owner block s).2.1 = _
    obtain heq | ⟨i, canvas, -, -, -, heq⟩ := createDesktop_cases owner block s
    · rw [heq]
    · rw [heq]
      rfl
  | setTitle task winId title =>
    show screenRect (kwmSetTitle task s winId title).2.1 = _
    unfold kwmSetTitle
    split
    · split <;> rfl
    · rfl
  | activate winId =>
    show screenRect (kwmActivateWindow s winId).2.1 = _
    unfold kwmActivateWindow
    split
    · rfl
    · split
      · rfl
      · exact (normalizeIfLarge_screen _).trans (normalizeIfLarge_screen _)
  | update task winId appBuffer =>
    show screenRect (kwmUpdateWindow task s winId appBuffer).1 = _
    unfold kwmUpdateWindow
    split
    · dsimp only
      split
      · rfl
      · split <;> rfl
    · rfl
  | destroy winId =>
    show screenRect (kwmDestroyWindow s winId).1 = _
    unfold kwmDestroyWindow
    split
    · rfl
    · split
      · rfl
      · dsimp only
        split <;> rfl
  | destroyOf task =>
    show screenRect (kwmDestroyWindowsOf s task).1 = _
    have hloop := destroyUpTo_screen task s maxWindows
    simp only [kwmDestroyWindowsOf]
    split
    · exact hloop
    · exact hloop
  | destroyAll =>
    exact destroyAllUpTo_screen s maxWindows
  | mouse px py leftDown leftUp =>
    show screenRect (kwmProcessMouse s px py leftDown leftUp).2.1 = _
    unfold kwmProcessMouse
    split
    · rfl
    · split
      · rfl
      · split
        · exact clickStep_screen s px py
        · rfl
  | shortcut mods released keyId =>
    show screenRect (kwmHandleShortcut s mods released keyId).2.1 = _
    unfold kwmHandleShortcut
    split
    · rfl
    · split
      · split
        · rfl
        · exact cycleFocusLocked_screen s
      · rfl

/-- At a point that is not marked, nothing changes, or nothing has happened at all. -/
theorem quiet_exec (hnear : AllNear s) (hso : Sound s) {op : Op} (hsafe : DamageSafe s op)
    (hs : (screenRect s).Has p) (hun : Unmarked (run s op).2 p) :
    Quiet p s (raises s op) (exec s op) := by
  cases op with
  | createWindow owner block x y width height =>
    exact quiet_createWindow hnear owner block x y width height hsafe hs hun
  | createDesktop owner block =>
    show Quiet p s none (kwmCreateDesktop owner block s).2.1
    rw [quiet_createDesktop owner block hs hun]
    exact Quiet.refl p s
  | setTitle task winId title => exact quiet_setTitle hnear task winId title hun
  | activate winId => exact quiet_activate hnear winId hsafe hs hun
  | update task winId appBuffer => exact quiet_update hnear task winId appBuffer hun
  | destroy winId => exact quiet_destroy hnear winId hsafe hs hun
  | destroyOf task => exact (unmarked_screen hun hs).elim
  | destroyAll => exact (unmarked_screen hun hs).elim
  | mouse px py leftDown leftUp => exact quiet_mouse hnear hso px py leftDown leftUp hsafe hs hun
  | shortcut mods released keyId =>
    exact quiet_shortcut hnear mods released keyId hsafe hs hun

/-- Windows at the point keep their order: only a window elsewhere may have been raised. -/
theorem StackStep.keepsOrder {r : Option Nat} (h : StackStep s r s') (hst : Stacked s)
    (hst' : Stacked s') (hq : Quiet p s r s') : KeepsOrder p s s' := by
  have hactive : ∀ w < maxWindows, (s.windows w).active = true → (s.windows w).Covers p →
      (s'.windows w).active = true := by
    intro w hw ha hp
    obtain ⟨-, ha', -⟩ | ⟨hnot, -⟩ := hq.1 w hw
    · exact ha'
    · exact absurd hp (hnot ha)
  intro v hv w hw hva hvp hwa hwp hlt
  obtain ⟨-, ht⟩ | ⟨i, s₁, rfl, hpush, hren⟩ := h
  · rw [(ht.kept v (hactive v hv hva hvp)).2.2, (ht.kept w (hactive w hw hwa hwp)).2.2]
    exact hlt
  · have hvi : v ≠ i := by
      rintro rfl
      exact hq.2 v rfl hva hvp
    have hwi : w ≠ i := by
      rintro rfl
      exact hq.2 w rfl hwa hwp
    have hwdesk : (s.windows w).desktop = false := by
      cases hd : (s.windows w).desktop with
      | true =>
        have := hst.desktop w hw hwa hd
        omega
      | false => rfl
    have hwn : s₁.normal w = true := by
      rw [hpush.normal_ne hwi]
      simp [State.normal, hwa, hwdesk]
    cases hvdesk : (s.windows v).desktop with
    | true =>
      -- the desktop stays below
      obtain ⟨z, hz⟩ := hren.restacked v
      rw [hpush.others v hvi] at hz
      have hzero := hst'.desktop v hv (by rw [hz]; exact hva) (by rw [hz]; exact hvdesk)
      have hpos := (hst'.range w hw (by rw [hren.restacked.normal]; exact hwn)).1
      omega
    | false =>
      have hvn : s₁.normal v = true := by
        rw [hpush.normal_ne hvi]
        simp [State.normal, hva, hvdesk]
      apply hren.mono v hv w hw hvn hwn
      rw [hpush.others v hvi, hpush.others w hwi]
      exact hlt

theorem Reach.allNear (h : Reach DamageSafe s) : AllNear s := by
  induction h with
  | boot fbWidth fbHeight =>
    intro w _ ha
    cases ha
  | step op _ hsafe ih => exact ih.exec hsafe

theorem Reach.stackedOfDamageSafe (h : Reach DamageSafe s) : Stacked s := by
  induction h with
  | boot fbWidth fbHeight => exact stacked_boot fbWidth fbHeight
  | step op _ hsafe ih => exact (ih.exec (le_refl _) hsafe.stack).1

/-- In a run whose operations all meet the condition, every operation marks every pixel whose
full composition it changes. -/
theorem damage_complete (h : Reach DamageSafe s) (op : Op) (hsafe : DamageSafe s op) :
    DamageComplete s op := by
  intro font base fb fb' p hs hne
  by_contra hmarks
  have hun : Unmarked (run s op).2 p := by
    intro r hr hp
    exact hmarks ⟨r, hr, hp⟩
  have hst := h.stackedOfDamageSafe
  have hst' := (hst.exec (le_refl _) hsafe.stack).1
  have hq := quiet_exec h.allNear h.sound hsafe hs hun
  apply hne
  apply composition_eq hst h.sound hst' (h.sound.exec op) (exec_screen s op) hs hq.1
  obtain hstep | ⟨owner, block, rfl⟩ := exec_stackStep (le_refl _) hsafe.stack
  · exact hstep.keepsOrder hst hst' hq
  · -- a new desktop marks the whole screen, so there is none
    show KeepsOrder p s (kwmCreateDesktop owner block s).2.1
    rw [quiet_createDesktop owner block hs hun]
    exact fun v _ w _ _ _ _ _ hlt => hlt

/-- A window whose shadow ends below the screen. -/
theorem damage_complete_low :
    DamageSafe (boot 200 100) (.createWindow 1 (some fun _ => 0) 10 40 100 30) ∧
      DamageComplete (boot 200 100) (.createWindow 1 (some fun _ => 0) 10 40 100 30) := by
  have hsafe : DamageSafe (boot 200 100) (.createWindow 1 (some fun _ => 0) 10 40 100 30) := by
    refine ⟨fun _ _ => by decide, ?_, ?_, ?_⟩
    · intro w hw
      obtain rfl : openedWindow 1 10 40 100 30 ⟨3000, fun _ => 0⟩ = w := Option.some.inj hw
      have hnear : (openedWindow 1 10 40 100 30 ⟨3000, fun _ => 0⟩).Near :=
        ⟨by decide, by decide, by decide, by decide⟩
      exact ⟨hnear, hnear.marked (Or.inr (by decide)) (Or.inr (by decide))⟩
    · intro i hi
      cases hi
    · exact fun h => h
  exact ⟨hsafe, damage_complete (Reach.boot 200 100) _ hsafe⟩

/-- The close button of a window is clicked on that lies partly below another one. The window
comes to the front, and nothing is marked. -/
theorem damage_incomplete : ¬ ∀ (fbWidth fbHeight : Nat) (ops : List Op) (op : Op),
    DamageComplete (ops.foldl exec (boot fbWidth fbHeight)) op := by
  intro h
  have hmarks := h 200 200 [.createWindow 1 (some fun _ => 0xFF000000) 0 0 100 60,
    .createWindow 2 (some fun _ => 0xFFFFFFFF) 0 30 100 60] (.mouse 70 10 true false)
    (fun _ _ => 0) (fun _ => 0) (fun _ => 0) (fun _ => 0) (10, 70)
  have hchanged := hmarks (by decide +kernel) (by decide +kernel)
  have hnone : (run ([Op.createWindow 1 (some fun _ => 0xFF000000) 0 0 100 60,
    .createWindow 2 (some fun _ => 0xFFFFFFFF) 0 30 100 60].foldl exec (boot 200 200))
    (.mouse 70 10 true false)).2 = [] := by decide +kernel
  rw [hnone] at hchanged
  obtain ⟨r, hr, -⟩ := hchanged
  cases hr

end Kyuzen.Kwm
