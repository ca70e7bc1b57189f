import Kyuzen.Kwm.HitTest
import Kyuzen.Kwm.Repaint

/-!
# Dirty rectangles

An operation changes how some windows look, and marks rectangles for the next flush. A pixel whose
value the operation changes must lie in one of them.

`frame_dirty_area` widens a frame by 6 pixels on every side. The shadow is as wide, but lies 3
pixels lower, so that its last 3 rows are not marked; the close button of a window that is
narrower than 25 pixels reaches further to the left; and a click on a close button raises the
window and returns before anything is marked. Where none of this happens, and the stack is in
order, every pixel that changes is marked (`damage_complete`).
-/

namespace Kyuzen.Kwm

open Lib

variable {s s' : State} {i : Nat} {p : Point} {w w' : Window}

/-! ## How a window looks at a point -/

/-- The two windows look alike at the point, although content, title and focus may differ. -/
structure SameLook (p : Point) (focused focused' : Bool) (w w' : Window) : Prop where
  x : w'.x = w.x
  y : w'.y = w.y
  width : w'.width = w.width
  height : w'.height = w.height
  desktop : w'.desktop = w.desktop
  isSome : w'.canvas.isSome = w.canvas.isSome
  canvas : w.contentRect.Has p → w'.canvas = w.canvas
  bar : w.desktop = false → w.titlebarRect.Has p → w'.title = w.title ∧ focused' = focused

theorem SameLook.rects {focused focused' : Bool} (h : SameLook p focused focused' w w') :
    w'.contentRect = w.contentRect ∧ w'.titlebarRect = w.titlebarRect ∧
      w'.frameRect = w.frameRect ∧ w'.closeRect = w.closeRect := by
  have htb : w'.tb = w.tb := by simp [Window.tb, h.desktop]
  simp [Window.contentRect, Window.titlebarRect, Window.frameRect, Window.closeRect, h.x, h.y,
    h.width, h.height, htb]

theorem SameLook.covers {focused focused' : Bool} (h : SameLook p focused focused' w w')
    (q : Point) : w'.Covers q ↔ w.Covers q := by
  obtain ⟨hcontent, hbar, hframe, hclose⟩ := h.rects
  simp only [Window.Covers, hcontent, hbar, hframe, hclose, h.desktop]

theorem paintTitlebar_agreeAt (font : Font) (clip : Rect) {focused focused' : Bool}
    (h : SameLook p focused focused' w w') (hd : w.desktop = false) :
    AgreeAt p (paintTitlebar font focused w clip) (paintTitlebar font focused' w' clip) := by
  obtain ⟨-, hbar, -, hclose⟩ := h.rects
  unfold paintTitlebar
  rw [hbar, hclose, h.x, h.y, h.width]
  have hfill : ∀ top bot top' bot' : Nat, ¬ w.titlebarRect.Has p →
      AgreeAt p (roundGradFill w.titlebarRect top bot cornerR 0 clip)
        (roundGradFill w.titlebarRect top' bot' cornerR 0 clip) := fun top bot top' bot' hp =>
    (paints_roundGradFill _ _ _ _ _).agreeAt_outside (paints_roundGradFill _ _ _ _ _) clip hp
  refine (((AgreeAt.comp ?_ ?_).comp ?_).comp ?_).comp ?_
  · by_cases hp : w.titlebarRect.Has p
    · rw [(h.bar hd hp).2]
      exact (paints_roundGradFill _ _ _ _ _).agreeAt clip p
    · exact hfill _ _ _ _ hp
  · exact (paints_roundGradFill _ _ _ _ _).agreeAt clip p
  · exact (paints_cross w 0xFFFFFF).1.agreeAt clip p
  · exact (paints_cross w 0xFFFFFF).2.agreeAt clip p
  · by_cases hp : w.titlebarRect.Has p
    · rw [(h.bar hd hp).1]
      exact (paints_title font w w.title).agreeAt clip p
    · exact (paints_title font w w.title).agreeAt_outside (paints_title font w w'.title) clip hp

theorem paintContent_agreeAt (clip : Rect) {focused focused' : Bool} {c c' : Canvas}
    (h : SameLook p focused focused' w w') (hc : w.canvas = some c) (hc' : w'.canvas = some c') :
    AgreeAt p (paintContent w c clip) (paintContent w' c' clip) := by
  obtain ⟨hcontent, -, -, -⟩ := h.rects
  by_cases hp : w.contentRect.Has p
  · have hsame : c' = c := by
      have := h.canvas hp
      rw [hc, hc'] at this
      exact Option.some.inj this
    rw [hsame, show paintContent w' c = paintContent w c by
      unfold paintContent
      rw [hcontent, h.width, h.x]]
    exact (paints_content w c).agreeAt clip p
  · have hpaints : Paints Rect.Has w.contentRect.Has (paintContent w' c') := by
      rw [← hcontent]
      exact paints_content w' c'
    exact (paints_content w c).agreeAt_outside hpaints clip hp

theorem compositeWindow_agreeAt (font : Font) (clip : Rect) {focused focused' : Bool}
    (h : SameLook p focused focused' w w') :
    AgreeAt p (compositeWindow font focused w clip) (compositeWindow font focused' w' clip) := by
  obtain ⟨-, hbar, hframe, -⟩ := h.rects
  have hisSome := h.isSome
  unfold compositeWindow
  rw [hframe, hbar, h.desktop]
  cases hc : w.canvas with
  | none =>
    rw [hc, Option.isSome_none, Option.isSome_eq_false_iff, Option.isNone_iff_eq_none] at hisSome
    rw [hisSome]
    exact fun _ _ heq => heq
  | some c =>
    rw [hc, Option.isSome_some, Option.isSome_iff_exists] at hisSome
    obtain ⟨c', hc'⟩ := hisSome
    rw [hc']
    have hcontent := paintContent_agreeAt clip h hc hc'
    cases hd : w.desktop with
    | true => exact hcontent
    | false =>
      have hshadow := (paints_frameShadow w.frameRect).agreeAt clip p
      have hboth := hshadow.comp hcontent
      dsimp only
      by_cases hguard : (rectIntersect w.titlebarRect clip).isSome = true
      · simp only [hguard]
        exact hboth.comp (paintTitlebar_agreeAt font clip h hd)
      · simp only [hguard]
        exact hboth

theorem SameLook.refl (p : Point) (focused : Bool) (w : Window) : SameLook p focused focused w w :=
  ⟨rfl, rfl, rfl, rfl, rfl, rfl, fun _ => rfl, fun _ _ => ⟨rfl, rfl⟩⟩

/-- A window that does not cover the point does nothing there. -/
theorem compositeWindow_keeps (font : Font) (focused : Bool) (clip : Rect) (hp : ¬ w.Covers p)
    (fb : Frame) : compositeWindow font focused w clip fb p = fb p := by
  have hcontent : ∀ c fb, paintContent w c clip fb p = fb p := fun c fb =>
    (paints_content w c).keeps (fun h => hp (Or.inl h)) fb
  unfold compositeWindow
  cases hc : w.canvas with
  | none => rfl
  | some c =>
    cases hd : w.desktop with
    | true => exact hcontent c fb
    | false =>
      have hshadow : ∀ fb, frameShadow w.frameRect clip fb p = fb p := fun fb =>
        (paints_frameShadow w.frameRect).keeps (fun h => hp (Or.inr ⟨hd, Or.inl h⟩)) fb
      have hbar : ∀ fb, paintTitlebar font focused w clip fb p = fb p := fun fb =>
        (paints_titlebar font focused w).keeps
          (fun h => hp (Or.inr ⟨hd, Or.inr (h.imp_right And.left)⟩)) fb
      simp only [Bool.false_eq_true, if_false]
      split
      · rw [hbar, hcontent, hshadow]
      · rw [hcontent, hshadow]

/-! ## The whole picture at a point -/

instance (w : Window) (p : Point) : Decidable (w.Covers p) :=
  inferInstanceAs (Decidable (_ ∨ _ ∧ (_ ∨ _ ∨ _)))

/-- The window looks the same before and after, or is not to be seen at the point at all. -/
def UnchangedAt (p : Point) (s s' : State) (w : Nat) : Prop :=
  ((s.windows w).active = true ∧ (s'.windows w).active = true ∧
    SameLook p (s.focusedWinId == some w) (s'.focusedWinId == some w) (s.windows w)
      (s'.windows w)) ∨
  (((s.windows w).active = true → ¬ (s.windows w).Covers p) ∧
    ((s'.windows w).active = true → ¬ (s'.windows w).Covers p))

/-- The windows that cover the point, from the lowest to the highest. -/
def layers (s : State) (p : Point) : List Nat :=
  (paintOrder s).filter fun w => (s.windows w).Covers p

theorem Stacked.mem_layers (hst : Stacked s) (hso : Sound s) {w : Nat} :
    w ∈ layers s p ↔ w < maxWindows ∧ (s.windows w).active = true ∧
      (s.windows w).Covers p := by
  simp only [layers, List.mem_filter, decide_eq_true_eq]
  constructor
  · rintro ⟨hmem, hp⟩
    obtain ⟨hw, ha, -, -⟩ := Kwm.mem_paintOrder.mp hmem
    exact ⟨hw, ha, hp⟩
  · rintro ⟨hw, ha, hp⟩
    exact ⟨hst.mem_paintOrder hso hw ha, hp⟩

theorem paintOrder_nodup (s : State) : (paintOrder s).Nodup := by
  rw [paintOrder, List.nodup_flatMap]
  constructor
  · intro z _
    exact List.nodup_range.filter _
  · apply List.Pairwise.imp _ List.pairwise_lt_range
    intro z z' hlt w hw hw'
    simp only [List.mem_filter, Bool.and_eq_true, beq_iff_eq] at hw hw'
    omega

/-- Windows of an ordered stack are painted in the order of their indices. -/
theorem Stacked.layers_sorted (hst : Stacked s) (hso : Sound s) (p : Point) :
    (layers s p).Pairwise fun v w => (s.windows v).zIndex < (s.windows w).zIndex := by
  have hsorted : (layers s p).Pairwise fun v w =>
      (s.windows v).zIndex ≤ (s.windows w).zIndex := (paintOrder_sorted s).filter _
  have hnodup : (layers s p).Nodup := (paintOrder_nodup s).filter _
  apply (hsorted.and hnodup).imp_of_mem
  intro v w hv hw hvw
  obtain ⟨hvlt, hva, -⟩ := (hst.mem_layers hso).mp hv
  obtain ⟨hwlt, hwa, -⟩ := (hst.mem_layers hso).mp hw
  apply lt_of_le_of_ne hvw.1
  intro heq
  exact hvw.2 (hst.active_distinct hso hvlt hwlt hva hwa heq)

/-- Windows that lie above each other before lie so after. -/
def KeepsOrder (p : Point) (s s' : State) : Prop :=
  ∀ v < maxWindows, ∀ w < maxWindows, (s.windows v).active = true → (s.windows v).Covers p →
    (s.windows w).active = true → (s.windows w).Covers p →
    (s.windows v).zIndex < (s.windows w).zIndex → (s'.windows v).zIndex < (s'.windows w).zIndex

theorem layers_eq (hst : Stacked s) (hso : Sound s) (hst' : Stacked s') (hso' : Sound s')
    (hun : ∀ w < maxWindows, UnchangedAt p s s' w) (hord : KeepsOrder p s s') :
    layers s p = layers s' p := by
  have hsorted : (layers s p).Pairwise fun v w =>
      (s'.windows v).zIndex < (s'.windows w).zIndex := by
    apply (hst.layers_sorted hso p).imp_of_mem
    intro v w hv hw hlt
    obtain ⟨hvlt, hva, hvp⟩ := (hst.mem_layers hso).mp hv
    obtain ⟨hwlt, hwa, hwp⟩ := (hst.mem_layers hso).mp hw
    exact hord v hvlt w hwlt hva hvp hwa hwp hlt
  have : Std.Irrefl fun v w : Nat => (s'.windows v).zIndex < (s'.windows w).zIndex :=
    ⟨fun v => Nat.lt_irrefl _⟩
  have : Std.Antisymm fun v w : Nat => (s'.windows v).zIndex < (s'.windows w).zIndex :=
    ⟨fun v w h h' => absurd h (Nat.lt_asymm h')⟩
  apply hsorted.eq_of_mem_iff (hst'.layers_sorted hso' p)
  intro w
  rw [hst.mem_layers hso, hst'.mem_layers hso']
  constructor
  · rintro ⟨hw, ha, hp⟩
    obtain ⟨-, ha', hlook⟩ | ⟨hnot, -⟩ := hun w hw
    · exact ⟨hw, ha', (hlook.covers p).mpr hp⟩
    · exact absurd hp (hnot ha)
  · rintro ⟨hw, ha', hp⟩
    obtain ⟨ha, -, hlook⟩ | ⟨-, hnot⟩ := hun w hw
    · exact ⟨hw, ha, (hlook.covers p).mp hp⟩
    · exact absurd hp (hnot ha')

/-- The full composition at a point is what the windows there make of the base canvas. -/
theorem fullRepaint_layers (font : Font) (base fb : Frame) (hs : (screenRect s).Has p) :
    fullRepaint font s base fb p = (layers s p).foldl (fun fb w =>
      compositeWindow font (s.focusedWinId == some w) (s.windows w) (screenRect s) fb) base p := by
  have hbase : blitRectDb s (screenRect s) base fb p = base p := by
    rw [blitRectDb_apply (rectIntersect_screen hs), if_pos hs]
  have hlocal : ∀ w ∈ paintOrder s, AgreeAt p
      (compositeWindow font (s.focusedWinId == some w) (s.windows w) (screenRect s))
      (compositeWindow font (s.focusedWinId == some w) (s.windows w) (screenRect s)) :=
    fun w _ => compositeWindow_agreeAt font _ (SameLook.refl p _ _)
  show (paintOrder s).foldl (fun fb w => compositeWindow font (s.focusedWinId == some w)
    (s.windows w) (screenRect s) fb) (blitRectDb s (screenRect s) base fb) p = _
  rw [foldl_agree (paintOrder s) hlocal hbase]
  apply foldl_filter_agree _ hlocal
  intro w _ hp fb
  exact compositeWindow_keeps font _ _ (by simpa using hp) fb

theorem composition_eq (hst : Stacked s) (hso : Sound s) (hst' : Stacked s') (hso' : Sound s')
    (hscreen : screenRect s' = screenRect s) (hs : (screenRect s).Has p)
    (hun : ∀ w < maxWindows, UnchangedAt p s s' w) (hord : KeepsOrder p s s') (font : Font)
    (base fb fb' : Frame) :
    fullRepaint font s base fb p = fullRepaint font s' base fb' p := by
  have hs' : (screenRect s').Has p := by
    rw [hscreen]
    exact hs
  rw [fullRepaint_layers font base fb hs, fullRepaint_layers font base fb' hs', hscreen,
    layers_eq hst hso hst' hso' hun hord]
  apply foldl_agree _ _ rfl
  intro w hw
  obtain ⟨hlt, -, hp⟩ := (hst'.mem_layers hso').mp hw
  obtain ⟨-, -, hlook⟩ | ⟨-, hnot⟩ := hun w hlt
  · exact compositeWindow_agreeAt font _ hlook
  · exact absurd hp (hnot ((hst'.mem_layers hso').mp hw).2.1)

/-! ## What is marked for a window -/

/-- The window lies near the screen, so that sums of its coordinates do not wrap around. -/
structure Window.Near (w : Window) : Prop where
  x : w.x.natAbs ≤ 2 ^ 30
  y : w.y.natAbs ≤ 2 ^ 30
  width : w.width ≤ 2 ^ 30
  height : w.height ≤ 2 ^ 30

/-- The area that `kwm_frame_dirty` marks. -/
def Window.dirtyRect (w : Window) : Rect :=
  frameDirtyArea w.x w.y w.width (u32 (w.height + w.tb))

/-- All that the window paints on the screen lies in that area. -/
def Marked (s : State) (w : Window) : Prop :=
  ∀ p, (screenRect s).Has p → w.Covers p → w.dirtyRect.Has p

/-- No rectangle of the list contains the point. -/
def Unmarked (rects : List Rect) (p : Point) : Prop := ∀ r ∈ rects, ¬ r.Has p

theorem Window.tb_le (w : Window) : w.tb ≤ 24 := by
  unfold Window.tb titlebarH
  split <;> omega

theorem Window.Near.frameDirtyArea (h : w.Near) {n : Nat} (hn : n ≤ 2 ^ 30 + 24) :
    frameDirtyArea w.x w.y w.width (u32 n) = ⟨w.x - 6, w.y - 6, w.width + 12, n + 12⟩ := by
  have hx := h.x
  have hy := h.y
  have hw := h.width
  have hmargin : shadowMargin = 6 := rfl
  unfold Kwm.frameDirtyArea
  rw [i32_eq (by omega) (by omega), i32_eq (by omega) (by omega)]
  simp only [u32, hmargin]
  rw [Nat.mod_eq_of_lt (by omega), Nat.mod_eq_of_lt (by omega : n < 2 ^ 32),
    Nat.mod_eq_of_lt (by omega)]
  rfl

theorem Window.Near.dirtyRect (h : w.Near) :
    w.dirtyRect = ⟨w.x - 6, w.y - 6, w.width + 12, w.height + w.tb + 12⟩ := by
  have := h.height
  have := w.tb_le
  exact h.frameDirtyArea (by omega)

/-- The frame itself is always marked. -/
theorem Window.Near.frame_marked (h : w.Near)
    (hp : w.contentRect.Has p ∨ w.desktop = false ∧ w.titlebarRect.Has p) :
    w.dirtyRect.Has p := by
  rw [h.dirtyRect]
  have htitle : titlebarH = 24 := rfl
  rcases hp with hp | ⟨hd, hp⟩
  · simp only [Rect.Has, Window.contentRect] at hp ⊢
    omega
  · have htb : w.tb = 24 := by simp [Window.tb, hd, titlebarH]
    simp only [Rect.Has, Window.titlebarRect] at hp ⊢
    omega

/-- When all of a window is marked: the close button does not reach over the margin, and the last
three rows of the shadow are below the screen. -/
theorem Window.Near.marked (h : w.Near) (hwide : w.desktop = true ∨ 25 ≤ w.width)
    (hlow : w.desktop = true ∨ (s.fbHeight : Int) ≤ w.y + w.height + 30) : Marked s w := by
  intro p hs hp
  rw [h.dirtyRect]
  have htitle : titlebarH = 24 := rfl
  have hclose : closeBtnW = 40 := rfl
  have hmargin : shadowMargin = 6 := rfl
  rcases hp with hp | ⟨hd, hp⟩
  · simp only [Rect.Has, Window.contentRect] at hp ⊢
    omega
  · rw [hd] at hwide hlow
    simp only [Bool.false_eq_true, false_or] at hwide hlow
    have htb : w.tb = 24 := by simp [Window.tb, hd, titlebarH]
    rcases hp with hp | hp | hp
    · simp only [Rect.Has, shadowRect, Window.frameRect, screenRect] at hp hs ⊢
      omega
    · simp only [Rect.Has, Window.titlebarRect] at hp ⊢
      omega
    · simp only [Rect.Has, Window.closeRect] at hp ⊢
      omega

theorem unmarked_frame (h : Unmarked (kwmFrameDirty s i) p) (hi : i < maxWindows)
    (ha : (s.windows i).active = true) : ¬ (s.windows i).dirtyRect.Has p := by
  apply h
  simp only [kwmFrameDirty, hi, ha, and_self, if_true]
  exact List.mem_singleton_self _

theorem Unmarked.left {l l' : List Rect} (h : Unmarked (l ++ l') p) : Unmarked l p :=
  fun r hr => h r (List.mem_append_left l' hr)

theorem Unmarked.right {l l' : List Rect} (h : Unmarked (l ++ l') p) : Unmarked l' p :=
  fun r hr => h r (List.mem_append_right l hr)

/-! ## Windows that do not change -/

/-- Where the focus has come or gone, the titlebar is not at the point. -/
def FocusQuiet (p : Point) (s s' : State) : Prop :=
  ∀ w < maxWindows, (s.windows w).active = true → (s.windows w).desktop = false →
    (s.windows w).titlebarRect.Has p → (s'.focusedWinId == some w) = (s.focusedWinId == some w)

theorem FocusQuiet.of_eq (h : s'.focusedWinId = s.focusedWinId) : FocusQuiet p s s' := by
  intro w _ _ _ _
  rw [h]

theorem UnchangedAt.restacked {n : Nat} {z : Nat}
    (h : s'.windows n = { s.windows n with zIndex := z }) (hq : FocusQuiet p s s')
    (hn : n < maxWindows) : UnchangedAt p s s' n := by
  cases ha : (s.windows n).active with
  | true =>
    refine Or.inl ⟨ha, by rw [h]; exact ha, ?_⟩
    rw [h]
    exact ⟨rfl, rfl, rfl, rfl, rfl, rfl, fun _ => rfl,
      fun hd hp => ⟨rfl, hq n hn ha hd hp⟩⟩
  | false =>
    right
    rw [h]
    constructor
    · intro ha'
      rw [ha] at ha'
      cases ha'
    · intro ha'
      rw [show ({ s.windows n with zIndex := z } : Window).active = (s.windows n).active from rfl,
        ha] at ha'
      cases ha'

theorem unchanged_restacked (hr : Restacked s s') (hq : FocusQuiet p s s') :
    ∀ w < maxWindows, UnchangedAt p s s' w := by
  intro w hw
  obtain ⟨z, hz⟩ := hr w
  exact UnchangedAt.restacked hz hq hw

/-- One slot has changed, and its window is not at the point, neither before nor after. -/
theorem unchanged_but (hr : ∀ w, w ≠ i → ∃ z, s'.windows w = { s.windows w with zIndex := z })
    (hq : FocusQuiet p s s') (hbefore : (s.windows i).active = true → ¬ (s.windows i).Covers p)
    (hafter : (s'.windows i).active = true → ¬ (s'.windows i).Covers p) :
    ∀ w < maxWindows, UnchangedAt p s s' w := by
  intro w hw
  by_cases hwi : w = i
  · subst hwi
    exact Or.inr ⟨hbefore, hafter⟩
  · obtain ⟨z, hz⟩ := hr w hwi
    exact UnchangedAt.restacked hz hq hw

/-- The focus moves to `i`, and both the old and the new window are marked or not at the point. -/
theorem focusQuiet_of_unmarked (hnear : ∀ w < maxWindows, (s.windows w).active = true →
      (s.windows w).Near) {r : Option Nat} (hf : s'.focusedWinId = r)
    (hnew : ∀ i, r = some i → s.focusedWinId ≠ some i → i < maxWindows →
      (s.windows i).active = true → ¬ (s.windows i).dirtyRect.Has p)
    (hold : ∀ f, s.focusedWinId = some f → r ≠ some f → f < maxWindows →
      (s.windows f).active = true → ¬ (s.windows f).dirtyRect.Has p) : FocusQuiet p s s' := by
  intro w hw ha hd hp
  have hmarked := (hnear w hw ha).frame_marked (Or.inr ⟨hd, hp⟩)
  rw [hf]
  by_cases hold' : s.focusedWinId = some w
  · by_cases hnew' : r = some w
    · rw [hold', hnew']
    · exact absurd hmarked (hold w hold' hnew' hw ha)
  · by_cases hnew' : r = some w
    · exact absurd hmarked (hnew w hnew' hold' hw ha)
    · simp [hold', hnew']

end Kyuzen.Kwm
