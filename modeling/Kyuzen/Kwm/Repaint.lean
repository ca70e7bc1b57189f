import Mathlib.Order.MinMax
import Mathlib.Tactic.SplitIfs
import Kyuzen.Lib.Painter
import Kyuzen.Kwm.Compositor

/-!
# Partial repaints

Every primitive of the compositor is a clipped painter, so that a point gets the same value in
any clip, and for each one the points are told that it paints. A rounded rectangle leaves out the
pixels that its corners cut off (`RoundedHas`). A flush restores the parts of the dirty rectangles
that are on the screen from the base canvas and paints the windows over them.
-/

namespace Kyuzen.Kwm

open Lib

variable {p : Point} {fb : Frame} {w : Window}

/-! ## Rectangles -/

theorem rectIntersect_some {a b c : Rect} (h : rectIntersect a b = some c) (p : Point) :
    c.Has p ↔ a.Has p ∧ b.Has p := by
  unfold rectIntersect at h
  dsimp only at h
  split at h
  · cases h
  · rename_i hne
    cases h
    simp only [Rect.Has]
    omega

theorem rectIntersect_none {a b : Rect} (h : rectIntersect a b = none) (p : Point) :
    ¬ (a.Has p ∧ b.Has p) := by
  unfold rectIntersect at h
  dsimp only at h
  split at h
  · simp only [Rect.Has]
    omega
  · cases h

theorem rectIntersect_isSome {a b : Rect} (ha : a.Has p) (hb : b.Has p) :
    (rectIntersect a b).isSome = true := by
  cases h : rectIntersect a b with
  | none => exact absurd ⟨ha, hb⟩ (rectIntersect_none h p)
  | some c => rfl

/-! ## Primitives -/

theorem paints_overRect (area : Rect) (g : Point → Nat → Nat) :
    Paints Rect.Has area.Has (overRect area g) := by
  refine ⟨fun p v => if area.Has p then g p v else v, ?_, ?_, ?_⟩
  · intro clip fb p hp
    unfold overRect
    cases h : rectIntersect area clip with
    | none =>
      rw [if_neg fun ha => rectIntersect_none h p ⟨ha, hp⟩]
    | some c =>
      simp only [rectIntersect_some h p, hp, and_true]
  · intro clip fb p hp
    unfold overRect
    cases h : rectIntersect area clip with
    | none => rfl
    | some c => exact if_neg fun hc => hp ((rectIntersect_some h p).mp hc).2
  · intro p v hp
    exact if_neg hp

theorem paints_fillRectClip (area : Rect) (color : Nat) :
    Paints Rect.Has area.Has (fillRectClip area color) :=
  paints_overRect area fun _ _ => color

theorem paints_blendRectClip (area : Rect) (c a : Nat) :
    Paints Rect.Has area.Has (blendRectClip area c a) :=
  Paints.ite (a = 0) (fun _ => Paints.id) fun _ => paints_overRect area fun _ v => aaMix c v a

/-- A painter of a single point. -/
theorem paints_point (q : Point) (g : Nat → Nat) :
    Paints Rect.Has (· = q) fun (clip : Rect) (fb : Frame) =>
      if clip.Has q then Function.update fb q (g (fb q)) else fb := by
  refine ⟨fun p v => if p = q then g v else v, ?_, ?_, ?_⟩
  · intro clip fb p hp
    by_cases hpq : p = q
    · subst hpq
      simp [hp]
    · rw [if_neg hpq]
      split
      · exact Function.update_of_ne hpq _ _
      · rfl
  · intro clip fb p hp
    split
    · rename_i hq
      have hpq : p ≠ q := by
        rintro rfl
        exact hp hq
      exact Function.update_of_ne hpq _ _
    · rfl
  · intro p v hp
    exact if_neg hp

theorem paints_blendPx (q : Point) (c a : Nat) :
    Paints Rect.Has (fun p => p = q ∧ a ≠ 0) (blendPx q c a) := by
  apply Paints.ite
  · exact fun _ => Paints.id
  · intro ha
    exact (paints_point q fun v => aaMix c v a).mono fun p hp => ⟨hp, ha⟩

theorem paints_putPx (q : Point) (color : Nat) : Paints Rect.Has (· = q) (putPx q color) :=
  paints_point q fun _ => color

theorem rowRadius_le {a : Rect} {rt rb n : Nat} (hrt : rt ≤ n) (hrb : rb ≤ n) (iy : Int) :
    rowRadius a rt rb iy ≤ n := by
  unfold rowRadius
  split_ifs
  · exact hrt
  · exact hrb
  · exact Nat.zero_le n

/-- The rounded rectangle has the pixel, at least a part of it. -/
def RoundedHas (a : Rect) (rt rb : Nat) (p : Point) : Prop :=
  a.Has p ∧ aaCov p.1 p.2 a.x a.y a.width a.height rt rb ≠ 0

/-- No corner takes a part of a pixel in a straight row, or between the corners of its row. -/
theorem aaCov_inside {a : Rect} {rt rb : Nat} {px iy : Int}
    (h : rowRadius a rt rb iy = 0 ∨ a.x + rowRadius a rt rb iy ≤ px ∧
      px < a.x + a.width - rowRadius a rt rb iy) :
    aaCov px iy a.x a.y a.width a.height rt rb = 255 := by
  have hcorner : aaCorner px iy a.x a.y a.width a.height rt rb = none := by
    unfold rowRadius at h
    unfold aaCorner
    by_cases htop : rt ≠ 0 ∧ iy < a.y + rt
    · rw [if_pos htop] at h
      rw [if_pos (by omega), Option.bind_some, if_neg (by dsimp only; omega),
        if_neg (by dsimp only; omega)]
    rw [if_neg htop] at h
    rw [if_neg (by omega)]
    by_cases hbottom : rb ≠ 0 ∧ iy ≥ a.y + a.height - rb
    · rw [if_pos hbottom] at h
      rw [if_pos (by omega), Option.bind_some, if_neg (by dsimp only; omega),
        if_neg (by dsimp only; omega)]
    · rw [if_neg (by omega)]
      rfl
  unfold aaCov
  rw [hcorner]

theorem paints_roundGradRow (a : Rect) (top bot : Nat) {rt rb : Nat} (hrt : rt ≤ a.width / 2)
    (hrb : rb ≤ a.width / 2) {iy : Int} (hlo : a.y ≤ iy) (hhi : iy < a.y + a.height) :
    Paints Rect.Has (RoundedHas a rt rb) (roundGradRow a top bot rt rb iy) := by
  have hr := rowRadius_le hrt hrb (a := a) iy
  unfold roundGradRow
  dsimp only
  apply Paints.ite
  · intro hzero
    apply (paints_fillRectClip _ _).mono
    intro p hp
    simp only [Rect.Has] at hp
    obtain rfl : p.2 = iy := by omega
    refine ⟨?_, ?_⟩
    · simp only [Rect.Has]
      omega
    · rw [aaCov_inside (Or.inl hzero)]
      decide
  · intro _
    apply Paints.foldl
    · apply (paints_fillRectClip _ _).mono
      intro p hp
      simp only [Rect.Has] at hp
      obtain rfl : p.2 = iy := by omega
      refine ⟨?_, ?_⟩
      · simp only [Rect.Has]
        omega
      · rw [aaCov_inside (Or.inr (by omega))]
        decide
    · intro k hk
      have hk := List.mem_range.mp hk
      apply Paints.comp
      · apply (paints_blendPx _ _ _).mono
        rintro p ⟨rfl, hcov⟩
        refine ⟨?_, hcov⟩
        simp only [Rect.Has]
        omega
      · apply (paints_blendPx _ _ _).mono
        rintro p ⟨rfl, hcov⟩
        refine ⟨?_, hcov⟩
        simp only [Rect.Has]
        omega

/-- With corners that are not too large, just the pixels of the rounded rectangle are painted. -/
theorem paints_rounded (a : Rect) (top bot : Nat) {rt rb : Nat} (hrt : rt ≤ a.width / 2)
    (hrb : rb ≤ a.width / 2) : Paints Rect.Has (RoundedHas a rt rb) (roundGradFill a top bot rt rb) := by
  unfold roundGradFill
  dsimp only
  rw [if_neg (Nat.not_lt.mpr hrt), if_neg (Nat.not_lt.mpr hrb)]
  apply Paints.ite
  · exact fun _ => Paints.id
  · intro _
    apply Paints.foldl _ Paints.id
    intro k hk
    have hk := List.mem_range.mp hk
    exact paints_roundGradRow a top bot hrt hrb (by omega) (by omega)

theorem roundGradFill_cut (a : Rect) (top bot rt rb : Nat) :
    roundGradFill a top bot rt rb =
      roundGradFill a top bot (min rt (a.width / 2)) (min rb (a.width / 2)) := by
  have hcut : ∀ r : Nat, (if r > a.width / 2 then a.width / 2 else r) = min r (a.width / 2) := by
    intro r
    split_ifs <;> omega
  unfold roundGradFill
  simp only [hcut, min_assoc, min_self]

theorem paints_roundGradFill (a : Rect) (top bot rt rb : Nat) :
    Paints Rect.Has a.Has (roundGradFill a top bot rt rb) := by
  rw [roundGradFill_cut]
  exact (paints_rounded a top bot (min_le_right _ _) (min_le_right _ _)).mono fun p hp => hp.1

/-- What the shadow of a frame covers. -/
def shadowRect (frame : Rect) : Rect :=
  ⟨frame.x - shadowMargin, frame.y - shadowMargin + 3, frame.width + 2 * shadowMargin,
    frame.height + 2 * shadowMargin⟩

theorem paints_shadowRing (frame : Rect) {k a : Nat} (hk : k ≤ shadowMargin) :
    Paints Rect.Has (shadowRect frame).Has (shadowRing frame k a) := by
  have hmargin : shadowMargin = 6 := rfl
  unfold shadowRing
  dsimp only
  refine (Paints.comp (Paints.comp (Paints.comp ?_ ?_) ?_) ?_)
  all_goals
    apply (paints_blendRectClip _ _ _).mono
    intro p hp
    simp only [Rect.Has, shadowRect] at hp ⊢
    omega

theorem paints_frameShadow (frame : Rect) :
    Paints Rect.Has (shadowRect frame).Has (frameShadow frame) := by
  unfold frameShadow
  apply Paints.foldl _ Paints.id
  intro ring hring
  apply paints_shadowRing
  simp only [shadowRings, List.mem_cons, List.not_mem_nil, or_false] at hring
  rcases hring with rfl | rfl | rfl | rfl | rfl | rfl <;> decide

theorem paints_titlebarLine (x0 y0 x1 y1 : Int) (color : Nat) (area : Point → Prop)
    (h : ∀ i ≤ max (max (x1 - x0).natAbs (y1 - y0).natAbs) 1,
      area (x0 + Int.tdiv ((x1 - x0) * i) (max (max (x1 - x0).natAbs (y1 - y0).natAbs) 1 : Nat),
        y0 + Int.tdiv ((y1 - y0) * i) (max (max (x1 - x0).natAbs (y1 - y0).natAbs) 1 : Nat))) :
    Paints Rect.Has area (titlebarLine x0 y0 x1 y1 color) := by
  unfold titlebarLine
  apply Paints.foldl _ Paints.id
  intro i hi
  have hi := List.mem_range.mp hi
  apply (paints_putPx _ _).mono
  rintro p rfl
  exact h i (by omega)

theorem paints_glyph (font : Font) (c : Nat) (x y : Int) (color : Nat) :
    Paints Rect.Has (Rect.Has ⟨x, y, 8, 16⟩) (glyph font c x y color) := by
  unfold glyph
  apply Paints.foldl _ Paints.id
  intro row hrow
  have hrow := List.mem_range.mp hrow
  apply Paints.foldl _ Paints.id
  intro col hcol
  have hcol := List.mem_range.mp hcol
  apply Paints.ite
  · exact fun _ => Paints.id
  · intro _
    apply (paints_putPx _ _).mono
    rintro p rfl
    simp only [Rect.Has]
    omega

/-- The text stays in its line, from `x` on and before `maxX`. -/
theorem paints_titlebarText (font : Font) (y maxX : Int) (color : Nat) (text : List UInt8)
    (x : Int) :
    Paints Rect.Has (fun p => x ≤ p.1 ∧ p.1 < maxX ∧ y ≤ p.2 ∧ p.2 < y + 16)
      fun clip fb => titlebarText font y maxX color clip text x fb := by
  induction text generalizing x with
  | nil => exact Paints.id
  | cons c rest ih =>
    apply Paints.ite
    · intro hx
      apply Paints.comp
      · apply Paints.ite
        · exact fun _ => Paints.id
        · intro _
          apply (paints_glyph font c.toNat x y color).mono
          intro p hp
          simp only [Rect.Has] at hp
          omega
      · apply (ih (x + 8)).mono
        intro p hp
        omega
    · exact fun _ => Paints.id

/-! ## Windows -/

theorem paints_content (w : Window) (canvas : Canvas) :
    Paints Rect.Has w.contentRect.Has (paintContent w canvas) :=
  paints_overRect w.contentRect _

/-- The pixels of the close button, without its corners. -/
def Window.ButtonHas (w : Window) (p : Point) : Prop := RoundedHas w.closeRect 4 4 p

theorem Window.buttonHas_middle {p : Point}
    (hx : w.closeRect.x + 7 ≤ p.1 ∧ p.1 ≤ w.closeRect.x + 14)
    (hy : w.closeRect.y + 5 ≤ p.2 ∧ p.2 ≤ w.closeRect.y + 12) : w.ButtonHas p := by
  have hwidth : w.closeRect.width = 22 := rfl
  have hheight : w.closeRect.height = 18 := rfl
  refine ⟨by simp only [Rect.Has]; omega, ?_⟩
  have hrow : rowRadius w.closeRect 4 4 p.2 = 0 := by
    unfold rowRadius
    rw [if_neg (by omega), if_neg (by omega)]
  rw [aaCov_inside (Or.inl hrow)]
  decide

/-- The cross on the close button. -/
theorem paints_cross (w : Window) (color : Nat) :
    Paints Rect.Has w.ButtonHas (titlebarLine (w.closeRect.x + 7) (w.closeRect.y + 5)
      (w.closeRect.x + 14) (w.closeRect.y + 12) color) ∧
    Paints Rect.Has w.ButtonHas (titlebarLine (w.closeRect.x + 14) (w.closeRect.y + 5)
      (w.closeRect.x + 7) (w.closeRect.y + 12) color) := by
  have hright : w.closeRect.x + 14 - (w.closeRect.x + 7) = 7 := by omega
  have hleft : w.closeRect.x + 7 - (w.closeRect.x + 14) = -7 := by omega
  have hdown : w.closeRect.y + 12 - (w.closeRect.y + 5) = 7 := by omega
  have hsteps : (max (max (7 : Int).natAbs (7 : Int).natAbs) 1 : Nat) = 7 := rfl
  have hsteps' : (max (max (-7 : Int).natAbs (7 : Int).natAbs) 1 : Nat) = 7 := rfl
  have hdiv : ∀ i : Nat, Int.tdiv (7 * i) (7 : Nat) = i :=
    fun i => Int.mul_tdiv_cancel_left _ (by decide)
  have hdiv' : ∀ i : Nat, Int.tdiv (-7 * i) (7 : Nat) = -i := by
    intro i
    rw [Int.neg_mul, Int.neg_tdiv, hdiv]
  constructor
  · apply paints_titlebarLine
    intro i hi
    rw [hright, hdown, hsteps] at hi ⊢
    rw [hdiv]
    apply Window.buttonHas_middle
    · dsimp only
      omega
    · dsimp only
      omega
  · apply paints_titlebarLine
    intro i hi
    rw [hleft, hdown, hsteps'] at hi ⊢
    rw [hdiv, hdiv']
    apply Window.buttonHas_middle
    · dsimp only
      omega
    · dsimp only
      omega

theorem paints_title (font : Font) (w : Window) (text : List UInt8) :
    Paints Rect.Has w.titlebarRect.Has fun clip fb => titlebarText font (w.y + 4)
      (w.x + w.width - closeBtnW - 8) 0xFFFFFF clip text (w.x + 12) fb := by
  have hclose : closeBtnW = 40 := rfl
  have hheight : titlebarH = 24 := rfl
  apply (paints_titlebarText font _ _ _ text _).mono
  intro p hp
  simp only [Rect.Has, Window.titlebarRect]
  omega

/-- The titlebar, and the close button even where it sticks out. -/
theorem paints_titlebar (font : Font) (focused : Bool) (w : Window) :
    Paints Rect.Has (fun p => w.titlebarRect.Has p ∨ w.ButtonHas p)
      (paintTitlebar font focused w) := by
  unfold paintTitlebar
  dsimp only
  refine Paints.comp (Paints.comp (Paints.comp (Paints.comp ?_ ?_) ?_) ?_) ?_
  · exact (paints_roundGradFill _ _ _ _ _).mono fun p hp => Or.inl hp
  · have hradius : 4 ≤ w.closeRect.width / 2 := by
      show 4 ≤ 22 / 2
      decide
    exact (paints_rounded _ _ _ hradius hradius).mono fun p hp => Or.inr hp
  · exact (paints_cross w 0xFFFFFF).1.mono fun p hp => Or.inr hp
  · exact (paints_cross w 0xFFFFFF).2.mono fun p hp => Or.inr hp
  · exact (paints_title font w w.title).mono fun p hp => Or.inl hp

/-- What a window covers on the screen. -/
def Window.Covers (w : Window) (p : Point) : Prop :=
  w.contentRect.Has p ∨ w.desktop = false ∧
    ((shadowRect w.frameRect).Has p ∨ w.titlebarRect.Has p ∨ w.closeRect.Has p)

/-! ## The flush -/

/-- The base canvas is copied exactly where the rectangle is. -/
theorem blitRectDb_apply {s : State} {d r : Rect} (h : rectIntersect d (screenRect s) = some r)
    (base fb : Frame) (p : Point) :
    blitRectDb s r base fb p = if r.Has p then base p else fb p := by
  have hr := rectIntersect_some h
  have hon : 0 ≤ r.x ∧ 0 ≤ r.y ∧ r.x + r.width ≤ s.fbWidth ∧ r.y + r.height ≤ s.fbHeight ∧
      0 < r.width ∧ 0 < r.height := by
    unfold rectIntersect at h
    dsimp only at h
    split at h
    · cases h
    · cases h
      simp only [screenRect] at *
      omega
  unfold blitRectDb viewportRender
  rw [if_neg (by omega)]
  have hsame : (p.1 - r.x + r.x, p.2 - r.y + r.y) = p := by
    ext
    · show p.1 - r.x + r.x = p.1
      omega
    · show p.2 - r.y + r.y = p.2
      omega
  rw [hsame]
  congr 1
  simp only [Rect.Has, eq_iff_iff]
  omega

/-- The parts of the dirty rectangles that are on the screen. -/
def clips (s : State) (dirty : List Rect) : List Rect :=
  dirty.filterMap fun d => rectIntersect d (screenRect s)

theorem compositorFlush_eq (font : Font) (s : State) (base : Frame) (dirty : List Rect)
    (fb : Frame) :
    compositorFlush font s base dirty fb =
      (clips s dirty).foldl (fun fb r => repaintRect font s base r fb) fb := by
  unfold compositorFlush clips
  rw [List.foldl_filterMap]
  congr 1
  funext fb d
  cases rectIntersect d (screenRect s) <;> rfl

theorem mem_clips {s : State} {dirty : List Rect} :
    (∃ r ∈ clips s dirty, r.Has p) ↔ (screenRect s).Has p ∧ ∃ d ∈ dirty, d.Has p := by
  constructor
  · rintro ⟨r, hr, hp⟩
    obtain ⟨d, hd, heq⟩ := List.mem_filterMap.mp hr
    have hboth := (rectIntersect_some heq p).mp hp
    exact ⟨hboth.2, d, hd, hboth.1⟩
  · rintro ⟨hs, d, hd, hp⟩
    cases heq : rectIntersect d (screenRect s) with
    | none => exact absurd ⟨hp, hs⟩ (rectIntersect_none heq p)
    | some r =>
      refine ⟨r, List.mem_filterMap.mpr ⟨d, hd, heq⟩, ?_⟩
      exact (rectIntersect_some heq p).mpr ⟨hp, hs⟩

theorem rectIntersect_screen {s : State} (hs : (screenRect s).Has p) :
    rectIntersect (screenRect s) (screenRect s) = some (screenRect s) := by
  simp only [Rect.Has, screenRect] at hs
  simp [rectIntersect, screenRect]
  omega

end Kyuzen.Kwm
