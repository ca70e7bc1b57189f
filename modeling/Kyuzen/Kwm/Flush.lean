import Kyuzen.Kwm.Damage

/-!
# Partial repaints

The titlebar is painted behind a test whether it meets the clip. The test is for the rectangle of
the titlebar, but the close button reaches 31 pixels to the left of the right edge: in a window that
is narrower, it sticks out of the titlebar, and a repaint of a rectangle to the left of the titlebar
leaves it out.

A flush is exact when no button sticks out on the screen, and it is not when one does at a point
that no other window covers (`flush_exact`).
-/

namespace Kyuzen.Kwm

open Lib

variable {s : State} {p : Point} {w : Nat} {top bot rt rb a : Nat}

/-- The button of a window with a titlebar has a point on the screen that the titlebar does not have.
The titlebar is on the screen too, or no repaint would come to the button. -/
structure ButtonOut (s : State) (w : Nat) (p : Point) : Prop where
  titled : (s.windows w).desktop = false
  bar : (rectIntersect (s.windows w).titlebarRect (screenRect s)).isSome = true
  button : (s.windows w).ButtonHas p
  outside : ¬(s.windows w).titlebarRect.Has p
  screen : (screenRect s).Has p

/-- The tables that `kwm_create_window` and `kwm_create_desktop` can fill, while the loop over the
indices ends. -/
structure Admitted (s : State) : Prop where
  size : ∀ w < maxWindows, (s.windows w).active = true → (s.windows w).desktop = false →
    0 < (s.windows w).width ∧ (s.windows w).width ≤ maxDimension ∧
    0 < (s.windows w).height ∧ (s.windows w).height ≤ maxDimension
  place : ∀ w < maxWindows, (s.windows w).active = true →
    (s.windows w).x.natAbs ≤ 2 ^ 30 ∧ (s.windows w).y.natAbs ≤ 2 ^ 30
  zIndex : s.nextZIndex < 2 ^ 32 - 1

/-- A flush leaves in the dirty rectangles what a repaint of the whole screen would leave there,
whatever the back buffer held. -/
def RepaintExact (s : State) : Prop :=
  ∀ (font : Font) (base : Frame) (dirty : List Rect) (fb fb' : Frame) (p : Point),
    (screenRect s).Has p → (∃ d ∈ dirty, d.Has p) →
    compositorFlush font s base dirty fb p = fullRepaint font s base fb' p

/-! ## Clips on the screen -/

/-- The clips of a flush, which are parts of the screen. -/
abbrev ScreenClip (s : State) := {c : Rect // ∀ p, c.Has p → (screenRect s).Has p}

abbrev ScreenClip.Has (c : ScreenClip s) (p : Point) : Prop := c.1.Has p

variable {area : Point → Prop} {f : Rect → Frame → Frame}

theorem paints_onScreen (h : Paints Rect.Has area f) :
    Paints (ScreenClip.Has (s := s)) (fun p => area p ∧ (screenRect s).Has p) fun c => f c.1 :=
  (h.comap Subtype.val).within fun c p hp => c.2 p hp

theorem rectIntersect_has {a b c : Rect} (h : rectIntersect a b = some c) : ∃ p, c.Has p := by
  unfold rectIntersect at h
  dsimp only at h
  split at h
  · cases h
  · rename_i hne
    cases h
    refine ⟨(max a.x b.x, max a.y b.y), ?_⟩
    simp only [Rect.Has]
    omega

/-- The two rectangles meet exactly if they have a point in common. -/
theorem rectIntersect_isSome_iff {a b : Rect} :
    (rectIntersect a b).isSome = true ↔ ∃ p, a.Has p ∧ b.Has p := by
  constructor
  · intro h
    obtain ⟨c, hc⟩ := Option.isSome_iff_exists.mp h
    obtain ⟨p, hp⟩ := rectIntersect_has hc
    exact ⟨p, (rectIntersect_some hc p).mp hp⟩
  · rintro ⟨p, ha, hb⟩
    exact rectIntersect_isSome ha hb

theorem paints_barOnScreen (font : Font) (focused : Bool) (hd : (s.windows w).desktop = false)
    (h : ∀ p, ¬ButtonOut s w p) :
    Paints (ScreenClip.Has (s := s)) (fun _ => True) fun (c : ScreenClip s) fb =>
      if (rectIntersect (s.windows w).titlebarRect c.1).isSome = true then
        paintTitlebar font focused (s.windows w) c.1 fb
      else fb := by
  by_cases hbar : (rectIntersect (s.windows w).titlebarRect (screenRect s)).isSome = true
  · apply ((paints_onScreen (paints_titlebar font focused (s.windows w))).guard
      (fun c => (rectIntersect (s.windows w).titlebarRect c.1).isSome = true) ?_).mono
    · exact fun _ _ => trivial
    · rintro c p hp ⟨htitle | hbutton, hs⟩
      · exact rectIntersect_isSome htitle hp
      · by_cases htitle : (s.windows w).titlebarRect.Has p
        · exact rectIntersect_isSome htitle hp
        · exact absurd ⟨hd, hbar, hbutton, htitle, hs⟩ (h p)
  · -- no clip on the screen comes to the titlebar
    have hskip : ∀ c : ScreenClip s,
        ¬(rectIntersect (s.windows w).titlebarRect c.1).isSome = true := by
      intro c hc
      obtain ⟨p, htitle, hp⟩ := rectIntersect_isSome_iff.mp hc
      exact hbar (rectIntersect_isSome htitle (c.2 p hp))
    simp only [if_neg (hskip _)]
    exact Paints.id

theorem paints_window (font : Font) (focused : Bool) (h : ∀ p, ¬ButtonOut s w p) :
    Paints (ScreenClip.Has (s := s)) (fun _ => True) fun (c : ScreenClip s) fb =>
      compositeWindow font focused (s.windows w) c.1 fb := by
  unfold compositeWindow
  cases hcanvas : (s.windows w).canvas with
  | none => exact Paints.id
  | some canvas =>
    have hcontent : Paints (ScreenClip.Has (s := s)) (fun _ => True) fun c =>
        paintContent (s.windows w) canvas c.1 :=
      (paints_onScreen (paints_content (s.windows w) canvas)).mono fun _ _ => trivial
    cases hd : (s.windows w).desktop with
    | true => exact hcontent
    | false =>
      have hshadow : Paints (ScreenClip.Has (s := s)) (fun _ => True) fun c =>
          frameShadow (s.windows w).frameRect c.1 :=
        (paints_onScreen (paints_frameShadow (s.windows w).frameRect)).mono fun _ _ => trivial
      exact (hshadow.comp hcontent).comp (paints_barOnScreen font focused hd h)

theorem paints_windows (font : Font) (h : ∀ w ∈ paintOrder s, ∀ p, ¬ButtonOut s w p) :
    Paints (ScreenClip.Has (s := s)) (fun _ => True) fun (c : ScreenClip s) fb =>
      compositeWindowsInRect font s c.1 fb := by
  apply Paints.foldl _ Paints.id
  exact fun w hw => paints_window font _ (h w hw)

theorem clips_onScreen (s : State) (dirty : List Rect) :
    ∀ r ∈ clips s dirty, ∀ p, r.Has p → (screenRect s).Has p := by
  intro r hr p hp
  obtain ⟨d, -, heq⟩ := List.mem_filterMap.mp hr
  exact ((rectIntersect_some heq p).mp hp).2

def screenClips (s : State) (dirty : List Rect) : List (ScreenClip s) :=
  (clips s dirty).attachWith _ (clips_onScreen s dirty)

theorem mem_screenClips {dirty : List Rect} {r : ScreenClip s} :
    r ∈ screenClips s dirty ↔ r.1 ∈ clips s dirty := List.mem_attachWith _ _

theorem compositorFlush_screenClips (font : Font) (s : State) (base : Frame) (dirty : List Rect)
    (fb : Frame) :
    compositorFlush font s base dirty fb = (screenClips s dirty).foldl (fun fb r =>
      compositeWindowsInRect font s r.1 (blitRectDb s r.1 base fb)) fb := by
  rw [compositorFlush_eq, screenClips, List.foldl_attachWith, ← List.foldl_attach]
  rfl

/-- A pixel in a dirty rectangle gets the value that it has in a repaint of the whole screen. -/
theorem flush_eq_full (font : Font) (h : ∀ w ∈ paintOrder s, ∀ p, ¬ButtonOut s w p) (base : Frame)
    (dirty : List Rect) (fb fb' : Frame) (hs : (screenRect s).Has p) (hd : ∃ d ∈ dirty, d.Has p) :
    compositorFlush font s base dirty fb p = fullRepaint font s base fb' p := by
  obtain ⟨g, hg⟩ := paints_windows font h
  have hrestore : ∀ dirty : List Rect, ∀ r ∈ screenClips s dirty, ∀ fb p,
      blitRectDb s r.1 base fb p = if r.1.Has p then base p else fb p := by
    intro dirty r hr fb p
    obtain ⟨d, -, heq⟩ := List.mem_filterMap.mp (mem_screenClips.mp hr)
    exact blitRectDb_apply heq base fb p
  have hflush : ∀ (dirty : List Rect) (fb : Frame), (∃ d ∈ dirty, d.Has p) →
      compositorFlush font s base dirty fb p = g p (base p) := by
    intro dirty fb hd
    rw [compositorFlush_screenClips]
    apply hg.foldl_restore (screenClips s dirty)
    · intro r hr fb p hp
      rw [hrestore dirty r hr, if_pos hp]
    · intro r hr fb p hp
      rw [hrestore dirty r hr, if_neg hp]
    · obtain ⟨r, hr, hp⟩ := mem_clips.mpr ⟨hs, hd⟩
      exact Or.inl ⟨⟨r, clips_onScreen s dirty r hr⟩, mem_screenClips.mpr hr, hp⟩
  -- the whole screen is a flush of one rectangle
  have hfull : fullRepaint font s base fb' = compositorFlush font s base [screenRect s] fb' := by
    simp only [compositorFlush, List.foldl_cons, List.foldl_nil, rectIntersect_screen hs]
    rfl
  rw [hfull, hflush dirty fb hd, hflush [screenRect s] fb' ⟨_, List.mem_singleton_self _, hs⟩]

/-! ## A button that sticks out -/

/-- The colour has some red, which black has not. -/
def Red (v : Nat) : Prop := 2 ^ 16 ≤ v

variable {c v : Nat} {clip q r : Rect}

/-- Enough of a colour with enough red leaves some of it. -/
theorem red_aaMix (hc : 17 ≤ (c >>> 16) &&& 0xFF) (ha : 15 ≤ a) (v : Nat) : Red (aaMix c v a) := by
  unfold aaMix
  split_ifs with hfull hzero
  · have hlow : (c >>> 16) &&& 0xFF = c / 2 ^ 16 % 2 ^ 8 := by
      rw [Nat.shiftRight_eq_div_pow]
      exact Nat.and_two_pow_sub_one_eq_mod _ 8
    have hall : c &&& 0xFFFFFF = c % 2 ^ 24 := Nat.and_two_pow_sub_one_eq_mod _ 24
    rw [Red, hall]
    omega
  · omega
  · have hmul : 17 * 15 ≤ ((c >>> 16) &&& 0xFF) * a := Nat.mul_le_mul hc ha
    have hred : 1 ≤ (((c >>> 16) &&& 0xFF) * a + ((v >>> 16) &&& 0xFF) * (255 - a)) / 255 := by
      rw [Nat.le_div_iff_mul_le (by decide)]
      omega
    have hshift : 2 ^ 16 ≤ ((((c >>> 16) &&& 0xFF) * a +
        ((v >>> 16) &&& 0xFF) * (255 - a)) / 255) <<< 16 := by
      rw [Nat.shiftLeft_eq]
      omega
    exact hshift.trans (Nat.left_le_or.trans Nat.left_le_or)

theorem red_of_channel (hc : 17 ≤ (c >>> 16) &&& 0xFF) : Red c := by
  have hlow : (c >>> 16) &&& 0xFF = c / 2 ^ 16 % 2 ^ 8 := by
    rw [Nat.shiftRight_eq_div_pow]
    exact Nat.and_two_pow_sub_one_eq_mod _ 8
  unfold Red
  omega

theorem aaCov_ge {px py x y w h rt rb : Int} (hne : aaCov px py x y w h rt rb ≠ 0) :
    15 ≤ aaCov px py x y w h rt rb := by
  unfold aaCov at hne ⊢
  revert hne
  cases aaCorner px py x y w h rt rb with
  | none => exact fun _ => Nat.le_of_ble_eq_true rfl
  | some k =>
    intro hne
    dsimp only at hne ⊢
    have hpos : 1 ≤ samples px py k.2.1 k.2.2 k.1 := by
      by_contra hzero
      exact hne (by rw [Nat.lt_one_iff.mp (Nat.lt_of_not_le hzero)])
    exact Nat.div_le_div_right (c := 16) (Nat.mul_le_mul_right 255 hpos)

theorem fillRectClip_leads (area : Rect) (hc : Red c) (clip : Rect) :
    Leads p Red Red (fillRectClip area c clip) := by
  intro fb hred
  unfold fillRectClip overRect
  cases rectIntersect area clip with
  | none => exact hred
  | some part =>
    dsimp only
    split_ifs
    · exact hc
    · exact hred

theorem fillRectClip_gives {area : Rect} (hc : Red c) (harea : area.Has p) (hp : clip.Has p) :
    Leads p (fun _ => True) Red (fillRectClip area c clip) := by
  intro fb _
  unfold fillRectClip overRect
  cases hpart : rectIntersect area clip with
  | none => exact absurd ⟨harea, hp⟩ (rectIntersect_none hpart p)
  | some part =>
    dsimp only
    rw [if_pos ((rectIntersect_some hpart p).mpr ⟨harea, hp⟩)]
    exact hc

theorem blendPx_leads (x : Point) (hc : 17 ≤ (c >>> 16) &&& 0xFF) (ha : a ≠ 0 → 15 ≤ a)
    (clip : Rect) : Leads p Red Red (blendPx x c a clip) := by
  intro fb hred
  unfold blendPx
  split_ifs with hzero hclip
  · exact hred
  · by_cases hpx : p = x
    · subst hpx
      rw [Function.update_self]
      exact red_aaMix hc (ha hzero) _
    · rw [Function.update_of_ne hpx]
      exact hred
  · exact hred

theorem blendPx_gives {x : Point} (hx : p = x) (hc : 17 ≤ (c >>> 16) &&& 0xFF) (ha : 15 ≤ a)
    (hp : clip.Has p) : Leads p (fun _ => True) Red (blendPx x c a clip) := by
  subst hx
  intro fb _
  unfold blendPx
  rw [if_neg (by omega), if_pos hp, Function.update_self]
  exact red_aaMix hc ha _

/-- The colour of row `k` of a gradient. -/
def gradColor (height top bot k : Nat) : Nat :=
  if top = bot then top else aaMix bot top (k * 255 / if height > 1 then height - 1 else 1)

section Gradient

variable {area : Rect} {k : Nat}

theorem roundGradRow_eq (area : Rect) (top bot rt rb k : Nat) (clip : Rect) (fb : Frame) :
    roundGradRow area top bot rt rb (area.y + k) clip fb =
      if rowRadius area rt rb (area.y + k) = 0 then
        fillRectClip ⟨area.x, area.y + k, area.width, 1⟩ (gradColor area.height top bot k) clip fb
      else
        (List.range (rowRadius area rt rb (area.y + k))).foldl (fun fb (i : Nat) =>
          blendPx (area.x + area.width - 1 - i, area.y + k) (gradColor area.height top bot k)
            (aaCov (area.x + area.width - 1 - i) (area.y + k) area.x area.y area.width area.height
              rt rb) clip
            (blendPx (area.x + i, area.y + k) (gradColor area.height top bot k)
              (aaCov (area.x + i) (area.y + k) area.x area.y area.width area.height rt rb) clip fb))
          (fillRectClip ⟨area.x + rowRadius area rt rb (area.y + k), area.y + k,
            area.width - 2 * rowRadius area rt rb (area.y + k), 1⟩
            (gradColor area.height top bot k) clip fb) := by
  have hrow : (area.y + k - area.y).toNat = k := by omega
  unfold roundGradRow gradColor
  rw [hrow]

theorem roundGradRow_leads (hc : 17 ≤ (gradColor area.height top bot k >>> 16) &&& 0xFF)
    (clip : Rect) : Leads p Red Red (roundGradRow area top bot rt rb (area.y + k) clip) := by
  intro fb hred
  rw [roundGradRow_eq]
  split_ifs
  · exact fillRectClip_leads _ (red_of_channel hc) clip fb hred
  · refine (fillRectClip_leads _ (red_of_channel hc) clip).foldl ?_ fb hred
    intro i _
    exact (blendPx_leads _ hc aaCov_ge clip).comp (blendPx_leads _ hc aaCov_ge clip)

/-- The row gives its pixels the colour, or blends it in. -/
theorem roundGradRow_gives (hc : 17 ≤ (gradColor area.height top bot k >>> 16) &&& 0xFF)
    (hrt : rt ≤ area.width / 2) (hrb : rb ≤ area.width / 2) (hrow : p.2 = area.y + k)
    (hp : RoundedHas area rt rb p) (hclip : clip.Has p) :
    Leads p (fun _ => True) Red (roundGradRow area top bot rt rb (area.y + k) clip) := by
  have hr := rowRadius_le hrt hrb (a := area) (area.y + k)
  obtain ⟨⟨hx, hx', -, -⟩, hcov⟩ := hp
  rw [hrow] at hcov
  have hpair : ∀ i, Leads p Red Red fun fb => blendPx (area.x + area.width - 1 - (i : Nat),
      area.y + k) (gradColor area.height top bot k) (aaCov (area.x + area.width - 1 - i)
        (area.y + k) area.x area.y area.width area.height rt rb) clip
      (blendPx (area.x + i, area.y + k) (gradColor area.height top bot k)
        (aaCov (area.x + i) (area.y + k) area.x area.y area.width area.height rt rb) clip fb) :=
    fun i => (blendPx_leads _ hc aaCov_ge clip).comp (blendPx_leads _ hc aaCov_ge clip)
  intro fb _
  rw [roundGradRow_eq]
  split_ifs with hzero
  · apply fillRectClip_gives (red_of_channel hc) _ hclip fb trivial
    simp only [Rect.Has]
    omega
  generalize hradius : rowRadius area rt rb (area.y + k) = radius at hr hzero
  rcases lt_or_ge p.1 (area.x + radius) with hleft | hleft
  · -- a pixel of the left corner
    have hcolumn : p.1 = area.x + (p.1 - area.x).toNat := by omega
    rw [hcolumn] at hcov
    refine Leads.foldl_of_mem (List.mem_range.mpr (show (p.1 - area.x).toNat < radius by omega)) ?_
      (fun i _ => hpair i) _ fb trivial
    exact (blendPx_gives (Prod.ext hcolumn hrow) hc (aaCov_ge hcov) hclip).comp
      (blendPx_leads _ hc aaCov_ge clip)
  rcases lt_or_ge p.1 (area.x + area.width - radius) with hright | hright
  · refine (fillRectClip_gives (red_of_channel hc) ?_ hclip).foldl (fun i _ => hpair i) fb trivial
    simp only [Rect.Has]
    omega
  · -- a pixel of the right corner
    have hcolumn : p.1 = area.x + area.width - 1 -
        (area.x + area.width - 1 - p.1).toNat := by omega
    rw [hcolumn] at hcov
    refine Leads.foldl_of_mem (List.mem_range.mpr
      (show (area.x + area.width - 1 - p.1).toNat < radius by omega)) ?_
      (fun i _ => hpair i) _ fb trivial
    exact Leads.comp (fun _ _ => trivial)
      (blendPx_gives (Prod.ext hcolumn hrow) hc (aaCov_ge hcov) hclip)

theorem roundGradFill_gives
    (hc : ∀ k < area.height, 17 ≤ (gradColor area.height top bot k >>> 16) &&& 0xFF)
    (hrt : rt ≤ area.width / 2) (hrb : rb ≤ area.width / 2) (hp : RoundedHas area rt rb p)
    (hclip : clip.Has p) :
    Leads p (fun _ => True) Red (roundGradFill area top bot rt rb clip) := by
  obtain ⟨hx, hx', hy, hy'⟩ := hp.1
  have hk : (p.2 - area.y).toNat < area.height := by omega
  have hrows : Leads p (fun _ => True) Red fun fb => (List.range area.height).foldl
      (fun fb (k : Nat) => roundGradRow area top bot rt rb (area.y + k) clip fb) fb := by
    refine Leads.foldl_of_mem (List.mem_range.mpr hk) ?_ ?_ fun fb => fb
    · exact roundGradRow_gives (hc _ hk) hrt hrb (by omega) hp hclip
    · intro k hk
      exact roundGradRow_leads (hc k (List.mem_range.mp hk)) clip
  unfold roundGradFill
  dsimp only
  rw [if_neg (Nat.not_lt.mpr hrt), if_neg (Nat.not_lt.mpr hrb)]
  simp only [if_neg (show ¬(area.width = 0 ∨ area.height = 0) by omega)]
  exact hrows

end Gradient

theorem titlebarLine_leads (x0 y0 x1 y1 : Int) (hc : Red c) (clip : Rect) :
    Leads p Red Red (titlebarLine x0 y0 x1 y1 c clip) := by
  unfold titlebarLine
  refine Leads.foldl Leads.id ?_
  intro i _ fb hred
  unfold putPx
  split_ifs
  · rw [Function.update_apply]
    split_ifs
    · exact hc
    · exact hred
  · exact hred

/-- The painted titlebar leaves some red where its button sticks out. -/
theorem paintTitlebar_gives (font : Font) (focused : Bool) {w : Window} (hbutton : w.ButtonHas p)
    (hout : ¬w.titlebarRect.Has p) (hclip : clip.Has p) :
    Leads p (fun _ => True) Red (paintTitlebar font focused w clip) := by
  have hcolor : ∀ k < w.closeRect.height, 17 ≤ (gradColor w.closeRect.height
      (aaShade closeColor 12) (aaShade closeColor (-10)) k >>> 16) &&& 0xFF := by
    show ∀ k < 18, 17 ≤ (gradColor 18 (aaShade closeColor 12) (aaShade closeColor (-10)) k >>>
      16) &&& 0xFF
    decide
  have hradius : 4 ≤ w.closeRect.width / 2 := by
    show 4 ≤ 22 / 2
    decide
  have hwhite : Red 0xFFFFFF := by
    unfold Red
    decide
  have hgives := roundGradFill_gives hcolor hradius hradius hbutton hclip
  have hline := hgives.comp (titlebarLine_leads (w.closeRect.x + 7) (w.closeRect.y + 5)
    (w.closeRect.x + 14) (w.closeRect.y + 12) hwhite clip)
  have hlines := hline.comp (titlebarLine_leads (w.closeRect.x + 14) (w.closeRect.y + 5)
    (w.closeRect.x + 7) (w.closeRect.y + 12) hwhite clip)
  have htitle := hlines.comp ((paints_title font w w.title).leads clip hout)
  exact fun fb _ => htitle _ trivial

/-! ## A point that only the button covers -/

theorem rectIntersect_point {d : Rect} (hd : ∀ q, d.Has q ↔ q = p) {a : Rect} (hp : ¬a.Has p) :
    (rectIntersect a d).isSome = false := by
  by_contra hsome
  obtain ⟨q, ha, hq⟩ := rectIntersect_isSome_iff.mp (Bool.of_not_eq_false hsome)
  exact hp ((hd q).mp hq ▸ ha)

theorem frameShadow_black (frame clip : Rect) :
    Leads p (· = 0) (· = 0) (frameShadow frame clip) := by
  have hblend : ∀ area a, Leads p (· = 0) (· = 0) (blendRectClip area 0x000000 a clip) := by
    intro area a fb hblack
    unfold blendRectClip overRect
    split_ifs
    · exact hblack
    · cases rectIntersect area clip with
      | none => exact hblack
      | some part =>
        dsimp only
        split_ifs
        · rw [hblack]
          unfold aaMix
          simp
        · exact hblack
  unfold frameShadow
  refine Leads.foldl Leads.id ?_
  intro ring _
  exact (((hblend _ _).comp (hblend _ _)).comp (hblend _ _)).comp (hblend _ _)

theorem compositeWindow_gives (font : Font) (focused : Bool) {w : Window}
    (hcanvas : w.canvas.isSome = true) (hd : w.desktop = false)
    (hbar : (rectIntersect w.titlebarRect clip).isSome = true) (hbutton : w.ButtonHas p)
    (hout : ¬w.titlebarRect.Has p) (hclip : clip.Has p) :
    Leads p (fun _ => True) Red (compositeWindow font focused w clip) := by
  obtain ⟨canvas, hcanvas⟩ := Option.isSome_iff_exists.mp hcanvas
  intro fb _
  unfold compositeWindow
  rw [hcanvas, hd]
  simp only [Bool.false_eq_true, if_false, if_pos hbar]
  exact paintTitlebar_gives font focused hbutton hout hclip _ trivial

/-- A repaint of the one pixel does not come to the button. -/
theorem compositeWindow_black (font : Font) (focused : Bool) {w : Window} (hd : w.desktop = false)
    (hbutton : w.ButtonHas p) (hout : ¬w.titlebarRect.Has p) (hclip : ∀ q, clip.Has q ↔ q = p) :
    Leads p (· = 0) (· = 0) (compositeWindow font focused w clip) := by
  have hcontent : ¬w.contentRect.Has p := by
    have hbar : w.tb = titlebarH := by
      unfold Window.tb
      rw [hd]
      rfl
    have hheight : titlebarH = 24 := rfl
    obtain ⟨⟨-, -, -, hy⟩, -⟩ := hbutton
    change p.2 < w.y + 3 + 18 at hy
    simp only [Rect.Has, Window.contentRect, hbar]
    omega
  intro fb hblack
  unfold compositeWindow
  cases w.canvas with
  | none => exact hblack
  | some canvas =>
    simp only [hd, Bool.false_eq_true, if_false, rectIntersect_point hclip hout]
    exact ((frameShadow_black _ _).comp ((paints_content w canvas).leads clip hcontent)) fb hblack

/-- The pixel is black after the repaint of it alone, and has some red on the repainted screen. -/
theorem ButtonOut.not_exact (h : ButtonOut s w p) (hw : w ∈ paintOrder s)
    (hother : ∀ v ∈ paintOrder s, v ≠ w → ¬(s.windows v).Covers p) : ¬RepaintExact s := by
  have hcanvas : (s.windows w).canvas.isSome = true := (mem_paintOrder.mp hw).2.2.2
  have hothers : ∀ (font : Font) (clip : Rect) (good : Nat → Prop), ∀ v ∈ paintOrder s, v ≠ w →
      Leads p good good (compositeWindow font (s.focusedWinId == some v) (s.windows v) clip) := by
    intro font clip good v hv hne fb hgood
    rw [compositeWindow_keeps font _ clip (hother v hv hne)]
    exact hgood
  have hpoint : (⟨p.1, p.2, 1, 1⟩ : Rect).Has p := by
    simp only [Rect.Has]
    omega
  intro hexact
  have heq := hexact (fun _ _ => 0) (fun _ => 0) [⟨p.1, p.2, 1, 1⟩] (fun _ => 0) (fun _ => 0) p
    h.screen ⟨_, List.mem_singleton_self _, hpoint⟩
  have hfull : Red (fullRepaint (fun _ _ => 0) s (fun _ => 0) (fun _ => 0) p) := by
    have hpaint := compositeWindow_gives (fun _ _ => 0) (s.focusedWinId == some w) hcanvas h.titled
      h.bar h.button h.outside h.screen
    refine Leads.foldl_of_mem hw hpaint ?_ (blitRectDb s (screenRect s) fun _ => 0) _ trivial
    intro v hv
    by_cases hvw : v = w
    · subst hvw
      exact fun fb _ => hpaint fb trivial
    · exact hothers _ _ _ v hv hvw
  have hflush : compositorFlush (fun _ _ => 0) s (fun _ => 0) [⟨p.1, p.2, 1, 1⟩] (fun _ => 0) p =
      0 := by
    obtain ⟨r, hr⟩ := Option.isSome_iff_exists.mp (rectIntersect_isSome hpoint h.screen)
    have hclip : ∀ q, r.Has q ↔ q = p := by
      intro q
      rw [rectIntersect_some hr q]
      constructor
      · rintro ⟨hq, -⟩
        simp only [Rect.Has] at hq
        exact Prod.ext (by omega) (by omega)
      · rintro rfl
        exact ⟨hpoint, h.screen⟩
    have hbase : Leads p (fun _ => True) (· = 0) (blitRectDb s r fun _ => 0) := by
      intro fb _
      rw [blitRectDb_apply hr, if_pos ((hclip p).mpr rfl)]
    have hwindows : Leads p (fun _ => True) (· = 0)
        (repaintRect (fun _ _ => 0) s (fun _ => 0) r) := by
      refine hbase.foldl fun v hv => ?_
      by_cases hvw : v = w
      · subst hvw
        exact compositeWindow_black _ _ h.titled h.button h.outside hclip
      · exact hothers _ _ _ v hv hvw
    simp only [compositorFlush, List.foldl_cons, List.foldl_nil, hr]
    exact hwindows _ trivial
  rw [← heq, hflush] at hfull
  exact absurd hfull (by unfold Red; decide)

/-- Flushes of a table are exact if on the screen no button sticks out of its titlebar, and they are
not if one does at a point that no other window covers. -/
theorem flush_exact (s : State) (_ : Admitted s) :
    ((∀ w ∈ paintOrder s, ∀ p, ¬ButtonOut s w p) → RepaintExact s) ∧
    ∀ w ∈ paintOrder s, ∀ p, ButtonOut s w p →
      (∀ v ∈ paintOrder s, v ≠ w → ¬(s.windows v).Covers p) → ¬RepaintExact s := by
  constructor
  · intro h font base dirty fb fb' p hs hd
    exact flush_eq_full font h base dirty fb fb' hs hd
  · intro w hw p hp hother
    exact hp.not_exact hw hother

/-! ## Windows that are 30 pixels wide -/

theorem admitted_of_table
    (hwidth : ∀ w < maxWindows, (s.windows w).active = true →
      0 < (s.windows w).width ∧ (s.windows w).width ≤ maxDimension)
    (hheight : ∀ w < maxWindows, (s.windows w).active = true →
      0 < (s.windows w).height ∧ (s.windows w).height ≤ maxDimension)
    (hplace : ∀ w < maxWindows, (s.windows w).active = true →
      (s.windows w).x.natAbs ≤ 2 ^ 30 ∧ (s.windows w).y.natAbs ≤ 2 ^ 30)
    (hnext : s.nextZIndex < 2 ^ 32 - 1) : Admitted s where
  size w hw hactive _ :=
    ⟨(hwidth w hw hactive).1, (hwidth w hw hactive).2, (hheight w hw hactive).1,
      (hheight w hw hactive).2⟩
  place := hplace
  zIndex := hnext

/-- A table with one window that is 30 pixels wide. -/
def narrow : State := exec (boot 200 200) (.createWindow 1 (some fun _ => 0) 100 100 30 10)

theorem narrow_admitted : Admitted narrow :=
  admitted_of_table (by decide) (by decide) (by decide) (by decide)

/-- The first column of the button is to the left of the titlebar. -/
theorem narrow_out : ButtonOut narrow 0 (99, 110) where
  titled := by decide
  bar := by decide
  button := ⟨by decide, by decide⟩
  outside := by decide
  screen := by decide

theorem narrow_others : ∀ v ∈ paintOrder narrow, v = 0 := by decide

/-- Such a window to the left of the screen. -/
def offScreen : State := exec (boot 200 200) (.createWindow 1 (some fun _ => 0) (-100) 100 30 10)

theorem offScreen_admitted : Admitted offScreen :=
  admitted_of_table (by decide) (by decide) (by decide) (by decide)

theorem offScreen_not_out : ∀ w ∈ paintOrder offScreen, ∀ p, ¬ButtonOut offScreen w p := by
  have hplace : ∀ w ∈ paintOrder offScreen, (offScreen.windows w).closeRect.x = -101 := by
    decide
  intro w hw p hp
  have hx := hplace w hw
  obtain ⟨⟨-, hright, -, -⟩, -⟩ := hp.button
  have hwidth : (offScreen.windows w).closeRect.width = 22 := rfl
  have hleft : 0 ≤ p.1 := hp.screen.1
  omega

/-- The same button, on the screen and off it. -/
theorem flush_exact_narrow : ¬RepaintExact narrow ∧ RepaintExact offScreen :=
  ⟨(flush_exact narrow narrow_admitted).2 0 (by decide) (99, 110) narrow_out
    fun v hv hne => absurd (narrow_others v hv) hne,
   (flush_exact offScreen offScreen_admitted).1 offScreen_not_out⟩

theorem flush_misses_button : ¬ ∀ s : State, Admitted s → RepaintExact s :=
  fun h => narrow_out.not_exact (by decide)
    (fun v hv hne => absurd (narrow_others v hv) hne) (h narrow narrow_admitted)

end Kyuzen.Kwm
