import Mathlib.Data.List.Basic
import Kyuzen.Kwm.Model

/-!
# The compositor

`kernel/gfx/compositor.c`, with `rect_intersect` and `viewport_render` of `kernel/display.c` and
the colour arithmetic of `include/aa_math.h`. A buffer of the size of the screen is a function
from points to pixels: every access of the source is clipped to the screen, where
`y * pitch4 + x` tells the points apart. Two nested loops over the rows and columns of a
rectangle touch each of its points once and are written as one function of the point.

Windows lie within `2 ^ 30` of the screen and are at most 4096 pixels wide and high, so that no
sum of coordinates leaves the 32-bit range. The table of the font is a parameter.
-/

namespace Kyuzen.Kwm

abbrev Point := Int × Int

abbrev Frame := Point → Nat

/-- The point lies in the rectangle. -/
def Rect.Has (r : Rect) (p : Point) : Prop :=
  r.x ≤ p.1 ∧ p.1 < r.x + r.width ∧ r.y ≤ p.2 ∧ p.2 < r.y + r.height

instance (r : Rect) (p : Point) : Decidable (r.Has p) :=
  inferInstanceAs (Decidable (_ ∧ _ ∧ _ ∧ _))

def rectIntersect (a b : Rect) : Option Rect :=
  let x0 := max a.x b.x
  let y0 := max a.y b.y
  let x1 := min (a.x + a.width) (b.x + b.width)
  let y1 := min (a.y + a.height) (b.y + b.height)
  if x1 ≤ x0 ∨ y1 ≤ y0 then none else some ⟨x0, y0, (x1 - x0).toNat, (y1 - y0).toNat⟩

/-! ## Colours -/

def aaMix (src dst a : Nat) : Nat :=
  if a ≥ 255 then src &&& 0xFFFFFF
  else if a = 0 then dst &&& 0xFFFFFF
  else
    let na := 255 - a
    let r := (((src >>> 16) &&& 0xFF) * a + ((dst >>> 16) &&& 0xFF) * na) / 255
    let g := (((src >>> 8) &&& 0xFF) * a + ((dst >>> 8) &&& 0xFF) * na) / 255
    let b := ((src &&& 0xFF) * a + (dst &&& 0xFF) * na) / 255
    (r <<< 16) ||| (g <<< 8) ||| b

/-- One channel, closer to white or to black by a percentage. -/
def shadeChannel (v pct : Int) : Nat :=
  (if pct ≥ 0 then v + Int.tdiv ((255 - v) * pct) 100 else v + Int.tdiv (v * pct) 100).toNat

def aaShade (c : Nat) (pct : Int) : Nat :=
  let r := shadeChannel ((c >>> 16) &&& 0xFF : Nat) pct
  let g := shadeChannel ((c >>> 8) &&& 0xFF : Nat) pct
  let b := shadeChannel (c &&& 0xFF : Nat) pct
  (r <<< 16) ||| (g <<< 8) ||| b

/-- How many of the 16 samples of the pixel lie in the circle around `(cx, cy)`. -/
def samples (px py cx cy r : Int) : Nat :=
  (([1, 3, 5, 7] : List Int).flatMap fun sy => ([1, 3, 5, 7] : List Int).filter fun sx =>
    (px * 8 + sx - cx * 8) * (px * 8 + sx - cx * 8) +
      (py * 8 + sy - cy * 8) * (py * 8 + sy - cy * 8) ≤ (r * 8) * (r * 8)).length

/-- The corner whose circle decides about the pixel: its radius and the centre. -/
def aaCorner (px py x y w h rt rb : Int) : Option (Int × Int × Int) :=
  let row : Option (Int × Int) :=
    if rt > 0 ∧ py < y + rt then some (rt, y + rt)
    else if rb > 0 ∧ py ≥ y + h - rb then some (rb, y + h - rb)
    else none
  row.bind fun rc =>
    if px < x + rc.1 then some (rc.1, x + rc.1, rc.2)
    else if px ≥ x + w - rc.1 then some (rc.1, x + w - rc.1, rc.2)
    else none

def aaCov (px py x y w h rt rb : Int) : Nat :=
  match aaCorner px py x y w h rt rb with
  | none => 255
  | some (r, cx, cy) => samples px py cx cy r * 255 / 16

/-! ## Primitives -/

/-- The loops over the part of an area that lies in the clip. -/
def overRect (area : Rect) (g : Point → Nat → Nat) (clip : Rect) (fb : Frame) : Frame :=
  match rectIntersect area clip with
  | none => fb
  | some c => fun p => if c.Has p then g p (fb p) else fb p

def fillRectClip (area : Rect) (color : Nat) (clip : Rect) (fb : Frame) : Frame :=
  overRect area (fun _ _ => color) clip fb

def blendPx (q : Point) (c a : Nat) (clip : Rect) (fb : Frame) : Frame :=
  if a = 0 then fb
  else if clip.Has q then Function.update fb q (aaMix c (fb q) a)
  else fb

def blendRectClip (area : Rect) (c a : Nat) (clip : Rect) (fb : Frame) : Frame :=
  if a = 0 then fb else overRect area (fun _ v => aaMix c v a) clip fb

/-- `fb[y * pitch4 + x] = color` behind a test of the clip. -/
def putPx (q : Point) (color : Nat) (clip : Rect) (fb : Frame) : Frame :=
  if clip.Has q then Function.update fb q color else fb

/-- The radius of the corners in row `iy`, 0 where the row is straight. -/
def rowRadius (a : Rect) (rt rb : Nat) (iy : Int) : Nat :=
  if rt ≠ 0 ∧ iy < a.y + rt then rt
  else if rb ≠ 0 ∧ iy ≥ a.y + a.height - rb then rb
  else 0

/-- Row `iy` of `round_grad_fill`. -/
def roundGradRow (a : Rect) (top bot rt rb : Nat) (iy : Int) (clip : Rect) (fb : Frame) : Frame :=
  let c :=
    if top = bot then top
    else aaMix bot top
      ((iy - a.y).toNat * 255 / if a.height > 1 then a.height - 1 else 1)
  let r := rowRadius a rt rb iy
  let cov := fun px => aaCov px iy a.x a.y a.width a.height rt rb
  if r = 0 then fillRectClip ⟨a.x, iy, a.width, 1⟩ c clip fb
  else
    (List.range r).foldl (fun fb (k : Nat) =>
      blendPx (a.x + a.width - 1 - k, iy) c (cov (a.x + a.width - 1 - k)) clip
        (blendPx (a.x + k, iy) c (cov (a.x + k)) clip fb))
      (fillRectClip ⟨a.x + r, iy, a.width - 2 * r, 1⟩ c clip fb)

def roundGradFill (a : Rect) (top bot rt rb : Nat) (clip : Rect) (fb : Frame) : Frame :=
  if a.width = 0 ∨ a.height = 0 then fb
  else
    let rt := if rt > a.width / 2 then a.width / 2 else rt
    let rb := if rb > a.width / 2 then a.width / 2 else rb
    (List.range a.height).foldl
      (fun fb (k : Nat) => roundGradRow a top bot rt rb (a.y + k) clip fb) fb

/-- A ring of the shadow: `k` pixels outside the frame, and 3 pixels down. -/
def shadowRing (frame : Rect) (k a : Nat) (clip : Rect) (fb : Frame) : Frame :=
  let s : Rect := ⟨frame.x - k, frame.y - k + 3, frame.width + 2 * k, frame.height + 2 * k⟩
  let fb := blendRectClip ⟨s.x, s.y, s.width, 1⟩ 0x000000 a clip fb
  let fb := blendRectClip ⟨s.x, s.y + s.height - 1, s.width, 1⟩ 0x000000 a clip fb
  let fb := blendRectClip ⟨s.x, s.y + 1, 1, s.height - 2⟩ 0x000000 a clip fb
  blendRectClip ⟨s.x + s.width - 1, s.y + 1, 1, s.height - 2⟩ 0x000000 a clip fb

/-- The rings, from the innermost one, with the `alpha` of the source. -/
def shadowRings : List (Nat × Nat) := [(1, 58), (2, 46), (3, 34), (4, 24), (5, 15), (6, 8)]

def frameShadow (frame clip : Rect) (fb : Frame) : Frame :=
  shadowRings.foldl (fun fb ring => shadowRing frame ring.1 ring.2 clip fb) fb

def titlebarLine (x0 y0 x1 y1 : Int) (color : Nat) (clip : Rect) (fb : Frame) : Frame :=
  let dx := x1 - x0
  let dy := y1 - y0
  let steps := max (max dx.natAbs dy.natAbs) 1
  (List.range (steps + 1)).foldl (fun fb (i : Nat) =>
    putPx (x0 + Int.tdiv (dx * i) steps, y0 + Int.tdiv (dy * i) steps) color clip fb) fb

/-- `font8x16`: the rows of a character, as bytes. -/
abbrev Font := Nat → Nat → Nat

/-- One character, 8 pixels wide and 16 high. -/
def glyph (font : Font) (c : Nat) (x y : Int) (color : Nat) (clip : Rect) (fb : Frame) : Frame :=
  (List.range 16).foldl (fun fb (row : Nat) =>
    (List.range 8).foldl (fun fb (col : Nat) =>
      if font c row &&& (0x80 >>> col) = 0 then fb
      else putPx (x + col, y + row) color clip fb) fb) fb

def titlebarText (font : Font) (y maxX : Int) (color : Nat) (clip : Rect) :
    List UInt8 → Int → Frame → Frame
  | [], _, fb => fb
  | c :: rest, x, fb =>
    if x + 8 ≤ maxX then
      titlebarText font y maxX color clip rest (x + 8)
        (if c.toNat > 127 then fb else glyph font c.toNat x y color clip fb)
    else fb

/-! ## Windows -/

def titlebarColor : Nat := 0x1F4E8C
def titlebarInact : Nat := 0x3A3A3A
def closeColor : Nat := 0xE53935
def cornerR : Nat := 8

/-- The content, below the titlebar. -/
def Window.contentRect (w : Window) : Rect := ⟨w.x, w.y + w.tb, w.width, w.height⟩

def Window.titlebarRect (w : Window) : Rect := ⟨w.x, w.y, w.width, titlebarH⟩

/-- Content and titlebar. -/
def Window.frameRect (w : Window) : Rect := ⟨w.x, w.y, w.width, w.height + w.tb⟩

/-- The close button, in the middle of the last 40 pixels of the titlebar. -/
def Window.closeRect (w : Window) : Rect := ⟨w.x + w.width - closeBtnW / 2 - 11, w.y + 3, 22, 18⟩

/-- The pixels of the canvas; the alpha byte says whether a pixel is there. -/
def paintContent (w : Window) (canvas : Canvas) (r : Rect) (fb : Frame) : Frame :=
  overRect w.contentRect (fun p v =>
    let pixel := canvas.pixels
      ((p.2 - w.contentRect.y).toNat * w.width + (p.1 - w.x).toNat)
    if pixel >>> 24 ≠ 0 then pixel &&& 0xFFFFFF else v) r fb

/-- The titlebar with the close button, its cross and the title. -/
def paintTitlebar (font : Font) (focused : Bool) (w : Window) (r : Rect) (fb : Frame) : Frame :=
  let base := if focused then titlebarColor else titlebarInact
  let cb := w.closeRect
  let fb := roundGradFill w.titlebarRect (aaShade base 14) (aaShade base (-12)) cornerR 0 r fb
  let fb := roundGradFill cb (aaShade closeColor 12) (aaShade closeColor (-10)) 4 4 r fb
  let fb := titlebarLine (cb.x + 7) (cb.y + 5) (cb.x + 14) (cb.y + 12) 0xFFFFFF r fb
  let fb := titlebarLine (cb.x + 14) (cb.y + 5) (cb.x + 7) (cb.y + 12) 0xFFFFFF r fb
  titlebarText font (w.y + 4) (w.x + w.width - closeBtnW - 8) 0xFFFFFF r w.title (w.x + 12) fb

/-- A window in the loops of `composite_windows_in_rect`. -/
def compositeWindow (font : Font) (focused : Bool) (w : Window) (r : Rect) (fb : Frame) : Frame :=
  match w.canvas with
  | none => fb
  | some canvas =>
    let fb := if w.desktop then fb else frameShadow w.frameRect r fb
    let fb := paintContent w canvas r fb
    if w.desktop then fb
    else if (rectIntersect w.titlebarRect r).isSome then paintTitlebar font focused w r fb
    else fb

/-- The windows in the order in which the two loops come to them. At the largest 32-bit number in
`next_z_index` the outer loop of the source does not end, and this is the order of its first round. -/
def paintOrder (s : State) : List Nat :=
  (List.range (s.nextZIndex + 1)).flatMap fun z => (List.range maxWindows).filter fun w =>
    (s.windows w).active && (s.windows w).zIndex == z && (s.windows w).canvas.isSome

def compositeWindowsInRect (font : Font) (s : State) (r : Rect) (fb : Frame) : Frame :=
  (paintOrder s).foldl (fun fb w =>
    compositeWindow font (s.focusedWinId == some w) (s.windows w) r fb) fb

/-! ## The flush -/

/-- `viewport_render` of a part of `src` into `target`, both of the size of the screen. -/
def viewportRender (s : State) (bounds : Rect) (scrollX scrollY : Int) (src target : Frame) :
    Frame :=
  let c0 := max (max 0 (-scrollX)) (-bounds.x)
  let c1 := min (min (bounds.width : Int) (s.fbWidth - scrollX)) (s.fbWidth - bounds.x)
  let r0 := max (max 0 (-scrollY)) (-bounds.y)
  let r1 := min (min (bounds.height : Int) (s.fbHeight - scrollY)) (s.fbHeight - bounds.y)
  if c1 ≤ c0 ∨ r1 ≤ r0 then target
  else fun p =>
    if bounds.x + c0 ≤ p.1 ∧ p.1 < bounds.x + c1 ∧ bounds.y + r0 ≤ p.2 ∧ p.2 < bounds.y + r1 then
      src (p.1 - bounds.x + scrollX, p.2 - bounds.y + scrollY)
    else target p

def blitRectDb (s : State) (r : Rect) (src dst : Frame) : Frame :=
  viewportRender s r r.x r.y src dst

/-- The rectangle is restored from the base canvas, and the windows are painted over it. -/
def repaintRect (font : Font) (s : State) (base : Frame) (r : Rect) (fb : Frame) : Frame :=
  compositeWindowsInRect font s r (blitRectDb s r base fb)

/-- The loop of `compositor_flush` over the dirty rectangles. -/
def compositorFlush (font : Font) (s : State) (base : Frame) (dirty : List Rect) (fb : Frame) :
    Frame :=
  dirty.foldl (fun fb d =>
    match rectIntersect d (screenRect s) with
    | none => fb
    | some r => repaintRect font s base r fb) fb

/-- All of the screen at once. -/
def fullRepaint (font : Font) (s : State) (base fb : Frame) : Frame :=
  repaintRect font s base (screenRect s) fb

end Kyuzen.Kwm
