import Mathlib.Logic.Function.Basic
import Mathlib.Tactic.Ring
import Kyuzen.Kwm.Compositor
import Kyuzen.Lib.Writes

/-!
# The painter

`Painter` and the functions of libgui that it calls. A call is the list of its writes, each for a
pixel `(px, py)`, that is to element `py * width + px` of the canvas. A pixel beside the canvas has
the element of a pixel in a row above or below. Coordinates are integers: an `int` that overflows is
undefined in the source.

A call is clipped when all its writes are to pixels in the canvas and the scissor rectangle, and
leave there what the same call without a scissor rectangle leaves (`Clips`). `rect` and `blend` are
clipped. `image` looks at the scissor rectangle only: what sticks out of the canvas runs into other
rows, with a scissor rectangle and without. `text` with a scissor rectangle paints whole glyphs, does
not go back to the first column after a newline, and stops after 512 characters. `Meets` says when
this does not show (`clips_iff_meets`).
-/

namespace Kyuzen.Ui

open Lib

/-- The column and the row. -/
abbrev Pixel := Int × Int

structure Scissor where
  x : Int
  y : Int
  w : Int
  h : Int

def Scissor.Has (s : Scissor) (q : Pixel) : Prop :=
  s.x ≤ q.1 ∧ q.1 < s.x + s.w ∧ s.y ≤ q.2 ∧ q.2 < s.y + s.h

instance (s : Scissor) (q : Pixel) : Decidable (s.Has q) :=
  inferInstanceAs (Decidable (_ ∧ _ ∧ _ ∧ _))

/-- The canvas of the window, `font8x16`, and the scissor rectangle when `clip_on` is set. -/
structure Painter where
  width : Nat
  height : Nat
  font : UInt8 → Nat → UInt8
  clip : Option Scissor

structure Write where
  pixel : Pixel
  color : Nat

/-- `c | 0xFF000000`. -/
def solid (c : Nat) : Nat := c ||| 0xFF000000

namespace Painter

def OnCanvas (p : Painter) (q : Pixel) : Prop :=
  0 ≤ q.1 ∧ q.1 < p.width ∧ 0 ≤ q.2 ∧ q.2 < p.height

instance (p : Painter) (q : Pixel) : Decidable (p.OnCanvas q) :=
  inferInstanceAs (Decidable (_ ∧ _ ∧ _ ∧ _))

def setClip (p : Painter) (x y w h : Int) : Painter := { p with clip := some ⟨x, y, w, h⟩ }

def clearClip (p : Painter) : Painter := { p with clip := none }

/-- The element of a pixel, which need not be on the canvas. -/
def index (p : Painter) (q : Pixel) : Int := q.2 * p.width + q.1

/-! ## libgui -/

def fillRect (p : Painter) (x y w h : Int) (color : Nat) : List Write :=
  (List.range h.toNat).flatMap fun (row : Nat) =>
    (List.range w.toNat).filterMap fun (col : Nat) =>
      if p.OnCanvas (x + col, y + row) then some ⟨(x + col, y + row), solid color⟩ else none

def glyphBit (p : Painter) (c : UInt8) (row col : Nat) : Bool :=
  p.font c row &&& (0x80 >>> UInt8.ofNat col) != 0

/-- There is no glyph for a negative `char`. -/
def drawChar (p : Painter) (c : UInt8) (x y : Int) (color : Nat) : List Write :=
  if 127 < c then []
  else
    (List.range 16).flatMap fun (row : Nat) =>
      (List.range 8).filterMap fun (col : Nat) =>
        if p.glyphBit c row col ∧ p.OnCanvas (x + col, y + row) then
          some ⟨(x + col, y + row), solid color⟩
        else none

/-- The loop of `_lgui_draw_string_abs`. -/
def drawString (p : Painter) (x : Int) (color : Nat) : List UInt8 → Int → Int → List Write
  | [], _, _ => []
  | c :: str, cx, cy =>
    if c = 10 then drawString p x color str x (cy + 16)
    else p.drawChar c cx cy color ++ drawString p x color str (cx + 8) cy

/-! ## The primitives -/

def rect (p : Painter) (x y w h : Int) (c : Nat) : List Write :=
  match p.clip with
  | none => p.fillRect x y w h (solid c)
  | some s =>
    let x2 := min (x + w) (s.x + s.w)
    let y2 := min (y + h) (s.y + s.h)
    let x := max x s.x
    let y := max y s.y
    if x2 - x ≤ 0 ∨ y2 - y ≤ 0 then [] else p.fillRect x y (x2 - x) (y2 - y) (solid c)

/-- The cell of a character and the scissor rectangle have a pixel in common, if the latter has
any. -/
def Touches (s : Scissor) (cx cy : Int) : Prop :=
  cx + 8 > s.x ∧ cx < s.x + s.w ∧ cy + 16 > s.y ∧ cy < s.y + s.h

instance (s : Scissor) (cx cy : Int) : Decidable (Touches s cx cy) :=
  inferInstanceAs (Decidable (_ ∧ _ ∧ _ ∧ _))

/-- The loop of `text` with a scissor rectangle. -/
def clippedText (p : Painter) (s : Scissor) (x : Int) (c : Nat) :
    List UInt8 → Nat → Int → List Write
  | [], _, _ => []
  | ch :: str, i, cy =>
    if i < 512 then
      if ch = 10 then clippedText p s x c str (i + 1) (cy + 16)
      else
        (if Touches s (x + i * 8) cy then p.drawChar ch (x + i * 8) cy (solid c) else []) ++
          clippedText p s x c str (i + 1) cy
    else []

def text (p : Painter) (str : List UInt8) (x y : Int) (c : Nat) : List Write :=
  match p.clip with
  | none => p.drawString x (solid c) str x y
  | some s => p.clippedText s x c str 0 y

/-- The rows, or columns, of an image that are left: from the first to the one behind the last. -/
def clipAxis (pos size clipPos clipSize : Int) : Int × Int :=
  let lo := if pos < clipPos then clipPos - pos else 0
  let beyond := pos + size - (clipPos + clipSize)
  let hi := if beyond > 0 then size - beyond else size
  (if lo < 0 then 0 else lo, if hi > size then size else hi)

def image (p : Painter) (x y w h : Int) (px : Int → Nat) (iw ih : Int) : List Write :=
  let (py0, py1) := match p.clip with
    | none => (0, h)
    | some s => clipAxis y h s.y s.h
  let (q0, q1) := match p.clip with
    | none => (0, w)
    | some s => clipAxis x w s.x s.w
  (List.range (py1 - py0).toNat).flatMap fun (row : Nat) =>
    let py := py0 + row
    let sy := (py * ih).tdiv h
    (List.range (q1 - q0).toNat).map fun (col : Nat) =>
      let q := q0 + col
      let sx := (q * iw).tdiv w
      ⟨(x + q, y + py), px (sy * iw + sx)⟩

def blend (p : Painter) (px py : Int) (c a : Nat) (canvas : Int → Nat) : List Write :=
  if a = 0 then []
  else if ¬ p.OnCanvas (px, py) then []
  else if p.clip.any fun s => ¬ s.Has (px, py) then []
  else [⟨(px, py), solid (Kwm.aaMix c (canvas (p.index (px, py))) a)⟩]

inductive Call
  | rect (x y w h : Int) (c : Nat)
  | text (str : List UInt8) (x y : Int) (c : Nat)
  | image (x y w h : Int) (px : Int → Nat) (iw ih : Int)
  | blend (px py : Int) (c a : Nat)

def writes (p : Painter) (canvas : Int → Nat) : Call → List Write
  | .rect x y w h c => p.rect x y w h c
  | .text str x y c => p.text str x y c
  | .image x y w h px iw ih => p.image x y w h px iw ih
  | .blend px py c a => p.blend px py c a canvas

/-- What the writes leave. -/
def play (p : Painter) (canvas : Int → Nat) (ws : List Write) : Int → Nat :=
  ws.foldl (fun canvas w => Function.update canvas (p.index w.pixel) w.color) canvas

/-! ## Clipping -/

/-- Where a call may paint. -/
def Inside (p : Painter) (q : Pixel) : Prop := p.OnCanvas q ∧ ∀ s ∈ p.clip, s.Has q

/-- The element of the pixel is that of a pixel where a call may paint. -/
def Lands (p : Painter) (q : Pixel) : Prop := ∃ q', p.Inside q' ∧ p.index q = p.index q'

/-- The call paints inside only, and there what it paints without a scissor rectangle. -/
def Clips (p : Painter) (call : Call) : Prop :=
  ∀ canvas, (∀ w ∈ p.writes canvas call, p.Lands w.pixel) ∧
    ∀ q, p.Inside q → p.play canvas (p.writes canvas call) (p.index q) =
      p.play canvas (p.clearClip.writes canvas call) (p.index q)

/-- The characters of a text as libgui places them. -/
def glyphs (x : Int) : List UInt8 → Int → Int → List (UInt8 × Pixel)
  | [], _, _ => []
  | c :: str, cx, cy =>
    if c = 10 then glyphs x str x (cy + 16) else (c, cx, cy) :: glyphs x str (cx + 8) cy

/-- The characters of a text as `text` places them for a scissor rectangle. -/
def clippedGlyphs (x : Int) : List UInt8 → Nat → Int → List (UInt8 × Pixel)
  | [], _, _ => []
  | c :: str, i, cy =>
    if i < 512 then
      if c = 10 then clippedGlyphs x str (i + 1) (cy + 16)
      else (c, x + i * 8, cy) :: clippedGlyphs x str (i + 1) cy
    else []

/-- The pixel belongs to the character at this place. -/
def Lit (p : Painter) (g : UInt8 × Pixel) (q : Pixel) : Prop :=
  ¬ 127 < g.1 ∧ ∃ row < 16, ∃ col < 8, p.glyphBit g.1 row col = true ∧
    q = (g.2.1 + (col : Nat), g.2.2 + (row : Nat))

def Shown (p : Painter) (gs : List (UInt8 × Pixel)) (q : Pixel) : Prop := ∃ g ∈ gs, p.Lit g q

/-- What the scissor rectangle leaves of an image. -/
def ImageLeft (p : Painter) (x y w h : Int) (q : Pixel) : Prop :=
  (⟨x, y, w, h⟩ : Scissor).Has q ∧ ∀ s ∈ p.clip, s.Has q

/-- The colour of an image at a pixel. -/
def imageColor (x y w h : Int) (px : Int → Nat) (iw ih : Int) (q : Pixel) : Nat :=
  px (((q.2 - y) * ih).tdiv h * iw + ((q.1 - x) * iw).tdiv w)

/-- The lowest pixel of the area that has the element of `q`. -/
def Lowest (p : Painter) (area : Pixel → Prop) (q low : Pixel) : Prop :=
  area low ∧ p.index low = p.index q ∧ ∀ r, area r → p.index r = p.index q → r.2 ≤ low.2

/-- When a call is clipped. -/
def Meets (p : Painter) : Call → Prop
  | .rect .. | .blend .. => True
  | .image x y w h px iw ih =>
    (∀ q, p.ImageLeft x y w h q → p.Lands q) ∧
      ∀ q, p.Inside q → ∀ low, p.Lowest (⟨x, y, w, h⟩ : Scissor).Has q low →
        ∃ low', p.Lowest (p.ImageLeft x y w h) q low' ∧
          imageColor x y w h px iw ih low' = imageColor x y w h px iw ih low
  | .text str x y _ =>
    ∀ s ∈ p.clip,
      (∀ g ∈ clippedGlyphs x str 0 y, Touches s g.2.1 g.2.2 →
        ∀ q, p.Lit g q → p.OnCanvas q → s.Has q) ∧
      ∀ q, p.Inside q → (p.Shown (clippedGlyphs x str 0 y) q ↔ p.Shown (glyphs x str x y) q)

/-! ## Elements -/

variable {p : Painter} {call : Call} {ws ws' : List Write} {q q' : Pixel} {x y w h : Int}
  {color : Nat}

/-- The pixels of the canvas are elements of the array. -/
theorem index_lt (h : p.OnCanvas q) : 0 ≤ p.index q ∧ p.index q < p.width * p.height := by
  obtain ⟨hx, hx', hy, hy'⟩ := h
  have hrow : (q.2 + 1) * p.width ≤ p.height * p.width :=
    Int.mul_le_mul_of_nonneg_right (by omega) (by omega)
  have hfirst : 0 ≤ q.2 * p.width := Int.mul_nonneg hy (by omega)
  rw [add_mul, one_mul] at hrow
  rw [index, mul_comm (p.width : Int)]
  omega

/-- Different pixels in the columns of the canvas are different elements. -/
theorem index_inj (hx : 0 ≤ q.1 ∧ q.1 < p.width) (hx' : 0 ≤ q'.1 ∧ q'.1 < p.width)
    (heq : p.index q = p.index q') : q = q' := by
  have hcol : q.1 = q'.1 := by
    have hmod := congrArg (· % (p.width : Int)) heq
    simp only [index, add_comm (_ * (p.width : Int)), Int.add_mul_emod_self_right] at hmod
    rwa [Int.emod_eq_of_lt hx.1 hx.2, Int.emod_eq_of_lt hx'.1 hx'.2] at hmod
  rw [index, index, hcol, add_left_inj] at heq
  exact Prod.ext hcol (Int.eq_of_mul_eq_mul_right (by omega) heq)

theorem OnCanvas.columns (h : p.OnCanvas q) : 0 ≤ q.1 ∧ q.1 < p.width := ⟨h.1, h.2.1⟩

/-- A pixel in the columns of the canvas is the only one of them with its element. -/
theorem lands_iff (hx : 0 ≤ q.1 ∧ q.1 < p.width) : p.Lands q ↔ p.Inside q := by
  constructor
  · rintro ⟨q', hin, heq⟩
    rw [index_inj hx hin.1.columns heq]
    exact hin
  · exact fun hin => ⟨q, hin, rfl⟩

theorem Clips.elements (h : p.Clips call) (canvas : Int → Nat) {w : Write}
    (hw : w ∈ p.writes canvas call) :
    0 ≤ p.index w.pixel ∧ p.index w.pixel < p.width * p.height := by
  obtain ⟨q, hin, heq⟩ := (h canvas).1 w hw
  rw [heq]
  exact index_lt hin.1

/-- A pixel is written. -/
def Written (ws : List Write) (q : Pixel) : Prop := ∃ w ∈ ws, w.pixel = q

/-! ## Writes of one colour on the canvas -/

/-- The writes are on the canvas and have the colour. -/
def Paints (p : Painter) (color : Nat) (ws : List Write) : Prop :=
  ∀ w ∈ ws, p.OnCanvas w.pixel ∧ w.color = color

theorem play_of_paints (h : p.Paints color ws) (hq : p.OnCanvas q) (canvas : Int → Nat) :
    (Written ws q → p.play canvas ws (p.index q) = color) ∧
      (¬Written ws q → p.play canvas ws (p.index q) = canvas (p.index q)) := by
  have hloop := foldl_writes (g := fun _ => color) (W := fun w i => p.index w.pixel = i)
    (f := fun w canvas => Function.update canvas (p.index w.pixel) w.color) ws
    (fun w hw m i hi => by rw [← hi, Function.update_self]; exact (h w hw).2)
    (fun w _ m i hne => Function.update_of_ne (Ne.symm hne) _ _) canvas (p.index q)
  constructor
  · rintro ⟨w, hw, rfl⟩
    exact hloop.1 ⟨w, hw, rfl⟩
  · intro hno
    apply hloop.2
    rintro ⟨w, hw, heq⟩
    exact hno ⟨w, hw, index_inj (h w hw).1.columns hq.columns heq⟩

/-- For such a call only the pixels count that it writes. -/
theorem clips_iff (hws : ∀ canvas, p.writes canvas call = ws)
    (hws' : ∀ canvas, p.clearClip.writes canvas call = ws') (hp : p.Paints color ws)
    (hp' : p.Paints color ws') :
    p.Clips call ↔ (∀ q, Written ws q → p.Inside q) ∧
      ∀ q, p.Inside q → (Written ws q ↔ Written ws' q) := by
  have hlands : (∀ w ∈ ws, p.Lands w.pixel) ↔ ∀ q, Written ws q → p.Inside q := by
    constructor
    · rintro h q ⟨w, hw, rfl⟩
      exact (lands_iff (hp w hw).1.columns).mp (h w hw)
    · exact fun h w hw => (lands_iff (hp w hw).1.columns).mpr (h w.pixel ⟨w, hw, rfl⟩)
  have hpixel : ∀ q, p.OnCanvas q →
      ((∀ canvas, p.play canvas ws (p.index q) = p.play canvas ws' (p.index q)) ↔
        (Written ws q ↔ Written ws' q)) := by
    intro q hq
    constructor
    · intro h
      -- a canvas that does not have the colour yet
      have hne : color ≠ color + 1 := by omega
      have h := h fun _ => color + 1
      constructor
      · intro hw
        by_contra hw'
        rw [(play_of_paints hp hq _).1 hw, (play_of_paints hp' hq _).2 hw'] at h
        exact hne h
      · intro hw'
        by_contra hw
        rw [(play_of_paints hp hq _).2 hw, (play_of_paints hp' hq _).1 hw'] at h
        exact hne h.symm
    · intro h canvas
      by_cases hw : Written ws q
      · rw [(play_of_paints hp hq _).1 hw, (play_of_paints hp' hq _).1 (h.mp hw)]
      · rw [(play_of_paints hp hq _).2 hw, (play_of_paints hp' hq _).2 fun hw' => hw (h.mpr hw')]
  simp only [Clips, hws, hws', hlands]
  constructor
  · intro h
    exact ⟨(h fun _ => 0).1, fun q hq => (hpixel q hq.1).mp fun canvas => (h canvas).2 q hq⟩
  · intro h canvas
    exact ⟨h.1, fun q hq => (hpixel q hq.1).mpr (h.2 q hq) canvas⟩

/-! ## Rectangles and glyphs -/

theorem written_append : Written (ws ++ ws') q ↔ Written ws q ∨ Written ws' q := by
  simp only [Written, List.mem_append, or_and_right, exists_or]

theorem mem_fillRect {v : Write} : v ∈ p.fillRect x y w h color ↔
    p.OnCanvas v.pixel ∧ (⟨x, y, w, h⟩ : Scissor).Has v.pixel ∧ v.color = solid color := by
  simp only [fillRect, List.mem_flatMap, List.mem_range, List.mem_filterMap, Scissor.Has]
  constructor
  · rintro ⟨row, hrow, col, hcol, hv⟩
    split at hv
    · rename_i hon
      obtain rfl := Option.some.inj hv
      refine ⟨hon, ⟨?_, ?_, ?_, ?_⟩, rfl⟩ <;> dsimp only <;> omega
    · cases hv
  · rintro ⟨hon, ⟨hx, hx', hy, hy'⟩, hc⟩
    refine ⟨(v.pixel.2 - y).toNat, by omega, (v.pixel.1 - x).toNat, by omega, ?_⟩
    have hpixel : (x + (v.pixel.1 - x).toNat, y + (v.pixel.2 - y).toNat) = v.pixel :=
      Prod.ext (by dsimp only; omega) (by dsimp only; omega)
    rw [hpixel, if_pos hon, ← hc]

theorem written_fillRect :
    Written (p.fillRect x y w h color) q ↔ p.OnCanvas q ∧ (⟨x, y, w, h⟩ : Scissor).Has q := by
  constructor
  · rintro ⟨v, hv, rfl⟩
    obtain ⟨hon, hin, _⟩ := mem_fillRect.mp hv
    exact ⟨hon, hin⟩
  · rintro ⟨hon, hin⟩
    exact ⟨⟨q, solid color⟩, mem_fillRect.mpr ⟨hon, hin, rfl⟩, rfl⟩

theorem mem_drawChar {c : UInt8} {v : Write} : v ∈ p.drawChar c x y color ↔
    p.OnCanvas v.pixel ∧ p.Lit (c, x, y) v.pixel ∧ v.color = solid color := by
  rw [drawChar, Lit]
  by_cases hc : 127 < c
  · rw [if_pos hc]
    exact ⟨fun hv => absurd hv List.not_mem_nil, fun h => absurd hc h.2.1.1⟩
  · rw [if_neg hc]
    simp only [List.mem_flatMap, List.mem_range, List.mem_filterMap]
    constructor
    · rintro ⟨row, hrow, col, hcol, hv⟩
      split at hv
      · rename_i hbit
        obtain rfl := Option.some.inj hv
        exact ⟨hbit.2, ⟨hc, row, hrow, col, hcol, hbit.1, rfl⟩, rfl⟩
      · cases hv
    · rintro ⟨hon, ⟨_, row, hrow, col, hcol, hbit, hq⟩, hv⟩
      refine ⟨row, hrow, col, hcol, ?_⟩
      rw [← hq, if_pos ⟨hbit, hon⟩, ← hv]

theorem paints_drawChar {c : UInt8} : p.Paints (solid color) (p.drawChar c x y color) :=
  fun _ hv => ⟨(mem_drawChar.mp hv).1, (mem_drawChar.mp hv).2.2⟩

theorem written_drawChar {c : UInt8} :
    Written (p.drawChar c x y color) q ↔ p.OnCanvas q ∧ p.Lit (c, x, y) q := by
  constructor
  · rintro ⟨v, hv, rfl⟩
    obtain ⟨hon, hlit, _⟩ := mem_drawChar.mp hv
    exact ⟨hon, hlit⟩
  · rintro ⟨hon, hlit⟩
    exact ⟨⟨q, solid color⟩, mem_drawChar.mpr ⟨hon, hlit, rfl⟩, rfl⟩

/-- A lit pixel is in the cell of its character. -/
theorem Lit.cell {a : UInt8 × Pixel} (h : p.Lit a q) :
    (⟨a.2.1, a.2.2, 8, 16⟩ : Scissor).Has q := by
  obtain ⟨_, row, hrow, col, hcol, _, rfl⟩ := h
  refine ⟨?_, ?_, ?_, ?_⟩ <;> dsimp only <;> omega

/-! ## `rect` -/

theorem inside_iff : p.Inside q ↔ p.OnCanvas q ∧
    match p.clip with
    | none => True
    | some s => s.Has q := by
  rw [Inside]
  cases p.clip <;> simp

theorem Inside.unclipped (h : p.Inside q) : p.clearClip.Inside q :=
  ⟨h.1, fun _ hs => by cases hs⟩

theorem paints_rect (p : Painter) (x y w h : Int) (c : Nat) :
    p.Paints (solid (solid c)) (p.rect x y w h c) := by
  intro v hv
  have hfill : ∀ {x y w h}, v ∈ p.fillRect x y w h (solid c) →
      p.OnCanvas v.pixel ∧ v.color = solid (solid c) := fun hv =>
    ⟨(mem_fillRect.mp hv).1, (mem_fillRect.mp hv).2.2⟩
  rw [rect] at hv
  split at hv
  · exact hfill hv
  · dsimp only at hv
    split at hv
    · cases hv
    · exact hfill hv

theorem written_rect (p : Painter) (x y w h : Int) (c : Nat) :
    Written (p.rect x y w h c) q ↔ p.Inside q ∧ (⟨x, y, w, h⟩ : Scissor).Has q := by
  rw [rect, inside_iff]
  cases p.clip with
  | none => exact written_fillRect.trans (and_congr_left fun _ => (and_iff_left trivial).symm)
  | some s =>
    dsimp only
    by_cases hempty : min (x + w) (s.x + s.w) - max x s.x ≤ 0 ∨
        min (y + h) (s.y + s.h) - max y s.y ≤ 0
    · rw [if_pos hempty]
      constructor
      · rintro ⟨v, hv, _⟩
        cases hv
      · rintro ⟨⟨_, hx, hx', hy, hy'⟩, hw, hw', hh, hh'⟩
        dsimp only at hw hw' hh hh'
        omega
    · rw [if_neg hempty, written_fillRect, and_assoc]
      refine and_congr_right fun _ => ?_
      simp only [Scissor.Has]
      omega

theorem rect_clips (p : Painter) (x y w h : Int) (c : Nat) : p.Clips (.rect x y w h c) := by
  refine (clips_iff (fun _ => rfl) (fun _ => rfl) (paints_rect p x y w h c)
    (paints_rect p.clearClip x y w h c)).mpr ⟨fun q hq => ?_, fun q hq => ?_⟩
  · exact ((written_rect p x y w h c).mp hq).1
  · rw [written_rect, written_rect]
    exact and_congr_left fun _ => iff_of_true hq hq.unclipped

/-! ## `blend` -/

theorem blend_clips (p : Painter) (px py : Int) (c a : Nat) : p.Clips (.blend px py c a) := by
  intro canvas
  simp only [writes, blend]
  by_cases ha : a = 0
  · simp [ha]
  rw [if_neg ha, if_neg ha]
  by_cases hon : p.OnCanvas (px, py)
  · rw [if_neg (not_not.mpr hon),
      if_neg (show ¬ ¬ p.clearClip.OnCanvas (px, py) from not_not.mpr hon)]
    have hany : (p.clip.any fun s => ¬ s.Has (px, py)) = true ↔ ¬ p.Inside (px, py) := by
      rw [inside_iff, and_iff_right hon]
      cases p.clip with
      | none => exact iff_of_false Bool.false_ne_true (not_not.mpr trivial)
      | some s => exact decide_eq_true_iff
    by_cases hin : p.Inside (px, py)
    · rw [if_neg fun hclip => hany.mp hclip hin]
      refine ⟨fun w hw => ?_, fun q _ => rfl⟩
      rw [List.mem_singleton] at hw
      rw [hw]
      exact ⟨_, hin, rfl⟩
    · rw [if_pos (hany.mpr hin)]
      refine ⟨fun w hw => absurd hw List.not_mem_nil, fun q hq => ?_⟩
      have hne : p.index q ≠ p.index (px, py) := fun heq =>
        hin (index_inj hq.1.columns hon.columns heq ▸ hq)
      exact (Function.update_of_ne hne _ _).symm
  · rw [if_pos hon, if_pos (show ¬ p.clearClip.OnCanvas (px, py) from hon)]
    exact ⟨fun w hw => absurd hw List.not_mem_nil, fun q _ => rfl⟩

/-! ## `image` -/

theorem clipAxis_eq (pos size clipPos clipSize : Int) :
    pos + (clipAxis pos size clipPos clipSize).1 = max pos clipPos ∧
      pos + (clipAxis pos size clipPos clipSize).2 = min (pos + size) (clipPos + clipSize) := by
  simp only [clipAxis]
  constructor
  · split <;> split <;> omega
  · split <;> split <;> omega

/-- The loops of `image` over the columns and the rows that are left. -/
def imageLoop (x y w h : Int) (px : Int → Nat) (iw ih : Int) (rows cols : Int × Int) :
    List Write :=
  (List.range (rows.2 - rows.1).toNat).flatMap fun (row : Nat) =>
    (List.range (cols.2 - cols.1).toNat).map fun (col : Nat) =>
      ⟨(x + (cols.1 + col), y + (rows.1 + row)),
        px (((rows.1 + row) * ih).tdiv h * iw + ((cols.1 + col) * iw).tdiv w)⟩

/-- The rows come one after the other. -/
theorem imageLoop_sorted (x y w h : Int) (px : Int → Nat) (iw ih : Int) (rows cols : Int × Int) :
    (imageLoop x y w h px iw ih rows cols).Pairwise fun v v' => v.pixel.2 ≤ v'.pixel.2 := by
  unfold imageLoop
  rw [List.pairwise_flatMap]
  constructor
  · intro row _
    rw [List.pairwise_map]
    exact List.pairwise_of_forall fun _ _ => le_rfl
  · refine List.pairwise_lt_range.imp fun {row row'} hlt => ?_
    rintro v hv v' hv'
    obtain ⟨_, -, rfl⟩ := List.mem_map.mp hv
    obtain ⟨_, -, rfl⟩ := List.mem_map.mp hv'
    dsimp only
    omega

theorem image_eq (p : Painter) (x y w h : Int) (px : Int → Nat) (iw ih : Int) :
    p.image x y w h px iw ih = imageLoop x y w h px iw ih
      (match p.clip with
      | none => (0, h)
      | some s => clipAxis y h s.y s.h)
      (match p.clip with
      | none => (0, w)
      | some s => clipAxis x w s.x s.w) := rfl

theorem mem_imageLoop {px : Int → Nat} {iw ih : Int} {rows cols : Int × Int} {v : Write} :
    v ∈ imageLoop x y w h px iw ih rows cols ↔
      x + cols.1 ≤ v.pixel.1 ∧ v.pixel.1 < x + cols.2 ∧ y + rows.1 ≤ v.pixel.2 ∧
        v.pixel.2 < y + rows.2 ∧
        v.color = imageColor x y w h px iw ih v.pixel := by
  simp only [imageLoop, imageColor, List.mem_flatMap, List.mem_range, List.mem_map]
  constructor
  · rintro ⟨row, hrow, col, hcol, rfl⟩
    dsimp only
    refine ⟨by omega, by omega, by omega, by omega, ?_⟩
    rw [add_sub_cancel_left, add_sub_cancel_left]
  · rintro ⟨hx, hx', hy, hy', hc⟩
    refine ⟨(v.pixel.2 - y - rows.1).toNat, by omega, (v.pixel.1 - x - cols.1).toNat, by omega, ?_⟩
    have hcol : cols.1 + ((v.pixel.1 - x - cols.1).toNat : Int) = v.pixel.1 - x := by omega
    have hrow : rows.1 + ((v.pixel.2 - y - rows.1).toNat : Int) = v.pixel.2 - y := by omega
    rw [hcol, hrow, add_sub_cancel, add_sub_cancel, ← hc]

theorem mem_image (p : Painter) (x y w h : Int) (px : Int → Nat) (iw ih : Int) (v : Write) :
    v ∈ p.image x y w h px iw ih ↔
      p.ImageLeft x y w h v.pixel ∧ v.color = imageColor x y w h px iw ih v.pixel := by
  rw [image_eq, mem_imageLoop, ← and_assoc, ← and_assoc, ← and_assoc, ImageLeft]
  refine and_congr_left fun _ => ?_
  cases p.clip with
  | none => simp [Scissor.Has, and_assoc]
  | some s =>
    obtain ⟨hrow, hrow'⟩ := clipAxis_eq y h s.y s.h
    obtain ⟨hcol, hcol'⟩ := clipAxis_eq x w s.x s.w
    simp only [hrow, hrow', hcol, hcol', Scissor.Has, Option.mem_some_iff, forall_eq']
    omega

theorem imageLeft_clearClip : p.clearClip.ImageLeft x y w h q ↔ (⟨x, y, w, h⟩ : Scissor).Has q :=
  and_iff_left fun _ hs => by cases hs

theorem Lowest.unique {area : Pixel → Prop} {low low' : Pixel} (h : p.Lowest area q low)
    (h' : p.Lowest area q low') : low = low' := by
  have hrow : low.2 = low'.2 := le_antisymm (h'.2.2 low h.1 h.2.1) (h.2.2 low' h'.1 h'.2.1)
  have heq := h.2.1.trans h'.2.1.symm
  rw [index, index, hrow, add_right_inj] at heq
  exact Prod.ext heq hrow

/-- Rows that come one after the other leave the colour of the lowest pixel with the element. -/
theorem play_sorted {area : Pixel → Prop} {g : Pixel → Nat}
    (hmem : ∀ v, v ∈ ws ↔ area v.pixel ∧ v.color = g v.pixel)
    (hsorted : ws.Pairwise fun v v' => v.pixel.2 ≤ v'.pixel.2) (canvas : Int → Nat) (q : Pixel) :
    (∀ r, area r → p.index r ≠ p.index q) ∧ p.play canvas ws (p.index q) = canvas (p.index q) ∨
      ∃ low, p.Lowest area q low ∧ p.play canvas ws (p.index q) = g low := by
  have hwrite : ∀ r, area r → (⟨r, g r⟩ : Write) ∈ ws := fun r hr => (hmem ⟨r, g r⟩).mpr ⟨hr, rfl⟩
  rcases foldl_update_cases (fun w : Write => p.index w.pixel) Write.color ws canvas (p.index q)
    with ⟨hnone, heq⟩ | ⟨before, v, after, hws, hv, hafter, heq⟩
  · exact Or.inl ⟨fun r hr => hnone _ (hwrite r hr), heq⟩
  · right
    obtain ⟨harea, hcolor⟩ := (hmem v).mp (hws ▸ List.mem_append_right _ List.mem_cons_self)
    refine ⟨v.pixel, ⟨harea, hv, fun r hr hindex => ?_⟩, heq.trans hcolor⟩
    have hr := hwrite r hr
    rw [hws] at hr hsorted
    rcases List.mem_append.mp hr with hr | hr
    · exact (List.pairwise_append.mp hsorted).2.2 _ hr v List.mem_cons_self
    · rcases List.mem_cons.mp hr with hr | hr
      · rw [← hr]
      · exact absurd hindex (hafter _ hr)

theorem play_image (p : Painter) (x y w h : Int) (px : Int → Nat) (iw ih : Int)
    (canvas : Int → Nat) (q : Pixel) :
    (∀ r, p.ImageLeft x y w h r → p.index r ≠ p.index q) ∧
        p.play canvas (p.image x y w h px iw ih) (p.index q) = canvas (p.index q) ∨
      ∃ low, p.Lowest (p.ImageLeft x y w h) q low ∧
        p.play canvas (p.image x y w h px iw ih) (p.index q) = imageColor x y w h px iw ih low := by
  apply play_sorted (mem_image p x y w h px iw ih)
  rw [image_eq]
  exact imageLoop_sorted ..

theorem image_clips_iff (p : Painter) (x y w h : Int) (px : Int → Nat) (iw ih : Int) :
    p.Clips (.image x y w h px iw ih) ↔ p.Meets (.image x y w h px iw ih) := by
  have hlands : (∀ v ∈ p.image x y w h px iw ih, p.Lands v.pixel) ↔
      ∀ q, p.ImageLeft x y w h q → p.Lands q := by
    constructor
    · intro hv q hq
      exact hv ⟨q, imageColor x y w h px iw ih q⟩ ((mem_image ..).mpr ⟨hq, rfl⟩)
    · exact fun hq v hv => hq v.pixel ((mem_image p x y w h px iw ih v).mp hv).1
  have hfree : (p.clearClip.ImageLeft x y w h) = (⟨x, y, w, h⟩ : Scissor).Has :=
    funext fun q => propext imageLeft_clearClip
  have hplay := play_image p x y w h px iw ih
  have hplayFree := play_image p.clearClip x y w h px iw ih
  rw [hfree] at hplayFree
  constructor
  · intro hclips
    refine ⟨hlands.mp (hclips fun _ => 0).1, fun q hq low hlow => ?_⟩
    -- a canvas that does not have the colour yet
    have hsame := (hclips fun _ => imageColor x y w h px iw ih low + 1).2 q hq
    rcases hplayFree (fun _ => imageColor x y w h px iw ih low + 1) q with
      ⟨hnone, -⟩ | ⟨free, hlow', heq'⟩
    · exact absurd hlow.2.1 (hnone low hlow.1)
    obtain rfl : low = free := hlow.unique hlow'
    rcases hplay (fun _ => imageColor x y w h px iw ih low + 1) q with
      ⟨-, heq⟩ | ⟨left, hleft, heq⟩
    · have hne := heq.symm.trans (hsame.trans heq')
      omega
    · exact ⟨left, hleft, heq.symm.trans (hsame.trans heq')⟩
  · rintro ⟨hland, hcolor⟩ canvas
    refine ⟨hlands.mpr hland, fun q hq => ?_⟩
    show p.play canvas (p.image x y w h px iw ih) (p.index q) =
      p.play canvas (p.clearClip.image x y w h px iw ih) (p.index q)
    rcases hplayFree canvas q with ⟨hnone, heq'⟩ | ⟨low, hlow, heq'⟩
    · rcases hplay canvas q with ⟨-, heq⟩ | ⟨left, hleft, -⟩
      · exact heq.trans heq'.symm
      · exact absurd hleft.2.1 (hnone left hleft.1.1)
    · obtain ⟨left, hleft, hsame⟩ := hcolor q hq low hlow
      rcases hplay canvas q with ⟨hnone, -⟩ | ⟨left', hleft', heq⟩
      · exact absurd hleft.2.1 (hnone left hleft.1)
      · rw [hleft.unique hleft'] at hsame
        exact heq.trans (hsame.trans heq'.symm)

/-- An image in the columns of the canvas runs into no other row. -/
theorem image_columns_clips_iff (p : Painter) {x w : Int} (hx : 0 ≤ x) (hx' : x + w ≤ p.width)
    (y h : Int) (px : Int → Nat) (iw ih : Int) :
    p.Clips (.image x y w h px iw ih) ↔ ∀ q, p.ImageLeft x y w h q → 0 ≤ q.2 ∧ q.2 < p.height := by
  have hcolumns : ∀ q, (⟨x, y, w, h⟩ : Scissor).Has q → 0 ≤ q.1 ∧ q.1 < p.width := by
    rintro q ⟨hq, hq', -, -⟩
    dsimp only at hq hq'
    omega
  rw [image_clips_iff]
  constructor
  · rintro ⟨hland, -⟩ q hq
    exact ((lands_iff (hcolumns q hq.1)).mp (hland q hq)).1.2.2
  · intro hrows
    refine ⟨fun q hq => ?_, fun q hq low hlow => ?_⟩
    · have hcolumn := hcolumns q hq.1
      exact (lands_iff hcolumn).mpr ⟨⟨hcolumn.1, hcolumn.2, hrows q hq⟩, hq.2⟩
    · obtain rfl := index_inj (hcolumns low hlow.1) hq.1.columns hlow.2.1
      exact ⟨low, ⟨⟨hlow.1, hq.2⟩, rfl, fun r hr => hlow.2.2 r hr.1⟩, rfl⟩

/-! ## `text` -/

theorem written_drawString (p : Painter) (x : Int) (str : List UInt8) (cx cy : Int) :
    Written (p.drawString x color str cx cy) q ↔
      p.OnCanvas q ∧ p.Shown (glyphs x str cx cy) q := by
  induction str generalizing cx cy with
  | nil => simp [drawString, glyphs, Written, Shown]
  | cons c str ih =>
    rw [drawString, glyphs]
    by_cases hc : c = 10
    · rw [if_pos hc, if_pos hc, ih]
    · rw [if_neg hc, if_neg hc, written_append, written_drawChar, ih, ← and_or_left]
      simp only [Shown, List.mem_cons, exists_eq_or_imp]

theorem written_clippedText (p : Painter) (s : Scissor) (x : Int) (c : Nat) (str : List UInt8)
    (i : Nat) (cy : Int) :
    Written (p.clippedText s x c str i cy) q ↔ p.OnCanvas q ∧
      ∃ a ∈ clippedGlyphs x str i cy, Touches s a.2.1 a.2.2 ∧ p.Lit a q := by
  induction str generalizing i cy with
  | nil => simp [clippedText, clippedGlyphs, Written]
  | cons ch str ih =>
    rw [clippedText, clippedGlyphs]
    by_cases hi : i < 512
    · rw [if_pos hi, if_pos hi]
      by_cases hch : ch = 10
      · rw [if_pos hch, if_pos hch, ih]
      · rw [if_neg hch, if_neg hch, written_append, ih]
        simp only [List.mem_cons, exists_eq_or_imp, and_or_left]
        refine or_congr_left ?_
        by_cases ht : Touches s (x + i * 8) cy
        · rw [if_pos ht, written_drawChar, and_iff_right ht]
        · rw [if_neg ht]
          simp [Written, ht]
    · rw [if_neg hi, if_neg hi]
      simp [Written]

theorem paints_drawString (p : Painter) (x : Int) (str : List UInt8) (cx cy : Int) :
    p.Paints (solid color) (p.drawString x color str cx cy) := by
  induction str generalizing cx cy with
  | nil => exact fun v hv => absurd hv List.not_mem_nil
  | cons c str ih =>
    rw [drawString]
    by_cases hc : c = 10
    · rw [if_pos hc]
      exact ih x (cy + 16)
    · rw [if_neg hc]
      intro v hv
      rcases List.mem_append.mp hv with hv | hv
      · exact paints_drawChar v hv
      · exact ih _ _ v hv

theorem paints_clippedText (p : Painter) (s : Scissor) (x : Int) (c : Nat) (str : List UInt8)
    (i : Nat) (cy : Int) :
    p.Paints (solid (solid c)) (p.clippedText s x c str i cy) := by
  induction str generalizing i cy with
  | nil => exact fun v hv => absurd hv List.not_mem_nil
  | cons ch str ih =>
    rw [clippedText]
    by_cases hi : i < 512
    · rw [if_pos hi]
      by_cases hch : ch = 10
      · rw [if_pos hch]
        exact ih _ _
      · rw [if_neg hch]
        intro v hv
        rcases List.mem_append.mp hv with hv | hv
        · split at hv
          · exact paints_drawChar v hv
          · cases hv
        · exact ih _ _ v hv
    · rw [if_neg hi]
      exact fun v hv => absurd hv List.not_mem_nil

/-- A character that has a pixel in the scissor rectangle is not rejected. -/
theorem Lit.touches {s : Scissor} {a : UInt8 × Pixel} (h : p.Lit a q) (hs : s.Has q) :
    Touches s a.2.1 a.2.2 := by
  obtain ⟨hx, hx', hy, hy'⟩ := h.cell
  obtain ⟨hs, hs', ht, ht'⟩ := hs
  dsimp only at hx hx' hy hy'
  exact ⟨by omega, by omega, by omega, by omega⟩

theorem text_clips_iff (p : Painter) (str : List UInt8) (x y : Int) (c : Nat) :
    p.Clips (.text str x y c) ↔ p.Meets (.text str x y c) := by
  have hfree : ∀ canvas, p.clearClip.writes canvas (.text str x y c) =
      p.clearClip.drawString x (solid c) str x y := fun _ => rfl
  rw [Meets]
  cases hclip : p.clip with
  | none =>
    have hself : p.clearClip = p := by rw [clearClip, ← hclip]
    refine iff_of_true (fun canvas => ⟨fun w hw => ?_, fun q _ => by rw [hself]⟩) fun s hs => ?_
    · rw [← hself, hfree] at hw
      refine ⟨w.pixel, ⟨((written_drawString _ _ _ _ _).mp ⟨w, hw, rfl⟩).1, fun s hs => ?_⟩, rfl⟩
      rw [hclip] at hs
      cases hs
    · cases hs
  | some s =>
    have hclipped : ∀ canvas, p.writes canvas (.text str x y c) =
        p.clippedText s x c str 0 y := fun _ => by rw [writes, text, hclip]
    rw [clips_iff hclipped hfree (paints_clippedText p s x c str 0 y)
      (paints_drawString p.clearClip x str x y)]
    simp only [written_clippedText, written_drawString, Option.mem_some_iff, forall_eq',
      inside_iff, hclip]
    refine and_congr ⟨fun h a ha ht q hlit hon => ?_, fun h q ⟨hon, a, ha, ht, hlit⟩ => ?_⟩
      (forall_congr' fun q => imp_congr_right fun hq => ?_)
    · exact (h q ⟨hon, a, ha, ht, hlit⟩).2
    · exact ⟨hon, h a ha ht q hlit hon⟩
    · have htouch : (∃ a ∈ clippedGlyphs x str 0 y, Touches s a.2.1 a.2.2 ∧ p.Lit a q) ↔
          p.Shown (clippedGlyphs x str 0 y) q := by
        refine exists_congr fun a => and_congr_right fun _ => ?_
        exact and_iff_right_of_imp fun hlit => hlit.touches hq.2
      rw [htouch, and_iff_right hq.1]
      exact iff_congr Iff.rfl (and_iff_right hq.1)

/-- A text of one line and at most 512 characters is placed in the same way by both. -/
theorem clippedGlyphs_eq {str : List UInt8} (hnl : 10 ∉ str) (x : Int) {i : Nat} (cy : Int)
    (hlen : i + str.length ≤ 512) :
    clippedGlyphs x str i cy = glyphs x str (x + i * 8) cy := by
  induction str generalizing i with
  | nil => rfl
  | cons c str ih =>
    rw [List.mem_cons, not_or] at hnl
    rw [List.length_cons] at hlen
    have hnext : x + ((i + 1 : Nat) : Int) * 8 = x + i * 8 + 8 := by
      push_cast
      ring
    rw [clippedGlyphs, glyphs, if_pos (by omega), if_neg (Ne.symm hnl.1), if_neg (Ne.symm hnl.1),
      ih hnl.2 (by omega), hnext]

/-- Such a text is clipped exactly when no character is cut at the edge of the scissor rectangle. -/
theorem oneLine_clips_iff (p : Painter) {str : List UInt8} (hnl : 10 ∉ str)
    (hlen : str.length ≤ 512) (x y : Int) (c : Nat) :
    p.Clips (.text str x y c) ↔ ∀ s ∈ p.clip, ∀ a ∈ glyphs x str x y, Touches s a.2.1 a.2.2 →
      ∀ q, p.Lit a q → p.OnCanvas q → s.Has q := by
  have heq : clippedGlyphs x str 0 y = glyphs x str x y := by
    rw [clippedGlyphs_eq hnl x y (by omega)]
    simp
  rw [text_clips_iff, Meets]
  simp only [heq, implies_true, and_true]

/-! ## All calls -/

/-- A call is clipped exactly when it meets its condition, and a clipped call stays in the array. -/
theorem clips_iff_meets (p : Painter) (call : Call) :
    (p.Clips call ↔ p.Meets call) ∧ (p.Clips call → ∀ canvas, ∀ w ∈ p.writes canvas call,
      0 ≤ p.index w.pixel ∧ p.index w.pixel < p.width * p.height) := by
  refine ⟨?_, fun h canvas _ => h.elements canvas⟩
  cases call with
  | rect x y w h c => exact iff_of_true (rect_clips p x y w h c) trivial
  | text str x y c => exact text_clips_iff p str x y c
  | image x y w h px iw ih => exact image_clips_iff p x y w h px iw ih
  | blend px py c a => exact iff_of_true (blend_clips p px py c a) trivial

/-- A canvas of 64 by 32 pixels, with the glyph of 'A'. -/
def sample : Painter where
  width := 64
  height := 32
  font c row :=
    if c = 65 then
      [0x00, 0x00, 0x10, 0x38, 0x6C, 0xC6, 0xC6, 0xFE, 0xC6, 0xC6, 0xC6, 0xC6].getD row 0
    else 0
  clip := none

/-- A glyph at the edge of the scissor rectangle, a second line, an image that runs from the right
edge of the canvas into the rows below, and one that runs out of the canvas. -/
theorem not_clipped :
    ¬ (sample.setClip 0 0 4 16).Clips (.text [65] 0 0 0) ∧
      ¬ (sample.setClip 0 0 64 32).Clips (.text [65, 10, 65] 0 0 0) ∧
      ¬ (sample.setClip 0 0 64 32).Clips (.image 60 0 8 8 (fun _ => 0) 8 8) ∧
      ¬ sample.Clips (.image 0 28 8 8 (fun _ => 0) 8 8) := by
  refine ⟨fun h => ?_, fun h => ?_, fun h => ?_, fun h => ?_⟩
  · have hlit : (sample.setClip 0 0 4 16).Lit (65, 0, 0) (4, 3) :=
      ⟨by decide, 3, by decide, 4, by decide, by decide, rfl⟩
    have := (oneLine_clips_iff _ (by decide) (by decide) 0 0 0).mp h ⟨0, 0, 4, 16⟩ rfl (65, 0, 0)
      List.mem_cons_self (by decide) (4, 3) hlit (by decide)
    exact absurd this (by decide)
  · have hin : (sample.setClip 0 0 64 32).Inside (0, 21) :=
      inside_iff.mpr ⟨by decide, show Scissor.Has ⟨0, 0, 64, 32⟩ (0, 21) by decide⟩
    have hlit : (sample.setClip 0 0 64 32).Lit (65, 0, 16) (0, 21) :=
      ⟨by decide, 5, by decide, 0, by decide, by decide, rfl⟩
    obtain ⟨a, ha, hlit'⟩ := (((text_clips_iff _ [65, 10, 65] 0 0 0).mp h ⟨0, 0, 64, 32⟩ rfl).2
      (0, 21) hin).mpr ⟨(65, 0, 16), List.mem_cons_of_mem _ List.mem_cons_self, hlit⟩
    obtain ⟨hx, hx', hy, hy'⟩ := hlit'.cell
    have hplaces : a = (65, 0, 0) ∨ a = (65, 16, 16) := by simpa [clippedGlyphs] using ha
    rcases hplaces with rfl | rfl
    · exact absurd hy' (by decide)
    · exact absurd hx (by decide)
  · -- the image's pixel (64, 0) has the element of (0, 1), which the clipped call leaves alone
    have hin : (sample.setClip 0 0 64 32).Inside (0, 1) :=
      inside_iff.mpr ⟨by decide, show Scissor.Has ⟨0, 0, 64, 32⟩ (0, 1) by decide⟩
    have hlow : (sample.setClip 0 0 64 32).Lowest (⟨60, 0, 8, 8⟩ : Scissor).Has (0, 1)
        (64, 0) := by
      refine ⟨by decide, by decide, ?_⟩
      rintro r ⟨hx, hx', -, -⟩ heq
      change r.2 * 64 + r.1 = 1 * 64 + 0 at heq
      dsimp only at hx hx' ⊢
      omega
    obtain ⟨low, ⟨⟨hrect, hclip⟩, heq, -⟩, -⟩ :=
      ((image_clips_iff _ 60 0 8 8 (fun _ => 0) 8 8).mp h).2 (0, 1) hin (64, 0) hlow
    obtain ⟨-, hright, -, -⟩ := hclip ⟨0, 0, 64, 32⟩ rfl
    obtain ⟨hleft, -, -, -⟩ := hrect
    change low.2 * 64 + low.1 = 1 * 64 + 0 at heq
    dsimp only at hright hleft
    omega
  · have hrows := (image_columns_clips_iff sample (by decide) (by decide) 28 8 (fun _ => 0) 8
      8).mp h (0, 32) ⟨by decide, fun s hs => by cases hs⟩
    exact absurd hrows.2 (by decide)

end Painter

end Kyuzen.Ui
