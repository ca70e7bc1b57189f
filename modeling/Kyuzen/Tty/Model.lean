import Mathlib

/-!
# The terminal

`drivers/tty.c`, with the drawing functions of `kernel/gfx/fb.c` that it uses. The text is drawn on
`base_canvas` as it comes, and kept in a ring of lines from which the screen is painted again when
it scrolls back.

The pixel `(x, y)` is `base_canvas[y * stride + x]`. Rows, columns and coordinates stay below the
size of the screen and are natural numbers, `tty_line_count` and `tty_view_offset` are reduced to
32 bits. What the compositor needs to know of the changes is left out.
-/

namespace Kyuzen.Tty

abbrev Color := UInt32
abbrev Canvas := Nat × Nat → Color

def fontWidth : Nat := 8
def fontHeight : Nat := 16
def bgColor : Color := 0x1E1E1E
def fgColor : Color := 0xFFFFFF
def ttyHistoryLines : Nat := 512
def ttyMaxCols : Nat := 256

/-- `fb_width`, `fb_height` and `font8x16`. -/
structure Screen where
  width : Nat
  height : Nat
  font : UInt8 → Nat → UInt8
  cols_range : 1 ≤ width / fontWidth ∧ width / fontWidth ≤ 240
  rows_range : 1 ≤ height / fontHeight ∧ height / fontHeight ≤ 67

structure Terminal where
  row : Nat
  column : Nat
  history : Nat → Nat → UInt8
  lineCount : Nat
  viewOffset : Int
  cursorState : Bool
  canvas : Canvas

def int32 (v : Int) : Int := Int.bmod v (2 ^ 32)
def uint32 (v : Nat) : Nat := v % 2 ^ 32

/-! ## Drawing -/

namespace Screen

def cols (s : Screen) : Nat := s.width / fontWidth
def rows (s : Screen) : Nat := s.height / fontHeight

def put (s : Screen) (x y : Nat) (color : Color) (px : Canvas) : Canvas :=
  if s.width ≤ x ∨ s.height ≤ y then px else Function.update px (x, y) color

/-- The part of the rectangle that is on the screen is filled. -/
def drawRect (s : Screen) (x y width height : Nat) (color : Color) (px : Canvas) : Canvas :=
  (List.range (min (y + height) s.height - y)).foldl (fun px row =>
    (List.range (min (x + width) s.width - x)).foldl (fun px col =>
      Function.update px (x + col, y + row) color) px) px

/-- The bit of a glyph; there is none for a negative `char`. -/
def glyphBit (s : Screen) (c : UInt8) (row col : Nat) : Bool :=
  s.font c row &&& (0x80 >>> UInt8.ofNat col) != 0

def drawChar (s : Screen) (c : UInt8) (x y : Nat) (color : Color) (px : Canvas) : Canvas :=
  if 127 < c then px
  else
    (List.range 16).foldl (fun px row =>
      (List.range 8).foldl (fun px col =>
        if s.glyphBit c row col then s.put (x + col) (y + row) color px else px) px) px

end Screen

/-! ## The ring -/

def histLine (t : Terminal) (logical : Nat) : Nat → UInt8 := t.history (logical % ttyHistoryLines)

def setHist (t : Terminal) (logical col : Nat) (c : UInt8) : Terminal :=
  { t with
    history := Function.update t.history (logical % ttyHistoryLines)
      (Function.update (histLine t logical) col c) }

def histClearLine (t : Terminal) (logical : Nat) : Terminal := setHist t logical 0 0

/-! ## The cursor -/

def fillCursor (s : Screen) (t : Terminal) (color : Color) : Canvas :=
  s.drawRect (t.column * fontWidth) (t.row * fontHeight + 14) fontWidth 2 color t.canvas

def drawCursor (s : Screen) (t : Terminal) : Terminal :=
  let t := { t with cursorState := true }
  if t.viewOffset ≠ 0 then t else { t with canvas := fillCursor s t fgColor }

def blinkCursor (s : Screen) (t : Terminal) : Terminal :=
  if t.viewOffset ≠ 0 then t
  else
    { t with
      cursorState := !t.cursorState
      canvas := fillCursor s t (if !t.cursorState then fgColor else bgColor) }

def eraseCursor (s : Screen) (t : Terminal) : Terminal :=
  if t.viewOffset ≠ 0 then t else { t with canvas := fillCursor s t bgColor }

/-! ## Scrolling -/

/-- The loop of `tty_scroll`: each pixel is copied from 16 rows below. -/
def moveUp (s : Screen) (px : Canvas) : Canvas :=
  (List.range (s.height - fontHeight)).foldl (fun px y =>
    (List.range s.width).foldl (fun px x =>
      Function.update px (x, y) (px (x, y + fontHeight))) px) px

def scroll (s : Screen) (t : Terminal) : Terminal :=
  { t with
    row := t.row - 1
    canvas := s.drawRect 0 (s.height - fontHeight) s.width fontHeight bgColor (moveUp s t.canvas) }

/-- The columns of a line up to its NUL. -/
def textColumns (line : Nat → UInt8) : List Nat :=
  (List.range ttyMaxCols).takeWhile fun col => line col != 0

/-- The turn of the loop of `tty_render_view` for the row `sr`. -/
def renderRow (s : Screen) (t : Terminal) (first : Int) (px : Canvas) (sr : Nat) : Canvas :=
  let px := s.drawRect 0 (sr * fontHeight) s.width fontHeight bgColor px
  let logical := int32 (first + sr)
  if logical < 0 ∨ t.lineCount < logical.toNat then px
  else if ttyHistoryLines ≤ t.lineCount ∧ logical.toNat ≤ t.lineCount - ttyHistoryLines then px
  else
    (textColumns (histLine t logical.toNat)).foldl (fun px col =>
      s.drawChar (histLine t logical.toNat col) (col * fontWidth) (sr * fontHeight) fgColor px) px

def renderView (s : Screen) (t : Terminal) : Terminal :=
  let first := int32 (int32 (int32 t.lineCount - int32 t.row) - t.viewOffset)
  { t with canvas := (List.range s.rows).foldl (renderRow s t first) t.canvas }

def maxScrollback (t : Terminal) : Int :=
  let topLive := int32 (int32 t.lineCount - int32 t.row)
  let oldest :=
    if ttyHistoryLines ≤ t.lineCount then int32 (int32 (int32 t.lineCount - ttyHistoryLines) + 1)
    else 0
  let max := int32 (topLive - oldest)
  if max < 0 then 0 else max

def scrollView (s : Screen) (t : Terminal) (deltaLines : Int32) : Terminal :=
  let next := int32 (t.viewOffset + deltaLines.toInt)
  let next := if next < 0 then 0 else next
  let next := if maxScrollback t < next then maxScrollback t else next
  if next = t.viewOffset then t
  else
    let t := renderView s { t with viewOffset := next }
    if t.viewOffset = 0 then drawCursor s t else t

/-! ## Output -/

def newline (s : Screen) (t : Terminal) : Terminal :=
  let t := { t with column := 0, lineCount := uint32 (t.lineCount + 1) }
  let t := histClearLine t t.lineCount
  let t := { t with row := t.row + 1 }
  if s.rows ≤ t.row then scroll s t else t

/-- `draw_rect` over the cell of the cursor. -/
def clearCell (s : Screen) (t : Terminal) : Canvas :=
  s.drawRect (t.column * fontWidth) (t.row * fontHeight) fontWidth fontHeight bgColor t.canvas

def backspace (s : Screen) (t : Terminal) : Terminal :=
  let t :=
    if 0 < t.column then setHist { t with column := t.column - 1 } t.lineCount (t.column - 1) 0
    else if 0 < t.row then { t with row := t.row - 1, column := s.cols - 1 }
    else t
  { t with canvas := clearCell s t }

/-- The last branch of `terminal_putchar`. -/
def putGlyph (s : Screen) (t : Terminal) (c : UInt8) : Terminal :=
  let t :=
    { t with
      canvas := s.drawChar c (t.column * fontWidth) (t.row * fontHeight) fgColor (clearCell s t) }
  let t :=
    if t.column < ttyMaxCols - 1 then
      setHist (setHist t t.lineCount t.column c) t.lineCount (t.column + 1) 0
    else t
  let t := { t with column := t.column + 1 }
  if s.cols ≤ t.column then newline s t else t

def putchar (s : Screen) (t : Terminal) (c : UInt8) : Terminal :=
  let t := if t.viewOffset ≠ 0 then renderView s { t with viewOffset := 0 } else t
  let t := eraseCursor s t
  let t :=
    if c = 10 then newline s t
    else if c = 8 then backspace s t
    else putGlyph s t c
  drawCursor s t

def clear (s : Screen) (t : Terminal) : Terminal :=
  let t := { t with canvas := s.drawRect 0 0 s.width s.height bgColor t.canvas }
  let t := { t with row := 0, column := 0, lineCount := 0, viewOffset := 0 }
  drawCursor s (histClearLine t 0)

end Kyuzen.Tty
