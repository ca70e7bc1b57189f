import Mathlib

/-!
# Rectangles, dirty regions and viewports

`kernel/display.c`. Coordinates and sizes are the 32-bit integers of the source; the 64-bit
intermediate values stay within `2 ^ 34` and are integers here. A buffer holds its pixels by index;
`none` is the outcome of a `viewport_render` that touches an index that is no pixel of its buffer.
-/

namespace Kyuzen.Display

structure Rect where
  x : Int32
  y : Int32
  width : UInt32
  height : UInt32
  deriving DecidableEq

namespace Rect

/-- The column behind the last one, as a 64-bit number. -/
def right (r : Rect) : Int := r.x.toInt + r.width.toNat

/-- The row behind the last one. -/
def bottom (r : Rect) : Int := r.y.toInt + r.height.toNat

def Has (r : Rect) (px py : Int) : Prop :=
  (r.x.toInt ≤ px ∧ px < r.right) ∧ r.y.toInt ≤ py ∧ py < r.bottom

instance (r : Rect) (px py : Int) : Decidable (r.Has px py) :=
  inferInstanceAs (Decidable ((_ ∧ _) ∧ _ ∧ _))

def nonempty (r : Rect) : Bool := r.width != 0 && r.height != 0

end Rect

def rectUnion (a b : Rect) : Rect :=
  let x0 := min a.x.toInt b.x.toInt
  let y0 := min a.y.toInt b.y.toInt
  let x1 := max a.right b.right
  let y1 := max a.bottom b.bottom
  ⟨Int32.ofInt x0, Int32.ofInt y0, UInt32.ofInt (x1 - x0), UInt32.ofInt (y1 - y0)⟩

/-! ## Dirty regions -/

def maxDirtyRegions : Nat := 64

/-- The first `count` entries of the array. -/
structure DirtyRegionList where
  regions : List Rect
  collapsed : Bool

def dirtyRegionClear (_ : DirtyRegionList) : DirtyRegionList := ⟨[], false⟩

def dirtyRegionMark (list : DirtyRegionList) (r : Rect) : DirtyRegionList :=
  if !r.nonempty then list
  else
    match list.collapsed, list.regions with
    | true, first :: rest => { list with regions := rectUnion first r :: rest }
    | true, [] => list
    | false, regions =>
      if maxDirtyRegions ≤ regions.length then
        match regions with
        | [] => list
        | first :: rest => ⟨[rectUnion (rest.foldl rectUnion first) r], true⟩
      else { list with regions := regions ++ [r] }

/-! ## Buffers -/

abbrev Color := UInt32

structure DisplayBuffer where
  width : UInt32
  height : UInt32
  /-- Pixels in a row. -/
  stride : UInt32
  pixels : Nat → Color
  width_le : width.toNat ≤ stride.toNat

namespace DisplayBuffer

/-- The index is that of a pixel. -/
def IsPixel (b : DisplayBuffer) (i : Nat) : Prop :=
  i % b.stride.toNat < b.width.toNat ∧ i / b.stride.toNat < b.height.toNat

instance (b : DisplayBuffer) (i : Nat) : Decidable (b.IsPixel i) :=
  inferInstanceAs (Decidable (_ ∧ _))

end DisplayBuffer

structure Viewport where
  bounds : Rect
  scrollX : Int32
  scrollY : Int32
  source : Option DisplayBuffer

/-- `(uint64_t)v`. -/
def u64 (v : Int) : Nat := (v % 2 ^ 64).toNat

/-- `(uint64_t)y * stride + (uint64_t)x`. -/
def rowOffset (b : DisplayBuffer) (y x : Int) : Nat := (u64 y * b.stride.toNat + u64 x) % 2 ^ 64

/-- `memcpy` of `n` pixels, from index `s` of one buffer to index `d` of another one, whose pixels
are `m` by now. -/
def copyPixels (src dst : DisplayBuffer) (d s : Nat) : Nat → (Nat → Color) → Option (Nat → Color)
  | 0, m => some m
  | n + 1, m =>
    (copyPixels src dst d s n m).bind fun m =>
      if src.IsPixel (s + n) ∧ dst.IsPixel (d + n) then
        some (Function.update m (d + n) (src.pixels (s + n)))
      else none

/-- The first column, or row, that is in source and target. -/
def clipStart (scroll bound : Int) : Int := max (max 0 (-scroll)) (-bound)

/-- The end of the columns, or rows, that are in source and target. -/
def clipEnd (size source scroll target bound : Int) : Int :=
  min (min size (source - scroll)) (target - bound)

/-- The pixels of the target afterwards. -/
def viewportRender (vp : Viewport) (target : DisplayBuffer) : Option (Nat → Color) :=
  match vp.source with
  | none => some target.pixels
  | some src =>
    let bounds := vp.bounds
    let c0 := clipStart vp.scrollX.toInt bounds.x.toInt
    let c1 := clipEnd bounds.width.toNat src.width.toNat vp.scrollX.toInt target.width.toNat
      bounds.x.toInt
    let r0 := clipStart vp.scrollY.toInt bounds.y.toInt
    let r1 := clipEnd bounds.height.toNat src.height.toNat vp.scrollY.toInt target.height.toNat
      bounds.y.toInt
    if c1 ≤ c0 then some target.pixels
    else if r1 ≤ r0 then some target.pixels
    else
      (List.range (r1 - r0).toNat).foldlM (fun m (k : Nat) =>
        copyPixels src target (rowOffset target (bounds.y.toInt + (r0 + k)) (bounds.x.toInt + c0))
          (rowOffset src (vp.scrollY.toInt + (r0 + k)) (vp.scrollX.toInt + c0))
          (u64 (c1 - c0)) m) target.pixels

end Kyuzen.Display
