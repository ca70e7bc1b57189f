import Kyuzen.Gpu.Surface

/-!
# The two backends of the graphics layer

`surface_upload`, `fill_rect` and `blit` of `graphics/backend/software.c` and of
`graphics/backend/virtio_gpu.c`, on surfaces whose pixels are one linear array: the `pixels` of the
one and the backing of the other. (Where the backing really lies is the subject of
`Gpu/Backing.lean`.) An array has no end in the model: an index behind the last pixel is what lies
behind the array in memory, and the indices that are read from a surface are kept in a list.

`memcpy` copies forward, so that a copy within one surface may read what it has just written. The
number of bytes that it gets is a `uint32_t` product.
-/

namespace Kyuzen.Ghal

open Gpu (Rect clip)

/-- `struct ghal_surface`: `pixels` is tightly packed, row after row. -/
structure Canvas where
  width : Nat
  height : Nat
  pixels : Nat → Nat

/-- A read of `index` in the array of surface `surface`. -/
structure Read where
  surface : Nat
  index : Nat
  deriving DecidableEq

structure State where
  canvas : Nat → Canvas
  reads : List Read

/-- Where `memcpy` copies from. -/
inductive Source where
  /-- the canvas of an application, from its first pixel on -/
  | memory (pixels : Nat → Nat)
  | surface (id : Nat)

/-! ## Pixels -/

def State.setPixel (s : State) (dst index val : Nat) : State :=
  { s with
    canvas := Function.update s.canvas dst
      { s.canvas dst with pixels := Function.update (s.canvas dst).pixels index val } }

def State.copyPixel (s : State) (dst index : Nat) : Source → Nat → State
  | .memory pixels, i => s.setPixel dst index (pixels i)
  | .surface id, i =>
    { s with reads := ⟨id, i⟩ :: s.reads }.setPixel dst index ((s.canvas id).pixels i)

/-- `memcpy(drow, srow, bytes)`. -/
def memcpy (dst drow : Nat) (src : Source) (srow bytes : Nat) (s : State) : State :=
  (List.range (bytes / 4)).foldl (fun s i => s.copyPixel dst (drow + i) src (srow + i)) s

/-- `h` rows of `w` pixels; a row of the source is `step` pixels long. -/
def copyRows (dst : Nat) (src : Source) (w step : Nat) : Nat → Nat → Nat → State → State
  | 0, _, _, s => s
  | h + 1, srow, drow, s =>
    copyRows dst src w step h (srow + step) (drow + (s.canvas dst).width)
      (memcpy dst drow src srow (w * 4 % 2 ^ 32) s)

/-- `h` rows of `w` pixels of one color. -/
def fillRows (dst x y w h color : Nat) (s : State) : State :=
  (List.range h).foldl (fun s i =>
    (List.range w).foldl (fun s j =>
      s.setPixel dst ((y + i) * (s.canvas dst).width + x + j) color) s) s

/-! ## What both backends do -/

/-- The part of `rect` that lies on the surface is copied from the same place of `src`. -/
def uploadClipped (id : Nat) (src : Nat → Nat) (srcPitch : Nat) (rect : Rect) (s : State) : State :=
  let c := s.canvas id
  let w := clip rect.w (c.width - rect.x)
  let h := clip rect.h (c.height - rect.y)
  copyRows id (.memory src) w srcPitch h (rect.y * srcPitch + rect.x) (rect.y * c.width + rect.x) s

def fillClipped (dst : Nat) (rect : Rect) (argb : Nat) (s : State) : State :=
  let c := s.canvas dst
  if rect.x ≥ c.width ∨ rect.y ≥ c.height then s
  else
    fillRows dst rect.x rect.y (clip rect.w (c.width - rect.x)) (clip rect.h (c.height - rect.y))
      (argb &&& 0xFFFFFF) s

/-! ## `software.c` -/

def swSurfaceUpload (id : Nat) (src : Nat → Nat) (srcPitch : Nat) (rect : Rect) (s : State) :
    State :=
  let c := s.canvas id
  if rect.x ≥ c.width ∨ rect.y ≥ c.height then s
  else if rect.w = 0 ∨ rect.h = 0 then s
  else uploadClipped id src srcPitch rect s

def swFillRect (dst : Nat) (rect : Rect) (argb : Nat) (s : State) : State :=
  fillClipped dst rect argb s

def swBlit (dst : Nat) (dstRect : Rect) (src : Nat) (srcRect : Rect) (s : State) : State :=
  let d := s.canvas dst
  let c := s.canvas src
  if dstRect.w ≠ srcRect.w ∨ dstRect.h ≠ srcRect.h then s
  else if dstRect.x ≥ d.width ∨ dstRect.y ≥ d.height then s
  else
    let dw := clip dstRect.w (d.width - dstRect.x)
    let dh := clip dstRect.h (d.height - dstRect.y)
    if srcRect.x ≥ c.width ∨ srcRect.y ≥ c.height then s
    else
      let sw := clip srcRect.w (c.width - srcRect.x)
      let sh := clip srcRect.h (c.height - srcRect.y)
      let w := if dw < sw then dw else sw
      let h := if dh < sh then dh else sh
      copyRows dst (.surface src) w c.width h (srcRect.y * c.width + srcRect.x)
        (dstRect.y * d.width + dstRect.x) s

/-! ## `virtio_gpu.c` -/

def virtioSurfaceUpload (id : Nat) (src : Nat → Nat) (srcPitch : Nat) (rect : Rect) (s : State) :
    State :=
  let c := s.canvas id
  if rect.x ≥ c.width ∨ rect.y ≥ c.height then s
  else uploadClipped id src srcPitch rect s

def virtioFillRect (dst : Nat) (rect : Rect) (argb : Nat) (s : State) : State :=
  fillClipped dst rect argb s

/-- Only the rectangle of the destination is clipped. -/
def virtioBlit (dst : Nat) (dstRect : Rect) (src : Nat) (srcRect : Rect) (s : State) : State :=
  let d := s.canvas dst
  let c := s.canvas src
  if dstRect.w ≠ srcRect.w ∨ dstRect.h ≠ srcRect.h then s
  else if dstRect.x ≥ d.width ∨ dstRect.y ≥ d.height then s
  else
    let w := clip dstRect.w (d.width - dstRect.x)
    let h := clip dstRect.h (d.height - dstRect.y)
    if srcRect.x ≥ c.width ∨ srcRect.y ≥ c.height then s
    else
      copyRows dst (.surface src) w c.width h (srcRect.y * c.width + srcRect.x)
        (dstRect.y * d.width + dstRect.x) s

/-! ## The operations table -/

inductive Op where
  | upload (id : Nat) (src : Nat → Nat) (srcPitch : Nat) (rect : Rect)
  | fill (dst : Nat) (rect : Rect) (argb : Nat)
  | blit (dst : Nat) (dstRect : Rect) (src : Nat) (srcRect : Rect)

/-- `software_backend_ops`. -/
def softwareOps (s : State) : Op → State
  | .upload id src srcPitch rect => swSurfaceUpload id src srcPitch rect s
  | .fill dst rect argb => swFillRect dst rect argb s
  | .blit dst dstRect src srcRect => swBlit dst dstRect src srcRect s

/-- `virtio_gpu_backend_ops`. -/
def virtioOps (s : State) : Op → State
  | .upload id src srcPitch rect => virtioSurfaceUpload id src srcPitch rect s
  | .fill dst rect argb => virtioFillRect dst rect argb s
  | .blit dst dstRect src srcRect => virtioBlit dst dstRect src srcRect s

end Kyuzen.Ghal
