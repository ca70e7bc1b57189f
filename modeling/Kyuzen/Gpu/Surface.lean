import Mathlib.Logic.Function.Basic
import Mathlib.Tactic.Ring
import Kyuzen.Pmm.Alloc

/-!
# Surfaces of the graphics device

`graphics/memory/gpu_alloc.c` and the surface functions of `graphics/backend/virtio_gpu.c`. A
surface is backed by pages that are allocated one by one; the device learns of each of them by the
`ATTACH_BACKING` command, while the drawing functions go through `backing_virt`, the address of the
first page.

Memory is a map from addresses to 32-bit words, with the offset of the direct map left out. The
stores of the drawing functions are kept in a list, each with the pixel that it is for. What
`kmalloc` and the device answer is an input, and so are the calls of the page allocator that other
tasks make between two pages of a surface.
-/

namespace Kyuzen.Gpu

def ghalMaxDim : Nat := 8192

/-- `ghal_rect_t`. -/
structure Rect where
  x : Nat
  y : Nat
  w : Nat
  h : Nat
  deriving DecidableEq

/-- `virtio_gpu_mem_entry_t`. -/
structure MemEntry where
  addr : Nat
  length : Nat
  deriving DecidableEq

/-- `struct ghal_surface`. The entries of its `ATTACH_BACKING` command are kept with it. -/
structure Surface where
  resourceId : Nat
  width : Nat
  height : Nat
  pages : List Nat
  numPages : Nat
  backing : Nat
  attached : List MemEntry
  deriving DecidableEq

/-! ## Pages -/

structure Driver where
  pmm : Pmm.State
  word : Nat → Nat
  resourceCounter : Nat

/-- The memory after a page has been cleared. -/
def clearPage (word : Nat → Nat) (pa a : Nat) : Nat :=
  if pa ≤ a ∧ a < pa + 4096 then 0 else word a

/-- `others n` is what other tasks do before page `n` is allocated. -/
def gpuAllocPages (others : Nat → List Pmm.Op) : Nat → Nat → Driver → List Nat × Driver
  | 0, _, d => ([], d)
  | count + 1, n, d =>
    let (pa, pmm) := Pmm.pmmAllocPage (Pmm.run d.pmm (others n))
    if pa = Pmm.physNull then ([], { d with pmm := pmm })
    else
      let (pages, d) := gpuAllocPages others count (n + 1)
        { d with pmm := pmm, word := clearPage d.word pa }
      (pa :: pages, d)

def gpuFreePages (pages : List Nat) (d : Driver) : Driver :=
  { d with pmm := Pmm.run d.pmm ((pages.filter (· ≠ 0)).map Pmm.Op.free) }

/-! ## Creating a surface -/

/-- The answers of `kmalloc` for the page list, the surface and the command, and those of the
device to `RESOURCE_CREATE_2D` and `ATTACH_BACKING`. -/
structure Answers where
  pagesNode : Bool
  surfaceNode : Bool
  createOk : Bool
  commandNode : Bool
  attachOk : Bool

def virtioSurfaceCreate (a : Answers) (others : Nat → List Pmm.Op) (d : Driver) (w h : Nat) :
    Option Surface × Driver :=
  if w = 0 ∨ h = 0 ∨ w > ghalMaxDim ∨ h > ghalMaxDim then (none, d)
  else
    let bytes := w * h * 4 % 2 ^ 64
    if bytes = 0 ∨ w ≠ 0 ∧ bytes / 4 / w ≠ h then (none, d)
    else
      let numPages := (bytes + 4095) / 4096 % 2 ^ 32
      if a.pagesNode = false then (none, d)
      else
        let (pages, d) := gpuAllocPages others numPages 0 d
        if pages.length = 0 then (none, d)
        else if pages.length < numPages then (none, gpuFreePages pages d)
        else if a.surfaceNode = false then (none, gpuFreePages pages d)
        else
          let s : Surface := {
            resourceId := d.resourceCounter
            width := w
            height := h
            pages := pages
            numPages := numPages
            backing := pages.headD 0
            attached := pages.map fun pa => ⟨pa, 4096⟩ }
          let d := { d with resourceCounter := (d.resourceCounter + 1) % 2 ^ 32 }
          if a.createOk = false then (none, gpuFreePages pages d)
          else if a.commandNode = false then (none, gpuFreePages pages d)
          else if a.attachOk = false then (none, gpuFreePages pages d)
          else (some s, d)

/-- Where the device finds a byte of the backing: the entries lie one behind the other. -/
def deviceAddr : List MemEntry → Nat → Option Nat
  | [], _ => none
  | e :: es, offset => if offset < e.length then some (e.addr + offset)
    else deviceAddr es (offset - e.length)

/-! ## Drawing -/

/-- A store of the drawing functions: pixel `(x, y)` of `dst`. -/
structure Store where
  dst : Surface
  x : Nat
  y : Nat
  addr : Nat

structure Mem where
  word : Nat → Nat
  stores : List Store

def Mem.store (m : Mem) (e : Store) (val : Nat) : Mem :=
  ⟨Function.update m.word e.addr val, e :: m.stores⟩

/-- `n` pixels of a row from pixel `(x, y)` on, at `row` pixels behind the backing. -/
def storeRow (dst : Surface) (x y row : Nat) (val : Nat → (Nat → Nat) → Nat) (n : Nat) (m : Mem) :
    Mem :=
  (List.range n).foldl
    (fun m i => m.store ⟨dst, x + i, y, dst.backing + 4 * (row + i)⟩ (val i m.word)) m

/-- The loop over rows of `w` pixels that `memcpy` copies: `srow` and `drow` are moved on by a row
of the source and of the surface. -/
def copyRows (dst : Surface) (x w step : Nat) (read : Nat → (Nat → Nat) → Nat) :
    Nat → Nat → Nat → Nat → Mem → Mem
  | 0, _, _, _, m => m
  | h + 1, y, srow, drow, m =>
    copyRows dst x w step read h (y + 1) (srow + step) (drow + dst.width)
      (storeRow dst x y drow (fun i => read (srow + i)) w m)

/-- `n`, or `max` if that is smaller. -/
def clip (n max : Nat) : Nat := if n > max then max else n

def virtioSurfaceUpload (s : Surface) (src : Nat → Nat) (srcPitch : Nat) (rect : Rect) (m : Mem) :
    Mem :=
  if rect.x ≥ s.width ∨ rect.y ≥ s.height then m
  else
    let w := clip rect.w (s.width - rect.x)
    let h := clip rect.h (s.height - rect.y)
    copyRows s rect.x w srcPitch (fun i _ => src i) h rect.y (rect.y * srcPitch + rect.x)
      (rect.y * s.width + rect.x) m

def virtioFillRect (dst : Surface) (rect : Rect) (argb : Nat) (m : Mem) : Mem :=
  if rect.x ≥ dst.width ∨ rect.y ≥ dst.height then m
  else
    let w := clip rect.w (dst.width - rect.x)
    let h := clip rect.h (dst.height - rect.y)
    (List.range h).foldl
      (fun m y => storeRow dst rect.x (rect.y + y) ((rect.y + y) * dst.width + rect.x)
        (fun _ _ => argb &&& 0xFFFFFF) w m) m

def virtioBlit (dst : Surface) (dstRect : Rect) (src : Surface) (srcRect : Rect) (m : Mem) : Mem :=
  if dstRect.w ≠ srcRect.w ∨ dstRect.h ≠ srcRect.h then m
  else if dstRect.x ≥ dst.width ∨ dstRect.y ≥ dst.height then m
  else
    let w := clip dstRect.w (dst.width - dstRect.x)
    let h := clip dstRect.h (dst.height - dstRect.y)
    if srcRect.x ≥ src.width ∨ srcRect.y ≥ src.height then m
    else
      copyRows dst dstRect.x w src.width (fun i word => word (src.backing + 4 * i)) h dstRect.y
        (srcRect.y * src.width + srcRect.x) (dstRect.y * dst.width + dstRect.x) m

inductive DrawOp where
  | upload (s : Surface) (src : Nat → Nat) (srcPitch : Nat) (rect : Rect)
  | fill (dst : Surface) (rect : Rect) (argb : Nat)
  | blit (dst : Surface) (dstRect : Rect) (src : Surface) (srcRect : Rect)

def draw (m : Mem) : DrawOp → Mem
  | .upload s src srcPitch rect => virtioSurfaceUpload s src srcPitch rect m
  | .fill dst rect argb => virtioFillRect dst rect argb m
  | .blit dst dstRect src srcRect => virtioBlit dst dstRect src srcRect m

/-- What a sequence of drawing operations does to a memory. -/
def drawAll (word : Nat → Nat) (ops : List DrawOp) : Mem := ops.foldl draw ⟨word, []⟩

/-- A surface of a kernel that has booted, whatever has been allocated and freed before. -/
def Created (s : Surface) : Prop :=
  ∃ map p₀ before a others d w h, Pmm.pmmInitDynamic map = some p₀ ∧
    d.pmm = Pmm.run p₀ before ∧ (virtioSurfaceCreate a others d w h).1 = some s

end Kyuzen.Gpu
