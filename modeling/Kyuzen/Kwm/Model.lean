import Mathlib.Logic.Function.Basic
import Mathlib.Data.List.Basic
import Mathlib.Tactic.Ring

/-!
# The window manager

`kernel/gfx/kwm.c`: a table of 16 windows, the next stacking index, the focused window and the
window that is being dragged. Every function takes `kwm_lock` for its whole work on the table, so
a call is one step; `kwm_process_mouse` takes it first for a drag and then for a click, but only
one of the two does anything. A call returns, beside its result, the rectangles that it has passed
to `screen_mark_dirty`.

A slot number of `-1` is `none`. Coordinates are 32-bit integers, and sums of them wrap around
(`i32`). What `display_buffer_create` answers is an input: nothing, or a canvas with the pixels
that the heap happens to hold.
-/

namespace Kyuzen.Kwm

def maxWindows : Nat := 16
def titlebarH : Nat := 24
def closeBtnW : Nat := 40
def shadowMargin : Nat := 6
def maxDimension : Nat := 4096
def maxCanvasBytes : Nat := 16 * 1024 * 1024

/-- A sum of 32-bit integers. -/
def i32 (v : Int) : Int := Int.bmod v (2 ^ 32)

/-- A sum of unsigned 32-bit integers. -/
def u32 (v : Nat) : Nat := v % 2 ^ 32

structure Rect where
  x : Int
  y : Int
  width : Nat
  height : Nat
  deriving DecidableEq

/-- `DisplayBuffer` of a window, whose rows have no gaps: how many pixels were allocated, and
their values. -/
structure Canvas where
  count : Nat
  pixels : Nat → Nat

/-- `display_buffer_create`, with the pixels of the block that `kmalloc` has given. -/
def displayBufferCreate (width height : Nat) (block : Option (Nat → Nat)) : Option Canvas :=
  if width = 0 ∨ height = 0 then none
  else
    let bytes := width * height * 4 % 2 ^ 64
    if bytes / width / 4 ≠ height then none
    else block.map fun pixels => ⟨bytes / 4, pixels⟩

/-- `kwm_window_t`; `desktop` is the flag `KWM_WIN_DESKTOP`. -/
structure Window where
  active : Bool
  x : Int
  y : Int
  width : Nat
  height : Nat
  canvas : Option Canvas
  zIndex : Nat
  ownerTask : Int
  desktop : Bool
  title : List UInt8

structure State where
  windows : Nat → Window
  nextZIndex : Nat
  draggedWinId : Option Nat
  dragOffsetX : Int
  dragOffsetY : Int
  focusedWinId : Option Nat
  altTabActive : Bool
  fbWidth : Nat
  fbHeight : Nat

def setWindow (s : State) (i : Nat) (w : Window) : State :=
  { s with windows := Function.update s.windows i w }

/-- The slot of a window number that a caller passes. -/
def slotOf (winId : Int) : Option Nat :=
  if winId < 0 ∨ winId ≥ maxWindows then none else some winId.toNat

/-- An active window that is not the desktop. -/
def State.normal (s : State) (i : Nat) : Bool := (s.windows i).active && !(s.windows i).desktop

/-- The height of the titlebar, which the desktop does not have. -/
def Window.tb (w : Window) : Nat := if w.desktop then 0 else titlebarH

/-! ## Stacking -/

/-- One round of the insertion sort: the sorted part is kept with its last element first. -/
def insertByZ (s : State) (w : Nat) : List Nat → List Nat
  | [] => [w]
  | v :: rest =>
    if (s.windows v).zIndex > (s.windows w).zIndex then v :: insertByZ s w rest
    else w :: v :: rest

/-- The active windows but the desktop, from the lowest to the highest. -/
def zOrder (s : State) : List Nat :=
  (((List.range maxWindows).filter s.normal).foldl
    (fun sorted w => insertByZ s w sorted) []).reverse

def kwmNormalizeZindexLocked (s : State) : State :=
  let order := zOrder s
  { s with
    windows := fun w =>
      if w ∈ order then { s.windows w with zIndex := u32 (order.idxOf w + 1) } else s.windows w
    nextZIndex := u32 (order.length + 1) }

/-- `if (next_z_index > MAX_WINDOWS) kwm_normalize_zindex_locked()`. -/
def normalizeIfLarge (s : State) : State :=
  if s.nextZIndex > maxWindows then kwmNormalizeZindexLocked s else s

/-- `kwm_windows[i].z_index = next_z_index++`. -/
def raise (s : State) (i : Nat) : State :=
  { setWindow s i { s.windows i with zIndex := s.nextZIndex } with
    nextZIndex := u32 (s.nextZIndex + 1) }

/-! ## Dirty rectangles -/

def frameDirtyArea (x y : Int) (w h : Nat) : Rect :=
  ⟨i32 (x - shadowMargin), i32 (y - shadowMargin), u32 (w + 2 * shadowMargin),
    u32 (h + 2 * shadowMargin)⟩

def kwmFrameDirty (s : State) (i : Nat) : List Rect :=
  if i < maxWindows ∧ (s.windows i).active = true then
    let w := s.windows i
    [frameDirtyArea w.x w.y w.width (u32 (w.height + w.tb))]
  else []

def frameDirtyOf (s : State) : Option Nat → List Rect
  | none => []
  | some i => kwmFrameDirty s i

def screenRect (s : State) : Rect := ⟨0, 0, s.fbWidth, s.fbHeight⟩

/-! ## Hit test and focus -/

/-- The point lies in the frame of the window. -/
def Window.hit (w : Window) (px py : Int) : Bool :=
  px ≥ w.x && px < i32 (w.x + w.width) && py ≥ w.y && py < i32 (w.y + i32 (w.height + w.tb))

/-- A round of the loop, which keeps the highest index so far and its window. -/
def hitStep (s : State) (px py : Int) (best : Int × Option Nat) (i : Nat) : Int × Option Nat :=
  if (s.windows i).active && (s.windows i).hit px py && i32 (s.windows i).zIndex > best.1 then
    (i32 (s.windows i).zIndex, some i)
  else best

def kwmHitTestLocked (s : State) (px py : Int) : Option Nat :=
  ((List.range maxWindows).foldl (hitStep s px py) (-1, none)).2

def refocusStep (s : State) (best : Nat × Option Nat) (i : Nat) : Nat × Option Nat :=
  if s.normal i && (s.windows i).zIndex > best.1 then ((s.windows i).zIndex, some i) else best

def kwmRefocusLocked (s : State) : State :=
  { s with focusedWinId := ((List.range maxWindows).foldl (refocusStep s) (0, none)).2 }

/-! ## Creating and changing windows -/

def kwmFreeSlot (s : State) (i : Nat) : State :=
  { setWindow s i { s.windows i with
      canvas := none
      active := false
      ownerTask := -1
      desktop := false
      title := [] } with
    draggedWinId := if s.draggedWinId = some i then none else s.draggedWinId }

/-- The first slot that is not active. -/
def freeSlot (s : State) : Option Nat :=
  (List.range maxWindows).find? fun i => !(s.windows i).active

def kwmCreateWindow (owner : Int) (block : Option (Nat → Nat)) (s : State) (x y : Int)
    (width height : Nat) : Option Nat × State × List Rect :=
  if width = 0 ∨ height = 0 ∨ width > maxDimension ∨ height > maxDimension then (none, s, [])
  else if width * height * 4 > maxCanvasBytes then (none, s, [])
  else
    match freeSlot s with
    | none => (none, s, [])
    | some i =>
      match displayBufferCreate width height block with
      | none => (none, s, [])
      | some canvas =>
        let s₁ := setWindow s i { s.windows i with
          x := x
          y := y
          width := width
          height := height
          canvas := some canvas
          ownerTask := owner }
        -- the slot is not active yet when the indices are renumbered
        let s₂ := normalizeIfLarge (raise s₁ i)
        let s₃ := { setWindow s₂ i { s₂.windows i with
          desktop := false
          title := []
          active := true } with focusedWinId := some i }
        (some i, s₃, kwmFrameDirty s₃ i ++
          if s.focusedWinId = some i then [] else frameDirtyOf s₃ s.focusedWinId)

def kwmCreateDesktop (owner : Int) (block : Option (Nat → Nat)) (s : State) :
    Option Nat × State × List Rect :=
  if (List.range maxWindows).any fun i => (s.windows i).active && (s.windows i).desktop then
    (none, s, [])
  else if s.fbWidth = 0 ∨ s.fbHeight = 0 then (none, s, [])
  else
    match freeSlot s with
    | none => (none, s, [])
    | some i =>
      match displayBufferCreate s.fbWidth s.fbHeight block with
      | none => (none, s, [])
      | some canvas =>
        (some i, setWindow s i
          { active := true
            x := 0
            y := 0
            width := s.fbWidth
            height := s.fbHeight
            canvas := some canvas
            zIndex := 0
            ownerTask := owner
            desktop := true
            title := [] }, [screenRect s])

/-- The title is a C string, or `NULL`. -/
def kwmSetTitle (task : Int) (s : State) (winId : Int) (title : Option (List UInt8)) :
    Int × State × List Rect :=
  match slotOf winId, title with
  | some i, some text =>
    if (s.windows i).active = false ∨ (s.windows i).ownerTask ≠ task then (-1, s, [])
    else
      let s₁ := setWindow s i { s.windows i with title := text.take 31 }
      (0, s₁, kwmFrameDirty s₁ i)
  | _, _ => (-1, s, [])

def kwmActivateWindow (s : State) (winId : Int) : Int × State × List Rect :=
  match slotOf winId with
  | none => (-1, s, [])
  | some i =>
    if s.normal i = false then (-1, s, [])
    else
      let s₁ := { normalizeIfLarge (normalizeIfLarge (raise s i)) with focusedWinId := some i }
      (0, s₁, kwmFrameDirty s₁ i ++
        if s.focusedWinId = some i then [] else frameDirtyOf s₁ s.focusedWinId)

def kwmWindowCanvasBytes (s : State) (winId : Int) : Nat :=
  match slotOf winId with
  | none => 0
  | some i => if (s.windows i).active then (s.windows i).width * (s.windows i).height * 4 else 0

def kwmWindowOwner (s : State) (winId : Int) : Int :=
  match slotOf winId with
  | none => -1
  | some i => if (s.windows i).active then (s.windows i).ownerTask else -1

/-- `rep movsl`: so many pixels are copied from the application's buffer. -/
def blitCount (w : Window) : Nat := u32 (w.width * w.height)

def kwmUpdateWindow (task : Int) (s : State) (winId : Int) (appBuffer : Option (Nat → Nat)) :
    State × List Rect :=
  match slotOf winId, appBuffer with
  | some i, some src =>
    let w := s.windows i
    match w.canvas with
    | none => (s, [])
    | some canvas =>
      if w.active = false ∨ w.ownerTask ≠ task then (s, [])
      else
        (setWindow s i { w with canvas := some { canvas with
          pixels := fun k => if k < blitCount w then src k else canvas.pixels k } },
          [⟨w.x, i32 (w.y + w.tb), w.width, w.height⟩])
  | _, _ => (s, [])

def kwmDestroyWindow (s : State) (winId : Int) : State × List Rect :=
  match slotOf winId with
  | none => (s, [])
  | some i =>
    if (s.windows i).active = false then (s, [])
    else
      let w := s.windows i
      let area := frameDirtyArea w.x w.y w.width (u32 (w.height + titlebarH))
      if s.focusedWinId = some i then
        let s₁ := kwmRefocusLocked (kwmFreeSlot s i)
        (s₁, area :: frameDirtyOf s₁ s₁.focusedWinId)
      else (kwmFreeSlot s i, [area])

/-- The loop of `kwm_destroy_windows_of` over the first `n` slots: the table, and whether the
focused window was destroyed. -/
def destroyUpTo (task : Int) (s : State) : Nat → State × Bool
  | 0 => (s, false)
  | n + 1 =>
    let (s, gone) := destroyUpTo task s n
    if (s.windows n).active = true ∧ (s.windows n).ownerTask = task then
      (kwmFreeSlot s n, gone || s.focusedWinId == some n)
    else (s, gone)

def kwmDestroyWindowsOf (s : State) (task : Int) : State × List Rect :=
  let (s₁, gone) := destroyUpTo task s maxWindows
  (if gone then kwmRefocusLocked s₁ else s₁, [screenRect s])

def destroyAllUpTo (s : State) : Nat → State
  | 0 => s
  | n + 1 =>
    let s := destroyAllUpTo s n
    if (s.windows n).active then kwmFreeSlot s n else s

def kwmDestroyAllWindows (s : State) : State × List Rect :=
  ({ destroyAllUpTo s maxWindows with focusedWinId := none }, [screenRect s])

/-! ## Mouse -/

/-- A coordinate of the dragged window: not negative, and then not beyond the screen. -/
def clampDrag (v : Int) (frame screen : Nat) : Int :=
  let v := if v < 0 then 0 else v
  if i32 (v + frame) > i32 screen then i32 (i32 screen - frame) else v

/-- What a click on window `i` does: `EVENT_WIN_CLOSE` for its owner, or the start of a drag. -/
inductive TitlebarClick where
  | none
  | close (owner : Int)
  | drag
  deriving DecidableEq

def titlebarClick (w : Window) (px py : Int) : TitlebarClick :=
  if py ≥ w.y ∧ py < i32 (w.y + titlebarH) then
    if px ≥ i32 (i32 (w.x + w.width) - closeBtnW) then .close w.ownerTask else .drag
  else .none

/-- The step of a drag of window `i`. -/
def dragStep (s : State) (i : Nat) (px py : Int) : State × List Rect :=
  let w := s.windows i
  let fh := u32 (w.height + titlebarH)
  let x := clampDrag (i32 (px - s.dragOffsetX)) w.width s.fbWidth
  let y := clampDrag (i32 (py - s.dragOffsetY)) fh s.fbHeight
  (setWindow s i { w with x := x, y := y },
    [frameDirtyArea w.x w.y w.width fh, frameDirtyArea x y w.width fh])

/-- The left button goes down on the window, the desktop or nothing. -/
def clickStep (s : State) (px py : Int) : Nat × State × List Rect :=
  match kwmHitTestLocked s px py with
  | none =>
    let s₁ := { s with focusedWinId := none }
    (0, s₁, frameDirtyOf s₁ s.focusedWinId)
  | some i =>
    if (s.windows i).desktop then
      (0, s, kwmFrameDirty s i ++
        if s.focusedWinId = some i then [] else frameDirtyOf s s.focusedWinId)
    else
      -- `kwm_bring_to_front`, which does not renumber
      let s₁ := { raise s i with focusedWinId := some i }
      match titlebarClick (s.windows i) px py with
      | .close owner =>
        if owner ≥ 0 then (1, s₁, [])
        else
          (0, s₁, kwmFrameDirty s₁ i ++
            if s.focusedWinId = some i then [] else frameDirtyOf s₁ s.focusedWinId)
      | .drag =>
        let s₂ := { s₁ with
          draggedWinId := some i
          dragOffsetX := i32 (px - (s.windows i).x)
          dragOffsetY := i32 (py - (s.windows i).y) }
        (1, s₂, kwmFrameDirty s₂ i ++
          if s.focusedWinId = some i then [] else frameDirtyOf s₂ s.focusedWinId)
      | .none =>
        (0, s₁, kwmFrameDirty s₁ i ++
          if s.focusedWinId = some i then [] else frameDirtyOf s₁ s.focusedWinId)

/-- The window that is dragged, if it is still there. -/
def dragTarget (s : State) : Option Nat :=
  s.draggedWinId.filter fun i => i < maxWindows && (s.windows i).active

/-- The result is 1 when the event is not passed on to an application. -/
def kwmProcessMouse (s : State) (px py : Int) (leftDown leftUp : Bool) :
    Nat × State × List Rect :=
  if leftUp then (0, { s with draggedWinId := none }, [])
  else
    match dragTarget s with
    | some i => (1, dragStep s i px py)
    | none => if leftDown then clickStep s px py else (0, s, [])

/-! ## Alt-Tab -/

/-- What the loop of `kwm_cycle_focus_locked` keeps: the next window above the focused one, and
the lowest window. -/
structure Cycle where
  nextZ : Int
  target : Option Nat
  lowestZ : Int
  lowestWin : Option Nat

def cycleStep (s : State) (curZ : Int) (c : Cycle) (i : Nat) : Cycle :=
  if s.normal i then
    let z := i32 (s.windows i).zIndex
    let c := if z < c.lowestZ then { c with lowestZ := z, lowestWin := some i } else c
    if curZ ≥ 0 ∧ z > curZ ∧ z < c.nextZ then { c with nextZ := z, target := some i } else c
  else c

def topStep (s : State) (best : Int × Option Nat) (i : Nat) : Int × Option Nat :=
  if s.normal i && i32 (s.windows i).zIndex > best.1 then (i32 (s.windows i).zIndex, some i)
  else best

/-- The stacking index of the focused window. -/
def focusZ (s : State) : Int :=
  match s.focusedWinId with
  | none => -1
  | some i => if i < maxWindows ∧ (s.windows i).active = true then i32 (s.windows i).zIndex else -1

def cycleTarget (s : State) : Option Nat :=
  let curZ := focusZ s
  let c := (List.range maxWindows).foldl (cycleStep s curZ)
    ⟨i32 s.nextZIndex, none, i32 s.nextZIndex, none⟩
  if curZ < 0 then
    match ((List.range maxWindows).foldl (topStep s) (-1, none)).2 with
    | some i => some i
    | none => c.target
  else
    match c.target with
    | some i => some i
    | none => c.lowestWin

def kwmCycleFocusLocked (s : State) : State :=
  match cycleTarget s with
  | some i => { normalizeIfLarge (raise s i) with focusedWinId := some i }
  | none => { s with focusedWinId := none }

def keyModAlt : Nat := 0x04
def kbdScanTab : Nat := 0x0F

/-- The result is 1 when the key is not passed on. -/
def kwmHandleShortcut (s : State) (mods : Nat) (released : Bool) (keyId : Nat) :
    Nat × State × List Rect :=
  if s.altTabActive = true ∧ mods &&& keyModAlt = 0 then (1, { s with altTabActive := false }, [])
  else if mods &&& keyModAlt ≠ 0 ∧ keyId = kbdScanTab then
    if released then (1, s, [])
    else
      let s₁ := kwmCycleFocusLocked s
      (1, { s₁ with altTabActive := true }, frameDirtyOf s₁ s₁.focusedWinId ++
        if s.focusedWinId = s₁.focusedWinId then [] else frameDirtyOf s₁ s.focusedWinId)
  else (0, s, [])

/-! ## Runs -/

inductive Op where
  | createWindow (owner : Int) (block : Option (Nat → Nat)) (x y : Int) (width height : Nat)
  | createDesktop (owner : Int) (block : Option (Nat → Nat))
  | setTitle (task winId : Int) (title : Option (List UInt8))
  | activate (winId : Int)
  | update (task winId : Int) (appBuffer : Option (Nat → Nat))
  | destroy (winId : Int)
  | destroyOf (task : Int)
  | destroyAll
  | mouse (px py : Int) (leftDown leftUp : Bool)
  | shortcut (mods : Nat) (released : Bool) (keyId : Nat)

/-- The table after an operation, and the rectangles that it has marked. -/
def run (s : State) : Op → State × List Rect
  | .createWindow owner block x y width height =>
    (kwmCreateWindow owner block s x y width height).2
  | .createDesktop owner block => (kwmCreateDesktop owner block s).2
  | .setTitle task winId title => (kwmSetTitle task s winId title).2
  | .activate winId => (kwmActivateWindow s winId).2
  | .update task winId appBuffer => kwmUpdateWindow task s winId appBuffer
  | .destroy winId => kwmDestroyWindow s winId
  | .destroyOf task => kwmDestroyWindowsOf s task
  | .destroyAll => kwmDestroyAllWindows s
  | .mouse px py leftDown leftUp => (kwmProcessMouse s px py leftDown leftUp).2
  | .shortcut mods released keyId => (kwmHandleShortcut s mods released keyId).2

def exec (s : State) (op : Op) : State := (run s op).1

/-- The table at boot, all zeros, on a screen of some size. -/
def boot (fbWidth fbHeight : Nat) : State where
  windows _ := ⟨false, 0, 0, 0, 0, none, 0, 0, false, []⟩
  nextZIndex := 1
  draggedWinId := none
  dragOffsetX := 0
  dragOffsetY := 0
  focusedWinId := none
  altTabActive := false
  fbWidth := fbWidth
  fbHeight := fbHeight

/-- The tables that operations lead to that all meet `P`. -/
inductive Reach (P : State → Op → Prop) : State → Prop
  | boot (fbWidth fbHeight : Nat) : Reach P (boot fbWidth fbHeight)
  | step {s : State} (op : Op) (h : Reach P s) (hp : P s op) : Reach P (exec s op)

end Kyuzen.Kwm
