import Mathlib.Data.List.Induction
import Kyuzen.Input.Keyboard

/-!
# The mouse

`mouse_handler` collects the bytes of a packet, moves the cursor inside the screen, finds the
changes of the buttons and routes the events. The functions of `drivers/mouse.c` on one state; the
mouse interrupt comes to one CPU. Before each call of the window manager other CPUs may change it,
which is `meanwhile` with the number of the call.
-/

namespace Kyuzen.Input

open Event

structure Mouse where
  x : Int
  y : Int
  hasWheel : Bool
  cycle : Nat
  bytes : Nat → BitVec 8
  lastLeft : Bool
  lastRight : Bool

/-- A mouse is found to have a wheel by its device ID. -/
def bootMouse (deviceId : BitVec 8) : Mouse where
  x := 512
  y := 384
  hasWheel := deviceId = 3
  cycle := 0
  bytes _ := 0
  lastLeft := false
  lastRight := false

def Mouse.packetSize (m : Mouse) : Nat := if m.hasWheel then 4 else 3

/-- What a packet leads to. -/
inductive MouseOut where
  | push (target : Int) (e : KyuzenEvent)
  /-- There is no window under the cursor, and the event is not pushed. -/
  | nowhere (e : KyuzenEvent)
  | scrollView (lines : Int)

/-! ## A packet -/

/-- A coordinate of the cursor, on a screen of `size` pixels of which the cursor covers `margin`. -/
def clampAxis (v : Int) (size margin : Nat) : Int :=
  let v := if v < 0 then 0 else v
  if v > Kwm.i32 (size - margin) then Kwm.i32 (size - margin) else v

def leftBit (bytes : Nat → BitVec 8) : Bool := bytes 0 &&& 0x01 ≠ 0

def rightBit (bytes : Nat → BitVec 8) : Bool := bytes 0 &&& 0x02 ≠ 0

/-- A packet whose movement does not fit is dropped. -/
def overflows (bytes : Nat → BitVec 8) : Bool := bytes 0 &&& 0x80 ≠ 0 ∨ bytes 0 &&& 0x40 ≠ 0

def Mouse.move (fbWidth fbHeight : Nat) (m : Mouse) : Mouse :=
  { m with
    x := clampAxis (Kwm.i32 (m.x + (m.bytes 1).toInt)) fbWidth 12
    y := clampAxis (Kwm.i32 (m.y - (m.bytes 2).toInt)) fbHeight 16 }

/-- An event for the window under the cursor. -/
def routeTo (kwm : Kwm.State) (m : Mouse) (e : MouseEvent) : MouseOut :=
  let (target, win) := kwmRouteMouse kwm m.x m.y
  let (lx, ly) := routeLocal kwm m.x m.y
  if target ≥ 0 then .push target (e.event lx ly win) else .nowhere (e.event lx ly win)

/-- The request to close a window, of `kwm_process_mouse`. -/
def closeOut (kwm : Kwm.State) (m : Mouse) (leftDown leftUp : Bool) : List MouseOut :=
  match closeWindow kwm m.x m.y leftDown leftUp with
  | none => []
  | some i => [.push (kwm.windows i).ownerTask ⟨eventWinClose, 0, 0, 0, i + 1⟩]

/-- The left button: a press that the window manager has taken is not passed on. -/
def leftOut (kwm : Kwm.State) (m : Mouse) (consumed : Nat) (left leftUp : Bool) : List MouseOut :=
  if consumed = 0 then
    if left ≠ m.lastLeft then [routeTo kwm m (.click 0 left.toInt)] else []
  else if leftUp then [routeTo kwm m (.click 0 0)]
  else []

def rightOut (kwm : Kwm.State) (m : Mouse) (right : Bool) : List MouseOut :=
  if right ≠ m.lastRight then [routeTo kwm m (.click 1 right.toInt)] else []

def wheelOut (kwm : Kwm.State) (m : Mouse) (z : Int) : List MouseOut :=
  if z = 0 then []
  else if (kwmRouteMouse kwm m.x m.y).1 ≥ 0 then [routeTo kwm m (.scroll z)]
  else [.scrollView (-z * 3)]

/-- The packet is complete. -/
def handlePacket (fbWidth fbHeight : Nat) (m : Mouse) (kwm : Kwm.State)
    (meanwhile : Nat → Kwm.State → Kwm.State) : Mouse × Kwm.State × List MouseOut :=
  if overflows m.bytes then (m, kwm, [])
  else
    let z := if m.hasWheel then (m.bytes 3).toInt else 0
    let m := m.move fbWidth fbHeight
    let left := leftBit m.bytes
    let right := rightBit m.bytes
    let leftDown := left && !m.lastLeft
    let leftUp := !left && m.lastLeft
    let kwm₀ := meanwhile 0 kwm
    let (consumed, kwm₁, _) := Kwm.kwmProcessMouse kwm₀ m.x m.y leftDown leftUp
    let kwm₂ := meanwhile 1 kwm₁
    let kwm₃ := meanwhile 2 kwm₂
    let kwm₄ := meanwhile 3 kwm₃
    let kwm₅ := meanwhile 4 kwm₄
    ({ m with lastLeft := left, lastRight := right }, kwm₅,
      closeOut kwm₀ m leftDown leftUp ++ leftOut kwm₂ m consumed left leftUp ++
        rightOut kwm₃ m right ++ [routeTo kwm₄ m .move] ++ wheelOut kwm₅ m z)

/-! ## The handler -/

def mouseAccepts (status : BitVec 8) : Bool := status &&& 0x01 ≠ 0 ∧ status &&& 0x20 ≠ 0

/-- The byte is stored; the index never leaves the array. -/
def Mouse.store (m : Mouse) (byte : BitVec 8) : Mouse :=
  let cycle := if m.cycle ≥ 4 then 0 else m.cycle
  { m with bytes := Function.update m.bytes cycle byte, cycle := cycle + 1 }

def mouseHandler (fbWidth fbHeight : Nat) (m : Mouse) (kwm : Kwm.State) (status byte : BitVec 8)
    (meanwhile : Nat → Kwm.State → Kwm.State) : Mouse × Kwm.State × List MouseOut :=
  if !mouseAccepts status then (m, kwm, [])
  else
    let m := m.store byte
    if m.cycle ≥ m.packetSize then handlePacket fbWidth fbHeight { m with cycle := 0 } kwm meanwhile
    else (m, kwm, [])

/-! ## Runs -/

structure MouseSystem where
  mouse : Mouse
  kwm : Kwm.State
  /-- What the handler has sent, the first one first. -/
  outs : List MouseOut

inductive MouseOp where
  | irq (status byte : BitVec 8) (meanwhile : Nat → Kwm.State → Kwm.State)
  /-- Anything that does not concern the mouse. -/
  | other (f : Kwm.State → Kwm.State)

def mouseStep (fbWidth fbHeight : Nat) (s : MouseSystem) : MouseOp → MouseSystem
  | .irq status byte meanwhile =>
    let r := mouseHandler fbWidth fbHeight s.mouse s.kwm status byte meanwhile
    ⟨r.1, r.2.1, s.outs ++ r.2.2⟩
  | .other f => { s with kwm := f s.kwm }

def runMouse (fbWidth fbHeight : Nat) (deviceId : BitVec 8) (kwm : Kwm.State)
    (ops : List MouseOp) : MouseSystem :=
  ops.foldl (mouseStep fbWidth fbHeight) ⟨bootMouse deviceId, kwm, []⟩

end Kyuzen.Input
