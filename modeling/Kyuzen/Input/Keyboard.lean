import Mathlib.Data.List.Basic
import Mathlib.Data.Nat.Bitwise
import Kyuzen.Event.Model

/-!
# The keyboard

`keyboard_handler` keeps which modifier keys are held and the bitmask of the active modifiers, and
passes a key on: to the window manager, to the task whose window has the focus, or to the ring that
the terminal reads. The functions of `drivers/keyboard.c` on one state; `kbd_lock` makes reading,
flushing and the write to the ring exclude each other.

Between the shortcut and the routing of a key the window manager may change; `meanwhile` is what
other CPUs do to it then.
-/

namespace Kyuzen.Input

open Event

def eventKeyPress : Nat := 1
def eventKeyRelease : Nat := 5

def keyModShift : BitVec 8 := 0x01
def keyModCtrl : BitVec 8 := 0x02
def keyModAlt : BitVec 8 := 0x04
def keyModCaps : BitVec 8 := 0x08

def heldLshift : BitVec 8 := 0x01
def heldRshift : BitVec 8 := 0x02
def heldLctrl : BitVec 8 := 0x04
def heldRctrl : BitVec 8 := 0x08
def heldLalt : BitVec 8 := 0x10
def heldRalt : BitVec 8 := 0x20
def heldCaps : BitVec 8 := 0x40

def kbdBufferSize : Nat := 256

/-- The characters of the keys; the cells that follow are 0. -/
def kbdus : List UInt8 :=
  [0, 27, 49, 50, 51, 52, 53, 54, 55, 56, 57, 48, 45, 61, 8,
    9, 113, 119, 101, 114, 116, 121, 117, 105, 111, 112, 91, 93, 10,
    0, 97, 115, 100, 102, 103, 104, 106, 107, 108, 59, 39, 96,
    0, 92, 122, 120, 99, 118, 98, 110, 109, 44, 46, 47, 0,
    42, 0, 32, 0, 0, 0, 0, 0, 0, 0, 0, 0, 0, 0, 0, 0, 0, 0, 0, 45,
    0, 0, 0, 43]

/-- The characters of the keys with Shift. -/
def kbdusShift : List UInt8 :=
  [0, 27, 33, 64, 35, 36, 37, 94, 38, 42, 40, 41, 95, 43, 8,
    9, 81, 87, 69, 82, 84, 89, 85, 73, 79, 80, 123, 125, 10,
    0, 65, 83, 68, 70, 71, 72, 74, 75, 76, 58, 34, 126,
    0, 124, 90, 88, 67, 86, 66, 78, 77, 60, 62, 63, 0,
    42, 0, 32, 0, 0, 0, 0, 0, 0, 0, 0, 0, 0, 0, 0, 0, 0, 0, 0, 45,
    0, 0, 0, 43]

structure Keyboard where
  held : BitVec 8
  mods : BitVec 8
  extended : Bool
  buffer : Nat → UInt8
  head : Nat
  tail : Nat

def initKeyboard (k : Keyboard) : Keyboard :=
  { k with head := 0, tail := 0, held := 0, mods := 0, extended := false }

/-! ## The handler -/

/-- A key that goes down or up. Bit 8 of the number marks the keys that have a prefix. -/
structure Stroke where
  keyId : Nat
  released : Bool
  deriving DecidableEq

def strokeOf (extended : Bool) (scancode : BitVec 8) : Stroke where
  keyId := (scancode &&& 0x7F).toNat ||| if extended then 0x100 else 0
  released := scancode &&& 0x80 ≠ 0

def hold (held bit : BitVec 8) (released : Bool) : BitVec 8 :=
  if released then held &&& ~~~bit else held ||| bit

/-- The `switch` over the keys: `kbd_held` and `kbd_mods` afterwards. -/
def updateModifiers (held mods : BitVec 8) (s : Stroke) : BitVec 8 × BitVec 8 :=
  match s.keyId with
  | 0x2A => (hold held heldLshift s.released, mods)
  | 0x36 => (hold held heldRshift s.released, mods)
  | 0x1D => (hold held heldLctrl s.released, mods)
  | 0x11D => (hold held heldRctrl s.released, mods)
  | 0x38 => (hold held heldLalt s.released, mods)
  | 0x138 => (hold held heldRalt s.released, mods)
  | 0x3A =>
    if s.released then (held &&& ~~~heldCaps, mods)
    -- A key that is held down repeats its code.
    else if held &&& heldCaps = 0 then (held ||| heldCaps, mods ^^^ keyModCaps)
    else (held, mods)
  | _ => (held, mods)

/-- The modifiers that the held keys stand for. -/
def deriveMods (held mods : BitVec 8) : BitVec 8 :=
  let mods := mods &&& keyModCaps
  let mods := if held &&& (heldLshift ||| heldRshift) ≠ 0 then mods ||| keyModShift else mods
  let mods := if held &&& (heldLctrl ||| heldRctrl) ≠ 0 then mods ||| keyModCtrl else mods
  if held &&& (heldLalt ||| heldRalt) ≠ 0 then mods ||| keyModAlt else mods

/-- A release has the character of the key alone. -/
def toAscii (mods : BitVec 8) (code : Nat) (released : Bool) : UInt8 :=
  let ascii := kbdus.getD code 0
  if released then ascii
  else
    let shift := decide (mods &&& keyModShift ≠ 0)
    let upper := if mods &&& keyModCaps ≠ 0 ∧ 97 ≤ ascii ∧ ascii ≤ 122 then !shift else shift
    if upper then kbdusShift.getD code 0 else ascii

/-- A character for the terminal; a full ring drops it. -/
def Keyboard.put (k : Keyboard) (ascii : UInt8) : Keyboard :=
  let nextHead := (k.head + 1) % kbdBufferSize
  if nextHead ≠ k.tail then
    { k with buffer := Function.update k.buffer k.head ascii, head := nextHead }
  else k

def Keyboard.stroke (k : Keyboard) (s : Stroke) : Keyboard :=
  let held := updateModifiers k.held k.mods s
  { k with held := held.1, mods := deriveMods held.1 held.2, extended := false }

/-- The routing of a key: the keyboard, and the call of `push_event_to` if there is one. -/
def routeKey (k : Keyboard) (kwm : Kwm.State) (s : Stroke) (ascii : UInt8) :
    Keyboard × Option (Int × KyuzenEvent) :=
  let (target, win) := kwmRouteKeyboard kwm
  if target ≥ 0 then
    (k, some (target, ⟨if s.released then eventKeyRelease else eventKeyPress,
      ascii.toNat, k.mods.toNat, s.keyId, win⟩))
  else if !s.released ∧ ascii ≠ 0 ∧ k.mods &&& (keyModCtrl ||| keyModAlt) = 0 then
    (k.put ascii, none)
  else (k, none)

def accepts (status : BitVec 8) : Bool := status &&& 0x01 ≠ 0 ∧ status &&& 0x20 = 0

def keyboardHandler (k : Keyboard) (kwm : Kwm.State) (status scancode : BitVec 8)
    (meanwhile : Kwm.State → Kwm.State) : Keyboard × Kwm.State × Option (Int × KyuzenEvent) :=
  if !accepts status then (k, meanwhile kwm, none)
  else if scancode = 0xE0 then ({ k with extended := true }, meanwhile kwm, none)
  else
    let s := strokeOf k.extended scancode
    let k := k.stroke s
    let ascii := toAscii k.mods (scancode &&& 0x7F).toNat s.released
    let (shortcut, kwm, _) := Kwm.kwmHandleShortcut kwm k.mods.toNat s.released s.keyId
    let kwm := meanwhile kwm
    if shortcut = 0 then
      let (k, pushed) := routeKey k kwm s ascii
      (k, kwm, pushed)
    else (k, kwm, none)

/-! ## Reading -/

/-- The loop, with the bytes that may still be read. -/
def readLoop : Nat → Keyboard → List UInt8 × Keyboard
  | 0, k => ([], k)
  | left + 1, k =>
    if k.head = k.tail then ([], k)
    else
      let (bytes, k') := readLoop left { k with tail := (k.tail + 1) % kbdBufferSize }
      (k.buffer k.tail :: bytes, k')

/-- The bytes that are stored, and the keyboard afterwards. -/
def keyboardRead (k : Keyboard) (size : Nat) : List UInt8 × Keyboard := readLoop size k

def flushKbdBuffer (k : Keyboard) : Keyboard := { k with head := 0, tail := 0 }

/-! ## Runs -/

structure System where
  kbd : Keyboard
  kwm : Kwm.State

inductive Op where
  | irq (status scancode : BitVec 8) (meanwhile : Kwm.State → Kwm.State)
  | read (size : Nat)
  | flush
  /-- Anything that does not concern the keyboard. -/
  | other (f : Kwm.State → Kwm.State)

def step (s : System) : Op → System
  | .irq status scancode meanwhile =>
    let r := keyboardHandler s.kbd s.kwm status scancode meanwhile
    ⟨r.1, r.2.1⟩
  | .read size => { s with kbd := (keyboardRead s.kbd size).2 }
  | .flush => { s with kbd := flushKbdBuffer s.kbd }
  | .other f => { s with kwm := f s.kwm }

/-- The call of `push_event_to`. -/
def pushedBy (s : System) : Op → Option (Int × KyuzenEvent)
  | .irq status scancode meanwhile => (keyboardHandler s.kbd s.kwm status scancode meanwhile).2.2
  | _ => none

def boot (kwm : Kwm.State) : System := ⟨initKeyboard ⟨0, 0, false, fun _ => 0, 0, 0⟩, kwm⟩

def run (kwm : Kwm.State) (ops : List Op) : System := ops.foldl step (boot kwm)

end Kyuzen.Input
