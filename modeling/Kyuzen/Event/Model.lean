import Kyuzen.Lib.Ring
import Kyuzen.Lib.Run
import Kyuzen.Kwm.Owners

/-!
# Events and their addressees

The event queues of `kernel/event.c`, the routing functions of `kwm.c`, and the interrupt handlers
of keyboard and mouse that call them: a handler first asks the window manager for the task that gets
the event, under `kwm_lock`, and pushes the event afterwards, under `event_lock`. In between, other
CPUs go on. The window syscalls are those of `Kwm.Syscalls`; here tasks also end and are created,
and each section of `task_exit` is a step of its own.

A task is a slot with the number of tasks that were created in it. `maker` tells which task has
opened a window; routing attaches it to the event. `born`, `maker` and `delivered` record what has
happened; no step reads them.
-/

namespace Kyuzen.Event

def maxTasks : Nat := 16

def eventQueueSize : Nat := 64

/-! ## The queue of a task -/

/-- A row of `task_queues`, with `eq_head` and `eq_tail`. -/
structure Queue (α : Type) where
  cells : Nat → α
  head : Nat
  tail : Nat

variable {α : Type}

def pushEvent (q : Queue α) (e : α) : Queue α :=
  let nextHead := (q.head + 1) % eventQueueSize
  { cells := Function.update q.cells q.head e
    head := nextHead
    -- The queue is full: the oldest event is dropped.
    tail := if nextHead = q.tail then (q.tail + 1) % eventQueueSize else q.tail }

def popEvent (q : Queue α) : Option α × Queue α :=
  if q.head = q.tail then (none, q)
  else (some (q.cells q.tail), { q with tail := (q.tail + 1) % eventQueueSize })

def flushQueue (q : Queue α) : Queue α := { q with head := 0, tail := 0 }

/-! ## Routing -/

structure KyuzenEvent where
  type : Nat
  param1 : Int
  param2 : Int
  param3 : Int
  winId : Int

def eventMouseMove : Nat := 2
def eventMouseClick : Nat := 3
def eventScroll : Nat := 4
def eventWinClose : Nat := 6

/-- The window that gets the keys. -/
def keyboardWindow (s : Kwm.State) : Option Nat :=
  s.focusedWinId.filter fun i => i < Kwm.maxWindows && (s.windows i).active

/-- What `kwm_route_keyboard` and `kwm_route_mouse` return for a window: its owner and the number
for `win_id`. -/
def ownerOf (s : Kwm.State) : Option Nat → Int × Int
  | none => (-1, 0)
  | some i => ((s.windows i).ownerTask, i + 1)

/-- `kwm_route_keyboard`. -/
def kwmRouteKeyboard (s : Kwm.State) : Int × Int := ownerOf s (keyboardWindow s)

/-- `kwm_route_mouse`. -/
def kwmRouteMouse (s : Kwm.State) (sx sy : Int) : Int × Int :=
  ownerOf s (Kwm.kwmHitTestLocked s sx sy)

/-- The coordinates that `kwm_route_mouse` returns; they stay 0 if there is no window. -/
def routeLocal (s : Kwm.State) (sx sy : Int) : Int × Int :=
  match Kwm.kwmHitTestLocked s sx sy with
  | none => (0, 0)
  | some i =>
    (Kwm.i32 (sx - (s.windows i).x), Kwm.i32 (sy - Kwm.i32 ((s.windows i).y + (s.windows i).tb)))

/-- The window whose close button `kwm_process_mouse` has been given. -/
def closeWindow (s : Kwm.State) (px py : Int) (leftDown leftUp : Bool) : Option Nat :=
  if leftUp then none
  else
    match Kwm.dragTarget s with
    | some _ => none
    | none =>
      if leftDown then
        (Kwm.kwmHitTestLocked s px py).filter fun i =>
          !(s.windows i).desktop && decide (Kwm.titlebarClick (s.windows i) px py =
            .close (s.windows i).ownerTask)
      else none

/-- What the mouse handler sends to the window under the cursor. -/
inductive MouseEvent where
  | click (button state : Int)
  | move
  | scroll (delta : Int)

def MouseEvent.event (lx ly win : Int) : MouseEvent → KyuzenEvent
  | click button state => ⟨eventMouseClick, button, state, 0, win⟩
  | move => ⟨eventMouseMove, lx, ly, 0, win⟩
  | scroll delta => ⟨eventScroll, delta, lx, ly, win⟩

/-! ## Tasks and interrupts -/

/-- An event with the task that had opened its window when it was routed. -/
structure Tagged where
  event : KyuzenEvent
  maker : Option (Nat × Nat)

/-- What an interrupt handler keeps between routing and `push_event_to`. -/
structure Routed where
  target : Int
  tagged : Tagged
  /-- The number of tasks created in the slot `target` when the event was routed. -/
  bornThen : Nat

inductive Life where
  | dead
  /-- A task with an application: the shell in slot 0, or a task made by `create_user_task`. -/
  | user
  /-- A task made by `create_task_prio`; it opens no windows. -/
  | kernel
  /-- In `task_exit`, before `flush_event_queue`. -/
  | leaving
  /-- In `task_exit`, before the section under `scheduler_lock`. -/
  | flushed
  deriving DecidableEq

/-- An event returned by `pop_event`, and the task that has got it. -/
structure Delivery where
  slot : Nat
  born : Nat
  tagged : Tagged

structure State where
  sys : Kwm.Sys
  queue : Nat → Queue Tagged
  /-- The handler that runs on a CPU. -/
  irq : Nat → Option Routed
  life : Nat → Life
  born : Nat → Nat
  maker : Nat → Nat × Nat
  delivered : List Delivery

namespace State

def setQueue (s : State) (t : Nat) (q : Queue Tagged) : State :=
  { s with queue := Function.update s.queue t q }

def setLife (s : State) (t : Nat) (l : Life) : State :=
  { s with life := Function.update s.life t l }

/-- The task that has opened the window, if it is there. -/
def madeBy (s : State) (w : Option Nat) : Option (Nat × Nat) :=
  w.bind fun i => if (s.sys.kwm.windows i).active then some (s.maker i) else none

/-- The windows that have come with the new state of the window manager were opened by `t`. -/
def withSys (s : State) (t : Nat) (sys : Kwm.Sys) : State :=
  { s with
    sys := sys
    maker := fun i =>
      if (s.sys.kwm.windows i).active = false ∧ (sys.kwm.windows i).active = true then (t, s.born t)
      else s.maker i }

/-- Syscall 34 of a task that is not the shell goes on with `task_exit`. -/
def exits (s : State) (t : Nat) (a : Kwm.Act) : Bool :=
  match s.sys.phase t, a with
  | .idle, .exit => t ≠ 0
  | _, _ => false

/-- A step of a window syscall. -/
def syscall (s : State) (t : Nat) (a : Kwm.Act) : State :=
  if s.life t = .user then
    let s' := s.withSys t (Kwm.act s.sys t a)
    if s.exits t a then s'.setLife t .leaving else s'
  else s

/-- Syscall 33 destroys the windows of its task too, which then goes on. -/
def exec (s : State) (t : Nat) : State :=
  if s.life t = .user then s.withSys t (Kwm.act s.sys t .exit) else s

def flushEventQueue (s : State) (t : Nat) : State := s.setQueue t (flushQueue (s.queue t))

/-- Syscall 29. -/
def getEvent (s : State) (t : Nat) : State :=
  if s.life t = .user ∨ s.life t = .kernel then
    let s' := s.setQueue t (popEvent (s.queue t)).2
    match (popEvent (s.queue t)).1 with
    | none => s'
    | some e => { s' with delivered := ⟨t, s.born t, e⟩ :: s.delivered }
  else s

/-- The section of `create_task_prio` or `create_user_task` under `scheduler_lock`. -/
def create (s : State) (l : Life) : State :=
  match (List.range' 1 (maxTasks - 1)).find? fun t => decide (s.life t = .dead) with
  | none => s
  | some t =>
    { (s.flushEventQueue t).setLife t l with born := Function.update s.born t (s.born t + 1) }

/-- A handler has asked for the addressee; without one nothing is pushed. -/
def route (s : State) (cpu : Nat) (w : Option Nat) (target : Int) (e : KyuzenEvent) : State :=
  if target < 0 then s
  else { s with
    irq := Function.update s.irq cpu
      (some ⟨target, ⟨e, s.madeBy w⟩, s.born target.toNat⟩) }

/-- `push_event_to` of the handler on `cpu`. -/
def pushEventTo (s : State) (cpu : Nat) : State :=
  match s.irq cpu with
  | none => s
  | some r =>
    let s' := { s with irq := Function.update s.irq cpu none }
    if r.target < 0 ∨ (maxTasks : Int) ≤ r.target then s'
    else s'.setQueue r.target.toNat (pushEvent (s.queue r.target.toNat) r.tagged)

def init (fbWidth fbHeight : Nat) (empty : Tagged) : State where
  sys := Kwm.sysBoot fbWidth fbHeight
  queue _ := ⟨fun _ => empty, 0, 0⟩
  irq _ := none
  life t := if t = 0 then .user else .dead
  born _ := 0
  maker _ := (0, 0)
  delivered := []

end State

/-! ## Steps -/

inductive Step where
  | syscall (t : Nat) (a : Kwm.Act)
  | exec (t : Nat)
  /-- `flush_event_queue` of syscalls 25 and 33. -/
  | flush (t : Nat)
  | getEvent (t : Nat)
  /-- The function of a kernel task returns. -/
  | returns (t : Nat)
  /-- `flush_event_queue` in `task_exit`. -/
  | exitFlush (t : Nat)
  | dies (t : Nat)
  | createUserTask
  | createTask
  | shortcut (mods : Nat) (released : Bool) (keyId : Nat)
  /-- The keyboard handler routes a key. -/
  | key (cpu : Nat) (type : Nat) (ascii mods keyId : Int)
  /-- The mouse handler calls `kwm_process_mouse`. -/
  | mouse (cpu : Nat) (px py : Int) (leftDown leftUp : Bool)
  /-- The mouse handler routes an event to the window under the cursor. -/
  | mouseEvent (cpu : Nat) (px py : Int) (m : MouseEvent)
  | push (cpu : Nat)

/-- A handler pushes what it has routed before it routes again. -/
def step (s : State) : Step → State
  | .syscall t a => s.syscall t a
  | .exec t => s.exec t
  | .flush t => if s.life t = .user then s.flushEventQueue t else s
  | .getEvent t => s.getEvent t
  | .returns t => if s.life t = .kernel then s.setLife t .leaving else s
  | .exitFlush t => if s.life t = .leaving then (s.flushEventQueue t).setLife t .flushed else s
  | .dies t => if s.life t = .flushed then s.setLife t .dead else s
  | .createUserTask => s.create .user
  | .createTask => s.create .kernel
  | .shortcut mods released keyId =>
    { s with sys.kwm := (Kwm.kwmHandleShortcut s.sys.kwm mods released keyId).2.1 }
  | .key cpu type ascii mods keyId =>
    if (s.irq cpu).isSome then s
    else
      let r := kwmRouteKeyboard s.sys.kwm
      s.route cpu (keyboardWindow s.sys.kwm) r.1 ⟨type, ascii, mods, keyId, r.2⟩
  | .mouse cpu px py leftDown leftUp =>
    if (s.irq cpu).isSome then s
    else
      let s' := { s with sys.kwm := (Kwm.kwmProcessMouse s.sys.kwm px py leftDown leftUp).2.1 }
      let w := closeWindow s.sys.kwm px py leftDown leftUp
      let r := ownerOf s.sys.kwm w
      s'.route cpu w r.1 ⟨eventWinClose, 0, 0, 0, r.2⟩
  | .mouseEvent cpu px py m =>
    if (s.irq cpu).isSome then s
    else
      let r := kwmRouteMouse s.sys.kwm px py
      let p := routeLocal s.sys.kwm px py
      s.route cpu (Kwm.kwmHitTestLocked s.sys.kwm px py) r.1 (m.event p.1 p.2 r.2)
  | .push cpu => s.pushEventTo cpu

end Kyuzen.Event
