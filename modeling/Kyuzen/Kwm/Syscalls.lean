import Kyuzen.Kwm.Focus

/-!
# The window syscalls

Syscalls 30 to 32, 34, 59, 60 and 62 of `kernel/syscall.c`, with `user_range_ok` of
`kernel/usercopy.c`. Each section under `kwm_lock` is one step. Syscall 31 takes the size of the
window, checks the range of the caller's buffer and copies in three steps, and syscall 32 asks for
the owner and destroys in two; what a task remembers in between is its phase. The steps of
different tasks, and those of the mouse and the keyboard, follow each other in any order.

Tasks are numbered by their slot in the task table, which is used again after an exit. So a task is
named by its slot and by the number of exits before, and the name of the task that has created a
window is kept beside the table.
-/

namespace Kyuzen.Kwm

def ucMaxRange : Nat := 64 * 1024 * 1024
def ucUserVaMax : Nat := 0x0000800000000000

/-- `ucopy_ctx_t`, with what `paging_is_mapped_into` answers for the caller's tables. -/
structure UcopyCtx where
  fromUser : Bool
  mapped : Nat → Bool

def userRangeOk (ctx : UcopyCtx) (uaddr len : Nat) : Bool :=
  if uaddr = 0 then false
  else if len = 0 then true
  else if len > ucMaxRange then false
  else if (uaddr + len) % 2 ^ 64 < uaddr then false
  else if ctx.fromUser = false then true
  else if uaddr ≥ ucUserVaMax ∨ len > ucUserVaMax - uaddr then false
  else
    let first := uaddr / 4096 * 4096
    let last := (uaddr + len - 1) / 4096 * 4096
    (List.range ((last - first) / 4096 + 1)).all fun i => ctx.mapped (first + 4096 * i)

/-- What a task remembers between two steps of a syscall. -/
inductive Phase where
  | idle
  /-- Syscall 31 knows the size of the canvas. -/
  | sized (winId : Int) (buf bytes : Nat)
  /-- Syscall 31 has checked the caller's buffer. -/
  | checked (ctx : UcopyCtx) (winId : Int) (buf bytes : Nat)
  /-- Syscall 32 has seen that the caller owns the window. -/
  | owner (winId : Int)

structure Sys where
  kwm : State
  phase : Nat → Phase
  exits : Nat → Nat
  creator : Nat → Nat × Nat

/-- The task that runs in slot `t` now. -/
def Sys.task (s : Sys) (t : Nat) : Nat × Nat := (t, s.exits t)

/-- The steps of a task. -/
inductive Act where
  | createWindow (block : Option (Nat → Nat)) (x y : Int) (width height : Nat)
  | createDesktop (block : Option (Nat → Nat))
  /-- The title is what `strncpy_from_user` has copied, if it has. -/
  | setTitle (winId : Int) (title : Option (List UInt8))
  | activate (winId : Int)
  | canvasBytes (winId : Int) (buf : Nat)
  | checkRange (ctx : UcopyCtx)
  /-- `mem` is the memory of the caller, in words. -/
  | update (mem : Nat → Nat)
  | askOwner (winId : Int)
  | destroy
  | exit

/-- A window has been opened by task `t`, or not. -/
def opened (s : Sys) (t : Nat) (slot : Option Nat) (kwm : State) : Sys :=
  { s with
    kwm := kwm
    creator := match slot with
      | none => s.creator
      | some i => Function.update s.creator i (s.task t) }

def Sys.enter (s : Sys) (t : Nat) (p : Phase) : Sys :=
  { s with phase := Function.update s.phase t p }

/-- The buffer at a user address, with `NULL` for 0. -/
def userBuffer (mem : Nat → Nat) (buf : Nat) : Option (Nat → Nat) :=
  if buf = 0 then none else some fun k => mem (buf + 4 * k)

/-- A step that does not fit the phase of the task is none of its next steps. -/
def act (s : Sys) (t : Nat) (a : Act) : Sys :=
  match s.phase t, a with
  | .idle, .createWindow block x y width height =>
    let (slot, kwm, _) := kwmCreateWindow t block s.kwm x y width height
    opened s t slot kwm
  | .idle, .createDesktop block =>
    let (slot, kwm, _) := kwmCreateDesktop t block s.kwm
    opened s t slot kwm
  | .idle, .setTitle winId title =>
    match title with
    | none => s
    | some text => { s with kwm := (kwmSetTitle t s.kwm winId (some text)).2.1 }
  | .idle, .activate winId => { s with kwm := (kwmActivateWindow s.kwm winId).2.1 }
  | .idle, .canvasBytes winId buf => s.enter t (.sized winId buf (kwmWindowCanvasBytes s.kwm winId))
  | .sized winId buf bytes, .checkRange ctx =>
    if bytes > 0 ∧ userRangeOk ctx buf bytes = true then s.enter t (.checked ctx winId buf bytes)
    else s.enter t .idle
  | .checked _ winId buf _, .update mem =>
    { s with kwm := (kwmUpdateWindow t s.kwm winId (userBuffer mem buf)).1 }.enter t .idle
  | .idle, .askOwner winId =>
    if kwmWindowOwner s.kwm winId = t then s.enter t (.owner winId) else s
  | .owner winId, .destroy => { s with kwm := (kwmDestroyWindow s.kwm winId).1 }.enter t .idle
  | .idle, .exit =>
    { s with
      kwm := (kwmDestroyWindowsOf s.kwm t).1
      exits := Function.update s.exits t (s.exits t + 1) }
  | _, _ => s

inductive Event where
  | task (t : Nat) (a : Act)
  | mouse (px py : Int) (leftDown leftUp : Bool)
  | shortcut (mods : Nat) (released : Bool) (keyId : Nat)

def sysStep (s : Sys) : Event → Sys
  | .task t a => act s t a
  | .mouse px py leftDown leftUp =>
    { s with kwm := (kwmProcessMouse s.kwm px py leftDown leftUp).2.1 }
  | .shortcut mods released keyId => { s with kwm := (kwmHandleShortcut s.kwm mods released keyId).2.1 }

/-- The task that makes the step. -/
def Event.actor (s : Sys) : Event → Option (Nat × Nat)
  | .task t _ => some (s.task t)
  | _ => none

def sysBoot (fbWidth fbHeight : Nat) : Sys where
  kwm := boot fbWidth fbHeight
  phase _ := .idle
  exits _ := 0
  creator _ := (0, 0)

def sysRun (fbWidth fbHeight : Nat) (es : List Event) : Sys :=
  es.foldl sysStep (sysBoot fbWidth fbHeight)

end Kyuzen.Kwm
