import Kyuzen.Elf.Model
import Kyuzen.Vfs.Model

/-!
# Applications and what they hold

The system calls that start and end an application (`kernel/syscall.c`: `sys_load_elf`,
`sys_exec`, `sys_exit` and `sys_spawn`) and those by which it acquires what has to be given back:
regions of its heap (`kernel/uheap.c`), windows (`kernel/gfx/kwm.c`), sockets
(`kernel/net_socket.c`) and descriptors. Each table is kept by its own subsystem under its own
lock, and a call here is one step.

A window has an owner and a descriptor a task; a socket has neither, so `app` says which
application has allocated it, and `openedBy` which has opened a descriptor. An application is
named by its `cookie`, the number that `as_cookie_next` gives to every address space.

What a call gets from elsewhere is a parameter: whether `strncpy_from_user` could copy the name,
the file it names and whether `kmalloc` had room, whether lwIP had a `tcp_pcb`. Colours,
positions, titles and focus of windows, the buffers of sockets and the event queues are left
out; so are the bytes that the loader writes.
-/

namespace Kyuzen.Proc

open Paging (allocPage freePage freeOwned vmmMapPageInto vmmUnmapPageFrom vmmCreateAddressSpace
  vmmDestroyAddressSpace)

/-- `uheap_region_t`. -/
structure Region where
  base : Nat
  size : Nat
  pages : Nat
  deriving DecidableEq

/-- `task_t`; a slot beyond `task_count` counts as dead. -/
structure Task where
  pml4Phys : Nat
  cookie : Nat
  /-- `kind == TASK_KIND_SPAWNED` -/
  spawned : Bool
  /-- `state != TASK_DEAD` -/
  alive : Bool
  uheapRegions : List Region
  uheapBrk : Nat

/-- `kwm_window_t`. -/
structure Window where
  active : Bool
  ownerTask : Int
  /-- `flags & KWM_WIN_DESKTOP` -/
  desktop : Bool
  deriving DecidableEq

inductive SockState where
  | free
  | alloc
  | connecting
  | connected
  | closed
  | err
  deriving DecidableEq

/-- `ksock_t`, and the application that has allocated it. -/
structure Sock where
  state : SockState
  gen : Int
  app : Nat

structure State where
  vm : Paging.State
  /-- CR3 of the processor that executes the call. -/
  cr3 : Nat
  tasks : Nat → Task
  asCookieCounter : Nat
  windows : Nat → Window
  socks : Nat → Sock
  vfs : Vfs.State
  openedBy : Nat → Nat

def maxTasks : Nat := 16
def maxWindows : Nat := 16

/-- `KSOCK_MAX`. -/
def ksockMax : Nat := 8

def uheapBase : Nat := 0x10000000
def uheapEnd : Nat := 0x40000000
def uheapMaxAlloc : Nat := 64 * 1024 * 1024

def setTask (s : State) (t : Nat) (task : Task) : State :=
  { s with tasks := Function.update s.tasks t task }

/-! ## The heap of an application -/

def uheapUnmapRange (pml4 base : Nat) : Nat → Paging.State → Paging.State
  | 0, vm => vm
  | pages + 1, vm =>
    let (pa, vm) := vmmUnmapPageFrom (uheapUnmapRange pml4 base pages vm) (base + pages * 4096) pml4
    if pa = Pmm.physNull then vm else freeOwned vm pa

/-- The loop of `uheap_alloc`, with `i` pages mapped and `count` to come: how many are mapped in
the end. -/
def uheapMapPages (pml4 base : Nat) : Nat → Nat → Paging.State → Nat × Paging.State
  | 0, i, vm => (i, vm)
  | count + 1, i, vm =>
    let (pa, vm) := allocPage vm
    if pa = Pmm.physNull then (i, vm)
    else
      match vmmMapPageInto vm (base + i * 4096) pa 7 pml4 with
      | (true, vm) => uheapMapPages pml4 base count (i + 1) vm
      | (false, vm) => (i, freePage vm pa)

/-- `node` says whether `kmalloc` had room for the region's node. -/
def uheapAlloc (node : Bool) (vm : Paging.State) (t : Task) (size : Nat) :
    Nat × Task × Paging.State :=
  if t.pml4Phys = Pmm.physNull then (0, t, vm)
  else if size = 0 ∨ size > uheapMaxAlloc then (0, t, vm)
  else
    let brk := if t.uheapBrk = 0 then uheapBase else t.uheapBrk
    let pages := (size + 4095) / 4096
    if brk + pages * 4096 + 4096 > uheapEnd then (0, t, vm)
    else if node = false then (0, t, vm)
    else
      let (mapped, vm) := uheapMapPages t.pml4Phys brk pages 0 vm
      if mapped < pages then (0, t, uheapUnmapRange t.pml4Phys brk mapped vm)
      else
        (brk, { t with
          uheapRegions := ⟨brk, size, pages⟩ :: t.uheapRegions
          uheapBrk := brk + pages * 4096 + 4096 }, vm)

def uheapFree (vm : Paging.State) (t : Task) (uaddr : Nat) : Nat × Task × Paging.State :=
  if uaddr = 0 then (0, t, vm)
  else
    match t.uheapRegions.find? (·.base = uaddr) with
    | none => (0, t, vm)
    | some n =>
      (1, { t with uheapRegions := t.uheapRegions.eraseP (·.base = uaddr) },
        uheapUnmapRange t.pml4Phys n.base n.pages vm)

/-- `n->size = new_size` for the first region at `uaddr`. -/
def resizeRegion (uaddr newSize : Nat) : List Region → List Region
  | [] => []
  | n :: rest => if n.base = uaddr then { n with size := newSize } :: rest
    else n :: resizeRegion uaddr newSize rest

def uheapRealloc (node : Bool) (vm : Paging.State) (t : Task) (uaddr newSize : Nat) :
    Nat × Task × Paging.State :=
  if uaddr = 0 then uheapAlloc node vm t newSize
  else if newSize = 0 then (0, (uheapFree vm t uaddr).2)
  else if newSize > uheapMaxAlloc then (0, t, vm)
  else
    match t.uheapRegions.find? (·.base = uaddr) with
    | none => (0, t, vm)
    | some n =>
      if newSize ≤ n.pages * 4096 then
        (n.base, { t with uheapRegions := resizeRegion uaddr newSize t.uheapRegions }, vm)
      else
        let (newBase, t, vm) := uheapAlloc node vm t newSize
        if newBase = 0 then (0, t, vm)
        else (newBase, (uheapFree vm t uaddr).2)

def uheapReset (t : Task) : Task := { t with uheapRegions := [], uheapBrk := uheapBase }

/-! ## Windows -/

/-- `kwm_free_slot`. -/
def kwmFreeSlot : Window := ⟨false, -1, false⟩

def setWindow (s : State) (i : Nat) (w : Window) : State :=
  { s with windows := Function.update s.windows i w }

/-- The first slot without a window. -/
def freeWindow (s : State) : Option Nat :=
  (List.range maxWindows).find? fun i => !(s.windows i).active

/-- `canvas` says whether there was memory for the canvas. -/
def kwmCreateWindow (canvas : Bool) (s : State) (t width height : Nat) : Int × State :=
  if width = 0 ∨ height = 0 ∨ width > 4096 ∨ height > 4096 then (-1, s)
  else if width * height * 4 > 16 * 1024 * 1024 then (-1, s)
  else
    match freeWindow s with
    | none => (-1, s)
    | some i => if canvas = false then (-1, s) else (i, setWindow s i ⟨true, t, false⟩)

/-- `screen` says whether there is a frame buffer. -/
def kwmCreateDesktop (screen canvas : Bool) (s : State) (t : Nat) : Int × State :=
  if (List.range maxWindows).any fun i => (s.windows i).active && (s.windows i).desktop then (-1, s)
  else if screen = false then (-1, s)
  else
    match freeWindow s with
    | none => (-1, s)
    | some i => if canvas = false then (-1, s) else (i, setWindow s i ⟨true, t, true⟩)

def kwmWindowOwner (s : State) (wid : Int) : Int :=
  if wid < 0 ∨ wid ≥ maxWindows then -1
  else if (s.windows wid.toNat).active then (s.windows wid.toNat).ownerTask else -1

/-- System call 32: an application destroys a window of its own. -/
def sysKwmDestroyWindow (s : State) (t : Nat) (wid : Int) : State :=
  if kwmWindowOwner s wid = t then
    if wid < 0 ∨ wid ≥ maxWindows then s
    else if (s.windows wid.toNat).active then setWindow s wid.toNat kwmFreeSlot else s
  else s

def kwmDestroyWindowsOf (s : State) (t : Nat) : State :=
  { s with windows := fun i =>
      if i < maxWindows ∧ (s.windows i).active = true ∧ (s.windows i).ownerTask = t then kwmFreeSlot
      else s.windows i }

/-! ## Sockets -/

def setSock (s : State) (i : Nat) (sock : Sock) : State :=
  { s with socks := Function.update s.socks i sock }

/-- `pcb` says whether `tcp_new` had a `tcp_pcb`. -/
def ksockSocket (pcb : Bool) (s : State) (t : Nat) : Int × State :=
  match (List.range ksockMax).find? fun i => (s.socks i).state = .free with
  | none => (-1, s)
  | some fd =>
    if pcb = false then (-1, s)
    else (fd, setSock s fd ⟨.alloc, (s.socks fd).gen + 1, (s.tasks t).cookie⟩)

/-- The slot of a descriptor. There is no check of who has allocated it. -/
def ksockGet (fd : Int) : Option Nat := if fd < 0 ∨ fd ≥ ksockMax then none else some fd.toNat

/-- `ksock_connect` up to the point where it waits. -/
def ksockConnect (s : State) (fd : Int) : State :=
  match ksockGet fd with
  | none => s
  | some i =>
    if (s.socks i).state = .alloc then setSock s i { s.socks i with state := .connecting } else s

/-- `cb_connected` and `cb_err`: lwIP reports on a socket that is not closed. -/
def ksockEvent (s : State) (i : Nat) (ok : Bool) : State :=
  if (s.socks i).state = .free then s
  else setSock s i { s.socks i with state := if ok then .connected else .err }

def ksockClose (s : State) (fd : Int) : Int × State :=
  match ksockGet fd with
  | none => (-1, s)
  | some i =>
    if (s.socks i).state = .free then (-1, s)
    else (0, setSock s i { s.socks i with state := .free, gen := (s.socks i).gen + 1 })

/-! ## Starting an application -/

def vmmSwitchToKernelAs (s : State) : State :=
  if s.vm.kernelPml4Phys = Pmm.physNull then s else { s with cr3 := s.vm.kernelPml4Phys }

def vmmDestroyTaskAs (s : State) (pml4 : Nat) : State :=
  if pml4 = Pmm.physNull then s
  else
    let s := vmmSwitchToKernelAs s
    { s with vm := vmmDestroyAddressSpace s.vm pml4 true }

/-- `as_cookie_next`. -/
def asCookieNext (s : State) : Nat × State :=
  ((s.asCookieCounter + 1) % 2 ^ 32,
    { s with asCookieCounter := (s.asCookieCounter + 1) % 2 ^ 32 })

/-- The new address space becomes that of the task, and CR3 is switched to it. -/
def enterSpace (s : State) (t pml4 : Nat) : State :=
  let (cookie, s) := asCookieNext s
  let s := setTask s t { s.tasks t with pml4Phys := pml4, cookie := cookie }
  { s with cr3 := pml4 }

/-- What a call that loads a program reads: whether its name could be copied in, the file, and
whether there was memory for the file's buffer. -/
structure Program where
  copied : Bool
  file : Elf.File
  heap : Bool

/-- The program is loaded into an address space; no result while the loader has not ended. -/
def loadProgram (fuel : Nat) (p : Program) (s : State) (pml4 : Nat) : Option (Elf.Result × State) :=
  let r := Elf.elfLoadFile fuel p.file p.heap true pml4 s.vm
  if r.entry = none then none else some (r, { s with vm := r.load.vm })

/-- System call 25: the result is the entry point. -/
def sysLoadElf (fuel : Nat) (p : Program) (s : State) (t : Nat) : Option (Nat × State) :=
  if p.copied = false then some (0, s)
  else do
    let (pml4, vm) := vmmCreateAddressSpace s.vm
    let s := { s with vm := vm }
    let s := if pml4 = Pmm.physNull then s
      else
        let s := vmmDestroyTaskAs s (s.tasks t).pml4Phys
        enterSpace (setTask s t (uheapReset (s.tasks t))) t pml4
    let (r, s) ← loadProgram fuel p s pml4
    return (r.entry.getD 0, s)

/-- The address space of the task is destroyed, if it has one. -/
def dropSpace (s : State) (t : Nat) : State :=
  if (s.tasks t).pml4Phys = Pmm.physNull then s
  else
    let s := vmmDestroyTaskAs s (s.tasks t).pml4Phys
    setTask s t { s.tasks t with pml4Phys := Pmm.physNull }

/-- System call 33. -/
def sysExec (fuel : Nat) (p : Program) (s : State) (t : Nat) : Option (Nat × State) :=
  if p.copied = false then some (0, s)
  else do
    let s := kwmDestroyWindowsOf s t
    let s := dropSpace s t
    let s := setTask s t (uheapReset (s.tasks t))
    let (pml4, vm) := vmmCreateAddressSpace s.vm
    let s := { s with vm := vm }
    let s := if pml4 = Pmm.physNull then s else enterSpace s t pml4
    let (r, s) ← loadProgram fuel p s pml4
    return (if r.entry = some 0 then 0 else 1, s)

/-- `create_user_task`; `stack` says whether there was memory for a kernel stack, `queued` whether
the run queue took the task. -/
def createUserTask (stack queued : Bool) (s : State) (pml4 cookie : Nat) : Option Nat × State :=
  if stack = false then (none, s)
  else
    match (List.range maxTasks).find? fun i => 0 < i && !(s.tasks i).alive with
    | none => (none, s)
    | some slot =>
      let task : Task := { uheapReset (s.tasks slot) with
        pml4Phys := pml4
        cookie := cookie
        spawned := true
        alive := true }
      if queued then (some slot, setTask s slot task)
      else (none, setTask s slot { task with alive := false })

/-- System call 57. The caller borrows the new address space while the program is loaded, and has
its own one back afterwards. -/
def sysSpawn (fuel : Nat) (p : Program) (stack queued : Bool) (s : State) :
    Option (Option Nat × State) :=
  if p.copied = false then some (none, s)
  else
    match vmmCreateAddressSpace s.vm with
    | (child, vm) =>
      let s := { s with vm := vm }
      if child = Pmm.physNull then some (none, s)
      else do
        let (r, s) ← loadProgram fuel p s child
        if r.entry ≠ some 0 ∧ r.stackTop ≠ 0 then
          let (cookie, s) := asCookieNext s
          match createUserTask stack queued s child cookie with
          | (some tid, s) => return (some tid, s)
          | (none, s) => return (none, vmmDestroyTaskAs s child)
        else return (none, vmmDestroyTaskAs s child)

/-! ## Ending an application -/

/-- `task_exit` of a task that is not the boot task. -/
def taskExit (drive : Kfs.Drive) (noise : Nat → Kfs.Noise) (s : State) (t : Nat) : Option State := do
  let vfs ← Vfs.vfsCloseAll drive noise s.vfs t
  let s := { s with vfs := vfs }
  let dead := (s.tasks t).pml4Phys
  let s := if dead = Pmm.physNull then s else vmmSwitchToKernelAs s
  let s := setTask s t { uheapReset (s.tasks t) with pml4Phys := Pmm.physNull, alive := false }
  return if dead = Pmm.physNull then s
    else { s with vm := vmmDestroyAddressSpace s.vm dead true }

/-- System call 34, up to the jump into the shell or the idle loop. -/
def sysExit (drive : Kfs.Drive) (noise : Nat → Kfs.Noise) (s : State) (t : Nat) : Option State :=
  let s := kwmDestroyWindowsOf s t
  if (s.tasks t).spawned then taskExit drive noise s t
  else some (dropSpace (setTask s t (uheapReset (s.tasks t))) t)

/-! ## Runs -/

/-- What the calls of an application and of the rest of the kernel do. -/
inductive Op where
  | vfs (op : Vfs.Op) (t : Nat)
  | alloc (t size : Nat) (node : Bool)
  | free (t uaddr : Nat)
  | realloc (t uaddr size : Nat) (node : Bool)
  | createWindow (t width height : Nat) (canvas : Bool)
  | createDesktop (t : Nat) (screen canvas : Bool)
  | destroyWindow (t : Nat) (wid : Int)
  | socket (t : Nat) (pcb : Bool)
  | connect (fd : Int)
  | sockEvent (i : Nat) (ok : Bool)
  | sockClose (fd : Int)
  | loadElf (t : Nat) (p : Program)
  | exec (t : Nat) (p : Program)
  | spawn (p : Program) (stack queued : Bool)
  | exit (t : Nat)
  /-- the kernel heap grows by a page -/
  | growHeap (va : Nat)
  /-- another task runs on the processor -/
  | switch (t : Nat)

structure Env where
  fuel : Nat
  files : Vfs.Env

/-- The task and the memory after a call of the user heap. -/
def setHeap (s : State) (t : Nat) (r : Nat × Task × Paging.State) : State :=
  { setTask s t r.2.1 with vm := r.2.2 }

/-- The descriptors after a call; those that are new belong to the application of task `t`. -/
def setVfs (s : State) (t : Nat) (vfs : Vfs.State) : State :=
  { s with
    vfs := vfs
    openedBy := fun i =>
      if (vfs.fds i).used && !(s.vfs.fds i).used then (s.tasks t).cookie else s.openedBy i }

/-- The PML4 that a task runs on. -/
def spaceOf (s : State) (t : Nat) : Nat :=
  if (s.tasks t).pml4Phys = Pmm.physNull then s.vm.kernelPml4Phys else (s.tasks t).pml4Phys

def exec (drive : Kfs.Drive) (env : Env) (s : State) : Op → Option State
  | .vfs op t => (Vfs.exec drive env.files s.vfs op).map (setVfs s t)
  | .alloc t size node => some (setHeap s t (uheapAlloc node s.vm (s.tasks t) size))
  | .free t uaddr => some (setHeap s t (uheapFree s.vm (s.tasks t) uaddr))
  | .realloc t uaddr size node =>
    some (setHeap s t (uheapRealloc node s.vm (s.tasks t) uaddr size))
  | .createWindow t width height canvas => some (kwmCreateWindow canvas s t width height).2
  | .createDesktop t screen canvas => some (kwmCreateDesktop screen canvas s t).2
  | .destroyWindow t wid => some (sysKwmDestroyWindow s t wid)
  | .socket t pcb => some (ksockSocket pcb s t).2
  | .connect fd => some (ksockConnect s fd)
  | .sockEvent i ok => some (ksockEvent s i ok)
  | .sockClose fd => some (ksockClose s fd).2
  | .loadElf t p => (sysLoadElf env.fuel p s t).map Prod.snd
  | .exec t p => (sysExec env.fuel p s t).map Prod.snd
  | .spawn p stack queued => (sysSpawn env.fuel p stack queued s).map Prod.snd
  | .exit t => sysExit drive env.files.noise s t
  | .growHeap va => some { s with vm := (Paging.vmmAllocPageKernel s.vm va 3).2 }
  | .switch t => some { s with cr3 := spaceOf s t }

/-- The calls come from tasks that exist, on paths that the system calls admit. -/
def Op.Valid (s : State) : Op → Prop
  | .vfs op t => op.Valid ∧ (∀ task path flags, op = .openFile task path flags → task = t) ∧
    (s.tasks t).alive = true ∧ t < maxTasks
  | .alloc t _ _ | .free t _ | .realloc t _ _ _ | .createWindow t _ _ _ | .createDesktop t _ _
  | .destroyWindow t _ | .socket t _ | .loadElf t _ | .exec t _ | .exit t | .switch t =>
    (s.tasks t).alive = true ∧ t < maxTasks
  | _ => True

end Kyuzen.Proc
