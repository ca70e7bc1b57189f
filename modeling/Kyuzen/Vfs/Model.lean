import Kyuzen.Kfs.Runs

/-!
# File descriptors

`kernel/vfs_fd.c` over KyuzenFS. A descriptor holds the whole file in a buffer of the kernel
heap: opening loads it, reads and writes work on the buffer, and closing a changed descriptor
deletes the file and creates it again. A descriptor keeps a copy of its path in a field of
`VFS_MAX_PATH` bytes, and it is this copy that is flushed to.

The table lock makes each call on a descriptor one step. Opening asks the file system three
times, each time under a lock of its own (`vfsLoad` takes the file system at each of the three
moments), before it takes the table lock. What `kmalloc` answers is up to the kernel heap
(`Heap`). A call that would not end in the file system is `none`.
-/

namespace Kyuzen.Vfs

open Lib.Memory
open Kfs (CStr)

/-- `VFS_MAX_FDS`. -/
def maxFds : Nat := 16

/-- `MAX_TASKS`. -/
def maxTasks : Nat := 16

/-- `VFS_MAX_PATH`. -/
def maxPath : Nat := 23

def oWronly : Nat := 0x1
def oRdwr : Nat := 0x2
def oCreat : Nat := 0x4
def oTrunc : Nat := 0x8
def oAppend : Nat := 0x10

/-- `(int)x`. -/
def toInt (x : Int) : Int := x.bmod (2 ^ 32)

/-- `flags & mask`. -/
def has (flags mask : Nat) : Bool := flags &&& mask != 0

/-- `vfs_file_t`; `opened` is the path that the descriptor was opened on, which the code does
not keep. -/
structure VfsFile where
  used : Bool
  owner : Int
  path : CStr
  buf : Mem
  size : Nat
  cap : Nat
  pos : Nat
  flags : Nat
  dirty : Bool
  opened : CStr

structure State where
  fds : Nat → VfsFile
  fs : Kfs.State

/-- What `kmalloc` gives for a size during a call: a block with its stale contents, or `NULL`. -/
abbrev Heap : Type := Nat → Option Mem

def setFd (s : State) (slot : Nat) (vf : VfsFile) : State :=
  { s with fds := Function.update s.fds slot vf }

/-- `path_copy`. -/
def pathCopy (src : CStr) : CStr := src.take (maxPath - 1)

def slotOf (task fd : Int) : Option Nat :=
  if task < 0 ∨ task ≥ maxTasks then none
  else if fd < 0 ∨ fd ≥ maxFds then none
  else some (task.toNat * maxFds + fd.toNat)

/-- The slot of a descriptor of the calling task. -/
def resolve (s : State) (task fd : Int) : Option Nat :=
  match slotOf task fd with
  | none => none
  | some slot => if (s.fds slot).used = true ∧ (s.fds slot).owner = task then some slot else none

/-! ## `vfs_open` -/

/-- What `vfs_open` has read before it takes a descriptor. -/
structure Loaded where
  existed : Bool
  buf : Mem
  size : Nat
  cap : Nat

/-- `exists ? kfs_get_file_size(path) : 0`. -/
def openSize (fs : Kfs.State) (path : CStr) (existed : Nat) : Option Nat :=
  if existed = 0 then some 0 else Kfs.kfsGetFileSize fs path

def openCap (fsize : Nat) : Nat := if fsize < 64 then 64 else fsize

/-- The part of `vfs_open` before the table lock: whether the file exists is asked at `fs₁`, its
size at `fs₂` and its bytes at `fs₃`. -/
def vfsLoad (heap : Heap) (fs₁ fs₂ fs₃ : Kfs.State) (path : CStr) (flags : Nat) :
    Option (Option Loaded) := do
  let existed ← Kfs.kfsExists fs₁ path
  if existed = 0 ∧ has flags oCreat = false then return none
  else
    let fsize ← openSize fs₂ path existed
    match heap (openCap fsize) with
    | none => return none
    | some buf =>
      if existed ≠ 0 ∧ has flags oTrunc = false ∧ fsize > 0 then
        let r ← Kfs.kfsReadToBuffer fs₃ path buf (openCap fsize)
        if r.1 = 0 then return none
        else return some ⟨true, r.2, fsize, openCap fsize⟩
      else return some ⟨existed != 0, buf, 0, openCap fsize⟩

/-- The first free descriptor of the task, among the first `n`. -/
def freeFd (s : State) (base n : Nat) : Option Nat :=
  (List.range n).find? fun i => !(s.fds (base + i)).used

/-- The descriptor that an open call sets up. -/
def newFile (task : Int) (path : CStr) (flags : Nat) (l : Loaded) : VfsFile :=
  { used := true
    owner := task
    path := pathCopy path
    buf := l.buf
    size := l.size
    cap := l.cap
    pos := if has flags oAppend then l.size else 0
    flags := flags
    dirty := !l.existed || has flags oTrunc
    opened := path }

/-- The part of `vfs_open` under the table lock. -/
def vfsInstall (s : State) (task : Int) (path : CStr) (flags : Nat) (l : Loaded) : Int × State :=
  match freeFd s (task.toNat * maxFds) maxFds with
  | none => (-1, s)
  | some fd => (fd, setFd s (task.toNat * maxFds + fd) (newFile task path flags l))

/-- `vfs_open` when no other call comes between its sections. -/
def vfsOpen (heap : Heap) (s : State) (task : Int) (path : CStr) (flags : Nat) :
    Option (Int × State) :=
  if path = [] then some (-1, s)
  else if task < 0 ∨ task ≥ maxTasks then some (-1, s)
  else do
    match ← vfsLoad heap s.fs s.fs s.fs path flags with
    | none => return (-1, s)
    | some l => return vfsInstall s task path flags l

/-! ## `sys_read_file_to_buffer` -/

/-- `UC_MAX_FILE`. -/
def ucMaxFile : Nat := 8 * 1024 * 1024

/-- System call 13: the size is asked at `fs₁`, the bytes (of an empty file, whether it exists)
at `fs₂`. The result is the return value and what was copied to the user; `rangeOk` and `copied`
are the answers of `user_range_ok` and `copy_to_user`. -/
def sysReadFileToBuffer (heap : Heap) (rangeOk copied : Bool) (fs₁ fs₂ : Kfs.State) (path : CStr)
    (cap : Nat) : Option (Nat × List UInt8) := do
  let fsize ← Kfs.kfsGetFileSize fs₁ path
  if fsize = 0 then
    let there ← Kfs.kfsExists fs₂ path
    return (if there = 0 then 0 else 1, [])
  else if fsize ≤ cap ∧ fsize ≤ ucMaxFile ∧ rangeOk = true then
    match heap fsize with
    | none => return (0, [])
    | some bounce =>
      let r ← Kfs.kfsReadToBuffer fs₂ path bounce fsize
      if r.1 ≠ 0 ∧ copied = true then return (1, (List.range fsize).map r.2)
      else return (0, [])
  else return (0, [])

/-! ## Reading and writing -/

/-- The caller's buffer is `NULL` or some memory, which the call returns. -/
def vfsRead (s : State) (task fd : Int) (buf : Option Mem) (count : Nat) :
    Int × Option Mem × State :=
  match buf, resolve s task fd with
  | none, _ => (-1, buf, s)
  | some _, none => (-1, buf, s)
  | some b, some slot =>
    let vf := s.fds slot
    if has vf.flags oWronly then (-1, buf, s)
    else
      let avail := if vf.pos < vf.size then vf.size - vf.pos else 0
      let n := if count < avail then count else avail
      (toInt n, some (fill b 0 n fun i => vf.buf (vf.pos + i)),
        setFd s slot { vf with pos := vf.pos + n })

/-- The doubling loop of `ensure_cap`; a capacity doubles at most 32 times before it leaves 32
bits. -/
def growCap (need : Nat) : Nat → Nat → Option Nat
  | 0, _ => none
  | fuel + 1, newcap =>
    if newcap < need then
      let next := newcap * 2 % 2 ^ 32
      if next ≤ newcap then none else growCap need fuel next
    else some newcap

def ensureCap (heap : Heap) (vf : VfsFile) (need : Nat) : Option VfsFile :=
  if need ≤ vf.cap then some vf
  else if need > 2 ^ 32 - 1 then none
  else
    match growCap need 33 (if vf.cap = 0 then 64 else vf.cap) with
    | none => none
    | some newcap =>
      -- `krealloc`: a new block with the old bytes
      match heap newcap with
      | none => none
      | some nb => some { vf with buf := fill nb 0 vf.cap vf.buf, cap := newcap }

/-- `if (vf->flags & VFS_O_APPEND) vf->pos = vf->size`. -/
def seekAppend (vf : VfsFile) : VfsFile :=
  if has vf.flags oAppend then { vf with pos := vf.size } else vf

def vfsWrite (heap : Heap) (s : State) (task fd : Int) (data : Option Mem) (count : Nat) :
    Int × State :=
  match data, resolve s task fd with
  | none, _ => (-1, s)
  | some _, none => (-1, s)
  | some b, some slot =>
    if has (s.fds slot).flags (oWronly ||| oRdwr) = false then (-1, s)
    else
      let vf := seekAppend (s.fds slot)
      match ensureCap heap vf (vf.pos + count) with
      | none => (-1, setFd s slot vf)
      | some vf =>
        let pos := (vf.pos + count) % 2 ^ 32
        (toInt count, setFd s slot { vf with
          buf := fill vf.buf vf.pos count fun i => b (i - vf.pos)
          pos := pos
          size := if pos > vf.size then pos else vf.size
          dirty := true })

def vfsLseek (s : State) (task fd offset whence : Int) : Int × State :=
  match resolve s task fd with
  | none => (-1, s)
  | some slot =>
    let vf := s.fds slot
    let base : Int := if whence = 1 then vf.pos else if whence = 2 then vf.size else 0
    let np := base + offset
    if np < 0 ∨ np > 2 ^ 32 - 1 then (-1, s)
    else (toInt np, setFd s slot { vf with pos := np.toNat })

/-! ## Closing -/

/-- `if (kfs_exists(path)) kfs_delete_file(path)`. -/
def deleteExisting (fs : Kfs.State) (path : CStr) : Option Kfs.State := do
  let there ← Kfs.kfsExists fs path
  if there = 0 then return fs
  else
    let out ← Kfs.kfsDeleteFile fs path
    return out.state

/-- `flush_locked`: what `kfs_create_file` answered (the code drops it) and the file system. -/
def flushLocked (drive : Kfs.Drive) (noise : Kfs.Noise) (fs : Kfs.State) (vf : VfsFile) :
    Option (Nat × Kfs.State) :=
  if vf.dirty then do
    let fs ← deleteExisting fs vf.path
    let out ← Kfs.kfsCreateFile drive noise.fat noise.stack fs vf.path vf.buf vf.size
    return (out.ret, out.state)
  else some (0, fs)

/-- A descriptor is flushed and its slot given back. -/
def closeSlot (drive : Kfs.Drive) (noise : Kfs.Noise) (s : State) (slot : Nat) :
    Option (Nat × State) := do
  let (stored, fs) ← flushLocked drive noise s.fs (s.fds slot)
  return (stored, { setFd s slot { s.fds slot with
    dirty := false
    buf := fun _ => 0
    used := false } with fs := fs })

def vfsClose (drive : Kfs.Drive) (noise : Kfs.Noise) (s : State) (task fd : Int) :
    Option (Int × State) :=
  match resolve s task fd with
  | none => some (-1, s)
  | some slot => (closeSlot drive noise s slot).map fun r => (0, r.2)

/-- The loop of `vfs_close_all` over the first `n` descriptors of a task. -/
def closeUpTo (drive : Kfs.Drive) (noise : Nat → Kfs.Noise) (s : State) (base : Nat) :
    Nat → Option State
  | 0 => some s
  | n + 1 => do
    let s ← closeUpTo drive noise s base n
    if (s.fds (base + n)).used then (closeSlot drive (noise n) s (base + n)).map Prod.snd
    else return s

def vfsCloseAll (drive : Kfs.Drive) (noise : Nat → Kfs.Noise) (s : State) (task : Int) :
    Option State :=
  if task < 0 ∨ task ≥ maxTasks then some s
  else closeUpTo drive noise s (task.toNat * maxFds) maxFds

/-! ## Runs -/

inductive Op where
  | openFile (task : Int) (path : CStr) (flags : Nat)
  | read (task fd : Int) (buf : Option Mem) (count : Nat)
  | write (task fd : Int) (data : Option Mem) (count : Nat)
  | lseek (task fd offset whence : Int)
  | close (task fd : Int)
  | closeAll (task : Int)
  /-- a call of the file system that does not go through a descriptor -/
  | kfs (op : Kfs.Op)

/-- What `sys_open` and the file system calls admit: C strings of at most 63 bytes. -/
def Op.Valid : Op → Prop
  | .openFile _ path _ => 0 ∉ path ∧ 1 ≤ path.length ∧ path.length ≤ 63
  | .kfs op => op.Valid ∧ op.path.length ≤ 63
  | _ => True

/-- What a call meets in the rest of the kernel: the heap, and uninitialised memory. -/
structure Env where
  heap : Heap
  noise : Nat → Kfs.Noise

def exec (drive : Kfs.Drive) (env : Env) (s : State) : Op → Option State
  | .openFile task path flags => (vfsOpen env.heap s task path flags).map Prod.snd
  | .read task fd buf count => some (vfsRead s task fd buf count).2.2
  | .write task fd data count => some (vfsWrite env.heap s task fd data count).2
  | .lseek task fd offset whence => some (vfsLseek s task fd offset whence).2
  | .close task fd => (vfsClose drive (env.noise 0) s task fd).map Prod.snd
  | .closeAll task => vfsCloseAll drive env.noise s task
  | .kfs op => (Kfs.exec drive (env.noise 0) s.fs op).map fun out => { s with fs := out.state }

/-- `vfs_init` on a formatted disk. -/
def boot (drive : Kfs.Drive) (stale : Nat → UInt32) (fs : Kfs.State) (fds : Nat → VfsFile) :
    State :=
  { fds := fun i => { fds i with used := false, buf := fun _ => 0 }
    fs := Kfs.kfsFormat drive stale fs }

/-- The states of the runs from boot whose steps all meet `P`. -/
inductive Reach (drive : Kfs.Drive) (P : Env → State → Op → Prop) : State → Prop
  | boot (stale : Nat → UInt32) (fs : Kfs.State) (fds : Nat → VfsFile) :
      Reach drive P (boot drive stale fs fds)
  | step {s s' : State} {op : Op} (env : Env) (h : Reach drive P s) (hv : op.Valid)
      (hp : P env s op) (hrun : exec drive env s op = some s') : Reach drive P s'

end Kyuzen.Vfs
