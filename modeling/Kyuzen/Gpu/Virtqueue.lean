import Mathlib.Logic.Function.Basic
import Mathlib.Data.List.Basic
import Mathlib.Tactic.Ring

/-!
# The virtqueue of the graphics device

`drivers/graphics/hw/virtqueue.c` and `virtio_gpu_dev_command` of
`drivers/graphics/hw/virtio_gpu_dev.c`. A command holds `cmd_lock` from its check to its answer, so
commands follow each other; the device works beside them.

What the device does is an input: between two commands, and before each poll of a wait, it returns
some chains. It follows the rules of a split virtqueue: it returns a chain that has been made
available, at most once, by writing the head of the chain to the next cell of the used ring. Which
chains it has not returned yet is kept beside the queue, with the number of the command that has
submitted each of them. Polls that see nothing new do nothing, so a wait is given by the polls
before which the device returns something, and ends in a timeout when there are no more.
-/

namespace Kyuzen.Gpu

def virtqDescFNext : Nat := 1
def virtqDescFWrite : Nat := 2
def virtqPollMaxIter : Nat := 10000000
def vgpuCmdMaxPages : Nat := 16

/-- A counter of 16 bits. -/
def u16 (v : Nat) : Nat := v % 2 ^ 16

structure Desc where
  addr : Nat
  len : Nat
  flags : Nat
  next : Nat

structure UsedElem where
  id : Nat
  len : Nat

/-- `virtq_t` with its rings. -/
structure Virtq where
  queueSize : Nat
  desc : Nat → Desc
  availRing : Nat → Nat
  availIdx : Nat
  usedRing : Nat → UsedElem
  usedIdx : Nat
  freeHead : Nat
  numFree : Nat
  lastUsedIdx : Nat
  lastCount : Nat

/-- A buffer of a chain, as the caller describes it. -/
structure Buf where
  addr : Nat
  len : Nat
  flags : Nat

/-- The queue that `virtq_init` leaves, over whatever is in the pages of its rings. -/
def virtqInit (queueSize : Nat) (availRing : Nat → Nat) (usedRing : Nat → UsedElem) : Virtq where
  queueSize := queueSize
  desc i := ⟨0, 0, 0, (i + 1) % queueSize⟩
  availRing := availRing
  availIdx := 0
  usedRing := usedRing
  usedIdx := 0
  freeHead := 0
  numFree := queueSize
  lastUsedIdx := 0
  lastCount := 0

/-! ## Submitting -/

/-- Descriptor `i` of a chain that starts at `head`. -/
def descIdx (queueSize head i : Nat) : Nat := (head + i) % queueSize

/-- The loop over the buffers of the chain: `i` of them are written. -/
def writeDescs (vq : Virtq) (head n : Nat) : List Buf → Nat → Virtq
  | [], _ => vq
  | buf :: bufs, i =>
    let idx := descIdx vq.queueSize head i
    let flags := if i + 1 < n then buf.flags ||| virtqDescFNext else buf.flags
    writeDescs { vq with
      desc := Function.update vq.desc idx ⟨buf.addr, buf.len, flags, (idx + 1) % vq.queueSize⟩ }
      head n bufs (i + 1)

/-- The answer is the head of the chain. -/
def virtqSubmit (vq : Virtq) (bufs : List Buf) : Option (Nat × Virtq) :=
  if bufs.length = 0 then none
  else if u16 bufs.length > vq.numFree then none
  else
    let head := vq.freeHead
    let vq := writeDescs vq head bufs.length bufs 0
    some (head, { vq with
      freeHead := (head + bufs.length) % vq.queueSize
      numFree := vq.numFree - u16 bufs.length
      lastCount := u16 bufs.length
      availRing := Function.update vq.availRing (vq.availIdx % vq.queueSize) head
      availIdx := u16 (vq.availIdx + 1) })

/-! ## The device -/

/-- A chain that the device has not returned. -/
structure Chain where
  cmd : Nat
  head : Nat
  count : Nat
  deriving DecidableEq

/-- The descriptors of the chain. -/
def Chain.descs (queueSize : Nat) (c : Chain) : List Nat :=
  (List.range c.count).map (descIdx queueSize c.head)

/-- The device, the queue and the buffers of the driver. -/
structure State where
  vq : Virtq
  cmdPages : Nat → Nat
  cmdPagesN : Nat
  respPage : Nat
  chains : List Chain
  nextCmd : Nat

/-- The device returns the chain of a command, with the number of bytes that it has written. -/
structure Return where
  cmd : Nat
  len : Nat

def deviceReturn (s : State) (e : Return) : State :=
  match s.chains.find? fun c => c.cmd = e.cmd with
  | none => s
  | some c =>
    { s with
      vq := { s.vq with
        usedRing := Function.update s.vq.usedRing (s.vq.usedIdx % s.vq.queueSize) ⟨c.head, e.len⟩
        usedIdx := u16 (s.vq.usedIdx + 1) }
      chains := s.chains.erase c }

def deviceReturns (s : State) (es : List Return) : State := es.foldl deviceReturn s

/-! ## Waiting -/

/-- How many cells of the used ring have not been read. -/
def unreadCount (vq : Virtq) : Nat := (vq.usedIdx + 2 ^ 16 - vq.lastUsedIdx) % 2 ^ 16

/-- The inner loop of `virtq_wait` over the unread cells, and whether it has found the chain. -/
def scanUsed (vq : Virtq) (head : Nat) : Nat → Virtq × Bool
  | 0 => (vq, false)
  | k + 1 =>
    let ue := vq.usedRing (vq.lastUsedIdx % vq.queueSize)
    let vq := { vq with lastUsedIdx := u16 (vq.lastUsedIdx + 1) }
    if ue.id = head then
      let numFree := u16 (vq.numFree + vq.lastCount)
      ({ vq with
        numFree := if numFree > vq.queueSize then vq.queueSize else numFree
        freeHead := 0 }, true)
    else scanUsed vq head k

/-- The result is 0, or -2 for a timeout. -/
def virtqWait (head : Nat) : State → List (List Return) → Int × State
  | s, [] => (-2, s)
  | s, es :: polls =>
    let s := deviceReturns s es
    let (vq, found) := scanUsed s.vq head (unreadCount s.vq)
    if found then (0, { s with vq := vq }) else virtqWait head { s with vq := vq } polls

/-! ## Commands -/

/-- The buffers of a command: the pages that hold it, and the page for the answer. -/
def commandBufs (s : State) (cmdLen outLen cmdPages : Nat) (out : Bool) : List Buf :=
  ((List.range cmdPages).map fun i =>
    ⟨s.cmdPages i, if i + 1 = cmdPages then cmdLen - i * 4096 else 4096, 0⟩) ++
  if out ∧ outLen ≠ 0 then [⟨s.respPage, if outLen > 4096 then 4096 else outLen, virtqDescFWrite⟩]
  else []

/-- The number of pages of a command, in 32-bit arithmetic. -/
def commandPages (cmdLen : Nat) : Nat := (cmdLen + 4095) % 2 ^ 32 / 4096

/-- The driver remembers the chain that it has submitted. -/
def submitted (s : State) (head count : Nat) (vq : Virtq) : State :=
  { s with
    vq := vq
    chains := s.chains ++ [⟨s.nextCmd, head, count⟩]
    nextCmd := s.nextCmd + 1 }

/-- The result is 0 or -1. -/
def virtioGpuDevCommand (s : State) (cmdLen : Nat) (out : Bool) (outLen : Nat)
    (polls : List (List Return)) : Int × State :=
  if cmdLen = 0 then (-1, s)
  else if commandPages cmdLen > s.cmdPagesN then (-1, s)
  else
    let bufs := commandBufs s cmdLen outLen (commandPages cmdLen) out
    match virtqSubmit s.vq bufs with
    | none => (-1, s)
    | some (head, vq) =>
      let (r, s) := virtqWait head (submitted s head bufs.length vq)
        (polls.take (virtqPollMaxIter + 1))
      if r = 0 then (0, s) else (-1, s)

/-! ## Runs -/

inductive Op where
  | device (es : List Return)
  | command (cmdLen : Nat) (out : Bool) (outLen : Nat) (polls : List (List Return))

def exec (s : State) : Op → State
  | .device es => deviceReturns s es
  | .command cmdLen out outLen polls => (virtioGpuDevCommand s cmdLen out outLen polls).2

/-- The driver after `virtio_gpu_dev_probe`. -/
def probed (queueSize : Nat) (availRing : Nat → Nat) (usedRing : Nat → UsedElem)
    (cmdPages : Nat → Nat) (cmdPagesN respPage : Nat) : State where
  vq := virtqInit queueSize availRing usedRing
  cmdPages := cmdPages
  cmdPagesN := cmdPagesN
  respPage := respPage
  chains := []
  nextCmd := 0

/-- The states that operations lead to that all meet `P`. The size of the queue is 16, or the
size that the device allows if that is smaller, and is a power of two. -/
inductive Reach (P : State → Op → Prop) : State → Prop
  | boot (k : Nat) (hk : k ≤ 4) (availRing : Nat → Nat) (usedRing : Nat → UsedElem)
      (cmdPages : Nat → Nat) (cmdPagesN respPage : Nat) (hn : cmdPagesN ≤ vgpuCmdMaxPages) :
      Reach P (probed (2 ^ k) availRing usedRing cmdPages cmdPagesN respPage)
  | step {s : State} (op : Op) (h : Reach P s) (hp : P s op) : Reach P (exec s op)

end Kyuzen.Gpu
