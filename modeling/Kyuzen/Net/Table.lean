import Kyuzen.Net.Socket

/-!
# The table of sockets

The slots of `net_socket.c`, the control blocks of lwIP that are attached to them and the tasks that
are in one of the blocking calls. A section under `net_lock` is one step: a section of a call, a
whole `ksock_socket` or `ksock_close`, or a callback. Of lwIP only this is modelled: a control block
is in use from `tcp_new` on; its callbacks get the argument that was set last, and are not called
after they were set to `NULL`; it is given up together with its error callback, unless it was closed
before (`reap`).

An incarnation is a slot with the number of sockets that were opened and closed in it. Bytes are
tagged with the incarnation for which their control block was made. The tags, `inc`, `look` and
`log` record what has happened; no step reads them.
-/

namespace Kyuzen.Net

structure Incarnation where
  slot : Nat
  count : Nat
  deriving DecidableEq

/-- A received byte and where it comes from. -/
abbrev Byte := UInt8 × Incarnation

structure Pcb where
  used : Bool
  arg : Option Nat
  /-- `cb_recv` is set. -/
  recv : Bool
  /-- `cb_err` is set. -/
  errf : Bool
  /-- `tcp_close` was called. -/
  closed : Bool
  made : Incarnation

/-- A call with the incarnation that it has looked at first. -/
structure Running where
  call : Call
  look : Option Incarnation

/-- A call after a section. -/
def Running.next (look : Incarnation) : Int ⊕ Call → Option Running
  | .inl _ => none
  | .inr call => some ⟨call, some look⟩

/-- What a section of a call has done. -/
structure Entry where
  call : Call
  look : Incarnation
  /-- The incarnation of the slot in this section. -/
  now : Incarnation
  read : List Byte
  written : List UInt8
  /-- The incarnation whose control block is written to. -/
  dest : Option Incarnation
  ends : Int ⊕ Call

structure State where
  socks : Nat → Ksock Byte
  pcbs : Nat → Pcb
  task : Nat → Option Running
  inc : Nat → Nat
  log : List Entry

namespace State

def now (s : State) (i : Nat) : Incarnation := ⟨i, s.inc i⟩

def setSock (s : State) (i : Nat) (k : Ksock Byte) : State :=
  { s with socks := Function.update s.socks i k }

def setPcb (s : State) (p : Nat) (x : Pcb) : State :=
  { s with pcbs := Function.update s.pcbs p x }

def setTask (s : State) (t : Nat) (r : Option Running) : State :=
  { s with task := Function.update s.task t r }

/-- After `ksock_init`. -/
def init : State where
  socks _ := ⟨.free, 0, none, fun _ => (0, ⟨0, 0⟩), 0, 0, false⟩
  pcbs _ := ⟨false, none, false, false, false, ⟨0, 0⟩⟩
  task _ := none
  inc _ := 0
  log := []

/-! ## Callbacks -/

/-- A callback of `p`, which does nothing if its argument is `NULL`. -/
def onArg (s : State) (p : Nat) (f : Ksock Byte → Ksock Byte) : State :=
  match (s.pcbs p).arg with
  | none => s
  | some i => s.setSock i (f (s.socks i))

/-- The payloads of a chain that arrives for `p`. -/
def tag (s : State) (p : Nat) (chain : List (List UInt8)) : List (List Byte) :=
  chain.map fun data => data.map fun b => (b, (s.pcbs p).made)

def recvCallback (s : State) (p : Nat) (chain : Option (List (List UInt8))) (err : Err) : State :=
  if (s.pcbs p).used ∧ (s.pcbs p).recv then
    s.onArg p fun k => (cbRecv k (chain.map (s.tag p)) err).2
  else s

def connectedCallback (s : State) (p : Nat) (err : Err) : State :=
  if (s.pcbs p).used then s.onArg p fun k => cbConnected k err else s

/-- lwIP gives up `p`: it calls the error callback, if there is one. -/
def abort (s : State) (p : Nat) : State :=
  if (s.pcbs p).used then
    (if (s.pcbs p).errf then s.onArg p cbErr else s).setPcb p { s.pcbs p with used := false }
  else s

/-- lwIP frees a closed control block, for example at the end of its time in TIME-WAIT. -/
def reap (s : State) (p : Nat) : State :=
  if (s.pcbs p).used ∧ (s.pcbs p).closed then s.setPcb p { s.pcbs p with used := false } else s

/-! ## Calls that do not block -/

/-- `tcp_new`; it may give up other connections. -/
def tcpNew (s : State) (kills : List Nat) (want : Option Nat) : Option Nat × State :=
  let s := kills.foldl abort s
  match want with
  | none => (none, s)
  | some p => if (s.pcbs p).used then (none, s) else (some p, s)

def ksockSocket (s : State) (kills : List Nat) (want : Option Nat) : Int × State :=
  match (List.range ksockMax).find? fun i => decide ((s.socks i).state = .free) with
  | none => (-1, s)
  | some fd =>
    match s.tcpNew kills want with
    | (none, s) => (-1, s)
    | (some p, s) =>
      (fd, { s with
        socks := Function.update s.socks fd { s.socks fd with
          state := .alloc
          pcb := some p
          rxHead := 0
          rxLen := 0
          peerClosed := false
          gen := toInt ((s.socks fd).gen + 1) }
        pcbs := Function.update s.pcbs p ⟨true, some fd, true, true, false, ⟨fd, s.inc fd + 1⟩⟩
        inc := Function.update s.inc fd (s.inc fd + 1) })

/-- `tcp_close`, and `tcp_abort` if that fails. `kept` tells whether lwIP still needs `p`. -/
def closePcb (s : State) (p : Nat) (ok kept : Bool) : State :=
  s.setPcb p { s.pcbs p with
    arg := none, recv := false, errf := false, closed := true, used := ok && kept }

def ksockClose (s : State) (fd : Int) (ok kept : Bool) : Int × State :=
  match get fd with
  | none => (-1, s)
  | some i =>
    if (s.socks i).state = .free then (-1, s)
    else
      let s := match (s.socks i).pcb with
        | none => s
        | some p => s.closePcb p ok kept
      (0, { s with
        socks := Function.update s.socks i { s.socks i with
          pcb := none
          state := .free
          gen := toInt ((s.socks i).gen + 1) }
        inc := Function.update s.inc i (s.inc i + 1) })

/-! ## Calls that block -/

/-- `ksock_connect` up to its loop; `err` is the result of `tcp_connect`. -/
def ksockConnect (s : State) (t : Nat) (fd : Int) (err : Err) : State :=
  match get fd with
  | none => s
  | some i =>
    if (s.socks i).state ≠ .alloc ∨ (s.socks i).pcb = none then s
    else
      let s' := s.setSock i { s.socks i with state := .connecting }
      if err ≠ .ok then s'
      else s'.setTask t (some ⟨.connect fd (s.socks i).gen, some (s.now i)⟩)

/-- `ksock_send` up to its loop. -/
def ksockSend (s : State) (t : Nat) (fd : Int) (buf : List UInt8) : State :=
  if buf = [] then s else s.setTask t (some ⟨.send fd (-1) buf 0, none⟩)

/-- `ksock_recv` up to its loop. -/
def ksockRecv (s : State) (t : Nat) (fd : Int) (len : Nat) : State :=
  if len = 0 then s else s.setTask t (some ⟨.recv fd (-1) len, none⟩)

/-- The next section of the call of `t`. -/
def turn (s : State) (t : Nat) (a : Answers) : State :=
  match s.task t with
  | none => s
  | some r =>
    match get r.call.fd with
    | none => s.setTask t none
    | some i =>
      let look := r.look.getD (s.now i)
      let sec := r.call.section (s.socks i) a
      { (s.setSock i sec.sock).setTask t (Running.next look sec.ends) with
        log := ⟨r.call, look, s.now i, sec.read, sec.written,
          (s.socks i).pcb.map fun p => (s.pcbs p).made, sec.ends⟩ :: s.log }

end State

/-! ## Steps -/

inductive Event where
  | socket (kills : List Nat) (want : Option Nat)
  | close (fd : Int) (ok kept : Bool)
  | connect (t : Nat) (fd : Int) (err : Err)
  | send (t : Nat) (fd : Int) (buf : List UInt8)
  | recv (t : Nat) (fd : Int) (len : Nat)
  | turn (t : Nat) (a : Answers)
  | cbRecv (p : Nat) (chain : Option (List (List UInt8))) (err : Err)
  | cbConnected (p : Nat) (err : Err)
  | cbErr (p : Nat)
  | reap (p : Nat)

/-- A task begins a call only if it is in none. -/
def step (s : State) : Event → State
  | .socket kills want => (s.ksockSocket kills want).2
  | .close fd ok kept => (s.ksockClose fd ok kept).2
  | .connect t fd err => if (s.task t).isSome then s else s.ksockConnect t fd err
  | .send t fd buf => if (s.task t).isSome then s else s.ksockSend t fd buf
  | .recv t fd len => if (s.task t).isSome then s else s.ksockRecv t fd len
  | .turn t a => s.turn t a
  | .cbRecv p chain err => s.recvCallback p chain err
  | .cbConnected p err => s.connectedCallback p err
  | .cbErr p => s.abort p
  | .reap p => s.reap p

def run (events : List Event) : State := events.foldl step State.init

/-- The calls that begin a new generation. -/
def Event.bumps : Event → Bool
  | .socket _ _ => true
  | .close _ _ _ => true
  | _ => false

/-- The control block whose callback is called. -/
def Event.callback : Event → Option Nat
  | .cbRecv p _ _ => some p
  | .cbConnected p _ => some p
  | .cbErr p => some p
  | _ => none

end Kyuzen.Net
