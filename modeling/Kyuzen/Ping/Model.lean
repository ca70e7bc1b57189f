import Kyuzen.Lib.Run
import Kyuzen.Sched.Queues

/-!
# Ping

`kernel_ping` of `kernel/net_ping.c`, called by several tasks, on the machine of `Sched.Queues`. The
function holds the spinlock `ping_busy` from its beginning to its end, but enables interrupts after
it has got the lock, so that it can be preempted. Each read and write of the globals `dns_done` and
`dns_result`, each section under `net_lock` and each turn of a waiting loop is one step of the task
on the CPU that executes it. A CPU that spins on `ping_busy` has its interrupts disabled and does
not schedule.

What lwIP and the timer answer is part of a step. The callbacks run in the timer interrupt of CPU 0,
which also counts the milliseconds, under `net_lock`. A request stays outstanding until lwIP calls
`dns_found_cb` for it, however late; `dns_found_cb` ignores its argument `name`.

`reported` keeps the addresses that lwIP has reported for a host, and `sent` those that were passed
to `net_ping_once` in a call for the host. No step reads them.
-/

namespace Kyuzen.Ping

open Sched (Machine Op)

/-- The bytes of a host name, without the final 0. -/
abbrev Host := List UInt8

/-- Where a task is in `kernel_ping`. -/
inductive Pc where
  | outside
  /-- In `spinlock_lock_irqsave(&ping_busy)`. -/
  | spin
  /-- Before it is checked whether there is an IP address. -/
  | checkIp
  /-- Before `dns_done = 0`. -/
  | clearDone
  /-- Before `dns_result = 0`. -/
  | clearResult
  /-- Before the section with `dns_gethostbyname`. -/
  | query
  /-- Waiting for `dns_done`. -/
  | waitDns
  /-- Before the test of `!dns_done`. -/
  | checkDone
  /-- Before the test of `dns_result == 0`. -/
  | checkResult
  /-- Before `dest_ip.addr = dns_result`. -/
  | take
  /-- Before the first section of `net_ping_once`, with the number of this ping, the sum of the
  round trip times and the number of answers. -/
  | send (dest i total success : Nat)
  /-- Waiting for `ping_done`. -/
  | wait (dest i total success : Nat)
  /-- Before the last section of `net_ping_once`; the request was sent, or not. -/
  | close (dest i total success : Nat) (ok : Bool)
  /-- Waiting for a second. -/
  | pause (dest i total success : Nat)
  /-- Before the lock is given back. -/
  | unlock (ret : Int)
  deriving DecidableEq

inductive DnsAnswer where
  | ok (addr : Nat)
  | inProgress
  | failed

/-- What lwIP and the timer answer in a step. -/
structure Answers where
  hasIp : Bool
  dns : DnsAnswer
  /-- The deadline of the loop is over. -/
  late : Bool
  /-- `raw_new` has succeeded. -/
  opened : Bool
  /-- `ping_send` has succeeded. -/
  sendOk : Bool

/-- The next step is a section under `net_lock`. -/
def Pc.inNet : Pc → Bool
  | .checkIp | .query | .send _ _ _ _ | .close _ _ _ _ _ => true
  | _ => false

structure State where
  machine : Machine
  pc : Nat → Pc
  /-- The argument of the call that a task is in. -/
  host : Nat → Host
  /-- The task that holds `ping_busy`. -/
  busy : Option Nat
  dnsDone : Bool
  dnsResult : Nat
  /-- `dns_found_cb` has written `dns_result`, and not yet `dns_done`. -/
  finding : Bool
  pingPcb : Bool
  pingDone : Bool
  pingRtt : Nat
  /-- The hosts of the requests whose callback is still to come. -/
  asked : List Host
  reported : List (Host × Nat)
  sent : List (Host × Nat)

namespace State

def setPc (s : State) (t : Nat) (pc : Pc) : State := { s with pc := Function.update s.pc t pc }

/-- `t` gets the lock and enables interrupts. -/
def acquire (s : State) (t : Nat) : State := { s.setPc t .checkIp with busy := some t }

/-- The first steps of `kernel_ping`: interrupts are disabled, and the lock is tried once. -/
def enter (s : State) (t : Nat) (host : Host) : State :=
  let s' := { s with host := Function.update s.host t host }
  if host = [] then s
  else if s.busy = none then s'.acquire t
  else s'.setPc t .spin

/-- After one ping, with its result: a pause, or the statistics. -/
def afterPing (dest i total success : Nat) (rtt : Option Nat) : Pc :=
  let total := total + rtt.getD 0
  let success := if rtt.isSome then success + 1 else success
  if i < 3 then .pause dest i total success
  else .unlock (if 0 < success then (total / success : Nat) else -1)

/-- The next step of `t` in `kernel_ping`. -/
def next (s : State) (t : Nat) (a : Answers) : State :=
  match s.pc t with
  | .outside => s
  | .spin => if s.busy = none then s.acquire t else s
  | .checkIp => if a.hasIp then s.setPc t .clearDone else s.setPc t (.unlock (-1))
  | .clearDone => { s.setPc t .clearResult with dnsDone := false }
  | .clearResult => { s.setPc t .query with dnsResult := 0 }
  | .query =>
    match a.dns with
    | .ok addr =>
      { s.setPc t .checkDone with
        dnsResult := addr
        dnsDone := true
        reported := (s.host t, addr) :: s.reported }
    | .inProgress => { s.setPc t .waitDns with asked := s.host t :: s.asked }
    | .failed => s.setPc t .checkDone
  | .waitDns => if s.dnsDone || a.late then s.setPc t .checkDone else s
  | .checkDone => if s.dnsDone then s.setPc t .checkResult else s.setPc t (.unlock (-1))
  | .checkResult => if s.dnsResult = 0 then s.setPc t (.unlock (-1)) else s.setPc t .take
  | .take => s.setPc t (.send s.dnsResult 0 0 0)
  | .send dest i total success =>
    let s' := { s with sent := (s.host t, dest) :: s.sent }
    if a.opened then
      let s' := { s' with pingPcb := true, pingDone := false, pingRtt := 0 }
      if a.sendOk then s'.setPc t (.wait dest i total success)
      else s'.setPc t (.close dest i total success false)
    else s'.setPc t (afterPing dest i total success none)
  | .wait dest i total success =>
    if s.pingDone || a.late then s.setPc t (.close dest i total success true) else s
  | .close dest i total success ok =>
    { s.setPc t (afterPing dest i total success (if ok && s.pingDone then some s.pingRtt else none))
      with pingPcb := false }
  | .pause dest i total success =>
    if a.late then s.setPc t (.send dest (i + 1) total success) else s
  | .unlock _ => { s.setPc t .outside with busy := none }

/-- The next step of `t` needs `net_lock`, which a callback holds. -/
def netLocked (s : State) (t : Nat) : Bool := s.finding && (s.pc t).inNet

/-- The first write of `dns_found_cb`, called for a request. -/
def dnsFoundCb (s : State) (host : Host) (addr : Option Nat) : State :=
  if host ∈ s.asked ∧ s.finding = false then
    { s with
      dnsResult := addr.getD 0
      finding := true
      asked := s.asked.erase host
      reported := addr.toList.map (fun a => (host, a)) ++ s.reported }
  else s

/-- The second write of `dns_found_cb`. -/
def dnsDoneCb (s : State) : State :=
  if s.finding then { s with dnsDone := true, finding := false } else s

/-- `ping_recv_cb` gets the answer to the last request. -/
def pingRecvCb (s : State) (rtt : Nat) : State :=
  if s.pingPcb ∧ s.finding = false then { s with pingRtt := rtt, pingDone := true } else s

/-- The task on the CPU spins on `ping_busy`. -/
def spinsOn (s : State) (cpu : Nat) : Bool :=
  (s.machine.sched.current cpu).any fun t => s.pc t = .spin

/-- The task on the CPU is not in `kernel_ping`. -/
def outsideOn (s : State) (cpu : Nat) : Bool :=
  (s.machine.sched.current cpu).all fun t => s.pc t = .outside

/-- What a CPU that spins, or whose task is in `kernel_ping`, does not do. -/
def allows (s : State) : Op → Bool
  | .schedule cpu _ _ => !s.spinsOn cpu
  | .block cpu _ | .exitEnter cpu => s.outsideOn cpu
  | _ => true

def start (online : Nat) : State where
  machine := Sched.start online
  pc _ := .outside
  host _ := []
  busy := none
  dnsDone := false
  dnsResult := 0
  finding := false
  pingPcb := false
  pingDone := false
  pingRtt := 0
  asked := []
  reported := []
  sent := []

end State

inductive Event where
  | sched (op : Op)
  /-- The task on the CPU calls `kernel_ping`. -/
  | enter (cpu : Nat) (host : Host)
  | next (cpu : Nat) (a : Answers)
  | dnsFound (host : Host) (addr : Option Nat)
  | dnsDone
  | echo (rtt : Nat)

/-- A step that the code can not take changes nothing. -/
def step (s : State) : Event → State
  | .sched op =>
    if op.Enabled s.machine ∧ s.allows op = true then
      { s with machine := Sched.exec s.machine op }
    else s
  | .enter cpu host =>
    if cpu < s.machine.sched.online then
      match Sched.curRunning s.machine.sched cpu with
      | none => s
      | some t => if s.pc t = .outside ∧ s.machine.exitCpu t = none then s.enter t host else s
    else s
  | .next cpu a =>
    if cpu < s.machine.sched.online then
      match Sched.curRunning s.machine.sched cpu with
      | none => s
      | some t => if s.netLocked t then s else s.next t a
    else s
  -- CPU 0 calls the callbacks in its timer interrupt.
  | .dnsFound host addr => if s.spinsOn 0 then s else s.dnsFoundCb host addr
  | .dnsDone => s.dnsDoneCb
  | .echo rtt => if s.spinsOn 0 then s else s.pingRecvCb rtt

/-! ## What is claimed -/

/-- Every address that is passed to `net_ping_once` was reported for the host of the call. -/
def RightHost (s : State) : Prop := ∀ e ∈ s.sent, e ∈ s.reported

/-- The task waits for the timer interrupt of CPU 0. -/
def Pc.waits : Pc → Bool
  | .waitDns | .wait _ _ _ _ | .pause _ _ _ _ => true
  | _ => false

/-- A CPU spins with its interrupts disabled, while the holder of the lock waits for this CPU or for
its timer interrupt. -/
def Lockup (s : State) : Prop :=
  ∃ cpu h, cpu < s.machine.sched.online ∧ s.spinsOn cpu = true ∧ s.busy = some h ∧
    (h ∈ s.machine.sched.runq cpu ∨ cpu = 0 ∧ (s.pc h).waits = true)

/-! ## The condition -/

/-- Between `dns_result = 0` and the last read of `dns_result`. -/
def Pc.resolves : Pc → Bool
  | .query | .waitDns | .checkDone | .checkResult | .take => true
  | _ => false

/-- An answer for another host does not come while the holder resolves its own, and no failure
between the last two reads of `dns_result`. -/
def State.timely (s : State) (h : Nat) (host : Host) (addr : Option Nat) : Bool :=
  match addr with
  | none => s.pc h ≠ .take
  | some _ => host = s.host h || !(s.pc h).resolves

/-- `task_exit` stays on its CPU; `kernel_ping` is called only when the lock is free, or on a CPU
other than CPU 0 for which the holder does not wait; answers are timely. -/
def orderly (s : State) : Event → Bool
  | .sched op => decide (Sched.OnOwnCpu s.machine op)
  | .enter cpu _ => s.busy.all fun h => cpu ≠ 0 && h ∉ s.machine.sched.runq cpu
  | .dnsFound host addr => s.busy.all fun h => s.timely h host addr
  | _ => true

end Kyuzen.Ping
