import Kyuzen.Lib.Places

/-!
# The scheduler

`kernel/sched`: the task table, the per-CPU run queues, and the sections that run under
`scheduler_lock` or a queue's lock. Each of these is one function on `State`; how they interleave
on several CPUs is the matter of the modules that build on this one.

`cpu_current_task[cpu]` is `current cpu`, with `none` for -1. A run queue is the list of its
entries. Values of `timer_get_ms()` are arguments. `tss_set_rsp0`, CR3, the reschedule flags and
IPIs are left out: they do not decide which task runs where. `current_task` is not read.
-/

namespace Kyuzen.Sched

open Lib.Places

inductive TaskState where
  | ready
  | running
  | sleeping
  | dead
  | blocked
  deriving DecidableEq

structure Task where
  state : TaskState
  /-- The saved frame; 0 if there is none. -/
  rsp : Nat
  stackBase : Nat
  pml4Phys : Nat
  wakeAtMs : Nat
  priority : Nat
  enqueueMs : Nat

def maxTasks : Nat := 16
def smpMaxCpus : Nat := 16

structure State where
  tasks : Nat → Task
  taskCount : Nat
  current : Nat → Option Nat
  runq : Nat → List Nat
  /-- `smp_online_cpu_count()`. -/
  online : Nat

def setTask (s : State) (t : Nat) (f : Task → Task) : State :=
  { s with tasks := Function.update s.tasks t (f (s.tasks t)) }

def setCurrent (s : State) (cpu : Nat) (t : Option Nat) : State :=
  { s with current := Function.update s.current cpu t }

def setRunq (s : State) (cpu : Nat) (l : List Nat) : State :=
  { s with runq := Function.update s.runq cpu l }

/-! ## Run queues -/

def runqCapacity : Nat := maxTasks
def ageStepMs : Nat := 100
def ageMaxBonus : Nat := 8

def effectivePrio (s : State) (t now : Nat) : Nat :=
  (s.tasks t).priority + min ((now - (s.tasks t).enqueueMs) / ageStepMs % 2 ^ 32) ageMaxBonus

/-- Fails when the queue is full. -/
def runqPush (s : State) (cpu t now : Nat) : Option State :=
  if runqCapacity ≤ (s.runq cpu).length then none
  else some (setRunq (setTask s t fun x => { x with enqueueMs := now }) cpu (s.runq cpu ++ [t]))

/-- The entry `t` is preferred to `best`. -/
def preferred (s : State) (now t best : Nat) : Bool :=
  effectivePrio s best now < effectivePrio s t now ||
    effectivePrio s t now == effectivePrio s best now &&
      (s.tasks t).enqueueMs < (s.tasks best).enqueueMs

/-- The index that the loop of `runq_pop` ends with. -/
def bestIndex (s : State) (now : Nat) (l : List Nat) : Nat :=
  (List.range l.length).foldl
    (fun best i => if preferred s now (l.getD i 0) (l.getD best 0) then i else best) 0

def runqPop (s : State) (cpu now : Nat) : Option (Nat × State) :=
  let l := s.runq cpu
  match l[bestIndex s now l]? with
  | none => none
  | some t => some (t, setRunq s cpu (swapRemove l (bestIndex s now l)))

/-- The loop of `steal_task`: the first of the longest queues of other CPUs, and its length. -/
def victim (s : State) (self : Nat) : Option Nat :=
  ((List.range (min s.online smpMaxCpus)).foldl (fun (v : Option Nat × Nat) i =>
    if i ≠ self ∧ v.2 < (s.runq i).length then (some i, (s.runq i).length) else v) (none, 0)).1

def stealTask (s : State) (self now : Nat) : Option (Nat × State) :=
  match victim s self with
  | none => none
  | some v => runqPop s v now

/-! ## `schedule_on_cpu` -/

/-- The next task: from the CPU's own queue, or stolen. -/
def takeNext (s : State) (cpu now : Nat) : Option (Nat × State) :=
  match runqPop s cpu now with
  | some r => some r
  | none => stealTask s cpu now

/-- `cur`, if it is a task. -/
def liveCurrent (s : State) (cpu : Nat) : Option Nat :=
  (s.current cpu).filter (· < s.taskCount)

def curIn (s : State) (cpu : Nat) (p : TaskState → Bool) : Option Nat :=
  (liveCurrent s cpu).filter fun t => p (s.tasks t).state

/-- `cur`, if it is running. -/
def curRunning (s : State) (cpu : Nat) : Option Nat := curIn s cpu (· == .running)

/-- `cur`, if it sleeps or is blocked. -/
def curBlocked (s : State) (cpu : Nat) : Option Nat :=
  curIn s cpu fun st => st == .sleeping || st == .blocked

/-- A task that can not go on gives up its CPU. -/
def relinquish (s : State) (cpu : Nat) : State :=
  if (curRunning s cpu).isNone && (curBlocked s cpu).isNone then setCurrent s cpu none else s

/-- `tasks[cur].rsp = current_regs`, if there is such a task. -/
def saveFrame (s : State) (cur : Option Nat) (regs : Nat) : State :=
  match cur with
  | none => s
  | some t => setTask s t fun x => { x with rsp := regs }

/-- The outgoing task is runnable again. -/
def yieldTask (s : State) (t regs : Nat) : State :=
  setTask s t fun x => { x with rsp := regs, state := .ready }

/-- `next` takes the CPU. -/
def dispatch (s : State) (cpu next : Nat) : State :=
  setCurrent (setTask s next fun x => { x with state := .running }) cpu (some next)

/-- The end of `schedule_on_cpu`, when `next` has been taken from its queue. -/
def switchTo (s : State) (cpu regs now next : Nat) : State × Nat :=
  match curRunning s cpu with
  | none =>
    let s := dispatch (saveFrame s (curBlocked s cpu) regs) cpu next
    (s, (s.tasks next).rsp)
  | some cur =>
    match runqPush (yieldTask s cur regs) cpu cur now with
    | some s => (dispatch s cpu next, ((dispatch s cpu next).tasks next).rsp)
    | none =>
      let s := setTask (yieldTask s cur regs) cur fun x => { x with state := .running }
      ((runqPush s cpu next now).getD s, regs)

/-- The frame to be loaded is the second component. -/
def scheduleOnCpu (s : State) (cpu regs now : Nat) : State × Nat :=
  if s.taskCount = 0 then (s, regs)
  else
    match takeNext (relinquish s cpu) cpu now with
    | none => (saveFrame (relinquish s cpu) (curBlocked s cpu) regs, regs)
    | some (next, s) =>
      if s.taskCount ≤ next ∨ (s.tasks next).state ≠ .ready ∨ (s.tasks next).rsp = 0 then (s, regs)
      else switchTo s cpu regs now next

/-! ## Blocking -/

/-- `block_prepare` on the CPU; the task that is blocked. -/
def blockPrepare (s : State) (cpu : Nat) (st : TaskState) : Option Nat × State :=
  if st ≠ .sleeping ∧ st ≠ .blocked then (none, s)
  else
    match curRunning s cpu with
    | none => (none, s)
    | some self => (some self, setTask s self fun x => { x with state := st })

/-- What `unblock_task` has still to do when it leaves `scheduler_lock`. -/
inductive Wakeup where
  | nothing
  /-- The CPU on which the task is parked gets an IPI. -/
  | parked (cpu : Nat)
  /-- The task goes to a run queue. -/
  | push
  deriving DecidableEq

def parkedOn (s : State) (t : Nat) : Option Nat :=
  (List.range smpMaxCpus).find? fun c => s.current c == some t

/-- The locked section of `unblock_task`. -/
def unblockTask (s : State) (t : Nat) : Wakeup × State :=
  if maxTasks ≤ t then (.nothing, s)
  else if (s.tasks t).state ≠ .sleeping ∧ (s.tasks t).state ≠ .blocked then (.nothing, s)
  else
    match parkedOn s t with
    | some cpu => (.parked cpu, setTask s t fun x => { x with wakeAtMs := 0, state := .running })
    | none => (.push, setTask s t fun x => { x with wakeAtMs := 0, state := .ready })

/-! ## Creation and exit -/

/-- What `create_task_prio` and `create_user_task` have prepared: a stack with a frame on it. -/
structure NewTask where
  stack : Nat
  rsp : Nat
  rsp_ne : rsp ≠ 0
  pml4Phys : Nat
  priority : Nat

/-- A dead slot other than 0, or a new one. -/
def reserveSlot (s : State) : Option (Nat × State) :=
  match (List.range s.taskCount).find? fun i => 1 ≤ i && (s.tasks i).state == .dead with
  | some i => some (i, s)
  | none => if s.taskCount < maxTasks then some (s.taskCount, { s with taskCount := s.taskCount + 1 })
    else none

structure Created where
  slot : Option Nat
  sched : State
  /-- The stacks given to `kfree`. -/
  freed : List Nat

/-- The locked section of `create_task_prio` and `create_user_task`. -/
def createTask (s : State) (new : NewTask) : Created :=
  match reserveSlot s with
  | none => ⟨none, s, [new.stack]⟩
  | some (slot, s) =>
    ⟨some slot,
      setTask s slot fun x =>
        { x with
          state := .ready
          rsp := new.rsp
          stackBase := new.stack
          pml4Phys := new.pml4Phys
          wakeAtMs := 0
          priority := new.priority },
      if (s.tasks slot).stackBase ≠ 0 then [(s.tasks slot).stackBase] else []⟩

/-- Who pushes a task after its locked section. -/
inductive Pusher where
  | createTaskPrio
  | createUserTask
  | unblockTask
  deriving DecidableEq

/-- `runq_push` after the locked section, with what follows when the queue is full. -/
def pushReady (s : State) (who : Pusher) (t cpu now : Nat) : State × List Nat :=
  match runqPush s cpu t now with
  | some s => (s, [])
  | none =>
    match who with
    | .createTaskPrio =>
      (setTask s t fun x => { x with state := .dead, rsp := 0 }, [(s.tasks t).stackBase])
    | .createUserTask =>
      (setTask s t fun x => { x with state := .dead, rsp := 0, stackBase := 0 },
        [(s.tasks t).stackBase])
    | .unblockTask =>
      (if (s.tasks t).state = .ready then setTask s t fun x => { x with state := .blocked } else s,
        [])

/-- What the locked section of `task_exit` moves to local variables. -/
structure Exit where
  oldStack : Nat
  deadPml4 : Nat
  sched : State

/-- The locked section of `task_exit`, with the `cpu_id` that was read before. -/
def taskExit (s : State) (cpuId : Nat) : Exit :=
  match (liveCurrent s cpuId).filter (0 < ·) with
  | none => ⟨0, 0, setCurrent s cpuId none⟩
  | some cur =>
    ⟨(s.tasks cur).stackBase, (s.tasks cur).pml4Phys,
      setCurrent
        (setTask s cur fun x => { x with state := .dead, rsp := 0, stackBase := 0, pml4Phys := 0 })
        cpuId none⟩

/-- The write of `scheduler_idle_loop`. -/
def idleWrite (s : State) (cpu : Nat) : State := setCurrent s cpu none

/-! ## Start -/

def deadTask : Task := ⟨.dead, 0, 0, 0, 0, 1, 0⟩

/-- `tasking_init`, with the number of CPUs that will be online. -/
def taskingInit (online : Nat) : State where
  tasks := Function.update (fun _ => deadTask) 0 { deadTask with state := .running }
  taskCount := 1
  current := Function.update (fun _ => none) 0 (some 0)
  runq _ := []
  online := online

end Kyuzen.Sched
