import Kyuzen.Lib.Ledger
import Kyuzen.Sched.Queues

/-!
# CPUs and their stacks

What the CPUs execute while the scheduler's sections interleave. `schedule_on_cpu` returns the
frame of the next task with `scheduler_lock` released, and the stub loads it with `mov rsp, rax`
in a later step; `task_exit` goes on behind its locked section on the old stack, destroys the
address space, moves to an idle stack and frees the old one there.

Of an address on a stack only the stack matters, so a frame is the number of its stack. The first
numbers are the idle stacks of the CPUs, then comes the stack that `kmain` runs on; the stacks of
tasks are what `kmalloc` hands out above these. A PML4 and a stack are 0 where the source has
`PHYS_NULL` and `NULL`.
-/

namespace Kyuzen.Sched

open Lib Lib.Places

def idleStack (cpu : Nat) : Nat := cpu + 1
def bootStack : Nat := smpMaxCpus + 1

inductive Ctx where
  | on (stack : Nat)
  /-- In the stub, between the return of `schedule_on_cpu` and `mov rsp, rax`. -/
  | switching (old new : Nat)
  /-- In `task_exit`, behind the locked section: `cpu_id`, the stack it executes on, `old_stack`
  and `dead_pml4`. -/
  | tail (cpuId stack oldStack deadPml4 : Nat)
  /-- In `task_exit_finish_on_idle`, before `kfree`. -/
  | reap (stack oldStack : Nat)

/-- The stack that the CPU executes on. -/
def Ctx.stack : Ctx → Nat
  | .on stack | .switching stack _ | .tail _ stack _ _ | .reap stack _ => stack

/-- The stack that the CPU is going to free. -/
def Ctx.oldStack : Ctx → Nat
  | .on _ | .switching _ _ => 0
  | .tail _ _ old _ | .reap _ old => old

/-- The address space that the CPU is going to destroy. -/
def Ctx.deadPml4 : Ctx → Nat
  | .on _ | .switching _ _ | .reap _ _ => 0
  | .tail _ _ _ pml4 => pml4

structure Kernel where
  machine : Machine
  ctx : Nat → Ctx
  /-- Interrupts are disabled on the CPU: it is in `task_exit`, called by `sys_exit`. -/
  masked : Nat → Bool
  /-- The stacks that are allocated for tasks. -/
  allocated : List Nat
  /-- The private address spaces of tasks that are not destroyed. -/
  spaces : List Nat

/-- How `task_exit` is reached. -/
inductive Route where
  | trampoline
  | sysExit
  deriving DecidableEq

inductive Event where
  /-- A timer tick or a reschedule IPI. -/
  | tick (cpu now : Nat)
  | movRsp (cpu : Nat)
  | create (new : NewTask) (who : Pusher)
  | unblock (t : Nat)
  | push (i cpu now : Nat)
  | block (cpu : Nat) (st : TaskState)
  | exitEnter (cpu : Nat) (route : Route)
  | exitLocked (cpu : Nat)
  | destroyAs (cpu : Nat)
  | viaIdle (cpu : Nat)
  | finish (cpu : Nat)
  | idle (cpu : Nat)

/-- The section of the scheduler that the event runs, if it runs one. -/
def Event.op (k : Kernel) : Event → Option Op
  | .tick cpu now => some (.schedule cpu (k.ctx cpu).stack now)
  | .create new who => some (.create new who)
  | .unblock t => some (.unblock t)
  | .push i cpu now => some (.push i cpu now)
  | .block cpu st => some (.block cpu st)
  | .exitEnter cpu _ => some (.exitEnter cpu)
  | .exitLocked cpu => some (.exitLocked cpu)
  | .idle cpu => some (.idle cpu)
  | .movRsp _ | .destroyAs _ | .viaIdle _ | .finish _ => none

/-- What `kmalloc` and `vmm_create_address_space` return is not in use, and the frame of the new
task is on its stack. -/
def NewTask.Fresh (k : Kernel) (new : NewTask) : Prop :=
  bootStack < new.stack ∧ new.rsp = new.stack ∧ new.stack ∉ k.allocated ∧
    (new.pml4Phys ≠ 0 → new.pml4Phys ∉ k.spaces)

/-- The CPU executes the code of a task, or the idle loop. -/
def Ctx.Plain (x : Ctx) : Prop := x = .on x.stack

instance (x : Ctx) : Decidable x.Plain :=
  match x with
  | .on _ => isTrue rfl
  | .switching _ _ => isFalse nofun
  | .tail _ _ _ _ => isFalse nofun
  | .reap _ _ => isFalse nofun

def Ctx.inStub : Ctx → Bool
  | .switching _ _ => true
  | .on _ | .tail _ _ _ _ | .reap _ _ => false

def Ctx.inTail : Ctx → Bool
  | .tail _ _ _ _ => true
  | .on _ | .switching _ _ | .reap _ _ => false

def Ctx.reaps : Ctx → Bool
  | .reap _ _ => true
  | .on _ | .switching _ _ | .tail _ _ _ _ => false

/-- What the CPUs do allows the event, besides what the scheduler's state allows. -/
def Event.CpuEnabled (k : Kernel) : Event → Prop
  | .tick cpu _ => (k.ctx cpu).inStub = false ∧ k.masked cpu = false
  | .movRsp cpu => cpu < k.machine.sched.online ∧ (k.ctx cpu).inStub
  | .create new _ => new.Fresh k
  | .unblock _ | .push _ _ _ => True
  | .block cpu _ | .exitEnter cpu _ | .exitLocked cpu | .idle cpu => (k.ctx cpu).Plain
  | .destroyAs cpu => cpu < k.machine.sched.online ∧ (k.ctx cpu).deadPml4 ≠ 0
  | .viaIdle cpu =>
    cpu < k.machine.sched.online ∧ (k.ctx cpu).inTail ∧ (k.ctx cpu).deadPml4 = 0
  | .finish cpu => cpu < k.machine.sched.online ∧ (k.ctx cpu).reaps

/-- The code can take the step. -/
def Event.Enabled (k : Kernel) (e : Event) : Prop :=
  e.CpuEnabled k ∧ ∀ op, e.op k = some op → op.Enabled k.machine

instance (k : Kernel) (new : NewTask) : Decidable (new.Fresh k) := inferInstanceAs (Decidable (_ ∧ _))

instance (k : Kernel) : (e : Event) → Decidable (e.CpuEnabled k)
  | .create new _ => inferInstanceAs (Decidable (new.Fresh k))
  | .unblock _ | .push _ _ _ => inferInstanceAs (Decidable True)
  | .block cpu _ | .exitEnter cpu _ | .exitLocked cpu | .idle cpu =>
    inferInstanceAs (Decidable (k.ctx cpu).Plain)
  | .tick _ _ | .movRsp _ | .destroyAs _ | .viaIdle _ | .finish _ =>
    inferInstanceAs (Decidable (_ ∧ _))

instance (k : Kernel) (e : Event) : Decidable (e.Enabled k) := inferInstanceAs (Decidable (_ ∧ _))

/-- The entry of a list for a value that is 0 if there is none. -/
def nonNull (x : Nat) : List Nat := if x = 0 then [] else [x]

/-- The CPU after `schedule_on_cpu`: in the stub, unless it keeps its task. -/
def switched (k : Kernel) (cpu now : Nat) : Ctx :=
  let out := scheduleOnCpu k.machine.sched cpu (k.ctx cpu).stack now
  if out.1.current cpu = k.machine.sched.current cpu ∨ out.1.current cpu = none then k.ctx cpu
  else .switching (k.ctx cpu).stack out.2

/-- The CPU behind the locked section of `task_exit`. -/
def exited (k : Kernel) (cpu : Nat) : Ctx :=
  let cpuId := ((curRunning k.machine.sched cpu).bind k.machine.exitCpu).getD cpu
  let out := taskExit k.machine.sched cpuId
  .tail cpuId (k.ctx cpu).stack out.oldStack out.deadPml4

/-- The stacks that the event gives to `kfree`. -/
def freedBy (k : Kernel) : Event → List Nat
  | .create new _ => (createTask k.machine.sched new).freed
  | .push i cpu now =>
    match k.machine.pending[i]? with
    | none => []
    | some (t, who) => (pushReady k.machine.sched who t cpu now).2
  | .finish cpu => nonNull (k.ctx cpu).oldStack
  | _ => []

/-- The stacks that are allocated when the event frees. -/
def allocatedAt (k : Kernel) : Event → List Nat
  | .create new _ => new.stack :: k.allocated
  | _ => k.allocated

def setCtx (k : Kernel) (cpu : Nat) (x : Ctx) : Kernel :=
  { k with ctx := Function.update k.ctx cpu x }

/-- What the event does to the CPUs and to the address spaces. -/
def cpuStep (k : Kernel) : Event → Kernel
  | .tick cpu now => setCtx k cpu (switched k cpu now)
  | .movRsp cpu =>
    match k.ctx cpu with
    | .switching _ new => setCtx k cpu (.on new)
    | _ => k
  | .create new _ =>
    { k with
      spaces := if (createTask k.machine.sched new).slot.isSome then
        nonNull new.pml4Phys ++ k.spaces else k.spaces }
  | .exitEnter cpu route =>
    { k with masked := Function.update k.masked cpu (route = .sysExit) }
  | .exitLocked cpu => setCtx k cpu (exited k cpu)
  | .destroyAs cpu =>
    match k.ctx cpu with
    | .tail cpuId stack old pml4 =>
      { setCtx k cpu (.tail cpuId stack old 0) with spaces := k.spaces.diff (nonNull pml4) }
    | _ => k
  | .viaIdle cpu =>
    match k.ctx cpu with
    | .tail cpuId _ old _ => setCtx k cpu (.reap (idleStack cpuId) old)
    | _ => k
  | .finish cpu =>
    { setCtx k cpu (.on (k.ctx cpu).stack) with masked := Function.update k.masked cpu false }
  | .unblock _ | .push _ _ _ | .block _ _ | .idle _ => k

def Kernel.step (k : Kernel) (e : Event) : Kernel :=
  { cpuStep k e with
    machine := (e.op k).elim k.machine (exec k.machine)
    allocated := (allocatedAt k e).diff (freedBy k e) }

/-- After `tasking_init`: the first CPU executes `kmain`, the others their idle loops. -/
def boot (online : Nat) : Kernel where
  machine := start online
  ctx := Function.update (fun cpu => .on (idleStack cpu)) 0 (.on bootStack)
  masked _ := false
  allocated := []
  spaces := []

/-- The states of the runs whose steps all meet `P`. -/
inductive Kernel.Reach (P : Kernel → Event → Prop) : Kernel → Prop
  | boot {online : Nat} (h : 0 < online) (hmax : online ≤ smpMaxCpus) : Kernel.Reach P (boot online)
  | step {k : Kernel} {e : Event} (h : Kernel.Reach P k) (he : e.Enabled k) (hp : P k e) :
    Kernel.Reach P (k.step e)

/-- The code can take the steps one after the other, and they meet `P`. -/
def Kernel.Runs (P : Kernel → Event → Prop) (k : Kernel) : List Event → Prop
  | [] => True
  | e :: es => (e.Enabled k ∧ P k e) ∧ Kernel.Runs P (k.step e) es

instance Kernel.decidableRuns {P : Kernel → Event → Prop} [∀ k e, Decidable (P k e)] :
    (k : Kernel) → (es : List Event) → Decidable (Kernel.Runs P k es)
  | _, [] => inferInstanceAs (Decidable True)
  | k, e :: es =>
    have := Kernel.decidableRuns (P := P) (k.step e) es
    inferInstanceAs (Decidable ((e.Enabled k ∧ P k e) ∧ Kernel.Runs P (k.step e) es))

theorem Kernel.Reach.runs {P : Kernel → Event → Prop} {es : List Event} :
    ∀ {k : Kernel}, Kernel.Reach P k → Kernel.Runs P k es → Kernel.Reach P (es.foldl Kernel.step k) := by
  induction es with
  | nil => exact fun h _ => h
  | cons e es ih => exact fun h hr => ih (h.step hr.1.1 hr.1.2) hr.2

end Kyuzen.Sched
