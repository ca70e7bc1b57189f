import Kyuzen.Lib.Run
import Kyuzen.Sched.Queues

/-!
# Going to sleep

`task_sleep_ms` and `block_current_task`, called with interrupts enabled. Both find out who the
caller is by `smp_current_cpu_index()` and `cpu_current_task[cpu_id]`, two reads outside of
`scheduler_lock`. Every read and every locked section is a step of the caller on the CPU that
executes it, and between two of them the scheduler may move the caller to another CPU.

As long as the caller is still on the CPU whose index it has read, or this CPU has no task, the
calls change no other task (`only_caller_sleeps`). Otherwise they put their mark on the task that
has the CPU now (`other_task_marked`).
-/

namespace Kyuzen.Sched

/-- Where a task is in a call. -/
inductive SleepCall where
  | outside
  /-- In `task_sleep_ms`, with `cpu_id`. -/
  | sleepCpu (target cpuId : Nat)
  /-- In `task_sleep_ms`, before the locked section. -/
  | sleepSelf (target self : Nat)
  /-- In `task_sleep_ms`, without a task. -/
  | halting (target : Nat)
  /-- At the beginning of `block_prepare`. -/
  | prepare (st : TaskState)
  /-- In `block_prepare`, with `cpu_id`. -/
  | prepareCpu (st : TaskState) (cpuId : Nat)
  /-- In `block_prepare`, before the locked section. -/
  | prepareSelf (st : TaskState) (self : Nat)
  /-- At the beginning of `block_park`. -/
  | park (self : Nat)
  /-- In the loop of `block_park`. -/
  | parked (self cpuId : Nat)
  deriving DecidableEq

structure Sleepers where
  machine : Machine
  /-- The task whose code a CPU executes. -/
  running : Nat → Option Nat
  call : Nat → SleepCall

inductive SleepOp where
  | sched (op : Op)
  /-- The task on the CPU calls `task_sleep_ms` and reads `cpu_id`. -/
  | sleep (cpu ms now : Nat)
  /-- The task on the CPU calls `block_current_task`. -/
  | block (cpu : Nat) (st : TaskState)
  /-- The next step of the call of the task on the CPU. -/
  | next (cpu now : Nat)

/-- `scheduler_idle_loop` has the CPU. -/
def idles (c : Nat) : Op → Bool
  | .idle cpu => cpu = c
  | _ => false

/-- `cpu_current_task[cpu_id]`, if it is a task. -/
def selfOf (s : State) (cpuId : Nat) : Option Nat :=
  if cpuId < smpMaxCpus then liveCurrent s cpuId else none

namespace Sleepers

def setCall (s : Sleepers) (t : Nat) (c : SleepCall) : Sleepers :=
  { s with call := Function.update s.call t c }

def setSched (s : Sleepers) (sched : State) : Sleepers := { s with machine.sched := sched }

/-- The next step of the call of `t`, which runs on `cpu`. -/
def callStep (s : Sleepers) (t cpu now : Nat) : Sleepers :=
  match s.call t with
  | .outside => s
  | .sleepCpu target cpuId =>
    match selfOf s.machine.sched cpuId with
    | none => s.setCall t (.halting target)
    | some self => s.setCall t (.sleepSelf target self)
  | .sleepSelf target self =>
    (s.setSched (setTask s.machine.sched self fun x => { x with wakeAtMs := target })).setCall t
      (.prepare .sleeping)
  | .halting target => if now < target then s else s.setCall t .outside
  | .prepare st =>
    if st ≠ .sleeping ∧ st ≠ .blocked then s.setCall t .outside else s.setCall t (.prepareCpu st cpu)
  | .prepareCpu st cpuId =>
    match selfOf s.machine.sched cpuId with
    | none => s.setCall t .outside
    | some self => s.setCall t (.prepareSelf st self)
  | .prepareSelf st self =>
    if (s.machine.sched.tasks self).state ≠ .running then s.setCall t .outside
    else
      (s.setSched (setTask s.machine.sched self fun x => { x with state := st })).setCall t
        (.park self)
  | .park self => if maxTasks ≤ self then s.setCall t .outside else s.setCall t (.parked self cpu)
  | .parked self _ =>
    -- Otherwise the CPU gets an interrupt and halts until then.
    if (s.machine.sched.tasks self).state = .running then s.setCall t .outside else s

/-- A task that is in a call begins no other. -/
def begin (s : Sleepers) (cpu : Nat) (c : SleepCall) : Sleepers :=
  match s.running cpu with
  | none => s
  | some t => if s.call t = .outside then s.setCall t c else s

def step (s : Sleepers) : SleepOp → Sleepers
  | .sched op =>
    let m := exec s.machine op
    { s with
      machine := m
      -- A task that gets a CPU is recorded as its current task.
      running := fun c =>
        match m.sched.current c with
        | some t => some t
        | none => if idles c op then none else s.running c }
  | .sleep cpu ms now =>
    -- With 0 the function only yields.
    if ms = 0 then s else s.begin cpu (.sleepCpu (now + ms) cpu)
  | .block cpu st => s.begin cpu (.prepare st)
  | .next cpu now =>
    match s.running cpu with
    | none => s
    | some t => s.callStep t cpu now

def start (online : Nat) : Sleepers where
  machine := Sched.start online
  running := (taskingInit online).current
  call _ := .outside

end Sleepers

/-- The CPU on which a step of a call is made. -/
def SleepOp.cpu : SleepOp → Option Nat
  | .sched _ => none
  | .sleep cpu _ _ | .block cpu _ | .next cpu _ => some cpu

/-- A step of a call changes no task but the caller. -/
def OnlyCaller (s : Sleepers) (op : SleepOp) : Prop :=
  ∀ cpu t, op.cpu = some cpu → s.running cpu = some t → ∀ v, v ≠ t →
    (s.step op).machine.sched.tasks v = s.machine.sched.tasks v

/-! ## The condition -/

/-- The index that a call has read and uses in its next step. -/
def SleepCall.cpuId : SleepCall → Option Nat
  | .sleepCpu _ cpuId | .prepareCpu _ cpuId => some cpuId
  | _ => none

/-- The task on the CPU has read the index of this CPU, or of one without a task. -/
def Sleepers.unmoved (s : Sleepers) (cpu : Nat) : Bool :=
  match s.running cpu with
  | none => true
  | some t =>
    (s.call t).cpuId.all fun cpuId => cpuId = cpu || (selfOf s.machine.sched cpuId).isNone

def SleepOp.unmoved (s : Sleepers) : SleepOp → Bool
  | .next cpu _ => s.unmoved cpu
  | _ => true

/-! ## The invariant -/

/-- The task that a call has found, and will change or wait for. -/
def SleepCall.self : SleepCall → Option Nat
  | .sleepSelf _ self | .prepareSelf _ self | .park self | .parked self _ => some self
  | _ => none

structure SleepInv (s : Sleepers) : Prop where
  running : ∀ c t, s.machine.sched.current c = some t → s.running c = some t
  self : ∀ t u, (s.call t).self = some u → u = t

variable {s : Sleepers} {t cpu : Nat}

theorem selfOf_eq_some {s : State} {cpuId u : Nat} (h : selfOf s cpuId = some u) :
    s.current cpuId = some u := by
  unfold selfOf at h
  split at h
  · exact (Option.filter_eq_some_iff.mp h).1
  · cases h

/-- A caller that has not moved finds itself. -/
theorem SleepInv.selfOf_eq (h : SleepInv s) (hrun : s.running cpu = some t)
    (hunmoved : s.unmoved cpu = true) {cpuId u : Nat} (hcpu : (s.call t).cpuId = some cpuId)
    (hu : selfOf s.machine.sched cpuId = some u) : u = t := by
  simp only [Sleepers.unmoved, hrun, hcpu, Option.all_some, hu, Option.isNone_some, Bool.or_false,
    decide_eq_true_eq] at hunmoved
  rw [hunmoved] at hu
  have hcur := h.running cpu u (selfOf_eq_some hu)
  exact Option.some.inj (hcur.symm.trans hrun)

theorem SleepInv.setCall (h : SleepInv s) {c : SleepCall} (hc : ∀ u, c.self = some u → u = t) :
    SleepInv (s.setCall t c) where
  running := h.running
  self v u hu := by
    by_cases hv : v = t
    · subst hv
      simp only [Sleepers.setCall, Function.update_self] at hu
      exact hc u hu
    · simp only [Sleepers.setCall, Function.update_of_ne hv] at hu
      exact h.self v u hu

/-- The fields of a task change, but not who has which CPU. -/
theorem SleepInv.setTask (h : SleepInv s) (u : Nat) (f : Task → Task) :
    SleepInv (s.setSched (setTask s.machine.sched u f)) :=
  ⟨h.running, h.self⟩

theorem SleepInv.callStep (h : SleepInv s) (hrun : s.running cpu = some t)
    (hunmoved : s.unmoved cpu = true) (now : Nat) : SleepInv (s.callStep t cpu now) := by
  have hnothing : ∀ {c : SleepCall}, c.self = none → SleepInv (s.setCall t c) := by
    intro c hc
    refine h.setCall fun u hu => ?_
    rw [hc] at hu
    cases hu
  have hkeep : ∀ {u}, (s.call t).self = some u → ∀ v, some u = some v → v = t := by
    intro u hu v hv
    rw [← Option.some.inj hv]
    exact h.self t u hu
  unfold Sleepers.callStep
  split
  · exact h
  · next target cpuId hcall =>
    split
    · exact hnothing rfl
    · next u hu =>
      refine h.setCall fun v hv => ?_
      obtain rfl := Option.some.inj hv
      exact h.selfOf_eq hrun hunmoved (by rw [hcall]; rfl) hu
  · next target self hcall =>
    refine (h.setTask self _).setCall fun u hu => ?_
    cases hu
  · split
    · exact h
    · exact hnothing rfl
  · split
    · exact hnothing rfl
    · exact hnothing rfl
  · next st cpuId hcall =>
    split
    · exact hnothing rfl
    · next u hu =>
      refine h.setCall fun v hv => ?_
      obtain rfl := Option.some.inj hv
      exact h.selfOf_eq hrun hunmoved (by rw [hcall]; rfl) hu
  · next st self hcall =>
    split
    · exact hnothing rfl
    · exact (h.setTask self _).setCall (hkeep (by rw [hcall]; rfl))
  · next self hcall =>
    split
    · exact hnothing rfl
    · exact h.setCall (hkeep (by rw [hcall]; rfl))
  · split
    · exact hnothing rfl
    · exact h

theorem SleepInv.begin (h : SleepInv s) {c : SleepCall} (hc : c.self = none) :
    SleepInv (s.begin cpu c) := by
  unfold Sleepers.begin
  split
  · exact h
  · split
    · refine h.setCall fun u hu => ?_
      rw [hc] at hu
      cases hu
    · exact h

theorem SleepInv.step (h : SleepInv s) (op : SleepOp) (hop : op.unmoved s = true) :
    SleepInv (s.step op) := by
  cases op with
  | sched op =>
    refine ⟨?_, h.self⟩
    intro c u hu
    simp only [Sleepers.step] at hu ⊢
    rw [hu]
  | sleep cpu ms now =>
    rw [Sleepers.step]
    split
    · exact h
    · exact h.begin rfl
  | block cpu st => exact h.begin rfl
  | next cpu now =>
    rw [Sleepers.step]
    split
    · exact h
    · next t hrun => exact h.callStep hrun hop now

theorem start_sleepInv (online : Nat) : SleepInv (Sleepers.start online) where
  running c t h := h
  self t u h := by cases h

/-! ## What the calls change -/

/-- A step of a call changes no task but the one that the call has found. -/
theorem callStep_tasks (s : Sleepers) (t cpu now : Nat) {v : Nat}
    (hv : ∀ u, (s.call t).self = some u → v ≠ u) :
    (s.callStep t cpu now).machine.sched.tasks v = s.machine.sched.tasks v := by
  unfold Sleepers.callStep
  split
  · rfl
  · split <;> rfl
  · next target self hcall =>
    exact Function.update_of_ne (hv self (by rw [hcall]; rfl)) _ _
  · split <;> rfl
  · split <;> rfl
  · split <;> rfl
  · next st self hcall =>
    split
    · rfl
    · exact Function.update_of_ne (hv self (by rw [hcall]; rfl)) _ _
  · split <;> rfl
  · split <;> rfl

theorem begin_tasks (s : Sleepers) (cpu : Nat) (c : SleepCall) :
    (s.begin cpu c).machine = s.machine := by
  unfold Sleepers.begin
  split
  · rfl
  · split <;> rfl

theorem SleepInv.onlyCaller (h : SleepInv s) (op : SleepOp) : OnlyCaller s op := by
  intro cpu t hcpu hrun v hv
  cases op with
  | sched op => cases hcpu
  | sleep c ms now =>
    rw [Sleepers.step]
    split
    · rfl
    · rw [begin_tasks]
  | block c st => rw [Sleepers.step, begin_tasks]
  | next c now =>
    obtain rfl := Option.some.inj hcpu
    simp only [Sleepers.step, hrun]
    refine callStep_tasks s t c now fun u hu => ?_
    rw [h.self t u hu]
    exact hv

/-- In every run in which a caller, when it uses a CPU index that it has read, is still on this CPU,
or the CPU has no task: a step of `task_sleep_ms` or `block_current_task` changes no other task than
the caller, and `block_park` waits for the caller. -/
theorem only_caller_sleeps (online : Nat) (ops : List SleepOp)
    (hunmoved : ∀ n (op : SleepOp), ops[n]? = some op →
      op.unmoved (Lib.after Sleepers.step (Sleepers.start online) ops n) = true) :
    (∀ n op, ops[n]? = some op →
      OnlyCaller (Lib.after Sleepers.step (Sleepers.start online) ops n) op) ∧
    ∀ n t self cpuId, (Lib.after Sleepers.step (Sleepers.start online) ops n).call t =
      .parked self cpuId → self = t := by
  have hinv : ∀ n, SleepInv (Lib.after Sleepers.step (Sleepers.start online) ops n) :=
    Lib.after_induction (start_sleepInv online) (fun s op h hop => h.step op hop) hunmoved
  constructor
  · intro n op _
    exact (hinv n).onlyCaller op
  · intro n t self cpuId hcall
    apply (hinv n).self t self
    rw [hcall]
    rfl

/-- Task 1 runs on CPU 1 and calls `task_sleep_ms`. -/
def sleepRun : List SleepOp :=
  [.sched (.create smallTask .createTaskPrio), .sched (.push 0 1 0), .sched (.schedule 1 1 0),
    .sleep 1 10 0]

theorem only_caller_sleeps_own :
    OnlyCaller (Lib.after Sleepers.step (Sleepers.start 2) (sleepRun ++ [.next 1 0, .next 1 0]) 5)
        (.next 1 0) ∧
      ((Lib.after Sleepers.step (Sleepers.start 2) (sleepRun ++ [.next 1 0, .next 1 0])
        6).machine.sched.tasks 1).wakeAtMs = 10 := by
  refine ⟨(only_caller_sleeps 2 (sleepRun ++ [.next 1 0, .next 1 0]) ?_).1 5 _ rfl,
    by decide⟩
  apply Lib.after_all (C := fun s op => SleepOp.unmoved s op)
  decide

/-- Task 1 has read the index of CPU 1; task 2 is stolen by CPU 1, and CPU 0 steals task 1, which
then finds task 2 and marks it. -/
def movedRun : List SleepOp :=
  sleepRun ++ [.sched (.create smallTask .createTaskPrio), .sched (.push 0 0 0),
    .sched (.schedule 1 1 0), .sched (.schedule 0 1 0), .next 0 0]

theorem other_task_marked :
    (Lib.after Sleepers.step (Sleepers.start 2) movedRun 9).running 0 = some 1 ∧
      ¬OnlyCaller (Lib.after Sleepers.step (Sleepers.start 2) movedRun 9) (.next 0 0) := by
  have hrun : (Lib.after Sleepers.step (Sleepers.start 2) movedRun 9).running 0 = some 1 := by
    decide
  refine ⟨hrun, fun honly => ?_⟩
  have hsame := congrArg Task.wakeAtMs (honly 0 1 rfl hrun 2 (by decide))
  revert hsame
  decide

end Kyuzen.Sched
