import Kyuzen.Sched.Runnable

/-!
# The sleep queue

`task_sleep_ms` writes `wake_at_ms` in one section and the state in another one, and
`sleepq_check_wakeups` finds the tasks that are due in one section and unblocks each in a section
of its own. All of these interleave with the steps of the scheduler.

A sleeping task is woken by a tick at or after its time and by nothing else, and every tick that
sees it then wakes it (`sleeps_until_due`).

A caller is on the CPU on which it is looked up, and a tick ends before the next one begins. Wait
queues wake no sleeping task. `timer_get_ms()` does not overflow.
-/

namespace Kyuzen.Sched

/-- Where a task is in `task_sleep_ms`. -/
inductive Dozing where
  | outside
  /-- Before `wake_at_ms` is set. -/
  | marking (target : Nat)
  /-- Before `block_prepare`. -/
  | preparing
  deriving DecidableEq

structure Sleepq where
  machine : Machine
  call : Nat → Dozing
  /-- What is left of `wake` in the second loop. -/
  wake : List Nat
  /-- The `now_ms` of the last tick. -/
  nowMs : Nat
  /-- The time of a task's last call plus its `ms`. The code does not read it. -/
  due : Nat → Nat

inductive TickOp where
  | sched (op : Op)
  /-- The task on the CPU calls `task_sleep_ms` at the time `now`. -/
  | sleep (cpu ms now : Nat)
  | mark (cpu : Nat)
  | prepare (cpu : Nat)
  /-- The first loop of `sleepq_check_wakeups`. -/
  | tick (now : Nat)
  /-- One turn of the second loop. -/
  | wakeNext

/-- The tasks that the first loop of `sleepq_check_wakeups` collects. -/
def dueTasks (s : State) (now : Nat) : List Nat :=
  (List.range (min maxTasks s.taskCount)).filter fun i =>
    (s.tasks i).state == .sleeping && (s.tasks i).wakeAtMs != 0 && (s.tasks i).wakeAtMs ≤ now

def setWakeAt (m : Machine) (t target : Nat) : Machine :=
  { m with sched := setTask m.sched t fun x => { x with wakeAtMs := target } }

namespace Sleepq

def state (q : Sleepq) (t : Nat) : TaskState := (q.machine.sched.tasks t).state

def wakeAt (q : Sleepq) (t : Nat) : Nat := (q.machine.sched.tasks t).wakeAtMs

def setCall (q : Sleepq) (t : Nat) (c : Dozing) : Sleepq :=
  { q with call := Function.update q.call t c }

def step (q : Sleepq) : TickOp → Sleepq
  | .sched op => { q with machine := exec q.machine op }
  | .sleep cpu ms now =>
    match liveCurrent q.machine.sched cpu with
    | none => q
    | some t => { q.setCall t (.marking (now + ms)) with due := Function.update q.due t (now + ms) }
  | .mark cpu =>
    match liveCurrent q.machine.sched cpu with
    | none => q
    | some t =>
      match q.call t with
      | .marking target =>
        { q.setCall t .preparing with machine := setWakeAt q.machine t target }
      | _ => q
  | .prepare cpu =>
    match liveCurrent q.machine.sched cpu with
    | none => q
    | some t => { q.setCall t .outside with machine := exec q.machine (.block cpu .sleeping) }
  | .tick now => { q with wake := dueTasks q.machine.sched now, nowMs := now }
  | .wakeNext =>
    match q.wake with
    | [] => q
    | t :: wake => { q with machine := exec q.machine (.unblock t), wake := wake }

def start (online : Nat) : Sleepq := ⟨Sched.start online, fun _ => .outside, [], 0, fun _ => 0⟩

/-- The task that the CPU runs is in no call of `task_sleep_ms`. -/
def FreeOn (q : Sleepq) (cpu : Nat) : Prop :=
  ∀ t, curRunning q.machine.sched cpu = some t → q.call t = .outside

/-- The steps of the scheduler that are taken: only `task_sleep_ms` makes a task sleep, and only
ticks wake a sleeping one. -/
def Allows (q : Sleepq) : Op → Prop
  | .unblock t => q.state t ≠ .sleeping
  | .block cpu st => st ≠ .sleeping ∧ q.FreeOn cpu
  | .exitEnter cpu => q.FreeOn cpu
  | _ => True

/-- The task on the CPU is about to do the step of `task_sleep_ms`. -/
def CallOn (q : Sleepq) (cpu : Nat) (c : Dozing → Bool) : Prop :=
  cpu < q.machine.sched.online ∧ ∃ t, liveCurrent q.machine.sched cpu = some t ∧ c (q.call t)

end Sleepq

def TickOp.Enabled (q : Sleepq) : TickOp → Prop
  | .sched op => op.Enabled q.machine ∧ OnOwnCpu q.machine op ∧ q.Allows op
  | .sleep cpu ms _ => 0 < ms ∧ cpu < q.machine.sched.online ∧
    ∃ t, curRunning q.machine.sched cpu = some t ∧ q.call t = .outside ∧ q.machine.exitCpu t = none
  | .mark cpu => q.CallOn cpu fun c => c != .outside && c != .preparing
  | .prepare cpu => q.CallOn cpu (· == .preparing)
  | .tick now => q.wake = [] ∧ q.nowMs ≤ now
  | .wakeNext => q.wake ≠ []

instance (q : Sleepq) (cpu : Nat) : Decidable (q.FreeOn cpu) :=
  inferInstanceAs (Decidable (∀ t, curRunning q.machine.sched cpu = some t → q.call t = .outside))

instance (q : Sleepq) (cpu : Nat) (c : Dozing → Bool) : Decidable (q.CallOn cpu c) :=
  inferInstanceAs (Decidable (cpu < q.machine.sched.online ∧
    ∃ t, liveCurrent q.machine.sched cpu = some t ∧ c (q.call t)))

instance (q : Sleepq) : (op : Op) → Decidable (q.Allows op)
  | .unblock t => inferInstanceAs (Decidable (q.state t ≠ .sleeping))
  | .block cpu st => inferInstanceAs (Decidable (st ≠ .sleeping ∧ q.FreeOn cpu))
  | .exitEnter cpu => inferInstanceAs (Decidable (q.FreeOn cpu))
  | .schedule _ _ _ | .create _ _ | .push _ _ _ | .exitLocked _ | .idle _ =>
    inferInstanceAs (Decidable True)

instance TickOp.decidableEnabled (q : Sleepq) : (op : TickOp) → Decidable (op.Enabled q)
  | .sched op => inferInstanceAs
    (Decidable (op.Enabled q.machine ∧ OnOwnCpu q.machine op ∧ q.Allows op))
  | .sleep cpu ms _ => inferInstanceAs (Decidable (0 < ms ∧ cpu < q.machine.sched.online ∧
    ∃ t, curRunning q.machine.sched cpu = some t ∧ q.call t = .outside ∧
      q.machine.exitCpu t = none))
  | .mark cpu => inferInstanceAs (Decidable (q.CallOn cpu fun c => c != .outside && c != .preparing))
  | .prepare cpu => inferInstanceAs (Decidable (q.CallOn cpu (· == .preparing)))
  | .tick now => inferInstanceAs (Decidable (q.wake = [] ∧ q.nowMs ≤ now))
  | .wakeNext => inferInstanceAs (Decidable (q.wake ≠ []))

namespace Sleepq

/-- The states of the runs. -/
inductive Reach : Sleepq → Prop
  | start {online : Nat} (h : 0 < online) (hmax : online ≤ smpMaxCpus) : Reach (start online)
  | step {q : Sleepq} {op : TickOp} (h : Reach q) (hop : op.Enabled q) : Reach (q.step op)

/-- The code can take the steps one after the other. -/
def Runs (q : Sleepq) : List TickOp → Prop
  | [] => True
  | op :: ops => op.Enabled q ∧ Runs (q.step op) ops

instance : (q : Sleepq) → (ops : List TickOp) → Decidable (Runs q ops)
  | _, [] => inferInstanceAs (Decidable True)
  | q, op :: ops =>
    have := instDecidableRuns (q.step op) ops
    inferInstanceAs (Decidable (op.Enabled q ∧ Runs (q.step op) ops))

end Sleepq

/-! ## The scheduler and the sleeping tasks -/

variable {s : State} {p : Nat → Nat} {m : Machine} {q : Sleepq} {t cpu : Nat}

theorem setTask_wakeAtMs {f : Task → Task} (h : (f (s.tasks t)).wakeAtMs = (s.tasks t).wakeAtMs)
    (u : Nat) : ((setTask s t f).tasks u).wakeAtMs = (s.tasks u).wakeAtMs := by
  by_cases hu : u = t
  · subst hu
    rw [setTask_self, h]
  · rw [setTask_of_ne _ _ hu]

/-- The scheduler writes no `wake_at_ms`. -/
theorem scheduleOnCpu_wakeAtMs (h : Fits s p) (hcpu : cpu < smpMaxCpus) (regs now u : Nat) :
    ((scheduleOnCpu s cpu regs now).1.tasks u).wakeAtMs = (s.tasks u).wakeAtMs := by
  have hsave : ∀ (s : State) (cur : Option Nat),
      ((saveFrame s cur regs).tasks u).wakeAtMs = (s.tasks u).wakeAtMs := by
    intro s cur
    cases cur with
    | none => rfl
    | some t => exact setTask_wakeAtMs (f := fun x => { x with rsp := regs }) rfl u
  rcases scheduleOnCpu_cases h hcpu regs now with
    ⟨_, heq⟩ | ⟨d, l, next, _, _, _, _, _, ⟨_, heq⟩ | ⟨cur, _, _, _, heq⟩⟩
  · rw [heq, hsave]
  · rw [heq, dispatch, setCurrent_tasks, setTask_wakeAtMs rfl, hsave, setRunq_tasks]
  · rw [heq, dispatch, setCurrent_tasks, setTask_wakeAtMs rfl, requeue, setRunq_tasks,
      setTask_wakeAtMs rfl, yieldTask, setTask_wakeAtMs rfl, setRunq_tasks]

/-- The scheduler neither wakes a task that sleeps nor makes one sleep. -/
theorem scheduleOnCpu_sleeping (h : Fits s p) (hcpu : cpu < smpMaxCpus) (regs now u : Nat) :
    ((scheduleOnCpu s cpu regs now).1.tasks u).state = .sleeping ↔
      (s.tasks u).state = .sleeping := by
  rcases scheduleOnCpu_state h hcpu regs now u with heq | ⟨hold, hnew⟩ | ⟨hold, hnew⟩
  · rw [heq]
  · rw [hold, hnew]
    simp
  · rw [hold, hnew]
    simp

/-- `t` sleeps, or executes its code and may be about to. -/
def Drowsy (m : Machine) (t : Nat) : Prop :=
  (m.sched.tasks t).state = .sleeping ∨ InCall m t

/-- What a step of the scheduler leaves alone. -/
structure Undisturbed (s s' : State) (m : Machine) (t : Nat) : Prop where
  sleeping : (s'.tasks t).state = .sleeping ↔ (s.tasks t).state = .sleeping
  wakeAt : Drowsy m t → (s'.tasks t).wakeAtMs = (s.tasks t).wakeAtMs

theorem Undisturbed.of_tasks_eq {s' : State} (h : s'.tasks t = s.tasks t) :
    Undisturbed s s' m t := by
  constructor
  · rw [h]
  · intro _
    rw [h]

/-- A task that neither sleeps before nor after a step may change its time, unless it is in a
call. -/
theorem Undisturbed.of_awake {s' : State} (hold : (m.sched.tasks t).state ≠ .sleeping)
    (hnew : (s'.tasks t).state ≠ .sleeping) (hcall : ¬InCall m t) :
    Undisturbed m.sched s' m t := by
  constructor
  · exact iff_of_false hnew hold
  · rintro (hsleep | hin)
    · exact absurd hsleep hold
    · exact absurd hin hcall

theorem InCall.not_of_state (h : (m.sched.tasks t).state.runnable = false) : ¬InCall m t := by
  intro hin
  have hrun := hin.runnable
  rw [h] at hrun
  cases hrun

theorem createTask_undisturbed (h : Placed m) (new : NewTask) (who : Pusher) (t : Nat) :
    Undisturbed m.sched (exec m (.create new who)).sched m t := by
  simp only [exec, createTask]
  cases hslot : reserveSlot m.sched with
  | none => exact .of_tasks_eq rfl
  | some out =>
    obtain ⟨slot, s'⟩ := out
    obtain ⟨_, _, hdead, htasks, _⟩ := reserveSlot_cases h.fits hslot
    dsimp only
    by_cases ht : t = slot
    · subst ht
      refine .of_awake ?_ ?_ (InCall.not_of_state ?_)
      · rw [hdead]
        simp
      · rw [setTask_self]
        simp
      · rw [hdead]
        rfl
    · apply Undisturbed.of_tasks_eq
      rw [setTask_of_ne _ _ ht, htasks]

theorem unblockTask_tasks_of_ne (s : State) {u : Nat} (hu : t ≠ u) :
    (unblockTask s u).2.tasks t = s.tasks t := by
  unfold unblockTask
  split_ifs
  · rfl
  · rfl
  · cases parkedOn s u <;> exact Function.update_of_ne hu _ _

/-- A task that sleeps or is blocked can run when `unblock_task` is done with it. -/
theorem unblockTask_self (ht : t < maxTasks)
    (hst : (s.tasks t).state = .sleeping ∨ (s.tasks t).state = .blocked) :
    ((unblockTask s t).2.tasks t).state.runnable = true := by
  unfold unblockTask
  rw [if_neg (not_le.mpr ht), if_neg]
  · cases parkedOn s t with
    | none =>
      dsimp only
      rw [setTask_self]
      rfl
    | some c =>
      dsimp only
      rw [setTask_self]
      rfl
  · rintro ⟨h1, h2⟩
    exact hst.elim h1 h2

theorem unblockTask_undisturbed (h : Placed m) {u : Nat}
    (hu : (m.sched.tasks u).state ≠ .sleeping) (t : Nat) :
    Undisturbed m.sched (exec m (.unblock u)).sched m t := by
  simp only [exec]
  by_cases ht : t = u
  · subst ht
    by_cases hb : (m.sched.tasks t).state = .blocked
    · refine .of_awake hu ?_ (InCall.not_of_state ?_)
      · have hlt := h.fits.lt_maxTasks (t := t) (by rw [hb]; simp)
        have hrun := unblockTask_self hlt (Or.inr hb)
        intro hc
        rw [hc] at hrun
        cases hrun
      · rw [hb]
        rfl
    · apply Undisturbed.of_tasks_eq
      unfold unblockTask
      rw [if_pos (c := (m.sched.tasks t).state ≠ .sleeping ∧ _) ⟨hu, hb⟩, ite_self]
  · exact .of_tasks_eq (unblockTask_tasks_of_ne m.sched ht)

theorem push_undisturbed (h : Placed m) {i now : Nat} (hop : (Op.push i cpu now).Enabled m)
    (t : Nat) : Undisturbed m.sched (exec m (.push i cpu now)).sched m t := by
  obtain ⟨x, who, hx, _, hpush⟩ := h.pushReady hop
  simp only [exec, hx, hpush]
  constructor
  · rw [setRunq_tasks, setTask_state rfl]
  · intro _
    rw [setRunq_tasks, setTask_wakeAtMs rfl]

theorem blockPrepare_undisturbed (m : Machine) (cpu : Nat) {st : TaskState} (hst : st ≠ .sleeping)
    (t : Nat) : Undisturbed m.sched (blockPrepare m.sched cpu st).2 m t := by
  unfold blockPrepare
  split_ifs
  · exact .of_tasks_eq rfl
  · cases hcur : curRunning m.sched cpu with
    | none => exact .of_tasks_eq rfl
    | some x =>
      dsimp only
      constructor
      · by_cases ht : t = x
        · subst ht
          have hrun := (curRunning_eq_some hcur).2.2
          rw [setTask_self, hrun]
          simp [hst]
        · rw [setTask_of_ne _ _ ht]
      · intro _
        rw [setTask_wakeAtMs rfl]

/-- A step of the scheduler neither wakes a sleeping task nor makes one sleep, and leaves the time
of a task that sleeps or is about to. -/
theorem exec_undisturbed (h : Placed q.machine) {op : Op} (hop : op.Enabled q.machine)
    (hown : OnOwnCpu q.machine op) (hallow : q.Allows op) (t : Nat) :
    Undisturbed q.machine.sched (exec q.machine op).sched q.machine t := by
  cases op with
  | schedule cpu regs now =>
    have hcpu := h.lt_smpMaxCpus hop.1
    constructor
    · exact scheduleOnCpu_sleeping h.fits hcpu regs now t
    · intro _
      exact scheduleOnCpu_wakeAtMs h.fits hcpu regs now t
  | create new who => exact createTask_undisturbed h new who t
  | unblock u => exact unblockTask_undisturbed h hallow t
  | push i cpu now => exact push_undisturbed h hop t
  | block cpu st => exact blockPrepare_undisturbed q.machine cpu hallow.1 t
  | exitEnter cpu =>
    obtain ⟨_, x, hcur, _⟩ := hop
    simp only [exec, hcur]
    exact .of_tasks_eq rfl
  | exitLocked cpu =>
    obtain ⟨x, hcur, _, heq⟩ := exec_exitLocked h hop hown
    have hrun : (q.machine.sched.tasks x).state = .running := by
      obtain ⟨_, y, hy, _⟩ := hop
      obtain ⟨hcury, _, hrun⟩ := curRunning_eq_some hy
      rw [hcur] at hcury
      rw [Option.some.inj hcury]
      exact hrun
    rw [heq]
    constructor
    · dsimp only
      rw [setCurrent_tasks]
      by_cases ht : t = x
      · subst ht
        rw [setTask_self, hrun]
        simp
      · rw [setTask_of_ne _ _ ht]
    · intro _
      dsimp only
      rw [setCurrent_tasks, setTask_wakeAtMs rfl]
  | idle cpu => exact .of_tasks_eq rfl

/-! ## The invariant -/

namespace Sleepq

structure Inv (q : Sleepq) : Prop where
  placed : Placed q.machine
  call : ∀ t, q.call t ≠ .outside → InCall q.machine t ∧ 0 < q.due t
  marking : ∀ t target, q.call t = .marking target → target = q.due t
  preparing : ∀ t, q.call t = .preparing → q.wakeAt t = q.due t
  sleeping : ∀ t, q.state t = .sleeping → q.wakeAt t = q.due t ∧ 0 < q.due t
  wake : ∀ t ∈ q.wake, q.state t = .sleeping ∧ q.due t ≤ q.nowMs
  nodup : q.wake.Nodup

/-- What the invariant says of one task. -/
structure Dozes (q : Sleepq) (t : Nat) : Prop where
  call : q.call t ≠ .outside → InCall q.machine t ∧ 0 < q.due t
  marking : ∀ target, q.call t = .marking target → target = q.due t
  preparing : q.call t = .preparing → q.wakeAt t = q.due t
  sleeping : q.state t = .sleeping → q.wakeAt t = q.due t ∧ 0 < q.due t

/-- A step that changes one task, which is not one of those that are about to be woken. -/
theorem Inv.of_task (h : q.Inv) {q' : Sleepq} (t : Nat) (hplaced : Placed q'.machine)
    (hother : ∀ u, u ≠ t → q'.call u = q.call u ∧ q'.due u = q.due u ∧ q'.state u = q.state u ∧
      q'.wakeAt u = q.wakeAt u)
    (hin : ∀ u, u ≠ t → InCall q.machine u → InCall q'.machine u) (hself : q'.Dozes t)
    (hwake : ∀ u ∈ q'.wake, u ≠ t ∧ u ∈ q.wake) (hnodup : q'.wake.Nodup)
    (hnow : q'.nowMs = q.nowMs) : q'.Inv := by
  refine ⟨hplaced, fun u hu => ?_, fun u target hu => ?_, fun u hu => ?_, fun u hu => ?_,
    fun u hu => ?_, hnodup⟩
  · by_cases hut : u = t
    · subst hut
      exact hself.call hu
    · obtain ⟨hcall, hdue, -, -⟩ := hother u hut
      rw [hcall] at hu
      rw [hdue]
      exact ⟨hin u hut (h.call u hu).1, (h.call u hu).2⟩
  · by_cases hut : u = t
    · subst hut
      exact hself.marking target hu
    · obtain ⟨hcall, hdue, -, -⟩ := hother u hut
      rw [hcall] at hu
      rw [hdue]
      exact h.marking u target hu
  · by_cases hut : u = t
    · subst hut
      exact hself.preparing hu
    · obtain ⟨hcall, hdue, -, hat⟩ := hother u hut
      rw [hcall] at hu
      rw [hat, hdue]
      exact h.preparing u hu
  · by_cases hut : u = t
    · subst hut
      exact hself.sleeping hu
    · obtain ⟨-, hdue, hstate, hat⟩ := hother u hut
      rw [hstate] at hu
      rw [hat, hdue]
      exact h.sleeping u hu
  · obtain ⟨hut, hmem⟩ := hwake u hu
    obtain ⟨-, hdue, hstate, -⟩ := hother u hut
    rw [hstate, hdue, hnow]
    exact h.wake u hmem

/-- A task that can run is not about to be woken. -/
theorem Inv.ne_of_wake (h : q.Inv) (hrun : (q.state t).runnable = true) {u : Nat}
    (hu : u ∈ q.wake) : u ≠ t ∧ u ∈ q.wake := by
  refine ⟨?_, hu⟩
  rintro rfl
  rw [(h.wake u hu).1] at hrun
  cases hrun

theorem start_inv {online : Nat} (h : 0 < online) (hmax : online ≤ smpMaxCpus) :
    (start online).Inv where
  placed := start_placed h hmax
  call t ht := absurd rfl ht
  marking t target ht := by cases ht
  preparing t ht := by cases ht
  sleeping t ht := by
    exfalso
    by_cases h0 : t = 0
    · subst h0
      cases ht
    · rw [state, start, Sched.start, taskingInit_tasks online h0] at ht
      cases ht
  wake t ht := by cases ht
  nodup := List.nodup_nil

/-- A step of the scheduler that only ticks and calls may not take. -/
theorem Inv.sched (h : q.Inv) {op : Op} (hop : (TickOp.sched op).Enabled q) :
    (q.step (.sched op)).Inv := by
  obtain ⟨hop, hown, hallow⟩ := hop
  have hsame := exec_undisturbed h.placed hop hown hallow
  -- a task in a call neither blocks nor exits
  have hcall : ∀ t, q.call t ≠ .outside → InCall (exec q.machine op) t := by
    intro t ht
    refine exec_inCall h.placed hop hown (h.call t ht).1 fun cpu hcpu hcur => ht ?_
    cases op with
    | block c st =>
      obtain rfl := Option.some.inj hcpu
      exact hallow.2 t hcur
    | exitEnter c =>
      obtain rfl := Option.some.inj hcpu
      exact hallow t hcur
    | schedule => cases hcpu
    | create => cases hcpu
    | unblock => cases hcpu
    | push => cases hcpu
    | exitLocked => cases hcpu
    | idle => cases hcpu
  refine ⟨exec_placed h.placed hop hown, fun t ht => ⟨hcall t ht, (h.call t ht).2⟩, h.marking,
    fun t ht => ?_, fun t ht => ?_, fun t ht => ?_, h.nodup⟩
  · refine ((hsame t).wakeAt (Or.inr (h.call t ?_).1)).trans (h.preparing t ht)
    intro hc
    rw [show q.call t = .preparing from ht] at hc
    cases hc
  · have hold := (hsame t).sleeping.mp ht
    exact ⟨((hsame t).wakeAt (Or.inl hold)).trans (h.sleeping t hold).1, (h.sleeping t hold).2⟩
  · exact ⟨(hsame t).sleeping.mpr (h.wake t ht).1, (h.wake t ht).2⟩

theorem step_sleep {ms now : Nat} (ht : liveCurrent q.machine.sched cpu = some t) :
    q.step (.sleep cpu ms now) =
      { q.setCall t (.marking (now + ms)) with due := Function.update q.due t (now + ms) } := by
  simp only [step, ht]

theorem liveCurrent_of_curRunning (ht : curRunning s cpu = some t) :
    liveCurrent s cpu = some t :=
  (Option.filter_eq_some_iff.mp ht).1

/-- The caller runs, so it is none of the tasks that are about to be woken. -/
theorem Inv.sleep (h : q.Inv) {ms now : Nat} (hop : (TickOp.sleep cpu ms now).Enabled q) :
    (q.step (.sleep cpu ms now)).Inv := by
  obtain ⟨hms, hlt, t, hcur, hcall, hexit⟩ := hop
  rw [step_sleep (liveCurrent_of_curRunning hcur)]
  have hrun := (curRunning_eq_some hcur).2.2
  have hin : InCall q.machine t := by
    refine ⟨?_, ?_, hexit⟩
    · rw [hrun]
      rfl
    · have hq := h.placed.fits.queue t
      rw [hrun, if_neg (by simp)] at hq
      omega
  refine h.of_task t h.placed (fun u hut => ⟨Function.update_of_ne hut _ _,
    Function.update_of_ne hut _ _, rfl, rfl⟩) (fun _ _ hu => hu) ⟨fun _ => ⟨hin, ?_⟩,
    fun target hu => ?_, fun hu => ?_, fun hu => ?_⟩ (fun u hu => h.ne_of_wake hin.runnable hu)
    h.nodup rfl
  · simp only [Function.update_self]
    omega
  · simp only [setCall, Function.update_self, Dozing.marking.injEq] at hu ⊢
    exact hu.symm
  · simp only [setCall, Function.update_self, reduceCtorEq] at hu
  · rw [show (q.machine.sched.tasks t).state = .sleeping from hu] at hrun
    cases hrun

@[simp] theorem setWakeAt_state (m : Machine) (t target u : Nat) :
    ((setWakeAt m t target).sched.tasks u).state = (m.sched.tasks u).state :=
  setTask_state (f := fun x => { x with wakeAtMs := target }) rfl u

@[simp] theorem setWakeAt_self (m : Machine) (t target : Nat) :
    ((setWakeAt m t target).sched.tasks t).wakeAtMs = target := by
  rw [setWakeAt, setTask_self]

theorem setWakeAt_of_ne (m : Machine) {t u : Nat} (target : Nat) (hu : u ≠ t) :
    (setWakeAt m t target).sched.tasks u = m.sched.tasks u :=
  Function.update_of_ne hu _ _

theorem setWakeAt_placed (h : Placed m) (t target : Nat) : Placed (setWakeAt m t target) := by
  refine ⟨fits_waiting (p := waiting m) ?_ rfl fun _ => rfl, h.idle, h.exit⟩
  exact h.fits.setTask (f := fun x => { x with wakeAtMs := target }) (fun _ _ => rfl)
    (h.fits.queue t) (h.fits.cpu t) (h.fits.unused t) (h.fits.frame t)

theorem setWakeAt_inCall {u : Nat} (h : InCall m u) (t target : Nat) :
    InCall (setWakeAt m t target) u where
  runnable := by
    rw [setWakeAt_state]
    exact h.runnable
  waiting := h.waiting
  exit := h.exit

theorem Inv.mark (h : q.Inv) (hop : (TickOp.mark cpu).Enabled q) : (q.step (.mark cpu)).Inv := by
  obtain ⟨hlt, t, hcur, hc⟩ := hop
  obtain ⟨target, hcall⟩ : ∃ target, q.call t = .marking target := by
    cases hcall : q.call t with
    | outside => rw [hcall] at hc; cases hc
    | marking target => exact ⟨target, rfl⟩
    | preparing => rw [hcall] at hc; cases hc
  have hstep : q.step (.mark cpu) =
      { q.setCall t .preparing with machine := setWakeAt q.machine t target } := by
    simp only [step, hcur, hcall]
  have hin := h.call t (by rw [hcall]; simp)
  have htarget := h.marking t target hcall
  rw [hstep]
  refine h.of_task t (setWakeAt_placed h.placed t target) (fun u hut => ?_)
    (fun u _ hu => setWakeAt_inCall hu t target) ⟨fun _ => ⟨setWakeAt_inCall hin.1 t target, hin.2⟩,
    fun x hu => ?_, fun _ => ?_, fun hu => ?_⟩ (fun u hu => h.ne_of_wake hin.1.runnable hu)
    h.nodup rfl
  · have hsame := setWakeAt_of_ne q.machine target hut
    exact ⟨Function.update_of_ne hut _ _, rfl, congrArg Task.state hsame,
      congrArg Task.wakeAtMs hsame⟩
  · simp only [setCall, Function.update_self, reduceCtorEq] at hu
  · exact (setWakeAt_self q.machine t target).trans htarget
  · -- the caller does not sleep yet
    have hrun := hin.1.runnable
    rw [(setWakeAt_state q.machine t target t).symm.trans hu] at hrun
    cases hrun

/-- `block_prepare` finds the caller running. -/
theorem Inv.prepare_eq (h : q.Inv) (hlt : cpu < q.machine.sched.online)
    (hcur : liveCurrent q.machine.sched cpu = some t) (hcall : q.call t ≠ .outside) :
    curRunning q.machine.sched cpu = some t ∧ exec q.machine (.block cpu .sleeping) =
      { q.machine with
        sched := setTask q.machine.sched t fun x => { x with state := .sleeping } } := by
  have hcpu := h.placed.lt_smpMaxCpus hlt
  have hcurrent := (Option.filter_eq_some_iff.mp hcur).1
  have hrun : (q.machine.sched.tasks t).state = .running := by
    have hready := (h.placed.fits.current hcpu hcurrent).1
    have hin := (h.call t hcall).1.runnable
    cases hst : (q.machine.sched.tasks t).state with
    | running => rfl
    | ready => exact absurd hst hready
    | sleeping => rw [hst] at hin; cases hin
    | dead => rw [hst] at hin; cases hin
    | blocked => rw [hst] at hin; cases hin
  have hself : curRunning q.machine.sched cpu = some t := by
    unfold curRunning curIn
    rw [hcur, Option.filter_some, hrun]
    rfl
  refine ⟨hself, ?_⟩
  simp only [exec, blockPrepare, hself]
  rw [if_neg (by simp)]

theorem Inv.prepare (h : q.Inv) (hop : (TickOp.prepare cpu).Enabled q) :
    (q.step (.prepare cpu)).Inv := by
  obtain ⟨hlt, t, hcur, hc⟩ := hop
  have hcall : q.call t = .preparing := by simpa using hc
  obtain ⟨hrun, hexec⟩ := h.prepare_eq hlt hcur (by rw [hcall]; simp)
  have hplaced : Placed (exec q.machine (.block cpu .sleeping)) := exec_placed h.placed hlt trivial
  have hin : ∀ u, u ≠ t → InCall q.machine u →
      InCall (exec q.machine (.block cpu .sleeping)) u := by
    intro u hut hu
    refine exec_inCall h.placed hlt trivial hu fun c hc hcur => ?_
    obtain rfl := Option.some.inj hc
    rw [hrun] at hcur
    exact hut (Option.some.inj hcur).symm
  have hother : ∀ u, u ≠ t →
      (exec q.machine (.block cpu .sleeping)).sched.tasks u = q.machine.sched.tasks u := by
    intro u hut
    rw [hexec]
    exact Function.update_of_ne hut _ _
  have hcaller := h.call t (by rw [hcall]; simp)
  have hstep : q.step (.prepare cpu) =
      { q.setCall t .outside with machine := exec q.machine (.block cpu .sleeping) } := by
    simp only [step, hcur]
  rw [hstep]
  refine h.of_task t hplaced (fun u hut => ⟨Function.update_of_ne hut _ _, rfl,
    congrArg Task.state (hother u hut), congrArg Task.wakeAtMs (hother u hut)⟩) hin
    ⟨fun hu => ?_, fun x hu => ?_, fun hu => ?_, fun _ => ⟨?_, hcaller.2⟩⟩
    (fun u hu => h.ne_of_wake hcaller.1.runnable hu) h.nodup rfl
  · simp only [setCall, Function.update_self, ne_eq, not_true_eq_false] at hu
  · simp only [setCall, Function.update_self, reduceCtorEq] at hu
  · simp only [setCall, Function.update_self, reduceCtorEq] at hu
  · refine Eq.trans ?_ (h.preparing t hcall)
    simp only [wakeAt, hexec, setTask_self]

theorem mem_dueTasks {now : Nat} : t ∈ dueTasks s now ↔ (t < maxTasks ∧ t < s.taskCount) ∧
    (s.tasks t).state = .sleeping ∧ (s.tasks t).wakeAtMs ≠ 0 ∧ (s.tasks t).wakeAtMs ≤ now := by
  simp only [dueTasks, List.mem_filter, List.mem_range, lt_min_iff, Bool.and_eq_true, beq_iff_eq,
    bne_iff_ne, decide_eq_true_eq, and_assoc]

theorem Inv.tick (h : q.Inv) (now : Nat) : (q.step (.tick now)).Inv := by
  refine ⟨h.placed, h.call, h.marking, h.preparing, h.sleeping, fun t ht => ?_,
    List.nodup_range.filter _⟩
  obtain ⟨_, hst, _, hle⟩ := mem_dueTasks.mp ht
  exact ⟨hst, (h.sleeping t hst).1 ▸ hle⟩

theorem step_wakeNext {wake : List Nat} (hw : q.wake = t :: wake) : q.step .wakeNext =
    { q with machine := exec q.machine (.unblock t), wake := wake } := by
  simp only [step, hw]

theorem Inv.wakeNext (h : q.Inv) {wake : List Nat} (hw : q.wake = t :: wake) :
    (q.step .wakeNext).Inv ∧ (q.step .wakeNext).state t ≠ .sleeping ∧
      ((q.step .wakeNext).state t).runnable = true := by
  have hmem := h.wake t (by rw [hw]; exact List.mem_cons_self)
  have hnodup := h.nodup
  rw [hw, List.nodup_cons] at hnodup
  have hrun : ((unblockTask q.machine.sched t).2.tasks t).state.runnable = true := by
    have hst : (q.machine.sched.tasks t).state = .sleeping := hmem.1
    refine unblockTask_self (h.placed.fits.lt_maxTasks ?_) (Or.inl hst)
    rw [hst]
    simp
  have hawake : ((unblockTask q.machine.sched t).2.tasks t).state ≠ .sleeping := by
    intro hc
    rw [hc] at hrun
    cases hrun
  have hother : ∀ u, u ≠ t →
      (exec q.machine (.unblock t)).sched.tasks u = q.machine.sched.tasks u :=
    fun u hu => unblockTask_tasks_of_ne q.machine.sched hu
  -- the task sleeps, so it is in no call
  have houtside : q.call t = .outside := by
    by_contra hc
    refine InCall.not_of_state ?_ (h.call t hc).1
    rw [show (q.machine.sched.tasks t).state = .sleeping from hmem.1]
    rfl
  have hplaced : Placed (exec q.machine (.unblock t)) := exec_placed h.placed trivial trivial
  rw [step_wakeNext hw]
  refine ⟨h.of_task t hplaced (fun u hut => ⟨rfl, rfl, congrArg Task.state (hother u hut),
    congrArg Task.wakeAtMs (hother u hut)⟩) (fun u _ hu => unblockTask_inCall hu t)
    ⟨fun hu => absurd houtside hu, fun target hu => ?_, fun hu => ?_, fun hu => absurd hu hawake⟩
    (fun u hu => ⟨?_, ?_⟩) hnodup.2 rfl, hawake, hrun⟩
  · cases houtside.symm.trans hu
  · cases houtside.symm.trans hu
  · rintro rfl
    exact hnodup.1 hu
  · rw [hw]
    exact List.mem_cons_of_mem _ hu

theorem Inv.step (h : q.Inv) {op : TickOp} (hop : op.Enabled q) : (q.step op).Inv := by
  cases op with
  | sched op => exact h.sched hop
  | sleep cpu ms now => exact h.sleep hop
  | mark cpu => exact h.mark hop
  | prepare cpu => exact h.prepare hop
  | tick now => exact h.tick now
  | wakeNext =>
    obtain ⟨t, wake, hw⟩ := List.exists_cons_of_ne_nil hop
    exact (h.wakeNext hw).1

theorem Reach.inv (h : Reach q) : q.Inv := by
  induction h with
  | start hpos hmax => exact start_inv hpos hmax
  | step _ hop ih => exact ih.step hop

/-! ## Waking -/

/-- Only a turn of the second loop makes a task that sleeps stop sleeping. -/
theorem Inv.wakes (h : q.Inv) {op : TickOp} (hop : op.Enabled q) (hold : q.state t = .sleeping)
    (hnew : (q.step op).state t ≠ .sleeping) :
    op = .wakeNext ∧ ∃ wake, q.wake = t :: wake := by
  cases op with
  | sched op =>
    obtain ⟨hen, hown, hallow⟩ := hop
    exact absurd ((exec_undisturbed h.placed hen hown hallow t).sleeping.mpr hold) hnew
  | sleep cpu ms now =>
    obtain ⟨_, _, x, hcur, _⟩ := hop
    rw [step_sleep (liveCurrent_of_curRunning hcur)] at hnew
    exact absurd hold hnew
  | mark cpu =>
    have hkeep : (q.step (.mark cpu)).state t = q.state t := by
      simp only [Sleepq.step]
      split
      · rfl
      · split
        · exact setWakeAt_state _ _ _ _
        · rfl
    exact absurd (hkeep.trans hold) hnew
  | prepare cpu =>
    obtain ⟨hlt, x, hcur, hc⟩ := hop
    have hcall : q.call x = .preparing := by simpa using hc
    obtain ⟨_, hexec⟩ := h.prepare_eq hlt hcur (by rw [hcall]; simp)
    refine absurd ?_ hnew
    simp only [Sleepq.step, hcur, Sleepq.state, hexec]
    by_cases hx : t = x
    · subst hx
      rw [setTask_self]
    · rw [setTask_of_ne _ _ hx]
      exact hold
  | tick now => exact absurd hold hnew
  | wakeNext =>
    obtain ⟨x, wake, hw⟩ := List.exists_cons_of_ne_nil hop
    refine ⟨rfl, wake, ?_⟩
    by_cases hx : t = x
    · subst hx
      exact hw
    · rw [step_wakeNext hw] at hnew
      have hsame := unblockTask_tasks_of_ne q.machine.sched hx
      exact absurd ((congrArg Task.state hsame).trans hold) hnew

/-- A task that a tick has found stays in `wake` until it is woken. -/
theorem Inv.mem_wake (h : q.Inv) {op : TickOp} (hop : op.Enabled q) (ht : t ∈ q.wake) :
    t ∈ (q.step op).wake ∨ ((q.step op).state t).runnable = true := by
  cases op with
  | sched op => exact Or.inl ht
  | sleep cpu ms now =>
    obtain ⟨_, _, x, hcur, _⟩ := hop
    rw [step_sleep (liveCurrent_of_curRunning hcur)]
    exact Or.inl ht
  | mark cpu =>
    left
    simp only [Sleepq.step]
    split
    · exact ht
    · split <;> exact ht
  | prepare cpu =>
    left
    simp only [Sleepq.step]
    split <;> exact ht
  | tick now =>
    rw [hop.1] at ht
    cases ht
  | wakeNext =>
    obtain ⟨x, wake, hw⟩ := List.exists_cons_of_ne_nil hop
    by_cases hx : t = x
    · subst hx
      exact Or.inr (h.wakeNext hw).2.2
    · rw [step_wakeNext hw]
      rw [hw, List.mem_cons] at ht
      exact Or.inl (ht.resolve_left hx)

/-- When the loop is through, each task that was in `wake` has been able to run. -/
theorem Inv.woken (h : q.Inv) {ops : List TickOp} (hr : q.Runs ops) (ht : t ∈ q.wake)
    (hdone : (ops.foldl Sleepq.step q).wake = []) :
    ∃ n ≤ ops.length, (((ops.take n).foldl Sleepq.step q).state t).runnable = true := by
  induction ops generalizing q with
  | nil =>
    rw [List.foldl_nil] at hdone
    rw [hdone] at ht
    cases ht
  | cons op ops ih =>
    rcases h.mem_wake hr.1 ht with hmem | hrun
    · obtain ⟨n, hn, hrun⟩ := ih (h.step hr.1) hr.2 hmem hdone
      exact ⟨n + 1, Nat.succ_le_succ hn, hrun⟩
    · exact ⟨1, Nat.succ_le_succ (Nat.zero_le _), hrun⟩

end Sleepq

/-- What `task_sleep_ms` and `sleepq_check_wakeups` promise in a state. -/
structure SleepsUntilDue (q : Sleepq) : Prop where
  time : ∀ t, q.state t = .sleeping → q.wakeAt t ≠ 0 ∧ q.wakeAt t = q.due t
  begins : ∀ cpu t, (TickOp.prepare cpu).Enabled q →
    liveCurrent q.machine.sched cpu = some t → (q.step (.prepare cpu)).state t = .sleeping
  not_early : ∀ op t, op.Enabled q → q.state t = .sleeping → (q.step op).state t ≠ .sleeping →
    op = .wakeNext ∧ q.wake.head? = some t ∧ q.due t ≤ q.nowMs ∧
      ((q.step op).state t).runnable = true
  found : ∀ now t, q.state t = .sleeping → q.wakeAt t ≤ now → t ∈ (q.step (.tick now)).wake
  woken : ∀ ops t, q.Runs ops → t ∈ q.wake → (ops.foldl Sleepq.step q).wake = [] →
    ∃ n ≤ ops.length, (((ops.take n).foldl Sleepq.step q).state t).runnable = true
  placed : Membership q.machine

/-- In every run, a sleeping task has a time, wakes only in a tick at or after that time, and
wakes in each tick that finds the time reached. -/
theorem sleeps_until_due (h : q.Reach) : SleepsUntilDue q := by
  have hinv := h.inv
  refine ⟨fun t ht => ?_, fun cpu t hop hcur => ?_, fun op t hop hold hnew => ?_,
    fun now t ht hle => ?_, fun ops t hr ht hdone => hinv.woken hr ht hdone,
    hinv.placed.membership⟩
  · obtain ⟨heq, hpos⟩ := hinv.sleeping t ht
    refine ⟨?_, heq⟩
    omega
  · obtain ⟨hlt, x, hx, hc⟩ := hop
    obtain rfl := Option.some.inj (hcur.symm.trans hx)
    have hcall : q.call t = .preparing := by simpa using hc
    obtain ⟨_, hexec⟩ := hinv.prepare_eq hlt hcur (by rw [hcall]; simp)
    simp only [Sleepq.step, hcur, Sleepq.state, hexec, setTask_self]
  · obtain ⟨rfl, wake, hw⟩ := hinv.wakes hop hold hnew
    refine ⟨rfl, by rw [hw]; rfl, ?_, (hinv.wakeNext hw).2.2⟩
    exact (hinv.wake t (by rw [hw]; exact List.mem_cons_self)).2
  · obtain ⟨heq, hpos⟩ := hinv.sleeping t ht
    have hst : (q.machine.sched.tasks t).state ≠ .dead := by
      rw [show (q.machine.sched.tasks t).state = .sleeping from ht]
      simp
    refine Sleepq.mem_dueTasks.mpr ⟨⟨hinv.placed.fits.lt_maxTasks hst, hinv.placed.fits.live hst⟩, ht, ?_,
      hle⟩
    rw [show (q.machine.sched.tasks t).wakeAtMs = q.due t from heq]
    omega

/-- Task 1 runs on CPU 1 and sleeps from the time 0 on for 10 ms; it is on its CPU when the tick
comes. -/
def dozeRun : List TickOp :=
  [.sched (.create smallTask .createTaskPrio), .sched (.push 0 1 0), .sched (.schedule 1 1 0),
    .sleep 1 10 0, .mark 1, .tick 10, .prepare 1, .tick 11]

theorem Sleepq.Reach.runs {ops : List TickOp} :
    ∀ {q : Sleepq}, q.Reach → q.Runs ops → (ops.foldl Sleepq.step q).Reach := by
  induction ops with
  | nil => exact fun h _ => h
  | cons op ops ih => exact fun h hr => ih (h.step hr.1) hr.2

theorem sleeps_until_due_dozeRun :
    let q := dozeRun.foldl Sleepq.step (Sleepq.start 2)
    q.state 1 = .sleeping ∧ q.wakeAt 1 = q.due 1 ∧ ((q.step .wakeNext).state 1).runnable = true := by
  intro q
  have hreach : q.Reach := (Sleepq.Reach.start (by decide) (by decide)).runs (by decide)
  have hst : q.state 1 = .sleeping := by decide
  have h := sleeps_until_due hreach
  exact ⟨hst, (h.time 1 hst).2,
    (h.not_early .wakeNext 1 (by decide) hst (by decide)).2.2.2⟩

end Kyuzen.Sched
