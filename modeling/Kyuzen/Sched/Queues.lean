import Kyuzen.Sched.Fits

/-!
# Run-queue membership

The sections of the scheduler as steps of a machine with any number of CPUs. `create_task_prio`,
`create_user_task` and `unblock_task` mark a task in one step and push it on a queue in a later
one (`pending`); `task_exit` reads the index of its CPU in one step (`exitCpu`) and enters its
locked section in a later one.

In every run the tasks are where their states say, provided that a task in `task_exit` has not
moved to another CPU between its two steps (`OnOwnCpu`): `run_queue_membership`. In
`staleExit` it has moved.
-/

namespace Kyuzen.Sched

open Lib.Places

/-! ## The machine -/

structure Machine where
  sched : State
  pending : List (Nat × Pusher)
  /-- The `cpu_id` of a task that is in `task_exit`, before the locked section. -/
  exitCpu : Nat → Option Nat
  /-- The CPU is behind the locked section of `task_exit`, or in `scheduler_idle_loop`. -/
  idling : Nat → Bool

inductive Op where
  | schedule (cpu regs now : Nat)
  | create (new : NewTask) (who : Pusher)
  | unblock (t : Nat)
  | push (i cpu now : Nat)
  | block (cpu : Nat) (st : TaskState)
  | exitEnter (cpu : Nat)
  | exitLocked (cpu : Nat)
  | idle (cpu : Nat)

/-- The code can take the step. -/
def Op.Enabled (m : Machine) : Op → Prop
  | .schedule cpu regs _ => cpu < m.sched.online ∧ regs ≠ 0
  | .create _ who => who ≠ .unblockTask
  | .unblock _ => True
  | .push i cpu _ => i < m.pending.length ∧ cpu < m.sched.online
  | .block cpu _ => cpu < m.sched.online
  | .exitEnter cpu => cpu < m.sched.online ∧ ∃ t, curRunning m.sched cpu = some t ∧ t ≠ 0
  | .exitLocked cpu =>
    cpu < m.sched.online ∧ ∃ t, curRunning m.sched cpu = some t ∧ (m.exitCpu t).isSome
  | .idle cpu => cpu < m.sched.online ∧ m.idling cpu = true

instance (m : Machine) : (op : Op) → Decidable (op.Enabled m)
  | .schedule cpu regs _ => inferInstanceAs (Decidable (cpu < m.sched.online ∧ regs ≠ 0))
  | .create _ who => inferInstanceAs (Decidable (who ≠ .unblockTask))
  | .unblock _ => inferInstanceAs (Decidable True)
  | .push i cpu _ => inferInstanceAs (Decidable (i < m.pending.length ∧ cpu < m.sched.online))
  | .block cpu _ => inferInstanceAs (Decidable (cpu < m.sched.online))
  | .exitEnter cpu => inferInstanceAs
    (Decidable (cpu < m.sched.online ∧ ∃ t, curRunning m.sched cpu = some t ∧ t ≠ 0))
  | .exitLocked cpu => inferInstanceAs (Decidable
    (cpu < m.sched.online ∧ ∃ t, curRunning m.sched cpu = some t ∧ (m.exitCpu t).isSome))
  | .idle cpu => inferInstanceAs (Decidable (cpu < m.sched.online ∧ m.idling cpu = true))

def exec (m : Machine) : Op → Machine
  | .schedule cpu regs now =>
    let s := (scheduleOnCpu m.sched cpu regs now).1
    { m with
      sched := s
      idling := Function.update m.idling cpu (m.idling cpu && (s.current cpu).isNone) }
  | .create new who =>
    let out := createTask m.sched new
    { m with
      sched := out.sched
      pending := m.pending ++ (out.slot.map fun t => (t, who)).toList }
  | .unblock t =>
    let out := unblockTask m.sched t
    { m with
      sched := out.2
      pending := if out.1 = .push then m.pending ++ [(t, .unblockTask)] else m.pending }
  | .push i cpu now =>
    match m.pending[i]? with
    | none => m
    | some (t, who) =>
      { m with
        sched := (pushReady m.sched who t cpu now).1
        pending := m.pending.eraseIdx i }
  | .block cpu st => { m with sched := (blockPrepare m.sched cpu st).2 }
  | .exitEnter cpu =>
    match curRunning m.sched cpu with
    | none => m
    | some t => { m with exitCpu := Function.update m.exitCpu t (some cpu) }
  | .exitLocked cpu =>
    match curRunning m.sched cpu with
    | none => m
    | some t =>
      { m with
        sched := (taskExit m.sched ((m.exitCpu t).getD cpu)).sched
        exitCpu := Function.update m.exitCpu t none
        idling := Function.update m.idling cpu true }
  | .idle cpu => { m with sched := idleWrite m.sched cpu }

/-- After `tasking_init`: the first CPU runs task 0, the others are idle. -/
def start (online : Nat) : Machine :=
  ⟨taskingInit online, [], fun _ => none, fun cpu => cpu ≠ 0⟩

/-- The states of the runs whose steps all meet `P`. -/
inductive Reach (P : Machine → Op → Prop) : Machine → Prop
  | start {online : Nat} (h : 0 < online) (hmax : online ≤ smpMaxCpus) : Reach P (start online)
  | step {m : Machine} {op : Op} (h : Reach P m) (hop : op.Enabled m) (hp : P m op) :
    Reach P (exec m op)

/-! ## The invariant -/

/-- How often `t` is about to be pushed. -/
def waiting (m : Machine) (t : Nat) : Nat := (m.pending.map Prod.fst).count t

structure Placed (m : Machine) : Prop where
  fits : Fits m.sched (waiting m)
  idle : ∀ cpu, m.idling cpu = true → m.sched.current cpu = none
  exit : ∀ t, (m.exitCpu t).isSome → t ≠ 0

variable {m : Machine} {cpu t : Nat}

/-- A task in `task_exit` is still on the CPU whose index it has read. -/
def OnOwnCpu (m : Machine) : Op → Prop
  | .exitLocked cpu => ∀ t, curRunning m.sched cpu = some t → m.exitCpu t = some cpu
  | _ => True

instance (m : Machine) : (op : Op) → Decidable (OnOwnCpu m op)
  | .exitLocked cpu => inferInstanceAs
    (Decidable (∀ t, curRunning m.sched cpu = some t → m.exitCpu t = some cpu))
  | .schedule _ _ _ | .create _ _ | .unblock _ | .push _ _ _ | .block _ _ | .exitEnter _ | .idle _ =>
    inferInstanceAs (Decidable True)

theorem waiting_append (m : Machine) (x : Nat × Pusher) (u : Nat) :
    ((m.pending ++ [x]).map Prod.fst).count u =
      Function.update (waiting m) x.1 (waiting m x.1 + 1) u := by
  rw [List.map_append, List.count_append, List.map_singleton, List.count_singleton]
  by_cases hu : u = x.1
  · subst hu
    simp [waiting]
  · rw [Function.update_of_ne hu]
    simp [waiting, Ne.symm hu]

theorem waiting_eraseIdx {m : Machine} {i : Nat} {x : Nat × Pusher} (hx : m.pending[i]? = some x)
    (u : Nat) : ((m.pending.eraseIdx i).map Prod.fst).count u =
      Function.update (waiting m) x.1 (waiting m x.1 - 1) u := by
  obtain ⟨hi, heq⟩ := List.getElem?_eq_some_iff.mp hx
  have hsplit : (m.pending.map Prod.fst).count u =
      ((m.pending.eraseIdx i).map Prod.fst).count u + if x.1 = u then 1 else 0 := by
    have hperm := (List.getElem_cons_eraseIdx_perm hi).map Prod.fst
    rw [← hperm.count_eq, heq, List.map_cons, List.count_cons]
    simp only [beq_iff_eq]
  by_cases hu : u = x.1
  · subst hu
    rw [Function.update_self]
    rw [if_pos rfl] at hsplit
    unfold waiting
    omega
  · rw [Function.update_of_ne hu]
    rw [if_neg (Ne.symm hu)] at hsplit
    unfold waiting
    omega

theorem scheduleOnCpu_current_of_ne {s : State} {p : Nat → Nat} (h : Fits s p)
    (hcpu : cpu < smpMaxCpus) (regs now : Nat) {c : Nat} (hc : c ≠ cpu) :
    (scheduleOnCpu s cpu regs now).1.current c = s.current c := by
  rcases scheduleOnCpu_cases h hcpu regs now with
    ⟨_, heq⟩ | ⟨d, l, next, _, _, _, _, _, ⟨_, heq⟩ | ⟨cur, _, _, _, heq⟩⟩
  · rw [heq, saveFrame_current]
  · rw [heq]
    exact (Function.update_of_ne hc _ _).trans (congrFun (saveFrame_current _ _ _) c)
  · rw [heq]
    exact Function.update_of_ne hc _ _

theorem Placed.lt_smpMaxCpus (h : Placed m) (hcpu : cpu < m.sched.online) : cpu < smpMaxCpus :=
  lt_of_lt_of_le hcpu h.fits.online.2

theorem fits_waiting {s : State} {p : Nat → Nat} (h : Fits s p) {m' : Machine}
    (hs : m'.sched = s) (hp : ∀ u, waiting m' u = p u) : Fits m'.sched (waiting m') := by
  rw [hs, funext hp]
  exact h

/-- A task is pushed that was marked before, and it finds room. -/
theorem Placed.pushReady (h : Placed m) {i now : Nat} (hop : (Op.push i cpu now).Enabled m) :
    ∃ x who, m.pending[i]? = some (x, who) ∧ 0 < waiting m x ∧
      Sched.pushReady m.sched who x cpu now =
        (setRunq (setTask m.sched x fun y => { y with enqueueMs := now }) cpu
          (m.sched.runq cpu ++ [x]), []) := by
  cases hx : m.pending[i]? with
  | none =>
    have hlen := List.getElem?_eq_none_iff.mp hx
    exact absurd hop.1 (by omega)
  | some out =>
    obtain ⟨x, who⟩ := out
    have hpos : 0 < waiting m x :=
      List.count_pos_iff.mpr (List.mem_map.mpr ⟨(x, who), List.mem_of_getElem? hx, rfl⟩)
    refine ⟨x, who, rfl, hpos, ?_⟩
    unfold Sched.pushReady
    rw [(h.fits.runqPush now (h.lt_smpMaxCpus hop.2) hpos).2.1]

theorem exec_placed (h : Placed m) {op : Op} (hop : op.Enabled m) (hown : OnOwnCpu m op) :
    Placed (exec m op) := by
  cases op with
  | schedule cpu regs now =>
    have hcpu := h.lt_smpMaxCpus hop.1
    refine ⟨h.fits.schedule hcpu hop.2 now, fun c hc => ?_, h.exit⟩
    by_cases heq : c = cpu
    · subst heq
      simp only [exec, Function.update_self, Bool.and_eq_true, Option.isNone_iff_eq_none] at hc
      exact hc.2
    · have hcur := scheduleOnCpu_current_of_ne h.fits hcpu regs now heq
      simp only [exec, Function.update_of_ne heq] at hc
      exact hcur.trans (h.idle c hc)
  | create new who =>
    rcases h.fits.create new with ⟨hslot, hsched⟩ | ⟨slot, hslot, hfits⟩
    · simp only [exec, hslot, hsched, Option.map_none, Option.toList_none, List.append_nil]
      exact h
    · refine ⟨fits_waiting hfits rfl fun u => ?_, fun c hc => ?_, h.exit⟩
      · simp only [exec, hslot, waiting, Option.map_some, Option.toList_some]
        exact waiting_append m (slot, who) u
      · exact (createTask_current m.sched new c).trans (h.idle c hc)
  | unblock t =>
    refine ⟨fits_waiting (h.fits.unblock t) rfl fun u => ?_, fun c hc => ?_, h.exit⟩
    · simp only [exec, waiting]
      split_ifs
      · exact waiting_append m (t, .unblockTask) u
      · rfl
    · exact (unblockTask_current m.sched t c).trans (h.idle c hc)
  | push i cpu now =>
    obtain ⟨x, who, hx, hpos, hpush⟩ := h.pushReady hop
    obtain ⟨_, _, hfits⟩ := h.fits.runqPush now (h.lt_smpMaxCpus hop.2) hpos
    simp only [exec, hx, hpush]
    exact ⟨fits_waiting hfits rfl (waiting_eraseIdx hx), h.idle, h.exit⟩
  | block cpu st =>
    refine ⟨h.fits.block (h.lt_smpMaxCpus hop) st, fun c hc => ?_, h.exit⟩
    exact (blockPrepare_current m.sched cpu st c).trans (h.idle c hc)
  | exitEnter cpu =>
    obtain ⟨_, t, hcur, ht⟩ := hop
    simp only [exec, hcur]
    refine ⟨h.fits, h.idle, fun u hu => ?_⟩
    dsimp only at hu
    by_cases hut : u = t
    · rw [hut]
      exact ht
    · rw [Function.update_of_ne hut] at hu
      exact h.exit u hu
  | exitLocked cpu =>
    obtain ⟨hlt, t, hcur, hsome⟩ := hop
    have hcpu := h.lt_smpMaxCpus hlt
    obtain ⟨hres, hfits⟩ := h.fits.taskExit hcpu hcur (h.exit t hsome)
    simp only [exec, hcur, hown t hcur, Option.getD_some]
    refine ⟨hfits, fun c hc => ?_, fun u hu => ?_⟩
    · dsimp only at hc ⊢
      by_cases heq : c = cpu
      · subst heq
        rw [hres]
        exact setCurrent_self _ _ _
      · rw [Function.update_of_ne heq] at hc
        rw [hres]
        exact (Function.update_of_ne heq _ _).trans (h.idle c hc)
    · dsimp only at hu
      by_cases hut : u = t
      · subst hut
        rw [Function.update_self] at hu
        cases hu
      · rw [Function.update_of_ne hut] at hu
        exact h.exit u hu
  | idle cpu =>
    have hcur := h.idle cpu hop.2
    have hsame : idleWrite m.sched cpu = m.sched := by
      have hself : Function.update m.sched.current cpu none = m.sched.current := by
        rw [← hcur]
        exact Function.update_eq_self cpu m.sched.current
      simp only [idleWrite, setCurrent, hself]
    simp only [exec, hsame]
    exact h

theorem taskingInit_tasks (online : Nat) {t : Nat} (ht : t ≠ 0) :
    (taskingInit online).tasks t = deadTask := by
  simp [taskingInit, ht]

theorem taskingInit_current (online : Nat) {c : Nat} (hc : c ≠ 0) :
    (taskingInit online).current c = none := by
  simp [taskingInit, hc]

theorem taskingInit_onCpus (online : Nat) : onCpus (taskingInit online) 0 = 1 := by
  rw [show onCpus (taskingInit online) 0 = onCpus (taskingInit 1) 0 from rfl]
  decide

theorem taskingInit_onCpus_of_ne (online : Nat) {t : Nat} (ht : t ≠ 0) :
    onCpus (taskingInit online) t = 0 := by
  refine total_eq_zero.mpr fun c _ hmem => ?_
  by_cases hc : c = 0
  · subst hc
    exact ht (by simpa [taskingInit] using hmem)
  · rw [taskingInit_current online hc] at hmem
    cases hmem

theorem taskingInit_fits {online : Nat} (h : 0 < online) (hmax : online ≤ smpMaxCpus) :
    Fits (taskingInit online) fun _ => 0 := by
  have hqueued : ∀ t, queued (taskingInit online) t = 0 := fun t =>
    total_eq_zero.mpr fun _ _ => by simp [taskingInit]
  have hcount : 1 ≤ maxTasks := by decide
  refine ⟨fun t => ?_, fun t => ?_, ⟨le_refl 1, hcount⟩, fun t ht => ?_, fun t hdead hzero => ?_,
    h, hmax⟩
  · rw [hqueued]
    by_cases ht : t = 0
    · subst ht
      rfl
    · rw [taskingInit_tasks online ht]
      rfl
  · by_cases ht : t = 0
    · subst ht
      rw [taskingInit_onCpus]
      exact ⟨le_refl 1, fun _ => rfl, fun hc => by rcases hc with hc | hc <;> cases hc⟩
    · rw [taskingInit_onCpus_of_ne online ht, taskingInit_tasks online ht]
      exact ⟨by omega, fun hc => (by cases hc), fun _ => rfl⟩
  · rw [taskingInit_tasks online (Nat.ne_of_gt ht)]
    rfl
  · by_cases ht : t = 0
    · subst ht
      rw [taskingInit_onCpus] at hzero
      cases hzero
    · rw [taskingInit_tasks online ht] at hdead
      exact absurd rfl hdead

theorem start_placed {online : Nat} (h : 0 < online) (hmax : online ≤ smpMaxCpus) :
    Placed (start online) := by
  refine ⟨taskingInit_fits h hmax, fun c hc => taskingInit_current online ?_, fun t ht => ?_⟩
  · simpa [start] using hc
  · simp [start] at ht

theorem reach_placed (h : Reach OnOwnCpu m) : Placed m := by
  induction h with
  | start hpos hmax => exact start_placed hpos hmax
  | step _ hop hown ih => exact exec_placed ih hop hown

/-! ## Membership -/

/-- `runq_push` does not fail in the step. -/
def Op.FindsRoom (m : Machine) : Op → Prop
  | .schedule cpu regs now => ∀ next s cur, takeNext (relinquish m.sched cpu) cpu now = some (next, s) →
    curRunning s cpu = some cur → (runqPush (yieldTask s cur regs) cpu cur now).isSome
  | .push i cpu now => ∀ t who, m.pending[i]? = some (t, who) → (runqPush m.sched cpu t now).isSome
  | _ => True

structure Membership (m : Machine) : Prop where
  one_cpu : ∀ t c c', c < smpMaxCpus → c' < smpMaxCpus → m.sched.current c = some t →
    m.sched.current c' = some t → c = c'
  one_queue : ∀ t, queued m.sched t ≤ 1
  ready : ∀ t, (m.sched.tasks t).state = .ready →
    if t ∈ m.pending.map Prod.fst then queued m.sched t = 0 else queued m.sched t = 1
  not_ready : ∀ t, (m.sched.tasks t).state ≠ .ready →
    queued m.sched t = 0 ∧ t ∉ m.pending.map Prod.fst
  running : ∀ t, (m.sched.tasks t).state = .running →
    ∃! c, c < smpMaxCpus ∧ m.sched.current c = some t
  room : ∀ op : Op, op.Enabled m → op.FindsRoom m

theorem Placed.room (h : Placed m) {op : Op} (hop : op.Enabled m) : op.FindsRoom m := by
  cases op with
  | schedule cpu regs now =>
    intro next s cur htake hcur
    have hcpu := h.lt_smpMaxCpus hop.1
    rw [h.fits.relinquish hcpu] at htake
    rcases scheduleOnCpu_cases h.fits hcpu regs now with
      ⟨hnone, _⟩ | ⟨c, l, next', _, htake', _, _, _, ⟨hidle, _⟩ | ⟨cur', hcur', _, hroom, _⟩⟩
    · rw [hnone] at htake
      cases htake
    · rw [htake'] at htake
      cases htake
      have hnone : curRunning (setRunq m.sched c l) cpu = none := hidle
      rw [hnone] at hcur
      cases hcur
    · rw [htake'] at htake
      cases htake
      rw [runqPush, if_neg (by simpa [yieldTask] using hroom)]
      rfl
  | push i cpu now =>
    intro t who hx
    have hpos : 0 < waiting m t :=
      List.count_pos_iff.mpr (List.mem_map.mpr ⟨(t, who), List.mem_of_getElem? hx, rfl⟩)
    rw [(h.fits.runqPush now (h.lt_smpMaxCpus hop.2) hpos).2.1]
    rfl
  | create _ _ => trivial
  | unblock _ => trivial
  | block _ _ => trivial
  | exitEnter _ => trivial
  | exitLocked _ => trivial
  | idle _ => trivial

theorem Placed.membership (hp : Placed m) : Membership m := by
  have hone : ∀ t c c', c < smpMaxCpus → c' < smpMaxCpus → m.sched.current c = some t →
      m.sched.current c' = some t → c = c' := by
    intro t c c' hc hc' h1 h2
    exact unique_of_total (hp.fits.cpu t).1 hc hc' (by simp [h1]) (by simp [h2])
  have hmem : ∀ t, t ∈ m.pending.map Prod.fst ↔ 0 < waiting m t := fun t => List.count_pos_iff.symm
  refine ⟨hone, fun t => ?_, fun t hready => ?_, fun t hne => ?_, fun t hrun => ?_,
    fun op => hp.room⟩
  · have := hp.fits.queue t
    split_ifs at this <;> omega
  · have hq := hp.fits.queue t
    rw [if_pos hready] at hq
    simp only [hmem]
    split_ifs <;> omega
  · have hq := hp.fits.queue t
    rw [if_neg hne] at hq
    rw [hmem]
    omega
  · have hcpu := (hp.fits.cpu t).2.1 hrun
    obtain ⟨c, hc, hin⟩ := exists_of_total_pos (f := fun c => (m.sched.current c).toList)
      (n := smpMaxCpus) (a := t) (by rw [show total smpMaxCpus _ t = 1 from hcpu]; decide)
    have hin : m.sched.current c = some t := by simpa using hin
    exact ⟨c, ⟨hc, hin⟩, fun c' hc' => hone t c' c hc'.1 hc hc'.2 hin⟩

/-- In every run in which `task_exit` stays on its CPU, the tasks are where their states say. -/
theorem run_queue_membership (h : Reach OnOwnCpu m) : Membership m := (reach_placed h).membership

/-! ## Two runs -/

def smallTask : NewTask := ⟨1, 1, by decide, 0, 1⟩

/-- The code can take the steps one after the other, and they meet `P`. -/
def Runs (P : Machine → Op → Prop) (m : Machine) : List Op → Prop
  | [] => True
  | op :: ops => (op.Enabled m ∧ P m op) ∧ Runs P (exec m op) ops

instance {P : Machine → Op → Prop} [∀ m op, Decidable (P m op)] :
    (m : Machine) → (ops : List Op) → Decidable (Runs P m ops)
  | _, [] => inferInstanceAs (Decidable True)
  | m, op :: ops =>
    have := instDecidableRuns (P := P) (exec m op) ops
    inferInstanceAs (Decidable ((op.Enabled m ∧ P m op) ∧ Runs P (exec m op) ops))

theorem Reach.runs {P : Machine → Op → Prop} {ops : List Op} :
    ∀ {m : Machine}, Reach P m → Runs P m ops → Reach P (ops.foldl exec m) := by
  induction ops with
  | nil => exact fun h _ => h
  | cons op ops ih => exact fun h hr => ih (h.step hr.1.1 hr.1.2) hr.2

/-- A task is created, runs on CPU 1 and exits there. -/
def ownRun : List Op :=
  [.create smallTask .createTaskPrio, .push 0 1 0, .schedule 1 1 0, .exitEnter 1, .exitLocked 1,
    .idle 1]

theorem run_queue_membership_ownRun : Membership (ownRun.foldl exec (start 2)) :=
  run_queue_membership
    ((Reach.start (by decide) (by decide)).runs (P := OnOwnCpu) (by decide))

/-- Task 1 reads the index of CPU 1 and is preempted; task 2 takes CPU 1, task 1 moves to CPU 0,
and its locked section tears down task 2 and leaves task 1 running on no CPU's record. -/
def staleRun : List Op :=
  [.create smallTask .createTaskPrio, .push 0 1 0, .schedule 1 1 0, .exitEnter 1,
    .create smallTask .createTaskPrio, .push 0 0 0, .schedule 1 1 0, .schedule 0 1 0,
    .exitLocked 0, .idle 0]

/-- Not in every run: the task that has left through a stale index is running on no CPU. -/
theorem staleExit : Reach (fun _ _ => True) (staleRun.foldl exec (start 2)) ∧
    ¬ Membership (staleRun.foldl exec (start 2)) := by
  refine ⟨(Reach.start (by decide) (by decide)).runs (by decide), fun h => ?_⟩
  obtain ⟨c, ⟨hc, hcur⟩, _⟩ := h.running 1 (by decide)
  have hnone : ∀ c < smpMaxCpus, (staleRun.foldl exec (start 2)).sched.current c ≠ some 1 := by
    decide
  exact hnone c hc hcur

end Kyuzen.Sched
