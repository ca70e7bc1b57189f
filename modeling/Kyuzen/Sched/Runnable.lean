import Kyuzen.Sched.Queues

/-!
# Tasks that keep their CPU time

A task that neither blocks nor exits stays runnable, whatever the other tasks and CPUs do: it is
current on a CPU or on a run queue (`exec_inCall`). While its CPU does not schedule, it stays there
(`exec_current`), and no other such task comes to the queue of this CPU (`exec_runq`).
-/

namespace Kyuzen.Sched

def TaskState.runnable : TaskState → Bool
  | .running | .ready => true
  | _ => false

/-- `t` can run, nobody is about to push it, and it is not in `task_exit`. -/
structure InCall (m : Machine) (t : Nat) : Prop where
  runnable : (m.sched.tasks t).state.runnable = true
  waiting : waiting m t = 0
  exit : m.exitCpu t = none

/-- The CPU whose task begins to block or to exit. -/
def Op.stops : Op → Option Nat
  | .block cpu _ | .exitEnter cpu => some cpu
  | _ => none

variable {s : State} {m : Machine} {p : Nat → Nat} {t u c cpu : Nat}

/-! ## The state of a task -/

theorem scheduleOnCpu_runnable (h : Fits s p) (hcpu : cpu < smpMaxCpus) (regs now u : Nat) :
    ((scheduleOnCpu s cpu regs now).1.tasks u).state.runnable = (s.tasks u).state.runnable := by
  rcases scheduleOnCpu_state h hcpu regs now u with heq | ⟨hold, hnew⟩ | ⟨hold, hnew⟩
  · rw [heq]
  · rw [hold, hnew]
    rfl
  · rw [hold, hnew]
    rfl

/-- A runnable task is not in a slot that is given to a new one. -/
theorem createTask_inCall (h : Placed m) (new : NewTask) (who : Pusher) (ht : InCall m t) :
    InCall (exec m (.create new who)) t := by
  unfold exec createTask
  cases hslot : reserveSlot m.sched with
  | none =>
    simp only [Option.map_none, Option.toList_none, List.append_nil]
    exact ht
  | some out =>
    obtain ⟨slot, s'⟩ := out
    obtain ⟨_, _, hdead, htasks, _⟩ := reserveSlot_cases h.fits hslot
    have hne : t ≠ slot := by
      rintro rfl
      have hrun := ht.runnable
      rw [hdead] at hrun
      cases hrun
    refine ⟨?_, ?_, ht.exit⟩
    · dsimp only
      rw [setTask_of_ne _ _ hne, htasks]
      exact ht.runnable
    · refine (waiting_append m (slot, who) t).trans ?_
      rw [Function.update_of_ne hne]
      exact ht.waiting

theorem unblockTask_inCall (ht : InCall m t) (u : Nat) : InCall (exec m (.unblock u)) t := by
  by_cases hu : t = u
  · -- a runnable task is not woken
    subst hu
    have hnop : unblockTask m.sched t = (.nothing, m.sched) := by
      have hst : (m.sched.tasks t).state ≠ .sleeping ∧ (m.sched.tasks t).state ≠ .blocked := by
        constructor <;> intro hc <;> have hrun := ht.runnable <;> rw [hc] at hrun <;> cases hrun
      unfold unblockTask
      rw [if_pos hst, ite_self]
    simp only [exec, hnop, reduceCtorEq, if_false]
    exact ht
  · refine ⟨?_, ?_, ht.exit⟩
    · have htask : (unblockTask m.sched u).2.tasks t = m.sched.tasks t := by
        unfold unblockTask
        split_ifs
        · rfl
        · rfl
        · cases parkedOn m.sched u <;> exact Function.update_of_ne hu _ _
      simp only [exec, htask]
      exact ht.runnable
    · simp only [exec, waiting]
      split_ifs
      · refine (waiting_append m (u, .unblockTask) t).trans ?_
        rw [Function.update_of_ne hu]
        exact ht.waiting
      · exact ht.waiting

theorem push_inCall (h : Placed m) {i now : Nat} (hop : (Op.push i cpu now).Enabled m)
    (ht : InCall m t) : InCall (exec m (.push i cpu now)) t := by
  obtain ⟨x, who, hx, hpos, hpush⟩ := h.pushReady hop
  have hne : t ≠ x := by
    rintro rfl
    rw [ht.waiting] at hpos
    cases hpos
  simp only [exec, hx, hpush]
  refine ⟨?_, ?_, ht.exit⟩
  · dsimp only
    rw [setRunq_tasks, setTask_of_ne _ _ hne]
    exact ht.runnable
  · refine (waiting_eraseIdx hx t).trans ?_
    rw [Function.update_of_ne hne]
    exact ht.waiting

/-- What the locked section of `task_exit` does, if the task has stayed on its CPU. -/
theorem exec_exitLocked (h : Placed m) (hop : (Op.exitLocked cpu).Enabled m)
    (hown : OnOwnCpu m (.exitLocked cpu)) : ∃ x, m.sched.current cpu = some x ∧
      (m.exitCpu x).isSome ∧ exec m (.exitLocked cpu) = { m with
        sched := setCurrent (setTask m.sched x fun y =>
          { y with state := .dead, rsp := 0, stackBase := 0, pml4Phys := 0 }) cpu none
        exitCpu := Function.update m.exitCpu x none
        idling := Function.update m.idling cpu true } := by
  obtain ⟨hlt, x, hcur, hsome⟩ := hop
  obtain ⟨hres, _⟩ := h.fits.taskExit (h.lt_smpMaxCpus hlt) hcur (h.exit x hsome)
  refine ⟨x, (curRunning_eq_some hcur).1, hsome, ?_⟩
  simp only [exec, hcur, hown x hcur, Option.getD_some, hres]

theorem exec_inCall (h : Placed m) {op : Op} (hop : op.Enabled m) (hown : OnOwnCpu m op)
    (ht : InCall m t) (hstop : ∀ cpu, op.stops = some cpu → curRunning m.sched cpu ≠ some t) :
    InCall (exec m op) t := by
  cases op with
  | schedule cpu regs now =>
    refine ⟨?_, ht.waiting, ht.exit⟩
    refine Eq.trans ?_ ht.runnable
    exact scheduleOnCpu_runnable h.fits (h.lt_smpMaxCpus hop.1) regs now t
  | create new who => exact createTask_inCall h new who ht
  | unblock u => exact unblockTask_inCall ht u
  | push i cpu now => exact push_inCall h hop ht
  | block cpu st =>
    refine ⟨?_, ht.waiting, ht.exit⟩
    simp only [exec, blockPrepare]
    split_ifs
    · exact ht.runnable
    · cases hcur : curRunning m.sched cpu with
      | none => exact ht.runnable
      | some x =>
        have hne : t ≠ x := by
          rintro rfl
          exact hstop cpu rfl hcur
        dsimp only
        rw [setTask_of_ne _ _ hne]
        exact ht.runnable
  | exitEnter cpu =>
    obtain ⟨_, x, hcur, _⟩ := hop
    have hne : t ≠ x := by
      rintro rfl
      exact hstop cpu rfl hcur
    simp only [exec, hcur]
    refine ⟨ht.runnable, ht.waiting, ?_⟩
    exact (Function.update_of_ne hne _ _).trans ht.exit
  | exitLocked cpu =>
    obtain ⟨x, _, hsome, heq⟩ := exec_exitLocked h hop hown
    have hne : t ≠ x := by
      rintro rfl
      rw [ht.exit] at hsome
      cases hsome
    rw [heq]
    refine ⟨?_, ht.waiting, ?_⟩
    · dsimp only
      rw [setCurrent_tasks, setTask_of_ne _ _ hne]
      exact ht.runnable
    · exact (Function.update_of_ne hne _ _).trans ht.exit
  | idle cpu => exact ⟨ht.runnable, ht.waiting, ht.exit⟩

/-! ## Where a task is -/

/-- A CPU that does not schedule keeps its task. -/
theorem exec_current (h : Placed m) {op : Op} (hop : op.Enabled m) (hown : OnOwnCpu m op)
    (ht : InCall m t) (hcur : m.sched.current c = some t)
    (hsched : ∀ regs now, op ≠ .schedule c regs now) : (exec m op).sched.current c = some t := by
  cases op with
  | schedule cpu regs now =>
    have hne : c ≠ cpu := by
      rintro rfl
      exact hsched regs now rfl
    exact (scheduleOnCpu_current_of_ne h.fits (h.lt_smpMaxCpus hop.1) regs now hne).trans hcur
  | create new who => exact (createTask_current m.sched new c).trans hcur
  | unblock u => exact (unblockTask_current m.sched u c).trans hcur
  | push i cpu now =>
    obtain ⟨x, who, hx, _, hpush⟩ := h.pushReady hop
    simp only [exec, hx, hpush]
    exact hcur
  | block cpu st => exact (blockPrepare_current m.sched cpu st c).trans hcur
  | exitEnter cpu =>
    obtain ⟨_, x, hx, _⟩ := hop
    simp only [exec, hx]
    exact hcur
  | exitLocked cpu =>
    obtain ⟨x, hx, hsome, heq⟩ := exec_exitLocked h hop hown
    have hne : c ≠ cpu := by
      rintro rfl
      obtain rfl := Option.some.inj (hcur.symm.trans hx)
      rw [ht.exit] at hsome
      cases hsome
    rw [heq]
    exact (Function.update_of_ne hne _ _).trans hcur
  | idle cpu =>
    have hne : c ≠ cpu := by
      rintro rfl
      rw [h.idle c hop.2] at hcur
      cases hcur
    exact (Function.update_of_ne hne _ _).trans hcur

theorem createTask_runq (s : State) (new : NewTask) : (createTask s new).sched.runq = s.runq := by
  unfold createTask reserveSlot
  split
  · rfl
  · rename_i slot s' hslot
    split at hslot
    · cases hslot
      rfl
    · split_ifs at hslot
      cases hslot
      rfl

theorem unblockTask_runq (s : State) (t : Nat) : (unblockTask s t).2.runq = s.runq := by
  unfold unblockTask
  split_ifs
  · rfl
  · rfl
  · cases parkedOn s t <;> rfl

theorem blockPrepare_runq (s : State) (cpu : Nat) (st : TaskState) :
    (blockPrepare s cpu st).2.runq = s.runq := by
  unfold blockPrepare
  split_ifs
  · rfl
  · cases curRunning s cpu <;> rfl

/-- Another CPU only takes tasks from a queue. -/
theorem scheduleOnCpu_runq (h : Fits s p) (hcpu : cpu < smpMaxCpus) (regs now : Nat)
    (hc : c ≠ cpu) (hu : u ∉ s.runq c) : u ∉ (scheduleOnCpu s cpu regs now).1.runq c := by
  have htaken : ∀ (d next : Nat) (l : List Nat),
      (∀ v, l.count v + (if next = v then 1 else 0) = (s.runq d).count v) →
      u ∉ (setRunq s d l).runq c := by
    intro d next l hl hmem
    by_cases hcd : c = d
    · subst hcd
      rw [setRunq_self] at hmem
      have hpos := List.count_pos_iff.mpr hmem
      have hcount := hl u
      exact hu (List.count_pos_iff.mp (by omega))
    · have hsame : (setRunq s d l).runq c = s.runq c := Function.update_of_ne hcd _ _
      rw [hsame] at hmem
      exact hu hmem
  rcases scheduleOnCpu_cases h hcpu regs now with
    ⟨_, heq⟩ | ⟨d, l, next, _, _, hl, _, _, ⟨_, heq⟩ | ⟨cur, _, _, _, heq⟩⟩
  · rw [heq, saveFrame_runq]
    exact hu
  · rw [heq, dispatch, setCurrent_runq, setTask_runq, saveFrame_runq]
    exact htaken d next l hl
  · have hsame : (requeue (setRunq s d l) cpu cur regs now).runq c = (setRunq s d l).runq c :=
      Function.update_of_ne hc _ _
    rw [heq, dispatch, setCurrent_runq, setTask_runq, hsame]
    exact htaken d next l hl

theorem exec_runq (h : Placed m) {op : Op} (hop : op.Enabled m) (hown : OnOwnCpu m op)
    (ht : InCall m t) (hno : t ∉ m.sched.runq c)
    (hsched : ∀ regs now, op ≠ .schedule c regs now) : t ∉ (exec m op).sched.runq c := by
  cases op with
  | schedule cpu regs now =>
    have hne : c ≠ cpu := by
      rintro rfl
      exact hsched regs now rfl
    exact scheduleOnCpu_runq h.fits (h.lt_smpMaxCpus hop.1) regs now hne hno
  | create new who =>
    simp only [exec, createTask_runq]
    exact hno
  | unblock u =>
    simp only [exec, unblockTask_runq]
    exact hno
  | push i cpu now =>
    obtain ⟨x, who, hx, hpos, hpush⟩ := h.pushReady hop
    have hne : t ≠ x := by
      rintro rfl
      rw [ht.waiting] at hpos
      cases hpos
    simp only [exec, hx, hpush]
    by_cases hcpu : c = cpu
    · subst hcpu
      rw [setRunq_self, List.mem_append, List.mem_singleton]
      rintro (hmem | hmem)
      · exact hno hmem
      · exact hne hmem
    · have hsame : (setRunq (setTask m.sched x fun y => { y with enqueueMs := now }) cpu
          (m.sched.runq cpu ++ [x])).runq c = m.sched.runq c := Function.update_of_ne hcpu _ _
      rw [hsame]
      exact hno
  | block cpu st =>
    simp only [exec, blockPrepare_runq]
    exact hno
  | exitEnter cpu =>
    obtain ⟨_, x, hx, _⟩ := hop
    simp only [exec, hx]
    exact hno
  | exitLocked cpu =>
    obtain ⟨x, _, _, heq⟩ := exec_exitLocked h hop hown
    rw [heq]
    exact hno
  | idle cpu => exact hno

end Kyuzen.Sched
