import Kyuzen.Sched.Model

/-!
# Where the tasks are

`Fits` says where a task is, given its state: a ready task is on one queue, or somebody is about
to place it (`p` counts these); a running task is current on one CPU; a blocked task is on at
most one CPU, a dead one nowhere. The sections of the scheduler move tasks between the queues,
the CPUs and the hands of a caller (`Fits.pop`, `Fits.runqPush`, `Fits.leave`, `Fits.enter`), and
all keep `Fits`.
-/

namespace Kyuzen.Sched

open Lib.Places

/-! ## Where the tasks are -/

/-- How often `t` is on the run queues. -/
def queued (s : State) (t : Nat) : Nat := total smpMaxCpus s.runq t

/-- On how many CPUs `t` is current. -/
def onCpus (s : State) (t : Nat) : Nat := total smpMaxCpus (fun c => (s.current c).toList) t

/-- The number of CPUs that fits a state. -/
def CpuFits (st : TaskState) (n : Nat) : Prop :=
  n ≤ 1 ∧ (st = .running → n = 1) ∧ (st = .ready ∨ st = .dead → n = 0)

/-- The tasks are where their states say, with `p t` pushes of `t` still to come. -/
structure Fits (s : State) (p : Nat → Nat) : Prop where
  queue : ∀ t, queued s t + p t = if (s.tasks t).state = .ready then 1 else 0
  cpu : ∀ t, CpuFits (s.tasks t).state (onCpus s t)
  count : 1 ≤ s.taskCount ∧ s.taskCount ≤ maxTasks
  unused : ∀ t, s.taskCount ≤ t → (s.tasks t).state = .dead
  frame : ∀ t, (s.tasks t).state ≠ .dead → onCpus s t = 0 → (s.tasks t).rsp ≠ 0
  online : 0 < s.online ∧ s.online ≤ smpMaxCpus

/-! ## Updates -/

variable {s s' : State} {p : Nat → Nat} {t cpu : Nat}

@[simp] theorem setTask_runq (s : State) (t : Nat) (f : Task → Task) :
    (setTask s t f).runq = s.runq := rfl
@[simp] theorem setTask_current (s : State) (t : Nat) (f : Task → Task) :
    (setTask s t f).current = s.current := rfl
@[simp] theorem setTask_self (s : State) (t : Nat) (f : Task → Task) :
    (setTask s t f).tasks t = f (s.tasks t) := Function.update_self _ _ _
theorem setTask_of_ne (s : State) {t u : Nat} (f : Task → Task) (h : u ≠ t) :
    (setTask s t f).tasks u = s.tasks u := Function.update_of_ne h _ _
@[simp] theorem setCurrent_tasks (s : State) (cpu : Nat) (t : Option Nat) :
    (setCurrent s cpu t).tasks = s.tasks := rfl
@[simp] theorem setCurrent_runq (s : State) (cpu : Nat) (t : Option Nat) :
    (setCurrent s cpu t).runq = s.runq := rfl
@[simp] theorem setCurrent_self (s : State) (cpu : Nat) (t : Option Nat) :
    (setCurrent s cpu t).current cpu = t := Function.update_self _ _ _
@[simp] theorem setRunq_tasks (s : State) (cpu : Nat) (l : List Nat) :
    (setRunq s cpu l).tasks = s.tasks := rfl
@[simp] theorem setRunq_current (s : State) (cpu : Nat) (l : List Nat) :
    (setRunq s cpu l).current = s.current := rfl
@[simp] theorem setRunq_taskCount (s : State) (cpu : Nat) (l : List Nat) :
    (setRunq s cpu l).taskCount = s.taskCount := rfl
@[simp] theorem setRunq_self (s : State) (cpu : Nat) (l : List Nat) :
    (setRunq s cpu l).runq cpu = l := Function.update_self _ _ _

@[simp] theorem queued_setTask (s : State) (t u : Nat) (f : Task → Task) :
    queued (setTask s t f) u = queued s u := rfl
@[simp] theorem onCpus_setTask (s : State) (t u : Nat) (f : Task → Task) :
    onCpus (setTask s t f) u = onCpus s u := rfl
@[simp] theorem queued_setCurrent (s : State) (cpu u : Nat) (t : Option Nat) :
    queued (setCurrent s cpu t) u = queued s u := rfl

@[simp] theorem saveFrame_current (s : State) (cur : Option Nat) (regs : Nat) :
    (saveFrame s cur regs).current = s.current := by
  cases cur <;> rfl
@[simp] theorem saveFrame_runq (s : State) (cur : Option Nat) (regs : Nat) :
    (saveFrame s cur regs).runq = s.runq := by
  cases cur <;> rfl

theorem setTask_state {f : Task → Task} (h : (f (s.tasks t)).state = (s.tasks t).state) (u : Nat) :
    ((setTask s t f).tasks u).state = (s.tasks u).state := by
  by_cases hu : u = t
  · subst hu
    rw [setTask_self, h]
  · rw [setTask_of_ne _ _ hu]

@[simp] theorem saveFrame_state (s : State) (cur : Option Nat) (regs u : Nat) :
    ((saveFrame s cur regs).tasks u).state = (s.tasks u).state := by
  cases cur with
  | none => rfl
  | some t => exact setTask_state (f := fun x => { x with rsp := regs }) rfl u

theorem queued_setRunq (hcpu : cpu < smpMaxCpus) (s : State) (l : List Nat) (u : Nat) :
    queued (setRunq s cpu l) u + (s.runq cpu).count u = queued s u + l.count u :=
  total_update hcpu s.runq l u

theorem onCpus_setCurrent (hcpu : cpu < smpMaxCpus) (s : State) (t : Option Nat) (u : Nat) :
    onCpus (setCurrent s cpu t) u + (s.current cpu).toList.count u =
      onCpus s u + t.toList.count u := by
  have hupd : (fun c => ((setCurrent s cpu t).current c).toList) =
      Function.update (fun c => (s.current c).toList) cpu t.toList := by
    funext c
    by_cases hc : c = cpu
    · subst hc
      simp
    · rw [Function.update_of_ne hc]
      exact congrArg Option.toList (Function.update_of_ne hc _ _)
  unfold onCpus
  rw [hupd]
  exact total_update hcpu (fun c => (s.current c).toList) t.toList u

theorem count_toList (o : Option Nat) (u : Nat) :
    o.toList.count u = if o = some u then 1 else 0 := by
  cases o with
  | none => simp
  | some x => simp [List.count_singleton]

theorem onCpus_pos (hcpu : cpu < smpMaxCpus) (h : s.current cpu = some t) : 0 < onCpus s t := by
  have hle := count_le_total hcpu (fun c => (s.current c).toList) t
  rw [count_toList, if_pos h] at hle
  exact hle

/-! ## Taking a task from a queue -/

theorem runqPop_spec {now : Nat} (h : runqPop s cpu now = some (t, s')) :
    ∃ l, s' = setRunq s cpu l ∧
      ∀ u, l.count u + (if t = u then 1 else 0) = (s.runq cpu).count u := by
  unfold runqPop at h
  dsimp only at h
  split at h
  · cases h
  · rename_i x hx
    obtain ⟨rfl, rfl⟩ := Prod.mk.inj (Option.some.inj h)
    exact ⟨_, rfl, count_swapRemove hx⟩

theorem victim_lt {self v : Nat} (h : victim s self = some v) : v < smpMaxCpus := by
  have hfold : ∀ (l : List Nat) (acc : Option Nat × Nat), (∀ i ∈ l, i < smpMaxCpus) →
      (∀ i, acc.1 = some i → i < smpMaxCpus) →
      ∀ i, (l.foldl (fun (v : Option Nat × Nat) i =>
        if i ≠ self ∧ v.2 < (s.runq i).length then (some i, (s.runq i).length) else v) acc).1 =
          some i → i < smpMaxCpus := by
    intro l
    induction l with
    | nil => exact fun _ _ hacc => hacc
    | cons j l ih =>
      intro acc hl hacc
      refine ih _ (fun i hi => hl i (List.mem_cons_of_mem _ hi)) fun i hi => ?_
      dsimp only at hi
      split_ifs at hi
      · cases hi
        exact hl j List.mem_cons_self
      · exact hacc i hi
  refine hfold _ (none, 0) (fun i hi => ?_) (fun i hi => absurd hi (by simp)) v h
  exact lt_of_lt_of_le (List.mem_range.mp hi) (min_le_right _ _)

theorem takeNext_spec {now : Nat} (hcpu : cpu < smpMaxCpus)
    (h : takeNext s cpu now = some (t, s')) :
    ∃ c l, c < smpMaxCpus ∧ s' = setRunq s c l ∧
      ∀ u, l.count u + (if t = u then 1 else 0) = (s.runq c).count u := by
  unfold takeNext at h
  split at h
  · rename_i r hr
    obtain rfl := Option.some.inj h
    obtain ⟨l, hs, hl⟩ := runqPop_spec hr
    exact ⟨cpu, l, hcpu, hs, hl⟩
  · unfold stealTask at h
    split at h
    · cases h
    · rename_i v hv
      obtain ⟨l, hs, hl⟩ := runqPop_spec h
      exact ⟨v, l, victim_lt hv, hs, hl⟩

/-- A queue without one of the tasks has room for it. -/
theorem length_lt_capacity {l : List Nat} (hcount : ∀ u, l.count u ≤ 1)
    (hlt : ∀ u ∈ l, u < maxTasks) (ht : t < maxTasks) (hno : t ∉ l) : l.length < runqCapacity := by
  have hnodup : l.Nodup := List.nodup_iff_count_le_one.mpr hcount
  have hsub : l.toFinset ⊆ (Finset.range maxTasks).erase t := by
    intro u hu
    have hu := List.mem_toFinset.mp hu
    refine Finset.mem_erase.mpr ⟨?_, Finset.mem_range.mpr (hlt u hu)⟩
    rintro rfl
    exact hno hu
  have hcard := Finset.card_le_card hsub
  rw [List.toFinset_card_of_nodup hnodup, Finset.card_erase_of_mem (Finset.mem_range.mpr ht),
    Finset.card_range] at hcard
  have h1 : runqCapacity = maxTasks := rfl
  have h2 : maxTasks = 16 := rfl
  omega

/-! ## The parts of a state that fits -/

theorem Fits.live (h : Fits s p) (ht : (s.tasks t).state ≠ .dead) : t < s.taskCount := by
  by_contra hc
  exact ht (h.unused t (not_lt.mp hc))

theorem Fits.lt_maxTasks (h : Fits s p) (ht : (s.tasks t).state ≠ .dead) : t < maxTasks :=
  lt_of_lt_of_le (h.live ht) h.count.2

/-- A task on a queue is ready. -/
theorem Fits.ready_of_mem (h : Fits s p) (hcpu : cpu < smpMaxCpus) (ht : t ∈ s.runq cpu) :
    (s.tasks t).state = .ready := by
  have hq := h.queue t
  have hle : (s.runq cpu).count t ≤ queued s t := count_le_total hcpu s.runq t
  have hpos := List.count_pos_iff.mpr ht
  by_contra hc
  rw [if_neg hc] at hq
  omega

/-- A queue has room for every task that is not on it, also when others have been taken off it. -/
theorem Fits.room (h : Fits s p) {c : Nat} {l : List Nat} (hc : c < smpMaxCpus)
    (hl : ∀ u, l.count u ≤ (s.runq c).count u) (ht : (s.tasks t).state ≠ .dead) (hno : t ∉ l) :
    l.length < runqCapacity := by
  refine length_lt_capacity (fun u => ?_) (fun u hu => h.lt_maxTasks ?_) (h.lt_maxTasks ht) hno
  · have hq := h.queue u
    have hle : (s.runq c).count u ≤ queued s u := count_le_total hc s.runq u
    have hlu := hl u
    split_ifs at hq <;> omega
  · have hpos := List.count_pos_iff.mpr hu
    have hlu := hl u
    rw [h.ready_of_mem hc (List.count_pos_iff.mp (by omega))]
    simp

/-- The current task of a CPU is running or blocked. -/
theorem Fits.current (h : Fits s p) (hcpu : cpu < smpMaxCpus) (ht : s.current cpu = some t) :
    (s.tasks t).state ≠ .ready ∧ (s.tasks t).state ≠ .dead := by
  have hpos := onCpus_pos hcpu ht
  have hfit := (h.cpu t).2.2
  exact ⟨fun hc => by have := hfit (Or.inl hc); omega, fun hc => by have := hfit (Or.inr hc); omega⟩

theorem liveCurrent_of_current (h : Fits s p) (hcpu : cpu < smpMaxCpus)
    (ht : s.current cpu = some t) : liveCurrent s cpu = some t := by
  rw [liveCurrent, ht, Option.filter_some, if_pos]
  exact decide_eq_true (h.live (h.current hcpu ht).2)

theorem curIn_eq_some {q : TaskState → Bool} (ht : curIn s cpu q = some t) :
    s.current cpu = some t ∧ t < s.taskCount ∧ q (s.tasks t).state = true := by
  obtain ⟨hlive, hq⟩ := Option.filter_eq_some_iff.mp ht
  obtain ⟨hcur, hlt⟩ := Option.filter_eq_some_iff.mp hlive
  exact ⟨hcur, by simpa using hlt, hq⟩

theorem curRunning_eq_some (ht : curRunning s cpu = some t) :
    s.current cpu = some t ∧ t < s.taskCount ∧ (s.tasks t).state = .running := by
  obtain ⟨h1, h2, h3⟩ := curIn_eq_some ht
  exact ⟨h1, h2, by simpa using h3⟩

theorem curBlocked_eq_some (ht : curBlocked s cpu = some t) :
    s.current cpu = some t ∧ t < s.taskCount ∧
      ((s.tasks t).state = .sleeping ∨ (s.tasks t).state = .blocked) := by
  obtain ⟨h1, h2, h3⟩ := curIn_eq_some ht
  exact ⟨h1, h2, by simpa using h3⟩

theorem ready_ne_curRunning (hready : (s.tasks u).state = .ready)
    (ht : curRunning s cpu = some t) : u ≠ t := by
  rintro rfl
  rw [(curRunning_eq_some ht).2.2] at hready
  cases hready

theorem ready_ne_curBlocked (hready : (s.tasks u).state = .ready)
    (ht : curBlocked s cpu = some t) : u ≠ t := by
  rintro rfl
  rcases (curBlocked_eq_some ht).2.2 with hst | hst
  · rw [hst] at hready
    cases hready
  · rw [hst] at hready
    cases hready

/-- A CPU is idle, or its task is running, or its task is blocked. -/
theorem Fits.cur_cases (h : Fits s p) (hcpu : cpu < smpMaxCpus) :
    (s.current cpu = none ∧ curRunning s cpu = none ∧ curBlocked s cpu = none) ∨
    (∃ t, curRunning s cpu = some t ∧ curBlocked s cpu = none) ∨
    ∃ t, curRunning s cpu = none ∧ curBlocked s cpu = some t := by
  cases hcur : s.current cpu with
  | none =>
    left
    simp [curRunning, curBlocked, curIn, liveCurrent, hcur]
  | some t =>
    right
    have hlive := liveCurrent_of_current h hcpu hcur
    obtain ⟨hready, hdead⟩ := h.current hcpu hcur
    unfold curRunning curBlocked curIn
    rw [hlive]
    cases hst : (s.tasks t).state with
    | ready => exact absurd hst hready
    | dead => exact absurd hst hdead
    | running => exact Or.inl ⟨t, by simp [hst], by simp [hst]⟩
    | sleeping => exact Or.inr ⟨t, by simp [hst], by simp [hst]⟩
    | blocked => exact Or.inr ⟨t, by simp [hst], by simp [hst]⟩

theorem Fits.relinquish (h : Fits s p) (hcpu : cpu < smpMaxCpus) : relinquish s cpu = s := by
  unfold Sched.relinquish
  rcases h.cur_cases hcpu with ⟨hcur, hr, hb⟩ | ⟨t, hr, hb⟩ | ⟨t, hr, hb⟩
  · rw [hr, hb]
    have hself : Function.update s.current cpu none = s.current := by
      rw [← hcur]
      exact Function.update_eq_self cpu s.current
    simp only [Option.isNone_none, Bool.and_self, if_true, setCurrent, hself]
  · simp [hr]
  · simp [hb]

/-! ## `schedule_on_cpu` -/

/-- The state after the outgoing task has been pushed on its CPU's queue. -/
def requeue (s : State) (cpu cur regs now : Nat) : State :=
  setRunq (setTask (yieldTask s cur regs) cur fun x => { x with enqueueMs := now }) cpu
    (s.runq cpu ++ [cur])

/-- Taking a task off a queue adds none to any queue. -/
theorem count_setRunq_le {c next : Nat} {l : List Nat}
    (hl : ∀ u, l.count u + (if next = u then 1 else 0) = (s.runq c).count u) (cpu u : Nat) :
    ((setRunq s c l).runq cpu).count u ≤ (s.runq cpu).count u := by
  by_cases hcc : cpu = c
  · subst hcc
    rw [setRunq_self]
    have := hl u
    omega
  · have heq : (setRunq s c l).runq cpu = s.runq cpu := Function.update_of_ne hcc _ _
    rw [heq]

theorem switchTo_none {next : Nat} (hready : (s.tasks next).state = .ready)
    (hcur : curRunning s cpu = none) (regs now : Nat) :
    switchTo s cpu regs now next =
      (dispatch (saveFrame s (curBlocked s cpu) regs) cpu next, (s.tasks next).rsp) := by
  unfold switchTo
  rw [hcur]
  refine Prod.ext rfl ?_
  cases hb : curBlocked s cpu with
  | none => simp [saveFrame, dispatch]
  | some t => simp [saveFrame, dispatch, setTask_of_ne _ _ (ready_ne_curBlocked hready hb)]

theorem switchTo_some {next cur : Nat} (hready : (s.tasks next).state = .ready)
    (hcur : curRunning s cpu = some cur) (hroom : (s.runq cpu).length < runqCapacity)
    (regs now : Nat) : switchTo s cpu regs now next =
      (dispatch (requeue s cpu cur regs now) cpu next, (s.tasks next).rsp) := by
  have hpush : runqPush (yieldTask s cur regs) cpu cur now = some (requeue s cpu cur regs now) := by
    unfold runqPush
    rw [if_neg (by simpa [yieldTask] using hroom)]
    rfl
  unfold switchTo
  rw [hcur]
  dsimp only
  rw [hpush]
  refine Prod.ext rfl ?_
  simp [dispatch, requeue, yieldTask, setTask_of_ne _ _ (ready_ne_curRunning hready hcur)]

/-- What `schedule_on_cpu` does when the tasks are where they should be: it keeps the current
task, or takes a ready task from some queue and puts the current task, if that is running, on
the CPU's own queue. -/
theorem scheduleOnCpu_cases (h : Fits s p) (hcpu : cpu < smpMaxCpus) (regs now : Nat) :
    (takeNext s cpu now = none ∧
      scheduleOnCpu s cpu regs now = (saveFrame s (curBlocked s cpu) regs, regs)) ∨
    ∃ c l next, c < smpMaxCpus ∧ takeNext s cpu now = some (next, setRunq s c l) ∧
      (∀ u, l.count u + (if next = u then 1 else 0) = (s.runq c).count u) ∧
      (s.tasks next).state = .ready ∧ (s.tasks next).rsp ≠ 0 ∧
      ((curRunning s cpu = none ∧ scheduleOnCpu s cpu regs now =
          (dispatch (saveFrame (setRunq s c l) (curBlocked s cpu) regs) cpu next,
            (s.tasks next).rsp)) ∨
        ∃ cur, curRunning s cpu = some cur ∧ cur ∉ (setRunq s c l).runq cpu ∧
          ((setRunq s c l).runq cpu).length < runqCapacity ∧ scheduleOnCpu s cpu regs now =
            (dispatch (requeue (setRunq s c l) cpu cur regs now) cpu next, (s.tasks next).rsp)) := by
  have hcount : s.taskCount ≠ 0 := by
    have := h.count.1
    omega
  unfold scheduleOnCpu
  rw [if_neg hcount, h.relinquish hcpu]
  cases htake : takeNext s cpu now with
  | none => exact Or.inl ⟨rfl, rfl⟩
  | some out =>
    right
    obtain ⟨next, s₁⟩ := out
    obtain ⟨c, l, hc, rfl, hl⟩ := takeNext_spec hcpu htake
    have hmem : next ∈ s.runq c := by
      refine List.count_pos_iff.mp ?_
      have := hl next
      rw [if_pos rfl] at this
      omega
    have hready := h.ready_of_mem hc hmem
    have hlive : next < s.taskCount := h.live (by rw [hready]; simp)
    have hrsp : (s.tasks next).rsp ≠ 0 := h.frame next (by rw [hready]; simp)
      ((h.cpu next).2.2 (Or.inl hready))
    refine ⟨c, l, next, hc, rfl, hl, hready, hrsp, ?_⟩
    dsimp only
    rw [if_neg (by simp [hready, hrsp, hlive])]
    cases hcur : curRunning s cpu with
    | none => exact Or.inl ⟨rfl, switchTo_none (s := setRunq s c l) hready hcur regs now⟩
    | some cur =>
      have hrun := (curRunning_eq_some hcur).2.2
      have hsub := count_setRunq_le hl cpu
      -- a running task is on no queue
      have hno : cur ∉ (setRunq s c l).runq cpu := by
        intro hmem'
        have hpos := (List.count_pos_iff.mpr hmem').trans_le (hsub cur)
        have hwas := h.ready_of_mem hcpu (List.count_pos_iff.mp hpos)
        rw [hrun] at hwas
        cases hwas
      have hroom : ((setRunq s c l).runq cpu).length < runqCapacity :=
        h.room hcpu hsub (by rw [hrun]; simp) hno
      exact Or.inr ⟨cur, rfl, hno, hroom,
        switchTo_some (s := setRunq s c l) hready hcur hroom regs now⟩

/-- `schedule_on_cpu` makes a ready task running or a running one ready, and leaves the states of
the others alone. -/
theorem scheduleOnCpu_state (h : Fits s p) (hcpu : cpu < smpMaxCpus) (regs now u : Nat) :
    ((scheduleOnCpu s cpu regs now).1.tasks u).state = (s.tasks u).state ∨
      (s.tasks u).state = .ready ∧
        ((scheduleOnCpu s cpu regs now).1.tasks u).state = .running ∨
      (s.tasks u).state = .running ∧
        ((scheduleOnCpu s cpu regs now).1.tasks u).state = .ready := by
  rcases scheduleOnCpu_cases h hcpu regs now with
    ⟨_, heq⟩ | ⟨d, l, next, _, _, _, hready, _, ⟨_, heq⟩ | ⟨cur, hcur, _, _, heq⟩⟩
  · left
    rw [heq, saveFrame_state]
  · rw [heq, dispatch, setCurrent_tasks]
    by_cases hu : u = next
    · subst hu
      rw [setTask_self]
      exact Or.inr (Or.inl ⟨hready, rfl⟩)
    · rw [setTask_of_ne _ _ hu, saveFrame_state]
      exact Or.inl rfl
  · have hrun := (curRunning_eq_some hcur).2.2
    rw [heq, dispatch, setCurrent_tasks]
    by_cases hu : u = next
    · subst hu
      rw [setTask_self]
      exact Or.inr (Or.inl ⟨hready, rfl⟩)
    · rw [setTask_of_ne _ _ hu, requeue, setRunq_tasks, setTask_state rfl, yieldTask]
      by_cases huc : u = cur
      · subst huc
        rw [setTask_self]
        exact Or.inr (Or.inr ⟨hrun, rfl⟩)
      · rw [setTask_of_ne _ _ huc]
        exact Or.inl rfl

/-! ## What keeps a state fitting -/

/-- One task changes its record. -/
theorem Fits.setTask {p' : Nat → Nat} {f : Task → Task} (h : Fits s p)
    (hp : ∀ u, u ≠ t → p' u = p u)
    (hq : queued s t + p' t = if (f (s.tasks t)).state = .ready then 1 else 0)
    (hc : CpuFits (f (s.tasks t)).state (onCpus s t))
    (hu : s.taskCount ≤ t → (f (s.tasks t)).state = .dead)
    (hf : (f (s.tasks t)).state ≠ .dead → onCpus s t = 0 → (f (s.tasks t)).rsp ≠ 0) :
    Fits (setTask s t f) p' := by
  refine ⟨fun u => ?_, fun u => ?_, h.count, fun u hcount => ?_, fun u hdead hcpu => ?_, h.online⟩
  · by_cases htu : u = t
    · subst htu
      rw [setTask_self, queued_setTask]
      exact hq
    · rw [setTask_of_ne _ _ htu, queued_setTask, hp u htu]
      exact h.queue u
  · by_cases htu : u = t
    · subst htu
      rw [setTask_self]
      exact hc
    · rw [setTask_of_ne _ _ htu]
      exact h.cpu u
  · by_cases htu : u = t
    · subst htu
      rw [setTask_self]
      exact hu hcount
    · rw [setTask_of_ne _ _ htu]
      exact h.unused u hcount
  · by_cases htu : u = t
    · subst htu
      rw [setTask_self] at hdead ⊢
      exact hf hdead hcpu
    · rw [setTask_of_ne _ _ htu] at hdead ⊢
      exact h.frame u hdead hcpu

theorem Fits.saveFrame (h : Fits s p) {regs : Nat} (hregs : regs ≠ 0) (cur : Option Nat) :
    Fits (saveFrame s cur regs) p := by
  cases cur with
  | none => exact h
  | some t =>
    exact h.setTask (f := fun x => { x with rsp := regs }) (fun _ _ => rfl) (h.queue t) (h.cpu t)
      (h.unused t) fun _ _ => hregs

/-- A task is taken from a queue, to be placed by the caller. -/
theorem Fits.pop (h : Fits s p) {c : Nat} {l : List Nat} (hc : c < smpMaxCpus)
    (hl : ∀ u, l.count u + (if t = u then 1 else 0) = (s.runq c).count u) :
    Fits (setRunq s c l) (Function.update p t (p t + 1)) := by
  refine ⟨fun u => ?_, h.cpu, h.count, h.unused, h.frame, h.online⟩
  have h1 := h.queue u
  have h2 := queued_setRunq hc s l u
  have h3 := hl u
  rw [setRunq_tasks]
  by_cases hut : u = t
  · subst hut
    rw [Function.update_self]
    rw [if_pos rfl] at h3
    omega
  · rw [Function.update_of_ne hut]
    rw [if_neg (Ne.symm hut)] at h3
    omega

/-- A task that is to be placed finds room on every queue. -/
theorem Fits.runqPush (now : Nat) (h : Fits s p) (hcpu : cpu < smpMaxCpus) (hp : 0 < p t) :
    (s.runq cpu).length < runqCapacity ∧
      runqPush s cpu t now =
        some (setRunq (Sched.setTask s t fun x => { x with enqueueMs := now }) cpu
          (s.runq cpu ++ [t])) ∧
      Fits (setRunq (Sched.setTask s t fun x => { x with enqueueMs := now }) cpu
        (s.runq cpu ++ [t])) (Function.update p t (p t - 1)) := by
  have hq := h.queue t
  have hready : (s.tasks t).state = .ready := by
    by_contra hc
    rw [if_neg hc] at hq
    omega
  rw [if_pos hready] at hq
  have hno : t ∉ s.runq cpu := by
    intro hmem
    have h1 := List.count_pos_iff.mpr hmem
    have h2 : (s.runq cpu).count t ≤ queued s t := count_le_total hcpu s.runq t
    omega
  have hroom := h.room hcpu (fun _ => le_rfl) (by rw [hready]; simp) hno
  refine ⟨hroom, by rw [Sched.runqPush, if_neg (by omega)], ?_⟩
  have hbase : Fits (Sched.setTask s t fun x => { x with enqueueMs := now }) p :=
    h.setTask (fun _ _ => rfl) (h.queue t) (h.cpu t) (h.unused t) (h.frame t)
  refine ⟨fun u => ?_, hbase.cpu, hbase.count, hbase.unused, hbase.frame, hbase.online⟩
  have hcount := queued_setRunq hcpu (Sched.setTask s t fun x => { x with enqueueMs := now })
    (s.runq cpu ++ [t]) u
  have hu := hbase.queue u
  rw [setTask_runq, List.count_append, List.count_singleton] at hcount
  rw [setRunq_tasks]
  by_cases hut : u = t
  · subst hut
    rw [Function.update_self]
    simp only [beq_self_eq_true, if_true] at hcount
    omega
  · rw [Function.update_of_ne hut]
    simp only [beq_iff_eq, Ne.symm hut, if_false] at hcount
    omega

/-- The task `t` goes off its CPU, with a new record. -/
theorem Fits.leave {q : Nat → Nat} {f : Task → Task} (h : Fits s p) (hcpu : cpu < smpMaxCpus)
    (ht : s.current cpu = some t) (hp : ∀ u, u ≠ t → q u = p u)
    (hq : queued s t + q t = if (f (s.tasks t)).state = .ready then 1 else 0)
    (hst : (f (s.tasks t)).state ≠ .running)
    (hrsp : (f (s.tasks t)).state ≠ .dead → (f (s.tasks t)).rsp ≠ 0) :
    Fits (setCurrent (Sched.setTask s t f) cpu none) q := by
  have hcpus : ∀ u, onCpus (setCurrent (Sched.setTask s t f) cpu none) u +
      (if t = u then 1 else 0) = onCpus s u := by
    intro u
    have := onCpus_setCurrent hcpu (Sched.setTask s t f) none u
    rw [setTask_current, ht, count_toList, count_toList, onCpus_setTask] at this
    simpa using this
  have hone := (h.cpu t).1
  have hlive := h.live (h.current hcpu ht).2
  refine ⟨fun u => ?_, fun u => ?_, h.count, fun u hu => ?_, fun u hdead hzero => ?_, h.online⟩
  · rw [queued_setCurrent, queued_setTask, setCurrent_tasks]
    by_cases hut : u = t
    · subst hut
      rw [setTask_self]
      exact hq
    · rw [setTask_of_ne _ _ hut, hp u hut]
      exact h.queue u
  · have h1 := hcpus u
    rw [setCurrent_tasks]
    by_cases hut : u = t
    · subst hut
      rw [if_pos rfl] at h1
      rw [setTask_self]
      exact ⟨by omega, fun hc => absurd hc hst, fun _ => by omega⟩
    · rw [if_neg (Ne.symm hut), Nat.add_zero] at h1
      rw [setTask_of_ne _ _ hut, h1]
      exact h.cpu u
  · rw [setCurrent_tasks]
    have hut : u ≠ t := by
      rintro rfl
      exact absurd hu (not_le.mpr hlive)
    rw [setTask_of_ne _ _ hut]
    exact h.unused u hu
  · rw [setCurrent_tasks] at hdead ⊢
    by_cases hut : u = t
    · subst hut
      rw [setTask_self] at hdead ⊢
      exact hrsp hdead
    · have h1 := hcpus u
      rw [if_neg (Ne.symm hut)] at h1
      rw [setTask_of_ne _ _ hut] at hdead ⊢
      exact h.frame u hdead (by omega)

/-- A task that is to be placed goes on an idle CPU. -/
theorem Fits.enter (h : Fits s p) (hcpu : cpu < smpMaxCpus) (hidle : s.current cpu = none)
    (hp : 0 < p t) : Fits (dispatch s cpu t) (Function.update p t (p t - 1)) := by
  have hq := h.queue t
  have hready : (s.tasks t).state = .ready := by
    by_contra hc
    rw [if_neg hc] at hq
    omega
  have hlive := h.live (t := t) (by rw [hready]; simp)
  have hcpus : ∀ u, onCpus (dispatch s cpu t) u = onCpus s u + (if t = u then 1 else 0) := by
    intro u
    have := onCpus_setCurrent hcpu (Sched.setTask s t fun x => { x with state := .running })
      (some t) u
    rw [setTask_current, hidle, count_toList, count_toList, onCpus_setTask] at this
    unfold dispatch
    simpa using this
  have hzero := (h.cpu t).2.2 (Or.inl hready)
  have hself : ((dispatch s cpu t).tasks t).state = .running := by
    rw [dispatch, setCurrent_tasks, setTask_self]
  have hother : ∀ u, u ≠ t → (dispatch s cpu t).tasks u = s.tasks u := fun u hut => by
    rw [dispatch, setCurrent_tasks, setTask_of_ne _ _ hut]
  refine ⟨fun u => ?_, fun u => ?_, h.count, fun u hu => ?_, fun u hdead hcz => ?_, h.online⟩
  · have h1 := h.queue u
    have h2 : queued (dispatch s cpu t) u = queued s u := rfl
    rw [h2]
    by_cases hut : u = t
    · subst hut
      rw [Function.update_self, hself]
      rw [hready, if_pos rfl] at h1
      rw [if_neg (by simp)]
      omega
    · rw [Function.update_of_ne hut, hother u hut]
      exact h1
  · have h1 := hcpus u
    by_cases hut : u = t
    · subst hut
      rw [if_pos rfl] at h1
      rw [hself]
      exact ⟨by omega, fun _ => by omega, fun hc => by rcases hc with hc | hc <;> cases hc⟩
    · rw [if_neg (Ne.symm hut), Nat.add_zero] at h1
      rw [h1, hother u hut]
      exact h.cpu u
  · have hut : u ≠ t := by
      rintro rfl
      exact absurd hu (not_le.mpr hlive)
    rw [hother u hut]
    exact h.unused u hu
  · have h1 := hcpus u
    have hut : u ≠ t := by
      rintro rfl
      rw [if_pos rfl] at h1
      omega
    rw [if_neg (Ne.symm hut)] at h1
    rw [hother u hut] at hdead ⊢
    exact h.frame u hdead (by omega)

theorem dispatch_setCurrent (s : State) (cpu t : Nat) (o : Option Nat) :
    dispatch (setCurrent s cpu o) cpu t = dispatch s cpu t := by
  unfold dispatch setCurrent Sched.setTask
  simp only [Function.update_idem]

theorem update_add_sub (p : Nat → Nat) (t : Nat) :
    Function.update (Function.update p t (p t + 1)) t (Function.update p t (p t + 1) t - 1) = p := by
  rw [Function.update_self, Function.update_idem, Nat.add_sub_cancel, Function.update_eq_self]

theorem Fits.schedule (h : Fits s p) (hcpu : cpu < smpMaxCpus) {regs : Nat} (hregs : regs ≠ 0)
    (now : Nat) : Fits (scheduleOnCpu s cpu regs now).1 p := by
  rcases scheduleOnCpu_cases h hcpu regs now with
    ⟨_, heq⟩ | ⟨c, l, next, hc, _, hl, _, _, ⟨hidle, heq⟩ | ⟨cur, hcur, _, _, heq⟩⟩
  · rw [heq]
    exact h.saveFrame hregs _
  · have hpop := h.pop hc hl
    have hpos : 0 < Function.update p next (p next + 1) next := by simp
    rw [heq, ← update_add_sub p next]
    rcases h.cur_cases hcpu with ⟨hnone, _, hb⟩ | ⟨t, hr, _⟩ | ⟨t, _, hb⟩
    · rw [hb]
      exact hpop.enter hcpu hnone hpos
    · rw [hidle] at hr
      cases hr
    · obtain ⟨hcurrent, _, hst⟩ := curBlocked_eq_some hb
      have hleave := hpop.leave (f := fun x => { x with rsp := regs }) hcpu hcurrent
        (fun _ _ => rfl) (hpop.queue t) (by rcases hst with hst | hst <;> simp [hst])
        fun _ => hregs
      have henter := hleave.enter (t := next) hcpu (setCurrent_self _ _ _) hpos
      rw [dispatch_setCurrent] at henter
      rw [hb]
      exact henter
  · have hpop := h.pop hc hl
    obtain ⟨hcurrent, _, hrun⟩ := curRunning_eq_some hcur
    have hqueue := hpop.queue cur
    rw [setRunq_tasks, hrun, if_neg (by simp)] at hqueue
    -- the outgoing task leaves the CPU, is pushed, and the next one enters
    have hleave := hpop.leave (q := Function.update (Function.update p next (p next + 1)) cur 1)
      (f := fun x => { x with rsp := regs, state := .ready }) hcpu hcurrent
      (fun u hu => Function.update_of_ne hu _ _)
      (by rw [Function.update_self, if_pos rfl]; omega) (by simp) fun _ => hregs
    obtain ⟨_, _, hpush⟩ := hleave.runqPush now hcpu (t := cur) (by simp)
    have hne : next ≠ cur := by
      rintro rfl
      rw [Function.update_self] at hqueue
      omega
    have hzero : Function.update p next (p next + 1) cur = 0 := by omega
    have hback : Function.update (Function.update (Function.update p next (p next + 1)) cur 1) cur
        (Function.update (Function.update p next (p next + 1)) cur 1 cur - 1) =
        Function.update p next (p next + 1) := by
      rw [Function.update_idem, Function.update_self, Nat.sub_self, ← hzero,
        Function.update_eq_self]
    rw [hback] at hpush
    have henter := hpush.enter (t := next) hcpu (setCurrent_self _ _ _) (by simp)
    rw [update_add_sub] at henter
    rw [heq]
    rw [show dispatch (requeue (setRunq s c l) cpu cur regs now) cpu next =
      dispatch (setCurrent (requeue (setRunq s c l) cpu cur regs now) cpu none) cpu next from
        (dispatch_setCurrent _ _ _ _).symm]
    exact henter

/-! ## The other sections -/

theorem reserveSlot_cases {slot : Nat} (h : Fits s p) (hs : reserveSlot s = some (slot, s')) :
    slot < s'.taskCount ∧ slot ≠ 0 ∧ (s.tasks slot).state = .dead ∧ s'.tasks = s.tasks ∧
      Fits s' p := by
  unfold reserveSlot at hs
  split at hs
  · rename_i i hi
    obtain ⟨rfl, rfl⟩ := Prod.mk.inj (Option.some.inj hs)
    have hp := List.find?_some hi
    rw [Bool.and_eq_true, decide_eq_true_eq, beq_iff_eq] at hp
    exact ⟨List.mem_range.mp (List.mem_of_find?_eq_some hi), by omega, hp.2, rfl, h⟩
  · split_ifs at hs with hlt
    obtain ⟨rfl, rfl⟩ := Prod.mk.inj (Option.some.inj hs)
    have hpos := h.count.1
    refine ⟨Nat.lt_succ_self _, by omega, h.unused _ (le_refl _), rfl, h.queue, h.cpu,
      ⟨Nat.succ_pos _, hlt⟩, fun t ht => h.unused t (Nat.le_of_succ_le ht), h.frame, h.online⟩

/-- A task that is dead is nowhere. -/
theorem Fits.dead (h : Fits s p) (ht : (s.tasks t).state = .dead) :
    queued s t + p t = 0 ∧ onCpus s t = 0 := by
  have hq := h.queue t
  rw [ht, if_neg (by simp)] at hq
  exact ⟨hq, (h.cpu t).2.2 (Or.inr ht)⟩

theorem Fits.create (h : Fits s p) (new : NewTask) :
    (createTask s new).slot = none ∧ (createTask s new).sched = s ∨
    ∃ slot, (createTask s new).slot = some slot ∧
      Fits (createTask s new).sched (Function.update p slot (p slot + 1)) := by
  unfold createTask
  cases hslot : reserveSlot s with
  | none => exact Or.inl ⟨rfl, rfl⟩
  | some out =>
    right
    obtain ⟨slot, s'⟩ := out
    obtain ⟨hlt, _, hdead, htasks, h'⟩ := reserveSlot_cases h hslot
    have hd := h'.dead (t := slot) (by rw [htasks]; exact hdead)
    refine ⟨slot, rfl, ?_⟩
    dsimp only
    refine h'.setTask (fun u hu => Function.update_of_ne hu _ _) ?_ ?_
      (fun hc => absurd hlt (not_lt.mpr hc)) fun _ _ => new.rsp_ne
    · rw [Function.update_self, if_pos rfl]
      omega
    · exact ⟨by omega, fun hc => (by cases hc), fun _ => hd.2⟩

theorem parkedOn_eq_none (h : parkedOn s t = none) : onCpus s t = 0 := by
  refine total_eq_zero.mpr fun c hc hmem => ?_
  have hno := List.find?_eq_none.mp h c (List.mem_range.mpr hc)
  simp at hmem hno
  exact hno hmem

theorem parkedOn_eq_some (h : parkedOn s t = some cpu) :
    cpu < smpMaxCpus ∧ s.current cpu = some t :=
  ⟨List.mem_range.mp (List.mem_of_find?_eq_some h), by simpa using List.find?_some h⟩

theorem Fits.unblock (h : Fits s p) (t : Nat) :
    Fits (unblockTask s t).2
      (if (unblockTask s t).1 = .push then Function.update p t (p t + 1) else p) := by
  by_cases hnop : maxTasks ≤ t ∨ (s.tasks t).state ≠ .sleeping ∧ (s.tasks t).state ≠ .blocked
  · have hres : unblockTask s t = (.nothing, s) := by
      unfold unblockTask
      rcases hnop with hnop | hnop
      · rw [if_pos hnop]
      · rw [if_pos hnop, ite_self]
    rw [hres, if_neg (by simp)]
    exact h
  · rw [not_or, not_and_or, not_not, not_not] at hnop
    obtain ⟨hlt, hst⟩ := hnop
    have hst' : ¬ ((s.tasks t).state ≠ .sleeping ∧ (s.tasks t).state ≠ .blocked) := by
      rw [not_and_or, not_not, not_not]
      exact hst
    have hdead : (s.tasks t).state ≠ .dead := by rcases hst with hst | hst <;> rw [hst] <;> simp
    have hready : (s.tasks t).state ≠ .ready := by rcases hst with hst | hst <;> rw [hst] <;> simp
    have hq := h.queue t
    rw [if_neg hready] at hq
    have hlive := h.live hdead
    unfold unblockTask
    rw [if_neg hlt, if_neg hst']
    cases hpark : parkedOn s t with
    | none =>
      have hzero := parkedOn_eq_none hpark
      rw [if_pos rfl]
      dsimp only
      refine h.setTask (fun u hu => Function.update_of_ne hu _ _) ?_ ?_
        (fun hc => absurd hlive (not_lt.mpr hc)) fun _ _ => h.frame t hdead hzero
      · rw [Function.update_self, if_pos rfl]
        omega
      · exact ⟨by omega, fun hc => (by cases hc), fun _ => hzero⟩
    | some c =>
      obtain ⟨hc, hcur⟩ := parkedOn_eq_some hpark
      have hpos := onCpus_pos hc hcur
      have hone := (h.cpu t).1
      rw [if_neg (by simp)]
      dsimp only
      refine h.setTask (fun _ _ => rfl) ?_ ?_ (fun hc => absurd hlive (not_lt.mpr hc))
        fun _ hzero => by omega
      · rw [if_neg (by simp)]
        exact hq
      · exact ⟨hone, fun _ => by omega, fun hc => by rcases hc with hc | hc <;> cases hc⟩

theorem Fits.block (h : Fits s p) (hcpu : cpu < smpMaxCpus) (st : TaskState) :
    Fits (blockPrepare s cpu st).2 p := by
  unfold blockPrepare
  split_ifs with hst
  · exact h
  · rw [not_and_or, not_not, not_not] at hst
    cases hcur : curRunning s cpu with
    | none => exact h
    | some self =>
      obtain ⟨hcurrent, hlt, hrun⟩ := curRunning_eq_some hcur
      have hq := h.queue self
      rw [hrun, if_neg (by simp)] at hq
      have hpos := onCpus_pos hcpu hcurrent
      dsimp only
      refine h.setTask (fun _ _ => rfl) ?_ ?_ (fun hc => absurd hlt (not_lt.mpr hc))
        fun _ hzero => by omega
      · dsimp only
        rw [if_neg (by rcases hst with rfl | rfl <;> simp)]
        exact hq
      · refine ⟨(h.cpu self).1, fun hc => ?_, fun hc => ?_⟩
        · rcases hst with rfl | rfl <;> cases hc
        · rcases hst with rfl | rfl <;> rcases hc with hc | hc <;> cases hc

/-- `task_exit` on the CPU of the task. -/
theorem Fits.taskExit (h : Fits s p) (hcpu : cpu < smpMaxCpus) (hcur : curRunning s cpu = some t)
    (ht : t ≠ 0) : taskExit s cpu = ⟨(s.tasks t).stackBase, (s.tasks t).pml4Phys, setCurrent
        (Sched.setTask s t fun x =>
          { x with state := .dead, rsp := 0, stackBase := 0, pml4Phys := 0 }) cpu none⟩ ∧
      Fits (Sched.taskExit s cpu).sched p := by
  obtain ⟨hcurrent, hlt, hrun⟩ := curRunning_eq_some hcur
  have hlive := liveCurrent_of_current h hcpu hcurrent
  have hres : Sched.taskExit s cpu = ⟨(s.tasks t).stackBase, (s.tasks t).pml4Phys, setCurrent
      (Sched.setTask s t fun x =>
        { x with state := .dead, rsp := 0, stackBase := 0, pml4Phys := 0 }) cpu none⟩ := by
    unfold Sched.taskExit
    rw [hlive, Option.filter_some, if_pos (by simpa using Nat.pos_of_ne_zero ht)]
  refine ⟨hres, ?_⟩
  rw [hres]
  have hq := h.queue t
  rw [hrun, if_neg (by simp)] at hq
  refine h.leave hcpu hcurrent (fun _ _ => rfl) ?_ (by simp) fun hc => absurd rfl hc
  rw [if_neg (by simp)]
  exact hq

/-! ## Sections that leave the CPUs alone -/

theorem createTask_current (s : State) (new : NewTask) (c : Nat) :
    (createTask s new).sched.current c = s.current c := by
  unfold createTask reserveSlot
  split
  · rfl
  · rename_i slot s' hslot
    split at hslot
    · cases hslot
      rfl
    · split_ifs at hslot
      cases hslot
      rfl

theorem unblockTask_current (s : State) (t c : Nat) :
    (unblockTask s t).2.current c = s.current c := by
  unfold unblockTask
  split_ifs
  · rfl
  · rfl
  · cases parkedOn s t <;> rfl

theorem blockPrepare_current (s : State) (cpu : Nat) (st : TaskState) (c : Nat) :
    (blockPrepare s cpu st).2.current c = s.current c := by
  unfold blockPrepare
  split_ifs
  · rfl
  · cases curRunning s cpu <;> rfl

end Kyuzen.Sched
