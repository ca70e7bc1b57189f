import Kyuzen.Sched.Cpus

/-!
# Who uses which stack

`Apart` ties the CPUs to the task table. A CPU with a task executes on the task's stack, or is in
the stub and is about to load the task's frame; the frame of a task that is on no CPU is on the
task's own stack. The stacks and the address spaces are in ledgers: each is owned by one task or
by one CPU in the rest of `task_exit`.

The events keep `Apart` if a task is taken from a queue only after the CPU that it left has loaded
its new stack (`Settled`), if `task_exit` stays on its CPU, and if a tick in the rest of
`task_exit` finds no task (`KeepsTail`).
-/

namespace Kyuzen.Sched

open Lib Lib.Places

/-! ## The invariant -/

def Live (s : State) (t : Nat) : Prop := (s.tasks t).state ≠ .dead

/-- The kernel stack of a task; `kmain` has the one that it was started on. -/
def stackOf (s : State) (t : Nat) : Nat := if t = 0 then bootStack else (s.tasks t).stackBase

/-- What the CPU `c` executes fits its current task. -/
def CpuOk (s : State) (c : Nat) : Ctx → Prop
  | .on stack => stack = (s.current c).elim (idleStack c) (stackOf s)
  | .switching old new => ∃ t, s.current c = some t ∧ new = stackOf s t ∧
    (old = idleStack c ∨ ∃ u, Live s u ∧ onCpus s u = 0 ∧ stackOf s u = old)
  | .tail cpuId stack old _ => s.current c = none ∧ cpuId = c ∧ stack = old ∧ bootStack < old
  | .reap stack old => s.current c = none ∧ stack = idleStack c ∧ bootStack < old

/-- A task has a stack of its own while it lives; `kmain` has no record of its stack. -/
structure RecordOk (s : State) (t : Nat) : Prop where
  live : Live s t → t ≠ 0 → bootStack < (s.tasks t).stackBase
  none : ¬ Live s t ∨ t = 0 → (s.tasks t).stackBase = 0 ∧ (s.tasks t).pml4Phys = 0

/-- Each item of `R` is owned once: by a task, whose record has it as `F`, or by a CPU that has it
as `G`. -/
def Owned (R : List Nat) (F : Task → Nat) (G : Ctx → Nat) (k : Kernel) : Prop :=
  Ledger R maxTasks smpMaxCpus ((fun x => nonNull (F x)) ∘ k.machine.sched.tasks)
    ((fun x => nonNull (G x)) ∘ k.ctx)

structure Apart (k : Kernel) : Prop where
  placed : Placed k.machine
  cpu : ∀ c, c < smpMaxCpus → CpuOk k.machine.sched c (k.ctx c)
  frame : ∀ t, Live k.machine.sched t → onCpus k.machine.sched t = 0 →
    (k.machine.sched.tasks t).rsp = stackOf k.machine.sched t
  record : ∀ t, RecordOk k.machine.sched t
  stacksOwned : Owned k.allocated Task.stackBase Ctx.oldStack k
  spacesOwned : Owned k.spaces Task.pml4Phys Ctx.deadPml4 k

/-! ## The conditions -/

/-- The task that the tick takes is not still in use by the CPU that it left. -/
def Settled (k : Kernel) : Event → Prop
  | .tick cpu now => ∀ next, takeNext (relinquish k.machine.sched cpu) cpu now = some next →
    ∀ c, c < smpMaxCpus → (k.ctx c).inStub → (k.ctx c).stack ≠ (k.machine.sched.tasks next.1).rsp
  | _ => True

/-- The tick does not take a task while its CPU is in the rest of `task_exit`. -/
def KeepsTail (k : Kernel) : Event → Prop
  | .tick cpu now => (k.ctx cpu).Plain ∨ takeNext (relinquish k.machine.sched cpu) cpu now = none
  | _ => True

instance (k : Kernel) : (e : Event) → Decidable (Settled k e)
  | .tick cpu now => inferInstanceAs (Decidable (∀ next,
    takeNext (relinquish k.machine.sched cpu) cpu now = some next → ∀ c, c < smpMaxCpus →
      (k.ctx c).inStub → (k.ctx c).stack ≠ (k.machine.sched.tasks next.1).rsp))
  | .movRsp _ | .create _ _ | .unblock _ | .push _ _ _ | .block _ _ | .exitEnter _ _
  | .exitLocked _ | .destroyAs _ | .viaIdle _ | .finish _ | .idle _ => inferInstanceAs (Decidable True)

instance (k : Kernel) : (e : Event) → Decidable (KeepsTail k e)
  | .tick cpu now => decidable_of_iff
    ((k.ctx cpu).Plain ∨ (takeNext (relinquish k.machine.sched cpu) cpu now).isNone)
    (by rw [Option.isNone_iff_eq_none]; exact Iff.rfl)
  | .movRsp _ | .create _ _ | .unblock _ | .push _ _ _ | .block _ _ | .exitEnter _ _
  | .exitLocked _ | .destroyAs _ | .viaIdle _ | .finish _ | .idle _ => inferInstanceAs (Decidable True)

/-- `task_exit` has not moved to another CPU before its locked section. -/
def Stays (k : Kernel) (e : Event) : Prop := ∀ op, e.op k = some op → OnOwnCpu k.machine op

instance (k : Kernel) (e : Event) : Decidable (Stays k e) :=
  inferInstanceAs (Decidable (∀ op, e.op k = some op → OnOwnCpu k.machine op))

/-! ## Sections that leave the owners alone -/

/-- The tasks own what they owned before. -/
structure SameOwners (s s' : State) : Prop where
  stackBase : ∀ t, (s'.tasks t).stackBase = (s.tasks t).stackBase
  pml4Phys : ∀ t, (s'.tasks t).pml4Phys = (s.tasks t).pml4Phys
  live : ∀ t, Live s' t ↔ Live s t

variable {s s' s'' : State} {k : Kernel} {p : Nat → Nat} {t u cpu : Nat}

theorem SameOwners.refl (s : State) : SameOwners s s :=
  ⟨fun _ => rfl, fun _ => rfl, fun _ => Iff.rfl⟩

theorem SameOwners.trans (h : SameOwners s s') (h' : SameOwners s' s'') : SameOwners s s'' :=
  ⟨fun t => (h'.stackBase t).trans (h.stackBase t), fun t => (h'.pml4Phys t).trans (h.pml4Phys t),
    fun t => (h'.live t).trans (h.live t)⟩

theorem SameOwners.of_tasks (h : s'.tasks = s.tasks) : SameOwners s s' :=
  ⟨fun t => by rw [h], fun t => by rw [h], fun t => by rw [Live, Live, h]⟩

theorem sameOwners_setTask {f : Task → Task}
    (hstack : (f (s.tasks t)).stackBase = (s.tasks t).stackBase)
    (hpml4 : (f (s.tasks t)).pml4Phys = (s.tasks t).pml4Phys)
    (hlive : (f (s.tasks t)).state ≠ .dead ↔ (s.tasks t).state ≠ .dead) :
    SameOwners s (setTask s t f) := by
  refine ⟨fun u => ?_, fun u => ?_, fun u => ?_⟩
  all_goals
    by_cases hu : u = t
    · subst hu
      simpa [Live] using by assumption
    · simp [Live, setTask_of_ne _ _ hu]

theorem setTask_rsp {f : Task → Task} (h : (f (s.tasks t)).rsp = (s.tasks t).rsp) (u : Nat) :
    ((setTask s t f).tasks u).rsp = (s.tasks u).rsp := by
  by_cases hu : u = t
  · subst hu
    rw [setTask_self, h]
  · rw [setTask_of_ne _ _ hu]

theorem SameOwners.stackOf (h : SameOwners s s') (t : Nat) : stackOf s' t = stackOf s t := by
  unfold Sched.stackOf
  rw [h.stackBase]

theorem SameOwners.record (h : SameOwners s s') (hr : RecordOk s t) : RecordOk s' t := by
  refine ⟨fun hl => ?_, fun hl => ?_⟩
  · rw [h.stackBase]
    exact hr.live ((h.live t).mp hl)
  · rw [h.stackBase, h.pml4Phys]
    exact hr.none (hl.imp_left fun hl hc => hl ((h.live t).mpr hc))

theorem onCpus_congr (h : s'.current = s.current) (t : Nat) : onCpus s' t = onCpus s t := by
  unfold onCpus
  rw [h]

theorem sameOwners_saveFrame (s : State) (cur : Option Nat) (regs : Nat) :
    SameOwners s (saveFrame s cur regs) := by
  cases cur with
  | none => exact SameOwners.refl s
  | some t =>
    unfold saveFrame
    exact sameOwners_setTask rfl rfl Iff.rfl

theorem sameOwners_dispatch (ht : (s.tasks t).state = .ready) :
    SameOwners s (dispatch s cpu t) := by
  have hset : SameOwners s (setTask s t fun x => { x with state := .running }) :=
    sameOwners_setTask rfl rfl (by simp [ht])
  exact hset.trans (SameOwners.of_tasks rfl)

theorem sameOwners_unblockTask (s : State) (t : Nat) : SameOwners s (unblockTask s t).2 := by
  unfold unblockTask
  split_ifs with hmax hst
  · exact SameOwners.refl s
  · exact SameOwners.refl s
  · have hdead : (s.tasks t).state ≠ .dead := by
      intro hc
      simp [hc] at hst
    cases parkedOn s t with
    | none =>
      dsimp only
      exact sameOwners_setTask rfl rfl (by simp [hdead])
    | some c =>
      dsimp only
      exact sameOwners_setTask rfl rfl (by simp [hdead])

theorem sameOwners_blockPrepare (s : State) (cpu : Nat) (st : TaskState) :
    SameOwners s (blockPrepare s cpu st).2 := by
  unfold blockPrepare
  split_ifs with hst
  · exact SameOwners.refl s
  · cases hcur : curRunning s cpu with
    | none => exact SameOwners.refl s
    | some self =>
      have hrun := (curRunning_eq_some hcur).2.2
      have hdead : st ≠ .dead := by
        rintro rfl
        simp at hst
      dsimp only
      exact sameOwners_setTask rfl rfl (by simp [hrun, hdead])

theorem unblockTask_rsp (s : State) (t u : Nat) :
    ((unblockTask s t).2.tasks u).rsp = (s.tasks u).rsp := by
  unfold unblockTask
  split_ifs
  · rfl
  · rfl
  · cases parkedOn s t with
    | none =>
      dsimp only
      exact setTask_rsp rfl u
    | some c =>
      dsimp only
      exact setTask_rsp rfl u

theorem blockPrepare_rsp (s : State) (cpu : Nat) (st : TaskState) (u : Nat) :
    ((blockPrepare s cpu st).2.tasks u).rsp = (s.tasks u).rsp := by
  unfold blockPrepare
  split_ifs
  · rfl
  · cases curRunning s cpu with
    | none => rfl
    | some self =>
      dsimp only
      exact setTask_rsp rfl u

theorem sameOwners_requeue (hlive : Live s t) (regs now : Nat) :
    SameOwners s (requeue s cpu t regs now) := by
  have hyield : SameOwners s (yieldTask s t regs) :=
    sameOwners_setTask rfl rfl (iff_of_true (by simp) hlive)
  refine hyield.trans ((sameOwners_setTask (f := fun x => { x with enqueueMs := now }) (t := t) rfl
    rfl Iff.rfl).trans ?_)
  exact SameOwners.of_tasks rfl

theorem saveFrame_rsp (ht : s.current cpu ≠ some t) (s' : State) (regs : Nat) :
    ((saveFrame s' (curBlocked s cpu) regs).tasks t).rsp = (s'.tasks t).rsp := by
  cases hb : curBlocked s cpu with
  | none => rfl
  | some u =>
    have hut : t ≠ u := by
      rintro rfl
      exact ht (curBlocked_eq_some hb).1
    simp [saveFrame, setTask_of_ne _ _ hut]

theorem dispatch_rsp (s : State) (cpu next t : Nat) :
    ((dispatch s cpu next).tasks t).rsp = (s.tasks t).rsp := by
  by_cases ht : t = next
  · subst ht
    simp [dispatch]
  · simp [dispatch, setTask_of_ne _ _ ht]

/-- What `schedule_on_cpu` does to the current tasks and to the frames. -/
theorem scheduleOnCpu_shape (h : Fits s p) (hcpu : cpu < smpMaxCpus) (regs now : Nat) :
    SameOwners s (scheduleOnCpu s cpu regs now).1 ∧
      (∀ t, s.current cpu ≠ some t →
        ((scheduleOnCpu s cpu regs now).1.tasks t).rsp = (s.tasks t).rsp) ∧
      ((takeNext s cpu now = none ∧ (scheduleOnCpu s cpu regs now).1.current = s.current) ∨
        ∃ next s₁, takeNext s cpu now = some (next, s₁) ∧ (s.tasks next).state = .ready ∧
          (scheduleOnCpu s cpu regs now).2 = (s.tasks next).rsp ∧
          (scheduleOnCpu s cpu regs now).1.current = Function.update s.current cpu (some next) ∧
          ∀ t, s.current cpu = some t → ((scheduleOnCpu s cpu regs now).1.tasks t).rsp = regs) := by
  rcases scheduleOnCpu_cases h hcpu regs now with
    ⟨hnone, heq⟩ | ⟨c, l, next, hc, htake, hl, hready, _, ⟨hidle, heq⟩ | ⟨cur, hcur, _, _, heq⟩⟩
  · rw [heq]
    exact ⟨sameOwners_saveFrame _ _ _, fun _ ht => saveFrame_rsp ht s regs,
      Or.inl ⟨hnone, saveFrame_current _ _ _⟩⟩
  · rw [heq]
    refine ⟨?_, fun t ht => ?_, Or.inr ⟨next, _, htake, hready, rfl, ?_, fun t ht => ?_⟩⟩
    · have hpop : SameOwners s (setRunq s c l) := SameOwners.of_tasks rfl
      refine (hpop.trans (sameOwners_saveFrame _ _ regs)).trans (sameOwners_dispatch ?_)
      cases hb : curBlocked s cpu with
      | none => exact hready
      | some u => simp [saveFrame, setTask_of_ne _ _ (ready_ne_curBlocked hready hb), hready]
    · rw [dispatch_rsp, saveFrame_rsp ht]
      rfl
    · unfold dispatch setCurrent
      simp only [setTask_current, saveFrame_current, setRunq_current]
    · rw [dispatch_rsp]
      rcases h.cur_cases hcpu with ⟨hno, _⟩ | ⟨u, hrun, _⟩ | ⟨u, _, hb⟩
      · rw [hno] at ht
        cases ht
      · rw [hidle] at hrun
        cases hrun
      · have hut := (curBlocked_eq_some hb).1
        rw [ht] at hut
        cases hut
        simp [saveFrame, hb]
  · obtain ⟨hcurrent, _, hrun⟩ := curRunning_eq_some hcur
    have hne := ready_ne_curRunning hready hcur
    rw [heq]
    refine ⟨?_, fun t ht => ?_, Or.inr ⟨next, _, htake, hready, rfl, rfl, fun t ht => ?_⟩⟩
    · have hpop : SameOwners s (setRunq s c l) := SameOwners.of_tasks rfl
      have hqueued : SameOwners (setRunq s c l) (requeue (setRunq s c l) cpu cur regs now) :=
        sameOwners_requeue (by rw [Live, setRunq_tasks, hrun]; simp) regs now
      refine (hpop.trans hqueued).trans (sameOwners_dispatch ?_)
      simp [requeue, yieldTask, setTask_of_ne _ _ hne, hready]
    · have htcur : t ≠ cur := by
        rintro rfl
        exact ht hcurrent
      rw [dispatch_rsp]
      simp [requeue, yieldTask, setTask_of_ne _ _ htcur]
    · rw [ht] at hcurrent
      cases hcurrent
      rw [dispatch_rsp]
      simp [requeue, yieldTask]

/-! ## The stacks of tasks -/

theorem nonNull_of_ne {x : Nat} (h : x ≠ 0) : nonNull x = [x] := if_neg h

theorem mem_nonNull {x y : Nat} : x ∈ nonNull y ↔ x = y ∧ y ≠ 0 := by
  unfold nonNull
  split_ifs with h
  · simp [h]
  · simp [h]

theorem Apart.fits (h : Apart k) : Fits k.machine.sched (waiting k.machine) := h.placed.fits

theorem Apart.boot_le (h : Apart k) (ht : Live k.machine.sched t) :
    bootStack ≤ stackOf k.machine.sched t := by
  unfold stackOf
  split_ifs with hz
  · exact le_refl _
  · exact le_of_lt ((h.record t).live ht hz)

theorem idleStack_lt {c : Nat} (hc : c < smpMaxCpus) : idleStack c < bootStack :=
  Nat.succ_lt_succ hc

/-- Two tasks that live have different stacks. -/
theorem Apart.stackOf_inj (h : Apart k) (ht : Live k.machine.sched t)
    (hu : Live k.machine.sched u)
    (heq : stackOf k.machine.sched t = stackOf k.machine.sched u) : t = u := by
  unfold stackOf at heq
  split_ifs at heq with ht0 hu0 hu0
  · rw [ht0, hu0]
  · exact absurd heq (Nat.ne_of_lt ((h.record u).live hu hu0))
  · exact absurd heq (Nat.ne_of_gt ((h.record t).live ht ht0))
  · have htpos := (h.record t).live ht ht0
    refine h.stacksOwned.unique_left (h.fits.lt_maxTasks ht) (h.fits.lt_maxTasks hu)
      (a := (k.machine.sched.tasks t).stackBase) ?_ ?_
    · exact mem_nonNull.mpr ⟨rfl, by omega⟩
    · exact mem_nonNull.mpr ⟨heq, by omega⟩

/-- The task of a CPU lives. -/
theorem Apart.live_current (h : Apart k) {c : Nat} (hc : c < smpMaxCpus)
    (ht : k.machine.sched.current c = some t) : Live k.machine.sched t :=
  (h.fits.current hc ht).2

/-! ## Owners -/

section Owners

variable {R : List Nat} {F : Task → Nat} {G : Ctx → Nat} {k' : Kernel}

theorem update_same {f : Nat → Ctx} {x : Ctx} (h : G x = G (f cpu)) (c : Nat) :
    G (Function.update f cpu x c) = G (f c) := by
  by_cases hc : c = cpu
  · subst hc
    rw [Function.update_self, h]
  · rw [Function.update_of_ne hc]

theorem Owned.same (h : Owned R F G k)
    (hF : ∀ t, F (k'.machine.sched.tasks t) = F (k.machine.sched.tasks t))
    (hG : ∀ c, G (k'.ctx c) = G (k.ctx c)) : Owned R F G k' := by
  have htasks : (fun x => nonNull (F x)) ∘ k'.machine.sched.tasks =
      (fun x => nonNull (F x)) ∘ k.machine.sched.tasks := funext fun t => congrArg nonNull (hF t)
  have hctx : (fun x => nonNull (G x)) ∘ k'.ctx = (fun x => nonNull (G x)) ∘ k.ctx :=
    funext fun c => congrArg nonNull (hG c)
  unfold Owned
  rw [htasks, hctx]
  exact h

/-- The CPU gives up its item. -/
theorem Owned.drop {x : Ctx} (h : Owned R F G k) (hcpu : cpu < smpMaxCpus)
    (htasks : k'.machine.sched.tasks = k.machine.sched.tasks)
    (hctx : k'.ctx = Function.update k.ctx cpu x) (hx : G x = 0) :
    Owned (R.diff (nonNull (G (k.ctx cpu)))) F G k' := by
  have hdrop := Ledger.drop h hcpu
  unfold Owned
  rw [htasks, hctx, Function.comp_update, hx]
  exact hdrop

/-- The item of the task goes to the CPU. -/
theorem Owned.move {x : Ctx} {y : Task} (h : Owned R F G k) (ht : t < maxTasks)
    (hcpu : cpu < smpMaxCpus)
    (htasks : k'.machine.sched.tasks = Function.update k.machine.sched.tasks t y)
    (hctx : k'.ctx = Function.update k.ctx cpu x) (hy : F y = 0)
    (hx : G x = F (k.machine.sched.tasks t)) (hfree : G (k.ctx cpu) = 0) : Owned R F G k' := by
  have hmove := Ledger.move h ht hcpu (show nonNull (G (k.ctx cpu)) = [] by rw [hfree]; rfl)
  unfold Owned
  rw [htasks, hctx, Function.comp_update, Function.comp_update, hy, hx]
  exact hmove

/-- A task gets a new item. -/
theorem Owned.add {y : Task} (h : Owned R F G k) (ht : t < maxTasks)
    (htasks : k'.machine.sched.tasks = Function.update k.machine.sched.tasks t y)
    (hctx : k'.ctx = k.ctx) (hfree : F (k.machine.sched.tasks t) = 0)
    (hnew : F y ≠ 0 → F y ∉ R) : Owned (nonNull (F y) ++ R) F G k' := by
  have hnodup : (nonNull (F y) ++ R).Nodup := by
    unfold nonNull
    split_ifs with hz
    · exact h.nodup
    · exact List.nodup_cons.mpr ⟨hnew hz, h.nodup⟩
  have hadd := Ledger.add h ht (show nonNull (F (k.machine.sched.tasks t)) = [] by
    rw [hfree]; rfl) hnodup
  unfold Owned
  rw [htasks, hctx, Function.comp_update]
  exact hadd

end Owners

/-- What a CPU executes still fits after a step that does not touch its tasks. -/
theorem CpuOk.mono {c : Nat} {x : Ctx} (h : CpuOk s c x) (hcur : s'.current c = s.current c)
    (hstack : ∀ t, s.current c = some t → stackOf s' t = stackOf s t)
    (hleft : ∀ u, x.inStub → Live s u → onCpus s u = 0 → stackOf s u = x.stack →
      Live s' u ∧ onCpus s' u = 0 ∧ stackOf s' u = stackOf s u) : CpuOk s' c x := by
  cases x with
  | on stack =>
    dsimp only [CpuOk] at h ⊢
    rw [hcur]
    cases hc : s.current c with
    | none =>
      rw [hc] at h
      exact h
    | some t =>
      rw [hc] at h
      exact h.trans (hstack t hc).symm
  | switching old new =>
    obtain ⟨t, ht, hnew, hold⟩ := h
    refine ⟨t, hcur.trans ht, hnew.trans (hstack t ht).symm, hold.imp_right ?_⟩
    rintro ⟨u, hu, hzero, heq⟩
    obtain ⟨h1, h2, h3⟩ := hleft u rfl hu hzero heq
    exact ⟨u, h1, h2, h3.trans heq⟩
  | tail cpuId stack old pml4 => exact ⟨hcur.trans h.1, h.2⟩
  | reap stack old => exact ⟨hcur.trans h.1, h.2⟩

/-- A step that leaves the owners, the CPUs and the frames of tasks off the CPUs alone. -/
theorem Apart.same (h : Apart k) {k' : Kernel} (hplaced : Placed k'.machine)
    (hown : SameOwners k.machine.sched k'.machine.sched)
    (hcur : k'.machine.sched.current = k.machine.sched.current)
    (hrsp : ∀ t, onCpus k.machine.sched t = 0 →
      (k'.machine.sched.tasks t).rsp = (k.machine.sched.tasks t).rsp)
    (hctx : k'.ctx = k.ctx) (halloc : k'.allocated = k.allocated) (hspaces : k'.spaces = k.spaces) :
    Apart k' := by
  have hon := fun t => onCpus_congr hcur t
  refine ⟨hplaced, fun c hc => ?_, fun t ht hz => ?_, fun t => hown.record (h.record t), ?_, ?_⟩
  · rw [hctx]
    refine (h.cpu c hc).mono (congrFun hcur c) (fun t _ => hown.stackOf t) fun u _ hu hz _ => ?_
    exact ⟨(hown.live u).mpr hu, (hon u).trans hz, hown.stackOf u⟩
  · rw [hon] at hz
    rw [hrsp t hz, hown.stackOf]
    exact h.frame t ((hown.live t).mp ht) hz
  · rw [halloc]
    exact h.stacksOwned.same hown.stackBase fun c => by rw [hctx]
  · rw [hspaces]
    exact h.spacesOwned.same hown.pml4Phys fun c => by rw [hctx]

/-! ## Ticks -/

theorem onCpus_update {o : Option Nat} (hcpu : cpu < smpMaxCpus)
    (hcur : s'.current = Function.update s.current cpu o) (u : Nat) :
    onCpus s' u + (if s.current cpu = some u then 1 else 0) =
      onCpus s u + if o = some u then 1 else 0 := by
  have hset := onCpus_setCurrent hcpu s o u
  have heq : onCpus s' u = onCpus (setCurrent s cpu o) u := onCpus_congr hcur u
  rw [count_toList, count_toList, ← heq] at hset
  exact hset

theorem onCpus_switch {next : Nat} (hcpu : cpu < smpMaxCpus)
    (hcur : s'.current = Function.update s.current cpu (some next)) (u : Nat) :
    onCpus s' u + (if s.current cpu = some u then 1 else 0) =
      onCpus s u + if next = u then 1 else 0 := by
  have hset := onCpus_update hcpu hcur u
  simp only [Option.some.injEq] at hset
  exact hset

/-- The CPU that switches to the task `next`: the task that it leaves is on no other CPU. -/
theorem Apart.cpu_switch (h : Apart k) {next old : Nat} (hcpu : cpu < smpMaxCpus)
    (hown : SameOwners k.machine.sched s')
    (hcur : s'.current = Function.update k.machine.sched.current cpu (some next))
    (hon : k.ctx cpu = .on old) (hoff : onCpus k.machine.sched next = 0)
    (hnext : (k.machine.sched.tasks next).rsp = Sched.stackOf k.machine.sched next) :
    CpuOk s' cpu (.switching old (k.machine.sched.tasks next).rsp) := by
  have hold := h.cpu cpu hcpu
  rw [hon] at hold
  dsimp only [CpuOk] at hold
  refine ⟨next, by rw [hcur, Function.update_self], by rw [hown.stackOf, hnext], ?_⟩
  cases hc : k.machine.sched.current cpu with
  | none =>
    rw [hc] at hold
    exact Or.inl hold
  | some t =>
    rw [hc] at hold
    have hone := onCpus_switch hcpu hcur t
    have hpos := onCpus_pos hcpu hc
    have hle := (h.fits.cpu t).1
    have hne : next ≠ t := by
      rintro rfl
      omega
    rw [hc, if_pos rfl, if_neg hne] at hone
    refine Or.inr ⟨t, (hown.live t).mpr (h.live_current hcpu hc), by omega, ?_⟩
    rw [hown.stackOf]
    exact hold.symm

/-- A tick that takes the task `next`. -/
theorem Apart.switch (h : Apart k) {k' : Kernel} {next old : Nat} (hcpu : cpu < smpMaxCpus)
    (hplaced : Placed k'.machine) (hown : SameOwners k.machine.sched k'.machine.sched)
    (hready : (k.machine.sched.tasks next).state = .ready)
    (hcur : k'.machine.sched.current = Function.update k.machine.sched.current cpu (some next))
    (hrsp : ∀ t, k.machine.sched.current cpu ≠ some t →
      (k'.machine.sched.tasks t).rsp = (k.machine.sched.tasks t).rsp)
    (hout : ∀ t, k.machine.sched.current cpu = some t → (k'.machine.sched.tasks t).rsp = old)
    (hon : k.ctx cpu = .on old)
    (hsettled : ∀ c, c < smpMaxCpus → (k.ctx c).inStub →
      (k.ctx c).stack ≠ (k.machine.sched.tasks next).rsp)
    (hctx : k'.ctx = Function.update k.ctx cpu
      (.switching old (k.machine.sched.tasks next).rsp))
    (halloc : k'.allocated = k.allocated) (hspaces : k'.spaces = k.spaces) : Apart k' := by
  have hlive : Live k.machine.sched next := by
    unfold Live
    rw [hready]
    simp
  have hoff : onCpus k.machine.sched next = 0 := (h.fits.cpu next).2.2 (Or.inl hready)
  have hnext := h.frame next hlive hoff
  have hcpus := onCpus_switch hcpu hcur
  have hold := h.cpu cpu hcpu
  rw [hon] at hold
  dsimp only [CpuOk] at hold
  refine ⟨hplaced, fun c hc => ?_, fun t ht hz => ?_, fun t => hown.record (h.record t), ?_, ?_⟩
  · rw [hctx]
    by_cases heq : c = cpu
    · subst heq
      rw [Function.update_self]
      exact h.cpu_switch hc hown hcur hon hoff hnext
    · rw [Function.update_of_ne heq]
      refine (h.cpu c hc).mono (by rw [hcur, Function.update_of_ne heq])
        (fun t _ => hown.stackOf t) fun u hstub hu hz hstack => ?_
      have hne : next ≠ u := by
        rintro rfl
        refine hsettled c hc hstub ?_
        rw [hnext, hstack]
      have hone := hcpus u
      rw [if_neg hne] at hone
      exact ⟨(hown.live u).mpr hu, by omega, hown.stackOf u⟩
  · have hone := hcpus t
    have hlt := (hown.live t).mp ht
    have hne : next ≠ t := by
      rintro rfl
      have hno : k.machine.sched.current cpu ≠ some next := fun hc => by
        have := onCpus_pos hcpu hc
        omega
      rw [hz, if_neg hno, if_pos rfl] at hone
      omega
    rw [if_neg hne, hz] at hone
    rw [hown.stackOf]
    by_cases htc : k.machine.sched.current cpu = some t
    · rw [htc] at hold
      rw [hout t htc]
      exact hold
    · rw [hrsp t htc]
      rw [if_neg htc] at hone
      exact h.frame t hlt (by omega)
  · rw [halloc]
    exact h.stacksOwned.same hown.stackBase (hctx ▸ update_same (by rw [hon]; rfl))
  · rw [hspaces]
    exact h.spacesOwned.same hown.pml4Phys (hctx ▸ update_same (by rw [hon]; rfl))

/-! ## Creation and exit -/

/-- What the locked section of `create_task_prio` and `create_user_task` does. -/
theorem createTask_cases (h : Fits s p) (new : NewTask) :
    ((createTask s new).slot = none ∧ (createTask s new).freed = [new.stack]) ∨
    ∃ slot y, (createTask s new).slot = some slot ∧ slot ≠ 0 ∧ slot < maxTasks ∧
      (s.tasks slot).state = .dead ∧
      (createTask s new).sched.tasks = Function.update s.tasks slot y ∧
      y.state = .ready ∧ y.rsp = new.rsp ∧ y.stackBase = new.stack ∧ y.pml4Phys = new.pml4Phys ∧
      (createTask s new).freed = nonNull (s.tasks slot).stackBase := by
  unfold createTask
  cases hslot : reserveSlot s with
  | none => exact Or.inl ⟨rfl, rfl⟩
  | some out =>
    right
    obtain ⟨slot, s'⟩ := out
    obtain ⟨hlt, hne, hdead, htasks, h'⟩ := reserveSlot_cases h hslot
    refine ⟨slot, { s.tasks slot with
      state := .ready, rsp := new.rsp, stackBase := new.stack, pml4Phys := new.pml4Phys,
      wakeAtMs := 0, priority := new.priority },
      rfl, hne, lt_of_lt_of_le hlt h'.count.2, hdead, ?_, rfl, rfl, rfl, rfl, ?_⟩
    · dsimp only [setTask]
      rw [htasks]
    · dsimp only
      rw [htasks]
      unfold nonNull
      split_ifs <;> first | rfl | contradiction

theorem Apart.create (h : Apart k) {k' : Kernel} {slot : Nat} {y : Task}
    (hplaced : Placed k'.machine) (hne : slot ≠ 0) (hlt : slot < maxTasks)
    (hdead : (k.machine.sched.tasks slot).state = .dead)
    (htasks : k'.machine.sched.tasks = Function.update k.machine.sched.tasks slot y)
    (hcur : k'.machine.sched.current = k.machine.sched.current) (hready : y.state = .ready)
    (hrsp : y.rsp = y.stackBase) (hboot : bootStack < y.stackBase)
    (hstack : y.stackBase ∉ k.allocated) (hspace : y.pml4Phys ≠ 0 → y.pml4Phys ∉ k.spaces)
    (hctx : k'.ctx = k.ctx) (halloc : k'.allocated = y.stackBase :: k.allocated)
    (hspaces : k'.spaces = nonNull y.pml4Phys ++ k.spaces) : Apart k' := by
  have hnone := (h.record slot).none (Or.inl fun hl => hl hdead)
  have hother : ∀ u, u ≠ slot → k'.machine.sched.tasks u = k.machine.sched.tasks u := fun u hu => by
    rw [htasks, Function.update_of_ne hu]
  have hself : k'.machine.sched.tasks slot = y := by rw [htasks, Function.update_self]
  have hlive : ∀ u, Live k.machine.sched u → u ≠ slot := by
    rintro u hu rfl
    exact hu hdead
  have hstackOf : ∀ u, u ≠ slot → stackOf k'.machine.sched u = stackOf k.machine.sched u := by
    intro u hu
    unfold stackOf
    rw [hother u hu]
  refine ⟨hplaced, fun c hc => ?_, fun t ht hz => ?_, fun t => ⟨fun hl ht0 => ?_, fun hl => ?_⟩,
    ?_, ?_⟩
  · rw [hctx]
    refine (h.cpu c hc).mono (congrFun hcur c) (fun t ht => ?_) fun u _ hu hz _ => ?_
    · exact hstackOf t (hlive t (h.live_current hc ht))
    · have hus := hlive u hu
      refine ⟨?_, (onCpus_congr hcur u).trans hz, hstackOf u hus⟩
      unfold Live
      rw [hother u hus]
      exact hu
  · rw [onCpus_congr hcur] at hz
    by_cases hts : t = slot
    · subst hts
      rw [stackOf, if_neg hne, hself, hrsp]
    · unfold Live at ht
      rw [hother t hts] at ht ⊢
      rw [hstackOf t hts]
      exact h.frame t ht hz
  · by_cases hts : t = slot
    · subst hts
      rw [hself]
      exact hboot
    · unfold Live at hl
      rw [hother t hts] at hl ⊢
      exact (h.record t).live hl ht0
  · by_cases hts : t = slot
    · subst hts
      rcases hl with hl | hl
      · rw [Live, hself, hready] at hl
        simp at hl
      · exact absurd hl hne
    · unfold Live at hl
      rw [hother t hts] at hl ⊢
      exact (h.record t).none hl
  · have hadd := h.stacksOwned.add hlt htasks hctx hnone.1 fun _ => hstack
    have hpos : y.stackBase ≠ 0 := by omega
    rw [nonNull_of_ne hpos] at hadd
    rw [halloc]
    exact hadd
  · rw [hspaces]
    exact h.spacesOwned.add hlt htasks hctx hnone.2 hspace

theorem recordOk_update {y : Task} (hr : ∀ u, RecordOk s u)
    (htasks : s'.tasks = Function.update s.tasks t y)
    (hy : y.state = .dead ∧ y.stackBase = 0 ∧ y.pml4Phys = 0) (u : Nat) : RecordOk s' u := by
  by_cases hut : u = t
  · have hself : s'.tasks u = y := by rw [htasks, hut, Function.update_self]
    refine ⟨fun hl => absurd ?_ hl, fun _ => ?_⟩
    · rw [hself]
      exact hy.1
    · rw [hself]
      exact hy.2
  · have hother : s'.tasks u = s.tasks u := by rw [htasks, Function.update_of_ne hut]
    refine ⟨fun hl => ?_, fun hl => ?_⟩
    · unfold Live at hl
      rw [hother] at hl ⊢
      exact (hr u).live hl
    · unfold Live at hl
      rw [hother] at hl ⊢
      exact (hr u).none hl

/-- `task_exit` of the task `t` on its own CPU. -/
theorem Apart.exit (h : Apart k) {k' : Kernel} {y : Task} (hcpu : cpu < smpMaxCpus)
    (hplaced : Placed k'.machine) (ht : k.machine.sched.current cpu = some t) (ht0 : t ≠ 0)
    (hon : (k.ctx cpu).Plain)
    (htasks : k'.machine.sched.tasks = Function.update k.machine.sched.tasks t y)
    (hcur : k'.machine.sched.current = Function.update k.machine.sched.current cpu none)
    (hy : y.state = .dead ∧ y.stackBase = 0 ∧ y.pml4Phys = 0)
    (hctx : k'.ctx = Function.update k.ctx cpu (.tail cpu (k.ctx cpu).stack
      (k.machine.sched.tasks t).stackBase (k.machine.sched.tasks t).pml4Phys))
    (halloc : k'.allocated = k.allocated) (hspaces : k'.spaces = k.spaces) : Apart k' := by
  have hlive := h.live_current hcpu ht
  have hother : ∀ u, u ≠ t → k'.machine.sched.tasks u = k.machine.sched.tasks u := fun u hu => by
    rw [htasks, Function.update_of_ne hu]
  have hself : k'.machine.sched.tasks t = y := by rw [htasks, Function.update_self]
  have hstackOf : ∀ u, u ≠ t → stackOf k'.machine.sched u = stackOf k.machine.sched u := by
    intro u hu
    unfold stackOf
    rw [hother u hu]
  have hcpus : ∀ u, onCpus k'.machine.sched u + (if t = u then 1 else 0) =
      onCpus k.machine.sched u := by
    intro u
    have hset := onCpus_update hcpu hcur u
    rw [ht] at hset
    simpa using hset
  have hone := (h.fits.cpu t).1
  have hpos := onCpus_pos hcpu ht
  have hstack : (k.ctx cpu).stack = (k.machine.sched.tasks t).stackBase := by
    have hok := h.cpu cpu hcpu
    rw [hon] at hok
    dsimp only [CpuOk] at hok
    rw [hok, ht]
    exact if_neg ht0
  have hfree : (k.ctx cpu).oldStack = 0 ∧ (k.ctx cpu).deadPml4 = 0 := by
    rw [hon]
    exact ⟨rfl, rfl⟩
  refine ⟨hplaced, fun c hc => ?_, fun u hu hz => ?_, recordOk_update h.record htasks hy, ?_, ?_⟩
  · rw [hctx]
    by_cases heq : c = cpu
    · subst heq
      rw [Function.update_self]
      exact ⟨by rw [hcur, Function.update_self], rfl, hstack, (h.record t).live hlive ht0⟩
    · rw [Function.update_of_ne heq]
      refine (h.cpu c hc).mono (by rw [hcur, Function.update_of_ne heq]) (fun u hu => ?_)
        fun u _ hu hz _ => ?_
      · refine hstackOf u ?_
        rintro rfl
        exact heq (unique_of_total hone hc hcpu (by simp [hu]) (by simp [ht]))
      · have hut : u ≠ t := by
          rintro rfl
          omega
        have hcount := hcpus u
        refine ⟨?_, by omega, hstackOf u hut⟩
        unfold Live
        rw [hother u hut]
        exact hu
  · have hut : u ≠ t := by
      rintro rfl
      exact hu (by rw [hself]; exact hy.1)
    have hcount := hcpus u
    rw [if_neg (Ne.symm hut)] at hcount
    unfold Live at hu
    rw [hother u hut] at hu ⊢
    rw [hstackOf u hut]
    exact h.frame u hu (by omega)
  · rw [halloc]
    exact h.stacksOwned.move (h.fits.lt_maxTasks hlive) hcpu htasks hctx hy.2.1 rfl hfree.1
  · rw [hspaces]
    exact h.spacesOwned.move (h.fits.lt_maxTasks hlive) hcpu htasks hctx hy.2.2 rfl hfree.2

/-! ## The rest of `task_exit` -/

/-- A step of one CPU that leaves the scheduler alone. -/
theorem Apart.cpuOnly (h : Apart k) {k' : Kernel} {x : Ctx} (hcpu : cpu < smpMaxCpus)
    (hmachine : k'.machine = k.machine) (hctx : k'.ctx = Function.update k.ctx cpu x)
    (hok : CpuOk k.machine.sched cpu x) (hstack : Owned k'.allocated Task.stackBase Ctx.oldStack k')
    (hspace : Owned k'.spaces Task.pml4Phys Ctx.deadPml4 k') : Apart k' := by
  refine ⟨hmachine ▸ h.placed, fun c hc => ?_, hmachine ▸ h.frame, hmachine ▸ h.record, hstack,
    hspace⟩
  rw [hmachine, hctx]
  by_cases heq : c = cpu
  · subst heq
    rw [Function.update_self]
    exact hok
  · rw [Function.update_of_ne heq]
    exact h.cpu c hc

theorem Apart.lt_smpMaxCpus (h : Apart k) (hcpu : cpu < k.machine.sched.online) :
    cpu < smpMaxCpus := h.placed.lt_smpMaxCpus hcpu

theorem Ctx.of_inTail {x : Ctx} (h : x.inTail) : ∃ cpuId stack old pml4,
    x = .tail cpuId stack old pml4 := by
  cases x with
  | tail cpuId stack old pml4 => exact ⟨_, _, _, _, rfl⟩
  | on _ => cases h
  | switching _ _ => cases h
  | reap _ _ => cases h

theorem Ctx.of_reaps {x : Ctx} (h : x.reaps) : ∃ stack old, x = .reap stack old := by
  cases x with
  | reap stack old => exact ⟨_, _, rfl⟩
  | on _ => cases h
  | switching _ _ => cases h
  | tail _ _ _ _ => cases h

theorem Ctx.of_inStub {x : Ctx} (h : x.inStub) : ∃ old new, x = .switching old new := by
  cases x with
  | switching old new => exact ⟨_, _, rfl⟩
  | on _ => cases h
  | tail _ _ _ _ => cases h
  | reap _ _ => cases h

/-- The CPU loads the frame of its next task. -/
theorem Apart.movRsp (h : Apart k) (hlt : cpu < k.machine.sched.online)
    (hstub : (k.ctx cpu).inStub) : Apart (k.step (.movRsp cpu)) := by
  have hcpu := h.lt_smpMaxCpus hlt
  have hok := h.cpu cpu hcpu
  obtain ⟨old, new, hx⟩ := Ctx.of_inStub hstub
  rw [hx] at hok
  obtain ⟨t, ht, hnew, _⟩ := hok
  refine h.cpuOnly (x := .on new) hcpu rfl (by simp [Kernel.step, cpuStep, hx, setCtx]) ?_ ?_ ?_
  · dsimp only [CpuOk]
    rw [ht]
    exact hnew
  · refine h.stacksOwned.same (fun _ => rfl) fun c => ?_
    simp only [Kernel.step, cpuStep, hx, setCtx]
    exact update_same (by rw [hx]; rfl) c
  · simp only [Kernel.step, cpuStep, hx, setCtx]
    exact h.spacesOwned.same (fun _ => rfl) (update_same (by rw [hx]; rfl))

theorem Apart.destroyAs (h : Apart k) (hlt : cpu < k.machine.sched.online)
    {cpuId stack old pml4 : Nat} (hx : k.ctx cpu = .tail cpuId stack old pml4) :
    Apart (k.step (.destroyAs cpu)) := by
  have hcpu := h.lt_smpMaxCpus hlt
  have hok := h.cpu cpu hcpu
  rw [hx] at hok
  refine h.cpuOnly (x := .tail cpuId stack old 0) hcpu rfl
    (by simp [Kernel.step, cpuStep, hx, setCtx]) hok ?_ ?_
  · refine h.stacksOwned.same (fun _ => rfl) fun c => ?_
    simp only [Kernel.step, cpuStep, hx, setCtx]
    exact update_same (by rw [hx]; rfl) c
  · have hdrop := h.spacesOwned.drop hcpu
      (rfl : (k.step (.destroyAs cpu)).machine.sched.tasks = k.machine.sched.tasks)
      (x := .tail cpuId stack old 0) (by simp [Kernel.step, cpuStep, hx, setCtx]) rfl
    rw [hx] at hdrop
    have hspaces : (k.step (.destroyAs cpu)).spaces = k.spaces.diff (nonNull pml4) := by
      simp [Kernel.step, cpuStep, hx]
    rw [hspaces]
    exact hdrop

theorem Apart.viaIdle (h : Apart k) (hlt : cpu < k.machine.sched.online) {cpuId stack old : Nat}
    (hx : k.ctx cpu = .tail cpuId stack old 0) : Apart (k.step (.viaIdle cpu)) := by
  have hcpu := h.lt_smpMaxCpus hlt
  have hok := h.cpu cpu hcpu
  rw [hx] at hok
  obtain ⟨hcur, hid, _, hold⟩ := hok
  refine h.cpuOnly (x := .reap (idleStack cpuId) old) hcpu rfl
    (by simp [Kernel.step, cpuStep, hx, setCtx]) ⟨hcur, by rw [hid], hold⟩ ?_ ?_
  · refine h.stacksOwned.same (fun _ => rfl) fun c => ?_
    simp only [Kernel.step, cpuStep, hx, setCtx]
    exact update_same (by rw [hx]; rfl) c
  · simp only [Kernel.step, cpuStep, hx, setCtx]
    exact h.spacesOwned.same (fun _ => rfl) (update_same (by rw [hx]; rfl))

theorem Apart.finish (h : Apart k) (hlt : cpu < k.machine.sched.online) {stack old : Nat}
    (hx : k.ctx cpu = .reap stack old) : Apart (k.step (.finish cpu)) := by
  have hcpu := h.lt_smpMaxCpus hlt
  have hok := h.cpu cpu hcpu
  rw [hx] at hok
  obtain ⟨hcur, hstack, _⟩ := hok
  refine h.cpuOnly (x := .on stack) hcpu rfl
    (by simp [Kernel.step, cpuStep, hx, setCtx, Ctx.stack]) ?_ ?_ ?_
  · dsimp only [CpuOk]
    rw [hcur]
    exact hstack
  · exact h.stacksOwned.drop (x := .on stack) hcpu rfl
      (by simp [Kernel.step, cpuStep, hx, setCtx, Ctx.stack]) rfl
  · refine h.spacesOwned.same (fun _ => rfl) fun c => ?_
    simp only [Kernel.step, cpuStep, hx, setCtx]
    exact update_same (by rw [hx]; rfl) c

/-- `runq_push` after a locked section finds room, so that nothing is freed. -/
theorem Apart.freedBy_push (h : Apart k) {i now : Nat} (he : (Event.push i cpu now).Enabled k) :
    freedBy k (.push i cpu now) = [] := by
  obtain ⟨x, who, hx, _, hpush⟩ := h.placed.pushReady (he.2 _ rfl)
  simp only [freedBy, hx, hpush]

theorem Apart.push (h : Apart k) {i now : Nat} (he : (Event.push i cpu now).Enabled k)
    (hplaced : Placed (exec k.machine (.push i cpu now))) : Apart (k.step (.push i cpu now)) := by
  obtain ⟨x, who, hx, _, hpush⟩ := h.placed.pushReady (he.2 _ rfl)
  have hsched : (exec k.machine (.push i cpu now)).sched =
      setRunq (setTask k.machine.sched x fun y => { y with enqueueMs := now }) cpu
        (k.machine.sched.runq cpu ++ [x]) := by
    simp only [exec, hx, hpush]
  have hfreed := h.freedBy_push he
  refine h.same hplaced ?_ ?_ (fun u _ => ?_) rfl (congrArg (List.diff k.allocated) hfreed) rfl
  · exact hsched ▸ (sameOwners_setTask (f := fun x => { x with enqueueMs := now }) rfl rfl
      Iff.rfl).trans (SameOwners.of_tasks rfl)
  · exact (congrArg State.current hsched).trans rfl
  · refine (congrArg (fun s => (s.tasks u).rsp) hsched).trans ?_
    exact setTask_rsp (f := fun x => { x with enqueueMs := now }) rfl u

/-! ## Every event keeps `Apart` -/

theorem exec_idle (h : Placed k.machine) (hidle : k.machine.idling cpu = true) :
    (idleWrite k.machine.sched cpu).current = k.machine.sched.current := by
  have hself := Function.update_eq_self cpu k.machine.sched.current
  rw [h.idle cpu hidle] at hself
  exact hself

/-- A tick that takes no task, or the next one. -/
theorem Apart.tick (h : Apart k) {now : Nat} (he : (Event.tick cpu now).Enabled k)
    (hplaced : ∀ op, (Event.tick cpu now).op k = some op → Placed (exec k.machine op))
    (hsettled : Settled k (.tick cpu now)) (hkeeps : KeepsTail k (.tick cpu now)) :
    Apart (k.step (.tick cpu now)) := by
  have hop := he.2 _ rfl
  have hcpu := h.lt_smpMaxCpus hop.1
  obtain ⟨hown, hrsp, ⟨htake, hcur⟩ | ⟨next, s₁, htake, hready, hframe, hcur, hout⟩⟩ :=
    scheduleOnCpu_shape h.fits hcpu (k.ctx cpu).stack now
  · have hsame : switched k cpu now = k.ctx cpu := if_pos (Or.inl (congrFun hcur cpu))
    refine h.same (hplaced _ rfl) hown hcur (fun t ht => hrsp t fun hc => ?_) ?_ rfl rfl
    · have := onCpus_pos hcpu hc
      omega
    · simp only [Kernel.step, cpuStep, setCtx, hsame, Function.update_eq_self]
  · have htake' : takeNext (relinquish k.machine.sched cpu) cpu now = some (next, s₁) := by
      rw [h.fits.relinquish hcpu]
      exact htake
    have hplain : (k.ctx cpu).Plain := hkeeps.resolve_right (by rw [htake']; simp)
    have hnew : k.machine.sched.current cpu ≠ some next := fun hc => by
      have h1 := onCpus_pos hcpu hc
      have h2 := (h.fits.cpu next).2.2 (Or.inl hready)
      omega
    have hswitch : switched k cpu now =
        .switching (k.ctx cpu).stack (k.machine.sched.tasks next).rsp := by
      unfold switched
      dsimp only
      rw [if_neg, hframe]
      rw [hcur, Function.update_self]
      simp [Ne.symm hnew]
    refine h.switch hcpu (hplaced _ rfl) hown hready hcur hrsp hout hplain
      (hsettled (next, s₁) htake') ?_ rfl rfl
    simp only [Kernel.step, cpuStep, setCtx, hswitch]

/-- A new task gets a slot that owns nothing. -/
theorem Apart.newTask (h : Apart k) {new : NewTask} {who : Pusher}
    (he : (Event.create new who).Enabled k)
    (hplaced : ∀ op, (Event.create new who).op k = some op → Placed (exec k.machine op)) :
    Apart (k.step (.create new who)) := by
  obtain ⟨hboot, hrsp, hstack, hspace⟩ := he.1
  have hcur : (createTask k.machine.sched new).sched.current = k.machine.sched.current :=
    funext fun c => createTask_current _ new c
  rcases createTask_cases h.fits new with
    ⟨hslot, hfreed⟩ | ⟨slot, y, hslot, hne, hlt, hdead, htasks, hready, hy, hys, hyp, hfreed⟩
  · rcases h.fits.create new with ⟨_, hsched⟩ | ⟨slot, hslot', _⟩
    · refine h.same (hplaced _ rfl) (SameOwners.of_tasks ?_) hcur (fun t _ => ?_) rfl ?_ ?_
      · exact congrArg State.tasks hsched
      · exact congrArg (fun s => (s.tasks t).rsp) hsched
      · simp [Kernel.step, allocatedAt, freedBy, hfreed]
      · simp [Kernel.step, cpuStep, hslot]
    · rw [hslot] at hslot'
      cases hslot'
  · have hzero := ((h.record slot).none (Or.inl fun hl => hl hdead)).1
    refine h.create (hplaced _ rfl) hne hlt hdead htasks hcur hready ?_ ?_ ?_ ?_ rfl ?_ ?_
    · rw [hy, hys, hrsp]
    · rw [hys]
      exact hboot
    · rw [hys]
      exact hstack
    · rw [hyp]
      exact hspace
    · simp [Kernel.step, allocatedAt, freedBy, hfreed, hzero, nonNull, hys]
    · simp [Kernel.step, cpuStep, hslot, hyp]

/-- `task_exit` keeps what its task owned for the rest of the call. -/
theorem Apart.exitLocked (h : Apart k) (he : (Event.exitLocked cpu).Enabled k)
    (hplaced : ∀ op, (Event.exitLocked cpu).op k = some op → Placed (exec k.machine op))
    (hstays : Stays k (.exitLocked cpu)) : Apart (k.step (.exitLocked cpu)) := by
  obtain ⟨hlt, t, hcur, hsome⟩ := he.2 _ rfl
  have hcpu := h.lt_smpMaxCpus hlt
  have hown : k.machine.exitCpu t = some cpu := hstays _ rfl t hcur
  have ht0 := h.placed.exit t hsome
  obtain ⟨hres, _⟩ := h.fits.taskExit hcpu hcur ht0
  have hsched : ((k.step (.exitLocked cpu)).machine.sched) =
      (taskExit k.machine.sched cpu).sched := by
    simp only [Kernel.step, Event.op, Option.elim_some, exec, hcur, hown, Option.getD_some]
  have hctx : exited k cpu = .tail cpu (k.ctx cpu).stack (k.machine.sched.tasks t).stackBase
      (k.machine.sched.tasks t).pml4Phys := by
    simp only [exited, hcur, Option.bind_some, hown, Option.getD_some, hres]
  refine h.exit hcpu (hplaced _ rfl) (curRunning_eq_some hcur).1 ht0 he.1
    (y := { k.machine.sched.tasks t with state := .dead, rsp := 0, stackBase := 0, pml4Phys := 0 })
    ?_ ?_ ⟨rfl, rfl, rfl⟩ ?_ rfl rfl
  · rw [hsched, hres]
    rfl
  · rw [hsched, hres]
    rfl
  · simp only [Kernel.step, cpuStep, setCtx, hctx]

theorem step_apart (h : Apart k) {e : Event} (he : e.Enabled k) (hsettled : Settled k e)
    (hkeeps : KeepsTail k e) (hstays : Stays k e) : Apart (k.step e) := by
  have hplaced : ∀ op, e.op k = some op → Placed (exec k.machine op) := fun op hop =>
    exec_placed h.placed (he.2 op hop) (hstays op hop)
  cases e with
  | tick cpu now => exact h.tick he hplaced hsettled hkeeps
  | movRsp cpu => exact h.movRsp he.1.1 he.1.2
  | create new who => exact h.newTask he hplaced
  | unblock t =>
    refine h.same (hplaced _ rfl) (sameOwners_unblockTask _ t)
      (funext fun c => unblockTask_current _ t c) (fun u _ => ?_) rfl rfl rfl
    exact unblockTask_rsp k.machine.sched t u
  | push i cpu now => exact h.push he (hplaced _ rfl)
  | block cpu st =>
    refine h.same (hplaced _ rfl) (sameOwners_blockPrepare _ cpu st)
      (funext fun c => blockPrepare_current _ cpu st c) (fun u _ => ?_) rfl rfl rfl
    exact blockPrepare_rsp k.machine.sched cpu st u
  | exitEnter cpu route =>
    have hsched : (exec k.machine (.exitEnter cpu)).sched = k.machine.sched := by
      unfold exec
      dsimp only
      split <;> rfl
    refine h.same (hplaced _ rfl) (SameOwners.of_tasks ?_) ?_ (fun u _ => ?_) rfl rfl rfl
    · exact congrArg State.tasks hsched
    · exact congrArg State.current hsched
    · exact congrArg (fun s => (s.tasks u).rsp) hsched
  | exitLocked cpu => exact h.exitLocked he hplaced hstays
  | destroyAs cpu =>
    obtain ⟨hlt, hpml4⟩ := he.1
    cases hx : k.ctx cpu with
    | tail _ _ _ _ => exact h.destroyAs hlt hx
    | on _ => exact absurd (by rw [hx]; rfl) hpml4
    | switching _ _ => exact absurd (by rw [hx]; rfl) hpml4
    | reap _ _ => exact absurd (by rw [hx]; rfl) hpml4
  | viaIdle cpu =>
    obtain ⟨hlt, htail, hpml4⟩ := he.1
    obtain ⟨cpuId, stack, old, pml4, hx⟩ := Ctx.of_inTail htail
    rw [hx] at hpml4
    obtain rfl : pml4 = 0 := hpml4
    exact h.viaIdle hlt hx
  | finish cpu =>
    obtain ⟨hlt, hreaps⟩ := he.1
    obtain ⟨_, _, hx⟩ := Ctx.of_reaps hreaps
    exact h.finish hlt hx
  | idle cpu =>
    exact h.same (hplaced _ rfl) (SameOwners.of_tasks rfl) (exec_idle h.placed (he.2 _ rfl).2)
      (fun _ _ => rfl) rfl rfl rfl

end Kyuzen.Sched
