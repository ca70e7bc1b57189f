import Kyuzen.Sync.Model

/-!
# Who waits where

A task in `wait_block_locked` is on the queue of its object or was dequeued and has not checked
its condition again, and not both; a task on a queue is blocked (`Waits`). Hence a task that runs
again was dequeued, a task is on one queue at most, and a queue never overflows, so that
`wait_block_locked` always blocks.
-/

namespace Kyuzen.Sync

open Sched (TaskState curRunning maxTasks)

/-- The object whose queue the task was put on. -/
def Pc.waitsOn : Pc → Option Obj
  | .lockWait m => some (.mutex m)
  | .semWait k => some (.sem k)
  | .cvWait c _ => some (.cond c)
  | .run | .cvHold _ _ | .cvLock _ | .spin => none

structure Waits (s : State) : Prop where
  count : s.sched.taskCount ≤ maxTasks
  nodup : ∀ o, (s.queue o ++ s.woken o).Nodup
  mem : ∀ o t, t ∈ s.queue o ++ s.woken o ↔ (s.pc t).waitsOn = some o
  blocked : ∀ o t, t ∈ s.queue o → (s.sched.tasks t).state = .blocked ∧ t < maxTasks
  hold : ∀ t c m, s.pc t = .cvHold c m → s.cvLock c = some t
  noSpin : ∀ t, s.pc t ≠ .spin

variable {s s' : State} {o o' : Obj} {t u cpu : Nat} {pc : Pc}

/-! ## `unblock_task` and `block_prepare` -/

theorem unblockTask_taskCount (s : Sched.State) (t : Nat) :
    (Sched.unblockTask s t).2.taskCount = s.taskCount := by
  unfold Sched.unblockTask
  split_ifs
  · rfl
  · rfl
  · cases Sched.parkedOn s t <;> rfl

theorem unblockTask_of_ne (s : Sched.State) (h : u ≠ t) :
    (Sched.unblockTask s t).2.tasks u = s.tasks u := by
  unfold Sched.unblockTask
  split_ifs
  · rfl
  · rfl
  · cases Sched.parkedOn s t <;> exact Function.update_of_ne h _ _

theorem blockPrepare_blocked {sched : Sched.State} (h : curRunning sched cpu = some t) :
    Sched.blockPrepare sched cpu .blocked =
      (some t, Sched.setTask sched t fun x => { x with state := .blocked }) := by
  unfold Sched.blockPrepare
  rw [if_neg (by simp), h]

/-! ## The parts of a step -/

theorem Waits.congr (h : Waits s) (hsched : s'.sched = s.sched) (hqueue : s'.queue = s.queue)
    (hwoken : s'.woken = s.woken) (hpc : s'.pc = s.pc) (hcv : s'.cvLock = s.cvLock) : Waits s' := by
  obtain ⟨h1, h2, h3, h4, h5, h6⟩ := h
  exact ⟨by rwa [hsched], by rwa [hqueue, hwoken], by rwa [hqueue, hwoken, hpc],
    by rwa [hqueue, hsched], by rwa [hpc, hcv], by rwa [hpc]⟩

/-- A task on a queue waits for the queue's object. -/
theorem Waits.of_queue (h : Waits s) (ht : t ∈ s.queue o) : (s.pc t).waitsOn = some o :=
  (h.mem o t).mp (List.mem_append_left _ ht)

/-- A task is on one queue at most. -/
theorem Waits.one_queue (h : Waits s) (ht : t ∈ s.queue o) (ht' : t ∈ s.queue o') : o = o' :=
  Option.some.inj ((h.of_queue ht).symm.trans (h.of_queue ht'))

/-- A task that runs and was put on a queue has been dequeued. -/
theorem Waits.woken_of_running (h : Waits s) (hcur : curRunning s.sched cpu = some t)
    (hpc : (s.pc t).waitsOn = some o) : t ∈ s.woken o := by
  rcases List.mem_append.mp ((h.mem o t).mpr hpc) with hq | hw
  · have hst := (h.blocked o t hq).1
    rw [(Sched.curRunning_eq_some hcur).2.2] at hst
    cases hst
  · exact hw

theorem Waits.lt_maxTasks (h : Waits s) (hcur : curRunning s.sched cpu = some t) : t < maxTasks :=
  lt_of_lt_of_le (Sched.curRunning_eq_some hcur).2.1 h.count

/-- A task that is not waiting goes on. -/
theorem Waits.setPc (h : Waits s) (hwait : (s.pc t).waitsOn = none) (hpc : pc.waitsOn = none)
    (hhold : ∀ c m, pc = .cvHold c m → s.cvLock c = some t) (hspin : pc ≠ .spin) :
    Waits (setPc s t pc) := by
  refine ⟨h.count, h.nodup, fun o u => ?_, h.blocked, fun u c m hu => ?_, fun u hu => ?_⟩
  · by_cases hut : u = t
    · subst hut
      have hold := h.mem o u
      rw [hwait] at hold
      simp only [Sync.setPc, Function.update_self, hpc]
      exact hold
    · simp only [Sync.setPc, Function.update_of_ne hut]
      exact h.mem o u
  · by_cases hut : u = t
    · subst hut
      simp only [Sync.setPc, Function.update_self] at hu
      exact hhold c m hu
    · simp only [Sync.setPc, Function.update_of_ne hut] at hu
      exact h.hold u c m hu
  · by_cases hut : u = t
    · subst hut
      simp only [Sync.setPc, Function.update_self] at hu
      exact hspin hu
    · simp only [Sync.setPc, Function.update_of_ne hut] at hu
      exact h.noSpin u hu

/-- A task that was dequeued checks its condition again. -/
theorem Waits.recheck (h : Waits s) (ht : t ∈ s.woken o) : Waits (recheck s t o) := by
  have hwait : (s.pc t).waitsOn = some o := (h.mem o t).mp (List.mem_append_right _ ht)
  have hqueue : t ∉ s.queue o := fun hq => (List.nodup_append.mp (h.nodup o)).2.2 t hq t ht rfl
  have hwoken : (s.woken o).Nodup := (List.nodup_append.mp (h.nodup o)).2.1
  refine ⟨h.count, fun o' => ?_, fun o' u => ?_, h.blocked, fun u c m hu => ?_, fun u hu => ?_⟩
  · by_cases ho : o' = o
    · subst ho
      simp only [Sync.recheck, Function.update_self]
      exact (h.nodup o').sublist ((List.erase_sublist).append_left _)
    · simp only [Sync.recheck, Function.update_of_ne ho]
      exact h.nodup o'
  · by_cases hut : u = t
    · subst hut
      simp only [Sync.recheck, Sync.setPc, Function.update_self, Pc.waitsOn, reduceCtorEq, iff_false]
      by_cases ho : o' = o
      · subst ho
        rw [Function.update_self, List.mem_append, hwoken.mem_erase_iff]
        simp [hqueue]
      · rw [Function.update_of_ne ho, h.mem o' u, hwait]
        exact fun hc => ho (Option.some.inj hc).symm
    · simp only [Sync.recheck, Sync.setPc, Function.update_of_ne hut]
      by_cases ho : o' = o
      · subst ho
        rw [Function.update_self, ← h.mem o' u, List.mem_append, List.mem_append,
          List.mem_erase_of_ne hut]
      · rw [Function.update_of_ne ho]
        exact h.mem o' u
  · by_cases hut : u = t
    · subst hut
      simp [Sync.recheck, Sync.setPc] at hu
    · simp only [Sync.recheck, Sync.setPc, Function.update_of_ne hut] at hu
      exact h.hold u c m hu
  · by_cases hut : u = t
    · subst hut
      simp [Sync.recheck, Sync.setPc] at hu
    · simp only [Sync.recheck, Sync.setPc, Function.update_of_ne hut] at hu
      exact h.noSpin u hu

theorem waitWakeOne_cons {id : Nat} {rest : List Nat} (hq : s.queue o = id :: rest) :
    waitWakeOne s o = { s with
      sched := (Sched.unblockTask s.sched id).2
      queue := Function.update s.queue o rest
      woken := Function.update s.woken o (id :: s.woken o) } := by
  rw [waitWakeOne, hq]

theorem waitWakeOne_nil (hq : s.queue o = []) : waitWakeOne s o = s := by
  rw [waitWakeOne, hq]

/-- The head of the queue is dequeued and made runnable. -/
theorem Waits.wakeOne (h : Waits s) (o : Obj) : Waits (waitWakeOne s o) := by
  cases hq : s.queue o with
  | nil =>
    rw [waitWakeOne_nil hq]
    exact h
  | cons id rest =>
    have hid : id ∈ s.queue o := hq ▸ List.mem_cons_self
    have hperm : (rest ++ id :: s.woken o).Perm (s.queue o ++ s.woken o) := by
      rw [hq]
      exact List.perm_middle
    rw [waitWakeOne_cons hq]
    refine ⟨(unblockTask_taskCount _ _).trans_le h.count, fun o' => ?_, fun o' u => ?_,
      fun o' u hu => ?_, h.hold, h.noSpin⟩
    · by_cases ho : o' = o
      · subst ho
        simp only [Function.update_self]
        exact hperm.nodup_iff.mpr (h.nodup o')
      · simp only [Function.update_of_ne ho]
        exact h.nodup o'
    · by_cases ho : o' = o
      · subst ho
        simp only [Function.update_self]
        exact hperm.mem_iff.trans (h.mem o' u)
      · simp only [Function.update_of_ne ho]
        exact h.mem o' u
    · have hmem : u ∈ s.queue o' ∧ u ≠ id := by
        by_cases ho : o' = o
        · subst ho
          simp only [Function.update_self] at hu
          refine ⟨hq ▸ List.mem_cons_of_mem _ hu, ?_⟩
          rintro rfl
          have hnodup := (List.nodup_append.mp (h.nodup o')).1
          rw [hq] at hnodup
          exact (List.nodup_cons.mp hnodup).1 hu
        · simp only [Function.update_of_ne ho] at hu
          refine ⟨hu, ?_⟩
          rintro rfl
          exact ho (h.one_queue hu hid)
      dsimp only
      rw [unblockTask_of_ne _ hmem.2]
      exact h.blocked o' u hmem.1

theorem Waits.wakeAll (h : Waits s) (o : Obj) : Waits (waitWakeAll s o) := by
  unfold waitWakeAll
  generalize (s.queue o).length = n
  induction n generalizing s with
  | zero => exact h
  | succ n ih => exact ih (h.wakeOne o)

/-- `wait_block_locked` puts the task on the queue. -/
theorem Waits.waitBlockLocked (h : Waits s) (hcur : curRunning s.sched cpu = some t)
    (hwait : (s.pc t).waitsOn = none) (o : Obj) :
    waitBlockLocked s cpu o = (true, { s with
      sched := Sched.setTask s.sched t fun x => { x with state := .blocked }
      queue := Function.update s.queue o (s.queue o ++ [t]) }) := by
  have hno : t ∉ s.queue o := fun hq => by
    have := h.of_queue hq
    rw [hwait] at this
    cases this
  have hroom : (s.queue o).length < Sched.runqCapacity :=
    Sched.length_lt_capacity (List.nodup_iff_count_le_one.mp (List.nodup_append.mp (h.nodup o)).1)
      (fun u hu => (h.blocked o u hu).2) (h.lt_maxTasks hcur) hno
  unfold Sync.waitBlockLocked
  rw [blockPrepare_blocked hcur]
  exact if_neg (not_le.mpr hroom)

/-- The state after a task has blocked. -/
def blockOn (s : State) (t : Nat) (o : Obj) (pc : Pc) : State :=
  setPc { s with
    sched := Sched.setTask s.sched t fun x => { x with state := .blocked }
    queue := Function.update s.queue o (s.queue o ++ [t]) } t pc

theorem Waits.blockOn (h : Waits s) (hcur : curRunning s.sched cpu = some t)
    (hwait : (s.pc t).waitsOn = none) (hpc : pc.waitsOn = some o) :
    Waits (blockOn s t o pc) := by
  have hno : ∀ o', t ∉ s.queue o' ++ s.woken o' := fun o' hq => by
    have := (h.mem o' t).mp hq
    rw [hwait] at this
    cases this
  have hperm : ((s.queue o ++ [t]) ++ s.woken o).Perm (t :: (s.queue o ++ s.woken o)) := by
    rw [List.append_assoc]
    exact List.perm_middle
  refine ⟨h.count, fun o' => ?_, fun o' u => ?_, fun o' u hu => ?_, fun u c m hu => ?_, fun u hu => ?_⟩
  · by_cases ho : o' = o
    · subst ho
      simp only [Sync.blockOn, Sync.setPc, Function.update_self]
      exact hperm.nodup_iff.mpr (List.nodup_cons.mpr ⟨hno o', h.nodup o'⟩)
    · simp only [Sync.blockOn, Sync.setPc, Function.update_of_ne ho]
      exact h.nodup o'
  · by_cases hut : u = t
    · subst hut
      simp only [Sync.blockOn, Sync.setPc, Function.update_self, hpc, Option.some.injEq]
      by_cases ho : o' = o
      · subst ho
        simp [Function.update_self]
      · simp only [Function.update_of_ne ho, Ne.symm ho, iff_false]
        exact hno o'
    · simp only [Sync.blockOn, Sync.setPc, Function.update_of_ne hut]
      rw [← h.mem o' u]
      by_cases ho : o' = o
      · subst ho
        rw [Function.update_self, hperm.mem_iff, List.mem_cons]
        exact or_iff_right hut
      · rw [Function.update_of_ne ho]
  · have hcases : u = t ∨ u ∈ s.queue o' := by
      by_cases ho : o' = o
      · subst ho
        simp only [Sync.blockOn, Sync.setPc, Function.update_self, List.mem_append,
          List.mem_singleton] at hu
        exact hu.symm
      · simp only [Sync.blockOn, Sync.setPc, Function.update_of_ne ho] at hu
        exact Or.inr hu
    by_cases hut : u = t
    · subst hut
      exact ⟨by simp [Sync.blockOn, Sync.setPc], h.lt_maxTasks hcur⟩
    · simp only [Sync.blockOn, Sync.setPc, Sched.setTask_of_ne _ _ hut]
      exact h.blocked o' u (hcases.resolve_left hut)
  · by_cases hut : u = t
    · subst hut
      simp only [Sync.blockOn, Sync.setPc, Function.update_self] at hu
      rw [hu] at hpc
      cases hpc
    · simp only [Sync.blockOn, Sync.setPc, Function.update_of_ne hut] at hu
      exact h.hold u c m hu
  · by_cases hut : u = t
    · subst hut
      simp only [Sync.blockOn, Sync.setPc, Function.update_self] at hu
      rw [hu] at hpc
      cases hpc
    · simp only [Sync.blockOn, Sync.setPc, Function.update_of_ne hut] at hu
      exact h.noSpin u hu

/-! ## What a step does -/

/-- How a task comes to check its condition: in a new call, or after it was dequeued. -/
inductive Enter (s : State) (t : Nat) (o : Obj) : State → Prop
  | call (h : (s.pc t).waitsOn = none) : Enter s t o s
  | again (h : t ∈ s.woken o) : Enter s t o (recheck s t o)

/-- The steps, with what the task finds. -/
inductive Step (s : State) : Op → State → Prop
  | lockBlock {op : Op} {cpu t m : Nat} {s₁ : State} (hcur : curRunning s.sched cpu = some t)
    (he : Enter s t (.mutex m) s₁) (hl : s.locked m = true) :
    Step s op (blockOn s₁ t (.mutex m) (.lockWait m))
  | lock {op : Op} {t m : Nat} {s₁ : State} (he : Enter s t (.mutex m) s₁)
    (hl : s.locked m = false) : Step s op (acquire s₁ t m)
  | unlock {cpu t m : Nat} (hcur : curRunning s.sched cpu = some t) :
    Step s (.unlock cpu m) (mutexUnlock s t m)
  | semBlock {op : Op} {cpu t k : Nat} {s₁ : State} (hcur : curRunning s.sched cpu = some t)
    (he : Enter s t (.sem k) s₁) (hc : s.count k ≤ 0) :
    Step s op (blockOn s₁ t (.sem k) (.semWait k))
  | semTake {op : Op} {t k : Nat} {s₁ : State} (he : Enter s t (.sem k) s₁) (hc : 0 < s.count k) :
    Step s op (take s₁ t k)
  | semPost {k : Nat} : Step s (.semPost k) (semaphorePost s k)
  | condRelease {cpu t c m : Nat} (hcur : curRunning s.sched cpu = some t)
    (hpc : (s.pc t).waitsOn = none) (hfree : s.cvLock c = none) :
    Step s (.condRelease cpu c m) (condvarRelease s t c m)
  | condBlock {op : Op} {cpu t c m : Nat} (hcur : curRunning s.sched cpu = some t)
    (hpc : s.pc t = .cvHold c m) : Step s op { blockOn s t (.cond c) (.cvWait c m) with
      cvLock := Function.update s.cvLock c none }
  | condWoken {op : Op} {t c m : Nat} (hw : t ∈ s.woken (.cond c)) :
    Step s op (setPc (recheck s t (.cond c)) t (.cvLock m))
  | condSignal {c : Nat} : Step s (.condSignal c) (waitWakeOne s (.cond c))
  | condBroadcast {c : Nat} : Step s (.condBroadcast c) (waitWakeAll s (.cond c))
  | other {sched : Sched.State} (h : Other s.sched sched) :
    Step s (.other sched) { s with sched := sched }
  /-- `mutex_trylock` or `semaphore_trywait` fails. -/
  | busy {op : Op} : Step s op s

theorem recheck_waitsOn (s : State) (t : Nat) (o : Obj) :
    ((recheck s t o).pc t).waitsOn = none := by
  simp [recheck, setPc, Pc.waitsOn]

theorem caller_eq_some (h : caller s cpu = some (t, pc)) :
    curRunning s.sched cpu = some t ∧ s.pc t = pc := by
  obtain ⟨u, hu, heq⟩ := Option.map_eq_some_iff.mp h
  cases heq
  exact ⟨hu, rfl⟩

theorem Enter.waits {s₁ : State} (he : Enter s t o s₁) (h : Waits s) : Waits s₁ := by
  cases he with
  | call _ => exact h
  | again hw => exact h.recheck hw

theorem Enter.waitsOn {s₁ : State} (he : Enter s t o s₁) : (s₁.pc t).waitsOn = none := by
  cases he with
  | call hpc => exact hpc
  | again _ => exact recheck_waitsOn s t o

theorem Enter.sched {s₁ : State} (he : Enter s t o s₁) : s₁.sched = s.sched := by
  cases he <;> rfl

theorem Enter.locked {s₁ : State} (he : Enter s t o s₁) : s₁.locked = s.locked := by
  cases he <;> rfl

theorem Enter.count {s₁ : State} (he : Enter s t o s₁) : s₁.count = s.count := by
  cases he <;> rfl

theorem Enter.mutexLock {s₁ : State} {op : Op} {m : Nat} (h : Waits s)
    (hcur : curRunning s.sched cpu = some t) (he : Enter s t (.mutex m) s₁) :
    Step s op (mutexLock s₁ cpu t m) := by
  have hsame : s₁.locked m = s.locked m := congrFun he.locked m
  unfold Sync.mutexLock
  rw [(he.waits h).waitBlockLocked (he.sched.symm ▸ hcur) he.waitsOn]
  cases hl : s.locked m with
  | true =>
    rw [if_pos (hsame.trans hl)]
    exact Step.lockBlock hcur he hl
  | false =>
    rw [if_neg (by rw [hsame, hl]; simp)]
    exact Step.lock he hl

theorem Enter.semaphoreWait {s₁ : State} {op : Op} {k : Nat} (h : Waits s)
    (hcur : curRunning s.sched cpu = some t) (he : Enter s t (.sem k) s₁) :
    Step s op (semaphoreWait s₁ cpu t k) := by
  have hsame : s₁.count k = s.count k := congrFun he.count k
  unfold Sync.semaphoreWait
  rw [(he.waits h).waitBlockLocked (he.sched.symm ▸ hcur) he.waitsOn]
  split_ifs with hc
  · exact Step.semBlock hcur he (hsame ▸ hc)
  · exact Step.semTake he (hsame ▸ not_le.mp hc)

theorem exec_step (h : Waits s) {op : Op} (hop : op.Enabled s) : Step s op (exec s op) := by
  cases op with
  | lock cpu m =>
    obtain ⟨t, hcall⟩ := hop
    have hpc : curRunning s.sched cpu = some t ∧ (s.pc t).waitsOn = none := by
      rcases hcall with hcall | hcall
      · exact ⟨(caller_eq_some hcall).1, by rw [(caller_eq_some hcall).2]; rfl⟩
      · exact ⟨(caller_eq_some hcall).1, by rw [(caller_eq_some hcall).2]; rfl⟩
    simp only [exec, hpc.1, Option.elim_some]
    exact Enter.mutexLock h hpc.1 (.call hpc.2)
  | trylock cpu m =>
    obtain ⟨t, hcall⟩ := hop
    obtain ⟨hcur, hpc⟩ := caller_eq_some hcall
    simp only [exec, hcur, Option.elim_some, mutexTrylock]
    split_ifs with hl
    · exact Step.busy
    · exact Step.lock (.call (by rw [hpc]; rfl)) (by simpa using hl)
  | unlock cpu m =>
    obtain ⟨t, hcall⟩ := hop
    obtain ⟨hcur, _⟩ := caller_eq_some hcall
    simp only [exec, hcur, Option.elim_some]
    exact Step.unlock hcur
  | semWait cpu k =>
    obtain ⟨t, hcall⟩ := hop
    obtain ⟨hcur, hpc⟩ := caller_eq_some hcall
    simp only [exec, hcur, Option.elim_some]
    exact Enter.semaphoreWait h hcur (.call (by rw [hpc]; rfl))
  | semTrywait cpu k =>
    obtain ⟨t, hcall⟩ := hop
    obtain ⟨hcur, hpc⟩ := caller_eq_some hcall
    simp only [exec, hcur, Option.elim_some, semaphoreTrywait]
    split_ifs with hc
    · exact Step.semTake (.call (by rw [hpc]; rfl)) hc
    · exact Step.busy
  | semPost k => exact Step.semPost
  | condRelease cpu c m =>
    obtain ⟨⟨t, hcall⟩, hfree⟩ := hop
    obtain ⟨hcur, hpc⟩ := caller_eq_some hcall
    simp only [exec, hcur, Option.elim_some]
    exact Step.condRelease hcur (by rw [hpc]; rfl) hfree
  | condBlock cpu =>
    obtain ⟨t, c, m, hcall⟩ := hop
    obtain ⟨hcur, hpc⟩ := caller_eq_some hcall
    have hblock : condvarBlock s cpu t c m = { blockOn s t (.cond c) (.cvWait c m) with
        cvLock := Function.update s.cvLock c none } := by
      unfold condvarBlock
      rw [h.waitBlockLocked hcur (by rw [hpc]; rfl)]
      rfl
    simp only [exec, hcall, hblock]
    exact Step.condBlock hcur hpc
  | resume cpu =>
    rcases hop with ⟨t, m, hcall⟩ | ⟨t, k, hcall⟩ | ⟨t, c, m, hcall, _⟩
    · obtain ⟨hcur, hpc⟩ := caller_eq_some hcall
      simp only [exec, hcall]
      exact Enter.mutexLock h hcur (.again (h.woken_of_running hcur (by rw [hpc]; rfl)))
    · obtain ⟨hcur, hpc⟩ := caller_eq_some hcall
      simp only [exec, hcall]
      exact Enter.semaphoreWait h hcur (.again (h.woken_of_running hcur (by rw [hpc]; rfl)))
    · obtain ⟨hcur, hpc⟩ := caller_eq_some hcall
      simp only [exec, hcall]
      exact Step.condWoken (h.woken_of_running hcur (by rw [hpc]; rfl))
  | condSignal c => exact Step.condSignal
  | condBroadcast c => exact Step.condBroadcast
  | other sched => exact Step.other hop

/-! ## Every step keeps `Waits` -/

theorem waitWakeOne_pc (s : State) (o : Obj) : (waitWakeOne s o).pc = s.pc := by
  unfold waitWakeOne
  split <;> rfl

theorem waitWakeOne_cvLock (s : State) (o : Obj) : (waitWakeOne s o).cvLock = s.cvLock := by
  unfold waitWakeOne
  split <;> rfl

theorem Waits.mutexUnlock (h : Waits s) (t m : Nat) : Waits (mutexUnlock s t m) := by
  have hbase : Waits (release s t m) := h.congr rfl rfl rfl rfl rfl
  exact hbase.wakeOne (.mutex m)

theorem Waits.run (h : Waits s) (hwait : (s.pc t).waitsOn = none) : Waits (Sync.setPc s t .run) :=
  h.setPc hwait rfl (fun _ _ hc => by cases hc) (by simp)

/-- The task takes the lock of `c`. -/
theorem Waits.hold_cvLock {c m : Nat} (h : Waits s) (hwait : (s.pc t).waitsOn = none)
    (hfree : s.cvLock c = none) : Waits { Sync.setPc s t (.cvHold c m) with
      cvLock := Function.update s.cvLock c (some t) } := by
  have hcv : Waits { s with cvLock := Function.update s.cvLock c (some t) } := by
    refine ⟨h.count, h.nodup, h.mem, h.blocked, fun u c' m' hu => ?_, h.noSpin⟩
    have hlock := h.hold u c' m' hu
    have hne : c' ≠ c := by
      rintro rfl
      rw [hfree] at hlock
      cases hlock
    dsimp only
    rw [Function.update_of_ne hne]
    exact hlock
  refine hcv.setPc hwait rfl (fun c' m' hc => ?_) (by simp)
  cases hc
  exact Function.update_self _ _ _

theorem Step.waits {op : Op} (hs : Step s op s') (h : Waits s) : Waits s' := by
  cases hs with
  | lockBlock hcur he _ =>
    exact (he.waits h).blockOn (he.sched.symm ▸ hcur) he.waitsOn rfl
  | lock he _ => exact ((he.waits h).run he.waitsOn).congr rfl rfl rfl rfl rfl
  | unlock _ => exact h.mutexUnlock _ _
  | semBlock hcur he _ =>
    exact (he.waits h).blockOn (he.sched.symm ▸ hcur) he.waitsOn rfl
  | semTake he _ => exact ((he.waits h).run he.waitsOn).congr rfl rfl rfl rfl rfl
  | @semPost k =>
    have hbase : Waits (addPermit s k) := h.congr rfl rfl rfl rfl rfl
    exact hbase.wakeOne (.sem k)
  | condRelease hcur hpc hfree =>
    refine (h.mutexUnlock _ _).hold_cvLock ?_ ?_
    · rw [mutexUnlock, waitWakeOne_pc]
      exact hpc
    · rw [mutexUnlock, waitWakeOne_cvLock]
      exact hfree
  | @condBlock _ cpu t c m hcur hpc =>
    have hblock := h.blockOn (o := .cond c) hcur (by rw [hpc]; rfl)
      (rfl : Pc.waitsOn (.cvWait c m) = some (.cond c))
    refine ⟨hblock.count, hblock.nodup, hblock.mem, hblock.blocked, fun u c' m' hu => ?_,
      hblock.noSpin⟩
    -- the lock of `c` was held by `t`, which waits now
    have hlock := hblock.hold u c' m' hu
    have hne : c' ≠ c := by
      rintro rfl
      have hold : s.cvLock c' = some u := hlock
      rw [h.hold t c' m hpc] at hold
      cases hold
      simp [Sync.blockOn, Sync.setPc] at hu
    dsimp only
    rw [Function.update_of_ne hne]
    exact hlock
  | condWoken hw =>
    exact (h.recheck hw).setPc (recheck_waitsOn _ _ _) rfl (fun _ _ hc => by cases hc) (by simp)
  | condSignal => exact h.wakeOne _
  | condBroadcast => exact h.wakeAll _
  | other hother =>
    refine ⟨hother.count, h.nodup, h.mem, fun o u hu => ?_, h.hold, h.noSpin⟩
    exact ⟨(hother.blocked u).mpr (h.blocked o u hu).1, (h.blocked o u hu).2⟩
  | busy => exact h

theorem start_waits {sched : Sched.State} (hcount : sched.taskCount ≤ maxTasks)
    (initial : Nat → Int) : Waits (start sched initial) := by
  refine ⟨hcount, fun _ => List.nodup_nil, fun o t => ?_, fun o t ht => ?_, fun t c m ht => ?_,
    fun t ht => ?_⟩
  · simp [start, Pc.waitsOn]
  · simp [start] at ht
  · simp [start] at ht
  · simp [start] at ht

/-! ## The rest of the scheduler -/

/-- The change of one record neither blocks the task nor wakes it. -/
theorem setTask_blocked {sched : Sched.State} {f : Sched.Task → Sched.Task}
    (h : (f (sched.tasks t)).state = .blocked ↔ (sched.tasks t).state = .blocked) (u : Nat) :
    ((Sched.setTask sched t f).tasks u).state = .blocked ↔ (sched.tasks u).state = .blocked := by
  by_cases hu : u = t
  · subst hu
    rw [Sched.setTask_self]
    exact h
  · rw [Sched.setTask_of_ne _ _ hu]

theorem scheduleOnCpu_blocked {sched : Sched.State} {p : Nat → Nat} (h : Sched.Fits sched p)
    (hcpu : cpu < Sched.smpMaxCpus) (regs now u : Nat) :
    ((Sched.scheduleOnCpu sched cpu regs now).1.tasks u).state = .blocked ↔
      (sched.tasks u).state = .blocked := by
  rcases Sched.scheduleOnCpu_state h hcpu regs now u with heq | ⟨hold, hnew⟩ | ⟨hold, hnew⟩
  · rw [heq]
  · rw [hold, hnew]
    exact iff_of_false (fun hc => by cases hc) (fun hc => by cases hc)
  · rw [hold, hnew]
    exact iff_of_false (fun hc => by cases hc) (fun hc => by cases hc)

/-- The sections of the scheduler that neither block on a queue nor wake a blocked task are steps
that the machine leaves open. -/
theorem exec_other {m : Sched.Machine} (h : Sched.Placed m) {op : Sched.Op} (hop : op.Enabled m)
    (hown : Sched.OnOwnCpu m op) (hblock : ∀ cpu, op ≠ .block cpu .blocked)
    (hunblock : ∀ t, op = .unblock t → (m.sched.tasks t).state ≠ .blocked) :
    Other m.sched (Sched.exec m op).sched := by
  refine ⟨fun u => ?_, (Sched.exec_placed h hop hown).fits.count.2⟩
  cases op with
  | schedule cpu regs now =>
    exact scheduleOnCpu_blocked h.fits (h.lt_smpMaxCpus hop.1) regs now u
  | create new who =>
    unfold Sched.exec Sched.createTask
    cases hslot : Sched.reserveSlot m.sched with
    | none => rfl
    | some out =>
      obtain ⟨slot, s'⟩ := out
      obtain ⟨_, _, hdead, htasks, _⟩ := Sched.reserveSlot_cases h.fits hslot
      dsimp only
      rw [setTask_blocked, htasks]
      rw [htasks]
      simp [hdead]
  | unblock t =>
    have hst := hunblock t rfl
    simp only [Sched.exec, Sched.unblockTask]
    split_ifs with hmax hsleep
    · rfl
    · rfl
    · have hsleep : (m.sched.tasks t).state = .sleeping := by
        by_contra hc
        exact hsleep ⟨hc, hst⟩
      cases Sched.parkedOn m.sched t with
      | none =>
        dsimp only
        exact setTask_blocked (by simp [hsleep]) u
      | some c =>
        dsimp only
        exact setTask_blocked (by simp [hsleep]) u
  | push i cpu now =>
    obtain ⟨x, who, hx, _, hpush⟩ := h.pushReady hop
    simp only [Sched.exec, hx, hpush, Sched.setRunq_tasks]
    exact setTask_blocked Iff.rfl u
  | block cpu st =>
    simp only [Sched.exec, Sched.blockPrepare]
    split_ifs with hst
    · rfl
    · cases hcur : curRunning m.sched cpu with
      | none => rfl
      | some self =>
        have hrun := (Sched.curRunning_eq_some hcur).2.2
        have hne : st ≠ .blocked := by
          rintro rfl
          exact hblock cpu rfl
        dsimp only
        exact setTask_blocked (by simp [hrun, hne]) u
  | exitEnter cpu =>
    obtain ⟨_, t, hcur, _⟩ := hop
    simp only [Sched.exec, hcur]
  | exitLocked cpu =>
    obtain ⟨hlt, t, hcur, hsome⟩ := hop
    obtain ⟨hres, _⟩ := h.fits.taskExit (h.lt_smpMaxCpus hlt) hcur (h.exit t hsome)
    have hrun := (Sched.curRunning_eq_some hcur).2.2
    simp only [Sched.exec, hcur, hown t hcur, Option.getD_some, hres, Sched.setCurrent_tasks]
    exact setTask_blocked (by simp [hrun]) u
  | idle cpu => rfl

end Kyuzen.Sync
