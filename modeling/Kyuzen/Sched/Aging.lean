import Kyuzen.Sched.Queues

/-!
# Priorities with aging

`runq_pop` removes one entry of the queue: a task whose priority together with its bonus for
waiting is maximal, and among these one that has waited longest. A task that has waited 800 ms is
therefore never overtaken by one that has waited less than 600 ms (`pop_with_aging`).
-/

namespace Kyuzen.Sched

open Lib.Places

variable {s s' : State} {cpu now t u : Nat}

/-! ## The scan -/

/-- A scan that moves on to greater keys ends at a greatest one. -/
theorem foldl_best {κ : Type*} [LinearOrder κ] (key : Nat → κ) : ∀ (l : List Nat) (b : Nat),
    let r := l.foldl (fun best i => if key best < key i then i else best) b
    (r = b ∨ r ∈ l) ∧ key b ≤ key r ∧ ∀ i ∈ l, key i ≤ key r := by
  intro l
  induction l with
  | nil => exact fun b => ⟨Or.inl rfl, le_refl _, fun i hi => absurd hi List.not_mem_nil⟩
  | cons j l ih =>
    intro b
    obtain ⟨hmem, hstart, hall⟩ := ih (if key b < key j then j else b)
    rw [List.foldl_cons]
    split_ifs at hmem hstart hall ⊢ with hlt
    · refine ⟨Or.inr ?_, hlt.le.trans hstart, ?_⟩
      · exact List.mem_cons.mpr hmem
      · exact List.forall_mem_cons.mpr ⟨hstart, hall⟩
    · refine ⟨hmem.imp_right (List.mem_cons_of_mem _), hstart, ?_⟩
      exact List.forall_mem_cons.mpr ⟨(not_lt.mp hlt).trans hstart, hall⟩

/-- Greater priorities first, then earlier enqueue times. -/
def popKey (s : State) (now t : Nat) : Nat ×ₗ Natᵒᵈ :=
  toLex (effectivePrio s t now, OrderDual.toDual (s.tasks t).enqueueMs)

theorem preferred_iff (s : State) (now t best : Nat) :
    preferred s now t best = true ↔ popKey s now best < popKey s now t := by
  rw [popKey, popKey, Prod.Lex.toLex_lt_toLex, OrderDual.toDual_lt_toDual]
  unfold preferred
  simp only [Bool.or_eq_true, Bool.and_eq_true, decide_eq_true_eq, beq_iff_eq]
  constructor
  · rintro (h | ⟨heq, h⟩)
    · exact Or.inl h
    · exact Or.inr ⟨heq.symm, h⟩
  · rintro (h | ⟨heq, h⟩)
    · exact Or.inl h
    · exact Or.inr ⟨heq.symm, h⟩

theorem bestIndex_spec (s : State) (now : Nat) {l : List Nat} (hl : l ≠ []) :
    ∃ t, l[bestIndex s now l]? = some t ∧ ∀ u ∈ l, popKey s now u ≤ popKey s now t := by
  have hpos := List.length_pos_of_ne_nil hl
  obtain ⟨hmem, -, hall⟩ := foldl_best (fun i => popKey s now (l.getD i 0)) (List.range l.length) 0
  have hbest : bestIndex s now l = (List.range l.length).foldl (fun best i =>
      if popKey s now (l.getD best 0) < popKey s now (l.getD i 0) then i else best) 0 := by
    unfold bestIndex
    simp only [preferred_iff]
  rw [← hbest] at hmem hall
  have hlt : bestIndex s now l < l.length := by
    rcases hmem with h | h
    · omega
    · exact List.mem_range.mp h
  refine ⟨l[bestIndex s now l], List.getElem?_eq_getElem hlt, fun u hu => ?_⟩
  obtain ⟨i, hi, rfl⟩ := List.mem_iff_getElem.mp hu
  have hle := hall i (List.mem_range.mpr hi)
  rwa [List.getD_eq_getElem _ _ hi, List.getD_eq_getElem _ _ hlt] at hle

/-! ## One pop -/

/-- The priority of a queued task, with its bonus. -/
def agedPriority (s : State) (now t : Nat) : Nat :=
  (s.tasks t).priority + min 8 ((now - (s.tasks t).enqueueMs) / 100)

/-- What `runq_pop` does to the queue of a CPU. -/
structure PopsBest (s : State) (cpu now : Nat) : Prop where
  empty : runqPop s cpu now = none ↔ s.runq cpu = []
  keeps : ∀ t s', runqPop s cpu now = some (t, s') →
    t ∈ s.runq cpu ∧ ∃ l, s' = setRunq s cpu l ∧ (s.runq cpu).Perm (t :: l)
  best : ∀ t s', runqPop s cpu now = some (t, s') → ∀ u ∈ s.runq cpu,
    agedPriority s now u ≤ agedPriority s now t
  oldest : ∀ t s', runqPop s cpu now = some (t, s') → ∀ u ∈ s.runq cpu,
    agedPriority s now u = agedPriority s now t → (s.tasks t).enqueueMs ≤ (s.tasks u).enqueueMs

theorem effectivePrio_eq (h : now - (s.tasks t).enqueueMs < 100 * 2 ^ 32) :
    effectivePrio s t now = agedPriority s now t := by
  have hlt : (now - (s.tasks t).enqueueMs) / 100 < 2 ^ 32 := Nat.div_lt_of_lt_mul h
  rw [effectivePrio, agedPriority, ageStepMs, ageMaxBonus, Nat.mod_eq_of_lt hlt, min_comm]

theorem runqPop_eq_none : runqPop s cpu now = none ↔ s.runq cpu = [] := by
  unfold runqPop
  dsimp only
  constructor
  · intro h
    by_contra hne
    obtain ⟨t, ht, -⟩ := bestIndex_spec s now hne
    rw [ht] at h
    cases h
  · intro h
    rw [h]
    rfl

theorem runqPop_key (h : runqPop s cpu now = some (t, s')) :
    t ∈ s.runq cpu ∧ ∀ u ∈ s.runq cpu, popKey s now u ≤ popKey s now t := by
  have hne : s.runq cpu ≠ [] := fun hnil => by
    rw [runqPop_eq_none.mpr hnil] at h
    cases h
  obtain ⟨x, hx, hall⟩ := bestIndex_spec s now hne
  unfold runqPop at h
  dsimp only at h
  rw [hx] at h
  obtain ⟨rfl, -⟩ := Prod.mk.inj (Option.some.inj h)
  exact ⟨List.mem_of_getElem? hx, hall⟩

theorem popKey_le_iff : popKey s now u ≤ popKey s now t ↔
    effectivePrio s u now < effectivePrio s t now ∨
      effectivePrio s u now = effectivePrio s t now ∧
        (s.tasks t).enqueueMs ≤ (s.tasks u).enqueueMs := by
  rw [popKey, popKey, Prod.Lex.toLex_le_toLex, OrderDual.toDual_le_toDual]

theorem popsBest (hwait : ∀ t ∈ s.runq cpu, now - (s.tasks t).enqueueMs < 100 * 2 ^ 32) :
    PopsBest s cpu now where
  empty := runqPop_eq_none
  keeps := by
    intro t s' h
    obtain ⟨l, hs, hcount⟩ := runqPop_spec h
    refine ⟨(runqPop_key h).1, l, hs, List.perm_iff_count.mpr fun u => ?_⟩
    rw [List.count_cons, ← hcount u]
    simp only [beq_iff_eq]
  best := by
    intro t s' h u hu
    obtain ⟨ht, hall⟩ := runqPop_key h
    have hle := popKey_le_iff.mp (hall u hu)
    rw [effectivePrio_eq (hwait u hu), effectivePrio_eq (hwait t ht)] at hle
    omega
  oldest := by
    intro t s' h u hu heq
    obtain ⟨ht, hall⟩ := runqPop_key h
    have hle := popKey_le_iff.mp (hall u hu)
    rw [effectivePrio_eq (hwait u hu), effectivePrio_eq (hwait t ht)] at hle
    omega

/-! ## Runs -/

/-- A step that touches neither a queue nor an enqueue time. -/
structure Untimed (s s' : State) : Prop where
  runq : s'.runq = s.runq
  stamp : ∀ t, (s'.tasks t).enqueueMs = (s.tasks t).enqueueMs

/-- The states that pushes, pops and steps of the rest of the kernel lead to, with the time of
each task's last push. -/
inductive Timed : State → (Nat → Nat) → Prop
  | init (online : Nat) : Timed (taskingInit online) fun _ => 0
  | push {s s' : State} {since : Nat → Nat} {cpu t now : Nat} (h : Timed s since)
    (hpush : runqPush s cpu t now = some s') : Timed s' (Function.update since t now)
  | pop {s s' : State} {since : Nat → Nat} {cpu t now : Nat} (h : Timed s since)
    (hpop : runqPop s cpu now = some (t, s')) : Timed s' since
  | other {s s' : State} {since : Nat → Nat} (h : Timed s since) (hs : Untimed s s') :
    Timed s' since

variable {since : Nat → Nat}

theorem Timed.enqueueMs (h : Timed s since) (t : Nat) : (s.tasks t).enqueueMs = since t := by
  induction h with
  | init online =>
    by_cases ht : t = 0
    · subst ht
      rfl
    · rw [taskingInit_tasks online ht]
      rfl
  | @push s s' since cpu x now _ hpush ih =>
    unfold runqPush at hpush
    split_ifs at hpush
    obtain rfl := Option.some.inj hpush
    by_cases ht : t = x
    · subst ht
      simp
    · rw [Function.update_of_ne ht, setRunq_tasks, setTask_of_ne _ _ ht]
      exact ih
  | pop _ hpop ih =>
    obtain ⟨l, rfl, -⟩ := runqPop_spec hpop
    exact ih
  | other _ hs ih => exact (hs.stamp t).trans ih

theorem untimed_setTask {f : Task → Task} (t : Nat)
    (h : (f (s.tasks t)).enqueueMs = (s.tasks t).enqueueMs) : Untimed s (setTask s t f) := by
  refine ⟨rfl, fun u => ?_⟩
  by_cases hu : u = t
  · subst hu
    rw [setTask_self, h]
  · rw [setTask_of_ne _ _ hu]

theorem untimed_setCurrent (s : State) (cpu : Nat) (t : Option Nat) :
    Untimed s (setCurrent s cpu t) :=
  ⟨rfl, fun _ => rfl⟩

theorem Timed.takeNext (h : Timed s since) (hnext : takeNext s cpu now = some (t, s')) :
    Timed s' since := by
  unfold Sched.takeNext at hnext
  split at hnext
  · rename_i r hr
    obtain rfl := Option.some.inj hnext
    exact h.pop hr
  · unfold stealTask at hnext
    split at hnext
    · cases hnext
    · exact h.pop hnext

theorem Timed.saveFrame (h : Timed s since) (cur : Option Nat) (regs : Nat) :
    Timed (saveFrame s cur regs) since := by
  unfold Sched.saveFrame
  split
  · exact h
  · rename_i t
    exact h.other (untimed_setTask t rfl)

theorem Timed.dispatch (h : Timed s since) (cpu next : Nat) :
    Timed (dispatch s cpu next) since :=
  (h.other (untimed_setTask next rfl)).other (untimed_setCurrent _ cpu _)

theorem Timed.switchTo (h : Timed s since) (cpu regs now next : Nat) :
    ∃ since, Timed (switchTo s cpu regs now next).1 since := by
  unfold Sched.switchTo
  split
  · exact ⟨since, (h.saveFrame _ _).dispatch _ _⟩
  · rename_i cur _
    have hyield : Timed (yieldTask s cur regs) since := h.other (untimed_setTask cur rfl)
    split
    · rename_i s₁ hpush
      exact ⟨_, (hyield.push hpush).dispatch _ _⟩
    · have hback : Timed (setTask (yieldTask s cur regs) cur fun x => { x with state := .running })
          since := hyield.other (untimed_setTask cur rfl)
      dsimp only
      cases hpush : runqPush (setTask (yieldTask s cur regs) cur
          fun x => { x with state := .running }) cpu next now with
      | none => exact ⟨since, hback⟩
      | some s₁ => exact ⟨_, hback.push hpush⟩

theorem Timed.scheduleOnCpu (h : Timed s since) (cpu regs now : Nat) :
    ∃ since, Timed (scheduleOnCpu s cpu regs now).1 since := by
  have hrel : Timed (relinquish s cpu) since := by
    unfold relinquish
    split_ifs
    · exact h.other (untimed_setCurrent _ _ _)
    · exact h
  unfold Sched.scheduleOnCpu
  split_ifs
  · exact ⟨since, h⟩
  · split
    · exact ⟨since, hrel.saveFrame _ _⟩
    · rename_i next s₁ hnext
      have htaken := hrel.takeNext hnext
      split_ifs
      · exact ⟨since, htaken⟩
      · exact htaken.switchTo cpu regs now next

theorem Timed.createTask (h : Timed s since) (new : NewTask) :
    Timed (createTask s new).sched since := by
  unfold Sched.createTask
  split
  · exact h
  · rename_i slot s₁ hslot
    have hreserve : Untimed s s₁ := by
      unfold reserveSlot at hslot
      split at hslot
      · obtain ⟨-, rfl⟩ := Prod.mk.inj (Option.some.inj hslot)
        exact ⟨rfl, fun _ => rfl⟩
      · split_ifs at hslot
        obtain ⟨-, rfl⟩ := Prod.mk.inj (Option.some.inj hslot)
        exact ⟨rfl, fun _ => rfl⟩
    dsimp only
    exact (h.other hreserve).other (untimed_setTask slot rfl)

theorem Timed.pushReady (h : Timed s since) (who : Pusher) (t cpu now : Nat) :
    ∃ since, Timed (pushReady s who t cpu now).1 since := by
  unfold Sched.pushReady
  split
  · rename_i s₁ hpush
    exact ⟨_, h.push hpush⟩
  · refine ⟨since, ?_⟩
    cases who with
    | createTaskPrio =>
      dsimp only
      exact h.other (untimed_setTask t rfl)
    | createUserTask =>
      dsimp only
      exact h.other (untimed_setTask t rfl)
    | unblockTask =>
      dsimp only
      split_ifs
      · exact h.other (untimed_setTask t rfl)
      · exact h

/-- The scheduler uses the queues in no other way. -/
theorem exec_timed {m : Machine} (h : Timed m.sched since) (op : Op) :
    ∃ since, Timed (exec m op).sched since := by
  cases op with
  | schedule cpu regs now => exact h.scheduleOnCpu cpu regs now
  | create new who => exact ⟨since, h.createTask new⟩
  | unblock t =>
    refine ⟨since, ?_⟩
    show Timed (unblockTask m.sched t).2 since
    unfold unblockTask
    split_ifs
    · exact h
    · exact h
    · split
      · dsimp only
        exact h.other (untimed_setTask t rfl)
      · dsimp only
        exact h.other (untimed_setTask t rfl)
  | push i cpu now =>
    unfold exec
    dsimp only
    split
    · exact ⟨since, h⟩
    · rename_i t who _
      exact h.pushReady who t cpu now
  | block cpu st =>
    refine ⟨since, ?_⟩
    show Timed (blockPrepare m.sched cpu st).2 since
    unfold blockPrepare
    split_ifs
    · exact h
    · split
      · exact h
      · rename_i self _
        dsimp only
        exact h.other (untimed_setTask self rfl)
  | exitEnter cpu =>
    unfold exec
    dsimp only
    split
    · exact ⟨since, h⟩
    · exact ⟨since, h⟩
  | exitLocked cpu =>
    unfold exec
    dsimp only
    split
    · exact ⟨since, h⟩
    · refine ⟨since, ?_⟩
      unfold taskExit
      split
      · exact h.other (untimed_setCurrent _ _ _)
      · rename_i cur _
        exact (h.other (untimed_setTask cur rfl)).other (untimed_setCurrent _ _ _)
  | idle cpu => exact ⟨since, h.other (untimed_setCurrent _ _ _)⟩

theorem reach_timed {P : Machine → Op → Prop} {m : Machine} (h : Reach P m) :
    ∃ since, Timed m.sched since := by
  induction h with
  | start => exact ⟨_, Timed.init _⟩
  | step _ _ _ ih =>
    obtain ⟨since, htimed⟩ := ih
    exact exec_timed htimed _

/-- The pop does not prefer a task that has waited less than 600 ms to one that has waited 800. -/
def NoOvertaking (s : State) (since : Nat → Nat) (cpu now : Nat) : Prop :=
  ∀ t s', runqPop s cpu now = some (t, s') → ∀ u ∈ s.runq cpu,
    800 ≤ now - since u → 600 ≤ now - since t

/-- For every content of a queue, and in every run, those of the scheduler among them. -/
theorem pop_with_aging
    (hwait : ∀ t ∈ s.runq cpu, now - (s.tasks t).enqueueMs < 100 * 2 ^ 32)
    (hprio : ∀ t ∈ s.runq cpu, (s.tasks t).priority ≤ 3) :
    PopsBest s cpu now ∧ (∀ since, Timed s since → NoOvertaking s since cpu now) ∧
      ∀ m, Reach (fun _ _ => True) m → ∃ since, Timed m.sched since := by
  have hpops := popsBest hwait
  refine ⟨hpops, fun since htimed t s' h u hu hlong => ?_, fun m => reach_timed⟩
  have ht := (hpops.keeps t s' h).1
  have hbest := hpops.best t s' h u hu
  have htie := hpops.oldest t s' h u hu
  have hbase := hprio t ht
  unfold agedPriority at hbest htie
  rw [← htimed.enqueueMs u] at hlong
  rw [← htimed.enqueueMs t]
  omega

/-- A queue with two tasks: task 1 was queued at 0 ms with priority 0, task 2 at 800 ms with
priority 3. -/
def agedQueue : State :=
  { taskingInit 1 with
    tasks := fun t =>
      { deadTask with
        state := .ready
        priority := if t = 1 then 0 else 3
        enqueueMs := if t = 1 then 0 else 800 }
    runq := fun _ => [1, 2] }

theorem pop_with_aging_agedQueue :
    PopsBest agedQueue 0 900 ∧
      (∀ since, Timed agedQueue since → NoOvertaking agedQueue since 0 900) ∧
      ∀ m, Reach (fun _ _ => True) m → ∃ since, Timed m.sched since :=
  pop_with_aging (by decide) (by decide)

end Kyuzen.Sched
