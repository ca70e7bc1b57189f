import Kyuzen.Sync.Waits

/-!
# No lost wakeup, mutual exclusion, permits

The counts of a semaphore and the lock bit of a mutex are set against the tasks that were dequeued
and have not checked again (`Guard`): a permit or a free mutex beside a queue is always on its way
to a task. Together with `Waits` this is `no_lost_wakeup`. `mutual_exclusion` follows the holders
of a mutex and the permits of a semaphore through every run in which a mutex is released by a
holder. `exec_other` shows that the sections of the scheduler other than blocking on a queue and
being woken from it are the steps that the machine leaves open.
-/

namespace Kyuzen.Sync

open Sched (TaskState curRunning maxTasks)

variable {s s' : State} {o : Obj} {t u cpu : Nat} {pc : Pc}

/-! ## 32-bit counts -/

theorem int32_range (x : Int) : -2 ^ 31 ≤ int32 x ∧ int32 x < 2 ^ 31 := by
  unfold int32
  have h1 := Int.le_bmod (x := x) (m := 2 ^ 32) (by decide)
  have h2 := Int.bmod_lt (x := x) (m := 2 ^ 32) (by decide)
  omega

theorem int32_of_range {x : Int} (h : -2 ^ 31 ≤ x) (h' : x < 2 ^ 31) : int32 x = x := by
  unfold int32
  rw [Int.bmod_eq_of_le] <;> omega

theorem int32_le {x : Int} (h : -2 ^ 31 ≤ x) (h' : x ≤ 2 ^ 31) : int32 x ≤ x := by
  have hrange := int32_range x
  by_cases hx : x < 2 ^ 31
  · rw [int32_of_range h hx]
  · omega

/-! ## Permits and free mutexes -/

/-- The count of a semaphore beside its queue and the tasks that were dequeued. -/
def SemFits (queue woken : List Nat) (n : Int) : Prop :=
  -2 ^ 31 ≤ n ∧ n < 2 ^ 31 ∧ (queue ≠ [] → n ≤ woken.length)

def MutexFits (queue woken : List Nat) (locked : Bool) : Prop :=
  locked = false → queue ≠ [] → woken ≠ []

structure Guard (s : State) : Prop where
  sem : ∀ k, SemFits (s.queue (.sem k)) (s.woken (.sem k)) (s.count k)
  mutex : ∀ m, MutexFits (s.queue (.mutex m)) (s.woken (.mutex m)) (s.locked m)

/-- What an object's part of the guard says. -/
def Obj.Fits (s : State) : Obj → Prop
  | .sem k => SemFits (s.queue (.sem k)) (s.woken (.sem k)) (s.count k)
  | .mutex m => MutexFits (s.queue (.mutex m)) (s.woken (.mutex m)) (s.locked m)
  | .cond _ => True

/-- A step touches one object. -/
structure Touches (o : Obj) (s s' : State) : Prop where
  queue : ∀ o', o' ≠ o → s'.queue o' = s.queue o'
  woken : ∀ o', o' ≠ o → s'.woken o' = s.woken o'
  count : ∀ k, .sem k ≠ o → s'.count k = s.count k
  locked : ∀ m, .mutex m ≠ o → s'.locked m = s.locked m

theorem Guard.touch (h : Guard s) (ht : Touches o s s') (ho : o.Fits s') : Guard s' := by
  refine ⟨fun k => ?_, fun m => ?_⟩
  · by_cases hk : .sem k = o
    · subst hk
      exact ho
    · rw [ht.queue _ hk, ht.woken _ hk, ht.count k hk]
      exact h.sem k
  · by_cases hm : .mutex m = o
    · subst hm
      exact ho
    · rw [ht.queue _ hm, ht.woken _ hm, ht.locked m hm]
      exact h.mutex m

theorem Touches.refl (o : Obj) (s : State) : Touches o s s :=
  ⟨fun _ _ => rfl, fun _ _ => rfl, fun _ _ => rfl, fun _ _ => rfl⟩

theorem Touches.trans {s'' : State} (h : Touches o s s') (h' : Touches o s' s'') :
    Touches o s s'' :=
  ⟨fun o' ho => (h'.queue o' ho).trans (h.queue o' ho),
    fun o' ho => (h'.woken o' ho).trans (h.woken o' ho),
    fun k hk => (h'.count k hk).trans (h.count k hk),
    fun m hm => (h'.locked m hm).trans (h.locked m hm)⟩

theorem touches_recheck (s : State) (t : Nat) (o : Obj) : Touches o s (recheck s t o) :=
  ⟨fun _ _ => rfl, fun _ ho => Function.update_of_ne ho _ _, fun _ _ => rfl, fun _ _ => rfl⟩

theorem Enter.touches {s₁ : State} (he : Enter s t o s₁) : Touches o s s₁ := by
  cases he with
  | call _ => exact Touches.refl o s
  | again _ => exact touches_recheck s t o

theorem touches_blockOn (s : State) (t : Nat) (o : Obj) (pc : Pc) :
    Touches o s (blockOn s t o pc) :=
  ⟨fun _ ho => Function.update_of_ne ho _ _, fun _ _ => rfl, fun _ _ => rfl, fun _ _ => rfl⟩

theorem touches_wakeOne (s : State) (o : Obj) : Touches o s (waitWakeOne s o) := by
  cases hq : s.queue o with
  | nil =>
    rw [waitWakeOne_nil hq]
    exact Touches.refl o s
  | cons id rest =>
    rw [waitWakeOne_cons hq]
    exact ⟨fun _ ho => Function.update_of_ne ho _ _, fun _ ho => Function.update_of_ne ho _ _,
      fun _ _ => rfl, fun _ _ => rfl⟩

theorem touches_wakeAll (s : State) (o : Obj) : Touches o s (waitWakeAll s o) := by
  unfold waitWakeAll
  generalize (s.queue o).length = n
  induction n generalizing s with
  | zero => exact Touches.refl o s
  | succ n ih => exact (touches_wakeOne s o).trans (ih (waitWakeOne s o))

theorem waitWakeOne_count (s : State) (o : Obj) : (waitWakeOne s o).count = s.count := by
  unfold waitWakeOne
  split <;> rfl

theorem waitWakeOne_locked (s : State) (o : Obj) : (waitWakeOne s o).locked = s.locked := by
  unfold waitWakeOne
  split <;> rfl

/-- A wakeup leaves the queue empty, or a task is on its way. -/
theorem waitWakeOne_woken (s : State) (o : Obj) :
    (s.queue o = [] ∧ waitWakeOne s o = s) ∨
      ∃ id rest, s.queue o = id :: rest ∧ (waitWakeOne s o).queue o = rest ∧
        (waitWakeOne s o).woken o = id :: s.woken o := by
  cases hq : s.queue o with
  | nil => exact Or.inl ⟨rfl, waitWakeOne_nil hq⟩
  | cons id rest =>
    refine Or.inr ⟨id, rest, rfl, ?_, ?_⟩
    · rw [waitWakeOne_cons hq]
      exact Function.update_self _ _ _
    · rw [waitWakeOne_cons hq]
      exact Function.update_self _ _ _

theorem Guard.unlock (h : Guard s) (t m : Nat) : Guard (mutexUnlock s t m) := by
  have hbase : Touches (.mutex m) s (release s t m) :=
    ⟨fun _ _ => rfl, fun _ _ => rfl, fun _ _ => rfl,
      fun m' hm => Function.update_of_ne (fun hc => hm (by rw [hc])) _ _⟩
  refine h.touch (hbase.trans (touches_wakeOne _ _)) fun _ hq => ?_
  unfold mutexUnlock at hq ⊢
  rcases waitWakeOne_woken (release s t m) (.mutex m) with ⟨hnil, heq⟩ | ⟨id, rest, _, _, hw⟩
  · rw [heq] at hq
    exact absurd hnil hq
  · rw [hw]
    simp

theorem Guard.post (h : Guard s) (k : Nat) : Guard (semaphorePost s k) := by
  have hbase : Touches (.sem k) s (addPermit s k) :=
    ⟨fun _ _ => rfl, fun _ _ => rfl,
      fun k' hk => Function.update_of_ne (fun hc => hk (by rw [hc])) _ _, fun _ _ => rfl⟩
  obtain ⟨hlow, hhigh, hwoken⟩ := h.sem k
  refine h.touch (hbase.trans (touches_wakeOne _ _)) ?_
  have hcount : (addPermit s k).count k = int32 (s.count k + 1) := Function.update_self _ _ _
  dsimp only [Obj.Fits]
  rw [semaphorePost, waitWakeOne_count, hcount]
  refine ⟨(int32_range _).1, (int32_range _).2, fun hq => ?_⟩
  rcases waitWakeOne_woken (addPermit s k) (.sem k) with ⟨hnil, heq⟩ | ⟨id, rest, hcons, _, hw⟩
  · rw [heq] at hq
    exact absurd hnil hq
  · rw [hw, List.length_cons]
    have hle := hwoken (by rw [show s.queue (.sem k) = id :: rest from hcons]; simp)
    have hnext : int32 (s.count k + 1) ≤ s.count k + 1 := int32_le (by omega) (by omega)
    have hsame : (addPermit s k).woken (.sem k) = s.woken (.sem k) := rfl
    rw [hsame]
    push_cast
    omega

/-- One permit less, and one task less on its way, if it was one. -/
theorem Guard.take {s₁ : State} {k : Nat} (h : Guard s) (he : Enter s t (.sem k) s₁)
    (hc : 0 < s.count k) : Guard (take s₁ t k) := by
  have htake : Touches (.sem k) s₁ (Sync.take s₁ t k) :=
    ⟨fun _ _ => rfl, fun _ _ => rfl,
      fun k' hk => Function.update_of_ne (fun hc => hk (by rw [hc])) _ _, fun _ _ => rfl⟩
  refine h.touch (he.touches.trans htake) ?_
  obtain ⟨hlow, hhigh, hwoken⟩ := h.sem k
  have hcount : (Sync.take s₁ t k).count k = s.count k - 1 := by
    unfold Sync.take
    dsimp only
    rw [Function.update_self, he.count, int32_of_range (by omega) (by omega)]
  dsimp only [Obj.Fits]
  rw [hcount]
  refine ⟨by omega, by omega, fun hq => ?_⟩
  cases he with
  | call _ =>
    have hle := hwoken hq
    have hsame : (Sync.take s t k).woken (.sem k) = s.woken (.sem k) := rfl
    rw [hsame]
    omega
  | again hw =>
    have hle := hwoken hq
    have hsame : (Sync.take (recheck s t (.sem k)) t k).woken (.sem k) =
        (s.woken (.sem k)).erase t := Function.update_self _ _ _
    have hlen := List.length_erase_of_mem hw
    have hpos := List.length_pos_of_mem hw
    rw [hsame]
    omega

theorem Step.guard {op : Op} (hs : Step s op s') (h : Guard s) : Guard s' := by
  cases hs with
  | @lockBlock _ cpu t m s₁ hcur he hl =>
    refine h.touch (he.touches.trans (touches_blockOn _ _ _ _)) fun hc => ?_
    have hsame : (blockOn s₁ t (.mutex m) (.lockWait m)).locked m = s.locked m :=
      congrFun he.locked m
    rw [hsame, hl] at hc
    cases hc
  | @lock _ t m s₁ he hl =>
    have hacq : Touches (.mutex m) s₁ (acquire s₁ t m) :=
      ⟨fun _ _ => rfl, fun _ _ => rfl, fun _ _ => rfl,
        fun m' hm => Function.update_of_ne (fun hc => hm (by rw [hc])) _ _⟩
    refine h.touch (he.touches.trans hacq) fun hc => ?_
    simp [acquire] at hc
  | unlock _ => exact h.unlock _ _
  | @semBlock _ cpu t k s₁ hcur he hc =>
    refine h.touch (he.touches.trans (touches_blockOn _ _ _ _)) ?_
    have hsame : (blockOn s₁ t (.sem k) (.semWait k)).count k = s.count k := congrFun he.count k
    obtain ⟨hlow, hhigh, _⟩ := h.sem k
    dsimp only [Obj.Fits]
    rw [hsame]
    exact ⟨hlow, hhigh, fun _ => by omega⟩
  | semTake he hc => exact h.take he hc
  | semPost => exact h.post _
  | @condRelease _ t _ m _ _ _ =>
    have hunlock := h.unlock t m
    exact ⟨hunlock.sem, hunlock.mutex⟩
  | @condBlock _ _ t c m _ _ =>
    have hblock := h.touch (touches_blockOn s t (.cond c) (.cvWait c m)) trivial
    exact ⟨hblock.sem, hblock.mutex⟩
  | @condWoken _ t c _ _ =>
    have hre := h.touch (touches_recheck s t (.cond c)) trivial
    exact ⟨hre.sem, hre.mutex⟩
  | condSignal => exact h.touch (touches_wakeOne _ _) trivial
  | condBroadcast => exact h.touch (touches_wakeAll _ _) trivial
  | other _ => exact ⟨h.sem, h.mutex⟩
  | busy => exact h

theorem start_guard {sched : Sched.State} {initial : Nat → Int}
    (hinit : ∀ k, -2 ^ 31 ≤ initial k ∧ initial k < 2 ^ 31) : Guard (start sched initial) :=
  ⟨fun k => ⟨(hinit k).1, (hinit k).2, fun hq => absurd rfl hq⟩, fun _ _ hq => absurd rfl hq⟩

theorem reach_guard {P : State → Op → Prop} {initial : Nat → Int} (h : Reach P initial s) :
    Waits s ∧ Guard s := by
  induction h with
  | start hcount hinit => exact ⟨start_waits hcount _, start_guard hinit⟩
  | step _ hop _ ih =>
    have hstep := exec_step ih.1 hop
    exact ⟨hstep.waits ih.1, hstep.guard ih.2⟩

/-! ## No lost wakeup -/

structure NoLostWakeup (s : State) : Prop where
  /-- A semaphore with waiters has no more permits than tasks on their way to take one. -/
  sem : ∀ k, s.queue (.sem k) ≠ [] → s.count k ≤ (s.woken (.sem k)).length
  /-- If a mutex with waiters is free, a task is on its way to take it. -/
  mutex : ∀ m, s.locked m = false → s.queue (.mutex m) ≠ [] → s.woken (.mutex m) ≠ []
  /-- Whoever signals finds every task that has released its mutex in `condvar_wait` on the queue,
  unless it was dequeued before. -/
  cond : ∀ c, (Op.condSignal c).Enabled s → ∀ t m, s.pc t = .cvHold c m ∨ s.pc t = .cvWait c m →
    t ∈ s.queue (.cond c) ∨ t ∈ s.woken (.cond c)
  /-- A task that was dequeued is on no queue until it has checked its condition again. -/
  woken : ∀ o o' t, t ∈ s.woken o → t ∉ s.queue o'
  one_queue : ∀ o o' t, t ∈ s.queue o → t ∈ s.queue o' → o = o'
  once : ∀ o, (s.queue o).Nodup
  blocked : ∀ o t, t ∈ s.queue o → (s.sched.tasks t).state = .blocked
  /-- Every task that waits blocks: no queue is full. -/
  noSpin : ∀ t, s.pc t ≠ .spin

/-- A section of the scheduler that neither blocks on a queue nor wakes a blocked task. -/
structure Aside (m : Sched.Machine) (op : Sched.Op) : Prop where
  placed : Sched.Placed m
  enabled : op.Enabled m
  own : Sched.OnOwnCpu m op
  noBlock : ∀ cpu, op ≠ .block cpu .blocked
  noWake : ∀ t, op = .unblock t → (m.sched.tasks t).state ≠ .blocked

/-- In every run no wakeup is lost, and the runs leave the other sections of the scheduler to go on
between any two steps. -/
theorem no_lost_wakeup {initial : Nat → Int} (h : Reach (fun _ _ => True) initial s) :
    NoLostWakeup s ∧ ∀ m op, m.sched = s.sched → Aside m op →
      Reach (fun _ _ => True) initial { s with sched := (Sched.exec m op).sched } := by
  obtain ⟨hw, hg⟩ := reach_guard h
  refine ⟨?_, fun m op hm haside => ?_⟩
  swap
  · have hother := exec_other haside.placed haside.enabled haside.own haside.noBlock haside.noWake
    rw [hm] at hother
    have hstep : Reach (fun _ _ => True) initial (exec s (.other (Sched.exec m op).sched)) :=
      h.step hother trivial
    exact hstep
  refine ⟨fun k => (hg.sem k).2.2, hg.mutex, fun c hfree t m hpc => ?_, fun o o' t ht hq => ?_,
    fun o o' t => hw.one_queue, fun o => (List.nodup_append.mp (hw.nodup o)).1,
    fun o t ht => (hw.blocked o t ht).1, hw.noSpin⟩
  · rcases hpc with hpc | hpc
    · have hlock := hw.hold t c m hpc
      rw [show s.cvLock c = none from hfree] at hlock
      cases hlock
    · exact List.mem_append.mp ((hw.mem (.cond c) t).mpr (by rw [hpc]; rfl))
  · have h1 := (hw.mem o t).mp (List.mem_append_right _ ht)
    obtain rfl : o = o' := Option.some.inj (h1.symm.trans (hw.of_queue hq))
    exact (List.nodup_append.mp (hw.nodup o)).2.2 t hq t ht rfl

/-! ## Mutual exclusion and permits -/

/-- Only a holder releases a mutex, with `mutex_unlock` or with `condvar_wait`. -/
def ReleasesOwn (s : State) : Op → Prop
  | .unlock cpu m | .condRelease cpu _ m => ∀ t, curRunning s.sched cpu = some t → t ∈ s.holders m
  | _ => True

/-- A free mutex has no holder; a locked one has one, which is its owner. -/
def Exclusive (s : State) (m : Nat) : Prop :=
  (s.locked m = false → s.holders m = []) ∧
    (s.locked m = true → ∃ t, s.holders m = [t] ∧ s.owner m = some t)

/-- The count of a semaphore is what is left of its permits. -/
def Permits (initial : Nat → Int) (s : State) (k : Nat) : Prop :=
  s.count k = int32 (initial k + s.posts k - s.completed k) ∧
    (0 ≤ initial k → (s.completed k : Int) ≤ initial k + s.posts k)

theorem Exclusive.congr {m : Nat} (h : Exclusive s m) (hl : s'.locked m = s.locked m)
    (hh : s'.holders m = s.holders m) (ho : s'.owner m = s.owner m) : Exclusive s' m := by
  unfold Exclusive
  rw [hl, hh, ho]
  exact h

theorem Exclusive.acquire {m : Nat} (h : ∀ m, Exclusive s m) (hl : s.locked m = false) (m' : Nat) :
    Exclusive (acquire s t m) m' := by
  by_cases hm : m' = m
  · subst hm
    refine ⟨fun hc => ?_, fun _ => ⟨t, ?_, ?_⟩⟩
    · simp [Sync.acquire] at hc
    · simp [Sync.acquire, (h m').1 hl]
    · simp [Sync.acquire]
  · refine (h m').congr ?_ ?_ ?_ <;> exact Function.update_of_ne hm _ _

theorem waitWakeOne_holders (s : State) (o : Obj) : (waitWakeOne s o).holders = s.holders ∧
    (waitWakeOne s o).owner = s.owner ∧ (waitWakeOne s o).completed = s.completed ∧
    (waitWakeOne s o).posts = s.posts := by
  unfold waitWakeOne
  split <;> exact ⟨rfl, rfl, rfl, rfl⟩

theorem waitWakeAll_holders (s : State) (o : Obj) : (waitWakeAll s o).holders = s.holders ∧
    (waitWakeAll s o).owner = s.owner ∧ (waitWakeAll s o).completed = s.completed ∧
    (waitWakeAll s o).posts = s.posts ∧ (waitWakeAll s o).locked = s.locked ∧
    (waitWakeAll s o).count = s.count := by
  unfold waitWakeAll
  generalize (s.queue o).length = n
  induction n generalizing s with
  | zero => exact ⟨rfl, rfl, rfl, rfl, rfl, rfl⟩
  | succ n ih =>
    obtain ⟨h1, h2, h3, h4, h5, h6⟩ := ih (waitWakeOne s o)
    obtain ⟨g1, g2, g3, g4⟩ := waitWakeOne_holders s o
    exact ⟨h1.trans g1, h2.trans g2, h3.trans g3, h4.trans g4, h5.trans (waitWakeOne_locked s o),
      h6.trans (waitWakeOne_count s o)⟩

theorem Exclusive.unlock {m : Nat} (h : ∀ m, Exclusive s m) (ht : t ∈ s.holders m) (m' : Nat) :
    Exclusive (mutexUnlock s t m) m' := by
  obtain ⟨hh, ho, _⟩ := waitWakeOne_holders (release s t m) (.mutex m)
  unfold Exclusive mutexUnlock
  rw [waitWakeOne_locked, hh, ho]
  by_cases hm : m' = m
  · subst hm
    simp only [release, Function.update_self]
    refine ⟨fun _ => ?_, fun hc => by cases hc⟩
    cases hl : s.locked m' with
    | false =>
      rw [(h m').1 hl]
      rfl
    | true =>
      obtain ⟨u, hu, _⟩ := (h m').2 hl
      rw [hu, List.mem_singleton] at ht
      rw [hu, ht, List.erase_cons_head]
  · simp only [release, Function.update_of_ne hm]
    exact h m'

theorem Enter.same {s₁ : State} (he : Enter s t o s₁) : s₁.holders = s.holders ∧
    s₁.owner = s.owner ∧ s₁.completed = s.completed ∧ s₁.posts = s.posts := by
  cases he <;> exact ⟨rfl, rfl, rfl, rfl⟩

theorem Step.exclusive {op : Op} (hs : Step s op s') (hown : ReleasesOwn s op)
    (h : ∀ m, Exclusive s m) (m : Nat) : Exclusive s' m := by
  have hsame : ∀ s' : State, s'.locked = s.locked → s'.holders = s.holders → s'.owner = s.owner →
      Exclusive s' m := fun s' hl hh ho =>
    (h m).congr (congrFun hl m) (congrFun hh m) (congrFun ho m)
  cases hs with
  | lockBlock _ he _ => exact hsame _ he.locked he.same.1 he.same.2.1
  | lock he hl =>
    refine Exclusive.acquire (fun m' => ?_) (by rw [he.locked, hl]) m
    exact (h m').congr (congrFun he.locked m') (congrFun he.same.1 m') (congrFun he.same.2.1 m')
  | unlock hcur => exact Exclusive.unlock h (hown _ hcur) m
  | semBlock _ he _ => exact hsame _ he.locked he.same.1 he.same.2.1
  | semTake he _ => exact hsame _ he.locked he.same.1 he.same.2.1
  | semPost =>
    obtain ⟨hh, ho, _⟩ := waitWakeOne_holders (addPermit s _) (.sem _)
    exact hsame _ (waitWakeOne_locked _ _) hh ho
  | condRelease hcur _ _ => exact Exclusive.unlock h (hown _ hcur) m
  | condBlock _ _ => exact hsame _ rfl rfl rfl
  | condWoken _ => exact hsame _ rfl rfl rfl
  | condSignal =>
    obtain ⟨hh, ho, _⟩ := waitWakeOne_holders s (.cond _)
    exact hsame _ (waitWakeOne_locked _ _) hh ho
  | condBroadcast =>
    obtain ⟨hh, ho, _, _, hl, _⟩ := waitWakeAll_holders s (.cond _)
    exact hsame _ hl hh ho
  | other _ => exact hsame _ rfl rfl rfl
  | busy => exact h m

theorem int32_add (x y : Int) : int32 (int32 x + y) = int32 (x + y) := Int.bmod_add_bmod

theorem Permits.congr {initial : Nat → Int} {k : Nat} (h : Permits initial s k)
    (hc : s'.count k = s.count k) (hp : s'.posts k = s.posts k)
    (hd : s'.completed k = s.completed k) : Permits initial s' k := by
  unfold Permits
  rw [hc, hp, hd]
  exact h

theorem Permits.take {initial : Nat → Int} {k : Nat} (h : ∀ k, Permits initial s k)
    (hc : 0 < s.count k) (k' : Nat) : Permits initial (take s t k) k' := by
  by_cases hk : k' = k
  · subst hk
    obtain ⟨hcount, hle⟩ := h k'
    unfold Permits Sync.take
    simp only [Function.update_self, Sync.setPc]
    refine ⟨?_, fun hinit => ?_⟩
    · rw [hcount, sub_eq_add_neg, int32_add]
      push_cast
      congr 1
      omega
    · -- a permit is left, so the calls so far have not used up all of them
      have hle := hle hinit
      rcases lt_or_eq_of_le hle with hlt | heq
      · push_cast
        omega
      · rw [hcount, show initial k' + s.posts k' - s.completed k' = 0 by omega] at hc
        cases hc
  · refine (h k').congr ?_ rfl ?_ <;> exact Function.update_of_ne hk _ _

theorem Permits.post {initial : Nat → Int} (h : ∀ k, Permits initial s k) (k k' : Nat) :
    Permits initial (semaphorePost s k) k' := by
  obtain ⟨_, _, hd, hp⟩ := waitWakeOne_holders (addPermit s k) (.sem k)
  unfold Permits semaphorePost
  rw [waitWakeOne_count, hd, hp]
  by_cases hk : k' = k
  · subst hk
    obtain ⟨hcount, hle⟩ := h k'
    simp only [addPermit, Function.update_self]
    refine ⟨?_, fun hinit => ?_⟩
    · rw [hcount, int32_add]
      push_cast
      congr 1
      omega
    · have hle := hle hinit
      push_cast
      omega
  · simp only [addPermit, Function.update_of_ne hk]
    exact h k'

theorem Step.permits {op : Op} {initial : Nat → Int} (hs : Step s op s')
    (h : ∀ k, Permits initial s k) (k : Nat) : Permits initial s' k := by
  have hsame : ∀ s' : State, s'.count = s.count → s'.posts = s.posts →
      s'.completed = s.completed → Permits initial s' k := fun s' hc hp hd =>
    (h k).congr (congrFun hc k) (congrFun hp k) (congrFun hd k)
  have hunlock : ∀ t m, Permits initial (mutexUnlock s t m) k := by
    intro t m
    obtain ⟨_, _, hd, hp⟩ := waitWakeOne_holders (release s t m) (.mutex m)
    exact hsame _ (waitWakeOne_count _ _) hp hd
  cases hs with
  | lockBlock _ he _ => exact hsame _ he.count he.same.2.2.2 he.same.2.2.1
  | lock he _ => exact hsame _ he.count he.same.2.2.2 he.same.2.2.1
  | unlock _ => exact hunlock _ _
  | semBlock _ he _ => exact hsame _ he.count he.same.2.2.2 he.same.2.2.1
  | semTake he hc =>
    refine Permits.take (fun k' => ?_) (by rw [he.count]; exact hc) k
    exact (h k').congr (congrFun he.count k') (congrFun he.same.2.2.2 k')
      (congrFun he.same.2.2.1 k')
  | semPost => exact Permits.post h _ k
  | condRelease _ _ _ => exact hunlock _ _
  | condBlock _ _ => exact hsame _ rfl rfl rfl
  | condWoken _ => exact hsame _ rfl rfl rfl
  | condSignal =>
    obtain ⟨_, _, hd, hp⟩ := waitWakeOne_holders s (.cond _)
    exact hsame _ (waitWakeOne_count _ _) hp hd
  | condBroadcast =>
    obtain ⟨_, _, hd, hp, _, hc⟩ := waitWakeAll_holders s (.cond _)
    exact hsame _ hc hp hd
  | other _ => exact hsame _ rfl rfl rfl
  | busy => exact h k

structure Exclusion (initial : Nat → Int) (s : State) : Prop where
  /-- One task at most is between a return of a locking call and the matching release. -/
  one_holder : ∀ m, (s.holders m).length ≤ 1
  owner : ∀ m t, t ∈ s.holders m → s.locked m = true ∧ s.owner m = some t
  permits : ∀ k, 0 ≤ initial k → (s.completed k : Int) ≤ initial k + s.posts k

/-- In every run in which mutexes are released by their holders. -/
theorem mutual_exclusion {initial : Nat → Int} (h : Reach ReleasesOwn initial s) :
    Exclusion initial s := by
  have hinv : (∀ m, Exclusive s m) ∧ ∀ k, Permits initial s k := by
    induction h with
    | start _ hinit =>
      refine ⟨fun m => ⟨fun _ => rfl, fun hc => by cases hc⟩, fun k => ⟨?_, fun hk => ?_⟩⟩
      · have hrange := int32_of_range (hinit k).1 (hinit k).2
        simp only [start, Nat.cast_zero, add_zero, sub_zero]
        exact hrange.symm
      · simpa [start] using hk
    | step hr hop hown ih =>
      have hstep := exec_step (reach_guard hr).1 hop
      exact ⟨hstep.exclusive hown ih.1, hstep.permits ih.2⟩
  have hheld : ∀ m t, t ∈ s.holders m → s.locked m = true ∧ s.holders m = [t] ∧
      s.owner m = some t := by
    intro m t ht
    cases hl : s.locked m with
    | false =>
      rw [(hinv.1 m).1 hl] at ht
      cases ht
    | true =>
      obtain ⟨u, hu, howner⟩ := (hinv.1 m).2 hl
      rw [hu, List.mem_singleton] at ht
      subst ht
      exact ⟨rfl, hu, howner⟩
  refine ⟨fun m => ?_, fun m t ht => ⟨(hheld m t ht).1, (hheld m t ht).2.2⟩,
    fun k => (hinv.2 k).2⟩
  cases hh : s.holders m with
  | nil => exact Nat.zero_le _
  | cons t l =>
    have hone := (hheld m t (by rw [hh]; exact List.mem_cons_self)).2.1
    rw [hh] at hone
    rw [hone]
    exact le_refl _

/-! ## A handover -/

theorem Reach.mono {P Q : State → Op → Prop} (hPQ : ∀ s op, P s op → Q s op) {initial : Nat → Int}
    (h : Reach P initial s) : Reach Q initial s := by
  induction h with
  | start hcount hinit => exact Reach.start hcount hinit
  | step _ hop hp ih => exact ih.step hop (hPQ _ _ hp)

/-- Four tasks, each on a CPU. -/
def fourRunning : Sched.State where
  tasks t := if t < 4 then { Sched.deadTask with state := .running } else Sched.deadTask
  taskCount := 4
  current cpu := if cpu < 4 then some cpu else none
  runq _ := []
  online := 4

/-- Task 1 waits for a permit. Task 0 takes the mutex and waits for the condition. Task 2 takes the
mutex then, and task 3 blocks on it. -/
def waiting : State :=
  [.semWait 1 0, .lock 0 0, .condRelease 0 0 0, .condBlock 0, .lock 2 0, .lock 3 0].foldl exec
    (start fourRunning fun _ => 0)

/-- A permit, a signal and the release of the mutex. -/
def handover : State := [.semPost 0, .condSignal 0, .unlock 2 0].foldl exec waiting

theorem reach_waiting : Reach ReleasesOwn (fun _ => 0) waiting := by
  have hstart : Reach ReleasesOwn (fun _ => 0) (start fourRunning fun _ => 0) :=
    Reach.start (by decide) fun _ => by decide
  have hsem : Reach ReleasesOwn (fun _ => 0) (exec _ (.semWait 1 0)) :=
    hstart.step ⟨1, rfl⟩ trivial
  have hlock : Reach ReleasesOwn (fun _ => 0) (exec _ (.lock 0 0)) :=
    hsem.step ⟨0, Or.inl rfl⟩ trivial
  have hrelease : Reach ReleasesOwn (fun _ => 0) (exec _ (.condRelease 0 0 0)) :=
    hlock.step ⟨⟨0, rfl⟩, rfl⟩ fun t ht => by
      cases ht
      exact List.mem_singleton.mpr rfl
  have hblock : Reach ReleasesOwn (fun _ => 0) (exec _ (.condBlock 0)) :=
    hrelease.step ⟨0, 0, 0, rfl⟩ trivial
  have hnext : Reach ReleasesOwn (fun _ => 0) (exec _ (.lock 2 0)) :=
    hblock.step ⟨2, Or.inl rfl⟩ trivial
  have hlast : Reach ReleasesOwn (fun _ => 0) (exec _ (.lock 3 0)) :=
    hnext.step ⟨3, Or.inl rfl⟩ trivial
  exact hlast

theorem reach_handover : Reach ReleasesOwn (fun _ => 0) handover := by
  have hpost : Reach ReleasesOwn (fun _ => 0) (exec _ (.semPost 0)) :=
    reach_waiting.step trivial trivial
  have hsignal : Reach ReleasesOwn (fun _ => 0) (exec _ (.condSignal 0)) :=
    hpost.step rfl trivial
  have hunlock : Reach ReleasesOwn (fun _ => 0) (exec _ (.unlock 2 0)) :=
    hsignal.step ⟨2, rfl⟩ fun t ht => by
      cases ht
      exact List.mem_singleton.mpr rfl
  exact hunlock

theorem no_lost_wakeup_handover :
    (handover.woken (.sem 0) = [1] ∧ handover.woken (.cond 0) = [0] ∧
      handover.woken (.mutex 0) = [3]) ∧ NoLostWakeup handover ∧
    Reach (fun _ _ => True) (fun _ => 0)
      { start (Sched.taskingInit 2) (fun _ => 0) with
        sched := (Sched.exec (Sched.start 2) (.create Sched.smallTask .createTaskPrio)).sched } := by
  have hboot : Reach (fun _ _ => True) (fun _ => 0) (start (Sched.taskingInit 2) fun _ => 0) :=
    Reach.start (by decide) fun _ => by decide
  refine ⟨by decide, (no_lost_wakeup (reach_handover.mono fun _ _ _ => trivial)).1,
    (no_lost_wakeup hboot).2 (Sched.start 2) _ rfl ⟨?_, by decide, trivial, ?_, ?_⟩⟩
  · exact Sched.reach_placed (.start (by decide) (by decide))
  · exact fun _ h => by cases h
  · exact fun _ h => by cases h

theorem mutual_exclusion_handover :
    (waiting.holders 0 = [2] ∧ Exclusion (fun _ => 0) waiting) ∧
      handover.posts 0 = 1 ∧ Exclusion (fun _ => 0) handover :=
  ⟨⟨by decide, mutual_exclusion reach_waiting⟩, by decide,
    mutual_exclusion reach_handover⟩

end Kyuzen.Sync
