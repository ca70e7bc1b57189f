import Kyuzen.Event.Addressee

/-!
# The event queues are queues

`push_event_to`, `pop_event` and `flush_event_queue` on the rows of all tasks, each under
`event_lock`. The row of a task stands for the list of the events that were pushed to the task and
not popped (`fifo`), of which a push drops the oldest when there are 63: `queues_are_fifos`. A task
number that is out of range has no row.
-/

namespace Kyuzen.Event

/-- `task_queues`, `eq_head` and `eq_tail`. -/
abbrev Queues : Type := Nat → Queue KyuzenEvent

/-- The row of a task. -/
def rowOf (task : Int) : Option Nat :=
  if task < 0 ∨ task ≥ maxTasks then none else some task.toNat

def pushEventTo (q : Queues) (task : Int) (e : KyuzenEvent) : Queues :=
  match rowOf task with
  | none => q
  | some t => Function.update q t (pushEvent (q t) e)

/-- The return value, the event that is stored to `*out`, and the queues afterwards. -/
def popEventOf (q : Queues) (task : Int) : Nat × Option KyuzenEvent × Queues :=
  match rowOf task with
  | none => (0, none, q)
  | some t =>
    match popEvent (q t) with
    | (none, _) => (0, none, q)
    | (some e, row) => (1, some e, Function.update q t row)

def flushEventQueue (q : Queues) (task : Int) : Queues :=
  match rowOf task with
  | none => q
  | some t => Function.update q t (flushQueue (q t))

inductive QueueOp where
  | push (task : Int) (e : KyuzenEvent)
  | pop (task : Int)
  | flush (task : Int)

def QueueOp.task : QueueOp → Int
  | .push task _ => task
  | .pop task => task
  | .flush task => task

def QueueOp.run (q : Queues) : QueueOp → Queues
  | .push task e => pushEventTo q task e
  | .pop task => (popEventOf q task).2.2
  | .flush task => flushEventQueue q task

/-- At boot all rows are zero. -/
def bootQueues : Queues := fun _ => ⟨fun _ => ⟨0, 0, 0, 0, 0⟩, 0, 0⟩

def runQueues (ops : List QueueOp) : Queues := ops.foldl QueueOp.run bootQueues

/-! ## Lists of events -/

/-- The list of a task, the oldest event first: of 63 events a push drops the oldest. -/
def fifoStep (task : Int) (l : List KyuzenEvent) : QueueOp → List KyuzenEvent
  | .push t e =>
    if t = task then (if l.length < 63 then l else l.tail) ++ [e] else l
  | .pop t => if t = task then l.tail else l
  | .flush t => if t = task then [] else l

def fifo (ops : List QueueOp) (task : Int) : List KyuzenEvent :=
  match rowOf task with
  | none => []
  | some _ => ops.foldl (fifoStep task) []

/-- What has been pushed to the task since its queue was flushed last. -/
def pushedStep (task : Int) (l : List KyuzenEvent) : QueueOp → List KyuzenEvent
  | .push t e => if t = task then l ++ [e] else l
  | .pop _ => l
  | .flush t => if t = task then [] else l

def pushed (ops : List QueueOp) (task : Int) : List KyuzenEvent :=
  ops.foldl (pushedStep task) []

theorem rowOf_eq {task : Int} {t : Nat} : rowOf task = some t ↔ task = t ∧ t < maxTasks := by
  unfold rowOf
  constructor
  · intro h
    split_ifs at h with hrange
    obtain rfl := Option.some.inj h
    omega
  · rintro ⟨rfl, hlt⟩
    rw [if_neg (by omega), Int.toNat_natCast]

variable {q : Queues} {task : Int} {t : Nat} {l m : List KyuzenEvent}

/-- A call for another task leaves the row. -/
theorem run_other (q : Queues) (op : QueueOp) (ht : rowOf task = some t) (hne : op.task ≠ task) :
    op.run q t = q t := by
  obtain ⟨rfl, -⟩ := rowOf_eq.mp ht
  have hrow : ∀ {u : Nat}, rowOf op.task = some u → t ≠ u := by
    intro u hu heq
    exact hne ((rowOf_eq.mp hu).1.trans (congrArg Nat.cast heq.symm))
  cases op with
  | push task e =>
    show pushEventTo q task e t = q t
    unfold pushEventTo
    cases hu : rowOf task with
    | none => rfl
    | some u => exact Function.update_of_ne (hrow hu) _ _
  | pop task =>
    show (popEventOf q task).2.2 t = q t
    unfold popEventOf
    cases hu : rowOf task with
    | none => rfl
    | some u =>
      dsimp only
      split
      · rfl
      · exact Function.update_of_ne (hrow hu) _ _
  | flush task =>
    show flushEventQueue q task t = q t
    unfold flushEventQueue
    cases hu : rowOf task with
    | none => rfl
    | some u => exact Function.update_of_ne (hrow hu) _ _

/-- The list of another task does not change. -/
theorem fifoStep_other (l : List KyuzenEvent) {op : QueueOp} (hne : op.task ≠ task) :
    fifoStep task l op = l := by
  cases op with
  | push t e => exact if_neg hne
  | pop t => exact if_neg hne
  | flush t => exact if_neg hne

theorem popEventOf_row (ht : rowOf task = some t) (h : (q t).Holds l) :
    (popEventOf q task).1 = (if l = [] then 0 else 1) ∧ (popEventOf q task).2.1 = l.head? ∧
      ((popEventOf q task).2.2 t).Holds l.tail := by
  obtain ⟨hfirst, hrest⟩ := h.pop
  unfold popEventOf
  rw [ht]
  dsimp only
  cases l with
  | nil =>
    have hpop : popEvent (q t) = (none, (popEvent (q t)).2) := Prod.ext hfirst rfl
    rw [hpop]
    exact ⟨rfl, rfl, h⟩
  | cons e l =>
    have hpop : popEvent (q t) = (some e, (popEvent (q t)).2) := Prod.ext hfirst rfl
    rw [hpop]
    refine ⟨rfl, rfl, ?_⟩
    dsimp only
    rw [Function.update_self]
    exact hrest

/-- One call keeps the row of a task and its list together. -/
theorem run_holds (ht : rowOf task = some t) (h : (q t).Holds l) (op : QueueOp) :
    (op.run q t).Holds (fifoStep task l op) := by
  by_cases hop : op.task = task
  · cases op with
    | push u e =>
      obtain rfl : u = task := hop
      show (pushEventTo q u e t).Holds (fifoStep u l (.push u e))
      rw [pushEventTo, ht]
      dsimp only
      rw [Function.update_self, fifoStep, if_pos rfl]
      have hiff : l.length + 1 < eventQueueSize ↔ l.length < 63 := Nat.add_lt_add_iff_right
      have hpush := h.push_eq e
      simp only [hiff] at hpush
      exact hpush
    | pop u =>
      obtain rfl : u = task := hop
      show ((popEventOf q u).2.2 t).Holds (fifoStep u l (.pop u))
      rw [fifoStep, if_pos rfl]
      exact (popEventOf_row ht h).2.2
    | flush u =>
      obtain rfl : u = task := hop
      show (flushEventQueue q u t).Holds (fifoStep u l (.flush u))
      rw [flushEventQueue, ht]
      dsimp only
      rw [Function.update_self, fifoStep, if_pos rfl]
      exact Queue.Holds.flush (q t)
  · rw [run_other q op ht hop, fifoStep_other l hop]
    exact h

/-- The list holds the last events that were pushed. -/
theorem fifoStep_suffix (h : l <:+ m) (op : QueueOp) :
    fifoStep task l op <:+ pushedStep task m op := by
  by_cases hop : op.task = task
  · cases op with
    | push t e =>
      have ht : t = task := hop
      rw [fifoStep, pushedStep, if_pos ht, if_pos ht]
      refine (List.suffix_append_inj_of_length_eq rfl).mpr ⟨?_, rfl⟩
      split_ifs
      · exact h
      · exact (List.tail_suffix l).trans h
    | pop t =>
      have ht : t = task := hop
      rw [fifoStep, pushedStep, if_pos ht]
      exact (List.tail_suffix l).trans h
    | flush t =>
      have ht : t = task := hop
      rw [show fifoStep task l (.flush t) = [] from if_pos ht]
      exact List.nil_suffix
  · have hsame : pushedStep task m op = m := by
      cases op with
      | push t e => exact if_neg hop
      | pop t => rfl
      | flush t => exact if_neg hop
    rw [fifoStep_other l hop, hsame]
    exact h

theorem run_suffix (ops : List QueueOp) (task : Int) : ∀ {l m : List KyuzenEvent}, l <:+ m →
    ops.foldl (fifoStep task) l <:+ ops.foldl (pushedStep task) m := by
  induction ops with
  | nil => exact fun h => h
  | cons op ops ih => exact fun h => ih (fifoStep_suffix h op)

theorem fifo_suffix (ops : List QueueOp) (task : Int) : fifo ops task <:+ pushed ops task := by
  unfold fifo
  cases rowOf task with
  | none => exact List.nil_suffix
  | some t => exact run_suffix ops task (List.suffix_refl [])

theorem run_row (ht : rowOf task = some t) (ops : List QueueOp) : ∀ {q : Queues}
    {l : List KyuzenEvent}, (q t).Holds l →
      (ops.foldl QueueOp.run q t).Holds (ops.foldl (fifoStep task) l) := by
  induction ops with
  | nil => exact fun h => h
  | cons op ops ih => exact fun h => ih (run_holds ht h op)

/-- In every run the row of a task holds its list: at most 63 events, the last ones that were
pushed to the task since the last flush, of which a pop takes the oldest and returns 0 when there
is none. Calls for other tasks leave the row. -/
theorem queues_are_fifos (ops : List QueueOp) (task : Int) :
    (∀ t, rowOf task = some t → (runQueues ops t).Holds (fifo ops task) ∧
      ∀ op : QueueOp, op.task ≠ task → op.run (runQueues ops) t = runQueues ops t) ∧
    (fifo ops task).length ≤ 63 ∧ fifo ops task <:+ pushed ops task ∧
    (popEventOf (runQueues ops) task).1 = (if fifo ops task = [] then 0 else 1) ∧
    (popEventOf (runQueues ops) task).2.1 = (fifo ops task).head? := by
  refine ⟨fun t ht => ⟨?_, fun op hne => run_other _ op ht hne⟩, ?_⟩
  · unfold fifo
    rw [ht]
    exact run_row ht ops (Queue.Holds.empty _)
  cases ht : rowOf task with
  | none =>
    have hnil : fifo ops task = [] := by
      unfold fifo
      rw [ht]
    rw [hnil, popEventOf, ht]
    exact ⟨Nat.zero_le 63, List.nil_suffix, rfl, rfl⟩
  | some t =>
    have hrow : (runQueues ops t).Holds (fifo ops task) := by
      unfold fifo
      rw [ht]
      exact run_row ht ops (Queue.Holds.empty _)
    obtain ⟨hret, hout, -⟩ := popEventOf_row ht hrow
    exact ⟨Nat.le_of_lt_succ hrow.length_lt, fifo_suffix ops task, hret, hout⟩

end Kyuzen.Event
