import Kyuzen.Sched.Queues

/-!
# Mutexes, semaphores and condition variables

`kernel/wait.c` and `kernel/sync.c` over the scheduler's `block_prepare` and `unblock_task`. A
section under the lock of a wait queue is one step of the task that runs on a CPU, including the
`block_prepare` and the enqueueing of `wait_block_locked`; `block_park` and the lock that is taken
after it separate two steps. `condvar_wait` holds the lock of its condition variable over the
release of the mutex and takes two steps until it blocks (`cvLock`). The other sections of the
scheduler are any change of its state that leaves the blocked tasks alone (`Other`).

`woken`, `holders`, `completed` and `posts` record what has happened; no step reads them.
-/

namespace Kyuzen.Sync

open Sched (TaskState curRunning maxTasks)

/-- The owner of a wait queue. -/
inductive Obj where
  | mutex (m : Nat)
  | sem (k : Nat)
  | cond (c : Nat)
  deriving DecidableEq

/-- Where a task is in a call. -/
inductive Pc where
  /-- Outside the calls of `sync.h`. -/
  | run
  /-- In `wait_block_locked`, called by `mutex_lock`. -/
  | lockWait (m : Nat)
  | semWait (k : Nat)
  /-- In `condvar_wait`, with the lock of `c`; `m` is released. -/
  | cvHold (c m : Nat)
  | cvWait (c m : Nat)
  /-- In `condvar_wait`, before `mutex_lock(m)`. -/
  | cvLock (m : Nat)
  /-- In a loop that never gives back the lock of its wait queue. -/
  | spin
  deriving DecidableEq

structure State where
  sched : Sched.State
  queue : Obj → List Nat
  locked : Nat → Bool
  owner : Nat → Option Nat
  count : Nat → Int
  /-- The task that holds the lock of the condition variable's queue between two steps. -/
  cvLock : Nat → Option Nat
  pc : Nat → Pc
  /-- The tasks that were dequeued and have not checked their condition again. -/
  woken : Obj → List Nat
  /-- The tasks between the return of a locking call and the matching release. -/
  holders : Nat → List Nat
  /-- The `semaphore_wait` calls that have returned and the `semaphore_trywait` that succeeded. -/
  completed : Nat → Nat
  posts : Nat → Nat

def waitQueueCapacity : Nat := maxTasks

/-- A result of type `int32_t`. -/
def int32 (x : Int) : Int := x.bmod (2 ^ 32)

def setPc (s : State) (t : Nat) (pc : Pc) : State := { s with pc := Function.update s.pc t pc }

/-! ## Wait queues -/

/-- `wait_block_locked` up to `block_park`; false if it returns without having blocked. -/
def waitBlockLocked (s : State) (cpu : Nat) (o : Obj) : Bool × State :=
  match Sched.blockPrepare s.sched cpu .blocked with
  | (none, _) => (false, s)
  | (some self, sched) =>
    if waitQueueCapacity ≤ (s.queue o).length then
      (false, { s with sched := (Sched.unblockTask sched self).2 })
    else
      (true, { s with
        sched := sched
        queue := Function.update s.queue o (s.queue o ++ [self]) })

def waitWakeOne (s : State) (o : Obj) : State :=
  match s.queue o with
  | [] => s
  | id :: rest =>
    { s with
      sched := (Sched.unblockTask s.sched id).2
      queue := Function.update s.queue o rest
      woken := Function.update s.woken o (id :: s.woken o) }

def waitWakeAll (s : State) (o : Obj) : State :=
  (fun s => waitWakeOne s o)^[(s.queue o).length] s

/-- The task is back in the section from which it was blocked. -/
def recheck (s : State) (t : Nat) (o : Obj) : State :=
  { setPc s t .run with woken := Function.update s.woken o ((s.woken o).erase t) }

/-! ## Mutexes -/

def acquire (s : State) (t m : Nat) : State :=
  { setPc s t .run with
    locked := Function.update s.locked m true
    owner := Function.update s.owner m (some t)
    holders := Function.update s.holders m (t :: s.holders m) }

/-- `mutex_lock` under the lock of its queue, until it returns or blocks. -/
def mutexLock (s : State) (cpu t m : Nat) : State :=
  if s.locked m then
    match waitBlockLocked s cpu (.mutex m) with
    | (true, s) => setPc s t (.lockWait m)
    | (false, s) => setPc s t .spin
  else acquire s t m

def mutexTrylock (s : State) (t m : Nat) : State :=
  if s.locked m then s else acquire s t m

def release (s : State) (t m : Nat) : State :=
  { s with
    locked := Function.update s.locked m false
    owner := Function.update s.owner m none
    holders := Function.update s.holders m ((s.holders m).erase t) }

def mutexUnlock (s : State) (t m : Nat) : State := waitWakeOne (release s t m) (.mutex m)

/-! ## Semaphores -/

def take (s : State) (t k : Nat) : State :=
  { setPc s t .run with
    count := Function.update s.count k (int32 (s.count k - 1))
    completed := Function.update s.completed k (s.completed k + 1) }

def semaphoreWait (s : State) (cpu t k : Nat) : State :=
  if s.count k ≤ 0 then
    match waitBlockLocked s cpu (.sem k) with
    | (true, s) => setPc s t (.semWait k)
    | (false, s) => setPc s t .spin
  else take s t k

def semaphoreTrywait (s : State) (t k : Nat) : State :=
  if 0 < s.count k then take s t k else s

def addPermit (s : State) (k : Nat) : State :=
  { s with
    count := Function.update s.count k (int32 (s.count k + 1))
    posts := Function.update s.posts k (s.posts k + 1) }

def semaphorePost (s : State) (k : Nat) : State := waitWakeOne (addPermit s k) (.sem k)

/-! ## Condition variables -/

/-- The beginning of `condvar_wait`: the lock of `c` is taken and `m` is released. -/
def condvarRelease (s : State) (t c m : Nat) : State :=
  let s := mutexUnlock s t m
  { setPc s t (.cvHold c m) with cvLock := Function.update s.cvLock c (some t) }

/-- `wait_block_locked` in `condvar_wait`; if it returns at once, `mutex_lock(m)` is next. -/
def condvarBlock (s : State) (cpu t c m : Nat) : State :=
  let out := waitBlockLocked s cpu (.cond c)
  { setPc out.2 t (if out.1 then .cvWait c m else .cvLock m) with
    cvLock := Function.update out.2.cvLock c none }

/-! ## Steps -/

inductive Op where
  /-- `mutex_lock(m)` by the task on the CPU, called by itself or by `condvar_wait`. -/
  | lock (cpu m : Nat)
  | trylock (cpu m : Nat)
  | unlock (cpu m : Nat)
  | semWait (cpu k : Nat)
  | semTrywait (cpu k : Nat)
  | semPost (k : Nat)
  | condRelease (cpu c m : Nat)
  | condBlock (cpu : Nat)
  /-- The task on the CPU is back from `block_park` and takes the lock of its queue. -/
  | resume (cpu : Nat)
  | condSignal (c : Nat)
  | condBroadcast (c : Nat)
  /-- The rest of the scheduler. -/
  | other (sched : Sched.State)

/-- The task that runs on the CPU, and where it is in its calls. -/
def caller (s : State) (cpu : Nat) : Option (Nat × Pc) :=
  (curRunning s.sched cpu).map fun t => (t, s.pc t)

/-- The other sections of the scheduler: they neither block a task on a queue nor wake one up. -/
structure Other (s s' : Sched.State) : Prop where
  blocked : ∀ t, (s'.tasks t).state = .blocked ↔ (s.tasks t).state = .blocked
  count : s'.taskCount ≤ maxTasks

/-- The code can take the step. -/
def Op.Enabled (s : State) : Op → Prop
  | .lock cpu m => ∃ t, caller s cpu = some (t, .run) ∨ caller s cpu = some (t, .cvLock m)
  | .trylock cpu _ | .unlock cpu _ | .semWait cpu _ | .semTrywait cpu _ =>
    ∃ t, caller s cpu = some (t, .run)
  | .condRelease cpu c _ => (∃ t, caller s cpu = some (t, .run)) ∧ s.cvLock c = none
  | .condBlock cpu => ∃ t c m, caller s cpu = some (t, .cvHold c m)
  | .resume cpu => (∃ t m, caller s cpu = some (t, .lockWait m)) ∨
    (∃ t k, caller s cpu = some (t, .semWait k)) ∨
    ∃ t c m, caller s cpu = some (t, .cvWait c m) ∧ s.cvLock c = none
  | .semPost _ => True
  | .condSignal c | .condBroadcast c => s.cvLock c = none
  | .other sched => Other s.sched sched

def exec (s : State) : Op → State
  | .lock cpu m => (curRunning s.sched cpu).elim s fun t => mutexLock s cpu t m
  | .trylock cpu m => (curRunning s.sched cpu).elim s fun t => mutexTrylock s t m
  | .unlock cpu m => (curRunning s.sched cpu).elim s fun t => mutexUnlock s t m
  | .semWait cpu k => (curRunning s.sched cpu).elim s fun t => semaphoreWait s cpu t k
  | .semTrywait cpu k => (curRunning s.sched cpu).elim s fun t => semaphoreTrywait s t k
  | .semPost k => semaphorePost s k
  | .condRelease cpu c m => (curRunning s.sched cpu).elim s fun t => condvarRelease s t c m
  | .condBlock cpu =>
    match caller s cpu with
    | some (t, .cvHold c m) => condvarBlock s cpu t c m
    | _ => s
  | .resume cpu =>
    match caller s cpu with
    | some (t, .lockWait m) => mutexLock (recheck s t (.mutex m)) cpu t m
    | some (t, .semWait k) => semaphoreWait (recheck s t (.sem k)) cpu t k
    | some (t, .cvWait c m) => setPc (recheck s t (.cond c)) t (.cvLock m)
    | _ => s
  | .condSignal c => waitWakeOne s (.cond c)
  | .condBroadcast c => waitWakeAll s (.cond c)
  | .other sched => { s with sched := sched }

/-- After `mutex_init`, `semaphore_init` and `condvar_init` of every object. -/
def start (sched : Sched.State) (initial : Nat → Int) : State where
  sched := sched
  queue _ := []
  locked _ := false
  owner _ := none
  count := initial
  cvLock _ := none
  pc _ := .run
  woken _ := []
  holders _ := []
  completed _ := 0
  posts _ := 0

/-- The states of the runs whose steps all meet `P`, from semaphores with the values `initial`. -/
inductive Reach (P : State → Op → Prop) (initial : Nat → Int) : State → Prop
  | start {sched : Sched.State} (hcount : sched.taskCount ≤ maxTasks)
    (hinit : ∀ k, -2 ^ 31 ≤ initial k ∧ initial k < 2 ^ 31) : Reach P initial (start sched initial)
  | step {s : State} {op : Op} (h : Reach P initial s) (hop : op.Enabled s) (hp : P s op) :
    Reach P initial (exec s op)

end Kyuzen.Sync
