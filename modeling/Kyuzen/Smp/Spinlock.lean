import Mathlib.Logic.Function.Basic
import Mathlib.Tactic.Common

/-!
# Spinlocks

The lock of `spinlock.h`, with what the processors do between two instructions that use it: any
number of CPUs, each with a task and an interrupt handler that may come when interrupts are on. A
task takes the lock with `spinlock_lock_irqsave`, a handler with `spinlock_lock`.

What is done under the lock is any program `next` on the shared data and a local state, which is
over when it returns `none`. Each of its steps is a step of the machine, so that other CPUs run in
between.
-/

namespace Kyuzen.Smp

variable {ι σ τ : Type*}

/-- Where a task or a handler is in its use of the lock. `flags` is bit 9 of the flags that were
saved. -/
inductive Phase (τ : Type*) where
  | idle
  /-- Before the `xchg`. -/
  | xchg (flags : Bool) (t : τ)
  /-- In the inner loop, which waits for the word to be 0. -/
  | test (flags : Bool) (t : τ)
  | inside (flags : Bool) (t : τ)
  /-- After `spinlock_unlock`, before `spinlock_irq_restore`. -/
  | restore (flags : Bool)

/-- `log` are the programs that were under the lock, each with its first and its last local state,
the first one first. `base` and `start` are the shared data and the local state with which the
program under the lock has begun. No step reads them. -/
structure Machine (ι σ τ : Type*) where
  locked : Bool
  shared : σ
  /-- Bit 9 of the flags of each CPU. -/
  interrupts : ι → Bool
  inHandler : ι → Bool
  task : ι → Phase τ
  handler : ι → Phase τ
  log : List (τ × τ)
  base : σ
  start : Option τ

inductive Act (ι τ : Type*) where
  /-- The task of a CPU calls `spinlock_lock_irqsave`. -/
  | lockIrqsave (cpu : ι) (t : τ)
  /-- The handler of a CPU calls `spinlock_lock`. -/
  | lock (cpu : ι) (t : τ)
  /-- The next instruction of what runs on the CPU. -/
  | run (cpu : ι)
  | interrupt (cpu : ι)
  | iret (cpu : ι)
  /-- `cli` or `sti` of a task that does not use the lock. -/
  | setInterrupts (cpu : ι) (on : Bool)

variable [DecidableEq ι]

/-- What runs on a CPU. -/
def Machine.running (s : Machine ι σ τ) (cpu : ι) : Phase τ :=
  if s.inHandler cpu then s.handler cpu else s.task cpu

def Machine.setRunning (s : Machine ι σ τ) (cpu : ι) (p : Phase τ) : Machine ι σ τ :=
  if s.inHandler cpu then { s with handler := Function.update s.handler cpu p }
  else { s with task := Function.update s.task cpu p }

/-- An instruction of what runs on a CPU. A handler has saved no flags. -/
def Machine.instruction (next : σ → τ → Option (σ × τ)) (s : Machine ι σ τ) (cpu : ι) :
    Machine ι σ τ :=
  match s.running cpu with
  | .idle => s
  | .xchg flags t =>
    if s.locked then s.setRunning cpu (.test flags t)
    else { s.setRunning cpu (.inside flags t) with
      locked := true, base := s.shared, start := some t }
  | .test flags t => if s.locked then s else s.setRunning cpu (.xchg flags t)
  | .inside flags t =>
    match next s.shared t with
    | some (shared, t') => { s.setRunning cpu (.inside flags t') with shared := shared }
    | none =>
      { s.setRunning cpu (if s.inHandler cpu then .idle else .restore flags) with
        locked := false
        log := s.log ++ (s.start.map fun t₀ => (t₀, t)).toList
        base := s.shared
        start := none }
  | .restore flags =>
    { s.setRunning cpu .idle with
      interrupts := Function.update s.interrupts cpu (flags || s.interrupts cpu) }

def Phase.isIdle : Phase τ → Bool
  | .idle => true
  | _ => false

/-- A step that cannot be taken changes nothing. -/
def Machine.step (next : σ → τ → Option (σ × τ)) (s : Machine ι σ τ) : Act ι τ → Machine ι σ τ
  | .lockIrqsave cpu t =>
    if !s.inHandler cpu && (s.task cpu).isIdle then
      { s with
        task := Function.update s.task cpu (.xchg (s.interrupts cpu) t)
        interrupts := Function.update s.interrupts cpu false }
    else s
  | .lock cpu t =>
    if s.inHandler cpu && (s.handler cpu).isIdle then
      { s with handler := Function.update s.handler cpu (.xchg false t) }
    else s
  | .run cpu => s.instruction next cpu
  | .interrupt cpu =>
    if s.interrupts cpu then
      { s with
        inHandler := Function.update s.inHandler cpu true
        interrupts := Function.update s.interrupts cpu false }
    else s
  | .iret cpu =>
    if s.inHandler cpu && (s.handler cpu).isIdle then
      { s with
        inHandler := Function.update s.inHandler cpu false
        interrupts := Function.update s.interrupts cpu true }
    else s
  | .setInterrupts cpu on =>
    if !s.inHandler cpu && (s.task cpu).isIdle then
      { s with interrupts := Function.update s.interrupts cpu on }
    else s

def Machine.boot (shared : σ) : Machine ι σ τ where
  locked := false
  shared := shared
  interrupts _ := false
  inHandler _ := false
  task _ := .idle
  handler _ := .idle
  log := []
  base := shared
  start := none

def runMachine (next : σ → τ → Option (σ × τ)) (shared : σ) (acts : List (Act ι τ)) :
    Machine ι σ τ :=
  acts.foldl (Machine.step next) (Machine.boot shared)

/-! ## Programs -/

/-- Some steps of a program. -/
inductive Steps (next : σ → τ → Option (σ × τ)) : σ × τ → σ × τ → Prop
  | refl (x : σ × τ) : Steps next x x
  | tail {x y z : σ × τ} (h : Steps next x y) (hz : next y.1 y.2 = some z) : Steps next x z

/-- A program is run to its end. -/
def Completes (next : σ → τ → Option (σ × τ)) (x y : σ × τ) : Prop :=
  Steps next x y ∧ next y.1 y.2 = none

/-- The programs of the log are run one after the other, from `s` to `s'`. -/
inductive Sequential (next : σ → τ → Option (σ × τ)) (s : σ) : List (τ × τ) → σ → Prop
  | nil : Sequential next s [] s
  | snoc {log : List (τ × τ)} {s₁ s₂ : σ} {t t' : τ} (h : Sequential next s log s₁)
      (hc : Completes next (s₁, t) (s₂, t')) : Sequential next s (log ++ [(t, t')]) s₂

end Kyuzen.Smp
