import Kyuzen.Sched.Stacks

/-!
# Switching stacks and giving them up

Two results about the runs of the CPUs.

While no task exits, no CPU loads a frame on a stack that another CPU executes on, provided that
every task that a tick takes has been left by its last CPU (`one_cpu_per_stack`). A task that is
preempted is on a queue before its CPU has left its stack, so that this fails in `stolenRun`.

With exits, every stack and every address space that is not given up has an owner that will give
it up, and nothing is freed twice or in use (`teardown`), provided further that `task_exit` stays
on its CPU and that no tick in the rest of `task_exit` takes a task. A task that leaves through
`task_entry_trampoline` has interrupts enabled there, and its CPU counts as idle: in `lostRun` the
tick leaves the stack without an owner.
-/

namespace Kyuzen.Sched

open Lib Lib.Places

variable {k : Kernel} {e : Event} {c c' t u : Nat}

theorem boot_ctx (online : Nat) (hc : c ≠ 0) : (boot online).ctx c = .on (idleStack c) := by
  simp [boot, hc]

theorem boot_owned {F : Task → Nat} {G : Ctx → Nat} (online : Nat)
    (hF : ∀ t, F ((taskingInit online).tasks t) = 0) (hG : ∀ stack, G (.on stack) = 0) :
    Owned [] F G (boot online) := by
  refine ⟨List.nodup_nil, fun a => ?_⟩
  have htasks : total maxTasks ((fun x => nonNull (F x)) ∘ (boot online).machine.sched.tasks) a = 0 :=
    total_eq_zero.mpr fun t _ hmem => (mem_nonNull.mp hmem).2 (hF t)
  have hctx : total smpMaxCpus ((fun x => nonNull (G x)) ∘ (boot online).ctx) a = 0 := by
    refine total_eq_zero.mpr fun c _ hmem => (mem_nonNull.mp hmem).2 ?_
    by_cases hc : c = 0
    · subst hc
      exact hG _
    · rw [boot_ctx online hc]
      exact hG _
  rw [htasks, hctx]
  rfl

theorem boot_apart {online : Nat} (h : 0 < online) (hmax : online ≤ smpMaxCpus) :
    Apart (boot online) := by
  have hdead : ∀ t, t ≠ 0 → ¬ Live (taskingInit online) t := by
    intro t ht hl
    unfold Live at hl
    rw [taskingInit_tasks online ht] at hl
    exact hl rfl
  have hnull : ∀ t, ((taskingInit online).tasks t).stackBase = 0 ∧
      ((taskingInit online).tasks t).pml4Phys = 0 := by
    intro t
    by_cases ht : t = 0
    · subst ht
      exact ⟨rfl, rfl⟩
    · rw [taskingInit_tasks online ht]
      exact ⟨rfl, rfl⟩
  refine ⟨start_placed h hmax, fun c _ => ?_, fun t ht hz => ?_, fun t => ⟨fun hl ht => ?_, fun _ => ?_⟩,
    ?_, ?_⟩
  · by_cases hc : c = 0
    · subst hc
      rfl
    · rw [boot_ctx online hc]
      have hcur : (boot online).machine.sched.current c = none := taskingInit_current online hc
      dsimp only [CpuOk]
      rw [hcur]
      rfl
  · by_cases ht0 : t = 0
    · subst ht0
      have hone : onCpus (boot online).machine.sched 0 = 1 := taskingInit_onCpus online
      omega
    · exact absurd ht (hdead t ht0)
  · exact absurd hl (hdead t ht)
  · exact hnull t
  · exact boot_owned online (fun t => (hnull t).1) fun _ => rfl
  · exact boot_owned online (fun t => (hnull t).2) fun _ => rfl

/-! ## One CPU per stack -/

/-- The event is no part of `task_exit`. -/
def Event.noExit : Event → Bool
  | .exitEnter _ _ | .exitLocked _ | .destroyAs _ | .viaIdle _ | .finish _ => false
  | .tick _ _ | .movRsp _ | .create _ _ | .unblock _ | .push _ _ _ | .block _ _ | .idle _ => true

/-- No two CPUs are on one stack, and the next `mov rsp, rax` keeps it so. -/
structure OneCpuPerStack (k : Kernel) : Prop where
  resume : ∀ c c', c < smpMaxCpus → c' < smpMaxCpus → c ≠ c' →
    ∀ old new, k.ctx c = .switching old new → (k.ctx c').stack ≠ new
  apart : ∀ c c', c < smpMaxCpus → c' < smpMaxCpus → c ≠ c' → (k.ctx c).stack ≠ (k.ctx c').stack

/-- The stack that a CPU executes on: an idle stack or that of `kmain`, the stack of a task, or
the one that it is going to free. -/
theorem Apart.stack_cases (h : Apart k) (hc : c < smpMaxCpus) :
    (k.ctx c).stack = idleStack c ∨
    (∃ t, Live k.machine.sched t ∧ (k.ctx c).stack = stackOf k.machine.sched t ∧
      (k.machine.sched.current c = some t ∨ onCpus k.machine.sched t = 0)) ∨
    ((k.ctx c).stack = (k.ctx c).oldStack ∧ bootStack < (k.ctx c).oldStack) := by
  have hok := h.cpu c hc
  cases hx : k.ctx c with
  | on stack =>
    rw [hx] at hok
    dsimp only [CpuOk] at hok
    cases hcur : k.machine.sched.current c with
    | none =>
      rw [hcur] at hok
      exact Or.inl hok
    | some t =>
      rw [hcur] at hok
      exact Or.inr (Or.inl ⟨t, h.live_current hc hcur, hok, Or.inl rfl⟩)
  | switching old new =>
    rw [hx] at hok
    obtain ⟨t, _, _, hidle | ⟨u, hu, hzero, heq⟩⟩ := hok
    · exact Or.inl hidle
    · exact Or.inr (Or.inl ⟨u, hu, heq.symm, Or.inr hzero⟩)
  | tail cpuId stack old pml4 =>
    rw [hx] at hok
    exact Or.inr (Or.inr ⟨hok.2.2.1, hok.2.2.2⟩)
  | reap stack old =>
    rw [hx] at hok
    exact Or.inl hok.2.1

/-- A stack that a CPU is going to free belongs to no task. -/
theorem Apart.stackOf_ne_oldStack (h : Apart k) (hc : c < smpMaxCpus)
    (ht : Live k.machine.sched t) (hold : bootStack < (k.ctx c).oldStack) :
    stackOf k.machine.sched t ≠ (k.ctx c).oldStack := by
  intro heq
  unfold stackOf at heq
  split_ifs at heq with ht0
  · omega
  · have hpos := (h.record t).live ht ht0
    refine h.stacksOwned.apart (h.fits.lt_maxTasks ht) hc
      (a := (k.machine.sched.tasks t).stackBase) ?_ ?_
    · exact mem_nonNull.mpr ⟨rfl, by omega⟩
    · exact mem_nonNull.mpr ⟨heq, by omega⟩

theorem Apart.resume (h : Apart k) (hc : c < smpMaxCpus) (hc' : c' < smpMaxCpus) (hne : c ≠ c')
    {old new : Nat} (hx : k.ctx c = .switching old new) : (k.ctx c').stack ≠ new := by
  have hok := h.cpu c hc
  rw [hx] at hok
  obtain ⟨t, ht, hnew, _⟩ := hok
  have hlive := h.live_current hc ht
  intro heq
  rw [hnew] at heq
  rcases h.stack_cases hc' with hidle | ⟨u, hu, hstack, hwhere⟩ | ⟨hstack, hold⟩
  · have hle := h.boot_le hlive
    have hlt := idleStack_lt hc'
    omega
  · obtain rfl := h.stackOf_inj hu hlive (hstack.symm.trans heq)
    rcases hwhere with hcur | hzero
    · exact hne (unique_of_total (h.fits.cpu u).1 hc hc' (by simp [ht]) (by simp [hcur]))
    · have := onCpus_pos hc ht
      omega
  · exact h.stackOf_ne_oldStack hc' hlive hold (heq.symm.trans hstack)

/-- What an event that is no part of `task_exit` does to a CPU: it may bring it into the stub, or
out of it with the frame that the stub loads. -/
theorem step_ctx (he : e.noExit) (c : Nat) :
    (k.step e).ctx c = k.ctx c ∨
    (∃ new, (k.step e).ctx c = .switching (k.ctx c).stack new) ∨
    ∃ old new, k.ctx c = .switching old new ∧ (k.step e).ctx c = .on new ∧
      ∀ c', c' ≠ c → (k.step e).ctx c' = k.ctx c' := by
  cases e with
  | tick cpu now =>
    by_cases hc : c = cpu
    · subst hc
      simp only [Kernel.step, cpuStep, setCtx, Function.update_self, switched]
      split_ifs
      · exact Or.inl rfl
      · exact Or.inr (Or.inl ⟨_, rfl⟩)
    · refine Or.inl ?_
      simp only [Kernel.step, cpuStep, setCtx, Function.update_of_ne hc]
  | movRsp cpu =>
    cases hx : k.ctx cpu with
    | switching old new =>
      by_cases hc : c = cpu
      · subst hc
        refine Or.inr (Or.inr ⟨old, new, hx, ?_, fun c' hc' => ?_⟩)
        · simp only [Kernel.step, cpuStep, hx, setCtx, Function.update_self]
        · simp only [Kernel.step, cpuStep, hx, setCtx, Function.update_of_ne hc']
      · refine Or.inl ?_
        simp only [Kernel.step, cpuStep, hx, setCtx, Function.update_of_ne hc]
    | on _ => exact Or.inl (by simp only [Kernel.step, cpuStep, hx])
    | tail _ _ _ _ => exact Or.inl (by simp only [Kernel.step, cpuStep, hx])
    | reap _ _ => exact Or.inl (by simp only [Kernel.step, cpuStep, hx])
  | create _ _ => exact Or.inl rfl
  | unblock _ => exact Or.inl rfl
  | push _ _ _ => exact Or.inl rfl
  | block _ _ => exact Or.inl rfl
  | idle _ => exact Or.inl rfl
  | exitEnter _ _ => cases he
  | exitLocked _ => cases he
  | destroyAs _ => cases he
  | viaIdle _ => cases he
  | finish _ => cases he

theorem noExit_stays (he : e.noExit) : Stays k e := by
  intro op hop
  cases e with
  | exitLocked _ => cases he
  | tick _ _ => cases hop; trivial
  | create _ _ => cases hop; trivial
  | unblock _ => cases hop; trivial
  | push _ _ _ => cases hop; trivial
  | block _ _ => cases hop; trivial
  | exitEnter _ _ => cases hop; trivial
  | idle _ => cases hop; trivial
  | movRsp _ => cases hop
  | destroyAs _ => cases hop
  | viaIdle _ => cases hop
  | finish _ => cases hop

/-- The invariant of the runs without `task_exit`. -/
structure NoTail (k : Kernel) : Prop where
  apart : Apart k
  plain : ∀ c, (k.ctx c).Plain ∨ (k.ctx c).inStub
  stacks_ne : ∀ c c', c < smpMaxCpus → c' < smpMaxCpus → c ≠ c' →
    (k.ctx c).stack ≠ (k.ctx c').stack

theorem boot_noTail {online : Nat} (h : 0 < online) (hmax : online ≤ smpMaxCpus) :
    NoTail (boot online) := by
  have hctx : ∀ c, (boot online).ctx c = .on (if c = 0 then bootStack else idleStack c) := by
    intro c
    split_ifs with hc
    · rw [hc]
      rfl
    · exact boot_ctx online hc
  refine ⟨boot_apart h hmax, fun c => Or.inl (by rw [hctx]; rfl), fun c c' hc hc' hne => ?_⟩
  rw [hctx, hctx]
  have h1 := idleStack_lt hc
  have h2 := idleStack_lt hc'
  have h3 : idleStack c ≠ idleStack c' := fun heq => hne (Nat.succ.inj heq)
  dsimp only [Ctx.stack]
  split_ifs <;> omega

theorem NoTail.step (h : NoTail k) (he : e.Enabled k) (hexit : e.noExit) (hsettled : Settled k e) :
    NoTail (k.step e) := by
  have hkeeps : KeepsTail k e := by
    cases e with
    | tick cpu now => exact Or.inl ((h.plain cpu).resolve_right (by rw [he.1.1]; simp))
    | _ => trivial
  refine ⟨step_apart h.apart he hsettled hkeeps (noExit_stays hexit), fun c => ?_,
    fun c c' hc hc' hne => ?_⟩
  · rcases step_ctx hexit c with heq | ⟨new, heq⟩ | ⟨old, new, _, heq, _⟩
    · rw [heq]
      exact h.plain c
    · exact Or.inr (by rw [heq]; rfl)
    · exact Or.inl (by rw [heq]; rfl)
  · -- a CPU changes its stack only when it loads a frame, and then no other CPU is there
    have hstack : ∀ c, ((k.step e).ctx c).stack = (k.ctx c).stack ∨
        ∃ old new, k.ctx c = .switching old new ∧ ((k.step e).ctx c).stack = new ∧
          ∀ c', c' ≠ c → (k.step e).ctx c' = k.ctx c' := by
      intro c
      rcases step_ctx hexit c with heq | ⟨new, heq⟩ | ⟨old, new, hx, heq, hother⟩
      · exact Or.inl (by rw [heq])
      · exact Or.inl (by rw [heq]; rfl)
      · exact Or.inr ⟨old, new, hx, by rw [heq]; rfl, hother⟩
    rcases hstack c with hsame | ⟨old, new, hx, hnew, hother⟩
    · rcases hstack c' with hsame' | ⟨old, new, hx, hnew, hother⟩
      · rw [hsame, hsame']
        exact h.stacks_ne c c' hc hc' hne
      · rw [hnew, hother c hne]
        exact h.apart.resume hc' hc (Ne.symm hne) hx
    · rw [hnew, hother c' (Ne.symm hne)]
      exact (h.apart.resume hc hc' hne hx).symm

/-- Without exits no two CPUs are ever on one stack, if the ticks take only tasks that their last
CPU has left. -/
theorem one_cpu_per_stack (h : Kernel.Reach (fun k e => e.noExit ∧ Settled k e) k) :
    OneCpuPerStack k := by
  have hinv : NoTail k := by
    induction h with
    | boot hpos hmax => exact boot_noTail hpos hmax
    | step _ he hp ih => exact ih.step he hp.1 hp.2
  exact ⟨fun _ _ hc hc' hne _ _ hx => hinv.apart.resume hc hc' hne hx, hinv.stacks_ne⟩

def taskOn (stack pml4 : Nat) (h : stack ≠ 0) : NewTask := ⟨stack, stack, h, pml4, 1⟩

/-- CPU 0 switches from `kmain` to a new task, loads its frame, and CPU 1 takes `kmain`. -/
def settledRun : List Event :=
  [.create (taskOn 100 0 (by decide)) .createTaskPrio, .push 0 0 0, .tick 0 0, .movRsp 0,
    .tick 1 0, .movRsp 1]

theorem one_cpu_per_stack_settledRun : OneCpuPerStack (settledRun.foldl Kernel.step (boot 2)) :=
  one_cpu_per_stack ((Kernel.Reach.boot (by decide) (by decide)).runs (by decide))

/-- CPU 1 takes `kmain` from the queue while CPU 0 is still in the stub. -/
def stolenRun : List Event :=
  [.create (taskOn 100 0 (by decide)) .createTaskPrio, .push 0 0 0, .tick 0 0, .tick 1 0]

/-- Not in every run: CPU 1 is about to load the frame of `kmain`, and CPU 0 is on its stack. -/
theorem stolen_stack_in_use :
    Kernel.Reach (fun _ e => e.noExit) (stolenRun.foldl Kernel.step (boot 2)) ∧
      ¬ OneCpuPerStack (stolenRun.foldl Kernel.step (boot 2)) := by
  refine ⟨(Kernel.Reach.boot (by decide) (by decide)).runs (by decide), fun h => ?_⟩
  exact h.resume 1 0 (by decide) (by decide) (by decide) (idleStack 1) bootStack (by rfl) (by rfl)

/-! ## Teardown -/

/-- Nothing is freed twice or in use, and nothing is lost. -/
structure Teardown (k : Kernel) : Prop where
  allocated_nodup : k.allocated.Nodup
  freed : ∀ e : Event, e.Enabled k → (freedBy k e).Nodup ∧
    ∀ b ∈ freedBy k e, b ∈ allocatedAt k e ∧ ∀ c, c < smpMaxCpus → (k.ctx c).stack ≠ b
  stack_owner : ∀ b ∈ k.allocated, (∃ t, t < maxTasks ∧ (k.machine.sched.tasks t).stackBase = b) ∨
    ∃ c, c < smpMaxCpus ∧ (k.ctx c).oldStack = b
  spaces_nodup : k.spaces.Nodup
  destroyed : ∀ c, c < smpMaxCpus → (k.ctx c).deadPml4 ≠ 0 → (k.ctx c).deadPml4 ∈ k.spaces
  space_owner : ∀ q ∈ k.spaces, (∃ t, t < maxTasks ∧ (k.machine.sched.tasks t).pml4Phys = q) ∨
    ∃ c, c < smpMaxCpus ∧ (k.ctx c).deadPml4 = q

/-- A CPU executes on an idle stack, on that of `kmain`, or on an allocated stack. -/
theorem Apart.stack_allocated (h : Apart k) (hc : c < smpMaxCpus) :
    (k.ctx c).stack ≤ bootStack ∨ (k.ctx c).stack ∈ k.allocated := by
  rcases h.stack_cases hc with hidle | ⟨t, ht, hstack, _⟩ | ⟨hstack, hold⟩
  · exact Or.inl (le_of_lt (hidle ▸ idleStack_lt hc))
  · unfold stackOf at hstack
    split_ifs at hstack with ht0
    · exact Or.inl (le_of_eq hstack)
    · have hpos := (h.record t).live ht ht0
      rw [hstack]
      exact Or.inr (h.stacksOwned.mem_left (h.fits.lt_maxTasks ht)
        (mem_nonNull.mpr ⟨rfl, by omega⟩))
  · rw [hstack]
    exact Or.inr (h.stacksOwned.mem_right hc (mem_nonNull.mpr ⟨rfl, by omega⟩))

/-- Nobody executes on a stack that is freed on an idle stack. -/
theorem Apart.reap_unused (h : Apart k) (hc : c < smpMaxCpus) {stack old : Nat}
    (hx : k.ctx c = .reap stack old) (hc' : c' < smpMaxCpus) : (k.ctx c').stack ≠ old := by
  have hold : bootStack < (k.ctx c).oldStack ∧ (k.ctx c).oldStack = old := by
    have hok := h.cpu c hc
    rw [hx] at hok ⊢
    exact ⟨hok.2.2, rfl⟩
  rw [← hold.2]
  intro heq
  rcases h.stack_cases hc' with hidle | ⟨t, ht, hstack, _⟩ | ⟨hstack, hold'⟩
  · have hlt := idleStack_lt hc'
    omega
  · exact h.stackOf_ne_oldStack hc ht hold.1 (hstack.symm.trans heq)
  · -- two CPUs do not free one stack, and the CPU itself is on its idle stack
    obtain rfl : c' = c := by
      refine h.stacksOwned.unique_right hc' hc (a := (k.ctx c).oldStack) ?_ ?_
      · exact mem_nonNull.mpr ⟨heq.symm.trans hstack, by omega⟩
      · exact mem_nonNull.mpr ⟨rfl, by omega⟩
    have hok := h.cpu c' hc'
    rw [hx] at hok heq
    have hlt := idleStack_lt hc'
    have hpos := hok.2.2
    rw [hok.2.1] at heq
    dsimp only [Ctx.stack, Ctx.oldStack] at heq
    omega

/-- A stack that is freed is allocated, and nobody executes on it. -/
theorem Apart.freed (h : Apart k) (he : e.Enabled k) : (freedBy k e).Nodup ∧
    ∀ b ∈ freedBy k e, b ∈ allocatedAt k e ∧ ∀ c, c < smpMaxCpus → (k.ctx c).stack ≠ b := by
  have hnil : freedBy k e = [] → (freedBy k e).Nodup ∧ ∀ b ∈ freedBy k e, b ∈ allocatedAt k e ∧
      ∀ c, c < smpMaxCpus → (k.ctx c).stack ≠ b := by
    intro hnil
    rw [hnil]
    exact ⟨List.nodup_nil, fun _ hb => absurd hb List.not_mem_nil⟩
  cases e with
  | create new who =>
    rcases createTask_cases h.fits new with
      ⟨_, hfreed⟩ | ⟨slot, _, _, _, _, hdead, _, _, _, _, _, hfreed⟩
    · have hfreed : freedBy k (.create new who) = [new.stack] := hfreed
      rw [hfreed]
      refine ⟨List.nodup_singleton _, fun b hb => ?_⟩
      rw [List.mem_singleton.mp hb]
      obtain ⟨hboot, _, hfresh, _⟩ := he.1
      refine ⟨List.mem_cons_self, fun c hc heq => ?_⟩
      rcases h.stack_allocated hc with hle | hmem
      · omega
      · exact hfresh (heq ▸ hmem)
    · refine hnil (hfreed.trans ?_)
      rw [((h.record slot).none (Or.inl fun hl => hl hdead)).1]
      rfl
  | push i cpu now => exact hnil (h.freedBy_push he)
  | finish cpu =>
    obtain ⟨hlt, hreaps⟩ := he.1
    obtain ⟨stack, old, hx⟩ := Ctx.of_reaps hreaps
    have hcpu := h.lt_smpMaxCpus hlt
    have hfreed : freedBy k (.finish cpu) = nonNull old := by
      simp only [freedBy, hx, Ctx.oldStack]
    rw [hfreed]
    refine ⟨?_, fun b hb => ?_⟩
    · unfold nonNull
      split_ifs
      · exact List.nodup_nil
      · exact List.nodup_singleton _
    · obtain ⟨rfl, hpos⟩ := mem_nonNull.mp hb
      refine ⟨h.stacksOwned.mem_right hcpu ?_, fun c hc => h.reap_unused hcpu hx hc⟩
      simp only [Function.comp_apply, hx, Ctx.oldStack]
      exact hb
  | tick _ _ => exact hnil rfl
  | movRsp _ => exact hnil rfl
  | unblock _ => exact hnil rfl
  | block _ _ => exact hnil rfl
  | exitEnter _ _ => exact hnil rfl
  | exitLocked _ => exact hnil rfl
  | destroyAs _ => exact hnil rfl
  | viaIdle _ => exact hnil rfl
  | idle _ => exact hnil rfl

theorem Owned.owner {R : List Nat} {F : Task → Nat} {G : Ctx → Nat} (h : Owned R F G k) {b : Nat}
    (hb : b ∈ R) : (∃ t, t < maxTasks ∧ F (k.machine.sched.tasks t) = b) ∨
      ∃ c, c < smpMaxCpus ∧ G (k.ctx c) = b := by
  rcases Ledger.owner h hb with ⟨t, ht, hmem⟩ | ⟨c, hc, hmem⟩
  · exact Or.inl ⟨t, ht, (mem_nonNull.mp hmem).1.symm⟩
  · exact Or.inr ⟨c, hc, (mem_nonNull.mp hmem).1.symm⟩

/-- In every run in which tasks that are taken have been left by their last CPU, `task_exit` stays
on its CPU and no tick takes a task from the rest of `task_exit`. -/
theorem teardown (h : Kernel.Reach (fun k e => Settled k e ∧ KeepsTail k e ∧ Stays k e) k) :
    Teardown k := by
  have hinv : Apart k := by
    induction h with
    | boot hpos hmax => exact boot_apart hpos hmax
    | step _ he hp ih => exact step_apart ih he hp.1 hp.2.1 hp.2.2
  refine ⟨hinv.stacksOwned.nodup, fun e => hinv.freed, fun b => hinv.stacksOwned.owner,
    hinv.spacesOwned.nodup, fun c hc hne => ?_, fun q => hinv.spacesOwned.owner⟩
  exact hinv.spacesOwned.mem_right hc (mem_nonNull.mpr ⟨rfl, hne⟩)

/-- A task with an address space exits on CPU 1 and is torn down. -/
def teardownRun : List Event :=
  [.create (taskOn 100 7 (by decide)) .createUserTask, .push 0 1 0, .tick 1 0, .movRsp 1,
    .exitEnter 1 .sysExit, .exitLocked 1, .destroyAs 1, .viaIdle 1]

theorem teardown_teardownRun : Teardown (teardownRun.foldl Kernel.step (boot 2)) :=
  teardown ((Kernel.Reach.boot (by decide) (by decide)).runs (by decide))

/-- A task leaves through `task_entry_trampoline`, and a tick takes `kmain` behind the locked
section. -/
def lostRun : List Event :=
  [.create (taskOn 100 0 (by decide)) .createTaskPrio, .push 0 0 0, .tick 0 0, .movRsp 0,
    .exitEnter 0 .trampoline, .exitLocked 0, .tick 0 0]

/-- Not in every run: the stack 100 is allocated, and neither a task nor a CPU will free it. -/
theorem stack_lost : Kernel.Reach (fun _ _ => True) (lostRun.foldl Kernel.step (boot 1)) ∧
    ¬ Teardown (lostRun.foldl Kernel.step (boot 1)) := by
  refine ⟨(Kernel.Reach.boot (by decide) (by decide)).runs (by decide), fun h => ?_⟩
  rcases h.stack_owner 100 (by decide) with ⟨t, ht, hbase⟩ | ⟨c, hc, hold⟩
  · have hnone : ∀ t < maxTasks,
        ((lostRun.foldl Kernel.step (boot 1)).machine.sched.tasks t).stackBase ≠ 100 := by
      decide
    exact hnone t ht hbase
  · have hnone : ∀ c < smpMaxCpus, ((lostRun.foldl Kernel.step (boot 1)).ctx c).oldStack ≠ 100 := by
      decide
    exact hnone c hc hold

end Kyuzen.Sched
