import Kyuzen.Smp.Spinlock

/-!
# Under a spinlock one program runs

At most one program is under the lock, and the one that is there is what its CPU runs, so that it
goes on while others wait (`holder_runs`): no handler waits for the task that it has interrupted.
The shared data are what the programs make of them one after the other, in the order in which they
have got the lock (`sections_are_atomic`).
-/

namespace Kyuzen.Smp

variable {ι σ τ : Type*} [DecidableEq ι]

/-! ## What runs on a CPU -/

/-- A task that is at the lock is not interrupted, and a handler does not return from there. -/
structure Calm (s : Machine ι σ τ) (c : ι) : Prop where
  task : (s.task c).isIdle = false → s.interrupts c = false ∧ s.inHandler c = false
  handler : (s.handler c).isIdle = false → s.inHandler c = true
  off : s.inHandler c = true → s.interrupts c = false
  noFlags : ∀ flags, s.handler c ≠ .restore flags

variable {next : σ → τ → Option (σ × τ)} {s : Machine ι σ τ} {c : ι}

omit [DecidableEq ι] in
theorem Calm.of_eq {s' : Machine ι σ τ} (h : Calm s c) (hint : s'.interrupts c = s.interrupts c)
    (hin : s'.inHandler c = s.inHandler c) (htask : s'.task c = s.task c)
    (hhandler : s'.handler c = s.handler c) : Calm s' c := by
  obtain ⟨ht, hh, hoff, hno⟩ := h
  exact ⟨by rwa [htask, hint, hin], by rwa [hhandler, hin], by rwa [hin, hint], by rwa [hhandler]⟩

/-- What runs goes on at the lock. -/
theorem Calm.setRunning (h : Calm s c) (hrun : (s.running c).isIdle = false) {p : Phase τ}
    (hp : s.inHandler c = true → ∀ flags, p ≠ .restore flags) : Calm (s.setRunning c p) c := by
  unfold Machine.running at hrun
  unfold Machine.setRunning
  cases hin : s.inHandler c with
  | true =>
    rw [if_pos rfl]
    refine ⟨?_, fun _ => hin, h.off, ?_⟩
    · intro ht
      exact h.task ht
    · show ∀ flags, Function.update s.handler c p c ≠ .restore flags
      rw [Function.update_self]
      exact hp hin
  | false =>
    rw [hin, if_neg Bool.false_ne_true] at hrun
    rw [if_neg Bool.false_ne_true]
    exact ⟨fun _ => h.task hrun, h.handler, h.off, h.noFlags⟩

theorem setRunning_other {c' : ι} (hne : c' ≠ c) (p : Phase τ) :
    (s.setRunning c p).interrupts = s.interrupts ∧ (s.setRunning c p).inHandler = s.inHandler ∧
      (s.setRunning c p).task c' = s.task c' ∧ (s.setRunning c p).handler c' = s.handler c' := by
  unfold Machine.setRunning
  split_ifs
  · exact ⟨rfl, rfl, rfl, Function.update_of_ne hne _ _⟩
  · exact ⟨rfl, rfl, Function.update_of_ne hne _ _, rfl⟩

/-- The CPU that takes a step. -/
def Act.cpu : Act ι τ → ι
  | .lockIrqsave cpu _ => cpu
  | .lock cpu _ => cpu
  | .run cpu => cpu
  | .interrupt cpu => cpu
  | .iret cpu => cpu
  | .setInterrupts cpu _ => cpu

/-- What a CPU runs, and whether it can be interrupted, is its own matter. -/
theorem instruction_other (next : σ → τ → Option (σ × τ)) (s : Machine ι σ τ) {c c' : ι}
    (hne : c' ≠ c) :
    (s.instruction next c).interrupts c' = s.interrupts c' ∧
      (s.instruction next c).inHandler = s.inHandler ∧
      (s.instruction next c).task c' = s.task c' ∧
      (s.instruction next c).handler c' = s.handler c' := by
  have hset := fun p => setRunning_other (s := s) hne p
  unfold Machine.instruction
  split
  · exact ⟨rfl, rfl, rfl, rfl⟩
  · split_ifs
    · exact ⟨congrFun (hset _).1 c', (hset _).2⟩
    · exact ⟨congrFun (hset _).1 c', (hset _).2⟩
  · split_ifs
    · exact ⟨rfl, rfl, rfl, rfl⟩
    · exact ⟨congrFun (hset _).1 c', (hset _).2⟩
  · split
    · exact ⟨congrFun (hset _).1 c', (hset _).2⟩
    · exact ⟨congrFun (hset _).1 c', (hset _).2⟩
  · exact ⟨Function.update_of_ne hne _ _, (hset _).2⟩

theorem Calm.instruction (h : Calm s c) (next : σ → τ → Option (σ × τ)) :
    Calm (s.instruction next c) c := by
  unfold Machine.instruction
  split
  case h_1 => exact h
  case h_2 flags t hrun =>
    have hset := fun p hp => h.setRunning (p := p) (by rw [hrun]; rfl) hp
    split_ifs
    · exact hset _ fun _ _ => nofun
    · exact (hset (.inside flags t) fun _ _ => nofun).of_eq rfl rfl rfl rfl
  case h_3 flags t hrun =>
    split_ifs
    · exact h
    · exact h.setRunning (by rw [hrun]; rfl) fun _ _ => nofun
  case h_4 flags t hrun =>
    have hset := fun p hp => h.setRunning (p := p) (by rw [hrun]; rfl) hp
    split
    · rename_i shared t' _
      exact (hset (.inside flags t') fun _ _ => nofun).of_eq rfl rfl rfl rfl
    · refine (hset (if s.inHandler c then .idle else .restore flags) ?_).of_eq rfl rfl rfl rfl
      intro hin
      rw [hin, if_pos rfl]
      exact fun _ => nofun
  case h_5 flags hrun =>
    -- Only a task has flags to restore.
    have hin : s.inHandler c = false := by
      by_contra hne
      unfold Machine.running at hrun
      rw [if_pos ((Bool.not_eq_false _).mp hne)] at hrun
      exact h.noFlags _ hrun
    unfold Machine.setRunning
    rw [if_neg (by rw [hin]; exact Bool.false_ne_true)]
    refine ⟨?_, h.handler, ?_, h.noFlags⟩
    · intro ht
      dsimp only at ht
      rw [Function.update_self] at ht
      cases ht
    · intro hin'
      rw [hin] at hin'
      cases hin'

theorem step_other (next : σ → τ → Option (σ × τ)) (s : Machine ι σ τ) (a : Act ι τ)
    (hne : c ≠ a.cpu) :
    (s.step next a).interrupts c = s.interrupts c ∧ (s.step next a).inHandler c = s.inHandler c ∧
      (s.step next a).task c = s.task c ∧ (s.step next a).handler c = s.handler c := by
  cases a with
  | run cpu =>
    obtain ⟨hint, hin, htask, hhandler⟩ := instruction_other next s hne
    exact ⟨hint, congrFun hin c, htask, hhandler⟩
  | lockIrqsave cpu t =>
    unfold Machine.step
    dsimp only
    split_ifs
    · exact ⟨Function.update_of_ne hne _ _, rfl, Function.update_of_ne hne _ _, rfl⟩
    · exact ⟨rfl, rfl, rfl, rfl⟩
  | lock cpu t =>
    unfold Machine.step
    dsimp only
    split_ifs
    · exact ⟨rfl, rfl, rfl, Function.update_of_ne hne _ _⟩
    · exact ⟨rfl, rfl, rfl, rfl⟩
  | interrupt cpu =>
    unfold Machine.step
    dsimp only
    split_ifs
    · exact ⟨Function.update_of_ne hne _ _, Function.update_of_ne hne _ _, rfl, rfl⟩
    · exact ⟨rfl, rfl, rfl, rfl⟩
  | iret cpu =>
    unfold Machine.step
    dsimp only
    split_ifs
    · exact ⟨Function.update_of_ne hne _ _, Function.update_of_ne hne _ _, rfl, rfl⟩
    · exact ⟨rfl, rfl, rfl, rfl⟩
  | setInterrupts cpu on =>
    unfold Machine.step
    dsimp only
    split_ifs
    · exact ⟨Function.update_of_ne hne _ _, rfl, rfl, rfl⟩
    · exact ⟨rfl, rfl, rfl, rfl⟩

omit [DecidableEq ι] in
theorem Calm.idle_of_interrupts (h : Calm s c) (hint : s.interrupts c = true) :
    (s.task c).isIdle = true ∧ (s.handler c).isIdle = true := by
  constructor
  · by_contra hne
    rw [(h.task ((Bool.not_eq_true _).mp hne)).1] at hint
    cases hint
  · by_contra hne
    rw [h.off (h.handler ((Bool.not_eq_true _).mp hne))] at hint
    cases hint

theorem Calm.step (h : Calm s c) (a : Act ι τ) : Calm (s.step next a) c := by
  by_cases hc : c = a.cpu
  · subst hc
    cases a with
    | run cpu => exact h.instruction next
    | lockIrqsave cpu t =>
      unfold Machine.step
      dsimp only
      split_ifs with hen
      · rw [Bool.and_eq_true, Bool.not_eq_true'] at hen
        exact ⟨fun _ => ⟨Function.update_self _ _ _, hen.1⟩, h.handler,
          fun _ => Function.update_self _ _ _, h.noFlags⟩
      · exact h
    | lock cpu t =>
      unfold Machine.step
      dsimp only
      split_ifs with hen
      · rw [Bool.and_eq_true] at hen
        refine ⟨h.task, fun _ => hen.1, h.off, ?_⟩
        show ∀ flags, Function.update s.handler cpu (.xchg false t) cpu ≠ .restore flags
        rw [Function.update_self]
        exact fun _ => nofun
      · exact h
    | interrupt cpu =>
      unfold Machine.step
      dsimp only
      split_ifs with hen
      · obtain ⟨htask, hhandler⟩ := h.idle_of_interrupts hen
        exact ⟨fun ht => Bool.noConfusion (htask.symm.trans ht),
          fun _ => Function.update_self _ _ _, fun _ => Function.update_self _ _ _, h.noFlags⟩
      · exact h
    | iret cpu =>
      unfold Machine.step
      dsimp only
      split_ifs with hen
      · rw [Bool.and_eq_true] at hen
        refine ⟨fun ht => ?_, fun ht => ?_, fun hin => ?_, h.noFlags⟩
        · have hin := (h.task ht).2
          exact Bool.noConfusion (hen.1.symm.trans hin)
        · exact Bool.noConfusion (hen.2.symm.trans ht)
        · exact Bool.noConfusion (hin.symm.trans (Function.update_self _ _ _))
      · exact h
    | setInterrupts cpu on =>
      unfold Machine.step
      dsimp only
      split_ifs with hen
      · rw [Bool.and_eq_true, Bool.not_eq_true'] at hen
        refine ⟨fun ht => ?_, h.handler, fun hin => ?_, h.noFlags⟩
        · exact Bool.noConfusion (hen.2.symm.trans ht)
        · exact Bool.noConfusion (hen.1.symm.trans hin)
      · exact h
  · obtain ⟨hint, hin, htask, hhandler⟩ := step_other next s a hc
    exact h.of_eq hint hin htask hhandler

/-! ## What is under the lock -/

theorem running_setRunning (s : Machine ι σ τ) (c : ι) (p : Phase τ) :
    (s.setRunning c p).running = Function.update s.running c p := by
  funext c'
  unfold Machine.setRunning Machine.running
  by_cases hc : c' = c
  · subst hc
    rw [Function.update_self]
    cases hin : s.inHandler c' <;> simp [hin]
  · rw [Function.update_of_ne hc]
    split_ifs <;> simp_all

/-- No CPU begins or ends to be under the lock, and the shared data stay. -/
structure SameInside (s s' : Machine ι σ τ) : Prop where
  locked : s'.locked = s.locked
  shared : s'.shared = s.shared
  log : s'.log = s.log
  base : s'.base = s.base
  start : s'.start = s.start
  inside : ∀ c f t, s'.running c = .inside f t ↔ s.running c = .inside f t

/-- At most one CPU is under the lock, the word tells whether one is, and the shared data are what
the programs have made of them one after the other. -/
structure Sound (next : σ → τ → Option (σ × τ)) (shared : σ) (s : Machine ι σ τ) : Prop where
  calm : ∀ c, Calm s c
  unique : ∀ c c' f t f' t', s.running c = .inside f t → s.running c' = .inside f' t' → c = c'
  locked : s.locked = true ↔ ∃ c f t, s.running c = .inside f t
  sequential : Sequential next shared s.log s.base
  free : s.locked = false → s.shared = s.base
  begun : ∀ c f t, s.running c = .inside f t →
    ∃ t₀, s.start = some t₀ ∧ Steps next (s.base, t₀) (s.shared, t)

variable {s' : Machine ι σ τ} {shared : σ} {a : Act ι τ}

omit [DecidableEq ι] in
theorem SameInside.of_running (hlocked : s'.locked = s.locked) (hshared : s'.shared = s.shared)
    (hlog : s'.log = s.log) (hbase : s'.base = s.base) (hstart : s'.start = s.start)
    (hrun : ∀ c, s'.running c = s.running c ∨
      (∀ f t, s'.running c ≠ .inside f t) ∧ ∀ f t, s.running c ≠ .inside f t) :
    SameInside s s' := by
  refine ⟨hlocked, hshared, hlog, hbase, hstart, fun c f t => ?_⟩
  rcases hrun c with hc | ⟨hnew, hold⟩
  · rw [hc]
  · exact iff_of_false (hnew f t) (hold f t)

omit [DecidableEq ι] in
theorem Sound.of_same (h : Sound next shared s) (hsame : SameInside s s')
    (hcalm : ∀ c, Calm s' c) : Sound next shared s' := by
  obtain ⟨-, hunique, hlocked, hseq, hfree, hbegun⟩ := h
  obtain ⟨hl, hs, hlog, hbase, hstart, hin⟩ := hsame
  refine ⟨hcalm, ?_, ?_, ?_, ?_, ?_⟩
  · intro c c' f t f' t' hc hc'
    exact hunique c c' f t f' t' ((hin c f t).mp hc) ((hin c' f' t').mp hc')
  · rw [hl, hlocked]
    simp only [hin]
  · rw [hlog, hbase]
    exact hseq
  · rw [hl, hs, hbase]
    exact hfree
  · intro c f t hc
    rw [hstart, hbase, hs]
    exact hbegun c f t ((hin c f t).mp hc)

omit [DecidableEq ι] in
theorem ne_inside_of_isIdle {p : Phase τ} (h : p.isIdle = true) (f : Bool) (t : τ) :
    p ≠ .inside f t := by
  rintro rfl
  cases h

omit [DecidableEq ι] in
theorem running_congr (hin : s'.inHandler c = s.inHandler c) (htask : s'.task c = s.task c)
    (hhandler : s'.handler c = s.handler c) : s'.running c = s.running c := by
  unfold Machine.running
  rw [hin, htask, hhandler]

/-- The shared data and the word are touched by instructions only. -/
theorem step_shared (s : Machine ι σ τ) (next : σ → τ → Option (σ × τ))
    (hrun : ∀ cpu, a ≠ .run cpu) :
    (s.step next a).locked = s.locked ∧ (s.step next a).shared = s.shared ∧
      (s.step next a).log = s.log ∧ (s.step next a).base = s.base ∧
      (s.step next a).start = s.start := by
  unfold Machine.step
  cases a with
  | run cpu => exact absurd rfl (hrun cpu)
  | lockIrqsave cpu t => dsimp only; split_ifs <;> exact ⟨rfl, rfl, rfl, rfl, rfl⟩
  | lock cpu t => dsimp only; split_ifs <;> exact ⟨rfl, rfl, rfl, rfl, rfl⟩
  | interrupt cpu => dsimp only; split_ifs <;> exact ⟨rfl, rfl, rfl, rfl, rfl⟩
  | iret cpu => dsimp only; split_ifs <;> exact ⟨rfl, rfl, rfl, rfl, rfl⟩
  | setInterrupts cpu on => dsimp only; split_ifs <;> exact ⟨rfl, rfl, rfl, rfl, rfl⟩

/-- Nothing runs under the lock where a program begins, an interrupt comes or a handler returns. -/
theorem step_running (hcalm : Calm s a.cpu) (hrun : ∀ cpu, a ≠ .run cpu) :
    (s.step next a).running a.cpu = s.running a.cpu ∨
      (∀ f t, (s.step next a).running a.cpu ≠ .inside f t) ∧
        ∀ f t, s.running a.cpu ≠ .inside f t := by
  unfold Machine.step
  cases a with
  | run cpu => exact absurd rfl (hrun cpu)
  | lockIrqsave cpu t =>
    dsimp only [Act.cpu]
    split_ifs with hen
    · right
      rw [Bool.and_eq_true, Bool.not_eq_true'] at hen
      unfold Machine.running
      dsimp only
      rw [hen.1, Function.update_self]
      exact ⟨fun _ _ => nofun, ne_inside_of_isIdle hen.2⟩
    · exact Or.inl rfl
  | lock cpu t =>
    dsimp only [Act.cpu]
    split_ifs with hen
    · right
      rw [Bool.and_eq_true] at hen
      unfold Machine.running
      dsimp only
      rw [hen.1, Function.update_self]
      exact ⟨fun _ _ => nofun, ne_inside_of_isIdle hen.2⟩
    · exact Or.inl rfl
  | interrupt cpu =>
    dsimp only [Act.cpu]
    split_ifs with hen
    · right
      obtain ⟨htask, hhandler⟩ := hcalm.idle_of_interrupts hen
      unfold Machine.running
      simp only [Function.update_self, if_true]
      refine ⟨ne_inside_of_isIdle hhandler, ?_⟩
      split_ifs
      · exact ne_inside_of_isIdle hhandler
      · exact ne_inside_of_isIdle htask
    · exact Or.inl rfl
  | iret cpu =>
    dsimp only [Act.cpu]
    split_ifs with hen
    · right
      rw [Bool.and_eq_true] at hen
      have htask : (s.task cpu).isIdle = true := by
        by_contra hne
        have hin := (hcalm.task ((Bool.not_eq_true _).mp hne)).2
        exact Bool.noConfusion (hen.1.symm.trans hin)
      unfold Machine.running
      simp only [Function.update_self, hen.1, if_true]
      exact ⟨ne_inside_of_isIdle htask, ne_inside_of_isIdle hen.2⟩
    · exact Or.inl rfl
  | setInterrupts cpu on =>
    left
    dsimp only
    split_ifs <;> rfl

/-- A step that is not an instruction. -/
theorem sameInside_step (hcalm : Calm s a.cpu) (hrun : ∀ cpu, a ≠ .run cpu) :
    SameInside s (s.step next a) := by
  obtain ⟨hlocked, hshared, hlog, hbase, hstart⟩ := step_shared s next hrun
  refine .of_running hlocked hshared hlog hbase hstart fun c => ?_
  by_cases hc : c = a.cpu
  · rw [hc]
    exact step_running hcalm hrun
  · obtain ⟨-, hin, htask, hhandler⟩ := step_other next s a hc
    exact Or.inl (running_congr hin htask hhandler)

theorem setRunning_shared (s : Machine ι σ τ) (c : ι) (p : Phase τ) :
    (s.setRunning c p).locked = s.locked ∧ (s.setRunning c p).shared = s.shared ∧
      (s.setRunning c p).log = s.log ∧ (s.setRunning c p).base = s.base ∧
      (s.setRunning c p).start = s.start := by
  unfold Machine.setRunning
  split_ifs <;> exact ⟨rfl, rfl, rfl, rfl, rfl⟩

/-- A change of what runs on a CPU that is not under the lock before or after. -/
theorem sameInside_setRunning {p : Phase τ} (hp : ∀ f t, p ≠ .inside f t)
    (hc : ∀ f t, s.running c ≠ .inside f t) : SameInside s (s.setRunning c p) := by
  obtain ⟨hlocked, hshared, hlog, hbase, hstart⟩ := setRunning_shared s c p
  refine .of_running hlocked hshared hlog hbase hstart fun c' => ?_
  rw [running_setRunning]
  by_cases hc' : c' = c
  · subst hc'
    rw [Function.update_self]
    exact Or.inr ⟨hp, hc⟩
  · rw [Function.update_of_ne hc']
    exact Or.inl rfl

/-- The `xchg` finds the word 0. -/
theorem Sound.acquire (h : Sound next shared s) {f : Bool} {t : τ} (hfree : s.locked = false)
    (hlocked : s'.locked = true) (hshared : s'.shared = s.shared) (hlog : s'.log = s.log)
    (hbase : s'.base = s.shared) (hstart : s'.start = some t) (hcalm : ∀ c, Calm s' c)
    (hrun : s'.running = Function.update s.running c (.inside f t)) : Sound next shared s' := by
  have hnone : ∀ c f t, s.running c ≠ .inside f t := by
    intro c f t hc
    rw [h.locked.mpr ⟨c, f, t, hc⟩] at hfree
    cases hfree
  have honly : ∀ c' f' t', s'.running c' = .inside f' t' → c' = c ∧ t' = t := by
    intro c' f' t' hc'
    rw [hrun] at hc'
    by_cases heq : c' = c
    · subst heq
      rw [Function.update_self] at hc'
      cases hc'
      exact ⟨rfl, rfl⟩
    · rw [Function.update_of_ne heq] at hc'
      exact absurd hc' (hnone c' f' t')
  refine ⟨hcalm, ?_, ?_, ?_, ?_, ?_⟩
  · intro c₁ c₂ f₁ t₁ f₂ t₂ h₁ h₂
    rw [(honly c₁ f₁ t₁ h₁).1, (honly c₂ f₂ t₂ h₂).1]
  · refine iff_of_true hlocked ⟨c, f, t, ?_⟩
    rw [hrun, Function.update_self]
  · rw [hlog, hbase, h.free hfree]
    exact h.sequential
  · intro hno
    rw [hlocked] at hno
    cases hno
  · intro c' f' t' hc'
    obtain ⟨-, rfl⟩ := honly c' f' t' hc'
    rw [hbase, hshared]
    exact ⟨t', hstart, .refl _⟩

/-- A step of the program under the lock. -/
theorem Sound.advance (h : Sound next shared s) {f : Bool} {t t' : τ} {x : σ}
    (hc : s.running c = .inside f t) (hnext : next s.shared t = some (x, t'))
    (hlocked : s'.locked = s.locked) (hshared : s'.shared = x) (hlog : s'.log = s.log)
    (hbase : s'.base = s.base) (hstart : s'.start = s.start) (hcalm : ∀ c, Calm s' c)
    (hrun : s'.running = Function.update s.running c (.inside f t')) : Sound next shared s' := by
  have honly : ∀ c' f' u, s'.running c' = .inside f' u → c' = c ∧ u = t' := by
    intro c' f' u hc'
    rw [hrun] at hc'
    by_cases heq : c' = c
    · subst heq
      rw [Function.update_self] at hc'
      cases hc'
      exact ⟨rfl, rfl⟩
    · rw [Function.update_of_ne heq] at hc'
      exact absurd (h.unique c' c f' u f t hc' hc) heq
  have hheld : s.locked = true := h.locked.mpr ⟨c, f, t, hc⟩
  refine ⟨hcalm, ?_, ?_, ?_, ?_, ?_⟩
  · intro c₁ c₂ f₁ t₁ f₂ t₂ h₁ h₂
    rw [(honly c₁ f₁ t₁ h₁).1, (honly c₂ f₂ t₂ h₂).1]
  · refine iff_of_true (hlocked.trans hheld) ⟨c, f, t', ?_⟩
    rw [hrun, Function.update_self]
  · rw [hlog, hbase]
    exact h.sequential
  · intro hno
    rw [hlocked, hheld] at hno
    cases hno
  · intro c' f' u hc'
    obtain ⟨-, rfl⟩ := honly c' f' u hc'
    obtain ⟨t₀, ht₀, hsteps⟩ := h.begun c f t hc
    rw [hstart, hbase, hshared]
    exact ⟨t₀, ht₀, hsteps.tail hnext⟩

/-- The program under the lock is over. -/
theorem Sound.release (h : Sound next shared s) {f : Bool} {t : τ} {p : Phase τ}
    (hc : s.running c = .inside f t) (hnext : next s.shared t = none)
    (hp : ∀ f t, p ≠ .inside f t) (hlocked : s'.locked = false) (hshared : s'.shared = s.shared)
    (hlog : s'.log = s.log ++ (s.start.map fun t₀ => (t₀, t)).toList)
    (hbase : s'.base = s.shared) (hcalm : ∀ c, Calm s' c)
    (hrun : s'.running = Function.update s.running c p) : Sound next shared s' := by
  have hnone : ∀ c' f' u, s'.running c' ≠ .inside f' u := by
    intro c' f' u hc'
    rw [hrun] at hc'
    by_cases heq : c' = c
    · subst heq
      rw [Function.update_self] at hc'
      exact hp f' u hc'
    · rw [Function.update_of_ne heq] at hc'
      exact heq (h.unique c' c f' u f t hc' hc)
  obtain ⟨t₀, ht₀, hsteps⟩ := h.begun c f t hc
  refine ⟨hcalm, ?_, ?_, ?_, ?_, ?_⟩
  · intro c₁ c₂ f₁ t₁ f₂ t₂ h₁ h₂
    exact absurd h₁ (hnone c₁ f₁ t₁)
  · refine iff_of_false (by rw [hlocked]; exact Bool.false_ne_true) ?_
    rintro ⟨c', f', u, hc'⟩
    exact hnone c' f' u hc'
  · rw [hlog, hbase, ht₀]
    exact h.sequential.snoc ⟨hsteps, hnext⟩
  · exact fun _ => hshared.trans hbase.symm
  · intro c' f' u hc'
    exact absurd hc' (hnone c' f' u)

theorem Sound.instruction (h : Sound next shared s) (c : ι) :
    Sound next shared (s.instruction next c) := by
  have hcalm : ∀ c', Calm (s.instruction next c) c' := fun c' => (h.calm c').step (.run c)
  unfold Machine.instruction at hcalm ⊢
  cases hrun : s.running c with
  | idle => exact h
  | xchg flags t =>
    have houtside : ∀ f u, s.running c ≠ .inside f u := by
      rw [hrun]
      exact fun _ _ => nofun
    simp only [hrun] at hcalm ⊢
    split_ifs at hcalm ⊢ with hl
    · exact h.of_same (sameInside_setRunning (fun _ _ => nofun) houtside) hcalm
    · obtain ⟨-, hshared, hlog, -, -⟩ := setRunning_shared s c (.inside flags t)
      exact h.acquire ((Bool.not_eq_true _).mp hl) rfl hshared hlog rfl rfl hcalm
        (running_setRunning s c _)
  | test flags t =>
    have houtside : ∀ f u, s.running c ≠ .inside f u := by
      rw [hrun]
      exact fun _ _ => nofun
    simp only [hrun] at hcalm ⊢
    split_ifs at hcalm ⊢ with hl
    · exact h
    · exact h.of_same (sameInside_setRunning (fun _ _ => nofun) houtside) hcalm
  | inside flags t =>
    simp only [hrun] at hcalm ⊢
    cases hnext : next s.shared t with
    | some x =>
      simp only [hnext] at hcalm ⊢
      obtain ⟨hlocked, -, hlog, hbase, hstart⟩ := setRunning_shared s c (.inside flags x.2)
      exact h.advance hrun hnext hlocked rfl hlog hbase hstart hcalm (running_setRunning s c _)
    | none =>
      simp only [hnext] at hcalm ⊢
      obtain ⟨-, hshared, -, -, -⟩ :=
        setRunning_shared s c (if s.inHandler c then .idle else .restore flags)
      refine h.release hrun hnext ?_ rfl hshared rfl rfl hcalm (running_setRunning s c _)
      split_ifs <;> exact fun _ _ => nofun
  | restore flags =>
    have houtside : ∀ f u, s.running c ≠ .inside f u := by
      rw [hrun]
      exact fun _ _ => nofun
    simp only [hrun] at hcalm ⊢
    have hsame := sameInside_setRunning (p := .idle) (fun _ _ => nofun) houtside
    exact h.of_same ⟨hsame.locked, hsame.shared, hsame.log, hsame.base, hsame.start, hsame.inside⟩
      hcalm

theorem Sound.step (h : Sound next shared s) (a : Act ι τ) :
    Sound next shared (s.step next a) := by
  by_cases hrun : ∃ cpu, a = .run cpu
  · obtain ⟨cpu, rfl⟩ := hrun
    exact h.instruction cpu
  · exact h.of_same (sameInside_step (h.calm _) (not_exists.mp hrun)) fun c => (h.calm c).step a

theorem sound_run (next : σ → τ → Option (σ × τ)) (shared : σ) (acts : List (Act ι τ)) :
    Sound next shared (runMachine next shared acts) := by
  have hboot : Sound next shared (Machine.boot shared : Machine ι σ τ) := by
    refine ⟨fun c => ⟨nofun, nofun, nofun, fun _ => nofun⟩, fun _ _ _ _ _ _ => nofun, ?_, .nil,
      fun _ => rfl, fun _ _ _ => nofun⟩
    exact iff_of_false Bool.false_ne_true fun ⟨_, _, _, hc⟩ => nomatch hc
  have hfold : ∀ s : Machine ι σ τ, Sound next shared s →
      Sound next shared (acts.foldl (Machine.step next) s) := by
    induction acts with
    | nil => exact fun s hs => hs
    | cons a acts ih => exact fun s hs => ih _ (hs.step a)
  exact hfold _ hboot

omit [DecidableEq ι] in
/-- What is under the lock on a CPU is what runs there. -/
theorem Calm.running_of_inside (h : Calm s c) {f : Bool} {t : τ}
    (hin : s.task c = .inside f t ∨ s.handler c = .inside f t) :
    s.running c = .inside f t ∧ s.interrupts c = false := by
  unfold Machine.running
  rcases hin with htask | hhandler
  · obtain ⟨hoff, hno⟩ := h.task (by rw [htask]; rfl)
    rw [hno, if_neg Bool.false_ne_true]
    exact ⟨htask, hoff⟩
  · have hin := h.handler (by rw [hhandler]; rfl)
    rw [hin, if_pos rfl]
    exact ⟨hhandler, h.off hin⟩

/-- The program goes on for `n` steps. -/
inductive Ends (next : σ → τ → Option (σ × τ)) : Nat → σ × τ → Prop
  | stop {x : σ × τ} (h : next x.1 x.2 = none) : Ends next 0 x
  | step {n : Nat} {x y : σ × τ} (h : next x.1 x.2 = some y) (hy : Ends next n y) :
    Ends next (n + 1) x

/-- Other CPUs do not disturb the one that is under the lock. -/
theorem Sound.undisturbed (h : Sound next shared s) {f : Bool} {t : τ}
    (hc : s.running c = .inside f t) (ha : a ≠ .run c) :
    (s.step next a).running c = .inside f t ∧ (s.step next a).shared = s.shared := by
  by_cases hrun : ∃ cpu, a = .run cpu
  · obtain ⟨cpu, rfl⟩ := hrun
    have hne : c ≠ cpu := fun heq => ha (by rw [heq])
    obtain ⟨-, hin, htask, hhandler⟩ := step_other next s (.run cpu) hne
    refine ⟨(running_congr hin htask hhandler).trans hc, ?_⟩
    have hheld : s.locked = true := h.locked.mpr ⟨c, f, t, hc⟩
    show (s.instruction next cpu).shared = s.shared
    unfold Machine.instruction
    cases hcpu : s.running cpu with
    | idle => rfl
    | xchg flags u =>
      dsimp only
      rw [if_pos hheld]
      exact (setRunning_shared s cpu _).2.1
    | test flags u =>
      dsimp only
      rw [if_pos hheld]
    | inside flags u => exact absurd (h.unique c cpu f t flags u hc hcpu) hne
    | restore flags => exact (setRunning_shared s cpu .idle).2.1
  · have hsame : SameInside s (s.step next a) := sameInside_step (h.calm _) (not_exists.mp hrun)
    exact ⟨(hsame.inside c f t).mpr hc, hsame.shared⟩

/-! ## Runs -/

/-- In any run, of any number of CPUs: the word is 1 if and only if a CPU is under the lock, and it
is one at most. What is under the lock is what this CPU runs, with interrupts off. -/
theorem holder_runs (next : σ → τ → Option (σ × τ)) (shared : σ) (acts : List (Act ι τ)) :
    let s := runMachine next shared acts
    (s.locked = true ↔ ∃ c f t, s.running c = .inside f t) ∧
      (∀ c c' f t f' t', s.running c = .inside f t → s.running c' = .inside f' t' → c = c') ∧
      ∀ c f t, s.task c = .inside f t ∨ s.handler c = .inside f t →
        s.running c = .inside f t ∧ s.interrupts c = false := by
  have h := sound_run (ι := ι) next shared acts
  exact ⟨h.locked, h.unique, fun c f t hin => (h.calm c).running_of_inside hin⟩

/-- In any run the shared data are what the programs that were under the lock have made of them, one
after the other; the one that is under the lock has made some of its steps. -/
theorem sections_are_atomic (next : σ → τ → Option (σ × τ)) (shared : σ)
    (acts : List (Act ι τ)) :
    let s := runMachine next shared acts
    Sequential next shared s.log s.base ∧ (s.locked = false → s.shared = s.base) ∧
      ∀ c f t, s.running c = .inside f t →
        ∃ t₀, s.start = some t₀ ∧ Steps next (s.base, t₀) (s.shared, t) := by
  have h := sound_run (ι := ι) next shared acts
  exact ⟨h.sequential, h.free, h.begun⟩

/-- An instruction on this CPU. -/
def Act.runs (c : ι) : Act ι τ → Bool
  | .run cpu => cpu = c
  | _ => false

theorem runs_eq_true : a.runs c = true ↔ a = .run c := by
  cases a with
  | run cpu =>
    show decide (cpu = c) = true ↔ Act.run cpu = Act.run c
    rw [decide_eq_true_eq, Act.run.injEq]
  | lockIrqsave => exact iff_of_false Bool.false_ne_true nofun
  | lock => exact iff_of_false Bool.false_ne_true nofun
  | interrupt => exact iff_of_false Bool.false_ne_true nofun
  | iret => exact iff_of_false Bool.false_ne_true nofun
  | setInterrupts => exact iff_of_false Bool.false_ne_true nofun

theorem instruction_inside {f : Bool} {t : τ} (hc : s.running c = .inside f t) :
    (next s.shared t = none → (s.step next (.run c)).locked = false) ∧
      ∀ x, next s.shared t = some x → (s.step next (.run c)).running c = .inside f x.2 ∧
        (s.step next (.run c)).shared = x.1 := by
  show (_ → (s.instruction next c).locked = false) ∧ ∀ x : σ × τ, _ →
    (s.instruction next c).running c = .inside f x.2 ∧ (s.instruction next c).shared = x.1
  unfold Machine.instruction
  simp only [hc]
  constructor
  · intro hnext
    rw [hnext]
  · intro x hnext
    simp only [hnext]
    refine ⟨?_, trivial⟩
    have hrun := congrFun (running_setRunning s c (.inside f x.2)) c
    rw [Function.update_self] at hrun
    exact hrun

/-- A program of `n` steps that is under the lock leaves it when its CPU has executed `n + 1`
instructions, whatever the other CPUs do. -/
theorem Sound.leaves (h : Sound next shared s) {n : Nat} {f : Bool} {t : τ}
    (hc : s.running c = .inside f t) (hends : Ends next n (s.shared, t)) {acts : List (Act ι τ)}
    (hcount : n < acts.countP fun a => a.runs c) :
    ∃ k ≤ acts.length, ((acts.take k).foldl (Machine.step next) s).locked = false := by
  induction acts generalizing s t n with
  | nil => exact absurd hcount (Nat.not_lt_zero n)
  | cons a acts ih =>
    by_cases ha : a = .run c
    · subst ha
      rw [List.countP_cons_of_pos (runs_eq_true.mpr rfl)] at hcount
      obtain ⟨hnone, hsome⟩ := instruction_inside hc
      cases hends with
      | stop hnext => exact ⟨1, Nat.succ_le_succ (Nat.zero_le _), hnone hnext⟩
      | step hnext hy =>
        rename_i y
        obtain ⟨hrun, hshared⟩ := hsome y hnext
        obtain ⟨x, t'⟩ := y
        rw [← (show _ = x from hshared)] at hy
        obtain ⟨k, hk, hfree⟩ := ih (h.step _) hrun hy (Nat.lt_of_succ_lt_succ hcount)
        exact ⟨k + 1, Nat.succ_le_succ hk, hfree⟩
    · have hruns : ¬ a.runs c = true := fun hr => ha (runs_eq_true.mp hr)
      rw [List.countP_cons_of_neg hruns] at hcount
      obtain ⟨hrun, hshared⟩ := h.undisturbed hc ha
      rw [← hshared] at hends
      obtain ⟨k, hk, hfree⟩ := ih (h.step a) hrun hends hcount
      exact ⟨k + 1, Nat.succ_le_succ hk, hfree⟩

/-! ## Where programs begin -/

/-- The local state with which a program waits for the lock. -/
def Phase.wants : Phase τ → Option τ
  | .xchg _ t => some t
  | .test _ t => some t
  | _ => none

/-- All programs have begun in a state that meets `P`. -/
structure Begins (P : τ → Prop) (s : Machine ι σ τ) : Prop where
  task : ∀ c, ∀ t ∈ (s.task c).wants, P t
  handler : ∀ c, ∀ t ∈ (s.handler c).wants, P t
  start : ∀ t ∈ s.start, P t
  log : ∀ x ∈ s.log, P x.1

/-- The local state that an act brings. -/
def Act.begins : Act ι τ → Option τ
  | .lockIrqsave _ t => some t
  | .lock _ t => some t
  | _ => none

variable {P : τ → Prop}

theorem wants_update {f : ι → Phase τ} {p : Phase τ} (hf : ∀ c, ∀ t ∈ (f c).wants, P t)
    (hp : ∀ t ∈ p.wants, P t) (c c' : ι) : ∀ t ∈ (Function.update f c p c').wants, P t := by
  by_cases hc : c' = c
  · subst hc
    rw [Function.update_self]
    exact hp
  · rw [Function.update_of_ne hc]
    exact hf c'

theorem Begins.setRunning (h : Begins P s) (c : ι) {p : Phase τ} (hp : ∀ t ∈ p.wants, P t) :
    Begins P (s.setRunning c p) := by
  unfold Machine.setRunning
  split_ifs
  · exact ⟨h.task, wants_update h.handler hp c, h.start, h.log⟩
  · exact ⟨wants_update h.task hp c, h.handler, h.start, h.log⟩

omit [DecidableEq ι] in
theorem Begins.running (h : Begins P s) (c : ι) : ∀ t ∈ (s.running c).wants, P t := by
  unfold Machine.running
  split_ifs
  · exact h.handler c
  · exact h.task c

theorem Begins.instruction (h : Begins P s) (c : ι) : Begins P (s.instruction next c) := by
  have hc := h.running c
  unfold Machine.instruction
  cases hrun : s.running c with
  | idle => exact h
  | xchg flags t =>
    rw [hrun] at hc
    have ht := hc t rfl
    dsimp only
    split_ifs
    · exact h.setRunning c hc
    · obtain ⟨htask, hhandler, -, hlog⟩ := h.setRunning c (p := .inside flags t) fun _ => nofun
      refine ⟨htask, hhandler, ?_, hlog⟩
      rintro t' ht'
      cases ht'
      exact ht
  | test flags t =>
    rw [hrun] at hc
    dsimp only
    split_ifs
    · exact h
    · exact h.setRunning c hc
  | inside flags t =>
    dsimp only
    split
    · rename_i x t' _
      obtain ⟨htask, hhandler, hstart, hlog⟩ :=
        h.setRunning c (p := .inside flags t') fun _ => nofun
      exact ⟨htask, hhandler, hstart, hlog⟩
    · obtain ⟨htask, hhandler, -, -⟩ :=
        h.setRunning c (p := if s.inHandler c then .idle else .restore flags)
          (by split_ifs <;> exact fun _ => nofun)
      refine ⟨htask, hhandler, fun _ => nofun, ?_⟩
      intro x hx
      rcases List.mem_append.mp hx with hx | hx
      · exact h.log x hx
      · obtain ⟨t₀, ht₀, rfl⟩ := Option.map_eq_some_iff.mp (Option.mem_toList.mp hx)
        exact h.start t₀ ht₀
  | restore flags =>
    obtain ⟨htask, hhandler, hstart, hlog⟩ := h.setRunning c (p := .idle) fun _ => nofun
    exact ⟨htask, hhandler, hstart, hlog⟩

theorem Begins.step (h : Begins P s) (ha : ∀ t ∈ a.begins, P t) : Begins P (s.step next a) := by
  unfold Machine.step
  cases a with
  | run cpu => exact h.instruction cpu
  | lockIrqsave cpu t =>
    dsimp only
    split_ifs
    · exact ⟨wants_update (p := .xchg (s.interrupts cpu) t) h.task ha cpu, h.handler, h.start,
        h.log⟩
    · exact h
  | lock cpu t =>
    dsimp only
    split_ifs
    · exact ⟨h.task, wants_update (p := .xchg false t) h.handler ha cpu, h.start, h.log⟩
    · exact h
  | interrupt cpu => dsimp only; split_ifs <;> exact ⟨h.task, h.handler, h.start, h.log⟩
  | iret cpu => dsimp only; split_ifs <;> exact ⟨h.task, h.handler, h.start, h.log⟩
  | setInterrupts cpu on => dsimp only; split_ifs <;> exact ⟨h.task, h.handler, h.start, h.log⟩

theorem begins_run (next : σ → τ → Option (σ × τ)) (shared : σ) {acts : List (Act ι τ)}
    (h : ∀ a ∈ acts, ∀ t ∈ a.begins, P t) : Begins P (runMachine next shared acts) := by
  have hfold : ∀ s : Machine ι σ τ, Begins P s → Begins P (acts.foldl (Machine.step next) s) := by
    induction acts with
    | nil => exact fun s hs => hs
    | cons a acts ih =>
      intro s hs
      exact ih (fun b hb => h b (List.mem_cons_of_mem _ hb)) _ (hs.step (h a List.mem_cons_self))
  exact hfold _ ⟨fun _ _ => nofun, fun _ _ => nofun, fun _ => nofun, fun _ => nofun⟩

/-! ## Programs to their end -/

theorem Steps.head {x y : σ × τ} (h : Steps next x y) :
    x = y ∨ ∃ z, next x.1 x.2 = some z ∧ Steps next z y := by
  induction h with
  | refl => exact Or.inl rfl
  | tail hxy hz ih =>
    right
    rcases ih with rfl | ⟨w, hw, hwy⟩
    · exact ⟨_, hz, .refl _⟩
    · exact ⟨w, hw, hwy.tail hz⟩

/-- The first step of a program that is run to its end. -/
theorem Completes.first {x y z : σ × τ} (h : Completes next x y) (hz : next x.1 x.2 = some z) :
    Completes next z y := by
  obtain ⟨hsteps, hend⟩ := h
  rcases hsteps.head with rfl | ⟨w, hw, hwy⟩
  · rw [hz] at hend
    cases hend
  · rw [hz, Option.some_inj] at hw
    subst hw
    exact ⟨hwy, hend⟩

theorem Completes.stop {x y : σ × τ} (h : Completes next x y) (hx : next x.1 x.2 = none) :
    y = x := by
  rcases h.1.head with rfl | ⟨w, hw, -⟩
  · rfl
  · rw [hx] at hw
    cases hw

end Kyuzen.Smp
