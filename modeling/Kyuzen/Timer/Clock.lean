import Mathlib.Algebra.Order.Field.Rat
import Mathlib.Tactic.FieldSimp
import Mathlib.Tactic.Linarith
import Mathlib.Tactic.Positivity
import Mathlib.Tactic.Ring
import Kyuzen.Lib.Run

/-!
# The millisecond clock

`timer_handler` adds the whole milliseconds of a tick to `timer_ms` and carries the rest of the
division. After `n` ticks at one rate, `timer_ms` has advanced by `1000 * n / hz` and the rest is
`1000 * n % hz`, both without error; a change of the rate drops the rest. The counter has 64 bits,
and the code does not expect it to overflow: what it shows is exact modulo 2 ^ 64
(`clock_no_drift`).

A tick and a change of the rate do not overlap. The callbacks, the EOI and the sleep queue read the
clock and do not change it.
-/

namespace Kyuzen.Timer

open Lib

/-! ## The driver -/

def timerDefaultHz : Nat := 60

/-- The variables of the driver. `nextScheduleMs` is when the quantum ends. -/
structure State where
  ticks : Nat
  ms : Nat
  currentHz : Nat
  msRemainder : Nat
  cpuIdleTicks : Nat
  cpuTotalTicks : Nat
  currentCpuUsage : Nat
  prevYieldSnapshot : Nat
  nextScheduleMs : Nat

def boot : State where
  ticks := 0
  ms := 0
  currentHz := timerDefaultHz
  msRemainder := 0
  cpuIdleTicks := 0
  cpuTotalTicks := 0
  currentCpuUsage := 0
  prevYieldSnapshot := 0
  nextScheduleMs := 0

def isSupportedRefreshRate (hz : Nat) : Bool := hz == 60 || hz == 100 || hz == 144

/-- The result, and the driver afterwards. -/
def setRefreshRate (t : State) (yieldCounter hz : Nat) : Int × State :=
  if !isSupportedRefreshRate hz then (-1, t)
  else
    (0, { t with
      currentHz := hz
      msRemainder := 0
      cpuTotalTicks := 0
      cpuIdleTicks := 0
      prevYieldSnapshot := yieldCounter })

def initTimer (t : State) (freq : Nat) : State :=
  let freq := if !isSupportedRefreshRate freq then timerDefaultHz else freq
  { t with currentHz := freq, msRemainder := 0 }

def accumulateMs (t : State) : State :=
  let hz := t.currentHz
  let t := { t with
    ms := (t.ms + 1000 / hz) % 2 ^ 64
    msRemainder := (t.msRemainder + 1000 % hz) % 2 ^ 32 }
  if t.msRemainder ≥ hz then
    { t with ms := (t.ms + 1) % 2 ^ 64, msRemainder := t.msRemainder - hz }
  else t

/-- The CPU usage, once in a second. -/
def trackCpu (t : State) (yieldCounter : Nat) : State :=
  let t := { t with
    cpuTotalTicks := (t.cpuTotalTicks + 1) % 2 ^ 32
    cpuIdleTicks :=
      if yieldCounter ≠ t.prevYieldSnapshot then (t.cpuIdleTicks + 1) % 2 ^ 32 else t.cpuIdleTicks
    prevYieldSnapshot := yieldCounter }
  if t.cpuTotalTicks ≥ t.currentHz then
    { t with
      currentCpuUsage :=
        (100 + 2 ^ 32 - t.cpuIdleTicks * 100 % 2 ^ 32 / t.cpuTotalTicks) % 2 ^ 32
      cpuTotalTicks := 0
      cpuIdleTicks := 0 }
  else t

/-- The driver after a tick, and whether the quantum is over and `schedule_on_cpu` called. -/
def timerHandler (t : State) (yieldCounter : Nat) : State × Bool :=
  let t := trackCpu (accumulateMs { t with ticks := (t.ticks + 1) % 2 ^ 64 }) yieldCounter
  if t.ms ≥ t.nextScheduleMs then ({ t with nextScheduleMs := (t.ms + 20) % 2 ^ 64 }, true)
  else (t, false)

/-! ## Runs -/

inductive Op
  | tick (yieldCounter : Nat)
  | setRate (yieldCounter hz : Nat)

/-- The driver, with what the code does not have beside it. -/
structure Clock where
  timer : State
  /-- `timer_ms` when the rate was last set. -/
  setMs : Nat
  /-- The ticks since then. -/
  since : Nat
  /-- The milliseconds that all ticks take at their rates. -/
  elapsed : ℚ
  /-- How often the rate has been set, in `init_timer` too. -/
  settings : Nat

def Clock.step (c : Clock) : Op → Clock
  | .tick yieldCounter =>
    { c with
      timer := (timerHandler c.timer yieldCounter).1
      since := c.since + 1
      elapsed := c.elapsed + 1000 / c.timer.currentHz }
  | .setRate yieldCounter hz =>
    let r := setRefreshRate c.timer yieldCounter hz
    if r.1 = 0 then
      { c with timer := r.2, setMs := c.timer.ms, since := 0, settings := c.settings + 1 }
    else { c with timer := r.2 }

def Clock.start (freq : Nat) : Clock where
  timer := initTimer boot freq
  setMs := 0
  since := 0
  elapsed := 0
  settings := 1

/-- The clock after the first `n` ticks and calls. -/
def clockAt (freq : Nat) (ops : List Op) (n : Nat) : Clock :=
  after Clock.step (Clock.start freq) ops n

/-! ## One tick -/

variable {t : State} {c : Clock} {hz n b : Nat}

theorem supported_bounds (h : isSupportedRefreshRate hz = true) : 0 < hz ∧ hz < 2 ^ 16 := by
  simp only [isSupportedRefreshRate, Bool.or_eq_true, beq_iff_eq] at h
  omega

theorem initTimer_supported (t : State) (freq : Nat) :
    isSupportedRefreshRate (initTimer t freq).currentHz = true := by
  rw [initTimer]
  cases h : isSupportedRefreshRate freq with
  | true => exact h
  | false => rfl

@[simp] theorem trackCpu_ms (t : State) (y : Nat) : (trackCpu t y).ms = t.ms := by
  unfold trackCpu
  dsimp only
  split <;> rfl

@[simp] theorem trackCpu_msRemainder (t : State) (y : Nat) :
    (trackCpu t y).msRemainder = t.msRemainder := by
  unfold trackCpu
  dsimp only
  split <;> rfl

@[simp] theorem trackCpu_currentHz (t : State) (y : Nat) :
    (trackCpu t y).currentHz = t.currentHz := by
  unfold trackCpu
  dsimp only
  split <;> rfl

@[simp] theorem accumulateMs_currentHz (t : State) : (accumulateMs t).currentHz = t.currentHz := by
  unfold accumulateMs
  dsimp only
  split <;> rfl

/-- `timer_ms` is `b` and the milliseconds of `n` ticks, and the rest is carried. -/
structure Counts (t : State) (b n : Nat) : Prop where
  ms : t.ms = (b + 1000 * n / t.currentHz) % 2 ^ 64
  remainder : t.msRemainder = 1000 * n % t.currentHz

theorem Counts.accumulateMs (h : Counts t b n) (hpos : 0 < t.currentHz)
    (hlt : t.currentHz < 2 ^ 16) : Counts (accumulateMs t) b (n + 1) := by
  have hrest := Nat.mod_lt (1000 * n) hpos
  have hadd := Nat.mod_lt 1000 hpos
  have hdiv := Nat.add_div (a := 1000 * n) (b := 1000) hpos
  have hmod := Nat.add_mod_eq_ite (m := 1000 * n) (n := 1000) (k := t.currentHz)
  have hsum : (t.msRemainder + 1000 % t.currentHz) % 2 ^ 32 =
      1000 * n % t.currentHz + 1000 % t.currentHz := by
    rw [h.remainder]
    exact Nat.mod_eq_of_lt (by omega)
  have hms : (t.ms + 1000 / t.currentHz) % 2 ^ 64 =
      (b + (1000 * n / t.currentHz + 1000 / t.currentHz)) % 2 ^ 64 := by
    rw [h.ms, Nat.mod_add_mod, Nat.add_assoc]
  by_cases hcarry : t.currentHz ≤ 1000 * n % t.currentHz + 1000 % t.currentHz
  · rw [if_pos hcarry] at hdiv hmod
    have hstep : Timer.accumulateMs t = { t with
        ms := ((t.ms + 1000 / t.currentHz) % 2 ^ 64 + 1) % 2 ^ 64
        msRemainder := 1000 * n % t.currentHz + 1000 % t.currentHz - t.currentHz } := by
      simp only [Timer.accumulateMs, hsum]
      exact if_pos hcarry
    rw [hstep]
    refine ⟨?_, hmod.symm⟩
    dsimp only
    rw [hms, Nat.mod_add_mod, Nat.mul_succ, hdiv, Nat.add_assoc]
  · rw [if_neg hcarry] at hdiv hmod
    have hstep : Timer.accumulateMs t = { t with
        ms := (t.ms + 1000 / t.currentHz) % 2 ^ 64
        msRemainder := 1000 * n % t.currentHz + 1000 % t.currentHz } := by
      simp only [Timer.accumulateMs, hsum]
      exact if_neg hcarry
    rw [hstep]
    refine ⟨?_, hmod.symm⟩
    dsimp only
    rw [hms, Nat.mul_succ, hdiv, Nat.add_zero]

theorem Counts.timerHandler (h : Counts t b n) (hpos : 0 < t.currentHz)
    (hlt : t.currentHz < 2 ^ 16) (y : Nat) : Counts (timerHandler t y).1 b (n + 1) := by
  have hcount : Counts { t with ticks := (t.ticks + 1) % 2 ^ 64 } b n := ⟨h.ms, h.remainder⟩
  obtain ⟨hms, hrem⟩ := hcount.accumulateMs hpos hlt
  rw [accumulateMs_currentHz] at hms hrem
  unfold Timer.timerHandler
  dsimp only
  split
  · refine ⟨?_, ?_⟩
    · simpa using hms
    · simpa using hrem
  · refine ⟨?_, ?_⟩
    · simpa using hms
    · simpa using hrem

theorem timerHandler_currentHz (t : State) (y : Nat) :
    (timerHandler t y).1.currentHz = t.currentHz := by
  unfold timerHandler
  dsimp only
  split
  · simp
  · simp

theorem setRefreshRate_cases (t : State) (y hz : Nat) :
    isSupportedRefreshRate hz = false ∧ setRefreshRate t y hz = (-1, t) ∨
      isSupportedRefreshRate hz = true ∧ (setRefreshRate t y hz).1 = 0 ∧
        (setRefreshRate t y hz).2.ms = t.ms ∧ (setRefreshRate t y hz).2.currentHz = hz ∧
        (setRefreshRate t y hz).2.msRemainder = 0 := by
  unfold setRefreshRate
  cases isSupportedRefreshRate hz with
  | false => exact Or.inl ⟨rfl, rfl⟩
  | true => exact Or.inr ⟨rfl, rfl, rfl, rfl, rfl⟩

/-! ## All runs -/

/-- The time since the rate was last set is counted in full, and what was lost before is less than
a millisecond for each setting but the first. -/
structure Tracks (c : Clock) : Prop where
  lower : (c.setMs : ℚ) + 1000 * c.since / c.timer.currentHz ≤ c.elapsed
  upper : c.elapsed + 1 ≤ c.setMs + 1000 * c.since / c.timer.currentHz + c.settings

structure Inv (c : Clock) : Prop where
  rate : isSupportedRefreshRate c.timer.currentHz = true
  counts : Counts c.timer c.setMs c.since
  tracks : c.elapsed < 2 ^ 64 → Tracks c

/-- The milliseconds and the rest since the rate was last set are exact, and the clock is never ahead
of the ticks and behind them by less than a millisecond for each setting. -/
structure Exact (c : Clock) : Prop where
  ms : c.timer.ms = c.setMs + 1000 * c.since / c.timer.currentHz
  remainder : c.timer.msRemainder = 1000 * c.since % c.timer.currentHz
  notAhead : (c.timer.ms : ℚ) ≤ c.elapsed
  notBehind : c.elapsed < c.timer.ms + c.settings

theorem div_add_mod_div (a : Nat) {b : Nat} (hb : 0 < b) :
    (a : ℚ) / b = (a / b : Nat) + (a % b : Nat) / b := by
  have hb' : (b : ℚ) ≠ 0 := Nat.cast_ne_zero.mpr (Nat.pos_iff_ne_zero.mp hb)
  have hcast : (b : ℚ) * (a / b : Nat) + (a % b : Nat) = a := by exact_mod_cast Nat.div_add_mod a b
  field_simp
  linarith

theorem Inv.exact (h : Inv c) (hsmall : c.elapsed < 2 ^ 64) : Exact c := by
  obtain ⟨hpos, _⟩ := supported_bounds h.rate
  obtain ⟨hlower, hupper⟩ := h.tracks hsmall
  have hdiv := div_add_mod_div (1000 * c.since) hpos
  have hrate : (0 : ℚ) < c.timer.currentHz := Nat.cast_pos.mpr hpos
  have hnonneg : (0 : ℚ) ≤ (1000 * c.since % c.timer.currentHz : Nat) / c.timer.currentHz := by
    positivity
  have hless : ((1000 * c.since % c.timer.currentHz : Nat) : ℚ) / c.timer.currentHz < 1 := by
    rw [div_lt_one hrate]
    exact_mod_cast Nat.mod_lt _ hpos
  push_cast at hdiv
  have hms : c.timer.ms = c.setMs + 1000 * c.since / c.timer.currentHz := by
    rw [h.counts.ms]
    apply Nat.mod_eq_of_lt
    have hlt : ((c.setMs + 1000 * c.since / c.timer.currentHz : Nat) : ℚ) < (2 ^ 64 : Nat) := by
      push_cast
      linarith
    exact_mod_cast hlt
  refine ⟨hms, h.counts.remainder, ?_, ?_⟩
  · rw [hms]
    push_cast
    linarith
  · rw [hms]
    push_cast
    linarith

theorem inv_start (freq : Nat) : Inv (Clock.start freq) where
  rate := initTimer_supported boot freq
  counts := by
    refine ⟨?_, ?_⟩
    · simp [Clock.start, initTimer, boot]
    · simp [Clock.start, initTimer]
  tracks _ := by
    refine ⟨?_, ?_⟩
    · simp [Clock.start]
    · simp [Clock.start]

theorem Inv.tick (h : Inv c) (y : Nat) : Inv (c.step (.tick y)) := by
  obtain ⟨hpos, hlt⟩ := supported_bounds h.rate
  have hrate : (timerHandler c.timer y).1.currentHz = c.timer.currentHz :=
    timerHandler_currentHz c.timer y
  refine ⟨?_, h.counts.timerHandler hpos hlt y, fun hsmall => ?_⟩
  · show isSupportedRefreshRate (timerHandler c.timer y).1.currentHz = true
    rw [hrate]
    exact h.rate
  · have htick : (0 : ℚ) ≤ 1000 / c.timer.currentHz := by positivity
    have hnow : c.elapsed + 1000 / c.timer.currentHz < 2 ^ 64 := hsmall
    obtain ⟨hlower, hupper⟩ := h.tracks (by linarith)
    have hsum : (1000 : ℚ) * (c.since + 1 : Nat) / c.timer.currentHz =
        1000 * c.since / c.timer.currentHz + 1000 / c.timer.currentHz := by
      push_cast
      ring
    constructor
    · show (c.setMs : ℚ) + 1000 * (c.since + 1 : Nat) / (timerHandler c.timer y).1.currentHz ≤
        c.elapsed + 1000 / c.timer.currentHz
      rw [hrate, hsum]
      linarith
    · show c.elapsed + 1000 / c.timer.currentHz + 1 ≤
        c.setMs + 1000 * (c.since + 1 : Nat) / (timerHandler c.timer y).1.currentHz + c.settings
      rw [hrate, hsum]
      linarith

/-- What was carried is lost when the rate is set: it is less than a millisecond. -/
theorem Inv.setRate (h : Inv c) (y hz : Nat) : Inv (c.step (.setRate y hz)) := by
  rcases setRefreshRate_cases c.timer y hz with ⟨_, heq⟩ | ⟨hsup, hret, hms, hrate, hrem⟩
  · have hstep : c.step (.setRate y hz) = c := by
      rw [Clock.step, heq]
      rfl
    rw [hstep]
    exact h
  · have hstep : c.step (.setRate y hz) =
        { c with
          timer := (setRefreshRate c.timer y hz).2
          setMs := c.timer.ms
          since := 0
          settings := c.settings + 1 } := if_pos hret
    rw [hstep]
    refine ⟨hrate.symm ▸ hsup, ⟨?_, ?_⟩, fun hsmall => ?_⟩
    · dsimp only
      rw [hms, Nat.mul_zero, Nat.zero_div, Nat.add_zero, h.counts.ms, Nat.mod_mod]
    · dsimp only
      rw [hrem, Nat.mul_zero, Nat.zero_mod]
    · have hexact := h.exact hsmall
      constructor
      · simpa using hexact.notAhead
      · have hnotBehind := hexact.notBehind
        simp
        linarith

theorem Inv.step (h : Inv c) (op : Op) : Inv (c.step op) := by
  cases op with
  | tick y => exact h.tick y
  | setRate y hz => exact h.setRate y hz

theorem inv_clockAt (freq : Nat) (ops : List Op) (n : Nat) : Inv (clockAt freq ops n) :=
  after_induction (C := fun _ _ => True) (inv_start freq) (fun _ op h _ => h.step op)
    (fun _ _ _ => trivial) n

theorem ms_le_step (h : Inv c) (op : Op) (hsmall : (c.step op).elapsed < 2 ^ 64) :
    c.timer.ms ≤ (c.step op).timer.ms := by
  cases op with
  | tick y =>
    have htick : (0 : ℚ) ≤ 1000 / c.timer.currentHz := by positivity
    have hnow : c.elapsed + 1000 / c.timer.currentHz < 2 ^ 64 := hsmall
    have hafter := ((h.tick y).exact hsmall).ms
    have hrate : (c.step (.tick y)).timer.currentHz = c.timer.currentHz :=
      timerHandler_currentHz c.timer y
    rw [hrate] at hafter
    rw [(h.exact (by linarith)).ms, hafter]
    exact Nat.add_le_add_left (Nat.div_le_div_right (Nat.mul_le_mul_left _ (Nat.le_succ _))) _
  | setRate y hz =>
    apply le_of_eq
    rcases setRefreshRate_cases c.timer y hz with ⟨_, heq⟩ | ⟨_, hret, hms, _⟩
    · simp [Clock.step, heq]
    · simp [Clock.step, hret, hms]

/-- In every run, `timer_ms` modulo 2 ^ 64 and the rest are exact. As long as the ticks make less
than 2 ^ 64 milliseconds, so is `timer_ms`, it never decreases, and it is behind by less than a
millisecond for each time that the rate was set. -/
theorem clock_no_drift (freq : Nat) (ops : List Op) (n : Nat) :
    Counts (clockAt freq ops n).timer (clockAt freq ops n).setMs (clockAt freq ops n).since ∧
      ((clockAt freq ops n).elapsed < 2 ^ 64 → Exact (clockAt freq ops n)) ∧
      ((clockAt freq ops (n + 1)).elapsed < 2 ^ 64 →
        (clockAt freq ops n).timer.ms ≤ (clockAt freq ops (n + 1)).timer.ms) := by
  have hinv := inv_clockAt freq ops n
  refine ⟨hinv.counts, hinv.exact, fun hsmall => ?_⟩
  cases hop : ops[n]? with
  | none =>
    rw [clockAt, clockAt, after_succ_none hop]
  | some op =>
    have hnext : clockAt freq ops (n + 1) = (clockAt freq ops n).step op := after_succ hop
    rw [hnext] at hsmall ⊢
    exact ms_le_step hinv op hsmall

/-! ## CPU usage -/

/-- The idle ticks are some of the ticks of this second, and the usage is a percentage. -/
structure Usage (t : State) : Prop where
  idle : t.cpuIdleTicks ≤ t.cpuTotalTicks
  total : t.cpuTotalTicks < t.currentHz
  usage : t.currentCpuUsage ≤ 100

theorem Usage.trackCpu (h : Usage t) (hlt : t.currentHz < 2 ^ 16) (y : Nat) :
    Usage (trackCpu t y) := by
  have hidle := h.idle
  have htotal := h.total
  have hnext : (t.cpuTotalTicks + 1) % 2 ^ 32 = t.cpuTotalTicks + 1 := Nat.mod_eq_of_lt (by omega)
  obtain ⟨i, hi, hle⟩ : ∃ i, (if y ≠ t.prevYieldSnapshot then (t.cpuIdleTicks + 1) % 2 ^ 32
      else t.cpuIdleTicks) = i ∧ i ≤ t.cpuTotalTicks + 1 := by
    refine ⟨_, rfl, ?_⟩
    split
    · exact le_trans (Nat.mod_le _ _) (by omega)
    · omega
  unfold Timer.trackCpu
  dsimp only
  rw [hi, hnext]
  split
  · refine ⟨le_refl 0, Nat.zero_lt_of_lt htotal, ?_⟩
    have hshare : i * 100 % 2 ^ 32 / (t.cpuTotalTicks + 1) ≤ 100 := by
      apply Nat.div_le_of_le_mul
      rw [Nat.mul_comm]
      exact le_trans (Nat.mod_le _ _) (by omega)
    dsimp only
    generalize i * 100 % 2 ^ 32 / (t.cpuTotalTicks + 1) = share at hshare ⊢
    omega
  · next hlt' => exact ⟨hle, Nat.lt_of_not_le hlt', h.usage⟩

theorem Usage.accumulateMs (h : Usage t) : Usage (accumulateMs t) := by
  unfold Timer.accumulateMs
  dsimp only
  split
  · exact ⟨h.idle, h.total, h.usage⟩
  · exact ⟨h.idle, h.total, h.usage⟩

theorem Usage.timerHandler (h : Usage t) (hlt : t.currentHz < 2 ^ 16) (y : Nat) :
    Usage (timerHandler t y).1 := by
  have hticks : Usage { t with ticks := (t.ticks + 1) % 2 ^ 64 } := ⟨h.idle, h.total, h.usage⟩
  have htrack := hticks.accumulateMs.trackCpu (by simpa using hlt) y
  unfold Timer.timerHandler
  dsimp only
  split
  · exact ⟨htrack.idle, htrack.total, htrack.usage⟩
  · exact htrack

theorem Usage.setRefreshRate (h : Usage t) (y hz : Nat) : Usage (setRefreshRate t y hz).2 := by
  unfold Timer.setRefreshRate
  cases hsup : isSupportedRefreshRate hz with
  | false => exact h
  | true => exact ⟨le_refl 0, (supported_bounds hsup).1, h.usage⟩

theorem Usage.step (hu : Usage c.timer) (h : Inv c) (op : Op) : Usage (c.step op).timer := by
  cases op with
  | tick y => exact hu.timerHandler (supported_bounds h.rate).2 y
  | setRate y hz =>
    rw [Clock.step]
    split
    · exact hu.setRefreshRate y hz
    · exact hu.setRefreshRate y hz

/-- The usage that `timer_get_cpu_usage` returns is a percentage in every run. -/
theorem cpu_usage_le (freq : Nat) (ops : List Op) (n : Nat) :
    (clockAt freq ops n).timer.currentCpuUsage ≤ 100 := by
  have hboth : Inv (clockAt freq ops n) ∧ Usage (clockAt freq ops n).timer := by
    refine after_induction (P := fun c => Inv c ∧ Usage c.timer) (C := fun _ _ => True)
      ⟨inv_start freq, ?_⟩ (fun _ op h _ => ⟨h.1.step op, h.2.step h.1 op⟩)
      (fun _ _ _ => trivial) n
    exact ⟨le_refl 0, (supported_bounds (initTimer_supported boot freq)).1, Nat.zero_le 100⟩
  exact hboth.2.usage

/-! ## The counter wraps -/

theorem ticks_only (freq N : Nat) (hn : n ≤ N) :
    (clockAt freq (List.replicate N (Op.tick 0)) n).setMs = 0 ∧
      (clockAt freq (List.replicate N (Op.tick 0)) n).since = n ∧
      (clockAt freq (List.replicate N (Op.tick 0)) n).timer.currentHz =
        (initTimer boot freq).currentHz := by
  induction n with
  | zero =>
    rw [clockAt, after_zero]
    exact ⟨rfl, rfl, rfl⟩
  | succ n ih =>
    obtain ⟨hset, hsince, hrate⟩ := ih (Nat.le_of_succ_le hn)
    have hop : (List.replicate N (Op.tick 0))[n]? = some (Op.tick 0) := by
      rw [List.getElem?_replicate, if_pos (Nat.lt_of_succ_le hn)]
    rw [clockAt, after_succ hop, ← clockAt]
    refine ⟨hset, congrArg Nat.succ hsince, ?_⟩
    rw [← hrate]
    exact timerHandler_currentHz _ 0

theorem Inv.ms_lt (h : Inv c) : c.timer.ms < 2 ^ 64 := by
  rw [h.counts.ms]
  exact Nat.mod_lt _ (Nat.two_pow_pos 64)

/-- The milliseconds of 2 ^ 64 ticks at 100 Hz do not fit in `timer_ms`. -/
theorem clock_wraps :
    ¬ ∀ (freq : Nat) (ops : List Op) (n : Nat), Exact (clockAt freq ops n) := by
  intro hall
  -- A variable, so that no step evaluates a list of this length.
  obtain ⟨N, hN⟩ : ∃ N, N = 2 ^ 64 := ⟨_, rfl⟩
  obtain ⟨hset, hsince, hrate⟩ := ticks_only 100 N (le_refl N)
  have hhz : (initTimer boot 100).currentHz = 100 := rfl
  have hms := (hall 100 (List.replicate N (Op.tick 0)) N).ms
  rw [hset, hsince, hrate, hhz] at hms
  have hlt := (inv_clockAt 100 (List.replicate N (Op.tick 0)) N).ms_lt
  rw [hms] at hlt
  omega

end Kyuzen.Timer
