import Kyuzen.Ping.Model
import Kyuzen.Sched.Runnable

/-!
# Which host is pinged, and who spins

In a run whose steps are `orderly`, every address that is passed to `net_ping_once` was reported for
the host of the call, and no CPU spins on `ping_busy` while the holder waits for this CPU or for its
timer interrupt (`ping_safe`). Without the condition both fail (`ping_unsafe`): the callback of a
request that has timed out writes its address for the next call, and the holder, which has enabled
interrupts, can be preempted by a task that then spins on the same CPU.
-/

namespace Kyuzen.Ping

open Sched (InCall Placed Op)

/-- The task holds `ping_busy`. -/
def Pc.locked : Pc → Bool
  | .outside | .spin => false
  | _ => true

/-- What the holder knows of the address that it will use. -/
def Pc.Known (host : Host) (result : Nat) (reported : List (Host × Nat)) : Pc → Prop
  | .query | .waitDns | .checkDone | .checkResult => result = 0 ∨ (host, result) ∈ reported
  | .take => (host, result) ∈ reported
  | .send dest _ _ _ | .wait dest _ _ _ | .close dest _ _ _ _ | .pause dest _ _ _ =>
    (host, dest) ∈ reported
  | _ => True

/-- Where a spinning task is, and that the holder does not wait there. -/
def State.SpinsApart (s : State) (t : Nat) (busy : Option Nat) : Prop :=
  ∃ c, c ≠ 0 ∧ c < Sched.smpMaxCpus ∧ s.machine.sched.current c = some t ∧
    ∀ h, busy = some h → h ∉ s.machine.sched.runq c

structure Inv (s : State) : Prop where
  placed : Placed s.machine
  inCall : ∀ t, s.pc t ≠ .outside → InCall s.machine t
  spins : ∀ t, s.pc t = .spin → s.SpinsApart t s.busy
  holder : ∀ t, s.busy = some t ↔ (s.pc t).locked = true
  known : ∀ t, (s.pc t).Known (s.host t) s.dnsResult s.reported
  right : RightHost s

variable {s s' : State} {t u cpu : Nat} {pc : Pc} {host : Host} {a : Answers}

theorem Pc.known_of_not_locked {result : Nat} {reported : List (Host × Nat)}
    (h : pc.locked = false) : pc.Known host result reported := by
  cases pc <;> first | exact trivial | cases h

theorem Pc.ne_outside (h : pc.locked = true) : pc ≠ .outside := by
  rintro rfl
  cases h

/-- Who does not hold the lock knows nothing that could become wrong. -/
theorem Inv.known_of_holder (h : Inv s) {result : Nat} {reported : List (Host × Nat)}
    (hholder : ∀ t, s.busy = some t → (s.pc t).Known (s.host t) result reported) (t : Nat) :
    (s.pc t).Known (s.host t) result reported := by
  cases hlocked : (s.pc t).locked with
  | false => exact Pc.known_of_not_locked hlocked
  | true => exact hholder t ((h.holder t).mpr hlocked)

/-! ## Steps of the scheduler -/

theorem allows_schedule {regs now c : Nat} (h : s.allows (.schedule c regs now) = true)
    (hcur : s.machine.sched.current c = some t) : s.pc t ≠ .spin := by
  intro hpc
  simp [State.allows, State.spinsOn, hcur, hpc] at h

theorem allows_stops {op : Op} (h : s.allows op = true) {c : Nat} (hop : op.stops = some c)
    (hcur : s.machine.sched.current c = some t) : s.pc t = .outside := by
  have hall : s.outsideOn c = true := by
    cases op with
    | block cpu st =>
      obtain rfl := Option.some.inj hop
      exact h
    | exitEnter cpu =>
      obtain rfl := Option.some.inj hop
      exact h
    | schedule cpu regs now => cases hop
    | create new who => cases hop
    | unblock u => cases hop
    | push i cpu now => cases hop
    | exitLocked cpu => cases hop
    | idle cpu => cases hop
  simpa [State.outsideOn, hcur] using hall

theorem Inv.sched (h : Inv s) {op : Op} (hop : op.Enabled s.machine) (hallow : s.allows op = true)
    (hown : Sched.OnOwnCpu s.machine op) : Inv { s with machine := Sched.exec s.machine op } where
  placed := Sched.exec_placed h.placed hop hown
  inCall t ht := by
    apply Sched.exec_inCall h.placed hop hown (h.inCall t ht)
    intro c hstop hcur
    exact ht (allows_stops (s := s) hallow hstop (Sched.curRunning_eq_some hcur).1)
  spins t ht := by
    obtain ⟨c, hzero, hc, hcur, hfree⟩ := h.spins t ht
    have hsched : ∀ regs now, op ≠ .schedule c regs now := by
      rintro regs now rfl
      exact allows_schedule hallow hcur ht
    have htIn : InCall s.machine t := h.inCall t (by rw [ht]; simp)
    refine ⟨c, hzero, hc, Sched.exec_current h.placed hop hown htIn hcur hsched, ?_⟩
    intro u hu
    have huIn : InCall s.machine u := h.inCall u (Pc.ne_outside ((h.holder u).mp hu))
    exact Sched.exec_runq h.placed hop hown huIn (hfree u hu) hsched
  holder := h.holder
  known := h.known
  right := h.right

/-! ## Steps of a task -/

/-- The globals change, in a way that the holder allows. -/
theorem Inv.congr (h : Inv s) (hmachine : s'.machine = s.machine) (hpc : s'.pc = s.pc)
    (hhost : s'.host = s.host) (hbusy : s'.busy = s.busy)
    (hknown : ∀ t, s.busy = some t → (s.pc t).Known (s.host t) s'.dnsResult s'.reported)
    (hright : RightHost s') : Inv s' where
  placed := by rw [hmachine]; exact h.placed
  inCall := by rw [hmachine, hpc]; exact h.inCall
  spins := by unfold State.SpinsApart; rw [hmachine, hpc, hbusy]; exact h.spins
  holder := by rw [hpc, hbusy]; exact h.holder
  known := by rw [hpc, hhost]; exact h.known_of_holder hknown
  right := hright

/-- One task goes on, and the lock may get another holder, who is on no queue. -/
theorem Inv.move (h : Inv s) (busy : Option Nat) (hin : pc ≠ .outside → InCall s.machine t)
    (hspin : pc = .spin → s.SpinsApart t busy)
    (hfree : ∀ v, busy = some v → s.busy = some v ∨
      ∀ c, c < Sched.smpMaxCpus → v ∉ s.machine.sched.runq c)
    (hself : busy = some t ↔ pc.locked = true)
    (hother : ∀ u, u ≠ t → (busy = some u ↔ s.busy = some u))
    (hknown : pc.Known (s.host t) s.dnsResult s.reported) :
    Inv { s.setPc t pc with busy := busy } := by
  refine ⟨h.placed, fun u hu => ?_, fun u hu => ?_, fun u => ?_, fun u => ?_, h.right⟩
  · by_cases hut : u = t
    · subst hut
      simp only [State.setPc, Function.update_self] at hu
      exact hin hu
    · simp only [State.setPc, Function.update_of_ne hut] at hu
      exact h.inCall u hu
  · by_cases hut : u = t
    · subst hut
      simp only [State.setPc, Function.update_self] at hu
      exact hspin hu
    · simp only [State.setPc, Function.update_of_ne hut] at hu
      obtain ⟨c, hzero, hc, hcur, hold⟩ := h.spins u hu
      refine ⟨c, hzero, hc, hcur, fun v hv => ?_⟩
      cases hfree v hv with
      | inl hbusy => exact hold v hbusy
      | inr hno => exact hno c hc
  · by_cases hut : u = t
    · subst hut
      simp only [State.setPc, Function.update_self]
      exact hself
    · simp only [State.setPc, Function.update_of_ne hut]
      exact (hother u hut).trans (h.holder u)
  · by_cases hut : u = t
    · subst hut
      simp only [State.setPc, Function.update_self]
      exact hknown
    · simp only [State.setPc, Function.update_of_ne hut]
      exact h.known u

/-- The holder goes on. -/
theorem Inv.setPc (h : Inv s) (pc : Pc) (ht : (s.pc t).locked = true) (hpc : pc.locked = true)
    (hknown : pc.Known (s.host t) s.dnsResult s.reported) : Inv (s.setPc t pc) := by
  have hbusy := (h.holder t).mpr ht
  apply h.move s.busy
  · exact fun _ => h.inCall t (Pc.ne_outside ht)
  · rintro rfl
    cases hpc
  · exact fun v hv => Or.inl hv
  · exact iff_of_true hbusy hpc
  · exact fun u _ => Iff.rfl
  · exact hknown

theorem Inv.acquire (h : Inv s) (hbusy : s.busy = none) (hin : InCall s.machine t)
    (hrun : (s.machine.sched.tasks t).state = .running) : Inv (s.acquire t) := by
  apply h.move (some t)
  · exact fun _ => hin
  · intro hpc
    cases hpc
  · -- the new holder runs, and is on no queue
    intro v hv
    right
    intro c hc hmem
    obtain rfl := Option.some.inj hv
    have hready := h.placed.fits.ready_of_mem hc hmem
    rw [hrun] at hready
    cases hready
  · exact iff_of_true rfl rfl
  · intro u hu
    rw [hbusy]
    exact iff_of_false (fun hc => hu (Option.some.inj hc).symm) (fun hc => by cases hc)
  · trivial

/-- The argument of a new call. -/
theorem Inv.setHost (h : Inv s) (ht : s.pc t = .outside) (host : Host) :
    Inv { s with host := Function.update s.host t host } := by
  refine ⟨h.placed, h.inCall, h.spins, h.holder, fun u => ?_, h.right⟩
  by_cases hut : u = t
  · subst hut
    dsimp only
    rw [ht]
    trivial
  · dsimp only
    rw [Function.update_of_ne hut]
    exact h.known u

theorem Inv.spin (h : Inv s) (hin : InCall s.machine t) (ht : s.pc t = .outside)
    (hspin : s.SpinsApart t s.busy) : Inv (s.setPc t .spin) := by
  apply h.move s.busy
  · exact fun _ => hin
  · exact fun _ => hspin
  · exact fun v hv => Or.inl hv
  · have hold := h.holder t
    rw [ht] at hold
    exact hold
  · exact fun u _ => Iff.rfl
  · trivial

theorem Inv.release (h : Inv s) (ht : (s.pc t).locked = true) :
    Inv { s.setPc t .outside with busy := none } := by
  have hbusy := (h.holder t).mpr ht
  apply h.move none
  · exact fun hc => absurd rfl hc
  · intro hpc
    cases hpc
  · intro v hv
    cases hv
  · exact iff_of_false (fun hc => by cases hc) (fun hc => by cases hc)
  · intro u hu
    rw [hbusy]
    exact iff_of_false (fun hc => by cases hc) (fun hc => hu (Option.some.inj hc).symm)
  · trivial

/-! ## The steps of `kernel_ping` -/

theorem Inv.enter (h : Inv s) (hrun : Sched.curRunning s.machine.sched cpu = some t)
    (hcpu : cpu < Sched.smpMaxCpus) (ht : s.pc t = .outside) (hexit : s.machine.exitCpu t = none)
    (hfree : s.busy.all (fun u => cpu ≠ 0 && u ∉ s.machine.sched.runq cpu) = true) :
    Inv (s.enter t host) := by
  obtain ⟨hcur, _, hstate⟩ := Sched.curRunning_eq_some hrun
  have hin : InCall s.machine t := by
    refine ⟨by rw [hstate]; rfl, ?_, hexit⟩
    have hqueue := h.placed.fits.queue t
    rw [hstate, if_neg (by simp)] at hqueue
    omega
  have hhost := h.setHost ht host
  unfold State.enter
  dsimp only
  split_ifs with hempty hbusy
  · exact h
  · exact hhost.acquire hbusy hin hstate
  · obtain ⟨u, hu⟩ := Option.ne_none_iff_exists'.mp hbusy
    rw [hu, Option.all_some, Bool.and_eq_true, decide_eq_true_eq, decide_eq_true_eq] at hfree
    apply hhost.spin hin ht
    refine ⟨cpu, hfree.1, hcpu, hcur, fun v hv => ?_⟩
    obtain rfl := Option.some.inj (hu.symm.trans hv)
    exact hfree.2

theorem afterPing_locked (dest i total success : Nat) (rtt : Option Nat) :
    (State.afterPing dest i total success rtt).locked = true := by
  unfold State.afterPing
  dsimp only
  split_ifs <;> rfl

theorem afterPing_known {dest result : Nat} {reported : List (Host × Nat)}
    (h : (host, dest) ∈ reported) (i total success : Nat) (rtt : Option Nat) :
    (State.afterPing dest i total success rtt).Known host result reported := by
  unfold State.afterPing
  by_cases hi : i < 3
  · rw [if_pos hi]
    exact h
  · rw [if_neg hi]
    trivial

theorem RightHost.cons {e : Host × Nat} (h : RightHost s) (he : e ∈ s.reported) :
    RightHost { s with sent := e :: s.sent } := by
  intro x hx
  cases List.mem_cons.mp hx with
  | inl heq =>
    rw [heq]
    exact he
  | inr hmem => exact h x hmem

/-- The holder changes the globals. -/
theorem Inv.write (h : Inv s) (ht : (s.pc t).locked = true) (hmachine : s'.machine = s.machine)
    (hpc : s'.pc = s.pc) (hhost : s'.host = s.host) (hbusy : s'.busy = s.busy)
    (hknown : (s.pc t).Known (s.host t) s'.dnsResult s'.reported) (hright : RightHost s') :
    Inv s' := by
  apply h.congr hmachine hpc hhost hbusy _ hright
  intro u hu
  obtain rfl := Option.some.inj (((h.holder t).mpr ht).symm.trans hu)
  exact hknown

theorem Inv.next (h : Inv s) (hrun : Sched.curRunning s.machine.sched cpu = some t)
    (a : Answers) : Inv (s.next t a) := by
  have hknown := h.known t
  have hgo : ∀ {pc}, (s.pc t).locked = true → pc.locked = true →
      pc.Known (s.host t) s.dnsResult s.reported → Inv (s.setPc t pc) := h.setPc _
  have hwrite : ∀ {s' : State}, (s.pc t).locked = true → s'.machine = s.machine → s'.pc = s.pc →
      s'.host = s.host → s'.busy = s.busy → (s.pc t).Known (s.host t) s'.dnsResult s'.reported →
      RightHost s' → Inv s' := h.write
  unfold State.next
  cases hpc : s.pc t with
  | outside => exact h
  | spin =>
    dsimp only
    split_ifs with hbusy
    · exact h.acquire hbusy (h.inCall t (by rw [hpc]; simp)) (Sched.curRunning_eq_some hrun).2.2
    · exact h
  | checkIp =>
    rw [hpc] at hgo
    dsimp only
    split_ifs
    · exact hgo rfl rfl trivial
    · exact hgo rfl rfl trivial
  | clearDone =>
    rw [hpc] at hwrite
    have hcleared : Inv { s with dnsDone := false } := hwrite rfl rfl rfl rfl rfl trivial h.right
    exact hcleared.setPc .clearResult (by rw [hpc]; rfl) rfl trivial
  | clearResult =>
    rw [hpc] at hwrite
    have hcleared : Inv { s with dnsResult := 0 } := hwrite rfl rfl rfl rfl rfl trivial h.right
    exact hcleared.setPc .query (by rw [hpc]; rfl) rfl (Or.inl rfl)
  | query =>
    rw [hpc] at hknown hgo hwrite
    cases a.dns with
    | ok addr =>
      have hfound : Inv { s with
          dnsResult := addr
          dnsDone := true
          reported := (s.host t, addr) :: s.reported } := by
        refine hwrite rfl rfl rfl rfl rfl (Or.inr List.mem_cons_self) ?_
        exact fun e he => List.mem_cons_of_mem _ (h.right e he)
      exact hfound.setPc .checkDone (by rw [hpc]; rfl) rfl (Or.inr List.mem_cons_self)
    | inProgress =>
      have hasked : Inv { s with asked := s.host t :: s.asked } :=
        hwrite rfl rfl rfl rfl rfl hknown h.right
      exact hasked.setPc .waitDns (by rw [hpc]; rfl) rfl hknown
    | failed => exact hgo rfl rfl hknown
  | waitDns =>
    rw [hpc] at hknown hgo
    dsimp only
    split_ifs
    · exact hgo rfl rfl hknown
    · exact h
  | checkDone =>
    rw [hpc] at hknown hgo
    dsimp only
    split_ifs
    · exact hgo rfl rfl hknown
    · exact hgo rfl rfl trivial
  | checkResult =>
    rw [hpc] at hknown hgo
    dsimp only
    split_ifs with hzero
    · exact hgo rfl rfl trivial
    · exact hgo rfl rfl (hknown.resolve_left hzero)
  | take =>
    rw [hpc] at hknown hgo
    exact hgo rfl rfl hknown
  | send dest i total success =>
    rw [hpc] at hknown hwrite
    have hright := h.right.cons hknown
    have hsent : Inv { s with sent := (s.host t, dest) :: s.sent } :=
      hwrite rfl rfl rfl rfl rfl hknown hright
    have hopened : Inv { s with
        sent := (s.host t, dest) :: s.sent, pingPcb := true, pingDone := false, pingRtt := 0 } :=
      hwrite rfl rfl rfl rfl rfl hknown hright
    have hlocked : (s.pc t).locked = true := by
      rw [hpc]
      rfl
    dsimp only
    split_ifs
    · exact hopened.setPc _ hlocked rfl hknown
    · exact hopened.setPc _ hlocked rfl hknown
    · exact hsent.setPc _ hlocked (afterPing_locked _ _ _ _ _) (afterPing_known hknown _ _ _ _)
  | wait dest i total success =>
    rw [hpc] at hknown hgo
    dsimp only
    split_ifs
    · exact hgo rfl rfl hknown
    · exact h
  | close dest i total success ok =>
    rw [hpc] at hknown hwrite
    have hclosed : Inv { s with pingPcb := false } :=
      hwrite rfl rfl rfl rfl rfl hknown h.right
    exact hclosed.setPc _ (by rw [hpc]; rfl) (afterPing_locked _ _ _ _ _)
      (afterPing_known hknown _ _ _ _)
  | pause dest i total success =>
    rw [hpc] at hknown hgo
    dsimp only
    split_ifs
    · exact hgo rfl rfl hknown
    · exact h
  | unlock ret => exact h.release (by rw [hpc]; rfl)

/-! ## The callbacks -/

section Known

variable {result addr : Nat} {reported reported' : List (Host × Nat)}

/-- A failure is read before the address is taken. -/
theorem Pc.Known.failed (h : pc.Known host result reported) (htake : pc ≠ .take) :
    pc.Known host 0 reported := by
  cases pc <;> first | exact trivial | exact h | exact Or.inl rfl | exact absurd rfl htake

theorem Pc.Known.found (h : pc.Known host result reported) (haddr : (host, addr) ∈ reported')
    (hmore : ∀ e ∈ reported, e ∈ reported') : pc.Known host addr reported' := by
  cases pc <;> first | exact trivial | exact hmore _ h | exact haddr | exact Or.inr haddr

/-- Who does not resolve a host does not read the result. -/
theorem Pc.Known.unread (h : pc.Known host result reported) (hpc : pc.resolves = false)
    (hmore : ∀ e ∈ reported, e ∈ reported') : pc.Known host addr reported' := by
  cases pc <;> first | exact trivial | exact hmore _ h | cases hpc

end Known

theorem Inv.dnsFoundCb (h : Inv s) {addr : Option Nat}
    (htimely : s.busy.all (fun u => s.timely u host addr) = true) :
    Inv (s.dnsFoundCb host addr) := by
  have hmore : ∀ e ∈ s.reported, e ∈ addr.toList.map (fun a => (host, a)) ++ s.reported :=
    fun e he => List.mem_append_right _ he
  unfold State.dnsFoundCb
  split_ifs
  · refine h.congr rfl rfl rfl rfl (fun u hu => ?_) fun e he => hmore e (h.right e he)
    rw [hu, Option.all_some] at htimely
    cases addr with
    | none =>
      have htake : s.pc u ≠ .take := by simpa [State.timely] using htimely
      exact (h.known u).failed htake
    | some addr =>
      have hcases : host = s.host u ∨ (s.pc u).resolves = false := by
        simpa [State.timely] using htimely
      cases hcases with
      | inl hhost =>
        subst hhost
        exact (h.known u).found (List.mem_append_left _ List.mem_cons_self) hmore
      | inr hpc => exact (h.known u).unread hpc hmore
  · exact h

theorem Inv.step (h : Inv s) (e : Event) (he : orderly s e = true) : Inv (step s e) := by
  cases e with
  | sched op =>
    rw [Ping.step]
    split_ifs with hop
    · exact h.sched hop.1 hop.2 (of_decide_eq_true he)
    · exact h
  | enter cpu host =>
    rw [Ping.step]
    split_ifs with hcpu
    · split
      · exact h
      · next t hrun =>
        split_ifs with ht
        · exact h.enter hrun (h.placed.lt_smpMaxCpus hcpu) ht.1 ht.2 he
        · exact h
    · exact h
  | next cpu a =>
    rw [Ping.step]
    split_ifs
    · split
      · exact h
      · next t hrun =>
        split_ifs
        · exact h
        · exact h.next hrun a
    · exact h
  | dnsFound host addr =>
    rw [Ping.step]
    split_ifs
    · exact h
    · exact h.dnsFoundCb he
  | dnsDone =>
    rw [Ping.step, State.dnsDoneCb]
    split_ifs
    · exact h.congr rfl rfl rfl rfl (fun u _ => h.known u) h.right
    · exact h
  | echo rtt =>
    rw [Ping.step, State.pingRecvCb]
    split_ifs
    · exact h
    · exact h.congr rfl rfl rfl rfl (fun u _ => h.known u) h.right
    · exact h

theorem start_inv {online : Nat} (h : 0 < online) (hmax : online ≤ Sched.smpMaxCpus) :
    Inv (State.start online) where
  placed := Sched.start_placed h hmax
  inCall t ht := absurd rfl ht
  spins t ht := by cases ht
  holder t := iff_of_false (fun hc => by cases hc) (fun hc => by cases hc)
  known t := trivial
  right e he := by cases he

/-- A spinning CPU is not CPU 0, and the holder does not wait for it. -/
theorem Inv.not_lockup (h : Inv s) : ¬Lockup s := by
  rintro ⟨cpu, v, hcpu, hspin, hbusy, hwait⟩
  obtain ⟨t, hcur, hpc⟩ := (Option.any_eq_true _ _).mp hspin
  obtain ⟨c, hzero, hc, hcur', hfree⟩ := h.spins t (of_decide_eq_true hpc)
  -- a task is current on one CPU only
  have hsame : c = cpu := by
    apply Lib.Places.unique_of_total (h.placed.fits.cpu t).1 hc (h.placed.lt_smpMaxCpus hcpu)
    · simp [hcur']
    · simp [hcur]
  subst hsame
  cases hwait with
  | inl hqueued => exact hfree v hbusy hqueued
  | inr htimer => exact hzero htimer.1

/-- In every run whose steps are orderly, the address that is passed to `net_ping_once` is one that
was reported for the host of the call, and no CPU spins on `ping_busy` while the holder waits for
this CPU or for its timer interrupt. -/
theorem ping_safe {online : Nat} (h : 0 < online) (hmax : online ≤ Sched.smpMaxCpus)
    (es : List Event)
    (hok : ∀ n e, es[n]? = some e → orderly (Lib.after step (State.start online) es n) e = true)
    (n : Nat) : RightHost (Lib.after step (State.start online) es n) ∧
      ¬Lockup (Lib.after step (State.start online) es n) := by
  have hinv : Inv (Lib.after step (State.start online) es n) :=
    Lib.after_induction (start_inv h hmax) (fun s e h he => h.step e he) hok n
  exact ⟨hinv.right, hinv.not_lockup⟩

/-- lwIP has an address, knows no host at once, and sends; the deadlines are not over. -/
def inTime : Answers := ⟨true, .inProgress, false, true, true⟩

/-- The same, when the deadlines are over. -/
def tooLate : Answers := { inTime with late := true }

/-- Task 1 runs on the only CPU. -/
def oneTask : List Event :=
  [.sched (.create Sched.smallTask .createTaskPrio), .sched (.push 0 0 0), .sched (.schedule 0 1 0)]

/-- The task on CPU 0 calls `kernel_ping` and waits for the address. -/
def asks (host : Host) : List Event :=
  [.enter 0 host, .next 0 inTime, .next 0 inTime, .next 0 inTime, .next 0 inTime]

/-- The address comes, and the task uses it. -/
def answered (host : Host) (addr : Nat) : List Event :=
  [.dnsFound host (some addr), .dnsDone, .next 0 inTime, .next 0 inTime, .next 0 inTime,
    .next 0 inTime, .next 0 inTime]

/-- Task 2 asks on the other CPU, while task 1 waits for its address, and spins. -/
def busyRun : List Event :=
  oneTask ++ [.sched (.create Sched.smallTask .createTaskPrio), .sched (.push 0 1 0),
    .sched (.schedule 1 1 0)] ++ asks [97] ++ [.enter 1 [98]] ++ answered [97] 7

theorem ping_safe_answered :
    let s := Lib.after step (State.start 2) busyRun 19
    (s.sent = [([97], 7)] ∧ s.spinsOn 1 = true) ∧ RightHost s ∧ ¬Lockup s := by
  refine ⟨by decide +kernel, ping_safe (by decide) (by decide) _ ?_ 19⟩
  apply Lib.after_all
  decide +kernel

/-- Task 1 waits in vain for the address of one host and then asks for another one; the address of
the first host comes, and is used for the second. -/
def lateRun : List Event :=
  oneTask ++ asks [97] ++ [.next 0 tooLate, .next 0 inTime, .next 0 inTime] ++ asks [98] ++
    answered [97] 7

/-- Task 1 holds the lock and is preempted; task 2 gets the CPU and spins. -/
def spinRun : List Event :=
  oneTask ++ asks [97] ++ [.sched (.create Sched.smallTask .createTaskPrio), .sched (.push 0 0 0),
    .sched (.schedule 0 1 0), .sched (.schedule 0 1 0), .enter 0 [98]]

theorem ping_unsafe : ¬RightHost (Lib.after step (State.start 1) lateRun 23) ∧
    Lockup (Lib.after step (State.start 1) spinRun 13) := by
  constructor
  · intro h
    have hsent : ([98], 7) ∈ (Lib.after step (State.start 1) lateRun 23).sent := by decide +kernel
    have hreported : ([98], 7) ∉ (Lib.after step (State.start 1) lateRun 23).reported := by
      decide +kernel
    exact hreported (h _ hsent)
  · refine ⟨0, 1, by decide +kernel, by decide +kernel, by decide +kernel, Or.inl ?_⟩
    decide +kernel

end Kyuzen.Ping
