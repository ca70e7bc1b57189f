import Mathlib.Data.Finset.Card
import Mathlib.Data.List.Basic
import Mathlib.Order.Interval.Finset.Nat
import Kyuzen.Lib.Run

/-!
# Bringing up the processors

`smp_init` of the boot processor gives each other processor a slot and starts it, and then waits
until all have counted themselves, for 10000000 rounds at most. The processors that are started run
`smp_ap_main` at the same time. A round of the loop that registers is one step: nothing that it
writes is read before `goto_address` is set. `smp_ap_main` takes a step for each access to memory
that others read. A missing response is the empty list.
-/

namespace Kyuzen.Smp

open Lib

def smpMaxCpus : Nat := 16

def maxWait : Nat := 10000000

/-- An entry of the response of the boot loader. -/
structure MpInfo where
  processorId : Nat
  lapicId : Nat

/-- `percpu_t`. -/
structure PerCpu where
  processorId : Nat
  lapicId : Nat
  online : Nat

/-- `smp_cpu_state_t`. -/
structure CpuState where
  cpuIndex : Nat
  processorId : Nat
  lapicId : Nat
  online : Nat

/-- Where the boot processor is. -/
inductive Bsp where
  | register (i apSlot : Nat)
  | wait (apSlot waitTicks : Nat)
  | done (apSlot waitTicks : Nat)

/-- Where another processor is, with its slot. -/
inductive Ap where
  | parked
  /-- Before `state->online = 1`. -/
  | entered (slot : Nat)
  /-- Before the test of `smp_set_cpu_online`. -/
  | testing (slot : Nat)
  | setting (slot : Nat)
  /-- Before `smp_atomic_inc`. -/
  | counting (slot : Nat)
  | online (slot : Nat)

structure Boot where
  percpu : Nat → PerCpu
  states : Nat → CpuState
  onlineCount : Nat
  bsp : Bsp
  ap : Nat → Ap

/-- `bsp` is the boot processor, `mp` the processors that the boot loader has found. -/
structure Response where
  bspLapicId : Nat
  cpus : List (Option MpInfo)

def smpRegisterCpu (percpu : Nat → PerCpu) (cpuId processorId lapicId online : Nat) :
    Nat → PerCpu :=
  if cpuId ≥ smpMaxCpus then percpu
  else Function.update percpu cpuId ⟨processorId, lapicId, online⟩

/-- A round of the loop over the processors that were found. -/
def registerCpu (mp : Response) (s : Boot) (i apSlot : Nat) (cpu : MpInfo) : Boot :=
  if cpu.lapicId = mp.bspLapicId then
    { s with
      states := Function.update s.states 0 ⟨0, cpu.processorId, cpu.lapicId, 1⟩
      percpu := smpRegisterCpu s.percpu 0 cpu.processorId cpu.lapicId 1
      bsp := .register (i + 1) apSlot }
  else
    { s with
      states := Function.update s.states (apSlot + 1)
        ⟨apSlot + 1, cpu.processorId, cpu.lapicId, 0⟩
      percpu := smpRegisterCpu s.percpu (apSlot + 1) cpu.processorId cpu.lapicId 0
      ap := Function.update s.ap i (.entered (apSlot + 1))
      bsp := .register (i + 1) (apSlot + 1) }

def bspStep (mp : Response) (s : Boot) : Boot :=
  match s.bsp with
  | .register i apSlot =>
    if apSlot + 1 < smpMaxCpus then
      match mp.cpus[i]? with
      | none => { s with bsp := .wait apSlot 0 }
      | some none => { s with bsp := .register (i + 1) apSlot }
      | some (some cpu) => registerCpu mp s i apSlot cpu
    else { s with bsp := .wait apSlot 0 }
  | .wait apSlot waitTicks =>
    if s.onlineCount < apSlot + 1 ∧ waitTicks < maxWait then
      { s with bsp := .wait apSlot (waitTicks + 1) }
    else { s with bsp := .done apSlot waitTicks }
  | .done _ _ => s

/-- `smp_ap_main` of the processor at entry `i`. -/
def apStep (s : Boot) (i : Nat) : Boot :=
  match s.ap i with
  | .parked => s
  | .entered k =>
    { s with
      states := Function.update s.states k { s.states k with online := 1 }
      ap := Function.update s.ap i (.testing k) }
  | .testing k =>
    if k < smpMaxCpus ∧ (s.percpu k).online = 0 then
      { s with ap := Function.update s.ap i (.setting k) }
    else { s with ap := Function.update s.ap i (.online k) }
  | .setting k =>
    { s with
      percpu := Function.update s.percpu k { s.percpu k with online := 1 }
      ap := Function.update s.ap i (.counting k) }
  | .counting k =>
    { s with
      onlineCount := s.onlineCount + 1
      ap := Function.update s.ap i (.online k) }
  | .online _ => s

inductive BootEvent where
  | bsp
  | ap (i : Nat)

def bootStep (mp : Response) (s : Boot) : BootEvent → Boot
  | .bsp => bspStep mp s
  | .ap i => apStep s i

/-- The boot processor has registered itself. -/
def bootStart (mp : Response) : Boot where
  percpu := smpRegisterCpu (fun _ => ⟨0, 0, 0⟩) 0 0 mp.bspLapicId 1
  states _ := ⟨0, 0, 0, 0⟩
  onlineCount := 1
  bsp := .register 0 0
  ap _ := .parked

def runBoot (mp : Response) (es : List BootEvent) : Boot :=
  es.foldl (bootStep mp) (bootStart mp)

/-- The loop of `smp_current_cpu_index`, on the processor with this number. -/
def smpCurrentCpuIndex (percpu : Nat → PerCpu) (currentLapic : Nat) : Nat :=
  ((List.range smpMaxCpus).find? fun i =>
    (percpu i).online ≠ 0 ∧ (percpu i).lapicId = currentLapic).getD 0

end Kyuzen.Smp
