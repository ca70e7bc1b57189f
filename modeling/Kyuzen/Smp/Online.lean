import Mathlib.Algebra.BigOperators.Group.Finset.Piecewise
import Kyuzen.Smp.BringUp

/-!
# Each processor counts itself once

However the boot processor and the others are interleaved, the others have slots of their own from 1
on, the number of online processors counts each of them once, after it has come online, and a
processor that is online finds its own slot by its LAPIC number (`bring_up`).
-/

namespace Kyuzen.Smp

/-- The last slot that has been given. -/
def Bsp.apSlot : Bsp → Nat
  | .register _ apSlot => apSlot
  | .wait apSlot _ => apSlot
  | .done apSlot _ => apSlot

def Ap.slot : Ap → Option Nat
  | .parked => none
  | .entered k => some k
  | .testing k => some k
  | .setting k => some k
  | .counting k => some k
  | .online k => some k

/-- `online` of its slot. -/
def Ap.flag : Ap → Nat
  | .counting _ => 1
  | .online _ => 1
  | _ => 0

def Ap.isOnline : Ap → Bool
  | .online _ => true
  | _ => false

/-- How many of the processors have counted themselves. -/
def counted (n : Nat) (ap : Nat → Ap) : Nat :=
  ((Finset.range n).filter fun i => (ap i).isOnline).card

/-- What holds at any time. -/
structure Started (mp : Response) (s : Boot) : Prop where
  limit : s.bsp.apSlot < smpMaxCpus
  fresh : ∀ n k, s.bsp = .register n k → ∀ i, n ≤ i → s.ap i = .parked
  slot : ∀ i k, (s.ap i).slot = some k → 1 ≤ k ∧ k ≤ s.bsp.apSlot ∧
    (s.percpu k).online = (s.ap i).flag ∧ ∃ cpu, mp.cpus[i]? = some (some cpu) ∧
      cpu.lapicId ≠ mp.bspLapicId ∧ (s.percpu k).lapicId = cpu.lapicId
  inj : ∀ i j k, (s.ap i).slot = some k → (s.ap j).slot = some k → i = j
  given : ∀ k, 1 ≤ k → k ≤ s.bsp.apSlot → ∃ i, (s.ap i).slot = some k
  zero : (s.percpu 0).online = 1 ∧ (s.percpu 0).lapicId = mp.bspLapicId
  rest : ∀ k, s.bsp.apSlot < k → (s.percpu k).online = 0
  count : s.onlineCount = 1 + counted mp.cpus.length s.ap
  waited : ∀ k t, s.bsp = .done k t → k + 1 ≤ s.onlineCount ∨ maxWait ≤ t

variable {mp : Response} {s s' : Boot} {i k : Nat} {p : Ap}

theorem counted_update {n : Nat} (hi : i < n) (ap : Nat → Ap) (p : Ap) :
    counted n (Function.update ap i p) + (ap i).isOnline.toNat = counted n ap + p.isOnline.toNat := by
  have hrest : ∀ j ∈ (Finset.range n).erase i,
      (if (Function.update ap i p j).isOnline = true then 1 else 0) =
        if (ap j).isOnline = true then 1 else 0 := by
    intro j hj
    rw [Function.update_of_ne (Finset.ne_of_mem_erase hj)]
  unfold counted
  rw [Finset.card_filter, Finset.card_filter, ← Finset.add_sum_erase _ _ (Finset.mem_range.mpr hi),
    ← Finset.add_sum_erase _ (fun j => if (ap j).isOnline = true then 1 else 0)
      (Finset.mem_range.mpr hi), Finset.sum_congr rfl hrest, Function.update_self]
  cases p.isOnline <;> cases (ap i).isOnline <;> simp <;> omega

theorem smpRegisterCpu_self (percpu : Nat → PerCpu) (hk : k < smpMaxCpus) (a b c : Nat) :
    smpRegisterCpu percpu k a b c k = ⟨a, b, c⟩ := by
  unfold smpRegisterCpu
  rw [if_neg (not_le.mpr hk), Function.update_self]

theorem smpRegisterCpu_ne (percpu : Nat → PerCpu) {j : Nat} (hj : j ≠ k) (a b c : Nat) :
    smpRegisterCpu percpu k a b c j = percpu j := by
  unfold smpRegisterCpu
  split_ifs
  · rfl
  · exact Function.update_of_ne hj _ _

theorem eq_parked_of_slot (h : p.slot = none) : p = .parked := by
  cases p with
  | parked => rfl
  | entered k => cases h
  | testing k => cases h
  | setting k => cases h
  | counting k => cases h
  | online k => cases h

/-- A step of a processor that has been started. -/
theorem Started.advance (h : Started mp s) (hk : (s.ap i).slot = some k) (hp : p.slot = some k)
    (hbsp : s'.bsp = s.bsp) (hap : s'.ap = Function.update s.ap i p)
    (hlapic : ∀ j, (s'.percpu j).lapicId = (s.percpu j).lapicId)
    (hother : ∀ j, j ≠ k → (s'.percpu j).online = (s.percpu j).online)
    (hself : (s'.percpu k).online = p.flag)
    (hcount : s'.onlineCount + (s.ap i).isOnline.toNat = s.onlineCount + p.isOnline.toNat)
    (hgrow : s.onlineCount ≤ s'.onlineCount) : Started mp s' := by
  obtain ⟨hk1, hkle, -, cpu, hcpu, -, -⟩ := h.slot i k hk
  have hi : i < mp.cpus.length := (List.getElem?_eq_some_iff.mp hcpu).1
  have hslot : ∀ j, (s'.ap j).slot = (s.ap j).slot := by
    intro j
    rw [hap]
    by_cases hj : j = i
    · subst hj
      rw [Function.update_self, hp, hk]
    · rw [Function.update_of_ne hj]
  refine ⟨?_, ?_, ?_, ?_, ?_, ?_, ?_, ?_, ?_⟩
  · rw [hbsp]
    exact h.limit
  · intro n m hn j hj
    rw [hbsp] at hn
    have hparked := h.fresh n m hn j hj
    apply eq_parked_of_slot
    rw [hslot j, hparked]
    rfl
  · intro j m hj
    rw [hslot] at hj
    obtain ⟨h1, hle, hflag, cpu', hcpu', hne, hid⟩ := h.slot j m hj
    rw [hbsp]
    refine ⟨h1, hle, ?_, cpu', hcpu', hne, (hlapic m).trans hid⟩
    rw [hap]
    by_cases hji : j = i
    · subst hji
      obtain rfl : m = k := Option.some.inj (hj.symm.trans hk)
      rw [Function.update_self]
      exact hself
    · rw [Function.update_of_ne hji, hother m, hflag]
      rintro rfl
      exact hji (h.inj j i m hj hk)
  · intro j j' m hj hj'
    rw [hslot] at hj hj'
    exact h.inj j j' m hj hj'
  · intro m h1 hle
    rw [hbsp] at hle
    obtain ⟨j, hj⟩ := h.given m h1 hle
    exact ⟨j, (hslot j).trans hj⟩
  · rw [hother 0 (by omega), hlapic]
    exact h.zero
  · intro m hm
    rw [hbsp] at hm
    rw [hother m (by omega)]
    exact h.rest m hm
  · rw [hap]
    have hupd := counted_update hi s.ap p
    have hold := h.count
    omega
  · intro m t hm
    rw [hbsp] at hm
    rcases h.waited m t hm with hle | hle
    · exact Or.inl (hle.trans hgrow)
    · exact Or.inr hle

theorem Started.apStep (h : Started mp s) (i : Nat) : Started mp (apStep s i) := by
  unfold Smp.apStep
  cases hi : s.ap i with
  | parked => exact h
  | entered k =>
    have hk : (s.ap i).slot = some k := by rw [hi]; rfl
    obtain ⟨-, -, hflag, -⟩ := h.slot i k hk
    rw [hi] at hflag
    exact h.advance hk (p := .testing k) rfl rfl rfl (fun _ => rfl) (fun _ _ => rfl) hflag
      (by rw [hi]; rfl) le_rfl
  | testing k =>
    have hk : (s.ap i).slot = some k := by rw [hi]; rfl
    obtain ⟨-, hle, hflag, -⟩ := h.slot i k hk
    rw [hi] at hflag
    have hlt : k < smpMaxCpus := hle.trans_lt h.limit
    dsimp only
    rw [if_pos ⟨hlt, hflag⟩]
    exact h.advance hk (p := .setting k) rfl rfl rfl (fun _ => rfl) (fun _ _ => rfl) hflag
      (by rw [hi]; rfl) le_rfl
  | setting k =>
    have hk : (s.ap i).slot = some k := by rw [hi]; rfl
    refine h.advance hk (p := .counting k) rfl rfl rfl ?_ ?_ ?_ (by rw [hi]; rfl) le_rfl
    · intro j
      by_cases hj : j = k
      · subst hj
        simp
      · simp [hj]
    · intro j hj
      simp [hj]
    · simp [Ap.flag]
  | counting k =>
    have hk : (s.ap i).slot = some k := by rw [hi]; rfl
    obtain ⟨-, -, hflag, -⟩ := h.slot i k hk
    rw [hi] at hflag
    exact h.advance hk (p := .online k) rfl rfl rfl (fun _ => rfl) (fun _ _ => rfl) hflag
      (by rw [hi]; rfl) (Nat.le_succ _)
  | online k => exact h

/-- The boot processor goes on and nothing else changes. -/
theorem Started.of_bsp (h : Started mp s) {b : Bsp} (hslot : b.apSlot = s.bsp.apSlot)
    (hfresh : ∀ n k, b = .register n k → ∀ i, n ≤ i → s.ap i = .parked)
    (hwaited : ∀ k t, b = .done k t → k + 1 ≤ s.onlineCount ∨ maxWait ≤ t) :
    Started mp { s with bsp := b } := by
  obtain ⟨hlimit, -, hs, hinj, hgiven, hzero, hrest, hcount, -⟩ := h
  refine ⟨?_, hfresh, ?_, hinj, ?_, hzero, ?_, hcount, hwaited⟩
  · show b.apSlot < _
    rw [hslot]
    exact hlimit
  · intro i k hk
    show _ ∧ k ≤ b.apSlot ∧ _
    rw [hslot]
    exact hs i k hk
  · intro k h1 hle
    exact hgiven k h1 (hle.trans_eq hslot)
  · intro k hk
    exact hrest k (hslot.symm.trans_lt hk)

/-- The entry of the boot processor. -/
theorem Started.register_self (h : Started mp s) {n apSlot : Nat} {cpu : MpInfo}
    (hreg : s.bsp = .register n apSlot) (hid : cpu.lapicId = mp.bspLapicId) :
    Started mp (registerCpu mp s n apSlot cpu) := by
  have hb : Started mp { s with bsp := .register (n + 1) apSlot } := by
    apply h.of_bsp
    · rw [hreg]
      rfl
    · rintro m k ⟨rfl, rfl⟩ i hi
      exact h.fresh n apSlot hreg i (Nat.le_of_succ_le hi)
    · exact fun _ _ => nofun
  unfold registerCpu
  rw [if_pos hid]
  refine ⟨hb.limit, hb.fresh, ?_, hb.inj, hb.given, ?_, ?_, hb.count, hb.waited⟩
  · intro i k hk
    obtain ⟨h1, hle, hflag, hcpu⟩ := hb.slot i k hk
    dsimp only
    rw [smpRegisterCpu_ne _ (by omega)]
    exact ⟨h1, hle, hflag, hcpu⟩
  · dsimp only
    rw [smpRegisterCpu_self _ (by decide)]
    exact ⟨rfl, hid⟩
  · intro k hk
    have hpos : 0 < k := (Nat.zero_le _).trans_lt hk
    dsimp only
    rw [smpRegisterCpu_ne _ (by omega)]
    exact hb.rest k hk

/-- The entry of another processor, which is started. -/
theorem Started.register_other (h : Started mp s) {n apSlot : Nat} {cpu : MpInfo}
    (hreg : s.bsp = .register n apSlot) (hroom : apSlot + 1 < smpMaxCpus)
    (hcpu : mp.cpus[n]? = some (some cpu)) (hid : cpu.lapicId ≠ mp.bspLapicId) :
    Started mp (registerCpu mp s n apSlot cpu) := by
  have hlast : s.bsp.apSlot = apSlot := by rw [hreg]; rfl
  have hparked := h.fresh n apSlot hreg n le_rfl
  have hap : ∀ j, j ≠ n → Function.update s.ap n (.entered (apSlot + 1)) j = s.ap j :=
    fun j hj => Function.update_of_ne hj _ _
  have hapn : Function.update s.ap n (.entered (apSlot + 1)) n = .entered (apSlot + 1) :=
    Function.update_self _ _ _
  -- The slots that were given before are lower.
  have hlow : ∀ j k, j ≠ n → (Function.update s.ap n (.entered (apSlot + 1)) j).slot = some k →
      (s.ap j).slot = some k ∧ k ≤ apSlot := by
    intro j k hj hk
    rw [hap j hj] at hk
    exact ⟨hk, hlast ▸ (h.slot j k hk).2.1⟩
  unfold registerCpu
  rw [if_neg hid]
  refine ⟨hroom, ?_, ?_, ?_, ?_, ?_, ?_, ?_, fun _ _ => nofun⟩
  · rintro m k ⟨rfl, rfl⟩ j hj
    dsimp only
    rw [hap j (by omega)]
    exact h.fresh n apSlot hreg j (Nat.le_of_succ_le hj)
  · intro j k hk
    by_cases hj : j = n
    · subst hj
      dsimp only at hk ⊢
      rw [hapn] at hk ⊢
      obtain rfl := Option.some.inj hk
      rw [smpRegisterCpu_self _ hroom]
      exact ⟨Nat.succ_pos _, le_rfl, rfl, cpu, hcpu, hid, rfl⟩
    · obtain ⟨hold, hle⟩ := hlow j k hj hk
      obtain ⟨h1, -, hflag, hrest⟩ := h.slot j k hold
      dsimp only
      rw [smpRegisterCpu_ne _ (by omega), hap j hj]
      exact ⟨h1, Nat.le_succ_of_le hle, hflag, hrest⟩
  · intro i j k hi hj
    by_cases hin : i = n
    · by_cases hjn : j = n
      · rw [hin, hjn]
      · have hle := (hlow j k hjn hj).2
        subst hin
        dsimp only at hi
        rw [hapn] at hi
        have := Option.some.inj hi
        omega
    · by_cases hjn : j = n
      · have hle := (hlow i k hin hi).2
        subst hjn
        dsimp only at hj
        rw [hapn] at hj
        have := Option.some.inj hj
        omega
      · exact h.inj i j k (hlow i k hin hi).1 (hlow j k hjn hj).1
  · intro k h1 hle
    rcases Nat.lt_or_eq_of_le hle with hlt | rfl
    · obtain ⟨j, hj⟩ := h.given k h1 (by rw [hlast]; exact Nat.le_of_lt_succ hlt)
      have hne : j ≠ n := by
        rintro rfl
        rw [hparked] at hj
        cases hj
      exact ⟨j, by dsimp only; rw [hap j hne]; exact hj⟩
    · exact ⟨n, by dsimp only; rw [hapn]; rfl⟩
  · dsimp only
    rw [smpRegisterCpu_ne _ (Nat.succ_ne_zero _).symm]
    exact h.zero
  · intro k hk
    have hgt : apSlot + 1 < k := hk
    dsimp only
    rw [smpRegisterCpu_ne _ (by omega)]
    exact h.rest k (by rw [hlast]; omega)
  · have hn : n < mp.cpus.length := (List.getElem?_eq_some_iff.mp hcpu).1
    have hupd := counted_update hn s.ap (.entered (apSlot + 1))
    rw [hparked] at hupd
    show s.onlineCount = 1 + counted mp.cpus.length (Function.update s.ap n (.entered (apSlot + 1)))
    have hold := h.count
    have hzero : (Ap.parked).isOnline.toNat = 0 := rfl
    have hone : (Ap.entered (apSlot + 1)).isOnline.toNat = 0 := rfl
    omega

theorem Started.bspStep (h : Started mp s) : Started mp (bspStep mp s) := by
  unfold Smp.bspStep
  cases hb : s.bsp with
  | register n apSlot =>
    have hwait : Started mp { s with bsp := .wait apSlot 0 } := by
      apply h.of_bsp
      · rw [hb]
        rfl
      · exact fun _ _ => nofun
      · exact fun _ _ => nofun
    dsimp only
    by_cases hroom : apSlot + 1 < smpMaxCpus
    · rw [if_pos hroom]
      cases hcpu : mp.cpus[n]? with
      | none => exact hwait
      | some cpu =>
        cases cpu with
        | none =>
          dsimp only
          apply h.of_bsp
          · rw [hb]
            rfl
          · rintro m k ⟨rfl, rfl⟩ i hi
            exact h.fresh n apSlot hb i (Nat.le_of_succ_le hi)
          · exact fun _ _ => nofun
        | some cpu =>
          by_cases hid : cpu.lapicId = mp.bspLapicId
          · exact h.register_self hb hid
          · exact h.register_other hb hroom hcpu hid
    · rw [if_neg hroom]
      exact hwait
  | wait apSlot t =>
    dsimp only
    by_cases hmore : s.onlineCount < apSlot + 1 ∧ t < maxWait
    · rw [if_pos hmore]
      apply h.of_bsp
      · rw [hb]
        rfl
      · exact fun _ _ => nofun
      · exact fun _ _ => nofun
    · rw [if_neg hmore]
      apply h.of_bsp
      · rw [hb]
        rfl
      · exact fun _ _ => nofun
      · rintro k t' ⟨rfl, rfl⟩
        omega
  | done apSlot t => exact h

theorem started_run (mp : Response) (es : List BootEvent) : Started mp (runBoot mp es) := by
  have hstart : Started mp (bootStart mp) := by
    refine ⟨Nat.succ_pos _, fun _ _ _ _ _ => rfl, fun _ _ => nofun, fun _ _ _ => nofun, ?_, ⟨rfl, rfl⟩,
      ?_, ?_, fun _ _ => nofun⟩
    · intro k h1 hle
      exact absurd (h1.trans hle) (Nat.not_succ_le_zero 0)
    · intro k hk
      have hne : k ≠ 0 := Nat.ne_of_gt hk
      show (smpRegisterCpu _ 0 0 mp.bspLapicId 1 k).online = 0
      rw [smpRegisterCpu_ne _ hne]
    · show 1 = 1 + counted mp.cpus.length fun _ => .parked
      simp [counted, Ap.isOnline]
  have hfold : ∀ s, Started mp s → Started mp (es.foldl (bootStep mp) s) := by
    induction es with
    | nil => exact fun s hs => hs
    | cons e es ih =>
      intro s hs
      cases e with
      | bsp => exact ih _ hs.bspStep
      | ap i => exact ih _ (hs.apStep i)
  exact hfold _ hstart

/-! ## What the kernel relies on -/

/-- The processors have LAPIC numbers of their own. -/
def Response.Distinct (mp : Response) : Prop :=
  ∀ (i j : Nat) (cpu cpu' : MpInfo), mp.cpus[i]? = some (some cpu) →
    mp.cpus[j]? = some (some cpu') → cpu.lapicId = cpu'.lapicId → i = j

/-- A processor that is online finds its slot. -/
theorem Started.currentIndex (h : Started mp s) (hmp : mp.Distinct) (hk : (s.ap i).slot = some k)
    (hflag : (s.ap i).flag = 1) {cpu : MpInfo} (hcpu : mp.cpus[i]? = some (some cpu)) :
    smpCurrentCpuIndex s.percpu cpu.lapicId = k := by
  obtain ⟨h1, hle, honline, cpu', hcpu', hne, hid⟩ := h.slot i k hk
  obtain rfl : cpu' = cpu := by
    rw [hcpu] at hcpu'
    exact (Option.some.inj (Option.some.inj hcpu')).symm
  rw [hflag] at honline
  -- No other slot has this number.
  have honly : ∀ j, (s.percpu j).online ≠ 0 → (s.percpu j).lapicId = cpu'.lapicId → j = k := by
    intro j hj hjid
    rcases Nat.eq_zero_or_pos j with rfl | hpos
    · rw [h.zero.2] at hjid
      exact absurd hjid.symm hne
    · have hjle : j ≤ s.bsp.apSlot := by
        by_contra hgt
        exact hj (h.rest j (not_le.mp hgt))
      obtain ⟨i', hi'⟩ := h.given j hpos hjle
      obtain ⟨-, -, -, other, hother, -, hotherId⟩ := h.slot i' j hi'
      have heq := hmp i' i other cpu' hother hcpu (hotherId.symm.trans hjid)
      subst heq
      exact Option.some.inj (hi'.symm.trans hk)
  have hpred : ((s.percpu k).online ≠ 0 ∧ (s.percpu k).lapicId = cpu'.lapicId) := by
    rw [honline]
    exact ⟨Nat.one_ne_zero, hid⟩
  unfold smpCurrentCpuIndex
  cases hfind : (List.range smpMaxCpus).find? fun i =>
      (s.percpu i).online ≠ 0 ∧ (s.percpu i).lapicId = cpu'.lapicId with
  | none =>
    have hmem := List.mem_range.mpr (hle.trans_lt h.limit)
    exact absurd (decide_eq_true hpred) (List.find?_eq_none.mp hfind k hmem)
  | some j =>
    have hj := List.find?_some hfind
    rw [decide_eq_true_eq] at hj
    exact honly j hj.1 hj.2

/-- The boot processor has slot 0. -/
theorem Started.bootIndex (h : Started mp s) : smpCurrentCpuIndex s.percpu mp.bspLapicId = 0 := by
  unfold smpCurrentCpuIndex
  have hzero : ((s.percpu 0).online ≠ 0 ∧ (s.percpu 0).lapicId = mp.bspLapicId) := by
    rw [h.zero.1]
    exact ⟨Nat.one_ne_zero, h.zero.2⟩
  rw [smpMaxCpus, List.range_succ_eq_map, List.find?_cons_of_pos]
  · rfl
  · exact decide_eq_true hzero

theorem Started.counted_le (h : Started mp s) :
    counted mp.cpus.length s.ap ≤ s.bsp.apSlot := by
  have hslot : ∀ i, (s.ap i).isOnline = true → ∃ k, (s.ap i).slot = some k := by
    intro i hi
    cases hp : s.ap i with
    | online k => exact ⟨k, rfl⟩
    | parked => rw [hp] at hi; cases hi
    | entered k => exact ⟨k, rfl⟩
    | testing k => exact ⟨k, rfl⟩
    | setting k => exact ⟨k, rfl⟩
    | counting k => exact ⟨k, rfl⟩
  have hcard : (Finset.Icc 1 s.bsp.apSlot).card = s.bsp.apSlot := by
    rw [Nat.card_Icc, Nat.add_sub_cancel]
  unfold counted
  rw [← hcard]
  apply Finset.card_le_card_of_injOn fun i => ((s.ap i).slot).getD 0
  · intro i hi
    obtain ⟨k, hk⟩ := hslot i (Finset.mem_filter.mp hi).2
    obtain ⟨h1, hle, -⟩ := h.slot i k hk
    dsimp only
    rw [hk]
    exact Finset.mem_coe.mpr (Finset.mem_Icc.mpr ⟨h1, hle⟩)
  · intro i hi j hj heq
    obtain ⟨k, hk⟩ := hslot i (Finset.mem_filter.mp hi).2
    obtain ⟨l, hl⟩ := hslot j (Finset.mem_filter.mp hj).2
    dsimp only at heq
    rw [hk, hl] at heq
    obtain rfl : k = l := heq
    exact h.inj i j k hk hl

/-- At any time the processors that have been started have the slots from 1 to the last one, at
most 15, each its own. The count is 1 for the boot processor and 1 for each that has come online,
and when the boot processor ends to wait, either all have or it has waited 10000000 rounds. The boot
processor and those that are online find their own slots. -/
theorem bring_up (mp : Response) (hmp : mp.Distinct) (es : List BootEvent) :
    let s := runBoot mp es
    s.bsp.apSlot ≤ 15 ∧ (∀ i j k, (s.ap i).slot = some k → (s.ap j).slot = some k → i = j) ∧
      (∀ k, (∃ i, (s.ap i).slot = some k) ↔ 1 ≤ k ∧ k ≤ s.bsp.apSlot) ∧
      s.onlineCount = 1 + counted mp.cpus.length s.ap ∧ s.onlineCount ≤ s.bsp.apSlot + 1 ∧
      (∀ k t, s.bsp = .done k t → s.onlineCount = k + 1 ∨ maxWait ≤ t) ∧
      smpCurrentCpuIndex s.percpu mp.bspLapicId = 0 ∧
      ∀ i k cpu, (s.ap i).slot = some k → (s.ap i).flag = 1 → mp.cpus[i]? = some (some cpu) →
        smpCurrentCpuIndex s.percpu cpu.lapicId = k := by
  have h := started_run mp es
  have hle := h.counted_le
  have hcount := h.count
  refine ⟨Nat.le_of_lt_succ h.limit, h.inj, ?_, hcount, by omega, ?_, h.bootIndex, ?_⟩
  · intro k
    constructor
    · rintro ⟨i, hi⟩
      obtain ⟨h1, hle, -⟩ := h.slot i k hi
      exact ⟨h1, hle⟩
    · rintro ⟨h1, hle⟩
      exact h.given k h1 hle
  · intro k t hdone
    have hslot : (runBoot mp es).bsp.apSlot = k := by rw [hdone]; rfl
    rcases h.waited k t hdone with hall | hlong
    · left
      omega
    · exact Or.inr hlong
  · intro i k cpu hk hflag hcpu
    exact h.currentIndex hmp hk hflag hcpu

/-- The boot processor and one other, which comes online while the first one waits. -/
theorem bring_up_two :
    let mp : Response := ⟨0, [some ⟨0, 0⟩, some ⟨1, 5⟩]⟩
    let s := runBoot mp [.bsp, .bsp, .ap 1, .bsp, .ap 1, .bsp, .ap 1, .ap 1, .bsp]
    s.onlineCount = 2 ∧ s.bsp = .done 1 1 ∧ smpCurrentCpuIndex s.percpu 5 = 1 := by
  have hmp : Response.Distinct ⟨0, [some ⟨0, 0⟩, some ⟨1, 5⟩]⟩ := by
    intro i j cpu cpu' hi hj hid
    have hi' := (List.getElem?_eq_some_iff.mp hi).1
    have hj' := (List.getElem?_eq_some_iff.mp hj).1
    simp only [List.length_cons, List.length_nil] at hi' hj'
    obtain rfl | rfl : i = 0 ∨ i = 1 := by omega
    · obtain rfl | rfl : j = 0 ∨ j = 1 := by omega
      · rfl
      · cases hi
        cases hj
        cases hid
    · obtain rfl | rfl : j = 0 ∨ j = 1 := by omega
      · cases hi
        cases hj
        cases hid
      · rfl
  obtain ⟨-, -, -, -, -, hdone, -, hindex⟩ :=
    bring_up _ hmp [.bsp, .bsp, .ap 1, .bsp, .ap 1, .bsp, .ap 1, .ap 1, .bsp]
  have hcount := (hdone 1 1 rfl).resolve_right (by decide)
  exact ⟨hcount, rfl, hindex 1 1 ⟨1, 5⟩ rfl rfl rfl⟩

end Kyuzen.Smp
