import Mathlib.Tactic.IntervalCases
import Kyuzen.Ata.Model

/-!
# The driver and a store of sectors

When no waiting time reaches the 100000 accesses of the loops, the driver behaves as a store that is
indexed by the sector number modulo `2 ^ 28`: a read gives what was written there last, or zeros when
the drive reports an error, and a write that the drive refuses changes nothing (`driver_is_store`).

`ata_write_sector` sends CACHE FLUSH right after the last word, when the drive may still be busy
with the data. Then the command is lost, and it is up to the cache when the words get to the disk
itself (`write_is_flushed_iff`).
-/

namespace Kyuzen.Ata

open Disk

variable {reply : Nat → Reply} {d : Disk} {n lba : Nat}

/-- Between two calls. -/
structure Ready (d : Disk) : Prop where
  busy : d.busy = 0
  phase : d.phase = .idle

/-! ## Waiting -/

theorem status_busy (h : d.busy ≠ 0) : d.status = 0x80 := by
  unfold status
  rw [if_pos h]

theorem status_not_busy (h : d.busy = 0) : d.status &&& 0x80 = 0 := by
  unfold status
  rw [if_neg (not_not.mpr h)]
  cases d.fault with
  | none =>
    dsimp only
    split_ifs <;> rfl
  | some f =>
    cases f with
    | err =>
      dsimp only
      decide
    | df =>
      dsimp only
      decide

/-- BSY is waited for as long as the drive is busy. -/
theorem waitBsy_eq (h : d.busy < n) : waitBsy n d = (0, { d with busy := 0 }) := by
  induction n generalizing d with
  | zero => exact absurd h (Nat.not_lt_zero _)
  | succ n ih =>
    rw [waitBsy]
    dsimp only [inb]
    by_cases hbusy : d.busy = 0
    · have htick : d.tick = { d with busy := 0 } := by
        unfold tick
        rw [hbusy]
      rw [if_pos (status_not_busy hbusy), htick]
    · rw [status_busy hbusy, if_neg (by decide), ih]
      · rfl
      · exact Nat.sub_one_lt_of_le (Nat.pos_of_ne_zero hbusy) (Nat.le_of_lt_succ h)

/-- What `ata_wait_drq` returns once the drive is not busy any more. -/
def drqResult (d : Disk) : Int :=
  match d.fault with
  | some .err => -1
  | some .df => -2
  | none => 0

theorem waitDrq_eq (h : d.busy < n) (hphase : d.fault = none → d.phase ≠ .idle) :
    waitDrq n d = (drqResult d, { d with busy := 0 }) := by
  induction n generalizing d with
  | zero => exact absurd h (Nat.not_lt_zero _)
  | succ n ih =>
    rw [waitDrq]
    dsimp only [inb]
    by_cases hbusy : d.busy = 0
    · have htick : d.tick = { d with busy := 0 } := by
        unfold tick
        rw [hbusy]
      rw [htick]
      unfold status drqResult
      rw [if_neg (not_not.mpr hbusy)]
      cases hfault : d.fault with
      | none =>
        dsimp only
        rw [if_neg (hphase hfault), if_neg (by decide), if_neg (by decide), if_pos (by decide)]
      | some f =>
        cases f with
        | err =>
          dsimp only
          rw [if_pos (by decide)]
        | df =>
          dsimp only
          rw [if_neg (by decide), if_pos (by decide)]
    · rw [status_busy hbusy, if_neg (by decide), if_neg (by decide), if_neg (by decide), ih]
      · rfl
      · exact Nat.sub_one_lt_of_le (Nat.pos_of_ne_zero hbusy) (Nat.le_of_lt_succ h)
      · exact hphase

theorem ataDelay400ns_eq (d : Disk) : ataDelay400ns d = { d with busy := d.busy - 4 } := rfl

/-! ## The registers -/

theorem drive_and (lba : Nat) :
    ((0xE0 ||| UInt8.ofNat (lba / 2 ^ 24 % 16)) &&& 0x0F).toNat = lba / 2 ^ 24 % 16 := by
  have hlt : lba / 2 ^ 24 % 16 < 16 := Nat.mod_lt _ (by decide)
  interval_cases lba / 2 ^ 24 % 16 <;> rfl

/-- The four registers hold the sector number. -/
theorem address_eq (lba : Nat) :
    lba / 2 ^ 24 % 16 * 2 ^ 24 + lba / 2 ^ 16 % 256 * 2 ^ 16 + lba / 2 ^ 8 % 256 * 2 ^ 8 +
      lba % 256 = lba % 2 ^ 28 := by
  omega

/-- The drive with the registers of a command. -/
def selected (lba : Nat) (d : Disk) : Disk :=
  { d with
    drive := 0xE0 ||| UInt8.ofNat (lba / 2 ^ 24 % 16)
    count := 1
    lo := UInt8.ofNat lba
    mid := UInt8.ofNat (lba / 2 ^ 8)
    hi := UInt8.ofNat (lba / 2 ^ 16) }

theorem address_selected (lba : Nat) (d : Disk) : (selected lba d).address = lba % 2 ^ 28 := by
  unfold address selected
  dsimp only
  rw [drive_and, UInt8.toNat_ofNat', UInt8.toNat_ofNat', UInt8.toNat_ofNat']
  exact address_eq lba

theorem selectSector_eq (h : Ready d) : selectSector reply lba d = selected lba d := by
  obtain ⟨hbusy, hphase⟩ := h
  have hwait : ataWaitBsy d = (0, d) := by
    rw [ataWaitBsy, waitBsy_eq (by omega), ← hbusy]
  unfold selectSector
  rw [hwait]
  simp [outb, ataDelay400ns_eq, hbusy, hphase, selected]

/-! ## The data -/

/-- The words of a sector from word `k` on. -/
theorem inWords_eq {k : Nat} (hbusy : d.busy = 0) (hk : k + n = 256)
    (hphase : d.phase = if k = 256 then .idle else .reading lba k) :
    inWords n d = ((d.view lba).1.drop k, { d with phase := .idle }) := by
  induction n generalizing k d with
  | zero =>
    have hdrop : (d.view lba).1.drop k = [] :=
      List.drop_eq_nil_of_le ((d.view lba).2.trans_le hk.ge)
    rw [Nat.add_zero] at hk
    rw [if_pos hk] at hphase
    rw [inWords, hdrop, ← hphase]
  | succ n ih =>
    have hlt : k < (d.view lba).1.length := by
      rw [(d.view lba).2]
      omega
    rw [if_neg (by omega)] at hphase
    rw [inWords, inw, hphase]
    dsimp only
    rw [if_neg (not_not.mpr hbusy)]
    dsimp only
    rw [ih (d := { d with phase := if k + 1 = 256 then .idle else .reading lba (k + 1) }) hbusy
      (by omega) rfl, List.drop_eq_getElem_cons hlt, ← List.getElem_eq_getD 0]

/-- The words that are still missing in a sector. -/
theorem outWords_eq {after : Nat} {words ws : List UInt16} (hbusy : d.busy = 0)
    (hphase : d.phase = .writing lba after words) (hne : ws ≠ [])
    (hlen : (words ++ ws).length = 256) :
    ws.foldl (fun d w => outw w d) d =
      { d with
        view := Function.update d.view lba ⟨words ++ ws, hlen⟩
        platter := Function.update d.platter lba (d.platter lba ++ [⟨words ++ ws, hlen⟩])
        phase := .idle
        busy := after } := by
  induction ws generalizing words d with
  | nil => exact absurd rfl hne
  | cons w ws ih =>
    rw [List.foldl_cons, outw, hphase]
    dsimp only
    rw [if_neg (not_not.mpr hbusy)]
    cases ws with
    | nil =>
      rw [dif_pos hlen]
      rfl
    | cons w' ws =>
      have hmore : ¬ (words ++ [w]).length = 256 := by
        simp only [List.length_append, List.length_cons, List.length_nil] at hlen ⊢
        omega
      have hassoc : words ++ w :: w' :: ws = (words ++ [w]) ++ w' :: ws := by simp
      rw [dif_neg hmore, ih (d := { d with phase := .writing lba after (words ++ [w]) }) hbusy rfl
        (List.cons_ne_nil _ _) (hassoc ▸ hlen)]
      simp only [List.append_assoc, List.cons_append, List.nil_append]

/-! ## The calls -/

/-- The drive that has taken a command to transfer a sector. -/
def started (reply : Nat → Reply) (lba : Nat) (phase : Phase) (d : Disk) : Disk :=
  { selected lba d with
    commands := d.commands + 1
    busy := (reply d.commands).busy
    fault := (reply d.commands).fault
    phase := if (reply d.commands).fault = none then phase else .idle }

theorem outb_read (h : Ready d) :
    outb reply 0x1F7 0x20 (selected lba d) =
      started reply lba (.reading (lba % 2 ^ 28) 0) d := by
  obtain ⟨hbusy, hphase⟩ := h
  have haddress := address_selected lba d
  cases hfault : (reply d.commands).fault with
  | none =>
    simp [outb, execute, started, selected, hbusy, hphase, hfault]
    exact haddress
  | some f => simp [outb, execute, started, selected, hbusy, hphase, hfault]

theorem outb_write (h : Ready d) :
    outb reply 0x1F7 0x30 (selected lba d) =
      started reply lba (.writing (lba % 2 ^ 28) (reply d.commands).busyAfterData []) d := by
  obtain ⟨hbusy, hphase⟩ := h
  have haddress := address_selected lba d
  cases hfault : (reply d.commands).fault with
  | none =>
    simp [outb, execute, started, selected, hbusy, hphase, hfault]
    exact haddress
  | some f => simp [outb, execute, started, selected, hbusy, hphase, hfault]

/-- The drive is waited for after a command. -/
theorem wait_started {phase : Phase} (hphase : phase ≠ .idle)
    (hfast : (reply d.commands).busy < 100000) :
    ataWaitDrq (ataDelay400ns (started reply lba phase d)) =
      (drqResult (started reply lba phase d), { started reply lba phase d with busy := 0 }) := by
  rw [ataDelay400ns_eq, ataWaitDrq, waitDrq_eq]
  · rfl
  · exact (Nat.sub_le _ _).trans_lt hfast
  · intro hfault
    rw [started] at hfault ⊢
    exact (if_pos hfault).trans_ne hphase

theorem drqResult_started {phase : Phase} :
    drqResult (started reply lba phase d) ≠ 0 ↔ (reply d.commands).fault ≠ none := by
  unfold drqResult started
  cases (reply d.commands).fault with
  | none => simp
  | some f => cases f <;> simp

/-- The drive after a command that transfers a sector. -/
def finished (reply : Nat → Reply) (lba : Nat) (d : Disk) : Disk :=
  { selected lba d with
    commands := d.commands + 1
    busy := 0
    fault := (reply d.commands).fault
    phase := .idle }

theorem started_failed {phase : Phase} (hfault : (reply d.commands).fault ≠ none) :
    { started reply lba phase d with busy := 0 } = finished reply lba d := by
  simp [started, finished, hfault]

theorem ataReadSector_eq (h : Ready d) (hfast : (reply d.commands).busy < 100000) :
    ataReadSector reply lba d =
      (if (reply d.commands).fault = none then (d.view (lba % 2 ^ 28)).1
        else List.replicate 256 0, finished reply lba d) := by
  have hwait : ataWaitDrq (ataDelay400ns (started reply lba (.reading (lba % 2 ^ 28) 0) d)) = _ :=
    wait_started nofun hfast
  unfold ataReadSector
  rw [selectSector_eq h]
  dsimp only
  rw [outb_read h, hwait]
  dsimp only
  by_cases hfault : (reply d.commands).fault = none
  · have hphase : ({ started reply lba (.reading (lba % 2 ^ 28) 0) d with busy := 0 } : Disk).phase =
        if 0 = 256 then .idle else .reading (lba % 2 ^ 28) 0 := if_pos hfault
    have hdata := inWords_eq (n := 256) (k := 0) rfl rfl hphase
    rw [if_neg (drqResult_started.not_left.mpr hfault), hdata, if_pos hfault]
    rfl
  · rw [if_pos (drqResult_started.mpr hfault), if_neg hfault, started_failed hfault]

/-- The drive with the new words in its cache. -/
def written (reply : Nat → Reply) (lba : Nat) (buffer : Sector) (d : Disk) : Disk :=
  { finished reply lba d with
    view := Function.update d.view (lba % 2 ^ 28) buffer
    platter := Function.update d.platter (lba % 2 ^ 28) (d.platter (lba % 2 ^ 28) ++ [buffer]) }

theorem execute_flush (reply : Nat → Reply) (d : Disk) :
    execute reply 0xE7 d =
      { d with
        commands := d.commands + 1
        busy := (reply d.commands).busy
        fault := (reply d.commands).fault
        platter := if (reply d.commands).fault = none then fun lba => [d.view lba]
          else d.platter } := by
  by_cases hfault : (reply d.commands).fault = none
  · simp [execute, hfault]
  · simp [execute, hfault]

/-- CACHE FLUSH, when the drive is busy for `after` accesses. -/
theorem outb_flush {after : Nat} (hphase : d.phase = .idle) :
    outb reply 0x1F7 0xE7 { d with busy := after } =
      if after = 0 then execute reply 0xE7 d else { d with busy := after - 1 } := by
  by_cases hafter : after = 0
  · rw [if_pos hafter, hafter, outb, if_neg (by simp [hphase])]
    simp [execute]
  · rw [if_neg hafter, outb, if_pos (.inl hafter)]
    rfl

theorem ataWriteSector_eq {buffer : Sector} (h : Ready d)
    (hfast : ∀ n, (reply n).busy < 100000 ∧ (reply n).busyAfterData < 100000) :
    ataWriteSector reply lba buffer d =
      if (reply d.commands).fault = none then
        if (reply d.commands).busyAfterData = 0 then
          { execute reply 0xE7 (written reply lba buffer d) with busy := 0 }
        else written reply lba buffer d
      else finished reply lba d := by
  have hwait : ataWaitDrq (ataDelay400ns (started reply lba
      (.writing (lba % 2 ^ 28) (reply d.commands).busyAfterData []) d)) = _ :=
    wait_started nofun (hfast _).1
  unfold ataWriteSector
  rw [selectSector_eq h]
  dsimp only
  rw [outb_write h, hwait]
  dsimp only
  by_cases hfault : (reply d.commands).fault = none
  · have hne : buffer.1 ≠ [] := List.ne_nil_of_length_eq_add_one buffer.2
    have hphase : ({ started reply lba
        (.writing (lba % 2 ^ 28) (reply d.commands).busyAfterData []) d with
          busy := 0 } : Disk).phase =
        .writing (lba % 2 ^ 28) (reply d.commands).busyAfterData [] := if_pos hfault
    have hdata := outWords_eq rfl hphase hne buffer.2
    have hflush : outb reply 0x1F7 0xE7
        { written reply lba buffer d with busy := (reply d.commands).busyAfterData } = _ :=
      outb_flush rfl
    rw [if_neg (drqResult_started.not_left.mpr hfault), hdata, if_pos hfault]
    refine (congrArg (fun d => (ataWaitBsy (ataDelay400ns d)).2) hflush).trans ?_
    split_ifs with hafter
    · rw [ataDelay400ns_eq, ataWaitBsy, waitBsy_eq]
      rw [execute_flush]
      exact (Nat.sub_le _ _).trans_lt (hfast _).1
    · rw [ataDelay400ns_eq, ataWaitBsy, waitBsy_eq]
      · rfl
      · exact ((Nat.sub_le _ _).trans (Nat.sub_le _ _)).trans_lt (hfast _).2
  · rw [if_pos (drqResult_started.mpr hfault), if_neg hfault, started_failed hfault]

/-! ## Runs -/

inductive Call
  | read (lba : Nat)
  | write (lba : Nat) (buffer : Sector)

/-- A call, with the words that it reads. -/
def step (reply : Nat → Reply) (d : Disk) : Call → List UInt16 × Disk
  | .read lba => ataReadSector reply lba d
  | .write lba buffer => ([], ataWriteSector reply lba buffer d)

def run (reply : Nat → Reply) (d : Disk) : List Call → List (List UInt16) × Disk
  | [] => ([], d)
  | call :: calls =>
    let (ws, d) := step reply d call
    let (wss, d) := run reply d calls
    (ws :: wss, d)

/-- A store of sectors: what a call reads from it, or leaves in it, if the drive takes the call. -/
def storeStep (σ : Nat → Sector) (ok : Bool) : Call → List UInt16 × (Nat → Sector)
  | .read lba => (if ok then (σ (lba % 2 ^ 28)).1 else List.replicate 256 0, σ)
  | .write lba buffer => ([], if ok then Function.update σ (lba % 2 ^ 28) buffer else σ)

def storeRun (σ : Nat → Sector) : List (Call × Bool) → List (List UInt16) × (Nat → Sector)
  | [] => ([], σ)
  | (call, ok) :: calls =>
    let (ws, σ) := storeStep σ ok call
    let (wss, σ) := storeRun σ calls
    (ws :: wss, σ)

/-- Which of the calls the drive takes. -/
def taken (reply : Nat → Reply) (d : Disk) : List Call → List Bool
  | [] => []
  | call :: calls =>
    ((reply d.commands).fault = none : Bool) :: taken reply (step reply d call).2 calls

/-- The waiting times stay below the limit of the loops. -/
def Fast (reply : Nat → Reply) : Prop :=
  ∀ n, (reply n).busy < 100000 ∧ (reply n).busyAfterData < 100000

theorem step_eq (hfast : Fast reply) (h : Ready d) (call : Call) :
    Ready (step reply d call).2 ∧
      ((step reply d call).1, (step reply d call).2.view) =
        storeStep d.view (decide ((reply d.commands).fault = none)) call := by
  cases call with
  | read lba =>
    rw [step, ataReadSector_eq h (hfast _).1, storeStep]
    simp only [decide_eq_true_eq]
    exact ⟨⟨rfl, rfl⟩, rfl⟩
  | write lba buffer =>
    rw [step, ataWriteSector_eq h hfast, storeStep]
    simp only [decide_eq_true_eq, execute_flush]
    by_cases hfault : (reply d.commands).fault = none
    · rw [if_pos hfault, if_pos hfault]
      by_cases hafter : (reply d.commands).busyAfterData = 0
      · rw [if_pos hafter]
        exact ⟨⟨rfl, rfl⟩, rfl⟩
      · rw [if_neg hafter]
        exact ⟨⟨rfl, rfl⟩, rfl⟩
    · rw [if_neg hfault, if_neg hfault]
      exact ⟨⟨rfl, rfl⟩, rfl⟩

/-- Each call on a drive that is fast enough does what it does on a store of sectors: a read gives
what was written last at this number modulo `2 ^ 28`, and zeros if the drive reports an error. -/
theorem driver_is_store (hfast : Fast reply) (h : Ready d) (calls : List Call) :
    ((run reply d calls).1, (run reply d calls).2.view) =
      storeRun d.view (calls.zip (taken reply d calls)) := by
  induction calls generalizing d with
  | nil => rfl
  | cons call calls ih =>
    obtain ⟨hready, hstep⟩ := step_eq hfast h call
    rw [run, taken, List.zip_cons_cons, storeRun, ← hstep]
    dsimp only
    rw [← ih hready]

/-- The words of a write that the drive takes are on the disk itself when `ata_write_sector` returns,
whenever the cache brings them there, if and only if the drive was not busy with them when CACHE
FLUSH was sent (and did not refuse it), or they were there before. -/
theorem write_is_flushed_iff {buffer : Sector} (hfast : Fast reply) (h : Ready d)
    (htaken : (reply d.commands).fault = none) :
    (∀ sector ∈ (ataWriteSector reply lba buffer d).platter (lba % 2 ^ 28), sector = buffer) ↔
      ((reply d.commands).busyAfterData = 0 ∧ (reply (d.commands + 1)).fault = none) ∨
        ∀ sector ∈ d.platter (lba % 2 ^ 28), sector = buffer := by
  have hview : (written reply lba buffer d).view (lba % 2 ^ 28) = buffer := by
    unfold written
    dsimp only
    rw [Function.update_self]
  have hplatter : (∀ sector ∈ (written reply lba buffer d).platter (lba % 2 ^ 28),
      sector = buffer) ↔ ∀ sector ∈ d.platter (lba % 2 ^ 28), sector = buffer := by
    unfold written
    dsimp only
    rw [Function.update_self, List.forall_mem_append, List.forall_mem_singleton]
    exact and_iff_left rfl
  have hcommands : (written reply lba buffer d).commands = d.commands + 1 := rfl
  rw [ataWriteSector_eq h hfast, if_pos htaken, execute_flush, hcommands]
  by_cases hafter : (reply d.commands).busyAfterData = 0
  · rw [if_pos hafter]
    dsimp only
    by_cases hfault : (reply (d.commands + 1)).fault = none
    · rw [if_pos hfault, hview, List.forall_mem_singleton]
      exact iff_of_true rfl (.inl ⟨hafter, hfault⟩)
    · rw [if_neg hfault, hplatter, or_iff_right fun h => hfault h.2]
  · rw [if_neg hafter, hplatter, or_iff_right fun h => hafter h.1]

/-! ## A drive -/

/-- A drive that is busy with the data for 5 accesses, and refuses its third command. -/
def slowDrive (n : Nat) : Reply := ⟨3, if n = 2 then some .err else none, 5⟩

def blank : Disk :=
  let sector : Sector := ⟨List.replicate 256 0, List.length_replicate⟩
  ⟨0, none, .idle, 0, 0, 0, 0, 0, 0, fun _ => sector, fun _ => [sector]⟩

def sevens : Sector := ⟨List.replicate 256 7, List.length_replicate⟩

theorem fast_slowDrive : Fast slowDrive := by
  intro n
  constructor
  · show 3 < 100000
    decide
  · show 5 < 100000
    decide

theorem driver_is_store_slow :
    let calls : List Call := [.write 0x10000005 sevens, .read 5]
    ((run slowDrive blank calls).1, (run slowDrive blank calls).2.view) =
      storeRun blank.view (calls.zip (taken slowDrive blank calls)) :=
  driver_is_store fast_slowDrive ⟨rfl, rfl⟩ _

theorem write_is_flushed_iff_slow :
    ¬ ∀ sector ∈ (ataWriteSector slowDrive 5 sevens blank).platter (5 % 2 ^ 28),
      sector = sevens := by
  have hdiffer : ¬ ∀ sector ∈ blank.platter (5 % 2 ^ 28), sector = sevens := by
    intro hall
    have hhead : (0 : UInt16) = 7 :=
      congrArg (fun sector : Sector => sector.1.headD 1) (hall _ List.mem_cons_self)
    exact absurd hhead (by decide)
  rw [write_is_flushed_iff fast_slowDrive ⟨rfl, rfl⟩ rfl, or_iff_left hdiffer]
  exact fun h => nomatch h.1

end Kyuzen.Ata
