import Mathlib.Data.Nat.Bitwise
import Kyuzen.Lib.Run

/-!
# The transmit ring

`e1000_send` as the stores it makes one after another, and the network card beside it, which may
take a step between any two of them. The driver takes a descriptor as free when its DD bit is set;
the card takes the ring as empty when TDH is TDT. The accepted frames that are not transmitted yet
lie in order from TDH on (`Inv`), and there may be 16 of them: then TDT has come round to TDH. The
card sees all of them in every state of a run exactly when no store to TDT fills the ring
(`frames_visible`). A full ring is never left again.
-/

namespace Kyuzen.E1000

open Lib

def numTxDesc : Nat := 16
def txstaDD : Nat := 1
def txcmdEOP : Nat := 1
def txcmdIFCS : Nat := 2
def txcmdRS : Nat := 8

/-- `e1000_tx_desc_t`. -/
structure TxDesc where
  addr : Nat
  length : Nat
  cso : Nat
  cmd : Nat
  status : Nat
  css : Nat
  special : Nat

def TxDesc.done (d : TxDesc) : Bool := d.status.testBit 0

/-- An accepted frame, and the descriptor it is in. -/
structure TxFrame where
  slot : Nat
  data : List UInt8

/-- The stores that a call still has to make, by the next one. -/
inductive TxStore
  | status | length | cmd | tail | doorbell
  deriving DecidableEq

/-- A call that has copied its frame. -/
structure TxCall where
  idx : Nat
  data : List UInt8
  next : TxStore

/-- The driver and the card. `outstanding` are the frames of the calls that have stored TDT (and
return 0) whose descriptor the card has not marked since, and `sent` what the card has read. -/
structure Tx where
  initialized : Bool
  descs : Nat → TxDesc
  bufs : Nat → List UInt8
  txTail : Nat
  tdh : Nat
  tdt : Nat
  call : Option TxCall
  outstanding : List TxFrame
  sent : List (List UInt8)

/-- `e1000_tx_init`, with the addresses of the pages and what is in them. -/
def txInit (initialized : Bool) (addr : Nat → Nat) (bufs : Nat → List UInt8) : Tx where
  initialized := initialized
  descs i := ⟨addr i, 0, 0, 0, txstaDD, 0, 0⟩
  bufs := bufs
  txTail := 0
  tdh := 0
  tdt := 0
  call := none
  outstanding := []
  sent := []

/-- The checks of `e1000_send`: the descriptor that it takes, and none when it returns -1. -/
def sendCheck (s : Tx) (data : List UInt8) : Option Nat :=
  if !s.initialized then none
  else if data.length = 0 ∨ data.length > 1522 then none
  else if !(s.descs s.txTail).done then none
  else some s.txTail

/-- The buffer into which a call copies its frame, when no other call is under way. -/
def copyTarget (s : Tx) (data : List UInt8) : Option Nat :=
  if s.call.isSome then none else sendCheck s data

def sendStart (s : Tx) (data : List UInt8) : Tx :=
  match copyTarget s data with
  | none => s
  | some idx =>
    { s with
      bufs := Function.update s.bufs idx (data ++ (s.bufs idx).drop data.length)
      call := some ⟨idx, data, .status⟩ }

def setTxDesc (s : Tx) (i : Nat) (d : TxDesc) : Tx :=
  { s with descs := Function.update s.descs i d }

/-- The next store of the call. -/
def sendStore (s : Tx) : Tx :=
  match s.call with
  | none => s
  | some c =>
    let d := s.descs c.idx
    match c.next with
    | .status =>
      { setTxDesc s c.idx { d with status := 0 } with call := some { c with next := .length } }
    | .length =>
      { setTxDesc s c.idx { d with length := c.data.length % 2 ^ 16 } with
        call := some { c with next := .cmd } }
    | .cmd =>
      { setTxDesc s c.idx { d with cmd := txcmdEOP ||| txcmdIFCS ||| txcmdRS } with
        call := some { c with next := .tail } }
    | .tail =>
      { s with txTail := (c.idx + 1) % numTxDesc, call := some { c with next := .doorbell } }
    | .doorbell =>
      { s with
        tdt := s.txTail
        call := none
        outstanding := s.outstanding ++ [⟨c.idx, c.data⟩] }

/-- The card transmits the frame at TDH and marks its descriptor, unless the ring is empty. -/
def nicTransmit (s : Tx) : Tx :=
  if s.tdh = s.tdt then s
  else
    let d := s.descs s.tdh
    { setTxDesc s s.tdh { d with status := d.status ||| txstaDD } with
      tdh := (s.tdh + 1) % numTxDesc
      outstanding := s.outstanding.filter fun f => f.slot ≠ s.tdh
      sent := s.sent ++ [(s.bufs s.tdh).take d.length] }

inductive TxAct
  | send (data : List UInt8)
  | store
  | nic

def txStep (s : Tx) : TxAct → Tx
  | .send data => sendStart s data
  | .store => sendStore s
  | .nic => nicTransmit s

/-! ## The invariant -/

/-- The card owns the descriptors from TDH up to but not including TDT. -/
def NicOwns (head tail i : Nat) : Prop := ∃ k < (tail + 16 - head) % 16, i = (head + k) % 16

/-- How far the call under way has come. -/
structure CallInv (s : Tx) (c : TxCall) : Prop where
  idx : c.idx = s.tdt
  room : s.outstanding.length < 16
  size : c.data.length ≤ 1522
  copied : (s.bufs c.idx).take c.data.length = c.data
  busy : c.next ≠ .status → (s.descs c.idx).done = false
  length : c.next ≠ .status → c.next ≠ .length → (s.descs c.idx).length = c.data.length
  tail : s.txTail = if c.next = .doorbell then (s.tdt + 1) % 16 else s.tdt

/-- An outstanding frame is in its descriptor and in its buffer. -/
structure FrameInv (s : Tx) (f : TxFrame) : Prop where
  busy : (s.descs f.slot).done = false
  length : (s.descs f.slot).length = f.data.length
  data : (s.bufs f.slot).take f.data.length = f.data

structure Inv (s : Tx) : Prop where
  head : s.tdh < 16
  tdt : s.tdt = (s.tdh + s.outstanding.length) % 16
  count : s.outstanding.length ≤ 16
  slots : ∀ k, (hk : k < s.outstanding.length) → s.outstanding[k].slot = (s.tdh + k) % 16
  frames : ∀ f ∈ s.outstanding, FrameInv s f
  idle : s.call = none → s.txTail = s.tdt
  call : ∀ c, s.call = some c → CallInv s c

variable {s : Tx} {data : List UInt8}

theorem Inv.slot_of_mem (h : Inv s) {f : TxFrame} (hf : f ∈ s.outstanding) :
    ∃ k < s.outstanding.length, f.slot = (s.tdh + k) % 16 := by
  obtain ⟨k, hk, rfl⟩ := List.getElem_of_mem hf
  exact ⟨k, hk, h.slots k hk⟩

/-- With fewer than 16 frames outstanding, none of them is in the descriptor at TDT. -/
theorem Inv.slot_ne (h : Inv s) (hroom : s.outstanding.length < 16) {f : TxFrame}
    (hf : f ∈ s.outstanding) : f.slot ≠ s.tdt := by
  obtain ⟨k, hk, hslot⟩ := h.slot_of_mem hf
  have htdt := h.tdt
  omega

/-- A free descriptor at the tail means that the ring is not full. -/
theorem Inv.room (h : Inv s) (hdone : (s.descs s.tdt).done = true) : s.outstanding.length < 16 := by
  by_contra hfull
  have hcount := h.count
  have hpos : 0 < s.outstanding.length := by omega
  have hslot := h.slots 0 hpos
  have hbusy := (h.frames _ (List.getElem_mem hpos)).busy
  have htdt := h.tdt
  have hhead := h.head
  have heq : s.outstanding[0].slot = s.tdt := by omega
  rw [heq, hdone] at hbusy
  cases hbusy

theorem inv_txInit (initialized : Bool) (addr : Nat → Nat) (bufs : Nat → List UInt8) :
    Inv (txInit initialized addr bufs) where
  head := by simp [txInit]
  tdt := rfl
  count := Nat.zero_le _
  slots k hk := absurd hk (Nat.not_lt_zero k)
  frames f hf := absurd hf (List.not_mem_nil)
  idle _ := rfl
  call c hc := by cases hc

/-! ## The steps -/

theorem sendStart_cases (s : Tx) (data : List UInt8) :
    (copyTarget s data = none ∧ sendStart s data = s) ∨
    (s.call = none ∧ (s.descs s.txTail).done = true ∧ data.length ≤ 1522 ∧
      copyTarget s data = some s.txTail ∧ sendStart s data =
        { s with
          bufs := Function.update s.bufs s.txTail (data ++ (s.bufs s.txTail).drop data.length)
          call := some ⟨s.txTail, data, .status⟩ }) := by
  cases htarget : copyTarget s data with
  | none =>
    left
    exact ⟨rfl, by simp only [sendStart, htarget]⟩
  | some idx =>
    right
    have h := htarget
    unfold copyTarget at h
    split at h
    · cases h
    · rename_i hidle
      unfold sendCheck at h
      split at h
      · cases h
      · split at h
        · cases h
        · rename_i hlen
          split at h
          · cases h
          · rename_i hdone
            rw [Option.some_inj] at h
            subst h
            refine ⟨by simpa using hidle, by simpa using hdone, by omega, rfl, ?_⟩
            simp only [sendStart, htarget]

theorem Inv.sendStart (h : Inv s) (data : List UInt8) : Inv (sendStart s data) := by
  rcases sendStart_cases s data with ⟨_, heq⟩ | ⟨hidle, hdone, hlen, _, heq⟩
  · rw [heq]
    exact h
  · have htail := h.idle hidle
    rw [htail] at hdone
    have hroom := h.room hdone
    rw [heq]
    refine ⟨h.head, h.tdt, h.count, h.slots, fun f hf => ?_, fun hcall => (by cases hcall), ?_⟩
    · obtain ⟨hbusy, hlength, hdata⟩ := h.frames f hf
      refine ⟨hbusy, hlength, ?_⟩
      have hne : f.slot ≠ s.txTail := htail ▸ h.slot_ne hroom hf
      simp only [Function.update_of_ne hne]
      exact hdata
    · intro c hc
      simp only [Option.some_inj] at hc
      subst hc
      refine ⟨htail, hroom, hlen, ?_, fun hne => absurd rfl hne, fun hne => absurd rfl hne, htail⟩
      simp

/-- What a store to the descriptor of the call leaves of the outstanding frames. -/
theorem Inv.frames_setTxDesc (h : Inv s) {c : TxCall} (hc : s.call = some c) (d : TxDesc) :
    ∀ f ∈ s.outstanding, FrameInv (setTxDesc s c.idx d) f := by
  intro f hf
  obtain ⟨hbusy, hlength, hdata⟩ := h.frames f hf
  have hcall := h.call c hc
  have hne : f.slot ≠ c.idx := by
    rw [hcall.idx]
    exact h.slot_ne hcall.room hf
  refine ⟨?_, ?_, hdata⟩
  · simp only [setTxDesc, Function.update_of_ne hne]
    exact hbusy
  · simp only [setTxDesc, Function.update_of_ne hne]
    exact hlength

/-- A store to the descriptor of the call, after which the call has come further. -/
theorem Inv.storeDesc (h : Inv s) {c : TxCall} (hc : s.call = some c) (d : TxDesc)
    (next : TxStore)
    (hnext : CallInv { setTxDesc s c.idx d with call := some { c with next := next } }
      { c with next := next }) :
    Inv { setTxDesc s c.idx d with call := some { c with next := next } } where
  head := h.head
  tdt := h.tdt
  count := h.count
  slots := h.slots
  frames f hf := by
    obtain ⟨hbusy, hlength, hdata⟩ := h.frames_setTxDesc hc d f hf
    exact ⟨hbusy, hlength, hdata⟩
  idle hcall := by cases hcall
  call c' hc' := by
    rw [Option.some_inj] at hc'
    subst hc'
    exact hnext

theorem Inv.sendStore (h : Inv s) : Inv (sendStore s) := by
  unfold E1000.sendStore
  split
  · exact h
  · rename_i c hc
    obtain ⟨hidx, hroom, hsize, hcopied, hbusy, hlength, htail⟩ := h.call c hc
    cases hnext : c.next with
    | status =>
      rw [hnext] at htail
      refine h.storeDesc hc _ _ ⟨hidx, hroom, hsize, hcopied, fun _ => ?_, fun _ hne => ?_, htail⟩
      · simp [setTxDesc, TxDesc.done]
      · exact absurd rfl hne
    | length =>
      rw [hnext] at htail hbusy
      refine h.storeDesc hc _ _ ⟨hidx, hroom, hsize, hcopied, fun _ => ?_, fun _ _ => ?_, htail⟩
      · simpa [setTxDesc, TxDesc.done] using hbusy
      · simp only [setTxDesc, Function.update_self]
        exact Nat.mod_eq_of_lt (by omega)
    | cmd =>
      rw [hnext] at htail hbusy hlength
      refine h.storeDesc hc _ _ ⟨hidx, hroom, hsize, hcopied, fun _ => ?_, fun _ _ => ?_, htail⟩
      · simpa [setTxDesc, TxDesc.done] using hbusy
      · simpa [setTxDesc] using hlength
    | tail =>
      rw [hnext] at hbusy hlength
      refine ⟨h.head, h.tdt, h.count, h.slots, fun f hf => ?_, fun hcall => (by cases hcall), ?_⟩
      · obtain ⟨hb, hl, hd⟩ := h.frames f hf
        exact ⟨hb, hl, hd⟩
      · intro c' hc'
        rw [Option.some_inj] at hc'
        subst hc'
        refine ⟨hidx, hroom, hsize, hcopied, fun _ => hbusy (by simp),
          fun _ _ => hlength (by simp) (by simp), ?_⟩
        simp only [if_true]
        rw [hidx]
        rfl
    | doorbell =>
      rw [hnext, if_pos rfl] at htail
      rw [hnext] at hbusy hlength
      have htdt := h.tdt
      refine ⟨h.head, ?_, ?_, ?_, ?_, fun _ => rfl, fun c' hc' => (by cases hc')⟩
      · simp only [List.length_append, List.length_singleton]
        omega
      · simp only [List.length_append, List.length_singleton]
        omega
      · intro k hk
        simp only [List.length_append, List.length_singleton] at hk
        by_cases hlast : k = s.outstanding.length
        · subst hlast
          simp only [List.getElem_concat_length]
          omega
        · have hk' : k < s.outstanding.length := by omega
          simp only [List.getElem_append_left hk']
          exact h.slots k hk'
      · intro f hf
        rcases List.mem_append.mp hf with hf | hf
        · obtain ⟨hb, hl, hd⟩ := h.frames f hf
          exact ⟨hb, hl, hd⟩
        · rw [List.mem_singleton] at hf
          subst hf
          exact ⟨hbusy (by simp), hlength (by simp) (by simp), hcopied⟩

/-- The card takes the first of the frames that are outstanding. -/
theorem Inv.outstanding_filter (h : Inv s) (hne : s.tdh ≠ s.tdt) :
    ∃ f rest, s.outstanding = f :: rest ∧ f.slot = s.tdh ∧
      s.outstanding.filter (fun f => f.slot ≠ s.tdh) = rest := by
  have hhead := h.head
  have htdt := h.tdt
  have hcount := h.count
  cases hout : s.outstanding with
  | nil =>
    rw [hout, List.length_nil] at htdt
    omega
  | cons f rest =>
    have hlen : s.outstanding.length = rest.length + 1 := by rw [hout, List.length_cons]
    have hslot : f.slot = s.tdh := by
      have := h.slots 0 (by omega)
      simp only [hout, List.getElem_cons_zero] at this
      omega
    refine ⟨f, rest, rfl, hslot, ?_⟩
    rw [List.filter_cons_of_neg (by simp [hslot]), List.filter_eq_self]
    intro g hg
    obtain ⟨k, hk, hget⟩ := List.getElem_of_mem hg
    have := h.slots (k + 1) (by omega)
    simp only [hout, List.getElem_cons_succ, hget] at this
    rw [decide_eq_true_iff]
    omega

theorem Inv.nicTransmit (h : Inv s) : Inv (nicTransmit s) := by
  unfold E1000.nicTransmit
  split
  · exact h
  · rename_i hne
    obtain ⟨f, rest, hout, hslot, hfilter⟩ := h.outstanding_filter hne
    have hhead := h.head
    have htdt := h.tdt
    have hcount := h.count
    have hlen : s.outstanding.length = rest.length + 1 := by rw [hout, List.length_cons]
    have hslots : ∀ k, (hk : k < rest.length) → rest[k].slot = (s.tdh + (k + 1)) % 16 := by
      intro k hk
      have := h.slots (k + 1) (by omega)
      simpa only [hout, List.getElem_cons_succ] using this
    simp only [hfilter]
    refine ⟨Nat.mod_lt _ (by decide), ?_, ?_, ?_, ?_, h.idle, ?_⟩
    · show s.tdt = ((s.tdh + 1) % 16 + rest.length) % 16
      omega
    · show rest.length ≤ 16
      omega
    · intro k hk
      rw [hslots k hk]
      show _ = ((s.tdh + 1) % 16 + k) % 16
      omega
    · intro g hg
      obtain ⟨hb, hl, hd⟩ := h.frames g (by rw [hout]; exact List.mem_cons_of_mem _ hg)
      obtain ⟨k, hk, rfl⟩ := List.getElem_of_mem hg
      have hgne : rest[k].slot ≠ s.tdh := by
        have hk : k < rest.length := hk
        rw [hslots k hk]
        omega
      refine ⟨?_, ?_, hd⟩
      · simp only [setTxDesc, Function.update_of_ne hgne]
        exact hb
      · simp only [setTxDesc, Function.update_of_ne hgne]
        exact hl
    · intro c hc
      obtain ⟨hidx, hroom, hsize, hcopied, hbusy, hlength, htail⟩ := h.call c hc
      have hcne : c.idx ≠ s.tdh := by
        rw [hidx]
        exact fun heq => hne heq.symm
      have hless : rest.length < 16 := by omega
      refine ⟨hidx, hless, hsize, hcopied, ?_, ?_, htail⟩
      · intro hn
        simp only [setTxDesc, Function.update_of_ne hcne]
        exact hbusy hn
      · intro hn hn'
        simp only [setTxDesc, Function.update_of_ne hcne]
        exact hlength hn hn'

theorem Inv.txStep (h : Inv s) (a : TxAct) : Inv (txStep s a) := by
  cases a with
  | send data => exact h.sendStart data
  | store => exact h.sendStore
  | nic => exact h.nicTransmit

/-! ## What the card sees -/

/-- The frames that are outstanding are as many as the descriptors from TDH to TDT, and each is in
one of these. -/
def Visible (s : Tx) : Prop :=
  s.outstanding.length = (s.tdt + 16 - s.tdh) % 16 ∧
    ∀ f ∈ s.outstanding, NicOwns s.tdh s.tdt f.slot

/-- The frame of a call that is accepted is copied over no frame that is outstanding. -/
def NoOverwrite (s : Tx) (data : List UInt8) : Prop :=
  ∀ idx, copyTarget s data = some idx → ∀ f ∈ s.outstanding, f.slot ≠ idx

/-- The call is about to store TDT, and TDH is where TDT will be. -/
def Fills (s : Tx) : Prop :=
  ∃ c, s.call = some c ∧ c.next = .doorbell ∧ s.tdh = s.txTail

theorem Inv.noOverwrite (h : Inv s) (data : List UInt8) : NoOverwrite s data := by
  intro idx hidx f hf
  rcases sendStart_cases s data with ⟨hnone, _⟩ | ⟨hidle, hdone, _, htarget, _⟩
  · rw [hnone] at hidx
    cases hidx
  · rw [htarget, Option.some_inj] at hidx
    have htail := h.idle hidle
    rw [htail] at hdone hidx
    rw [← hidx]
    exact h.slot_ne (h.room hdone) hf

theorem Inv.visible_iff (h : Inv s) : Visible s ↔ s.outstanding.length < 16 := by
  have hhead := h.head
  have htdt := h.tdt
  have hcount := h.count
  constructor
  · rintro ⟨heq, _⟩
    omega
  · intro hlt
    refine ⟨by omega, fun f hf => ?_⟩
    obtain ⟨k, hk, hslot⟩ := h.slot_of_mem hf
    exact ⟨k, by omega, hslot⟩

/-- Only the store to TDT adds a frame. -/
theorem outstanding_le (h : Inv s) {a : TxAct}
    (hlt : s.outstanding.length < 16) (ha : a = .store → ¬ Fills s) :
    (txStep s a).outstanding.length < 16 := by
  cases a with
  | send data =>
    rcases sendStart_cases s data with ⟨_, heq⟩ | ⟨_, _, _, _, heq⟩
    · rw [txStep, heq]
      exact hlt
    · rw [txStep, heq]
      exact hlt
  | nic =>
    simp only [txStep, nicTransmit]
    split
    · exact hlt
    · exact Nat.lt_of_le_of_lt (List.length_filter_le _ _) hlt
  | store =>
    have hroom := ha rfl
    simp only [txStep, sendStore]
    split
    · exact hlt
    · rename_i c hc
      cases hnext : c.next with
      | status => exact hlt
      | length => exact hlt
      | cmd => exact hlt
      | tail => exact hlt
      | doorbell =>
        have hcall := h.call c hc
        have htail := hcall.tail
        rw [hnext, if_pos rfl] at htail
        have hne : s.tdh ≠ s.txTail := fun heq => hroom ⟨c, hc, hnext, heq⟩
        have htdt := h.tdt
        have hhead := h.head
        simp only [List.length_append, List.length_singleton]
        omega

/-- The store that fills the ring hides every frame from the card. -/
theorem not_visible_of_fills (hfills : Fills s) : ¬ Visible (txStep s .store) := by
  obtain ⟨c, hc, hnext, heq⟩ := hfills
  have hstep : txStep s .store = { s with
      tdt := s.txTail
      call := none
      outstanding := s.outstanding ++ [⟨c.idx, c.data⟩] } := by
    simp only [txStep, sendStore, hc, hnext]
  rintro ⟨hcount, _⟩
  rw [hstep] at hcount
  simp only [List.length_append, List.length_singleton, heq] at hcount
  omega

/-- A full ring stays as it is: the card sees nothing, and every call is refused. -/
theorem full_stuck (h : Inv s) (hfull : s.outstanding.length = 16) (a : TxAct) :
    txStep s a = s := by
  have hhead := h.head
  have htdt := h.tdt
  have heq : s.tdt = s.tdh := by omega
  have hidle : s.call = none := by
    cases hc : s.call with
    | none => rfl
    | some c =>
      have := (h.call c hc).room
      omega
  cases a with
  | send data =>
    rcases sendStart_cases s data with ⟨_, hstep⟩ | ⟨_, hdone, _, _, _⟩
    · exact hstep
    · rw [h.idle hidle] at hdone
      have := h.room hdone
      omega
  | store => simp only [txStep, sendStore, hidle]
  | nic => simp only [txStep, nicTransmit, heq, if_true]

theorem inv_after {acts : List TxAct} (h : Inv s) (n : Nat) : Inv (after txStep s acts n) :=
  after_induction (P := Inv) (C := fun _ _ => True) h (fun _ a hinv _ => hinv.txStep a)
    (fun _ _ _ => trivial) n

/-- In every run from `e1000_tx_init`, the card sees every accepted frame in every state if and
only if no store to TDT fills the ring; no frame is ever overwritten before it is marked; and a ring
that is full stays full, whatever is called. -/
theorem frames_visible (initialized : Bool) (addr : Nat → Nat) (bufs : Nat → List UInt8)
    (acts : List TxAct) :
    ((∀ n, Visible (after txStep (txInit initialized addr bufs) acts n)) ↔
      ∀ n, acts[n]? = some .store → ¬ Fills (after txStep (txInit initialized addr bufs) acts n)) ∧
    (∀ n data, NoOverwrite (after txStep (txInit initialized addr bufs) acts n) data) ∧
    ∀ n, (after txStep (txInit initialized addr bufs) acts n).outstanding.length = 16 →
      ∀ a, txStep (after txStep (txInit initialized addr bufs) acts n) a =
        after txStep (txInit initialized addr bufs) acts n := by
  have hinit := inv_txInit initialized addr bufs
  have hinv : ∀ n, Inv (after txStep (txInit initialized addr bufs) acts n) := inv_after hinit
  refine ⟨⟨fun hvisible n ha hfills => ?_, fun hroom n => ?_⟩, fun n => (hinv n).noOverwrite,
    fun n => full_stuck (hinv n)⟩
  · have hnext := hvisible (n + 1)
    rw [after_succ ha] at hnext
    exact not_visible_of_fills hfills hnext
  · have hlt : Inv (after txStep (txInit initialized addr bufs) acts n) ∧
        (after txStep (txInit initialized addr bufs) acts n).outstanding.length < 16 := by
      refine after_induction (P := fun s => Inv s ∧ s.outstanding.length < 16)
        (C := fun s a => a = .store → ¬ Fills s) ⟨hinit, by simp [txInit]⟩ ?_ ?_ n
      · intro s a hs ha
        exact ⟨hs.1.txStep a, outstanding_le hs.1 hs.2 ha⟩
      · intro m a ham heq
        exact hroom m (heq ▸ ham)
    exact hlt.1.visible_iff.mpr hlt.2

/-! ## What the card sends -/

/-- What has been sent and what is still to be sent. -/
def traffic (s : Tx) : List (List UInt8) := s.sent ++ s.outstanding.map TxFrame.data

/-- The frame that a step accepts. -/
def accepts (s : Tx) : TxAct → List (List UInt8)
  | .send _ => []
  | .nic => []
  | .store =>
    match s.call with
    | none => []
    | some c => if c.next = .doorbell then [c.data] else []

/-- The card sends what was accepted: a frame leaves its buffer as it was copied into it. -/
theorem traffic_step (h : Inv s) (a : TxAct) :
    traffic (txStep s a) = traffic s ++ accepts s a := by
  cases a with
  | send data =>
    rw [accepts, List.append_nil]
    rcases sendStart_cases s data with ⟨_, heq⟩ | ⟨_, _, _, _, heq⟩
    · rw [txStep, heq]
    · rw [txStep, heq]
      rfl
  | store =>
    cases hc : s.call with
    | none => simp [txStep, sendStore, accepts, hc]
    | some c =>
      obtain ⟨idx, data, next⟩ := c
      cases next with
      | status => simp [txStep, sendStore, accepts, hc, traffic, setTxDesc]
      | length => simp [txStep, sendStore, accepts, hc, traffic, setTxDesc]
      | cmd => simp [txStep, sendStore, accepts, hc, traffic, setTxDesc]
      | tail => simp [txStep, sendStore, accepts, hc, traffic]
      | doorbell => simp [txStep, sendStore, accepts, hc, traffic]
  | nic =>
    rw [accepts, List.append_nil, txStep, nicTransmit]
    split
    · rfl
    · rename_i hne
      obtain ⟨f, rest, hout, hslot, hfilter⟩ := h.outstanding_filter hne
      obtain ⟨_, hlength, hdata⟩ := h.frames f (by rw [hout]; exact List.mem_cons_self ..)
      rw [hslot] at hlength hdata
      simp only [traffic, hfilter, hlength, hdata]
      rw [hout, List.map_cons, List.append_assoc, List.singleton_append]

/-- Sixteen calls with a frame of one byte, and a card that takes no step. -/
def burst : List TxAct :=
  (List.replicate 16 [.send [0], .store, .store, .store, .store, .store]).flatten

theorem burst_hidden :
    ¬ ∀ acts n, Visible (after txStep (txInit true (fun _ => 0) fun _ => []) acts n) := by
  intro h
  have hcount := (h burst 96).1
  revert hcount
  decide +kernel

end Kyuzen.E1000
