import Mathlib.Data.List.Basic
import Kyuzen.E1000.Send

/-!
# The receive ring

`e1000_poll` as its accesses one after another, and the network card beside it, which stores a
frame in three steps: the data, the length and the errors, and then the status with the DD bit
together with RDH. The frames that the driver has not given back lie in order from the descriptor
after RDT on (`RxInv`).

The driver looks at the status of the descriptor after its tail, which the card may own, and at
nothing else in a descriptor that the card owns; it passes on the frames that are complete, without
errors and not empty (`frames_delivered`).
-/

namespace Kyuzen.E1000

open Lib

def numRxDesc : Nat := 16
def rxBufSize : Nat := 2048

/-- `e1000_rx_desc_t`. -/
structure RxDesc where
  addr : Nat
  length : Nat
  checksum : Nat
  status : Nat
  errors : Nat
  special : Nat

/-- E1000_RXSTA_DD. -/
def RxDesc.done (d : RxDesc) : Bool := d.status.testBit 0

/-- E1000_RXSTA_EOP. -/
def RxDesc.eop (d : RxDesc) : Bool := d.status.testBit 1

/-- What the card stores in one descriptor: a frame, or a part of one. `flags` are the other bits
of the status. -/
structure RxFrame where
  data : List UInt8
  first : Bool
  eop : Bool
  flags : Nat
  checksum : Nat
  errors : Nat
  special : Nat
  deriving DecidableEq

def RxFrame.status (f : RxFrame) : Nat := 1 + 2 * f.eop.toNat + 4 * f.flags

/-- The whole frame is in one descriptor. -/
def RxFrame.single (f : RxFrame) : Bool := f.first && f.eop

/-- A frame without errors in one descriptor. -/
def RxFrame.good (f : RxFrame) : Bool := f.single && f.errors == 0

/-- What `e1000_poll` passes on. -/
def RxFrame.passes (f : RxFrame) : Bool := f.eop && f.errors == 0 && decide (0 < f.data.length)

/-- The accesses of a round of the loop, by the next one. -/
inductive PollPoint
  | status | length | deliver | clearStatus | clearLength | clearErrors | tail
  deriving DecidableEq

/-- A call of `e1000_poll`, with its variables. -/
structure RxPoll where
  tail : Nat
  point : PollPoint
  pktLen : Nat

/-- The driver and the card. `filling` is the frame that the card is storing, and whether its
length is in place. `holder` is the frame last stored in a descriptor, `stored` is what the card
has stored, and `passed` what `e1000_rx_callback` has been given. -/
structure Rx where
  initialized : Bool
  descs : Nat → RxDesc
  bufs : Nat → List UInt8
  rxTail : Nat
  rdh : Nat
  rdt : Nat
  poll : Option RxPoll
  filling : Option (RxFrame × Bool)
  holder : Nat → RxFrame
  stored : List RxFrame
  passed : List RxFrame

/-- `e1000_rx_init`, with the addresses of the pages and what is in them. -/
def rxInit (initialized : Bool) (addr : Nat → Nat) (bufs : Nat → List UInt8) : Rx where
  initialized := initialized
  descs i := ⟨addr i, 0, 0, 0, 0, 0⟩
  bufs := bufs
  rxTail := numRxDesc - 1
  rdh := 0
  rdt := numRxDesc - 1
  poll := none
  filling := none
  holder _ := ⟨[], false, false, 0, 0, 0, 0⟩
  stored := []
  passed := []

def setRxDesc (s : Rx) (i : Nat) (d : RxDesc) : Rx :=
  { s with descs := Function.update s.descs i d }

/-! ## The driver -/

/-- The call of `e1000_poll`. What it reads from RDH is not used. -/
def pollStart (s : Rx) : Rx :=
  if s.poll.isSome || !s.initialized then s
  else { s with poll := some ⟨s.rxTail, .status, 0⟩ }

/-- The frame as the callback gets it from the buffer. -/
def received (s : Rx) (i pktLen : Nat) : RxFrame :=
  { s.holder i with data := (s.bufs i).take pktLen }

/-- The next access of the call. -/
def pollAccess (s : Rx) : Rx :=
  match s.poll with
  | none => s
  | some p =>
    let next := (p.tail + 1) % numRxDesc
    let d := s.descs next
    match p.point with
    | .status =>
      if !d.done then { s with rxTail := p.tail, poll := none }
      else { s with poll := some { p with point := .length } }
    | .length => { s with poll := some { p with point := .deliver, pktLen := d.length } }
    | .deliver =>
      { s with
        poll := some { p with point := .clearStatus }
        passed :=
          if d.eop && d.errors == 0 && decide (0 < p.pktLen) then
            s.passed ++ [received s next p.pktLen]
          else s.passed }
    | .clearStatus =>
      { setRxDesc s next { d with status := 0 } with poll := some { p with point := .clearLength } }
    | .clearLength =>
      { setRxDesc s next { d with length := 0 } with poll := some { p with point := .clearErrors } }
    | .clearErrors =>
      { setRxDesc s next { d with errors := 0 } with poll := some { p with point := .tail } }
    | .tail => { s with rdt := next, poll := some { p with tail := next, point := .status } }

/-! ## The card -/

/-- The card stores the data of a frame that fits, when it owns a descriptor. -/
def nicData (s : Rx) (f : RxFrame) : Rx :=
  if s.filling.isSome ∨ s.rdh = s.rdt ∨ rxBufSize < f.data.length then s
  else
    { s with
      bufs := Function.update s.bufs s.rdh (f.data ++ (s.bufs s.rdh).drop f.data.length)
      filling := some (f, false) }

def nicLength (s : Rx) : Rx :=
  match s.filling with
  | some (f, false) =>
    { setRxDesc s s.rdh { s.descs s.rdh with
        length := f.data.length
        checksum := f.checksum
        errors := f.errors
        special := f.special } with
      filling := some (f, true) }
  | some (_, true) => s
  | none => s

def nicDone (s : Rx) : Rx :=
  match s.filling with
  | some (f, true) =>
    { setRxDesc s s.rdh { s.descs s.rdh with status := f.status } with
      rdh := (s.rdh + 1) % numRxDesc
      filling := none
      holder := Function.update s.holder s.rdh f
      stored := s.stored ++ [f] }
  | some (_, false) => s
  | none => s

inductive RxAct
  | poll
  | access
  | data (f : RxFrame)
  | length
  | done

def rxStep (s : Rx) : RxAct → Rx
  | .poll => pollStart s
  | .access => pollAccess s
  | .data f => nicData s f
  | .length => nicLength s
  | .done => nicDone s

/-! ## The invariant -/

/-- The frame is in its descriptor and in its buffer. -/
structure Holds (s : Rx) (i : Nat) (f : RxFrame) : Prop where
  status : (s.descs i).status = f.status
  length : (s.descs i).length = f.data.length
  errors : (s.descs i).errors = f.errors
  data : (s.bufs i).take f.data.length = f.data
  holder : s.holder i = f

/-- The round has dealt with the frame. -/
def PollPoint.delivered : PollPoint → Bool
  | .status => false
  | .length => false
  | .deliver => false
  | .clearStatus => true
  | .clearLength => true
  | .clearErrors => true
  | .tail => true

/-- How far the call under way has come with the first of the frames. -/
structure PollInv (s : Rx) (queue : List RxFrame) (p : RxPoll) : Prop where
  tail : p.tail = s.rdt
  nonempty : p.point ≠ .status → queue ≠ []
  pktLen : p.point = .deliver → ∀ f, queue.head? = some f → p.pktLen = f.data.length
  cleared : p.point = .clearLength ∨ p.point = .clearErrors ∨ p.point = .tail →
    (s.descs ((s.rdt + 1) % 16)).done = false

/-- How far the card has come with the frame that it is storing. -/
structure FillInv (s : Rx) (f : RxFrame) (described : Bool) : Prop where
  room : s.rdh ≠ s.rdt
  data : (s.bufs s.rdh).take f.data.length = f.data
  length : described = true → (s.descs s.rdh).length = f.data.length
  errors : described = true → (s.descs s.rdh).errors = f.errors

/-- Whether the first frame of the queue has been dealt with. -/
def delivered (s : Rx) : Bool := s.poll.any fun p => p.point.delivered

/-- `returned` are the frames whose descriptors have been given back, `queue` those that are in
their descriptors. -/
structure RxInv (s : Rx) (returned queue : List RxFrame) : Prop where
  stored : s.stored = returned ++ queue
  passed : s.passed =
    (returned ++ if delivered s = true then queue.take 1 else []).filter RxFrame.passes
  tail : s.rdt < 16
  count : queue.length ≤ 15
  head : s.rdh = (s.rdt + 1 + queue.length) % 16
  held : ∀ k, (hk : k < queue.length) → (delivered s = true → k ≠ 0) →
    Holds s ((s.rdt + 1 + k) % 16) queue[k]
  free : ∀ k, queue.length ≤ k → k < 16 → (s.descs ((s.rdt + 1 + k) % 16)).done = false
  idle : s.poll = none → s.rxTail = s.rdt
  poll : ∀ p, s.poll = some p → PollInv s queue p
  filling : ∀ f described, s.filling = some (f, described) → FillInv s f described

variable {s : Rx} {returned queue : List RxFrame} {f : RxFrame}

theorem Holds.eop {i : Nat} (h : Holds s i f) : (s.descs i).eop = f.eop := by
  have hmod : (1 + 2 * f.eop.toNat + 4 * f.flags) / 2 % 2 = f.eop.toNat := by
    have := Bool.toNat_le f.eop
    omega
  rw [RxDesc.eop, h.status, RxFrame.status, Nat.testBit_succ, Nat.testBit_zero, hmod]
  cases f.eop with
  | false => rfl
  | true => rfl

theorem Holds.received {i : Nat} (h : Holds s i f) : received s i f.data.length = f := by
  rw [E1000.received, h.holder, h.data]

theorem rxInv_rxInit (initialized : Bool) (addr : Nat → Nat) (bufs : Nat → List UInt8) :
    RxInv (rxInit initialized addr bufs) [] [] where
  stored := rfl
  passed := rfl
  tail := by simp [rxInit, numRxDesc]
  count := Nat.zero_le _
  head := by simp [rxInit, numRxDesc]
  held k hk := absurd hk (Nat.not_lt_zero k)
  free k _ _ := by simp [rxInit, RxDesc.done]
  idle _ := rfl
  poll p hp := by cases hp
  filling f described hf := by cases hf

theorem Holds.congr {s' : Rx} {i : Nat} (h : Holds s i f) (hd : s'.descs i = s.descs i)
    (hb : s'.bufs i = s.bufs i) (hh : s'.holder i = s.holder i) : Holds s' i f where
  status := by rw [hd, h.status]
  length := by rw [hd, h.length]
  errors := by rw [hd, h.errors]
  data := by rw [hb, h.data]
  holder := by rw [hh, h.holder]

/-- What the card has stored so far is as it was. -/
theorem FillInv.congr {s' : Rx} {described : Bool} (h : FillInv s f described)
    (hroom : s'.rdh ≠ s'.rdt) (hrdh : s'.rdh = s.rdh) (hd : s'.descs s.rdh = s.descs s.rdh)
    (hb : s'.bufs s.rdh = s.bufs s.rdh) : FillInv s' f described where
  room := hroom
  data := by rw [hrdh, hb, h.data]
  length hdescribed := by rw [hrdh, hd, h.length hdescribed]
  errors hdescribed := by rw [hrdh, hd, h.errors hdescribed]

/-- A round begins. -/
theorem PollInv.of_status {p : RxPoll} (htail : p.tail = s.rdt) (hpoint : p.point = .status) :
    PollInv s queue p where
  tail := htail
  nonempty hne := absurd hpoint hne
  pktLen hp := by
    rw [hpoint] at hp
    cases hp
  cleared hp := by
    rw [hpoint] at hp
    rcases hp with hp | hp | hp <;> cases hp

theorem PollInv.of_clearing {p : RxPoll} (h : PollInv s queue p)
    (hpoint : p.point = .clearLength ∨ p.point = .clearErrors ∨ p.point = .tail) : queue ≠ [] := by
  apply h.nonempty
  intro hp
  rw [hp] at hpoint
  rcases hpoint with hp | hp | hp <;> cases hp

/-- The descriptor that the call is at is as it was. -/
theorem PollInv.congr {s' : Rx} {p : RxPoll} (h : PollInv s queue p) (hrdt : s'.rdt = s.rdt)
    (hd : queue ≠ [] → s'.descs ((s.rdt + 1) % 16) = s.descs ((s.rdt + 1) % 16)) :
    PollInv s' queue p where
  tail := h.tail.trans hrdt.symm
  nonempty := h.nonempty
  pktLen := h.pktLen
  cleared hpoint := by rw [hrdt, hd (h.of_clearing hpoint), h.cleared hpoint]

/-- The first frame, which is in the descriptor after the tail. -/
theorem RxInv.first (h : RxInv s returned queue) (hq : queue ≠ []) (hd : delivered s = false) :
    ∃ f rest, queue = f :: rest ∧ Holds s ((s.rdt + 1) % 16) f := by
  cases queue with
  | nil => exact absurd rfl hq
  | cons f rest => exact ⟨f, rest, rfl, h.held 0 (by simp) fun hdel => by simp [hd] at hdel⟩

theorem delivered_eq {p : RxPoll} (hp : s.poll = some p) : delivered s = p.point.delivered := by
  rw [delivered, hp, Option.any_some]

/-- The frame that has been dealt with is still the first of the queue. -/
theorem RxInv.nonempty (h : RxInv s returned queue) (hdel : delivered s = true) : queue ≠ [] := by
  cases hp : s.poll with
  | none =>
    rw [delivered, hp] at hdel
    cases hdel
  | some p =>
    rw [delivered_eq hp] at hdel
    apply (h.poll p hp).nonempty
    intro hpoint
    rw [hpoint] at hdel
    cases hdel

/-! ## The steps of the driver -/

theorem RxInv.pollStart (h : RxInv s returned queue) :
    RxInv (pollStart s) returned queue := by
  unfold E1000.pollStart
  split
  · exact h
  · rename_i hidle
    have hnone : s.poll = none := by
      cases hp : s.poll with
      | none => rfl
      | some p => simp [hp] at hidle
    have hd : delivered s = false := by rw [delivered, hnone, Option.any_none]
    obtain ⟨hstored, hpassed, htail, hcount, hhead, hheld, hfree, hrest, _, hfilling⟩ := h
    rw [hd] at hpassed hheld
    refine ⟨hstored, hpassed, htail, hcount, hhead, ?_, hfree, fun hcall => (by cases hcall), ?_,
      fun f described hf => ?_⟩
    · intro k hk _
      exact (hheld k hk fun hdel => by cases hdel).congr rfl rfl rfl
    · intro p hp
      rw [Option.some_inj] at hp
      subst hp
      exact .of_status (hrest hnone) rfl
    · have hfill := hfilling f described hf
      exact hfill.congr hfill.room rfl rfl rfl

/-- A step that changes neither the descriptors nor the ring, before the frame is dealt with. -/
theorem RxInv.movePoll (h : RxInv s returned queue) {p : RxPoll} (hp : s.poll = some p)
    (hdel : p.point.delivered = false) {p' : RxPoll} (hdel' : p'.point.delivered = false)
    (hp' : PollInv s queue p') : RxInv { s with poll := some p' } returned queue := by
  have hd : delivered s = false := (delivered_eq hp).trans hdel
  have hd' : delivered { s with poll := some p' } = false := (delivered_eq rfl).trans hdel'
  obtain ⟨hstored, hpassed, htail, hcount, hhead, hheld, hfree, _, _, hfilling⟩ := h
  rw [hd] at hpassed hheld
  refine ⟨hstored, by rw [hd']; exact hpassed, htail, hcount, hhead, ?_, hfree,
    fun hcall => (by cases hcall), ?_, fun f described hf => ?_⟩
  · intro k hk _
    exact (hheld k hk fun hdel => by cases hdel).congr rfl rfl rfl
  · intro q hq
    rw [Option.some_inj] at hq
    subst hq
    exact hp'.congr rfl fun _ => rfl
  · have hfill := hfilling f described hf
    exact hfill.congr hfill.room rfl rfl rfl

/-- A store to the descriptor of the first frame, which has been dealt with. -/
theorem RxInv.clearDesc (h : RxInv s returned queue) {p : RxPoll} (hp : s.poll = some p)
    (hdel : p.point.delivered = true) (hq : queue ≠ []) (d : RxDesc) {p' : RxPoll}
    (htail' : p'.tail = p.tail) (hdel' : p'.point.delivered = true) (hdone : d.done = false) :
    RxInv { setRxDesc s ((p.tail + 1) % numRxDesc) d with poll := some p' } returned queue := by
  have hd : delivered s = true := (delivered_eq hp).trans hdel
  obtain ⟨hptail, _, _, _⟩ := h.poll p hp
  have hnext : (p.tail + 1) % numRxDesc = (s.rdt + 1) % 16 := by rw [hptail]; rfl
  have hpos : 0 < queue.length := List.length_pos_iff.mpr hq
  rw [hnext]
  have hd' : delivered { setRxDesc s ((s.rdt + 1) % 16) d with poll := some p' } = true :=
    (delivered_eq rfl).trans hdel'
  obtain ⟨hstored, hpassed, htail, hcount, hhead, hheld, hfree, _, _, hfilling⟩ := h
  rw [hd] at hpassed hheld
  refine ⟨hstored, by rw [hd']; exact hpassed, htail, hcount, hhead, ?_, ?_,
    fun hcall => (by cases hcall), ?_, fun f described hf => ?_⟩
  · intro k hk hne
    have hk0 : k ≠ 0 := hne hd'
    have hslot : (s.rdt + 1 + k) % 16 ≠ (s.rdt + 1) % 16 := by omega
    refine (hheld k hk fun _ => hk0).congr ?_ rfl rfl
    exact Function.update_of_ne hslot _ _
  · intro k hk hlt
    have hslot : (s.rdt + 1 + k) % 16 ≠ (s.rdt + 1) % 16 := by omega
    simp only [setRxDesc, Function.update_of_ne hslot]
    exact hfree k hk hlt
  · intro q hq'
    rw [Option.some_inj] at hq'
    subst hq'
    refine ⟨htail'.trans hptail, fun _ => hq, fun hpoint => ?_, fun _ => ?_⟩
    · rw [hpoint] at hdel'
      cases hdel'
    · simp only [setRxDesc, Function.update_self]
      exact hdone
  · have hfill := hfilling f described hf
    have hroom := hfill.room
    have hslot : s.rdh ≠ (s.rdt + 1) % 16 := by omega
    exact hfill.congr hroom rfl (Function.update_of_ne hslot _ _) rfl

/-- The frame is passed on, or it is not complete, has errors or is empty. -/
theorem RxInv.deliver (h : RxInv s returned queue) {p : RxPoll} (hp : s.poll = some p)
    (hpoint : p.point = .deliver) :
    RxInv (pollAccess s) returned queue := by
  have hdel : delivered s = false := by rw [delivered_eq hp, hpoint]; rfl
  obtain ⟨hptail, hpq, hplen, _⟩ := h.poll p hp
  have hq : queue ≠ [] := hpq (by rw [hpoint]; simp)
  obtain ⟨f, rest, hqueue, hholds⟩ := h.first hq hdel
  have hlen : p.pktLen = f.data.length := hplen hpoint f (by rw [hqueue, List.head?_cons])
  have hnext : (p.tail + 1) % numRxDesc = (s.rdt + 1) % 16 := by rw [hptail]; rfl
  have hcond : ((s.descs ((s.rdt + 1) % 16)).eop && (s.descs ((s.rdt + 1) % 16)).errors == 0 &&
      decide (0 < f.data.length)) = f.passes := by
    rw [hholds.eop, hholds.errors, RxFrame.passes]
  have hstep : pollAccess s = { s with
      poll := some { p with point := .clearStatus }
      passed := if f.passes = true then s.passed ++ [f] else s.passed } := by
    simp only [pollAccess, hp, hpoint, hnext, hlen, hcond, hholds.received]
  have hd' : delivered (pollAccess s) = true := by rw [hstep]; rfl
  obtain ⟨hstored, hpassed, htail, hcount, hhead, hheld, hfree, _, _, hfilling⟩ := h
  rw [hdel] at hpassed hheld
  rw [hstep] at hd' ⊢
  refine ⟨hstored, ?_, htail, hcount, hhead, ?_, hfree, fun hcall => (by cases hcall), ?_,
    fun f described hf => ?_⟩
  · rw [hd', if_pos rfl, hqueue, List.take_succ_cons, List.take_zero, List.filter_append, hpassed,
      if_neg Bool.false_ne_true, List.append_nil]
    by_cases hpass : f.passes = true
    · simp [hpass]
    · simp [hpass]
  · intro k hk _
    exact (hheld k hk fun hdel => by cases hdel).congr rfl rfl rfl
  · intro q hq'
    rw [Option.some_inj] at hq'
    subst hq'
    exact ⟨hptail, fun _ => hq, fun hne => (by cases hne),
      fun hne => (by rcases hne with hne | hne | hne <;> cases hne)⟩
  · have hfill := hfilling f described hf
    exact hfill.congr hfill.room rfl rfl rfl

/-- The descriptor of the first frame is given back to the card. -/
theorem RxInv.giveBack (h : RxInv s returned queue) {p : RxPoll} (hp : s.poll = some p)
    (hpoint : p.point = .tail) :
    ∃ f rest, queue = f :: rest ∧ RxInv (pollAccess s) (returned ++ [f]) rest := by
  have hdel : delivered s = true := by rw [delivered_eq hp, hpoint]; rfl
  obtain ⟨hptail, hpq, _, hpclear⟩ := h.poll p hp
  have hq : queue ≠ [] := hpq (by rw [hpoint]; simp)
  have hcleared := hpclear (Or.inr (Or.inr hpoint))
  have hnext : (p.tail + 1) % numRxDesc = (s.rdt + 1) % 16 := by rw [hptail]; rfl
  obtain ⟨f, rest, rfl⟩ := List.exists_cons_of_ne_nil hq
  refine ⟨f, rest, rfl, ?_⟩
  have hstep : pollAccess s = { s with
      rdt := (s.rdt + 1) % 16
      poll := some { p with tail := (s.rdt + 1) % 16, point := .status } } := by
    simp only [pollAccess, hp, hpoint, hnext]
  have hd' : delivered (pollAccess s) = false := by rw [hstep]; rfl
  obtain ⟨hstored, hpassed, htail, hcount, hhead, hheld, hfree, _, _, hfilling⟩ := h
  rw [List.length_cons] at hcount hhead hfree
  rw [hdel] at hpassed hheld
  rw [hstep] at hd' ⊢
  refine ⟨?_, ?_, Nat.mod_lt _ (by decide), by omega, ?_, ?_, ?_, fun hcall => (by cases hcall), ?_,
    fun g described hf => ?_⟩
  · rw [hstored, List.append_assoc, List.singleton_append]
  · rw [hd', if_neg Bool.false_ne_true, List.append_nil, hpassed, if_pos rfl, List.take_succ_cons,
      List.take_zero]
  · show s.rdh = ((s.rdt + 1) % 16 + 1 + rest.length) % 16
    omega
  · intro k hk _
    have hslot : ((s.rdt + 1) % 16 + 1 + k) % 16 = (s.rdt + 1 + (k + 1)) % 16 := by omega
    have hholds := hheld (k + 1) (by simpa using hk) fun _ => by omega
    simp only [hslot]
    exact hholds.congr rfl rfl rfl
  · intro k hk hlt
    by_cases hlast : k = 15
    · have hslot : ((s.rdt + 1) % 16 + 1 + k) % 16 = (s.rdt + 1) % 16 := by omega
      simp only [hslot]
      exact hcleared
    · have hslot : ((s.rdt + 1) % 16 + 1 + k) % 16 = (s.rdt + 1 + (k + 1)) % 16 := by omega
      simp only [hslot]
      exact hfree (k + 1) (by omega) (by omega)
  · intro q hq'
    rw [Option.some_inj] at hq'
    subst hq'
    exact .of_status rfl rfl
  · have hroom : s.rdh ≠ (s.rdt + 1) % 16 := by omega
    exact (hfilling g described hf).congr hroom rfl rfl rfl

theorem RxInv.pollAccess (h : RxInv s returned queue) :
    ∃ returned' queue', RxInv (pollAccess s) returned' queue' ∧
      returned' ++ queue' = returned ++ queue := by
  cases hp : s.poll with
  | none =>
    refine ⟨returned, queue, ?_, rfl⟩
    simp only [E1000.pollAccess, hp]
    exact h
  | some p =>
    obtain ⟨hptail, hpq, hplen, hpclear⟩ := h.poll p hp
    have hnext : (p.tail + 1) % numRxDesc = (s.rdt + 1) % 16 := by rw [hptail]; rfl
    cases hpoint : p.point with
    | status =>
      have hdel : delivered s = false := by rw [delivered_eq hp, hpoint]; rfl
      refine ⟨returned, queue, ?_, rfl⟩
      by_cases hdone : (s.descs ((s.rdt + 1) % 16)).done = true
      · have hstep : E1000.pollAccess s = { s with poll := some { p with point := .length } } := by
          simp only [E1000.pollAccess, hp, hpoint, hnext, hdone, Bool.not_true,
            if_neg Bool.false_ne_true]
        rw [hstep]
        refine h.movePoll hp (by rw [hpoint]; rfl) rfl ⟨hptail, fun _ hnil => ?_,
          fun hne => (by cases hne), fun hne => (by rcases hne with hne | hne | hne <;> cases hne)⟩
        have hfree := h.free 0 (by rw [hnil]; exact Nat.zero_le _) (by decide)
        rw [Nat.add_zero, hdone] at hfree
        cases hfree
      · rw [Bool.not_eq_true] at hdone
        have hstep : E1000.pollAccess s = { s with rxTail := p.tail, poll := none } := by
          simp only [E1000.pollAccess, hp, hpoint, hnext, hdone, Bool.not_false, if_true]
        rw [hstep]
        obtain ⟨hstored, hpassed, htail, hcount, hhead, hheld, hfree, _, _, hfilling⟩ := h
        rw [hdel] at hpassed hheld
        refine ⟨hstored, hpassed, htail, hcount, hhead, ?_, hfree, fun _ => hptail,
          fun q hq => (by cases hq), fun f described hf => ?_⟩
        · intro k hk _
          exact (hheld k hk fun hdel => by cases hdel).congr rfl rfl rfl
        · have hfill := hfilling f described hf
          exact hfill.congr hfill.room rfl rfl rfl
    | length =>
      have hdel : delivered s = false := by rw [delivered_eq hp, hpoint]; rfl
      have hq : queue ≠ [] := hpq (by rw [hpoint]; simp)
      obtain ⟨f, rest, hqueue, hholds⟩ := h.first hq hdel
      have hstep : E1000.pollAccess s = { s with
          poll := some { p with
            point := .deliver
            pktLen := (s.descs ((s.rdt + 1) % 16)).length } } := by
        simp only [E1000.pollAccess, hp, hpoint, hnext]
      refine ⟨returned, queue, ?_, rfl⟩
      rw [hstep]
      refine h.movePoll hp (by rw [hpoint]; rfl) rfl ⟨hptail, fun _ => hq, fun _ g hg => ?_,
        fun hne => (by rcases hne with hne | hne | hne <;> cases hne)⟩
      rw [hqueue, List.head?_cons, Option.some_inj] at hg
      rw [← hg]
      exact hholds.length
    | deliver => exact ⟨returned, queue, h.deliver hp hpoint, rfl⟩
    | clearStatus =>
      have hq : queue ≠ [] := hpq (by rw [hpoint]; simp)
      refine ⟨returned, queue, ?_, rfl⟩
      simp only [E1000.pollAccess, hp, hpoint]
      exact h.clearDesc hp (by rw [hpoint]; rfl) hq _ rfl rfl (by simp [RxDesc.done])
    | clearLength =>
      have hq : queue ≠ [] := hpq (by rw [hpoint]; simp)
      refine ⟨returned, queue, ?_, rfl⟩
      simp only [E1000.pollAccess, hp, hpoint]
      refine h.clearDesc hp (by rw [hpoint]; rfl) hq _ rfl rfl ?_
      rw [hnext]
      exact hpclear (Or.inl hpoint)
    | clearErrors =>
      have hq : queue ≠ [] := hpq (by rw [hpoint]; simp)
      refine ⟨returned, queue, ?_, rfl⟩
      simp only [E1000.pollAccess, hp, hpoint]
      refine h.clearDesc hp (by rw [hpoint]; rfl) hq _ rfl rfl ?_
      rw [hnext]
      exact hpclear (Or.inr (Or.inl hpoint))
    | tail =>
      obtain ⟨f, rest, rfl, hinv⟩ := h.giveBack hp hpoint
      exact ⟨returned ++ [f], rest, hinv, by rw [List.append_assoc, List.singleton_append]⟩

/-! ## The steps of the card -/

/-- Whether a frame can be stored: there is a descriptor between RDH and RDT. -/
theorem RxInv.count_lt (h : RxInv s returned queue) (hroom : s.rdh ≠ s.rdt) :
    queue.length < 15 := by
  have htail := h.tail
  have hcount := h.count
  have hhead := h.head
  omega

theorem RxInv.nicData (h : RxInv s returned queue) (f : RxFrame) :
    RxInv (nicData s f) returned queue := by
  unfold E1000.nicData
  split
  · exact h
  · rename_i hok
    simp only [not_or] at hok
    have hlt := h.count_lt hok.2.1
    obtain ⟨hstored, hpassed, htail, hcount, hhead, hheld, hfree, hidle, hpoll, _⟩ := h
    refine ⟨hstored, hpassed, htail, hcount, hhead, ?_, hfree, hidle, ?_, ?_⟩
    · intro k hk hne
      have hslot : (s.rdt + 1 + k) % 16 ≠ s.rdh := by omega
      refine (hheld k hk hne).congr rfl ?_ rfl
      exact Function.update_of_ne hslot _ _
    · exact fun p hp => (hpoll p hp).congr rfl fun _ => rfl
    · intro g described hg
      rw [Option.some_inj, Prod.mk.injEq] at hg
      obtain ⟨rfl, rfl⟩ := hg
      exact ⟨hok.2.1, by simp, fun hne => (by cases hne), fun hne => (by cases hne)⟩

theorem RxInv.nicLength (h : RxInv s returned queue) : RxInv (nicLength s) returned queue := by
  unfold E1000.nicLength
  split
  · rename_i f hf
    obtain ⟨hroom, hdata, _, _⟩ := h.filling f false hf
    have hlt := h.count_lt hroom
    obtain ⟨hstored, hpassed, htail, hcount, hhead, hheld, hfree, hidle, hpoll, _⟩ := h
    refine ⟨hstored, hpassed, htail, hcount, hhead, ?_, ?_, hidle, ?_, ?_⟩
    · intro k hk hne
      have hslot : (s.rdt + 1 + k) % 16 ≠ s.rdh := by
        have hk : k < queue.length := hk
        omega
      refine (hheld k hk hne).congr ?_ rfl rfl
      exact Function.update_of_ne hslot _ _
    · intro k hk hlt
      by_cases hslot : (s.rdt + 1 + k) % 16 = s.rdh
      · have := hfree k hk hlt
        simp only [hslot] at this
        simp only [setRxDesc, hslot, Function.update_self]
        exact this
      · simp only [setRxDesc, Function.update_of_ne hslot]
        exact hfree k hk hlt
    · intro p hp
      refine (hpoll p hp).congr rfl fun hq => ?_
      have hpos : 0 < queue.length := List.length_pos_iff.mpr hq
      have hslot : (s.rdt + 1) % 16 ≠ s.rdh := by omega
      exact Function.update_of_ne hslot _ _
    · intro g described hg
      rw [Option.some_inj, Prod.mk.injEq] at hg
      obtain ⟨rfl, rfl⟩ := hg
      refine ⟨hroom, hdata, fun _ => ?_, fun _ => ?_⟩
      · simp [setRxDesc]
      · simp [setRxDesc]
  · exact h
  · exact h

/-- The frame that the card has stored joins the others. -/
theorem RxInv.nicDone (h : RxInv s returned queue) :
    ∃ queue', RxInv (nicDone s) returned queue' ∧ queue.IsPrefix queue' := by
  unfold E1000.nicDone
  split
  · rename_i f hf
    obtain ⟨hroom, hdata, hlength, herrors⟩ := h.filling f true hf
    have hlt := h.count_lt hroom
    have hfirst := h.nonempty
    obtain ⟨hstored, hpassed, htail, hcount, hhead, hheld, hfree, hidle, hpoll, _⟩ := h
    refine ⟨queue ++ [f], ⟨?_, ?_, htail, ?_, ?_, ?_, ?_, hidle, ?_, ?_⟩, List.prefix_append _ _⟩
    · rw [hstored, List.append_assoc]
    · show s.passed = (returned ++ if delivered s = true then _ else _).filter _
      rw [hpassed]
      by_cases hdel : delivered s = true
      · obtain ⟨g, rest, rfl⟩ := List.exists_cons_of_ne_nil (hfirst hdel)
        simp only [if_pos hdel, List.cons_append, List.take_succ_cons, List.take_zero]
      · simp only [if_neg hdel]
    · rw [List.length_append, List.length_singleton]
      omega
    · rw [List.length_append, List.length_singleton]
      show (s.rdh + 1) % 16 = (s.rdt + 1 + (queue.length + 1)) % 16
      omega
    · intro k hk hne
      rw [List.length_append, List.length_singleton] at hk
      by_cases hlast : k = queue.length
      · subst hlast
        have hslot : (s.rdt + 1 + queue.length) % 16 = s.rdh := hhead.symm
        rw [List.getElem_concat_length rfl]
        show Holds _ ((s.rdt + 1 + queue.length) % 16) f
        rw [hslot]
        refine ⟨?_, ?_, ?_, hdata, Function.update_self ..⟩
        · simp [setRxDesc]
        · simpa [setRxDesc] using hlength rfl
        · simpa [setRxDesc] using herrors rfl
      · have hk' : k < queue.length := by omega
        have hslot : (s.rdt + 1 + k) % 16 ≠ s.rdh := by omega
        simp only [List.getElem_append_left hk']
        refine (hheld k hk' hne).congr ?_ rfl ?_
        · exact Function.update_of_ne hslot _ _
        · exact Function.update_of_ne hslot _ _
    · intro k hk hlt'
      rw [List.length_append, List.length_singleton] at hk
      have hslot : (s.rdt + 1 + k) % 16 ≠ s.rdh := by omega
      simp only [setRxDesc, Function.update_of_ne hslot]
      exact hfree k (by omega) hlt'
    · intro p hp
      obtain ⟨hptail, hpq, hplen, hpclear⟩ := hpoll p hp
      refine ⟨hptail, fun _ hnil => ?_, fun hpoint g hg => ?_, fun hpoint => ?_⟩
      · simp at hnil
      · have hq : queue ≠ [] := hpq (by rw [hpoint]; simp)
        obtain ⟨g', rest, rfl⟩ := List.exists_cons_of_ne_nil hq
        exact hplen hpoint g hg
      · have hq := (hpoll p hp).of_clearing hpoint
        have hpos : 0 < queue.length := List.length_pos_iff.mpr hq
        have hslot : (s.rdt + 1) % 16 ≠ s.rdh := by omega
        simp only [setRxDesc, Function.update_of_ne hslot]
        exact hpclear hpoint
    · intro g described hg
      cases hg
  · exact ⟨queue, h, List.prefix_refl _⟩
  · exact ⟨queue, h, List.prefix_refl _⟩

/-- Every step keeps the frames in their order. -/
theorem RxInv.rxStep (h : RxInv s returned queue) (a : RxAct) :
    ∃ returned' queue', RxInv (rxStep s a) returned' queue' := by
  cases a with
  | poll => exact ⟨returned, queue, h.pollStart⟩
  | access =>
    obtain ⟨returned', queue', hinv, _⟩ := h.pollAccess
    exact ⟨returned', queue', hinv⟩
  | data f => exact ⟨returned, queue, h.nicData f⟩
  | length => exact ⟨returned, queue, h.nicLength⟩
  | done =>
    obtain ⟨queue', hinv, _⟩ := h.nicDone
    exact ⟨returned, queue', hinv⟩

/-! ## What the driver passes on -/

/-- The descriptor that the next access of the driver reads or clears. -/
def accesses (s : Rx) : Option Nat :=
  s.poll.bind fun p =>
    if p.point = .tail then none else some ((p.tail + 1) % numRxDesc)

/-- The same, without the descriptors of which only the status is read. -/
def touches (s : Rx) : Option Nat :=
  s.poll.bind fun p =>
    if p.point = .status ∨ p.point = .tail then none else some ((p.tail + 1) % numRxDesc)

/-- The driver touches only the first of the frames that it has not given back. -/
theorem RxInv.not_owned (h : RxInv s returned queue) {i : Nat} (hi : touches s = some i) :
    ¬ NicOwns s.rdh s.rdt i := by
  obtain ⟨p, hp, htouch⟩ := Option.bind_eq_some_iff.mp hi
  split at htouch
  · cases htouch
  · rename_i hpoint
    rw [not_or] at hpoint
    obtain ⟨hptail, hpq, _, _⟩ := h.poll p hp
    have hpos : 0 < queue.length := List.length_pos_iff.mpr (hpq hpoint.1)
    have htail := h.tail
    have hcount := h.count
    have hhead := h.head
    have hslot : i = (s.rdt + 1) % 16 := by
      rw [← Option.some_inj.mp htouch, hptail]
      rfl
    rintro ⟨k, hk, heq⟩
    omega

/-- What has been passed on is the beginning of what there is to pass on. -/
theorem RxInv.passed_prefix (h : RxInv s returned queue) :
    s.passed.IsPrefix (s.stored.filter RxFrame.passes) := by
  rw [h.passed, h.stored, List.filter_append, List.filter_append]
  apply (List.prefix_append_right_inj _).mpr
  apply List.IsPrefix.filter
  split
  · exact List.take_prefix _ _
  · exact List.nil_prefix

theorem rxInv_after (acts : List RxAct) (h : RxInv s returned queue) (n : Nat) :
    ∃ returned' queue', RxInv (after rxStep s acts n) returned' queue' :=
  after_induction (P := fun s => ∃ returned queue, RxInv s returned queue)
    (C := fun _ _ => True) ⟨returned, queue, h⟩
    (fun _ a ⟨_, _, hinv⟩ _ => hinv.rxStep a) (fun _ _ _ => trivial) n

/-- The frames without errors in one descriptor. -/
def Prefixed (s : Rx) : Prop :=
  (s.passed.filter RxFrame.good).IsPrefix (s.stored.filter RxFrame.good)

/-- In every run from `e1000_rx_init`, the frames in one descriptor that are passed on are the
first ones of those that the card has stored without errors and not empty; and of a descriptor that
the card owns, nothing but the status is read, and nothing is cleared. -/
theorem frames_delivered (initialized : Bool) (addr : Nat → Nat) (bufs : Nat → List UInt8)
    (acts : List RxAct) (n : Nat) :
    let s := after rxStep (rxInit initialized addr bufs) acts n
    (s.passed.filter RxFrame.good).IsPrefix
        (s.stored.filter fun f => f.good && decide (0 < f.data.length)) ∧
      ∀ i, touches s = some i → ¬ NicOwns s.rdh s.rdt i := by
  intro s
  obtain ⟨returned, queue, hinv⟩ :=
    rxInv_after acts (rxInv_rxInit initialized addr bufs) n
  refine ⟨?_, fun i hi => hinv.not_owned hi⟩
  have hfilter := hinv.passed_prefix.filter RxFrame.good
  rw [List.filter_filter] at hfilter
  have hsame : (fun f : RxFrame => f.good && decide (0 < f.data.length)) =
      fun f => f.good && f.passes := by
    funext f
    simp only [RxFrame.good, RxFrame.single, RxFrame.passes]
    cases f.eop with
    | false => simp
    | true =>
      cases f.first with
      | false => simp
      | true => simp
  rw [hsame]
  exact hfilter

/-- A frame in one descriptor. -/
def plainFrame (data : List UInt8) : RxFrame := ⟨data, true, true, 0, 0, 0, 0⟩

/-- An empty frame and one of a byte are stored, and then a call gets to the second one. -/
def emptyFirst : List RxAct :=
  [.data (plainFrame []), .length, .done, .data (plainFrame [7]), .length, .done, .poll] ++
    List.replicate 10 .access

theorem delivered_otherwise :
    (¬ ∀ acts n, Prefixed (after rxStep (rxInit true (fun _ => 0) fun _ => []) acts n)) ∧
    ¬ ∀ acts n i,
      accesses (after rxStep (rxInit true (fun _ => 0) fun _ => []) acts n) = some i →
        ¬ NicOwns (after rxStep (rxInit true (fun _ => 0) fun _ => []) acts n).rdh
          (after rxStep (rxInit true (fun _ => 0) fun _ => []) acts n).rdt i := by
  constructor
  · intro h
    have hprefix := h emptyFirst 17
    unfold Prefixed at hprefix
    revert hprefix
    decide
  · intro h
    exact h [.poll] 1 0 rfl ⟨0, by decide, rfl⟩

end Kyuzen.E1000
