import Kyuzen.E1000.Poll
import Kyuzen.E1000.Send

/-!
# The network interface

`kyuzen_netif.c` between lwIP and the driver. `low_level_output` copies a chain of pbufs into one
frame, pads it and gives it to `e1000_send`; `kyuzen_netif_input` copies a frame from
`e1000_rx_callback` into a pbuf and gives it to lwIP. The calls are made under the network lock, so
an output begins when none is under way; the card may take a step between any two stores.

The card sends the chains that were answered with `ERR_OK`, in this order, each as the bytes of its
segments in a frame of 60 to 1518 bytes (`netif_output_in_order`). lwIP gets frames that the card
has stored, in this order, and while the interface is up and the pool answers it gets all that are
passed on and fit (`netif_input_in_order`).
-/

namespace Kyuzen.E1000

open Lib

/-- `KYUZEN_MAX_FRAME`. -/
def maxFrame : Nat := 1518

/-- A chain of pbufs, by the bytes of its segments. -/
abbrev Chain : Type := List (List UInt8)

/-! ## Output -/

/-- The loop of `low_level_output` after the bytes `frame`; `none` is `ERR_IF`. -/
def gather (frame : List UInt8) : Chain → Option (List UInt8)
  | [] => some frame
  | q :: p => if frame.length + q.length > maxFrame then none else gather (frame ++ q) p

def padFrame (frame : List UInt8) : List UInt8 :=
  if frame.length < 60 then frame ++ List.replicate (60 - frame.length) 0 else frame

/-- The driver, the chain of the call that is under way, and the calls that have returned, with
whether they answered `ERR_OK`. -/
structure NetTx where
  tx : Tx
  chain : Chain
  answers : List (Chain × Bool)

def NetTx.answer (s : NetTx) (chain : Chain) (ok : Bool) : NetTx :=
  { s with answers := s.answers ++ [(chain, ok)] }

/-- `low_level_output` up to the copy into the buffer of the descriptor. -/
def lowLevelOutput (s : NetTx) (p : Chain) : NetTx :=
  if s.tx.call.isSome then s
  else
    match gather [] p with
    | none => s.answer p false
    | some frame =>
      match copyTarget s.tx (padFrame frame) with
      | none => s.answer p false
      | some _ => { s with tx := sendStart s.tx (padFrame frame), chain := p }

/-- The next store of the call; after the last one it returns. -/
def outputStore (s : NetTx) : NetTx :=
  let s' := { s with tx := sendStore s.tx }
  if s.tx.call.any fun c => c.next == .doorbell then s'.answer s.chain true else s'

inductive NetTxAct
  | output (p : Chain)
  | store
  | nic

def netTxStep (s : NetTx) : NetTxAct → NetTx
  | .output p => lowLevelOutput s p
  | .store => outputStore s
  | .nic => { s with tx := nicTransmit s.tx }

def netTxInit (initialized : Bool) (addr : Nat → Nat) (bufs : Nat → List UInt8) : NetTx :=
  ⟨txInit initialized addr bufs, [], []⟩

/-- The chains that were answered with `ERR_OK`. -/
def NetTx.accepted (s : NetTx) : List Chain := (s.answers.filter Prod.snd).map Prod.fst

/-- What a chain becomes on the wire. -/
def wire (p : Chain) : List UInt8 := padFrame p.flatten

/-! ## Input -/

/-- The frame that the next access of the poll gives to `e1000_rx_callback`. -/
def delivers (s : Rx) : Option RxFrame :=
  match s.poll with
  | none => none
  | some p =>
    let next := (p.tail + 1) % numRxDesc
    let d := s.descs next
    if p.point = .deliver ∧ (d.eop && d.errors == 0 && decide (0 < p.pktLen)) = true then
      some (received s next p.pktLen)
    else none

/-- The driver, and what lwIP has been given. -/
structure NetRx where
  rx : Rx
  given : List (List UInt8)

/-- `e1000_rx_callback` and `kyuzen_netif_input`: whether the interface is up and whether the pool
has a pbuf are as they happen to be. -/
def netifInput (up pool : Bool) (given : List (List UInt8)) (data : List UInt8) :
    List (List UInt8) :=
  if !up then given
  else if data.length = 0 ∨ data.length > maxFrame then given
  else if !pool then given
  else given ++ [data]

inductive NetRxAct
  | poll
  | access (up pool : Bool)
  | data (f : RxFrame)
  | length
  | done

def NetRxAct.rx : NetRxAct → RxAct
  | .poll => .poll
  | .access _ _ => .access
  | .data f => .data f
  | .length => .length
  | .done => .done

def netRxStep (s : NetRx) (a : NetRxAct) : NetRx where
  rx := rxStep s.rx a.rx
  given :=
    match a, delivers s.rx with
    | .access up pool, some f => netifInput up pool s.given f.data
    | _, _ => s.given

def netRxInit (initialized : Bool) (addr : Nat → Nat) (bufs : Nat → List UInt8) : NetRx :=
  ⟨rxInit initialized addr bufs, []⟩

/-! ## Frames -/

variable {p : Chain} {frame : List UInt8} {s : NetTx}

/-- A chain is refused when it is longer than a frame. -/
theorem gather_eq (frame : List UInt8) (p : Chain) (hframe : frame.length ≤ maxFrame) :
    gather frame p = if (frame ++ p.flatten).length ≤ maxFrame then some (frame ++ p.flatten)
      else none := by
  induction p generalizing frame with
  | nil =>
    rw [gather, List.flatten_nil, List.append_nil, if_pos hframe]
  | cons q p ih =>
    rw [gather, List.flatten_cons, ← List.append_assoc]
    by_cases hlong : frame.length + q.length > maxFrame
    · have hno : ¬(frame ++ q ++ p.flatten).length ≤ maxFrame := by
        simp only [List.length_append]
        omega
      rw [if_pos hlong, if_neg hno]
    · rw [if_neg hlong]
      refine ih (frame ++ q) ?_
      rw [List.length_append]
      omega

theorem gather_some (h : gather [] p = some frame) :
    frame = p.flatten ∧ p.flatten.length ≤ maxFrame := by
  rw [gather_eq [] p (Nat.zero_le _), List.nil_append] at h
  split_ifs at h with hle
  exact ⟨(Option.some.inj h).symm, hle⟩

/-- A frame is the bytes of its chain, and is as long as the card wants it. -/
theorem wire_spec (h : p.flatten.length ≤ maxFrame) :
    p.flatten <+: wire p ∧ 60 ≤ (wire p).length ∧ (wire p).length ≤ maxFrame := by
  unfold wire padFrame
  split_ifs with hshort
  · refine ⟨List.prefix_append _ _, ?_, ?_⟩
    · rw [List.length_append, List.length_replicate]
      omega
    · rw [List.length_append, List.length_replicate]
      unfold maxFrame
      omega
  · exact ⟨List.prefix_rfl, Nat.le_of_not_lt hshort, h⟩

/-! ## Runs of output -/

structure NetTxInv (s : NetTx) : Prop where
  tx : Inv s.tx
  traffic : traffic s.tx = s.accepted.map wire
  call : ∀ c, s.tx.call = some c → c.data = wire s.chain ∧ s.chain.flatten.length ≤ maxFrame
  fits : ∀ p ∈ s.accepted, p.flatten.length ≤ maxFrame

theorem accepted_answer (s : NetTx) (p : Chain) (ok : Bool) :
    (s.answer p ok).accepted = s.accepted ++ if ok = true then [p] else [] := by
  unfold NetTx.accepted NetTx.answer
  cases ok <;> simp

theorem NetTxInv.refuse (h : NetTxInv s) (p : Chain) : NetTxInv (s.answer p false) := by
  have hsame : (s.answer p false).accepted = s.accepted :=
    (accepted_answer s p false).trans (List.append_nil _)
  refine ⟨h.tx, ?_, h.call, ?_⟩
  · rw [hsame]
    exact h.traffic
  · rw [hsame]
    exact h.fits

theorem NetTxInv.output (h : NetTxInv s) (p : Chain) : NetTxInv (lowLevelOutput s p) := by
  unfold lowLevelOutput
  split_ifs with hbusy
  · exact h
  cases hframe : gather [] p with
  | none => exact h.refuse p
  | some frame =>
    obtain ⟨rfl, hle⟩ := gather_some hframe
    dsimp only
    cases htarget : copyTarget s.tx (padFrame p.flatten) with
    | none => exact h.refuse p
    | some idx =>
      have htraffic := traffic_step h.tx (.send (padFrame p.flatten))
      rw [accepts, List.append_nil] at htraffic
      refine ⟨h.tx.sendStart _, htraffic.trans h.traffic, fun c hc => ?_, h.fits⟩
      simp only [sendStart, htarget, Option.some.injEq] at hc
      rw [← hc]
      exact ⟨rfl, hle⟩

/-- A store leaves the frame of the call as it is. -/
theorem sendStore_data {tx : Tx} {c c' : TxCall} (hc : tx.call = some c)
    (hc' : (sendStore tx).call = some c') : c'.data = c.data := by
  obtain ⟨idx, data, next⟩ := c
  cases next with
  | doorbell => simp [sendStore, hc] at hc'
  | _ =>
    simp only [sendStore, hc, Option.some.injEq] at hc'
    rw [← hc']

theorem NetTxInv.store (h : NetTxInv s) : NetTxInv (outputStore s) := by
  have htraffic := traffic_step h.tx .store
  have htx := h.tx.sendStore
  unfold outputStore
  cases hc : s.tx.call with
  | none =>
    have hsame : sendStore s.tx = s.tx := by simp only [sendStore, hc]
    simp only [hsame, Option.any_none, Bool.false_eq_true, if_false]
    exact h
  | some c =>
    obtain ⟨hdata, hle⟩ := h.call c hc
    simp only [accepts, hc] at htraffic
    by_cases hdone : c.next = .doorbell
    · have hend : (c.next == .doorbell) = true := beq_iff_eq.mpr hdone
      rw [if_pos hdone] at htraffic
      simp only [Option.any_some, hend, if_true]
      have hidle : (sendStore s.tx).call = none := by simp only [sendStore, hc, hdone]
      refine ⟨htx, ?_, fun c' hc' => ?_, fun p hp => ?_⟩
      · have hsame : NetTx.accepted { s with tx := sendStore s.tx } = s.accepted := rfl
        rw [accepted_answer, if_pos rfl, List.map_append, List.map_singleton, hsame, ← h.traffic,
          ← hdata]
        exact htraffic
      · have hno : (sendStore s.tx).call = some c' := hc'
        rw [hidle] at hno
        cases hno
      · rw [accepted_answer, if_pos rfl] at hp
        rcases List.mem_append.mp hp with hp | hp
        · exact h.fits p hp
        · rw [List.mem_singleton.mp hp]
          exact hle
    · have hmore : (c.next == .doorbell) = false := beq_eq_false_iff_ne.mpr hdone
      rw [if_neg hdone, List.append_nil] at htraffic
      simp only [Option.any_some, hmore, Bool.false_eq_true, if_false]
      refine ⟨htx, htraffic.trans h.traffic, fun c' hc' => ?_, h.fits⟩
      exact ⟨(sendStore_data hc hc').trans hdata, hle⟩

theorem NetTxInv.step (h : NetTxInv s) (a : NetTxAct) : NetTxInv (netTxStep s a) := by
  cases a with
  | output p => exact h.output p
  | store => exact h.store
  | nic =>
    have htraffic := traffic_step h.tx .nic
    rw [accepts, List.append_nil] at htraffic
    refine ⟨h.tx.nicTransmit, htraffic.trans h.traffic, fun c hc => h.call c ?_, h.fits⟩
    have hsame : (nicTransmit s.tx).call = s.tx.call := by
      unfold nicTransmit
      split_ifs <;> rfl
    rw [← hsame]
    exact hc

/-- In every run, what the card has sent and what waits in the ring are the chains that were
answered with `ERR_OK`, in order, each in a frame of its bytes. -/
theorem netif_output_in_order (initialized : Bool) (addr : Nat → Nat) (bufs : Nat → List UInt8)
    (acts : List NetTxAct) (n : Nat) :
    let s := after netTxStep (netTxInit initialized addr bufs) acts n
    s.tx.sent ++ s.tx.outstanding.map TxFrame.data = s.accepted.map wire ∧
      ∀ p ∈ s.accepted, p.flatten <+: wire p ∧ 60 ≤ (wire p).length ∧
        (wire p).length ≤ maxFrame := by
  intro s
  have hinit : NetTxInv (netTxInit initialized addr bufs) :=
    ⟨inv_txInit initialized addr bufs, rfl, fun c hc => (by cases hc), fun p hp => (by cases hp)⟩
  have hinv : NetTxInv s :=
    after_induction (P := NetTxInv) (C := fun _ _ => True) hinit (fun _ a h _ => h.step a)
      (fun _ _ _ => trivial) n
  exact ⟨hinv.traffic, fun p hp => wire_spec (hinv.fits p hp)⟩

/-! ## Runs of input -/

/-- The poll gives the callback what it passes on. -/
theorem pollAccess_passed (s : Rx) : (pollAccess s).passed = s.passed ++ (delivers s).toList := by
  unfold pollAccess delivers
  cases hp : s.poll with
  | none => exact (List.append_nil _).symm
  | some p =>
    obtain ⟨tail, point, pktLen⟩ := p
    cases point with
    | deliver =>
      dsimp only
      split_ifs with hpass hboth hboth
      · rfl
      · exact absurd ⟨rfl, hpass⟩ hboth
      · exact absurd hboth.2 hpass
      · exact (List.append_nil _).symm
    | status =>
      dsimp only
      split_ifs with hdone hc hc
      · cases hc.1
      · exact (List.append_nil _).symm
      · cases hc.1
      · exact (List.append_nil _).symm
    | _ =>
      dsimp only
      rw [if_neg fun hc => nomatch hc.1]
      exact (List.append_nil _).symm

theorem rxStep_passed (s : Rx) (a : NetRxAct) : (rxStep s a.rx).passed = s.passed ++
    match a with
    | .access _ _ => (delivers s).toList
    | _ => [] := by
  cases a with
  | poll =>
    rw [List.append_nil]
    show (pollStart s).passed = s.passed
    unfold pollStart
    split_ifs <;> rfl
  | access up pool => exact pollAccess_passed s
  | data f =>
    rw [List.append_nil]
    show (nicData s f).passed = s.passed
    unfold nicData
    split_ifs <;> rfl
  | length =>
    rw [List.append_nil]
    show (nicLength s).passed = s.passed
    unfold nicLength
    split <;> rfl
  | done =>
    rw [List.append_nil]
    show (nicDone s).passed = s.passed
    unfold nicDone
    split <;> rfl

/-- The interface takes a frame of this size. -/
def Fits (data : List UInt8) : Prop := data.length ≠ 0 ∧ data.length ≤ maxFrame

instance (data : List UInt8) : Decidable (Fits data) := inferInstanceAs (Decidable (_ ∧ _))

/-- The interface is up and the pool has a pbuf, whenever they are asked. -/
def NetRxAct.Ready : NetRxAct → Prop
  | .access up pool => up = true ∧ pool = true
  | _ => True

theorem netifInput_cases (up pool : Bool) (given : List (List UInt8)) (data : List UInt8) :
    netifInput up pool given data = given ∧ ¬(up = true ∧ pool = true ∧ Fits data) ∨
      netifInput up pool given data = given ++ [data] ∧ up = true ∧ pool = true ∧ Fits data := by
  unfold netifInput Fits
  cases up with
  | false => exact Or.inl ⟨rfl, fun hc => Bool.false_ne_true hc.1⟩
  | true =>
    simp only [Bool.not_true, Bool.false_eq_true, if_false, true_and]
    split_ifs with hlen hpool
    · exact Or.inl ⟨rfl, fun hc => by omega⟩
    · refine Or.inl ⟨rfl, fun hc => ?_⟩
      rw [hc.1] at hpool
      cases hpool
    · exact Or.inr ⟨rfl, by simpa using hpool, by omega, by omega⟩

theorem fits_nil : ∀ data ∈ ([] : List (List UInt8)), Fits data := by
  intro data hdata
  cases hdata

/-- A frame that the poll passes on is given to lwIP, or dropped. -/
theorem given_step (s : NetRx) (a : NetRxAct) :
    ∃ new got, (netRxStep s a).rx.passed = s.rx.passed ++ new ∧
      (netRxStep s a).given = s.given ++ got ∧ got.Sublist (new.map RxFrame.data) ∧
      (∀ data ∈ got, Fits data) ∧
      (a.Ready → got = (new.map RxFrame.data).filter fun data => decide (Fits data)) := by
  have hpassed := rxStep_passed s.rx a
  cases a with
  | access up pool =>
    refine ⟨(delivers s.rx).toList, ?_⟩
    cases hd : delivers s.rx with
    | none =>
      rw [hd] at hpassed
      refine ⟨[], hpassed, ?_, List.nil_sublist _, fits_nil, fun _ => rfl⟩
      simp only [netRxStep, hd, List.append_nil]
    | some f =>
      rw [hd] at hpassed
      have hgiven : (netRxStep s (.access up pool)).given = netifInput up pool s.given f.data := by
        simp only [netRxStep, hd]
      rcases netifInput_cases up pool s.given f.data with ⟨heq, hno⟩ | ⟨heq, -, -, hfits⟩
      · refine ⟨[], hpassed, ?_, List.nil_sublist _, fits_nil, fun hready => ?_⟩
        · rw [hgiven, heq, List.append_nil]
        · have hskip : ¬Fits f.data := fun hfits => hno ⟨hready.1, hready.2, hfits⟩
          simp [hskip]
      · refine ⟨[f.data], hpassed, hgiven.trans heq, List.Sublist.refl _, fun data hdata => ?_,
          fun _ => ?_⟩
        · rw [List.mem_singleton.mp hdata]
          exact hfits
        · simp [hfits]
  | _ =>
    exact ⟨[], [], hpassed, (List.append_nil _).symm, List.nil_sublist _, fits_nil, fun _ => rfl⟩

structure NetRxInv (s : NetRx) : Prop where
  rx : ∃ returned queue, RxInv s.rx returned queue
  given : s.given.Sublist (s.rx.passed.map RxFrame.data)
  fits : ∀ data ∈ s.given, Fits data

theorem NetRxInv.step {s : NetRx} (h : NetRxInv s) (a : NetRxAct) : NetRxInv (netRxStep s a) := by
  obtain ⟨returned, queue, hrx⟩ := h.rx
  obtain ⟨new, got, hpassed, hgiven, hsub, hfits, -⟩ := given_step s a
  refine ⟨hrx.rxStep a.rx, ?_, ?_⟩
  · rw [hpassed, hgiven, List.map_append]
    exact h.given.append hsub
  · rw [hgiven]
    intro data hdata
    rcases List.mem_append.mp hdata with hold | hnew
    · exact h.fits data hold
    · exact hfits data hnew

/-- In every run, lwIP gets frames that the card has stored, in this order and of a size that fits;
and as long as the interface is up and the pool answers, it gets every such frame that is passed
on. -/
theorem netif_input_in_order (initialized : Bool) (addr : Nat → Nat) (bufs : Nat → List UInt8)
    (acts : List NetRxAct) (n : Nat) :
    let s := after netRxStep (netRxInit initialized addr bufs) acts n
    s.given.Sublist ((s.rx.stored.filter RxFrame.passes).map RxFrame.data) ∧
      (∀ data ∈ s.given, 0 < data.length ∧ data.length ≤ maxFrame) ∧
      ((∀ a ∈ acts, a.Ready) →
        s.given = (s.rx.passed.map RxFrame.data).filter fun data => decide (Fits data)) := by
  intro s
  have hinit : NetRxInv (netRxInit initialized addr bufs) :=
    ⟨⟨_, _, rxInv_rxInit initialized addr bufs⟩, List.nil_sublist _, fits_nil⟩
  have hinv : NetRxInv s :=
    after_induction (P := NetRxInv) (C := fun _ _ => True) hinit (fun _ a h _ => h.step a)
      (fun _ _ _ => trivial) n
  obtain ⟨returned, queue, hrx⟩ := hinv.rx
  refine ⟨?_, fun data hdata => ?_, fun hready => ?_⟩
  · exact hinv.given.trans (hrx.passed_prefix.sublist.map RxFrame.data)
  · have hfits := hinv.fits data hdata
    exact ⟨Nat.pos_of_ne_zero hfits.1, hfits.2⟩
  · refine after_induction (C := fun _ a => NetRxAct.Ready a) (P := fun s : NetRx =>
      s.given = (s.rx.passed.map RxFrame.data).filter fun data => decide (Fits data))
      rfl ?_ ?_ n
    · intro s a hs ha
      obtain ⟨new, got, hpassed, hgiven, -, -, hall⟩ := given_step s a
      rw [hpassed, hgiven, List.map_append, List.filter_append, ← hs, hall ha]
    · intro k a hk
      exact hready a (List.mem_of_getElem? hk)

end Kyuzen.E1000
