import Kyuzen.Lib.Ring

/-!
# TCP sockets

`kernel/net_socket.c`. A socket is one of `KSOCK_MAX` slots with a ring of received bytes. lwIP
fills the ring from its callbacks, `ksock_recv` empties it, and a generation counter tells the calls
that poll for seconds whether the slot still has the socket that they have begun with.

A byte of the ring is any value of `β`, so that a byte can carry where it comes from.
-/

namespace Kyuzen.Net

def ksockMax : Nat := 8

def ksockRxbuf : Nat := 4096

inductive SockState where
  | free
  | alloc
  | connecting
  | connected
  | closed
  | err
  deriving DecidableEq

/-- An `err_t`. Of the failures only `ERR_MEM` is told apart. -/
inductive Err where
  | ok
  | mem
  | other
  deriving DecidableEq

structure Ksock (β : Type) where
  state : SockState
  gen : Int
  pcb : Option Nat
  rx : Nat → β
  rxHead : Nat
  rxLen : Nat
  peerClosed : Bool

variable {β : Type}

/-- A value of type `int`. -/
def toInt (x : Int) : Int := x.bmod (2 ^ 32)

/-! ## The ring -/

def rxPush (s : Ksock β) : List β → Ksock β
  | [] => s
  | b :: data =>
    if s.rxLen < ksockRxbuf then
      rxPush { s with
        rx := Function.update s.rx ((s.rxHead + s.rxLen) % ksockRxbuf) b
        rxLen := s.rxLen + 1 } data
    else s

def rxPop (s : Ksock β) (max : Nat) : List β × Ksock β :=
  let n := if max < s.rxLen then max else s.rxLen
  ((List.range n).map fun i => s.rx ((s.rxHead + i) % ksockRxbuf),
    { s with rxHead := (s.rxHead + n) % ksockRxbuf, rxLen := s.rxLen - n })

/-! ## Callbacks

A chain of `pbuf`s is the list of their payloads. Each callback is given for a slot; with a `NULL`
argument it does nothing. -/

/-- `cb_recv`; the number is the argument of `tcp_recved`. -/
def cbRecv (s : Ksock β) (p : Option (List (List β))) (err : Err) : Nat × Ksock β :=
  if err ≠ .ok then (0, s)
  else
    match p with
    | none => (0, { s with peerClosed := true })
    | some chain => (chain.flatten.length, chain.foldl rxPush s)

def cbConnected (s : Ksock β) (err : Err) : Ksock β :=
  { s with state := if err = .ok then .connected else .err }

def cbErr (s : Ksock β) : Ksock β := { s with state := .err, pcb := none }

/-! ## The sections of the calls -/

def get (fd : Int) : Option Nat :=
  if fd < 0 ∨ (ksockMax : Int) ≤ fd then none else some fd.toNat

/-- A call that blocks, between two of its sections. -/
inductive Call where
  | connect (fd gen : Int)
  | send (fd gen : Int) (buf : List UInt8) (sent : Nat)
  | recv (fd gen : Int) (len : Nat)

namespace Call

def fd : Call → Int
  | connect fd _ => fd
  | send fd _ _ _ => fd
  | recv fd _ _ => fd

def gen : Call → Int
  | connect _ gen => gen
  | send _ gen _ _ => gen
  | recv _ gen _ => gen

/-- What the call returns when its socket has gone. -/
def gaveUp : Call → Int
  | connect _ _ => -1
  | send _ _ _ sent => if 0 < sent then toInt sent else -1
  | recv _ _ _ => -1

end Call

/-- What a section does with its slot: the slot afterwards, the bytes that are copied to the caller
and that are handed to `tcp_write`, and the value that is returned or the call that goes on. -/
structure Section (β : Type) where
  sock : Ksock β
  read : List β
  written : List UInt8
  ends : Int ⊕ Call

/-- A section that ends the call and has done nothing. -/
def Section.stop (s : Ksock β) (ret : Int) : Section β := ⟨s, [], [], .inl ret⟩

/-- What lwIP and the timer answer during a section. -/
structure Answers where
  /-- The result of `tcp_sndbuf`. -/
  space : Nat
  /-- The result of `tcp_write`. -/
  write : Err
  /-- The deadline is over. -/
  late : Bool

/-- The state of the slot, `S_ERR` if its generation has changed. -/
def stateSeen (s : Ksock β) (gen : Int) : SockState := if s.gen = gen then s.state else .err

/-- A turn of the loop of `ksock_connect`. -/
def connectSection (s : Ksock β) (fd gen : Int) (a : Answers) : Section β :=
  if stateSeen s gen = .connected then .stop s 0
  else if stateSeen s gen = .err then .stop s (-1)
  else if a.late then .stop s (-1)
  else ⟨s, [], [], .inr (.connect fd gen)⟩

/-- The end of a turn of `ksock_send`, with the bytes that this turn has handed over. -/
def sendEnd (s : Ksock β) (fd gen : Int) (buf : List UInt8) (sent : Nat) (written : List UInt8)
    (a : Answers) : Section β :=
  if sent < buf.length then
    if a.late then ⟨s, [], written, .inl (if 0 < sent then toInt sent else -1)⟩
    else ⟨s, [], written, .inr (.send fd gen buf sent)⟩
  else ⟨s, [], written, .inl (toInt sent)⟩

/-- The generation that a loop compares with: the first turn takes over that of the slot. -/
def caught (s : Ksock β) (gen : Int) : Int := if gen < 0 then s.gen else gen

/-- The number of bytes that a turn of `ksock_send` hands to `tcp_write`. -/
def sendChunk (buf : List UInt8) (sent : Nat) (a : Answers) : Nat :=
  min (min (buf.length - sent) a.space) 65535

/-- A turn of the loop of `ksock_send`. -/
def sendSection (s : Ksock β) (fd gen : Int) (buf : List UInt8) (sent : Nat) (a : Answers) :
    Section β :=
  if s.gen ≠ caught s gen ∨ s.state ≠ .connected ∨ s.pcb = none then
    .stop s (if 0 < sent then toInt sent else -1)
  else if 0 < a.space then
    match a.write with
    | .ok => sendEnd s fd (caught s gen) buf (sent + sendChunk buf sent a)
        ((buf.drop sent).take (sendChunk buf sent a)) a
    | .mem => sendEnd s fd (caught s gen) buf sent [] a
    | .other => .stop s (if 0 < sent then toInt sent else -1)
  else sendEnd s fd (caught s gen) buf sent [] a

/-- A turn of the loop of `ksock_recv`. -/
def recvSection (s : Ksock β) (fd gen : Int) (len : Nat) (a : Answers) : Section β :=
  if s.gen ≠ caught s gen ∨ (s.state ≠ .connected ∧ s.state ≠ .closed) then .stop s (-1)
  else if 0 < s.rxLen then
    ⟨(rxPop s len).2, (rxPop s len).1, [], .inl (toInt (rxPop s len).1.length)⟩
  else if s.peerClosed then .stop s 0
  else if a.late then .stop s (-1)
  else ⟨s, [], [], .inr (.recv fd (caught s gen) len)⟩

/-- The next section of a call. -/
def Call.section (s : Ksock β) (a : Answers) : Call → Section β
  | connect fd gen => connectSection s fd gen a
  | send fd gen buf sent => sendSection s fd gen buf sent a
  | recv fd gen len => recvSection s fd gen len a

/-! ## The bytes in the ring -/

/-- The ring holds the bytes of `l`, in the order in which they will be read. -/
structure Ksock.Holds (s : Ksock β) (l : List β) : Prop where
  length_eq : l.length = s.rxLen
  le_rxbuf : s.rxLen ≤ ksockRxbuf
  ring : Lib.RingHolds ksockRxbuf ksockRxbuf s.rx s.rxHead l

/-- The bytes in the ring. -/
def Ksock.bytes (s : Ksock β) : List β :=
  (List.range s.rxLen).map fun i => s.rx ((s.rxHead + i) % ksockRxbuf)

namespace Ksock.Holds

variable {s : Ksock β} {l : List β}

theorem bytes_eq (h : s.Holds l) : s.bytes = l := by
  have hcells := h.ring.map_range (k := s.rxLen) (by rw [h.length_eq])
  simp only [Nat.mod_mod] at hcells
  rw [Ksock.bytes, hcells, ← h.length_eq, List.take_length]

/-- An empty ring. -/
theorem empty (s : Ksock β) (h : s.rxLen = 0) : s.Holds [] :=
  ⟨h.symm, by rw [h]; exact Nat.zero_le _, Lib.RingHolds.nil _ _ _ _⟩

/-- What is not part of the ring does not matter. -/
theorem congr (h : s.Holds l) {s' : Ksock β} (hrx : s'.rx = s.rx) (hhead : s'.rxHead = s.rxHead)
    (hlen : s'.rxLen = s.rxLen) : s'.Holds l := by
  refine ⟨?_, ?_, ?_⟩
  · rw [hlen]
    exact h.length_eq
  · rw [hlen]
    exact h.le_rxbuf
  · rw [hrx, hhead]
    exact h.ring

/-- Bytes are added as long as there is room; the others are dropped. -/
theorem push (h : s.Holds l) (data : List β) :
    (rxPush s data).Holds (l ++ data.take (ksockRxbuf - l.length)) := by
  induction data generalizing s l with
  | nil => simpa [rxPush] using h
  | cons b data ih =>
    have hlen := h.length_eq
    rw [rxPush]
    split
    · next hroom =>
      have hnext : Ksock.Holds { s with
          rx := Function.update s.rx ((s.rxHead + s.rxLen) % ksockRxbuf) b
          rxLen := s.rxLen + 1 } (l ++ [b]) := by
        refine ⟨?_, hroom, ?_⟩
        · rw [List.length_append, List.length_singleton, hlen]
        · have hput := h.ring.push (dvd_refl _) (by rw [hlen]; exact hroom) b
          rwa [Nat.mod_mod, hlen] at hput
      have hrest := ih hnext
      rw [List.append_assoc, List.length_append, List.length_singleton, List.singleton_append]
        at hrest
      rwa [show ksockRxbuf - l.length = (ksockRxbuf - (l.length + 1)) + 1 by omega,
        List.take_succ_cons]
    · next hfull =>
      rw [show ksockRxbuf - l.length = 0 by omega, List.take_zero, List.append_nil]
      exact h

/-- A chain is added as if it was one buffer. -/
theorem push_chain (h : s.Holds l) (chain : List (List β)) :
    (chain.foldl rxPush s).Holds (l ++ chain.flatten.take (ksockRxbuf - l.length)) := by
  induction chain generalizing s l with
  | nil => simpa using h
  | cons data chain ih =>
    have hrest := ih (h.push data)
    have htake : data.take (ksockRxbuf - l.length) ++
        chain.flatten.take (ksockRxbuf - (l ++ data.take (ksockRxbuf - l.length)).length) =
        (data ++ chain.flatten).take (ksockRxbuf - l.length) := by
      rw [List.take_append, List.length_append, List.length_take]
      congr 2
      omega
    rw [List.append_assoc, htake] at hrest
    rwa [List.foldl_cons, List.flatten_cons]

theorem pop_fst (h : s.Holds l) (max : Nat) : (rxPop s max).1 = l.take max := by
  have hlen := h.length_eq
  have hn : (if max < s.rxLen then max else s.rxLen) = min max l.length := by
    rw [hlen]
    split <;> omega
  have hcells := h.ring.map_range (k := min max l.length) (Nat.min_le_right _ _)
  simp only [Nat.mod_mod] at hcells
  simp only [rxPop, hn]
  rw [hcells]
  exact List.take_eq_take_min.symm

theorem pop_snd (h : s.Holds l) (max : Nat) : (rxPop s max).2.Holds (l.drop max) := by
  have hlen := h.length_eq
  have hle := h.le_rxbuf
  have hn : (if max < s.rxLen then max else s.rxLen) = min max l.length := by
    rw [hlen]
    split <;> omega
  have hdrop := h.ring.drop (min max l.length)
  simp only [rxPop, hn]
  refine ⟨?_, ?_, ?_⟩
  · rw [List.length_drop]
    show l.length - max = s.rxLen - min max l.length
    omega
  · show s.rxLen - min max l.length ≤ ksockRxbuf
    omega
  · rcases Nat.le_total max l.length with hle' | hge
    · rwa [Nat.min_eq_left hle'] at hdrop ⊢
    · rw [List.drop_eq_nil_of_le hge]
      exact Lib.RingHolds.nil _ _ _ _

theorem recvSection (h : s.Holds l) (fd gen : Int) (len : Nat) (a : Answers) :
    ∃ m, (recvSection s fd gen len a).read = l.take m ∧
      (recvSection s fd gen len a).sock.Holds (l.drop m) := by
  have hnone : [] = l.take 0 ∧ s.Holds (l.drop 0) := ⟨List.take_zero.symm, h⟩
  unfold Net.recvSection
  split_ifs
  · exact ⟨0, hnone⟩
  · exact ⟨len, h.pop_fst len, h.pop_snd len⟩
  · exact ⟨0, hnone⟩
  · exact ⟨0, hnone⟩
  · exact ⟨0, hnone⟩

end Ksock.Holds

/-! ## Sections -/

/-- Only the ring of the slot changes. -/
def SameSocket (s s' : Ksock β) : Prop := s'.gen = s.gen ∧ s'.state = s.state ∧ s'.pcb = s.pcb

theorem rxPush_sameSocket (s : Ksock β) (data : List β) : SameSocket s (rxPush s data) := by
  induction data generalizing s with
  | nil => exact ⟨rfl, rfl, rfl⟩
  | cons b data ih =>
    rw [rxPush]
    split
    · exact ih _
    · exact ⟨rfl, rfl, rfl⟩

theorem cbRecv_sameSocket (s : Ksock β) (p : Option (List (List β))) (err : Err) :
    SameSocket s (cbRecv s p err).2 := by
  unfold cbRecv
  split
  · exact ⟨rfl, rfl, rfl⟩
  cases p with
  | none => exact ⟨rfl, rfl, rfl⟩
  | some chain =>
    show SameSocket s (chain.foldl rxPush s)
    induction chain generalizing s with
    | nil => exact ⟨rfl, rfl, rfl⟩
    | cons data chain ih =>
      obtain ⟨hgen, hstate, hpcb⟩ := rxPush_sameSocket s data
      obtain ⟨hgen', hstate', hpcb'⟩ := ih (rxPush s data)
      exact ⟨hgen'.trans hgen, hstate'.trans hstate, hpcb'.trans hpcb⟩

theorem caught_of_nonneg (s : Ksock β) (gen : Int) (h : 0 ≤ gen) : caught s gen = gen :=
  if_neg (Int.not_lt.mpr h)

theorem caught_eq {s : Ksock β} {gen : Int} (h : s.gen = gen ∨ gen = -1) :
    caught s gen = s.gen := by
  rw [caught]
  rcases h with rfl | rfl
  · exact ite_self _
  · exact if_pos (by decide)

namespace Call

theorem section_sameSocket (c : Call) (s : Ksock β) (a : Answers) :
    SameSocket s (c.section s a).sock := by
  cases c with
  | connect fd gen =>
    simp only [Call.section, connectSection]
    split_ifs <;> exact ⟨rfl, rfl, rfl⟩
  | send fd gen buf sent =>
    simp only [Call.section, sendSection, sendEnd]
    repeat' split
    all_goals exact ⟨rfl, rfl, rfl⟩
  | recv fd gen len =>
    simp only [Call.section, recvSection]
    split_ifs <;> exact ⟨rfl, rfl, rfl⟩

/-- A section reads from the beginning of the ring. -/
theorem section_holds (c : Call) {s : Ksock β} {l : List β} (h : s.Holds l) (a : Answers) :
    ∃ m, (c.section s a).read = l.take m ∧ (c.section s a).sock.Holds (l.drop m) := by
  have hnone : [] = l.take 0 ∧ s.Holds (l.drop 0) := ⟨List.take_zero.symm, h⟩
  cases c with
  | connect fd gen =>
    refine ⟨0, ?_⟩
    simp only [Call.section, connectSection]
    split_ifs <;> exact hnone
  | send fd gen buf sent =>
    refine ⟨0, ?_⟩
    simp only [Call.section, sendSection, sendEnd]
    repeat' split
    all_goals exact hnone
  | recv fd gen len => exact h.recvSection fd gen len a

/-- Nothing is read from a free slot. -/
theorem section_free (c : Call) {s : Ksock β} (h : s.state = .free) (a : Answers) :
    (c.section s a).read = [] := by
  cases c with
  | connect fd gen =>
    simp only [Call.section, connectSection]
    split_ifs <;> rfl
  | send fd gen buf sent =>
    simp only [Call.section, sendSection, sendEnd]
    repeat' split
    all_goals rfl
  | recv fd gen len =>
    simp only [Call.section, recvSection]
    rw [if_pos (Or.inr (by rw [h]; decide))]
    rfl

/-- What is sent is handed to the control block of the slot. -/
theorem section_written (c : Call) {s : Ksock β} {a : Answers}
    (h : (c.section s a).written ≠ []) : s.pcb ≠ none := by
  intro hpcb
  apply h
  cases c with
  | connect fd gen =>
    simp only [Call.section, connectSection]
    split_ifs <;> rfl
  | send fd gen buf sent =>
    simp only [Call.section, sendSection]
    rw [if_pos (Or.inr (Or.inr hpcb))]
    rfl
  | recv fd gen len =>
    simp only [Call.section, recvSection]
    split_ifs <;> rfl

/-- A call that finds another generation than it has seen first gives up and does nothing. -/
theorem section_gone (c : Call) {s : Ksock β} (hgen : s.gen ≠ c.gen) (hnonneg : 0 ≤ c.gen)
    (a : Answers) : c.section s a = .stop s c.gaveUp := by
  cases c with
  | connect fd gen =>
    have hseen : stateSeen s gen = .err := if_neg hgen
    simp [Call.section, connectSection, hseen, gaveUp]
  | send fd gen buf sent =>
    have hother : s.gen ≠ caught s gen := by
      rw [caught_of_nonneg s gen hnonneg]
      exact hgen
    simp only [Call.section, sendSection]
    rw [if_pos (Or.inl hother)]
    rfl
  | recv fd gen len =>
    have hother : s.gen ≠ caught s gen := by
      rw [caught_of_nonneg s gen hnonneg]
      exact hgen
    simp only [Call.section, recvSection]
    rw [if_pos (Or.inl hother)]
    rfl

/-- The first section has not begun. -/
def Unlooked : Call → Prop
  | connect _ _ => False
  | send _ gen _ _ => gen = -1
  | recv _ gen _ => gen = -1

/-- A call that goes on stays with its slot, and compares with the generation of the slot. -/
theorem section_next {c c' : Call} {s : Ksock β} {a : Answers}
    (h : (c.section s a).ends = .inr c') (hgen : s.gen = c.gen ∨ c.Unlooked) :
    c'.fd = c.fd ∧ c'.gen = s.gen := by
  cases c with
  | connect fd gen =>
    rcases hgen with hgen | hnone
    · simp only [Call.section, connectSection] at h
      split_ifs at h <;> cases h
      exact ⟨rfl, hgen.symm⟩
    · exact absurd hnone id
  | send fd gen buf sent =>
    simp only [Call.section, sendSection, sendEnd] at h
    repeat' split at h
    all_goals cases h
    all_goals exact ⟨rfl, caught_eq hgen⟩
  | recv fd gen len =>
    simp only [Call.section, recvSection] at h
    split_ifs at h <;> cases h
    exact ⟨rfl, caught_eq hgen⟩

end Call

end Kyuzen.Net
