import Kyuzen.Lib.Run
import Kyuzen.Net.Socket

/-!
# The received stream

`cb_recv` acknowledges a whole chain with `tcp_recved`, also the bytes that `rx_push` has dropped
because the ring is full. The window of lwIP is larger than the ring and is full again after every
chain, so that the peer can go on sending. The bytes that `ksock_recv` returns are those that lwIP
has delivered if and only if every chain found room in the ring (`stream_intact_iff`); three full
segments between two reads are too many (`stream_gap`).

`delivered`, `returned` and `acked` record what has happened; no step reads them.
-/

namespace Kyuzen.Net

def tcpMss : Nat := 1460

def tcpWnd : Nat := 4 * tcpMss

structure Stream (β : Type) where
  sock : Ksock β
  /-- The window that lwIP has left. -/
  rcvWnd : Nat
  delivered : List β
  returned : List β
  /-- The number of bytes acknowledged with `tcp_recved`. -/
  acked : Nat

inductive StreamOp (β : Type) where
  | deliver (chain : List (List β))
  | fin
  | connected (err : Err)
  | error
  | recv (fd gen : Int) (len : Nat) (a : Answers)

variable {β : Type}

/-- The window after `tcp_recved`. -/
def tcpRecved (rcvWnd len : Nat) : Nat := if tcpWnd < rcvWnd + len then tcpWnd else rcvWnd + len

namespace Stream

/-- A connection of a new socket. -/
def start (sock : Ksock β) : Stream β :=
  ⟨{ sock with rxHead := 0, rxLen := 0, peerClosed := false }, tcpWnd, [], [], 0⟩

/-- lwIP calls `cb_recv` with a chain. -/
def deliver (s : Stream β) (chain : List (List β)) : Stream β :=
  let r := cbRecv s.sock (some chain) .ok
  { s with
    sock := r.2
    rcvWnd := tcpRecved (s.rcvWnd - chain.flatten.length) r.1
    delivered := s.delivered ++ chain.flatten
    acked := s.acked + r.1 }

def step (s : Stream β) : StreamOp β → Stream β
  | .deliver chain =>
    -- lwIP cuts off what is outside of its window.
    if chain.flatten.length ≤ s.rcvWnd then s.deliver chain else s
  | .fin => { s with sock := (cbRecv s.sock none .ok).2 }
  | .connected err => { s with sock := cbConnected s.sock err }
  | .error => { s with sock := cbErr s.sock }
  | .recv fd gen len a =>
    { s with
      sock := (recvSection s.sock fd gen len a).sock
      returned := s.returned ++ (recvSection s.sock fd gen len a).read }

/-- The stream after the first `n` operations. -/
def after (sock : Ksock β) (ops : List (StreamOp β)) (n : Nat) : Stream β :=
  Lib.after step (start sock) ops n

/-- The bytes returned are the beginning of those delivered, and those acknowledged have been
returned or are in the ring. -/
structure Intact (s : Stream β) : Prop where
  returned_prefix : s.returned <+: s.delivered
  acked_kept : s.delivered.take s.acked <+: s.returned ++ s.sock.bytes

/-- If lwIP delivers the chain, then it fits into the ring. -/
def Room (s : Stream β) (chain : List (List β)) : Prop :=
  chain.flatten.length ≤ s.rcvWnd → s.sock.rxLen + chain.flatten.length ≤ ksockRxbuf

/-! ## Steps -/

/-- What holds of every stream. -/
structure Counts (s : Stream β) (l : List β) : Prop where
  holds : s.sock.Holds l
  acked_eq : s.acked = s.delivered.length
  length_le : s.returned.length + l.length ≤ s.delivered.length

theorem start_counts (sock : Ksock β) : (start sock).Counts [] :=
  ⟨Ksock.Holds.empty _ rfl, rfl, Nat.le_refl _⟩

variable {s : Stream β} {l : List β}

theorem Counts.deliver (h : s.Counts l) (chain : List (List β)) :
    (s.deliver chain).Counts (l ++ chain.flatten.take (ksockRxbuf - l.length)) := by
  have hle := h.length_le
  refine ⟨h.holds.push_chain chain, ?_, ?_⟩
  · show s.acked + chain.flatten.length = (s.delivered ++ chain.flatten).length
    rw [List.length_append, h.acked_eq]
  · show s.returned.length + _ ≤ (s.delivered ++ chain.flatten).length
    rw [List.length_append, List.length_append, List.length_take]
    omega

theorem Counts.step (h : s.Counts l) (op : StreamOp β) : ∃ l', (s.step op).Counts l' := by
  cases op with
  | deliver chain =>
    rw [Stream.step]
    split
    · exact ⟨_, h.deliver chain⟩
    · exact ⟨l, h⟩
  | fin => exact ⟨l, h.holds.congr rfl rfl rfl, h.acked_eq, h.length_le⟩
  | connected err => exact ⟨l, h.holds.congr rfl rfl rfl, h.acked_eq, h.length_le⟩
  | error => exact ⟨l, h.holds.congr rfl rfl rfl, h.acked_eq, h.length_le⟩
  | recv fd gen len a =>
    obtain ⟨m, hread, hholds⟩ := h.holds.recvSection fd gen len a
    have hle := h.length_le
    refine ⟨l.drop m, hholds, h.acked_eq, ?_⟩
    show (s.returned ++ _).length + _ ≤ s.delivered.length
    rw [hread, List.length_append, List.length_take, List.length_drop]
    omega

/-- Nothing has been dropped. -/
structure Whole (s : Stream β) (l : List β) : Prop where
  counts : s.Counts l
  delivered_eq : s.delivered = s.returned ++ l

theorem Whole.intact (h : s.Whole l) : s.Intact := by
  constructor
  · rw [h.delivered_eq]
    exact List.prefix_append _ _
  · rw [h.counts.holds.bytes_eq, ← h.delivered_eq]
    exact List.take_prefix _ _

/-- The ring, the bytes delivered and those returned decide whether anything was dropped. -/
theorem Whole.congr (h : s.Whole l) {s' : Stream β} (hholds : s'.sock.Holds l)
    (hdelivered : s'.delivered = s.delivered) (hreturned : s'.returned = s.returned)
    (hacked : s'.acked = s.acked) : s'.Whole l := by
  refine ⟨⟨hholds, ?_, ?_⟩, ?_⟩
  · rw [hacked, hdelivered]
    exact h.counts.acked_eq
  · rw [hreturned, hdelivered]
    exact h.counts.length_le
  · rw [hreturned, hdelivered]
    exact h.delivered_eq

theorem Whole.step (h : s.Whole l) {op : StreamOp β}
    (hroom : ∀ chain, op = .deliver chain → s.Room chain) : ∃ l', (s.step op).Whole l' := by
  have hlen := h.counts.holds.length_eq
  cases op with
  | deliver chain =>
    rw [Stream.step]
    split
    · next hwnd =>
      have hfits := hroom chain rfl hwnd
      have hnext := h.counts.deliver chain
      rw [List.take_of_length_le (by omega)] at hnext
      refine ⟨_, hnext, ?_⟩
      show s.delivered ++ chain.flatten = s.returned ++ (l ++ chain.flatten)
      rw [h.delivered_eq, List.append_assoc]
    · exact ⟨l, h⟩
  | fin => exact ⟨l, h.congr (h.counts.holds.congr rfl rfl rfl) rfl rfl rfl⟩
  | connected err => exact ⟨l, h.congr (h.counts.holds.congr rfl rfl rfl) rfl rfl rfl⟩
  | error => exact ⟨l, h.congr (h.counts.holds.congr rfl rfl rfl) rfl rfl rfl⟩
  | recv fd gen len a =>
    obtain ⟨m, hread, hholds⟩ := h.counts.holds.recvSection fd gen len a
    have hsplit : s.delivered = (s.returned ++ l.take m) ++ l.drop m := by
      rw [List.append_assoc, List.take_append_drop]
      exact h.delivered_eq
    refine ⟨l.drop m, ⟨hholds, h.counts.acked_eq, ?_⟩, ?_⟩
    · show (s.returned ++ _).length + _ ≤ s.delivered.length
      rw [hread, hsplit]
      rw [List.length_append, List.length_append, List.length_append]
    · show s.delivered = (s.returned ++ _) ++ _
      rw [hread]
      exact hsplit

/-- A chain that is dropped in part leaves acknowledged bytes that are nowhere. -/
theorem Counts.room (h : s.Counts l) {chain : List (List β)}
    (hintact : (s.step (.deliver chain)).Intact) : s.Room chain := by
  intro hwnd
  rw [Stream.step, if_pos hwnd] at hintact
  have hnext := h.deliver chain
  have hkept := hintact.acked_kept.length_le
  have hlen := h.holds.length_eq
  have hcap := h.holds.le_rxbuf
  have hle := h.length_le
  rw [hnext.acked_eq, List.take_length, List.length_append, hnext.holds.bytes_eq] at hkept
  simp only [Stream.deliver, List.length_append, List.length_take] at hkept
  omega

/-! ## Runs -/

theorem after_counts (sock : Ksock β) (ops : List (StreamOp β)) (n : Nat) :
    ∃ l, (after sock ops n).Counts l := by
  refine Lib.after_induction (P := fun s => ∃ l, Counts s l) (C := fun _ _ => True)
    ⟨[], start_counts sock⟩ ?_ (fun _ _ _ => trivial) n
  rintro s op ⟨l, hl⟩ -
  exact hl.step op

theorem after_whole (sock : Ksock β) {ops : List (StreamOp β)}
    (hroom : ∀ n chain, ops[n]? = some (.deliver chain) → (after sock ops n).Room chain) (n : Nat) :
    ∃ l, (after sock ops n).Whole l := by
  refine Lib.after_induction (P := fun s => ∃ l, Whole s l)
    (C := fun s op => ∀ chain, op = .deliver chain → s.Room chain)
    ⟨[], start_counts sock, rfl⟩ ?_ ?_ n
  · rintro s op ⟨l, hl⟩ hop
    exact hl.step hop
  · rintro m op hop chain rfl
    exact hroom m chain hop

/-- The stream is intact after every operation exactly if no chain is larger than the room in the
ring. -/
theorem stream_intact_iff (sock : Ksock β) (ops : List (StreamOp β)) :
    (∀ n, (after sock ops n).Intact) ↔
      ∀ n chain, ops[n]? = some (.deliver chain) → (after sock ops n).Room chain := by
  constructor
  · intro hintact n chain hop
    obtain ⟨l, hl⟩ := after_counts sock ops n
    have hnext := hintact (n + 1)
    rw [after, Lib.after_succ hop] at hnext
    exact hl.room hnext
  · intro hroom n
    obtain ⟨l, hl⟩ := after_whole sock hroom n
    exact hl.intact

/-- A socket with an empty ring. -/
def newSock : Ksock UInt8 := ⟨.connected, 1, some 0, fun _ => 0, 0, 0, false⟩

/-- Three segments of the largest size. -/
def burst : List (List UInt8) := List.replicate 3 (List.replicate tcpMss 0)

theorem burst_length : burst.flatten.length = 3 * tcpMss := by
  simp only [burst, List.flatten_replicate_replicate, List.length_replicate]

/-- The three segments are inside the window and arrive before the first read. -/
theorem stream_gap :
    burst.flatten.length ≤ (start newSock).rcvWnd ∧
      ¬(after newSock [.deliver burst] 1).Intact := by
  have hwnd : burst.flatten.length ≤ (start newSock).rcvWnd := by
    rw [burst_length]
    show 3 * tcpMss ≤ 4 * tcpMss
    omega
  refine ⟨hwnd, ?_⟩
  intro hintact
  rw [after, Lib.after_succ (n := 0) rfl] at hintact
  have hfits := (start_counts newSock).room hintact hwnd
  rw [burst_length] at hfits
  simp [start, tcpMss, ksockRxbuf] at hfits

end Stream

end Kyuzen.Net
