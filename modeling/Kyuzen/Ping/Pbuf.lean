import Mathlib

/-!
# The packet of the callback

`ping_recv_cb` and what lwIP does with the packet behind it. The contract of the raw API is that a
callback which returns 0 leaves the packet to lwIP, which goes on using it and frees it, and that
any other callback frees it itself. `ping_recv_cb` frees the packet in each case: the contract is
kept for the awaited reply and for no other packet (`ping_pbuf_iff`).
-/

namespace Kyuzen.Ping

/-- A chain of `pbuf`s: the payloads of the first one and of the others. -/
structure Pbuf where
  payload : List UInt8
  next : List (List UInt8)

namespace Pbuf

def len (p : Pbuf) : Nat := p.payload.length

def totLen (p : Pbuf) : Nat := p.len + p.next.flatten.length

def byte (p : Pbuf) (i : Nat) : UInt8 := p.payload.getD i 0

/-- `(uint8_t)(IPH_HL(iph) * 4)`. -/
def ipHdrLen (p : Pbuf) : Nat := ((p.byte 0 &&& 0x0f) * 4).toNat

/-- `icmph->type`. -/
def icmpType (p : Pbuf) : UInt8 := p.byte p.ipHdrLen

/-- `lwip_ntohs(icmph->seqno)`. -/
def seqno (p : Pbuf) : Nat :=
  256 * (p.byte (p.ipHdrLen + 6)).toNat + (p.byte (p.ipHdrLen + 7)).toNat

end Pbuf

/-- What is done with a packet. -/
inductive Access where
  /-- The fields of the `pbuf` are used, or the packet is processed. -/
  | use
  /-- A byte of a header is read. -/
  | header (i : Nat)
  | free
  deriving DecidableEq

/-- `sizeof(struct icmp_echo_hdr)`. -/
def echoHdr : Nat := 8

def icmpEr : UInt8 := 0

/-- The accesses, and the value returned. -/
def pingRecvCb (pingSeq : Nat) (p : Pbuf) : List Access × Nat :=
  if p.totLen < 20 + echoHdr ∨ p.len < 20 + echoHdr then ([.use, .free], 0)
  else if p.ipHdrLen < 20 ∨ p.totLen < p.ipHdrLen + echoHdr ∨ p.len < p.ipHdrLen + echoHdr then
    ([.use, .header 0, .use, .free], 0)
  else
    let seen := [.use, .header 0, .use, .header p.ipHdrLen]
    if p.icmpType = icmpEr then
      let seen := seen ++ [.header (p.ipHdrLen + 6), .header (p.ipHdrLen + 7)]
      if p.seqno = pingSeq then (seen ++ [.free], 1) else (seen ++ [.free], 0)
    else (seen ++ [.free], 0)

/-- lwIP behind the callback. -/
def rawInputRest (eaten : Nat) : List Access := if eaten ≠ 0 then [] else [.use, .free]

/-- The accesses to a packet that reaches the callback. -/
def packetLife (pingSeq : Nat) (p : Pbuf) : List Access :=
  (pingRecvCb pingSeq p).1 ++ rawInputRest (pingRecvCb pingSeq p).2

/-! ## The contract -/

/-- The header bytes that are read are in the first segment. -/
def HeadersInside (p : Pbuf) (life : List Access) : Prop :=
  ∀ i, Access.header i ∈ life → i < p.len

structure Keeps (p : Pbuf) (life : List Access) : Prop where
  freedOnce : life.count .free = 1
  notUsedAfter : ∀ a ∈ (life.dropWhile (· ≠ .free)).drop 1, a = .free
  inside : HeadersInside p life

/-- The packet is the reply that is waited for. -/
structure IsReply (pingSeq : Nat) (p : Pbuf) : Prop where
  header : 20 ≤ p.ipHdrLen
  fits : p.ipHdrLen + echoHdr ≤ p.len
  type : p.icmpType = icmpEr
  seq : p.seqno = pingSeq

variable {pingSeq : Nat} {p : Pbuf}

theorem len_le_totLen (p : Pbuf) : p.len ≤ p.totLen := Nat.le_add_right _ _

/-- What the callback does with a packet whose headers are in the first segment. -/
theorem pingRecvCb_fits (hheader : 20 ≤ p.ipHdrLen) (hfits : p.ipHdrLen + echoHdr ≤ p.len) :
    pingRecvCb pingSeq p =
      if p.icmpType = icmpEr then
        ([.use, .header 0, .use, .header p.ipHdrLen, .header (p.ipHdrLen + 6),
          .header (p.ipHdrLen + 7), .free], if p.seqno = pingSeq then 1 else 0)
      else ([.use, .header 0, .use, .header p.ipHdrLen, .free], 0) := by
  have htot := len_le_totLen p
  unfold pingRecvCb
  rw [if_neg (by omega), if_neg (by omega)]
  split_ifs <;> rfl

/-- And with any other packet. -/
theorem pingRecvCb_short (pingSeq : Nat) (h : ¬(20 ≤ p.ipHdrLen ∧ p.ipHdrLen + echoHdr ≤ p.len)) :
    pingRecvCb pingSeq p = ([.use, .free], 0) ∨
      20 + echoHdr ≤ p.len ∧ pingRecvCb pingSeq p = ([.use, .header 0, .use, .free], 0) := by
  have htot := len_le_totLen p
  unfold pingRecvCb
  by_cases hshort : p.totLen < 20 + echoHdr ∨ p.len < 20 + echoHdr
  · rw [if_pos hshort]
    exact Or.inl rfl
  · rw [if_neg hshort, if_pos (by omega)]
    exact Or.inr ⟨by omega, rfl⟩

theorem packet_headersInside (pingSeq : Nat) (p : Pbuf) :
    HeadersInside p (packetLife pingSeq p) := by
  have hecho : echoHdr = 8 := rfl
  have hrest : ∀ eaten i, Access.header i ∉ rawInputRest eaten := by
    intro eaten i
    unfold rawInputRest
    split_ifs <;> simp
  intro i hi
  have hi := (List.mem_append.mp hi).resolve_right (hrest _ i)
  by_cases hin : 20 ≤ p.ipHdrLen ∧ p.ipHdrLen + echoHdr ≤ p.len
  · rw [pingRecvCb_fits hin.1 hin.2] at hi
    by_cases htype : p.icmpType = icmpEr
    · rw [if_pos htype] at hi
      simp only [List.mem_cons, Access.header.injEq, reduceCtorEq, false_or, List.not_mem_nil,
        or_false] at hi
      omega
    · rw [if_neg htype] at hi
      simp only [List.mem_cons, Access.header.injEq, reduceCtorEq, false_or, List.not_mem_nil,
        or_false] at hi
      omega
  · rcases pingRecvCb_short pingSeq hin with hcb | ⟨hlen, hcb⟩
    · rw [hcb] at hi
      simp at hi
    · rw [hcb] at hi
      simp only [List.mem_cons, Access.header.injEq, reduceCtorEq, false_or, List.not_mem_nil,
        or_false] at hi
      omega

/-- A callback that frees the packet and does not eat it. -/
theorem freed_twice {p : Pbuf} (seen : List Access) :
    ¬Keeps p (seen ++ [.free] ++ rawInputRest 0) := by
  intro h
  have hcount := h.freedOnce
  rw [List.count_append, List.count_append] at hcount
  have h1 : [Access.free].count .free = 1 := rfl
  have h2 : (rawInputRest 0).count .free = 1 := rfl
  omega

/-- For every packet: the packet is freed once and not used afterwards if and only if it is the
awaited reply, and no header byte outside of the first segment is ever read. -/
theorem ping_pbuf_iff (pingSeq : Nat) (p : Pbuf) :
    (Keeps p (packetLife pingSeq p) ↔ IsReply pingSeq p) ∧
      HeadersInside p (packetLife pingSeq p) := by
  have hinside := packet_headersInside pingSeq p
  refine ⟨⟨fun h => ?_, fun h => ?_⟩, hinside⟩
  · by_contra hno
    unfold packetLife at h
    by_cases hin : 20 ≤ p.ipHdrLen ∧ p.ipHdrLen + echoHdr ≤ p.len
    · rw [pingRecvCb_fits hin.1 hin.2] at h
      by_cases htype : p.icmpType = icmpEr
      · have hseq : p.seqno ≠ pingSeq := fun hseq => hno ⟨hin.1, hin.2, htype, hseq⟩
        rw [if_pos htype, if_neg hseq] at h
        exact freed_twice [.use, .header 0, .use, .header p.ipHdrLen,
          .header (p.ipHdrLen + 6), .header (p.ipHdrLen + 7)] h
      · rw [if_neg htype] at h
        exact freed_twice [.use, .header 0, .use, .header p.ipHdrLen] h
    · rcases pingRecvCb_short pingSeq hin with hcb | ⟨-, hcb⟩
      · rw [hcb] at h
        exact freed_twice [.use] h
      · rw [hcb] at h
        exact freed_twice [.use, .header 0, .use] h
  · have hlife : packetLife pingSeq p = [.use, .header 0, .use, .header p.ipHdrLen,
        .header (p.ipHdrLen + 6), .header (p.ipHdrLen + 7), .free] := by
      rw [packetLife, pingRecvCb_fits h.header h.fits, if_pos h.type, if_pos h.seq]
      rfl
    refine ⟨?_, ?_, hinside⟩
    · rw [hlife]
      simp
    · rw [hlife]
      simp

/-- An echo request from somebody else, while a reply to request 7 is awaited. -/
def echoRequest : Pbuf := ⟨[0x45] ++ List.replicate 19 0 ++ [8, 0, 0, 0, 0, 0, 0, 1], []⟩

theorem echo_request_freed_twice : (packetLife 7 echoRequest).count .free = 2 ∧
    ¬Keeps echoRequest (packetLife 7 echoRequest) := by
  have hcount : (packetLife 7 echoRequest).count .free = 2 := by decide +kernel
  refine ⟨hcount, fun h => ?_⟩
  have hone := h.freedOnce
  omega

end Kyuzen.Ping
