import Kyuzen.Net.Socket

/-!
# What a send has queued

`ksock_send` hands its buffer to `tcp_write` chunk by chunk, and may end at any turn of its loop.
Whatever it finds in its slot and whatever lwIP and the timer answer, the value that it returns is
the number of bytes that it has queued (`send_accounts`).
-/

namespace Kyuzen.Net

variable {β : Type}

/-- The turns of a call, one for each poll of its slot: the chunks handed to `tcp_write`, and the
value that is returned or the call that goes on. -/
def turns : Call → List (Ksock β × Answers) → List (List UInt8) × (Int ⊕ Call)
  | c, [] => ([], .inr c)
  | c, (s, a) :: polls =>
    match (c.section s a).ends with
    | .inl ret => ([(c.section s a).written], .inl ret)
    | .inr next => ((c.section s a).written :: (turns next polls).1, (turns next polls).2)

def ksockSend (fd : Int) (buf : List UInt8) (polls : List (Ksock β × Answers)) :
    List (List UInt8) × (Int ⊕ Call) :=
  if buf = [] then ([], .inl 0)
  else
    match get fd with
    | none => ([], .inl (-1))
    | some _ => turns (.send fd (-1) buf 0) polls

/-- The value that is returned, or the progress of the call, is the number of bytes queued. -/
def Accounts (buf queued : List UInt8) : Int ⊕ Call → Prop
  | .inl ret => (0 ≤ ret ∧ ret ≤ buf.length ∨ ret = -1) ∧ queued = buf.take ret.toNat ∧
      (ret = 0 → buf = [])
  | .inr c => ∃ fd gen sent, c = .send fd gen buf sent ∧ sent ≤ buf.length ∧
      queued = buf.take sent

/-! ## A turn -/

variable {s : Ksock β} {buf : List UInt8} {fd gen : Int} {sent : Nat} {a : Answers}

theorem toInt_of_lt {n : Nat} (h : n < 2 ^ 31) : toInt n = n := by
  unfold toInt
  exact Int.bmod_eq_of_le (by omega) (by omega)

theorem sendChunk_le (buf : List UInt8) (sent : Nat) (a : Answers) :
    sendChunk buf sent a ≤ buf.length - sent ∧ sendChunk buf sent a ≤ 65535 := by
  unfold sendChunk
  omega

/-- The number of bytes is returned. -/
theorem accounts_toInt (hlen : buf.length < 2 ^ 31) (hsent : sent ≤ buf.length)
    (hzero : sent = 0 → buf = []) : Accounts buf (buf.take sent) (.inl (toInt sent)) := by
  rw [toInt_of_lt (by omega)]
  refine ⟨Or.inl ⟨by omega, by omega⟩, ?_, fun h0 => hzero (by omega)⟩
  rw [Int.toNat_natCast]

/-- What the call returns when it ends before all of the buffer is queued. -/
theorem accounts_gaveUp (hlen : buf.length < 2 ^ 31) (hsent : sent ≤ buf.length) :
    Accounts buf (buf.take sent) (.inl (if 0 < sent then toInt sent else -1)) := by
  by_cases hpos : 0 < sent
  · rw [if_pos hpos]
    exact accounts_toInt hlen hsent fun h0 => absurd h0 hpos.ne'
  · obtain rfl : sent = 0 := by omega
    rw [if_neg hpos]
    exact ⟨Or.inr rfl, rfl, fun h0 => absurd h0 (by decide)⟩

/-- The rest of a turn, when `sent` bytes are queued. -/
theorem sendEnd_accounts (s : Ksock β) (fd gen : Int) (a : Answers) (hlen : buf.length < 2 ^ 31)
    (hne : buf ≠ []) (hsent : sent ≤ buf.length) (written : List UInt8) :
    (sendEnd s fd gen buf sent written a).written = written ∧
      Accounts buf (buf.take sent) (sendEnd s fd gen buf sent written a).ends := by
  unfold sendEnd
  by_cases hmore : sent < buf.length
  · rw [if_pos hmore]
    cases a.late with
    | true => exact ⟨rfl, accounts_gaveUp hlen hsent⟩
    | false => exact ⟨rfl, fd, gen, sent, rfl, hsent, rfl⟩
  · rw [if_neg hmore]
    have hpos := List.length_pos_of_ne_nil hne
    exact ⟨rfl, accounts_toInt hlen hsent fun h0 => by omega⟩

/-- A turn queues the bytes that follow. -/
theorem sendSection_accounts (s : Ksock β) (fd gen : Int) (a : Answers)
    (hlen : buf.length < 2 ^ 31) (hne : buf ≠ []) (hsent : sent ≤ buf.length) :
    (sendSection s fd gen buf sent a).written.length < 2 ^ 16 ∧
      Accounts buf (buf.take sent ++ (sendSection s fd gen buf sent a).written)
        (sendSection s fd gen buf sent a).ends := by
  have hchunk := sendChunk_le buf sent a
  have hstop : (Section.stop s (if 0 < sent then toInt sent else -1)).written.length < 2 ^ 16 ∧
      Accounts buf (buf.take sent ++ []) (.inl (if 0 < sent then toInt sent else -1)) := by
    rw [List.append_nil]
    exact ⟨Nat.two_pow_pos 16, accounts_gaveUp hlen hsent⟩
  have hwait : (sendEnd s fd (caught s gen) buf sent [] a).written.length < 2 ^ 16 ∧
      Accounts buf (buf.take sent ++ (sendEnd s fd (caught s gen) buf sent [] a).written)
        (sendEnd s fd (caught s gen) buf sent [] a).ends := by
    obtain ⟨hwritten, hends⟩ := sendEnd_accounts s fd (caught s gen) a hlen hne hsent []
    rw [hwritten, List.append_nil]
    exact ⟨Nat.two_pow_pos 16, hends⟩
  unfold sendSection
  by_cases hgone : s.gen ≠ caught s gen ∨ s.state ≠ .connected ∨ s.pcb = none
  · rw [if_pos hgone]
    exact hstop
  by_cases hspace : 0 < a.space
  · rw [if_neg hgone, if_pos hspace]
    cases a.write with
    | ok =>
      obtain ⟨hwritten, hends⟩ := sendEnd_accounts s fd (caught s gen) a hlen hne
        (show sent + sendChunk buf sent a ≤ buf.length by omega)
        ((buf.drop sent).take (sendChunk buf sent a))
      dsimp only
      rw [hwritten, ← List.take_add]
      refine ⟨?_, hends⟩
      rw [List.length_take]
      omega
    | mem => exact hwait
    | other => exact hstop
  · rw [if_neg hgone, if_neg hspace]
    exact hwait

/-! ## The loop -/

theorem turns_accounts (hlen : buf.length < 2 ^ 31) (hne : buf ≠ []) :
    ∀ (polls : List (Ksock β × Answers)) (fd gen : Int) {sent : Nat}, sent ≤ buf.length →
    (∀ chunk ∈ (turns (.send fd gen buf sent) polls).1, chunk.length < 2 ^ 16) ∧
      Accounts buf (buf.take sent ++ (turns (.send fd gen buf sent) polls).1.flatten)
        (turns (.send fd gen buf sent) polls).2 := by
  intro polls
  induction polls with
  | nil =>
    intro fd gen sent hsent
    refine ⟨fun chunk h => absurd h List.not_mem_nil, fd, gen, sent, rfl, hsent, ?_⟩
    exact List.append_nil _
  | cons poll polls ih =>
    intro fd gen sent hsent
    obtain ⟨s, a⟩ := poll
    obtain ⟨hsize, hturn⟩ := sendSection_accounts s fd gen a hlen hne hsent
    have hsec : (Call.send fd gen buf sent).section s a = sendSection s fd gen buf sent a := rfl
    unfold turns
    rw [hsec]
    cases hends : (sendSection s fd gen buf sent a).ends with
    | inl ret =>
      rw [hends] at hturn
      dsimp only
      rw [List.flatten_singleton]
      exact ⟨fun chunk h => List.mem_singleton.mp h ▸ hsize, hturn⟩
    | inr next =>
      rw [hends] at hturn
      obtain ⟨fd', gen', sent', rfl, hsent', hqueued⟩ := hturn
      obtain ⟨hsizes, hrest⟩ := ih fd' gen' hsent'
      dsimp only
      rw [List.flatten_cons, ← List.append_assoc, hqueued]
      exact ⟨List.forall_mem_cons.mpr ⟨hsize, hsizes⟩, hrest⟩

/-- For every buffer below 2^31 bytes, whatever the turns of the loop find. The chunks that
`tcp_write` refuses fit in 16 bits, too. -/
theorem send_accounts (fd : Int) (hlen : buf.length < 2 ^ 31)
    (polls : List (Ksock β × Answers)) :
    (∀ sent a, sendChunk buf sent a < 2 ^ 16) ∧
      (∀ chunk ∈ (ksockSend fd buf polls).1, chunk.length < 2 ^ 16) ∧
      Accounts buf (ksockSend fd buf polls).1.flatten (ksockSend fd buf polls).2 := by
  refine ⟨fun sent a => Nat.lt_succ_of_le (sendChunk_le buf sent a).2, ?_⟩
  unfold ksockSend
  split_ifs with hne
  · subst hne
    exact ⟨fun chunk h => absurd h List.not_mem_nil, Or.inl ⟨le_refl _, le_refl _⟩, rfl,
      fun _ => rfl⟩
  · split
    · exact ⟨fun chunk h => absurd h List.not_mem_nil, Or.inr rfl, rfl, fun h0 => by omega⟩
    · exact turns_accounts hlen hne polls _ _ (Nat.zero_le _)

/-- A first turn that queues two bytes, and a second one that is out of memory and too late. -/
def twoPolls : List (Ksock UInt8 × Answers) :=
  let sock : Ksock UInt8 := ⟨.connected, 1, some 0, fun _ => 0, 0, 0, false⟩
  [(sock, ⟨2, .ok, false⟩), (sock, ⟨5, .mem, true⟩)]

theorem send_accounts_twoPolls :
    (∀ sent a, sendChunk [1, 2, 3] sent a < 2 ^ 16) ∧
      (∀ chunk ∈ (ksockSend 0 [1, 2, 3] twoPolls).1, chunk.length < 2 ^ 16) ∧
      Accounts [1, 2, 3] (ksockSend 0 [1, 2, 3] twoPolls).1.flatten
        (ksockSend 0 [1, 2, 3] twoPolls).2 :=
  send_accounts 0 (by decide) twoPolls

end Kyuzen.Net
