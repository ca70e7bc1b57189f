import Kyuzen.Net.Table

/-!
# Calls stay with their socket

As long as the generation of a slot has not wrapped around, it counts the sockets that were opened
and closed in the slot, and the comparison of generations is a comparison of incarnations
(`Inv`). A call that finds another incarnation than it has looked at first gives up and does
nothing; the bytes that it reads were received for its own incarnation, and those that it sends go
to the control block of its own incarnation (`incarnations_apart`). A closed control block has lost
its argument, so that its callbacks change no slot.
-/

namespace Kyuzen.Net

/-! ## The invariant -/

/-- A slot in the incarnation `now`. -/
structure SlotOk (pcbs : Nat → Pcb) (now : Incarnation) (k : Ksock Byte) : Prop where
  gen_eq : k.gen = now.count
  bytes : ∃ l, k.Holds l ∧ (k.state ≠ .free → ∀ b ∈ l, b.2 = now)
  pcb : ∀ p, k.pcb = some p →
    (pcbs p).used = true ∧ (pcbs p).arg = some now.slot ∧ (pcbs p).made = now
  free : k.state = .free → k.pcb = none

/-- A control block that lwIP knows as `p`. -/
structure PcbOk (socks : Nat → Ksock Byte) (p : Nat) (x : Pcb) : Prop where
  attached : ∀ i, x.arg = some i → (socks i).pcb = some p ∧ x.errf = true
  closed : x.closed = true → x.arg = none

/-- A call compares with the generation that its slot had at the first look. -/
def Running.Ok (inc : Nat → Nat) (r : Running) : Prop :=
  match r.look with
  | none => r.call.Unlooked
  | some n => get r.call.fd = some n.slot ∧ r.call.gen = n.count ∧ n.count ≤ inc n.slot

/-- What a section has done concerns the incarnation that the call has looked at first. -/
structure Entry.Ok (e : Entry) : Prop where
  read : ∀ b ∈ e.read, b.2 = e.look
  written : e.written ≠ [] → e.dest = some e.look
  gone : e.now ≠ e.look → e.read = [] ∧ e.written = [] ∧ e.ends = .inl e.call.gaveUp

/-- The invariant after `n` calls of `ksock_socket` and `ksock_close`. -/
structure Inv (s : State) (n : Nat) : Prop where
  slot : ∀ i, SlotOk s.pcbs (s.now i) (s.socks i)
  pcb : ∀ p, (s.pcbs p).used = true → PcbOk s.socks p (s.pcbs p)
  task : ∀ t r, s.task t = some r → r.Ok s.inc
  inc_le : ∀ i, s.inc i ≤ n
  log : ∀ e ∈ s.log, e.Ok

theorem Inv.init : Inv State.init 0 where
  slot i := {
    gen_eq := rfl
    bytes := ⟨[], Ksock.Holds.empty _ rfl, fun h => absurd rfl h⟩
    pcb := fun p hp => by cases hp
    free := fun _ => rfl }
  pcb p hp := by cases hp
  task t r hr := by cases hr
  inc_le i := Nat.le_refl 0
  log e he := by cases he

variable {s : State} {n : Nat}

/-! ## Slots and control blocks -/

theorem SlotOk.setPcb {pcbs : Nat → Pcb} {now : Incarnation} {k : Ksock Byte}
    (h : SlotOk pcbs now k) {p : Nat} (hp : k.pcb ≠ some p) (x : Pcb) :
    SlotOk (Function.update pcbs p x) now k where
  gen_eq := h.gen_eq
  bytes := h.bytes
  free := h.free
  pcb q hq := by
    have hne : q ≠ p := by
      rintro rfl
      exact hp hq
    rw [Function.update_of_ne hne]
    exact h.pcb q hq

/-- A slot is changed, but not its control block. -/
theorem PcbOk.setSock {socks : Nat → Ksock Byte} {p : Nat} {x : Pcb} (h : PcbOk socks p x) {i : Nat}
    {k : Ksock Byte} (hk : k.pcb = (socks i).pcb) : PcbOk (Function.update socks i k) p x where
  closed := h.closed
  attached j hj := by
    refine ⟨?_, (h.attached j hj).2⟩
    by_cases hji : j = i
    · subst hji
      rw [Function.update_self, hk]
      exact (h.attached j hj).1
    · rw [Function.update_of_ne hji]
      exact (h.attached j hj).1

/-- A slot loses its control block `q`. -/
theorem PcbOk.setSock_of_ne {socks : Nat → Ksock Byte} {p q : Nat} {x : Pcb}
    (h : PcbOk socks p x) {i : Nat} (hi : (socks i).pcb = some q ∨ (socks i).pcb = none)
    (hpq : p ≠ q) (k : Ksock Byte) : PcbOk (Function.update socks i k) p x where
  closed := h.closed
  attached j hj := by
    refine ⟨?_, (h.attached j hj).2⟩
    have hji : j ≠ i := by
      rintro rfl
      have hown := (h.attached j hj).1
      rcases hi with hq | hnone
      · exact hpq (Option.some.inj (hown.symm.trans hq))
      · cases hown.symm.trans hnone
    rw [Function.update_of_ne hji]
    exact (h.attached j hj).1

/-- A slot is replaced by one with the same generation and control block. -/
theorem Inv.setSock (h : Inv s n) {i : Nat} {k : Ksock Byte} (hk : SlotOk s.pcbs (s.now i) k)
    (hpcb : k.pcb = (s.socks i).pcb) : Inv (s.setSock i k) n where
  slot j := by
    by_cases hji : j = i
    · subst hji
      simp only [State.setSock, Function.update_self]
      exact hk
    · simp only [State.setSock, Function.update_of_ne hji]
      exact h.slot j
  pcb p hp := (h.pcb p hp).setSock hpcb
  task := h.task
  inc_le := h.inc_le
  log := h.log

theorem Inv.setTask (h : Inv s n) (t : Nat) {r : Option Running}
    (hr : ∀ r', r = some r' → r'.Ok s.inc) : Inv (s.setTask t r) n where
  slot := h.slot
  pcb := h.pcb
  task u r' hu := by
    by_cases hut : u = t
    · subst hut
      simp only [State.setTask, Function.update_self] at hu
      exact hr r' hu
    · simp only [State.setTask, Function.update_of_ne hut] at hu
      exact h.task u r' hu
  inc_le := h.inc_le
  log := h.log

/-- No slot has a control block that is detached. -/
theorem Inv.pcb_ne (h : Inv s n) {p : Nat} (hp : (s.pcbs p).used = false ∨ (s.pcbs p).arg = none)
    (i : Nat) : (s.socks i).pcb ≠ some p := by
  intro hi
  obtain ⟨hused, harg, -⟩ := (h.slot i).pcb p hi
  rcases hp with hfree | hnone
  · rw [hused] at hfree
    cases hfree
  · rw [harg] at hnone
    cases hnone

/-- A detached control block changes. -/
theorem Inv.setPcb (h : Inv s n) {p : Nat} (hp : (s.pcbs p).used = false ∨ (s.pcbs p).arg = none)
    {x : Pcb} (hx : x.used = true → PcbOk s.socks p x) : Inv (s.setPcb p x) n where
  slot i := (h.slot i).setPcb (h.pcb_ne hp i) x
  pcb q hq := by
    by_cases hqp : q = p
    · subst hqp
      simp only [State.setPcb, Function.update_self] at hq ⊢
      exact hx hq
    · simp only [State.setPcb, Function.update_of_ne hqp] at hq ⊢
      exact h.pcb q hq
  task := h.task
  inc_le := h.inc_le
  log := h.log

/-! ## Callbacks -/

/-- A callback that keeps the generation and the control block, and adds only bytes of the slot's
own incarnation. -/
theorem Inv.onArg (h : Inv s n) {p : Nat} {f : Ksock Byte → Ksock Byte}
    (hused : (s.pcbs p).used = true) (hpcb : ∀ k, (f k).pcb = k.pcb)
    (hf : ∀ k, SlotOk s.pcbs (s.pcbs p).made k → k.state ≠ .free →
      SlotOk s.pcbs (s.pcbs p).made (f k)) : Inv (s.onArg p f) n := by
  unfold State.onArg
  split
  · exact h
  · next i harg =>
    have hown := ((h.pcb p hused).attached i harg).1
    have hmade := ((h.slot i).pcb p hown).2.2
    have hstate : (s.socks i).state ≠ .free := by
      intro hfree
      rw [(h.slot i).free hfree] at hown
      cases hown
    refine h.setSock ?_ (hpcb _)
    have hslot := h.slot i
    rw [← hmade] at hslot ⊢
    exact hf _ hslot hstate

/-- The ring of a slot changes. -/
theorem SlotOk.sameSocket {pcbs : Nat → Pcb} {now : Incarnation} {k k' : Ksock Byte}
    (h : SlotOk pcbs now k) (hk : SameSocket k k') {l : List Byte} (hl : k'.Holds l)
    (htags : k.state ≠ .free → ∀ b ∈ l, b.2 = now) : SlotOk pcbs now k' := by
  obtain ⟨hgen, hstate, hpcb⟩ := hk
  refine ⟨?_, ⟨l, hl, ?_⟩, ?_, ?_⟩
  · rw [hgen]
    exact h.gen_eq
  · rw [hstate]
    exact htags
  · rw [hpcb]
    exact h.pcb
  · rw [hstate, hpcb]
    exact h.free

theorem SlotOk.cbRecv {pcbs : Nat → Pcb} {now : Incarnation} {k : Ksock Byte}
    (h : SlotOk pcbs now k) {chain : Option (List (List Byte))}
    (hchain : ∀ c, chain = some c → ∀ b ∈ c.flatten, b.2 = now) (err : Err) :
    SlotOk pcbs now (cbRecv k chain err).2 := by
  obtain ⟨l, hl, htags⟩ := h.bytes
  have hsame := cbRecv_sameSocket k chain err
  by_cases herr : err = .ok
  · subst herr
    cases chain with
    | none => exact h.sameSocket hsame (hl.congr rfl rfl rfl) htags
    | some c =>
      refine h.sameSocket hsame (hl.push_chain c) ?_
      intro hstate b hb
      rcases List.mem_append.mp hb with hold | hnew
      · exact htags hstate b hold
      · exact hchain c rfl b (List.mem_of_mem_take hnew)
  · have hskip : Net.cbRecv k chain err = (0, k) := if_pos herr
    rw [hskip]
    exact h

theorem Inv.recvCallback (h : Inv s n) (p : Nat) (chain : Option (List (List UInt8))) (err : Err) :
    Inv (s.recvCallback p chain err) n := by
  unfold State.recvCallback
  split
  · next hp =>
    refine h.onArg hp.1 (fun k => (cbRecv_sameSocket k _ err).2.2) fun k hk _ => hk.cbRecv ?_ err
    intro c hc b hb
    obtain ⟨c', -, rfl⟩ := Option.map_eq_some_iff.mp hc
    obtain ⟨data, hdata, hb⟩ := List.mem_flatten.mp hb
    obtain ⟨data', -, rfl⟩ := List.mem_map.mp hdata
    obtain ⟨b', -, rfl⟩ := List.mem_map.mp hb
    rfl
  · exact h

theorem Inv.connectedCallback (h : Inv s n) (p : Nat) (err : Err) :
    Inv (s.connectedCallback p err) n := by
  unfold State.connectedCallback
  split
  · next hp =>
    refine h.onArg hp (fun k => rfl) fun k hk hstate => ⟨hk.gen_eq, ?_, hk.pcb, ?_⟩
    · obtain ⟨l, hl, htags⟩ := hk.bytes
      exact ⟨l, hl.congr rfl rfl rfl, fun _ => htags hstate⟩
    · intro hfree
      simp only [cbConnected] at hfree
      split at hfree <;> cases hfree
  · exact h

/-- The control block of slot `i` is given up. -/
theorem Inv.lose (h : Inv s n) {p i : Nat} (hi : (s.socks i).pcb = some p) {x : Pcb}
    (hx : x.used = true → x.arg = none) {k : Ksock Byte}
    (hk : SlotOk (Function.update s.pcbs p x) (s.now i) k) :
    Inv ((s.setSock i k).setPcb p x) n where
  slot j := by
    by_cases hji : j = i
    · subst hji
      simp only [State.setPcb, State.setSock, Function.update_self]
      exact hk
    · simp only [State.setPcb, State.setSock, Function.update_of_ne hji]
      refine (h.slot j).setPcb ?_ x
      intro hj
      have hslots := ((h.slot j).pcb p hj).2.1.symm.trans ((h.slot i).pcb p hi).2.1
      exact hji (Option.some.inj hslots)
  pcb q hq := by
    by_cases hqp : q = p
    · subst hqp
      simp only [State.setPcb, Function.update_self] at hq ⊢
      refine ⟨?_, fun _ => hx hq⟩
      intro j hj
      rw [hx hq] at hj
      cases hj
    · simp only [State.setPcb, Function.update_of_ne hqp] at hq ⊢
      exact (h.pcb q hq).setSock_of_ne (Or.inl hi) hqp k
  task := h.task
  inc_le := h.inc_le
  log := h.log

theorem Inv.abort (h : Inv s n) (p : Nat) : Inv (s.abort p) n := by
  unfold State.abort
  split
  · next hused =>
    cases harg : (s.pcbs p).arg with
    | none =>
      have hsame : (if (s.pcbs p).errf then s.onArg p cbErr else s) = s := by
        rw [State.onArg, harg]
        exact ite_self s
      rw [hsame]
      exact h.setPcb (Or.inr harg) fun hx => by cases hx
    | some i =>
      obtain ⟨hown, herrf⟩ := (h.pcb p hused).attached i harg
      rw [if_pos herrf, State.onArg, harg]
      refine h.lose hown (fun hx => by cases hx) ⟨(h.slot i).gen_eq, ?_, ?_, ?_⟩
      · obtain ⟨l, hl, htags⟩ := (h.slot i).bytes
        refine ⟨l, hl.congr rfl rfl rfl, fun _ => htags ?_⟩
        intro hfree
        rw [(h.slot i).free hfree] at hown
        cases hown
      · intro q hq
        cases hq
      · intro _
        rfl
  · exact h

theorem Inv.reap (h : Inv s n) (p : Nat) : Inv (s.reap p) n := by
  unfold State.reap
  split
  · next hp =>
    exact h.setPcb (Or.inr ((h.pcb p hp.1).closed hp.2)) fun hx => by cases hx
  · exact h

/-! ## Opening and closing -/

/-- A free slot is not attached to a control block, so that no connection that lwIP gives up changes
it. -/
theorem Inv.abort_free (h : Inv s n) {i : Nat} (hfree : (s.socks i).state = .free) (p : Nat) :
    (s.abort p).socks i = s.socks i := by
  unfold State.abort
  split
  · next hused =>
    simp only [State.setPcb]
    split
    · unfold State.onArg
      split
      · rfl
      · next j harg =>
        have hown := ((h.pcb p hused).attached j harg).1
        have hij : i ≠ j := by
          intro hij
          rw [← hij, (h.slot i).free hfree] at hown
          cases hown
        exact Function.update_of_ne hij _ _
    · rfl
  · rfl

theorem Inv.aborts (h : Inv s n) {i : Nat} (hfree : (s.socks i).state = .free) (kills : List Nat) :
    Inv (kills.foldl State.abort s) n ∧ (kills.foldl State.abort s).socks i = s.socks i := by
  induction kills generalizing s with
  | nil => exact ⟨h, rfl⟩
  | cons p kills ih =>
    have hsame := h.abort_free hfree p
    obtain ⟨hinv, hrest⟩ := ih (h.abort p) (by rw [hsame]; exact hfree)
    exact ⟨hinv, hrest.trans hsame⟩

/-- A call of an earlier incarnation stays one. -/
theorem Running.Ok.bump {inc : Nat → Nat} {r : Running} (h : r.Ok inc) (i : Nat) :
    r.Ok (Function.update inc i (inc i + 1)) := by
  unfold Running.Ok at h ⊢
  cases hlook : r.look with
  | none =>
    rw [hlook] at h
    exact h
  | some m =>
    rw [hlook] at h
    obtain ⟨hfd, hgen, hle⟩ := h
    refine ⟨hfd, hgen, ?_⟩
    by_cases hm : m.slot = i
    · rw [hm, Function.update_self]
      rw [hm] at hle
      omega
    · rw [Function.update_of_ne hm]
      exact hle

theorem toInt_succ {count : Nat} (h : count < 2 ^ 30) :
    toInt ((count : Int) + 1) = (count + 1 : Nat) := by
  unfold toInt
  rw [Int.bmod_eq_of_le (by omega) (by omega)]
  rfl

/-- The incarnation of a slot ends, and the slot has the control block of the next one, if any. -/
theorem Inv.bump (h : Inv s n) {i : Nat} {k : Ksock Byte} {pcbs : Nat → Pcb}
    (hk : SlotOk pcbs ⟨i, s.inc i + 1⟩ k)
    (hslot : ∀ j, j ≠ i → SlotOk pcbs (s.now j) (s.socks j))
    (hpcb : ∀ p, (pcbs p).used = true → PcbOk (Function.update s.socks i k) p (pcbs p)) :
    Inv { s with
      socks := Function.update s.socks i k
      pcbs := pcbs
      inc := Function.update s.inc i (s.inc i + 1) } (n + 1) where
  slot j := by
    by_cases hji : j = i
    · subst hji
      simp only [State.now, Function.update_self]
      exact hk
    · simp only [State.now, Function.update_of_ne hji]
      exact hslot j hji
  pcb := hpcb
  task t r hr := (h.task t r hr).bump i
  inc_le j := by
    have hle := h.inc_le j
    by_cases hji : j = i
    · subst hji
      simp only [Function.update_self]
      omega
    · simp only [Function.update_of_ne hji]
      omega
  log := h.log

theorem Inv.mono (h : Inv s n) : Inv s (n + 1) :=
  ⟨h.slot, h.pcb, h.task, fun i => Nat.le_succ_of_le (h.inc_le i), h.log⟩

theorem Inv.tcpNew (h : Inv s n) {fd : Nat} (hfree : (s.socks fd).state = .free)
    {kills : List Nat} {want r : Option Nat} {s' : State}
    (hnew : s.tcpNew kills want = (r, s')) :
    Inv s' n ∧ (s'.socks fd).state = .free ∧ ∀ p, r = some p → (s'.pcbs p).used = false := by
  obtain ⟨hinv, hsame⟩ := h.aborts hfree kills
  rw [← hsame] at hfree
  cases want with
  | none =>
    cases hnew
    exact ⟨hinv, hfree, fun p hp => by cases hp⟩
  | some q =>
    simp only [State.tcpNew] at hnew
    split at hnew
    · cases hnew
      exact ⟨hinv, hfree, fun p hp => by cases hp⟩
    · next hunused =>
      cases hnew
      refine ⟨hinv, hfree, ?_⟩
      intro p hp
      rw [← Option.some.inj hp]
      simpa using hunused

theorem Inv.ksockSocket (h : Inv s n) (hn : n < 2 ^ 30) (kills : List Nat) (want : Option Nat) :
    Inv (s.ksockSocket kills want).2 (n + 1) := by
  unfold State.ksockSocket
  split
  · exact h.mono
  next fd hfind =>
  have hfree : (s.socks fd).state = .free := by simpa using List.find?_some hfind
  split
  · next s' hnew => exact (h.tcpNew hfree hnew).1.mono
  next p s' hnew =>
  obtain ⟨h', hfree', hunused⟩ := h.tcpNew hfree hnew
  have hle := h'.inc_le fd
  have hnone := (h'.slot fd).free hfree'
  refine h'.bump ⟨?_, ?_, ?_, ?_⟩ ?_ ?_
  · show toInt ((s'.socks fd).gen + 1) = (s'.inc fd + 1 : Nat)
    rw [(h'.slot fd).gen_eq]
    exact toInt_succ (Nat.lt_of_le_of_lt hle hn)
  · exact ⟨[], Ksock.Holds.empty _ rfl, fun _ b hb => by cases hb⟩
  · intro q hq
    cases hq
    rw [Function.update_self]
    exact ⟨rfl, rfl, rfl⟩
  · intro hstate
    cases hstate
  · intro j hj
    exact (h'.slot j).setPcb (h'.pcb_ne (Or.inl (hunused p rfl)) j) _
  · intro q hq
    by_cases hqp : q = p
    · subst hqp
      simp only [Function.update_self] at hq ⊢
      refine ⟨?_, fun hclosed => by cases hclosed⟩
      intro j hj
      cases hj
      rw [Function.update_self]
      exact ⟨rfl, rfl⟩
    · simp only [Function.update_of_ne hqp] at hq ⊢
      exact (h'.pcb q hq).setSock_of_ne (Or.inr hnone) hqp _

/-- The control block of a slot is closed. -/
theorem Inv.closePcb (h : Inv s n) {p i : Nat} (hi : (s.socks i).pcb = some p) (ok kept : Bool) :
    Inv ((s.setSock i { s.socks i with pcb := none }).closePcb p ok kept) n := by
  refine h.lose hi (fun _ => rfl) ⟨(h.slot i).gen_eq, ?_, ?_, fun _ => rfl⟩
  · obtain ⟨l, hl, htags⟩ := (h.slot i).bytes
    exact ⟨l, hl.congr rfl rfl rfl, htags⟩
  · intro q hq
    cases hq

/-- A slot without a control block becomes free. -/
theorem Inv.freeSlot (h : Inv s n) (hn : n < 2 ^ 30) {i : Nat} (hi : (s.socks i).pcb = none) :
    Inv { s with
      socks := Function.update s.socks i { s.socks i with
        pcb := none
        state := .free
        gen := toInt ((s.socks i).gen + 1) }
      inc := Function.update s.inc i (s.inc i + 1) } (n + 1) := by
  have hle := h.inc_le i
  refine h.bump ⟨?_, ?_, ?_, fun _ => rfl⟩ (fun j _ => h.slot j) ?_
  · show toInt ((s.socks i).gen + 1) = (s.inc i + 1 : Nat)
    rw [(h.slot i).gen_eq]
    exact toInt_succ (Nat.lt_of_le_of_lt hle hn)
  · obtain ⟨l, hl, -⟩ := (h.slot i).bytes
    exact ⟨l, hl.congr rfl rfl rfl, fun hstate => absurd rfl hstate⟩
  · intro q hq
    cases hq
  · intro q hq
    exact (h.pcb q hq).setSock hi.symm

theorem Inv.ksockClose (h : Inv s n) (hn : n < 2 ^ 30) (fd : Int) (ok kept : Bool) :
    Inv (s.ksockClose fd ok kept).2 (n + 1) := by
  unfold State.ksockClose
  split
  · exact h.mono
  next i _ =>
  split
  · exact h.mono
  cases hpcb : (s.socks i).pcb with
  | none => exact h.freeSlot hn hpcb
  | some p =>
    have hfree := (h.closePcb hpcb ok kept).freeSlot hn (i := i) (by
      show (Function.update s.socks i _ i).pcb = none
      rw [Function.update_self])
    simp only [State.closePcb, State.setPcb, State.setSock, Function.update_self,
      Function.update_idem] at hfree
    exact hfree

/-! ## Calls that block -/

theorem Inv.ksockConnect (h : Inv s n) (t : Nat) (fd : Int) (err : Err) :
    Inv (s.ksockConnect t fd err) n := by
  unfold State.ksockConnect
  split
  · exact h
  next i hi =>
  split
  · exact h
  next halloc =>
  have hstate : (s.socks i).state ≠ .free := by
    intro hfree
    exact halloc (Or.inl (by rw [hfree]; decide))
  have hset : Inv (s.setSock i { s.socks i with state := .connecting }) n := by
    refine h.setSock ⟨(h.slot i).gen_eq, ?_, (h.slot i).pcb, ?_⟩ rfl
    · obtain ⟨l, hl, htags⟩ := (h.slot i).bytes
      exact ⟨l, hl.congr rfl rfl rfl, fun _ => htags hstate⟩
    · intro hfree
      cases hfree
  simp only
  split
  · exact hset
  · refine hset.setTask t ?_
    intro r hr
    cases hr
    exact ⟨hi, (h.slot i).gen_eq, Nat.le_refl _⟩

/-- The comparison of generations is a comparison of incarnations. -/
theorem Inv.gen_eq_iff (h : Inv s n) {r : Running} {m : Incarnation} (hr : r.Ok s.inc)
    (hm : r.look = some m) {i : Nat} (hi : get r.call.fd = some i) :
    m.slot = i ∧ 0 ≤ r.call.gen ∧ ((s.socks i).gen = r.call.gen ↔ s.now i = m) := by
  unfold Running.Ok at hr
  rw [hm] at hr
  obtain ⟨hfd, hgen, -⟩ := hr
  have hslot : m.slot = i := Option.some.inj (hfd.symm.trans hi)
  refine ⟨hslot, by rw [hgen]; exact Int.natCast_nonneg _, ?_⟩
  rw [(h.slot i).gen_eq, hgen, Int.natCast_inj]
  constructor
  · intro hcount
    obtain ⟨slot, count⟩ := m
    obtain rfl : slot = i := hslot
    obtain rfl : s.inc slot = count := hcount
    rfl
  · intro hnow
    rw [hnow]

/-- A section keeps what a slot is. -/
theorem SlotOk.section {pcbs : Nat → Pcb} {now : Incarnation} {k : Ksock Byte}
    (h : SlotOk pcbs now k) (c : Call) (a : Answers) :
    SlotOk pcbs now (c.section k a).sock ∧ ∀ b ∈ (c.section k a).read, b.2 = now := by
  obtain ⟨l, hl, htags⟩ := h.bytes
  obtain ⟨m, hread, hholds⟩ := c.section_holds hl a
  constructor
  · refine h.sameSocket (c.section_sameSocket k a) hholds ?_
    intro hstate b hb
    exact htags hstate b (List.mem_of_mem_drop hb)
  · intro b hb
    have hstate : k.state ≠ .free := by
      intro hfree
      rw [c.section_free hfree a] at hb
      cases hb
    rw [hread] at hb
    exact htags hstate b (List.mem_of_mem_take hb)

/-- A section of a call that has not looked yet, or that finds its incarnation. -/
theorem Inv.entry_here (h : Inv s n) (c : Call) (i : Nat) (a : Answers) :
    Entry.Ok ⟨c, s.now i, s.now i, (c.section (s.socks i) a).read,
      (c.section (s.socks i) a).written, (s.socks i).pcb.map fun p => (s.pcbs p).made,
      (c.section (s.socks i) a).ends⟩ := by
  refine ⟨((h.slot i).section c a).2, ?_, fun hne => absurd rfl hne⟩
  intro hwritten
  obtain ⟨p, hp⟩ := Option.ne_none_iff_exists'.mp (c.section_written hwritten)
  show (s.socks i).pcb.map _ = _
  rw [hp, Option.map_some, ((h.slot i).pcb p hp).2.2]

/-- A section of a call whose incarnation is over. -/
theorem entry_gone (c : Call) {k : Ksock Byte} (hgen : k.gen ≠ c.gen) (hnonneg : 0 ≤ c.gen)
    (a : Answers) (look now : Incarnation) (dest : Option Incarnation) :
    Entry.Ok ⟨c, look, now, (c.section k a).read, (c.section k a).written, dest,
      (c.section k a).ends⟩ := by
  rw [c.section_gone hgen hnonneg a]
  refine ⟨?_, fun hw => absurd rfl hw, fun _ => ⟨rfl, rfl, rfl⟩⟩
  intro b hb
  cases hb

/-- What a section logs, and the call that goes on after it. -/
theorem Inv.section_ok (h : Inv s n) {r : Running} (hr : r.Ok s.inc) {i : Nat}
    (hi : get r.call.fd = some i) (a : Answers) :
    Entry.Ok ⟨r.call, r.look.getD (s.now i), s.now i, (r.call.section (s.socks i) a).read,
        (r.call.section (s.socks i) a).written, (s.socks i).pcb.map fun p => (s.pcbs p).made,
        (r.call.section (s.socks i) a).ends⟩ ∧
      ∀ c, (r.call.section (s.socks i) a).ends = .inr c →
        Running.Ok s.inc ⟨c, some (r.look.getD (s.now i))⟩ := by
  have hhere : ∀ c, (r.call.section (s.socks i) a).ends = .inr c →
      (s.socks i).gen = r.call.gen ∨ r.call.Unlooked → Running.Ok s.inc ⟨c, some (s.now i)⟩ := by
    intro c hc hgen
    obtain ⟨hfd, hnext⟩ := Call.section_next hc hgen
    refine ⟨?_, hnext.trans (h.slot i).gen_eq, Nat.le_refl _⟩
    rw [hfd]
    exact hi
  cases hlook : r.look with
  | none =>
    have hun : r.call.Unlooked := by
      rw [Running.Ok, hlook] at hr
      exact hr
    exact ⟨h.entry_here r.call i a, fun c hc => hhere c hc (Or.inr hun)⟩
  | some m =>
    obtain ⟨-, hnonneg, hiff⟩ := h.gen_eq_iff hr hlook hi
    by_cases hgen : (s.socks i).gen = r.call.gen
    · rw [Option.getD_some, ← hiff.mp hgen]
      exact ⟨h.entry_here r.call i a, fun c hc => hhere c hc (Or.inl hgen)⟩
    · refine ⟨entry_gone r.call hgen hnonneg a _ _ _, ?_⟩
      intro c hc
      rw [r.call.section_gone hgen hnonneg a] at hc
      cases hc

theorem Inv.turn (h : Inv s n) (t : Nat) (a : Answers) : Inv (s.turn t a) n := by
  unfold State.turn
  split
  · exact h
  next r hr =>
  split
  · exact h.setTask t fun r' hr' => by cases hr'
  next i hi =>
  obtain ⟨hentry, hnext⟩ := h.section_ok (h.task t r hr) hi a
  have hslot := ((h.slot i).section r.call a).1
  have hset := h.setSock hslot (r.call.section_sameSocket (s.socks i) a).2.2
  have htask : Inv ((s.setSock i (r.call.section (s.socks i) a).sock).setTask t
      (Running.next (r.look.getD (s.now i)) (r.call.section (s.socks i) a).ends)) n := by
    refine hset.setTask t ?_
    intro r' hr'
    cases hends : (r.call.section (s.socks i) a).ends with
    | inl ret =>
      rw [hends] at hr'
      cases hr'
    | inr c =>
      rw [hends] at hr'
      cases hr'
      exact hnext c hends
  refine ⟨htask.slot, htask.pcb, htask.task, htask.inc_le, ?_⟩
  intro e he
  rcases List.mem_cons.mp he with rfl | hold
  · exact hentry
  · exact h.log e hold

/-! ## Runs -/

theorem Inv.step (h : Inv s n) (e : Event) (hn : e.bumps = true → n < 2 ^ 30) :
    Inv (step s e) (n + if e.bumps then 1 else 0) := by
  cases e with
  | socket kills want => exact h.ksockSocket (hn rfl) kills want
  | close fd ok kept => exact h.ksockClose (hn rfl) fd ok kept
  | connect t fd err =>
    simp only [Net.step]
    split
    · exact h
    · exact h.ksockConnect t fd err
  | send t fd buf =>
    simp only [Net.step, State.ksockSend]
    split
    · exact h
    split
    · exact h
    · refine h.setTask t fun r hr => ?_
      cases hr
      exact rfl
  | recv t fd len =>
    simp only [Net.step, State.ksockRecv]
    split
    · exact h
    split
    · exact h
    · refine h.setTask t fun r hr => ?_
      cases hr
      exact rfl
  | turn t a => exact h.turn t a
  | cbRecv p chain err => exact h.recvCallback p chain err
  | cbConnected p err => exact h.connectedCallback p err
  | cbErr p => exact h.abort p
  | reap p => exact h.reap p

theorem Inv.run (events : List Event) (h : Inv s n)
    (hcalls : n + events.countP Event.bumps < 2 ^ 30) :
    Inv (events.foldl Net.step s) (n + events.countP Event.bumps) := by
  induction events generalizing s n with
  | nil => exact h
  | cons e events ih =>
    rw [List.countP_cons] at hcalls ⊢
    have hstep := h.step e (by omega)
    have hrest := ih hstep (by omega)
    rw [List.foldl_cons]
    rwa [show n + (events.countP Event.bumps + if e.bumps then 1 else 0) =
      (n + if e.bumps then 1 else 0) + events.countP Event.bumps by omega]

/-- A callback changes at most the slot to which its control block is attached. -/
theorem callback_slot {e : Event} {p : Nat} (he : e.callback = some p) (s : State) (i : Nat)
    (hi : (Net.step s e).socks i ≠ s.socks i) :
    (s.pcbs p).used = true ∧ (s.pcbs p).arg = some i := by
  have honArg : ∀ f, (s.onArg p f).socks i ≠ s.socks i → (s.pcbs p).arg = some i := by
    intro f hf
    unfold State.onArg at hf
    split at hf
    · exact absurd rfl hf
    · next j harg =>
      by_cases hij : i = j
      · rw [hij]
        exact harg
      · exact absurd (Function.update_of_ne hij _ _) hf
  cases e with
  | cbRecv q chain err =>
    cases he
    simp only [Net.step, State.recvCallback] at hi
    split at hi
    · next hp => exact ⟨hp.1, honArg _ hi⟩
    · exact absurd rfl hi
  | cbConnected q err =>
    cases he
    simp only [Net.step, State.connectedCallback] at hi
    split at hi
    · next hp => exact ⟨hp, honArg _ hi⟩
    · exact absurd rfl hi
  | cbErr q =>
    cases he
    simp only [Net.step, State.abort] at hi
    split at hi
    · next hp =>
      refine ⟨hp, ?_⟩
      simp only [State.setPcb] at hi
      split at hi
      · exact honArg _ hi
      · exact absurd rfl hi
    · exact absurd rfl hi
  | _ => cases he

/-- In a run with fewer than 2³⁰ sockets opened and closed, every section of a call concerns the
incarnation that the call has looked at first, a callback changes only the slot for whose present
incarnation its control block was made, and that of a closed control block none. -/
theorem incarnations_apart (events : List Event) (hcalls : events.countP Event.bumps < 2 ^ 30) :
    (∀ e ∈ (run events).log, e.Ok) ∧
      ∀ (e : Event) (p : Nat), e.callback = some p →
        (∀ i, (step (run events) e).socks i ≠ (run events).socks i →
          ((run events).pcbs p).made = (run events).now i) ∧
        (((run events).pcbs p).closed = true → (step (run events) e).socks = (run events).socks) := by
  have hinv : Inv (run events) (0 + events.countP Event.bumps) :=
    Inv.init.run events (by omega)
  refine ⟨hinv.log, ?_⟩
  intro e p he
  constructor
  · intro i hi
    obtain ⟨hused, harg⟩ := callback_slot he _ i hi
    have hown := ((hinv.pcb p hused).attached i harg).1
    exact ((hinv.slot i).pcb p hown).2.2
  · intro hclosed
    ext1 i
    by_contra hi
    obtain ⟨hused, harg⟩ := callback_slot he _ i hi
    rw [(hinv.pcb p hused).closed hclosed] at harg
    cases harg

/-- Task 2 waits for data of slot 0. The socket is closed, the slot is used again and gets data,
and then task 2 looks again. -/
def reuse : List Event :=
  [.socket [] (some 0), .connect 1 0 .ok, .cbConnected 0 .ok, .recv 2 0 10, .turn 2 ⟨0, .ok, false⟩,
    .close 0 true true, .socket [] (some 1), .connect 3 0 .ok, .cbConnected 1 .ok,
    .cbRecv 1 (some [[7]]) .ok, .turn 2 ⟨0, .ok, false⟩]

theorem incarnations_apart_reuse :
    (run reuse).log.map (fun e => e.now.count) = [3, 1] ∧ ((run reuse).socks 0).rxLen = 1 ∧
      ∀ e ∈ (run reuse).log, e.Ok :=
  ⟨by decide, by decide, (incarnations_apart reuse (by decide)).1⟩

end Kyuzen.Net
