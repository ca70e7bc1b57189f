import Mathlib.Data.List.Nodup
import Kyuzen.Lib.Ring
import Kyuzen.Gpu.Virtqueue

/-!
# Chains and timeouts

A wait that succeeds sets `free_head` to 0, as if the queue were empty. It is empty if the device
has returned the chains of all earlier commands before that of the running one. After a timeout it
need not be: the next command that succeeds makes the descriptors of the chain that is still with
the device free again, and its head, which stands for the chain in the used ring, is used twice
(`chain_overwritten`).

If the device returns the chain of a running command only when it has returned all earlier ones,
no descriptor is ever overwritten that the device still holds, and a command succeeds only when
its own chain has been returned (`commands_safe`). Timeouts in a row are allowed: their chains lie
one behind the other, from descriptor 0 on.
-/

namespace Kyuzen.Gpu

open Lib

variable {s s' : State} {vq : Virtq} {n k h : Nat} {unread : List UsedElem}

/-! ## What the driver knows about the queue -/

/-- The chains since the last success take up the first `n` descriptors, one behind the other.
`unread` are the cells of the used ring that have not been read. -/
structure Queue (n : Nat) (unread : List UsedElem) (s : State) : Prop where
  dvd : s.vq.queueSize ∣ 2 ^ 16
  small : s.vq.queueSize < 2 ^ 16
  head : s.vq.freeHead = n % s.vq.queueSize
  free : n + s.vq.numFree ≤ s.vq.queueSize
  ring : RingHolds s.vq.queueSize (2 ^ 16) s.vq.usedRing s.vq.lastUsedIdx unread
  used : s.vq.usedIdx = (s.vq.lastUsedIdx + unread.length) % 2 ^ 16
  last : s.vq.lastUsedIdx < 2 ^ 16
  room : s.chains.length + unread.length ≤ n
  below : ∀ c ∈ s.chains, 0 < c.count ∧ c.head + c.count ≤ n ∧ c.cmd < s.nextCmd
  apart : s.chains.Pairwise fun c c' => c.head + c.count ≤ c'.head ∧ c.cmd < c'.cmd
  ids : ∀ e ∈ unread, e.id < n

theorem Queue.unreadCount (hq : Queue n unread s) : unreadCount s.vq = unread.length := by
  have hfree := hq.free
  have hroom := hq.room
  have hsmall := hq.small
  unfold Gpu.unreadCount
  rw [hq.used]
  exact ring_length hq.last (by omega)

/-- Chains of different commands are different. -/
theorem Queue.chain_unique (hq : Queue n unread s) {c c' : Chain} (hc : c ∈ s.chains)
    (hc' : c' ∈ s.chains) (hcmd : c.cmd = c'.cmd) : c = c' := by
  have hnodup : (s.chains.map Chain.cmd).Nodup := by
    rw [List.Nodup, List.pairwise_map]
    exact hq.apart.imp fun h => Nat.ne_of_lt h.2
  exact List.inj_on_of_nodup_map hnodup hc hc' hcmd

theorem Queue.chains_nodup (hq : Queue n unread s) : s.chains.Nodup := by
  apply hq.apart.imp
  rintro c c' hlt rfl
  omega

/-! ## The device returns a chain -/

/-- The answer of the device to one event. -/
theorem deviceReturn_cases (s : State) (e : Return) :
    ((∀ c ∈ s.chains, c.cmd ≠ e.cmd) ∧ deviceReturn s e = s) ∨
      ∃ c ∈ s.chains, c.cmd = e.cmd ∧ deviceReturn s e = { s with
        vq := { s.vq with
          usedRing := Function.update s.vq.usedRing (s.vq.usedIdx % s.vq.queueSize) ⟨c.head, e.len⟩
          usedIdx := u16 (s.vq.usedIdx + 1) }
        chains := s.chains.erase c } := by
  unfold deviceReturn
  cases hfind : s.chains.find? fun c => c.cmd = e.cmd with
  | none =>
    left
    refine ⟨?_, rfl⟩
    intro c hc
    simpa using List.find?_eq_none.mp hfind c hc
  | some c =>
    right
    have hcmd := List.find?_some hfind
    exact ⟨c, List.mem_of_find?_eq_some hfind, by simpa using hcmd, rfl⟩

/-- A chain goes from the device to the used ring. -/
theorem Queue.returned (hq : Queue n unread s) {c : Chain} (hc : c ∈ s.chains) (len : Nat) :
    Queue n (unread ++ [⟨c.head, len⟩]) { s with
      vq := { s.vq with
        usedRing := Function.update s.vq.usedRing (s.vq.usedIdx % s.vq.queueSize) ⟨c.head, len⟩
        usedIdx := u16 (s.vq.usedIdx + 1) }
      chains := s.chains.erase c } := by
  have hlen : (s.chains.erase c).length + 1 = s.chains.length := by
    have hpos := List.length_pos_of_mem hc
    rw [List.length_erase_of_mem hc]
    omega
  have hroom := hq.room
  have hfree := hq.free
  refine ⟨hq.dvd, hq.small, hq.head, hq.free, ?_, ?_, hq.last, ?_, ?_, ?_, ?_⟩
  · have hpush := hq.ring.push hq.dvd (by omega) ⟨c.head, len⟩
    rw [← hq.used] at hpush
    exact hpush
  · show (s.vq.usedIdx + 1) % 2 ^ 16 = _
    rw [hq.used, Nat.mod_add_mod, List.length_append, List.length_singleton, Nat.add_assoc]
  · show (s.chains.erase c).length + _ ≤ n
    rw [List.length_append, List.length_singleton]
    omega
  · exact fun c' hc' => hq.below c' (List.mem_of_mem_erase hc')
  · exact hq.apart.sublist List.erase_sublist
  · intro e he
    rcases List.mem_append.mp he with he | he
    · exact hq.ids e he
    · rw [List.mem_singleton.mp he]
      have := hq.below c hc
      show c.head < n
      omega

theorem Queue.deviceReturns (hq : Queue n unread s) (es : List Return) :
    ∃ unread', Queue n unread' (deviceReturns s es) := by
  induction es generalizing s unread with
  | nil => exact ⟨unread, hq⟩
  | cons e es ih =>
    obtain ⟨-, heq⟩ | ⟨c, hc, -, heq⟩ := deviceReturn_cases s e
    · show ∃ unread', Queue n unread' (Gpu.deviceReturns (deviceReturn s e) es)
      rw [heq]
      exact ih hq
    · show ∃ unread', Queue n unread' (Gpu.deviceReturns (deviceReturn s e) es)
      rw [heq]
      exact ih (hq.returned hc e.len)

/-! ## The used ring is read -/

/-- Reading takes cells off the unread ones, up to the first with the head of the chain. -/
theorem scanUsed_spec (h : Nat) (hring : RingHolds vq.queueSize (2 ^ 16) vq.usedRing
      vq.lastUsedIdx unread) (hlast : vq.lastUsedIdx < 2 ^ 16) :
    ((∀ e ∈ unread, e.id ≠ h) ∧ scanUsed vq h unread.length =
      ({ vq with lastUsedIdx := (vq.lastUsedIdx + unread.length) % 2 ^ 16 }, false)) ∨
    ∃ pre e post, unread = pre ++ e :: post ∧ e.id = h ∧ (∀ e' ∈ pre, e'.id ≠ h) ∧
      ∃ free ≤ vq.queueSize, scanUsed vq h unread.length = ({ vq with
        lastUsedIdx := (vq.lastUsedIdx + (pre.length + 1)) % 2 ^ 16
        numFree := free
        freeHead := 0 }, true) := by
  induction unread generalizing vq with
  | nil =>
    left
    refine ⟨fun e he => absurd he List.not_mem_nil, ?_⟩
    simp only [List.length_nil, scanUsed, Nat.add_zero, Nat.mod_eq_of_lt hlast]
  | cons e unread ih =>
    obtain ⟨hcell, hrest⟩ := hring.pop
    rw [Nat.mod_eq_of_lt hlast] at hcell
    simp only [List.length_cons, scanUsed, hcell]
    by_cases hid : e.id = h
    · right
      rw [if_pos hid]
      refine ⟨[], e, unread, rfl, hid, fun e' he' => absurd he' List.not_mem_nil, _, ?_, rfl⟩
      split <;> omega
    · rw [if_neg hid]
      have hstep := @ih { vq with lastUsedIdx := u16 (vq.lastUsedIdx + 1) } hrest
        (Nat.mod_lt _ (by decide))
      have hshift : ∀ m, (u16 (vq.lastUsedIdx + 1) + m) % 2 ^ 16 =
          (vq.lastUsedIdx + (m + 1)) % 2 ^ 16 := by
        intro m
        rw [u16, Nat.mod_add_mod, Nat.add_assoc, Nat.add_comm 1 m]
      obtain ⟨hnone, heq⟩ | ⟨pre, e', post, rfl, hid', hpre, free, hfree, heq⟩ := hstep
      · left
        refine ⟨?_, ?_⟩
        · intro e' he'
          rcases List.mem_cons.mp he' with rfl | he'
          · exact hid
          · exact hnone e' he'
        · rw [heq]
          simp only [hshift]
      · right
        refine ⟨e :: pre, e', post, rfl, hid', ?_, free, hfree, ?_⟩
        · intro e'' he''
          rcases List.mem_cons.mp he'' with rfl | he''
          · exact hid
          · exact hpre e'' he''
        · rw [heq]
          simp only [hshift, List.length_cons]

theorem Queue.read (hq : Queue n unread s) : Queue n [] { s with vq := { s.vq with
    lastUsedIdx := (s.vq.lastUsedIdx + unread.length) % 2 ^ 16 } } := by
  refine ⟨hq.dvd, hq.small, hq.head, hq.free, RingHolds.nil _ _ _ _, ?_, ?_, ?_, hq.below,
    hq.apart, ?_⟩
  · show s.vq.usedIdx = _
    rw [hq.used, List.length_nil, Nat.add_zero]
    exact (Nat.mod_mod _ _).symm
  · exact Nat.mod_lt _ (by decide)
  · have := hq.room
    show s.chains.length + 0 ≤ n
    omega
  · intro e he
    cases he

/-! ## A command waits -/

/-- The chains that the device holds after it has returned one. -/
def returnChain (cs : List Chain) (e : Return) : List Chain :=
  match cs.find? fun c => c.cmd = e.cmd with
  | none => cs
  | some c => cs.erase c

/-- When the device returns the chain of command `k`, it holds no other chain. -/
def InOrder (k : Nat) : List Chain → List Return → Prop
  | _, [] => True
  | cs, e :: es =>
    (e.cmd = k → (∃ c ∈ cs, c.cmd = k) → ∀ c ∈ cs, c.cmd = k) ∧ InOrder k (returnChain cs e) es

theorem deviceReturn_chains (s : State) (e : Return) :
    (deviceReturn s e).chains = returnChain s.chains e := by
  unfold deviceReturn returnChain
  cases s.chains.find? fun c => c.cmd = e.cmd with
  | none => rfl
  | some c => rfl

theorem deviceReturns_chains (s : State) (es : List Return) :
    (deviceReturns s es).chains = es.foldl returnChain s.chains := by
  induction es generalizing s with
  | nil => rfl
  | cons e es ih =>
    show (Gpu.deviceReturns (deviceReturn s e) es).chains = _
    rw [ih, deviceReturn_chains]
    rfl

theorem InOrder.append {cs : List Chain} {es es' : List Return} (h : InOrder k cs (es ++ es')) :
    InOrder k cs es ∧ InOrder k (es.foldl returnChain cs) es' := by
  induction es generalizing cs with
  | nil => exact ⟨trivial, h⟩
  | cons e es ih =>
    obtain ⟨hfirst, hrest⟩ := h
    obtain ⟨hes, hes'⟩ := ih hrest
    exact ⟨⟨hfirst, hes⟩, hes'⟩

/-- The device still holds the chain of the running command `k`, whose head is `h`. -/
structure Waiting (n : Nat) (unread : List UsedElem) (k h : Nat) (s : State) : Prop where
  queue : Queue n unread s
  mine : ∃ c ∈ s.chains, c.cmd = k ∧ c.head = h
  others : ∀ c ∈ s.chains, c.cmd ≠ k → c.head ≠ h
  unread : ∀ e ∈ unread, e.id ≠ h

/-- The device has returned all chains, that of the running command last. -/
structure Done (n : Nat) (unread : List UsedElem) (h : Nat) (s : State) : Prop where
  queue : Queue n unread s
  chains : s.chains = []
  last : ∃ pre e, unread = pre ++ [e] ∧ e.id = h ∧ ∀ e' ∈ pre, e'.id ≠ h

theorem deviceReturns_nil (hs : s.chains = []) (es : List Return) : deviceReturns s es = s := by
  induction es with
  | nil => rfl
  | cons e es ih =>
    have hsame : deviceReturn s e = s := by simp [deviceReturn, hs]
    show Gpu.deviceReturns (deviceReturn s e) es = s
    rw [hsame]
    exact ih

theorem Waiting.deviceReturns (hw : Waiting n unread k h s) {es : List Return}
    (hord : InOrder k s.chains es) :
    (∃ unread', Waiting n unread' k h (deviceReturns s es)) ∨
      ∃ unread', Done n unread' h (deviceReturns s es) := by
  induction es generalizing s unread with
  | nil => exact Or.inl ⟨unread, hw⟩
  | cons e es ih =>
    obtain ⟨hfirst, hrest⟩ := hord
    rw [← deviceReturn_chains] at hrest
    show (∃ unread', Waiting n unread' k h (Gpu.deviceReturns (deviceReturn s e) es)) ∨
      ∃ unread', Done n unread' h (Gpu.deviceReturns (deviceReturn s e) es)
    obtain ⟨-, heq⟩ | ⟨c, hc, hcmd, heq⟩ := deviceReturn_cases s e
    · rw [heq] at hrest ⊢
      exact ih hw hrest
    · have hq := hw.queue.returned hc e.len
      rw [← heq] at hq
      have hchains : (deviceReturn s e).chains = s.chains.erase c := by rw [heq]
      by_cases hk : c.cmd = k
      · -- its own chain: the device holds nothing else
        right
        have hall := hfirst (hcmd.symm.trans hk) ⟨c, hc, hk⟩
        have hnone : (deviceReturn s e).chains = [] := by
          rw [hchains, List.eq_nil_iff_forall_not_mem]
          intro c' hc'
          obtain ⟨hne, hmem⟩ := hw.queue.chains_nodup.mem_erase_iff.mp hc'
          exact hne (hw.queue.chain_unique hmem hc ((hall c' hmem).trans hk.symm))
        have hhead : c.head = h := by
          obtain ⟨c', hc', hk', hh'⟩ := hw.mine
          rw [← hw.queue.chain_unique hc' hc (hk'.trans hk.symm)]
          exact hh'
        rw [deviceReturns_nil hnone]
        exact ⟨_, hq, hnone, unread, _, rfl, hhead, hw.unread⟩
      · have hne := hw.others c hc hk
        apply ih _ hrest
        · exact unread ++ [⟨c.head, e.len⟩]
        · refine ⟨hq, ?_, ?_, ?_⟩
          · obtain ⟨c', hc', hk', hh'⟩ := hw.mine
            refine ⟨c', ?_, hk', hh'⟩
            rw [hchains]
            apply (List.mem_erase_of_ne _).mpr hc'
            rintro rfl
            exact hk hk'
          · intro c' hc'
            rw [hchains] at hc'
            exact hw.others c' (List.mem_of_mem_erase hc')
          · intro e' he'
            rcases List.mem_append.mp he' with he' | he'
            · exact hw.unread e' he'
            · rw [List.mem_singleton.mp he']
              exact hne

/-- The command is at its end: the queue is empty, or the chain stays with the device. -/
theorem virtqWait_spec (hw : Waiting n unread k h s) {polls : List (List Return)}
    (hord : InOrder k s.chains polls.flatten) :
    ((virtqWait h s polls).1 = 0 ∧ Queue 0 [] (virtqWait h s polls).2) ∨
      ((virtqWait h s polls).1 = -2 ∧ ∃ unread', Waiting n unread' k h (virtqWait h s polls).2) := by
  induction polls generalizing s unread with
  | nil => exact Or.inr ⟨rfl, unread, hw⟩
  | cons es polls ih =>
    rw [List.flatten_cons] at hord
    obtain ⟨hes, hrest⟩ := hord.append
    rw [← deviceReturns_chains] at hrest
    simp only [virtqWait]
    obtain ⟨unread', hw'⟩ | ⟨unread', hdone⟩ := hw.deviceReturns hes
    · rw [hw'.queue.unreadCount]
      obtain ⟨-, heq⟩ | ⟨pre, e, post, hsplit, hid, -, -⟩ :=
        scanUsed_spec h hw'.queue.ring hw'.queue.last
      · rw [heq]
        simp only [Bool.false_eq_true, if_false]
        have hread : Waiting n [] k h { deviceReturns s es with vq := { (deviceReturns s es).vq with
            lastUsedIdx := ((deviceReturns s es).vq.lastUsedIdx + unread'.length) % 2 ^ 16 } } :=
          ⟨hw'.queue.read, hw'.mine, hw'.others, fun e he => absurd he List.not_mem_nil⟩
        exact ih hread hrest
      · exact absurd hid (hw'.unread e (by rw [hsplit]; simp))
    · left
      have hq := hdone.queue
      rw [hq.unreadCount]
      obtain ⟨pre, e, hsplit, hid, hpre⟩ := hdone.last
      obtain ⟨hnone, -⟩ | ⟨pre', e', post, hsplit', hid', -, free, hfree, heq⟩ :=
        scanUsed_spec h hq.ring hq.last
      · exact absurd hid (hnone e (by rw [hsplit]; simp))
      · -- the chain is the last entry, so that nothing is left unread
        have hpost : post = [] := by
          rcases List.eq_nil_or_concat post with hnil | ⟨post', x, rfl⟩
          · exact hnil
          · rw [hsplit, List.concat_eq_append, ← List.cons_append, ← List.append_assoc] at hsplit'
            have hpre' := (List.append_inj' hsplit' rfl).1
            exact absurd hid' (hpre e' (by rw [hpre']; simp))
        rw [heq]
        simp only [if_true]
        refine ⟨trivial, hq.dvd, hq.small, (Nat.zero_mod _).symm, ?_, RingHolds.nil _ _ _ _, ?_, ?_,
          ?_, ?_, ?_, ?_⟩
        · show 0 + free ≤ (deviceReturns s es).vq.queueSize
          omega
        · show (deviceReturns s es).vq.usedIdx = _
          rw [hq.used, hsplit', hpost, List.length_append, List.length_singleton, List.length_nil,
            Nat.add_zero]
          exact (Nat.mod_mod _ _).symm
        · exact Nat.mod_lt _ (by decide)
        · show (deviceReturns s es).chains.length + 0 ≤ 0
          rw [hdone.chains]
          exact le_refl 0
        · intro c hc
          rw [show (deviceReturns s es).chains = [] from hdone.chains] at hc
          cases hc
        · show (deviceReturns s es).chains.Pairwise _
          rw [hdone.chains]
          exact List.Pairwise.nil
        · intro e he
          cases he

/-! ## A command is submitted -/

/-- Only descriptors of the new chain are written. -/
theorem writeDescs_spec (vq : Virtq) (head n : Nat) (bufs : List Buf) (i : Nat) :
    ∃ desc, writeDescs vq head n bufs i = { vq with desc := desc } ∧
      ∀ d, (∀ j, i ≤ j → j < i + bufs.length → d ≠ descIdx vq.queueSize head j) →
        desc d = vq.desc d := by
  induction bufs generalizing vq i with
  | nil => exact ⟨vq.desc, rfl, fun _ _ => rfl⟩
  | cons buf bufs ih =>
    simp only [writeDescs]
    set idx := descIdx vq.queueSize head i
    set d₀ : Desc := ⟨buf.addr, buf.len,
      if i + 1 < n then buf.flags ||| virtqDescFNext else buf.flags, (idx + 1) % vq.queueSize⟩
    obtain ⟨desc, heq, hsame⟩ := ih { vq with desc := Function.update vq.desc idx d₀ } (i + 1)
    refine ⟨desc, heq, ?_⟩
    intro d hd
    rw [List.length_cons] at hd
    rw [hsame d fun j hj hj' => hd j (by omega) (by omega)]
    exact Function.update_of_ne (hd i (le_refl i) (by omega)) _ _

/-- The chain that a command is about to submit. -/
def newChain (s : State) (count : Nat) : Chain := ⟨s.nextCmd, s.vq.freeHead, count⟩

/-- The new chain starts behind the chains that are still out. -/
theorem virtqSubmit_spec (hq : Queue n unread s) {bufs : List Buf} (hlen : bufs.length < 2 ^ 16)
    {head : Nat} {vq : Virtq} (h : virtqSubmit s.vq bufs = some (head, vq)) :
    head = n ∧ n + bufs.length ≤ s.vq.queueSize ∧ s.vq.freeHead = n ∧
      Waiting (n + bufs.length) unread s.nextCmd n (submitted s head bufs.length vq) := by
  unfold virtqSubmit at h
  split at h
  · cases h
  · rename_i hpos
    split at h
    · cases h
    · rename_i hfree
      have hu : u16 bufs.length = bufs.length := Nat.mod_eq_of_lt hlen
      rw [hu] at hfree
      have hroom := hq.free
      have hhead : s.vq.freeHead = n := by
        rw [hq.head]
        exact Nat.mod_eq_of_lt (by omega)
      obtain ⟨desc, heq, -⟩ := writeDescs_spec s.vq s.vq.freeHead bufs.length bufs 0
      simp only [heq, hu, Option.some.injEq, Prod.mk.injEq] at h
      obtain ⟨rfl, rfl⟩ := h
      refine ⟨hhead, by omega, hhead, ?_⟩
      have hlast : ∀ c ∈ s.chains ++ [newChain s bufs.length],
          c ∈ s.chains ∨ c = newChain s bufs.length := by
        intro c hc
        rcases List.mem_append.mp hc with hc | hc
        · exact Or.inl hc
        · exact Or.inr (List.mem_singleton.mp hc)
      refine ⟨⟨hq.dvd, hq.small, ?_, ?_, hq.ring, hq.used, hq.last, ?_, ?_, ?_, ?_⟩, ?_, ?_, ?_⟩
      · show (s.vq.freeHead + bufs.length) % s.vq.queueSize = _
        rw [hhead]
        rfl
      · show n + bufs.length + (s.vq.numFree - bufs.length) ≤ s.vq.queueSize
        omega
      · show (s.chains ++ [_]).length + unread.length ≤ n + bufs.length
        have := hq.room
        rw [List.length_append, List.length_singleton]
        omega
      · intro c hc
        show 0 < c.count ∧ c.head + c.count ≤ n + bufs.length ∧ c.cmd < s.nextCmd + 1
        rcases hlast c hc with hc | rfl
        · have := hq.below c hc
          omega
        · simp only [newChain]
          omega
      · show (s.chains ++ [newChain s bufs.length]).Pairwise _
        rw [List.pairwise_append]
        refine ⟨hq.apart, List.pairwise_singleton _ _, ?_⟩
        intro c hc c' hc'
        rw [List.mem_singleton.mp hc']
        have := hq.below c hc
        simp only [newChain]
        omega
      · intro e he
        have := hq.ids e he
        omega
      · exact ⟨newChain s bufs.length, List.mem_append_right _ (List.mem_singleton_self _), rfl,
          hhead⟩
      · intro c hc hne
        rcases hlast c hc with hc | rfl
        · have := hq.below c hc
          omega
        · exact absurd rfl hne
      · intro e he
        have := hq.ids e he
        omega

/-- A submit writes no descriptor outside of its chain. -/
theorem virtqSubmit_desc {bufs : List Buf} {head : Nat} (h : virtqSubmit s.vq bufs = some (head, vq))
    {d : Nat} (hd : d ∉ (newChain s bufs.length).descs s.vq.queueSize) :
    vq.desc d = s.vq.desc d := by
  unfold virtqSubmit at h
  split at h
  · cases h
  · split at h
    · cases h
    · obtain ⟨desc, heq, hsame⟩ := writeDescs_spec s.vq s.vq.freeHead bufs.length bufs 0
      simp only [heq, Option.some.injEq, Prod.mk.injEq] at h
      obtain ⟨-, rfl⟩ := h
      apply hsame
      rintro j - hj rfl
      apply hd
      exact List.mem_map.mpr ⟨j, List.mem_range.mpr (show j < bufs.length by omega), rfl⟩

/-- Chains that are out and the new chain have no descriptor in common. -/
theorem Queue.descs_apart (hq : Queue n unread s) {count : Nat} (hhead : s.vq.freeHead = n)
    (hfits : n + count ≤ s.vq.queueSize) {c : Chain} (hc : c ∈ s.chains) {d : Nat}
    (hd : d ∈ c.descs s.vq.queueSize) : d ∉ (newChain s count).descs s.vq.queueSize := by
  obtain ⟨-, hbelow, -⟩ := hq.below c hc
  simp only [Chain.descs, List.mem_map, List.mem_range, newChain, hhead] at hd ⊢
  obtain ⟨i, hi, rfl⟩ := hd
  rintro ⟨j, hj, heq⟩
  simp only [descIdx] at heq
  rw [Nat.mod_eq_of_lt (by omega), Nat.mod_eq_of_lt (by omega)] at heq
  omega

/-! ## Runs of the driver and the device -/

/-- A command passes the checks, and the queue has room for its buffers. -/
def Sends (s : State) (cmdLen : Nat) (out : Bool) (outLen : Nat) (bufs : List Buf) (head : Nat)
    (vq : Virtq) : Prop :=
  cmdLen ≠ 0 ∧ commandPages cmdLen ≤ s.cmdPagesN ∧
    bufs = commandBufs s cmdLen outLen (commandPages cmdLen) out ∧
    virtqSubmit s.vq bufs = some (head, vq)

/-- While a command waits, the device returns its chain only when it has returned the chains of all
earlier commands. -/
def Clean (s : State) : Op → Prop
  | .device _ => True
  | .command cmdLen out outLen polls =>
    ∀ bufs head vq, Sends s cmdLen out outLen bufs head vq →
      InOrder s.nextCmd (s.chains ++ [newChain s bufs.length])
        (polls.take (virtqPollMaxIter + 1)).flatten

/-- A command writes no descriptor of a chain that the device holds, and it succeeds only when the
device has returned the chain of this command. -/
def StepSafe (s : State) : Op → Prop
  | .device _ => True
  | .command cmdLen out outLen polls =>
    (∀ bufs head vq, Sends s cmdLen out outLen bufs head vq →
      ∀ c ∈ s.chains, ∀ d ∈ c.descs s.vq.queueSize,
        d ∉ (newChain s bufs.length).descs s.vq.queueSize ∧ vq.desc d = s.vq.desc d) ∧
    ((virtioGpuDevCommand s cmdLen out outLen polls).1 = 0 →
      (∃ bufs head vq, Sends s cmdLen out outLen bufs head vq) ∧
        ∀ c ∈ (virtioGpuDevCommand s cmdLen out outLen polls).2.chains, c.cmd ≠ s.nextCmd)

/-- What holds of the driver between two commands. -/
structure Inv (s : State) : Prop where
  queue : ∃ n unread, Queue n unread s
  pages : s.cmdPagesN ≤ vgpuCmdMaxPages

theorem deviceReturn_cmdPagesN (s : State) (e : Return) :
    (deviceReturn s e).cmdPagesN = s.cmdPagesN := by
  unfold deviceReturn
  split
  · rfl
  · rfl

theorem deviceReturns_cmdPagesN (s : State) (es : List Return) :
    (deviceReturns s es).cmdPagesN = s.cmdPagesN := by
  induction es generalizing s with
  | nil => rfl
  | cons e es ih => exact (ih (deviceReturn s e)).trans (deviceReturn_cmdPagesN s e)

theorem virtqWait_cmdPagesN (h : Nat) (s : State) (polls : List (List Return)) :
    (virtqWait h s polls).2.cmdPagesN = s.cmdPagesN := by
  induction polls generalizing s with
  | nil => rfl
  | cons es polls ih =>
    simp only [virtqWait]
    split
    · exact deviceReturns_cmdPagesN s es
    · rw [ih]
      exact deviceReturns_cmdPagesN s es

/-- What a command does: nothing, or it submits a chain and waits. -/
theorem virtioGpuDevCommand_cases (s : State) (cmdLen : Nat) (out : Bool) (outLen : Nat)
    (polls : List (List Return)) :
    ((¬∃ bufs head vq, Sends s cmdLen out outLen bufs head vq) ∧
      virtioGpuDevCommand s cmdLen out outLen polls = (-1, s)) ∨
    ∃ bufs head vq, Sends s cmdLen out outLen bufs head vq ∧
      virtioGpuDevCommand s cmdLen out outLen polls =
        (if (virtqWait head (submitted s head bufs.length vq)
            (polls.take (virtqPollMaxIter + 1))).1 = 0 then 0 else -1,
          (virtqWait head (submitted s head bufs.length vq)
            (polls.take (virtqPollMaxIter + 1))).2) := by
  unfold virtioGpuDevCommand
  by_cases hzero : cmdLen = 0
  · left
    rw [if_pos hzero]
    exact ⟨fun ⟨_, _, _, hsend⟩ => hsend.1 hzero, rfl⟩
  rw [if_neg hzero]
  by_cases hpages : commandPages cmdLen > s.cmdPagesN
  · left
    rw [if_pos hpages]
    exact ⟨fun ⟨_, _, _, hsend⟩ => absurd hsend.2.1 (by omega), rfl⟩
  rw [if_neg hpages]
  dsimp only
  cases hsub : virtqSubmit s.vq (commandBufs s cmdLen outLen (commandPages cmdLen) out) with
  | none =>
    left
    refine ⟨?_, rfl⟩
    rintro ⟨bufs, head, vq, -, -, rfl, hsome⟩
    rw [hsub] at hsome
    cases hsome
  | some p =>
    right
    refine ⟨_, p.1, p.2, ⟨hzero, by omega, rfl, hsub⟩, ?_⟩
    dsimp only
    split
    · rfl
    · rfl

theorem commandBufs_length (s : State) (cmdLen outLen cmdPages : Nat) (out : Bool) :
    (commandBufs s cmdLen outLen cmdPages out).length ≤ cmdPages + 1 := by
  unfold commandBufs
  rw [List.length_append, List.length_map, List.length_range]
  split
  · exact le_refl _
  · exact Nat.le_succ _

theorem Sends.length_lt {cmdLen outLen head : Nat} {out : Bool} {bufs : List Buf}
    (hsend : Sends s cmdLen out outLen bufs head vq) (hpages : s.cmdPagesN ≤ vgpuCmdMaxPages) :
    bufs.length < 2 ^ 16 := by
  obtain ⟨-, hle, rfl, -⟩ := hsend
  have := commandBufs_length s cmdLen outLen (commandPages cmdLen) out
  have : vgpuCmdMaxPages = 16 := rfl
  omega

/-- The queue after a command. -/
theorem Inv.command (hinv : Inv s) {cmdLen outLen : Nat} {out : Bool} {polls : List (List Return)}
    (hclean : Clean s (.command cmdLen out outLen polls)) :
    StepSafe s (.command cmdLen out outLen polls) ∧
      Inv (virtioGpuDevCommand s cmdLen out outLen polls).2 := by
  obtain ⟨⟨n, unread, hq⟩, hpages⟩ := hinv
  have hwrites : ∀ bufs head vq, Sends s cmdLen out outLen bufs head vq →
      ∀ c ∈ s.chains, ∀ d ∈ c.descs s.vq.queueSize,
        d ∉ (newChain s bufs.length).descs s.vq.queueSize ∧ vq.desc d = s.vq.desc d := by
    intro bufs head vq hsend c hc d hd
    obtain ⟨rfl, hfits, hhead, -⟩ := virtqSubmit_spec hq (hsend.length_lt hpages) hsend.2.2.2
    have hapart := hq.descs_apart hhead hfits hc hd
    exact ⟨hapart, virtqSubmit_desc hsend.2.2.2 hapart⟩
  obtain ⟨hnone, heq⟩ | ⟨bufs, head, vq, hsend, heq⟩ :=
    virtioGpuDevCommand_cases s cmdLen out outLen polls
  · refine ⟨⟨hwrites, ?_⟩, ?_⟩
    · rw [heq]
      intro hres
      have hres : (-1 : Int) = 0 := hres
      omega
    · rw [heq]
      exact ⟨⟨n, unread, hq⟩, hpages⟩
  · obtain ⟨rfl, hfits, hhead, hw⟩ := virtqSubmit_spec hq (hsend.length_lt hpages) hsend.2.2.2
    have hord := hclean bufs head vq hsend
    have hchains : (submitted s head bufs.length vq).chains =
        s.chains ++ [newChain s bufs.length] := by
      rw [newChain, hhead]
      rfl
    rw [← hchains] at hord
    have hpages' := virtqWait_cmdPagesN head (submitted s head bufs.length vq)
      (polls.take (virtqPollMaxIter + 1))
    refine ⟨⟨hwrites, ?_⟩, ?_⟩
    · rw [heq]
      intro hres
      refine ⟨⟨bufs, head, vq, hsend⟩, ?_⟩
      obtain ⟨-, hdone⟩ | ⟨hfail, -⟩ := virtqWait_spec hw hord
      · intro c hc
        have := hdone.below c hc
        omega
      · rw [hfail] at hres
        have hres : (-1 : Int) = 0 := hres
        omega
    · rw [heq]
      refine ⟨?_, ?_⟩
      · obtain ⟨-, hdone⟩ | ⟨-, unread', hw'⟩ := virtqWait_spec hw hord
        · exact ⟨0, [], hdone⟩
        · exact ⟨_, unread', hw'.queue⟩
      · show (virtqWait head _ _).2.cmdPagesN ≤ _
        rw [hpages']
        exact hpages

theorem Inv.exec (hinv : Inv s) {op : Op} (hclean : Clean s op) : Inv (exec s op) := by
  cases op with
  | device es =>
    obtain ⟨⟨n, unread, hq⟩, hpages⟩ := hinv
    obtain ⟨unread', hq'⟩ := hq.deviceReturns es
    refine ⟨⟨n, unread', hq'⟩, ?_⟩
    show (deviceReturns s es).cmdPagesN ≤ _
    rw [deviceReturns_cmdPagesN]
    exact hpages
  | command cmdLen out outLen polls => exact (hinv.command hclean).2

/-- The queue of `virtio_gpu_dev_probe` is empty. -/
theorem inv_probed (hk : k ≤ 4) (availRing : Nat → Nat) (usedRing : Nat → UsedElem)
    (cmdPages : Nat → Nat) {cmdPagesN : Nat} (respPage : Nat) (hn : cmdPagesN ≤ vgpuCmdMaxPages) :
    Inv (probed (2 ^ k) availRing usedRing cmdPages cmdPagesN respPage) := by
  refine ⟨⟨0, [], ?_⟩, hn⟩
  have hsmall : 2 ^ k < 2 ^ 16 := Nat.pow_lt_pow_right (by decide) (by omega)
  refine ⟨pow_dvd_pow 2 (by omega), hsmall, (Nat.zero_mod _).symm, ?_, RingHolds.nil _ _ _ _, rfl,
    Nat.two_pow_pos 16, le_refl _, ?_, List.Pairwise.nil, ?_⟩
  · show 0 + 2 ^ k ≤ 2 ^ k
    omega
  · intro c hc
    cases hc
  · intro e he
    cases he

theorem Reach.inv (hs : Reach Clean s) : Inv s := by
  induction hs with
  | boot k hk availRing usedRing cmdPages cmdPagesN respPage hn =>
    exact inv_probed hk availRing usedRing cmdPages respPage hn
  | step op _ hclean ih => exact ih.exec hclean

/-- If the device returns the chain of each running command last, no command writes a descriptor
that the device still holds, and none takes the chain of another command for its own. -/
theorem commands_safe (hs : Reach Clean s) {op : Op} (hclean : Clean s op) : StepSafe s op := by
  cases op with
  | device es => trivial
  | command cmdLen out outLen polls => exact (hs.inv.command hclean).1

/-! ## A late chain -/

/-- A driver with a queue of 16 descriptors. -/
def idle : State := probed 16 (fun _ => 0) (fun _ => ⟨0, 0⟩) (fun i => 4096 * i) 16 65536

theorem reach_idle (P : State → Op → Prop) : Reach P idle :=
  Reach.boot 4 (le_refl 4) _ _ _ 16 _ (le_refl 16)

/-- The first command times out. -/
def timedOut : State := exec idle (.command 24 true 24 [])

/-- The device returns the first chain late, while the second command waits for its own. -/
theorem commands_safe_late :
    StepSafe timedOut (.command 24 true 24 [[⟨0, 24⟩], [⟨1, 24⟩]]) ∧
      (virtioGpuDevCommand timedOut 24 true 24 [[⟨0, 24⟩], [⟨1, 24⟩]]).1 = 0 := by
  have hreach : Reach Clean timedOut :=
    Reach.step _ (reach_idle Clean) fun _ _ _ _ => trivial
  refine ⟨commands_safe hreach ?_, by decide⟩
  intro bufs head vq _
  refine ⟨fun h => absurd h (by decide), ?_, trivial⟩
  intro _ _ c hc
  have hone : c ∈ [newChain timedOut bufs.length] := hc
  rw [List.mem_singleton.mp hone]
  rfl

/-- The second command succeeds while the device still holds the first chain. -/
def overtaken : State := exec timedOut (.command 24 true 24 [[⟨1, 24⟩]])

/-- The third command uses descriptor 0 again, which the device still holds. -/
theorem chain_overwritten :
    ¬∀ s, Reach (fun _ _ => True) s → ∀ op, StepSafe s op := by
  intro hsafe
  have hreach : Reach (fun _ _ => True) overtaken :=
    Reach.step _ (Reach.step _ (reach_idle _) trivial) trivial
  obtain ⟨hwrites, -⟩ := hsafe overtaken hreach (.command 24 true 24 [[⟨0, 24⟩]])
  have hsend : Sends overtaken 24 true 24 (commandBufs overtaken 24 24 1 true) 0
      ((virtqSubmit overtaken.vq (commandBufs overtaken 24 24 1 true)).get rfl).2 :=
    ⟨by decide, by decide, rfl, rfl⟩
  have hfirst : (⟨0, 0, 2⟩ : Chain) ∈ overtaken.chains := by decide
  exact (hwrites _ _ _ hsend _ hfirst 0 (by decide)).1 (by decide)

/-- When the device returns the first chain, the third command succeeds, with its own chain still
on the way. -/
example : (virtioGpuDevCommand overtaken 24 true 24 [[⟨0, 24⟩]]).1 = 0 ∧
    ⟨2, 0, 2⟩ ∈ (virtioGpuDevCommand overtaken 24 true 24 [[⟨0, 24⟩]]).2.chains := by decide

end Kyuzen.Gpu
