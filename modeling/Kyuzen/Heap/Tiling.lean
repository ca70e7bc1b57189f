import Kyuzen.Heap.Alloc

/-!
# The heap over whole runs

Runs of the kernel heap from boot: any sequence of `kmalloc`, `kfree` and `krealloc`, with
requests below `2 ^ 32`, frees of live pointers only, any pattern of page failures, and
callers that write into what they were given. `live` is the callers' view: the size asked for
at each live pointer.

Every state of such a run is well formed (`heap_tiling`): the list tiles the heap, live
payloads are disjoint and mapped, and no admissible call panics or runs for ever.
-/

namespace Kyuzen.Heap

open Lib.Memory

/-- The size that was asked for at each live pointer. -/
abbrev Live : Type := Nat → Option Nat

inductive Call where
  | kmalloc (size : Nat)
  | kfree (ptr : Nat)
  | krealloc (ptr oldSize newSize : Nat)
  /-- the caller stores a byte -/
  | write (addr : Nat) (value : UInt8)

/-- The calls the kernel makes: sizes below `2 ^ 32`, live pointers (or `NULL`), and stores
into live allocations. -/
def Call.Admissible (live : Live) : Call → Prop
  | .kmalloc size => size < 2 ^ 32
  | .kfree ptr => ptr = 0 ∨ live ptr ≠ none
  | .krealloc ptr _ newSize => (ptr = 0 ∨ live ptr ≠ none) ∧ newSize < 2 ^ 32
  | .write addr _ => ∃ p n, live p = some n ∧ p ≤ addr ∧ addr < p + n

/-- The calls that `heap.c` serves as meant. A larger request wraps around when it is rounded up or
when the size of the header is added. -/
def Call.Sized (live : Live) : Call → Prop
  | .kmalloc size => size + 48 ≤ 2 ^ 64
  | .kfree ptr => ptr = 0 ∨ live ptr ≠ none
  | .krealloc ptr _ newSize => (ptr = 0 ∨ live ptr ≠ none) ∧ newSize + 48 ≤ 2 ^ 64
  | .write addr _ => ∃ p n, live p = some n ∧ p ≤ addr ∧ addr < p + n

theorem Call.Admissible.sized {live : Live} {c : Call} (h : c.Admissible live) : c.Sized live := by
  cases c with
  | kmalloc size =>
    have hlt : size < 2 ^ 32 := h
    show size + 48 ≤ 2 ^ 64
    omega
  | kfree ptr => exact h
  | krealloc ptr oldSize newSize =>
    have hlt : newSize < 2 ^ 32 := h.2
    refine ⟨h.1, ?_⟩
    omega
  | write addr value => exact h

/-- One call, and what is live after it. -/
def perform (M : Machine) (supply : Supply) (s : State) (live : Live) :
    Call → Except Halt (State × Live)
  | .kmalloc size => do
    let (p, s') ← kmalloc M supply s size
    return (s', if p = 0 then live else Function.update live p (some size))
  | .kfree ptr => do
    let s' ← kfree s ptr
    return (s', Function.update live ptr none)
  | .krealloc ptr oldSize newSize => do
    let (p, s') ← krealloc M supply s ptr oldSize newSize
    if newSize = 0 then return (s', Function.update live ptr none)
    else if p = 0 then return (s', live)
    else return (s', Function.update (Function.update live ptr none) p (some newSize))
  | .write addr value => .ok ({ s with mem := Function.update s.mem addr value }, live)

/-- The states of a run from boot. -/
inductive Reach (M : Machine) : State → Live → Prop
  | init (mem : Mem) : Reach M (initHeap mem) fun _ => none
  | step {s s' : State} {live live' : Live} (supply : Supply) (c : Call) (h : Reach M s live)
      (hc : c.Admissible live) (hrun : perform M supply s live c = .ok (s', live')) :
      Reach M s' live'

/-- The states of a run with requests of any size that does not wrap around. -/
inductive SizedReach (M : Machine) : State → Live → Prop
  | init (mem : Mem) : SizedReach M (initHeap mem) fun _ => none
  | step {s s' : State} {live live' : Live} (supply : Supply) (c : Call) (h : SizedReach M s live)
      (hc : c.Sized live) (hrun : perform M supply s live c = .ok (s', live')) :
      SizedReach M s' live'

theorem Reach.sized {M : Machine} {s : State} {live : Live} (h : Reach M s live) :
    SizedReach M s live := by
  induction h with
  | init mem => exact SizedReach.init mem
  | step supply c _ hc hrun ih => exact SizedReach.step supply c ih hc.sized hrun

/-! ## What a well-formed heap looks like in memory -/

/-- The list from `curr` over the `next` words. -/
inductive Links (m : Mem) : Nat → List Nat → Prop
  | null : Links m 0 []
  | block {curr : Nat} {rest : List Nat} (hne : curr ≠ 0) (h : Links m (nextOf m curr) rest) :
      Links m curr (curr :: rest)

/-- The list of headers cuts the heap into blocks. -/
structure Tiling (s : State) (addrs : List Nat) : Prop where
  links : Links s.mem s.heapHead addrs
  increasing : addrs.Pairwise (· < ·)
  magic : ∀ a ∈ addrs, magicOf s.mem a = heapMagic
  size : ∀ a ∈ addrs, sizeOf s.mem a % 16 = 0
  adjacent : addrs.IsChain fun a b => a + headerSize + sizeOf s.mem a = b
  first : ∀ a ∈ addrs.head?, a = heapStart
  last : ∀ a ∈ addrs.getLast?, a + headerSize + sizeOf s.mem a = s.currentHeapEnd
  empty : addrs = [] → s.currentHeapEnd = heapStart

/-- The first address behind the payload at `p`. -/
def payloadEnd (s : State) (p : Nat) : Nat := p + sizeOf s.mem (p - headerSize)

/-- Live payloads are whole blocks of the list, disjoint and mapped. -/
structure LivePayloads (s : State) (live : Live) (addrs : List Nat) : Prop where
  block : ∀ p n, live p = some n → headerSize ≤ p ∧ p - headerSize ∈ addrs ∧
    isFreeOf s.mem (p - headerSize) = 0 ∧ p + n ≤ payloadEnd s p
  disjoint : ∀ p q n k, live p = some n → live q = some k → p ≠ q →
    payloadEnd s p ≤ q ∨ payloadEnd s q ≤ p
  mapped : ∀ p n, live p = some n → ∀ x, p ≤ x → x < payloadEnd s p → pageOf x ∈ s.mapped

/-! ## The invariant -/

/-- The heap is a list of blocks, and the blocks in use are the live pointers. -/
structure Inv (M : Machine) (s : State) (live : Live) (bs : List Block) : Prop where
  rep : Rep M s bs
  block : ∀ p n, live p = some n → ∃ b ∈ inUse bs, b.payload = p ∧ n ≤ b.size
  live : ∀ b ∈ inUse bs, live b.payload ≠ none

theorem inv_init (M : Machine) (mem : Mem) : Inv M (initHeap mem) (fun _ => none) [] :=
  ⟨⟨rfl, trivial, rfl, by simp [initHeap, heapPages],
      show heapStart % pageSize = 0 by decide,
      Nat.le_add_right _ _⟩, by simp, fun b hb => by simp [inUse] at hb⟩

section Steps

variable {M : Machine} {s s' : State} {live live' : Live} {bs bs' : List Block}

theorem Inv.payload_inj (h : Inv M s live bs) {b c : Block} (hb : b ∈ inUse bs)
    (hc : c ∈ inUse bs) (heq : b.payload = c.payload) : b = c :=
  h.rep.tiles.addr_inj (mem_inUse.mp hb).1 (mem_inUse.mp hc).1 (Nat.add_right_cancel heq)

theorem Inv.live_zero (h : Inv M s live bs) : live 0 = none := by
  cases hl : live 0 with
  | none => rfl
  | some n =>
    obtain ⟨b, _, hpay, _⟩ := h.block 0 n hl
    have hh : headerSize = 32 := rfl
    unfold Block.payload at hpay
    omega

/-- A call that leaves the blocks in use alone. -/
theorem Inv.of_inUse (h : Inv M s live bs) (hrep : Rep M s' bs')
    (huse : ∀ c, c ∈ inUse bs' ↔ c ∈ inUse bs) : Inv M s' live bs' := by
  refine ⟨hrep, fun p n hp => ?_, fun b hb => h.live b ((huse b).mp hb)⟩
  obtain ⟨b, hb, hpay, hn⟩ := h.block p n hp
  exact ⟨b, (huse b).mpr hb, hpay, hn⟩

theorem Inv.allocate (h : Inv M s live bs) {b : Block} {size : Nat}
    (halloc : Allocates M s s' bs bs' b size) :
    Inv M s' (Function.update live b.payload (some size)) bs' := by
  refine ⟨halloc.rep, fun p n hp => ?_, fun c hc => ?_⟩
  · by_cases hpb : p = b.payload
    · subst hpb
      rw [Function.update_self] at hp
      cases hp
      exact ⟨b, (halloc.inUse b).mpr (Or.inr rfl), rfl, halloc.size_le⟩
    · rw [Function.update_of_ne hpb] at hp
      obtain ⟨c, hc, hpay, hn⟩ := h.block p n hp
      exact ⟨c, (halloc.inUse c).mpr (Or.inl hc), hpay, hn⟩
  · rcases (halloc.inUse c).mp hc with hc | rfl
    · rw [Function.update_of_ne]
      · exact h.live c hc
      · intro heq
        exact halloc.fresh c hc (Nat.add_right_cancel heq)
    · rw [Function.update_self]
      simp

theorem Inv.release (h : Inv M s live bs) {b : Block} (hb : b ∈ inUse bs) (hrep : Rep M s' bs')
    (huse : ∀ c, c ∈ inUse bs' ↔ c ∈ inUse bs ∧ c ≠ b) :
    Inv M s' (Function.update live b.payload none) bs' := by
  refine ⟨hrep, fun p n hp => ?_, fun c hc => ?_⟩
  · by_cases hpb : p = b.payload
    · subst hpb
      rw [Function.update_self] at hp
      cases hp
    · rw [Function.update_of_ne hpb] at hp
      obtain ⟨c, hc, hpay, hn⟩ := h.block p n hp
      refine ⟨c, (huse c).mpr ⟨hc, ?_⟩, hpay, hn⟩
      rintro rfl
      exact hpb hpay.symm
  · obtain ⟨hc, hne⟩ := (huse c).mp hc
    rw [Function.update_of_ne fun heq => hne (h.payload_inj hc hb heq)]
    exact h.live c hc

theorem Inv.move (h : Inv M s live bs) {old new : Block} {oldSize newSize : Nat}
    (hold : old ∈ inUse bs) (hmove : Moves M s s' bs bs' old new oldSize newSize) :
    Inv M s' (Function.update (Function.update live old.payload none) new.payload (some newSize))
      bs' := by
  refine ⟨hmove.rep, fun p n hp => ?_, fun c hc => ?_⟩
  · by_cases hpn : p = new.payload
    · subst hpn
      rw [Function.update_self] at hp
      cases hp
      exact ⟨new, (hmove.inUse new).mpr (Or.inr rfl), rfl, hmove.size_le⟩
    · rw [Function.update_of_ne hpn] at hp
      by_cases hpo : p = old.payload
      · subst hpo
        rw [Function.update_self] at hp
        cases hp
      · rw [Function.update_of_ne hpo] at hp
        obtain ⟨c, hc, hpay, hn⟩ := h.block p n hp
        refine ⟨c, (hmove.inUse c).mpr (Or.inl ⟨hc, ?_⟩), hpay, hn⟩
        rintro rfl
        exact hpo hpay.symm
  · rcases (hmove.inUse c).mp hc with ⟨hc, hco⟩ | rfl
    · have hnew : c.payload ≠ new.payload :=
        fun heq => hmove.fresh c hc (Nat.add_right_cancel heq)
      have hne : c.payload ≠ old.payload := fun heq => hco (h.payload_inj hc hold heq)
      rw [Function.update_of_ne hnew, Function.update_of_ne hne]
      exact h.live c hc
    · rw [Function.update_self]
      simp

/-! ## One call -/

/-- The number of bytes that a call asks for. -/
def Call.request : Call → Nat
  | .kmalloc size => size
  | .kfree _ => 0
  | .krealloc _ _ newSize => newSize
  | .write _ _ => 0

/-- What a call does to the invariant, to free neighbours and to the end of the heap. -/
structure Serves (M : Machine) (s s' : State) (live' : Live) (bs bs' : List Block) (request : Nat) :
    Prop where
  inv : Inv M s' live' bs'
  grows : Grows s s' bs bs' request

theorem Grows.refl (s : State) (bs : List Block) (request : Nat) : Grows s s bs bs request :=
  ⟨fun h => h, le_refl _, fun hne => absurd rfl hne⟩

theorem SameHeap.serves (hsame : SameHeap s s') (h : Inv M s live bs) (request : Nat) :
    Serves M s s' live bs bs request :=
  ⟨h.of_inUse (hsame.rep h.rep) fun _ => Iff.rfl,
    fun hsettled => hsettled, hsame.stop.ge, fun hne => absurd hsame.stop hne⟩

theorem kfree_inv (h : Inv M s live bs) {p : Nat} (hp : p = 0 ∨ live p ≠ none) (request : Nat) :
    ∃ s' bs', kfree s p = .ok s' ∧
      Serves M s s' (Function.update live p none) bs bs' request := by
  rcases hp with rfl | hp
  · refine ⟨s, bs, rfl, ?_, Grows.refl s bs request⟩
    rw [← h.live_zero, Function.update_eq_self]
    exact h
  · obtain ⟨n, hn⟩ := Option.ne_none_iff_exists'.mp hp
    obtain ⟨b, hb, rfl, _⟩ := h.block p n hn
    obtain ⟨s', bs', hrun, hrep, huse, _, hsettled, hstop⟩ := kfree_rep h.rep hb
    exact ⟨s', bs', hrun, h.release hb hrep huse, fun _ => hsettled, hstop.ge,
      fun hne => absurd hstop hne⟩

theorem kmalloc_inv (supply : Supply) (h : Inv M s live bs) {size : Nat}
    (hsize : size + 48 ≤ 2 ^ 64) :
    ∃ p s' bs', kmalloc M supply s size = .ok (p, s') ∧
      Serves M s s' (if p = 0 then live else Function.update live p (some size)) bs bs' size := by
  obtain ⟨p, s', hrun, ⟨rfl, hsame⟩ | ⟨bs', b, rfl, halloc, hgrows⟩⟩ :=
    kmalloc_cases supply h.rep hsize
  · exact ⟨0, s', bs, hrun, hsame.serves h size⟩
  · refine ⟨_, s', bs', hrun, ?_, hgrows⟩
    rw [if_neg b.payload_ne_zero]
    exact h.allocate halloc

/-- Stores into one block in use keep the invariant. -/
theorem write_inv (h : Inv M s live bs) {b : Block} (hb : b ∈ inUse bs) {m : Mem}
    (hm : ∀ x, x < b.payload ∨ b.stop ≤ x → m x = s.mem x) :
    Inv M { s with mem := m } live bs :=
  h.of_inUse (h.rep.write (mem_inUse.mp hb).1 hm) fun _ => Iff.rfl

theorem krealloc_inv (supply : Supply) (oldSize : Nat) (h : Inv M s live bs)
    {ptr newSize : Nat} (hp : ptr = 0 ∨ live ptr ≠ none) (hnew : newSize + 48 ≤ 2 ^ 64) :
    ∃ p s' bs', krealloc M supply s ptr oldSize newSize = .ok (p, s') ∧
      Serves M s s' (if newSize = 0 then Function.update live ptr none else if p = 0 then live
        else Function.update (Function.update live ptr none) p (some newSize)) bs bs' newSize := by
  by_cases hzero : newSize = 0
  · obtain ⟨s', bs', hrun, hserves⟩ := kfree_inv h hp newSize
    refine ⟨0, s', bs', ?_, ?_⟩
    · rw [krealloc, if_pos hzero, hrun]
      rfl
    · rw [if_pos hzero]
      exact hserves
  simp only [if_neg hzero]
  by_cases hptr : ptr = 0
  · obtain ⟨p, s', bs', hrun, hserves⟩ := kmalloc_inv supply h hnew
    refine ⟨p, s', bs', ?_, ?_⟩
    · rw [krealloc, if_neg hzero, if_pos hptr, hrun]
    · rw [hptr, ← h.live_zero, Function.update_eq_self]
      exact hserves
  · obtain ⟨n, hn⟩ := Option.ne_none_iff_exists'.mp (hp.resolve_left hptr)
    obtain ⟨old, hold, rfl, _⟩ := h.block ptr n hn
    obtain ⟨p, s', hrun, ⟨rfl, hsame⟩ | ⟨bs', new, rfl, hmove⟩⟩ :=
      krealloc_cases supply oldSize h.rep hold hzero hnew
    · exact ⟨0, s', bs, hrun, hsame.serves h newSize⟩
    · refine ⟨_, s', bs', hrun, ?_, hmove.grows⟩
      rw [if_neg new.payload_ne_zero]
      exact h.move hold hmove

/-- A call that does not wrap around returns and keeps the invariant. -/
theorem perform_inv (supply : Supply) (h : Inv M s live bs) {c : Call} (hc : c.Sized live) :
    ∃ s' live' bs', perform M supply s live c = .ok (s', live') ∧
      Serves M s s' live' bs bs' c.request := by
  cases c with
  | kmalloc size =>
    obtain ⟨p, s', bs', hrun, hserves⟩ := kmalloc_inv supply h hc
    exact ⟨s', _, bs', by simp only [perform, hrun]; rfl, hserves⟩
  | kfree ptr =>
    obtain ⟨s', bs', hrun, hserves⟩ := kfree_inv h hc 0
    exact ⟨s', _, bs', by simp only [perform, hrun]; rfl, hserves⟩
  | krealloc ptr oldSize newSize =>
    obtain ⟨p, s', bs', hrun, hserves⟩ := krealloc_inv supply oldSize h hc.1 hc.2
    refine ⟨s', _, bs', ?_, hserves⟩
    simp only [perform, hrun, bind, Except.bind]
    split_ifs <;> rfl
  | write addr value =>
    obtain ⟨p, n, hp, hle, hlt⟩ := hc
    obtain ⟨b, hb, rfl, hn⟩ := h.block p n hp
    refine ⟨_, _, bs, rfl, write_inv h hb fun x hx => Function.update_of_ne ?_ _ _,
      fun hsettled => hsettled, le_refl _, fun hne => absurd rfl hne⟩
    rintro rfl
    simp only [Block.stop, Block.payload] at *
    omega

end Steps

/-- The blocks of every state of a run, of which no two neighbours are free. -/
theorem sizedReach_inv {M : Machine} {s : State} {live : Live} (h : SizedReach M s live) :
    ∃ bs, Inv M s live bs ∧ Settled bs := by
  induction h with
  | init mem => exact ⟨[], inv_init M mem, List.IsChain.nil⟩
  | step supply c _ hc hrun ih =>
    obtain ⟨bs, hinv, hsettled⟩ := ih
    obtain ⟨s', live', bs', hrun', hserves⟩ := perform_inv supply hinv hc
    rw [hrun] at hrun'
    cases hrun'
    exact ⟨bs', hserves.inv, hserves.grows.settled hsettled⟩

/-! ## The list in memory -/

theorem links_of_seg {m : Mem} {stop : Nat} :
    ∀ {bs : List Block} {pos : Nat}, Seg m bs 0 → Tiles stop pos bs → 0 < pos →
      Links m (ptrOr bs 0) (bs.map Block.addr) := by
  intro bs
  induction bs with
  | nil => intro _ _ _ _; exact Links.null
  | cons b bs ih =>
    intro pos hseg htile hpos
    obtain ⟨rfl, _, hrest⟩ := htile
    refine Links.block hpos.ne' ?_
    change Links m (nextOf m b.addr) (bs.map Block.addr)
    rw [hseg.1.next]
    refine ih hseg.2 hrest ?_
    unfold Block.stop
    omega

theorem adjacent_of_seg {m : Mem} {stop : Nat} :
    ∀ {bs : List Block} {pos : Nat}, Seg m bs 0 → Tiles stop pos bs →
      (bs.map Block.addr).IsChain fun a b => a + headerSize + sizeOf m a = b := by
  intro bs
  induction bs with
  | nil => intro _ _ _; exact List.IsChain.nil
  | cons b bs ih =>
    intro pos hseg htile
    obtain ⟨_, _, hrest⟩ := htile
    have hchain := ih hseg.2 hrest
    cases bs with
    | nil => exact List.IsChain.singleton _
    | cons c bs =>
      refine List.IsChain.cons_cons ?_ hchain
      rw [hseg.1.size]
      exact hrest.1.symm

theorem tiles_getLast {stop pos : Nat} {bs : List Block} (h : Tiles stop pos bs) :
    ∀ b ∈ bs.getLast?, b.stop = stop := by
  intro b hb
  obtain ⟨init, rfl⟩ := List.getLast?_eq_some_iff.mp hb
  obtain ⟨_, _, _, _, hstop⟩ := tiles_append.mp h
  exact hstop

theorem tiling_of_rep {M : Machine} {s : State} {bs : List Block} (h : Rep M s bs) :
    Tiling s (bs.map Block.addr) where
  links := by
    rw [h.head]
    exact links_of_seg h.seg h.tiles (by decide)
  increasing := by
    refine List.pairwise_map.mpr (h.tiles.pairwise.imp fun {b c} hbc => ?_)
    have hh : headerSize = 32 := rfl
    unfold Block.stop at hbc
    omega
  magic := by
    intro a ha
    obtain ⟨b, hb, rfl⟩ := List.mem_map.mp ha
    obtain ⟨_, hhead⟩ := seg_mem h.seg hb
    exact hhead.magic
  size := by
    intro a ha
    obtain ⟨b, hb, rfl⟩ := List.mem_map.mp ha
    obtain ⟨_, hhead⟩ := seg_mem h.seg hb
    rw [hhead.size]
    exact (h.tiles.mem hb).2.2
  adjacent := adjacent_of_seg h.seg h.tiles
  first := by
    intro a ha
    cases bs with
    | nil => simp at ha
    | cons b bs =>
      obtain rfl : b.addr = a := by simpa using ha
      exact h.tiles.1
  last := by
    intro a ha
    rw [List.getLast?_map] at ha
    obtain ⟨b, hb, rfl⟩ := Option.mem_map.mp ha
    obtain ⟨_, hhead⟩ := seg_mem h.seg (List.mem_of_getLast? hb)
    rw [hhead.size]
    exact tiles_getLast h.tiles b hb
  empty := by
    intro hnil
    rw [List.map_eq_nil_iff] at hnil
    subst hnil
    exact h.tiles.symm

/-- Every address of a block lies in a mapped page. -/
theorem Rep.pageOf_mapped {M : Machine} {s : State} {bs : List Block} (h : Rep M s bs)
    {b : Block} (hb : b ∈ bs) {x : Nat} (hx : b.addr ≤ x) (hx' : x < b.stop) :
    pageOf x ∈ s.mapped := by
  obtain ⟨hlo, hhi, _⟩ := h.tiles.mem hb
  have hal := h.aligned
  rw [h.mapped, mem_heapPages]
  simp only [pageOf, pageSize, heapStart] at *
  omega

theorem livePayloads_of_inv {M : Machine} {s : State} {live : Live} {bs : List Block}
    (h : Inv M s live bs) : LivePayloads s live (bs.map Block.addr) := by
  have hend : ∀ b ∈ bs, payloadEnd s b.payload = b.stop := by
    intro b hb
    obtain ⟨_, hhead⟩ := seg_mem h.rep.seg hb
    simp only [payloadEnd, Block.payload, Nat.add_sub_cancel, hhead.size, Block.stop]
  refine ⟨fun p n hp => ?_, fun p q n k hp hq hpq => ?_, fun p n hp x hx hx' => ?_⟩
  · obtain ⟨b, hb, rfl, hn⟩ := h.block p n hp
    obtain ⟨hmem, hused⟩ := mem_inUse.mp hb
    obtain ⟨_, hhead⟩ := seg_mem h.rep.seg hmem
    have haddr : b.payload - headerSize = b.addr := Nat.add_sub_cancel _ _
    refine ⟨Nat.le_add_left _ _, ?_, ?_, ?_⟩
    · rw [haddr]
      exact List.mem_map_of_mem hmem
    · rw [haddr, hhead.isFree, hused]
      rfl
    · rw [hend b hmem]
      simp only [Block.payload, Block.stop]
      omega
  · obtain ⟨b, hb, rfl, _⟩ := h.block p n hp
    obtain ⟨c, hc, rfl, _⟩ := h.block q k hq
    obtain ⟨hb, _⟩ := mem_inUse.mp hb
    obtain ⟨hc, _⟩ := mem_inUse.mp hc
    rw [hend b hb, hend c hc]
    have hbc : b ≠ c := fun heq => hpq (by rw [heq])
    have := h.rep.tiles.apart hb hc hbc
    simp only [Block.payload, Block.stop] at *
    omega
  · obtain ⟨b, hb, rfl, _⟩ := h.block p n hp
    obtain ⟨hb, _⟩ := mem_inUse.mp hb
    rw [hend b hb] at hx'
    refine h.rep.pageOf_mapped hb ?_ hx'
    unfold Block.payload at hx
    omega

/-- In every state of every run the list of headers tiles the heap, the live payloads are
disjoint blocks in mapped pages, and every admissible call returns. -/
theorem heap_tiling {M : Machine} {s : State} {live : Live} (h : Reach M s live) :
    (∃ addrs, Tiling s addrs ∧ LivePayloads s live addrs) ∧
      ∀ supply c, c.Admissible live → ∃ r, perform M supply s live c = .ok r := by
  obtain ⟨bs, hinv, -⟩ := sizedReach_inv h.sized
  refine ⟨⟨_, tiling_of_rep hinv.rep, livePayloads_of_inv hinv⟩, fun supply c hc => ?_⟩
  obtain ⟨s', live', _, hrun, _⟩ := perform_inv supply hinv hc.sized
  exact ⟨_, hrun⟩

/-- A machine of sixteen pages, all granted. -/
def smallMachine : Machine := ⟨16, by decide⟩

def allGranted : Supply := ⟨fun _ _ => true, fun _ => 0⟩

/-- The run of one allocation of 100 bytes, at the start of the first page. -/
theorem hundred_reach : ∃ s live, Reach smallMachine s live ∧
    live = Function.update (fun _ => none) (heapStart + headerSize) (some 100) := by
  have hval : (kmalloc smallMachine allGranted (initHeap fun _ => 0) 100).map Prod.fst =
      .ok (heapStart + headerSize) := by decide
  have hc : (Call.kmalloc 100).Admissible fun _ => none := show 100 < 2 ^ 32 by decide
  obtain ⟨s, live, _, hrun, _⟩ := perform_inv allGranted (inv_init smallMachine fun _ => 0) hc.sized
  refine ⟨s, live, Reach.step allGranted _ (Reach.init _) hc hrun, ?_⟩
  cases hk : kmalloc smallMachine allGranted (initHeap fun _ => 0) 100 with
  | error e =>
    rw [hk] at hval
    cases hval
  | ok r =>
    obtain ⟨p, s'⟩ := r
    rw [hk] at hval
    obtain rfl : p = heapStart + headerSize := Except.ok.inj hval
    simp only [perform, hk] at hrun
    cases hrun
    exact if_neg (show heapStart + headerSize ≠ 0 by decide)

/-- After the first allocation the heap is one page, and its first block is live. -/
theorem heap_tiling_hundred : ∃ s live, Reach smallMachine s live ∧
    live (heapStart + headerSize) = some 100 ∧
    ∃ addrs, Tiling s addrs ∧ LivePayloads s live addrs := by
  obtain ⟨s, live, hreach, hlive⟩ := hundred_reach
  refine ⟨s, live, hreach, ?_, (heap_tiling hreach).1⟩
  rw [hlive, Function.update_self]

end Kyuzen.Heap
