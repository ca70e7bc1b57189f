import Kyuzen.Heap.Coalesce

/-!
# What a call leaves alone

Headers are written between payloads: a split puts one into a free block, a merge and an
expansion change links. None of this reaches a block in use, so that a call changes the payload of
no other allocation; `krealloc` moves the contents of its block, and one that fails changes nothing
(`heap_frame`).

A request above `2 ^ 64 - 48` wraps around. Then `krealloc` gets a block that is smaller than the
old one, copies the whole old block into it, and overwrites the block behind (`heap_overrun`).
-/

namespace Kyuzen.Heap

open Lib.Memory

variable {M : Machine} {s s' : State} {live : Live} {bs : List Block}

/-! ## Blocks in use, in memory -/

/-- The list holds a block of `n` bytes that is in use, with its payload at `p`. -/
def InUse (s : State) (p n : Nat) : Prop :=
  ∃ addrs, Links s.mem s.heapHead addrs ∧
    ∃ a ∈ addrs, p = a + headerSize ∧ sizeOf s.mem a = n ∧ isFreeOf s.mem a = 0

theorem links_unique {m : Mem} {curr : Nat} {xs ys : List Nat} (hx : Links m curr xs)
    (hy : Links m curr ys) : xs = ys := by
  induction hx generalizing ys with
  | null =>
    cases hy with
    | null => rfl
    | block hne _ => exact absurd rfl hne
  | block hne _ ih =>
    cases hy with
    | null => exact absurd rfl hne
    | block _ hrest => rw [ih hrest]

theorem Rep.inUse_iff (h : Rep M s bs) {p n : Nat} :
    InUse s p n ↔ ∃ b ∈ inUse bs, b.payload = p ∧ b.size = n := by
  constructor
  · rintro ⟨addrs, hlinks, a, ha, rfl, hsize, hused⟩
    rw [links_unique hlinks (tiling_of_rep h).links] at ha
    obtain ⟨b, hb, rfl, hbsize, hiff⟩ := h.block_mem ha
    refine ⟨b, mem_inUse.mpr ⟨hb, ?_⟩, rfl, hbsize.symm.trans hsize⟩
    rw [← Bool.not_eq_true]
    exact fun hfree => hiff.mpr hfree hused
  · rintro ⟨b, hb, rfl, rfl⟩
    obtain ⟨hb, hused⟩ := mem_inUse.mp hb
    obtain ⟨_, hhead⟩ := seg_mem h.seg hb
    refine ⟨_, (tiling_of_rep h).links, b.addr, List.mem_map_of_mem hb, rfl, hhead.size, ?_⟩
    rw [hhead.isFree, hused]
    rfl

/-- A live pointer has a block of at least the size that was asked for. -/
theorem Inv.inUse_of_live (h : Inv M s live bs) {p n : Nat} (hp : live p = some n) :
    ∃ k, n ≤ k ∧ InUse s p k := by
  obtain ⟨b, hb, hpay, hn⟩ := h.block p n hp
  exact ⟨b.size, hn, h.rep.inUse_iff.mpr ⟨b, hb, hpay, rfl⟩⟩

/-! ## The property of one call -/

/-- The payloads of all blocks in use, except the one at `ptr`, are as before. -/
def Keeps (s s' : State) (ptr : Nat) : Prop :=
  ∀ p n, InUse s p n → p ≠ ptr → ∀ x, p ≤ x → x < p + n → s'.mem x = s.mem x

/-- The block at `ptr` has been given back and its first bytes are those of a new block at `q`. -/
structure Moved (s s' : State) (ptr q oldSize newSize : Nat) : Prop where
  fresh : ∀ n, ¬InUse s q n
  taken : ∃ n, newSize ≤ n ∧ InUse s' q n
  others : ∀ p n, p ≠ q → (InUse s' p n ↔ InUse s p n ∧ p ≠ ptr)
  copied : ∀ i, i < min oldSize newSize → s'.mem (q + i) = s.mem (ptr + i)

def FrameOk (M : Machine) (supply : Supply) (s : State) : Call → Prop
  | .kmalloc size => ∃ q s', kmalloc M supply s size = .ok (q, s') ∧ Keeps s s' 0
  | .kfree ptr => ∃ s', kfree s ptr = .ok s' ∧ Keeps s s' ptr
  | .krealloc ptr oldSize newSize =>
    ∃ q s', krealloc M supply s ptr oldSize newSize = .ok (q, s') ∧ Keeps s s' ptr ∧
      (newSize ≠ 0 → q = 0 → SameHeap s s') ∧
      (newSize ≠ 0 → q ≠ 0 → ptr ≠ 0 → Moved s s' ptr q oldSize newSize)
  | .write _ _ => True

theorem Rep.keeps_of_same (h : Rep M s bs) (hsame : SamePayloads (inUse bs) s.mem s'.mem)
    (ptr : Nat) : Keeps s s' ptr := by
  intro p n hp _ x hlo hhi
  obtain ⟨b, hb, rfl, rfl⟩ := h.inUse_iff.mp hp
  exact hsame b hb x hlo hhi

theorem SameHeap.keeps (hsame : SameHeap s s') (h : Rep M s bs) (ptr : Nat) : Keeps s s' ptr := by
  apply h.keeps_of_same
  intro b hb
  exact hsame.samePayloads h b (mem_inUse.mp hb).1

theorem kmalloc_frame (supply : Supply) (h : Rep M s bs) {size : Nat}
    (hsize : size + 48 ≤ 2 ^ 64) :
    ∃ q s', kmalloc M supply s size = .ok (q, s') ∧ (∀ ptr, Keeps s s' ptr) ∧
      (q = 0 → SameHeap s s') := by
  obtain ⟨q, s', hrun, ⟨rfl, hsame⟩ | ⟨bs', b, rfl, halloc, -⟩⟩ := kmalloc_cases supply h hsize
  · exact ⟨0, s', hrun, hsame.keeps h, fun _ => hsame⟩
  · exact ⟨_, s', hrun, h.keeps_of_same halloc.same, fun hq => absurd hq b.payload_ne_zero⟩

theorem kfree_frame (h : Inv M s live bs) {ptr : Nat} (hp : ptr = 0 ∨ live ptr ≠ none) :
    ∃ s', kfree s ptr = .ok s' ∧ Keeps s s' ptr := by
  rcases hp with rfl | hp
  · exact ⟨s, rfl, fun _ _ _ _ _ _ _ => rfl⟩
  · obtain ⟨n, hn⟩ := Option.ne_none_iff_exists'.mp hp
    obtain ⟨b, hb, rfl, -⟩ := h.block ptr n hn
    obtain ⟨s', bs', hrun, -, huse, hsame, -, -⟩ := kfree_rep h.rep hb
    refine ⟨s', hrun, ?_⟩
    intro p k hp hne x hlo hhi
    obtain ⟨c, hc, rfl, rfl⟩ := h.rep.inUse_iff.mp hp
    have hcb : c ≠ b := fun heq => hne (congrArg Block.payload heq)
    exact hsame c ((huse c).mpr ⟨hc, hcb⟩) x hlo hhi

theorem Moves.moved {bs' : List Block} {old new : Block} {oldSize newSize : Nat}
    (h : Inv M s live bs) (hold : old ∈ Heap.inUse bs)
    (hmove : Moves M s s' bs bs' old new oldSize newSize) (hsize : oldSize ≤ old.size) :
    Moved s s' old.payload new.payload oldSize newSize := by
  have hfresh : ∀ c ∈ Heap.inUse bs, c.payload ≠ new.payload :=
    fun c hc heq => hmove.fresh c hc (Nat.add_right_cancel heq)
  refine ⟨?_, ?_, ?_, ?_⟩
  · intro n hn
    obtain ⟨c, hc, hpay, -⟩ := h.rep.inUse_iff.mp hn
    exact hfresh c hc hpay
  · exact ⟨new.size, hmove.size_le,
      hmove.rep.inUse_iff.mpr ⟨new, (hmove.inUse new).mpr (Or.inr rfl), rfl, rfl⟩⟩
  · intro p n hp
    rw [hmove.rep.inUse_iff, h.rep.inUse_iff]
    constructor
    · rintro ⟨c, hc, rfl, rfl⟩
      rcases (hmove.inUse c).mp hc with ⟨hc, hco⟩ | rfl
      · exact ⟨⟨c, hc, rfl, rfl⟩, fun heq => hco (h.payload_inj hc hold heq)⟩
      · exact absurd rfl hp
    · rintro ⟨⟨c, hc, rfl, rfl⟩, hne⟩
      have hco : c ≠ old := fun heq => hne (congrArg Block.payload heq)
      exact ⟨c, (hmove.inUse c).mpr (Or.inl ⟨hc, hco⟩), rfl, rfl⟩
  · intro i hi
    exact hmove.copied i (by omega) (by omega) (by omega)

theorem krealloc_frame (supply : Supply) (h : Inv M s live bs) {ptr oldSize newSize : Nat}
    (hp : ptr = 0 ∨ live ptr ≠ none) (hnew : newSize + 48 ≤ 2 ^ 64)
    (hold : ∀ n, InUse s ptr n → oldSize ≤ n) :
    FrameOk M supply s (.krealloc ptr oldSize newSize) := by
  show ∃ q s', krealloc M supply s ptr oldSize newSize = .ok (q, s') ∧ _
  by_cases hzero : newSize = 0
  · obtain ⟨s', hrun, hkeeps⟩ := kfree_frame h hp
    refine ⟨0, s', ?_, hkeeps, fun hne => absurd hzero hne, fun hne => absurd hzero hne⟩
    rw [krealloc, if_pos hzero, hrun]
    rfl
  by_cases hptr : ptr = 0
  · obtain ⟨q, s', hrun, hkeeps, hnull⟩ := kmalloc_frame supply h.rep hnew
    refine ⟨q, s', ?_, hkeeps ptr, fun _ => hnull, fun _ _ hne => absurd hptr hne⟩
    rw [krealloc, if_neg hzero, if_pos hptr, hrun]
  · obtain ⟨n, hn⟩ := Option.ne_none_iff_exists'.mp (hp.resolve_left hptr)
    obtain ⟨old, hmem, rfl, -⟩ := h.block ptr n hn
    obtain ⟨q, s', hrun, ⟨rfl, hsame⟩ | ⟨bs', new, rfl, hmove⟩⟩ :=
      krealloc_cases supply oldSize h.rep hmem hzero hnew
    · exact ⟨0, s', hrun, hsame.keeps h.rep _, fun _ _ => hsame, fun _ hne => absurd rfl hne⟩
    · refine ⟨_, s', hrun, ?_, fun _ hq => absurd hq new.payload_ne_zero, fun _ _ _ => ?_⟩
      · intro p k hp hne x hlo hhi
        obtain ⟨c, hc, rfl, rfl⟩ := h.rep.inUse_iff.mp hp
        exact hmove.same c hc (fun heq => hne (congrArg Block.payload heq)) x hlo hhi
      · apply hmove.moved h hmem
        exact hold _ (h.rep.inUse_iff.mpr ⟨old, hmem, rfl, rfl⟩)

/-- The size that `krealloc` is told is at most the size of the block. -/
def Call.KnowsSize (s : State) : Call → Prop
  | .krealloc ptr oldSize _ => ∀ n, InUse s ptr n → oldSize ≤ n
  | _ => True

/-- In every state of a run whose requests are at most `2 ^ 64 - 48`, such a call changes no payload
of another block in use; a `krealloc` that returns a pointer moves the contents and frees exactly
the old block, and one that returns `NULL` leaves the heap as it was. -/
theorem heap_frame (h : SizedReach M s live) (supply : Supply) {c : Call} (hc : c.Sized live)
    (hold : c.KnowsSize s) : FrameOk M supply s c := by
  obtain ⟨bs, hinv, -⟩ := sizedReach_inv h
  cases c with
  | kmalloc size =>
    obtain ⟨q, s', hrun, hkeeps, -⟩ := kmalloc_frame supply hinv.rep hc
    exact ⟨q, s', hrun, hkeeps 0⟩
  | kfree ptr => exact kfree_frame hinv hc
  | krealloc ptr oldSize newSize => exact krealloc_frame supply hinv hc.1 hc.2 hold
  | write addr value => trivial

/-- A size up to the one that was asked for is known. -/
theorem Inv.known (h : Inv M s live bs) {p n oldSize : Nat} (hp : live p = some n)
    (hle : oldSize ≤ n) : ∀ k, InUse s p k → oldSize ≤ k := by
  intro k hk
  obtain ⟨b, hb, rfl, hn⟩ := h.block p n hp
  obtain ⟨c, hc, hpay, rfl⟩ := h.rep.inUse_iff.mp hk
  rw [h.payload_inj hc hb hpay]
  omega

/-- The first allocation is made larger. -/
theorem heap_frame_hundred : ∃ s live, SizedReach smallMachine s live ∧
    FrameOk smallMachine allGranted s (.krealloc (heapStart + headerSize) 100 5000) := by
  obtain ⟨s, live, hreach, hlive⟩ := hundred_reach
  have hp : live (heapStart + headerSize) = some 100 := by
    rw [hlive, Function.update_self]
  obtain ⟨bs, hinv, -⟩ := sizedReach_inv hreach.sized
  refine ⟨s, live, hreach.sized, heap_frame hreach.sized allGranted ⟨Or.inr ?_, by decide⟩ ?_⟩
  · rw [hp]
    exact Option.some_ne_none 100
  · exact hinv.known hp (le_refl 100)

/-! ## A request that wraps around -/

/-- A page that holds, 16 bytes into the first block, what the header of the third one will be, and
a byte in the payload of the third block. -/
def preparedPage : Mem := fun x =>
  if x < heapStart + 48 then 0
  else if x < heapStart + 56 then UInt8.ofNat (heapMagic / 256 ^ (x - (heapStart + 48)))
  else if x = heapStart + 56 then 16
  else if heapStart + 72 ≤ x ∧ x < heapStart + 80 then
    UInt8.ofNat ((heapStart + 192) / 256 ^ (x - (heapStart + 72)))
  else if x = heapStart + 176 then 7
  else 0

def prepared : Supply := ⟨fun _ _ => true, preparedPage⟩

/-- Allocations of the given sizes. -/
def allocAll (M : Machine) (supply : Supply) (r : State × Live) (sizes : List Nat) :
    Except Halt (State × Live) :=
  sizes.foldlM (fun r size => perform M supply r.1 r.2 (.kmalloc size)) r

/-- A sequence of calls that returns consists of calls that return. -/
theorem bind_eq_ok {α β : Type} {x : Except Halt α} {f : α → Except Halt β} {b : β}
    (h : x >>= f = .ok b) : ∃ a, x = .ok a ∧ f a = .ok b := by
  cases x with
  | error e => cases h
  | ok a => exact ⟨a, rfl, h⟩

theorem SizedReach.allocAll {supply : Supply} {sizes : List Nat} {r r' : State × Live}
    (h : SizedReach M r.1 r.2) (hsizes : ∀ size ∈ sizes, size + 48 ≤ 2 ^ 64)
    (hrun : Heap.allocAll M supply r sizes = .ok r') : SizedReach M r'.1 r'.2 := by
  induction sizes generalizing r with
  | nil =>
    cases hrun
    exact h
  | cons size sizes ih =>
    rw [Heap.allocAll, List.foldlM_cons] at hrun
    obtain ⟨r₁, hone, hrest⟩ := bind_eq_ok hrun
    apply ih (SizedReach.step supply (.kmalloc size) h (hsizes size List.mem_cons_self) hone)
    · exact fun n hn => hsizes n (List.mem_cons_of_mem _ hn)
    · exact hrest

/-- Blocks of 64, 16 and 16 bytes are allocated and the second one is freed. The first block is then
reallocated with the largest size there is: the request is rounded up to 0, the freed block of 16
bytes is taken, and the 64 bytes that are copied reach into the payload of the third block. -/
theorem heap_overrun : ∃ s live, SizedReach smallMachine s live ∧
    live (heapStart + 32) = some 64 ∧
    (Call.krealloc (heapStart + 32) 64 (2 ^ 64 - 1)).KnowsSize s ∧
    ¬FrameOk smallMachine prepared s (.krealloc (heapStart + 32) 64 (2 ^ 64 - 1)) := by
  have hval : (do
      let r ← allocAll smallMachine prepared (initHeap fun _ => 0, fun _ => none) [64, 16, 16]
      let r' ← perform smallMachine prepared r.1 r.2 (.kfree (heapStart + 128))
      let q ← krealloc smallMachine prepared r'.1 (heapStart + 32) 64 (2 ^ 64 - 1)
      return (r.2 (heapStart + 128), r'.2 (heapStart + 32), r'.2 (heapStart + 176),
        r'.1.mem (heapStart + 176), q.2.mem (heapStart + 176)) : Except Halt _) =
      .ok (some 16, some 64, some 16, 7, 0) := by decide +kernel
  obtain ⟨r, hrun, hval⟩ := bind_eq_ok hval
  obtain ⟨r', hfree, hval⟩ := bind_eq_ok hval
  obtain ⟨q, hrealloc, hval⟩ := bind_eq_ok hval
  obtain ⟨h128, h32, h176, hbefore, hafter⟩ : r.2 (heapStart + 128) = some 16 ∧
      r'.2 (heapStart + 32) = some 64 ∧ r'.2 (heapStart + 176) = some 16 ∧
      r'.1.mem (heapStart + 176) = 7 ∧ q.2.mem (heapStart + 176) = 0 := by
    simpa only [Prod.mk.injEq] using Except.ok.inj hval
  have hreach : SizedReach smallMachine r.1 r.2 := by
    apply SizedReach.allocAll (SizedReach.init fun _ => 0) _ hrun
    decide
  have hlive : (Call.kfree (heapStart + 128)).Sized r.2 := by
    show _ ∨ r.2 (heapStart + 128) ≠ none
    rw [h128]
    exact Or.inr (Option.some_ne_none 16)
  have hreach' := SizedReach.step prepared _ hreach hlive hfree
  obtain ⟨bs, hinv, -⟩ := sizedReach_inv hreach'
  refine ⟨r'.1, r'.2, hreach', h32, hinv.known h32 (le_refl 64), ?_⟩
  rintro ⟨p, s', hcall, hkeeps, -⟩
  rw [hrealloc] at hcall
  obtain rfl : q = (p, s') := Except.ok.inj hcall
  obtain ⟨k, hk, huse⟩ := hinv.inUse_of_live h176
  have hsame := hkeeps _ k huse (by decide) (heapStart + 176) (le_refl _) (by omega)
  rw [hbefore] at hsame
  rw [hsame] at hafter
  cases hafter

end Kyuzen.Heap
