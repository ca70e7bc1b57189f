import Kyuzen.Heap.Tiling

/-!
# No two free neighbours

After every call of a run at most one of two neighbouring blocks is free (`Settled`). An
expansion puts a free block behind the last one, which may be free itself; but the call that
has asked for it takes the new block at once, and a split leaves its rest in front of a block
in use. So all free memory that hangs together is one block, the heap grows only when no such
block is large enough, and when everything has been freed one block is left (`heap_coalesced`).
-/

namespace Kyuzen.Heap

open Lib.Memory

/-! ## Free memory that hangs together -/

variable {stop pos : Nat} {bs : List Block}

/-- No free block starts where another one ends. -/
theorem Settled.not_adjacent (h : Settled bs) (htile : Tiles stop pos bs) {b c : Block}
    (hb : b ∈ bs) (hc : c ∈ bs) (hbfree : b.free = true) (hcfree : c.free = true) :
    c.addr ≠ b.stop := by
  have hh : headerSize = 32 := rfl
  intro hadj
  have hbstop : b.stop = b.addr + headerSize + b.size := rfl
  induction bs generalizing pos with
  | nil => cases hb
  | cons d bs ih =>
    obtain ⟨hpos, _, hrest⟩ := htile
    have hdstop : d.stop = d.addr + headerSize + d.size := rfl
    rcases List.mem_cons.mp hc with rfl | hctail
    · -- the first block does not start behind another one
      rcases List.mem_cons.mp hb with rfl | hbtail
      · omega
      · have := (hrest.mem hbtail).1
        omega
    · rcases List.mem_cons.mp hb with rfl | hbtail
      · cases bs with
        | nil => cases hctail
        | cons e bs =>
          have heq : c = e := by
            apply hrest.addr_inj hctail List.mem_cons_self
            rw [hadj, hrest.1]
          subst heq
          exact (List.isChain_cons_cons.mp h).1 ⟨hbfree, hcfree⟩
      · exact ih h.tail hrest hbtail hctail

/-- An interval of free memory lies in one free block. -/
theorem Settled.one_block (h : Settled bs) (htile : Tiles stop pos bs) {lo hi : Nat} (hlt : lo < hi)
    (hfree : ∀ x, lo ≤ x → x < hi → ∃ b ∈ bs, b.free = true ∧ b.addr ≤ x ∧ x < b.stop) :
    ∃ b ∈ bs, b.free = true ∧ b.addr ≤ lo ∧ hi ≤ b.stop := by
  obtain ⟨b, hb, hbfree, hbaddr, hbstop⟩ := hfree lo (le_refl lo) hlt
  refine ⟨b, hb, hbfree, hbaddr, ?_⟩
  by_contra hend
  obtain ⟨c, hc, hcfree, hcaddr, hcstop⟩ := hfree b.stop (by omega) (by omega)
  apply h.not_adjacent htile hb hc hbfree hcfree
  have hbc : b ≠ c := by
    rintro rfl
    omega
  have hapart := htile.apart hb hc hbc
  omega

/-- Blocks of which none is in use are one block. -/
theorem Settled.single (h : Settled bs) (hfree : inUse bs = []) : bs = [] ∨ ∃ b, bs = [b] := by
  have hall : ∀ b ∈ bs, b.free = true := by
    intro b hb
    by_contra hused
    have hmem : b ∈ inUse bs := mem_inUse.mpr ⟨hb, Bool.not_eq_true _ ▸ hused⟩
    rw [hfree] at hmem
    cases hmem
  cases bs with
  | nil => exact Or.inl rfl
  | cons b bs =>
    refine Or.inr ⟨b, ?_⟩
    cases bs with
    | nil => rfl
    | cons c bs =>
      have hboth : b.free = true ∧ c.free = true :=
        ⟨hall b List.mem_cons_self, hall c (List.mem_cons_of_mem _ List.mem_cons_self)⟩
      exact absurd hboth (List.isChain_cons_cons.mp h).1

/-! ## In memory -/

variable {M : Machine} {s s' : State} {live live' : Live}

/-- The list from `heap_head`, without free neighbours. -/
structure Coalesced (s : State) (addrs : List Nat) : Prop where
  links : Links s.mem s.heapHead addrs
  apart : addrs.IsChain fun a b => ¬(isFreeOf s.mem a ≠ 0 ∧ isFreeOf s.mem b ≠ 0)

/-- Address `x` belongs to a free block. -/
def FreeAt (s : State) (addrs : List Nat) (x : Nat) : Prop :=
  ∃ a ∈ addrs, isFreeOf s.mem a ≠ 0 ∧ a ≤ x ∧ x < a + headerSize + sizeOf s.mem a

/-- No free block, and no interval of free memory with room for a header, holds `size` bytes. -/
structure NoRoom (s : State) (addrs : List Nat) (size : Nat) : Prop where
  block : ∀ a ∈ addrs, isFreeOf s.mem a ≠ 0 → sizeOf s.mem a < size
  interval : ∀ lo hi, (∀ x, lo ≤ x → x < hi → FreeAt s addrs x) → hi < lo + headerSize + size

/-- The whole heap is one free block. -/
structure OneFree (s : State) : Prop where
  links : Links s.mem s.heapHead [heapStart]
  free : isFreeOf s.mem heapStart ≠ 0
  stop : heapStart + headerSize + sizeOf s.mem heapStart = s.currentHeapEnd

theorem Rep.coalesced (h : Rep M s bs) (hsettled : Settled bs) :
    Coalesced s (bs.map Block.addr) := by
  refine ⟨(tiling_of_rep h).links, ?_⟩
  have hseg : ∀ b ∈ bs, isFreeOf s.mem b.addr ≠ 0 ↔ b.free = true := by
    intro b hb
    obtain ⟨_, hhead⟩ := seg_mem h.seg hb
    exact hhead.isFree_ne
  rw [List.isChain_map]
  apply List.IsChain.imp_of_mem_imp _ hsettled
  intro b c hb hc hapart hboth
  exact hapart ⟨(hseg b hb).mp hboth.1, (hseg c hc).mp hboth.2⟩

/-- What the list says about a block, and what its header says. -/
theorem Rep.block_mem (h : Rep M s bs) {a : Nat} (ha : a ∈ bs.map Block.addr) :
    ∃ b ∈ bs, b.addr = a ∧ sizeOf s.mem a = b.size ∧ (isFreeOf s.mem a ≠ 0 ↔ b.free = true) := by
  obtain ⟨b, hb, rfl⟩ := List.mem_map.mp ha
  obtain ⟨_, hhead⟩ := seg_mem h.seg hb
  exact ⟨b, hb, rfl, hhead.size, hhead.isFree_ne⟩

theorem Rep.noRoom (h : Rep M s bs) (hsettled : Settled bs) {size : Nat}
    (hfind : bs.find? (fits size) = none) : NoRoom s (bs.map Block.addr) size := by
  have hsmall : ∀ b ∈ bs, b.free = true → b.size < size := by
    intro b hb hfree
    by_contra hle
    apply List.find?_eq_none.mp hfind b hb
    simp only [fits, hfree, Bool.true_and, decide_eq_true_eq]
    omega
  refine ⟨?_, ?_⟩
  · intro a ha hfree
    obtain ⟨b, hb, rfl, hsize, hiff⟩ := h.block_mem ha
    rw [hsize]
    exact hsmall b hb (hiff.mp hfree)
  · intro lo hi hall
    by_cases hlt : lo < hi
    · have hblocks : ∀ x, lo ≤ x → x < hi →
          ∃ b ∈ bs, b.free = true ∧ b.addr ≤ x ∧ x < b.stop := by
        intro x hlo hhi
        obtain ⟨a, ha, hfree, hax, hxa⟩ := hall x hlo hhi
        obtain ⟨b, hb, rfl, hsize, hiff⟩ := h.block_mem ha
        rw [hsize] at hxa
        exact ⟨b, hb, hiff.mp hfree, hax, hxa⟩
      obtain ⟨b, hb, hfree, haddr, hstop⟩ := hsettled.one_block h.tiles hlt hblocks
      have hbsize := hsmall b hb hfree
      unfold Block.stop at hstop
      omega
    · have hh : headerSize = 32 := rfl
      omega

/-! ## Freeing everything -/

/-- `kfree` of one pointer after the other. -/
def freeAll (s : State) (ps : List Nat) : Except Halt State := ps.foldlM kfree s

theorem kfree_stop {p : Nat} (hrun : kfree s p = .ok s') :
    s'.currentHeapEnd = s.currentHeapEnd := by
  unfold kfree at hrun
  split at hrun
  · cases hrun
    rfl
  · dsimp only at hrun
    split at hrun
    · cases hrun
    · cases hwalk : coalesce walkFuel (setIsFree s.mem (sub64 p headerSize) 1) s.heapHead with
      | error e =>
        rw [hwalk] at hrun
        cases hrun
      | ok m =>
        rw [hwalk] at hrun
        cases hrun
        rfl

theorem freeAll_inv {ps : List Nat} (h : Inv M s live bs) (hsettled : Settled bs)
    (hnodup : ps.Nodup) (hlive : ∀ p, p ∈ ps ↔ live p ≠ none) :
    ∃ s' bs', freeAll s ps = .ok s' ∧ Inv M s' (fun _ => none) bs' ∧ Settled bs' ∧
      s'.currentHeapEnd = s.currentHeapEnd := by
  induction ps generalizing s live bs with
  | nil =>
    have hnone : live = fun _ => none := by
      ext1 p
      by_contra hp
      cases (hlive p).mpr hp
    subst hnone
    exact ⟨s, bs, rfl, h, hsettled, rfl⟩
  | cons p ps ih =>
    have hp : live p ≠ none := (hlive p).mp List.mem_cons_self
    obtain ⟨s₁, bs₁, hrun, hserves⟩ := kfree_inv h (Or.inr hp) 0
    have hstop : s₁.currentHeapEnd = s.currentHeapEnd := kfree_stop hrun
    have hrest : ∀ q, q ∈ ps ↔ Function.update live p none q ≠ none := by
      intro q
      by_cases hq : q = p
      · subst hq
        rw [Function.update_self]
        exact iff_of_false (List.nodup_cons.mp hnodup).1 (not_not.mpr rfl)
      · rw [Function.update_of_ne hq, ← hlive q, List.mem_cons]
        exact ⟨Or.inr, fun hor => hor.resolve_left hq⟩
    obtain ⟨s', bs', hrun', hinv', hsettled', hstop'⟩ :=
      ih hserves.inv (hserves.grows.settled hsettled) (List.nodup_cons.mp hnodup).2 hrest
    refine ⟨s', bs', ?_, hinv', hsettled', hstop'.trans hstop⟩
    rw [freeAll, List.foldlM_cons, hrun]
    exact hrun'

/-- With nothing in use the heap is one free block, unless it has no page yet. -/
theorem Inv.oneFree (h : Inv M s (fun _ => none) bs) (hsettled : Settled bs)
    (hused : s.currentHeapEnd ≠ heapStart) : OneFree s := by
  have hnone : inUse bs = [] := by
    rw [List.eq_nil_iff_forall_not_mem]
    intro b hb
    exact h.live b hb rfl
  rcases hsettled.single hnone with rfl | ⟨b, rfl⟩
  · exact absurd h.rep.tiles.symm hused
  · obtain ⟨hhead, -⟩ := h.rep.seg
    obtain ⟨haddr, -, hstop⟩ := h.rep.tiles
    have hfree : b.free = true := by
      by_contra hb
      have hmem : b ∈ inUse [b] := mem_inUse.mpr ⟨List.mem_cons_self, Bool.not_eq_true _ ▸ hb⟩
      rw [hnone] at hmem
      cases hmem
    have hlinks := (tiling_of_rep h.rep).links
    rw [List.map_singleton, haddr] at hlinks
    refine ⟨hlinks, ?_, ?_⟩
    · rw [← haddr]
      exact hhead.isFree_ne.mpr hfree
    · rw [← haddr, hhead.size]
      exact hstop

/-- In every state of every run no two neighbours of the list are free; the end of the heap moves
only for a request that no free block and no free memory between blocks in use can hold; and
freeing the live pointers, in any order, leaves one free block. -/
theorem heap_coalesced (h : Reach M s live) :
    (∃ addrs, Coalesced s addrs ∧ ∀ supply c s' live', c.Admissible live →
      perform M supply s live c = .ok (s', live') → s.currentHeapEnd ≤ s'.currentHeapEnd ∧
        (s'.currentHeapEnd ≠ s.currentHeapEnd → NoRoom s addrs (roundUp16 c.request))) ∧
    ∀ ps : List Nat, ps.Nodup → (∀ p, p ∈ ps ↔ live p ≠ none) →
      ∃ s', freeAll s ps = .ok s' ∧ s'.currentHeapEnd = s.currentHeapEnd ∧
        (ps ≠ [] ∨ s.heapHead ≠ 0 → OneFree s') := by
  obtain ⟨bs, hinv, hsettled⟩ := sizedReach_inv h.sized
  refine ⟨⟨_, hinv.rep.coalesced hsettled, ?_⟩, ?_⟩
  · intro supply c s' live' hc hrun
    obtain ⟨s₁, live₁, bs', hrun', hserves⟩ := perform_inv supply hinv hc.sized
    rw [hrun] at hrun'
    cases hrun'
    refine ⟨hserves.grows.le, ?_⟩
    intro hne
    exact hinv.rep.noRoom hsettled (hserves.grows.needed hne)
  · intro ps hnodup hlive
    obtain ⟨s', bs', hrun, hinv', hsettled', hstop⟩ := freeAll_inv hinv hsettled hnodup hlive
    refine ⟨s', hrun, hstop, ?_⟩
    intro hany
    apply hinv'.oneFree hsettled'
    rw [hstop]
    have hbs : bs ≠ [] := by
      rintro rfl
      rcases hany with hps | hhead
      · obtain ⟨p, hp⟩ := List.exists_mem_of_ne_nil ps hps
        obtain ⟨n, hn⟩ := Option.ne_none_iff_exists'.mp ((hlive p).mp hp)
        obtain ⟨b, hb, -⟩ := hinv.block p n hn
        cases hb
      · exact hhead hinv.rep.head
    obtain ⟨b, hb⟩ := List.exists_mem_of_ne_nil bs hbs
    obtain ⟨hlow, hhigh, -⟩ := hinv.rep.tiles.mem hb
    have hh : headerSize = 32 := rfl
    unfold Block.stop at hhigh
    omega

/-- One allocation is freed again. -/
theorem heap_coalesced_hundred : ∃ s live s', Reach smallMachine s live ∧
    freeAll s [heapStart + headerSize] = .ok s' ∧ OneFree s' := by
  obtain ⟨s, live, hreach, hlive⟩ := hundred_reach
  have hall : ∀ p, p ∈ [heapStart + headerSize] ↔ live p ≠ none := by
    intro p
    rw [hlive, List.mem_singleton]
    by_cases hp : p = heapStart + headerSize
    · rw [hp, Function.update_self]
      exact iff_of_true rfl (Option.some_ne_none 100)
    · rw [Function.update_of_ne hp]
      exact iff_of_false hp (not_not.mpr rfl)
  obtain ⟨s', hrun, -, hone⟩ :=
    (heap_coalesced hreach).2 [heapStart + headerSize] (List.nodup_singleton _) hall
  exact ⟨s, live, s', hreach, hrun, hone (Or.inl (List.cons_ne_nil _ _))⟩

end Kyuzen.Heap
