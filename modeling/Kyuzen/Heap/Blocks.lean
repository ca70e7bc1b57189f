import Kyuzen.Heap.Model

/-!
# The heap as a list of blocks

What the heap is for, without memory: the interval from the start of the heap to its end is
cut into blocks, each a header and a payload, free or in use (`Tiles`). Allocation carves a
free block (`carve`), a free merges neighbours (`merge`), an expansion appends a block. The
lemmas say that each of them keeps the tiling and changes the blocks in use by at most the
one it is about; memory comes in `Refinement.lean`.
-/

namespace Kyuzen.Heap

structure Block where
  addr : Nat
  size : Nat
  free : Bool
  deriving DecidableEq, Repr

namespace Block

/-- The address handed to the caller. -/
def payload (b : Block) : Nat := b.addr + headerSize

/-- The first address behind the block. -/
def stop (b : Block) : Nat := b.addr + headerSize + b.size

end Block

/-- The blocks lie back to back from `pos` to `stop`, with sizes in units of 16 bytes. -/
def Tiles (stop : Nat) : Nat → List Block → Prop
  | pos, [] => pos = stop
  | pos, b :: rest => b.addr = pos ∧ b.size % 16 = 0 ∧ Tiles stop b.stop rest

/-! ## Tilings -/

theorem tiles_append {stop pos : Nat} {xs ys : List Block} :
    Tiles stop pos (xs ++ ys) ↔ ∃ mid, Tiles mid pos xs ∧ Tiles stop mid ys := by
  induction xs generalizing pos with
  | nil => simp [Tiles]
  | cons b xs ih =>
    simp only [List.cons_append, Tiles, ih]
    constructor
    · rintro ⟨h1, h2, mid, h3, h4⟩
      exact ⟨mid, ⟨h1, h2, h3⟩, h4⟩
    · rintro ⟨mid, ⟨h1, h2, h3⟩, h4⟩
      exact ⟨h1, h2, mid, h3, h4⟩

theorem Tiles.le {stop pos : Nat} {bs : List Block} (h : Tiles stop pos bs) : pos ≤ stop := by
  induction bs generalizing pos with
  | nil => exact le_of_eq h
  | cons b bs ih =>
    obtain ⟨rfl, _, hrest⟩ := h
    have := ih hrest
    unfold Block.stop at this
    omega

theorem Tiles.mem {stop pos : Nat} {bs : List Block} (h : Tiles stop pos bs) {b : Block}
    (hb : b ∈ bs) : pos ≤ b.addr ∧ b.stop ≤ stop ∧ b.size % 16 = 0 := by
  induction bs generalizing pos with
  | nil => cases hb
  | cons c bs ih =>
    obtain ⟨rfl, h16, hrest⟩ := h
    rcases List.mem_cons.mp hb with rfl | hb
    · exact ⟨le_refl _, hrest.le, h16⟩
    · have := ih hrest hb
      refine ⟨le_trans ?_ this.1, this.2⟩
      unfold Block.stop
      omega

theorem Tiles.pairwise {stop pos : Nat} {bs : List Block} (h : Tiles stop pos bs) :
    bs.Pairwise (fun b c => b.stop ≤ c.addr) := by
  induction bs generalizing pos with
  | nil => exact List.Pairwise.nil
  | cons b bs ih =>
    obtain ⟨rfl, _, hrest⟩ := h
    exact List.Pairwise.cons (fun c hc => (hrest.mem hc).1) (ih hrest)

/-- Different blocks of a tiling do not overlap. -/
theorem Tiles.apart {stop pos : Nat} {bs : List Block} (h : Tiles stop pos bs) {b c : Block}
    (hb : b ∈ bs) (hc : c ∈ bs) (hne : b ≠ c) : b.stop ≤ c.addr ∨ c.stop ≤ b.addr := by
  induction bs generalizing pos with
  | nil => cases hb
  | cons d bs ih =>
    obtain ⟨rfl, _, hrest⟩ := h
    rcases List.mem_cons.mp hb with rfl | hb'
    · rcases List.mem_cons.mp hc with rfl | hc'
      · exact absurd rfl hne
      · exact Or.inl (hrest.mem hc').1
    · rcases List.mem_cons.mp hc with rfl | hc'
      · exact Or.inr (hrest.mem hb').1
      · exact ih hrest hb' hc'

theorem Tiles.addr_inj {stop pos : Nat} {bs : List Block} (h : Tiles stop pos bs) {b c : Block}
    (hb : b ∈ bs) (hc : c ∈ bs) (heq : b.addr = c.addr) : b = c := by
  by_contra hne
  have := h.apart hb hc hne
  simp only [Block.stop, headerSize] at this
  omega

/-! ## Allocation -/

/-- The block that replaces a free block `b` when `size` bytes of it are taken, and the free
rest when it is worth keeping. -/
def carve (size : Nat) (b : Block) : List Block :=
  if b.size > size + headerSize + 1 then
    [⟨b.addr, size, false⟩, ⟨b.addr + headerSize + size, b.size - size - headerSize, true⟩]
  else [⟨b.addr, b.size, false⟩]

/-- The block in use after `carve`. -/
def carved (size : Nat) (b : Block) : Block :=
  ⟨b.addr, if b.size > size + headerSize + 1 then size else b.size, false⟩

theorem tiles_carve {size : Nat} {b : Block} (hs : size % 16 = 0) (hb : b.size % 16 = 0) :
    Tiles b.stop b.addr (carve size b) := by
  unfold carve
  split_ifs with h
  · simp only [Tiles, Block.stop, headerSize, true_and] at *
    omega
  · simp [Tiles, Block.stop, hb]

theorem mem_carve_used {size : Nat} {b c : Block} :
    c ∈ carve size b ∧ c.free = false ↔ c = carved size b := by
  unfold carve carved
  split_ifs with h
  · simp only [List.mem_cons, List.not_mem_nil, or_false]
    constructor
    · rintro ⟨rfl | rfl, hf⟩
      · rfl
      · cases hf
    · rintro rfl
      exact ⟨Or.inl rfl, rfl⟩
  · simp only [List.mem_singleton]
    exact ⟨fun h => h.1, fun h => ⟨h, by rw [h]⟩⟩

theorem le_carved_size {size : Nat} {b : Block} (h : size ≤ b.size) :
    size ≤ (carved size b).size := by
  simp only [carved]
  split_ifs
  · exact le_refl size
  · exact h

/-! ## Freeing -/

/-- Merge every free block with the free blocks behind it, from the front. -/
def merge : List Block → List Block
  | [] => []
  | [b] => [b]
  | b :: c :: rest =>
    if b.free = true ∧ c.free = true then
      merge (⟨b.addr, b.size + (c.size + headerSize), true⟩ :: rest)
    else b :: merge (c :: rest)
  termination_by bs => bs.length

/-- A block that takes over the next one fills the place of both. -/
theorem Tiles.absorb {stop pos : Nat} {b c : Block} {rest : List Block}
    (h : Tiles stop pos (b :: c :: rest)) :
    Tiles stop pos (⟨b.addr, b.size + (c.size + headerSize), true⟩ :: rest) := by
  obtain ⟨rfl, h16, hc, hc16, hrest⟩ := h
  refine ⟨rfl, ?_, ?_⟩
  · simp only [headerSize]
    omega
  · convert hrest using 1
    simp only [Block.stop] at hc ⊢
    omega

theorem tiles_merge {stop pos : Nat} {bs : List Block} (h : Tiles stop pos bs) :
    Tiles stop pos (merge bs) := by
  fun_induction merge bs generalizing pos with
  | case1 => exact h
  | case2 => exact h
  | case3 b c rest hfree ih =>
    exact ih h.absorb
  | case4 b c rest hfree ih =>
    obtain ⟨rfl, h16, hrest⟩ := h
    exact ⟨rfl, h16, ih hrest⟩

/-- Merging leaves the blocks in use as they are. -/
theorem filter_merge (bs : List Block) :
    (merge bs).filter (fun b => !b.free) = bs.filter (fun b => !b.free) := by
  fun_induction merge bs with
  | case1 => rfl
  | case2 => rfl
  | case3 b c rest hfree ih =>
    rw [ih]
    simp [hfree.1, hfree.2]
  | case4 b c rest hfree ih => rw [List.filter_cons, List.filter_cons, ih]

/-- Merging does not move the first block. -/
theorem head?_merge (bs : List Block) :
    (merge bs).head?.map Block.addr = bs.head?.map Block.addr := by
  fun_induction merge bs with
  | case1 => rfl
  | case2 => rfl
  | case3 b c rest hfree ih => rw [ih]; rfl
  | case4 b c rest hfree ih => rfl

/-! ## No two free neighbours -/

/-- Of two neighbouring blocks at most one is free. -/
def Settled (bs : List Block) : Prop := bs.IsChain fun b c => ¬(b.free = true ∧ c.free = true)

/-- Merging does not change whether the first block is free. -/
theorem head?_free_merge (bs : List Block) :
    (merge bs).head?.map Block.free = bs.head?.map Block.free := by
  fun_induction merge bs with
  | case1 => rfl
  | case2 => rfl
  | case3 b c rest hfree ih =>
    rw [ih]
    exact congrArg some hfree.1.symm
  | case4 b c rest hfree ih => rfl

theorem settled_cons {b : Block} {bs : List Block}
    (hhead : ∀ c, bs.head? = some c → ¬(b.free = true ∧ c.free = true)) (h : Settled bs) :
    Settled (b :: bs) := by
  cases bs with
  | nil => exact List.IsChain.singleton b
  | cons c bs => exact List.IsChain.cons_cons (hhead c rfl) h

theorem settled_merge (bs : List Block) : Settled (merge bs) := by
  fun_induction merge bs with
  | case1 => exact List.IsChain.nil
  | case2 b => exact List.IsChain.singleton b
  | case3 b c rest hfree ih => exact ih
  | case4 b c rest hfree ih =>
    apply settled_cons _ ih
    intro d hd
    have hsame := head?_free_merge (c :: rest)
    rw [hd] at hsame
    rw [Option.some.inj hsame]
    exact hfree

/-- The part that is taken from a free block stands between free neighbours. -/
theorem Settled.carve {xs ys : List Block} {b : Block} (size : Nat)
    (hxs : Settled xs) (hys : Settled (b :: ys)) (hfree : b.free = true) :
    Settled (xs ++ (Heap.carve size b ++ ys)) := by
  have hrest : Settled (Heap.carve size b ++ ys) := by
    unfold Heap.carve
    split
    · apply settled_cons
      · intro c _ hc
        cases hc.1
      · apply settled_cons
        · intro c hc hboth
          cases ys with
          | nil => cases hc
          | cons d ys =>
            cases hc
            exact (List.isChain_cons_cons.mp hys).1 ⟨hfree, hboth.2⟩
        · exact hys.tail
    · apply settled_cons
      · intro c _ hc
        cases hc.1
      · exact hys.tail
  apply List.IsChain.append hxs hrest
  intro c _ d hd hboth
  have hused : d.free = false := by
    unfold Heap.carve at hd
    split at hd
    · cases hd
      rfl
    · cases hd
      rfl
  rw [hused] at hboth
  cases hboth.2

/-! ## Expansion -/

theorem tiles_concat {stop pos size : Nat} {bs : List Block} (h : Tiles stop pos bs)
    (h16 : size % 16 = 0) :
    Tiles (stop + headerSize + size) pos (bs ++ [⟨stop, size, true⟩]) :=
  tiles_append.mpr ⟨stop, h, rfl, h16, rfl⟩

end Kyuzen.Heap
