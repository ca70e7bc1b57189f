import Kyuzen.Heap.Refinement

/-!
# Expanding the heap

`Rep M s bs` ties a state of the heap to its list of blocks: the list starts at `heap_head`,
its headers stand in memory, it tiles the heap up to `current_heap_end`, and the mapped pages
are exactly the pages of the heap. An expansion that runs out of physical pages is undone to
the same `Rep`; one that succeeds appends a free block (`expandHeap_cases`).
-/

namespace Kyuzen.Heap

open Lib.Memory

/-- The pages from the start of the heap to `stop`. -/
def heapPages (stop : Nat) : Finset Nat :=
  (Finset.range ((stop - heapStart) / pageSize)).image fun i => heapStart + i * pageSize

/-- The heap in state `s` is the list of blocks `bs`. -/
structure Rep (M : Machine) (s : State) (bs : List Block) : Prop where
  head : s.heapHead = ptrOr bs 0
  seg : Seg s.mem bs 0
  tiles : Tiles s.currentHeapEnd heapStart bs
  mapped : s.mapped = heapPages s.currentHeapEnd
  aligned : s.currentHeapEnd % pageSize = 0
  bounded : s.currentHeapEnd ≤ heapStart + M.pages * pageSize

/-! ## Heap pages -/

theorem mem_heapPages {stop x : Nat} :
    x ∈ heapPages stop ↔ heapStart ≤ x ∧ x + pageSize ≤ stop ∧ x % pageSize = 0 := by
  simp only [heapPages, Finset.mem_image, Finset.mem_range, pageSize, heapStart]
  constructor
  · rintro ⟨i, hi, rfl⟩
    omega
  · intro hx
    exact ⟨(x - 0xFFFF900000000000) / 4096, by omega, by omega⟩

theorem card_heapPages (stop : Nat) :
    (heapPages stop).card = (stop - heapStart) / pageSize := by
  rw [heapPages, Finset.card_image_of_injective, Finset.card_range]
  intro i j hij
  simp only [pageSize] at hij
  omega

theorem Machine.heap_lt (M : Machine) : heapStart + M.pages * pageSize < 2 ^ 64 := by
  have h := M.directMap
  have hs : heapStart = 0xFFFF900000000000 := rfl
  have hd : hhdmStart = 0xFFFF800000000000 := rfl
  omega

theorem Tiles.length_le {stop pos : Nat} {bs : List Block} (h : Tiles stop pos bs) :
    pos + headerSize * bs.length ≤ stop := by
  induction bs generalizing pos with
  | nil => simpa using le_of_eq h
  | cons b bs ih =>
    obtain ⟨rfl, _, hrest⟩ := h
    have := ih hrest
    rw [List.length_cons, Nat.mul_succ]
    unfold Block.stop at this
    omega

namespace Rep

variable {M : Machine} {s : State} {bs : List Block}

theorem end_lt (h : Rep M s bs) : s.currentHeapEnd < 2 ^ 64 :=
  lt_of_le_of_lt h.bounded M.heap_lt

theorem start_le (h : Rep M s bs) : heapStart ≤ s.currentHeapEnd := h.tiles.le

/-- A walk over the list has enough fuel. -/
theorem length_lt (h : Rep M s bs) : bs.length < walkFuel := by
  have h1 := h.tiles.length_le
  have h2 := h.end_lt
  simp only [headerSize, walkFuel] at *
  omega

theorem addr_pos (h : Rep M s bs) {b : Block} (hb : b ∈ bs) : 0 < b.addr := by
  have := (h.tiles.mem hb).1
  have hs : heapStart = 0xFFFF900000000000 := rfl
  omega

theorem stop_lt (h : Rep M s bs) {b : Block} (hb : b ∈ bs) : b.stop < 2 ^ 64 :=
  lt_of_le_of_lt (h.tiles.mem hb).2.1 h.end_lt

end Rep

/-! ## Mapping pages -/

/-- `s'` is `s` with `n` more heap pages. -/
structure Grown (M : Machine) (s s' : State) (n : Nat) : Prop where
  head : s'.heapHead = s.heapHead
  stop : s'.currentHeapEnd = s.currentHeapEnd + n * pageSize
  mapped : s'.mapped = heapPages s'.currentHeapEnd
  bounded : s'.currentHeapEnd ≤ heapStart + M.pages * pageSize
  mem : ∀ x, x < s.currentHeapEnd → s'.mem x = s.mem x

theorem insert_heapPages {stop : Nat} (hle : heapStart ≤ stop) (hal : stop % pageSize = 0) :
    insert (pageOf stop) (heapPages stop) = heapPages (stop + pageSize) := by
  ext x
  rw [Finset.mem_insert, mem_heapPages, mem_heapPages]
  simp only [pageOf, pageSize, heapStart] at *
  omega

theorem vmmAllocPageKernel_grown {M : Machine} {granted : Bool} {stale : Mem} {s s' : State}
    (hle : heapStart ≤ s.currentHeapEnd) (hal : s.currentHeapEnd % pageSize = 0)
    (hmap : s.mapped = heapPages s.currentHeapEnd)
    (hrun : vmmAllocPageKernel M granted stale s s.currentHeapEnd = some s') :
    Grown M s { s' with currentHeapEnd := add64 s'.currentHeapEnd pageSize } 1 := by
  have hp : pageSize = 4096 := rfl
  unfold vmmAllocPageKernel at hrun
  split_ifs at hrun with hcond
  obtain ⟨_, hcard⟩ := hcond
  rw [hmap, card_heapPages] at hcard
  have hlt := M.heap_lt
  have hroom : s.currentHeapEnd + pageSize ≤ heapStart + M.pages * pageSize := by
    simp only [pageSize, heapStart] at *
    omega
  have hpage : pageOf s.currentHeapEnd = s.currentHeapEnd := by
    simp only [pageOf, pageSize] at *
    omega
  have hadd : add64 s.currentHeapEnd pageSize = s.currentHeapEnd + pageSize :=
    Nat.mod_eq_of_lt (by omega)
  cases hrun
  refine ⟨rfl, ?_, ?_, ?_, fun x hx => ?_⟩
  · dsimp only
    omega
  · dsimp only
    rw [hadd, hmap, insert_heapPages hle hal]
  · dsimp only
    omega
  · exact fill_outside (Or.inl (by omega))

theorem mapPages_grown {M : Machine} {grants : Nat → Bool} {stale : Mem} :
    ∀ {count i : Nat} {s s' : State} {done : Bool}, heapStart ≤ s.currentHeapEnd →
      s.currentHeapEnd % pageSize = 0 → s.currentHeapEnd ≤ heapStart + M.pages * pageSize →
      s.mapped = heapPages s.currentHeapEnd →
      mapPages M grants stale count i s = (s', done) →
      ∃ n, Grown M s s' n ∧ (done = true → n = count) := by
  have hp : pageSize = 4096 := rfl
  intro count
  induction count with
  | zero =>
    intro i s s' done _ _ hb hmap hrun
    cases hrun
    exact ⟨0, ⟨rfl, by simp, hmap, hb, fun _ _ => rfl⟩, fun _ => rfl⟩
  | succ count ih =>
    intro i s s' done hle hal hb hmap hrun
    rw [mapPages] at hrun
    cases hpage : vmmAllocPageKernel M (grants i) stale s s.currentHeapEnd with
    | none =>
      rw [hpage] at hrun
      cases hrun
      exact ⟨0, ⟨rfl, by simp, hmap, hb, fun _ _ => rfl⟩, by simp⟩
    | some s₁ =>
      rw [hpage] at hrun
      have hone := vmmAllocPageKernel_grown hle hal hmap hpage
      have hstop := hone.stop
      dsimp only at hstop
      rw [Nat.one_mul] at hstop
      have hal' : add64 s₁.currentHeapEnd pageSize % pageSize = 0 := by
        rw [hstop, Nat.add_mod_right, hal]
      have hle' : heapStart ≤ add64 s₁.currentHeapEnd pageSize := by
        rw [hstop]
        exact Nat.le_add_right_of_le hle
      obtain ⟨n, hn, hdone⟩ :=
        ih (s := { s₁ with currentHeapEnd := add64 s₁.currentHeapEnd pageSize })
          hle' hal' hone.bounded hone.mapped hrun
      have hstop' := hn.stop
      dsimp only at hstop'
      refine ⟨n + 1, ⟨hn.head.trans hone.head, ?_, hn.mapped, hn.bounded, fun x hx => ?_⟩,
        fun h => by rw [hdone h]⟩
      · rw [Nat.succ_mul]
        omega
      · rw [hn.mem x (by dsimp only; omega), hone.mem x hx]

theorem mem_unmapPages {start n x : Nat} {s : State} :
    x ∈ (unmapPages start n s).mapped ↔
      x ∈ s.mapped ∧ ∀ j, j < n → x ≠ pageOf (add64 start (j * pageSize)) := by
  induction n with
  | zero => simp [unmapPages]
  | succ n ih =>
    simp only [unmapPages, unmapPage, Finset.mem_erase, ih]
    constructor
    · rintro ⟨hne, hx, hall⟩
      refine ⟨hx, fun j hj => ?_⟩
      rcases Nat.lt_succ_iff_lt_or_eq.mp hj with hj | rfl
      · exact hall j hj
      · exact hne
    · rintro ⟨hx, hall⟩
      exact ⟨hall n (by omega), hx, fun j hj => hall j (by omega)⟩

theorem unmapPages_frame (start n : Nat) (s : State) :
    (unmapPages start n s).mem = s.mem ∧ (unmapPages start n s).heapHead = s.heapHead := by
  induction n with
  | zero => exact ⟨rfl, rfl⟩
  | succ n ih => exact ih

/-- The rollback takes away exactly the pages of the failed expansion. -/
theorem unmapPages_grown {M : Machine} {s s' : State} {n : Nat} (h : Grown M s s' n)
    (hal : s.currentHeapEnd % pageSize = 0) :
    (unmapPages s.currentHeapEnd n s').mapped = heapPages s.currentHeapEnd := by
  have hlt := M.heap_lt
  have hb := h.bounded
  have hstop := h.stop
  have hpage : ∀ j, j < n → pageOf (add64 s.currentHeapEnd (j * pageSize)) =
      s.currentHeapEnd + j * pageSize := by
    intro j hj
    simp only [pageOf, add64, pageSize] at *
    omega
  ext x
  rw [mem_unmapPages, h.mapped, mem_heapPages, mem_heapPages]
  simp only [pageSize] at *
  constructor
  · rintro ⟨⟨h1, h2, h3⟩, hall⟩
    refine ⟨h1, ?_, h3⟩
    by_contra hx
    have hj : (x - s.currentHeapEnd) / 4096 < n := by omega
    refine hall _ hj ?_
    rw [hpage _ hj]
    omega
  · rintro ⟨h1, h2, h3⟩
    refine ⟨⟨h1, by omega, h3⟩, fun j hj => ?_⟩
    rw [hpage j hj]
    omega

/-! ## The expansion -/

theorem pagesFor_mul (n : Nat) : pagesFor (n * pageSize) = n := by
  unfold pagesFor
  rw [Nat.mul_mod_left, if_pos rfl, Nat.mul_div_cancel _ (by decide), Nat.add_zero]

theorem le_pagesFor (n : Nat) : n ≤ pagesFor n * pageSize := by
  unfold pagesFor
  split_ifs with h <;> simp only [pageSize] at * <;> omega

/-- The header `expand_heap` writes at the start of the new pages. -/
theorem freshHeader (m : Mem) (start : Nat) {size : Nat} (hsize : size < 2 ^ 64) :
    HeaderAt (setNext (setIsFree (setSize (setMagic m start heapMagic) start size) start 1)
      start 0) ⟨start, size, true⟩ 0 := by
  refine ⟨?_, ?_, ?_, ?_⟩
  all_goals
    simp (disch := omega) only [magicOf, sizeOf, isFreeOf, nextOf, setMagic, setSize, setIsFree,
      setNext, load_store_of_disjoint, load_store]
  · decide
  · omega
  · decide
  · decide

theorem freshHeader_outside {m : Mem} {start size x : Nat}
    (hx : x < start ∨ start + headerSize ≤ x) :
    setNext (setIsFree (setSize (setMagic m start heapMagic) start size) start 1) start 0 x =
      m x := by
  have hh : headerSize = 32 := rfl
  simp (disch := omega) only [setMagic, setSize, setIsFree, setNext, store_outside]

/-- The payloads of the blocks `bs` are the same in both memories. -/
def SamePayloads (bs : List Block) (m m' : Mem) : Prop :=
  ∀ b ∈ bs, ∀ x, b.payload ≤ x → x < b.stop → m' x = m x

/-- The heap is as it was: its list, its pages and what they hold. -/
structure SameHeap (s s' : State) : Prop where
  head : s'.heapHead = s.heapHead
  stop : s'.currentHeapEnd = s.currentHeapEnd
  mapped : s'.mapped = s.mapped
  mem : ∀ x, x < s.currentHeapEnd → s'.mem x = s.mem x

theorem SameHeap.refl (s : State) : SameHeap s s := ⟨rfl, rfl, rfl, fun _ _ => rfl⟩

theorem samePayloads_of_below {m m' : Mem} {stop pos : Nat} {bs : List Block}
    (htile : Tiles stop pos bs) (hm : ∀ x, x < stop → m' x = m x) : SamePayloads bs m m' :=
  fun _ hb x _ hx => hm x (lt_of_lt_of_le hx (htile.mem hb).2.1)

theorem SameHeap.samePayloads {M : Machine} {s s' : State} {bs : List Block} (h : SameHeap s s')
    (hrep : Rep M s bs) : SamePayloads bs s.mem s'.mem := samePayloads_of_below hrep.tiles h.mem

theorem SameHeap.rep {M : Machine} {s s' : State} {bs : List Block} (h : SameHeap s s')
    (hrep : Rep M s bs) : Rep M s' bs := by
  refine ⟨h.head.trans hrep.head, ?_, ?_, ?_, ?_, ?_⟩
  · refine seg_congr (fun b hb x _ hx => h.mem x ?_) hrep.seg
    have := (hrep.tiles.mem hb).2.1
    unfold Block.stop at this
    omega
  · rw [h.stop]
    exact hrep.tiles
  · rw [h.mapped, h.stop]
    exact hrep.mapped
  · rw [h.stop]
    exact hrep.aligned
  · rw [h.stop]
    exact hrep.bounded

/-- Writing the link of one block leaves every payload alone. -/
theorem setNext_samePayloads {m : Mem} {stop pos v : Nat} {bs : List Block} {l : Block}
    (htile : Tiles stop pos bs) (hl : l ∈ bs) : SamePayloads bs m (setNext m l.addr v) := by
  have hh : headerSize = 32 := rfl
  intro b hb x hx hx'
  refine store_outside ?_
  by_cases hbl : b = l
  · subst hbl
    unfold Block.payload at hx
    omega
  · have := htile.apart hb hl hbl
    simp only [Block.payload, Block.stop] at *
    omega

/-- The list in memory after the header of a new block at the end of the heap is written and
linked. -/
theorem link_rep {M : Machine} {s s' : State} {bs : List Block} {n : Nat} {m : Mem}
    (h : Rep M s bs) (hgrown : Grown M s s' (n + 1)) (hm : ∀ x, x < s.currentHeapEnd → m x = s.mem x)
    (hnew : HeaderAt m ⟨s.currentHeapEnd, (n + 1) * pageSize - headerSize, true⟩ 0) :
    ∃ s'', (if s'.heapHead = 0 then
        .ok (s.currentHeapEnd, { s' with mem := m, heapHead := s.currentHeapEnd })
      else do
        let curr ← lastBlock m walkFuel s'.heapHead
        return (s.currentHeapEnd, { s' with mem := setNext m curr s.currentHeapEnd })) =
      (.ok (s.currentHeapEnd, s'') : Except Halt (Nat × State)) ∧
      Rep M s'' (bs ++ [⟨s.currentHeapEnd, (n + 1) * pageSize - headerSize, true⟩]) ∧
      SamePayloads bs s.mem s''.mem := by
  have hh : headerSize = 32 := rfl
  have hp : pageSize = 4096 := rfl
  have hmul : (n + 1) * pageSize = n * pageSize + pageSize := Nat.succ_mul _ _
  have hseg : Seg m bs 0 := by
    refine seg_congr (fun b hb x _ hx => hm x ?_) h.seg
    have := (h.tiles.mem hb).2.1
    unfold Block.stop at this
    omega
  have htiles : Tiles s'.currentHeapEnd heapStart
      (bs ++ [⟨s.currentHeapEnd, (n + 1) * pageSize - headerSize, true⟩]) := by
    have h16 : ((n + 1) * pageSize - headerSize) % 16 = 0 := by
      simp only [pageSize, headerSize]
      omega
    rw [hgrown.stop]
    convert tiles_concat h.tiles h16 using 1
    omega
  have halign : s'.currentHeapEnd % pageSize = 0 := by
    rw [hgrown.stop, Nat.add_mul_mod_self_right, h.aligned]
  rw [hgrown.head, h.head]
  rcases List.eq_nil_or_concat bs with rfl | ⟨init, l, rfl⟩
  · rw [ptrOr, if_pos rfl]
    exact ⟨_, rfl, ⟨rfl, ⟨hnew, trivial⟩, htiles, hgrown.mapped, halign, hgrown.bounded⟩,
      fun b hb => by cases hb⟩
  · rw [List.concat_eq_append] at *
    have hl : l ∈ init ++ [l] := List.mem_append_right _ List.mem_cons_self
    have hne : ptrOr (init ++ [l]) 0 ≠ 0 := by
      rcases init with _ | ⟨b, init⟩
      · exact (h.addr_pos hl).ne'
      · exact (h.addr_pos List.mem_cons_self).ne'
    have hlen : init.length < walkFuel := by
      have := h.length_lt
      rw [List.length_append] at this
      omega
    have hpos : 0 < heapStart := by decide
    have hlast : lastBlock m walkFuel (ptrOr (init ++ [l]) 0) = .ok l.addr :=
      lastBlock_eq hseg h.tiles hpos hlen
    rw [if_neg hne, hlast]
    refine ⟨_, rfl, ⟨?_, ?_, htiles, hgrown.mapped, halign, hgrown.bounded⟩, ?_⟩
    · cases init <;> rfl
    · exact append_seg hseg h.tiles hnew (le_refl _) h.end_lt
    · intro b hb x hx hx'
      dsimp only
      rw [setNext_samePayloads h.tiles hl b hb x hx hx']
      exact samePayloads_of_below h.tiles hm b hb x hx hx'

/-- An expansion either fails and leaves the heap as it was, or appends a free block that holds
the request. -/
theorem expandHeap_cases {M : Machine} (grants : Nat → Bool) (stale : Mem) {s : State}
    {bs : List Block} {size : Nat} (h : Rep M s bs) (hsize : size + headerSize < 2 ^ 64) :
    ∃ s', expandHeap M grants stale s size = .ok (0, s') ∧ SameHeap s s' ∨
      ∃ extra, expandHeap M grants stale s size = .ok (s.currentHeapEnd, s') ∧ size ≤ extra ∧
        Rep M s' (bs ++ [⟨s.currentHeapEnd, extra, true⟩]) ∧ SamePayloads bs s.mem s'.mem := by
  have hh : headerSize = 32 := rfl
  have htotal : add64 size headerSize = size + headerSize := Nat.mod_eq_of_lt hsize
  unfold expandHeap
  simp only [htotal]
  cases hmap : mapPages M grants stale (pagesFor (size + headerSize)) 0 s with
  | mk s' done =>
    obtain ⟨n, hgrown, hdone⟩ := mapPages_grown h.start_le h.aligned h.bounded h.mapped hmap
    have hstop := hgrown.stop
    have hlt : s'.currentHeapEnd < 2 ^ 64 := lt_of_le_of_lt hgrown.bounded M.heap_lt
    cases done with
    | false =>
      have hback : sub64 s'.currentHeapEnd s.currentHeapEnd = n * pageSize := by
        unfold sub64
        omega
      have hframe := unmapPages_frame s.currentHeapEnd n s'
      dsimp only
      rw [hback, pagesFor_mul]
      refine ⟨_, Or.inl ⟨rfl, hframe.2.trans hgrown.head, rfl, ?_, ?_⟩⟩
      · show (unmapPages s.currentHeapEnd n s').mapped = s.mapped
        rw [unmapPages_grown hgrown h.aligned, h.mapped]
      · intro x hx
        show (unmapPages s.currentHeapEnd n s').mem x = s.mem x
        rw [hframe.1]
        exact hgrown.mem x hx
    | true =>
      have hroom := le_pagesFor (size + headerSize)
      rw [← hdone rfl] at hroom ⊢
      obtain ⟨k, rfl⟩ : ∃ k, n = k + 1 := by
        refine ⟨n - 1, (Nat.succ_pred_eq_of_ne_zero ?_).symm⟩
        rintro rfl
        omega
      have hend : (k + 1) * pageSize < 2 ^ 64 := by omega
      have hmod : sub64 ((k + 1) * pageSize % 2 ^ 64) headerSize =
          (k + 1) * pageSize - headerSize := by
        rw [Nat.mod_eq_of_lt hend]
        unfold sub64
        omega
      dsimp only
      rw [hmod]
      have hnew := freshHeader s'.mem s.currentHeapEnd
        (show (k + 1) * pageSize - headerSize < 2 ^ 64 by omega)
      obtain ⟨s'', hrun, hrep, hsame⟩ := link_rep h hgrown
        (fun x hx => (freshHeader_outside (Or.inl hx)).trans (hgrown.mem x hx)) hnew
      exact ⟨s'', Or.inr ⟨_, hrun, by omega, hrep, hsame⟩⟩

end Kyuzen.Heap
