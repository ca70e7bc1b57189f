import Kyuzen.Heap.Blocks

/-!
# The block list in memory

`Seg m bs next` says that memory holds the headers of the blocks `bs`, linked in order, the
last one pointing to `next`. A segment reads only its headers (`seg_congr`), and segments
compose (`seg_append`); so each walk of `heap.c` is followed on the list, and each write is
checked on the one or two blocks it is about:

* `findFit_eq`: the first-fit walk is `List.find?`;
* `takeBlock_seg`: splitting and taking a block writes `carve`;
* `lastBlock_eq`, `append_seg`: the walk and the link of an expansion;
* `coalesce_seg`: the merging walk writes `merge`.
-/

namespace Kyuzen.Heap

open Lib.Memory

/-- The header of `b` stands in memory, with link `next`. -/
structure HeaderAt (m : Mem) (b : Block) (next : Nat) : Prop where
  magic : magicOf m b.addr = heapMagic
  size : sizeOf m b.addr = b.size
  isFree : isFreeOf m b.addr = if b.free then 1 else 0
  next : nextOf m b.addr = next

/-- The address of the first block, or `next` when there is none. -/
def ptrOr : List Block → Nat → Nat
  | [], next => next
  | b :: _, _ => b.addr

def Seg (m : Mem) : List Block → Nat → Prop
  | [], _ => True
  | b :: rest, next => HeaderAt m b (ptrOr rest next) ∧ Seg m rest next

theorem headerAt_congr {m m' : Mem} {b : Block} {next : Nat}
    (hm : ∀ x, b.addr ≤ x → x < b.addr + headerSize → m' x = m x) (h : HeaderAt m b next) :
    HeaderAt m' b next := by
  simp only [headerSize] at hm
  obtain ⟨h1, h2, h3, h4⟩ := h
  refine ⟨?_, ?_, ?_, ?_⟩
  · rw [← h1]
    exact load_congr fun x hx hx' => hm x (by omega) (by omega)
  · rw [← h2]
    exact load_congr fun x hx hx' => hm x (by omega) (by omega)
  · rw [← h3]
    exact load_congr fun x hx hx' => hm x (by omega) (by omega)
  · rw [← h4]
    exact load_congr fun x hx hx' => hm x (by omega) (by omega)

theorem seg_congr {m m' : Mem} {bs : List Block} {next : Nat}
    (hm : ∀ b ∈ bs, ∀ x, b.addr ≤ x → x < b.addr + headerSize → m' x = m x)
    (h : Seg m bs next) : Seg m' bs next := by
  induction bs with
  | nil => trivial
  | cons b bs ih =>
    exact ⟨headerAt_congr (hm b List.mem_cons_self) h.1,
      ih (fun c hc => hm c (List.mem_cons_of_mem _ hc)) h.2⟩

theorem seg_append {m : Mem} {xs ys : List Block} {next : Nat} :
    Seg m (xs ++ ys) next ↔ Seg m xs (ptrOr ys next) ∧ Seg m ys next := by
  induction xs with
  | nil => simp [Seg]
  | cons b xs ih =>
    have hptr : ptrOr (xs ++ ys) next = ptrOr xs (ptrOr ys next) := by
      cases xs <;> rfl
    simp only [List.cons_append, Seg, ih, hptr, and_assoc]

theorem seg_mem {m : Mem} {bs : List Block} {next : Nat} (h : Seg m bs next) {b : Block}
    (hb : b ∈ bs) : ∃ link, HeaderAt m b link := by
  induction bs with
  | nil => cases hb
  | cons c bs ih =>
    rcases List.mem_cons.mp hb with rfl | hb
    · exact ⟨_, h.1⟩
    · exact ih h.2 hb

theorem HeaderAt.next_lt {m : Mem} {b : Block} {next : Nat} (h : HeaderAt m b next) :
    next < 2 ^ 64 := by
  rw [← h.next]
  exact load_lt m _ 8

theorem HeaderAt.isFree_ne {m : Mem} {b : Block} {next : Nat} (h : HeaderAt m b next) :
    isFreeOf m b.addr ≠ 0 ↔ b.free = true := by
  rw [h.isFree]
  cases b.free <;> simp

/-! ## The first-fit walk -/

/-- The blocks `kmalloc` is looking for. -/
def fits (size : Nat) (b : Block) : Bool := b.free && decide (size ≤ b.size)

theorem findFit_eq {m : Mem} {size stop : Nat} :
    ∀ {bs : List Block} {pos fuel : Nat}, Seg m bs 0 → Tiles stop pos bs → 0 < pos →
      bs.length < fuel →
      findFit m size fuel (ptrOr bs 0) = .ok ((bs.find? (fits size)).map Block.addr) := by
  intro bs
  induction bs with
  | nil =>
    intro pos fuel _ _ _ hf
    obtain ⟨fuel, rfl⟩ := Nat.exists_eq_succ_of_ne_zero (by omega : fuel ≠ 0)
    rfl
  | cons b bs ih =>
    intro pos fuel hseg htile hpos hf
    obtain ⟨fuel, rfl⟩ := Nat.exists_eq_succ_of_ne_zero (by omega : fuel ≠ 0)
    obtain ⟨hhead, hrest⟩ := hseg
    obtain ⟨rfl, _, htrest⟩ := htile
    have hne : b.addr ≠ 0 := by omega
    rw [List.find?_cons]
    unfold findFit
    simp only [ptrOr, hne, if_false, hhead.magic, hhead.size, hhead.isFree_ne, hhead.next,
      ne_eq, not_true_eq_false, ge_iff_le]
    by_cases hfit : b.free = true ∧ size ≤ b.size
    · have : fits size b = true := by simp [fits, hfit.1, hfit.2]
      rw [if_pos hfit, this]
      rfl
    · have : fits size b = false := by
        rw [← Bool.not_eq_true]
        simpa [fits] using hfit
      rw [if_neg hfit, this]
      refine ih hrest htrest ?_ (by simpa using hf)
      unfold Block.stop
      omega

/-! ## Taking a block -/

theorem splitBlock_seg {m : Mem} {b : Block} {next size : Nat} (h : HeaderAt m b next)
    (hstop : b.stop < 2 ^ 64) (hbig : b.size > size + headerSize + 1) :
    Seg (splitBlock m b.addr size) [⟨b.addr, size, b.free⟩,
      ⟨b.addr + headerSize + size, b.size - size - headerSize, true⟩] next := by
  have hh : headerSize = 32 := rfl
  have hnext := h.next_lt
  obtain ⟨h1, h2, h3, h4⟩ := h
  unfold Block.stop at hstop
  have hcond : sizeOf m b.addr > add64 (add64 size headerSize) 1 := by
    rw [h2]
    simp only [add64]
    omega
  have hnew : add64 (add64 b.addr headerSize) size = b.addr + headerSize + size := by
    simp only [add64]
    omega
  have hsub : sub64 (sub64 b.size size) headerSize = b.size - size - headerSize := by
    simp only [sub64]
    omega
  unfold splitBlock
  rw [if_pos hcond, hnew]
  simp only [magicOf, sizeOf, isFreeOf, nextOf] at h1 h2 h3 h4
  refine ⟨⟨?_, ?_, ?_, ?_⟩, ⟨?_, ?_, ?_, ?_⟩, trivial⟩
  all_goals
    simp (disch := omega) only [magicOf, sizeOf, isFreeOf, nextOf, setMagic, setSize, setIsFree,
      setNext, load_store_of_disjoint, load_store, h1, h2, h3, h4, ptrOr, hsub]
  all_goals
    first
    | omega
    | decide

theorem setIsFree_headerAt {m : Mem} {b : Block} {next : Nat} (h : HeaderAt m b next)
    (free : Bool) : HeaderAt (setIsFree m b.addr (if free then 1 else 0))
      ⟨b.addr, b.size, free⟩ next := by
  obtain ⟨h1, h2, h3, h4⟩ := h
  simp only [magicOf, sizeOf, isFreeOf, nextOf] at h1 h2 h3 h4
  refine ⟨?_, ?_, ?_, ?_⟩
  all_goals
    simp (disch := omega) only [magicOf, sizeOf, isFreeOf, nextOf, setIsFree,
      load_store_of_disjoint, load_store, h1, h2, h4]
  cases free <;> rfl

/-- Taking a block that fits leaves `carve` of it in memory. -/
theorem takeBlock_seg {m : Mem} {b : Block} {next size : Nat} (h : HeaderAt m b next)
    (hpos : 0 < b.addr) (hstop : b.stop < 2 ^ 64) (hsize : size ≤ b.size) :
    Seg (takeBlock m b.addr size) (carve size b) next := by
  have hh : headerSize = 32 := rfl
  unfold takeBlock carve
  by_cases hbig : b.size > size + headerSize + 1
  · obtain ⟨hfirst, hrest⟩ := splitBlock_seg h hstop hbig
    rw [if_pos hbig]
    refine ⟨setIsFree_headerAt hfirst false, seg_congr (fun c hc x hx hx' => ?_) hrest⟩
    rw [List.mem_singleton] at hc
    subst hc
    exact store_outside (by dsimp only at hx; omega)
  · have hcond : ¬ sizeOf m b.addr > add64 (add64 size headerSize) 1 := by
      unfold Block.stop at hstop
      rw [h.size]
      simp only [add64]
      omega
    rw [if_neg hbig, splitBlock, if_neg hcond]
    exact ⟨setIsFree_headerAt h false, trivial⟩

theorem takeBlock_outside {m : Mem} {b : Block} {next size x : Nat} (h : HeaderAt m b next)
    (hpos : 0 < b.addr) (hstop : b.stop < 2 ^ 64) (hsize : size ≤ b.size) (hx : x < b.addr ∨ b.stop ≤ x) :
    takeBlock m b.addr size x = m x := by
  have hh : headerSize = 32 := rfl
  unfold Block.stop at hstop hx
  unfold takeBlock splitBlock
  rw [h.size]
  split_ifs with hcond
  · have hnew : add64 (add64 b.addr headerSize) size = b.addr + headerSize + size := by
      simp only [add64]
      omega
    simp only [add64] at hcond
    rw [hnew]
    simp (disch := omega) only [setMagic, setSize, setIsFree, setNext, store_outside]
  · exact store_outside (by omega)

/-! ## Appending a block -/

theorem lastBlock_eq {m : Mem} {stop : Nat} {l : Block} :
    ∀ {bs : List Block} {pos fuel : Nat}, Seg m (bs ++ [l]) 0 → Tiles stop pos (bs ++ [l]) →
      0 < pos → bs.length < fuel → lastBlock m fuel (ptrOr (bs ++ [l]) 0) = .ok l.addr := by
  intro bs
  induction bs with
  | nil =>
    intro pos fuel hseg _ _ hf
    obtain ⟨fuel, rfl⟩ := Nat.exists_eq_succ_of_ne_zero (by omega : fuel ≠ 0)
    have hlink : nextOf m l.addr = 0 := hseg.1.next
    simp [lastBlock, ptrOr, hlink]
  | cons b bs ih =>
    intro pos fuel hseg htile hpos hf
    obtain ⟨fuel, rfl⟩ := Nat.exists_eq_succ_of_ne_zero (by omega : fuel ≠ 0)
    obtain ⟨hhead, hrest⟩ := hseg
    obtain ⟨rfl, _, htrest⟩ := htile
    have hpos' : 0 < b.stop := by
      unfold Block.stop
      omega
    have hlink : nextOf m b.addr ≠ 0 := by
      rw [hhead.next]
      cases bs with
      | nil =>
        obtain ⟨haddr, _⟩ := htrest
        change l.addr ≠ 0
        omega
      | cons c bs =>
        obtain ⟨haddr, _⟩ := htrest
        change c.addr ≠ 0
        omega
    rw [List.cons_append, lastBlock, ptrOr, if_neg hlink, hhead.next]
    exact ih hrest htrest hpos' (by simpa using hf)

/-- Linking a new block behind the last one. -/
theorem append_seg {m : Mem} {stop pos : Nat} {bs : List Block} {l new : Block}
    (hseg : Seg m (bs ++ [l]) 0) (htile : Tiles stop pos (bs ++ [l])) (hnew : HeaderAt m new 0)
    (hstop : stop ≤ new.addr) (hlt : new.addr < 2 ^ 64) :
    Seg (setNext m l.addr new.addr) (bs ++ [l] ++ [new]) 0 := by
  have hh : headerSize = 32 := rfl
  obtain ⟨hbs, hl, _⟩ := seg_append.mp hseg
  have hlmem : l.stop ≤ stop := (htile.mem (List.mem_append_right bs List.mem_cons_self)).2.1
  have hout : ∀ x, x < l.addr ∨ l.addr + headerSize ≤ x → setNext m l.addr new.addr x = m x :=
    fun x hx => store_outside (by omega)
  rw [List.append_assoc, seg_append]
  refine ⟨seg_congr (fun b hb x hx hx' => hout x (Or.inl ?_)) hbs, ?_, ?_, trivial⟩
  · obtain ⟨mid, hpre, haddr, _⟩ := tiles_append.mp htile
    have := (hpre.mem hb).2.1
    simp only [Block.stop] at this
    omega
  · obtain ⟨h1, h2, h3, h4⟩ := hl
    simp only [magicOf, sizeOf, isFreeOf] at h1 h2 h3
    refine ⟨?_, ?_, ?_, ?_⟩
    all_goals
      simp (disch := omega) only [magicOf, sizeOf, isFreeOf, nextOf, setNext,
        load_store_of_disjoint, load_store, h1, h2, h3]
    exact Nat.mod_eq_of_lt hlt
  · refine headerAt_congr (fun x hx hx' => hout x (Or.inr ?_)) hnew
    simp only [Block.stop] at hlmem
    omega

/-! ## The merging walk -/

theorem ptrOr_merge (bs : List Block) (next : Nat) : ptrOr (merge bs) next = ptrOr bs next := by
  have h := head?_merge bs
  cases hm : merge bs with
  | nil => cases bs with
    | nil => rfl
    | cons b bs => simp [hm] at h
  | cons c cs => cases bs with
    | nil => simp [hm] at h
    | cons b bs => simpa [hm, ptrOr] using h

/-- One merge: the header of the first of two free neighbours takes over the second. -/
theorem mergeStep_headerAt {m : Mem} {b c : Block} {next : Nat} (hb : HeaderAt m b c.addr)
    (hc : HeaderAt m c next) (hbc : c.addr = b.stop) (hstop : c.stop < 2 ^ 64)
    (hfree : b.free = true) :
    HeaderAt (setNext (setSize m b.addr (add64 b.size (add64 c.size headerSize))) b.addr
      (nextOf (setSize m b.addr (add64 b.size (add64 c.size headerSize))) c.addr))
      ⟨b.addr, b.size + (c.size + headerSize), true⟩ next := by
  have hh : headerSize = 32 := rfl
  have hnext := hc.next_lt
  obtain ⟨h1, h2, h3, h4⟩ := hb
  have hc4 := hc.next
  unfold Block.stop at hbc hstop
  have hadd : add64 b.size (add64 c.size headerSize) = b.size + (c.size + headerSize) := by
    simp only [add64]
    omega
  simp only [magicOf, sizeOf, isFreeOf, nextOf] at h1 h2 h3 hc4
  rw [hadd]
  refine ⟨?_, ?_, ?_, ?_⟩
  all_goals
    simp (disch := omega) only [magicOf, sizeOf, isFreeOf, nextOf, setNext, setSize,
      load_store_of_disjoint, load_store, h1, h3, hc4]
  · omega
  · simp [hfree]
  · omega

/-- One merge in the memory: it writes to the header of the first block only. -/
theorem mergeStep_seg {m m₂ : Mem} {b c : Block} {rest : List Block} {stop pos : Nat}
    (hseg : Seg m (b :: c :: rest) 0) (htile : Tiles stop pos (b :: c :: rest))
    (hstop : stop < 2 ^ 64) (hfree : b.free = true)
    (hm : setNext (setSize m b.addr (add64 b.size (add64 c.size headerSize))) b.addr
      (nextOf (setSize m b.addr (add64 b.size (add64 c.size headerSize))) c.addr) = m₂) :
    Seg m₂ (⟨b.addr, b.size + (c.size + headerSize), true⟩ :: rest) 0 ∧
      ∀ x, x < b.addr ∨ b.addr + headerSize ≤ x → m₂ x = m x := by
  have hh : headerSize = 32 := rfl
  obtain ⟨hb, hc, hrest⟩ := hseg
  obtain ⟨rfl, _, hbc, _, htrest⟩ := htile
  have hcstop : c.stop < 2 ^ 64 := lt_of_le_of_lt htrest.le hstop
  have hout : ∀ x, x < b.addr ∨ b.addr + headerSize ≤ x → m₂ x = m x := by
    intro x hx
    rw [← hm]
    simp (disch := omega) only [setNext, setSize, store_outside]
  refine ⟨⟨?_, seg_congr (fun d hd x hx hx' => hout x (Or.inr ?_)) hrest⟩, hout⟩
  · rw [← hm]
    exact mergeStep_headerAt hb hc hbc hcstop hfree
  · have := (htrest.mem hd).1
    unfold Block.stop at hbc this
    omega

theorem coalesce_seg {stop : Nat} (hstop : stop < 2 ^ 64) {bs : List Block} :
    ∀ {pos fuel : Nat} {m : Mem}, Seg m bs 0 → Tiles stop pos bs → 0 < pos → bs.length < fuel →
      ∃ m', coalesce fuel m (ptrOr bs 0) = .ok m' ∧ Seg m' (merge bs) 0 ∧
        ∀ x, (∀ b ∈ bs, b.free = true → x < b.addr ∨ b.addr + headerSize ≤ x) → m' x = m x := by
  have hh : headerSize = 32 := rfl
  induction bs using merge.induct with
  | case1 =>
    intro pos fuel m hseg _ _ hf
    obtain ⟨fuel, rfl⟩ := Nat.exists_eq_succ_of_ne_zero (by omega : fuel ≠ 0)
    exact ⟨m, rfl, by simpa [merge] using hseg, fun _ _ => rfl⟩
  | case2 b =>
    intro pos fuel m hseg htile hpos hf
    obtain ⟨fuel, rfl⟩ := Nat.exists_eq_succ_of_ne_zero (by omega : fuel ≠ 0)
    obtain ⟨fuel, rfl⟩ := Nat.exists_eq_succ_of_ne_zero (by simp at hf; omega : fuel ≠ 0)
    obtain ⟨rfl, _⟩ := htile
    have hne : b.addr ≠ 0 := by omega
    have hlink : nextOf m b.addr = 0 := hseg.1.next
    refine ⟨m, ?_, by simpa [merge] using hseg, fun _ _ => rfl⟩
    simp [coalesce, ptrOr, hne, hseg.1.magic, hlink]
  | case3 b c rest hfree ih =>
    intro pos fuel m hseg htile hpos hf
    obtain ⟨fuel, rfl⟩ := Nat.exists_eq_succ_of_ne_zero (by omega : fuel ≠ 0)
    have htile₂ := htile.absorb
    have hmerged := @mergeStep_seg m _ b c rest stop pos hseg htile hstop hfree.1 rfl
    obtain ⟨hb, hc, hrest⟩ := hseg
    obtain ⟨rfl, hb16, hbc, hc16, htrest⟩ := htile
    have hne : b.addr ≠ 0 := by omega
    have hcne : c.addr ≠ 0 := by
      unfold Block.stop at hbc
      omega
    have hcstop : c.stop < 2 ^ 64 := lt_of_le_of_lt htrest.le hstop
    have hexp : c.addr = add64 (add64 b.addr headerSize) b.size := by
      unfold Block.stop at hbc hcstop
      simp only [add64]
      omega
    generalize hm2 : setNext (setSize m b.addr (add64 b.size (add64 c.size headerSize))) b.addr
      (nextOf (setSize m b.addr (add64 b.size (add64 c.size headerSize))) c.addr) = m₂ at hmerged
    obtain ⟨hseg₂, hout⟩ := hmerged
    have hf' : (⟨b.addr, b.size + (c.size + headerSize), true⟩ :: rest : List Block).length < fuel := by
      simp only [List.length_cons] at hf ⊢
      omega
    obtain ⟨m', hrun, hseg', hframe⟩ := ih hseg₂ htile₂ hpos hf'
    refine ⟨m', ?_, ?_, fun x hx => ?_⟩
    · rw [ptrOr, coalesce]
      simp only [hne, if_false, hb.magic, ne_eq, not_true_eq_false, hb.next, ptrOr, hb.isFree_ne,
        hfree.1, hcne, not_false_eq_true, hc.isFree_ne, hfree.2, true_and, hb.size, hc.size,
        ← hexp, if_true, hm2]
      exact hrun
    · rw [merge, if_pos hfree]
      exact hseg'
    · rw [hframe x, hout x (hx b List.mem_cons_self hfree.1)]
      intro d hd hdfree
      rcases List.mem_cons.mp hd with rfl | hd
      · exact hx b List.mem_cons_self hfree.1
      · exact hx d (List.mem_cons_of_mem _ (List.mem_cons_of_mem _ hd)) hdfree
  | case4 b c rest hfree ih =>
    intro pos fuel m hseg htile hpos hf
    obtain ⟨fuel, rfl⟩ := Nat.exists_eq_succ_of_ne_zero (by omega : fuel ≠ 0)
    obtain ⟨hb, hseg⟩ := hseg
    obtain ⟨rfl, hb16, htile⟩ := htile
    have hne : b.addr ≠ 0 := by omega
    have hpos' : 0 < b.stop := by
      unfold Block.stop
      omega
    have hf' : (c :: rest).length < fuel := by simpa using hf
    obtain ⟨m', hrun, hseg', hframe⟩ := ih hseg htile hpos' hf'
    refine ⟨m', ?_, ?_, fun x hx => hframe x fun d hd => hx d (List.mem_cons_of_mem _ hd)⟩
    · have hcond : ¬ (isFreeOf m b.addr ≠ 0 ∧ nextOf m b.addr ≠ 0 ∧
          isFreeOf m (nextOf m b.addr) ≠ 0 ∧
          nextOf m b.addr = add64 (add64 b.addr headerSize) (sizeOf m b.addr)) := by
        rintro ⟨h1, _, h3, _⟩
        rw [hb.next] at h3
        exact hfree ⟨hb.isFree_ne.mp h1, hseg.1.isFree_ne.mp h3⟩
      rw [ptrOr, coalesce]
      simp only [hne, if_false, hb.magic, ne_eq, not_true_eq_false]
      rw [if_neg hcond, hb.next]
      exact hrun
    · rw [merge, if_neg hfree]
      refine ⟨?_, hseg'⟩
      rw [ptrOr_merge]
      refine headerAt_congr (fun x hx hx' => hframe x fun d hd _ => Or.inl ?_) hb
      have := (htile.mem hd).1
      unfold Block.stop at this
      omega

end Kyuzen.Heap
