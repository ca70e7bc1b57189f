import Kyuzen.Heap.Expand

/-!
# `kmalloc` and `kfree` on the list of blocks

One specification for each call, from any represented heap: `kmalloc_cases` says that the
call returns, either `NULL` with the blocks in use unchanged or the payload of one more block
in use; `kfree_rep` says that a free returns and takes exactly that block out of use. Neither
touches the payload of another block in use.
-/

namespace Kyuzen.Heap

open Lib.Memory

/-- The blocks in use. -/
def inUse (bs : List Block) : List Block := bs.filter fun b => !b.free

theorem mem_inUse {bs : List Block} {b : Block} : b ∈ inUse bs ↔ b ∈ bs ∧ b.free = false := by
  simp [inUse]

theorem Rep.update {M : Machine} {s : State} {bs bs' : List Block} {m : Mem} (h : Rep M s bs)
    (hptr : ptrOr bs' 0 = ptrOr bs 0) (hseg : Seg m bs' 0)
    (htile : Tiles s.currentHeapEnd heapStart bs') : Rep M { s with mem := m } bs' :=
  ⟨h.head.trans hptr.symm, hseg, htile, h.mapped, h.aligned, h.bounded⟩

/-- Writing into payloads does not touch the list. -/
theorem Rep.write {M : Machine} {s : State} {bs : List Block} {m : Mem} {b : Block}
    (h : Rep M s bs) (hb : b ∈ bs) (hm : ∀ x, x < b.payload ∨ b.stop ≤ x → m x = s.mem x) :
    Rep M { s with mem := m } bs := by
  refine h.update rfl (seg_congr (fun c hc x hx hx' => hm x ?_) h.seg) h.tiles
  by_cases hcb : c = b
  · subst hcb
    exact Or.inl hx'
  · have := h.tiles.apart hc hb hcb
    simp only [Block.payload, Block.stop] at *
    omega

/-! ## `kmalloc` -/

section Take

variable {M : Machine} {s : State} {xs ys : List Block} {b : Block} {size : Nat}

theorem ptrOr_carve (size : Nat) (b : Block) (ys : List Block) (next : Nat) :
    ptrOr (carve size b ++ ys) next = b.addr := by
  unfold carve
  split_ifs <;> rfl

theorem take_rep (h : Rep M s (xs ++ b :: ys)) (hs : size % 16 = 0) (hle : size ≤ b.size) :
    Rep M { s with mem := takeBlock s.mem b.addr size } (xs ++ (carve size b ++ ys)) := by
  have hb : b ∈ xs ++ b :: ys := List.mem_append_right _ List.mem_cons_self
  obtain ⟨hxs, hhead, hys⟩ := seg_append.mp h.seg
  obtain ⟨mid, htxs, haddr, h16, htys⟩ := tiles_append.mp h.tiles
  have hout : ∀ x, x < b.addr ∨ b.stop ≤ x → takeBlock s.mem b.addr size x = s.mem x :=
    fun x hx => takeBlock_outside hhead (h.addr_pos hb) (h.stop_lt hb) hle hx
  refine h.update ?_ ?_ ?_
  · cases xs with
    | nil => exact ptrOr_carve size b ys 0
    | cons c xs => rfl
  · rw [seg_append, seg_append, ptrOr_carve]
    refine ⟨seg_congr (fun c hc x hx hx' => hout x (Or.inl ?_)) hxs,
      takeBlock_seg hhead (h.addr_pos hb) (h.stop_lt hb) hle,
      seg_congr (fun c hc x hx hx' => hout x (Or.inr ?_)) hys⟩
    · have := (htxs.mem hc).2.1
      simp only [Block.stop] at this
      omega
    · exact le_trans (htys.mem hc).1 hx
  · refine tiles_append.mpr ⟨mid, htxs, tiles_append.mpr ⟨b.stop, ?_, htys⟩⟩
    rw [← haddr]
    exact tiles_carve hs h16

theorem take_inUse (hfree : b.free = true) (c : Block) :
    c ∈ inUse (xs ++ (carve size b ++ ys)) ↔
      c ∈ inUse (xs ++ b :: ys) ∨ c = carved size b := by
  rw [← mem_carve_used, mem_inUse, mem_inUse]
  simp only [List.mem_append, List.mem_cons]
  constructor
  · rintro ⟨h | h | h, hc⟩
    · exact Or.inl ⟨Or.inl h, hc⟩
    · exact Or.inr ⟨h, hc⟩
    · exact Or.inl ⟨Or.inr (Or.inr h), hc⟩
  · rintro (⟨h | rfl | h, hc⟩ | ⟨h, hc⟩)
    · exact ⟨Or.inl h, hc⟩
    · rw [hfree] at hc
      cases hc
    · exact ⟨Or.inr (Or.inr h), hc⟩
    · exact ⟨Or.inr (Or.inl h), hc⟩

/-- Taking a free block leaves the payloads of the blocks in use alone. -/
theorem take_samePayloads (h : Rep M s (xs ++ b :: ys)) (hle : size ≤ b.size)
    (hfree : b.free = true) :
    SamePayloads (inUse (xs ++ b :: ys)) s.mem (takeBlock s.mem b.addr size) := by
  have hb : b ∈ xs ++ b :: ys := List.mem_append_right _ List.mem_cons_self
  obtain ⟨_, hhead, _⟩ := seg_append.mp h.seg
  intro c hc x hx hx'
  obtain ⟨hc, hcfree⟩ := mem_inUse.mp hc
  refine takeBlock_outside hhead (h.addr_pos hb) (h.stop_lt hb) hle ?_
  have hcb : c ≠ b := by
    rintro rfl
    rw [hfree] at hcfree
    cases hcfree
  have := h.tiles.apart hc hb hcb
  simp only [Block.payload, Block.stop] at *
  omega

end Take

theorem roundUp16_spec {n : Nat} (hn : n + 15 < 2 ^ 64) :
    roundUp16 n % 16 = 0 ∧ n ≤ roundUp16 n ∧ roundUp16 n < n + 16 := by
  unfold roundUp16 add64
  omega

theorem roundUp16_of_mod {n : Nat} (hn : n + 15 < 2 ^ 64) (h16 : n % 16 = 0) :
    roundUp16 n = n := by
  unfold roundUp16 add64
  omega

theorem kmallocFrom_of_some {M : Machine} {supply : Supply} {fuel k request current : Nat}
    {s : State} (hreq : request ≠ 0)
    (hwalk : findFit s.mem (roundUp16 request) walkFuel s.heapHead = .ok (some current)) :
    kmallocFrom M supply (fuel + 1) k s request = .ok (add64 current headerSize,
      { s with mem := takeBlock s.mem current (roundUp16 request) }) := by
  rw [kmallocFrom, if_neg hreq]
  simp only [hwalk]
  rfl

theorem kmallocFrom_of_none {M : Machine} {supply : Supply} {fuel k request fresh : Nat}
    {s s' : State} (hreq : request ≠ 0)
    (hwalk : findFit s.mem (roundUp16 request) walkFuel s.heapHead = .ok none)
    (hexp : expandHeap M (supply.grants k) supply.stale s (roundUp16 request) =
      .ok (fresh, s')) :
    kmallocFrom M supply (fuel + 1) k s request =
      if fresh = 0 then .ok (0, s')
      else kmallocFrom M supply fuel (k + 1) s' (roundUp16 request) := by
  rw [kmallocFrom, if_neg hreq]
  simp only [hwalk, bind, Except.bind, hexp]
  rfl

/-- What a successful allocation of `size` bytes does to the list. -/
structure Allocates (M : Machine) (s s' : State) (bs bs' : List Block) (b : Block)
    (size : Nat) : Prop where
  rep : Rep M s' bs'
  inUse : ∀ c, c ∈ inUse bs' ↔ c ∈ inUse bs ∨ c = b
  fresh : ∀ c ∈ Heap.inUse bs, c.addr ≠ b.addr
  size_le : size ≤ b.size
  same : SamePayloads (Heap.inUse bs) s.mem s'.mem

theorem Rep.findFit_eq {M : Machine} {s : State} {bs : List Block} (h : Rep M s bs)
    (size : Nat) : findFit s.mem size walkFuel s.heapHead =
      .ok ((bs.find? (fits size)).map Block.addr) := by
  rw [h.head]
  exact Heap.findFit_eq h.seg h.tiles (by decide) h.length_lt

/-- The last block of a tiling stands only at its end. -/
theorem append_singleton_split {stop pos : Nat} {bs xs ys : List Block} {b : Block}
    (htile : Tiles stop pos (bs ++ [b])) (hsplit : bs ++ [b] = xs ++ b :: ys) :
    xs = bs ∧ ys = [] := by
  rcases List.eq_nil_or_concat ys with rfl | ⟨init, l, rfl⟩
  · obtain ⟨hxs, -⟩ := List.append_inj' hsplit rfl
    exact ⟨hxs.symm, rfl⟩
  · rw [List.concat_eq_append] at *
    have hends : bs ++ [b] = (xs ++ b :: init) ++ [l] := by
      rw [hsplit, List.append_assoc, List.cons_append]
    obtain ⟨-, hlast⟩ := List.append_inj' hends rfl
    obtain rfl := List.singleton_inj.mp hlast
    rw [hsplit] at htile
    obtain ⟨mid, -, haddr, -, hrest⟩ := tiles_append.mp htile
    have hend := (hrest.mem (List.mem_append_right init List.mem_cons_self)).1
    simp only [Block.stop, headerSize] at hend
    omega

theorem kmallocFrom_found {M : Machine} (supply : Supply) (fuel k : Nat) {request : Nat}
    {s : State} {bs : List Block} {b : Block} (h : Rep M s bs) (hreq : request ≠ 0)
    (hlt : request + 15 < 2 ^ 64) (hfind : bs.find? (fits (roundUp16 request)) = some b) :
    ∃ s' xs ys, bs = xs ++ b :: ys ∧ b.free = true ∧
      kmallocFrom M supply (fuel + 1) k s request = .ok (b.payload, s') ∧
      s'.currentHeapEnd = s.currentHeapEnd ∧
      Allocates M s s' bs (xs ++ (carve (roundUp16 request) b ++ ys))
        (carved (roundUp16 request) b) request := by
  have hh : headerSize = 32 := rfl
  obtain ⟨h16, hge, _⟩ := roundUp16_spec hlt
  have hwalk := h.findFit_eq (roundUp16 request)
  rw [hfind] at hwalk
  obtain ⟨hfits, xs, ys, rfl, hxs⟩ := List.find?_eq_some_iff_append.mp hfind
  simp only [fits, Bool.and_eq_true, decide_eq_true_eq] at hfits
  obtain ⟨hfree, hle⟩ := hfits
  have hb : b ∈ xs ++ b :: ys := List.mem_append_right _ List.mem_cons_self
  have hpay : add64 b.addr headerSize = b.payload := by
    have := h.stop_lt hb
    unfold Block.stop at this
    exact Nat.mod_eq_of_lt (by omega)
  refine ⟨{ s with mem := takeBlock s.mem b.addr (roundUp16 request) }, xs, ys, rfl, hfree, ?_, rfl,
    take_rep h h16 hle, take_inUse hfree, fun c hc => ?_,
    le_trans hge (le_carved_size hle), take_samePayloads h hle hfree⟩
  · rw [kmallocFrom_of_some hreq hwalk, hpay]
  · obtain ⟨hc, hcfree⟩ := mem_inUse.mp hc
    intro haddr
    have : c = b := h.tiles.addr_inj hc hb haddr
    rw [this, hfree] at hcfree
    cases hcfree

/-- What happens to the end of the heap and to free neighbours when `request` bytes are allocated. -/
structure Grows (s s' : State) (bs bs' : List Block) (request : Nat) : Prop where
  settled : Settled bs → Settled bs'
  le : s.currentHeapEnd ≤ s'.currentHeapEnd
  needed : s'.currentHeapEnd ≠ s.currentHeapEnd → bs.find? (fits (roundUp16 request)) = none

/-- `kmalloc` returns: `NULL` and an unchanged heap, or the payload of a fresh block that is
large enough. -/
theorem kmalloc_cases {M : Machine} (supply : Supply) {s : State} {bs : List Block}
    {request : Nat} (h : Rep M s bs) (hreq : request + 48 ≤ 2 ^ 64) :
    ∃ p s', kmalloc M supply s request = .ok (p, s') ∧
      (p = 0 ∧ SameHeap s s' ∨
        ∃ bs' b, p = b.payload ∧ Allocates M s s' bs bs' b request ∧
          Grows s s' bs bs' request) := by
  have hh : headerSize = 32 := rfl
  unfold kmalloc
  by_cases hzero : request = 0
  · rw [kmallocFrom, if_pos hzero]
    exact ⟨0, s, rfl, Or.inl ⟨rfl, SameHeap.refl s⟩⟩
  have hlt : request + 15 < 2 ^ 64 := by omega
  obtain ⟨h16, hge, hround⟩ := roundUp16_spec hlt
  cases hfind : bs.find? (fits (roundUp16 request)) with
  | some b =>
    obtain ⟨s', xs, ys, rfl, hfree, hrun, hstop, halloc⟩ :=
      kmallocFrom_found supply (M.pages + 2) 0 h hzero hlt hfind
    refine ⟨_, s', hrun, Or.inr ⟨_, carved (roundUp16 request) b, rfl, halloc, ?_, hstop.ge, ?_⟩⟩
    · intro hsettled
      obtain ⟨hxs, hys, -⟩ := List.isChain_append.mp hsettled
      exact Settled.carve _ hxs hys hfree
    · exact fun hne => absurd hstop hne
  | none =>
    have hwalk := h.findFit_eq (roundUp16 request)
    rw [hfind] at hwalk
    have hexpand := expandHeap_cases (supply.grants 0) supply.stale h
      (show roundUp16 request + headerSize < 2 ^ 64 by omega)
    obtain ⟨s₁, ⟨hexp, hsame⟩ | ⟨extra, hexp, hextra, hrep, hsame⟩⟩ := hexpand
    · rw [kmallocFrom_of_none hzero hwalk hexp, if_pos rfl]
      exact ⟨0, s₁, rfl, Or.inl ⟨rfl, hsame⟩⟩
    · -- the second call finds the block the expansion has just appended
      have hne : s.currentHeapEnd ≠ 0 := by
        have := h.start_le
        have hs : heapStart = 0xFFFF900000000000 := rfl
        omega
      have hagain : roundUp16 (roundUp16 request) = roundUp16 request :=
        roundUp16_of_mod (by omega) h16
      obtain ⟨new, hnew⟩ : ∃ new : Block, new = ⟨s.currentHeapEnd, extra, true⟩ := ⟨_, rfl⟩
      rw [← hnew] at hrep
      have hfits : fits (roundUp16 request) new = true := by simp [fits, hnew, hextra]
      have hfind' : (bs ++ [new]).find? (fits (roundUp16 (roundUp16 request))) = some new := by
        rw [hagain, List.find?_append, hfind, Option.none_or, List.find?_cons, hfits]
      rw [kmallocFrom_of_none hzero hwalk hexp, if_neg hne]
      have hzero' : roundUp16 request ≠ 0 := by omega
      have hlt' : roundUp16 request + 15 < 2 ^ 64 := by omega
      obtain ⟨s', xs, ys, hsplit, hfree, hrun, hstop, halloc⟩ :=
        kmallocFrom_found supply (M.pages + 1) 1 hrep hzero' hlt' hfind'
      have hused : ∀ c, c ∈ inUse (bs ++ [new]) ↔ c ∈ inUse bs := by
        intro c
        simp [inUse, hnew]
      refine ⟨_, s', hrun, Or.inr ⟨_, carved _ new, rfl, ⟨halloc.rep, fun c => ?_, fun c hc => ?_,
        le_trans hge halloc.size_le, fun b hb x hx hx' => ?_⟩, ?_, ?_, fun _ => hfind⟩⟩
      · rw [halloc.inUse, hused]
      · exact halloc.fresh c ((hused c).mpr hc)
      · rw [halloc.same b ((hused b).mpr hb) x hx hx', hsame b (mem_inUse.mp hb).1 x hx hx']
      · intro hsettled
        obtain ⟨rfl, rfl⟩ := append_singleton_split hrep.tiles hsplit
        exact Settled.carve _ hsettled (List.IsChain.singleton new) hfree
      · rw [hstop]
        have hend := (hrep.tiles.mem (List.mem_append_right bs List.mem_cons_self)).2.1
        rw [hnew] at hend
        simp only [Block.stop] at hend
        omega

/-! ## `kfree` -/

section Free

variable {M : Machine} {s : State} {xs ys : List Block} {b : Block}

theorem release_rep (h : Rep M s (xs ++ b :: ys)) :
    Rep M { s with mem := setIsFree s.mem b.addr 1 } (xs ++ ⟨b.addr, b.size, true⟩ :: ys) := by
  have hh : headerSize = 32 := rfl
  obtain ⟨hxs, hhead, hys⟩ := seg_append.mp h.seg
  obtain ⟨mid, htxs, haddr, h16, htys⟩ := tiles_append.mp h.tiles
  have hout : ∀ x, x < b.addr ∨ b.stop ≤ x → setIsFree s.mem b.addr 1 x = s.mem x := by
    intro x hx
    unfold Block.stop at hx
    exact store_outside (by omega)
  refine h.update ?_ (seg_append.mpr ⟨?_, setIsFree_headerAt hhead true, ?_⟩) ?_
  · cases xs <;> rfl
  · refine seg_congr (fun c hc x hx hx' => hout x (Or.inl ?_)) hxs
    have := (htxs.mem hc).2.1
    simp only [Block.stop] at this
    omega
  · exact seg_congr (fun c hc x hx hx' => hout x (Or.inr (le_trans (htys.mem hc).1 hx))) hys
  · exact tiles_append.mpr ⟨mid, htxs, haddr, h16, htys⟩

theorem release_inUse (htile : Tiles s.currentHeapEnd heapStart (xs ++ b :: ys)) (c : Block) :
    c ∈ inUse (xs ++ ⟨b.addr, b.size, true⟩ :: ys) ↔ c ∈ inUse (xs ++ b :: ys) ∧ c ≠ b := by
  have hh : headerSize = 32 := rfl
  obtain ⟨mid, htxs, haddr, _, htys⟩ := tiles_append.mp htile
  have hxs : b ∉ xs := fun hb => by
    have := (htxs.mem hb).2.1
    simp only [Block.stop] at this
    omega
  have hys : b ∉ ys := fun hb => by
    have := (htys.mem hb).1
    simp only [Block.stop] at this
    omega
  rw [mem_inUse, mem_inUse]
  simp only [List.mem_append, List.mem_cons]
  constructor
  · rintro ⟨h | rfl | h, hc⟩
    · exact ⟨⟨Or.inl h, hc⟩, fun heq => hxs (heq ▸ h)⟩
    · cases hc
    · exact ⟨⟨Or.inr (Or.inr h), hc⟩, fun heq => hys (heq ▸ h)⟩
  · rintro ⟨⟨h | rfl | h, hc⟩, hne⟩
    · exact ⟨Or.inl h, hc⟩
    · exact absurd rfl hne
    · exact ⟨Or.inr (Or.inr h), hc⟩

end Free

theorem inUse_merge (bs : List Block) : inUse (merge bs) = inUse bs := filter_merge bs

/-- Freeing a block in use returns, and takes exactly that block out of use. -/
theorem kfree_rep {M : Machine} {s : State} {bs : List Block} {b : Block} (h : Rep M s bs)
    (hb : b ∈ inUse bs) :
    ∃ s' bs', kfree s b.payload = .ok s' ∧ Rep M s' bs' ∧
      (∀ c, c ∈ inUse bs' ↔ c ∈ inUse bs ∧ c ≠ b) ∧ SamePayloads (inUse bs') s.mem s'.mem ∧
      Settled bs' ∧ s'.currentHeapEnd = s.currentHeapEnd := by
  have hh : headerSize = 32 := rfl
  obtain ⟨hmem, hused⟩ := mem_inUse.mp hb
  obtain ⟨xs, ys, rfl⟩ := List.append_of_mem hmem
  obtain ⟨_, hhead, _⟩ := seg_append.mp h.seg
  have hblock : sub64 b.payload headerSize = b.addr := by
    have := h.stop_lt hmem
    simp only [Block.stop, Block.payload, sub64] at *
    omega
  have hne : b.payload ≠ 0 := by
    unfold Block.payload
    omega
  have hrep := release_rep h
  obtain ⟨m', hrun, hseg, hframe⟩ :=
    coalesce_seg hrep.end_lt hrep.seg hrep.tiles (by decide) hrep.length_lt
  refine ⟨{ s with mem := m' }, merge (xs ++ ⟨b.addr, b.size, true⟩ :: ys), ?_,
    hrep.update (ptrOr_merge _ 0) hseg (tiles_merge hrep.tiles), fun c => ?_, ?_,
    settled_merge _, rfl⟩
  · rw [kfree, if_neg hne]
    simp only [hblock, hhead.magic, ne_eq, not_true_eq_false, if_false]
    rw [h.head, show ptrOr (xs ++ b :: ys) 0 = ptrOr (xs ++ ⟨b.addr, b.size, true⟩ :: ys) 0 by
      cases xs <;> rfl, hrun]
    rfl
  · rw [inUse_merge, release_inUse h.tiles]
  · intro c hc x hx hx'
    rw [inUse_merge] at hc
    obtain ⟨hcmem, hcused⟩ := mem_inUse.mp hc
    dsimp only
    rw [hframe x fun d hd hdfree => ?_]
    · have hcb := ((release_inUse h.tiles c).mp hc)
      have := h.tiles.apart (mem_inUse.mp hcb.1).1 hmem hcb.2
      refine store_outside ?_
      simp only [Block.payload, Block.stop] at *
      omega
    · have hcd : c ≠ d := by
        rintro rfl
        rw [hdfree] at hcused
        cases hcused
      have := hrep.tiles.apart hcmem hd hcd
      simp only [Block.payload, Block.stop] at *
      omega

/-! ## `krealloc` -/

/-- What a `krealloc` that returns a new pointer does to the list: block `old` is given back and
`new` taken instead, with the contents of `old`. -/
structure Moves (M : Machine) (s s' : State) (bs bs' : List Block) (old new : Block)
    (oldSize newSize : Nat) : Prop where
  rep : Rep M s' bs'
  inUse : ∀ c, c ∈ inUse bs' ↔ c ∈ inUse bs ∧ c ≠ old ∨ c = new
  fresh : ∀ c ∈ Heap.inUse bs, c.addr ≠ new.addr
  size_le : newSize ≤ new.size
  same : ∀ c ∈ Heap.inUse bs, c ≠ old → ∀ x, c.payload ≤ x → x < c.stop → s'.mem x = s.mem x
  copied : ∀ i, i < oldSize → i < newSize → i < old.size →
    s'.mem (new.payload + i) = s.mem (old.payload + i)
  grows : Grows s s' bs bs' newSize

theorem Block.payload_ne_zero (b : Block) : b.payload ≠ 0 := by
  have hh : headerSize = 32 := rfl
  unfold Block.payload
  omega

/-- `krealloc` of a block in use returns: `NULL` and an unchanged heap, or the payload of another
block. -/
theorem krealloc_cases {M : Machine} (supply : Supply) {s : State} {bs : List Block} {old : Block}
    (oldSize : Nat) {newSize : Nat} (h : Rep M s bs) (hold : old ∈ inUse bs) (hpos : newSize ≠ 0)
    (hsize : newSize + 48 ≤ 2 ^ 64) :
    ∃ p s', krealloc M supply s old.payload oldSize newSize = .ok (p, s') ∧
      (p = 0 ∧ SameHeap s s' ∨
        ∃ bs' new, p = new.payload ∧ Moves M s s' bs bs' old new oldSize newSize) := by
  unfold krealloc
  simp only [if_neg hpos, if_neg old.payload_ne_zero]
  obtain ⟨p, s₁, hrun, ⟨rfl, hsame⟩ | ⟨bs₁, new, rfl, halloc, hgrows⟩⟩ :=
    kmalloc_cases supply h hsize
  · exact ⟨0, s₁, by rw [hrun]; rfl, Or.inl ⟨rfl, hsame⟩⟩
  -- the copy stays inside the new block
  obtain ⟨n, hn⟩ : ∃ n, n = if oldSize < newSize then oldSize else newSize := ⟨_, rfl⟩
  have hnle : n ≤ newSize := by
    rw [hn]
    split <;> omega
  have hnew : new ∈ inUse bs₁ := (halloc.inUse new).mpr (Or.inr rfl)
  have hold₁ : old ∈ inUse bs₁ := (halloc.inUse old).mpr (Or.inl hold)
  have hne : old ≠ new := fun heq => halloc.fresh old hold (congrArg Block.addr heq)
  have hsize_le := halloc.size_le
  have houtside : ∀ x, x < new.payload ∨ new.stop ≤ x →
      copy s₁.mem new.payload old.payload n x = s₁.mem x := by
    intro x hx
    apply copy_outside
    simp only [Block.stop, Block.payload] at *
    omega
  have hcopy := halloc.rep.write (mem_inUse.mp hnew).1 houtside
  obtain ⟨s', bs', hfree, hrep, huse, hkept, hsettled, hstop⟩ := kfree_rep hcopy hold₁
  have hapart := halloc.rep.tiles.apart (mem_inUse.mp hold₁).1 (mem_inUse.mp hnew).1 hne
  refine ⟨new.payload, s', ?_, Or.inr ⟨bs', new, rfl, hrep, ?_, halloc.fresh, hsize_le, ?_, ?_,
    ⟨fun _ => hsettled, ?_, ?_⟩⟩⟩
  · rw [hrun]
    simp only [bind, Except.bind, if_neg new.payload_ne_zero, ← hn, hfree]
    rfl
  · intro c
    rw [huse, halloc.inUse]
    constructor
    · rintro ⟨hc | rfl, hc'⟩
      · exact Or.inl ⟨hc, hc'⟩
      · exact Or.inr rfl
    · rintro (⟨hc, hc'⟩ | rfl)
      · exact ⟨Or.inl hc, hc'⟩
      · exact ⟨Or.inr rfl, hne.symm⟩
  · intro c hc hco x hx hx'
    have hc₁ : c ∈ inUse bs₁ := (halloc.inUse c).mpr (Or.inl hc)
    have hcn : c ≠ new := fun heq => halloc.fresh c hc (congrArg Block.addr heq)
    have hcapart := halloc.rep.tiles.apart (mem_inUse.mp hc₁).1 (mem_inUse.mp hnew).1 hcn
    rw [hkept c ((huse c).mpr ⟨hc₁, hco⟩) x hx hx']
    show copy s₁.mem new.payload old.payload n x = s.mem x
    rw [houtside, halloc.same c hc x hx hx']
    simp only [Block.stop, Block.payload] at *
    omega
  · intro i hi hi' hisize
    have hin : i < n := by
      rw [hn]
      split <;> omega
    have hstops : i < new.size := by omega
    rw [hkept new ((huse new).mpr ⟨hnew, hne.symm⟩) _ (Nat.le_add_right _ _)
      (by simp only [Block.stop, Block.payload]; omega)]
    show copy s₁.mem new.payload old.payload n (new.payload + i) = _
    have hsrc : old.payload + i < new.payload ∨ new.payload + n ≤ old.payload + i := by
      simp only [Block.stop, Block.payload] at *
      omega
    rw [copy_inside hsrc hin]
    exact halloc.same old hold _ (Nat.le_add_right _ _)
      (by simp only [Block.stop, Block.payload]; omega)
  · rw [hstop]
    exact hgrows.le
  · rw [hstop]
    exact hgrows.needed

end Kyuzen.Heap
