import Kyuzen.Proc.UserHeap

/-!
# What stands in the heap of an application

`kernel/uheap.c` once more, with the bytes of the frames: `uheap_alloc` clears every frame behind
its mapping through the direct map, and `uheap_realloc` copies the old region to the new one
through the addresses of the caller. That copy could meet a page that is not mapped; this is
`none`. Without the bytes the functions are those of the model before (`uheapAlloc_vm`,
`uheapRealloc_vm`), so that the invariant of the heap holds here too.

A frame that is taken was not in use, so that clearing it changes no byte of a frame in use.
Together with the undoing of a part of a region this makes failures atomic (`heap_atomic`).
-/

namespace Kyuzen.Proc.Contents

open Lib
open Paging (Store zeroFrame physAddr lowerEnd translate allocPage freePage vmmMapPageInto
  UserRun)

/-- The loop of `uheap_alloc`, as in `Proc.uheapMapPages`. -/
def uheapMapPages (pml4 base : Nat) : Nat → Nat → Store → Nat × Store
  | 0, i, st => (i, st)
  | count + 1, i, st =>
    let (pa, vm) := allocPage st.vm
    if pa = Pmm.physNull then (i, { st with vm := vm })
    else
      match vmmMapPageInto vm (base + i * 4096) pa 7 pml4 with
      | (true, vm) => uheapMapPages pml4 base count (i + 1) ⟨vm, zeroFrame st.bytes pa⟩
      | (false, vm) => (i, { st with vm := freePage vm pa })

def uheapAlloc (node : Bool) (st : Store) (t : Task) (size : Nat) : Nat × Task × Store :=
  if t.pml4Phys = Pmm.physNull then (0, t, st)
  else if size = 0 ∨ size > uheapMaxAlloc then (0, t, st)
  else
    let brk := if t.uheapBrk = 0 then uheapBase else t.uheapBrk
    let pages := (size + 4095) / 4096
    if brk + pages * 4096 + 4096 > uheapEnd then (0, t, st)
    else if node = false then (0, t, st)
    else
      let (mapped, st) := uheapMapPages t.pml4Phys brk pages 0 st
      if mapped < pages then
        (0, t, { st with vm := uheapUnmapRange t.pml4Phys brk mapped st.vm })
      else
        (brk, { t with
          uheapRegions := ⟨brk, size, pages⟩ :: t.uheapRegions
          uheapBrk := brk + pages * 4096 + 4096 }, st)

/-- `uheap_free` touches no byte. -/
def uheapFree (st : Store) (t : Task) (uaddr : Nat) : Nat × Task × Store :=
  let out := Proc.uheapFree st.vm t uaddr
  (out.1, out.2.1, { st with vm := out.2.2 })

/-- The caller runs in its own address space, where `memcpy` finds both regions. -/
def uheapRealloc (node : Bool) (st : Store) (t : Task) (uaddr newSize : Nat) :
    Option (Nat × Task × Store) :=
  if uaddr = 0 then some (uheapAlloc node st t newSize)
  else if newSize = 0 then some (0, (uheapFree st t uaddr).2)
  else if newSize > uheapMaxAlloc then some (0, t, st)
  else
    match t.uheapRegions.find? (·.base = uaddr) with
    | none => some (0, t, st)
    | some n =>
      if newSize ≤ n.pages * 4096 then
        some (n.base, { t with uheapRegions := resizeRegion uaddr newSize t.uheapRegions }, st)
      else
        let (newBase, t, st) := uheapAlloc node st t newSize
        if newBase = 0 then some (0, t, st)
        else do
          let copy := if n.size < newSize then n.size else newSize
          let bytes ← Virtual.copy (physAddr st.vm t.pml4Phys) newBase uaddr copy st.bytes
          return (newBase, (uheapFree { st with bytes := bytes } t uaddr).2)

variable {spaces : Finset Nat} {r base : Nat} {st st' : Store} {t : Task}

/-! ## Without the bytes -/

theorem uheapMapPages_vm (pml4 base : Nat) : ∀ (count i : Nat) (st : Store),
    Proc.uheapMapPages pml4 base count i st.vm =
      ((uheapMapPages pml4 base count i st).1, (uheapMapPages pml4 base count i st).2.vm) := by
  intro count
  induction count with
  | zero => exact fun _ _ => rfl
  | succ count ih =>
    intro i st
    rw [uheapMapPages, Proc.uheapMapPages]
    dsimp only
    split_ifs with hnull
    · rfl
    · cases hout : vmmMapPageInto (allocPage st.vm).2 (base + i * 4096) (allocPage st.vm).1 7
          pml4 with
      | mk ok vm =>
        cases ok with
        | true => exact ih (i + 1) ⟨vm, zeroFrame st.bytes (allocPage st.vm).1⟩
        | false => rfl

theorem uheapAlloc_vm (node : Bool) (st : Store) (t : Task) (size : Nat) :
    Proc.uheapAlloc node st.vm t size =
      ((uheapAlloc node st t size).1, (uheapAlloc node st t size).2.1,
        (uheapAlloc node st t size).2.2.vm) := by
  unfold uheapAlloc Proc.uheapAlloc
  dsimp only
  rw [uheapMapPages_vm]
  split_ifs <;> rfl

theorem uheapRealloc_vm {node : Bool} {uaddr newSize : Nat} {out : Nat × Task × Store}
    (h : uheapRealloc node st t uaddr newSize = some out) :
    Proc.uheapRealloc node st.vm t uaddr newSize = (out.1, out.2.1, out.2.2.vm) := by
  unfold uheapRealloc at h
  unfold Proc.uheapRealloc
  rw [uheapAlloc_vm]
  split_ifs at h ⊢ with hzero hfree hbig
  · cases h
    rfl
  · cases h
    rfl
  · cases h
    rfl
  · cases hfind : t.uheapRegions.find? (·.base = uaddr) with
    | none =>
      rw [hfind] at h
      cases h
      rfl
    | some n =>
      rw [hfind] at h
      dsimp only at h ⊢
      by_cases hfits : newSize ≤ n.pages * 4096
      · rw [if_pos hfits] at h ⊢
        cases h
        rfl
      rw [if_neg hfits] at h ⊢
      by_cases hnew : (uheapAlloc node st t newSize).1 = 0
      · rw [if_pos hnew] at h ⊢
        cases h
        rfl
      · rw [if_neg hnew] at h ⊢
        obtain ⟨bytes, -, h⟩ := Option.bind_eq_some_iff.mp h
        cases h
        rfl

/-! ## Pages that are cleared -/

/-- Pages `lo` to `hi` of a region have been mapped and cleared; no other page and no byte of a
frame in use has changed. -/
structure Clears (r base lo hi : Nat) (st st' : Store) : Prop where
  inside : ∀ va, base + lo * 4096 ≤ va → va < base + hi * 4096 →
    ∃ e, translate st'.vm r va = some ⟨0, e⟩
  zero : ∀ va, base + lo * 4096 ≤ va → va < base + hi * 4096 →
    Virtual.read (physAddr st'.vm r) st'.bytes va = some 0
  outside : ∀ va < lowerEnd, ¬(base + lo * 4096 ≤ va ∧ va < base + hi * 4096) →
    translate st'.vm r va = translate st.vm r va
  mono : ∀ i, st.vm.pmm.used i = true → st'.vm.pmm.used i = true
  bytes : ∀ a, st.vm.pmm.used (a / 4096) = true → st'.bytes a = st.bytes a
  run : ∀ {vm₀ : Paging.State}, UserRun r vm₀ st.vm → UserRun r vm₀ st'.vm

theorem Clears.nothing {i : Nat} (hpage : ∀ va, translate st'.vm r va = translate st.vm r va)
    (hmono : ∀ i, st.vm.pmm.used i = true → st'.vm.pmm.used i = true)
    (hbytes : st'.bytes = st.bytes)
    (hrun : ∀ {vm₀ : Paging.State}, UserRun r vm₀ st.vm → UserRun r vm₀ st'.vm) :
    Clears r base i i st st' := by
  refine ⟨?_, ?_, fun va _ _ => hpage va, hmono, fun a _ => congrFun hbytes a, hrun⟩
  · intro va hlo hhi
    omega
  · intro va hlo hhi
    omega

/-- A page in front of those that the rest of the loop clears. -/
theorem Clears.cons {i hi pa : Nat} {vm₁ vm₂ : Paging.State} (hbase : base % 4096 = 0)
    (hend : base + hi * 4096 ≤ uheapEnd) (hle : i + 1 ≤ hi) (ht : Taken st.vm pa vm₁)
    (hm : MapsPage r (base + i * 4096) pa vm₁ vm₂)
    (hrun : ∀ {vm₀ : Paging.State}, UserRun r vm₀ st.vm → UserRun r vm₀ vm₂)
    (h : Clears r base (i + 1) hi ⟨vm₂, zeroFrame st.bytes pa⟩ st') :
    Clears r base i hi st st' := by
  have hmono : ∀ i, st.vm.pmm.used i = true → vm₂.pmm.used i = true :=
    fun i hi => hm.mono i (ht.mono i hi)
  have hmul : (i + 1) * 4096 ≤ hi * 4096 := Nat.mul_le_mul_right 4096 hle
  -- the page that is mapped first
  have hfirst : ∀ va, base + i * 4096 ≤ va → va < base + (i + 1) * 4096 →
      va < lowerEnd ∧ translate st'.vm r va = some ⟨0, Paging.pageMask pa ||| 7⟩ := by
    intro va hlo hhi
    have hlt : va < uheapEnd := lt_of_lt_of_le hhi (le_trans (Nat.add_le_add_left hmul base) hend)
    have hpage : (base + i * 4096) / 4096 = va / 4096 := by omega
    refine ⟨lt_lowerEnd hlt, ?_⟩
    rw [h.outside va (lt_lowerEnd hlt) (by omega), hm.page va (lt_lowerEnd hlt), if_pos hpage]
  refine ⟨?_, ?_, ?_, fun i hi => h.mono i (hmono i hi), ?_, fun h₀ => h.run (hrun h₀)⟩
  · intro va hlo hhi
    by_cases hva : va < base + (i + 1) * 4096
    · exact ⟨_, (hfirst va hlo hva).2⟩
    · exact h.inside va (Nat.le_of_not_lt hva) hhi
  · intro va hlo hhi
    by_cases hva : va < base + (i + 1) * 4096
    · obtain ⟨hlt, htrans⟩ := hfirst va hlo hva
      have hmask : Paging.pageMask (Paging.pageMask pa ||| 7) = pa := by
        rw [Paging.pageMask_of_dvd ht.aligned, Paging.pageMask_or ht.aligned (by decide)]
      -- the frame is in use while the other pages are cleared
      have hkeep : st'.bytes (pa + va % 4096) = zeroFrame st.bytes pa (pa + va % 4096) := by
        apply h.bytes
        have hdiv := pageMask_add_div pa va
        rw [Paging.pageMask_of_dvd ht.aligned] at hdiv
        rw [hdiv]
        exact hm.mono _ ht.used
      unfold Virtual.read
      rw [Paging.physAddr_page hlt htrans, hmask, Option.map_some, hkeep,
        Paging.zeroFrame_inside st.bytes (Nat.le_add_right _ _)
          (Nat.add_lt_add_left (Nat.mod_lt va (by decide)) pa)]
    · exact h.zero va (Nat.le_of_not_lt hva) hhi
  · intro va hva hout
    have hstart : base + i * 4096 ≤ base + (i + 1) * 4096 :=
      Nat.add_le_add_left (Nat.mul_le_mul_right 4096 (Nat.le_succ i)) base
    have hrest : ¬(base + (i + 1) * 4096 ≤ va ∧ va < base + hi * 4096) := fun hc =>
      hout ⟨le_trans hstart hc.1, hc.2⟩
    have hpage : ¬(base + i * 4096) / 4096 = va / 4096 := fun hc => hout (by omega)
    rw [h.outside va hva hrest, hm.page va hva, if_neg hpage, Paging.translate_congr ht.mem]
  · intro a ha
    rw [h.bytes a (hmono _ ha)]
    refine Paging.zeroFrame_other st.bytes ht.aligned ?_
    intro heq
    rw [heq, ht.free] at ha
    cases ha

theorem uheapMapPages_clears (hr : r ∈ spaces) (hbase : base % 4096 = 0) (count : Nat)
    {i : Nat} (h : Ready st.vm spaces) (hend : base + (i + count) * 4096 ≤ uheapEnd)
    (hnone : ∀ va, base + i * 4096 ≤ va → va < base + (i + count) * 4096 →
      translate st.vm r va = none) :
    i ≤ (uheapMapPages r base count i st).1 ∧
      Clears r base i (uheapMapPages r base count i st).1 st
        (uheapMapPages r base count i st).2 := by
  induction count generalizing i st with
  | zero => exact ⟨le_refl _, Clears.nothing (fun _ => rfl) (fun _ => id) rfl id⟩
  | succ count ih =>
    have hva : base + i * 4096 < uheapEnd := by omega
    have hnext : base + (i + 1 + count) * 4096 ≤ uheapEnd := by
      rw [Nat.add_assoc, Nat.add_comm 1]
      exact hend
    have hexec := allocMap_eq (base + i * 4096) r st.vm
    have hadmissible : (Paging.UserOp.mapInto (base + i * 4096) 7).Admissible st.vm r :=
      ⟨Paging.pml4Idx_lower (lt_lowerEnd hva), hnone _ (le_refl _) (by omega), rfl, by decide⟩
    obtain ⟨halloc, hmap⟩ := h.allocMap hr (base + i * 4096)
    rw [uheapMapPages]
    dsimp only
    rcases h.alloc with ht | heq
    · rw [if_neg ht.ne_null]
      rw [if_neg ht.ne_null] at hexec
      have hready := (hmap ht.ne_null).1
      have hcases := halloc.map hr (lt_lowerEnd hva) (allocPage st.vm).1
      cases hout : vmmMapPageInto (allocPage st.vm).2 (base + i * 4096) (allocPage st.vm).1 7 r with
      | mk ok vm₂ =>
        rw [hout] at hready hcases hexec
        cases ok with
        | true =>
          obtain ⟨-, hm⟩ : true = true ∧ _ := by simpa using hcases
          have hrest : ∀ va, base + (i + 1) * 4096 ≤ va →
              va < base + (i + 1 + count) * 4096 → translate vm₂ r va = none := by
            intro va hlo hhi
            have hlt := lt_lowerEnd (lt_of_lt_of_le hhi hnext)
            have hpage : ¬(base + i * 4096) / 4096 = va / 4096 := fun hc =>
              Nat.not_le.mpr ((page_iff hbase).mp hc).2 hlo
            rw [hm.page va hlt, if_neg hpage, Paging.translate_congr ht.mem]
            refine hnone va ?_ ?_
            · exact le_trans (Nat.add_le_add_left (Nat.mul_le_mul_right 4096 (Nat.le_succ i)) base)
                hlo
            · rwa [Nat.add_assoc, Nat.add_comm 1] at hhi
          obtain ⟨hle, hclears⟩ := @ih ⟨vm₂, zeroFrame st.bytes (allocPage st.vm).1⟩ (i + 1)
            hready hnext hrest
          have hhi := (uheapMapPages_ready hr base count (i := i + 1) hready).2
          rw [uheapMapPages_vm r base count (i + 1)
            ⟨vm₂, zeroFrame st.bytes (allocPage st.vm).1⟩] at hhi
          have hend' := le_trans (Nat.add_le_add_left (Nat.mul_le_mul_right 4096 hhi) base) hnext
          refine ⟨le_trans (Nat.le_succ i) hle, hclears.cons hbase hend' hle ht hm ?_⟩
          intro vm₀ h₀
          rw [show vm₂ = Paging.userExec r st.vm (.mapInto (base + i * 4096) 7) from hexec]
          exact h₀.step hadmissible
        | false =>
          obtain ⟨-, hk⟩ : false = false ∧ _ := by simpa using hcases
          refine ⟨le_refl i, Clears.nothing ?_ ?_ rfl ?_⟩
          · intro va
            exact (hk.page va).trans (Paging.translate_congr ht.mem)
          · exact fun i hi => ht.mono_freePage hk.mono hi
          · intro vm₀ h₀
            show UserRun r vm₀ (freePage vm₂ (allocPage st.vm).1)
            rw [show freePage vm₂ (allocPage st.vm).1 =
              Paging.userExec r st.vm (.mapInto (base + i * 4096) 7) from hexec]
            exact h₀.step hadmissible
    · rw [heq, if_pos rfl]
      exact ⟨le_refl i, Clears.nothing (fun _ => rfl) (fun _ => id) rfl id⟩

/-- What a program reads in the pages that were there before. -/
theorem Clears.read {lo hi va : Nat} (h : Clears r base lo hi st st') (hready : Ready st.vm spaces)
    (hr : r ∈ spaces) (hva : va < lowerEnd)
    (hout : ¬(base + lo * 4096 ≤ va ∧ va < base + hi * 4096))
    (hsmall : ∀ m, translate st.vm r va = some m → m.level = 0) :
    Virtual.read (physAddr st'.vm r) st'.bytes va =
      Virtual.read (physAddr st.vm r) st.bytes va := by
  have htrans := h.outside va hva hout
  unfold Virtual.read
  rw [Paging.physAddr_congr hva htrans]
  cases hm : translate st.vm r va with
  | none => rw [Paging.physAddr_none hva hm, Option.map_none, Option.map_none]
  | some m =>
    obtain ⟨level, e⟩ := m
    have hlevel : level = 0 := hsmall _ hm
    subst hlevel
    rw [Paging.physAddr_page hva hm, Option.map_some, Option.map_some, h.bytes]
    rw [pageMask_add_div]
    exact hready.frame_used hr hva hm

/-! ## Failures -/

/-- A call that has failed leaves the regions, the bump pointer, the pages of the heap and what
stands in them, and of the frames only those of new tables. -/
structure Failed (r : Nat) (st : Store) (t t' : Task) (st' : Store) : Prop where
  task : t' = t
  page : ∀ va, InHeap va → translate st'.vm r va = translate st.vm r va
  content : ∀ va, InHeap va →
    Virtual.read (physAddr st'.vm r) st'.bytes va = Virtual.read (physAddr st.vm r) st.bytes va
  frames : ∀ i, st'.vm.pmm.used i = true →
    st.vm.pmm.used i = true ∨ PageTable st'.vm r (i * 4096)

theorem Failed.refl (r : Nat) (st : Store) (t : Task) : Failed r st t t st :=
  ⟨rfl, fun _ _ => rfl, fun _ _ => rfl, fun _ => Or.inl⟩

/-- A region at the bump pointer, every byte of which is zero. -/
structure Opened (r : Nat) (st : Store) (t : Task) (size : Nat) (pages : Nat) (st' : Store) :
    Prop where
  pos : 0 < size
  fits : size ≤ pages * 4096
  inside : heapBrk t + pages * 4096 + 4096 ≤ uheapEnd
  clears : Clears r (heapBrk t) 0 pages st st'

theorem Failed.undone {mapped : Nat} (h : HeapInv st.vm spaces r t)
    (hend : heapBrk t + mapped * 4096 ≤ uheapEnd) (hready : Ready st'.vm spaces)
    (hclears : Clears r (heapBrk t) 0 mapped st st') :
    Failed r st t t { st' with vm := uheapUnmapRange r (heapBrk t) mapped st'.vm } := by
  obtain ⟨halign, hlow, -⟩ := h.brk
  have hun := uheapUnmapRange_unwinds h.space halign hready hend (by
    intro va hlo hhi m hm
    obtain ⟨e, he⟩ := hclears.inside va (by omega) hhi
    rw [he] at hm
    cases hm
    rfl)
  have hsame : ∀ va < lowerEnd, translate (uheapUnmapRange r (heapBrk t) mapped st'.vm) r va =
      translate st.vm r va := by
    intro va hva
    rw [hun.page va hva]
    by_cases hin : heapBrk t ≤ va ∧ va < heapBrk t + mapped * 4096
    · rw [if_pos hin]
      exact (h.spans.unmapped_above ⟨le_trans hlow hin.1, lt_of_lt_of_le hin.2 hend⟩ hin.1).symm
    · rw [if_neg hin, hclears.outside va hva (by omega)]
  refine ⟨rfl, fun va hva => hsame va (lt_lowerEnd hva.2), ?_, ?_⟩
  · intro va hva
    have hlt := lt_lowerEnd hva.2
    by_cases hin : heapBrk t ≤ va ∧ va < heapBrk t + mapped * 4096
    · have hnone := h.spans.unmapped_above hva hin.1
      have hnone' := (hsame va hlt).trans hnone
      unfold Virtual.read
      rw [Paging.physAddr_none hlt hnone, Paging.physAddr_none hlt hnone', Option.map_none,
        Option.map_none]
    · rw [← hclears.read h.ready h.space hlt (by omega) (h.spans.small va hva)]
      unfold Virtual.read
      rw [Paging.physAddr_congr hlt ((hsame va hlt).trans (hclears.outside va hlt (by omega)).symm)]
  · intro i hi
    exact h.ready.frames_back h.space (hun.run (hclears.run UserRun.refl)) hsame hi

/-- What `uheap_alloc` can do. -/
theorem alloc_atomic (h : HeapInv st.vm spaces r t) (node : Bool) (size : Nat) :
    (∃ st', uheapAlloc node st t size = (0, t, st') ∧ Failed r st t t st') ∨
      ∃ pages st', uheapAlloc node st t size = (heapBrk t, addRegion t size pages, st') ∧
        Opened r st t size pages st' := by
  obtain ⟨halign, hlow, -⟩ := h.brk
  obtain rfl := h.pml4
  have hnothing : ∃ st', ((0 : Nat), t, st) = (0, t, st') ∧ Failed t.pml4Phys st t t st' :=
    ⟨st, rfl, Failed.refl t.pml4Phys st t⟩
  unfold uheapAlloc
  rw [if_neg (h.ready.ne_null h.space)]
  by_cases hsize : size = 0 ∨ size > uheapMaxAlloc
  · rw [if_pos hsize]
    exact Or.inl hnothing
  rw [if_neg hsize]
  dsimp only
  rw [show (if t.uheapBrk = 0 then uheapBase else t.uheapBrk) = heapBrk t from rfl]
  have hfits : size ≤ (size + 4095) / 4096 * 4096 := by omega
  have hpos : 0 < size := Nat.pos_of_ne_zero fun hc => hsize (Or.inl hc)
  clear hsize
  revert hfits
  generalize (size + 4095) / 4096 = pages
  intro hfits
  by_cases hend : heapBrk t + pages * 4096 + 4096 > uheapEnd
  · rw [if_pos hend]
    exact Or.inl hnothing
  rw [if_neg hend]
  by_cases hnode : node = false
  · rw [if_pos hnode]
    exact Or.inl hnothing
  rw [if_neg hnode]
  have hend := Nat.le_of_not_gt hend
  have hroom : heapBrk t + (0 + pages) * 4096 ≤ uheapEnd := by
    rw [Nat.zero_add]
    exact le_trans (Nat.le_add_right _ _) hend
  obtain ⟨hready, hle⟩ := uheapMapPages_ready h.space (heapBrk t) pages (i := 0) h.ready
  obtain ⟨-, hclears⟩ := uheapMapPages_clears h.space halign pages h.ready hroom (by
    intro va hlo hhi
    rw [Nat.zero_mul, Nat.add_zero] at hlo
    exact h.spans.unmapped_above ⟨le_trans hlow hlo, lt_of_lt_of_le hhi hroom⟩ hlo)
  rw [uheapMapPages_vm] at hready hle
  revert hready hle hclears
  generalize uheapMapPages t.pml4Phys (heapBrk t) pages 0 st = out
  obtain ⟨mapped, st₁⟩ := out
  intro hready hle hclears
  dsimp only at hready hle hclears ⊢
  rw [Nat.zero_add] at hle hroom
  by_cases hfew : mapped < pages
  · rw [if_pos hfew]
    have hend₁ : heapBrk t + mapped * 4096 ≤ uheapEnd :=
      le_trans (Nat.add_le_add_left (Nat.mul_le_mul_right 4096 hle) _) hroom
    exact Or.inl ⟨_, rfl, Failed.undone h hend₁ hready hclears⟩
  · rw [if_neg hfew]
    have hall : mapped = pages := le_antisymm hle (Nat.le_of_not_lt hfew)
    subst hall
    refine Or.inr ⟨mapped, st₁, rfl, hpos, hfits, hend, hclears⟩

/-- The region at `uaddr` is gone with its pages and their frames, and no other. -/
structure Freed (r : Nat) (st : Store) (t : Task) (uaddr : Nat) (t' : Task) (st' : Store) :
    Prop where
  task : t' = { t with uheapRegions := t.uheapRegions.eraseP (·.base = uaddr) }
  gone : ∀ n ∈ t.uheapRegions, n.base = uaddr → ∀ va, n.base ≤ va →
    va < n.base + n.pages * 4096 → translate st'.vm r va = none ∧
      ∀ e, translate st.vm r va = some ⟨0, e⟩ →
        st'.vm.pmm.used (Paging.pageMask e / 4096) = false
  page : ∀ va, InHeap va → (∀ n ∈ t.uheapRegions, n.base = uaddr →
    ¬(n.base ≤ va ∧ va < n.base + n.pages * 4096)) →
      translate st'.vm r va = translate st.vm r va
  bytes : st'.bytes = st.bytes
  mono : ∀ i, st'.vm.pmm.used i = true → st.vm.pmm.used i = true

theorem free_exact (h : HeapInv st.vm spaces r t) {uaddr : Nat} (hne : uaddr ≠ 0) :
    Freed r st t uaddr (uheapFree st t uaddr).2.1 (uheapFree st t uaddr).2.2 := by
  obtain rfl := h.pml4
  unfold uheapFree Proc.uheapFree
  rw [if_neg hne]
  cases hfind : t.uheapRegions.find? (·.base = uaddr) with
  | none =>
    have hno : ∀ n ∈ t.uheapRegions, n.base ≠ uaddr := by
      intro n hn hbase
      have := List.find?_eq_none.mp hfind n hn
      exact this (decide_eq_true hbase)
    refine ⟨?_, ?_, fun _ _ _ => rfl, rfl, fun _ => id⟩
    · rw [List.eraseP_of_forall_not fun n hn => by simpa using hno n hn]
    · intro n hn hbase
      exact absurd hbase (hno n hn)
  | some n =>
    have hmem := List.mem_of_find?_eq_some hfind
    have hbase : n.base = uaddr := by simpa using List.find?_some hfind
    have hspan : (n.base, n.pages) ∈ spansOf t := List.mem_map_of_mem hmem
    obtain ⟨hlow, hhigh⟩ := h.spans.inside _ hspan
    have hend : n.base + n.pages * 4096 ≤ uheapEnd :=
      le_trans (Nat.le_add_right _ 4096) (le_trans hhigh h.brk.2.2)
    have hun := uheapUnmapRange_unwinds h.space (h.spans.aligned _ hspan) h.ready hend (by
      intro va hlo hhi
      exact h.spans.small va ⟨le_trans hlow hlo, lt_of_lt_of_le hhi hend⟩)
    refine ⟨rfl, ?_, ?_, rfl, hun.mono⟩
    · intro m hm hbase' va hlo hhi
      -- two regions at one address are the same
      have heq : (n.base, n.pages) = (m.base, m.pages) := by
        by_contra hdiff
        have hapart := h.spans.apart_of_ne hspan (List.mem_map_of_mem hm) hdiff
        have hstop : stop (n.base, n.pages) = n.base + n.pages * 4096 := rfl
        have hstop' : stop (m.base, m.pages) = m.base + m.pages * 4096 := rfl
        dsimp only at hapart
        omega
      obtain ⟨hb, hp⟩ := Prod.mk.inj heq
      rw [← hb] at hlo hhi
      rw [← hp] at hhi
      refine ⟨?_, fun e he => hun.freed va e hlo hhi he⟩
      rw [hun.page va (lt_lowerEnd (lt_of_lt_of_le hhi hend)), if_pos ⟨hlo, hhi⟩]
    · intro va hva hout
      rw [hun.page va (lt_lowerEnd hva.2), if_neg (hout n hmem hbase)]

/-! ## Sizes -/

/-- The size of a region, which `uheap_realloc` has set or `uheap_alloc` has rounded up, is at most
that of its pages. -/
def SizesOk (t : Task) : Prop := ∀ n ∈ t.uheapRegions, n.size ≤ n.pages * 4096

theorem SizesOk.alloc {vm : Paging.State} (h : SizesOk t) (node : Bool) (size : Nat) :
    SizesOk (Proc.uheapAlloc node vm t size).2.1 := by
  unfold Proc.uheapAlloc
  dsimp only
  generalize (if t.uheapBrk = 0 then uheapBase else t.uheapBrk) = brk
  split_ifs
  all_goals try exact h
  intro n hn
  rcases List.mem_cons.mp hn with rfl | hn
  · show size ≤ (size + 4095) / 4096 * 4096
    omega
  · exact h n hn

theorem SizesOk.free {vm : Paging.State} (h : SizesOk t) (uaddr : Nat) :
    SizesOk (Proc.uheapFree vm t uaddr).2.1 := by
  unfold Proc.uheapFree
  by_cases hzero : uaddr = 0
  · rw [if_pos hzero]
    exact h
  rw [if_neg hzero]
  cases t.uheapRegions.find? (·.base = uaddr) with
  | none => exact h
  | some n => exact fun m hm => h m (List.mem_of_mem_eraseP hm)

theorem resizeRegion_sizes {uaddr newSize : Nat} {n : Region} {l : List Region}
    (hl : ∀ m ∈ l, m.size ≤ m.pages * 4096) (hfind : l.find? (·.base = uaddr) = some n)
    (hfits : newSize ≤ n.pages * 4096) :
    ∀ m ∈ resizeRegion uaddr newSize l, m.size ≤ m.pages * 4096 := by
  induction l with
  | nil => cases hfind
  | cons k l ih =>
    intro m hm
    have hrest := fun m hm => hl m (List.mem_cons_of_mem k hm)
    rw [resizeRegion] at hm
    by_cases hbase : k.base = uaddr
    · rw [if_pos hbase] at hm
      rw [List.find?_cons_of_pos (p := fun n : Region => n.base = uaddr) (decide_eq_true hbase)]
        at hfind
      cases hfind
      rcases List.mem_cons.mp hm with rfl | hm
      · exact hfits
      · exact hrest m hm
    · rw [if_neg hbase] at hm
      rw [List.find?_cons_of_neg (p := fun n : Region => n.base = uaddr) (by simpa using hbase)]
        at hfind
      rcases List.mem_cons.mp hm with rfl | hm
      · exact hl m List.mem_cons_self
      · exact ih hrest hfind m hm

theorem SizesOk.realloc {vm : Paging.State} (h : SizesOk t) (node : Bool)
    (uaddr newSize : Nat) : SizesOk (Proc.uheapRealloc node vm t uaddr newSize).2.1 := by
  unfold Proc.uheapRealloc
  split_ifs with hzero hfree hbig
  · exact h.alloc node newSize
  · exact h.free uaddr
  · exact h
  cases hfind : t.uheapRegions.find? (·.base = uaddr) with
  | none => exact h
  | some n =>
    dsimp only
    by_cases hfits : newSize ≤ n.pages * 4096
    · rw [if_pos hfits]
      exact resizeRegion_sizes h hfind hfits
    rw [if_neg hfits]
    split_ifs
    · exact h.alloc node newSize
    · exact (h.alloc node newSize).free uaddr

theorem HeapRun.sizes {vm : Paging.State} {bases : List Nat} (h : HeapRun r vm spaces t bases) :
    SizesOk t := by
  induction h with
  | start _ _ _ hregions _ _ =>
    intro n hn
    rw [hregions] at hn
    cases hn
  | call op _ ih =>
    cases op with
    | alloc node size => exact ih.alloc node size
    | free uaddr => exact ih.free uaddr
    | realloc node uaddr newSize => exact ih.realloc node uaddr newSize
  | other _ _ _ _ _ ih => exact ih

/-! ## Moving a region -/

/-- The new region begins with the bytes of the old one, and goes on with zeros. -/
structure Moved (r : Nat) (st : Store) (n : Region) (newSize pages newBase : Nat) (st' : Store) :
    Prop where
  copied : ∀ i < min n.size newSize,
    (∃ b, Virtual.read (physAddr st.vm r) st.bytes (n.base + i) = some b) ∧
      Virtual.read (physAddr st'.vm r) st'.bytes (newBase + i) =
        Virtual.read (physAddr st.vm r) st.bytes (n.base + i)
  zero : ∀ i, min n.size newSize ≤ i → i < pages * 4096 →
    Virtual.read (physAddr st'.vm r) st'.bytes (newBase + i) = some 0

/-- The copy of `uheap_realloc` meets no fault. -/
theorem copy_moves {n : Region} {newSize pages : Nat} {st₁ : Store} (h : HeapInv st.vm spaces r t)
    (hn : n ∈ t.uheapRegions) (hsize : n.size ≤ n.pages * 4096)
    (hopen : Opened r st t newSize pages st₁) (hready : Ready st₁.vm spaces) :
    ∃ bytes, Virtual.copy (physAddr st₁.vm r) (heapBrk t) n.base (min n.size newSize) st₁.bytes =
        some bytes ∧
      Moved r st n newSize pages (heapBrk t) { st₁ with bytes := bytes } := by
  have hclears := hopen.clears
  have hspan : (n.base, n.pages) ∈ spansOf t := List.mem_map_of_mem hn
  obtain ⟨hlow, hhigh⟩ := h.spans.inside _ hspan
  have hstop : stop (n.base, n.pages) = n.base + n.pages * 4096 := rfl
  have hbrk := h.brk.2.2
  have hnew := hopen.inside
  have hmin := Nat.min_le_left n.size newSize
  have hmin' := Nat.min_le_right n.size newSize
  have hfits := hopen.fits
  dsimp only at hlow hhigh
  rw [hstop] at hhigh
  -- the pages of both regions are mapped, and lie apart
  have hsrc : ∀ i < min n.size newSize, n.base + i < lowerEnd ∧
      ∃ e, translate st₁.vm r (n.base + i) = some ⟨0, e⟩ := by
    intro i hi
    have hva : InHeap (n.base + i) := ⟨by omega, by omega⟩
    refine ⟨lt_lowerEnd hva.2, ?_⟩
    obtain ⟨m, hm⟩ := (h.spans.mapped _ hva).mpr ⟨_, hspan, Nat.le_add_right _ _, by omega⟩
    rw [hclears.outside _ (lt_lowerEnd hva.2) (by omega), hm]
    obtain ⟨level, e⟩ := m
    have hlevel : level = 0 := h.spans.small _ hva _ hm
    exact ⟨e, by rw [hlevel]⟩
  have hdst : ∀ i < pages * 4096, heapBrk t + i < lowerEnd ∧
      ∃ e, translate st₁.vm r (heapBrk t + i) = some ⟨0, e⟩ := by
    intro i hi
    exact ⟨lt_lowerEnd (by omega), hclears.inside _ (by omega) (by omega)⟩
  have hfrom : ∀ i < min n.size newSize, ∃ a, physAddr st₁.vm r (n.base + i) = some a := by
    intro i hi
    obtain ⟨hlt, e, he⟩ := hsrc i hi
    exact ⟨_, Paging.physAddr_page hlt he⟩
  have hplace : ∀ i < min n.size newSize, ∃ a, physAddr st₁.vm r (heapBrk t + i) = some a := by
    intro i hi
    obtain ⟨hlt, e, he⟩ := hdst i (by omega)
    exact ⟨_, Paging.physAddr_page hlt he⟩
  obtain ⟨bytes, hcopy, hread⟩ := Virtual.exists_copy st₁.bytes hfrom hplace (by
    intro i hi j hj a ha ha'
    obtain ⟨hlt, e, he⟩ := hsrc i hi
    obtain ⟨hlt', e', he'⟩ := hdst j (by omega)
    have := hready.physAddr_inj h.space hlt hlt' he he' (ha.trans ha'.symm)
    omega)
  have hapart : ∀ i < pages * 4096, Virtual.Apart (physAddr st₁.vm r) (heapBrk t)
      (min n.size newSize) (heapBrk t + i) := by
    intro i hi j hj a ha ha'
    obtain ⟨hlt, e, he⟩ := hdst j (by omega)
    obtain ⟨hlt', e', he'⟩ := hdst i hi
    exact hready.physAddr_inj h.space hlt' hlt he' he (ha'.trans ha.symm)
  refine ⟨bytes, hcopy, ?_, ?_⟩
  · intro i hi
    have hkeep := hclears.read h.ready h.space (hsrc i hi).1 (by omega)
      (h.spans.small _ ⟨by omega, by omega⟩)
    obtain ⟨a, ha⟩ := hfrom i hi
    rw [← hkeep]
    refine ⟨⟨_, congrArg (Option.map st₁.bytes) ha⟩, ?_⟩
    rw [hread _ (hapart i (by omega)), if_pos ⟨by omega, by omega⟩, Nat.add_sub_cancel_left]
  · intro i hlo hhi
    rw [hread _ (hapart i hhi), if_neg (by omega)]
    exact hclears.zero _ (by omega) (by omega)

theorem Moved.free {n : Region} {newSize pages : Nat}
    (hmoved : Moved r st n newSize pages (heapBrk t) st') (h : HeapInv st.vm spaces r t)
    (hn : n ∈ t.uheapRegions) (hne : n.base ≠ 0)
    (hopen : heapBrk t + pages * 4096 + 4096 ≤ uheapEnd)
    (h' : HeapInv st'.vm spaces r (addRegion t newSize pages)) (hfits : newSize ≤ pages * 4096) :
    Moved r st n newSize pages (heapBrk t)
      (uheapFree st' (addRegion t newSize pages) n.base).2.2 := by
  have hfreed := free_exact h' hne
  have hlow := h.brk.2.1
  have hbelow : ∀ m ∈ t.uheapRegions, m.base + m.pages * 4096 + 4096 ≤ heapBrk t := fun m hm =>
    (h.spans.inside _ (List.mem_map_of_mem hm)).2
  have hkeep : ∀ i < pages * 4096,
      Virtual.read (physAddr (uheapFree st' (addRegion t newSize pages) n.base).2.2.vm r)
        (uheapFree st' (addRegion t newSize pages) n.base).2.2.bytes (heapBrk t + i) =
      Virtual.read (physAddr st'.vm r) st'.bytes (heapBrk t + i) := by
    intro i hi
    have hva : InHeap (heapBrk t + i) := ⟨by omega, by omega⟩
    rw [hfreed.bytes]
    unfold Virtual.read
    rw [Paging.physAddr_congr (lt_lowerEnd hva.2)]
    apply hfreed.page _ hva
    intro m hm hmbase hin
    rcases List.mem_cons.mp hm with rfl | hm
    · have := hbelow n hn
      dsimp only at hmbase
      omega
    · have := hbelow m hm
      omega
  have hmin := Nat.min_le_right n.size newSize
  refine ⟨?_, ?_⟩
  · intro i hi
    rw [hkeep i (by omega)]
    exact hmoved.copied i hi
  · intro i hlo hhi
    rw [hkeep i hhi]
    exact hmoved.zero i hlo hhi

/-! ## The calls -/

structure AllocOk (r : Nat) (st : Store) (t : Task) (size : Nat) (out : Nat × Task × Store) :
    Prop where
  failed : out.1 = 0 → Failed r st t out.2.1 out.2.2
  fresh : out.1 ≠ 0 → ∃ pages, size ≤ pages * 4096 ∧ out.2.1 = addRegion t size pages ∧
    ∀ i < pages * 4096, Virtual.read (physAddr out.2.2.vm r) out.2.2.bytes (out.1 + i) = some 0

structure ReallocOk (r : Nat) (st : Store) (t : Task) (uaddr newSize : Nat)
    (out : Nat × Task × Store) : Prop where
  alloc : uaddr = 0 → AllocOk r st t newSize out
  freed : uaddr ≠ 0 → newSize = 0 → out.1 = 0 ∧ Freed r st t uaddr out.2.1 out.2.2
  failed : uaddr ≠ 0 → newSize ≠ 0 → out.1 = 0 → Failed r st t out.2.1 out.2.2
  kept : uaddr ≠ 0 → out.1 ≠ 0 → ∃ n ∈ t.uheapRegions, n.base = uaddr ∧
    (∀ i < min n.size newSize, ∃ b,
      Virtual.read (physAddr st.vm r) st.bytes (uaddr + i) = some b ∧
      Virtual.read (physAddr out.2.2.vm r) out.2.2.bytes (out.1 + i) = some b) ∧
    (out.1 ≠ uaddr → ∃ pages, newSize ≤ pages * 4096 ∧
      ∀ i, min n.size newSize ≤ i → i < pages * 4096 →
        Virtual.read (physAddr out.2.2.vm r) out.2.2.bytes (out.1 + i) = some 0)

theorem alloc_ok (h : HeapInv st.vm spaces r t) (node : Bool) (size : Nat) :
    AllocOk r st t size (uheapAlloc node st t size) := by
  rcases alloc_atomic h node size with ⟨st', heq, hfailed⟩ | ⟨pages, st', heq, hopen⟩
  · rw [heq]
    exact ⟨fun _ => hfailed, fun hne => absurd rfl hne⟩
  · rw [heq]
    refine ⟨fun hzero => absurd hzero h.heapBrk_pos, fun _ => ?_⟩
    refine ⟨pages, hopen.fits, rfl, ?_⟩
    intro i hi
    exact hopen.clears.zero _ (by omega) (by omega)

/-- A region that stays where it is keeps its bytes. -/
theorem kept_inside (h : HeapInv st.vm spaces r t) {n : Region}
    (hn : n ∈ t.uheapRegions) (hsize : n.size ≤ n.pages * 4096) {i : Nat} (hi : i < n.size) :
    ∃ b, Virtual.read (physAddr st.vm r) st.bytes (n.base + i) = some b := by
  have hspan : (n.base, n.pages) ∈ spansOf t := List.mem_map_of_mem hn
  obtain ⟨hlow, hhigh⟩ := h.spans.inside _ hspan
  have hstop : stop (n.base, n.pages) = n.base + n.pages * 4096 := rfl
  have hbrk := h.brk.2.2
  dsimp only at hlow
  have hva : InHeap (n.base + i) := ⟨by omega, by omega⟩
  obtain ⟨m, hm⟩ := (h.spans.mapped _ hva).mpr ⟨_, hspan, Nat.le_add_right _ _, by omega⟩
  unfold Virtual.read
  rw [Paging.physAddr_lower (lt_lowerEnd hva.2), hm]
  exact ⟨_, rfl⟩

theorem realloc_ok (h : HeapInv st.vm spaces r t) (hsizes : SizesOk t) (node : Bool)
    (uaddr newSize : Nat) :
    ∃ out, uheapRealloc node st t uaddr newSize = some out ∧
      ReallocOk r st t uaddr newSize out := by
  unfold uheapRealloc
  by_cases hzero : uaddr = 0
  · rw [if_pos hzero]
    refine ⟨_, rfl, fun _ => alloc_ok h node newSize, ?_, ?_, ?_⟩
    · exact fun hne => absurd hzero hne
    · exact fun hne => absurd hzero hne
    · exact fun hne => absurd hzero hne
  rw [if_neg hzero]
  by_cases hfree : newSize = 0
  · rw [if_pos hfree]
    refine ⟨_, rfl, fun hc => absurd hc hzero, ?_, ?_, ?_⟩
    · exact fun _ _ => ⟨rfl, free_exact h hzero⟩
    · exact fun _ hne => absurd hfree hne
    · exact fun _ hne => absurd rfl hne
  rw [if_neg hfree]
  -- the calls that change nothing
  have hrefused : ∃ out, some ((0 : Nat), t, st) = some out ∧
      ReallocOk r st t uaddr newSize out := by
    refine ⟨_, rfl, fun hc => absurd hc hzero, fun _ hc => absurd hc hfree, ?_, ?_⟩
    · exact fun _ _ _ => Failed.refl r st t
    · exact fun _ hne => absurd rfl hne
  by_cases hbig : newSize > uheapMaxAlloc
  · rw [if_pos hbig]
    exact hrefused
  rw [if_neg hbig]
  cases hfind : t.uheapRegions.find? (·.base = uaddr) with
  | none => exact hrefused
  | some n =>
    have hmem := List.mem_of_find?_eq_some hfind
    have hbase : n.base = uaddr := by simpa using List.find?_some hfind
    subst hbase
    dsimp only
    by_cases hfits : newSize ≤ n.pages * 4096
    · rw [if_pos hfits]
      refine ⟨_, rfl, fun hc => absurd hc hzero, fun _ hc => absurd hc hfree, ?_, ?_⟩
      · exact fun _ _ hc => absurd hc hzero
      · intro _ _
        refine ⟨n, hmem, rfl, ?_, fun hne => absurd rfl hne⟩
        intro i hi
        obtain ⟨b, hb⟩ := kept_inside h hmem (hsizes n hmem) (lt_of_lt_of_le hi (min_le_left _ _))
        exact ⟨b, hb, hb⟩
    rw [if_neg hfits]
    rcases alloc_atomic h node newSize with ⟨st₁, heq, hfailed⟩ | ⟨pages, st₁, heq, hopen⟩
    · rw [heq, if_pos rfl]
      refine ⟨_, rfl, fun hc => absurd hc hzero, fun _ hc => absurd hc hfree, ?_, ?_⟩
      · exact fun _ _ _ => hfailed
      · exact fun _ hne => absurd rfl hne
    · have h₁ : HeapInv st₁.vm spaces r (addRegion t newSize pages) := by
        have hcall := (h.call_alloc node newSize).inv
        have hvm : heapCall st.vm t (.alloc node newSize) =
            (heapBrk t, addRegion t newSize pages, st₁.vm) := by
          show Proc.uheapAlloc node st.vm t newSize = _
          rw [uheapAlloc_vm, heq]
        rw [hvm] at hcall
        exact hcall
      obtain ⟨bytes, hbytes, hmoved⟩ := copy_moves h hmem (hsizes n hmem) hopen h₁.ready
      have hmin : (if n.size < newSize then n.size else newSize) = min n.size newSize := by
        rw [Nat.min_def]
        split_ifs <;> omega
      have hpml4 : (addRegion t newSize pages).pml4Phys = r := h.pml4
      rw [heq, if_neg h.heapBrk_pos, hmin, hpml4, hbytes]
      have hlast := hmoved.free h hmem hzero hopen.inside h₁ hopen.fits
      refine ⟨_, rfl, fun hc => absurd hc hzero, fun _ hc => absurd hc hfree, ?_, ?_⟩
      · exact fun _ _ hc => absurd hc h.heapBrk_pos
      · intro _ _
        refine ⟨n, hmem, rfl, ?_, fun _ => ⟨pages, hopen.fits, hlast.zero⟩⟩
        intro i hi
        obtain ⟨⟨b, hb⟩, hsame⟩ := hlast.copied i hi
        exact ⟨b, hb, hsame.trans hb⟩

/-- In every state of the life of a heap: a call of `uheap_alloc` or `uheap_realloc` that returns 0
leaves everything as it was, but for new tables, unless it frees a region for the size 0; one that
succeeds hands out zeros, behind the bytes that it has kept. No copy meets a fault, and without the
bytes the calls are those of the heap's runs. -/
theorem heap_atomic {bases : List Nat} (h : HeapRun r st.vm spaces t bases) :
    (∀ node size, AllocOk r st t size (uheapAlloc node st t size)) ∧
    ∀ node uaddr newSize, ∃ out, uheapRealloc node st t uaddr newSize = some out ∧
      ReallocOk r st t uaddr newSize out ∧
      Proc.uheapRealloc node st.vm t uaddr newSize = (out.1, out.2.1, out.2.2.vm) := by
  refine ⟨alloc_ok h.inv.1, fun node uaddr newSize => ?_⟩
  obtain ⟨out, hout, hok⟩ := realloc_ok h.inv.1 (HeapRun.sizes h) node uaddr newSize
  exact ⟨out, hout, hok, uheapRealloc_vm hout⟩

/-- The task asks for 100 bytes. -/
def smallAlloc : Nat × Task × Paging.State :=
  heapCall (Paging.vmmCreateAddressSpace Paging.smallSys.vm).2 smallTask (.alloc true 100)

/-- The memory of the small machine after `smallAlloc`, if its other frames held sevens. -/
def smallStore : Store := ⟨smallAlloc.2.2, zeroFrame (fun _ => 7) 0x4802000⟩

theorem heap_atomic_smallTask : smallAlloc.1 = uheapBase ∧
    AllocOk smallTask.pml4Phys smallStore smallAlloc.2.1 5000
      (uheapAlloc true smallStore smallAlloc.2.1 5000) ∧
    ∃ out, uheapRealloc true smallStore smallAlloc.2.1 uheapBase 5000 = some out ∧
      ReallocOk smallTask.pml4Phys smallStore smallAlloc.2.1 uheapBase 5000 out ∧
      Proc.uheapRealloc true smallStore.vm smallAlloc.2.1 uheapBase 5000 =
        (out.1, out.2.1, out.2.2.vm) := by
  have hne : smallTask.pml4Phys ≠ Pmm.physNull := by decide
  have hbase : smallAlloc.1 = uheapBase := by decide +kernel
  have hrun := HeapRun.created (t := smallTask) (Paging.smallSys_reach _) hne rfl rfl rfl
  have hcall := hrun.call (.alloc true 100)
  rw [← smallAlloc, hbase] at hcall
  have hvm : smallStore.vm = smallAlloc.2.2 := by simp only [smallStore]
  rw [← hvm] at hcall
  obtain ⟨halloc, hrealloc⟩ := heap_atomic hcall
  exact ⟨hbase, halloc true 5000, hrealloc true uheapBase 5000⟩

end Kyuzen.Proc.Contents
