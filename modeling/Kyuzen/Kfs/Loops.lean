import Kyuzen.Kfs.ReadBounds

/-!
# The loops on any disk

For each loop that follows the FAT: which of its entries it reads, and what makes it come to an
end. A directory walk ends when the chain does (`findEntryIn_inside`), a listing also when the
array is full (`listFrom_returns`, `listFrom_ends`), the copy loop always (`readChunks_reads`), and
the loop of `kfs_delete_file` when its chain stays in the table, for it frees what it comes to and
stops where it has been (`freeChain_returns`, `freeChain_reads`).
-/

namespace Kyuzen.Kfs.Touched

open Lib.Memory Lib.Chain

variable {s : State} {d walk : Nat}

/-- Nothing stops a walk in the sectors `l`. -/
def Passes (l : List Nat) : Prop := ∀ y ∈ l, ¬Stop y

/-- Every sector that a walk from `x` comes to is in the table. -/
def Inside (s : State) (x : Nat) : Prop :=
  ∀ l y, Path s.fatTable x l y → Passes l → ¬Stop y → y < s.totalDiskSectors

/-- The chain from `d` comes to an end, inside the table. -/
def EndsInside (s : State) (d : Nat) : Prop :=
  ∃ l x, Path s.fatTable d l x ∧ Stop x ∧ ∀ y ∈ l, ¬Stop y ∧ y < s.totalDiskSectors

theorem Passes.cons {x : Nat} {l : List Nat} (hx : ¬Stop x) (h : Passes l) : Passes (x :: l) :=
  List.forall_mem_cons.mpr ⟨hx, h⟩

theorem Passes.tail {x : Nat} {l : List Nat} (h : Passes (x :: l)) : Passes l :=
  (List.forall_mem_cons.mp h).2

theorem Passes.head {x : Nat} {l : List Nat} (h : Passes (x :: l)) : ¬Stop x :=
  h x List.mem_cons_self

/-! ## Directories -/

/-- On a chain that ends a lookup comes to its end at the latest. -/
theorem walk_of_path {name : CStr} : ∀ {l : List Nat} {d x : Nat}, Path s.fatTable d l x →
    Passes l → Stop x → ∃ k y r, Path s.fatTable d k y ∧ Misses s name k ∧ Yields s name y r ∧
      k ⊆ l ∧ k.length ≤ l.length := by
  intro l
  induction l with
  | nil =>
    intro d x hpath _ hstop
    obtain rfl : d = x := hpath
    exact ⟨[], d, none, rfl, fun y hy => absurd hy List.not_mem_nil, Or.inl ⟨hstop, rfl⟩,
      List.Subset.refl _, le_refl _⟩
  | cons z l ih =>
    intro d x hpath hpass hstop
    obtain ⟨rfl, hrest⟩ := hpath
    cases hfind : findInSector (s.disk d) name with
    | some i =>
      exact ⟨[], d, _, rfl, fun y hy => absurd hy List.not_mem_nil,
        Or.inr ⟨hpass.head, i, hfind, rfl⟩, List.nil_subset _, Nat.zero_le _⟩
    | none =>
      obtain ⟨k, y, r, hk, hmiss, hyield, hsub, hlen⟩ := ih hrest hpass.tail hstop
      refine ⟨d :: k, y, r, ⟨rfl, hk⟩, List.forall_mem_cons.mpr ⟨⟨hpass.head, hfind⟩, hmiss⟩,
        hyield, List.cons_subset_cons _ hsub, Nat.succ_le_succ hlen⟩

theorem EndsInside.length_le {l : List Nat} {x : Nat} (hpath : Path s.fatTable d l x)
    (hstop : Stop x) (hl : ∀ y ∈ l, ¬Stop y ∧ y < s.totalDiskSectors) :
    l.length ≤ s.totalDiskSectors := by
  have hnodup := path_nodup hpath fun hmem => (hl x hmem).1 hstop
  have hsub : l.toFinset ⊆ Finset.range s.totalDiskSectors := fun y hy =>
    Finset.mem_range.mpr (hl y (List.mem_toFinset.mp hy)).2
  have hcard := Finset.card_le_card hsub
  rwa [List.toFinset_card_of_nodup hnodup, Finset.card_range] at hcard

theorem findEntryIn_inside (h : 2 ≤ d → EndsInside s d) (name : CStr)
    (hwalk : walkFuel s ≤ walk) : ∃ r reads, findEntryIn s walk d name = some (r, reads) ∧
      ∀ y ∈ reads, y < s.totalDiskSectors := by
  unfold findEntryIn
  by_cases hd : d < 2
  · rw [if_pos hd]
    exact ⟨none, [], rfl, fun y hy => absurd hy List.not_mem_nil⟩
  · rw [if_neg hd]
    obtain ⟨l, x, hpath, hstop, hl⟩ := h (by omega)
    have hlong := EndsInside.length_le hpath hstop hl
    obtain ⟨k, y, r, hk, hmiss, hyield, hsub, hlen⟩ :=
      @walk_of_path s name l d x hpath (fun y hy => (hl y hy).1) hstop
    refine ⟨r, k, findEntryFrom_iff.mpr ⟨?_, y, hk, hmiss, hyield⟩, fun y hy => (hl y (hsub hy)).2⟩
    unfold walkFuel at hwalk
    omega

/-! ## Listings -/

theorem listSector_count {x count : Nat} {maxEntries : Int} {list : Mem}
    (h : (count : Int) < maxEntries) :
    ((listSector (s.disk x) maxEntries (List.range 16) count list).1 : Int) =
      min maxEntries (count + (dirSlots s [x]).length) := by
  rw [listSector_eq h, entries_of_sector, List.length_take, List.length_map]
  omega

/-- A listing does not end, whatever the array holds, or it ends after the sectors `reads` and has
written the entries in use of these for which there is room. -/
theorem listFrom_cases (s : State) (maxEntries : Int) : ∀ fuel d count : Nat,
    (∀ list, listFrom s maxEntries fuel d count list = none) ∨
    ∃ reads x, Path s.fatTable d reads x ∧ Passes reads ∧
      (Stop x ∨ maxEntries ≤ count + (dirSlots s reads).length) ∧ ∀ list,
        listFrom s maxEntries fuel d count list =
          some ((count + (((dirSlots s reads).map s.entry).take (maxEntries - count).toNat).length,
            putInfos (((dirSlots s reads).map s.entry).take (maxEntries - count).toNat) count
              list), reads) := by
  intro fuel
  induction fuel with
  | zero => exact fun d count => Or.inl fun _ => rfl
  | succ fuel ih =>
    intro d count
    by_cases hend : d = fatEof ∨ d = fatFree ∨ ¬(count : Int) < maxEntries
    · refine Or.inr ⟨[], d, rfl, fun y hy => absurd hy List.not_mem_nil, ?_, fun list => ?_⟩
      · rcases hend with heof | hfree | hfull
        · exact Or.inl (Or.inl heof)
        · exact Or.inl (Or.inr hfree)
        · exact Or.inr (by omega)
      · rw [listFrom, if_pos hend, dirSlots, List.flatMap_nil, List.map_nil, List.take_nil]
        rfl
    · have hlt : (count : Int) < maxEntries := by tauto
      have hd : ¬Stop d := fun hs => hend (hs.elim Or.inl fun hf => Or.inr (Or.inl hf))
      let first := ((dirSlots s [d]).map s.entry).take (maxEntries - count).toNat
      have hstep : ∀ list, listFrom s maxEntries (fuel + 1) d count list =
          (listFrom s maxEntries fuel (s.fatTable d) (count + first.length)
            (putInfos first count list)).map fun r => (r.1, d :: r.2) := by
        intro list
        rw [listFrom, if_neg hend, listSector_eq hlt, entries_of_sector]
      rcases ih (s.fatTable d) (count + first.length) with hnone | ⟨reads, x, hpath, hpass, hstop,
        hrun⟩
      · exact Or.inl fun list => by rw [hstep, hnone]; rfl
      · have hlen : first.length = min (maxEntries - count).toNat (dirSlots s [d]).length := by
          rw [List.length_take, List.length_map]
        refine Or.inr ⟨d :: reads, x, ⟨rfl, hpath⟩, hpass.cons hd, hstop.imp id fun hmax => ?_,
          fun list => ?_⟩
        · rw [dirSlots_cons s d, List.length_append]
          omega
        · have hroom : (maxEntries - ((count + first.length : Nat) : Int)).toNat =
              (maxEntries - count).toNat - ((dirSlots s [d]).map s.entry).length := by
            rw [List.length_map]
            omega
          rw [hstep, hrun, dirSlots_cons s d reads, List.map_append, List.take_append,
            List.length_append, putInfos_append, hroom, Nat.add_assoc]
          rfl

/-- A listing ends at the end of the chain, or when the array is full. -/
theorem listFrom_ends {maxEntries : Int} {fuel d count : Nat} {list : Mem} {r : Nat × Mem}
    {reads : List Nat} (h : listFrom s maxEntries fuel d count list = some (r, reads)) :
    ∃ x, Path s.fatTable d reads x ∧ Passes reads ∧
      (Stop x ∨ maxEntries ≤ count + (dirSlots s reads).length) := by
  rcases listFrom_cases s maxEntries fuel d count with hnone | ⟨k, x, hpath, hpass, hend, hrun⟩
  · rw [hnone] at h
    cases h
  · rw [hrun] at h
    obtain ⟨-, rfl⟩ := Prod.mk.inj (Option.some.inj h)
    exact ⟨x, hpath, hpass, hend⟩

/-- A listing along the sectors `l` returns when the chain ends behind them or they hold enough
entries. -/
theorem listFrom_returns {maxEntries : Int} : ∀ {l : List Nat} {fuel d x count : Nat} {list : Mem},
    Path s.fatTable d l x → Passes l →
    (Stop x ∨ maxEntries ≤ count + (dirSlots s l).length) → l.length < fuel →
    ∃ r reads, listFrom s maxEntries fuel d count list = some (r, reads) ∧ reads ⊆ l := by
  intro l
  induction l with
  | nil =>
    intro fuel d x count list hpath _ hend hf
    obtain ⟨fuel, rfl⟩ := Nat.exists_eq_succ_of_ne_zero (show fuel ≠ 0 by omega)
    obtain rfl : d = x := hpath
    rw [listFrom, if_pos]
    · exact ⟨_, _, rfl, List.Subset.refl _⟩
    · rcases hend with (heof | hfree) | hmax
      · exact Or.inl heof
      · exact Or.inr (Or.inl hfree)
      · refine Or.inr (Or.inr ?_)
        have hzero : (dirSlots s []).length = 0 := rfl
        omega
  | cons y l ih =>
    intro fuel d x count list hpath hpass hend hf
    obtain ⟨fuel, rfl⟩ := Nat.exists_eq_succ_of_ne_zero (show fuel ≠ 0 by omega)
    obtain ⟨rfl, hrest⟩ := hpath
    rw [listFrom]
    by_cases hstop : d = fatEof ∨ d = fatFree ∨ ¬(count : Int) < maxEntries
    · rw [if_pos hstop]
      exact ⟨_, _, rfl, List.nil_subset _⟩
    · rw [if_neg hstop]
      have hlt : (count : Int) < maxEntries := by tauto
      have hmore : Stop x ∨ maxEntries ≤ ((listSector (s.disk d) maxEntries (List.range 16) count
          list).1 : Int) + (dirSlots s l).length := by
        refine hend.imp id fun hmax => ?_
        rw [dirSlots_cons s d, List.length_append] at hmax
        rw [listSector_count hlt]
        omega
      have hlen : l.length < fuel := by simpa using hf
      obtain ⟨r, reads, hrun, hsub⟩ := ih hrest hpass.tail hmore hlen
      dsimp only
      rw [hrun]
      exact ⟨_, _, rfl, List.cons_subset_cons _ hsub⟩

/-! ## Copies -/

/-- The copy loop reads the FAT at the sectors of the chain as long as bytes remain. -/
theorem readChunks_reads : ∀ {fuel curr offset remaining : Nat} {reads writes : List Nat},
    readChunks s fuel curr offset remaining = some (reads, writes) → ∀ x,
    x ∈ reads ↔ ∃ l, Path s.fatTable curr l x ∧ Passes l ∧ ¬Stop x ∧
      512 * l.length < remaining := by
  intro fuel
  induction fuel with
  | zero =>
    intro curr offset remaining reads writes h
    cases h
  | succ fuel ih =>
    intro curr offset remaining reads writes h x
    rw [readChunks] at h
    by_cases hend : curr = fatEof ∨ curr = fatFree ∨ remaining = 0
    · rw [if_pos hend] at h
      obtain ⟨rfl, -⟩ := Prod.mk.inj (Option.some.inj h)
      constructor
      · exact fun hx => absurd hx List.not_mem_nil
      · rintro ⟨l, hpath, hpass, hx, hlen⟩
        rcases hend with heof | hfree | hzero
        · cases l with
          | nil => exact absurd (Or.inl (hpath.symm.trans heof)) hx
          | cons y l => exact absurd (Or.inl (hpath.1.symm.trans heof)) hpass.head
        · cases l with
          | nil => exact absurd (Or.inr (hpath.symm.trans hfree)) hx
          | cons y l => exact absurd (Or.inr (hpath.1.symm.trans hfree)) hpass.head
        · omega
    · rw [if_neg hend] at h
      obtain ⟨⟨reads', writes'⟩, hrec, heq⟩ := Option.map_eq_some_iff.mp h
      obtain ⟨rfl, -⟩ := Prod.mk.inj heq
      have hstop : ¬Stop curr := fun hs => hend (hs.elim Or.inl fun hf => Or.inr (Or.inl hf))
      have hchunk : ∀ n : Nat, 512 * n <
          remaining - (if remaining > 512 then 512 else remaining) ↔
          512 * (n + 1) < remaining := by
        intro n
        split_ifs <;> omega
      rw [List.mem_cons, ih hrec]
      constructor
      · rintro (rfl | ⟨l, hpath, hpass, hx, hlen⟩)
        · refine ⟨[], rfl, fun y hy => absurd hy List.not_mem_nil, hstop, ?_⟩
          rw [List.length_nil]
          omega
        · exact ⟨curr :: l, ⟨rfl, hpath⟩, hpass.cons hstop, hx, (hchunk _).mp hlen⟩
      · rintro ⟨l, hpath, hpass, hx, hlen⟩
        cases l with
        | nil => exact Or.inl (Eq.symm hpath)
        | cons y l =>
          obtain ⟨rfl, hrest⟩ := hpath
          exact Or.inr ⟨l, hrest, hpass.tail, hx, (hchunk _).mpr hlen⟩

/-! ## Freeing a chain -/

/-- A way back to `x` that passes a sector also leads on from its last visit there. -/
theorem path_last_visit {next : Nat → Nat} {a z x : Nat} {l : List Nat} (h : Path next a l x)
    (hz : z ∈ l) : ∃ k, Path next (next z) k x ∧ z ∉ k ∧ k ⊆ l := by
  obtain ⟨ys, xs, hrev, hnot⟩ := List.eq_append_cons_of_mem (List.mem_reverse.mpr hz)
  have hl : l = xs.reverse ++ z :: ys.reverse := by
    rw [← List.reverse_reverse l, hrev, List.reverse_append, List.reverse_cons, List.append_assoc]
    rfl
  rw [hl] at h
  obtain ⟨mid, -, hmid⟩ := path_append.mp h
  obtain ⟨rfl, hrest⟩ := hmid
  refine ⟨ys.reverse, hrest, fun hmem => hnot (List.mem_reverse.mp hmem), ?_⟩
  intro y hy
  rw [hl]
  exact List.mem_append_right _ (List.mem_cons_of_mem _ hy)

/-- The state after one sector was freed. -/
def freeSector (s : State) (curr : Nat) : State := kfsSyncFat (setFat s curr fatFree) curr

theorem freeSector_fatTable (s : State) (curr : Nat) :
    (freeSector s curr).fatTable = Function.update s.fatTable curr fatFree := by
  rw [freeSector, kfsSyncFat_fatTable]
  rfl

theorem freeSector_total (s : State) (curr : Nat) :
    (freeSector s curr).totalDiskSectors = s.totalDiskSectors := by
  rw [freeSector, kfsSyncFat_total]
  rfl

/-- The loop reads the FAT at every sector of the chain. -/
theorem freeChain_reads : ∀ {fuel : Nat} {s s' : State} {curr : Nat} {reads : List Nat},
    freeChain fuel s curr = some (s', reads) → ∀ l x, Path s.fatTable curr l x → Passes l →
    ¬Stop x → x ∈ reads := by
  intro fuel
  induction fuel with
  | zero =>
    intro s s' curr reads h
    cases h
  | succ fuel ih =>
    intro s s' curr reads h l x hpath hpass hx
    rw [freeChain] at h
    by_cases hstop : curr = fatEof ∨ curr = fatFree
    · cases l with
      | nil =>
        obtain rfl : curr = x := hpath
        exact absurd hstop hx
      | cons y l =>
        obtain ⟨rfl, -⟩ := hpath
        exact absurd hstop hpass.head
    · rw [if_neg hstop] at h
      obtain ⟨⟨r, reads'⟩, hrec, heq⟩ := Option.map_eq_some_iff.mp h
      obtain ⟨-, rfl⟩ := Prod.mk.inj heq
      by_cases hxc : x = curr
      · rw [hxc]
        exact List.mem_cons_self
      · apply List.mem_cons_of_mem
        have hcurr : curr ∈ l := by
          refine path_head hpath fun hnil => hxc ?_
          rw [hnil] at hpath
          exact Eq.symm hpath
        obtain ⟨k, hk, hnot, hsub⟩ := path_last_visit hpath hcurr
        refine ih hrec k x ?_ (fun y hy => hpass y (hsub hy)) hx
        show Path (freeSector s curr).fatTable (s.fatTable curr) k x
        rw [freeSector_fatTable]
        exact path_congr (fun y hy => Function.update_of_ne (ne_of_mem_of_not_mem hy hnot) _ _) hk

/-- The sectors of the table that are not free. -/
def taken (s : State) : Finset Nat :=
  (Finset.range s.totalDiskSectors).filter fun x => x ≠ fatFree ∧ s.fatTable x ≠ fatFree

theorem taken_freeSector {curr : Nat} (hcurr : curr ∈ taken s) :
    (taken (freeSector s curr)).card + 1 = (taken s).card := by
  have herase : taken (freeSector s curr) = (taken s).erase curr := by
    ext x
    unfold taken
    rw [freeSector_fatTable, freeSector_total, Finset.mem_erase, Finset.mem_filter,
      Finset.mem_filter]
    by_cases hx : x = curr
    · rw [hx, Function.update_self]
      simp
    · rw [Function.update_of_ne hx]
      simp [hx]
  rw [herase]
  exact Finset.card_erase_add_one hcurr

/-- The chain behind a freed sector stays in the table. -/
theorem Inside.freeSector {curr : Nat} (h : Inside s curr) (hstop : ¬Stop curr) :
    Inside (freeSector s curr) (s.fatTable curr) := by
  intro l y hpath hpass hy
  rw [freeSector_fatTable] at hpath
  rw [freeSector_total]
  have hnot : curr ∉ l := by
    intro hmem
    -- from the freed sector the walk would go to a stop
    obtain ⟨xs, ys, rfl, hfrom⟩ := path_from hpath hmem
    have hrest := hfrom.2
    rw [Function.update_self] at hrest
    cases ys with
    | nil =>
      obtain rfl : fatFree = y := hrest
      exact hy (Or.inr rfl)
    | cons z ys =>
      obtain ⟨rfl, -⟩ := hrest
      exact hpass fatFree (List.mem_append_right _ (List.mem_cons_of_mem _ List.mem_cons_self))
        (Or.inr rfl)
  have hold : Path s.fatTable (s.fatTable curr) l y :=
    path_congr (fun z hz => (Function.update_of_ne (ne_of_mem_of_not_mem hz hnot) _ _).symm) hpath
  exact h (curr :: l) y ⟨rfl, hold⟩ (hpass.cons hstop) hy

/-- In the table the loop comes to an end: it frees what is not free, or stops. -/
theorem freeChain_returns : ∀ {fuel : Nat} {s : State} {curr : Nat}, Inside s curr →
    (taken s).card + 2 ≤ fuel → ∃ s' reads, freeChain fuel s curr = some (s', reads) ∧
      s'.totalDiskSectors = s.totalDiskSectors ∧ ∀ x ∈ reads, x < s.totalDiskSectors := by
  intro fuel
  induction fuel with
  | zero => exact fun {s curr} _ h => absurd h (by omega)
  | succ fuel ih =>
    intro s curr hinside hfuel
    rw [freeChain]
    by_cases hstop : curr = fatEof ∨ curr = fatFree
    · rw [if_pos hstop]
      exact ⟨s, [], rfl, rfl, fun x hx => absurd hx List.not_mem_nil⟩
    · rw [if_neg hstop]
      have hcurr := hinside [] curr rfl (fun y hy => absurd hy List.not_mem_nil) hstop
      have hnext := hinside.freeSector hstop
      change ∃ s' reads, Option.map _ (freeChain fuel (freeSector s curr) _) = _ ∧ _
      obtain ⟨s', reads, hrun, htotal, hreads⟩ : ∃ s' reads,
          freeChain fuel (freeSector s curr) (s.fatTable curr) = some (s', reads) ∧
            s'.totalDiskSectors = (freeSector s curr).totalDiskSectors ∧
            ∀ x ∈ reads, x < (freeSector s curr).totalDiskSectors := by
        by_cases hfree : s.fatTable curr = fatFree
        · obtain ⟨fuel, rfl⟩ := Nat.exists_eq_succ_of_ne_zero (show fuel ≠ 0 by omega)
          rw [freeChain, if_pos (Or.inr hfree)]
          exact ⟨_, [], rfl, rfl, fun x hx => absurd hx List.not_mem_nil⟩
        · have hmem : curr ∈ taken s := Finset.mem_filter.mpr
            ⟨Finset.mem_range.mpr hcurr, fun hc => hstop (Or.inr hc), hfree⟩
          have hcard := taken_freeSector hmem
          exact ih hnext (by omega)
      rw [freeSector_total] at htotal hreads
      rw [hrun]
      exact ⟨s', curr :: reads, rfl, htotal, List.forall_mem_cons.mpr ⟨hcurr, hreads⟩⟩

theorem taken_card_le (s : State) : (taken s).card + 2 ≤ walkFuel s + 1 := by
  have hcard := Finset.card_filter_le (Finset.range s.totalDiskSectors)
    fun x => x ≠ fatFree ∧ s.fatTable x ≠ fatFree
  rw [Finset.card_range] at hcard
  unfold walkFuel taken
  omega

end Kyuzen.Kfs.Touched
