import Kyuzen.Paging.System

/-!
# The frames of an address space

The frames that belong to an address space are its tables and the pages mapped in its lower
half. Seen with one more level, the pages are the leaves of the same trees (`nextFrame`), and
`vmm_destroy_address_space` gives back the frames of each subtree in turn
(`destroySpace_frees`), provided that none of them occurs twice. Frames that the physical memory
manager has handed out are then free, once each and without a warning (`freeAll_spec`).
-/

namespace Kyuzen.Paging

open Lib.Radix

variable {s s' : State} {live : Finset Nat} {top : Fin 512 → Nat} {x : Sys}

/-! ## Pages as leaves -/

/-- The pointers of the tables with the pages as the level below the PTs; levels are one higher
than in `nextOf`. -/
def nextFrame (level : Nat) (i : Fin 512) (e : Nat) : Option Nat :=
  if level = 1 then (if present e then some (pageMask e) else none) else nextOf (level - 1) i e

theorem nextFrame_level_zero (i : Fin 512) (e : Nat) : nextFrame 0 i e = none := rfl

theorem nextFrame_zero (level : Nat) (i : Fin 512) : nextFrame level i 0 = none := by
  unfold nextFrame
  split_ifs with h1 h2
  · exact absurd h2 (by decide)
  · rfl
  · exact nextOf_zero _ i

theorem nextFrame_succ {level : Nat} (hl : level ≠ 0) (i : Fin 512) (e : Nat) :
    nextFrame (level + 1) i e = nextOf level i e := by
  rw [nextFrame, if_neg (by omega), Nat.add_sub_cancel]

theorem nextOf_ne_zero {level : Nat} {i : Fin 512} {e m : Nat} (h : nextOf level i e = some m) :
    level ≠ 0 := by
  rintro rfl
  cases h

theorem walk_frame_of_table {k n m : Nat} {p : List (Fin 512)}
    (h : walk nextOf s.mem k n p = some m) : walk nextFrame s.mem (k + 1) n p = some m := by
  induction p generalizing k n with
  | nil => exact h
  | cons i p ih =>
    obtain ⟨m', hnext, hrest⟩ := Option.bind_eq_some_iff.mp h
    have hk := nextOf_ne_zero hnext
    rw [walk, nextFrame_succ hk, hnext, Option.bind_some, Nat.add_sub_cancel]
    have := ih hrest
    rwa [Nat.sub_add_cancel (Nat.one_le_iff_ne_zero.mpr hk)] at this

/-- A walk that stops above the pages visits tables. -/
theorem walk_table_of_frame {k n m : Nat} {p : List (Fin 512)} (hp : p.length ≤ k)
    (h : walk nextFrame s.mem (k + 1) n p = some m) : walk nextOf s.mem k n p = some m := by
  induction p generalizing k n with
  | nil => exact h
  | cons i p ih =>
    rw [List.length_cons] at hp
    have hk : k ≠ 0 := by omega
    rw [walk, nextFrame_succ hk, Nat.add_sub_cancel] at h
    obtain ⟨m', hnext, hrest⟩ := Option.bind_eq_some_iff.mp h
    rw [walk, hnext]
    refine ih (by omega) ?_
    rwa [Nat.sub_add_cancel (Nat.one_le_iff_ne_zero.mpr hk)]

/-- The last step of a walk to a page. -/
theorem walk_page_iff {k n m : Nat} {p : List (Fin 512)} {i : Fin 512} (hp : p.length = k) :
    walk nextFrame s.mem (k + 1) n (p ++ [i]) = some m ↔
      ∃ pt, walk nextOf s.mem k n p = some pt ∧ present (s.mem pt i) = true ∧
        pageMask (s.mem pt i) = m := by
  have hlevel : k + 1 - p.length = 1 := by omega
  have hstep : ∀ pt, walk nextFrame s.mem 1 pt [i] =
      if present (s.mem pt i) then some (pageMask (s.mem pt i)) else none := by
    intro pt
    simp only [walk, nextFrame, if_true]
    cases present (s.mem pt i) <;> rfl
  rw [walk_append, Option.bind_eq_some_iff]
  refine exists_congr fun pt => ?_
  rw [hlevel, hstep]
  constructor
  · rintro ⟨hwalk, hpage⟩
    split_ifs at hpage with hpres
    exact ⟨walk_table_of_frame hp.le hwalk, hpres, Option.some.inj hpage⟩
  · rintro ⟨hwalk, hpres, hm⟩
    refine ⟨walk_frame_of_table hwalk, ?_⟩
    rw [if_pos hpres, hm]

theorem Cleared.walkFrame {cells : Nat → Fin 512 → Prop} {k n m : Nat} {p : List (Fin 512)}
    (h : Cleared cells s s') (hwalk : Lib.Radix.walk nextFrame s'.mem k n p = some m) :
    Lib.Radix.walk nextFrame s.mem k n p = some m := by
  refine walk_of_cleared (fun n i => ?_) hwalk
  rcases h.zero n i with heq | ⟨_, hz⟩
  · exact Or.inl heq
  · rw [hz]
    exact Or.inr fun k => nextFrame_zero k i

/-! ## Giving frames back -/

def freeAll (s : State) (l : List Nat) : State := l.foldl freeOwned s

theorem freeAll_append (s : State) (l l' : List Nat) :
    freeAll s (l ++ l') = freeAll (freeAll s l) l' := List.foldl_append

theorem freeOwned_mem (s : State) (mem : Nat → Fin 512 → Nat) (addr : Nat) :
    freeOwned { s with mem := mem } addr = { freeOwned s addr with mem := mem } := by
  unfold freeOwned
  dsimp only
  split_ifs <;> rfl

theorem freeAll_mem (mem : Nat → Fin 512 → Nat) (l : List Nat) : ∀ s : State,
    freeAll { s with mem := mem } l = { freeAll s l with mem := mem } := by
  induction l with
  | nil => exact fun s => rfl
  | cons f l ih =>
    intro s
    change freeAll (freeOwned { s with mem := mem } f) l = _
    rw [freeOwned_mem, ih]
    rfl

/-- The physical memory manager takes back a page that it has handed out. -/
theorem freeOwned_used (h : Pmm.Inv s.pmm) {f : Nat} (hf : PmmUsed s.pmm f) :
    freeOwned s f = { s with pmm := s.pmm.release (f / 4096) } ∧
      freePage s f = { s with pmm := s.pmm.release (f / 4096) } ∧
      Pmm.Inv (s.pmm.release (f / 4096)) := by
  have hne : f ≠ Pmm.physNull := by
    have h1 := hf.above
    have h2 : Pmm.kernelZone = 0x4800000 := rfl
    have h3 : Pmm.physNull = 0 := rfl
    omega
  have hacc : Pmm.Accepts s.pmm f :=
    ⟨hf.aligned, by rw [← h.total]; exact hf.tracked, hf.above, hf.used⟩
  have hfree : freePage s f = { s with pmm := s.pmm.release (f / 4096) } := by
    unfold freePage
    rcases Pmm.free_cases h f with ⟨_, hno⟩ | ⟨heq, _⟩
    · exact absurd hacc hno
    · rw [heq]
      simp [Pmm.pageSize]
  have hown : Pmm.pmmOwnsPage s.pmm f = true := by
    have halign : f % Pmm.pageSize = 0 := hf.aligned
    have htrack : ¬ f / Pmm.pageSize ≥ s.pmm.bitmapPages := not_le.mpr hacc.tracked
    rw [Pmm.pmmOwnsPage, if_neg (by simp [hne, halign]), if_neg (by simp [h.ready]), if_neg htrack]
    exact hf.used
  refine ⟨?_, hfree, Pmm.inv_release h hacc⟩
  rw [freeOwned, if_pos hown, hfree]

theorem PmmUsed.release {p : Pmm.State} {f g : Nat} (h : PmmUsed p f) (hg : g % 4096 = 0)
    (hne : f ≠ g) : PmmUsed (p.release (g / 4096)) f := by
  refine ⟨h.aligned, h.tracked, h.above, ?_⟩
  rw [Pmm.used_release, h.used, Bool.and_true, decide_eq_true_eq]
  exact fun hc => hne (eq_of_page h.aligned hg hc)

/-- What giving back a list of frames does. -/
structure Freed (l : List Nat) (s s' : State) : Prop where
  inv : Pmm.Inv s'.pmm
  pages : s'.pmm.totalPages = s.pmm.totalPages
  used : ∀ i, s'.pmm.used i = true ↔ s.pmm.used i = true ∧ i * 4096 ∉ l
  warnings : s'.warnings = s.warnings

theorem Freed.congr_mem {l : List Nat} (h : Freed l s s') (mem : Nat → Fin 512 → Nat) :
    Freed l s { s' with mem := mem } :=
  ⟨h.inv, h.pages, h.used, h.warnings⟩

theorem freeAll_spec : ∀ {l : List Nat} {s : State}, Pmm.Inv s.pmm → l.Nodup →
    (∀ f ∈ l, PmmUsed s.pmm f) → Freed l s (freeAll s l) := by
  intro l
  induction l with
  | nil =>
    intro s h _ _
    exact ⟨h, rfl, fun i => by simp [freeAll], rfl⟩
  | cons f l ih =>
    intro s h hnd hused
    obtain ⟨hfl, hnd'⟩ := List.nodup_cons.mp hnd
    have hf := hused f List.mem_cons_self
    obtain ⟨heq, _, hinv⟩ := freeOwned_used h hf
    have hrest := ih (s := freeOwned s f) (by rw [heq]; exact hinv) hnd' fun g hg => by
      rw [heq]
      refine (hused g (List.mem_cons_of_mem _ hg)).release hf.aligned ?_
      rintro rfl
      exact hfl hg
    refine ⟨hrest.inv, ?_, fun i => ?_, ?_⟩
    · exact hrest.pages.trans (by rw [heq]; rfl)
    · refine (hrest.used i).trans ?_
      rw [heq, Pmm.used_release, Bool.and_eq_true, decide_eq_true_eq, List.mem_cons, not_or]
      have hpage : i ≠ f / 4096 ↔ ¬ i * 4096 = f := by
        have := hf.aligned
        omega
      rw [hpage]
      tauto
    · exact hrest.warnings.trans (by rw [heq])

/-! ## The loops of `vmm_destroy_address_space` -/

/-- The frames below an entry of a table of the given level. -/
def framesBelow (s : State) (level table : Nat) (i : Fin 512) : List Nat :=
  below nextFrame s.mem (List.finRange 512) (level + 1) table i

/-- No frame is reached twice from `table`. -/
def Injective (s : State) (level table : Nat) : Prop :=
  ∀ p q m, walk nextFrame s.mem (level + 1) table p = some m →
    walk nextFrame s.mem (level + 1) table q = some m → p = q

/-- The loop body gives back the frames below its entry. -/
def EntryFrees (level : Nat) : Prop :=
  ∀ table s i, Injective s level table → (level = 3 → i.val < 256) →
    ∃ mem, destroyEntry level table s i =
      { freeAll s (framesBelow s level table i) with mem := mem }

/-- The loop over some entries of one table. The frames below an entry that is still to come
are not touched by the earlier iterations. -/
theorem destroyEntries_frees {level : Nat} (hlevel : level ≤ 3) (hbody : EntryFrees level)
    (table : Nat) {s : State} (hinj : Injective s level table) :
    ∀ (l : List (Fin 512)) (s' : State), l.Nodup → (level = 3 → ∀ i ∈ l, i.val < 256) →
      Cleared (fun _ _ => True) s s' → (∀ i ∈ l, s'.mem table i = s.mem table i) →
      (∀ i ∈ l, ∀ q n, walk nextFrame s.mem (level + 1) table (i :: q) = some n →
        s'.mem n = s.mem n) →
      ∃ mem, l.foldl (destroyEntry level table) s' =
        { freeAll s' (l.flatMap (framesBelow s level table)) with mem := mem } := by
  intro l
  induction l with
  | nil => exact fun s' _ _ _ _ _ => ⟨s'.mem, rfl⟩
  | cons i l ih =>
    intro s' hnd hlow hcl hcell hbelow
    obtain ⟨hil, hnd'⟩ := List.nodup_cons.mp hnd
    have hi : level = 3 → i.val < 256 := fun h3 => hlow h3 i List.mem_cons_self
    have hinj' : Injective s' level table := fun p q m hp hq =>
      hinj p q m (hcl.walkFrame hp) (hcl.walkFrame hq)
    have hframes : framesBelow s' level table i = framesBelow s level table i :=
      below_congr (hcell i List.mem_cons_self) (hbelow i List.mem_cons_self)
    obtain ⟨mem₁, heq₁⟩ := hbody table s' i hinj' hi
    have hstep := destroyEntry_cleared table s' hlevel hi
    -- what one iteration changes lies below its own entry
    have hsub : ∀ {n j}, Below s' level table i n j → n = table ∧ j = i ∨
        ∃ q, walk nextFrame s.mem (level + 1) table (i :: q) = some n := by
      rintro n j (hself | ⟨q, hq⟩)
      · exact Or.inl hself
      · exact Or.inr ⟨q, hcl.walkFrame (walk_frame_of_table hq)⟩
    have hkeep : ∀ n j, ¬ (n = table ∧ j = i) →
        (∀ q, walk nextFrame s.mem (level + 1) table (i :: q) ≠ some n) →
        (destroyEntry level table s' i).mem n j = s'.mem n j := by
      intro n j hne hno
      rcases hstep.zero n j with heq | ⟨hin, _⟩
      · exact heq
      · rcases hsub hin with hself | ⟨q, hq⟩
        · exact absurd hself hne
        · exact absurd hq (hno q)
    obtain ⟨mem, heq⟩ := ih (destroyEntry level table s' i) hnd'
      (fun h3 j hj => hlow h3 j (List.mem_cons_of_mem _ hj))
      (hcl.trans (hstep.mono fun _ _ _ => trivial))
      (fun j hj => by
        rw [hkeep table j, hcell j (List.mem_cons_of_mem _ hj)]
        · rintro ⟨_, rfl⟩
          exact hil hj
        · intro q hq
          exact List.cons_ne_nil _ _ (hinj _ [] table hq rfl))
      (fun j hj q n hn => by
        funext k
        rw [hkeep n k, hbelow j (List.mem_cons_of_mem _ hj) q n hn]
        · rintro ⟨rfl, _⟩
          exact List.cons_ne_nil _ _ (hinj _ [] n hn rfl)
        · intro q' hq'
          have := (List.cons.inj (hinj _ _ n hq' hn)).1
          exact hil (this ▸ hj))
    refine ⟨mem, ?_⟩
    rw [List.foldl_cons, heq, heq₁, hframes, freeAll_mem, List.flatMap_cons, freeAll_append]

theorem destroyEntry_frees : ∀ {level : Nat}, level ≤ 3 → EntryFrees level := by
  intro level
  induction level with
  | zero =>
    intro _ table s i _ _
    have hframes : framesBelow s 0 table i =
        if present (s.mem table i) then [pageMask (s.mem table i)] else [] := by
      simp only [framesBelow, below, nextFrame, if_true]
      cases present (s.mem table i) <;> simp
    rw [destroyEntry, hframes]
    cases hpres : present (s.mem table i) with
    | false => exact ⟨s.mem, rfl⟩
    | true => exact ⟨_, rfl⟩
  | succ level ih =>
    intro hlevel table s i hinj hi
    have hsucc : framesBelow s (level + 1) table i = (tableBehind (s.mem table i)).elim []
        fun t => (List.finRange 512).flatMap (framesBelow s level t) ++ [t] := by
      rw [framesBelow, below, nextFrame_succ (Nat.succ_ne_zero level),
        nextOf_inner (Nat.succ_ne_zero level) fun hc => by have := hi hc.1; omega]
      cases tableBehind (s.mem table i) <;> rfl
    rw [destroyEntry, hsucc]
    cases hpres : present (s.mem table i) with
    | false => exact ⟨s.mem, by simp [tableBehind, hpres, freeAll]⟩
    | true =>
      cases hhuge : huge (s.mem table i) with
      | true => exact ⟨_, by simp [tableBehind, hpres, hhuge, freeAll, setEntry]; rfl⟩
      | false =>
        have hnext : nextFrame (level + 1 + 1) i (s.mem table i) =
            some (pageMask (s.mem table i)) := by
          rw [nextFrame_succ (Nat.succ_ne_zero level),
            nextOf_inner (Nat.succ_ne_zero level) fun hc => by have := hi hc.1; omega]
          exact tableBehind_of_present hpres hhuge
        have hinj' : Injective s level (pageMask (s.mem table i)) := by
          intro p q m hp hq
          have hstep : ∀ p, walk nextFrame s.mem (level + 1) (pageMask (s.mem table i)) p = some m →
              walk nextFrame s.mem (level + 1 + 1) table (i :: p) = some m := by
            intro p hp
            rw [walk, hnext]
            exact hp
          exact (List.cons.inj (hinj _ _ m (hstep p hp) (hstep q hq))).2
        obtain ⟨mem, heq⟩ := destroyEntries_frees (by omega) (ih (by omega)) _ hinj'
          (List.finRange 512) s (List.nodup_finRange 512) (fun h3 => by omega)
          (Cleared.refl _ s) (fun _ _ => rfl) fun _ _ _ _ _ => rfl
        rw [tableBehind_of_present hpres hhuge]
        simp only [Bool.not_true, Bool.false_eq_true, if_false, heq]
        rw [freeOwned_mem, Option.elim_some, freeAll_append]
        exact ⟨_, rfl⟩

/-- The frames that destroying a space gives back. -/
def spaceFrames (s : State) (r : Nat) (freePml4 : Bool) : List Nat :=
  lowerHalf.flatMap (framesBelow s 3 r) ++ if freePml4 then [r] else []

theorem nodup_lowerHalf : lowerHalf.Nodup := (List.nodup_finRange 512).filter _

theorem destroySpace_frees {r : Nat} (hr : r ≠ Pmm.physNull) (hinj : Injective s 3 r)
    (freePml4 : Bool) : ∃ mem, vmmDestroyAddressSpace s r freePml4 =
      { freeAll s (spaceFrames s r freePml4) with mem := mem } := by
  obtain ⟨mem, heq⟩ := destroyEntries_frees (le_refl 3) (destroyEntry_frees (le_refl 3)) r hinj
    lowerHalf s nodup_lowerHalf (fun _ i hi => mem_lowerHalf.mp hi) (Cleared.refl _ s)
    (fun _ _ => rfl) fun _ _ _ _ _ => rfl
  unfold vmmDestroyAddressSpace spaceFrames
  rw [if_neg hr]
  dsimp only
  rw [heq]
  cases freePml4 with
  | false => exact ⟨mem, by simp⟩
  | true =>
    simp only [if_true]
    rw [freeOwned_mem, freeAll_append]
    exact ⟨mem, rfl⟩

/-- Exactly the frames that a path of the space leads to are given back. -/
theorem mem_spaceFrames {r f : Nat} {freePml4 : Bool} :
    f ∈ spaceFrames s r freePml4 ↔
      (∃ p, p ≠ [] ∧ walk nextFrame s.mem 4 r p = some f) ∨ freePml4 = true ∧ f = r := by
  unfold spaceFrames
  rw [List.mem_append, List.mem_flatMap]
  refine or_congr ⟨?_, ?_⟩ ?_
  · rintro ⟨i, _, hf⟩
    obtain ⟨q, hq⟩ := walk_of_mem_below hf
    exact ⟨i :: q, by simp, hq⟩
  · rintro ⟨p, hp, hwalk⟩
    cases p with
    | nil => exact absurd rfl hp
    | cons i q =>
      have hi : i.val < 256 := by
        by_contra hi
        have hnone : nextFrame 4 i (s.mem r i) = none := by
          rw [nextFrame_succ (by decide), nextOf, if_pos (Or.inr ⟨rfl, by omega⟩)]
        rw [walk, hnone] at hwalk
        cases hwalk
      exact ⟨i, mem_lowerHalf.mpr hi,
        mem_below_of_walk nextFrame_level_zero (fun i => List.mem_finRange i) hwalk⟩
  · cases freePml4 <;> simp

theorem nodup_spaceFrames {r : Nat} (hinj : Injective s 3 r) (freePml4 : Bool) :
    (spaceFrames s r freePml4).Nodup := by
  unfold spaceFrames
  refine List.Nodup.append (List.nodup_flatMap.mpr ⟨fun i _ => ?_, ?_⟩) ?_ ?_
  · exact nodup_below (List.nodup_finRange 512) hinj
  · refine nodup_lowerHalf.imp fun {i j} hij f hf hf' => ?_
    obtain ⟨q, hq⟩ := walk_of_mem_below hf
    obtain ⟨q', hq'⟩ := walk_of_mem_below hf'
    exact hij (List.cons.inj (hinj _ _ f hq hq')).1
  · cases freePml4 <;> simp
  · intro f hf hfr
    obtain ⟨i, _, hf⟩ := List.mem_flatMap.mp hf
    obtain ⟨q, hq⟩ := walk_of_mem_below hf
    cases freePml4 with
    | false => cases hfr
    | true =>
      rw [if_pos rfl, List.mem_singleton] at hfr
      rw [hfr] at hq
      exact List.cons_ne_nil _ _ (hinj _ [] r hq rfl)

end Kyuzen.Paging
