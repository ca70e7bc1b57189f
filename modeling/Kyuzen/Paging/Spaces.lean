import Kyuzen.Paging.Translate

/-!
# Address spaces

`init_paging` fills the upper half of the boot PML4, which makes the tables left by the boot
loader (`BootTables`) a forest of the right shape (`initPaging_shape`). A new address space is
one more root without tables of its own (`createSpace_cases`); destroying one only clears
entries of its own tables (`destroySpace_cleared`).
-/

namespace Kyuzen.Paging

open Lib.Radix

variable {s s' s₁ s₂ : State} {live : Finset Nat} {top : Fin 512 → Nat} {r : Nat}

theorem mem_higherHalf {i : Fin 512} : i ∈ higherHalf ↔ 256 ≤ i.val := by
  simp [higherHalf]

theorem mem_lowerHalf {i : Fin 512} : i ∈ lowerHalf ↔ i.val < 256 := by
  simp [lowerHalf]

/-! ## `init_paging` -/

/-- The tables that the boot loader leaves behind, with the PML4 at `k`: bit 7 of a PML4 entry
is reserved, no table is used twice, and none is memory that may be handed out. -/
structure BootTables (s : State) (k : Nat) : Prop where
  huge : ∀ i, huge (s.mem k i) = false
  separate : Separate nextOf s.mem (roots {k} (s.mem k))
  fresh : Fresh s {k} (s.mem k)
  pmm : Pmm.Inv s.pmm

/-- A page that was handed out, but not as a table. -/
def OutOfTables (s : State) (k f : Nat) : Prop :=
  PmmUsed s.pmm f ∧ ∀ a p, tableAt s {k} (s.mem k) a p ≠ some f

/-- `populate` leaves the entry as it is, or enters a new table. -/
theorem populate_cases (hinv : Pmm.Inv s.pmm) {i : Fin 512} (hrun : populate s i = some s') :
    present (s.mem s.kernelPml4Phys i) = true ∧ s' = s ∨
      ∃ m, PmmFree s.pmm m ∧ Pmm.Inv (s.pmm.take (m / 4096)) ∧
        present (s.mem s.kernelPml4Phys i) = false ∧
        s' = setEntry (zeroed s m) s.kernelPml4Phys i (m ||| 7) := by
  unfold populate at hrun
  by_cases hpres : present (s.mem s.kernelPml4Phys i) = true
  · rw [if_pos hpres] at hrun
    exact Or.inl ⟨hpres, (Option.some.inj hrun).symm⟩
  rw [if_neg hpres] at hrun
  rcases allocPageVirt_cases hinv with ⟨m, hm, _, hinv', heq⟩ | heq
  · rw [heq] at hrun
    exact Or.inr ⟨m, hm, hinv', Bool.not_eq_true _ ▸ hpres, (Option.some.inj hrun).symm⟩
  · rw [heq] at hrun
    cases hrun

section Entered

variable {k m : Nat} {i : Fin 512}

theorem entered_mem (hkm : k ≠ m) (j : Fin 512) :
    (setEntry (zeroed s m) k i (m ||| 7)).mem k j = if j = i then m ||| 7 else s.mem k j := by
  by_cases hj : j = i
  · rw [hj, if_pos rfl, setEntry_self]
  · rw [if_neg hj, setEntry_mem, write_of_ne fun hc => hj hc.2]
    exact congrFun (Function.update_of_ne hkm _ _) j

/-- The tables after a new one has been entered: it, and those that were there. -/
theorem tableAt_entered (h : BootTables s k) (hm : PmmFree s.pmm m) (hi : 256 ≤ i.val) {b : Anchor}
    {q : List (Fin 512)} {x : Nat}
    (hx : tableAt (setEntry (zeroed s m) k i (m ||| 7)) {k}
      ((setEntry (zeroed s m) k i (m ||| 7)).mem k) b q = some x) :
    tableAt s {k} (s.mem k) b q = some x ∨ b = .kernel i ∧ q = [] ∧ x = m := by
  have hkm : k ≠ m := h.fresh.ne hm (tableAt_space (by simp))
  by_cases hb : b = .kernel i
  · right
    subst hb
    have hroot : roots {k} ((setEntry (zeroed s m) k i (m ||| 7)).mem k) (.kernel i) =
        some (2, m) := by
      simp [roots, hi, present_table, pageMask_or hm.aligned]
    rw [tableAt, node_of_root hroot] at hx
    cases q with
    | nil =>
      cases hx
      exact ⟨rfl, rfl, rfl⟩
    | cons j q =>
      rw [walk, setEntry_mem, write_table_of_ne hkm.symm, zeroed_self, nextOf_zero] at hx
      cases hx
  · left
    -- below the old roots, the new entry is a leaf
    have hroots : roots {k} ((setEntry (zeroed s m) k i (m ||| 7)).mem k) b =
        roots {k} (s.mem k) b := by
      cases b with
      | space x => rfl
      | kernel j =>
        have hj : j ≠ i := fun hj => hb (by rw [hj])
        simp only [roots, entered_mem hkm, if_neg hj]
    have hroot : roots {k} (s.mem k) (.space k) = some (3, k) := roots_space (by simp)
    have hsep : Separate nextOf (zeroed s m).mem (roots {k} (s.mem k)) := by
      refine separate_of_sub h.separate fun a p n hn => ?_
      exact (zeroed_tableAt h.fresh hm a p).symm.trans hn
    have hnone : ∀ e, nextOf 3 i e = none := fun e => by simp [nextOf, hi]
    have hold : node nextOf (write (zeroed s m).mem k i (m ||| 7)) (roots {k} (s.mem k)) b q =
        node nextOf (zeroed s m).mem (roots {k} (s.mem k)) b q :=
      node_write_leaf hsep hroot
        ((zeroed_tableAt h.fresh hm _ _).trans (tableAt_space (by simp))) (hnone _) (hnone _) b q
    rw [tableAt, node, hroots] at hx
    rw [← zeroed_tableAt h.fresh hm b q]
    exact hold.symm.trans hx

end Entered

theorem populate_tables {k : Nat} (h : BootTables s k) (hk : s.kernelPml4Phys = k) {i : Fin 512}
    (hi : 256 ≤ i.val) (hrun : populate s i = some s') :
    BootTables s' k ∧ s'.kernelPml4Phys = k ∧ s'.currentPml4 = s.currentPml4 ∧
      present (s'.mem k i) = true ∧
      (∀ j, present (s.mem k j) = true → present (s'.mem k j) = true) ∧
      ∀ f, OutOfTables s k f → OutOfTables s' k f := by
  have hcases := populate_cases h.pmm hrun
  rw [hk] at hcases
  rcases hcases with ⟨hpres, rfl⟩ | ⟨m, hm, hinv, -, rfl⟩
  · exact ⟨h, hk, rfl, hpres, fun _ => id, fun _ => id⟩
  have hkm : k ≠ m := h.fresh.ne hm (tableAt_space (by simp))
  refine ⟨⟨fun j => ?_, ?_, ?_, hinv⟩, hk, rfl, ?_, fun j hj => ?_, fun f hf => ?_⟩
  · rw [entered_mem hkm]
    split_ifs
    · exact huge_table hm.aligned
    · exact h.huge j
  · exact separate_of_added h.separate (fun a p hn => h.fresh.ne hm hn rfl)
      fun a p n hn => tableAt_entered h hm hi hn
  · intro a p n hn hfree
    obtain ⟨hfree, hne⟩ := PmmFree.of_take (p := s.pmm) (i := m / 4096) hfree
    rcases tableAt_entered h hm hi hn with hn | ⟨_, _, rfl⟩
    · exact h.fresh a p n hn hfree
    · exact hne rfl
  · rw [entered_mem hkm, if_pos rfl]
    exact present_table m
  · rw [entered_mem hkm]
    split_ifs
    · exact present_table m
    · exact hj
  · refine ⟨hf.1.take _, fun a p hn => ?_⟩
    rcases tableAt_entered h hm hi hn with hn | ⟨_, _, rfl⟩
    · exact hf.2 a p hn
    · have := hf.1.used
      rw [hm.free] at this
      cases this

theorem populateAll_tables {k : Nat} : ∀ {l : List (Fin 512)} {s s' : State}, BootTables s k →
    s.kernelPml4Phys = k → (∀ i ∈ l, 256 ≤ i.val) → l.foldlM populate s = some s' →
    BootTables s' k ∧ s'.kernelPml4Phys = k ∧ s'.currentPml4 = s.currentPml4 ∧
      (∀ i ∈ l, present (s'.mem k i) = true) ∧
      (∀ j, present (s.mem k j) = true → present (s'.mem k j) = true) ∧
      ∀ f, OutOfTables s k f → OutOfTables s' k f := by
  intro l
  induction l with
  | nil =>
    intro s s' h hk _ hrun
    cases hrun
    exact ⟨h, hk, rfl, by simp, fun _ => id, fun _ => id⟩
  | cons i l ih =>
    intro s s' h hk hl hrun
    rw [List.foldlM_cons] at hrun
    obtain ⟨s₁, hstep, hrest⟩ := Option.bind_eq_some_iff.mp hrun
    obtain ⟨h₁, hk₁, hc₁, hp₁, hmono₁, hout₁⟩ := populate_tables h hk (hl i List.mem_cons_self) hstep
    obtain ⟨h₂, hk₂, hc₂, hp₂, hmono₂, hout₂⟩ :=
      ih h₁ hk₁ (fun j hj => hl j (List.mem_cons_of_mem _ hj)) hrest
    refine ⟨h₂, hk₂, hc₂.trans hc₁, fun j hj => ?_, fun j hj => hmono₂ j (hmono₁ j hj),
      fun f hf => hout₂ f (hout₁ f hf)⟩
    rcases List.mem_cons.mp hj with rfl | hj
    · exact hmono₂ _ hp₁
    · exact hp₂ j hj

/-- After `init_paging` the tables have their shape. -/
theorem initPaging_shape {cr3 : Nat} (h : BootTables s (pageMask cr3))
    (hrun : initPaging cr3 s = some s') :
    s'.kernelPml4Phys = pageMask cr3 ∧ Shape s' {pageMask cr3} (s'.mem (pageMask cr3)) ∧
      Fresh s' {pageMask cr3} (s'.mem (pageMask cr3)) ∧
      ∀ f, OutOfTables s (pageMask cr3) f → OutOfTables s' (pageMask cr3) f := by
  obtain ⟨h', hk, hcur, hpres, _, hout⟩ := populateAll_tables (k := pageMask cr3)
    (s := { s with currentPml4 := some (pageMask cr3), kernelPml4Phys := pageMask cr3 })
    ⟨h.huge, h.separate, h.fresh, h.pmm⟩ rfl (fun i hi => mem_higherHalf.mp hi) hrun
  refine ⟨hk, ⟨?_, ?_, fun x hx i _ => ?_, fun i hi => hpres i (mem_higherHalf.mpr hi),
    fun x hx i _ => ?_, h'.separate, h'.pmm⟩, h'.fresh, fun f hf => hout f hf⟩
  · rw [hcur, hk]
  · simp [hk]
  · rw [Finset.mem_singleton.mp hx]
  · rw [Finset.mem_singleton.mp hx]
    exact h'.huge i

/-! ## `vmm_create_address_space` -/

theorem cloneAll_eq {current new : Nat} (hne : current ≠ new) :
    ∀ (l : List (Fin 512)) (s : State), ∃ mem, l.foldl (cloneEntry current new) s =
        { s with mem := mem } ∧ (∀ x, x ≠ new → mem x = s.mem x) ∧
      ∀ i, mem new i = if i ∈ l then s.mem current i else s.mem new i := by
  intro l
  induction l with
  | nil => exact fun s => ⟨s.mem, rfl, fun _ _ => rfl, fun i => by simp⟩
  | cons j l ih =>
    intro s
    obtain ⟨mem, heq, hother, hnew⟩ := ih (cloneEntry current new s j)
    have hx : ∀ x, x ≠ new → (cloneEntry current new s j).mem x = s.mem x := fun x hx =>
      write_table_of_ne hx
    refine ⟨mem, heq, fun x hxn => (hother x hxn).trans (hx x hxn), fun i => ?_⟩
    rw [hnew i, hx current hne]
    by_cases hij : i = j
    · subst hij
      rw [if_pos List.mem_cons_self]
      split_ifs
      · rfl
      · exact setEntry_self _ _ _ _
    · have hcell : (cloneEntry current new s j).mem new i = s.mem new i :=
        write_of_ne fun hc => hij hc.2
      simp [hij, hcell]

/-- A new root `m` without tables of its own. -/
structure Created (live : Finset Nat) (top : Fin 512 → Nat) (m : Nat) (s s' : State) : Prop where
  shape : Shape s' (insert m live) top
  fresh : Fresh s' (insert m live) top
  notMem : m ∉ live
  tables : ∀ {b q x}, tableAt s' (insert m live) top b q = some x ↔
    b = .space m ∧ q = [] ∧ x = m ∨ tableAt s live top b q = some x
  entries : ∀ b q, b ≠ .space m → entryAt s' (insert m live) top b q = entryAt s live top b q
  empty : ∀ i q, i.val < 256 → entryAt s' (insert m live) top (.space m) (i :: q) = none
  mem : ∀ x, x ≠ m → s'.mem x = s.mem x
  free : PmmFree s.pmm m
  above : Pmm.kernelZone ≤ m
  pmm : s'.pmm = s.pmm.take (m / 4096)
  kernel : s'.kernelPml4Phys = s.kernelPml4Phys
  warnings : s'.warnings = s.warnings

section NewRoot

variable {m : Nat} {mem : Nat → Fin 512 → Nat}

theorem roots_insert_of_ne {b : Anchor} (hb : b ≠ .space m) :
    roots (insert m live) top b = roots live top b := by
  cases b with
  | space x =>
    have hx : x ≠ m := fun hx => hb (by rw [hx])
    simp [roots, hx]
  | kernel j => rfl

/-- The tables with a new root that points to none: it, and those that were there. -/
theorem node_newRoot (hf : Fresh s live top) (hm : PmmFree s.pmm m) (hnotMem : m ∉ live)
    (hother : ∀ x, x ≠ m → mem x = s.mem x) (hpoint : ∀ i, nextOf 3 i (mem m i) = none)
    {b : Anchor} {q : List (Fin 512)} {x : Nat} :
    node nextOf mem (roots (insert m live) top) b q = some x ↔
      b = .space m ∧ q = [] ∧ x = m ∨ tableAt s live top b q = some x := by
  by_cases hb : b = .space m
  · subst hb
    have hold : tableAt s live top (.space m) q = none := by
      simp [tableAt, node, roots, hnotMem]
    rw [node_of_root (roots_space (Finset.mem_insert_self m live)), hold]
    cases q with
    | nil => simp [walk, eq_comm]
    | cons i q => simp [walk, hpoint]
  · have hsame : node nextOf mem (roots live top) b q = node nextOf s.mem (roots live top) b q :=
      node_frame (fun a p n hn => hother n (hf.ne hm hn)) b q
    rw [node, roots_insert_of_ne hb]
    rw [node] at hsame
    rw [hsame]
    simp [hb, tableAt]

end NewRoot

theorem createSpace_cases (h : Shape s live top) (hf : Fresh s live top) :
    vmmCreateAddressSpace s = (Pmm.physNull, s) ∨
      ∃ m s', vmmCreateAddressSpace s = (m, s') ∧ Created live top m s s' := by
  unfold vmmCreateAddressSpace
  rw [h.current]
  dsimp only
  rcases allocPageVirt_cases h.pmm with ⟨m, hm, hz, hinv, heq⟩ | heq
  swap
  · left
    rw [heq]
  right
  have hkm : s.kernelPml4Phys ≠ m := hf.ne hm (tableAt_space h.kernel)
  have hnotMem : m ∉ live := fun hmem => hf.ne hm (tableAt_space hmem) rfl
  obtain ⟨mem, hclone, hother, hnew⟩ := cloneAll_eq hkm higherHalf (zeroed s m)
  have hother' : ∀ x, x ≠ m → mem x = s.mem x := fun x hx =>
    (hother x hx).trans (Function.update_of_ne hx _ _)
  have hnew' : ∀ i, mem m i = if 256 ≤ i.val then top i else 0 := by
    intro i
    rw [hnew i]
    simp only [mem_higherHalf, zeroed_self]
    split_ifs with hi
    · rw [show (zeroed s m).mem s.kernelPml4Phys = s.mem s.kernelPml4Phys from
        Function.update_of_ne hkm _ _]
      exact h.top_eq _ h.kernel i hi
    · rfl
  have hpoint : ∀ i, nextOf 3 i (mem m i) = none := by
    intro i
    by_cases hi : 256 ≤ i.val
    · simp [nextOf, hi]
    · rw [hnew' i, if_neg hi]
      exact nextOf_zero 3 i
  have hroot : roots (insert m live) top (.space m) = some (3, m) :=
    roots_space (Finset.mem_insert_self m live)
  have hframe : ∀ a p n, node nextOf s.mem (roots live top) a p = some n → mem n = s.mem n :=
    fun a p n hn => hother' n (hf.ne hm hn)
  have hnode : ∀ {b q x}, node nextOf mem (roots (insert m live) top) b q = some x ↔
      b = .space m ∧ q = [] ∧ x = m ∨ tableAt s live top b q = some x :=
    node_newRoot hf hm hnotMem hother' hpoint
  refine ⟨m, { zeroed s m with mem := mem }, ?_, ?_⟩
  · rw [heq]
    dsimp only
    rw [← hclone]
    rfl
  refine ⟨⟨h.current, Finset.mem_insert_of_mem h.kernel, fun x hx i hi => ?_, h.top_table,
    fun x hx i hi => ?_, ?_, hinv⟩, fun b q x hx hfree => ?_, hnotMem, hnode, fun b q hb => ?_,
    fun i q hi => ?_, hother', hm, hz, rfl, rfl, rfl⟩
  · rcases Finset.mem_insert.mp hx with rfl | hx
    · exact (hnew' i).trans (if_pos hi)
    · exact (congrFun (hother' x (hf.ne hm (tableAt_space hx))) i).trans (h.top_eq x hx i hi)
  · rcases Finset.mem_insert.mp hx with rfl | hx
    · change huge (mem x i) = false
      rw [hnew' i, if_neg (by omega)]
      rfl
    · change huge (mem x i) = false
      rw [hother' x (hf.ne hm (tableAt_space hx))]
      exact h.lower x hx i hi
  · exact separate_of_added h.separate (fun b q hq => hf.ne hm hq rfl)
      fun b q x hx => (hnode.mp hx).symm
  · obtain ⟨hfree, hne⟩ := PmmFree.of_take (p := s.pmm) (i := m / 4096) hfree
    rcases hnode.mp hx with ⟨_, _, rfl⟩ | hx
    · exact hne rfl
    · exact hf b q x hx hfree
  · unfold entryAt find
    rw [roots_insert_of_ne hb]
    exact congrArg _ (find_frame hframe b q)
  · unfold entryAt
    rw [find_of_root hroot, lookup, hpoint]
    simp [hnew', show ¬ 256 ≤ i.val by omega, Option.filter, present_zero]

/-! ## `vmm_destroy_address_space` -/

/-- Only entries in `cells` have changed, and they are cleared. -/
structure Cleared (cells : Nat → Fin 512 → Prop) (s s' : State) : Prop where
  zero : ∀ n i, s'.mem n i = s.mem n i ∨ cells n i ∧ s'.mem n i = 0
  pmm : Pmm.Inv s.pmm → Pmm.Inv s'.pmm
  current : s'.currentPml4 = s.currentPml4
  kernel : s'.kernelPml4Phys = s.kernelPml4Phys

namespace Cleared

variable {cells cells' : Nat → Fin 512 → Prop}

theorem refl (cells : Nat → Fin 512 → Prop) (s : State) : Cleared cells s s :=
  ⟨fun _ _ => Or.inl rfl, id, rfl, rfl⟩

theorem trans (h : Cleared cells s s₁) (h' : Cleared cells s₁ s₂) : Cleared cells s s₂ := by
  refine ⟨fun n i => ?_, fun hp => h'.pmm (h.pmm hp), h'.current.trans h.current,
    h'.kernel.trans h.kernel⟩
  rcases h'.zero n i with heq | hz
  · rw [heq]
    exact h.zero n i
  · exact Or.inr hz

theorem mono (h : Cleared cells s s') (hsub : ∀ n i, cells n i → cells' n i) :
    Cleared cells' s s' :=
  ⟨fun n i => (h.zero n i).imp id fun hz => ⟨hsub n i hz.1, hz.2⟩, h.pmm, h.current, h.kernel⟩

theorem walk {k n m : Nat} {p : List (Fin 512)} (h : Cleared cells s s')
    (hwalk : walk nextOf s'.mem k n p = some m) : walk nextOf s.mem k n p = some m := by
  refine walk_of_cleared (fun n i => ?_) hwalk
  rcases h.zero n i with heq | ⟨_, hz⟩
  · exact Or.inl heq
  · rw [hz]
    exact Or.inr fun k => nextOf_zero k i

end Cleared

theorem freePage_inv (h : Pmm.Inv s.pmm) (addr : Nat) : Pmm.Inv (freePage s addr).pmm :=
  Pmm.step_inv h (.free addr)

theorem freeOwned_cleared (cells : Nat → Fin 512 → Prop) (s : State) (addr : Nat) :
    Cleared cells s (freeOwned s addr) := by
  unfold freeOwned
  split_ifs
  · exact ⟨fun _ _ => Or.inl rfl, fun hp => freePage_inv hp addr, rfl, rfl⟩
  · exact Cleared.refl cells s

theorem clearEntry_cleared {cells : Nat → Fin 512 → Prop} {table : Nat} {i : Fin 512}
    (hcell : cells table i) (s : State) : Cleared cells s (setEntry s table i 0) := by
  refine ⟨fun n j => ?_, id, rfl, rfl⟩
  by_cases hnj : n = table ∧ j = i
  · obtain ⟨rfl, rfl⟩ := hnj
    exact Or.inr ⟨hcell, setEntry_self _ _ _ _⟩
  · exact Or.inl (write_of_ne hnj)

/-- The entry `i` of `table` and the tables below it. -/
def Below (s : State) (level table : Nat) (i : Fin 512) (n : Nat) (j : Fin 512) : Prop :=
  n = table ∧ j = i ∨ ∃ q, walk nextOf s.mem level table (i :: q) = some n

/-- The loop body clears its entry and entries of the tables below it. -/
theorem destroyEntry_cleared : ∀ {level : Nat} (table : Nat) (s : State) {i : Fin 512},
    level ≤ 3 → (level = 3 → i.val < 256) →
      Cleared (Below s level table i) s (destroyEntry level table s i) := by
  intro level
  induction level with
  | zero =>
    intro table s i _ _
    rw [destroyEntry]
    split_ifs
    · exact Cleared.refl _ s
    · exact (freeOwned_cleared _ s _).trans (clearEntry_cleared (Or.inl ⟨rfl, rfl⟩) _)
  | succ level ih =>
    intro table s i hle hi
    rw [destroyEntry]
    split_ifs with hpres hhuge
    · exact Cleared.refl _ s
    · exact clearEntry_cleared (Or.inl ⟨rfl, rfl⟩) s
    · simp only [Bool.not_eq_true', Bool.not_eq_false] at hpres
      rw [Bool.not_eq_true] at hhuge
      have hnext : nextOf (level + 1) i (s.mem table i) = some (pageMask (s.mem table i)) := by
        rw [nextOf_inner (Nat.succ_ne_zero level) fun hc => by have := hi hc.1; omega]
        exact tableBehind_of_present hpres hhuge
      -- each iteration stays below `i`, in the tables as they were at the start
      have hloop : ∀ (l : List (Fin 512)) (s' : State), Cleared (Below s (level + 1) table i) s s' →
          Cleared (Below s (level + 1) table i) s
            (l.foldl (destroyEntry level (pageMask (s.mem table i))) s') := by
        intro l
        induction l with
        | nil => exact fun s' h => h
        | cons j l ihl =>
          intro s' h
          refine ihl _ (h.trans ((ih _ s' (by omega) (by omega)).mono ?_))
          · rintro n k (⟨rfl, rfl⟩ | ⟨q, hq⟩)
            · exact Or.inr ⟨[], by rw [Lib.Radix.walk, hnext]; rfl⟩
            · refine Or.inr ⟨j :: q, ?_⟩
              rw [Lib.Radix.walk, hnext]
              exact h.walk hq
      have hinner := hloop (List.finRange 512) s (Cleared.refl _ s)
      have hfreed := hinner.trans (freeOwned_cleared _ _ (pageMask (s.mem table i)))
      exact hfreed.trans (clearEntry_cleared (Or.inl ⟨rfl, rfl⟩) _)

/-- The lower half of a PML4 and the tables below it. -/
def InSpace (s : State) (r n : Nat) (i : Fin 512) : Prop :=
  n = r ∧ i.val < 256 ∨ ∃ p, p ≠ [] ∧ walk nextOf s.mem 3 r p = some n

theorem destroySpace_cleared (s : State) (r : Nat) (freePml4 : Bool) :
    Cleared (InSpace s r) s (vmmDestroyAddressSpace s r freePml4) := by
  have hloop : ∀ (l : List (Fin 512)) (s' : State), (∀ i ∈ l, i.val < 256) →
      Cleared (InSpace s r) s s' → Cleared (InSpace s r) s (l.foldl (destroyEntry 3 r) s') := by
    intro l
    induction l with
    | nil => exact fun s' _ h => h
    | cons i l ih =>
      intro s' hl h
      have hi := hl i List.mem_cons_self
      refine ih _ (fun j hj => hl j (List.mem_cons_of_mem _ hj))
        (h.trans ((destroyEntry_cleared r s' (le_refl 3) fun _ => hi).mono ?_))
      rintro n j (⟨rfl, rfl⟩ | ⟨q, hq⟩)
      · exact Or.inl ⟨rfl, hi⟩
      · exact Or.inr ⟨i :: q, by simp, h.walk hq⟩
  have hmain := hloop lowerHalf s (fun i hi => mem_lowerHalf.mp hi) (Cleared.refl _ s)
  unfold vmmDestroyAddressSpace
  dsimp only
  split_ifs
  · exact Cleared.refl _ s
  · exact hmain.trans (freeOwned_cleared _ _ r)
  · exact hmain

/-- What destroying the space `r` leaves alone. -/
structure Destroyed (live : Finset Nat) (top : Fin 512 → Nat) (r : Nat) (s s' : State) : Prop where
  cleared : Cleared (InSpace s r) s s'
  shape : ∀ live' ⊆ live, s.kernelPml4Phys ∈ live' → Shape s' live' top
  tables : ∀ live' ⊆ live, ∀ {b q n}, tableAt s' live' top b q = some n →
    tableAt s live top b q = some n
  other : ∀ {b q n}, b ≠ .space r → tableAt s live top b q = some n → s'.mem n = s.mem n
  entries : ∀ live' ⊆ live, ∀ b q, b ≠ .space r → roots live' top b = roots live top b →
    entryAt s' live' top b q = entryAt s live top b q

theorem roots_sub {live' : Finset Nat} (h : live' ⊆ live) {b : Anchor} {x : Nat × Nat}
    (hx : roots live' top b = some x) : roots live top b = some x := by
  cases b with
  | space n =>
    simp only [roots] at hx ⊢
    split_ifs at hx with hn
    rw [if_pos (h hn)]
    exact hx
  | kernel i => exact hx

theorem destroySpace_destroyed (h : Shape s live top) (hr : r ∈ live) (freePml4 : Bool) :
    Destroyed live top r s (vmmDestroyAddressSpace s r freePml4) := by
  have hcl := destroySpace_cleared s r freePml4
  have hin : ∀ {n i}, InSpace s r n i → ∃ p, tableAt s live top (.space r) p = some n ∧
      (p = [] → i.val < 256) := by
    rintro n i (⟨rfl, hi⟩ | ⟨p, hp, hwalk⟩)
    · exact ⟨[], tableAt_space hr, fun _ => hi⟩
    · refine ⟨p, ?_, fun hc => absurd hc hp⟩
      rw [tableAt, node_of_root (roots_space hr)]
      exact hwalk
  have hother : ∀ {b q n}, b ≠ .space r → tableAt s live top b q = some n →
      (vmmDestroyAddressSpace s r freePml4).mem n = s.mem n := by
    intro b q n hb hn
    funext i
    rcases hcl.zero n i with heq | ⟨hcell, _⟩
    · exact heq
    · obtain ⟨p, hp, _⟩ := hin hcell
      exact absurd (h.separate hn hp).1 hb
  have htables : ∀ live' ⊆ live, ∀ {b q n},
      tableAt (vmmDestroyAddressSpace s r freePml4) live' top b q = some n →
      tableAt s live top b q = some n := by
    intro live' hsub b q n hn
    obtain ⟨root, hroot, hwalk⟩ := Option.bind_eq_some_iff.mp hn
    rw [tableAt, node_of_root (roots_sub hsub hroot)]
    exact hcl.walk hwalk
  -- the upper entries of a PML4 and the PML4s of other spaces are not touched
  have htop : ∀ x ∈ live, ∀ i : Fin 512, 256 ≤ i.val →
      (vmmDestroyAddressSpace s r freePml4).mem x i = s.mem x i := by
    intro x hx i hi
    rcases hcl.zero x i with heq | ⟨hcell, _⟩
    · exact heq
    · obtain ⟨p, hp, hlow⟩ := hin hcell
      have := hlow (h.separate hp (tableAt_space hx)).2
      omega
  refine ⟨hcl, fun live' hsub hk => ⟨?_, ?_, fun x hx i hi => ?_, h.top_table, fun x hx i hi => ?_,
    ?_, hcl.pmm h.pmm⟩, htables, hother, fun live' hsub b q hb hroots => ?_⟩
  · rw [hcl.current, hcl.kernel]
    exact h.current
  · rw [hcl.kernel]
    exact hk
  · rw [htop x (hsub hx) i hi]
    exact h.top_eq x (hsub hx) i hi
  · rcases hcl.zero x i with heq | ⟨_, hz⟩
    · rw [heq]
      exact h.lower x (hsub hx) i hi
    · rw [hz]
      rfl
  · exact separate_of_sub h.separate fun b q n hn => htables live' hsub hn
  · unfold entryAt find
    rw [hroots]
    refine congrArg _ (find_congr fun p i _ n hn => ?_)
    exact congrFun (hother hb hn) i

end Kyuzen.Paging
