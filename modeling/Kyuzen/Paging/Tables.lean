import Kyuzen.Paging.Model
import Kyuzen.Pmm.Alloc

/-!
# The shape of the tables

The tables of all address spaces are a forest (`Lib.Radix`): each live PML4 is the root of its
own user half, and the 256 PDPTs of the higher half, which all PML4s point to, are roots as
well. `Shape` says that no table of this forest is reached in two ways and that the upper 256
entries of every live PML4 are the ones fixed by `init_paging`. `Fresh` says that the physical
memory manager has no table of the forest to hand out.

`Grown` is what a walk that allocates tables may do; `mapPage_cases` and `unmapPage_eq` say
what the calls do in these terms.
-/

namespace Kyuzen.Paging

open Lib.Radix

/-! ## Bits -/

theorem present_zero : present 0 = false := rfl

theorem pageMask_of_dvd {n : Nat} (h : n % 4096 = 0) : pageMask n = n :=
  Nat.div_mul_cancel (Nat.dvd_of_mod_eq_zero h)

theorem or_div_page (a b : Nat) : (a ||| b) / 4096 = a / 4096 ||| b / 4096 :=
  Nat.or_div_two_pow (n := 12)

/-- Flags below the frame number leave the frame alone. -/
theorem pageMask_or {n flags : Nat} (h : n % 4096 = 0) (hf : flags < 4096) :
    pageMask (n ||| flags) = n := by
  rw [pageMask, or_div_page, Nat.div_eq_of_lt hf, Nat.or_zero]
  exact pageMask_of_dvd h

theorem present_or (a b : Nat) : present (a ||| b) = (present a || present b) :=
  Nat.testBit_or a b 0

theorem present_table (n : Nat) : present (n ||| 7) = true := by
  rw [present_or]
  simp [present]

theorem huge_table {n : Nat} (h : n % 4096 = 0) : huge (n ||| 7) = false := by
  rw [huge, Nat.testBit_or]
  have h7 : Nat.testBit 7 7 = false := by decide
  rw [h7, Bool.or_false, Nat.testBit_eq_decide_div_mod_eq]
  rw [decide_eq_false_iff_not]
  omega

theorem tableBehind_table {n : Nat} (h : n % 4096 = 0) : tableBehind (n ||| 7) = some n := by
  rw [tableBehind, present_table, huge_table h, pageMask_or h (by decide)]
  rfl

theorem tableBehind_of_absent {e : Nat} (h : present e = false) : tableBehind e = none := by
  simp [tableBehind, h]

theorem tableBehind_of_present {e : Nat} (h : present e = true) (hh : huge e = false) :
    tableBehind e = some (pageMask e) := by
  simp [tableBehind, h, hh]

/-! ## The forest -/

inductive Anchor where
  | space (pml4 : Nat)
  | kernel (i : Fin 512)
  deriving DecidableEq

/-- The level of an anchor's table: 3 for a PML4, 2 for a PDPT. -/
def Anchor.level : Anchor → Nat
  | .space _ => 3
  | .kernel _ => 2

/-- A PT points to no table, and the upper half of a PML4 belongs to other roots. -/
def nextOf (level : Nat) (i : Fin 512) (e : Nat) : Option Nat :=
  if level = 0 ∨ level = 3 ∧ 256 ≤ i.val then none else tableBehind e

/-- `live` are the PML4s, `top` the upper entries they share. -/
def roots (live : Finset Nat) (top : Fin 512 → Nat) : Anchor → Option (Nat × Nat)
  | .space r => if r ∈ live then some (3, r) else none
  | .kernel i =>
    if 256 ≤ i.val ∧ present (top i) = true then some (2, pageMask (top i)) else none

section Forest

variable (s : State) (live : Finset Nat) (top : Fin 512 → Nat)

def tableAt (a : Anchor) (p : List (Fin 512)) : Option Nat := node nextOf s.mem (roots live top) a p

/-- The present entry that a list of indices leads to. -/
def entryAt (a : Anchor) (p : List (Fin 512)) : Option (Nat × Nat) :=
  (find nextOf s.mem (roots live top) a p).filter fun x => present x.2

structure Shape : Prop where
  current : s.currentPml4 = some s.kernelPml4Phys
  kernel : s.kernelPml4Phys ∈ live
  top_eq : ∀ r ∈ live, ∀ i : Fin 512, 256 ≤ i.val → s.mem r i = top i
  top_table : ∀ i : Fin 512, 256 ≤ i.val → present (top i) = true
  lower : ∀ r ∈ live, ∀ i : Fin 512, i.val < 256 → huge (s.mem r i) = false
  separate : Separate nextOf s.mem (roots live top)
  pmm : Pmm.Inv s.pmm

end Forest

/-- A page that the physical memory manager may hand out. -/
structure PmmFree (p : Pmm.State) (n : Nat) : Prop where
  aligned : n % 4096 = 0
  tracked : n / 4096 < p.totalPages
  free : p.used (n / 4096) = false

/-- A page that it has handed out. -/
structure PmmUsed (p : Pmm.State) (n : Nat) : Prop where
  aligned : n % 4096 = 0
  tracked : n / 4096 < p.totalPages
  above : Pmm.kernelZone ≤ n
  used : p.used (n / 4096) = true

/-- No table is free for the physical memory manager. -/
def Fresh (s : State) (live : Finset Nat) (top : Fin 512 → Nat) : Prop :=
  ∀ a p n, tableAt s live top a p = some n → ¬ PmmFree s.pmm n

variable {s s' s₁ s₂ : State} {live : Finset Nat} {top : Fin 512 → Nat}

theorem nextOf_zero (level : Nat) (i : Fin 512) : nextOf level i 0 = none := by
  unfold nextOf
  split_ifs
  · rfl
  · rfl

theorem nextOf_of_absent {level : Nat} {i : Fin 512} {e : Nat} (h : present e = false) :
    nextOf level i e = none := by
  unfold nextOf
  split_ifs
  · rfl
  · exact tableBehind_of_absent h

/-- Entries inside a tree. -/
theorem nextOf_inner {level : Nat} {i : Fin 512} {e : Nat} (hl : level ≠ 0)
    (hi : ¬ (level = 3 ∧ 256 ≤ i.val)) : nextOf level i e = tableBehind e := by
  rw [nextOf, if_neg (by tauto)]

theorem roots_level {a : Anchor} {r : Nat × Nat} (h : roots live top a = some r) :
    r.1 = a.level := by
  cases a with
  | space n =>
    simp only [roots] at h
    split_ifs at h
    cases h
    rfl
  | kernel i =>
    simp only [roots] at h
    split_ifs at h
    cases h
    rfl

theorem tableAt_root {a : Anchor} {p : List (Fin 512)} {n : Nat}
    (h : tableAt s live top a p = some n) : ∃ r, roots live top a = some r ∧ r.1 = a.level := by
  obtain ⟨r, hr, _⟩ := Option.bind_eq_some_iff.mp h
  exact ⟨r, hr, roots_level hr⟩

/-! ## The physical memory manager -/

theorem pmm_mul_div (i : Nat) : i * Pmm.pageSize / 4096 = i := by
  simp only [Pmm.pageSize]
  omega

/-- A frame is handed out, or nothing changes. -/
theorem allocPage_cases (h : Pmm.Inv s.pmm) :
    (∃ m, PmmFree s.pmm m ∧ Pmm.kernelZone ≤ m ∧ Pmm.Inv (s.pmm.take (m / 4096)) ∧
      allocPage s = (m, { s with pmm := s.pmm.take (m / 4096) })) ∨
      allocPage s = (Pmm.physNull, s) := by
  unfold allocPage
  rcases Pmm.alloc_cases h with ⟨i, hi, hz, heq⟩ | ⟨_, heq⟩
  · left
    refine ⟨i * Pmm.pageSize, ⟨?_, ?_, ?_⟩, ?_, ?_, ?_⟩
    · exact Nat.mul_mod_left _ _
    · rw [pmm_mul_div]
      exact hi.1.1
    · rw [pmm_mul_div]
      exact hi.1.2
    · simp only [Pmm.kernelLockPages, Pmm.pageSize, Pmm.kernelZone] at hz ⊢
      omega
    · rw [pmm_mul_div]
      exact Pmm.inv_take h hi
    · rw [heq, pmm_mul_div]
  · right
    rw [heq]

theorem used_of_take {p : Pmm.State} {m : Nat} (h : PmmFree p m) (hz : Pmm.kernelZone ≤ m) :
    PmmUsed (p.take (m / 4096)) m :=
  ⟨h.aligned, h.tracked, hz, by simp⟩

theorem PmmFree.of_take {p : Pmm.State} {i n : Nat} (h : PmmFree (p.take i) n) :
    PmmFree p n ∧ n / 4096 ≠ i := by
  have hfree := h.free
  rw [Pmm.used_take, Bool.or_eq_false_iff, decide_eq_false_iff_not] at hfree
  exact ⟨⟨h.aligned, h.tracked, hfree.2⟩, hfree.1⟩

theorem PmmUsed.take {p : Pmm.State} {n : Nat} (h : PmmUsed p n) (i : Nat) :
    PmmUsed (p.take i) n :=
  ⟨h.aligned, h.tracked, h.above, by rw [Pmm.used_take, h.used, Bool.or_true]⟩

theorem PmmUsed.ne_null {p : Pmm.State} {f : Nat} (h : PmmUsed p f) : f ≠ Pmm.physNull := by
  have h1 := h.above
  have h2 : Pmm.kernelZone = 0x4800000 := rfl
  have h3 : Pmm.physNull = 0 := rfl
  omega

theorem eq_of_page {n m : Nat} (hn : n % 4096 = 0) (hm : m % 4096 = 0)
    (h : n / 4096 = m / 4096) : n = m := by
  omega

/-- `allocPageVirt` gives a zeroed free frame, or nothing changes. -/
theorem allocPageVirt_cases (h : Pmm.Inv s.pmm) :
    (∃ m, PmmFree s.pmm m ∧ Pmm.kernelZone ≤ m ∧ Pmm.Inv (s.pmm.take (m / 4096)) ∧
      allocPageVirt s = (some m, { s with
        pmm := s.pmm.take (m / 4096)
        mem := Function.update s.mem m fun _ => 0 })) ∨
      allocPageVirt s = (none, s) := by
  unfold allocPageVirt
  rcases allocPage_cases h with ⟨m, hm, hz, hinv, heq⟩ | heq
  · left
    refine ⟨m, hm, hz, hinv, ?_⟩
    have hne : m ≠ Pmm.physNull := by
      have h1 : Pmm.kernelZone = 0x4800000 := rfl
      have h2 : Pmm.physNull = 0 := rfl
      omega
    simp only [heq, if_neg hne]
  · right
    simp only [heq, if_true]

/-! ## Walks that allocate -/

/-- Tables were added below the anchor `a`; no translation and no other tree has changed. -/
structure Grown (live : Finset Nat) (top : Fin 512 → Nat) (a : Anchor) (s s' : State) : Prop where
  shape : Shape s' live top
  fresh : Fresh s' live top
  old : ∀ {b p n}, tableAt s live top b p = some n → tableAt s' live top b p = some n
  new : ∀ {b p n}, tableAt s' live top b p = some n →
    tableAt s live top b p = some n ∨ b = a ∧ PmmFree s.pmm n ∧ PmmUsed s'.pmm n
  entries : ∀ b p, p.length = b.level + 1 → entryAt s' live top b p = entryAt s live top b p
  other : ∀ {b p n}, b ≠ a → tableAt s live top b p = some n → s'.mem n = s.mem n
  used : ∀ i, s'.pmm.used i = true →
    s.pmm.used i = true ∨ ∃ p, tableAt s' live top a p = some (i * 4096)
  used_mono : ∀ i, s.pmm.used i = true → s'.pmm.used i = true
  pages : s'.pmm.totalPages = s.pmm.totalPages
  kernel : s'.kernelPml4Phys = s.kernelPml4Phys
  warnings : s'.warnings = s.warnings

theorem Grown.refl (h : Shape s live top) (hf : Fresh s live top) (a : Anchor) :
    Grown live top a s s :=
  ⟨h, hf, id, Or.inl, fun _ _ _ => rfl, fun _ _ => rfl, fun _ => Or.inl, fun _ => id, rfl, rfl,
    rfl⟩

theorem Grown.trans {a : Anchor} (h : Grown live top a s s₁) (h' : Grown live top a s₁ s₂) :
    Grown live top a s s₂ := by
  refine ⟨h'.shape, h'.fresh, fun hn => h'.old (h.old hn), fun hn => ?_,
    fun b p hp => (h'.entries b p hp).trans (h.entries b p hp),
    fun hb hn => (h'.other hb (h.old hn)).trans (h.other hb hn), fun i hi => ?_,
    fun i hi => h'.used_mono i (h.used_mono i hi), h'.pages.trans h.pages,
    h'.kernel.trans h.kernel, h'.warnings.trans h.warnings⟩
  · rcases h'.new hn with hn | ⟨hb, hfree, hused⟩
    · rcases h.new hn with hn | ⟨hb, hfree, hused⟩
      · exact Or.inl hn
      · refine Or.inr ⟨hb, hfree, hused.aligned, ?_, hused.above, h'.used_mono _ hused.used⟩
        rw [h'.pages]
        exact hused.tracked
    · refine Or.inr ⟨hb, ⟨hfree.aligned, ?_, ?_⟩, hused⟩
      · rw [← h.pages]
        exact hfree.tracked
      · by_contra hu
        rw [Bool.not_eq_false] at hu
        have := h.used_mono _ hu
        rw [hfree.free] at this
        cases this
  · rcases h'.used i hi with hi | hnew
    · rcases h.used i hi with hi | ⟨p, hp⟩
      · exact Or.inl hi
      · exact Or.inr ⟨p, h'.old hp⟩
    · exact Or.inr hnew

/-- The state with a zeroed frame `m`. -/
def zeroed (s : State) (m : Nat) : State :=
  { s with pmm := s.pmm.take (m / 4096), mem := Function.update s.mem m fun _ => 0 }

theorem setEntry_mem (s : State) (table : Nat) (i : Fin 512) (e : Nat) :
    (setEntry s table i e).mem = write s.mem table i e := rfl

@[simp] theorem setEntry_self (s : State) (table : Nat) (i : Fin 512) (e : Nat) :
    (setEntry s table i e).mem table i = e := write_self _ _ _ _

@[simp] theorem zeroed_self (s : State) (m : Nat) (j : Fin 512) : (zeroed s m).mem m j = 0 :=
  congrFun (Function.update_self m _ s.mem) j

section Zeroed

variable {m : Nat}

theorem Fresh.ne (hf : Fresh s live top) (hm : PmmFree s.pmm m) {a : Anchor}
    {p : List (Fin 512)} {n : Nat} (hn : tableAt s live top a p = some n) : n ≠ m := by
  rintro rfl
  exact hf a p n hn hm

theorem zeroed_mem (hf : Fresh s live top) (hm : PmmFree s.pmm m) {a : Anchor}
    {p : List (Fin 512)} {n : Nat} (hn : tableAt s live top a p = some n) :
    (zeroed s m).mem n = s.mem n :=
  Function.update_of_ne (hf.ne hm hn) _ _

theorem zeroed_tableAt (hf : Fresh s live top) (hm : PmmFree s.pmm m) (a : Anchor)
    (p : List (Fin 512)) : tableAt (zeroed s m) live top a p = tableAt s live top a p :=
  node_frame (fun _ _ _ hn => zeroed_mem hf hm hn) a p

theorem zeroed_entryAt (hf : Fresh s live top) (hm : PmmFree s.pmm m) (a : Anchor)
    (p : List (Fin 512)) : entryAt (zeroed s m) live top a p = entryAt s live top a p := by
  unfold entryAt
  rw [find_frame (fun _ _ _ hn => zeroed_mem hf hm hn) a p]

theorem zeroed_separate (h : Shape s live top) (hf : Fresh s live top) (hm : PmmFree s.pmm m) :
    Separate nextOf (zeroed s m).mem (roots live top) := by
  refine separate_of_sub h.separate fun a p n hn => ?_
  exact (zeroed_tableAt hf hm a p).symm.trans hn

end Zeroed

theorem tableAt_space {r : Nat} (hr : r ∈ live) : tableAt s live top (.space r) [] = some r := by
  rw [tableAt, node_of_root (r := (3, r)) (by simp [roots, hr])]
  rfl

section Pointer

variable {a : Anchor} {p : List (Fin 512)} {n m : Nat} {i : Fin 512}

/-- The tables after an absent entry has got a pointer to a zeroed frame. -/
theorem pointer_tableAt (h : Shape s live top) (hf : Fresh s live top)
    (hn : tableAt s live top a p = some n) (hp : p.length < a.level)
    (hi : a.level - p.length = 3 → i.val < 256) (habsent : present (s.mem n i) = false)
    (hm : PmmFree s.pmm m) {b : Anchor} {q : List (Fin 512)} {x : Nat} :
    tableAt (setEntry (zeroed s m) n i (m ||| 7)) live top b q = some x ↔
      b = a ∧ q = p ++ [i] ∧ x = m ∨ tableAt s live top b q = some x := by
  obtain ⟨r, hroot, hlevel⟩ := tableAt_root hn
  have hsep := zeroed_separate h hf hm
  have hn₁ : node nextOf (zeroed s m).mem (roots live top) a p = some n :=
    (zeroed_tableAt hf hm a p).trans hn
  have hmem : (zeroed s m).mem n i = s.mem n i := congrFun (zeroed_mem hf hm hn) i
  have hold : nextOf (r.1 - p.length) i ((zeroed s m).mem n i) = none := by
    rw [hmem]
    exact nextOf_of_absent habsent
  have hnew : nextOf (r.1 - p.length) i (m ||| 7) = some m := by
    rw [nextOf_inner (by omega) fun hc => by have := hi (hlevel ▸ hc.1); omega]
    exact tableBehind_table hm.aligned
  have hfresh : ∀ b q, node nextOf (zeroed s m).mem (roots live top) b q ≠ some m := by
    intro b q hq
    exact hf.ne hm ((zeroed_tableAt hf hm b q).symm.trans hq) rfl
  have hempty : ∀ k j, nextOf k j ((zeroed s m).mem m j) = none := by
    intro k j
    rw [zeroed_self]
    exact nextOf_zero k j
  rw [← zeroed_tableAt hf hm b q]
  exact node_write_pointer hsep hroot hn₁ hold hnew hfresh hempty

/-- No entry changes but the one that is written and those of the frame. -/
theorem pointer_mem {x : Nat} {j : Fin 512} (hxj : ¬(x = n ∧ j = i)) (hxm : x ≠ m) :
    (setEntry (zeroed s m) n i (m ||| 7)).mem x j = s.mem x j :=
  (write_of_ne hxj).trans (congrFun (Function.update_of_ne hxm _ _) j)

/-- An absent entry gets a pointer to a zeroed frame. -/
theorem grown_pointer (h : Shape s live top) (hf : Fresh s live top)
    (hn : tableAt s live top a p = some n) (hp : p.length < a.level)
    (hi : a.level - p.length = 3 → i.val < 256) (habsent : present (s.mem n i) = false)
    (hm : PmmFree s.pmm m) (hz : Pmm.kernelZone ≤ m) (hinv : Pmm.Inv (s.pmm.take (m / 4096))) :
    Grown live top a s (setEntry (zeroed s m) n i (m ||| 7)) ∧
      tableAt (setEntry (zeroed s m) n i (m ||| 7)) live top a (p ++ [i]) = some m := by
  have hnode := @pointer_tableAt s live top a p n m i h hf hn hp hi habsent hm
  have hcell := @pointer_mem s n m i
  obtain ⟨r, hroot, hlevel⟩ := tableAt_root hn
  have hsep := zeroed_separate h hf hm
  have hn₁ : node nextOf (zeroed s m).mem (roots live top) a p = some n :=
    (zeroed_tableAt hf hm a p).trans hn
  have hmem : (zeroed s m).mem n i = s.mem n i := congrFun (zeroed_mem hf hm hn) i
  have hold : nextOf (r.1 - p.length) i ((zeroed s m).mem n i) = none := by
    rw [hmem]
    exact nextOf_of_absent habsent
  have hnew : nextOf (r.1 - p.length) i (m ||| 7) = some m := by
    rw [nextOf_inner (by omega) fun hc => by have := hi (hlevel ▸ hc.1); omega]
    exact tableBehind_table hm.aligned
  have hempty : ∀ k j, nextOf k j ((zeroed s m).mem m j) = none := by
    intro k j
    rw [zeroed_self]
    exact nextOf_zero k j
  -- the upper half of a PML4 is not the entry written
  have htop : ∀ x ∈ live, ∀ j : Fin 512, 256 ≤ j.val → ¬ (x = n ∧ j = i) := by
    rintro x hx j hj ⟨rfl, rfl⟩
    obtain ⟨ha, hpp⟩ := h.separate hn (tableAt_space hx)
    subst ha hpp
    have := hi rfl
    omega
  refine ⟨⟨⟨h.current, h.kernel, fun x hx j hj => ?_, h.top_table, fun x hx j hj => ?_, ?_, hinv⟩,
    ?_, fun hb => hnode.mpr (Or.inr hb), fun hb => ?_, fun b q hq => ?_, fun hb hx => ?_,
    fun j hj => ?_, fun j hj => ?_, rfl, rfl, rfl⟩, hnode.mpr (Or.inl ⟨rfl, rfl, rfl⟩)⟩
  · rw [hcell (htop x hx j hj) (hf.ne hm (tableAt_space hx))]
    exact h.top_eq x hx j hj
  · by_cases hxj : x = n ∧ j = i
    · obtain ⟨rfl, rfl⟩ := hxj
      rw [setEntry_self]
      exact huge_table hm.aligned
    · rw [hcell hxj (hf.ne hm (tableAt_space hx))]
      exact h.lower x hx j hj
  · refine separate_of_added h.separate (m := m) (c := a) (r := p ++ [i])
      (fun b q hq => hf.ne hm hq rfl) fun b q x hx => ?_
    exact (hnode.mp hx).symm
  · intro b q x hx hfree
    obtain ⟨hfree, hne⟩ := PmmFree.of_take (p := s.pmm) (i := m / 4096) hfree
    rcases hnode.mp hx with ⟨_, _, rfl⟩ | hx
    · exact hne rfl
    · exact hf b q x hx hfree
  · rcases hnode.mp hb with ⟨rfl, _, rfl⟩ | hb
    · exact Or.inr ⟨rfl, hm, used_of_take hm hz⟩
    · exact Or.inl hb
  · rw [← zeroed_entryAt hf hm b q]
    by_cases hthrough : b = a ∧ p ++ [i] <+: q
    · obtain ⟨rfl, rest, rfl⟩ := hthrough
      cases rest with
      | nil =>
        simp only [List.append_nil, List.length_append, List.length_singleton] at hq
        omega
      | cons j rest =>
        have hmn : m ≠ n := (hf.ne hm hn).symm
        unfold entryAt
        rw [List.append_assoc, List.singleton_append, find_through hroot hn₁, setEntry_mem,
          find_through hroot (node_write_self hsep hn₁), lookup, lookup, write_self, hnew, hold]
        dsimp only
        rw [lookup, write_table_of_ne hmn, hempty]
        simp [Option.filter, hmem, habsent, present_zero]
    · unfold entryAt
      exact congrArg _ (find_write_of_ne hsep hn₁ hthrough)
  · funext j
    refine hcell ?_ (hf.ne hm hx)
    rintro ⟨rfl, _⟩
    exact hb (h.separate hx hn).1
  · change (s.pmm.take (m / 4096)).used j = true at hj
    rw [Pmm.used_take, Bool.or_eq_true, decide_eq_true_eq] at hj
    rcases hj with hj | hj
    · refine Or.inr ⟨p ++ [i], hnode.mpr (Or.inl ⟨rfl, rfl, ?_⟩)⟩
      rw [hj]
      exact pageMask_of_dvd hm.aligned
    · exact Or.inl hj
  · change (s.pmm.take (m / 4096)).used j = true
    rw [Pmm.used_take, hj, Bool.or_true]

end Pointer

/-- One level of the walk: memory is exhausted, or the table of the next level is there. -/
theorem nextTable_cases (h : Shape s live top) (hf : Fresh s live top) {a : Anchor}
    {p : List (Fin 512)} {n : Nat} {i : Fin 512} (hn : tableAt s live top a p = some n)
    (hp : p.length < a.level) (hi : a.level - p.length = 3 → i.val < 256)
    (hhuge : huge (s.mem n i) = false) :
    nextTable s n i = (none, s) ∨ ∃ m s', nextTable s n i = (some m, s') ∧
      Grown live top a s s' ∧ tableAt s' live top a (p ++ [i]) = some m := by
  unfold nextTable
  by_cases hpres : present (s.mem n i) = true
  · right
    rw [if_pos hpres]
    refine ⟨_, _, rfl, Grown.refl h hf a, ?_⟩
    obtain ⟨r, hroot, hlevel⟩ := tableAt_root hn
    rw [tableAt, node_through hroot hn, nextOf_inner (by omega)
      fun hc => by have := hi (hlevel ▸ hc.1); omega, tableBehind_of_present hpres hhuge]
    rfl
  · rw [if_neg hpres]
    rw [Bool.not_eq_true] at hpres
    rcases allocPageVirt_cases h.pmm with ⟨m, hm, hz, hinv, heq⟩ | heq
    · right
      obtain ⟨hgrown, htable⟩ := grown_pointer h hf hn hp hi hpres hm hz hinv
      rw [heq]
      refine ⟨m, _, ?_, hgrown, htable⟩
      dsimp only
      rw [setEntry_self, pageMask_or hm.aligned (by decide)]
      rfl
    · left
      rw [heq]

end Kyuzen.Paging
