import Kyuzen.Paging.Tables

/-!
# Translations

The page of an address in an address space is a list of indices from an anchor (`anchorOf`,
`pagePath`): its own PML4 in the lower half, the shared PDPT in the higher half. On tables of
the right shape, what the processor sees there is the entry the indices lead to
(`translate_eq`), and `mapPage` and `unmapPage` write exactly that entry (`mapPage_cases`,
`unmapPage_cases`).
-/

namespace Kyuzen.Paging

open Lib.Radix

variable {s s' : State} {live : Finset Nat} {top : Fin 512 → Nat} {r va paddr flags : Nat}

/-! ## The path of a page -/

def anchorOf (r va : Nat) : Anchor :=
  if (pml4Idx va).val < 256 then .space r else .kernel (pml4Idx va)

def pdptPath (va : Nat) : List (Fin 512) := if (pml4Idx va).val < 256 then [pml4Idx va] else []

/-- The indices down to the PT. -/
def dirPath (va : Nat) : List (Fin 512) := pdptPath va ++ [pdptIdx va, pdIdx va]

def pagePath (va : Nat) : List (Fin 512) := dirPath va ++ [ptIdx va]

theorem pdptPath_length (r va : Nat) : (pdptPath va).length + 2 = (anchorOf r va).level := by
  unfold pdptPath anchorOf
  split_ifs <;> rfl

theorem dirPath_length (r va : Nat) : (dirPath va).length = (anchorOf r va).level := by
  rw [← pdptPath_length r va, dirPath, List.length_append]
  rfl

theorem pagePath_length (r va : Nat) : (pagePath va).length = (anchorOf r va).level + 1 := by
  rw [pagePath, List.length_append, dirPath_length r]
  rfl

/-- Two pages have one path from one anchor when they are the same page of one space, or the
same page of the shared half. -/
theorem page_eq_iff {r' va' : Nat} :
    anchorOf r' va' = anchorOf r va ∧ pagePath va' = pagePath va ↔
      SamePage va va' ∧ (r' = r ∨ 256 ≤ (pml4Idx va).val) := by
  unfold anchorOf pagePath dirPath pdptPath SamePage
  by_cases h : (pml4Idx va).val < 256 <;> by_cases h' : (pml4Idx va').val < 256
  · simp only [h, h', if_true, List.cons_append, List.nil_append, List.cons.injEq,
      Anchor.space.injEq, and_true]
    constructor
    · rintro ⟨hr, h4, h3, h2, h1⟩
      exact ⟨⟨h4.symm, h3.symm, h2.symm, h1.symm⟩, Or.inl hr⟩
    · rintro ⟨⟨h4, h3, h2, h1⟩, hr | hr⟩
      · exact ⟨hr, h4.symm, h3.symm, h2.symm, h1.symm⟩
      · omega
  · simp only [h, h', if_true, if_false, reduceCtorEq, false_and, false_iff]
    rintro ⟨⟨h4, _⟩, _⟩
    rw [h4] at h
    exact h' h
  · simp only [h, h', if_true, if_false, reduceCtorEq, false_and, false_iff]
    rintro ⟨⟨h4, _⟩, _⟩
    rw [h4] at h
    exact h h'
  · simp only [h, h', if_false, List.cons_append, List.nil_append, List.cons.injEq,
      Anchor.kernel.injEq, and_true]
    constructor
    · rintro ⟨h4, h3, h2, h1⟩
      exact ⟨⟨h4.symm, h3.symm, h2.symm, h1.symm⟩, Or.inr (by omega)⟩
    · rintro ⟨⟨h4, h3, h2, h1⟩, _⟩
      exact ⟨h4.symm, h3.symm, h2.symm, h1.symm⟩

/-! ## Reading -/

theorem roots_space (hr : r ∈ live) : roots live top (.space r) = some (3, r) := by
  simp [roots, hr]

theorem Shape.roots_kernel (h : Shape s live top) {i : Fin 512} (hi : 256 ≤ i.val) :
    roots live top (.kernel i) = some (2, pageMask (top i)) := by
  simp [roots, hi, h.top_table i hi]

theorem nextOf_two (i : Fin 512) (e : Nat) : nextOf 2 i e = tableBehind e :=
  nextOf_inner (by decide) (by omega)

theorem nextOf_one (i : Fin 512) (e : Nat) : nextOf 1 i e = tableBehind e :=
  nextOf_inner (by decide) (by omega)

theorem nextOf_pt (i : Fin 512) (e : Nat) : nextOf 0 i e = none := rfl

theorem nextOf_three {i : Fin 512} (hi : i.val < 256) (e : Nat) : nextOf 3 i e = tableBehind e :=
  nextOf_inner (by decide) (by omega)

/-- The lookup of the last three indices from a PDPT. -/
theorem lookup_pdpt (mem : Nat → Fin 512 → Nat) (pdpt : Nat) (i j k : Fin 512) :
    (lookup nextOf mem 2 pdpt [i, j, k]).filter (fun x => present x.2) =
      if !present (mem pdpt i) then none
      else if huge (mem pdpt i) then some (2, mem pdpt i)
      else if !present (mem (pageMask (mem pdpt i)) j) then none
      else if huge (mem (pageMask (mem pdpt i)) j) then
        some (1, mem (pageMask (mem pdpt i)) j)
      else if !present (mem (pageMask (mem (pageMask (mem pdpt i)) j)) k) then none
      else some (0, mem (pageMask (mem (pageMask (mem pdpt i)) j)) k) := by
  cases hp : present (mem pdpt i) with
  | false => simp [lookup, nextOf_two, tableBehind, hp, Option.filter]
  | true =>
    cases hh : huge (mem pdpt i) with
    | true => simp [lookup, nextOf_two, tableBehind, hp, hh, Option.filter]
    | false =>
      cases hp' : present (mem (pageMask (mem pdpt i)) j) with
      | false => simp [lookup, nextOf_two, nextOf_one, tableBehind, hp, hh, hp', Option.filter]
      | true =>
        cases hh' : huge (mem (pageMask (mem pdpt i)) j) with
        | true => simp [lookup, nextOf_two, nextOf_one, tableBehind, hp, hh, hp', hh', Option.filter]
        | false =>
          cases hp'' : present (mem (pageMask (mem (pageMask (mem pdpt i)) j)) k) <;>
            simp [lookup, nextOf_two, nextOf_one, nextOf_pt, tableBehind, hp, hh, hp', hh', hp'',
              Option.filter]

theorem translate_lookup (s : State) (pml4 va : Nat) :
    translate s pml4 va =
      if !present (s.mem pml4 (pml4Idx va)) then none
      else ((lookup nextOf s.mem 2 (pageMask (s.mem pml4 (pml4Idx va)))
        [pdptIdx va, pdIdx va, ptIdx va]).filter fun x => present x.2).map
          fun x => ⟨x.1, x.2⟩ := by
  rw [lookup_pdpt, translate]
  dsimp only
  split_ifs <;> rfl

/-- The processor sees the entry at the page's path. -/
theorem translate_eq (h : Shape s live top) (hr : r ∈ live) (va : Nat) :
    translate s r va =
      (entryAt s live top (anchorOf r va) (pagePath va)).map fun x => ⟨x.1, x.2⟩ := by
  rw [translate_lookup]
  unfold entryAt anchorOf pagePath dirPath pdptPath
  by_cases h4 : (pml4Idx va).val < 256
  · simp only [h4, if_true, find_of_root (roots_space hr), List.cons_append, List.nil_append]
    conv_rhs => rw [lookup, nextOf_three h4]
    cases hp : present (s.mem r (pml4Idx va)) with
    | false => simp [tableBehind, hp, Option.filter]
    | true =>
      rw [tableBehind_of_present hp (h.lower r hr _ h4)]
      rfl
  · have h4' : 256 ≤ (pml4Idx va).val := by omega
    simp only [h4, if_false, find_of_root (h.roots_kernel h4'), List.nil_append]
    rw [h.top_eq r hr _ h4', h.top_table _ h4']
    rfl

theorem pageTable_eq (h : Shape s live top) (hr : r ∈ live) (va : Nat) :
    pageTable s va r = tableAt s live top (anchorOf r va) (dirPath va) := by
  unfold pageTable tableAt anchorOf dirPath pdptPath
  by_cases h4 : (pml4Idx va).val < 256
  · simp only [h4, if_true, node_of_root (roots_space hr), List.cons_append, List.nil_append,
      walk, nextOf_three h4, Nat.reduceSub, nextOf_two, nextOf_one]
    cases hp : present (s.mem r (pml4Idx va)) with
    | false => simp [tableBehind, hp]
    | true =>
      rw [tableBehind_of_present hp (h.lower r hr _ h4), if_pos rfl, Option.bind_some]
      simp
  · have h4' : 256 ≤ (pml4Idx va).val := by omega
    simp only [h4, if_false, node_of_root (h.roots_kernel h4'), List.nil_append, walk,
      Nat.reduceSub, nextOf_two, nextOf_one]
    rw [h.top_eq r hr _ h4', if_pos (h.top_table _ h4')]
    simp

/-! ## Writing -/

/-- The PDPT of a page: memory is exhausted, or it is there. -/
theorem pdpt_cases (h : Shape s live top) (hf : Fresh s live top) (hr : r ∈ live) (va : Nat) :
    nextTable s r (pml4Idx va) = (none, s) ∨ ∃ pdpt s', nextTable s r (pml4Idx va) = (some pdpt, s') ∧
      Grown live top (anchorOf r va) s s' ∧
      tableAt s' live top (anchorOf r va) (pdptPath va) = some pdpt := by
  unfold anchorOf pdptPath
  by_cases h4 : (pml4Idx va).val < 256
  · simp only [h4, if_true]
    exact nextTable_cases h hf (tableAt_space hr) (Nat.succ_pos 2) (fun _ => h4) (h.lower r hr _ h4)
  · have h4' : 256 ≤ (pml4Idx va).val := by omega
    simp only [h4, if_false]
    right
    refine ⟨pageMask (top (pml4Idx va)), s, ?_, Grown.refl h hf _, ?_⟩
    · rw [nextTable, h.top_eq r hr _ h4', if_pos (h.top_table _ h4')]
    · rw [tableAt, node_of_root (h.roots_kernel h4')]
      rfl

/-- A mapping call grows the tables of the page's anchor, and then writes the page's entry if
nothing stopped it. -/
theorem mapPage_cases (h : Shape s live top) (hf : Fresh s live top) (hr : r ∈ live)
    (va paddr flags : Nat) :
    (∃ s', mapPage s va paddr flags r = (false, s') ∧ Grown live top (anchorOf r va) s s') ∨
      ∃ s' pt, Grown live top (anchorOf r va) s s' ∧
        tableAt s' live top (anchorOf r va) (dirPath va) = some pt ∧
        mapPage s va paddr flags r =
          (true, setEntry s' pt (ptIdx va) (pageMask paddr ||| flags)) := by
  have hlen := pdptPath_length r va
  unfold mapPage
  rcases pdpt_cases h hf hr va with heq | ⟨pdpt, s₁, heq, hg₁, ht₁⟩
  · rw [heq]
    exact Or.inl ⟨s, rfl, Grown.refl h hf _⟩
  rw [heq]
  dsimp only
  by_cases hh : huge (s₁.mem pdpt (pdptIdx va)) = true
  · rw [if_pos hh]
    exact Or.inl ⟨s₁, rfl, hg₁⟩
  rw [if_neg hh]
  rw [Bool.not_eq_true] at hh
  rcases nextTable_cases hg₁.shape hg₁.fresh ht₁ (by omega) (by omega) hh with
    heq₂ | ⟨pd, s₂, heq₂, hg₂, ht₂⟩
  · rw [heq₂]
    exact Or.inl ⟨s₁, rfl, hg₁⟩
  rw [heq₂]
  dsimp only
  by_cases hh₂ : huge (s₂.mem pd (pdIdx va)) = true
  · rw [if_pos hh₂]
    exact Or.inl ⟨s₂, rfl, hg₁.trans hg₂⟩
  rw [if_neg hh₂]
  rw [Bool.not_eq_true] at hh₂
  have hlen₂ : (pdptPath va ++ [pdptIdx va]).length + 1 = (anchorOf r va).level := by
    rw [List.length_append, List.length_singleton]
    omega
  rcases nextTable_cases hg₂.shape hg₂.fresh ht₂ (by omega) (by omega) hh₂ with
    heq₃ | ⟨pt, s₃, heq₃, hg₃, ht₃⟩
  · rw [heq₃]
    exact Or.inl ⟨s₂, rfl, hg₁.trans hg₂⟩
  · rw [heq₃]
    rw [List.append_assoc] at ht₃
    exact Or.inr ⟨s₃, pt, (hg₁.trans hg₂).trans hg₃, ht₃, rfl⟩

/-- The write of a page's entry: what changes and what does not. -/
structure Written (live : Finset Nat) (top : Fin 512 → Nat) (a : Anchor) (p : List (Fin 512))
    (s s' : State) : Prop where
  shape : Shape s' live top
  fresh : Fresh s' live top
  tables : ∀ b q, tableAt s' live top b q = tableAt s live top b q
  entries : ∀ b q, q.length = b.level + 1 → ¬ (b = a ∧ q = p) →
    entryAt s' live top b q = entryAt s live top b q
  other : ∀ {b q n}, b ≠ a → tableAt s live top b q = some n → s'.mem n = s.mem n
  pmm : s'.pmm = s.pmm
  kernel : s'.kernelPml4Phys = s.kernelPml4Phys
  warnings : s'.warnings = s.warnings

theorem setEntry_written (h : Shape s live top) (hf : Fresh s live top) {a : Anchor}
    {p : List (Fin 512)} {pt : Nat} (hpt : tableAt s live top a p = some pt)
    (hp : p.length = a.level) (i : Fin 512) (e : Nat) :
    Written live top a (p ++ [i]) s (setEntry s pt i e) ∧
      entryAt (setEntry s pt i e) live top a (p ++ [i]) =
        if present e then some (0, e) else none := by
  obtain ⟨root, hroot, hlevel⟩ := tableAt_root hpt
  have hzero : root.1 - p.length = 0 := by omega
  have hn : node nextOf s.mem (roots live top) a p = some pt := hpt
  have htables : ∀ b q, tableAt (setEntry s pt i e) live top b q = tableAt s live top b q :=
    node_write_leaf h.separate hroot hn (by rw [hzero, nextOf_pt]) (by rw [hzero, nextOf_pt])
  -- a PT is not a PML4
  have hne : ∀ x ∈ live, x ≠ pt := by
    rintro x hx rfl
    obtain ⟨ha, hpp⟩ := h.separate hn (tableAt_space hx)
    subst ha hpp
    exact absurd hp (by simp [Anchor.level])
  have hcell : ∀ x ∈ live, (setEntry s pt i e).mem x = s.mem x := fun x hx =>
    write_table_of_ne (hne x hx)
  refine ⟨⟨⟨h.current, h.kernel, fun x hx j hj => ?_, h.top_table, fun x hx j hj => ?_, ?_, h.pmm⟩,
    fun b q n hq => ?_, htables, fun b q hq hbq => ?_, fun hb hq => ?_, rfl, rfl, rfl⟩, ?_⟩
  · rw [hcell x hx]
    exact h.top_eq x hx j hj
  · rw [hcell x hx]
    exact h.lower x hx j hj
  · exact separate_of_sub h.separate fun b q n hq => (htables b q).symm.trans hq
  · rw [htables] at hq
    exact hf b q n hq
  · unfold entryAt
    refine congrArg _ (find_write_of_ne h.separate hn ?_)
    rintro ⟨rfl, hpre⟩
    refine hbq ⟨rfl, (hpre.eq_of_length ?_).symm⟩
    rw [List.length_append, hp, hq]
    rfl
  · refine write_table_of_ne ?_
    rintro rfl
    exact hb (h.separate hq hn).1
  · unfold entryAt
    rw [setEntry_mem, find_through hroot (node_write_self h.separate hn), hzero, lookup,
      nextOf_pt, write_self]
    cases hpe : present e <;> simp [Option.filter, hpe]

/-- A present entry of a PT. -/
theorem entryAt_zero_iff {a : Anchor} {p : List (Fin 512)} (hp : p.length = a.level)
    {i : Fin 512} {e : Nat} :
    entryAt s live top a (p ++ [i]) = some (0, e) ↔
      ∃ pt, tableAt s live top a p = some pt ∧ s.mem pt i = e ∧ present e = true := by
  constructor
  · intro hentry
    obtain ⟨hfind, hpres⟩ := Option.filter_eq_some_iff.mp hentry
    obtain ⟨root, hroot, hlookup⟩ := Option.bind_eq_some_iff.mp hfind
    obtain ⟨q, j, rest, pt, hpq, hwalk, hlevel, he⟩ := lookup_eq_some hlookup
    have hlen := congrArg List.length hpq
    simp only [List.length_append, List.length_cons, List.length_nil] at hlen
    have hrl := roots_level hroot
    -- the level is 0 only behind the whole of `p`
    obtain ⟨rfl, hrest⟩ := List.append_inj hpq (by omega)
    obtain ⟨rfl, rfl⟩ := List.cons.inj hrest
    exact ⟨pt, by rw [tableAt, node_of_root hroot]; exact hwalk, he.symm, hpres⟩
  · rintro ⟨pt, hpt, rfl, hpres⟩
    obtain ⟨root, hroot, hlevel⟩ := tableAt_root hpt
    have hzero : root.1 - p.length = 0 := by omega
    unfold entryAt
    rw [find_through hroot hpt, hzero, lookup, nextOf_pt]
    simp [Option.filter, hpres]

/-- Unmapping removes the present entry of a 4 KiB page, or does nothing. -/
theorem unmapPage_cases (h : Shape s live top) (hr : r ∈ live) (va : Nat) :
    (unmapPage s va r = (none, s) ∧
        ∀ e, entryAt s live top (anchorOf r va) (pagePath va) ≠ some (0, e)) ∨
      ∃ pt e, tableAt s live top (anchorOf r va) (dirPath va) = some pt ∧
        entryAt s live top (anchorOf r va) (pagePath va) = some (0, e) ∧
        unmapPage s va r = (some e, setEntry s pt (ptIdx va) 0) := by
  have hiff := fun e => @entryAt_zero_iff s live top _ _ (dirPath_length r va) (ptIdx va) e
  unfold unmapPage
  rw [pageTable_eq h hr]
  cases hpt : tableAt s live top (anchorOf r va) (dirPath va) with
  | none =>
    refine Or.inl ⟨rfl, fun e hentry => ?_⟩
    obtain ⟨pt, hpt', _⟩ := (hiff e).mp hentry
    rw [hpt] at hpt'
    cases hpt'
  | some pt =>
    dsimp only
    by_cases hpres : present (s.mem pt (ptIdx va)) = true
    · rw [if_pos hpres]
      exact Or.inr ⟨pt, _, rfl, (hiff _).mpr ⟨pt, hpt, rfl, hpres⟩, rfl⟩
    · rw [if_neg hpres]
      refine Or.inl ⟨rfl, fun e hentry => ?_⟩
      obtain ⟨pt', hpt', rfl, hp⟩ := (hiff e).mp hentry
      rw [hpt] at hpt'
      cases hpt'
      exact hpres hp

end Kyuzen.Paging
