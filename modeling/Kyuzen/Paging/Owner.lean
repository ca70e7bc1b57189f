import Kyuzen.Paging.Frames

/-!
# Who owns a frame

Every frame that the physical memory manager has handed out has one owner: a table of an
address space, a page in the lower half of an address space, or a caller. `Owned` states this
for the frames the virtual memory manager deals with. It is kept by every call of callers that
map into user space only frames they hold, and give back only frames they hold
(`Disciplined`); then no table is ever given back while it is in use, so the upper halves of
all PML4s stay the same (`kernel_half_shared`).
-/

namespace Kyuzen.Paging

open Lib.Radix

/-- The page `f` is mapped at the indices `p` of the lower half of `r`. -/
def Leaf (s : State) (live : Finset Nat) (top : Fin 512 → Nat) (r : Nat) (p : List (Fin 512))
    (f : Nat) : Prop :=
  p.length = 4 ∧ ∃ e, entryAt s live top (.space r) p = some (0, e) ∧ pageMask e = f

structure Owned (s : State) (live spaces held : Finset Nat) (top : Fin 512 → Nat) : Prop where
  shape : Shape s live top
  fresh : Fresh s live top
  sub : spaces ⊆ live
  table_used : ∀ {r p f}, r ∈ spaces → tableAt s live top (.space r) p = some f → PmmUsed s.pmm f
  leaf_used : ∀ {r p f}, r ∈ spaces → Leaf s live top r p f → PmmUsed s.pmm f
  leaf_inj : ∀ {r r' p p' f}, r ∈ spaces → r' ∈ spaces → Leaf s live top r p f →
    Leaf s live top r' p' f → r = r' ∧ p = p'
  leaf_table : ∀ {r p f}, r ∈ spaces → Leaf s live top r p f →
    ∀ a q, tableAt s live top a q ≠ some f
  held_used : ∀ f ∈ held, PmmUsed s.pmm f
  held_table : ∀ f ∈ held, ∀ a q, tableAt s live top a q ≠ some f
  held_leaf : ∀ f ∈ held, ∀ r ∈ spaces, ∀ p, ¬ Leaf s live top r p f

variable {s s' : State} {live spaces held : Finset Nat} {top : Fin 512 → Nat} {x : Sys}

theorem PmmUsed.not_free {p : Pmm.State} {f : Nat} (h : PmmUsed p f) : ¬ PmmFree p f := by
  intro hfree
  have := hfree.free
  rw [h.used] at this
  cases this

theorem Leaf.congr {r : Nat} {p : List (Fin 512)} {f : Nat} {live' : Finset Nat}
    (h : p.length = 4 → entryAt s' live' top (.space r) p = entryAt s live top (.space r) p) :
    Leaf s' live' top r p f ↔ Leaf s live top r p f := by
  unfold Leaf
  refine and_congr_right fun hp => ?_
  rw [h hp]

/-! ## Growing tables -/

theorem Grown.leaf {a : Anchor} (hg : Grown live top a s s') {r : Nat} {p : List (Fin 512)}
    {f : Nat} : Leaf s' live top r p f ↔ Leaf s live top r p f :=
  Leaf.congr fun hp => hg.entries (.space r) p hp

theorem Grown.pmmUsed {a : Anchor} (hg : Grown live top a s s') {f : Nat}
    (h : PmmUsed s.pmm f) : PmmUsed s'.pmm f :=
  ⟨h.aligned, by rw [hg.pages]; exact h.tracked, h.above, hg.used_mono _ h.used⟩

/-- New tables come from free memory. -/
theorem Grown.not_table {a : Anchor} (hg : Grown live top a s s') {f : Nat}
    (h : PmmUsed s.pmm f) (hno : ∀ b q, tableAt s live top b q ≠ some f) (b : Anchor)
    (q : List (Fin 512)) : tableAt s' live top b q ≠ some f := by
  intro hq
  rcases hg.new hq with hq | ⟨_, hfree, _⟩
  · exact hno b q hq
  · exact h.not_free hfree

theorem Owned.grown {a : Anchor} (h : Owned s live spaces held top)
    (hg : Grown live top a s s') : Owned s' live spaces held top := by
  refine ⟨hg.shape, hg.fresh, h.sub, fun hr hp => ?_, fun hr hl => ?_, fun hr hr' hl hl' => ?_,
    fun hr hl => ?_, fun f hf => hg.pmmUsed (h.held_used f hf), fun f hf => ?_,
    fun f hf r hr p hl => h.held_leaf f hf r hr p (hg.leaf.mp hl)⟩
  · rcases hg.new hp with hp | ⟨_, _, hused⟩
    · exact hg.pmmUsed (h.table_used hr hp)
    · exact hused
  · exact hg.pmmUsed (h.leaf_used hr (hg.leaf.mp hl))
  · exact h.leaf_inj hr hr' (hg.leaf.mp hl) (hg.leaf.mp hl')
  · have hl := hg.leaf.mp hl
    exact hg.not_table (h.leaf_used hr hl) (h.leaf_table hr hl)
  · exact hg.not_table (h.held_used f hf) (h.held_table f hf)

/-! ## Writing a page's entry -/

theorem Written.leaf {a : Anchor} {p q : List (Fin 512)} (hw : Written live top a p s s') {r f : Nat}
    (hne : ¬ (Anchor.space r = a ∧ q = p)) : Leaf s' live top r q f ↔ Leaf s live top r q f :=
  Leaf.congr fun hq => hw.entries (.space r) q hq hne

/-- A page outside the lower halves of the created spaces. -/
theorem Owned.written_other {a : Anchor} {p : List (Fin 512)}
    (h : Owned s live spaces held top) (hw : Written live top a p s s')
    (hne : ∀ r ∈ spaces, Anchor.space r ≠ a) : Owned s' live spaces held top := by
  have hleaf : ∀ {r q f}, r ∈ spaces → (Leaf s' live top r q f ↔ Leaf s live top r q f) :=
    fun hr => hw.leaf fun hc => hne _ hr hc.1
  refine ⟨hw.shape, hw.fresh, h.sub, fun hr hp => ?_, fun hr hl => ?_, fun hr hr' hl hl' => ?_,
    fun hr hl => ?_, fun f hf => ?_, fun f hf => ?_, fun f hf r hr p hl => ?_⟩
  · rw [hw.tables] at hp
    rw [hw.pmm]
    exact h.table_used hr hp
  · rw [hw.pmm]
    exact h.leaf_used hr ((hleaf hr).mp hl)
  · exact h.leaf_inj hr hr' ((hleaf hr).mp hl) ((hleaf hr').mp hl')
  · simp only [hw.tables]
    exact h.leaf_table hr ((hleaf hr).mp hl)
  · rw [hw.pmm]
    exact h.held_used f hf
  · simp only [hw.tables]
    exact h.held_table f hf
  · exact h.held_leaf f hf r hr p ((hleaf hr).mp hl)

/-- A page of a created space is mapped to a frame that was held. -/
theorem Owned.written_map {r f : Nat} {p : List (Fin 512)} (h : Owned s live spaces held top)
    (hr : r ∈ spaces) (hw : Written live top (.space r) p s s') (hf : f ∈ held)
    (hentry : ∀ e, entryAt s' live top (.space r) p = some (0, e) → pageMask e = f) :
    Owned s' live spaces (held.erase f) top := by
  -- a page of the new state is the new one or an old one
  have hleaf : ∀ {r' q g}, Leaf s' live top r' q g → r' = r ∧ q = p ∧ g = f ∨
      ¬ (r' = r ∧ q = p) ∧ Leaf s live top r' q g := by
    rintro r' q g hl
    by_cases hpage : r' = r ∧ q = p
    · obtain ⟨rfl, rfl⟩ := hpage
      obtain ⟨_, e, he, rfl⟩ := hl
      exact Or.inl ⟨rfl, rfl, hentry e he⟩
    · refine Or.inr ⟨hpage, (hw.leaf ?_).mp hl⟩
      rintro ⟨hc, rfl⟩
      cases hc
      exact hpage ⟨rfl, rfl⟩
  refine ⟨hw.shape, hw.fresh, h.sub, fun hr' hp => ?_, fun hr' hl => ?_, fun hr₁ hr₂ hl₁ hl₂ => ?_,
    fun hr' hl => ?_, fun g hg => ?_, fun g hg => ?_, fun g hg r' hr' q hl => ?_⟩
  · rw [hw.tables] at hp
    rw [hw.pmm]
    exact h.table_used hr' hp
  · rw [hw.pmm]
    rcases hleaf hl with ⟨_, _, rfl⟩ | ⟨_, hl⟩
    · exact h.held_used _ hf
    · exact h.leaf_used hr' hl
  · rcases hleaf hl₁ with ⟨rfl, rfl, rfl⟩ | ⟨_, hl₁⟩ <;>
      rcases hleaf hl₂ with ⟨rfl, rfl, hg⟩ | ⟨_, hl₂⟩
    · exact ⟨rfl, rfl⟩
    · exact absurd hl₂ (h.held_leaf _ hf _ hr₂ _)
    · rw [hg] at hl₁
      exact absurd hl₁ (h.held_leaf _ hf _ hr₁ _)
    · exact h.leaf_inj hr₁ hr₂ hl₁ hl₂
  · simp only [hw.tables]
    rcases hleaf hl with ⟨_, _, rfl⟩ | ⟨_, hl⟩
    · exact h.held_table _ hf
    · exact h.leaf_table hr' hl
  · rw [hw.pmm]
    exact h.held_used g (Finset.mem_of_mem_erase hg)
  · simp only [hw.tables]
    exact h.held_table g (Finset.mem_of_mem_erase hg)
  · rcases hleaf hl with ⟨_, _, hgf⟩ | ⟨_, hl⟩
    · exact (Finset.mem_erase.mp hg).1 hgf
    · exact h.held_leaf g (Finset.mem_of_mem_erase hg) r' hr' q hl

/-- A page of a created space is unmapped; its frame is held afterwards. -/
theorem Owned.written_unmap {r e : Nat} {p : List (Fin 512)} (h : Owned s live spaces held top)
    (hr : r ∈ spaces) (hp : p.length = 4) (hw : Written live top (.space r) p s s')
    (hentry : entryAt s live top (.space r) p = some (0, e))
    (hnone : entryAt s' live top (.space r) p = none) :
    Owned s' live spaces (insert (pageMask e) held) top := by
  have hold : Leaf s live top r p (pageMask e) := ⟨hp, e, hentry, rfl⟩
  have hleaf : ∀ {r' q g}, Leaf s' live top r' q g →
      ¬ (r' = r ∧ q = p) ∧ Leaf s live top r' q g := by
    rintro r' q g hl
    by_cases hpage : r' = r ∧ q = p
    · obtain ⟨rfl, rfl⟩ := hpage
      obtain ⟨_, e', he', _⟩ := hl
      rw [hnone] at he'
      cases he'
    · refine ⟨hpage, (hw.leaf ?_).mp hl⟩
      rintro ⟨hc, rfl⟩
      cases hc
      exact hpage ⟨rfl, rfl⟩
  refine ⟨hw.shape, hw.fresh, h.sub, fun hr' hp => ?_, fun hr' hl => ?_, fun hr₁ hr₂ hl₁ hl₂ => ?_,
    fun hr' hl => ?_, fun g hg => ?_, fun g hg => ?_, fun g hg r' hr' q hl => ?_⟩
  · rw [hw.tables] at hp
    rw [hw.pmm]
    exact h.table_used hr' hp
  · rw [hw.pmm]
    exact h.leaf_used hr' (hleaf hl).2
  · exact h.leaf_inj hr₁ hr₂ (hleaf hl₁).2 (hleaf hl₂).2
  · simp only [hw.tables]
    exact h.leaf_table hr' (hleaf hl).2
  · rw [hw.pmm]
    rcases Finset.mem_insert.mp hg with rfl | hg
    · exact h.leaf_used hr hold
    · exact h.held_used g hg
  · simp only [hw.tables]
    rcases Finset.mem_insert.mp hg with rfl | hg
    · exact h.leaf_table hr hold
    · exact h.held_table g hg
  · obtain ⟨hne, hl⟩ := hleaf hl
    rcases Finset.mem_insert.mp hg with rfl | hg
    · exact hne (h.leaf_inj hr' hr hl hold)
    · exact h.held_leaf g hg r' hr' q hl

/-! ## The physical memory manager -/

theorem Owned.alloc {m : Nat} (h : Owned s live spaces held top) (hm : PmmFree s.pmm m)
    (hz : Pmm.kernelZone ≤ m) (hinv : Pmm.Inv (s.pmm.take (m / 4096))) :
    Owned { s with pmm := s.pmm.take (m / 4096) } live spaces (insert m held) top := by
  refine ⟨h.shape.congr_pmm (w := s.warnings) hinv, fun a p n hn hfree => ?_, h.sub,
    fun hr hp => (h.table_used hr hp).take _, fun hr hl => (h.leaf_used hr hl).take _,
    fun hr hr' hl hl' => h.leaf_inj hr hr' hl hl', fun hr hl => h.leaf_table hr hl,
    fun f hf => ?_, fun f hf => ?_, fun f hf r hr p hl => ?_⟩
  · exact h.fresh a p n hn (PmmFree.of_take hfree).1
  · rcases Finset.mem_insert.mp hf with rfl | hf
    · exact used_of_take hm hz
    · exact (h.held_used f hf).take _
  · rcases Finset.mem_insert.mp hf with rfl | hf
    · exact fun a q hq => h.fresh a q _ hq hm
    · exact h.held_table f hf
  · rcases Finset.mem_insert.mp hf with rfl | hf
    · exact (h.leaf_used hr hl).not_free hm
    · exact h.held_leaf f hf r hr p hl

theorem PmmFree.of_release {p : Pmm.State} {f n : Nat} (hf : f % 4096 = 0)
    (h : PmmFree (p.release (f / 4096)) n) : PmmFree p n ∨ n = f := by
  have hfree := h.free
  rw [Pmm.used_release, Bool.and_eq_false_iff, decide_eq_false_iff_not, not_not] at hfree
  rcases hfree with heq | hfree
  · exact Or.inr (eq_of_page h.aligned hf heq)
  · exact Or.inl ⟨h.aligned, h.tracked, hfree⟩

theorem Owned.free {f : Nat} (h : Owned s live spaces held top) (hf : f ∈ held) :
    Owned (freePage s f) live spaces (held.erase f) top := by
  have hused := h.held_used f hf
  obtain ⟨_, heq, hinv⟩ := freeOwned_used h.shape.pmm hused
  rw [heq]
  refine ⟨h.shape.congr_pmm (w := s.warnings) hinv, fun a p n hn hfree => ?_, h.sub,
    fun hr hp => (h.table_used hr hp).release hused.aligned ?_,
    fun hr hl => (h.leaf_used hr hl).release hused.aligned ?_,
    fun hr hr' hl hl' => h.leaf_inj hr hr' hl hl', fun hr hl => h.leaf_table hr hl,
    fun g hg => ?_, fun g hg => h.held_table g (Finset.mem_of_mem_erase hg),
    fun g hg => h.held_leaf g (Finset.mem_of_mem_erase hg)⟩
  · rcases PmmFree.of_release hused.aligned hfree with hfree | rfl
    · exact h.fresh a p n hn hfree
    · exact h.held_table _ hf a p hn
  · rintro rfl
    exact h.held_table _ hf _ _ hp
  · rintro rfl
    exact h.held_leaf _ hf _ hr _ hl
  · obtain ⟨hne, hg⟩ := Finset.mem_erase.mp hg
    exact (h.held_used g hg).release hused.aligned hne

/-! ## Creating and destroying -/

/-- A page of the lower half starts with a lower index. -/
theorem Leaf.lower {r : Nat} (hr : r ∈ live) {p : List (Fin 512)} {f : Nat}
    (hl : Leaf s live top r p f) : ∃ i q, p = i :: q ∧ i.val < 256 := by
  obtain ⟨hp, e, he, _⟩ := hl
  obtain ⟨q, i, rfl⟩ := List.eq_nil_or_concat' p |>.resolve_left (by rintro rfl; simp at hp)
  rw [List.length_append, List.length_singleton] at hp
  obtain ⟨pt, hpt, _⟩ := (entryAt_zero_iff (by simpa [Anchor.level] using hp)).mp he
  cases q with
  | nil => simp at hp
  | cons j q =>
    refine ⟨j, q ++ [i], rfl, ?_⟩
    by_contra hj
    rw [tableAt, node_of_root (roots_space hr), walk, nextOf, if_pos (Or.inr ⟨rfl, by omega⟩)] at hpt
    cases hpt

theorem Owned.created {m : Nat} (h : Owned s live spaces held top)
    (hc : Created live top m s s') : Owned s' (insert m live) (insert m spaces) held top := by
  have hused : ∀ {f}, PmmUsed s.pmm f → PmmUsed s'.pmm f := by
    intro f hf
    rw [hc.pmm]
    exact hf.take _
  have hnot : ∀ {f}, PmmUsed s.pmm f → (∀ a q, tableAt s live top a q ≠ some f) →
      ∀ a q, tableAt s' (insert m live) top a q ≠ some f := by
    intro f hf hno a q hq
    rcases hc.tables.mp hq with ⟨_, _, rfl⟩ | hq
    · exact hf.not_free hc.free
    · exact hno a q hq
  have hleaf : ∀ {r p f}, r ∈ insert m spaces → Leaf s' (insert m live) top r p f →
      r ∈ spaces ∧ Leaf s live top r p f := by
    intro r p f hr hl
    have hne : r ≠ m := by
      rintro rfl
      obtain ⟨i, q, rfl, hi⟩ := hl.lower (Finset.mem_insert_self r live)
      obtain ⟨_, e, he, _⟩ := hl
      rw [hc.empty i q hi] at he
      cases he
    have hr' := (Finset.mem_insert.mp hr).resolve_left hne
    refine ⟨hr', (Leaf.congr fun _ => hc.entries _ _ ?_).mp hl⟩
    intro heq
    cases heq
    exact hne rfl
  refine ⟨hc.shape, hc.fresh, Finset.insert_subset_insert m h.sub, fun hr hp => ?_,
    fun hr hl => hused (h.leaf_used (hleaf hr hl).1 (hleaf hr hl).2),
    fun hr hr' hl hl' => h.leaf_inj (hleaf hr hl).1 (hleaf hr' hl').1 (hleaf hr hl).2
      (hleaf hr' hl').2,
    fun hr hl => ?_, fun f hf => hused (h.held_used f hf),
    fun f hf => hnot (h.held_used f hf) (h.held_table f hf),
    fun f hf r hr p hl => h.held_leaf f hf r (hleaf hr hl).1 p (hleaf hr hl).2⟩
  · rcases hc.tables.mp hp with ⟨_, _, rfl⟩ | hold
    · rw [hc.pmm]
      exact used_of_take hc.free hc.above
    · rcases Finset.mem_insert.mp hr with rfl | hr'
      · obtain ⟨root, hroot, _⟩ := tableAt_root hold
        simp [roots, hc.notMem] at hroot
      · exact hused (h.table_used hr' hold)
  · obtain ⟨hr, hl⟩ := hleaf hr hl
    exact hnot (h.leaf_used hr hl) (h.leaf_table hr hl)

/-- The frames of a space are its tables and its pages. -/
theorem frame_iff {r f : Nat} {p : List (Fin 512)} (hr : r ∈ live) :
    walk nextFrame s.mem 4 r p = some f ↔
      tableAt s live top (.space r) p = some f ∨ Leaf s live top r p f := by
  have htable : ∀ q, tableAt s live top (.space r) q = walk nextOf s.mem 3 r q := fun q => by
    rw [tableAt, node_of_root (roots_space hr)]
  constructor
  · intro hwalk
    have hlen := walk_length nextFrame_level_zero hwalk
    by_cases hp : p.length ≤ 3
    · left
      rw [htable]
      exact walk_table_of_frame hp hwalk
    · right
      have hp4 : p.length = 4 := by omega
      obtain ⟨q, i, rfl⟩ := List.eq_nil_or_concat' p |>.resolve_left (by rintro rfl; simp at hp4)
      have hq : q.length = 3 := by
        rw [List.length_append, List.length_singleton] at hp4
        omega
      obtain ⟨pt, hpt, hpres, hf⟩ := (walk_page_iff hq).mp hwalk
      refine ⟨hp4, s.mem pt i, (entryAt_zero_iff hq).mpr ⟨pt, ?_, rfl, hpres⟩, hf⟩
      rw [htable]
      exact hpt
  · rintro (hp | ⟨hp, e, he, rfl⟩)
    · rw [htable] at hp
      exact walk_frame_of_table hp
    · obtain ⟨q, i, rfl⟩ := List.eq_nil_or_concat' p |>.resolve_left (by rintro rfl; simp at hp)
      have hq : q.length = 3 := by
        rw [List.length_append, List.length_singleton] at hp
        omega
      obtain ⟨pt, hpt, rfl, hpres⟩ := (entryAt_zero_iff hq).mp he
      rw [htable] at hpt
      exact (walk_page_iff hq).mpr ⟨pt, hpt, hpres, rfl⟩

theorem Owned.frame_used {r f : Nat} {p : List (Fin 512)} (h : Owned s live spaces held top)
    (hr : r ∈ spaces) (hf : walk nextFrame s.mem 4 r p = some f) : PmmUsed s.pmm f := by
  rcases (frame_iff (h.sub hr)).mp hf with hp | hl
  · exact h.table_used hr hp
  · exact h.leaf_used hr hl

theorem Owned.injective {r : Nat} (h : Owned s live spaces held top) (hr : r ∈ spaces) :
    Injective s 3 r := by
  intro p q m hp hq
  rcases (frame_iff (h.sub hr)).mp hp with hp | hp <;>
    rcases (frame_iff (h.sub hr)).mp hq with hq | hq
  · exact (h.shape.separate hp hq).2
  · exact absurd hp (h.leaf_table hr hq _ _)
  · exact absurd hq (h.leaf_table hr hp _ _)
  · exact (h.leaf_inj hr hr hp hq).2

/-- The loop body leaves its entry absent. -/
theorem destroyEntry_absent (level table : Nat) (s : State) (i : Fin 512) :
    present ((destroyEntry level table s i).mem table i) = false := by
  cases level with
  | zero =>
    rw [destroyEntry]
    cases hpres : present (s.mem table i) with
    | false => simpa using hpres
    | true => simp [present_zero]
  | succ level =>
    rw [destroyEntry]
    cases hpres : present (s.mem table i) with
    | false => simpa using hpres
    | true => cases huge (s.mem table i) <;> simp [present_zero]

theorem destroySpace_absent {r : Nat} (hr : r ≠ Pmm.physNull) (freePml4 : Bool) {i : Fin 512}
    (hi : i.val < 256) : present ((vmmDestroyAddressSpace s r freePml4).mem r i) = false := by
  have hloop : ∀ (l : List (Fin 512)) (s : State), (∀ j ∈ l, j.val < 256) →
      i ∈ l ∨ present (s.mem r i) = false →
      present ((l.foldl (destroyEntry 3 r) s).mem r i) = false := by
    intro l
    induction l with
    | nil => exact fun s _ h => h.resolve_left (by simp)
    | cons j l ih =>
      intro s hl h
      refine ih _ (fun k hk => hl k (List.mem_cons_of_mem _ hk)) ?_
      have hcl := destroyEntry_cleared r s (le_refl 3) fun _ => hl j List.mem_cons_self
      rcases h with h | h
      · rcases List.mem_cons.mp h with rfl | h
        · exact Or.inr (destroyEntry_absent 3 r s i)
        · exact Or.inl h
      · right
        rcases hcl.zero r i with heq | ⟨_, hz⟩
        · rw [heq]
          exact h
        · rw [hz]
          rfl
  have hmain := hloop lowerHalf s (fun j hj => mem_lowerHalf.mp hj)
    (Or.inl (mem_lowerHalf.mpr hi))
  unfold vmmDestroyAddressSpace
  rw [if_neg hr]
  dsimp only
  split_ifs
  · rcases (freeOwned_cleared (fun _ _ => False) _ r).zero r i with heq | ⟨hc, _⟩
    · rw [heq]
      exact hmain
    · exact absurd hc id
  · exact hmain

/-- What is left of the spaces when `r` is destroyed. -/
structure Dissolved (live : Finset Nat) (top : Fin 512 → Nat) (r : Nat) (freePml4 : Bool)
    (s s' : State) : Prop where
  freed : Freed (spaceFrames s r freePml4) s s'
  destroyed : Destroyed live top r s s'
  absent : ∀ i : Fin 512, i.val < 256 → present (s'.mem r i) = false

theorem Owned.ne_null {r : Nat} (h : Owned s live spaces held top) (hr : r ∈ spaces) :
    r ≠ Pmm.physNull := by
  have h1 := (h.table_used hr (tableAt_space (h.sub hr))).above
  have h2 : Pmm.kernelZone = 0x4800000 := rfl
  have h3 : Pmm.physNull = 0 := rfl
  omega

theorem Owned.dissolved {r : Nat} (h : Owned s live spaces held top) (hr : r ∈ spaces)
    (freePml4 : Bool) :
    Dissolved live top r freePml4 s (vmmDestroyAddressSpace s r freePml4) := by
  have hinj := h.injective hr
  obtain ⟨mem, heq⟩ := destroySpace_frees (h.ne_null hr) hinj freePml4
  refine ⟨?_, destroySpace_destroyed h.shape (h.sub hr) freePml4,
    fun i hi => destroySpace_absent (h.ne_null hr) freePml4 hi⟩
  have hfreed : Freed (spaceFrames s r freePml4) s (freeAll s (spaceFrames s r freePml4)) := by
    refine freeAll_spec h.shape.pmm (nodup_spaceFrames hinj freePml4) fun f hf => ?_
    rcases mem_spaceFrames.mp hf with ⟨p, _, hp⟩ | ⟨_, rfl⟩
    · exact h.frame_used hr hp
    · exact h.table_used hr (tableAt_space (h.sub hr))
  rw [heq]
  exact hfreed.congr_mem mem

section Dissolved

variable {r r' f : Nat} {p : List (Fin 512)} {live' : Finset Nat} {freePml4 : Bool}

/-- The only table of `r` that may be left is its PML4. -/
theorem Dissolved.table (hd : Dissolved live top r freePml4 s s') (hsub : live' ⊆ live)
    (hgone : freePml4 = true → r ∉ live') {b : Anchor} {n : Nat}
    (hn : tableAt s' live' top b p = some n) :
    tableAt s live top b p = some n ∧ (b = .space r → p = [] ∧ freePml4 = false) := by
  refine ⟨hd.destroyed.tables live' hsub hn, ?_⟩
  rintro rfl
  obtain ⟨root, hroot, _⟩ := tableAt_root hn
  have hrlive : r ∈ live' := by
    by_contra hc
    simp [roots, hc] at hroot
  constructor
  · cases p with
    | nil => rfl
    | cons i q =>
      have hnone : nextOf 3 i (s'.mem r i) = none := by
        by_cases hi : i.val < 256
        · exact nextOf_of_absent (hd.absent i hi)
        · rw [nextOf, if_pos (Or.inr ⟨rfl, by omega⟩)]
      rw [tableAt, node_of_root (roots_space hrlive), walk, hnone] at hn
      cases hn
  · by_contra hc
    rw [Bool.not_eq_false] at hc
    exact hgone hc hrlive

/-- A page that is still mapped is one of another space. -/
theorem Dissolved.leaf (hd : Dissolved live top r freePml4 s s') (hsub : live' ⊆ live)
    (hrlive : r' ∈ live') (hl : Leaf s' live' top r' p f) : r' ≠ r ∧ Leaf s live top r' p f := by
  have hne : r' ≠ r := by
    rintro rfl
    obtain ⟨i, q, rfl, hi⟩ := hl.lower hrlive
    obtain ⟨hlen, e, he, _⟩ := hl
    unfold entryAt at he
    rw [find_of_root (roots_space hrlive), lookup, nextOf_of_absent (hd.absent i hi)] at he
    simp [Option.filter, hd.absent i hi] at he
  refine ⟨hne, (Leaf.congr fun _ => hd.destroyed.entries live' hsub _ _ ?_ ?_).mp hl⟩
  · intro hc
    cases hc
    exact hne rfl
  · rw [roots_space hrlive, roots_space (hsub hrlive)]

/-- A frame that is not given back is still handed out. -/
theorem Freed.pmmUsed {l : List Nat} (h : Freed l s s') (hf : PmmUsed s.pmm f) (hno : f ∉ l) :
    PmmUsed s'.pmm f := by
  refine ⟨hf.aligned, by rw [h.pages]; exact hf.tracked, hf.above, ?_⟩
  have hpage : f / 4096 * 4096 = f := pageMask_of_dvd hf.aligned
  rw [h.used, hpage]
  exact ⟨hf.used, hno⟩

/-- A frame that is free now, and was not given back, was free before. -/
theorem Freed.pmmFree {l : List Nat} (h : Freed l s s') (hf : PmmFree s'.pmm f) (hno : f ∉ l) :
    PmmFree s.pmm f := by
  refine ⟨hf.aligned, by rw [← h.pages]; exact hf.tracked, ?_⟩
  by_contra hu
  rw [Bool.not_eq_false] at hu
  have hpage : f / 4096 * 4096 = f := pageMask_of_dvd hf.aligned
  have hused := (h.used (f / 4096)).mpr ⟨hu, by rw [hpage]; exact hno⟩
  rw [hf.free] at hused
  cases hused

/-- The frames that are given back belong to no other space. -/
theorem Owned.leaf_not_freed (h : Owned s live spaces held top) (hr : r ∈ spaces)
    (hr' : r' ∈ spaces) (hne : r' ≠ r) (hl : Leaf s live top r' p f) :
    f ∉ spaceFrames s r freePml4 := by
  intro hmem
  rcases mem_spaceFrames.mp hmem with ⟨q, _, hwalk⟩ | ⟨_, rfl⟩
  · rcases (frame_iff (h.sub hr)).mp hwalk with ht | hl'
    · exact h.leaf_table hr' hl _ _ ht
    · exact hne (h.leaf_inj hr' hr hl hl').1
  · exact h.leaf_table hr' hl _ _ (tableAt_space (h.sub hr))

theorem Owned.held_not_freed (h : Owned s live spaces held top) (hr : r ∈ spaces) (hf : f ∈ held) :
    f ∉ spaceFrames s r freePml4 := by
  intro hmem
  rcases mem_spaceFrames.mp hmem with ⟨q, _, hwalk⟩ | ⟨_, rfl⟩
  · rcases (frame_iff (h.sub hr)).mp hwalk with ht | hl'
    · exact h.held_table f hf _ _ ht
    · exact h.held_leaf f hf r hr _ hl'
  · exact h.held_table _ hf _ _ (tableAt_space (h.sub hr))

/-- The tables that are left are not given back. -/
theorem Owned.table_not_freed (h : Owned s live spaces held top) (hr : r ∈ spaces) {b : Anchor}
    {n : Nat} (hn : tableAt s live top b p = some n)
    (hrest : b = .space r → p = [] ∧ freePml4 = false) : n ∉ spaceFrames s r freePml4 := by
  intro hmem
  rcases mem_spaceFrames.mp hmem with ⟨q, hq, hwalk⟩ | ⟨hfree, rfl⟩
  · rcases (frame_iff (h.sub hr)).mp hwalk with ht | hl
    · obtain ⟨hb, rfl⟩ := h.shape.separate hn ht
      exact hq (hrest hb).1
    · exact h.leaf_table hr hl _ _ hn
  · have hb := (h.shape.separate hn (tableAt_space (h.sub hr))).1
    rw [(hrest hb).2] at hfree
    cases hfree

end Dissolved

theorem erase_if_subset (l : Finset Nat) (r : Nat) (c : Bool) :
    (if c then l.erase r else l) ⊆ l := by
  split_ifs
  · exact Finset.erase_subset r l
  · exact Finset.Subset.refl _

/-- The other owners keep their frames. -/
theorem Owned.destroy {r : Nat} (h : Owned s live spaces held top) (hr : r ∈ spaces)
    (hk : s.kernelPml4Phys ∈ live) (hkr : s.kernelPml4Phys ≠ r) (freePml4 : Bool)
    {live' spaces' : Finset Nat} (hlive : live' = if freePml4 then live.erase r else live)
    (hspaces : spaces' = if freePml4 then spaces.erase r else spaces) :
    Owned (vmmDestroyAddressSpace s r freePml4) live' spaces' held top := by
  have hd := h.dissolved hr freePml4
  have hsubl : live' ⊆ live := hlive ▸ erase_if_subset live r freePml4
  have hsubs : spaces' ⊆ spaces := hspaces ▸ erase_if_subset spaces r freePml4
  have hkernel : s.kernelPml4Phys ∈ live' := by
    rw [hlive]
    split_ifs
    · exact Finset.mem_erase.mpr ⟨hkr, hk⟩
    · exact hk
  have hsub : spaces' ⊆ live' := by
    rw [hlive, hspaces]
    split_ifs
    · exact Finset.erase_subset_erase r h.sub
    · exact h.sub
  have hgone : freePml4 = true → r ∉ live' := by
    intro hfree
    rw [hlive, if_pos hfree]
    exact Finset.notMem_erase r live
  have htable : ∀ {b q n}, tableAt (vmmDestroyAddressSpace s r freePml4) live' top b q = some n →
      tableAt s live top b q = some n ∧ n ∉ spaceFrames s r freePml4 := by
    intro b q n hn
    obtain ⟨hold, hrest⟩ := hd.table hsubl hgone hn
    exact ⟨hold, h.table_not_freed hr hold hrest⟩
  have hleaf : ∀ {r' p f}, r' ∈ spaces' →
      Leaf (vmmDestroyAddressSpace s r freePml4) live' top r' p f →
      r' ≠ r ∧ Leaf s live top r' p f := fun hr' hl => hd.leaf hsubl (hsub hr') hl
  refine ⟨hd.destroyed.shape live' hsubl hkernel, fun a p n hn hfree => ?_, hsub,
    fun hr' hp => ?_, fun hr' hl => ?_, fun hr₁ hr₂ hl₁ hl₂ => ?_, fun hr' hl a q hq => ?_,
    fun f hf => ?_, fun f hf a q hq => ?_, fun f hf r' hr' p hl => ?_⟩
  · obtain ⟨hold, hout⟩ := htable hn
    exact h.fresh a p n hold (hd.freed.pmmFree hfree hout)
  · obtain ⟨hold, hout⟩ := htable hp
    exact hd.freed.pmmUsed (h.table_used (hsubs hr') hold) hout
  · obtain ⟨hne, hl⟩ := hleaf hr' hl
    exact hd.freed.pmmUsed (h.leaf_used (hsubs hr') hl) (h.leaf_not_freed hr (hsubs hr') hne hl)
  · exact h.leaf_inj (hsubs hr₁) (hsubs hr₂) (hleaf hr₁ hl₁).2 (hleaf hr₂ hl₂).2
  · exact h.leaf_table (hsubs hr') (hleaf hr' hl).2 a q (htable hq).1
  · exact hd.freed.pmmUsed (h.held_used f hf) (h.held_not_freed hr hf)
  · exact h.held_table f hf a q (htable hq).1
  · exact h.held_leaf f hf r' (hsubs hr') p (hleaf hr' hl).2

end Kyuzen.Paging
