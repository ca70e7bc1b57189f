import Mathlib

/-!
# Trees of tables

A memory gives every table its entries, and an entry may point to a table of the level below
(`next`, which may look at the level and the index too). `walk` follows the pointers along a
list of indices, `lookup` follows them up to the first entry that points nowhere.

A forest is a family of roots, each with its level; `node` is the table that a root and a list
of indices lead to. When no table is reached in two ways (`Separate`), a write to one entry is
seen only by the paths through that entry (`node_write_of_ne`, `find_write_of_ne`), and the
paths through it continue from what was written (`node_write`, `find_write`).
-/

namespace Kyuzen.Lib.Radix

variable {N I E A : Type*}

section Definitions

variable (next : Nat → I → E → Option N) (mem : N → I → E)

def walk : Nat → N → List I → Option N
  | _, n, [] => some n
  | k, n, i :: p => (next k i (mem n i)).bind fun m => walk (k - 1) m p

/-- The entry at which a walk ends, with its level. -/
def lookup : Nat → N → List I → Option (Nat × E)
  | _, _, [] => none
  | k, n, i :: p =>
    match next k i (mem n i) with
    | some m => lookup (k - 1) m p
    | none => some (k, mem n i)

variable (roots : A → Option (Nat × N))

def node (a : A) (p : List I) : Option N := (roots a).bind fun r => walk next mem r.1 r.2 p

def find (a : A) (p : List I) : Option (Nat × E) :=
  (roots a).bind fun r => lookup next mem r.1 r.2 p

/-- No table is reached in two ways. -/
def Separate : Prop :=
  ∀ ⦃a b : A⦄ ⦃p q : List I⦄ ⦃n : N⦄, node next mem roots a p = some n →
    node next mem roots b q = some n → a = b ∧ p = q

end Definitions

variable {next : Nat → I → E → Option N} {mem mem' : N → I → E}
  {roots roots' : A → Option (Nat × N)}

/-! ## Walks -/

theorem walk_append {k : Nat} {n : N} {p q : List I} :
    walk next mem k n (p ++ q) =
      (walk next mem k n p).bind fun m => walk next mem (k - p.length) m q := by
  induction p generalizing k n with
  | nil => rfl
  | cons i p ih =>
    rw [List.cons_append, walk, walk, Option.bind_assoc]
    refine congrArg _ (funext fun m => ?_)
    rw [ih, List.length_cons, Nat.sub_sub, Nat.add_comm 1]

theorem lookup_append {k : Nat} {n m : N} {p q : List I} (h : walk next mem k n p = some m) :
    lookup next mem k n (p ++ q) = lookup next mem (k - p.length) m q := by
  induction p generalizing k n with
  | nil =>
    cases h
    rfl
  | cons i p ih =>
    obtain ⟨m', hm', hrest⟩ := Option.bind_eq_some_iff.mp h
    rw [List.cons_append, lookup, hm']
    dsimp only
    rw [ih hrest, List.length_cons, Nat.sub_sub, Nat.add_comm 1]

/-- A walk is not longer than the level of its start. -/
theorem walk_length (hzero : ∀ i e, next 0 i e = none) {k : Nat} {n m : N} {p : List I}
    (h : walk next mem k n p = some m) : p.length ≤ k := by
  induction p generalizing k n with
  | nil => exact Nat.zero_le k
  | cons i p ih =>
    obtain ⟨m', hnext, hrest⟩ := Option.bind_eq_some_iff.mp h
    have hk : k ≠ 0 := by
      rintro rfl
      rw [hzero] at hnext
      cases hnext
    have := ih hrest
    rw [List.length_cons]
    omega

/-- A lookup ends at an entry, that points nowhere, of a table on its way. -/
theorem lookup_eq_some {k l : Nat} {n : N} {p : List I} {e : E}
    (h : lookup next mem k n p = some (l, e)) :
    ∃ q i rest m, p = q ++ i :: rest ∧ walk next mem k n q = some m ∧ l = k - q.length ∧
      e = mem m i := by
  induction p generalizing k n with
  | nil => cases h
  | cons i p ih =>
    rw [lookup] at h
    cases hnext : next k i (mem n i) with
    | none =>
      rw [hnext] at h
      cases h
      exact ⟨[], i, p, n, rfl, rfl, rfl, rfl⟩
    | some m' =>
      rw [hnext] at h
      obtain ⟨q, j, rest, m, rfl, hwalk, hl, he⟩ := ih h
      refine ⟨i :: q, j, rest, m, rfl, ?_, ?_, he⟩
      · rw [walk, hnext]
        exact hwalk
      · rw [hl, List.length_cons, Nat.sub_sub, Nat.add_comm 1]

/-- A walk reads the entries of the tables on its way. -/
theorem walk_congr {k : Nat} {n : N} {p : List I}
    (h : ∀ q i, q ++ [i] <+: p → ∀ m, walk next mem k n q = some m → mem' m i = mem m i) :
    walk next mem' k n p = walk next mem k n p := by
  induction p generalizing k n with
  | nil => rfl
  | cons i p ih =>
    rw [walk, walk, h [] i (by simp) n rfl]
    cases hnext : next k i (mem n i) with
    | none => rfl
    | some m =>
      refine ih fun q j hq m' hm' => h (i :: q) j ?_ m' ?_
      · exact List.cons_prefix_cons.mpr ⟨rfl, hq⟩
      · rw [walk, hnext]
        exact hm'

theorem lookup_congr {k : Nat} {n : N} {p : List I}
    (h : ∀ q i, q ++ [i] <+: p → ∀ m, walk next mem k n q = some m → mem' m i = mem m i) :
    lookup next mem' k n p = lookup next mem k n p := by
  induction p generalizing k n with
  | nil => rfl
  | cons i p ih =>
    rw [lookup, lookup, h [] i (by simp) n rfl]
    cases hnext : next k i (mem n i) with
    | none => rfl
    | some m =>
      refine ih fun q j hq m' hm' => h (i :: q) j ?_ m' ?_
      · exact List.cons_prefix_cons.mpr ⟨rfl, hq⟩
      · rw [walk, hnext]
        exact hm'

/-- Where entries are only cleared, every walk was there before. -/
theorem walk_of_cleared {k : Nat} {n m : N} {p : List I}
    (h : ∀ n i, mem' n i = mem n i ∨ ∀ k, next k i (mem' n i) = none)
    (hwalk : walk next mem' k n p = some m) : walk next mem k n p = some m := by
  induction p generalizing k n with
  | nil => exact hwalk
  | cons i p ih =>
    obtain ⟨m', hm', hrest⟩ := Option.bind_eq_some_iff.mp hwalk
    rcases h n i with hsame | hnone
    · rw [walk, ← hsame, hm']
      exact ih hrest
    · rw [hnone k] at hm'
      cases hm'

/-! ## Forests -/

theorem node_of_root {a : A} {r : Nat × N} (h : roots a = some r) (p : List I) :
    node next mem roots a p = walk next mem r.1 r.2 p := by
  rw [node, h, Option.bind_some]

theorem find_of_root {a : A} {r : Nat × N} (h : roots a = some r) (p : List I) :
    find next mem roots a p = lookup next mem r.1 r.2 p := by
  rw [find, h, Option.bind_some]

theorem node_congr {a : A} {p : List I}
    (h : ∀ q i, q ++ [i] <+: p → ∀ m, node next mem roots a q = some m → mem' m i = mem m i) :
    node next mem' roots a p = node next mem roots a p := by
  unfold node at h ⊢
  cases hroot : roots a with
  | none => rfl
  | some r =>
    rw [hroot] at h
    exact walk_congr h

theorem find_congr {a : A} {p : List I}
    (h : ∀ q i, q ++ [i] <+: p → ∀ m, node next mem roots a q = some m → mem' m i = mem m i) :
    find next mem' roots a p = find next mem roots a p := by
  unfold node at h
  unfold find
  cases hroot : roots a with
  | none => rfl
  | some r =>
    rw [hroot] at h
    exact lookup_congr h

/-- A path through an entry of a table continues from that entry. -/
theorem node_through {a : A} {p q : List I} {n : N} {i : I} {r : Nat × N}
    (hroot : roots a = some r) (hn : node next mem roots a p = some n) :
    node next mem roots a (p ++ i :: q) =
      (next (r.1 - p.length) i (mem n i)).bind fun m =>
        walk next mem (r.1 - p.length - 1) m q := by
  rw [node_of_root hroot] at hn ⊢
  rw [walk_append, hn, Option.bind_some, walk]

theorem find_through {a : A} {p q : List I} {n : N} {i : I} {r : Nat × N}
    (hroot : roots a = some r) (hn : node next mem roots a p = some n) :
    find next mem roots a (p ++ i :: q) = lookup next mem (r.1 - p.length) n (i :: q) := by
  rw [node_of_root hroot] at hn
  rw [find_of_root hroot, lookup_append hn]

/-- Nothing changes when the tables of the forest do not. -/
theorem node_frame (h : ∀ a p n, node next mem roots a p = some n → mem' n = mem n) (a : A)
    (p : List I) : node next mem' roots a p = node next mem roots a p :=
  node_congr fun q _ _ m hm => congrFun (h a q m hm) _

theorem find_frame (h : ∀ a p n, node next mem roots a p = some n → mem' n = mem n) (a : A)
    (p : List I) : find next mem' roots a p = find next mem roots a p :=
  find_congr fun q _ _ m hm => congrFun (h a q m hm) _

theorem separate_of_sub (h : Separate next mem roots)
    (hsub : ∀ a p n, node next mem' roots' a p = some n → node next mem roots a p = some n) :
    Separate next mem' roots' := by
  intro a b p q n hp hq
  exact h (hsub a p n hp) (hsub b q n hq)

/-- One more table, which was not in the forest. -/
theorem separate_of_added (h : Separate next mem roots) {c : A} {r : List I} {m : N}
    (hnew : ∀ a p, node next mem roots a p ≠ some m)
    (hadd : ∀ a p n, node next mem' roots' a p = some n →
      node next mem roots a p = some n ∨ a = c ∧ p = r ∧ n = m) :
    Separate next mem' roots' := by
  intro a b p q n hp hq
  rcases hadd a p n hp with hp | ⟨ha, hpp, hpm⟩ <;> rcases hadd b q n hq with hq | ⟨hb, hqq, hqm⟩
  · exact h hp hq
  · rw [hqm] at hp
    exact absurd hp (hnew a p)
  · rw [hpm] at hq
    exact absurd hq (hnew b q)
  · exact ⟨ha.trans hb.symm, hpp.trans hqq.symm⟩

/-! ## Writing an entry -/

section Write

variable [DecidableEq N] [DecidableEq I]

def write (mem : N → I → E) (n : N) (i : I) (e : E) : N → I → E :=
  Function.update mem n (Function.update (mem n) i e)

@[simp] theorem write_self (mem : N → I → E) (n : N) (i : I) (e : E) :
    write mem n i e n i = e := by
  simp [write]

theorem write_of_ne {n m : N} {i j : I} {e : E} (h : ¬ (m = n ∧ j = i)) :
    write mem n i e m j = mem m j := by
  unfold write
  by_cases hm : m = n
  · subst hm
    rw [Function.update_self, Function.update_of_ne fun hj => h ⟨rfl, hj⟩]
  · rw [Function.update_of_ne hm]

theorem write_table_of_ne {n m : N} {i : I} {e : E} (h : m ≠ n) :
    write mem n i e m = mem m :=
  Function.update_of_ne h _ _

variable {a b : A} {p q : List I} {n : N} {i : I} {e : E}

/-- The entries read on a way that does not lead through the written one. -/
theorem write_unseen (hsep : Separate next mem roots) (hn : node next mem roots a p = some n)
    (hne : ¬ (b = a ∧ p ++ [i] <+: q)) (r : List I) (j : I) (hr : r ++ [j] <+: q) (m : N)
    (hm : node next mem roots b r = some m) : write mem n i e m j = mem m j := by
  refine write_of_ne ?_
  rintro ⟨rfl, rfl⟩
  obtain ⟨rfl, rfl⟩ := hsep hm hn
  exact hne ⟨rfl, hr⟩

theorem node_write_of_ne (hsep : Separate next mem roots) (hn : node next mem roots a p = some n)
    (hne : ¬ (b = a ∧ p ++ [i] <+: q)) :
    node next (write mem n i e) roots b q = node next mem roots b q :=
  node_congr (write_unseen hsep hn hne)

theorem find_write_of_ne (hsep : Separate next mem roots) (hn : node next mem roots a p = some n)
    (hne : ¬ (b = a ∧ p ++ [i] <+: q)) :
    find next (write mem n i e) roots b q = find next mem roots b q :=
  find_congr (write_unseen hsep hn hne)

theorem node_write_self (hsep : Separate next mem roots)
    (hn : node next mem roots a p = some n) :
    node next (write mem n i e) roots a p = some n := by
  rw [node_write_of_ne hsep hn, hn]
  rintro ⟨-, hp⟩
  have := hp.length_le
  simp at this

/-- An entry that points nowhere is overwritten by one that points nowhere. -/
theorem node_write_leaf {r : Nat × N} (hsep : Separate next mem roots) (hroot : roots a = some r)
    (hn : node next mem roots a p = some n)
    (hold : next (r.1 - p.length) i (mem n i) = none)
    (hnew : next (r.1 - p.length) i e = none) (b : A) (q : List I) :
    node next (write mem n i e) roots b q = node next mem roots b q := by
  by_cases hthrough : b = a ∧ p ++ [i] <+: q
  · obtain ⟨rfl, s, rfl⟩ := hthrough
    rw [List.append_assoc, List.singleton_append, node_through hroot hn, hold,
      node_through hroot (node_write_self hsep hn), write_self, hnew]
    rfl
  · exact node_write_of_ne hsep hn hthrough

/-- An entry that points nowhere is overwritten by a pointer to a table without pointers that
was not in the forest. -/
theorem node_write_pointer {r : Nat × N} (hsep : Separate next mem roots)
    (hroot : roots a = some r) (hn : node next mem roots a p = some n)
    (hold : next (r.1 - p.length) i (mem n i) = none) {m : N}
    (hnew : next (r.1 - p.length) i e = some m) (hfresh : ∀ b q, node next mem roots b q ≠ some m)
    (hempty : ∀ k j, next k j (mem m j) = none) {b : A} {q : List I} {x : N} :
    node next (write mem n i e) roots b q = some x ↔
      b = a ∧ q = p ++ [i] ∧ x = m ∨ node next mem roots b q = some x := by
  have hmn : m ≠ n := by
    rintro rfl
    exact hfresh a p hn
  by_cases hthrough : b = a ∧ p ++ [i] <+: q
  · obtain ⟨rfl, s, rfl⟩ := hthrough
    rw [List.append_assoc, List.singleton_append, node_through hroot hn, hold,
      node_through hroot (node_write_self hsep hn), write_self, hnew, Option.bind_some,
      Option.bind_none]
    cases s with
    | nil => simp [walk, eq_comm]
    | cons j s =>
      rw [walk, write_table_of_ne hmn, hempty, Option.bind_none]
      simp
  · rw [node_write_of_ne hsep hn hthrough]
    refine ⟨Or.inr, ?_⟩
    rintro (⟨hb, hq, _⟩ | h)
    · exact absurd ⟨hb, hq ▸ List.prefix_refl _⟩ hthrough
    · exact h

end Write

/-! ## The tables below an entry -/

section Below

/-- The tables below entry `i` of `n`, each after those below itself. -/
def below (next : Nat → I → E → Option N) (mem : N → I → E) (indices : List I) :
    Nat → N → I → List N
  | 0, _, _ => []
  | k + 1, n, i =>
    match next (k + 1) i (mem n i) with
    | none => []
    | some m => indices.flatMap (below next mem indices k m) ++ [m]

variable {indices : List I}

theorem walk_of_mem_below {k : Nat} {n m : N} {i : I} (h : m ∈ below next mem indices k n i) :
    ∃ q, walk next mem k n (i :: q) = some m := by
  induction k generalizing n i with
  | zero => cases h
  | succ k ih =>
    rw [below] at h
    cases hnext : next (k + 1) i (mem n i) with
    | none =>
      rw [hnext] at h
      cases h
    | some m' =>
      rw [hnext] at h
      rcases List.mem_append.mp h with h | h
      · obtain ⟨j, _, hj⟩ := List.mem_flatMap.mp h
        obtain ⟨q, hq⟩ := ih hj
        refine ⟨j :: q, ?_⟩
        rw [walk, hnext]
        exact hq
      · refine ⟨[], ?_⟩
        rw [walk, hnext, List.mem_singleton.mp h]
        rfl

theorem mem_below_of_walk (hzero : ∀ i e, next 0 i e = none) (hall : ∀ i, i ∈ indices) {k : Nat}
    {n m : N} {i : I} {q : List I} (h : walk next mem k n (i :: q) = some m) :
    m ∈ below next mem indices k n i := by
  induction k generalizing n i q with
  | zero =>
    rw [walk, hzero] at h
    cases h
  | succ k ih =>
    obtain ⟨m', hnext, hrest⟩ := Option.bind_eq_some_iff.mp h
    rw [below, hnext]
    refine List.mem_append.mpr ?_
    cases q with
    | nil =>
      cases hrest
      exact Or.inr List.mem_cons_self
    | cons j q => exact Or.inl (List.mem_flatMap.mpr ⟨j, hall j, ih hrest⟩)

theorem below_congr {k : Nat} {n : N} {i : I} (hcell : mem' n i = mem n i)
    (h : ∀ q m, walk next mem k n (i :: q) = some m → mem' m = mem m) :
    below next mem' indices k n i = below next mem indices k n i := by
  induction k generalizing n i with
  | zero => rfl
  | succ k ih =>
    rw [below, below, hcell]
    cases hnext : next (k + 1) i (mem n i) with
    | none => rfl
    | some m =>
      have hm : mem' m = mem m := h [] m (by rw [walk, hnext]; rfl)
      have hsub : ∀ j, below next mem' indices k m j = below next mem indices k m j := by
        intro j
        refine ih (congrFun hm j) fun q m' hq => h (j :: q) m' ?_
        rw [walk, hnext]
        exact hq
      simp only [funext hsub]

/-- Where walks from `n` are injective, no table occurs twice below one of its entries. -/
theorem nodup_below (hidx : indices.Nodup) {k : Nat} {n : N} {i : I}
    (hinj : ∀ p q m, walk next mem k n p = some m → walk next mem k n q = some m → p = q) :
    (below next mem indices k n i).Nodup := by
  induction k generalizing n i with
  | zero => exact List.nodup_nil
  | succ k ih =>
    rw [below]
    cases hnext : next (k + 1) i (mem n i) with
    | none => exact List.nodup_nil
    | some m =>
      have hstep : ∀ p x, walk next mem k m p = some x → walk next mem (k + 1) n (i :: p) = some x := by
        intro p x hx
        rw [walk, hnext]
        exact hx
      have hinj' : ∀ p q x, walk next mem k m p = some x → walk next mem k m q = some x → p = q :=
        fun p q x hp hq => (List.cons.inj (hinj _ _ x (hstep p x hp) (hstep q x hq))).2
      refine List.Nodup.append (List.nodup_flatMap.mpr ⟨fun j _ => ih hinj', ?_⟩)
        (List.nodup_singleton m) ?_
      · refine hidx.imp fun {j j'} hj x hx hx' => ?_
        obtain ⟨q, hq⟩ := walk_of_mem_below hx
        obtain ⟨q', hq'⟩ := walk_of_mem_below hx'
        exact hj (List.cons.inj (hinj' _ _ x hq hq')).1
      · intro x hx hxm
        obtain ⟨j, _, hj⟩ := List.mem_flatMap.mp hx
        obtain ⟨q, hq⟩ := walk_of_mem_below hj
        rw [List.mem_singleton.mp hxm] at hq
        exact List.cons_ne_nil _ _ (hinj' _ [] m hq rfl)

end Below

end Kyuzen.Lib.Radix
