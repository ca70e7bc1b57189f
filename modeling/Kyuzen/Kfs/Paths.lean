import Kyuzen.Kfs.Runs

/-!
# Paths and the tree

A path names an object through its list of components. When no directory holds a name twice
(`Tree.Unique`), walking a path on the disk is walking its components in the tree
(`resolveDir_iff`), an item has one list of components (`lookup_inj`), and a lookup survives
every call but the removal of the item itself (`lookup_insert`, `lookup_erase`).
-/

namespace Kyuzen.Kfs

/-! ## Components -/

/-- The non-empty parts between the slashes. -/
def components (path : CStr) : List CStr :=
  (path.splitOnP (· == slash)).filter (fun n => !n.isEmpty)

@[simp] theorem components_nil : components [] = [] := rfl

theorem components_append (p q : CStr) :
    components (p ++ slash :: q) = components p ++ components q := by
  unfold components
  rw [List.splitOnP_append_cons _ _ (by simp), List.filter_append]

theorem components_single {name : CStr} (hne : name ≠ []) (h : ∀ c ∈ name, c ≠ slash) :
    components name = [name] := by
  unfold components
  rw [List.splitOnP_eq_singleton fun c hc => by simpa using h c hc]
  cases name with
  | nil => exact absurd rfl hne
  | cons c name => rfl

theorem components_dropWhile (path : CStr) :
    components (path.dropWhile (· == slash)) = components path := by
  induction path with
  | nil => rfl
  | cons c path ih =>
    by_cases hc : c = slash
    · subst hc
      rw [List.dropWhile_cons_of_pos (by simp), ih]
      exact (components_append [] path).symm
    · rw [List.dropWhile_cons_of_neg (by simpa using hc)]

/-- The first component of a path that does not start with a slash, and the rest. -/
theorem components_cons {path name rest : CStr} (hname : path.takeWhile (· != slash) = name)
    (hne : name ≠ []) (hrest : path.dropWhile (· != slash) = rest) :
    components path = name :: components rest := by
  have hfree : ∀ x ∈ name, x ≠ slash := by
    intro x hx
    rw [← hname] at hx
    simpa using List.mem_takeWhile_imp hx
  have hsplit : path = name ++ rest := by
    rw [← hname, ← hrest, List.takeWhile_append_dropWhile]
  rw [hsplit]
  cases rest with
  | nil => rw [List.append_nil, components_single hne hfree, components_nil]
  | cons x r =>
    have hx : x = slash := by
      have := List.head?_dropWhile_not (· != slash) path
      rw [hrest] at this
      simpa using this
    subst hx
    rw [components_append, components_single hne hfree]
    exact congrArg (name :: ·) (components_append [] r).symm

/-- The components hold the bytes that are no slashes. -/
theorem components_flatten (path : CStr) :
    (components path).flatten = path.filter (· != slash) := by
  unfold components
  rw [List.flatten_filter_not_isEmpty]
  induction path with
  | nil => rfl
  | cons c path ih =>
    rw [List.splitOnP_cons_eq_if_modifyHead]
    by_cases hc : c = slash
    · rw [if_pos (by simpa using hc), List.flatten_cons, List.nil_append, ih,
        List.filter_cons_of_neg (by simpa using hc)]
    · rw [if_neg (by simpa using hc), List.filter_cons_of_pos (by simpa using hc), ← ih]
      cases hsplit : path.splitOnP (· == slash) with
      | nil => exact absurd hsplit (List.splitOnP_ne_nil _ _)
      | cons name names => rfl

/-! ## The last component -/

theorem slash_notMem_lastName (path : CStr) : ∀ c ∈ lastName path, c ≠ slash := by
  intro c hc
  rw [lastName, List.mem_reverse] at hc
  simpa using List.mem_takeWhile_imp hc

/-- A path is its last component, or a parent, a slash and the last component. -/
theorem path_cases (path : CStr) :
    lastName path = path ∨
      ∃ parent, path = parent ++ slash :: lastName path ∧ parentPath path = parent.take 127 := by
  have hsplit : path = (path.reverse.dropWhile (· != slash)).reverse ++ lastName path := by
    rw [lastName, ← List.reverse_append, List.takeWhile_append_dropWhile, List.reverse_reverse]
  cases hrest : path.reverse.dropWhile (· != slash) with
  | nil =>
    rw [hrest] at hsplit
    exact Or.inl hsplit.symm
  | cons x r =>
    right
    have hx : x = slash := by
      have := List.head?_dropWhile_not (· != slash) path.reverse
      rw [hrest] at this
      simpa using this
    rw [hrest, hx, List.reverse_cons, List.append_assoc] at hsplit
    refine ⟨r.reverse, hsplit, ?_⟩
    have hlen := congrArg List.length hsplit
    simp only [List.length_append, List.length_cons, List.length_nil] at hlen
    have htake : path.take (path.length - (lastName path).length - 1) = r.reverse := by
      have hr : path.length - (lastName path).length - 1 = r.reverse.length := by omega
      rw [hr]
      conv_lhs => rw [hsplit]
      rw [List.take_left]
    rw [parentPath, htake]

/-- A path the buffer for the parent holds has the components of its parent and one more. -/
theorem components_eq {path : CStr} (hlen : path.length ≤ 127) (hname : lastName path ≠ []) :
    components path = components (parentPath path) ++ [lastName path] := by
  have hsingle := components_single hname (slash_notMem_lastName path)
  rcases path_cases path with heq | ⟨parent, heq, hparent⟩
  · have hempty : parentPath path = [] := by
      rw [parentPath, heq, Nat.sub_self]
      rfl
    rw [hempty, components_nil, List.nil_append, ← hsingle, heq]
  · have hshort : parent.length ≤ 127 := by
      rw [heq, List.length_append] at hlen
      omega
    rw [hparent, List.take_of_length_le hshort]
    conv_lhs => rw [heq]
    rw [components_append, hsingle]

/-! ## Walks in the tree -/

namespace Tree

variable {t t' : Tree}

/-- The components `ns` lead from the directory `d` through folders to `d'`. -/
def Walk (t : Tree) : Nat → List CStr → Nat → Prop
  | d, [], d' => d = d'
  | d, n :: ns, d' => ∃ a ∈ t.items, a.dir = d ∧ storedName a.entry.filename = n ∧
      a.entry.flags = flagFolder ∧ Walk t a.entry.startSector ns d'

/-- No directory holds a name twice. -/
def Unique (t : Tree) : Prop :=
  ∀ a ∈ t.items, ∀ b ∈ t.items, a.dir = b.dir →
    storedName a.entry.filename = storedName b.entry.filename → a = b

/-- The components `cs` name the item `a`. -/
def Lookup (t : Tree) (cs : List CStr) (a : Item) : Prop :=
  a ∈ t.items ∧ ∃ ns, cs = ns ++ [storedName a.entry.filename] ∧ t.Walk t.root ns a.dir

/-- The last step of a walk. -/
theorem walk_concat {ns : List CStr} {n : CStr} {d d' : Nat} (h : t.Walk d (ns ++ [n]) d') :
    ∃ a ∈ t.items, t.Walk d ns a.dir ∧ storedName a.entry.filename = n ∧
      a.entry.flags = flagFolder ∧ a.entry.startSector = d' := by
  induction ns generalizing d with
  | nil =>
    obtain ⟨a, ha, hd, hn, hf, hstart⟩ := h
    exact ⟨a, ha, hd.symm, hn, hf, hstart⟩
  | cons m ns ih =>
    obtain ⟨b, hb, hd, hm, hf, hrest⟩ := h
    obtain ⟨a, ha, hwalk, hlast⟩ := ih hrest
    exact ⟨a, ha, ⟨b, hb, hd, hm, hf, hwalk⟩, hlast⟩

/-- A directory has one list of components. -/
theorem walk_inj (h : t.Ok) : ∀ {ns ms : List CStr} {d : Nat}, t.Walk t.root ns d →
    t.Walk t.root ms d → ns = ms := by
  intro ns
  induction ns using List.reverseRecOn with
  | nil =>
    intro ms d hroot hms
    have hd : t.root = d := hroot
    rcases List.eq_nil_or_concat' ms with rfl | ⟨ms, m, rfl⟩
    · rfl
    · obtain ⟨a, ha, _, _, _, hstart⟩ := walk_concat hms
      exact absurd (hstart.trans hd.symm) (h.start_ne a ha)
  | append_singleton ns n ih =>
    intro ms d hns hms
    obtain ⟨a, ha, hwalk, rfl, _, hstart⟩ := walk_concat hns
    rcases List.eq_nil_or_concat' ms with rfl | ⟨ms, m, rfl⟩
    · have hd : t.root = d := hms
      exact absurd (hstart.trans hd.symm) (h.start_ne a ha)
    · obtain ⟨b, hb, hwalk', rfl, _, hstart'⟩ := walk_concat hms
      have hab := h.inj a ha b hb (hstart.trans hstart'.symm)
      rw [← hab] at hwalk' ⊢
      rw [ih hwalk hwalk']

theorem walk_mono (hsub : ∀ a ∈ t.items, a.entry.flags = flagFolder → a ∈ t'.items) :
    ∀ {ns : List CStr} {d d' : Nat}, t.Walk d ns d' → t'.Walk d ns d' := by
  intro ns
  induction ns with
  | nil => exact fun h => h
  | cons n ns ih =>
    rintro d d' ⟨a, ha, hd, hn, hf, hrest⟩
    exact ⟨a, hsub a ha hf, hd, hn, hf, ih hrest⟩

theorem lookup_inj (h : t.Ok) {cs cs' : List CStr} {a : Item} (ha : t.Lookup cs a)
    (ha' : t.Lookup cs' a) : cs = cs' := by
  obtain ⟨_, ns, rfl, hwalk⟩ := ha
  obtain ⟨_, ms, rfl, hwalk'⟩ := ha'
  rw [walk_inj h hwalk hwalk']

theorem Lookup.mono {cs : List CStr} {a : Item} (h : t.Lookup cs a) (hroot : t'.root = t.root)
    (hsub : ∀ b ∈ t.items, b.entry.flags = flagFolder → b ∈ t'.items) (ha : a ∈ t'.items) :
    t'.Lookup cs a := by
  obtain ⟨_, ns, hcs, hwalk⟩ := h
  refine ⟨ha, ns, hcs, ?_⟩
  rw [hroot]
  exact walk_mono hsub hwalk

theorem Unique.mono (h : t.Unique) (hsub : t'.items ⊆ t.items) : t'.Unique :=
  fun a ha b hb => h a (hsub ha) b (hsub hb)

theorem Unique.insert {a : Item} (h : t.Unique) (hitems : t'.items = Insert.insert a t.items)
    (habsent : ∀ b ∈ t.items, b.dir = a.dir →
      storedName b.entry.filename ≠ storedName a.entry.filename) : t'.Unique := by
  intro b hb c hc hdir hname
  rw [hitems] at hb hc
  rcases Finset.mem_insert.mp hb with hba | hbt <;>
    rcases Finset.mem_insert.mp hc with hca | hct
  · rw [hba, hca]
  · rw [hba] at hdir hname
    exact absurd hname.symm (habsent c hct hdir.symm)
  · rw [hca] at hdir hname
    exact absurd hname (habsent b hbt hdir)
  · exact h b hbt c hct hdir hname

end Tree

/-! ## Walks on the disk -/

theorem storedName_length {f : Fin 23 → UInt8} (hterm : f 22 = 0) :
    (storedName f).length ≤ 22 := by
  have hpre : storedName f <+: List.ofFn f := List.takeWhile_prefix _
  have hle : (storedName f).length ≤ 23 := by
    simpa using hpre.length_le
  by_contra hlong
  have hall : storedName f = List.ofFn f := hpre.eq_of_length (by rw [List.length_ofFn]; omega)
  have hmem : f 22 ∈ storedName f := by
    rw [hall]
    exact List.mem_ofFn.mpr ⟨22, rfl⟩
  have := List.mem_takeWhile_imp hmem
  rw [hterm] at this
  exact absurd this (by decide)

section Disk

variable {s : State} {t : Tree}

/-- `find_entry_in` finds the item of the name. -/
theorem findEntryIn_unique (h : Rep s t) (hu : t.Unique) {a : Item} (ha : a ∈ t.items)
    (hnul : 0 ∉ storedName a.entry.filename) :
    findEntryIn s a.dir (storedName a.entry.filename) =
      some (some (a.entry, a.slot.1, a.slot.2)) := by
  rcases findEntryIn_cases h ((h.mem_iff a).mp ha).1 hnul with
    ⟨b, hb, hdir, hname, hfind⟩ | ⟨_, habsent⟩
  · rwa [hu b hb a ha hdir hname] at hfind
  · exact absurd rfl (habsent a ha rfl)

theorem resolveFrom_iff (h : Rep s t) (hu : t.Unique) :
    ∀ {fuel : Nat} {path : CStr} {d d' : Nat}, 0 ∉ path → t.IsDir d → path.length < fuel →
      (resolveFrom s fuel path d = some (some d') ↔ t.Walk d (components path) d') := by
  intro fuel
  induction fuel with
  | zero =>
    intro path d d' _ _ hf
    omega
  | succ fuel ih =>
    intro path d d' hpath hd hf
    rw [resolveFrom, ← components_dropWhile path]
    cases hrest : path.dropWhile (· == slash) with
    | nil =>
      rw [components_nil, Tree.Walk]
      simp
    | cons c rest =>
      have hsub : (c :: rest).Sublist path := by
        rw [← hrest]
        exact List.dropWhile_sublist _
      have hc : (c != slash) = true := by
        have := List.head?_dropWhile_not (· == slash) path
        rw [hrest] at this
        simpa using this
      have hne : (c :: rest).takeWhile (· != slash) ≠ [] := by
        rw [List.takeWhile_cons_of_pos (p := (· != slash)) hc]
        exact List.cons_ne_nil _ _
      have hnul : 0 ∉ (c :: rest).takeWhile (· != slash) := fun hmem =>
        hpath (hsub.subset ((List.takeWhile_sublist _).subset hmem))
      have hnul' : 0 ∉ (c :: rest).dropWhile (· != slash) := fun hmem =>
        hpath (hsub.subset ((List.dropWhile_sublist _).subset hmem))
      have hshort : ((c :: rest).dropWhile (· != slash)).length < fuel := by
        have h1 := length_dropWhile_lt (p := (· != slash)) (l := rest) hc
        have h2 := hsub.length_le
        omega
      rw [components_cons rfl hne rfl, Tree.Walk]
      dsimp only
      split_ifs with hlen
      · -- a component that no entry can store
        refine ⟨fun hrun => by simp at hrun, ?_⟩
        rintro ⟨a, ha, _, hname, _, _⟩
        have := storedName_length (h.ok.terminated a ha)
        rw [hname] at this
        omega
      rcases findEntryIn_cases h hd hnul with ⟨a, ha, hdir, hname, hrun⟩ | ⟨hrun, habsent⟩
      · simp only [hrun, Option.bind_eq_bind, Option.bind_some]
        have honly : ∀ b ∈ t.items, b.dir = d → storedName b.entry.filename =
            (c :: rest).takeWhile (· != slash) → b = a := fun b hb hbd hbn =>
          hu b hb a ha (hbd.trans hdir.symm) (hbn.trans hname.symm)
        split_ifs with hflag
        · refine ⟨fun hrun => by simp at hrun, ?_⟩
          rintro ⟨b, hb, hbd, hbn, hbf, _⟩
          rw [honly b hb hbd hbn] at hbf
          exact absurd hbf hflag
        · rw [not_not] at hflag
          rw [ih hnul' (Or.inr ⟨a, ha, hflag, rfl⟩) hshort]
          constructor
          · exact fun hwalk => ⟨a, ha, hdir, hname, hflag, hwalk⟩
          · rintro ⟨b, hb, hbd, hbn, _, hwalk⟩
            rwa [honly b hb hbd hbn] at hwalk
      · simp only [hrun, Option.bind_eq_bind, Option.bind_some]
        refine ⟨fun hrun => by simp at hrun, ?_⟩
        rintro ⟨a, ha, hdir, hname, _, _⟩
        exact absurd hname (habsent a ha hdir)

theorem resolveDir_iff (h : Rep s t) (hu : t.Unique) {path : CStr} (hpath : 0 ∉ path) {d : Nat} :
    resolveDir s path = some (some d) ↔ t.Walk t.root (components path) d := by
  rw [resolveDir, ← h.root]
  exact resolveFrom_iff h hu hpath (Or.inl rfl) (Nat.lt_succ_self _)

/-- The parent directory and the last component, in the tree. -/
theorem splitLast_iff (h : Rep s t) (hu : t.Unique) {path : CStr} (hpath : 0 ∉ path) {d : Nat}
    {name : CStr} : splitLast s path = some (some (d, name)) ↔
      name = lastName path ∧ name ≠ [] ∧ t.Walk t.root (components (parentPath path)) d := by
  rw [← resolveDir_iff h hu (nul_notMem_parentPath hpath), splitLast]
  split_ifs with hname
  · constructor
    · intro hrun
      simp at hrun
    · rintro ⟨heq, hne, _⟩
      exact absurd (heq.trans hname) hne
  · rcases resolveDir_cases h (nul_notMem_parentPath hpath) with hrun | ⟨d', _, hrun⟩
    · simp [hrun]
    · simp only [hrun, Option.bind_eq_bind, Option.bind_some, Option.pure_def, Option.some.injEq,
        Prod.mk.injEq]
      constructor
      · rintro ⟨rfl, rfl⟩
        exact ⟨rfl, hname, rfl⟩
      · rintro ⟨rfl, _, hd⟩
        exact ⟨hd, rfl⟩

/-- An item found under the last component is named by the components. -/
theorem lookup_of_splitLast (h : Rep s t) (hu : t.Unique) {path : CStr} (hpath : 0 ∉ path)
    (hlen : path.length ≤ 127) {a : Item} (ha : a ∈ t.items)
    (hsplit : splitLast s path = some (some (a.dir, lastName path)))
    (hname : storedName a.entry.filename = lastName path) : t.Lookup (components path) a := by
  obtain ⟨_, hne, hwalk⟩ := (splitLast_iff h hu hpath).mp hsplit
  refine ⟨ha, components (parentPath path), ?_, hwalk⟩
  rw [hname]
  exact components_eq hlen hne

/-- The two lookups every query makes find the item that the components name. -/
theorem find_of_lookup (h : Rep s t) (hu : t.Unique) {path : CStr} (hpath : 0 ∉ path)
    (hlen : path.length ≤ 127) (hne : lastName path ≠ []) {a : Item}
    (ha : t.Lookup (components path) a) :
    splitLast s path = some (some (a.dir, lastName path)) ∧
      findEntryIn s a.dir (lastName path) = some (some (a.entry, a.slot.1, a.slot.2)) := by
  obtain ⟨hmem, ns, hcs, hwalk⟩ := ha
  rw [components_eq hlen hne] at hcs
  obtain ⟨hparent, hlast⟩ := List.append_inj' hcs rfl
  have hname : storedName a.entry.filename = lastName path := (List.singleton_inj.mp hlast).symm
  rw [← hparent] at hwalk
  refine ⟨(splitLast_iff h hu hpath).mpr ⟨rfl, hne, hwalk⟩, ?_⟩
  have hfind := findEntryIn_unique h hu hmem
  rw [hname] at hfind
  exact hfind (nul_notMem_lastName hpath)

end Disk

end Kyuzen.Kfs
