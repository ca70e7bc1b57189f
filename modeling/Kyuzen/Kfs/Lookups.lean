import Kyuzen.Kfs.Listing

/-!
# Lookups

What a path leads to depends on its components alone. `walkTo` follows a list of components, each
time to the first slot in use of that name; `resolve_dir_nolock` computes it from the path
(`resolveDir_eq`), and `split_last_nolock` takes the last component off first. Paths with the same
components, and no slash at the end, cannot be told apart by any call (`path_resolution`).

The loop of `kfs_get_file_list` and the lookups of the other calls see the same entries
(`listing_agrees`). A path of more than 127 bytes is an exception: `split_last_nolock` cuts off
the part before the last component, so that the two may look into different directories
(`listing_cut`).
-/

namespace Kyuzen.Kfs

open Lib.Memory Lib.Chain

def Entry.hasName (name : CStr) (e : Entry) : Bool := storedName e.filename = name

theorem Entry.hasName_iff {name : CStr} {e : Entry} :
    e.hasName name = true ↔ storedName e.filename = name := decide_eq_true_iff

/-- The first slot in use called `name` of a directory with the chain `l`. -/
def slotNamed (s : State) (l : List Nat) (name : CStr) : Option (Nat × Nat) :=
  (dirSlots s l).find? fun p => (s.entry p).hasName name

/-- Where the components lead from the directory `d`. -/
def walkTo (s : State) (t : Tree) : List CStr → Nat → Option Nat
  | [], d => some d
  | c :: cs, d =>
    match slotNamed s (t.chain d) c with
    | none => none
    | some p =>
      if (s.entry p).flags = flagFolder then walkTo s t cs (s.entry p).startSector else none

variable {s : State} {t : Tree} {path q : CStr} {d : Nat}

/-! ## `find_entry_in` -/

theorem slotNamed_cons (s : State) (x : Nat) (l : List Nat) (name : CStr) :
    slotNamed s (x :: l) name = (slotNamed s [x] name).or (slotNamed s l name) := by
  unfold slotNamed
  rw [dirSlots_cons s x l, List.find?_append]

theorem hitIn_eq (h : Rep s t) (hd : t.IsDir d) {x : Nat} (hx : x ∈ t.chain d) {name : CStr}
    (hname : 0 ∉ name) : hitIn s name x =
      (slotNamed s [x] name).map fun p => (s.entry p, p.1, p.2) := by
  rw [slotNamed, dirSlots, List.flatMap_cons, List.flatMap_nil, List.append_nil, List.find?_map,
    List.find?_filter, Option.map_map, hitIn, findInSector]
  congr 1
  apply List.find?_congr
  intro i hi
  rw [List.mem_range] at hi
  by_cases hflags : (entryAt (s.disk x) i).flags = flagEmpty
  · simp [Entry.inUse, hflags]
  · have hmem : (⟨d, (x, i), entryAt (s.disk x) i⟩ : Item) ∈ t.items :=
      (h.mem_iff _).mpr ⟨hd, hx, hi, rfl, hflags⟩
    have hcmp := strcmpEq_iff (b := s.disk x) hname (h.ok.terminated _ hmem)
    rw [Bool.eq_iff_iff]
    simp [Entry.inUse, hflags, hcmp, State.entry, Entry.hasName_iff]

/-- `find_entry_in` finds the first slot in use of the name. -/
theorem findEntryIn_eq (h : Rep s t) (hd : t.IsDir d) {name : CStr} (hname : 0 ∉ name) :
    findEntryIn s d name =
      some ((slotNamed s (t.chain d) name).map fun p => (s.entry p, p.1, p.2)) := by
  have hchain := h.chains d (Tree.isHead_of_isDir hd)
  obtain ⟨hne, hfuel⟩ := hchain.walkable h.geometry
  have htwo := hchain.two_le h.geometry
  rw [findEntryIn, if_neg (by omega), findEntryFrom_eq hchain.path hne hfuel]
  have hall : ∀ l, l ⊆ t.chain d → l.findSome? (hitIn s name) =
      (slotNamed s l name).map fun p => (s.entry p, p.1, p.2) := by
    intro l
    induction l with
    | nil => exact fun _ => rfl
    | cons x l ih =>
      intro hsub
      rw [List.findSome?_cons, hitIn_eq h hd (hsub List.mem_cons_self) hname,
        ih fun y hy => hsub (List.mem_cons_of_mem x hy), slotNamed_cons s x l]
      cases slotNamed s [x] name with
      | none => rfl
      | some p => rfl
  rw [hall _ fun x hx => hx]

theorem slotNamed_item (h : Rep s t) (hd : t.IsDir d) {name : CStr} {p : Nat × Nat}
    (hslot : slotNamed s (t.chain d) name = some p) :
    (⟨d, p, s.entry p⟩ : Item) ∈ t.items ∧ storedName (s.entry p).filename = name := by
  obtain ⟨hsec, hidx, hflags⟩ := mem_dirSlots.mp (List.mem_of_find?_eq_some hslot)
  have hname := List.find?_some hslot
  exact ⟨(h.mem_iff _).mpr ⟨hd, hsec, hidx, rfl, hflags⟩, Entry.hasName_iff.mp hname⟩

/-- No entry has a name of more than 22 bytes. -/
theorem slotNamed_long (h : Rep s t) (hd : t.IsDir d) {name : CStr} (hlong : 22 < name.length) :
    slotNamed s (t.chain d) name = none := by
  cases hslot : slotNamed s (t.chain d) name with
  | none => rfl
  | some p =>
    obtain ⟨hmem, hname⟩ := slotNamed_item h hd hslot
    have hshort := storedName_length (h.ok.terminated _ hmem)
    rw [hname] at hshort
    omega

/-! ## `resolve_dir_nolock` -/

theorem resolveFrom_eq (h : Rep s t) : ∀ {fuel : Nat} {path : CStr} {d : Nat}, 0 ∉ path →
    t.IsDir d → path.length < fuel →
    resolveFrom s fuel path d = some (walkTo s t (components path) d) := by
  intro fuel
  induction fuel with
  | zero =>
    intro path d _ _ hf
    omega
  | succ fuel ih =>
    intro path d hpath hd hf
    rw [resolveFrom, ← components_dropWhile path]
    cases hrest : path.dropWhile (· == slash) with
    | nil => rfl
    | cons c rest =>
      have hsub : (c :: rest).Sublist path := by
        rw [← hrest]
        exact List.dropWhile_sublist _
      have hc : (c != slash) = true := by
        have := List.head?_dropWhile_not (· == slash) path
        rw [hrest] at this
        simpa using this
      have hne : (c :: rest).takeWhile (· != slash) ≠ [] := by
        rw [List.takeWhile_cons_of_pos (p := (· != slash)) hc]
        exact List.cons_ne_nil _ _
      have hnul : 0 ∉ (c :: rest).takeWhile (· != slash) := fun hmem =>
        hpath (hsub.subset ((List.takeWhile_sublist _).subset hmem))
      have hnul' : 0 ∉ (c :: rest).dropWhile (· != slash) := fun hmem =>
        hpath (hsub.subset ((List.dropWhile_sublist _).subset hmem))
      have hshort : ((c :: rest).dropWhile (· != slash)).length < fuel := by
        have h1 := length_dropWhile_lt (p := (· != slash)) (l := rest) hc
        have h2 := hsub.length_le
        omega
      rw [components_cons rfl hne rfl, walkTo]
      dsimp only
      split_ifs with hlen
      · rw [slotNamed_long h hd (by omega)]
      · rw [findEntryIn_eq h hd hnul]
        cases hslot : slotNamed s (t.chain d) ((c :: rest).takeWhile (· != slash)) with
        | none => rfl
        | some p =>
          obtain ⟨hmem, -⟩ := slotNamed_item h hd hslot
          by_cases hf : (s.entry p).flags = flagFolder
          · show (if (s.entry p).flags ≠ flagFolder then some none
              else resolveFrom s fuel _ (s.entry p).startSector) =
                some (if (s.entry p).flags = flagFolder then _ else none)
            rw [if_neg (not_not.mpr hf), if_pos hf]
            exact ih hnul' (Or.inr ⟨_, hmem, hf, rfl⟩) hshort
          · show (if (s.entry p).flags ≠ flagFolder then some none
              else resolveFrom s fuel _ (s.entry p).startSector) =
                some (if (s.entry p).flags = flagFolder then _ else none)
            rw [if_pos hf, if_neg hf]

/-- A path leads where its components lead. -/
theorem resolveDir_eq (h : Rep s t) (hpath : 0 ∉ path) :
    resolveDir s path = some (walkTo s t (components path) t.root) := by
  rw [resolveDir, ← h.root]
  exact resolveFrom_eq h hpath (Or.inl rfl) (Nat.lt_succ_self _)

/-! ## `split_last_nolock` -/

/-- The part of a path before its last slash. -/
def dirPart (path : CStr) : CStr := path.take (path.length - (lastName path).length - 1)

def EndsInSlash (path : CStr) : Prop := path.getLast? = some slash

theorem lastName_eq_nil : lastName path = [] ↔ path = [] ∨ EndsInSlash path := by
  unfold lastName EndsInSlash
  rw [List.reverse_eq_nil_iff, List.getLast?_eq_head?_reverse, ← @List.reverse_eq_nil_iff _ path]
  cases path.reverse with
  | nil => simp
  | cons c rest => simp [List.takeWhile_cons]

theorem parentPath_eq (hlen : path.length ≤ 127) : parentPath path = dirPart path :=
  List.take_of_length_le ((List.length_take_le' _ _).trans hlen)

theorem splitLast_eq (h : Rep s t) (hpath : 0 ∉ path) (hlen : path.length ≤ 127) :
    splitLast s path = some (if lastName path = [] then none
      else (walkTo s t (components (dirPart path)) t.root).map fun d => (d, lastName path)) := by
  rw [splitLast]
  by_cases hname : lastName path = []
  · rw [if_pos hname, if_pos hname]
  · rw [if_neg hname, if_neg hname, resolveDir_eq h (nul_notMem_parentPath hpath),
      parentPath_eq hlen]
    cases walkTo s t (components (dirPart path)) t.root with
    | none => rfl
    | some d => rfl

/-- The parent and the last component are those of the list of components. -/
theorem splitLast_congr (h : Rep s t) (hp : 0 ∉ path) (hq : 0 ∉ q) (hplen : path.length ≤ 127)
    (hqlen : q.length ≤ 127) (hpend : ¬EndsInSlash path) (hqend : ¬EndsInSlash q)
    (heq : components path = components q) :
    lastName path = lastName q ∧ splitLast s path = splitLast s q := by
  have hlast : lastName path = lastName q ∧
      components (dirPart path) = components (dirPart q) := by
    by_cases hpname : lastName path = []
    · have hpnil := (lastName_eq_nil.mp hpname).resolve_right hpend
      by_cases hqname : lastName q = []
      · have hqnil := (lastName_eq_nil.mp hqname).resolve_right hqend
        rw [hpnil, hqnil]
        exact ⟨rfl, rfl⟩
      · rw [hpnil, components_eq hqlen hqname, components_nil] at heq
        exact absurd heq.symm (List.append_ne_nil_of_right_ne_nil _ (List.cons_ne_nil _ _))
    · have hqname : lastName q ≠ [] := by
        intro hqname
        have hqnil := (lastName_eq_nil.mp hqname).resolve_right hqend
        rw [hqnil, components_eq hplen hpname, components_nil] at heq
        exact absurd heq (List.append_ne_nil_of_right_ne_nil _ (List.cons_ne_nil _ _))
      rw [components_eq hplen hpname, components_eq hqlen hqname, parentPath_eq hplen,
        parentPath_eq hqlen] at heq
      obtain ⟨hdirs, hnames⟩ := List.append_inj' heq rfl
      exact ⟨List.singleton_inj.mp hnames, hdirs⟩
  refine ⟨hlast.1, ?_⟩
  rw [splitLast_eq h hp hplen, splitLast_eq h hq hqlen, hlast.1, hlast.2]

/-! ## Paths with the same components -/

/-- No call tells the two paths apart. -/
structure SameCalls (s : State) (p q : CStr) : Prop where
  exist : kfsExists s p = kfsExists s q
  size : kfsGetFileSize s p = kfsGetFileSize s q
  read : ∀ buffer capacity,
    kfsReadToBuffer s p buffer capacity = kfsReadToBuffer s q buffer capacity
  create : ∀ drive staleFat stale data size, kfsCreateFile drive staleFat stale s p data size =
    kfsCreateFile drive staleFat stale s q data size
  delete : kfsDeleteFile s p = kfsDeleteFile s q
  mkdir : ∀ stale, kfsCreateFolder stale s p = kfsCreateFolder stale s q

theorem sameCalls_of_splitLast (hroot : ¬s.currentFs.rootDirSector < 2)
    (h : splitLast s path = splitLast s q) : SameCalls s path q := by
  refine ⟨?_, ?_, ?_, ?_, ?_, ?_⟩
  · rw [kfsExists, kfsExists, h]
  · rw [kfsGetFileSize, kfsGetFileSize, h]
  · intro buffer capacity
    rw [kfsReadToBuffer, kfsReadToBuffer, h]
  · intro drive staleFat stale data size
    rw [kfsCreateFile, kfsCreateFile, if_neg hroot, h]
  · rw [kfsDeleteFile, kfsDeleteFile, h]
  · intro stale
    rw [kfsCreateFolder, kfsCreateFolder, h]

/-- How a path of at most 63 bytes is resolved. -/
structure Resolves (s : State) (t : Tree) (path : CStr) : Prop where
  dir : resolveDir s path = some (walkTo s t (components path) t.root)
  /-- A component of more than 22 bytes is the name of nothing. -/
  long : ∀ d, t.IsDir d → ∀ c : CStr, 22 < c.length → slotNamed s (t.chain d) c = none
  /-- The parent and the last component, if there is one. -/
  split : ∀ d name, splitLast s path = some (some (d, name)) ↔ path ≠ [] ∧ ¬EndsInSlash path ∧
    name = lastName path ∧ walkTo s t (components (dirPart path)) t.root = some d
  refuses : (∀ r, splitLast s path ≠ some (some r)) → splitLast s path = some none
  same : ∀ q, 0 ∉ q → q.length ≤ 63 → components path = components q → ¬EndsInSlash path →
    ¬EndsInSlash q → SameCalls s path q

/-- Path resolution depends on components only, and gives the directory they lead to. -/
theorem path_resolution (h : Rep s t) (hpath : 0 ∉ path) (hlen : path.length ≤ 63) :
    Resolves s t path := by
  have hsplit := splitLast_eq h hpath (show path.length ≤ 127 by omega)
  refine ⟨resolveDir_eq h hpath, fun d hd c hc => slotNamed_long h hd hc, ?_, ?_, ?_⟩
  · intro d name
    have hname := not_congr (@lastName_eq_nil path)
    rw [not_or] at hname
    rw [hsplit]
    by_cases hlast : lastName path = []
    · rw [if_pos hlast]
      refine ⟨fun hc => (by cases hc), ?_⟩
      rintro ⟨hne, hend, -⟩
      exact absurd hlast (hname.mpr ⟨hne, hend⟩)
    · obtain ⟨hne, hend⟩ := hname.mp hlast
      rw [if_neg hlast, Option.some_inj, Option.map_eq_some_iff]
      constructor
      · rintro ⟨d', hd', heq⟩
        cases heq
        exact ⟨hne, hend, rfl, hd'⟩
      · rintro ⟨-, -, rfl, hd⟩
        exact ⟨d, hd, rfl⟩
  · intro hnone
    revert hnone
    rw [hsplit]
    generalize (if lastName path = [] then none else _ : Option (Nat × CStr)) = r
    intro hnone
    cases r with
    | none => rfl
    | some r => exact absurd rfl (hnone r)
  · intro q hq hqlen heq hpend hqend
    have htwo := h.geometry.two_le
    apply sameCalls_of_splitLast (by omega)
    exact (splitLast_congr h hpath hq (by omega) (by omega) hpend hqend heq).2

theorem path_resolution_fresh : Resolves (kfsFormat smallDrive (fun _ => 0) blankState)
    (freshTree smallDrive) [slash, 97, slash, slash, 98] :=
  path_resolution (format_rep smallDrive_hasRoom _ _) (by decide) (by decide)

/-- The empty path does not end in a slash and its parent is the root, but it is refused. -/
theorem empty_path_refused : ∃ s t, Rep s t ∧ ¬((∃ r, splitLast s [] = some (some r)) ↔
    ¬EndsInSlash [] ∧ ∃ d, walkTo s t (components (dirPart [])) t.root = some d) := by
  refine ⟨_, _, format_rep smallDrive_hasRoom (fun _ => 0) blankState, ?_⟩
  intro hiff
  obtain ⟨r, hr⟩ := hiff.mpr ⟨by unfold EndsInSlash; decide, _, rfl⟩
  cases hr

/-! ## Listings -/

theorem walkTo_concat (c : CStr) : ∀ {cs : List CStr} {d : Nat},
    walkTo s t (cs ++ [c]) d = (walkTo s t cs d).bind fun d' => walkTo s t [c] d' := by
  intro cs
  induction cs with
  | nil => exact fun {d} => rfl
  | cons n cs ih =>
    intro d
    rw [List.cons_append, walkTo, walkTo]
    cases slotNamed s (t.chain d) n with
    | none => rfl
    | some p =>
      dsimp only
      split_ifs with hf
      · exact ih
      · rfl

theorem lastName_append {dir name : CStr} (hslash : slash ∉ name) :
    lastName (dir ++ slash :: name) = name := by
  unfold lastName
  rw [List.reverse_append, List.reverse_cons, List.append_assoc, List.takeWhile_append_of_pos]
  · simp
  · intro c hc
    rw [List.mem_reverse] at hc
    simpa using ne_of_mem_of_not_mem hc hslash

theorem parentPath_append {dir name : CStr} (hslash : slash ∉ name) :
    parentPath (dir ++ slash :: name) = dir.take 127 := by
  have hlen : (dir ++ slash :: name).length - name.length - 1 = dir.length := by
    rw [List.length_append, List.length_cons]
    omega
  rw [parentPath, lastName_append hslash, hlen, List.take_left]

/-- On a terminated name field the listing copies the stored name. -/
theorem entryName_eq {e : Entry} (h : e.filename 22 = 0) : entryName e = storedName e.filename := by
  have hsplit : List.ofFn e.filename = (List.ofFn e.filename).take 22 ++ [e.filename 22] := by
    rw [List.ofFn_succ_last, List.take_left' (List.length_ofFn (f := fun i => e.filename _))]
    rfl
  unfold entryName storedName
  conv_rhs => rw [hsplit, h]
  rw [List.takeWhile_append]
  split_ifs with hall
  · rw [List.takeWhile_cons_of_neg (by simp), List.append_nil]
    exact (List.takeWhile_prefix _).eq_of_length hall
  · rfl

/-- Without a name twice, the slots are found under their names. -/
theorem slotNamed_of_mem (h : Rep s t) (hu : t.Unique) (hd : t.IsDir d) {p : Nat × Nat}
    (hp : p ∈ dirSlots s (t.chain d)) :
    slotNamed s (t.chain d) (storedName (s.entry p).filename) = some p := by
  have hitem : (⟨d, p, s.entry p⟩ : Item) ∈ t.items := by
    obtain ⟨hsec, hidx, hflags⟩ := mem_dirSlots.mp hp
    exact (h.mem_iff _).mpr ⟨hd, hsec, hidx, rfl, hflags⟩
  cases hslot : slotNamed s (t.chain d) (storedName (s.entry p).filename) with
  | none =>
    have hmiss := List.find?_eq_none.mp hslot p hp
    exact absurd (Entry.hasName_iff.mpr rfl) hmiss
  | some q =>
    obtain ⟨hq, hname⟩ := slotNamed_item h hd hslot
    exact congrArg some (congrArg Item.slot (hu _ hq _ hitem rfl hname))

/-- No entry has an empty name. -/
def Named (s : State) : Prop := ∀ p ∈ entries s, storedName (s.entry p).filename ≠ []

theorem Added.named {s' : State} {t' : Tree} {name : CStr} {a : Item}
    (hadd : Added s t name s' t' a) (h : Rep s t) (hs : Named s) (hname : name ≠ []) :
    Named s' := by
  intro p hp
  obtain ⟨b, hb, -, hentry⟩ := hadd.rep.mem_entries.mp hp
  rw [← hentry]
  rw [hadd.items] at hb
  rcases Finset.mem_insert.mp hb with hba | hb
  · rw [hba, hadd.stored]
    simp [hname]
  · have hold := h.mem_entries.mpr ⟨b, hb, rfl, ((h.mem_iff b).mp hb).2.2.2.1.symm⟩
    rw [← ((h.mem_iff b).mp hb).2.2.2.1]
    exact hs _ hold

/-- Fewer items keep their names. -/
theorem Named.mono {s' : State} {t' : Tree} (hs : Named s) (h : Rep s t) (h' : Rep s' t')
    (hsub : t'.items ⊆ t.items) : Named s' := by
  intro p hp
  obtain ⟨b, hb, -, hentry⟩ := h'.mem_entries.mp hp
  have hb' := (h.mem_iff b).mp (hsub hb)
  have hold := h.mem_entries.mpr ⟨b, hsub hb, rfl, hb'.2.2.2.1.symm⟩
  rw [← hentry, ← hb'.2.2.2.1]
  exact hs _ hold

theorem exec_named {drive : Drive} {noise : Noise} {op : Op} (h : Rep s t) (hs : Named s)
    (hv : op.Valid) {out : Outcome} (hrun : exec drive noise s op = some out) :
    Named out.state := by
  cases op with
  | createFile path data size =>
    obtain ⟨out', hrun', ⟨_, href, _⟩ | ⟨_, t', a, hadd, hsplit, _⟩⟩ :=
      kfsCreateFile_cases h drive noise.fat noise.stack hv.1 data hv.2
    all_goals
      obtain rfl := Option.some.inj (hrun'.symm.trans hrun)
    · exact hs.mono h href.rep (Finset.Subset.refl _)
    · exact hadd.named h hs (lastName_ne_nil_of_splitLast hsplit)
  | createFolder path =>
    obtain ⟨out', hrun', ⟨_, href, _⟩ | ⟨_, t', a, hadd, hsplit, _⟩⟩ :=
      kfsCreateFolder_cases h noise.stack hv
    all_goals
      obtain rfl := Option.some.inj (hrun'.symm.trans hrun)
    · exact hs.mono h href.rep (Finset.Subset.refl _)
    · exact hadd.named h hs (lastName_ne_nil_of_splitLast hsplit)
  | deleteFile path =>
    obtain ⟨out', hrun', hsame | ⟨a, hrem, _⟩⟩ := kfsDeleteFile_cases h hv
    all_goals
      obtain rfl := Option.some.inj (hrun'.symm.trans hrun)
    · rw [hsame]
      exact hs
    · exact hs.mono h hrem.rep (Finset.erase_subset a t.items)

theorem reach_named {drive : Drive} (hroom : drive.HasRoom) {P : State → Op → Prop}
    (h : Reach drive P s) : Named s := by
  induction h with
  | format stale s =>
    intro p hp
    obtain ⟨a, ha, -⟩ := (format_rep hroom stale s).mem_entries.mp hp
    exact absurd ha (Finset.notMem_empty a)
  | step noise hreach hv _ hrun ih =>
    obtain ⟨t, ht⟩ := reach_rep hroom hreach
    exact exec_named ht ih hv hrun

/-- The entries listed and the lookup of `path` agree about the name at its end. -/
structure Agrees (s : State) (infos : List Info) (path name : CStr) : Prop where
  exist : (∃ info ∈ infos, info.filename = name) ↔ kfsExists s path = some 1
  size : ∀ info ∈ infos, info.filename = name → kfsGetFileSize s path = some info.size
  folder : ∀ info ∈ infos, info.filename = name →
    (info.isFolder = true ↔ ∃ d, resolveDir s path = some (some d))

/-- A listing of the directory `dir` with the chain `l`. -/
structure Listing (s : State) (dir : CStr) (l : List Nat) (buffer : Mem) (maxEntries : Int)
    (count : Nat) (list : Mem) : Prop where
  run : kfsGetFileList s dir buffer maxEntries = some (count, list)
  count_eq : (count : Int) = min maxEntries (dirSlots s l).length
  infos : (List.range count).map (infoAt list) =
    ((dirSlots s l).take count).map fun p => infoOf (s.entry p)
  outside : ∀ x, 32 * count ≤ x → list x = buffer x
  /-- The array was large enough, and the parent of a path in `dir` is not cut off at a place
  that makes it another directory. -/
  agrees : ((dirSlots s l).length : Int) ≤ maxEntries →
    resolveDir s (dir.take 127) = resolveDir s dir → ∀ name, 0 ∉ name → slash ∉ name →
    Agrees s ((List.range count).map (infoAt list)) (dir ++ slash :: name) name

/-- The lookups of `dir`, a slash and a name, when the two take `dir` for the directory `d`. -/
theorem lookup_append (h : Rep s t) {dir name : CStr} (hdir : 0 ∉ dir) (hname : 0 ∉ name)
    (hslash : slash ∉ name) (hne : name ≠ []) (hd : t.IsDir d)
    (hres : resolveDir s dir = some (some d))
    (hcut : resolveDir s (dir.take 127) = resolveDir s dir) :
    splitLast s (dir ++ slash :: name) = some (some (d, name)) ∧
      findEntryIn s d name =
        some ((slotNamed s (t.chain d) name).map fun p => (s.entry p, p.1, p.2)) ∧
      resolveDir s (dir ++ slash :: name) = some (walkTo s t [name] d) := by
  refine ⟨?_, findEntryIn_eq h hd hname, ?_⟩
  · rw [splitLast, lastName_append hslash, if_neg hne, parentPath_append hslash, hcut, hres]
    rfl
  · have hpath : 0 ∉ dir ++ slash :: name := by
      rw [List.mem_append, List.mem_cons, not_or, not_or]
      exact ⟨hdir, by decide, hname⟩
    rw [resolveDir_eq h hdir] at hres
    rw [resolveDir_eq h hpath, components_append,
      components_single hne fun c hc => ne_of_mem_of_not_mem hc hslash, walkTo_concat,
      Option.some_inj.mp hres, Option.bind_some]

/-- When all the entries are listed, the list and the lookups agree. -/
theorem agrees_of_listed (h : Rep s t) (hu : t.Unique) (hs : Named s) {dir name : CStr}
    (hdir : 0 ∉ dir) (hname : 0 ∉ name) (hslash : slash ∉ name) (hd : t.IsDir d)
    (hres : resolveDir s dir = some (some d))
    (hcut : resolveDir s (dir.take 127) = resolveDir s dir) :
    Agrees s ((dirSlots s (t.chain d)).map fun p => infoOf (s.entry p))
      (dir ++ slash :: name) name := by
  have hstored : ∀ p ∈ dirSlots s (t.chain d), (infoOf (s.entry p)).filename =
      storedName (s.entry p).filename ∧ storedName (s.entry p).filename ≠ [] := by
    intro p hp
    obtain ⟨hsec, hidx, hflags⟩ := mem_dirSlots.mp hp
    have hitem : (⟨d, p, s.entry p⟩ : Item) ∈ t.items :=
      (h.mem_iff _).mpr ⟨hd, hsec, hidx, rfl, hflags⟩
    exact ⟨entryName_eq (h.ok.terminated _ hitem),
      hs p (h.mem_entries.mpr ⟨_, hitem, rfl, rfl⟩)⟩
  by_cases hne : name = []
  · -- no entry has the empty name, and a path with a slash at its end names nothing
    have hnone : ∀ info ∈ (dirSlots s (t.chain d)).map fun p => infoOf (s.entry p),
        info.filename ≠ name := by
      intro info hinfo
      obtain ⟨p, hp, rfl⟩ := List.mem_map.mp hinfo
      rw [(hstored p hp).1, hne]
      exact (hstored p hp).2
    refine ⟨⟨?_, ?_⟩, fun info hinfo heq => absurd heq (hnone info hinfo),
      fun info hinfo heq => absurd heq (hnone info hinfo)⟩
    · intro hex
      obtain ⟨info, hinfo, heq⟩ := hex
      exact absurd heq (hnone info hinfo)
    · intro hexists
      rw [kfsExists, splitLast, lastName_append hslash, if_pos hne] at hexists
      cases hexists
  obtain ⟨hsplit, hfind, hwalk⟩ := lookup_append h hdir hname hslash hne hd hres hcut
  -- a name on the list is that of the slot the lookup finds
  have hslot : ∀ info ∈ (dirSlots s (t.chain d)).map fun p => infoOf (s.entry p),
      info.filename = name → ∃ p, info = infoOf (s.entry p) ∧
        slotNamed s (t.chain d) name = some p := by
    intro info hinfo heq
    obtain ⟨p, hp, rfl⟩ := List.mem_map.mp hinfo
    rw [(hstored p hp).1] at heq
    exact ⟨p, rfl, heq ▸ slotNamed_of_mem h hu hd hp⟩
  constructor
  · constructor
    · intro hex
      obtain ⟨info, hinfo, heq⟩ := hex
      obtain ⟨p, -, hp⟩ := hslot info hinfo heq
      simp [kfsExists, hsplit, hfind, hp]
    · intro hexists
      cases hp : slotNamed s (t.chain d) name with
      | none => simp [kfsExists, hsplit, hfind, hp] at hexists
      | some p =>
        have hmem := List.mem_of_find?_eq_some hp
        refine ⟨_, List.mem_map_of_mem hmem, ?_⟩
        rw [(hstored p hmem).1]
        exact (slotNamed_item h hd hp).2
  · intro info hinfo heq
    obtain ⟨p, hinfo', hp⟩ := hslot info hinfo heq
    rw [hinfo']
    simp [kfsGetFileSize, hsplit, hfind, hp, infoOf]
  · intro info hinfo heq
    obtain ⟨p, hinfo', hp⟩ := hslot info hinfo heq
    rw [hinfo', hwalk, walkTo, hp]
    by_cases hf : (s.entry p).flags = flagFolder
    · simp [infoOf, walkTo, hf]
    · simp [infoOf, hf]

/-- In every run that creates short names only, a listing has the entries of the directory in the
order of its slots, and agrees with the lookups of the other calls. -/
theorem listing_agrees {drive : Drive} (hroom : drive.HasRoom) (h : Reach drive ShortCreate s)
    {dir : CStr} (hdir : 0 ∉ dir) (hres : resolveDir s dir = some (some d)) :
    ∃ l, Follows s d l ∧ (dirSlots s l).Nodup ∧ ∀ buffer maxEntries, 1 ≤ maxEntries →
      ∃ count list, Listing s dir l buffer maxEntries count list := by
  obtain ⟨t, ht, hu⟩ := reach_unique hroom h
  have hs := reach_named hroom h
  have hd : t.IsDir d := by
    rcases resolveDir_cases ht hdir with hnone | ⟨d', hd', hsome⟩
    · rw [hnone] at hres
      cases hres
    · rw [hsome] at hres
      cases hres
      exact hd'
  have hchain := ht.chains d (Tree.isHead_of_isDir hd)
  refine ⟨t.chain d, hchain.follows ht.geometry, dirSlots_nodup s (hchain.nodup ht.geometry), ?_⟩
  intro buffer maxEntries hmax
  have hrun := kfsGetFileList_eq ht.geometry hres hchain buffer maxEntries
  have hsize : ∀ e ∈ ((dirSlots s (t.chain d)).map s.entry).take maxEntries.toNat,
      e.sizeBytes < 2 ^ 32 := by
    intro e he
    obtain ⟨p, -, rfl⟩ := List.mem_map.mp (List.mem_of_mem_take he)
    exact entryAt_size_lt _ _
  have hinfos := @infoAt_putInfos _ 0 buffer hsize
  have hlen : (((dirSlots s (t.chain d)).map s.entry).take maxEntries.toNat).length =
      min maxEntries.toNat (dirSlots s (t.chain d)).length := by
    rw [List.length_take, List.length_map]
  have hlisted : (List.range (((dirSlots s (t.chain d)).map s.entry).take
      maxEntries.toNat).length).map (infoAt (putInfos (((dirSlots s (t.chain d)).map s.entry).take
        maxEntries.toNat) 0 buffer)) =
      ((dirSlots s (t.chain d)).take (((dirSlots s (t.chain d)).map s.entry).take
        maxEntries.toNat).length).map fun p => infoOf (s.entry p) := by
    simp only [Nat.zero_add] at hinfos
    rw [hinfos, hlen, ← List.take_eq_take_min, ← List.map_take, List.map_map]
    rfl
  refine ⟨_, _, hrun, ?_, hlisted, ?_, ?_⟩
  · rw [hlen]
    omega
  · intro x hx
    exact putInfos_outside (Or.inr (by omega))
  · intro hroom' hcut name hname hslash
    rw [hlisted, hlen, List.take_of_length_le (by omega)]
    exact agrees_of_listed ht hu hs hdir hname hslash hd hres hcut

theorem listing_agrees_smallRun : ∃ s l,
    run smallDrive noNoise (kfsFormat smallDrive (fun _ => 0) blankState) smallRun = some s ∧
      ∃ count list, Listing s [97] l (fun _ => 0) 4 count list := by
  have hval : (run smallDrive noNoise (kfsFormat smallDrive (fun _ => 0) blankState) smallRun).bind
      (fun s => resolveDir s [97]) = some (some 3) := by decide +kernel
  obtain ⟨s, hs, hres⟩ := Option.bind_eq_some_iff.mp hval
  have hreach : Reach smallDrive ShortCreate s := by
    refine (Reach.format (fun _ => 0) blankState).run ?_ ?_ hs
    · intro op hop
      simp only [smallRun, List.mem_cons, List.not_mem_nil, or_false] at hop
      rcases hop with rfl | rfl | rfl
      · exact (by decide : (0 : UInt8) ∉ [97])
      · exact ⟨by decide, by decide⟩
      · exact ⟨by decide, by decide⟩
    · intro op hop s'
      simp only [smallRun, List.mem_cons, List.not_mem_nil, or_false] at hop
      rcases hop with rfl | rfl | rfl
      · exact (by decide : (lastName [97]).length ≤ 22)
      · exact (by decide : (lastName [47, 97, 47, 98]).length ≤ 22)
      · exact (by decide : (lastName [99]).length ≤ 22)
  obtain ⟨l, -, -, hlist⟩ := listing_agrees smallDrive_hasRoom hreach (by decide) hres
  exact ⟨s, l, hs, hlist (fun _ => 0) 4 (by decide)⟩

/-- The folders `a` and `ab`, and a file in the second. -/
def cutRun : List Op :=
  [.createFolder [97], .createFolder [97, 98], .createFile [97, 98, 47, 120] (fun _ => 1) 10]

/-- A path of 128 bytes to the folder `ab`. -/
def cutDir : CStr := List.replicate 126 slash ++ [97, 98]

/-- The file is listed in its directory, and does not exist there. -/
theorem listing_cut : ∃ s list, Reach smallDrive ShortCreate s ∧
    kfsGetFileList s cutDir (fun _ => 0) 10 = some (1, list) ∧
    (infoAt list 0).filename = [120] ∧ kfsExists s (cutDir ++ slash :: [120]) = some 0 := by
  have hval : ((run smallDrive noNoise (kfsFormat smallDrive (fun _ => 0) blankState) cutRun).bind
      fun s => (kfsGetFileList s cutDir (fun _ => 0) 10).map fun r =>
        decide (r.1 = 1 ∧ (infoAt r.2 0).filename = [120] ∧
          kfsExists s (cutDir ++ slash :: [120]) = some 0)) = some true := by decide +kernel
  obtain ⟨s, hs, hrest⟩ := Option.bind_eq_some_iff.mp hval
  obtain ⟨r, hr, hfields⟩ := Option.map_eq_some_iff.mp hrest
  obtain ⟨hcount, hname, hexists⟩ := of_decide_eq_true hfields
  refine ⟨s, r.2, ?_, ?_, hname, hexists⟩
  · refine (Reach.format (fun _ => 0) blankState).run ?_ ?_ hs
    · intro op hop
      simp only [cutRun, List.mem_cons, List.not_mem_nil, or_false] at hop
      rcases hop with rfl | rfl | rfl
      · exact (by decide : (0 : UInt8) ∉ [97])
      · exact (by decide : (0 : UInt8) ∉ [97, 98])
      · exact ⟨by decide, by decide⟩
    · intro op hop s'
      simp only [cutRun, List.mem_cons, List.not_mem_nil, or_false] at hop
      rcases hop with rfl | rfl | rfl
      · exact (by decide : (lastName [97]).length ≤ 22)
      · exact (by decide : (lastName [97, 98]).length ≤ 22)
      · exact (by decide : (lastName [97, 98, 47, 120]).length ≤ 22)
  · rw [hr, ← hcount]

end Kyuzen.Kfs
