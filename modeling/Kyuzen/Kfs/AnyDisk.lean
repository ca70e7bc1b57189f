import Kyuzen.Kfs.Paths
import Kyuzen.Kfs.Touched

/-!
# Walks on any disk

What the calls of `Kyuzen.Kfs.Touched` do when the FAT and the directories are arbitrary: chains may
run in circles, into each other, and out of the table. `Finds` says which slot a lookup comes to,
`Leads` where a list of components leads, and `Over`, `Returns` that the walks come to an end. The
lookup with which a call begins returns when its walks do (`lookup_returns`).
-/

namespace Kyuzen.Kfs.Touched

open Lib.Memory Lib.Chain

variable {s : State} {name path : CStr} {d walk fuel : Nat}

/-! ## Walks along any FAT -/

/-- The sector numbers at which a walk ends. -/
def Stop (x : Nat) : Prop := x = fatEof ∨ x = fatFree

instance (x : Nat) : Decidable (Stop x) := inferInstanceAs (Decidable (_ ∨ _))

/-- The walk for `name` passes through the sectors `l`: none of them holds it. -/
def Misses (s : State) (name : CStr) (l : List Nat) : Prop :=
  ∀ y ∈ l, ¬Stop y ∧ findInSector (s.disk y) name = none

/-- What the walk for `name` gives at the sector `x`, where it is over. -/
def Yields (s : State) (name : CStr) (x : Nat) (r : Option (Entry × Nat × Nat)) : Prop :=
  Stop x ∧ r = none ∨ ¬Stop x ∧ ∃ i, findInSector (s.disk x) name = some i ∧
    r = some (s.entry (x, i), x, i)

section

variable {r : Option (Entry × Nat × Nat)} {l : List Nat}

theorem yields_stop (hstop : Stop d) : Yields s name d r ↔ r = none := by
  constructor
  · rintro (⟨-, hr⟩ | ⟨hne, -⟩)
    · exact hr
    · exact absurd hstop hne
  · intro hr
    exact Or.inl ⟨hstop, hr⟩

theorem yields_found {i : Nat} (hstop : ¬Stop d) (hfind : findInSector (s.disk d) name = some i) :
    Yields s name d r ↔ r = some (s.entry (d, i), d, i) := by
  constructor
  · rintro (⟨hs, -⟩ | ⟨-, j, hj, hr⟩)
    · exact absurd hs hstop
    · rw [hfind] at hj
      cases hj
      exact hr
  · intro hr
    exact Or.inr ⟨hstop, i, hfind, hr⟩

/-- Where the walk is over it passes through no sector. -/
theorem over_iff (hover : Stop d ∨ findInSector (s.disk d) name ≠ none) :
    (∃ x, Path s.fatTable d l x ∧ Misses s name l ∧ Yields s name x r) ↔
      l = [] ∧ Yields s name d r := by
  constructor
  · rintro ⟨x, hpath, hmiss, hyield⟩
    cases l with
    | nil =>
      obtain rfl : d = x := hpath
      exact ⟨rfl, hyield⟩
    | cons y l =>
      obtain ⟨rfl, -⟩ := hpath
      obtain ⟨hgo, hnone⟩ := hmiss d List.mem_cons_self
      rcases hover with hstop | hfind
      · exact absurd hstop hgo
      · exact absurd hnone hfind
  · rintro ⟨rfl, hyield⟩
    exact ⟨d, rfl, fun y hy => absurd hy List.not_mem_nil, hyield⟩

theorem end_iff {a : Option (Entry × Nat × Nat)} {fuel : Nat}
    (hover : Stop d ∨ findInSector (s.disk d) name ≠ none)
    (ha : Yields s name d r ↔ r = a) : some (a, []) = some (r, l) ↔ l.length < fuel + 1 ∧
      ∃ x, Path s.fatTable d l x ∧ Misses s name l ∧ Yields s name x r := by
  rw [over_iff hover, ha, Option.some_inj, Prod.mk.injEq]
  constructor
  · rintro ⟨rfl, rfl⟩
    exact ⟨Nat.succ_pos _, rfl, rfl⟩
  · rintro ⟨-, rfl, rfl⟩
    exact ⟨rfl, rfl⟩

/-- The walk goes on behind a sector that neither stops it nor has the name. -/
theorem goes_on_iff {fuel : Nat} (hstop : ¬Stop d) (hfind : findInSector (s.disk d) name = none) :
    (l.length < fuel + 1 ∧ ∃ x, Path s.fatTable d l x ∧ Misses s name l ∧ Yields s name x r) ↔
      ∃ l', l = d :: l' ∧ l'.length < fuel ∧
        ∃ x, Path s.fatTable (s.fatTable d) l' x ∧ Misses s name l' ∧ Yields s name x r := by
  constructor
  · rintro ⟨hlen, x, hpath, hmiss, hyield⟩
    cases l with
    | nil =>
      obtain rfl : d = x := hpath
      rcases hyield with ⟨hs, -⟩ | ⟨-, j, hj, -⟩
      · exact absurd hs hstop
      · rw [hfind] at hj
        cases hj
    | cons y l =>
      obtain ⟨rfl, hrest⟩ := hpath
      exact ⟨l, rfl, Nat.lt_of_succ_lt_succ hlen, x, hrest,
        fun y hy => hmiss y (List.mem_cons_of_mem _ hy), hyield⟩
  · rintro ⟨l', rfl, hlen, x, hpath, hmiss, hyield⟩
    exact ⟨Nat.succ_lt_succ hlen, x, ⟨rfl, hpath⟩,
      List.forall_mem_cons.mpr ⟨⟨hstop, hfind⟩, hmiss⟩, hyield⟩

end

/-- The walk of `find_entry_in` reads the FAT at the sectors it passes through. -/
theorem findEntryFrom_iff {r : Option (Entry × Nat × Nat)} : ∀ {fuel d : Nat} {l : List Nat},
    findEntryFrom s name fuel d = some (r, l) ↔ l.length < fuel ∧
      ∃ x, Path s.fatTable d l x ∧ Misses s name l ∧ Yields s name x r := by
  intro fuel
  induction fuel with
  | zero => simp [findEntryFrom]
  | succ fuel ih =>
    intro d l
    rw [findEntryFrom]
    by_cases hstop : d = fatEof ∨ d = fatFree
    · rw [if_pos hstop]
      exact end_iff (Or.inl hstop) (yields_stop hstop)
    · rw [if_neg hstop]
      cases hfind : findInSector (s.disk d) name with
      | some i => exact end_iff (Or.inr (by rw [hfind]; simp)) (yields_found hstop hfind)
      | none =>
        dsimp only
        rw [Option.map_eq_some_iff, goes_on_iff hstop hfind]
        constructor
        · rintro ⟨⟨r', l'⟩, hrec, heq⟩
          obtain ⟨rfl, rfl⟩ := Prod.mk.inj heq
          exact ⟨l', rfl, ih.mp hrec⟩
        · rintro ⟨l', rfl, hrest⟩
          exact ⟨(r, l'), ih.mpr hrest, rfl⟩

/-- Two walks for a name from the same sector are the same walk. -/
theorem walk_unique {x y : Nat} {l k : List Nat} {r r' : Option (Entry × Nat × Nat)}
    (hl : Path s.fatTable d l x) (hlm : Misses s name l) (hx : Yields s name x r)
    (hk : Path s.fatTable d k y) (hkm : Misses s name k) (hy : Yields s name y r') :
    l = k ∧ x = y ∧ r = r' := by
  have hrun := findEntryFrom_iff.mpr
    ⟨show l.length < l.length + k.length + 1 by omega, x, hl, hlm, hx⟩
  have hrun' := findEntryFrom_iff.mpr
    ⟨show k.length < l.length + k.length + 1 by omega, y, hk, hkm, hy⟩
  rw [hrun] at hrun'
  obtain ⟨rfl, rfl⟩ := Prod.mk.inj (Option.some.inj hrun')
  exact ⟨rfl, path_stop_unique hl hk, rfl⟩

/-! ## Lookups -/

/-- The lookup of `name` in the directory at `d` comes to the slot `p`. -/
def Finds (s : State) (d : Nat) (name : CStr) (p : Nat × Nat) : Prop :=
  2 ≤ d ∧ ∃ l, Path s.fatTable d l p.1 ∧ Misses s name l ∧ ¬Stop p.1 ∧
    findInSector (s.disk p.1) name = some p.2

/-- The lookup of `name` in the directory at `d` comes to an end. -/
def Over (s : State) (d : Nat) (name : CStr) : Prop :=
  d < 2 ∨ ∃ l x, Path s.fatTable d l x ∧ Misses s name l ∧
    (Stop x ∨ (findInSector (s.disk x) name).isSome)

theorem findEntryIn_over : (∃ walk r, findEntryIn s walk d name = some r) ↔ Over s d name := by
  unfold findEntryIn Over
  by_cases hd : d < 2
  · simp [hd]
  · simp only [hd, false_or]
    constructor
    · rintro ⟨walk, ⟨r, l⟩, hrun⟩
      obtain ⟨-, x, hpath, hmiss, hyield⟩ := findEntryFrom_iff.mp hrun
      refine ⟨l, x, hpath, hmiss, ?_⟩
      rcases hyield with ⟨hstop, -⟩ | ⟨-, i, hi, -⟩
      · exact Or.inl hstop
      · exact Or.inr (by rw [hi]; rfl)
    · rintro ⟨l, x, hpath, hmiss, hend⟩
      obtain ⟨r, hr⟩ : ∃ r, Yields s name x r := by
        by_cases hstop : Stop x
        · exact ⟨none, Or.inl ⟨hstop, rfl⟩⟩
        · obtain ⟨i, hi⟩ := Option.isSome_iff_exists.mp (hend.resolve_left hstop)
          exact ⟨_, Or.inr ⟨hstop, i, hi, rfl⟩⟩
      exact ⟨_, _, findEntryFrom_iff.mpr ⟨Nat.lt_succ_self _, x, hpath, hmiss, hr⟩⟩

theorem findEntryIn_mono {r : Option (Entry × Nat × Nat) × List Nat} {walk' : Nat}
    (h : findEntryIn s walk d name = some r) (hle : walk ≤ walk') :
    findEntryIn s walk' d name = some r := by
  unfold findEntryIn at h ⊢
  split_ifs at h ⊢ with hd
  · exact h
  · obtain ⟨hlen, hrest⟩ := findEntryFrom_iff.mp h
    exact findEntryFrom_iff.mpr ⟨hlen.trans_le hle, hrest⟩

/-- What a lookup that returns gives. -/
theorem findEntryIn_finds {r : Option (Entry × Nat × Nat)} {reads : List Nat}
    (h : findEntryIn s walk d name = some (r, reads)) (p : Nat × Nat) :
    r = some (s.entry p, p.1, p.2) ↔ Finds s d name p := by
  unfold findEntryIn at h
  split_ifs at h with hd
  · obtain ⟨rfl, -⟩ := Prod.mk.inj (Option.some.inj h)
    constructor
    · intro hc
      cases hc
    · intro hfinds
      exact absurd hfinds.1 (by omega)
  · obtain ⟨-, x, hpath, hmiss, hyield⟩ := findEntryFrom_iff.mp h
    constructor
    · intro hr
      rcases hyield with ⟨-, hnone⟩ | ⟨hstop, i, hi, hsome⟩
      · rw [hr] at hnone
        cases hnone
      · rw [hr] at hsome
        obtain ⟨-, hslot⟩ := Prod.mk.inj (Option.some.inj hsome)
        obtain ⟨hx, hidx⟩ := Prod.mk.inj hslot
        rw [← hx] at hpath hstop hi
        rw [← hidx] at hi
        exact ⟨by omega, reads, hpath, hmiss, hstop, hi⟩
    · rintro ⟨-, l, hpath', hmiss', hstop', hi'⟩
      exact (walk_unique hpath hmiss hyield hpath' hmiss'
        (Or.inr ⟨hstop', p.2, hi', rfl⟩)).2.2

/-- A lookup that returns gives a slot, or nothing. -/
theorem findEntryIn_cases {r : Option (Entry × Nat × Nat)} {reads : List Nat}
    (h : findEntryIn s walk d name = some (r, reads)) :
    r = none ∧ (∀ p, ¬Finds s d name p) ∨ ∃ p, r = some (s.entry p, p.1, p.2) ∧
      Finds s d name p := by
  cases r with
  | none =>
    refine Or.inl ⟨rfl, fun p hp => ?_⟩
    have hc := (findEntryIn_finds h p).mpr hp
    cases hc
  | some found =>
    right
    have h' := h
    unfold findEntryIn at h'
    split_ifs at h' with hd
    · cases h'
    · obtain ⟨-, x, -, -, hyield⟩ := findEntryFrom_iff.mp h'
      rcases hyield with ⟨-, hnone⟩ | ⟨-, i, -, hsome⟩
      · cases hnone
      · exact ⟨(x, i), hsome, (findEntryIn_finds h (x, i)).mp hsome⟩

theorem finds_unique {p q : Nat × Nat} (hp : Finds s d name p) (hq : Finds s d name q) : p = q := by
  obtain ⟨hd, l, hpath, hmiss, hstop, hi⟩ := hp
  obtain ⟨-, k, hpath', hmiss', hstop', hi'⟩ := hq
  obtain ⟨-, hx, hr⟩ := walk_unique hpath hmiss (Or.inr ⟨hstop, p.2, hi, rfl⟩) hpath' hmiss'
    (Or.inr ⟨hstop', q.2, hi', rfl⟩)
  exact Prod.ext hx (Prod.mk.inj (Prod.mk.inj (Option.some.inj hr)).2).2

/-! ## Components -/

/-- The components `cs` lead from the directory `d` through folders to `d'`. -/
def Leads (s : State) : Nat → List CStr → Nat → Prop
  | d, [], d' => d = d'
  | d, c :: cs, d' => c.length ≤ 22 ∧ ∃ p, Finds s d c p ∧ (s.entry p).flags = flagFolder ∧
      Leads s (s.entry p).startSector cs d'

/-- The lookups of the components come to an end, as far as they are made. -/
def Returns (s : State) : Nat → List CStr → Prop
  | _, [] => True
  | d, c :: cs => 22 < c.length ∨ Over s d c ∧ ∀ p, Finds s d c p →
      (s.entry p).flags = flagFolder → Returns s (s.entry p).startSector cs

/-- The loop of `resolve_dir_nolock`, over the components of the path. -/
def resolveList (s : State) (walk : Nat) : List CStr → Nat → Option (Option Nat × List Nat)
  | [], d => some (some d, [])
  | c :: cs, d =>
    if c.length > 22 then some (none, [])
    else do
      match ← findEntryIn s walk d c with
      | (none, reads) => return (none, reads)
      | (some (e, _, _), reads) =>
        if e.flags ≠ flagFolder then return (none, reads)
        else do
          let r ← resolveList s walk cs e.startSector
          return (r.1, reads ++ r.2)

theorem resolveFrom_eq : ∀ {fuel : Nat} {path : CStr} {d : Nat}, path.length < fuel →
    resolveFrom s walk fuel path d = resolveList s walk (components path) d := by
  intro fuel
  induction fuel with
  | zero => exact fun h => absurd h (Nat.not_lt_zero _)
  | succ fuel ih =>
    intro path d hf
    rw [resolveFrom, ← components_dropWhile path]
    cases hrest : path.dropWhile (· == slash) with
    | nil => rfl
    | cons c rest =>
      have hsub : (c :: rest).Sublist path := by
        rw [← hrest]
        exact List.dropWhile_sublist _
      have hc : (c != slash) = true := by
        have := List.head?_dropWhile_not (· == slash) path
        rw [hrest] at this
        simpa using this
      have hne : (c :: rest).takeWhile (· != slash) ≠ [] := by
        rw [List.takeWhile_cons_of_pos (p := (· != slash)) hc]
        exact List.cons_ne_nil _ _
      have hshort : ((c :: rest).dropWhile (· != slash)).length < fuel := by
        have h1 := length_dropWhile_lt (p := (· != slash)) (l := rest) hc
        have h2 := hsub.length_le
        omega
      rw [components_cons rfl hne rfl, resolveList]
      dsimp only
      split_ifs with hlen
      · rfl
      · cases findEntryIn s walk d ((c :: rest).takeWhile (· != slash)) with
        | none => rfl
        | some r =>
          obtain ⟨found, reads⟩ := r
          cases found with
          | none => rfl
          | some e =>
            show (if e.1.flags ≠ flagFolder then some (none, reads) else _) =
              (if e.1.flags ≠ flagFolder then some (none, reads) else _)
            rw [ih hshort]

theorem resolveDir_eq (s : State) (walk : Nat) (path : CStr) : resolveDir s walk path =
    resolveList s walk (components path) s.currentFs.rootDirSector :=
  resolveFrom_eq (Nat.lt_succ_self _)

/-- One step of the loop: the component is too long or leads to no folder, or the loop goes on in
the folder. -/
theorem resolveList_cons {c : CStr} {cs : List CStr} {r : Option Nat} {reads : List Nat} :
    resolveList s walk (c :: cs) d = some (r, reads) ↔
      22 < c.length ∧ r = none ∧ reads = [] ∨
      c.length ≤ 22 ∧ ∃ found first, findEntryIn s walk d c = some (found, first) ∧
        ((∀ p, Finds s d c p → (s.entry p).flags ≠ flagFolder) ∧ r = none ∧ reads = first ∨
          ∃ p rest, Finds s d c p ∧ (s.entry p).flags = flagFolder ∧
            resolveList s walk cs (s.entry p).startSector = some (r, rest) ∧
            reads = first ++ rest) := by
  rw [resolveList]
  by_cases hlen : c.length > 22
  · rw [if_pos hlen, Option.some_inj, Prod.mk.injEq]
    constructor
    · rintro ⟨rfl, rfl⟩
      exact Or.inl ⟨hlen, rfl, rfl⟩
    · rintro (⟨-, rfl, rfl⟩ | ⟨hshort, -⟩)
      · exact ⟨rfl, rfl⟩
      · omega
  · rw [if_neg hlen]
    cases hfind : findEntryIn s walk d c with
    | none =>
      constructor
      · intro hc
        cases hc
      · rintro (⟨hlong, -⟩ | ⟨-, _, _, hc, -⟩)
        · omega
        · cases hc
    | some res =>
      obtain ⟨found, first⟩ := res
      have hcases := findEntryIn_cases hfind
      rcases hcases with ⟨rfl, hnone⟩ | ⟨p, rfl, hp⟩
      · constructor
        · intro hrun
          obtain ⟨rfl, rfl⟩ := Prod.mk.inj (Option.some.inj hrun)
          exact Or.inr ⟨by omega, none, _, rfl, Or.inl ⟨fun p hp => absurd hp (hnone p), rfl, rfl⟩⟩
        · rintro (⟨hlong, -⟩ | ⟨-, f, first', heq, ⟨-, rfl, rfl⟩ | ⟨p, _, hp, -⟩⟩)
          · omega
          · rw [← (Prod.mk.inj (Option.some.inj heq)).2]
            rfl
          · exact absurd hp (hnone p)
      · show (if (s.entry p).flags ≠ flagFolder then some (none, first)
          else Option.bind (resolveList s walk cs (s.entry p).startSector) _) = _ ↔ _
        by_cases hf : (s.entry p).flags = flagFolder
        · rw [if_neg (not_not.mpr hf)]
          constructor
          · intro hrun
            obtain ⟨⟨r', rest⟩, hrest, heq⟩ := Option.bind_eq_some_iff.mp hrun
            obtain ⟨rfl, rfl⟩ := Prod.mk.inj (Option.some.inj heq)
            exact Or.inr ⟨by omega, _, _, rfl, Or.inr ⟨p, rest, hp, hf, hrest, rfl⟩⟩
          · rintro (⟨hlong, -⟩ | ⟨-, f, first', heq, ⟨hno, -⟩ | ⟨q, rest, hq, -, hrest, rfl⟩⟩)
            · omega
            · exact absurd hf (hno p hp)
            · obtain ⟨-, rfl⟩ := Prod.mk.inj (Option.some.inj heq)
              rw [finds_unique hp hq, hrest]
              rfl
        · rw [if_pos hf]
          constructor
          · intro hrun
            obtain ⟨rfl, rfl⟩ := Prod.mk.inj (Option.some.inj hrun)
            refine Or.inr ⟨by omega, _, _, rfl, Or.inl ⟨fun q hq => ?_, rfl, rfl⟩⟩
            rw [finds_unique hq hp]
            exact hf
          · rintro (⟨hlong, -⟩ | ⟨-, f, first', heq, ⟨-, rfl, rfl⟩ | ⟨q, rest, hq, hqf, -⟩⟩)
            · omega
            · obtain ⟨-, rfl⟩ := Prod.mk.inj (Option.some.inj heq)
              rfl
            · rw [finds_unique hq hp] at hqf
              exact absurd hqf hf

theorem resolveList_mono {walk' : Nat} (hle : walk ≤ walk') : ∀ {cs : List CStr} {d : Nat}
    {r : Option Nat × List Nat}, resolveList s walk cs d = some r →
    resolveList s walk' cs d = some r := by
  intro cs
  induction cs with
  | nil => exact fun h => h
  | cons c cs ih =>
    rintro d ⟨r, reads⟩ h
    rcases resolveList_cons.mp h with hlong | ⟨hshort, found, first, hfind, hrest⟩
    · exact resolveList_cons.mpr (Or.inl hlong)
    · refine resolveList_cons.mpr (Or.inr ⟨hshort, found, first, findEntryIn_mono hfind hle, ?_⟩)
      rcases hrest with hnone | ⟨p, rest, hp, hf, hrun, heq⟩
      · exact Or.inl hnone
      · exact Or.inr ⟨p, rest, hp, hf, ih hrun, heq⟩

theorem resolveList_returns : ∀ {cs : List CStr} {d : Nat},
    (∃ walk r, resolveList s walk cs d = some r) ↔ Returns s d cs := by
  intro cs
  induction cs with
  | nil => exact fun {d} => ⟨fun _ => trivial, fun _ => ⟨0, _, rfl⟩⟩
  | cons c cs ih =>
    intro d
    constructor
    · rintro ⟨walk, ⟨r, reads⟩, h⟩
      rcases resolveList_cons.mp h with ⟨hlong, -⟩ | ⟨-, found, first, hfind, hrest⟩
      · exact Or.inl hlong
      · refine Or.inr ⟨findEntryIn_over.mp ⟨walk, _, hfind⟩, fun p hp hf => ?_⟩
        rcases hrest with ⟨hno, -⟩ | ⟨q, rest, hq, -, hrun, -⟩
        · exact absurd hf (hno p hp)
        · rw [finds_unique hp hq]
          exact ih.mp ⟨walk, _, hrun⟩
    · intro hret
      rcases hret with hlong | ⟨hover, hsub⟩
      · exact ⟨0, _, resolveList_cons.mpr (Or.inl ⟨hlong, rfl, rfl⟩)⟩
      by_cases hlong : 22 < c.length
      · exact ⟨0, _, resolveList_cons.mpr (Or.inl ⟨hlong, rfl, rfl⟩)⟩
      obtain ⟨walk, ⟨found, first⟩, hfind⟩ := findEntryIn_over.mpr hover
      by_cases hfolder : ∃ p, Finds s d c p ∧ (s.entry p).flags = flagFolder
      · obtain ⟨p, hp, hf⟩ := hfolder
        obtain ⟨walk', ⟨r, rest⟩, hrun⟩ := ih.mpr (hsub p hp hf)
        refine ⟨max walk walk', (r, first ++ rest), resolveList_cons.mpr (Or.inr ⟨by omega,
          found, first, findEntryIn_mono hfind (le_max_left _ _),
          Or.inr ⟨p, rest, hp, hf, ?_, rfl⟩⟩)⟩
        exact resolveList_mono (le_max_right _ _) hrun
      · refine ⟨walk, (none, first), resolveList_cons.mpr (Or.inr ⟨by omega, found, first, hfind,
          Or.inl ⟨fun p hp hf => hfolder ⟨p, hp, hf⟩, rfl, rfl⟩⟩)⟩

theorem resolveList_leads : ∀ {cs : List CStr} {d d' : Nat} {r : Option Nat} {reads : List Nat},
    resolveList s walk cs d = some (r, reads) → (r = some d' ↔ Leads s d cs d') := by
  intro cs
  induction cs with
  | nil =>
    intro d d' r reads h
    obtain ⟨rfl, -⟩ := Prod.mk.inj (Option.some.inj h)
    exact Option.some_inj
  | cons c cs ih =>
    intro d d' r reads h
    rcases resolveList_cons.mp h with ⟨hlong, rfl, -⟩ | ⟨hshort, found, first, -, hrest⟩
    · constructor
      · intro hc
        cases hc
      · intro hleads
        exact absurd hleads.1 (by omega)
    · rcases hrest with ⟨hno, rfl, -⟩ | ⟨p, rest, hp, hf, hrun, -⟩
      · constructor
        · intro hc
          cases hc
        · rintro ⟨-, q, hq, hqf, -⟩
          exact absurd hqf (hno q hq)
      · rw [ih hrun]
        constructor
        · exact fun hleads => ⟨hshort, p, hp, hf, hleads⟩
        · rintro ⟨-, q, hq, -, hleads⟩
          rw [finds_unique hp hq]
          exact hleads

/-- Components that lead somewhere are resolved. -/
theorem Leads.returns : ∀ {cs : List CStr} {d d' : Nat}, Leads s d cs d' → Returns s d cs := by
  intro cs
  induction cs with
  | nil => exact fun _ => trivial
  | cons c cs ih =>
    rintro d d' ⟨_, p, hp, _, hrest⟩
    have ⟨_, l, hpath, hmiss, _, hfound⟩ := hp
    have hover : Over s d c := Or.inr ⟨l, p.1, hpath, hmiss, Or.inr (by rw [hfound]; rfl)⟩
    refine Or.inr ⟨hover, fun q hq _ => ?_⟩
    rw [finds_unique hq hp]
    exact ih hrest

/-- The directory of the last component, and the last component. -/
def LeadsLast (s : State) (path : CStr) (d : Nat) : Prop :=
  lastName path ≠ [] ∧ Leads s s.currentFs.rootDirSector (components (parentPath path)) d

/-- The lookup that the calls begin with: it fails on the way, or ends with the search for the last
component. -/
theorem lookup_iff {r : Option (Entry × Nat × Nat)} {reads : List Nat} :
    lookup s walk path = some (r, reads) ↔
      lastName path = [] ∧ r = none ∧ reads = [] ∨
      lastName path ≠ [] ∧ ∃ parent first,
        resolveList s walk (components (parentPath path)) s.currentFs.rootDirSector =
          some (parent, first) ∧
        (parent = none ∧ r = none ∧ reads = first ∨ ∃ d rest, parent = some d ∧
          findEntryIn s walk d (lastName path) = some (r, rest) ∧ reads = first ++ rest) := by
  rw [lookup, resolveDir_eq]
  by_cases hname : lastName path = []
  · rw [if_pos hname, Option.some_inj, Prod.mk.injEq]
    constructor
    · rintro ⟨rfl, rfl⟩
      exact Or.inl ⟨hname, rfl, rfl⟩
    · rintro (⟨-, rfl, rfl⟩ | ⟨hne, -⟩)
      · exact ⟨rfl, rfl⟩
      · exact absurd hname hne
  · rw [if_neg hname]
    constructor
    · intro hrun
      obtain ⟨⟨parent, first⟩, hres, hrest⟩ := Option.bind_eq_some_iff.mp hrun
      refine Or.inr ⟨hname, parent, first, hres, ?_⟩
      cases parent with
      | none =>
        obtain ⟨rfl, rfl⟩ := Prod.mk.inj (Option.some.inj hrest)
        exact Or.inl ⟨rfl, rfl, rfl⟩
      | some d =>
        obtain ⟨⟨r', rest⟩, hfind, heq⟩ := Option.bind_eq_some_iff.mp hrest
        obtain ⟨rfl, rfl⟩ := Prod.mk.inj (Option.some.inj heq)
        exact Or.inr ⟨d, rest, rfl, hfind, rfl⟩
    · rintro (⟨hnil, -⟩ | ⟨-, parent, first, hres, hrest⟩)
      · exact absurd hnil hname
      · rw [hres]
        rcases hrest with ⟨rfl, rfl, rfl⟩ | ⟨d, rest, rfl, hfind, rfl⟩
        · rfl
        · show Option.bind (findEntryIn s walk d (lastName path)) _ = _
          rw [hfind]
          rfl

theorem lookup_mono {walk' : Nat} {r : Option (Entry × Nat × Nat) × List Nat}
    (h : lookup s walk path = some r) (hle : walk ≤ walk') : lookup s walk' path = some r := by
  obtain ⟨r, reads⟩ := r
  refine lookup_iff.mpr ?_
  rcases lookup_iff.mp h with hnil | ⟨hname, parent, first, hres, hrest⟩
  · exact Or.inl hnil
  · refine Or.inr ⟨hname, parent, first, resolveList_mono hle hres, ?_⟩
    rcases hrest with hnone | ⟨d, rest, heq, hfind, hreads⟩
    · exact Or.inl hnone
    · exact Or.inr ⟨d, rest, heq, findEntryIn_mono hfind hle, hreads⟩

/-- Every walk that the lookup of a path makes comes to an end. -/
def LookupReturns (s : State) (path : CStr) : Prop :=
  lastName path = [] ∨ Returns s s.currentFs.rootDirSector (components (parentPath path)) ∧
    ∀ d, LeadsLast s path d → Over s d (lastName path)

theorem lookup_returns : (∃ walk r, lookup s walk path = some r) ↔ LookupReturns s path := by
  constructor
  · rintro ⟨walk, ⟨r, reads⟩, h⟩
    rcases lookup_iff.mp h with ⟨hnil, -⟩ | ⟨hname, parent, first, hres, hrest⟩
    · exact Or.inl hnil
    · refine Or.inr ⟨resolveList_returns.mp ⟨walk, _, hres⟩, fun d hd => ?_⟩
      have hparent := (resolveList_leads hres).mpr hd.2
      rcases hrest with ⟨hnone, -⟩ | ⟨d', rest, hsome, hfind, -⟩
      · rw [hparent] at hnone
        cases hnone
      · rw [hparent] at hsome
        cases hsome
        exact findEntryIn_over.mp ⟨walk, _, hfind⟩
  · intro hret
    by_cases hname : lastName path = []
    · exact ⟨0, _, lookup_iff.mpr (Or.inl ⟨hname, rfl, rfl⟩)⟩
    obtain ⟨hreturns, hover⟩ := hret.resolve_left hname
    obtain ⟨walk, ⟨parent, first⟩, hres⟩ := resolveList_returns.mpr hreturns
    cases parent with
    | none =>
      exact ⟨walk, (none, first), lookup_iff.mpr (Or.inr ⟨hname, none, first, hres,
        Or.inl ⟨rfl, rfl, rfl⟩⟩)⟩
    | some d =>
      have hd : LeadsLast s path d := ⟨hname, (resolveList_leads hres).mp rfl⟩
      obtain ⟨walk', ⟨r, rest⟩, hfind⟩ := findEntryIn_over.mpr (hover d hd)
      refine ⟨max walk walk', (r, first ++ rest), lookup_iff.mpr (Or.inr ⟨hname, some d, first,
        resolveList_mono (le_max_left _ _) hres, Or.inr ⟨d, rest, rfl, ?_, rfl⟩⟩)⟩
      exact findEntryIn_mono hfind (le_max_right _ _)

end Kyuzen.Kfs.Touched
