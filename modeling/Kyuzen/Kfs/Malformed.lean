import Kyuzen.Kfs.Lookups
import Kyuzen.Kfs.Loops

/-!
# Malformed disks

`kfs_init` takes the header and the FAT from the disk as they are. What the calls do afterwards
depends on the chains they follow: each must end, inside the table, before the call gets there.
`WellFormed` says this of the directories that the folders lead to from the root and of the files in
them, and it is exactly what is needed for every call to return with every index into `fat_table`
below `total_disk_sectors` (`calls_safe_iff`). On a disk whose root directory is its own successor
the lookup of a name never returns (`circular_hangs`).

The first 127 bytes of the parent part lead a lookup to a directory; a listing gets deeper.
-/

namespace Kyuzen.Kfs.Touched

open Lib.Memory Lib.Chain

variable {s : State} {name path c : CStr} {cs : List CStr} {d walk fuel : Nat}

/-! ## Paths with given components -/

/-- What can stand between two slashes of a path. -/
def IsName (c : CStr) : Prop := c ≠ [] ∧ 0 ∉ c ∧ slash ∉ c

/-- The shortest path with the components `cs`. -/
def joinPath : List CStr → CStr
  | [] => []
  | [c] => c
  | c :: cs => c ++ slash :: joinPath cs

theorem components_isName (h : IsName c) : components c = [c] :=
  components_single h.1 fun _ hx => ne_of_mem_of_not_mem hx h.2.2

theorem components_joinPath : ∀ {cs : List CStr}, (∀ c ∈ cs, IsName c) →
    components (joinPath cs) = cs := by
  intro cs
  induction cs with
  | nil => exact fun _ => rfl
  | cons c cs ih =>
    intro h
    have hc := components_isName (h c List.mem_cons_self)
    cases cs with
    | nil => exact hc
    | cons c' cs =>
      rw [joinPath, components_append, hc, ih fun x hx => h x (List.mem_cons_of_mem _ hx)]
      · rfl
      · exact fun hnil => absurd hnil (List.cons_ne_nil _ _)

theorem nul_notMem_joinPath : ∀ {cs : List CStr}, (∀ c ∈ cs, IsName c) → 0 ∉ joinPath cs := by
  intro cs
  induction cs with
  | nil => exact fun _ => List.not_mem_nil
  | cons c cs ih =>
    intro h
    have hc := (h c List.mem_cons_self).2.1
    cases cs with
    | nil => exact hc
    | cons c' cs =>
      rw [joinPath, List.mem_append, List.mem_cons, not_or, not_or]
      · exact ⟨hc, by decide, ih fun x hx => h x (List.mem_cons_of_mem _ hx)⟩
      · exact fun hnil => absurd hnil (List.cons_ne_nil _ _)

theorem joinPath_length : ∀ {cs : List CStr}, cs ≠ [] →
    (joinPath cs).length + 1 = (cs.map fun c => c.length + 1).sum := by
  intro cs
  induction cs with
  | nil => exact fun h => absurd rfl h
  | cons c cs ih =>
    intro _
    cases cs with
    | nil => rfl
    | cons c' cs =>
      have hrest := ih (List.cons_ne_nil _ _)
      rw [joinPath, List.length_append, List.length_cons, List.map_cons, List.sum_cons, ← hrest]
      · omega
      · exact fun hnil => absurd hnil (List.cons_ne_nil _ _)

/-- The components are names, and joining them gives no longer a path. -/
theorem components_spec : ∀ {n : Nat} {path : CStr}, path.length ≤ n → 0 ∉ path →
    (∀ c ∈ components path, IsName c) ∧
      ((components path).map fun c => c.length + 1).sum ≤ path.length + 1 := by
  intro n
  induction n with
  | zero =>
    intro path hlen _
    rw [List.eq_nil_of_length_eq_zero (Nat.le_zero.mp hlen), components_nil]
    exact ⟨fun c hc => absurd hc List.not_mem_nil, Nat.zero_le _⟩
  | succ n ih =>
    intro path hlen hpath
    -- a part without slashes is one component, or none
    have hfree : ∀ a : CStr, slash ∉ a → 0 ∉ a → (∀ c ∈ components a, IsName c) ∧
        ((components a).map fun c => c.length + 1).sum ≤ a.length + 1 := by
      intro a hslash hnul
      by_cases hne : a = []
      · rw [hne, components_nil]
        exact ⟨fun c hc => absurd hc List.not_mem_nil, Nat.zero_le _⟩
      · have ha : IsName a := ⟨hne, hnul, hslash⟩
        rw [components_isName ha]
        exact ⟨fun c hc => List.mem_singleton.mp hc ▸ ha, le_refl _⟩
    by_cases hslash : slash ∈ path
    · obtain ⟨a, b, rfl, ha⟩ := List.eq_append_cons_of_mem hslash
      rw [List.length_append, List.length_cons] at hlen ⊢
      rw [List.mem_append, List.mem_cons, not_or, not_or] at hpath
      obtain ⟨hanames, hasum⟩ := hfree a ha hpath.1
      obtain ⟨hbnames, hbsum⟩ := ih (show b.length ≤ n by omega) hpath.2.2
      rw [components_append, List.map_append, List.sum_append]
      refine ⟨fun c hc => ?_, by omega⟩
      rcases List.mem_append.mp hc with hc | hc
      · exact hanames c hc
      · exact hbnames c hc
    · exact hfree path hslash hpath

theorem isName_of_mem (hpath : 0 ∉ path) : ∀ c ∈ components path, IsName c :=
  (components_spec (le_refl _) hpath).1

theorem joinPath_components_length (hpath : 0 ∉ path) :
    (joinPath (components path)).length ≤ path.length := by
  by_cases hne : components path = []
  · rw [hne]
    exact Nat.zero_le _
  · have hjoin := joinPath_length hne
    have hsum := (components_spec (le_refl _) hpath).2
    omega

/-! ## A name that a directory does not have -/

theorem strcmpEq_unique : ∀ {c c' : CStr} {a : Nat → UInt8}, 0 ∉ c → 0 ∉ c' →
    strcmpEq a c = true → strcmpEq a c' = true → c = c' := by
  intro c
  induction c with
  | nil =>
    intro c' a _ hc' h h'
    cases c' with
    | nil => rfl
    | cons x c' =>
      simp only [strcmpEq, Bool.and_eq_true, beq_iff_eq] at h h'
      exact absurd (h'.1.symm.trans h ▸ List.mem_cons_self) hc'
  | cons x c ih =>
    intro c' a hc hc' h h'
    cases c' with
    | nil =>
      simp only [strcmpEq, Bool.and_eq_true, beq_iff_eq] at h h'
      exact absurd (h.1.symm.trans h' ▸ List.mem_cons_self) hc
    | cons y c' =>
      simp only [strcmpEq, Bool.and_eq_true, beq_iff_eq] at h h'
      rw [← h.1, ← h'.1, ih (fun hmem => hc (List.mem_cons_of_mem _ hmem))
        (fun hmem => hc' (List.mem_cons_of_mem _ hmem)) h.2 h'.2]

/-- Twenty-two letters, of four kinds. -/
def letters (f : Fin 22 → Fin 4) : CStr := List.ofFn fun j => UInt8.ofNat (97 + (f j).val)

theorem letters_isName (f : Fin 22 → Fin 4) : IsName (letters f) := by
  have hmem : ∀ x ∈ letters f, ∃ k : Fin 4, x = UInt8.ofNat (97 + k.val) := by
    intro x hx
    obtain ⟨j, rfl⟩ := List.mem_ofFn.mp hx
    exact ⟨f j, rfl⟩
  have hletter : ∀ k : Fin 4, UInt8.ofNat (97 + k.val) ≠ 0 ∧ UInt8.ofNat (97 + k.val) ≠ slash := by
    decide
  refine ⟨?_, ?_, ?_⟩
  · intro hnil
    have hlen := congrArg List.length hnil
    rw [letters, List.length_ofFn] at hlen
    exact absurd hlen (by decide)
  · intro h0
    obtain ⟨k, hk⟩ := hmem 0 h0
    exact (hletter k).1 hk.symm
  · intro hs
    obtain ⟨k, hk⟩ := hmem slash hs
    exact (hletter k).2 hk.symm

theorem letters_inj : Function.Injective letters := by
  intro f g h
  have hletter : ∀ k l : Fin 4, UInt8.ofNat (97 + k.val) = UInt8.ofNat (97 + l.val) → k = l := by
    decide
  funext j
  exact hletter _ _ (congrFun (List.ofFn_injective h) j)

/-- There are more names than slots in the sectors `V`. -/
theorem exists_absent_name (s : State) {V : Finset Nat} (hV : V.card ≤ 2 ^ 30) :
    ∃ c : CStr, IsName c ∧ c.length ≤ 22 ∧ ∀ y ∈ V, findInSector (s.disk y) c = none := by
  by_contra hall
  have hhit : ∀ f : Fin 22 → Fin 4, ∃ p : Nat × Nat, p ∈ V ×ˢ Finset.range 16 ∧
      strcmpEq (fun j => s.disk p.1 (32 * p.2 + j)) (letters f) = true := by
    intro f
    by_contra hno
    refine hall ⟨letters f, letters_isName f, le_of_eq (List.length_ofFn), fun y hy => ?_⟩
    cases hfind : findInSector (s.disk y) (letters f) with
    | none => rfl
    | some i =>
      obtain ⟨hi, -, hcmp⟩ := mem_findInSector hfind
      exact absurd ⟨(y, i), Finset.mem_product.mpr ⟨hy, Finset.mem_range.mpr hi⟩, hcmp⟩ hno
  choose slot hslot hcmp using hhit
  have hcard : (V ×ˢ Finset.range 16).card < (Finset.univ : Finset (Fin 22 → Fin 4)).card := by
    rw [Finset.card_product, Finset.card_range, Finset.card_univ, Fintype.card_fun,
      Fintype.card_fin, Fintype.card_fin]
    exact lt_of_le_of_lt (Nat.mul_le_mul_right 16 hV) (by norm_num)
  obtain ⟨f, -, g, -, hne, heq⟩ := Finset.exists_ne_map_eq_of_card_lt_of_maps_to hcard
    (f := slot) fun f _ => hslot f
  have hg := hcmp g
  rw [← heq] at hg
  exact hne (letters_inj (strcmpEq_unique (letters_isName f).2.1 (letters_isName g).2.1
    (hcmp f) hg))

/-! ## Calls -/

inductive Call where
  | exist (path : CStr)
  | size (path : CStr)
  | read (path : CStr) (capacity : Nat)
  | list (path : CStr) (buffer : Mem) (maxEntries : Int)
  | delete (path : CStr)

/-- The arguments have the types of the source. -/
def Call.Valid : Call → Prop
  | .exist path => 0 ∉ path
  | .size path => 0 ∉ path
  | .read path capacity => 0 ∉ path ∧ capacity < 2 ^ 32
  | .list path _ maxEntries => 0 ∉ path ∧ maxEntries < 2 ^ 31
  | .delete path => 0 ∉ path

/-- The state after a call, and the entries of the FAT it reads. -/
def Call.run (s : State) (walk : Nat) : Call → Option (State × List Nat)
  | .exist path => (kfsExists s walk path).map fun r => (s, r.2)
  | .size path => (kfsGetFileSize s walk path).map fun r => (s, r.2)
  | .read path capacity => (kfsReadToBuffer s walk path capacity).map fun r => (s, r.2.1)
  | .list path buffer maxEntries =>
    (kfsGetFileList s walk path buffer maxEntries).map fun r => (s, r.2)
  | .delete path => kfsDeleteFile s walk path

/-- The call returns, and every index into `fat_table` is below `total_disk_sectors`. -/
def Safe (s : State) (call : Call) : Prop :=
  ∃ walk s' reads, call.run s walk = some (s', reads) ∧ ∀ x ∈ reads, x < s.totalDiskSectors

/-- The states after `kfs_init` on a disk that starts with `KZ`, and after calls that returned. -/
inductive AfterInit (drive : Drive) : State → Prop
  | init (stale : Nat → UInt32) (s : State) (hk : s.disk 0 0 = 75) (hz : s.disk 0 1 = 90) :
      AfterInit drive (kfsInit drive stale s)
  | call {s s' : State} {walk : Nat} {reads : List Nat} {call : Call} (h : AfterInit drive s)
      (hv : call.Valid) (hrun : call.run s walk = some (s', reads)) : AfterInit drive s'

/-- The chains on the disk end inside the table, as far as the calls follow them. -/
structure WellFormed (s : State) : Prop where
  dirs : ∀ cs d, (∀ c ∈ cs, IsName c) → Leads s s.currentFs.rootDirSector cs d → 2 ≤ d →
    EndsInside s d
  /-- A directory that is said to start at sector 1 is listed, but never searched. -/
  sectorOne : ∀ cs, (∀ c ∈ cs, IsName c) → Leads s s.currentFs.rootDirSector cs 1 →
    ∃ l x, Path s.fatTable 1 l x ∧ (∀ y ∈ l, ¬Stop y ∧ y < s.totalDiskSectors) ∧
      (Stop x ∨ 2 ^ 31 - 1 ≤ (dirSlots s l).length)
  /-- The sectors of a file, all of them or as many as its size asks for; only a folder cannot be
  deleted. -/
  files : ∀ cs d c p, (∀ c ∈ cs, IsName c) → (joinPath cs).length ≤ 127 →
    Leads s s.currentFs.rootDirSector cs d → IsName c → Finds s d c p →
    ∀ l x, Path s.fatTable (s.entry p).startSector l x → Passes l → ¬Stop x →
      512 * l.length < (s.entry p).sizeBytes ∨ (s.entry p).flags ≠ flagFolder →
      x < s.totalDiskSectors

/-! ## On a well-formed disk -/

theorem leads_concat {c : CStr} {e : Nat} : ∀ {cs : List CStr} {d : Nat}, Leads s d (cs ++ [c]) e ↔
    ∃ d', Leads s d cs d' ∧ Leads s d' [c] e := by
  intro cs
  induction cs with
  | nil =>
    intro d
    constructor
    · exact fun h => ⟨d, rfl, h⟩
    · rintro ⟨d', rfl, h⟩
      exact h
  | cons n cs ih =>
    intro d
    constructor
    · rintro ⟨hlen, p, hp, hf, hrest⟩
      obtain ⟨d', hpre, hlast⟩ := ih.mp hrest
      exact ⟨d', ⟨hlen, p, hp, hf, hpre⟩, hlast⟩
    · rintro ⟨d', ⟨hlen, p, hp, hf, hpre⟩, hlast⟩
      exact ⟨hlen, p, hp, hf, ih.mpr ⟨d', hpre, hlast⟩⟩

section WellFormed

variable (h : WellFormed s) (hwalk : walkFuel s ≤ walk)

include h hwalk

/-- From a directory that the components `pre` lead to, further components are resolved. -/
theorem resolveList_inside : ∀ {cs pre : List CStr} {d : Nat}, (∀ c ∈ pre ++ cs, IsName c) →
    Leads s s.currentFs.rootDirSector pre d → ∃ r reads,
      resolveList s walk cs d = some (r, reads) ∧ ∀ y ∈ reads, y < s.totalDiskSectors := by
  intro cs
  induction cs with
  | nil => exact fun {pre d} _ _ => ⟨some d, [], rfl, fun y hy => absurd hy List.not_mem_nil⟩
  | cons c cs ih =>
    intro pre d hnames hpre
    by_cases hlen : 22 < c.length
    · exact ⟨none, [], resolveList_cons.mpr (Or.inl ⟨hlen, rfl, rfl⟩),
        fun y hy => absurd hy List.not_mem_nil⟩
    obtain ⟨found, first, hfind, hfirst⟩ := findEntryIn_inside
      (fun hd => h.dirs pre d (fun x hx => hnames x (List.mem_append_left _ hx)) hpre hd) c hwalk
    by_cases hfolder : ∃ p, Finds s d c p ∧ (s.entry p).flags = flagFolder
    · obtain ⟨p, hp, hf⟩ := hfolder
      have hlead : Leads s s.currentFs.rootDirSector (pre ++ [c]) (s.entry p).startSector :=
        leads_concat.mpr ⟨d, hpre, by omega, p, hp, hf, rfl⟩
      obtain ⟨r, rest, hrun, hrest⟩ := ih (by rwa [List.append_assoc]) hlead
      refine ⟨r, first ++ rest, resolveList_cons.mpr (Or.inr ⟨by omega, found, first, hfind,
        Or.inr ⟨p, rest, hp, hf, hrun, rfl⟩⟩), fun y hy => ?_⟩
      exact (List.mem_append.mp hy).elim (hfirst y) (hrest y)
    · exact ⟨none, first, resolveList_cons.mpr (Or.inr ⟨by omega, found, first, hfind,
        Or.inl ⟨fun p hp hf => hfolder ⟨p, hp, hf⟩, rfl, rfl⟩⟩), hfirst⟩

theorem resolveDir_inside (hpath : 0 ∉ path) : ∃ r reads, resolveDir s walk path = some (r, reads) ∧
    (∀ y ∈ reads, y < s.totalDiskSectors) ∧
    ∀ d, r = some d → Leads s s.currentFs.rootDirSector (components path) d := by
  have hroot : Leads s s.currentFs.rootDirSector [] s.currentFs.rootDirSector := rfl
  obtain ⟨r, reads, hrun, hreads⟩ := resolveList_inside h hwalk (isName_of_mem hpath) hroot
  refine ⟨r, reads, ?_, hreads, fun d => (resolveList_leads hrun).mp⟩
  rw [resolveDir_eq]
  exact hrun

/-- A lookup returns, and what it finds is a file or folder that `WellFormed` speaks of. -/
theorem lookup_inside (hpath : 0 ∉ path) : ∃ r reads, lookup s walk path = some (r, reads) ∧
    (∀ y ∈ reads, y < s.totalDiskSectors) ∧ ∀ found, r = some found →
      ∀ l x, Path s.fatTable found.1.startSector l x → Passes l → ¬Stop x →
        512 * l.length < found.1.sizeBytes ∨ found.1.flags ≠ flagFolder →
        x < s.totalDiskSectors := by
  by_cases hname : lastName path = []
  · exact ⟨none, [], lookup_iff.mpr (Or.inl ⟨hname, rfl, rfl⟩),
      fun y hy => absurd hy List.not_mem_nil, fun found hc => by cases hc⟩
  have hparent := nul_notMem_parentPath hpath
  obtain ⟨parent, first, hres, hfirst, hleads⟩ := resolveDir_inside h hwalk hparent
  rw [resolveDir_eq] at hres
  cases parent with
  | none =>
    exact ⟨none, first, lookup_iff.mpr (Or.inr ⟨hname, none, first, hres,
      Or.inl ⟨rfl, rfl, rfl⟩⟩), hfirst, fun found hc => by cases hc⟩
  | some d =>
    have hd := hleads d rfl
    obtain ⟨r, rest, hfind, hrest⟩ := findEntryIn_inside
      (fun hd2 => h.dirs _ d (isName_of_mem hparent) hd hd2) (lastName path) hwalk
    refine ⟨r, first ++ rest, lookup_iff.mpr (Or.inr ⟨hname, some d, first, hres,
      Or.inr ⟨d, rest, rfl, hfind, rfl⟩⟩), fun y hy => ?_, ?_⟩
    · exact (List.mem_append.mp hy).elim (hfirst y) (hrest y)
    · intro found hfound
      rcases findEntryIn_cases hfind with ⟨hnone, -⟩ | ⟨p, hp, hfinds⟩
      · rw [hfound] at hnone
        cases hnone
      · rw [hfound] at hp
        rw [Option.some.inj hp]
        have hlen : (joinPath (components (parentPath path))).length ≤ 127 :=
          (joinPath_components_length hparent).trans (List.length_take_le _ _)
        have hlast : IsName (lastName path) := ⟨hname, nul_notMem_lastName hpath,
          fun hs => slash_notMem_lastName path slash hs rfl⟩
        exact h.files _ d _ p (isName_of_mem hparent) hlen hd hlast hfinds

end WellFormed

/-- The chain of a directory ends, or has as many entries as a listing may ask for. -/
theorem WellFormed.listed (h : WellFormed s) {cs : List CStr} {d : Nat} {maxEntries : Int}
    (hnames : ∀ c ∈ cs, IsName c) (hlead : Leads s s.currentFs.rootDirSector cs d)
    (hmax : maxEntries < 2 ^ 31) : ∃ l x, Path s.fatTable d l x ∧
      (∀ y ∈ l, ¬Stop y ∧ y < s.totalDiskSectors) ∧
      (Stop x ∨ maxEntries ≤ ((0 : Nat) : Int) + (dirSlots s l).length) := by
  by_cases hd2 : 2 ≤ d
  · obtain ⟨l, x, hpath, hstop, hl⟩ := h.dirs _ d hnames hlead hd2
    exact ⟨l, x, hpath, hl, Or.inl hstop⟩
  by_cases hd1 : d = 1
  · rw [hd1] at hlead ⊢
    obtain ⟨l, x, hpath, hl, hend⟩ := h.sectorOne _ hnames hlead
    exact ⟨l, x, hpath, hl, hend.imp id fun hlong => by omega⟩
  · have hd0 : d = fatFree := show d = 0 by omega
    exact ⟨[], d, rfl, fun y hy => absurd hy List.not_mem_nil, Or.inl (Or.inr hd0)⟩

/-- Every loop but that of a listing ends within so many sectors. -/
@[irreducible] def ample (s : State) : Nat := walkFuel s + 2 ^ 32

theorem ample_eq (s : State) : ample s = walkFuel s + 2 ^ 32 := by
  unfold ample
  rfl

theorem safe_of_wellFormed (h : WellFormed s) {call : Call} (hv : call.Valid) : Safe s call := by
  have hwalk : walkFuel s ≤ ample s := by
    rw [ample_eq]
    omega
  cases call with
  | exist path =>
    obtain ⟨r, reads, hrun, hreads, -⟩ := lookup_inside h hwalk hv
    exact ⟨_, s, reads, by rw [Call.run, kfsExists, hrun]; rfl, hreads⟩
  | size path =>
    obtain ⟨r, reads, hrun, hreads, -⟩ := lookup_inside h hwalk hv
    exact ⟨_, s, reads, by rw [Call.run, kfsGetFileSize, hrun]; rfl, hreads⟩
  | read path capacity =>
    obtain ⟨r, reads, hrun, hreads, hfile⟩ := lookup_inside h hwalk hv.1
    cases r with
    | none => exact ⟨_, s, reads, by rw [Call.run, kfsReadToBuffer, hrun]; rfl, hreads⟩
    | some found =>
      by_cases hcap : found.1.sizeBytes > capacity
      · refine ⟨ample s, s, reads, ?_, hreads⟩
        rw [Call.run, kfsReadToBuffer, hrun]
        exact congrArg (Option.map _) (if_pos hcap)
      · have hfuel : found.1.sizeBytes / 512 + 2 ≤ ample s := by
          have hcapacity := hv.2
          rw [ample_eq]
          omega
        obtain ⟨⟨chain, writes⟩, hcopy⟩ := readChunks_returns s found.1.startSector 0 hfuel
        refine ⟨ample s, s, reads ++ chain, ?_, fun y hy => ?_⟩
        · rw [Call.run, kfsReadToBuffer, hrun]
          show Option.map _ (if found.1.sizeBytes > capacity then _
            else Option.bind (readChunks s _ _ 0 _) _) = _
          rw [if_neg hcap, hcopy]
          rfl
        · rcases List.mem_append.mp hy with hy | hy
          · exact hreads y hy
          · obtain ⟨l, hpath, hpass, hstop, hlen⟩ := (readChunks_reads hcopy y).mp hy
            exact hfile found rfl l y hpath hpass hstop (Or.inl hlen)
  | list path buffer maxEntries =>
    obtain ⟨hpath, hmax⟩ := hv
    obtain ⟨r, reads, hres, hreads, hleads⟩ := resolveDir_inside h hwalk hpath
    cases r with
    | none => exact ⟨_, s, reads, by rw [Call.run, kfsGetFileList, hres]; rfl, hreads⟩
    | some d =>
      obtain ⟨l, x, hchain, hl, hend⟩ := h.listed (isName_of_mem hpath) (hleads d rfl) hmax
      obtain ⟨far, hfar, hlong⟩ : ∃ far, ample s ≤ far ∧ l.length < far :=
        ⟨ample s + l.length + 1, by omega, by omega⟩
      obtain ⟨r, log, hlist, hsub⟩ : ∃ r log,
          listFrom s maxEntries far d 0 buffer = some (r, log) ∧ log ⊆ l :=
        listFrom_returns hchain (fun y hy => (hl y hy).1) hend hlong
      rw [resolveDir_eq] at hres
      have hres' := resolveList_mono hfar hres
      refine ⟨far, s, reads ++ log, ?_, fun y hy => ?_⟩
      · rw [Call.run, kfsGetFileList, resolveDir_eq, hres']
        show Option.map _ (Option.bind (listFrom s maxEntries far d 0 buffer) _) = _
        rw [hlist]
        rfl
      · exact (List.mem_append.mp hy).elim (hreads y) fun hy => (hl y (hsub hy)).2
  | delete path =>
    obtain ⟨r, reads, hrun, hreads, hfile⟩ := lookup_inside h hwalk hv
    cases r with
    | none => exact ⟨_, s, reads, by rw [Call.run, kfsDeleteFile, hrun]; rfl, hreads⟩
    | some found =>
      by_cases hfolder : found.1.flags = flagFolder
      · refine ⟨ample s, s, reads, ?_, hreads⟩
        rw [Call.run, kfsDeleteFile, hrun]
        exact if_pos hfolder
      · have hinside : Inside s found.1.startSector := fun l y hpath hpass hy =>
          hfile found rfl l y hpath hpass hy (Or.inr hfolder)
        have hfuel : (taken s).card + 2 ≤ ample s := by
          have hcard := taken_card_le s
          rw [ample_eq]
          omega
        obtain ⟨s', chain, hfree, -, hchain⟩ := freeChain_returns hinside hfuel
        refine ⟨ample s, removeFile (clearEntry s' found.2.1 found.2.2), reads ++ chain, ?_,
          fun y hy => ?_⟩
        · rw [Call.run, kfsDeleteFile, hrun]
          show (if found.1.flags = flagFolder then _ else Option.bind (freeChain _ _ _) _) = _
          rw [if_neg hfolder, hfree]
          rfl
        · exact (List.mem_append.mp hy).elim (hreads y) (hchain y)

/-! ## Only on a well-formed disk -/

/-- Resolving further components is part of resolving the whole path. -/
theorem resolveList_append {e : Nat} : ∀ {cs cs' : List CStr} {d : Nat} {r : Option Nat}
    {reads : List Nat}, resolveList s walk (cs ++ cs') d = some (r, reads) → Leads s d cs e →
    ∃ rest, resolveList s walk cs' e = some (r, rest) ∧ rest ⊆ reads := by
  intro cs
  induction cs with
  | nil =>
    intro cs' d r reads hrun hlead
    obtain rfl : d = e := hlead
    exact ⟨reads, hrun, List.Subset.refl _⟩
  | cons c cs ih =>
    intro cs' d r reads hrun hlead
    obtain ⟨hshort, p, hp, hf, hrest⟩ := hlead
    rcases resolveList_cons.mp hrun with ⟨hlong, -⟩ | ⟨-, found, first, -, hstep⟩
    · omega
    · rcases hstep with ⟨hno, -⟩ | ⟨q, rest, hq, -, hsub, rfl⟩
      · exact absurd hf (hno p hp)
      · rw [finds_unique hq hp] at hsub
        obtain ⟨rest', hrun', hincl⟩ := ih hsub hrest
        exact ⟨rest', hrun', fun y hy => List.mem_append_right _ (hincl hy)⟩

/-- What a resolution of a longer path does in the directory `d`. -/
theorem search_of_resolved {c : CStr} {r : Option Nat} {reads : List Nat}
    (hrun : resolveDir s walk (joinPath cs ++ slash :: c) = some (r, reads))
    (hcs : ∀ c ∈ cs, IsName c) (hc : IsName c) (hshort : c.length ≤ 22)
    (hlead : Leads s s.currentFs.rootDirSector cs d) :
    ∃ found first, findEntryIn s walk d c = some (found, first) ∧ first ⊆ reads := by
  rw [resolveDir_eq, components_append, components_joinPath hcs, components_isName hc] at hrun
  obtain ⟨rest, hrest, hsub⟩ := resolveList_append hrun hlead
  rcases resolveList_cons.mp hrest with ⟨hlong, -⟩ | ⟨-, found, first, hfind, hstep⟩
  · omega
  · refine ⟨found, first, hfind, ?_⟩
    intro y hy
    rcases hstep with ⟨_, _, hreads⟩ | ⟨_, _, _, _, _, hreads⟩
    · exact hsub (by rwa [hreads])
    · exact hsub (by rw [hreads]; exact List.mem_append_left _ hy)

theorem nul_notMem_append {c : CStr} (hcs : ∀ c ∈ cs, IsName c) (hc : IsName c) :
    0 ∉ joinPath cs ++ slash :: c := by
  rw [List.mem_append, List.mem_cons, not_or, not_or]
  exact ⟨nul_notMem_joinPath hcs, by decide, hc.2.1⟩

theorem resolved_of_listed {buffer : Mem} {maxEntries : Int} {r : Nat × Mem} {reads : List Nat}
    (h : kfsGetFileList s walk path buffer maxEntries = some (r, reads)) :
    ∃ dir first, resolveDir s walk path = some (dir, first) ∧ first ⊆ reads := by
  obtain ⟨⟨dir, first⟩, hres, hrest⟩ := Option.bind_eq_some_iff.mp h
  refine ⟨dir, first, hres, ?_⟩
  cases dir with
  | none =>
    obtain ⟨-, rfl⟩ := Prod.mk.inj (Option.some.inj hrest)
    exact List.Subset.refl _
  | some d =>
    obtain ⟨⟨r', log⟩, -, heq⟩ := Option.bind_eq_some_iff.mp hrest
    obtain ⟨-, rfl⟩ := Prod.mk.inj (Option.some.inj heq)
    exact List.subset_append_left _ _

/-- The lookup of a name in a directory that a short path leads to. -/
theorem lookup_of_finds {c : CStr} {p : Nat × Nat} {r : Option (Entry × Nat × Nat)}
    {reads : List Nat} (hcs : ∀ c ∈ cs, IsName c) (hlen : (joinPath cs).length ≤ 127)
    (hlead : Leads s s.currentFs.rootDirSector cs d) (hc : IsName c) (hp : Finds s d c p)
    (hlook : lookup s walk (joinPath cs ++ slash :: c) = some (r, reads)) :
    r = some (s.entry p, p.1, p.2) := by
  rcases lookup_iff.mp hlook with ⟨hnil, -⟩ | ⟨-, parent, first, hres, hrest⟩
  · rw [lastName_append hc.2.2] at hnil
    exact absurd hnil hc.1
  · rw [parentPath_append hc.2.2, List.take_of_length_le hlen, components_joinPath hcs] at hres
    have hparent := (resolveList_leads hres).mpr hlead
    rcases hrest with ⟨hnone, -⟩ | ⟨e, rest, hsome, hfind, -⟩
    · rw [hparent] at hnone
      cases hnone
    · rw [hparent] at hsome
      cases hsome
      rw [lastName_append hc.2.2] at hfind
      exact (findEntryIn_finds hfind p).mpr hp

section Safe

variable (h : ∀ call : Call, call.Valid → Safe s call)

include h

/-- A listing below a directory searches it for a name it does not have. -/
theorem dirs_of_safe (htotal : s.totalDiskSectors < 2 ^ 28) (hcs : ∀ c ∈ cs, IsName c)
    (hlead : Leads s s.currentFs.rootDirSector cs d) (hd : 2 ≤ d) : EndsInside s d := by
  obtain ⟨V, hV⟩ : ∃ V : Finset Nat, V = Finset.range s.totalDiskSectors ∪
    ((Finset.range s.totalDiskSectors).image s.fatTable ∪ {d}) := ⟨_, rfl⟩
  have hcard : V.card ≤ 2 ^ 30 := by
    have h1 := Finset.card_union_le (Finset.range s.totalDiskSectors)
      ((Finset.range s.totalDiskSectors).image s.fatTable ∪ {d})
    have h2 := Finset.card_union_le ((Finset.range s.totalDiskSectors).image s.fatTable) {d}
    have h3 : ((Finset.range s.totalDiskSectors).image s.fatTable).card ≤ _ :=
      Finset.card_image_le
    rw [Finset.card_range] at h1 h3
    rw [Finset.card_singleton] at h2
    rw [hV]
    omega
  obtain ⟨c, hc, hshort, habsent⟩ := exists_absent_name s hcard
  obtain ⟨walk, s', reads, hrun, hreads⟩ := h (.list (joinPath cs ++ slash :: c) (fun _ => 0) 0)
    ⟨nul_notMem_append hcs hc, by decide⟩
  obtain ⟨⟨r, reads'⟩, hlist, heq⟩ := Option.map_eq_some_iff.mp hrun
  obtain ⟨-, rfl⟩ := Prod.mk.inj heq
  obtain ⟨dir, reads₁, hres, hsub⟩ := resolved_of_listed hlist
  obtain ⟨found, first, hfind, hfirst⟩ := search_of_resolved hres hcs hc hshort hlead
  rw [findEntryIn, if_neg (by omega)] at hfind
  obtain ⟨-, x, hpath, hmiss, hyield⟩ := findEntryFrom_iff.mp hfind
  have hinside : ∀ y ∈ first, y < s.totalDiskSectors := fun y hy => hreads y (hsub (hfirst hy))
  refine ⟨first, x, hpath, ?_, fun y hy => ⟨(hmiss y hy).1, hinside y hy⟩⟩
  -- the walk can only end at a stop, for no sector it can come to has the name
  have hx : x ∈ V := by
    rw [hV, Finset.mem_union, Finset.mem_union, Finset.mem_image, Finset.mem_singleton]
    rcases path_stop_mem hpath with hxd | ⟨y, hy, hxy⟩
    · exact Or.inr (Or.inr hxd)
    · exact Or.inr (Or.inl ⟨y, Finset.mem_range.mpr (hinside y hy), hxy.symm⟩)
  rcases hyield with ⟨hstop, -⟩ | ⟨-, i, hi, -⟩
  · exact hstop
  · rw [habsent x hx] at hi
    cases hi

/-- The listing of a directory with a large array goes to the end of its chain. -/
theorem sectorOne_of_safe (hcs : ∀ c ∈ cs, IsName c)
    (hlead : Leads s s.currentFs.rootDirSector cs 1) :
    ∃ l x, Path s.fatTable 1 l x ∧ (∀ y ∈ l, ¬Stop y ∧ y < s.totalDiskSectors) ∧
      (Stop x ∨ 2 ^ 31 - 1 ≤ (dirSlots s l).length) := by
  obtain ⟨walk, s', reads, hrun, hreads⟩ := h (.list (joinPath cs) (fun _ => 0) (2 ^ 31 - 1))
    ⟨nul_notMem_joinPath hcs, by decide⟩
  obtain ⟨⟨r, reads'⟩, hlist, heq⟩ := Option.map_eq_some_iff.mp hrun
  obtain ⟨-, rfl⟩ := Prod.mk.inj heq
  obtain ⟨⟨dir, first⟩, hres, hrest⟩ := Option.bind_eq_some_iff.mp hlist
  have hleads := hres
  rw [resolveDir_eq, components_joinPath hcs] at hleads
  have hdir : dir = some 1 := (resolveList_leads hleads).mpr hlead
  subst hdir
  obtain ⟨⟨r', log⟩, hlog, heq⟩ := Option.bind_eq_some_iff.mp hrest
  obtain ⟨-, rfl⟩ := Prod.mk.inj (Option.some.inj heq)
  obtain ⟨x, hpath, hpass, hend⟩ := listFrom_ends hlog
  refine ⟨log, x, hpath, fun y hy => ⟨hpass y hy, hreads y (List.mem_append_right _ hy)⟩, ?_⟩
  exact hend.imp id fun hlong => by omega

theorem files_of_safe {c : CStr} {p : Nat × Nat} (hcs : ∀ c ∈ cs, IsName c)
    (hlen : (joinPath cs).length ≤ 127) (hlead : Leads s s.currentFs.rootDirSector cs d)
    (hc : IsName c) (hp : Finds s d c p) {l : List Nat} {x : Nat}
    (hpath : Path s.fatTable (s.entry p).startSector l x) (hpass : Passes l) (hx : ¬Stop x)
    (hneed : 512 * l.length < (s.entry p).sizeBytes ∨ (s.entry p).flags ≠ flagFolder) :
    x < s.totalDiskSectors := by
  by_cases hfolder : (s.entry p).flags = flagFolder
  · -- a folder can only be read
    have hsize := hneed.resolve_right fun hne => hne hfolder
    obtain ⟨walk, s', reads, hrun, hreads⟩ := h
      (.read (joinPath cs ++ slash :: c) (s.entry p).sizeBytes)
      ⟨nul_notMem_append hcs hc, entryAt_size_lt _ _⟩
    obtain ⟨⟨ret, reads', writes⟩, hread, heq⟩ := Option.map_eq_some_iff.mp hrun
    obtain ⟨-, rfl⟩ := Prod.mk.inj heq
    obtain ⟨⟨r, first⟩, hlook, hrest⟩ := Option.bind_eq_some_iff.mp hread
    have hr := lookup_of_finds hcs hlen hlead hc hp hlook
    subst hr
    obtain ⟨⟨chain, writes'⟩, hcopy, heq⟩ := Option.bind_eq_some_iff.mp
      ((if_neg (lt_irrefl (s.entry p).sizeBytes)).symm.trans hrest)
    obtain ⟨-, hlogs⟩ := Prod.mk.inj (Option.some.inj heq)
    obtain ⟨rfl, -⟩ := Prod.mk.inj hlogs
    exact hreads x (List.mem_append_right _
      ((readChunks_reads hcopy x).mpr ⟨l, hpath, hpass, hx, hsize⟩))
  · obtain ⟨walk, s', reads, hrun, hreads⟩ := h (.delete (joinPath cs ++ slash :: c))
      (nul_notMem_append hcs hc)
    obtain ⟨⟨r, first⟩, hlook, hrest⟩ := Option.bind_eq_some_iff.mp hrun
    have hr := lookup_of_finds hcs hlen hlead hc hp hlook
    subst hr
    obtain ⟨⟨s₁, chain⟩, hfree, heq⟩ := Option.bind_eq_some_iff.mp
      ((if_neg hfolder).symm.trans hrest)
    obtain ⟨-, rfl⟩ := Prod.mk.inj (Option.some.inj heq)
    exact hreads x (List.mem_append_right _ (freeChain_reads hfree l x hpath hpass hx))

end Safe

/-! ## After `kfs_init` -/

theorem freeChain_total : ∀ {fuel : Nat} {s s' : State} {curr : Nat} {reads : List Nat},
    freeChain fuel s curr = some (s', reads) → s'.totalDiskSectors = s.totalDiskSectors := by
  intro fuel
  induction fuel with
  | zero =>
    intro s s' curr reads h
    cases h
  | succ fuel ih =>
    intro s s' curr reads h
    rw [freeChain] at h
    by_cases hstop : curr = fatEof ∨ curr = fatFree
    · rw [if_pos hstop] at h
      obtain ⟨rfl, -⟩ := Prod.mk.inj (Option.some.inj h)
      rfl
    · rw [if_neg hstop] at h
      obtain ⟨⟨r, reads'⟩, hrec, heq⟩ := Option.map_eq_some_iff.mp h
      obtain ⟨rfl, -⟩ := Prod.mk.inj heq
      exact (ih hrec).trans (freeSector_total s curr)

theorem run_total {s' : State} {call : Call} {reads : List Nat}
    (h : call.run s walk = some (s', reads)) : s'.totalDiskSectors = s.totalDiskSectors := by
  cases call with
  | exist path =>
    obtain ⟨_, -, heq⟩ := Option.map_eq_some_iff.mp h
    rw [← (Prod.mk.inj heq).1]
  | size path =>
    obtain ⟨_, -, heq⟩ := Option.map_eq_some_iff.mp h
    rw [← (Prod.mk.inj heq).1]
  | read path capacity =>
    obtain ⟨_, -, heq⟩ := Option.map_eq_some_iff.mp h
    rw [← (Prod.mk.inj heq).1]
  | list path buffer maxEntries =>
    obtain ⟨_, -, heq⟩ := Option.map_eq_some_iff.mp h
    rw [← (Prod.mk.inj heq).1]
  | delete path =>
    obtain ⟨⟨r, first⟩, -, hrest⟩ := Option.bind_eq_some_iff.mp h
    cases r with
    | none =>
      obtain ⟨rfl, -⟩ := Prod.mk.inj (Option.some.inj hrest)
      rfl
    | some found =>
      by_cases hfolder : found.1.flags = flagFolder
      · obtain ⟨rfl, -⟩ := Prod.mk.inj
          (Option.some.inj ((if_pos hfolder).symm.trans hrest))
        rfl
      · obtain ⟨⟨s₁, chain⟩, hfree, heq⟩ := Option.bind_eq_some_iff.mp
          ((if_neg hfolder).symm.trans hrest)
        obtain ⟨rfl, -⟩ := Prod.mk.inj (Option.some.inj heq)
        show s₁.totalDiskSectors = s.totalDiskSectors
        exact freeChain_total hfree

theorem AfterInit.total_lt {drive : Drive} (h : AfterInit drive s) :
    s.totalDiskSectors < 2 ^ 28 := by
  induction h with
  | init stale s hk hz =>
    have hmagic : ¬((decodeHeader (s.disk 0)).magic 0 ≠ 75 ∨
        (decodeHeader (s.disk 0)).magic 1 ≠ 90) := by
      rintro (hne | hne)
      · exact hne hk
      · exact hne hz
    unfold kfsInit
    dsimp only
    rw [if_neg hmagic]
    exact (totalSectors_bounds drive).2
  | call h hv hrun ih =>
    rw [run_total hrun]
    exact ih

/-- Every call returns, with all indexes in the table, if and only if the disk is well-formed. The
calls are those of the model. -/
theorem calls_safe_iff {drive : Drive} (h : AfterInit drive s) :
    ((∀ call : Call, call.Valid → Safe s call) ↔ WellFormed s) ∧ AgreesWithModel s := by
  refine ⟨⟨?_, ?_⟩, agreesWithModel s⟩
  · intro hsafe
    exact ⟨fun cs d hcs hlead hd => dirs_of_safe hsafe h.total_lt hcs hlead hd,
      fun cs hcs hlead => sectorOne_of_safe hsafe hcs hlead,
      fun cs d c p hcs hlen hlead hc hp l x hpath hpass hx hneed =>
        files_of_safe hsafe hcs hlen hlead hc hp hpath hpass hx hneed⟩
  · exact fun hwell call hv => safe_of_wellFormed hwell hv

/-- A disk with the header and the FAT of `circularState`. -/
def circularDisk : State :=
  { blankState with
    disk := fun x =>
      if x = 0 then encodeHeader circularState.currentFs
      else if x = 1 then encodeFat circularState.fatTable 0
      else fun _ => 0 }

theorem circularDisk_init :
    AfterInit smallDrive (kfsInit smallDrive (fun _ => 0) circularDisk) :=
  AfterInit.init _ _ (by decide) (by decide)

theorem calls_safe_iff_circular :
    ((∀ call : Call, call.Valid → Safe (kfsInit smallDrive (fun _ => 0) circularDisk) call) ↔
      WellFormed (kfsInit smallDrive (fun _ => 0) circularDisk)) ∧
      AgreesWithModel (kfsInit smallDrive (fun _ => 0) circularDisk) :=
  calls_safe_iff circularDisk_init

/-- After `kfs_init` on that disk, `kfs_exists` never returns. -/
theorem circular_hangs : AfterInit smallDrive (kfsInit smallDrive (fun _ => 0) circularDisk) ∧
    ¬Safe (kfsInit smallDrive (fun _ => 0) circularDisk) (.exist [97]) := by
  refine ⟨circularDisk_init, ?_⟩
  have hroot : (kfsInit smallDrive (fun _ => 0) circularDisk).currentFs.rootDirSector = 3 := by
    decide +kernel
  have hfat : (kfsInit smallDrive (fun _ => 0) circularDisk).fatTable 3 = 3 := by
    decide +kernel
  have hempty : findInSector ((kfsInit smallDrive (fun _ => 0) circularDisk).disk 3) [97] =
      none := by
    decide +kernel
  have hpath : ∀ {l : List Nat} {x : Nat},
      Path (kfsInit smallDrive (fun _ => 0) circularDisk).fatTable 3 l x → x = 3 := by
    intro l
    induction l with
    | nil => exact fun h => Eq.symm h
    | cons y l ih =>
      intro x h
      have hrest := h.2
      rw [← h.1, hfat] at hrest
      exact ih hrest
  rintro ⟨walk, s', reads, hrun, -⟩
  obtain ⟨r, hexists, -⟩ := Option.map_eq_some_iff.mp hrun
  obtain ⟨found, hlook, -⟩ := Option.map_eq_some_iff.mp hexists
  have hret := (lookup_returns.mp ⟨walk, found, hlook⟩).resolve_left (by decide)
  have hover := hret.2 3 ⟨by decide, hroot⟩
  rcases hover with hlow | ⟨l, x, hl, -, hend⟩
  · exact absurd hlow (by decide)
  · rw [hpath hl] at hend
    rcases hend with hstop | hsome
    · exact absurd hstop (by decide)
    · have hname : lastName ([97] : CStr) = [97] := by decide
      rw [hname, hempty] at hsome
      cases hsome

end Kyuzen.Kfs.Touched
