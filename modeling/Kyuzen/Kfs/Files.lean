import Kyuzen.Kfs.Paths

/-!
# Files by name

`kfs_create_file` stores the first 22 bytes of the last component and looks names up by all of
it. A run whose calls create only names of at most 22 bytes (`ShortCreate`) therefore never
stores a name twice in a directory, and what it created under a path is found under that path
until a call deletes it (`names_unique`); a file also reads back as it was written, whatever
happens to other files (`file_round_trip`). A longer name is stored cut off, is not found
again, and can be created twice (`long_name_twice`).
-/

namespace Kyuzen.Kfs

open Lib.Memory Lib.Chain

/-! ## Reading a file -/

theorem fill_zero (b : Mem) (a : Nat) (f : Nat → UInt8) : fill b a 0 f = b := by
  funext x
  rw [fill, if_neg (by omega)]

/-- The copy loop along the chain `l`, when its sectors hold `data` from `offset` on. -/
theorem readChunks_eq {s : State} {data : Nat → UInt8} : ∀ {l : List Nat} {fuel : Nat}
    {buffer : Mem} {curr offset remaining : Nat}, Path s.fatTable curr l fatEof →
      (∀ x ∈ l, x ≠ fatEof ∧ x ≠ fatFree) → l.length < fuel → remaining ≤ 512 * l.length →
      (∀ k, (hk : k < l.length) → ∀ j, j < 512 → 512 * k + j < remaining →
        s.disk (l.get ⟨k, hk⟩) j = data (offset + (512 * k + j))) →
      readChunks s fuel buffer curr offset remaining = some (fill buffer offset remaining data) := by
  intro l
  induction l with
  | nil =>
    intro fuel buffer curr offset remaining hpath _ hfuel hrem _
    obtain ⟨fuel, rfl⟩ := Nat.exists_eq_succ_of_ne_zero (by omega : fuel ≠ 0)
    have hzero : remaining = 0 := by simpa using hrem
    rw [readChunks, if_pos (Or.inr (Or.inr hzero)), hzero, fill_zero]
  | cons y l ih =>
    intro fuel buffer curr offset remaining hpath hne hfuel hrem hdata
    obtain ⟨fuel, rfl⟩ := Nat.exists_eq_succ_of_ne_zero (by omega : fuel ≠ 0)
    obtain ⟨rfl, hrest⟩ := hpath
    obtain ⟨hneof, hnfree⟩ := hne curr List.mem_cons_self
    rw [List.length_cons] at hfuel hrem
    rw [readChunks]
    by_cases hzero : remaining = 0
    · rw [if_pos (Or.inr (Or.inr hzero)), hzero, fill_zero]
    rw [if_neg (by simp only [hneof, hnfree, hzero, or_self, not_false_eq_true])]
    obtain ⟨chunk, hchunk, hle, hmin⟩ : ∃ chunk, (if remaining > 512 then 512 else remaining) =
        chunk ∧ chunk ≤ remaining ∧ (chunk = 512 ∨ chunk = remaining ∧ remaining ≤ 512) := by
      split_ifs with h512
      · exact ⟨512, rfl, by omega, Or.inl rfl⟩
      · exact ⟨remaining, rfl, le_refl _, Or.inr ⟨rfl, by omega⟩⟩
    simp only [hchunk]
    rw [ih hrest (fun x hx => hne x (List.mem_cons_of_mem _ hx)) (by omega) (by omega)
      (fun k hk j hj hlt => ?_)]
    · -- the first chunk and the rest make up the whole range
      congr 1
      funext x
      unfold fill
      by_cases hlow : offset ≤ x ∧ x < offset + chunk
      · have hx : s.disk curr (x - offset) = data x := by
          have := hdata 0 (by simp) (x - offset) (by omega) (by omega)
          rwa [show offset + (512 * 0 + (x - offset)) = x by omega] at this
        rw [if_neg (by omega), if_pos hlow, if_pos (by omega)]
        exact hx
      · rw [if_neg hlow]
        congr 1
        simp only [eq_iff_iff]
        omega
    · have h512 : chunk = 512 := by omega
      have := hdata (k + 1) (by simpa using hk) j hj (by omega)
      rw [h512, show offset + 512 + (512 * k + j) = offset + (512 * (k + 1) + j) by omega]
      exact this

/-! ## Calls on a name -/

section Queries

variable {s : State} {t : Tree} {path : CStr} {a : Item}

theorem kfsExists_eq (h : Rep s t) (hu : t.Unique) (hpath : 0 ∉ path) (hlen : path.length ≤ 127)
    (hne : lastName path ≠ []) (ha : t.Lookup (components path) a) :
    kfsExists s path = some 1 := by
  obtain ⟨hsplit, hfind⟩ := find_of_lookup h hu hpath hlen hne ha
  simp [kfsExists, hsplit, hfind]

theorem kfsGetFileSize_eq (h : Rep s t) (hu : t.Unique) (hpath : 0 ∉ path)
    (hlen : path.length ≤ 127) (hne : lastName path ≠ []) (ha : t.Lookup (components path) a) :
    kfsGetFileSize s path = some a.entry.sizeBytes := by
  obtain ⟨hsplit, hfind⟩ := find_of_lookup h hu hpath hlen hne ha
  simp [kfsGetFileSize, hsplit, hfind]

theorem kfsReadToBuffer_eq (h : Rep s t) (hu : t.Unique) (hpath : 0 ∉ path)
    (hlen : path.length ≤ 127) (hne : lastName path ≠ []) (ha : t.Lookup (components path) a)
    (hfile : a.entry.flags = flagFile) {data : Nat → UInt8} (hdata : Contents s t a data)
    (buffer : Mem) {capacity : Nat} (hcap : a.entry.sizeBytes ≤ capacity) :
    kfsReadToBuffer s path buffer capacity =
      some (1, fill buffer 0 a.entry.sizeBytes data) := by
  obtain ⟨hsplit, hfind⟩ := find_of_lookup h hu hpath hlen hne ha
  have hchain := h.chains _ (Tree.isHead_of_mem ha.1)
  obtain ⟨hwalk, -⟩ := hchain.walkable h.geometry
  have hlength := h.ok.length a ha.1 hfile
  unfold chainLength at hlength
  have hfuel : (t.chain a.entry.startSector).length < copyFuel a.entry.sizeBytes := by
    unfold copyFuel
    omega
  have hroom : a.entry.sizeBytes ≤ 512 * (t.chain a.entry.startSector).length := by omega
  have hrun := @readChunks_eq s data _ _ buffer _ 0 _ hchain.path hwalk hfuel hroom
    fun k hk j hj hlt => by rw [Nat.zero_add]; exact hdata k hk j hj hlt
  simp [kfsReadToBuffer, hsplit, hfind, hcap, hrun]

end Queries

/-! ## Runs that create short names -/

/-- What the call creates has a name that fits its entry. -/
def ShortCreate (_ : State) : Op → Prop
  | .createFile path _ _ => (lastName path).length ≤ 22
  | .createFolder path => (lastName path).length ≤ 22
  | .deleteFile _ => True

/-- What a call leaves of the tree: the folders, all items it does not delete by their name,
and the contents of the files. -/
structure Preserved (s : State) (t : Tree) (op : Op) (s' : State) (t' : Tree) : Prop where
  rep : Rep s' t'
  unique : t'.Unique
  root : t'.root = t.root
  kept : Kept s s' t t'
  folders : ∀ a ∈ t.items, a.entry.flags = flagFolder → a ∈ t'.items
  items : ∀ a ∈ t.items, a ∈ t'.items ∨ ∃ path, op = .deleteFile path ∧
    splitLast s path = some (some (a.dir, lastName path)) ∧
    storedName a.entry.filename = lastName path

section Step

variable {s s' : State} {t t' : Tree} {op : Op}

theorem Refused.preserved (h : Refused s t s') (hu : t.Unique) : Preserved s t op s' t :=
  ⟨h.rep, hu, rfl, h.kept, fun _ ha _ => ha, fun _ ha => Or.inl ha⟩

theorem Added.stored_eq {name : CStr} {a : Item} (h : Added s t name s' t' a)
    (hshort : name.length ≤ 22) : storedName a.entry.filename = name := by
  rw [h.stored, List.take_of_length_le hshort]

theorem Added.mono {name : CStr} {a b : Item} (h : Added s t name s' t' a) (hb : b ∈ t.items) :
    b ∈ t'.items := by
  rw [h.items]
  exact Finset.mem_insert_of_mem hb

theorem Added.unique {name : CStr} {a : Item} (h : Added s t name s' t' a) (hu : t.Unique)
    (hshort : name.length ≤ 22) : t'.Unique := by
  refine hu.insert h.items ?_
  rw [h.stored_eq hshort]
  exact h.absent

theorem Added.preserved {name : CStr} {a : Item} (h : Added s t name s' t' a) (hu : t.Unique)
    (hshort : name.length ≤ 22) : Preserved s t op s' t' :=
  ⟨h.rep, h.unique hu hshort, h.root, h.kept, fun _ hb _ => h.mono hb,
    fun _ hb => Or.inl (h.mono hb)⟩

theorem Removed.preserved {a : Item} {path : CStr} (h : Removed s t s' a) (hu : t.Unique)
    (hsplit : splitLast s path = some (some (a.dir, lastName path)))
    (hname : storedName a.entry.filename = lastName path) :
    Preserved s t (.deleteFile path) s' (t.erase a) := by
  refine ⟨h.rep, hu.mono (Finset.erase_subset a t.items), rfl, h.kept, fun b hb hbf => ?_,
    fun b hb => ?_⟩
  · refine Finset.mem_erase.mpr ⟨?_, hb⟩
    rintro rfl
    rw [h.file] at hbf
    exact absurd hbf (by decide)
  · by_cases hba : b = a
    · subst hba
      exact Or.inr ⟨path, rfl, hsplit, hname⟩
    · exact Or.inl (Finset.mem_erase.mpr ⟨hba, hb⟩)

theorem exec_preserved {drive : Drive} (h : Rep s t) (hu : t.Unique) {noise : Noise}
    (hv : op.Valid) (hshort : ShortCreate s op) {out : Outcome}
    (hrun : exec drive noise s op = some out) : ∃ t', Preserved s t op out.state t' := by
  cases op with
  | createFile path data size =>
    obtain ⟨out', hrun', ⟨_, href, _⟩ | ⟨_, t', _, hadd, _⟩⟩ :=
      kfsCreateFile_cases h drive noise.fat noise.stack hv.1 data hv.2
    all_goals
      obtain rfl := Option.some.inj (hrun'.symm.trans hrun)
    · exact ⟨t, href.preserved hu⟩
    · exact ⟨t', hadd.preserved hu hshort⟩
  | createFolder path =>
    obtain ⟨out', hrun', ⟨_, href, _⟩ | ⟨_, t', _, hadd, _⟩⟩ :=
      kfsCreateFolder_cases h noise.stack hv
    all_goals
      obtain rfl := Option.some.inj (hrun'.symm.trans hrun)
    · exact ⟨t, href.preserved hu⟩
    · exact ⟨t', hadd.preserved hu hshort⟩
  | deleteFile path =>
    obtain ⟨out', hrun', hsame | ⟨a, hrem, hsplit, hname⟩⟩ := kfsDeleteFile_cases h hv
    all_goals
      obtain rfl := Option.some.inj (hrun'.symm.trans hrun)
    · rw [hsame]
      exact ⟨t, (refused_refl h).preserved hu⟩
    · exact ⟨_, hrem.preserved hu hsplit hname⟩

end Step

theorem reach_unique {drive : Drive} (hroom : drive.HasRoom) {s : State}
    (h : Reach drive ShortCreate s) : ∃ t, Rep s t ∧ t.Unique := by
  induction h with
  | format stale s =>
    refine ⟨_, format_rep hroom stale s, ?_⟩
    exact fun a ha => absurd ha (Finset.notMem_empty a)
  | step noise _ hv hp hrun ih =>
    obtain ⟨t, ht, hu⟩ := ih
    obtain ⟨t', ht'⟩ := exec_preserved ht hu hv hp hrun
    exact ⟨t', ht'.rep, ht'.unique⟩

/-! ## Later calls -/

/-- The call does not delete what the components `cs` name, and creates short names only. -/
def Spares (cs : List CStr) : Op → Prop
  | .createFile path _ _ => (lastName path).length ≤ 22
  | .createFolder path => (lastName path).length ≤ 22
  | .deleteFile path => path.length ≤ 63 ∧ components path ≠ cs

/-- The states that calls which spare `cs` lead to. -/
inductive Later (drive : Drive) (cs : List CStr) (s : State) : State → Prop
  | refl : Later drive cs s s
  | step {s' : State} {op : Op} {out : Outcome} (noise : Noise) (h : Later drive cs s s')
      (hv : op.Valid) (hp : Spares cs op) (hrun : exec drive noise s' op = some out) :
      Later drive cs s out.state

theorem Later.run {drive : Drive} {cs : List CStr} {noise : Noise} {s : State} :
    ∀ {ops : List Op} {s₁ s₂ : State}, Later drive cs s s₁ →
      (∀ op ∈ ops, op.Valid ∧ Spares cs op) → run drive noise s₁ ops = some s₂ →
      Later drive cs s s₂ := by
  intro ops
  induction ops with
  | nil =>
    intro s₁ s₂ h _ hrun
    cases hrun
    exact h
  | cons op ops ih =>
    intro s₁ s₂ h hops hrun
    obtain ⟨out, hout, hrest⟩ := Option.bind_eq_some_iff.mp hrun
    have hop := hops op List.mem_cons_self
    exact ih (Later.step noise h hop.1 hop.2 hout)
      (fun o ho => hops o (List.mem_cons_of_mem _ ho)) hrest

/-- An item stays under its name while no call deletes it. -/
theorem Preserved.lookup {s s' : State} {t t' : Tree} {op : Op} (h : Rep s t) (hu : t.Unique)
    (hstep : Preserved s t op s' t') {cs : List CStr} {a : Item} (ha : t.Lookup cs a)
    (hv : op.Valid) (hspare : Spares cs op) : t'.Lookup cs a := by
  rcases hstep.items a ha.1 with hmem | ⟨path, rfl, hsplit, hname⟩
  · exact ha.mono hstep.root hstep.folders hmem
  · have hlen : path.length ≤ 127 := le_trans hspare.1 (by omega)
    have ha' := lookup_of_splitLast h hu hv hlen ha.1 hsplit hname
    exact absurd (Tree.lookup_inj h.ok ha' ha) hspare.2

theorem Contents.kept {s s' : State} {t t' : Tree} {a : Item} {data : Nat → UInt8}
    (hkept : Kept s s' t t') (ha : a ∈ t.items) (ha' : a ∈ t'.items)
    (hfile : a.entry.flags = flagFile) (h : Contents s t a data) : Contents s' t' a data := by
  obtain ⟨hchain, hdisk⟩ := hkept a ha ha' hfile
  refine contents_of_chain hchain fun k hk j hj hlt => ?_
  rw [hdisk _ (List.get_mem _ _)]
  exact h k hk j hj hlt

/-- An item that the components `cs` name in `s` is named by them later, and a file still has
its contents. -/
theorem later_lookup {drive : Drive} {cs : List CStr} {s s' : State} {t : Tree} (h : Rep s t)
    (hu : t.Unique) {a : Item} (ha : t.Lookup cs a) (hlater : Later drive cs s s') :
    ∃ t', Rep s' t' ∧ t'.Unique ∧ t'.Lookup cs a ∧ ∀ data, a.entry.flags = flagFile →
      Contents s t a data → Contents s' t' a data := by
  induction hlater with
  | refl => exact ⟨t, h, hu, ha, fun _ _ hdata => hdata⟩
  | @step s₁ op out noise _ hv hp hrun ih =>
    obtain ⟨t₁, h₁, hu₁, ha₁, hc₁⟩ := ih
    have hshort : ShortCreate s₁ op := by
      cases op with
      | createFile path data size => exact hp
      | createFolder path => exact hp
      | deleteFile path => trivial
    obtain ⟨t₂, hstep⟩ := exec_preserved h₁ hu₁ hv hshort hrun
    have ha₂ := hstep.lookup h₁ hu₁ ha₁ hv hp
    refine ⟨t₂, hstep.rep, hstep.unique, ha₂, fun data hf hdata => ?_⟩
    exact (hc₁ data hf hdata).kept hstep.kept ha₁.1 ha₂.1 hf

/-! ## What a call created -/

theorem lastName_ne_nil_of_splitLast {s : State} {path : CStr} {r : Nat × CStr}
    (h : splitLast s path = some (some r)) : lastName path ≠ [] := by
  intro hname
  rw [splitLast, if_pos hname] at h
  simp at h

theorem kfsDeleteFile_ret {s : State} {path : CStr} {out : Outcome}
    (h : kfsDeleteFile s path = some out) : out.ret = 0 := (kfsDeleteFile_outcome h).1

/-- The item a call has added is named by the components of its path. -/
theorem Added.lookup {s s' : State} {t t' : Tree} {path : CStr} {a : Item}
    (hadd : Added s t (lastName path) s' t' a) (h : Rep s t) (hu : t.Unique) (hpath : 0 ∉ path)
    (hlen : path.length ≤ 127) (hshort : (lastName path).length ≤ 22)
    (hsplit : splitLast s path = some (some (a.dir, lastName path))) :
    t'.Lookup (components path) a := by
  obtain ⟨_, hne, hwalk⟩ := (splitLast_iff h hu hpath).mp hsplit
  refine ⟨?_, components (parentPath path), ?_, ?_⟩
  · rw [hadd.items]
    exact Finset.mem_insert_self a t.items
  · rw [hadd.stored_eq hshort]
    exact components_eq hlen hne
  · rw [hadd.root]
    exact Tree.walk_mono (fun b hb _ => hadd.mono hb) hwalk

/-- A call that returns 1 has created what its path names. -/
theorem exec_created {drive : Drive} {s : State} {t : Tree} (h : Rep s t) (hu : t.Unique)
    {noise : Noise} {op : Op} (hv : op.Valid) (hlen : op.path.length ≤ 127)
    (hshort : ShortCreate s op) {out : Outcome} (hrun : exec drive noise s op = some out)
    (hret : out.ret = 1) : 0 ∉ op.path ∧ lastName op.path ≠ [] ∧
      ∃ t' a, Rep out.state t' ∧ t'.Unique ∧ t'.Lookup (components op.path) a := by
  have hcreated : ∀ {path t' a}, Added s t (lastName path) out.state t' a →
      splitLast s path = some (some (a.dir, lastName path)) → 0 ∉ path → path.length ≤ 127 →
      (lastName path).length ≤ 22 → 0 ∉ path ∧ lastName path ≠ [] ∧
        ∃ t' a, Rep out.state t' ∧ t'.Unique ∧ t'.Lookup (components path) a :=
    fun hadd hsplit hpath hlen hshort =>
      ⟨hpath, lastName_ne_nil_of_splitLast hsplit, _, _, hadd.rep,
        hadd.unique hu hshort,
        hadd.lookup h hu hpath hlen hshort hsplit⟩
  cases op with
  | createFile path data size =>
    obtain ⟨out', hrun', ⟨hzero, _⟩ | ⟨_, t', a, hadd, hsplit, _⟩⟩ :=
      kfsCreateFile_cases h drive noise.fat noise.stack hv.1 data hv.2
    all_goals
      obtain rfl := Option.some.inj (hrun'.symm.trans hrun)
    · rw [hret] at hzero
      exact absurd hzero (by decide)
    · exact hcreated hadd hsplit hv.1 hlen hshort
  | createFolder path =>
    obtain ⟨out', hrun', ⟨hzero, _⟩ | ⟨_, t', a, hadd, hsplit, _⟩⟩ :=
      kfsCreateFolder_cases h noise.stack hv
    all_goals
      obtain rfl := Option.some.inj (hrun'.symm.trans hrun)
    · rw [hret] at hzero
      exact absurd hzero (by decide)
    · exact hcreated hadd hsplit hv hlen hshort
  | deleteFile path =>
    have hzero := kfsDeleteFile_ret hrun
    rw [hret] at hzero
    exact absurd hzero (by decide)

/-! ## Round trip -/

/-- A file reads back as it was written, until a call deletes it. -/
theorem file_round_trip {drive : Drive} (hroom : drive.HasRoom) {s : State}
    (h : Reach drive ShortCreate s) {noise : Noise} {path : CStr} (hpath : 0 ∉ path)
    (hlen : path.length ≤ 63) (hshort : (lastName path).length ≤ 22) {data : Nat → UInt8}
    {size : Nat} (hsize : size ≤ 8 * 1024 * 1024) {out : Outcome}
    (hrun : kfsCreateFile drive noise.fat noise.stack s path data size = some out)
    (hret : out.ret = 1) {s' : State} (hlater : Later drive (components path) out.state s') :
    kfsGetFileSize s' path = some size ∧
      ∀ buffer capacity, size ≤ capacity → ∃ buffer',
        kfsReadToBuffer s' path buffer capacity = some (1, buffer') ∧
          (∀ i, i < size → buffer' i = data i) ∧ ∀ i, size ≤ i → buffer' i = buffer i := by
  obtain ⟨t, ht, hu⟩ := reach_unique hroom h
  obtain ⟨out', hrun', ⟨hzero, _⟩ | ⟨_, t', a, hadd, hsplit, hfile, hasize, hdata⟩⟩ :=
    kfsCreateFile_cases ht drive noise.fat noise.stack hpath data (le_trans hsize (by decide))
  all_goals
    obtain rfl := Option.some.inj (hrun'.symm.trans hrun)
  · rw [hret] at hzero
    exact absurd hzero (by decide)
  have hne := lastName_ne_nil_of_splitLast hsplit
  have hlen' : path.length ≤ 127 := le_trans hlen (by omega)
  have hu' : t'.Unique := hadd.unique hu hshort
  have hlook := hadd.lookup ht hu hpath hlen' hshort hsplit
  obtain ⟨t₂, ht₂, hu₂, ha₂, hc₂⟩ := later_lookup hadd.rep hu' hlook hlater
  refine ⟨?_, fun buffer capacity hcap => ?_⟩
  · rw [kfsGetFileSize_eq ht₂ hu₂ hpath hlen' hne ha₂, hasize]
  · rw [← hasize] at hcap ⊢
    refine ⟨_, kfsReadToBuffer_eq ht₂ hu₂ hpath hlen' hne ha₂ hfile (hc₂ data hfile hdata) buffer
      hcap, fun i hi => ?_, fun i hi => ?_⟩
    · rw [fill, if_pos (by omega)]
    · rw [fill, if_neg (by omega)]

/-- The file `a` of 600 bytes. -/
def smallFile : Op := .createFile [97] (fun i => UInt8.ofNat i) 600

/-- A folder, a file in it that does not fit, a file that does, and its removal. -/
def otherCalls : List Op :=
  [.createFolder [98], .createFile [98, 47, 97] (fun _ => 2) 20000,
    .createFile [98, 47, 99] (fun _ => 3) 513, .deleteFile [98, 47, 99]]

theorem otherCalls_spare : ∀ op ∈ otherCalls, op.Valid ∧ Spares (components [97]) op := by
  intro op hop
  simp only [otherCalls, List.mem_cons, List.not_mem_nil, or_false] at hop
  rcases hop with rfl | rfl | rfl | rfl
  · exact ⟨(by decide : (0 : UInt8) ∉ [98]), (by decide : (lastName [98]).length ≤ 22)⟩
  · exact ⟨⟨by decide, by decide⟩, (by decide : (lastName [98, 47, 97]).length ≤ 22)⟩
  · exact ⟨⟨by decide, by decide⟩, (by decide : (lastName [98, 47, 99]).length ≤ 22)⟩
  · exact ⟨(by decide : (0 : UInt8) ∉ [98, 47, 99]), by decide, by decide⟩

theorem file_round_trip_smallFile : ∃ out s',
    exec smallDrive noNoise (kfsFormat smallDrive (fun _ => 0) blankState) smallFile = some out ∧
      out.ret = 1 ∧ run smallDrive noNoise out.state otherCalls = some s' ∧
      kfsGetFileSize s' [97] = some 600 := by
  have hval : ((exec smallDrive noNoise (kfsFormat smallDrive (fun _ => 0) blankState)
      smallFile).bind fun out => (run smallDrive noNoise out.state otherCalls).map
        fun _ => out.ret) = some 1 := by decide +kernel
  obtain ⟨out, hout, hrest⟩ := Option.bind_eq_some_iff.mp hval
  obtain ⟨s', hs', hret⟩ := Option.map_eq_some_iff.mp hrest
  refine ⟨out, s', hout, hret, hs', ?_⟩
  have hrun : kfsCreateFile smallDrive noNoise.fat noNoise.stack
      (kfsFormat smallDrive (fun _ => 0) blankState) [97] (fun i => UInt8.ofNat i) 600 =
        some out := hout
  exact (file_round_trip smallDrive_hasRoom (Reach.format _ _) (by decide) (by decide) (by decide)
    (by decide) hrun hret (Later.refl.run otherCalls_spare hs')).1

/-! ## One entry for a name -/

/-- No directory has two entries in use under one stored name. -/
def NamesUnique (s : State) : Prop :=
  ∀ d l, ReachDir s d → Follows s d l → ∀ p q : Nat × Nat, p.1 ∈ l → q.1 ∈ l → p.2 < 16 →
    q.2 < 16 → (s.entry p).flags ≠ flagEmpty → (s.entry q).flags ≠ flagEmpty →
    storedName (s.entry p).filename = storedName (s.entry q).filename → p = q

theorem Rep.namesUnique {s : State} {t : Tree} (h : Rep s t) (hu : t.Unique) :
    NamesUnique s := by
  intro d l hd hl p q hp hq hpidx hqidx hpf hqf hname
  have hdir := h.reachDir_iff.mp hd
  rw [(h.chains d (Tree.isHead_of_isDir hdir)).eq_of_follows h.geometry hl] at hp hq
  have hpmem : (⟨d, p, s.entry p⟩ : Item) ∈ t.items :=
    (h.mem_iff _).mpr ⟨hdir, hp, hpidx, rfl, hpf⟩
  have hqmem : (⟨d, q, s.entry q⟩ : Item) ∈ t.items :=
    (h.mem_iff _).mpr ⟨hdir, hq, hqidx, rfl, hqf⟩
  exact congrArg Item.slot (hu _ hpmem _ hqmem rfl hname)

/-- In every run that creates short names only, no directory has a name twice, and what a call
created under a path is there until a call deletes it. -/
theorem names_unique {drive : Drive} (hroom : drive.HasRoom) {s : State}
    (h : Reach drive ShortCreate s) :
    NamesUnique s ∧ ∀ noise op out, op.Valid → op.path.length ≤ 63 → ShortCreate s op →
      exec drive noise s op = some out → out.ret = 1 →
      ∀ s', Later drive (components op.path) out.state s' → kfsExists s' op.path = some 1 := by
  obtain ⟨t, ht, hu⟩ := reach_unique hroom h
  refine ⟨ht.namesUnique hu, fun noise op out hv hlen hshort hrun hret s' hlater => ?_⟩
  have hlen' : op.path.length ≤ 127 := le_trans hlen (by omega)
  obtain ⟨hpath, hne, t', a, ht', hu', ha⟩ := exec_created ht hu hv hlen' hshort hrun hret
  obtain ⟨t₂, ht₂, hu₂, ha₂, _⟩ := later_lookup ht' hu' ha hlater
  exact kfsExists_eq ht₂ hu₂ hpath hlen' hne ha₂

theorem names_unique_smallFile : ∃ out s',
    exec smallDrive noNoise (kfsFormat smallDrive (fun _ => 0) blankState) smallFile = some out ∧
      out.ret = 1 ∧ run smallDrive noNoise out.state otherCalls = some s' ∧
      kfsExists s' [97] = some 1 := by
  have hval : ((exec smallDrive noNoise (kfsFormat smallDrive (fun _ => 0) blankState)
      smallFile).bind fun out => (run smallDrive noNoise out.state otherCalls).map
        fun _ => out.ret) = some 1 := by decide +kernel
  obtain ⟨out, hout, hrest⟩ := Option.bind_eq_some_iff.mp hval
  obtain ⟨s', hs', hret⟩ := Option.map_eq_some_iff.mp hrest
  refine ⟨out, s', hout, hret, hs', ?_⟩
  exact (names_unique smallDrive_hasRoom (Reach.format _ _)).2 noNoise smallFile out
    ⟨by decide, by decide⟩ (by decide) (by decide : (lastName [97]).length ≤ 22) hout hret s'
    (Later.refl.run otherCalls_spare hs')

/-- A name of 23 bytes. -/
def longName : CStr := List.replicate 23 97

/-- Both calls return 1, then two entries of the root directory have the same stored name and
the path does not exist. -/
theorem long_name_twice : ∃ out₁ out₂,
    exec smallDrive noNoise (kfsFormat smallDrive (fun _ => 0) blankState)
        (.createFile longName (fun _ => 1) 10) = some out₁ ∧ out₁.ret = 1 ∧
      exec smallDrive noNoise out₁.state (.createFile longName (fun _ => 2) 10) = some out₂ ∧
      out₂.ret = 1 ∧ kfsExists out₁.state longName = some 0 ∧ ¬ NamesUnique out₂.state := by
  have hval : ((exec smallDrive noNoise (kfsFormat smallDrive (fun _ => 0) blankState)
      (.createFile longName (fun _ => 1) 10)).bind fun out₁ =>
        (exec smallDrive noNoise out₁.state (.createFile longName (fun _ => 2) 10)).map fun out₂ =>
          decide (out₁.ret = 1 ∧ kfsExists out₁.state longName = some 0 ∧ out₂.ret = 1 ∧
            out₂.state.currentFs.rootDirSector = 2 ∧ out₂.state.fatTable 2 = fatEof ∧
            (out₂.state.entry (2, 0)).flags = flagFile ∧
            (out₂.state.entry (2, 1)).flags = flagFile ∧
            storedName (out₂.state.entry (2, 0)).filename =
              storedName (out₂.state.entry (2, 1)).filename)) = some true := by
    decide +kernel
  obtain ⟨out₁, hout₁, hrest⟩ := Option.bind_eq_some_iff.mp hval
  obtain ⟨out₂, hout₂, hfields⟩ := Option.map_eq_some_iff.mp hrest
  obtain ⟨hret₁, hexists, hret₂, hroot, hfat, hf₀, hf₁, hname⟩ := of_decide_eq_true hfields
  refine ⟨out₁, out₂, hout₁, hret₁, hout₂, hret₂, hexists, fun huniq => ?_⟩
  have hdir : ReachDir out₂.state 2 := hroot ▸ ReachDir.root
  have hfollows : Follows out₂.state 2 [2] := ⟨⟨rfl, hfat⟩, by decide⟩
  have heq := huniq 2 [2] hdir hfollows (2, 0) (2, 1) (by decide) (by decide) (by decide)
    (by decide) (by rw [hf₀]; decide) (by rw [hf₁]; decide) hname
  exact absurd heq (by decide)

end Kyuzen.Kfs
