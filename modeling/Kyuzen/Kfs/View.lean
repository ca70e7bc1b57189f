import Kyuzen.Kfs.Files

/-!
# The file system as a map

`fileAt` is what a path names at one moment: the kind of the object and, of a file, all of its
bytes, as `kfs_read_to_buffer` delivers them. The three queries read it (`kfsExists_fileAt`,
`kfsGetFileSize_fileAt`, `kfsReadToBuffer_fileAt`), and the calls that change the disk change it
at the path of the call only (`exec_fileAt`).
-/

namespace Kyuzen.Kfs

open Lib.Memory

/-- What a path names. -/
structure File where
  flags : UInt8
  content : List UInt8
  deriving DecidableEq

/-- The entry that a path names. -/
def entryOf (s : State) (path : CStr) : Option Entry :=
  match splitLast s path with
  | some (some (d, name)) => (findEntryIn s d name).bind fun found => found.map fun r => r.1
  | _ => none

/-- The bytes of an object, as the copy loop of `kfs_read_to_buffer` collects them. -/
def contentOf (s : State) (e : Entry) : List UInt8 :=
  match readChunks s (copyFuel e.sizeBytes) (fun _ => 0) e.startSector 0 e.sizeBytes with
  | some b => (List.range e.sizeBytes).map b
  | none => []

def fileAt (s : State) (path : CStr) : Option File :=
  (entryOf s path).map fun e => ⟨e.flags, contentOf s e⟩

/-- A path that the calls resolve as it is written. -/
def Resolvable (path : CStr) : Prop := 0 ∉ path ∧ path.length ≤ 127

/-- The disk represents a tree, in which a folder has size 0. -/
structure Sound (s : State) (t : Tree) : Prop where
  rep : Rep s t
  folder : ∀ a ∈ t.items, a.entry.flags = flagFolder → a.entry.sizeBytes = 0

/-- A file system in which every name is found: no directory holds a name twice. -/
structure Fs (s : State) (t : Tree) : Prop extends Sound s t where
  unique : t.Unique

variable {s s' : State} {t t' : Tree} {path : CStr} {a : Item}

/-! ## Queries -/

/-- The two lookups that every query makes: they find an item, or there is nothing. -/
theorem entryOf_cases (h : Rep s t) (hp : 0 ∉ path) :
    (∃ a ∈ t.items, entryOf s path = some a.entry ∧
        splitLast s path = some (some (a.dir, lastName path)) ∧
        findEntryIn s a.dir (lastName path) = some (some (a.entry, a.slot.1, a.slot.2)) ∧
        storedName a.entry.filename = lastName path) ∨
      entryOf s path = none ∧ (splitLast s path = some none ∨
        ∃ d, splitLast s path = some (some (d, lastName path)) ∧
          findEntryIn s d (lastName path) = some none) := by
  rcases splitLast_cases h hp with hsplit | ⟨d, hd, _, hsplit⟩
  · exact Or.inr ⟨by simp [entryOf, hsplit], Or.inl hsplit⟩
  · rcases findEntryIn_cases h hd (nul_notMem_lastName hp) with
      ⟨a, ha, hdir, hname, hfind⟩ | ⟨hfind, habsent⟩
    · subst hdir
      exact Or.inl ⟨a, ha, by simp [entryOf, hsplit, hfind], hsplit, hfind, hname⟩
    · exact Or.inr ⟨by simp [entryOf, hsplit, hfind], Or.inr ⟨d, hsplit, hfind⟩⟩

theorem kfsExists_fileAt (h : Rep s t) (hp : 0 ∉ path) :
    kfsExists s path = some (if (fileAt s path).isSome then 1 else 0) := by
  unfold fileAt
  rcases entryOf_cases h hp with
    ⟨a, _, hentry, hsplit, hfind, _⟩ | ⟨hnone, hsplit | ⟨d, hsplit, hfind⟩⟩
  · simp [hentry, kfsExists, hsplit, hfind]
  · simp [hnone, kfsExists, hsplit]
  · simp [hnone, kfsExists, hsplit, hfind]

theorem contentOf_of_contents (h : Rep s t) (ha : a ∈ t.items) (hfile : a.entry.flags = flagFile)
    {data : Nat → UInt8} (hdata : Contents s t a data) (buffer : Mem) :
    readChunks s (copyFuel a.entry.sizeBytes) buffer a.entry.startSector 0 a.entry.sizeBytes =
      some (fill buffer 0 a.entry.sizeBytes data) := by
  have hchain := h.chains _ (Tree.isHead_of_mem ha)
  obtain ⟨hwalk, -⟩ := hchain.walkable h.geometry
  have hlen := h.ok.length a ha hfile
  unfold chainLength at hlen
  have hfuel : (t.chain a.entry.startSector).length < copyFuel a.entry.sizeBytes := by
    unfold copyFuel
    omega
  have hroom : a.entry.sizeBytes ≤ 512 * (t.chain a.entry.startSector).length := by omega
  exact readChunks_eq hchain.path hwalk hfuel hroom fun k hk j hj hlt => by
    rw [Nat.zero_add]
    exact hdata k hk j hj hlt

theorem contentOf_eq (h : Rep s t) (ha : a ∈ t.items) (hfile : a.entry.flags = flagFile)
    {data : Nat → UInt8} (hdata : Contents s t a data) :
    contentOf s a.entry = (List.range a.entry.sizeBytes).map data := by
  unfold contentOf
  rw [contentOf_of_contents h ha hfile hdata]
  refine List.map_congr_left fun i hi => ?_
  rw [fill, if_pos ⟨Nat.zero_le i, by simpa using hi⟩]

theorem contentOf_folder (h : Sound s t) (ha : a ∈ t.items) (hf : a.entry.flags = flagFolder) :
    contentOf s a.entry = [] := by
  unfold contentOf
  rw [h.folder a ha hf]
  split <;> rfl

/-- The bytes of an item, along its chain. -/
def chainBytes (s : State) (l : List Nat) (i : Nat) : UInt8 := s.disk (l.getD (i / 512) 0) (i % 512)

theorem contents_chainBytes (s : State) (t : Tree) (a : Item) :
    Contents s t a (chainBytes s (t.chain a.entry.startSector)) := by
  intro k hk j hj _
  have h1 : (512 * k + j) / 512 = k := by omega
  have h2 : (512 * k + j) % 512 = j := by omega
  rw [chainBytes, h1, h2, List.getD_eq_getElem?_getD, List.getElem?_eq_getElem hk]
  rfl

theorem contentOf_length (h : Sound s t) (ha : a ∈ t.items) :
    (contentOf s a.entry).length = a.entry.sizeBytes := by
  rcases h.rep.ok.flags a ha with hfile | hf
  · rw [contentOf_eq h.rep ha hfile (contents_chainBytes s t a), List.length_map,
      List.length_range]
  · rw [contentOf_folder h ha hf, h.folder a ha hf]
    rfl

theorem kfsGetFileSize_fileAt (h : Sound s t) (hp : 0 ∉ path) :
    kfsGetFileSize s path = some ((fileAt s path).elim 0 fun f => f.content.length) := by
  unfold fileAt
  rcases entryOf_cases h.rep hp with
    ⟨a, ha, hentry, hsplit, hfind, _⟩ | ⟨hnone, hsplit | ⟨d, hsplit, hfind⟩⟩
  · simp [hentry, kfsGetFileSize, hsplit, hfind, contentOf_length h ha]
  · simp [hnone, kfsGetFileSize, hsplit]
  · simp [hnone, kfsGetFileSize, hsplit, hfind]

/-- The first bytes of a buffer. -/
def prefixOf (b : Mem) (n : Nat) : List UInt8 := (List.range n).map b

@[simp] theorem length_prefixOf (b : Mem) (n : Nat) : (prefixOf b n).length = n := by
  rw [prefixOf, List.length_map, List.length_range]

theorem getElem?_prefixOf (b : Mem) {n i : Nat} (hi : i < n) : (prefixOf b n)[i]? = some (b i) := by
  rw [prefixOf, List.getElem?_map, List.getElem?_range hi]
  rfl

/-- The copy puts the whole content into the buffer, and leaves the rest of the buffer. -/
theorem kfsReadToBuffer_fileAt (h : Sound s t) (hp : 0 ∉ path) (buffer : Mem) (capacity : Nat) :
    match fileAt s path with
    | none => kfsReadToBuffer s path buffer capacity = some (0, buffer)
    | some f =>
      if capacity < f.content.length then kfsReadToBuffer s path buffer capacity = some (0, buffer)
      else ∃ b, kfsReadToBuffer s path buffer capacity = some (1, b) ∧
        prefixOf b f.content.length = f.content ∧ ∀ i, f.content.length ≤ i → b i = buffer i := by
  unfold fileAt
  rcases entryOf_cases h.rep hp with
    ⟨a, ha, hentry, hsplit, hfind, _⟩ | ⟨hnone, hsplit | ⟨d, hsplit, hfind⟩⟩
  · rw [hentry]
    dsimp only [Option.map_some]
    rw [contentOf_length h ha]
    split_ifs with hcap
    · simp [kfsReadToBuffer, hsplit, hfind, hcap]
    · rcases h.rep.ok.flags a ha with hfile | hf
      · have hrun := contentOf_of_contents h.rep ha hfile (contents_chainBytes s t a) buffer
        refine ⟨fill buffer 0 a.entry.sizeBytes (chainBytes s (t.chain a.entry.startSector)),
          by simp [kfsReadToBuffer, hsplit, hfind, hcap, hrun], ?_, fun i hi => ?_⟩
        · rw [contentOf_eq h.rep ha hfile (contents_chainBytes s t a)]
          refine List.map_congr_left fun i hi => ?_
          rw [fill, if_pos ⟨Nat.zero_le i, by simpa using hi⟩]
        · rw [fill, if_neg (by omega)]
      · have hzero := h.folder a ha hf
        have hrun : readChunks s (copyFuel 0) buffer a.entry.startSector 0 0 = some buffer := by
          rw [copyFuel, readChunks, if_pos (Or.inr (Or.inr rfl))]
        rw [contentOf_folder h ha hf, hzero]
        refine ⟨buffer, by simp [kfsReadToBuffer, hsplit, hfind, hzero, hrun], rfl, fun _ _ => rfl⟩
  · simp [hnone, kfsReadToBuffer, hsplit]
  · simp [hnone, kfsReadToBuffer, hsplit, hfind]

/-! ## Calls that change the disk -/

theorem Added.sound {name : CStr} (hadd : Added s t name s' t' a) (h : Sound s t)
    (hfolder : a.entry.flags = flagFolder → a.entry.sizeBytes = 0) : Sound s' t' := by
  refine ⟨hadd.rep, fun b hb hf => ?_⟩
  rw [hadd.items] at hb
  rcases Finset.mem_insert.mp hb with rfl | hb
  · exact hfolder hf
  · exact h.folder b hb hf

theorem Removed.sound (hrem : Removed s t s' a) (h : Sound s t) : Sound s' (t.erase a) :=
  ⟨hrem.rep, fun b hb => h.folder b (Finset.mem_of_mem_erase hb)⟩

theorem Refused.fs (href : Refused s t s') (h : Fs s t) : Fs s' t :=
  ⟨⟨href.rep, h.folder⟩, h.unique⟩

theorem Added.fs {name : CStr} (hadd : Added s t name s' t' a) (h : Fs s t)
    (hshort : name.length ≤ 22) (hfolder : a.entry.flags = flagFolder → a.entry.sizeBytes = 0) :
    Fs s' t' := by
  refine ⟨hadd.sound h.toSound hfolder, h.unique.insert hadd.items ?_⟩
  rw [hadd.stored_eq hshort]
  exact hadd.absent

theorem Removed.fs (hrem : Removed s t s' a) (h : Fs s t) : Fs s' (t.erase a) :=
  ⟨hrem.sound h.toSound, h.unique.mono (Finset.erase_subset a t.items)⟩

theorem entryOf_of_lookup (h : Fs s t) (hp : Resolvable path) (hne : lastName path ≠ [])
    (ha : t.Lookup (components path) a) : entryOf s path = some a.entry := by
  obtain ⟨hsplit, hfind⟩ := find_of_lookup h.rep h.unique hp.1 hp.2 hne ha
  simp [entryOf, hsplit, hfind]

/-- A path names an item, or nothing. -/
theorem entryOf_lookup (h : Fs s t) (hp : Resolvable path) :
    (∃ a, t.Lookup (components path) a ∧ lastName path ≠ [] ∧ entryOf s path = some a.entry) ∨
      entryOf s path = none ∧ ¬ (lastName path ≠ [] ∧ ∃ a, t.Lookup (components path) a) := by
  by_cases hlook : lastName path ≠ [] ∧ ∃ a, t.Lookup (components path) a
  · obtain ⟨hne, a, ha⟩ := hlook
    exact Or.inl ⟨a, ha, hne, entryOf_of_lookup h hp hne ha⟩
  · rcases entryOf_cases h.rep hp.1 with ⟨a, ha, _, hsplit, _, hname⟩ | ⟨hnone, _⟩
    · exact absurd ⟨lastName_ne_nil_of_splitLast hsplit, a,
        lookup_of_splitLast h.rep h.unique hp.1 hp.2 ha hsplit hname⟩ hlook
    · exact Or.inr ⟨hnone, hlook⟩

/-- What a path names depends on the item it leads to and on the sectors of that item. -/
theorem fileAt_congr (h : Fs s t) (h' : Fs s' t') (hkept : Kept s s' t t') (hp : Resolvable path)
    (hlook : ∀ a, t'.Lookup (components path) a ↔ t.Lookup (components path) a) :
    fileAt s' path = fileAt s path := by
  unfold fileAt
  rcases entryOf_lookup h hp with ⟨a, ha, hne, hentry⟩ | ⟨hnone, hno⟩
  · have ha' := (hlook a).mpr ha
    rw [hentry, entryOf_of_lookup h' hp hne ha', Option.map_some, Option.map_some]
    rcases h.rep.ok.flags a ha.1 with hfile | hf
    · have hbytes := contents_chainBytes s t a
      rw [contentOf_eq h.rep ha.1 hfile hbytes,
        contentOf_eq h'.rep ha'.1 hfile (hbytes.kept hkept ha.1 ha'.1 hfile)]
    · rw [contentOf_folder h.toSound ha.1 hf, contentOf_folder h'.toSound ha'.1 hf]
  · rcases entryOf_lookup h' hp with ⟨a, ha, hne, _⟩ | ⟨hnone', _⟩
    · exact absurd ⟨hne, a, (hlook a).mp ha⟩ hno
    · rw [hnone, hnone']
      rfl

/-- A new object starts where no directory did. -/
theorem Added.not_isDir {name : CStr} (hadd : Added s t name s' t' a) :
    ¬ t.IsDir a.entry.startSector := by
  have hmem : a ∈ t'.items := hadd.items ▸ Finset.mem_insert_self a t.items
  rintro (hroot | ⟨b, hb, _, hstart⟩)
  · exact hadd.rep.ok.start_ne a hmem (hroot.trans hadd.root.symm)
  · have hba := hadd.rep.ok.inj b (hadd.mono hb) a hmem hstart
    exact hadd.notMem (hba ▸ hb)

/-- No walk between old directories goes through a new object. -/
theorem Added.walk {name : CStr} (hadd : Added s t name s' t' a) (h : Rep s t) :
    ∀ {ns : List CStr} {d d' : Nat}, t.IsDir d' → t'.Walk d ns d' → t.Walk d ns d' := by
  have hdir : ∀ b ∈ t'.items, t.IsDir b.dir := by
    intro b hb
    rw [hadd.items] at hb
    rcases Finset.mem_insert.mp hb with rfl | hb
    · exact hadd.dir
    · exact ((h.mem_iff b).mp hb).1
  intro ns
  induction ns with
  | nil => exact fun _ hwalk => hwalk
  | cons n ns ih =>
    rintro d d' hd' ⟨b, hb, hbd, hbn, hbf, hrest⟩
    rw [hadd.items] at hb
    rcases Finset.mem_insert.mp hb with rfl | hb
    · -- the next step would start in the new folder, which is empty
      refine absurd ?_ hadd.not_isDir
      cases ns with
      | nil =>
        have hstart : b.entry.startSector = d' := hrest
        rwa [hstart]
      | cons m ns =>
        obtain ⟨c, hc, hcd, _⟩ := hrest
        exact hcd ▸ hdir c hc
    · exact ⟨b, hb, hbd, hbn, hbf, ih hd' hrest⟩

theorem Added.lookup_iff (hadd : Added s t (lastName path) s' t' a) (h : Fs s t)
    (hp : Resolvable path) (hshort : (lastName path).length ≤ 22)
    (hsplit : splitLast s path = some (some (a.dir, lastName path))) {cs : List CStr}
    (hcs : cs ≠ components path) (b : Item) : t'.Lookup cs b ↔ t.Lookup cs b := by
  constructor
  · intro hb
    have hbt : b ∈ t.items := by
      have hmem := hb.1
      rw [hadd.items] at hmem
      refine (Finset.mem_insert.mp hmem).resolve_left ?_
      rintro rfl
      exact hcs (Tree.lookup_inj hadd.rep.ok hb
        (hadd.lookup h.rep h.unique hp.1 hp.2 hshort hsplit))
    obtain ⟨_, ns, hns, hwalk⟩ := hb
    rw [hadd.root] at hwalk
    exact ⟨hbt, ns, hns, hadd.walk h.rep ((h.rep.mem_iff b).mp hbt).1 hwalk⟩
  · exact fun hb => hb.mono hadd.root (fun c hc _ => hadd.mono hc) (hadd.mono hb.1)

theorem Removed.lookup_iff (hrem : Removed s t s' a) (h : Fs s t) (hp : Resolvable path)
    (hsplit : splitLast s path = some (some (a.dir, lastName path)))
    (hname : storedName a.entry.filename = lastName path) {cs : List CStr}
    (hcs : cs ≠ components path) (b : Item) : (t.erase a).Lookup cs b ↔ t.Lookup cs b := by
  constructor
  · exact fun hb => hb.mono rfl (fun c hc _ => Finset.mem_of_mem_erase hc)
      (Finset.mem_of_mem_erase hb.1)
  · intro hb
    refine hb.mono rfl (fun c hc hcf => Finset.mem_erase.mpr ⟨?_, hc⟩)
      (Finset.mem_erase.mpr ⟨?_, hb.1⟩)
    · rintro rfl
      rw [hrem.file] at hcf
      exact absurd hcf (by decide)
    · rintro rfl
      exact hcs (Tree.lookup_inj h.rep.ok hb
        (lookup_of_splitLast h.rep h.unique hp.1 hp.2 hb.1 hsplit hname))

/-- A call leaves a file system, and changes only what its own path names. -/
theorem exec_fileAt {drive : Drive} {noise : Noise} {op : Op} (h : Fs s t) (hv : op.Valid)
    (hshort : ShortCreate s op) {out : Outcome} (hrun : exec drive noise s op = some out) :
    ∃ t', Fs out.state t' ∧ (op.path.length ≤ 127 → ∀ q, Resolvable q →
      components q ≠ components op.path → fileAt out.state q = fileAt s q) := by
  cases op with
  | createFile path data size =>
    obtain ⟨out', hrun', ⟨_, href, _⟩ | ⟨_, t', a, hadd, hsplit, hfile, _⟩⟩ :=
      kfsCreateFile_cases h.rep drive noise.fat noise.stack hv.1 data hv.2
    all_goals
      obtain rfl := Option.some.inj (hrun'.symm.trans hrun)
    · have h' := href.fs h
      exact ⟨t, h', fun _ q hq _ => fileAt_congr h h' href.kept hq fun _ => Iff.rfl⟩
    · have h' : Fs out'.state t' := hadd.fs h hshort fun hf => by
        rw [hfile] at hf
        exact absurd hf (by decide)
      exact ⟨t', h', fun hlen q hq hne => fileAt_congr h h' hadd.kept hq
        (hadd.lookup_iff h ⟨hv.1, hlen⟩ hshort hsplit hne)⟩
  | createFolder path =>
    obtain ⟨out', hrun', ⟨_, href, _⟩ | ⟨_, t', a, hadd, hsplit, _, hzero⟩⟩ :=
      kfsCreateFolder_cases h.rep noise.stack hv
    all_goals
      obtain rfl := Option.some.inj (hrun'.symm.trans hrun)
    · have h' := href.fs h
      exact ⟨t, h', fun _ q hq _ => fileAt_congr h h' href.kept hq fun _ => Iff.rfl⟩
    · have h' : Fs out'.state t' := hadd.fs h hshort fun _ => hzero
      exact ⟨t', h', fun hlen q hq hne => fileAt_congr h h' hadd.kept hq
        (hadd.lookup_iff h ⟨hv, hlen⟩ hshort hsplit hne)⟩
  | deleteFile path =>
    obtain ⟨out', hrun', hsame | ⟨a, hrem, hsplit, hname⟩⟩ := kfsDeleteFile_cases h.rep hv
    all_goals
      obtain rfl := Option.some.inj (hrun'.symm.trans hrun)
    · rw [hsame]
      exact ⟨t, h, fun _ _ _ _ => rfl⟩
    · exact ⟨_, hrem.fs h, fun hlen q hq hne => fileAt_congr h (hrem.fs h) hrem.kept hq
        (hrem.lookup_iff h ⟨hv, hlen⟩ hsplit hname hne)⟩

/-- A file that was stored is there with its bytes. -/
theorem kfsCreateFile_fileAt {drive : Drive} {noise : Noise} (h : Fs s t) (hp : Resolvable path)
    (hshort : (lastName path).length ≤ 22) {data : Mem} {size : Nat} (hsize : size ≤ 0xFFFFFE00)
    {out : Outcome} (hrun : kfsCreateFile drive noise.fat noise.stack s path data size = some out)
    (hret : out.ret = 1) : fileAt out.state path = some ⟨flagFile, prefixOf data size⟩ := by
  obtain ⟨out', hrun', ⟨hzero, _⟩ | ⟨_, t', a, hadd, hsplit, hfile, hasize, hdata⟩⟩ :=
    kfsCreateFile_cases h.rep drive noise.fat noise.stack hp.1 data hsize
  all_goals
    obtain rfl := Option.some.inj (hrun'.symm.trans hrun)
  · rw [hret] at hzero
    exact absurd hzero (by decide)
  have h' : Fs out'.state t' := hadd.fs h hshort fun hf => by
    rw [hfile] at hf
    exact absurd hf (by decide)
  have hlook := hadd.lookup h.rep h.unique hp.1 hp.2 hshort hsplit
  rw [fileAt, entryOf_of_lookup h' hp (lastName_ne_nil_of_splitLast hsplit) hlook,
    Option.map_some, contentOf_eq h'.rep hlook.1 hfile hdata, hfile, hasize, prefixOf]

/-! ## Runs -/

theorem format_fs {drive : Drive} (hroom : drive.HasRoom) (stale : Nat → UInt32) (s : State) :
    Fs (kfsFormat drive stale s) (freshTree drive) :=
  ⟨⟨format_rep hroom stale s, fun a ha => absurd ha (Finset.notMem_empty a)⟩,
    fun a ha => absurd ha (Finset.notMem_empty a)⟩

theorem exec_sound {drive : Drive} {noise : Noise} {op : Op} (h : Sound s t) (hv : op.Valid)
    {out : Outcome} (hrun : exec drive noise s op = some out) : ∃ t', Sound out.state t' := by
  cases op with
  | createFile path data size =>
    obtain ⟨out', hrun', ⟨_, href, _⟩ | ⟨_, t', a, hadd, _, hfile, _⟩⟩ :=
      kfsCreateFile_cases h.rep drive noise.fat noise.stack hv.1 data hv.2
    all_goals
      obtain rfl := Option.some.inj (hrun'.symm.trans hrun)
    · exact ⟨t, href.rep, h.folder⟩
    · refine ⟨t', hadd.sound h fun hf => ?_⟩
      rw [hfile] at hf
      exact absurd hf (by decide)
  | createFolder path =>
    obtain ⟨out', hrun', ⟨_, href, _⟩ | ⟨_, t', a, hadd, _, _, hzero⟩⟩ :=
      kfsCreateFolder_cases h.rep noise.stack hv
    all_goals
      obtain rfl := Option.some.inj (hrun'.symm.trans hrun)
    · exact ⟨t, href.rep, h.folder⟩
    · exact ⟨t', hadd.sound h fun _ => hzero⟩
  | deleteFile path =>
    obtain ⟨out', hrun', hsame | ⟨a, hrem, _⟩⟩ := kfsDeleteFile_cases h.rep hv
    all_goals
      obtain rfl := Option.some.inj (hrun'.symm.trans hrun)
    · rw [hsame]
      exact ⟨t, h⟩
    · exact ⟨_, hrem.sound h⟩

theorem reach_sound {drive : Drive} (hroom : drive.HasRoom) {P : State → Op → Prop}
    (h : Reach drive P s) : ∃ t, Sound s t := by
  induction h with
  | format stale s => exact ⟨_, (format_fs hroom stale s).toSound⟩
  | step noise _ hv _ hrun ih =>
    obtain ⟨t, ht⟩ := ih
    exact exec_sound ht hv hrun

end Kyuzen.Kfs
