import Kyuzen.Kfs.Calls

/-!
# What the calls do

`Refused` and `Added` (and `Removed`) are the possible effects of a call on the tree. Each of
the three calls that change the disk returns and has one of them: `kfsCreateFile_cases`,
`kfsCreateFolder_cases`, `kfsDeleteFile_cases`.
-/

namespace Kyuzen.Kfs

open Lib.Chain

/-- The tree is as before. -/
structure Refused (s : State) (t : Tree) (s' : State) : Prop where
  rep : Rep s' t
  layout : SameLayout s s'
  kept : Kept s s' t t

/-- The item `a`, for an object called `name`, was added. -/
structure Added (s : State) (t : Tree) (name : CStr) (s' : State) (t' : Tree) (a : Item) :
    Prop where
  rep : Rep s' t'
  layout : SameLayout s s'
  kept : Kept s s' t t'
  root : t'.root = t.root
  items : t'.items = insert a t.items
  notMem : a ∉ t.items
  dir : t.IsDir a.dir
  absent : ∀ b ∈ t.items, b.dir = a.dir → storedName b.entry.filename ≠ name
  stored : storedName a.entry.filename = name.take 22
  persisted : Persisted s → Persisted s'

/-- The file item `a` was removed. -/
structure Removed (s : State) (t : Tree) (s' : State) (a : Item) : Prop where
  rep : Rep s' (t.erase a)
  layout : SameLayout s s'
  kept : Kept s s' t (t.erase a)
  mem : a ∈ t.items
  file : a.entry.flags = flagFile
  persisted : Persisted s → Persisted s'

/-- The sectors of the file `a` hold `data`. -/
def Contents (s : State) (t : Tree) (a : Item) (data : Nat → UInt8) : Prop :=
  ∀ k, (hk : k < (t.chain a.entry.startSector).length) → ∀ j, j < 512 →
    512 * k + j < a.entry.sizeBytes →
    s.disk ((t.chain a.entry.startSector).get ⟨k, hk⟩) j = data (512 * k + j)

theorem contents_of_chain {s : State} {t : Tree} {a : Item} {data : Nat → UInt8} {l : List Nat}
    (hl : t.chain a.entry.startSector = l)
    (h : ∀ k, (hk : k < l.length) → ∀ j, j < 512 → 512 * k + j < a.entry.sizeBytes →
      s.disk (l.get ⟨k, hk⟩) j = data (512 * k + j)) : Contents s t a data := by
  subst hl
  exact h

theorem refused_refl {s : State} {t : Tree} (h : Rep s t) : Refused s t s :=
  ⟨h, ⟨rfl, rfl, rfl⟩, kept_of_disk fun _ _ => rfl⟩

theorem sectorsNeeded_eq {size : Nat} (h : size ≤ 0xFFFFFE00) :
    sectorsNeeded size = chainLength size := by
  unfold sectorsNeeded chainLength
  split_ifs with h0
  · rw [h0]
    rfl
  · rw [Nat.mod_eq_of_lt (by omega)]
    omega

/-! ## Adding an item -/

/-- The common end of the two create calls: from a state `s₂` with the object's chain on
unused sectors, the entry is recorded. -/
theorem added_of_slotted {s s₂ s₁ : State} {t t₁ : Tree} {d : Nat} {p : Nat × Nat} {e : Entry}
    {l : List Nat} {name : CStr} (h : Rep s t) (h₂ : Rep s₂ t) (hlayout : SameLayout s s₂)
    (hdisk : ∀ x, t.Used x → s₂.disk x = s.disk x) (hper : Persisted s → Persisted s₂)
    (hd : t.IsDir d) (hslot : Slotted s₂ t d s₁ t₁ p)
    (hflags : e.flags = flagFile ∨ e.flags = flagFolder) (hterm : e.filename 22 = 0)
    (hsize : e.sizeBytes < 2 ^ 32) (hchain : IsChain s₂ e.startSector l)
    (hnew : ∀ x ∈ l, ¬ t.Used x)
    (hlen : e.flags = flagFile → l.length = chainLength e.sizeBytes)
    (hempty : e.flags = flagFolder →
      ∀ x ∈ l, ∀ i, i < 16 → (s₂.entry (x, i)).flags = flagEmpty)
    (habsent : ∀ b ∈ t.items, b.dir = d → storedName b.entry.filename ≠ name)
    (hstored : storedName e.filename = name.take 22) :
    Added s t name (recordEntry s₁ p e) (t₁.insert ⟨d, p, e⟩ l) ⟨d, p, e⟩ ∧
      ∀ x ∈ l, (recordEntry s₁ p e).disk x = s₂.disk x := by
  have hsame : ∀ x ∈ l, s₁.fatTable x = s₂.fatTable x ∧ s₁.disk x = s₂.disk x := fun x hx =>
    hslot.other x (Or.inr (hchain.range x hx).1) (hnew x hx)
      (hchain.fat_ne_free h₂.geometry hx)
  have hnew₁ : ∀ x ∈ l, ¬ t₁.Used x := by
    intro x hx hu
    rcases hslot.used x hu with hu | hfree
    · exact hnew x hx hu
    · exact hchain.fat_ne_free h₂.geometry hx hfree
  have hchain₁ : IsChain s₁ e.startSector l :=
    hchain.congr hslot.layout fun x hx => (hsame x hx).1
  have hempty₁ : e.flags = flagFolder →
      ∀ x ∈ l, ∀ i, i < 16 → (s₁.entry (x, i)).flags = flagEmpty := by
    intro hf x hx i hi
    rw [State.entry, (hsame x hx).2]
    exact hempty hf x hx i hi
  have hrep := recordEntry_rep hslot hd hflags hterm hsize hchain₁ hnew₁ hlen hempty₁
  have hfresh := hslot.rep.ok.start_fresh (a := ⟨d, p, e⟩) hchain₁.head_mem hnew₁
  have hkept : Kept s (recordEntry s₁ p e) t (t₁.insert ⟨d, p, e⟩ l) := by
    intro b hb hb' hf
    obtain ⟨hc, hx⟩ := recordEntry_kept h₂ hslot hd hfresh b hb hb' hf
    exact ⟨hc, fun x hxc => (hx x hxc).trans (hdisk x ⟨_, Tree.isHead_of_mem hb, hxc⟩)⟩
  have hd₁ : t₁.IsDir d := by
    unfold Tree.IsDir
    rw [hslot.items, hslot.root]
    exact hd
  have hpused : t₁.Used p.1 := ⟨d, Tree.isHead_of_isDir hd₁, hslot.mem⟩
  refine ⟨⟨hrep, ?_, hkept, hslot.root, ?_, ?_, hd, habsent, hstored, fun hs => ?_⟩,
    fun x hx => ?_⟩
  · exact ⟨hslot.layout.root.trans hlayout.root, hslot.layout.total.trans hlayout.total,
      hslot.layout.needed.trans hlayout.needed⟩
  · change insert _ t₁.items = _
    rw [hslot.items]
  · intro hmem
    have hhead : t.IsHead e.startSector := Tree.isHead_of_mem hmem
    exact hnew _ hchain.head_mem ⟨_, hhead, h.ok.head_mem _ hhead⟩
  · exact recordEntry_onDisk hslot.rep.geometry (hslot.persisted (hper hs))
      (hslot.rep.used_range hpused).1 e
  · have hx0 : x ≠ 0 := by
      have h1 := (hchain.range x hx).1
      have h2 := h₂.geometry.two_le
      omega
    have hxp : x ≠ p.1 := by
      rintro rfl
      exact hnew₁ _ hx hpused
    rw [recordEntry_disk hx0 hxp, (hsame x hx).2]

/-! ## `kfs_create_file` -/

theorem allocated_rep {data : Nat → UInt8} {size : Nat} {s s₂ : State} {t : Tree} {l : List Nat}
    (h : Rep s t) (halloc : Allocated data size s s₂ l) :
    Rep s₂ t ∧ (∀ x, t.Used x → s₂.disk x = s.disk x) ∧ ∀ x ∈ l, ¬ t.Used x := by
  have hunused : ∀ x ∈ l, ¬ t.Used x := fun x hx hu => h.used_ne_free hu (halloc.free x hx).1
  have hdisk : ∀ x, t.Used x → s₂.disk x = s.disk x := fun x hu =>
    halloc.disk x (Or.inr (h.used_range hu).1) fun hx => hunused x hx hu
  refine ⟨h.frame halloc.sameLayout (by rw [halloc.header]) fun x hu => ⟨?_, hdisk x hu⟩, hdisk,
    hunused⟩
  exact halloc.fat x fun hx => hunused x hx hu

theorem kfsCreateFile_cases {s : State} {t : Tree} (h : Rep s t) (drive : Drive)
    (staleFat : Nat → UInt32) (stale : Nat → UInt8) {path : CStr} (hpath : 0 ∉ path)
    (data : Nat → UInt8) {size : Nat} (hsize : size ≤ 0xFFFFFE00) :
    ∃ out, kfsCreateFile drive staleFat stale s path data size = some out ∧
      (out.ret = 0 ∧ Refused s t out.state ∧ (Persisted s → Persisted out.state) ∨
        out.ret = 1 ∧ ∃ t' a, Added s t (lastName path) out.state t' a ∧
          splitLast s path = some (some (a.dir, lastName path)) ∧
          a.entry.flags = flagFile ∧ a.entry.sizeBytes = size ∧ Contents out.state t' a data) := by
  have hroot : ¬ s.currentFs.rootDirSector < 2 := not_lt.mpr h.geometry.two_le
  unfold kfsCreateFile
  simp only [if_neg hroot]
  rcases splitLast_cases h hpath with hsplit | ⟨d, hd, _, hsplit⟩
  · simp only [hsplit, Option.bind_eq_bind, Option.bind_some]
    exact ⟨_, rfl, Or.inl ⟨rfl, refused_refl h, id⟩⟩
  simp only [hsplit, Option.bind_eq_bind, Option.bind_some]
  have hnul := nul_notMem_lastName hpath
  rcases findEntryIn_cases h hd hnul with ⟨b, _, _, _, hfind⟩ | ⟨hfind, habsent⟩
  · simp only [hfind, Option.bind_some]
    exact ⟨_, rfl, Or.inl ⟨rfl, refused_refl h, id⟩⟩
  simp only [hfind, Option.bind_some]
  obtain ⟨s₂, l, halloc, hrun⟩ := writeChunks_allocated h.geometry (sectorsNeeded size)
    (Allocated.refl data size s)
  simp only [List.headD_nil, List.getLastD_nil, List.length_nil, Nat.mul_zero, Nat.zero_min,
    Nat.sub_zero, Nat.zero_add] at hrun
  obtain ⟨h₂, hdisk, hunused⟩ := allocated_rep h halloc
  have hrefused : Refused s t s₂ := ⟨h₂, halloc.sameLayout, kept_of_disk hdisk⟩
  rcases hrun with ⟨hrun, -⟩ | ⟨hrun, hlen⟩
  · simp only [hrun]
    exact ⟨_, rfl, Or.inl ⟨rfl, hrefused, halloc.persisted⟩⟩
  rw [sectorsNeeded_eq hsize] at hlen
  have hne : l ≠ [] := by
    rintro rfl
    simp [chainLength] at hlen
    omega
  have hhead : l.headD 0 = l.headD fatEof := by
    cases l with
    | nil => exact absurd rfl hne
    | cons x l => rfl
  simp only [hrun]
  rcases insertDirEntry_cases h₂ hd ⟨newFilename stale (lastName path), flagFile, l.headD 0, size⟩
    with ⟨s₁, t₁, p, hslot, hins⟩ | ⟨hins, _, _⟩
  · simp only [hins, Option.bind_some, if_true]
    have hchain : IsChain s₂ (l.headD 0) l := by
      rw [hhead]
      exact halloc.isChain hne
    obtain ⟨hadded, hsame⟩ := added_of_slotted
      (e := ⟨newFilename stale (lastName path), flagFile, l.headD 0, size⟩)
      h h₂ halloc.sameLayout hdisk halloc.persisted hd hslot (Or.inl rfl)
      (newFilename_terminated stale (lastName path)) (by dsimp only; omega) hchain hunused (fun _ => hlen)
      (fun hf => absurd hf (show flagFile ≠ flagFolder by decide)) habsent (storedName_newFilename stale hnul)
    refine ⟨_, rfl, Or.inr ⟨rfl, _, _, hadded, rfl, rfl, rfl, ?_⟩⟩
    refine contents_of_chain (Function.update_self _ _ _) fun k hk j hj hlt => ?_
    rw [← halloc.data k hk j hj hlt]
    exact congrFun (hsame _ (List.get_mem _ _)) j
  · simp only [hins, Option.bind_some]
    exact ⟨_, rfl, Or.inl ⟨rfl, hrefused, halloc.persisted⟩⟩

/-! ## `kfs_create_folder` -/

/-- The state with one sector taken for a new folder. -/
def takeFolderSector (s : State) (new : Nat) : State :=
  ataWriteSector (kfsSyncFat (setFat s new fatEof) new) new fun _ => flagEmpty

theorem takeFolderSector_rep {s : State} {t : Tree} (h : Rep s t) {new : Nat}
    (hfree : s.fatTable new = fatFree)
    (hrange : s.currentFs.rootDirSector < new ∧ new < s.totalDiskSectors) :
    SameLayout s (takeFolderSector s new) ∧ Rep (takeFolderSector s new) t ∧
      (∀ x, t.Used x → (takeFolderSector s new).disk x = s.disk x) ∧ ¬ t.Used new ∧
      IsChain (takeFolderSector s new) new [new] ∧
      (Persisted s → Persisted (takeFolderSector s new)) := by
  have hunused : ¬ t.Used new := fun hu => h.used_ne_free hu hfree
  have hne : ∀ x, t.Used x → x ≠ new := by
    rintro x hu rfl
    exact hunused hu
  have htable : (takeFolderSector s new).fatTable = Function.update s.fatTable new fatEof := by
    simp [takeFolderSector, ataWriteSector, setFat]
  have hfs : (takeFolderSector s new).currentFs = s.currentFs := by
    simp [takeFolderSector, ataWriteSector, setFat]
  have hlayout : SameLayout s (takeFolderSector s new) := by
    refine ⟨by rw [hfs], ?_, ?_⟩ <;> simp [takeFolderSector, ataWriteSector, setFat]
  have hdisk : ∀ x, t.Used x → (takeFolderSector s new).disk x = s.disk x := by
    intro x hu
    refine (Function.update_of_ne (hne x hu) _ _).trans ?_
    exact kfsSyncFat_disk (h.geometry.setFat _ _) new (Or.inr (h.used_range hu).1)
  refine ⟨hlayout, ?_, hdisk, hunused, ⟨⟨rfl, ?_⟩, by simp, fun x hx => ?_⟩, fun hs => ?_⟩
  · refine h.frame hlayout (by rw [hfs]) fun x hu => ⟨?_, hdisk x hu⟩
    rw [htable, Function.update_of_ne (hne x hu)]
  · rw [htable]
    exact Function.update_self _ _ _
  · rw [List.mem_singleton.mp hx, hlayout.root, hlayout.total]
    exact ⟨hrange.1.le, hrange.2⟩
  · have hset : OnDisk (setFat s new fatEof) {new / 128} :=
      OnDisk.setFat h.geometry hs hrange.2 (by decide) (by simp)
    have hsync : OnDisk (kfsSyncFat (setFat s new fatEof) new) ∅ :=
      hset.sync (h.geometry.setFat _ _) hrange.2 (by simp)
    refine OnDisk.write ((h.geometry.setFat _ _).kfsSyncFat _) hsync ?_ _
    rw [kfsSyncFat_currentFs]
    exact hrange.1.le

/-- No sector of the directory at `d` has an empty slot. -/
def DirFull (s : State) (d : Nat) : Prop :=
  ∀ l, Follows s d l → ∀ x ∈ l, emptyInSector (s.disk x) = none

/-- A folder is to be created in a full directory when a single sector is left: the sector is
taken for the folder and none remains for the directory. -/
def LastSector (s : State) (path : CStr) : Prop :=
  ∃ d, splitLast s path = some (some (d, lastName path)) ∧
    findEntryIn s d (lastName path) = some none ∧ DirFull s d ∧ findFreeSector s ≠ 0 ∧
    ∀ x, s.currentFs.rootDirSector < x → x < s.totalDiskSectors → s.fatTable x = fatFree →
      x = findFreeSector s

/-- The folder's own sector was the last free one, and its parent is full. -/
theorem lastSector_of_full {s : State} {t : Tree} (h : Rep s t) {path : CStr} {d : Nat}
    (hd : t.IsDir d) (hsplit : splitLast s path = some (some (d, lastName path)))
    (hfind : findEntryIn s d (lastName path) = some none) (hfree : findFreeSector s ≠ 0)
    (hlayout : SameLayout s (takeFolderSector s (findFreeSector s)))
    (hdisk : ∀ x, t.Used x → (takeFolderSector s (findFreeSector s)).disk x = s.disk x)
    (hnone : findFreeSector (takeFolderSector s (findFreeSector s)) = 0)
    (hfull : ∀ x ∈ t.chain d,
      emptyInSector ((takeFolderSector s (findFreeSector s)).disk x) = none) :
    LastSector s path := by
  have htable : (takeFolderSector s (findFreeSector s)).fatTable =
      Function.update s.fatTable (findFreeSector s) fatEof := by
    simp [takeFolderSector, ataWriteSector, setFat]
  refine ⟨d, hsplit, hfind, fun l hl x hx => ?_, hfree, fun x hlo' hhi' hx => ?_⟩
  · have hhead := Tree.isHead_of_isDir hd
    rw [(h.chains d hhead).eq_of_follows h.geometry hl] at hx
    rw [← hdisk x ⟨d, hhead, hx⟩]
    exact hfull x hx
  · by_contra hxne
    rw [← hlayout.root] at hlo'
    rw [← hlayout.total] at hhi'
    refine findFreeSector_none hnone hlo' hhi' ?_
    rw [htable, Function.update_of_ne hxne]
    exact hx

theorem kfsCreateFolder_cases {s : State} {t : Tree} (h : Rep s t) (stale : Nat → UInt8)
    {path : CStr} (hpath : 0 ∉ path) :
    ∃ out, kfsCreateFolder stale s path = some out ∧
      (out.ret = 0 ∧ Refused s t out.state ∧
          (¬ LastSector s path → Persisted s → Persisted out.state) ∨
        out.ret = 1 ∧ ∃ t' a, Added s t (lastName path) out.state t' a ∧
          splitLast s path = some (some (a.dir, lastName path)) ∧
          a.entry.flags = flagFolder ∧ a.entry.sizeBytes = 0) := by
  unfold kfsCreateFolder
  rcases splitLast_cases h hpath with hsplit | ⟨d, hd, _, hsplit⟩
  · simp only [hsplit, Option.bind_eq_bind, Option.bind_some]
    exact ⟨_, rfl, Or.inl ⟨rfl, refused_refl h, fun _ => id⟩⟩
  have hnul := nul_notMem_lastName hpath
  rcases findEntryIn_cases h hd hnul with ⟨b, _, _, _, hfind⟩ | ⟨hfind, habsent⟩
  · simp only [hsplit, Option.bind_eq_bind, Option.bind_some, hfind]
    exact ⟨_, rfl, Or.inl ⟨rfl, refused_refl h, fun _ => id⟩⟩
  by_cases hfree : findFreeSector s = 0
  · simp only [hsplit, Option.bind_eq_bind, Option.bind_some, hfind, if_pos hfree]
    exact ⟨_, rfl, Or.inl ⟨rfl, refused_refl h, fun _ => id⟩⟩
  obtain ⟨hlo, hhi, hfat⟩ := findFreeSector_spec hfree
  obtain ⟨hlayout, h₂, hdisk, hunused, hchain, hper⟩ :=
    takeFolderSector_rep h hfat ⟨hlo, hhi⟩
  have hrun : ∀ r, insertDirEntry (takeFolderSector s (findFreeSector s)) d
      ⟨newFilename stale (lastName path), flagFolder, findFreeSector s, 0⟩ = some r →
      kfsCreateFolder stale s path = some (if r.1 then ⟨1, "", addFile r.2⟩
        else ⟨0, "", setFat r.2 (findFreeSector s) fatFree⟩) := by
    rintro ⟨inserted, s'⟩ hins
    rw [takeFolderSector] at hins
    simp only [kfsCreateFolder, hsplit, Option.bind_eq_bind, Option.bind_some, hfind,
      if_neg hfree, hins]
    cases inserted <;> rfl
  rw [← kfsCreateFolder]
  rcases insertDirEntry_cases h₂ hd
    ⟨newFilename stale (lastName path), flagFolder, findFreeSector s, 0⟩
    with ⟨s₁, t₁, p, hslot, hins⟩ | ⟨hins, hnone, hfull⟩
  · rw [hrun _ hins]
    have hempty : ∀ x ∈ [findFreeSector s], ∀ i, i < 16 →
        ((takeFolderSector s (findFreeSector s)).entry (x, i)).flags = flagEmpty := by
      intro x hx i _
      rw [List.mem_singleton.mp hx]
      simp [State.entry, takeFolderSector, ataWriteSector, entryAt]
    obtain ⟨hadded, _⟩ := added_of_slotted
      (e := ⟨newFilename stale (lastName path), flagFolder, findFreeSector s, 0⟩)
      h h₂ hlayout hdisk hper hd hslot (Or.inr rfl)
      (newFilename_terminated stale (lastName path))
      (show 0 < 2 ^ 32 by decide) hchain
      (fun x hx => by rw [List.mem_singleton.mp hx]; exact hunused)
      (fun hf => absurd hf (show flagFolder ≠ flagFile by decide)) (fun _ => hempty) habsent
      (storedName_newFilename stale hnul)
    exact ⟨_, rfl, Or.inr ⟨rfl, _, _, hadded, hsplit, rfl, rfl⟩⟩
  · rw [hrun _ hins]
    have hne : ∀ x, t.Used x → x ≠ findFreeSector s := by
      rintro x hu rfl
      exact hunused hu
    have hrep : Rep (setFat (takeFolderSector s (findFreeSector s)) (findFreeSector s) fatFree) t :=
      h₂.frame ⟨rfl, rfl, rfl⟩ rfl fun x hu => ⟨Function.update_of_ne (hne x hu) _ _, rfl⟩
    refine ⟨_, rfl, Or.inl ⟨rfl, ⟨hrep, ⟨hlayout.root, hlayout.total, hlayout.needed⟩,
      kept_of_disk hdisk⟩, fun hlast => absurd ?_ hlast⟩⟩
    exact lastSector_of_full h hd hsplit hfind hfree hlayout hdisk hnone hfull

/-! ## `kfs_delete_file` -/

/-- The state after the chain of `a` was freed, its slot emptied and the file uncounted. -/
theorem clearEntry_removed {s s' : State} {t : Tree} (h : Rep s t) {a : Item} (ha : a ∈ t.items)
    (hf : a.entry.flags = flagFile) (hfs : s'.currentFs = s.currentFs)
    (htotal : s'.totalDiskSectors = s.totalDiskSectors)
    (hneeded : s'.fatSectorsNeeded = s.fatSectorsNeeded)
    (hfat : ∀ x, x ∉ t.chain a.entry.startSector → s'.fatTable x = s.fatTable x)
    (hdisk : ∀ x, NotFat s x → s'.disk x = s.disk x) (hper : Persisted s → Persisted s') :
    Removed s t (removeFile (clearEntry s' a.slot.1 a.slot.2)) a := by
  obtain ⟨had, hsec, _, _, _⟩ := (h.mem_iff a).mp ha
  have hzero : ∀ x, t.Used x → x ≠ 0 := by
    intro x hu
    have h1 := (h.used_range hu).1
    have h2 := h.geometry.two_le
    omega
  have hnotfat : ∀ x, t.Used x → NotFat s x := fun x hu => Or.inr (h.used_range hu).1
  have hused := h.slot_used ha
  have hslot : (removeFile (clearEntry s' a.slot.1 a.slot.2)).disk a.slot.1 =
      withoutEntry (s.disk a.slot.1) a.slot.2 := by
    rw [removeFile, setTotalFiles_disk (hzero _ hused)]
    refine (Function.update_self _ _ _).trans ?_
    rw [hdisk _ (hnotfat _ hused)]
    rfl
  have hother : ∀ x, t.Used x → x ≠ a.slot.1 →
      (removeFile (clearEntry s' a.slot.1 a.slot.2)).disk x = s.disk x := by
    intro x hu hx
    rw [removeFile, setTotalFiles_disk (hzero x hu)]
    exact (Function.update_of_ne hx _ _).trans (hdisk x (hnotfat x hu))
  have hlayout : SameLayout s (removeFile (clearEntry s' a.slot.1 a.slot.2)) :=
    ⟨by rw [removeFile, setTotalFiles_root]; exact congrArg Header.rootDirSector hfs, htotal,
      hneeded⟩
  have hcount : (removeFile (clearEntry s' a.slot.1 a.slot.2)).currentFs.totalFiles =
      s.currentFs.totalFiles - 1 := by
    have h1 := h.count
    have h2 := h.count_le
    have h3 := h.geometry.bound
    have h4 := Finset.card_pos.mpr ⟨a, ha⟩
    have h5 : (clearEntry s' a.slot.1 a.slot.2).currentFs = s.currentFs := hfs
    rw [removeFile, setTotalFiles_totalFiles, h5]
    omega
  refine ⟨h.erase hlayout hcount ha hf ?_ (fun q hq hqa => ?_) fun x _ hx => hfat x hx, hlayout,
    fun b hb hb' hbf => ⟨rfl, fun x hx => ?_⟩, ha, hf, fun hs => ?_⟩
  · rw [State.entry, hslot]
    exact entryAt_withoutEntry_flags _ _
  · by_cases hqs : q.1 = a.slot.1
    · rw [State.entry, hqs, hslot, entryAt_withoutEntry_of_ne, State.entry, hqs]
      intro hidx
      exact hqa (Prod.ext hqs hidx)
    · rw [State.entry, hother _ hq hqs, State.entry]
  · have hbhead := Tree.isHead_of_mem hb
    refine hother x ⟨_, hbhead, hx⟩ ?_
    rintro rfl
    have hdir := h.ok.disjoint _ a.dir _ hbhead (Tree.isHead_of_isDir had) hx hsec
    exact h.ok.file_not_dir hb hbf (hdir ▸ had)
  · have hg' : Geometry s' := h.geometry.congr ⟨by rw [hfs], htotal, hneeded⟩
    refine OnDisk.setTotalFiles (OnDisk.write hg' (hper hs) ?_ _) _
    rw [hfs]
    exact (h.used_range hused).1

/-- A delete leaves the state or gives a chain back. -/
theorem kfsDeleteFile_outcome {s : State} {path : CStr} {out : Outcome}
    (h : kfsDeleteFile s path = some out) : out.ret = 0 ∧
      (out.state = s ∨ ∃ start dirSec dirIdx s', freeChain (walkFuel s) s start = some s' ∧
        out.state = removeFile (clearEntry s' dirSec dirIdx)) := by
  unfold kfsDeleteFile at h
  obtain ⟨r, _, h⟩ := Option.bind_eq_some_iff.mp h
  rcases r with _ | ⟨parentSec, name⟩
  · obtain rfl := Option.some.inj h
    exact ⟨rfl, Or.inl rfl⟩
  obtain ⟨f, _, h⟩ := Option.bind_eq_some_iff.mp h
  rcases f with _ | ⟨entry, dirSec, dirIdx⟩
  · obtain rfl := Option.some.inj h
    exact ⟨rfl, Or.inl rfl⟩
  dsimp only at h
  split_ifs at h
  · obtain rfl := Option.some.inj h
    exact ⟨rfl, Or.inl rfl⟩
  · obtain ⟨s', hfree, h⟩ := Option.bind_eq_some_iff.mp h
    obtain rfl := Option.some.inj h
    exact ⟨rfl, Or.inr ⟨entry.startSector, dirSec, dirIdx, s', hfree, rfl⟩⟩

/-- The file that the lookups of the call have found is removed, and its sectors are free. -/
theorem kfsDeleteFile_item {s : State} {t : Tree} (h : Rep s t) {path : CStr} {a : Item}
    (ha : a ∈ t.items) (hfile : a.entry.flags = flagFile)
    (hsplit : splitLast s path = some (some (a.dir, lastName path)))
    (hfind : findEntryIn s a.dir (lastName path) = some (some (a.entry, a.slot.1, a.slot.2))) :
    ∃ out, kfsDeleteFile s path = some out ∧ Removed s t out.state a ∧
      (∀ x ∈ t.chain a.entry.startSector, out.state.fatTable x = fatFree) ∧
      ∀ x, x ∉ t.chain a.entry.startSector → out.state.fatTable x = s.fatTable x := by
  have hfolder : a.entry.flags ≠ flagFolder := by
    rw [hfile]
    decide
  have hc := h.chains _ (Tree.isHead_of_mem ha)
  obtain ⟨hne, hfuel⟩ := hc.walkable h.geometry
  obtain ⟨s', hrun, h1, h2, h3, hfat, hdisk, hper⟩ := freeChain_eq h.geometry hc.path hne
    (fun x hx => (hc.range x hx).2) (hc.nodup h.geometry) hfuel
  have hfreed := freeChain_freed hc.path hne (hc.nodup h.geometry) hrun
  unfold kfsDeleteFile
  simp only [hsplit, hfind, if_neg hfolder, hrun, Option.bind_eq_bind, Option.bind_some]
  exact ⟨_, rfl, clearEntry_removed h ha hfile h1 h2 h3 hfat hdisk hper, hfreed, hfat⟩

theorem kfsDeleteFile_cases {s : State} {t : Tree} (h : Rep s t) {path : CStr}
    (hpath : 0 ∉ path) :
    ∃ out, kfsDeleteFile s path = some out ∧
      (out.state = s ∨ ∃ a, Removed s t out.state a ∧
        splitLast s path = some (some (a.dir, lastName path)) ∧
        storedName a.entry.filename = lastName path) := by
  rcases splitLast_cases h hpath with hsplit | ⟨d, hd, _, hsplit⟩
  · unfold kfsDeleteFile
    simp only [hsplit, Option.bind_eq_bind, Option.bind_some]
    exact ⟨_, rfl, Or.inl rfl⟩
  rcases findEntryIn_cases h hd (nul_notMem_lastName hpath) with
    ⟨a, ha, rfl, hname, hfind⟩ | ⟨hfind, _⟩
  · by_cases hfolder : a.entry.flags = flagFolder
    · unfold kfsDeleteFile
      simp only [hsplit, hfind, if_pos hfolder, Option.bind_eq_bind, Option.bind_some]
      exact ⟨_, rfl, Or.inl rfl⟩
    · obtain ⟨out, hrun, hrem, -, -⟩ :=
        kfsDeleteFile_item h ha ((h.ok.flags a ha).resolve_right hfolder) hsplit hfind
      exact ⟨out, hrun, Or.inr ⟨a, hrem, hsplit, hname⟩⟩
  · unfold kfsDeleteFile
    simp only [hsplit, hfind, Option.bind_eq_bind, Option.bind_some]
    exact ⟨_, rfl, Or.inl rfl⟩

end Kyuzen.Kfs
