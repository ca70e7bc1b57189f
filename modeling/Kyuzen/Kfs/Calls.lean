import Kyuzen.Kfs.Walks

/-!
# The calls of KyuzenFS on the tree

One specification for each call on a represented file system. A call that refuses leaves the
tree as it was (it may leave behind sectors that belong to nothing); `kfs_create_file` and
`kfs_create_folder` add one item, `kfs_delete_file` removes a file's item. The contents of the
files that stay are the same in all cases (`Kept`).
-/

namespace Kyuzen.Kfs

open Lib.Chain

/-! ## Small state changes -/

theorem Tree.used_extend {t : Tree} {d new x : Nat} (h : (t.extend d new).Used x) :
    t.Used x ∨ x = new := by
  obtain ⟨k, hk, hx⟩ := h
  by_cases hkd : k = d
  · subst hkd
    simp only [Tree.extend, Function.update_self, List.mem_append, List.mem_singleton] at hx
    exact hx.imp (fun hx => ⟨k, hk, hx⟩) id
  · simp only [Tree.extend, Function.update_of_ne hkd] at hx
    exact Or.inl ⟨k, hk, hx⟩

theorem Rep.count_le {s : State} {t : Tree} (h : Rep s t) :
    t.items.card ≤ s.totalDiskSectors := by
  rw [← Finset.card_range s.totalDiskSectors]
  refine Finset.card_le_card_of_injOn (fun a => a.entry.startSector) (fun a ha => ?_)
    fun a ha b hb heq => h.ok.inj a ha b hb heq
  have hc := h.chains _ (Tree.isHead_of_mem ha)
  exact Finset.mem_coe.mpr (Finset.mem_range.mpr (hc.range _ hc.head_mem).2)

/-- The contents of the files that are in both trees are the same. -/
def Kept (s s' : State) (t t' : Tree) : Prop :=
  ∀ a ∈ t.items, a ∈ t'.items → a.entry.flags = flagFile →
    t'.chain a.entry.startSector = t.chain a.entry.startSector ∧
      ∀ x ∈ t.chain a.entry.startSector, s'.disk x = s.disk x

theorem kept_of_disk {s s' : State} {t : Tree} (h : ∀ x, t.Used x → s'.disk x = s.disk x) :
    Kept s s' t t := fun _ ha _ _ => ⟨rfl, fun x hx => h x ⟨_, Tree.isHead_of_mem ha, hx⟩⟩

/-! ## Freeing a chain -/

theorem freeChain_eq {l : List Nat} : ∀ {s : State} {h fuel : Nat}, Geometry s →
    Path s.fatTable h l fatEof → (∀ x ∈ l, x ≠ fatEof ∧ x ≠ fatFree) →
    (∀ x ∈ l, x < s.totalDiskSectors) → l.Nodup → l.length < fuel →
    ∃ s', freeChain fuel s h = some s' ∧ s'.currentFs = s.currentFs ∧
      s'.totalDiskSectors = s.totalDiskSectors ∧ s'.fatSectorsNeeded = s.fatSectorsNeeded ∧
      (∀ x, x ∉ l → s'.fatTable x = s.fatTable x) ∧
      (∀ x, NotFat s x → s'.disk x = s.disk x) ∧ (Persisted s → Persisted s') := by
  induction l with
  | nil =>
    intro s h fuel _ hpath _ _ _ hf
    obtain ⟨fuel, rfl⟩ := Nat.exists_eq_succ_of_ne_zero (by omega : fuel ≠ 0)
    have hend : h = fatEof := hpath
    refine ⟨s, ?_, rfl, rfl, rfl, fun _ _ => rfl, fun _ _ => rfl, id⟩
    rw [freeChain, if_pos (Or.inl hend)]
  | cons y l ih =>
    intro s h fuel hg hpath hne hlt hnodup hf
    obtain ⟨fuel, rfl⟩ := Nat.exists_eq_succ_of_ne_zero (by omega : fuel ≠ 0)
    obtain ⟨rfl, hrest⟩ := hpath
    obtain ⟨hnotin, hnodup⟩ := List.nodup_cons.mp hnodup
    have hstop := hne h List.mem_cons_self
    have hother : ∀ x, x ≠ h → (kfsSyncFat (setFat s h fatFree) h).fatTable x = s.fatTable x := by
      intro x hx
      rw [kfsSyncFat_fatTable]
      exact Function.update_of_ne hx _ _
    have hrest' : Path (kfsSyncFat (setFat s h fatFree) h).fatTable (s.fatTable h) l fatEof :=
      path_congr (fun x hx => hother x fun hxh => hnotin (hxh ▸ hx)) hrest
    have hlt' : ∀ x ∈ l, x < (kfsSyncFat (setFat s h fatFree) h).totalDiskSectors := by
      intro x hx
      rw [kfsSyncFat_total]
      exact hlt x (List.mem_cons_of_mem _ hx)
    have hlen : l.length < fuel := by simpa using hf
    obtain ⟨s', hrun, h1, h2, h3, hfat, hdisk, hper⟩ :=
      ih ((hg.setFat h fatFree).kfsSyncFat h) hrest'
        (fun x hx => hne x (List.mem_cons_of_mem _ hx)) hlt' hnodup hlen
    simp only [kfsSyncFat_currentFs, kfsSyncFat_total, kfsSyncFat_needed] at h1 h2 h3
    refine ⟨s', ?_, h1, h2, h3, fun x hx => ?_, fun x hx => ?_, fun hs => hper ?_⟩
    · rw [freeChain, if_neg (by tauto)]
      exact hrun
    · rw [List.mem_cons, not_or] at hx
      rw [hfat x hx.2, hother x hx.1]
    · have hx' : NotFat (kfsSyncFat (setFat s h fatFree) h) x := by
        unfold NotFat
        rw [kfsSyncFat_currentFs]
        exact hx
      rw [hdisk x hx', kfsSyncFat_disk (hg.setFat h fatFree) h hx]
      rfl
    · have hh := hlt h List.mem_cons_self
      have hset : OnDisk (setFat s h fatFree) {h / 128} :=
        OnDisk.setFat hg hs hh (by decide) (by simp)
      exact hset.sync (hg.setFat _ _) hh (by simp)

theorem freeChain_stays : ∀ {fuel : Nat} {s s' : State} {h x : Nat},
    freeChain fuel s h = some s' → s.fatTable x = fatFree → s'.fatTable x = fatFree := by
  intro fuel
  induction fuel with
  | zero =>
    intro s s' h x hrun _
    cases hrun
  | succ fuel ih =>
    intro s s' h x hrun hx
    rw [freeChain] at hrun
    by_cases hend : h = fatEof ∨ h = fatFree
    · rw [if_pos hend] at hrun
      rw [← Option.some.inj hrun]
      exact hx
    · rw [if_neg hend] at hrun
      refine ih hrun ?_
      rw [kfsSyncFat_fatTable]
      show Function.update s.fatTable h fatFree x = fatFree
      by_cases hxh : x = h
      · rw [hxh, Function.update_self]
      · rw [Function.update_of_ne hxh]
        exact hx

/-- The sectors of the chain are free afterwards. -/
theorem freeChain_freed {l : List Nat} : ∀ {s s' : State} {h fuel : Nat},
    Path s.fatTable h l fatEof → (∀ x ∈ l, x ≠ fatEof ∧ x ≠ fatFree) → l.Nodup →
    freeChain fuel s h = some s' → ∀ x ∈ l, s'.fatTable x = fatFree := by
  induction l with
  | nil => exact fun _ _ _ _ x hx => absurd hx List.not_mem_nil
  | cons y l ih =>
    intro s s' h fuel hpath hne hnodup hrun x hx
    obtain ⟨rfl, hrest⟩ := hpath
    obtain ⟨hnotin, hnodup⟩ := List.nodup_cons.mp hnodup
    have hstop := hne h List.mem_cons_self
    cases fuel with
    | zero => cases hrun
    | succ fuel =>
      rw [freeChain, if_neg (by tauto)] at hrun
      have htable : (kfsSyncFat (setFat s h fatFree) h).fatTable =
          Function.update s.fatTable h fatFree := kfsSyncFat_fatTable _ _
      rcases List.mem_cons.mp hx with rfl | hx
      · refine freeChain_stays hrun ?_
        rw [htable, Function.update_self]
      · refine ih ?_ (fun y hy => hne y (List.mem_cons_of_mem _ hy)) hnodup hrun x hx
        rw [htable]
        refine path_congr (fun y hy => Function.update_of_ne ?_ _ _) hrest
        rintro rfl
        exact hnotin hy

/-! ## A free slot for a new entry -/

/-- A state from which an entry can be written into slot `p` of directory `d`: the tree of `s`,
with at most one more sector in the directory. -/
structure Slotted (s : State) (t : Tree) (d : Nat) (s₁ : State) (t₁ : Tree) (p : Nat × Nat) :
    Prop where
  rep : Rep s₁ t₁
  header : s₁.currentFs = s.currentFs
  layout : SameLayout s s₁
  items : t₁.items = t.items
  root : t₁.root = t.root
  chain : ∀ k, k ≠ d → t₁.chain k = t.chain k
  mem : p.1 ∈ t₁.chain d
  idx : p.2 < 16
  empty : (s₁.entry p).flags = flagEmpty
  used : ∀ x, t₁.Used x → t.Used x ∨ s.fatTable x = fatFree
  disk : ∀ x, t.Used x → s₁.disk x = s.disk x
  other : ∀ x, NotFat s x → ¬ t.Used x → s.fatTable x ≠ fatFree →
    s₁.fatTable x = s.fatTable x ∧ s₁.disk x = s.disk x
  persisted : Persisted s → Persisted s₁

/-- The state after the chain of a full directory was extended by the sector `new`. -/
def linkDirSector (s : State) (last new : Nat) : State :=
  ataWriteSector (kfsSyncFat (kfsSyncFat (setFat (setFat s last new) new fatEof) last) new) new
    fun _ => flagEmpty

theorem linkDirSector_frame (s : State) (last new : Nat) :
    (linkDirSector s last new).currentFs = s.currentFs ∧ SameLayout s (linkDirSector s last new) ∧
      (linkDirSector s last new).fatTable =
        Function.update (Function.update s.fatTable last new) new fatEof := by
  refine ⟨?_, ⟨?_, ?_, ?_⟩, ?_⟩ <;> simp [linkDirSector, ataWriteSector, setFat]

theorem linkDirSector_disk {s : State} (hg : Geometry s) (last new : Nat) {x : Nat}
    (hx : NotFat s x) (hne : x ≠ new) : (linkDirSector s last new).disk x = s.disk x := by
  have hg' := (hg.setFat last new).setFat new fatEof
  have hx' : NotFat (kfsSyncFat (setFat (setFat s last new) new fatEof) last) x := by
    unfold NotFat
    rw [kfsSyncFat_currentFs]
    exact hx
  change Function.update _ new _ x = _
  rw [Function.update_of_ne hne, kfsSyncFat_disk (hg'.kfsSyncFat last) new hx',
    kfsSyncFat_disk hg' last hx]
  rfl

theorem linkDirSector_onDisk {s : State} (hg : Geometry s) (h : Persisted s) {last new : Nat}
    (hlast : last < s.totalDiskSectors)
    (hnew : s.currentFs.rootDirSector ≤ new ∧ new < s.totalDiskSectors) :
    Persisted (linkDirSector s last new) := by
  have hbound := hg.bound
  have hset : OnDisk (setFat s last new) {last / 128} :=
    OnDisk.setFat hg h hlast (by omega) (by simp)
  have hset₂ : OnDisk (setFat (setFat s last new) new fatEof) {last / 128, new / 128} :=
    hset.setFat (hg.setFat _ _) hnew.2 (by decide) (by simp)
  have hg₂ := (hg.setFat last new).setFat new fatEof
  have hsync : OnDisk (kfsSyncFat (setFat (setFat s last new) new fatEof) last) {new / 128} :=
    hset₂.sync hg₂ hlast (by simp)
  have hg₃ := hg₂.kfsSyncFat last
  have hsync₂ : OnDisk (kfsSyncFat (kfsSyncFat (setFat (setFat s last new) new fatEof) last) new)
      ∅ := by
    refine hsync.sync hg₃ ?_ (by simp)
    rw [kfsSyncFat_total]
    exact hnew.2
  refine OnDisk.write (hg₃.kfsSyncFat new) hsync₂ ?_ _
  rw [kfsSyncFat_currentFs, kfsSyncFat_currentFs]
  exact hnew.1

/-- Linking the first free sector behind a full directory. -/
theorem linkDirSector_slotted {s : State} {t : Tree} (h : Rep s t) {d : Nat} (hd : t.IsDir d)
    (hfree : findFreeSector s ≠ 0) :
    Slotted s t d (linkDirSector s ((t.chain d).getLastD d) (findFreeSector s))
      (t.extend d (findFreeSector s)) (findFreeSector s, 0) := by
  obtain ⟨hlo, hhi, hfat⟩ := findFreeSector_spec hfree
  generalize findFreeSector s = new at *
  have hunused : ¬ t.Used new := fun hu => h.used_ne_free hu hfat
  have hhead := Tree.isHead_of_isDir hd
  have hc := h.chains d hhead
  obtain ⟨init, last, hchain⟩ : ∃ init last, t.chain d = init ++ [last] := by
    rcases List.eq_nil_or_concat (t.chain d) with hnil | ⟨init, last, hcat⟩
    · exact absurd hnil hc.ne
    · exact ⟨init, last, by rw [hcat, List.concat_eq_append]⟩
  have hgetLast : (t.chain d).getLastD d = last := by simp [hchain]
  have hlast : t.Used last := ⟨d, hhead, by simp [hchain]⟩
  have hlastne : last ≠ new := by
    rintro rfl
    exact hunused hlast
  rw [hgetLast]
  obtain ⟨hhdr, hlayout, htable⟩ := linkDirSector_frame s last new
  have hnotfat : ∀ x, t.Used x → NotFat s x := fun x hx => Or.inr (h.used_range hx).1
  have hdisk : ∀ x, t.Used x → (linkDirSector s last new).disk x = s.disk x := by
    intro x hx
    refine linkDirSector_disk h.geometry last new (hnotfat x hx) ?_
    rintro rfl
    exact hunused hx
  have hempty : ∀ i, i < 16 → ((linkDirSector s last new).entry (new, i)).flags = flagEmpty := by
    intro i _
    simp [State.entry, linkDirSector, ataWriteSector, entryAt]
  have hfat' : ∀ x, x ≠ last → x ≠ new →
      (linkDirSector s last new).fatTable x = s.fatTable x := by
    intro x h1 h2
    rw [htable, Function.update_of_ne h2, Function.update_of_ne h1]
  refine ⟨?_, hhdr, hlayout, rfl, rfl, fun k hk => Function.update_of_ne hk _ _, ?_,
    Nat.succ_pos 15, hempty 0 (by decide), fun x hx => ?_, hdisk, fun x hx hu hne => ?_,
    fun hper => linkDirSector_onDisk h.geometry hper (h.used_range hlast).2 ⟨hlo.le, hhi⟩⟩
  · refine h.extend hlayout (by rw [hhdr]) hd hchain hunused ⟨hlo.le, hhi⟩ ?_ ?_ ?_ hdisk hempty
    · rw [htable, Function.update_of_ne hlastne, Function.update_self]
    · rw [htable, Function.update_self]
    · intro x hx hxlast
      refine hfat' x hxlast ?_
      rintro rfl
      exact hunused hx
  · simp [Tree.extend]
  · rcases Tree.used_extend hx with hx | rfl
    · exact Or.inl hx
    · exact Or.inr hfat
  · have hxnew : x ≠ new := by
      rintro rfl
      exact hne hfat
    have hxlast : x ≠ last := by
      rintro rfl
      exact hu hlast
    exact ⟨hfat' x hxlast hxnew, linkDirSector_disk h.geometry last new hx hxnew⟩

/-- `insert_dir_entry` writes into the first empty slot. In a full directory it links the first free
sector, or fails. -/
theorem insertDirEntry_steps {s : State} {t : Tree} (h : Rep s t) {d : Nat} (hd : t.IsDir d)
    (e : Entry) :
    (∃ x ∈ t.chain d, ∃ i, i < 16 ∧ (s.entry (x, i)).flags = flagEmpty ∧
        insertDirEntry s d e = some (true, writeEntry s x (s.disk x) i e)) ∨
      (∀ x ∈ t.chain d, emptyInSector (s.disk x) = none) ∧
        (findFreeSector s = 0 ∧ insertDirEntry s d e = some (false, s) ∨
          findFreeSector s ≠ 0 ∧ ∃ s₁,
            s₁ = linkDirSector s ((t.chain d).getLastD d) (findFreeSector s) ∧
            insertDirEntry s d e = some (true,
              writeEntry s₁ (findFreeSector s) (s₁.disk (findFreeSector s)) 0 e)) := by
  have hc := h.chains d (Tree.isHead_of_isDir hd)
  obtain ⟨hne, hfuel⟩ := hc.walkable h.geometry
  rcases findEmptyFrom_cases d hc.path hne hfuel with
    ⟨x, hx, i, last', hi, hflags, hrun⟩ | ⟨hrun, hfull⟩
  · exact Or.inl ⟨x, hx, i, hi, hflags, by simp [insertDirEntry, hrun]⟩
  · refine Or.inr ⟨hfull, ?_⟩
    by_cases hfree : findFreeSector s = 0
    · exact Or.inl ⟨hfree, by simp [insertDirEntry, hrun, hfree]⟩
    · refine Or.inr ⟨hfree, _, rfl, ?_⟩
      simp [insertDirEntry, hrun, hfree, writeEntry, linkDirSector, ataWriteSector]

/-- `insert_dir_entry` writes into an empty slot of the directory, or fails on a full disk. -/
theorem insertDirEntry_cases {s : State} {t : Tree} (h : Rep s t) {d : Nat} (hd : t.IsDir d)
    (e : Entry) :
    (∃ s₁ t₁ p, Slotted s t d s₁ t₁ p ∧
        insertDirEntry s d e = some (true, writeEntry s₁ p.1 (s₁.disk p.1) p.2 e)) ∨
      insertDirEntry s d e = some (false, s) ∧ findFreeSector s = 0 ∧
        ∀ x ∈ t.chain d, emptyInSector (s.disk x) = none := by
  rcases insertDirEntry_steps h hd e with
    ⟨x, hx, i, hi, hflags, hrun⟩ | ⟨hfull, ⟨hfree, hrun⟩ | ⟨hfree, _, rfl, hrun⟩⟩
  · left
    exact ⟨s, t, (x, i), ⟨h, rfl, ⟨rfl, rfl, rfl⟩, rfl, rfl, fun _ _ => rfl, hx, hi, hflags,
      fun x hx => Or.inl hx, fun _ _ => rfl, fun _ _ _ _ => ⟨rfl, rfl⟩, id⟩, hrun⟩
  · right
    exact ⟨hrun, hfree, hfull⟩
  · left
    exact ⟨_, _, _, linkDirSector_slotted h hd hfree, hrun⟩

/-- The entry is written and the file counted. -/
def recordEntry (s : State) (p : Nat × Nat) (e : Entry) : State :=
  addFile (writeEntry s p.1 (s.disk p.1) p.2 e)

theorem recordEntry_disk {s : State} {p : Nat × Nat} {e : Entry} {x : Nat} (hx : x ≠ 0)
    (hp : x ≠ p.1) : (recordEntry s p e).disk x = s.disk x := by
  rw [recordEntry, addFile, setTotalFiles_disk hx]
  exact Function.update_of_ne hp _ _

theorem recordEntry_disk_slot {s : State} {p : Nat × Nat} {e : Entry} (hp : p.1 ≠ 0) :
    (recordEntry s p e).disk p.1 = withEntry (s.disk p.1) p.2 e := by
  rw [recordEntry, addFile, setTotalFiles_disk hp]
  exact Function.update_self _ _ _

/-- Recording the entry of an object on unused sectors adds its item to the tree. -/
theorem recordEntry_rep {s s₁ : State} {t t₁ : Tree} {d : Nat} {p : Nat × Nat} {e : Entry}
    {l : List Nat} (hslot : Slotted s t d s₁ t₁ p) (hd : t.IsDir d)
    (hflags : e.flags = flagFile ∨ e.flags = flagFolder) (hterm : e.filename 22 = 0)
    (hsize : e.sizeBytes < 2 ^ 32) (hchain : IsChain s₁ e.startSector l)
    (hnew : ∀ x ∈ l, ¬ t₁.Used x)
    (hlen : e.flags = flagFile → l.length = chainLength e.sizeBytes)
    (hempty : e.flags = flagFolder →
      ∀ x ∈ l, ∀ i, i < 16 → (s₁.entry (x, i)).flags = flagEmpty) :
    Rep (recordEntry s₁ p e) (t₁.insert ⟨d, p, e⟩ l) := by
  have h := hslot.rep
  have hd₁ : t₁.IsDir d := by
    unfold Tree.IsDir
    rw [hslot.items, hslot.root]
    exact hd
  have hpused : t₁.Used p.1 := ⟨d, Tree.isHead_of_isDir hd₁, hslot.mem⟩
  have hzero : ∀ x, s₁.currentFs.rootDirSector ≤ x → x ≠ 0 := by
    intro x hx
    have := h.geometry.two_le
    omega
  have hp0 := hzero _ (h.used_range hpused).1
  have hstart : e.startSector < 2 ^ 32 := by
    have h1 := (hchain.range _ hchain.head_mem).2
    have h2 := h.geometry.bound
    omega
  have hself : (recordEntry s₁ p e).entry p = e := by
    rw [State.entry, recordEntry_disk_slot hp0]
    exact entryAt_withEntry hterm hstart hsize
  have hcount : (recordEntry s₁ p e).currentFs.totalFiles = s₁.currentFs.totalFiles + 1 := by
    have h1 := h.count
    have h2 := h.count_le
    have h3 := h.geometry.bound
    rw [recordEntry, addFile, setTotalFiles_totalFiles]
    change (s₁.currentFs.totalFiles + 1) % 2 ^ 32 = _
    omega
  have hlayout : SameLayout s₁ (recordEntry s₁ p e) := ⟨rfl, rfl, rfl⟩
  refine h.insert (a := ⟨d, p, e⟩) hlayout hcount hd₁ hslot.mem hslot.idx hslot.empty hself
    (fun q hq hqp => ?_) (fun _ _ => rfl) hflags hterm ?_ hnew hlen fun hf x hx i hi => ?_
  · have hq0 := hzero _ (h.used_range hq).1
    by_cases hqs : q.1 = p.1
    · rw [State.entry, hqs, recordEntry_disk_slot hp0, entryAt_withEntry_of_ne, State.entry, hqs]
      intro hidx
      exact hqp (Prod.ext hqs hidx)
    · rw [State.entry, recordEntry_disk hq0 hqs, State.entry]
  · exact hchain.congr hlayout fun _ _ => rfl
  · have hxp : x ≠ p.1 := by
      rintro rfl
      exact hnew _ hx hpused
    rw [State.entry, recordEntry_disk (hzero x (hchain.range x hx).1) hxp]
    exact hempty hf x hx i hi

theorem recordEntry_onDisk {s : State} (hg : Geometry s) (h : Persisted s) {p : Nat × Nat}
    (hp : s.currentFs.rootDirSector ≤ p.1) (e : Entry) : Persisted (recordEntry s p e) :=
  OnDisk.setTotalFiles (OnDisk.write hg h hp _) _

theorem recordEntry_kept {s s₁ : State} {t t₁ : Tree} {d : Nat} {p : Nat × Nat} {e : Entry}
    {l : List Nat} (hrep : Rep s t) (hslot : Slotted s t d s₁ t₁ p) (hd : t.IsDir d)
    (hfresh : ¬ t₁.IsHead e.startSector) :
    Kept s (recordEntry s₁ p e) t (t₁.insert ⟨d, p, e⟩ l) := by
  have h := hslot.rep
  intro b hb _ hf
  have hb₁ : b ∈ t₁.items := by
    rw [hslot.items]
    exact hb
  have hbhead := Tree.isHead_of_mem hb₁
  have hbd : b.entry.startSector ≠ d := by
    rintro rfl
    exact hrep.ok.file_not_dir hb hf hd
  have hd₁ : t₁.IsDir d := by
    unfold Tree.IsDir
    rw [hslot.items, hslot.root]
    exact hd
  have hchain : t₁.chain b.entry.startSector = t.chain b.entry.startSector := hslot.chain _ hbd
  have hne : b.entry.startSector ≠ e.startSector := by
    intro heq
    exact hfresh (heq ▸ hbhead)
  refine ⟨(Function.update_of_ne hne _ _).trans hchain, fun x hx => ?_⟩
  have hx0 : x ≠ 0 := by
    have h1 := (hrep.used_range ⟨_, Tree.isHead_of_mem hb, hx⟩).1
    have h2 := hrep.geometry.two_le
    omega
  have hxp : x ≠ p.1 := by
    rintro rfl
    refine hbd (h.ok.disjoint _ d _ hbhead (Tree.isHead_of_isDir hd₁) ?_ hslot.mem)
    rwa [hchain]
  rw [recordEntry_disk hx0 hxp]
  exact hslot.disk x ⟨_, Tree.isHead_of_mem hb, hx⟩

/-! ## Paths -/

theorem length_dropWhile_lt {p : UInt8 → Bool} {c : UInt8} {l : CStr} (h : p c = true) :
    ((c :: l).dropWhile p).length < (c :: l).length := by
  rw [List.dropWhile_cons_of_pos h, List.length_cons]
  exact Nat.lt_succ_of_le (List.dropWhile_sublist p).length_le

/-- A path leads to a directory of the tree, or nowhere. -/
theorem resolveFrom_cases {s : State} {t : Tree} (h : Rep s t) :
    ∀ {fuel : Nat} {path : CStr} {d : Nat}, 0 ∉ path → t.IsDir d → path.length < fuel →
      resolveFrom s fuel path d = some none ∨
        ∃ d', t.IsDir d' ∧ resolveFrom s fuel path d = some (some d') := by
  intro fuel
  induction fuel with
  | zero => intro path d _ _ hf; omega
  | succ fuel ih =>
    intro path d hpath hd hf
    rw [resolveFrom]
    cases hrest : path.dropWhile (· == slash) with
    | nil => exact Or.inr ⟨d, hd, rfl⟩
    | cons c rest =>
      have hsub : (c :: rest).Sublist path := by
        rw [← hrest]
        exact List.dropWhile_sublist _
      have hc : (c != slash) = true := by
        have := List.head?_dropWhile_not (· == slash) path
        rw [hrest] at this
        simpa using this
      have hcomp : 0 ∉ (c :: rest).takeWhile (· != slash) := fun hmem =>
        hpath (hsub.subset ((List.takeWhile_sublist _).subset hmem))
      dsimp only
      split_ifs with hlen
      · exact Or.inl rfl
      · rcases findEntryIn_cases h hd hcomp with ⟨a, ha, _, _, hrun⟩ | ⟨hrun, _⟩
        · simp only [hrun, Option.bind_eq_bind, Option.bind_some]
          split_ifs with hflag
          · exact Or.inl rfl
          · rw [not_not] at hflag
            refine ih (fun hmem => ?_) (Or.inr ⟨a, ha, hflag, rfl⟩) ?_
            · exact hpath (hsub.subset ((List.dropWhile_sublist _).subset hmem))
            · have h1 := length_dropWhile_lt (p := (· != slash)) (l := rest) hc
              have h2 := hsub.length_le
              omega
        · simp only [hrun, Option.bind_eq_bind, Option.bind_some]
          exact Or.inl rfl

theorem resolveDir_cases {s : State} {t : Tree} (h : Rep s t) {path : CStr} (hpath : 0 ∉ path) :
    resolveDir s path = some none ∨ ∃ d, t.IsDir d ∧ resolveDir s path = some (some d) := by
  refine resolveFrom_cases h hpath (Or.inl ?_) (Nat.lt_succ_self _)
  exact h.root.symm

theorem nul_notMem_lastName {path : CStr} (hpath : 0 ∉ path) : 0 ∉ lastName path := by
  intro hmem
  rw [lastName, List.mem_reverse] at hmem
  exact hpath (List.mem_reverse.mp ((List.takeWhile_sublist _).subset hmem))

theorem nul_notMem_parentPath {path : CStr} (hpath : 0 ∉ path) : 0 ∉ parentPath path :=
  fun hmem => hpath (List.mem_of_mem_take (List.mem_of_mem_take hmem))

/-- `split_last_nolock` refuses, or gives the parent directory and the last component. -/
theorem splitLast_cases {s : State} {t : Tree} (h : Rep s t) {path : CStr} (hpath : 0 ∉ path) :
    splitLast s path = some none ∨ ∃ d, t.IsDir d ∧ resolveDir s (parentPath path) = some (some d) ∧
      splitLast s path = some (some (d, lastName path)) := by
  unfold splitLast
  dsimp only
  split_ifs with hname
  · exact Or.inl rfl
  · rcases resolveDir_cases h (nul_notMem_parentPath hpath) with hrun | ⟨d, hd, hrun⟩
    · exact Or.inl (by simp [hrun])
    · exact Or.inr ⟨d, hd, hrun, by simp [hrun]⟩

end Kyuzen.Kfs
