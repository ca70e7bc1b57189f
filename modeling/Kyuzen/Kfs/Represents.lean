import Kyuzen.Lib.Chain
import Kyuzen.Kfs.Tree

/-!
# The tree on the disk

`Rep s t` ties a state of the file system to its tree: every object's chain is what the FAT
says, the items are exactly the non-empty slots of the directories, and the header counts
them. Four kinds of change keep it, each stated by what it leaves alone; the calls are made of
these (`frame`, `extend`, `insert`, `erase`).
-/

namespace Kyuzen.Kfs

open Lib.Chain

/-- The entry in a slot. -/
def State.entry (s : State) (p : Nat × Nat) : Entry := entryAt (s.disk p.1) p.2

/-- The areas of the disk: header, FAT, root directory, data. -/
structure Geometry (s : State) : Prop where
  root : s.currentFs.rootDirSector = 1 + s.fatSectorsNeeded
  two_le : 2 ≤ s.currentFs.rootDirSector
  room : s.currentFs.rootDirSector < s.totalDiskSectors
  cover : s.totalDiskSectors ≤ 128 * s.fatSectorsNeeded
  bound : s.totalDiskSectors < 2 ^ 28

/-- `l` is the chain of the object at `h`, inside the data area. -/
structure IsChain (s : State) (h : Nat) (l : List Nat) : Prop where
  path : Path s.fatTable h l fatEof
  ne : l ≠ []
  range : ∀ x ∈ l, s.currentFs.rootDirSector ≤ x ∧ x < s.totalDiskSectors

/-- Following the FAT from `h` visits `l` and ends. -/
def Follows (s : State) (h : Nat) (l : List Nat) : Prop :=
  Path s.fatTable h l fatEof ∧ fatEof ∉ l

structure Rep (s : State) (t : Tree) : Prop where
  ok : t.Ok
  geometry : Geometry s
  root : t.root = s.currentFs.rootDirSector
  chains : ∀ h, t.IsHead h → IsChain s h (t.chain h)
  mem_iff : ∀ a, a ∈ t.items ↔ t.IsDir a.dir ∧ a.slot.1 ∈ t.chain a.dir ∧ a.slot.2 < 16 ∧
    s.entry a.slot = a.entry ∧ a.entry.flags ≠ flagEmpty
  count : s.currentFs.totalFiles = t.items.card

/-- The layout of the disk has not changed. -/
structure SameLayout (s s' : State) : Prop where
  root : s'.currentFs.rootDirSector = s.currentFs.rootDirSector
  total : s'.totalDiskSectors = s.totalDiskSectors
  needed : s'.fatSectorsNeeded = s.fatSectorsNeeded

theorem Geometry.congr {s s' : State} (h : Geometry s) (hs : SameLayout s s') : Geometry s' := by
  obtain ⟨h1, h2, h3, h4, h5⟩ := h
  constructor <;> simp only [hs.root, hs.total, hs.needed] <;> assumption

/-! ## Chains -/

namespace IsChain

variable {s s' : State} {h : Nat} {l : List Nat}

theorem eof_not_mem (hg : Geometry s) (hc : IsChain s h l) : fatEof ∉ l := by
  intro hmem
  have h1 := (hc.range _ hmem).2
  have h2 := hg.bound
  have h3 : fatEof = 0xFFFFFFFF := rfl
  omega

theorem follows (hg : Geometry s) (hc : IsChain s h l) : Follows s h l :=
  ⟨hc.path, hc.eof_not_mem hg⟩

theorem eq_of_follows (hg : Geometry s) (hc : IsChain s h l) {l' : List Nat}
    (hl : Follows s h l') : l' = l :=
  path_unique hl.1 hc.path hl.2 (hc.eof_not_mem hg)

theorem nodup (hg : Geometry s) (hc : IsChain s h l) : l.Nodup :=
  path_nodup hc.path (hc.eof_not_mem hg)

theorem length_le (hg : Geometry s) (hc : IsChain s h l) : l.length ≤ s.totalDiskSectors := by
  have hsub : l.toFinset ⊆ Finset.range s.totalDiskSectors := by
    intro x hx
    exact Finset.mem_range.mpr (hc.range x (List.mem_toFinset.mp hx)).2
  have hcard := Finset.card_le_card hsub
  rwa [List.toFinset_card_of_nodup (hc.nodup hg), Finset.card_range] at hcard

theorem congr (hc : IsChain s h l) (hs : SameLayout s s')
    (hfat : ∀ x ∈ l, s'.fatTable x = s.fatTable x) : IsChain s' h l := by
  refine ⟨path_congr hfat hc.path, hc.ne, fun x hx => ?_⟩
  rw [hs.root, hs.total]
  exact hc.range x hx

/-- No sector of a chain is free. -/
theorem fat_ne_free (hg : Geometry s) (hc : IsChain s h l) {x : Nat} (hx : x ∈ l) :
    s.fatTable x ≠ fatFree := by
  obtain ⟨xs, ys, rfl, _, hrest⟩ := path_from hc.path hx
  have h2 := hg.two_le
  have hfree : fatFree = 0 := rfl
  cases ys with
  | nil =>
    have : s.fatTable x = fatEof := hrest
    rw [this]
    decide
  | cons y ys =>
    have hy := (hc.range y (by simp)).1
    rw [hrest.1]
    omega

theorem head_mem (hc : IsChain s h l) : h ∈ l := path_head hc.path hc.ne

theorem two_le (hg : Geometry s) (hc : IsChain s h l) : 2 ≤ h :=
  le_trans hg.two_le (hc.range h hc.head_mem).1

end IsChain

namespace Rep

variable {s s' : State} {t : Tree}

theorem used_ne_free (h : Rep s t) {x : Nat} (hx : t.Used x) : s.fatTable x ≠ fatFree := by
  obtain ⟨k, hk, hx⟩ := hx
  exact (h.chains k hk).fat_ne_free h.geometry hx

theorem used_range (h : Rep s t) {x : Nat} (hx : t.Used x) :
    s.currentFs.rootDirSector ≤ x ∧ x < s.totalDiskSectors := by
  obtain ⟨k, hk, hx⟩ := hx
  exact (h.chains k hk).range x hx

/-- The items of a slot are equal. -/
theorem slot_inj (h : Rep s t) {a b : Item} (ha : a ∈ t.items) (hb : b ∈ t.items)
    (hslot : a.slot = b.slot) : a = b := by
  obtain ⟨had, hasec, _, hae, _⟩ := (h.mem_iff a).mp ha
  obtain ⟨hbd, hbsec, _, hbe, _⟩ := (h.mem_iff b).mp hb
  have hdir : a.dir = b.dir := h.ok.disjoint _ _ a.slot.1 (Tree.isHead_of_isDir had)
    (Tree.isHead_of_isDir hbd) hasec (by rw [hslot]; exact hbsec)
  have hentry : a.entry = b.entry := by rw [← hae, ← hbe, hslot]
  obtain ⟨_, _, _⟩ := a
  obtain ⟨_, _, _⟩ := b
  simp only at hslot hdir hentry
  subst hslot hdir hentry
  rfl

theorem slot_used (h : Rep s t) {a : Item} (ha : a ∈ t.items) : t.Used a.slot.1 :=
  ⟨a.dir, Tree.isHead_of_isDir ((h.mem_iff a).mp ha).1, ((h.mem_iff a).mp ha).2.1⟩

/-! ## Changes -/

/-- Nothing changes on the sectors in use. -/
theorem frame (h : Rep s t) (hs : SameLayout s s')
    (hcount : s'.currentFs.totalFiles = s.currentFs.totalFiles)
    (hsame : ∀ x, t.Used x → s'.fatTable x = s.fatTable x ∧ s'.disk x = s.disk x) :
    Rep s' t := by
  refine ⟨h.ok, h.geometry.congr hs, h.root.trans hs.root.symm, fun k hk => ?_, fun a => ?_,
    hcount.trans h.count⟩
  · exact (h.chains k hk).congr hs fun x hx => (hsame x ⟨k, hk, hx⟩).1
  · rw [h.mem_iff a]
    refine and_congr_right fun hd => and_congr_right fun hsec => ?_
    have hu : t.Used a.slot.1 := ⟨a.dir, Tree.isHead_of_isDir hd, hsec⟩
    rw [State.entry, State.entry, (hsame _ hu).2]

/-- A directory takes an unused sector, which has only empty slots. -/
theorem extend (h : Rep s t) (hs : SameLayout s s')
    (hcount : s'.currentFs.totalFiles = s.currentFs.totalFiles) {d new last : Nat}
    {init : List Nat} (hd : t.IsDir d) (hchain : t.chain d = init ++ [last])
    (hnew : ¬ t.Used new)
    (hrange : s.currentFs.rootDirSector ≤ new ∧ new < s.totalDiskSectors)
    (hlast : s'.fatTable last = new) (heof : s'.fatTable new = fatEof)
    (hfat : ∀ x, t.Used x → x ≠ last → s'.fatTable x = s.fatTable x)
    (hdisk : ∀ x, t.Used x → s'.disk x = s.disk x)
    (hempty : ∀ i, i < 16 → (s'.entry (new, i)).flags = flagEmpty) :
    Rep s' (t.extend d new) := by
  have hhead := Tree.isHead_of_isDir hd
  have hdchain := h.chains d hhead
  have hlastmem : last ∈ t.chain d := by simp [hchain]
  refine ⟨Tree.ok_extend h.ok hd hnew, h.geometry.congr hs, h.root.trans hs.root.symm,
    fun k hk => ?_, fun a => ?_, hcount.trans h.count⟩
  · by_cases hkd : k = d
    · subst hkd
      simp only [Tree.extend, Function.update_self]
      have hnodup := hdchain.nodup h.geometry
      have hpath := hdchain.path
      rw [hchain] at hnodup hpath ⊢
      refine ⟨path_concat hpath (fun x hx => ?_) hlast heof, by simp, fun x hx => ?_⟩
      · refine hfat x ⟨k, hk, by simp [hchain, hx]⟩ ?_
        rintro rfl
        exact List.disjoint_of_nodup_append hnodup hx (by simp)
      · rw [hs.root, hs.total]
        rcases List.mem_append.mp hx with hx | hx
        · exact hdchain.range x (by rwa [hchain])
        · rw [List.mem_singleton] at hx
          rw [hx]
          exact hrange
    · simp only [Tree.extend, Function.update_of_ne hkd]
      refine (h.chains k hk).congr hs fun x hx => hfat x ⟨k, hk, hx⟩ ?_
      rintro rfl
      exact hkd (h.ok.disjoint k d x hk hhead hx hlastmem)
  · change a ∈ t.items ↔ t.IsDir a.dir ∧ a.slot.1 ∈ (t.extend d new).chain a.dir ∧ _
    rw [h.mem_iff a]
    refine and_congr_right fun had => ?_
    have hold : ∀ x, x ∈ t.chain a.dir → s'.disk x = s.disk x :=
      fun x hx => hdisk x ⟨a.dir, Tree.isHead_of_isDir had, hx⟩
    constructor
    · rintro ⟨hsec, hidx, hentry, hflags⟩
      refine ⟨?_, hidx, ?_, hflags⟩
      · by_cases had' : a.dir = d
        · simp only [Tree.extend, had', Function.update_self]
          exact List.mem_append_left _ (had' ▸ hsec)
        · simpa only [Tree.extend, Function.update_of_ne had'] using hsec
      · rw [← hentry, State.entry, State.entry, hold _ hsec]
    · rintro ⟨hsec, hidx, hentry, hflags⟩
      have hsec' : a.slot.1 ∈ t.chain a.dir := by
        by_cases had' : a.dir = d
        · simp only [Tree.extend, had', Function.update_self, List.mem_append,
            List.mem_singleton] at hsec
          rcases hsec with hsec | hsec
          · rwa [had']
          · rw [← hentry, ← Prod.mk.eta (p := a.slot), hsec] at hflags
            exact absurd (hempty _ hidx) hflags
        · simpa only [Tree.extend, Function.update_of_ne had'] using hsec
      refine ⟨hsec', hidx, ?_, hflags⟩
      rw [← hentry, State.entry, State.entry, hold _ hsec']

/-- An empty slot takes an entry for an object on unused sectors. -/
theorem insert (h : Rep s t) (hs : SameLayout s s')
    (hcount : s'.currentFs.totalFiles = s.currentFs.totalFiles + 1) {a : Item} {l : List Nat}
    (hd : t.IsDir a.dir) (hsec : a.slot.1 ∈ t.chain a.dir) (hidx : a.slot.2 < 16)
    (hfree : (s.entry a.slot).flags = flagEmpty) (hentry : s'.entry a.slot = a.entry)
    (hother : ∀ q, t.Used q.1 → q ≠ a.slot → s'.entry q = s.entry q)
    (hfat : ∀ x, t.Used x → s'.fatTable x = s.fatTable x)
    (hflags : a.entry.flags = flagFile ∨ a.entry.flags = flagFolder)
    (hterm : a.entry.filename 22 = 0) (hchain : IsChain s' a.entry.startSector l)
    (hnew : ∀ x ∈ l, ¬ t.Used x)
    (hlen : a.entry.flags = flagFile → l.length = chainLength a.entry.sizeBytes)
    (hempty : a.entry.flags = flagFolder →
      ∀ x ∈ l, ∀ i, i < 16 → (s'.entry (x, i)).flags = flagEmpty) :
    Rep s' (t.insert a l) := by
  have hne : a.entry.flags ≠ flagEmpty := by
    rcases hflags with hf | hf <;> rw [hf] <;> decide
  have hfresh := h.ok.start_fresh hchain.head_mem hnew
  have hold : ∀ k, t.IsHead k → (t.insert a l).chain k = t.chain k := by
    intro k hk
    simp only [Tree.insert]
    rw [Function.update_of_ne]
    rintro rfl
    exact hfresh hk
  have hself : (t.insert a l).chain a.entry.startSector = l := Function.update_self _ _ _
  have hnotin : a ∉ t.items := by
    intro ha
    obtain ⟨_, _, _, he, _⟩ := (h.mem_iff a).mp ha
    rw [he] at hfree
    exact hne hfree
  refine ⟨Tree.ok_insert h.ok hd hflags hterm hchain.head_mem hnew hlen,
    h.geometry.congr hs, h.root.trans hs.root.symm, fun k hk => ?_, fun b => ?_, ?_⟩
  · rcases Tree.isHead_insert.mp hk with rfl | hk
    · rw [hself]
      exact hchain
    · rw [hold k hk]
      exact (h.chains k hk).congr hs fun x hx => hfat x ⟨k, hk, hx⟩
  · rw [Tree.isDir_insert]
    constructor
    · intro hb
      rcases Finset.mem_insert.mp hb with rfl | hb
      · exact ⟨Or.inr hd, by rwa [hold _ (Tree.isHead_of_isDir hd)], hidx, hentry, hne⟩
      · obtain ⟨hbd, hbsec, hbidx, hbe, hbf⟩ := (h.mem_iff b).mp hb
        refine ⟨Or.inr hbd, by rwa [hold _ (Tree.isHead_of_isDir hbd)], hbidx, ?_, hbf⟩
        rw [hother _ (h.slot_used hb), hbe]
        intro hslot
        rw [hslot] at hbe
        rw [hbe] at hfree
        exact hbf hfree
    · rintro ⟨⟨hf, hbd⟩ | hbd, hbsec, hbidx, hbe, hbf⟩
      · rw [hbd, hself] at hbsec
        rw [← hbe] at hbf
        exact absurd (hempty hf _ hbsec _ hbidx) hbf
      · have hbhead := Tree.isHead_of_isDir hbd
        rw [hold _ hbhead] at hbsec
        refine Finset.mem_insert.mpr ?_
        by_cases hslot : b.slot = a.slot
        · left
          have hdir : b.dir = a.dir := h.ok.disjoint _ _ a.slot.1 hbhead
            (Tree.isHead_of_isDir hd) (hslot ▸ hbsec) hsec
          have hbe' : b.entry = a.entry := by rw [← hbe, hslot, hentry]
          obtain ⟨_, _, _⟩ := a
          obtain ⟨_, _, _⟩ := b
          simp only at hslot hdir hbe'
          subst hslot hdir hbe'
          rfl
        · right
          rw [hother _ ⟨b.dir, hbhead, hbsec⟩ hslot] at hbe
          exact (h.mem_iff b).mpr ⟨hbd, hbsec, hbidx, hbe, hbf⟩
  · rw [hcount, h.count]
    exact (Finset.card_insert_of_notMem hnotin).symm

/-- A file's slot is emptied; its chain is no longer in use. -/
theorem erase (h : Rep s t) (hs : SameLayout s s')
    (hcount : s'.currentFs.totalFiles = s.currentFs.totalFiles - 1) {a : Item}
    (ha : a ∈ t.items) (hf : a.entry.flags = flagFile)
    (hfree : (s'.entry a.slot).flags = flagEmpty)
    (hother : ∀ q, t.Used q.1 → q ≠ a.slot → s'.entry q = s.entry q)
    (hfat : ∀ x, t.Used x → x ∉ t.chain a.entry.startSector → s'.fatTable x = s.fatTable x) :
    Rep s' (t.erase a) := by
  have hne : ∀ k, (t.erase a).IsHead k → k ≠ a.entry.startSector := by
    rintro k (hk | ⟨b, hb, rfl⟩) heq
    · exact h.ok.start_ne a ha (heq.symm.trans hk)
    · obtain ⟨hba, hb⟩ := Finset.mem_erase.mp hb
      exact hba (h.ok.inj b hb a ha heq)
  refine ⟨Tree.ok_erase h.ok hf, h.geometry.congr hs, h.root.trans hs.root.symm, fun k hk => ?_,
    fun b => ?_, ?_⟩
  · have hk' := Tree.isHead_of_erase hk
    refine (h.chains k hk').congr hs fun x hx => hfat x ⟨k, hk', hx⟩ fun hx' => ?_
    exact hne k hk (h.ok.disjoint k _ x hk' (Tree.isHead_of_mem ha) hx hx')
  · rw [Tree.isDir_erase hf]
    change b ∈ t.items.erase a ↔ t.IsDir b.dir ∧ b.slot.1 ∈ t.chain b.dir ∧ _
    rw [Finset.mem_erase]
    constructor
    · rintro ⟨hba, hb⟩
      obtain ⟨hbd, hbsec, hbidx, hbe, hbf⟩ := (h.mem_iff b).mp hb
      refine ⟨hbd, hbsec, hbidx, ?_, hbf⟩
      rw [hother _ (h.slot_used hb) fun hslot => hba (h.slot_inj hb ha hslot), hbe]
    · rintro ⟨hbd, hbsec, hbidx, hbe, hbf⟩
      have hslot : b.slot ≠ a.slot := by
        intro hslot
        rw [← hbe, hslot] at hbf
        exact hbf hfree
      rw [hother _ ⟨b.dir, Tree.isHead_of_isDir hbd, hbsec⟩ hslot] at hbe
      refine ⟨?_, (h.mem_iff b).mpr ⟨hbd, hbsec, hbidx, hbe, hbf⟩⟩
      rintro rfl
      exact hslot rfl
  · rw [hcount, h.count]
    exact (Finset.card_erase_of_mem ha).symm

end Rep

end Kyuzen.Kfs
