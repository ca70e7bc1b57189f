import Kyuzen.Kfs.Layout

/-!
# The directory tree

What the disk stands for, without a disk: the entries in use, each in a slot of its directory
(`Item`), and the chain of sectors of the root directory and of every entry's object. `Ok`
says that this is a tree whose objects do not share sectors. The three ways in which a call
changes the tree keep it: a directory takes one more sector (`ok_extend`), an entry is added
together with a chain of unused sectors (`ok_insert`), a file's entry is removed (`ok_erase`).
-/

namespace Kyuzen.Kfs

/-- An entry in use: its directory, its slot (sector and index) and its contents. -/
structure Item where
  dir : Nat
  slot : Nat × Nat
  entry : Entry
  deriving DecidableEq

structure Tree where
  root : Nat
  items : Finset Item
  /-- The sectors of the object that starts at a sector. -/
  chain : Nat → List Nat

/-- `max(1, ceil(size / 512))`. -/
def chainLength (size : Nat) : Nat := max 1 ((size + 511) / 512)

namespace Tree

variable (t : Tree)

/-- A directory: the root or a folder. -/
def IsDir (d : Nat) : Prop :=
  d = t.root ∨ ∃ a ∈ t.items, a.entry.flags = flagFolder ∧ a.entry.startSector = d

/-- The first sector of an object. -/
def IsHead (h : Nat) : Prop := h = t.root ∨ ∃ a ∈ t.items, a.entry.startSector = h

def Used (x : Nat) : Prop := ∃ h, t.IsHead h ∧ x ∈ t.chain h

/-- The directories that folders lead to from the root. -/
inductive Reach : Nat → Prop
  | root : Reach t.root
  | folder {a : Item} (h : Reach a.dir) (ha : a ∈ t.items) (hf : a.entry.flags = flagFolder) :
      Reach a.entry.startSector

structure Ok : Prop where
  flags : ∀ a ∈ t.items, a.entry.flags = flagFile ∨ a.entry.flags = flagFolder
  terminated : ∀ a ∈ t.items, a.entry.filename 22 = 0
  inj : ∀ a ∈ t.items, ∀ b ∈ t.items, a.entry.startSector = b.entry.startSector → a = b
  start_ne : ∀ a ∈ t.items, a.entry.startSector ≠ t.root
  head_mem : ∀ h, t.IsHead h → h ∈ t.chain h
  disjoint : ∀ h k x, t.IsHead h → t.IsHead k → x ∈ t.chain h → x ∈ t.chain k → h = k
  length : ∀ a ∈ t.items, a.entry.flags = flagFile →
    (t.chain a.entry.startSector).length = chainLength a.entry.sizeBytes
  reach : ∀ d, t.IsDir d → t.Reach d

/-- A directory takes one more sector. -/
def extend (d new : Nat) : Tree :=
  { t with chain := Function.update t.chain d (t.chain d ++ [new]) }

def insert (a : Item) (l : List Nat) : Tree :=
  { t with
    items := Insert.insert a t.items
    chain := Function.update t.chain a.entry.startSector l }

def erase (a : Item) : Tree := { t with items := t.items.erase a }

variable {t}

theorem isHead_of_isDir {d : Nat} (h : t.IsDir d) : t.IsHead d := by
  rcases h with h | ⟨a, ha, _, hd⟩
  · exact Or.inl h
  · exact Or.inr ⟨a, ha, hd⟩

theorem isHead_of_mem {a : Item} (ha : a ∈ t.items) : t.IsHead a.entry.startSector :=
  Or.inr ⟨a, ha, rfl⟩

/-- A file does not start where a directory does. -/
theorem Ok.file_not_dir (h : t.Ok) {a : Item} (ha : a ∈ t.items)
    (hf : a.entry.flags = flagFile) : ¬ t.IsDir a.entry.startSector := by
  rintro (hroot | ⟨b, hb, hbf, heq⟩)
  · exact h.start_ne a ha hroot
  · rw [h.inj b hb a ha heq, hf] at hbf
    exact absurd hbf (by decide)

theorem Reach.mono {d : Nat} (h : t.Reach d) (t' : Tree) (hroot : t'.root = t.root)
    (hsub : ∀ a ∈ t.items, a.entry.flags = flagFolder → a ∈ t'.items) : t'.Reach d := by
  induction h with
  | root =>
    rw [← hroot]
    exact Reach.root
  | folder _ ha hf ih => exact Reach.folder ih (hsub _ ha hf) hf

/-! ## A directory grows -/

theorem ok_extend (h : t.Ok) {d new : Nat} (hd : t.IsDir d) (hnew : ¬ t.Used new) :
    (t.extend d new).Ok := by
  have hhead := isHead_of_isDir hd
  have hne : ∀ a ∈ t.items, a.entry.flags = flagFile → a.entry.startSector ≠ d := by
    rintro a ha hf rfl
    exact h.file_not_dir ha hf hd
  -- a sector of a chain after the change
  have hmem : ∀ k x, x ∈ (t.extend d new).chain k → x ∈ t.chain k ∨ k = d ∧ x = new := by
    intro k x hx
    by_cases hk : k = d
    · subst hk
      simp only [extend, Function.update_self, List.mem_append, List.mem_singleton] at hx
      exact hx.imp id fun hx => ⟨rfl, hx⟩
    · simp only [extend, Function.update_of_ne hk] at hx
      exact Or.inl hx
  refine ⟨h.flags, h.terminated, h.inj, h.start_ne, fun k hk => ?_, ?_, fun a ha hf => ?_,
    fun k hk => (h.reach k hk).mono _ rfl fun a ha _ => ha⟩
  · have := h.head_mem k hk
    by_cases hkd : k = d
    · subst hkd
      simp [extend, this]
    · simpa [extend, Function.update_of_ne hkd] using this
  · intro k k' x hk hk' hx hx'
    rcases hmem k x hx with hold | ⟨hkd, rfl⟩
    · rcases hmem k' x hx' with hold' | ⟨_, rfl⟩
      · exact h.disjoint k k' x hk hk' hold hold'
      · exact absurd ⟨k, hk, hold⟩ hnew
    · rcases hmem k' x hx' with hold' | ⟨hkd', _⟩
      · exact absurd ⟨k', hk', hold'⟩ hnew
      · rw [hkd, hkd']
  · simp only [extend, Function.update_of_ne (hne a ha hf)]
    exact h.length a ha hf

/-! ## An entry is added -/

section Insert

variable {a : Item} {l : List Nat}

theorem isHead_insert {h : Nat} :
    (t.insert a l).IsHead h ↔ h = a.entry.startSector ∨ t.IsHead h := by
  simp only [IsHead, insert, Finset.mem_insert]
  constructor
  · rintro (h | ⟨b, rfl | hb, rfl⟩)
    · exact Or.inr (Or.inl h)
    · exact Or.inl rfl
    · exact Or.inr (Or.inr ⟨b, hb, rfl⟩)
  · rintro (rfl | h | ⟨b, hb, rfl⟩)
    · exact Or.inr ⟨a, Or.inl rfl, rfl⟩
    · exact Or.inl h
    · exact Or.inr ⟨b, Or.inr hb, rfl⟩

theorem isDir_insert {d : Nat} :
    (t.insert a l).IsDir d ↔
      a.entry.flags = flagFolder ∧ d = a.entry.startSector ∨ t.IsDir d := by
  simp only [IsDir, insert, Finset.mem_insert]
  constructor
  · rintro (h | ⟨b, rfl | hb, hf, rfl⟩)
    · exact Or.inr (Or.inl h)
    · exact Or.inl ⟨hf, rfl⟩
    · exact Or.inr (Or.inr ⟨b, hb, hf, rfl⟩)
  · rintro (⟨hf, rfl⟩ | h | ⟨b, hb, hf, rfl⟩)
    · exact Or.inr ⟨a, Or.inl rfl, hf, rfl⟩
    · exact Or.inl h
    · exact Or.inr ⟨b, Or.inr hb, hf, rfl⟩

/-- The start of a chain of unused sectors is not the start of an object. -/
theorem Ok.start_fresh (h : t.Ok) (hl : a.entry.startSector ∈ l) (hnew : ∀ x ∈ l, ¬ t.Used x) :
    ¬ t.IsHead a.entry.startSector := fun hhead =>
  hnew _ hl ⟨_, hhead, h.head_mem _ hhead⟩

theorem ok_insert (h : t.Ok) (hd : t.IsDir a.dir)
    (hflags : a.entry.flags = flagFile ∨ a.entry.flags = flagFolder)
    (hterm : a.entry.filename 22 = 0) (hl : a.entry.startSector ∈ l)
    (hnew : ∀ x ∈ l, ¬ t.Used x)
    (hlen : a.entry.flags = flagFile → l.length = chainLength a.entry.sizeBytes) :
    (t.insert a l).Ok := by
  have hfresh := h.start_fresh hl hnew
  have hold : ∀ k, t.IsHead k → (t.insert a l).chain k = t.chain k := by
    intro k hk
    simp only [insert]
    rw [Function.update_of_ne]
    rintro rfl
    exact hfresh hk
  have hself : (t.insert a l).chain a.entry.startSector = l := Function.update_self _ _ _
  have hreach : ∀ d, t.Reach d → (t.insert a l).Reach d := fun d hd =>
    hd.mono _ rfl fun b hb _ => Finset.mem_insert_of_mem hb
  refine ⟨?_, ?_, ?_, ?_, ?_, ?_, ?_, ?_⟩
  · intro b hb
    rcases Finset.mem_insert.mp hb with rfl | hb
    · exact hflags
    · exact h.flags b hb
  · intro b hb
    rcases Finset.mem_insert.mp hb with rfl | hb
    · exact hterm
    · exact h.terminated b hb
  · intro b hb c hc heq
    rcases Finset.mem_insert.mp hb with hba | hb <;> rcases Finset.mem_insert.mp hc with hca | hc
    · rw [hba, hca]
    · rw [hba] at heq
      exact absurd (Or.inr ⟨c, hc, heq.symm⟩) hfresh
    · rw [hca] at heq
      exact absurd (Or.inr ⟨b, hb, heq⟩) hfresh
    · exact h.inj b hb c hc heq
  · intro b hb heq
    rcases Finset.mem_insert.mp hb with rfl | hb
    · exact hfresh (Or.inl heq)
    · exact h.start_ne b hb heq
  · intro k hk
    rcases isHead_insert.mp hk with rfl | hk
    · rw [hself]
      exact hl
    · rw [hold k hk]
      exact h.head_mem k hk
  · intro k k' x hk hk' hx hx'
    rcases isHead_insert.mp hk with rfl | hk <;> rcases isHead_insert.mp hk' with rfl | hk'
    · rfl
    · rw [hself] at hx
      rw [hold k' hk'] at hx'
      exact absurd ⟨k', hk', hx'⟩ (hnew x hx)
    · rw [hself] at hx'
      rw [hold k hk] at hx
      exact absurd ⟨k, hk, hx⟩ (hnew x hx')
    · rw [hold k hk] at hx
      rw [hold k' hk'] at hx'
      exact h.disjoint k k' x hk hk' hx hx'
  · intro b hb hf
    rcases Finset.mem_insert.mp hb with rfl | hb
    · rw [hself]
      exact hlen hf
    · rw [hold _ (isHead_of_mem hb)]
      exact h.length b hb hf
  · intro d hd'
    rcases isDir_insert.mp hd' with ⟨hf, rfl⟩ | hd'
    · exact Reach.folder (hreach _ (h.reach _ hd)) (Finset.mem_insert_self _ _) hf
    · exact hreach d (h.reach d hd')

end Insert

/-! ## A file's entry is removed -/

theorem isHead_of_erase {a : Item} {h : Nat} (hh : (t.erase a).IsHead h) : t.IsHead h := by
  rcases hh with h | ⟨b, hb, rfl⟩
  · exact Or.inl h
  · exact isHead_of_mem (Finset.mem_of_mem_erase hb)

theorem isDir_erase {a : Item} (hf : a.entry.flags = flagFile) {d : Nat} :
    (t.erase a).IsDir d ↔ t.IsDir d := by
  simp only [IsDir, erase]
  constructor
  · rintro (h | ⟨b, hb, hbf, rfl⟩)
    · exact Or.inl h
    · exact Or.inr ⟨b, Finset.mem_of_mem_erase hb, hbf, rfl⟩
  · rintro (h | ⟨b, hb, hbf, rfl⟩)
    · exact Or.inl h
    · refine Or.inr ⟨b, Finset.mem_erase.mpr ⟨?_, hb⟩, hbf, rfl⟩
      rintro rfl
      rw [hf] at hbf
      exact absurd hbf (by decide)

theorem ok_erase (h : t.Ok) {a : Item} (hf : a.entry.flags = flagFile) : (t.erase a).Ok := by
  have hsub : ∀ b, b ∈ (t.erase a).items → b ∈ t.items := fun b hb => Finset.mem_of_mem_erase hb
  refine ⟨fun b hb => h.flags b (hsub b hb), fun b hb => h.terminated b (hsub b hb),
    fun b hb c hc => h.inj b (hsub b hb) c (hsub c hc), fun b hb => h.start_ne b (hsub b hb),
    fun k hk => h.head_mem k (isHead_of_erase hk),
    fun k k' x hk hk' => h.disjoint k k' x (isHead_of_erase hk) (isHead_of_erase hk'),
    fun b hb => h.length b (hsub b hb), fun d hd => ?_⟩
  refine (h.reach d ((isDir_erase hf).mp hd)).mono _ rfl fun b hb hbf => ?_
  refine Finset.mem_erase.mpr ⟨?_, hb⟩
  rintro rfl
  rw [hf] at hbf
  exact absurd hbf (by decide)

end Tree

end Kyuzen.Kfs
