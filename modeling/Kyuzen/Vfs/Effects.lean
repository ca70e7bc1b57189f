import Kyuzen.Kfs.View
import Kyuzen.Vfs.Model

/-!
# What the calls do to the descriptors

A call on a descriptor in use changes that descriptor only, and of it neither the path nor the
flags (`Touched`); opening puts a new descriptor into a slot, closing empties one. So a property
of descriptors that a new one has and that `Touched` keeps holds in every run (`exec_files`), and
every descriptor that fits the file system can be closed (`exec_fits`, `closeUpTo_fits`).
-/

namespace Kyuzen.Vfs

open Lib.Memory
open Kfs (CStr Sound)

variable {drive : Kfs.Drive} {s s' : State} {vf vf' : VfsFile} {fs : Kfs.State} {t : Kfs.Tree}
  {heap : Heap}

/-- A call on a descriptor: it may change the position, the buffer and its size. -/
structure Touched (heap : Heap) (vf vf' : VfsFile) : Prop where
  path : vf'.path = vf.path
  opened : vf'.opened = vf.opened
  flags : vf'.flags = vf.flags
  size : vf.size ≤ vf.cap → vf'.size ≤ vf'.cap
  cap : vf'.cap = vf.cap ∨ (heap vf'.cap).isSome = true
  dirty : vf'.dirty = true → vf.dirty = true ∨ has vf.flags (oWronly ||| oRdwr) = true

/-- A call leaves the table, or touches one descriptor in use. -/
def TouchesOne (heap : Heap) (s s' : State) : Prop :=
  s' = s ∨ ∃ slot vf', (s.fds slot).used = true ∧ Touched heap (s.fds slot) vf' ∧
    s' = setFd s slot vf'

theorem touched_pos (heap : Heap) (vf : VfsFile) (pos : Nat) :
    Touched heap vf { vf with pos := pos } :=
  ⟨rfl, rfl, rfl, id, Or.inl rfl, Or.inl⟩

theorem resolve_used {task fd : Int} {slot : Nat} (h : resolve s task fd = some slot) :
    (s.fds slot).used = true := by
  unfold resolve at h
  split at h
  · cases h
  · split_ifs at h with hc
    obtain rfl := Option.some.inj h
    exact hc.1

/-! ## Opening -/

/-- What `vfs_open` has loaded: the bytes it read, or none. -/
theorem vfsLoad_cases {fs₁ fs₂ fs₃ : Kfs.State} {path : CStr} {flags : Nat} {l : Loaded}
    (h : vfsLoad heap fs₁ fs₂ fs₃ path flags = some (some l)) :
    ∃ existed fsize buf, Kfs.kfsExists fs₁ path = some existed ∧
      openSize fs₂ path existed = some fsize ∧ heap (openCap fsize) = some buf ∧
      (existed ≠ 0 ∧ has flags oTrunc = false ∧ 0 < fsize ∧
          (∃ ok b, ok ≠ 0 ∧ Kfs.kfsReadToBuffer fs₃ path buf (openCap fsize) = some (ok, b) ∧
            l = ⟨true, b, fsize, openCap fsize⟩) ∨
        ¬ (existed ≠ 0 ∧ has flags oTrunc = false ∧ 0 < fsize) ∧
          l = ⟨existed != 0, buf, 0, openCap fsize⟩) := by
  unfold vfsLoad at h
  obtain ⟨existed, hex, h⟩ := Option.bind_eq_some_iff.mp h
  split_ifs at h with hcreat
  · cases h
  obtain ⟨fsize, hsize, h⟩ := Option.bind_eq_some_iff.mp h
  split at h
  · cases h
  rename_i buf hbuf
  refine ⟨existed, fsize, buf, hex, hsize, hbuf, ?_⟩
  split_ifs at h with hread
  · obtain ⟨⟨ok, b⟩, hrun, h⟩ := Option.bind_eq_some_iff.mp h
    split_ifs at h with hok
    · cases h
    · exact Or.inl ⟨hread.1, hread.2.1, hread.2.2, ok, b, hok, hrun,
        (Option.some.inj (Option.some.inj h)).symm⟩
  · exact Or.inr ⟨hread, (Option.some.inj (Option.some.inj h)).symm⟩

/-- What `vfs_open` has loaded fits its buffer. -/
theorem vfsLoad_fits {fs₁ fs₂ fs₃ : Kfs.State} {path : CStr} {flags : Nat} {l : Loaded}
    (h : vfsLoad heap fs₁ fs₂ fs₃ path flags = some (some l)) :
    l.size ≤ l.cap ∧ (heap l.cap).isSome = true ∧
      (l.existed = false → Kfs.kfsExists fs₁ path = some 0) := by
  obtain ⟨existed, fsize, buf, hex, _, hbuf, ⟨_, _, _, ok, b, _, _, rfl⟩ | ⟨_, rfl⟩⟩ :=
    vfsLoad_cases h
  · refine ⟨?_, by simp [hbuf], fun hno => by cases hno⟩
    dsimp only [openCap]
    split_ifs <;> omega
  · refine ⟨Nat.zero_le _, by simp [hbuf], fun hno => ?_⟩
    have hzero : existed = 0 := by simpa using hno
    rw [hex, hzero]

theorem vfsOpen_effect {task : Int} {path : CStr} {flags : Nat} {r : Int × State}
    (h : vfsOpen heap s task path flags = some r) : r.2 = s ∨ ∃ l slot,
      vfsLoad heap s.fs s.fs s.fs path flags = some (some l) ∧
        r.2 = setFd s slot (newFile task path flags l) := by
  unfold vfsOpen at h
  split_ifs at h with hnil htask
  · obtain rfl := Option.some.inj h
    exact Or.inl rfl
  · obtain rfl := Option.some.inj h
    exact Or.inl rfl
  obtain ⟨l, hload, h⟩ := Option.bind_eq_some_iff.mp h
  cases l with
  | none =>
    obtain rfl := Option.some.inj h
    exact Or.inl rfl
  | some l =>
    obtain rfl := Option.some.inj h
    dsimp only [vfsInstall]
    split
    · exact Or.inl rfl
    · exact Or.inr ⟨l, _, hload, rfl⟩

/-! ## Reading and writing -/

theorem vfsRead_effect (heap : Heap) (s : State) (task fd : Int) (buf : Option Mem) (count : Nat) :
    TouchesOne heap s (vfsRead s task fd buf count).2.2 := by
  unfold vfsRead
  split
  · exact Or.inl rfl
  · exact Or.inl rfl
  · rename_i slot hres
    dsimp only
    by_cases hflags : has (s.fds slot).flags oWronly = true
    · rw [if_pos hflags]
      exact Or.inl rfl
    · rw [if_neg hflags]
      exact Or.inr ⟨slot, _, resolve_used hres, touched_pos heap _ _, rfl⟩

theorem vfsLseek_effect (heap : Heap) (s : State) (task fd offset whence : Int) :
    TouchesOne heap s (vfsLseek s task fd offset whence).2 := by
  unfold vfsLseek
  split
  · exact Or.inl rfl
  · rename_i slot hres
    dsimp only
    generalize (if whence = 1 then ((s.fds slot).pos : Int)
      else if whence = 2 then ((s.fds slot).size : Int) else 0) + offset = np
    by_cases hnp : np < 0 ∨ np > 2 ^ 32 - 1
    · rw [if_pos hnp]
      exact Or.inl rfl
    · rw [if_neg hnp]
      exact Or.inr ⟨slot, _, resolve_used hres, touched_pos heap _ _, rfl⟩

theorem growCap_spec {need : Nat} : ∀ {fuel cap cap' : Nat}, growCap need fuel cap = some cap' →
    need ≤ cap' ∧ cap ≤ cap' := by
  intro fuel
  induction fuel with
  | zero =>
    intro cap cap' h
    cases h
  | succ fuel ih =>
    intro cap cap' h
    rw [growCap] at h
    dsimp only at h
    split_ifs at h with hlt hwrap
    · obtain ⟨h1, h2⟩ := ih h
      exact ⟨h1, by omega⟩
    · obtain rfl := Option.some.inj h
      exact ⟨by omega, le_refl _⟩

/-- A descriptor that was grown has the capacity asked for, and only its buffer changed. -/
theorem ensureCap_spec {need : Nat} (h : ensureCap heap vf need = some vf') :
    need ≤ vf'.cap ∧ vf.cap ≤ vf'.cap ∧ (vf'.cap = vf.cap ∨ (heap vf'.cap).isSome = true) ∧
      ∃ buf cap, vf' = { vf with buf := buf, cap := cap } := by
  unfold ensureCap at h
  by_cases hle : need ≤ vf.cap
  · rw [if_pos hle] at h
    obtain rfl := Option.some.inj h
    exact ⟨hle, le_refl _, Or.inl rfl, vf.buf, vf.cap, rfl⟩
  by_cases hbig : need > 2 ^ 32 - 1
  · rw [if_neg hle, if_pos hbig] at h
    cases h
  rw [if_neg hle, if_neg hbig] at h
  split at h
  · cases h
  rename_i newcap hgrow
  split at h
  · cases h
  rename_i nb hheap
  obtain rfl := Option.some.inj h
  obtain ⟨hneed, hcap⟩ := growCap_spec hgrow
  refine ⟨hneed, ?_, Or.inr (by simp [hheap]), _, _, rfl⟩
  dsimp only
  split_ifs at hcap <;> omega

theorem seekAppend_eq (vf : VfsFile) : ∃ pos, seekAppend vf = { vf with pos := pos } := by
  unfold seekAppend
  split_ifs
  · exact ⟨vf.size, rfl⟩
  · exact ⟨vf.pos, rfl⟩

theorem vfsWrite_effect (heap : Heap) (s : State) (task fd : Int) (data : Option Mem)
    (count : Nat) : TouchesOne heap s (vfsWrite heap s task fd data count).2 := by
  unfold vfsWrite
  split
  · exact Or.inl rfl
  · exact Or.inl rfl
  · rename_i b slot hres
    obtain ⟨pos, hseek⟩ := seekAppend_eq (s.fds slot)
    split_ifs with hflags
    · exact Or.inl rfl
    rw [Bool.not_eq_false] at hflags
    rw [hseek]
    dsimp only
    split
    · exact Or.inr ⟨slot, _, resolve_used hres, touched_pos heap _ _, rfl⟩
    · rename_i vf hcap
      obtain ⟨hneed, hle, hheap, buf, cap, rfl⟩ := ensureCap_spec hcap
      dsimp only at hneed hle hheap ⊢
      refine Or.inr ⟨slot, _, resolve_used hres, ?_, rfl⟩
      refine ⟨rfl, rfl, rfl, fun hsize => ?_, hheap, fun _ => Or.inr hflags⟩
      have hmod := Nat.mod_le (pos + count) (2 ^ 32)
      dsimp only
      split_ifs <;> omega

/-! ## Closing -/

theorem closeSlot_fds {noise : Kfs.Noise} {slot : Nat} {r : Nat × State}
    (h : closeSlot drive noise s slot = some r) {i : Nat} (hi : (r.2.fds i).used = true) :
    i ≠ slot ∧ r.2.fds i = s.fds i := by
  unfold closeSlot at h
  obtain ⟨⟨stored, fs'⟩, _, h⟩ := Option.bind_eq_some_iff.mp h
  obtain rfl := Option.some.inj h
  have hne : i ≠ slot := by
    rintro rfl
    simp [setFd] at hi
  exact ⟨hne, Function.update_of_ne hne _ _⟩

/-- A descriptor that is in use after the loop has not changed, and is not one of those that the
loop has closed. -/
theorem closeUpTo_fds {noise : Nat → Kfs.Noise} {base : Nat} : ∀ {n : Nat} {s' : State},
    closeUpTo drive noise s base n = some s' → ∀ {i : Nat}, (s'.fds i).used = true →
      s'.fds i = s.fds i ∧ ∀ k, k < n → i ≠ base + k := by
  intro n
  induction n with
  | zero =>
    intro s' h i _
    obtain rfl := Option.some.inj h
    exact ⟨rfl, fun k hk => by omega⟩
  | succ n ih =>
    intro s' h i hi
    rw [closeUpTo] at h
    obtain ⟨s₁, hrun, h⟩ := Option.bind_eq_some_iff.mp h
    split_ifs at h with hused
    · obtain ⟨r, hclose, rfl⟩ := Option.map_eq_some_iff.mp h
      obtain ⟨hne, heq⟩ := closeSlot_fds hclose hi
      rw [heq] at hi ⊢
      obtain ⟨hsame, hno⟩ := ih hrun hi
      refine ⟨hsame, fun k hk => ?_⟩
      by_cases hkn : k = n
      · rw [hkn]
        exact hne
      · exact hno k (by omega)
    · obtain rfl := Option.some.inj h
      obtain ⟨hsame, hno⟩ := ih hrun hi
      refine ⟨hsame, fun k hk => ?_⟩
      by_cases hkn : k = n
      · rintro rfl
        rw [hkn] at hi
        exact hused hi
      · exact hno k (by omega)

theorem closeUpTo_other {noise : Nat → Kfs.Noise} {base : Nat} : ∀ {n : Nat} {s' : State},
    closeUpTo drive noise s base n = some s' → ∀ {i : Nat}, (∀ k, k < n → i ≠ base + k) →
      s'.fds i = s.fds i := by
  intro n
  induction n with
  | zero =>
    intro s' h i _
    obtain rfl := Option.some.inj h
    rfl
  | succ n ih =>
    intro s' h i hi
    rw [closeUpTo] at h
    obtain ⟨s₁, hrun, h⟩ := Option.bind_eq_some_iff.mp h
    have hsame := ih hrun fun k hk => hi k (by omega)
    split_ifs at h with hused
    · obtain ⟨r, hclose, rfl⟩ := Option.map_eq_some_iff.mp h
      obtain ⟨⟨stored, fs'⟩, _, hr⟩ := Option.bind_eq_some_iff.mp hclose
      obtain rfl := Option.some.inj hr
      exact (Function.update_of_ne (hi n (by omega)) _ _).trans hsame
    · obtain rfl := Option.some.inj h
      exact hsame

/-- The loop flushes every descriptor that is in use, one after the other, and does nothing at
the others. -/
theorem closeUpTo_flushes {noise : Nat → Kfs.Noise} {base : Nat} : ∀ {n : Nat} {s' : State},
    closeUpTo drive noise s base n = some s' → ∃ fs : Nat → Kfs.State, fs 0 = s.fs ∧
      fs n = s'.fs ∧ ∀ i < n,
        ((s.fds (base + i)).used = true → ∃ stored,
          flushLocked drive (noise i) (fs i) (s.fds (base + i)) = some (stored, fs (i + 1))) ∧
        ((s.fds (base + i)).used = false → fs (i + 1) = fs i) := by
  intro n
  induction n with
  | zero =>
    intro s' h
    obtain rfl := Option.some.inj h
    exact ⟨fun _ => s.fs, rfl, rfl, fun i hi => by omega⟩
  | succ n ih =>
    intro s' h
    rw [closeUpTo] at h
    obtain ⟨s₁, hrun, h⟩ := Option.bind_eq_some_iff.mp h
    obtain ⟨fs, hfirst, hlast, hflush⟩ := ih hrun
    have hsame : s₁.fds (base + n) = s.fds (base + n) :=
      closeUpTo_other hrun fun k hk => by omega
    rw [hsame] at h
    have hstep : ((s.fds (base + n)).used = true → ∃ stored,
        flushLocked drive (noise n) s₁.fs (s.fds (base + n)) = some (stored, s'.fs)) ∧
        ((s.fds (base + n)).used = false → s'.fs = s₁.fs) := by
      constructor
      · intro hused
        rw [if_pos hused] at h
        obtain ⟨r, hclose, rfl⟩ := Option.map_eq_some_iff.mp h
        obtain ⟨⟨stored, fs'⟩, hf, hr⟩ := Option.bind_eq_some_iff.mp hclose
        obtain rfl := Option.some.inj hr
        rw [hsame] at hf
        exact ⟨stored, hf⟩
      · intro hfree
        rw [if_neg (by simp [hfree])] at h
        obtain rfl := Option.some.inj h
        rfl
    refine ⟨fun i => if i ≤ n then fs i else s'.fs, ?_, if_neg (by omega), fun i hi => ?_⟩
    · exact (if_pos (Nat.zero_le n)).trans hfirst
    · by_cases hin : i = n
      · subst hin
        simp only [le_refl, if_true, if_neg (by omega : ¬ i + 1 ≤ i), hlast]
        exact hstep
      · simp only [if_pos (by omega : i ≤ n), if_pos (by omega : i + 1 ≤ n)]
        exact hflush i (by omega)

/-! ## Properties of descriptors -/

/-- A property of the descriptors in use, for new descriptors and for touched ones. -/
theorem exec_files {I : VfsFile → Prop} {env : Env} {op : Op} (h : ∀ i, (s.fds i).used = true →
    I (s.fds i)) (hopen : ∀ task path flags l, op = .openFile task path flags →
      vfsLoad env.heap s.fs s.fs s.fs path flags = some (some l) → I (newFile task path flags l))
    (htouch : ∀ vf vf', I vf → Touched env.heap vf vf' → I vf')
    (hrun : exec drive env s op = some s') : ∀ i, (s'.fds i).used = true → I (s'.fds i) := by
  have hset : ∀ {slot : Nat} {vf : VfsFile}, I vf → ∀ i, ((setFd s slot vf).fds i).used = true →
      I ((setFd s slot vf).fds i) := by
    intro slot vf hvf i hi
    by_cases his : i = slot
    · subst his
      simpa [setFd] using hvf
    · simp only [setFd, Function.update_of_ne his] at hi ⊢
      exact h i hi
  have htouches : TouchesOne env.heap s s' → ∀ i, (s'.fds i).used = true → I (s'.fds i) := by
    rintro (rfl | ⟨slot, vf, hused, ht, rfl⟩)
    · exact h
    · exact hset (htouch _ _ (h slot hused) ht)
  cases op with
  | openFile task path flags =>
    obtain ⟨r, hr, rfl⟩ := Option.map_eq_some_iff.mp hrun
    rcases vfsOpen_effect hr with heq | ⟨l, slot, hload, heq⟩
    · rw [heq]
      exact h
    · rw [heq]
      exact hset (hopen task path flags l rfl hload)
  | read task fd buf count =>
    obtain rfl := Option.some.inj hrun
    exact htouches (vfsRead_effect env.heap s task fd buf count)
  | write task fd data count =>
    obtain rfl := Option.some.inj hrun
    exact htouches (vfsWrite_effect env.heap s task fd data count)
  | lseek task fd offset whence =>
    obtain rfl := Option.some.inj hrun
    exact htouches (vfsLseek_effect env.heap s task fd offset whence)
  | close task fd =>
    obtain ⟨r, hr, rfl⟩ := Option.map_eq_some_iff.mp hrun
    unfold vfsClose at hr
    split at hr
    · obtain rfl := Option.some.inj hr
      exact h
    · obtain ⟨r', hclose, rfl⟩ := Option.map_eq_some_iff.mp hr
      intro i hi
      obtain ⟨_, heq⟩ := closeSlot_fds hclose hi
      rw [heq] at hi ⊢
      exact h i hi
  | closeAll task =>
    have hrun : vfsCloseAll drive env.noise s task = some s' := hrun
    unfold vfsCloseAll at hrun
    split_ifs at hrun
    · obtain rfl := Option.some.inj hrun
      exact h
    · intro i hi
      obtain ⟨heq, _⟩ := closeUpTo_fds hrun hi
      rw [heq] at hi ⊢
      exact h i hi
  | kfs op =>
    obtain ⟨out, _, rfl⟩ := Option.map_eq_some_iff.mp hrun
    exact h

section FileSystem

variable {I : VfsFile → Prop} {J : Kfs.State → Prop} (h : ∀ i, (s.fds i).used = true → I (s.fds i))
  (hfs : J s.fs) (hflush : ∀ fs vf noise r, J fs → I vf → flushLocked drive noise fs vf = some r →
    J r.2)

include h hfs hflush

omit h hfs in
theorem closeSlot_fs {noise : Kfs.Noise} {slot : Nat} {r : Nat × State} (hfs : J s.fs)
    (hvf : I (s.fds slot)) (hrun : closeSlot drive noise s slot = some r) : J r.2.fs := by
  unfold closeSlot at hrun
  obtain ⟨r', hr', hrun⟩ := Option.bind_eq_some_iff.mp hrun
  obtain rfl := Option.some.inj hrun
  exact hflush _ _ _ r' hfs hvf hr'

theorem closeUpTo_fs {noise : Nat → Kfs.Noise} {base : Nat} : ∀ {n : Nat} {s' : State},
    closeUpTo drive noise s base n = some s' → J s'.fs := by
  intro n
  induction n with
  | zero =>
    intro s' hrun
    obtain rfl := Option.some.inj hrun
    exact hfs
  | succ n ih =>
    intro s' hrun
    rw [closeUpTo] at hrun
    obtain ⟨s₁, hrun₁, hrun⟩ := Option.bind_eq_some_iff.mp hrun
    split_ifs at hrun with hused
    · obtain ⟨r, hclose, rfl⟩ := Option.map_eq_some_iff.mp hrun
      have hsame := (closeUpTo_fds hrun₁ hused).1
      refine closeSlot_fs hflush (ih hrun₁) ?_ hclose
      rw [hsame] at hused ⊢
      exact h _ hused
    · obtain rfl := Option.some.inj hrun
      exact ih hrun₁

/-- A property of the file system that flushing a descriptor keeps. -/
theorem exec_fs {env : Env} {op : Op} (hkfs : ∀ kop out, op = .kfs kop →
      Kfs.exec drive (env.noise 0) s.fs kop = some out → J out.state)
    (hrun : exec drive env s op = some s') : J s'.fs := by
  have htouches : TouchesOne env.heap s s' → J s'.fs := by
    rintro (rfl | ⟨_, _, _, _, rfl⟩)
    · exact hfs
    · exact hfs
  cases op with
  | openFile task path flags =>
    obtain ⟨r, hr, rfl⟩ := Option.map_eq_some_iff.mp hrun
    rcases vfsOpen_effect hr with heq | ⟨_, _, _, heq⟩
    all_goals
      rw [heq]
      exact hfs
  | read task fd buf count =>
    obtain rfl := Option.some.inj hrun
    exact htouches (vfsRead_effect env.heap s task fd buf count)
  | write task fd data count =>
    obtain rfl := Option.some.inj hrun
    exact htouches (vfsWrite_effect env.heap s task fd data count)
  | lseek task fd offset whence =>
    obtain rfl := Option.some.inj hrun
    exact htouches (vfsLseek_effect env.heap s task fd offset whence)
  | close task fd =>
    obtain ⟨r, hr, rfl⟩ := Option.map_eq_some_iff.mp hrun
    unfold vfsClose at hr
    split at hr
    · obtain rfl := Option.some.inj hr
      exact hfs
    · rename_i slot hres
      obtain ⟨r', hclose, rfl⟩ := Option.map_eq_some_iff.mp hr
      exact closeSlot_fs hflush hfs (h slot (resolve_used hres)) hclose
  | closeAll task =>
    have hrun : vfsCloseAll drive env.noise s task = some s' := hrun
    unfold vfsCloseAll at hrun
    split_ifs at hrun
    · obtain rfl := Option.some.inj hrun
      exact hfs
    · exact closeUpTo_fs h hfs hflush hrun
  | kfs op =>
    obtain ⟨out, hout, rfl⟩ := Option.map_eq_some_iff.mp hrun
    exact hkfs op out rfl hout

end FileSystem

/-! ## Descriptors that can be closed -/

/-- No block of the heap is too large for the size of a file to be rounded up. -/
def Env.Fits (env : Env) : Prop := ∀ n, (env.heap n).isSome = true → n ≤ 0xFFFFFE00

/-- The descriptor can be stored as a file. -/
structure FileFits (vf : VfsFile) : Prop where
  nul : 0 ∉ vf.path
  size : vf.size ≤ vf.cap
  cap : vf.cap ≤ 0xFFFFFE00

structure Fits (s : State) : Prop where
  fs : ∃ t, Sound s.fs t
  files : ∀ i, (s.fds i).used = true → FileFits (s.fds i)

theorem FileFits.touched {env : Env} (hfits : env.Fits) (h : FileFits vf)
    (ht : Touched env.heap vf vf') : FileFits vf' := by
  refine ⟨ht.path ▸ h.nul, ht.size h.size, ?_⟩
  rcases ht.cap with heq | hheap
  · rw [heq]
    exact h.cap
  · exact hfits _ hheap

theorem newFile_fits {env : Env} (hfits : env.Fits) {fs₁ fs₂ fs₃ : Kfs.State} {task : Int}
    {path : CStr} {flags : Nat} {l : Loaded} (hpath : 0 ∉ path)
    (h : vfsLoad env.heap fs₁ fs₂ fs₃ path flags = some (some l)) :
    FileFits (newFile task path flags l) := by
  obtain ⟨hsize, hheap, _⟩ := vfsLoad_fits h
  exact ⟨fun hmem => hpath (List.mem_of_mem_take hmem), hsize, hfits _ hheap⟩

/-- Removing the file is a call of the file system, or nothing. -/
theorem deleteExisting_cases (h : Sound fs t) {path : CStr} (hp : 0 ∉ path) :
    ∃ fs', deleteExisting fs path = some fs' ∧
      (fs' = fs ∨ ∃ out, Kfs.kfsDeleteFile fs path = some out ∧ fs' = out.state) := by
  obtain ⟨there, hthere⟩ : ∃ there, Kfs.kfsExists fs path = some there :=
    ⟨_, Kfs.kfsExists_fileAt h.rep hp⟩
  by_cases hzero : there = 0
  · exact ⟨fs, by simp [deleteExisting, hthere, hzero], Or.inl rfl⟩
  · obtain ⟨out, hdel, _⟩ := Kfs.kfsDeleteFile_cases h.rep hp
    exact ⟨out.state, by simp [deleteExisting, hthere, hzero, hdel], Or.inr ⟨out, hdel, rfl⟩⟩

theorem deleteExisting_sound (h : Sound fs t) {path : CStr} (hp : 0 ∉ path) :
    ∃ fs' t', deleteExisting fs path = some fs' ∧ Sound fs' t' := by
  obtain ⟨fs', hrun, rfl | ⟨out, hdel, rfl⟩⟩ := deleteExisting_cases h hp
  · exact ⟨fs', t, hrun, h⟩
  · have hexec : Kfs.exec ⟨0, by decide⟩ ⟨fun _ => 0, fun _ => 0⟩ fs (.deleteFile path) = some out :=
      hdel
    have hv : (Kfs.Op.deleteFile path).Valid := hp
    obtain ⟨t', ht'⟩ := Kfs.exec_sound h hv hexec
    exact ⟨out.state, t', hrun, ht'⟩

theorem flushLocked_returns (drive : Kfs.Drive) (h : Sound fs t) (hfit : FileFits vf)
    (noise : Kfs.Noise) :
    ∃ stored fs' t', flushLocked drive noise fs vf = some (stored, fs') ∧ Sound fs' t' := by
  unfold flushLocked
  split_ifs
  · obtain ⟨fs₁, t₁, hdel, h₁⟩ := deleteExisting_sound h hfit.nul
    have hsize : vf.size ≤ 0xFFFFFE00 := hfit.size.trans hfit.cap
    obtain ⟨out, hcreate, _⟩ := Kfs.kfsCreateFile_cases h₁.rep drive noise.fat noise.stack hfit.nul
      vf.buf hsize
    have hexec : Kfs.exec drive noise fs₁ (.createFile vf.path vf.buf vf.size) = some out := hcreate
    have hv : (Kfs.Op.createFile vf.path vf.buf vf.size).Valid := ⟨hfit.nul, hsize⟩
    obtain ⟨t₂, h₂⟩ := Kfs.exec_sound h₁ hv hexec
    exact ⟨out.ret, out.state, t₂, by simp [hdel, hcreate], h₂⟩
  · exact ⟨0, fs, t, rfl, h⟩

theorem closeSlot_fits (drive : Kfs.Drive) (h : Fits s) {slot : Nat}
    (hused : (s.fds slot).used = true) (noise : Kfs.Noise) :
    ∃ r, closeSlot drive noise s slot = some r ∧ Fits r.2 := by
  obtain ⟨t, ht⟩ := h.fs
  obtain ⟨stored, fs', t', hflush, ht'⟩ :=
    flushLocked_returns drive ht (h.files slot hused) noise
  obtain ⟨r, hclose, hfs⟩ : ∃ r, closeSlot drive noise s slot = some r ∧ r.2.fs = fs' := by
    simp [closeSlot, hflush]
  refine ⟨r, hclose, ⟨t', hfs ▸ ht'⟩, fun i hi => ?_⟩
  obtain ⟨_, heq⟩ := closeSlot_fds hclose hi
  rw [heq] at hi ⊢
  exact h.files i hi

/-- The loop of `vfs_close_all` ends. -/
theorem closeUpTo_fits (drive : Kfs.Drive) (h : Fits s) (noise : Nat → Kfs.Noise) (base n : Nat) :
    ∃ s', closeUpTo drive noise s base n = some s' ∧ Fits s' := by
  induction n with
  | zero => exact ⟨s, rfl, h⟩
  | succ n ih =>
    obtain ⟨s₁, hrun, h₁⟩ := ih
    simp only [closeUpTo, hrun, Option.bind_eq_bind, Option.bind_some]
    split_ifs with hused
    · obtain ⟨r, hclose, h₂⟩ := closeSlot_fits drive h₁ hused (noise n)
      exact ⟨r.2, by rw [hclose]; rfl, h₂⟩
    · exact ⟨s₁, rfl, h₁⟩

theorem vfsCloseAll_fits (drive : Kfs.Drive) (h : Fits s) (noise : Nat → Kfs.Noise) (task : Int) :
    ∃ s', vfsCloseAll drive noise s task = some s' ∧ Fits s' := by
  unfold vfsCloseAll
  split_ifs
  · exact ⟨s, rfl, h⟩
  · exact closeUpTo_fits drive h noise _ maxFds

/-- Every call keeps the descriptors closable, whatever paths are opened. -/
theorem exec_fits {env : Env} {op : Op} (h : Fits s) (hv : op.Valid) (hfits : env.Fits)
    (hrun : exec drive env s op = some s') : Fits s' := by
  refine ⟨?_, exec_files h.files (fun task path flags l hop hload => ?_)
    (fun vf vf' hvf ht => hvf.touched hfits ht) hrun⟩
  · refine exec_fs (J := fun fs => ∃ t, Sound fs t) h.files h.fs
      (fun fs vf noise r hfs hvf hr => ?_) (fun kop out hop hout => ?_) hrun
    · obtain ⟨t, ht⟩ := hfs
      obtain ⟨stored, fs', t', hflush, ht'⟩ := flushLocked_returns drive ht hvf noise
      obtain rfl := Option.some.inj (hflush.symm.trans hr)
      exact ⟨t', ht'⟩
    · subst hop
      obtain ⟨t, ht⟩ := h.fs
      exact Kfs.exec_sound ht hv.1 hout
  · subst hop
    exact newFile_fits hfits hv.1 hload

theorem boot_fits (hroom : drive.HasRoom) (stale : Nat → UInt32) (fs : Kfs.State)
    (fds : Nat → VfsFile) : Fits (boot drive stale fs fds) :=
  ⟨⟨_, (Kfs.format_fs hroom stale fs).toSound⟩, fun i hi => by cases hi⟩

end Kyuzen.Vfs
