import Kyuzen.Vfs.Reference

/-!
# Opening and closing on one path

Opening loads the array of the path and closing stores it, so every call of a task on one path
returns what the reference returns (`descriptors_are_arrays`). A file that was closed is read again
as it was when no other file was open with it.
-/

namespace Kyuzen.Vfs

open Lib.Memory
open Kfs (CStr Fs Resolvable fileAt flagFile prefixOf length_prefixOf)

variable {drive : Kfs.Drive} {env : Env} {task fd : Int} {path : CStr} {s s' : State} {r : Ref}
  {f : RefFile} {vf : VfsFile} {slot flags : Nat} {fs : Kfs.State} {t : Kfs.Tree}
  {file : Option (List UInt8)} {heap : Heap}

/-! ## Opening -/

theorem FileIs.fileAt (h : FileIs fs path file) :
    fileAt fs path = file.map fun bytes => ⟨flagFile, bytes⟩ := by
  cases file with
  | none =>
    obtain ⟨d, ha⟩ := h
    exact Kfs.fileAt_absent ha
  | some bytes => exact h

theorem FileIs.ne_nil (h : Fs fs t) (hp : Resolvable path) (hfile : FileIs fs path file) :
    path ≠ [] := by
  have hne : Kfs.lastName path ≠ [] := by
    cases file with
    | none =>
      obtain ⟨d, ha⟩ := hfile
      exact ((Kfs.splitLast_iff h.rep h.unique hp.1).mp ha.1).2.1
    | some bytes => exact lastName_ne_nil_of_fileAt h hp hfile
  rintro rfl
  exact hne rfl

theorem le_openCap (n : Nat) : n ≤ openCap n ∧ 0 < openCap n := by
  unfold openCap
  split_ifs <;> omega

theorem holds_newFile {l : Loaded} (hlen : path.length ≤ 22)
    (hbytes : prefixOf l.buf l.size = (r.newFile flags).bytes) (hnew : (!l.existed) = r.file.isNone)
    (hcap : l.size ≤ l.cap ∧ 0 < l.cap) (hsmall : l.size < 2 ^ 31) :
    Holds task path (newFile task path flags l) (r.newFile flags) := by
  have hsize : (r.newFile flags).bytes.length = l.size := by rw [← hbytes, length_prefixOf]
  refine ⟨rfl, rfl, List.take_of_length_le hlen, rfl, ?_, ?_, hbytes, hcap.1, hcap.2, ?_, hsmall⟩
  · show (!l.existed || has flags oTrunc) = (r.file.isNone || has flags oTrunc)
    rw [hnew]
  · show (if has flags oAppend then l.size else 0) =
      if has flags oAppend then (r.newFile flags).bytes.length else 0
    rw [hsize]
  · show (if has flags oAppend then l.size else 0) ≤ l.size
    split_ifs
    · exact le_refl _
    · exact Nat.zero_le _

/-- A file that is there is loaded. -/
theorem vfsLoad_there (h : Fs fs t) (hp : Resolvable path) {bytes : List UInt8}
    (hfile : Kfs.fileAt fs path = some ⟨flagFile, bytes⟩) (hheap : heap (openCap bytes.length) ≠ none)
    (flags : Nat) : ∃ l, vfsLoad heap fs fs fs path flags = some (some l) ∧ l.existed = true ∧
      l.cap = openCap bytes.length ∧ l.size ≤ bytes.length ∧
      prefixOf l.buf l.size = if has flags oTrunc then [] else bytes := by
  obtain ⟨buf, hbuf⟩ := Option.ne_none_iff_exists'.mp hheap
  have hex : Kfs.kfsExists fs path = some 1 := by
    rw [Kfs.kfsExists_fileAt h.rep hp.1, hfile]
    rfl
  have hsize : openSize fs path 1 = some bytes.length := by
    rw [openSize, if_neg Nat.one_ne_zero, Kfs.kfsGetFileSize_fileAt h.toSound hp.1, hfile]
    rfl
  have hread := Kfs.kfsReadToBuffer_fileAt h.toSound hp.1 buf (openCap bytes.length)
  rw [hfile] at hread
  dsimp only at hread
  rw [if_neg (by have := le_openCap bytes.length; omega)] at hread
  obtain ⟨b, hb, hbytes, -⟩ := hread
  by_cases hload : has flags oTrunc = false ∧ bytes.length > 0
  · refine ⟨⟨true, b, bytes.length, openCap bytes.length⟩, ?_, rfl, rfl, le_refl _, ?_⟩
    · simp [vfsLoad, hex, hsize, hbuf, hload, hb]
    · rw [hload.1]
      exact hbytes
  · refine ⟨⟨true, buf, 0, openCap bytes.length⟩, ?_, rfl, rfl, Nat.zero_le _, ?_⟩
    · have hskip : ¬(1 ≠ 0 ∧ has flags oTrunc = false ∧ bytes.length > 0) := fun hc => hload hc.2
      simp only [vfsLoad, hex, hsize, hbuf, Option.bind_eq_bind, Option.bind_some, if_neg hskip]
      rfl
    · split_ifs with htrunc
      · rfl
      · have hnil : ¬bytes.length > 0 := fun hpos => hload ⟨Bool.eq_false_of_not_eq_true htrunc, hpos⟩
        rw [List.eq_nil_of_length_eq_zero (Nat.eq_zero_of_not_pos hnil)]
        rfl

/-- What the path does not name is created. -/
theorem vfsLoad_absent (h : Fs fs t) (hp : Resolvable path) (hfile : Kfs.fileAt fs path = none)
    (hheap : heap (openCap 0) ≠ none) (flags : Nat) : ∃ buf,
      vfsLoad heap fs fs fs path flags =
        if has flags oCreat = false then some none else some (some ⟨false, buf, 0, openCap 0⟩) := by
  obtain ⟨buf, hbuf⟩ := Option.ne_none_iff_exists'.mp hheap
  have hex : Kfs.kfsExists fs path = some 0 := by
    rw [Kfs.kfsExists_fileAt h.rep hp.1, hfile]
    rfl
  refine ⟨buf, ?_⟩
  unfold vfsLoad
  rw [hex, Option.bind_eq_bind, Option.bind_some]
  by_cases hcreat : has flags oCreat = false
  · rw [if_pos ⟨rfl, hcreat⟩, if_pos hcreat]
    rfl
  · have hskip : ¬(0 ≠ 0 ∧ has flags oTrunc = false ∧ 0 > 0) := fun hc => hc.1 rfl
    rw [if_neg (fun hc => hcreat hc.2), if_neg hcreat]
    simp only [openSize, if_true, Option.bind_eq_bind, Option.bind_some, hbuf, if_neg hskip]
    rfl

/-- The task has the same free descriptors. -/
theorem Matches.freeFd (h : Matches task path s r) (htask : 0 ≤ task ∧ task < maxTasks) :
    Vfs.freeFd s (task.toNat * maxFds) maxFds = r.freeFd := by
  unfold Vfs.freeFd Ref.freeFd
  refine List.find?_congr fun i hi => ?_
  have hslot : slotOf task (i : Int) = some (task.toNat * maxFds + i) := by
    have hlt := List.mem_range.mp hi
    rw [slotOf_eq htask (by omega), Int.toNat_natCast]
  cases hfd : r.opened (i : Int) with
  | none =>
    rw [h.closed _ _ hfd hslot]
    rfl
  | some f =>
    obtain ⟨slot, hslot', hvf⟩ := h.opened _ f hfd
    obtain rfl := Option.some.inj (hslot.symm.trans hslot')
    rw [hvf.used]
    rfl

theorem Ref.freeFd_lt {i : Nat} (h : r.freeFd = some i) : i < maxFds :=
  List.mem_range.mp (List.mem_of_find?_eq_some h)

/-- What is loaded is the new file of the reference. -/
theorem Matches.load (h : Matches task path s r) (hp : Resolvable path) (hlen : path.length ≤ 22)
    (henough : Enough env s task path (.openFile flags)) :
    (r.file.isNone = true ∧ has flags oCreat = false ∧
        vfsLoad env.heap s.fs s.fs s.fs path flags = some none) ∨
      ¬(r.file.isNone = true ∧ has flags oCreat = false) ∧ ∃ l,
        vfsLoad env.heap s.fs s.fs s.fs path flags = some (some l) ∧
        Holds task path (newFile task path flags l) (r.newFile flags) := by
  obtain ⟨t, ht⟩ := h.fs
  have hfile := h.file.fileAt
  have hsmall := h.small
  unfold Enough at henough
  cases hr : r.file with
  | none =>
    rw [hr] at hfile
    rw [hfile] at henough
    obtain ⟨buf, hload⟩ := vfsLoad_absent ht hp hfile henough flags
    by_cases hcreat : has flags oCreat = false
    · rw [if_pos hcreat] at hload
      exact Or.inl ⟨rfl, hcreat, hload⟩
    · rw [if_neg hcreat] at hload
      refine Or.inr ⟨fun hc => hcreat hc.2, _, hload, ?_⟩
      refine holds_newFile hlen ?_ ?_ ⟨Nat.zero_le _, (le_openCap 0).2⟩
        (Nat.two_pow_pos 31)
      · rw [Ref.newFile, hr]
        split_ifs <;> rfl
      · rw [hr]
        rfl
  | some bytes =>
    rw [hr] at hfile
    rw [hfile] at henough
    obtain ⟨l, hload, hex, hcap, hsize, hbytes⟩ := vfsLoad_there ht hp hfile henough flags
    have hroom := le_openCap bytes.length
    have hbound := hsmall bytes hr
    refine Or.inr ⟨fun hc => Bool.false_ne_true hc.1, l, hload, ?_⟩
    refine holds_newFile hlen ?_ ?_ (by omega) (by omega)
    · rw [hbytes, Ref.newFile, hr]
      rfl
    · rw [hr, hex]
      rfl

theorem Matches.openFile (h : Matches task path s r) (hp : Resolvable path)
    (hlen : path.length ≤ 22) (htask : 0 ≤ task ∧ task < maxTasks) (flags : Nat)
    (henough : Enough env s task path (.openFile flags)) :
    Agrees drive env task path s r (.openFile flags) := by
  obtain ⟨t, ht⟩ := h.fs
  have hnil := h.file.ne_nil ht hp
  unfold Agrees
  simp only [call, Ref.call, vfsOpen, if_neg hnil]
  rw [if_neg (by omega)]
  rcases h.load hp hlen henough with ⟨hnone, hcreat, hload⟩ | ⟨hopen, l, hload, hvf⟩
  · rw [if_pos ⟨hnone, hcreat⟩, hload]
    exact ⟨s, rfl, h⟩
  · rw [if_neg hopen, hload, Option.bind_eq_bind, Option.bind_some, ← h.freeFd htask]
    simp only [vfsInstall]
    cases hfree : Vfs.freeFd s (task.toNat * maxFds) maxFds with
    | none => exact ⟨s, rfl, h⟩
    | some i =>
      have hlt := Ref.freeFd_lt (h.freeFd htask ▸ hfree)
      have hslot : slotOf task (i : Int) = some (task.toNat * maxFds + i) := by
        rw [slotOf_eq htask (by omega), Int.toNat_natCast]
      obtain ⟨hfs, hfile, hsmall, hopened, hclosed⟩ := h.set hslot hvf
      exact ⟨_, rfl, hfs, hfile, hsmall, hopened, hclosed⟩

/-! ## Closing -/

/-- A changed file is stored when there is room for it. -/
theorem Holds.flush (hvf : Holds task path vf f) (h : Fs fs t) (hp : Resolvable path)
    (hlen : path.length ≤ 22) (hfile : FileIs fs path file) (hdirty : vf.dirty = true)
    (hroom : Room fs path vf.size) (drive : Kfs.Drive) (noise : Kfs.Noise) :
    ∃ stored fs' t', flushLocked drive noise fs vf = some (stored, fs') ∧ Fs fs' t' ∧
      Kfs.fileAt fs' path = some ⟨flagFile, f.bytes⟩ := by
  have hshort : (Kfs.lastName path).length ≤ 22 := (length_lastName_le path).trans hlen
  have hsmall := hvf.small
  have hthere := Kfs.kfsExists_fileAt h.rep hp.1
  have hsize : vf.size ≤ 0xFFFFFE00 := by omega
  cases file with
  | none =>
    obtain ⟨d, ha⟩ := hfile
    obtain ⟨out, t', hcreate, h', hcases⟩ := Kfs.create_spec h hp ha hshort drive noise vf.buf hsize
    rw [Kfs.fileAt_absent ha] at hthere
    rcases hcases with ⟨-, -, hnew⟩ | ⟨hno, -⟩
    · refine ⟨out.ret, out.state, t', ?_, h', by rw [hnew, hvf.bytes]⟩
      simp [flushLocked, hdirty, deleteExisting, hvf.path, hthere, hcreate]
    · exact absurd (hroom.2 d ha) hno
  | some old =>
    have hold : Kfs.fileAt fs path = some ⟨flagFile, old⟩ := hfile
    obtain ⟨out₁, out₂, t', hdel, hcreate, h', hcases⟩ :=
      Kfs.replace_spec h hp hshort hold drive noise vf.buf hsize
    rw [hold] at hthere
    rcases hcases with ⟨-, -, hnew⟩ | ⟨hno, -⟩
    · refine ⟨out₂.ret, out₂.state, t', ?_, h', by rw [hnew, hvf.bytes]⟩
      simp [flushLocked, hdirty, deleteExisting, hvf.path, hthere, hdel, hcreate]
    · exact absurd (hroom.1 old hold) hno

/-- The path has another file and a descriptor is free again. -/
theorem Matches.unset (h : Matches task path s r) (hslot : slotOf task fd = some slot)
    (hfree : vf.used = false) (hfs : Fs fs t) (hfile : FileIs fs path file)
    (hsmall : ∀ bytes ∈ file, bytes.length < 2 ^ 31) :
    Matches task path { setFd s slot vf with fs := fs } { r.set fd none with file := file } := by
  refine ⟨⟨t, hfs⟩, hfile, hsmall, fun fd' f' hf' => ?_, fun fd' slot' hfd' hslot' => ?_⟩
  · have hne : fd' ≠ fd := by
      rintro rfl
      simp only [Ref.set, Function.update_self] at hf'
      cases hf'
    simp only [Ref.set, Function.update_of_ne hne] at hf'
    obtain ⟨slot', hslot', hvf'⟩ := h.opened fd' f' hf'
    have hne' : slot' ≠ slot := by
      rintro rfl
      exact hne (slotOf_inj hslot' hslot)
    exact ⟨slot', hslot', by simpa only [setFd, Function.update_of_ne hne'] using hvf'⟩
  · by_cases heq : slot' = slot
    · subst heq
      simpa only [setFd, Function.update_self] using hfree
    · have hne : fd' ≠ fd := by
        rintro rfl
        exact heq (Option.some.inj (hslot'.symm.trans hslot))
      simp only [Ref.set, Function.update_of_ne hne] at hfd'
      simp only [setFd, Function.update_of_ne heq]
      exact h.closed fd' slot' hfd' hslot'

theorem Matches.close (h : Matches task path s r) (hp : Resolvable path) (hlen : path.length ≤ 22)
    (fd : Int) (henough : Enough env s task path (.close fd)) :
    Agrees drive env task path s r (.close fd) := by
  unfold Agrees
  simp only [call, Ref.call]
  cases hfd : r.opened fd with
  | none =>
    simp only [vfsClose, h.resolve_none hfd]
    exact ⟨s, rfl, h⟩
  | some f =>
    obtain ⟨slot, hslot, hvf⟩ := h.opened fd f hfd
    obtain ⟨t, ht⟩ := h.fs
    have hres := hvf.resolve hslot
    have hsmall := hvf.small
    rw [← length_prefixOf (s.fds slot).buf (s.fds slot).size, hvf.bytes] at hsmall
    cases hdirty : (s.fds slot).dirty with
    | false =>
      have hflush : flushLocked drive (env.noise 0) s.fs (s.fds slot) = some (0, s.fs) :=
        flushLocked_clean drive hdirty (env.noise 0)
      simp only [vfsClose, hres, closeSlot, hflush, Option.bind_eq_bind, Option.bind_some,
        ← hvf.dirty, hdirty]
      exact ⟨_, rfl, h.unset hslot rfl ht h.file h.small⟩
    | true =>
      obtain ⟨stored, fs', t', hflush, ht', hnew⟩ :=
        hvf.flush ht hp hlen h.file hdirty (henough slot hres hdirty) drive (env.noise 0)
      simp only [vfsClose, hres, closeSlot, hflush, Option.bind_eq_bind, Option.bind_some,
        ← hvf.dirty, hdirty]
      refine ⟨_, rfl, h.unset hslot rfl ht' hnew fun bytes hbytes => ?_⟩
      obtain rfl := Option.some.inj hbytes
      exact hsmall

/-! ## Runs -/

/-- One call of the task. -/
theorem Matches.step (h : Matches task path s r) (hp : Resolvable path) (hlen : path.length ≤ 22)
    (htask : 0 ≤ task ∧ task < maxTasks) (drive : Kfs.Drive) (env : Env) (c : Call)
    (hbound : c.Bounded r) (henough : Enough env s task path c) :
    Agrees drive env task path s r c := by
  cases c with
  | openFile flags => exact h.openFile hp hlen htask flags henough
  | read fd buf count => exact h.read fd buf count
  | write fd data count => exact h.write fd data count hbound henough
  | lseek fd offset whence => exact h.lseek fd offset whence hbound
  | close fd => exact h.close hp hlen fd henough

theorem Lockstep.matches (hp : Resolvable path) (hlen : path.length ≤ 22)
    (htask : 0 ≤ task ∧ task < maxTasks) (h : Lockstep drive task path s r) :
    Matches task path s r := by
  induction h with
  | start hfs hfile hsmall hfree =>
    exact ⟨⟨_, hfs⟩, hfile, hsmall, fun fd f hf => (Option.some_ne_none f hf.symm).elim,
      fun fd slot _ hslot => hfree fd slot hslot⟩
  | step env c _ hbound henough hrun ih =>
    obtain ⟨s', hcall, h'⟩ := ih.step hp hlen htask drive env c hbound henough
    rw [hrun] at hcall
    obtain rfl := (Prod.mk.inj (Option.some.inj hcall)).2
    exact h'

/-! ## One open file -/

theorem Ref.Alone.set (h : r.Alone) {f' : RefFile} (hfd : r.opened fd = some f)
    (hf : f'.changed = true ∨ f'.changed = f.changed ∧ f'.bytes = f.bytes) :
    (r.set fd (some f')).Alone := by
  have hback : ∀ {fd₁ f₁}, (r.set fd (some f')).opened fd₁ = some f₁ →
      (∃ f₂, r.opened fd₁ = some f₂) ∧ (fd₁ = fd ∧ f₁ = f' ∨ r.opened fd₁ = some f₁) := by
    intro fd₁ f₁ hf₁
    by_cases heq : fd₁ = fd
    · subst heq
      simp only [Ref.set, Function.update_self, Option.some.injEq] at hf₁
      exact ⟨⟨f, hfd⟩, Or.inl ⟨rfl, hf₁.symm⟩⟩
    · simp only [Ref.set, Function.update_of_ne heq] at hf₁
      exact ⟨⟨f₁, hf₁⟩, Or.inr hf₁⟩
  refine ⟨fun hshared fd₁ fd₂ f₁ f₂ h₁ h₂ => ?_, fun hshared fd₁ f₁ h₁ => ?_, fun fd₁ f₁ h₁ => ?_⟩
  · obtain ⟨g₁, hg₁⟩ := (hback h₁).1
    obtain ⟨g₂, hg₂⟩ := (hback h₂).1
    exact h.one hshared fd₁ fd₂ g₁ g₂ hg₁ hg₂
  · rcases (hback h₁).2 with ⟨rfl, rfl⟩ | hold
    · rcases hf with hchanged | ⟨hsame, hbytes⟩
      · exact Or.inl hchanged
      · rw [hsame, hbytes]
        exact h.same hshared fd₁ f hfd
    · exact h.same hshared fd₁ f₁ hold
  · obtain ⟨g₁, hg₁⟩ := (hback h₁).1
    exact h.range fd₁ g₁ hg₁

theorem Ref.Alone.openFile (h : r.Alone) (flags : Nat) : (r.call (.openFile flags)).2.Alone := by
  simp only [Ref.call]
  split_ifs
  · exact h
  cases hfree : r.freeFd with
  | none => exact h
  | some i =>
    have hlt := Ref.freeFd_lt hfree
    dsimp only
    -- with one file open, nothing else was open before
    have hnone : (r.shared || (List.range maxFds).any fun i => (r.opened i).isSome) = false →
        ∀ fd f, (r.set i (some (r.newFile flags))).opened fd = some f →
          fd = i ∧ f = r.newFile flags := by
      intro hshared fd f hf
      by_cases heq : fd = i
      · subst heq
        simp only [Ref.set, Function.update_self, Option.some.injEq] at hf
        exact ⟨rfl, hf.symm⟩
      · simp only [Ref.set, Function.update_of_ne heq] at hf
        obtain ⟨hlo, hhi⟩ := h.range fd f hf
        obtain ⟨n, rfl⟩ := Int.eq_ofNat_of_zero_le hlo
        have hany := List.any_eq_false.mp (Bool.or_eq_false_iff.mp hshared).2 n
          (List.mem_range.mpr (by omega))
        rw [hf] at hany
        exact absurd rfl hany
    refine ⟨fun hshared fd fd' f f' hf hf' => ?_, fun hshared fd f hf => ?_, fun fd f hf => ?_⟩
    · rw [(hnone hshared fd f hf).1, (hnone hshared fd' f' hf').1]
    · obtain ⟨-, rfl⟩ := hnone hshared fd f hf
      cases hfile : r.file with
      | none =>
        refine Or.inl ?_
        rw [Ref.newFile, hfile]
        rfl
      | some bytes =>
        cases htrunc : has flags oTrunc with
        | true =>
          refine Or.inl ?_
          simp only [Ref.newFile, htrunc, Bool.or_true]
        | false =>
          refine Or.inr ?_
          simp only [Ref.newFile, hfile, htrunc, Ref.set, Bool.false_eq_true, if_false,
            Option.getD_some]
    · by_cases heq : fd = i
      · omega
      · simp only [Ref.set, Function.update_of_ne heq] at hf
        exact h.range fd f hf

theorem Ref.Alone.close (h : r.Alone) (fd : Int) : (r.call (.close fd)).2.Alone := by
  simp only [Ref.call]
  cases hfd : r.opened fd with
  | none => exact h
  | some f =>
    have hback : ∀ {fd₁ f₁}, (r.set fd none).opened fd₁ = some f₁ →
        fd₁ ≠ fd ∧ r.opened fd₁ = some f₁ := by
      intro fd₁ f₁ hf₁
      have hne : fd₁ ≠ fd := by
        rintro rfl
        simp only [Ref.set, Function.update_self] at hf₁
        cases hf₁
      simp only [Ref.set, Function.update_of_ne hne] at hf₁
      exact ⟨hne, hf₁⟩
    refine ⟨fun hshared fd₁ fd₂ f₁ f₂ h₁ h₂ => ?_, fun hshared fd₁ f₁ h₁ => ?_, fun fd₁ f₁ h₁ => ?_⟩
    · exact h.one hshared fd₁ fd₂ f₁ f₂ (hback h₁).2 (hback h₂).2
    · obtain ⟨hne, hf₁⟩ := hback h₁
      exact absurd (h.one hshared fd₁ fd f₁ f hf₁ hfd) hne
    · exact h.range fd₁ f₁ (hback h₁).2

theorem Ref.Alone.call (h : r.Alone) (c : Call) : (r.call c).2.Alone := by
  cases c with
  | openFile flags => exact h.openFile flags
  | read fd buf count =>
    simp only [Ref.call]
    split
    · next b f hfd =>
      split_ifs
      · exact h
      · exact h.set hfd (Or.inr ⟨rfl, rfl⟩)
    · exact h
  | write fd data count =>
    simp only [Ref.call]
    split
    · next b f hfd =>
      split_ifs
      · exact h
      · exact h.set hfd (Or.inl rfl)
    · exact h
  | lseek fd offset whence =>
    simp only [Ref.call]
    cases hfd : r.opened fd with
    | none => exact h
    | some f =>
      dsimp only
      split_ifs
      · exact h
      · exact h.set hfd (Or.inr ⟨rfl, rfl⟩)
  | close fd => exact h.close fd

theorem Lockstep.alone (h : Lockstep drive task path s r) : r.Alone := by
  induction h with
  | start =>
    exact ⟨fun _ _ _ _ _ hf => (Option.some_ne_none _ hf.symm).elim,
      fun _ _ _ hf => (Option.some_ne_none _ hf.symm).elim,
      fun _ _ hf => (Option.some_ne_none _ hf.symm).elim⟩
  | step env c _ _ _ _ ih => exact ih.call c

/-- The array of a file that was closed, in the reference. -/
theorem Ref.Alone.file_close (h : r.Alone) (hshared : r.shared = false)
    (hfd : r.opened fd = some f) : (r.call (.close fd)).1 = (0, none) ∧
      (r.call (.close fd)).2.file = some f.bytes ∧ (r.call (.close fd)).2.opened fd = none := by
  simp only [Ref.call, hfd]
  refine ⟨trivial, ?_, Function.update_self _ _ _⟩
  rcases h.same hshared fd f hfd with hchanged | hsame
  · rw [hchanged]
    rfl
  · rw [hsame]
    split_ifs <;> rfl

/-- Opening a file that is there, in the reference. -/
theorem Ref.call_openFile {bytes : List UInt8} (hfile : r.file = some bytes) {i : Nat}
    (hfree : r.freeFd = some i) (flags : Nat) :
    (r.call (.openFile flags)).1 = ((i : Int), none) ∧
      (r.call (.openFile flags)).2.opened i = some (r.newFile flags) := by
  have hskip : ¬(r.file.isNone = true ∧ has flags oCreat = false) := by
    rw [hfile]
    exact fun hc => Bool.false_ne_true hc.1
  simp only [Ref.call, if_neg hskip, hfree]
  exact ⟨trivial, Function.update_self _ _ _⟩

theorem Ref.call_read (hfd : r.opened fd = some f) (hflags : has f.flags oWronly = false) (buf : Mem)
    (count : Nat) : (r.call (.read fd (some buf) count)).1 =
      (((f.ahead count).length : Int), some fun i => (f.ahead count).getD i (buf i)) := by
  simp only [Ref.call, hfd, hflags, Bool.false_eq_true, if_false]

theorem Ref.Alone.exists_freeFd (h : r.Alone) (hshared : r.shared = false)
    (hfd : r.opened fd = some f) : ∃ i, (r.call (.close fd)).2.freeFd = some i := by
  obtain ⟨hlo, hhi⟩ := h.range fd f hfd
  obtain ⟨n, rfl⟩ := Int.eq_ofNat_of_zero_le hlo
  refine Option.isSome_iff_exists.mp (List.find?_isSome.mpr ⟨n, List.mem_range.mpr (by omega), ?_⟩)
  rw [Option.isNone_iff_eq_none]
  exact (h.file_close hshared hfd).2.2

theorem Matches.reopen (h : Matches task path s r) (hp : Resolvable path) (hlen : path.length ≤ 22)
    (htask : 0 ≤ task ∧ task < maxTasks) (halone : r.Alone) (hshared : r.shared = false)
    (hfd : r.opened fd = some f) (drive : Kfs.Drive) : ReopenReads drive task path s fd f := by
  intro env henough
  obtain ⟨s₁, hclose, h₁⟩ : Agrees drive env task path s r (.close fd) := h.close hp hlen fd henough
  obtain ⟨hret, hfile, -⟩ := halone.file_close hshared hfd
  rw [hret] at hclose
  refine ⟨s₁, hclose, fun env flags henough htrunc happend hwronly => ?_⟩
  obtain ⟨s₂, hopen, h₂⟩ : Agrees drive env task path s₁ _ (.openFile flags) :=
    h₁.openFile hp hlen htask flags henough
  obtain ⟨i, hfree⟩ := halone.exists_freeFd hshared hfd
  obtain ⟨hret, hopened⟩ := Ref.call_openFile hfile hfree flags
  rw [hret] at hopen
  refine ⟨i, s₂, hopen, fun env buf count hcount => ?_⟩
  obtain ⟨s₃, hread, -⟩ : Agrees drive env task path s₂ _ (.read i (some buf) count) :=
    h₂.read i (some buf) count
  have hahead : ((Ref.call r (.close fd)).2.newFile flags).ahead count = f.bytes := by
    simp only [RefFile.ahead, Ref.newFile, hfile, htrunc, happend, Bool.false_eq_true, if_false,
      Option.getD_some, List.drop_zero]
    exact List.take_of_length_le hcount
  rw [Ref.call_read hopened hwronly, hahead] at hread
  exact ⟨s₃, hread⟩

/-- Every call returns what the array with its cursor gives, and while only one file is open at a
time, closing and opening it again delivers the array. -/
theorem descriptors_are_arrays (hpath : 0 ∉ path) (hlen : path.length ≤ 22)
    (htask : 0 ≤ task ∧ task < maxTasks) (h : Lockstep drive task path s r) :
    (∀ env (c : Call), c.Bounded r → Enough env s task path c →
      ∃ s', call drive env task path s c = some ((r.call c).1, s')) ∧
    (r.shared = false → ∀ fd f, r.opened fd = some f → ReopenReads drive task path s fd f) := by
  have hp : Resolvable path := ⟨hpath, by omega⟩
  have hmatch := h.matches hp hlen htask
  refine ⟨fun env c hbound henough => ?_, fun hshared fd f hfd => ?_⟩
  · obtain ⟨s', hcall, -⟩ := hmatch.step hp hlen htask drive env c hbound henough
    exact ⟨s', hcall⟩
  · exact hmatch.reopen hp hlen htask h.alone hshared hfd drive

/-- Task 1 creates a file on the empty disk. -/
def createCall : Call := .openFile (oRdwr ||| oCreat)

/-- The reference before and after it. -/
def emptyRef : Ref := ⟨none, fun _ => none, false⟩

theorem bootState_lockstep : Lockstep Kfs.smallDrive 1 [97] bootState emptyRef := by
  have hval : (Kfs.splitLast bootState.fs [97]).map (Option.map Prod.snd) =
      some (some (Kfs.lastName [97])) ∧
    (Kfs.splitLast bootState.fs [97]).bind (fun p => (p.map Prod.fst).bind fun d =>
      Kfs.findEntryIn bootState.fs d (Kfs.lastName [97])) = some none := by decide +kernel
  have hfile : FileIs bootState.fs [97] none := by
    obtain ⟨p, hp, hname⟩ := Option.map_eq_some_iff.mp hval.1
    obtain ⟨⟨d, name⟩, rfl, rfl⟩ := Option.map_eq_some_iff.mp hname
    have hfind := hval.2
    rw [hp] at hfind
    exact ⟨d, hp, hfind⟩
  exact Lockstep.start (Kfs.format_fs Kfs.smallDrive_hasRoom _ _) hfile
    (fun _ hbytes => (Option.some_ne_none _ hbytes.symm).elim) fun _ _ _ => rfl

/-- The file is open and empty, with its cursor at the start. -/
theorem descriptors_are_arrays_created : ∃ ans s,
    call Kfs.smallDrive quietEnv 1 [97] bootState createCall = some (ans, s) ∧
    (emptyRef.call createCall).2.opened 0 = some ⟨[], 0, oRdwr ||| oCreat, true⟩ ∧
    (∀ env (c : Call), c.Bounded (emptyRef.call createCall).2 → Enough env s 1 [97] c →
      ∃ s', call Kfs.smallDrive env 1 [97] s c =
        some (((emptyRef.call createCall).2.call c).1, s')) ∧
    ((emptyRef.call createCall).2.shared = false → ∀ fd f,
      (emptyRef.call createCall).2.opened fd = some f →
      ReopenReads Kfs.smallDrive 1 [97] s fd f) := by
  have hval : ((call Kfs.smallDrive quietEnv 1 [97] bootState createCall).map fun r => r.1.1,
      (fileAt bootState.fs [97]).isNone) = (some 0, true) := by decide +kernel
  obtain ⟨hrun, hnone⟩ := Prod.mk.inj hval
  obtain ⟨⟨ans, s⟩, hrun, -⟩ := Option.map_eq_some_iff.mp hrun
  have hopened : (emptyRef.call createCall).2.opened =
      Function.update (fun _ => none) 0 (some ⟨[], 0, oRdwr ||| oCreat, true⟩) := rfl
  have hbound : createCall.Bounded emptyRef := by
    refine ⟨fun fd f hf => ?_, fun fd offset whence hc => by cases hc⟩
    rw [hopened] at hf
    by_cases heq : fd = 0
    · subst heq
      rw [Function.update_self] at hf
      obtain rfl := Option.some.inj hf
      exact Nat.two_pow_pos 31
    · rw [Function.update_of_ne heq] at hf
      cases hf
  have henough : Enough quietEnv bootState 1 [97] createCall := by
    show zeroHeap (openCap ((fileAt bootState.fs [97]).elim 0 fun f => f.content.length)) ≠ none
    rw [Option.isNone_iff_eq_none.mp hnone]
    exact Option.some_ne_none _
  refine ⟨ans, s, hrun, by rw [hopened, Function.update_self], ?_⟩
  exact descriptors_are_arrays (by decide) (by decide) (by decide)
    (bootState_lockstep.step quietEnv createCall hbound henough hrun)

end Kyuzen.Vfs
