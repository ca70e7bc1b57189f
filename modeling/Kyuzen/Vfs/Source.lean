import Kyuzen.Vfs.Snapshot

/-!
# Where the bytes of a descriptor come from

The buffer of a descriptor is a block of the kernel heap, and a block is not cleared. A write that
begins behind the end of the file puts what was in the block between its bytes and the others.

`Traced` remembers for each descriptor the bytes of the file that was opened and the bytes that
were written. In every run whose writes begin at or before the end of the file, these are the
bytes that are read and stored (`bytes_have_source`). In `holeRun` they are not.
-/

namespace Kyuzen.Vfs

open Lib.Memory
open Kfs (CStr Sound fileAt prefixOf length_prefixOf getElem?_prefixOf)

/-- What a descriptor has been given. -/
structure Source where
  /-- The file when it was opened. -/
  opened : List UInt8
  /-- The bytes that were written, with their positions. -/
  written : List (Nat × UInt8)

def Source.Has (src : Source) (i : Nat) (b : UInt8) : Prop :=
  b = 0 ∨ src.opened[i]? = some b ∨ (i, b) ∈ src.written

structure Traced where
  state : State
  source : Nat → Source

/-- The file that is opened, unless it is truncated. -/
def openedBytes (fs : Kfs.State) (path : CStr) (flags : Nat) : List UInt8 :=
  if has flags oTrunc then [] else (fileAt fs path).elim [] Kfs.File.content

/-- The bytes of a write that succeeds. -/
def Source.write (src : Source) (pos count : Nat) (data : Mem) : Source :=
  { src with written := src.written ++ (List.range count).map fun i => (pos + i, data i) }

/-- The sources after a step. -/
def Traced.sources (q : Traced) (env : Env) : Op → Nat → Source
  | .openFile task path flags =>
    match (vfsOpen env.heap q.state task path flags).bind fun r => slotOf task r.1 with
    | none => q.source
    | some slot => Function.update q.source slot ⟨openedBytes q.state.fs path flags, []⟩
  | .write task fd (some data) count =>
    match resolve q.state task fd with
    | none => q.source
    | some slot =>
      if (vfsWrite env.heap q.state task fd (some data) count).1 = -1 then q.source
      else Function.update q.source slot
        ((q.source slot).write (seekAppend (q.state.fds slot)).pos count data)
  | _ => q.source

def Traced.exec (drive : Kfs.Drive) (env : Env) (q : Traced) (op : Op) : Option Traced :=
  (Vfs.exec drive env q.state op).map fun s => ⟨s, q.sources env op⟩

/-- The traced runs from boot whose steps all meet `P`. -/
inductive Traced.Reach (drive : Kfs.Drive) (P : State → Op → Prop) : Traced → Prop
  | boot (stale : Nat → UInt32) (fs : Kfs.State) (fds : Nat → VfsFile) (source : Nat → Source) :
      Reach drive P ⟨boot drive stale fs fds, source⟩
  | step {q q' : Traced} {op : Op} (env : Env) (h : Reach drive P q) (hv : op.Valid)
      (hfits : env.Fits) (hp : P q.state op) (hrun : q.exec drive env op = some q') :
      Reach drive P q'

/-- What is read from the descriptors and stored by them has a source, and a write of nothing
changes nothing. -/
structure Sourced (q : Traced) : Prop where
  stored : ∀ slot, (q.state.fds slot).used = true → ∀ i b,
    (prefixOf (q.state.fds slot).buf (q.state.fds slot).size)[i]? = some b → (q.source slot).Has i b
  read : ∀ task fd slot buf count out, resolve q.state task fd = some slot →
    (vfsRead q.state task fd (some buf) count).2.1 = some out →
    has (q.state.fds slot).flags oWronly = false → ∀ i < count,
    (q.state.fds slot).pos + i < (q.state.fds slot).size →
    (q.source slot).Has ((q.state.fds slot).pos + i) (out i)

/-- A write of no bytes leaves the file of the descriptor as it is. -/
def KeepsOnZero (s : State) : Op → Prop
  | .write task fd data 0 => ∀ heap slot, resolve s task fd = some slot →
    prefixOf ((vfsWrite heap s task fd data 0).2.fds slot).buf
        ((vfsWrite heap s task fd data 0).2.fds slot).size =
      prefixOf (s.fds slot).buf (s.fds slot).size
  | _ => True

/-- A write through a descriptor that may write begins at or before the end of the file. -/
def BeginsInside (s : State) : Op → Prop
  | .write task fd (some _) _ => ∀ slot, resolve s task fd = some slot →
    has (s.fds slot).flags (oWronly ||| oRdwr) = true →
    (seekAppend (s.fds slot)).pos ≤ (s.fds slot).size
  | _ => True

variable {drive : Kfs.Drive} {q q' : Traced} {s s' : State} {vf vf' : VfsFile} {heap : Heap}
  {src : Source} {path : CStr} {flags : Nat} {task fd : Int} {slot : Nat}

/-! ## One call -/

/-- The bytes up to the size have a source. -/
def Backed (vf : VfsFile) (src : Source) : Prop := ∀ i < vf.size, src.Has i (vf.buf i)

theorem Source.Has.write {i : Nat} {b : UInt8} (h : src.Has i b) (pos count : Nat) (data : Mem) :
    (src.write pos count data).Has i b := by
  rcases h with h | h | h
  · exact Or.inl h
  · exact Or.inr (Or.inl h)
  · exact Or.inr (Or.inr (List.mem_append_left _ h))

theorem Source.has_written (src : Source) (pos : Nat) (data : Mem) {count i : Nat} (hi : i < count) :
    (src.write pos count data).Has (pos + i) (data i) :=
  Or.inr (Or.inr (List.mem_append_right _
    (List.mem_map.mpr ⟨i, List.mem_range.mpr hi, rfl⟩)))

/-- An open call fails, or sets up a descriptor with what it has loaded. -/
theorem vfsOpen_cases {r : Int × State} (h : vfsOpen heap s task path flags = some r) :
    r = (-1, s) ∨ ∃ l fd, slotOf task (fd : Nat) = some (task.toNat * maxFds + fd) ∧
      vfsLoad heap s.fs s.fs s.fs path flags = some (some l) ∧
      r = ((fd : Int), setFd s (task.toNat * maxFds + fd) (newFile task path flags l)) := by
  unfold vfsOpen at h
  split_ifs at h with hnil htask
  · exact Or.inl (Option.some.inj h).symm
  · exact Or.inl (Option.some.inj h).symm
  obtain ⟨l, hload, h⟩ := Option.bind_eq_some_iff.mp h
  cases l with
  | none => exact Or.inl (Option.some.inj h).symm
  | some l =>
    have h := Option.some.inj h
    unfold vfsInstall at h
    cases hfree : freeFd s (task.toNat * maxFds) maxFds with
    | none =>
      rw [hfree] at h
      exact Or.inl h.symm
    | some fd =>
      rw [hfree] at h
      have hlt := List.mem_range.mp (List.mem_of_find?_eq_some hfree)
      refine Or.inr ⟨l, fd, ?_, hload, h.symm⟩
      unfold slotOf
      rw [if_neg htask, if_neg (by omega)]
      rfl

theorem slotOf_failed (task : Int) : slotOf task (-1) = none := by
  unfold slotOf
  split_ifs
  · rfl
  · rfl
  · omega

/-- What is loaded is the file. -/
theorem backed_newFile {t : Kfs.Tree} {l : Loaded} (h : Sound s.fs t) (hp : 0 ∉ path)
    (hload : vfsLoad heap s.fs s.fs s.fs path flags = some (some l)) :
    Backed (newFile task path flags l) ⟨openedBytes s.fs path flags, []⟩ := by
  obtain ⟨existed, fsize, buf, -, hsize, -, hcases⟩ := vfsLoad_cases hload
  intro i hi
  rcases hcases with ⟨hex, htrunc, -, ok, b, hok, hread, rfl⟩ | ⟨-, rfl⟩
  · obtain ⟨f, hf, -, hbytes⟩ := content_of_read h hp hok hread
    rw [openSize, if_neg hex] at hsize
    have hlen := length_of_size h hp hsize hf
    have hopened : openedBytes s.fs path flags = f.content := by
      rw [openedBytes, htrunc, hf]
      rfl
    have hi : i < fsize := hi
    refine Or.inr (Or.inl ?_)
    show (openedBytes s.fs path flags)[i]? = some (b i)
    rw [hopened, ← hbytes, hlen, getElem?_prefixOf b hi]
  · exact absurd hi (Nat.not_lt_zero i)

/-- Growing keeps the bytes. -/
theorem ensureCap_buf {need : Nat} (h : ensureCap heap vf need = some vf') {i : Nat}
    (hi : i < vf.cap) : vf'.buf i = vf.buf i := by
  unfold ensureCap at h
  by_cases hle : need ≤ vf.cap
  · rw [if_pos hle] at h
    rw [Option.some.inj h]
  by_cases hbig : need > 2 ^ 32 - 1
  · rw [if_neg hle, if_pos hbig] at h
    cases h
  rw [if_neg hle, if_neg hbig] at h
  split at h
  · cases h
  split at h
  · cases h
  obtain rfl := Option.some.inj h
  exact if_pos ⟨Nat.zero_le i, by omega⟩

/-- The three outcomes of a write. -/
theorem vfsWrite_cases (heap : Heap) (hres : resolve s task fd = some slot) (data : Mem)
    (count : Nat) :
    (vfsWrite heap s task fd (some data) count = (-1, s) ∨
      vfsWrite heap s task fd (some data) count = (-1, setFd s slot (seekAppend (s.fds slot)))) ∨
    ∃ vf, has (s.fds slot).flags (oWronly ||| oRdwr) = true ∧
      ensureCap heap (seekAppend (s.fds slot)) ((seekAppend (s.fds slot)).pos + count) =
        some vf ∧
      vfsWrite heap s task fd (some data) count = (toInt count, setFd s slot { vf with
        buf := fill vf.buf vf.pos count fun i => data (i - vf.pos)
        pos := (vf.pos + count) % 2 ^ 32
        size := if (vf.pos + count) % 2 ^ 32 > vf.size then (vf.pos + count) % 2 ^ 32 else vf.size
        dirty := true }) := by
  unfold vfsWrite
  rw [hres]
  dsimp only
  by_cases hflags : has (s.fds slot).flags (oWronly ||| oRdwr) = false
  · rw [if_pos hflags]
    exact Or.inl (Or.inl rfl)
  · rw [if_neg hflags]
    cases hcap : ensureCap heap (seekAppend (s.fds slot)) ((seekAppend (s.fds slot)).pos + count) with
    | none => exact Or.inl (Or.inr rfl)
    | some vf => exact Or.inr ⟨vf, Bool.eq_true_of_not_eq_false hflags, rfl, rfl⟩

/-- A write that begins at or before the end of the file. -/
theorem Backed.write (h : Backed vf src) (hsize : vf.size ≤ vf.cap) {data : Mem} {count : Nat}
    (hpos : vf.pos ≤ vf.size) (hcap : ensureCap heap vf (vf.pos + count) = some vf') :
    Backed { vf' with
      buf := fill vf'.buf vf'.pos count fun i => data (i - vf'.pos)
      pos := (vf'.pos + count) % 2 ^ 32
      size := if (vf'.pos + count) % 2 ^ 32 > vf'.size then (vf'.pos + count) % 2 ^ 32
        else vf'.size
      dirty := true } (src.write vf.pos count data) := by
  have hsame : ∀ i < vf.cap, vf'.buf i = vf.buf i := fun i hi => ensureCap_buf hcap hi
  obtain ⟨-, -, -, buf, cap, rfl⟩ := ensureCap_spec hcap
  intro i hi
  dsimp only at hi hsame ⊢
  have hmod := Nat.mod_le (vf.pos + count) (2 ^ 32)
  by_cases hin : vf.pos ≤ i ∧ i < vf.pos + count
  · obtain ⟨j, rfl⟩ := Nat.exists_eq_add_of_le hin.1
    rw [fill, if_pos hin, Nat.add_sub_cancel_left]
    exact src.has_written vf.pos data (by omega)
  · have hold : i < vf.size := by
      split_ifs at hi <;> omega
    rw [fill, if_neg hin, hsame i (by omega)]
    exact (h i hold).write vf.pos count data

/-- A write of nothing that begins at or before the end of the file. -/
theorem ensureCap_zero (hsize : vf.size ≤ vf.cap) (hpos : vf.pos ≤ vf.size) :
    ensureCap heap vf (vf.pos + 0) = some vf := by
  rw [ensureCap, if_pos (by omega)]

/-! ## Runs -/

structure Traced.Inv (q : Traced) : Prop where
  fits : Fits q.state
  backed : ∀ slot, (q.state.fds slot).used = true → Backed (q.state.fds slot) (q.source slot)

theorem seekAppend_backed (h : Backed vf src) : Backed (seekAppend vf) src := by
  obtain ⟨pos, heq⟩ := seekAppend_eq vf
  rw [heq]
  exact h

/-- The descriptors, when one has changed. -/
theorem backed_setFd {source : Nat → Source} {src : Source} (slot : Nat)
    (hother : ∀ i, i ≠ slot → (s.fds i).used = true → Backed (s.fds i) (source i))
    (hnew : Backed vf src) (i : Nat) (hi : ((setFd s slot vf).fds i).used = true) :
    Backed ((setFd s slot vf).fds i) (Function.update source slot src i) := by
  by_cases his : i = slot
  · subst his
    simp only [setFd, Function.update_self]
    exact hnew
  · simp only [setFd, Function.update_of_ne his] at hi ⊢
    exact hother i his hi

theorem backed_pos {source : Nat → Source} (pos : Nat)
    (h : ∀ i, (s.fds i).used = true → Backed (s.fds i) (source i))
    (hused : (s.fds slot).used = true) (i : Nat)
    (hi : ((setFd s slot { s.fds slot with pos := pos }).fds i).used = true) :
    Backed ((setFd s slot { s.fds slot with pos := pos }).fds i) (source i) := by
  have hnew : Backed { s.fds slot with pos := pos } (source slot) := h slot hused
  have hset := backed_setFd slot (fun j _ hj => h j hj) hnew i hi
  rwa [Function.update_eq_self] at hset

theorem toInt_ne_neg_one {count : Nat} (h : count ≤ 0xFFFFFE00) : toInt count ≠ -1 := by
  unfold toInt
  rw [Int.bmod_def]
  split_ifs <;> omega

theorem Traced.Inv.write (h : q.Inv) {env : Env} (hfits : env.Fits) (data : Mem) {count : Nat}
    (hres : resolve q.state task fd = some slot)
    (hpos : has (q.state.fds slot).flags (oWronly ||| oRdwr) = true →
      (seekAppend (q.state.fds slot)).pos ≤ (q.state.fds slot).size) (i : Nat)
    (hi : ((vfsWrite env.heap q.state task fd (some data) count).2.fds i).used = true) :
    Backed ((vfsWrite env.heap q.state task fd (some data) count).2.fds i)
      (q.sources env (.write task fd (some data) count) i) := by
  have hused := resolve_used hres
  obtain ⟨pos, hseek⟩ := seekAppend_eq (q.state.fds slot)
  have hsources : q.sources env (.write task fd (some data) count) =
      if (vfsWrite env.heap q.state task fd (some data) count).1 = -1 then q.source
      else Function.update q.source slot
        ((q.source slot).write (seekAppend (q.state.fds slot)).pos count data) := by
    simp only [Traced.sources, hres]
  rw [hsources]
  rcases vfsWrite_cases env.heap hres data count with (heq | heq) | ⟨vf, hflags, hcap, heq⟩
  · rw [heq] at hi ⊢
    rw [if_pos rfl]
    exact h.backed i hi
  · rw [heq, hseek] at hi
    rw [heq, hseek, if_pos rfl]
    exact backed_pos pos h.backed hused i hi
  · have hfile := h.fits.files slot hused
    obtain ⟨hneed, -, hheap, -⟩ := ensureCap_spec hcap
    have hle : vf.cap ≤ 0xFFFFFE00 := by
      rcases hheap with hsame | hsome
      · rw [hsame, hseek]
        exact hfile.cap
      · exact hfits _ hsome
    rw [heq] at hi ⊢
    rw [if_neg (toInt_ne_neg_one (by omega))]
    refine backed_setFd slot (fun j _ hj => h.backed j hj) ?_ i hi
    refine (seekAppend_backed (h.backed slot hused)).write ?_ ?_ hcap
    · rw [hseek]
      exact hfile.size
    · have hpos := hpos hflags
      rw [hseek] at hpos ⊢
      exact hpos

theorem Traced.Inv.exec (h : q.Inv) {env : Env} {op : Op} (hv : op.Valid) (hfits : env.Fits)
    (hp : BeginsInside q.state op) (hrun : q.exec drive env op = some q') : q'.Inv := by
  obtain ⟨s', hexec, rfl⟩ := Option.map_eq_some_iff.mp hrun
  refine ⟨exec_fits h.fits hv hfits hexec, ?_⟩
  dsimp only
  cases op with
  | openFile task path flags =>
    obtain ⟨r, hr, rfl⟩ := Option.map_eq_some_iff.mp hexec
    rcases vfsOpen_cases hr with rfl | ⟨l, fd, hslot, hload, rfl⟩
    · simp only [Traced.sources, hr, Option.bind_some, slotOf_failed]
      exact h.backed
    · obtain ⟨t, ht⟩ := h.fits.fs
      simp only [Traced.sources, hr, Option.bind_some, hslot]
      exact backed_setFd _ (fun i _ hi => h.backed i hi) (backed_newFile ht hv.1 hload)
  | read task fd buf count =>
    obtain rfl := Option.some.inj hexec
    simp only [Traced.sources]
    unfold vfsRead
    split
    · exact h.backed
    · exact h.backed
    · next slot hres =>
      dsimp only
      by_cases hflags : has (q.state.fds slot).flags oWronly = true
      · rw [if_pos hflags]
        exact h.backed
      · rw [if_neg hflags]
        exact backed_pos _ h.backed (resolve_used hres)
  | write task fd data count =>
    obtain rfl := Option.some.inj hexec
    cases data with
    | none => exact h.backed
    | some data =>
      cases hres : resolve q.state task fd with
      | none =>
        simp only [Traced.sources, vfsWrite, hres]
        exact h.backed
      | some slot => exact h.write hfits data hres (hp slot hres)
  | lseek task fd offset whence =>
    obtain rfl := Option.some.inj hexec
    simp only [Traced.sources]
    unfold vfsLseek
    split
    · exact h.backed
    · next slot hres =>
      dsimp only
      generalize (if whence = 1 then ((q.state.fds slot).pos : Int)
        else if whence = 2 then ((q.state.fds slot).size : Int) else 0) + offset = np
      by_cases hnp : np < 0 ∨ np > 2 ^ 32 - 1
      · rw [if_pos hnp]
        exact h.backed
      · rw [if_neg hnp]
        exact backed_pos _ h.backed (resolve_used hres)
  | close task fd =>
    obtain ⟨r, hr, rfl⟩ := Option.map_eq_some_iff.mp hexec
    unfold vfsClose at hr
    split at hr
    · obtain rfl := Option.some.inj hr
      exact h.backed
    · obtain ⟨r', hclose, rfl⟩ := Option.map_eq_some_iff.mp hr
      intro i hi
      obtain ⟨-, heq⟩ := closeSlot_fds hclose hi
      rw [heq] at hi ⊢
      exact h.backed i hi
  | closeAll task =>
    have hexec : vfsCloseAll drive env.noise q.state task = some s' := hexec
    unfold vfsCloseAll at hexec
    split_ifs at hexec
    · obtain rfl := Option.some.inj hexec
      exact h.backed
    · intro i hi
      obtain ⟨heq, -⟩ := closeUpTo_fds hexec hi
      rw [heq] at hi ⊢
      exact h.backed i hi
  | kfs op =>
    obtain ⟨out, _, rfl⟩ := Option.map_eq_some_iff.mp hexec
    exact h.backed

theorem Traced.Reach.inv (hroom : drive.HasRoom) (h : Traced.Reach drive BeginsInside q) :
    q.Inv := by
  induction h with
  | boot stale fs fds source =>
    exact ⟨boot_fits hroom stale fs fds, fun slot hslot => by cases hslot⟩
  | step env _ hv hfits hp hrun ih => exact ih.exec hv hfits hp hrun

theorem Traced.Inv.sourced (h : q.Inv) : Sourced q where
  stored slot hused i b hb := by
    have hlt : i < (q.state.fds slot).size := by
      have hlen := (List.getElem?_eq_some_iff.mp hb).1
      rwa [length_prefixOf] at hlen
    rw [getElem?_prefixOf _ hlt] at hb
    obtain rfl := Option.some.inj hb
    exact h.backed slot hused i hlt
  read task fd slot buf count out hres hread hflags i hi hlt := by
    simp only [vfsRead, hres, hflags, Bool.false_eq_true, if_false, Option.some.injEq] at hread
    have hout : out i = (q.state.fds slot).buf ((q.state.fds slot).pos + i) := by
      rw [← hread, fill, if_pos]
      refine ⟨Nat.zero_le i, ?_⟩
      split_ifs <;> omega
    rw [hout]
    exact h.backed slot (resolve_used hres) _ hlt

theorem Traced.Inv.keepsOnZero (h : q.Inv) {op : Op} (hp : BeginsInside q.state op) :
    KeepsOnZero q.state op := by
  cases op with
  | write task fd data count =>
    cases count with
    | zero =>
      intro heap slot hres
      cases data with
      | none => rfl
      | some data =>
        have hsize := (h.fits.files slot (resolve_used hres)).size
        obtain ⟨pos, hseek⟩ := seekAppend_eq (q.state.fds slot)
        rcases vfsWrite_cases heap hres data 0 with (heq | heq) | ⟨vf, hflags, hcap, heq⟩
        · rw [heq]
        · rw [heq, hseek]
          simp only [setFd, Function.update_self]
        · have hpos := hp slot hres hflags
          rw [ensureCap_zero (by rw [hseek]; exact hsize) (by rw [hseek] at hpos ⊢; exact hpos)]
            at hcap
          obtain rfl := Option.some.inj hcap
          rw [hseek] at hpos heq
          have hpos : pos ≤ (q.state.fds slot).size := hpos
          have hmod := Nat.mod_le pos (2 ^ 32)
          rw [heq]
          simp only [setFd, Function.update_self, Nat.add_zero, fill_empty]
          rw [if_neg (by omega)]
    | succ count => trivial
  | openFile => trivial
  | read => trivial
  | lseek => trivial
  | close => trivial
  | closeAll => trivial
  | kfs => trivial

/-- In every run whose writes begin at or before the end of the file, all bytes that are read or
stored have a source, and such a write of nothing changes nothing. -/
theorem bytes_have_source (hroom : drive.HasRoom) (h : Traced.Reach drive BeginsInside q) :
    Sourced q ∧ ∀ op, BeginsInside q.state op → KeepsOnZero q.state op :=
  ⟨(h.inv hroom).sourced, fun _ hp => (h.inv hroom).keepsOnZero hp⟩

/-- A heap whose blocks hold what their last owner left in them. -/
def staleHeap : Heap := fun n => if n ≤ 0xFFFFFE00 then some fun _ => 7 else none

def staleEnv : Env := ⟨staleHeap, fun _ => Kfs.noNoise⟩

theorem staleEnv_fits : staleEnv.Fits := by
  intro n hn
  by_contra hbig
  simp [staleEnv, staleHeap, hbig] at hn

/-- Task 1 creates a file and seeks to byte `offset` of it. -/
def soughtTo (offset : Int) : Option Traced := do
  let q ← Traced.exec Kfs.smallDrive staleEnv ⟨bootState, fun _ => ⟨[], []⟩⟩
    (.openFile 1 [97] (oRdwr ||| oCreat))
  q.exec Kfs.smallDrive staleEnv (.lseek 1 0 offset 0)

/-- It then writes one byte there. -/
def holeRun (offset : Int) : Option Traced := do
  let q ← soughtTo offset
  q.exec Kfs.smallDrive staleEnv (.write 1 0 (some fun _ => 1) 1)

theorem soughtTo_reach {P : State → Op → Prop} {offset : Int}
    (hopen : P bootState (.openFile 1 [97] (oRdwr ||| oCreat)))
    (hseek : ∀ s, P s (.lseek 1 0 offset 0)) (h : soughtTo offset = some q) :
    Traced.Reach Kfs.smallDrive P q := by
  unfold soughtTo at h
  obtain ⟨q₁, hopened, hsought⟩ := Option.bind_eq_some_iff.mp h
  have hboot : Traced.Reach Kfs.smallDrive P ⟨bootState, fun _ => ⟨[], []⟩⟩ :=
    Traced.Reach.boot _ _ _ _
  have hv₁ : (Op.openFile 1 [97] (oRdwr ||| oCreat)).Valid := ⟨by decide, by decide, by decide⟩
  have hv₂ : (Op.lseek 1 0 offset 0).Valid := trivial
  exact (hboot.step staleEnv hv₁ staleEnv_fits hopen hopened).step staleEnv hv₂ staleEnv_fits
    (hseek _) hsought

/-- A byte written at the start of the file and its source. -/
theorem bytes_have_source_atStart : ∃ q, holeRun 0 = some q ∧ (q.state.fds 16).size = 1 ∧
    Sourced q ∧ ∀ op, BeginsInside q.state op → KeepsOnZero q.state op := by
  have hval : ((soughtTo 0).map fun q => (resolve q.state 1 0, (seekAppend (q.state.fds 16)).pos,
      (q.state.fds 16).size)) = some (some 16, 0, 0) := by decide +kernel
  have hsize : ((holeRun 0).map fun q => (q.state.fds 16).size) = some 1 := by decide +kernel
  obtain ⟨q, hq, hfields⟩ := Option.map_eq_some_iff.mp hval
  obtain ⟨hres, hfields⟩ := Prod.mk.inj hfields
  obtain ⟨hpos, -⟩ := Prod.mk.inj hfields
  obtain ⟨q', hq', hsize⟩ := Option.map_eq_some_iff.mp hsize
  have hwrite : q.exec Kfs.smallDrive staleEnv (.write 1 0 (some fun _ => 1) 1) = some q' := by
    rw [holeRun, hq] at hq'
    exact hq'
  have hinside : BeginsInside q.state (.write 1 0 (some fun _ => 1) 1) := by
    intro slot hslot _
    obtain rfl := Option.some.inj (hres.symm.trans hslot)
    rw [hpos]
    exact Nat.zero_le _
  have hreach : Traced.Reach Kfs.smallDrive BeginsInside q :=
    soughtTo_reach trivial (fun _ => trivial) hq
  have hv : (Op.write 1 0 (some fun _ => 1) 1).Valid := trivial
  exact ⟨q', hq', hsize, bytes_have_source Kfs.smallDrive_hasRoom
    (hreach.step staleEnv hv staleEnv_fits hinside hwrite)⟩

/-- The byte is written at position 5: the first five bytes of the file are what was in the block.
Without it, a write of nothing makes them the file. -/
theorem hole_without_source :
    (∃ q, Traced.Reach Kfs.smallDrive (fun _ _ => True) q ∧ ¬Sourced q) ∧
      ∃ q op, Traced.Reach Kfs.smallDrive (fun _ _ => True) q ∧ ¬KeepsOnZero q.state op := by
  have hval : ((soughtTo 5).bind fun q =>
      (q.exec Kfs.smallDrive staleEnv (.write 1 0 (some fun _ => 1) 1)).map fun q' =>
        decide (resolve q.state 1 0 = some 16 ∧ (q.state.fds 16).size = 0 ∧
          ((vfsWrite staleHeap q.state 1 0 (some fun _ => 1) 0).2.fds 16).size = 5 ∧
          (q'.state.fds 16).used = true ∧
          (prefixOf (q'.state.fds 16).buf (q'.state.fds 16).size)[0]? = some 7 ∧
          (q'.source 16).opened = [] ∧ (q'.source 16).written = [(5, 1)])) = some true := by
    decide +kernel
  obtain ⟨q, hq, hrest⟩ := Option.bind_eq_some_iff.mp hval
  obtain ⟨q', hwrite, hfields⟩ := Option.map_eq_some_iff.mp hrest
  obtain ⟨hres, hsize, hsize', hused, hbyte, hopened, hwritten⟩ := of_decide_eq_true hfields
  have hreach : Traced.Reach Kfs.smallDrive (fun _ _ => True) q :=
    soughtTo_reach trivial (fun _ => trivial) hq
  have hv : (Op.write 1 0 (some fun _ => 1) 1).Valid := trivial
  refine ⟨⟨q', hreach.step staleEnv hv staleEnv_fits trivial hwrite, fun hsourced => ?_⟩,
    q, .write 1 0 (some fun _ => 1) 0, hreach, fun hkeeps => ?_⟩
  · have hhas := hsourced.stored 16 hused 0 7 hbyte
    unfold Source.Has at hhas
    rw [hopened, hwritten] at hhas
    revert hhas
    decide
  · have hsame := congrArg List.length (hkeeps staleHeap 16 hres)
    simp only [length_prefixOf] at hsame
    omega

end Kyuzen.Vfs
