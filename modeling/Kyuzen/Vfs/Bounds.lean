import Kyuzen.Kfs.ReadBounds
import Kyuzen.Vfs.Checked

/-!
# Descriptors stay in their buffers

In every run, whatever the file system holds and the heap answers, the bytes of a descriptor lie
in its buffer and each call touches the buffer inside only (`Bounded`). The position after a write
is computed in 64 bits, so `ensure_cap` grows the buffer to what the loop will write. What
`vfs_write` returns is the count as an `int`: a write of 2^32 - 1 bytes succeeds and returns -1
(`descriptor_bounds` has the exact case, `write_all_returns_error` a run into it).
-/

namespace Kyuzen.Vfs.Checked

open Lib.Memory
open Kfs (CStr)

variable {heap : Heap} {c c' : State} {vf vf' : VfsFile} {len need slot : Nat} {task fd : Int}

/-- Every descriptor in use is in its block. -/
def Bounded (c : State) : Prop :=
  ∀ i, (c.base.fds i).used = true → InBlock (c.base.fds i) (c.len i)

theorem Bounded.setFd (h : Bounded c) (hvf : InBlock vf len) :
    Bounded ⟨setFd c.base slot vf, Function.update c.len slot len⟩ := by
  intro i hi
  by_cases his : i = slot
  · subst his
    simpa [Vfs.setFd] using hvf
  · simp only [Vfs.setFd, Function.update_of_ne his] at hi ⊢
    exact h i hi

/-- Only the descriptor changes, not its block. -/
theorem Bounded.setPos (h : Bounded c) (hvf : InBlock vf (c.len slot)) :
    Bounded { c with base := Vfs.setFd c.base slot vf } := by
  have hset := @Bounded.setFd c vf _ slot h hvf
  rwa [Function.update_eq_self] at hset

theorem InBlock.withPos (h : InBlock vf len) {pos : Nat} (hpos : pos < 2 ^ 32) :
    InBlock { vf with pos := pos } len :=
  ⟨h.size, h.cap, h.capLt, hpos⟩

theorem InBlock.seekAppend (h : InBlock vf len) : InBlock (seekAppend vf) len := by
  unfold Vfs.seekAppend
  split_ifs
  · exact h.withPos (lt_of_le_of_lt h.size h.capLt)
  · exact h

/-! ## Opening -/

theorem findEntryFrom_size_lt {s : Kfs.State} {name : CStr} : ∀ {fuel d : Nat}
    {r : Kfs.Entry × Nat × Nat}, Kfs.findEntryFrom s name fuel d = some (some r) →
      r.1.sizeBytes < 2 ^ 32 := by
  intro fuel
  induction fuel with
  | zero =>
    intro d r h
    cases h
  | succ fuel ih =>
    intro d r h
    rw [Kfs.findEntryFrom] at h
    split_ifs at h with hstop
    · cases h
    · split at h
      · obtain rfl := Option.some.inj (Option.some.inj h)
        exact Kfs.entryAt_size_lt _ _
      · exact ih h

/-- Sizes are 32-bit numbers on any disk. -/
theorem kfsGetFileSize_lt {s : Kfs.State} {path : CStr} {n : Nat}
    (h : Kfs.kfsGetFileSize s path = some n) : n < 2 ^ 32 := by
  unfold Kfs.kfsGetFileSize at h
  obtain ⟨r, -, h⟩ := Option.bind_eq_some_iff.mp h
  split at h
  · obtain rfl := Option.some.inj h
    decide
  obtain ⟨f, hfind, h⟩ := Option.bind_eq_some_iff.mp h
  split at h
  · obtain rfl := Option.some.inj h
    decide
  · obtain rfl := Option.some.inj h
    unfold Kfs.findEntryIn at hfind
    split_ifs at hfind
    · cases hfind
    · exact findEntryFrom_size_lt hfind

/-- What `vfs_open` installs fits the block that it has asked for. -/
theorem newFile_inBlock {fs₁ fs₂ fs₃ : Kfs.State} {path : CStr} {flags request : Nat} {l : Loaded}
    (hload : vfsLoad heap fs₁ fs₂ fs₃ path flags = some (some l))
    (hreq : openRequest fs₁ fs₂ path = some request) :
    InBlock (newFile task path flags l) request := by
  obtain ⟨hsize, -, -⟩ := vfsLoad_fits hload
  obtain ⟨existed, fsize, buf, hex, hopen, -, hcases⟩ := vfsLoad_cases hload
  have hcap : l.cap = openCap fsize := by
    rcases hcases with ⟨-, -, -, ok, b, -, -, rfl⟩ | ⟨-, rfl⟩
    · rfl
    · rfl
  have hrequest : openCap fsize = request := by
    unfold openRequest at hreq
    rw [hex] at hreq
    simpa [hopen] using hreq
  have hfsize : fsize < 2 ^ 32 := by
    unfold openSize at hopen
    split_ifs at hopen
    · obtain rfl := Option.some.inj hopen
      decide
    · exact kfsGetFileSize_lt hopen
  have hlt : l.cap < 2 ^ 32 := by
    rw [hcap, openCap]
    split_ifs <;> omega
  refine ⟨hsize, hcap.trans hrequest, hlt, ?_⟩
  show (if has flags oAppend then l.size else 0) < 2 ^ 32
  split_ifs <;> omega

theorem vfsOpen_bounded {fs₂ fs₃ : Kfs.State} {path : CStr} {flags : Nat} {r : Int × State}
    (h : Bounded c) (hrun : vfsOpen heap c fs₂ fs₃ task path flags = some r) : Bounded r.2 := by
  unfold vfsOpen at hrun
  split_ifs at hrun
  · obtain rfl := Option.some.inj hrun
    exact h
  · obtain rfl := Option.some.inj hrun
    exact h
  obtain ⟨l, hload, hrun⟩ := Option.bind_eq_some_iff.mp hrun
  cases l with
  | none =>
    obtain rfl := Option.some.inj hrun
    exact h
  | some l =>
    obtain ⟨request, hreq, hrun⟩ := Option.bind_eq_some_iff.mp hrun
    split at hrun
    · obtain rfl := Option.some.inj hrun
      exact h
    · obtain rfl := Option.some.inj hrun
      exact h.setFd (newFile_inBlock hload hreq)

/-- `kfs_read_to_buffer` writes below the capacity it is given, on any disk. -/
theorem read_to_buffer_below {s : Kfs.State} {walk capacity ret : Nat} {path : CStr}
    {reads writes : List Nat}
    (h : Kfs.Touched.kfsReadToBuffer s walk path capacity = some (ret, reads, writes)) :
    ∀ x ∈ writes, x < capacity := by
  obtain ⟨⟨found, first⟩, -, hrest⟩ := Option.bind_eq_some_iff.mp h
  cases found with
  | none =>
    obtain ⟨-, hlogs⟩ := Prod.mk.inj (Option.some.inj hrest)
    obtain ⟨-, rfl⟩ := Prod.mk.inj hlogs
    exact fun x hx => absurd hx List.not_mem_nil
  | some found =>
    by_cases hcap : found.1.sizeBytes > capacity
    · obtain ⟨-, hlogs⟩ := Prod.mk.inj (Option.some.inj ((if_pos hcap).symm.trans hrest))
      obtain ⟨-, rfl⟩ := Prod.mk.inj hlogs
      exact fun x hx => absurd hx List.not_mem_nil
    · obtain ⟨⟨reads', writes'⟩, hcopy, heq⟩ := Option.bind_eq_some_iff.mp
        ((if_neg hcap).symm.trans hrest)
      obtain ⟨-, hlogs⟩ := Prod.mk.inj (Option.some.inj heq)
      obtain ⟨-, rfl⟩ := Prod.mk.inj hlogs
      intro x hx
      have hrange := (Kfs.Touched.readChunks_writes hcopy).2 x hx
      omega

/-! ## Reading and seeking -/

/-- Reading stays in the block and does what the model says. -/
theorem vfsRead_eq (h : Bounded c) (buf : Option Mem) (count : Nat) :
    let r := Vfs.vfsRead c.base task fd buf count
    vfsRead c task fd buf count = some (r.1, r.2.1, { c with base := r.2.2 }) ∧
      Bounded { c with base := r.2.2 } := by
  unfold vfsRead Vfs.vfsRead
  cases buf with
  | none => exact ⟨rfl, h⟩
  | some b =>
    cases hres : resolve c.base task fd with
    | none => exact ⟨rfl, h⟩
    | some slot =>
      have hvf := h slot (resolve_used hres)
      dsimp only
      by_cases hflags : has (c.base.fds slot).flags oWronly = true
      · rw [if_pos hflags, if_pos hflags]
        exact ⟨rfl, h⟩
      · rw [if_neg hflags, if_neg hflags]
        have hsize := hvf.size
        have hcap := hvf.cap
        have hcapLt := hvf.capLt
        have hposLt := hvf.posLt
        by_cases hpos : (c.base.fds slot).pos < (c.base.fds slot).size
        · rw [if_pos hpos]
          have hn : (if count < (c.base.fds slot).size - (c.base.fds slot).pos then count
              else (c.base.fds slot).size - (c.base.fds slot).pos) ≤
              (c.base.fds slot).size - (c.base.fds slot).pos := by
            split_ifs <;> omega
          generalize (if count < (c.base.fds slot).size - (c.base.fds slot).pos then count
            else (c.base.fds slot).size - (c.base.fds slot).pos) = n at hn ⊢
          have hlen : c.len slot < 2 ^ 32 := by omega
          have hend : (c.base.fds slot).pos + n ≤ c.len slot := by omega
          have hmod : ((c.base.fds slot).pos + n) % 2 ^ 32 = (c.base.fds slot).pos + n :=
            Nat.mod_eq_of_lt (by omega)
          rw [readLoop_eq hlen b hend, hmod]
          refine ⟨?_, h.setPos (hvf.withPos (by omega))⟩
          simp only [Option.bind_eq_bind, Option.bind_some, Option.pure_def]
        · -- nothing is read at or after the end
          have hzero : (if count < 0 then count else 0) = 0 := if_neg (Nat.not_lt_zero count)
          rw [if_neg hpos, hzero, readLoop, fill_empty, Nat.add_zero, Nat.mod_eq_of_lt hposLt]
          exact ⟨rfl, h.setPos hvf⟩

theorem vfsLseek_bounded (h : Bounded c) (offset whence : Int) :
    Bounded (vfsLseek c task fd offset whence).2 := by
  unfold vfsLseek Vfs.vfsLseek
  cases hres : resolve c.base task fd with
  | none => exact h
  | some slot =>
    have hvf := h slot (resolve_used hres)
    dsimp only
    generalize (if whence = 1 then ((c.base.fds slot).pos : Int)
      else if whence = 2 then ((c.base.fds slot).size : Int) else 0) + offset = np
    by_cases hnp : np < 0 ∨ np > 2 ^ 32 - 1
    · rw [if_pos hnp]
      exact h
    · rw [if_neg hnp]
      exact h.setPos (hvf.withPos (by omega))

/-! ## Writing -/

theorem ensureCap_enough (hle : need ≤ vf.cap) : Vfs.ensureCap heap vf need = some vf := by
  unfold Vfs.ensureCap
  rw [if_pos hle]

/-- The capacity holds what is needed, and is the old one or even. -/
theorem ensureCap_cap (h : InBlock vf len) (hrun : Vfs.ensureCap heap vf need = some vf') :
    need ≤ vf'.cap ∧ vf'.cap < 2 ^ 32 ∧ (vf'.cap = vf.cap ∨ 2 ∣ vf'.cap) ∧
      ∃ buf cap, vf' = { vf with buf := buf, cap := cap } := by
  have hcapLt := h.capLt
  obtain ⟨hneed, -, -, hshape⟩ := ensureCap_spec hrun
  refine ⟨hneed, ?_, ?_, hshape⟩
  all_goals
    unfold Vfs.ensureCap at hrun
    by_cases hle : need ≤ vf.cap
    · rw [if_pos hle] at hrun
      obtain rfl := Option.some.inj hrun
      first
        | exact hcapLt
        | exact Or.inl rfl
    by_cases hbig : need > 2 ^ 32 - 1
    · rw [if_neg hle, if_pos hbig] at hrun
      cases hrun
    rw [if_neg hle, if_neg hbig] at hrun
    split at hrun
    · cases hrun
    rename_i newcap hgrow
    split at hrun
    · cases hrun
    obtain rfl := Option.some.inj hrun
    have hstart : (if vf.cap = 0 then 64 else vf.cap) < 2 ^ 32 := by
      split_ifs <;> omega
    obtain ⟨hlt, heven⟩ := growCap_lt hstart hgrow
    dsimp only
  · exact hlt
  · split_ifs at heven with hzero
    · refine Or.inr (heven.elim (fun heq => ?_) id)
      rw [heq]
      decide
    · exact heven

theorem toInt_eq_neg_one {count : Nat} (h : count < 2 ^ 32) :
    toInt count = -1 ↔ count = 2 ^ 32 - 1 := by
  unfold toInt
  rw [Int.bmod_def]
  split_ifs <;> omega

/-- Of no descriptor the buffer, its length, the size, the capacity or the mark has changed. -/
def Unchanged (c c' : State) : Prop := ∀ i, (c'.base.fds i).buf = (c.base.fds i).buf ∧
  (c'.base.fds i).size = (c.base.fds i).size ∧ (c'.base.fds i).cap = (c.base.fds i).cap ∧
  (c'.base.fds i).dirty = (c.base.fds i).dirty ∧ c'.len i = c.len i

theorem Unchanged.refl (c : State) : Unchanged c c := fun _ => ⟨rfl, rfl, rfl, rfl, rfl⟩

theorem unchanged_seekAppend (c : State) (slot : Nat) :
    Unchanged c { c with base := Vfs.setFd c.base slot (seekAppend (c.base.fds slot)) } := by
  intro i
  by_cases his : i = slot
  · subst his
    obtain ⟨pos, hseek⟩ := seekAppend_eq (c.base.fds i)
    simp [Vfs.setFd, hseek]
  · simp [Vfs.setFd, Function.update_of_ne his]

/-- A write that finds a descriptor to write to, and a buffer that holds the bytes. -/
structure Writes (heap : Heap) (c : State) (task fd : Int) (data : Option Mem) (count : Nat)
    (b : Mem) (slot : Nat) (vf : VfsFile) : Prop where
  given : data = some b
  resolved : resolve c.base task fd = some slot
  flags : has (c.base.fds slot).flags (oWronly ||| oRdwr) = true
  room : Vfs.ensureCap heap (seekAppend (c.base.fds slot))
    ((seekAppend (c.base.fds slot)).pos + count) = some vf

/-- What a write leaves in its descriptor. -/
def written (vf : VfsFile) (b : Mem) (count : Nat) : VfsFile :=
  { vf with
    buf := fill vf.buf vf.pos count fun i => b (i - vf.pos)
    pos := (vf.pos + count) % 2 ^ 32
    size := if (vf.pos + count) % 2 ^ 32 > vf.size then (vf.pos + count) % 2 ^ 32 else vf.size
    dirty := true }

/-- Writing stays in the block and does what the model says: it fails and changes no bytes, or
has written them all. -/
theorem vfsWrite_cases (h : Bounded c) (data : Option Mem) (count : Nat) :
    ∃ c', vfsWrite heap c task fd data count =
        some ((Vfs.vfsWrite heap c.base task fd data count).1, c') ∧
      c'.base = (Vfs.vfsWrite heap c.base task fd data count).2 ∧ Bounded c' ∧
      ((Vfs.vfsWrite heap c.base task fd data count).1 = -1 ∧ Unchanged c c' ∧
          (∀ b slot vf, ¬Writes heap c task fd data count b slot vf) ∨
        ∃ b slot vf, Writes heap c task fd data count b slot vf ∧
          (Vfs.vfsWrite heap c.base task fd data count).1 = toInt count ∧
          c' = ⟨Vfs.setFd c.base slot (written vf b count),
            Function.update c.len slot vf.cap⟩) := by
  unfold vfsWrite Vfs.vfsWrite
  cases hdata : data with
  | none =>
    refine ⟨c, rfl, rfl, h, Or.inl ⟨rfl, Unchanged.refl c, fun b slot vf hw => ?_⟩⟩
    cases hw.given
  | some b =>
    cases hres : resolve c.base task fd with
    | none =>
      refine ⟨c, rfl, rfl, h, Or.inl ⟨rfl, Unchanged.refl c, fun b slot vf hw => ?_⟩⟩
      have hslot := hw.resolved
      rw [hres] at hslot
      cases hslot
    | some slot =>
      have hvf := (h slot (resolve_used hres)).seekAppend
      have hslot : ∀ {b' slot' vf}, Writes heap c task fd (some b) count b' slot' vf →
          slot' = slot := fun hw => Option.some.inj (hw.resolved.symm.trans hres)
      dsimp only
      by_cases hflags : has (c.base.fds slot).flags (oWronly ||| oRdwr) = false
      · rw [if_pos hflags, if_pos hflags]
        refine ⟨c, rfl, rfl, h, Or.inl ⟨rfl, Unchanged.refl c, fun b' slot' vf hw => ?_⟩⟩
        have hw' := hw.flags
        rw [hslot hw, hflags] at hw'
        cases hw'
      rw [if_neg hflags, if_neg hflags, ensureCap_eq heap hvf, Option.bind_eq_bind,
        Option.bind_some]
      cases hcap : Vfs.ensureCap heap (seekAppend (c.base.fds slot))
          ((seekAppend (c.base.fds slot)).pos + count) with
      | none =>
        refine ⟨_, rfl, rfl, h.setPos hvf, Or.inl ⟨rfl, unchanged_seekAppend c slot,
          fun b' slot' vf hw => ?_⟩⟩
        have hroom := hw.room
        rw [hslot hw, hcap] at hroom
        cases hroom
      | some vf =>
        obtain ⟨hneed, hlt, -, buf, cap, hshape⟩ := ensureCap_cap hvf hcap
        have hpos : vf.pos = (seekAppend (c.base.fds slot)).pos := by rw [hshape]
        have hsize : vf.size ≤ vf.cap := by
          have hle := (ensureCap_spec hcap).2.1
          rw [show vf.size = (seekAppend (c.base.fds slot)).size by rw [hshape]]
          exact hvf.size.trans hle
        rw [← hpos] at hneed
        have hend : (vf.pos + count) % 2 ^ 32 = vf.pos + count := Nat.mod_eq_of_lt (by omega)
        have hin : InBlock (written vf b count) vf.cap := by
          refine ⟨?_, rfl, hlt, Nat.mod_lt _ (by decide)⟩
          show (if (vf.pos + count) % 2 ^ 32 > vf.size then (vf.pos + count) % 2 ^ 32
            else vf.size) ≤ vf.cap
          split_ifs <;> omega
        refine ⟨⟨Vfs.setFd c.base slot (written vf b count),
          Function.update c.len slot vf.cap⟩, ?_, rfl, h.setFd hin,
          Or.inr ⟨b, slot, vf, ⟨rfl, hres, by simpa using hflags, hcap⟩, ?_, rfl⟩⟩
        · rw [Option.map_some]
          dsimp only
          rw [writeLoop_eq hlt b hneed]
          simp only [Option.bind_eq_bind, Option.bind_some, Option.pure_def, written]
        · dsimp only

/-- The write fills a buffer of 2^32 - 1 bytes from its start, which changes the descriptor. -/
structure Misreported (vf : VfsFile) (b : Mem) (count : Nat) : Prop where
  all : count = 2 ^ 32 - 1
  flags : has vf.flags (oWronly ||| oRdwr) = true
  start : (seekAppend vf).pos = 0
  cap : vf.cap = 2 ^ 32 - 1
  changes : ¬(vf.dirty = true ∧ vf.size = 2 ^ 32 - 1 ∧ ∀ i < 2 ^ 32 - 1, b i = vf.buf i)

/-- A buffer that is filled from its start does not grow. -/
theorem Misreported.room {b : Mem} {count : Nat} (hm : Misreported vf b count) (heap : Heap) :
    Vfs.ensureCap heap (seekAppend vf) ((seekAppend vf).pos + count) = some (seekAppend vf) := by
  obtain ⟨pos, hseek⟩ := seekAppend_eq vf
  have hcap : (seekAppend vf).cap = vf.cap := by rw [hseek]
  apply ensureCap_enough
  rw [hcap, hm.start, hm.cap, hm.all, Nat.zero_add]

/-- A byte, the size or the dirty flag is another one afterwards. -/
theorem Writes.changed {data : Option Mem} {b : Mem} {count : Nat} (h : Bounded c)
    (hw : Writes heap c task fd data count b slot vf) (hcount : count < 2 ^ 32)
    (hm : Misreported (c.base.fds slot) b count) :
    ¬Unchanged c ⟨Vfs.setFd c.base slot (written vf b count), Function.update c.len slot vf.cap⟩ := by
  intro hsame
  obtain ⟨pos, hseek⟩ := seekAppend_eq (c.base.fds slot)
  have hbuf : (seekAppend (c.base.fds slot)).buf = (c.base.fds slot).buf := by rw [hseek]
  have hsize : (seekAppend (c.base.fds slot)).size = (c.base.fds slot).size := by rw [hseek]
  obtain rfl : seekAppend (c.base.fds slot) = vf :=
    Option.some.inj ((hm.room heap).symm.trans hw.room)
  obtain ⟨hb, hs, -, hd, -⟩ := hsame slot
  simp only [Vfs.setFd, Function.update_self, written, hm.start, hbuf, hsize, Nat.zero_add,
    Nat.sub_zero, Nat.mod_eq_of_lt hcount] at hb hs hd
  refine hm.changes ⟨hd.symm, ?_, fun i hi => ?_⟩
  · have hle := (h slot (resolve_used hw.resolved)).size
    rw [hm.cap] at hle
    have hall := hm.all
    split_ifs at hs <;> omega
  · rw [← hb, fill, if_pos ⟨Nat.zero_le i, by rw [Nat.zero_add, hm.all]; exact hi⟩]

/-- A count of 2^32 - 1 needs a full buffer and a position at its start; if what is written is
there already, nothing changes. -/
theorem Writes.unchanged {data : Option Mem} {b : Mem} {count : Nat} (h : Bounded c)
    (hw : Writes heap c task fd data count b slot vf) (hall : count = 2 ^ 32 - 1)
    (hno : ¬Misreported (c.base.fds slot) b count) :
    Unchanged c ⟨Vfs.setFd c.base slot (written vf b count), Function.update c.len slot vf.cap⟩ := by
  have hvf := h slot (resolve_used hw.resolved)
  obtain ⟨pos, hseek⟩ := seekAppend_eq (c.base.fds slot)
  have hbuf : (seekAppend (c.base.fds slot)).buf = (c.base.fds slot).buf := by rw [hseek]
  have hsize : (seekAppend (c.base.fds slot)).size = (c.base.fds slot).size := by rw [hseek]
  have hcapEq : (seekAppend (c.base.fds slot)).cap = (c.base.fds slot).cap := by rw [hseek]
  obtain ⟨hneed, hlt, heven, buf, cap, hshape⟩ := ensureCap_cap hvf.seekAppend hw.room
  have hstart : (seekAppend (c.base.fds slot)).pos = 0 := by omega
  have hcapAll : (c.base.fds slot).cap = 2 ^ 32 - 1 := by
    rw [← hcapEq]
    omega
  have hsame : Vfs.ensureCap heap (seekAppend (c.base.fds slot))
      ((seekAppend (c.base.fds slot)).pos + count) = some (seekAppend (c.base.fds slot)) := by
    apply ensureCap_enough
    rw [hcapEq, hstart, hcapAll, hall, Nat.zero_add]
  obtain rfl : seekAppend (c.base.fds slot) = vf :=
    Option.some.inj (hsame.symm.trans hw.room)
  have hquiet : (c.base.fds slot).dirty = true ∧ (c.base.fds slot).size = 2 ^ 32 - 1 ∧
      ∀ i < 2 ^ 32 - 1, b i = (c.base.fds slot).buf i := by
    by_contra hchanges
    exact hno ⟨hall, hw.flags, hstart, hcapAll, hchanges⟩
  obtain ⟨hdirty, hsizeAll, hbytes⟩ := hquiet
  have hcount : count % 2 ^ 32 = count := Nat.mod_eq_of_lt (by omega)
  intro i
  by_cases his : i = slot
  · subst his
    simp only [Vfs.setFd, Function.update_self, written, hstart, hbuf, hsize, hcapEq,
      Nat.zero_add, Nat.sub_zero, hcount]
    refine ⟨?_, ?_, trivial, hdirty.symm, hvf.cap⟩
    · ext x
      by_cases hx : x < count
      · rw [fill, if_pos ⟨Nat.zero_le x, by omega⟩, hbytes x (by omega)]
      · rw [fill_outside (by omega)]
    · rw [if_neg (by omega)]
  · simp [Vfs.setFd, Function.update_of_ne his]

/-- What a failed write leaves alone, with the exact exception. -/
theorem write_failure_iff (h : Bounded c) (data : Option Mem) {count : Nat}
    (hcount : count < 2 ^ 32) :
    (∀ ret c', vfsWrite heap c task fd data count = some (ret, c') → ret = -1 → Unchanged c c') ↔
      ∀ b slot, data = some b → resolve c.base task fd = some slot →
        ¬Misreported (c.base.fds slot) b count := by
  obtain ⟨c', hrun, -, -, hcases⟩ := @vfsWrite_cases heap c task fd h data count
  rcases hcases with ⟨-, hsame, hno⟩ | ⟨b, slot, vf, hw, hret, hstate⟩
  · constructor
    · intro _ b slot hdata hres hm
      exact hno b slot _ ⟨hdata, hres, hm.flags, hm.room heap⟩
    · intro _ ret c'' hrun' _
      rw [hrun] at hrun'
      rw [← (Prod.mk.inj (Option.some.inj hrun')).2]
      exact hsame
  constructor
  · intro hall b' slot' hdata hres hm
    obtain rfl : b' = b := Option.some.inj (hdata.symm.trans hw.given)
    obtain rfl : slot' = slot := Option.some.inj (hres.symm.trans hw.resolved)
    have hone : toInt (count : Int) = -1 := (toInt_eq_neg_one hcount).mpr hm.all
    refine hw.changed h hcount hm ?_
    rw [← hstate]
    exact hall _ _ hrun (hret.trans hone)
  · intro hno ret c'' hrun' hfail
    rw [hrun] at hrun'
    obtain ⟨hret', rfl⟩ := Prod.mk.inj (Option.some.inj hrun')
    have hall : count = 2 ^ 32 - 1 :=
      (toInt_eq_neg_one hcount).mp (hret.symm.trans (hret'.trans hfail))
    rw [hstate]
    exact hw.unchanged h hall (hno b slot hw.given hw.resolved)

/-! ## Whole runs -/

theorem exec_bounded {op : Op} (h : Bounded c) (hv : op.Valid)
    (hrun : exec heap c op = some c') : Bounded c' := by
  cases op with
  | openFile task path flags fs₂ fs₃ =>
    obtain ⟨r, hr, rfl⟩ := Option.map_eq_some_iff.mp hrun
    exact vfsOpen_bounded h hr
  | read task fd buf count =>
    obtain ⟨r, hr, rfl⟩ := Option.map_eq_some_iff.mp hrun
    obtain ⟨heq, hb⟩ := @vfsRead_eq c task fd h buf count
    rw [heq] at hr
    rw [← Option.some.inj hr]
    exact hb
  | write task fd data count =>
    obtain ⟨r, hr, rfl⟩ := Option.map_eq_some_iff.mp hrun
    obtain ⟨c', heq, -, hb, -⟩ := @vfsWrite_cases heap c task fd h data count
    rw [heq] at hr
    rw [← Option.some.inj hr]
    exact hb
  | lseek task fd offset whence =>
    obtain rfl := Option.some.inj hrun
    exact vfsLseek_bounded h offset whence
  | release slot =>
    obtain rfl := Option.some.inj hrun
    intro i hi
    by_cases his : i = slot
    · subst his
      simp [Vfs.setFd] at hi
    · simp only [Vfs.setFd, Function.update_of_ne his] at hi ⊢
      exact h i hi
  | other fs =>
    obtain rfl := Option.some.inj hrun
    exact h

theorem reach_bounded (h : Reach c) : Bounded c := by
  induction h with
  | init c hfree =>
    intro i hi
    rw [hfree i] at hi
    cases hi
  | step heap _ hv hrun ih => exact exec_bounded ih hv hrun

/-- In every reachable state the bytes of a descriptor are in its buffer, `ensure_cap` ends and
makes room for the sum in full, reads and writes stay in the buffer, and a write that returns -1
changes nothing, but for a write of 2^32 - 1 bytes that fills the buffer. -/
theorem descriptor_bounds (h : Reach c) :
    (∀ i, (c.base.fds i).used = true → (c.base.fds i).size ≤ (c.base.fds i).cap ∧
      (c.base.fds i).cap = c.len i) ∧
    (∀ heap i pos count, (c.base.fds i).used = true → pos < 2 ^ 32 → count < 2 ^ 32 →
      ∃ r, ensureCap heap { c.base.fds i with pos := pos } (c.len i) (pos + count) = some r ∧
        ∀ vf len, r = some (vf, len) → pos + count ≤ vf.cap ∧ vf.cap = len) ∧
    (∀ (s : Kfs.State) (walk capacity : Nat) (path : CStr) ret reads writes,
      Kfs.Touched.kfsReadToBuffer s walk path capacity = some (ret, reads, writes) →
        ∀ x ∈ writes, x < capacity) ∧
    (∀ task fd buf count, ∃ r, vfsRead c task fd buf count = some r) ∧
    ∀ heap task fd data count, count < 2 ^ 32 →
      (∃ r, vfsWrite heap c task fd data count = some r) ∧
      ((∀ ret c', vfsWrite heap c task fd data count = some (ret, c') → ret = -1 →
        Unchanged c c') ↔ ∀ b slot, data = some b → resolve c.base task fd = some slot →
          ¬Misreported (c.base.fds slot) b count) := by
  have hb := reach_bounded h
  refine ⟨fun i hi => ⟨(hb i hi).size, (hb i hi).cap⟩, fun heap i pos count hi hpos _ => ?_,
    fun _ _ _ _ _ _ _ hrun => read_to_buffer_below hrun,
    fun task fd buf count => ⟨_, (vfsRead_eq hb buf count).1⟩,
    fun heap task fd data count hcount => ⟨?_, write_failure_iff hb data hcount⟩⟩
  · have hin := (hb i hi).withPos hpos
    refine ⟨_, ensureCap_eq heap hin (pos + count), fun vf len hr => ?_⟩
    obtain ⟨vf', hrun, heq⟩ := Option.map_eq_some_iff.mp hr
    obtain ⟨rfl, rfl⟩ := Prod.mk.inj heq
    exact ⟨(ensureCap_cap hin hrun).1, rfl⟩
  · obtain ⟨c', hrun, -⟩ := @vfsWrite_cases heap c task fd hb data count
    exact ⟨_, hrun⟩

/-- No descriptor in use, on any file system. -/
def emptyTable (fs : Kfs.State) : State :=
  ⟨⟨fun _ => ⟨false, 0, [], fun _ => 0, 0, 0, 0, 0, false, []⟩, fs⟩, fun _ => 0⟩

theorem descriptor_bounds_opened : ∃ fs c,
    exec (fun _ => some fun _ => 0) (emptyTable fs) (.openFile 1 [97] (oRdwr ||| oCreat) fs fs) =
      some c ∧ (c.base.fds 16).used = true ∧ (c.base.fds 16).size ≤ (c.base.fds 16).cap ∧
      (c.base.fds 16).cap = c.len 16 := by
  have hval : (exec (fun _ => some fun _ => 0)
      (emptyTable (Kfs.kfsFormat Kfs.smallDrive (fun _ => 0) Kfs.blankState))
      (.openFile 1 [97] (oRdwr ||| oCreat)
        (Kfs.kfsFormat Kfs.smallDrive (fun _ => 0) Kfs.blankState)
        (Kfs.kfsFormat Kfs.smallDrive (fun _ => 0) Kfs.blankState))).map
      (fun c => (c.base.fds 16).used) = some true := by decide +kernel
  obtain ⟨c, hopen, hused⟩ := Option.map_eq_some_iff.mp hval
  have hv : (Op.openFile 1 [97] (oRdwr ||| oCreat)
    (Kfs.kfsFormat Kfs.smallDrive (fun _ => 0) Kfs.blankState)
    (Kfs.kfsFormat Kfs.smallDrive (fun _ => 0) Kfs.blankState)).Valid := trivial
  have hreach : Reach c := Reach.step _ (Reach.init _ fun _ => rfl) hv hopen
  exact ⟨_, c, hopen, hused, (descriptor_bounds hreach).1 16 hused⟩

/-- A disk whose file `a` has the size 2^32 - 1 in its entry. -/
def hugeFile : Option Kfs.State :=
  (Kfs.kfsCreateFile Kfs.smallDrive Kfs.noNoise.fat Kfs.noNoise.stack
    (Kfs.kfsFormat Kfs.smallDrive (fun _ => 0) Kfs.blankState) [97] (fun _ => 0)
    (2 ^ 32 - 1)).map fun out => out.state

/-- The file is opened, and its buffer is filled: the write returns -1 and has changed it. -/
theorem write_all_returns_error : ∃ c, Reach c ∧ ∃ ret c',
    vfsWrite (fun _ => none) c 1 0 (some fun _ => 1) (2 ^ 32 - 1) = some (ret, c') ∧ ret = -1 ∧
      ¬Unchanged c c' := by
  have hval : hugeFile.bind (fun fs =>
      (exec (fun _ => some fun _ => 0) (emptyTable fs) (.openFile 1 [97] oRdwr fs fs)).map
        fun c => decide (resolve c.base 1 0 = some 16 ∧ (c.base.fds 16).flags = oRdwr ∧
          (c.base.fds 16).pos = 0 ∧ (c.base.fds 16).cap = 2 ^ 32 - 1 ∧
          (c.base.fds 16).dirty = false)) = some true := by decide +kernel
  obtain ⟨fs, -, hrest⟩ := Option.bind_eq_some_iff.mp hval
  obtain ⟨c, hopen, hfields⟩ := Option.map_eq_some_iff.mp hrest
  obtain ⟨hres, hflags, hpos, hcap, hclean⟩ := of_decide_eq_true hfields
  have hv : (Op.openFile 1 [97] oRdwr fs fs).Valid := trivial
  have hreach : Reach c := Reach.step _ (Reach.init (emptyTable fs) fun _ => rfl) hv hopen
  refine ⟨c, hreach, ?_⟩
  by_contra hnone
  have hcount : (2 ^ 32 - 1 : Nat) < 2 ^ 32 := by norm_num
  have hfails := (@write_failure_iff (fun _ => none) c 1 0 (reach_bounded hreach)
    (some fun _ => 1) (2 ^ 32 - 1) hcount).mp fun ret c' hrun hret => by
      by_contra hchanged
      exact hnone ⟨ret, c', hrun, hret, hchanged⟩
  refine hfails (fun _ => 1) 16 rfl hres ⟨rfl, ?_, ?_, hcap, fun hquiet => ?_⟩
  · rw [hflags]
    decide
  · have hnoAppend : has (c.base.fds 16).flags oAppend = false := by
      rw [hflags]
      decide
    unfold seekAppend
    rw [hnoAppend]
    exact hpos
  · rw [hclean] at hquiet
    cases hquiet.1

end Kyuzen.Vfs.Checked
