import Kyuzen.Vfs.Lossless
import Kyuzen.Vfs.Source

/-!
# Descriptors as arrays with cursors

What one task sees of a path. The path has an array of bytes or nothing, an open file is an array
of bytes with a cursor, and closing a file that was changed gives its array to the path (`Ref`).

`Lockstep` runs the calls and the reference side by side. It requires that the positions stay
inside the file and the arrays below 2^31 bytes, that the kernel heap answers what it is asked
for, and that the disk has room for what is closed. The calls on an open file agree with the
reference (`Matches.read`, `Matches.lseek`, `Matches.write`).
-/

namespace Kyuzen.Vfs

open Lib.Memory
open Kfs (CStr Fs Resolvable Absent fileAt flagFile prefixOf length_prefixOf getElem?_prefixOf
  chainLength freeSectors)

/-- An open file: an array of bytes with a cursor. -/
structure RefFile where
  bytes : List UInt8
  pos : Nat
  flags : Nat
  changed : Bool

/-- `file` is the array of the path and `opened` the open files of the task. `shared` tells that a
file was opened while another one was open. -/
structure Ref where
  file : Option (List UInt8)
  opened : Int → Option RefFile
  shared : Bool

/-- The calls of one task on one path. -/
inductive Call where
  | openFile (flags : Nat)
  | read (fd : Int) (buf : Option Mem) (count : Nat)
  | write (fd : Int) (data : Option Mem) (count : Nat)
  | lseek (fd offset whence : Int)
  | close (fd : Int)

/-- The result of a call, and for a read the buffer of the caller. -/
abbrev Answer : Type := Int × Option Mem

def call (drive : Kfs.Drive) (env : Env) (task : Int) (path : CStr) (s : State) :
    Call → Option (Answer × State)
  | .openFile flags => (vfsOpen env.heap s task path flags).map fun r => ((r.1, none), r.2)
  | .read fd buf count =>
    let r := vfsRead s task fd buf count
    some ((r.1, r.2.1), r.2.2)
  | .write fd data count =>
    let r := vfsWrite env.heap s task fd data count
    some ((r.1, none), r.2)
  | .lseek fd offset whence =>
    let r := vfsLseek s task fd offset whence
    some ((r.1, none), r.2)
  | .close fd => (vfsClose drive (env.noise 0) s task fd).map fun r => ((r.1, none), r.2)

/-! ## The reference -/

/-- The bytes from the cursor on, at most `count` of them. -/
def RefFile.ahead (f : RefFile) (count : Nat) : List UInt8 := (f.bytes.drop f.pos).take count

/-- Where the next write begins. -/
def RefFile.start (f : RefFile) : Nat := if has f.flags oAppend then f.bytes.length else f.pos

def RefFile.write (f : RefFile) (data : List UInt8) : RefFile :=
  { f with
    bytes := f.bytes.take f.start ++ data ++ f.bytes.drop (f.start + data.length)
    pos := f.start + data.length
    changed := true }

/-- Where a seek goes: from the cursor, from the end or from the beginning. -/
def RefFile.target (f : RefFile) (offset whence : Int) : Int :=
  (if whence = 1 then (f.pos : Int) else if whence = 2 then (f.bytes.length : Int) else 0) + offset

def Ref.set (r : Ref) (fd : Int) (f : Option RefFile) : Ref :=
  { r with opened := Function.update r.opened fd f }

/-- The first descriptor that is not open. -/
def Ref.freeFd (r : Ref) : Option Nat := (List.range maxFds).find? fun i => (r.opened i).isNone

/-- The file that is opened. -/
def Ref.newFile (r : Ref) (flags : Nat) : RefFile :=
  let bytes := if has flags oTrunc then [] else r.file.getD []
  { bytes := bytes
    pos := if has flags oAppend then bytes.length else 0
    flags := flags
    changed := r.file.isNone || has flags oTrunc }

def Ref.call (r : Ref) : Call → Answer × Ref
  | .openFile flags =>
    if r.file.isNone = true ∧ has flags oCreat = false then ((-1, none), r)
    else
      match r.freeFd with
      | none => ((-1, none), r)
      | some fd => ((fd, none), { r.set fd (some (r.newFile flags)) with
          shared := r.shared || (List.range maxFds).any fun i => (r.opened i).isSome })
  | .read fd buf count =>
    match buf, r.opened fd with
    | some b, some f =>
      if has f.flags oWronly then ((-1, buf), r)
      else (((f.ahead count).length, some fun i => (f.ahead count).getD i (b i)),
        r.set fd (some { f with pos := f.pos + (f.ahead count).length }))
    | _, _ => ((-1, buf), r)
  | .write fd data count =>
    match data, r.opened fd with
    | some b, some f =>
      if has f.flags (oWronly ||| oRdwr) = false then ((-1, none), r)
      else ((count, none), r.set fd (some (f.write (prefixOf b count))))
    | _, _ => ((-1, none), r)
  | .lseek fd offset whence =>
    match r.opened fd with
    | none => ((-1, none), r)
    | some f =>
      if f.target offset whence < 0 then ((-1, none), r)
      else ((f.target offset whence, none),
        r.set fd (some { f with pos := (f.target offset whence).toNat }))
  | .close fd =>
    match r.opened fd with
    | none => ((-1, none), r)
    | some f => ((0, none), { r.set fd none with
        file := if f.changed then some f.bytes else r.file })

/-! ## Side by side -/

/-- The arrays have sizes below 2^31. -/
def Ref.Small (r : Ref) : Prop := ∀ fd f, r.opened fd = some f → f.bytes.length < 2 ^ 31

/-- The call leaves the arrays below 2^31 bytes and does not seek behind the end. -/
def Call.Bounded (r : Ref) (c : Call) : Prop :=
  (r.call c).2.Small ∧ ∀ fd offset whence, c = .lseek fd offset whence →
    ∀ f, r.opened fd = some f → f.target offset whence ≤ f.bytes.length

/-- The size that a write asks the heap for. -/
def grownCap (vf : VfsFile) (need : Nat) : Option Nat :=
  if need ≤ vf.cap then none else growCap need 33 (if vf.cap = 0 then 64 else vf.cap)

/-- The disk has room for a file of `size` bytes on the path, in place of the one that is there. -/
def Room (fs : Kfs.State) (path : CStr) (size : Nat) : Prop :=
  (∀ old, fileAt fs path = some ⟨flagFile, old⟩ →
    chainLength size ≤ (freeSectors fs).card + chainLength old.length) ∧
  ∀ d, Absent fs path d → Kfs.Fits fs d (chainLength size)

/-- There is enough heap and disk for the call. -/
def Enough (env : Env) (s : State) (task : Int) (path : CStr) : Call → Prop
  | .openFile _ => env.heap (openCap ((fileAt s.fs path).elim 0 fun f => f.content.length)) ≠ none
  | .write fd _ count => ∀ slot n, resolve s task fd = some slot →
      grownCap (s.fds slot) ((seekAppend (s.fds slot)).pos + count) = some n → env.heap n ≠ none
  | .close fd => ∀ slot, resolve s task fd = some slot → (s.fds slot).dirty = true →
      Room s.fs path (s.fds slot).size
  | _ => True

/-- The path names a file with these bytes, or nothing in an existing directory. -/
def FileIs (fs : Kfs.State) (path : CStr) : Option (List UInt8) → Prop
  | none => ∃ d, Absent fs path d
  | some bytes => fileAt fs path = some ⟨flagFile, bytes⟩

/-- The descriptors and the reference after some calls of the task, which begins with nothing
open. -/
inductive Lockstep (drive : Kfs.Drive) (task : Int) (path : CStr) : State → Ref → Prop
  | start {s : State} {t : Kfs.Tree} {file : Option (List UInt8)} (hfs : Fs s.fs t)
      (hfile : FileIs s.fs path file) (hsmall : ∀ bytes ∈ file, bytes.length < 2 ^ 31)
      (hfree : ∀ fd slot, slotOf task fd = some slot → (s.fds slot).used = false) :
      Lockstep drive task path s ⟨file, fun _ => none, false⟩
  | step {s s' : State} {r : Ref} {ans : Answer} (env : Env) (c : Call)
      (h : Lockstep drive task path s r) (hbound : c.Bounded r) (henough : Enough env s task path c)
      (hrun : call drive env task path s c = some (ans, s')) :
      Lockstep drive task path s' (r.call c).2

/-- Closing the file and opening it again to read delivers its array. -/
def ReopenReads (drive : Kfs.Drive) (task : Int) (path : CStr) (s : State) (fd : Int)
    (f : RefFile) : Prop :=
  ∀ env, Enough env s task path (.close fd) → ∃ s₁,
    call drive env task path s (.close fd) = some ((0, none), s₁) ∧
    ∀ env flags, Enough env s₁ task path (.openFile flags) → has flags oTrunc = false →
      has flags oAppend = false → has flags oWronly = false → ∃ fd' s₂,
      call drive env task path s₁ (.openFile flags) = some ((fd', none), s₂) ∧
      ∀ env buf count, f.bytes.length ≤ count → ∃ s₃,
        call drive env task path s₂ (.read fd' (some buf) count) =
          some (((f.bytes.length : Int), some fun i => f.bytes.getD i (buf i)), s₃)

/-- A descriptor holds an open file. -/
structure Holds (task : Int) (path : CStr) (vf : VfsFile) (f : RefFile) : Prop where
  used : vf.used = true
  owner : vf.owner = task
  path : vf.path = path
  flags : vf.flags = f.flags
  dirty : vf.dirty = f.changed
  pos : vf.pos = f.pos
  bytes : prefixOf vf.buf vf.size = f.bytes
  cap : vf.size ≤ vf.cap
  start : 0 < vf.cap
  inside : vf.pos ≤ vf.size
  small : vf.size < 2 ^ 31

structure Matches (task : Int) (path : CStr) (s : State) (r : Ref) : Prop where
  fs : ∃ t, Fs s.fs t
  file : FileIs s.fs path r.file
  small : ∀ bytes ∈ r.file, bytes.length < 2 ^ 31
  opened : ∀ fd f, r.opened fd = some f →
    ∃ slot, slotOf task fd = some slot ∧ Holds task path (s.fds slot) f
  closed : ∀ fd slot, r.opened fd = none → slotOf task fd = some slot → (s.fds slot).used = false

/-- With one file open at a time, what is not changed is the array of the path. -/
structure Ref.Alone (r : Ref) : Prop where
  one : r.shared = false → ∀ fd fd' f f', r.opened fd = some f → r.opened fd' = some f' → fd = fd'
  same : r.shared = false → ∀ fd f, r.opened fd = some f → f.changed = true ∨ r.file = some f.bytes
  range : ∀ fd f, r.opened fd = some f → 0 ≤ fd ∧ fd < maxFds

variable {drive : Kfs.Drive} {env : Env} {task fd : Int} {path : CStr} {s s' : State} {r : Ref}
  {f : RefFile} {vf vf' : VfsFile} {slot : Nat} {heap : Heap}

/-! ## Bytes -/

/-- The bytes from the cursor on, in the buffer. -/
theorem Holds.length_ahead (h : Holds task path vf f) (count : Nat) :
    (f.ahead count).length = min count (vf.size - vf.pos) := by
  rw [RefFile.ahead, List.length_take, List.length_drop, ← h.bytes, length_prefixOf, ← h.pos]

theorem Holds.getD_ahead (h : Holds task path vf f) {count i : Nat} (d : UInt8)
    (hi : i < (f.ahead count).length) : (f.ahead count).getD i d = vf.buf (vf.pos + i) := by
  have hlen := h.length_ahead count
  have hcount : i < count := by omega
  rw [List.getD_eq_getElem?_getD, RefFile.ahead, List.getElem?_take_of_lt hcount,
    List.getElem?_drop, ← h.bytes, ← h.pos, getElem?_prefixOf vf.buf (by omega)]
  rfl

/-- The bytes of a buffer after a write into it. -/
theorem prefixOf_fill (b data : Mem) {pos size : Nat} (hpos : pos ≤ size) (count : Nat) :
    prefixOf (fill b pos count fun i => data (i - pos))
        (if pos + count > size then pos + count else size) =
      (prefixOf b size).take pos ++ prefixOf data count ++ (prefixOf b size).drop (pos + count) := by
  have hbefore : ((prefixOf b size).take pos).length = pos := by
    rw [List.length_take, length_prefixOf, min_eq_left hpos]
  refine List.ext_getElem?' fun i hi => ?_
  rw [List.length_append, List.length_append, hbefore, List.length_drop, length_prefixOf,
    length_prefixOf, length_prefixOf] at hi
  have hsize : i < if pos + count > size then pos + count else size := by
    split_ifs at hi ⊢ <;> omega
  rw [getElem?_prefixOf _ hsize, List.append_assoc]
  by_cases hlo : i < pos
  · rw [fill_outside (Or.inl hlo), List.getElem?_append_left (by omega),
      List.getElem?_take_of_lt hlo, getElem?_prefixOf b (by omega)]
  · rw [List.getElem?_append_right (by omega), hbefore]
    by_cases hhi : i < pos + count
    · rw [fill, if_pos ⟨by omega, hhi⟩, List.getElem?_append_left (by rw [length_prefixOf]; omega),
        getElem?_prefixOf data (by omega)]
    · rw [fill_outside (Or.inr (by omega)),
        List.getElem?_append_right (by rw [length_prefixOf]; omega), length_prefixOf,
        List.getElem?_drop, getElem?_prefixOf b (by split_ifs at hsize <;> omega)]
      congr 2
      omega

/-! ## Descriptors -/

theorem slotOf_eq (htask : 0 ≤ task ∧ task < maxTasks) (hfd : 0 ≤ fd ∧ fd < maxFds) :
    slotOf task fd = some (task.toNat * maxFds + fd.toNat) := by
  unfold slotOf
  rw [if_neg (by omega), if_neg (by omega)]

theorem slotOf_inj {fd' : Int} (h : slotOf task fd = some slot) (h' : slotOf task fd' = some slot) :
    fd = fd' := by
  unfold slotOf at h h'
  split_ifs at h h' with htask hfd hfd'
  have heq := Option.some.inj (h.trans h'.symm)
  omega

theorem Holds.resolve (h : Holds task path (s.fds slot) f) (hslot : slotOf task fd = some slot) :
    resolve s task fd = some slot := by
  unfold Vfs.resolve
  rw [hslot]
  exact if_pos ⟨h.used, h.owner⟩

theorem Matches.resolve_none (h : Matches task path s r) (hfd : r.opened fd = none) :
    resolve s task fd = none := by
  unfold resolve
  cases hslot : slotOf task fd with
  | none => rfl
  | some slot =>
    dsimp only
    rw [h.closed fd slot hfd hslot]
    exact if_neg fun hused => Bool.false_ne_true hused.1

/-- A call changes one open file. -/
theorem Matches.set (h : Matches task path s r) (hslot : slotOf task fd = some slot)
    (hvf : Holds task path vf f) : Matches task path (setFd s slot vf) (r.set fd (some f)) := by
  refine ⟨h.fs, h.file, h.small, fun fd' f' hf' => ?_, fun fd' slot' hfd' hslot' => ?_⟩
  · by_cases heq : fd' = fd
    · subst heq
      simp only [Ref.set, Function.update_self, Option.some.injEq] at hf'
      subst hf'
      exact ⟨slot, hslot, by simpa only [setFd, Function.update_self] using hvf⟩
    · simp only [Ref.set, Function.update_of_ne heq] at hf'
      obtain ⟨slot', hslot', hvf'⟩ := h.opened fd' f' hf'
      have hne : slot' ≠ slot := by
        rintro rfl
        exact heq (slotOf_inj hslot' hslot)
      exact ⟨slot', hslot', by simpa only [setFd, Function.update_of_ne hne] using hvf'⟩
  · by_cases heq : fd' = fd
    · subst heq
      simp only [Ref.set, Function.update_self] at hfd'
      cases hfd'
    · simp only [Ref.set, Function.update_of_ne heq] at hfd'
      have hne : slot' ≠ slot := by
        rintro rfl
        exact heq (slotOf_inj hslot' hslot)
      simp only [setFd, Function.update_of_ne hne]
      exact h.closed fd' slot' hfd' hslot'

/-! ## Reading, writing and seeking -/

/-- The call returns what the reference returns, and they match afterwards. -/
def Agrees (drive : Kfs.Drive) (env : Env) (task : Int) (path : CStr) (s : State) (r : Ref)
    (c : Call) : Prop :=
  ∃ s', call drive env task path s c = some ((r.call c).1, s') ∧
    Matches task path s' (r.call c).2

theorem toInt_of_lt {n : Int} (hlo : 0 ≤ n) (hhi : n < 2 ^ 31) : toInt n = n := by
  unfold toInt
  rw [Int.bmod_def]
  split_ifs <;> omega

theorem Holds.moved (h : Holds task path vf f) {pos : Nat} (hpos : pos ≤ vf.size) :
    Holds task path { vf with pos := pos } { f with pos := pos } :=
  ⟨h.used, h.owner, h.path, h.flags, h.dirty, rfl, h.bytes, h.cap, h.start, hpos, h.small⟩

theorem Matches.read (h : Matches task path s r) (fd : Int) (buf : Option Mem) (count : Nat) :
    Agrees drive env task path s r (.read fd buf count) := by
  unfold Agrees
  simp only [call, Ref.call]
  cases buf with
  | none => exact ⟨s, rfl, h⟩
  | some b =>
    cases hfd : r.opened fd with
    | none =>
      simp only [vfsRead, h.resolve_none hfd]
      exact ⟨s, rfl, h⟩
    | some f =>
      obtain ⟨slot, hslot, hvf⟩ := h.opened fd f hfd
      have hsame : has (s.fds slot).flags oWronly = has f.flags oWronly := by rw [hvf.flags]
      simp only [vfsRead, hvf.resolve hslot, hsame]
      cases hflags : has f.flags oWronly with
      | true => exact ⟨s, rfl, h⟩
      | false =>
        have hlen := hvf.length_ahead count
        have hinside := hvf.inside
        have hsmall := hvf.small
        have hn : (if count < (if (s.fds slot).pos < (s.fds slot).size
            then (s.fds slot).size - (s.fds slot).pos else 0) then count
            else if (s.fds slot).pos < (s.fds slot).size
              then (s.fds slot).size - (s.fds slot).pos else 0) = (f.ahead count).length := by
          split_ifs <;> omega
        have hout : fill b 0 (f.ahead count).length
            (fun i => (s.fds slot).buf ((s.fds slot).pos + i)) =
            fun i => (f.ahead count).getD i (b i) := by
          funext i
          by_cases hi : i < (f.ahead count).length
          · rw [fill, if_pos ⟨Nat.zero_le i, by omega⟩, hvf.getD_ahead (b i) hi]
          · rw [fill_outside (Or.inr (by omega)), List.getD_eq_default _ _ (by omega)]
        have hmoved : Holds task path
            { s.fds slot with pos := (s.fds slot).pos + (f.ahead count).length }
            { f with pos := f.pos + (f.ahead count).length } := by
          rw [← hvf.pos]
          exact hvf.moved (by omega)
        simp only [Bool.false_eq_true, if_false, hn]
        rw [toInt_of_lt (by omega) (by omega), hout]
        exact ⟨_, rfl, h.set hslot hmoved⟩

theorem Matches.lseek (h : Matches task path s r) (fd offset whence : Int)
    (hbound : (Call.lseek fd offset whence).Bounded r) :
    Agrees drive env task path s r (.lseek fd offset whence) := by
  unfold Agrees
  simp only [call, Ref.call]
  cases hfd : r.opened fd with
  | none =>
    simp only [vfsLseek, h.resolve_none hfd]
    exact ⟨s, rfl, h⟩
  | some f =>
    obtain ⟨slot, hslot, hvf⟩ := h.opened fd f hfd
    have hle := hbound.2 fd offset whence rfl f hfd
    have hlen : f.bytes.length = (s.fds slot).size := by rw [← hvf.bytes, length_prefixOf]
    have hsmall := hvf.small
    have htarget : (if whence = 1 then ((s.fds slot).pos : Int)
        else if whence = 2 then ((s.fds slot).size : Int) else 0) + offset =
        f.target offset whence := by
      rw [RefFile.target, hvf.pos, hlen]
    simp only [vfsLseek, hvf.resolve hslot, htarget]
    by_cases hneg : f.target offset whence < 0
    · rw [if_pos (Or.inl hneg), if_pos hneg]
      exact ⟨s, rfl, h⟩
    · rw [if_neg (by omega), if_neg hneg, toInt_of_lt (by omega) (by omega)]
      exact ⟨_, rfl, h.set hslot (hvf.moved (by omega))⟩

/-- The loop finds a capacity below 2^32. -/
theorem growCap_some {need : Nat} (hneed : need < 2 ^ 31) : ∀ {fuel cap : Nat}, 0 < cap →
    need ≤ cap * 2 ^ fuel → ∃ newcap, growCap need (fuel + 1) cap = some newcap := by
  intro fuel
  induction fuel with
  | zero =>
    intro cap hcap hle
    rw [growCap, if_neg (by omega)]
    exact ⟨cap, rfl⟩
  | succ fuel ih =>
    intro cap hcap hle
    rw [growCap]
    by_cases hlt : cap < need
    · have hmod : cap * 2 % 2 ^ 32 = cap * 2 := Nat.mod_eq_of_lt (by omega)
      simp only [if_pos hlt, hmod]
      rw [if_neg (by omega)]
      refine ih (by omega) ?_
      rw [Nat.pow_succ'] at hle
      rwa [Nat.mul_assoc]
    · rw [if_neg hlt]
      exact ⟨cap, rfl⟩

/-- A buffer can grow to a size below 2^31 when the heap answers. -/
theorem ensureCap_some {need : Nat} (hcap : 0 < vf.cap) (hneed : need < 2 ^ 31)
    (hheap : ∀ n, grownCap vf need = some n → heap n ≠ none) :
    ∃ vf', ensureCap heap vf need = some vf' := by
  unfold ensureCap
  unfold grownCap at hheap
  by_cases hle : need ≤ vf.cap
  · rw [if_pos hle]
    exact ⟨vf, rfl⟩
  · have hstart : (if vf.cap = 0 then 64 else vf.cap) = vf.cap := if_neg (by omega)
    have hfuel : need ≤ vf.cap * 2 ^ 32 := by omega
    obtain ⟨newcap, hgrow⟩ := growCap_some hneed hcap hfuel
    rw [if_neg hle, hstart, hgrow] at hheap
    obtain ⟨nb, hnb⟩ := Option.ne_none_iff_exists'.mp (hheap newcap rfl)
    rw [if_neg hle, if_neg (by omega), hstart, hgrow]
    dsimp only
    rw [hnb]
    exact ⟨_, rfl⟩

theorem Holds.start_le (h : Holds task path vf f) : f.start ≤ f.bytes.length := by
  have hinside := h.inside
  unfold RefFile.start
  rw [← h.bytes, length_prefixOf, ← h.pos]
  split_ifs
  · exact le_refl _
  · exact hinside

theorem Holds.seekAppend (h : Holds task path vf f) :
    seekAppend vf = { vf with pos := f.start } := by
  unfold Vfs.seekAppend RefFile.start
  rw [← h.flags, ← h.bytes, length_prefixOf, ← h.pos]
  split_ifs <;> rfl

theorem length_write (f : RefFile) (hstart : f.start ≤ f.bytes.length) (data : List UInt8) :
    (f.write data).bytes.length = max f.bytes.length (f.start + data.length) := by
  rw [RefFile.write, List.length_append, List.length_append, List.length_take, List.length_drop]
  omega

/-- A buffer that has grown is written to. -/
theorem Holds.write (h : Holds task path vf f) {data : Mem} {count : Nat}
    (hsmall : f.start + count < 2 ^ 31)
    (hcap : ensureCap heap { vf with pos := f.start } (f.start + count) = some vf') :
    Holds task path { vf' with
      buf := fill vf'.buf vf'.pos count fun i => data (i - vf'.pos)
      pos := (vf'.pos + count) % 2 ^ 32
      size := if (vf'.pos + count) % 2 ^ 32 > vf'.size then (vf'.pos + count) % 2 ^ 32
        else vf'.size
      dirty := true } (f.write (prefixOf data count)) := by
  have hsame : ∀ i < vf.cap, vf'.buf i = vf.buf i := fun i hi => ensureCap_buf hcap hi
  have hle := h.start_le
  have hsize := h.small
  have hfits := h.cap
  obtain ⟨hneed, hgrown, -, buf, cap, rfl⟩ := ensureCap_spec hcap
  dsimp only at hsame hneed hgrown ⊢
  rw [← h.bytes, length_prefixOf] at hle
  have hmod : (f.start + count) % 2 ^ 32 = f.start + count := Nat.mod_eq_of_lt (by omega)
  rw [hmod]
  have hbytes : prefixOf buf vf.size = f.bytes := by
    rw [← h.bytes]
    exact List.map_congr_left fun i hi => hsame i (by rw [List.mem_range] at hi; omega)
  refine ⟨h.used, h.owner, h.path, h.flags, rfl, ?_, ?_, ?_, ?_, ?_, ?_⟩
  · rw [RefFile.write, length_prefixOf]
  · rw [RefFile.write, length_prefixOf, ← hbytes]
    exact prefixOf_fill buf data hle count
  · dsimp only
    split_ifs <;> omega
  · exact lt_of_lt_of_le h.start hgrown
  · dsimp only
    split_ifs <;> omega
  · dsimp only
    split_ifs <;> omega

theorem Matches.write (h : Matches task path s r) (fd : Int) (data : Option Mem) (count : Nat)
    (hbound : (Call.write fd data count).Bounded r)
    (henough : Enough env s task path (.write fd data count)) :
    Agrees drive env task path s r (.write fd data count) := by
  have hsmall := hbound.1
  unfold Agrees
  simp only [call, Ref.call] at hsmall ⊢
  cases data with
  | none => exact ⟨s, rfl, h⟩
  | some data =>
    cases hfd : r.opened fd with
    | none =>
      simp only [vfsWrite, h.resolve_none hfd]
      exact ⟨s, rfl, h⟩
    | some f =>
      obtain ⟨slot, hslot, hvf⟩ := h.opened fd f hfd
      have hsame : has (s.fds slot).flags (oWronly ||| oRdwr) =
          has f.flags (oWronly ||| oRdwr) := by rw [hvf.flags]
      simp only [vfsWrite, hvf.resolve hslot, hsame]
      rw [hfd] at hsmall
      dsimp only at hsmall
      by_cases hflags : has f.flags (oWronly ||| oRdwr) = false
      · rw [if_pos hflags, if_pos hflags]
        exact ⟨s, rfl, h⟩
      · rw [if_neg hflags] at hsmall
        have hlen := hsmall fd (f.write (prefixOf data count)) (Function.update_self _ _ _)
        rw [length_write f hvf.start_le, length_prefixOf] at hlen
        have hend : f.start + count < 2 ^ 31 := lt_of_le_of_lt (le_max_right _ _) hlen
        have hheap : ∀ n, grownCap { s.fds slot with pos := f.start } (f.start + count) = some n →
            env.heap n ≠ none := by
          intro n hn
          refine henough slot n (hvf.resolve hslot) ?_
          rw [hvf.seekAppend]
          exact hn
        have hgrown : ∃ vf, ensureCap env.heap { s.fds slot with pos := f.start }
            (f.start + count) = some vf := ensureCap_some hvf.start hend hheap
        obtain ⟨vf, hcap⟩ := hgrown
        rw [if_neg hflags, if_neg hflags, hvf.seekAppend, hcap, toInt_of_lt (by omega) (by omega)]
        exact ⟨_, rfl, h.set hslot (hvf.write hend hcap)⟩

end Kyuzen.Vfs
