import Kyuzen.Vfs.Effects

/-!
# Buffers with a length

The calls on descriptors once more, over blocks of the heap that have a length: the bytes that
were asked of `kmalloc` or `krealloc`. The indexes are computed in 32 bits as in the code, and an
access outside of the block is an error, as is a loop that does not end: the result is `none`.
Inside their blocks (`InBlock`) the calls do what the model without lengths says (`vfsRead_eq`,
`vfsWrite_eq`).
-/

namespace Kyuzen.Vfs.Checked

open Lib.Memory
open Kfs (CStr)

/-- The table, and the length of the block that each descriptor holds. -/
structure State where
  base : Vfs.State
  len : Nat → Nat

/-! ## The calls -/

/-- The size that `vfs_open` asks of `kmalloc`. -/
def openRequest (fs₁ fs₂ : Kfs.State) (path : CStr) : Option Nat := do
  let existed ← Kfs.kfsExists fs₁ path
  let fsize ← openSize fs₂ path existed
  return openCap fsize

/-- The file system is `fs₂` when the size is asked and `fs₃` when the bytes are read. -/
def vfsOpen (heap : Heap) (c : State) (fs₂ fs₃ : Kfs.State) (task : Int) (path : CStr)
    (flags : Nat) : Option (Int × State) :=
  if path = [] then some (-1, c)
  else if task < 0 ∨ task ≥ maxTasks then some (-1, c)
  else do
    match ← vfsLoad heap c.base.fs fs₂ fs₃ path flags with
    | none => return (-1, c)
    | some l =>
      let request ← openRequest c.base.fs fs₂ path
      match freeFd c.base (task.toNat * maxFds) maxFds with
      | none => return (-1, c)
      | some fd =>
        let slot := task.toNat * maxFds + fd
        return (fd, ⟨setFd c.base slot (newFile task path flags l),
          Function.update c.len slot request⟩)

/-- `for (i = 0; i < n; i++) out[i] = vf->buf[vf->pos + i]`. -/
def readLoop (vf : VfsFile) (len : Nat) (out : Mem) : Nat → Option Mem
  | 0 => some out
  | n + 1 => do
    let out ← readLoop vf len out n
    let i := (vf.pos + n) % 2 ^ 32
    if i < len then some (Function.update out n (vf.buf i)) else none

def vfsRead (c : State) (task fd : Int) (buf : Option Mem) (count : Nat) :
    Option (Int × Option Mem × State) :=
  match buf, resolve c.base task fd with
  | none, _ => some (-1, buf, c)
  | some _, none => some (-1, buf, c)
  | some b, some slot =>
    let vf := c.base.fds slot
    if has vf.flags oWronly then some (-1, buf, c)
    else do
      let avail := if vf.pos < vf.size then vf.size - vf.pos else 0
      let n := if count < avail then count else avail
      let out ← readLoop vf (c.len slot) b n
      return (toInt n, some out,
        { c with base := setFd c.base slot { vf with pos := (vf.pos + n) % 2 ^ 32 } })

/-- The loop of `ensure_cap`; it is `none` when `fuel` rounds are not enough. -/
def growLoop (need : Nat) : Nat → Nat → Option (Option Nat)
  | 0, _ => none
  | fuel + 1, newcap =>
    if newcap < need then
      let next := newcap * 2 % 2 ^ 32
      if next ≤ newcap then some none else growLoop need fuel next
    else some (some newcap)

/-- `krealloc` of a block of `len` bytes that is not `NULL`. -/
def krealloc (heap : Heap) (buf : Mem) (len oldSize newSize : Nat) : Option (Option Mem) :=
  if newSize = 0 then some none
  else
    match heap newSize with
    | none => some none
    | some nb =>
      let copied := if oldSize < newSize then oldSize else newSize
      if copied ≤ len ∧ copied ≤ newSize then some (some (fill nb 0 copied buf)) else none

/-- The descriptor and the length of its block afterwards. -/
def ensureCap (heap : Heap) (vf : VfsFile) (len need : Nat) : Option (Option (VfsFile × Nat)) :=
  if need ≤ vf.cap then some (some (vf, len))
  else if need > 2 ^ 32 - 1 then some none
  else do
    match ← growLoop need 33 (if vf.cap = 0 then 64 else vf.cap) with
    | none => return none
    | some newcap =>
      match ← krealloc heap vf.buf len vf.cap newcap with
      | none => return none
      | some nb => return some ({ vf with buf := nb, cap := newcap }, newcap)

/-- `for (i = 0; i < n; i++) vf->buf[vf->pos + i] = data[i]`. -/
def writeLoop (vf : VfsFile) (len : Nat) (data : Mem) : Nat → Option Mem
  | 0 => some vf.buf
  | n + 1 => do
    let buf ← writeLoop vf len data n
    let i := (vf.pos + n) % 2 ^ 32
    if i < len then some (Function.update buf i (data n)) else none

def vfsWrite (heap : Heap) (c : State) (task fd : Int) (data : Option Mem) (count : Nat) :
    Option (Int × State) :=
  match data, resolve c.base task fd with
  | none, _ => some (-1, c)
  | some _, none => some (-1, c)
  | some b, some slot =>
    if has (c.base.fds slot).flags (oWronly ||| oRdwr) = false then some (-1, c)
    else do
      let vf := seekAppend (c.base.fds slot)
      match ← ensureCap heap vf (c.len slot) (vf.pos + count) with
      | none => return (-1, { c with base := setFd c.base slot vf })
      | some (vf, len) =>
        let buf ← writeLoop vf len b count
        let pos := (vf.pos + count) % 2 ^ 32
        return (toInt count, ⟨setFd c.base slot { vf with
          buf := buf
          pos := pos
          size := if pos > vf.size then pos else vf.size
          dirty := true }, Function.update c.len slot len⟩)

def vfsLseek (c : State) (task fd offset whence : Int) : Int × State :=
  let r := Vfs.vfsLseek c.base task fd offset whence
  (r.1, { c with base := r.2 })

/-! ## Runs -/

inductive Op where
  | openFile (task : Int) (path : CStr) (flags : Nat) (fs₂ fs₃ : Kfs.State)
  | read (task fd : Int) (buf : Option Mem) (count : Nat)
  | write (task fd : Int) (data : Option Mem) (count : Nat)
  | lseek (task fd offset whence : Int)
  /-- a descriptor is closed -/
  | release (slot : Nat)
  /-- anything else that happens to the file system -/
  | other (fs : Kfs.State)

/-- Counts are 32-bit numbers. -/
def Op.Valid : Op → Prop
  | .read _ _ _ count => count < 2 ^ 32
  | .write _ _ _ count => count < 2 ^ 32
  | _ => True

def exec (heap : Heap) (c : State) : Op → Option State
  | .openFile task path flags fs₂ fs₃ => (vfsOpen heap c fs₂ fs₃ task path flags).map Prod.snd
  | .read task fd buf count => (vfsRead c task fd buf count).map fun r => r.2.2
  | .write task fd data count => (vfsWrite heap c task fd data count).map Prod.snd
  | .lseek task fd offset whence => some (vfsLseek c task fd offset whence).2
  | .release slot => some { c with base := setFd c.base slot { c.base.fds slot with used := false } }
  | .other fs => some { c with base := { c.base with fs := fs } }

/-- The states of the runs after `vfs_init`, on any file system and with any answers of the
heap. -/
inductive Reach : State → Prop
  | init (c : State) (hfree : ∀ i, (c.base.fds i).used = false) : Reach c
  | step {c c' : State} {op : Op} (heap : Heap) (h : Reach c) (hv : op.Valid)
      (hrun : exec heap c op = some c') : Reach c'

/-! ## Inside the blocks -/

/-- The descriptor's capacity is the length of its block, and its bytes are inside. -/
structure InBlock (vf : VfsFile) (len : Nat) : Prop where
  size : vf.size ≤ vf.cap
  cap : vf.cap = len
  capLt : vf.cap < 2 ^ 32
  posLt : vf.pos < 2 ^ 32

variable {heap : Heap} {c c' : State} {vf vf' : VfsFile} {len n need : Nat}

theorem readLoop_eq (hlen : len < 2 ^ 32) (out : Mem) (h : vf.pos + n ≤ len) :
    readLoop vf len out n = some (fill out 0 n fun i => vf.buf (vf.pos + i)) := by
  induction n with
  | zero => rw [readLoop, fill_empty]
  | succ n ih =>
    have hi : (vf.pos + n) % 2 ^ 32 = vf.pos + n := Nat.mod_eq_of_lt (by omega)
    rw [readLoop, ih (by omega), Option.bind_eq_bind, Option.bind_some]
    dsimp only
    rw [hi, if_pos (by omega), ← fill_succ, Nat.zero_add]

theorem writeLoop_eq (hlen : len < 2 ^ 32) (data : Mem) (h : vf.pos + n ≤ len) :
    writeLoop vf len data n = some (fill vf.buf vf.pos n fun i => data (i - vf.pos)) := by
  induction n with
  | zero => rw [writeLoop, fill_empty]
  | succ n ih =>
    have hi : (vf.pos + n) % 2 ^ 32 = vf.pos + n := Nat.mod_eq_of_lt (by omega)
    rw [writeLoop, ih (by omega), Option.bind_eq_bind, Option.bind_some]
    dsimp only
    rw [hi, if_pos (by omega), ← fill_succ, Nat.add_sub_cancel_left]

/-! ## The growing loop -/

/-- A capacity that is not 0 leaves 32 bits after 32 doublings, so the loop ends. -/
theorem growLoop_eq : ∀ {fuel cap : Nat}, 2 ^ 32 ≤ cap * 2 ^ fuel → cap < 2 ^ 32 →
    growLoop need fuel cap = some (growCap need fuel cap) := by
  intro fuel
  induction fuel with
  | zero => exact fun h hcap => absurd h (by omega)
  | succ fuel ih =>
    intro cap h hcap
    rw [growLoop, growCap]
    by_cases hlt : cap < need
    · rw [if_pos hlt, if_pos hlt]
      dsimp only
      by_cases hwrap : cap * 2 % 2 ^ 32 ≤ cap
      · rw [if_pos hwrap, if_pos hwrap]
      · rw [if_neg hwrap, if_neg hwrap]
        have hnext : cap * 2 % 2 ^ 32 = cap * 2 := Nat.mod_eq_of_lt (by omega)
        have hpow : 2 ^ (fuel + 1) = 2 * 2 ^ fuel := pow_succ' 2 fuel
        rw [hpow, ← Nat.mul_assoc] at h
        rw [hnext]
        exact ih h (by omega)
    · rw [if_neg hlt, if_neg hlt]

/-- A capacity stays below 2^32, and is even when it has grown. -/
theorem growCap_lt : ∀ {fuel cap cap' : Nat}, cap < 2 ^ 32 → growCap need fuel cap = some cap' →
    cap' < 2 ^ 32 ∧ (cap' = cap ∨ 2 ∣ cap') := by
  intro fuel
  induction fuel with
  | zero =>
    intro cap cap' hcap h
    cases h
  | succ fuel ih =>
    intro cap cap' hcap h
    rw [growCap] at h
    dsimp only at h
    split_ifs at h with hlt hwrap
    · have hnext : cap * 2 % 2 ^ 32 = cap * 2 := Nat.mod_eq_of_lt (by omega)
      rw [hnext] at h hwrap
      obtain ⟨hlt', heven⟩ := ih (by omega) h
      exact ⟨hlt', Or.inr (heven.elim (fun heq => ⟨cap, by omega⟩) id)⟩
    · obtain rfl := Option.some.inj h
      exact ⟨hcap, Or.inl rfl⟩

/-- `ensure_cap` ends, stays in its blocks and does what the model does; on success the capacity
is that of the new block and holds what is needed. -/
theorem ensureCap_eq (heap : Heap) (h : InBlock vf len) (need : Nat) :
    ensureCap heap vf len need =
      some ((Vfs.ensureCap heap vf need).map fun vf' => (vf', vf'.cap)) := by
  unfold ensureCap Vfs.ensureCap
  by_cases hle : need ≤ vf.cap
  · rw [if_pos hle, if_pos hle, Option.map_some, h.cap]
  by_cases hbig : need > 2 ^ 32 - 1
  · rw [if_neg hle, if_neg hle, if_pos hbig, if_pos hbig]
    rfl
  rw [if_neg hle, if_neg hle, if_neg hbig, if_neg hbig]
  have hcapLt := h.capLt
  have hstart : 1 ≤ (if vf.cap = 0 then 64 else vf.cap) ∧
      (if vf.cap = 0 then 64 else vf.cap) < 2 ^ 32 := by
    split_ifs <;> omega
  rw [growLoop_eq (by omega) hstart.2, Option.bind_eq_bind, Option.bind_some]
  cases hgrow : growCap need 33 (if vf.cap = 0 then 64 else vf.cap) with
  | none => rfl
  | some newcap =>
    have hneed := (growCap_spec hgrow).1
    dsimp only
    unfold krealloc
    rw [if_neg (by omega)]
    cases heap newcap with
    | none => rfl
    | some nb =>
      dsimp only
      have hcopied : (if vf.cap < newcap then vf.cap else newcap) = vf.cap := if_pos (by omega)
      rw [hcopied, if_pos ⟨h.cap.le, by omega⟩]
      rfl

end Kyuzen.Vfs.Checked
