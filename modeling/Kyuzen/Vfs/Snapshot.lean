import Kyuzen.Kfs.View
import Kyuzen.Vfs.WriteBack

/-!
# Whole-file reads

`vfs_open` asks for the existence, the size and the bytes of a file in three sections under the
lock of the file system, and `sys_read_file_to_buffer` for the size and the bytes in two. Other
tasks may create and delete files between the sections. The bytes a call delivers are the
content of the file at one moment of the call when the section that reads the bytes finds the
length that was asked before, or fails (`reads_snapshot`). When another task has replaced the
file by a shorter one in between, the call delivers the new bytes followed by what the buffer
held (`torn_read`).
-/

namespace Kyuzen.Vfs

open Lib.Memory
open Kfs (CStr Sound fileAt prefixOf)

/-- The file system during a call: from `st 0` to `st n`, the steps of the other tasks. -/
structure Meanwhile (drive : Kfs.Drive) (st : Nat → Kfs.State) (n : Nat) : Prop where
  start : Kfs.Reach drive (fun _ _ => True) (st 0)
  step : ∀ i, i < n → ∃ noise op out, op.Valid ∧ Kfs.exec drive noise (st i) op = some out ∧
    st (i + 1) = out.state

/-- At one moment of the call, the path names an object with these bytes. -/
def Snapshot (st : Nat → Kfs.State) (n : Nat) (path : CStr) (bytes : List UInt8) : Prop :=
  ∃ i, i ≤ n ∧ ∃ f, fileAt (st i) path = some f ∧ f.content = bytes

/-- At one moment of the call, the path names nothing. -/
def Missing (st : Nat → Kfs.State) (n : Nat) (path : CStr) : Prop :=
  ∃ i, i ≤ n ∧ fileAt (st i) path = none

/-- What a successful `vfs_open` has loaded is the file at one moment, or nothing for a file
that it is to create. -/
def OpenReads (st : Nat → Kfs.State) (m n : Nat) (path : CStr) : Prop :=
  ∀ heap flags l, has flags oTrunc = false →
    vfsLoad heap (st 0) (st m) (st n) path flags = some (some l) →
    if l.existed = true then Snapshot st n path (prefixOf l.buf l.size)
    else Missing st n path ∧ l.size = 0

/-- What system call 13 has copied when it returns 1 is the file at one moment. -/
def BufferReads (st : Nat → Kfs.State) (n : Nat) (path : CStr) : Prop :=
  ∀ heap rangeOk copied cap bytes,
    sysReadFileToBuffer heap rangeOk copied (st 0) (st n) path cap = some (1, bytes) →
    Snapshot st n path bytes

def lengthAt (fs : Kfs.State) (path : CStr) : Option Nat :=
  (fileAt fs path).map fun f => f.content.length

/-- A file whose length was asked has that length when its bytes are read, or it is not there any
more, or has more bytes than the buffer takes. -/
def ReadSteady (capacity : Nat → Nat) (asked read : Option Nat) : Prop :=
  ∀ size, asked = some size → 0 < size → ∀ size', read = some size' →
    size' = size ∨ capacity size < size'

/-- A file that `vfs_open` found is still there when its size is asked, and steady from then on. -/
def OpenSteady (st : Nat → Kfs.State) (m n : Nat) (path : CStr) : Prop :=
  lengthAt (st 0) path ≠ none → lengthAt (st m) path ≠ none ∧
    ReadSteady openCap (lengthAt (st m) path) (lengthAt (st n) path)

/-- No file with bytes appears where system call 13 found nothing, and a file that it found is
steady. -/
def BufferSteady (st : Nat → Kfs.State) (n : Nat) (path : CStr) : Prop :=
  (lengthAt (st 0) path = none → ∀ size, lengthAt (st n) path = some size → size = 0) ∧
    ReadSteady id (lengthAt (st 0) path) (lengthAt (st n) path)

variable {drive : Kfs.Drive} {st : Nat → Kfs.State} {fs : Kfs.State} {t : Kfs.Tree} {m n : Nat}
  {path : CStr}

theorem Meanwhile.reach (h : Meanwhile drive st n) {i : Nat} (hi : i ≤ n) :
    Kfs.Reach drive (fun _ _ => True) (st i) := by
  induction i with
  | zero => exact h.start
  | succ i ih =>
    obtain ⟨noise, op, out, hv, hrun, hst⟩ := h.step i (by omega)
    rw [hst]
    exact Kfs.Reach.step noise (ih (by omega)) hv trivial hrun

theorem Meanwhile.sound (hroom : drive.HasRoom) (h : Meanwhile drive st n) {i : Nat}
    (hi : i ≤ n) : ∃ t, Sound (st i) t := Kfs.reach_sound hroom (h.reach hi)

/-! ## The queries at a moment -/

theorem fileAt_of_exists (h : Sound fs t) (hp : 0 ∉ path) {there : Nat}
    (hrun : Kfs.kfsExists fs path = some there) : there = 1 ∧ (∃ f, fileAt fs path = some f) ∨
      there = 0 ∧ fileAt fs path = none := by
  rw [Kfs.kfsExists_fileAt h.rep hp] at hrun
  obtain rfl := Option.some.inj hrun
  cases hfile : fileAt fs path with
  | none => exact Or.inr ⟨rfl, rfl⟩
  | some f => exact Or.inl ⟨rfl, f, rfl⟩

theorem length_of_size (h : Sound fs t) (hp : 0 ∉ path) {size : Nat}
    (hrun : Kfs.kfsGetFileSize fs path = some size) {f : Kfs.File} (hf : fileAt fs path = some f) :
    f.content.length = size := by
  rw [Kfs.kfsGetFileSize_fileAt h hp, hf] at hrun
  exact Option.some.inj hrun

theorem lengthAt_of_file {f : Kfs.File} (hf : fileAt fs path = some f) :
    lengthAt fs path = some f.content.length := by
  unfold lengthAt
  rw [hf]
  rfl

theorem lengthAt_eq_none_iff : lengthAt fs path = none ↔ fileAt fs path = none :=
  Option.map_eq_none_iff

/-- A copy that succeeds delivers the content, which fits the buffer; with the right length, that is
all it delivers. -/
theorem content_of_read (h : Sound fs t) (hp : 0 ∉ path) {buffer b : Mem} {capacity ok : Nat}
    (hok : ok ≠ 0) (hrun : Kfs.kfsReadToBuffer fs path buffer capacity = some (ok, b)) :
    ∃ f, fileAt fs path = some f ∧ f.content.length ≤ capacity ∧
      prefixOf b f.content.length = f.content := by
  have hread := Kfs.kfsReadToBuffer_fileAt h hp buffer capacity
  cases hfile : fileAt fs path with
  | none =>
    rw [hfile] at hread
    rw [hrun] at hread
    cases hread
    exact absurd rfl hok
  | some f =>
    rw [hfile] at hread
    dsimp only at hread
    split_ifs at hread with hcap
    · rw [hrun] at hread
      cases hread
      exact absurd rfl hok
    · obtain ⟨b', hrun', hbytes, _⟩ := hread
      rw [hrun] at hrun'
      cases hrun'
      exact ⟨f, rfl, Nat.le_of_not_lt hcap, hbytes⟩

/-- A copy behind a steady length delivers the content and no more. -/
theorem snapshot_of_read (h : Sound (st n) t) (hp : 0 ∉ path) {capacity : Nat → Nat}
    {asked : Option Nat} (hsteady : ReadSteady capacity asked (lengthAt (st n) path)) {size : Nat}
    (hasked : asked = some size) (hpos : 0 < size) {buffer b : Mem} {ok : Nat} (hok : ok ≠ 0)
    (hrun : Kfs.kfsReadToBuffer (st n) path buffer (capacity size) = some (ok, b)) :
    Snapshot st n path (prefixOf b size) := by
  obtain ⟨f, hf, hfits, hbytes⟩ := content_of_read h hp hok hrun
  rcases hsteady size hasked hpos _ (lengthAt_of_file hf) with hsame | hmore
  · rw [hsame] at hbytes
    exact ⟨n, le_refl n, f, hf, hbytes.symm⟩
  · omega

/-! ## The calls -/

theorem open_reads (hroom : drive.HasRoom) (h : Meanwhile drive st n) (hp : 0 ∉ path)
    (hmn : m ≤ n) (hsteady : OpenSteady st m n path) : OpenReads st m n path := by
  intro heap flags l htrunc hload
  obtain ⟨t₁, ht₁⟩ := h.sound hroom (Nat.zero_le n)
  obtain ⟨t₂, ht₂⟩ := h.sound hroom hmn
  obtain ⟨t₃, ht₃⟩ := h.sound hroom (le_refl n)
  obtain ⟨existed, fsize, buf, hex, hsize, _, hcases⟩ := vfsLoad_cases hload
  rcases fileAt_of_exists ht₁ hp hex with ⟨rfl, f₀, hfile⟩ | ⟨rfl, hnone⟩
  · obtain ⟨hthere, hread⟩ := hsteady (by rw [lengthAt_of_file hfile]; exact Option.some_ne_none _)
    obtain ⟨f, hf⟩ : ∃ f, fileAt (st m) path = some f :=
      Option.ne_none_iff_exists'.mp (mt lengthAt_eq_none_iff.mpr hthere)
    have hsize : Kfs.kfsGetFileSize (st m) path = some fsize := hsize
    have hlen := length_of_size ht₂ hp hsize hf
    rcases hcases with ⟨_, _, hpos, ok, b, hok, hrun, rfl⟩ | ⟨hno, rfl⟩
    · exact snapshot_of_read ht₃ hp hread (hlen ▸ lengthAt_of_file hf) hpos hok hrun
    · -- nothing was read: the file is empty
      have hzero : f.content.length = 0 := by
        rw [hlen]
        by_contra hpos
        exact hno ⟨by decide, htrunc, Nat.pos_of_ne_zero hpos⟩
      exact ⟨m, hmn, f, hf, List.length_eq_zero_iff.mp hzero⟩
  · rcases hcases with ⟨hne, _⟩ | ⟨_, rfl⟩
    · exact absurd rfl hne
    · exact ⟨⟨0, Nat.zero_le n, hnone⟩, rfl⟩

theorem buffer_reads (hroom : drive.HasRoom) (h : Meanwhile drive st n) (hp : 0 ∉ path)
    (hsteady : BufferSteady st n path) : BufferReads st n path := by
  intro heap rangeOk copied cap bytes hrun
  obtain ⟨t₁, ht₁⟩ := h.sound hroom (Nat.zero_le n)
  obtain ⟨t₂, ht₂⟩ := h.sound hroom (le_refl n)
  unfold sysReadFileToBuffer at hrun
  obtain ⟨fsize, hsize, hrun⟩ := Option.bind_eq_some_iff.mp hrun
  have hlen : ∀ f, fileAt (st 0) path = some f → f.content.length = fsize := fun f hf =>
    length_of_size ht₁ hp hsize hf
  split_ifs at hrun with hzero hfits
  · obtain ⟨there, hthere, hrun⟩ := Option.bind_eq_some_iff.mp hrun
    obtain ⟨hret, hbytes⟩ := Prod.mk.inj (Option.some.inj hrun)
    rcases fileAt_of_exists ht₂ hp hthere with ⟨_, f, hf⟩ | ⟨rfl, _⟩
    · cases hfile : fileAt (st 0) path with
      | some f₀ =>
        -- the file was empty when its size was asked
        have hnil := List.length_eq_zero_iff.mp ((hlen f₀ hfile).trans hzero)
        exact ⟨0, Nat.zero_le n, f₀, hfile, hnil.trans hbytes⟩
      | none =>
        have hempty := hsteady.1 (lengthAt_eq_none_iff.mpr hfile) _ (lengthAt_of_file hf)
        exact ⟨n, le_refl n, f, hf, (List.length_eq_zero_iff.mp hempty).trans hbytes⟩
    · cases hret
  · split at hrun
    · cases hrun
    · obtain ⟨⟨ok, b⟩, hread, hrun⟩ := Option.bind_eq_some_iff.mp hrun
      split_ifs at hrun with hok
      · obtain ⟨_, rfl⟩ := Prod.mk.inj (Option.some.inj hrun)
        have hasked : lengthAt (st 0) path = some fsize := by
          cases hfile : fileAt (st 0) path with
          | some f₀ => rw [lengthAt_of_file hfile, hlen f₀ hfile]
          | none =>
            rw [Kfs.kfsGetFileSize_fileAt ht₁ hp, hfile] at hsize
            exact absurd (Option.some.inj hsize).symm hzero
        exact snapshot_of_read ht₂ hp hsteady.2 hasked (Nat.pos_of_ne_zero hzero) hok.1 hread
      · cases hrun
  · cases hrun

/-- Whatever other tasks do to the file system during the call, a whole-file read delivers the
content of the file at one moment of the call, if the file is as long when its bytes are read
as when its size was asked, or cannot be read then. -/
theorem reads_snapshot (hroom : drive.HasRoom) (h : Meanwhile drive st n) (hp : 0 ∉ path) :
    (∀ m, m ≤ n → OpenSteady st m n path → OpenReads st m n path) ∧
      (BufferSteady st n path → BufferReads st n path) :=
  ⟨fun _ hmn hsteady => open_reads hroom h hp hmn hsteady,
    fun hsteady => buffer_reads hroom h hp hsteady⟩

/-! ## Two interleavings -/

/-- The file system after the first `i` of some calls. -/
def during (drive : Kfs.Drive) (noise : Kfs.Noise) (fs : Kfs.State) (ops : List Kfs.Op) (i : Nat) :
    Kfs.State :=
  (Kfs.run drive noise fs (ops.take i)).getD fs

theorem run_concat {noise : Kfs.Noise} (op : Kfs.Op) (ops : List Kfs.Op) (fs : Kfs.State) :
    Kfs.run drive noise fs (ops ++ [op]) = (Kfs.run drive noise fs ops).bind fun s =>
      (Kfs.exec drive noise s op).map Kfs.Outcome.state := by
  induction ops generalizing fs with
  | nil =>
    cases hrun : Kfs.exec drive noise fs op with
    | none => simp [Kfs.run, hrun]
    | some out => simp [Kfs.run, hrun]
  | cons o ops ih =>
    cases hrun : Kfs.exec drive noise fs o with
    | none => simp [Kfs.run, hrun]
    | some out => simp [Kfs.run, hrun, ih]

theorem run_reach (hroom : drive.HasRoom) {noise : Kfs.Noise}
    (hfs : Kfs.Reach drive (fun _ _ => True) fs) {ops : List Kfs.Op}
    (hops : ∀ op ∈ ops, op.Valid) : ∃ fs', Kfs.run drive noise fs ops = some fs' ∧
      Kfs.Reach drive (fun _ _ => True) fs' := by
  induction ops generalizing fs with
  | nil => exact ⟨fs, rfl, hfs⟩
  | cons op ops ih =>
    obtain ⟨_, hrest⟩ := List.forall_mem_cons.mp hops
    have hv := hops op List.mem_cons_self
    obtain ⟨out, hout⟩ := (Kfs.chains_ok hroom hfs).2 noise op hv
    obtain ⟨fs', hrun, hreach⟩ := ih (Kfs.Reach.step noise hfs hv trivial hout) hrest
    exact ⟨fs', by simp [Kfs.run, hout, hrun], hreach⟩

theorem during_meanwhile (hroom : drive.HasRoom) (noise : Kfs.Noise)
    (hfs : Kfs.Reach drive (fun _ _ => True) fs) {ops : List Kfs.Op}
    (hops : ∀ op ∈ ops, op.Valid) {k : Nat} (hkn : k + n ≤ ops.length) :
    Meanwhile drive (fun i => during drive noise fs ops (k + i)) n := by
  have htake : ∀ i, ∃ fs', Kfs.run drive noise fs (ops.take i) = some fs' ∧
      Kfs.Reach drive (fun _ _ => True) fs' := fun i =>
    run_reach hroom hfs fun op hop => hops op (List.mem_of_mem_take hop)
  refine ⟨?_, fun i hi => ?_⟩
  · obtain ⟨fs', hrun, hreach⟩ := htake (k + 0)
    rw [during, hrun]
    exact hreach
  · obtain ⟨fs', hrun, hreach⟩ := htake (k + i)
    have hlt : k + i < ops.length := by omega
    have hv := hops _ (List.getElem_mem hlt)
    obtain ⟨out, hout⟩ := (Kfs.chains_ok hroom hreach).2 noise _ hv
    refine ⟨noise, _, out, hv, ?_, ?_⟩
    · rw [during, hrun]
      exact hout
    · rw [during, show k + (i + 1) = k + i + 1 by omega, List.take_succ_eq_append_getElem hlt,
        run_concat, hrun]
      simp [hout]

/-- A file `a` of seventy bytes, and then a file `b`. -/
def growingCalls : List Kfs.Op :=
  [.createFile [97] (fun _ => 1) 70, .createFile [98] (fun _ => 2) 10]

/-- The moments after the first call of `growingCalls`. -/
def growing (i : Nat) : Kfs.State :=
  during Kfs.smallDrive Kfs.noNoise (Kfs.kfsFormat Kfs.smallDrive (fun _ => 0) Kfs.blankState)
    growingCalls (1 + i)

theorem reads_snapshot_growing : Meanwhile Kfs.smallDrive growing 1 ∧
    OpenReads growing 0 1 [97] ∧ BufferReads growing 1 [97] := by
  have hvalid : ∀ op ∈ growingCalls, op.Valid := by
    intro op hop
    simp only [growingCalls, List.mem_cons, List.not_mem_nil, or_false] at hop
    rcases hop with rfl | rfl <;> exact ⟨by decide, by decide⟩
  have hmean : Meanwhile Kfs.smallDrive growing 1 :=
    during_meanwhile Kfs.smallDrive_hasRoom Kfs.noNoise (Kfs.Reach.format _ _) hvalid (le_refl 2)
  have hthere : lengthAt (growing 0) [97] ≠ none := by decide +kernel
  have hsame : lengthAt (growing 1) [97] = lengthAt (growing 0) [97] := by decide +kernel
  have hsteady : ∀ capacity,
      ReadSteady capacity (lengthAt (growing 0) [97]) (lengthAt (growing 1) [97]) := by
    intro capacity size hasked _ size' hread
    exact Or.inl (Option.some.inj (hread.symm.trans (hsame.trans hasked)))
  obtain ⟨hopen, hread⟩ :=
    reads_snapshot Kfs.smallDrive_hasRoom hmean (by decide : (0 : UInt8) ∉ [97])
  exact ⟨hmean, hopen 0 (Nat.zero_le 1) fun _ => ⟨hthere, hsteady _⟩,
    hread ⟨fun hnone => absurd hnone hthere, hsteady _⟩⟩

/-- A file `a` of seventy bytes, which another task then replaces by one of ten. -/
def shrinkingCalls : List Kfs.Op :=
  [.createFile [97] (fun _ => 1) 70, .deleteFile [97], .createFile [97] (fun _ => 2) 10]

/-- The moments after the first call of `shrinkingCalls`. -/
def shrinking (i : Nat) : Kfs.State :=
  during Kfs.smallDrive Kfs.noNoise (Kfs.kfsFormat Kfs.smallDrive (fun _ => 0) Kfs.blankState)
    shrinkingCalls (1 + i)

theorem shrinking_meanwhile : Meanwhile Kfs.smallDrive shrinking 2 := by
  refine during_meanwhile Kfs.smallDrive_hasRoom Kfs.noNoise (Kfs.Reach.format _ _)
    (fun op hop => ?_) (le_refl 3)
  simp only [shrinkingCalls, List.mem_cons, List.not_mem_nil, or_false] at hop
  rcases hop with rfl | rfl | rfl
  · exact ⟨by decide, by decide⟩
  · exact (by decide : (0 : UInt8) ∉ [97])
  · exact ⟨by decide, by decide⟩

/-- None of the three moments has these bytes under `a`. -/
def neverHeld (bytes : List UInt8) : Bool :=
  (List.range 3).all fun i => (fileAt (shrinking i) [97]).map Kfs.File.content != some bytes

theorem not_snapshot {bytes : List UInt8} (h : neverHeld bytes = true) :
    ¬ Snapshot shrinking 2 [97] bytes := by
  rintro ⟨i, hi, f, hf, rfl⟩
  have hne := List.all_eq_true.mp h i (List.mem_range.mpr (by omega))
  rw [hf] at hne
  simp at hne

/-- Both calls deliver the ten bytes of the new file and sixty bytes of the heap. -/
theorem torn_read : Meanwhile Kfs.smallDrive shrinking 2 ∧ ¬ OpenReads shrinking 0 2 [97] ∧
    ¬ BufferReads shrinking 2 [97] := by
  refine ⟨shrinking_meanwhile, fun hopen => ?_, fun hread => ?_⟩
  · have hval : (vfsLoad zeroHeap (shrinking 0) (shrinking 0) (shrinking 2) [97] 0).map
        (fun r => r.map fun l => (l.existed, neverHeld (prefixOf l.buf l.size))) =
          some (some (true, true)) := by decide +kernel
    obtain ⟨r, hr, hl⟩ := Option.map_eq_some_iff.mp hval
    obtain ⟨l, rfl, hfields⟩ := Option.map_eq_some_iff.mp hl
    obtain ⟨hexisted, hnever⟩ := Prod.mk.inj hfields
    have hsnap := hopen zeroHeap 0 l (by decide) hr
    rw [if_pos hexisted] at hsnap
    exact not_snapshot hnever hsnap
  · have hval : (sysReadFileToBuffer zeroHeap true true (shrinking 0) (shrinking 2) [97] 100).map
        (fun r => (r.1, neverHeld r.2)) = some (1, true) := by decide +kernel
    obtain ⟨⟨ret, bytes⟩, hr, hfields⟩ := Option.map_eq_some_iff.mp hval
    obtain ⟨rfl, hnever⟩ := Prod.mk.inj hfields
    exact not_snapshot hnever (hread zeroHeap true true 100 bytes hr)

end Kyuzen.Vfs
