import Kyuzen.Kfs.Loops
import Kyuzen.Usercopy.Exact

/-!
# Old bytes of the heap in listings

Syscalls 24 and 61 (`kernel/syscall.c`) let `kfs_get_file_list` or `kwm_get_windows`
(`kernel/gfx/kwm.c`) fill a block from `kmalloc` and copy the elements to the caller. The block
still holds what was there before. Both functions write an element field by field: the last byte
of a `filename` field and the padding of a `kwm_window_info_t` are never written, and neither are
the bytes behind a terminator. So a copy of one element already tells the caller old bytes of the
heap (`listing_quiet_iff`).
-/

namespace Kyuzen.Usercopy

open Lib.Memory Lib.Chain
open Kfs (CStr components dirSlots putInfo putInfos infoSize)
open Kfs.Touched (Leads Passes Stop)
open Kwm (ucMaxRange ucUserVaMax)

/-! ## `kwm_get_windows` -/

/-- `sizeof(kwm_window_info_t)`. -/
def windowInfoSize : Nat := 68

def kwmWinDesktop : Nat := 1

/-- What the loop over the title copies, without the terminator. -/
def windowTitle (w : Kwm.Window) : CStr := (w.title.take 32).takeWhile (· != 0)

/-- `buf[n]` for the window in slot `i`. The two bytes before the field `x` are padding. -/
def putWindow (k : Kwm.State) (buf : Mem) (n i : Nat) : Mem :=
  let w := k.windows i
  let o := windowInfoSize * n
  let title := windowTitle w
  let buf := store buf o 4 (i + 1)
  let buf := Function.update buf (o + 4) 1
  let buf := Function.update buf (o + 5) (if k.focusedWinId = some i then 1 else 0)
  let buf := store buf (o + 8) 4 (w.x % 2 ^ 32).toNat
  let buf := store buf (o + 12) 4 (w.y % 2 ^ 32).toNat
  let buf := store buf (o + 16) 4 w.width
  let buf := store buf (o + 20) 4 w.height
  let buf := store buf (o + 24) 4 w.zIndex
  let buf := store buf (o + 28) 4 (w.ownerTask % 2 ^ 32).toNat
  let buf := store buf (o + 32) 4 (if w.desktop then kwmWinDesktop else 0)
  let buf := fill buf (o + 36) title.length fun x => title.getD (x - (o + 36)) 0
  if title.length < 32 then Function.update buf (o + 36 + title.length) 0 else buf

/-- The loop over the slots. -/
def windowsLoop (k : Kwm.State) (max : Int) : List Nat → Nat → Mem → Nat × Mem
  | [], n, buf => (n, buf)
  | i :: is, n, buf =>
    if ¬(n : Int) < max then (n, buf)
    else if (k.windows i).active then windowsLoop k max is (n + 1) (putWindow k buf n i)
    else windowsLoop k max is n buf

def kwmGetWindows (k : Kwm.State) (buf : Mem) (max : Int) : Int × Mem :=
  if max ≤ 0 then (-1, buf)
  else
    let r := windowsLoop k max (List.range Kwm.maxWindows) 0 buf
    (r.1, r.2)

/-! ## The syscalls -/

/-- What the two syscalls find in the kernel, but for the bytes of the heap. -/
structure Kernel where
  ctx : Ctx
  paging : Paging.State
  user : Mem
  /-- The stack, where `kpath` is. -/
  stack : Mem
  fs : Kfs.State
  kwm : Kwm.State
  /-- `kmalloc` has a block of so many bytes. -/
  room : Nat → Bool

def ucMaxFname : Nat := 64
def ucMaxEntries : Int := 128
def maxWindowInfos : Int := 16

/-- `(int)` of a register. -/
def cInt (reg : UInt64) : Int := Int.bmod reg.toNat (2 ^ 32)

/-- `ret_val`, and the bytes that are copied with their addresses. -/
structure Answer where
  ret : Int
  copied : List (Nat × UInt8)

/-- `count` elements of `size` bytes are copied out of the block. -/
def copyOut (k : Kernel) (udst : Nat) (block : Mem) (count : Int) (size : Nat) : Option Answer :=
  if count > 0 then
    (copyToUser k.ctx k.paging k.user udst block (count.toNat * size)).map fun c =>
      if c.ret ≠ 0 then ⟨0, []⟩ else ⟨count, c.touched.map fun a => (a, c.dst a)⟩
  else some ⟨count, []⟩

/-- The block of `maxn` elements: `maxn > 0`, `user_range_ok` and `kmalloc`. -/
def bounce (k : Kernel) (udst : Nat) (maxn : Int) (size : Nat) : Option Bool :=
  if maxn ≤ 0 then some false
  else (userRangeOk k.ctx k.paging udst (maxn.toNat * size)).map fun ok =>
    ok && k.room (maxn.toNat * size)

/-- `kpath`, when `strncpy_from_user` succeeds. -/
def kpath (k : Kernel) (rbx : Nat) : Option CStr :=
  let c := strncpyFromUser k.ctx k.paging k.user k.stack rbx ucMaxFname
  if c.ret ≥ 0 then some (((List.range ucMaxFname).map c.dst).takeWhile (· != 0)) else none

/-- Syscall 24 for `maxn` entries, with a walk of at most `walk` sectors along the FAT. -/
def listFiles (k : Kernel) (walk : Nat) (path : CStr) (udst : Nat) (maxn : Int) (block : Mem) :
    Option Answer := do
  if !(← bounce k udst maxn infoSize) then return ⟨0, []⟩
  else
    let r ← Kfs.Touched.kfsGetFileList k.fs walk path block maxn
    copyOut k udst r.1.2 r.1.1 infoSize

def sysGetFileList (k : Kernel) (walk : Nat) (block : Mem) (rbx rcx rdx : UInt64) :
    Option Answer :=
  match kpath k rbx.toNat with
  | none => some ⟨0, []⟩
  | some path => listFiles k walk path rcx.toNat (min (cInt rdx) ucMaxEntries) block

/-- Syscall 61 for `maxn` windows. -/
def listWindows (k : Kernel) (udst : Nat) (maxn : Int) (block : Mem) : Option Answer := do
  if !(← bounce k udst maxn windowInfoSize) then return ⟨0, []⟩
  else
    let r := kwmGetWindows k.kwm block maxn
    copyOut k udst r.2 r.1 windowInfoSize

def sysKwmGetWindows (k : Kernel) (block : Mem) (rbx rcx : UInt64) : Option Answer :=
  listWindows k rbx.toNat (min (cInt rcx) maxWindowInfos) block

inductive Request where
  | getFileList (rbx rcx rdx : UInt64)
  | kwmGetWindows (rbx rcx : UInt64)

/-- What the caller is told when `kmalloc` returns the block `block`. -/
def answer (k : Kernel) (walk : Nat) (block : Mem) : Request → Option Answer
  | .getFileList rbx rcx rdx => sysGetFileList k walk block rbx rcx rdx
  | .kwmGetWindows rbx rcx => sysKwmGetWindows k block rbx rcx

/-- The bytes that are copied are the same whatever the block has held before. -/
def Quiet (k : Kernel) (req : Request) : Prop := ∀ walk block block',
  (answer k walk block req).map Answer.copied = (answer k walk block' req).map Answer.copied

/-! ## What is never written -/

/-- The end of a name field of the first element, or one behind it. -/
theorem putInfo_unwritten (list : Mem) (count : Nat) (e : Kfs.Entry) :
    putInfo list count e 23 = list 23 := by
  cases count with
  | zero => exact Kfs.putInfo_tail list 0 e
  | succ n => exact Kfs.putInfo_outside (by omega)

theorem putInfos_unwritten : ∀ (es : List Kfs.Entry) (count : Nat) (list : Mem),
    putInfos es count list 23 = list 23 := by
  intro es
  induction es with
  | nil => exact fun _ _ => rfl
  | cons e es ih =>
    intro count list
    rw [putInfos, ih, putInfo_unwritten]

/-- The padding of the first element is not written, for this or any other element. -/
theorem putWindow_unwritten (k : Kwm.State) (buf : Mem) (n i : Nat) :
    putWindow k buf n i 6 = buf 6 := by
  have hsize : windowInfoSize = 68 := rfl
  have hn : windowInfoSize * n = 0 ∨ 68 ≤ windowInfoSize * n := by
    rw [hsize]
    omega
  have hlast : ∀ (m : Mem) (l : Nat),
      (if l < 32 then Function.update m (windowInfoSize * n + 36 + l) 0 else m) 6 = m 6 := by
    intro m l
    by_cases hl : l < 32
    · rw [if_pos hl, Function.update_of_ne (by omega)]
    · rw [if_neg hl]
  unfold putWindow
  rw [hlast, fill_outside (by omega)]
  iterate 7 rw [store_outside (by omega)]
  rw [Function.update_of_ne (by omega), Function.update_of_ne (by omega),
    store_outside (by omega)]

/-- The number of windows that are listed does not depend on the block, and the padding of the
first element keeps its bytes. -/
theorem windowsLoop_spec (k : Kwm.State) (max : Int) : ∀ (is : List Nat) (n : Nat),
    ∃ m : Nat, n ≤ m ∧ (m : Int) ≤ (n : Int) ⊔ max ∧
      ((n : Int) < max → (n < m ↔ ∃ i ∈ is, (k.windows i).active = true)) ∧ ∀ buf,
        (windowsLoop k max is n buf).1 = m ∧ (windowsLoop k max is n buf).2 6 = buf 6 := by
  intro is
  induction is with
  | nil => exact fun n => ⟨n, le_refl n, le_max_left _ _, fun _ => by simp, fun _ => ⟨rfl, rfl⟩⟩
  | cons i is ih =>
    intro n
    by_cases hmax : (n : Int) < max
    · cases hactive : (k.windows i).active with
      | true =>
        obtain ⟨m, hle, hm, -, hrun⟩ := ih (n + 1)
        refine ⟨m, by omega, by omega, fun _ => ⟨fun _ => ⟨i, List.mem_cons_self, hactive⟩,
          fun _ => by omega⟩, fun buf => ?_⟩
        rw [windowsLoop, if_neg (not_not.mpr hmax), if_pos hactive]
        obtain ⟨hcount, hbyte⟩ := hrun (putWindow k buf n i)
        exact ⟨hcount, hbyte.trans (putWindow_unwritten k buf n i)⟩
      | false =>
        obtain ⟨m, hle, hm, hiff, hrun⟩ := ih n
        refine ⟨m, hle, hm, fun h => (hiff h).trans ?_, fun buf => ?_⟩
        · rw [List.exists_mem_cons_iff, hactive]
          simp
        · rw [windowsLoop, if_neg (not_not.mpr hmax), hactive, if_neg Bool.false_ne_true]
          exact hrun buf
    · refine ⟨n, le_refl n, le_max_left _ _, fun h => absurd h hmax, fun buf => ?_⟩
      rw [windowsLoop, if_pos hmax]
      exact ⟨rfl, rfl⟩

/-! ## Copies -/

variable {k : Kernel} {block block' : Mem}

/-- A range that begins an accepted range is accepted. -/
theorem userRangeOk_prefix {ctx : Ctx} {s : Paging.State} {uaddr len n : Nat}
    (hu : uaddr < 2 ^ 64) (h : userRangeOk ctx s uaddr len = some true) (hn : 0 < n)
    (hle : n ≤ len) : userRangeOk ctx s uaddr n = some true ∧ uaddr + n < 2 ^ 64 := by
  have hend : ucUserVaMax = 140737488355328 := rfl
  have hcap : ucMaxRange = 67108864 := rfl
  rw [userRangeOk_eq ctx s hu, Option.some_inj] at h ⊢
  unfold Kwm.userRangeOk at h ⊢
  dsimp only at h ⊢
  split_ifs at h with h0 hlen hmax hwrap hkernel hhigh
  · omega
  all_goals
    have hend : uaddr + n < 2 ^ 64 := by omega
    have hnowrap : ¬(uaddr + n) % 2 ^ 64 < uaddr := by
      rw [Nat.mod_eq_of_lt hend]
      omega
    rw [if_neg h0, if_neg (Nat.pos_iff_ne_zero.mp hn), if_neg (by omega), if_neg hnowrap]
    refine ⟨?_, hend⟩
  · rw [if_pos hkernel]
  · rw [if_neg hkernel, if_neg (by omega)]
    rw [List.all_eq_true] at h ⊢
    intro i hi
    apply h i
    rw [List.mem_range] at hi ⊢
    have hlast : (uaddr + n - 1) / 4096 * 4096 ≤ (uaddr + len - 1) / 4096 * 4096 :=
      Nat.mul_le_mul_right _ (Nat.div_le_div_right (by omega))
    exact hi.trans_le (Nat.succ_le_succ (Nat.div_le_div_right (Nat.sub_le_sub_right hlast _)))

theorem copyOut_eq {udst size : Nat} {count : Int} (hpos : 0 < count)
    (hok : userRangeOk k.ctx k.paging udst (count.toNat * size) = some true) :
    copyOut k udst block count size = some ⟨count,
      (addresses udst (count.toNat * size)).map fun a =>
        (a, fill k.user udst (count.toNat * size) (fun x => block (x - udst)) a)⟩ := by
  unfold copyOut copyToUser
  rw [if_pos hpos, hok]
  rfl

/-- The copied bytes tell every byte of the elements in the block. -/
theorem copyOut_tells {udst size o : Nat} {count maxn : Int} (hu : udst < 2 ^ 64)
    (hok : bounce k udst maxn size = some true) (hpos : 0 < count) (hle : count ≤ maxn)
    (ho : o < size)
    (h : (copyOut k udst block count size).map Answer.copied =
      (copyOut k udst block' count size).map Answer.copied) : block o = block' o := by
  unfold bounce at hok
  rw [if_neg (by omega)] at hok
  obtain ⟨ok, hrange, hroom⟩ := Option.map_eq_some_iff.mp hok
  rw [Bool.and_eq_true] at hroom
  rw [hroom.1] at hrange
  have hsize : size ≤ count.toNat * size := Nat.le_mul_of_pos_left size (by omega)
  obtain ⟨hcopy, hwrap⟩ := userRangeOk_prefix hu hrange (show 0 < count.toNat * size by omega)
    (Nat.mul_le_mul_right size (by omega))
  rw [copyOut_eq hpos hcopy, copyOut_eq hpos hcopy] at h
  have hlists := Option.some.inj h
  have hbyte := (Prod.mk.inj (List.map_inj_left.mp hlists (udst + o)
    (List.mem_map.mpr ⟨o, List.mem_range.mpr (by omega), Nat.mod_eq_of_lt (by omega)⟩))).2
  have hin : udst ≤ udst + o ∧ udst + o < udst + count.toNat * size := by omega
  have hval : ∀ m : Mem, fill k.user udst (count.toNat * size) (fun a => m (a - udst))
      (udst + o) = m o := by
    intro m
    unfold fill
    rw [if_pos hin]
    dsimp only
    rw [Nat.add_sub_cancel_left]
  rw [← hval block, ← hval block']
  exact hbyte

/-! ## Directory listings -/

/-- The path leads to a directory whose listing comes to an end and has an entry. -/
def Listed (s : Kfs.State) (path : CStr) (maxn : Int) : Prop :=
  ∃ d l x, Leads s s.currentFs.rootDirSector (components path) d ∧ Path s.fatTable d l x ∧
    Passes l ∧ (Stop x ∨ maxn ≤ (dirSlots s l).length) ∧ dirSlots s l ≠ []

theorem kfsGetFileList_cases (s : Kfs.State) (walk : Nat) (path : CStr) {maxn : Int}
    (hmax : 0 < maxn) :
    (∀ block, Kfs.Touched.kfsGetFileList s walk path block maxn = none) ∨
    (∃ reads, ∀ block,
      Kfs.Touched.kfsGetFileList s walk path block maxn = some ((0, block), reads)) ∨
    Listed s path maxn ∧ ∃ es reads, 0 < es.length ∧ (es.length : Int) ≤ maxn ∧ ∀ block,
      Kfs.Touched.kfsGetFileList s walk path block maxn =
        some ((es.length, putInfos es 0 block), reads) := by
  unfold Kfs.Touched.kfsGetFileList
  cases hres : Kfs.Touched.resolveDir s walk path with
  | none => exact Or.inl fun _ => rfl
  | some r =>
    obtain ⟨r, first⟩ := r
    cases r with
    | none => exact Or.inr (Or.inl ⟨first, fun _ => rfl⟩)
    | some d =>
      rcases Kfs.Touched.listFrom_cases s maxn walk d 0 with hnone | ⟨l, x, hpath, hpass, hend, hrun⟩
      · refine Or.inl fun block => ?_
        show Option.bind (Kfs.Touched.listFrom s maxn walk d 0 block) _ = _
        rw [hnone]
        rfl
      · have hlen := List.length_take (i := maxn.toNat) (l := (dirSlots s l).map s.entry)
        rw [List.length_map] at hlen
        simp only [Nat.cast_zero, sub_zero, zero_add] at hrun hend
        have hlist : ∀ block, Option.bind (Kfs.Touched.listFrom s maxn walk d 0 block)
            (fun r => some (r.1, first ++ r.2)) =
            some (((((dirSlots s l).map s.entry).take maxn.toNat).length,
              putInfos (((dirSlots s l).map s.entry).take maxn.toNat) 0 block), first ++ l) := by
          intro block
          rw [hrun]
          rfl
        by_cases hempty : dirSlots s l = []
        · refine Or.inr (Or.inl ⟨first ++ l, fun block => (hlist block).trans ?_⟩)
          rw [hempty, List.map_nil, List.take_nil]
          rfl
        · have hslots := List.length_pos_of_ne_nil hempty
          rw [Kfs.Touched.resolveDir_eq] at hres
          refine Or.inr (Or.inr ⟨⟨d, l, x, (Kfs.Touched.resolveList_leads hres).mp rfl, hpath,
            hpass, hend, hempty⟩, _, _, ?_, ?_, hlist⟩)
          · omega
          · omega

/-- With enough time a directory that can be listed is listed. -/
theorem Listed.ends {s : Kfs.State} {path : CStr} {maxn : Int} (h : Listed s path maxn)
    (hmax : 0 < maxn) : ∃ walk es reads, 0 < es.length ∧ (es.length : Int) ≤ maxn ∧ ∀ block,
      Kfs.Touched.kfsGetFileList s walk path block maxn =
        some ((es.length, putInfos es 0 block), reads) := by
  obtain ⟨d, l, x, hlead, hpath, hpass, hend, hne⟩ := h
  obtain ⟨walk, ⟨r, first⟩, hres⟩ := Kfs.Touched.resolveList_returns.mpr hlead.returns
  obtain rfl : r = some d := (Kfs.Touched.resolveList_leads hres).mpr hlead
  have hres' : Kfs.Touched.resolveDir s (max walk (l.length + 1)) path = some (some d, first) := by
    rw [Kfs.Touched.resolveDir_eq]
    exact Kfs.Touched.resolveList_mono (le_max_left _ _) hres
  refine ⟨max walk (l.length + 1), ?_⟩
  have hreturns : ∀ block, ∃ r reads, Kfs.Touched.listFrom s maxn (max walk (l.length + 1)) d 0
      block = some (r, reads) ∧ reads ⊆ l := fun block =>
    Kfs.Touched.listFrom_returns hpath hpass (by rwa [Nat.cast_zero, zero_add])
      (Nat.lt_of_succ_le (le_max_right _ _))
  rcases Kfs.Touched.listFrom_cases s maxn (max walk (l.length + 1)) d 0 with
    hnone | ⟨k, y, hk, -, hkend, hrun⟩
  · obtain ⟨r, reads, hsome, -⟩ := hreturns fun _ => 0
    rw [hnone] at hsome
    cases hsome
  simp only [Nat.cast_zero, sub_zero, zero_add] at hrun hkend
  have hslots : 0 < (dirSlots s k).length := by
    rcases hkend with hstop | hfull
    · obtain ⟨p, hp⟩ := List.exists_mem_of_ne_nil _ hne
      rw [Kfs.mem_dirSlots] at hp
      have hsub := path_subset hpath hk fun hy => hpass y hy hstop
      exact List.length_pos_of_mem (Kfs.mem_dirSlots.mpr ⟨hsub hp.1, hp.2⟩)
    · omega
  have hlen := List.length_take (i := maxn.toNat) (l := (dirSlots s k).map s.entry)
  rw [List.length_map] at hlen
  refine ⟨((dirSlots s k).map s.entry).take maxn.toNat, first ++ k, by omega, by omega,
    fun block => ?_⟩
  unfold Kfs.Touched.kfsGetFileList
  rw [hres']
  show Option.bind (Kfs.Touched.listFrom s maxn _ d 0 block) _ = _
  rw [hrun]
  rfl

/-! ## Requests -/

/-- The syscall gets as far as the copy of an element. -/
def Fills (k : Kernel) : Request → Prop
  | .getFileList rbx rcx rdx =>
    bounce k rcx.toNat (min (cInt rdx) ucMaxEntries) infoSize = some true ∧
      ∃ path, kpath k rbx.toNat = some path ∧
        Listed k.fs path (min (cInt rdx) ucMaxEntries)
  | .kwmGetWindows rbx rcx =>
    bounce k rbx.toNat (min (cInt rcx) maxWindowInfos) windowInfoSize = some true ∧
      ∃ i < Kwm.maxWindows, (k.kwm.windows i).active = true

theorem bounce_pos {udst size : Nat} {maxn : Int} (h : bounce k udst maxn size = some true) :
    0 < maxn := by
  unfold bounce at h
  by_cases hmax : maxn ≤ 0
  · rw [if_pos hmax] at h
    cases h
  · omega

theorem copyOut_none {udst size : Nat} : copyOut k udst block 0 size = some ⟨0, []⟩ :=
  if_neg (lt_irrefl 0)

theorem bounce_cases {udst size : Nat} {maxn : Int} (h : bounce k udst maxn size ≠ some true) :
    bounce k udst maxn size = none ∨ bounce k udst maxn size = some false := by
  cases hok : bounce k udst maxn size with
  | none => exact Or.inl rfl
  | some ok =>
    cases ok with
    | false => exact Or.inr rfl
    | true => exact absurd hok h

/-- Two blocks that differ in every byte lead to different copies of a listing with an entry. -/
theorem listFiles_tells {udst : Nat} {maxn : Int} {path : CStr} (hu : udst < 2 ^ 64)
    (hok : bounce k udst maxn infoSize = some true) (hlisted : Listed k.fs path maxn) :
    ∃ walk, (listFiles k walk path udst maxn fun _ => 0).map Answer.copied ≠
      (listFiles k walk path udst maxn fun _ => 1).map Answer.copied := by
  obtain ⟨walk, es, reads, hpos, hle, hrun⟩ := hlisted.ends (bounce_pos hok)
  have hcopy : ∀ block, listFiles k walk path udst maxn block =
      copyOut k udst (putInfos es 0 block) es.length infoSize := by
    intro block
    unfold listFiles
    rw [hok, hrun]
    rfl
  refine ⟨walk, fun hsame => ?_⟩
  rw [hcopy, hcopy] at hsame
  have hbyte := copyOut_tells hu hok (by omega) hle (show 23 < infoSize by decide) hsame
  rw [putInfos_unwritten, putInfos_unwritten] at hbyte
  exact absurd hbyte (by decide)

theorem listFiles_quiet {udst : Nat} {maxn : Int} {path : CStr}
    (h : ¬(bounce k udst maxn infoSize = some true ∧ Listed k.fs path maxn)) (walk : Nat)
    (block block' : Mem) : (listFiles k walk path udst maxn block).map Answer.copied =
      (listFiles k walk path udst maxn block').map Answer.copied := by
  unfold listFiles
  by_cases hok : bounce k udst maxn infoSize = some true
  · rw [hok]
    show (Option.bind (Kfs.Touched.kfsGetFileList k.fs walk path block maxn) _).map _ =
      (Option.bind (Kfs.Touched.kfsGetFileList k.fs walk path block' maxn) _).map _
    rcases kfsGetFileList_cases k.fs walk path (bounce_pos hok) with
      hnone | ⟨reads, hempty⟩ | ⟨hlisted, -⟩
    · rw [hnone, hnone]
    · rw [hempty, hempty]
      show (copyOut k udst block 0 infoSize).map _ = (copyOut k udst block' 0 infoSize).map _
      rw [copyOut_none, copyOut_none]
    · exact absurd ⟨hok, hlisted⟩ h
  · rcases bounce_cases hok with hnone | hfalse
    · rw [hnone]
      rfl
    · rw [hfalse]
      rfl

/-- What syscall 61 copies: nothing, or elements that begin with the padding of the block. -/
theorem listWindows_cases {udst : Nat} {maxn : Int}
    (hok : bounce k udst maxn windowInfoSize = some true) :
    ∃ m : Nat, (m : Int) ≤ maxn ∧ (0 < m ↔ ∃ i < Kwm.maxWindows, (k.kwm.windows i).active = true) ∧
      ∀ block, ∃ block', block' 6 = block 6 ∧
        listWindows k udst maxn block = copyOut k udst block' m windowInfoSize := by
  have hmax := bounce_pos hok
  obtain ⟨m, -, hle, hiff, hrun⟩ := windowsLoop_spec k.kwm maxn (List.range Kwm.maxWindows) 0
  refine ⟨m, by omega, (hiff hmax).trans ?_, fun block => ?_⟩
  · simp only [List.mem_range]
  · obtain ⟨hcount, hbyte⟩ := hrun block
    refine ⟨_, hbyte, ?_⟩
    unfold listWindows kwmGetWindows
    rw [hok, if_neg (not_le.mpr hmax), ← hcount]
    rfl

theorem listWindows_tells {udst : Nat} {maxn : Int} (hu : udst < 2 ^ 64)
    (hok : bounce k udst maxn windowInfoSize = some true)
    (hactive : ∃ i < Kwm.maxWindows, (k.kwm.windows i).active = true) :
    (listWindows k udst maxn fun _ => 0).map Answer.copied ≠
      (listWindows k udst maxn fun _ => 1).map Answer.copied := by
  obtain ⟨m, hle, hiff, hcopy⟩ := listWindows_cases hok
  have hpos := hiff.mpr hactive
  obtain ⟨b, hb, hbcopy⟩ := hcopy fun _ => 0
  obtain ⟨c, hc, hccopy⟩ := hcopy fun _ => 1
  intro hsame
  rw [hbcopy, hccopy] at hsame
  have hbyte := copyOut_tells hu hok (by omega) hle (show 6 < windowInfoSize by decide) hsame
  rw [hb, hc] at hbyte
  exact absurd hbyte (by decide)

theorem listWindows_quiet {udst : Nat} {maxn : Int}
    (h : ¬(bounce k udst maxn windowInfoSize = some true ∧
      ∃ i < Kwm.maxWindows, (k.kwm.windows i).active = true)) (block block' : Mem) :
    listWindows k udst maxn block = listWindows k udst maxn block' := by
  by_cases hok : bounce k udst maxn windowInfoSize = some true
  · obtain ⟨m, -, hiff, hcopy⟩ := listWindows_cases hok
    obtain rfl : m = 0 := by
      by_contra hne
      exact h ⟨hok, hiff.mp (Nat.pos_of_ne_zero hne)⟩
    have hnone : ∀ b, listWindows k udst maxn b = some ⟨0, []⟩ := by
      intro b
      obtain ⟨c, -, hc⟩ := hcopy b
      rw [hc, Nat.cast_zero, copyOut_none]
    rw [hnone, hnone]
  · unfold listWindows
    rcases bounce_cases hok with hnone | hfalse
    · simp only [hnone, Option.bind_eq_bind, Option.bind_none]
    · simp only [hfalse, Option.bind_eq_bind, Option.bind_some, Bool.not_false, if_true]

theorem not_quiet_of_fills {req : Request} (h : Fills k req) : ¬Quiet k req := by
  intro hquiet
  cases req with
  | getFileList rbx rcx rdx =>
    obtain ⟨hok, path, hpath, hlisted⟩ := h
    obtain ⟨walk, hne⟩ := listFiles_tells (UInt64.toNat_lt rcx) hok hlisted
    have hsame := hquiet walk (fun _ => 0) fun _ => 1
    simp only [answer, sysGetFileList, hpath] at hsame
    exact hne hsame
  | kwmGetWindows rbx rcx =>
    exact listWindows_tells (UInt64.toNat_lt rbx) h.1 h.2 (hquiet 0 (fun _ => 0) fun _ => 1)

theorem quiet_of_not_fills {req : Request} (h : ¬Fills k req) : Quiet k req := by
  intro walk block block'
  cases req with
  | getFileList rbx rcx rdx =>
    simp only [answer, sysGetFileList]
    cases hpath : kpath k rbx.toNat with
    | none => rfl
    | some path =>
      exact listFiles_quiet (fun hc => h ⟨hc.1, path, hpath, hc.2⟩) walk block block'
  | kwmGetWindows rbx rcx =>
    exact congrArg (Option.map Answer.copied) (listWindows_quiet h block block')

/-- The listings tell old bytes of the heap exactly when they list something. -/
theorem listing_quiet_iff (k : Kernel) (req : Request) : Quiet k req ↔ ¬Fills k req :=
  ⟨fun hquiet hfills => not_quiet_of_fills hfills hquiet, quiet_of_not_fills⟩

/-- A root directory with one file, and the window of one task. -/
def oneOfEach : Kernel where
  ctx := ring3
  paging := onePage
  user a := if a = 0x400000 then Kfs.slash else 0
  stack _ := 0
  fs :=
    { Kfs.blankState with
      disk := fun x o => if x = 3 ∧ o = 0 then 97 else if x = 3 ∧ o = 23 then 1 else 0
      currentFs := ⟨![75, 90, 70, 83], 3, 1, fun _ => 0⟩
      fatTable := fun i => if i < 4 then Kfs.fatEof else 0
      totalDiskSectors := 20
      fatSectorsNeeded := 1 }
  kwm :=
    { windows := fun i => ⟨i == 0, 0, 0, 100, 100, some ⟨10000, fun _ => 0⟩, 1, 1, false, []⟩
      nextZIndex := 2
      draggedWinId := none
      dragOffsetX := 0
      dragOffsetY := 0
      focusedWinId := some 0
      altTabActive := false
      fbWidth := 800
      fbHeight := 600 }
  room _ := true

theorem oneOfEach_leaks : ¬Quiet oneOfEach (.getFileList 0x400000 0x400100 5) ∧
    ¬Quiet oneOfEach (.kwmGetWindows 0x400100 16) := by
  constructor
  · apply not_quiet_of_fills
    refine ⟨by decide, [Kfs.slash], by decide, 3, [3], Kfs.fatEof, ?_⟩
    have hpass : ¬Stop 3 := by
      unfold Stop
      decide
    exact ⟨rfl, ⟨rfl, rfl⟩, List.forall_mem_singleton.mpr hpass, Or.inl (Or.inl rfl),
      by decide⟩
  · apply not_quiet_of_fills
    exact ⟨by decide, 0, by decide, rfl⟩

end Kyuzen.Usercopy
