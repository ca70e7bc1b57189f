import Kyuzen.Kfs.View

/-!
# Directory listings

`kfs_get_file_list` fills an array of `file_info_t` (`kernel/kyuzenfs.c`): 24 bytes of name, the
size, a byte that says whether the entry is a folder, and three bytes of padding. It goes through
the slots of a directory in the order of its chain and stops when the array is full.

What it lists are the slots in use, in that order (`kfsGetFileList_eq`), and the array reads back
as their names, sizes and kinds (`infoAt_putInfos`). The last byte of a name field is never
written (`putInfo_tail`).
-/

namespace Kyuzen.Kfs

open Lib.Memory Lib.Chain

/-- `sizeof(file_info_t)`. -/
def infoSize : Nat := 32

/-- The name that the inner loop copies: at most 22 bytes, up to the terminator. -/
def entryName (e : Entry) : CStr := ((List.ofFn e.filename).take 22).takeWhile (· != 0)

/-- `list[count]`: the name with its terminator, the size, and whether this is a folder. -/
def putInfo (list : Mem) (count : Nat) (e : Entry) : Mem :=
  let name := entryName e
  let list := fill list (32 * count) name.length fun x => name.getD (x - 32 * count) 0
  let list := Function.update list (32 * count + name.length) 0
  let list := store list (32 * count + 24) 4 e.sizeBytes
  Function.update list (32 * count + 28) (if e.flags = flagFolder then 1 else 0)

/-- The loop over the slots of a sector, which is left when the array is full. -/
def listSector (b : Mem) (maxEntries : Int) : List Nat → Nat → Mem → Nat × Mem
  | [], count, list => (count, list)
  | i :: is, count, list =>
    if (entryAt b i).flags ≠ flagEmpty then
      let list := putInfo list count (entryAt b i)
      if ((count + 1 : Nat) : Int) ≥ maxEntries then (count + 1, list)
      else listSector b maxEntries is (count + 1) list
    else listSector b maxEntries is count list

def listFrom (s : State) (maxEntries : Int) : Nat → Nat → Nat → Mem → Option (Nat × Mem)
  | 0, _, _, _ => none
  | fuel + 1, currSec, count, list =>
    if currSec = fatEof ∨ currSec = fatFree ∨ ¬(count : Int) < maxEntries then some (count, list)
    else
      let r := listSector (s.disk currSec) maxEntries (List.range 16) count list
      listFrom s maxEntries fuel (s.fatTable currSec) r.1 r.2

/-- A walk that goes on for longer comes back to where it was without a new entry. -/
def listFuel (s : State) (maxEntries : Int) : Nat := walkFuel s * (maxEntries.toNat + 1)

/-- The number of entries, and the caller's buffer afterwards. -/
def kfsGetFileList (s : State) (path : CStr) (buffer : Mem) (maxEntries : Int) :
    Option (Nat × Mem) := do
  match ← resolveDir s path with
  | none => return (0, buffer)
  | some dirSec => listFrom s maxEntries (listFuel s maxEntries) dirSec 0 buffer

/-! ## The slots of a directory -/

def Entry.inUse (e : Entry) : Bool := e.flags ≠ flagEmpty

theorem Entry.inUse_iff {e : Entry} : e.inUse = true ↔ e.flags ≠ flagEmpty := decide_eq_true_iff

/-- The slots in use of a directory with the chain `l`, in the order of the chain. -/
def dirSlots (s : State) (l : List Nat) : List (Nat × Nat) :=
  l.flatMap fun x => ((List.range 16).filter fun i => (entryAt (s.disk x) i).inUse).map
    fun i => (x, i)

theorem dirSlots_cons (s : State) (x : Nat) (l : List Nat) :
    dirSlots s (x :: l) = dirSlots s [x] ++ dirSlots s l := by
  unfold dirSlots
  rw [List.flatMap_cons, List.flatMap_cons, List.flatMap_nil, List.append_nil]

theorem mem_dirSlots {s : State} {l : List Nat} {p : Nat × Nat} :
    p ∈ dirSlots s l ↔ p.1 ∈ l ∧ p.2 < 16 ∧ (s.entry p).flags ≠ flagEmpty := by
  obtain ⟨x, i⟩ := p
  simp only [dirSlots, List.mem_flatMap, List.mem_map, List.mem_filter, List.mem_range,
    Entry.inUse_iff, Prod.mk.injEq]
  constructor
  · rintro ⟨y, hy, j, ⟨hj, hflags⟩, rfl, rfl⟩
    exact ⟨hy, hj, hflags⟩
  · rintro ⟨hx, hi, hflags⟩
    exact ⟨x, hx, i, ⟨hi, hflags⟩, rfl, rfl⟩

/-- No slot comes twice. -/
theorem dirSlots_nodup (s : State) {l : List Nat} (h : l.Nodup) : (dirSlots s l).Nodup := by
  unfold dirSlots
  rw [List.nodup_flatMap]
  constructor
  · intro x _
    exact (List.nodup_range.filter _).map fun i j hij => (Prod.mk.inj hij).2
  · refine h.imp ?_
    intro x y hne p hx hy
    simp only [List.mem_map] at hx hy
    obtain ⟨i, -, rfl⟩ := hx
    obtain ⟨j, -, heq⟩ := hy
    exact hne (Prod.mk.inj heq).1.symm

/-! ## The loops -/

/-- Entries written one after another. -/
def putInfos : List Entry → Nat → Mem → Mem
  | [], _, list => list
  | e :: es, count, list => putInfos es (count + 1) (putInfo list count e)

theorem putInfos_append (es es' : List Entry) : ∀ (count : Nat) (list : Mem),
    putInfos (es ++ es') count list =
      putInfos es' (count + es.length) (putInfos es count list) := by
  induction es with
  | nil => exact fun _ _ => rfl
  | cons e es ih =>
    intro count list
    rw [List.cons_append, putInfos, putInfos, ih, List.length_cons, Nat.add_assoc,
      Nat.add_comm 1]

/-- The loop over the slots writes the entries in use for which there is room. -/
theorem listSector_eq {b : Mem} {maxEntries : Int} : ∀ {is : List Nat} {count : Nat} {list : Mem},
    (count : Int) < maxEntries →
    listSector b maxEntries is count list =
      (count + (((is.map (entryAt b)).filter Entry.inUse).take
          (maxEntries - count).toNat).length,
        putInfos (((is.map (entryAt b)).filter Entry.inUse).take
          (maxEntries - count).toNat) count list) := by
  intro is
  induction is with
  | nil =>
    intro count list _
    rw [listSector, List.map_nil, List.filter_nil, List.take_nil]
    rfl
  | cons i is ih =>
    intro count list hlt
    rw [listSector, List.map_cons]
    by_cases hflags : (entryAt b i).flags ≠ flagEmpty
    · obtain ⟨k, hk⟩ : ∃ k, (maxEntries - count).toNat = k + 1 :=
        ⟨(maxEntries - count).toNat - 1, by omega⟩
      rw [if_pos hflags, List.filter_cons_of_pos (Entry.inUse_iff.mpr hflags), hk,
        List.take_succ_cons,
        List.length_cons, putInfos]
      dsimp only
      by_cases hfull : ((count + 1 : Nat) : Int) ≥ maxEntries
      · have hk0 : k = 0 := by omega
        rw [if_pos hfull, hk0, List.take_zero]
        rfl
      · have hk' : (maxEntries - ((count + 1 : Nat) : Int)).toNat = k := by omega
        rw [if_neg hfull, ih (by omega), hk', Nat.add_assoc, Nat.add_comm 1]
    · rw [if_neg hflags, List.filter_cons_of_neg (mt Entry.inUse_iff.mp hflags)]
      exact ih hlt

theorem entries_of_sector (s : State) (x : Nat) :
    ((List.range 16).map (entryAt (s.disk x))).filter Entry.inUse =
      (dirSlots s [x]).map s.entry := by
  rw [dirSlots, List.flatMap_cons, List.flatMap_nil, List.append_nil, List.map_map,
    List.filter_map]
  rfl

/-- The walk writes the entries of the directory for which there is room. -/
theorem listFrom_eq {s : State} {maxEntries : Int} : ∀ {l : List Nat} {h fuel count : Nat}
    {list : Mem}, Path s.fatTable h l fatEof → (∀ x ∈ l, x ≠ fatEof ∧ x ≠ fatFree) →
    l.length < fuel →
    listFrom s maxEntries fuel h count list =
      some (count + (((dirSlots s l).map s.entry).take (maxEntries - count).toNat).length,
        putInfos (((dirSlots s l).map s.entry).take (maxEntries - count).toNat) count list) := by
  intro l
  induction l with
  | nil =>
    intro h fuel count list hpath _ hf
    obtain ⟨fuel, rfl⟩ := Nat.exists_eq_succ_of_ne_zero (show fuel ≠ 0 by omega)
    have hend : h = fatEof := hpath
    rw [listFrom, if_pos (Or.inl hend), dirSlots, List.flatMap_nil, List.map_nil, List.take_nil]
    rfl
  | cons x l ih =>
    intro h fuel count list hpath hne hf
    obtain ⟨fuel, rfl⟩ := Nat.exists_eq_succ_of_ne_zero (show fuel ≠ 0 by omega)
    obtain ⟨rfl, hrest⟩ := hpath
    obtain ⟨heof, hfree⟩ := hne h List.mem_cons_self
    rw [listFrom]
    by_cases hlt : (count : Int) < maxEntries
    · rw [if_neg (by tauto), listSector_eq hlt, entries_of_sector]
      dsimp only
      rw [ih hrest (fun y hy => hne y (List.mem_cons_of_mem _ hy)) (by simpa using hf),
        dirSlots_cons s h l, List.map_append, List.take_append, List.length_append,
        putInfos_append]
      have hlen := List.length_take (i := (maxEntries - count).toNat)
        (l := (dirSlots s [h]).map s.entry)
      have hroom : (maxEntries - ((count + (((dirSlots s [h]).map s.entry).take
          (maxEntries - count).toNat).length : Nat) : Int)).toNat =
          (maxEntries - count).toNat - ((dirSlots s [h]).map s.entry).length := by omega
      rw [hroom, Nat.add_assoc]
    · have hzero : (maxEntries - count).toNat = 0 := by omega
      rw [if_pos (Or.inr (Or.inr hlt)), hzero, List.take_zero]
      rfl

/-- The listing of a directory: its entries in use, as many as fit the array. -/
theorem kfsGetFileList_eq {s : State} (hg : Geometry s) {path : CStr} {d : Nat} {l : List Nat}
    (hres : resolveDir s path = some (some d)) (hl : IsChain s d l) (buffer : Mem)
    (maxEntries : Int) :
    kfsGetFileList s path buffer maxEntries =
      some ((((dirSlots s l).map s.entry).take maxEntries.toNat).length,
        putInfos (((dirSlots s l).map s.entry).take maxEntries.toNat) 0 buffer) := by
  obtain ⟨hne, hfuel⟩ := hl.walkable hg
  unfold kfsGetFileList
  rw [hres]
  show listFrom s maxEntries (listFuel s maxEntries) d 0 buffer = _
  have hlong : l.length < listFuel s maxEntries :=
    hfuel.trans_le (Nat.le_mul_of_pos_right _ (Nat.succ_pos _))
  rw [listFrom_eq hl.path hne hlong, Nat.zero_add, Nat.cast_zero, sub_zero]

/-! ## What is in the array -/

/-- `file_info_t`. -/
structure Info where
  filename : CStr
  size : Nat
  isFolder : Bool
  deriving DecidableEq

/-- `list[k]`. -/
def infoAt (list : Mem) (k : Nat) : Info where
  filename := ((List.range 24).map fun j => list (32 * k + j)).takeWhile (· != 0)
  size := load list (32 * k + 24) 4
  isFolder := list (32 * k + 28) != 0

def infoOf (e : Entry) : Info := ⟨entryName e, e.sizeBytes, e.flags = flagFolder⟩

theorem entryName_length (e : Entry) : (entryName e).length ≤ 22 := by
  have htake := (List.takeWhile_sublist (· != 0) (l := (List.ofFn e.filename).take 22)).length_le
  rw [List.length_take] at htake
  exact le_trans htake (Nat.min_le_left _ _)

theorem zero_notMem_entryName (e : Entry) : 0 ∉ entryName e := by
  intro hmem
  have := List.mem_takeWhile_imp hmem
  simp at this

theorem putInfo_outside {list : Mem} {k x : Nat} {e : Entry} (h : x < 32 * k ∨ 32 * k + 32 ≤ x) :
    putInfo list k e x = list x := by
  have hlen := entryName_length e
  unfold putInfo
  rw [Function.update_of_ne (by omega), store_outside (by omega),
    Function.update_of_ne (by omega), fill_outside (by omega)]

/-- The last byte of the name field is never written. -/
theorem putInfo_tail (list : Mem) (k : Nat) (e : Entry) :
    putInfo list k e (32 * k + 23) = list (32 * k + 23) := by
  have hlen := entryName_length e
  unfold putInfo
  rw [Function.update_of_ne (by omega), store_outside (by omega),
    Function.update_of_ne (by omega), fill_outside (by omega)]

theorem infoAt_congr {list list' : Mem} {k : Nat}
    (h : ∀ x, 32 * k ≤ x → x < 32 * k + 32 → list' x = list x) :
    infoAt list' k = infoAt list k := by
  unfold infoAt
  congr 1
  · congr 1
    apply List.map_congr_left
    intro j hj
    rw [List.mem_range] at hj
    exact h _ (by omega) (by omega)
  · exact load_congr fun x h1 h2 => h x (by omega) (by omega)
  · rw [h _ (by omega) (by omega)]

theorem infoAt_putInfo (list : Mem) (k : Nat) {e : Entry} (hsize : e.sizeBytes < 2 ^ 32) :
    infoAt (putInfo list k e) k = infoOf e := by
  have hlen := entryName_length e
  unfold infoAt infoOf
  congr 1
  · have hend : putInfo list k e (32 * k + (entryName e).length) = 0 := by
      unfold putInfo
      rw [Function.update_of_ne (by omega), store_outside (by omega), Function.update_self]
    refine (strcmpEq_takeWhile (zero_notMem_entryName e) ⟨(entryName e).length, by omega, hend⟩).mp ?_
    refine strcmpEq_of_bytes ?_ hend
    intro j hj
    unfold putInfo
    rw [Function.update_of_ne (by omega), store_outside (by omega),
      Function.update_of_ne (by omega), fill, if_pos (by omega), Nat.add_sub_cancel_left,
      List.getD_eq_getElem _ _ hj]
    rfl
  · unfold putInfo
    dsimp only
    rw [load_congr fun x h1 h2 => Function.update_of_ne (by omega) _ _, load_store]
    exact Nat.mod_eq_of_lt hsize
  · unfold putInfo
    rw [Function.update_self]
    by_cases hf : e.flags = flagFolder
    · rw [if_pos hf, decide_eq_true hf]
      rfl
    · rw [if_neg hf, decide_eq_false hf]
      rfl

theorem putInfos_outside : ∀ {es : List Entry} {count : Nat} {list : Mem} {x : Nat},
    x < 32 * count ∨ 32 * (count + es.length) ≤ x → putInfos es count list x = list x := by
  intro es
  induction es with
  | nil => exact fun _ => rfl
  | cons e es ih =>
    intro count list x hx
    rw [List.length_cons] at hx
    rw [putInfos, ih (by omega), putInfo_outside (by omega)]

/-- Reading the array gives back what was written. -/
theorem infoAt_putInfos : ∀ {es : List Entry} {count : Nat} {list : Mem},
    (∀ e ∈ es, e.sizeBytes < 2 ^ 32) →
    (List.range es.length).map (fun i => infoAt (putInfos es count list) (count + i)) =
      es.map infoOf := by
  intro es
  induction es with
  | nil => exact fun _ => rfl
  | cons e es ih =>
    intro count list hsize
    rw [List.length_cons, List.range_succ_eq_map, List.map_cons, List.map_map, List.map_cons,
      putInfos]
    congr 1
    · rw [infoAt_congr fun x h1 h2 => putInfos_outside (by omega)]
      exact infoAt_putInfo list count (hsize e List.mem_cons_self)
    · have htail := @ih (count + 1) (putInfo list count e)
        fun e he => hsize e (List.mem_cons_of_mem _ he)
      rw [← htail]
      apply List.map_congr_left
      intro i _
      show infoAt _ (count + (i + 1)) = infoAt _ (count + 1 + i)
      rw [Nat.add_assoc, Nat.add_comm 1]

theorem entryAt_size_lt (b : Mem) (i : Nat) : (entryAt b i).sizeBytes < 2 ^ 32 :=
  load_lt b (32 * i + 28) 4

end Kyuzen.Kfs
