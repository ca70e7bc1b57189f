import Kyuzen.Kfs.Listing

/-!
# What the calls touch

The calls that look things up, list, read and delete, once more, on a disk about which nothing is
known and with a record of what they touch: the indexes at which they read `fat_table`, and the
offsets at which `kfs_read_to_buffer` writes the caller's buffer, in the order of the accesses.

A call follows the FAT for at most `walk` sectors at a time; it returns when some `walk` is
enough. With the bounds of the model the results are those of the model (`AgreesWithModel`).
-/

namespace Kyuzen.Kfs.Touched

open Lib.Memory Lib.Chain

/-! ## The calls -/

def findEntryFrom (s : State) (name : CStr) :
    Nat → Nat → Option (Option (Entry × Nat × Nat) × List Nat)
  | 0, _ => none
  | fuel + 1, currSec =>
    if currSec = fatEof ∨ currSec = fatFree then some (none, [])
    else
      match findInSector (s.disk currSec) name with
      | some i => some (some (entryAt (s.disk currSec) i, currSec, i), [])
      | none =>
        (findEntryFrom s name fuel (s.fatTable currSec)).map fun r => (r.1, currSec :: r.2)

def findEntryIn (s : State) (walk dirSector : Nat) (name : CStr) :
    Option (Option (Entry × Nat × Nat) × List Nat) :=
  if dirSector < 2 then some (none, []) else findEntryFrom s name walk dirSector

def resolveFrom (s : State) (walk : Nat) : Nat → CStr → Nat → Option (Option Nat × List Nat)
  | 0, _, _ => none
  | fuel + 1, path, dirSec =>
    match path.dropWhile (· == slash) with
    | [] => some (some dirSec, [])
    | c :: rest =>
      let comp := (c :: rest).takeWhile (· != slash)
      if comp.length > 22 then some (none, [])
      else do
        match ← findEntryIn s walk dirSec comp with
        | (none, reads) => return (none, reads)
        | (some (e, _, _), reads) =>
          if e.flags ≠ flagFolder then return (none, reads)
          else do
            let r ← resolveFrom s walk fuel ((c :: rest).dropWhile (· != slash)) e.startSector
            return (r.1, reads ++ r.2)

def resolveDir (s : State) (walk : Nat) (path : CStr) : Option (Option Nat × List Nat) :=
  resolveFrom s walk (path.length + 1) path s.currentFs.rootDirSector

/-- `split_last_nolock` and `find_entry_in`, with which the calls begin. -/
def lookup (s : State) (walk : Nat) (path : CStr) :
    Option (Option (Entry × Nat × Nat) × List Nat) :=
  if lastName path = [] then some (none, [])
  else do
    match ← resolveDir s walk (parentPath path) with
    | (none, reads) => return (none, reads)
    | (some parentSec, reads) =>
      let r ← findEntryIn s walk parentSec (lastName path)
      return (r.1, reads ++ r.2)

def kfsExists (s : State) (walk : Nat) (path : CStr) : Option (Nat × List Nat) :=
  (lookup s walk path).map fun r => (if r.1.isSome then 1 else 0, r.2)

def kfsGetFileSize (s : State) (walk : Nat) (path : CStr) : Option (Nat × List Nat) :=
  (lookup s walk path).map fun r => (r.1.elim 0 fun found => found.1.sizeBytes, r.2)

/-- The copy loop: the entries of the FAT it reads, and the offsets it writes. -/
def readChunks (s : State) : Nat → Nat → Nat → Nat → Option (List Nat × List Nat)
  | 0, _, _, _ => none
  | fuel + 1, curr, offset, remaining =>
    if curr = fatEof ∨ curr = fatFree ∨ remaining = 0 then some ([], [])
    else
      let chunk := if remaining > 512 then 512 else remaining
      (readChunks s fuel (s.fatTable curr) (offset + chunk) (remaining - chunk)).map fun r =>
        (curr :: r.1, List.range' offset chunk ++ r.2)

/-- The return value, the entries of the FAT that are read, and the offsets that are written. -/
def kfsReadToBuffer (s : State) (walk : Nat) (path : CStr) (capacity : Nat) :
    Option (Nat × List Nat × List Nat) := do
  match ← lookup s walk path with
  | (none, reads) => return (0, reads, [])
  | (some (entry, _, _), reads) =>
    if entry.sizeBytes > capacity then return (0, reads, [])
    else
      let r ← readChunks s walk entry.startSector 0 entry.sizeBytes
      return (1, reads ++ r.1, r.2)

def listFrom (s : State) (maxEntries : Int) :
    Nat → Nat → Nat → Mem → Option ((Nat × Mem) × List Nat)
  | 0, _, _, _ => none
  | fuel + 1, currSec, count, list =>
    if currSec = fatEof ∨ currSec = fatFree ∨ ¬(count : Int) < maxEntries then
      some ((count, list), [])
    else
      let r := listSector (s.disk currSec) maxEntries (List.range 16) count list
      (listFrom s maxEntries fuel (s.fatTable currSec) r.1 r.2).map fun r =>
        (r.1, currSec :: r.2)

def kfsGetFileList (s : State) (walk : Nat) (path : CStr) (buffer : Mem) (maxEntries : Int) :
    Option ((Nat × Mem) × List Nat) := do
  match ← resolveDir s walk path with
  | (none, reads) => return ((0, buffer), reads)
  | (some dirSec, reads) =>
    let r ← listFrom s maxEntries walk dirSec 0 buffer
    return (r.1, reads ++ r.2)

def freeChain : Nat → State → Nat → Option (State × List Nat)
  | 0, _, _ => none
  | fuel + 1, s, curr =>
    if curr = fatEof ∨ curr = fatFree then some (s, [])
    else
      (freeChain fuel (kfsSyncFat (setFat s curr fatFree) curr) (s.fatTable curr)).map fun r =>
        (r.1, curr :: r.2)

def kfsDeleteFile (s : State) (walk : Nat) (path : CStr) : Option (State × List Nat) := do
  match ← lookup s walk path with
  | (none, reads) => return (s, reads)
  | (some (entry, dirSec, dirIdx), reads) =>
    if entry.flags = flagFolder then return (s, reads)
    else
      let r ← freeChain walk s entry.startSector
      return (removeFile (clearEntry r.1 dirSec dirIdx), reads ++ r.2)

/-! ## The model -/

variable {s : State} {name path : CStr} {d walk fuel : Nat}

theorem findEntryFrom_fst (s : State) (name : CStr) : ∀ fuel d : Nat,
    (findEntryFrom s name fuel d).map Prod.fst = Kfs.findEntryFrom s name fuel d := by
  intro fuel
  induction fuel with
  | zero => exact fun d => rfl
  | succ fuel ih =>
    intro d
    rw [findEntryFrom, Kfs.findEntryFrom]
    split_ifs with hstop
    · rfl
    · cases findInSector (s.disk d) name with
      | some i => rfl
      | none =>
        dsimp only
        rw [Option.map_map, ← ih]
        rfl

theorem findEntryIn_fst (s : State) (d : Nat) (name : CStr) :
    (findEntryIn s (walkFuel s) d name).map Prod.fst = Kfs.findEntryIn s d name := by
  unfold findEntryIn Kfs.findEntryIn
  split_ifs with hd
  · rfl
  · exact findEntryFrom_fst s name _ d

theorem resolveFrom_fst (s : State) : ∀ (fuel : Nat) (path : CStr) (d : Nat),
    (resolveFrom s (walkFuel s) fuel path d).map Prod.fst = Kfs.resolveFrom s fuel path d := by
  intro fuel
  induction fuel with
  | zero => exact fun path d => rfl
  | succ fuel ih =>
    intro path d
    rw [resolveFrom, Kfs.resolveFrom]
    cases path.dropWhile (· == slash) with
    | nil => rfl
    | cons c rest =>
      dsimp only
      split_ifs with hlen
      · rfl
      · rw [← findEntryIn_fst]
        cases findEntryIn s (walkFuel s) d ((c :: rest).takeWhile (· != slash)) with
        | none => rfl
        | some r =>
          obtain ⟨found, reads⟩ := r
          cases found with
          | none => rfl
          | some e =>
            show Option.map _ (if e.1.flags ≠ flagFolder then some (none, reads) else _) =
              (if e.1.flags ≠ flagFolder then some none else _)
            by_cases hf : e.1.flags ≠ flagFolder
            · rw [if_pos hf, if_pos hf]
              rfl
            · rw [if_neg hf, if_neg hf, ← ih]
              cases resolveFrom s (walkFuel s) fuel ((c :: rest).dropWhile (· != slash))
                e.1.startSector with
              | none => rfl
              | some r => rfl

theorem resolveDir_fst (s : State) (path : CStr) :
    (resolveDir s (walkFuel s) path).map Prod.fst = Kfs.resolveDir s path :=
  resolveFrom_fst s _ path _

/-- `split_last_nolock` and `find_entry_in`, as the model has them. -/
def found (s : State) (path : CStr) : Option (Option (Entry × Nat × Nat)) :=
  (splitLast s path).bind fun r => r.elim (some none) fun r => Kfs.findEntryIn s r.1 r.2

theorem lookup_fst (s : State) (path : CStr) :
    (lookup s (walkFuel s) path).map Prod.fst = found s path := by
  unfold lookup found splitLast
  dsimp only
  split_ifs with hname
  · rfl
  · rw [← resolveDir_fst]
    cases resolveDir s (walkFuel s) (parentPath path) with
    | none => rfl
    | some r =>
      obtain ⟨parent, reads⟩ := r
      cases parent with
      | none => rfl
      | some d =>
        show Option.map _ (Option.bind (findEntryIn s (walkFuel s) d (lastName path)) _) =
          Kfs.findEntryIn s d (lastName path)
        rw [← findEntryIn_fst]
        cases findEntryIn s (walkFuel s) d (lastName path) with
        | none => rfl
        | some r => rfl

theorem kfsExists_found (s : State) (path : CStr) :
    Kfs.kfsExists s path = (found s path).map fun r => if r.isSome then 1 else 0 := by
  unfold Kfs.kfsExists found
  cases splitLast s path with
  | none => rfl
  | some r =>
    cases r with
    | none => rfl
    | some r =>
      show (Kfs.findEntryIn s r.1 r.2).bind _ = (Kfs.findEntryIn s r.1 r.2).map _
      cases Kfs.findEntryIn s r.1 r.2 with
      | none => rfl
      | some r => cases r <;> rfl

theorem kfsGetFileSize_found (s : State) (path : CStr) :
    Kfs.kfsGetFileSize s path =
      (found s path).map fun r => r.elim 0 fun r => r.1.sizeBytes := by
  unfold Kfs.kfsGetFileSize found
  cases splitLast s path with
  | none => rfl
  | some r =>
    cases r with
    | none => rfl
    | some r =>
      show (Kfs.findEntryIn s r.1 r.2).bind _ = (Kfs.findEntryIn s r.1 r.2).map _
      cases Kfs.findEntryIn s r.1 r.2 with
      | none => rfl
      | some r => cases r <;> rfl

theorem kfsReadToBuffer_found (s : State) (path : CStr) (buffer : Mem) (capacity : Nat) :
    Kfs.kfsReadToBuffer s path buffer capacity = (found s path).bind fun r =>
      r.elim (some (0, buffer)) fun r =>
        if r.1.sizeBytes > capacity then some (0, buffer)
        else (Kfs.readChunks s (copyFuel r.1.sizeBytes) buffer r.1.startSector 0
          r.1.sizeBytes).map fun b => (1, b) := by
  unfold Kfs.kfsReadToBuffer found
  cases splitLast s path with
  | none => rfl
  | some r =>
    cases r with
    | none => rfl
    | some r =>
      show (Kfs.findEntryIn s r.1 r.2).bind _ = (Kfs.findEntryIn s r.1 r.2).bind _
      cases Kfs.findEntryIn s r.1 r.2 with
      | none => rfl
      | some r =>
        cases r with
        | none => rfl
        | some r =>
          show (if r.1.sizeBytes > capacity then some (0, buffer) else Option.bind _ _) =
            if r.1.sizeBytes > capacity then some (0, buffer) else Option.map _ _
          split_ifs with hcap
          · rfl
          · cases Kfs.readChunks s (copyFuel r.1.sizeBytes) buffer r.1.startSector 0
              r.1.sizeBytes <;> rfl

theorem kfsExists_fst (s : State) (path : CStr) :
    (kfsExists s (walkFuel s) path).map Prod.fst = Kfs.kfsExists s path := by
  rw [kfsExists_found, ← lookup_fst, kfsExists, Option.map_map, Option.map_map]
  rfl

theorem kfsGetFileSize_fst (s : State) (path : CStr) :
    (kfsGetFileSize s (walkFuel s) path).map Prod.fst = Kfs.kfsGetFileSize s path := by
  rw [kfsGetFileSize_found, ← lookup_fst, kfsGetFileSize, Option.map_map, Option.map_map]
  rfl

theorem listFrom_fst (s : State) (maxEntries : Int) : ∀ (fuel d count : Nat) (list : Mem),
    (listFrom s maxEntries fuel d count list).map Prod.fst =
      Kfs.listFrom s maxEntries fuel d count list := by
  intro fuel
  induction fuel with
  | zero => exact fun d count list => rfl
  | succ fuel ih =>
    intro d count list
    rw [listFrom, Kfs.listFrom]
    split_ifs with hstop
    · rfl
    · dsimp only
      rw [Option.map_map, ← ih]
      rfl

theorem kfsGetFileList_fst (s : State) (path : CStr) (buffer : Mem) (maxEntries : Int) :
    (resolveDir s (walkFuel s) path).bind (fun r => r.1.elim (some (0, buffer)) fun d =>
      (listFrom s maxEntries (listFuel s maxEntries) d 0 buffer).map Prod.fst) =
        Kfs.kfsGetFileList s path buffer maxEntries := by
  unfold Kfs.kfsGetFileList
  rw [← resolveDir_fst]
  cases resolveDir s (walkFuel s) path with
  | none => rfl
  | some r =>
    obtain ⟨dir, reads⟩ := r
    cases dir with
    | none => rfl
    | some d => exact listFrom_fst s maxEntries _ d 0 buffer

theorem freeChain_fst : ∀ (fuel : Nat) (s : State) (curr : Nat),
    (freeChain fuel s curr).map Prod.fst = Kfs.freeChain fuel s curr := by
  intro fuel
  induction fuel with
  | zero => exact fun s curr => rfl
  | succ fuel ih =>
    intro s curr
    rw [freeChain, Kfs.freeChain]
    split_ifs with hstop
    · rfl
    · rw [Option.map_map, ← ih]
      rfl

theorem kfsDeleteFile_fst (s : State) (path : CStr) :
    (kfsDeleteFile s (walkFuel s) path).map Prod.fst =
      (Kfs.kfsDeleteFile s path).map fun out => out.state := by
  have hmodel : (Kfs.kfsDeleteFile s path).map (fun out => out.state) = (found s path).bind fun r =>
      r.elim (some s) fun r => if r.1.flags = flagFolder then some s
        else (Kfs.freeChain (walkFuel s) s r.1.startSector).map fun s' =>
          removeFile (clearEntry s' r.2.1 r.2.2) := by
    unfold Kfs.kfsDeleteFile found
    cases splitLast s path with
    | none => rfl
    | some r =>
      cases r with
      | none => rfl
      | some r =>
        show Option.map _ ((Kfs.findEntryIn s r.1 r.2).bind _) =
          (Kfs.findEntryIn s r.1 r.2).bind _
        cases Kfs.findEntryIn s r.1 r.2 with
        | none => rfl
        | some r =>
          cases r with
          | none => rfl
          | some r =>
            show Option.map _ (if r.1.flags = flagFolder then _ else Option.bind _ _) =
              if r.1.flags = flagFolder then some s else Option.map _ _
            split_ifs with hf
            · rfl
            · cases Kfs.freeChain (walkFuel s) s r.1.startSector <;> rfl
  rw [hmodel, ← lookup_fst, kfsDeleteFile]
  cases lookup s (walkFuel s) path with
  | none => rfl
  | some r =>
    obtain ⟨r, reads⟩ := r
    cases r with
    | none => rfl
    | some r =>
      show Option.map _ (if r.1.flags = flagFolder then _ else Option.bind _ _) =
        if r.1.flags = flagFolder then some s else Option.map _ _
      split_ifs with hf
      · rfl
      · rw [← freeChain_fst]
        cases freeChain (walkFuel s) s r.1.startSector <;> rfl

/-- With the bounds of the model the calls have its results. For `kfs_read_to_buffer`, which is
given one bound for the lookup and the copy, see `RecordsWrites`. -/
structure AgreesWithModel (s : State) : Prop where
  exist : ∀ path, (kfsExists s (walkFuel s) path).map Prod.fst = Kfs.kfsExists s path
  size : ∀ path, (kfsGetFileSize s (walkFuel s) path).map Prod.fst = Kfs.kfsGetFileSize s path
  list : ∀ path buffer maxEntries,
    (resolveDir s (walkFuel s) path).bind (fun r => r.1.elim (some (0, buffer)) fun d =>
      (listFrom s maxEntries (listFuel s maxEntries) d 0 buffer).map Prod.fst) =
        Kfs.kfsGetFileList s path buffer maxEntries
  delete : ∀ path, (kfsDeleteFile s (walkFuel s) path).map Prod.fst =
    (Kfs.kfsDeleteFile s path).map fun out => out.state

theorem agreesWithModel (s : State) : AgreesWithModel s :=
  ⟨kfsExists_fst s, kfsGetFileSize_fst s, kfsGetFileList_fst s, kfsDeleteFile_fst s⟩

end Kyuzen.Kfs.Touched
