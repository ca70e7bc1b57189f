import Kyuzen.Lib.Memory

/-!
# KyuzenFS

`kernel/kyuzenfs.c` over a disk of 512-byte sectors. Sector `0` holds the header, the next
`fat_sectors_needed` sectors the FAT, then comes the root directory. A file or a directory is
a chain of sectors linked through the FAT; a directory sector holds sixteen 32-byte entries.
The structures are the packed ones of `kyuzenfs.h`, and every read and write of a sector goes
through their bytes.

Walks over a chain follow the FAT for as long as it leads, so they run for ever on a cyclic
chain: a call that does not return is `none`. Bytes the code leaves uninitialised (the stack
behind a short name, the FAT buffer behind its last entry) are arguments.
-/

namespace Kyuzen.Kfs

open Lib.Memory

def fatFree : Nat := 0x00000000
def fatEof : Nat := 0xFFFFFFFF

def flagEmpty : UInt8 := 0x00
def flagFile : UInt8 := 0x01
def flagFolder : UInt8 := 0x02

/-- What `ata_get_total_sectors` reports. The drive is addressed with 28-bit sector numbers. -/
structure Drive where
  sectors : Nat
  lba28 : sectors < 2 ^ 28

/-- `kfs_header_t`. -/
structure Header where
  magic : Fin 4 → UInt8
  rootDirSector : Nat
  totalFiles : Nat
  padding : Fin 500 → UInt8

/-- `kfs_file_entry_t`. -/
structure Entry where
  filename : Fin 23 → UInt8
  flags : UInt8
  startSector : Nat
  sizeBytes : Nat
  deriving DecidableEq

structure State where
  /-- The sectors of the disk; the bytes of one stand at offsets below 512. -/
  disk : Nat → Mem
  currentFs : Header
  fatTable : Nat → Nat
  totalDiskSectors : Nat
  fatSectorsNeeded : Nat

/-- A C string without its terminator. -/
abbrev CStr : Type := List UInt8

/-! ## Bytes -/

def encodeHeader (h : Header) : Mem := fun x =>
  if hm : x < 4 then h.magic ⟨x, hm⟩
  else if hp : 12 ≤ x ∧ x < 512 then h.padding ⟨x - 12, by omega⟩
  else store (store (fun _ => 0) 4 4 h.rootDirSector) 8 4 h.totalFiles x

def decodeHeader (b : Mem) : Header where
  magic i := b i
  rootDirSector := load b 4 4
  totalFiles := load b 8 4
  padding i := b (12 + i)

/-- The 512 bytes of the FAT from entry `128 * k` on. -/
def encodeFat (fat : Nat → Nat) (k : Nat) : Mem := fun x =>
  if x < 512 then UInt8.ofNat (fat (128 * k + x / 4) / 256 ^ (x % 4)) else 0

/-- `entries[i]`. -/
def entryAt (b : Mem) (i : Nat) : Entry where
  filename j := b (32 * i + j)
  flags := b (32 * i + 23)
  startSector := load b (32 * i + 24) 4
  sizeBytes := load b (32 * i + 28) 4

/-- `entries[i] = e`. -/
def putEntry (b : Mem) (i : Nat) (e : Entry) : Mem :=
  let b := fill b (32 * i) 23 fun x => if h : x - 32 * i < 23 then e.filename ⟨x - 32 * i, h⟩ else 0
  let b := Function.update b (32 * i + 23) e.flags
  store (store b (32 * i + 24) 4 e.startSector) (32 * i + 28) 4 e.sizeBytes

/-- `strcmp(a, name) == 0`. -/
def strcmpEq (a : Nat → UInt8) : CStr → Bool
  | [] => a 0 == 0
  | c :: name => a 0 == c && strcmpEq (fun j => a (j + 1)) name

/-! ## The disk and the FAT -/

def ataWriteSector (s : State) (sector : Nat) (b : Mem) : State :=
  { s with disk := Function.update s.disk sector b }

def setFat (s : State) (i v : Nat) : State :=
  { s with fatTable := Function.update s.fatTable i v }

def kfsSyncFat (s : State) (fatIndex : Nat) : State :=
  if fatIndex ≥ s.totalDiskSectors then s
  else ataWriteSector s (1 + fatIndex / 128) (encodeFat s.fatTable (fatIndex / 128))

/-- Write the header back to sector 0. -/
def writeHeader (s : State) : State := ataWriteSector s 0 (encodeHeader s.currentFs)

/-- The first free entry among the `count` ones from `i` on, or `0`. -/
def scanFree (fat : Nat → Nat) : Nat → Nat → Nat
  | 0, _ => 0
  | count + 1, i => if fat i = fatFree then i else scanFree fat count (i + 1)

def findFreeSector (s : State) : Nat :=
  scanFree s.fatTable (s.totalDiskSectors - (s.currentFs.rootDirSector + 1))
    (s.currentFs.rootDirSector + 1)

/-! ## Directories -/

/-- The first entry of a directory sector that is in use under `name`. -/
def findInSector (b : Mem) (name : CStr) : Option Nat :=
  (List.range 16).find? fun i =>
    (entryAt b i).flags ≠ flagEmpty && strcmpEq (fun j => b (32 * i + j)) name

/-- The walk of `find_entry_in`. -/
def findEntryFrom (s : State) (name : CStr) : Nat → Nat → Option (Option (Entry × Nat × Nat))
  | 0, _ => none
  | fuel + 1, currSec =>
    if currSec = fatEof ∨ currSec = fatFree then some none
    else
      match findInSector (s.disk currSec) name with
      | some i => some (some (entryAt (s.disk currSec) i, currSec, i))
      | none => findEntryFrom s name fuel (s.fatTable currSec)

/-- A chain without repetition ends within so many steps. -/
def walkFuel (s : State) : Nat := s.totalDiskSectors + 1

/-- The entry called `name` in the directory at `dirSector`, with its sector and index. -/
def findEntryIn (s : State) (dirSector : Nat) (name : CStr) :
    Option (Option (Entry × Nat × Nat)) :=
  if dirSector < 2 then some none else findEntryFrom s name (walkFuel s) dirSector

def emptyInSector (b : Mem) : Option Nat :=
  (List.range 16).find? fun i => (entryAt b i).flags = flagEmpty

/-- The walk of `insert_dir_entry`: the first empty slot, and the last full sector before it. -/
def findEmptyFrom (s : State) : Nat → Nat → Nat → Option (Option (Nat × Nat) × Nat)
  | 0, _, _ => none
  | fuel + 1, dirSec, lastSec =>
    if dirSec = fatEof ∨ dirSec = fatFree then some (none, lastSec)
    else
      match emptyInSector (s.disk dirSec) with
      | some i => some (some (dirSec, i), lastSec)
      | none => findEmptyFrom s fuel (s.fatTable dirSec) dirSec

/-- `entries[idx] = *new_entry`, terminate its name, write the sector. -/
def writeEntry (s : State) (sector : Nat) (b : Mem) (idx : Nat) (e : Entry) : State :=
  ataWriteSector s sector (Function.update (putEntry b idx e) (32 * idx + 22) 0)

def insertDirEntry (s : State) (dirSec : Nat) (e : Entry) : Option (Bool × State) := do
  let (slot, lastSec) ← findEmptyFrom s (walkFuel s) dirSec dirSec
  match slot with
  | some (sector, idx) => return (true, writeEntry s sector (s.disk sector) idx e)
  | none =>
    -- the chain is full: link a new sector
    let newSec := findFreeSector s
    if newSec = 0 then return (false, s)
    else
      let s := setFat s lastSec newSec
      let s := setFat s newSec fatEof
      let s := kfsSyncFat (kfsSyncFat s lastSec) newSec
      return (true, writeEntry s newSec (fun _ => flagEmpty) 0 e)

/-! ## Paths -/

def slash : UInt8 := 47

/-- `resolve_dir_nolock` on the rest of a path, from directory `dirSec`; the inner `none` is
the return value 0. -/
def resolveFrom (s : State) : Nat → CStr → Nat → Option (Option Nat)
  | 0, _, _ => none
  | fuel + 1, path, dirSec =>
    match path.dropWhile (· == slash) with
    | [] => some (some dirSec)
    | c :: rest =>
      let comp := (c :: rest).takeWhile (· != slash)
      if comp.length > 22 then some none
      else do
        match ← findEntryIn s dirSec comp with
        | none => return none
        | some (e, _, _) =>
          if e.flags ≠ flagFolder then return none
          else resolveFrom s fuel ((c :: rest).dropWhile (· != slash)) e.startSector

def resolveDir (s : State) (path : CStr) : Option (Option Nat) :=
  resolveFrom s (path.length + 1) path s.currentFs.rootDirSector

/-- What stands behind the last `/`. -/
def lastName (path : CStr) : CStr := (path.reverse.takeWhile (· != slash)).reverse

/-- The bytes before the last `/`, at most 127 of them. -/
def parentPath (path : CStr) : CStr :=
  (path.take (path.length - (lastName path).length - 1)).take 127

/-- The sector of the parent directory and the last component. -/
def splitLast (s : State) (path : CStr) : Option (Option (Nat × CStr)) :=
  let name := lastName path
  if name = [] then some none
  else do
    match ← resolveDir s (parentPath path) with
    | none => return none
    | some sec => return some (sec, name)

/-! ## `kfs_format` and `kfs_init` -/

def totalSectors (drive : Drive) : Nat := if drive.sectors = 0 then 204800 else drive.sectors

def fatSectors (drive : Drive) : Nat := (totalSectors drive * 4 % 2 ^ 32 + 511) % 2 ^ 32 / 512

/-- `fat_table[i] = FAT_EOF` for every `i` below `n`. -/
def markEof (fat : Nat → Nat) : Nat → Nat → Nat
  | 0 => fat
  | n + 1 => Function.update (markEof fat n) n fatEof

/-- The FAT sectors `0 .. n - 1` are written. -/
def flushFat (s : State) : Nat → State
  | 0 => s
  | n + 1 => ataWriteSector (flushFat s n) (1 + n) (encodeFat s.fatTable n)

/-- `kfs_format`; `stale` is what the FAT buffer held. -/
def kfsFormat (drive : Drive) (stale : Nat → UInt32) (s : State) : State :=
  let total := totalSectors drive
  let needed := fatSectors drive
  let header : Header := { s.currentFs with
    magic := ![75, 90, 70, 83]
    rootDirSector := 1 + needed
    totalFiles := 0 }
  let fat : Nat → Nat := fun i =>
    if i < total then fatFree else if i < 128 * needed then (stale i).toNat else 0
  let fat := Function.update (markEof fat (needed + 1)) header.rootDirSector fatEof
  let s : State := { s with
    currentFs := header
    fatTable := fat
    totalDiskSectors := total
    fatSectorsNeeded := needed }
  ataWriteSector (flushFat (writeHeader s) needed) header.rootDirSector fun _ => flagEmpty

/-- The FAT as its sectors on the disk hold it. -/
def readFat (disk : Nat → Mem) (needed : Nat) : Nat → Nat := fun i =>
  if i < 128 * needed then load (disk (1 + i / 128)) (4 * (i % 128)) 4 else 0

/-- `kfs_init` on the disk contents of `s`. -/
def kfsInit (drive : Drive) (stale : Nat → UInt32) (s : State) : State :=
  let header := decodeHeader (s.disk 0)
  let s := { s with currentFs := header }
  if header.magic 0 ≠ 75 ∨ header.magic 1 ≠ 90 then kfsFormat drive stale s
  else
    { s with
      fatTable := readFat s.disk (fatSectors drive)
      totalDiskSectors := totalSectors drive
      fatSectorsNeeded := fatSectors drive }

/-! ## Files -/

/-- How a call ends: its return value, what it prints, and the state it leaves. -/
structure Outcome where
  ret : Nat
  printed : String
  state : State

def sectorsNeeded (size : Nat) : Nat := if size = 0 then 1 else (size + 511) % 2 ^ 32 / 512

/-- The chunk of at most 512 bytes at `offset`, padded with zeros. -/
def chunkAt (data : Nat → UInt8) (offset chunkSize : Nat) : Mem := fun j =>
  if j < chunkSize then data (offset + j) else 0

/-- The allocation loop of `kfs_create_file`: `count` more sectors, linked behind
`prevSector`. The start sector is missing from the result when the disk is full. -/
def writeChunks (data : Nat → UInt8) :
    Nat → State → Nat → Nat → Nat → Nat → Option Nat × State
  | 0, s, startSector, _, _, _ => (some startSector, s)
  | count + 1, s, startSector, prevSector, offset, remaining =>
    let freeSec := findFreeSector s
    if freeSec = 0 then (none, s)
    else
      let s := setFat s freeSec fatEof
      let s := if startSector = 0 then s else kfsSyncFat (setFat s prevSector freeSec) prevSector
      let s := kfsSyncFat s freeSec
      let chunkSize := if remaining > 512 then 512 else remaining
      let s := ataWriteSector s freeSec (chunkAt data offset chunkSize)
      writeChunks data count s (if startSector = 0 then freeSec else startSector) freeSec
        (offset + chunkSize) (remaining - chunkSize)

/-- The name field of a new entry: at most 22 bytes, a terminator, and what the stack held. -/
def newFilename (stale : Nat → UInt8) (name : CStr) : Fin 23 → UInt8 := fun j =>
  if j.val = 22 then 0
  else if h : j.val < name.length then name.get ⟨j.val, h⟩
  else if j.val = name.length then 0
  else stale j

/-- Set the number of files and write the header back. -/
def setTotalFiles (s : State) (n : Nat) : State :=
  writeHeader { s with currentFs := { s.currentFs with totalFiles := n } }

/-- `current_fs.total_files++` and the header written. -/
def addFile (s : State) : State := setTotalFiles s ((s.currentFs.totalFiles + 1) % 2 ^ 32)

/-- `current_fs.total_files--` and the header written. -/
def removeFile (s : State) : State :=
  setTotalFiles s ((s.currentFs.totalFiles + (2 ^ 32 - 1)) % 2 ^ 32)

def kfsCreateFile (drive : Drive) (staleFat : Nat → UInt32) (stale : Nat → UInt8) (s : State)
    (path : CStr) (data : Nat → UInt8) (size : Nat) : Option Outcome := do
  let s := if s.currentFs.rootDirSector < 2 then kfsFormat drive staleFat s else s
  match ← splitLast s path with
  | none => return ⟨0, "", s⟩
  | some (parentSec, name) =>
    match ← findEntryIn s parentSec name with
    | some _ => return ⟨0, "Error: File sudah ada!\n", s⟩
    | none =>
      match writeChunks data (sectorsNeeded size) s 0 0 0 size with
      | (none, s) => return ⟨0, "Error: Disk Penuh!\n", s⟩
      | (some startSector, s) =>
        let (inserted, s) ← insertDirEntry s parentSec
          ⟨newFilename stale name, flagFile, startSector, size⟩
        if inserted then return ⟨1, "", addFile s⟩ else return ⟨0, "", s⟩

/-- Give every sector of a chain back. -/
def freeChain : Nat → State → Nat → Option State
  | 0, _, _ => none
  | fuel + 1, s, curr =>
    if curr = fatEof ∨ curr = fatFree then some s
    else freeChain fuel (kfsSyncFat (setFat s curr fatFree) curr) (s.fatTable curr)

/-- `entries[idx].flags = FLAG_EMPTY`. -/
def clearEntry (s : State) (sector idx : Nat) : State :=
  ataWriteSector s sector (Function.update (s.disk sector) (32 * idx + 23) flagEmpty)

def kfsDeleteFile (s : State) (path : CStr) : Option Outcome := do
  match ← splitLast s path with
  | none => return ⟨0, "", s⟩
  | some (parentSec, name) =>
    match ← findEntryIn s parentSec name with
    | none => return ⟨0, "Error: File tidak ada!\n", s⟩
    | some (entry, dirSec, dirIdx) =>
      if entry.flags = flagFolder then return ⟨0, "Error: Folder tidak bisa dihapus!\n", s⟩
      else
        let s ← freeChain (walkFuel s) s entry.startSector
        return ⟨0, "[OK] File dihapus!\n", removeFile (clearEntry s dirSec dirIdx)⟩

def kfsExists (s : State) (path : CStr) : Option Nat := do
  match ← splitLast s path with
  | none => return 0
  | some (parentSec, name) =>
    match ← findEntryIn s parentSec name with
    | none => return 0
    | some _ => return 1

def kfsGetFileSize (s : State) (path : CStr) : Option Nat := do
  match ← splitLast s path with
  | none => return 0
  | some (parentSec, name) =>
    match ← findEntryIn s parentSec name with
    | none => return 0
    | some (entry, _, _) => return entry.sizeBytes

/-- The copy loop of `kfs_read_to_buffer`. -/
def readChunks (s : State) : Nat → Mem → Nat → Nat → Nat → Option Mem
  | 0, _, _, _, _ => none
  | fuel + 1, buffer, curr, offset, remaining =>
    if curr = fatEof ∨ curr = fatFree ∨ remaining = 0 then some buffer
    else
      let chunk := if remaining > 512 then 512 else remaining
      readChunks s fuel (fill buffer offset chunk fun x => s.disk curr (x - offset))
        (s.fatTable curr) (offset + chunk) (remaining - chunk)

/-- The copy loop ends with the bytes, also on a chain that does not end. -/
def copyFuel (size : Nat) : Nat := size / 512 + 2

/-- The return value, and the caller's buffer afterwards. -/
def kfsReadToBuffer (s : State) (path : CStr) (buffer : Mem) (capacity : Nat) :
    Option (Nat × Mem) := do
  match ← splitLast s path with
  | none => return (0, buffer)
  | some (parentSec, name) =>
    match ← findEntryIn s parentSec name with
    | none => return (0, buffer)
    | some (entry, _, _) =>
      if entry.sizeBytes > capacity then return (0, buffer)
      else
        let buffer ← readChunks s (copyFuel entry.sizeBytes) buffer entry.startSector 0
          entry.sizeBytes
        return (1, buffer)

def kfsCreateFolder (stale : Nat → UInt8) (s : State) (path : CStr) : Option Outcome := do
  match ← splitLast s path with
  | none => return ⟨0, "", s⟩
  | some (parentSec, name) =>
    match ← findEntryIn s parentSec name with
    | some _ => return ⟨0, "Error: Folder sudah ada!\n", s⟩
    | none =>
      let newSec := findFreeSector s
      if newSec = 0 then return ⟨0, "Error: Disk Penuh!\n", s⟩
      else
        let s := kfsSyncFat (setFat s newSec fatEof) newSec
        let s := ataWriteSector s newSec fun _ => flagEmpty
        let (inserted, s) ← insertDirEntry s parentSec
          ⟨newFilename stale name, flagFolder, newSec, 0⟩
        if inserted then return ⟨1, "", addFile s⟩
        else return ⟨0, "", setFat s newSec fatFree⟩

end Kyuzen.Kfs
