import Mathlib

/-!
# The ATA driver

`drivers/ata.c` as the accesses to the ports that it makes, and the drive behind the ports. How long
the drive is busy after a command and after the data of a write, counted in accesses, and whether it
fails a command, before its data, is given by `Reply`; a register that is written while BSY or DRQ
is set keeps its value. A sector is 256 words. What has been written is in the cache of the drive
(`view`), which may bring it to the disk itself at any time, and does so at the latest at a CACHE
FLUSH. So the model has all that a sector of the disk itself may hold (`platter`).
-/

namespace Kyuzen.Ata

/-- What a sector holds. -/
abbrev Sector : Type := { words : List UInt16 // words.length = 256 }

inductive Fault
  | err
  | df
  deriving DecidableEq

/-- What the drive makes of a command. -/
structure Reply where
  busy : Nat
  fault : Option Fault
  busyAfterData : Nat

/-- The data that the drive waits for, or holds ready. -/
inductive Phase
  | idle
  | reading (lba k : Nat)
  | writing (lba busyAfterData : Nat) (words : List UInt16)
  deriving DecidableEq

structure Disk where
  busy : Nat
  fault : Option Fault
  phase : Phase
  drive : UInt8
  count : UInt8
  lo : UInt8
  mid : UInt8
  hi : UInt8
  commands : Nat
  view : Nat → Sector
  platter : Nat → List Sector

namespace Disk

/-! ## The drive -/

/-- An access to a port takes its time. -/
def tick (d : Disk) : Disk := { d with busy := d.busy - 1 }

def status (d : Disk) : UInt8 :=
  if d.busy ≠ 0 then 0x80
  else
    match d.fault with
    | some .err => 0x41
    | some .df => 0x60
    | none => if d.phase = .idle then 0x40 else 0x48

/-- The sector that the registers select. -/
def address (d : Disk) : Nat :=
  (d.drive &&& 0x0F).toNat * 2 ^ 24 + d.hi.toNat * 2 ^ 16 + d.mid.toNat * 2 ^ 8 + d.lo.toNat

/-- READ SECTORS and WRITE SECTORS of one sector, and CACHE FLUSH. -/
def execute (reply : Nat → Reply) (command : UInt8) (d : Disk) : Disk :=
  let r := reply d.commands
  let d := { d with commands := d.commands + 1, busy := r.busy, fault := r.fault }
  if r.fault ≠ none then d
  else if command = 0x20 ∧ d.count = 1 then { d with phase := .reading d.address 0 }
  else if command = 0x30 ∧ d.count = 1 then
    { d with phase := .writing d.address r.busyAfterData [] }
  else if command = 0xE7 then { d with platter := fun lba => [d.view lba] }
  else d

end Disk

open Disk

/-! ## The ports -/

/-- `inb` of the status and of the alternate status. -/
def inb (d : Disk) : UInt8 × Disk := (d.status, d.tick)

def outb (reply : Nat → Reply) (port : Nat) (v : UInt8) (d : Disk) : Disk :=
  if d.busy ≠ 0 ∨ d.phase ≠ .idle then d.tick
  else if port = 0x1F2 then { d with count := v }
  else if port = 0x1F3 then { d with lo := v }
  else if port = 0x1F4 then { d with mid := v }
  else if port = 0x1F5 then { d with hi := v }
  else if port = 0x1F6 then { d with drive := v }
  else if port = 0x1F7 then d.execute reply v
  else d

/-- `inw` of the data. -/
def inw (d : Disk) : UInt16 × Disk :=
  match d.phase with
  | .reading lba k =>
    if d.busy ≠ 0 then (0xFFFF, d.tick)
    else
      let phase := if k + 1 = 256 then .idle else .reading lba (k + 1)
      ((d.view lba).1.getD k 0, { d with phase := phase })
  | _ => (0xFFFF, d.tick)

/-- `outw` of the data. After the last word the drive writes the sector. -/
def outw (w : UInt16) (d : Disk) : Disk :=
  match d.phase with
  | .writing lba after words =>
    if d.busy ≠ 0 then d.tick
    else if h : (words ++ [w]).length = 256 then
      let sector : Sector := ⟨words ++ [w], h⟩
      { d with
        view := Function.update d.view lba sector
        platter := Function.update d.platter lba (d.platter lba ++ [sector])
        phase := .idle
        busy := after }
    else { d with phase := .writing lba after (words ++ [w]) }
  | _ => d.tick

/-! ## The driver -/

def ataDelay400ns (d : Disk) : Disk := (inb (inb (inb (inb d).2).2).2).2

/-- The loop of `ata_wait_bsy`. -/
def waitBsy : Nat → Disk → Int × Disk
  | 0, d => (-1, d)
  | n + 1, d =>
    let (status, d) := inb d
    if status &&& 0x80 = 0 then (0, d) else waitBsy n d

def ataWaitBsy : Disk → Int × Disk := waitBsy 100000

/-- The loop of `ata_wait_drq`. -/
def waitDrq : Nat → Disk → Int × Disk
  | 0, d => (-3, d)
  | n + 1, d =>
    let (status, d) := inb d
    if status &&& 0x01 ≠ 0 then (-1, d)
    else if status &&& 0x20 ≠ 0 then (-2, d)
    else if status &&& 0x80 = 0 ∧ status &&& 0x08 ≠ 0 then (0, d)
    else waitDrq n d

def ataWaitDrq : Disk → Int × Disk := waitDrq 100000

/-- The beginning of both functions, up to the command. -/
def selectSector (reply : Nat → Reply) (lba : Nat) (d : Disk) : Disk :=
  let d := (ataWaitBsy d).2
  let d := outb reply 0x1F6 (0xE0 ||| UInt8.ofNat (lba / 2 ^ 24 % 16)) d
  let d := ataDelay400ns d
  let d := outb reply 0x1F2 1 d
  let d := outb reply 0x1F3 (UInt8.ofNat lba) d
  let d := outb reply 0x1F4 (UInt8.ofNat (lba / 2 ^ 8)) d
  outb reply 0x1F5 (UInt8.ofNat (lba / 2 ^ 16)) d

/-- `n` words from the data port. -/
def inWords : Nat → Disk → List UInt16 × Disk
  | 0, d => ([], d)
  | n + 1, d =>
    let (w, d) := inw d
    let (ws, d) := inWords n d
    (w :: ws, d)

/-- The buffer afterwards, as 256 words. -/
def ataReadSector (reply : Nat → Reply) (lba : Nat) (d : Disk) : List UInt16 × Disk :=
  let d := selectSector reply lba d
  let d := outb reply 0x1F7 0x20 d
  let d := ataDelay400ns d
  let (err, d) := ataWaitDrq d
  if err ≠ 0 then (List.replicate 256 0, d) else inWords 256 d

def ataWriteSector (reply : Nat → Reply) (lba : Nat) (buffer : Sector) (d : Disk) : Disk :=
  let d := selectSector reply lba d
  let d := outb reply 0x1F7 0x30 d
  let d := ataDelay400ns d
  let (err, d) := ataWaitDrq d
  if err ≠ 0 then d
  else
    let d := buffer.1.foldl (fun d w => outw w d) d
    let d := outb reply 0x1F7 0xE7 d
    let d := ataDelay400ns d
    (ataWaitBsy d).2

end Kyuzen.Ata
