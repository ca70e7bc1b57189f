import Kyuzen.Lib.Bitmap

/-!
# The physical memory manager

The bitmap allocator of `kernel/pmm.c`: one bit per 4 KiB page, `0` for free and `1` for
used. The bitmap is the byte array `pmm_bitmap`, addressed as in `bitmap_set`,
`bitmap_clear_bit` and `bitmap_test` (byte `bit >> 3`, position `bit & 7`). Page numbers
and addresses are natural numbers; a `uint64_t` sum that can wrap is reduced modulo
`2 ^ 64` where the source computes it.

`pmm_lock` makes every operation one step, so an operation is a function on the state.
What the functions print is kept: `pmm_warn` reports a rejected free, and
`pmmFreePage` returns the report.
-/

namespace Kyuzen.Pmm

open Lib

def pageSize : Nat := 4096

/-- `PHYS_NULL`. -/
def physNull : Nat := 0

/-- The first 72 MiB: kernel, boot loader, firmware and framebuffer. -/
def kernelZone : Nat := 0x4800000

/-- `kernel_lock_pages`. -/
def kernelLockPages : Nat := kernelZone / pageSize

/-! ## The memory map handed over by the boot loader -/

/-- The types of `LIMINE_MEMMAP_*`. -/
inductive MemmapType where
  | usable
  | reserved
  | acpiReclaimable
  | acpiNvs
  | badMemory
  | bootloaderReclaimable
  | executableAndModules
  | framebuffer
  | reservedMapped
  deriving DecidableEq, Repr

/-- `struct limine_memmap_entry`. -/
structure MemmapEntry where
  base : UInt64
  length : UInt64
  type : MemmapType
  deriving DecidableEq, Repr

abbrev Memmap := List MemmapEntry

namespace MemmapEntry

/-- `e->base + e->length`, in 64 bits. -/
def stop (e : MemmapEntry) : Nat := (e.base.toNat + e.length.toNat) % 2 ^ 64

/-- The base rounded up to a page, in 64 bits. -/
def start (e : MemmapEntry) : Nat :=
  if e.base.toNat % pageSize ≠ 0 then
    (e.base.toNat + pageSize - 1) % 2 ^ 64 / pageSize * pageSize
  else e.base.toNat

end MemmapEntry

/-! ## State -/

structure State where
  /-- `pmm_bitmap != NULL` -/
  ready : Bool
  bitmap : Bitmap.Words 8
  bitmapBytes : Nat
  bitmapPages : Nat
  realTotalRam : Nat
  totalPages : Nat
  usedPages : Nat
  nextFreeHint : Nat

/-- Page `i` is marked used. -/
def State.used (p : State) (i : Nat) : Bool := Bitmap.test p.bitmap i

/-! ## `pmm_init_dynamic` -/

/-- Phase 1: the highest end of a usable entry. -/
def highestAddr (map : Memmap) : Nat :=
  map.foldl (fun highest e =>
    if e.type = .usable ∧ e.stop > highest then e.stop else highest) 0

/-- `pages_needed`, the later `bitmap_pages` and `total_pages`. -/
def pagesNeeded (map : Memmap) : Nat := highestAddr map / pageSize

/-- `alloc_bytes`: one bit per page, rounded up to whole pages. -/
def allocBytes (map : Memmap) : Nat :=
  ((pagesNeeded map + 7) / 8 + pageSize - 1) / pageSize * pageSize

def allocPages (map : Memmap) : Nat := allocBytes map / pageSize

/-- Phase 2 for one entry: where the bitmap would go in it. -/
def regionFor (bytes : Nat) (e : MemmapEntry) : Option Nat :=
  if e.type ≠ .usable then none
  else
    let base := if e.start < kernelZone then kernelZone else e.start
    if base ≥ e.stop then none
    else if e.stop - base ≥ bytes then some base
    else none

/-- Phase 2: the first usable region at or above 72 MiB that holds the bitmap. -/
def findBitmapRegion (map : Memmap) : Option Nat := map.findSome? (regionFor (allocBytes map))

/-- Step B for one entry, `for (addr = start; addr < end; addr += PAGE_SIZE)`. The fuel
is larger than the number of page addresses: a run that needs more has wrapped around
and never ends, which is `none`. -/
def freeLoop (pages stop : Nat) : Nat → Nat → Bitmap.Words 8 → Option (Bitmap.Words 8)
  | 0, _, _ => none
  | fuel + 1, addr, bm =>
    if addr < stop then
      freeLoop pages stop fuel ((addr + pageSize) % 2 ^ 64)
        (if addr / pageSize < pages then Bitmap.clear bm (addr / pageSize) else bm)
    else some bm

def freeFuel : Nat := 2 ^ 52 + 1

def freeEntry (pages : Nat) (bm : Bitmap.Words 8) (e : MemmapEntry) : Option (Bitmap.Words 8) :=
  if e.type ≠ .usable then some bm else freeLoop pages e.stop freeFuel e.start bm

/-- Step B: free the usable pages, entry by entry. -/
def freeUsable (pages : Nat) (bm : Bitmap.Words 8) (map : Memmap) : Option (Bitmap.Words 8) :=
  map.foldlM (freeEntry pages) bm

/-- Step A: every byte of the bitmap is `0xFF`. -/
def lockAll (bytes : Nat) : Bitmap.Words 8 := fun i => if i < bytes then 0xFF#8 else 0#8

/-- Step C: lock the first 72 MiB again. -/
def lockKernelZone (pages : Nat) (bm : Bitmap.Words 8) : Bitmap.Words 8 :=
  Bitmap.setRange bm 0 (min kernelLockPages pages)

/-- Step D: lock the pages that hold the bitmap. -/
def lockBitmap (pages bitmapPhys count : Nat) (bm : Bitmap.Words 8) : Bitmap.Words 8 :=
  Bitmap.setRange bm (bitmapPhys / pageSize) (min count (pages - bitmapPhys / pageSize))

/-- `for (i = 0; i < total_pages; i++) if (bitmap_test(i)) used_pages++`. -/
def countUsed (bm : Bitmap.Words 8) (total : Nat) : Nat :=
  (List.range total).countP (Bitmap.test bm)

/-- `none` where the source halts (no usable memory, no room for the bitmap) or loops
for ever. -/
def pmmInitDynamic (map : Memmap) : Option State :=
  if highestAddr map = 0 then none
  else do
    let bitmapPhys ← findBitmapRegion map
    let pages := pagesNeeded map
    let freed ← freeUsable pages (lockAll (allocBytes map)) map
    let bm := lockBitmap pages bitmapPhys (allocPages map) (lockKernelZone pages freed)
    let total := min (highestAddr map / pageSize) pages
    return {
      ready := true
      bitmap := bm
      bitmapBytes := allocBytes map
      bitmapPages := pages
      realTotalRam := highestAddr map
      totalPages := total
      usedPages := countUsed bm total
      nextFreeHint := kernelLockPages }

/-! ## `pmm_alloc_page` -/

/-- The body of both scans once page `i` is found free. -/
def State.take (p : State) (i : Nat) : State :=
  { p with
    bitmap := Bitmap.set p.bitmap i
    usedPages := p.usedPages + 1
    nextFreeHint := i + 1 }

def pmmAllocPage (p : State) : Nat × State :=
  if p.ready = false then (physNull, p)
  else
    -- phase 1: hint → end
    match Bitmap.scanClear p.bitmap p.nextFreeHint p.totalPages with
    | some i => (i * pageSize % 2 ^ 64, p.take i)
    | none =>
      -- phase 2: wrap 0 → hint
      let wrapEnd := if p.nextFreeHint < p.totalPages then p.nextFreeHint else p.totalPages
      match Bitmap.scanClear p.bitmap 0 wrapEnd with
      | some i => (i * pageSize % 2 ^ 64, p.take i)
      | none => (physNull, p)

/-! ## `pmm_free_page` -/

/-- The reports of `pmm_warn`. -/
inductive Warning where
  | freeNull
  | freeUnaligned
  | freeOutOfRange
  | freeLowReserved
  | doubleFree
  deriving DecidableEq, Repr

/-- The text printed before the address. -/
def Warning.text : Warning → String
  | .freeNull => "[PMM] free NULL: "
  | .freeUnaligned => "[PMM] free unaligned: "
  | .freeOutOfRange => "[PMM] free out-of-range: "
  | .freeLowReserved => "[PMM] free low-reserved (BUG, ditolak): "
  | .doubleFree => "[PMM] double-free: "

/-- The state after an accepted free of page `bit`. -/
def State.release (p : State) (bit : Nat) : State :=
  { p with
    bitmap := Bitmap.clear p.bitmap bit
    usedPages := if p.usedPages > 0 then p.usedPages - 1 else p.usedPages
    nextFreeHint := if bit < p.nextFreeHint then bit else p.nextFreeHint }

/-- The warning printed, if any, and the new state: a free is accepted when nothing is
printed. -/
def pmmFreePage (p : State) (addr : Nat) : Option Warning × State :=
  if addr = physNull then (some .freeNull, p)
  else if addr % pageSize ≠ 0 then (some .freeUnaligned, p)
  else
    let bit := addr / pageSize
    if p.ready = false ∨ bit ≥ p.bitmapPages then (some .freeOutOfRange, p)
    else if addr < kernelZone then (some .freeLowReserved, p)
    else if p.used bit = false then (some .doubleFree, p)
    else (none, p.release bit)

/-! ## `pmm_owns_page` and the statistics -/

def pmmOwnsPage (p : State) (addr : Nat) : Bool :=
  if addr = physNull ∨ addr % pageSize ≠ 0 then false
  else if p.ready = false then false
  else if addr / pageSize ≥ p.bitmapPages then false
  else p.used (addr / pageSize)

def pmmGetUsedPages (p : State) : Nat := p.usedPages

def pmmGetTotalPages (p : State) : Nat := p.totalPages

def pmmGetUsedRam (p : State) : Nat := pmmGetUsedPages p * pageSize % 2 ^ 64

def pmmGetTotalRam (p : State) : Nat := p.realTotalRam

def pmmGetFreeRam (p : State) : Nat :=
  if pmmGetTotalRam p > pmmGetUsedRam p then pmmGetTotalRam p - pmmGetUsedRam p else 0

end Kyuzen.Pmm
