import Kyuzen.Lib.Memory

/-!
# The kernel heap

`kernel/heap.c` on byte memory. A `heap_block_t` header is the 32 bytes the compiler lays
out: `magic` (4 bytes) at offset `0`, `size` (8) at `8`, `is_free` (1) at `16`, `next` (8) at
`24`. Pointers are addresses and `NULL` is `0`; pointer and `size_t` arithmetic is modulo
`2 ^ 64`. Walks over the list follow the `next` words in memory, so a broken list makes a
walk panic on a bad magic or run for ever; these are the two `Halt`s.

`vmm_alloc_page_kernel` maps one page of the heap zone or fails. Whether it fails is up to
the rest of the kernel (`Supply.grants`), except that it cannot succeed when every physical
page already backs the heap. What a fresh page contains is arbitrary (`Supply.stale`).
-/

namespace Kyuzen.Heap

open Lib.Memory

def heapMagic : Nat := 0xDEADC0DE

/-- `HEAP_START_VADDR`. -/
def heapStart : Nat := 0xFFFF900000000000

/-- `sizeof(heap_block_t)`. -/
def headerSize : Nat := 32

def pageSize : Nat := 4096

/-- Where the boot loader maps physical memory. -/
def hhdmStart : Nat := 0xFFFF800000000000

/-- The machine: its number of physical pages. The heap zone was placed outside the direct
map of physical memory, which therefore ends below it. -/
structure Machine where
  pages : Nat
  directMap : hhdmStart + pages * pageSize ≤ heapStart

structure State where
  mem : Mem
  heapHead : Nat
  currentHeapEnd : Nat
  /-- The heap pages mapped in the kernel address space. -/
  mapped : Finset Nat

/-- How a call that does not return ends. -/
inductive Halt where
  /-- `kernel_panic("HEAP CORRUPTION", "heap_block_t magic mismatch - header corrupt", block)` -/
  | panic (block : Nat)
  /-- a walk over a list that never reaches `NULL` -/
  | hang
  deriving DecidableEq, Repr

/-- What the page allocator does during one call: the answer to the `i`-th request of the
`k`-th expansion, and the contents of the fresh pages. -/
structure Supply where
  grants : Nat → Nat → Bool
  stale : Mem

/-! ## Headers in memory -/

def magicOf (m : Mem) (b : Nat) : Nat := load m b 4
def sizeOf (m : Mem) (b : Nat) : Nat := load m (b + 8) 8
def isFreeOf (m : Mem) (b : Nat) : Nat := load m (b + 16) 1
def nextOf (m : Mem) (b : Nat) : Nat := load m (b + 24) 8

def setMagic (m : Mem) (b v : Nat) : Mem := store m b 4 v
def setSize (m : Mem) (b v : Nat) : Mem := store m (b + 8) 8 v
def setIsFree (m : Mem) (b v : Nat) : Mem := store m (b + 16) 1 v
def setNext (m : Mem) (b v : Nat) : Mem := store m (b + 24) 8 v

def add64 (a b : Nat) : Nat := (a + b) % 2 ^ 64
def sub64 (a b : Nat) : Nat := (a + (2 ^ 64 - b)) % 2 ^ 64

/-- More steps than a list without repetition can have. -/
def walkFuel : Nat := 2 ^ 64

/-! ## Pages -/

/-- The page that holds `vaddr`. -/
def pageOf (vaddr : Nat) : Nat := vaddr / pageSize * pageSize

def vmmAllocPageKernel (M : Machine) (granted : Bool) (stale : Mem) (s : State)
    (vaddr : Nat) : Option State :=
  if granted = true ∧ s.mapped.card < M.pages then
    some { s with
      mapped := insert (pageOf vaddr) s.mapped
      mem := fill s.mem (pageOf vaddr) pageSize stale }
  else none

/-- `vmm_unmap_page_from` on the kernel PML4, and the frame given back. -/
def unmapPage (s : State) (vaddr : Nat) : State :=
  { s with mapped := s.mapped.erase (pageOf vaddr) }

/-! ## `init_heap` and `expand_heap` -/

/-- The heap at boot, over whatever memory holds. -/
def initHeap (mem : Mem) : State :=
  { mem := mem, heapHead := 0, currentHeapEnd := heapStart, mapped := ∅ }

/-- The loop that maps `count` pages from `current_heap_end` on; `false` when a page is
refused. -/
def mapPages (M : Machine) (grants : Nat → Bool) (stale : Mem) :
    Nat → Nat → State → State × Bool
  | 0, _, s => (s, true)
  | count + 1, i, s =>
    match vmmAllocPageKernel M (grants i) stale s s.currentHeapEnd with
    | none => (s, false)
    | some s' =>
      mapPages M grants stale count (i + 1)
        { s' with currentHeapEnd := add64 s'.currentHeapEnd pageSize }

/-- `for (j = 0; j < mapped; j += 4096)` of the rollback. -/
def unmapPages (start : Nat) : Nat → State → State
  | 0, s => s
  | count + 1, s => unmapPage (unmapPages start count s) (add64 start (count * pageSize))

/-- `while (curr->next != NULL) curr = curr->next`. -/
def lastBlock (m : Mem) : Nat → Nat → Except Halt Nat
  | 0, _ => .error .hang
  | fuel + 1, curr =>
    if nextOf m curr = 0 then .ok curr else lastBlock m fuel (nextOf m curr)

def pagesFor (totalSize : Nat) : Nat :=
  totalSize / pageSize + (if totalSize % pageSize = 0 then 0 else 1)

def expandHeap (M : Machine) (grants : Nat → Bool) (stale : Mem) (s : State)
    (requiredSize : Nat) : Except Halt (Nat × State) :=
  let pagesNeeded := pagesFor (add64 requiredSize headerSize)
  let start := s.currentHeapEnd
  match mapPages M grants stale pagesNeeded 0 s with
  | (s', false) =>
    -- roll back the pages mapped so far
    let mapped := sub64 s'.currentHeapEnd start
    .ok (0, { unmapPages start (pagesFor mapped) s' with currentHeapEnd := start })
  | (s', true) =>
    let m := setMagic s'.mem start heapMagic
    let m := setSize m start (sub64 (pagesNeeded * pageSize % 2 ^ 64) headerSize)
    let m := setIsFree m start 1
    let m := setNext m start 0
    if s'.heapHead = 0 then .ok (start, { s' with mem := m, heapHead := start })
    else do
      let curr ← lastBlock m walkFuel s'.heapHead
      return (start, { s' with mem := setNext m curr start })

/-! ## `kmalloc` -/

/-- The first free block of at least `size` bytes. -/
def findFit (m : Mem) (size : Nat) : Nat → Nat → Except Halt (Option Nat)
  | 0, _ => .error .hang
  | fuel + 1, current =>
    if current = 0 then .ok none
    else if magicOf m current ≠ heapMagic then .error (.panic current)
    else if isFreeOf m current ≠ 0 ∧ sizeOf m current ≥ size then .ok (some current)
    else findFit m size fuel (nextOf m current)

/-- Split a block that is larger than needed. -/
def splitBlock (m : Mem) (current size : Nat) : Mem :=
  if sizeOf m current > add64 (add64 size headerSize) 1 then
    let newBlock := add64 (add64 current headerSize) size
    let m' := setMagic m newBlock heapMagic
    let m' := setIsFree m' newBlock 1
    let m' := setSize m' newBlock (sub64 (sub64 (sizeOf m' current) size) headerSize)
    let m' := setNext m' newBlock (nextOf m' current)
    let m' := setNext m' current newBlock
    setSize m' current size
  else m

def takeBlock (m : Mem) (current size : Nat) : Mem :=
  setIsFree (splitBlock m current size) current 0

/-- `(size + 15) & ~15`. -/
def roundUp16 (size : Nat) : Nat := add64 size 15 / 16 * 16

/-- `kmalloc` and the calls it makes to itself after an expansion. -/
def kmallocFrom (M : Machine) (supply : Supply) :
    Nat → Nat → State → Nat → Except Halt (Nat × State)
  | 0, _, _, _ => .error .hang
  | fuel + 1, k, s, request =>
    if request = 0 then .ok (0, s)
    else do
      let size := roundUp16 request
      match ← findFit s.mem size walkFuel s.heapHead with
      | some current =>
        return (add64 current headerSize, { s with mem := takeBlock s.mem current size })
      | none =>
        let (fresh, s') ← expandHeap M (supply.grants k) supply.stale s size
        if fresh = 0 then return (0, s')
        else kmallocFrom M supply fuel (k + 1) s' size

/-- Every further call follows an expansion, which takes at least one physical page or makes
a block of the largest size there is. -/
def kmalloc (M : Machine) (supply : Supply) (s : State) (request : Nat) :
    Except Halt (Nat × State) :=
  kmallocFrom M supply (M.pages + 3) 0 s request

/-! ## `kfree` -/

/-- Merge neighbouring free blocks, from `current` on. -/
def coalesce : Nat → Mem → Nat → Except Halt Mem
  | 0, _, _ => .error .hang
  | fuel + 1, m, current =>
    if current = 0 then .ok m
    else if magicOf m current ≠ heapMagic then .error (.panic current)
    else
      let expectedNext := add64 (add64 current headerSize) (sizeOf m current)
      let next := nextOf m current
      if isFreeOf m current ≠ 0 ∧ next ≠ 0 ∧ isFreeOf m next ≠ 0 ∧ next = expectedNext then
        let m' := setSize m current (add64 (sizeOf m current) (add64 (sizeOf m next) headerSize))
        coalesce fuel (setNext m' current (nextOf m' next)) current
      else coalesce fuel m next

def kfree (s : State) (ptr : Nat) : Except Halt State :=
  if ptr = 0 then .ok s
  else
    let block := sub64 ptr headerSize
    if magicOf s.mem block ≠ heapMagic then .error (.panic block)
    else do
      let m ← coalesce walkFuel (setIsFree s.mem block 1) s.heapHead
      return { s with mem := m }

/-! ## `krealloc` -/

def krealloc (M : Machine) (supply : Supply) (s : State) (ptr oldSize newSize : Nat) :
    Except Halt (Nat × State) :=
  if newSize = 0 then do
    let s' ← kfree s ptr
    return (0, s')
  else if ptr = 0 then kmalloc M supply s newSize
  else do
    let (newPtr, s') ← kmalloc M supply s newSize
    if newPtr = 0 then return (0, s')
    else
      let copied := if oldSize < newSize then oldSize else newSize
      let s'' ← kfree { s' with mem := copy s'.mem newPtr ptr copied } ptr
      return (newPtr, s'')

end Kyuzen.Heap
