import Kyuzen.Lib.Radix
import Kyuzen.Pmm.Model

/-!
# The virtual memory manager

`kernel/paging.c`: four levels of page tables (PML4, PDPT, PD, PT) of 512 entries each, in
frames from the physical memory manager. The source reaches a table through the direct map at
`hhdm_offset`; here `mem` gives the entries of the table at a physical address, and
`PHYS_TO_VIRT` and `VIRT_TO_PHYS` disappear. Entries and addresses are 64-bit numbers on which
only masks, shifts and bit tests are computed.

`paging_lock` makes every operation one step. What `pmm_warn` prints is kept in `warnings`.
`invlpg` and the reload of CR3 only concern the processor's cache of these tables.
-/

namespace Kyuzen.Paging

open Lib.Radix

structure State where
  pmm : Pmm.State
  mem : Nat → Fin 512 → Nat
  /-- `current_pml4`, as a physical address; `none` before `init_paging`. -/
  currentPml4 : Option Nat
  kernelPml4Phys : Nat
  warnings : List Pmm.Warning

/-! ## Entries and indices -/

/-- `e & PAGE_MASK`. -/
def pageMask (e : Nat) : Nat := e / 4096 * 4096

/-- `e & 1`. -/
def present (e : Nat) : Bool := e.testBit 0

/-- `e & (1ULL << 7)`. -/
def huge (e : Nat) : Bool := e.testBit 7

def pml4Idx (va : Nat) : Fin 512 := ⟨va / 2 ^ 39 % 512, Nat.mod_lt _ (by decide)⟩
def pdptIdx (va : Nat) : Fin 512 := ⟨va / 2 ^ 30 % 512, Nat.mod_lt _ (by decide)⟩
def pdIdx (va : Nat) : Fin 512 := ⟨va / 2 ^ 21 % 512, Nat.mod_lt _ (by decide)⟩
def ptIdx (va : Nat) : Fin 512 := ⟨va / 2 ^ 12 % 512, Nat.mod_lt _ (by decide)⟩

/-- The indices 256 .. 511 of the kernel's half of a PML4. -/
def higherHalf : List (Fin 512) := (List.finRange 512).filter (256 ≤ ·.val)

/-- The indices 0 .. 255. -/
def lowerHalf : List (Fin 512) := (List.finRange 512).filter (·.val < 256)

/-! ## Frames and entries -/

def setEntry (s : State) (table : Nat) (i : Fin 512) (e : Nat) : State :=
  { s with mem := write s.mem table i e }

/-- `pmm_alloc_page`. -/
def allocPage (s : State) : Nat × State :=
  ((Pmm.pmmAllocPage s.pmm).1, { s with pmm := (Pmm.pmmAllocPage s.pmm).2 })

/-- `pmm_free_page`. -/
def freePage (s : State) (addr : Nat) : State :=
  { s with
    pmm := (Pmm.pmmFreePage s.pmm addr).2
    warnings := s.warnings ++ (Pmm.pmmFreePage s.pmm addr).1.toList }

/-- `if (pmm_owns_page(addr)) pmm_free_page(addr)`. -/
def freeOwned (s : State) (addr : Nat) : State :=
  if Pmm.pmmOwnsPage s.pmm addr then freePage s addr else s

/-- A zeroed frame, or nothing when memory is exhausted. -/
def allocPageVirt (s : State) : Option Nat × State :=
  let (phys, s) := allocPage s
  if phys = Pmm.physNull then (none, s)
  else (some phys, { s with mem := Function.update s.mem phys fun _ => 0 })

/-- One entry of the loop of `init_paging`; `none` is the kernel panic. -/
def populate (s : State) (i : Fin 512) : Option State :=
  if present (s.mem s.kernelPml4Phys i) then some s
  else
    match allocPageVirt s with
    | (none, _) => none
    | (some pdpt, s) => some (setEntry s s.kernelPml4Phys i (pdpt ||| 7))

def initPaging (cr3 : Nat) (s : State) : Option State :=
  higherHalf.foldlM populate
    { s with currentPml4 := some (pageMask cr3), kernelPml4Phys := pageMask cr3 }

/-! ## Mapping -/

/-- The table behind entry `i` of `table`, which is allocated if there is none. -/
def nextTable (s : State) (table : Nat) (i : Fin 512) : Option Nat × State :=
  if present (s.mem table i) then (some (pageMask (s.mem table i)), s)
  else
    match allocPageVirt s with
    | (none, s) => (none, s)
    | (some phys, s) =>
      let s := setEntry s table i (phys ||| 7)
      (some (pageMask (s.mem table i)), s)

/-- The common body of `vmm_map_page_into` and `vmm_map_page`. -/
def mapPage (s : State) (va paddr flags pml4 : Nat) : Bool × State :=
  match nextTable s pml4 (pml4Idx va) with
  | (none, s) => (false, s)
  | (some pdpt, s) =>
    if huge (s.mem pdpt (pdptIdx va)) then (false, s)
    else
      match nextTable s pdpt (pdptIdx va) with
      | (none, s) => (false, s)
      | (some pd, s) =>
        if huge (s.mem pd (pdIdx va)) then (false, s)
        else
          match nextTable s pd (pdIdx va) with
          | (none, s) => (false, s)
          | (some pt, s) => (true, setEntry s pt (ptIdx va) (pageMask paddr ||| flags))

def vmmMapPageInto (s : State) (va paddr flags target : Nat) : Bool × State :=
  if target = Pmm.physNull then (false, s) else mapPage s va paddr flags target

def vmmMapPage (s : State) (va paddr flags : Nat) : Bool × State :=
  match s.currentPml4 with
  | none => (false, s)
  | some pml4 => mapPage s va paddr flags pml4

def vmmMapPageKernel (s : State) (va paddr flags : Nat) : Bool × State :=
  vmmMapPageInto s va paddr flags s.kernelPml4Phys

/-- Allocate a frame and hand it to `map`; give it back if that fails. -/
def allocAndMap (map : State → Nat → Bool × State) (s : State) : Bool × State :=
  let (paddr, s) := allocPage s
  if paddr = Pmm.physNull then (false, s)
  else
    match map s paddr with
    | (true, s) => (true, s)
    | (false, s) => (false, freePage s paddr)

def vmmAllocPageInto (s : State) (va flags target : Nat) : Bool × State :=
  allocAndMap (fun s paddr =>
    if target ≠ Pmm.physNull then vmmMapPageInto s va paddr flags target
    else vmmMapPage s va paddr flags) s

def vmmAllocPageKernel (s : State) (va flags : Nat) : Bool × State :=
  allocAndMap (fun s paddr => vmmMapPageKernel s va paddr flags) s

/-! ## Unmapping -/

/-- The table behind an entry that is present and not a huge page. -/
def tableBehind (e : Nat) : Option Nat := if present e && !huge e then some (pageMask e) else none

/-- The PT that holds the entry of `va`. The entry of the PML4 is only tested for presence. -/
def pageTable (s : State) (va pml4 : Nat) : Option Nat :=
  if present (s.mem pml4 (pml4Idx va)) then do
    let pd ← tableBehind (s.mem (pageMask (s.mem pml4 (pml4Idx va))) (pdptIdx va))
    tableBehind (s.mem pd (pdIdx va))
  else none

/-- The common body of `vmm_unmap_page` and `vmm_unmap_page_from`: the entry removed. -/
def unmapPage (s : State) (va pml4 : Nat) : Option Nat × State :=
  match pageTable s va pml4 with
  | none => (none, s)
  | some pt =>
    if present (s.mem pt (ptIdx va)) then
      (some (s.mem pt (ptIdx va)), setEntry s pt (ptIdx va) 0)
    else (none, s)

def vmmUnmapPage (s : State) (va : Nat) : Bool × State :=
  match s.currentPml4 with
  | none => (false, s)
  | some pml4 => ((unmapPage s va pml4).1.isSome, (unmapPage s va pml4).2)

/-- The PML4 that a `phys_addr_t` argument stands for. -/
def targetPml4 (s : State) (target : Nat) : Option Nat :=
  if target ≠ Pmm.physNull then some target else s.currentPml4

def vmmUnmapPageFrom (s : State) (va target : Nat) : Nat × State :=
  match targetPml4 s target with
  | none => (Pmm.physNull, s)
  | some pml4 =>
    match unmapPage s va pml4 with
    | (none, s) => (Pmm.physNull, s)
    | (some e, s) => (pageMask e, s)

def pagingIsMappedInto (s : State) (va target : Nat) : Bool :=
  match targetPml4 s target with
  | none => false
  | some pml4 =>
    if !present (s.mem pml4 (pml4Idx va)) then false
    else
      let pdpt := pageMask (s.mem pml4 (pml4Idx va))
      if !present (s.mem pdpt (pdptIdx va)) then false
      else if huge (s.mem pdpt (pdptIdx va)) then true
      else
        let pd := pageMask (s.mem pdpt (pdptIdx va))
        if !present (s.mem pd (pdIdx va)) then false
        else if huge (s.mem pd (pdIdx va)) then true
        else
          let pt := pageMask (s.mem pd (pdIdx va))
          present (s.mem pt (ptIdx va))

/-! ## Address spaces -/

/-- `new_pml4[i] = current_pml4[i]`. -/
def cloneEntry (current new : Nat) (s : State) (i : Fin 512) : State :=
  setEntry s new i (s.mem current i)

def vmmCreateAddressSpace (s : State) : Nat × State :=
  match s.currentPml4 with
  | none => (Pmm.physNull, s)
  | some current =>
    match allocPageVirt s with
    | (none, s) => (Pmm.physNull, s)
    | (some new, s) => (new, higherHalf.foldl (cloneEntry current new) s)

/-- One iteration of a loop of `vmm_destroy_address_space`: entry `i` of a table of the given
level, where a PT has level 0. The four nested loops differ only in the innermost one. -/
def destroyEntry : Nat → Nat → State → Fin 512 → State
  | 0, table, s, i =>
    let e := s.mem table i
    if !present e then s else setEntry (freeOwned s (pageMask e)) table i 0
  | level + 1, table, s, i =>
    let e := s.mem table i
    if !present e then s
    else if huge e then setEntry s table i 0
    else
      let s := (List.finRange 512).foldl (destroyEntry level (pageMask e)) s
      setEntry (freeOwned s (pageMask e)) table i 0

def vmmDestroyAddressSpace (s : State) (pml4 : Nat) (freePml4 : Bool) : State :=
  if pml4 = Pmm.physNull then s
  else
    let s := lowerHalf.foldl (destroyEntry 3 pml4) s
    if freePml4 then freeOwned s pml4 else s

/-! ## What the processor sees -/

/-- A translation: the entry that maps the page, and its level (1 and 2 are huge pages). -/
structure Mapping where
  level : Nat
  entry : Nat
  deriving DecidableEq

/-- The walk of the processor through the tables at `pml4`. -/
def translate (s : State) (pml4 va : Nat) : Option Mapping :=
  let e4 := s.mem pml4 (pml4Idx va)
  if !present e4 then none
  else
    let e3 := s.mem (pageMask e4) (pdptIdx va)
    if !present e3 then none
    else if huge e3 then some ⟨2, e3⟩
    else
      let e2 := s.mem (pageMask e3) (pdIdx va)
      if !present e2 then none
      else if huge e2 then some ⟨1, e2⟩
      else
        let e1 := s.mem (pageMask e2) (ptIdx va)
        if !present e1 then none else some ⟨0, e1⟩

/-- Two addresses in one page: they differ in the offset (or in the bits above the 48 that the
tables translate). -/
def SamePage (va va' : Nat) : Prop :=
  pml4Idx va = pml4Idx va' ∧ pdptIdx va = pdptIdx va' ∧ pdIdx va = pdIdx va' ∧
    ptIdx va = ptIdx va'

end Kyuzen.Paging
