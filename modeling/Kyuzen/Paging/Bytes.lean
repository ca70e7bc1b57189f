import Kyuzen.Lib.Virtual
import Kyuzen.Paging.Model

/-!
# The bytes of the frames

The state of the virtual memory manager has the entries of the tables, but not what stands in the
frames of the programs. A `Store` adds it: the byte at every physical address. What it says about
the frames of tables is never read.

A program reaches these bytes through its tables, as `physAddr` has it, and the kernel through the
direct map, by their physical addresses.
-/

namespace Kyuzen.Paging

open Lib.Memory

structure Store where
  vm : State
  bytes : Mem

/-- The end of the lower half. The addresses from here to the upper half are not canonical. -/
def lowerEnd : Nat := 2 ^ 47

/-- `memset(pa + hhdm_offset, 0, 4096)`. -/
def zeroFrame (bytes : Mem) (pa : Nat) : Mem := fill bytes pa 4096 fun _ => 0

/-- Where the byte at `va` stands: the pages of the levels 1 and 2 have 2 MiB and 1 GiB. -/
def Mapping.addr (m : Mapping) (va : Nat) : Nat :=
  let size := 4096 * 512 ^ m.level
  m.entry / size * size + va % size

/-- The physical address of an access of the processor; `none` is a fault. -/
def physAddr (s : State) (pml4 va : Nat) : Option Nat :=
  let va := va % 2 ^ 64
  if va < lowerEnd ∨ 2 ^ 64 - lowerEnd ≤ va then (translate s pml4 va).map (·.addr va) else none

variable {s s' : State} {r va va' e : Nat}

theorem physAddr_lower (hva : va < lowerEnd) :
    physAddr s r va = (translate s r va).map (·.addr va) := by
  have hend : lowerEnd = 140737488355328 := rfl
  unfold physAddr
  dsimp only
  rw [Nat.mod_eq_of_lt (by omega), if_pos (Or.inl hva)]

theorem physAddr_page (hva : va < lowerEnd) (h : translate s r va = some ⟨0, e⟩) :
    physAddr s r va = some (pageMask e + va % 4096) := by
  rw [physAddr_lower hva, h]
  rfl

theorem physAddr_none (hva : va < lowerEnd) (h : translate s r va = none) :
    physAddr s r va = none := by
  rw [physAddr_lower hva, h]
  rfl

theorem physAddr_congr (hva : va < lowerEnd) (h : translate s' r va = translate s r va) :
    physAddr s' r va = physAddr s r va := by
  rw [physAddr_lower hva, physAddr_lower hva, h]

/-! ## Cleared frames -/

theorem zeroFrame_inside (bytes : Mem) {pa a : Nat} (hlo : pa ≤ a) (hhi : a < pa + 4096) :
    zeroFrame bytes pa a = 0 := if_pos ⟨hlo, hhi⟩

/-- The bytes of the other frames stay. -/
theorem zeroFrame_other (bytes : Mem) {pa a : Nat} (hpa : pa % 4096 = 0)
    (hne : a / 4096 ≠ pa / 4096) : zeroFrame bytes pa a = bytes a :=
  fill_outside (by omega)

/-! ## Pages of the lower half -/

theorem samePage_lower (hva : va < lowerEnd) (hva' : va' < lowerEnd) :
    SamePage va va' ↔ va / 4096 = va' / 4096 := by
  have hend : lowerEnd = 140737488355328 := rfl
  unfold SamePage pml4Idx pdptIdx pdIdx ptIdx
  simp only [Fin.mk.injEq]
  constructor
  · rintro ⟨h4, h3, h2, h1⟩
    omega
  · intro heq
    omega

theorem pml4Idx_lower (hva : va < lowerEnd) : (pml4Idx va).val < 256 := by
  have hend : lowerEnd = 140737488355328 := rfl
  change va / 2 ^ 39 % 512 < 256
  omega

/-- A page is mapped as a whole. -/
theorem translate_page (hva : va < lowerEnd) (hva' : va' < lowerEnd)
    (h : va / 4096 = va' / 4096) : translate s r va = translate s r va' := by
  obtain ⟨h4, h3, h2, h1⟩ := (samePage_lower hva hva').mpr h
  unfold translate
  rw [h4, h3, h2, h1]

end Kyuzen.Paging
