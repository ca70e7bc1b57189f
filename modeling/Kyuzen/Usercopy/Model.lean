import Kyuzen.Kwm.Syscalls
import Kyuzen.Lib.Memory
import Kyuzen.Paging.Model

/-!
# Copies between user and kernel

`kernel/usercopy.c`: a syscall reads and writes the memory of its caller only through these
functions, which check the pointers first. The tables of the caller are those of the virtual
memory manager, and `CR3` points to them. `user` is the memory behind the caller's addresses, and
a buffer of the kernel is numbered from its first byte. The addresses that a copy touches are
kept in their order.

`user_access_begin` and `user_access_end` only open and close the window of SMAP.
-/

namespace Kyuzen.Usercopy

open Lib.Memory
open Kwm (ucMaxRange ucUserVaMax)

/-- `ucopy_ctx_t`. -/
structure Ctx where
  /-- The caller is in ring 3. -/
  fromUser : Bool
  pml4 : Nat

/-! ## `user_range_ok` -/

/-- `for (p = first;; p += 0x1000)`, which is left at `last` or at a page that is not mapped. -/
def pageLoop (s : Paging.State) (pml4 last : Nat) : Nat → Nat → Option Bool
  | 0, _ => none
  | fuel + 1, p =>
    if !Paging.pagingIsMappedInto s p pml4 then some false
    else if p = last then some true
    else pageLoop s pml4 last fuel ((p + 0x1000) % 2 ^ 64)

/-- The pages of a 64-bit address space: a loop that needs more never ends. -/
def pageFuel : Nat := 2 ^ 52

/-- `none` is a loop that does not end. -/
def userRangeOk (ctx : Ctx) (s : Paging.State) (uaddr len : Nat) : Option Bool :=
  if uaddr = 0 then some false
  else if len = 0 then some true
  else if len > ucMaxRange then some false
  else if (uaddr + len) % 2 ^ 64 < uaddr then some false
  else if !ctx.fromUser then some true
  else if uaddr ≥ ucUserVaMax ∨ len > ucUserVaMax - uaddr then some false
  else
    let first := uaddr / 4096 * 4096
    let last := (uaddr + len - 1) / 4096 * 4096
    pageLoop s ctx.pml4 last pageFuel first

/-! ## Copies of a range -/

structure Copied where
  ret : Int
  /-- The memory that is written: the buffer of the kernel, or the memory of the caller. -/
  dst : Mem
  touched : List Nat

/-- The addresses of `n` bytes from `a` on, in 64 bits. -/
def addresses (a n : Nat) : List Nat := (List.range n).map fun i => (a + i) % 2 ^ 64

def copyFromUser (ctx : Ctx) (s : Paging.State) (user kdst : Mem) (usrc len : Nat) :
    Option Copied :=
  (userRangeOk ctx s usrc len).map fun ok =>
    if !ok then ⟨-1, kdst, []⟩
    else ⟨0, fill kdst 0 len fun i => user ((usrc + i) % 2 ^ 64), addresses usrc len⟩

def copyToUser (ctx : Ctx) (s : Paging.State) (user : Mem) (udst : Nat) (ksrc : Mem) (len : Nat) :
    Option Copied :=
  (userRangeOk ctx s udst len).map fun ok =>
    if !ok then ⟨-1, user, []⟩
    else ⟨0, fill user udst len fun a => ksrc (a - udst), addresses udst len⟩

/-! ## `strncpy_from_user` -/

/-- `kdst[i] = '\0'` and the length. -/
def terminate (kdst : Mem) (i : Nat) (touched : List Nat) : Copied :=
  ⟨i, Function.update kdst i 0, touched⟩

/-- The loop for a caller in ring 0, with `n` the bytes that are left of `cap - 1`. -/
def kernelLoop (user : Mem) (usrc : Nat) : Nat → Nat → Mem → List Nat → Copied
  | 0, i, kdst, touched => terminate kdst i touched
  | n + 1, i, kdst, touched =>
    let addr := (usrc + i) % 2 ^ 64
    if user addr = 0 then terminate kdst i (touched ++ [addr])
    else kernelLoop user usrc n (i + 1) (Function.update kdst i (user addr)) (touched ++ [addr])

/-- The loop for ring 3. A page is checked when the first of its bytes is reached. -/
def userLoop (ctx : Ctx) (s : Paging.State) (user : Mem) (usrc : Nat) :
    Nat → Nat → Nat → Mem → List Nat → Copied
  | 0, i, _, kdst, touched => terminate kdst i touched
  | n + 1, i, checkedPage, kdst, touched =>
    let addr := (usrc + i) % 2 ^ 64
    if addr < usrc then ⟨-1, kdst, touched⟩
    else
      let page := addr / 4096 * 4096
      if page ≠ checkedPage ∧ page ≥ ucUserVaMax then ⟨-1, kdst, touched⟩
      else if page ≠ checkedPage ∧ !Paging.pagingIsMappedInto s page ctx.pml4 then
        ⟨-1, kdst, touched⟩
      else if user addr = 0 then terminate kdst i (touched ++ [addr])
      else
        userLoop ctx s user usrc n (i + 1) page (Function.update kdst i (user addr))
          (touched ++ [addr])

def strncpyFromUser (ctx : Ctx) (s : Paging.State) (user kdst : Mem) (usrc cap : Nat) : Copied :=
  if usrc = 0 ∨ cap = 0 then ⟨-1, kdst, []⟩
  else if !ctx.fromUser then kernelLoop user usrc (cap - 1) 0 kdst []
  else
    -- 1 is not the address of a page
    userLoop ctx s user usrc (cap - 1) 0 1 kdst []

end Kyuzen.Usercopy
