import Kyuzen.Lib.Memory
import Kyuzen.Paging.Model

/-!
# The ELF loader

`kernel/elf.c`: `elf_load_file` reads a file into a kernel buffer, checks the headers, maps the
pages of every `PT_LOAD` segment into the target address space, copies the segment to its
virtual address and maps a user stack.

The pages of a segment are mapped in a loop over a 64-bit (or 32-bit) address that may wrap
around, and then ends only when memory is exhausted; `fuel` bounds its iterations, and
`Outcome.spinning` is a loop that has not ended yet. The file system call that fills the buffer
and `kmalloc` are inputs: the contents of the buffer, and whether there was memory for it.
`log` records the virtual addresses that are mapped and written.
-/

namespace Kyuzen.Elf

open Lib.Memory Paging

/-- `file_buffer`. Headers are read past the end of a short file; there the bytes are what the
heap held before. -/
structure File where
  buf : Mem
  size : Nat
  size_lt : size < 2 ^ 32

/-- The fields of a program header that the loader reads. -/
structure Phdr where
  pType : Nat
  pOffset : Nat
  pVaddr : Nat
  pFilesz : Nat
  pMemsz : Nat

inductive Access where
  /-- `vmm_alloc_page_into` or `vmm_map_page_into`. -/
  | map (va : Nat)
  /-- `memcpy` or `memset`. -/
  | write (va len : Nat)
  deriving DecidableEq

structure Load where
  vm : Paging.State
  log : List Access

inductive Outcome where
  | spinning
  | failed
  | done
  deriving DecidableEq

def userStackSize : Nat := 256 * 1024
def userStackTop : Nat := 0x0C000000

/-! ## Headers -/

namespace File

variable (f : File)

def magic : Bool := f.buf 0 == 0x7F && f.buf 1 == 0x45 && f.buf 2 == 0x4C && f.buf 3 == 0x46

def elfClass : Nat := (f.buf 4).toNat

def entry64 : Nat := load f.buf 24 8
def phoff64 : Nat := load f.buf 32 8
def phnum64 : Nat := load f.buf 56 2

def entry32 : Nat := load f.buf 24 4
def phoff32 : Nat := load f.buf 28 4
def phnum32 : Nat := load f.buf 44 2

/-- The program header at `a`, with the layout of `elf64_phdr_t`. -/
def phdr64 (a : Nat) : Phdr :=
  ⟨load f.buf a 4, load f.buf (a + 8) 8, load f.buf (a + 16) 8, load f.buf (a + 32) 8,
    load f.buf (a + 40) 8⟩

def phdr32 (a : Nat) : Phdr :=
  ⟨load f.buf a 4, load f.buf (a + 4) 4, load f.buf (a + 8) 4, load f.buf (a + 16) 4,
    load f.buf (a + 20) 4⟩

def phdrs64 : List Phdr := (List.range f.phnum64).map fun i => f.phdr64 (f.phoff64 + i * 56)

def phdrs32 : List Phdr := (List.range f.phnum32).map fun i => f.phdr32 (f.phoff32 + i * 32)

/-- The data of the segment stand in the file. -/
def holds (ph : Phdr) : Bool := ph.pOffset ≤ f.size && ph.pFilesz ≤ f.size - ph.pOffset

end File

/-! ## Segments -/

/-- The pre-map loop for ELF64: pages that are mapped already are left alone. -/
def premap64 (target segEnd : Nat) : Nat → Nat → Load → Outcome × Load
  | 0, _, l => (.spinning, l)
  | fuel + 1, page, l =>
    if page < segEnd then
      if pagingIsMappedInto l.vm page target then
        premap64 target segEnd fuel ((page + 4096) % 2 ^ 64) l
      else
        let out := vmmAllocPageInto l.vm page 7 target
        let l := ⟨out.2, l.log ++ [.map page]⟩
        if out.1 then premap64 target segEnd fuel ((page + 4096) % 2 ^ 64) l else (.failed, l)
    else (.done, l)

/-- The loop for ELF32: one page of every 4 MiB block. -/
def premap32 (target segEnd : Nat) : Nat → Nat → Load → Outcome × Load
  | 0, _, l => (.spinning, l)
  | fuel + 1, block, l =>
    if block < segEnd then
      let out := vmmAllocPageInto l.vm block 7 target
      let l := ⟨out.2, l.log ++ [.map block]⟩
      if out.1 then premap32 target segEnd fuel ((block + 0x400000) % 2 ^ 32) l else (.failed, l)
    else (.done, l)

/-- The rest of a segment behind its file data; the length is cast to 32 bits. -/
def bss (ph : Phdr) : List Access :=
  if ph.pFilesz < ph.pMemsz then
    [.write ((ph.pVaddr + ph.pFilesz) % 2 ^ 64) ((ph.pMemsz - ph.pFilesz) % 2 ^ 32)]
  else []

/-- Copy the file data of a segment and clear the rest. -/
def copySegment (ph : Phdr) (l : Load) : Load :=
  { l with log := l.log ++ (.write ph.pVaddr (ph.pFilesz % 2 ^ 32) :: bss ph) }

/-- Go on after a part that has ended well. -/
def andThen (next : Load → Outcome × Load) : Outcome × Load → Outcome × Load
  | (.done, l) => next l
  | out => out

def segment64 (f : File) (target fuel : Nat) (ph : Phdr) (l : Load) : Outcome × Load :=
  if ph.pMemsz > 2 ^ 64 - 1 - ph.pVaddr then (.failed, l)
  else if !f.holds ph then (.failed, l)
  else
    andThen (fun l => (.done, copySegment ph l))
      (premap64 target (ph.pVaddr + ph.pMemsz) fuel (ph.pVaddr / 4096 * 4096) l)

def segment32 (f : File) (target fuel : Nat) (ph : Phdr) (l : Load) : Outcome × Load :=
  if !f.holds ph then (.failed, l)
  else
    andThen (fun l => (.done, copySegment ph l))
      (premap32 target ((ph.pVaddr + ph.pMemsz) % 2 ^ 32) fuel
        (ph.pVaddr / 0x400000 * 0x400000) l)

/-- The loop over the program headers; only `PT_LOAD` counts. -/
def segments (segment : Phdr → Load → Outcome × Load) : List Phdr → Load → Outcome × Load
  | [], l => (.done, l)
  | ph :: rest, l =>
    if ph.pType ≠ 1 then segments segment rest l
    else andThen (segments segment rest) (segment ph l)

/-! ## The stack -/

def stackPages : List Nat :=
  (List.range (userStackSize / 4096)).map fun i => userStackTop - userStackSize + i * 4096

/-- Map the pages of the stack. A new frame is cleared through its address in the direct map;
the log has this as a write of the page. -/
def mapStack (target : Nat) : List Nat → Load → Bool × Load
  | [], l => (true, l)
  | page :: rest, l =>
    let (pa, vm) := allocPage l.vm
    if pa = Pmm.physNull then (false, { l with vm := vm })
    else
      match vmmMapPageInto vm page pa 7 target with
      | (false, vm) => (false, ⟨freePage vm pa, l.log ++ [.map page]⟩)
      | (true, vm) => mapStack target rest ⟨vm, l.log ++ [.map page, .write page 4096]⟩

/-! ## `elf_load_file` -/

structure Result where
  /-- What is returned; nothing while a loop is spinning. -/
  entry : Option Nat
  /-- `*out_stack_top`. -/
  stackTop : Nat
  load : Load

/-- The header table stands in the file. -/
def tableFits (f : File) (phoff phnum entsize : Nat) : Bool :=
  phoff ≤ f.size && phnum * entsize ≤ f.size - phoff

/-- The end of an ELF64 load, after the segments. -/
def finish64 (f : File) (wantStack : Bool) (target : Nat) : Outcome × Load → Result
  | (.spinning, l) => ⟨none, 0, l⟩
  | (.failed, l) => ⟨some 0, 0, l⟩
  | (.done, l) =>
    if !wantStack then ⟨some f.entry64, 0, l⟩
    else
      match mapStack target stackPages l with
      | (false, l) => ⟨some 0, 0, l⟩
      | (true, l) => ⟨some f.entry64, userStackTop, l⟩

def finish32 (f : File) : Outcome × Load → Result
  | (.spinning, l) => ⟨none, 0, l⟩
  | (.failed, l) => ⟨some 0, 0, l⟩
  | (.done, l) => ⟨some f.entry32, 0, l⟩

/-- `elf_load_file` of a file that has been read to `f`; `heap` says whether `kmalloc` had the
memory for its buffer, and `wantStack` whether `out_stack_top` is given. -/
def elfLoadFile (fuel : Nat) (f : File) (heap wantStack : Bool) (target : Nat)
    (vm : Paging.State) : Result :=
  let l : Load := ⟨vm, []⟩
  let error : Result := ⟨some 0, 0, l⟩
  if f.size = 0 then error
  else if !heap then error
  else if !f.magic then error
  else if f.elfClass = 2 then
    if target = Pmm.physNull then error
    else if !tableFits f f.phoff64 f.phnum64 56 then error
    else finish64 f wantStack target (segments (segment64 f target fuel) f.phdrs64 l)
  else if f.elfClass = 1 then
    if target = Pmm.physNull then error
    else if !tableFits f f.phoff32 f.phnum32 32 then error
    else finish32 f (segments (segment32 f target fuel) f.phdrs32 l)
  else error

end Kyuzen.Elf
