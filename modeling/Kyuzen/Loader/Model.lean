import Kyuzen.Elf.Model
import Kyuzen.Paging.Bytes

/-!
# The loader and the bytes it writes

`Elf.Model` records which addresses `elf_load_file` writes. Here it writes them: CR3 points to the
target address space in every caller, so `memcpy` and `memset` go through its tables. A byte of a
page that is not mapped is a fault in the kernel, and `exception_handler` stops the machine.

`reached` lists the segments that the loop over the program headers gets to, each with the memory
at that moment. The buffer of the file keeps its contents; this is so as long as no segment lies
in the kernel's half (`Elf.UserSegments`).

A load that does not fault is one of the model before (`elfLoadFile_load`).
-/

namespace Kyuzen.Loader

open Lib Lib.Memory
open Elf (File Phdr Load userStackSize userStackTop)
open Paging (Store zeroFrame physAddr allocPage freePage vmmMapPageInto)

inductive Outcome where
  | spinning
  | failed
  | faulted
  | done
  deriving DecidableEq

/-! ## Segments -/

/-- `memcpy` of the file data, and `memset` of the rest of the segment; nothing after a fault. -/
def copySegment (f : File) (tr : Virtual.Translation) (ph : Phdr) (bytes : Mem) : Option Mem := do
  let bytes ← Virtual.write tr (fun i => f.buf (ph.pOffset + i)) ph.pVaddr (ph.pFilesz % 2 ^ 32)
    bytes
  if ph.pFilesz < ph.pMemsz then
    Virtual.write tr (fun _ => 0) ((ph.pVaddr + ph.pFilesz) % 2 ^ 64)
      ((ph.pMemsz - ph.pFilesz) % 2 ^ 32) bytes
  else some bytes

/-- The segment is copied when its pre-map loop has ended well. -/
def copyMapped (f : File) (target : Nat) (ph : Phdr) (bytes : Mem) :
    Elf.Outcome × Load → Outcome × Store
  | (.spinning, l) => (.spinning, ⟨l.vm, bytes⟩)
  | (.failed, l) => (.failed, ⟨l.vm, bytes⟩)
  | (.done, l) =>
    match copySegment f (physAddr l.vm target) ph bytes with
    | none => (.faulted, ⟨l.vm, bytes⟩)
    | some bytes => (.done, ⟨l.vm, bytes⟩)

/-- The pre-map loop of an ELF64 segment. -/
def premap64 (target fuel : Nat) (ph : Phdr) (vm : Paging.State) : Elf.Outcome × Load :=
  Elf.premap64 target (ph.pVaddr + ph.pMemsz) fuel (ph.pVaddr / 4096 * 4096) ⟨vm, []⟩

/-- The pre-map loop of an ELF32 segment. -/
def premap32 (target fuel : Nat) (ph : Phdr) (vm : Paging.State) : Elf.Outcome × Load :=
  Elf.premap32 target ((ph.pVaddr + ph.pMemsz) % 2 ^ 32) fuel
    (ph.pVaddr / 0x400000 * 0x400000) ⟨vm, []⟩

def segment64 (f : File) (target fuel : Nat) (ph : Phdr) (st : Store) : Outcome × Store :=
  if ph.pMemsz > 2 ^ 64 - 1 - ph.pVaddr then (.failed, st)
  else if !f.holds ph then (.failed, st)
  else copyMapped f target ph st.bytes (premap64 target fuel ph st.vm)

def segment32 (f : File) (target fuel : Nat) (ph : Phdr) (st : Store) : Outcome × Store :=
  if !f.holds ph then (.failed, st)
  else copyMapped f target ph st.bytes (premap32 target fuel ph st.vm)

/-- The loop over the program headers; only `PT_LOAD` counts. -/
def segments (segment : Phdr → Store → Outcome × Store) : List Phdr → Store → Outcome × Store
  | [], st => (.done, st)
  | ph :: rest, st =>
    if ph.pType ≠ 1 then segments segment rest st
    else
      match segment ph st with
      | (.done, st) => segments segment rest st
      | out => out

/-- The `PT_LOAD` headers that this loop gets to, with the memory it finds there. -/
def reached (segment : Phdr → Store → Outcome × Store) : List Phdr → Store → List (Phdr × Store)
  | [], _ => []
  | ph :: rest, st =>
    if ph.pType ≠ 1 then reached segment rest st
    else
      (ph, st) ::
        match segment ph st with
        | (.done, st) => reached segment rest st
        | _ => []

/-! ## The stack -/

/-- Map the pages of the stack, and clear each new frame through the direct map. -/
def mapStack (target : Nat) : List Nat → Store → Bool × Store
  | [], st => (true, st)
  | page :: rest, st =>
    let (pa, vm) := allocPage st.vm
    if pa = Pmm.physNull then (false, { st with vm := vm })
    else
      match vmmMapPageInto vm page pa 7 target with
      | (false, vm) => (false, { st with vm := freePage vm pa })
      | (true, vm) => mapStack target rest ⟨vm, zeroFrame st.bytes pa⟩

/-! ## `elf_load_file` -/

structure Result where
  /-- What is returned; nothing while a loop is spinning, or after a fault. -/
  entry : Option Nat
  /-- `*out_stack_top`. -/
  stackTop : Nat
  store : Store

def finish64 (f : File) (wantStack : Bool) (target : Nat) : Outcome × Store → Result
  | (.spinning, st) => ⟨none, 0, st⟩
  | (.faulted, st) => ⟨none, 0, st⟩
  | (.failed, st) => ⟨some 0, 0, st⟩
  | (.done, st) =>
    if !wantStack then ⟨some f.entry64, 0, st⟩
    else
      match mapStack target Elf.stackPages st with
      | (false, st) => ⟨some 0, 0, st⟩
      | (true, st) => ⟨some f.entry64, userStackTop, st⟩

def finish32 (f : File) : Outcome × Store → Result
  | (.spinning, st) => ⟨none, 0, st⟩
  | (.faulted, st) => ⟨none, 0, st⟩
  | (.failed, st) => ⟨some 0, 0, st⟩
  | (.done, st) => ⟨some f.entry32, 0, st⟩

def segments64 (f : File) (target fuel : Nat) (st : Store) : Outcome × Store :=
  segments (segment64 f target fuel) f.phdrs64 st

def segments32 (f : File) (target fuel : Nat) (st : Store) : Outcome × Store :=
  segments (segment32 f target fuel) f.phdrs32 st

def elfLoadFile (fuel : Nat) (f : File) (heap wantStack : Bool) (target : Nat) (st : Store) :
    Result :=
  let error : Result := ⟨some 0, 0, st⟩
  if f.size = 0 then error
  else if !heap then error
  else if !f.magic then error
  else if f.elfClass = 2 then
    if target = Pmm.physNull then error
    else if !Elf.tableFits f f.phoff64 f.phnum64 56 then error
    else finish64 f wantStack target (segments64 f target fuel st)
  else if f.elfClass = 1 then
    if target = Pmm.physNull then error
    else if !Elf.tableFits f f.phoff32 f.phnum32 32 then error
    else finish32 f (segments32 f target fuel st)
  else error

/-! ## The load without the bytes -/

section Erasure

variable {f : File} {target fuel : Nat} {ph : Phdr} {st : Store}

/-- The parts of the two models end in the same way and in the same memory, unless one faults. -/
def Matches (out : Elf.Outcome × Load) (out' : Outcome × Store) : Prop :=
  out'.1 = .faulted ∨
    out.2.vm = out'.2.vm ∧
      (out.1 = .spinning ∧ out'.1 = .spinning ∨ out.1 = .failed ∧ out'.1 = .failed ∨
        out.1 = .done ∧ out'.1 = .done)

theorem copyMapped_matches {bytes : Mem} {out : Elf.Outcome × Load} :
    Matches (Elf.andThen (fun l => (.done, Elf.copySegment ph l)) out)
      (copyMapped f target ph bytes out) := by
  obtain ⟨o, l⟩ := out
  cases o with
  | spinning => exact Or.inr ⟨rfl, Or.inl ⟨rfl, rfl⟩⟩
  | failed => exact Or.inr ⟨rfl, Or.inr (Or.inl ⟨rfl, rfl⟩)⟩
  | done =>
    unfold copyMapped
    dsimp only
    cases copySegment f (physAddr l.vm target) ph bytes with
    | none => exact Or.inl rfl
    | some bytes => exact Or.inr ⟨rfl, Or.inr (Or.inr ⟨rfl, rfl⟩)⟩

/-- The log of a pre-map loop plays no part in what it does. -/
theorem premap64_log_free {segEnd : Nat} : ∀ {fuel page : Nat} {l l' : Load}, l.vm = l'.vm →
    (Elf.premap64 target segEnd fuel page l).1 = (Elf.premap64 target segEnd fuel page l').1 ∧
      (Elf.premap64 target segEnd fuel page l).2.vm =
        (Elf.premap64 target segEnd fuel page l').2.vm := by
  intro fuel
  induction fuel with
  | zero => exact fun h => ⟨rfl, h⟩
  | succ fuel ih =>
    intro page l l' h
    rw [Elf.premap64, Elf.premap64, h]
    dsimp only
    split_ifs
    · exact ih h
    · exact ih rfl
    · exact ⟨rfl, rfl⟩
    · exact ⟨rfl, h⟩

theorem premap32_log_free {segEnd : Nat} : ∀ {fuel block : Nat} {l l' : Load}, l.vm = l'.vm →
    (Elf.premap32 target segEnd fuel block l).1 = (Elf.premap32 target segEnd fuel block l').1 ∧
      (Elf.premap32 target segEnd fuel block l).2.vm =
        (Elf.premap32 target segEnd fuel block l').2.vm := by
  intro fuel
  induction fuel with
  | zero => exact fun h => ⟨rfl, h⟩
  | succ fuel ih =>
    intro block l l' h
    rw [Elf.premap32, Elf.premap32, h]
    dsimp only
    split_ifs
    · exact ih rfl
    · exact ⟨rfl, rfl⟩
    · exact ⟨rfl, h⟩

theorem andThen_matches {bytes : Mem} {out out' : Elf.Outcome × Load} (ho : out.1 = out'.1)
    (hvm : out.2.vm = out'.2.vm) :
    Matches (Elf.andThen (fun l => (.done, Elf.copySegment ph l)) out)
      (copyMapped f target ph bytes out') := by
  have hmatch := @copyMapped_matches f target ph bytes out'
  obtain ⟨o, l⟩ := out
  obtain ⟨o', l'⟩ := out'
  cases ho
  rcases hmatch with hfault | ⟨heq, hend⟩
  · exact Or.inl hfault
  · right
    cases o with
    | spinning => exact ⟨hvm.trans heq, hend⟩
    | failed => exact ⟨hvm.trans heq, hend⟩
    | done => exact ⟨hvm.trans heq, hend⟩

theorem segment64_matches {l : Load} (h : l.vm = st.vm) :
    Matches (Elf.segment64 f target fuel ph l) (segment64 f target fuel ph st) := by
  unfold Elf.segment64 segment64
  split_ifs
  · exact Or.inr ⟨h, Or.inr (Or.inl ⟨rfl, rfl⟩)⟩
  · exact Or.inr ⟨h, Or.inr (Or.inl ⟨rfl, rfl⟩)⟩
  · obtain ⟨ho, hvm⟩ := @premap64_log_free target (ph.pVaddr + ph.pMemsz) fuel
      (ph.pVaddr / 4096 * 4096) l ⟨st.vm, []⟩ h
    exact andThen_matches ho hvm

theorem segment32_matches {l : Load} (h : l.vm = st.vm) :
    Matches (Elf.segment32 f target fuel ph l) (segment32 f target fuel ph st) := by
  unfold Elf.segment32 segment32
  split_ifs
  · exact Or.inr ⟨h, Or.inr (Or.inl ⟨rfl, rfl⟩)⟩
  · obtain ⟨ho, hvm⟩ := @premap32_log_free target ((ph.pVaddr + ph.pMemsz) % 2 ^ 32) fuel
      (ph.pVaddr / 0x400000 * 0x400000) l ⟨st.vm, []⟩ h
    exact andThen_matches ho hvm

theorem segments_matches {segment : Phdr → Load → Elf.Outcome × Load}
    {segment' : Phdr → Store → Outcome × Store}
    (hseg : ∀ ph (l : Load) (st : Store), l.vm = st.vm → Matches (segment ph l) (segment' ph st)) :
    ∀ (phs : List Phdr) {l : Load} {st : Store}, l.vm = st.vm →
      Matches (Elf.segments segment phs l) (segments segment' phs st) := by
  intro phs
  induction phs with
  | nil => exact fun h => Or.inr ⟨h, Or.inr (Or.inr ⟨rfl, rfl⟩)⟩
  | cons ph rest ih =>
    intro l st h
    rw [Elf.segments, segments]
    split_ifs
    · exact ih h
    · have hone := hseg ph l st h
      revert hone
      generalize segment ph l = out
      generalize segment' ph st = out'
      obtain ⟨o, l₁⟩ := out
      obtain ⟨o', st₁⟩ := out'
      rintro (hfault | ⟨hvm, ⟨ho, ho'⟩ | ⟨ho, ho'⟩ | ⟨ho, ho'⟩⟩)
      · cases hfault
        exact Or.inl rfl
      · cases ho
        cases ho'
        exact Or.inr ⟨hvm, Or.inl ⟨rfl, rfl⟩⟩
      · cases ho
        cases ho'
        exact Or.inr ⟨hvm, Or.inr (Or.inl ⟨rfl, rfl⟩)⟩
      · cases ho
        cases ho'
        exact ih hvm

theorem mapStack_load (target : Nat) : ∀ (pages : List Nat) {l : Load} {st : Store}, l.vm = st.vm →
    (Elf.mapStack target pages l).1 = (mapStack target pages st).1 ∧
      (Elf.mapStack target pages l).2.vm = (mapStack target pages st).2.vm := by
  intro pages
  induction pages with
  | nil => exact fun h => ⟨rfl, h⟩
  | cons page rest ih =>
    intro l st h
    rw [Elf.mapStack, mapStack, h]
    dsimp only
    split_ifs
    · exact ⟨rfl, rfl⟩
    · cases vmmMapPageInto (allocPage st.vm).2 page (allocPage st.vm).1 7 target with
      | mk ok vm =>
        cases ok with
        | false => exact ⟨rfl, rfl⟩
        | true => exact ih rfl

/-- The two models of a load agree, unless it faults. -/
def Agrees (res : Elf.Result) (res' : Result) : Prop :=
  ∀ e, res'.entry = some e →
    res.entry = some e ∧ res.stackTop = res'.stackTop ∧ res.load.vm = res'.store.vm

theorem finish64_agrees {wantStack : Bool} {out : Elf.Outcome × Load} {out' : Outcome × Store}
    (h : Matches out out') :
    Agrees (Elf.finish64 f wantStack target out) (finish64 f wantStack target out') := by
  obtain ⟨o, l⟩ := out
  obtain ⟨o', st⟩ := out'
  intro e he
  rcases h with hfault | ⟨hvm, ⟨ho, ho'⟩ | ⟨ho, ho'⟩ | ⟨ho, ho'⟩⟩
  · cases hfault
    cases he
  · cases ho'
    cases he
  · cases ho
    cases ho'
    exact ⟨he, rfl, hvm⟩
  · cases ho
    cases ho'
    rw [finish64] at he ⊢
    rw [Elf.finish64]
    split_ifs at he ⊢
    · exact ⟨he, rfl, hvm⟩
    · obtain ⟨hok, hvm'⟩ := mapStack_load target Elf.stackPages hvm
      revert hok hvm' he
      generalize Elf.mapStack target Elf.stackPages l = out
      generalize mapStack target Elf.stackPages st = out'
      obtain ⟨ok, l'⟩ := out
      obtain ⟨ok', st'⟩ := out'
      intro he hok hvm'
      cases hok
      cases ok with
      | false => exact ⟨he, rfl, hvm'⟩
      | true => exact ⟨he, rfl, hvm'⟩

theorem finish32_agrees {out : Elf.Outcome × Load} {out' : Outcome × Store}
    (h : Matches out out') : Agrees (Elf.finish32 f out) (finish32 f out') := by
  obtain ⟨o, l⟩ := out
  obtain ⟨o', st⟩ := out'
  intro e he
  rcases h with hfault | ⟨hvm, ⟨ho, ho'⟩ | ⟨ho, ho'⟩ | ⟨ho, ho'⟩⟩
  · cases hfault
    cases he
  · cases ho'
    cases he
  · cases ho
    cases ho'
    exact ⟨he, rfl, hvm⟩
  · cases ho
    cases ho'
    exact ⟨he, rfl, hvm⟩

theorem elfLoadFile_load (fuel : Nat) (f : File) (heap wantStack : Bool) (target : Nat)
    (st : Store) : Agrees (Elf.elfLoadFile fuel f heap wantStack target st.vm)
      (elfLoadFile fuel f heap wantStack target st) := by
  unfold Elf.elfLoadFile elfLoadFile
  dsimp only
  split_ifs
  any_goals exact fun e he => ⟨he, rfl, rfl⟩
  · apply finish64_agrees
    apply segments_matches _ f.phdrs64 rfl
    exact fun _ _ _ h => segment64_matches h
  · apply finish32_agrees
    apply segments_matches _ f.phdrs32 rfl
    exact fun _ _ _ h => segment32_matches h

end Erasure

end Kyuzen.Loader
