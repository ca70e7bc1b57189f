import Kyuzen.Loader.Image

/-!
# What a file says about each address

The image that the loader builds, address by address. A pre-map loop is given by the addresses
whose pages it maps, and by whether it does so again when they are mapped (`Premap`). `Lands` says
that no segment writes where nothing is mapped; then the image fails nowhere
(`segmentImages_eq_some`), its pages are those that some loop visits (`image_isSome`), and its
bytes are known exactly where a segment has written and no later one has mapped the page again
(`image_stale_iff`).
-/

namespace Kyuzen.Loader

open Lib
open Elf (File Phdr)
open Paging (lowerEnd)

/-! ## Segments -/

/-- The segments that are loaded. -/
def loads (phs : List Phdr) : List Phdr := phs.filter fun ph => ph.pType = 1

/-- The byte that the copies of a segment put at `x`. -/
def byteAt (f : File) (ph : Phdr) (x : Nat) : Option UInt8 :=
  if ph.pVaddr ≤ x ∧ x < ph.pVaddr + ph.pFilesz then some (f.buf (ph.pOffset + (x - ph.pVaddr)))
  else if ph.pVaddr + ph.pFilesz ≤ x ∧
      x < ph.pVaddr + ph.pFilesz + (ph.pMemsz - ph.pFilesz) % 2 ^ 32 then some 0
  else none

def overlay (f : File) (ph : Phdr) (im : Image) : Image :=
  fun x => ((byteAt f ph x).map some).or (im x)

/-- A pre-map loop. -/
structure Premap where
  /-- The page of the address is mapped. -/
  visits : Phdr → Nat → Bool
  /-- Pages that are mapped already get a new frame, too. -/
  again : Bool

def elf64 : Premap where
  visits ph x := ph.pVaddr / 4096 * 4096 ≤ x / 4096 * 4096 ∧ x / 4096 * 4096 < ph.pVaddr + ph.pMemsz
  again := false

def elf32 : Premap where
  visits ph x := x / 4096 * 4096 % 0x400000 = 0 ∧
    ph.pVaddr / 0x400000 * 0x400000 ≤ x / 4096 * 4096 ∧
    x / 4096 * 4096 < (ph.pVaddr + ph.pMemsz) % 2 ^ 32
  again := true

def Premap.enter (L : Premap) (ph : Phdr) (im : Image) : Image :=
  im.map (fun x => L.visits ph x = true ∧ (L.again = true ∨ im x = none)) none

def Premap.segment (L : Premap) (f : File) (ph : Phdr) (im : Image) : Option Image :=
  copyImage f ph (L.enter ph im)

theorem Premap.enter_apply (L : Premap) (ph : Phdr) (im : Image) (x : Nat) : L.enter ph im x =
    if L.visits ph x = true ∧ (L.again = true ∨ im x = none) then some none else im x := rfl

theorem segmentImage64_eq (f : File) : segmentImage64 f = elf64.segment f := by
  ext1 ph
  ext1 im
  apply congrArg (copyImage f ph)
  ext1 x
  rw [cover_apply, Premap.enter_apply]
  apply if_congr _ rfl rfl
  simp [elf64, and_comm, and_assoc]

theorem segmentImage32_eq (f : File) : segmentImage32 f = elf32.segment f := by
  ext1 ph
  ext1 im
  apply congrArg (copyImage f ph)
  ext1 x
  rw [remap_apply, Premap.enter_apply]
  apply if_congr _ rfl rfl
  simp [elf32]

theorem segmentImages_loads (segment : Phdr → Image → Option Image) : ∀ (phs : List Phdr)
    (im : Image), segmentImages segment phs im = segmentImages segment (loads phs) im := by
  intro phs
  induction phs with
  | nil => exact fun _ => rfl
  | cons ph rest ih =>
    intro im
    by_cases htype : ph.pType = 1
    · have hloads : loads (ph :: rest) = ph :: loads rest :=
        List.filter_cons_of_pos (decide_eq_true htype)
      rw [hloads, segmentImages, segmentImages, if_neg (not_not.mpr htype),
        if_neg (not_not.mpr htype)]
      apply congrArg
      ext1 im'
      exact ih im'
    · have hloads : loads (ph :: rest) = loads rest :=
        List.filter_cons_of_neg (by rw [decide_eq_true_eq]; exact htype)
      rw [hloads, segmentImages, if_pos htype]
      exact ih im

/-! ## Copies -/

/-- The addresses of the two writes do not wrap around. -/
structure NoWrap (ph : Phdr) : Prop where
  file : ph.pFilesz < 2 ^ 32
  bss : ph.pFilesz < ph.pMemsz → ph.pVaddr + ph.pFilesz < 2 ^ 64

variable {f : File} {ph : Phdr} {im im' : Image} {L : Premap}

theorem InLowerHalf.noWrap (h : InLowerHalf ph) (hsize : ph.pFilesz < 2 ^ 32) : NoWrap ph := by
  have hend : lowerEnd = 140737488355328 := rfl
  refine ⟨hsize, ?_⟩
  intro hlt
  have hpage : ph.Page (ph.pVaddr / 4096 * 4096) := ⟨Nat.mul_mod_left _ _, le_refl _, by omega⟩
  have hlow := h.pages _ hpage
  by_cases hpos : 0 < ph.pFilesz
  · have := h.file hpos
    omega
  · omega

theorem Fields32.noWrap (h : Fields32 ph) : NoWrap ph := by
  have hv := h.pVaddr
  have hf := h.pFilesz
  exact ⟨hf, fun _ => by omega⟩

theorem byteAt_isSome (x : Nat) : (byteAt f ph x).isSome = true ↔
    ph.pVaddr ≤ x ∧ x < ph.pVaddr + ph.pFilesz + (ph.pMemsz - ph.pFilesz) % 2 ^ 32 := by
  unfold byteAt
  split_ifs with hfile hbss
  · simp only [Option.isSome_some, true_iff]
    omega
  · simp only [Option.isSome_some, true_iff]
    omega
  · simp only [Option.isSome_none, Bool.false_eq_true, false_iff]
    omega

/-- The two loops write the bytes of the file, and then zeros behind them. -/
theorem overlay_apply (f : File) (ph : Phdr) (im : Image) (x : Nat) : overlay f ph im x =
    if ph.pVaddr + ph.pFilesz ≤ x ∧
        x < ph.pVaddr + ph.pFilesz + (ph.pMemsz - ph.pFilesz) % 2 ^ 32 then some (some 0)
    else if ph.pVaddr ≤ x ∧ x < ph.pVaddr + ph.pFilesz then
      some (some (f.buf (ph.pOffset + (x - ph.pVaddr))))
    else im x := by
  unfold overlay byteAt
  split_ifs with hfile hbss
  · omega
  · rfl
  · rfl
  · rfl

theorem forall_byteAt (f : File) (ph : Phdr) (im : Image) :
    (∀ x, (byteAt f ph x).isSome = true → (im x).isSome = true) ↔
      (∀ i < ph.pFilesz, (im (ph.pVaddr + i)).isSome = true) ∧
        ∀ i < (ph.pMemsz - ph.pFilesz) % 2 ^ 32,
          (im (ph.pVaddr + ph.pFilesz + i)).isSome = true := by
  constructor
  · intro hall
    refine ⟨fun i hi => hall _ ((byteAt_isSome _).mpr ⟨by omega, by omega⟩), ?_⟩
    exact fun i hi => hall _ ((byteAt_isSome _).mpr ⟨by omega, by omega⟩)
  · rintro ⟨hfile, hbss⟩ x hx
    rw [byteAt_isSome] at hx
    by_cases hin : x < ph.pVaddr + ph.pFilesz
    · have := hfile (x - ph.pVaddr) (by omega)
      rwa [Nat.add_sub_cancel' hx.1] at this
    · have := hbss (x - (ph.pVaddr + ph.pFilesz)) (by omega)
      rwa [Nat.add_sub_cancel' (by omega)] at this

theorem copyImage_eq_some (h : NoWrap ph) : copyImage f ph im = some im' ↔
    (∀ x, (byteAt f ph x).isSome = true → (im x).isSome = true) ∧ im' = overlay f ph im := by
  have hbytes := overlay_apply f ph im
  rw [forall_byteAt]
  unfold copyImage
  rw [Nat.mod_eq_of_lt h.file]
  cases hone : im.write (fun i => f.buf (ph.pOffset + i)) ph.pVaddr ph.pFilesz with
  | none =>
    constructor
    · intro hc
      cases hc
    · rintro ⟨⟨hfile, -⟩, -⟩
      rw [Image.write, if_pos hfile] at hone
      cases hone
  | some im₁ =>
    obtain ⟨hmapped, rfl⟩ := Image.write_eq_some.mp hone
    have hisSome := Image.write_isSome hone
    show (if _ then _ else _) = _ ↔ _
    by_cases hlt : ph.pFilesz < ph.pMemsz
    · rw [if_pos hlt, Nat.mod_eq_of_lt (h.bss hlt), Image.write_eq_some]
      constructor
      · rintro ⟨hbss, rfl⟩
        refine ⟨⟨hmapped, fun i hi => (hisSome _).symm.trans (hbss i hi)⟩, ?_⟩
        ext1 x
        exact (hbytes x).symm
      · rintro ⟨⟨-, hbss⟩, rfl⟩
        refine ⟨fun i hi => (hisSome _).trans (hbss i hi), ?_⟩
        ext1 x
        exact hbytes x
    · rw [if_neg hlt]
      have hzero : ph.pMemsz - ph.pFilesz = 0 := by omega
      rw [hzero] at hbytes ⊢
      have hbytes' := fun x => (hbytes x).trans (if_neg (by omega))
      constructor
      · intro heq
        refine ⟨⟨hmapped, fun i hi => absurd hi (Nat.not_lt_zero i)⟩, ?_⟩
        rw [← Option.some.inj heq]
        ext1 x
        exact (hbytes' x).symm
      · rintro ⟨-, rfl⟩
        apply congrArg
        ext1 x
        exact (hbytes' x).symm

/-! ## All segments -/

/-- No segment writes where no page is mapped, neither before the load nor by a loop so far. -/
def Lands (f : File) (L : Premap) : (Nat → Prop) → List Phdr → Prop
  | _, [] => True
  | mapped, ph :: rest =>
    (∀ x, (byteAt f ph x).isSome = true → mapped x ∨ L.visits ph x = true) ∧
      Lands f L (fun x => mapped x ∨ L.visits ph x = true) rest

/-- A segment writes the byte at `x`, and no later one maps its page again. -/
def Covered (f : File) (L : Premap) : List Phdr → Nat → Prop
  | [], _ => False
  | ph :: rest, x => Covered f L rest x ∨ (byteAt f ph x).isSome = true ∧
      ∀ q ∈ rest, ¬(L.again = true ∧ L.visits q x = true)

/-- The image that is left. -/
def build (f : File) (L : Premap) (phs : List Phdr) (im : Image) : Image :=
  phs.foldl (fun im ph => overlay f ph (L.enter ph im)) im

theorem enter_isSome (x : Nat) :
    (L.enter ph im x).isSome = true ↔ (im x).isSome = true ∨ L.visits ph x = true := by
  rw [Premap.enter_apply]
  by_cases hnone : im x = none
  · rw [hnone]
    by_cases hvisits : L.visits ph x = true
    · rw [if_pos ⟨hvisits, Or.inr rfl⟩]
      simp [hvisits]
    · rw [if_neg fun hc => hvisits hc.1]
      simp [hvisits]
  · have hsome : (im x).isSome = true := Option.isSome_iff_ne_none.mpr hnone
    split_ifs
    · simp [hsome]
    · simp [hsome]

theorem overlay_isSome (h : ∀ x, (byteAt f ph x).isSome = true → (im x).isSome = true) (x : Nat) :
    (overlay f ph im x).isSome = (im x).isSome := by
  unfold overlay
  cases hb : byteAt f ph x with
  | none => rfl
  | some b => exact (h x (by rw [hb, Option.isSome_some])).symm

theorem lands_congr {mapped mapped' : Nat → Prop} (h : ∀ x, mapped x ↔ mapped' x)
    (phs : List Phdr) : Lands f L mapped phs ↔ Lands f L mapped' phs := by
  have heq : mapped = mapped' := by
    ext1 x
    exact propext (h x)
  rw [heq]

theorem segmentImages_eq_some : ∀ {phs : List Phdr} {im im' : Image}, (∀ ph ∈ phs, NoWrap ph) →
    (∀ ph ∈ phs, ph.pType = 1) →
    (segmentImages (L.segment f) phs im = some im' ↔
      Lands f L (fun x => (im x).isSome = true) phs ∧ im' = build f L phs im) := by
  intro phs
  induction phs with
  | nil =>
    intro im im' _ _
    constructor
    · intro heq
      exact ⟨trivial, (Option.some.inj heq).symm⟩
    · rintro ⟨-, rfl⟩
      rfl
  | cons ph rest ih =>
    intro im im' hwrap htype
    have hwrap' := fun q hq => hwrap q (List.mem_cons_of_mem ph hq)
    have htype' := fun q hq => htype q (List.mem_cons_of_mem ph hq)
    have hhead : ph.pType = 1 := htype ph List.mem_cons_self
    rw [segmentImages, if_neg (not_not.mpr hhead), Option.bind_eq_some_iff]
    have hmapped : ∀ x, (byteAt f ph x).isSome = true →
        (((im x).isSome = true ∨ L.visits ph x = true) ↔
          (L.enter ph im x).isSome = true) := fun x _ => (enter_isSome x).symm
    constructor
    · rintro ⟨im₁, hone, hrest⟩
      obtain ⟨hlands, rfl⟩ := (copyImage_eq_some (hwrap ph List.mem_cons_self)).mp hone
      obtain ⟨hlands', rfl⟩ := (ih hwrap' htype').mp hrest
      refine ⟨⟨fun x hx => (hmapped x hx).mpr (hlands x hx), ?_⟩, rfl⟩
      refine (lands_congr ?_ rest).mp hlands'
      intro x
      rw [overlay_isSome hlands x, enter_isSome]
    · rintro ⟨⟨hlands, hlands'⟩, rfl⟩
      have hone : ∀ x, (byteAt f ph x).isSome = true → (L.enter ph im x).isSome = true :=
        fun x hx => (hmapped x hx).mp (hlands x hx)
      refine ⟨overlay f ph (L.enter ph im), ?_, ?_⟩
      · exact (copyImage_eq_some (hwrap ph List.mem_cons_self)).mpr ⟨hone, rfl⟩
      · rw [ih hwrap' htype']
        refine ⟨(lands_congr ?_ rest).mpr hlands', rfl⟩
        intro x
        rw [overlay_isSome hone x, enter_isSome]

/-- The pages of the image are those that a loop has visited. -/
theorem build_isSome (x : Nat) : ∀ {phs : List Phdr} {im : Image},
    Lands f L (fun x => (im x).isSome = true) phs →
    ((build f L phs im x).isSome = true ↔
      (im x).isSome = true ∨ ∃ ph ∈ phs, L.visits ph x = true) := by
  intro phs
  induction phs with
  | nil =>
    intro im _
    simp [build]
  | cons ph rest ih =>
    rintro im ⟨hlands, hlands'⟩
    have hone : ∀ x, (byteAt f ph x).isSome = true → (L.enter ph im x).isSome = true :=
      fun x hx => (enter_isSome x).mpr (hlands x hx)
    have hsome : ∀ x, (overlay f ph (L.enter ph im) x).isSome = true ↔
        (im x).isSome = true ∨ L.visits ph x = true := by
      intro x
      rw [overlay_isSome hone x, enter_isSome]
    have hrest := ih ((lands_congr hsome rest).mpr hlands')
    show (build f L rest (overlay f ph (L.enter ph im)) x).isSome = true ↔ _
    rw [hrest, hsome]
    simp only [List.mem_cons, exists_eq_or_imp, or_assoc]

/-- The bytes that nobody knows: no segment writes them, or a later one maps their page again. -/
theorem build_stale_iff (x : Nat) : ∀ (phs : List Phdr) (im : Image),
    build f L phs im x = some none ↔ ¬Covered f L phs x ∧
      (im x = some none ∨ (∃ ph ∈ phs, L.visits ph x = true) ∧ (L.again = true ∨ im x = none)) := by
  intro phs
  induction phs with
  | nil =>
    intro im
    simp [build, Covered]
  | cons ph rest ih =>
    intro im
    show build f L rest (overlay f ph (L.enter ph im)) x = some none ↔ _
    rw [ih, Covered]
    simp only [List.mem_cons, exists_eq_or_imp]
    cases hb : byteAt f ph x with
    | some b =>
      have hover : overlay f ph (L.enter ph im) x = some (some b) := by
        unfold overlay
        rw [hb]
        rfl
      rw [hover]
      by_cases hlater : ∃ q ∈ rest, L.visits q x = true
      · by_cases hagain : L.again = true
        · obtain ⟨q, hq, hvisits⟩ := hlater
          have hex : ∃ q ∈ rest, L.visits q x = true := ⟨q, hq, hvisits⟩
          simp [hagain, hex]
        · simp [hagain]
      · have hno : ∀ q ∈ rest, ¬(L.again = true ∧ L.visits q x = true) :=
          fun q hq hc => hlater ⟨q, hq, hc.2⟩
        constructor
        · rintro ⟨-, hc | ⟨hex, -⟩⟩
          · cases hc
          · exact absurd hex hlater
        · rintro ⟨hcovered, -⟩
          exact absurd (Or.inr ⟨Option.isSome_some, hno⟩) hcovered
    | none =>
      have hover : overlay f ph (L.enter ph im) x = L.enter ph im x := by
        unfold overlay
        rw [hb]
        rfl
      rw [hover, Premap.enter_apply]
      by_cases henter : L.visits ph x = true ∧ (L.again = true ∨ im x = none)
      · rw [if_pos henter]
        simp [henter.1, henter.2]
      · rw [if_neg henter]
        have hsplit : ¬(L.visits ph x = true ∧ (L.again = true ∨ im x = none)) := henter
        simp only [Option.isSome_none, Bool.false_eq_true, false_and, or_false]
        tauto

/-- A byte that stays: no later segment writes it or maps its page again. -/
theorem build_keeps {x : Nat} : ∀ {phs : List Phdr} {im : Image},
    (∀ ph ∈ phs, byteAt f ph x = none ∧ ¬(L.again = true ∧ L.visits ph x = true)) →
    im x ≠ none → build f L phs im x = im x := by
  intro phs
  induction phs with
  | nil => exact fun _ _ => rfl
  | cons ph rest ih =>
    intro im hkeep hsome
    obtain ⟨hbyte, hagain⟩ := hkeep ph List.mem_cons_self
    have hone : overlay f ph (L.enter ph im) x = im x := by
      unfold overlay
      rw [hbyte, Option.map_none, Option.none_or, Premap.enter_apply]
      apply if_neg
      rintro ⟨hvisits, hc | hc⟩
      · exact hagain ⟨hc, hvisits⟩
      · exact hsome hc
    show build f L rest (overlay f ph (L.enter ph im)) x = im x
    rw [ih (fun q hq => hkeep q (List.mem_cons_of_mem ph hq)) (hone ▸ hsome), hone]

/-- The last segment that writes a byte decides what it is. -/
theorem build_last {x : Nat} {b : UInt8} {pre post : List Phdr} (hb : byteAt f ph x = some b)
    (hpost : ∀ q ∈ post, byteAt f q x = none ∧ ¬(L.again = true ∧ L.visits q x = true)) :
    build f L (pre ++ ph :: post) im x = some (some b) := by
  have hone : ∀ im : Image, overlay f ph (L.enter ph im) x = some (some b) := by
    intro im
    unfold overlay
    rw [hb]
    rfl
  unfold build
  rw [List.foldl_append, List.foldl_cons]
  refine (build_keeps hpost ?_).trans (hone _)
  rw [hone]
  exact Option.some_ne_none _

/-! ## Files -/

/-- The file gets past the checks of its header. -/
structure Valid (f : File) : Prop where
  size : f.size ≠ 0
  magic : f.magic = true
  fits : f.elfClass = 2 ∧ Elf.tableFits f f.phoff64 f.phnum64 56 = true ∨
    f.elfClass = 1 ∧ Elf.tableFits f f.phoff32 f.phnum32 32 = true

/-- What an accepted ELF64 segment maps and writes lies in the lower half. -/
def LowerHalf (f : File) : Prop := f.Elf64 → ∀ ph ∈ f.accepted f.phdrs64, InLowerHalf ph

def headers (f : File) : List Phdr := loads (if f.elfClass = 2 then f.phdrs64 else f.phdrs32)

def premapOf (f : File) : Premap := if f.elfClass = 2 then elf64 else elf32

def entryOf (f : File) : Nat := if f.elfClass = 2 then f.entry64 else f.entry32

/-- The pre-map loop of a segment comes to its end. -/
def Ends (f : File) (ph : Phdr) : Prop :=
  f.elfClass = 1 → (ph.pVaddr + ph.pMemsz) % 2 ^ 32 ≤ lastBlock

/-- The file can be loaded, given memory. -/
structure Loadable (f : File) : Prop where
  valid : Valid f
  accepted : ∀ ph ∈ headers f, f.accepts ph = true
  ends : ∀ ph ∈ headers f, Ends f ph
  lands : Lands f (premapOf f) (fun _ => False) (headers f)

/-- A stack is mapped for ELF64 files only. -/
def stackOf (f : File) (wantStack : Bool) : Bool := decide (f.elfClass = 2) && wantStack

def finalImage (f : File) (wantStack : Bool) : Image :=
  if stackOf f wantStack = true then stackImage (build f (premapOf f) (headers f) Image.empty)
  else build f (premapOf f) (headers f) Image.empty

theorem mem_loads {phs : List Phdr} : ph ∈ loads phs ↔ ph ∈ phs ∧ ph.pType = 1 := by
  unfold loads
  rw [List.mem_filter, decide_eq_true_eq]

theorem headers64 (h : f.elfClass = 2) : headers f = loads f.phdrs64 := by
  unfold headers
  rw [if_pos h]

theorem headers32 (h : f.elfClass = 1) : headers f = loads f.phdrs32 := by
  unfold headers
  rw [if_neg (by omega)]

theorem premapOf64 (h : f.elfClass = 2) : premapOf f = elf64 := if_pos h

theorem premapOf32 (h : f.elfClass = 1) : premapOf f = elf32 := if_neg (by omega)

/-- If no segment is rejected, the loader gets to all of them. -/
theorem accepted_eq : ∀ {phs : List Phdr}, (∀ ph ∈ loads phs, f.accepts ph = true) →
    f.accepted phs = loads phs := by
  intro phs
  induction phs with
  | nil => exact fun _ => rfl
  | cons ph rest ih =>
    intro h
    rw [File.accepted]
    by_cases htype : ph.pType = 1
    · have hloads : loads (ph :: rest) = ph :: loads rest :=
        List.filter_cons_of_pos (decide_eq_true htype)
      rw [hloads] at h ⊢
      rw [if_neg (not_not.mpr htype), if_pos (h ph List.mem_cons_self),
        ih fun q hq => h q (List.mem_cons_of_mem ph hq)]
    · have hloads : loads (ph :: rest) = loads rest :=
        List.filter_cons_of_neg (by rw [decide_eq_true_eq]; exact htype)
      rw [hloads] at h ⊢
      rw [if_pos htype, ih h]

theorem accepts_holds (h : f.accepts ph = true) : f.holds ph = true := by
  unfold File.accepts at h
  rw [Bool.and_eq_true] at h
  exact h.2

theorem Valid.elf64 (h : Valid f) (hclass : f.elfClass = 2) : f.Elf64 := by
  refine ⟨h.size, h.magic, hclass, ?_⟩
  rcases h.fits with ⟨-, hfits⟩ | ⟨hc, -⟩
  · exact hfits
  · omega

/-- The segments of a file that can be loaded write to addresses that do not wrap around. -/
theorem headers_noWrap (hvalid : Valid f) (hlow : LowerHalf f)
    (hacc : ∀ ph ∈ headers f, f.accepts ph = true) : ∀ ph ∈ headers f, NoWrap ph := by
  intro ph hph
  rcases hvalid.fits with ⟨hclass, -⟩ | ⟨hclass, -⟩
  · have hin := hlow (hvalid.elf64 hclass) ph
    rw [headers64 hclass] at hph hacc
    rw [accepted_eq hacc] at hin
    exact (hin hph).noWrap (holds_lt (accepts_holds (hacc ph hph)))
  · rw [headers32 hclass] at hph
    exact (fields32 f (mem_loads.mp hph).1).noWrap

/-! ## A file with one segment -/

/-- An ELF64 header with the entry point 0x400000, and the type of its only program header. -/
def smallHeader : Memory.Mem := fun i =>
  (([0x7F, 0x45, 0x4C, 0x46, 2] ++ List.replicate 21 0 ++ [0x40] ++ List.replicate 5 0 ++ [64] ++
    List.replicate 23 0 ++ [1] ++ List.replicate 7 0 ++ [1] : List UInt8)[i]?).getD 0

theorem oneSegment_size : 120 < 2 ^ 32 := by decide

/-- An ELF64 file with one segment, whose data begin with the header. -/
def oneSegment (va filesz memsz : Nat) : File where
  buf := Memory.store (Memory.store (Memory.store smallHeader 80 8 va) 96 8 filesz) 104 8 memsz
  size := 120
  size_lt := oneSegment_size

section OneSegment

variable (va filesz memsz : Nat)

theorem oneSegment_load {a n : Nat} (h : a + n ≤ 80) :
    Memory.load (oneSegment va filesz memsz).buf a n = Memory.load smallHeader a n := by
  show Memory.load (Memory.store (Memory.store (Memory.store smallHeader 80 8 va) 96 8 filesz)
    104 8 memsz) a n = _
  rw [Memory.load_store_of_disjoint (Or.inl (by omega)),
    Memory.load_store_of_disjoint (Or.inl (by omega)),
    Memory.load_store_of_disjoint (Or.inl (by omega))]

theorem oneSegment_buf {a : Nat} (h : a < 80) :
    (oneSegment va filesz memsz).buf a = smallHeader a := by
  show Memory.store (Memory.store (Memory.store smallHeader 80 8 va) 96 8 filesz) 104 8 memsz a = _
  rw [Memory.store_outside (by omega), Memory.store_outside (by omega),
    Memory.store_outside (by omega)]

theorem oneSegment_phdr : (oneSegment va filesz memsz).phdr64 64 =
    ⟨1, 0, va % 2 ^ 64, filesz % 2 ^ 64, memsz % 2 ^ 64⟩ := by
  have hva : Memory.load (oneSegment va filesz memsz).buf 80 8 = va % 2 ^ 64 := by
    show Memory.load (Memory.store (Memory.store (Memory.store smallHeader 80 8 va) 96 8 filesz)
      104 8 memsz) 80 8 = _
    rw [Memory.load_store_of_disjoint (by omega), Memory.load_store_of_disjoint (by omega)]
    exact Memory.load_store _ 80 8 va
  have hfilesz : Memory.load (oneSegment va filesz memsz).buf 96 8 = filesz % 2 ^ 64 := by
    show Memory.load (Memory.store (Memory.store (Memory.store smallHeader 80 8 va) 96 8 filesz)
      104 8 memsz) 96 8 = _
    rw [Memory.load_store_of_disjoint (by omega)]
    exact Memory.load_store _ 96 8 filesz
  have hmemsz : Memory.load (oneSegment va filesz memsz).buf 104 8 = memsz % 2 ^ 64 :=
    Memory.load_store _ 104 8 memsz
  have htype : Memory.load (oneSegment va filesz memsz).buf 64 4 = 1 :=
    (oneSegment_load va filesz memsz (by decide)).trans (by decide)
  have hoffset : Memory.load (oneSegment va filesz memsz).buf 72 8 = 0 :=
    (oneSegment_load va filesz memsz (by decide)).trans (by decide)
  unfold File.phdr64
  rw [htype, hoffset, hva, hfilesz, hmemsz]

theorem oneSegment_phoff : (oneSegment va filesz memsz).phoff64 = 64 :=
  (oneSegment_load va filesz memsz (by decide)).trans (by decide)

theorem oneSegment_phnum : (oneSegment va filesz memsz).phnum64 = 1 :=
  (oneSegment_load va filesz memsz (by decide)).trans (by decide)

theorem oneSegment_entry : (oneSegment va filesz memsz).entry64 = 0x400000 :=
  (oneSegment_load va filesz memsz (by decide)).trans (by decide)

theorem oneSegment_class : (oneSegment va filesz memsz).elfClass = 2 := by
  unfold File.elfClass
  rw [oneSegment_buf va filesz memsz (by decide)]
  decide

theorem oneSegment_valid : Valid (oneSegment va filesz memsz) := by
  have hsize : (oneSegment va filesz memsz).size = 120 := rfl
  refine ⟨by omega, ?_, Or.inl ⟨oneSegment_class va filesz memsz, ?_⟩⟩
  · unfold File.magic
    rw [oneSegment_buf va filesz memsz (by decide), oneSegment_buf va filesz memsz (by decide),
      oneSegment_buf va filesz memsz (by decide), oneSegment_buf va filesz memsz (by decide)]
    decide
  · unfold Elf.tableFits
    rw [oneSegment_phoff, oneSegment_phnum]
    rfl

theorem oneSegment_phdrs : (oneSegment va filesz memsz).phdrs64 =
    [⟨1, 0, va % 2 ^ 64, filesz % 2 ^ 64, memsz % 2 ^ 64⟩] := by
  unfold File.phdrs64
  rw [oneSegment_phnum, oneSegment_phoff, List.range_one, List.map_singleton, Nat.zero_mul,
    Nat.add_zero, oneSegment_phdr]

theorem oneSegment_headers : headers (oneSegment va filesz memsz) =
    [⟨1, 0, va % 2 ^ 64, filesz % 2 ^ 64, memsz % 2 ^ 64⟩] := by
  rw [headers64 (oneSegment_class va filesz memsz), oneSegment_phdrs]
  rfl

end OneSegment

end Kyuzen.Loader
