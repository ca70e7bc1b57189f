import Kyuzen.Heap.Frame

/-!
# Requests of every size

`kmalloc` adds 15 to the request to round it up and the size of the header to map pages for it, and
both sums can wrap around. Up to `2 ^ 64 - 48` they do not, and the answer is `NULL` or a block in
mapped memory that is large enough (`kmalloc_safe`). The next sizes are served wrongly: the last 15
are rounded up to 0. `display_buffer_create` checks that the product of width, height and 4 does not
overflow and then asks for such a size (`buffer_too_small`).
-/

namespace Kyuzen.Heap

open Lib.Memory

/-! ## `display_buffer_create` -/

/-- `sizeof(DisplayBuffer)`. -/
def displayBufferSize : Nat := 40

/-- `COLOR_FORMAT_XRGB8888`. -/
inductive ColorFormat where
  | xrgb8888
  deriving DecidableEq

def ColorFormat.code : ColorFormat → Nat
  | .xrgb8888 => 0

/-- `(uint64_t)width * (uint64_t)height * sizeof(uint32_t)`. -/
def bufferBytes (width height : UInt32) : Nat :=
  width.toNat * height.toNat % 2 ^ 64 * 4 % 2 ^ 64

/-- The fields of a `DisplayBuffer`: `width`, `height`, `stride` and `format` (4 bytes each) from
offset `0`, `pixels` (8) at `16`, `owns_pixels` (1) at `24` and `dirty` (8) at `32`. -/
def storeBuffer (m : Mem) (buffer pixels : Nat) (width height : UInt32) (format : ColorFormat) :
    Mem :=
  let m := store m (buffer + 16) 8 pixels
  let m := store m buffer 4 width.toNat
  let m := store m (buffer + 4) 4 height.toNat
  let m := store m (buffer + 8) 4 width.toNat
  let m := store m (buffer + 12) 4 format.code
  let m := store m (buffer + 24) 1 1
  store m (buffer + 32) 8 0

/-- `supply` and `supply'` are for the calls of `kmalloc`, for the buffer and for its pixels. The
test against `SIZE_MAX` is left out: no `uint64_t` is larger. -/
def displayBufferCreate (M : Machine) (supply supply' : Supply) (s : State) (width height : UInt32)
    (format : ColorFormat) : Except Halt (Nat × State) :=
  if width = 0 ∨ height = 0 then .ok (0, s)
  else do
    let (buffer, s) ← kmalloc M supply s displayBufferSize
    if buffer = 0 then return (0, s)
    else
      let bytes := bufferBytes width height
      if width ≠ 0 ∧ bytes / width.toNat / 4 ≠ height.toNat then
        let s ← kfree s buffer
        return (0, s)
      else
        let (pixels, s) ← kmalloc M supply' s bytes
        if pixels = 0 then
          let s ← kfree s buffer
          return (0, s)
        else return (buffer, { s with mem := storeBuffer s.mem buffer pixels width height format })

/-! ## What a caller may rely on -/

/-- `n` bytes at `p` lie in a block in use, below the end of the heap and in mapped pages. -/
structure Accessible (s : State) (p n : Nat) : Prop where
  block : ∃ k, n ≤ k ∧ InUse s p k ∧ p + k ≤ s.currentHeapEnd
  mapped : ∀ x, p ≤ x → x < p + n → pageOf x ∈ s.mapped

def KmallocOk (M : Machine) (supply : Supply) (s : State) (size : Nat) : Prop :=
  ∃ p s', kmalloc M supply s size = .ok (p, s') ∧
    (p = 0 ∧ SameHeap s s' ∨ p ≠ 0 ∧ Accessible s' p size)

/-- `NULL`, or a buffer whose pixels can be accessed. -/
def BufferOk (M : Machine) (supply supply' : Supply) (s : State) (width height : UInt32)
    (format : ColorFormat) : Prop :=
  ∃ p s', displayBufferCreate M supply supply' s width height format = .ok (p, s') ∧
    (p = 0 ∨ Accessible s' (load s'.mem (p + 16) 8) (width.toNat * height.toNat * 4))

variable {M : Machine} {s s' : State} {live : Live} {bs bs' : List Block}

theorem Rep.accessible (h : Rep M s bs) {b : Block} (hb : b ∈ inUse bs) {n : Nat}
    (hn : n ≤ b.size) : Accessible s b.payload n := by
  have hmem := (mem_inUse.mp hb).1
  refine ⟨⟨b.size, hn, h.inUse_iff.mpr ⟨b, hb, rfl, rfl⟩, (h.tiles.mem hmem).2.1⟩, ?_⟩
  intro x hlo hhi
  apply h.pageOf_mapped hmem
  · unfold Block.payload at hlo
    omega
  · simp only [Block.payload, Block.stop] at *
    omega

theorem kmalloc_accessible (supply : Supply) (h : Rep M s bs) {size : Nat}
    (hsize : size + 48 ≤ 2 ^ 64) : KmallocOk M supply s size := by
  obtain ⟨p, s', hrun, ⟨rfl, hsame⟩ | ⟨bs', b, rfl, halloc, -⟩⟩ := kmalloc_cases supply h hsize
  · exact ⟨0, s', hrun, Or.inl ⟨rfl, hsame⟩⟩
  · refine ⟨_, s', hrun, Or.inr ⟨b.payload_ne_zero, ?_⟩⟩
    exact halloc.rep.accessible ((halloc.inUse b).mpr (Or.inr rfl)) halloc.size_le

/-- The check for overflow: the product fits into 64 bits. -/
theorem bufferBytes_eq {width height : UInt32} (hwidth : width ≠ 0)
    (hcheck : bufferBytes width height / width.toNat / 4 = height.toNat) :
    bufferBytes width height = width.toNat * height.toNat * 4 := by
  have hw : 0 < width.toNat := by
    rw [Nat.pos_iff_ne_zero]
    intro hzero
    exact hwidth (UInt32.toNat_inj.mp hzero)
  unfold bufferBytes at hcheck ⊢
  generalize hp : width.toNat * height.toNat = n at hcheck ⊢
  rw [Nat.div_div_eq_div_mul] at hcheck
  have hle : height.toNat * (width.toNat * 4) ≤ n % 2 ^ 64 * 4 % 2 ^ 64 := by
    rw [← hcheck]
    exact Nat.div_mul_le_self _ _
  have hn : height.toNat * (width.toNat * 4) = n * 4 := by
    rw [← hp]
    ring
  omega

theorem storeBuffer_pixels (m : Mem) (buffer pixels : Nat) (width height : UInt32)
    (format : ColorFormat) (hpixels : pixels < 2 ^ 64) :
    load (storeBuffer m buffer pixels width height format) (buffer + 16) 8 = pixels := by
  unfold storeBuffer
  simp (disch := omega) only [load_store_of_disjoint, load_store]
  exact Nat.mod_eq_of_lt hpixels

theorem storeBuffer_outside {m : Mem} {buffer pixels x : Nat} (width height : UInt32)
    (format : ColorFormat) (hx : x < buffer ∨ buffer + displayBufferSize ≤ x) :
    storeBuffer m buffer pixels width height format x = m x := by
  have hsize : displayBufferSize = 40 := rfl
  unfold storeBuffer
  simp (disch := omega) only [store_outside]

/-- The fields of a buffer are stored into its block. -/
theorem Rep.storeBuffer (h : Rep M s bs) {b : Block} (hb : b ∈ inUse bs)
    (hsize : displayBufferSize ≤ b.size) (pixels : Nat) (width height : UInt32)
    (format : ColorFormat) :
    Rep M { s with mem := storeBuffer s.mem b.payload pixels width height format } bs := by
  apply h.write (mem_inUse.mp hb).1
  intro x hx
  apply storeBuffer_outside
  simp only [Block.payload, Block.stop] at *
  omega

/-- A buffer that is given back. -/
theorem kfree_null (h : Rep M s bs) {b : Block} (hb : b ∈ inUse bs) :
    ∃ s', (do let s ← kfree s b.payload; return (0, s) : Except Halt (Nat × State)) = .ok (0, s') := by
  obtain ⟨s', _, hrun, -⟩ := kfree_rep h hb
  exact ⟨s', by rw [hrun]; rfl⟩

theorem displayBufferCreate_ok (supply supply' : Supply) (h : Rep M s bs) (width height : UInt32)
    (format : ColorFormat) (hbytes : width.toNat * height.toNat * 4 + 48 ≤ 2 ^ 64 ∨
      2 ^ 64 ≤ width.toNat * height.toNat * 4) :
    BufferOk M supply supply' s width height format := by
  unfold BufferOk displayBufferCreate
  by_cases hempty : width = 0 ∨ height = 0
  · exact ⟨0, s, by rw [if_pos hempty], Or.inl rfl⟩
  rw [if_neg hempty]
  obtain ⟨p, s₁, hrun, ⟨rfl, -⟩ | ⟨bs₁, b, rfl, halloc, -⟩⟩ :=
    kmalloc_cases supply h (show displayBufferSize + 48 ≤ 2 ^ 64 by decide)
  · exact ⟨0, s₁, by rw [hrun]; rfl, Or.inl rfl⟩
  have hb : b ∈ inUse bs₁ := (halloc.inUse b).mpr (Or.inr rfl)
  rw [hrun]
  simp only [bind, Except.bind, if_neg b.payload_ne_zero]
  by_cases hcheck : width ≠ 0 ∧ bufferBytes width height / width.toNat / 4 ≠ height.toNat
  · rw [if_pos hcheck]
    obtain ⟨s', hnull⟩ := kfree_null halloc.rep hb
    exact ⟨0, s', hnull, Or.inl rfl⟩
  rw [if_neg hcheck]
  have hwidth : width ≠ 0 := fun hzero => hempty (Or.inl hzero)
  have hproduct := bufferBytes_eq hwidth (not_not.mp fun hne => hcheck ⟨hwidth, hne⟩)
  have hlt : bufferBytes width height < 2 ^ 64 := Nat.mod_lt _ (by decide)
  have hsize : bufferBytes width height + 48 ≤ 2 ^ 64 := by omega
  obtain ⟨q, s₂, hrun₂, ⟨rfl, hsame⟩ | ⟨bs₂, c, rfl, halloc₂, -⟩⟩ :=
    kmalloc_cases supply' halloc.rep hsize
  · obtain ⟨s', hnull⟩ := kfree_null (hsame.rep halloc.rep) hb
    refine ⟨0, s', ?_, Or.inl rfl⟩
    rw [hrun₂]
    exact hnull
  · have hb₂ : b ∈ inUse bs₂ := (halloc₂.inUse b).mpr (Or.inl hb)
    have hc : c ∈ inUse bs₂ := (halloc₂.inUse c).mpr (Or.inr rfl)
    have hrep := halloc₂.rep.storeBuffer hb₂ halloc.size_le c.payload width height format
    have hpixels : c.payload < 2 ^ 64 := by
      have hstop := halloc₂.rep.stop_lt (mem_inUse.mp hc).1
      simp only [Block.payload, Block.stop] at *
      omega
    refine ⟨b.payload,
      { s₂ with mem := storeBuffer s₂.mem b.payload c.payload width height format }, ?_,
      Or.inr ?_⟩
    · rw [hrun₂]
      simp only [if_neg c.payload_ne_zero]
      rfl
    · show Accessible _ (load (storeBuffer s₂.mem b.payload c.payload width height format)
        (b.payload + 16) 8) _
      rw [storeBuffer_pixels _ _ _ _ _ _ hpixels, ← hproduct]
      exact hrep.accessible hc halloc₂.size_le

/-- In every state of a run whose requests are at most `2 ^ 64 - 48`, such a request is answered by
`NULL`, with the heap as it was, or by a block that is large enough, below the end of the heap and
mapped; and so `display_buffer_create`, when it makes only such requests, returns `NULL` or a
buffer whose pixels can all be accessed. -/
theorem kmalloc_safe (h : SizedReach M s live) :
    (∀ supply size, size + 48 ≤ 2 ^ 64 → KmallocOk M supply s size) ∧
    ∀ supply supply' (width height : UInt32) format,
      width.toNat * height.toNat * 4 + 48 ≤ 2 ^ 64 ∨ 2 ^ 64 ≤ width.toNat * height.toNat * 4 →
        BufferOk M supply supply' s width height format := by
  obtain ⟨bs, hinv, -⟩ := sizedReach_inv h
  refine ⟨?_, ?_⟩
  · intro supply size hsize
    exact kmalloc_accessible supply hinv.rep hsize
  · intro supply supply' width height format hbytes
    exact displayBufferCreate_ok supply supply' hinv.rep width height format hbytes

/-- A buffer for a small screen, right after boot; it is granted. -/
theorem kmalloc_safe_screen :
    BufferOk smallMachine allGranted allGranted (initHeap fun _ => 0) 64 48 .xrgb8888 ∧
      (displayBufferCreate smallMachine allGranted allGranted (initHeap fun _ => 0) 64 48
        .xrgb8888).map Prod.fst = .ok (heapStart + 32) :=
  ⟨(kmalloc_safe (SizedReach.init fun _ => 0)).2 _ _ _ _ _ (Or.inl (by decide)),
    by decide⟩

/-- On the empty heap of boot, a request of `2 ^ 64 - 1` bytes is answered by `NULL` but leaves a
page behind. A buffer of 2147483647 times 2147483649 pixels has `2 ^ 64 - 4` bytes, and its pixels get a
block of size 0. -/
theorem buffer_too_small : SizedReach smallMachine (initHeap fun _ => 0) (fun _ => none) ∧
    ¬KmallocOk smallMachine allGranted (initHeap fun _ => 0) (2 ^ 64 - 1) ∧
    ¬BufferOk smallMachine allGranted allGranted (initHeap fun _ => 0) 2147483647 2147483649
      .xrgb8888 := by
  refine ⟨SizedReach.init _, ?_, ?_⟩
  · have hval : (kmalloc smallMachine allGranted (initHeap fun _ => 0) (2 ^ 64 - 1)).map
        (fun r => (r.1, r.2.currentHeapEnd)) = .ok (0, heapStart + 4096) := by decide
    rintro ⟨p, s', hrun, hok⟩
    rw [hrun] at hval
    obtain ⟨rfl, hend⟩ : p = 0 ∧ s'.currentHeapEnd = heapStart + 4096 := by
      simpa only [Prod.mk.injEq] using Except.ok.inj hval
    rcases hok with ⟨-, hsame⟩ | ⟨hne, -⟩
    · rw [hsame.stop] at hend
      cases hend
    · exact hne rfl
  · have hval : (displayBufferCreate smallMachine allGranted allGranted (initHeap fun _ => 0)
        2147483647 2147483649 .xrgb8888).map (fun r => (r.1, load r.2.mem (r.1 + 16) 8,
          sizeOf r.2.mem (load r.2.mem (r.1 + 16) 8 - headerSize))) =
        .ok (heapStart + 32, heapStart + 112, 0) := by decide
    rintro ⟨p, s', hrun, hok⟩
    rw [hrun] at hval
    obtain ⟨rfl, hpixels, hsize⟩ : p = heapStart + 32 ∧ load s'.mem (p + 16) 8 = heapStart + 112 ∧
        sizeOf s'.mem (load s'.mem (p + 16) 8 - headerSize) = 0 := by
      simpa only [Prod.mk.injEq] using Except.ok.inj hval
    rcases hok with hnull | ⟨⟨k, hk, ⟨addrs, -, a, -, ha, rfl, -⟩, -⟩, -⟩
    · cases hnull
    · rw [ha, Nat.add_sub_cancel] at hsize
      rw [hsize] at hk
      exact absurd hk (by decide)

end Kyuzen.Heap
