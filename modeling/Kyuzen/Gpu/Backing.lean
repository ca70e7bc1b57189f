import Mathlib.Tactic.IntervalCases
import Kyuzen.Gpu.Surface

/-!
# Where the pixels of a surface are stored

The drawing functions reach pixel `(x, y)` at a fixed distance from the first page of the surface.
For the device the pages are those of the `ATTACH_BACKING` command, one entry for each, wherever
the page allocator has found them. Both mean the same memory, for whatever is drawn, exactly if
the pages have been handed out one behind the other (`surface_confined`). On a machine where a
page in between is in use, a surface of two pages is drawn onto the page of somebody else
(`surface_leaks`).
-/

namespace Kyuzen.Gpu

variable {s dst : Surface} {m : Mem} {P : Store → Prop}

/-! ## The stores of the drawing functions -/

/-- The address that the drawing functions compute for a pixel. -/
def Surface.pixelAddr (s : Surface) (x y : Nat) : Nat := s.backing + 4 * (y * s.width + x)

/-- A store to a pixel of the surface, at the computed address. -/
structure AtPixel (e : Store) : Prop where
  x : e.x < e.dst.width
  y : e.y < e.dst.height
  addr : e.addr = e.dst.pixelAddr e.x e.y

theorem store_stores (hm : ∀ e ∈ m.stores, P e) {e : Store} (he : P e) (val : Nat) :
    ∀ e' ∈ (m.store e val).stores, P e' := by
  intro e' he'
  rcases List.mem_cons.mp he' with rfl | he'
  · exact he
  · exact hm e' he'

theorem storeRow_stores {x y row n : Nat} (val : Nat → (Nat → Nat) → Nat)
    (hm : ∀ e ∈ m.stores, P e)
    (hnew : ∀ i < n, P ⟨dst, x + i, y, dst.backing + 4 * (row + i)⟩) :
    ∀ e ∈ (storeRow dst x y row val n m).stores, P e := by
  unfold storeRow
  induction n with
  | zero => exact hm
  | succ n ih =>
    rw [List.range_succ, List.foldl_append]
    apply store_stores
    · exact ih fun i hi => hnew i (by omega)
    · exact hnew n (by omega)

theorem copyRows_stores {x w step h y srow drow : Nat} (read : Nat → (Nat → Nat) → Nat)
    (hm : ∀ e ∈ m.stores, P e)
    (hnew : ∀ j < h, ∀ i < w,
      P ⟨dst, x + i, y + j, dst.backing + 4 * (drow + j * dst.width + i)⟩) :
    ∀ e ∈ (copyRows dst x w step read h y srow drow m).stores, P e := by
  induction h generalizing y srow drow m with
  | zero => exact hm
  | succ h ih =>
    apply ih
    · apply storeRow_stores _ hm
      intro i hi
      have hfirst := hnew 0 (by omega) i hi
      rw [Nat.zero_mul, Nat.add_zero, Nat.add_zero] at hfirst
      exact hfirst
    · intro j hj i hi
      have hnext := hnew (j + 1) (by omega) i hi
      rw [show y + (j + 1) = y + 1 + j by omega,
        show drow + (j + 1) * dst.width = drow + dst.width + j * dst.width by ring] at hnext
      exact hnext

/-- A pixel of the part of a rectangle that lies on the surface. -/
theorem atPixel_of_clip {rect : Rect} (hx : rect.x < dst.width) (hy : rect.y < dst.height)
    {i j : Nat} (hi : i < clip rect.w (dst.width - rect.x))
    (hj : j < clip rect.h (dst.height - rect.y)) {addr : Nat}
    (haddr : addr = dst.pixelAddr (rect.x + i) (rect.y + j)) :
    AtPixel ⟨dst, rect.x + i, rect.y + j, addr⟩ := by
  have hclip : ∀ n max, clip n max ≤ max := by
    intro n max
    unfold clip
    split <;> omega
  have hw := hclip rect.w (dst.width - rect.x)
  have hh := hclip rect.h (dst.height - rect.y)
  refine ⟨?_, ?_, haddr⟩
  · show rect.x + i < dst.width
    omega
  · show rect.y + j < dst.height
    omega

theorem draw_stores (hm : ∀ e ∈ m.stores, AtPixel e) (op : DrawOp) :
    ∀ e ∈ (draw m op).stores, AtPixel e := by
  cases op with
  | upload s src srcPitch rect =>
    show ∀ e ∈ (virtioSurfaceUpload s src srcPitch rect m).stores, AtPixel e
    unfold virtioSurfaceUpload
    by_cases hout : rect.x ≥ s.width ∨ rect.y ≥ s.height
    · rw [if_pos hout]
      exact hm
    · rw [if_neg hout]
      apply copyRows_stores _ hm
      intro j hj i hi
      apply atPixel_of_clip (by omega) (by omega) hi hj
      rw [Surface.pixelAddr]
      ring
  | fill dst rect argb =>
    show ∀ e ∈ (virtioFillRect dst rect argb m).stores, AtPixel e
    unfold virtioFillRect
    by_cases hout : rect.x ≥ dst.width ∨ rect.y ≥ dst.height
    · rw [if_pos hout]
      exact hm
    · rw [if_neg hout]
      dsimp only
      have hrows : ∀ n ≤ clip rect.h (dst.height - rect.y), ∀ e ∈ ((List.range n).foldl
          (fun m y => storeRow dst rect.x (rect.y + y) ((rect.y + y) * dst.width + rect.x)
            (fun _ _ => argb &&& 0xFFFFFF) (clip rect.w (dst.width - rect.x)) m) m).stores,
          AtPixel e := by
        intro n hn
        induction n with
        | zero => exact hm
        | succ n ih =>
          rw [List.range_succ, List.foldl_append, List.foldl_cons, List.foldl_nil]
          apply storeRow_stores _ (ih (by omega))
          intro i hi
          apply atPixel_of_clip (by omega) (by omega) hi (by omega)
          rw [Surface.pixelAddr]
          ring
      exact hrows _ (le_refl _)
  | blit dst dstRect src srcRect =>
    show ∀ e ∈ (virtioBlit dst dstRect src srcRect m).stores, AtPixel e
    unfold virtioBlit
    by_cases hsize : dstRect.w ≠ srcRect.w ∨ dstRect.h ≠ srcRect.h
    · rw [if_pos hsize]
      exact hm
    rw [if_neg hsize]
    by_cases hout : dstRect.x ≥ dst.width ∨ dstRect.y ≥ dst.height
    · rw [if_pos hout]
      exact hm
    rw [if_neg hout]
    dsimp only
    by_cases hsrc : srcRect.x ≥ src.width ∨ srcRect.y ≥ src.height
    · rw [if_pos hsrc]
      exact hm
    rw [if_neg hsrc]
    apply copyRows_stores _ hm
    intro j hj i hi
    apply atPixel_of_clip (by omega) (by omega) hi hj
    rw [Surface.pixelAddr]
    ring

theorem drawAll_stores (word : Nat → Nat) (ops : List DrawOp) :
    ∀ e ∈ (drawAll word ops).stores, AtPixel e := by
  have hrun : ∀ m : Mem, (∀ e ∈ m.stores, AtPixel e) → ∀ e ∈ (ops.foldl draw m).stores, AtPixel e := by
    induction ops with
    | nil => exact fun m hm => hm
    | cons op ops ih => exact fun m hm => ih (draw m op) (draw_stores hm op)
  exact hrun _ fun e he => absurd he List.not_mem_nil

/-- A single pixel can be drawn. -/
theorem fill_pixel (s : Surface) {x y : Nat} (hx : x < s.width) (hy : y < s.height)
    (word : Nat → Nat) : ⟨s, x, y, s.pixelAddr x y⟩ ∈
      (drawAll word [.fill s ⟨x, y, 1, 1⟩ 0]).stores := by
  have hw : clip 1 (s.width - x) = 1 := if_neg (by omega)
  have hh : clip 1 (s.height - y) = 1 := if_neg (by omega)
  show _ ∈ (virtioFillRect s ⟨x, y, 1, 1⟩ 0 ⟨word, []⟩).stores
  unfold virtioFillRect
  rw [if_neg (by show ¬(x ≥ s.width ∨ y ≥ s.height); omega)]
  simp only [hw, hh, storeRow, List.range_one, List.foldl_cons, List.foldl_nil, Nat.add_zero]
  exact List.mem_cons_self

/-! ## The pages of a surface -/

/-- What `virtio_surface_create` makes sure of. -/
structure Backed (s : Surface) : Prop where
  width : 0 < s.width
  pages : s.pages.length = (s.width * s.height * 4 + 4095) / 4096
  backing : s.backing = s.pages.headD 0
  attached : s.attached = s.pages.map fun pa => ⟨pa, 4096⟩
  aligned : ∀ pa ∈ s.pages, 4096 ∣ pa

theorem pmmAllocPage_aligned (p : Pmm.State) : 4096 ∣ (Pmm.pmmAllocPage p).1 := by
  have hpage : ∀ i, 4096 ∣ i * Pmm.pageSize % 2 ^ 64 := by
    intro i
    show 4096 ∣ i * 4096 % 2 ^ 64
    omega
  unfold Pmm.pmmAllocPage
  split
  · exact Nat.dvd_zero 4096
  · split
    · exact hpage _
    · dsimp only
      split
      · exact hpage _
      · exact Nat.dvd_zero 4096

/-- The answers of `pmm_alloc_page` to `count` calls, between which others use the allocator. -/
def handedOut (others : Nat → List Pmm.Op) : Nat → Nat → Pmm.State → List Nat
  | 0, _, _ => []
  | count + 1, n, p =>
    (Pmm.pmmAllocPage (Pmm.run p (others n))).1 ::
      handedOut others count (n + 1) (Pmm.pmmAllocPage (Pmm.run p (others n))).2

theorem gpuAllocPages_spec (others : Nat → List Pmm.Op) (count n : Nat) (d : Driver) :
    (gpuAllocPages others count n d).1.length ≤ count ∧
      ((gpuAllocPages others count n d).1.length = count →
        (gpuAllocPages others count n d).1 = handedOut others count n d.pmm) ∧
      ∀ pa ∈ (gpuAllocPages others count n d).1, 4096 ∣ pa := by
  induction count generalizing n d with
  | zero => exact ⟨le_refl 0, fun _ => rfl, fun pa hpa => absurd hpa List.not_mem_nil⟩
  | succ count ih =>
    simp only [gpuAllocPages]
    split
    · exact ⟨Nat.zero_le _, fun hlen => absurd hlen (Nat.succ_ne_zero count).symm,
        fun pa hpa => absurd hpa List.not_mem_nil⟩
    · obtain ⟨hlen, hanswers, halign⟩ := ih (n + 1)
        { d with
          pmm := (Pmm.pmmAllocPage (Pmm.run d.pmm (others n))).2
          word := clearPage d.word (Pmm.pmmAllocPage (Pmm.run d.pmm (others n))).1 }
      refine ⟨Nat.succ_le_succ hlen, ?_, ?_⟩
      · intro hall
        exact congrArg _ (hanswers (Nat.succ.inj hall))
      · intro pa hpa
        rcases List.mem_cons.mp hpa with rfl | hpa
        · exact pmmAllocPage_aligned _
        · exact halign pa hpa

theorem virtioSurfaceCreate_spec {a : Answers} {others : Nat → List Pmm.Op} {d : Driver} {w h : Nat}
    (hs : (virtioSurfaceCreate a others d w h).1 = some s) :
    Backed s ∧ s.pages = handedOut others ((w * h * 4 + 4095) / 4096) 0 d.pmm := by
  unfold virtioSurfaceCreate at hs
  have hmax : ghalMaxDim = 8192 := rfl
  by_cases hdim : w = 0 ∨ h = 0 ∨ w > ghalMaxDim ∨ h > ghalMaxDim
  · rw [if_pos hdim] at hs
    cases hs
  rw [if_neg hdim] at hs
  have hle : w * h ≤ 8192 * 8192 := Nat.mul_le_mul (by omega) (by omega)
  have hbytes : w * h * 4 % 2 ^ 64 = w * h * 4 := Nat.mod_eq_of_lt (by omega)
  have hpages : (w * h * 4 + 4095) / 4096 % 2 ^ 32 = (w * h * 4 + 4095) / 4096 :=
    Nat.mod_eq_of_lt (by omega)
  simp only [hbytes, hpages] at hs
  obtain ⟨hlen, hanswers, halign⟩ := gpuAllocPages_spec others ((w * h * 4 + 4095) / 4096) 0 d
  repeat' split at hs
  all_goals cases hs
  have hall : (gpuAllocPages others ((w * h * 4 + 4095) / 4096) 0 d).1.length =
      (w * h * 4 + 4095) / 4096 := by omega
  exact ⟨⟨by show 0 < w; omega, hall, rfl, rfl, halign⟩, hanswers hall⟩

/-- The device finds a byte in the page of its number. -/
theorem deviceAddr_pages (pages : List Nat) (offset : Nat) :
    deviceAddr (pages.map fun pa => ⟨pa, 4096⟩) offset =
      pages[offset / 4096]?.map (· + offset % 4096) := by
  induction pages generalizing offset with
  | nil => rfl
  | cons pa pages ih =>
    show (if offset < 4096 then some (pa + offset) else _) = _
    by_cases hfirst : offset < 4096
    · rw [if_pos hfirst, Nat.div_eq_of_lt hfirst, Nat.mod_eq_of_lt hfirst]
      rfl
    · rw [if_neg hfirst, ih, show offset / 4096 = (offset - 4096) / 4096 + 1 by omega,
        show offset % 4096 = (offset - 4096) % 4096 by omega, List.getElem?_cons_succ]

/-! ## Pixels in their pages -/

/-- The bytes of the store lie in a page of the surface, and that is the page in which the device
finds the pixel. -/
def StoredRight (e : Store) : Prop :=
  (∃ pa ∈ e.dst.pages, pa ≤ e.addr ∧ e.addr + 4 ≤ pa + 4096) ∧
    ∃ a, deviceAddr e.dst.attached ((e.y * e.dst.width + e.x) * 4) = some a ∧
      e.addr / 4096 = a / 4096

/-- The pages have been handed out one behind the other. -/
def Contiguous (pages : List Nat) : Prop :=
  ∀ i pa, pages[i]? = some pa → pa = pages.headD 0 + 4096 * i

/-- A pixel has a page. -/
theorem Backed.page (hs : Backed s) {x y : Nat} (hx : x < s.width) (hy : y < s.height) :
    (y * s.width + x) * 4 / 4096 < s.pages.length := by
  have hrow : (y + 1) * s.width ≤ s.height * s.width := Nat.mul_le_mul_right _ hy
  have hlen := hs.pages
  rw [Nat.add_mul, Nat.one_mul, Nat.mul_comm s.height s.width] at hrow
  omega

theorem Backed.storedRight (hs : Backed s) (hcont : Contiguous s.pages) {e : Store}
    (he : AtPixel e) (hdst : e.dst = s) : StoredRight e := by
  subst hdst
  set offset := (e.y * e.dst.width + e.x) * 4 with hoffset
  have hidx := hs.page he.x he.y
  rw [← hoffset] at hidx
  have hget := List.getElem?_eq_getElem hidx
  have hpa := hcont _ _ hget
  have haddr : e.addr = e.dst.pages[offset / 4096] + offset % 4096 := by
    rw [hpa, he.addr, Surface.pixelAddr, hs.backing]
    omega
  refine ⟨⟨_, List.getElem_mem hidx, ?_, ?_⟩, e.addr, ?_, rfl⟩
  · omega
  · omega
  · rw [← hoffset, hs.attached, deviceAddr_pages, hget, haddr]
    rfl

/-- Page `i` starts with pixel `1024 * i`. -/
theorem Backed.first_pixel (hs : Backed s) {i : Nat} (hi : i < s.pages.length) :
    1024 * i % s.width < s.width ∧ 1024 * i / s.width < s.height := by
  have hlen := hs.pages
  refine ⟨Nat.mod_lt _ hs.width, ?_⟩
  rw [Nat.div_lt_iff_lt_mul hs.width, Nat.mul_comm s.height]
  omega

theorem Backed.contiguous (hs : Backed s)
    (hright : ∀ x y, x < s.width → y < s.height → StoredRight ⟨s, x, y, s.pixelAddr x y⟩) :
    Contiguous s.pages := by
  intro i pa hpa
  obtain ⟨hi, hget⟩ := List.getElem?_eq_some_iff.mp hpa
  obtain ⟨hx, hy⟩ := hs.first_pixel hi
  obtain ⟨-, a, ha, hpage⟩ := hright _ _ hx hy
  have hoffset : (1024 * i / s.width * s.width + 1024 * i % s.width) * 4 = 4096 * i := by
    rw [Nat.div_add_mod']
    omega
  have haddr : s.pixelAddr (1024 * i % s.width) (1024 * i / s.width) = s.backing + 4096 * i := by
    rw [Surface.pixelAddr]
    omega
  have halign := hs.aligned pa (List.mem_of_getElem? hpa)
  have hbase : 4096 ∣ s.pages.headD 0 := by
    cases hpages : s.pages with
    | nil => exact Nat.dvd_zero 4096
    | cons first rest => exact hs.aligned first (by rw [hpages]; exact List.mem_cons_self)
  simp only [hoffset] at ha
  rw [hs.attached, deviceAddr_pages, Nat.mul_div_cancel_left i (by decide), hpa] at ha
  have ha : pa + 4096 * i % 4096 = a := Option.some.inj ha
  have hpage : (s.pixelAddr (1024 * i % s.width) (1024 * i / s.width)) / 4096 = a / 4096 := hpage
  rw [haddr, hs.backing] at hpage
  omega

/-- Whatever is drawn on any surfaces, every byte for `s` is written to a page of `s`, and to the
page in which the device finds the pixel, if and only if `pmm_alloc_page` has handed out the pages
for `s` one behind the other. -/
theorem surface_confined {a : Answers} {others : Nat → List Pmm.Op} {d : Driver} {w h : Nat}
    (hs : (virtioSurfaceCreate a others d w h).1 = some s) :
    (∀ word ops, ∀ e ∈ (drawAll word ops).stores, e.dst = s → StoredRight e) ↔
      Contiguous (handedOut others ((w * h * 4 + 4095) / 4096) 0 d.pmm) := by
  obtain ⟨hbacked, hpages⟩ := virtioSurfaceCreate_spec hs
  rw [← hpages]
  constructor
  · intro hall
    apply hbacked.contiguous
    intro x y hx hy
    exact hall (fun _ => 0) _ _ (fill_pixel s hx hy _) rfl
  · intro hcont word ops e he hdst
    exact hbacked.storedRight hcont (drawAll_stores word ops e he) hdst

/-- Three pages are free after boot. -/
def fourPages : Pmm.Memmap := [⟨0x4800000, 0x4000, .usable⟩]

/-- The surface of 32 times 64 pixels that is created after `before`. -/
def createdAfter (before : List Pmm.Op) : Option Surface :=
  (Pmm.pmmInitDynamic fourPages).bind fun p₀ =>
    (virtioSurfaceCreate ⟨true, true, true, true, true⟩ (fun _ => [])
      ⟨Pmm.run p₀ before, fun _ => 0, 1⟩ 32 64).1

theorem created_of_createdAfter {before : List Pmm.Op} (hs : createdAfter before = some s) :
    Created s := by
  obtain ⟨p₀, hinit, hcreate⟩ := Option.bind_eq_some_iff.mp hs
  exact ⟨_, p₀, before, _, _, _, 32, 64, hinit, rfl, hcreate⟩

/-- A surface of two pages. -/
def twoPageSurface (first second : Nat) : Surface :=
  ⟨1, 32, 64, [first, second], 2, first, [⟨first, 4096⟩, ⟨second, 4096⟩]⟩

/-- Right after boot the pages follow each other, and the lower half of the surface is drawn to
the second page. -/
theorem surface_confined_boot :
    StoredRight ⟨twoPageSurface 0x4801000 0x4802000, 0, 32, 0x4802000⟩ := by
  have hcreated : createdAfter [] = some (twoPageSurface 0x4801000 0x4802000) := by decide +kernel
  obtain ⟨p₀, -, hcreate⟩ := Option.bind_eq_some_iff.mp hcreated
  refine (surface_confined hcreate).mpr ?_ (fun _ => 0)
    [.fill (twoPageSurface 0x4801000 0x4802000) ⟨0, 32, 1, 1⟩ 0] _ List.mem_cons_self rfl
  rw [← (virtioSurfaceCreate_spec hcreate).2]
  intro i pa hpa
  obtain ⟨hi, rfl⟩ := List.getElem?_eq_some_iff.mp hpa
  have hi : i < 2 := hi
  interval_cases i
  · rfl
  · rfl

/-- Somebody else has the page in the middle, and a rectangle in the lower half of the surface is
drawn there. -/
theorem surface_leaks : ¬∀ s, Created s →
    ∀ word ops, ∀ e ∈ (drawAll word ops).stores, e.dst = s → StoredRight e := by
  intro hall
  have hcreated : createdAfter [.alloc, .alloc, .free 0x4801000] =
      some (twoPageSurface 0x4801000 0x4803000) := by decide +kernel
  have hright := hall _ (created_of_createdAfter hcreated) (fun _ => 0)
    [.fill (twoPageSurface 0x4801000 0x4803000) ⟨0, 32, 1, 1⟩ 0]
    ⟨twoPageSurface 0x4801000 0x4803000, 0, 32, 0x4802000⟩ (List.mem_cons_self) rfl
  obtain ⟨⟨pa, hpa, hlow, hhigh⟩, -⟩ := hright
  have hpa : pa ∈ [0x4801000, 0x4803000] := hpa
  rw [List.mem_cons, List.mem_singleton] at hpa
  dsimp only at hlow hhigh
  omega

end Kyuzen.Gpu
