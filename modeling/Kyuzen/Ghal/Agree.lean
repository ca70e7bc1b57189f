import Kyuzen.Ghal.Model

/-!
# The backends draw the same

Both backends clip the rectangles of an upload, a fill and the destination of a blit to the
surface. The software backend also clips the rectangle that a blit reads, and so never leaves the
source (`softwareOps_readsInside`); the other one does not. As long as the clipped destination of
every blit fits into what its source has from the corner of the rectangle on, the two compute the
same pixels (`backends_agree`). When it does not, the virtio backend copies the start of the next
row, or what lies behind the source (`blit_leaves_source`).
-/

namespace Kyuzen.Ghal

open Gpu (Rect clip)

variable {s s' : State}

theorem clip_eq (n max : Nat) : clip n max = min n max := by
  unfold clip
  split <;> omega

/-! ## Sizes stay -/

/-- The surfaces have the same sizes in both states. -/
def SameSizes (s s' : State) : Prop :=
  ∀ id, (s'.canvas id).width = (s.canvas id).width ∧ (s'.canvas id).height = (s.canvas id).height

theorem SameSizes.refl (s : State) : SameSizes s s := fun _ => ⟨rfl, rfl⟩

theorem SameSizes.trans {s'' : State} (h : SameSizes s s') (h' : SameSizes s' s'') :
    SameSizes s s'' := fun id => ⟨(h' id).1.trans (h id).1, (h' id).2.trans (h id).2⟩

theorem setPixel_sizes (s : State) (dst index val : Nat) :
    SameSizes s (s.setPixel dst index val) := by
  intro id
  simp only [State.setPixel]
  by_cases hid : id = dst
  · subst hid
    rw [Function.update_self]
    exact ⟨rfl, rfl⟩
  · rw [Function.update_of_ne hid]
    exact ⟨rfl, rfl⟩

theorem copyPixel_sizes (s : State) (dst index : Nat) (src : Source) (i : Nat) :
    SameSizes s (s.copyPixel dst index src i) := by
  cases src with
  | memory pixels => exact setPixel_sizes s dst index _
  | surface id => exact setPixel_sizes { s with reads := ⟨id, i⟩ :: s.reads } dst index _

theorem foldl_sizes {α : Type} {f : State → α → State} (hf : ∀ s a, SameSizes s (f s a))
    (l : List α) (s : State) : SameSizes s (l.foldl f s) := by
  induction l generalizing s with
  | nil => exact SameSizes.refl s
  | cons a l ih => exact (hf s a).trans (ih (f s a))

theorem memcpy_sizes (dst drow : Nat) (src : Source) (srow bytes : Nat) (s : State) :
    SameSizes s (memcpy dst drow src srow bytes s) :=
  foldl_sizes (fun s _ => copyPixel_sizes s dst _ src _) _ s

theorem copyRows_sizes (dst : Nat) (src : Source) (w step h srow drow : Nat) (s : State) :
    SameSizes s (copyRows dst src w step h srow drow s) := by
  induction h generalizing srow drow s with
  | zero => exact SameSizes.refl s
  | succ h ih => exact (memcpy_sizes dst drow src srow _ s).trans (ih _ _ _)

theorem softwareOps_sizes (s : State) (op : Op) : SameSizes s (softwareOps s op) := by
  cases op with
  | upload id src srcPitch rect =>
    show SameSizes s (swSurfaceUpload id src srcPitch rect s)
    unfold swSurfaceUpload
    dsimp only
    split
    · exact SameSizes.refl s
    · split
      · exact SameSizes.refl s
      · exact copyRows_sizes _ _ _ _ _ _ _ s
  | fill dst rect argb =>
    show SameSizes s (fillClipped dst rect argb s)
    unfold fillClipped
    dsimp only
    split
    · exact SameSizes.refl s
    · apply foldl_sizes
      intro s i
      apply foldl_sizes
      intro s j
      exact setPixel_sizes s _ _ _
  | blit dst dstRect src srcRect =>
    show SameSizes s (swBlit dst dstRect src srcRect s)
    unfold swBlit
    dsimp only
    split
    · exact SameSizes.refl s
    · split
      · exact SameSizes.refl s
      · split
        · exact SameSizes.refl s
        · exact copyRows_sizes _ _ _ _ _ _ _ s

/-! ## Reads stay inside the source -/

/-- Every index that was read from a surface is one of its pixels. -/
def ReadsInside (s : State) : Prop :=
  ∀ r ∈ s.reads, r.index < (s.canvas r.surface).width * (s.canvas r.surface).height

theorem ReadsInside.of_reads (h : ReadsInside s) (hsizes : SameSizes s s')
    (hreads : s'.reads = s.reads) : ReadsInside s' := by
  intro r hr
  rw [hreads] at hr
  rw [(hsizes r.surface).1, (hsizes r.surface).2]
  exact h r hr

theorem foldl_reads {α : Type} {f : State → α → State} (hf : ∀ s a, (f s a).reads = s.reads)
    (l : List α) (s : State) : (l.foldl f s).reads = s.reads := by
  induction l generalizing s with
  | nil => rfl
  | cons a l ih => exact (ih (f s a)).trans (hf s a)

theorem copyPixel_readsInside {dst index : Nat} {src : Source} {i : Nat} (h : ReadsInside s)
    (hi : ∀ id, src = .surface id → i < (s.canvas id).width * (s.canvas id).height) :
    ReadsInside (s.copyPixel dst index src i) := by
  have hsizes := copyPixel_sizes s dst index src i
  cases src with
  | memory pixels => exact h.of_reads hsizes rfl
  | surface id =>
    intro r hr
    rw [(hsizes r.surface).1, (hsizes r.surface).2]
    rcases List.mem_cons.mp hr with rfl | hr
    · exact hi id rfl
    · exact h r hr

theorem memcpy_readsInside {dst drow : Nat} {src : Source} {srow bytes : Nat} (h : ReadsInside s)
    (hi : ∀ id, src = .surface id → ∀ i, i < bytes / 4 →
      srow + i < (s.canvas id).width * (s.canvas id).height) :
    ReadsInside (memcpy dst drow src srow bytes s) := by
  unfold memcpy
  generalize bytes / 4 = count at hi ⊢
  induction count with
  | zero => exact h
  | succ n ih =>
    rw [List.range_succ, List.foldl_append]
    have hsizes := foldl_sizes (fun s i => copyPixel_sizes s dst (drow + i) src (srow + i))
      (List.range n) s
    apply copyPixel_readsInside
    · exact ih fun id hid i hlt => hi id hid i (by omega)
    · intro id hid
      rw [(hsizes id).1, (hsizes id).2]
      exact hi id hid n (by omega)

theorem copyRows_readsInside {dst : Nat} {src : Source} {w step h srow drow : Nat}
    (hs : ReadsInside s)
    (hi : ∀ id, src = .surface id → ∀ j < h, ∀ i < w,
      srow + j * step + i < (s.canvas id).width * (s.canvas id).height) :
    ReadsInside (copyRows dst src w step h srow drow s) := by
  induction h generalizing srow drow s with
  | zero => exact hs
  | succ h ih =>
    have hsizes := memcpy_sizes dst drow src srow (w * 4 % 2 ^ 32) s
    apply ih
    · apply memcpy_readsInside hs
      intro id hid i hlt
      have hfirst := hi id hid 0 (by omega) i (by omega)
      rw [Nat.zero_mul, Nat.add_zero] at hfirst
      exact hfirst
    · intro id hid j hj i hlt
      rw [(hsizes id).1, (hsizes id).2]
      have hnext := hi id hid (j + 1) (by omega) i hlt
      rw [show srow + (j + 1) * step = srow + step + j * step by ring] at hnext
      exact hnext

/-- A pixel of a rectangle that lies on a surface. -/
theorem index_lt {width height x y w h i j : Nat} (hw : x + w ≤ width) (hh : y + h ≤ height)
    (hi : i < w) (hj : j < h) : y * width + x + j * width + i < width * height := by
  have hrow : (y + j + 1) * width ≤ height * width := Nat.mul_le_mul_right width (by omega)
  have hindex : y * width + x + j * width + i = (y + j) * width + (x + i) := by ring
  rw [Nat.add_mul, Nat.one_mul, Nat.mul_comm height] at hrow
  omega

/-- The software backend never reads outside of a source. -/
theorem softwareOps_readsInside (h : ReadsInside s) (op : Op) : ReadsInside (softwareOps s op) := by
  have hsizes := softwareOps_sizes s op
  cases op with
  | upload id src srcPitch rect =>
    show ReadsInside (swSurfaceUpload id src srcPitch rect s)
    unfold swSurfaceUpload
    dsimp only
    split
    · exact h
    · split
      · exact h
      · apply copyRows_readsInside h
        intro id hid
        cases hid
  | fill dst rect argb =>
    apply h.of_reads hsizes
    show (fillClipped dst rect argb s).reads = s.reads
    unfold fillClipped
    dsimp only
    split
    · rfl
    · apply foldl_reads
      intro s i
      apply foldl_reads
      intro s j
      rfl
  | blit dst dstRect src srcRect =>
    show ReadsInside (swBlit dst dstRect src srcRect s)
    unfold swBlit
    simp only [clip_eq]
    by_cases hsize : dstRect.w ≠ srcRect.w ∨ dstRect.h ≠ srcRect.h
    · rw [if_pos hsize]
      exact h
    rw [if_neg hsize]
    by_cases hdst : dstRect.x ≥ (s.canvas dst).width ∨ dstRect.y ≥ (s.canvas dst).height
    · rw [if_pos hdst]
      exact h
    rw [if_neg hdst]
    by_cases hsrc : srcRect.x ≥ (s.canvas src).width ∨ srcRect.y ≥ (s.canvas src).height
    · rw [if_pos hsrc]
      exact h
    rw [if_neg hsrc]
    apply copyRows_readsInside h
    intro id hid j hj i hi
    cases hid
    apply index_lt _ _ hi hj
    · split <;> omega
    · split <;> omega

/-! ## Agreement -/

/-- What a blit writes fits into what the source has from the corner of its rectangle on. -/
def Op.Fits (s : State) : Op → Prop
  | .upload _ _ _ _ => True
  | .fill _ _ _ => True
  | .blit dst dstRect src srcRect =>
    let w := min dstRect.w ((s.canvas dst).width - dstRect.x)
    let h := min dstRect.h ((s.canvas dst).height - dstRect.y)
    w = 0 ∨ h = 0 ∨
      w ≤ (s.canvas src).width - srcRect.x ∧ h ≤ (s.canvas src).height - srcRect.y

theorem memcpy_zero (dst drow : Nat) (src : Source) (srow : Nat) (s : State) :
    memcpy dst drow src srow (0 * 4 % 2 ^ 32) s = s := rfl

/-- Nothing is copied when the rows or the columns are empty. -/
theorem copyRows_empty {dst : Nat} {src : Source} {w h : Nat} (hempty : w = 0 ∨ h = 0)
    (step srow drow : Nat) (s : State) : copyRows dst src w step h srow drow s = s := by
  rcases hempty with rfl | rfl
  · induction h generalizing srow drow with
    | zero => rfl
    | succ h ih =>
      rw [copyRows, memcpy_zero]
      exact ih _ _
  · rfl

theorem blit_agree {dst src : Nat} {dstRect srcRect : Rect}
    (hfits : (Op.blit dst dstRect src srcRect).Fits s) :
    virtioBlit dst dstRect src srcRect s = swBlit dst dstRect src srcRect s := by
  unfold virtioBlit swBlit
  simp only [clip_eq]
  by_cases hsize : dstRect.w ≠ srcRect.w ∨ dstRect.h ≠ srcRect.h
  · rw [if_pos hsize, if_pos hsize]
  rw [if_neg hsize, if_neg hsize]
  by_cases hdst : dstRect.x ≥ (s.canvas dst).width ∨ dstRect.y ≥ (s.canvas dst).height
  · rw [if_pos hdst, if_pos hdst]
  rw [if_neg hdst, if_neg hdst]
  by_cases hsrc : srcRect.x ≥ (s.canvas src).width ∨ srcRect.y ≥ (s.canvas src).height
  · rw [if_pos hsrc, if_pos hsrc]
  rw [if_neg hsrc, if_neg hsrc]
  have hw : srcRect.w = dstRect.w := by omega
  have hh : srcRect.h = dstRect.h := by omega
  rw [hw, hh]
  rcases hfits with hzero | hzero | ⟨hwidth, hheight⟩
  · rw [copyRows_empty (Or.inl hzero), copyRows_empty (Or.inl _)]
    split <;> omega
  · rw [copyRows_empty (Or.inr hzero), copyRows_empty (Or.inr _)]
    split <;> omega
  · have hcols : (if min dstRect.w ((s.canvas dst).width - dstRect.x) <
        min dstRect.w ((s.canvas src).width - srcRect.x) then
        min dstRect.w ((s.canvas dst).width - dstRect.x)
        else min dstRect.w ((s.canvas src).width - srcRect.x)) =
        min dstRect.w ((s.canvas dst).width - dstRect.x) := by
      split <;> omega
    have hrows : (if min dstRect.h ((s.canvas dst).height - dstRect.y) <
        min dstRect.h ((s.canvas src).height - srcRect.y) then
        min dstRect.h ((s.canvas dst).height - dstRect.y)
        else min dstRect.h ((s.canvas src).height - srcRect.y)) =
        min dstRect.h ((s.canvas dst).height - dstRect.y) := by
      split <;> omega
    rw [hcols, hrows]

theorem ops_agree {op : Op} (hfits : op.Fits s) : virtioOps s op = softwareOps s op := by
  cases op with
  | upload id src srcPitch rect =>
    show virtioSurfaceUpload id src srcPitch rect s = swSurfaceUpload id src srcPitch rect s
    unfold virtioSurfaceUpload swSurfaceUpload
    dsimp only
    split
    · rfl
    · split
      · rename_i hempty
        apply copyRows_empty
        rw [clip_eq, clip_eq]
        omega
      · rfl
  | fill dst rect argb => rfl
  | blit dst dstRect src srcRect => exact blit_agree hfits

theorem Op.Fits.of_sizes {op : Op} (hfits : op.Fits s) (hsizes : SameSizes s s') : op.Fits s' := by
  cases op with
  | upload id src srcPitch rect => trivial
  | fill dst rect argb => trivial
  | blit dst dstRect src srcRect =>
    unfold Op.Fits at hfits ⊢
    dsimp only
    rw [(hsizes dst).1, (hsizes dst).2, (hsizes src).1, (hsizes src).2]
    exact hfits

/-- In every run whose blits all fit, the two backends compute the same pixels and make the same
reads, all of them inside of the source. -/
theorem runs_agree (ops : List Op) (hreads : ReadsInside s) (hfits : ∀ op ∈ ops, op.Fits s) :
    ops.foldl virtioOps s = ops.foldl softwareOps s ∧ ReadsInside (ops.foldl softwareOps s) := by
  induction ops generalizing s with
  | nil => exact ⟨rfl, hreads⟩
  | cons op ops ih =>
    rw [List.foldl_cons, List.foldl_cons, ops_agree (hfits op List.mem_cons_self)]
    apply ih (softwareOps_readsInside hreads op)
    intro op' hop'
    exact (hfits op' (List.mem_cons_of_mem _ hop')).of_sizes (softwareOps_sizes s op)

/-- For surfaces of any sizes and contents: after each of any operations of which every blit fits,
the pixels are the same with both backends, and neither has read outside of a source. -/
theorem backends_agree (canvas : Nat → Canvas) (ops : List Op)
    (hfits : ∀ op ∈ ops, op.Fits ⟨canvas, []⟩) (n : Nat) :
    ((ops.take n).foldl virtioOps ⟨canvas, []⟩).canvas =
        ((ops.take n).foldl softwareOps ⟨canvas, []⟩).canvas ∧
      ReadsInside ((ops.take n).foldl virtioOps ⟨canvas, []⟩) ∧
      ReadsInside ((ops.take n).foldl softwareOps ⟨canvas, []⟩) := by
  have hnone : ReadsInside ⟨canvas, []⟩ := by
    intro r hr
    cases hr
  obtain ⟨hsame, hinside⟩ := runs_agree (ops.take n) hnone
    fun op hop => hfits op (List.mem_of_mem_take hop)
  rw [hsame]
  exact ⟨rfl, hinside, hinside⟩

/-- A surface of 2 times 2 pixels and one of 1 times 2, with the pixels 5 and 6. -/
def smallCanvas : Nat → Canvas
  | 0 => ⟨2, 2, fun _ => 0⟩
  | _ => ⟨1, 2, fun i => 5 + i⟩

/-- A blit that crosses the edge of both surfaces. -/
theorem backends_agree_edge :
    ((virtioOps ⟨smallCanvas, []⟩ (.blit 0 ⟨1, 0, 4, 9⟩ 1 ⟨0, 0, 4, 9⟩)).canvas 0).pixels 3 = 6 ∧
    ((virtioOps ⟨smallCanvas, []⟩ (.blit 0 ⟨1, 0, 4, 9⟩ 1 ⟨0, 0, 4, 9⟩)).canvas =
      (softwareOps ⟨smallCanvas, []⟩ (.blit 0 ⟨1, 0, 4, 9⟩ 1 ⟨0, 0, 4, 9⟩)).canvas) := by
  refine ⟨by decide, (backends_agree smallCanvas [.blit 0 ⟨1, 0, 4, 9⟩ 1 ⟨0, 0, 4, 9⟩] ?_ 1).1⟩
  intro op hop
  obtain rfl := List.mem_singleton.mp hop
  exact Or.inr (Or.inr (by decide))

/-- The small surface is blitted to all of the other one: the virtio backend copies the second row
into the first, and reads behind the last pixel. -/
theorem blit_leaves_source : ¬∀ (canvas : Nat → Canvas) (ops : List Op),
    (∀ id, (canvas id).width ≤ Gpu.ghalMaxDim ∧ (canvas id).height ≤ Gpu.ghalMaxDim) →
    (ops.foldl virtioOps ⟨canvas, []⟩).canvas = (ops.foldl softwareOps ⟨canvas, []⟩).canvas ∧
      ReadsInside (ops.foldl virtioOps ⟨canvas, []⟩) := by
  intro hall
  have hdims : ∀ id, (smallCanvas id).width ≤ Gpu.ghalMaxDim ∧
      (smallCanvas id).height ≤ Gpu.ghalMaxDim := by
    intro id
    cases id with
    | zero => decide
    | succ n => exact ⟨show 1 ≤ 8192 by decide, show 2 ≤ 8192 by decide⟩
  obtain ⟨hsame, -⟩ := hall smallCanvas [.blit 0 ⟨0, 0, 2, 2⟩ 1 ⟨0, 0, 2, 2⟩] hdims
  have hpixel := congrArg (fun canvas => (canvas 0).pixels 1) hsame
  revert hpixel
  decide

end Kyuzen.Ghal
