import Kyuzen.Display.Model
import Kyuzen.Lib.Writes

/-!
# The fast blit

`viewport_render` computes the rows and columns to copy in advance and copies whole rows. It
leaves what the plain loop with a test for each pixel leaves, and touches pixels only
(`viewport_render_plain`).
-/

namespace Kyuzen.Display

open Lib

/-! ## The plain copy -/

def DisplayBuffer.Inside (b : DisplayBuffer) (x y : Int) : Prop :=
  (0 ≤ x ∧ x < b.width.toNat) ∧ 0 ≤ y ∧ y < b.height.toNat

instance (b : DisplayBuffer) (x y : Int) : Decidable (b.Inside x y) :=
  inferInstanceAs (Decidable ((_ ∧ _) ∧ _ ∧ _))

def DisplayBuffer.index (b : DisplayBuffer) (x y : Int) : Nat := y.toNat * b.stride.toNat + x.toNat

/-- The pixel in row `r` and column `c` of the bounds, if it is in both buffers. -/
def copyPixel (vp : Viewport) (src target : DisplayBuffer) (r c : Nat) (m : Nat → Color) :
    Nat → Color :=
  if src.Inside (vp.scrollX.toInt + c) (vp.scrollY.toInt + r) ∧
      target.Inside (vp.bounds.x.toInt + c) (vp.bounds.y.toInt + r) then
    Function.update m (target.index (vp.bounds.x.toInt + c) (vp.bounds.y.toInt + r))
      (src.pixels (src.index (vp.scrollX.toInt + c) (vp.scrollY.toInt + r)))
  else m

/-- Pixel by pixel. -/
def plainCopy (vp : Viewport) (src target : DisplayBuffer) : Nat → Color :=
  (List.range vp.bounds.height.toNat).foldl (fun m r =>
    (List.range vp.bounds.width.toNat).foldl (fun m c => copyPixel vp src target r c m) m)
    target.pixels

variable {vp : Viewport} {src target : DisplayBuffer}

/-- The value that a blit gives to an index of the target. -/
def sourcePixel (vp : Viewport) (src target : DisplayBuffer) (i : Nat) : Color :=
  src.pixels (src.index
    (vp.scrollX.toInt + ((i % target.stride.toNat : Nat) - vp.bounds.x.toInt))
    (vp.scrollY.toInt + ((i / target.stride.toNat : Nat) - vp.bounds.y.toInt)))

theorem DisplayBuffer.index_mod {b : DisplayBuffer} {x y : Int} (h : b.Inside x y) :
    ((b.index x y % b.stride.toNat : Nat) : Int) = x := by
  obtain ⟨⟨hx0, hx⟩, hy0, hy⟩ := h
  have hle := b.width_le
  rw [index, Nat.add_comm, Nat.add_mul_mod_self_right, Nat.mod_eq_of_lt (by omega)]
  omega

theorem DisplayBuffer.index_div {b : DisplayBuffer} {x y : Int} (h : b.Inside x y) :
    ((b.index x y / b.stride.toNat : Nat) : Int) = y := by
  obtain ⟨⟨hx0, hx⟩, hy0, hy⟩ := h
  have hle := b.width_le
  rw [index, Nat.add_comm, Nat.add_mul_div_right _ _ (by omega), Nat.div_eq_of_lt (by omega)]
  omega

theorem DisplayBuffer.isPixel_index {b : DisplayBuffer} {x y : Int} (h : b.Inside x y) :
    b.IsPixel (b.index x y) := by
  have hmod := index_mod h
  have hdiv := index_div h
  obtain ⟨⟨hx0, hx⟩, hy0, hy⟩ := h
  constructor <;> omega

theorem sourcePixel_index {x y : Int} (h : target.Inside x y) :
    sourcePixel vp src target (target.index x y) =
      src.pixels (src.index (vp.scrollX.toInt + (x - vp.bounds.x.toInt))
        (vp.scrollY.toInt + (y - vp.bounds.y.toInt))) := by
  rw [sourcePixel, DisplayBuffer.index_mod h, DisplayBuffer.index_div h]

/-- The pixel in row `r` and column `c` of the bounds is copied to the index. -/
def Copied (vp : Viewport) (src target : DisplayBuffer) (r c : Nat) (i : Nat) : Prop :=
  (src.Inside (vp.scrollX.toInt + c) (vp.scrollY.toInt + r) ∧
    target.Inside (vp.bounds.x.toInt + c) (vp.bounds.y.toInt + r)) ∧
  i = target.index (vp.bounds.x.toInt + c) (vp.bounds.y.toInt + r)

theorem copyPixel_in {r c i : Nat} {m : Nat → Color} (h : Copied vp src target r c i) :
    copyPixel vp src target r c m i = sourcePixel vp src target i := by
  obtain ⟨hin, rfl⟩ := h
  rw [copyPixel, if_pos hin, Function.update_self, sourcePixel_index hin.2,
    add_sub_cancel_left, add_sub_cancel_left]

theorem copyPixel_out {r c i : Nat} {m : Nat → Color} (h : ¬Copied vp src target r c i) :
    copyPixel vp src target r c m i = m i := by
  unfold copyPixel
  split_ifs with hin
  · exact Function.update_of_ne (fun hi => h ⟨hin, hi⟩) _ _
  · rfl

theorem plainCopy_apply (vp : Viewport) (src target : DisplayBuffer) (i : Nat) :
    ((∃ r < vp.bounds.height.toNat, ∃ c < vp.bounds.width.toNat, Copied vp src target r c i) →
      plainCopy vp src target i = sourcePixel vp src target i) ∧
    ((¬∃ r < vp.bounds.height.toNat, ∃ c < vp.bounds.width.toNat, Copied vp src target r c i) →
      plainCopy vp src target i = target.pixels i) := by
  have hall := foldl_writes₂ (g := sourcePixel vp src target) (W := Copied vp src target)
    (f := copyPixel vp src target) (List.range vp.bounds.height.toNat)
    (List.range vp.bounds.width.toNat) (fun _ _ _ _ => copyPixel_in) (fun _ _ _ _ => copyPixel_out)
    target.pixels i
  unfold plainCopy
  simpa only [List.mem_range] using hall

/-! ## Copying rows -/

theorem copyPixels_spec {dst : DisplayBuffer} {d s : Nat} (m : Nat → Color) : ∀ {n : Nat},
    (∀ j < n, src.IsPixel (s + j) ∧ dst.IsPixel (d + j)) →
    copyPixels src dst d s n m =
      some fun i => if d ≤ i ∧ i < d + n then src.pixels (s + (i - d)) else m i := by
  intro n
  induction n with
  | zero =>
    intro _
    rw [copyPixels]
    congr 1
    ext i
    rw [if_neg (by omega)]
  | succ n ih =>
    intro h
    rw [copyPixels, ih fun j hj => h j (by omega), Option.bind_some, if_pos (h n (by omega))]
    congr 1
    ext i
    by_cases hi : i = d + n
    · subst hi
      rw [Function.update_self, if_pos (by omega), Nat.add_sub_cancel_left]
    · rw [Function.update_of_ne hi]
      by_cases hin : d ≤ i ∧ i < d + n
      · rw [if_pos hin, if_pos (by omega)]
      · rw [if_neg hin, if_neg (by omega)]

/-- Loops in which no step fails. -/
theorem foldlM_some {α ι : Type*} {f : α → ι → Option α} {g : ι → α → α} (l : List ι)
    (h : ∀ k ∈ l, ∀ a, f a k = some (g k a)) :
    ∀ a, l.foldlM f a = some (l.foldl (fun a k => g k a) a) := by
  induction l with
  | nil => exact fun a => rfl
  | cons k l ih =>
    intro a
    rw [List.foldlM_cons, h k List.mem_cons_self, Option.bind_eq_bind, Option.bind_some,
      List.foldl_cons]
    exact ih (fun j hj => h j (List.mem_cons_of_mem k hj)) _

theorem u64_eq {v : Int} (h0 : 0 ≤ v) (h : v < 2 ^ 64) : u64 v = v.toNat := by
  rw [u64, Int.emod_eq_of_lt h0 h]

theorem rowOffset_eq {b : DisplayBuffer} {x y : Int} (h : b.Inside x y) :
    rowOffset b y x = b.index x y := by
  obtain ⟨⟨hx0, hx⟩, hy0, hy⟩ := h
  have hw := b.width.toNat_lt
  have hh := b.height.toNat_lt
  have hs := b.stride.toNat_lt
  have hle := b.width_le
  have hmul : (y.toNat + 1) * b.stride.toNat ≤ 2 ^ 32 * 2 ^ 32 :=
    Nat.mul_le_mul (by omega) (by omega)
  rw [Nat.add_mul] at hmul
  rw [rowOffset, u64_eq hy0 (by omega), u64_eq hx0 (by omega), Nat.mod_eq_of_lt]
  · rfl
  · omega

theorem DisplayBuffer.index_add {b : DisplayBuffer} {x y : Int} (hx : 0 ≤ x) (j : Nat) :
    b.index x y + j = b.index (x + j) y := by
  unfold index
  omega

/-! ## Clipping -/

theorem clip_iff {size source scroll target bound : Int} {k : Nat} :
    ((k < size ∧ 0 ≤ scroll + k ∧ scroll + k < source) ∧ 0 ≤ bound + k ∧ bound + k < target) ↔
      clipStart scroll bound ≤ k ∧ k < clipEnd size source scroll target bound := by
  unfold clipStart clipEnd
  omega

theorem clipStart_nonneg (scroll bound : Int) : 0 ≤ clipStart scroll bound := by
  unfold clipStart
  omega

/-- The columns and rows to copy. -/
structure InClip (vp : Viewport) (src target : DisplayBuffer) (r c : Nat) : Prop where
  col : clipStart vp.scrollX.toInt vp.bounds.x.toInt ≤ c ∧ c < clipEnd vp.bounds.width.toNat
    src.width.toNat vp.scrollX.toInt target.width.toNat vp.bounds.x.toInt
  row : clipStart vp.scrollY.toInt vp.bounds.y.toInt ≤ r ∧ r < clipEnd vp.bounds.height.toNat
    src.height.toNat vp.scrollY.toInt target.height.toNat vp.bounds.y.toInt

theorem inClip_iff {r c : Nat} : InClip vp src target r c ↔
    (r < vp.bounds.height.toNat ∧ c < vp.bounds.width.toNat) ∧
      src.Inside (vp.scrollX.toInt + c) (vp.scrollY.toInt + r) ∧
      target.Inside (vp.bounds.x.toInt + c) (vp.bounds.y.toInt + r) := by
  constructor
  · intro h
    obtain ⟨⟨hw, hsx⟩, htx⟩ := clip_iff.mpr h.col
    obtain ⟨⟨hh, hsy⟩, hty⟩ := clip_iff.mpr h.row
    exact ⟨⟨by omega, by omega⟩, ⟨hsx, hsy⟩, htx, hty⟩
  · intro h
    obtain ⟨⟨hh, hw⟩, ⟨hsx, hsy⟩, htx, hty⟩ := h
    exact ⟨clip_iff.mp ⟨⟨by omega, hsx⟩, htx⟩, clip_iff.mp ⟨⟨by omega, hsy⟩, hty⟩⟩

theorem copied_iff {i : Nat} :
    (∃ r < vp.bounds.height.toNat, ∃ c < vp.bounds.width.toNat, Copied vp src target r c i) ↔
      ∃ r c, InClip vp src target r c ∧
        i = target.index (vp.bounds.x.toInt + c) (vp.bounds.y.toInt + r) := by
  constructor
  · intro h
    obtain ⟨r, hr, c, hc, hin, hi⟩ := h
    exact ⟨r, c, inClip_iff.mpr ⟨⟨hr, hc⟩, hin⟩, hi⟩
  · intro h
    obtain ⟨r, c, hclip, hi⟩ := h
    obtain ⟨⟨hr, hc⟩, hin⟩ := inClip_iff.mp hclip
    exact ⟨r, hr, c, hc, hin, hi⟩

/-! ## The blit -/

/-- The plain copy, if there is a source. -/
def plainRender (vp : Viewport) (target : DisplayBuffer) : Nat → Color :=
  match vp.source with
  | none => target.pixels
  | some src => plainCopy vp src target

theorem plainCopy_empty (h : ∀ r c, ¬InClip vp src target r c) :
    plainCopy vp src target = target.pixels := by
  funext i
  apply (plainCopy_apply vp src target i).2
  rw [copied_iff]
  intro hex
  obtain ⟨r, c, hclip, -⟩ := hex
  exact h r c hclip

/-- The copy of one row of the clip, from column `c₀` on. -/
theorem copyRow_spec (vp : Viewport) (src target : DisplayBuffer) (r c₀ : Nat) {n : Nat}
    (hn : 0 < n) (h : ∀ j < n, InClip vp src target r (c₀ + j)) (m : Nat → Color) :
    copyPixels src target (rowOffset target (vp.bounds.y.toInt + r) (vp.bounds.x.toInt + c₀))
      (rowOffset src (vp.scrollY.toInt + r) (vp.scrollX.toInt + c₀)) n m =
    some fun i =>
      if target.index (vp.bounds.x.toInt + c₀) (vp.bounds.y.toInt + r) ≤ i ∧
          i < target.index (vp.bounds.x.toInt + c₀) (vp.bounds.y.toInt + r) + n then
        sourcePixel vp src target i
      else m i := by
  have hin := fun j hj => (inClip_iff.mp (h j hj)).2
  obtain ⟨hsrc, htgt⟩ := hin 0 hn
  simp only [Nat.add_zero] at hsrc htgt
  have hs : ∀ j : Nat, src.index (vp.scrollX.toInt + c₀) (vp.scrollY.toInt + r) + j =
      src.index (vp.scrollX.toInt + (c₀ + j : Nat)) (vp.scrollY.toInt + r) := fun j => by
    rw [DisplayBuffer.index_add hsrc.1.1, Nat.cast_add, add_assoc]
  have ht : ∀ j : Nat, target.index (vp.bounds.x.toInt + c₀) (vp.bounds.y.toInt + r) + j =
      target.index (vp.bounds.x.toInt + (c₀ + j : Nat)) (vp.bounds.y.toInt + r) := fun j => by
    rw [DisplayBuffer.index_add htgt.1.1, Nat.cast_add, add_assoc]
  rw [rowOffset_eq hsrc, rowOffset_eq htgt, copyPixels_spec m fun j hj => by
    rw [hs, ht]
    exact ⟨DisplayBuffer.isPixel_index (hin j hj).1, DisplayBuffer.isPixel_index (hin j hj).2⟩]
  congr 1
  ext i
  split_ifs with hi
  · obtain ⟨j, rfl⟩ := Nat.exists_eq_add_of_le hi.1
    have hj : j < n := by omega
    rw [Nat.add_sub_cancel_left, hs, ht, sourcePixel_index (hin j hj).2, add_sub_cancel_left,
      add_sub_cancel_left]
  · rfl

/-- The rows of the clip, one after the other. -/
theorem copyRows_spec {r₀ c₀ rows n : Nat} (hn : 0 < n)
    (h : ∀ r c, InClip vp src target r c ↔ (c₀ ≤ c ∧ c < c₀ + n) ∧ r₀ ≤ r ∧ r < r₀ + rows) :
    (List.range rows).foldlM (fun m (k : Nat) =>
      copyPixels src target (rowOffset target (vp.bounds.y.toInt + (r₀ + k))
        (vp.bounds.x.toInt + c₀)) (rowOffset src (vp.scrollY.toInt + (r₀ + k))
        (vp.scrollX.toInt + c₀)) n m) target.pixels = some (plainCopy vp src target) := by
  -- row `k` of the clip writes the `n` indexes from its first column on
  have hrow : ∀ k ∈ List.range rows, ∀ m, _ := fun k hk m =>
    copyRow_spec vp src target (r₀ + k) c₀ hn
      (fun j hj => (h _ _).mpr ⟨⟨by omega, by omega⟩, by omega, by
        have := List.mem_range.mp hk
        omega⟩) m
  simp only [Nat.cast_add] at hrow
  rw [foldlM_some _ hrow]
  congr 1
  funext i
  have hloop := foldl_writes (g := sourcePixel vp src target) (f := fun k m i =>
      if target.index (vp.bounds.x.toInt + c₀) (vp.bounds.y.toInt + (r₀ + k)) ≤ i ∧
          i < target.index (vp.bounds.x.toInt + c₀) (vp.bounds.y.toInt + (r₀ + k)) + n then
        sourcePixel vp src target i
      else m i)
    (W := fun (k : Nat) i =>
      target.index (vp.bounds.x.toInt + c₀) (vp.bounds.y.toInt + (r₀ + k)) ≤ i ∧
        i < target.index (vp.bounds.x.toInt + c₀) (vp.bounds.y.toInt + (r₀ + k)) + n)
    (List.range rows) (fun _ _ _ _ hw => if_pos hw) (fun _ _ _ _ hw => if_neg hw) target.pixels i
  have hsame : (∃ k ∈ List.range rows,
      target.index (vp.bounds.x.toInt + c₀) (vp.bounds.y.toInt + (r₀ + k)) ≤ i ∧
        i < target.index (vp.bounds.x.toInt + c₀) (vp.bounds.y.toInt + (r₀ + k)) + n) ↔
      ∃ r c, InClip vp src target r c ∧
        i = target.index (vp.bounds.x.toInt + c) (vp.bounds.y.toInt + r) := by
    have hadd : ∀ k < rows, ∀ j : Nat,
        target.index (vp.bounds.x.toInt + c₀) (vp.bounds.y.toInt + (r₀ + k)) + j =
          target.index (vp.bounds.x.toInt + (c₀ + j : Nat)) (vp.bounds.y.toInt + (r₀ + k)) := by
      intro k hk j
      have hin := (inClip_iff.mp ((h (r₀ + k) c₀).mpr
        ⟨⟨by omega, by omega⟩, by omega, by omega⟩)).2.2
      rw [DisplayBuffer.index_add hin.1.1, Nat.cast_add, add_assoc]
    constructor
    · intro hex
      obtain ⟨k, hk, hlo, hhi⟩ := hex
      have hk := List.mem_range.mp hk
      obtain ⟨j, rfl⟩ := Nat.exists_eq_add_of_le hlo
      refine ⟨r₀ + k, c₀ + j, (h _ _).mpr ⟨⟨by omega, by omega⟩, by omega, by omega⟩, ?_⟩
      rw [hadd k hk, Nat.cast_add r₀ k]
    · intro hex
      obtain ⟨r, c, hclip, rfl⟩ := hex
      obtain ⟨⟨hlo, hhi⟩, hrlo, hrhi⟩ := (h r c).mp hclip
      obtain ⟨j, rfl⟩ := Nat.exists_eq_add_of_le hlo
      obtain ⟨k, rfl⟩ := Nat.exists_eq_add_of_le hrlo
      have hj := hadd k (by omega) j
      refine ⟨k, List.mem_range.mpr (by omega), ?_⟩
      rw [Nat.cast_add r₀ k, ← hj]
      omega
  have hplain := plainCopy_apply vp src target i
  rw [copied_iff, ← hsame] at hplain
  by_cases hw : ∃ k ∈ List.range rows,
      target.index (vp.bounds.x.toInt + c₀) (vp.bounds.y.toInt + (r₀ + k)) ≤ i ∧
        i < target.index (vp.bounds.x.toInt + c₀) (vp.bounds.y.toInt + (r₀ + k)) + n
  · rw [hplain.1 hw]
    exact hloop.1 hw
  · rw [hplain.2 hw]
    exact hloop.2 hw

/-- The two agree, and no index outside of a buffer is read or written. -/
theorem viewport_render_plain (vp : Viewport) (target : DisplayBuffer) :
    viewportRender vp target = some (plainRender vp target) := by
  unfold viewportRender plainRender
  cases vp.source with
  | none => rfl
  | some src =>
    dsimp only
    have hclip : ∀ r c : Nat, InClip vp src target r c ↔ _ := fun r c =>
      ⟨fun h => And.intro h.col h.row, fun h => ⟨h.1, h.2⟩⟩
    obtain ⟨c₀, hc₀⟩ := Int.eq_ofNat_of_zero_le
      (clipStart_nonneg vp.scrollX.toInt vp.bounds.x.toInt)
    obtain ⟨r₀, hr₀⟩ := Int.eq_ofNat_of_zero_le
      (clipStart_nonneg vp.scrollY.toInt vp.bounds.y.toInt)
    generalize hc₁ : clipEnd vp.bounds.width.toNat src.width.toNat vp.scrollX.toInt
      target.width.toNat vp.bounds.x.toInt = c₁ at hclip ⊢
    generalize clipEnd vp.bounds.height.toNat src.height.toNat vp.scrollY.toInt
      target.height.toNat vp.bounds.y.toInt = r₁ at hclip ⊢
    rw [hc₀, hr₀] at hclip ⊢
    by_cases hcols : c₁ ≤ c₀
    · rw [if_pos hcols, plainCopy_empty]
      intro r c h
      have := (hclip r c).mp h
      omega
    by_cases hrows : r₁ ≤ r₀
    · rw [if_neg hcols, if_pos hrows, plainCopy_empty]
      intro r c h
      have := (hclip r c).mp h
      omega
    rw [if_neg hcols, if_neg hrows]
    have hbound : c₁ ≤ vp.bounds.width.toNat := by
      rw [← hc₁]
      unfold clipEnd
      omega
    have hwidth := vp.bounds.width.toNat_lt
    rw [u64_eq (by omega) (by omega)]
    apply copyRows_spec (by omega)
    intro r c
    rw [hclip]
    omega

end Kyuzen.Display
