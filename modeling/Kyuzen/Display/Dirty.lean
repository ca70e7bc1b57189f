import Kyuzen.Display.Model

/-!
# Dirty regions

As long as no more than 64 rectangles are marked, the list holds all of them; afterwards it holds
one bounding box. Its width and height are 32-bit numbers. The regions cover all that was marked
if there are at most 64 rectangles or their extent fits (`dirty_superset`); two rectangles at the
ends of the coordinate range leave an empty box (`far_marks_lost`).
-/

namespace Kyuzen.Display

def markAll (list : DirtyRegionList) (marks : List Rect) : DirtyRegionList :=
  marks.foldl dirtyRegionMark list

def cleared : DirtyRegionList := dirtyRegionClear ⟨[], false⟩

/-- A coordinate in the range of 32 bits. -/
def InRange (v : Int) : Prop := -2 ^ 31 ≤ v ∧ v < 2 ^ 31

instance (v : Int) : Decidable (InRange v) := inferInstanceAs (Decidable (_ ∧ _))

/-- Each pixel of the marked rectangles is in a region of the list. -/
def Superset (marks : List Rect) : Prop :=
  ∀ r ∈ marks, ∀ px py, InRange px → InRange py → r.Has px py →
    ∃ q ∈ (markAll cleared marks).regions, q.Has px py

/-- The marked rectangles that are not empty. -/
def drawn (marks : List Rect) : List Rect := marks.filter Rect.nonempty

/-- From the left edge of any rectangle to the right edge of any other one it is less than
2^32, and so it is from the top to the bottom. -/
def FitTogether (l : List Rect) : Prop :=
  ∀ a ∈ l, ∀ b ∈ l, b.right - a.x.toInt < 2 ^ 32 ∧ b.bottom - a.y.toInt < 2 ^ 32

def Fits (marks : List Rect) : Prop :=
  (drawn marks).length ≤ maxDirtyRegions ∨ FitTogether (drawn marks)

/-! ## Unions -/

variable {a b r box : Rect} {l l' : List Rect}

/-- How far the union of two rectangles extends, before it is cut to 32 bits. -/
def extentX (a b : Rect) : Int := max a.right b.right - min a.x.toInt b.x.toInt
def extentY (a b : Rect) : Int := max a.bottom b.bottom - min a.y.toInt b.y.toInt

theorem extent_nonneg (a b : Rect) : 0 ≤ extentX a b ∧ 0 ≤ extentY a b := by
  unfold extentX extentY Rect.right Rect.bottom
  omega

theorem ofInt_toInt_min (u v : Int32) :
    (Int32.ofInt (min u.toInt v.toInt)).toInt = min u.toInt v.toInt := by
  have hu := u.le_toInt
  have hu' := u.toInt_lt
  have hv := v.le_toInt
  exact Int32.toInt_ofInt_of_le (by omega) (by omega)

theorem ofInt_toNat (v : Int) : ((UInt32.ofInt v).toNat : Int) = v % 2 ^ 32 := by
  have h0 := Int.emod_nonneg v (show (2 : Int) ^ 32 ≠ 0 by norm_num)
  have hlt := Int.emod_lt_of_pos v (show (0 : Int) < 2 ^ 32 by norm_num)
  have hnat : (v % 2 ^ 32).toNat < UInt32.size := show (v % 2 ^ 32).toNat < 2 ^ 32 by omega
  rw [UInt32.ofInt, UInt32.toNat_ofNat', Nat.mod_eq_of_lt hnat, Int.toNat_of_nonneg h0]

theorem rectUnion_x (a b : Rect) : (rectUnion a b).x.toInt = min a.x.toInt b.x.toInt :=
  ofInt_toInt_min _ _

theorem rectUnion_y (a b : Rect) : (rectUnion a b).y.toInt = min a.y.toInt b.y.toInt :=
  ofInt_toInt_min _ _

theorem rectUnion_right (a b : Rect) : (rectUnion a b).right =
    min a.x.toInt b.x.toInt + extentX a b % 2 ^ 32 := by
  rw [Rect.right, rectUnion_x]
  exact congrArg _ (ofInt_toNat _)

theorem rectUnion_bottom (a b : Rect) : (rectUnion a b).bottom =
    min a.y.toInt b.y.toInt + extentY a b % 2 ^ 32 := by
  rw [Rect.bottom, rectUnion_y]
  exact congrArg _ (ofInt_toNat _)

/-! ## Bounding boxes -/

/-- The smallest box around the rectangles. -/
structure IsBox (box : Rect) (l : List Rect) : Prop where
  x : IsLeast {v | ∃ a ∈ l, v = a.x.toInt} box.x.toInt
  y : IsLeast {v | ∃ a ∈ l, v = a.y.toInt} box.y.toInt
  right : IsGreatest {v | ∃ a ∈ l, v = a.right} box.right
  bottom : IsGreatest {v | ∃ a ∈ l, v = a.bottom} box.bottom

theorem isBox_singleton (r : Rect) : IsBox r [r] := by
  constructor <;> simp [IsLeast, IsGreatest, lowerBounds, upperBounds]

theorem setOf_append (f : Rect → Int) (l : List Rect) (r : Rect) :
    {v | ∃ a ∈ l ++ [r], v = f a} = {v | ∃ a ∈ l, v = f a} ∪ {f r} := by
  ext v
  simp only [List.mem_append, List.mem_singleton, Set.mem_union, Set.mem_ofPred_eq,
    Set.mem_singleton_iff]
  constructor
  · intro h
    obtain ⟨a, ha | rfl, hv⟩ := h
    · exact Or.inl ⟨a, ha, hv⟩
    · exact Or.inr hv
  · intro h
    rcases h with ⟨a, ha, hv⟩ | hv
    · exact ⟨a, Or.inl ha, hv⟩
    · exact ⟨r, Or.inr rfl, hv⟩

theorem IsBox.append (h : IsBox box l) (hx : extentX box r < 2 ^ 32)
    (hy : extentY box r < 2 ^ 32) : IsBox (rectUnion box r) (l ++ [r]) := by
  have hpos := extent_nonneg box r
  constructor
  · rw [setOf_append (fun a => a.x.toInt), rectUnion_x]
    exact h.x.union isLeast_singleton
  · rw [setOf_append (fun a => a.y.toInt), rectUnion_y]
    exact h.y.union isLeast_singleton
  · rw [setOf_append Rect.right, rectUnion_right, Int.emod_eq_of_lt hpos.1 hx, extentX, add_sub_cancel]
    exact h.right.union isGreatest_singleton
  · rw [setOf_append Rect.bottom, rectUnion_bottom, Int.emod_eq_of_lt hpos.2 hy, extentY, add_sub_cancel]
    exact h.bottom.union isGreatest_singleton

/-- The extent of the box and a rectangle is that of two of the rectangles. -/
theorem IsBox.extent_lt_iff (h : IsBox box l) :
    (extentX box r < 2 ^ 32 ∧ extentY box r < 2 ^ 32) ↔ FitTogether (l ++ [r]) := by
  constructor
  · intro hext
    have hbounds : ∀ a ∈ l ++ [r],
        (min box.x.toInt r.x.toInt ≤ a.x.toInt ∧ min box.y.toInt r.y.toInt ≤ a.y.toInt) ∧
          a.right ≤ max box.right r.right ∧ a.bottom ≤ max box.bottom r.bottom := by
      intro a ha
      rcases List.mem_append.mp ha with ha | ha
      · have hx := h.x.2 ⟨a, ha, rfl⟩
        have hy := h.y.2 ⟨a, ha, rfl⟩
        have hright := h.right.2 ⟨a, ha, rfl⟩
        have hbottom := h.bottom.2 ⟨a, ha, rfl⟩
        omega
      · obtain rfl := List.mem_singleton.mp ha
        omega
    intro a ha b hb
    have hafit := hbounds a ha
    have hbfit := hbounds b hb
    unfold extentX extentY at hext
    omega
  · intro hfit
    have hr : r ∈ l ++ [r] := List.mem_append_right _ (List.mem_singleton_self r)
    obtain ⟨a, ha, hax⟩ := h.x.1
    obtain ⟨c, hc, hcy⟩ := h.y.1
    obtain ⟨b, hb, hbright⟩ := h.right.1
    obtain ⟨d, hd, hdbottom⟩ := h.bottom.1
    have ha := List.mem_append_left [r] ha
    have hb := List.mem_append_left [r] hb
    have hc := List.mem_append_left [r] hc
    have hd := List.mem_append_left [r] hd
    have hab := (hfit a ha b hb).1
    have har := (hfit a ha r hr).1
    have hrb := (hfit r hr b hb).1
    have hcd := (hfit c hc d hd).2
    have hcr := (hfit c hc r hr).2
    have hrd := (hfit r hr d hd).2
    have hrr := hfit r hr r hr
    unfold extentX extentY
    omega

theorem FitTogether.mono (h : FitTogether l) (hsub : ∀ a ∈ l', a ∈ l) : FitTogether l' :=
  fun a ha b hb => h a (hsub a ha) b (hsub b hb)

theorem IsBox.foldl : ∀ {rest : List Rect} {box : Rect} {l : List Rect}, IsBox box l →
    FitTogether (l ++ rest) → IsBox (rest.foldl rectUnion box) (l ++ rest) := by
  intro rest
  induction rest with
  | nil =>
    intro box l h _
    rwa [List.append_nil]
  | cons r rest ih =>
    intro box l h hfit
    rw [List.append_cons] at hfit ⊢
    have hext := h.extent_lt_iff.mpr (hfit.mono fun a ha => List.mem_append_left _ ha)
    exact ih (h.append hext.1 hext.2) hfit

theorem IsBox.has {px py : Int} (h : IsBox box l) (hr : r ∈ l) (hp : r.Has px py) :
    box.Has px py := by
  have hx := h.x.2 ⟨r, hr, rfl⟩
  have hy := h.y.2 ⟨r, hr, rfl⟩
  have hright := h.right.2 ⟨r, hr, rfl⟩
  have hbottom := h.bottom.2 ⟨r, hr, rfl⟩
  obtain ⟨⟨hx0, hx1⟩, hy0, hy1⟩ := hp
  exact ⟨⟨by omega, by omega⟩, by omega, by omega⟩

/-! ## The list -/

theorem mark_of_nonempty (list : DirtyRegionList) (h : r.nonempty = false) :
    dirtyRegionMark list r = list := by
  rw [dirtyRegionMark, h]
  rfl

theorem markAll_drawn (list : DirtyRegionList) (marks : List Rect) :
    markAll list marks = markAll list (drawn marks) := by
  unfold markAll drawn
  rw [List.foldl_filter]
  congr 1
  funext list r
  split_ifs with h
  · rfl
  · exact mark_of_nonempty list (by simpa using h)

theorem markAll_append (list : DirtyRegionList) (l : List Rect) (r : Rect) :
    markAll list (l ++ [r]) = dirtyRegionMark (markAll list l) r :=
  List.foldl_append

theorem mark_room {regions : List Rect} (hr : r.nonempty = true)
    (h : regions.length < maxDirtyRegions) :
    dirtyRegionMark ⟨regions, false⟩ r = ⟨regions ++ [r], false⟩ := by
  rw [dirtyRegionMark, if_neg (by simp [hr])]
  exact if_neg (Nat.not_le.mpr h)

theorem mark_full {first : Rect} {rest : List Rect} (hr : r.nonempty = true)
    (h : (first :: rest).length = maxDirtyRegions) :
    dirtyRegionMark ⟨first :: rest, false⟩ r =
      ⟨[rectUnion (rest.foldl rectUnion first) r], true⟩ := by
  rw [dirtyRegionMark, if_neg (by simp [hr])]
  exact if_pos h.ge

theorem mark_collapsed (hr : r.nonempty = true) :
    dirtyRegionMark ⟨[box], true⟩ r = ⟨[rectUnion box r], true⟩ := by
  rw [dirtyRegionMark, hr]
  rfl

/-- Up to 64 rectangles the list holds all of them. -/
theorem markAll_few : ∀ {l : List Rect}, (∀ r ∈ l, r.nonempty = true) →
    l.length ≤ maxDirtyRegions → markAll cleared l = ⟨l, false⟩ := by
  intro l
  induction l using List.reverseRecOn with
  | nil => exact fun _ _ => rfl
  | append_singleton l r ih =>
    intro hne hlen
    rw [List.length_append, List.length_singleton] at hlen
    rw [markAll_append, ih (fun a ha => hne a (List.mem_append_left _ ha)) (by omega)]
    exact mark_room (hne r (by simp)) (by omega)

/-- More than 64 rectangles that fit together are in their bounding box. -/
theorem markAll_many : ∀ {l : List Rect}, (∀ r ∈ l, r.nonempty = true) →
    maxDirtyRegions < l.length → FitTogether l →
    ∃ box, markAll cleared l = ⟨[box], true⟩ ∧ IsBox box l := by
  intro l
  induction l using List.reverseRecOn with
  | nil => exact fun _ hlen _ => absurd hlen (Nat.not_lt_zero _)
  | append_singleton l r ih =>
    intro hne hlen hfit
    have hnel : ∀ a ∈ l, a.nonempty = true := fun a ha => hne a (List.mem_append_left _ ha)
    have hner : r.nonempty = true := hne r (by simp)
    have hfitl : FitTogether l := hfit.mono fun a ha => List.mem_append_left _ ha
    rw [List.length_append, List.length_singleton] at hlen
    rw [markAll_append]
    by_cases hfull : l.length = maxDirtyRegions
    · cases l with
      | nil => exact absurd hfull (by decide)
      | cons first rest =>
        rw [markAll_few hnel (by omega), mark_full hner hfull]
        have hbox : IsBox (rest.foldl rectUnion first) (first :: rest) :=
          (isBox_singleton first).foldl hfitl
        have hext := hbox.extent_lt_iff.mpr hfit
        exact ⟨_, rfl, hbox.append hext.1 hext.2⟩
    · obtain ⟨box, hstate, hbox⟩ := ih hnel (by omega) hfitl
      have hext := hbox.extent_lt_iff.mpr hfit
      rw [hstate, mark_collapsed hner]
      exact ⟨_, rfl, hbox.append hext.1 hext.2⟩

/-! ## Coverage -/

theorem nonempty_of_has {px py : Int} (h : r.Has px py) : r.nonempty = true := by
  obtain ⟨⟨hx0, hx1⟩, hy0, hy1⟩ := h
  unfold Rect.right at hx1
  unfold Rect.bottom at hy1
  rw [Rect.nonempty, Bool.and_eq_true, bne_iff_ne, bne_iff_ne]
  constructor
  · intro h0
    rw [h0, UInt32.toNat_zero] at hx1
    omega
  · intro h0
    rw [h0, UInt32.toNat_zero] at hy1
    omega

theorem mem_drawn {marks : List Rect} {r : Rect} :
    r ∈ drawn marks ↔ r ∈ marks ∧ r.nonempty = true :=
  List.mem_filter

theorem superset_of_fits {marks : List Rect} (h : Fits marks) : Superset marks := by
  have hne : ∀ r ∈ drawn marks, r.nonempty = true := fun r hr => (mem_drawn.mp hr).2
  intro r hr px py _ _ hp
  have hdrawn : r ∈ drawn marks := mem_drawn.mpr ⟨hr, nonempty_of_has hp⟩
  rw [markAll_drawn]
  by_cases hlen : (drawn marks).length ≤ maxDirtyRegions
  · rw [markAll_few hne hlen]
    exact ⟨r, hdrawn, hp⟩
  · obtain ⟨box, hstate, hbox⟩ := markAll_many hne (by omega) (h.resolve_left hlen)
    rw [hstate]
    exact ⟨box, List.mem_singleton_self box, hbox.has hdrawn hp⟩

theorem size_pos (h : r.nonempty = true) : 0 < r.width.toNat ∧ 0 < r.height.toNat := by
  rw [Rect.nonempty, Bool.and_eq_true, bne_iff_ne, bne_iff_ne] at h
  constructor
  · exact Nat.pos_of_ne_zero fun h0 => h.1 (UInt32.toNat_inj.mp h0)
  · exact Nat.pos_of_ne_zero fun h0 => h.2 (UInt32.toNat_inj.mp h0)

theorem edge_bounds (r : Rect) : InRange r.x.toInt ∧ InRange r.y.toInt ∧
    r.right < 2 ^ 31 + 2 ^ 32 ∧ r.bottom < 2 ^ 31 + 2 ^ 32 := by
  have hw := r.width.toNat_lt
  have hh := r.height.toNat_lt
  have hx := r.x.toInt_lt
  have hy := r.y.toInt_lt
  unfold Rect.right Rect.bottom
  exact ⟨⟨r.x.le_toInt, hx⟩, ⟨r.y.le_toInt, hy⟩, by omega, by omega⟩

/-- What a union does to an extent of 2^32 or more: the last coordinate of the range is lost. -/
theorem cut_short {lo hi : Int} (hlo : InRange lo) (hhi : hi < 2 ^ 31 + 2 ^ 32)
    (hext : 2 ^ 32 ≤ hi - lo) : lo + (hi - lo) % 2 ^ 32 ≤ 2 ^ 31 - 1 ∧ 2 ^ 31 - 1 < hi := by
  unfold InRange at hlo
  omega

/-- A collapsed list does not cover a rectangle with which its box does not fit. -/
theorem pixel_lost (h : IsBox box l) (hne : ∀ a ∈ l ++ [r], a.nonempty = true)
    (hno : ¬FitTogether (l ++ [r])) :
    ∃ a ∈ l ++ [r], ∃ px py, InRange px ∧ InRange py ∧ a.Has px py ∧
      ¬(rectUnion box r).Has px py := by
  have hmax : ∀ f : Rect → Int, IsGreatest {v | ∃ a ∈ l, v = f a} (f box) →
      ∃ a ∈ l ++ [r], max (f box) (f r) = f a := by
    intro f hf
    obtain ⟨a, ha, heq⟩ := hf.1
    rcases le_total (f box) (f r) with hle | hle
    · exact ⟨r, by simp, max_eq_right hle⟩
    · exact ⟨a, List.mem_append_left _ ha, (max_eq_left hle).trans heq⟩
  have hlast : InRange (2 ^ 31 - 1) := by
    unfold InRange
    omega
  obtain ⟨hbx, hby, -, -⟩ := edge_bounds box
  obtain ⟨hrx, hry, -, -⟩ := edge_bounds r
  rw [← h.extent_lt_iff, not_and_or, not_lt, not_lt] at hno
  rcases hno with hext | hext
  · -- the last column of the range
    obtain ⟨a, ha, hright⟩ := hmax Rect.right h.right
    obtain ⟨hax, hay, hlt, -⟩ := edge_bounds a
    have hmin : InRange (min box.x.toInt r.x.toInt) := by
      unfold InRange at hbx hrx ⊢
      omega
    unfold extentX at hext
    rw [hright] at hext
    obtain ⟨hcut, hin⟩ := cut_short hmin hlt hext
    have hheight := (size_pos (hne a ha)).2
    refine ⟨a, ha, 2 ^ 31 - 1, a.y.toInt, hlast, hay, ⟨⟨?_, hin⟩, le_refl _, ?_⟩, fun hp => ?_⟩
    · unfold InRange at hax
      omega
    · unfold Rect.bottom
      omega
    · have hlt := hp.1.2
      rw [rectUnion_right, extentX, hright] at hlt
      omega
  · -- the last row of the range
    obtain ⟨a, ha, hbottom⟩ := hmax Rect.bottom h.bottom
    obtain ⟨hax, hay, -, hlt⟩ := edge_bounds a
    have hmin : InRange (min box.y.toInt r.y.toInt) := by
      unfold InRange at hby hry ⊢
      omega
    unfold extentY at hext
    rw [hbottom] at hext
    obtain ⟨hcut, hin⟩ := cut_short hmin hlt hext
    have hwidth := (size_pos (hne a ha)).1
    refine ⟨a, ha, a.x.toInt, 2 ^ 31 - 1, hax, hlast, ⟨⟨le_refl _, ?_⟩, ?_, hin⟩, fun hp => ?_⟩
    · unfold Rect.right
      omega
    · unfold InRange at hay
      omega
    · have hlt := hp.2.2
      rw [rectUnion_bottom, extentY, hbottom] at hlt
      omega

theorem drawn_append (marks : List Rect) (r : Rect) :
    drawn (marks ++ [r]) = drawn marks ++ if r.nonempty then [r] else [] := by
  rw [drawn, List.filter_append, List.filter_singleton, Bool.cond_eq_ite]
  rfl

/-- Where the first 65 rectangles fit together and others do not, a pixel is lost on the way. -/
theorem fits_of_superset : ∀ {marks : List Rect},
    FitTogether ((drawn marks).take (maxDirtyRegions + 1)) →
    (∀ pre, pre <+: marks → Superset pre) → Fits marks := by
  intro marks
  induction marks using List.reverseRecOn with
  | nil => exact fun _ _ => Or.inl (Nat.zero_le _)
  | append_singleton marks r ih =>
    intro hfirst hpre
    have hne : ∀ a ∈ drawn (marks ++ [r]), a.nonempty = true := fun a ha => (mem_drawn.mp ha).2
    have hdrawn := drawn_append marks r
    have hsuper := hpre _ (List.prefix_refl (marks ++ [r]))
    have hfits : Fits marks := by
      apply ih
      · refine hfirst.mono fun a ha => ?_
        rw [hdrawn, List.take_append]
        exact List.mem_append_left _ ha
      · exact fun pre h => hpre pre (h.trans (List.prefix_append marks [r]))
    cases hr : r.nonempty with
    | false =>
      rw [hr] at hdrawn
      rw [Fits, hdrawn, if_neg Bool.false_ne_true, List.append_nil]
      exact hfits
    | true =>
      rw [hr, if_pos rfl] at hdrawn
      by_contra hno
      unfold Fits at hno
      rw [hdrawn, List.length_append, List.length_singleton, not_or] at hno
      by_cases hlen : (drawn marks).length ≤ maxDirtyRegions
      · rw [hdrawn, List.take_of_length_le (by
          rw [List.length_append, List.length_singleton]
          omega)] at hfirst
        exact hno.2 hfirst
      · rw [hdrawn] at hne
        obtain ⟨box, hstate, hbox⟩ := markAll_many
          (fun a ha => hne a (List.mem_append_left _ ha)) (by omega) (hfits.resolve_left hlen)
        obtain ⟨a, ha, px, py, hpx, hpy, hin, hout⟩ := pixel_lost hbox hne hno.2
        have hmem : a ∈ marks ++ [r] := (mem_drawn.mp (hdrawn ▸ ha)).1
        obtain ⟨q, hq, hqin⟩ := hsuper a hmem px py hpx hpy hin
        rw [markAll_drawn, hdrawn, markAll_append, hstate, mark_collapsed hr] at hq
        obtain rfl := List.mem_singleton.mp hq
        exact hout hqin

/-- After every mark of a sequence that fits all pixels are covered. Conversely, if they always
are and the rectangles of the first collapse fit together, then all of the sequence fits. -/
theorem dirty_superset (marks : List Rect) :
    (Fits marks → ∀ pre, pre <+: marks → Superset pre) ∧
      (FitTogether ((drawn marks).take (maxDirtyRegions + 1)) →
        (∀ pre, pre <+: marks → Superset pre) → Fits marks) := by
  refine ⟨fun h pre hpre => superset_of_fits ?_, fits_of_superset⟩
  have hsub : (drawn pre).Sublist (drawn marks) := hpre.sublist.filter _
  rcases h with hlen | hfit
  · exact Or.inl (hsub.length_le.trans hlen)
  · exact Or.inr (hfit.mono fun a ha => hsub.subset ha)

/-- 64 pixels in the first column and one in the last. -/
def farMarks : List Rect :=
  List.replicate 64 ⟨-2147483648, 0, 1, 1⟩ ++ [⟨2147483647, 0, 1, 1⟩]

theorem far_marks_lost : ¬Superset farMarks ∧
    (markAll cleared farMarks).regions = [⟨-2147483648, 0, 0, 1⟩] := by
  have hstate : (markAll cleared farMarks).regions = [⟨-2147483648, 0, 0, 1⟩] := by
    decide +kernel
  refine ⟨fun h => ?_, hstate⟩
  obtain ⟨q, hq, hin⟩ := h ⟨2147483647, 0, 1, 1⟩ (by simp [farMarks]) 2147483647 0
    (by decide) (by decide) (by decide)
  rw [hstate] at hq
  obtain rfl := List.mem_singleton.mp hq
  exact absurd hin (by decide)

end Kyuzen.Display
