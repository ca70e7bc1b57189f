import Kyuzen.Kwm.Stacking
import Kyuzen.Kwm.Compositor

/-!
# The hit test and the paint order

The hit test looks for the highest index among the windows at a point, as signed numbers and from
the first slot on. The compositor counts through the indices up to `next_z_index`, and through
the slots for each of them. As long as the windows have different indices that are not above
`next_z_index` and fit in 31 bits, the last window that is painted at a point is the one that a
click there hits (`click_hits_painted`). A window that is created while the others are renumbered
has an index above `next_z_index`: it takes clicks, and is not painted
(`click_hits_unpainted`).
-/

namespace Kyuzen.Kwm

variable {s : State} {i : Nat} {p : Point}

/-- The frame of the window, content or titlebar, is painted at the point. -/
def Window.Framed (w : Window) (p : Point) : Prop :=
  w.contentRect.Has p ∨ w.desktop = false ∧ w.titlebarRect.Has p

instance (w : Window) (p : Point) : Decidable (w.Framed p) :=
  inferInstanceAs (Decidable (_ ∨ _ ∧ _))

/-- The window whose frame is painted last at the point. -/
def paintedLast (s : State) (p : Point) : Option Nat :=
  ((paintOrder s).filter fun w => (s.windows w).Framed p).getLast?

/-- The sums of the coordinates of a window are 32-bit integers. -/
structure Window.InRange (w : Window) : Prop where
  left : -2 ^ 31 ≤ w.x
  right : w.x + w.width < 2 ^ 31
  top : -2 ^ 31 ≤ w.y
  bottom : w.y + (w.height + w.tb) < 2 ^ 31
  height : w.height + w.tb < 2 ^ 31

instance (w : Window) : Decidable w.InRange :=
  decidable_of_iff (-2 ^ 31 ≤ w.x ∧ w.x + w.width < 2 ^ 31 ∧ -2 ^ 31 ≤ w.y ∧
      w.y + (w.height + w.tb) < 2 ^ 31 ∧ w.height + w.tb < 2 ^ 31)
    ⟨fun h => ⟨h.1, h.2.1, h.2.2.1, h.2.2.2.1, h.2.2.2.2⟩,
      fun h => ⟨h.left, h.right, h.top, h.bottom, h.height⟩⟩

/-! ## Frames -/

theorem i32_eq {v : Int} (hlo : -2 ^ 31 ≤ v) (hhi : v < 2 ^ 31) : i32 v = v :=
  Int.bmod_eq_of_le_mul_two (by omega) (by omega)

theorem Window.InRange.hit_iff {w : Window} (h : w.InRange) (p : Point) :
    w.hit p.1 p.2 = true ↔ w.Framed p := by
  have hleft := h.left
  have hright := h.right
  have htop := h.top
  have hbottom := h.bottom
  have hheight := h.height
  have hx : i32 (w.x + w.width) = w.x + w.width := i32_eq (by omega) hright
  have hh : i32 (w.height + w.tb) = w.height + w.tb := i32_eq (by omega) (by omega)
  have hy : i32 (w.y + (w.height + w.tb)) = w.y + (w.height + w.tb) := i32_eq (by omega) hbottom
  simp only [Window.hit, hx, hh, hy, Bool.and_eq_true, decide_eq_true_eq, Window.Framed,
    Rect.Has, Window.contentRect, Window.titlebarRect]
  have htb : titlebarH = 24 := rfl
  cases hd : w.desktop with
  | true =>
    have : w.tb = 0 := by simp [Window.tb, hd]
    simp only [reduceCtorEq, false_and, or_false]
    omega
  | false =>
    have : w.tb = 24 := by simp [Window.tb, hd, titlebarH]
    simp only [true_and]
    omega

/-! ## The compositor -/

theorem mem_paintOrder : i ∈ paintOrder s ↔ i < maxWindows ∧ (s.windows i).active = true ∧
    (s.windows i).zIndex ≤ s.nextZIndex ∧ (s.windows i).canvas.isSome = true := by
  simp only [paintOrder, List.mem_flatMap, List.mem_range, List.mem_filter, Bool.and_eq_true,
    beq_iff_eq]
  constructor
  · rintro ⟨z, hz, hi, ⟨hactive, rfl⟩, hcanvas⟩
    exact ⟨hi, hactive, by omega, hcanvas⟩
  · rintro ⟨hi, hactive, hz, hcanvas⟩
    exact ⟨_, by omega, hi, ⟨hactive, rfl⟩, hcanvas⟩

/-- Lower indices are painted first. -/
theorem paintOrder_sorted (s : State) :
    (paintOrder s).Pairwise fun v w => (s.windows v).zIndex ≤ (s.windows w).zIndex := by
  have hz : ∀ (z w : Nat), w ∈ ((List.range maxWindows).filter fun w => (s.windows w).active &&
      (s.windows w).zIndex == z && (s.windows w).canvas.isSome) → (s.windows w).zIndex = z := by
    intro z w hw
    simp only [List.mem_filter, Bool.and_eq_true, beq_iff_eq] at hw
    exact hw.2.1.2
  rw [paintOrder, List.pairwise_flatMap]
  constructor
  · intro z _
    rw [List.pairwise_iff_forall_sublist]
    intro v w hvw
    have hv := hz z v (hvw.subset (by simp))
    have hw := hz z w (hvw.subset (by simp))
    omega
  · apply List.Pairwise.imp _ List.pairwise_lt_range
    intro z z' hlt v hv w hw
    have := hz z v hv
    have := hz z' w hw
    omega

theorem le_getLast {l : List Nat} {f : Nat → Nat} (h : l.Pairwise fun v w => f v ≤ f w)
    (hi : l.getLast? = some i) {j : Nat} (hj : j ∈ l) : f j ≤ f i := by
  obtain ⟨l', rfl⟩ := List.getLast?_eq_some_iff.mp hi
  rcases List.mem_append.mp hj with hmem | hlast
  · exact (List.pairwise_append.mp h).2.2 j hmem i (List.mem_singleton_self i)
  · rw [List.mem_singleton.mp hlast]

theorem paintedLast_some (h : paintedLast s p = some i) :
    i ∈ paintOrder s ∧ (s.windows i).Framed p ∧ ∀ j ∈ paintOrder s, (s.windows j).Framed p →
      (s.windows j).zIndex ≤ (s.windows i).zIndex := by
  have hmem := List.mem_of_getLast? h
  simp only [List.mem_filter, decide_eq_true_eq] at hmem
  refine ⟨hmem.1, hmem.2, ?_⟩
  intro j hj hframed
  apply le_getLast ((paintOrder_sorted s).filter _) h
  simp only [List.mem_filter, decide_eq_true_eq]
  exact ⟨hj, hframed⟩

theorem paintedLast_none (h : paintedLast s p = none) {j : Nat} (hj : j ∈ paintOrder s) :
    ¬ (s.windows j).Framed p := by
  intro hframed
  have hnil := List.getLast?_eq_none_iff.mp h
  have hmem : j ∈ (paintOrder s).filter fun w => (s.windows w).Framed p := by
    simp only [List.mem_filter, decide_eq_true_eq]
    exact ⟨hj, hframed⟩
  rw [hnil] at hmem
  cases hmem

/-! ## The hit test -/

/-- What the loop knows after the first slots. -/
structure HitBest (s : State) (px py : Int) (seen : List Nat) (best : Int × Option Nat) :
    Prop where
  none : best.2 = none → best.1 = -1
  some : ∀ i, best.2 = some i → i ∈ seen ∧ (s.windows i).active = true ∧
    (s.windows i).hit px py = true ∧ best.1 = i32 (s.windows i).zIndex
  most : ∀ j ∈ seen, (s.windows j).active = true → (s.windows j).hit px py = true →
    i32 (s.windows j).zIndex ≤ best.1

theorem HitBest.step {px py : Int} {seen : List Nat} {best : Int × Option Nat}
    (h : HitBest s px py seen best) (k : Nat) :
    HitBest s px py (seen ++ [k]) (hitStep s px py best k) := by
  unfold hitStep
  split
  · rename_i hk
    simp only [Bool.and_eq_true, decide_eq_true_eq, gt_iff_lt] at hk
    refine ⟨?_, ?_, ?_⟩
    · intro hnone
      cases hnone
    · intro i hi
      obtain rfl : k = i := Option.some.inj hi
      refine ⟨List.mem_append_right _ (List.mem_singleton_self k), hk.1.1, hk.1.2, ?_⟩
      dsimp only
    · intro j hj hactive hhit
      rcases List.mem_append.mp hj with hj | hj
      · have hle := h.most j hj hactive hhit
        dsimp only
        omega
      · rw [List.mem_singleton.mp hj]
  · rename_i hk
    refine ⟨h.none, ?_, ?_⟩
    · intro i hi
      obtain ⟨hmem, hrest⟩ := h.some i hi
      exact ⟨List.mem_append_left _ hmem, hrest⟩
    · intro j hj hactive hhit
      rcases List.mem_append.mp hj with hj | hj
      · exact h.most j hj hactive hhit
      · rw [List.mem_singleton.mp hj] at hactive hhit ⊢
        simp only [hactive, hhit, Bool.and_self, Bool.true_and, decide_eq_true_eq] at hk
        omega

theorem hitBest_loop (px py : Int) (l seen : List Nat) (best : Int × Option Nat)
    (h : HitBest s px py seen best) :
    HitBest s px py (seen ++ l) (l.foldl (hitStep s px py) best) := by
  induction l generalizing seen best with
  | nil =>
    rw [List.append_nil]
    exact h
  | cons k l ih =>
    have hrest := ih (seen ++ [k]) _ (h.step k)
    rw [List.append_assoc] at hrest
    exact hrest

theorem hitBest_final (s : State) (px py : Int) :
    HitBest s px py (List.range maxWindows)
      ((List.range maxWindows).foldl (hitStep s px py) (-1, none)) := by
  apply hitBest_loop px py (List.range maxWindows) [] (-1, none)
  refine ⟨fun _ => rfl, ?_, ?_⟩
  · intro i hi
    cases hi
  · intro j hj
    cases hj

/-! ## Clicks and pixels -/

/-- All windows, with the desktop, have different indices. -/
theorem Stacked.active_distinct (h : Stacked s) (hs : Sound s) {v w : Nat} (hv : v < maxWindows)
    (hw : w < maxWindows) (hav : (s.windows v).active = true) (haw : (s.windows w).active = true)
    (hz : (s.windows v).zIndex = (s.windows w).zIndex) : v = w := by
  have hnormal : ∀ u, (s.windows u).active = true → (s.windows u).desktop = false →
      s.normal u = true := by
    intro u hu hd
    simp [State.normal, hu, hd]
  cases hdv : (s.windows v).desktop with
  | true =>
    have hzv := h.desktop v hv hav hdv
    cases hdw : (s.windows w).desktop with
    | true => exact hs.desktop v hv w hw hav hdv haw hdw
    | false =>
      have := (h.range w hw (hnormal w haw hdw)).1
      omega
  | false =>
    have hpos := (h.range v hv (hnormal v hav hdv)).1
    cases hdw : (s.windows w).desktop with
    | true =>
      have := h.desktop w hw haw hdw
      omega
    | false => exact h.distinct v hv w hw (hnormal v hav hdv) (hnormal w haw hdw) hz

theorem Stacked.zIndex_le (h : Stacked s) {w : Nat} (hw : w < maxWindows)
    (ha : (s.windows w).active = true) : (s.windows w).zIndex < s.nextZIndex := by
  cases hd : (s.windows w).desktop with
  | true =>
    have := h.desktop w hw ha hd
    have := h.next
    omega
  | false => exact (h.range w hw (by simp [State.normal, ha, hd])).2

/-- Every window of an ordered stack is painted. -/
theorem Stacked.mem_paintOrder (h : Stacked s) (hs : Sound s) {w : Nat} (hw : w < maxWindows)
    (ha : (s.windows w).active = true) : w ∈ paintOrder s := by
  apply Kwm.mem_paintOrder.mpr
  refine ⟨hw, ha, Nat.le_of_lt (h.zIndex_le hw ha), ?_⟩
  have hcanvas := hs.canvas w hw
  rw [Window.CanvasFits, if_pos ha] at hcanvas
  rw [← Option.isSome_map, hcanvas]
  rfl

/-- In a run whose windows are created before `next_z_index` reaches 16, and in which the counter
stays within 31 bits, a click hits the window that is painted last at the point. -/
theorem click_hits_painted (h : Reach (StackSafe (2 ^ 31)) s)
    (hrange : ∀ w < maxWindows, (s.windows w).active = true → (s.windows w).InRange)
    (p : Point) : kwmHitTestLocked s p.1 p.2 = paintedLast s p := by
  have hlimit : 2 ^ 31 ≤ 2 ^ 32 - 1 := by decide
  have hst := h.stacked hlimit
  have hso := h.sound
  have hnext := h.next_le hlimit
  have hmax : maxWindows = 16 := rfl
  have hbest := hitBest_final s p.1 p.2
  have hz : ∀ w < maxWindows, (s.windows w).active = true →
      i32 (s.windows w).zIndex = (s.windows w).zIndex := by
    intro w hw ha
    have := hst.zIndex_le hw ha
    exact i32_eq (by omega) (by omega)
  have hhit : ∀ w < maxWindows, (s.windows w).active = true →
      ((s.windows w).hit p.1 p.2 = true ↔ (s.windows w).Framed p) :=
    fun w hw ha => (hrange w hw ha).hit_iff p
  cases hpainted : paintedLast s p with
  | none =>
    cases htest : kwmHitTestLocked s p.1 p.2 with
    | none => rfl
    | some i =>
      obtain ⟨hmem, ha, hh, -⟩ := hbest.some i htest
      have hi := List.mem_range.mp hmem
      exact absurd ((hhit i hi ha).mp hh) (paintedLast_none hpainted (hst.mem_paintOrder hso hi ha))
  | some j =>
    obtain ⟨hj, hframed, hmost⟩ := paintedLast_some hpainted
    obtain ⟨hjlt, hja, -, -⟩ := Kwm.mem_paintOrder.mp hj
    have hle := hbest.most j (List.mem_range.mpr hjlt) hja ((hhit j hjlt hja).mpr hframed)
    rw [hz j hjlt hja] at hle
    cases htest : kwmHitTestLocked s p.1 p.2 with
    | none =>
      have := hbest.none htest
      omega
    | some i =>
      obtain ⟨hmem, ha, hh, hbz⟩ := hbest.some i htest
      have hi := List.mem_range.mp hmem
      rw [hbz, hz i hi ha] at hle
      have hge := hmost i (hst.mem_paintOrder hso hi ha) ((hhit i hi ha).mp hh)
      congr 1
      exact hst.active_distinct hso hi hjlt ha hja (by omega)

/-- Two windows that overlap, and a point in both. -/
theorem click_hits_painted_overlap :
    kwmHitTestLocked (exec (exec (boot 640 480) (.createWindow 1 (some fun _ => 0) 0 0 100 100))
      (.createWindow 2 (some fun _ => 0) 50 0 100 100)) 60 50 =
    paintedLast (exec (exec (boot 640 480) (.createWindow 1 (some fun _ => 0) 0 0 100 100))
      (.createWindow 2 (some fun _ => 0) 50 0 100 100)) (60, 50) := by
  have hfirst : StackSafe (2 ^ 31) (boot 640 480)
      (.createWindow 1 (some fun _ => 0) 0 0 100 100) := fun _ _ => by decide
  have hsecond : StackSafe (2 ^ 31)
      (exec (boot 640 480) (.createWindow 1 (some fun _ => 0) 0 0 100 100))
      (.createWindow 2 (some fun _ => 0) 50 0 100 100) := fun _ _ => by decide +kernel
  have hreach := Reach.step _ (Reach.step _ (Reach.boot 640 480) hfirst) hsecond
  exact click_hits_painted hreach (by decide +kernel) (60, 50)

/-- The first window is clicked on until `next_z_index` is 16. The second one then takes clicks,
and is not painted. -/
theorem click_hits_unpainted : ¬ ∀ (fbWidth fbHeight : Nat) (ops : List Op) (p : Point),
    (∀ w < maxWindows, ((ops.foldl exec (boot fbWidth fbHeight)).windows w).active = true →
      ((ops.foldl exec (boot fbWidth fbHeight)).windows w).InRange) →
    kwmHitTestLocked (ops.foldl exec (boot fbWidth fbHeight)) p.1 p.2 =
      paintedLast (ops.foldl exec (boot fbWidth fbHeight)) p := by
  intro h
  have heq := h 640 480 (.createWindow 1 (some fun _ => 0) 0 0 100 100 ::
    List.replicate 14 (.mouse 50 50 true false) ++
    [.createWindow 2 (some fun _ => 0) 200 0 100 100]) (250, 50) (by decide +kernel)
  exact absurd heq (by decide +kernel)

end Kyuzen.Kwm
