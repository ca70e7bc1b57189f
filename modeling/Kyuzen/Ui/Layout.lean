import Mathlib.Logic.Function.Iterate
import Mathlib.Tactic.Ring

/-!
# The layout of the widgets

`VBox`, `HBox` and `Tab` of `libui.cpp`. `arrange` places the children by the sizes that they have
before they are drawn, and the size of a box is what `arrange` leaves: the boxes around it see it
at the next rendering. So a tree of boxes in boxes needs as many renderings as it is deep, and for
every depth there is one that needs so many (`draws_settle`).

A widget of one piece is a `leaf`. Of a `Tab` the tree holds the active panel, as the others are
neither drawn nor picked. `id` is the pointer to a widget; `visible` is always true.
-/

namespace Kyuzen.Ui.Layout

structure Size where
  w : Int
  h : Int
  deriving DecidableEq

structure Frame extends Size where
  x : Int
  y : Int
  deriving DecidableEq

inductive Box
  | vbox
  | hbox
  deriving DecidableEq

inductive Widget
  | leaf (id : Nat) (frame : Frame)
  | layout (box : Box) (spacing : Int) (frame : Frame) (children : List Widget)
  | tab (id : Nat) (frame : Frame) (panel : Widget)

variable {box : Box} {spacing : Int} {f g : Frame} {fs gs : List Frame} {szs : List Size} {n : Nat}
  {w c : Widget} {cs : List Widget}

/-! ## `arrange` -/

/-- The loop of `VBox::arrange`: the frames of the children, and `cy` at the end. -/
def vboxLoop (x spacing : Int) : Int → List Size → List Frame × Int
  | cy, [] => ([], cy)
  | cy, sz :: szs =>
    let r := vboxLoop x spacing (cy + (sz.h + spacing)) szs
    (⟨sz, x, cy⟩ :: r.1, r.2)

/-- The loop of `HBox::arrange`: the frames of the children, and `cx` and `mh` at the end. -/
def hboxLoop (y spacing : Int) : Int → Int → List Size → List Frame × Int × Int
  | cx, mh, [] => ([], cx, mh)
  | cx, mh, sz :: szs =>
    let r := hboxLoop y spacing (cx + (sz.w + spacing)) (if sz.h > mh then sz.h else mh) szs
    (⟨sz, cx, y⟩ :: r.1, r.2)

/-- The frame of the box, and those of its children. -/
def arrange (box : Box) (spacing : Int) (f : Frame) (szs : List Size) : Frame × List Frame :=
  match box with
  | .vbox =>
    let r := vboxLoop f.x spacing f.y szs
    (⟨⟨f.w, r.2 - f.y⟩, f.x, f.y⟩, r.1)
  | .hbox =>
    let r := hboxLoop f.y spacing f.x 0 szs
    (⟨⟨r.2.1 - f.x, r.2.2⟩, f.x, f.y⟩, r.1)

/-! ## `draw` -/

namespace Widget

def frame : Widget → Frame
  | leaf _ f => f
  | layout _ _ f _ => f
  | tab _ f _ => f

def size (w : Widget) : Size := w.frame.toSize

mutual

/-- `draw`, when the box or the tab around the widget has set its frame to `f`. -/
def drawIn (f : Frame) : Widget → Widget
  | leaf id _ => leaf id f
  | layout box spacing _ cs =>
    let r := arrange box spacing f (cs.map size)
    layout box spacing r.1 (drawAll r.2 cs)
  | tab id _ panel => tab id f (drawIn ⟨⟨f.w, f.h - 26⟩, f.x, f.y + 26⟩ panel)

def drawAll : List Frame → List Widget → List Widget
  | _, [] => []
  | [], cs => cs
  | f :: fs, c :: cs => drawIn f c :: drawAll fs cs

end

def draw (w : Widget) : Widget := w.drawIn w.frame

end Widget

/-! ## The sizes of the boxes -/

/-- The size of a box of a certain width around children of these sizes. -/
def boxSize : Box → Int → Int → List Size → Size
  | .vbox, spacing, w, szs => ⟨w, (szs.map fun sz => sz.h + spacing).sum⟩
  | .hbox, spacing, _, szs => ⟨(szs.map fun sz => sz.w + spacing).sum, (szs.map Size.h).foldl max 0⟩

theorem vboxLoop_snd (x spacing cy : Int) (szs : List Size) :
    (vboxLoop x spacing cy szs).2 = cy + (szs.map fun sz => sz.h + spacing).sum := by
  induction szs generalizing cy with
  | nil => simp [vboxLoop]
  | cons sz szs ih =>
    simp only [vboxLoop, ih, List.map_cons, List.sum_cons]
    ring

theorem hboxLoop_snd (y spacing cx mh : Int) (szs : List Size) :
    (hboxLoop y spacing cx mh szs).2 =
      (cx + (szs.map fun sz => sz.w + spacing).sum, (szs.map Size.h).foldl max mh) := by
  induction szs generalizing cx mh with
  | nil => simp [hboxLoop]
  | cons sz szs ih =>
    have hmax : (if sz.h > mh then sz.h else mh) = max mh sz.h := by
      rw [max_def]
      split_ifs <;> omega
    simp only [hboxLoop, ih, List.map_cons, List.sum_cons, List.foldl_cons, hmax]
    rw [add_assoc]

theorem arrange_toSize : (arrange box spacing f szs).1.toSize = boxSize box spacing f.w szs := by
  cases box with
  | vbox =>
    simp only [arrange, boxSize, vboxLoop_snd]
    rw [add_sub_cancel_left]
  | hbox =>
    simp only [arrange, boxSize, hboxLoop_snd]
    rw [add_sub_cancel_left]

/-- What `arrange` leaves in a box changes nothing for the next `arrange`. -/
theorem arrange_arrange (szs' : List Size) :
    arrange box spacing (arrange box spacing f szs).1 szs' = arrange box spacing f szs' := by
  cases box <;> rfl

theorem boxSize_arrange (szs' : List Size) :
    boxSize box spacing (arrange box spacing f szs).1.w szs' = boxSize box spacing f.w szs' := by
  cases box <;> rfl

theorem vboxLoop_sizes (x spacing cy : Int) (szs : List Size) :
    (vboxLoop x spacing cy szs).1.map Frame.toSize = szs := by
  induction szs generalizing cy with
  | nil => rfl
  | cons sz szs ih => simp only [vboxLoop, List.map_cons, ih]

theorem hboxLoop_sizes (y spacing cx mh : Int) (szs : List Size) :
    (hboxLoop y spacing cx mh szs).1.map Frame.toSize = szs := by
  induction szs generalizing cx mh with
  | nil => rfl
  | cons sz szs ih => simp only [hboxLoop, List.map_cons, ih]

/-- `arrange` moves the children and leaves their sizes. -/
theorem arrange_sizes : (arrange box spacing f szs).2.map Frame.toSize = szs := by
  cases box with
  | vbox => exact vboxLoop_sizes _ _ _ _
  | hbox => exact hboxLoop_sizes _ _ _ _ _

theorem arrange_length : (arrange box spacing f szs).2.length = szs.length := by
  rw [← List.length_map Frame.toSize, arrange_sizes]

namespace Widget

/-! ## The layout that is meant -/

mutual

/-- The size of a widget in which each box is as large as its contents ask for, when `sz` is the
size that it has. -/
def naturalIn (sz : Size) : Widget → Size
  | leaf _ _ => sz
  | layout box spacing _ cs => boxSize box spacing sz.w (naturals cs)
  | tab _ _ _ => sz

def naturals : List Widget → List Size
  | [] => []
  | c :: cs => naturalIn c.size c :: naturals cs

end

def natural (w : Widget) : Size := w.naturalIn w.size

mutual

/-- The layout of a widget in the frame `f`, in which `arrange` finds each child in its natural
size. -/
def settledIn (f : Frame) : Widget → Widget
  | leaf id _ => leaf id f
  | layout box spacing _ cs =>
    let r := arrange box spacing f (naturals cs)
    layout box spacing r.1 (settledAll r.2 cs)
  | tab id _ panel => tab id f (settledIn ⟨⟨f.w, f.h - 26⟩, f.x, f.y + 26⟩ panel)

def settledAll : List Frame → List Widget → List Widget
  | _, [] => []
  | [], _ :: _ => []
  | f :: fs, c :: cs => settledIn f c :: settledAll fs cs

end

def settled (w : Widget) : Widget := w.settledIn w.frame

mutual

/-- How many boxes are around the innermost widget. -/
def depth : Widget → Nat
  | leaf _ _ => 0
  | layout _ _ _ cs => depths cs + 1
  | tab _ _ panel => depth panel

def depths : List Widget → Nat
  | [] => 0
  | c :: cs => max (depth c) (depths cs)

end

mutual

theorem depth_drawIn (f : Frame) (w : Widget) : (w.drawIn f).depth = w.depth := by
  match w with
  | leaf _ _ => rfl
  | layout _ _ _ cs => simp only [drawIn, depth, depths_drawAll]
  | tab _ _ panel => simp only [drawIn, depth, depth_drawIn _ panel]

theorem depths_drawAll (fs : List Frame) (cs : List Widget) :
    depths (drawAll fs cs) = depths cs := by
  match fs, cs with
  | _, [] => simp only [drawAll]
  | [], _ :: _ => simp only [drawAll]
  | f :: fs, c :: cs => simp only [drawAll, depths, depth_drawIn f c, depths_drawAll fs cs]

end

/-! ## What a drawing keeps -/

theorem naturalIn_size_drawIn (f : Frame) (c : Widget) :
    c.naturalIn (c.drawIn f).size = c.naturalIn f.toSize := by
  cases c with
  | leaf _ _ => rfl
  | layout _ _ _ _ => exact boxSize_arrange _
  | tab _ _ _ => rfl

mutual

theorem naturalIn_drawIn (sz : Size) (f : Frame) (w : Widget) :
    (w.drawIn f).naturalIn sz = w.naturalIn sz := by
  match w with
  | leaf _ _ => rfl
  | layout _ _ _ cs => simp only [drawIn, naturalIn, naturals_drawAll _ cs arrange_sizes]
  | tab _ _ panel => simp only [drawIn, naturalIn]

theorem naturals_drawAll (fs : List Frame) (cs : List Widget)
    (h : fs.map Frame.toSize = cs.map size) : naturals (drawAll fs cs) = naturals cs := by
  match fs, cs with
  | _, [] => simp only [drawAll]
  | [], _ :: _ => simp only [drawAll]
  | f :: fs, c :: cs =>
    obtain ⟨hf, hfs⟩ := List.cons_eq_cons.mp h
    have hc : (c.drawIn f).naturalIn (c.drawIn f).size = c.naturalIn c.size := by
      rw [naturalIn_drawIn _ f c, naturalIn_size_drawIn, hf]
    simp only [drawAll, naturals, hc, naturals_drawAll fs cs hfs]

end

mutual

theorem settledIn_drawIn (g f : Frame) (w : Widget) :
    (w.drawIn f).settledIn g = w.settledIn g := by
  match w with
  | leaf _ _ => rfl
  | layout _ _ _ cs =>
    simp only [drawIn, settledIn, naturals_drawAll _ cs arrange_sizes, settledAll_drawAll _ _ cs]
  | tab _ _ panel => simp only [drawIn, settledIn, settledIn_drawIn _ _ panel]

theorem settledAll_drawAll (gs fs : List Frame) (cs : List Widget) :
    settledAll gs (drawAll fs cs) = settledAll gs cs := by
  match gs, fs, cs with
  | _, _, [] => simp only [drawAll]
  | _, [], _ :: _ => simp only [drawAll]
  | [], _ :: _, _ :: _ => simp only [drawAll, settledAll]
  | g :: gs, f :: fs, c :: cs =>
    simp only [drawAll, settledAll, settledIn_drawIn g f c, settledAll_drawAll gs fs cs]

end

/-! ## The boxes that have their size -/

mutual

/-- A child of a box, if at most `n` boxes are around what is in it, has its natural size. -/
def Good (n : Nat) : Widget → Prop
  | leaf _ _ => True
  | layout _ _ _ cs => GoodAll n cs
  | tab _ _ panel => Good n panel

def GoodAll (n : Nat) : List Widget → Prop
  | [] => True
  | c :: cs => Good n c ∧ (c.depth ≤ n → c.size = c.natural) ∧ GoodAll n cs

end

mutual

theorem good_zero (w : Widget) : w.Good 0 := by
  match w with
  | leaf _ _ => trivial
  | layout _ _ _ cs => exact goodAll_zero cs
  | tab _ _ panel => exact good_zero panel

theorem goodAll_zero (cs : List Widget) : GoodAll 0 cs := by
  match cs with
  | [] => trivial
  | c :: cs =>
    refine ⟨good_zero c, fun hdepth => ?_, goodAll_zero cs⟩
    cases c with
    | leaf _ _ => rfl
    | layout _ _ _ _ => exact absurd hdepth (Nat.not_succ_le_zero _)
    | tab _ _ _ => rfl

end

theorem sizes_eq (hgood : GoodAll n cs) (hdepth : depths cs ≤ n) : cs.map size = naturals cs := by
  induction cs with
  | nil => rfl
  | cons c cs ih =>
    obtain ⟨-, hsize, hcs⟩ := hgood
    rw [depths, max_le_iff] at hdepth
    rw [List.map_cons, ih hcs hdepth.2, hsize hdepth.1]
    rfl

/-- A box around boxes of the natural size gets its own. -/
theorem size_drawIn (hgood : c.Good n) (hdepth : c.depth ≤ n + 1) :
    (c.drawIn f).size = (c.drawIn f).natural := by
  rw [natural, naturalIn_drawIn, naturalIn_size_drawIn]
  cases c with
  | leaf _ _ => rfl
  | layout box spacing _ cs =>
    have hsizes := sizes_eq hgood (Nat.le_of_succ_le_succ hdepth)
    calc (arrange box spacing f (cs.map size)).1.toSize
        = boxSize box spacing f.w (cs.map size) := arrange_toSize
      _ = boxSize box spacing f.w (naturals cs) := by rw [hsizes]
  | tab _ _ _ => rfl

mutual

/-- One more layer of boxes has its size after a drawing. -/
theorem good_drawIn (f : Frame) (w : Widget) (h : w.Good n) : (w.drawIn f).Good (n + 1) := by
  match w with
  | leaf _ _ => trivial
  | layout _ _ _ cs => exact goodAll_drawAll _ cs arrange_sizes h
  | tab _ _ panel => exact good_drawIn _ panel h

theorem goodAll_drawAll (fs : List Frame) (cs : List Widget)
    (hfs : fs.map Frame.toSize = cs.map size) (h : GoodAll n cs) :
    GoodAll (n + 1) (drawAll fs cs) := by
  match fs, cs with
  | _, [] =>
    rw [drawAll]
    trivial
  | [], _ :: _ => cases hfs
  | f :: fs, c :: cs =>
    obtain ⟨hc, -, hcs⟩ := h
    rw [drawAll]
    refine ⟨good_drawIn f c hc, fun hdepth => ?_, goodAll_drawAll fs cs ?_ hcs⟩
    · rw [depth_drawIn] at hdepth
      exact size_drawIn hc hdepth
    · exact (List.cons_eq_cons.mp hfs).2

end

mutual

theorem drawIn_eq_settledIn (f : Frame) (w : Widget) (hgood : w.Good n) (hdepth : w.depth ≤ n + 1) :
    w.drawIn f = w.settledIn f := by
  match w with
  | leaf _ _ => rfl
  | layout box spacing _ cs =>
    have hcs := Nat.le_of_succ_le_succ hdepth
    have hlen : (arrange box spacing f (cs.map size)).2.length = cs.length := by
      rw [arrange_length, List.length_map]
    rw [drawIn, settledIn, drawAll_eq_settledAll _ cs hgood hcs hlen, sizes_eq hgood hcs]
  | tab _ _ panel => rw [drawIn, settledIn, drawIn_eq_settledIn _ panel hgood hdepth]

theorem drawAll_eq_settledAll (fs : List Frame) (cs : List Widget) (hgood : GoodAll n cs)
    (hdepth : depths cs ≤ n) (hlen : fs.length = cs.length) :
    drawAll fs cs = settledAll fs cs := by
  match fs, cs with
  | _, [] => simp only [drawAll, settledAll]
  | [], _ :: _ => cases hlen
  | f :: fs, c :: cs =>
    obtain ⟨hc, -, hcs⟩ := hgood
    rw [depths, max_le_iff] at hdepth
    rw [drawAll, settledAll, drawIn_eq_settledIn f c hc (Nat.le_succ_of_le hdepth.1),
      drawAll_eq_settledAll fs cs hcs hdepth.2 (Nat.succ.inj hlen)]

end

/-! ## How many renderings it takes -/

theorem settledIn_frame_drawIn (f : Frame) (w : Widget) :
    w.settledIn (w.drawIn f).frame = w.settledIn f := by
  cases w with
  | leaf _ _ => rfl
  | layout _ _ _ _ =>
    simp only [drawIn, frame, settledIn, arrange_arrange]
  | tab _ _ _ => rfl

/-- What is meant stays the same when a widget is drawn. -/
theorem settled_draw (w : Widget) : w.draw.settled = w.settled := by
  rw [settled, draw, settledIn_drawIn, settledIn_frame_drawIn]
  rfl

theorem settled_iterate (w : Widget) (n : Nat) : (draw^[n] w).settled = w.settled := by
  induction n with
  | zero => rfl
  | succ n ih => rw [Function.iterate_succ_apply', settled_draw, ih]

theorem depth_iterate (w : Widget) (n : Nat) : (draw^[n] w).depth = w.depth := by
  induction n with
  | zero => rfl
  | succ n ih => rw [Function.iterate_succ_apply', draw, depth_drawIn, ih]

theorem good_iterate (w : Widget) (n : Nat) : (draw^[n] w).Good n := by
  induction n with
  | zero => exact good_zero w
  | succ n ih =>
    rw [Function.iterate_succ_apply']
    exact good_drawIn _ _ ih

theorem iterate_eq_settled (hdepth : w.depth ≤ n + 1) : draw^[n + 1] w = w.settled := by
  have hlast : (draw^[n] w).depth ≤ n + 1 := (depth_iterate w n).trans_le hdepth
  rw [Function.iterate_succ_apply', draw, drawIn_eq_settledIn _ _ (good_iterate w n) hlast,
    ← settled_iterate w n, settled]

/-! ## A box in a box in a box -/

/-- Boxes around a widget of height 1, when the heights of the inner `k` are right. -/
def nested (k : Nat) : Nat → Widget
  | 0 => leaf 0 ⟨⟨1, 1⟩, 0, 0⟩
  | d + 1 => layout .vbox 0 ⟨⟨0, if d < k then 1 else 0⟩, 0, 0⟩ [nested k d]

theorem nested_frame (k d : Nat) : (nested k d).frame.x = 0 ∧ (nested k d).frame.y = 0 ∧
    (nested k d).size.h = if d ≤ k then 1 else 0 := by
  cases d with
  | zero => exact ⟨rfl, rfl, rfl⟩
  | succ d => exact ⟨rfl, rfl, rfl⟩

theorem depth_nested (k d : Nat) : (nested k d).depth = d := by
  induction d with
  | zero => rfl
  | succ d ih => rw [nested, depth, depths, ih, depths, Nat.max_zero]

theorem draw_nested (k d : Nat) : (nested k d).draw = nested (k + 1) d := by
  induction d with
  | zero => rfl
  | succ d ih =>
    obtain ⟨hx, hy, hh⟩ := nested_frame k d
    have hframe : (⟨(nested k d).size, 0, 0⟩ : Frame) = (nested k d).frame := by
      calc (⟨(nested k d).size, 0, 0⟩ : Frame)
          = ⟨(nested k d).size, (nested k d).frame.x, (nested k d).frame.y⟩ := by rw [hx, hy]
        _ = (nested k d).frame := rfl
    have hdraw : (nested k d).drawIn ⟨(nested k d).size, 0, 0⟩ = nested (k + 1) d := by
      rw [hframe]
      exact ih
    simp only [draw, nested, frame, drawIn, drawAll, arrange, vboxLoop, List.map_cons, List.map_nil,
      hdraw, hh, Nat.lt_succ_iff, add_zero, zero_add, sub_zero]

theorem iterate_nested (n d : Nat) : draw^[n] (nested 0 d) = nested n d := by
  induction n with
  | zero => rfl
  | succ n ih => rw [Function.iterate_succ_apply', ih, draw_nested]

theorem iterate_nested_ne (n : Nat) : draw^[n] (nested 0 (n + 1)) ≠ (nested 0 (n + 1)).settled := by
  intro heq
  have hdepth : (nested 0 (n + 1)).depth ≤ n + 1 := (depth_nested 0 (n + 1)).le
  rw [← iterate_eq_settled hdepth, iterate_nested, iterate_nested] at heq
  have hsize := congrArg (fun w => w.size.h) heq
  simp only [(nested_frame _ _).2.2] at hsize
  simp at hsize

/-- As many renderings as a tree is deep put every widget where it is meant to be, whatever the
sizes and places of the boxes have been before; for every depth there is a tree for which one
rendering less does not. -/
theorem draws_settle :
    (∀ w n, w.depth ≤ n + 1 → draw^[n + 1] w = w.settled) ∧
      ∀ n, ∃ w : Widget, w.depth = n + 1 ∧ draw^[n] w ≠ w.settled := by
  refine ⟨fun w n hdepth => iterate_eq_settled hdepth, fun n => ?_⟩
  exact ⟨nested 0 (n + 1), depth_nested 0 (n + 1), iterate_nested_ne n⟩

/-- Two rows of buttons, which lie on each other in the first frame. -/
def rows : Widget :=
  let row := layout .hbox 6 ⟨⟨0, 0⟩, 0, 0⟩ [leaf 1 ⟨⟨40, 28⟩, 0, 0⟩, leaf 2 ⟨⟨40, 28⟩, 0, 0⟩]
  layout .vbox 8 ⟨⟨0, 0⟩, 8, 8⟩ [row, row]

theorem draws_settle_rows : draw^[2] rows = rows.settled := draws_settle.1 rows 1 (by decide)

end Widget

end Kyuzen.Ui.Layout
