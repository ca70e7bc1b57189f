import Mathlib.Algebra.Order.BigOperators.Group.List
import Mathlib.Data.List.Find
import Kyuzen.Ui.Layout

/-!
# A click reaches what is drawn on top

The hit tests of `Window::run`. The pieces of a window are drawn one after another: the bars, the
widgets of the root, the popup, the dialog and the toast. After any calls, and whatever the program
has done to its widgets, a click in the window that has been rendered reaches the piece that was
drawn last of those around the point, and that it may reach at all (`click_hits_top`): a dialog
takes the clicks from all but the toast, and a popup those of the root.

A `Tab` cuts what its panel draws to the area below the strip, but `pick` knows no scissor: a widget
of the panel takes clicks beside the tab too, where nothing of it is seen. At all other points the
click reaches the piece that is seen on top.
-/

namespace Kyuzen.Ui.Layout

variable {α : Type} {l l' : List (α × Frame)} {mx my : Int} {f g : Frame} {fs : List Frame}
  {w c : Widget} {cs : List Widget} {box : Box} {spacing : Int} {szs : List Size}
  {scissors : Nat → Bool} {clip : Option Frame}

/-! ## The last one drawn -/

def Frame.contains (f : Frame) (mx my : Int) : Bool :=
  mx ≥ f.x && mx < f.x + f.w && my ≥ f.y && my < f.y + f.h

/-- The last of the pieces at a point. -/
def top (mx my : Int) (l : List (α × Frame)) : Option α :=
  (l.reverse.find? fun p => p.2.contains mx my).map Prod.fst

@[simp] theorem top_nil : top mx my ([] : List (α × Frame)) = none := rfl

theorem top_append : top mx my (l ++ l') = (top mx my l').or (top mx my l) := by
  unfold top
  rw [List.reverse_append, List.find?_append]
  cases l'.reverse.find? fun p => p.2.contains mx my <;> rfl

theorem top_singleton (p : α × Frame) :
    top mx my [p] = if p.2.contains mx my then some p.1 else none := by
  unfold top
  rw [List.reverse_singleton, List.find?_singleton]
  split_ifs <;> rfl

theorem top_eq_none (h : ∀ p ∈ l, p.2.contains mx my = false) : top mx my l = none := by
  unfold top
  rw [List.find?_eq_none.mpr, Option.map_none]
  intro p hp
  rw [h p (List.mem_reverse.mp hp)]
  exact Bool.false_ne_true

theorem top_map {β : Type} (g : α → β) :
    top mx my (l.map fun p => (g p.1, p.2)) = (top mx my l).map g := by
  unfold top
  rw [← List.map_reverse, List.find?_map, Option.map_map, Option.map_map]
  rfl

theorem top_filter {β : Type} {g : α → β} {ok : β → Bool} {b : Bool} (h : ∀ a, ok (g a) = b) :
    top mx my ((l.map fun p => (g p.1, p.2)).filter fun p => ok p.1) =
      if b then (top mx my l).map g else none := by
  rw [List.filter_map]
  cases b with
  | false =>
    rw [List.filter_eq_nil_iff.mpr]
    · rfl
    · intro p _
      rw [Function.comp_apply, h]
      exact Bool.false_ne_true
  | true =>
    rw [List.filter_eq_self.mpr fun p _ => h p.1, top_map, if_pos rfl]

theorem not_contains_of_lt (h : my < f.y) : f.contains mx my = false := by
  unfold Frame.contains
  rw [decide_eq_false (not_le.mpr h), Bool.and_false, Bool.false_and]

/-- A piece, and the scissor of the painter when it is drawn. -/
structure Piece (α : Type) where
  id : α
  frame : Frame
  clip : Option Frame

def Piece.plain (p : Piece α) : α × Frame := (p.id, p.frame)

def Piece.map {β : Type} (g : α → β) (p : Piece α) : Piece β := ⟨g p.id, p.frame, p.clip⟩

def Piece.shows (mx my : Int) (p : Piece α) : Bool :=
  p.frame.contains mx my && p.clip.all fun c => c.contains mx my

/-- The piece that is seen at a point. -/
def topShown (mx my : Int) (l : List (Piece α)) : Option α :=
  (l.reverse.find? (Piece.shows mx my)).map Piece.id

theorem topShown_eq {l : List (Piece α)}
    (h : ∀ p ∈ l, p.frame.contains mx my = true → p.shows mx my = true) :
    topShown mx my l = top mx my (l.map Piece.plain) := by
  have heq : ∀ p ∈ l.reverse, p.shows mx my = p.frame.contains mx my := by
    intro p hp
    cases hf : p.frame.contains mx my with
    | false => rw [Piece.shows, hf, Bool.false_and]
    | true => exact h p (List.mem_reverse.mp hp) hf
  unfold topShown top
  rw [← List.map_reverse, List.find?_map, Option.map_map, List.find?_congr heq]
  rfl

namespace Widget

/-! ## Widgets -/

mutual

def pieces : Widget → List (Nat × Frame)
  | leaf id f => [(id, f)]
  | layout _ _ _ cs => piecesAll cs
  | tab id f panel => (id, ⟨⟨f.w, 26⟩, f.x, f.y⟩) :: pieces panel

def piecesAll : List Widget → List (Nat × Frame)
  | [] => []
  | c :: cs => pieces c ++ piecesAll cs

end

mutual

/-- The pieces with their scissors, and the scissor after them. `scissors` tells the widgets that
set a scissor of their own around what they draw (`TextEdit`, `ScrollView`, `ListView`, `Table` and
`TreeView`); these leave none behind them, and a `Tab` leaves none either. -/
def paint (scissors : Nat → Bool) (clip : Option Frame) : Widget → List (Piece Nat) × Option Frame
  | leaf id f => if scissors id then ([⟨id, f, some f⟩], none) else ([⟨id, f, clip⟩], clip)
  | layout _ _ _ cs => paintAll scissors clip cs
  | tab id f panel =>
    let area : Frame := ⟨⟨f.w, f.h - 26⟩, f.x, f.y + 26⟩
    (⟨id, ⟨⟨f.w, 26⟩, f.x, f.y⟩, clip⟩ :: (paint scissors (some area) panel).1, none)

def paintAll (scissors : Nat → Bool) (clip : Option Frame) :
    List Widget → List (Piece Nat) × Option Frame
  | [] => ([], clip)
  | c :: cs =>
    let r := paint scissors clip c
    let s := paintAll scissors r.2 cs
    (r.1 ++ s.1, s.2)

end

mutual

theorem paint_plain (clip : Option Frame) (w : Widget) :
    (w.paint scissors clip).1.map Piece.plain = w.pieces := by
  match w with
  | leaf id _ =>
    rw [paint, pieces]
    cases scissors id <;> rfl
  | layout _ _ _ cs => exact paintAll_plain clip cs
  | tab _ _ panel =>
    rw [paint, pieces, List.map_cons, paint_plain _ panel]
    rfl

theorem paintAll_plain (clip : Option Frame) (cs : List Widget) :
    (paintAll scissors clip cs).1.map Piece.plain = piecesAll cs := by
  match cs with
  | [] => rfl
  | c :: cs =>
    rw [paintAll, piecesAll, List.map_append, paint_plain _ c, paintAll_plain _ cs]

end

mutual

/-- What is drawn after the root is drawn without a scissor. -/
theorem paint_snd (w : Widget) : (w.paint scissors none).2 = none := by
  match w with
  | leaf id _ =>
    rw [paint]
    cases scissors id <;> rfl
  | layout _ _ _ cs => exact paintAll_snd cs
  | tab _ _ _ => rw [paint]

theorem paintAll_snd (cs : List Widget) : (paintAll scissors none cs).2 = none := by
  match cs with
  | [] => rfl
  | c :: cs =>
    rw [paintAll]
    change (paintAll scissors (c.paint scissors none).2 cs).2 = none
    rw [paint_snd c, paintAll_snd cs]

end

mutual

def pick (mx my : Int) : Widget → Option Nat
  | leaf id f => if f.contains mx my then some id else none
  | layout _ _ _ cs => pickAll mx my cs
  | tab id f panel =>
    if my ≥ f.y ∧ my < f.y + 26 then
      if mx ≥ f.x ∧ mx < f.x + f.w then some id else none
    else pick mx my panel

/-- The loop of `Layout::pick`, from the last child to the first. -/
def pickAll (mx my : Int) : List Widget → Option Nat
  | [] => none
  | c :: cs => (pickAll mx my cs).or (pick mx my c)

end

mutual

/-- No space between the children of a box and no height of a child is negative. -/
def Proper : Widget → Prop
  | leaf _ _ => True
  | layout _ spacing _ cs => 0 ≤ spacing ∧ ProperAll cs
  | tab _ _ panel => Proper panel

def ProperAll : List Widget → Prop
  | [] => True
  | c :: cs => 0 ≤ c.size.h ∧ Proper c ∧ ProperAll cs

end

theorem properAll_heights (h : ProperAll cs) : ∀ sz ∈ cs.map size, 0 ≤ sz.h := by
  induction cs with
  | nil => exact fun _ hsz => absurd hsz List.not_mem_nil
  | cons c cs ih =>
    intro sz hsz
    rcases List.mem_cons.mp hsz with rfl | hsz
    · exact h.1
    · exact ih h.2.2 sz hsz

theorem le_foldl_max (l : List Int) (m : Int) : m ≤ l.foldl max m := by
  induction l generalizing m with
  | nil => exact le_rfl
  | cons a l ih => exact (le_max_left m a).trans (ih _)

theorem boxSize_nonneg {width : Int} (hs : 0 ≤ spacing) (h : ∀ sz ∈ szs, 0 ≤ sz.h) :
    0 ≤ (boxSize box spacing width szs).h := by
  cases box with
  | vbox =>
    apply List.sum_nonneg
    intro v hv
    obtain ⟨sz, hsz, rfl⟩ := List.mem_map.mp hv
    exact add_nonneg (h sz hsz) hs
  | hbox => exact le_foldl_max _ 0

theorem height_drawIn_nonneg (hc : c.Proper) (hf : 0 ≤ f.h) : 0 ≤ (c.drawIn f).size.h := by
  cases c with
  | leaf _ _ => exact hf
  | layout box spacing _ cs =>
    have hsize : ((layout box spacing f cs).drawIn f).size =
        boxSize box spacing f.w (cs.map size) := arrange_toSize
    exact hsize.symm ▸ boxSize_nonneg hc.1 (properAll_heights hc.2)
  | tab _ _ _ => exact hf

mutual

theorem proper_drawIn (f : Frame) (w : Widget) (h : w.Proper) : (w.drawIn f).Proper := by
  match w with
  | leaf _ _ => trivial
  | layout _ _ _ cs => exact ⟨h.1, properAll_drawAll _ cs arrange_sizes h.2⟩
  | tab _ _ panel => exact proper_drawIn _ panel h

theorem properAll_drawAll (fs : List Frame) (cs : List Widget)
    (hfs : fs.map Frame.toSize = cs.map size) (h : ProperAll cs) : ProperAll (drawAll fs cs) := by
  match fs, cs with
  | _, [] =>
    rw [drawAll]
    trivial
  | [], _ :: _ => cases hfs
  | f :: fs, c :: cs =>
    obtain ⟨hf, hfs⟩ := List.cons_eq_cons.mp hfs
    obtain ⟨hh, hc, hcs⟩ := h
    have hheight : 0 ≤ f.h := hh.trans_eq (congrArg Size.h hf).symm
    rw [drawAll]
    exact ⟨height_drawIn_nonneg hc hheight, proper_drawIn f c hc, properAll_drawAll fs cs hfs hcs⟩

end

/-! ## Nothing is drawn above a widget -/

theorem vboxLoop_below {x cy : Int} (hs : 0 ≤ spacing) (h : ∀ sz ∈ szs, 0 ≤ sz.h) :
    ∀ f ∈ (vboxLoop x spacing cy szs).1, cy ≤ f.y := by
  induction szs generalizing cy with
  | nil => exact fun _ hf => absurd hf List.not_mem_nil
  | cons sz szs ih =>
    intro f hf
    rcases List.mem_cons.mp hf with rfl | hf
    · exact le_rfl
    · have hsz := add_nonneg (h sz List.mem_cons_self) hs
      exact (le_add_of_nonneg_right hsz).trans
        (ih (fun sz' hsz' => h sz' (List.mem_cons_of_mem _ hsz')) f hf)

theorem hboxLoop_below {y cx mh : Int} : ∀ f ∈ (hboxLoop y spacing cx mh szs).1, y ≤ f.y := by
  induction szs generalizing cx mh with
  | nil => exact fun _ hf => absurd hf List.not_mem_nil
  | cons sz szs ih =>
    intro f hf
    rcases List.mem_cons.mp hf with rfl | hf
    · exact le_rfl
    · exact ih f hf

theorem arrange_below (hs : 0 ≤ spacing) (h : ∀ sz ∈ szs, 0 ≤ sz.h) :
    ∀ g ∈ (arrange box spacing f szs).2, f.y ≤ g.y := by
  cases box with
  | vbox => exact vboxLoop_below hs h
  | hbox => exact hboxLoop_below

mutual

theorem pieces_below (f : Frame) (w : Widget) (h : w.Proper) :
    ∀ p ∈ (w.drawIn f).pieces, f.y ≤ p.2.y := by
  match w with
  | leaf _ _ =>
    intro p hp
    rw [List.mem_singleton.mp hp]
  | layout _ _ _ cs =>
    intro p hp
    obtain ⟨g, hg, hle⟩ := piecesAll_below _ cs arrange_sizes h.2 p hp
    exact (arrange_below h.1 (properAll_heights h.2) g hg).trans hle
  | tab _ _ panel =>
    intro p hp
    rcases List.mem_cons.mp hp with rfl | hp
    · exact le_rfl
    · exact (le_add_of_nonneg_right (by decide)).trans (pieces_below _ panel h p hp)

theorem piecesAll_below (fs : List Frame) (cs : List Widget)
    (hfs : fs.map Frame.toSize = cs.map size) (h : ProperAll cs) :
    ∀ p ∈ piecesAll (drawAll fs cs), ∃ f ∈ fs, f.y ≤ p.2.y := by
  match fs, cs with
  | _, [] =>
    rw [drawAll]
    exact fun _ hp => absurd hp List.not_mem_nil
  | [], _ :: _ => cases hfs
  | f :: fs, c :: cs =>
    obtain ⟨-, hfs⟩ := List.cons_eq_cons.mp hfs
    rw [drawAll, piecesAll]
    intro p hp
    rcases List.mem_append.mp hp with hp | hp
    · exact ⟨f, List.mem_cons_self, pieces_below f c h.2.1 p hp⟩
    · obtain ⟨g, hg, hle⟩ := piecesAll_below fs cs hfs h.2.2 p hp
      exact ⟨g, List.mem_cons_of_mem _ hg, hle⟩

end

/-! ## `pick` -/

mutual

/-- `pick` finds the piece that was drawn last. -/
theorem pick_drawIn (f : Frame) (w : Widget) (h : w.Proper) :
    (w.drawIn f).pick mx my = top mx my (w.drawIn f).pieces := by
  match w with
  | leaf _ _ =>
    simp only [drawIn, pick, pieces, top_singleton]
  | layout _ _ _ cs => exact pickAll_drawAll _ cs arrange_sizes h.2
  | tab id _ panel =>
    simp only [drawIn, pick, pieces]
    rw [← List.singleton_append, top_append, top_singleton]
    by_cases hstrip : my ≥ f.y ∧ my < f.y + 26
    · have hnone : top mx my (drawIn ⟨⟨f.w, f.h - 26⟩, f.x, f.y + 26⟩ panel).pieces = none := by
        apply top_eq_none
        intro p hp
        exact not_contains_of_lt (hstrip.2.trans_le (pieces_below _ panel h p hp))
      rw [if_pos hstrip, hnone, Option.none_or]
      simp [Frame.contains, hstrip]
    · have hnot : Frame.contains ⟨⟨f.w, 26⟩, f.x, f.y⟩ mx my = false := by
        simp only [Frame.contains, ge_iff_le, Bool.and_assoc, Bool.and_eq_false_imp,
          decide_eq_true_eq, decide_eq_false_iff_not]
        intro _ _ hy hlt
        exact hstrip ⟨hy, hlt⟩
      rw [if_neg hstrip, hnot, if_neg Bool.false_ne_true, Option.or_none]
      exact pick_drawIn _ panel h

theorem pickAll_drawAll (fs : List Frame) (cs : List Widget)
    (hfs : fs.map Frame.toSize = cs.map size) (h : ProperAll cs) :
    pickAll mx my (drawAll fs cs) = top mx my (piecesAll (drawAll fs cs)) := by
  match fs, cs with
  | _, [] =>
    rw [drawAll]
    rfl
  | [], _ :: _ => cases hfs
  | f :: fs, c :: cs =>
    obtain ⟨-, hfs⟩ := List.cons_eq_cons.mp hfs
    rw [drawAll, pickAll, piecesAll, top_append, pick_drawIn f c h.2.1,
      pickAll_drawAll fs cs hfs h.2.2]

end

end Widget

/-! ## The window -/

/-- What a click reaches. -/
inductive Target
  | bar (id : Nat)
  | widget (id : Nat)
  | popup (id : Nat)
  | dialog (id : Nat)
  | notify
  deriving DecidableEq

structure Window where
  width : Int
  height : Int
  bars : List (Nat × Frame)
  barH : Int
  root : Option Widget
  popup : Option (Nat × Frame)
  dialog : Option (Nat × Frame)
  notify : Bool

namespace Widget

def setFrame (f : Frame) : Widget → Widget
  | leaf id _ => leaf id f
  | layout box spacing _ cs => layout box spacing f cs
  | tab id _ panel => tab id f panel

def setY (y : Int) (w : Widget) : Widget := w.setFrame ⟨w.size, w.frame.x, y⟩

/-- `Layout::add`. -/
def add : Widget → Widget → Widget
  | layout box spacing f cs, c => layout box spacing f (if cs.length < 16 then cs ++ [c] else cs)
  | w, _ => w

end Widget

namespace Window

def create (width height : Int) : Window := ⟨width, height, [], 0, none, none, none, false⟩

def addBar (win : Window) (id : Nat) (sz : Size) : Window :=
  if win.bars.length ≥ 4 then win
  else
    let barH := win.barH + sz.h
    { win with
      bars := win.bars ++ [(id, ⟨sz, 0, win.barH⟩)]
      barH := barH
      root := win.root.map (Widget.setY (8 + barH)) }

def add (win : Window) (c : Widget) : Window :=
  { win with root := (win.root.getD (.layout .vbox 8 ⟨⟨0, 0⟩, 8, 8 + win.barH⟩ [])).add c }

def openPopup (win : Window) (id : Nat) (sz : Size) (ox oy : Int) : Window :=
  { win with popup := some (id, ⟨sz, ox, oy⟩) }

/-- The dialog is in the middle of the window, 20 pixels higher. -/
def openDialog (win : Window) (id : Nat) (sz : Size) : Window :=
  let x := (win.width - sz.w).tdiv 2
  let y := (win.height - sz.h).tdiv 2 - 20
  { win with dialog := some (id, ⟨sz, if x < 0 then 0 else x, if y < 0 then 0 else y⟩) }

def render (win : Window) : Window := { win with root := win.root.map Widget.draw }

/-- The calls, and what the program does to the widgets of the root. -/
inductive Op
  | addBar (id : Nat) (sz : Size)
  | add (c : Widget)
  | openPopup (id : Nat) (sz : Size) (ox oy : Int)
  | closePopup
  | openDialog (id : Nat) (sz : Size)
  | closeDialog
  | notify (on : Bool)
  | render
  | program (r : Widget)

def step (win : Window) : Op → Window
  | .addBar id sz => win.addBar id sz
  | .add c => win.add c
  | .openPopup id sz ox oy => win.openPopup id sz ox oy
  | .closePopup => { win with popup := none }
  | .openDialog id sz => win.openDialog id sz
  | .closeDialog => { win with dialog := none }
  | .notify on => { win with notify := on }
  | .render => win.render
  | .program r =>
    { win with root := win.root.map fun old => r.setFrame ⟨r.size, old.frame.x, old.frame.y⟩ }

/-! ## Clicks -/

def notifyHit (win : Window) (mx my : Int) : Bool :=
  win.notify && (mx ≥ win.width - 218 && mx < win.width - 8 && my ≥ 8 && my < 36)

def pickBar (win : Window) (mx my : Int) : Option Nat :=
  (win.bars.reverse.find? fun b => b.2.contains mx my).map Prod.fst

/-- What the left button reaches in `Window::run`. -/
def click (win : Window) (mx my : Int) : Option Target :=
  if win.notifyHit mx my then some .notify
  else
    match win.dialog with
    | some d => if d.2.contains mx my then some (.dialog d.1) else none
    | none =>
      match win.popup with
      | some p => if p.2.contains mx my then some (.popup p.1) else (win.pickBar mx my).map .bar
      | none =>
        match win.pickBar mx my with
        | some b => some (.bar b)
        | none => (win.root.bind (Widget.pick mx my)).map .widget

def notifyFrame (win : Window) : Frame := ⟨⟨210, 28⟩, win.width - 218, 8⟩

/-- What `render` draws, the first piece first. -/
def drawn (win : Window) : List (Target × Frame) :=
  win.bars.map (fun p => (.bar p.1, p.2)) ++
    (win.root.toList.flatMap Widget.pieces).map (fun p => (.widget p.1, p.2)) ++
    win.popup.toList.map (fun p => (.popup p.1, p.2)) ++
    win.dialog.toList.map (fun p => (.dialog p.1, p.2)) ++
    if win.notify then [(.notify, win.notifyFrame)] else []

/-- What the drawing of the root leaves: its pieces, and the scissor. -/
def paintRoot (scissors : Nat → Bool) (win : Window) : List (Piece Nat) × Option Frame :=
  match win.root with
  | none => ([], none)
  | some r => r.paint scissors none

/-- `drawn`, with the scissors. -/
def painted (scissors : Nat → Bool) (win : Window) : List (Piece Target) :=
  let r := win.paintRoot scissors
  win.bars.map (fun p => ⟨.bar p.1, p.2, none⟩) ++
    r.1.map (Piece.map .widget) ++
    win.popup.toList.map (fun p => ⟨.popup p.1, p.2, r.2⟩) ++
    win.dialog.toList.map (fun p => ⟨.dialog p.1, p.2, r.2⟩) ++
    if win.notify then [⟨.notify, win.notifyFrame, r.2⟩] else []

/-- What a click may reach at all. -/
def allows (win : Window) : Target → Bool
  | .notify => true
  | .dialog _ => true
  | .popup _ => win.dialog.isNone
  | .bar _ => win.dialog.isNone
  | .widget _ => win.dialog.isNone && win.popup.isNone

/-- The bars are on each other, and the root is below them. -/
structure Stacked (win : Window) : Prop where
  bars : ∀ b ∈ win.bars, b.2.y + b.2.h ≤ win.barH
  root : ∀ r ∈ win.root, r.frame.y = 8 + win.barH ∧ r.Proper

/-- The heights of what the program adds are not negative. -/
def Op.Proper : Op → Prop
  | .addBar _ sz => 0 ≤ sz.h
  | .add c => 0 ≤ c.size.h ∧ c.Proper
  | .program r => r.Proper
  | _ => True

/-! ## The place of the root -/

variable {win : Window} {op : Op}

theorem frame_setFrame (f : Frame) (w : Widget) : (w.setFrame f).frame = f := by
  cases w <;> rfl

theorem proper_setFrame (f : Frame) (h : w.Proper) : (w.setFrame f).Proper := by
  cases w <;> exact h

theorem frame_draw_y (w : Widget) : w.draw.frame.y = w.frame.y := by
  cases w with
  | leaf _ _ => rfl
  | layout box _ _ _ => cases box <;> rfl
  | tab _ _ _ => rfl

theorem frame_add (w c : Widget) : (w.add c).frame = w.frame := by
  cases w <;> rfl

theorem properAll_snoc (hcs : Widget.ProperAll cs) (hh : 0 ≤ c.size.h) (hc : c.Proper) :
    Widget.ProperAll (cs ++ [c]) := by
  induction cs with
  | nil => exact ⟨hh, hc, trivial⟩
  | cons c' cs ih => exact ⟨hcs.1, hcs.2.1, ih hcs.2.2⟩

theorem proper_add (hw : w.Proper) (hh : 0 ≤ c.size.h) (hc : c.Proper) : (w.add c).Proper := by
  cases w with
  | leaf _ _ => trivial
  | layout box spacing f cs =>
    refine ⟨hw.1, ?_⟩
    split_ifs
    · exact properAll_snoc hw.2 hh hc
    · exact hw.2
  | tab _ _ _ => exact hw

theorem Stacked.addBar {id : Nat} {sz : Size} (h : win.Stacked) (hsz : 0 ≤ sz.h) :
    (win.addBar id sz).Stacked := by
  unfold Window.addBar
  split_ifs
  · exact h
  refine ⟨?_, ?_⟩
  · intro b hb
    rcases List.mem_append.mp hb with hb | hb
    · exact (h.bars b hb).trans (le_add_of_nonneg_right hsz)
    · rw [List.mem_singleton.mp hb]
  · intro r hr
    obtain ⟨old, hold, rfl⟩ := Option.map_eq_some_iff.mp hr
    exact ⟨by rw [Widget.setY, frame_setFrame], proper_setFrame _ (h.root old hold).2⟩

theorem Stacked.add (h : win.Stacked) (hh : 0 ≤ c.size.h) (hc : c.Proper) :
    (win.add c).Stacked := by
  refine ⟨h.bars, ?_⟩
  intro r hr
  obtain rfl := Option.some.inj hr
  rw [frame_add]
  cases hroot : win.root with
  | none => exact ⟨rfl, proper_add ⟨by decide, trivial⟩ hh hc⟩
  | some r => exact ⟨(h.root r hroot).1, proper_add (h.root r hroot).2 hh hc⟩

theorem Stacked.step (h : win.Stacked) (hop : op.Proper) : (win.step op).Stacked := by
  cases op with
  | addBar id sz => exact h.addBar hop
  | add c => exact h.add hop.1 hop.2
  | render =>
    refine ⟨h.bars, ?_⟩
    intro r hr
    obtain ⟨old, hold, rfl⟩ := Option.map_eq_some_iff.mp hr
    obtain ⟨hy, hproper⟩ := h.root old hold
    exact ⟨(frame_draw_y old).trans hy, Widget.proper_drawIn _ _ hproper⟩
  | program r =>
    refine ⟨h.bars, ?_⟩
    intro r' hr
    obtain ⟨old, hold, rfl⟩ := Option.map_eq_some_iff.mp hr
    exact ⟨by rw [frame_setFrame]; exact (h.root old hold).1, proper_setFrame _ hop⟩
  | openPopup id sz ox oy => exact ⟨h.bars, h.root⟩
  | closePopup => exact ⟨h.bars, h.root⟩
  | openDialog id sz => exact ⟨h.bars, h.root⟩
  | closeDialog => exact ⟨h.bars, h.root⟩
  | notify on => exact ⟨h.bars, h.root⟩

theorem Stacked.run {ops : List Op} (h : win.Stacked) (hops : ∀ op ∈ ops, op.Proper) :
    (ops.foldl Window.step win).Stacked := by
  induction ops generalizing win with
  | nil => exact h
  | cons op ops ih =>
    exact ih (h.step (hops op List.mem_cons_self))
      fun op' hop' => hops op' (List.mem_cons_of_mem _ hop')

theorem stacked_create (width height : Int) : (create width height).Stacked where
  bars _ hb := absurd hb List.not_mem_nil
  root _ hr := absurd hr (Option.not_mem_none _)

/-! ## The target of a click -/

theorem notifyHit_eq (win : Window) (mx my : Int) :
    win.notifyHit mx my = (win.notify && win.notifyFrame.contains mx my) := by
  have hw : win.width - 218 + 210 = win.width - 8 := by ring
  simp only [notifyHit, notifyFrame, Frame.contains, hw]
  rfl

theorem pickBar_eq (win : Window) (mx my : Int) : win.pickBar mx my = top mx my win.bars := rfl

/-- What is drawn of the root, and `pick`. -/
theorem root_pick (h : win.Stacked) :
    win.render.root.bind (Widget.pick mx my) =
      top mx my (win.render.root.toList.flatMap Widget.pieces) := by
  cases hroot : win.root with
  | none => simp [render, hroot, top]
  | some r =>
    simp [render, hroot, Widget.draw, Widget.pick_drawIn _ _ (h.root r hroot).2]

/-- No point is in a bar and in the root. -/
theorem bars_or_root (h : win.Stacked) :
    top mx my win.bars = none ∨
      top mx my (win.render.root.toList.flatMap Widget.pieces) = none := by
  by_cases hy : my < 8 + win.barH
  · right
    apply top_eq_none
    intro p hp
    cases hroot : win.root with
    | none => simp [render, hroot] at hp
    | some r =>
      obtain ⟨hframe, hproper⟩ := h.root r hroot
      simp only [render, hroot, Option.map_some, Option.toList_some, List.flatMap_singleton] at hp
      have hbelow := Widget.pieces_below _ _ hproper p hp
      exact not_contains_of_lt (hy.trans_le (hframe.symm.trans_le hbelow))
  · left
    apply top_eq_none
    intro b hb
    have hbar := h.bars b hb
    simp only [Frame.contains, Bool.and_eq_false_iff, decide_eq_false_iff_not]
    right
    omega

theorem top_notify (win : Window) (mx my : Int) :
    top mx my ((if win.notify then [(Target.notify, win.notifyFrame)] else []).filter
      fun p => win.allows p.1) = if win.notifyHit mx my then some Target.notify else none := by
  rw [notifyHit_eq]
  cases win.notify with
  | false => rfl
  | true => exact top_singleton _

/-- The pieces that a click may reach, in the order of the hit tests. -/
theorem top_drawn (win : Window) (mx my : Int) :
    top mx my (win.drawn.filter fun p => win.allows p.1) =
      (if win.notifyHit mx my then some Target.notify else none).or
        (((top mx my win.dialog.toList).map .dialog).or
          ((if win.dialog.isNone then (top mx my win.popup.toList).map .popup else none).or
            ((if win.dialog.isNone && win.popup.isNone then
                (top mx my (win.root.toList.flatMap Widget.pieces)).map .widget else none).or
              (if win.dialog.isNone then (top mx my win.bars).map .bar else none)))) := by
  unfold drawn
  rw [List.filter_append, List.filter_append, List.filter_append, List.filter_append, top_append,
    top_append, top_append, top_append, top_notify,
    top_filter (fun _ => rfl : ∀ a, win.allows (.bar a) = _),
    top_filter (fun _ => rfl : ∀ a, win.allows (.widget a) = _),
    top_filter (fun _ => rfl : ∀ a, win.allows (.popup a) = _),
    top_filter (fun _ => rfl : ∀ a, win.allows (.dialog a) = _)]
  rfl

theorem click_render (h : win.Stacked) (mx my : Int) :
    win.render.click mx my =
      top mx my (win.render.drawn.filter fun p => win.render.allows p.1) := by
  rw [top_drawn, click, root_pick h, pickBar_eq]
  have hapart : top mx my win.render.bars = none ∨
      top mx my (win.render.root.toList.flatMap Widget.pieces) = none := bars_or_root h
  cases win.render.notifyHit mx my with
  | true => rfl
  | false =>
    cases win.render.dialog with
    | some d =>
      cases hd : d.2.contains mx my <;> simp [top_singleton, hd]
    | none =>
      cases win.render.popup with
      | some p =>
        cases hp : p.2.contains mx my <;> simp [top_singleton, hp]
      | none =>
        rcases hapart with hbars | hroot
        · simp [hbars]
        · cases top mx my win.render.bars <;> simp [hroot]

/-! ## What is seen -/

theorem paintRoot_plain (scissors : Nat → Bool) (win : Window) :
    (win.paintRoot scissors).1.map Piece.plain = win.root.toList.flatMap Widget.pieces := by
  unfold paintRoot
  cases win.root with
  | none => rfl
  | some r =>
    rw [Option.toList_some, List.flatMap_singleton]
    exact Widget.paint_plain none r

theorem paintRoot_snd (scissors : Nat → Bool) (win : Window) : (win.paintRoot scissors).2 = none := by
  unfold paintRoot
  cases win.root with
  | none => rfl
  | some r => exact Widget.paint_snd r

theorem painted_plain (scissors : Nat → Bool) (win : Window) :
    (win.painted scissors).map Piece.plain = win.drawn := by
  have hroot : ((win.paintRoot scissors).1.map (Piece.map Target.widget)).map Piece.plain =
      (win.root.toList.flatMap Widget.pieces).map fun p => (.widget p.1, p.2) := by
    rw [← paintRoot_plain scissors, List.map_map, List.map_map]
    rfl
  unfold painted drawn
  rw [List.map_append, List.map_append, List.map_append, List.map_append, hroot, List.map_map,
    List.map_map, List.map_map]
  cases win.notify <;> rfl

/-- Only a widget of the root can be cut off. -/
theorem shows_of_root
    (h : ∀ p ∈ (win.paintRoot scissors).1, p.frame.contains mx my = true → p.shows mx my = true) :
    ∀ p ∈ win.painted scissors, p.frame.contains mx my = true → p.shows mx my = true := by
  have hnone : ∀ p : Piece Target, p.clip = none →
      p.frame.contains mx my = true → p.shows mx my = true := by
    intro p hclip hp
    rw [Piece.shows, hp, hclip]
    rfl
  have hsnd := paintRoot_snd scissors win
  intro p hp
  simp only [painted, hsnd, List.mem_append, List.mem_map] at hp
  obtain (((⟨q, -, rfl⟩ | ⟨q, hq, rfl⟩) | ⟨q, -, rfl⟩) | ⟨q, -, rfl⟩) | hp := hp
  · exact hnone _ rfl
  · exact h q hq
  · exact hnone _ rfl
  · exact hnone _ rfl
  · split_ifs at hp
    · rw [List.mem_singleton.mp hp]
      exact hnone _ rfl
    · exact absurd hp List.not_mem_nil

/-- After any calls, a click in the window as it has been rendered reaches the piece that was drawn
last of those around this point, and that it may reach at all. This is the one that is seen on top,
where no widget of the root is cut off. -/
theorem click_hits_top (scissors : Nat → Bool) {width height : Int} {ops : List Op}
    (hops : ∀ op ∈ ops, op.Proper) (mx my : Int) :
    let win := (ops.foldl Window.step (create width height)).render
    win.click mx my = top mx my (win.drawn.filter fun p => win.allows p.1) ∧
      ((∀ p ∈ (win.paintRoot scissors).1,
          p.frame.contains mx my = true → p.shows mx my = true) →
        win.click mx my =
          topShown mx my ((win.painted scissors).filter fun p => win.allows p.id)) := by
  intro win
  have hclick : win.click mx my = top mx my (win.drawn.filter fun p => win.allows p.1) :=
    click_render ((stacked_create width height).run hops) mx my
  refine ⟨hclick, fun hroot => ?_⟩
  have hshows := shows_of_root hroot
  rw [topShown_eq fun p hp => hshows p (List.mem_of_mem_filter hp), hclick,
    ← painted_plain scissors, List.filter_map]
  rfl

/-- A menu bar, a tool bar and a button, with an open menu that lies on the button. -/
theorem click_hits_top_menu :
    let win := ([.addBar 0 ⟨300, 24⟩, .add (.leaf 5 ⟨⟨80, 28⟩, 0, 0⟩), .addBar 1 ⟨300, 28⟩,
      .openPopup 9 ⟨140, 44⟩ 0 24].foldl Window.step (create 300 200)).render
    (win.click 20 62 = top 20 62 (win.drawn.filter fun p => win.allows p.1) ∧
      ((∀ p ∈ (win.paintRoot fun _ => false).1,
          p.frame.contains 20 62 = true → p.shows 20 62 = true) →
        win.click 20 62 =
          topShown 20 62 ((win.painted fun _ => false).filter fun p => win.allows p.id))) ∧
      win.click 20 62 = some (.popup 9) := by
  refine ⟨click_hits_top (fun _ => false) ?_ 20 62, by decide⟩
  simp [Op.Proper, Widget.Proper, Widget.size, Widget.frame]

/-- A button that is wider than the tab takes a click where the tab has cut it off. -/
example :
    let button := Widget.layout .vbox 0 ⟨⟨0, 0⟩, 0, 0⟩ [.leaf 5 ⟨⟨160, 28⟩, 0, 0⟩]
    let win := ([.add (.tab 1 ⟨⟨100, 80⟩, 0, 0⟩ button)].foldl Window.step
      (create 300 200)).render
    win.click 120 50 = some (.widget 5) ∧
      topShown 120 50 ((win.painted fun _ => false).filter fun p => win.allows p.id) = none := by
  decide

end Window

end Kyuzen.Ui.Layout
