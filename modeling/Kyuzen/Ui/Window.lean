import Mathlib.Data.List.Basic
import Mathlib.Tactic.Basic

/-!
# The widgets that a window refers to

`Window` has five pointers to widgets: `hovered`, `focused`, `grabbed`, `popup` and `dialog`. The
bars, the menus, and the root with what is in it live as long as the window; dialogs are deleted
when they are closed and when another one is opened. Every use of a pointer goes through `touch`,
which gives `none` for a dialog that has been deleted.

The event loop is a list of what is still to be done. Where the loop calls the program (`Act.user`),
the program may make any calls before it returns. What the hit tests and the widgets answer is part
of a step (`Answers`).

`open_dialog` deletes the open dialog without a look at `hovered`, which `close_dialog` clears. No
pointer is left to a deleted widget if and only if the program never opens a dialog in place of one
that is hovered (`no_dangling`).
-/

namespace Kyuzen.Ui

/-- A widget that lives as long as the window, or a dialog. -/
inductive WidgetRef
  | part (i : Nat)
  | dialog (i : Nat)
  deriving DecidableEq

/-- The pointers of `Window`, the dialogs that have been deleted, and how many there have been. -/
structure Window where
  hovered : Option WidgetRef
  focused : Option WidgetRef
  grabbed : Option WidgetRef
  popup : Option WidgetRef
  dialog : Option Nat
  dragSrc : Option WidgetRef
  running : Bool
  deleted : List Nat
  created : Nat

/-- What is under the mouse: whether it is in the dialog and in the popup, the bar, and the widget
of the root. -/
structure Hit where
  dialog : Bool
  popup : Bool
  bar : Option Nat
  root : Option Nat

namespace Window

def Alive (w : Window) : WidgetRef → Prop
  | .part _ => True
  | .dialog d => d ∉ w.deleted

instance (w : Window) (r : WidgetRef) : Decidable (w.Alive r) :=
  match r with
  | .part _ => inferInstanceAs (Decidable True)
  | .dialog d => inferInstanceAs (Decidable (d ∉ w.deleted))

/-- The use of a pointer. -/
def touch (w : Window) (r : WidgetRef) : Option Unit := if w.Alive r then some () else none

/-- `if (r) r->...`. -/
def touchIf (w : Window) : Option WidgetRef → Option Unit
  | none => some ()
  | some r => w.touch r

/-! ## The functions of the window -/

def render (w : Window) : Option Window := do
  w.touchIf w.popup
  w.touchIf (w.dialog.map .dialog)
  some w

def openPopup (w : Window) (m : WidgetRef) : Option Window := do
  w.touchIf (if w.popup = some m then none else w.popup)
  let w := { w with popup := some m }
  w.touch m
  w.render

def closePopup (w : Window) : Option Window :=
  match w.popup with
  | none => some w
  | some p => do
    let w := if w.hovered = some p then { w with hovered := none } else w
    w.touch p
    some { w with popup := none }

/-- `delete`. -/
def deleteDialog (w : Window) (d : Nat) : Option Window := do
  w.touch (.dialog d)
  some { w with deleted := d :: w.deleted }

def openDialog (w : Window) (d : Nat) : Option Window := do
  let w ← match w.dialog with
    | some d' => if d' ≠ d then w.deleteDialog d' else some w
    | none => some w
  let w := { w with dialog := some d }
  w.touch (.dialog d)
  w.render

def closeDialog (w : Window) : Option Window := do
  let w := if w.hovered = w.dialog.map .dialog then { w with hovered := none } else w
  let w ← match w.dialog with
    | some d => w.deleteDialog d
    | none => some w
  let w := { w with dialog := none }
  w.render

/-- The widget that is to be hovered. -/
def hoverTarget (w : Window) (hit : Hit) : Option (Option WidgetRef) :=
  match w.dialog with
  | some d => do
    w.touch (.dialog d)
    some (if hit.dialog then some (.dialog d) else none)
  | none =>
    match w.popup with
    | some m => do
      w.touch m
      some (if hit.popup then some m else hit.bar.map .part)
    | none => some ((hit.bar <|> hit.root).map .part)

def trackHover (w : Window) (hit : Hit) : Option Window := do
  let n ← w.hoverTarget hit
  let w ← if n ≠ w.hovered then do
      w.touchIf w.hovered
      let w := { w with hovered := n }
      w.touchIf w.hovered
      some w
    else some w
  w.touchIf w.popup
  w.touchIf w.hovered
  some w

def setFocus (w : Window) (n : Option WidgetRef) : Option Window :=
  if n = w.focused then some w
  else do
    w.touchIf w.focused
    let w := { w with focused := n }
    w.touchIf w.focused
    some w

/-! ## The calls of the program -/

/-- `ui_dialog_show`; `open_dialog` of the dialog that is open; `close_dialog`; `open_popup` of a
menu; `close_popup`; and `notify`, which renders. -/
inductive Call
  | showDialog
  | reopenDialog
  | closeDialog
  | openPopup (menu : Nat)
  | closePopup
  | notify

def call (w : Window) : Call → Option Window
  | .showDialog => { w with created := w.created + 1 }.openDialog w.created
  | .reopenDialog =>
    match w.dialog with
    | some d => w.openDialog d
    | none => some w
  | .closeDialog => w.closeDialog
  | .openPopup menu => w.openPopup (.part menu)
  | .closePopup => w.closePopup
  | .notify => w.render

/-! ## The event loop -/

inductive Event
  | move
  | leftDown
  | leftUp
  | escape
  | key
  | scroll
  | winClose
  | other

/-- What a step finds: the event; the hit tests; whether the mouse is on the toast, on a button of
the dialog, on an item of the menu; whether the widget is a menu bar, draggable, focusable; the menu
of the title; and any other test. -/
structure Answers where
  event : Event
  hit : Hit
  toast : Bool
  button : Bool
  item : Bool
  menuBar : Bool
  draggable : Bool
  focusable : Bool
  title : Option Nat
  yes : Bool

/-- What is still to be done. -/
inductive Act
  | loop
  | expire
  | tick
  | poll
  | drag
  | hover
  | menuBarClick
  | dropped
  | render
  | renderIf
  | user
  deriving DecidableEq

/-- `on_click` of a bar or of a widget of the root. -/
def clickActs (a : Answers) : List Act := if a.menuBar then [.menuBarClick] else [.user]

/-- `running = false`. -/
def stop (w : Window) : Window := { w with running := false }

/-- Left down on a widget, when there is no dialog and no popup. -/
def press (w : Window) (a : Answers) : Option (Window × List Act) :=
  let picked : Option WidgetRef := (a.hit.bar <|> a.hit.root).map .part
  if picked.isSome ∧ a.draggable then some ({ w with dragSrc := picked }, [.render])
  else do
    let w := { w with grabbed := picked }
    w.touchIf w.grabbed
    let w ← w.setFocus (if a.focusable then w.grabbed else none)
    w.touchIf w.grabbed
    some (w, (if w.grabbed.isSome then clickActs a else []) ++ [.render])

/-- `EVENT_MOUSE_CLICK`, left down. -/
def leftDown (w : Window) (a : Answers) : Option (Window × List Act) :=
  if a.toast then some (w, [.render])
  else
    match w.dialog with
    | some d => do
      w.touch (.dialog d)
      if a.hit.dialog then do
        -- `Dialog::on_click`
        w.touch (.dialog d)
        if a.button then do
          let w ← w.closeDialog
          some (w, [.user, .render])
        else some (w, [.render])
      else some (w, [.render])
    | none =>
      match w.popup with
      | some m => do
        w.touch m
        if a.hit.popup then do
          -- `Menu::on_click`
          w.touch m
          if a.item then do
            let w ← w.closePopup
            some (w, [.user, .render])
          else some (w, [.render])
        else if a.hit.bar.isSome then
          if a.menuBar then some (w, [.menuBarClick, .render])
          else do
            let w ← w.closePopup
            some (w, [.user, .render])
        else do
          let w ← w.closePopup
          some (w, [.render])
      | none => w.press a

/-- The switch over the type of the event. -/
def dispatch (w : Window) (a : Answers) : Option (Window × List Act) :=
  match a.event with
  | .move => some (w, if w.dragSrc.isSome then [.render] else [.drag, .hover])
  | .leftDown => w.leftDown a
  | .leftUp =>
    if w.dragSrc.isSome then some (w, (if a.yes then [.user] else []) ++ [.dropped, .render])
    else do
      w.touchIf w.grabbed
      some ({ w with grabbed := none }, [.render])
  | .escape =>
    if w.popup.isSome then do
      let w ← w.closePopup
      some (w, [.render])
    else
      match w.dialog with
      | some d => do
        w.touch (.dialog d)
        let w ← w.closeDialog
        some (w, [.user, .render])
      | none => some (w.stop, [.render])
  | .key =>
    if w.dialog.isSome then some (w, [.render])
    else if a.yes then some (w, [.user, .render])
    else do
      w.touchIf w.focused
      some (w, (if w.focused.isSome then [.user] else []) ++ [.render])
  | .scroll => do
    w.touchIf w.hovered
    some (w, if w.hovered.isSome then [.renderIf] else [])
  | .winClose => some (w.stop, [])
  | .other => some (w, [])

/-- What is done, and what is to be done next because of it. -/
def exec (w : Window) (a : Answers) : Act → Option (Window × List Act)
  | .loop => some (w, if w.running then [.expire, .tick, .poll, .loop] else [])
  | .expire => some (w, if a.yes then [.render] else [])
  | .tick => some (w, if a.yes then [.user, .renderIf] else [])
  | .poll => w.dispatch a
  | .drag => do
    w.touchIf w.grabbed
    some (w, if w.grabbed.isSome then [.user, .renderIf] else [])
  | .hover => do
    let w ← w.trackHover a.hit
    some (w, [.renderIf])
  | .menuBarClick => do
    -- `MenuBar::on_click`
    let w ← match a.title with
      | none => w.closePopup
      | some m => if w.popup = some (.part m) then w.closePopup else w.openPopup (.part m)
    some (w, [])
  | .dropped => some ({ w with dragSrc := none }, [])
  | .render => do
    let w ← w.render
    some (w, [])
  | .renderIf => some (w, if a.yes then [.render] else [])
  | .user => some (w, [])

/-! ## No pointer to a deleted widget -/

variable {w : Window} {r : Option WidgetRef} {d : Nat}

/-- The pointer is not to a dialog. -/
def IsPart (r : Option WidgetRef) : Prop := ∀ d, r ≠ some (.dialog d)

/-- Every widget that the window refers to is there. -/
structure NoDangling (w : Window) : Prop where
  hovered : ∀ x ∈ w.hovered, w.Alive x
  focused : ∀ x ∈ w.focused, w.Alive x
  grabbed : ∀ x ∈ w.grabbed, w.Alive x
  popup : ∀ x ∈ w.popup, w.Alive x
  dialog : ∀ d ∈ w.dialog, w.Alive (.dialog d)

/-- Only `hovered` and `dialog` refer to a dialog, to the same one, which has not been deleted. -/
structure Inv (w : Window) : Prop where
  dialog : ∀ d, w.dialog = some d → d ∉ w.deleted ∧ d < w.created
  deleted : ∀ d ∈ w.deleted, d < w.created
  hovered : ∀ d, w.hovered = some (.dialog d) → w.dialog = some d
  focused : IsPart w.focused
  grabbed : IsPart w.grabbed
  popup : IsPart w.popup

/-- No deleted widget is used, and the invariant holds again. -/
def Keeps (r : Option Window) : Prop := ∃ w, r = some w ∧ Inv w

theorem isPart_none : IsPart none := fun _ h => by cases h

theorem isPart_map (i : Option Nat) : IsPart (i.map .part) := by
  intro d h
  cases i <;> cases h

theorem IsPart.alive (h : IsPart r) : ∀ x ∈ r, w.Alive x := by
  rintro (i | d) hx
  · trivial
  · exact absurd hx (h d)

theorem touch_eq {x : WidgetRef} (h : w.Alive x) : w.touch x = some () := if_pos h

theorem touch_dialog (h : d ∉ w.deleted) : w.touch (.dialog d) = some () := if_pos h

theorem touchIf_eq (h : ∀ x ∈ r, w.Alive x) : w.touchIf r = some () := by
  cases r with
  | none => rfl
  | some x => exact touch_eq (h x rfl)

theorem IsPart.touchIf (h : IsPart r) : w.touchIf r = some () := touchIf_eq h.alive

theorem Inv.noDangling (h : Inv w) : NoDangling w where
  hovered := by
    rintro (i | d) hx
    · trivial
    · exact (h.dialog d (h.hovered d hx)).1
  focused := h.focused.alive
  grabbed := h.grabbed.alive
  popup := h.popup.alive
  dialog d hd := (h.dialog d hd).1

theorem Inv.touchHovered (h : Inv w) : w.touchIf w.hovered = some () :=
  touchIf_eq h.noDangling.hovered

theorem Inv.touchDialog (h : Inv w) (hd : w.dialog = some d) : w.touch (.dialog d) = some () :=
  touch_dialog (h.dialog d hd).1

theorem Inv.render (h : Inv w) : w.render = some w := by
  have hdialog : w.touchIf (w.dialog.map .dialog) = some () := by
    cases hd : w.dialog with
    | none => rfl
    | some d => exact h.touchDialog hd
  rw [Window.render, h.popup.touchIf, hdialog]
  rfl

theorem Inv.openPopup (h : Inv w) (i : Nat) : Keeps (w.openPopup (.part i)) := by
  have hold : IsPart (if w.popup = some (.part i) then none else w.popup) := by
    split
    · exact isPart_none
    · exact h.popup
  have hnew : Inv { w with popup := some (.part i) } :=
    ⟨h.dialog, h.deleted, h.hovered, h.focused, h.grabbed, isPart_map (some i)⟩
  refine ⟨_, ?_, hnew⟩
  rw [Window.openPopup, hold.touchIf]
  exact hnew.render

theorem Inv.closePopup (h : Inv w) : Keeps w.closePopup := by
  rw [Window.closePopup]
  cases hp : w.popup with
  | none => exact ⟨w, rfl, h⟩
  | some p =>
    have hpart : IsPart (some p) := hp ▸ h.popup
    dsimp only
    split
    · refine ⟨{ w with hovered := none, popup := none }, ?_, h.dialog, h.deleted, ?_, h.focused,
        h.grabbed, isPart_none⟩
      · rw [touch_eq (hpart.alive p rfl)]
        rfl
      · intro d hd
        cases hd
    · refine ⟨{ w with popup := none }, ?_, h.dialog, h.deleted, h.hovered, h.focused, h.grabbed,
        isPart_none⟩
      rw [touch_eq (hpart.alive p rfl)]
      rfl

theorem deleteDialog_eq (hd : d ∉ w.deleted) :
    w.deleteDialog d = some { w with deleted := d :: w.deleted } := by
  rw [deleteDialog, touch_dialog hd]
  rfl

/-- The dialog that is open can be replaced when nothing else refers to it. -/
theorem Inv.replace (h : Inv w) (hd : w.dialog = some d) (hr : IsPart r) {o : Option Nat}
    (ho : ∀ d', o = some d' → d' ∉ d :: w.deleted ∧ d' < w.created) :
    Inv { w with hovered := r, deleted := d :: w.deleted, dialog := o } where
  dialog := ho
  deleted d' hd' := by
    rcases List.mem_cons.mp hd' with rfl | hd'
    · exact (h.dialog d' hd).2
    · exact h.deleted d' hd'
  hovered d' hd' := absurd hd' (hr d')
  focused := h.focused
  grabbed := h.grabbed
  popup := h.popup

/-- Without the open dialog the hovered widget is no dialog. -/
theorem Inv.hovered_ne (h : Inv w) (hne : w.hovered ≠ w.dialog.map .dialog) : IsPart w.hovered := by
  intro d hd
  rw [h.hovered d hd] at hne
  exact hne hd

theorem Inv.closeDialog (h : Inv w) : Keeps w.closeDialog := by
  obtain ⟨r, hr, hw⟩ : ∃ r, IsPart r ∧
      (if w.hovered = w.dialog.map .dialog then { w with hovered := none } else w) =
        { w with hovered := r } := by
    by_cases hhover : w.hovered = w.dialog.map .dialog
    · exact ⟨none, isPart_none, if_pos hhover⟩
    · exact ⟨w.hovered, h.hovered_ne hhover, if_neg hhover⟩
  rw [Window.closeDialog, hw]
  cases hd : w.dialog with
  | none =>
    have hnone : Inv { w with hovered := r, dialog := none } :=
      ⟨nofun, h.deleted, fun d hd => absurd hd (hr d), h.focused, h.grabbed, h.popup⟩
    exact ⟨_, hnone.render, hnone⟩
  | some d =>
    have hnone := @Inv.replace w r d h hd hr none nofun
    refine ⟨_, ?_, hnone⟩
    dsimp only
    rw [deleteDialog_eq]
    · exact hnone.render
    · exact (h.dialog d hd).1

/-- A dialog is opened, unless another one is open and hovered. -/
theorem Inv.openDialog (h : Inv w) (hlive : d ∉ w.deleted) (hd : d < w.created)
    (hhover : ∀ d', w.dialog = some d' → d' ≠ d → w.hovered ≠ some (.dialog d')) :
    Keeps (w.openDialog d) := by
  have hkeep : ∀ v : Window, Inv { v with dialog := some d } → d ∉ v.deleted →
      Keeps (do
        let w := { v with dialog := some d }
        w.touch (.dialog d)
        w.render) := by
    intro v hv hlive
    refine ⟨_, ?_, hv⟩
    dsimp only
    rw [touch_dialog]
    · exact hv.render
    · exact hlive
  rw [Window.openDialog]
  cases hopen : w.dialog with
  | none =>
    refine hkeep w ⟨?_, h.deleted, ?_, h.focused, h.grabbed, h.popup⟩ hlive
    · rintro d' hd'
      obtain rfl := Option.some.inj hd'
      exact ⟨hlive, hd⟩
    · intro d' hd'
      rw [h.hovered d' hd'] at hopen
      cases hopen
  | some d' =>
    dsimp only
    by_cases hne : d' ≠ d
    · have hr : IsPart w.hovered := h.hovered_ne (by rw [hopen]; exact hhover d' hopen hne)
      have hnot : d ∉ d' :: w.deleted := by
        rw [List.mem_cons, not_or]
        exact ⟨Ne.symm hne, hlive⟩
      rw [if_pos hne, deleteDialog_eq (h.dialog d' hopen).1]
      refine hkeep { w with deleted := d' :: w.deleted } (h.replace hopen hr ?_) hnot
      intro d'' hd''
      obtain rfl := Option.some.inj hd''
      exact ⟨hnot, hd⟩
    · obtain rfl : d' = d := not_not.mp hne
      rw [if_neg hne]
      refine hkeep w ⟨?_, h.deleted, ?_, h.focused, h.grabbed, h.popup⟩ hlive
      · rintro d'' hd''
        obtain rfl := Option.some.inj hd''
        exact ⟨hlive, hd⟩
      · intro d'' hd''
        rw [← hopen]
        exact h.hovered d'' hd''

theorem Inv.setFocus (h : Inv w) (hr : IsPart r) :
    Keeps (w.setFocus r) := by
  rw [Window.setFocus]
  by_cases heq : r = w.focused
  · rw [if_pos heq]
    exact ⟨w, rfl, h⟩
  · rw [if_neg heq, h.focused.touchIf]
    refine ⟨{ w with focused := r }, ?_, h.dialog, h.deleted, h.hovered, hr, h.grabbed, h.popup⟩
    show (Window.touchIf _ r).bind _ = _
    rw [hr.touchIf]
    rfl

/-- The widget to be hovered is the open dialog or no dialog. -/
theorem Inv.hoverTarget (h : Inv w) (hit : Hit) :
    ∃ n, w.hoverTarget hit = some n ∧ ∀ d, n = some (.dialog d) → w.dialog = some d := by
  rw [Window.hoverTarget]
  cases hd : w.dialog with
  | some d =>
    dsimp only
    rw [h.touchDialog hd]
    refine ⟨_, rfl, fun d' hd' => ?_⟩
    split at hd'
    · cases hd'
      rfl
    · cases hd'
  | none =>
    cases hp : w.popup with
    | none => exact ⟨_, rfl, fun d hd => absurd hd (isPart_map _ d)⟩
    | some m =>
      have hm : IsPart (some m) := hp ▸ h.popup
      dsimp only
      rw [touch_eq (hm.alive m rfl)]
      refine ⟨_, rfl, fun d hd => ?_⟩
      split at hd
      · exact absurd hd (hm d)
      · exact absurd hd (isPart_map _ d)

theorem Inv.trackHover (h : Inv w) (hit : Hit) : Keeps (w.trackHover hit) := by
  obtain ⟨n, hn, hdialog⟩ := h.hoverTarget hit
  have hnew : Inv { w with hovered := n } :=
    ⟨h.dialog, h.deleted, hdialog, h.focused, h.grabbed, h.popup⟩
  rw [Window.trackHover, hn]
  by_cases heq : n ≠ w.hovered
  · refine ⟨_, ?_, hnew⟩
    have htouch : Window.touchIf { w with hovered := n } n = some () := hnew.touchHovered
    simp only [Option.bind_eq_bind, Option.bind_some, if_pos heq, h.touchHovered, htouch,
      h.popup.touchIf]
  · refine ⟨w, ?_, h⟩
    simp only [Option.bind_eq_bind, Option.bind_some, if_neg heq, h.touchHovered, h.popup.touchIf]

/-- The program opens another dialog while the open one is hovered. -/
def Replaces (w : Window) (c : Call) : Prop :=
  c = .showDialog ∧ ∃ d, w.dialog = some d ∧ w.hovered = some (.dialog d)

theorem Inv.call (h : Inv w) {c : Call} (hc : ¬ Replaces w c) : Keeps (w.call c) := by
  cases c with
  | showDialog =>
    have hnew : Inv { w with created := w.created + 1 } :=
      ⟨fun d hd => ⟨(h.dialog d hd).1, Nat.lt_succ_of_lt (h.dialog d hd).2⟩,
        fun d hd => Nat.lt_succ_of_lt (h.deleted d hd), h.hovered, h.focused, h.grabbed, h.popup⟩
    refine hnew.openDialog (fun hmem => ?_) (Nat.lt_succ_self _) fun d hd _ hhover => ?_
    · exact absurd (h.deleted _ hmem) (Nat.lt_irrefl _)
    · exact hc ⟨rfl, d, hd, hhover⟩
  | reopenDialog =>
    rw [Window.call]
    cases hd : w.dialog with
    | none => exact ⟨w, rfl, h⟩
    | some d =>
      refine h.openDialog (h.dialog d hd).1 (h.dialog d hd).2 fun d' hd' hne => ?_
      rw [hd, Option.some_inj] at hd'
      exact absurd hd'.symm hne
  | closeDialog => exact h.closeDialog
  | openPopup menu => exact h.openPopup menu
  | closePopup => exact h.closePopup
  | notify => exact ⟨w, h.render, h⟩

/-- What `ui_dialog_show` does to the open dialog and to `hovered`. -/
theorem showDialog_hovered (h : Inv w) (hd : w.dialog = some d) :
    ∃ v, w.call .showDialog = some v ∧ v.deleted = d :: w.deleted ∧ v.hovered = w.hovered := by
  have hlt := (h.dialog d hd).2
  have hnot : w.created ∉ d :: w.deleted := by
    rw [List.mem_cons, not_or]
    exact ⟨Nat.ne_of_gt hlt, fun hmem => Nat.lt_irrefl _ (h.deleted _ hmem)⟩
  let v : Window := { w with
    deleted := d :: w.deleted
    created := w.created + 1
    dialog := some w.created }
  have htouch : v.touch (.dialog w.created) = some () := touch_dialog hnot
  refine ⟨v, ?_, rfl, rfl⟩
  rw [Window.call, Window.openDialog]
  simp only [hd]
  rw [if_pos (Nat.ne_of_lt hlt), deleteDialog_eq]
  · simp only [Option.bind_eq_bind, Option.bind_some, Window.render]
    rw [htouch, h.popup.touchIf]
    exact congrArg (fun t => t.bind fun _ => some v) htouch
  · exact (h.dialog d hd).1

/-! ### The event loop -/

/-- No deleted widget is used by what is done, and the invariant holds again. -/
def Does (r : Option (Window × List Act)) : Prop := ∃ w acts, r = some (w, acts) ∧ Inv w

theorem Does.of_inv (h : Inv w) (acts : List Act) : Does (some (w, acts)) := ⟨w, acts, rfl, h⟩

theorem Keeps.does {v : Option Window} (h : Keeps v) (acts : Window → List Act) :
    Does (v.bind fun w => some (w, acts w)) := by
  obtain ⟨w, rfl, hw⟩ := h
  exact ⟨w, _, rfl, hw⟩

theorem Inv.stop (h : Inv w) : Inv w.stop :=
  ⟨h.dialog, h.deleted, h.hovered, h.focused, h.grabbed, h.popup⟩

theorem Inv.drags (h : Inv w) (r : Option WidgetRef) : Inv { w with dragSrc := r } :=
  ⟨h.dialog, h.deleted, h.hovered, h.focused, h.grabbed, h.popup⟩

theorem Inv.grabs (h : Inv w) (hr : IsPart r) : Inv { w with grabbed := r } :=
  ⟨h.dialog, h.deleted, h.hovered, h.focused, hr, h.popup⟩

theorem Inv.press (h : Inv w) (a : Answers) : Does (w.press a) := by
  rw [Window.press]
  have hpicked := isPart_map (a.hit.bar <|> a.hit.root)
  dsimp only
  split
  · exact .of_inv (h.drags _) _
  · have hfocus : IsPart (if a.focusable = true then (a.hit.bar <|> a.hit.root).map .part
        else none) := by
      split
      · exact hpicked
      · exact isPart_none
    obtain ⟨v, hv, hinv⟩ := (h.grabs hpicked).setFocus hfocus
    simp only [Option.bind_eq_bind, hpicked.touchIf, Option.bind_some, hv, hinv.grabbed.touchIf]
    exact .of_inv hinv _

theorem Inv.leftDown (h : Inv w) (a : Answers) : Does (w.leftDown a) := by
  rw [Window.leftDown]
  by_cases ht : a.toast = true
  · rw [if_pos ht]
    exact .of_inv h _
  rw [if_neg ht]
  cases hd : w.dialog with
  | some d =>
    simp only [h.touchDialog hd, Option.bind_eq_bind, Option.bind_some]
    split
    · split
      · exact h.closeDialog.does _
      · exact .of_inv h _
    · exact .of_inv h _
  | none =>
    cases hp : w.popup with
    | some m =>
      have hm : IsPart (some m) := hp ▸ h.popup
      simp only [touch_eq (hm.alive (w := w) m rfl), Option.bind_eq_bind, Option.bind_some]
      split
      · split
        · exact h.closePopup.does _
        · exact .of_inv h _
      · split
        · split
          · exact .of_inv h _
          · exact h.closePopup.does _
        · exact h.closePopup.does _
    | none => exact h.press a

theorem Inv.dispatch (h : Inv w) (a : Answers) : Does (w.dispatch a) := by
  rw [Window.dispatch]
  cases a.event with
  | move => exact .of_inv h _
  | leftDown => exact h.leftDown a
  | leftUp =>
    dsimp only
    split
    · exact .of_inv h _
    · rw [h.grabbed.touchIf]
      exact .of_inv (h.grabs isPart_none) _
  | escape =>
    dsimp only
    split
    · exact h.closePopup.does _
    · cases hd : w.dialog with
      | some d =>
        simp only [h.touchDialog hd, Option.bind_eq_bind, Option.bind_some]
        exact h.closeDialog.does _
      | none =>
        exact .of_inv h.stop _
  | key =>
    dsimp only
    split
    · exact .of_inv h _
    · split
      · exact .of_inv h _
      · rw [h.focused.touchIf]
        exact .of_inv h _
  | scroll =>
    dsimp only
    rw [h.touchHovered]
    exact .of_inv h _
  | winClose => exact .of_inv h.stop _
  | other => exact .of_inv h _

theorem Inv.exec (h : Inv w) (a : Answers) (act : Act) : Does (w.exec a act) := by
  cases act with
  | loop => exact .of_inv h _
  | expire => exact .of_inv h _
  | tick => exact .of_inv h _
  | poll => exact h.dispatch a
  | drag =>
    rw [Window.exec, h.grabbed.touchIf]
    exact .of_inv h _
  | hover => exact (h.trackHover a.hit).does _
  | menuBarClick =>
    rw [Window.exec]
    cases a.title with
    | none => exact h.closePopup.does _
    | some m =>
      dsimp only
      split
      · exact h.closePopup.does _
      · exact (h.openPopup m).does _
  | dropped => exact .of_inv (h.drags none) _
  | render =>
    rw [Window.exec, h.render]
    exact .of_inv h _
  | renderIf => exact .of_inv h _
  | user => exact .of_inv h _

end Window

/-- The window, and what is still to be done. -/
structure Running where
  win : Window
  todo : List Window.Act

namespace Running

open Window

/-- A step of the program or of the event loop. -/
inductive Label
  | call (c : Call)
  | ret
  | go (a : Answers)

/-- `none` when a deleted widget is used. -/
def step (r : Running) (l : Label) : Option Running :=
  match r.todo with
  | [] => some r
  | act :: rest =>
    match l with
    | .call c =>
      if act = .user then do
        let w ← r.win.call c
        some { r with win := w }
      else some r
    | .ret => some (if act = .user then { r with todo := rest } else r)
    | .go a =>
      if act = .user then some r
      else do
        let (w, acts) ← r.win.exec a act
        some ⟨w, acts ++ rest⟩

/-- A new window: the program sets it up, and calls `run`. -/
def start : Running where
  win := {
    hovered := none
    focused := none
    grabbed := none
    popup := none
    dialog := none
    dragSrc := none
    running := true
    deleted := []
    created := 0 }
  todo := [.user, .render, .loop]

/-- What has become of a window after the first `n` steps. -/
def runTo (ls : List Label) (n : Nat) : Option Running := (ls.take n).foldlM step start

/-! ## Every run -/

variable {r : Running} {l : Label} {ls : List Label} {n : Nat}

/-- The program opens another dialog while the open one is hovered. -/
def Overruns (r : Running) (l : Label) : Prop :=
  ∃ c, l = .call c ∧ r.todo.head? = some .user ∧ Replaces r.win c

/-- The step lemma. -/
theorem inv_step (h : Inv r.win) (hl : ¬ Overruns r l) :
    ∃ r', step r l = some r' ∧ Inv r'.win := by
  obtain ⟨w, todo⟩ := r
  cases todo with
  | nil => exact ⟨_, rfl, h⟩
  | cons act rest =>
    by_cases hact : act = .user
    · subst hact
      cases l with
      | call c =>
        obtain ⟨w', hw', hinv⟩ := h.call fun hc => hl ⟨c, rfl, rfl, hc⟩
        refine ⟨⟨w', .user :: rest⟩, ?_, hinv⟩
        simp only [step, if_true, Option.bind_eq_bind]
        rw [hw']
        rfl
      | ret => exact ⟨⟨w, rest⟩, rfl, h⟩
      | go a => exact ⟨_, rfl, h⟩
    · cases l with
      | call c => exact ⟨_, if_neg hact, h⟩
      | ret => exact ⟨⟨w, act :: rest⟩, congrArg some (if_neg hact), h⟩
      | go a =>
        obtain ⟨w', acts, hw', hinv⟩ := h.exec a act
        refine ⟨⟨w', acts ++ rest⟩, ?_, hinv⟩
        simp only [step, if_neg hact, hw', Option.bind_eq_bind, Option.bind_some]

/-- When the hovered dialog is replaced, `hovered` refers to a deleted dialog. -/
theorem overruns_step (h : Inv r.win) (hl : Overruns r l) :
    ∃ r', step r l = some r' ∧ ¬ NoDangling r'.win := by
  obtain ⟨w, todo⟩ := r
  obtain ⟨c, rfl, htodo, rfl, d, hd, hhover⟩ := hl
  obtain ⟨rest, rfl⟩ : ∃ rest, todo = .user :: rest := by
    cases todo with
    | nil => cases htodo
    | cons act rest => exact ⟨rest, by rw [Option.some.inj htodo]⟩
  obtain ⟨v, hv, hdeleted, hsame⟩ := showDialog_hovered h hd
  refine ⟨⟨v, .user :: rest⟩, ?_, fun hgood => ?_⟩
  · simp only [step, if_true, Option.bind_eq_bind]
    rw [hv]
    rfl
  · have halive := hgood.hovered (.dialog d) (hsame.trans hhover)
    exact halive (hdeleted ▸ List.mem_cons_self)

theorem runTo_zero : runTo ls 0 = some start := by
  rw [runTo, List.take_zero]
  rfl

theorem runTo_succ (hl : ls[n]? = some l) :
    runTo ls (n + 1) = (runTo ls n).bind fun r => step r l := by
  rw [runTo, List.take_add_one, hl, Option.toList_some, List.foldlM_append]
  simp [runTo]

theorem runTo_succ_none (hl : ls[n]? = none) : runTo ls (n + 1) = runTo ls n := by
  rw [runTo, List.take_add_one, hl, Option.toList_none, List.append_nil, runTo]

theorem inv_start : Inv start.win :=
  ⟨nofun, nofun, nofun, isPart_none, isPart_none, isPart_none⟩

/-- A run without such a step keeps the invariant. -/
theorem inv_runTo (hl : ∀ n r l, runTo ls n = some r → ls[n]? = some l → Inv r.win →
    ¬ Overruns r l) (n : Nat) : ∃ r, runTo ls n = some r ∧ Inv r.win := by
  induction n with
  | zero => exact ⟨_, runTo_zero, inv_start⟩
  | succ n ih =>
    obtain ⟨r, hr, hinv⟩ := ih
    cases hn : ls[n]? with
    | none => exact ⟨r, (runTo_succ_none hn).trans hr, hinv⟩
    | some l =>
      rw [runTo_succ hn, hr]
      exact inv_step hinv (hl n r l hr hn hinv)

/-- No run uses a deleted widget, and none of its states has a pointer to one, if and only if the
program never opens another dialog while the open one is hovered. -/
theorem no_dangling (ls : List Label) :
    (∀ n, ∃ r, runTo ls n = some r ∧ NoDangling r.win) ↔
      ∀ n r l, runTo ls n = some r → ls[n]? = some l → ¬ Overruns r l := by
  constructor
  · intro h
    have hno : ∀ n r l, runTo ls n = some r → ls[n]? = some l → Inv r.win → ¬ Overruns r l := by
      intro n r l hr hn hinv hover
      obtain ⟨r', hstep, hdangling⟩ := overruns_step hinv hover
      obtain ⟨r'', hr'', hgood⟩ := h (n + 1)
      rw [runTo_succ hn, hr, Option.bind_some, hstep, Option.some_inj] at hr''
      exact hdangling (hr'' ▸ hgood)
    intro n r l hr hn
    obtain ⟨r', hr', hinv⟩ := inv_runTo hno n
    rw [hr, Option.some_inj] at hr'
    exact hno n r l hr hn (hr' ▸ hinv)
  · intro h n
    obtain ⟨r, hr, hinv⟩ := inv_runTo (fun n r l hr hn _ => h n r l hr hn) n
    exact ⟨r, hr, hinv.noDangling⟩

/-- Nothing is under the mouse, and every test fails. -/
def idle : Answers where
  event := .other
  hit := ⟨false, false, none, none⟩
  toast := false
  button := false
  item := false
  menuBar := false
  draggable := false
  focusable := false
  title := none
  yes := false

/-- One turn of the event loop: the timer opens a dialog, and the mouse moves. -/
def timerTurn (hit : Hit) : List Label :=
  [.go idle, .go idle, .go { idle with yes := true }, .call .showDialog, .ret, .go idle,
    .go { idle with event := .move }, .go idle, .go { idle with hit := hit }, .go idle]

/-- The first dialog is hovered when the second one replaces it. -/
def timerRun : List Label :=
  [.ret, .go idle] ++ timerTurn ⟨true, false, none, none⟩ ++ timerTurn idle.hit

/-- `track_hover` calls the deleted dialog. -/
theorem deleted_hovered : ¬ ∀ ls n, ∃ r, runTo ls n = some r := by
  intro h
  obtain ⟨r, hr⟩ := h timerRun 21
  have hnone : (runTo timerRun 21).isNone = true := by decide
  rw [hr] at hnone
  cases hnone

end Running

end Kyuzen.Ui
