import Mathlib
import Kyuzen.Desktop.Manifest
import Kyuzen.Event.Model

/-!
# The launcher and the taskbar

What `render` draws is a list of areas, in the order of drawing, and `handle_click` goes through
its own loops over the same entries and windows. Texts, the edge of the taskbar and the clipping of
`gui_draw_rect` are left out; the sizes of the desktop window fit in an `int`.

* `handleClick_eq`: a click does what the piece that was drawn last at this point stands for. In the
  taskbar every row counts as the middle one.
* `turn_inv`, `run_inv`: the main loop draws again whenever what it would draw has changed, as long
  as the checksum of `discover_apps` tells it.
* `click_follows_picture`: so over whole runs a click does what is on the screen.
-/

namespace Kyuzen.Desktop

open Event

/-! ## What is drawn -/

structure App extends AppEntry where
  elf : List UInt8

/-- What `draw_icon` uses of an entry: `LBL_MAX` characters of the label, and the colour. -/
def App.look (a : App) : List UInt8 × Nat := (a.labelText.take 11, a.color)

/-- The fields of `kwm_window_info_t` that the desktop reads; the title is 32 bytes. -/
structure WinInfo where
  winId : Nat
  focused : Nat
  flags : Nat
  title : List UInt8
deriving DecidableEq

namespace WinInfo

/-- Neither the desktop itself nor a window without a title. -/
def hasButton (w : WinInfo) : Bool := w.flags % 2 = 0 ∧ w.title.headD 0 ≠ 0

/-- `bw`. -/
def buttonWidth (w : WinInfo) : Int := (w.title.takeWhile (· ≠ 0)).length * 8 + 20

theorem buttonWidth_pos (w : WinInfo) : 0 < w.buttonWidth := by
  unfold buttonWidth
  omega

end WinInfo

structure Area where
  x : Int
  y : Int
  w : Int
  h : Int
deriving DecidableEq

def Area.Has (a : Area) (p : Int × Int) : Prop :=
  a.x ≤ p.1 ∧ p.1 < a.x + a.w ∧ a.y ≤ p.2 ∧ p.2 < a.y + a.h

instance (a : Area) (p : Int × Int) : Decidable (a.Has p) :=
  inferInstanceAs (Decidable (_ ∧ _ ∧ _ ∧ _))

theorem Area.not_has_above {a : Area} {p : Int × Int} (h : p.2 < a.y) : ¬ a.Has p := by
  intro hhas
  exact absurd hhas.2.2.1 (Int.not_le.mpr h)

/-- What an area shows. -/
inductive Piece
  | wall
  | icon (i : Nat) (look : List UInt8 × Nat)
  | bar
  | button (win : WinInfo)
deriving DecidableEq

def taskbarHeight : Int := 36

def gridCols (width : Nat) : Nat :=
  let c := (width - 24) / 92
  if c < 1 then 1 else c

def gridCap (width height napps : Nat) : Nat :=
  let rows := (height - 36 - 24) / 100
  let rows := if rows < 1 then 1 else rows
  let cap := rows * gridCols width
  if cap > napps then napps else cap

def iconArea (cols i : Nat) : Area :=
  ⟨24 + (i % cols : Nat) * 92, 24 + (i / cols : Nat) * 100, 56, 56⟩

/-- The icons from number `i` on. -/
def icons (cols : Nat) : Nat → List (List UInt8 × Nat) → List (Area × Piece)
  | _, [] => []
  | i, look :: looks => (iconArea cols i, .icon i look) :: icons cols (i + 1) looks

/-- The buttons from column `bx` on. -/
def buttons (height : Nat) : Int → List WinInfo → List (Area × Piece)
  | _, [] => []
  | bx, w :: wins =>
    if w.hasButton then
      (⟨bx, height - taskbarHeight + 4, w.buttonWidth, taskbarHeight - 8⟩, .button w) ::
        buttons height (bx + w.buttonWidth + 6) wins
    else buttons height bx wins

def render (width height : Nat) (looks : List (List UInt8 × Nat)) (wins : List WinInfo) :
    List (Area × Piece) :=
  (⟨0, 0, width, height - taskbarHeight⟩, .wall) ::
    icons (gridCols width) 0 (looks.take (gridCap width height looks.length)) ++
    (⟨0, height - taskbarHeight, width, taskbarHeight⟩, .bar) :: buttons height 8 wins

/-- The piece that was drawn last at `p`. -/
def shownAt (pieces : List (Area × Piece)) (p : Int × Int) : Option Piece :=
  ((pieces.filter fun piece => piece.1.Has p).getLast?).map Prod.snd

/-! ## What a click does -/

inductive Effect
  | spawn (elf : List UInt8)
  | activate (slot : Int)
deriving DecidableEq

def barClick (mx : Int) : Int → List WinInfo → Option WinInfo
  | _, [] => none
  | bx, w :: wins =>
    if w.hasButton then
      if mx ≥ bx ∧ mx < bx + w.buttonWidth then some w
      else barClick mx (bx + w.buttonWidth + 6) wins
    else barClick mx bx wins

def iconClick (cols : Nat) (p : Int × Int) : Nat → List App → Option App
  | _, [] => none
  | i, a :: apps => if (iconArea cols i).Has p then some a else iconClick cols p (i + 1) apps

def handleClick (width height : Nat) (apps : List App) (wins : List WinInfo) (p : Int × Int) :
    Option Effect :=
  if p.2 ≥ height - taskbarHeight then
    (barClick p.1 8 wins).map fun w => .activate (w.winId - 1)
  else
    (iconClick (gridCols width) p 0 (apps.take (gridCap width height apps.length))).map
      fun a => .spawn a.elf

/-- What a piece stands for. -/
def effectOf (apps : List App) : Option Piece → Option Effect
  | some (.icon i _) => apps[i]?.map fun a => .spawn a.elf
  | some (.button w) => some (.activate (w.winId - 1))
  | _ => none

/-- In the taskbar the row of a click does not matter. -/
def barMiddle (height : Nat) (p : Int × Int) : Int × Int :=
  if p.2 ≥ height - taskbarHeight then (p.1, height - 18) else p

/-! ## A click meets what is drawn -/

theorem shownAt_cons (piece : Area × Piece) (pieces : List (Area × Piece)) (p : Int × Int) :
    shownAt (piece :: pieces) p =
      (shownAt pieces p).or (if piece.1.Has p then some piece.2 else none) := by
  unfold shownAt
  by_cases hhas : piece.1.Has p
  · rw [List.filter_cons_of_pos (by simpa using hhas), if_pos hhas, List.getLast?_cons]
    cases (pieces.filter fun piece => piece.1.Has p).getLast? <;> rfl
  · rw [List.filter_cons_of_neg (by simpa using hhas), if_neg hhas, Option.or_none]

theorem shownAt_append (xs ys : List (Area × Piece)) (p : Int × Int) :
    shownAt (xs ++ ys) p = (shownAt ys p).or (shownAt xs p) := by
  induction xs with
  | nil => simp [shownAt]
  | cons x xs ih => rw [List.cons_append, shownAt_cons, ih, shownAt_cons, Option.or_assoc]

/-- No two icons have a point in common. -/
theorem iconArea_inj {cols i j : Nat} {p : Int × Int} (hi : (iconArea cols i).Has p)
    (hj : (iconArea cols j).Has p) : i = j := by
  simp only [Area.Has, iconArea] at hi hj
  have hcol : i % cols = j % cols := by omega
  have hrow : i / cols = j / cols := by omega
  rw [← Nat.div_add_mod i cols, ← Nat.div_add_mod j cols, hcol, hrow]

theorem shownAt_icons_later {cols i j : Nat} {looks : List (List UInt8 × Nat)} {p : Int × Int}
    (hi : (iconArea cols i).Has p) (hij : i < j) : shownAt (icons cols j looks) p = none := by
  induction looks generalizing j with
  | nil => rfl
  | cons look looks ih =>
    have hj : ¬ (iconArea cols j).Has p := fun hj => Nat.ne_of_lt hij (iconArea_inj hi hj)
    rw [icons, shownAt_cons, if_neg hj, ih (Nat.lt_succ_of_lt hij), Option.or_none]

/-- The loop of `handle_click` finds the entry whose icon is shown. -/
theorem effectOf_icons {apps as : List App} {cols k : Nat} {p : Int × Int}
    (h : as <+: apps.drop k) :
    effectOf apps (shownAt (icons cols k (as.map App.look)) p) =
      (iconClick cols p k as).map fun a => .spawn a.elf := by
  induction as generalizing k with
  | nil => rfl
  | cons a as ih =>
    obtain ⟨rest, hrest⟩ := h
    have hget : apps[k]? = some a := by
      rw [← List.head?_drop, ← hrest]
      rfl
    have htail : as <+: apps.drop (k + 1) := by
      rw [← List.tail_drop, ← hrest]
      exact ⟨rest, rfl⟩
    rw [List.map_cons, icons, shownAt_cons, iconClick]
    split
    · next hhas =>
      rw [shownAt_icons_later hhas (Nat.lt_succ_self k), Option.none_or, effectOf, hget]
    · rw [Option.or_none]
      exact ih htail

/-- A button that begins further right does not have the point. -/
theorem shownAt_buttons_right {height : Nat} {bx : Int} {wins : List WinInfo} {p : Int × Int}
    (h : p.1 < bx) : shownAt (buttons height bx wins) p = none := by
  induction wins generalizing bx with
  | nil => rfl
  | cons w wins ih =>
    rw [buttons]
    split
    · have hw := w.buttonWidth_pos
      have hhas : ¬ bx ≤ p.1 := by omega
      rw [shownAt_cons, ih (by omega)]
      simp [Area.Has, hhas]
    · exact ih h

theorem has_button_iff {height : Nat} {bx w mx : Int} :
    (⟨bx, height - taskbarHeight + 4, w, taskbarHeight - 8⟩ : Area).Has (mx, height - 18) ↔
      mx ≥ bx ∧ mx < bx + w := by
  simp only [Area.Has, taskbarHeight]
  omega

theorem shownAt_buttons {height : Nat} {bx mx : Int} {wins : List WinInfo} :
    shownAt (buttons height bx wins) (mx, height - 18) = (barClick mx bx wins).map .button := by
  induction wins generalizing bx with
  | nil => rfl
  | cons w wins ih =>
    rw [buttons, barClick]
    split
    · rw [shownAt_cons]
      simp only [has_button_iff]
      split
      · next hin =>
        rw [shownAt_buttons_right (show mx < bx + w.buttonWidth + 6 by omega)]
        rfl
      · rw [Option.or_none, ih]
    · exact ih

theorem shownAt_buttons_above {height : Nat} {bx : Int} {wins : List WinInfo} {p : Int × Int}
    (h : p.2 < height - taskbarHeight) : shownAt (buttons height bx wins) p = none := by
  induction wins generalizing bx with
  | nil => rfl
  | cons w wins ih =>
    rw [buttons]
    split
    · have habove : p.2 < height - taskbarHeight + 4 := by omega
      rw [shownAt_cons, ih, if_neg (Area.not_has_above habove)]
      rfl
    · exact ih

/-- A click does what is shown at its point. -/
theorem handleClick_eq {width height : Nat} (apps : List App) (wins : List WinInfo)
    {p : Int × Int} (hleft : 0 ≤ p.1) (hright : p.1 < width) :
    handleClick width height apps wins p =
      effectOf apps (shownAt (render width height (apps.map App.look) wins)
        (barMiddle height p)) := by
  rw [render, List.cons_append, shownAt_cons, shownAt_append, shownAt_cons, List.length_map,
    ← List.map_take, handleClick, barMiddle]
  split
  · rw [shownAt_buttons]
    -- the taskbar covers the icons that reach into it
    have hbar : (⟨0, height - taskbarHeight, width, taskbarHeight⟩ : Area).Has
        (p.1, height - 18) := by
      simp only [Area.Has, taskbarHeight]
      omega
    rw [if_pos hbar]
    cases barClick p.1 8 wins <;> rfl
  · next habove =>
    have hp : p.2 < height - taskbarHeight := Int.not_le.mp habove
    have hicons : apps.take (gridCap width height apps.length) <+: apps.drop 0 :=
      List.take_prefix _ _
    rw [shownAt_buttons_above hp, if_neg (Area.not_has_above hp), Option.or_none, Option.none_or,
      ← effectOf_icons hicons]
    cases shownAt (icons (gridCols width) 0
      ((apps.take (gridCap width height apps.length)).map App.look)) p with
    | none =>
      rw [Option.none_or]
      split <;> rfl
    | some piece => rfl

/-! ## The main loop -/

def addSum (s n : Nat) : Nat := (s * 31 + n) % 2 ^ 32

/-- The checksum of `discover_apps`. -/
def appsSum (apps : List App) : Nat :=
  apps.foldl (fun s a => a.labelText.foldl (fun s c => addSum s c.toNat) (addSum s a.color))
    apps.length

/-- What the main loop keeps; `screen` is what it has drawn last. -/
structure Desk where
  apps : List App
  appsSum : Nat
  wins : List WinInfo
  mouse : Int × Int
  frame : Nat
  lastScan : Nat
  doRender : Bool
  screen : Option (List (Area × Piece))

/-- What the system answers in one round: the event, the windows, the uptime and the entries. -/
structure Turn where
  event : Option KyuzenEvent
  windows : Option (List WinInfo)
  uptime : Nat
  found : List App

namespace Desk

def picture (width height : Nat) (s : Desk) : List (Area × Piece) :=
  render width height (s.apps.map App.look) s.wins

def discoverApps (found : List App) (s : Desk) : Desk × Bool :=
  ({ s with apps := found, appsSum := Desktop.appsSum found },
    decide (Desktop.appsSum found ≠ s.appsSum))

/-- `winlist_changed`, which compares the fields of `WinInfo`. -/
def winlistChanged (windows : Option (List WinInfo)) (s : Desk) : Desk × Bool :=
  match windows with
  | none => (s, false)
  | some wins => ({ s with wins := wins }, decide (s.wins ≠ wins))

/-- `main` before the loop. -/
def start (found : List App) (uptime : Nat) : Desk :=
  ⟨found, Desktop.appsSum found, [], (0, 0), 0, uptime, true, none⟩

def isPress (ev : KyuzenEvent) : Prop :=
  ev.type = eventMouseClick ∧ ev.param1 = 0 ∧ ev.param2 = 1

instance (ev : KyuzenEvent) : Decidable (isPress ev) :=
  inferInstanceAs (Decidable (_ ∧ _ ∧ _))

def onEvent (width height : Nat) (ev : KyuzenEvent) (s : Desk) : Desk × Option Effect :=
  if ev.type = eventMouseMove then
    ({ s with mouse := (ev.param1, ev.param2), doRender := true }, none)
  else if isPress ev then
    ({ s with doRender := true }, handleClick width height s.apps s.wins s.mouse)
  else ({ s with doRender := true }, none)

/-- What every tenth round asks for. -/
def poll (t : Turn) (s : Desk) : Desk :=
  let (s, changed) := winlistChanged t.windows s
  let s := { s with doRender := s.doRender || changed }
  if (t.uptime + 2 ^ 64 - s.lastScan) % 2 ^ 64 ≥ 5000 then
    let (s, changed) := discoverApps t.found { s with lastScan := t.uptime }
    { s with doRender := s.doRender || changed }
  else s

def draw (width height : Nat) (s : Desk) : Desk :=
  if s.doRender then { s with screen := some (s.picture width height), doRender := false } else s

/-- One round of the loop, and what it asks of the system. -/
def turn (width height : Nat) (t : Turn) (s : Desk) : Desk × Option Effect :=
  let (s, effect) := match t.event with
    | none => (s, none)
    | some ev => onEvent width height ev s
  let s := { s with frame := s.frame + 1 }
  let s := if s.frame % 10 = 0 then poll t s else s
  (draw width height s, effect)

def run (width height : Nat) (ts : List Turn) (s : Desk) : Desk :=
  ts.foldl (fun s t => (turn width height t s).1) s

/-! ## The screen is up to date -/

/-- Either the next `draw` draws, or the screen shows what it would draw. -/
def Current (width height : Nat) (s : Desk) : Prop :=
  s.doRender = false → s.screen = some (s.picture width height)

/-- The checksum tells entries apart that are drawn in different ways. -/
def Tells (found found' : List App) : Prop :=
  Desktop.appsSum found = Desktop.appsSum found' → found.map App.look = found'.map App.look

/-- An entry with a label of one character. -/
def letterApp (c : UInt8) (color : Nat) : App where
  label := Function.update (fun _ => 0) 0 c
  color := color
  elf := [c]

/-- The checksum does not always tell: an A in colour 1 has that of an accent in colour 0. -/
example : ¬ Tells [letterApp 65 1] [letterApp 96 0] := by
  intro h
  have hlook : [letterApp 65 1].map App.look = [letterApp 96 0].map App.look := h rfl
  exact absurd hlook (by decide)

/-- `known` are the lists that the scans have found. -/
structure Inv (width height : Nat) (known : List (List App)) (s : Desk) : Prop where
  current : s.Current width height
  sum : s.appsSum = Desktop.appsSum s.apps
  known : s.apps ∈ known
  onCanvas : 0 ≤ s.mouse.1 ∧ s.mouse.1 < width

end Desk

/-- The window manager sends positions inside the window. -/
def Turn.Fits (width : Nat) (t : Turn) : Prop :=
  ∀ ev ∈ t.event, ev.type = eventMouseMove → 0 ≤ ev.param1 ∧ ev.param1 < width

namespace Desk

variable {width height : Nat} {known : List (List App)} {s : Desk} {t : Turn}

theorem start_inv {found : List App} {uptime : Nat} (hwidth : 0 < width) (hfound : found ∈ known) :
    (start found uptime).Inv width height known where
  current := by
    intro h
    cases h
  sum := rfl
  known := hfound
  onCanvas := ⟨le_rfl, Int.natCast_pos.mpr hwidth⟩

theorem Inv.onEvent {ev : KyuzenEvent} (h : s.Inv width height known)
    (hev : ev.type = eventMouseMove → 0 ≤ ev.param1 ∧ ev.param1 < width) :
    (Desk.onEvent width height ev s).1.Inv width height known := by
  unfold Desk.onEvent
  split
  · next hmove => exact ⟨nofun, h.sum, h.known, hev hmove⟩
  · split
    · exact ⟨nofun, h.sum, h.known, h.onCanvas⟩
    · exact ⟨nofun, h.sum, h.known, h.onCanvas⟩

/-- Windows that compare equal are drawn alike. -/
theorem Inv.windows (windows : Option (List WinInfo)) (h : s.Inv width height known) :
    ({ (winlistChanged windows s).1 with
      doRender := (winlistChanged windows s).1.doRender || (winlistChanged windows s).2 } : Desk).Inv
        width height known := by
  unfold winlistChanged
  cases windows with
  | none => exact ⟨fun hr => h.current (Bool.or_eq_false_iff.mp hr).1, h.sum, h.known, h.onCanvas⟩
  | some wins =>
    refine ⟨fun hr => ?_, h.sum, h.known, h.onCanvas⟩
    obtain ⟨hrender, hsame⟩ := Bool.or_eq_false_iff.mp hr
    have hwins : s.wins = wins := not_not.mp (of_decide_eq_false hsame)
    rw [← hwins]
    exact h.current hrender

/-- Entries with the same checksum are drawn alike. -/
theorem Inv.scan {found : List App} {now : Nat} (h : s.Inv width height known)
    (hfound : found ∈ known) (htells : ∀ a ∈ known, ∀ b ∈ known, Tells a b) :
    ({ (discoverApps found { s with lastScan := now }).1 with
      doRender := (discoverApps found { s with lastScan := now }).1.doRender ||
        (discoverApps found { s with lastScan := now }).2 } : Desk).Inv width height known := by
  refine ⟨fun hr => ?_, rfl, hfound, h.onCanvas⟩
  obtain ⟨hrender, hsame⟩ := Bool.or_eq_false_iff.mp hr
  have hsum : Desktop.appsSum found = s.appsSum := not_not.mp (of_decide_eq_false hsame)
  have hlook := htells found hfound s.apps h.known (hsum.trans h.sum)
  show s.screen = some (render width height (found.map App.look) s.wins)
  rw [hlook]
  exact h.current hrender

theorem Inv.poll (h : s.Inv width height known) (hfound : t.found ∈ known)
    (htells : ∀ a ∈ known, ∀ b ∈ known, Tells a b) :
    (Desk.poll t s).Inv width height known := by
  have hwin := h.windows t.windows
  unfold Desk.poll
  simp only
  split
  · exact hwin.scan hfound htells
  · exact hwin

theorem Inv.draw (h : s.Inv width height known) :
    (Desk.draw width height s).Inv width height known ∧
      (Desk.draw width height s).screen = some ((Desk.draw width height s).picture width height) := by
  unfold Desk.draw
  split
  · exact ⟨⟨fun _ => rfl, h.sum, h.known, h.onCanvas⟩, rfl⟩
  · next hrender => exact ⟨h, h.current (Bool.eq_false_iff.mpr hrender)⟩

theorem turn_inv (h : s.Inv width height known) (hfits : t.Fits width) (hfound : t.found ∈ known)
    (htells : ∀ a ∈ known, ∀ b ∈ known, Tells a b) :
    (turn width height t s).1.Inv width height known ∧
      (turn width height t s).1.screen =
        some ((turn width height t s).1.picture width height) := by
  have hevent : (match t.event with
      | none => (s, none)
      | some ev => Desk.onEvent width height ev s).1.Inv width height known := by
    cases hev : t.event with
    | none => exact h
    | some ev => exact h.onEvent (hfits ev hev)
  -- whatever the event was, what follows sees its state only
  unfold turn
  generalize (match t.event with
    | none => (s, none)
    | some ev => Desk.onEvent width height ev s) = r at hevent
  have hframe : ({ r.1 with frame := r.1.frame + 1 } : Desk).Inv width height known :=
    ⟨hevent.current, hevent.sum, hevent.known, hevent.onCanvas⟩
  simp only
  split
  · exact (hframe.poll hfound htells).draw
  · exact hframe.draw

/-- After the first round the screen is up to date whenever a round begins. -/
theorem run_inv {ts : List Turn} (h : s.Inv width height known)
    (hscreen : s.screen = some (s.picture width height)) (hfits : ∀ t ∈ ts, t.Fits width)
    (hfound : ∀ t ∈ ts, t.found ∈ known) (htells : ∀ a ∈ known, ∀ b ∈ known, Tells a b) :
    (run width height ts s).Inv width height known ∧
      (run width height ts s).screen = some ((run width height ts s).picture width height) := by
  induction ts generalizing s with
  | nil => exact ⟨h, hscreen⟩
  | cons t ts ih =>
    obtain ⟨hfit, hfits⟩ := List.forall_mem_cons.mp hfits
    obtain ⟨hknown, hfound⟩ := List.forall_mem_cons.mp hfound
    obtain ⟨hinv, hscreen⟩ := turn_inv h hfit hknown htells
    exact ih hinv hscreen hfits hfound

end Desk

/-! ## A click does what is on the screen -/

theorem mem_of_shownAt {pieces : List (Area × Piece)} {p : Int × Int} {piece : Piece}
    (h : shownAt pieces p = some piece) : ∃ area, (area, piece) ∈ pieces := by
  obtain ⟨⟨area, x⟩, hlast, rfl⟩ := Option.map_eq_some_iff.mp h
  exact ⟨area, List.mem_of_mem_filter (List.mem_of_getLast? hlast)⟩

theorem mem_icons {cols k i : Nat} {looks : List (List UInt8 × Nat)} {area : Area}
    {look : List UInt8 × Nat} (h : (area, .icon i look) ∈ icons cols k looks) :
    k ≤ i ∧ looks[i - k]? = some look := by
  induction looks generalizing k with
  | nil => cases h
  | cons first looks ih =>
    rcases List.mem_cons.mp h with heq | hmem
    · cases heq
      simp
    · obtain ⟨hle, hget⟩ := ih hmem
      have hsub : i - k = i - (k + 1) + 1 := by omega
      rw [hsub, List.getElem?_cons_succ]
      exact ⟨by omega, hget⟩

theorem not_icon_mem_buttons {height i : Nat} {bx : Int} {wins : List WinInfo} {area : Area}
    {look : List UInt8 × Nat} : (area, .icon i look) ∉ buttons height bx wins := by
  induction wins generalizing bx with
  | nil => exact List.not_mem_nil
  | cons w wins ih =>
    rw [buttons]
    split
    · simp [ih]
    · exact ih

/-- An icon on the screen is that of the entry with its number. -/
theorem look_of_shown {width height : Nat} {apps : List App} {wins : List WinInfo} {p : Int × Int}
    {i : Nat} {look : List UInt8 × Nat}
    (h : shownAt (render width height (apps.map App.look) wins) p = some (.icon i look)) :
    ∃ a, apps[i]? = some a ∧ a.look = look := by
  obtain ⟨area, hmem⟩ := mem_of_shownAt h
  simp only [render, List.cons_append, List.mem_cons, List.mem_append, Prod.mk.injEq,
    reduceCtorEq, and_false, false_or, not_icon_mem_buttons, or_false] at hmem
  obtain ⟨_, hget⟩ := mem_icons hmem
  rw [Nat.sub_zero, List.getElem?_take] at hget
  split at hget
  · rw [List.getElem?_map] at hget
    exact Option.map_eq_some_iff.mp hget
  · cases hget

/-- In every run of the main loop whose scans never find entries that look different with an equal
checksum, a click does from the second round on what is on the screen: an icon starts the entry
with its label and its colour, a button of the taskbar activates its window, and nothing happens
elsewhere. -/
theorem click_follows_picture {width height : Nat} (found : List App) (uptime : Nat) (t₀ t : Turn)
    (ts : List Turn) (ev : KyuzenEvent) (hwidth : 0 < width)
    (htells : ∀ a ∈ found :: (t₀ :: ts).map Turn.found, ∀ b ∈ found :: (t₀ :: ts).map Turn.found,
      Desk.Tells a b)
    (hfits : ∀ t ∈ t₀ :: ts, t.Fits width) (hev : t.event = some ev) (hpress : Desk.isPress ev) :
    let s := Desk.run width height (t₀ :: ts) (Desk.start found uptime)
    ∃ pieces, s.screen = some pieces ∧
      (Desk.turn width height t s).2 =
        effectOf s.apps (shownAt pieces (barMiddle height s.mouse)) ∧
      ∀ p i look, shownAt pieces p = some (.icon i look) →
        ∃ a, s.apps[i]? = some a ∧ a.look = look := by
  intro s
  have hstart : (Desk.start found uptime).Inv width height
      (found :: (t₀ :: ts).map Turn.found) := Desk.start_inv hwidth List.mem_cons_self
  have hfound : ∀ t ∈ t₀ :: ts, t.found ∈ found :: (t₀ :: ts).map Turn.found :=
    fun t ht => List.mem_cons_of_mem _ (List.mem_map_of_mem ht)
  obtain ⟨hfit, hrest⟩ := List.forall_mem_cons.mp hfits
  obtain ⟨hknown, hlater⟩ := List.forall_mem_cons.mp hfound
  obtain ⟨hfirst, hscreen⟩ := Desk.turn_inv hstart hfit hknown htells
  obtain ⟨hinv, hscreen⟩ := Desk.run_inv hfirst hscreen hrest hlater htells
  refine ⟨_, hscreen, ?_, fun p i look => look_of_shown⟩
  have hmove : ev.type ≠ eventMouseMove := by
    rw [hpress.1]
    decide
  have heffect : (Desk.turn width height t s).2 =
      handleClick width height s.apps s.wins s.mouse := by
    simp only [Desk.turn, hev, Desk.onEvent, if_neg hmove, if_pos hpress]
  rw [heffect]
  exact handleClick_eq s.apps s.wins hinv.onCanvas.1 hinv.onCanvas.2

def moveTurn : Turn := ⟨some ⟨eventMouseMove, 30, 40, 0, 1⟩, none, 0, [Desk.letterApp 97 5]⟩

def pressTurn : Turn := ⟨some ⟨eventMouseClick, 0, 1, 0, 1⟩, none, 0, [Desk.letterApp 97 5]⟩

theorem click_follows_picture_icon :
    let s := Desk.run 640 480 [moveTurn] (Desk.start [Desk.letterApp 97 5] 0)
    (Desk.turn 640 480 pressTurn s).2 = some (.spawn [97]) ∧
      ∃ pieces, s.screen = some pieces ∧
        (Desk.turn 640 480 pressTurn s).2 =
          effectOf s.apps (shownAt pieces (barMiddle 480 s.mouse)) ∧
        ∀ p i look, shownAt pieces p = some (.icon i look) →
          ∃ a, s.apps[i]? = some a ∧ a.look = look :=
  ⟨by decide,
    click_follows_picture [Desk.letterApp 97 5] 0 moveTurn pressTurn []
      ⟨eventMouseClick, 0, 1, 0, 1⟩ (by norm_num)
      (by simp [moveTurn, Desk.Tells])
      (by simp [moveTurn, Turn.Fits])
      rfl ⟨rfl, rfl, rfl⟩⟩

end Kyuzen.Desktop
