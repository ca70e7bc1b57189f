import Mathlib.Data.List.Basic
import Mathlib.Logic.Function.Basic
import Mathlib.Tactic.Ring
import Kyuzen.Lib.Run

/-!
# The text editor

`TextEdit`: a buffer of `MAX_TEXT` characters, the length of the text in it, and the cursor. Every
access to the buffer goes through `get` and `put`, which give `none` for an index outside of the
array, so an operation whose result is `some` has stayed inside.

The cursor stays within the text (`Cursor`) as long as no character is inserted at the end of a
full buffer: `insert_at` then does nothing, and the caller moves the cursor all the same
(`cursor_kept`).
-/

namespace Kyuzen.Ui

open Lib

def maxText : Nat := 8192
def lineH : Int := 16
def charW : Int := 8
def keyModCtrl : Nat := 2

/-- The fields of `Widget` and `TextEdit`. -/
structure TextEdit where
  x : Int
  y : Int
  w : Int
  h : Int
  hasFocus : Bool
  text : Nat → UInt8
  len : Nat
  cur : Nat
  scrollTop : Int
  readonly : Bool

namespace TextEdit

/-- '\n'. -/
def newline : UInt8 := 10

def get (t : TextEdit) (i : Nat) : Option UInt8 := if i < maxText then some (t.text i) else none

def put (t : TextEdit) (i : Nat) (c : UInt8) : Option TextEdit :=
  if i < maxText then some { t with text := Function.update t.text i c } else none

/-! ## Lines -/

/-- The newlines among the first `n` characters. -/
def countLines (t : TextEdit) : Nat → Option Nat
  | 0 => some 0
  | n + 1 => do
    let ln ← countLines t n
    let c ← t.get n
    some (if c = newline then ln + 1 else ln)

def lineAt (t : TextEdit) (idx : Nat) : Option Nat := countLines t (min idx t.len)

def lineStart (t : TextEdit) : Nat → Option Nat
  | 0 => some 0
  | i + 1 => do
    let c ← t.get i
    if c = newline then some (i + 1) else lineStart t i

/-- `while (i < len && text[i] != '\n') i++`, over the characters that are left. -/
def lineEndLoop (t : TextEdit) (i : Nat) : Nat → Option Nat
  | 0 => some i
  | left + 1 => do
    let c ← t.get i
    if c = newline then some i else lineEndLoop t (i + 1) left

def lineEnd (t : TextEdit) (i : Nat) : Option Nat := lineEndLoop t i (t.len - i)

def totalLines (t : TextEdit) : Option Nat := do
  let ln ← countLines t t.len
  some (ln + 1)

def visLines (t : TextEdit) : Int := if t.h.tdiv lineH < 1 then 1 else t.h.tdiv lineH

/-! ## The buffer -/

/-- `for (int i = len; i > idx; i--) text[i] = text[i - 1]`, over the rounds that are left. -/
def shiftUp (t : TextEdit) (idx : Nat) : Nat → Option TextEdit
  | 0 => some t
  | left + 1 => do
    let c ← t.get (idx + left)
    let t ← t.put (idx + left + 1) c
    shiftUp t idx left

def insertAt (t : TextEdit) (idx : Nat) (c : UInt8) : Option TextEdit :=
  if t.len ≥ maxText - 1 then some t
  else do
    let len := t.len + 1
    let t ← shiftUp t idx (t.len - idx)
    let t ← t.put idx c
    let t ← t.put len 0
    some { t with len := len }

/-- `for (int i = idx; i < len; i++) text[i] = text[i + 1]`, over the rounds that are left. -/
def shiftDown (t : TextEdit) (i : Nat) : Nat → Option TextEdit
  | 0 => some t
  | left + 1 => do
    let c ← t.get (i + 1)
    let t ← t.put i c
    shiftDown t (i + 1) left

def deleteAt (t : TextEdit) (idx : Nat) : Option TextEdit :=
  if idx ≥ t.len then some t
  else do
    let len := t.len - 1
    let t ← shiftDown t idx (t.len - idx)
    let t ← t.put len 0
    some { t with len := len }

/-- The loop of `append`, up to the NUL of the string. -/
def appendLoop (t : TextEdit) : List UInt8 → Option TextEdit
  | [] => some t
  | c :: s =>
    if t.len < maxText - 1 then do
      let len := t.len + 1
      let t ← t.put t.len c
      appendLoop { t with len := len } s
    else some t

/-! ## Scrolling -/

def clampScroll (t : TextEdit) : Option TextEdit := do
  let total ← totalLines t
  let mt := max ((total : Int) - t.visLines) 0
  let top := if t.scrollTop > mt then mt else t.scrollTop
  some { t with scrollTop := if top < 0 then 0 else top }

def ensureCursorVisible (t : TextEdit) : Option TextEdit := do
  let line ← lineAt t t.cur
  clampScroll { t with
    scrollTop :=
      if (line : Int) < t.scrollTop then line
      else if (line : Int) ≥ t.scrollTop + t.visLines then line - t.visLines + 1
      else t.scrollTop }

def append (t : TextEdit) (s : List UInt8) : Option TextEdit := do
  let t ← appendLoop t s
  let t ← t.put t.len 0
  let total ← totalLines t
  clampScroll { t with cur := t.len, scrollTop := total - t.visLines }

def clear (t : TextEdit) : Option TextEdit := { t with len := 0, cur := 0, scrollTop := 0 }.put 0 0

/-- `ui_textedit_set_text`, with the loop of `append`. -/
def setText (t : TextEdit) (s : List UInt8) : Option TextEdit := do
  let t ← appendLoop { t with len := 0 } s
  let t ← t.put t.len 0
  some { t with cur := t.len }

/-! ## Events -/

/-- `while (ln < row && idx < len) { if (text[idx] == '\n') ln++; idx++; }`. -/
def skipLines (t : TextEdit) (row : Int) (idx ln : Nat) : Nat → Option Nat
  | 0 => some idx
  | left + 1 =>
    if (ln : Int) < row then do
      let c ← t.get idx
      skipLines t row (idx + 1) (if c = newline then ln + 1 else ln) left
    else some idx

/-- `while (idx < len && text[idx] != '\n' && c < col) { idx++; c++; }`. -/
def skipColumns (t : TextEdit) (col : Int) (idx c : Nat) : Nat → Option Nat
  | 0 => some idx
  | left + 1 => do
    let ch ← t.get idx
    if ch = newline ∨ ¬ (c : Int) < col then some idx else skipColumns t col (idx + 1) (c + 1) left

def onClick (t : TextEdit) (mx my : Int) : Option TextEdit := do
  let col := max ((mx - t.x - 4).tdiv charW) 0
  let row := (my - t.y).tdiv lineH + t.scrollTop
  let idx ← skipLines t row 0 0 t.len
  let idx ← skipColumns t col idx 0 (t.len - idx)
  ensureCursorVisible { t with cur := idx }

def onScroll (t : TextEdit) (delta : Int) : Option TextEdit :=
  clampScroll { t with scrollTop := t.scrollTop + delta }

/-- A character is inserted at the cursor, which moves behind it. -/
def typeChar (t : TextEdit) (c : UInt8) : Option TextEdit :=
  if t.readonly then some t
  else do
    let t ← insertAt t t.cur c
    some { t with cur := t.cur + 1 }

def backspace (t : TextEdit) : Option TextEdit :=
  if !t.readonly ∧ t.cur > 0 then do
    let t ← deleteAt t (t.cur - 1)
    some { t with cur := t.cur - 1 }
  else some t

def cursorUp (t : TextEdit) : Option TextEdit := do
  let ls ← lineStart t t.cur
  let col := t.cur - ls
  if ls > 0 then do
    let ps ← lineStart t (ls - 1)
    let pe ← lineEnd t ps
    some { t with cur := if ps + col > pe then pe else ps + col }
  else some t

def cursorDown (t : TextEdit) : Option TextEdit := do
  let ls ← lineStart t t.cur
  let col := t.cur - ls
  let le ← lineEnd t t.cur
  if le < t.len then do
    let ns := le + 1
    let ne ← lineEnd t ns
    some { t with cur := if ns + col > ne then ne else ns + col }
  else some t

def lineHome (t : TextEdit) : Option TextEdit := do
  let ls ← lineStart t t.cur
  some { t with cur := ls }

def lineLast (t : TextEdit) : Option TextEdit := do
  let le ← lineEnd t t.cur
  some { t with cur := le }

/-- What a key does without Ctrl, and `none` for the keys that do nothing. -/
def keyEffect (t : TextEdit) (ascii : UInt8) (sc : Nat) : Option (Option TextEdit) :=
  if ascii ≥ 32 then some (typeChar t ascii)
  else if sc = 0x0E then some (backspace t)
  else if ascii = 10 ∨ ascii = 13 ∨ sc = 0x1C then some (typeChar t newline)
  else if sc = 0x4B then some (some { t with cur := t.cur - 1 })
  else if sc = 0x4D then some (some { t with cur := if t.cur < t.len then t.cur + 1 else t.cur })
  else if sc = 0x48 then some (cursorUp t)
  else if sc = 0x50 then some (cursorDown t)
  else if sc = 0x47 then some (lineHome t)
  else if sc = 0x4F then some (lineLast t)
  else if sc = 0x49 then some (clampScroll { t with scrollTop := t.scrollTop - t.visLines })
  else if sc = 0x51 then some (clampScroll { t with scrollTop := t.scrollTop + t.visLines })
  else none

def onKey (t : TextEdit) (ascii : UInt8) (scancode mods : Nat) : Option TextEdit :=
  if mods &&& keyModCtrl ≠ 0 then
    if ascii = 97 ∨ ascii = 65 then lineHome t
    else if ascii = 101 ∨ ascii = 69 then lineLast t
    else some t
  else
    match keyEffect t ascii (scancode % 256) with
    | none => some t
    | some effect => effect.bind ensureCursorVisible

/-! ## Drawing -/

/-- A character as it is painted: its index, and the cell of 8 by 16 pixels. -/
structure Cell where
  index : Nat
  left : Int
  top : Int

/-- The inner loop of `draw`: the columns of a row that are left. -/
def drawRow (t : TextEdit) (top : Int) : Nat → Nat → Int → Option (List Cell × Nat)
  | 0, idx, _ => some ([], idx)
  | columns + 1, idx, left =>
    if idx < t.len then do
      let c ← t.get idx
      if c = newline then some ([], idx)
      else do
        let (cells, idx') ← drawRow t top columns (idx + 1) (left + charW)
        some (⟨idx, left, top⟩ :: cells, idx')
    else some ([], idx)

/-- The newline at which a row has ended. -/
def skipNewline (t : TextEdit) (idx : Nat) : Option Nat :=
  if idx < t.len then do
    let c ← t.get idx
    some (if c = newline then idx + 1 else idx)
  else some idx

/-- The outer loop of `draw`, which makes at most one round for each 16 pixels of the height. -/
def drawRows (t : TextEdit) (columns : Nat) : Nat → Nat → Int → Option (List Cell)
  | 0, _, _ => some []
  | rounds + 1, idx, top =>
    if top < t.y + t.h ∧ idx < t.len then do
      let (cells, idx) ← drawRow t top columns idx (t.x + 4)
      let idx ← skipNewline t idx
      let rest ← drawRows t columns rounds idx (top + lineH)
      some (cells ++ rest)
    else some []

/-- The left and the top of the caret. -/
def drawCaret (t : TextEdit) : Option (Option (Int × Int)) :=
  if t.hasFocus then do
    let line ← lineAt t t.cur
    let crow : Int := line - t.scrollTop
    if crow * lineH < t.h then do
      let ls ← lineStart t t.cur
      let cx := t.x + 4 + ((t.cur : Int) - ls) * charW
      some (some (if cx ≥ t.x + t.w then t.x + t.w - 1 else cx, t.y + crow * lineH))
    else some none
  else some none

structure Drawing where
  cells : List Cell
  caret : Option (Int × Int)

/-- The widget afterwards, and what has been painted. -/
def draw (t : TextEdit) : Option (TextEdit × Drawing) := do
  let t ← clampScroll t
  let columns := ((t.w - 8).tdiv charW).toNat
  let idx ← skipLines t t.scrollTop 0 0 t.len
  let cells ← drawRows t columns ((t.h + 15) / 16).toNat idx t.y
  let caret ← drawCaret t
  some (t, ⟨cells, caret⟩)

/-! ## What happens to the widget -/

inductive Op
  | key (ascii : UInt8) (scancode mods : Nat)
  | click (mx my : Int)
  | scroll (delta : Int)
  | append (s : List UInt8)
  | clear
  | setText (s : List UInt8)
  | draw
  | place (x y w h : Int)
  | focus (on : Bool)
  | setReadonly (on : Bool)

/-- `none` when an index is outside of the array. -/
def step (t : TextEdit) : Op → Option TextEdit
  | .key ascii scancode mods => onKey t ascii scancode mods
  | .click mx my => onClick t mx my
  | .scroll delta => onScroll t delta
  | .append s => append t s
  | .clear => clear t
  | .setText s => setText t s
  | .draw => (draw t).map Prod.fst
  | .place x y w h => some { t with x := x, y := y, w := w, h := h }
  | .focus on => some { t with hasFocus := on }
  | .setReadonly on => some { t with readonly := on }

/-- `TextEdit(width, height)`, over whatever is in the array. -/
def create (width height : Int) (text : Nat → UInt8) : TextEdit where
  x := 0
  y := 0
  w := width
  h := height
  hasFocus := false
  text := Function.update text 0 0
  len := 0
  cur := 0
  scrollTop := 0
  readonly := false

/-- The widget after the first `n` operations. -/
def runTo (t : TextEdit) (ops : List Op) (n : Nat) : Option TextEdit := (ops.take n).foldlM step t

/-! ## The accesses stay inside -/

variable {t : TextEdit} {i n idx : Nat}

theorem get_eq (h : i < maxText) : t.get i = some (t.text i) := if_pos h

theorem put_eq (c : UInt8) (h : i < maxText) :
    t.put i c = some { t with text := Function.update t.text i c } := if_pos h

theorem countLines_some (h : n ≤ maxText) : ∃ ln, countLines t n = some ln := by
  induction n with
  | zero => exact ⟨0, rfl⟩
  | succ n ih =>
    obtain ⟨ln, hln⟩ := ih (by omega)
    refine ⟨if t.text n = newline then ln + 1 else ln, ?_⟩
    rw [countLines, hln, get_eq (by omega)]
    rfl

theorem lineStart_some (h : i ≤ maxText) : ∃ j ≤ i, lineStart t i = some j := by
  induction i with
  | zero => exact ⟨0, le_rfl, rfl⟩
  | succ i ih =>
    obtain ⟨j, hj, hstart⟩ := ih (by omega)
    rw [lineStart, get_eq (by omega)]
    by_cases hc : t.text i = newline
    · exact ⟨i + 1, le_rfl, by simp [hc]⟩
    · exact ⟨j, by omega, by simp [hc, hstart]⟩

theorem lineEndLoop_some (i left : Nat) (h : i + left ≤ maxText) :
    ∃ j, lineEndLoop t i left = some j ∧ i ≤ j ∧ j ≤ i + left := by
  induction left generalizing i with
  | zero => exact ⟨i, rfl, le_rfl, le_rfl⟩
  | succ left ih =>
    obtain ⟨j, hend, hij, hj⟩ := ih (i + 1) (by omega)
    rw [lineEndLoop, get_eq (by omega)]
    by_cases hc : t.text i = newline
    · exact ⟨i, by simp [hc], le_rfl, by omega⟩
    · exact ⟨j, by simp [hc, hend], by omega, by omega⟩

theorem lineEnd_some (hi : i ≤ t.len) (h : t.len ≤ maxText) :
    ∃ j, lineEnd t i = some j ∧ i ≤ j ∧ j ≤ t.len := by
  obtain ⟨j, hend, hij, hj⟩ := lineEndLoop_some (t := t) i (t.len - i) (by omega)
  exact ⟨j, hend, hij, by omega⟩

theorem clampScroll_some (h : t.len ≤ maxText) :
    ∃ top, clampScroll t = some { t with scrollTop := top } := by
  obtain ⟨ln, hln⟩ := countLines_some (t := t) h
  have hclamp : ∀ u : Int, ∃ top, (some { t with scrollTop := u } : Option TextEdit) =
      some { t with scrollTop := top } := fun u => ⟨u, rfl⟩
  rw [clampScroll, totalLines, hln]
  exact hclamp _

theorem ensureCursorVisible_some (h : t.len ≤ maxText) :
    ∃ top, ensureCursorVisible t = some { t with scrollTop := top } := by
  obtain ⟨ln, hln⟩ := countLines_some (t := t) (n := min t.cur t.len) (by omega)
  obtain ⟨top, htop⟩ := clampScroll_some (t := { t with
    scrollTop :=
      if (ln : Int) < t.scrollTop then ln
      else if (ln : Int) ≥ t.scrollTop + t.visLines then ln - t.visLines + 1
      else t.scrollTop }) h
  refine ⟨top, ?_⟩
  rw [ensureCursorVisible, lineAt, hln]
  exact htop

theorem shiftUp_some (idx left : Nat) (h : idx + left < maxText) :
    ∃ f, shiftUp t idx left = some { t with text := f } := by
  induction left generalizing t with
  | zero => exact ⟨t.text, rfl⟩
  | succ left ih =>
    obtain ⟨f, hf⟩ := ih (t := { t with
      text := Function.update t.text (idx + left + 1) (t.text (idx + left)) }) (by omega)
    refine ⟨f, ?_⟩
    rw [shiftUp, get_eq (by omega), Option.bind_eq_bind, Option.bind_some, put_eq _ (by omega)]
    exact hf

theorem insertAt_some (c : UInt8) (hidx : idx ≤ t.len) (h : t.len < maxText - 1) :
    ∃ f, insertAt t idx c = some { t with text := f, len := t.len + 1 } ∧ f (t.len + 1) = 0 := by
  have hmax : maxText = 8192 := rfl
  obtain ⟨f, hf⟩ := shiftUp_some (t := t) idx (t.len - idx) (by omega)
  refine ⟨Function.update (Function.update f idx c) (t.len + 1) 0, ?_, Function.update_self ..⟩
  rw [insertAt, if_neg (by omega), hf]
  simp only [Option.bind_eq_bind, Option.bind_some]
  rw [put_eq _ (by omega), Option.bind_some, put_eq _ (by omega)]
  rfl

theorem shiftDown_some (i left : Nat) (h : i + left < maxText) :
    ∃ f, shiftDown t i left = some { t with text := f } := by
  induction left generalizing t i with
  | zero => exact ⟨t.text, rfl⟩
  | succ left ih =>
    obtain ⟨f, hf⟩ := ih (t := { t with text := Function.update t.text i (t.text (i + 1)) })
      (i + 1) (by omega)
    refine ⟨f, ?_⟩
    rw [shiftDown, get_eq (by omega), Option.bind_eq_bind, Option.bind_some, put_eq _ (by omega)]
    exact hf

theorem deleteAt_some (idx : Nat) (hidx : idx < t.len) (h : t.len < maxText) :
    ∃ f, deleteAt t idx = some { t with text := f, len := t.len - 1 } ∧ f (t.len - 1) = 0 := by
  obtain ⟨f, hf⟩ := shiftDown_some (t := t) idx (t.len - idx) (by omega)
  refine ⟨Function.update f (t.len - 1) 0, ?_, Function.update_self ..⟩
  rw [deleteAt, if_neg (by omega), hf, Option.bind_eq_bind, Option.bind_some, put_eq _ (by omega)]
  rfl

theorem appendLoop_some {s : List UInt8} (h : t.len < maxText) :
    ∃ f, appendLoop t s =
      some { t with text := f, len := min (t.len + s.length) (maxText - 1) } := by
  have hmax : maxText = 8192 := rfl
  induction s generalizing t with
  | nil =>
    refine ⟨t.text, ?_⟩
    have hlen : min (t.len + ([] : List UInt8).length) (maxText - 1) = t.len := by
      rw [List.length_nil]
      omega
    rw [hlen]
    rfl
  | cons c s ih =>
    rw [appendLoop]
    by_cases hroom : t.len < maxText - 1
    · obtain ⟨f, hf⟩ := ih (t := { t with
        text := Function.update t.text t.len c
        len := t.len + 1 }) (by simp only; omega)
      refine ⟨f, ?_⟩
      rw [if_pos hroom, put_eq _ h, Option.bind_eq_bind, Option.bind_some, hf]
      have hlen : min (t.len + 1 + s.length) (maxText - 1) =
          min (t.len + (c :: s).length) (maxText - 1) := by
        rw [List.length_cons]
        omega
      simp only [hlen]
    · refine ⟨t.text, ?_⟩
      have hlen : min (t.len + (c :: s).length) (maxText - 1) = t.len := by
        rw [List.length_cons]
        omega
      rw [if_neg hroom, hlen]

theorem skipLines_some (row : Int) (idx ln left : Nat) (h : idx + left ≤ maxText) :
    ∃ j, skipLines t row idx ln left = some j ∧ idx ≤ j ∧ j ≤ idx + left := by
  induction left generalizing idx ln with
  | zero => exact ⟨idx, rfl, le_rfl, le_rfl⟩
  | succ left ih =>
    rw [skipLines]
    by_cases hrow : (ln : Int) < row
    · obtain ⟨j, hj, hle, hlt⟩ := ih (idx + 1)
        (if t.text idx = newline then ln + 1 else ln) (by omega)
      refine ⟨j, ?_, by omega, by omega⟩
      rw [if_pos hrow, get_eq (by omega)]
      exact hj
    · exact ⟨idx, if_neg hrow, le_rfl, by omega⟩

theorem skipColumns_some (col : Int) (idx c left : Nat) (h : idx + left ≤ maxText) :
    ∃ j, skipColumns t col idx c left = some j ∧ idx ≤ j ∧ j ≤ idx + left := by
  induction left generalizing idx c with
  | zero => exact ⟨idx, rfl, le_rfl, le_rfl⟩
  | succ left ih =>
    rw [skipColumns, get_eq (by omega), Option.bind_eq_bind, Option.bind_some]
    by_cases hstop : t.text idx = newline ∨ ¬ (c : Int) < col
    · exact ⟨idx, if_pos hstop, le_rfl, by omega⟩
    · obtain ⟨j, hj, hle, hlt⟩ := ih (idx + 1) (c + 1) (by omega)
      exact ⟨j, by rw [if_neg hstop, hj], by omega, by omega⟩

theorem drawRow_some (top : Int) (columns idx : Nat) (left : Int) (h : t.len ≤ maxText) :
    ∃ r, drawRow t top columns idx left = some r := by
  induction columns generalizing idx left with
  | zero => exact ⟨([], idx), rfl⟩
  | succ columns ih =>
    rw [drawRow]
    by_cases hidx : idx < t.len
    · obtain ⟨r, hr⟩ := ih (idx + 1) (left + charW)
      rw [if_pos hidx, get_eq (by omega), Option.bind_eq_bind, Option.bind_some]
      by_cases hc : t.text idx = newline
      · exact ⟨([], idx), if_pos hc⟩
      · refine ⟨(⟨idx, left, top⟩ :: r.1, r.2), ?_⟩
        rw [if_neg hc, hr]
        rfl
    · exact ⟨([], idx), if_neg hidx⟩

theorem skipNewline_some (idx : Nat) (h : t.len ≤ maxText) : ∃ j, skipNewline t idx = some j := by
  rw [skipNewline]
  by_cases hidx : idx < t.len
  · refine ⟨if t.text idx = newline then idx + 1 else idx, ?_⟩
    rw [if_pos hidx, get_eq (by omega)]
    rfl
  · exact ⟨idx, if_neg hidx⟩

theorem drawRows_some (columns rounds idx : Nat) (top : Int) (h : t.len ≤ maxText) :
    ∃ cells, drawRows t columns rounds idx top = some cells := by
  induction rounds generalizing idx top with
  | zero => exact ⟨[], rfl⟩
  | succ rounds ih =>
    rw [drawRows]
    by_cases hin : top < t.y + t.h ∧ idx < t.len
    · obtain ⟨r, hr⟩ := drawRow_some (t := t) top columns idx (t.x + 4) h
      obtain ⟨j, hj⟩ := skipNewline_some (t := t) r.2 h
      obtain ⟨rest, hrest⟩ := ih j (top + lineH)
      refine ⟨r.1 ++ rest, ?_⟩
      rw [if_pos hin, hr]
      simp only [Option.bind_eq_bind, Option.bind_some, hj, hrest]
    · exact ⟨[], if_neg hin⟩

/-! ## The cursor -/

structure Cursor (t : TextEdit) : Prop where
  cur : t.cur ≤ t.len
  len : t.len ≤ maxText - 1
  nul : t.text t.len = 0

/-- The operation stays inside the array and keeps the cursor. -/
def Keeps (r : Option TextEdit) : Prop := ∃ t', r = some t' ∧ Cursor t'

theorem Cursor.len_le (h : Cursor t) : t.len ≤ maxText := by
  have hmax : maxText = 8192 := rfl
  have := h.len
  omega

theorem Cursor.moved (h : Cursor t) {cur : Nat} (hcur : cur ≤ t.len) :
    Cursor { t with cur := cur } := ⟨hcur, h.len, h.nul⟩

theorem Cursor.scrolled (h : Cursor t) (top : Int) : Cursor { t with scrollTop := top } :=
  ⟨h.cur, h.len, h.nul⟩

theorem Cursor.clampScroll (h : Cursor t) : Keeps (clampScroll t) := by
  obtain ⟨top, htop⟩ := clampScroll_some h.len_le
  exact ⟨_, htop, h.cur, h.len, h.nul⟩

theorem Cursor.ensureCursorVisible (h : Cursor t) : Keeps (ensureCursorVisible t) := by
  obtain ⟨top, htop⟩ := ensureCursorVisible_some h.len_le
  exact ⟨_, htop, h.cur, h.len, h.nul⟩

theorem Keeps.ensureCursorVisible {r : Option TextEdit} (h : Keeps r) :
    Keeps (r.bind TextEdit.ensureCursorVisible) := by
  obtain ⟨t', rfl, hcursor⟩ := h
  exact hcursor.ensureCursorVisible

/-- Inserting keeps the cursor, unless it is at the end of a full buffer. -/
theorem Cursor.typeChar (h : Cursor t) (c : UInt8)
    (hroom : t.readonly = false → t.len = maxText - 1 → t.cur < t.len) :
    Keeps (typeChar t c) := by
  rw [TextEdit.typeChar]
  by_cases hro : t.readonly = true
  · rw [if_pos hro]
    exact ⟨t, rfl, h⟩
  · rw [if_neg hro]
    have hlen := h.len
    by_cases hfull : t.len = maxText - 1
    · have hlt := hroom (Bool.eq_false_iff.mpr hro) hfull
      rw [insertAt, if_pos hfull.ge]
      exact ⟨_, rfl, h.moved hlt⟩
    · obtain ⟨f, hf, hnul⟩ := insertAt_some c h.cur (by omega)
      rw [hf]
      have hcur := h.cur
      have hle : t.len + 1 ≤ maxText - 1 := by omega
      exact ⟨_, rfl, Nat.succ_le_succ hcur, hle, hnul⟩

theorem Cursor.backspace (h : Cursor t) : Keeps (backspace t) := by
  rw [TextEdit.backspace]
  split
  · rename_i hcond
    have hcur := h.cur
    have hlen := h.len
    have hmax : maxText = 8192 := rfl
    obtain ⟨f, hf, hnul⟩ := deleteAt_some (t := t) (t.cur - 1) (by omega) (by omega)
    rw [hf]
    have hcur' : t.cur - 1 ≤ t.len - 1 := by omega
    have hlen' : t.len - 1 ≤ maxText - 1 := by omega
    exact ⟨_, rfl, hcur', hlen', hnul⟩
  · exact ⟨t, rfl, h⟩

theorem Cursor.lineHome (h : Cursor t) : Keeps (lineHome t) := by
  have hcur := h.cur
  have hle := h.len_le
  obtain ⟨ls, hls, hstart⟩ := lineStart_some (t := t) (i := t.cur) (by omega)
  rw [TextEdit.lineHome, hstart]
  exact ⟨_, rfl, h.moved (hls.trans hcur)⟩

theorem Cursor.lineLast (h : Cursor t) : Keeps (lineLast t) := by
  obtain ⟨le, hend, _, hle⟩ := lineEnd_some h.cur h.len_le
  rw [TextEdit.lineLast, hend]
  exact ⟨_, rfl, h.moved hle⟩

theorem Cursor.cursorUp (h : Cursor t) : Keeps (cursorUp t) := by
  have hcur := h.cur
  have hlen := h.len_le
  obtain ⟨ls, hls, hstart⟩ := lineStart_some (t := t) (i := t.cur) (by omega)
  rw [TextEdit.cursorUp, hstart]
  by_cases hpos : ls > 0
  · obtain ⟨ps, hps, hprev⟩ := lineStart_some (t := t) (i := ls - 1) (by omega)
    obtain ⟨pe, hend, _, hpe⟩ := lineEnd_some (t := t) (i := ps) (by omega) hlen
    simp only [Option.bind_eq_bind, Option.bind_some, if_pos hpos, hprev, hend]
    refine ⟨_, rfl, h.moved ?_⟩
    split <;> omega
  · simp only [Option.bind_eq_bind, Option.bind_some, if_neg hpos]
    exact ⟨t, rfl, h⟩

theorem Cursor.cursorDown (h : Cursor t) : Keeps (cursorDown t) := by
  have hcur := h.cur
  have hlen := h.len_le
  obtain ⟨ls, hls, hstart⟩ := lineStart_some (t := t) (i := t.cur) (by omega)
  obtain ⟨le, hend, _, hle⟩ := lineEnd_some hcur hlen
  rw [TextEdit.cursorDown, hstart]
  by_cases hnext : le < t.len
  · obtain ⟨ne, hne, _, hnele⟩ := lineEnd_some (t := t) (i := le + 1) (by omega) hlen
    simp only [Option.bind_eq_bind, Option.bind_some, hend, if_pos hnext, hne]
    refine ⟨_, rfl, h.moved ?_⟩
    split <;> omega
  · simp only [Option.bind_eq_bind, Option.bind_some, hend, if_neg hnext]
    exact ⟨t, rfl, h⟩

/-- A key that inserts a character. -/
def Inserts (ascii : UInt8) (scancode mods : Nat) : Prop :=
  mods &&& keyModCtrl = 0 ∧
    (ascii ≥ 32 ∨ scancode % 256 ≠ 0x0E ∧ (ascii = 10 ∨ ascii = 13 ∨ scancode % 256 = 0x1C))

/-- A key inserts a character at the end of a full buffer. -/
def Overruns (t : TextEdit) (op : Op) : Prop :=
  ∃ ascii scancode mods, op = .key ascii scancode mods ∧ Inserts ascii scancode mods ∧
    t.readonly = false ∧ t.len = maxText - 1 ∧ t.cur = t.len

theorem Cursor.onKey (h : Cursor t) (ascii : UInt8) (scancode mods : Nat)
    (hroom : ¬ Overruns t (.key ascii scancode mods)) : Keeps (onKey t ascii scancode mods) := by
  have htype : ∀ c, Inserts ascii scancode mods → Keeps (TextEdit.typeChar t c) := by
    refine fun c hins => h.typeChar c fun hro hfull => ?_
    have hcur := h.cur
    by_contra hlt
    exact hroom ⟨ascii, scancode, mods, rfl, hins, hro, hfull, by omega⟩
  have hcur := h.cur
  rw [TextEdit.onKey]
  by_cases hctrl : mods &&& keyModCtrl ≠ 0
  · rw [if_pos hctrl]
    split
    · exact h.lineHome
    · split
      · exact h.lineLast
      · exact ⟨t, rfl, h⟩
  · rw [if_neg hctrl]
    rw [ne_eq, not_not] at hctrl
    unfold keyEffect
    by_cases hprint : ascii ≥ 32
    · rw [if_pos hprint]
      exact (htype _ ⟨hctrl, Or.inl hprint⟩).ensureCursorVisible
    rw [if_neg hprint]
    by_cases hback : scancode % 256 = 0x0E
    · rw [if_pos hback]
      exact h.backspace.ensureCursorVisible
    rw [if_neg hback]
    by_cases henter : ascii = 10 ∨ ascii = 13 ∨ scancode % 256 = 0x1C
    · rw [if_pos henter]
      exact (htype _ ⟨hctrl, Or.inr ⟨hback, henter⟩⟩).ensureCursorVisible
    rw [if_neg henter]
    by_cases hleft : scancode % 256 = 0x4B
    · rw [if_pos hleft]
      exact (h.moved ((Nat.sub_le _ _).trans hcur)).ensureCursorVisible
    rw [if_neg hleft]
    by_cases hright : scancode % 256 = 0x4D
    · rw [if_pos hright]
      refine (h.moved ?_).ensureCursorVisible
      split <;> omega
    rw [if_neg hright]
    by_cases hup : scancode % 256 = 0x48
    · rw [if_pos hup]
      exact h.cursorUp.ensureCursorVisible
    rw [if_neg hup]
    by_cases hdown : scancode % 256 = 0x50
    · rw [if_pos hdown]
      exact h.cursorDown.ensureCursorVisible
    rw [if_neg hdown]
    by_cases hhome : scancode % 256 = 0x47
    · rw [if_pos hhome]
      exact h.lineHome.ensureCursorVisible
    rw [if_neg hhome]
    by_cases hend : scancode % 256 = 0x4F
    · rw [if_pos hend]
      exact h.lineLast.ensureCursorVisible
    rw [if_neg hend]
    by_cases hpgup : scancode % 256 = 0x49
    · rw [if_pos hpgup]
      exact (h.scrolled (t.scrollTop - t.visLines)).clampScroll.ensureCursorVisible
    rw [if_neg hpgup]
    by_cases hpgdn : scancode % 256 = 0x51
    · rw [if_pos hpgdn]
      exact (h.scrolled (t.scrollTop + t.visLines)).clampScroll.ensureCursorVisible
    rw [if_neg hpgdn]
    exact ⟨t, rfl, h⟩

theorem Cursor.onClick (h : Cursor t) (mx my : Int) : Keeps (onClick t mx my) := by
  have hlen := h.len_le
  obtain ⟨idx, hrow, _, hle⟩ := skipLines_some (t := t) ((my - t.y).tdiv lineH + t.scrollTop) 0 0
    t.len (by omega)
  obtain ⟨j, hcol, _, hj⟩ := skipColumns_some (t := t) (max ((mx - t.x - 4).tdiv charW) 0) idx 0
    (t.len - idx) (by omega)
  rw [TextEdit.onClick]
  simp only [Option.bind_eq_bind, Option.bind_some, hrow, hcol]
  exact (h.moved (by omega)).ensureCursorVisible

/-- `append` fills the buffer as far as there is room and puts the cursor at its end. -/
theorem append_eq (h : Cursor t) (s : List UInt8) :
    ∃ f top, append t s = some { t with
        text := f
        len := min (t.len + s.length) (maxText - 1)
        cur := min (t.len + s.length) (maxText - 1)
        scrollTop := top } ∧ f (min (t.len + s.length) (maxText - 1)) = 0 := by
  have hmax : maxText = 8192 := rfl
  have hlen := h.len
  obtain ⟨f, hf⟩ := appendLoop_some (t := t) (s := s) (by omega)
  generalize hl : min (t.len + s.length) (maxText - 1) = l at hf ⊢
  obtain ⟨ln, hln⟩ := countLines_some (t := { t with text := Function.update f l 0, len := l })
    (n := l) (by omega)
  obtain ⟨top, htop⟩ := clampScroll_some (t := { t with
    text := Function.update f l 0
    len := l
    cur := l
    scrollTop := ((ln + 1 : Nat) : Int) - t.visLines }) (show l ≤ maxText by omega)
  refine ⟨Function.update f l 0, top, ?_, Function.update_self ..⟩
  rw [TextEdit.append, hf]
  simp only [Option.bind_eq_bind, Option.bind_some, put_eq _ (show l < maxText by omega),
    totalLines, hln]
  exact htop

theorem Cursor.append (h : Cursor t) (s : List UInt8) : Keeps (append t s) := by
  obtain ⟨f, top, hf, hnul⟩ := append_eq h s
  exact ⟨_, hf, le_rfl, Nat.min_le_right _ _, hnul⟩

theorem Cursor.setText (_ : Cursor t) (s : List UInt8) : Keeps (setText t s) := by
  have hmax : maxText = 8192 := rfl
  obtain ⟨f, hf⟩ := appendLoop_some (t := { t with len := 0 }) (s := s) (show 0 < maxText by omega)
  generalize hl : min (0 + s.length) (maxText - 1) = l at hf
  have hle : l ≤ maxText - 1 := by omega
  rw [TextEdit.setText, hf]
  simp only [Option.bind_eq_bind, Option.bind_some, put_eq _ (show l < maxText by omega)]
  exact ⟨_, rfl, le_rfl, hle, Function.update_self ..⟩

theorem drawCaret_some (hcur : t.cur ≤ t.len) (hlen : t.len ≤ maxText) :
    ∃ caret, drawCaret t = some caret := by
  obtain ⟨ln, hln⟩ := countLines_some (t := t) (n := min t.cur t.len) (by omega)
  obtain ⟨ls, _, hls⟩ := lineStart_some (t := t) (i := t.cur) (by omega)
  rw [drawCaret, lineAt, hln]
  simp only [Option.bind_eq_bind, Option.bind_some, hls]
  split
  · split
    · exact ⟨_, rfl⟩
    · exact ⟨_, rfl⟩
  · exact ⟨_, rfl⟩

theorem Cursor.draw (h : Cursor t) : Keeps ((draw t).map Prod.fst) := by
  obtain ⟨u, hclamp, hu⟩ := h.clampScroll
  have hlen := hu.len_le
  obtain ⟨idx, hidx, _, _⟩ := skipLines_some (t := u) u.scrollTop 0 0 u.len (by omega)
  obtain ⟨cells, hcells⟩ := drawRows_some (t := u) ((u.w - 8).tdiv charW).toNat
    ((u.h + 15) / 16).toNat idx u.y hlen
  obtain ⟨caret, hcaret⟩ := drawCaret_some hu.cur hlen
  rw [TextEdit.draw, hclamp]
  simp only [Option.bind_eq_bind, Option.bind_some, hidx, hcells, hcaret]
  exact ⟨u, rfl, hu⟩

/-- The step lemma. -/
theorem Cursor.step (h : Cursor t) {op : Op} (hop : ¬ Overruns t op) : Keeps (step t op) := by
  have hmax : maxText = 8192 := rfl
  cases op with
  | key ascii scancode mods => exact h.onKey ascii scancode mods hop
  | click mx my => exact h.onClick mx my
  | scroll delta => exact (h.scrolled (t.scrollTop + delta)).clampScroll
  | append s => exact h.append s
  | clear => exact ⟨_, put_eq 0 (show 0 < maxText by omega), le_rfl, Nat.zero_le _, rfl⟩
  | setText s => exact h.setText s
  | draw => exact h.draw
  | place x y w h' => exact ⟨_, rfl, h.cur, h.len, h.nul⟩
  | focus on => exact ⟨_, rfl, h.cur, h.len, h.nul⟩
  | setReadonly on => exact ⟨_, rfl, h.cur, h.len, h.nul⟩

/-- At the end of a full buffer the cursor moves, and the text does not grow. -/
theorem overruns_step (h : Cursor t) {op : Op} (hop : Overruns t op) :
    ∃ t', step t op = some t' ∧ t'.cur = t'.len + 1 := by
  obtain ⟨ascii, scancode, mods, rfl, ⟨hctrl, hkey⟩, hro, hfull, hcur⟩ := hop
  have htype : ∀ c, TextEdit.typeChar t c = some { t with cur := t.cur + 1 } := by
    intro c
    rw [TextEdit.typeChar, if_neg (by rw [hro]; exact Bool.false_ne_true), insertAt,
      if_pos hfull.ge]
    rfl
  obtain ⟨top, htop⟩ := ensureCursorVisible_some (t := { t with cur := t.cur + 1 }) h.len_le
  have hstep : step t (.key ascii scancode mods) = some { t with
      cur := t.cur + 1
      scrollTop := top } := by
    rw [step, TextEdit.onKey, if_neg (by rw [hctrl]; exact fun hne => hne rfl), keyEffect]
    by_cases hprint : ascii ≥ 32
    · simp only [if_pos hprint, htype, Option.bind_some, htop]
    · have hkey := hkey.resolve_left hprint
      simp only [if_neg hprint, if_neg hkey.1, if_pos hkey.2, htype, Option.bind_some, htop]
  refine ⟨_, hstep, ?_⟩
  show t.cur + 1 = t.len + 1
  rw [hcur]

/-! ## Every run -/

theorem runTo_zero (ops : List Op) : runTo t ops 0 = some t := by
  rw [runTo, List.take_zero]
  rfl

theorem runTo_succ {ops : List Op} {op : Op} (hop : ops[n]? = some op) :
    runTo t ops (n + 1) = (runTo t ops n).bind fun u => step u op := by
  rw [runTo, List.take_add_one, hop, Option.toList_some, List.foldlM_append]
  simp [runTo]

theorem runTo_succ_none {ops : List Op} (hop : ops[n]? = none) :
    runTo t ops (n + 1) = runTo t ops n := by
  rw [runTo, List.take_add_one, hop, Option.toList_none, List.append_nil, runTo]

theorem cursor_create (width height : Int) (text : Nat → UInt8) :
    Cursor (create width height text) := ⟨le_rfl, Nat.zero_le _, rfl⟩

/-- In every run of a new widget, all accesses are inside the array and the cursor stays within
the text in every state, if and only if no key inserts a character at the end of a full buffer. -/
theorem cursor_kept (width height : Int) (text : Nat → UInt8) (ops : List Op) :
    (∀ n, Keeps (runTo (create width height text) ops n)) ↔
      ∀ n u op, runTo (create width height text) ops n = some u → ops[n]? = some op →
        ¬ Overruns u op := by
  constructor
  · intro hkeeps n u op hu hop hover
    obtain ⟨u', hu', hcursor⟩ := hkeeps n
    rw [hu, Option.some_inj] at hu'
    subst hu'
    obtain ⟨v, hstep, hcur⟩ := overruns_step hcursor hover
    obtain ⟨v', hv', hcursor'⟩ := hkeeps (n + 1)
    rw [runTo_succ hop, hu, Option.bind_some, hstep, Option.some_inj] at hv'
    subst hv'
    have := hcursor'.cur
    omega
  · intro hroom n
    induction n with
    | zero => exact ⟨_, runTo_zero ops, cursor_create width height text⟩
    | succ n ih =>
      obtain ⟨u, hu, hcursor⟩ := ih
      cases hop : ops[n]? with
      | none => exact ⟨u, (runTo_succ_none hop).trans hu, hcursor⟩
      | some op =>
        rw [runTo_succ hop, hu]
        exact hcursor.step (hroom n u op hu hop)

/-- A text that fills the buffer, and one more key. -/
def oneTooMany (s : List UInt8) : List Op := [.append s, .key 98 0 0]

theorem oneTooMany_overruns {s : List UInt8} (hs : s.length = 8191) :
    ¬ ∀ n, Keeps (runTo (create 100 100 fun _ => 0) (oneTooMany s) n) := by
  intro h
  obtain ⟨f, top, hf, hnul⟩ := append_eq (cursor_create 100 100 fun _ => 0) s
  obtain ⟨u, hu, hcursor⟩ := h 1
  have happend : (oneTooMany s)[0]? = some (.append s) := rfl
  have hkey : (oneTooMany s)[1]? = some (.key 98 0 0) := rfl
  have hrun := hu
  rw [runTo_succ happend, runTo_zero, Option.bind_some, step, hf, Option.some_inj] at hrun
  have hlen : u.len = maxText - 1 ∧ u.cur = u.len ∧ u.readonly = false := by
    have hmax : maxText = 8192 := rfl
    have hmin : min (0 + s.length) (maxText - 1) = maxText - 1 := by omega
    rw [← hrun]
    exact ⟨hmin, rfl, rfl⟩
  have hover : Overruns u (.key 98 0 0) :=
    ⟨98, 0, 0, rfl, ⟨rfl, Or.inl (by decide)⟩, hlen.2.2, hlen.1, hlen.2.1⟩
  obtain ⟨v, hv, hcur⟩ := overruns_step hcursor hover
  obtain ⟨v', hv', hcursor'⟩ := h 2
  rw [runTo_succ hkey, hu, Option.bind_some, hv, Option.some_inj] at hv'
  subst hv'
  have := hcursor'.cur
  omega

theorem cursor_overrun : ¬ ∀ ops n, Keeps (runTo (create 100 100 fun _ => 0) ops n) := fun h =>
  oneTooMany_overruns List.length_replicate (h (oneTooMany (List.replicate 8191 97)))

end TextEdit

end Kyuzen.Ui
