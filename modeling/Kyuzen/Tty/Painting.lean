import Kyuzen.Lib.Writes
import Kyuzen.Tty.Model

/-!
# What the drawing functions paint

A canvas shows a grid of texts, one for each row of the screen (`Shows`). The functions of the
terminal that draw change the grid: a glyph adds a character to a text, a cleared cell takes the
last one away, and scrolling drops the first text.
-/

namespace Kyuzen.Tty

open Lib

variable {s : Screen} {px : Canvas} {p : Nat × Nat} {color : Color}

/-! ## Pixels -/

namespace Screen

def Has (s : Screen) (p : Nat × Nat) : Prop := p.1 < s.width ∧ p.2 < s.height

instance (s : Screen) (p : Nat × Nat) : Decidable (s.Has p) := inferInstanceAs (Decidable (_ ∧ _))

/-- The glyph covers the point. -/
def inked (s : Screen) (c : UInt8) (row col : Nat) : Bool := !decide (127 < c) && s.glyphBit c row col

theorem drawRect_apply (x y width height : Nat) (hp : s.Has p) :
    s.drawRect x y width height color px p =
      if (x ≤ p.1 ∧ p.1 < x + width) ∧ y ≤ p.2 ∧ p.2 < y + height then color else px p := by
  obtain ⟨h1, h2⟩ := hp
  have hloop := foldl_writes₂ (g := fun _ => color) (W := fun row col p => p = (x + col, y + row))
    (f := fun row col px => Function.update px (x + col, y + row) color)
    (List.range (min (y + height) s.height - y)) (List.range (min (x + width) s.width - x))
    (fun _ _ _ _ hw => by rw [hw, Function.update_self])
    (fun _ _ _ _ hw => Function.update_of_ne hw _ _) px p
  unfold drawRect
  split_ifs with hin
  · refine hloop.1 ⟨p.2 - y, List.mem_range.mpr ?_, p.1 - x, List.mem_range.mpr ?_, ?_⟩
    · omega
    · omega
    · ext
      · show p.1 = x + (p.1 - x)
        omega
      · show p.2 = y + (p.2 - y)
        omega
  · refine hloop.2 ?_
    rintro ⟨row, hrow, col, hcol, rfl⟩
    have h3 := List.mem_range.mp hrow
    have h4 := List.mem_range.mp hcol
    exact hin ⟨⟨by dsimp only; omega, by dsimp only; omega⟩, by dsimp only; omega,
      by dsimp only; omega⟩

theorem put_apply (x y : Nat) : s.put x y color px p =
    if p = (x, y) ∧ s.Has p then color else px p := by
  unfold put
  split_ifs with hout heq heq
  · obtain ⟨rfl, h1, h2⟩ := heq
    dsimp only at h1 h2
    omega
  · rfl
  · rw [heq.1, Function.update_self]
  · refine Function.update_of_ne (fun hp => heq ⟨hp, ?_⟩) _ _
    subst hp
    exact ⟨by dsimp only; omega, by dsimp only; omega⟩

theorem drawChar_apply (c : UInt8) (x y : Nat) (hp : s.Has p) :
    s.drawChar c x y color px p =
      if ((x ≤ p.1 ∧ p.1 < x + 8) ∧ y ≤ p.2 ∧ p.2 < y + 16) ∧ s.inked c (p.2 - y) (p.1 - x) then
        color
      else px p := by
  unfold drawChar
  by_cases hc : 127 < c
  · rw [if_pos hc, if_neg]
    rintro ⟨_, hink⟩
    simp [inked, hc] at hink
  · have hinked : ∀ row col, s.inked c row col = s.glyphBit c row col := fun row col => by
      simp [inked, hc]
    rw [if_neg hc, hinked]
    have hloop := foldl_writes₂ (g := fun _ => color)
      (W := fun row col q => s.glyphBit c row col ∧ q = (x + col, y + row) ∧ s.Has q)
      (f := fun row col px =>
        if s.glyphBit c row col then s.put (x + col) (y + row) color px else px)
      (List.range 16) (List.range 8)
      (fun _ _ _ _ hw => by rw [if_pos hw.1, put_apply, if_pos hw.2])
      (fun _ _ _ _ hw => by
        split_ifs with hbit
        · rw [put_apply, if_neg fun h => hw ⟨hbit, h⟩]
        · rfl) px p
    split_ifs with hin
    · refine hloop.1 ⟨p.2 - y, List.mem_range.mpr ?_, p.1 - x, List.mem_range.mpr ?_, hin.2, ?_, hp⟩
      · omega
      · omega
      · ext
        · show p.1 = x + (p.1 - x)
          omega
        · show p.2 = y + (p.2 - y)
          omega
    · refine hloop.2 ?_
      rintro ⟨row, hrow, col, hcol, hbit, rfl, _⟩
      have h3 := List.mem_range.mp hrow
      have h4 := List.mem_range.mp hcol
      refine hin ⟨⟨⟨?_, ?_⟩, ?_, ?_⟩, ?_⟩ <;> dsimp only
      · omega
      · omega
      · omega
      · omega
      · rw [Nat.add_sub_cancel_left, Nat.add_sub_cancel_left]
        exact hbit

end Screen

/-- One row of `tty_scroll`. -/
theorem moveRow_apply (y n : Nat) (px : Canvas) (q : Nat × Nat) :
    (List.range n).foldl (fun px x => Function.update px (x, y) (px (x, y + fontHeight))) px q =
      if q.1 < n ∧ q.2 = y then px (q.1, y + fontHeight) else px q := by
  induction n generalizing q with
  | zero => rfl
  | succ n ih =>
    rw [List.range_succ, List.foldl_append, List.foldl_cons, List.foldl_nil]
    by_cases hq : q = (n, y)
    · subst hq
      rw [Function.update_self, ih, if_neg (by simp), if_pos ⟨Nat.lt_succ_self n, rfl⟩]
    · rw [Function.update_of_ne hq, ih]
      have hiff : q.1 < n ∧ q.2 = y ↔ q.1 < n + 1 ∧ q.2 = y := by
        constructor
        · intro h
          exact ⟨by omega, h.2⟩
        · rintro ⟨hlt, hy⟩
          refine ⟨lt_of_le_of_ne (Nat.le_of_lt_succ hlt) fun hx => hq ?_, hy⟩
          ext
          · exact hx
          · exact hy
      rw [if_congr hiff rfl rfl]

/-- The rows are read before they are written. -/
theorem moveRows_apply (s : Screen) (n : Nat) (px : Canvas) (q : Nat × Nat) :
    (List.range n).foldl (fun px y => (List.range s.width).foldl (fun px x =>
      Function.update px (x, y) (px (x, y + fontHeight))) px) px q =
      if q.1 < s.width ∧ q.2 < n then px (q.1, q.2 + fontHeight) else px q := by
  induction n generalizing q with
  | zero => rw [if_neg (by omega)]; rfl
  | succ n ih =>
    rw [List.range_succ, List.foldl_append, List.foldl_cons, List.foldl_nil, moveRow_apply, ih, ih]
    rw [if_neg (c := _ ∧ n + fontHeight < n) (by omega)]
    by_cases hx : q.1 < s.width
    · by_cases hy : q.2 = n
      · rw [if_pos ⟨hx, hy⟩, if_pos ⟨hx, by omega⟩, hy]
      · rw [if_neg fun h => hy h.2]
        exact if_congr (and_congr_right fun _ => by omega) rfl rfl
    · rw [if_neg (by omega), if_neg (by omega), if_neg (by omega)]

theorem moveUp_apply (hx : p.1 < s.width) (hy : p.2 < s.height - fontHeight) :
    moveUp s px p = px (p.1, p.2 + fontHeight) := by
  rw [moveUp, moveRows_apply, if_pos ⟨hx, hy⟩]

/-! ## Texts -/

/-- What the text looks like in a row of the screen. -/
def textPixel (s : Screen) (text : List UInt8) (x dy : Nat) : Color :=
  match text[x / fontWidth]? with
  | none => bgColor
  | some c => if s.inked c dy (x % fontWidth) then fgColor else bgColor

/-- The canvas shows the texts of the grid, but for the points that are hidden. -/
def ShowsBut (s : Screen) (hidden : Nat × Nat → Prop) (px : Canvas) (grid : Nat → List UInt8) :
    Prop :=
  ∀ p, s.Has p → ¬hidden p → px p = textPixel s (grid (p.2 / fontHeight)) p.1 (p.2 % fontHeight)

def Shows (s : Screen) (px : Canvas) (grid : Nat → List UInt8) : Prop :=
  ShowsBut s (fun _ => False) px grid

variable {grid grid' : Nat → List UInt8} {text : List UInt8} {row col : Nat}

theorem textPixel_of_le {x : Nat} (h : text.length ≤ x / fontWidth) (dy : Nat) :
    textPixel s text x dy = bgColor := by
  rw [textPixel, List.getElem?_eq_none h]

theorem textPixel_nil (x dy : Nat) : textPixel s [] x dy = bgColor :=
  textPixel_of_le (Nat.zero_le _) dy

theorem textPixel_append (c : UInt8) (x dy : Nat) : textPixel s (text ++ [c]) x dy =
    if x / fontWidth = text.length then
      if s.inked c dy (x % fontWidth) then fgColor else bgColor
    else textPixel s text x dy := by
  unfold textPixel
  by_cases h : x / fontWidth = text.length
  · rw [if_pos h, h, List.getElem?_concat_length]
  · rw [if_neg h]
    rcases Nat.lt_or_gt_of_ne h with hlt | hgt
    · rw [List.getElem?_append_left hlt]
    · rw [List.getElem?_eq_none (by rw [List.length_append]; exact hgt),
        List.getElem?_eq_none (Nat.le_of_lt hgt)]

/-- The cell in a row and a column. -/
theorem in_cell_iff : ((col * fontWidth ≤ p.1 ∧ p.1 < col * fontWidth + fontWidth) ∧
    row * fontHeight ≤ p.2 ∧ p.2 < row * fontHeight + fontHeight) ↔
      p.1 / fontWidth = col ∧ p.2 / fontHeight = row := by
  simp only [fontWidth, fontHeight]
  omega

theorem drawChar_cell (c : UInt8) (hp : s.Has p) :
    s.drawChar c (col * fontWidth) (row * fontHeight) color px p =
      if (p.1 / fontWidth = col ∧ p.2 / fontHeight = row) ∧
          s.inked c (p.2 % fontHeight) (p.1 % fontWidth) then color
      else px p := by
  rw [Screen.drawChar_apply _ _ _ hp]
  by_cases hin : p.1 / fontWidth = col ∧ p.2 / fontHeight = row
  · have h1 : p.1 - col * fontWidth = p.1 % fontWidth := by
      rw [← hin.1, Nat.mod_eq_sub_div_mul]
    have h2 : p.2 - row * fontHeight = p.2 % fontHeight := by
      rw [← hin.2, Nat.mod_eq_sub_div_mul]
    rw [h1, h2]
    exact if_congr (and_congr_left fun _ => in_cell_iff) rfl rfl
  · rw [if_neg fun h => hin (in_cell_iff.mp h.1), if_neg fun h => hin h.1]

theorem drawCell_apply (hp : s.Has p) :
    s.drawRect (col * fontWidth) (row * fontHeight) fontWidth fontHeight color px p =
      if p.1 / fontWidth = col ∧ p.2 / fontHeight = row then color else px p := by
  rw [Screen.drawRect_apply _ _ _ _ hp]
  exact if_congr in_cell_iff rfl rfl

/-! ## Grids -/

theorem ShowsBut.congr {hidden : Nat × Nat → Prop} (h : ShowsBut s hidden px grid)
    (heq : ∀ r, grid' r = grid r) : ShowsBut s hidden px grid' := by
  rw [funext heq]
  exact h

theorem ShowsBut.mono {hidden hidden' : Nat × Nat → Prop} (h : ShowsBut s hidden px grid)
    (hle : ∀ p, hidden p → hidden' p) : ShowsBut s hidden' px grid :=
  fun p hp hno => h p hp fun hhid => hno (hle p hhid)

/-- A character is put behind a text. -/
theorem Shows.putGlyph (h : Shows s px grid) (c : UInt8) (hcol : (grid row).length = col) :
    Shows s (s.drawChar c (col * fontWidth) (row * fontHeight) fgColor
      (s.drawRect (col * fontWidth) (row * fontHeight) fontWidth fontHeight bgColor px))
      (Function.update grid row (grid row ++ [c])) := by
  intro p hp hno
  rw [drawChar_cell c hp, drawCell_apply hp]
  by_cases hrow : p.2 / fontHeight = row
  · rw [hrow, Function.update_self, textPixel_append, hcol]
    by_cases hx : p.1 / fontWidth = col
    · simp only [hx, true_and, if_true]
    · rw [if_neg fun h => hx h.1.1, if_neg fun h => hx h.1, if_neg hx, h p hp hno, hrow]
  · rw [if_neg fun h => hrow h.1.2, if_neg fun h => hrow h.2, Function.update_of_ne hrow,
      h p hp hno]

/-- The last character of a text is cleared. -/
theorem Shows.clearLast (h : Shows s px grid) {c : UInt8} (hrow : grid row = text ++ [c])
    (hcol : text.length = col) :
    Shows s (s.drawRect (col * fontWidth) (row * fontHeight) fontWidth fontHeight bgColor px)
      (Function.update grid row text) := by
  intro p hp hno
  rw [drawCell_apply hp]
  by_cases hy : p.2 / fontHeight = row
  · rw [hy, Function.update_self]
    by_cases hx : p.1 / fontWidth = col
    · rw [if_pos ⟨hx, rfl⟩, textPixel_of_le (by omega)]
    · rw [if_neg fun h => hx h.1, h p hp hno, hy, hrow, textPixel_append, if_neg (by omega)]
  · rw [if_neg fun h => hy h.2, Function.update_of_ne hy, h p hp hno]

theorem Screen.height_range (s : Screen) : fontHeight ≤ s.height := by
  have h := s.rows_range.1
  exact (Nat.one_le_div_iff (by decide)).mp h

/-- The texts move up by one row. Below the last whole row there is nothing. -/
theorem Shows.scroll (h : Shows s px grid) (hlast : ∀ r, s.rows ≤ r → grid r = []) :
    Shows s (s.drawRect 0 (s.height - fontHeight) s.width fontHeight bgColor (moveUp s px))
      fun r => grid (r + 1) := by
  intro p hp hno
  have hx : p.1 < s.width := hp.1
  have hy : p.2 < s.height := hp.2
  have hheight := s.height_range
  rw [Screen.drawRect_apply _ _ _ _ hp]
  by_cases hin : s.height - fontHeight ≤ p.2
  · rw [if_pos ⟨⟨Nat.zero_le _, by omega⟩, hin, by omega⟩]
    show bgColor = textPixel s (grid (p.2 / fontHeight + 1)) p.1 (p.2 % fontHeight)
    rw [hlast, textPixel_nil]
    have hdiv : s.height / fontHeight = (s.height - fontHeight) / fontHeight + 1 := by
      rw [← Nat.add_div_right _ (by decide), Nat.sub_add_cancel hheight]
    have hle := Nat.div_le_div_right (c := fontHeight) hin
    rw [Screen.rows]
    omega
  · have hup : s.Has (p.1, p.2 + fontHeight) := ⟨hx, by dsimp only; omega⟩
    rw [if_neg (by omega), moveUp_apply hx (by omega), h _ hup hno]
    dsimp only
    rw [Nat.add_div_right _ (by decide), Nat.add_mod_right]

/-! ## The cursor -/

def OnCursor (row col : Nat) (p : Nat × Nat) : Prop :=
  (col * fontWidth ≤ p.1 ∧ p.1 < col * fontWidth + fontWidth) ∧
    row * fontHeight + 14 ≤ p.2 ∧ p.2 < row * fontHeight + 14 + 2

instance (row col : Nat) (p : Nat × Nat) : Decidable (OnCursor row col p) :=
  inferInstanceAs (Decidable ((_ ∧ _) ∧ _ ∧ _))

theorem fillCursor_apply (s : Screen) (t : Terminal) (color : Color) (hp : s.Has p) :
    fillCursor s t color p = if OnCursor t.row t.column p then color else t.canvas p :=
  Screen.drawRect_apply _ _ _ _ hp

theorem ShowsBut.drawCursor {t : Terminal} (h : ShowsBut s (OnCursor t.row t.column) t.canvas grid)
    (color : Color) : ShowsBut s (OnCursor t.row t.column) (fillCursor s t color) grid := by
  intro p hp hno
  rw [fillCursor_apply s t color hp, if_neg hno]
  exact h p hp hno

/-- The cursor stands behind the text of its row. -/
theorem ShowsBut.eraseCursor {t : Terminal} (h : ShowsBut s (OnCursor t.row t.column) t.canvas grid)
    (hcol : (grid t.row).length ≤ t.column) : Shows s (fillCursor s t bgColor) grid := by
  intro p hp _
  rw [fillCursor_apply s t bgColor hp]
  by_cases hin : OnCursor t.row t.column p
  · obtain ⟨h1, h3, h4⟩ := hin
    have hcell := in_cell_iff.mp ⟨h1, (by omega : t.row * fontHeight ≤ p.2), h4⟩
    rw [if_pos ⟨h1, h3, h4⟩, hcell.2, textPixel_of_le (by omega)]
  · rw [if_neg hin]
    exact h p hp hin

/-! ## The view -/

def lineText (line : Nat → UInt8) : List UInt8 := (textColumns line).map line

/-- The text that `tty_render_view` paints in a row. -/
def rowText (t : Terminal) (first : Int) (sr : Nat) : List UInt8 :=
  let logical := int32 (first + sr)
  if logical < 0 ∨ t.lineCount < logical.toNat then []
  else if ttyHistoryLines ≤ t.lineCount ∧ logical.toNat ≤ t.lineCount - ttyHistoryLines then []
  else lineText (histLine t logical.toNat)

theorem takeWhile_range (q : Nat → Bool) (n : Nat) :
    ∃ k, (List.range n).takeWhile q = List.range k := by
  have hprefix : (List.range n).takeWhile q <+: List.range n := List.takeWhile_prefix _
  refine ⟨((List.range n).takeWhile q).length, ?_⟩
  have htake := List.prefix_iff_eq_take.mp hprefix
  have hle := hprefix.length_le
  rw [List.length_range] at hle
  rw [List.take_range, Nat.min_eq_left hle] at htake
  exact htake

/-- The characters of a line are drawn on a row that is blank. -/
theorem drawLine_apply (line : Nat → UInt8) (n : Nat) (hp : s.Has p)
    (hblank : p.2 / fontHeight = row → px p = bgColor) :
    (List.range n).foldl (fun px col =>
      s.drawChar (line col) (col * fontWidth) (row * fontHeight) fgColor px) px p =
      if p.2 / fontHeight = row then
        textPixel s ((List.range n).map line) p.1 (p.2 % fontHeight)
      else px p := by
  induction n with
  | zero =>
    rw [List.range_zero, List.foldl_nil, List.map_nil, textPixel_nil]
    split_ifs with hrow
    · exact hblank hrow
    · rfl
  | succ n ih =>
    rw [List.range_succ, List.foldl_append, List.foldl_cons, List.foldl_nil, List.map_append,
      List.map_singleton, drawChar_cell _ hp, ih, textPixel_append, List.length_map,
      List.length_range]
    by_cases hrow : p.2 / fontHeight = row
    · rw [if_pos hrow, if_pos hrow]
      by_cases hx : p.1 / fontWidth = n
      · rw [if_pos hx, textPixel_of_le (by simp [hx])]
        exact if_congr (by simp [hx, hrow]) rfl rfl
      · rw [if_neg hx, if_neg fun h => hx h.1.1]
    · rw [if_neg fun h => hrow h.1.2, if_neg hrow, if_neg hrow]

theorem renderRow_apply (t : Terminal) (first : Int) (sr : Nat) (hp : s.Has p) :
    renderRow s t first px sr p =
      if p.2 / fontHeight = sr then textPixel s (rowText t first sr) p.1 (p.2 % fontHeight)
      else px p := by
  have hclear : s.drawRect 0 (sr * fontHeight) s.width fontHeight bgColor px p =
      if p.2 / fontHeight = sr then bgColor else px p := by
    rw [Screen.drawRect_apply _ _ _ _ hp]
    have hx := hp.1
    exact if_congr (by simp only [fontHeight]; omega) rfl rfl
  unfold renderRow rowText
  dsimp only
  by_cases h1 : int32 (first + sr) < 0 ∨ t.lineCount < (int32 (first + sr)).toNat
  · rw [if_pos h1, if_pos h1, hclear, textPixel_nil]
  · rw [if_neg h1, if_neg h1]
    by_cases h2 : ttyHistoryLines ≤ t.lineCount ∧
        (int32 (first + sr)).toNat ≤ t.lineCount - ttyHistoryLines
    · rw [if_pos h2, if_pos h2, hclear, textPixel_nil]
    · obtain ⟨k, hk⟩ := takeWhile_range (fun col => histLine t (int32 (first + sr)).toNat col != 0)
        ttyMaxCols
      have hcols : textColumns (histLine t (int32 (first + sr)).toNat) = List.range k := hk
      rw [if_neg h2, if_neg h2, lineText, hcols, drawLine_apply _ _ hp, hclear]
      · split_ifs <;> rfl
      · intro hrow
        rw [hclear, if_pos hrow]

theorem renderRows_apply (t : Terminal) (first : Int) (n : Nat) (hp : s.Has p) :
    (List.range n).foldl (renderRow s t first) px p =
      if p.2 / fontHeight < n then
        textPixel s (rowText t first (p.2 / fontHeight)) p.1 (p.2 % fontHeight)
      else px p := by
  induction n with
  | zero => rfl
  | succ n ih =>
    rw [List.range_succ, List.foldl_append, List.foldl_cons, List.foldl_nil,
      renderRow_apply t first n hp, ih]
    by_cases hn : p.2 / fontHeight = n
    · rw [if_pos hn, if_pos (by omega), hn]
    · rw [if_neg hn]
      exact if_congr (by omega) rfl rfl

end Kyuzen.Tty
