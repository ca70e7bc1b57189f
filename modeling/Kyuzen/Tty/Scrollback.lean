import Kyuzen.Tty.Painting

/-!
# Scrolling back

What has been written is a log of lines of any number. The terminal keeps the last 512 of them in
its ring, and its screen is painted in two ways: character by character, and line by line from the
ring. Both show the log, at each offset of the view (`scrollback_agrees`).
-/

namespace Kyuzen.Tty

/-! ## The log -/

/-- The lines `0 .. count`, the last of which is being written. -/
structure Log where
  text : Nat → List UInt8
  count : Nat

namespace Log

def last (l : Log) : List UInt8 := l.text l.count

def setLast (l : Log) (text : List UInt8) : Log :=
  { l with text := Function.update l.text l.count text }

def newline (l : Log) : Log := ⟨Function.update l.text (l.count + 1) [], l.count + 1⟩

/-- A line that is full is followed by a new one. -/
def append (l : Log) (cols : Nat) (c : UInt8) : Log :=
  if cols ≤ l.last.length + 1 then (l.setLast (l.last ++ [c])).newline
  else l.setLast (l.last ++ [c])

def putchar (l : Log) (cols : Nat) (c : UInt8) : Log :=
  if c = 10 then l.newline
  else if c = 8 then l.setLast l.last.dropLast
  else l.append cols c

@[simp] theorem newline_count (l : Log) : l.newline.count = l.count + 1 := rfl

@[simp] theorem newline_text (l : Log) : l.newline.text (l.count + 1) = [] :=
  Function.update_self _ _ _

theorem newline_text_of_le (l : Log) {k : Nat} (hk : k ≤ l.count) :
    l.newline.text k = l.text k :=
  Function.update_of_ne (by omega) _ _

@[simp] theorem setLast_count (l : Log) (text : List UInt8) : (l.setLast text).count = l.count := rfl

@[simp] theorem setLast_text (l : Log) (text : List UInt8) :
    (l.setLast text).text l.count = text :=
  Function.update_self _ _ _

theorem setLast_text_of_ne (l : Log) (text : List UInt8) {k : Nat} (hk : k ≠ l.count) :
    (l.setLast text).text k = l.text k :=
  Function.update_of_ne hk _ _

theorem count_le_putchar (l : Log) (cols : Nat) (c : UInt8) :
    l.count ≤ (l.putchar cols c).count := by
  unfold putchar append
  split_ifs
  · exact Nat.le_succ _
  · exact le_refl _
  · exact Nat.le_succ _
  · exact le_refl _

def empty : Log := ⟨fun _ => [], 0⟩

/-- A line, if it is one of the last 512. -/
def line (l : Log) (k : Int) : List UInt8 :=
  if (0 ≤ k ∧ k ≤ l.count) ∧ l.count < k + ttyHistoryLines then l.text k.toNat else []

/-- What the screen shows in its rows, when the last line is in `row` without the offset. -/
def grid (l : Log) (s : Screen) (row : Nat) (offset : Int) (r : Nat) : List UInt8 :=
  if r < s.rows then l.line (l.count - row - offset + r) else []

end Log

variable {s : Screen} {t : Terminal} {l : Log} {px : Canvas} {line : Nat → UInt8}
variable {text : List UInt8} {c : UInt8}

/-! ## A line in the ring -/

structure Stored (line : Nat → UInt8) (text : List UInt8) : Prop where
  length_lt : text.length < ttyMaxCols
  chars : ∀ i, (h : i < text.length) → line i = text[i]
  nonzero : ∀ c ∈ text, c ≠ 0
  stop : line text.length = 0

theorem Stored.nil (line : Nat → UInt8) : Stored (Function.update line 0 0) [] where
  length_lt := by decide
  chars i h := absurd h (Nat.not_lt_zero i)
  nonzero c h := absurd h List.not_mem_nil
  stop := Function.update_self _ _ _

theorem Stored.append (h : Stored line text) (hlen : text.length + 1 < ttyMaxCols) (hc : c ≠ 0) :
    Stored (Function.update (Function.update line text.length c) (text.length + 1) 0)
      (text ++ [c]) where
  length_lt := by
    rw [List.length_append]
    exact hlen
  chars i hi := by
    rw [List.length_append, List.length_singleton] at hi
    rw [Function.update_of_ne (by omega)]
    rcases Nat.lt_or_eq_of_le (Nat.le_of_lt_succ hi) with hlt | rfl
    · rw [Function.update_of_ne (by omega), List.getElem_append_left hlt]
      exact h.chars i hlt
    · rw [Function.update_self, List.getElem_concat_length rfl]
  nonzero x hx := by
    rcases List.mem_append.mp hx with hx | hx
    · exact h.nonzero x hx
    · rw [List.mem_singleton.mp hx]
      exact hc
  stop := by
    rw [List.length_append]
    exact Function.update_self _ _ _

theorem Stored.dropLast (h : Stored line (text ++ [c])) :
    Stored (Function.update line text.length 0) text where
  length_lt := by
    have hlen := h.length_lt
    rw [List.length_append, List.length_singleton] at hlen
    omega
  chars i hi := by
    rw [Function.update_of_ne (by omega), h.chars i (by rw [List.length_append]; omega),
      List.getElem_append_left hi]
  nonzero x hx := h.nonzero x (List.mem_append_left _ hx)
  stop := Function.update_self _ _ _

/-- The renderer reads the text that is stored. -/
theorem Stored.lineText (h : Stored line text) : lineText line = text := by
  obtain ⟨m, hm⟩ := Nat.exists_eq_add_of_lt h.length_lt
  have hcols : textColumns line = List.range text.length := by
    have hsplit : List.range ttyMaxCols =
        List.range text.length ++ (List.range (m + 1)).map (text.length + ·) := by
      rw [hm, Nat.add_assoc, List.range_add]
    rw [textColumns, hsplit, List.takeWhile_append_of_pos, List.range_succ_eq_map, List.map_cons,
      List.takeWhile_cons_of_neg, List.append_nil]
    · simp [h.stop]
    · intro i hi
      have hlt := List.mem_range.mp hi
      simp only [bne_iff_ne, h.chars i hlt]
      exact h.nonzero _ (List.getElem_mem hlt)
  rw [Tty.lineText, hcols]
  apply List.ext_getElem
  · rw [List.length_map, List.length_range]
  · intro i hi _
    rw [List.length_map, List.length_range] at hi
    rw [List.getElem_map, List.getElem_range]
    exact h.chars i hi

theorem histLine_setHist (t : Terminal) (k col : Nat) (c : UInt8) :
    histLine (setHist t k col c) k = Function.update (histLine t k) col c := by
  rw [histLine, setHist]
  exact Function.update_self _ _ _

theorem histLine_setHist_of_ne {k k' : Nat} (col : Nat) (c : UInt8)
    (h : k' % ttyHistoryLines ≠ k % ttyHistoryLines) :
    histLine (setHist t k col c) k' = histLine t k' := by
  rw [histLine, setHist]
  exact Function.update_of_ne h _ _

/-! ## The terminal and the log -/

structure Kept (s : Screen) (t : Terminal) (l : Log) : Prop where
  lineCount : t.lineCount = l.count
  row : t.row = min l.count (s.rows - 1)
  column : t.column = l.last.length
  short : ∀ k ≤ l.count, (l.text k).length ≤ s.cols
  stored : ∀ k ≤ l.count, l.count < k + ttyHistoryLines → Stored (histLine t k) (l.text k)

theorem Kept.row_lt (h : Kept s t l) : t.row < s.rows := by
  have hrows := s.rows_range.1
  have hrow := h.row
  rw [Screen.rows] at *
  omega

/-- Without an offset, the rows down to that of the cursor show the last lines. -/
theorem Kept.grid_zero (h : Kept s t l) (r : Nat) : l.grid s t.row 0 r =
    if r ≤ t.row then l.text (l.count - t.row + r) else [] := by
  have hlt := h.row_lt
  have hrow := h.row
  have hrows : s.rows ≤ 67 := s.rows_range.2
  have hlines : ttyHistoryLines = 512 := rfl
  unfold Log.grid Log.line
  by_cases hr : r ≤ t.row
  · rw [if_pos hr, if_pos (by omega), if_pos (by omega)]
    congr 1
    omega
  · rw [if_neg hr]
    split_ifs
    · omega
    · rfl
    · rfl

theorem Kept.grid_row (h : Kept s t l) : l.grid s t.row 0 t.row = l.last := by
  have hrow := h.row
  rw [h.grid_zero, if_pos (le_refl _), Nat.sub_add_cancel (by omega)]
  rfl

/-- The state in `terminal_putchar`, with the cursor erased. -/
structure Live (s : Screen) (t : Terminal) (l : Log) : Prop extends Kept s t l where
  offset : t.viewOffset = 0
  shows : Shows s t.canvas (l.grid s t.row 0)

/-- The ring after a line is begun: the new line takes the place of one that is too old. -/
theorem Kept.newline_stored (h : Kept s t l) {k : Nat} (hk : k ≤ l.newline.count)
    (hlt : l.newline.count < k + ttyHistoryLines) :
    Stored (histLine (histClearLine t l.newline.count) k) (l.newline.text k) := by
  have hlines : ttyHistoryLines = 512 := rfl
  rw [Log.newline_count] at hk hlt ⊢
  by_cases hnew : k = l.count + 1
  · subst hnew
    rw [histClearLine, histLine_setHist, Log.newline_text]
    exact Stored.nil _
  · rw [histClearLine, histLine_setHist_of_ne 0 0 (by rw [hlines]; omega),
      l.newline_text_of_le (by omega)]
    exact h.stored k (by omega) (by omega)

theorem Kept.newline_short (h : Kept s t l) :
    ∀ k ≤ l.newline.count, (l.newline.text k).length ≤ s.cols := by
  intro k hk
  rw [Log.newline_count] at hk
  by_cases hnew : k = l.count + 1
  · subst hnew
    rw [Log.newline_text]
    exact Nat.zero_le _
  · rw [l.newline_text_of_le (by omega)]
    exact h.short k (by omega)

/-- `tty_newline` before it scrolls. -/
def advance (t : Terminal) (n : Nat) : Terminal :=
  { histClearLine t n with row := t.row + 1, column := 0, lineCount := n }

theorem newline_eq (h : t.lineCount = l.count) (hcount : l.newline.count < 2 ^ 31) :
    newline s t =
      if s.rows ≤ t.row + 1 then scroll s (advance t l.newline.count)
      else advance t l.newline.count := by
  have hcounter : uint32 (t.lineCount + 1) = l.newline.count := by
    rw [h, uint32, Log.newline_count, Nat.mod_eq_of_lt]
    rw [Log.newline_count] at hcount
    omega
  unfold newline
  dsimp only
  rw [hcounter]
  rfl

theorem Live.newline (h : Live s t l) (hcount : l.newline.count < 2 ^ 31) :
    Live s (newline s t) l.newline := by
  have hrow := h.row
  have hrows : 1 ≤ s.rows := s.rows_range.1
  have hzero := h.grid_zero
  rw [newline_eq h.lineCount hcount]
  by_cases hscroll : s.rows ≤ t.row + 1
  · rw [if_pos hscroll]
    have hkept : Kept s (scroll s (advance t l.newline.count)) l.newline := by
      refine ⟨rfl, ?_, ?_, h.newline_short, fun k hk hlt => h.newline_stored hk hlt⟩
      · show t.row + 1 - 1 = min (l.count + 1) (s.rows - 1)
        omega
      · show 0 = (l.newline.text (l.count + 1)).length
        rw [Log.newline_text]
        rfl
    refine ⟨hkept, h.offset, ?_⟩
    have hlast : ∀ r, s.rows ≤ r → l.grid s t.row 0 r = [] := by
      intro r hr
      rw [Log.grid, if_neg (by omega)]
    refine (h.shows.scroll hlast).congr fun r => ?_
    rw [hkept.grid_zero, hzero]
    show (if r ≤ t.row + 1 - 1 then l.newline.text (l.count + 1 - (t.row + 1 - 1) + r) else []) = _
    rw [Nat.add_sub_cancel]
    rcases Nat.lt_trichotomy r t.row with hr | hr | hr
    · rw [if_pos (by omega), if_pos (by omega), l.newline_text_of_le (by omega)]
      congr 1
      omega
    · rw [if_pos (by omega), if_neg (by omega), hr,
        show l.count + 1 - t.row + t.row = l.count + 1 by omega, Log.newline_text]
    · rw [if_neg (by omega), if_neg (by omega)]
  · rw [if_neg hscroll]
    have hkept : Kept s (advance t l.newline.count) l.newline := by
      refine ⟨rfl, ?_, ?_, h.newline_short, fun k hk hlt => h.newline_stored hk hlt⟩
      · show t.row + 1 = min (l.count + 1) (s.rows - 1)
        omega
      · show 0 = (l.newline.text (l.count + 1)).length
        rw [Log.newline_text]
        rfl
    refine ⟨hkept, h.offset, h.shows.congr fun r => ?_⟩
    rw [hkept.grid_zero, hzero]
    show (if r ≤ t.row + 1 then l.newline.text (l.count + 1 - (t.row + 1) + r) else []) = _
    rcases Nat.lt_trichotomy r (t.row + 1) with hr | hr | hr
    · rw [if_pos (by omega), if_pos (by omega), l.newline_text_of_le (by omega)]
      congr 1
      omega
    · rw [if_pos (by omega), if_neg (by omega), hr,
        show l.count + 1 - (t.row + 1) + (t.row + 1) = l.count + 1 by omega, Log.newline_text]
    · rw [if_neg (by omega), if_neg (by omega)]

/-- The last line changes. -/
theorem Kept.setLast (h : Kept s t l) {text : List UInt8} {t' : Terminal}
    (hline : Stored (histLine t' l.count) text)
    (hother : ∀ k, k % ttyHistoryLines ≠ l.count % ttyHistoryLines → histLine t' k = histLine t k)
    (hcount : t'.lineCount = t.lineCount) (hrow : t'.row = t.row)
    (hcol : t'.column = text.length) (hlen : text.length ≤ s.cols) : Kept s t' (l.setLast text) := by
  have hlines : ttyHistoryLines = 512 := rfl
  refine ⟨hcount.trans h.lineCount, hrow.trans h.row, ?_, fun k hk => ?_, fun k hk hlt => ?_⟩
  · rw [hcol, Log.last, Log.setLast_count, Log.setLast_text]
  · by_cases hlast : k = l.count
    · subst hlast
      rw [Log.setLast_text]
      exact hlen
    · rw [l.setLast_text_of_ne text hlast]
      exact h.short k hk
  · rw [Log.setLast_count] at hk hlt
    by_cases hlast : k = l.count
    · subst hlast
      rw [Log.setLast_text]
      exact hline
    · rw [l.setLast_text_of_ne text hlast, hother k (by rw [hlines]; omega)]
      exact h.stored k hk hlt

/-- Only the row of the cursor changes. -/
theorem Kept.grid_setLast (h : Kept s t l) {text : List UInt8} {t' : Terminal}
    (h' : Kept s t' (l.setLast text)) (hrow : t'.row = t.row) (r : Nat) :
    (l.setLast text).grid s t'.row 0 r = Function.update (l.grid s t.row 0) t.row text r := by
  have hle := h.row
  rw [h'.grid_zero, hrow, Log.setLast_count]
  by_cases hr : r = t.row
  · subst hr
    rw [if_pos (le_refl _), Nat.sub_add_cancel (by omega), Function.update_self, Log.setLast_text]
  · rw [Function.update_of_ne hr, h.grid_zero]
    split_ifs with hlt
    · exact l.setLast_text_of_ne text (by omega)
    · rfl

theorem Kept.stored_last (h : Kept s t l) : Stored (histLine t l.count) l.last := by
  have hlines : ttyHistoryLines = 512 := rfl
  exact h.stored l.count (le_refl _) (by omega)

theorem Live.backspace (h : Live s t l) (hcol : 0 < t.column) :
    Live s (backspace s t) (l.setLast l.last.dropLast) := by
  have hne : l.last ≠ [] := by
    intro hnil
    rw [h.column, hnil] at hcol
    cases hcol
  have hsplit := List.dropLast_concat_getLast hne
  have hlen : l.last.dropLast.length = t.column - 1 := by
    rw [List.length_dropLast, h.column]
  have hback : Tty.backspace s t =
      { setHist t t.lineCount (t.column - 1) 0 with
        column := t.column - 1
        canvas := s.drawRect ((t.column - 1) * fontWidth) (t.row * fontHeight) fontWidth fontHeight
          bgColor t.canvas } := by
    unfold Tty.backspace
    rw [if_pos hcol]
    rfl
  rw [hback, h.lineCount]
  have hkept : Kept s { setHist t l.count (t.column - 1) 0 with
      column := t.column - 1
      canvas := s.drawRect ((t.column - 1) * fontWidth) (t.row * fontHeight) fontWidth fontHeight
        bgColor t.canvas } (l.setLast l.last.dropLast) := by
    refine h.setLast ?_ (fun k hk => ?_) rfl rfl hlen.symm ?_
    · show Stored (histLine (setHist t l.count (t.column - 1) 0) l.count) l.last.dropLast
      rw [histLine_setHist, ← hlen]
      refine Stored.dropLast (c := l.last.getLast hne) ?_
      rw [hsplit]
      exact h.stored_last
    · exact histLine_setHist_of_ne _ _ hk
    · have hshort := h.short l.count (le_refl _)
      rw [List.length_dropLast]
      exact le_trans (Nat.sub_le _ _) hshort
  refine ⟨hkept, h.offset, ?_⟩
  have hshows := h.shows.clearLast (h.grid_row.trans hsplit.symm) hlen
  exact hshows.congr (h.grid_setLast hkept rfl)

/-- The state in the last branch of `terminal_putchar`, before the line is found to be full. -/
def glyphPut (s : Screen) (t : Terminal) (c : UInt8) : Terminal :=
  { setHist (setHist t t.lineCount t.column c) t.lineCount (t.column + 1) 0 with
    column := t.column + 1
    canvas := s.drawChar c (t.column * fontWidth) (t.row * fontHeight) fgColor (clearCell s t) }

theorem putGlyph_eq (h : t.column < ttyMaxCols - 1) (c : UInt8) : putGlyph s t c =
    if s.cols ≤ t.column + 1 then newline s (glyphPut s t c) else glyphPut s t c := by
  unfold putGlyph
  dsimp only
  rw [if_pos h]
  rfl

theorem Live.glyphPut (h : Live s t l) (hcol : t.column < s.cols) (hc : c ≠ 0) :
    Live s (glyphPut s t c) (l.setLast (l.last ++ [c])) := by
  have hcols : s.cols ≤ 240 := s.cols_range.2
  have hmax : ttyMaxCols = 256 := rfl
  have hlast := h.column
  have hlen : (l.last ++ [c]).length = t.column + 1 := by
    rw [List.length_append, hlast]
    rfl
  have hkept : Kept s (Tty.glyphPut s t c) (l.setLast (l.last ++ [c])) := by
    refine h.setLast ?_ (fun k hk => ?_) rfl rfl hlen.symm (by omega)
    · show Stored (histLine (setHist (setHist t t.lineCount t.column c) t.lineCount
        (t.column + 1) 0) l.count) (l.last ++ [c])
      rw [h.lineCount, histLine_setHist, histLine_setHist, hlast]
      exact h.stored_last.append (by omega) hc
    · rw [← h.lineCount] at hk
      exact (histLine_setHist_of_ne _ _ hk).trans (histLine_setHist_of_ne _ _ hk)
  refine ⟨hkept, h.offset, ?_⟩
  have hshows := h.shows.putGlyph c ((congrArg List.length h.grid_row).trans hlast.symm)
  rw [h.grid_row] at hshows
  exact hshows.congr (h.grid_setLast hkept rfl)

theorem Live.putGlyph (h : Live s t l) (hcol : t.column < s.cols) (hc : c ≠ 0)
    (hcount : (l.append s.cols c).count < 2 ^ 31) :
    Live s (putGlyph s t c) (l.append s.cols c) := by
  have hcols : s.cols ≤ 240 := s.cols_range.2
  have hmax : ttyMaxCols = 256 := rfl
  rw [putGlyph_eq (by omega)]
  rw [Log.append, ← h.column] at hcount ⊢
  by_cases hfull : s.cols ≤ t.column + 1
  · rw [if_pos hfull] at hcount ⊢
    rw [if_pos hfull]
    exact (h.glyphPut hcol hc).newline hcount
  · rw [if_neg hfull, if_neg hfull]
    exact h.glyphPut hcol hc

/-! ## The view -/

theorem int32_eq {v : Int} (h1 : -2 ^ 31 ≤ v) (h2 : v < 2 ^ 31) : int32 v = v :=
  Int.bmod_eq_of_le (by omega) (by omega)

theorem Kept.topLive (h : Kept s t l) (hcount : l.count < 2 ^ 31) :
    int32 (int32 t.lineCount - int32 t.row) = l.count - t.row := by
  have hrow := h.row
  rw [h.lineCount, int32_eq (v := l.count) (by omega) (by omega),
    int32_eq (v := t.row) (by omega) (by omega), int32_eq (by omega) (by omega)]

theorem Kept.maxScrollback (h : Kept s t l) (hcount : l.count < 2 ^ 31) :
    maxScrollback t = l.count - t.row - max 0 ((l.count : Int) - 511) := by
  have hrow := h.row
  have hrows : s.rows ≤ 67 := s.rows_range.2
  have hlines : ttyHistoryLines = 512 := rfl
  have htop := h.topLive hcount
  unfold Tty.maxScrollback
  rw [htop, h.lineCount]
  dsimp only
  by_cases hold : ttyHistoryLines ≤ l.count
  · rw [if_pos hold, int32_eq (v := l.count) (by omega) (by omega),
      int32_eq (v := l.count - ttyHistoryLines) (by omega) (by omega),
      int32_eq (v := l.count - ttyHistoryLines + 1) (by omega) (by omega),
      int32_eq (by omega) (by omega), if_neg (by omega)]
    omega
  · rw [if_neg hold, int32_eq (by omega) (by omega), if_neg (by omega)]
    omega

/-- The renderer finds the lines of the view. -/
theorem Kept.rowText (h : Kept s t l) (hcount : l.count < 2 ^ 31) (hoff : 0 ≤ t.viewOffset)
    (hle : t.viewOffset ≤ l.count - t.row) {sr : Nat} (hsr : sr < s.rows) :
    rowText t (int32 (int32 (int32 t.lineCount - int32 t.row) - t.viewOffset)) sr =
      l.grid s t.row t.viewOffset sr := by
  have hrow := h.row
  have hrows : s.rows ≤ 67 := s.rows_range.2
  have hlines : ttyHistoryLines = 512 := rfl
  have hlogical : int32 (int32 (int32 (int32 t.lineCount - int32 t.row) - t.viewOffset) + sr) =
      l.count - t.row - t.viewOffset + sr := by
    rw [h.topLive hcount, int32_eq (v := l.count - t.row - t.viewOffset) (by omega) (by omega),
      int32_eq (by omega) (by omega)]
  unfold Tty.rowText Log.grid Log.line
  rw [hlogical, if_pos hsr, h.lineCount]
  dsimp only
  generalize (l.count : Int) - t.row - t.viewOffset + sr = k
  by_cases hrange : 0 ≤ k ∧ k ≤ l.count
  · by_cases hret : (l.count : Int) < k + ttyHistoryLines
    · rw [if_neg (by omega), if_neg (by omega), if_pos ⟨hrange, hret⟩]
      exact (h.stored k.toNat (by omega) (by omega)).lineText
    · rw [if_neg (by omega), if_pos (by omega), if_neg fun hc => hret hc.2]
  · rw [if_pos (by omega), if_neg fun hc => hrange hc.1]

/-- `tty_render_view` paints the lines of the view. -/
theorem Kept.renderView (h : Kept s t l) (hcount : l.count < 2 ^ 31) (hoff : 0 ≤ t.viewOffset)
    (hle : t.viewOffset ≤ l.count - t.row)
    (hblank : ∀ p, s.Has p → s.rows ≤ p.2 / fontHeight → t.canvas p = bgColor) :
    Shows s (renderView s t).canvas (l.grid s t.row t.viewOffset) := by
  intro p hp _
  unfold Tty.renderView
  dsimp only
  rw [renderRows_apply _ _ _ hp]
  by_cases hrow : p.2 / fontHeight < s.rows
  · rw [if_pos hrow, h.rowText hcount hoff hle hrow]
  · rw [if_neg hrow, hblank p hp (not_lt.mp hrow), Log.grid, if_neg hrow, textPixel_nil]

/-! ## Whole calls -/

/-- The state between two calls. -/
structure Agrees (s : Screen) (t : Terminal) (l : Log) : Prop extends Kept s t l where
  column_lt : t.column < s.cols
  offset_nonneg : 0 ≤ t.viewOffset
  offset_le : t.viewOffset ≤ l.count - t.row - max 0 ((l.count : Int) - 511)
  painted : ShowsBut s (fun p => t.viewOffset = 0 ∧ OnCursor t.row t.column p) t.canvas
    (l.grid s t.row t.viewOffset)

theorem Agrees.blank (h : Agrees s t l) {p : Nat × Nat} (hp : s.Has p)
    (hrow : s.rows ≤ p.2 / fontHeight) : t.canvas p = bgColor := by
  have hlt := h.row_lt
  rw [h.painted p hp, Log.grid, if_neg (not_lt.mpr hrow), textPixel_nil]
  rintro ⟨_, _, h3, h4⟩
  simp only [fontHeight] at h3 h4 hrow
  omega

/-- The cursor is drawn at the end of `terminal_putchar`. -/
theorem Live.drawCursor (h : Live s t l) (hcol : t.column < s.cols) :
    Agrees s (drawCursor s t) l := by
  have hrow := h.row
  have hrows : s.rows ≤ 67 := s.rows_range.2
  have hdraw : Tty.drawCursor s t =
      { t with cursorState := true, canvas := fillCursor s t fgColor } := by
    unfold Tty.drawCursor
    dsimp only
    rw [if_neg (not_not.mpr h.offset)]
    rfl
  have hshows : ShowsBut s (OnCursor t.row t.column) (fillCursor s t fgColor)
      (l.grid s t.row 0) :=
    (h.shows.mono fun _ hno => hno.elim).drawCursor fgColor
  rw [hdraw]
  refine ⟨⟨h.lineCount, h.row, h.column, h.short, h.stored⟩, hcol, ?_, ?_, ?_⟩
  · dsimp only
    rw [h.offset]
  · dsimp only
    rw [h.offset]
    omega
  · dsimp only
    rw [h.offset]
    exact hshows.mono fun p hp => ⟨rfl, hp⟩

/-- The beginning of `terminal_putchar`. -/
def backToOutput (s : Screen) (t : Terminal) : Terminal :=
  eraseCursor s (if t.viewOffset ≠ 0 then renderView s { t with viewOffset := 0 } else t)

theorem eraseCursor_eq (h : t.viewOffset = 0) :
    eraseCursor s t = { t with canvas := fillCursor s t bgColor } := by
  rw [eraseCursor, if_neg (not_not.mpr h)]

theorem Agrees.backToOutput (h : Agrees s t l) (hcount : l.count < 2 ^ 31) :
    Live s (backToOutput s t) l := by
  have hkept := h.toKept
  have hgrid : (l.grid s t.row 0 t.row).length ≤ t.column := by
    rw [hkept.grid_row, hkept.column]
  unfold Tty.backToOutput
  by_cases hoff : t.viewOffset = 0
  · rw [if_neg (not_not.mpr hoff), eraseCursor_eq hoff]
    refine ⟨⟨h.lineCount, h.row, h.column, h.short, h.stored⟩, hoff, ?_⟩
    have hpainted := h.painted
    rw [hoff] at hpainted
    exact (hpainted.mono fun _ hp => hp.2).eraseCursor hgrid
  · rw [if_pos hoff, eraseCursor_eq rfl]
    refine ⟨⟨h.lineCount, h.row, h.column, h.short, h.stored⟩, rfl, ?_⟩
    have hkept' : Kept s { t with viewOffset := 0 } l :=
      ⟨h.lineCount, h.row, h.column, h.short, h.stored⟩
    have hrow := h.row
    have hshows := hkept'.renderView hcount (le_refl 0) (by dsimp only; omega)
      fun p hp hlast => h.blank hp hlast
    exact ShowsBut.eraseCursor (t := renderView s { t with viewOffset := 0 })
      (hshows.mono fun _ hp => hp.elim) hgrid

theorem Live.newline_column (h : Live s t l) (hcount : l.newline.count < 2 ^ 31) :
    (Tty.newline s t).column = 0 := by
  rw [newline_eq h.lineCount hcount]
  split_ifs <;> rfl

theorem Screen.cols_pos (s : Screen) : 0 < s.cols := s.cols_range.1

theorem Live.putGlyph_column (h : Live s t l) (hcol : t.column < s.cols) (hc : c ≠ 0)
    (hcount : (l.append s.cols c).count < 2 ^ 31) : (Tty.putGlyph s t c).column < s.cols := by
  have hcols : s.cols ≤ 240 := s.cols_range.2
  have hmax : ttyMaxCols = 256 := rfl
  rw [putGlyph_eq (by omega)]
  rw [Log.append, ← h.column] at hcount
  by_cases hfull : s.cols ≤ t.column + 1
  · rw [if_pos hfull] at hcount ⊢
    rw [(h.glyphPut hcol hc).newline_column hcount]
    exact s.cols_pos
  · rw [if_neg hfull]
    exact not_le.mp hfull

theorem Agrees.putchar (h : Agrees s t l) (hcount : (l.putchar s.cols c).count < 2 ^ 31)
    (hc : c ≠ 0) (hback : c = 8 → 0 < t.column) :
    Agrees s (putchar s t c) (l.putchar s.cols c) := by
  have hmono := l.count_le_putchar s.cols c
  have hlive := h.backToOutput (by omega)
  have hcolumn : (Tty.backToOutput s t).column = t.column := hlive.column.trans h.column.symm
  have hput : Tty.putchar s t c = Tty.drawCursor s
      (if c = 10 then Tty.newline s (Tty.backToOutput s t)
        else if c = 8 then Tty.backspace s (Tty.backToOutput s t)
        else Tty.putGlyph s (Tty.backToOutput s t) c) := rfl
  rw [hput]
  unfold Log.putchar at hcount ⊢
  by_cases hnew : c = 10
  · rw [if_pos hnew] at hcount ⊢
    rw [if_pos hnew]
    refine (hlive.newline hcount).drawCursor ?_
    rw [hlive.newline_column hcount]
    exact s.cols_pos
  · rw [if_neg hnew] at hcount ⊢
    rw [if_neg hnew]
    by_cases hbs : c = 8
    · rw [if_pos hbs, if_pos hbs]
      have hpos : 0 < (Tty.backToOutput s t).column := by
        rw [hcolumn]
        exact hback hbs
      have hlive' := hlive.backspace hpos
      refine hlive'.drawCursor ?_
      have hlt := h.column_lt
      rw [hlive'.column, Log.last, Log.setLast_count, Log.setLast_text, List.length_dropLast,
        ← h.column]
      omega
    · rw [if_neg hbs] at hcount ⊢
      rw [if_neg hbs]
      have hlt := h.column_lt
      rw [← hcolumn] at hlt
      exact (hlive.putGlyph hlt hc hcount).drawCursor (hlive.putGlyph_column hlt hc hcount)

theorem Agrees.blinkCursor (h : Agrees s t l) : Agrees s (blinkCursor s t) l := by
  unfold Tty.blinkCursor
  by_cases hoff : t.viewOffset = 0
  · rw [if_neg (not_not.mpr hoff)]
    refine ⟨⟨h.lineCount, h.row, h.column, h.short, h.stored⟩, h.column_lt, h.offset_nonneg,
      h.offset_le, ?_⟩
    have hpainted := h.painted.mono fun _ hp => hp.2
    exact (hpainted.drawCursor _).mono fun p hp => ⟨hoff, hp⟩
  · rw [if_pos hoff]
    exact h

/-- At each offset that `tty_scroll_view` allows, the renderer paints the lines of the log. -/
theorem Agrees.render (h : Agrees s t l) (hcount : l.count < 2 ^ 31) {next : Int} (h0 : 0 ≤ next)
    (hle : next ≤ l.count - t.row - max 0 ((l.count : Int) - 511)) :
    Shows s (renderView s { t with viewOffset := next }).canvas (l.grid s t.row next) := by
  have hkept : Kept s { t with viewOffset := next } l :=
    ⟨h.lineCount, h.row, h.column, h.short, h.stored⟩
  exact hkept.renderView hcount h0 (by dsimp only; omega) fun p hp hlast => h.blank hp hlast

theorem Agrees.scrollView (h : Agrees s t l) (hcount : l.count < 2 ^ 31) (delta : Int32) :
    Agrees s (scrollView s t delta) l := by
  have hrow := h.row
  have hrows : s.rows ≤ 67 := s.rows_range.2
  unfold Tty.scrollView
  rw [h.maxScrollback hcount]
  dsimp only
  generalize hmax : (l.count : Int) - t.row - max 0 ((l.count : Int) - 511) = top
  generalize hnext : (if top < if int32 (t.viewOffset + delta.toInt) < 0 then 0
      else int32 (t.viewOffset + delta.toInt) then top
    else if int32 (t.viewOffset + delta.toInt) < 0 then 0
      else int32 (t.viewOffset + delta.toInt)) = next
  have hrange : 0 ≤ next ∧ next ≤ top := by
    rw [← hnext]
    split_ifs <;> omega
  have hshows := h.render hcount hrange.1 (by omega)
  by_cases hsame : next = t.viewOffset
  · rw [if_pos hsame]
    exact h
  · rw [if_neg hsame]
    by_cases hzero : next = 0
    · subst hzero
      rw [if_pos (c := (Tty.renderView s { t with viewOffset := 0 }).viewOffset = 0) rfl]
      have hlive : Live s (Tty.renderView s { t with viewOffset := 0 }) l :=
        ⟨⟨h.lineCount, h.row, h.column, h.short, h.stored⟩, rfl, hshows⟩
      exact hlive.drawCursor h.column_lt
    · rw [if_neg (c := (Tty.renderView s { t with viewOffset := next }).viewOffset = 0) hzero]
      refine ⟨⟨h.lineCount, h.row, h.column, h.short, h.stored⟩, h.column_lt, hrange.1, ?_,
        hshows.mono fun _ hp => hp.elim⟩
      exact hrange.2.trans (le_of_eq hmax.symm)

theorem clear_agrees (s : Screen) (t : Terminal) : Agrees s (clear s t) Log.empty := by
  have hcleared : Shows s (s.drawRect 0 0 s.width s.height bgColor t.canvas) fun _ => [] := by
    intro p hp _
    rw [Screen.drawRect_apply _ _ _ _ hp, textPixel_nil, if_pos]
    exact ⟨⟨Nat.zero_le _, by have := hp.1; omega⟩, Nat.zero_le _, by have := hp.2; omega⟩
  have hkept : Kept s
      { histClearLine t 0 with
        row := 0
        column := 0
        lineCount := 0
        viewOffset := 0
        canvas := s.drawRect 0 0 s.width s.height bgColor t.canvas } Log.empty := by
    refine ⟨rfl, rfl, rfl, fun k _ => Nat.zero_le _, fun k hk _ => ?_⟩
    obtain rfl := Nat.le_zero.mp hk
    show Stored (histLine (histClearLine t 0) 0) []
    rw [histClearLine, histLine_setHist]
    exact Stored.nil _
  have hlive := Live.mk hkept rfl (hcleared.congr fun r => by
    rw [Log.grid, Log.line]
    split_ifs <;> rfl)
  exact hlive.drawCursor s.cols_pos

/-! ## Runs -/

inductive Op where
  | putchar (c : UInt8)
  | scrollView (deltaLines : Int32)
  /-- The timer, between two calls. -/
  | blinkCursor

def step (s : Screen) (t : Terminal) : Op → Terminal
  | .putchar c => putchar s t c
  | .scrollView deltaLines => scrollView s t deltaLines
  | .blinkCursor => blinkCursor s t

def Log.step (cols : Nat) (l : Log) : Op → Log
  | .putchar c => l.putchar cols c
  | .scrollView _ | .blinkCursor => l

/-- No NUL is printed, and no backspace at the beginning of a line. -/
def Op.Allowed (t : Terminal) : Op → Prop
  | .putchar c => c ≠ 0 ∧ (c = 8 → 0 < t.column)
  | .scrollView _ | .blinkCursor => True

instance (t : Terminal) : (op : Op) → Decidable (op.Allowed t)
  | .putchar c => inferInstanceAs (Decidable (c ≠ 0 ∧ (c = 8 → 0 < t.column)))
  | .scrollView _ | .blinkCursor => inferInstanceAs (Decidable True)

def Runs (s : Screen) (t : Terminal) : List Op → Prop
  | [] => True
  | op :: ops => op.Allowed t ∧ Runs s (step s t op) ops

instance : (s : Screen) → (t : Terminal) → (ops : List Op) → Decidable (Runs s t ops)
  | _, _, [] => inferInstanceAs (Decidable True)
  | s, t, op :: ops =>
    have := instDecidableRuns s (step s t op) ops
    inferInstanceAs (Decidable (op.Allowed t ∧ Runs s (step s t op) ops))

theorem Log.count_le_run (cols : Nat) (l : Log) (ops : List Op) :
    l.count ≤ (ops.foldl (Log.step cols) l).count := by
  induction ops generalizing l with
  | nil => exact le_refl _
  | cons op ops ih =>
    refine le_trans ?_ (ih (l.step cols op))
    cases op with
    | putchar c => exact l.count_le_putchar cols c
    | scrollView deltaLines => exact le_refl _
    | blinkCursor => exact le_refl _

theorem Agrees.step (h : Agrees s t l) {op : Op} (hop : op.Allowed t)
    (hcount : (l.step s.cols op).count < 2 ^ 31) :
    Agrees s (Tty.step s t op) (l.step s.cols op) := by
  cases op with
  | putchar c => exact h.putchar hcount hop.1 hop.2
  | scrollView deltaLines => exact h.scrollView hcount deltaLines
  | blinkCursor => exact h.blinkCursor

theorem Agrees.run {ops : List Op} (h : Agrees s t l) (hr : Runs s t ops)
    (hcount : (ops.foldl (Log.step s.cols) l).count < 2 ^ 31) :
    Agrees s (ops.foldl (Tty.step s) t) (ops.foldl (Log.step s.cols) l) := by
  induction ops generalizing t l with
  | nil => exact h
  | cons op ops ih =>
    have hle := Log.count_le_run s.cols (l.step s.cols op) ops
    exact ih (h.step hr.1 (lt_of_le_of_lt hle hcount)) hr.2 hcount

/-- After any output of fewer than `2 ^ 31` lines, with any scrolling in between, the screen shows
the lines of the log at the offset of the view, but for the cursor; `tty_render_view` paints them
at every offset that can be reached, and without an offset nothing else than what is there. -/
theorem scrollback_agrees (s : Screen) (t₀ : Terminal) (ops : List Op)
    (hr : Runs s (clear s t₀) ops)
    (hcount : (ops.foldl (Log.step s.cols) Log.empty).count < 2 ^ 31) :
    let t := ops.foldl (step s) (clear s t₀)
    let l := ops.foldl (Log.step s.cols) Log.empty
    (t.row = min l.count (s.rows - 1) ∧ t.column = l.last.length) ∧
    (0 ≤ t.viewOffset ∧ t.viewOffset ≤ maxScrollback t) ∧
    ShowsBut s (fun p => t.viewOffset = 0 ∧ OnCursor t.row t.column p) t.canvas
      (l.grid s t.row t.viewOffset) ∧
    (∀ offset, 0 ≤ offset → offset ≤ maxScrollback t →
      Shows s (renderView s { t with viewOffset := offset }).canvas (l.grid s t.row offset)) ∧
    (t.viewOffset = 0 → ∀ p, s.Has p → ¬OnCursor t.row t.column p →
      t.canvas p = (renderView s t).canvas p) := by
  intro t l
  have h : Agrees s t l := (clear_agrees s t₀).run hr hcount
  have hmax := h.maxScrollback hcount
  refine ⟨⟨h.row, h.column⟩, ⟨h.offset_nonneg, ?_⟩, h.painted, fun offset h0 hle => ?_,
    fun hoff p hp hno => ?_⟩
  · rw [hmax]
    exact h.offset_le
  · rw [hmax] at hle
    exact h.render hcount h0 hle
  · have hshows := h.render hcount h.offset_nonneg h.offset_le
    rw [h.painted p hp fun hc => hno hc.2]
    exact (hshows p hp id).symm

/-- A screen of one row and two columns. -/
def smallScreen : Screen := ⟨16, 16, fun _ _ => 0xFF, by decide, by decide⟩

def oldTerminal : Terminal := ⟨0, 5, fun _ _ => 65, 7, 3, false, fun _ => 0⟩

/-- The line `ab` is full, and has been scrolled back into view. -/
def twoLines : List Op := [.putchar 97, .putchar 98, .putchar 99, .scrollView 1]

theorem scrollback_agrees_twoLines :
    (twoLines.foldl (step smallScreen) (clear smallScreen oldTerminal)).canvas (15, 0) = fgColor := by
  have h := scrollback_agrees smallScreen oldTerminal twoLines (by decide +kernel) (by decide +kernel)
  have hoff : (twoLines.foldl (step smallScreen) (clear smallScreen oldTerminal)).viewOffset = 1 := by
    decide +kernel
  rw [h.2.2.1 (15, 0) (by decide) (by rw [hoff]; simp)]
  decide +kernel

end Kyuzen.Tty
