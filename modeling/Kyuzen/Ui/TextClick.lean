import Kyuzen.Lib.Lines
import Kyuzen.Ui.TextEdit

/-!
# Clicks in the text editor

`draw` goes through the text row by row and begins a new row where a line ends and where a line is
longer than the widget is wide; `on_click` and the caret know the lines only. They agree on the
characters up to which no line shown is longer than a row (`Unbroken`): a click on such a character
puts the cursor before it, and the caret is at its left edge (`click_hits`). A click on a row that
is only partly in the widget scrolls by one line.
-/

namespace Kyuzen.Ui.TextEdit

open Lib

variable {t u v : TextEdit} {i j n idx : Nat}

/-! ## The functions on lines -/

/-- Where the newlines of the text are. -/
def isNl (t : TextEdit) (i : Nat) : Bool := t.text i == newline

theorem isNl_iff : isNl t i = true ↔ t.text i = newline := by rw [isNl, beq_iff_eq]

theorem isNl_false : isNl t i = false ↔ ¬ t.text i = newline := by
  rw [← isNl_iff, Bool.not_eq_true]

theorem countLines_eq (h : n ≤ maxText) : countLines t n = some (lineNo (isNl t) n) := by
  induction n with
  | zero => rfl
  | succ n ih =>
    rw [countLines, ih (by omega), get_eq (by omega), lineNo]
    by_cases hc : t.text n = newline
    · rw [if_pos (isNl_iff.mpr hc)]
      simp [hc]
    · rw [if_neg (by rw [isNl_iff]; exact hc)]
      simp [hc]

theorem lineStart_eq (h : i ≤ maxText) : lineStart t i = some (lineBeg (isNl t) i) := by
  induction i with
  | zero => rfl
  | succ i ih =>
    rw [lineStart, get_eq (by omega), ih (by omega), lineBeg]
    by_cases hc : t.text i = newline
    · rw [if_pos (isNl_iff.mpr hc)]
      simp [hc]
    · rw [if_neg (by rw [isNl_iff]; exact hc)]
      simp [hc]

/-- The number of the first line that can be shown. -/
def lastTop (t : TextEdit) : Int := max ((lineNo (isNl t) t.len + 1 : Nat) - t.visLines) 0

theorem clampScroll_eq (h : t.len ≤ maxText) :
    clampScroll t = some { t with scrollTop := max (min t.scrollTop (lastTop t)) 0 } := by
  rw [clampScroll, totalLines, countLines_eq h]
  have hmax : 0 ≤ lastTop t := le_max_right _ _
  have htop : (if (if t.scrollTop > lastTop t then lastTop t else t.scrollTop) < 0 then 0
      else if t.scrollTop > lastTop t then lastTop t else t.scrollTop) =
        max (min t.scrollTop (lastTop t)) 0 := by
    split <;> split <;> omega
  rw [← htop]
  rfl

/-- The loop that looks for a row stops where the line with that number begins. -/
theorem skipLines_eq {b row : Nat} (left : Nat) (hidx : idx ≤ b) (hb : b ≤ idx + left)
    (hmax : idx + left ≤ maxText) (hbeg : lineBeg (isNl t) b = b)
    (hrow : lineNo (isNl t) b = row) :
    skipLines t row idx (lineNo (isNl t) idx) left = some b := by
  induction left generalizing idx with
  | zero =>
    obtain rfl : idx = b := by omega
    rfl
  | succ left ih =>
    rw [skipLines]
    rcases Nat.lt_or_ge idx b with hlt | hge
    · have hno := lineNo_lt hlt hbeg
      rw [if_pos (by omega), get_eq (by omega)]
      have hnext := ih (show idx + 1 ≤ b by omega) (by omega) (by omega)
      rw [lineNo] at hnext
      by_cases hc : t.text idx = newline
      · rw [if_pos (isNl_iff.mpr hc)] at hnext
        simp [hc, hnext]
      · rw [if_neg (by rw [isNl_iff]; exact hc)] at hnext
        simp [hc, hnext]
    · obtain rfl : idx = b := by omega
      rw [if_neg (by omega)]

/-- Where it stops otherwise: at the beginning of the line, or at the end of the text. -/
theorem skipLines_stop {row : Int} {left : Nat} (hmax : idx + left ≤ maxText)
    (hstart : lineBeg (isNl t) idx = idx ∨ (lineNo (isNl t) idx : Int) < row)
    (hrow : (lineNo (isNl t) idx : Int) ≤ row)
    (hj : skipLines t row idx (lineNo (isNl t) idx) left = some j) :
    (lineBeg (isNl t) j = j ∧ (lineNo (isNl t) j : Int) = row) ∨ j = idx + left := by
  induction left generalizing idx with
  | zero =>
    rw [skipLines, Option.some_inj] at hj
    exact Or.inr hj.symm
  | succ left ih =>
    rw [skipLines] at hj
    by_cases hlt : (lineNo (isNl t) idx : Int) < row
    · rw [if_pos hlt, get_eq (by omega), Option.bind_eq_bind, Option.bind_some] at hj
      have hnext := @ih (idx + 1) (by omega)
      rw [lineNo, lineBeg] at hnext
      by_cases hc : t.text idx = newline
      · rw [if_pos (isNl_iff.mpr hc), if_pos (isNl_iff.mpr hc)] at hnext
        rw [if_pos hc] at hj
        rcases hnext (Or.inl rfl) (by omega) hj with h | h
        · exact Or.inl h
        · exact Or.inr (by omega)
      · rw [if_neg (by rw [isNl_iff]; exact hc), if_neg (by rw [isNl_iff]; exact hc)] at hnext
        rw [if_neg hc] at hj
        rcases hnext (Or.inr hlt) hrow hj with h | h
        · exact Or.inl h
        · exact Or.inr (by omega)
    · rw [if_neg hlt, Option.some_inj] at hj
      subst hj
      exact Or.inl ⟨hstart.resolve_right hlt, by omega⟩

/-- The loop that looks for a column gets to a character of its line. -/
theorem skipColumns_eq (c left : Nat) (hidx : idx ≤ i) (hleft : i < idx + left)
    (hmax : idx + left ≤ maxText) (hnl : ∀ j, idx ≤ j → j < i → isNl t j = false) :
    skipColumns t ((c + (i - idx) : Nat) : Int) idx c left = some i := by
  induction left generalizing idx c with
  | zero => omega
  | succ left ih =>
    rw [skipColumns, get_eq (by omega), Option.bind_eq_bind, Option.bind_some]
    rcases Nat.lt_or_ge idx i with hlt | hge
    · have hc := isNl_false.mp (hnl idx le_rfl hlt)
      have hgo : ¬ (t.text idx = newline ∨ ¬ (c : Int) < ((c + (i - idx) : Nat) : Int)) := by
        rw [not_or, not_not]
        exact ⟨hc, by omega⟩
      have hcol : c + (i - idx) = c + 1 + (i - (idx + 1)) := by omega
      rw [if_neg hgo, hcol]
      exact ih (c + 1) (by omega) (by omega) (by omega) fun j hj => hnl j (by omega)
    · obtain rfl : idx = i := by omega
      rw [if_pos (Or.inr (by omega))]

/-! ## The rows -/

/-- The columns of a row. -/
def columns (t : TextEdit) : Nat := ((t.w - 8).tdiv charW).toNat

theorem le_of_lt_columns {c : Nat} (h : c < columns t) : (c : Int) * charW + 16 ≤ t.w := by
  rw [columns, charW, Int.tdiv_eq_ediv] at h
  have hsign : Int.sign 8 = 1 := rfl
  simp only [charW]
  split at h <;> omega

/-- A row holds the characters up to a newline, the end of the text, or its last column. -/
theorem drawRow_spec {top left : Int} {k : Nat} {cells : List Cell} (hidx : idx ≤ t.len)
    (hmax : t.len ≤ maxText) (h : drawRow t top k idx left = some (cells, j)) :
    idx ≤ j ∧ j ≤ t.len ∧ (∀ m, idx ≤ m → m < j → isNl t m = false) ∧
      (j = t.len ∨ isNl t j = true ∨ j = idx + k) ∧
      ∀ cell ∈ cells, idx ≤ cell.index ∧ cell.index < j ∧
        cell.left = left + (cell.index - idx : Nat) * charW ∧ cell.top = top := by
  induction k generalizing idx left cells with
  | zero =>
    rw [drawRow, Option.some_inj, Prod.mk.injEq] at h
    obtain ⟨rfl, rfl⟩ := h
    exact ⟨le_rfl, hidx, fun m hm hmj => by omega, Or.inr (Or.inr rfl), fun _ hc => by cases hc⟩
  | succ k ih =>
    rw [drawRow] at h
    by_cases hlt : idx < t.len
    · rw [if_pos hlt, get_eq (by omega), Option.bind_eq_bind, Option.bind_some] at h
      by_cases hc : t.text idx = newline
      · rw [if_pos hc, Option.some_inj, Prod.mk.injEq] at h
        obtain ⟨rfl, rfl⟩ := h
        exact ⟨le_rfl, hidx, fun m hm hmj => by omega, Or.inr (Or.inl (isNl_iff.mpr hc)),
          fun _ hc => by cases hc⟩
      · rw [if_neg hc] at h
        simp only [Option.bind_eq_bind, Option.bind_eq_some_iff, Option.some_inj,
          Prod.mk.injEq, Prod.exists] at h
        obtain ⟨cells', j', hrest, rfl, rfl⟩ := h
        obtain ⟨hle, hlen, hnone, hend, hcells⟩ := ih (by omega) hrest
        refine ⟨by omega, hlen, fun m hm hmj => ?_, ?_, fun cell hcell => ?_⟩
        · by_cases heq : m = idx
          · rw [heq]
            exact isNl_false.mpr hc
          · exact hnone m (by omega) hmj
        · rcases hend with hend | hend | hend
          · exact Or.inl hend
          · exact Or.inr (Or.inl hend)
          · exact Or.inr (Or.inr (by omega))
        · rcases List.mem_cons.mp hcell with rfl | hcell
          · exact ⟨le_rfl, hle, by simp, rfl⟩
          · obtain ⟨hge, hlt', hleft, htop⟩ := hcells cell hcell
            refine ⟨by omega, hlt', ?_, htop⟩
            have hsub : cell.index - idx = cell.index - (idx + 1) + 1 := by omega
            rw [hleft, hsub]
            push_cast
            ring
    · rw [if_neg hlt, Option.some_inj, Prod.mk.injEq] at h
      obtain ⟨rfl, rfl⟩ := h
      exact ⟨le_rfl, hidx, fun m hm hmj => by omega, Or.inl (by omega), fun _ hc => by cases hc⟩

/-- Where the next row begins. -/
theorem skipNewline_spec (hmax : t.len ≤ maxText) (h : skipNewline t idx = some j) :
    j = if idx < t.len ∧ isNl t idx = true then idx + 1 else idx := by
  rw [skipNewline] at h
  by_cases hlt : idx < t.len
  · rw [if_pos hlt, get_eq (by omega), Option.bind_eq_bind, Option.bind_some,
      Option.some_inj] at h
    by_cases hc : t.text idx = newline
    · rw [if_pos hc] at h
      rw [if_pos ⟨hlt, isNl_iff.mpr hc⟩, h]
    · rw [if_neg hc] at h
      rw [if_neg (fun hand => hc (isNl_iff.mp hand.2)), h]
  · rw [if_neg hlt, Option.some_inj] at h
    rw [if_neg fun hand => hlt hand.1, h]

/-- The rows from a position on. -/
theorem drawRows_succ {k rounds : Nat} {top : Int} {cells : List Cell}
    (h : drawRows t k (rounds + 1) idx top = some cells) {cell : Cell} (hcell : cell ∈ cells) :
    top < t.y + t.h ∧ idx < t.len ∧ ∃ row j next rest,
      drawRow t top k idx (t.x + 4) = some (row, j) ∧ skipNewline t j = some next ∧
        drawRows t k rounds next (top + lineH) = some rest ∧ (cell ∈ row ∨ cell ∈ rest) := by
  rw [drawRows] at h
  split at h
  · rename_i hin
    simp only [Option.bind_eq_bind, Option.bind_eq_some_iff, Option.some_inj, Prod.exists] at h
    obtain ⟨row, j, hrow, next, hnext, rest, hrest, rfl⟩ := h
    exact ⟨hin.1, hin.2, row, j, next, rest, hrow, hnext, hrest, List.mem_append.mp hcell⟩
  · rw [Option.some_inj] at h
    rw [← h] at hcell
    cases hcell

theorem le_of_drawRows {k rounds : Nat} {top : Int} {cells : List Cell} (hmax : t.len ≤ maxText)
    (h : drawRows t k rounds idx top = some cells) {cell : Cell} (hcell : cell ∈ cells) :
    idx ≤ cell.index := by
  induction rounds generalizing idx top cells with
  | zero =>
    rw [drawRows, Option.some_inj] at h
    rw [← h] at hcell
    cases hcell
  | succ rounds ih =>
    obtain ⟨_, hlt, row, j, next, rest, hrow, hnext, hrest, hmem⟩ := drawRows_succ h hcell
    obtain ⟨hle, _, _, _, hcells⟩ := drawRow_spec hlt.le hmax hrow
    rcases hmem with hmem | hmem
    · exact (hcells cell hmem).1
    · have := ih hrest hmem
      have hskip := skipNewline_spec hmax hnext
      split at hskip <;> omega

theorem lt_of_drawRows {k rounds : Nat} {top : Int} {cells : List Cell}
    (h : drawRows t k rounds idx top = some cells) {cell : Cell} (hcell : cell ∈ cells) :
    idx < t.len := by
  cases rounds with
  | zero =>
    rw [drawRows, Option.some_inj] at h
    rw [← h] at hcell
    cases hcell
  | succ rounds => exact (drawRows_succ h hcell).2.1

/-- No character up to this one is beyond the last column of its row. -/
def UnbrokenFrom (t : TextEdit) (k idx i : Nat) : Prop :=
  ∀ j, idx ≤ j → j ≤ i → isNl t j = false → j - lineBeg (isNl t) j < k

/-- A character is in the row of its line and in the column of its place in the line. -/
theorem drawRows_cell {k rounds : Nat} {top : Int} {cells : List Cell} (hmax : t.len ≤ maxText)
    (hbeg : lineBeg (isNl t) idx = idx) (h : drawRows t k rounds idx top = some cells)
    {cell : Cell} (hcell : cell ∈ cells) (hun : UnbrokenFrom t k idx cell.index) :
    cell.index < t.len ∧ isNl t cell.index = false ∧
      cell.left = t.x + 4 + (cell.index - lineBeg (isNl t) cell.index : Nat) * charW ∧
      cell.top = top + ((lineNo (isNl t) cell.index : Int) - lineNo (isNl t) idx) * lineH ∧
      cell.top < t.y + t.h := by
  induction rounds generalizing idx top cells with
  | zero =>
    rw [drawRows, Option.some_inj] at h
    rw [← h] at hcell
    cases hcell
  | succ rounds ih =>
    have hge := le_of_drawRows hmax h hcell
    obtain ⟨hin, hlt, row, j, next, rest, hrow, hnext, hrest, hmem⟩ := drawRows_succ h hcell
    obtain ⟨hle, hjlen, hnone, hend, hcells⟩ := drawRow_spec hlt.le hmax hrow
    rcases hmem with hmem | hmem
    · obtain ⟨hci, hcj, hleft, htop⟩ := hcells cell hmem
      have hnone' : ∀ m, idx ≤ m → m < cell.index → isNl t m = false :=
        fun m hm hmc => hnone m hm (by omega)
      have hno := lineNo_of_none hci hnone'
      have hlb := (lineBeg_of_none hci hnone').trans hbeg
      refine ⟨by omega, hnone _ hci hcj, by rw [hlb, hleft], ?_, htop ▸ hin⟩
      rw [hno, htop, sub_self, zero_mul, add_zero]
    · have hjno := lineNo_of_none hle hnone
      have hjbeg := (lineBeg_of_none hle hnone).trans hbeg
      have hskip := skipNewline_spec hmax hnext
      have hnextle := le_of_drawRows hmax hrest hmem
      by_cases hnl : j < t.len ∧ isNl t j = true
      · rw [if_pos hnl] at hskip
        subst hskip
        have hnextbeg := lineBeg_succ_of_nl hnl.2
        have hnextno := lineNo_succ_of_nl hnl.2
        obtain ⟨hclen, hcnl, hleft, htop, hview⟩ := ih hnextbeg hrest hmem
          fun m hm hmc => hun m (by omega) hmc
        refine ⟨hclen, hcnl, hleft, ?_, hview⟩
        rw [htop, hnextno, hjno]
        push_cast
        ring
      · rw [if_neg hnl] at hskip
        subst hskip
        have hjlt := lt_of_drawRows hrest hmem
        have hjnl : isNl t next = false := Bool.eq_false_iff.mpr fun htrue => hnl ⟨hjlt, htrue⟩
        -- the row has ended at its last column
        have hlast : next = idx + k := by
          rcases hend with hend | hend | hend
          · omega
          · rw [hjnl] at hend
            cases hend
          · exact hend
        have := hun next hle hnextle hjnl
        omega

/-- A row has all the characters from where it begins to where it ends. -/
theorem mem_drawRow {top left : Int} {k m : Nat} {cells : List Cell} (hmax : t.len ≤ maxText)
    (h : drawRow t top k idx left = some (cells, j)) (hm : idx ≤ m) (hmj : m < j) :
    ∃ cell ∈ cells, cell.index = m := by
  induction k generalizing idx left cells with
  | zero =>
    rw [drawRow, Option.some_inj, Prod.mk.injEq] at h
    omega
  | succ k ih =>
    rw [drawRow] at h
    by_cases hlt : idx < t.len
    · rw [if_pos hlt, get_eq (by omega), Option.bind_eq_bind, Option.bind_some] at h
      by_cases hc : t.text idx = newline
      · rw [if_pos hc, Option.some_inj, Prod.mk.injEq] at h
        omega
      · rw [if_neg hc] at h
        simp only [Option.bind_eq_bind, Option.bind_eq_some_iff, Option.some_inj,
          Prod.mk.injEq, Prod.exists] at h
        obtain ⟨cells', j', hrest, rfl, rfl⟩ := h
        rcases Nat.eq_or_lt_of_le hm with rfl | hm
        · exact ⟨_, List.mem_cons_self, rfl⟩
        · obtain ⟨cell, hcell, hindex⟩ := ih hrest hm
          exact ⟨cell, List.mem_cons_of_mem _ hcell, hindex⟩
    · rw [if_neg hlt, Option.some_inj, Prod.mk.injEq] at h
      omega

/-- The rows have every character whose row begins in the widget. -/
theorem mem_drawRows {k rounds : Nat} {top : Int} {cells : List Cell} (hmax : t.len ≤ maxText)
    (hbeg : lineBeg (isNl t) idx = idx) (h : drawRows t k rounds idx top = some cells)
    (hidx : idx ≤ i) (hi : i < t.len) (hnl : isNl t i = false) (hun : UnbrokenFrom t k idx i)
    (hview : top + ((lineNo (isNl t) i : Int) - lineNo (isNl t) idx) * lineH < t.y + t.h)
    (hrounds : lineNo (isNl t) i < lineNo (isNl t) idx + rounds) :
    ∃ cell ∈ cells, cell.index = i := by
  induction rounds generalizing idx top cells with
  | zero =>
    have := lineNo_mono (isNl t) hidx
    omega
  | succ rounds ih =>
    have hmono := lineNo_mono (isNl t) hidx
    simp only [lineH] at hview
    rw [drawRows, if_pos ⟨by omega, by omega⟩] at h
    simp only [Option.bind_eq_bind, Option.bind_eq_some_iff, Option.some_inj, Prod.exists] at h
    obtain ⟨row, j, hrow, next, hnext, rest, hrest, rfl⟩ := h
    obtain ⟨hle, hjlen, hnone, hend, _⟩ := drawRow_spec (by omega) hmax hrow
    rcases Nat.lt_or_ge i j with hij | hij
    · obtain ⟨cell, hcell, hindex⟩ := mem_drawRow hmax hrow hidx hij
      exact ⟨cell, List.mem_append_left _ hcell, hindex⟩
    · have hjno := lineNo_of_none hle hnone
      have hjbeg := (lineBeg_of_none hle hnone).trans hbeg
      -- a row that does not end at its last column ends at a newline
      have hjnl : isNl t j = true := by
        by_contra hjnl
        rw [Bool.not_eq_true] at hjnl
        have hcol := hun j hle hij hjnl
        rcases hend with hend | hend | hend
        · omega
        · rw [hjnl] at hend
          cases hend
        · omega
      have hskip := skipNewline_spec hmax hnext
      rw [if_pos ⟨by omega, hjnl⟩] at hskip
      subst hskip
      have hne : j ≠ i := by
        rintro rfl
        rw [hnl] at hjnl
        cases hjnl
      have hnextno := lineNo_succ_of_nl hjnl
      obtain ⟨cell, hcell, hindex⟩ := ih (lineBeg_succ_of_nl hjnl) hrest (by omega)
        (fun m hm => hun m (by omega)) (by simp only [hnextno, lineH]; omega) (by omega)
      exact ⟨cell, List.mem_append_right _ hcell, hindex⟩

/-! ## A click -/

/-- No line shown is longer than a row, up to this character. -/
def Unbroken (u : TextEdit) (i : Nat) : Prop :=
  ∀ j ≤ i, u.scrollTop ≤ lineNo (isNl u) j → isNl u j = false →
    j - lineBeg (isNl u) j < u.columns

/-- The point is in the cell. -/
structure InCell (cell : Cell) (mx my : Int) : Prop where
  left : cell.left ≤ mx
  right : mx < cell.left + charW
  top : cell.top ≤ my
  bottom : my < cell.top + lineH

/-- What `draw` leaves of the widget, and how it has painted a character. -/
structure Drawn (u : TextEdit) (cell : Cell) : Prop where
  fits : u.len ≤ maxText
  topNonneg : 0 ≤ u.scrollTop
  topLast : u.scrollTop ≤ lastTop u
  index : cell.index < u.len
  nl : isNl u cell.index = false
  line : u.scrollTop ≤ lineNo (isNl u) cell.index
  column : cell.index - lineBeg (isNl u) cell.index < u.columns
  left : cell.left = u.x + 4 + (cell.index - lineBeg (isNl u) cell.index : Nat) * charW
  top : cell.top = u.y + ((lineNo (isNl u) cell.index : Int) - u.scrollTop) * lineH
  bottom : cell.top < u.y + u.h

theorem draw_drawn {d : Drawing} {cell : Cell} (hlen : t.len ≤ maxText)
    (hdraw : draw t = some (u, d)) (hcell : cell ∈ d.cells) (hun : Unbroken u cell.index) :
    Drawn u cell := by
  rw [draw] at hdraw
  simp only [Option.bind_eq_bind, Option.bind_eq_some_iff, Option.some_inj, Prod.mk.injEq] at hdraw
  obtain ⟨v, hu, idx, hskip, cells, hrows, caret, -, hvu, rfl⟩ := hdraw
  rw [hvu] at hu hskip hrows
  rw [clampScroll_eq hlen, Option.some_inj] at hu
  have hlenu : u.len ≤ maxText := by
    rw [← hu]
    exact hlen
  have hnonneg : 0 ≤ u.scrollTop := by
    rw [← hu]
    exact le_max_right _ _
  have hlast : u.scrollTop ≤ lastTop u := by
    rw [← hu]
    exact max_le (min_le_right _ _) (le_max_right _ _)
  have hlt := lt_of_drawRows hrows hcell
  have hge := le_of_drawRows hlenu hrows hcell
  have hstop := skipLines_stop (t := u) (by omega) (Or.inl rfl) hnonneg hskip
  obtain ⟨hbeg, hno⟩ := hstop.resolve_right (by omega)
  have hfrom : ∀ j, idx ≤ j → u.scrollTop ≤ lineNo (isNl u) j := by
    intro j hj
    have := lineNo_mono (isNl u) hj
    omega
  obtain ⟨hindex, hnl, hleft, htop, hbottom⟩ := drawRows_cell hlenu hbeg hrows hcell
    fun j hj hji hjnl => hun j hji (hfrom j hj) hjnl
  refine ⟨hlenu, hnonneg, hlast, hindex, hnl, hfrom _ hge, hun _ le_rfl (hfrom _ hge) hnl, hleft,
    ?_, hbottom⟩
  rw [htop, hno]

/-- The click puts the cursor before the character of the cell. -/
theorem click_cur {cell : Cell} {mx my : Int} (h : Drawn u cell)
    (hin : InCell cell mx my) :
    onClick u mx my = ensureCursorVisible { u with cur := cell.index } := by
  obtain ⟨hlen, hnonneg, hlast, hindex, hnl, hline, hcolumn, hleft, htop, hbottom⟩ := h
  obtain ⟨hl, hr, ht, hb⟩ := hin
  have hle := lineBeg_le (isNl u) cell.index
  have hcol : max ((mx - u.x - 4).tdiv charW) 0 =
      ((0 + (cell.index - lineBeg (isNl u) cell.index) : Nat) : Int) := by
    rw [Int.tdiv_eq_ediv_of_nonneg (by simp only [charW] at hleft; omega)]
    simp only [charW] at hleft hr ⊢
    omega
  have hrow : (my - u.y).tdiv lineH + u.scrollTop = (lineNo (isNl u) cell.index : Int) := by
    rw [Int.tdiv_eq_ediv_of_nonneg (by simp only [lineH] at htop; omega)]
    simp only [lineH] at htop hb ⊢
    omega
  have hskip : skipLines u (lineNo (isNl u) cell.index) 0 0 u.len =
      some (lineBeg (isNl u) cell.index) :=
    skipLines_eq u.len (Nat.zero_le _) (by omega) (by omega) (lineBeg_lineBeg _ _)
      (lineNo_lineBeg _ _)
  have hcols := skipColumns_eq (t := u) 0 (u.len - lineBeg (isNl u) cell.index) hle (by omega)
    (by omega) fun j hj hji => nl_of_lineBeg hj hji
  rw [onClick]
  simp only [Option.bind_eq_bind, hcol, hrow]
  rw [hskip, Option.bind_some, hcols, Option.bind_some]

theorem visLines_eq (u : TextEdit) : u.visLines = max (u.h.tdiv 16) 1 := by
  rw [visLines, show lineH = 16 from rfl]
  split <;> omega

/-- By how many lines a click scrolls: by one when the row is not one of those that are wholly in
the widget. -/
def scrollBy (u : TextEdit) (cell : Cell) : Nat :=
  if cell.top < u.y + u.visLines * lineH then 0 else 1

theorem scrollBy_spec {cell : Cell} (h : Drawn u cell) :
    u.scrollTop + scrollBy u cell =
        (if (lineNo (isNl u) cell.index : Int) ≥ u.scrollTop + u.visLines then
          lineNo (isNl u) cell.index - u.visLines + 1
        else u.scrollTop) ∧
      u.scrollTop + scrollBy u cell ≤ lineNo (isNl u) cell.index ∧
      u.scrollTop + scrollBy u cell ≤ lastTop u ∧
      ((lineNo (isNl u) cell.index : Int) - (u.scrollTop + scrollBy u cell)) * lineH < u.h := by
  obtain ⟨_, hnonneg, hlast, hindex, _, hline, _, _, htop, hbottom⟩ := h
  have hmono := lineNo_mono (isNl u) hindex.le
  have hvis := visLines_eq u
  have hdiv : u.h.tdiv 16 = u.h / 16 := by
    refine Int.tdiv_eq_ediv_of_nonneg ?_
    simp only [lineH] at htop
    omega
  rw [hdiv] at hvis
  rw [scrollBy]
  by_cases hfull : cell.top < u.y + u.visLines * lineH
  · rw [if_pos hfull]
    simp only [lineH] at htop hfull ⊢
    rw [if_neg (by omega)]
    exact ⟨by omega, by omega, by omega, by omega⟩
  · rw [if_neg hfull, lastTop]
    simp only [lineH] at htop hfull ⊢
    rw [if_pos (by omega)]
    exact ⟨by omega, by omega, by omega, by omega⟩

/-- The widget after a click on a character. -/
def clicked (u : TextEdit) (cell : Cell) : TextEdit :=
  { u with cur := cell.index, scrollTop := u.scrollTop + scrollBy u cell }

theorem clampScroll_clicked {cell : Cell} (h : Drawn u cell) :
    clampScroll (clicked u cell) = some (clicked u cell) := by
  have hclamp := clampScroll_eq (t := clicked u cell) h.fits
  have hnonneg := h.topNonneg
  obtain ⟨_, _, hlast, _⟩ := scrollBy_spec h
  have htop : max (min (u.scrollTop + scrollBy u cell) (lastTop u)) 0 =
      u.scrollTop + scrollBy u cell := by omega
  exact hclamp.trans
    (congrArg (fun top => some { u with cur := cell.index, scrollTop := top }) htop)

theorem lineAt_clicked {cell : Cell} (h : Drawn u cell) (top : Int) :
    lineAt { u with cur := cell.index, scrollTop := top } cell.index =
      some (lineNo (isNl u) cell.index) := by
  have hindex := h.index
  have hlen := h.fits
  rw [lineAt]
  exact (congrArg _ (Nat.min_eq_left hindex.le)).trans
    (countLines_eq (t := { u with cur := cell.index, scrollTop := top }) (by omega))

theorem onClick_eq {cell : Cell} {mx my : Int} (h : Drawn u cell)
    (hin : InCell cell mx my) : onClick u mx my = some (clicked u cell) := by
  have hline := h.line
  have hlineAt := lineAt_clicked h u.scrollTop
  obtain ⟨htop, _⟩ := scrollBy_spec h
  rw [click_cur h hin, ensureCursorVisible, hlineAt, Option.bind_eq_bind, Option.bind_some,
    ← clampScroll_clicked h, clicked, htop]
  exact congrArg (fun top => clampScroll { u with cur := cell.index, scrollTop := top })
    (if_neg (not_lt.mpr hline))

/-! ## The caret -/

theorem drawCaret_clicked {cell : Cell} (h : Drawn u cell)
    (hfocus : u.hasFocus = true) :
    drawCaret (clicked u cell) =
      some (some (cell.left, cell.top - scrollBy u cell * lineH)) := by
  have hindex := h.index
  have hlen := h.fits
  have hcolumn := h.column
  have hlineAt := lineAt_clicked h (u.scrollTop + scrollBy u cell)
  have hbeg : lineStart (clicked u cell) cell.index = some (lineBeg (isNl u) cell.index) :=
    lineStart_eq (t := clicked u cell) (by omega)
  obtain ⟨_, _, _, hview⟩ := scrollBy_spec h
  have hright : ¬ u.x + 4 + ((cell.index : Int) - lineBeg (isNl u) cell.index) * charW ≥
      u.x + u.w := by
    have := le_of_lt_columns hcolumn
    have hle := lineBeg_le (isNl u) cell.index
    simp only [charW] at this ⊢
    omega
  have hleft : cell.left =
      u.x + 4 + ((cell.index : Int) - lineBeg (isNl u) cell.index) * charW := by
    rw [h.left, Nat.cast_sub (lineBeg_le _ _)]
  have htop : cell.top - scrollBy u cell * lineH =
      u.y + ((lineNo (isNl u) cell.index : Int) - (u.scrollTop + scrollBy u cell)) * lineH := by
    rw [h.top]
    ring
  rw [htop, hleft, drawCaret, if_pos (show (clicked u cell).hasFocus = true from hfocus),
    show lineAt (clicked u cell) (clicked u cell).cur = _ from hlineAt,
    show lineStart (clicked u cell) (clicked u cell).cur = _ from hbeg, Option.bind_eq_bind,
    Option.bind_some]
  refine (if_pos hview).trans ?_
  exact congrArg (fun left => some (some (left, _))) (if_neg hright)

/-- `draw` paints the caret on the cell where it paints the character of the click. -/
theorem draw_clicked {cell : Cell} (h : Drawn u cell)
    (hun : Unbroken u cell.index) :
    ∃ d, draw (clicked u cell) = some (clicked u cell, d) ∧
      ⟨cell.index, cell.left, cell.top - scrollBy u cell * lineH⟩ ∈ d.cells ∧
      (u.hasFocus = true →
        d.caret = some (cell.left, cell.top - scrollBy u cell * lineH)) := by
  have hlen := h.fits
  have hindex := h.index
  have hcolumn := h.column
  have hnonneg := h.topNonneg
  obtain ⟨_, hle, _, hview⟩ := scrollBy_spec h
  generalize hs : u.scrollTop + scrollBy u cell = s at hle hview
  -- the first row
  obtain ⟨row, rfl⟩ : ∃ row : Nat, s = row := ⟨s.toNat, by omega⟩
  obtain ⟨b, hb, hbeg, hrow⟩ := exists_lineBeg (isNl u)
    (show row ≤ lineNo (isNl u) cell.index by omega)
  have hskip : skipLines (clicked u cell) row 0 0 u.len = some b :=
    skipLines_eq (t := clicked u cell) u.len (Nat.zero_le _) (by omega) (by omega) hbeg hrow
  obtain ⟨cells, hcells⟩ := drawRows_some (t := clicked u cell) u.columns
    ((u.h + 15) / 16).toNat b u.y hlen
  have hfrom : UnbrokenFrom (clicked u cell) u.columns b cell.index := by
    intro j hj hji hjnl
    have := lineNo_mono (isNl u) hj
    exact hun j hji (by omega) hjnl
  obtain ⟨cell', hcell', hindex'⟩ := mem_drawRows (t := clicked u cell) hlen hbeg hcells hb hindex
    h.nl hfrom
    (by
      rw [show lineNo (isNl (clicked u cell)) b = row from hrow]
      exact Int.add_lt_add_left hview _)
    (by
      rw [show lineNo (isNl (clicked u cell)) b = row from hrow]
      simp only [lineH] at hview
      show lineNo (isNl u) cell.index < _
      omega)
  obtain ⟨_, _, hleft, htop, _⟩ := drawRows_cell (t := clicked u cell) hlen hbeg hcells hcell'
    (hindex'.symm ▸ hfrom)
  have hcaret := drawCaret_clicked h
  have hmem : ⟨cell.index, cell.left, cell.top - scrollBy u cell * lineH⟩ ∈ cells := by
    have hleft' : cell'.left = cell.left := by
      rw [hleft, hindex', h.left]
      rfl
    have htop' : cell'.top = cell.top - scrollBy u cell * lineH := by
      rw [htop, hindex', h.top, show lineNo (isNl (clicked u cell)) b = row from hrow, ← hs]
      show u.y + ((lineNo (isNl u) cell.index : Int) - (u.scrollTop + scrollBy u cell)) * lineH = _
      ring
    rw [← hindex', ← hleft', ← htop']
    exact hcell'
  obtain ⟨caret, hsome⟩ := drawCaret_some (t := clicked u cell) hindex.le hlen
  refine ⟨⟨cells, caret⟩, ?_, hmem, fun hfocus => ?_⟩
  · have hskip' : skipLines (clicked u cell) (clicked u cell).scrollTop 0 0 (clicked u cell).len =
        some b := by
      rw [show (clicked u cell).scrollTop = row from hs]
      exact hskip
    have hcells' : drawRows (clicked u cell) (((clicked u cell).w - 8).tdiv charW).toNat
        (((clicked u cell).h + 15) / 16).toNat b (clicked u cell).y = some cells := hcells
    rw [draw, clampScroll_clicked h]
    simp only [Option.bind_eq_bind, Option.bind_some, hskip', hcells', hsome]
  · rw [hcaret hfocus, Option.some_inj] at hsome
    exact hsome.symm

/-- A click on a character that `draw` has painted puts the cursor before it. The caret is then at
the left edge of the cell, in which the character still is, or one line higher with it when the
click has scrolled. -/
theorem click_hits {d : Drawing} {cell : Cell} {mx my : Int}
    (hlen : t.len ≤ maxText)
    (hdraw : draw t = some (u, d)) (hcell : cell ∈ d.cells) (hun : Unbroken u cell.index)
    (hin : InCell cell mx my) :
    ∃ v d', onClick u mx my = some v ∧ v.cur = cell.index ∧ draw v = some (v, d') ∧
      ⟨cell.index, cell.left, cell.top - scrollBy u cell * lineH⟩ ∈ d'.cells ∧
      (u.hasFocus = true →
        d'.caret = some (cell.left, cell.top - scrollBy u cell * lineH)) := by
  have hdrawn := draw_drawn hlen hdraw hcell hun
  obtain ⟨d', hdraw', hmem, hcaret⟩ := draw_clicked hdrawn hun
  exact ⟨clicked u cell, d', onClick_eq hdrawn hin, rfl, hdraw', hmem, hcaret⟩

/-- A widget with a text, in focus. -/
def withText (w h : Int) (s : List UInt8) : TextEdit :=
  { create w h (fun i => s.getD i 0) with hasFocus := true, len := s.length }

theorem click_hits_tall : ∃ v d', onClick (withText 100 40 [97, 98, 10, 99]) 13 3 = some v ∧
    v.cur = 1 ∧ draw v = some (v, d') ∧ ⟨1, 12, 0⟩ ∈ d'.cells ∧ d'.caret = some (12, 0) := by
  have hdraw : draw (withText 100 40 [97, 98, 10, 99]) = some (withText 100 40 [97, 98, 10, 99],
      ⟨[⟨0, 4, 0⟩, ⟨1, 12, 0⟩, ⟨3, 4, 16⟩], some (4, 0)⟩) := by rfl
  have hin : InCell ⟨1, 12, 0⟩ 13 3 := ⟨by decide, by decide, by decide, by decide⟩
  obtain ⟨v, d', hclick, hcur, hdraw', hmem, hcaret⟩ := click_hits (by decide) hdraw (by simp)
    (by unfold Unbroken; decide +kernel) hin
  exact ⟨v, d', hclick, hcur, hdraw', hmem, hcaret rfl⟩

/-- Every click on a painted character puts the cursor before it, and the caret where it was
painted. -/
def Hits (t : TextEdit) : Prop :=
  ∀ u d cell mx my, draw t = some (u, d) → cell ∈ d.cells → InCell cell mx my →
    ∃ v w d', onClick u mx my = some v ∧ v.cur = cell.index ∧ draw v = some (w, d') ∧
      (u.hasFocus = true → d'.caret = some (cell.left, cell.top))

/-- A line longer than a row, and a row that is not wholly in the widget. -/
theorem click_misses :
    ¬ Hits (withText 24 40 [97, 98, 99]) ∧ ¬ Hits (withText 100 24 [97, 10, 98]) := by
  constructor
  · intro h
    obtain ⟨v, w, d', hclick, hcur, _⟩ := h (withText 24 40 [97, 98, 99])
      ⟨[⟨0, 4, 0⟩, ⟨1, 12, 0⟩, ⟨2, 4, 16⟩], some (4, 0)⟩ ⟨2, 4, 16⟩ 4 16 (by rfl) (by simp)
      ⟨by decide, by decide, by decide, by decide⟩
    have hv : (onClick (withText 24 40 [97, 98, 99]) 4 16).map TextEdit.cur = some 3 := by
      decide +kernel
    rw [hclick] at hv
    cases hv.symm.trans (congrArg some hcur)
  · intro h
    obtain ⟨v, w, d', hclick, _, hdraw, hcaret⟩ := h (withText 100 24 [97, 10, 98])
      ⟨[⟨0, 4, 0⟩, ⟨2, 4, 16⟩], some (4, 0)⟩ ⟨2, 4, 16⟩ 4 16 (by rfl) (by simp)
      ⟨by decide, by decide, by decide, by decide⟩
    have hv : ((onClick (withText 100 24 [97, 10, 98]) 4 16).bind draw).bind
        (fun r => r.2.caret) = some (4, 0) := by
      decide +kernel
    rw [hclick, Option.bind_some, hdraw, Option.bind_some, hcaret rfl] at hv
    cases hv

end Kyuzen.Ui.TextEdit
