import Mathlib.Data.List.Basic
import Mathlib.Tactic.Ring
import Kyuzen.Lib.Run

/-!
# The tree view

`TreeView` and the `Scrollable` below it. Which nodes are visible is decided on the flat list of
depths: `visible_node` looks back for the nearest node of a smaller depth, the parent, and asks
whether that one is expanded. `draw`, `recompute_scroll` and `node_at_vis` go through the visible
nodes in the same order, so they agree on which nodes these are and on the row of each
(`TreeView.Consistent`).

An ancestor further up is not asked. That makes no difference as long as no expanded node that has
children lies below a collapsed one (`parentExpanded_iff_allExpanded`).
-/

namespace Kyuzen.Ui

open Lib

def barW : Int := 6
def rowH : Int := 20
def maxNodes : Nat := 32

structure Node where
  label : List UInt8
  depth : Int
  expanded : Bool

/-- The fields of `Widget`, `Scrollable` and `TreeView`; -1 is `none`. -/
structure TreeView where
  x : Int
  y : Int
  w : Int
  h : Int
  scroll : Int
  scrollMax : Int
  barDrag : Bool
  barGrabY : Int
  barGrabScroll : Int
  nodes : List Node
  selected : Option Nat
  hoverRow : Option Nat

/-! ## Scrolling -/

def setScrollMax (t : TreeView) (contentH : Int) : TreeView :=
  let scrollMax := max (contentH - (t.h - barW)) 0
  { t with scrollMax := scrollMax, scroll := if t.scroll > scrollMax then scrollMax else t.scroll }

/-- The two tests that keep `scroll` between 0 and `scroll_max`. -/
def clampScroll (t : TreeView) (scroll : Int) : TreeView :=
  let scroll := if scroll < 0 then 0 else scroll
  { t with scroll := if scroll > t.scrollMax then t.scrollMax else scroll }

def barHit (t : TreeView) (mx : Int) : Bool := decide (t.x + t.w - barW ≤ mx ∧ mx < t.x + t.w)

def barThumbH (t : TreeView) : Int :=
  let contentH := t.scrollMax + (t.h - barW)
  if contentH ≤ 0 then t.h
  else max (((t.h - barW) * (t.h - barW)).tdiv contentH) 8

def onScroll (t : TreeView) (delta : Int) : TreeView := clampScroll t (t.scroll + delta * rowH)

def onDrag (t : TreeView) (my : Int) : TreeView :=
  let range := t.h - barThumbH t
  if !t.barDrag ∨ range ≤ 0 then t
  else clampScroll t (t.barGrabScroll + ((my - t.barGrabY) * t.scrollMax).tdiv range)

/-- A click on the scrollbar. -/
def onBarClick (t : TreeView) (my : Int) : TreeView :=
  let th := barThumbH t
  let range := t.h - th
  clampScroll { t with barDrag := true, barGrabY := my, barGrabScroll := t.scroll }
    (if range > 0 then ((my - t.y - th.tdiv 2) * t.scrollMax).tdiv range else t.scroll)

/-! ## The nodes -/

/-- The loop of `visible_node` over the nodes before, the last one first. -/
def visibleLoop (depth : Int) : List Node → Bool
  | [] => true
  | m :: rest => if m.depth < depth then m.expanded else visibleLoop depth rest

def visibleNode (t : TreeView) (i : Nat) : Bool :=
  match t.nodes[i]? with
  | none => false
  | some m => visibleLoop m.depth (t.nodes.take i).reverse

/-- The loop of `has_children` over the nodes after. -/
def childrenLoop (depth : Int) : List Node → Bool
  | [] => false
  | m :: rest =>
    if m.depth ≤ depth then false
    else if m.depth = depth + 1 then true
    else childrenLoop depth rest

def hasChildren (t : TreeView) (i : Nat) : Bool :=
  match t.nodes[i]? with
  | none => false
  | some m => childrenLoop m.depth (t.nodes.drop (i + 1))

/-- The counter of `recompute_scroll`. -/
def countVisible (t : TreeView) : Nat :=
  (List.range t.nodes.length).foldl (fun vis i => if visibleNode t i then vis + 1 else vis) 0

def recomputeScroll (t : TreeView) : TreeView := setScrollMax t (countVisible t * rowH)

/-- The loop of `node_at_vis`, with the counter `v`. -/
def nodeAtLoop (t : TreeView) (visRow : Int) : List Nat → Int → Option Nat
  | [], _ => none
  | i :: rest, v =>
    if !visibleNode t i then nodeAtLoop t visRow rest v
    else if v = visRow then some i
    else nodeAtLoop t visRow rest (v + 1)

def nodeAtVis (t : TreeView) (visRow : Int) : Option Nat :=
  nodeAtLoop t visRow (List.range t.nodes.length) 0

def addNode (t : TreeView) (label : List UInt8) (depth : Int) (expanded : Bool) : TreeView :=
  if maxNodes ≤ t.nodes.length then t
  else recomputeScroll { t with nodes := t.nodes ++ [⟨label, depth, expanded⟩] }

/-- The node on which the pointer is. -/
def nodeUnder (t : TreeView) (my : Int) : Option Nat :=
  nodeAtVis t ((t.scroll + my - t.y).tdiv rowH)

def trackHover (t : TreeView) (my : Int) : TreeView :=
  { t with hoverRow := if t.y ≤ my ∧ my < t.y + t.h then nodeUnder t my else none }

/-- The marker of the node toggles it, and the rest of the row selects it. -/
def onContentClick (t : TreeView) (mx my : Int) : TreeView :=
  match nodeUnder t my with
  | none => t
  | some idx =>
    match t.nodes[idx]? with
    | none => t
    | some m =>
      let ind := t.x + m.depth * 12
      if ind ≤ mx ∧ mx < ind + 12 then
        recomputeScroll { t with nodes := t.nodes.set idx { m with expanded := !m.expanded } }
      else if ind + 12 ≤ mx then { t with selected := some idx }
      else t

def onClick (t : TreeView) (mx my : Int) : TreeView :=
  if barHit t mx then onBarClick t my else onContentClick t mx my

/-! ## Drawing -/

inductive RowFill
  | selected | hover | plain

/-- A row as it is painted: the node, its top, its background and its marker. -/
structure Row where
  index : Nat
  top : Int
  fill : RowFill
  marker : Option Bool

def paintRow (t : TreeView) (i : Nat) (top : Int) : Row where
  index := i
  top := top
  fill := if t.selected = some i then .selected else if t.hoverRow = some i then .hover else .plain
  marker := if hasChildren t i then t.nodes[i]?.map Node.expanded else none

/-- Some of the row is between the top and the bottom of the widget. -/
def inView (t : TreeView) (top : Int) : Bool :=
  !(decide (top + rowH ≤ t.y) || decide (top ≥ t.y + t.h))

/-- The loop of `draw`, with the counter `vis`. -/
def drawLoop (t : TreeView) : List Nat → Int → List Row
  | [], _ => []
  | i :: rest, vis =>
    if !visibleNode t i then drawLoop t rest vis
    else
      let top := t.y + vis * rowH - t.scroll
      if !inView t top then drawLoop t rest (vis + 1)
      else paintRow t i top :: drawLoop t rest (vis + 1)

def draw (t : TreeView) : List Row := drawLoop t (List.range t.nodes.length) 0

/-! ## What happens to the widget -/

inductive TreeOp
  | addNode (label : List UInt8) (depth : Int) (expanded : Bool)
  | click (mx my : Int)
  | scroll (delta : Int)
  | drag (my : Int)
  | release
  | hover (my : Int)
  | leave
  | place (x y w h : Int)

def treeStep (t : TreeView) : TreeOp → TreeView
  | .addNode label depth expanded => addNode t label depth expanded
  | .click mx my => onClick t mx my
  | .scroll delta => onScroll t delta
  | .drag my => onDrag t my
  | .release => { t with barDrag := false }
  | .hover my => trackHover t my
  | .leave => { t with hoverRow := none }
  | .place x y w h => { t with x := x, y := y, w := w, h := h }

/-- `TreeView(width, height)`. -/
def treeView (width height : Int) : TreeView :=
  setScrollMax ⟨0, 0, width, height, 0, 0, false, 0, 0, [], none, none⟩ 0

/-! ## The visible nodes -/

variable {t : TreeView} {i j : Nat}

def depthAt (t : TreeView) (i : Nat) : Int := (t.nodes[i]?.map Node.depth).getD 0

def expandedAt (t : TreeView) (i : Nat) : Bool := t.nodes[i]?.any Node.expanded

/-- The node of a smaller depth that is nearest before. -/
structure IsParent (t : TreeView) (j i : Nat) : Prop where
  before : j < i
  smaller : depthAt t j < depthAt t i
  nearest : ∀ k, j < k → k < i → depthAt t i ≤ depthAt t k

/-- The parent, if there is one, is expanded. -/
def ParentExpanded (t : TreeView) (i : Nat) : Prop := ∀ j, IsParent t j i → expandedAt t j = true

/-- The loop asks the last of the nodes that has a smaller depth. -/
theorem visibleLoop_iff {depth : Int} (hi : i ≤ t.nodes.length) :
    visibleLoop depth (t.nodes.take i).reverse = true ↔
      ∀ j < i, depthAt t j < depth → (∀ k, j < k → k < i → depth ≤ depthAt t k) →
        expandedAt t j = true := by
  induction i with
  | zero => simp [visibleLoop]
  | succ i ih =>
    have hlt : i < t.nodes.length := by omega
    have hdepth : depthAt t i = t.nodes[i].depth := by
      rw [depthAt, List.getElem?_eq_getElem hlt, Option.map_some, Option.getD_some]
    have hexpanded : expandedAt t i = t.nodes[i].expanded := by
      rw [expandedAt, List.getElem?_eq_getElem hlt, Option.any_some]
    rw [List.take_succ_eq_append_getElem hlt, List.reverse_append, List.reverse_singleton,
      List.singleton_append, visibleLoop, ← hdepth, ← hexpanded]
    by_cases hm : depthAt t i < depth
    · rw [if_pos hm]
      constructor
      · intro hexp j hj hsmaller hnear
        rcases Nat.lt_succ_iff_lt_or_eq.mp hj with hj | rfl
        · have := hnear i hj (by omega)
          omega
        · exact hexp
      · intro hall
        exact hall i (by omega) hm fun k hk hk' => by omega
    · rw [if_neg hm, ih (by omega)]
      constructor
      · intro hall j hj hsmaller hnear
        rcases Nat.lt_succ_iff_lt_or_eq.mp hj with hj | rfl
        · exact hall j hj hsmaller fun k hk hki => hnear k hk (by omega)
        · exact absurd hsmaller hm
      · intro hall j hj hsmaller hnear
        refine hall j (by omega) hsmaller fun k hk hki => ?_
        rcases Nat.lt_succ_iff_lt_or_eq.mp hki with hki | rfl
        · exact hnear k hk hki
        · omega

/-- `visible_node` is right about the parent. -/
theorem visibleNode_iff : visibleNode t i = true ↔ i < t.nodes.length ∧ ParentExpanded t i := by
  unfold visibleNode
  cases hi : t.nodes[i]? with
  | none =>
    have := List.getElem?_eq_none_iff.mp hi
    constructor
    · intro h
      cases h
    · rintro ⟨hlt, _⟩
      omega
  | some m =>
    have hlt := (List.getElem?_eq_some_iff.mp hi).1
    have hdepth : depthAt t i = m.depth := by rw [depthAt, hi, Option.map_some, Option.getD_some]
    simp only [visibleLoop_iff hlt.le, ← hdepth]
    constructor
    · exact fun hall => ⟨hlt, fun j hj => hall j hj.before hj.smaller hj.nearest⟩
    · exact fun ⟨_, hparent⟩ j hj hsmaller hnear => hparent j ⟨hj, hsmaller, hnear⟩

/-! ## The three loops -/

/-- The visible nodes, in their order. -/
def visibleNodes (t : TreeView) : List Nat := (List.range t.nodes.length).filter (visibleNode t)

theorem mem_visibleNodes : i ∈ visibleNodes t ↔ visibleNode t i = true := by
  rw [visibleNodes, List.mem_filter, List.mem_range]
  constructor
  · exact fun h => h.2
  · exact fun h => ⟨(visibleNode_iff.mp h).1, h⟩

theorem visibleNodes_nodup (t : TreeView) : (visibleNodes t).Nodup := List.nodup_range.filter _

theorem countVisible_eq (t : TreeView) : countVisible t = (visibleNodes t).length := by
  have hloop : ∀ (l : List Nat) (n : Nat),
      l.foldl (fun vis i => if visibleNode t i then vis + 1 else vis) n =
        n + (l.filter (visibleNode t)).length := by
    intro l
    induction l with
    | nil => intro n; rfl
    | cons i l ih =>
      intro n
      rw [List.foldl_cons, ih]
      by_cases hv : visibleNode t i = true
      · rw [if_pos hv, List.filter_cons_of_pos hv, List.length_cons]
        omega
      · rw [if_neg hv, List.filter_cons_of_neg hv]
  rw [countVisible, hloop, Nat.zero_add, visibleNodes]

theorem nodeAtLoop_eq (l : List Nat) (visRow : Int) (v : Int) :
    nodeAtLoop t visRow l v =
      if v ≤ visRow then (l.filter (visibleNode t))[(visRow - v).toNat]? else none := by
  induction l generalizing v with
  | nil => simp [nodeAtLoop]
  | cons i l ih =>
    rw [nodeAtLoop]
    by_cases hv : visibleNode t i = true
    · rw [hv, Bool.not_true, if_neg Bool.false_ne_true, List.filter_cons_of_pos hv]
      by_cases heq : v = visRow
      · rw [if_pos heq, if_pos heq.le, heq, sub_self, Int.toNat_zero, List.getElem?_cons_zero]
      · rw [if_neg heq, ih]
        by_cases hle : v ≤ visRow
        · have hsub : (visRow - v).toNat = (visRow - (v + 1)).toNat + 1 := by omega
          rw [if_pos hle, if_pos (by omega), hsub, List.getElem?_cons_succ]
        · rw [if_neg hle, if_neg (by omega)]
    · rw [Bool.not_eq_true] at hv
      rw [hv, Bool.not_false, if_pos rfl, ih, List.filter_cons_of_neg (by simp [hv])]

/-- Row `visRow` is that of the visible node with this number. -/
theorem nodeAtVis_eq {visRow : Int} (h : 0 ≤ visRow) :
    nodeAtVis t visRow = (visibleNodes t)[visRow.toNat]? := by
  rw [nodeAtVis, nodeAtLoop_eq, if_pos h, Int.sub_zero, visibleNodes]

theorem nodeAtVis_neg {visRow : Int} (h : visRow < 0) : nodeAtVis t visRow = none := by
  rw [nodeAtVis, nodeAtLoop_eq, if_neg (by omega)]

/-- The top of the row with this number. -/
def rowTop (t : TreeView) (v : Int) : Int := t.y + v * rowH - t.scroll

theorem mem_drawLoop {l : List Nat} {v : Int} {row : Row} :
    row ∈ drawLoop t l v ↔
      ∃ k : Nat, ∃ i, (l.filter (visibleNode t))[k]? = some i ∧
        inView t (rowTop t (v + k)) = true ∧ row = paintRow t i (rowTop t (v + k)) := by
  induction l generalizing v with
  | nil => simp [drawLoop]
  | cons i l ih =>
    rw [drawLoop]
    by_cases hv : visibleNode t i = true
    · have hshift : ∀ k : Nat, v + 1 + (k : Int) = v + ((k + 1 : Nat) : Int) := by
        intro k
        push_cast
        ring
      have htop : t.y + v * rowH - t.scroll = rowTop t (v + ((0 : Nat) : Int)) := by simp [rowTop]
      rw [hv, Bool.not_true, if_neg Bool.false_ne_true, List.filter_cons_of_pos hv,
        ← Nat.or_exists_add_one]
      simp only [htop, List.getElem?_cons_zero, List.getElem?_cons_succ, Option.some_inj,
        exists_eq_left', ← hshift]
      rw [← ih]
      by_cases hview : inView t (rowTop t (v + ((0 : Nat) : Int))) = true
      · rw [hview, Bool.not_true, if_neg Bool.false_ne_true, List.mem_cons]
        simp
      · rw [Bool.not_eq_true] at hview
        rw [hview, Bool.not_false, if_pos rfl]
        simp
    · rw [Bool.not_eq_true] at hv
      rw [hv, Bool.not_false, if_pos rfl, ih, List.filter_cons_of_neg (by simp [hv])]

/-- What is painted: the visible nodes, row after row, as far as the rows are in view. -/
theorem mem_draw {row : Row} : row ∈ draw t ↔
    ∃ v : Nat, ∃ i, (visibleNodes t)[v]? = some i ∧ inView t (rowTop t v) = true ∧
      row = paintRow t i (rowTop t v) := by
  rw [draw, mem_drawLoop]
  simp only [Int.zero_add, visibleNodes]

/-! ## Scrolling stays in its bounds -/

structure TreeView.Inv (t : TreeView) : Prop where
  scroll : 0 ≤ t.scroll
  scrollMax : 0 ≤ t.scrollMax

theorem TreeView.Inv.setScrollMax (h : t.Inv) (contentH : Int) : (setScrollMax t contentH).Inv := by
  have hscroll := h.scroll
  have hmax : 0 ≤ max (contentH - (t.h - barW)) 0 := le_max_right _ _
  refine ⟨?_, hmax⟩
  simp only [Ui.setScrollMax]
  split
  · exact hmax
  · exact hscroll

theorem TreeView.Inv.clampScroll {u : TreeView} (hmax : 0 ≤ u.scrollMax) (scroll : Int) :
    (clampScroll u scroll).Inv := by
  refine ⟨?_, hmax⟩
  simp only [Ui.clampScroll]
  by_cases hneg : scroll < 0
  · rw [if_pos hneg]
    split <;> omega
  · rw [if_neg hneg]
    split <;> omega

theorem TreeView.Inv.recompute {u : TreeView} (hscroll : 0 ≤ u.scroll) (hmax : 0 ≤ u.scrollMax) :
    (recomputeScroll u).Inv :=
  TreeView.Inv.setScrollMax ⟨hscroll, hmax⟩ _

theorem TreeView.Inv.step (h : t.Inv) (op : TreeOp) : (treeStep t op).Inv := by
  cases op with
  | addNode label depth expanded =>
    simp only [treeStep, addNode]
    split
    · exact h
    · exact TreeView.Inv.recompute h.scroll h.scrollMax
  | click mx my =>
    simp only [treeStep, onClick]
    split
    · exact TreeView.Inv.clampScroll (u := { t with
        barDrag := true
        barGrabY := my
        barGrabScroll := t.scroll }) h.scrollMax _
    · unfold onContentClick
      split
      · exact h
      · split
        · exact h
        · simp only
          split
          · exact TreeView.Inv.recompute h.scroll h.scrollMax
          · split
            · exact ⟨h.scroll, h.scrollMax⟩
            · exact h
  | scroll delta => exact TreeView.Inv.clampScroll h.scrollMax _
  | drag my =>
    simp only [treeStep, onDrag]
    split
    · exact h
    · exact TreeView.Inv.clampScroll h.scrollMax _
  | release => exact ⟨h.scroll, h.scrollMax⟩
  | hover my => exact ⟨h.scroll, h.scrollMax⟩
  | leave => exact ⟨h.scroll, h.scrollMax⟩
  | place x y w h' => exact ⟨h.scroll, h.scrollMax⟩

theorem inv_treeView (width height : Int) : (treeView width height).Inv := by
  apply TreeView.Inv.setScrollMax
  exact ⟨le_rfl, le_rfl⟩

/-! ## The three agree -/

/-- The number of the row of a node. -/
def rowNumber (t : TreeView) (i : Nat) : Nat := (visibleNodes t).idxOf i

/-- `draw`, `recompute_scroll` and `node_at_vis` agree on the nodes whose parent is expanded, and
on the row of each. -/
structure TreeView.Consistent (t : TreeView) : Prop where
  drawn : ∀ i, (∃ row ∈ draw t, row.index = i) ↔
    (i < t.nodes.length ∧ ParentExpanded t i) ∧ inView t (rowTop t (rowNumber t i)) = true
  counted : ∃ shown : List Nat, shown.Nodup ∧
    (∀ i, i ∈ shown ↔ i < t.nodes.length ∧ ParentExpanded t i) ∧
    (recomputeScroll t).scrollMax = max (shown.length * rowH - (t.h - barW)) 0
  returned : ∀ i, (∃ v, nodeAtVis t v = some i) ↔ i < t.nodes.length ∧ ParentExpanded t i
  clicked : ∀ my i, t.y ≤ my → my < t.y + t.h →
    (nodeUnder t my = some i ↔ ∃ row ∈ draw t, row.index = i ∧ row.top ≤ my ∧ my < row.top + rowH)
  collapse : ∀ i j, IsParent t i j → expandedAt t i = false → ∀ row ∈ draw t, row.index ≠ j

theorem index_drawn : (∃ row ∈ draw t, row.index = i) ↔
    visibleNode t i = true ∧ inView t (rowTop t (rowNumber t i)) = true := by
  constructor
  · rintro ⟨row, hrow, rfl⟩
    obtain ⟨v, i, hget, hview, rfl⟩ := mem_draw.mp hrow
    obtain ⟨hv, hvi⟩ := List.getElem?_eq_some_iff.mp hget
    have hnumber : rowNumber t i = v := by
      rw [rowNumber, ← hvi]
      exact (visibleNodes_nodup t).idxOf_getElem v hv
    refine ⟨mem_visibleNodes.mp (List.mem_of_getElem? hget), ?_⟩
    show inView t (rowTop t (rowNumber t i)) = true
    rw [hnumber]
    exact hview
  · rintro ⟨hvis, hview⟩
    have hlt := List.idxOf_lt_length_of_mem (mem_visibleNodes.mpr hvis)
    refine ⟨paintRow t i (rowTop t (rowNumber t i)),
      mem_draw.mpr ⟨rowNumber t i, i, ?_, hview, rfl⟩, rfl⟩
    rw [rowNumber, List.getElem?_eq_getElem hlt, List.getElem_idxOf]

/-- The node under the pointer is the one whose row is painted there. -/
theorem nodeUnder_iff (h : t.Inv) {my : Int} (htop : t.y ≤ my) (hbottom : my < t.y + t.h) :
    nodeUnder t my = some i ↔
      ∃ row ∈ draw t, row.index = i ∧ row.top ≤ my ∧ my < row.top + rowH := by
  have hscroll := h.scroll
  have hdiv : (t.scroll + my - t.y).tdiv rowH = (t.scroll + my - t.y) / 20 :=
    Int.tdiv_eq_ediv_of_nonneg (by omega)
  have hpos : 0 ≤ (t.scroll + my - t.y) / 20 := by omega
  rw [nodeUnder, hdiv, nodeAtVis_eq hpos]
  constructor
  · intro hget
    have hcast : (((t.scroll + my - t.y) / 20).toNat : Int) = (t.scroll + my - t.y) / 20 :=
      Int.toNat_of_nonneg hpos
    refine ⟨paintRow t i (rowTop t ((t.scroll + my - t.y) / 20).toNat),
      mem_draw.mpr ⟨_, i, hget, ?_, rfl⟩, rfl, ?_, ?_⟩
    · simp only [inView, rowTop, hcast, rowH, Bool.not_eq_true', Bool.or_eq_false_iff,
        decide_eq_false_iff_not]
      omega
    · simp only [paintRow, rowTop, hcast, rowH]
      omega
    · simp only [paintRow, rowTop, hcast, rowH]
      omega
  · rintro ⟨row, hrow, rfl, hle, hlt⟩
    obtain ⟨v, i, hget, _, rfl⟩ := mem_draw.mp hrow
    simp only [paintRow, rowTop, rowH] at hle hlt
    have hv : ((t.scroll + my - t.y) / 20).toNat = v := by omega
    rw [hv]
    exact hget

theorem TreeView.Inv.consistent (h : t.Inv) : t.Consistent where
  drawn i := by rw [index_drawn, visibleNode_iff]
  counted := by
    refine ⟨visibleNodes t, visibleNodes_nodup t, fun i => ?_, ?_⟩
    · rw [mem_visibleNodes, visibleNode_iff]
    · rw [recomputeScroll, countVisible_eq]
      rfl
  returned i := by
    rw [← visibleNode_iff, ← mem_visibleNodes]
    constructor
    · rintro ⟨v, hv⟩
      by_cases hneg : v < 0
      · rw [nodeAtVis_neg hneg] at hv
        cases hv
      · rw [nodeAtVis_eq (not_lt.mp hneg)] at hv
        exact List.mem_of_getElem? hv
    · intro hmem
      obtain ⟨v, hv, hget⟩ := List.getElem_of_mem hmem
      refine ⟨v, ?_⟩
      rw [nodeAtVis_eq (Int.natCast_nonneg v), Int.toNat_natCast, List.getElem?_eq_getElem hv, hget]
  clicked my i := nodeUnder_iff h
  collapse i j hparent hcollapsed row hrow hindex := by
    obtain ⟨hvis, _⟩ := index_drawn.mp ⟨row, hrow, hindex⟩
    have := (visibleNode_iff.mp hvis).2 i hparent
    rw [hcollapsed] at this
    cases this

/-! ## Ancestors further up -/

/-- The nearest node before with its depth, where that is smaller. -/
structure IsAncestor (t : TreeView) (j i : Nat) : Prop where
  before : j < i
  smaller : depthAt t j < depthAt t i
  nearest : ∀ k, j < k → k < i → depthAt t k ≠ depthAt t j

def AllExpanded (t : TreeView) (i : Nat) : Prop := ∀ j, IsAncestor t j i → expandedAt t j = true

/-- In pre-order, no depth is skipped on the way down. -/
def PreOrder (t : TreeView) : Prop :=
  ∀ i, i + 1 < t.nodes.length → depthAt t (i + 1) ≤ depthAt t i + 1

/-- An expanded node with a child lies below a collapsed one. -/
def Exposed (t : TreeView) : Prop :=
  ∃ j i, i < t.nodes.length ∧ IsParent t j i ∧ expandedAt t j = true ∧ ¬ AllExpanded t j

/-- The ancestors are the parent and its ancestors. -/
theorem PreOrder.isAncestor_iff (h : PreOrder t) {j p : Nat} (hi : i < t.nodes.length)
    (hp : IsParent t p i) : IsAncestor t j i ↔ j = p ∨ IsAncestor t j p := by
  obtain ⟨hpi, hpsmall, hpnear⟩ := hp
  have hdepth : depthAt t p = depthAt t i - 1 := by
    have hstep := h p (by omega)
    by_cases heq : p + 1 = i
    · rw [heq] at hstep
      omega
    · have := hpnear (p + 1) (by omega) (by omega)
      omega
  constructor
  · rintro ⟨hji, hjsmall, hjnear⟩
    rcases Nat.lt_trichotomy j p with hjp | rfl | hpj
    · right
      refine ⟨hjp, ?_, fun k hk hkp => hjnear k hk (by omega)⟩
      have := hjnear p hjp hpi
      omega
    · exact Or.inl rfl
    · have := hpnear j hpj hji
      omega
  · rintro (rfl | ⟨hjp, hjsmall, hjnear⟩)
    · refine ⟨hpi, hpsmall, fun k hk hki => ?_⟩
      have := hpnear k hk hki
      omega
    · refine ⟨by omega, by omega, fun k hk hki => ?_⟩
      rcases Nat.lt_trichotomy k p with hkp | rfl | hpk
      · exact hjnear k hk hkp
      · omega
      · have := hpnear k hpk hki
        omega

/-- A node with an ancestor has a parent: the last node before with a smaller depth. -/
theorem exists_parent {j : Nat} (hji : j < i) (hj : depthAt t j < depthAt t i) :
    ∃ p, IsParent t p i := by
  have hfind : ∀ n ≤ i, j < n → (∀ k, n ≤ k → k < i → depthAt t i ≤ depthAt t k) →
      ∃ p, IsParent t p i := by
    intro n
    induction n with
    | zero => exact fun _ hjn => absurd hjn (Nat.not_lt_zero j)
    | succ n ih =>
      intro hn hjn hnear
      by_cases hsmall : depthAt t n < depthAt t i
      · exact ⟨n, by omega, hsmall, fun k hk hki => hnear k (by omega) hki⟩
      · have hne : j ≠ n := by
          rintro rfl
          exact hsmall hj
        refine ih (by omega) (by omega) fun k hk hki => ?_
        by_cases hkn : k = n
        · rw [hkn]
          exact not_lt.mp hsmall
        · exact hnear k (by omega) hki
  exact hfind i le_rfl hji fun k hk hki => by omega

theorem allExpanded_iff (h : PreOrder t) (hi : i < t.nodes.length) :
    AllExpanded t i ↔ ∀ p, IsParent t p i → expandedAt t p = true ∧ AllExpanded t p := by
  constructor
  · intro hall p hp
    have hancestors := fun j => h.isAncestor_iff (j := j) hi hp
    exact ⟨hall p ((hancestors p).mpr (Or.inl rfl)),
      fun j hj => hall j ((hancestors j).mpr (Or.inr hj))⟩
  · intro hparent j hj
    obtain ⟨p, hp⟩ := exists_parent hj.before hj.smaller
    obtain ⟨hexp, hall⟩ := hparent p hp
    rcases (h.isAncestor_iff hi hp).mp hj with rfl | hj
    · exact hexp
    · exact hall j hj

/-- Asking the parent is asking all ancestors, unless an expanded node with a child lies below a
collapsed one. -/
theorem parentExpanded_iff_allExpanded (h : PreOrder t) :
    (∀ i < t.nodes.length, (ParentExpanded t i ↔ AllExpanded t i)) ↔ ¬ Exposed t := by
  constructor
  · rintro hall ⟨j, i, hi, hparent, hexp, hnot⟩
    have hparentExpanded : ParentExpanded t i := by
      intro p hp
      have hpj : p = j := by
        have h1 := hp.nearest j
        have h2 := hparent.nearest p
        have h3 := hp.smaller
        have h4 := hparent.smaller
        have h5 := hp.before
        have h6 := hparent.before
        rcases Nat.lt_trichotomy p j with hlt | heq | hlt
        · have := h1 hlt h6
          omega
        · exact heq
        · have := h2 hlt h5
          omega
      rw [hpj]
      exact hexp
    exact hnot ((allExpanded_iff h hi).mp ((hall i hi).mp hparentExpanded) j hparent).2
  · intro hnot i hi
    constructor
    · intro hparent
      refine (allExpanded_iff h hi).mpr fun p hp => ⟨hparent p hp, ?_⟩
      by_contra hall
      exact hnot ⟨p, i, hi, hp, hparent p hp, hall⟩
    · exact fun hall p hp => ((allExpanded_iff h hi).mp hall p hp).1

/-! ## Every run -/

theorem inv_after {ops : List TreeOp} (width height : Int) (n : Nat) :
    (after treeStep (treeView width height) ops n).Inv :=
  after_induction (P := TreeView.Inv) (C := fun _ _ => True) (inv_treeView width height)
    (fun _ op hinv _ => hinv.step op) (fun _ _ _ => trivial) n

/-- After any calls and events, the three loops show the nodes whose parent is expanded, and the
row under a click is the row that is painted there; these are the nodes all of whose ancestors are
expanded exactly if no expanded node with a child lies below a collapsed one. -/
theorem tree_rows (width height : Int) (ops : List TreeOp) (n : Nat) :
    (after treeStep (treeView width height) ops n).Consistent ∧
      (PreOrder (after treeStep (treeView width height) ops n) →
        ((∀ i < (after treeStep (treeView width height) ops n).nodes.length,
            (ParentExpanded (after treeStep (treeView width height) ops n) i ↔
              AllExpanded (after treeStep (treeView width height) ops n) i)) ↔
          ¬ Exposed (after treeStep (treeView width height) ops n))) :=
  ⟨(inv_after width height n).consistent, fun h => parentExpanded_iff_allExpanded h⟩

/-- A tree of three levels whose root is collapsed by a click on its marker. -/
def collapsedRoot : List TreeOp :=
  [.addNode [] 0 true, .addNode [] 1 true, .addNode [] 2 true, .click 1 1]

theorem grandchild_shown :
    ¬ ∀ ops n, PreOrder (after treeStep (treeView 100 100) ops n) →
      ∀ i < (after treeStep (treeView 100 100) ops n).nodes.length,
        ((∃ v, nodeAtVis (after treeStep (treeView 100 100) ops n) v = some i) ↔
          AllExpanded (after treeStep (treeView 100 100) ops n) i) := by
  intro h
  have hpre : PreOrder (after treeStep (treeView 100 100) collapsedRoot 4) := by
    intro i hi
    have hlen : (after treeStep (treeView 100 100) collapsedRoot 4).nodes.length = 3 := by
      decide +kernel
    rw [hlen] at hi
    have hcases : i = 0 ∨ i = 1 := by omega
    rcases hcases with rfl | rfl
    · decide +kernel
    · decide +kernel
  have hall := (h collapsedRoot 4 hpre 2 (by decide +kernel)).mp ⟨1, by decide +kernel⟩
  have hroot := hall 0 ⟨by decide, by decide +kernel, fun k hk hk2 => ?_⟩
  · revert hroot
    decide +kernel
  · obtain rfl : k = 1 := by omega
    decide +kernel

end Kyuzen.Ui
