import Kyuzen.Input.Mouse

/-!
# Packets of the mouse

The handler takes the bytes that come in groups of the size of a packet, from the first byte on:
nothing in a packet is looked at to find where it begins, so that after a byte is lost all the
packets that follow are cut at other places. The cursor is where the packets so far, taken this way,
move it (`mouse_follows_packets`).

The presses and releases of a button that are pushed are changes of its bit, each at most once and
in order: of the right button all that find a window under the cursor, of the left button all of
these but the presses that the window manager takes (`clicks_are_changes`).
-/

namespace Kyuzen.Input

open Event

/-- The bytes that the handler has taken. -/
def received (ops : List MouseOp) : List (BitVec 8) :=
  ops.filterMap fun
    | .irq status byte _ => if mouseAccepts status then some byte else none
    | .other _ => none

/-- The complete groups of `n` bytes. -/
def groups (n : Nat) (bytes : List (BitVec 8)) : List (List (BitVec 8)) :=
  (List.range (bytes.length / n)).map fun i => (bytes.drop (i * n)).take n

/-- The cursor and the buttons. -/
structure Pointer where
  x : Int
  y : Int
  left : Bool
  right : Bool

/-- What the bytes of a packet do to the cursor and the buttons. -/
def pointerStep (fbWidth fbHeight : Nat) (p : Pointer) (bytes : Nat → BitVec 8) : Pointer :=
  if overflows bytes then p
  else
    { x := clampAxis (Kwm.i32 (p.x + (bytes 1).toInt)) fbWidth 12
      y := clampAxis (Kwm.i32 (p.y - (bytes 2).toInt)) fbHeight 16
      left := leftBit bytes
      right := rightBit bytes }

def pointerStart : Pointer := ⟨512, 384, false, false⟩

def bytesOf (packet : List (BitVec 8)) : Nat → BitVec 8 := fun i => packet.getD i 0

/-- The cursor and the buttons after these packets. -/
def pointerAfter (fbWidth fbHeight : Nat) (packets : List (List (BitVec 8))) : Pointer :=
  packets.foldl (fun p packet => pointerStep fbWidth fbHeight p (bytesOf packet)) pointerStart

def Mouse.pointer (m : Mouse) : Pointer := ⟨m.x, m.y, m.lastLeft, m.lastRight⟩

def sizeOf (deviceId : BitVec 8) : Nat := if deviceId = 3 then 4 else 3

variable {fbWidth fbHeight : Nat} {bytes : List (BitVec 8)} {b deviceId : BitVec 8} {n : Nat}

/-! ## Groups -/

/-- A byte that does not complete a group. -/
theorem groups_snoc_of_ne (hn : 0 < n) (h : (bytes.length + 1) % n ≠ 0) :
    groups n (bytes ++ [b]) = groups n bytes := by
  have hdiv : (bytes.length + 1) / n = bytes.length / n := by
    rw [Nat.succ_div_of_not_dvd]
    exact fun hdvd => h (Nat.mod_eq_zero_of_dvd hdvd)
  unfold groups
  rw [List.length_append, List.length_singleton, hdiv]
  apply List.map_congr_left
  intro i hi
  have hlt := List.mem_range.mp hi
  have hle : i * n + n ≤ bytes.length := by
    calc i * n + n = (i + 1) * n := by ring
      _ ≤ bytes.length / n * n := Nat.mul_le_mul_right n hlt
      _ ≤ bytes.length := Nat.div_mul_le_self _ _
  rw [List.drop_append_of_le_length (by omega), List.take_append_of_le_length]
  rw [List.length_drop]
  omega

/-- The byte that completes a group. -/
theorem groups_snoc_of_eq (hn : 0 < n) (h : (bytes.length + 1) % n = 0) :
    groups n (bytes ++ [b]) =
      groups n bytes ++ [(bytes ++ [b]).drop (bytes.length + 1 - n)] := by
  obtain ⟨k, hk⟩ := Nat.dvd_of_mod_eq_zero h
  cases k with
  | zero => omega
  | succ k =>
    have hmul : n * (k + 1) = k * n + n := by ring
    have hdiv : (bytes.length + 1) / n = k + 1 := by
      rw [hk, Nat.mul_div_cancel_left _ hn]
    have hold : bytes.length / n = k := by
      apply Nat.div_eq_of_lt_le
      · omega
      · rw [Nat.succ_mul]
        omega
    unfold groups
    rw [List.length_append, List.length_singleton, hdiv, hold, List.range_succ, List.map_append,
      List.map_singleton, show bytes.length + 1 - n = k * n by omega]
    congr 1
    · apply List.map_congr_left
      intro i hi
      have hle : i * n + n ≤ k * n := by
        calc i * n + n = (i + 1) * n := by ring
          _ ≤ k * n := Nat.mul_le_mul_right n (List.mem_range.mp hi)
      rw [List.drop_append_of_le_length (by omega), List.take_append_of_le_length]
      rw [List.length_drop]
      omega
    · rw [List.take_of_length_le]
      rw [List.length_drop, List.length_append, List.length_singleton]
      omega

/-! ## The accumulator -/

/-- What the handler knows after the bytes that have come. -/
structure Collects (fbWidth fbHeight : Nat) (deviceId : BitVec 8) (bytes : List (BitVec 8))
    (m : Mouse) : Prop where
  wheel : m.hasWheel = decide (deviceId = 3)
  cycle : m.cycle = bytes.length % sizeOf deviceId
  cells : ∀ j < m.cycle, m.bytes j = bytes.getD (bytes.length - m.cycle + j) 0
  pointer : m.pointer = pointerAfter fbWidth fbHeight (groups (sizeOf deviceId) bytes)

theorem sizeOf_pos (deviceId : BitVec 8) : 0 < sizeOf deviceId := by
  unfold sizeOf
  split_ifs <;> decide

theorem sizeOf_le (deviceId : BitVec 8) : sizeOf deviceId ≤ 4 := by
  unfold sizeOf
  split_ifs <;> decide

variable {m : Mouse}

theorem Collects.packetSize (h : Collects fbWidth fbHeight deviceId bytes m) :
    m.packetSize = sizeOf deviceId := by
  unfold Mouse.packetSize sizeOf
  rw [h.wheel]
  simp only [decide_eq_true_eq]

/-- The cells after a byte is stored. -/
theorem Collects.store_cells (h : Collects fbWidth fbHeight deviceId bytes m) (b : BitVec 8) :
    (m.store b).cycle = m.cycle + 1 ∧ ∀ j < m.cycle + 1,
      (m.store b).bytes j = (bytes ++ [b]).getD (bytes.length - m.cycle + j) 0 := by
  have hlt : m.cycle < 4 := by
    rw [h.cycle]
    exact (Nat.mod_lt _ (sizeOf_pos _)).trans_le (sizeOf_le _)
  have hle : m.cycle ≤ bytes.length := by
    rw [h.cycle]
    exact Nat.mod_le _ _
  unfold Mouse.store
  dsimp only
  rw [if_neg (by omega)]
  refine ⟨rfl, fun j hj => ?_⟩
  rcases Nat.lt_or_eq_of_le (Nat.le_of_lt_succ hj) with hlt | rfl
  · rw [Function.update_of_ne hlt.ne, h.cells j hlt, List.getD_append _ _ _ _ (by omega)]
  · rw [Function.update_self, Nat.sub_add_cancel hle]
    simp

theorem pointerStep_congr {p : Pointer} {f g : Nat → BitVec 8} (h : ∀ j < 3, f j = g j) :
    pointerStep fbWidth fbHeight p f = pointerStep fbWidth fbHeight p g := by
  unfold pointerStep overflows leftBit rightBit
  rw [h 0 (by decide), h 1 (by decide), h 2 (by decide)]

theorem handlePacket_mouse (fbWidth fbHeight : Nat) (m : Mouse) (kwm : Kwm.State)
    (meanwhile : Nat → Kwm.State → Kwm.State) :
    (handlePacket fbWidth fbHeight m kwm meanwhile).1.pointer =
        pointerStep fbWidth fbHeight m.pointer m.bytes ∧
      (handlePacket fbWidth fbHeight m kwm meanwhile).1.cycle = m.cycle ∧
      (handlePacket fbWidth fbHeight m kwm meanwhile).1.hasWheel = m.hasWheel := by
  unfold handlePacket pointerStep
  cases overflows m.bytes with
  | true => exact ⟨rfl, rfl, rfl⟩
  | false => exact ⟨rfl, rfl, rfl⟩

/-- What a byte that is taken leads to. -/
inductive ByteCase (fbWidth fbHeight : Nat) (deviceId : BitVec 8) (bytes : List (BitVec 8))
    (m : Mouse) (kwm : Kwm.State) (b : BitVec 8) (meanwhile : Nat → Kwm.State → Kwm.State)
    (r : Mouse × Kwm.State × List MouseOut) : Prop
  | part (hgroups : groups (sizeOf deviceId) (bytes ++ [b]) = groups (sizeOf deviceId) bytes)
      (hr : r = (m.store b, kwm, []))
      (hmod : (bytes.length + 1) % sizeOf deviceId = m.cycle + 1)
  | packet (packet : List (BitVec 8))
      (hgroups : groups (sizeOf deviceId) (bytes ++ [b]) =
        groups (sizeOf deviceId) bytes ++ [packet])
      (hr : r = handlePacket fbWidth fbHeight { m.store b with cycle := 0 } kwm meanwhile)
      (hbytes : ∀ j < 3, (m.store b).bytes j = bytesOf packet j)
      (hmod : (bytes.length + 1) % sizeOf deviceId = 0)

theorem Collects.byte_cases (h : Collects fbWidth fbHeight deviceId bytes m) (kwm : Kwm.State)
    {status : BitVec 8} (hst : mouseAccepts status = true) (b : BitVec 8)
    (meanwhile : Nat → Kwm.State → Kwm.State) :
    ByteCase fbWidth fbHeight deviceId bytes m kwm b meanwhile
      (mouseHandler fbWidth fbHeight m kwm status b meanwhile) := by
  obtain ⟨hcycle, hcells⟩ := h.store_cells b
  have hpos := sizeOf_pos deviceId
  have hthree : 3 ≤ sizeOf deviceId := by
    unfold sizeOf
    split_ifs <;> decide
  have hmod := h.cycle
  have hle := Nat.mod_le bytes.length (sizeOf deviceId)
  have hlt := Nat.mod_lt bytes.length hpos
  have hnext : (bytes.length + 1) % sizeOf deviceId = (m.cycle + 1) % sizeOf deviceId := by
    rw [hmod, Nat.mod_add_mod]
  have hsize : (m.store b).packetSize = sizeOf deviceId := h.packetSize
  unfold mouseHandler
  rw [hst, if_neg (by simp)]
  dsimp only
  rw [hsize, hcycle]
  by_cases hfull : m.cycle + 1 ≥ sizeOf deviceId
  · have hzero : (bytes.length + 1) % sizeOf deviceId = 0 := by
      rw [hnext, show m.cycle + 1 = sizeOf deviceId by omega, Nat.mod_self]
    rw [if_pos hfull]
    refine .packet _ (groups_snoc_of_eq hpos hzero) rfl ?_ hzero
    intro j hj
    rw [hcells j (by omega), show bytes.length + 1 - sizeOf deviceId = bytes.length - m.cycle
      by omega]
    simp [bytesOf, List.getD_eq_getElem?_getD]
  · have hsucc : (bytes.length + 1) % sizeOf deviceId = m.cycle + 1 := by
      rw [hnext, Nat.mod_eq_of_lt (by omega)]
    rw [if_neg hfull]
    exact .part (groups_snoc_of_ne hpos (by omega)) rfl hsucc

/-- A byte. -/
theorem Collects.byte (h : Collects fbWidth fbHeight deviceId bytes m) (kwm : Kwm.State)
    {status : BitVec 8} (hst : mouseAccepts status = true) (b : BitVec 8)
    (meanwhile : Nat → Kwm.State → Kwm.State) :
    Collects fbWidth fbHeight deviceId (bytes ++ [b])
      (mouseHandler fbWidth fbHeight m kwm status b meanwhile).1 := by
  obtain ⟨hcycle, hcells⟩ := h.store_cells b
  cases h.byte_cases kwm hst b meanwhile with
  | part hgroups hr hmod =>
    rw [hr]
    refine ⟨h.wheel, ?_, ?_, ?_⟩
    · rw [hcycle, List.length_append, List.length_singleton, hmod]
    · rw [hcycle]
      intro j hj
      rw [hcells j hj, List.length_append, List.length_singleton]
      congr 2
      omega
    · rw [hgroups]
      exact h.pointer
  | packet packet hgroups hr hbytes hmod =>
    obtain ⟨hpointer, hcyc, hwheel⟩ :=
      handlePacket_mouse fbWidth fbHeight { m.store b with cycle := 0 } kwm meanwhile
    rw [hr]
    refine ⟨hwheel.trans h.wheel, ?_, ?_, ?_⟩
    · rw [hcyc, List.length_append, List.length_singleton, hmod]
    · rw [hcyc]
      exact fun j hj => absurd hj (Nat.not_lt_zero j)
    · have hold : Mouse.pointer { m.store b with cycle := 0 } = m.pointer := rfl
      rw [hpointer, hold, h.pointer, hgroups]
      unfold pointerAfter
      rw [List.foldl_concat]
      exact pointerStep_congr hbytes

/-- The cursor never leaves the screen, once a packet has moved it. -/
def OnScreen (fbWidth fbHeight : Nat) (p : Pointer) : Prop :=
  0 ≤ p.x ∧ p.x + 12 ≤ fbWidth ∧ 0 ≤ p.y ∧ p.y + 16 ≤ fbHeight

theorem clampAxis_mem (v : Int) {size margin : Nat} (hle : margin ≤ size) (hlt : size < 2 ^ 31) :
    0 ≤ clampAxis v size margin ∧ clampAxis v size margin + margin ≤ size := by
  have hi32 : Kwm.i32 ((size : Int) - margin) = size - margin := by
    apply Int.bmod_eq_of_le <;> omega
  unfold clampAxis
  dsimp only
  rw [hi32]
  split_ifs <;> omega

theorem pointerStep_onScreen {p : Pointer} {f : Nat → BitVec 8} (hw : 12 ≤ fbWidth)
    (hw' : fbWidth < 2 ^ 31) (hh : 16 ≤ fbHeight) (hh' : fbHeight < 2 ^ 31)
    (h : OnScreen fbWidth fbHeight p ∨ overflows f = false) :
    OnScreen fbWidth fbHeight (pointerStep fbWidth fbHeight p f) := by
  unfold pointerStep
  split_ifs with hover
  · rcases h with h | h
    · exact h
    · rw [h] at hover
      cases hover
  · obtain ⟨hx, hxw⟩ := clampAxis_mem (Kwm.i32 (p.x + (f 1).toInt)) hw hw'
    obtain ⟨hy, hyh⟩ := clampAxis_mem (Kwm.i32 (p.y - (f 2).toInt)) hh hh'
    exact ⟨hx, hxw, hy, hyh⟩

theorem pointerAfter_onScreen (hw : 12 ≤ fbWidth) (hw' : fbWidth < 2 ^ 31) (hh : 16 ≤ fbHeight)
    (hh' : fbHeight < 2 ^ 31) {packets : List (List (BitVec 8))}
    (h : ∃ packet ∈ packets, overflows (bytesOf packet) = false) :
    OnScreen fbWidth fbHeight (pointerAfter fbWidth fbHeight packets) := by
  induction packets using List.reverseRecOn with
  | nil =>
    obtain ⟨packet, hmem, -⟩ := h
    exact absurd hmem List.not_mem_nil
  | append_singleton packets packet ih =>
    rw [pointerAfter, List.foldl_concat]
    apply pointerStep_onScreen hw hw' hh hh'
    obtain ⟨q, hq, hfits⟩ := h
    rcases List.mem_append.mp hq with hq | hq
    · exact Or.inl (ih ⟨q, hq, hfits⟩)
    · rw [List.mem_singleton.mp hq] at hfits
      exact Or.inr hfits

/-! ## Clicks -/

/-- Is the event a click of the button, and is the button pressed? -/
def clickOf (button : Int) (e : KyuzenEvent) : Option Bool :=
  if e.type = eventMouseClick ∧ e.param1 = button then some (e.param2 ≠ 0) else none

def pushed : MouseOut → Option KyuzenEvent
  | .push _ e => some e
  | .nowhere _ => none
  | .scrollView _ => none

/-- The event is pushed, or would be if there were a window. -/
def tried : MouseOut → Option KyuzenEvent
  | .push _ e => some e
  | .nowhere e => some e
  | .scrollView _ => none

/-- The clicks of a button that are pushed, the first one first. -/
def clicks (button : Int) (outs : List MouseOut) : List Bool :=
  (outs.filterMap pushed).filterMap (clickOf button)

def tries (button : Int) (outs : List MouseOut) : List Bool :=
  (outs.filterMap tried).filterMap (clickOf button)

/-- The changes of a button that was `b`. -/
def changes (b : Bool) : List Bool → List Bool
  | [] => []
  | c :: l => if c ≠ b then c :: changes c l else changes b l

theorem changes_snoc (b c : Bool) (l : List Bool) :
    changes b (l ++ [c]) = changes b l ++ if c ≠ l.getLast?.getD b then [c] else [] := by
  induction l generalizing b with
  | nil =>
    rw [List.nil_append, changes]
    rfl
  | cons d l ih =>
    have hlast : (d :: l).getLast?.getD b = l.getLast?.getD d := by
      cases l with
      | nil => rfl
      | cons e l => rw [List.getLast?_cons_cons, List.getLast?_cons]; rfl
    rw [List.cons_append, changes, changes, hlast]
    by_cases hd : d ≠ b
    · rw [if_pos hd, if_pos hd, ih, List.cons_append]
    · rw [if_neg hd, if_neg hd, ih]
      rw [not_not] at hd
      rw [hd]

theorem tries_append (button : Int) (outs outs' : List MouseOut) :
    tries button (outs ++ outs') = tries button outs ++ tries button outs' := by
  unfold tries
  rw [List.filterMap_append, List.filterMap_append]

theorem tries_closeOut (button : Int) (kwm : Kwm.State) (m : Mouse) (leftDown leftUp : Bool) :
    tries button (closeOut kwm m leftDown leftUp) = [] := by
  unfold closeOut
  split
  · rfl
  · rfl

/-- With a window or without one. -/
theorem tries_routeTo (button : Int) (kwm : Kwm.State) (m : Mouse) (e : MouseEvent) :
    ∃ lx ly win, tries button [routeTo kwm m e] = (clickOf button (e.event lx ly win)).toList := by
  refine ⟨(routeLocal kwm m.x m.y).1, (routeLocal kwm m.x m.y).2, (kwmRouteMouse kwm m.x m.y).2, ?_⟩
  have htried : tried (routeTo kwm m e) = some (e.event (routeLocal kwm m.x m.y).1
      (routeLocal kwm m.x m.y).2 (kwmRouteMouse kwm m.x m.y).2) := by
    unfold routeTo
    dsimp only
    split_ifs
    · rfl
    · rfl
  unfold tries
  rw [List.filterMap_cons_some htried, List.filterMap_nil]
  cases hclick : clickOf button _ with
  | none => exact List.filterMap_cons_none hclick
  | some down => exact List.filterMap_cons_some hclick

theorem tries_click (button other : Int) (kwm : Kwm.State) (m : Mouse) (down : Bool) :
    tries button [routeTo kwm m (.click other down.toInt)] =
      if other = button then [down] else [] := by
  obtain ⟨lx, ly, win, heq⟩ := tries_routeTo button kwm m (.click other down.toInt)
  rw [heq]
  unfold MouseEvent.event clickOf
  by_cases h : other = button <;> cases down <;> simp [h, Bool.toInt]

theorem tries_move (button : Int) (kwm : Kwm.State) (m : Mouse) :
    tries button [routeTo kwm m .move] = [] := by
  obtain ⟨lx, ly, win, heq⟩ := tries_routeTo button kwm m .move
  rw [heq]
  rfl

theorem tries_wheelOut (button : Int) (kwm : Kwm.State) (m : Mouse) (z : Int) :
    tries button (wheelOut kwm m z) = [] := by
  obtain ⟨lx, ly, win, heq⟩ := tries_routeTo button kwm m (.scroll z)
  unfold wheelOut
  split_ifs
  · rfl
  · rw [heq]
    rfl
  · rfl

/-- The clicks that are pushed are those that find a window. -/
theorem clicks_sublist (button : Int) (outs : List MouseOut) :
    (clicks button outs).Sublist (tries button outs) := by
  apply List.Sublist.filterMap
  induction outs with
  | nil => exact List.Sublist.refl _
  | cons out outs ih =>
    cases out with
    | push target e => exact ih.cons_cons e
    | nowhere e => exact ih.cons e
    | scrollView lines => exact ih

theorem clicks_eq_tries (button : Int) {outs : List MouseOut}
    (h : ∀ e, MouseOut.nowhere e ∉ outs) : clicks button outs = tries button outs := by
  unfold clicks tries
  congr 1
  apply List.filterMap_congr
  intro out hout
  cases out with
  | push target e => rfl
  | nowhere e => exact absurd hout (h e)
  | scrollView lines => rfl

theorem tries_rightOut (kwm : Kwm.State) (m : Mouse) (right : Bool) :
    tries 0 (rightOut kwm m right) = [] ∧
      tries 1 (rightOut kwm m right) = if right ≠ m.lastRight then [right] else [] := by
  unfold rightOut
  split_ifs
  · exact ⟨tries_click 0 1 kwm m right, tries_click 1 1 kwm m right⟩
  · exact ⟨rfl, rfl⟩

theorem tries_leftOut (kwm : Kwm.State) (m : Mouse) (consumed : Nat) (left leftUp : Bool)
    (hup : leftUp = true → consumed = 0) :
    tries 1 (leftOut kwm m consumed left leftUp) = [] ∧
      tries 0 (leftOut kwm m consumed left leftUp) =
        if consumed = 0 ∧ left ≠ m.lastLeft then [left] else [] := by
  unfold leftOut
  by_cases hc : consumed = 0
  · rw [if_pos hc]
    by_cases hl : left ≠ m.lastLeft
    · rw [if_pos hl, if_pos ⟨hc, hl⟩]
      exact ⟨tries_click 1 0 kwm m left, tries_click 0 0 kwm m left⟩
    · rw [if_neg hl, if_neg fun hand => hl hand.2]
      exact ⟨rfl, rfl⟩
  · rw [if_neg hc, if_neg fun hand => hc (hup hand), if_neg fun hand => hc hand.1]
    exact ⟨rfl, rfl⟩

/-- The window manager never takes a release. -/
theorem kwmProcessMouse_leftUp (kwm : Kwm.State) (px py : Int) (leftDown : Bool) :
    (Kwm.kwmProcessMouse kwm px py leftDown true).1 = 0 := by
  rfl

/-- The tries of a packet. The window manager has taken a press if `taken` is true. -/
theorem handlePacket_tries (fbWidth fbHeight : Nat) (m : Mouse) (kwm : Kwm.State)
    (meanwhile : Nat → Kwm.State → Kwm.State) (hfits : overflows m.bytes = false) :
    tries 1 (handlePacket fbWidth fbHeight m kwm meanwhile).2.2 =
        (if rightBit m.bytes ≠ m.lastRight then [rightBit m.bytes] else []) ∧
      ∃ taken : Bool, (taken = true → leftBit m.bytes = true ∨ m.lastLeft = false) ∧
        tries 0 (handlePacket fbWidth fbHeight m kwm meanwhile).2.2 =
          if taken = false ∧ leftBit m.bytes ≠ m.lastLeft then [leftBit m.bytes] else [] := by
  unfold handlePacket
  rw [hfits, if_neg Bool.false_ne_true]
  dsimp only
  generalize hm : m.move fbWidth fbHeight = m'
  have hleft : m'.lastLeft = m.lastLeft := by
    rw [← hm]
    rfl
  have hright : m'.lastRight = m.lastRight := by
    rw [← hm]
    rfl
  have hbytes : m'.bytes = m.bytes := by
    rw [← hm]
    rfl
  rw [hbytes, hleft]
  generalize hc : (Kwm.kwmProcessMouse (meanwhile 0 kwm) m'.x m'.y (leftBit m.bytes && !m.lastLeft)
    (!leftBit m.bytes && m.lastLeft)).1 = consumed
  have hup : (!leftBit m.bytes && m.lastLeft) = true → consumed = 0 := by
    intro hup
    rw [← hc, hup]
    exact kwmProcessMouse_leftUp _ _ _ _
  simp only [tries_append, tries_closeOut, tries_move, tries_wheelOut, List.nil_append,
    List.append_nil, tries_rightOut, tries_leftOut _ m' consumed _ _ hup, hleft, hright]
  refine ⟨trivial, decide (consumed ≠ 0), ?_, ?_⟩
  · intro htaken
    have hne : consumed ≠ 0 := of_decide_eq_true htaken
    cases hl : leftBit m.bytes with
    | true => exact Or.inl rfl
    | false =>
      right
      by_contra hlast
      apply hne
      apply hup
      rw [hl, (Bool.not_eq_false _).mp hlast]
      rfl
  · simp only [decide_eq_false_iff_not, not_not]

/-! ## Runs -/

def buttonOf (bit : (Nat → BitVec 8) → Bool) (packets : List (List (BitVec 8))) : List Bool :=
  (packets.filter fun packet => !overflows (bytesOf packet)).map fun packet => bit (bytesOf packet)

theorem buttonOf_snoc (bit : (Nat → BitVec 8) → Bool) (packets : List (List (BitVec 8)))
    (packet : List (BitVec 8)) :
    buttonOf bit (packets ++ [packet]) =
      buttonOf bit packets ++
        if overflows (bytesOf packet) then [] else [bit (bytesOf packet)] := by
  unfold buttonOf
  rw [List.filter_append, List.map_append]
  congr 1
  cases h : overflows (bytesOf packet) with
  | true => simp [h]
  | false => simp [h]

/-- The buttons are those of the last packet. -/
theorem pointerAfter_buttons (fbWidth fbHeight : Nat) (packets : List (List (BitVec 8))) :
    (pointerAfter fbWidth fbHeight packets).left =
        (buttonOf leftBit packets).getLast?.getD false ∧
      (pointerAfter fbWidth fbHeight packets).right =
        (buttonOf rightBit packets).getLast?.getD false := by
  induction packets using List.reverseRecOn with
  | nil => exact ⟨rfl, rfl⟩
  | append_singleton packets packet ih =>
    rw [buttonOf_snoc, buttonOf_snoc, pointerAfter, List.foldl_concat]
    unfold pointerStep
    split_ifs with h
    · rw [List.append_nil, List.append_nil]
      exact ih
    · rw [List.getLast?_concat, List.getLast?_concat]
      exact ⟨rfl, rfl⟩

/-- What a run has made of the packets. -/
structure Follows (fbWidth fbHeight : Nat) (deviceId : BitVec 8) (bytes : List (BitVec 8))
    (s : MouseSystem) : Prop where
  collects : Collects fbWidth fbHeight deviceId bytes s.mouse
  right : tries 1 s.outs = changes false (buttonOf rightBit (groups (sizeOf deviceId) bytes))
  left : (tries 0 s.outs).Sublist
    (changes false (buttonOf leftBit (groups (sizeOf deviceId) bytes)))
  releases : (tries 0 s.outs).count false =
    (changes false (buttonOf leftBit (groups (sizeOf deviceId) bytes))).count false

theorem Follows.packet {s : MouseSystem} (h : Follows fbWidth fbHeight deviceId bytes s)
    (kwm : Kwm.State) {status : BitVec 8} (hst : mouseAccepts status = true) (b : BitVec 8)
    (meanwhile : Nat → Kwm.State → Kwm.State) :
    Follows fbWidth fbHeight deviceId (bytes ++ [b])
      ⟨(mouseHandler fbWidth fbHeight s.mouse kwm status b meanwhile).1,
        (mouseHandler fbWidth fbHeight s.mouse kwm status b meanwhile).2.1,
        s.outs ++ (mouseHandler fbWidth fbHeight s.mouse kwm status b meanwhile).2.2⟩ := by
  have hbyte := h.collects.byte kwm hst b meanwhile
  cases h.collects.byte_cases kwm hst b meanwhile with
  | part hgroups hr hmod =>
    rw [hr] at hbyte ⊢
    refine ⟨hbyte, ?_, ?_, ?_⟩
    · rw [hgroups, List.append_nil]
      exact h.right
    · rw [hgroups, List.append_nil]
      exact h.left
    · rw [hgroups, List.append_nil]
      exact h.releases
  | packet packet hgroups hr hbytes hmod =>
    obtain ⟨hlastLeft, hlastRight⟩ :=
      pointerAfter_buttons fbWidth fbHeight (groups (sizeOf deviceId) bytes)
    rw [← h.collects.pointer] at hlastLeft hlastRight
    have hover : overflows (s.mouse.store b).bytes = overflows (bytesOf packet) := by
      unfold overflows
      rw [hbytes 0 (by decide)]
    have hleft : leftBit (s.mouse.store b).bytes = leftBit (bytesOf packet) := by
      unfold leftBit
      rw [hbytes 0 (by decide)]
    have hright : rightBit (s.mouse.store b).bytes = rightBit (bytesOf packet) := by
      unfold rightBit
      rw [hbytes 0 (by decide)]
    rw [hr] at hbyte ⊢
    cases hfits : overflows (bytesOf packet) with
    | true =>
      have hskip : handlePacket fbWidth fbHeight { s.mouse.store b with cycle := 0 } kwm meanwhile =
          ({ s.mouse.store b with cycle := 0 }, kwm, []) := if_pos (hover.trans hfits)
      have hsame : ∀ bit, buttonOf bit (groups (sizeOf deviceId) (bytes ++ [b])) =
          buttonOf bit (groups (sizeOf deviceId) bytes) := by
        intro bit
        rw [hgroups, buttonOf_snoc, hfits, if_pos rfl, List.append_nil]
      rw [hskip] at hbyte ⊢
      refine ⟨hbyte, ?_, ?_, ?_⟩
      · rw [hsame, List.append_nil]
        exact h.right
      · rw [hsame, List.append_nil]
        exact h.left
      · rw [hsame, List.append_nil]
        exact h.releases
    | false =>
      obtain ⟨hone, taken, htaken, hzero⟩ := handlePacket_tries fbWidth fbHeight
        { s.mouse.store b with cycle := 0 } kwm meanwhile (hover.trans hfits)
      have hgrow : ∀ bit last, last = (buttonOf bit (groups (sizeOf deviceId) bytes)).getLast?.getD
            false →
          changes false (buttonOf bit (groups (sizeOf deviceId) (bytes ++ [b]))) =
            changes false (buttonOf bit (groups (sizeOf deviceId) bytes)) ++
              if bit (bytesOf packet) ≠ last then [bit (bytesOf packet)] else [] := by
        rintro bit last rfl
        rw [hgroups, buttonOf_snoc, hfits, if_neg Bool.false_ne_true, changes_snoc]
      rw [hright] at hone
      rw [hleft] at hzero htaken
      refine ⟨hbyte, ?_, ?_, ?_⟩
      · rw [tries_append, hone, h.right, hgrow rightBit _ hlastRight]
        rfl
      · rw [tries_append, hzero, hgrow leftBit _ hlastLeft]
        apply h.left.append
        cases taken with
        | true => exact List.nil_sublist _
        | false => simp only [true_and]; exact List.Sublist.refl _
      · rw [tries_append, hzero, hgrow leftBit _ hlastLeft, List.count_append, List.count_append,
          h.releases]
        congr 1
        cases taken with
        | true =>
          rw [if_neg fun hand => Bool.noConfusion hand.1]
          rcases htaken rfl with hl | hl
          · rw [hl]
            split_ifs <;> rfl
          · change s.mouse.lastLeft = false at hl
            have hpointer : s.mouse.pointer.left = false := hl
            rw [hpointer]
            cases leftBit (bytesOf packet) <;> rfl
        | false =>
          simp only [true_and]
          rfl

theorem Follows.step {s : MouseSystem} (h : Follows fbWidth fbHeight deviceId bytes s)
    (op : MouseOp) :
    Follows fbWidth fbHeight deviceId (bytes ++ received [op])
      (mouseStep fbWidth fbHeight s op) := by
  cases op with
  | irq status byte meanwhile =>
    by_cases hst : mouseAccepts status = true
    · have hreceived : received [.irq status byte meanwhile] = [byte] := by simp [received, hst]
      rw [hreceived]
      exact h.packet s.kwm hst byte meanwhile
    · have hreceived : received [.irq status byte meanwhile] = [] := by simp [received, hst]
      have hsame : mouseHandler fbWidth fbHeight s.mouse s.kwm status byte meanwhile =
          (s.mouse, s.kwm, []) := if_pos (by simpa using hst)
      show Follows fbWidth fbHeight deviceId _
        ⟨(mouseHandler fbWidth fbHeight s.mouse s.kwm status byte meanwhile).1, _, s.outs ++
          (mouseHandler fbWidth fbHeight s.mouse s.kwm status byte meanwhile).2.2⟩
      rw [hreceived, hsame, List.append_nil, List.append_nil]
      exact ⟨h.collects, h.right, h.left, h.releases⟩
  | other f =>
    rw [show received [.other f] = [] from rfl, List.append_nil]
    exact ⟨h.collects, h.right, h.left, h.releases⟩

theorem follows_run (fbWidth fbHeight : Nat) (deviceId : BitVec 8) (kwm : Kwm.State)
    (ops : List MouseOp) :
    Follows fbWidth fbHeight deviceId (received ops)
      (runMouse fbWidth fbHeight deviceId kwm ops) := by
  induction ops using List.reverseRecOn with
  | nil =>
    have hnone : groups (sizeOf deviceId) [] = [] := by
      unfold groups
      rw [List.length_nil, Nat.zero_div]
      rfl
    show Follows fbWidth fbHeight deviceId [] ⟨bootMouse deviceId, kwm, []⟩
    refine ⟨⟨rfl, ?_, ?_, ?_⟩, ?_, ?_, ?_⟩
    · exact (Nat.zero_mod _).symm
    · exact fun j hj => absurd hj (Nat.not_lt_zero j)
    · rw [hnone]
      rfl
    · rw [hnone]
      rfl
    · exact List.nil_sublist _
    · rw [hnone]
      rfl
  | append_singleton ops op ih =>
    have hreceived : received (ops ++ [op]) = received ops ++ received [op] :=
      List.filterMap_append
    rw [hreceived]
    unfold runMouse
    rw [List.foldl_concat]
    exact ih.step op

/-- After any run the handler waits for the byte that follows the complete packets, and the cursor
is where these move it: on the screen, once one of them has moved it. -/
theorem mouse_follows_packets (fbWidth fbHeight : Nat) (deviceId : BitVec 8) (kwm : Kwm.State)
    (ops : List MouseOp) (hw : 12 ≤ fbWidth) (hw' : fbWidth < 2 ^ 31) (hh : 16 ≤ fbHeight)
    (hh' : fbHeight < 2 ^ 31) :
    let m := (runMouse fbWidth fbHeight deviceId kwm ops).mouse
    let packets := groups (sizeOf deviceId) (received ops)
    m.cycle = (received ops).length % sizeOf deviceId ∧
      m.pointer = pointerAfter fbWidth fbHeight packets ∧
      ((∃ packet ∈ packets, overflows (bytesOf packet) = false) →
        OnScreen fbWidth fbHeight m.pointer) := by
  obtain ⟨hcollects, -, -, -⟩ := follows_run fbWidth fbHeight deviceId kwm ops
  refine ⟨hcollects.cycle, hcollects.pointer, fun hmoved => ?_⟩
  rw [hcollects.pointer]
  exact pointerAfter_onScreen hw hw' hh hh' hmoved

/-- A packet of three bytes, and one byte more. -/
theorem mouse_follows_one_packet :
    let ops := [0x08, 5, 3, 0x09].map fun byte => MouseOp.irq 0x21 byte fun _ s => s
    let m := (runMouse 800 600 0 (Kwm.boot 800 600) ops).mouse
    m.cycle = 1 ∧ m.pointer = ⟨517, 381, false, false⟩ ∧ OnScreen 800 600 m.pointer := by
  have hrun := mouse_follows_packets 800 600 0 (Kwm.boot 800 600)
    ([0x08, 5, 3, 0x09].map fun byte => MouseOp.irq 0x21 byte fun _ s => s) (by decide) (by decide)
    (by decide) (by decide)
  obtain ⟨hcycle, hpointer, hscreen⟩ := hrun
  have hmoved : ∃ packet ∈ groups 3 [0x08, 5, 3, 0x09], overflows (bytesOf packet) = false :=
    ⟨[0x08, 5, 3], by decide, by decide⟩
  exact ⟨hcycle, hpointer, hscreen hmoved⟩

/-- A press over the one window of a table, and the release beside it, which nobody gets. -/
example :
    let ops := [0x01, 0, 0, 0x08, 127, 0].map fun byte => MouseOp.irq 0x21 byte fun _ s => s
    let kwm := Kwm.exec (Kwm.boot 800 600) (.createWindow 1 (some fun _ => 0) 490 340 50 50)
    let outs := (runMouse 800 600 0 kwm ops).outs
    tries 0 outs = [true, false] ∧ clicks 0 outs = [true] := by
  decide +kernel

end Kyuzen.Input
