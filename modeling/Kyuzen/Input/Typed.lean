import Kyuzen.Input.Modifiers

/-!
# What is typed is what the terminal reads

The ring of the keyboard is a queue of at most 255 characters: `keyboard_read` returns the oldest
ones, and a key that finds the ring full is lost (`tty_is_queue`). A key goes to one place: a key
that a task gets as an event is never read by the terminal too.
-/

namespace Kyuzen.Input

open Event Lib

/-- The character that a key brings to the terminal: a press, without Ctrl or Alt, that is no
shortcut and finds no window with the focus. -/
def typedBy (t : System) : Op → Option UInt8
  | .irq status scancode meanwhile =>
    if !accepts status ∨ scancode = 0xE0 then none
    else
      let s := strokeOf t.kbd.extended scancode
      let k := t.kbd.stroke s
      let ascii := toAscii k.mods (scancode &&& 0x7F).toNat s.released
      let r := Kwm.kwmHandleShortcut t.kwm k.mods.toNat s.released s.keyId
      if r.1 = 0 ∧ (kwmRouteKeyboard (meanwhile r.2.1)).1 < 0 ∧ s.released = false ∧ ascii ≠ 0 ∧
          k.mods &&& (keyModCtrl ||| keyModAlt) = 0 then some ascii
      else none
  | _ => none

/-- The bytes that `keyboard_read` stores. -/
def readBy (t : System) : Op → List UInt8
  | .read size => (keyboardRead t.kbd size).1
  | _ => []

/-! ## The queue -/

/-- A key for a queue that is full is lost. -/
def addTyped (line : List UInt8) : Option UInt8 → List UInt8
  | none => line
  | some c => if line.length < 255 then line ++ [c] else line

/-- The queue after an operation that types `typed`. -/
def lineStep (line : List UInt8) (typed : Option UInt8) : Op → List UInt8
  | .read size => line.drop size
  | .flush => []
  | _ => addTyped line typed

/-- The queue after each operation of a run. -/
def lineFrom (t : System) (line : List UInt8) : List Op → List UInt8
  | [] => line
  | op :: ops => lineFrom (step t op) (lineStep line (typedBy t op) op) ops

/-- What has been typed, read, and lost at a full queue. -/
def typedFrom (t : System) : List Op → List UInt8
  | [] => []
  | op :: ops => (typedBy t op).toList ++ typedFrom (step t op) ops

def readFrom (t : System) : List Op → List UInt8
  | [] => []
  | op :: ops => readBy t op ++ readFrom (step t op) ops

/-- The ring holds the characters of the list. -/
structure Holds (k : Keyboard) (line : List UInt8) : Prop where
  ring : RingHolds kbdBufferSize kbdBufferSize k.buffer k.tail line
  fits : line.length < kbdBufferSize
  tail : k.tail < kbdBufferSize
  head : k.head = (k.tail + line.length) % kbdBufferSize

variable {k k' : Keyboard} {line : List UInt8} {t : System}

theorem Holds.of_eq (h : Holds k line) (hb : k'.buffer = k.buffer) (hh : k'.head = k.head)
    (ht : k'.tail = k.tail) : Holds k' line := by
  obtain ⟨hring, hfits, htail, hhead⟩ := h
  exact ⟨by rwa [hb, ht], hfits, by rwa [ht], by rwa [hh, ht]⟩

theorem holds_nil (hh : k.head = 0) (ht : k.tail = 0) : Holds k [] := by
  refine ⟨RingHolds.nil _ _ _ _, by decide, ?_, ?_⟩
  · rw [ht]
    decide
  · rw [hh, ht]
    rfl

/-- The test for a full ring. -/
theorem Holds.full_iff (h : Holds k line) :
    (k.head + 1) % kbdBufferSize = k.tail ↔ line.length = 255 := by
  obtain ⟨-, hfits, htail, hhead⟩ := h
  unfold kbdBufferSize at *
  omega

theorem Holds.empty_iff (h : Holds k line) : k.head = k.tail ↔ line = [] := by
  obtain ⟨-, hfits, htail, hhead⟩ := h
  rw [← List.length_eq_zero_iff]
  unfold kbdBufferSize at *
  omega

theorem Holds.put (h : Holds k line) (ascii : UInt8) :
    Holds (k.put ascii) (addTyped line (some ascii)) := by
  have hfull := h.full_iff
  obtain ⟨hring, hfits, htail, hhead⟩ := h
  unfold Keyboard.put addTyped
  dsimp only
  by_cases hlen : line.length = 255
  · rw [if_neg (not_not.mpr (hfull.mpr hlen)), if_neg (by omega)]
    exact ⟨hring, hfits, htail, hhead⟩
  · have hlt : line.length < 255 := by
      unfold kbdBufferSize at hfits
      omega
    rw [if_pos (fun heq => hlen (hfull.mp heq)), if_pos hlt]
    have hpush := hring.push (dvd_refl _) hfits ascii
    rw [Nat.mod_mod, ← hhead] at hpush
    refine ⟨hpush, ?_, htail, ?_⟩
    · rw [List.length_append, List.length_singleton]
      unfold kbdBufferSize
      omega
    · rw [List.length_append, List.length_singleton, hhead]
      show ((k.tail + line.length) % kbdBufferSize + 1) % kbdBufferSize = _
      rw [Nat.mod_add_mod, Nat.add_assoc]

theorem Holds.readLoop (h : Holds k line) (left : Nat) :
    (readLoop left k).1 = line.take left ∧ Holds (readLoop left k).2 (line.drop left) := by
  induction left generalizing k line with
  | zero => exact ⟨rfl, h⟩
  | succ left ih =>
    unfold Input.readLoop
    cases line with
    | nil =>
      rw [if_pos (h.empty_iff.mpr rfl)]
      exact ⟨rfl, h⟩
    | cons c line =>
      rw [if_neg fun heq => absurd (h.empty_iff.mp heq) (List.cons_ne_nil _ _)]
      obtain ⟨hring, hfits, htail, hhead⟩ := h
      obtain ⟨hc, hrest⟩ := hring.pop
      have hnext : Holds { k with tail := (k.tail + 1) % kbdBufferSize } line := by
        refine ⟨hrest, ?_, Nat.mod_lt _ (by decide), ?_⟩
        · exact Nat.lt_of_succ_lt hfits
        · show k.head = ((k.tail + 1) % kbdBufferSize + line.length) % kbdBufferSize
          rw [hhead, Nat.mod_add_mod, List.length_cons]
          congr 1
          omega
      obtain ⟨hbytes, hrest⟩ := ih hnext
      have hcell : k.buffer k.tail = c := by
        rw [← hc, Nat.mod_mod, Nat.mod_eq_of_lt htail]
      exact ⟨by rw [List.take_succ_cons, ← hbytes, hcell], hrest⟩

/-! ## Steps -/

/-- A key that goes to the terminal is put into the ring. -/
theorem Holds.routeKey (h : Holds k line) (kwm : Kwm.State) (s : Stroke) (ascii : UInt8) :
    Holds (routeKey k kwm s ascii).1
      (addTyped line (if (kwmRouteKeyboard kwm).1 < 0 ∧ s.released = false ∧ ascii ≠ 0 ∧
        k.mods &&& (keyModCtrl ||| keyModAlt) = 0 then some ascii else none)) := by
  unfold Input.routeKey
  dsimp only
  by_cases htarget : (kwmRouteKeyboard kwm).1 < 0
  · rw [if_neg (not_le.mpr htarget)]
    by_cases htext : s.released = false ∧ ascii ≠ 0 ∧ k.mods &&& (keyModCtrl ||| keyModAlt) = 0
    · rw [if_pos ⟨by rw [htext.1]; rfl, htext.2⟩, if_pos ⟨htarget, htext⟩]
      exact h.put ascii
    · rw [if_neg fun hand : (_ < 0 ∧ _) => htext hand.2, if_neg]
      · exact h
      · rintro ⟨hrel, hrest⟩
        exact htext ⟨by simpa using hrel, hrest⟩
  · rw [if_neg fun hand : (_ < 0 ∧ _) => htarget hand.1, if_pos (not_lt.mp htarget)]
    exact h

theorem Holds.irq (h : Holds t.kbd line) (status scancode : BitVec 8)
    (meanwhile : Kwm.State → Kwm.State) :
    Holds (keyboardHandler t.kbd t.kwm status scancode meanwhile).1
      (addTyped line (typedBy t (.irq status scancode meanwhile))) := by
  by_cases hst : accepts status = true
  · by_cases hpre : scancode = 0xE0
    · have htyped : typedBy t (.irq status scancode meanwhile) = none := if_pos (Or.inr hpre)
      have hk : keyboardHandler t.kbd t.kwm status scancode meanwhile = _ :=
        (if_neg (by simp [hst])).trans (if_pos hpre)
      rw [htyped, hk]
      exact h.of_eq rfl rfl rfl
    · have htyped : typedBy t (.irq status scancode meanwhile) = _ :=
        if_neg (not_or.mpr ⟨by simp [hst], hpre⟩)
      have hk : keyboardHandler t.kbd t.kwm status scancode meanwhile = _ :=
        (if_neg (by simp [hst])).trans (if_neg hpre)
      have hs : Holds (t.kbd.stroke (strokeOf t.kbd.extended scancode)) line := h.of_eq rfl rfl rfl
      rw [htyped, hk]
      dsimp only
      generalize strokeOf t.kbd.extended scancode = s at hs ⊢
      generalize t.kbd.stroke s = k at hs ⊢
      have hroute := hs.routeKey (meanwhile (Kwm.kwmHandleShortcut t.kwm k.mods.toNat s.released
        s.keyId).2.1) s (toAscii k.mods (scancode &&& 0x7F).toNat s.released)
      by_cases hshort : (Kwm.kwmHandleShortcut t.kwm k.mods.toNat s.released s.keyId).1 = 0
      · rw [if_pos hshort]
        simp only [hshort, true_and]
        exact hroute
      · rw [if_neg hshort, if_neg fun hand => hshort hand.1]
        exact hs
  · have htyped : typedBy t (.irq status scancode meanwhile) = none :=
      if_pos (Or.inl (by simpa using hst))
    have hk : keyboardHandler t.kbd t.kwm status scancode meanwhile = _ :=
      if_pos (by simpa using hst)
    rw [htyped, hk]
    exact h

theorem Holds.step (h : Holds t.kbd line) (op : Op) :
    Holds (step t op).kbd (lineStep line (typedBy t op) op) := by
  cases op with
  | irq status scancode meanwhile => exact h.irq status scancode meanwhile
  | read size => exact (h.readLoop size).2
  | flush => exact holds_nil rfl rfl
  | other f => exact h

/-! ## Runs -/

/-- A flush drops what is pending, and a key that finds 255 characters is lost. -/
def Loses (t : System) (line : List UInt8) : Op → Prop
  | .flush => line ≠ []
  | .irq status scancode meanwhile =>
    typedBy t (.irq status scancode meanwhile) ≠ none ∧ line.length = 255
  | _ => False

def Lossless (t : System) (line : List UInt8) : List Op → Prop
  | [] => True
  | op :: ops => ¬ Loses t line op ∧ Lossless (step t op) (lineStep line (typedBy t op) op) ops

/-- What a step takes out of the queue and what it leaves there was in the queue or is typed. -/
theorem Holds.conserves (h : Holds t.kbd line) (op : Op) :
    (readBy t op ++ lineStep line (typedBy t op) op).Sublist (line ++ (typedBy t op).toList) ∧
      (readBy t op ++ lineStep line (typedBy t op) op = line ++ (typedBy t op).toList ↔
        ¬ Loses t line op) := by
  cases op with
  | irq status scancode meanwhile =>
    show (addTyped line (typedBy t (.irq status scancode meanwhile))).Sublist _ ∧
      (addTyped line (typedBy t (.irq status scancode meanwhile)) = _ ↔
        ¬ (typedBy t (.irq status scancode meanwhile) ≠ none ∧ line.length = 255))
    cases typedBy t (.irq status scancode meanwhile) with
    | none =>
      rw [Option.toList_none, List.append_nil]
      exact ⟨List.Sublist.refl _, iff_of_true rfl fun hand => hand.1 rfl⟩
    | some c =>
      have hfits := h.fits
      unfold kbdBufferSize at hfits
      show (if line.length < 255 then line ++ [c] else line).Sublist (line ++ [c]) ∧
        ((if line.length < 255 then line ++ [c] else line) = line ++ [c] ↔ _)
      by_cases hlen : line.length < 255
      · rw [if_pos hlen]
        refine ⟨List.Sublist.refl _, iff_of_true rfl fun hand => ?_⟩
        omega
      · rw [if_neg hlen]
        refine ⟨List.sublist_append_left _ _, iff_of_false (by simp) ?_⟩
        exact not_not.mpr ⟨Option.some_ne_none c, by omega⟩
  | read size =>
    have hread : readBy t (.read size) ++ lineStep line none (.read size) = line := by
      show (Input.readLoop size t.kbd).1 ++ line.drop size = line
      rw [(h.readLoop size).1, List.take_append_drop]
    show (readBy t (.read size) ++ lineStep line none (.read size)).Sublist (line ++ []) ∧ _
    rw [List.append_nil, hread]
    exact ⟨List.Sublist.refl _, iff_of_true (hread.trans (List.append_nil _).symm) not_false⟩
  | flush =>
    show ([] ++ []).Sublist (line ++ []) ∧ ([] ++ [] = line ++ [] ↔ ¬ line ≠ [])
    rw [List.append_nil, List.append_nil, not_not]
    exact ⟨List.nil_sublist _, eq_comm⟩
  | other f =>
    show (line).Sublist (line ++ []) ∧ (line = line ++ [] ↔ ¬ False)
    rw [List.append_nil]
    exact ⟨List.Sublist.refl _, iff_of_true rfl not_false⟩

/-- The ends of a chain of sublists are equal if each link is an equality. -/
theorem sublist_chain {a b c : List UInt8} (hab : a.Sublist b) (hbc : b.Sublist c) :
    a = c ↔ a = b ∧ b = c := by
  constructor
  · rintro rfl
    have hba := hbc.antisymm hab
    exact ⟨hba.symm, hba⟩
  · rintro ⟨rfl, rfl⟩
    rfl

theorem Holds.conserves_from (h : Holds t.kbd line) (ops : List Op) :
    (readFrom t ops ++ lineFrom t line ops).Sublist (line ++ typedFrom t ops) ∧
      (readFrom t ops ++ lineFrom t line ops = line ++ typedFrom t ops ↔ Lossless t line ops) := by
  induction ops generalizing t line with
  | nil =>
    show line.Sublist (line ++ []) ∧ (line = line ++ [] ↔ True)
    rw [List.append_nil]
    exact ⟨List.Sublist.refl _, iff_of_true rfl trivial⟩
  | cons op ops ih =>
    obtain ⟨hone, heq⟩ := h.conserves op
    obtain ⟨hrest, hrestEq⟩ := ih (h.step op)
    have hab := hrest.append_left (readBy t op)
    have hbc := hone.append_right (typedFrom (Input.step t op) ops)
    rw [List.append_assoc, List.append_assoc] at hbc
    unfold readFrom lineFrom typedFrom Lossless
    rw [List.append_assoc]
    refine ⟨hab.trans hbc, (sublist_chain hab hbc).trans ?_⟩
    rw [List.append_cancel_left_eq, ← List.append_assoc, ← List.append_assoc,
      List.append_cancel_right_eq, hrestEq, heq]
    exact and_comm

theorem Holds.lineFrom (h : Holds t.kbd line) (ops : List Op) :
    Holds (ops.foldl Input.step t).kbd (lineFrom t line ops) := by
  induction ops generalizing t line with
  | nil => exact h
  | cons op ops ih => exact ih (h.step op)

/-- A key that a task gets is not typed. -/
theorem typedBy_of_pushed (t : System) (op : Op) (h : pushedBy t op ≠ none) :
    typedBy t op = none := by
  cases op with
  | irq status scancode meanwhile =>
    obtain ⟨⟨target, e⟩, hpush⟩ := Option.ne_none_iff_exists'.mp h
    obtain ⟨hst, hpre, hroute⟩ := pushedBy_irq rfl hpush
    obtain ⟨htarget, heq, -⟩ := routeKey_event hroute
    have htyped : typedBy t (.irq status scancode meanwhile) = _ :=
      if_neg (not_or.mpr ⟨by simp [hst], hpre⟩)
    rw [htyped]
    apply if_neg
    rintro ⟨-, hlt, -⟩
    have hfst : target = _ := congrArg Prod.fst heq
    rw [hfst] at htarget
    exact absurd htarget (not_le.mpr hlt)
  | read size => rfl
  | flush => rfl
  | other f => rfl

/-- After any run a list of at most 255 characters is pending, of which a read returns the oldest.
What has been read, followed by what is pending, is what has been typed, but for the characters
that a flush drops or that find the queue full. No key is both typed and passed to a task. -/
theorem tty_is_queue (kwm : Kwm.State) (ops : List Op) :
    let line := lineFrom (boot kwm) [] ops
    (∀ op, pushedBy (run kwm ops) op ≠ none → typedBy (run kwm ops) op = none) ∧
      line.length ≤ 255 ∧ (∀ size, (keyboardRead (run kwm ops).kbd size).1 = line.take size) ∧
      (readFrom (boot kwm) ops ++ line).Sublist (typedFrom (boot kwm) ops) ∧
      (readFrom (boot kwm) ops ++ line = typedFrom (boot kwm) ops ↔
        Lossless (boot kwm) [] ops) := by
  have hboot : Holds (boot kwm).kbd [] := holds_nil rfl rfl
  have hrun := hboot.lineFrom ops
  obtain ⟨hsub, heq⟩ := hboot.conserves_from ops
  rw [List.nil_append] at hsub heq
  exact ⟨typedBy_of_pushed _, Nat.le_of_lt_succ hrun.fits, fun size => (hrun.readLoop size).1,
    hsub, heq⟩

end Kyuzen.Input
