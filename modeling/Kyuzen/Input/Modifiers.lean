import Mathlib.Data.List.Induction
import Kyuzen.Input.Keyboard

/-!
# The modifiers are those that are held

What `kbd_mods` says after any run is a function of the scan codes that have come: Shift, Ctrl and
Alt are active as long as one of their two keys is down, and Caps Lock changes with every press that
is not a repetition (`mods_iff`). A key event carries these modifiers, and its character is the one
they select (`key_event`).
-/

namespace Kyuzen.Input

open Event

/-! ## What the scan codes mean -/

/-- The codes that the handler has taken, the first one first. -/
def scanned (ops : List Op) : List (BitVec 8) :=
  ops.filterMap fun
    | .irq status scancode _ => if accepts status then some scancode else none
    | _ => none

/-- Whether the last code was a prefix, and the keys so far. -/
def decodeStep (d : Bool × List Stroke) (scancode : BitVec 8) : Bool × List Stroke :=
  if scancode = 0xE0 then (true, d.2) else (false, d.2 ++ [strokeOf d.1 scancode])

def decode (codes : List (BitVec 8)) : Bool × List Stroke := codes.foldl decodeStep (false, [])

/-- The key went down last. -/
def down (l : List Stroke) (key : Nat) : Bool :=
  (l.filter fun s => s.keyId = key).getLast?.any fun s => !s.released

/-- The key goes down at position `n`, where it was not down. -/
def Fresh (l : List Stroke) (key n : Nat) : Prop :=
  l[n]? = some ⟨key, false⟩ ∧ down (l.take n) key = false

instance (l : List Stroke) (key n : Nat) : Decidable (Fresh l key n) :=
  inferInstanceAs (Decidable (_ ∧ _))

/-- How often the key was pressed, without the repetitions. -/
def presses (l : List Stroke) (key : Nat) : Nat :=
  ((List.range l.length).filter fun n => Fresh l key n).length

def shiftDown (l : List Stroke) : Bool := down l 0x2A || down l 0x36

def ctrlDown (l : List Stroke) : Bool := down l 0x1D || down l 0x11D

def altDown (l : List Stroke) : Bool := down l 0x38 || down l 0x138

def capsOn (l : List Stroke) : Bool := presses l 0x3A % 2 = 1

/-- The bitmask of the modifiers. -/
def modsOf (l : List Stroke) : Nat :=
  (shiftDown l).toNat + 2 * (ctrlDown l).toNat + 4 * (altDown l).toNat + 8 * (capsOn l).toNat

/-- The character of a key: Caps Lock reverses Shift for the letters. -/
def charOf (shift caps : Bool) (code : Nat) : UInt8 :=
  let letter := 97 ≤ kbdus.getD code 0 ∧ kbdus.getD code 0 ≤ 122
  if (if letter then shift ≠ caps else shift) then kbdusShift.getD code 0 else kbdus.getD code 0

variable {l : List Stroke} {s : Stroke} {key : Nat} {held mods : BitVec 8}

theorem down_snoc (l : List Stroke) (s : Stroke) (key : Nat) :
    down (l ++ [s]) key = if s.keyId = key then !s.released else down l key := by
  unfold down
  rw [List.filter_append]
  by_cases h : s.keyId = key
  · rw [List.filter_cons_of_pos (by simpa using h), List.filter_nil, List.getLast?_concat, if_pos h]
    rfl
  · rw [List.filter_cons_of_neg (by simpa using h), List.filter_nil, List.append_nil, if_neg h]

theorem fresh_snoc_of_lt {n : Nat} (hn : n < l.length) :
    Fresh (l ++ [s]) key n ↔ Fresh l key n := by
  unfold Fresh
  rw [List.getElem?_append_left hn, List.take_append_of_le_length hn.le]

theorem fresh_snoc_length :
    Fresh (l ++ [s]) key l.length ↔ s = ⟨key, false⟩ ∧ down l key = false := by
  unfold Fresh
  rw [List.getElem?_concat_length, List.take_left', Option.some_inj]
  rfl

theorem presses_snoc (l : List Stroke) (s : Stroke) (key : Nat) :
    presses (l ++ [s]) key =
      presses l key + if s = ⟨key, false⟩ ∧ down l key = false then 1 else 0 := by
  have hold : (List.range l.length).filter (fun n => Fresh (l ++ [s]) key n) =
      (List.range l.length).filter fun n => Fresh l key n := by
    apply List.filter_congr
    intro n hn
    exact decide_eq_decide.mpr (fresh_snoc_of_lt (List.mem_range.mp hn))
  unfold presses
  rw [List.length_append, List.length_singleton, List.range_succ, List.filter_append, hold,
    List.length_append]
  congr 1
  by_cases h : s = ⟨key, false⟩ ∧ down l key = false
  · rw [List.filter_cons_of_pos (by simpa using fresh_snoc_length.mpr h), if_pos h]
    rfl
  · rw [List.filter_cons_of_neg (by simpa [fresh_snoc_length] using h), if_neg h]
    rfl

/-! ## The bits -/

theorem hold_getLsbD (held : BitVec 8) (released : Bool) {i j : Nat} (hi : i < 8) (hj : j < 8) :
    (hold held (BitVec.twoPow 8 i) released).getLsbD j =
      if i = j then !released else held.getLsbD j := by
  unfold hold
  cases released with
  | true =>
    rw [if_pos rfl, BitVec.getLsbD_and, BitVec.getLsbD_not, BitVec.getLsbD_twoPow]
    by_cases hij : i = j <;> simp only [hij, hi, hj] <;> simp
  | false =>
    rw [if_neg Bool.false_ne_true, BitVec.getLsbD_or, BitVec.getLsbD_twoPow]
    by_cases hij : i = j <;> simp only [hij, hi, hj] <;> simp

/-- The keys that are tracked, with their bits in `kbd_held`. -/
def trackedKeys : List (Nat × Nat) :=
  [(0x2A, 0), (0x36, 1), (0x1D, 2), (0x11D, 3), (0x38, 4), (0x138, 5), (0x3A, 6)]

theorem tracked_lt {i : Nat} (hk : (key, i) ∈ trackedKeys) : i < 8 := by
  have : ∀ p ∈ trackedKeys, p.2 < 8 := by decide
  exact this _ hk

/-- Each key has its own bit. -/
theorem tracked_inj {key' i i' : Nat} (hk : (key, i) ∈ trackedKeys)
    (hk' : (key', i') ∈ trackedKeys) : i = i' ↔ key = key' := by
  have : ∀ p ∈ trackedKeys, ∀ q ∈ trackedKeys, p.2 = q.2 ↔ p.1 = q.1 := by decide
  exact this _ hk _ hk'

/-- A repetition of Caps Lock finds its bit set. -/
theorem caps_held : ∀ held : BitVec 8, held &&& heldCaps ≠ 0 → held ||| heldCaps = held := by
  decide

theorem updateModifiers_tracked {i : Nat} (hk : (s.keyId, i) ∈ trackedKeys) (held mods : BitVec 8) :
    (updateModifiers held mods s).1 = hold held (BitVec.twoPow 8 i) s.released := by
  obtain ⟨keyId, released⟩ := s
  simp only [trackedKeys, List.mem_cons, Prod.mk.injEq, List.not_mem_nil, or_false] at hk
  rcases hk with ⟨rfl, rfl⟩ | ⟨rfl, rfl⟩ | ⟨rfl, rfl⟩ | ⟨rfl, rfl⟩ | ⟨rfl, rfl⟩ | ⟨rfl, rfl⟩ |
    ⟨rfl, rfl⟩
  iterate 6 rfl
  show (if released then _ else if held &&& heldCaps = 0 then _ else (held, mods)).1 = _
  cases released with
  | true => rfl
  | false =>
    by_cases h : held &&& heldCaps = 0
    · rw [if_neg Bool.false_ne_true, if_pos h]
      rfl
    · rw [if_neg Bool.false_ne_true, if_neg h]
      exact (caps_held held h).symm

theorem updateModifiers_untracked (hk : ∀ i, (s.keyId, i) ∉ trackedKeys) (held mods : BitVec 8) :
    (updateModifiers held mods s).1 = held := by
  obtain ⟨keyId, released⟩ := s
  unfold updateModifiers
  dsimp only at hk ⊢
  split
  · exact absurd (by decide) (hk 0)
  · exact absurd (by decide) (hk 1)
  · exact absurd (by decide) (hk 2)
  · exact absurd (by decide) (hk 3)
  · exact absurd (by decide) (hk 4)
  · exact absurd (by decide) (hk 5)
  · exact absurd (by decide) (hk 6)
  · rfl

/-- A key changes its own bit and no other. -/
theorem updateModifiers_held {i : Nat} (hk : (key, i) ∈ trackedKeys) (held mods : BitVec 8)
    (s : Stroke) :
    (updateModifiers held mods s).1.getLsbD i =
      if s.keyId = key then !s.released else held.getLsbD i := by
  by_cases htracked : ∃ j, (s.keyId, j) ∈ trackedKeys
  · obtain ⟨j, hj⟩ := htracked
    rw [updateModifiers_tracked hj, hold_getLsbD _ _ (tracked_lt hj) (tracked_lt hk)]
    simp only [tracked_inj hj hk]
  · rw [updateModifiers_untracked (not_exists.mp htracked), if_neg]
    rintro rfl
    exact htracked ⟨i, hk⟩

/-- Caps Lock changes with a press, unless the key is down already. -/
theorem updateModifiers_mods (held mods : BitVec 8) (s : Stroke) :
    (updateModifiers held mods s).2 =
      if s = ⟨0x3A, false⟩ ∧ held.getLsbD 6 = false then mods ^^^ keyModCaps else mods := by
  have hbit : ∀ held : BitVec 8, held &&& heldCaps = 0 ↔ held.getLsbD 6 = false := by decide
  obtain ⟨keyId, released⟩ := s
  by_cases hkey : keyId = 0x3A
  · subst hkey
    show (if released then _ else if held &&& heldCaps = 0 then _ else (held, mods)).2 = _
    cases released with
    | true => simp
    | false =>
      rw [if_neg Bool.false_ne_true]
      by_cases h : held.getLsbD 6 = false
      · rw [if_pos ((hbit held).mpr h), if_pos ⟨rfl, h⟩]
      · rw [if_neg fun hand => h ((hbit held).mp hand), if_neg fun hand => h hand.2]
  · rw [if_neg fun h => hkey (congrArg Stroke.keyId h.1)]
    unfold updateModifiers
    dsimp only
    split
    case h_7 => exact absurd rfl hkey
    all_goals rfl

theorem and_pair_ne (held : BitVec 8) :
    (held &&& (heldLshift ||| heldRshift) ≠ 0 ↔ held.getLsbD 0 || held.getLsbD 1) ∧
      (held &&& (heldLctrl ||| heldRctrl) ≠ 0 ↔ held.getLsbD 2 || held.getLsbD 3) ∧
      (held &&& (heldLalt ||| heldRalt) ≠ 0 ↔ held.getLsbD 4 || held.getLsbD 5) := by
  revert held
  decide

theorem and_caps : ∀ mods : BitVec 8,
    mods &&& keyModCaps = if mods.getLsbD 3 then keyModCaps else 0 := by
  decide

theorem deriveMods_toNat (held mods : BitVec 8) :
    (deriveMods held mods).toNat =
      (held.getLsbD 0 || held.getLsbD 1).toNat + 2 * (held.getLsbD 2 || held.getLsbD 3).toNat +
        4 * (held.getLsbD 4 || held.getLsbD 5).toNat + 8 * (mods.getLsbD 3).toNat := by
  obtain ⟨hshift, hctrl, halt⟩ := and_pair_ne held
  unfold deriveMods
  simp only [hshift, hctrl, halt, and_caps mods]
  cases held.getLsbD 0 || held.getLsbD 1 <;> cases held.getLsbD 2 || held.getLsbD 3 <;>
    cases held.getLsbD 4 || held.getLsbD 5 <;> cases mods.getLsbD 3 <;> rfl

theorem deriveMods_caps (held mods : BitVec 8) :
    (deriveMods held mods).getLsbD 3 = mods.getLsbD 3 := by
  unfold deriveMods
  simp only [and_caps mods]
  cases mods.getLsbD 3 with
  | true =>
    rw [if_pos rfl]
    split_ifs <;> rfl
  | false =>
    rw [if_neg Bool.false_ne_true]
    split_ifs <;> rfl

/-! ## Runs -/

/-- What the keyboard knows of the keys so far. -/
structure Tracks (k : Keyboard) (d : Bool × List Stroke) : Prop where
  extended : k.extended = d.1
  held : ∀ key i, (key, i) ∈ trackedKeys → k.held.getLsbD i = down d.2 key
  caps : k.mods.getLsbD 3 = capsOn d.2
  mods : k.mods.toNat = modsOf d.2

variable {k k' : Keyboard} {d : Bool × List Stroke}

theorem capsOn_snoc (l : List Stroke) (s : Stroke) :
    capsOn (l ++ [s]) =
      if s = ⟨0x3A, false⟩ ∧ down l 0x3A = false then !capsOn l else capsOn l := by
  unfold capsOn
  rw [presses_snoc]
  split_ifs with h
  · rw [← decide_not]
    apply decide_eq_decide.mpr
    omega
  · rw [Nat.add_zero]

/-- A key. -/
theorem Tracks.stroke (h : Tracks k d) (s : Stroke) :
    Tracks (k.stroke s) (false, d.2 ++ [s]) := by
  have hheld : ∀ key i, (key, i) ∈ trackedKeys →
      (k.stroke s).held.getLsbD i = down (d.2 ++ [s]) key := by
    intro key i hk
    show (updateModifiers k.held k.mods s).1.getLsbD i = _
    rw [updateModifiers_held hk, down_snoc, h.held key i hk]
  have hcaps : (updateModifiers k.held k.mods s).2.getLsbD 3 = capsOn (d.2 ++ [s]) := by
    rw [updateModifiers_mods, capsOn_snoc, h.held 0x3A 6 (by decide), ← h.caps]
    split_ifs
    · rw [BitVec.getLsbD_xor]
      exact Bool.xor_true _
    · rfl
  have hmods : (k.stroke s).mods.toNat = modsOf (d.2 ++ [s]) := by
    show (deriveMods (k.stroke s).held (updateModifiers k.held k.mods s).2).toNat = _
    rw [deriveMods_toNat, hcaps, hheld 0x2A 0 (by decide), hheld 0x36 1 (by decide),
      hheld 0x1D 2 (by decide), hheld 0x11D 3 (by decide), hheld 0x38 4 (by decide),
      hheld 0x138 5 (by decide)]
    rfl
  exact ⟨rfl, hheld, (deriveMods_caps _ _).trans hcaps, hmods⟩

/-- The fields that the ring does not touch. -/
theorem Tracks.of_eq (h : Tracks k d) (hext : k'.extended = k.extended) (hheld : k'.held = k.held)
    (hmods : k'.mods = k.mods) : Tracks k' d :=
  ⟨hext.trans h.extended, by rw [hheld]; exact h.held, by rw [hmods]; exact h.caps,
    by rw [hmods]; exact h.mods⟩

theorem Tracks.put (h : Tracks k d) (ascii : UInt8) : Tracks (k.put ascii) d := by
  unfold Keyboard.put
  dsimp only
  split_ifs
  · exact h.of_eq rfl rfl rfl
  · exact h

theorem Tracks.routeKey (h : Tracks k d) (kwm : Kwm.State) (s : Stroke) (ascii : UInt8) :
    Tracks (routeKey k kwm s ascii).1 d := by
  unfold Input.routeKey
  split
  split
  · exact h
  · split
    · exact h.put ascii
    · exact h

theorem Tracks.readLoop (h : Tracks k d) (left : Nat) : Tracks (readLoop left k).2 d := by
  induction left generalizing k with
  | zero => exact h
  | succ left ih =>
    unfold Input.readLoop
    split_ifs
    · exact h
    · exact ih (h.of_eq rfl rfl rfl)

theorem tracks_step {t : System} (h : Tracks t.kbd d) (op : Op) :
    Tracks (step t op).kbd ((scanned [op]).foldl decodeStep d) := by
  cases op with
  | irq status scancode meanwhile =>
    show Tracks (keyboardHandler t.kbd t.kwm status scancode meanwhile).1 _
    unfold keyboardHandler
    cases hst : accepts status with
    | false => simpa [scanned, hst] using h
    | true =>
      have hfold : (scanned [.irq status scancode meanwhile]).foldl decodeStep d =
          decodeStep d scancode := by simp [scanned, hst]
      rw [hfold]
      unfold decodeStep
      by_cases hpre : scancode = 0xE0
      · rw [if_pos hpre, if_neg (by simp), if_pos hpre]
        exact ⟨rfl, h.held, h.caps, h.mods⟩
      · rw [if_neg hpre, if_neg (by simp), if_neg hpre, ← h.extended]
        have hstroke := h.stroke (strokeOf t.kbd.extended scancode)
        dsimp only
        split_ifs
        · exact hstroke.routeKey _ _ _
        · exact hstroke
  | read size => exact h.readLoop size
  | flush => exact h.of_eq rfl rfl rfl
  | other f => exact h

theorem scanned_append (ops ops' : List Op) : scanned (ops ++ ops') = scanned ops ++ scanned ops' :=
  List.filterMap_append

theorem run_snoc (kwm : Kwm.State) (ops : List Op) (op : Op) :
    run kwm (ops ++ [op]) = step (run kwm ops) op :=
  List.foldl_concat _ _ _ _

theorem tracks_run (kwm : Kwm.State) (ops : List Op) :
    Tracks (run kwm ops).kbd (decode (scanned ops)) := by
  induction ops using List.reverseRecOn with
  | nil =>
    exact ⟨rfl, fun key i hk => BitVec.getLsbD_zero, BitVec.getLsbD_zero, rfl⟩
  | append_singleton ops op ih =>
    rw [run_snoc, scanned_append, decode, List.foldl_append]
    exact tracks_step ih op

/-- After any run the bitmask says which modifiers are active. -/
theorem mods_iff (kwm : Kwm.State) (ops : List Op) :
    (run kwm ops).kbd.mods.toNat = modsOf (decode (scanned ops)).2 :=
  (tracks_run kwm ops).mods

/-! ## Keys and their codes -/

/-- The codes of a key, as a keyboard sends them. -/
def encode (s : Stroke) : List (BitVec 8) :=
  (if 0x100 ≤ s.keyId then [0xE0] else []) ++
    [BitVec.ofNat 8 (s.keyId % 0x100 + if s.released then 0x80 else 0)]

/-- A key with a code of seven bits. The release of key 0x60 would be the prefix. -/
structure Stroke.Valid (s : Stroke) : Prop where
  lt : s.keyId < 0x200
  code : s.keyId % 0x100 < 0x80
  notPrefix : s.keyId % 0x100 = 0x60 → s.released = false

theorem strokeOf_ofNat {code : Nat} (hcode : code < 0x80) (released extended : Bool) :
    strokeOf extended (BitVec.ofNat 8 (code + if released then 0x80 else 0)) =
      ⟨code + if extended then 0x100 else 0, released⟩ := by
  have hall : ∀ c < 0x80, ∀ r e : Bool,
      strokeOf e (BitVec.ofNat 8 (c + if r then 0x80 else 0)) =
        ⟨c + if e then 0x100 else 0, r⟩ := by decide
  exact hall code hcode released extended

theorem ofNat_ne_prefix {code : Nat} (hcode : code < 0x80) {released : Bool}
    (h : code = 0x60 → released = false) :
    BitVec.ofNat 8 (code + if released then 0x80 else 0) ≠ 0xE0 := by
  intro heq
  have hnat := congrArg BitVec.toNat heq
  rw [BitVec.toNat_ofNat] at hnat
  cases released with
  | true =>
    simp at hnat
    have := h (by omega)
    cases this
  | false =>
    simp at hnat
    omega

theorem decode_encode_step {s : Stroke} (hs : s.Valid) (l : List Stroke) :
    (encode s).foldl decodeStep (false, l) = (false, l ++ [s]) := by
  obtain ⟨keyId, released⟩ := s
  obtain ⟨hlt, hcode, hpre⟩ := hs
  dsimp only at hlt hcode hpre
  have hne := ofNat_ne_prefix hcode hpre
  unfold encode
  dsimp only
  by_cases hext : 0x100 ≤ keyId
  · rw [if_pos hext, List.singleton_append, List.foldl_cons, List.foldl_cons, List.foldl_nil]
    unfold decodeStep
    rw [if_pos rfl, if_neg hne, strokeOf_ofNat hcode, if_pos rfl,
      show keyId % 0x100 + 0x100 = keyId by omega]
  · rw [if_neg hext, List.nil_append, List.foldl_cons, List.foldl_nil]
    unfold decodeStep
    rw [if_neg hne, strokeOf_ofNat hcode, if_neg Bool.false_ne_true,
      show keyId % 0x100 + 0 = keyId by omega]

/-- What a keyboard sends is understood. -/
theorem decode_encode {l : List Stroke} (h : ∀ s ∈ l, s.Valid) :
    decode (l.flatMap encode) = (false, l) := by
  induction l using List.reverseRecOn with
  | nil => rfl
  | append_singleton l s ih =>
    rw [List.flatMap_append, List.flatMap_singleton, decode, List.foldl_append]
    have hl := ih fun s hs => h s (List.mem_append_left _ hs)
    unfold decode at hl
    rw [hl]
    exact decode_encode_step (h s (by simp)) l

/-! ## Events -/

theorem strokeOf_code : ∀ (extended : Bool) (scancode : BitVec 8),
    (strokeOf extended scancode).keyId % 0x80 = (scancode &&& 0x7F).toNat := by
  decide

theorem Tracks.shift (h : Tracks k d) : k.mods &&& keyModShift ≠ 0 ↔ shiftDown d.2 := by
  have hbit : ∀ mods : BitVec 8, mods &&& keyModShift ≠ 0 ↔ mods.toNat % 2 = 1 := by decide
  rw [hbit, h.mods, modsOf]
  have hodd : ∀ b : Bool, b.toNat % 2 = 1 ↔ b := by decide
  rw [← hodd (shiftDown d.2)]
  omega

theorem Tracks.capsLock (h : Tracks k d) : k.mods &&& keyModCaps ≠ 0 ↔ capsOn d.2 := by
  have hbit : ∀ mods : BitVec 8, mods &&& keyModCaps ≠ 0 ↔ mods.getLsbD 3 := by decide
  rw [hbit, h.caps]

/-- The character of a key depends on Shift and Caps Lock. -/
theorem Tracks.toAscii (h : Tracks k d) (code : Nat) (released : Bool) :
    toAscii k.mods code released =
      if released then kbdus.getD code 0 else charOf (shiftDown d.2) (capsOn d.2) code := by
  unfold Input.toAscii charOf
  simp only [h.shift, h.capsLock]
  cases released with
  | true => rfl
  | false =>
    rw [if_neg Bool.false_ne_true, if_neg Bool.false_ne_true]
    by_cases hletter : 97 ≤ kbdus.getD code 0 ∧ kbdus.getD code 0 ≤ 122 <;>
      cases shiftDown d.2 <;> cases capsOn d.2 <;> simp only [hletter] <;> rfl

/-- What an event says of a key, when `l` are the keys so far with this one. -/
def keyEventOf (l : List Stroke) (s : Stroke) (win : Int) : KyuzenEvent where
  type := if s.released then eventKeyRelease else eventKeyPress
  param1 := (if s.released then kbdus.getD (s.keyId % 0x80) 0
    else charOf (shiftDown l) (capsOn l) (s.keyId % 0x80)).toNat
  param2 := modsOf l
  param3 := s.keyId
  winId := win

theorem routeKey_event {kwm : Kwm.State} {ascii : UInt8} {target : Int} {e : KyuzenEvent}
    (h : (routeKey k kwm s ascii).2 = some (target, e)) :
    0 ≤ target ∧ (target, e.winId) = kwmRouteKeyboard kwm ∧
      e = ⟨if s.released then eventKeyRelease else eventKeyPress, ascii.toNat, k.mods.toNat,
        s.keyId, e.winId⟩ := by
  unfold routeKey at h
  dsimp only at h
  split at h
  · rename_i htarget
    cases h
    exact ⟨htarget, rfl, rfl⟩
  · split at h <;> cases h

/-- The window manager when a key is routed. -/
def routedBy (t : System) (meanwhile : Kwm.State → Kwm.State) (s : Stroke) : Kwm.State :=
  meanwhile (Kwm.kwmHandleShortcut t.kwm (t.kbd.stroke s).mods.toNat s.released s.keyId).2.1

/-- Only a key is passed on. -/
theorem pushedBy_irq {t : System} {status scancode : BitVec 8}
    {meanwhile : Kwm.State → Kwm.State} {target : Int} {e : KyuzenEvent} {s : Stroke}
    (hs : strokeOf t.kbd.extended scancode = s)
    (h : pushedBy t (.irq status scancode meanwhile) = some (target, e)) :
    accepts status = true ∧ scancode ≠ 0xE0 ∧
      (routeKey (t.kbd.stroke s) (routedBy t meanwhile s) s
        (toAscii (t.kbd.stroke s).mods (scancode &&& 0x7F).toNat s.released)).2 =
          some (target, e) := by
  subst hs
  unfold pushedBy keyboardHandler at h
  dsimp only at h
  cases hst : accepts status with
  | false =>
    rw [hst] at h
    cases h
  | true =>
    rw [hst, if_neg (by simp)] at h
    by_cases hpre : scancode = 0xE0
    · rw [if_pos hpre] at h
      cases h
    · rw [if_neg hpre] at h
      refine ⟨rfl, hpre, ?_⟩
      split at h
      · exact h
      · cases h

/-- After any run in which the handler has got the codes of the keys `l ++ [s]`, whatever happens
in between, the bitmask and the event for `s` are what these keys mean. -/
theorem key_event (kwm : Kwm.State) {ops : List Op} {status scancode : BitVec 8}
    {meanwhile : Kwm.State → Kwm.State} {l : List Stroke} {s : Stroke}
    (hvalid : ∀ t ∈ l ++ [s], t.Valid)
    (hscan : scanned (ops ++ [.irq status scancode meanwhile]) = (l ++ [s]).flatMap encode) :
    (run kwm (ops ++ [.irq status scancode meanwhile])).kbd.mods.toNat = modsOf (l ++ [s]) ∧
      ∀ target e, pushedBy (run kwm ops) (.irq status scancode meanwhile) = some (target, e) →
        e = keyEventOf (l ++ [s]) s e.winId := by
  have hdecode := decode_encode hvalid
  rw [← hscan] at hdecode
  constructor
  · rw [mods_iff, hdecode]
  · intro target e hpush
    obtain ⟨hst, hpre, hroute⟩ := pushedBy_irq rfl hpush
    have htracks := tracks_run kwm ops
    have hlast : scanned [.irq status scancode meanwhile] = [scancode] := by simp [scanned, hst]
    rw [scanned_append, hlast, decode, List.foldl_concat] at hdecode
    change decodeStep (decode (scanned ops)) scancode = _ at hdecode
    unfold decodeStep at hdecode
    rw [if_neg hpre, ← htracks.extended] at hdecode
    obtain ⟨hl, hs⟩ := List.append_inj' (Prod.ext_iff.mp hdecode).2 rfl
    rw [List.singleton_inj] at hs
    have hstroke := htracks.stroke s
    rw [hl] at hstroke
    rw [hs] at hroute
    obtain ⟨-, -, he⟩ := routeKey_event hroute
    rw [hstroke.toAscii, hstroke.mods] at he
    rw [he, ← strokeOf_code (run kwm ops).kbd.extended, hs]
    rfl

/-- One window, of task 3, with the focus. -/
def oneWindow : Kwm.State :=
  { Kwm.boot 800 600 with
    windows := fun i => ⟨i = 0, 0, 0, 100, 100, none, 1, 3, false, []⟩
    focusedWinId := some 0 }

/-- The left Shift key and then A. -/
theorem key_event_shift_a :
    pushedBy (run oneWindow [.irq 0x01 0x2A id]) (.irq 0x01 0x1E id) =
        some (3, keyEventOf [⟨0x2A, false⟩, ⟨0x1E, false⟩] ⟨0x1E, false⟩ 1) ∧
      (run oneWindow [.irq 0x01 0x2A id, .irq 0x01 0x1E id]).kbd.mods.toNat = 1 := by
  have hvalid : ∀ t ∈ [(⟨0x2A, false⟩ : Stroke)] ++ [⟨0x1E, false⟩], t.Valid := by
    intro t ht
    rcases List.mem_cons.mp ht with rfl | ht
    · exact ⟨by decide, by decide, fun _ => rfl⟩
    · rw [List.mem_singleton.mp ht]
      exact ⟨by decide, by decide, fun _ => rfl⟩
  have hscan : scanned ([.irq 0x01 0x2A id] ++ [.irq 0x01 0x1E id]) =
      ([Stroke.mk 0x2A false] ++ [Stroke.mk 0x1E false]).flatMap encode := by
    rfl
  obtain ⟨hmods, hevent⟩ := key_event oneWindow hvalid hscan
  have hpush : pushedBy (run oneWindow [.irq 0x01 0x2A id]) (.irq 0x01 0x1E id) =
      some (3, ⟨1, 65, 1, 0x1E, 1⟩) := by
    rfl
  refine ⟨?_, hmods⟩
  rw [hpush, Option.some_inj, Prod.mk.injEq]
  exact ⟨rfl, hevent 3 _ hpush⟩

end Kyuzen.Input
