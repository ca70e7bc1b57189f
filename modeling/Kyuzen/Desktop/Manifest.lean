import Mathlib.Data.List.Basic
import Mathlib.Data.List.TakeDrop
import Mathlib.Data.List.DropRight
import Mathlib.Tactic.Ring
import Kyuzen.Lib.Decimal
import Kyuzen.Lib.LineEnds

/-!
# Manifests of apps

`parse_manifest` goes through a NUL-terminated buffer with indices and hands pointers into the
middle of it to `parse_color`. A read goes through `byteAt`, which gives `none` after the NUL, and a
write to the label through `put`, which gives `none` after its end.

The result is the same as that of a fold over the lines of the text (`parseManifest_eq`), in which
`applyLine` sees its own line only.
-/

namespace Kyuzen.Desktop

open Lib

/-- A NUL-terminated buffer, by the bytes before the NUL. -/
structure Buf where
  bytes : List UInt8
  noNul : 0 ∉ bytes

/-- The fields of `AppEntry` that a manifest can set. -/
structure AppEntry where
  label : Nat → UInt8
  color : Nat

namespace Buf

/-- `b[i]`. -/
def byteAt (b : Buf) (i : Nat) : Option UInt8 := (b.bytes ++ [0])[i]?

/-- More rounds than any of the loops over the buffer makes. -/
def rounds (b : Buf) : Nat := b.bytes.length + 1

end Buf

/-- The size of the field `label`. -/
def labelSize : Nat := 32

def AppEntry.put (e : AppEntry) (i : Nat) (c : UInt8) : Option AppEntry :=
  if i < labelSize then some { e with label := Function.update e.label i c } else none

/-- "name". -/
def nameKey : List UInt8 := [110, 97, 109, 101]

/-- "color". -/
def colorKey : List UInt8 := [99, 111, 108, 111, 114]

/-- "hidden". -/
def hiddenKey : List UInt8 := [104, 105, 100, 100, 101, 110]

/-! ## The parser -/

/-- The first `n` bytes of the key, which has that length. -/
def neq (b : Buf) (k : Nat) : List UInt8 → Option Bool
  | [] => some true
  | c :: key => do
    let d ← b.byteAt k
    if d ≠ c then some false else neq b (k + 1) key

def hexDigit (c : UInt8) : Option Nat :=
  if 48 ≤ c.toNat ∧ c.toNat ≤ 57 then some (c.toNat - 48)
  else if 97 ≤ c.toNat ∧ c.toNat ≤ 102 then some (c.toNat - 97 + 10)
  else if 65 ≤ c.toNat ∧ c.toNat ≤ 70 then some (c.toNat - 65 + 10)
  else none

def decDigit (c : UInt8) : Option Nat :=
  if 48 ≤ c.toNat ∧ c.toNat ≤ 57 then some (c.toNat - 48) else none

/-- The two loops of `parse_color`, which stop at the first byte that is not a digit. -/
def digitLoop (base : Nat) (digit : UInt8 → Option Nat) (b : Buf) (i v : Nat) : Nat → Option Nat
  | 0 => none
  | fuel + 1 => do
    let c ← b.byteAt i
    match digit c with
    | none => some v
    | some d => digitLoop base digit b (i + 1) ((v * base + d) % 2 ^ 32) fuel

/-- `s[0] == '0' && (s[1] == 'x' || s[1] == 'X')`. -/
def hexPrefix (b : Buf) (s : Nat) : Option Bool := do
  let c ← b.byteAt s
  if c = 48 then do
    let d ← b.byteAt (s + 1)
    some (d = 120 ∨ d = 88)
  else some false

def parseColor (b : Buf) (s : Nat) : Option Nat := do
  let hex ← hexPrefix b s
  let v ← if hex then digitLoop 16 hexDigit b (s + 2) 0 b.rounds
    else digitLoop 10 decDigit b s 0 b.rounds
  some (v &&& 0xFFFFFF)

/-- `while (b[i] && b[i] != '\n') i++`. -/
def findEnd (b : Buf) (i : Nat) : Nat → Option Nat
  | 0 => none
  | fuel + 1 => do
    let c ← b.byteAt i
    if c ≠ 0 ∧ c ≠ 10 then findEnd b (i + 1) fuel else some i

/-- `while (eq < le && b[eq] != '=') eq++`, over the bytes that are left of the line. -/
def findEq (b : Buf) (eq : Nat) : Nat → Option Nat
  | 0 => some eq
  | left + 1 => do
    let c ← b.byteAt eq
    if c ≠ 61 then findEq b (eq + 1) left else some eq

/-- `while (vlen > 0 && (v[vlen - 1] == '\r' || v[vlen - 1] == ' ')) vlen--`. -/
def trimEnd (b : Buf) (v : Nat) : Nat → Option Nat
  | 0 => some 0
  | vlen + 1 => do
    let c ← b.byteAt (v + vlen)
    if c = 13 ∨ c = 32 then trimEnd b v vlen else some (vlen + 1)

/-- `for (int j = 0; j < n; j++) e->label[j] = v[j]`, over the rounds that are left. -/
def copyLabel (b : Buf) (v : Nat) (e : AppEntry) (j : Nat) : Nat → Option AppEntry
  | 0 => some e
  | left + 1 => do
    let c ← b.byteAt (v + j)
    let e ← e.put j c
    copyLabel b v e (j + 1) left

/-- `klen == n && neq(k, key, n)`. -/
def isKey (b : Buf) (k klen : Nat) (key : List UInt8) : Option Bool :=
  if klen = key.length then neq b k key else some false

/-- The body of the loop over the lines, after the end of the line has been found. -/
def parseLine (b : Buf) (ls le : Nat) (e : AppEntry) (hidden : Bool) :
    Option (AppEntry × Bool) := do
  let eq ← findEq b ls (le - ls)
  if eq ≥ le then some (e, hidden)
  else do
    let klen := eq - ls
    let v := eq + 1
    let vlen ← trimEnd b v (le - (eq + 1))
    if ← isKey b ls klen nameKey then do
      let n := if vlen > 31 then 31 else vlen
      let e ← copyLabel b v e 0 n
      let e ← e.put n 0
      some (e, hidden)
    else if ← isKey b ls klen colorKey then do
      let color ← parseColor b v
      some ({ e with color := color }, hidden)
    else if ← isKey b ls klen hiddenKey then
      if vlen > 0 then do
        let c ← b.byteAt v
        some (e, c ≠ 48)
      else some (e, false)
    else some (e, hidden)

def parseLoop (b : Buf) (i : Nat) (e : AppEntry) (hidden : Bool) :
    Nat → Option (AppEntry × Bool)
  | 0 => none
  | fuel + 1 => do
    let c ← b.byteAt i
    if c = 0 then some (e, hidden)
    else do
      let le ← findEnd b i b.rounds
      let c ← b.byteAt le
      let (e, hidden) ← parseLine b i le e hidden
      parseLoop b (if c ≠ 0 then le + 1 else le) e hidden fuel

/-- The entry and `*hidden` afterwards, and `none` when a byte after the NUL is read, when a byte
after the end of the label is written, or when a loop does not end. -/
def parseManifest (b : Buf) (e : AppEntry) (hidden : Bool) : Option (AppEntry × Bool) :=
  parseLoop b 0 e hidden b.rounds

/-! ## Lines -/

/-- What there is before the first '=' of a line and after it. -/
def keyValue : List UInt8 → Option (List UInt8 × List UInt8)
  | [] => none
  | c :: line =>
    if c = 61 then some ([], line) else (keyValue line).map fun kv => (c :: kv.1, kv.2)

def isBlank (c : UInt8) : Bool := c = 13 ∨ c = 32

/-- The value without carriage returns and blanks at its end. -/
def trim (value : List UInt8) : List UInt8 := value.rdropWhile isBlank

/-- The number that the digits at the start of a text denote, in 32 bits. -/
def digitsValue (base : Nat) (digit : UInt8 → Option Nat) (v : Nat) : List UInt8 → Nat
  | [] => v
  | c :: s =>
    match digit c with
    | none => v
    | some d => digitsValue base digit ((v * base + d) % 2 ^ 32) s

def isHex : List UInt8 → Bool
  | c :: d :: _ => c = 48 ∧ (d = 120 ∨ d = 88)
  | _ => false

def colorOf (value : List UInt8) : Nat :=
  (if isHex value then digitsValue 16 hexDigit 0 (value.drop 2)
    else digitsValue 10 decDigit 0 value) &&& 0xFFFFFF

def hiddenOf (value : List UInt8) : Bool := (trim value).head?.any (· ≠ 48)

def labelOf (value : List UInt8) : List UInt8 := (trim value).take 31

/-- The label is this text and a NUL, before whatever it was. -/
def AppEntry.setLabel (e : AppEntry) (s : List UInt8) : AppEntry :=
  { e with label := fun i => if i ≤ s.length then s.getD i 0 else e.label i }

/-- What a line does to the entry and to `*hidden`. -/
def applyLine (r : AppEntry × Bool) (line : List UInt8) : AppEntry × Bool :=
  match keyValue line with
  | none => r
  | some (key, value) =>
    if key = nameKey then (r.1.setLabel (labelOf value), r.2)
    else if key = colorKey then ({ r.1 with color := colorOf value }, r.2)
    else if key = hiddenKey then (r.1, hiddenOf value)
    else r

theorem keyValue_some {line key value : List UInt8} (h : keyValue line = some (key, value)) :
    line = key ++ 61 :: value := by
  induction line generalizing key with
  | nil => cases h
  | cons c line ih =>
    rw [keyValue] at h
    by_cases hc : c = 61
    · rw [if_pos hc, Option.some_inj, Prod.mk.injEq] at h
      obtain ⟨rfl, rfl⟩ := h
      rw [hc, List.nil_append]
    · rw [if_neg hc, Option.map_eq_some_iff] at h
      obtain ⟨⟨key', value'⟩, hrest, heq⟩ := h
      rw [Prod.mk.injEq] at heq
      obtain ⟨rfl, rfl⟩ := heq
      rw [ih hrest, List.cons_append]

/-! ## The buffer as a text -/

/-- These bytes are in the buffer from an index on. -/
def At (b : Buf) (i : Nat) : List UInt8 → Prop
  | [] => True
  | c :: s => b.byteAt i = some c ∧ At b (i + 1) s

variable {b : Buf} {i j n : Nat} {c : UInt8} {s s' line key value rest : List UInt8}
  {e : AppEntry} {hidden : Bool}

theorem at_append : At b i (s ++ s') ↔ At b i s ∧ At b (i + s.length) s' := by
  induction s generalizing i with
  | nil => simp [At]
  | cons c s ih =>
    have hlen : i + (c :: s).length = i + 1 + s.length := by
      rw [List.length_cons]
      omega
    rw [List.cons_append, At, At, ih, hlen, and_assoc]

theorem At.of_isPrefix (h : At b i s) (hpre : s' <+: s) : At b i s' := by
  obtain ⟨t, rfl⟩ := hpre
  exact (at_append.mp h).1

theorem at_bytes (b : Buf) : At b 0 (b.bytes ++ [0]) := by
  have hall : ∀ (pre s : List UInt8), b.bytes ++ [0] = pre ++ s → At b pre.length s := by
    intro pre s
    induction s generalizing pre with
    | nil => exact fun _ => trivial
    | cons c s ih =>
      intro h
      refine ⟨?_, ?_⟩
      · rw [Buf.byteAt, h, List.getElem?_append_right le_rfl, Nat.sub_self, List.getElem?_cons_zero]
      · have := ih (pre ++ [c]) (by rw [h, List.append_assoc, List.singleton_append])
        rwa [List.length_append, List.length_singleton] at this
  exact hall [] _ rfl

theorem findEnd_eq {fuel : Nat} (h : At b i (line ++ [c])) (hnul : 0 ∉ line) (hnl : 10 ∉ line)
    (hc : c = 0 ∨ c = 10) (hfuel : line.length < fuel) :
    findEnd b i fuel = some (i + line.length) := by
  induction line generalizing i fuel with
  | nil =>
    obtain ⟨fuel, rfl⟩ : ∃ k, fuel = k + 1 := ⟨fuel - 1, by omega⟩
    have hstop : ¬ (c ≠ 0 ∧ c ≠ 10) := by
      rintro ⟨h0, h10⟩
      exact hc.elim h0 h10
    rw [findEnd, h.1, Option.bind_eq_bind, Option.bind_some, if_neg hstop]
    rfl
  | cons d line ih =>
    rw [List.length_cons] at hfuel
    rw [List.mem_cons, not_or] at hnul hnl
    obtain ⟨fuel, rfl⟩ : ∃ k, fuel = k + 1 := ⟨fuel - 1, by omega⟩
    rw [findEnd, h.1, Option.bind_eq_bind, Option.bind_some,
      if_pos ⟨fun h0 => hnul.1 h0.symm, fun h10 => hnl.1 h10.symm⟩,
      ih h.2 hnul.2 hnl.2 (by omega), List.length_cons, Nat.add_assoc, Nat.add_comm 1]

theorem findEq_none (h : At b i line) (hline : keyValue line = none) :
    findEq b i line.length = some (i + line.length) := by
  induction line generalizing i with
  | nil => rfl
  | cons d line ih =>
    rw [keyValue] at hline
    by_cases hd : d = 61
    · rw [if_pos hd] at hline
      cases hline
    · rw [if_neg hd, Option.map_eq_none_iff] at hline
      rw [List.length_cons, findEq, h.1, Option.bind_eq_bind, Option.bind_some, if_pos hd,
        ih h.2 hline, Nat.add_assoc, Nat.add_comm 1]

/-- It stops at the first '='. -/
theorem findEq_some (h : At b i line) (hline : keyValue line = some (key, value)) :
    findEq b i line.length = some (i + key.length) := by
  induction line generalizing i key with
  | nil => cases hline
  | cons d line ih =>
    rw [keyValue] at hline
    rw [List.length_cons, findEq, h.1, Option.bind_eq_bind, Option.bind_some]
    by_cases hd : d = 61
    · rw [if_pos hd, Option.some_inj, Prod.mk.injEq] at hline
      rw [if_neg (not_not.mpr hd), ← hline.1]
      rfl
    · rw [if_neg hd, Option.map_eq_some_iff] at hline
      obtain ⟨⟨key', value'⟩, hrest, heq⟩ := hline
      rw [Prod.mk.injEq] at heq
      obtain ⟨rfl, rfl⟩ := heq
      rw [if_pos hd, ih h.2 hrest, List.length_cons, Nat.add_assoc, Nat.add_comm 1]

theorem trimEnd_eq (h : At b i value) : trimEnd b i value.length = some (trim value).length := by
  induction value using List.reverseRecOn with
  | nil => rfl
  | append_singleton value c ih =>
    obtain ⟨hvalue, hc, _⟩ := at_append.mp h
    rw [List.length_append, List.length_singleton, trimEnd, hc, Option.bind_eq_bind,
      Option.bind_some]
    by_cases hblank : c = 13 ∨ c = 32
    · rw [if_pos hblank, ih hvalue, trim, trim,
        List.rdropWhile_concat_pos _ _ _ (by rw [isBlank, decide_eq_true_eq]; exact hblank)]
    · rw [if_neg hblank, trim,
        List.rdropWhile_concat_neg _ _ _ (by rw [isBlank, decide_eq_true_eq]; exact hblank),
        List.length_append, List.length_singleton]

theorem neq_eq (h : At b i s) (hlen : s.length = key.length) :
    neq b i key = some (decide (s = key)) := by
  induction key generalizing i s with
  | nil =>
    obtain rfl := List.length_eq_zero_iff.mp hlen
    rfl
  | cons c key ih =>
    cases s with
    | nil => cases hlen
    | cons d s =>
      rw [neq, h.1, Option.bind_eq_bind, Option.bind_some]
      by_cases hd : d = c
      · rw [if_neg (not_not.mpr hd), ih h.2 (Nat.succ.inj hlen)]
        simp [hd]
      · rw [if_pos hd]
        simp [hd]

theorem isKey_eq (h : At b i s) : isKey b i s.length key = some (decide (s = key)) := by
  rw [isKey]
  by_cases hlen : s.length = key.length
  · rw [if_pos hlen, neq_eq h hlen]
  · have hne : s ≠ key := fun heq => hlen (congrArg _ heq)
    rw [if_neg hlen]
    simp [hne]

/-! ## Colours -/

theorem digitLoop_eq {base v fuel : Nat} {digit : UInt8 → Option Nat} (h : At b i (s ++ [c]))
    (hc : digit c = none) (hfuel : s.length < fuel) :
    digitLoop base digit b i v fuel = some (digitsValue base digit v s) := by
  induction s generalizing i v fuel with
  | nil =>
    obtain ⟨fuel, rfl⟩ : ∃ k, fuel = k + 1 := ⟨fuel - 1, by omega⟩
    rw [digitLoop, h.1, Option.bind_eq_bind, Option.bind_some, hc]
    rfl
  | cons d s ih =>
    rw [List.length_cons] at hfuel
    obtain ⟨fuel, rfl⟩ : ∃ k, fuel = k + 1 := ⟨fuel - 1, by omega⟩
    rw [digitLoop, h.1, Option.bind_eq_bind, Option.bind_some, digitsValue]
    cases hd : digit d with
    | none => rfl
    | some k => exact ih h.2 (by omega)

/-- A carriage return, like any byte that is not a digit, ends the number. -/
theorem digitsValue_append {base v : Nat} {digit : UInt8 → Option Nat} (hc : digit c = none) :
    digitsValue base digit v (s ++ [c]) = digitsValue base digit v s := by
  induction s generalizing v with
  | nil => simp [digitsValue, hc]
  | cons d s ih =>
    rw [List.cons_append, digitsValue, digitsValue]
    cases digit d with
    | none => rfl
    | some k => exact ih

/-- A byte that ends a line or the text, or that is before the end of a line. -/
def IsEnd (c : UInt8) : Prop := c = 0 ∨ c = 10 ∨ c = 13

theorem IsEnd.hexDigit (h : IsEnd c) : hexDigit c = none := by
  rcases h with rfl | rfl | rfl <;> rfl

theorem IsEnd.decDigit (h : IsEnd c) : decDigit c = none := by
  rcases h with rfl | rfl | rfl <;> rfl

theorem IsEnd.ne (h : IsEnd c) : c ≠ 48 ∧ c ≠ 120 ∧ c ≠ 88 := by
  rcases h with rfl | rfl | rfl <;> decide

theorem hexPrefix_eq (h : At b i (value ++ [c])) (hc : IsEnd c) :
    hexPrefix b i = some (isHex value) := by
  obtain ⟨h48, h120, h88⟩ := hc.ne
  rw [hexPrefix]
  cases value with
  | nil =>
    rw [h.1, Option.bind_eq_bind, Option.bind_some, if_neg h48]
    rfl
  | cons d value =>
    rw [h.1, Option.bind_eq_bind, Option.bind_some]
    by_cases hd : d = 48
    · rw [if_pos hd]
      cases value with
      | nil =>
        rw [h.2.1, Option.bind_some]
        simp [isHex, h120, h88]
      | cons d' value =>
        rw [h.2.1, Option.bind_some]
        simp [isHex, hd]
    · rw [if_neg hd]
      cases value <;> simp [isHex, hd]

theorem isHex_append (hc : IsEnd c) : isHex (value ++ [c]) = isHex value := by
  obtain ⟨h48, h120, h88⟩ := hc.ne
  match value with
  | [] => rfl
  | [d] => simp [isHex, h120, h88]
  | _ :: _ :: _ => rfl

/-- The colour is that of the value, and nothing after the value is read. -/
theorem parseColor_eq (h : At b i (value ++ [c])) (hc : IsEnd c)
    (hlen : value.length < b.rounds) : parseColor b i = some (colorOf value) := by
  rw [parseColor, hexPrefix_eq h hc, Option.bind_eq_bind, Option.bind_some, colorOf]
  by_cases hhex : isHex value = true
  · match value, hhex with
    | d :: d' :: rest, hhex =>
      rw [List.length_cons, List.length_cons] at hlen
      have hrest : At b (i + 2) (rest ++ [c]) := h.2.2
      rw [if_pos hhex, if_pos hhex, digitLoop_eq hrest hc.hexDigit (by omega)]
      rfl
  · rw [if_neg hhex, if_neg hhex, digitLoop_eq h hc.decDigit hlen]
    rfl

theorem colorOf_append (hc : IsEnd c) : colorOf (value ++ [c]) = colorOf value := by
  rw [colorOf, colorOf, isHex_append hc]
  by_cases hhex : isHex value = true
  · match value, hhex with
    | d :: d' :: rest, hhex =>
      rw [if_pos hhex, if_pos hhex]
      exact congrArg (· &&& 0xFFFFFF) (digitsValue_append hc.hexDigit)
  · rw [if_neg hhex, if_neg hhex, digitsValue_append hc.decDigit]

/-! ## Labels -/

theorem put_eq (c : UInt8) (h : i < labelSize) :
    e.put i c = some { e with label := Function.update e.label i c } := if_pos h

/-- The loop copies the bytes, and touches nothing else of the label. -/
theorem copyLabel_eq {v : Nat} (h : At b (v + j) s) (hsize : j + s.length ≤ labelSize) :
    copyLabel b v e j s.length = some { e with
      label := fun i => if j ≤ i ∧ i < j + s.length then s.getD (i - j) 0 else e.label i } := by
  induction s generalizing e j with
  | nil =>
    have hnone : ∀ i, ¬ (j ≤ i ∧ i < j + ([] : List UInt8).length) := fun i hi => by
      rw [List.length_nil] at hi
      omega
    simp only [hnone, if_false]
    rfl
  | cons c s ih =>
    rw [List.length_cons] at hsize ⊢
    rw [copyLabel, h.1, Option.bind_eq_bind, Option.bind_some, put_eq c (by omega),
      Option.bind_eq_bind, Option.bind_some, ih h.2 (by omega)]
    refine congrArg (fun label => some { e with label := label }) (funext fun i => ?_)
    rcases Nat.lt_trichotomy i j with hlt | rfl | hgt
    · rw [if_neg (by omega), if_neg (by omega)]
      exact Function.update_of_ne (by omega) _ _
    · rw [if_neg (by omega), if_pos (by omega), Nat.sub_self]
      exact Function.update_self ..
    · have hsub : i - j = i - (j + 1) + 1 := by omega
      by_cases hin : i < j + (s.length + 1)
      · rw [if_pos (by omega), if_pos (by omega), hsub]
        rfl
      · rw [if_neg (by omega), if_neg (by omega)]
        exact Function.update_of_ne (by omega) _ _

/-- A label with its NUL is what has been copied. -/
theorem setLabel_eq {v : Nat} (h : At b v s) (hsize : s.length < labelSize) :
    ((copyLabel b v e 0 s.length).bind fun e => e.put s.length 0) = some (e.setLabel s) := by
  rw [copyLabel_eq (by rwa [Nat.add_zero]) (by omega), Option.bind_some, put_eq 0 hsize]
  refine congrArg (fun label => some { e with label := label }) (funext fun i => ?_)
  rcases Nat.lt_trichotomy i s.length with hlt | rfl | hgt
  · rw [Function.update_of_ne (by omega), if_pos (by omega)]
    exact if_pos ⟨Nat.zero_le i, by omega⟩
  · rw [Function.update_self, if_pos le_rfl]
    simp
  · rw [Function.update_of_ne (by omega), if_neg (by omega)]
    exact if_neg (by omega)

/-! ## One line -/

theorem trim_isPrefix (value : List UInt8) : trim value <+: value := List.rdropWhile_prefix _ _

theorem trim_append (hc : isBlank c = true) : trim (value ++ [c]) = trim value :=
  List.rdropWhile_concat_pos _ _ _ hc

/-- The first byte of the value is not trimmed, if any is left. -/
theorem trim_head {value rest : List UInt8} {d : UInt8} (h : trim value = d :: rest) :
    ∃ t, value = d :: t := by
  obtain ⟨t, ht⟩ := trim_isPrefix value
  rw [h] at ht
  exact ⟨rest ++ t, ht.symm⟩

theorem labelLength_eq (value : List UInt8) :
    (if (trim value).length > 31 then 31 else (trim value).length) = (labelOf value).length := by
  rw [labelOf, List.length_take]
  split <;> omega

theorem labelOf_isPrefix (value : List UInt8) : labelOf value <+: value :=
  (List.take_prefix _ _).trans (trim_isPrefix value)

theorem length_labelOf (value : List UInt8) : (labelOf value).length < labelSize := by
  rw [labelOf, List.length_take, labelSize]
  omega

/-- The body of the loop does what the line says, and reads nothing after the byte that ends it. -/
theorem parseLine_eq (h : At b i (line ++ [c])) (hc : IsEnd c) (hlen : line.length < b.rounds) :
    parseLine b i (i + line.length) e hidden = some (applyLine (e, hidden) line) := by
  have hline := (at_append.mp h).1
  rw [parseLine, Nat.add_sub_cancel_left, applyLine]
  cases hkv : keyValue line with
  | none =>
    rw [findEq_none hline hkv, Option.bind_eq_bind, Option.bind_some, if_pos le_rfl]
  | some kv =>
    obtain ⟨key, value⟩ := kv
    rw [findEq_some hline hkv, Option.bind_eq_bind, Option.bind_some]
    obtain rfl := keyValue_some hkv
    have hmore : ¬ i + key.length ≥ i + (key ++ 61 :: value).length := by
      rw [List.length_append, List.length_cons]
      omega
    have hleft : i + (key ++ 61 :: value).length - (i + key.length + 1) = value.length := by
      rw [List.length_append, List.length_cons]
      omega
    obtain ⟨hkey, _, hvalue⟩ := at_append.mp hline
    have hvalueEnd : At b (i + key.length + 1) (value ++ [c]) := by
      rw [List.append_assoc, at_append] at h
      exact h.2.2
    rw [if_neg hmore, hleft, Nat.add_sub_cancel_left]
    simp only [trimEnd_eq hvalue, isKey_eq hkey, Option.bind_eq_bind, Option.bind_some,
      decide_eq_true_eq]
    by_cases hname : key = nameKey
    · rw [if_pos hname, if_pos hname]
      have hset := setLabel_eq (e := e) (hvalue.of_isPrefix (labelOf_isPrefix value))
        (length_labelOf value)
      rw [labelLength_eq]
      exact (Option.bind_assoc ..).symm.trans
        (congrArg (Option.bind · fun e => some (e, hidden)) hset)
    rw [if_neg hname, if_neg hname]
    by_cases hcolor : key = colorKey
    · rw [if_pos hcolor, if_pos hcolor, parseColor_eq hvalueEnd hc (by simp at hlen; omega)]
      rfl
    rw [if_neg hcolor, if_neg hcolor]
    by_cases hhidden : key = hiddenKey
    · rw [if_pos hhidden, if_pos hhidden, hiddenOf]
      cases htrim : trim value with
      | nil => rfl
      | cons d rest =>
        obtain ⟨_, rfl⟩ := trim_head htrim
        rw [if_pos (by simp), hvalue.1]
        simp
    rw [if_neg hhidden, if_neg hhidden]

/-! ## All lines -/

theorem parseLoop_eq {fuel : Nat} (h : At b i (rest ++ [0])) (hnul : 0 ∉ rest)
    (hlen : rest.length < b.rounds) (hfuel : rest.length < fuel) :
    parseLoop b i e hidden fuel = some ((rest.splitOn 10).foldl applyLine (e, hidden)) := by
  induction fuel generalizing i rest e hidden with
  | zero => omega
  | succ fuel ih =>
    rw [parseLoop]
    cases rest with
    | nil =>
      rw [h.1, Option.bind_eq_bind, Option.bind_some, if_pos rfl]
      rfl
    | cons d rest =>
      have hd : d ≠ 0 := fun hd => hnul (hd ▸ List.mem_cons_self)
      rw [h.1, Option.bind_eq_bind, Option.bind_some, if_neg hd]
      have hpos : 0 < (d :: rest).length := Nat.succ_pos _
      generalize d :: rest = rest at h hnul hlen hfuel hpos ⊢
      by_cases hnl : 10 ∈ rest
      · obtain ⟨line, rest', rfl, hline⟩ := List.eq_append_cons_of_mem hnl
        rw [List.mem_append, not_or] at hnul
        rw [List.length_append, List.length_cons] at hlen hfuel
        have hend : At b i (line ++ [10]) := h.of_isPrefix ⟨rest' ++ [0], by simp⟩
        have hrest : At b (i + line.length + 1) (rest' ++ [0]) := by
          rw [List.append_assoc, at_append] at h
          exact h.2.2
        rw [List.splitOn_append_cons_self_of_not_mem hline, List.foldl_cons,
          findEnd_eq hend hnul.1 hline (Or.inr rfl) (by omega), Option.bind_eq_bind,
          Option.bind_some, (at_append.mp hend).2.1, Option.bind_some,
          parseLine_eq hend (Or.inr (Or.inl rfl)) (by omega), Option.bind_eq_bind,
          Option.bind_some]
        exact ih hrest (fun hmem => hnul.2 (List.mem_cons_of_mem _ hmem)) (by omega) (by omega)
      · have hend : At b (i + rest.length) ([] ++ [0]) := (at_append.mp h).2
        rw [List.splitOn_eq_singleton hnl, findEnd_eq h hnul hnl (Or.inl rfl) (by omega),
          Option.bind_eq_bind, Option.bind_some, hend.1, Option.bind_some,
          parseLine_eq h (Or.inl rfl) (by omega), Option.bind_eq_bind, Option.bind_some]
        exact ih hend List.not_mem_nil (by rw [List.length_nil]; omega)
          (by rw [List.length_nil]; omega)

/-- The lines of the text. -/
def Buf.lines (b : Buf) : List (List UInt8) := b.bytes.splitOn 10

/-- The manifest does what its lines do one after the other. -/
theorem parseManifest_eq (b : Buf) (e : AppEntry) (hidden : Bool) :
    parseManifest b e hidden = some (b.lines.foldl applyLine (e, hidden)) :=
  parseLoop_eq (at_bytes b) b.noNul (Nat.lt_succ_self _) (Nat.lt_succ_self _)

/-! ## What the lines do -/

/-- The value of a line with this key. -/
def valueFor (key line : List UInt8) : Option (List UInt8) :=
  (keyValue line).bind fun kv => if kv.1 = key then some kv.2 else none

/-- The value of the last line with this key. -/
def lastValue (key : List UInt8) (lines : List (List UInt8)) : Option (List UInt8) :=
  (lines.filterMap (valueFor key)).getLast?

/-- The bytes before the NUL, of the `left` bytes from an index on. -/
def cstring (f : Nat → UInt8) (i : Nat) : Nat → List UInt8
  | 0 => []
  | left + 1 => if f i = 0 then [] else f i :: cstring f (i + 1) left

/-- The label as a string. -/
def AppEntry.labelText (e : AppEntry) : List UInt8 := cstring e.label 0 labelSize

/-- The label has a NUL, and therefore at most 31 characters. -/
def AppEntry.Terminated (e : AppEntry) : Prop := ∃ i < labelSize, e.label i = 0

theorem cstring_eq {f : Nat → UInt8} {left : Nat} (hf : ∀ k ≤ s.length, f (i + k) = s.getD k 0)
    (hnul : 0 ∉ s) (hleft : s.length < left) : cstring f i left = s := by
  induction s generalizing i left with
  | nil =>
    obtain ⟨left, rfl⟩ : ∃ k, left = k + 1 := ⟨left - 1, by omega⟩
    exact if_pos (hf 0 le_rfl)
  | cons c s ih =>
    rw [List.length_cons] at hleft
    rw [List.mem_cons, not_or] at hnul
    obtain ⟨left, rfl⟩ : ∃ k, left = k + 1 := ⟨left - 1, by omega⟩
    have hc : f i = c := hf 0 (Nat.zero_le _)
    have hrest : ∀ k ≤ s.length, f (i + 1 + k) = s.getD k 0 := by
      intro k hk
      have := hf (k + 1) (Nat.succ_le_succ hk)
      rwa [← Nat.add_assoc, Nat.add_right_comm] at this
    rw [cstring, hc, if_neg (Ne.symm hnul.1), ih hrest hnul.2 (by omega)]

theorem labelText_setLabel (hnul : 0 ∉ s) (hlen : s.length < labelSize) :
    (e.setLabel s).labelText = s := by
  refine cstring_eq (fun k hk => ?_) hnul hlen
  rw [Nat.zero_add]
  exact if_pos hk

theorem terminated_setLabel (hlen : s.length < labelSize) : (e.setLabel s).Terminated :=
  ⟨s.length, hlen, (if_pos le_rfl).trans (by simp)⟩

theorem valueFor_eq (hline : keyValue line = some (key, value)) :
    valueFor key line = some value := by
  rw [valueFor, hline, Option.bind_some, if_pos rfl]

theorem valueFor_ne {key' : List UInt8} (hline : keyValue line = some (key, value))
    (hne : key ≠ key') : valueFor key' line = none := by
  rw [valueFor, hline, Option.bind_some, if_neg hne]

theorem mem_of_valueFor (h : valueFor key line = some value) (hc : c ∈ value) : c ∈ line := by
  rw [valueFor, Option.bind_eq_some_iff] at h
  obtain ⟨⟨key', value'⟩, hline, hif⟩ := h
  by_cases hkey : key' = key
  · rw [if_pos hkey, Option.some_inj] at hif
    subst hif
    rw [keyValue_some hline]
    exact List.mem_append_right _ (List.mem_cons_of_mem _ hc)
  · rw [if_neg hkey] at hif
    cases hif

/-- What a line can do: it sets what its key is for. -/
theorem applyLine_cases (r : AppEntry × Bool) (line : List UInt8) :
    (∃ v, valueFor nameKey line = some v ∧ valueFor colorKey line = none ∧
      valueFor hiddenKey line = none ∧
        applyLine r line = (r.1.setLabel (labelOf v), r.2)) ∨
    (∃ v, valueFor nameKey line = none ∧ valueFor colorKey line = some v ∧
      valueFor hiddenKey line = none ∧
        applyLine r line = ({ r.1 with color := colorOf v }, r.2)) ∨
    (∃ v, valueFor nameKey line = none ∧ valueFor colorKey line = none ∧
      valueFor hiddenKey line = some v ∧ applyLine r line = (r.1, hiddenOf v)) ∨
    (valueFor nameKey line = none ∧ valueFor colorKey line = none ∧
      valueFor hiddenKey line = none ∧ applyLine r line = r) := by
  cases hkv : keyValue line with
  | none => exact Or.inr (Or.inr (Or.inr (by simp [valueFor, applyLine, hkv])))
  | some kv =>
    obtain ⟨key, value⟩ := kv
    have happly : applyLine r line = if key = nameKey then (r.1.setLabel (labelOf value), r.2)
        else if key = colorKey then ({ r.1 with color := colorOf value }, r.2)
        else if key = hiddenKey then (r.1, hiddenOf value)
        else r := by rw [applyLine, hkv]
    rw [happly]
    by_cases hname : key = nameKey
    · subst hname
      exact Or.inl ⟨value, valueFor_eq hkv, valueFor_ne hkv (by decide),
        valueFor_ne hkv (by decide), if_pos rfl⟩
    rw [if_neg hname]
    by_cases hcolor : key = colorKey
    · subst hcolor
      exact Or.inr (Or.inl ⟨value, valueFor_ne hkv (by decide), valueFor_eq hkv,
        valueFor_ne hkv (by decide), if_pos rfl⟩)
    rw [if_neg hcolor]
    by_cases hhidden : key = hiddenKey
    · subst hhidden
      exact Or.inr (Or.inr (Or.inl ⟨value, valueFor_ne hkv (by decide),
        valueFor_ne hkv (by decide), valueFor_eq hkv, if_pos rfl⟩))
    rw [if_neg hhidden]
    exact Or.inr (Or.inr (Or.inr ⟨valueFor_ne hkv hname, valueFor_ne hkv hcolor,
      valueFor_ne hkv hhidden, rfl⟩))

/-- A line with another key, or without '=', does nothing. -/
theorem applyLine_other (r : AppEntry × Bool) (line : List UInt8)
    (hname : valueFor nameKey line = none)
    (hcolor : valueFor colorKey line = none) (hhidden : valueFor hiddenKey line = none) :
    applyLine r line = r := by
  rcases applyLine_cases r line with ⟨v, h, _⟩ | ⟨v, _, h, _⟩ | ⟨v, _, _, h, _⟩ | ⟨_, _, _, h⟩
  · rw [hname] at h
    cases h
  · rw [hcolor] at h
    cases h
  · rw [hhidden] at h
    cases h
  · exact h

theorem color_applyLine (r : AppEntry × Bool) (line : List UInt8) :
    (applyLine r line).1.color = ((valueFor colorKey line).map colorOf).getD r.1.color := by
  rcases applyLine_cases r line with
    ⟨v, _, hcolor, _, h⟩ | ⟨v, _, hcolor, _, h⟩ | ⟨v, _, hcolor, _, h⟩ | ⟨_, hcolor, _, h⟩
  all_goals
    rw [h, hcolor]
    rfl

theorem hidden_applyLine (r : AppEntry × Bool) (line : List UInt8) :
    (applyLine r line).2 = ((valueFor hiddenKey line).map hiddenOf).getD r.2 := by
  rcases applyLine_cases r line with
    ⟨v, _, _, hhidden, h⟩ | ⟨v, _, _, hhidden, h⟩ | ⟨v, _, _, hhidden, h⟩ | ⟨_, _, hhidden, h⟩
  all_goals
    rw [h, hhidden]
    rfl

theorem label_applyLine (r : AppEntry × Bool) (hnul : 0 ∉ line) :
    (applyLine r line).1.labelText =
      ((valueFor nameKey line).map labelOf).getD r.1.labelText := by
  rcases applyLine_cases r line with
    ⟨v, hname, _, _, h⟩ | ⟨v, hname, _, _, h⟩ | ⟨v, hname, _, _, h⟩ | ⟨hname, _, _, h⟩
  · rw [h, hname]
    refine labelText_setLabel (fun hmem => hnul ?_) (length_labelOf v)
    exact mem_of_valueFor hname ((labelOf_isPrefix v).subset hmem)
  all_goals
    rw [h, hname]
    rfl

theorem terminated_applyLine (r : AppEntry × Bool) (line : List UInt8) (h : r.1.Terminated) :
    (applyLine r line).1.Terminated := by
  rcases applyLine_cases r line with
    ⟨v, _, _, _, heq⟩ | ⟨v, _, _, _, heq⟩ | ⟨v, _, _, _, heq⟩ | ⟨_, _, _, heq⟩
  · rw [heq]
    exact terminated_setLabel (length_labelOf v)
  all_goals
    rw [heq]
    exact h

/-! ## Carriage returns -/

theorem keyValue_append (line : List UInt8) :
    keyValue (line ++ [13]) = (keyValue line).map fun kv => (kv.1, kv.2 ++ [13]) := by
  induction line with
  | nil => rfl
  | cons c line ih =>
    rw [List.cons_append, keyValue, keyValue, ih]
    by_cases hc : c = 61
    · rw [if_pos hc, if_pos hc]
      rfl
    · rw [if_neg hc, if_neg hc, Option.map_map, Option.map_map]
      rfl

/-- A carriage return at its end changes nothing of what a line does. -/
theorem applyLine_append (r : AppEntry × Bool) (line : List UInt8) :
    applyLine r (line ++ [13]) = applyLine r line := by
  have hcr : IsEnd 13 := Or.inr (Or.inr rfl)
  rw [applyLine, applyLine, keyValue_append]
  cases keyValue line with
  | none => rfl
  | some kv =>
    have hlabel : labelOf (kv.2 ++ [13]) = labelOf kv.2 := by
      rw [labelOf, labelOf, trim_append rfl]
    have hhidden : hiddenOf (kv.2 ++ [13]) = hiddenOf kv.2 := by
      rw [hiddenOf, hiddenOf, trim_append rfl]
    rw [Option.map_some]
    simp only [hlabel, hhidden, colorOf_append hcr]

/-! ## The manifest -/

/-- What a manifest has to do with its lines. -/
structure LineWise (b : Buf) (e : AppEntry) (hidden : Bool) (r : AppEntry × Bool) : Prop where
  fold : r = b.lines.foldl applyLine (e, hidden)
  label : r.1.labelText = ((lastValue nameKey b.lines).map labelOf).getD e.labelText
  color : r.1.color = ((lastValue colorKey b.lines).map colorOf).getD e.color
  hide : r.2 = ((lastValue hiddenKey b.lines).map hiddenOf).getD hidden
  terminated : e.Terminated → r.1.Terminated
  lineEnds : ∀ b', LineEnds 10 13 b.bytes b'.bytes → parseManifest b' e hidden = some r

/-- Every manifest is parsed within its buffer and line by line: the result is that of a fold over
the lines, a line without one of the three keys does nothing, the last line with a key decides, and
it does not matter which lines end in CRLF. -/
theorem manifest_lineWise :
    (∀ b e hidden, ∃ r, parseManifest b e hidden = some r ∧ LineWise b e hidden r) ∧
      ∀ r line, valueFor nameKey line = none → valueFor colorKey line = none →
        valueFor hiddenKey line = none → applyLine r line = r := by
  refine ⟨fun b e hidden => ⟨_, parseManifest_eq b e hidden, rfl, ?_, ?_, ?_, ?_, ?_⟩,
    applyLine_other⟩
  · refine foldl_last (fun r => r.1.labelText) (valueFor nameKey) labelOf b.lines
      (fun r line hline => label_applyLine r fun hnul => ?_) (e, hidden)
    exact b.noNul (mem_of_mem_splitOn hline hnul)
  · exact foldl_last (fun r => r.1.color) (valueFor colorKey) colorOf b.lines
      (fun r line _ => color_applyLine r line) (e, hidden)
  · exact foldl_last Prod.snd (valueFor hiddenKey) hiddenOf b.lines
      (fun r line _ => hidden_applyLine r line) (e, hidden)
  · intro h
    exact List.foldlRecOn b.lines applyLine h fun r hr line _ => terminated_applyLine r line hr
  · intro b' hends
    rw [parseManifest_eq, Option.some_inj]
    exact foldl_lineEnds (by decide) applyLine_append hends (e, hidden)

end Kyuzen.Desktop
