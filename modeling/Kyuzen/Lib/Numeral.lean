import Mathlib.Data.Nat.Digits.Lemmas
import Kyuzen.Lib.Decimal

/-!
# Printed numerals

What it is for a text to be the numeral of a number (`IsNumeral`), the digits of a number as text
(`digitsOf`), and the numeral that they make (`numeral`). Only one text is the numeral of a number
(`isNumeral_iff`).
-/

namespace Kyuzen.Lib

variable {num k d : Nat} {s : List UInt8} {c : UInt8}

/-- A number in decimal without leading zeros. -/
structure IsNumeral (s : List UInt8) (num : Nat) : Prop where
  run : IsRun s
  value : decimalValue s = num
  leading : s.head? = some 48 → s = [48]

def digitChar (d : Nat) : UInt8 := UInt8.ofNat (d + 48)

/-- The most significant digit first, and no digit of zero. -/
def digitsOf (num : Nat) : List UInt8 := ((Nat.digits 10 num).map digitChar).reverse

def numeral (num : Nat) : List UInt8 := if num = 0 then [48] else digitsOf num

/-! ## Digits -/

theorem digitChar_toNat (h : d < 10) : (digitChar d).toNat = d + 48 := by
  rw [digitChar, UInt8.toNat_ofNat']
  exact Nat.mod_eq_of_lt (by omega)

theorem isDigit_digitChar (h : d < 10) : isDigit (digitChar d) = true := by
  rw [isDigit, digitChar_toNat h, Bool.and_eq_true, decide_eq_true_eq, decide_eq_true_eq]
  omega

theorem digitVal_digitChar (h : d < 10) : digitVal (digitChar d) = d := by
  rw [digitVal, digitChar_toNat h, Nat.add_sub_cancel]

theorem digitChar_digitVal (h : isDigit c = true) : digitChar (digitVal c) = c := by
  rw [isDigit, Bool.and_eq_true, decide_eq_true_eq, decide_eq_true_eq] at h
  apply UInt8.toNat_inj.mp
  have hval : digitVal c < 10 := by
    rw [digitVal]
    omega
  rw [digitChar_toNat hval, digitVal]
  omega

theorem digitVal_lt (h : isDigit c = true) : digitVal c < 10 := by
  rw [isDigit, Bool.and_eq_true, decide_eq_true_eq, decide_eq_true_eq] at h
  rw [digitVal]
  omega

theorem ne_zero_of_isDigit (h : isDigit c = true) : c ≠ 0 := by
  rintro rfl
  cases h

/-! ## The digits of a number -/

theorem digitsOf_zero : digitsOf 0 = [] := by
  rw [digitsOf, Nat.digits_zero]
  rfl

/-- The last digit comes off the end. -/
theorem digitsOf_pos (h : 0 < num) :
    digitsOf num = digitsOf (num / 10) ++ [digitChar (num % 10)] := by
  rw [digitsOf, Nat.digits_def' (by decide) h, List.map_cons, List.reverse_cons, digitsOf]

theorem digitsOf_length_le : (digitsOf num).length ≤ k ↔ num < 10 ^ k := by
  rw [digitsOf, List.length_reverse, List.length_map]
  exact Nat.digits_length_le_iff (by decide) num

theorem isDigit_of_mem_digitsOf (hc : c ∈ digitsOf num) : isDigit c = true := by
  rw [digitsOf, List.mem_reverse, List.mem_map] at hc
  obtain ⟨d, hd, rfl⟩ := hc
  exact isDigit_digitChar (Nat.digits_lt_base (by decide) hd)

theorem digitVal_digits :
    ((Nat.digits 10 num).map digitChar).map digitVal = Nat.digits 10 num := by
  rw [List.map_map]
  calc (Nat.digits 10 num).map (digitVal ∘ digitChar)
      = (Nat.digits 10 num).map id :=
        List.map_congr_left fun d hd => digitVal_digitChar (Nat.digits_lt_base (by decide) hd)
    _ = Nat.digits 10 num := List.map_id _

theorem digitChar_digits (h : ∀ c ∈ s, isDigit c = true) :
    (s.map digitVal).map digitChar = s := by
  rw [List.map_map]
  calc s.map (digitChar ∘ digitVal)
      = s.map id := List.map_congr_left fun c hc => digitChar_digitVal (h c hc)
    _ = s := List.map_id _

theorem decimalValue_digitsOf : decimalValue (digitsOf num) = num := by
  rw [decimalValue, digitsOf, List.map_reverse, List.reverse_reverse, digitVal_digits,
    Nat.ofDigits_digits]

/-- The first digit is the one of the highest power. -/
theorem head_digitsOf (h : num ≠ 0) : (digitsOf num).head? ≠ some 48 := by
  have hne : Nat.digits 10 num ≠ [] := Nat.digits_ne_nil_iff_ne_zero.mpr h
  have hlast := Nat.getLast_digit_ne_zero 10 h
  have hlt := Nat.digits_lt_base (by decide) (List.getLast_mem hne)
  rw [digitsOf, List.head?_reverse, List.getLast?_map, List.getLast?_eq_some_getLast hne]
  intro hhead
  apply hlast
  rw [Option.map_some, Option.some_inj] at hhead
  rw [← digitVal_digitChar hlt, hhead]
  rfl

/-! ## The numeral -/

theorem isNumeral_zero : IsNumeral [48] 0 where
  run := ⟨by simp, by simp [isDigit]⟩
  value := rfl
  leading _ := rfl

theorem isNumeral_digitsOf (h : num ≠ 0) : IsNumeral (digitsOf num) num where
  run := by
    refine ⟨?_, fun _ => isDigit_of_mem_digitsOf⟩
    intro hnil
    apply h
    rw [← @decimalValue_digitsOf num, hnil, decimalValue_nil]
  value := decimalValue_digitsOf
  leading hhead := absurd hhead (head_digitsOf h)

/-- A text that does not start with a zero is what `digitsOf` makes of its value. -/
theorem IsNumeral.eq_digitsOf (h : IsNumeral s num) (hhead : s.head? ≠ some 48) :
    s = digitsOf num := by
  have hdigits : Nat.digits 10 num = (s.map digitVal).reverse := by
    rw [← h.value]
    apply Nat.digits_ofDigits 10 (by decide)
    · intro d hd
      rw [List.mem_reverse, List.mem_map] at hd
      obtain ⟨c, hc, rfl⟩ := hd
      exact digitVal_lt (h.run.digits c hc)
    · intro hne hlast
      apply hhead
      cases s with
      | nil => cases h.run.nonempty rfl
      | cons c s =>
        rw [List.getLast_reverse, List.head_map, List.head_cons] at hlast
        rw [List.head?_cons, ← digitChar_digitVal (h.run.digits c (List.mem_cons_self ..)), hlast]
        rfl
  rw [digitsOf, hdigits, List.map_reverse, List.reverse_reverse, digitChar_digits h.run.digits]

/-- A number has one numeral. -/
theorem isNumeral_iff : IsNumeral s num ↔ s = numeral num := by
  constructor
  · intro h
    by_cases hhead : s.head? = some 48
    · obtain rfl := h.leading hhead
      rw [← h.value]
      rfl
    · have hs := h.eq_digitsOf hhead
      have hnum : num ≠ 0 := by
        rintro rfl
        exact h.run.nonempty (hs.trans digitsOf_zero)
      rw [numeral, if_neg hnum]
      exact hs
  · rintro rfl
    rw [numeral]
    split
    · next h => exact h ▸ isNumeral_zero
    · next h => exact isNumeral_digitsOf h

end Kyuzen.Lib
