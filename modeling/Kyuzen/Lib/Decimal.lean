import Mathlib.Data.Nat.Digits.Defs
import Mathlib.Tactic.Ring

/-!
# Decimal numerals

Runs of digits at the start of a text, and their value. A run that is followed by no further digit
is determined by the text (`run_unique`), and a text that starts with a digit starts with a run
(`exists_run`). An accumulator that multiplies by ten and adds the next digit, modulo `m`, ends
with the value of the run modulo `m` (`accumulate_eq`).
-/

namespace Kyuzen.Lib

variable {ds ds' rest rest' : List UInt8} {c : UInt8}

def isDigit (c : UInt8) : Bool := 48 ≤ c.toNat && c.toNat ≤ 57

def digitVal (c : UInt8) : Nat := c.toNat - 48

/-- The value of digits that are written with the most significant one first. -/
def decimalValue (ds : List UInt8) : Nat := Nat.ofDigits 10 (ds.map digitVal).reverse

theorem decimalValue_nil : decimalValue [] = 0 := rfl

theorem decimalValue_cons (c : UInt8) (ds : List UInt8) :
    decimalValue (c :: ds) = digitVal c * 10 ^ ds.length + decimalValue ds := by
  simp [decimalValue, Nat.ofDigits_append]
  ring

/-- What is left of the text does not continue a run. -/
def EndsRun (rest : List UInt8) : Prop := ∀ c, rest.head? = some c → isDigit c = false

/-- A number in decimal: digits, and at least one. -/
structure IsRun (ds : List UInt8) : Prop where
  nonempty : ds ≠ []
  digits : ∀ d ∈ ds, isDigit d = true

theorem endsRun_nil : EndsRun [] := fun _ h => absurd h (by simp)

theorem endsRun_cons : EndsRun (c :: rest) ↔ isDigit c = false := by
  constructor
  · intro h
    exact h c rfl
  · intro h d hd
    rw [List.head?_cons, Option.some_inj] at hd
    rw [← hd]
    exact h

theorem digits_unique (hds : ∀ d ∈ ds, isDigit d = true) (hds' : ∀ d ∈ ds', isDigit d = true)
    (hrest : EndsRun rest) (hrest' : EndsRun rest') (h : ds ++ rest = ds' ++ rest') :
    ds = ds' ∧ rest = rest' := by
  induction ds generalizing ds' with
  | nil =>
    cases ds' with
    | nil => exact ⟨rfl, h⟩
    | cons d ds' =>
      rw [List.nil_append] at h
      rw [h] at hrest
      have := hrest d rfl
      rw [hds' d (List.mem_cons_self ..)] at this
      cases this
  | cons d ds ih =>
    cases ds' with
    | nil =>
      rw [List.nil_append] at h
      rw [← h] at hrest'
      have := hrest' d rfl
      rw [hds d (List.mem_cons_self ..)] at this
      cases this
    | cons d' ds' =>
      rw [List.cons_append, List.cons_append, List.cons.injEq] at h
      obtain ⟨rfl, h⟩ := h
      obtain ⟨rfl, hr⟩ := ih (fun e he => hds e (List.mem_cons_of_mem _ he))
        (fun e he => hds' e (List.mem_cons_of_mem _ he)) h
      exact ⟨rfl, hr⟩

/-- The number at the start of a text is determined by the text. -/
theorem run_unique (hds : IsRun ds) (hds' : IsRun ds') (hrest : EndsRun rest)
    (hrest' : EndsRun rest') (h : ds ++ rest = ds' ++ rest') : ds = ds' ∧ rest = rest' :=
  digits_unique hds.digits hds'.digits hrest hrest' h

/-- The loop over the digits of a number: the accumulator, and the text that is left. -/
def accumulate (m : Nat) (v : Nat) : List UInt8 → Nat × List UInt8
  | [] => (v, [])
  | c :: rest =>
    if isDigit c then accumulate m ((v * 10 + digitVal c) % m) rest else (v, c :: rest)

theorem accumulate_mod {m v : Nat} (hv : v % m = v) (hds : ∀ d ∈ ds, isDigit d = true)
    (hrest : EndsRun rest) :
    accumulate m v (ds ++ rest) = ((v * 10 ^ ds.length + decimalValue ds) % m, rest) := by
  induction ds generalizing v with
  | nil =>
    rw [List.nil_append, List.length_nil, pow_zero, mul_one, decimalValue_nil, add_zero, hv]
    cases rest with
    | nil => rfl
    | cons c rest => rw [accumulate, endsRun_cons.mp hrest, if_neg Bool.false_ne_true]
  | cons d ds ih =>
    rw [List.cons_append, accumulate, if_pos (hds d (List.mem_cons_self ..)),
      ih (Nat.mod_mod _ _) fun e he => hds e (List.mem_cons_of_mem _ he)]
    congr 1
    calc ((v * 10 + digitVal d) % m * 10 ^ ds.length + decimalValue ds) % m
        = ((v * 10 + digitVal d) * 10 ^ ds.length + decimalValue ds) % m := by
          rw [Nat.add_mod, Nat.mod_mul_mod, ← Nat.add_mod]
      _ = (v * 10 ^ (d :: ds).length + decimalValue (d :: ds)) % m := by
          rw [decimalValue_cons, List.length_cons]
          ring_nf

/-- From zero on, the accumulator ends with the value of the number modulo `m`. -/
theorem accumulate_eq {m : Nat} (hds : IsRun ds) (hrest : EndsRun rest) :
    accumulate m 0 (ds ++ rest) = (decimalValue ds % m, rest) := by
  rw [accumulate_mod (Nat.zero_mod m) hds.digits hrest, zero_mul, zero_add]

/-- Every text is some digits and a rest that does not continue them. -/
theorem exists_digits (p : List UInt8) :
    ∃ ds rest, p = ds ++ rest ∧ (∀ d ∈ ds, isDigit d = true) ∧ EndsRun rest := by
  induction p with
  | nil => exact ⟨[], [], rfl, by simp, endsRun_nil⟩
  | cons c p ih =>
    by_cases hc : isDigit c = true
    · obtain ⟨ds, rest, rfl, hds, hrest⟩ := ih
      refine ⟨c :: ds, rest, rfl, ?_, hrest⟩
      intro d hd
      rcases List.mem_cons.mp hd with rfl | hd
      · exact hc
      · exact hds d hd
    · exact ⟨[], c :: p, rfl, by simp, endsRun_cons.mpr (Bool.eq_false_iff.mpr hc)⟩

/-- A text that starts with a digit starts with a number. -/
theorem exists_run (p : List UInt8) (hc : isDigit c = true) :
    ∃ ds rest, c :: p = ds ++ rest ∧ IsRun ds ∧ EndsRun rest := by
  obtain ⟨ds, rest, hp, hds, hrest⟩ := exists_digits (c :: p)
  refine ⟨ds, rest, hp, ⟨?_, hds⟩, hrest⟩
  intro hnil
  rw [hnil, List.nil_append] at hp
  rw [← hp, endsRun_cons, hc] at hrest
  cases hrest

end Kyuzen.Lib
