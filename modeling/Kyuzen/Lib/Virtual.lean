import Kyuzen.Lib.Memory

/-!
# Memory behind a translation

A program sees a memory through a translation of its addresses, which is defined only for some of
them: an access elsewhere is a fault. `read` reads a byte, `write` and `copy` are the forward loops
of `memset` and `memcpy`, and give nothing when they meet a fault.

Two addresses may have the same translation, so a write can be seen elsewhere. What a program sees
after a `write` is simple for the addresses that share no place with the range (`Apart`):
`read_write` says that the range holds what was written, and the rest what it held before.
-/

namespace Kyuzen.Lib.Virtual

open Memory

abbrev Translation := Nat → Option Nat

def read (tr : Translation) (m : Mem) (va : Nat) : Option UInt8 := (tr va).map m

/-- `for (i = 0; i < n; i++) va[i] = data(i)`. -/
def write (tr : Translation) (data : Nat → UInt8) (va : Nat) : Nat → Mem → Option Mem
  | 0, m => some m
  | n + 1, m => do
    let m ← write tr data va n m
    let a ← tr (va + n)
    return Function.update m a (data n)

/-- `for (i = 0; i < n; i++) dst[i] = src[i]`. -/
def copy (tr : Translation) (dst src : Nat) : Nat → Mem → Option Mem
  | 0, m => some m
  | n + 1, m => do
    let m ← copy tr dst src n m
    let a ← tr (src + n)
    let b ← tr (dst + n)
    return Function.update m b (m a)

variable {tr : Translation} {data : Nat → UInt8} {va n : Nat} {m m' : Mem}

theorem write_succ_eq_some : write tr data va (n + 1) m = some m' ↔
    ∃ m₁ a, write tr data va n m = some m₁ ∧ tr (va + n) = some a ∧
      m' = Function.update m₁ a (data n) := by
  rw [write]
  constructor
  · intro h
    obtain ⟨m₁, hm₁, h⟩ := Option.bind_eq_some_iff.mp h
    obtain ⟨a, ha, h⟩ := Option.bind_eq_some_iff.mp h
    cases h
    exact ⟨m₁, a, hm₁, ha, rfl⟩
  · rintro ⟨m₁, a, hm₁, ha, rfl⟩
    rw [hm₁, ha]
    rfl

/-- A write ends unless a byte of its range is not translated. -/
theorem write_exists_iff : (∃ m', write tr data va n m = some m') ↔
    ∀ i < n, ∃ a, tr (va + i) = some a := by
  induction n with
  | zero => exact ⟨fun _ i hi => absurd hi (Nat.not_lt_zero i), fun _ => ⟨m, rfl⟩⟩
  | succ n ih =>
    constructor
    · rintro ⟨m', h⟩ i hi
      obtain ⟨m₁, a, hm₁, ha, -⟩ := write_succ_eq_some.mp h
      rcases Nat.lt_succ_iff_lt_or_eq.mp hi with hi | rfl
      · exact ih.mp ⟨m₁, hm₁⟩ i hi
      · exact ⟨a, ha⟩
    · intro h
      obtain ⟨m₁, hm₁⟩ := ih.mpr fun i hi => h i (Nat.lt_succ_of_lt hi)
      obtain ⟨a, ha⟩ := h n (Nat.lt_succ_self n)
      exact ⟨_, write_succ_eq_some.mpr ⟨m₁, a, hm₁, ha, rfl⟩⟩

/-- A place that no byte of the range is translated to keeps what it holds. -/
theorem write_frame (h : write tr data va n m = some m') {a : Nat}
    (ha : ∀ i < n, tr (va + i) ≠ some a) : m' a = m a := by
  induction n generalizing m' with
  | zero =>
    cases h
    rfl
  | succ n ih =>
    obtain ⟨m₁, b, hm₁, hb, rfl⟩ := write_succ_eq_some.mp h
    have hne : a ≠ b := by
      rintro rfl
      exact ha n (Nat.lt_succ_self n) hb
    rw [Function.update_of_ne hne]
    exact ih hm₁ fun i hi => ha i (Nat.lt_succ_of_lt hi)

/-- The range `[va, va + n)` has no place in common with `x`, but for `x` itself. -/
def Apart (tr : Translation) (va n x : Nat) : Prop :=
  ∀ i < n, ∀ a, tr (va + i) = some a → tr x = some a → x = va + i

/-- What is seen after a write. -/
theorem read_write (h : write tr data va n m = some m') {x : Nat} (hx : Apart tr va n x) :
    read tr m' x = if va ≤ x ∧ x < va + n then some (data (x - va)) else read tr m x := by
  induction n generalizing m' with
  | zero =>
    cases h
    rw [if_neg (by omega)]
  | succ n ih =>
    obtain ⟨m₁, b, hm₁, hb, rfl⟩ := write_succ_eq_some.mp h
    have hih := ih hm₁ fun i hi => hx i (Nat.lt_succ_of_lt hi)
    by_cases hlast : x = va + n
    · subst hlast
      rw [if_pos (by omega), read, hb, Option.map_some, Function.update_self,
        Nat.add_sub_cancel_left]
    · have hkeep : read tr (Function.update m₁ b (data n)) x = read tr m₁ x := by
        unfold read
        cases htr : tr x with
        | none => rfl
        | some a =>
          rw [Option.map_some, Option.map_some, Function.update_of_ne]
          rintro rfl
          exact hlast (hx n (Nat.lt_succ_self n) _ hb htr)
      rw [hkeep, hih]
      by_cases hin : va ≤ x ∧ x < va + n
      · rw [if_pos hin, if_pos (by omega)]
      · rw [if_neg hin, if_neg (by omega)]

/-! ## Copies -/

/-- What a program reads at `src`, byte by byte. -/
def bytesAt (tr : Translation) (m : Mem) (src : Nat) : Nat → UInt8 := fun i =>
  (read tr m (src + i)).getD 0

/-- A copy between ranges that share no place is a write of the bytes at its source. -/
theorem copy_eq_write {dst src : Nat} (hsrc : ∀ i < n, ∃ a, tr (src + i) = some a)
    (hapart : ∀ i < n, ∀ j < n, ∀ a, tr (src + i) = some a → tr (dst + j) ≠ some a) :
    copy tr dst src n m = write tr (bytesAt tr m src) dst n m := by
  induction n with
  | zero => rfl
  | succ n ih =>
    have hih := ih (fun i hi => hsrc i (Nat.lt_succ_of_lt hi)) fun i hi j hj =>
      hapart i (Nat.lt_succ_of_lt hi) j (Nat.lt_succ_of_lt hj)
    obtain ⟨a, ha⟩ := hsrc n (Nat.lt_succ_self n)
    rw [copy, write, hih]
    cases hw : write tr (bytesAt tr m src) dst n m with
    | none => rfl
    | some m₁ =>
      have hkeep : m₁ a = m a := write_frame hw fun j hj =>
        hapart n (Nat.lt_succ_self n) j (Nat.lt_succ_of_lt hj) a ha
      have hbyte : bytesAt tr m src n = m a := by
        unfold bytesAt read
        rw [ha]
        rfl
      rw [ha, hbyte, ← hkeep]
      rfl

/-- A copy between ranges that are mapped and share no place: what is seen afterwards. -/
theorem exists_copy {dst src : Nat} (m : Mem) (hsrc : ∀ i < n, ∃ a, tr (src + i) = some a)
    (hdst : ∀ i < n, ∃ a, tr (dst + i) = some a)
    (hapart : ∀ i < n, ∀ j < n, ∀ a, tr (src + i) = some a → tr (dst + j) ≠ some a) :
    ∃ m', copy tr dst src n m = some m' ∧ ∀ x, Apart tr dst n x → read tr m' x =
      if dst ≤ x ∧ x < dst + n then read tr m (src + (x - dst)) else read tr m x := by
  obtain ⟨m', hm'⟩ := write_exists_iff.mpr hdst
  refine ⟨m', (copy_eq_write hsrc hapart).trans hm', fun x hx => ?_⟩
  rw [read_write hm' hx]
  by_cases hin : dst ≤ x ∧ x < dst + n
  · obtain ⟨a, ha⟩ := hsrc (x - dst) (by omega)
    rw [if_pos hin, if_pos hin, bytesAt, read, ha]
    rfl
  · rw [if_neg hin, if_neg hin]

end Kyuzen.Lib.Virtual
