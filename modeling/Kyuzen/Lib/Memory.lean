import Mathlib

/-!
# Byte memory with little-endian words

A memory is a byte for every address. `load m a n` reads the `n`-byte little-endian number
at `a`, `store m a n v` writes one (reduced modulo `256 ^ n`), `fill` sets a range and
`copy` is the forward byte loop of `memcpy`. A proof about a structure in memory needs four
facts: a load sees the store it covers (`load_store`), it ignores a store elsewhere
(`load_store_of_disjoint`), it depends only on its own bytes (`load_congr`), and a store or
copy changes nothing outside its range.
-/

namespace Kyuzen.Lib.Memory

abbrev Mem := Nat → UInt8

def load (m : Mem) (a : Nat) : Nat → Nat
  | 0 => 0
  | n + 1 => (m a).toNat + 256 * load m (a + 1) n

def store (m : Mem) (a n v : Nat) : Mem :=
  fun x => if a ≤ x ∧ x < a + n then UInt8.ofNat (v / 256 ^ (x - a)) else m x

def fill (m : Mem) (a n : Nat) (f : Nat → UInt8) : Mem :=
  fun x => if a ≤ x ∧ x < a + n then f x else m x

/-- `for (i = 0; i < n; i++) dst[i] = src[i]`. -/
def copy (m : Mem) (dst src : Nat) : Nat → Mem
  | 0 => m
  | n + 1 => Function.update (copy m dst src n) (dst + n) (copy m dst src n (src + n))

/-! ## Loads -/

theorem load_congr {m m' : Mem} {a n : Nat} (h : ∀ x, a ≤ x → x < a + n → m x = m' x) :
    load m a n = load m' a n := by
  induction n generalizing a with
  | zero => rfl
  | succ n ih =>
    rw [load, load, h a (le_refl a) (by omega), ih fun x h1 h2 => h x (by omega) (by omega)]

theorem load_lt (m : Mem) (a n : Nat) : load m a n < 256 ^ n := by
  induction n generalizing a with
  | zero => simp [load]
  | succ n ih =>
    have hb := (m a).toNat_lt
    have hr := ih (a + 1)
    rw [load, pow_succ]
    omega

/-- A load is the number whose base-256 digits stand in memory. -/
theorem load_eq_of_digits {m : Mem} {a n v : Nat}
    (h : ∀ i, i < n → (m (a + i)).toNat = v / 256 ^ i % 256) : load m a n = v % 256 ^ n := by
  induction n generalizing a v with
  | zero => simp [load, Nat.mod_one]
  | succ n ih =>
    have h0 : (m a).toNat = v % 256 := by simpa using h 0 (by omega)
    have hrest : load m (a + 1) n = v / 256 % 256 ^ n := by
      apply ih
      intro i hi
      have := h (i + 1) (by omega)
      rw [pow_succ, mul_comm, ← Nat.div_div_eq_div_mul] at this
      rwa [show a + 1 + i = a + (i + 1) by omega]
    rw [load, h0, hrest, pow_succ, mul_comm (256 ^ n), Nat.mod_mul]

/-! ## Stores -/

theorem store_outside {m : Mem} {a n v x : Nat} (h : x < a ∨ a + n ≤ x) :
    store m a n v x = m x := by
  unfold store
  rw [if_neg (by omega)]

theorem load_store (m : Mem) (a n v : Nat) : load (store m a n v) a n = v % 256 ^ n := by
  apply load_eq_of_digits
  intro i hi
  have hin : a ≤ a + i ∧ a + i < a + n := by omega
  simp [store, hin]

theorem load_store_of_disjoint {m : Mem} {a n v b k : Nat} (h : b + k ≤ a ∨ a + n ≤ b) :
    load (store m a n v) b k = load m b k :=
  load_congr fun x h1 h2 => store_outside (by omega)

/-! ## Ranges -/

theorem fill_outside {m : Mem} {a n x : Nat} {f : Nat → UInt8} (h : x < a ∨ a + n ≤ x) :
    fill m a n f x = m x := by
  unfold fill
  rw [if_neg (by omega)]

/-- One more byte is set. -/
theorem fill_succ (m : Mem) (a n : Nat) (f : Nat → UInt8) :
    Function.update (fill m a n f) (a + n) (f (a + n)) = fill m a (n + 1) f := by
  ext x
  by_cases hx : x = a + n
  · rw [hx, Function.update_self, fill, if_pos (by omega)]
  · rw [Function.update_of_ne hx]
    unfold fill
    by_cases hin : a ≤ x ∧ x < a + n
    · rw [if_pos hin, if_pos (by omega)]
    · rw [if_neg hin, if_neg (by omega)]

@[simp] theorem fill_empty (m : Mem) (a : Nat) (f : Nat → UInt8) : fill m a 0 f = m := by
  ext x
  rw [fill, if_neg (by omega)]

theorem copy_outside {m : Mem} {dst src n x : Nat} (h : x < dst ∨ dst + n ≤ x) :
    copy m dst src n x = m x := by
  induction n with
  | zero => rfl
  | succ n ih =>
    rw [copy, Function.update_of_ne (by omega), ih (by omega)]

/-- A byte that the copy does not overwrite itself arrives unchanged. -/
theorem copy_inside {m : Mem} {dst src n i : Nat} (hsrc : src + i < dst ∨ dst + n ≤ src + i)
    (hi : i < n) : copy m dst src n (dst + i) = m (src + i) := by
  induction n with
  | zero => omega
  | succ n ih =>
    rw [copy]
    by_cases hlast : i = n
    · subst hlast
      rw [Function.update_self]
      exact copy_outside (by omega)
    · rw [Function.update_of_ne (by omega)]
      exact ih (by omega) (by omega)

end Kyuzen.Lib.Memory
