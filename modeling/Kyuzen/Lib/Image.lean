import Kyuzen.Lib.Virtual

/-!
# Memory images

What is known about a memory that a program sees through a translation. At an address that is not
translated an image has `none`; elsewhere it has the byte that stands there, or `some none` where
nobody has written since the place was handed out.

`Shows` relates an image to a memory, given the memory `stale` from which the places were taken.
When no two addresses share a place, the loops of `memset` and `memcpy` do to the memory what
`write` does to the image (`Shows.write`), and meet a fault exactly when it fails.
-/

namespace Kyuzen.Lib

open Memory

abbrev Image := Nat → Option (Option UInt8)

namespace Image

def empty : Image := fun _ => none

/-- The addresses in `new` get places of their own; what stands there is `c`. -/
def map (im : Image) (new : Nat → Prop) [DecidablePred new] (c : Option UInt8) : Image :=
  fun x => if new x then some c else im x

theorem map_apply (im : Image) (new : Nat → Prop) [DecidablePred new] (c : Option UInt8)
    (x : Nat) : im.map new c x = if new x then some c else im x := rfl

/-- A write to `[va, va + n)`; it fails where nothing is mapped. -/
def write (im : Image) (data : Nat → UInt8) (va n : Nat) : Option Image :=
  if ∀ i < n, (im (va + i)).isSome then
    some fun x => if va ≤ x ∧ x < va + n then some (some (data (x - va))) else im x
  else none

variable {im im' : Image} {data : Nat → UInt8} {va n : Nat}

theorem write_eq_some : im.write data va n = some im' ↔
    (∀ i < n, (im (va + i)).isSome) ∧
      im' = fun x => if va ≤ x ∧ x < va + n then some (some (data (x - va))) else im x := by
  unfold write
  constructor
  · intro h
    split_ifs at h with hmapped
    cases h
    exact ⟨hmapped, rfl⟩
  · rintro ⟨hmapped, rfl⟩
    rw [if_pos hmapped]

theorem write_isSome (h : im.write data va n = some im') (x : Nat) :
    (im' x).isSome = (im x).isSome := by
  obtain ⟨hmapped, rfl⟩ := write_eq_some.mp h
  dsimp only
  split_ifs with hin
  · obtain ⟨i, rfl⟩ := Nat.exists_eq_add_of_le hin.1
    rw [hmapped i (by omega), Option.isSome_some]
  · rfl

/-! ## Memories -/

structure Shows (tr : Virtual.Translation) (stale m : Mem) (zone : Nat → Prop) (im : Image) :
    Prop where
  mapped : ∀ x, zone x → (tr x).isSome = (im x).isSome
  byte : ∀ x a c, zone x → tr x = some a → im x = some c → m a = c.getD (stale a)

variable {tr : Virtual.Translation} {stale m : Mem} {zone : Nat → Prop}

/-- What a program reads. -/
theorem Shows.read (h : Shows tr stale m zone im) {x : Nat} (hx : zone x) {b : UInt8}
    (hb : im x = some (some b)) : Virtual.read tr m x = some b := by
  have hmapped := h.mapped x hx
  rw [hb, Option.isSome_some] at hmapped
  obtain ⟨a, ha⟩ := Option.isSome_iff_exists.mp hmapped
  rw [Virtual.read, ha, Option.map_some, h.byte x a _ hx ha hb, Option.getD_some]

theorem Shows.unmapped (h : Shows tr stale m zone im) {x : Nat} (hx : zone x)
    (hnone : im x = none) : tr x = none := by
  have hmapped := h.mapped x hx
  rw [hnone] at hmapped
  exact Option.not_isSome_iff_eq_none.mp (by rw [hmapped]; exact Bool.false_ne_true)

theorem Shows.exists_write (h : Shows tr stale m zone im) (data : Nat → UInt8)
    (hzone : ∀ i < n, zone (va + i)) :
    (∃ m', Virtual.write tr data va n m = some m') ↔ ∃ im', im.write data va n = some im' := by
  rw [Virtual.write_exists_iff]
  constructor
  · intro hall
    refine ⟨_, write_eq_some.mpr ⟨?_, rfl⟩⟩
    intro i hi
    obtain ⟨a, ha⟩ := hall i hi
    rw [← h.mapped _ (hzone i hi), ha, Option.isSome_some]
  · rintro ⟨im', him⟩ i hi
    apply Option.isSome_iff_exists.mp
    rw [h.mapped _ (hzone i hi)]
    exact (write_eq_some.mp him).1 i hi

/-- A write to the memory is one to the image. -/
theorem Shows.write {m' : Mem} (h : Shows tr stale m zone im) (hzone : ∀ i < n, zone (va + i))
    (hinj : ∀ x y a, zone x → zone y → tr x = some a → tr y = some a → x = y)
    (hw : Virtual.write tr data va n m = some m') (him : im.write data va n = some im') :
    Shows tr stale m' zone im' := by
  refine ⟨fun x hx => (h.mapped x hx).trans (write_isSome him x).symm, ?_⟩
  intro x a c hx ha hc
  have hread := Virtual.read_write hw (x := x)
    fun i hi b hb hb' => hinj x (va + i) b hx (hzone i hi) hb' hb
  rw [Virtual.read, Virtual.read, ha, Option.map_some, Option.map_some] at hread
  obtain ⟨-, rfl⟩ := write_eq_some.mp him
  dsimp only at hc
  by_cases hin : va ≤ x ∧ x < va + n
  · rw [if_pos hin] at hread hc
    cases hc
    exact Option.some.inj hread
  · rw [if_neg hin] at hread hc
    rw [Option.some.inj hread]
    exact h.byte x a c hx ha hc

end Image

end Kyuzen.Lib
