import Kyuzen.Kfs.AnyDisk

/-!
# Reading a file on any disk

The copy loop of `kfs_read_to_buffer` is bounded by the size in the directory entry, whatever the
chain of the file is: it ends, and writes each offset below the size once, in order
(`readChunks_returns`, `readChunks_writes`). The lookup before it has no such bound. The call
returns, and stays in its buffer, if and only if the lookup comes to an end
(`kfs_read_to_buffer_bounded`); in a directory whose chain is a circle it does not
(`circular_read`).
-/

namespace Kyuzen.Kfs.Touched

open Lib.Memory Lib.Chain

variable {s : State} {path : CStr} {walk : Nat}

/-! ## The copy loop -/

/-- Every round copies 512 bytes or the rest, whatever the chain is. -/
theorem readChunks_returns (s : State) : ∀ {fuel remaining : Nat} (curr offset : Nat),
    remaining / 512 + 2 ≤ fuel → ∃ r, readChunks s fuel curr offset remaining = some r := by
  intro fuel
  induction fuel with
  | zero => exact fun {remaining} curr offset h => absurd h (by omega)
  | succ fuel ih =>
    intro remaining curr offset h
    rw [readChunks]
    by_cases hstop : curr = fatEof ∨ curr = fatFree ∨ remaining = 0
    · rw [if_pos hstop]
      exact ⟨_, rfl⟩
    · rw [if_neg hstop]
      dsimp only
      by_cases hlast : remaining ≤ 512
      · -- nothing remains for the next round
        have hchunk : (if remaining > 512 then 512 else remaining) = remaining := by
          rw [if_neg (by omega)]
        obtain ⟨fuel, rfl⟩ := Nat.exists_eq_succ_of_ne_zero (show fuel ≠ 0 by omega)
        rw [hchunk, Nat.sub_self, readChunks, if_pos (Or.inr (Or.inr rfl))]
        exact ⟨_, rfl⟩
      · rw [if_pos (by omega)]
        obtain ⟨r, hr⟩ := ih (s.fatTable curr) (offset + 512)
          (show (remaining - 512) / 512 + 2 ≤ fuel by omega)
        rw [hr]
        exact ⟨_, rfl⟩

/-- Each offset is written at most once, in increasing order, and inside the range. -/
theorem readChunks_writes : ∀ {fuel curr offset remaining : Nat} {reads writes : List Nat},
    readChunks s fuel curr offset remaining = some (reads, writes) →
      writes.Pairwise (· < ·) ∧ ∀ x ∈ writes, offset ≤ x ∧ x < offset + remaining := by
  intro fuel
  induction fuel with
  | zero =>
    intro curr offset remaining reads writes h
    cases h
  | succ fuel ih =>
    intro curr offset remaining reads writes h
    rw [readChunks] at h
    by_cases hstop : curr = fatEof ∨ curr = fatFree ∨ remaining = 0
    · rw [if_pos hstop] at h
      obtain ⟨-, rfl⟩ := Prod.mk.inj (Option.some.inj h)
      exact ⟨List.Pairwise.nil, fun x hx => absurd hx List.not_mem_nil⟩
    · rw [if_neg hstop] at h
      obtain ⟨⟨reads', writes'⟩, hrec, heq⟩ := Option.map_eq_some_iff.mp h
      obtain ⟨-, rfl⟩ := Prod.mk.inj heq
      obtain ⟨hsorted, hrange⟩ := ih hrec
      have hchunk : (if remaining > 512 then 512 else remaining) ≤ remaining := by
        split_ifs <;> omega
      generalize (if remaining > 512 then 512 else remaining) = chunk at *
      constructor
      · refine List.pairwise_append.mpr ⟨List.pairwise_lt_range', hsorted, ?_⟩
        intro x hx y hy
        have hx' := List.mem_range'_1.mp hx
        have hy' := hrange y hy
        omega
      · intro x hx
        rcases List.mem_append.mp hx with hx | hx
        · have hx' := List.mem_range'_1.mp hx
          omega
        · have hx' := hrange x hx
          omega

/-- The loop of the model writes nowhere else. -/
theorem readChunks_frame : ∀ {fuel fuel' curr offset remaining : Nat} {reads writes : List Nat}
    {buffer buffer' : Mem}, readChunks s fuel curr offset remaining = some (reads, writes) →
    Kfs.readChunks s fuel' buffer curr offset remaining = some buffer' →
    ∀ x, x ∉ writes → buffer' x = buffer x := by
  intro fuel
  induction fuel with
  | zero =>
    intro fuel' curr offset remaining reads writes buffer buffer' h
    cases h
  | succ fuel ih =>
    intro fuel' curr offset remaining reads writes buffer buffer' h hmodel x hx
    cases fuel' with
    | zero => cases hmodel
    | succ fuel' =>
      rw [readChunks] at h
      rw [Kfs.readChunks] at hmodel
      by_cases hstop : curr = fatEof ∨ curr = fatFree ∨ remaining = 0
      · rw [if_pos hstop] at hmodel
        rw [Option.some.inj hmodel]
      · rw [if_neg hstop] at h hmodel
        obtain ⟨⟨reads', writes'⟩, hrec, heq⟩ := Option.map_eq_some_iff.mp h
        obtain ⟨-, rfl⟩ := Prod.mk.inj heq
        rw [List.mem_append, not_or] at hx
        rw [ih hrec hmodel x hx.2]
        apply fill_outside
        have hout := mt List.mem_range'_1.mpr hx.1
        omega

/-- What is found does not depend on how far the walks may go. -/
theorem lookup_found {r : Option (Entry × Nat × Nat)} {reads : List Nat}
    {f : Option (Entry × Nat × Nat)} (h : lookup s walk path = some (r, reads))
    (hf : found s path = some f) : f = r := by
  rw [← lookup_fst] at hf
  obtain ⟨⟨f', reads'⟩, hlook, rfl⟩ := Option.map_eq_some_iff.mp hf
  have hl := lookup_mono h (le_max_left walk (walkFuel s))
  rw [lookup_mono hlook (le_max_right walk (walkFuel s))] at hl
  exact (Prod.mk.inj (Option.some.inj hl)).1

/-- The call of the model has the same return value and writes nowhere else. -/
theorem kfsReadToBuffer_frame {capacity ret ret' : Nat} {reads writes : List Nat}
    {buffer buffer' : Mem} (h : kfsReadToBuffer s walk path capacity = some (ret, reads, writes))
    (hmodel : Kfs.kfsReadToBuffer s path buffer capacity = some (ret', buffer')) :
    ret' = ret ∧ ∀ x, x ∉ writes → buffer' x = buffer x := by
  obtain ⟨⟨r, first⟩, hlook, hrest⟩ := Option.bind_eq_some_iff.mp h
  rw [kfsReadToBuffer_found] at hmodel
  obtain ⟨f, hfound, hrest'⟩ := Option.bind_eq_some_iff.mp hmodel
  rw [lookup_found hlook hfound] at hrest'
  cases r with
  | none =>
    obtain ⟨rfl, rfl⟩ := Prod.mk.inj (Option.some.inj hrest')
    obtain ⟨rfl, -⟩ := Prod.mk.inj (Option.some.inj hrest)
    exact ⟨rfl, fun _ _ => rfl⟩
  | some r =>
    dsimp only [Option.elim_some] at hrest'
    by_cases hcap : r.1.sizeBytes > capacity
    · rw [if_pos hcap] at hrest'
      have hrest : some (0, first, []) = some (ret, reads, writes) := by
        rw [← hrest]
        exact (if_pos hcap).symm
      obtain ⟨rfl, rfl⟩ := Prod.mk.inj (Option.some.inj hrest')
      obtain ⟨rfl, -⟩ := Prod.mk.inj (Option.some.inj hrest)
      exact ⟨rfl, fun _ _ => rfl⟩
    · rw [if_neg hcap] at hrest'
      obtain ⟨b, hcopy', heq'⟩ := Option.map_eq_some_iff.mp hrest'
      obtain ⟨⟨reads', writes'⟩, hcopy, heq⟩ := Option.bind_eq_some_iff.mp
        ((if_neg hcap).symm.trans hrest)
      obtain ⟨rfl, rfl⟩ := Prod.mk.inj heq'
      obtain ⟨rfl, hlogs⟩ := Prod.mk.inj (Option.some.inj heq)
      obtain ⟨-, rfl⟩ := Prod.mk.inj hlogs
      exact ⟨rfl, readChunks_frame hcopy hcopy'⟩

/-! ## `kfs_read_to_buffer` -/

/-- The call returns, writes each offset at most once, in order, only below the capacity and the
size in the directory entry, and nothing when it returns 0. -/
def StaysInBuffer (s : State) (path : CStr) (capacity : Nat) : Prop :=
  ∃ walk ret reads writes, kfsReadToBuffer s walk path capacity = some (ret, reads, writes) ∧
    writes.Pairwise (· < ·) ∧ (ret = 0 → writes = []) ∧
    ∀ x ∈ writes, ∃ found reads', lookup s walk path = some (some found, reads') ∧
      x < min found.1.sizeBytes capacity

/-- What is recorded are all writes: the call of the model answers the same, and a byte that it
changes is one of them. -/
def RecordsWrites (s : State) (path : CStr) (capacity : Nat) : Prop :=
  ∀ walk ret reads writes, kfsReadToBuffer s walk path capacity = some (ret, reads, writes) →
    ∀ buffer ret' buffer', Kfs.kfsReadToBuffer s path buffer capacity = some (ret', buffer') →
      ret' = ret ∧ ∀ x, x ∉ writes → buffer' x = buffer x

/-- On any disk the call stays in its buffer if it returns, and it returns if the lookup does. -/
theorem kfs_read_to_buffer_bounded (s : State) (path : CStr) (capacity : Nat) :
    (StaysInBuffer s path capacity ↔ LookupReturns s path) ∧ RecordsWrites s path capacity := by
  refine ⟨⟨?_, ?_⟩, fun walk ret reads writes h buffer ret' buffer' => kfsReadToBuffer_frame h⟩
  · rintro ⟨walk, ret, reads, writes, hrun, -⟩
    obtain ⟨r, hlook, -⟩ := Option.bind_eq_some_iff.mp hrun
    exact lookup_returns.mp ⟨walk, r, hlook⟩
  · intro hret
    obtain ⟨walk, ⟨found, reads⟩, hlook⟩ := lookup_returns.mpr hret
    cases found with
    | none =>
      refine ⟨walk, 0, reads, [], ?_, List.Pairwise.nil, fun _ => rfl,
        fun x hx => absurd hx List.not_mem_nil⟩
      rw [kfsReadToBuffer, hlook]
      rfl
    | some found =>
      obtain ⟨entry, sec, idx⟩ := found
      by_cases hcap : entry.sizeBytes > capacity
      · refine ⟨walk, 0, reads, [], ?_, List.Pairwise.nil, fun _ => rfl,
          fun x hx => absurd hx List.not_mem_nil⟩
        rw [kfsReadToBuffer, hlook]
        exact if_pos hcap
      · have hlook' := lookup_mono hlook (le_max_left walk (copyFuel entry.sizeBytes))
        obtain ⟨⟨reads', writes⟩, hcopy⟩ := readChunks_returns s entry.startSector 0
          (le_max_right walk (copyFuel entry.sizeBytes))
        obtain ⟨hsorted, hrange⟩ := readChunks_writes hcopy
        refine ⟨max walk (copyFuel entry.sizeBytes), 1, reads ++ reads', writes, ?_, hsorted,
          fun hc => absurd hc (by decide), fun x hx => ⟨_, _, hlook', ?_⟩⟩
        · rw [kfsReadToBuffer, hlook']
          show (if entry.sizeBytes > capacity then _ else Option.bind (readChunks s _ _ 0 _) _) = _
          rw [if_neg hcap, hcopy]
          rfl
        · have hx' := hrange x hx
          show x < min entry.sizeBytes capacity
          omega

/-- A disk whose root directory is one empty sector that is its own successor. -/
def circularState : State :=
  { blankState with
    currentFs := ⟨![75, 90, 70, 83], 3, 0, fun _ => 0⟩
    fatTable := fun i => if i = 3 then 3 else 0
    totalDiskSectors := 20
    fatSectorsNeeded := 1 }

theorem circular_path : ∀ {l : List Nat} {x : Nat},
    Path circularState.fatTable 3 l x → x = 3 := by
  intro l
  induction l with
  | nil => exact fun h => Eq.symm h
  | cons y l ih =>
    intro x h
    have hrest := h.2
    rw [← h.1] at hrest
    exact ih hrest

/-- The lookup of a name goes round for ever. -/
theorem circular_never_over : ¬Over circularState 3 [97] := by
  rintro (hlow | ⟨l, x, hpath, -, hend⟩)
  · exact absurd hlow (by decide)
  · rw [circular_path hpath] at hend
    exact absurd hend (by decide)

theorem circular_read : ¬StaysInBuffer circularState [97] 100 := by
  rintro ⟨walk, ret, reads, writes, hrun, -⟩
  obtain ⟨r, hlook, -⟩ := Option.bind_eq_some_iff.mp hrun
  have hret := (lookup_returns.mp ⟨walk, r, hlook⟩).resolve_left (by decide)
  exact circular_never_over (hret.2 3 ⟨by decide, rfl⟩)

end Kyuzen.Kfs.Touched
