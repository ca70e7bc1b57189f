import Kyuzen.Kfs.Model

/-!
# The on-disk structures

What is written is what is read: the header, the FAT and the directory entries survive their
encoding, and writing one entry of a directory sector leaves the others alone. Names are
compared as C strings, which on a terminated name field is equality of the stored names
(`strcmpEq_iff`).
-/

namespace Kyuzen.Kfs

open Lib.Memory

/-! ## The header and the FAT -/

theorem decodeHeader_encodeHeader {h : Header} (hroot : h.rootDirSector < 2 ^ 32)
    (htotal : h.totalFiles < 2 ^ 32) : decodeHeader (encodeHeader h) = h := by
  have hfields : ∀ x, 4 ≤ x → x < 12 → encodeHeader h x =
      store (store (fun _ => 0) 4 4 h.rootDirSector) 8 4 h.totalFiles x := by
    intro x h1 h2
    rw [encodeHeader, dif_neg (by omega), dif_neg (by omega)]
  obtain ⟨magic, root, total, padding⟩ := h
  simp only at hroot htotal
  simp only [decodeHeader, Header.mk.injEq]
  refine ⟨?_, ?_, ?_, ?_⟩
  · funext i
    rw [encodeHeader, dif_pos i.isLt]
  · rw [load_congr fun x h1 h2 => hfields x (by omega) (by omega),
      load_store_of_disjoint (by omega), load_store]
    exact Nat.mod_eq_of_lt hroot
  · rw [load_congr fun x h1 h2 => hfields x (by omega) (by omega), load_store]
    exact Nat.mod_eq_of_lt htotal
  · funext i
    have hi := i.isLt
    rw [encodeHeader, dif_neg (by omega), dif_pos (by omega)]
    exact congrArg padding (Fin.ext (Nat.add_sub_cancel_left 12 i.val))

theorem load_encodeFat (fat : Nat → Nat) (k : Nat) {j : Nat} (hj : j < 128) :
    load (encodeFat fat k) (4 * j) 4 = fat (128 * k + j) % 2 ^ 32 := by
  have hpow : (2 : Nat) ^ 32 = 256 ^ 4 := by norm_num
  rw [hpow]
  apply load_eq_of_digits
  intro i hi
  have h1 : (4 * j + i) / 4 = j := by omega
  have h2 : (4 * j + i) % 4 = i := by omega
  have h3 : 4 * j + i < 512 := by omega
  simp [encodeFat, h1, h2, h3]

/-- A FAT sector shows only its own 128 entries. -/
theorem encodeFat_congr {fat fat' : Nat → Nat} {k : Nat} (h : ∀ i, i / 128 = k → fat' i = fat i) :
    encodeFat fat' k = encodeFat fat k := by
  funext x
  unfold encodeFat
  split_ifs with hx
  · rw [h _ (by omega)]
  · rfl

/-! ## Directory entries -/

/-- The bytes of a directory sector after entry `i` was replaced. -/
def withEntry (b : Mem) (i : Nat) (e : Entry) : Mem :=
  Function.update (putEntry b i e) (32 * i + 22) 0

theorem withEntry_outside {b : Mem} {i x : Nat} {e : Entry} (h : x < 32 * i ∨ 32 * i + 32 ≤ x) :
    withEntry b i e x = b x := by
  unfold withEntry putEntry
  rw [Function.update_of_ne (by omega), store_outside (by omega), store_outside (by omega),
    Function.update_of_ne (by omega), fill_outside (by omega)]

theorem entryAt_congr {b b' : Mem} {i : Nat}
    (h : ∀ x, 32 * i ≤ x → x < 32 * i + 32 → b' x = b x) : entryAt b' i = entryAt b i := by
  simp only [entryAt, Entry.mk.injEq]
  refine ⟨?_, h _ (by omega) (by omega), ?_, ?_⟩
  · funext j
    have hj := j.isLt
    exact h _ (by omega) (by omega)
  · exact load_congr fun x h1 h2 => h x (by omega) (by omega)
  · exact load_congr fun x h1 h2 => h x (by omega) (by omega)

theorem entryAt_withEntry_of_ne {b : Mem} {i j : Nat} {e : Entry} (h : j ≠ i) :
    entryAt (withEntry b i e) j = entryAt b j :=
  entryAt_congr fun x h1 h2 => withEntry_outside (by omega)

theorem entryAt_withEntry {b : Mem} {i : Nat} {e : Entry} (hname : e.filename 22 = 0)
    (hstart : e.startSector < 2 ^ 32) (hsize : e.sizeBytes < 2 ^ 32) :
    entryAt (withEntry b i e) i = e := by
  obtain ⟨filename, flags, start, size⟩ := e
  simp only at hname hstart hsize
  simp only [entryAt, withEntry, putEntry, Entry.mk.injEq]
  refine ⟨?_, ?_, ?_, ?_⟩
  · funext j
    have hj := j.isLt
    by_cases h22 : j.val = 22
    · rw [h22, Function.update_self, show j = 22 from Fin.ext h22, hname]
    · rw [Function.update_of_ne (by omega), store_outside (by omega), store_outside (by omega),
        Function.update_of_ne (by omega), fill, if_pos (by omega), dif_pos (by omega)]
      congr 1
      exact Fin.ext (by simp)
  · rw [Function.update_of_ne (by omega), store_outside (by omega), store_outside (by omega),
      Function.update_self]
  · rw [load_congr fun x h1 h2 => Function.update_of_ne (by omega) _ _,
      load_store_of_disjoint (by omega), load_store]
    omega
  · rw [load_congr fun x h1 h2 => Function.update_of_ne (by omega) _ _, load_store]
    omega

/-- The bytes of a directory sector after entry `i` was emptied. -/
def withoutEntry (b : Mem) (i : Nat) : Mem := Function.update b (32 * i + 23) flagEmpty

theorem entryAt_withoutEntry_of_ne {b : Mem} {i j : Nat} (h : j ≠ i) :
    entryAt (withoutEntry b i) j = entryAt b j :=
  entryAt_congr fun x h1 h2 => Function.update_of_ne (by omega) _ _

theorem entryAt_withoutEntry_flags (b : Mem) (i : Nat) :
    (entryAt (withoutEntry b i) i).flags = flagEmpty := Function.update_self _ _ _

/-! ## Names -/

/-- The name a 23-byte field holds. -/
def storedName (f : Fin 23 → UInt8) : CStr := (List.ofFn f).takeWhile (· != 0)

theorem strcmpEq_takeWhile {n : Nat} : ∀ {a : Nat → UInt8} {name : CStr}, 0 ∉ name →
    (∃ k, k < n ∧ a k = 0) →
    (strcmpEq a name = true ↔ ((List.range n).map a).takeWhile (· != 0) = name) := by
  induction n with
  | zero =>
    rintro a name _ ⟨k, hk, _⟩
    omega
  | succ n ih =>
    rintro a name hname ⟨k, hk, hak⟩
    rw [List.range_succ_eq_map, List.map_cons, List.map_map]
    by_cases h0 : a 0 = 0
    · rw [List.takeWhile_cons_of_neg (by simp [h0])]
      cases name with
      | nil => simp [strcmpEq, h0]
      | cons c name =>
        have hc : (0 : UInt8) ≠ c := fun h => hname (h ▸ List.mem_cons_self)
        simp [strcmpEq, h0, hc]
    · rw [List.takeWhile_cons_of_pos (by simpa using h0)]
      cases name with
      | nil => simp [strcmpEq, h0]
      | cons c name =>
        have hrest : ∃ k, k < n ∧ a (k + 1) = 0 := by
          cases k with
          | zero => exact absurd hak h0
          | succ k => exact ⟨k, by omega, hak⟩
        have := ih (fun h => hname (List.mem_cons_of_mem _ h)) hrest
        simp only [strcmpEq, Bool.and_eq_true, beq_iff_eq, List.cons.injEq, this]
        rfl

theorem strcmpEq_of_bytes {l : CStr} : ∀ {a : Nat → UInt8}, (∀ j, (h : j < l.length) →
    a j = l.get ⟨j, h⟩) → a l.length = 0 → strcmpEq a l = true := by
  induction l with
  | nil =>
    intro a _ h0
    simpa [strcmpEq] using h0
  | cons c l ih =>
    intro a hbytes hend
    have hc : a 0 = c := hbytes 0 (Nat.succ_pos _)
    have hrest : strcmpEq (fun j => a (j + 1)) l = true :=
      ih (fun j hj => hbytes (j + 1) (Nat.succ_lt_succ hj)) hend
    simp [strcmpEq, hc, hrest]

theorem ofFn_eq_map_range {f : Fin 23 → UInt8} {a : Nat → UInt8} (h : ∀ j : Fin 23, f j = a j) :
    List.ofFn f = (List.range 23).map a := by
  rw [List.ofFn_eq_map, ← List.map_coe_finRange_eq_range, List.map_map]
  exact List.map_congr_left fun j _ => h j

/-- On a terminated name field `strcmp` compares the stored names. -/
theorem strcmpEq_iff {b : Mem} {i : Nat} {name : CStr} (hname : 0 ∉ name)
    (hterm : (entryAt b i).filename 22 = 0) :
    strcmpEq (fun j => b (32 * i + j)) name = true ↔
      storedName (entryAt b i).filename = name := by
  have hnul : ∃ k, k < 23 ∧ b (32 * i + k) = 0 := ⟨22, by omega, hterm⟩
  have hlist : List.ofFn (entryAt b i).filename = (List.range 23).map fun j => b (32 * i + j) :=
    ofFn_eq_map_range fun j => rfl
  rw [strcmpEq_takeWhile hname hnul, storedName, hlist]

/-- A new entry stores the first 22 bytes of the name. -/
theorem storedName_newFilename (stale : Nat → UInt8) {name : CStr} (hname : 0 ∉ name) :
    storedName (newFilename stale name) = name.take 22 := by
  have hlen : (name.take 22).length = min 22 name.length := List.length_take
  have hnul : 0 ∉ name.take 22 := fun h => hname (List.mem_of_mem_take h)
  obtain ⟨a, ha⟩ : ∃ a : Nat → UInt8, ∀ j : Fin 23, newFilename stale name j = a j :=
    ⟨fun j => if h : j < 23 then newFilename stale name ⟨j, h⟩ else 0, fun j => by simp⟩
  have hterm : a (name.take 22).length = 0 := by
    rw [← ha ⟨(name.take 22).length, by omega⟩, newFilename]
    simp only [hlen]
    split_ifs <;> first | rfl | omega
  have hbytes : strcmpEq a (name.take 22) = true := by
    refine strcmpEq_of_bytes (fun j hj => ?_) hterm
    have hj' : j < 23 := by omega
    rw [← ha ⟨j, hj'⟩, newFilename, if_neg (by simp only; omega), dif_pos (by simp only; omega)]
    simp
  have hex : ∃ k, k < 23 ∧ a k = 0 := ⟨_, by omega, hterm⟩
  rw [storedName, ofFn_eq_map_range ha]
  exact (strcmpEq_takeWhile hnul hex).mp hbytes

theorem newFilename_terminated (stale : Nat → UInt8) (name : CStr) :
    newFilename stale name 22 = 0 := rfl

end Kyuzen.Kfs
