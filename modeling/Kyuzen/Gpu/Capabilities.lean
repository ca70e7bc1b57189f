import Mathlib
import Kyuzen.Lib.Chain

/-!
# The capabilities of the device

`parse_capabilities` follows the list of capabilities in the PCI configuration space of the
device, from the pointer at 0x34 on, and notes where the structures are that the driver needs.
The loop has no bound of its own: it ends when a pointer is 0.

* `pciCfgRead8_eq`: the reads by words and shifts give the byte that was asked for.
* `capabilities_last_win`: `parse_capabilities` returns exactly when the list ends at 0, and
  then after at most 255 rounds; it answers 0 exactly when each of the four kinds is in the list,
  and the addresses are those of the last capability of each kind.
-/

namespace Kyuzen.Gpu

open Lib.Chain

/-! ## Configuration space -/

/-- The configuration space of one function of a device. -/
structure ConfigSpace where
  byte : Nat → Nat
  byte_lt : ∀ off, byte off < 2 ^ 8

namespace ConfigSpace

variable (c : ConfigSpace)

/-- What port 0xCFC answers for the register at `off`. -/
def dword (off : Nat) : Nat :=
  c.byte off + 2 ^ 8 * c.byte (off + 1) + 2 ^ 16 * c.byte (off + 2) + 2 ^ 24 * c.byte (off + 3)

def pciReadWord (off : Nat) : Nat :=
  c.dword (off / 4 * 4) / 2 ^ (off / 2 % 2 * 16) % 2 ^ 16

def pciCfgRead32 (off : Nat) : Nat :=
  c.pciReadWord off + 2 ^ 16 * c.pciReadWord ((off + 2) % 2 ^ 8)

def pciCfgRead8 (off : Nat) : Nat :=
  let w := c.pciReadWord (off / 2 * 2)
  if off % 2 = 1 then w / 2 ^ 8 else w % 2 ^ 8

theorem pciReadWord_eq (off : Nat) :
    c.pciReadWord off = c.byte (off / 2 * 2) + 2 ^ 8 * c.byte (off / 2 * 2 + 1) := by
  have h0 := c.byte_lt (off / 4 * 4)
  have h1 := c.byte_lt (off / 4 * 4 + 1)
  have h2 := c.byte_lt (off / 4 * 4 + 2)
  have h3 := c.byte_lt (off / 4 * 4 + 3)
  unfold pciReadWord dword
  rcases Nat.mod_two_eq_zero_or_one (off / 2) with hlow | hhigh
  · have hoff : off / 2 * 2 = off / 4 * 4 := by omega
    rw [hlow, hoff]
    omega
  · have hoff : off / 2 * 2 = off / 4 * 4 + 2 := by omega
    have hnext : off / 4 * 4 + 2 + 1 = off / 4 * 4 + 3 := by omega
    rw [hhigh, hoff, hnext]
    omega

theorem pciCfgRead8_eq (off : Nat) : c.pciCfgRead8 off = c.byte off := by
  have h0 := c.byte_lt (off / 2 * 2)
  have h1 := c.byte_lt (off / 2 * 2 + 1)
  have heven : off / 2 * 2 / 2 * 2 = off / 2 * 2 := by omega
  simp only [pciCfgRead8, pciReadWord_eq, heven]
  split
  · have hoff : off / 2 * 2 + 1 = off := by omega
    rw [hoff] at h1 ⊢
    omega
  · have hoff : off / 2 * 2 = off := by omega
    rw [hoff] at h0 ⊢
    omega

end ConfigSpace

/-! ## The loop -/

def virtioPciCapCommonCfg : Nat := 1
def virtioPciCapNotifyCfg : Nat := 2
def virtioPciCapIsrCfg : Nat := 3
def virtioPciCapDeviceCfg : Nat := 4

/-- The fields of `g_vgpu` that `parse_capabilities` sets, and its flags. -/
structure Caps where
  commonCfgPhys : Nat
  commonCfgOff : Nat
  notifyBasePhys : Nat
  notifyBaseOff : Nat
  notifyOffMultiplier : Nat
  deviceCfgPhys : Nat
  deviceCfgOff : Nat
  foundCommon : Bool
  foundNotify : Bool
  foundIsr : Bool
  foundDev : Bool
deriving DecidableEq

namespace ConfigSpace

variable (c : ConfigSpace)

def capNext (capPtr : Nat) : Nat := c.pciCfgRead8 ((capPtr + 1) % 2 ^ 8)

def barOff (capPtr : Nat) : Nat := c.pciCfgRead32 ((capPtr + 8) % 2 ^ 8)

/-- The address in the BAR that the capability names, without its flags. -/
def barPhys (capPtr : Nat) : Nat :=
  let bar := c.pciCfgRead8 ((capPtr + 4) % 2 ^ 8)
  c.pciCfgRead32 ((0x10 + bar * 4) % 2 ^ 8) / 16 * 16

def multiplier (capPtr : Nat) : Nat :=
  let m := c.pciCfgRead32 ((capPtr + 16) % 2 ^ 8)
  if m = 0 then 1 else m

/-- One round of `parse_capabilities`, with a capability at `capPtr`. -/
def readCapability (s : Caps) (capPtr : Nat) : Caps :=
  if c.pciCfgRead8 capPtr ≠ 0x09 then s
  else
    let cfgType := c.pciCfgRead8 ((capPtr + 3) % 2 ^ 8)
    if cfgType = virtioPciCapCommonCfg then
      { s with
        commonCfgPhys := c.barPhys capPtr
        commonCfgOff := c.barOff capPtr
        foundCommon := true }
    else if cfgType = virtioPciCapNotifyCfg then
      { s with
        notifyBasePhys := c.barPhys capPtr
        notifyBaseOff := c.barOff capPtr
        notifyOffMultiplier := c.multiplier capPtr
        foundNotify := true }
    else if cfgType = virtioPciCapIsrCfg then { s with foundIsr := true }
    else if cfgType = virtioPciCapDeviceCfg then
      { s with
        deviceCfgPhys := c.barPhys capPtr
        deviceCfgOff := c.barOff capPtr
        foundDev := true }
    else s

/-- The `while` loop; `none` when `fuel` rounds are not enough. -/
def capLoop : Nat → Nat → Caps → Option Caps
  | 0, _, _ => none
  | fuel + 1, capPtr, s =>
    if capPtr = 0 then some s else capLoop fuel (c.capNext capPtr) (c.readCapability s capPtr)

def found (s : Caps) : Int :=
  if s.foundCommon ∧ s.foundNotify ∧ s.foundIsr ∧ s.foundDev then 0 else -1

/-- `parse_capabilities`: its answer, and the fields it leaves. -/
def parseCapabilities (fuel : Nat) (g : Caps) : Option (Int × Caps) :=
  (c.capLoop fuel (c.pciCfgRead8 0x34)
    { g with foundCommon := false, foundNotify := false, foundIsr := false, foundDev := false }).map
    fun s => (found s, s)

/-! ## The list -/

/-- The capabilities of the device are at `l`, and the last one has no successor. -/
def IsList (l : List Nat) : Prop := Path c.capNext (c.byte 0x34) l 0 ∧ 0 ∉ l

theorem capNext_lt (capPtr : Nat) : c.capNext capPtr < 2 ^ 8 := by
  rw [capNext, pciCfgRead8_eq]
  exact c.byte_lt _

theorem path_lt {a stop : Nat} {l : List Nat} (ha : a < 2 ^ 8) (h : Path c.capNext a l stop) :
    ∀ p ∈ l, p < 2 ^ 8 := by
  induction l generalizing a with
  | nil => simp
  | cons x l ih =>
    obtain ⟨rfl, hrest⟩ := h
    exact List.forall_mem_cons.mpr ⟨ha, ih (c.capNext_lt a) hrest⟩

/-- The pointers are bytes and none comes twice, so there are at most 255. -/
theorem IsList.length_le {c : ConfigSpace} {l : List Nat} (h : c.IsList l) : l.length ≤ 255 := by
  have hlt := c.path_lt (c.byte_lt 0x34) h.1
  have hnodup : (0 :: l).Nodup := List.nodup_cons.mpr ⟨h.2, path_nodup h.1 h.2⟩
  have hsub : 0 :: l ⊆ List.range (2 ^ 8) := by
    intro p hp
    rw [List.mem_range]
    rcases List.mem_cons.mp hp with rfl | hp
    · norm_num
    · exact hlt p hp
  have hlen := (hnodup.subperm hsub).length_le
  simp only [List.length_cons, List.length_range] at hlen
  omega

theorem capLoop_some {fuel a : Nat} {s out : Caps} (h : c.capLoop fuel a s = some out) :
    ∃ l, Path c.capNext a l 0 ∧ 0 ∉ l ∧ out = l.foldl c.readCapability s := by
  induction fuel generalizing a s with
  | zero => cases h
  | succ fuel ih =>
    rw [capLoop] at h
    split at h
    · next hzero => exact ⟨[], hzero, List.not_mem_nil, Eq.symm (Option.some.inj h)⟩
    · next hne =>
      obtain ⟨l, hpath, hl, hout⟩ := ih h
      refine ⟨a :: l, ⟨rfl, hpath⟩, ?_, hout⟩
      intro hmem
      rcases List.mem_cons.mp hmem with heq | hmem
      · exact hne (Eq.symm heq)
      · exact hl hmem

theorem capLoop_of_path {fuel a : Nat} {s : Caps} {l : List Nat} (h : Path c.capNext a l 0)
    (hl : 0 ∉ l) (hfuel : l.length < fuel) :
    c.capLoop fuel a s = some (l.foldl c.readCapability s) := by
  induction l generalizing fuel a s with
  | nil =>
    obtain ⟨fuel, rfl⟩ := Nat.exists_eq_succ_of_ne_zero (Nat.ne_of_gt hfuel)
    have hzero : a = 0 := h
    rw [capLoop, if_pos hzero, List.foldl_nil]
  | cons x l ih =>
    obtain ⟨rfl, hrest⟩ := h
    obtain ⟨fuel, rfl⟩ := Nat.exists_eq_succ_of_ne_zero (Nat.ne_of_gt (Nat.zero_lt_of_lt hfuel))
    have hne : a ≠ 0 := fun h => hl (h ▸ List.mem_cons_self)
    rw [capLoop, if_neg hne, List.foldl_cons]
    exact ih hrest (fun h => hl (List.mem_cons_of_mem _ h)) (Nat.lt_of_succ_lt_succ hfuel)

/-! ## The last of each kind -/

/-- A capability of the vendor's own, of kind `cfgType`. -/
def IsCap (cfgType p : Nat) : Prop := c.byte p = 0x09 ∧ c.byte ((p + 3) % 2 ^ 8) = cfgType

instance (cfgType : Nat) : DecidablePred (c.IsCap cfgType) :=
  fun p => inferInstanceAs (Decidable (c.byte p = 0x09 ∧ c.byte ((p + 3) % 2 ^ 8) = cfgType))

def lastOf (cfgType : Nat) (l : List Nat) : Option Nat :=
  (l.filter fun p => decide (c.IsCap cfgType p)).getLast?

/-- What the list says, with `g` for what it does not say. -/
def capsOf (l : List Nat) (g : Caps) : Caps where
  commonCfgPhys := (c.lastOf 1 l).elim g.commonCfgPhys c.barPhys
  commonCfgOff := (c.lastOf 1 l).elim g.commonCfgOff c.barOff
  notifyBasePhys := (c.lastOf 2 l).elim g.notifyBasePhys c.barPhys
  notifyBaseOff := (c.lastOf 2 l).elim g.notifyBaseOff c.barOff
  notifyOffMultiplier := (c.lastOf 2 l).elim g.notifyOffMultiplier c.multiplier
  deviceCfgPhys := (c.lastOf 4 l).elim g.deviceCfgPhys c.barPhys
  deviceCfgOff := (c.lastOf 4 l).elim g.deviceCfgOff c.barOff
  foundCommon := (c.lastOf 1 l).isSome
  foundNotify := (c.lastOf 2 l).isSome
  foundIsr := (c.lastOf 3 l).isSome
  foundDev := (c.lastOf 4 l).isSome

theorem lastOf_concat (cfgType : Nat) (l : List Nat) (p : Nat) :
    c.lastOf cfgType (l ++ [p]) = if c.IsCap cfgType p then some p else c.lastOf cfgType l := by
  unfold lastOf
  rw [List.filter_append]
  split
  · next h => simp [h]
  · next h => simp [h]

theorem isSome_lastOf {cfgType : Nat} {l : List Nat} :
    (c.lastOf cfgType l).isSome ↔ ∃ p ∈ l, c.IsCap cfgType p := by
  simp [lastOf, Option.isSome_iff_ne_none]

theorem readCapability_capsOf (l : List Nat) (g : Caps) (p : Nat) :
    c.readCapability (c.capsOf l g) p = c.capsOf (l ++ [p]) g := by
  simp only [readCapability, capsOf, lastOf_concat, pciCfgRead8_eq, IsCap,
    virtioPciCapCommonCfg, virtioPciCapNotifyCfg, virtioPciCapIsrCfg, virtioPciCapDeviceCfg]
  by_cases hvndr : c.byte p = 0x09
  · grind
  · simp [hvndr]

theorem foldl_readCapability (l : List Nat) (g : Caps) :
    l.foldl c.readCapability
      { g with foundCommon := false, foundNotify := false, foundIsr := false, foundDev := false } =
      c.capsOf l g := by
  induction l using List.reverseRecOn with
  | nil => rfl
  | append_singleton l p ih =>
    rw [List.foldl_append, ih, List.foldl_cons, List.foldl_nil]
    exact c.readCapability_capsOf l g p

theorem found_capsOf (l : List Nat) (g : Caps) :
    found (c.capsOf l g) =
      if ∀ cfgType ∈ [1, 2, 3, 4], ∃ p ∈ l, c.IsCap cfgType p then 0 else -1 := by
  simp only [found, capsOf, isSome_lastOf, List.forall_mem_cons, List.not_mem_nil,
    IsEmpty.forall_iff, implies_true, and_true]

/-! ## What the driver learns -/

theorem parseCapabilities_some {fuel : Nat} {g : Caps} {out : Int × Caps}
    (h : c.parseCapabilities fuel g = some out) :
    ∃ l, c.IsList l ∧ out = (found (c.capsOf l g), c.capsOf l g) := by
  obtain ⟨s, hs, rfl⟩ := Option.map_eq_some_iff.mp h
  obtain ⟨l, hpath, hl, rfl⟩ := c.capLoop_some hs
  rw [pciCfgRead8_eq] at hpath
  rw [foldl_readCapability]
  exact ⟨l, ⟨hpath, hl⟩, rfl⟩

theorem IsList.parseCapabilities {c : ConfigSpace} {l : List Nat} (h : c.IsList l) (g : Caps) :
    c.parseCapabilities 256 g = some (found (c.capsOf l g), c.capsOf l g) := by
  have hlen : l.length < 256 := Nat.lt_succ_of_le h.length_le
  rw [ConfigSpace.parseCapabilities, pciCfgRead8_eq, c.capLoop_of_path h.1 h.2 hlen,
    foldl_readCapability, Option.map_some]

/-- `parse_capabilities` returns if and only if the list of capabilities ends, and then within
255 rounds: it answers 0 if and only if each of the four kinds is in the list, and the addresses
are those of the last one of each kind. -/
theorem capabilities_last_win (g : Caps) (out : Int × Caps) :
    ((∃ fuel, c.parseCapabilities fuel g = some out) ↔ c.parseCapabilities 256 g = some out) ∧
      (c.parseCapabilities 256 g = some out ↔
        ∃ l, c.IsList l ∧
          out = (if ∀ cfgType ∈ [1, 2, 3, 4], ∃ p ∈ l, c.IsCap cfgType p then 0 else -1,
            c.capsOf l g)) := by
  simp only [← c.found_capsOf _ g]
  constructor
  · constructor
    · rintro ⟨fuel, h⟩
      obtain ⟨l, hlist, rfl⟩ := c.parseCapabilities_some h
      exact hlist.parseCapabilities g
    · intro h
      exact ⟨256, h⟩
  · constructor
    · exact c.parseCapabilities_some
    · rintro ⟨l, hlist, rfl⟩
      exact hlist.parseCapabilities g

end ConfigSpace

end Kyuzen.Gpu
