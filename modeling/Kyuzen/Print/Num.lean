import Kyuzen.Lib.Numeral

/-!
# Printing numbers

`kprint_num` fills a local buffer from its end with the digits of a 64-bit number. Its buffer has
room for 19 digits, and its loop does not check the index: it prints the numbers below 10 ^ 19, and
for all others it writes below the buffer (`kprint_num_exact`). The printers of the panic screen
and of user programs have room for all digits and check the index (`printers_exact`).

A write outside a buffer, and a string that starts outside it or does not end in it, is `none`.
-/

namespace Kyuzen.Print

open Lib

/-! ## The printers -/

/-- `buf[i] = b`. -/
def put (buf : List UInt8) (i : Int) (b : UInt8) : Option (List UInt8) :=
  if 0 ≤ i ∧ i < buf.length then some (buf.set i.toNat b) else none

/-- The characters up to the first NUL. -/
def cString : List UInt8 → Option (List UInt8)
  | [] => none
  | c :: s => if c = 0 then some [] else (cString s).map (c :: ·)

/-- The string at `&buf[i]`. -/
def stringAt (buf : List UInt8) (i : Int) : Option (List UInt8) :=
  if 0 ≤ i then cString (buf.drop i.toNat) else none

/-- `while (num > 0)`, and with `checked` also `&& i >= 0`. -/
def digitLoop (checked : Bool) (buf : List UInt8) (i : Int) (num : Nat) :
    Option (List UInt8 × Int) :=
  if _ : 0 < num ∧ (checked = true → 0 ≤ i) then
    match put buf i (UInt8.ofNat (num % 10 + 48)) with
    | none => none
    | some buf => digitLoop checked buf (i - 1) (num / 10)
  else some (buf, i)
termination_by num

/-- The string that is printed. The last digit is stored at `i`, and the buffer holds `junk`
before. -/
def printDigits (checked : Bool) (junk : List UInt8) (i : Int) (num : Nat) :
    Option (List UInt8) := do
  if num = 0 then return [48]
  let buf ← put junk (i + 1) 0
  let (buf, i) ← digitLoop checked buf i num
  stringAt buf (i + 1)

def kprintNum (junk : Vector UInt8 20) (num : UInt64) : Option (List UInt8) :=
  printDigits false junk.toList 18 num.toNat

/-- In kernel/panic.c. -/
def serDec (junk : Vector UInt8 22) (v : UInt64) : Option (List UInt8) :=
  printDigits true junk.toList 20 v.toNat

/-- In kernel/panic.c. Zero is stored in the buffer too. -/
def pDec (junk : Vector UInt8 22) (val : UInt64) : Option (List UInt8) := do
  let buf ← put junk.toList 21 0
  let (buf, i) ←
    if val = 0 then (put buf 20 48).map fun buf => (buf, 19) else digitLoop true buf 20 val.toNat
  stringAt buf (i + 1)

/-- In apps/userlib.c. -/
def printNum (junk : Vector UInt8 16) (num : UInt32) : Option (List UInt8) :=
  printDigits true junk.toList 14 num.toNat

/-! ## Buffers -/

variable {checked : Bool} {junk buf xs ys s : List UInt8} {b c : UInt8} {i : Int} {n num : Nat}

theorem exists_init (h : xs.length = n + 1) : ∃ init b, xs = init ++ [b] ∧ init.length = n := by
  rcases List.eq_nil_or_concat xs with rfl | ⟨init, b, rfl⟩
  · cases h
  · rw [List.concat_eq_append, List.length_append, List.length_singleton] at h
    exact ⟨init, b, List.concat_eq_append .., Nat.add_right_cancel h⟩

theorem put_append (xs ys : List UInt8) (b c : UInt8) :
    put (xs ++ b :: ys) xs.length c = some (xs ++ c :: ys) := by
  have hin : (xs.length : Int) < (xs ++ b :: ys).length := by
    rw [List.length_append, List.length_cons]
    omega
  rw [put, if_pos ⟨Int.natCast_nonneg _, hin⟩, Int.toNat_natCast,
    List.set_append_right _ _ (Nat.le_refl _), Nat.sub_self, List.set_cons_zero]

theorem put_neg (h : i < 0) : put buf i b = none := by
  rw [put, if_neg]
  omega

theorem cString_append (hs : ∀ c ∈ s, c ≠ 0) : cString (s ++ 0 :: ys) = some s := by
  induction s with
  | nil => rfl
  | cons c s ih =>
    rw [List.cons_append, cString, if_neg (hs c (List.mem_cons_self ..)),
      ih fun d hd => hs d (List.mem_cons_of_mem _ hd)]
    rfl

theorem stringAt_append (xs ys : List UInt8) (hs : ∀ c ∈ s, c ≠ 0) :
    stringAt (xs ++ (s ++ 0 :: ys)) xs.length = some s := by
  rw [stringAt, if_pos (Int.natCast_nonneg _), Int.toNat_natCast, List.drop_left,
    cString_append hs]

/-! ## The loop -/

theorem digitLoop_zero : digitLoop checked buf i 0 = some (buf, i) := by
  rw [digitLoop, dif_neg]
  rintro ⟨h, _⟩
  cases h

theorem digitLoop_pos (hnum : 0 < num) (xs ys : List UInt8) (b : UInt8) :
    digitLoop checked (xs ++ b :: ys) xs.length num =
      digitLoop checked (xs ++ digitChar (num % 10) :: ys) ((xs.length : Int) - 1) (num / 10) := by
  rw [digitLoop, dif_pos ⟨hnum, fun _ => Int.natCast_nonneg _⟩]
  have hput := put_append xs ys b (digitChar (num % 10))
  rw [digitChar] at hput
  rw [hput]
  rfl

/-- The digits that the loop stores replace the end of what is before the index. -/
theorem digitLoop_fits (num : Nat) (xs ys : List UInt8)
    (hroom : (digitsOf num).length ≤ xs.length) :
    ∃ zs, digitLoop checked (xs ++ ys) ((xs.length : Int) - 1) num =
      some (zs ++ (digitsOf num ++ ys), (zs.length : Int) - 1) := by
  induction num using Nat.strongRecOn generalizing xs ys with
  | ind num ih =>
    rcases Nat.eq_zero_or_pos num with rfl | hnum
    · refine ⟨xs, ?_⟩
      rw [digitLoop_zero, digitsOf_zero, List.nil_append]
    · rw [digitsOf_pos hnum, List.length_append, List.length_singleton] at hroom
      have hlen : xs.length = xs.length - 1 + 1 := by omega
      obtain ⟨init, b, rfl, -⟩ := exists_init hlen
      rw [List.length_append, List.length_singleton] at hroom ⊢
      obtain ⟨zs, hzs⟩ := ih (num / 10) (Nat.div_lt_self hnum (by decide)) init
        (digitChar (num % 10) :: ys) (Nat.le_of_add_le_add_right hroom)
      refine ⟨zs, ?_⟩
      have hi : ((init.length + 1 : Nat) : Int) - 1 = init.length := by omega
      rw [hi, List.append_assoc, List.singleton_append, digitLoop_pos hnum, hzs,
        digitsOf_pos hnum, List.append_assoc, List.singleton_append]

/-- With more digits than elements, the loop without the check stores one below the buffer. -/
theorem digitLoop_overruns (num : Nat) (xs ys : List UInt8)
    (hroom : xs.length < (digitsOf num).length) :
    digitLoop false (xs ++ ys) ((xs.length : Int) - 1) num = none := by
  induction num using Nat.strongRecOn generalizing xs ys with
  | ind num ih =>
    have hnum : 0 < num := by
      rw [Nat.pos_iff_ne_zero]
      rintro rfl
      rw [digitsOf_zero] at hroom
      cases hroom
    rcases List.eq_nil_or_concat xs with rfl | ⟨init, b, rfl⟩
    · rw [digitLoop, dif_pos ⟨hnum, fun h => by cases h⟩, put_neg (by decide)]
    · rw [List.concat_eq_append, List.length_append, List.length_singleton] at hroom ⊢
      rw [digitsOf_pos hnum, List.length_append, List.length_singleton] at hroom
      have hi : ((init.length + 1 : Nat) : Int) - 1 = init.length := by omega
      rw [hi, List.append_assoc, List.singleton_append, digitLoop_pos hnum]
      exact ih (num / 10) (Nat.div_lt_self hnum (by decide)) init _
        (Nat.lt_of_add_lt_add_right hroom)

/-! ## What is printed -/

/-- The buffer has an element for the NUL, and `n + 1` for the digits before it. -/
theorem exists_room (hlen : junk.length = n + 2) :
    ∃ xs, xs.length = n + 1 ∧ put junk (n + 1) 0 = some (xs ++ [0]) := by
  obtain ⟨xs, b, rfl, hxs⟩ := exists_init hlen
  have hput := put_append xs [] b 0
  rw [hxs] at hput
  exact ⟨xs, hxs, hput⟩

theorem digitsOf_ne_zero : ∀ c ∈ digitsOf num, c ≠ 0 := fun _ hc =>
  ne_zero_of_isDigit (isDigit_of_mem_digitsOf hc)

theorem printDigits_fits (hlen : junk.length = n + 2) (hnum : num < 10 ^ (n + 1)) :
    printDigits checked junk n num = some (numeral num) := by
  rw [printDigits, numeral]
  split
  · rfl
  · obtain ⟨xs, hxs, hput⟩ := exists_room hlen
    have hroom : (digitsOf num).length ≤ xs.length := by
      rw [hxs]
      exact digitsOf_length_le.mpr hnum
    obtain ⟨zs, hzs⟩ := @digitLoop_fits checked num xs [0] hroom
    have hi : (xs.length : Int) - 1 = n := by omega
    have hend : (zs.length : Int) - 1 + 1 = zs.length := by omega
    rw [hi] at hzs
    simp only [hput, hzs, hend, Option.bind_eq_bind, Option.bind_some]
    exact stringAt_append zs [] digitsOf_ne_zero

theorem printDigits_overruns (hlen : junk.length = n + 2) (hnum : 10 ^ (n + 1) ≤ num) :
    printDigits false junk n num = none := by
  have hpos : num ≠ 0 := Nat.pos_iff_ne_zero.mp (lt_of_lt_of_le (by positivity) hnum)
  obtain ⟨xs, hxs, hput⟩ := exists_room hlen
  have hroom : xs.length < (digitsOf num).length := by
    rw [hxs, ← Nat.not_le, digitsOf_length_le]
    exact Nat.not_lt_of_le hnum
  have hloop := digitLoop_overruns num xs [0] hroom
  have hi : (xs.length : Int) - 1 = n := by omega
  rw [hi] at hloop
  rw [printDigits, if_neg hpos]
  simp only [hput, hloop, Option.bind_eq_bind, Option.bind_some, Option.bind_none]

theorem kprintNum_fits (junk : Vector UInt8 20) {num : UInt64} (h : num.toNat < 10 ^ 19) :
    kprintNum junk num = some (numeral num.toNat) :=
  printDigits_fits (n := 18) (by simp) h

theorem kprintNum_overruns (junk : Vector UInt8 20) {num : UInt64} (h : 10 ^ 19 ≤ num.toNat) :
    kprintNum junk num = none :=
  printDigits_overruns (n := 18) (by simp) h

/-- The digits are stored inside the buffer, and the string that is printed is the numeral. -/
def PrintsNumeral (num : UInt64) : Prop :=
  ∀ junk, ∃ s, kprintNum junk num = some s ∧ IsNumeral s num.toNat

theorem kprint_num_exact (num : UInt64) : PrintsNumeral num ↔ num.toNat < 10 ^ 19 := by
  constructor
  · intro h
    obtain ⟨s, hs, _⟩ := h (Vector.replicate 20 0)
    by_contra hnum
    rw [kprintNum_overruns _ (Nat.le_of_not_lt hnum)] at hs
    cases hs
  · intro h junk
    exact ⟨_, kprintNum_fits junk h, isNumeral_iff.mpr rfl⟩

/-! ## The addresses of the network card -/

/-- Bits 1 and 2 of the BAR tell whether the next register has the high half. -/
def bar0Phys (bar0Low bar0High : UInt32) : UInt64 :=
  if bar0Low &&& 0x6 = 0x4 then bar0High.toUInt64 <<< 32 ||| (bar0Low.toUInt64 &&& ~~~0xF)
  else bar0Low.toUInt64 &&& ~~~0xF

/-- What `e1000_init` prints after `virt=0x`. -/
def bar0Virt (bar0Low bar0High : UInt32) (hhdmOffset : UInt64) : UInt64 :=
  bar0Phys bar0Low bar0High + hhdmOffset

/-- The offset that `kernel_main` takes if the bootloader gives none. -/
def defaultHhdmOffset : UInt64 := 0xFFFF800000000000

theorem bar0Phys_lt {bar0Low bar0High : UInt32} (h : bar0Low &&& 0x6 ≠ 0x4) :
    (bar0Phys bar0Low bar0High).toNat < 2 ^ 32 := by
  rw [bar0Phys, if_neg h, UInt64.toNat_and]
  exact lt_of_le_of_lt Nat.and_le_left bar0Low.toNat_lt

/-- A printed address of the higher half always overruns the buffer. -/
theorem bar0Virt_overruns {bar0Low bar0High : UInt32} {hhdmOffset : UInt64}
    (hhigh : 10 ^ 19 ≤ hhdmOffset.toNat)
    (hsum : (bar0Phys bar0Low bar0High).toNat + hhdmOffset.toNat < 2 ^ 64)
    (junk : Vector UInt8 20) : kprintNum junk (bar0Virt bar0Low bar0High hhdmOffset) = none := by
  apply kprintNum_overruns
  rw [bar0Virt, UInt64.toNat_add, Nat.mod_eq_of_lt hsum]
  omega

/-- So does the boot with a 32-bit BAR at the default offset. -/
theorem bar0Virt_overruns_default {bar0Low bar0High : UInt32} (h : bar0Low &&& 0x6 ≠ 0x4)
    (junk : Vector UInt8 20) :
    kprintNum junk (bar0Virt bar0Low bar0High defaultHhdmOffset) = none := by
  have hphys := @bar0Phys_lt bar0Low bar0High h
  have hoffset : defaultHhdmOffset.toNat = 0xFFFF800000000000 := rfl
  apply bar0Virt_overruns
  · rw [hoffset]
    decide
  · rw [hoffset]
    omega

/-- The boot with the registers of an e1000 at 0xFEBC0000. -/
theorem kprint_num_overruns : ¬ ∀ num, PrintsNumeral num := by
  intro h
  obtain ⟨s, hs, _⟩ := h (bar0Virt 0xFEBC0000 0 defaultHhdmOffset) (Vector.replicate 20 0)
  rw [bar0Virt_overruns_default (by decide)] at hs
  cases hs

/-! ## The other printers -/

theorem serDec_prints (junk : Vector UInt8 22) (v : UInt64) :
    serDec junk v = some (numeral v.toNat) :=
  printDigits_fits (n := 20) (by simp) (lt_trans v.toNat_lt (by decide))

theorem printNum_prints (junk : Vector UInt8 16) (num : UInt32) :
    printNum junk num = some (numeral num.toNat) :=
  printDigits_fits (n := 14) (by simp) (lt_trans num.toNat_lt (by decide))

/-- It makes no difference that the zero is stored. -/
theorem pDec_eq_serDec (junk : Vector UInt8 22) (val : UInt64) :
    pDec junk val = serDec junk val := by
  by_cases h : val = 0
  · obtain ⟨xs, hxs, hput⟩ := @exists_room junk.toList 20 (by simp)
    obtain ⟨init, b, rfl, hlen⟩ := exists_init hxs
    have hnul : put junk.toList 21 0 = some (init ++ b :: [0]) := by
      rw [List.append_cons]
      exact hput
    have hzero : put (init ++ b :: [0]) 20 48 = some (init ++ 48 :: [0]) := by
      have hput := put_append init [0] b 48
      rw [hlen] at hput
      exact hput
    have hstring : stringAt (init ++ 48 :: [0]) (19 + 1) = some [48] := by
      have hat := stringAt_append init [] (s := [48]) (by simp)
      rw [hlen] at hat
      exact hat
    rw [h, serDec_prints, pDec]
    simp only [hnul, hzero, Option.bind_eq_bind, Option.bind_some, Option.map_some, if_true,
      hstring]
    rfl
  · have hnum : val.toNat ≠ 0 := fun hnum => h (UInt64.toNat_inj.mp hnum)
    rw [serDec, printDigits, pDec, if_neg hnum]
    simp only [if_neg h]
    rfl

theorem numeral_eq_iff : some (numeral num) = some s ↔ IsNumeral s num := by
  rw [Option.some_inj, isNumeral_iff]
  exact eq_comm

/-- With room for all digits, every number is printed, and as nothing else than its numeral. -/
theorem printers_exact (s : List UInt8) :
    (∀ junk v, serDec junk v = some s ↔ IsNumeral s v.toNat) ∧
      (∀ junk val, pDec junk val = some s ↔ IsNumeral s val.toNat) ∧
      ∀ junk num, printNum junk num = some s ↔ IsNumeral s num.toNat := by
  refine ⟨fun junk v => ?_, fun junk val => ?_, fun junk num => ?_⟩
  · rw [serDec_prints]
    exact numeral_eq_iff
  · rw [pDec_eq_serDec, serDec_prints]
    exact numeral_eq_iff
  · rw [printNum_prints]
    exact numeral_eq_iff

end Kyuzen.Print
