import Mathlib.Data.List.TakeWhile
import Mathlib.Data.Nat.Bitwise
import Kyuzen.Lib.Decimal

/-!
# Numbers in shell commands

`parse_uint` and `parse_ipv4` read decimal numbers into 32-bit accumulators. Neither looks for an
overflow: what they compare and store is the value modulo 2 ^ 32. `parse_uint` accepts exactly the
numerals, of whatever size, so that it is exact on a text unless the text is a numeral of 2 ^ 32 or
more (`uintExact_iff`). `parse_ipv4` is exact unless one of the four numbers is 2 ^ 32 or more and
each is at most 255 modulo 2 ^ 32 (`ipv4Exact_iff`).
-/

namespace Kyuzen.Shell

open Lib

variable {str p rest : List UInt8} {out k v : Nat}

/-! ## `parse_uint` -/

/-- The loop over the digits, up to the end of the string. -/
def uintLoop (value : Nat) : List UInt8 → Option Nat
  | [] => some value
  | c :: str =>
    if !isDigit c then none else uintLoop ((value * 10 + digitVal c) % 2 ^ 32) str

/-- The result, and `*out` afterwards. A string is the list of its bytes before the NUL, and a
null pointer is `none`. -/
def parseUint (str : Option (List UInt8)) (out : Option Nat) : Bool × Option Nat :=
  match str, out with
  | some str, some _ =>
    let str := str.dropWhile (· = 32)
    if str = [] then (false, out)
    else
      match uintLoop 0 str with
      | none => (false, out)
      | some value => (true, some value)
  | _, _ => (false, out)

/-! ## `parse_ipv4` -/

/-- One number of the address, and the text after it. -/
def parseOctet (p : List UInt8) : Option (Nat × List UInt8) :=
  if !p.head?.any isDigit then none
  else
    let (v, p) := accumulate (2 ^ 32) 0 p
    if v > 255 then none else some (v, p)

/-- The dot, which the last number does not have. -/
def skipDot (left : Nat) (p : List UInt8) : Option (List UInt8) :=
  if left = 0 then some p else if p.head? = some 46 then some p.tail else none

/-- The loop over the numbers, with how many there are to read. -/
def parseOctets : Nat → List UInt8 → Option (List Nat × List UInt8)
  | 0, p => some ([], p)
  | left + 1, p => do
    let (v, p) ← parseOctet p
    let p ← skipDot left p
    let (octets, p) ← parseOctets left p
    some (v :: octets, p)

def packOctets (octets : List Nat) : Nat :=
  octets.getD 0 0 ||| octets.getD 1 0 <<< 8 ||| octets.getD 2 0 <<< 16 ||| octets.getD 3 0 <<< 24

/-- The result, `*str` afterwards and `*out` afterwards. -/
def parseIpv4 (str : List UInt8) (out : Nat) : Bool × List UInt8 × Nat :=
  match parseOctets 4 str with
  | none => (false, str, out)
  | some (octets, p) => (true, p, packOctets octets)

/-! ## What the texts denote -/

/-- Spaces and then a number, whose value is `n`. -/
def UintText (str : List UInt8) (n : Nat) : Prop :=
  ∃ spaces ds, str = List.replicate spaces 32 ++ ds ∧ IsRun ds ∧ n = decimalValue ds

def dotted : List (List UInt8) → List UInt8
  | [] => []
  | run :: runs => if runs = [] then run else run ++ 46 :: dotted runs

/-- Four numbers with dots between them, and the text after them. -/
structure Ipv4Text (str : List UInt8) (runs : List (List UInt8)) (rest : List UInt8) : Prop where
  count : runs.length = 4
  numbers : ∀ run ∈ runs, IsRun run
  ends : EndsRun rest
  text : str = dotted runs ++ rest

/-- The bytes of a 32-bit value in memory. -/
def memoryBytes (v : Nat) : List Nat := (List.range 4).map fun i => v / 256 ^ i % 256

/-- `parse_uint` accepts the numerals below 2 ^ 32 and stores their value. -/
def UintExact (str : List UInt8) (out : Nat) : Prop :=
  ((parseUint (some str) (some out)).1 = true ↔ ∃ n < 2 ^ 32, UintText str n) ∧
    ∀ n < 2 ^ 32, UintText str n → (parseUint (some str) (some out)).2 = some n

/-- `parse_ipv4` accepts the addresses, stores their bytes in order and moves past their text. -/
def Ipv4Exact (str : List UInt8) (out : Nat) : Prop :=
  ((parseIpv4 str out).1 = true ↔
      ∃ runs rest, Ipv4Text str runs rest ∧ ∀ run ∈ runs, decimalValue run ≤ 255) ∧
    (∀ runs rest, Ipv4Text str runs rest → (∀ run ∈ runs, decimalValue run ≤ 255) →
      (parseIpv4 str out).2.1 = rest ∧
        memoryBytes (parseIpv4 str out).2.2 = runs.map decimalValue) ∧
    ((parseIpv4 str out).1 = false → (parseIpv4 str out).2.1 = str)

/-! ## The loop of `parse_uint` -/

theorem uintLoop_eq {ds : List UInt8} (hds : ∀ d ∈ ds, isDigit d = true) (value : Nat) :
    uintLoop value ds = some (accumulate (2 ^ 32) value ds).1 := by
  induction ds generalizing value with
  | nil => rfl
  | cons d ds ih =>
    have hd : isDigit d = true := hds d (List.mem_cons_self ..)
    rw [uintLoop, accumulate, hd, if_pos rfl, Bool.not_true, if_neg Bool.false_ne_true]
    exact ih (fun e he => hds e (List.mem_cons_of_mem _ he)) _

theorem digits_of_uintLoop {ds : List UInt8} {value : Nat} (h : uintLoop value ds = some v) :
    ∀ d ∈ ds, isDigit d = true := by
  induction ds generalizing value with
  | nil => simp
  | cons c ds ih =>
    rw [uintLoop] at h
    split at h
    · cases h
    · rename_i hc
      rw [Bool.not_eq_true, Bool.not_eq_false'] at hc
      intro d hd
      rcases List.mem_cons.mp hd with rfl | hd
      · exact hc
      · exact ih h d hd

theorem dropWhile_spaces (spaces : Nat) {ds : List UInt8} (h : IsRun ds) :
    (List.replicate spaces 32 ++ ds).dropWhile (· = 32) = ds := by
  induction spaces with
  | zero =>
    cases ds with
    | nil => rfl
    | cons c ds =>
      have hc : isDigit c = true := h.digits c (List.mem_cons_self ..)
      have hne : ¬ c = 32 := by
        rintro rfl
        exact absurd hc (by decide)
      simp [hne]
  | succ spaces ih =>
    rw [List.replicate_succ, List.cons_append, List.dropWhile_cons, if_pos (by simp)]
    exact ih

theorem takeWhile_spaces (str : List UInt8) :
    ∃ spaces, str = List.replicate spaces 32 ++ str.dropWhile (· = 32) := by
  refine ⟨(str.takeWhile (· = 32)).length, ?_⟩
  conv_lhs => rw [← List.takeWhile_append_dropWhile (p := (· = 32)) (l := str)]
  congr 1
  apply List.eq_replicate_of_mem
  intro c hc
  simpa using List.mem_takeWhile_imp hc

/-- The numerals of every size are accepted, and what is stored is their value modulo 2 ^ 32. -/
theorem parseUint_of_text {n : Nat} (h : UintText str n) :
    parseUint (some str) (some out) = (true, some (n % 2 ^ 32)) := by
  obtain ⟨spaces, ds, rfl, hds, rfl⟩ := h
  have hloop := uintLoop_eq hds.digits 0
  have hvalue := accumulate_eq (m := 2 ^ 32) hds endsRun_nil
  rw [List.append_nil] at hvalue
  rw [hvalue] at hloop
  simp only [parseUint, dropWhile_spaces spaces hds, if_neg hds.nonempty, hloop]

theorem text_of_parseUint (h : (parseUint (some str) (some out)).1 = true) :
    ∃ n, UintText str n := by
  obtain ⟨spaces, hstr⟩ := takeWhile_spaces str
  unfold parseUint at h
  simp only at h
  split at h
  · cases h
  · rename_i hne
    cases hloop : uintLoop 0 (str.dropWhile (· = 32)) with
    | none =>
      rw [hloop] at h
      cases h
    | some v => exact ⟨_, spaces, _, hstr, ⟨hne, digits_of_uintLoop hloop⟩, rfl⟩

theorem uintText_unique {m n : Nat} (hm : UintText str m) (hn : UintText str n) : m = n := by
  obtain ⟨spaces, ds, rfl, hds, rfl⟩ := hm
  obtain ⟨spaces', ds', heq, hds', rfl⟩ := hn
  have h := congrArg (List.dropWhile (· = 32)) heq
  rw [dropWhile_spaces spaces hds, dropWhile_spaces spaces' hds'] at h
  rw [h]

/-- The text is a numeral that does not fit. -/
def UintTooLarge (str : List UInt8) : Prop := ∃ n, 2 ^ 32 ≤ n ∧ UintText str n

theorem uintExact_iff (str : List UInt8) (out : Nat) :
    UintExact str out ↔ ¬ UintTooLarge str := by
  constructor
  · intro ⟨hexact, _⟩ ⟨n, hn, htext⟩
    have haccept : (parseUint (some str) (some out)).1 = true := by rw [parseUint_of_text htext]
    obtain ⟨m, hm, htext'⟩ := hexact.mp haccept
    have := uintText_unique htext htext'
    omega
  · intro hfits
    refine ⟨⟨fun h => ?_, fun ⟨n, _, htext⟩ => by rw [parseUint_of_text htext]⟩, ?_⟩
    · obtain ⟨n, htext⟩ := text_of_parseUint h
      exact ⟨n, not_le.mp fun hn => hfits ⟨n, hn, htext⟩, htext⟩
    · intro n hn htext
      rw [parseUint_of_text htext, Nat.mod_eq_of_lt hn]

/-! ## The loop of `parse_ipv4` -/

theorem parseOctet_iff : parseOctet p = some (v, rest) ↔
    ∃ run, p = run ++ rest ∧ IsRun run ∧ EndsRun rest ∧ v = decimalValue run % 2 ^ 32 ∧ v ≤ 255 := by
  constructor
  · intro h
    cases p with
    | nil => cases h
    | cons c p =>
      by_cases hc : isDigit c = true
      · obtain ⟨run, rest', hp, hrun, hends⟩ := exists_run p hc
        have hacc := accumulate_eq (m := 2 ^ 32) hrun hends
        rw [← hp] at hacc
        simp only [parseOctet, List.head?_cons, Option.any_some, hc, hacc, Bool.not_true] at h
        by_cases hv : decimalValue run % 2 ^ 32 > 255
        · simp only [Bool.false_eq_true, if_false, if_pos hv, reduceCtorEq] at h
        · simp only [Bool.false_eq_true, if_false, if_neg hv, Option.some_inj, Prod.mk.injEq] at h
          obtain ⟨rfl, rfl⟩ := h
          exact ⟨run, hp, hrun, hends, rfl, not_lt.mp hv⟩
      · simp [parseOctet, hc] at h
  · rintro ⟨run, rfl, hrun, hends, rfl, hv⟩
    have hacc := accumulate_eq (m := 2 ^ 32) hrun hends
    have hhead : (run ++ rest).head?.any isDigit = true := by
      cases run with
      | nil => exact absurd rfl hrun.nonempty
      | cons c run => exact hrun.digits c (List.mem_cons_self ..)
    simp only [parseOctet, hhead, hacc, Bool.not_true, if_neg (not_lt.mpr hv)]
    rfl

theorem dotted_singleton (run : List UInt8) : dotted [run] = run := by simp [dotted]

theorem dotted_cons (run : List UInt8) {runs : List (List UInt8)} (h : runs ≠ []) :
    dotted (run :: runs) = run ++ 46 :: dotted runs := by
  rw [dotted, if_neg h]

theorem endsRun_dot : EndsRun (46 :: rest) := endsRun_cons.mpr (by decide)

theorem skipDot_iff {left : Nat} : skipDot left p = some rest ↔
    p = if left = 0 then rest else 46 :: rest := by
  unfold skipDot
  by_cases hl : left = 0
  · rw [if_pos hl, if_pos hl, Option.some_inj]
  · rw [if_neg hl, if_neg hl]
    cases p with
    | nil => simp
    | cons c p =>
      by_cases hc : c = 46
      · simp [hc]
      · simp [hc]

/-- One number, and those behind its dot. -/
theorem parseOctets_succ_iff {octets : List Nat} : parseOctets (k + 1) p = some (octets, rest) ↔
    ∃ run p' p'' octets', p = run ++ p' ∧ IsRun run ∧ EndsRun p' ∧ decimalValue run % 2 ^ 32 ≤ 255 ∧
      p' = (if k = 0 then p'' else 46 :: p'') ∧ parseOctets k p'' = some (octets', rest) ∧
      octets = decimalValue run % 2 ^ 32 :: octets' := by
  rw [parseOctets]
  simp only [Option.bind_eq_bind, Option.bind_eq_some_iff, Prod.exists, Option.some_inj,
    Prod.mk.injEq]
  constructor
  · rintro ⟨v, p', hoctet, p'', hdot, octets', rest', hoctets, rfl, rfl⟩
    obtain ⟨run, htext, hrun, hends, rfl, hv⟩ := parseOctet_iff.mp hoctet
    exact ⟨run, p', p'', octets', htext, hrun, hends, hv, skipDot_iff.mp hdot, hoctets, rfl⟩
  · rintro ⟨run, p', p'', octets', htext, hrun, hends, hv, hdot, hoctets, rfl⟩
    have hoctet := parseOctet_iff.mpr ⟨run, htext, hrun, hends, rfl, hv⟩
    exact ⟨_, p', hoctet, p'', skipDot_iff.mpr hdot, octets', rest, hoctets, rfl, rfl⟩

/-- The numbers that are read, the texts they stand for and the text that is left. -/
theorem parseOctets_iff {octets : List Nat} : parseOctets (k + 1) p = some (octets, rest) ↔
    ∃ runs, runs.length = k + 1 ∧ (∀ run ∈ runs, IsRun run) ∧ EndsRun rest ∧
      p = dotted runs ++ rest ∧ octets = runs.map (decimalValue · % 2 ^ 32) ∧
      ∀ v ∈ octets, v ≤ 255 := by
  induction k generalizing p octets with
  | zero =>
    rw [parseOctets_succ_iff]
    constructor
    · rintro ⟨run, p', p'', octets', rfl, hrun, hends, hv, rfl, hoctets, rfl⟩
      cases hoctets
      exact ⟨[run], rfl, by simpa using hrun, hends, by rw [dotted_singleton], rfl,
        by simpa using hv⟩
    · rintro ⟨runs, hlen, hruns, hends, rfl, rfl, hv⟩
      obtain ⟨run, rfl⟩ := List.length_eq_one_iff.mp hlen
      exact ⟨run, rest, rest, [], by rw [dotted_singleton], hruns run (by simp), hends,
        hv _ (by simp), rfl, rfl, rfl⟩
  | succ k ih =>
    rw [parseOctets_succ_iff]
    constructor
    · rintro ⟨run, p', p'', octets', rfl, hrun, _, hv, rfl, hoctets, rfl⟩
      obtain ⟨runs, hlen, hruns, hends, rfl, rfl, hvs⟩ := ih.mp hoctets
      have hne : runs ≠ [] := by
        rintro rfl
        cases hlen
      refine ⟨run :: runs, by simp [hlen], ?_, hends, ?_, rfl, ?_⟩
      · intro r hr
        rcases List.mem_cons.mp hr with rfl | hr
        · exact hrun
        · exact hruns r hr
      · rw [if_neg (Nat.succ_ne_zero k), dotted_cons run hne, List.append_assoc, List.cons_append]
      · intro w hw
        rcases List.mem_cons.mp hw with rfl | hw
        · exact hv
        · exact hvs w hw
    · rintro ⟨runs, hlen, hruns, hends, rfl, rfl, hv⟩
      cases runs with
      | nil => cases hlen
      | cons run runs =>
        have hlen' : runs.length = k + 1 := by simpa using hlen
        have hne : runs ≠ [] := by
          rintro rfl
          cases hlen'
        have hoctets := ih.mpr ⟨runs, hlen', fun r hr => hruns r (List.mem_cons_of_mem _ hr), hends,
          rfl, rfl, fun w hw => hv w (List.mem_cons_of_mem _ hw)⟩
        refine ⟨run, _, dotted runs ++ rest, _, ?_, hruns run (by simp), endsRun_dot,
          hv _ (by simp), (if_neg (Nat.succ_ne_zero k)).symm, hoctets, rfl⟩
        rw [dotted_cons run hne, List.append_assoc, List.cons_append]

/-- The numbers of a text are determined by it. -/
theorem dotted_unique {runs runs' : List (List UInt8)} {rest' : List UInt8}
    (hlen : runs.length = runs'.length) (hruns : ∀ run ∈ runs, IsRun run)
    (hruns' : ∀ run ∈ runs', IsRun run) (hends : EndsRun rest) (hends' : EndsRun rest')
    (h : dotted runs ++ rest = dotted runs' ++ rest') : runs = runs' ∧ rest = rest' := by
  induction runs generalizing runs' with
  | nil =>
    rw [List.length_nil] at hlen
    obtain rfl := List.length_eq_zero_iff.mp hlen.symm
    exact ⟨rfl, h⟩
  | cons run runs ih =>
    cases runs' with
    | nil => cases hlen
    | cons run' runs' =>
      have hrun := hruns run (by simp)
      have hrun' := hruns' run' (by simp)
      have hlen' : runs.length = runs'.length := by simpa using hlen
      by_cases hne : runs = []
      · have hne' : runs' = [] := by
          rw [hne] at hlen'
          exact List.length_eq_zero_iff.mp hlen'.symm
        subst hne hne'
        rw [dotted_singleton, dotted_singleton] at h
        obtain ⟨rfl, rfl⟩ := run_unique hrun hrun' hends hends' h
        exact ⟨rfl, rfl⟩
      · have hne' : runs' ≠ [] := by
          rintro rfl
          exact hne (List.length_eq_zero_iff.mp hlen')
        rw [dotted_cons run hne, dotted_cons run' hne', List.append_assoc, List.append_assoc,
          List.cons_append, List.cons_append] at h
        obtain ⟨rfl, hdots⟩ := run_unique hrun hrun' endsRun_dot endsRun_dot h
        rw [List.cons.injEq] at hdots
        obtain ⟨rfl, rfl⟩ := ih hlen' (fun r hr => hruns r (List.mem_cons_of_mem _ hr))
          (fun r hr => hruns' r (List.mem_cons_of_mem _ hr)) hdots.2
        exact ⟨rfl, rfl⟩

/-- The bytes of the packed address are the numbers in their order. -/
theorem memoryBytes_pack {a b c d : Nat} (ha : a ≤ 255) (hb : b ≤ 255) (hc : c ≤ 255)
    (hd : d ≤ 255) : memoryBytes (packOctets [a, b, c, d]) = [a, b, c, d] := by
  have hpack : packOctets [a, b, c, d] = d * 2 ^ 24 + (c * 2 ^ 16 + (b * 2 ^ 8 + a)) := by
    have h1 := Nat.shiftLeft_add_eq_or_of_lt (i := 8) (by omega : a < 2 ^ 8) b
    have h2 := Nat.shiftLeft_add_eq_or_of_lt (i := 16) (by omega : b * 2 ^ 8 + a < 2 ^ 16) c
    have h3 := Nat.shiftLeft_add_eq_or_of_lt (i := 24)
      (by omega : c * 2 ^ 16 + (b * 2 ^ 8 + a) < 2 ^ 24) d
    show a ||| b <<< 8 ||| c <<< 16 ||| d <<< 24 = _
    rw [Nat.or_comm a, ← h1, Nat.shiftLeft_eq, Nat.or_comm _ (c <<< 16), ← h2, Nat.shiftLeft_eq,
      Nat.or_comm _ (d <<< 24), ← h3, Nat.shiftLeft_eq]
  rw [hpack]
  simp only [memoryBytes, List.range_succ, List.range_zero, List.nil_append, List.cons_append,
    List.map_cons, List.map_nil, List.cons.injEq, and_true]
  omega

theorem Ipv4Text.unique {runs runs' : List (List UInt8)} {rest' : List UInt8}
    (h : Ipv4Text str runs rest) (h' : Ipv4Text str runs' rest') : runs = runs' ∧ rest = rest' :=
  dotted_unique (h.count.trans h'.count.symm) h.numbers h'.numbers h.ends h'.ends
    (h.text.symm.trans h'.text)

/-- Four numbers with dots are accepted when each is at most 255 modulo 2 ^ 32. -/
theorem parseIpv4_of_text {runs : List (List UInt8)} (h : Ipv4Text str runs rest)
    (hv : ∀ run ∈ runs, decimalValue run % 2 ^ 32 ≤ 255) :
    parseIpv4 str out = (true, rest, packOctets (runs.map (decimalValue · % 2 ^ 32))) := by
  have hoctets : parseOctets 4 str = some (runs.map (decimalValue · % 2 ^ 32), rest) :=
    parseOctets_iff.mpr ⟨runs, h.count, h.numbers, h.ends, h.text, rfl, by simpa using hv⟩
  rw [parseIpv4, hoctets]

theorem text_of_parseIpv4 (h : (parseIpv4 str out).1 = true) :
    ∃ runs rest, Ipv4Text str runs rest ∧ ∀ run ∈ runs, decimalValue run % 2 ^ 32 ≤ 255 := by
  unfold parseIpv4 at h
  cases hoctets : parseOctets 4 str with
  | none =>
    rw [hoctets] at h
    cases h
  | some r =>
    obtain ⟨octets, rest⟩ := r
    obtain ⟨runs, hlen, hruns, hends, htext, rfl, hv⟩ := parseOctets_iff.mp hoctets
    exact ⟨runs, rest, ⟨hlen, hruns, hends, htext⟩, by simpa using hv⟩

/-- One of the four numbers does not fit, and all of them look small modulo 2 ^ 32. -/
def Ipv4Wraps (str : List UInt8) : Prop :=
  ∃ runs rest, Ipv4Text str runs rest ∧ (∀ run ∈ runs, decimalValue run % 2 ^ 32 ≤ 255) ∧
    ∃ run ∈ runs, 2 ^ 32 ≤ decimalValue run

theorem ipv4Exact_iff (str : List UInt8) (out : Nat) : Ipv4Exact str out ↔ ¬ Ipv4Wraps str := by
  constructor
  · intro ⟨hexact, _⟩ ⟨runs, rest, htext, hsmall, run, hrun, hlarge⟩
    have haccept : (parseIpv4 str out).1 = true := by rw [parseIpv4_of_text htext hsmall]
    obtain ⟨runs', rest', htext', hbytes⟩ := hexact.mp haccept
    obtain ⟨rfl, rfl⟩ := htext.unique htext'
    have := hbytes run hrun
    omega
  · intro hfits
    have hmod : ∀ {runs : List (List UInt8)}, (∀ run ∈ runs, decimalValue run ≤ 255) →
        ∀ run ∈ runs, decimalValue run % 2 ^ 32 = decimalValue run := by
      intro runs hbytes run hrun
      have := hbytes run hrun
      exact Nat.mod_eq_of_lt (by omega)
    have hparse : ∀ runs rest, Ipv4Text str runs rest → (∀ run ∈ runs, decimalValue run ≤ 255) →
        parseIpv4 str out = (true, rest, packOctets (runs.map decimalValue)) := by
      intro runs rest htext hbytes
      rw [parseIpv4_of_text htext fun run hrun => (hmod hbytes run hrun).trans_le (hbytes run hrun),
        List.map_congr_left (hmod hbytes)]
    refine ⟨⟨fun h => ?_, fun ⟨runs, rest, htext, hbytes⟩ => ?_⟩, ?_, ?_⟩
    · obtain ⟨runs, rest, htext, hsmall⟩ := text_of_parseIpv4 h
      refine ⟨runs, rest, htext, fun run hrun => ?_⟩
      have hlt : decimalValue run < 2 ^ 32 :=
        not_le.mp fun hlarge => hfits ⟨runs, rest, htext, hsmall, run, hrun, hlarge⟩
      have := hsmall run hrun
      omega
    · rw [hparse runs rest htext hbytes]
    · intro runs rest htext hbytes
      rw [hparse runs rest htext hbytes]
      refine ⟨rfl, ?_⟩
      match runs, htext.count with
      | [a, b, c, d], _ =>
        simp only [List.mem_cons, List.not_mem_nil, or_false, forall_eq_or_imp, forall_eq] at hbytes
        exact memoryBytes_pack hbytes.1 hbytes.2.1 hbytes.2.2.1 hbytes.2.2.2
    · intro h
      unfold parseIpv4 at h ⊢
      cases hoctets : parseOctets 4 str with
      | none => rfl
      | some r =>
        rw [hoctets] at h
        cases h

/-- Both are exact, apart from the numbers that wrap around. -/
theorem numbers_exact (str : List UInt8) (out : Nat) :
    (UintExact str out ↔ ¬ UintTooLarge str) ∧ (Ipv4Exact str out ↔ ¬ Ipv4Wraps str) :=
  ⟨uintExact_iff str out, ipv4Exact_iff str out⟩

/-- The text "4294967296". -/
def wrappingPort : List UInt8 := [52, 50, 57, 52, 57, 54, 55, 50, 57, 54]

/-- The text "4294967297.0.0.1". -/
def wrappingAddress : List UInt8 :=
  [52, 50, 57, 52, 57, 54, 55, 50, 57, 55, 46, 48, 46, 48, 46, 49]

theorem wrapped_accepted :
    ¬ (∀ str out, UintExact str out) ∧ ¬ (∀ str out, Ipv4Exact str out) := by
  constructor
  · intro h
    refine (uintExact_iff wrappingPort 0).mp (h _ _) ⟨2 ^ 32, le_rfl, 0, wrappingPort, rfl, ?_, ?_⟩
    · exact ⟨List.cons_ne_nil _ _, by simp [wrappingPort, isDigit]⟩
    · decide
  · intro h
    refine (ipv4Exact_iff wrappingAddress 0).mp (h _ _)
      ⟨[[52, 50, 57, 52, 57, 54, 55, 50, 57, 55], [48], [48], [49]], [], ⟨rfl, ?_, endsRun_nil, ?_⟩,
        ?_, ?_⟩
    · intro run hrun
      simp only [List.mem_cons, List.not_mem_nil, or_false] at hrun
      rcases hrun with rfl | rfl | rfl | rfl
      · exact ⟨List.cons_ne_nil _ _, by simp [isDigit]⟩
      · exact ⟨List.cons_ne_nil _ _, by simp [isDigit]⟩
      · exact ⟨List.cons_ne_nil _ _, by simp [isDigit]⟩
      · exact ⟨List.cons_ne_nil _ _, by simp [isDigit]⟩
    · decide
    · decide
    · decide

end Kyuzen.Shell
