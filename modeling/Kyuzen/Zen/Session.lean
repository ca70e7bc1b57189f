import Kyuzen.Vfs.Refinement
import Kyuzen.Zen.Model

/-!
# What an editing session saves

A session is compared with the text that the keys describe (`Draft`). It ends with ESC, or with the
first key for which the block cannot grow (`Stops`). The block behind the cursor is zero up to the
longest text that the session has had, and as far as the first block reached; what `krealloc` has
added beyond is what the heap gave. So the text itself is saved when it is shorter than one of the
two, and otherwise what the heap gave is saved with it or read past its end (`zen_session`).
-/

namespace Kyuzen.Zen

open Kfs Lib.Memory
open Vfs (FileIs Room)

/-- The text that was typed, the length of the longest text so far, and the size of the block. -/
structure Draft where
  text : List UInt8
  high : Nat
  cap : Nat

def Draft.press (d : Draft) (c : UInt8) : Draft :=
  if c = backspace then { d with text := d.text.dropLast }
  else ⟨d.text ++ [c], max d.high (d.text.length + 1),
    if d.text.length + 1 = d.cap then d.cap * 2 else d.cap⟩

/-- What some keys make of a file. -/
def draftOf (file : List UInt8) (keys : List UInt8) : Draft :=
  keys.foldl Draft.press ⟨file, file.length, firstCapacity file.length⟩

/-- The block has to grow for a key, and the heap refuses it. -/
structure Refuses (heaps : Nat → Heap) (d : Draft) (c : UInt8) (left : Nat) : Prop where
  typed : c ≠ backspace
  full : d.text.length + 1 = d.cap
  refused : heaps left (d.cap * 2) = none

/-- The text ends with a zero: it has been longer, or the first block is not full. -/
def Draft.Ended (d : Draft) (first : Nat) : Prop := d.text.length < max d.high first

/-- The buffer holds the text. Behind the zeros stands what the heap gave. -/
structure Shows (heaps : Nat → Heap) (first : Nat) (b : Buffer) (d : Draft) : Prop where
  cursor : b.cursor = d.text.length
  cap : b.cap = d.cap
  text : prefixOf b.text b.cursor = d.text
  zero : ∀ i, d.text.length ≤ i → i < max d.high first → b.text i = 0
  given : ∀ i, max d.high first ≤ i → i < b.cap →
    ∃ k n block, heaps k n = some block ∧ b.text i = block i
  inside : b.cursor < b.cap
  nul : 0 ∉ d.text
  length_le : d.text.length ≤ d.high
  high_le : d.high ≤ b.cap
  first_le : first ≤ b.cap
  grown : b.cap = first ∨ b.cap ≤ 2 * d.high

variable {heaps : Nat → Heap} {first : Nat} {b b' : Buffer} {d : Draft} {c : UInt8}
  {keys rest : List UInt8}

/-! ## Keys -/

theorem prefixOf_succ (m : Mem) (n : Nat) : prefixOf m (n + 1) = prefixOf m n ++ [m n] := by
  rw [prefixOf, List.range_succ, List.map_append]
  rfl

theorem prefixOf_congr {m m' : Mem} {n : Nat} (h : ∀ i < n, m i = m' i) :
    prefixOf m n = prefixOf m' n :=
  List.map_congr_left fun i hi => h i (List.mem_range.mp hi)

/-- A character at the cursor of a block that is large enough. -/
theorem Shows.type (h : Shows heaps first b d) (hc : c ≠ 0) {text : Mem} {cap : Nat}
    (htext : ∀ i < b.cap, text i = b.text i) (hcap : b.cap ≤ cap) (hroom : b.cursor + 1 < cap)
    (hgrown : cap = b.cap ∨ b.cap = b.cursor + 1 ∧ cap = 2 * b.cap)
    (hgiven : ∀ i, b.cap ≤ i → i < cap → ∃ k n block, heaps k n = some block ∧ text i = block i) :
    Shows heaps first ⟨Function.update text b.cursor c, cap, b.cursor + 1⟩
      ⟨d.text ++ [c], max d.high (d.text.length + 1), cap⟩ := by
  have hcursor := h.cursor
  have hinside := h.inside
  have hhigh := h.high_le
  have hfirst := h.first_le
  have hmax := h.grown
  refine ⟨?_, rfl, ?_, fun i hlo hhi => ?_, fun i hlo hhi => ?_, hroom, ?_, ?_, ?_, ?_, ?_⟩
  · rw [List.length_append, List.length_singleton, ← hcursor]
  · dsimp only
    rw [prefixOf_succ, Function.update_self, ← h.text]
    congr 1
    refine prefixOf_congr fun i hi => ?_
    rw [Function.update_of_ne (by omega), htext i (by omega)]
  · rw [List.length_append, List.length_singleton] at hlo
    dsimp only at hhi ⊢
    rw [Function.update_of_ne (by omega), htext i (by omega)]
    exact h.zero i (by omega) (by omega)
  · dsimp only at hlo hhi ⊢
    rw [Function.update_of_ne (by omega)]
    by_cases hold : i < b.cap
    · rw [htext i hold]
      exact h.given i (by omega) hold
    · exact hgiven i (by omega) hhi
  · simp [h.nul, Ne.symm hc]
  · rw [List.length_append, List.length_singleton]
    exact le_max_right _ _
  · dsimp only
    omega
  · exact hfirst.trans hcap
  · dsimp only
    omega

theorem Shows.erase (h : Shows heaps first b d) (hpos : b.cursor > 0) :
    Shows heaps first ⟨Function.update b.text (b.cursor - 1) 0, b.cap, b.cursor - 1⟩
      { d with text := d.text.dropLast } := by
  have hcursor := h.cursor
  have hinside := h.inside
  have hlen := h.length_le
  have hlast : d.text.dropLast.length = b.cursor - 1 := by rw [List.length_dropLast, hcursor]
  refine ⟨hlast.symm, h.cap, ?_, fun i hlo hhi => ?_, fun i hlo hhi => ?_, ?_, fun hmem => ?_, ?_,
    h.high_le, h.first_le, h.grown⟩
  · have htext := h.text
    obtain ⟨n, hn⟩ : ∃ n, b.cursor = n + 1 := ⟨b.cursor - 1, by omega⟩
    rw [hn, prefixOf_succ] at htext
    dsimp only
    rw [hn, ← htext, List.dropLast_concat, Nat.add_sub_cancel]
    refine prefixOf_congr fun i hi => ?_
    rw [Function.update_of_ne (by omega)]
  · rw [hlast] at hlo
    dsimp only at hhi ⊢
    by_cases heq : i = b.cursor - 1
    · rw [heq, Function.update_self]
    · rw [Function.update_of_ne heq]
      exact h.zero i (by omega) hhi
  · dsimp only at hlo hhi ⊢
    rw [Function.update_of_ne (by omega)]
    exact h.given i hlo hhi
  · dsimp only
    omega
  · exact h.nul (List.mem_of_mem_dropLast hmem)
  · rw [hlast]
    dsimp only
    omega

/-- A key changes the buffer as it changes the text, or the heap has refused a block. -/
theorem Shows.press (h : Shows heaps first b d) (hc : c ≠ 0)
    (hfirst : 2 ≤ first ∧ first < 2 ^ 31) (hhigh : d.high < 2 ^ 30) (k : Nat) :
    (∃ b', press (heaps k) b c = some b' ∧ Shows heaps first b' (d.press c) ∧
        ¬Refuses heaps d c k) ∨
      press (heaps k) b c = none ∧ Refuses heaps d c k := by
  have hcursor := h.cursor
  have hsame := h.cap
  have hinside := h.inside
  have hgrown := h.grown
  have hcap : b.cap < 2 ^ 31 := by omega
  have htwo : 2 ≤ b.cap := hfirst.1.trans h.first_le
  have hpred : (b.cap + 2 ^ 32 - 1) % 2 ^ 32 = b.cap - 1 := by omega
  have hdouble : b.cap * 2 % 2 ^ 32 = b.cap * 2 := Nat.mod_eq_of_lt (by omega)
  unfold Zen.press Draft.press
  by_cases hback : c = backspace
  · rw [if_pos hback, if_pos hback]
    refine Or.inl ⟨_, rfl, ?_, fun hno => hno.typed hback⟩
    split_ifs with hpos
    · exact h.erase hpos
    · have hnil : d.text = [] := List.eq_nil_of_length_eq_zero (by have := h.cursor; omega)
      rw [hnil, List.dropLast_nil, ← hnil]
      exact h
  rw [if_neg hback, if_neg hback, hpred, hdouble]
  by_cases hfull : b.cursor ≥ b.cap - 1
  · have hne : b.cap * 2 ≠ 0 := by omega
    have hlen : d.text.length + 1 = d.cap := by omega
    simp only [if_pos hfull, krealloc, if_neg hne, if_pos hlen]
    cases hblock : heaps k (b.cap * 2) with
    | none => exact Or.inr ⟨rfl, hback, hlen, hsame ▸ hblock⟩
    | some block =>
      have hgranted : ¬Refuses heaps d c k := by
        rintro ⟨-, -, hnone⟩
        rw [← hsame, hblock] at hnone
        cases hnone
      have hkept : ∀ i < b.cap, fill block 0 (min b.cap (b.cap * 2)) b.text i = b.text i := by
        intro i hi
        rw [fill, if_pos (by omega)]
      have hle : b.cap ≤ b.cap * 2 := by omega
      have hroom : b.cursor + 1 < b.cap * 2 := by omega
      have hlast : b.cap = b.cursor + 1 := by omega
      rw [← hsame]
      refine Or.inl ⟨_, rfl, h.type hc hkept hle hroom (Or.inr ⟨hlast, Nat.mul_comm _ _⟩) ?_,
        hgranted⟩
      intro i hlo hhi
      refine ⟨k, _, block, hblock, fill_outside (Or.inr ?_)⟩
      omega
  · have hlen : ¬d.text.length + 1 = d.cap := by omega
    rw [if_neg hfull, if_neg hlen, ← hsame]
    refine Or.inl ⟨_, rfl, h.type hc (fun _ _ => rfl) (le_refl _) (by omega) (Or.inl rfl) ?_,
      fun hno => hlen hno.full⟩
    intro i hlo hhi
    omega

/-! ## The loop -/

/-- The session that begins with `d` goes on after the keys `used`, before the keys `rest`. -/
structure GoesOn (heaps : Nat → Heap) (d : Draft) (used rest : List UInt8) : Prop where
  typed : escape ∉ used
  granted : ∀ before c after, used = before ++ c :: after →
    ¬Refuses heaps (before.foldl Draft.press d) c (after ++ rest).length

/-- The loop ends at `c`: at ESC, or at the first key for which the heap refuses a block. -/
structure Stops (heaps : Nat → Heap) (d : Draft) (keys used : List UInt8) (c : UInt8)
    (rest : List UInt8) : Prop where
  split : keys = used ++ c :: rest
  before : GoesOn heaps d used (c :: rest)
  stop : c = escape ∨ Refuses heaps (used.foldl Draft.press d) c rest.length

theorem goesOn_nil (heaps : Nat → Heap) (d : Draft) (rest : List UInt8) :
    GoesOn heaps d [] rest :=
  ⟨List.not_mem_nil, fun _ _ _ hsplit => absurd hsplit (List.append_ne_nil_of_right_ne_nil _
    (List.cons_ne_nil _ _)).symm⟩

theorem GoesOn.cons {used : List UInt8} (h : GoesOn heaps (d.press c) used rest)
    (hstop : c ≠ escape) (hgranted : ¬Refuses heaps d c (used ++ rest).length) :
    GoesOn heaps d (c :: used) rest := by
  refine ⟨?_, fun before k after hsplit => ?_⟩
  · rw [List.mem_cons, not_or]
    exact ⟨Ne.symm hstop, h.typed⟩
  · cases before with
    | nil =>
      obtain ⟨rfl, rfl⟩ := List.cons.inj hsplit
      exact hgranted
    | cons k' before =>
      obtain ⟨rfl, hused⟩ := List.cons.inj hsplit
      exact h.granted before k after hused

theorem high_press (d : Draft) (c : UInt8) (hlen : d.text.length ≤ d.high) :
    (d.press c).high ≤ d.high + 1 := by
  unfold Draft.press
  by_cases hback : c = backspace
  · rw [if_pos hback]
    exact Nat.le_succ _
  · rw [if_neg hback]
    dsimp only
    omega

theorem length_press (d : Draft) (c : UInt8) (hlen : d.text.length ≤ d.high) :
    (d.press c).text.length ≤ (d.press c).high := by
  unfold Draft.press
  by_cases hback : c = backspace
  · rw [if_pos hback]
    dsimp only
    rw [List.length_dropLast]
    omega
  · rw [if_neg hback]
    dsimp only
    rw [List.length_append, List.length_singleton]
    exact le_max_right _ _

/-- The loop ends where it should, and the buffer holds the text that was typed. -/
theorem zenLoop_spec (hfirst : 2 ≤ first ∧ first < 2 ^ 31) (hnul : 0 ∉ keys)
    (h : Shows heaps first b d) (hlong : d.high + keys.length < 2 ^ 30) :
    (zenLoop heaps keys b = none ∧ GoesOn heaps d keys []) ∨
      ∃ b' used c rest, zenLoop heaps keys b = some (b', rest) ∧ Stops heaps d keys used c rest ∧
        Shows heaps first b' (used.foldl Draft.press d) := by
  induction keys generalizing b d with
  | nil => exact Or.inl ⟨rfl, goesOn_nil _ _ _⟩
  | cons c keys ih =>
    rw [List.length_cons] at hlong
    have hc : c ≠ 0 := fun heq => hnul (heq ▸ List.mem_cons_self)
    rw [zenLoop]
    by_cases hstop : c = escape
    · rw [if_pos hstop]
      exact Or.inr ⟨b, [], c, keys, rfl, ⟨rfl, goesOn_nil _ _ _, Or.inl hstop⟩, h⟩
    rw [if_neg hstop]
    rcases h.press hc hfirst (by omega) keys.length with
      ⟨b', hpress, hshows, hgranted⟩ | ⟨hpress, hrefused⟩
    · have hhigh := high_press d c h.length_le
      have hnul' : 0 ∉ keys := fun hmem => hnul (List.mem_cons_of_mem _ hmem)
      rw [hpress]
      rcases ih hnul' hshows (by omega) with
        ⟨hloop, hgoes⟩ | ⟨b'', used, c', rest, hloop, hstops, hend⟩
      · refine Or.inl ⟨hloop, hgoes.cons hstop ?_⟩
        rwa [List.append_nil]
      · refine Or.inr ⟨b'', c :: used, c', rest, hloop, ⟨?_, ?_, hstops.stop⟩, hend⟩
        · rw [hstops.split, List.cons_append]
        · exact hstops.before.cons hstop (hstops.split ▸ hgranted)
    · refine Or.inr ⟨b, [], c, keys, ?_, ⟨rfl, goesOn_nil _ _ _, Or.inr hrefused⟩, h⟩
      rw [hpress]

/-! ## Opening and saving -/

theorem zenStrlen_eq {text : Mem} {cap n : Nat} (hn : n < cap) (hzero : text n = 0)
    (hnul : ∀ i < n, text i ≠ 0) : zenStrlen text cap = some n := by
  unfold zenStrlen
  refine List.find?_eq_some_iff_getElem.mpr ⟨by rw [hzero]; rfl, n, ?_, ?_, fun j hj => ?_⟩
  · rwa [List.length_range]
  · rw [List.getElem_range]
  · rw [List.getElem_range]
    simpa using hnul j hj

theorem zenStrlen_none {text : Mem} {cap : Nat} (hnul : ∀ i < cap, text i ≠ 0) :
    zenStrlen text cap = none := by
  unfold zenStrlen
  refine List.find?_eq_none.mpr fun i hi => ?_
  simpa using hnul i (List.mem_range.mp hi)

theorem Shows.ne_zero (h : Shows heaps first b d) {i : Nat} (hi : i < b.cursor) : b.text i ≠ 0 := by
  intro hzero
  refine h.nul ?_
  rw [← h.text, ← hzero]
  exact List.mem_map.mpr ⟨i, List.mem_range.mpr hi, rfl⟩

/-- The length of the text is found when the text has ended. -/
theorem Shows.strlen_text (h : Shows heaps first b d) (hended : d.Ended first) :
    zenStrlen b.text b.cap = some b.cursor := by
  refine zenStrlen_eq h.inside ?_ fun i hi => h.ne_zero hi
  rw [h.cursor]
  exact h.zero _ (le_refl _) hended

/-- What the heap gave ends with a zero, or is read past its end. -/
theorem Shows.strlen_outside (h : Shows heaps first b d) (hended : ¬d.Ended first)
    (hdirty : ∀ k n block, heaps k n = some block → ∀ i, block i ≠ 0) :
    zenStrlen b.text b.cap = none := by
  refine zenStrlen_none fun i hi => ?_
  by_cases htext : i < b.cursor
  · exact h.ne_zero htext
  · have hcursor := h.cursor
    unfold Draft.Ended at hended
    obtain ⟨k, n, block, hblock, heq⟩ := h.given i (by omega) hi
    rw [heq]
    exact hdirty k n block hblock i

variable {drive : Drive} {noise : Noise} {s : State} {t : Tree} {filename : CStr}
  {file : Option (List UInt8)}

theorem firstCapacity_spec {size : Nat} (hsize : size < 2 ^ 30) :
    size < firstCapacity size ∧ 2 ≤ firstCapacity size ∧ firstCapacity size < 2 ^ 31 := by
  unfold firstCapacity
  split_ifs <;> omega

theorem zenOpen_spec (heaps : Nat → Heap) (h : Fs s t) (hp : Resolvable filename)
    (hfile : FileIs s filename file)
    (htext : 0 ∉ file.getD []) (hsize : (file.getD []).length < 2 ^ 30) {heap : Heap}
    (hheap : heap (firstCapacity (file.getD []).length) ≠ none) :
    ∃ b, zenOpen heap s filename = some (some b) ∧
      Shows heaps (firstCapacity (file.getD []).length) b (draftOf (file.getD []) []) := by
  obtain ⟨block, hblock⟩ := Option.ne_none_iff_exists'.mp hheap
  obtain ⟨hlt, -, -⟩ := firstCapacity_spec hsize
  have hthere := kfsExists_fileAt h.rep hp.1
  rw [hfile.fileAt] at hthere
  unfold zenOpen
  rw [hthere]
  cases file with
  | none =>
    refine ⟨⟨fill block 0 32 fun _ => 0, 32, 0⟩, ?_, ?_⟩
    · have hblock' : heap 32 = some block := hblock
      simp [hblock', firstCapacity]
    · refine ⟨rfl, rfl, rfl, fun i _ hi => ?_, fun i hlo hhi => ?_, hlt, List.not_mem_nil,
        le_refl _, Nat.zero_le _, le_refl _, Or.inl rfl⟩
      · have hi' : i < 32 := hi.trans_eq (Nat.zero_max _)
        exact if_pos ⟨Nat.zero_le _, by omega⟩
      · exact absurd hhi (Nat.not_lt.mpr ((le_max_right _ _).trans hlo))
  | some bytes =>
    have hold : fileAt s filename = some ⟨flagFile, bytes⟩ := hfile
    have hlen := kfsGetFileSize_fileAt h.toSound hp.1
    have hread := kfsReadToBuffer_fileAt h.toSound hp.1
      (fill block 0 (firstCapacity bytes.length) fun _ => 0) (firstCapacity bytes.length)
    rw [hold] at hlen hread
    simp only [Option.getD_some] at hblock hlt htext
    dsimp only at hread
    rw [if_neg (by omega)] at hread
    obtain ⟨text, hread, hbytes, hrest⟩ := hread
    have hzero : ∀ i, bytes.length ≤ i → i < firstCapacity bytes.length → text i = 0 := by
      intro i hlo hhi
      rw [hrest i hlo]
      exact if_pos ⟨Nat.zero_le _, by omega⟩
    have hstrlen : zenStrlen text (firstCapacity bytes.length) = some bytes.length := by
      refine zenStrlen_eq hlt (hzero _ (le_refl _) hlt) fun i hi hz => htext ?_
      rw [← hbytes, ← hz]
      exact List.mem_map.mpr ⟨i, List.mem_range.mpr hi, rfl⟩
    refine ⟨⟨text, firstCapacity bytes.length, bytes.length⟩, ?_, ?_⟩
    · simp [hlen, hblock, hread, hstrlen]
    · refine ⟨rfl, rfl, hbytes, fun i hlo hhi => ?_, fun i hlo hhi => ?_, hlt, htext, le_refl _,
        hlt.le, le_refl _, Or.inl rfl⟩
      · refine hzero i hlo (lt_of_lt_of_le hhi ?_)
        exact max_le hlt.le (le_refl _)
      · exact absurd hhi (Nat.not_lt.mpr ((le_max_right _ _).trans hlo))

/-- A first block that cannot be had. -/
theorem zenOpen_refused (h : Fs s t) (hp : Resolvable filename) (hfile : FileIs s filename file)
    {heap : Heap} (hheap : heap (firstCapacity (file.getD []).length) = none) :
    zenOpen heap s filename = some none := by
  have hthere := kfsExists_fileAt h.rep hp.1
  rw [hfile.fileAt] at hthere
  unfold zenOpen
  rw [hthere]
  cases file with
  | none =>
    have hheap' : heap (firstCapacity 0) = none := hheap
    simp [hheap']
  | some bytes =>
    have hold : fileAt s filename = some ⟨flagFile, bytes⟩ := hfile
    have hlen := kfsGetFileSize_fileAt h.toSound hp.1
    rw [hold] at hlen
    have hheap' : heap (firstCapacity bytes.length) = none := hheap
    simp [hlen, hheap']

/-- The file is replaced by the text when the disk has room for it, and else it is gone. -/
theorem zenSave_spec (h : Fs s t) (hp : Resolvable filename)
    (hshort : (lastName filename).length ≤ 22) (hfile : FileIs s filename file) {n : Nat}
    (hn : zenStrlen b.text b.cap = some n) (hsize : n < 2 ^ 31) (drive : Drive) (noise : Noise) :
    ∃ out t', zenSave drive noise s filename b = some out ∧ Fs out.state t' ∧
      (Room s filename n ∧ fileAt out.state filename = some ⟨flagFile, prefixOf b.text n⟩ ∨
        ¬Room s filename n ∧ fileAt out.state filename = none) := by
  have hthere := kfsExists_fileAt h.rep hp.1
  rw [hfile.fileAt] at hthere
  have hle : n ≤ 0xFFFFFE00 := by omega
  unfold zenSave
  rw [hthere, hn]
  cases file with
  | none =>
    obtain ⟨d, ha⟩ := hfile
    have hnone := fileAt_absent ha
    obtain ⟨out, t', hcreate, h', hcases⟩ := create_spec h hp ha hshort drive noise b.text hle
    refine ⟨out, t', by simp [hcreate], h', ?_⟩
    rcases hcases with ⟨hfits, -, hnew⟩ | ⟨hno, -, hnew⟩
    · refine Or.inl ⟨⟨fun old hold => ?_, fun d' ha' => ?_⟩, hnew⟩
      · rw [hnone] at hold
        cases hold
      · have heq := ha.1.symm.trans ha'.1
        simp only [Option.some.injEq, Prod.mk.injEq, and_true] at heq
        rwa [← heq]
    · exact Or.inr ⟨fun hroom => hno (hroom.2 d ha), hnew⟩
  | some old =>
    have hold : fileAt s filename = some ⟨flagFile, old⟩ := hfile
    obtain ⟨out₁, out₂, t', hdel, hcreate, h', hcases⟩ :=
      replace_spec h hp hshort hold drive noise b.text hle
    refine ⟨out₂, t', by simp [hdel, hcreate], h', ?_⟩
    rcases hcases with ⟨hfits, -, hnew⟩ | ⟨hno, -, hnew⟩
    · refine Or.inl ⟨⟨fun old' hold' => ?_, fun d ha => ?_⟩, hnew⟩
      · rw [hold] at hold'
        cases hold'
        exact hfits
      · rw [fileAt_absent ha] at hold
        cases hold
    · exact Or.inr ⟨fun hroom => hno (hroom.1 old hold), hnew⟩

/-! ## Sessions -/

theorem high_draftOf (file keys : List UInt8) :
    (draftOf file keys).text.length ≤ (draftOf file keys).high ∧
      (draftOf file keys).high ≤ file.length + keys.length := by
  unfold draftOf
  induction keys using List.reverseRecOn with
  | nil => exact ⟨le_refl _, le_refl _⟩
  | append_singleton keys c ih =>
    rw [List.foldl_append, List.length_append, List.length_singleton]
    obtain ⟨hlen, hhigh⟩ := ih
    have hpress := high_press _ c hlen
    simp only [List.foldl_cons, List.foldl_nil]
    exact ⟨length_press _ c hlen, by omega⟩

/-- What a session that ends after the keys `used` makes of the file: it is replaced by the text that
was typed when this has ended, and by nothing when the disk is full. A text that has not ended is
read past the end of its block if the heap gave no zero. -/
structure Saves (drive : Drive) (noise : Noise) (heaps : Nat → Heap) (s : State) (filename : CStr)
    (keys : List UInt8) (first : Nat) (d : Draft) (rest : List UInt8) : Prop where
  ended : d.Ended first → ∃ out t',
    zenMain drive noise heaps s filename keys = some (some (out, rest)) ∧ Fs out.state t' ∧
      (Room s filename d.text.length ∧ fileAt out.state filename = some ⟨flagFile, d.text⟩ ∨
        ¬Room s filename d.text.length ∧ fileAt out.state filename = none)
  open_ended : ¬d.Ended first → (∀ k n block, heaps k n = some block → ∀ i, block i ≠ 0) →
    zenMain drive noise heaps s filename keys = none

/-- The keys before the first ESC. -/
theorem Stops.used_eq {used : List UInt8} (h : Stops heaps d keys used c rest)
    (hheap : ∀ k n, heaps k n ≠ none) :
    used = keys.takeWhile (· ≠ escape) ∧ rest = (keys.dropWhile (· ≠ escape)).tail := by
  have hc : c = escape := h.stop.resolve_right fun hno => hheap _ _ hno.refused
  have hused : ∀ k ∈ used, (decide (k ≠ escape)) = true := by
    intro k hk
    exact decide_eq_true fun heq => h.before.typed (heq ▸ hk)
  rw [h.split, hc, List.takeWhile_append_of_pos hused, List.dropWhile_append_of_pos hused]
  simp

/-- A heap that always answers. -/
def zeroHeaps : Nat → Heap := fun _ _ => some fun _ => 0

/-- `"hi"`, a backspace, `"o"` and ESC. -/
def someKeys : List UInt8 := [104, 105, 8, 111, 27]

end Kyuzen.Zen
