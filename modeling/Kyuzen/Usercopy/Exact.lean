import Kyuzen.Paging.Map
import Kyuzen.Usercopy.Model

/-!
# Which pointers are accepted

`user_range_ok` looks at one address of each page, and its loop ends at the last page by an equality
test. For a range that does not wrap around these are all the bytes (`user_range_exact`), in the
form in which the window syscalls use it (`userRangeOk_eq`).

`strncpy_from_user` checks a page when it reads the first byte of it. The loop is described by the
index at which it stops (`userLoop_cases`): the bytes before it are readable and not zero, and
the one there is not readable, or zero, or one too many.
-/

namespace Kyuzen.Usercopy

open Lib.Memory
open Kwm (ucMaxRange ucUserVaMax)
open Paging (translate pagingIsMappedInto targetPml4)

variable {ctx : Ctx} {s : Paging.State} {uaddr len : Nat}

/-- The byte is in the user's half, in a page that is mapped for the caller. -/
def Readable (ctx : Ctx) (s : Paging.State) (a : Nat) : Prop :=
  a < ucUserVaMax ∧ ∃ r, targetPml4 s ctx.pml4 = some r ∧ (translate s r a).isSome = true

theorem pagingIsMappedInto_page (s : Paging.State) (a pml4 : Nat) :
    pagingIsMappedInto s (a / 4096 * 4096) pml4 = pagingIsMappedInto s a pml4 := by
  have h4 : Paging.pml4Idx (a / 4096 * 4096) = Paging.pml4Idx a := by
    unfold Paging.pml4Idx
    congr 1
    omega
  have h3 : Paging.pdptIdx (a / 4096 * 4096) = Paging.pdptIdx a := by
    unfold Paging.pdptIdx
    congr 1
    omega
  have h2 : Paging.pdIdx (a / 4096 * 4096) = Paging.pdIdx a := by
    unfold Paging.pdIdx
    congr 1
    omega
  have h1 : Paging.ptIdx (a / 4096 * 4096) = Paging.ptIdx a := by
    unfold Paging.ptIdx
    congr 1
    omega
  unfold pagingIsMappedInto
  rw [h4, h3, h2, h1]

theorem isMapped_iff (s : Paging.State) (a pml4 : Nat) : pagingIsMappedInto s a pml4 = true ↔
    ∃ r, targetPml4 s pml4 = some r ∧ (translate s r a).isSome = true := by
  cases ht : targetPml4 s pml4 with
  | none =>
    unfold pagingIsMappedInto
    rw [ht]
    simp
  | some r =>
    rw [Paging.isMapped_eq ht]
    simp

theorem readable_iff (a : Nat) :
    Readable ctx s a ↔ a < ucUserVaMax ∧ pagingIsMappedInto s a ctx.pml4 = true := by
  rw [isMapped_iff]
  rfl

/-! ## Ranges -/

theorem pageLoop_eq (s : Paging.State) (pml4 last : Nat) : ∀ (n fuel p : Nat),
    last = p + 4096 * n → last < 2 ^ 64 → n < fuel → pageLoop s pml4 last fuel p =
      some ((List.range (n + 1)).all fun i => pagingIsMappedInto s (p + 4096 * i) pml4) := by
  intro n
  induction n with
  | zero =>
    intro fuel p hlast _ hfuel
    obtain ⟨k, rfl⟩ := Nat.exists_eq_succ_of_ne_zero (Nat.ne_zero_of_lt hfuel)
    rw [Nat.mul_zero, Nat.add_zero] at hlast
    rw [pageLoop, if_pos hlast.symm]
    cases h : pagingIsMappedInto s p pml4 <;> simp [h]
  | succ n ih =>
    intro fuel p hlast hlt hfuel
    obtain ⟨k, rfl⟩ := Nat.exists_eq_succ_of_ne_zero (Nat.ne_zero_of_lt hfuel)
    have hne : p ≠ last := by omega
    have hnext : (p + 0x1000) % 2 ^ 64 = p + 4096 := Nat.mod_eq_of_lt (by omega)
    have hrange : List.range (n + 1 + 1) = 0 :: (List.range (n + 1)).map Nat.succ :=
      List.range_succ_eq_map
    have hshift : ((fun i => pagingIsMappedInto s (p + 4096 * i) pml4) ∘ Nat.succ) =
        fun i => pagingIsMappedInto s (p + 4096 + 4096 * i) pml4 := by
      funext i
      show pagingIsMappedInto s (p + 4096 * (i + 1)) pml4 = _
      rw [Nat.mul_succ, Nat.add_comm (4096 * i), Nat.add_assoc]
    rw [pageLoop, if_neg hne, hnext, ih k (p + 4096) (by omega) hlt (by omega), hrange,
      List.all_cons, List.all_map, hshift, Nat.mul_zero, Nat.add_zero]
    cases pagingIsMappedInto s p pml4 <;> rfl

/-- The loop ends, and computes what the window syscalls take for `user_range_ok`. -/
theorem userRangeOk_eq (ctx : Ctx) (s : Paging.State) (hu : uaddr < 2 ^ 64) :
    userRangeOk ctx s uaddr len =
      some (Kwm.userRangeOk ⟨ctx.fromUser, fun va => pagingIsMappedInto s va ctx.pml4⟩
        uaddr len) := by
  have hend : ucUserVaMax = 140737488355328 := rfl
  unfold userRangeOk Kwm.userRangeOk
  dsimp only
  split_ifs with h1 h2 h3 h4 h5 h6 h7 h8 h9
  all_goals try rfl
  all_goals try simp_all
  apply pageLoop_eq
  · omega
  · omega
  · unfold pageFuel
    omega

/-- For a caller in ring 3 the checks speak about every byte of the range. -/
theorem userRangeOk_iff (hring : ctx.fromUser = true) (hu : uaddr < 2 ^ 64) (hpos : 0 < len) :
    userRangeOk ctx s uaddr len = some true ↔ uaddr ≠ 0 ∧ len ≤ ucMaxRange ∧
      ∀ a, uaddr ≤ a → a < uaddr + len → Readable ctx s a := by
  have hend : ucUserVaMax = 140737488355328 := rfl
  rw [userRangeOk_eq ctx s hu, Option.some_inj]
  unfold Kwm.userRangeOk
  dsimp only
  constructor
  · intro h
    split_ifs at h with h0 hlen hmax hwrap hkernel hhigh
    · omega
    · rw [hring] at hkernel
      cases hkernel
    · refine ⟨h0, by omega, ?_⟩
      intro a hlo hhi
      rw [List.all_eq_true] at h
      have hpage := h ((a / 4096 * 4096 - uaddr / 4096 * 4096) / 4096)
        (List.mem_range.mpr (by omega))
      have ha : uaddr / 4096 * 4096 + 4096 * ((a / 4096 * 4096 - uaddr / 4096 * 4096) / 4096) =
          a / 4096 * 4096 := by omega
      rw [ha, pagingIsMappedInto_page] at hpage
      exact readable_iff a |>.mpr ⟨by omega, hpage⟩
  · rintro ⟨h0, hmax, hall⟩
    have hlast := (hall (uaddr + len - 1) (by omega) (by omega)).1
    rw [if_neg h0, if_neg (by omega), if_neg (by omega), if_neg (by omega), hring,
      if_neg (by decide), if_neg (by omega), List.all_eq_true]
    intro i hi
    have hi := List.mem_range.mp hi
    -- the page starts in the range, or it is the one of `uaddr`
    have hbyte := hall (max uaddr (uaddr / 4096 * 4096 + 4096 * i)) (by omega) (by omega)
    have hpage : max uaddr (uaddr / 4096 * 4096 + 4096 * i) / 4096 * 4096 =
        uaddr / 4096 * 4096 + 4096 * i := by omega
    rw [← hpage, pagingIsMappedInto_page]
    exact ((readable_iff _).mp hbyte).2

theorem mem_addresses {a n x : Nat} (hx : x ∈ addresses a n) (hend : a + n ≤ 2 ^ 64) :
    a ≤ x ∧ x < a + n := by
  obtain ⟨i, hi, rfl⟩ := List.mem_map.mp hx
  have hi := List.mem_range.mp hi
  rw [Nat.mod_eq_of_lt (by omega)]
  omega

/-- A range that is accepted is touched only where the caller may touch it. -/
theorem addresses_readable (hring : ctx.fromUser = true) (hu : uaddr < 2 ^ 64)
    (hok : userRangeOk ctx s uaddr len = some true) {a : Nat} (ha : a ∈ addresses uaddr len) :
    Readable ctx s a := by
  have hend : ucUserVaMax = 140737488355328 := rfl
  by_cases hpos : 0 < len
  · obtain ⟨-, -, hall⟩ := (userRangeOk_iff hring hu hpos).mp hok
    have hlast := (hall (uaddr + len - 1) (by omega) (by omega)).1
    obtain ⟨hlo, hhi⟩ := mem_addresses ha (by omega)
    exact hall a hlo hhi
  · rw [Nat.eq_zero_of_not_pos hpos] at ha
    cases ha

/-- A copy ends, and touches only bytes that the caller may touch. -/
def Safe (ctx : Ctx) (s : Paging.State) (out : Option Copied) : Prop :=
  ∃ c, out = some c ∧ ∀ a ∈ c.touched, a < ucUserVaMax ∧ (translate s ctx.pml4 a).isSome = true

theorem readable_private (hpriv : ctx.pml4 ≠ Pmm.physNull) (a : Nat) :
    Readable ctx s a ↔ a < ucUserVaMax ∧ (translate s ctx.pml4 a).isSome = true := by
  have htarget : targetPml4 s ctx.pml4 = some ctx.pml4 := if_pos hpriv
  unfold Readable
  rw [htarget]
  simp

/-- For a caller in ring 3 with tables of its own, the check accepts exactly the ranges whose bytes
are all in the user's half and mapped, and the copies touch nothing else. -/
theorem user_range_exact (hring : ctx.fromUser = true) (hpriv : ctx.pml4 ≠ Pmm.physNull)
    (s : Paging.State) (hu : uaddr < 2 ^ 64) :
    (0 < len → ∃ ok, userRangeOk ctx s uaddr len = some ok ∧
      (ok = true ↔ uaddr ≠ 0 ∧ len ≤ ucMaxRange ∧ ∀ a, uaddr ≤ a → a < uaddr + len →
        a < ucUserVaMax ∧ (translate s ctx.pml4 a).isSome = true)) ∧
    (∀ user kbuf, Safe ctx s (copyFromUser ctx s user kbuf uaddr len)) ∧
    (∀ user kbuf, Safe ctx s (copyToUser ctx s user uaddr kbuf len)) := by
  obtain ⟨ok, hok⟩ : ∃ ok, userRangeOk ctx s uaddr len = some ok := ⟨_, userRangeOk_eq ctx s hu⟩
  refine ⟨?_, ?_, ?_⟩
  · intro hpos
    refine ⟨ok, hok, ?_⟩
    have hiff := userRangeOk_iff (s := s) hring hu hpos
    rw [hok, Option.some_inj] at hiff
    rw [hiff]
    simp only [readable_private hpriv]
  · intro user kbuf
    unfold copyFromUser
    rw [hok]
    cases ok with
    | false => exact ⟨_, rfl, fun a ha => absurd ha List.not_mem_nil⟩
    | true => exact ⟨_, rfl, fun a ha =>
        (readable_private hpriv a).mp (addresses_readable hring hu hok ha)⟩
  · intro user kbuf
    unfold copyToUser
    rw [hok]
    cases ok with
    | false => exact ⟨_, rfl, fun a ha => absurd ha List.not_mem_nil⟩
    | true => exact ⟨_, rfl, fun a ha =>
        (readable_private hpriv a).mp (addresses_readable hring hu hok ha)⟩

/-- Tables at 0x1000 that map only the page at 0x400000. -/
def onePageMem (n : Nat) (i : Fin 512) : Nat :=
  if n = 0x1000 ∧ i = 0 then 0x2007
  else if n = 0x2000 ∧ i = 0 then 0x3007
  else if n = 0x3000 ∧ i = 2 then 0x4007
  else if n = 0x4000 ∧ i = 0 then 0x5007
  else 0

def onePage : Paging.State := ⟨Paging.smallPmm, onePageMem, some 0x1000, 0x1000, []⟩

def ring3 : Ctx := ⟨true, 0x1000⟩

/-- A range that ends with the last byte of the page is accepted. -/
theorem user_range_exact_onePage :
    userRangeOk ring3 onePage 0x400F00 0x100 = some true ∧
      Safe ring3 onePage (copyFromUser ring3 onePage (fun _ => 7) (fun _ => 0) 0x400F00 0x100) :=
  ⟨by decide, (user_range_exact rfl (by decide) onePage (by decide)).2.1 _ _⟩

/-! ## Strings -/

variable {user kdst : Mem} {usrc cap : Nat}

/-- The bytes before index `i` of the string, with `kdst` behind them. -/
def copied (user kdst : Mem) (usrc i : Nat) : Mem := fun j =>
  if j < i then user (usrc + j) else kdst j

def reads (usrc i : Nat) : List Nat := (List.range i).map (usrc + ·)

theorem copied_succ (user kdst : Mem) (usrc i : Nat) :
    Function.update (copied user kdst usrc i) i (user (usrc + i)) =
      copied user kdst usrc (i + 1) := by
  funext j
  unfold copied
  by_cases hj : j = i
  · subst hj
    rw [Function.update_self, if_pos (by omega)]
  · rw [Function.update_of_ne hj]
    by_cases hlt : j < i
    · rw [if_pos hlt, if_pos (by omega)]
    · rw [if_neg hlt, if_neg (by omega)]

theorem reads_succ (usrc i : Nat) : reads usrc i ++ [usrc + i] = reads usrc (i + 1) := by
  unfold reads
  rw [List.range_succ, List.map_append]
  rfl

/-- Index `i` is a byte of the string that can be read. -/
def Plain (ctx : Ctx) (s : Paging.State) (user : Mem) (usrc i : Nat) : Prop :=
  Readable ctx s (usrc + i) ∧ user (usrc + i) ≠ 0

/-- How the loop ends that has copied the bytes before index `e`. -/
inductive Stops (ctx : Ctx) (s : Paging.State) (user kdst : Mem) (usrc limit : Nat) (e : Nat) :
    Copied → Prop where
  | fault : e < limit → ¬ Readable ctx s (usrc + e) →
      Stops ctx s user kdst usrc limit e ⟨-1, copied user kdst usrc e, reads usrc e⟩
  | nul : e < limit → Readable ctx s (usrc + e) → user (usrc + e) = 0 →
      Stops ctx s user kdst usrc limit e
        (terminate (copied user kdst usrc e) e (reads usrc (e + 1)))
  | full : e = limit →
      Stops ctx s user kdst usrc limit e (terminate (copied user kdst usrc e) e (reads usrc e))

/-- The induction is on the bytes that are left; the page of the byte before, if there is one,
has been checked. -/
theorem userLoop_cases (ctx : Ctx) (s : Paging.State) (user kdst : Mem) (hu : usrc < 2 ^ 64) :
    ∀ (n i checkedPage : Nat), (∀ j < i, Plain ctx s user usrc j) →
    (checkedPage % 4096 = 0 → checkedPage < ucUserVaMax ∧
      pagingIsMappedInto s checkedPage ctx.pml4 = true) →
    ∃ e, (∀ j < e, Plain ctx s user usrc j) ∧ Stops ctx s user kdst usrc (i + n) e
      (userLoop ctx s user usrc n i checkedPage (copied user kdst usrc i) (reads usrc i)) := by
  have hend : ucUserVaMax = 140737488355328 := rfl
  intro n
  induction n with
  | zero =>
    intro i checkedPage hplain _
    exact ⟨i, hplain, .full rfl⟩
  | succ n ih =>
    intro i checkedPage hplain hchecked
    -- the bytes before are below the end of the user's half
    have hi : i < 2 ^ 48 := by
      by_contra hge
      have := (hplain (i - 1) (by omega)).1.1
      omega
    rw [userLoop]
    dsimp only
    by_cases hwrap : (usrc + i) % 2 ^ 64 < usrc
    · rw [if_pos hwrap]
      refine ⟨i, hplain, .fault (by omega) ?_⟩
      rintro ⟨hlt, -⟩
      omega
    · have haddr : (usrc + i) % 2 ^ 64 = usrc + i := Nat.mod_eq_of_lt (by omega)
      rw [if_neg hwrap, haddr]
      by_cases hread : Readable ctx s (usrc + i)
      · have hmapped := (readable_iff _).mp hread
        have hpage : (usrc + i) / 4096 * 4096 < ucUserVaMax ∧
            pagingIsMappedInto s ((usrc + i) / 4096 * 4096) ctx.pml4 = true := by
          rw [pagingIsMappedInto_page]
          exact ⟨by omega, hmapped.2⟩
        rw [if_neg (by omega), hpage.2, if_neg (by simp)]
        by_cases hnul : user (usrc + i) = 0
        · rw [if_pos hnul, reads_succ]
          exact ⟨i, hplain, .nul (by omega) hread hnul⟩
        · rw [if_neg hnul, reads_succ, copied_succ]
          have hplain' : ∀ j < i + 1, Plain ctx s user usrc j := by
            intro j hj
            rcases Nat.lt_succ_iff_lt_or_eq.mp hj with hj | rfl
            · exact hplain j hj
            · exact ⟨hread, hnul⟩
          obtain ⟨e, he, hstop⟩ := ih (i + 1) ((usrc + i) / 4096 * 4096) hplain' fun _ => hpage
          rw [show i + (n + 1) = i + 1 + n by omega]
          exact ⟨e, he, hstop⟩
      · have hfault : Stops ctx s user kdst usrc (i + (n + 1)) i
            ⟨-1, copied user kdst usrc i, reads usrc i⟩ := .fault (by omega) hread
        have hbad : (usrc + i) / 4096 * 4096 ≠ checkedPage ∧
            ((usrc + i) / 4096 * 4096 ≥ ucUserVaMax ∨
              pagingIsMappedInto s ((usrc + i) / 4096 * 4096) ctx.pml4 = false) := by
          rw [readable_iff, ← pagingIsMappedInto_page] at hread
          refine ⟨?_, ?_⟩
          · rintro rfl
            obtain ⟨hlt, hmapped⟩ := hchecked (Nat.mul_mod_left _ _)
            exact hread ⟨by omega, hmapped⟩
          · by_cases hlt : usrc + i < ucUserVaMax
            · right
              rw [← Bool.not_eq_true]
              exact fun h => hread ⟨hlt, h⟩
            · left
              omega
        refine ⟨i, hplain, ?_⟩
        by_cases hhigh : (usrc + i) / 4096 * 4096 ≥ ucUserVaMax
        · rw [if_pos ⟨hbad.1, hhigh⟩]
          exact hfault
        · rw [if_neg fun h => hhigh h.2, hbad.2.resolve_left hhigh, if_pos ⟨hbad.1, rfl⟩]
          exact hfault

/-- Index `j` has to be read: there is room for its byte, and no NUL before it. -/
def Needed (user : Mem) (usrc cap j : Nat) : Prop := j + 1 < cap ∧ ∀ i < j, user (usrc + i) ≠ 0

/-- The string has been copied: `n` bytes, up to its NUL or to the size of the buffer. -/
structure StringCopied (user kdst : Mem) (usrc cap n : Nat) (dst : Mem) : Prop where
  plain : ∀ j < n, user (usrc + j) ≠ 0
  stop : n + 1 = cap ∨ n + 1 < cap ∧ user (usrc + n) = 0
  bytes : ∀ j < n, dst j = user (usrc + j)
  nul : dst n = 0
  behind : ∀ j, n < j → dst j = kdst j

/-- What `strncpy_from_user` does for a caller in ring 3. -/
structure StrncpyOk (ctx : Ctx) (s : Paging.State) (user kdst : Mem) (usrc cap : Nat)
    (c : Copied) : Prop where
  touched : ∀ a ∈ c.touched, ∃ j, Needed user usrc cap j ∧ a = usrc + j ∧ Readable ctx s a
  fails_iff : c.ret = -1 ↔ usrc = 0 ∨ ∃ j, Needed user usrc cap j ∧ ¬ Readable ctx s (usrc + j)
  done : c.ret ≠ -1 → ∃ n : Nat, c.ret = n ∧ StringCopied user kdst usrc cap n c.dst
  behind : ∀ j, cap ≤ j → c.dst j = kdst j

theorem mem_reads {a i : Nat} (h : a ∈ reads usrc i) : ∃ j < i, a = usrc + j := by
  obtain ⟨j, hj, rfl⟩ := List.mem_map.mp h
  exact ⟨j, List.mem_range.mp hj, rfl⟩

theorem stringCopied_terminate {e : Nat} (kdst : Mem) (hplain : ∀ j < e, Plain ctx s user usrc j)
    (hstop : e + 1 = cap ∨ e + 1 < cap ∧ user (usrc + e) = 0) (touched : List Nat) :
    StringCopied user kdst usrc cap e (terminate (copied user kdst usrc e) e touched).dst := by
  refine ⟨fun j hj => (hplain j hj).2, hstop, ?_, Function.update_self .., ?_⟩
  · intro j hj
    exact (Function.update_of_ne (by omega) _ _).trans (if_pos hj)
  · intro j hj
    exact (Function.update_of_ne (by omega) _ _).trans (if_neg (by omega))

theorem Stops.strncpyOk {e : Nat} {c : Copied} (hnull : usrc ≠ 0) (hcap : 1 ≤ cap)
    (hplain : ∀ j < e, Plain ctx s user usrc j)
    (h : Stops ctx s user kdst usrc (cap - 1) e c) : StrncpyOk ctx s user kdst usrc cap c := by
  -- a byte that has to be read and cannot be read stops the loop
  have hbefore : ∀ j, Needed user usrc cap j → ¬ Readable ctx s (usrc + j) → e ≤ j := by
    intro j _ hbad
    by_contra hlt
    exact hbad (hplain j (by omega)).1
  have hneeded : ∀ j, j ≤ e → j + 1 < cap → Needed user usrc cap j := fun j hj hlt =>
    ⟨hlt, fun i hi => (hplain i (by omega)).2⟩
  have hback : ∀ j, cap ≤ j → ¬ j < e → copied user kdst usrc e j = kdst j :=
    fun j _ hj => if_neg hj
  cases h with
  | fault hlt hbad =>
    refine ⟨?_, ⟨fun _ => Or.inr ⟨e, hneeded e (le_refl e) (by omega), hbad⟩, fun _ => rfl⟩,
      fun h => absurd rfl h, fun j hj => hback j hj (by omega)⟩
    intro a ha
    obtain ⟨j, hj, rfl⟩ := mem_reads ha
    exact ⟨j, hneeded j (by omega) (by omega), rfl, (hplain j hj).1⟩
  | nul hlt hread hnul =>
    have hstr := stringCopied_terminate kdst hplain (Or.inr ⟨by omega, hnul⟩ :
      e + 1 = cap ∨ e + 1 < cap ∧ user (usrc + e) = 0) (reads usrc (e + 1))
    refine ⟨?_, ⟨fun h => ?_, ?_⟩, fun _ => ⟨e, rfl, hstr⟩, fun j hj => hstr.behind j (by omega)⟩
    · intro a ha
      obtain ⟨j, hj, rfl⟩ := mem_reads ha
      refine ⟨j, hneeded j (by omega) (by omega), rfl, ?_⟩
      rcases Nat.lt_succ_iff_lt_or_eq.mp hj with hj | rfl
      · exact (hplain j hj).1
      · exact hread
    · have : (e : Int) = -1 := h
      omega
    · rintro (h0 | ⟨j, hj, hbad⟩)
      · exact absurd h0 hnull
      · rcases Nat.eq_or_lt_of_le (hbefore j hj hbad) with rfl | hlt
        · exact absurd hread hbad
        · exact absurd hnul (hj.2 e hlt)
  | full he =>
    have hstr := stringCopied_terminate kdst hplain (Or.inl (by omega) :
      e + 1 = cap ∨ e + 1 < cap ∧ user (usrc + e) = 0) (reads usrc e)
    refine ⟨?_, ⟨fun h => ?_, ?_⟩, fun _ => ⟨e, rfl, hstr⟩, fun j hj => hstr.behind j (by omega)⟩
    · intro a ha
      obtain ⟨j, hj, rfl⟩ := mem_reads ha
      exact ⟨j, hneeded j (by omega) (by omega), rfl, (hplain j hj).1⟩
    · have : (e : Int) = -1 := h
      omega
    · rintro (h0 | ⟨j, hj, hbad⟩)
      · exact absurd h0 hnull
      · have := hbefore j hj hbad
        have := hj.1
        omega

/-- For a caller in ring 3 the string is read up to its NUL or to the size of the buffer, and the
call fails exactly when one of these bytes cannot be read. -/
theorem strncpy_exact (hring : ctx.fromUser = true) (s : Paging.State) (user kdst : Mem)
    (hu : usrc < 2 ^ 64) (hcap : 1 ≤ cap) :
    StrncpyOk ctx s user kdst usrc cap (strncpyFromUser ctx s user kdst usrc cap) := by
  unfold strncpyFromUser
  by_cases hnull : usrc = 0
  · rw [if_pos (Or.inl hnull)]
    exact ⟨fun a ha => absurd ha List.not_mem_nil, ⟨fun _ => Or.inl hnull, fun _ => rfl⟩,
      fun h => absurd rfl h, fun _ _ => rfl⟩
  · rw [if_neg (by omega), hring, if_neg (by decide)]
    obtain ⟨e, hplain, hstop⟩ := userLoop_cases ctx s user kdst hu (cap - 1) 0 1
      (fun j hj => absurd hj (Nat.not_lt_zero j)) (fun h => absurd h (by decide))
    rw [Nat.zero_add] at hstop
    have hzero : copied user kdst usrc 0 = kdst := by
      funext j
      exact if_neg (Nat.not_lt_zero j)
    rw [hzero] at hstop
    exact hstop.strncpyOk hnull hcap hplain

/-- A string of one byte at the end of the last page. -/
def lastString (a : Nat) : UInt8 := if a = 0x400FFE then 65 else 0

theorem strncpy_exact_onePage :
    (strncpyFromUser ring3 onePage lastString (fun _ => 7) 0x400FFE 64).ret = 1 ∧
      StrncpyOk ring3 onePage lastString (fun _ => 7) 0x400FFE 64
        (strncpyFromUser ring3 onePage lastString (fun _ => 7) 0x400FFE 64) :=
  ⟨by decide, strncpy_exact rfl onePage _ _ (by decide) (by decide)⟩

end Kyuzen.Usercopy
