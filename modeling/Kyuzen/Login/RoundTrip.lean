import Mathlib.Data.List.TakeWhile
import Kyuzen.Login.Model

/-!
# The password that was set logs in

What `first_time_setup` has written is read back by `parse_auth` after any calls that leave
`users.sys` alone. If the password has no colon, root logs in with it as user 0, and nobody else
does (`login_after_setup`). A colon ends the password in the file: then the password as it was typed
is refused, the part before the colon is accepted, and the user number is made of what follows; if
14 characters or more follow, `f_uid` overflows at every attempt (`colon_locks_out`).
-/

namespace Kyuzen.Login

open Kfs Lib.Memory

variable {line pass user text : CStr} {keys rest : List UInt8}

/-! ## Lines -/

/-- What a line consists of. -/
structure Typed (line : CStr) : Prop where
  fits : line.length ≤ 31
  nul : 0 ∉ line
  newline : newline ∉ line

theorem Typed.dropLast (h : Typed line) : Typed line.dropLast where
  fits := by
    rw [List.length_dropLast]
    exact (Nat.sub_le _ _).trans h.fits
  nul hmem := h.nul (List.mem_of_mem_dropLast hmem)
  newline hmem := h.newline (List.mem_of_mem_dropLast hmem)

theorem Typed.snoc (h : Typed line) {c : UInt8} (hlen : line.length < 31) (hc : c ≠ 0)
    (hn : c ≠ Login.newline) : Typed (line ++ [c]) := by
  refine ⟨?_, ?_, ?_⟩
  · rw [List.length_append, List.length_singleton]
    exact hlen
  · simp [h.nul, Ne.symm hc]
  · simp [h.newline, Ne.symm hn]

/-- A line that is read has at most 31 characters, none of which is NUL or Enter. -/
theorem readLine_typed (h : Typed line) (hkeys : 0 ∉ keys)
    (hread : readLine line keys = some (pass, rest)) :
    Typed pass ∧ rest.length < keys.length ∧ 0 ∉ rest := by
  induction keys generalizing line with
  | nil => cases hread
  | cons c keys ih =>
    have hc : c ≠ 0 := fun heq => hkeys (heq ▸ List.mem_cons_self)
    have hrest : 0 ∉ keys := fun hmem => hkeys (List.mem_cons_of_mem _ hmem)
    rw [readLine] at hread
    split_ifs at hread with hn hb hlen
    · cases hread
      exact ⟨h, Nat.lt_succ_self _, hrest⟩
    · obtain ⟨hp, hlt, hnul⟩ := ih h.dropLast hrest hread
      exact ⟨hp, Nat.lt_succ_of_lt hlt, hnul⟩
    · obtain ⟨hp, hlt, hnul⟩ := ih (h.snoc hlen hc hn) hrest hread
      exact ⟨hp, Nat.lt_succ_of_lt hlt, hnul⟩
    · obtain ⟨hp, hlt, hnul⟩ := ih h hrest hread
      exact ⟨hp, Nat.lt_succ_of_lt hlt, hnul⟩

/-! ## Fields -/

theorem strMatch_iff {s t : CStr} : strMatch s t = true ↔ s = t := by
  induction s generalizing t with
  | nil => cases t <;> simp [strMatch]
  | cons c s ih => cases t <;> simp [strMatch, ih]

/-- A field, and the text after the character that ends it. -/
theorem field_eq {stop : UInt8} {size : Nat} {f : CStr} (hf : stop ∉ f) (hsize : f.length < size)
    (text : List UInt8) : field stop size (f ++ stop :: text) = some (f, text) := by
  have hall : ∀ c ∈ f, decide (c ≠ stop) = true := by
    intro c hc
    exact decide_eq_true fun heq => hf (heq ▸ hc)
  have htake : (f ++ stop :: text).takeWhile (· ≠ stop) = f := by
    rw [List.takeWhile_append_of_pos hall, List.takeWhile_cons_of_neg (by simp), List.append_nil]
  have hdrop : (f ++ stop :: text).dropWhile (· ≠ stop) = stop :: text := by
    rw [List.dropWhile_append_of_pos hall, List.dropWhile_cons_of_neg (by simp)]
  unfold field
  dsimp only
  rw [htake, hdrop, if_pos hsize]
  rfl

theorem field_overflow {stop : UInt8} {size : Nat} {f : CStr} (hf : stop ∉ f)
    (hsize : size ≤ f.length) (text : List UInt8) : field stop size (f ++ stop :: text) = none := by
  have hall : ∀ c ∈ f, decide (c ≠ stop) = true := by
    intro c hc
    exact decide_eq_true fun heq => hf (heq ▸ hc)
  have htake : (f ++ stop :: text).takeWhile (· ≠ stop) = f := by
    rw [List.takeWhile_append_of_pos hall, List.takeWhile_cons_of_neg (by simp), List.append_nil]
  unfold field
  dsimp only
  rw [htake, if_neg (not_lt.mpr hsize)]

/-! ## The file of a password -/

/-- The file of a password without a colon has one line. -/
theorem authLoop_plain (hp : Typed pass) (hcolon : colon ∉ pass) (user given : CStr) (fuel : Nat) :
    authLoop user given (fuel + 1) (setupData pass) =
      some (if user = root ∧ given = pass then some 0 else none) := by
  have hdata : setupData pass = root ++ colon :: (pass ++ colon :: ([48] ++ newline :: [])) := by
    simp [setupData]
  rw [authLoop, hdata, if_neg (by simp [root]), field_eq (by decide) (by decide)]
  simp only [Option.bind_eq_bind, Option.bind_some]
  rw [field_eq hcolon (hp.fits.trans_lt (by decide))]
  simp only [Option.bind_some]
  rw [field_eq (by decide) (by decide)]
  simp only [Option.bind_some, Bool.and_eq_true, strMatch_iff]
  split_ifs
  · rfl
  · cases fuel <;> rfl

/-- The password of a file ends at a colon. -/
theorem authLoop_colon {a b : CStr} (hp : Typed (a ++ colon :: b)) (ha : colon ∉ a)
    (user given : CStr) (fuel : Nat) :
    authLoop user given (fuel + 1) (setupData (a ++ colon :: b)) =
      if b.length < 14 then
        some (if user = root ∧ given = a then some (parseUid (b ++ [colon, 48])) else none)
      else none := by
  have hdata : setupData (a ++ colon :: b) =
      root ++ colon :: (a ++ colon :: ((b ++ [colon, 48]) ++ newline :: [])) := by
    simp [setupData]
  have hb : newline ∉ b ++ [colon, 48] := by
    intro hmem
    rcases List.mem_append.mp hmem with hmem | hmem
    · exact hp.newline (List.mem_append_right _ (List.mem_cons_of_mem _ hmem))
    · revert hmem
      decide
  have hfits := hp.fits
  rw [List.length_append, List.length_cons] at hfits
  have hlen : (b ++ [colon, 48]).length = b.length + 2 := by simp
  rw [authLoop, hdata, if_neg (by simp [root]), field_eq (by decide) (by decide)]
  simp only [Option.bind_eq_bind, Option.bind_some]
  rw [field_eq ha (by omega)]
  simp only [Option.bind_some]
  by_cases hshort : b.length < 14
  · rw [field_eq hb (by omega), if_pos hshort]
    simp only [Option.bind_some, Bool.and_eq_true, strMatch_iff]
    split_ifs
    · rfl
    · cases fuel <;> rfl
  · rw [field_overflow hb (by omega), if_neg hshort]
    rfl

/-! ## The file system -/

theorem kfsExists_of_size {s : State} {path : CStr} {n : Nat}
    (h : kfsGetFileSize s path = some n) (hn : n ≠ 0) : kfsExists s path = some 1 := by
  unfold kfsGetFileSize at h
  unfold kfsExists
  cases hsplit : splitLast s path with
  | none =>
    rw [hsplit] at h
    cases h
  | some r =>
    rw [hsplit] at h
    cases r with
    | none =>
      cases h
      exact absurd rfl hn
    | some r =>
      simp only [Option.bind_eq_bind, Option.bind_some] at h ⊢
      cases hfind : findEntryIn s r.1 r.2 with
      | none =>
        rw [hfind] at h
        cases h
      | some e =>
        rw [hfind] at h
        cases e with
        | none =>
          cases h
          exact absurd rfl hn
        | some e => rfl

theorem setupData_nul (h : Typed pass) : 0 ∉ setupData pass := by
  intro hmem
  unfold setupData at hmem
  rcases List.mem_append.mp hmem with hmem | hmem
  · rcases List.mem_append.mp hmem with hmem | hmem
    · revert hmem
      decide
    · exact h.nul hmem
  · revert hmem
    decide

theorem setupData_length (pass : CStr) : (setupData pass).length = pass.length + 8 := by
  simp [setupData, root]

/-- The file `users.sys` as it was set up. -/
structure SetUp (drive : Drive) (pass : CStr) (s' : State) : Prop where
  room : drive.HasRoom
  created : ∃ s noise out, Reach drive ShortCreate s ∧
    firstTimeSetup drive noise s pass = some out ∧ out.ret = 1 ∧ Later drive (components usersFile) out.state s'

/-- `parse_auth` works on what was written. -/
theorem SetUp.parseAuth_eq {drive : Drive} {s' : State} (h : SetUp drive pass s') (hp : Typed pass)
    (stack : Mem) (user given : CStr) :
    parseAuth s' stack user given =
      authLoop user given (setupData pass).length (setupData pass) := by
  obtain ⟨s, noise, out, hreach, hrun, hret, hlater⟩ := h.created
  have hlen := setupData_length pass
  have hfits := hp.fits
  obtain ⟨hsize, hread⟩ := file_round_trip h.room hreach (by decide) (by decide) (by decide)
    (by omega) hrun hret hlater
  obtain ⟨buffer, hbuffer, hdata, -⟩ := hread stack 1024 (by omega)
  have hexists := kfsExists_of_size hsize (by omega)
  have htext : (List.range (setupData pass).length).map buffer = setupData pass := by
    apply List.ext_getElem
    · simp
    · intro i hi hi'
      rw [List.getElem_map, List.getElem_range, hdata i hi', List.getD_eq_getElem _ _ hi']
  have hall : ∀ c ∈ setupData pass, decide (c ≠ 0) = true := by
    intro c hc
    exact decide_eq_true fun heq => setupData_nul hp (heq ▸ hc)
  unfold parseAuth
  rw [hexists, hsize, hbuffer]
  simp only [Option.bind_eq_bind, Option.bind_some]
  rw [if_neg (by decide), if_pos (by omega), htext, List.takeWhile_eq_self_iff.mpr hall]

/-! ## The login -/

/-- The pairs of lines that are read. -/
def attempts : Nat → List UInt8 → List (CStr × CStr)
  | 0, _ => []
  | fuel + 1, keys =>
    match readLine [] keys with
    | none => []
    | some (user, keys) =>
      match readLine [] keys with
      | none => []
      | some (pass, keys) => (user, pass) :: attempts fuel keys

/-- When `parse_auth` accepts one pair of lines, the login waits for it. -/
theorem loginLoop_eq {s' : State} {p : CStr × CStr} {uid : Nat}
    (h : ∀ stack user given, parseAuth s' stack user given =
      some (if user = p.1 ∧ given = p.2 then some uid else none))
    (stack : Nat → Mem) (fuel : Nat) (keys : List UInt8) :
    loginLoop s' stack fuel keys = some (if p ∈ attempts fuel keys then some uid else none) := by
  induction fuel generalizing keys with
  | zero => rfl
  | succ fuel ih =>
    cases hu : readLine [] keys with
    | none => simp [loginLoop, attempts, hu]
    | some r =>
      obtain ⟨user, keys'⟩ := r
      cases hp : readLine [] keys' with
      | none => simp [loginLoop, attempts, hu, hp]
      | some r =>
        obtain ⟨given, keys''⟩ := r
        have hattempts : attempts (fuel + 1) keys = (user, given) :: attempts fuel keys'' := by
          simp only [attempts, hu, hp]
        by_cases heq : user = p.1 ∧ given = p.2
        · have hmem : p ∈ attempts (fuel + 1) keys := by
            rw [hattempts, heq.1, heq.2]
            exact List.mem_cons_self
          simp only [loginLoop, hu, hp, h, Option.bind_eq_bind, Option.bind_some]
          rw [if_pos heq, if_pos hmem]
        · have hiff : p ∈ attempts (fuel + 1) keys ↔ p ∈ attempts fuel keys'' := by
            rw [hattempts, List.mem_cons, or_iff_right]
            rintro rfl
            exact heq ⟨rfl, rfl⟩
          simp only [loginLoop, hu, hp, h, Option.bind_eq_bind, Option.bind_some]
          rw [if_neg heq, if_congr hiff rfl rfl]
          exact ih keys''

/-- When the password that was typed at the setup has no colon: whatever calls come later that leave
`users.sys` alone, and whatever is typed at the login, root is logged in as user 0 as soon as its
name and this password have been typed, and nobody is otherwise. -/
theorem login_after_setup {drive : Drive} {s' : State} (keys : List UInt8) (hkeys : 0 ∉ keys)
    (hread : readLine [] keys = some (pass, rest)) (hcolon : colon ∉ pass)
    (h : SetUp drive pass s') (stack : Nat → Mem) (typed : List UInt8) :
    userLogin s' stack typed =
      some (if (root, pass) ∈ attempts typed.length typed then some 0 else none) := by
  have hp : Typed pass :=
    (readLine_typed ⟨Nat.zero_le _, List.not_mem_nil, List.not_mem_nil⟩ hkeys hread).1
  apply loginLoop_eq
  intro stack user given
  rw [h.parseAuth_eq hp, setupData_length]
  exact authLoop_plain hp hcolon user given _

/-- When it has a colon, it is refused: the part before its first colon is the password, and what
follows makes up the number of the user. If 14 characters or more follow, each attempt writes past
the end of `f_uid`. -/
theorem colon_locks_out {drive : Drive} {s' : State} {a b : CStr} (keys : List UInt8)
    (hkeys : 0 ∉ keys)
    (hread : readLine [] keys = some (a ++ colon :: b, rest)) (ha : colon ∉ a)
    (h : SetUp drive (a ++ colon :: b) s') (stack : Mem) (user given : CStr) :
    parseAuth s' stack user given =
        (if b.length < 14 then
          some (if user = root ∧ given = a then some (parseUid (b ++ [colon, 48])) else none)
        else none) ∧
      ∀ uid, parseAuth s' stack root (a ++ colon :: b) ≠ some (some uid) := by
  have hp : Typed (a ++ colon :: b) :=
    (readLine_typed ⟨Nat.zero_le _, List.not_mem_nil, List.not_mem_nil⟩ hkeys hread).1
  have hall : ∀ user given, parseAuth s' stack user given =
      if b.length < 14 then
        some (if user = root ∧ given = a then some (parseUid (b ++ [colon, 48])) else none)
      else none := by
    intro user given
    rw [h.parseAuth_eq hp, setupData_length]
    exact authLoop_colon hp ha user given _
  refine ⟨hall user given, fun uid heq => ?_⟩
  rw [hall, if_neg (by simp : ¬ (root = root ∧ a ++ colon :: b = a))] at heq
  split_ifs at heq
  cases heq

/-- The password `ab`, set up on a fresh drive. -/
theorem login_after_setup_ab : ∃ out,
    firstTimeSetup smallDrive noNoise (kfsFormat smallDrive (fun _ => 0) blankState) [97, 98] =
        some out ∧
      userLogin out.state (fun _ _ => 7) (root ++ [newline, 97, 120, backspace, 98, newline]) =
        some (some 0) := by
  have hval : (firstTimeSetup smallDrive noNoise (kfsFormat smallDrive (fun _ => 0) blankState)
      [97, 98]).map (fun out => out.ret) = some 1 := by decide
  obtain ⟨out, hout, hret⟩ := Option.map_eq_some_iff.mp hval
  have hsetup : SetUp smallDrive [97, 98] out.state :=
    ⟨smallDrive_hasRoom, _, noNoise, out, .format _ _, hout, hret, .refl⟩
  have hlogin := login_after_setup [97, 98, newline] (by decide) rfl (by decide) hsetup
    (fun _ _ => 7) (root ++ [newline, 97, 120, backspace, 98, newline])
  refine ⟨out, hout, hlogin.trans ?_⟩
  rw [if_pos (by decide)]

/-- The password `a:b`, of which `a` is the password and `b:0` the user. -/
theorem colon_locks_out_ab : ∃ out,
    firstTimeSetup smallDrive noNoise (kfsFormat smallDrive (fun _ => 0) blankState)
        [97, colon, 98] = some out ∧
      parseAuth out.state (fun _ => 7) root [97] = some (some (parseUid [98, colon, 48])) ∧
      parseAuth out.state (fun _ => 7) root [97, colon, 98] = some none := by
  have hval : (firstTimeSetup smallDrive noNoise (kfsFormat smallDrive (fun _ => 0) blankState)
      [97, colon, 98]).map (fun out => out.ret) = some 1 := by decide
  obtain ⟨out, hout, hret⟩ := Option.map_eq_some_iff.mp hval
  have hsetup : SetUp smallDrive ([97] ++ colon :: [98]) out.state :=
    ⟨smallDrive_hasRoom, _, noNoise, out, .format _ _, hout, hret, .refl⟩
  have hlogin := fun given => (colon_locks_out [97, colon, 98, newline] (by decide) rfl
    (by decide) hsetup (fun _ => 7) root given).1
  exact ⟨out, hout, hlogin [97], hlogin [97, colon, 98]⟩

end Kyuzen.Login
