import Kyuzen.Kfs.Files

/-!
# The login

`apps/login.c`: on the first boot the password of root is read from the keyboard and written to
`users.sys`; later a name and a password are read again and again until `parse_auth` finds them in
this file. A key is a character that `read_keyboard` returns. A write past the end of an array of
`parse_auth` is `none`.
-/

namespace Kyuzen.Login

open Kfs Lib.Memory

def usersFile : CStr := [117, 115, 101, 114, 115, 46, 115, 121, 115]

/-- `"root"`. -/
def root : CStr := [114, 111, 111, 116]

def newline : UInt8 := 10
def backspace : UInt8 := 8
def colon : UInt8 := 58

/-- The loops that read a name or a password: the line when Enter has been pressed, and the keys
that follow. -/
def readLine (line : CStr) : List UInt8 → Option (CStr × List UInt8)
  | [] => none
  | c :: keys =>
    if c = newline then some (line, keys)
    else if c = backspace then readLine line.dropLast keys
    else if line.length < 31 then readLine (line ++ [c]) keys
    else readLine line keys

/-- What `first_time_setup` writes. -/
def setupData (password : CStr) : List UInt8 := root ++ [colon] ++ password ++ [colon, 48, newline]

def firstTimeSetup (drive : Drive) (noise : Noise) (s : State) (password : CStr) : Option Outcome :=
  kfsCreateFile drive noise.fat noise.stack s usersFile (fun i => (setupData password).getD i 0)
    (setupData password).length

/-! ## `parse_auth` -/

def strMatch : CStr → CStr → Bool
  | c :: s, d :: t => c == d && strMatch s t
  | [], [] => true
  | _, _ => false

/-- A field of a line, up to the character `stop`, which is skipped. -/
def field (stop : UInt8) (size : Nat) (text : List UInt8) : Option (CStr × List UInt8) :=
  let f := text.takeWhile (· ≠ stop)
  if f.length < size then some (f, (text.dropWhile (· ≠ stop)).tail) else none

/-- A `char`. -/
def charValue (c : UInt8) : Int := if c < 128 then c.toNat else c.toNat - 256

def parseUid (uid : CStr) : Nat :=
  uid.foldl (fun v c => ((v * 10 + (charValue c - 48)) % 2 ^ 32).toNat) 0

/-- The loop over the lines, each of which takes a character at least. -/
def authLoop (user pass : CStr) : Nat → List UInt8 → Option (Option Nat)
  | 0, _ => some none
  | fuel + 1, text =>
    if text = [] then some none
    else do
      let (fUser, text) ← field colon 32 text
      let (fPass, text) ← field colon 32 text
      let (fUid, text) ← field newline 16 text
      if strMatch user fUser && strMatch pass fPass then some (some (parseUid fUid))
      else authLoop user pass fuel text

/-- The text in the buffer, which ends at the first NUL. `stack` is what the buffer held before. -/
def parseAuth (s : State) (stack : Mem) (user pass : CStr) : Option (Option Nat) := do
  if (← kfsExists s usersFile) = 0 then return none
  let fsize ← kfsGetFileSize s usersFile
  let (_, buffer) ← kfsReadToBuffer s usersFile stack 1024
  if fsize < 1024 then
    let text := ((List.range fsize).map buffer).takeWhile (· ≠ 0)
    authLoop user pass text.length text
  else none

/-! ## `user_login` -/

/-- The loop of `user_login`, with what is left of the keys: the user that is logged in, or `none`
while it waits for keys. The stack may hold anything at each attempt. -/
def loginLoop (s : State) (stack : Nat → Mem) : Nat → List UInt8 → Option (Option Nat)
  | 0, _ => some none
  | fuel + 1, keys =>
    match readLine [] keys with
    | none => some none
    | some (user, keys) =>
      match readLine [] keys with
      | none => some none
      | some (pass, keys) => do
        match ← parseAuth s (stack fuel) user pass with
        | some uid => some (some uid)
        | none => loginLoop s stack fuel keys

def userLogin (s : State) (stack : Nat → Mem) (keys : List UInt8) : Option (Option Nat) :=
  loginLoop s stack keys.length keys

end Kyuzen.Login
