import Kyuzen.Kfs.Files

/-!
# The text editor

`apps/zen.c`: `zen_main` reads a file into a block of the heap, changes it key by key and writes it
back when ESC is pressed. The block grows by `krealloc`, whose new part holds what the heap gives.
What is printed is left out. A key is a character that `read_keyboard` returns.
-/

namespace Kyuzen.Zen

open Kfs Lib.Memory

/-- What `kmalloc` answers to a size: a block with the bytes that are in it. -/
abbrev Heap : Type := Nat → Option Mem

def escape : UInt8 := 27
def backspace : UInt8 := 8

/-- `text_buffer`, `current_capacity` and `cursor`. -/
structure Buffer where
  text : Mem
  cap : Nat
  cursor : Nat

/-- `zen_strlen` on a block of `cap` bytes: `none` if it reads past the end of the block. -/
def zenStrlen (text : Mem) (cap : Nat) : Option Nat := (List.range cap).find? fun i => text i == 0

def krealloc (heap : Heap) (old : Mem) (oldSize newSize : Nat) : Option Mem :=
  if newSize = 0 then none
  else (heap newSize).map fun block => fill block 0 (min oldSize newSize) old

/-- A key other than ESC; `none` when the block cannot grow. -/
def press (heap : Heap) (b : Buffer) (c : UInt8) : Option Buffer :=
  if c = backspace then
    some (if b.cursor > 0 then
      { b with text := Function.update b.text (b.cursor - 1) 0, cursor := b.cursor - 1 } else b)
  else do
    let b ← if b.cursor ≥ (b.cap + 2 ^ 32 - 1) % 2 ^ 32 then
        let newCapacity := b.cap * 2 % 2 ^ 32
        (krealloc heap b.text b.cap newCapacity).map fun text =>
          { b with text := text, cap := newCapacity }
      else some b
    return { b with text := Function.update b.text b.cursor c, cursor := b.cursor + 1 }

/-- The loop of `zen_main`, which ends with ESC or when the heap is exhausted: the buffer and the
keys that follow, or `none` while it waits for a key. The heap may answer differently each time. -/
def zenLoop (heap : Nat → Heap) : List UInt8 → Buffer → Option (Buffer × List UInt8)
  | [], _ => none
  | c :: keys, b =>
    if c = escape then some (b, keys)
    else
      match press (heap keys.length) b c with
      | none => some (b, keys)
      | some b => zenLoop heap keys b

/-- The capacity that `zen_main` begins with. -/
def firstCapacity (existingSize : Nat) : Nat :=
  if existingSize ≥ 32 then (existingSize + 32) % 2 ^ 32 else 32

/-- What stands before the loop; the inner `none` is a heap that refuses the block. -/
def zenOpen (heap : Heap) (s : State) (filename : CStr) : Option (Option Buffer) := do
  let there ← kfsExists s filename
  let size ← if there ≠ 0 then kfsGetFileSize s filename else some 0
  let cap := firstCapacity size
  match heap cap with
  | none => return none
  | some block =>
    let text := fill block 0 cap fun _ => 0
    if there ≠ 0 then
      let (_, text) ← kfsReadToBuffer s filename text cap
      let cursor ← zenStrlen text cap
      return some ⟨text, cap, cursor⟩
    else return some ⟨text, cap, 0⟩

/-- What follows the loop. -/
def zenSave (drive : Drive) (noise : Noise) (s : State) (filename : CStr) (b : Buffer) :
    Option Outcome := do
  let there ← kfsExists s filename
  let s ← if there ≠ 0 then (kfsDeleteFile s filename).map fun out => out.state else some s
  let size ← zenStrlen b.text b.cap
  kfsCreateFile drive noise.fat noise.stack s filename b.text size

/-- `zen_main`: the inner `none` is a session that has no memory or waits for a key. -/
def zenMain (drive : Drive) (noise : Noise) (heap : Nat → Heap) (s : State) (filename : CStr)
    (keys : List UInt8) : Option (Option (Outcome × List UInt8)) := do
  match ← zenOpen (heap keys.length) s filename with
  | none => return none
  | some b =>
    match zenLoop heap keys b with
    | none => return none
    | some (b, rest) =>
      let out ← zenSave drive noise s filename b
      return some (out, rest)

end Kyuzen.Zen
