import Kyuzen.Input.Typed
import Kyuzen.Smp.Exclusion

/-!
# The ring of the keyboard on many CPUs

The three uses of the ring under `kbd_lock`, instruction by instruction: a key of the interrupt
handler, `keyboard_read` and `flush_kbd_buffer` of tasks. However the CPUs are interleaved and
interrupted, the keys are read as if each call were one step: the ring is a queue, and each read has
returned its oldest characters at that time (`ring_is_shared_queue`). The lock is held for a bounded
number of instructions (`ring_lock_is_released`).
-/

namespace Kyuzen.Input

open Smp

/-- Where a program under `kbd_lock` is. -/
inductive Section where
  /-- `next_head` is computed and compared with `kbd_tail`. -/
  | key (ascii : UInt8)
  | keyWrite (ascii : UInt8) (nextHead : Nat)
  | keyHead (nextHead : Nat)
  /-- The test of the loop of `keyboard_read`, with the bytes that have been stored. -/
  | read (size : Nat) (bytes : List UInt8)
  | readTake (size : Nat) (bytes : List UInt8)
  | readTail (size : Nat) (bytes : List UInt8)
  | flush
  | flushTail
  | done (bytes : List UInt8)

/-- The next instruction. -/
def sectionNext (k : Keyboard) : Section → Option (Keyboard × Section)
  | .key ascii =>
    let nextHead := (k.head + 1) % kbdBufferSize
    some (k, if nextHead ≠ k.tail then .keyWrite ascii nextHead else .done [])
  | .keyWrite ascii nextHead =>
    some ({ k with buffer := Function.update k.buffer k.head ascii }, .keyHead nextHead)
  | .keyHead nextHead => some ({ k with head := nextHead }, .done [])
  | .read size bytes =>
    some (k, if bytes.length < size ∧ k.head ≠ k.tail then .readTake size bytes else .done bytes)
  | .readTake size bytes => some (k, .readTail size (bytes ++ [k.buffer k.tail]))
  | .readTail size bytes =>
    some ({ k with tail := (k.tail + 1) % kbdBufferSize }, .read size bytes)
  | .flush => some ({ k with head := 0 }, .flushTail)
  | .flushTail => some ({ k with tail := 0 }, .done [])
  | .done _ => none

/-- Where the programs begin. -/
def Section.Initial : Section → Prop
  | .key _ => True
  | .read _ bytes => bytes = []
  | .flush => True
  | _ => False

variable {k k' : Keyboard} {t : Section} {line : List UInt8}

/-! ## Each program alone -/

theorem completes_done {bytes : List UInt8} (h : Completes sectionNext (k, .done bytes) (k', t)) :
    k' = k ∧ t = .done bytes := by
  have heq := h.stop rfl
  cases heq
  exact ⟨rfl, rfl⟩

theorem completes_key {ascii : UInt8} (h : Completes sectionNext (k, .key ascii) (k', t)) :
    k' = k.put ascii ∧ t = .done [] := by
  have h₁ := h.first rfl
  unfold Keyboard.put
  dsimp only at h₁ ⊢
  by_cases hfull : (k.head + 1) % kbdBufferSize ≠ k.tail
  · rw [if_pos hfull] at h₁ ⊢
    exact completes_done ((h₁.first rfl).first rfl)
  · rw [if_neg hfull] at h₁ ⊢
    exact completes_done h₁

theorem completes_flush (h : Completes sectionNext (k, .flush) (k', t)) :
    k' = flushKbdBuffer k ∧ t = .done [] :=
  completes_done ((h.first rfl).first rfl)

/-- The loop, with the number of bytes that may still be read. -/
theorem completes_read {size left : Nat} {bytes : List UInt8} (hleft : bytes.length + left = size)
    (h : Completes sectionNext (k, .read size bytes) (k', t)) :
    k' = (readLoop left k).2 ∧ t = .done (bytes ++ (readLoop left k).1) := by
  induction left generalizing k bytes with
  | zero =>
    have h₁ := h.first rfl
    dsimp only at h₁
    rw [if_neg (by omega)] at h₁
    rw [show (readLoop 0 k).1 = [] from rfl, List.append_nil]
    exact completes_done h₁
  | succ left ih =>
    have h₁ := h.first rfl
    dsimp only at h₁
    unfold readLoop
    by_cases hempty : k.head = k.tail
    · rw [if_neg fun hand => hand.2 hempty] at h₁
      rw [if_pos hempty, List.append_nil]
      exact completes_done h₁
    · rw [if_pos ⟨by omega, hempty⟩] at h₁
      rw [if_neg hempty]
      have h₂ := (h₁.first rfl).first rfl
      have hlen : (bytes ++ [k.buffer k.tail]).length + left = size := by
        rw [List.length_append, List.length_singleton]
        omega
      obtain ⟨hk, ht⟩ := ih hlen h₂
      refine ⟨hk, ?_⟩
      rw [ht, List.append_assoc]
      rfl

/-! ## The programs one after the other -/

/-- What the programs have done to the queue, and what the reads have returned. -/
inductive Served : List (Section × Section) → List UInt8 → Prop
  | nil : Served [] []
  | key {log : List (Section × Section)} {line : List UInt8} (h : Served log line)
      (ascii : UInt8) : Served (log ++ [(.key ascii, .done [])]) (addTyped line (some ascii))
  | read {log : List (Section × Section)} {line : List UInt8} (h : Served log line) (size : Nat) :
      Served (log ++ [(.read size [], .done (line.take size))]) (line.drop size)
  | flush {log : List (Section × Section)} {line : List UInt8} (h : Served log line) :
      Served (log ++ [(.flush, .done [])]) []

theorem served_of_sequential {log : List (Section × Section)} (hk : Holds k [])
    (hinit : ∀ x ∈ log, x.1.Initial) (h : Sequential sectionNext k log k') :
    ∃ line, Served log line ∧ Holds k' line := by
  induction h with
  | nil => exact ⟨[], .nil, hk⟩
  | snoc hlog hc ih =>
    rename_i log k₁ k₂ t t'
    obtain ⟨line, hserved, hholds⟩ := ih fun x hx => hinit x (List.mem_append_left _ hx)
    have ht := hinit (t, t') (by simp)
    cases t with
    | key ascii =>
      obtain ⟨rfl, rfl⟩ := completes_key hc
      exact ⟨_, hserved.key ascii, hholds.put ascii⟩
    | read size bytes =>
      obtain rfl : bytes = [] := ht
      obtain ⟨rfl, rfl⟩ := completes_read (Nat.zero_add size) hc
      obtain ⟨hbytes, hrest⟩ := hholds.readLoop size
      rw [List.nil_append, hbytes]
      exact ⟨_, hserved.read size, hrest⟩
    | flush =>
      obtain ⟨rfl, rfl⟩ := completes_flush hc
      exact ⟨_, hserved.flush, holds_nil rfl rfl⟩
    | keyWrite => exact ht.elim
    | keyHead => exact ht.elim
    | readTake => exact ht.elim
    | readTail => exact ht.elim
    | flushTail => exact ht.elim
    | done => exact ht.elim

/-! ## Many CPUs -/

/-- What CPUs do that concerns the ring. -/
inductive RingAct (ι : Type*) where
  | read (cpu : ι) (size : Nat)
  | flush (cpu : ι)
  | key (cpu : ι) (ascii : UInt8)
  | run (cpu : ι)
  | interrupt (cpu : ι)
  | iret (cpu : ι)
  | setInterrupts (cpu : ι) (on : Bool)

def RingAct.act {ι : Type*} : RingAct ι → Act ι Section
  | .read cpu size => .lockIrqsave cpu (.read size [])
  | .flush cpu => .lockIrqsave cpu .flush
  | .key cpu ascii => .lock cpu (.key ascii)
  | .run cpu => .run cpu
  | .interrupt cpu => .interrupt cpu
  | .iret cpu => .iret cpu
  | .setInterrupts cpu on => .setInterrupts cpu on

theorem RingAct.initial {ι : Type*} (a : RingAct ι) : ∀ t ∈ a.act.begins, t.Initial := by
  cases a with
  | read cpu size => rintro t ⟨rfl⟩; rfl
  | flush cpu => rintro t ⟨rfl⟩; trivial
  | key cpu ascii => rintro t ⟨rfl⟩; trivial
  | run cpu => exact fun _ => nofun
  | interrupt cpu => exact fun _ => nofun
  | iret cpu => exact fun _ => nofun
  | setInterrupts cpu on => exact fun _ => nofun

variable {ι : Type*} [DecidableEq ι]

/-- The ring after a run from the start. -/
def runRing (acts : List (RingAct ι)) : Machine ι Keyboard Section :=
  runMachine sectionNext (initKeyboard ⟨0, 0, false, fun _ => 0, 0, 0⟩) (acts.map RingAct.act)

/-- In any run the calls that are over have served a queue of at most 255 characters, in the order
in which they have got the lock, and it is what the ring holds when the lock is free. -/
theorem ring_is_shared_queue (acts : List (RingAct ι)) :
    ∃ line, Served (runRing acts).log line ∧ line.length ≤ 255 ∧
      ((runRing acts).locked = false → Holds (runRing acts).shared line) := by
  obtain ⟨hseq, hfree, -⟩ := sections_are_atomic sectionNext
    (initKeyboard ⟨0, 0, false, fun _ => 0, 0, 0⟩) (acts.map RingAct.act)
  have hbegins : ∀ a ∈ acts.map RingAct.act, ∀ t ∈ a.begins, t.Initial := by
    intro a ha
    obtain ⟨b, -, rfl⟩ := List.mem_map.mp ha
    exact b.initial
  have hinit := (begins_run sectionNext (initKeyboard ⟨0, 0, false, fun _ => 0, 0, 0⟩) hbegins).log
  obtain ⟨line, hserved, hholds⟩ := served_of_sequential (holds_nil rfl rfl) hinit hseq
  refine ⟨line, hserved, Nat.le_of_lt_succ hholds.fits, fun hl => ?_⟩
  have hshared : (runRing acts).shared = (runRing acts).base := hfree hl
  rw [hshared]
  exact hholds

/-- The instructions that a program still has to execute, at most. -/
def Section.left : Section → Nat
  | .key _ => 3
  | .keyWrite _ _ => 2
  | .keyHead _ => 1
  | .read size bytes => 3 * (size - bytes.length) + 1
  | .readTake size bytes => 3 * (size - (bytes.length + 1)) + 3
  | .readTail size bytes => 3 * (size - bytes.length) + 2
  | .flush => 2
  | .flushTail => 1
  | .done _ => 0

theorem sectionNext_left {x : Keyboard × Section} (h : sectionNext k t = some x) :
    x.2.left < t.left := by
  cases t with
  | key ascii =>
    obtain rfl := Option.some.inj h
    dsimp only
    split_ifs <;> simp [Section.left]
  | keyWrite ascii nextHead => obtain rfl := Option.some.inj h; exact Nat.lt_succ_self 1
  | keyHead nextHead => obtain rfl := Option.some.inj h; exact Nat.lt_succ_self 0
  | read size bytes =>
    obtain rfl := Option.some.inj h
    dsimp only
    split_ifs with hmore
    · have hlt := hmore.1
      show 3 * (size - (bytes.length + 1)) + 3 < 3 * (size - bytes.length) + 1
      omega
    · exact Nat.succ_pos _
  | readTake size bytes =>
    obtain rfl := Option.some.inj h
    show 3 * (size - (bytes ++ [_]).length) + 2 < 3 * (size - (bytes.length + 1)) + 3
    rw [List.length_append, List.length_singleton]
    omega
  | readTail size bytes => obtain rfl := Option.some.inj h; exact Nat.lt_succ_self _
  | flush => obtain rfl := Option.some.inj h; exact Nat.lt_succ_self 1
  | flushTail => obtain rfl := Option.some.inj h; exact Nat.lt_succ_self 0
  | done bytes => cases h

theorem section_ends (n : Nat) (k : Keyboard) (t : Section) (h : t.left ≤ n) :
    ∃ m ≤ n, Ends sectionNext m (k, t) := by
  induction n generalizing k t with
  | zero =>
    refine ⟨0, le_rfl, .stop ?_⟩
    cases hnext : sectionNext k t with
    | none => rfl
    | some x => exact absurd ((sectionNext_left hnext).trans_le h) (Nat.not_lt_zero _)
  | succ n ih =>
    cases hnext : sectionNext k t with
    | none => exact ⟨0, Nat.zero_le _, .stop hnext⟩
    | some x =>
      have hlt := sectionNext_left hnext
      obtain ⟨m, hm, hends⟩ := ih x.1 x.2 (by omega)
      exact ⟨m + 1, Nat.succ_le_succ hm, .step hnext hends⟩

/-- In any run a CPU that is under the lock leaves it after a bounded number of its own
instructions, whatever the others do. -/
theorem ring_lock_is_released (acts acts' : List (RingAct ι)) (c : ι) (f : Bool) (t : Section)
    (hc : (runRing acts).running c = .inside f t)
    (hcount : t.left < (acts'.map RingAct.act).countP fun a => a.runs c) :
    ∃ n ≤ acts'.length, (runRing (acts ++ acts'.take n)).locked = false := by
  obtain ⟨m, hm, hends⟩ := section_ends t.left (runRing acts).shared t le_rfl
  have hsound := sound_run (ι := ι) sectionNext (initKeyboard ⟨0, 0, false, fun _ => 0, 0, 0⟩)
    (acts.map RingAct.act)
  obtain ⟨n, hn, hfree⟩ := hsound.leaves hc hends (hm.trans_lt hcount)
  rw [List.length_map] at hn
  refine ⟨n, hn, ?_⟩
  unfold runRing runMachine
  rw [List.map_append, List.foldl_append, List.map_take]
  exact hfree

/-- A flush on CPU 0, while CPU 1 runs too. -/
theorem ring_lock_is_released_flush :
    ∃ n ≤ 4, (runRing ([.flush 0, .run 0] ++
      [RingAct.run 0, .run 1, .run 0, .run 0].take n)).locked = false := by
  apply ring_lock_is_released [RingAct.flush 0, .run 0] [.run 0, .run 1, .run 0, .run 0] 0 false
    .flush
  · rfl
  · decide

end Kyuzen.Input
