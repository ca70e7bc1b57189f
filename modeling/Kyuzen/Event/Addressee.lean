import Kyuzen.Event.Model

/-!
# Who gets an event

A queue belongs to a slot, and is flushed when a task ends and when the next one is created in the
slot. So an event reaches only the task to which it was routed, unless a task has been created in
the slot after the event was routed and before it is pushed (`events_reach_addressee`): then the
flush comes too early, and the new task gets an event for a window of the old one (`event_leaks`).
-/

namespace Kyuzen.Event

/-! ## Queues -/

variable {α : Type}

/-- The queue holds the events of `l`, the oldest first. -/
structure Queue.Holds (q : Queue α) (l : List α) : Prop where
  tail_lt : q.tail < eventQueueSize
  length_lt : l.length < eventQueueSize
  head_eq : q.head = (q.tail + l.length) % eventQueueSize
  ring : Lib.RingHolds eventQueueSize eventQueueSize q.cells q.tail l

namespace Queue.Holds

variable {q : Queue α} {l : List α}

theorem size_pos : 0 < eventQueueSize := by
  decide

theorem empty (cells : Nat → α) : Queue.Holds ⟨cells, 0, 0⟩ [] :=
  ⟨size_pos, size_pos, rfl, Lib.RingHolds.nil _ _ _ _⟩

theorem flush (q : Queue α) : (flushQueue q).Holds [] := empty q.cells

/-- Only after a whole round a counter is where the reader is. -/
theorem cell_ne_tail (h : q.Holds l) {k : Nat} (hpos : 0 < k) (hk : k < eventQueueSize) :
    (q.tail + k) % eventQueueSize ≠ q.tail := by
  have hcell : (q.tail + 0) % eventQueueSize % eventQueueSize ≠
      (q.tail + k) % eventQueueSize % eventQueueSize := Lib.ring_cell_ne (dvd_refl _) hpos hk
  rw [Nat.mod_mod, Nat.mod_mod, Nat.add_zero, Nat.mod_eq_of_lt h.tail_lt] at hcell
  exact hcell.symm

/-- The reader takes the oldest event. -/
theorem rest {x : α} (h : q.Holds (x :: l)) (cells : Nat → α) (hcells : cells = q.cells) :
    Queue.Holds ⟨cells, q.head, (q.tail + 1) % eventQueueSize⟩ l := by
  have hlen := h.length_lt
  rw [List.length_cons] at hlen
  refine ⟨Nat.mod_lt _ size_pos, by omega, ?_, ?_⟩
  · rw [h.head_eq, List.length_cons, Nat.mod_add_mod]
    congr 1
    omega
  · rw [hcells]
    exact h.ring.pop.2

theorem pop (h : q.Holds l) :
    (popEvent q).1 = l.head? ∧ (popEvent q).2.Holds l.tail := by
  cases l with
  | nil =>
    have hempty : q.head = q.tail := by
      rw [h.head_eq, List.length_nil, Nat.add_zero, Nat.mod_eq_of_lt h.tail_lt]
    rw [popEvent, if_pos hempty]
    exact ⟨rfl, h⟩
  | cons x l =>
    have hne : q.head ≠ q.tail := by
      rw [h.head_eq]
      exact h.cell_ne_tail (Nat.succ_pos l.length) h.length_lt
    rw [popEvent, if_neg hne]
    refine ⟨?_, h.rest q.cells rfl⟩
    have hfirst := h.ring.pop.1
    rw [Nat.mod_mod, Nat.mod_eq_of_lt h.tail_lt] at hfirst
    rw [hfirst, List.head?_cons]

theorem nextHead_eq (h : q.Holds l) :
    (q.head + 1) % eventQueueSize = (q.tail + (l.length + 1)) % eventQueueSize := by
  rw [h.head_eq, Nat.mod_add_mod, Nat.add_assoc]

/-- There is room for one more event. -/
theorem push_room (h : q.Holds l) (hroom : l.length + 1 < eventQueueSize) (e : α) :
    Queue.Holds ⟨Function.update q.cells q.head e, (q.head + 1) % eventQueueSize, q.tail⟩
      (l ++ [e]) := by
  refine ⟨h.tail_lt, ?_, ?_, ?_⟩
  · rw [List.length_append, List.length_singleton]
    exact hroom
  · rw [List.length_append, List.length_singleton]
    exact h.nextHead_eq
  · have hput := h.ring.push (dvd_refl _) h.length_lt e
    rw [Nat.mod_mod, ← h.head_eq] at hput
    exact hput

/-- A full queue loses its oldest event. -/
theorem push_eq (h : q.Holds l) (e : α) : (pushEvent q e).Holds
    ((if l.length + 1 < eventQueueSize then l else l.tail) ++ [e]) := by
  unfold pushEvent
  by_cases hroom : l.length + 1 < eventQueueSize
  · have hne : (q.head + 1) % eventQueueSize ≠ q.tail := by
      rw [h.nextHead_eq]
      exact h.cell_ne_tail (Nat.succ_pos l.length) hroom
    simp only [if_neg hne, if_pos hroom]
    exact h.push_room hroom e
  · have hlen : l.length + 1 = eventQueueSize := Nat.le_antisymm h.length_lt (not_lt.mp hroom)
    have heq : (q.head + 1) % eventQueueSize = q.tail := by
      rw [h.nextHead_eq, hlen, Nat.add_mod_right, Nat.mod_eq_of_lt h.tail_lt]
    simp only [if_pos heq, if_neg hroom]
    cases l with
    | nil => simp [eventQueueSize] at hlen
    | cons x l =>
      refine (h.rest q.cells rfl).push_room ?_ e
      rw [List.length_cons] at hlen
      omega

theorem push (h : q.Holds l) (e : α) :
    ∃ l', (pushEvent q e).Holds (l' ++ [e]) ∧ ∀ x ∈ l', x ∈ l := by
  refine ⟨_, h.push_eq e, fun x hx => ?_⟩
  split_ifs at hx
  · exact hx
  · exact List.mem_of_mem_tail hx

end Queue.Holds

/-! ## The invariant -/

structure Inv (s : State) : Prop where
  sys : Kwm.SysInv s.sys
  /-- Windows belong to the task that is now in the slot of their owner. -/
  made : ∀ i, (s.sys.kwm.windows i).active = true → ∀ t : Nat,
    (s.sys.kwm.windows i).ownerTask = t → s.life t = .user ∧ s.maker i = (t, s.born t)
  queue : ∀ t, ∃ l, (s.queue t).Holds l ∧ ∀ e ∈ l, e.maker = some (t, s.born t)
  irq : ∀ cpu r, s.irq cpu = some r → r.tagged.maker = some (r.target.toNat, r.bornThen)
  delivered : ∀ d ∈ s.delivered, d.tagged.maker = some (d.slot, d.born)

variable {s : State}

theorem Inv.init (fbWidth fbHeight : Nat) (empty : Tagged) :
    Inv (State.init fbWidth fbHeight empty) where
  sys := Kwm.sysInv_run fbWidth fbHeight []
  made i hi := by cases hi
  queue t := ⟨[], Queue.Holds.empty _, fun e he => by cases he⟩
  irq cpu r hr := by cases hr
  delivered d hd := by cases hd

/-- A task without windows begins or ends. -/
theorem Inv.setLife (h : Inv s) {t : Nat}
    (hnone : ∀ i, (s.sys.kwm.windows i).active = true → (s.sys.kwm.windows i).ownerTask ≠ t)
    (l : Life) : Inv (s.setLife t l) where
  sys := h.sys
  made i hi u hu := by
    have hut : u ≠ t := by
      intro hut
      rw [hut] at hu
      exact hnone i hi hu
    simp only [State.setLife, Function.update_of_ne hut]
    exact h.made i hi u hu
  queue := h.queue
  irq := h.irq
  delivered := h.delivered

/-- Only tasks with an application have windows. -/
theorem Inv.noWindows (h : Inv s) {t : Nat} (ht : s.life t ≠ .user) (i : Nat)
    (hi : (s.sys.kwm.windows i).active = true) : (s.sys.kwm.windows i).ownerTask ≠ t :=
  fun howner => ht (h.made i hi t howner).1

theorem Inv.setQueue (h : Inv s) {t : Nat} {q : Queue Tagged} {l : List Tagged} (hq : q.Holds l)
    (hl : ∀ e ∈ l, e.maker = some (t, s.born t)) : Inv (s.setQueue t q) where
  sys := h.sys
  made := h.made
  queue u := by
    by_cases hut : u = t
    · subst hut
      simp only [State.setQueue, Function.update_self]
      exact ⟨l, hq, hl⟩
    · simp only [State.setQueue, Function.update_of_ne hut]
      exact h.queue u
  irq := h.irq
  delivered := h.delivered

theorem Inv.flushEventQueue (h : Inv s) (t : Nat) : Inv (s.flushEventQueue t) :=
  h.setQueue (Queue.Holds.flush _) fun e he => by cases he

/-! ## Windows -/

/-- The windows after a step of task `t` that it has not opened were there before. -/
theorem made_of_before {sys : Kwm.Sys} {i : Nat} (h : Inv s)
    (hbefore : (s.sys.kwm.windows i).active = true)
    (howner : (s.sys.kwm.windows i).ownerTask = (sys.kwm.windows i).ownerTask) {t u : Nat}
    (hu : (sys.kwm.windows i).ownerTask = u) :
    s.life u = .user ∧ (s.withSys t sys).maker i = (u, s.born u) := by
  have hmaker : (s.withSys t sys).maker i = s.maker i := by
    simp only [State.withSys]
    rw [if_neg]
    rintro ⟨hfree, -⟩
    rw [hbefore] at hfree
    cases hfree
  rw [hmaker]
  exact h.made i hbefore u (howner.trans hu)

theorem Inv.withSys (h : Inv s) {t : Nat} (ht : s.life t = .user) (a : Kwm.Act) :
    Inv (s.withSys t (Kwm.act s.sys t a)) where
  sys := h.sys.effect (Kwm.act_sound h.sys.sound t a) (Kwm.act_effect h.sys t a)
  made i hi u hu := by
    cases Kwm.act_effect h.sys t a with
    | changes hkwm _ _ _ _ =>
      obtain ⟨hbefore, howner⟩ := hkwm.before hi
      exact made_of_before h hbefore howner hu
    | opens j _ hkwm _ _ _ _ =>
      by_cases hij : i = j
      · subst hij
        have hut : u = t := Int.ofNat.inj (hu.symm.trans hkwm.owner)
        subst hut
        refine ⟨ht, ?_⟩
        simp only [State.withSys]
        exact if_pos ⟨hkwm.free, hi⟩
      · have hsame := hkwm.others i hij
        exact made_of_before h ((Kwm.active_of_content hsame).symm.trans hi)
          (Kwm.owner_of_content hsame).symm hu
    | exits hkwm _ _ _ _ _ =>
      obtain ⟨hbefore, howner⟩ := hkwm.before hi
      exact made_of_before h hbefore howner hu
  queue := h.queue
  irq := h.irq
  delivered := h.delivered

theorem act_exit {sys : Kwm.Sys} {t : Nat} (hidle : sys.phase t = .idle) :
    (Kwm.act sys t .exit).kwm = (Kwm.kwmDestroyWindowsOf sys.kwm t).1 := by
  unfold Kwm.act
  simp only [hidle]

theorem Inv.syscall (h : Inv s) (t : Nat) (a : Kwm.Act) : Inv (s.syscall t a) := by
  unfold State.syscall
  split
  · next ht =>
    have hsys := h.withSys ht a
    simp only
    split
    · next hexits =>
      refine hsys.setLife ?_ .leaving
      intro i hi
      unfold State.exits at hexits
      split at hexits
      · next hidle =>
        have hsmall := hsys.sys.small i hi
        simp only [State.withSys, act_exit hidle] at hi ⊢
        exact Kwm.destroyWindowsOf_none t s.sys.kwm hsmall hi
      · cases hexits
    · exact hsys
  · exact h

/-- The mouse and the keyboard change no owners. -/
theorem Inv.moved (h : Inv s) {kwm : Kwm.State} (hsound : Kwm.Sound kwm)
    (hsame : Kwm.SameContent s.sys.kwm kwm) : Inv { s with sys.kwm := kwm } where
  sys := h.sys.moved hsound hsame
  made i hi u hu :=
    h.made i ((Kwm.active_of_content (hsame i)).symm.trans hi) u
      ((Kwm.owner_of_content (hsame i)).symm.trans hu)
  queue := h.queue
  irq := h.irq
  delivered := h.delivered

/-! ## Tasks -/

/-- A new task starts with an empty queue. -/
theorem Inv.create (h : Inv s) (l : Life) : Inv (s.create l) := by
  unfold State.create
  split
  · exact h
  next t hfind =>
  have hdead : s.life t = .dead := by simpa using List.find?_some hfind
  have hnone := h.noWindows (t := t) (by rw [hdead]; decide)
  have hset := (h.flushEventQueue t).setLife hnone l
  refine ⟨hset.sys, ?_, ?_, hset.irq, hset.delivered⟩
  · intro i hi u hu
    have hut : u ≠ t := by
      intro hut
      rw [hut] at hu
      exact hnone i hi hu
    simp only [Function.update_of_ne hut]
    exact hset.made i hi u hu
  · intro u
    by_cases hut : u = t
    · subst hut
      refine ⟨[], ?_, fun e he => by cases he⟩
      simp only [State.flushEventQueue, State.setQueue, State.setLife, Function.update_self]
      exact Queue.Holds.flush _
    · simp only [Function.update_of_ne hut]
      exact hset.queue u

theorem Inv.getEvent (h : Inv s) (t : Nat) : Inv (s.getEvent t) := by
  unfold State.getEvent
  split
  · obtain ⟨l, hl, hmaker⟩ := h.queue t
    obtain ⟨hhead, hrest⟩ := hl.pop
    have hset := h.setQueue hrest fun e he => hmaker e (List.mem_of_mem_tail he)
    simp only
    split
    · exact hset
    · next e he =>
      refine ⟨hset.sys, hset.made, hset.queue, hset.irq, ?_⟩
      intro d hd
      rcases List.mem_cons.mp hd with rfl | hold
      · rw [he] at hhead
        exact hmaker e (List.mem_of_mem_head? hhead.symm)
      · exact h.delivered d hold
  · exact h

/-! ## Interrupts -/

/-- Routing finds the task that has opened the window. -/
theorem Inv.route (h : Inv s) (cpu : Nat) {w : Option Nat} {target : Int}
    (hw : ∀ i, w = some i → (s.sys.kwm.windows i).active = true ∧
      (s.sys.kwm.windows i).ownerTask = target)
    (hnone : w = none → target < 0) (e : KyuzenEvent) : Inv (s.route cpu w target e) := by
  unfold State.route
  split
  · exact h
  next htarget =>
  refine ⟨h.sys, h.made, h.queue, ?_, h.delivered⟩
  intro c r hr
  by_cases hc : c = cpu
  · subst hc
    simp only [Function.update_self] at hr
    obtain rfl := Option.some.inj hr
    cases w with
    | none => exact absurd (hnone rfl) htarget
    | some i =>
      obtain ⟨hactive, howner⟩ := hw i rfl
      have hnat : target = (target.toNat : Int) := by omega
      have hmade := (h.made i hactive target.toNat (howner.trans hnat)).2
      simp only [State.madeBy, Option.bind_some, hactive, if_true, hmade]
  · simp only [Function.update_of_ne hc] at hr
    exact h.irq c r hr

theorem ownerOf_none {kwm : Kwm.State} {w : Option Nat} (hw : w = none) : (ownerOf kwm w).1 < 0 := by
  rw [hw]
  show (-1 : Int) < 0
  decide

theorem keyboardWindow_active {kwm : Kwm.State} {i : Nat} (h : keyboardWindow kwm = some i) :
    (kwm.windows i).active = true := by
  have hp := (Option.filter_eq_some_iff.mp h).2
  simp only [Bool.and_eq_true] at hp
  exact hp.2

theorem closeWindow_active {kwm : Kwm.State} {px py : Int} {leftDown leftUp : Bool} {i : Nat}
    (h : closeWindow kwm px py leftDown leftUp = some i) : (kwm.windows i).active = true := by
  unfold closeWindow at h
  split at h
  · cases h
  split at h
  · cases h
  split at h
  · exact (Kwm.hitTest_active (Option.filter_eq_some_iff.mp h).1).2
  · cases h

/-- No task has been created in the slot of the addressee since the event was routed. -/
def timely (s : State) : Step → Bool
  | .push cpu => (s.irq cpu).all fun r => s.born r.target.toNat = r.bornThen
  | _ => true

theorem Inv.pushEventTo (h : Inv s) {cpu : Nat} (htimely : timely s (.push cpu) = true) :
    Inv (s.pushEventTo cpu) := by
  unfold State.pushEventTo
  split
  · exact h
  next r hr =>
  have hidle : Inv { s with irq := Function.update s.irq cpu none } := by
    refine ⟨h.sys, h.made, h.queue, ?_, h.delivered⟩
    intro c r' hr'
    by_cases hc : c = cpu
    · subst hc
      simp only [Function.update_self] at hr'
      cases hr'
    · simp only [Function.update_of_ne hc] at hr'
      exact h.irq c r' hr'
  simp only
  split
  · exact hidle
  · obtain ⟨l, hl, hmaker⟩ := h.queue r.target.toNat
    obtain ⟨l', hpush, hsub⟩ := hl.push r.tagged
    refine hidle.setQueue hpush ?_
    intro e he
    rcases List.mem_append.mp he with hold | hnew
    · exact hmaker e (hsub e hold)
    · rw [List.mem_singleton.mp hnew, h.irq cpu r hr]
      have hborn : s.born r.target.toNat = r.bornThen := by
        rw [timely, hr, Option.all_some] at htimely
        exact of_decide_eq_true htimely
      show some (r.target.toNat, r.bornThen) = some (r.target.toNat, s.born r.target.toNat)
      rw [hborn]

/-! ## Runs -/

theorem Inv.step (h : Inv s) (e : Step) (htimely : timely s e = true) : Inv (step s e) := by
  cases e with
  | syscall t a => exact h.syscall t a
  | exec t =>
    simp only [Event.step, State.exec]
    split
    · next ht => exact h.withSys ht .exit
    · exact h
  | flush t =>
    simp only [Event.step]
    split
    · exact h.flushEventQueue t
    · exact h
  | getEvent t => exact h.getEvent t
  | returns t =>
    simp only [Event.step]
    split
    · next ht => exact h.setLife (h.noWindows (by rw [ht]; decide)) .leaving
    · exact h
  | exitFlush t =>
    simp only [Event.step]
    split
    · next ht => exact (h.flushEventQueue t).setLife (h.noWindows (by rw [ht]; decide)) .flushed
    · exact h
  | dies t =>
    simp only [Event.step]
    split
    · next ht => exact h.setLife (h.noWindows (by rw [ht]; decide)) .dead
    · exact h
  | createUserTask => exact h.create .user
  | createTask => exact h.create .kernel
  | shortcut mods released keyId =>
    exact h.moved (h.sys.sound.handleShortcut mods released keyId)
      (Kwm.SameContent.shortcut s.sys.kwm mods released keyId)
  | key cpu type ascii mods keyId =>
    simp only [Event.step]
    split
    · exact h
    · refine h.route cpu ?_ ownerOf_none _
      intro i hi
      refine ⟨keyboardWindow_active hi, ?_⟩
      show _ = (ownerOf s.sys.kwm (keyboardWindow s.sys.kwm)).1
      rw [hi, ownerOf]
  | mouse cpu px py leftDown leftUp =>
    simp only [Event.step]
    split
    · exact h
    · have hsame := Kwm.SameContent.mouse s.sys.kwm px py leftDown leftUp
      have hmoved := h.moved (h.sys.sound.processMouse px py leftDown leftUp) hsame
      refine hmoved.route cpu ?_ ownerOf_none _
      intro i hi
      rw [hi, ownerOf]
      exact ⟨(Kwm.active_of_content (hsame i)).trans (closeWindow_active hi),
        Kwm.owner_of_content (hsame i)⟩
  | mouseEvent cpu px py m =>
    simp only [Event.step]
    split
    · exact h
    · refine h.route cpu ?_ ownerOf_none _
      intro i hi
      refine ⟨(Kwm.hitTest_active hi).2, ?_⟩
      show _ = (ownerOf s.sys.kwm (Kwm.kwmHitTestLocked s.sys.kwm px py)).1
      rw [hi, ownerOf]
  | push cpu => exact h.pushEventTo htimely

/-- In a run in which no task is created in the slot of an addressee between routing and pushing,
every event that is returned belongs to a window that was open when the event was routed, and was
opened by the very task that gets the event. -/
theorem events_reach_addressee (fbWidth fbHeight : Nat) (empty : Tagged) (steps : List Step)
    (htimely : ∀ n e, steps[n]? = some e →
      timely (Lib.after step (State.init fbWidth fbHeight empty) steps n) e = true) (n : Nat) :
    ∀ d ∈ (Lib.after step (State.init fbWidth fbHeight empty) steps n).delivered,
      d.tagged.maker = some (d.slot, d.born) := by
  have hinv : Inv (Lib.after step (State.init fbWidth fbHeight empty) steps n) :=
    Lib.after_induction (Inv.init fbWidth fbHeight empty) (fun s e h hok => h.step e hok) htimely n
  exact hinv.delivered

/-- A slot of a queue that has not been written to. -/
def noEvent : Tagged := ⟨⟨0, 0, 0, 0, 0⟩, none⟩

/-- Task 1 opens a window, which gets the focus, and a key is pressed. -/
def keyPressed : List Step :=
  [.createUserTask, .syscall 1 (.createWindow (some fun _ => 0) 0 0 40 40), .key 0 1 97 0 30]

/-- Task 1 gets the key. -/
def keyRun : List Step := keyPressed ++ [.push 0, .getEvent 1]

theorem events_reach_addressee_key :
    (Lib.after step (State.init 100 100 noEvent) keyRun 5).delivered.map
        (fun d => d.tagged.event.param1) = [97] ∧
      ∀ d ∈ (Lib.after step (State.init 100 100 noEvent) keyRun 5).delivered,
        d.tagged.maker = some (d.slot, d.born) := by
  refine ⟨by decide +kernel, events_reach_addressee 100 100 noEvent keyRun ?_ 5⟩
  apply Lib.after_all
  decide +kernel

/-- The task exits on another CPU, and the next one is created in its slot, before the key is
pushed: the second task of slot 1 gets an event for a window of the first one. -/
theorem event_leaks :
    ¬∀ d ∈ (Lib.after step (State.init 100 100 noEvent) (keyPressed ++
        [.syscall 1 .exit, .exitFlush 1, .dies 1, .createUserTask, .push 0, .getEvent 1]) 9).delivered,
      d.tagged.maker = some (d.slot, d.born) := by
  decide +kernel

end Kyuzen.Event
