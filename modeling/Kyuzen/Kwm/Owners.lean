import Kyuzen.Kwm.Syscalls

/-!
# Windows belong to the task that has created them

Syscalls 31 and 32 look at a slot in one step and act on it in a later one, when the slot may hold
another window. The invariant says what stays true of the slot in between: if it belongs to the
caller at the end, it is the window of the first look, since only the caller, who is inside of the
syscall, could have destroyed or replaced it. So no window is changed by a task that has not
created it, and a blit copies exactly the bytes that have been checked (`window_ownership`).
-/

namespace Kyuzen.Kwm

variable {s s' s'' : State} {i : Nat} {t : Nat}

/-! ## What a step does to the windows -/

/-- A window without its place on the screen and in the stack. -/
def Window.content (w : Window) : Window := { w with x := 0, y := 0, zIndex := 0 }

def SameContent (s s' : State) : Prop := ∀ i, (s'.windows i).content = (s.windows i).content

theorem SameContent.refl (s : State) : SameContent s s := fun _ => rfl

theorem Restacked.sameContent (h : Restacked s s') : SameContent s s' := by
  intro i
  obtain ⟨z, hz⟩ := h i
  rw [hz]
  rfl

/-- Task `t` leaves the windows of other tasks alone, and opens none. -/
def Changes (t : Nat) (s s' : State) : Prop :=
  ∀ i, (s'.windows i).content = (s.windows i).content ∨
    (s.windows i).active = true ∧ (s.windows i).ownerTask = t ∧
      ((s'.windows i).active = true → (s'.windows i).ownerTask = t)

/-- Task `t` opens a window in the free slot `i`. -/
structure Opens (t i : Nat) (s s' : State) : Prop where
  free : (s.windows i).active = false
  active : (s'.windows i).active = true
  owner : (s'.windows i).ownerTask = t
  others : ∀ j, j ≠ i → (s'.windows j).content = (s.windows j).content

theorem SameContent.changes (h : SameContent s s') (t : Nat) : Changes t s s' :=
  fun i => Or.inl (h i)

theorem Changes.setWindow {w : Window} (hactive : (s.windows i).active = true)
    (howner : (s.windows i).ownerTask = t) (hw : w.active = true → w.ownerTask = t) :
    Changes t s (setWindow s i w) := by
  intro j
  by_cases hj : j = i
  · subst hj
    rw [setWindow_self]
    exact Or.inr ⟨hactive, howner, hw⟩
  · rw [setWindow_ne s w hj]
    exact Or.inl rfl

theorem Changes.freeSlot (hactive : (s.windows i).active = true)
    (howner : (s.windows i).ownerTask = t) : Changes t s (kwmFreeSlot s i) :=
  Changes.setWindow hactive howner (fun h => by cases h)

theorem Changes.congr (h : Changes t s s') (hw : s''.windows = s'.windows) : Changes t s s'' := by
  intro i
  rw [hw]
  exact h i

theorem Changes.setTitle (t : Nat) (s : State) (winId : Int) (title : Option (List UInt8)) :
    Changes t s (kwmSetTitle t s winId title).2.1 := by
  unfold kwmSetTitle
  split
  · rename_i i text _
    by_cases hno : (s.windows i).active = false ∨ (s.windows i).ownerTask ≠ t
    · rw [if_pos hno]
      exact (SameContent.refl s).changes t
    · rw [if_neg hno]
      rw [not_or, Bool.not_eq_false, not_not] at hno
      exact Changes.setWindow hno.1 hno.2 fun _ => hno.2
  · exact (SameContent.refl s).changes t

/-- What `kwm_update_window` can do: nothing, or a copy to a canvas of the caller. -/
theorem updateWindow_cases (t : Nat) (s : State) (winId : Int) (appBuffer : Option (Nat → Nat)) :
    (kwmUpdateWindow t s winId appBuffer).1 = s ∨
      ∃ i src canvas, slotOf winId = some i ∧ appBuffer = some src ∧
        (s.windows i).canvas = some canvas ∧ (s.windows i).active = true ∧
        (s.windows i).ownerTask = t ∧
        (kwmUpdateWindow t s winId appBuffer).1 = setWindow s i { s.windows i with
          canvas := some { canvas with
            pixels := fun k => if k < blitCount (s.windows i) then src k else canvas.pixels k } } := by
  unfold kwmUpdateWindow
  split
  · rename_i i src hslot
    dsimp only
    split
    · exact Or.inl rfl
    · rename_i canvas hcanvas
      by_cases hno : (s.windows i).active = false ∨ (s.windows i).ownerTask ≠ t
      · rw [if_pos hno]
        exact Or.inl rfl
      · rw [if_neg hno]
        rw [not_or, Bool.not_eq_false, not_not] at hno
        exact Or.inr ⟨i, src, canvas, hslot, rfl, hcanvas, hno.1, hno.2, rfl⟩
  · exact Or.inl rfl

theorem Changes.updateWindow (t : Nat) (s : State) (winId : Int)
    (appBuffer : Option (Nat → Nat)) : Changes t s (kwmUpdateWindow t s winId appBuffer).1 := by
  obtain heq | ⟨i, src, canvas, -, -, -, hactive, howner, heq⟩ :=
    updateWindow_cases t s winId appBuffer
  · rw [heq]
    exact (SameContent.refl s).changes t
  · rw [heq]
    exact Changes.setWindow hactive howner fun _ => howner

theorem Changes.destroyWindow {winId : Int} (hslot : slotOf winId = some i)
    (hactive : (s.windows i).active = true) (howner : (s.windows i).ownerTask = t) :
    Changes t s (kwmDestroyWindow s winId).1 := by
  have hfree := Changes.freeSlot hactive howner
  unfold kwmDestroyWindow
  rw [hslot]
  dsimp only
  rw [if_neg (by rw [hactive]; exact Bool.noConfusion)]
  split
  · exact hfree.congr rfl
  · exact hfree

theorem destroyUpTo_windows (t : Nat) (s : State) (n j : Nat) :
    ((destroyUpTo t s n).1.windows j = s.windows j ∧
      (j < n → ¬((s.windows j).active = true ∧ (s.windows j).ownerTask = t))) ∨
      ((s.windows j).active = true ∧ (s.windows j).ownerTask = t ∧
        ((destroyUpTo t s n).1.windows j).active = false) := by
  induction n with
  | zero => exact Or.inl ⟨rfl, fun h => absurd h (Nat.not_lt_zero j)⟩
  | succ n ih =>
    simp only [destroyUpTo]
    by_cases hmine : ((destroyUpTo t s n).1.windows n).active = true ∧
        ((destroyUpTo t s n).1.windows n).ownerTask = t
    · rw [if_pos hmine]
      by_cases hj : j = n
      · subst hj
        right
        obtain ⟨hsame, -⟩ | ⟨-, -, hfree⟩ := ih
        · rw [hsame] at hmine
          exact ⟨hmine.1, hmine.2, by simp [kwmFreeSlot]⟩
        · rw [hfree] at hmine
          cases hmine.1
      · have hkeep : (kwmFreeSlot (destroyUpTo t s n).1 n).windows j =
            (destroyUpTo t s n).1.windows j := setWindow_ne _ _ hj
        rw [hkeep]
        obtain ⟨hsame, hnot⟩ | hgone := ih
        · exact Or.inl ⟨hsame, fun hlt => hnot (by omega)⟩
        · exact Or.inr hgone
    · rw [if_neg hmine]
      obtain ⟨hsame, hnot⟩ | hgone := ih
      · refine Or.inl ⟨hsame, fun hlt => ?_⟩
        by_cases hj : j = n
        · subst hj
          rw [hsame] at hmine
          exact hmine
        · exact hnot (by omega)
      · exact Or.inr hgone

theorem destroyWindowsOf_windows (t : Nat) (s : State) :
    (kwmDestroyWindowsOf s t).1.windows = (destroyUpTo t s maxWindows).1.windows := by
  unfold kwmDestroyWindowsOf
  dsimp only
  split
  · rfl
  · rfl

theorem Changes.destroyWindowsOf (t : Nat) (s : State) :
    Changes t s (kwmDestroyWindowsOf s t).1 := by
  intro j
  rw [destroyWindowsOf_windows]
  obtain ⟨hsame, -⟩ | ⟨hactive, howner, hfree⟩ := destroyUpTo_windows t s maxWindows j
  · rw [hsame]
    exact Or.inl rfl
  · refine Or.inr ⟨hactive, howner, fun h => ?_⟩
    rw [hfree] at h
    cases h

/-- After an exit the task has no window in the table. -/
theorem destroyWindowsOf_none (t : Nat) (s : State) {j : Nat} (hj : j < maxWindows)
    (hactive : ((kwmDestroyWindowsOf s t).1.windows j).active = true) :
    ((kwmDestroyWindowsOf s t).1.windows j).ownerTask ≠ t := by
  rw [destroyWindowsOf_windows] at hactive ⊢
  obtain ⟨hsame, hnot⟩ | ⟨-, -, hfree⟩ := destroyUpTo_windows t s maxWindows j
  · rw [hsame] at hactive ⊢
    exact fun howner => hnot hj ⟨hactive, howner⟩
  · rw [hfree] at hactive
    cases hactive

theorem SameContent.activate (s : State) (winId : Int) :
    SameContent s (kwmActivateWindow s winId).2.1 := by
  unfold kwmActivateWindow
  split
  · exact SameContent.refl s
  · rename_i i _
    split
    · exact SameContent.refl s
    · exact (((Restacked.raise s i).trans (Restacked.normalizeIfLarge _)).trans
        (Restacked.normalizeIfLarge _)).sameContent

theorem SameContent.click (s : State) (px py : Int) : SameContent s (clickStep s px py).2.1 := by
  unfold clickStep
  split
  · exact SameContent.refl s
  · rename_i i _
    split
    · exact SameContent.refl s
    · have hraise : SameContent s (raise s i) := (Restacked.raise s i).sameContent
      dsimp only
      split
      · split
        · exact hraise
        · exact hraise
      · exact hraise
      · exact hraise

theorem SameContent.drag (s : State) (i : Nat) (px py : Int) :
    SameContent s (dragStep s i px py).1 := by
  intro j
  by_cases hj : j = i
  · subst hj
    simp only [dragStep, setWindow_self]
    rfl
  · simp only [dragStep, setWindow_ne s _ hj]

theorem SameContent.mouse (s : State) (px py : Int) (leftDown leftUp : Bool) :
    SameContent s (kwmProcessMouse s px py leftDown leftUp).2.1 := by
  unfold kwmProcessMouse
  split
  · exact SameContent.refl s
  · split
    · exact SameContent.drag s _ px py
    · split
      · exact SameContent.click s px py
      · exact SameContent.refl s

theorem SameContent.shortcut (s : State) (mods : Nat) (released : Bool) (keyId : Nat) :
    SameContent s (kwmHandleShortcut s mods released keyId).2.1 := by
  have hcycle : SameContent s (kwmCycleFocusLocked s) := by
    unfold kwmCycleFocusLocked
    split
    · rename_i i _
      exact ((Restacked.raise s i).trans (Restacked.normalizeIfLarge _)).sameContent
    · exact SameContent.refl s
  unfold kwmHandleShortcut
  split
  · exact SameContent.refl s
  · split
    · split
      · exact SameContent.refl s
      · exact hcycle
    · exact SameContent.refl s

theorem Opens.ofSetWindow {w : Window} (hfree : (s.windows i).active = false)
    (hactive : w.active = true) (howner : w.ownerTask = t)
    (hr : Restacked (setWindow s i w) s') : Opens t i s s' := by
  have hsame := hr.sameContent
  obtain ⟨z, hz⟩ := hr i
  rw [setWindow_self] at hz
  refine ⟨hfree, ?_, ?_, ?_⟩
  · rw [hz]
    exact hactive
  · rw [hz]
    exact howner
  · intro j hj
    rw [hsame j, setWindow_ne s w hj]

/-- A window is opened, or nothing happens. -/
def OpensAt (t : Nat) (s : State) (slot : Option Nat) (s' : State) : Prop :=
  slot = none ∧ s' = s ∨ ∃ i, slot = some i ∧ i < maxWindows ∧ Opens t i s s'

theorem opensAt_createWindow (t : Nat) (block : Option (Nat → Nat)) (s : State) (x y : Int)
    (width height : Nat) : OpensAt t s (kwmCreateWindow t block s x y width height).1
      (kwmCreateWindow t block s x y width height).2.1 := by
  obtain heq | ⟨i, canvas, hi, -, -, -, heq⟩ := createWindow_cases t block s x y width height
  · rw [heq]
    exact Or.inl ⟨rfl, rfl⟩
  · rw [heq]
    obtain ⟨hlt, hfree⟩ := freeSlot_spec hi
    exact Or.inr ⟨i, rfl, hlt,
      Opens.ofSetWindow hfree rfl rfl (createdAt_restacked s i t x y width height canvas)⟩

theorem opensAt_createDesktop (t : Nat) (block : Option (Nat → Nat)) (s : State) :
    OpensAt t s (kwmCreateDesktop t block s).1 (kwmCreateDesktop t block s).2.1 := by
  obtain heq | ⟨i, canvas, hi, -, -, heq⟩ := createDesktop_cases t block s
  · rw [heq]
    exact Or.inl ⟨rfl, rfl⟩
  · rw [heq]
    obtain ⟨hlt, hfree⟩ := freeSlot_spec hi
    refine Or.inr ⟨i, rfl, hlt, Opens.ofSetWindow hfree ?_ ?_ (Restacked.refl _)⟩
    · rfl
    · rfl

/-! ## The invariant -/

/-- What belongs to a window but for its place: whether it is there, its size, its pixels and its
title. -/
def Window.shown (w : Window) : Bool × Nat × Nat × Option Canvas × List UInt8 :=
  (w.active, w.width, w.height, w.canvas, w.title)

theorem shown_of_content {w w' : Window} (h : w'.content = w.content) : w'.shown = w.shown := by
  have hshown := congrArg Window.shown h
  exact hshown

theorem active_of_content {w w' : Window} (h : w'.content = w.content) : w'.active = w.active := by
  have hactive := congrArg Window.active h
  exact hactive

theorem owner_of_content {w w' : Window} (h : w'.content = w.content) :
    w'.ownerTask = w.ownerTask := by
  have howner := congrArg Window.ownerTask h
  exact howner

theorem size_of_content {w w' : Window} (h : w'.content = w.content) :
    w'.width * w'.height = w.width * w.height := by
  have hsize := congrArg (fun v => v.width * v.height) h
  exact hsize

/-- If the slot belongs to task `t`, its canvas has `bytes` bytes. -/
def SizeKnown (s : State) (t : Nat) (winId : Int) (bytes : Nat) : Prop :=
  ∀ i, slotOf winId = some i → (s.windows i).active = true → (s.windows i).ownerTask = t →
    bytes = (s.windows i).width * (s.windows i).height * 4

/-- What a task that is inside of a syscall can rely on. -/
def PhaseOk (s : State) (t : Nat) : Phase → Prop
  | .idle => True
  | .sized winId _ bytes => SizeKnown s t winId bytes
  | .checked ctx winId buf bytes => SizeKnown s t winId bytes ∧ userRangeOk ctx buf bytes = true
  | .owner winId => ∃ i, slotOf winId = some i ∧ (s.windows i).active = true ∧
      (s.windows i).ownerTask = t

structure SysInv (s : Sys) : Prop where
  sound : Sound s.kwm
  small : ∀ i, (s.kwm.windows i).active = true → i < maxWindows
  owner : ∀ i, (s.kwm.windows i).active = true →
    ∃ t : Nat, (s.kwm.windows i).ownerTask = t ∧ s.creator i = s.task t
  phase : ∀ t, PhaseOk s.kwm t (s.phase t)

/-- Windows that belong to other tasks than `t`, before or after the step, are the same. -/
def Spares (t : Nat) (s s' : State) : Prop :=
  ∀ i, (s.windows i).active = true ∧ (s.windows i).ownerTask ≠ t ∨
      (s'.windows i).active = true ∧ (s'.windows i).ownerTask ≠ t →
    (s'.windows i).content = (s.windows i).content

theorem Changes.spares (h : Changes t s s') : Spares t s s' := by
  intro i hi
  obtain hsame | ⟨hactive, howner, hstay⟩ := h i
  · exact hsame
  · obtain ⟨-, hne⟩ | ⟨hactive', hne⟩ := hi
    · exact absurd howner hne
    · exact absurd (hstay hactive') hne

theorem Opens.spares (h : Opens t i s s') : Spares t s s' := by
  intro j hj
  apply h.others
  rintro rfl
  obtain ⟨hactive, -⟩ | ⟨-, hne⟩ := hj
  · rw [h.free] at hactive
    cases hactive
  · exact hne h.owner

/-- Other tasks do not disturb a task that is inside of a syscall. -/
theorem PhaseOk.spares {u : Nat} (hu : u ≠ t) (h : Spares t s s') {p : Phase}
    (hp : PhaseOk s u p) : PhaseOk s' u p := by
  have hne : (u : Int) ≠ t := fun heq => hu (Int.ofNat.inj heq)
  have hsize : ∀ {winId bytes}, SizeKnown s u winId bytes → SizeKnown s' u winId bytes := by
    intro winId bytes hknown i hi hactive howner
    have hsame := h i (Or.inr ⟨hactive, by rw [howner]; exact hne⟩)
    rw [size_of_content hsame]
    rw [active_of_content hsame] at hactive
    rw [owner_of_content hsame] at howner
    exact hknown i hi hactive howner
  cases p with
  | idle => trivial
  | sized winId buf bytes => exact hsize hp
  | checked ctx winId buf bytes => exact ⟨hsize hp.1, hp.2⟩
  | owner winId =>
    obtain ⟨i, hi, hactive, howner⟩ := hp
    have hsame := h i (Or.inl ⟨hactive, by rw [howner]; exact hne⟩)
    rw [← active_of_content hsame] at hactive
    rw [← owner_of_content hsame] at howner
    exact ⟨i, hi, hactive, howner⟩

theorem PhaseOk.sameContent {p : Phase} (h : SameContent s s') (hp : PhaseOk s t p) :
    PhaseOk s' t p := by
  have hany : Spares (t + 1) s s' := fun i _ => h i
  exact PhaseOk.spares (Nat.succ_ne_self t).symm hany hp

/-! ## Steps -/

/-- What a step of task `t` can do. -/
inductive Effect (t : Nat) (s s' : Sys) : Prop
  | changes (hkwm : Changes t s.kwm s'.kwm) (hcreator : s'.creator = s.creator)
      (hexits : s'.exits = s.exits) (hothers : ∀ u, u ≠ t → s'.phase u = s.phase u)
      (hphase : PhaseOk s'.kwm t (s'.phase t))
  | opens (i : Nat) (hi : i < maxWindows) (hkwm : Opens t i s.kwm s'.kwm)
      (hcreator : s'.creator = Function.update s.creator i (s.task t))
      (hexits : s'.exits = s.exits) (hphase : s'.phase = s.phase) (hidle : s.phase t = .idle)
  | exits (hkwm : Changes t s.kwm s'.kwm)
      (hnone : ∀ i < maxWindows, (s'.kwm.windows i).active = true →
        (s'.kwm.windows i).ownerTask ≠ t)
      (hcreator : s'.creator = s.creator)
      (hexits : s'.exits = Function.update s.exits t (s.exits t + 1))
      (hphase : s'.phase = s.phase) (hidle : s.phase t = .idle)

theorem Effect.opened {s : Sys} {kwm : State} {slot : Option Nat} (hidle : s.phase t = .idle)
    (h : OpensAt t s.kwm slot kwm) : Effect t s (opened s t slot kwm) := by
  obtain ⟨rfl, rfl⟩ | ⟨i, rfl, hi, hopen⟩ := h
  · apply Effect.changes ((SameContent.refl _).changes t) rfl rfl (fun _ _ => rfl)
    show PhaseOk s.kwm t (s.phase t)
    rw [hidle]
    trivial
  · exact Effect.opens i hi hopen rfl rfl rfl hidle

theorem Effect.enter {s : Sys} {kwm : State} {p : Phase} (hkwm : Changes t s.kwm kwm)
    (hp : PhaseOk kwm t p) : Effect t s (Sys.enter { s with kwm := kwm } t p) := by
  refine Effect.changes hkwm rfl rfl ?_ ?_
  · intro u hu
    exact Function.update_of_ne hu p s.phase
  · show PhaseOk kwm t (Function.update s.phase t p t)
    rw [Function.update_self]
    exact hp

theorem Effect.stay {s : Sys} {kwm : State} (hkwm : Changes t s.kwm kwm)
    (hp : PhaseOk kwm t (s.phase t)) : Effect t s { s with kwm := kwm } :=
  Effect.changes hkwm rfl rfl (fun _ _ => rfl) hp

theorem sizeKnown_canvasBytes (s : State) (t : Nat) (winId : Int) :
    SizeKnown s t winId (kwmWindowCanvasBytes s winId) := by
  intro i hi hactive _
  simp only [kwmWindowCanvasBytes, hi, hactive, if_true]

theorem owner_askOwner {winId : Int} (h : kwmWindowOwner s winId = t) :
    PhaseOk s t (.owner winId) := by
  unfold kwmWindowOwner at h
  cases hslot : slotOf winId with
  | none =>
    rw [hslot] at h
    have h : (-1 : Int) = t := h
    omega
  | some i =>
    rw [hslot] at h
    dsimp only at h
    split at h
    · rename_i hactive
      exact ⟨i, hslot, hactive, h⟩
    · omega

theorem act_effect {s : Sys} (h : SysInv s) (t : Nat) (a : Act) : Effect t s (act s t a) := by
  have hphase := h.phase t
  have hnothing : ∀ p, s.phase t = p → Effect t s s := by
    intro p hp
    exact Effect.stay ((SameContent.refl _).changes t) hphase
  unfold act
  split
  · rename_i hidle
    exact Effect.opened hidle (opensAt_createWindow t _ s.kwm _ _ _ _)
  · rename_i hidle
    exact Effect.opened hidle (opensAt_createDesktop t _ s.kwm)
  · rename_i hidle
    split
    · exact hnothing _ hidle
    · apply Effect.stay (Changes.setTitle t s.kwm _ _)
      rw [hidle]
      trivial
  · rename_i hidle
    apply Effect.stay ((SameContent.activate s.kwm _).changes t)
    rw [hidle]
    trivial
  · exact Effect.enter ((SameContent.refl _).changes t) (sizeKnown_canvasBytes s.kwm t _)
  · rename_i hsized
    rw [hsized] at hphase
    split
    · rename_i hok
      exact Effect.enter ((SameContent.refl _).changes t) ⟨hphase, hok.2⟩
    · exact Effect.enter ((SameContent.refl _).changes t) trivial
  · exact Effect.enter (Changes.updateWindow t s.kwm _ _) trivial
  · rename_i hidle
    split
    · rename_i howner
      exact Effect.enter ((SameContent.refl _).changes t) (owner_askOwner howner)
    · exact hnothing _ hidle
  · rename_i howner
    rw [howner] at hphase
    obtain ⟨i, hi, hactive, howner⟩ := hphase
    exact Effect.enter (Changes.destroyWindow hi hactive howner) trivial
  · rename_i hidle
    exact Effect.exits (Changes.destroyWindowsOf t s.kwm)
      (fun i hi => destroyWindowsOf_none t s.kwm hi) rfl rfl rfl hidle
  · exact hnothing _ rfl

theorem act_sound {s : Sys} (h : Sound s.kwm) (t : Nat) (a : Act) : Sound (act s t a).kwm := by
  unfold act
  split
  · exact h.createWindow t _ _ _ _ _
  · exact h.createDesktop t _
  · split
    · exact h
    · exact h.setTitle t _ _
  · exact h.activateWindow _
  · exact h
  · split
    · exact h
    · exact h
  · exact h.updateWindow t _ _
  · split
    · exact h
    · exact h
  · exact h.destroyWindow _
  · exact h.destroyWindowsOf t
  · exact h

/-- A window that is there after a change was there before, with the same owner. -/
theorem Changes.before (h : Changes t s s') (hactive : (s'.windows i).active = true) :
    (s.windows i).active = true ∧ (s.windows i).ownerTask = (s'.windows i).ownerTask := by
  obtain hsame | ⟨hactive', howner, hstay⟩ := h i
  · exact ⟨(active_of_content hsame).symm.trans hactive, (owner_of_content hsame).symm⟩
  · exact ⟨hactive', howner.trans (hstay hactive).symm⟩

theorem SysInv.effect {s s' : Sys} (h : SysInv s) (hsound : Sound s'.kwm)
    (heffect : Effect t s s') : SysInv s' := by
  cases heffect with
  | changes hkwm hcreator hexits hothers hphase =>
    refine ⟨hsound, fun i hi => h.small i (hkwm.before hi).1, ?_, ?_⟩
    · intro i hi
      obtain ⟨hbefore, howner⟩ := hkwm.before hi
      obtain ⟨u, hu, hcreated⟩ := h.owner i hbefore
      refine ⟨u, howner.symm.trans hu, ?_⟩
      rw [hcreator, hcreated, Sys.task, Sys.task, hexits]
    · intro u
      by_cases hu : u = t
      · subst hu
        exact hphase
      · rw [hothers u hu]
        exact (h.phase u).spares hu hkwm.spares
  | opens i hi hkwm hcreator hexits hphase hidle =>
    have hbefore : ∀ j, j ≠ i → (s'.kwm.windows j).active = true →
        (s.kwm.windows j).active = true := by
      intro j hj hactive
      rw [← active_of_content (hkwm.others j hj)]
      exact hactive
    refine ⟨hsound, ?_, ?_, ?_⟩
    · intro j hactive
      by_cases hj : j = i
      · rw [hj]
        exact hi
      · exact h.small j (hbefore j hj hactive)
    · intro j hactive
      by_cases hj : j = i
      · subst hj
        refine ⟨t, hkwm.owner, ?_⟩
        rw [hcreator, Function.update_self, Sys.task, Sys.task, hexits]
      · obtain ⟨u, hu, hcreated⟩ := h.owner j (hbefore j hj hactive)
        refine ⟨u, (owner_of_content (hkwm.others j hj)).trans hu, ?_⟩
        rw [hcreator, Function.update_of_ne hj, hcreated, Sys.task, Sys.task, hexits]
    · intro u
      rw [hphase]
      by_cases hu : u = t
      · subst hu
        rw [hidle]
        trivial
      · exact (h.phase u).spares hu hkwm.spares
  | exits hkwm hnone hcreator hexits hphase hidle =>
    have hsmall : ∀ i, (s'.kwm.windows i).active = true → i < maxWindows :=
      fun i hi => h.small i (hkwm.before hi).1
    refine ⟨hsound, hsmall, ?_, ?_⟩
    · intro i hi
      obtain ⟨hbefore, howner⟩ := hkwm.before hi
      obtain ⟨u, hu, hcreated⟩ := h.owner i hbefore
      have hut : u ≠ t := by
        rintro rfl
        exact hnone i (hsmall i hi) hi (howner.symm.trans hu)
      refine ⟨u, howner.symm.trans hu, ?_⟩
      rw [hcreator, hcreated, Sys.task, Sys.task, hexits, Function.update_of_ne hut]
    · intro u
      rw [hphase]
      by_cases hu : u = t
      · subst hu
        rw [hidle]
        trivial
      · exact (h.phase u).spares hu hkwm.spares

/-- The mouse and the keyboard move windows, no more. -/
theorem SysInv.moved {s : Sys} {kwm : State} (h : SysInv s) (hsound : Sound kwm)
    (hsame : SameContent s.kwm kwm) : SysInv { s with kwm := kwm } := by
  refine ⟨hsound, ?_, ?_, ?_⟩
  · intro i hi
    exact h.small i ((active_of_content (hsame i)).symm.trans hi)
  · intro i hi
    obtain ⟨u, hu, hcreated⟩ := h.owner i ((active_of_content (hsame i)).symm.trans hi)
    exact ⟨u, (owner_of_content (hsame i)).trans hu, hcreated⟩
  · exact fun u => (h.phase u).sameContent hsame

theorem SysInv.step {s : Sys} (h : SysInv s) (e : Event) : SysInv (sysStep s e) := by
  cases e with
  | task t a => exact h.effect (act_sound h.sound t a) (act_effect h t a)
  | mouse px py leftDown leftUp =>
    exact h.moved (h.sound.processMouse px py leftDown leftUp)
      (SameContent.mouse s.kwm px py leftDown leftUp)
  | shortcut mods released keyId =>
    exact h.moved (h.sound.handleShortcut mods released keyId)
      (SameContent.shortcut s.kwm mods released keyId)

theorem sysInv_run (fbWidth fbHeight : Nat) (es : List Event) : SysInv (sysRun fbWidth fbHeight es) := by
  have hboot : SysInv (sysBoot fbWidth fbHeight) := by
    refine ⟨sound_boot fbWidth fbHeight, ?_, ?_, fun _ => trivial⟩
    · intro i hi
      cases hi
    · intro i hi
      cases hi
  have hrun : ∀ s, SysInv s → SysInv (es.foldl sysStep s) := by
    induction es with
    | nil => exact fun s hs => hs
    | cons e es ih => exact fun s hs => ih (sysStep s e) (hs.step e)
  exact hrun _ hboot

/-! ## Ownership -/

/-- The blit of syscall 31 does nothing, or it copies exactly the range of the caller that
`user_range_ok` has accepted, which is as large as the canvas. -/
def BlitExact (s : State) (ctx : UcopyCtx) (winId : Int) (buf bytes : Nat) (mem : Nat → Nat)
    (s' : State) : Prop :=
  s' = s ∨ ∃ i canvas, slotOf winId = some i ∧ (s.windows i).canvas = some canvas ∧
    userRangeOk ctx buf bytes = true ∧ bytes = (s.windows i).width * (s.windows i).height * 4 ∧
    bytes = canvas.count * 4 ∧
    s' = setWindow s i { s.windows i with
      canvas := some { canvas with
        pixels := fun k => if 4 * k < bytes then mem (buf + 4 * k) else canvas.pixels k } }

/-- A step respects the owners of windows. -/
structure Owned (s : Sys) (e : Event) : Prop where
  changed : ∀ i, (s.kwm.windows i).active = true →
    ((sysStep s e).kwm.windows i).shown ≠ (s.kwm.windows i).shown →
    e.actor s = some (s.creator i)
  created : ∀ i, (s.kwm.windows i).active = false →
    ((sysStep s e).kwm.windows i).active = true →
    e.actor s = some ((sysStep s e).creator i)
  kept : ∀ i, (s.kwm.windows i).active = true → (sysStep s e).creator i = s.creator i
  blit : ∀ t mem ctx winId buf bytes, e = .task t (.update mem) →
    s.phase t = .checked ctx winId buf bytes →
    BlitExact s.kwm ctx winId buf bytes mem (sysStep s e).kwm

theorem userRangeOk_len {ctx : UcopyCtx} {buf bytes : Nat} (h : userRangeOk ctx buf bytes = true) :
    buf ≠ 0 ∧ bytes ≤ ucMaxRange := by
  unfold userRangeOk at h
  by_cases hnull : buf = 0
  · rw [if_pos hnull] at h
    cases h
  rw [if_neg hnull] at h
  by_cases hzero : bytes = 0
  · exact ⟨hnull, by omega⟩
  rw [if_neg hzero] at h
  by_cases hlarge : bytes > ucMaxRange
  · rw [if_pos hlarge] at h
    cases h
  · exact ⟨hnull, by omega⟩

theorem SysInv.blit {s : Sys} (h : SysInv s) {ctx : UcopyCtx} {winId : Int} {buf bytes : Nat}
    (hphase : s.phase t = .checked ctx winId buf bytes) (mem : Nat → Nat) :
    BlitExact s.kwm ctx winId buf bytes mem
      (kwmUpdateWindow t s.kwm winId (userBuffer mem buf)).1 := by
  have hok := h.phase t
  rw [hphase] at hok
  obtain ⟨hsize, hrange⟩ := hok
  obtain ⟨hnull, hmax⟩ := userRangeOk_len hrange
  obtain heq | ⟨i, src, canvas, hi, hsrc, hcanvas, hactive, howner, heq⟩ :=
    updateWindow_cases t s.kwm winId (userBuffer mem buf)
  · exact Or.inl heq
  · right
    have hbytes := hsize i hi hactive howner
    have hcount : canvas.count = (s.kwm.windows i).width * (s.kwm.windows i).height := by
      have hfits := h.sound.canvas i (h.small i hactive)
      unfold Window.CanvasFits at hfits
      rw [hcanvas, if_pos hactive] at hfits
      exact Option.some.inj hfits
    have hlimit : ucMaxRange = 67108864 := rfl
    have hblit : blitCount (s.kwm.windows i) = canvas.count := by
      rw [hcount]
      exact Nat.mod_eq_of_lt (by omega)
    have hread : src = fun k => mem (buf + 4 * k) := by
      unfold userBuffer at hsrc
      rw [if_neg hnull] at hsrc
      exact (Option.some.inj hsrc).symm
    refine ⟨i, canvas, hi, hcanvas, hrange, hbytes, by omega, ?_⟩
    have hpixels : (fun k => if k < blitCount (s.kwm.windows i) then src k else canvas.pixels k) =
        fun k => if 4 * k < bytes then mem (buf + 4 * k) else canvas.pixels k := by
      ext k
      rw [hblit, hread]
      by_cases hk : k < canvas.count
      · rw [if_pos hk, if_pos (by omega)]
      · rw [if_neg hk, if_neg (by omega)]
    rw [heq, hpixels]

theorem act_update {s : Sys} {ctx : UcopyCtx} {winId : Int} {buf bytes : Nat}
    (hphase : s.phase t = .checked ctx winId buf bytes) (mem : Nat → Nat) :
    (act s t (.update mem)).kwm = (kwmUpdateWindow t s.kwm winId (userBuffer mem buf)).1 := by
  unfold act
  rw [hphase]
  rfl

/-- An event that only restacks the windows leaves them to their owners. -/
theorem owned_of_sameContent {s : Sys} {e : Event} {kwm : State} (hsame : SameContent s.kwm kwm)
    (hstep : sysStep s e = { s with kwm := kwm }) (hne : ∀ t mem, e ≠ .task t (.update mem)) :
    Owned s e := by
  refine ⟨?_, ?_, ?_, ?_⟩
  · intro i _ hshown
    rw [hstep] at hshown
    exact absurd (shown_of_content (hsame i)) hshown
  · intro i hfree hactive
    rw [hstep] at hactive
    have hactive : (kwm.windows i).active = true := hactive
    rw [active_of_content (hsame i), hfree] at hactive
    cases hactive
  · intro i _
    rw [hstep]
  · intro t mem ctx winId buf bytes he
    exact absurd he (hne t mem)

/-- A blit reads exactly what was checked. -/
theorem SysInv.blitExact {s : Sys} (h : SysInv s) {t : Nat} {a : Act} :
    ∀ u mem ctx winId buf bytes, Event.task t a = .task u (.update mem) →
      s.phase u = .checked ctx winId buf bytes →
      BlitExact s.kwm ctx winId buf bytes mem (sysStep s (.task t a)).kwm := by
  intro u mem ctx winId buf bytes he hphase
  cases he
  show BlitExact s.kwm ctx winId buf bytes mem (act s t (.update mem)).kwm
  rw [act_update hphase]
  exact h.blit hphase mem

/-- The owner of an active window is the task that has created it. -/
theorem SysInv.created_by_owner {s : Sys} (h : SysInv s) {t i : Nat}
    (hactive : (s.kwm.windows i).active = true) (howner : (s.kwm.windows i).ownerTask = t) :
    s.task t = s.creator i := by
  obtain ⟨u, hu, hcreated⟩ := h.owner i hactive
  have hut : u = t := Int.ofNat.inj (hu.symm.trans howner)
  rw [hcreated, hut]

theorem SysInv.owned_of_changes {s : Sys} (h : SysInv s) {t : Nat} {a : Act}
    (hkwm : Changes t s.kwm (act s t a).kwm) (hcreator : (act s t a).creator = s.creator) :
    Owned s (.task t a) := by
  refine ⟨?_, ?_, fun i _ => congrFun hcreator i, h.blitExact⟩
  · intro i hactive hshown
    obtain hsame | ⟨-, howner, -⟩ := hkwm i
    · exact absurd (shown_of_content hsame) hshown
    · exact congrArg some (h.created_by_owner hactive howner)
  · intro i hfree hactive
    rw [(hkwm.before hactive).1] at hfree
    cases hfree

theorem SysInv.owned {s : Sys} (h : SysInv s) (e : Event) : Owned s e := by
  cases e with
  | mouse px py leftDown leftUp =>
    apply owned_of_sameContent (SameContent.mouse s.kwm px py leftDown leftUp) rfl
    intro t mem he
    cases he
  | shortcut mods released keyId =>
    apply owned_of_sameContent (SameContent.shortcut s.kwm mods released keyId) rfl
    intro t mem he
    cases he
  | task t a =>
    cases act_effect h t a with
    | changes hkwm hcreator _ _ _ => exact h.owned_of_changes hkwm hcreator
    | exits hkwm _ hcreator _ _ _ => exact h.owned_of_changes hkwm hcreator
    | opens i hi hkwm hcreator hexits hphase hidle =>
      -- the new window was no window before
      have hother : ∀ {j}, (s.kwm.windows j).active = true → j ≠ i := by
        rintro j hactive rfl
        rw [hkwm.free] at hactive
        cases hactive
      refine ⟨?_, ?_, ?_, h.blitExact⟩
      · intro j hactive hshown
        exact absurd (shown_of_content (hkwm.others j (hother hactive))) hshown
      · intro j hfree hactive
        by_cases hj : j = i
        · subst hj
          show some (s.task t) = some ((act s t a).creator j)
          rw [hcreator, Function.update_self]
        · have hactive : ((act s t a).kwm.windows j).active = true := hactive
          rw [active_of_content (hkwm.others j hj), hfree] at hactive
          cases hactive
      · intro j hactive
        show (act s t a).creator j = s.creator j
        rw [hcreator, Function.update_of_ne (hother hactive)]

/-- In every interleaving of the syscalls of any tasks, a window's pixels, title, size and existence
change only by a step of the task that has created it, and a blit reads exactly the range that has
been checked for the caller. -/
theorem window_ownership (fbWidth fbHeight : Nat) (es : List Event) (e : Event) :
    Owned (sysRun fbWidth fbHeight es) e :=
  (sysInv_run fbWidth fbHeight es).owned e

end Kyuzen.Kwm
