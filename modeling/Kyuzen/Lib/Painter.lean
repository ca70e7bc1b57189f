import Mathlib.Data.List.Basic

/-!
# Clipped painters

A painter changes a buffer of values, one for each point, and is given a clip. It is clipped when
a point inside the clip gets a value that is computed from its own old value alone, in the same
way for every clip, and a point outside keeps its value. Painters that are clipped compose, and
may be repeated over a list or skipped where the clip misses their area. What they leave is then
the same whether the points are painted in one clip or in several.
-/

namespace Kyuzen.Lib

variable {C P V A : Type*} {In : C → P → Prop} {area area' : P → Prop}
variable {f f' : C → (P → V) → P → V} {g g' : P → V → V}

/-- `f` computes the value of a point with `g`, which leaves the points outside `area` alone. -/
structure Clipped (In : C → P → Prop) (area : P → Prop) (f : C → (P → V) → P → V)
    (g : P → V → V) : Prop where
  inside : ∀ c buf p, In c p → f c buf p = g p (buf p)
  outside : ∀ c buf p, ¬ In c p → f c buf p = buf p
  confined : ∀ p v, ¬ area p → g p v = v

/-- A clipped painter of `area`. -/
def Paints (In : C → P → Prop) (area : P → Prop) (f : C → (P → V) → P → V) : Prop :=
  ∃ g, Clipped In area f g

theorem Paints.id : Paints In area fun _ (buf : P → V) => buf :=
  ⟨fun _ v => v, fun _ _ _ _ => rfl, fun _ _ _ _ => rfl, fun _ _ _ => rfl⟩

theorem Paints.mono (h : Paints In area f) (harea : ∀ p, area p → area' p) :
    Paints In area' f := by
  obtain ⟨g, hg⟩ := h
  exact ⟨g, hg.inside, hg.outside, fun p v hp => hg.confined p v fun ha => hp (harea p ha)⟩

theorem Clipped.comp (h : Clipped In area f g) (h' : Clipped In area f' g') :
    Clipped In area (fun c buf => f' c (f c buf)) fun p v => g' p (g p v) where
  inside c buf p hp := by rw [h'.inside c _ p hp, h.inside c buf p hp]
  outside c buf p hp := by rw [h'.outside c _ p hp, h.outside c buf p hp]
  confined p v hp := by rw [h'.confined p _ hp, h.confined p v hp]

theorem Paints.comp (h : Paints In area f) (h' : Paints In area f') :
    Paints In area fun c buf => f' c (f c buf) := by
  obtain ⟨g, hg⟩ := h
  obtain ⟨g', hg'⟩ := h'
  exact ⟨_, hg.comp hg'⟩

/-- A loop of painters, after a first one. -/
theorem Paints.foldl {paint : A → C → (P → V) → P → V} (l : List A) (hf : Paints In area f)
    (h : ∀ a ∈ l, Paints In area (paint a)) :
    Paints In area fun c buf => l.foldl (fun buf a => paint a c buf) (f c buf) := by
  induction l generalizing f with
  | nil => exact hf
  | cons a l ih =>
    apply ih (hf.comp (h a List.mem_cons_self))
    exact fun b hb => h b (List.mem_cons_of_mem a hb)

theorem Paints.ite (b : Prop) [Decidable b] (h : b → Paints In area f)
    (h' : ¬ b → Paints In area f') :
    Paints In area fun c buf => if b then f c buf else f' c buf := by
  by_cases hb : b
  · simp only [if_pos hb]
    exact h hb
  · simp only [if_neg hb]
    exact h' hb

/-- The clips may be given in another way. -/
theorem Paints.comap {C' : Type*} (h : Paints In area f) (φ : C' → C) :
    Paints (fun c => In (φ c)) area fun c => f (φ c) := by
  obtain ⟨g, hg⟩ := h
  exact ⟨g, fun c => hg.inside (φ c), fun c => hg.outside (φ c), hg.confined⟩

/-- Only the part of the area counts that some clip can reach. -/
theorem Paints.within (h : Paints In area f) {on : P → Prop} (hon : ∀ c p, In c p → on p) :
    Paints In (fun p => area p ∧ on p) f := by
  classical
  obtain ⟨g, hg⟩ := h
  refine ⟨fun p v => if on p then g p v else v, ?_, hg.outside, ?_⟩
  · intro c buf p hp
    rw [hg.inside c buf p hp, if_pos (hon c p hp)]
  · intro p v hp
    by_cases hp' : on p
    · exact (if_pos hp').trans (hg.confined p v fun ha => hp ⟨ha, hp'⟩)
    · exact if_neg hp'

/-- The painter may be skipped when no point of its area is in the clip. -/
theorem Paints.guard (h : Paints In area f) (test : C → Prop) [DecidablePred test]
    (htest : ∀ c p, In c p → area p → test c) :
    Paints In area fun c buf => if test c then f c buf else buf := by
  obtain ⟨g, hg⟩ := h
  refine ⟨g, ?_, ?_, hg.confined⟩
  · intro c buf p hp
    by_cases ht : test c
    · simp only [if_pos ht]
      exact hg.inside c buf p hp
    · simp only [if_neg ht]
      have hout : ¬ area p := fun ha => ht (htest c p hp ha)
      exact (hg.confined p (buf p) hout).symm
  · intro c buf p hp
    split
    · exact hg.outside c buf p hp
    · rfl

theorem Paints.keeps (h : Paints In area f) {c : C} {p : P} (hp : ¬ area p) (buf : P → V) :
    f c buf p = buf p := by
  obtain ⟨g, hg⟩ := h
  by_cases hin : In c p
  · rw [hg.inside c buf p hin]
    exact hg.confined p _ hp
  · exact hg.outside c buf p hin

/-- Clips are restored to `base` and painted, one after the other, over whatever was there. -/
theorem Clipped.foldl_restore {restore : C → (P → V) → P → V} {base : P → V}
    (h : Clipped In area f g) (clips : List C)
    (hr : ∀ c ∈ clips, ∀ buf p, In c p → restore c buf p = base p)
    (hr' : ∀ c ∈ clips, ∀ buf p, ¬ In c p → restore c buf p = buf p) (buf : P → V)
    {p : P} (hp : (∃ c ∈ clips, In c p) ∨ buf p = g p (base p)) :
    clips.foldl (fun buf c => f c (restore c buf)) buf p = g p (base p) := by
  induction clips generalizing buf with
  | nil =>
    obtain ⟨c, hc, -⟩ | hdone := hp
    · cases hc
    · exact hdone
  | cons c clips ih =>
    apply ih
    · exact fun c' hc' => hr c' (List.mem_cons_of_mem c hc')
    · exact fun c' hc' => hr' c' (List.mem_cons_of_mem c hc')
    · by_cases hin : In c p
      · -- painted now
        right
        show f c (restore c buf) p = g p (base p)
        rw [h.inside c _ p hin, hr c List.mem_cons_self buf p hin]
      · show (∃ c ∈ clips, In c p) ∨ f c (restore c buf) p = g p (base p)
        rw [h.outside c _ p hin, hr' c List.mem_cons_self buf p hin]
        obtain ⟨c', hc', hin'⟩ | hdone := hp
        · rcases List.mem_cons.mp hc' with rfl | hmem
          · exact absurd hin' hin
          · exact Or.inl ⟨c', hmem, hin'⟩
        · exact Or.inr hdone

/-! ## The value of one point -/

section Value

variable {p : P} {pre mid post inv : V → Prop} {F G : (P → V) → P → V}

/-- Where the value of the point has the property `pre`, the new value has `post`. -/
def Leads (p : P) (pre post : V → Prop) (F : (P → V) → P → V) : Prop :=
  ∀ buf, pre (buf p) → post (F buf p)

theorem Leads.id : Leads p inv inv fun (buf : P → V) => buf := fun _ hinv => hinv

theorem Paints.leads (h : Paints In area f) (c : C) (hp : ¬ area p) : Leads p inv inv (f c) := by
  intro buf hinv
  rw [h.keeps hp]
  exact hinv

theorem Leads.comp (h : Leads p pre mid F) (h' : Leads p mid post G) :
    Leads p pre post fun buf => G (F buf) :=
  fun buf hpre => h' _ (h buf hpre)

/-- A loop that keeps an invariant of the value. -/
theorem Leads.foldl {paint : A → (P → V) → P → V} {l : List A} (hF : Leads p pre inv F)
    (h : ∀ a ∈ l, Leads p inv inv (paint a)) :
    Leads p pre inv fun buf => l.foldl (fun buf a => paint a buf) (F buf) := by
  induction l generalizing F with
  | nil => exact hF
  | cons a l ih =>
    apply ih (hF.comp (h a List.mem_cons_self))
    exact fun b hb => h b (List.mem_cons_of_mem a hb)

/-- A loop of which one painter establishes what all of them keep. -/
theorem Leads.foldl_of_mem {paint : A → (P → V) → P → V} {l : List A} {a : A} (ha : a ∈ l)
    (hpaint : Leads p (fun _ => True) inv (paint a))
    (h : ∀ b ∈ l, Leads p inv inv (paint b)) (F : (P → V) → P → V) :
    Leads p (fun _ => True) inv fun buf => l.foldl (fun buf b => paint b buf) (F buf) := by
  obtain ⟨before, after, rfl⟩ := List.append_of_mem ha
  have hafter : Leads p (fun _ => True) inv fun buf =>
      after.foldl (fun buf b => paint b buf) (paint a buf) :=
    hpaint.foldl fun b hb => h b (List.mem_append_right before (List.mem_cons_of_mem a hb))
  intro buf _
  show inv ((before ++ a :: after).foldl (fun buf b => paint b buf) (F buf) p)
  rw [List.foldl_append, List.foldl_cons]
  exact hafter _ trivial

end Value

/-! ## Two painters at one point -/

section Agree

variable {p : P} {F F' G G' : (P → V) → P → V}

/-- The two painters compute the same value for the point from the same old value. -/
def AgreeAt (p : P) (F F' : (P → V) → P → V) : Prop :=
  ∀ buf buf', buf p = buf' p → F buf p = F' buf' p

theorem AgreeAt.comp (h : AgreeAt p F F') (h' : AgreeAt p G G') :
    AgreeAt p (fun buf => G (F buf)) fun buf => G' (F' buf) :=
  fun buf buf' heq => h' _ _ (h buf buf' heq)

/-- Only the old value of the point itself counts. -/
theorem Paints.agreeAt (h : Paints In area f) (c : C) (p : P) : AgreeAt p (f c) (f c) := by
  obtain ⟨g, hg⟩ := h
  intro buf buf' heq
  by_cases hp : In c p
  · rw [hg.inside c buf p hp, hg.inside c buf' p hp, heq]
  · rw [hg.outside c buf p hp, hg.outside c buf' p hp, heq]

/-- Painters of an area agree outside of it. -/
theorem Paints.agreeAt_outside (h : Paints In area f) (h' : Paints In area f') (c : C)
    (hp : ¬ area p) : AgreeAt p (f c) (f' c) := by
  intro buf buf' heq
  rw [h.keeps hp buf, h'.keeps hp buf', heq]

/-- A loop may leave out what does not touch the point. -/
theorem foldl_filter_agree {paint : A → (P → V) → P → V} {l : List A} (q : A → Bool)
    (hlocal : ∀ a ∈ l, AgreeAt p (paint a) (paint a))
    (hskip : ∀ a ∈ l, q a = false → ∀ buf, paint a buf p = buf p) (buf : P → V) :
    l.foldl (fun buf a => paint a buf) buf p =
      (l.filter q).foldl (fun buf a => paint a buf) buf p := by
  have hgeneral : ∀ buf buf', buf p = buf' p → l.foldl (fun buf a => paint a buf) buf p =
      (l.filter q).foldl (fun buf a => paint a buf) buf' p := by
    induction l with
    | nil => exact fun buf buf' heq => heq
    | cons a l ih =>
      have ih := ih (fun b hb => hlocal b (List.mem_cons_of_mem a hb))
        fun b hb => hskip b (List.mem_cons_of_mem a hb)
      intro buf buf' heq
      cases hq : q a with
      | true =>
        rw [List.filter_cons_of_pos hq]
        exact ih _ _ (hlocal a List.mem_cons_self buf buf' heq)
      | false =>
        rw [List.filter_cons_of_neg (by simp [hq])]
        apply ih
        show paint a buf p = buf' p
        rw [hskip a List.mem_cons_self hq buf, heq]
  exact hgeneral buf buf rfl

theorem foldl_agree {paint paint' : A → (P → V) → P → V} (l : List A)
    (h : ∀ a ∈ l, AgreeAt p (paint a) (paint' a)) {buf buf' : P → V} (heq : buf p = buf' p) :
    l.foldl (fun buf a => paint a buf) buf p = l.foldl (fun buf a => paint' a buf) buf' p := by
  induction l generalizing buf buf' with
  | nil => exact heq
  | cons a l ih =>
    apply ih
    · exact fun b hb => h b (List.mem_cons_of_mem a hb)
    · exact h a List.mem_cons_self buf buf' heq

end Agree

end Kyuzen.Lib
