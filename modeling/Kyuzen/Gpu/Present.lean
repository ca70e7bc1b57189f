import Kyuzen.Gpu.Backing

/-!
# Presenting a rectangle

`virtio_present` sends a rectangle of the surface to the device. The device reads the rows of the
rectangle from the offset of the command on, and `virtio_gpu_cmd_transfer_to_host` always sends
offset 0, where the first row of the surface begins, not that of the rectangle. A rectangle is
shown right, whatever the surface holds, exactly if it starts at the origin or is empty
(`present_exact`), and presents of such rectangles keep the host up to date with every upload.
-/

namespace Kyuzen.Gpu

variable {s : Surface} {r : Rect} {m : Mem} {host : Nat → Nat → Nat}

/-- `virtio_gpu_transfer_to_host_2d_t`. -/
structure TransferToHost2d where
  resourceId : Nat
  r : Rect
  offset : Nat

def virtioGpuCmdTransferToHost (resourceId x y w h : Nat) : TransferToHost2d :=
  ⟨resourceId, ⟨x, y, w, h⟩, 0⟩

def Rect.Mem (r : Rect) (x y : Nat) : Prop := r.x ≤ x ∧ x < r.x + r.w ∧ r.y ≤ y ∧ y < r.y + r.h

instance (r : Rect) (x y : Nat) : Decidable (r.Mem x y) :=
  inferInstanceAs (Decidable (_ ∧ _ ∧ _ ∧ _))

/-- The rule of the device: row `h` of the rectangle comes from `offset + h * 4 * width`. -/
def transferToHost2d (s : Surface) (c : TransferToHost2d) (word : Nat → Nat)
    (host : Nat → Nat → Nat) : Nat → Nat → Nat := fun x y =>
  if c.r.Mem x y then word (s.backing + c.offset + (y - c.r.y) * 4 * s.width + 4 * (x - c.r.x))
  else host x y

/-- `SET_SCANOUT` and `RESOURCE_FLUSH` leave the resource of the host as it is. -/
def virtioPresent (s : Surface) (rect : Option Rect) (word : Nat → Nat) (host : Nat → Nat → Nat) :
    Nat → Nat → Nat :=
  let r := rect.getD ⟨0, 0, s.width, s.height⟩
  transferToHost2d s (virtioGpuCmdTransferToHost s.resourceId r.x r.y r.w r.h) word host

/-! ## One rectangle -/

/-- The host shows the pixels of the rectangle. -/
def Shows (s : Surface) (word : Nat → Nat) (host : Nat → Nat → Nat) (r : Rect) : Prop :=
  ∀ x y, r.Mem x y → host x y = word (s.pixelAddr x y)

def Inside (s : Surface) (r : Rect) : Prop := r.x + r.w ≤ s.width ∧ r.y + r.h ≤ s.height

/-- The rectangle starts at the origin or is empty. -/
def FromOrigin (r : Rect) : Prop := r.x = 0 ∧ r.y = 0 ∨ r.w = 0 ∨ r.h = 0

theorem virtioPresent_of_mem {x y : Nat} (hmem : r.Mem x y) (word : Nat → Nat) :
    virtioPresent s (some r) word host x y = word (s.pixelAddr (x - r.x) (y - r.y)) := by
  show (if r.Mem x y then _ else _) = _
  rw [if_pos hmem, Surface.pixelAddr]
  congr 1
  show s.backing + 0 + (y - r.y) * 4 * s.width + 4 * (x - r.x) = _
  ring

theorem virtioPresent_of_not_mem {x y : Nat} (hmem : ¬r.Mem x y) (word : Nat → Nat) :
    virtioPresent s (some r) word host x y = host x y := if_neg hmem

theorem FromOrigin.shows (horigin : FromOrigin r) (word : Nat → Nat) (host : Nat → Nat → Nat) :
    Shows s word (virtioPresent s (some r) word host) r := by
  intro x y hmem
  rw [virtioPresent_of_mem hmem]
  obtain ⟨hx, hy⟩ | hempty := horigin
  · rw [hx, hy, Nat.sub_zero, Nat.sub_zero]
  · unfold Rect.Mem at hmem
    omega

theorem fromOrigin_of_shows (hin : Inside s r)
    (hshows : ∀ word host, Shows s word (virtioPresent s (some r) word host) r) :
    FromOrigin r := by
  by_cases hempty : r.w = 0 ∨ r.h = 0
  · exact Or.inr hempty
  -- a memory that tells the first pixel of the rectangle from all others
  have hmem : r.Mem r.x r.y := ⟨le_refl _, by omega, le_refl _, by omega⟩
  have hfirst := hshows (fun a => if a = s.pixelAddr r.x r.y then 1 else 0) (fun _ _ => 0) _ _ hmem
  rw [virtioPresent_of_mem hmem, Nat.sub_self, Nat.sub_self] at hfirst
  dsimp only at hfirst
  have haddr : s.pixelAddr 0 0 = s.pixelAddr r.x r.y := by
    by_contra hne
    rw [if_neg hne, if_pos rfl] at hfirst
    cases hfirst
  have hzero : r.y * s.width + r.x = 0 := by
    unfold Surface.pixelAddr at haddr
    omega
  obtain ⟨hrow, hx⟩ := Nat.add_eq_zero_iff.mp hzero
  have hwidth := hin.1
  rcases Nat.mul_eq_zero.mp hrow with hy | hw
  · exact Or.inl ⟨hx, hy⟩
  · omega

/-! ## Uploads and presents -/

theorem storeRow_word {dst : Surface} {x y row n a : Nat} (val : Nat → (Nat → Nat) → Nat)
    (ha : ∀ i < n, a ≠ dst.backing + 4 * (row + i)) :
    (storeRow dst x y row val n m).word a = m.word a := by
  unfold storeRow
  induction n with
  | zero => rfl
  | succ n ih =>
    rw [List.range_succ, List.foldl_append, List.foldl_cons, List.foldl_nil]
    refine (Function.update_of_ne (ha n (by omega)) _ _).trans ?_
    exact ih fun i hi => ha i (by omega)

theorem copyRows_word {dst : Surface} {x w step h y srow drow a : Nat}
    (read : Nat → (Nat → Nat) → Nat)
    (ha : ∀ j < h, ∀ i < w, a ≠ dst.backing + 4 * (drow + j * dst.width + i)) :
    (copyRows dst x w step read h y srow drow m).word a = m.word a := by
  induction h generalizing y srow drow m with
  | zero => rfl
  | succ h ih =>
    refine (ih ?_).trans (storeRow_word _ ?_)
    · intro j hj i hi
      have hnext := ha (j + 1) (by omega) i hi
      rw [show drow + (j + 1) * dst.width = drow + dst.width + j * dst.width by ring] at hnext
      exact hnext
    · intro i hi
      have hfirst := ha 0 (by omega) i hi
      rw [Nat.zero_mul, Nat.add_zero] at hfirst
      exact hfirst

/-- Different pixels have different addresses. -/
theorem pixelAddr_inj {x y x' y' : Nat} (hx : x < s.width) (hx' : x' < s.width)
    (heq : s.pixelAddr x y = s.pixelAddr x' y') : x = x' ∧ y = y' := by
  have hidx : y * s.width + x = y' * s.width + x' := by
    unfold Surface.pixelAddr at heq
    omega
  have hmod := congrArg (· % s.width) hidx
  have hdiv := congrArg (· / s.width) hidx
  simp only [Nat.mul_add_mod_self_right, Nat.mod_eq_of_lt hx, Nat.mod_eq_of_lt hx'] at hmod
  have hpos : 0 < s.width := by omega
  simp only [Nat.add_comm _ x, Nat.add_comm _ x', Nat.add_mul_div_right _ _ hpos,
    Nat.div_eq_of_lt hx, Nat.div_eq_of_lt hx', Nat.zero_add] at hdiv
  exact ⟨hmod, hdiv⟩

/-- An upload changes no pixel outside of its rectangle. -/
theorem virtioSurfaceUpload_word {u : Rect} (src : Nat → Nat) (srcPitch : Nat) {x y : Nat}
    (hx : x < s.width) (hy : y < s.height) (hout : ¬u.Mem x y) :
    (virtioSurfaceUpload s src srcPitch u m).word (s.pixelAddr x y) =
      m.word (s.pixelAddr x y) := by
  unfold virtioSurfaceUpload
  by_cases hoff : u.x ≥ s.width ∨ u.y ≥ s.height
  · rw [if_pos hoff]
  rw [if_neg hoff]
  apply copyRows_word
  intro j hj i hi heq
  have hpixel : s.pixelAddr x y = s.pixelAddr (u.x + i) (u.y + j) := by
    rw [heq, Surface.pixelAddr]
    ring
  unfold clip at hi hj
  obtain ⟨rfl, rfl⟩ := pixelAddr_inj hx (by split at hi <;> omega) hpixel
  apply hout
  refine ⟨?_, ?_, ?_, ?_⟩
  · omega
  · split at hi <;> omega
  · omega
  · split at hj <;> omega

/-- An upload, and the rectangle that is presented after it. -/
structure Update where
  src : Nat → Nat
  srcPitch : Nat
  rect : Rect
  shown : Rect

def uploadAndPresent (s : Surface) (p : Mem × (Nat → Nat → Nat)) (u : Update) : Mem × (Nat → Nat → Nat) :=
  let m := virtioSurfaceUpload s u.src u.srcPitch u.rect p.1
  (m, virtioPresent s (some u.shown) m.word p.2)

/-- The presented rectangle lies on the surface and covers what has been uploaded to it. -/
def Covers (s : Surface) (u : Update) : Prop :=
  Inside s u.shown ∧
    ∀ x y, x < s.width → y < s.height → u.rect.Mem x y → u.shown.Mem x y

/-- The host shows the whole surface. -/
def UpToDate (s : Surface) (p : Mem × (Nat → Nat → Nat)) : Prop :=
  Shows s p.1.word p.2 ⟨0, 0, s.width, s.height⟩

theorem UpToDate.uploadAndPresent {p : Mem × (Nat → Nat → Nat)} (hp : UpToDate s p) {u : Update}
    (hcovers : Covers s u) (horigin : FromOrigin u.shown) :
    UpToDate s (Gpu.uploadAndPresent s p u) := by
  intro x y hmem
  show virtioPresent s (some u.shown) _ p.2 x y = _
  by_cases hshown : u.shown.Mem x y
  · exact horigin.shows _ _ x y hshown
  · rw [virtioPresent_of_not_mem hshown, hp x y hmem]
    obtain ⟨-, hx, -, hy⟩ := hmem
    rw [Nat.zero_add] at hx hy
    exact (virtioSurfaceUpload_word _ _ hx hy fun hu => hshown (hcovers.2 x y hx hy hu)).symm

theorem UpToDate.run {p : Mem × (Nat → Nat → Nat)} (hp : UpToDate s p) {us : List Update}
    (hus : ∀ u ∈ us, Covers s u ∧ FromOrigin u.shown) :
    UpToDate s (us.foldl (Gpu.uploadAndPresent s) p) := by
  induction us generalizing p with
  | nil => exact hp
  | cons u us ih =>
    obtain ⟨hcovers, horigin⟩ := hus u List.mem_cons_self
    apply ih (hp.uploadAndPresent hcovers horigin)
    exact fun u' hu' => hus u' (List.mem_cons_of_mem _ hu')

/-- A rectangle is presented right, whatever the surface and the host hold, if and only if it
starts at the origin or is empty. If all presented rectangles do, and cover the uploads, the host
stays up to date. -/
theorem present_exact (s : Surface) :
    (∀ r, Inside s r →
      ((∀ word host, Shows s word (virtioPresent s (some r) word host) r) ↔ FromOrigin r)) ∧
    ∀ us : List Update, (∀ u ∈ us, Covers s u ∧ FromOrigin u.shown) →
      ∀ p, UpToDate s p → UpToDate s (us.foldl (uploadAndPresent s) p) := by
  refine ⟨?_, ?_⟩
  · intro r hin
    exact ⟨fromOrigin_of_shows hin, fun horigin word host => horigin.shows word host⟩
  · exact fun us hus p hp => hp.run hus

/-- An upload in the middle, and a present of all pixels up to it. -/
theorem present_exact_corner : UpToDate (twoPageSurface 0x4801000 0x4802000)
    (uploadAndPresent (twoPageSurface 0x4801000 0x4802000)
      (⟨fun _ => 0, []⟩, fun _ _ => 0) ⟨fun i => i, 32, ⟨3, 5, 2, 2⟩, ⟨0, 0, 5, 7⟩⟩) := by
  have hshown : ∀ x y, Rect.Mem ⟨3, 5, 2, 2⟩ x y → Rect.Mem ⟨0, 0, 5, 7⟩ x y := by
    intro x y
    simp only [Rect.Mem]
    omega
  apply (present_exact (twoPageSurface 0x4801000 0x4802000)).2
    [⟨fun i => i, 32, ⟨3, 5, 2, 2⟩, ⟨0, 0, 5, 7⟩⟩]
  · intro u hu
    rw [List.mem_singleton.mp hu]
    exact ⟨⟨⟨by decide, by decide⟩, fun x y _ _ => hshown x y⟩, Or.inl ⟨rfl, rfl⟩⟩
  · exact fun _ _ _ => rfl

/-- The last pixel of a surface is presented: the device takes the first one for it. -/
theorem present_misses_offset : ¬∀ s r, Created s → Inside s r →
    ∀ word host, Shows s word (virtioPresent s (some r) word host) r := by
  intro hall
  have hcreated : createdAfter [] = some (twoPageSurface 0x4801000 0x4802000) := by decide +kernel
  have hshows := hall (twoPageSurface 0x4801000 0x4802000) ⟨31, 63, 1, 1⟩
    (created_of_createdAfter hcreated) ⟨by decide, by decide⟩ (fun a => a % 2 ^ 32) (fun _ _ => 0) 31 63
    (by decide)
  exact absurd hshows (by decide)

end Kyuzen.Gpu
