/-
# The joysticks and the pointer (`Guy/peter/index_fixed.html`)

A mouse event carries `clientX` and `clientY`, a touch event a list of touches.
`getJoystickPosition` tells them apart by `e.clientX || ...`, for which the coordinate `0` of
a mouse counts as missing.  Arithmetic is that of the real numbers.

* `getJoystickPosition_of_not_zero`: the displacement from the centre;
* `stickValues_eq`: what a handler makes of a displacement;
* `lawful_iff`: when the output of the main stick is the law of the displacement;
* `zero_coordinate_loses_drag`: a drag that is lost.
-/
import ProjectTank.PlaneClamp

open PlaneClamp

namespace JoystickPointer

/-! ## The page -/

/-- A mouse event, or a touch event with the touches on the screen, of which there is one. -/
inductive PointerEvent
  | mouse (clientX clientY : ℝ)
  | touch (first : ℝ × ℝ) (others : List (ℝ × ℝ))

namespace PointerEvent

/-- `e.clientX`. -/
def clientX : PointerEvent → Option ℝ
  | mouse x _ => some x
  | touch _ _ => none

/-- `e.clientY`. -/
def clientY : PointerEvent → Option ℝ
  | mouse _ y => some y
  | touch _ _ => none

/-- `e.touches && e.touches[0]`. -/
def firstTouch : PointerEvent → Option (ℝ × ℝ)
  | mouse _ _ => none
  | touch first _ => some first

end PointerEvent

/-- `a || b` for numbers; `0` and `undefined` are falsy. -/
noncomputable def orElse (a b : Option ℝ) : Option ℝ :=
  match a with
  | some x => if x = 0 then b else some x
  | none => b

/-- `getBoundingClientRect` of a stick, and its radius. -/
structure Base where
  left : ℝ
  top : ℝ
  radius : ℝ

structure Position where
  dx : ℝ
  dy : ℝ
  distance : ℝ

/-- `getJoystickPosition`; a missing coordinate makes `distance` a `NaN`, which is `none`. -/
noncomputable def getJoystickPosition (e : PointerEvent) (b : Base) : Option Position :=
  let centerX := b.left + b.radius
  let centerY := b.top + b.radius
  let clientX := orElse e.clientX (e.firstTouch.map Prod.fst)
  let clientY := orElse e.clientY (e.firstTouch.map Prod.snd)
  match clientX, clientY with
  | some clientX, some clientY =>
      let dx := clientX - centerX
      let dy := clientY - centerY
      some { dx := dx, dy := dy, distance := Real.sqrt (dx * dx + dy * dy) }
  | _, _ => none

/-- The dimensions of the sticks. -/
structure Layout where
  joystick : Base
  joystickAux : Base
  maxDistance : ℝ
  maxDistanceAux : ℝ

noncomputable def Layout.threshold (L : Layout) : ℝ := L.maxDistance * 0.2

/-- The values that both handlers compute; they differ in the stick and in where they clamp.
Comparisons with `NaN` fail. -/
noncomputable def stickValues (L : Layout) (b : Base) (clampAt : ℝ) (e : PointerEvent) : ℤ × ℤ :=
  match getJoystickPosition e b with
  | none => (0, 0)
  | some { dx, dy, distance } =>
      -- `Math.atan2(dy, dx)`
      let angle := Complex.arg ⟨dx, dy⟩
      let dx := if clampAt < distance then clampAt * Real.cos angle else dx
      let dy := if clampAt < distance then clampAt * Real.sin angle else dy
      if L.threshold < distance then
        (roundHalfUp (dx * 10 / L.maxDistance * -1), roundHalfUp (dy * 10 / L.maxDistance * -1))
      else (0, 0)

/-- What the handlers read and write. -/
structure Page where
  isDragging : Bool := false
  isDraggingAux : Bool := false
  leftJoystickX : ℤ := 0
  leftJoystickY : ℤ := 0
  rightJoystickX : ℤ := 0
  rightJoystickY : ℤ := 0

namespace Page

def handleJoystickStart (p : Page) : Page := { p with isDragging := true }

noncomputable def handleJoystickMove (L : Layout) (p : Page) (e : PointerEvent) : Page :=
  if p.isDragging = false then p
  else
    let values := stickValues L L.joystick L.maxDistance e
    { p with leftJoystickX := values.1, leftJoystickY := values.2 }

def handleJoystickEnd (p : Page) : Page :=
  if p.isDragging = false then p
  else { p with isDragging := false, leftJoystickX := 0, leftJoystickY := 0 }

def handleJoystickAuxStart (p : Page) : Page := { p with isDraggingAux := true }

/-- It clamps at its own distance, but compares and scales with those of the other stick. -/
noncomputable def handleJoystickAuxMove (L : Layout) (p : Page) (e : PointerEvent) : Page :=
  if p.isDraggingAux = false then p
  else
    let values := stickValues L L.joystickAux L.maxDistanceAux e
    { p with rightJoystickX := values.1, rightJoystickY := values.2 }

def handleJoystickAuxEnd (p : Page) : Page :=
  if p.isDraggingAux = false then p
  else { p with isDraggingAux := false, rightJoystickX := 0, rightJoystickY := 0 }

end Page

/-! ## The displacement -/

/-- Where the pointer is. -/
def PointerEvent.position : PointerEvent → ℝ × ℝ
  | mouse x y => (x, y)
  | touch first _ => first

/-- The displacement of the pointer from the centre of a stick. -/
def displacement (e : PointerEvent) (b : Base) : ℂ :=
  ⟨e.position.1 - (b.left + b.radius), e.position.2 - (b.top + b.radius)⟩

/-- A mouse on the left or upper edge. -/
def ZeroCoordinate : PointerEvent → Prop
  | .mouse x y => x = 0 ∨ y = 0
  | .touch _ _ => False

variable {L : Layout} {b : Base} {e : PointerEvent}

theorem getJoystickPosition_of_zero (h : ZeroCoordinate e) : getJoystickPosition e b = none := by
  cases e with
  | touch first others => exact h.elim
  | mouse x y =>
      rcases h with rfl | rfl
      · simp [getJoystickPosition, orElse, PointerEvent.clientX, PointerEvent.firstTouch]
      · simp [getJoystickPosition, orElse, PointerEvent.clientY, PointerEvent.firstTouch]

/-- Otherwise the position is the displacement and its length. -/
theorem getJoystickPosition_of_not_zero (h : ¬ ZeroCoordinate e) :
    getJoystickPosition e b = some
      { dx := (displacement e b).re, dy := (displacement e b).im, distance := ‖displacement e b‖ } := by
  have hnorm : ‖displacement e b‖ = Real.sqrt ((displacement e b).re * (displacement e b).re +
      (displacement e b).im * (displacement e b).im) := by
    rw [Complex.norm_def, Complex.normSq_apply]
  rw [hnorm]
  cases e with
  | touch first others => rfl
  | mouse x y =>
      obtain ⟨hx, hy⟩ := not_or.mp h
      simp [getJoystickPosition, orElse, PointerEvent.clientX, PointerEvent.clientY, hx, hy,
        displacement, PointerEvent.position]

/-- **What a handler makes of a displacement**: it shortens, scales and rounds it. -/
theorem stickValues_eq {clampAt : ℝ} (hclamp : 0 ≤ clampAt) (h : ¬ ZeroCoordinate e) :
    stickValues L b clampAt e =
      if L.threshold < ‖displacement e b‖ then
        (roundHalfUp (-10 * (shorten clampAt (displacement e b)).re / L.maxDistance),
          roundHalfUp (-10 * (shorten clampAt (displacement e b)).im / L.maxDistance))
      else (0, 0) := by
  have hscale : ∀ t : ℝ, t * 10 / L.maxDistance * -1 = -10 * t / L.maxDistance := fun t => by ring
  simp only [stickValues, getJoystickPosition_of_not_zero h, hscale]
  by_cases hlong : clampAt < ‖displacement e b‖
  · rw [if_pos hlong, if_pos hlong, shorten_re_of_lt hclamp hlong, shorten_im_of_lt hlong]
  · rw [if_neg hlong, if_neg hlong, shorten, if_neg hlong]

/-! ## The law of the main stick -/

/-- The law: beyond the threshold the output is the shortened displacement, scaled and rounded, so
it is in range and not zero; within the threshold it is zero. -/
structure Lawful (L : Layout) (e : PointerEvent) (p : Page) : Prop where
  beyond : L.threshold < ‖displacement e L.joystick‖ →
    p.leftJoystickX = roundHalfUp
        (-10 * (shorten L.maxDistance (displacement e L.joystick)).re / L.maxDistance) ∧
      p.leftJoystickY = roundHalfUp
        (-10 * (shorten L.maxDistance (displacement e L.joystick)).im / L.maxDistance) ∧
      (-10 ≤ p.leftJoystickX ∧ p.leftJoystickX ≤ 10) ∧
      (-10 ≤ p.leftJoystickY ∧ p.leftJoystickY ≤ 10) ∧
      ¬ (p.leftJoystickX = 0 ∧ p.leftJoystickY = 0)
  within : ¬ L.threshold < ‖displacement e L.joystick‖ →
    p.leftJoystickX = 0 ∧ p.leftJoystickY = 0

/-- The shortened displacement in units of a tenth of the way. -/
noncomputable def scaled (L : Layout) (e : PointerEvent) : ℂ :=
  (-10 / L.maxDistance : ℝ) * shorten L.maxDistance (displacement e L.joystick)

theorem scaled_re : (scaled L e).re =
    -10 * (shorten L.maxDistance (displacement e L.joystick)).re / L.maxDistance := by
  rw [scaled, Complex.re_ofReal_mul]
  ring

theorem scaled_im : (scaled L e).im =
    -10 * (shorten L.maxDistance (displacement e L.joystick)).im / L.maxDistance := by
  rw [scaled, Complex.im_ofReal_mul]
  ring

theorem norm_scaled (hmax : 0 < L.maxDistance) : ‖scaled L e‖ =
    10 * ‖shorten L.maxDistance (displacement e L.joystick)‖ / L.maxDistance := by
  rw [scaled, norm_mul, Complex.norm_real, Real.norm_eq_abs, abs_div, abs_of_pos hmax]
  norm_num
  ring

/-- The output is in range. -/
theorem scaled_mem (hmax : 0 < L.maxDistance) :
    (-10 ≤ roundHalfUp (scaled L e).re ∧ roundHalfUp (scaled L e).re ≤ 10) ∧
      (-10 ≤ roundHalfUp (scaled L e).im ∧ roundHalfUp (scaled L e).im ≤ 10) := by
  have hnorm : ‖scaled L e‖ ≤ 10 := by
    rw [norm_scaled hmax, div_le_iff₀ hmax]
    linarith [@norm_shorten_le _ (displacement e L.joystick) hmax.le]
  have hre := abs_le.mp ((Complex.abs_re_le_norm _).trans hnorm)
  have him := abs_le.mp ((Complex.abs_im_le_norm _).trans hnorm)
  have hten : ((10 : ℤ) : ℝ) = 10 := by norm_num
  exact ⟨roundHalfUp_mem (by rw [hten]; exact hre.1) (by rw [hten]; exact hre.2),
    roundHalfUp_mem (by rw [hten]; exact him.1) (by rw [hten]; exact him.2)⟩

/-- Beyond the threshold the output is not zero. -/
theorem scaled_ne_zero (hmax : 0 < L.maxDistance)
    (h : L.threshold < ‖displacement e L.joystick‖) :
    ¬ (roundHalfUp (scaled L e).re = 0 ∧ roundHalfUp (scaled L e).im = 0) := by
  have hthreshold : L.threshold < L.maxDistance := by
    rw [Layout.threshold]
    linarith
  have hlong := lt_norm_shorten hmax.le hthreshold h
  have hnorm : 1 ≤ ‖scaled L e‖ := by
    rw [norm_scaled hmax, le_div_iff₀ hmax]
    rw [Layout.threshold] at hlong
    linarith
  exact fun hzero => (roundHalfUp_ne_zero hnorm).elim (absurd hzero.1) (absurd hzero.2)

/-- **When the output is the law of the displacement**: always, but for a mouse on an edge of the
window that is beyond the threshold. -/
theorem lawful_iff {p : Page} (hpage : p.isDragging = true) (hmax : 0 < L.maxDistance) :
    Lawful L e (p.handleJoystickMove L e) ↔
      ¬ (ZeroCoordinate e ∧ L.threshold < ‖displacement e L.joystick‖) := by
  have hdrag : ¬ p.isDragging = false := by simp [hpage]
  rw [Page.handleJoystickMove, if_neg hdrag]
  by_cases hzero : ZeroCoordinate e
  · have hvalues : stickValues L L.joystick L.maxDistance e = (0, 0) := by
      rw [stickValues, getJoystickPosition_of_zero hzero]
    rw [hvalues]
    constructor
    · rintro hlaw ⟨-, hbeyond⟩
      exact (hlaw.beyond hbeyond).2.2.2.2 ⟨rfl, rfl⟩
    · intro hnot
      exact ⟨fun hbeyond => absurd ⟨hzero, hbeyond⟩ hnot, fun _ => ⟨rfl, rfl⟩⟩
  · refine iff_of_true ?_ fun h => hzero h.1
    rw [stickValues_eq hmax.le hzero]
    constructor
    · intro hbeyond
      have hnonzero := @scaled_ne_zero L e hmax hbeyond
      obtain ⟨hre, him⟩ := @scaled_mem L e hmax
      rw [scaled_re] at hre hnonzero
      rw [scaled_im] at him hnonzero
      rw [if_pos hbeyond]
      exact ⟨rfl, rfl, hre, him, hnonzero⟩
    · intro hwithin
      rw [if_neg hwithin]
      exact ⟨rfl, rfl⟩

/-- A stick in the middle of the left edge. -/
noncomputable def leftEdge : Layout where
  joystick := { left := 0, top := 0, radius := 50 }
  joystickAux := { left := 200, top := 0, radius := 50 }
  maxDistance := 30
  maxDistanceAux := 30

/-- The law holds of a drag to the edge of the stick. -/
theorem lawful_on_stick : Lawful leftEdge (.mouse 80 50)
    (({ isDragging := true } : Page).handleJoystickMove leftEdge (.mouse 80 50)) :=
  (lawful_iff rfl (by norm_num [leftEdge])).mpr fun h => by
    rcases h.1 with h | h <;> norm_num at h

/-- A drag that is lost: the mouse is on the left edge of the window. -/
theorem zero_coordinate_loses_drag : ¬ ∀ (L : Layout) (e : PointerEvent) (p : Page),
    p.isDragging = true → 0 < L.maxDistance → 0 ≤ e.position.1 → 0 ≤ e.position.2 →
      Lawful L e (p.handleJoystickMove L e) := by
  intro h
  have hlaw := h leftEdge (.mouse 0 50) { isDragging := true } rfl (by norm_num [leftEdge])
    le_rfl (by norm_num [PointerEvent.position])
  have hzero : ZeroCoordinate (.mouse 0 50) := Or.inl rfl
  have hvalues : stickValues leftEdge leftEdge.joystick leftEdge.maxDistance (.mouse 0 50) =
      (0, 0) := by
    rw [stickValues, getJoystickPosition_of_zero hzero]
  have hbeyond : leftEdge.threshold < ‖displacement (.mouse 0 50) leftEdge.joystick‖ := by
    have hmove : displacement (.mouse 0 50) leftEdge.joystick = ((-50 : ℝ) : ℂ) := by
      apply Complex.ext <;> norm_num [displacement, leftEdge, PointerEvent.position]
    rw [hmove, Complex.norm_real]
    norm_num [Layout.threshold, leftEdge]
  have hnonzero := (hlaw.beyond hbeyond).2.2.2.2
  rw [Page.handleJoystickMove, if_neg (by simp), hvalues] at hnonzero
  exact hnonzero ⟨rfl, rfl⟩

end JoystickPointer
