import Mathlib.Analysis.Real.Pi.Bounds
import Mathlib.Analysis.Real.Pi.Irrational
import Mathlib.Analysis.SpecialFunctions.Trigonometric.Complex
import DroneArch.Numerals

/-! # The picture square

`square.py` writes a route of four legs, each turned by 90 degrees against the one before it.  A leg is converted from
metres to degrees with the cosine of the latitude, whose degrees are taken for radians.  Everything is
over the reals; a division by zero gives `none`.

* `isLeg_iff_of_move`: a leg is right exactly when the two cosines agree.
* `legs_iff`: all legs of a loop, at the latitudes where they start.
* `squareOnGround_iff`: these are three latitudes, each of which must be a multiple of 6.18 or of 6.39 degrees. -/

namespace DroneArch.PictureSquare

open Real

noncomputable section

/-- A line of the route. -/
structure Waypoint where
  longitude : ℝ
  latitude : ℝ
  alt : ℝ

/-- `math.radians`. -/
def radians (x : ℝ) : ℝ := x * π / 180

/-- One pass of the loop. -/
def move (distance theta : ℝ) (p : Waypoint) : Option Waypoint :=
  let dx := distance * cos (radians theta)
  let dy := distance * sin (radians theta)
  if 111320 * cos p.latitude = 0 then none
  else some ⟨p.longitude + dx / (111320 * cos p.latitude), p.latitude + dy / 110540, p.alt⟩

/-- The lines that some passes write. -/
def loop (distance : ℝ) : ℕ → ℝ → Waypoint → Option (List Waypoint)
  | 0, _, _ => some []
  | n + 1, theta, p => do
      let q ← move distance theta p
      return q :: (← loop distance n (theta + 90) q)

/-- The lines of the route. -/
def square (longitude latitude alt distance : ℝ) : Option (List Waypoint) :=
  loop distance 4 135 ⟨longitude, latitude, alt⟩

/-! ### The square on the ground -/

/-- From `p` to `q` it is the distance in the direction, in metres east and north. -/
def IsLeg (distance theta : ℝ) (p q : Waypoint) : Prop :=
  (q.longitude - p.longitude) * (111320 * cos (radians p.latitude)) = distance * cos (radians theta) ∧
  (q.latitude - p.latitude) * 110540 = distance * sin (radians theta)

/-- The lines of the route are the legs of a square. -/
def SquareOnGround (longitude latitude alt distance : ℝ) : Prop :=
  ∃ a b c d, square longitude latitude alt distance = some [a, b, c, d] ∧
    IsLeg distance 135 ⟨longitude, latitude, alt⟩ a ∧ IsLeg distance 225 a b ∧ IsLeg distance 315 b c ∧
    IsLeg distance 45 c d

/-- A latitude whose degrees can be taken for radians: turned by its radians it is a full turn, forwards or
backwards. -/
def Fits (latitude : ℝ) : Prop :=
  ∃ k : ℤ, latitude = k * (360 * π / (180 - π)) ∨ latitude = k * (360 * π / (180 + π))

/-- The degrees of latitude between the corners of the square. -/
def halfDiagonal (distance : ℝ) : ℝ := distance * (√2 / 2) / 110540

end

/-! ### The two cosines -/

theorem pi_lt : π < 180 := by linarith [pi_lt_four]

theorem cos_eq_cos_radians_iff (x : ℝ) : cos x = cos (radians x) ↔ Fits x := by
  have hpi := pi_pos
  have hsub : (180 : ℝ) - π ≠ 0 := (sub_pos.mpr pi_lt).ne'
  have hadd : (180 : ℝ) + π ≠ 0 := by positivity
  rw [eq_comm, cos_eq_cos_iff]
  refine exists_congr fun k => or_congr ?_ ?_
  · rw [← mul_div_assoc, eq_div_iff hsub]
    unfold radians
    constructor
    · intro h
      linear_combination 180 * h
    · intro h
      linear_combination (1 / 180 : ℝ) * h
  · rw [← mul_div_assoc, eq_div_iff hadd]
    unfold radians
    constructor
    · intro h
      linear_combination 180 * h
    · intro h
      linear_combination (1 / 180 : ℝ) * h

/-- The cosine of such a latitude is not zero, for `π` is irrational. -/
theorem cos_ne_zero_of_fits {x : ℝ} (h : Fits x) : cos x ≠ 0 := by
  have hpi := pi_pos.ne'
  intro hzero
  obtain ⟨m, hm⟩ := cos_eq_zero_iff.mp hzero
  have hodd : (2 * m + 1 : ℤ) ≠ 0 := by omega
  obtain ⟨k, hk | hk⟩ := h
  · refine (irrational_pi.mul_intCast hodd).ne_int (180 * (2 * m + 1) - 720 * k) ?_
    rw [hm, ← mul_div_assoc, eq_div_iff (sub_pos.mpr pi_lt).ne'] at hk
    push_cast
    refine mul_left_cancel₀ hpi ?_
    linear_combination -2 * hk
  · refine (irrational_pi.mul_intCast hodd).ne_int (720 * k - 180 * (2 * m + 1)) ?_
    rw [hm, ← mul_div_assoc, eq_div_iff (by positivity)] at hk
    push_cast
    refine mul_left_cancel₀ hpi ?_
    linear_combination 2 * hk

/-! ### One leg -/

section legs
variable {distance : ℝ}

theorem move_eq_some_iff {theta : ℝ} {p q : Waypoint} : move distance theta p = some q ↔ cos p.latitude ≠ 0 ∧
    q = ⟨p.longitude + distance * cos (radians theta) / (111320 * cos p.latitude),
      p.latitude + distance * sin (radians theta) / 110540, p.alt⟩ := by
  have hzero : 111320 * cos p.latitude = 0 ↔ cos p.latitude = 0 := mul_eq_zero_iff_left (by norm_num)
  unfold move
  by_cases hcos : cos p.latitude = 0
  · rw [if_pos (hzero.mpr hcos)]
    exact ⟨fun h => (nomatch h), fun h => absurd hcos h.1⟩
  · rw [if_neg (mt hzero.mp hcos), Option.some.injEq]
    exact ⟨fun h => ⟨hcos, h.symm⟩, fun h => h.2.symm⟩

/-- **Legs.**  A leg is right exactly when the latitude where it starts can be taken for radians. -/
theorem isLeg_iff_of_move {theta : ℝ} (hd : distance * cos (radians theta) ≠ 0) {p q : Waypoint}
    (h : move distance theta p = some q) : IsLeg distance theta p q ↔ Fits p.latitude := by
  obtain ⟨hcos, rfl⟩ := move_eq_some_iff.mp h
  have hnorth : (p.latitude + distance * sin (radians theta) / 110540 - p.latitude) * 110540 =
      distance * sin (radians theta) := by ring
  have heast : (p.longitude + distance * cos (radians theta) / (111320 * cos p.latitude) - p.longitude) *
      (111320 * cos (radians p.latitude)) =
      distance * cos (radians theta) * (cos (radians p.latitude) / cos p.latitude) := by
    field_simp
    ring
  unfold IsLeg
  rw [hnorth, heast, and_iff_left rfl, mul_right_eq_self₀, or_iff_left hd, div_eq_one_iff_eq hcos,
    ← cos_eq_cos_radians_iff, eq_comm]

/-! ### All legs -/

/-- The legs from `p` on, each turned by 90 degrees. -/
def Legs (distance : ℝ) : ℝ → Waypoint → List Waypoint → Prop
  | _, _, [] => True
  | theta, p, q :: ws => IsLeg distance theta p q ∧ Legs distance (theta + 90) q ws

/-- The latitudes where the legs start can be taken for radians. -/
def LatitudesFit (distance : ℝ) : ℕ → ℝ → ℝ → Prop
  | 0, _, _ => True
  | n + 1, theta, latitude => Fits latitude ∧
      LatitudesFit distance n (theta + 90) (latitude + distance * sin (radians theta) / 110540)

/-- The directions have a part to the east or west. -/
def Slanted (distance : ℝ) : ℕ → ℝ → Prop
  | 0, _ => True
  | n + 1, theta => distance * cos (radians theta) ≠ 0 ∧ Slanted distance n (theta + 90)

/-- **Loops.**  By induction on the passes: the legs of a loop are right exactly when the latitudes fit. -/
theorem legs_iff {n : ℕ} {theta : ℝ} (hslanted : Slanted distance n theta) (p : Waypoint) :
    (∃ ws, loop distance n theta p = some ws ∧ Legs distance theta p ws) ↔
      LatitudesFit distance n theta p.latitude := by
  induction n generalizing theta p with
  | zero => exact iff_of_true ⟨[], rfl, trivial⟩ trivial
  | succ n ih =>
      obtain ⟨hd, hrest⟩ := hslanted
      constructor
      · rintro ⟨ws, hloop, hlegs⟩
        obtain ⟨q, hq, hloop⟩ := Option.bind_eq_some_iff.mp hloop
        obtain ⟨ws', hws', heq⟩ := Option.bind_eq_some_iff.mp hloop
        cases heq
        have hfits := (isLeg_iff_of_move hd hq).mp hlegs.1
        have htail := (ih hrest q).mp ⟨ws', hws', hlegs.2⟩
        rw [(move_eq_some_iff.mp hq).2] at htail
        exact ⟨hfits, htail⟩
      · rintro ⟨hfits, htail⟩
        obtain ⟨q, hq⟩ : ∃ q, move distance theta p = some q :=
          ⟨_, move_eq_some_iff.mpr ⟨cos_ne_zero_of_fits hfits, rfl⟩⟩
        have hlat : q.latitude = p.latitude + distance * sin (radians theta) / 110540 := by
          rw [(move_eq_some_iff.mp hq).2]
        rw [← hlat] at htail
        obtain ⟨ws', hws', hlegs⟩ := (ih hrest q).mpr htail
        refine ⟨q :: ws', ?_, (isLeg_iff_of_move hd hq).mpr hfits, hlegs⟩
        unfold loop
        rw [hq, Option.bind_eq_bind, Option.bind_some, hws']
        rfl

end legs

/-! ### The four directions -/

theorem direction_45 : cos (radians 45) = √2 / 2 ∧ sin (radians 45) = √2 / 2 := by
  have hangle : radians 45 = π / 4 := by
    unfold radians
    ring
  rw [hangle, cos_pi_div_four, sin_pi_div_four]
  exact ⟨rfl, rfl⟩

theorem direction_135 : cos (radians 135) = -(√2 / 2) ∧ sin (radians 135) = √2 / 2 := by
  have hangle : radians 135 = π - π / 4 := by
    unfold radians
    ring
  rw [hangle, cos_pi_sub, sin_pi_sub, cos_pi_div_four, sin_pi_div_four]
  exact ⟨rfl, rfl⟩

theorem direction_225 : cos (radians 225) = -(√2 / 2) ∧ sin (radians 225) = -(√2 / 2) := by
  have hangle : radians 225 = π / 4 + π := by
    unfold radians
    ring
  rw [hangle, cos_add_pi, sin_add_pi, cos_pi_div_four, sin_pi_div_four]
  exact ⟨rfl, rfl⟩

theorem direction_315 : cos (radians 315) = √2 / 2 ∧ sin (radians 315) = -(√2 / 2) := by
  have hangle : radians 315 = 2 * π - π / 4 := by
    unfold radians
    ring
  rw [hangle, cos_two_pi_sub, sin_two_pi_sub, cos_pi_div_four, sin_pi_div_four]
  exact ⟨rfl, rfl⟩

/-- The last pass has a full turn more. -/
theorem direction_405 : cos (radians 405) = cos (radians 45) ∧ sin (radians 405) = sin (radians 45) := by
  have hangle : radians 405 = radians 45 + 2 * π := by
    unfold radians
    ring
  rw [hangle, cos_add_two_pi, sin_add_two_pi]
  exact ⟨rfl, rfl⟩

theorem turns : (135 : ℝ) + 90 = 225 ∧ (225 : ℝ) + 90 = 315 ∧ (315 : ℝ) + 90 = 405 := by norm_num

theorem slanted_square {distance : ℝ} (hd : 0 < distance) : Slanted distance 4 135 := by
  have hroot : √2 / 2 ≠ 0 := by positivity
  obtain ⟨h1, h2, h3⟩ := turns
  unfold Slanted Slanted Slanted Slanted Slanted
  rw [h1, h2, h3, direction_135.1, direction_225.1, direction_315.1, direction_405.1, direction_45.1]
  simp [hd.ne', hroot]

theorem latitudesFit_square (distance latitude : ℝ) : LatitudesFit distance 4 135 latitude ↔
    Fits latitude ∧ Fits (latitude + halfDiagonal distance) ∧ Fits (latitude - halfDiagonal distance) := by
  obtain ⟨h1, h2, h3⟩ := turns
  have hback : latitude + halfDiagonal distance + distance * -(√2 / 2) / 110540 = latitude := by
    unfold halfDiagonal
    ring
  have hsouth : latitude + distance * -(√2 / 2) / 110540 = latitude - halfDiagonal distance := by
    unfold halfDiagonal
    ring
  unfold LatitudesFit LatitudesFit LatitudesFit LatitudesFit LatitudesFit
  rw [h1, h2, direction_135.2, direction_225.2, direction_315.2, ← halfDiagonal, hback, hsouth]
  tauto

theorem length_of_loop {distance : ℝ} {n : ℕ} {theta : ℝ} {p : Waypoint} {ws : List Waypoint}
    (h : loop distance n theta p = some ws) : ws.length = n := by
  induction n generalizing theta p ws with
  | zero =>
      cases h
      rfl
  | succ n ih =>
      obtain ⟨q, -, h⟩ := Option.bind_eq_some_iff.mp h
      obtain ⟨ws', hws', h⟩ := Option.bind_eq_some_iff.mp h
      cases h
      rw [List.length_cons, ih hws']

theorem legs_four (distance : ℝ) (p a b c d : Waypoint) : Legs distance 135 p [a, b, c, d] ↔
    IsLeg distance 135 p a ∧ IsLeg distance 225 a b ∧ IsLeg distance 315 b c ∧ IsLeg distance 45 c d := by
  obtain ⟨h1, h2, h3⟩ := turns
  have hlast : IsLeg distance 405 c d ↔ IsLeg distance 45 c d := by
    unfold IsLeg
    rw [direction_405.1, direction_405.2]
  unfold Legs Legs Legs Legs Legs
  rw [h1, h2, h3, hlast, and_true]

theorem squareOnGround_iff_legs (longitude latitude alt distance : ℝ) :
    SquareOnGround longitude latitude alt distance ↔
      ∃ ws, loop distance 4 135 ⟨longitude, latitude, alt⟩ = some ws ∧
        Legs distance 135 ⟨longitude, latitude, alt⟩ ws := by
  constructor
  · rintro ⟨a, b, c, d, hsquare, hlegs⟩
    exact ⟨_, hsquare, (legs_four _ _ _ _ _ _).mpr hlegs⟩
  · rintro ⟨ws, hloop, hlegs⟩
    obtain ⟨a, b, c, d, rfl⟩ := List.length_eq_four.mp (length_of_loop hloop)
    exact ⟨a, b, c, d, hloop, (legs_four _ _ _ _ _ _).mp hlegs⟩

/-- **The square.**  The route is a square on the ground exactly when the latitude of the start and those of the corners
to the north and to the south of it can be taken for radians. -/
theorem squareOnGround_iff (longitude latitude alt : ℝ) {distance : ℝ} (hd : 0 < distance) :
    SquareOnGround longitude latitude alt distance ↔
      Fits latitude ∧ Fits (latitude + halfDiagonal distance) ∧ Fits (latitude - halfDiagonal distance) := by
  rw [squareOnGround_iff_legs, legs_iff (slanted_square hd), latitudesFit_square]

/-- Near the equator no latitude but its own does. -/
theorem not_fits {x : ℝ} (h : 0 < |x|) (hx : |x| < 6) : ¬ Fits x := by
  have hpi := pi_gt_d2
  have hpi' := pi_lt_d2
  have hfar : ∀ (k : ℤ) (a : ℝ), 6 < a → x ≠ k * a := by
    intro k a ha heq
    rw [heq, abs_mul, abs_of_pos (by linarith : 0 < a)] at h hx
    have hk : 1 ≤ |k| := Int.one_le_abs (fun hk => by simp [hk] at h)
    have hk' : (1 : ℝ) ≤ |(k : ℝ)| := by exact_mod_cast hk
    nlinarith
  rintro ⟨k, hk | hk⟩
  · refine hfar k _ ?_ hk
    rw [lt_div_iff₀ (by linarith)]
    linarith
  · refine hfar k _ ?_ hk
    rw [lt_div_iff₀ (by linarith)]
    linarith

/-- A square of one metre, one degree to the north of the equator. -/
theorem squareOnGround_north : ¬ SquareOnGround 0 1 15 1 := by
  rw [squareOnGround_iff_legs, legs_iff (slanted_square one_pos)]
  rintro ⟨hfits, -⟩
  exact not_fits (by norm_num) (by norm_num) hfits

theorem squareOnGround_iff_north :
    SquareOnGround 0 1 15 1 ↔ Fits 1 ∧ Fits (1 + halfDiagonal 1) ∧ Fits (1 - halfDiagonal 1) :=
  squareOnGround_iff 0 1 15 one_pos

end DroneArch.PictureSquare
