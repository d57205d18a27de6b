import Mathlib.Algebra.BigOperators.Fin
import DroneArch.GeneticSpeed

/-! # Lengths of the planned routes

An interval of `_decode_gene` is flown along the heading at its start, so it is as long as the way along a
line with the same acceleration.  `__fitness_distance` adds these lengths, and the turns of the genes,
the start position and the start heading do not enter.

* `fitnessDistance_decode`: the length of a decoded individual from its accelerations.
* `travelled_congr`: so individuals with the same accelerations have the same length. -/

namespace DroneArch.Genetic

open Planar Real

noncomputable section

/-! ### The accelerations -/

/-- The acceleration of the gene `i`. -/
def accel (dna : List Gene) (i : ℕ) : ℝ := (dna.map (fun g => g.a)).getD i 0

/-- The speed at the start of the interval `i`. -/
def speedAt (v0 deltaT : ℝ) (dna : List Gene) (i : ℕ) : ℝ := v0 + deltaT * ∑ j ∈ Finset.range i, accel dna j

/-- The way along a line in the intervals of a genome. -/
def travelled (v0 deltaT : ℝ) (dna : List Gene) : ℝ :=
  ∑ i ∈ Finset.range dna.length, |speedAt v0 deltaT dna i * deltaT + accel dna i * deltaT ^ 2 / 2|

end

@[simp] theorem accel_cons_zero (g : Gene) (dna : List Gene) : accel (g :: dna) 0 = g.a := rfl

@[simp] theorem accel_cons_succ (g : Gene) (dna : List Gene) (i : ℕ) : accel (g :: dna) (i + 1) = accel dna i := rfl

theorem accel_congr {dna dna' : List Gene} (h : dna.map (fun g => g.a) = dna'.map (fun g => g.a)) :
    accel dna = accel dna' := by
  unfold accel
  rw [h]

@[simp] theorem speedAt_zero (v0 deltaT : ℝ) (dna : List Gene) : speedAt v0 deltaT dna 0 = v0 := by
  unfold speedAt
  rw [Finset.sum_range_zero, mul_zero, add_zero]

/-- After the first gene the rest starts with its final speed. -/
theorem speedAt_cons_succ (v0 deltaT : ℝ) (g : Gene) (dna : List Gene) (i : ℕ) :
    speedAt v0 deltaT (g :: dna) (i + 1) = speedAt (v0 + g.a * deltaT) deltaT dna i := by
  unfold speedAt
  rw [Finset.sum_range_succ']
  simp only [accel_cons_zero, accel_cons_succ]
  ring

theorem travelled_cons (v0 deltaT : ℝ) (g : Gene) (dna : List Gene) : travelled v0 deltaT (g :: dna) =
    |v0 * deltaT + g.a * deltaT ^ 2 / 2| + travelled (v0 + g.a * deltaT) deltaT dna := by
  unfold travelled
  rw [List.length_cons, Finset.sum_range_succ', add_comm]
  simp only [speedAt_cons_succ, speedAt_zero, accel_cons_zero, accel_cons_succ]

theorem travelled_congr {dna dna' : List Gene} (h : dna.map (fun g => g.a) = dna'.map (fun g => g.a))
    (v0 deltaT : ℝ) : travelled v0 deltaT dna = travelled v0 deltaT dna' := by
  have hlen : dna.length = dna'.length := by
    have := congrArg List.length h
    rwa [List.length_map, List.length_map] at this
  unfold travelled speedAt
  rw [accel_congr h, hlen]

/-! ### The length of a route -/

theorem fitnessDistance_eq_sum (s : Subject) :
    fitnessDistance s = ((pairwise s.route).map (fun AB => distance AB.1 AB.2)).sum := by
  rw [List.sum_eq_foldl, List.foldl_map]
  rfl

/-- A way in one direction is as long as its number of metres, forwards or backwards. -/
theorem distance_heading (A : Point ℝ) (r al : ℝ) : distance A ⟨A.x + r * cos al, A.y + r * sin al⟩ = |r| := by
  have hsq : (A.x + r * cos al - A.x) ^ 2 + (A.y + r * sin al - A.y) ^ 2 = r ^ 2 := by
    linear_combination r ^ 2 * sin_sq_add_cos_sq al
  unfold distance
  rw [hsq, sqrt_sq_eq_abs]

section specie
variable {p : Specie}

/-- One interval: the heading does not enter. -/
theorem distance_decodeStep {s s' : GeneDecoded} {g : Gene} (h : decodeStep p s g = some s') :
    distance ⟨s.x, s.y⟩ ⟨s'.x, s'.y⟩ = |s.v * p.deltaT + g.a * p.deltaT ^ 2 / 2| := by
  obtain ⟨loss, -, h⟩ := Option.bind_eq_some_iff.mp h
  cases h
  rw [← distance_heading ⟨s.x, s.y⟩ _ s.al]
  congr 2
  · ring
  · ring

/-- The decoded states begin with the start. -/
theorem exists_cons_of_decodeFrom {s : GeneDecoded} {dna : List Gene} {states : List GeneDecoded}
    (h : decodeFrom p s dna = some states) : ∃ rest, states = s :: rest := by
  cases dna with
  | nil =>
      cases h
      exact ⟨[], rfl⟩
  | cons g dna =>
      obtain ⟨s', -, h⟩ := Option.bind_eq_some_iff.mp h
      obtain ⟨rest, -, h⟩ := Option.bind_eq_some_iff.mp h
      cases h
      exact ⟨rest, rfl⟩

/-- All intervals, by induction on the genome: the rest starts with the speed that the first gene leaves. -/
theorem sum_distance_decodeFrom (hv : p.version = .ros) {s : GeneDecoded} {dna : List Gene}
    {states : List GeneDecoded} (h : decodeFrom p s dna = some states) :
    ((pairwise (states.map (fun g => (⟨g.x, g.y⟩ : Point ℝ)))).map (fun AB => distance AB.1 AB.2)).sum =
      travelled s.v p.deltaT dna := by
  induction dna generalizing s states with
  | nil =>
      cases h
      rfl
  | cons g dna ih =>
      obtain ⟨s', hs', h⟩ := Option.bind_eq_some_iff.mp h
      obtain ⟨rest, hrest, h⟩ := Option.bind_eq_some_iff.mp h
      cases h
      have htail := ih hrest
      obtain ⟨tail, rfl⟩ := exists_cons_of_decodeFrom hrest
      rw [travelled_cons, ← distance_decodeStep hs', ← decodeStep_v hv hs', ← htail]
      rfl

/-- The length of a route is the way along a line. -/
theorem fitnessDistance_of_decode (hv : p.version = .ros) {x d : Subject} (h : decode p x = some d) :
    fitnessDistance d = travelled p.v0 p.deltaT x.dna := by
  obtain ⟨states, hstates, rfl⟩ := Option.map_eq_some_iff.mp h
  rw [fitnessDistance_eq_sum]
  exact sum_distance_decodeFrom hv hstates

end specie

/-- **Lengths.**  Every individual can be decoded, and its length is the sum of the ways in its intervals; another one
with the same accelerations, start speed and interval has the same length. -/
theorem fitnessDistance_decode {p : Specie} (hv : p.version = .ros) (x : Subject) :
    ∃ d, decode p x = some d ∧
      fitnessDistance d = ∑ i ∈ Finset.range x.dna.length,
        |(p.v0 + p.deltaT * ∑ j ∈ Finset.range i, accel x.dna j) * p.deltaT + accel x.dna i * p.deltaT ^ 2 / 2| ∧
      ∀ q y d', q.version = .ros → q.v0 = p.v0 → q.deltaT = p.deltaT →
        y.dna.map (fun g => g.a) = x.dna.map (fun g => g.a) → decode q y = some d' →
        fitnessDistance d' = fitnessDistance d := by
  obtain ⟨d, hd, -⟩ := exists_decode hv x
  refine ⟨d, hd, fitnessDistance_of_decode hv hd, ?_⟩
  intro q y d' hq hv0 hdelta hsame hd'
  rw [fitnessDistance_of_decode hq hd', fitnessDistance_of_decode hv hd, hv0, hdelta, travelled_congr hsame]

/-- Two intervals of the default individual, with a turn between them: one metre each. -/
theorem fitnessDistance_decode_pair : ∃ d, decode (Specie.default .ros)
    ⟨0, [⟨2, 1⟩, ⟨-2, 3⟩], [], none, -1, []⟩ = some d ∧ fitnessDistance d = 2 := by
  obtain ⟨d, hd, hlen, -⟩ := fitnessDistance_decode (p := Specie.default .ros) rfl
    ⟨0, [⟨2, 1⟩, ⟨-2, 3⟩], [], none, -1, []⟩
  refine ⟨d, hd, hlen.trans ?_⟩
  norm_num [Finset.sum_range_succ, accel, Specie.default]

end DroneArch.Genetic
