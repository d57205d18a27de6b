import DroneArch.GeneticSubject
import DroneArch.Runs
import DroneArch.ServiceObstacles

/-! # The run of the genetic planner

`Genetic.run` of both files, as a state machine: `start` up to the first population, and `step` from
one test of a loop, or one pass of the crossover loop, to the next.  Each step reads the clock and
has a tape of random numbers of its own.

* `insert_spec`, `crossPass_spec`: what one child changes of the best individual.
* `crossPass_inserted`: a pass breeds a child and inserts it, in one of the ways of `Inserted`. -/

namespace DroneArch.Genetic

open Planar Real RandomChoices Runs

noncomputable section

/-- The arguments of `Genetic.__init__`. -/
structure Planner where
  specie : Specie
  mapa : Mapa
  taxaCross : ℝ
  populationSize : ℕ
  cD : ℝ
  cObs : ℝ
  cCon : ℝ
  cCur : ℝ
  cT : ℝ
  cDist : ℝ
  maxExecTime : ℝ
  minPrecision : ℝ
  kTournament : ℕ

/-- The default arguments of `Genetic.__init__`. -/
def Planner.default (specie : Specie) (mapa : Mapa) : Planner :=
  match specie.version with
  | .ros =>
      { specie, mapa, taxaCross := 5, populationSize := 10, cD := 1000, cObs := 10000, cCon := 500, cCur := 100,
        cT := 10, cDist := 1, maxExecTime := 1, minPrecision := 1, kTournament := 2 }
  | .v2_3 =>
      { specie, mapa, taxaCross := 1, populationSize := 100, cD := 1000, cObs := 1000, cCon := 10, cCur := 0,
        cT := 0, cDist := 0, maxExecTime := 5, minPrecision := 1, kTournament := 2 }

/-! ### The penalty -/

/-- The points of `get_route`. -/
def Subject.route (s : Subject) : List (Point ℝ) := s.dnaDecoded.map (fun g => ⟨g.x, g.y⟩)

/-- `sqrt((B.x - A.x)**2 + (B.y - A.y)**2)`. -/
def distance (A B : Point ℝ) : ℝ := √((B.x - A.x) ^ 2 + (B.y - A.y) ^ 2)

/-- `__fitness_destination`. -/
def fitnessDestination (p : Planner) (s : Subject) : Option ℝ := do
  let A ← s.route.getLast?
  let d := distance A p.mapa.destination
  return if d < p.minPrecision then 0 else d

/-- `__fitness_distance`. -/
def fitnessDistance (s : Subject) : ℝ :=
  (pairwise s.route).foldl (fun d AB => d + distance AB.1 AB.2) 0

/-- `__fitness_obstacles` of the version. -/
def fitnessObstaclesOf (p : Planner) (s : Subject) : Option ℕ :=
  match p.specie.version with
  | .ros => some (fitnessObstacles s.route p.mapa.areasNInf)
  | .v2_3 => V2_3.fitnessObstacles s.route p.mapa.areasNInf

/-- `__fitness_consumption`. -/
def fitnessConsumption (s : Subject) : ℝ := (s.dna.map (fun gene => gene.a ^ 2)).sum

/-- `__fitness_curves`. -/
def fitnessCurves (p : Specie) (s : Subject) : Option ℝ :=
  if p.eMax = 0 then none else some (1 / p.eMax * (s.dna.map (fun gene => |gene.e|)).sum)

/-- `__fitness_t`. -/
def fitnessT (s : Subject) : ℝ := s.dna.length

/-- `_fitness`. -/
def rate (p : Planner) (s : Subject) : Option Rated := do
  let fitD ← fitnessDestination p s
  let fitObs ← fitnessObstaclesOf p s
  let fitCur ← fitnessCurves p.specie s
  let costs := [p.cD * fitD, p.cObs * fitObs, p.cCon * fitnessConsumption s, p.cCur * fitCur, p.cT * fitnessT s]
  let fitnessTrace := match p.specie.version with
    | .ros => costs ++ [p.cDist * fitnessDistance s]
    | .v2_3 => costs
  return { toSubject := s, fitness := fitnessTrace.sum, fitnessTrace }

/-- `_decode` and then the penalty of every individual. -/
def evaluate (p : Planner) (population : List Subject) : Option (List Rated) := do
  let population ← population.mapM (decode p.specie)
  population.mapM (rate p)

/-! ### The state -/

/-- An entry of the history, as `to_dict` makes it. -/
structure Entry where
  id : ℤ
  generation : Option ℕ
  parents : List ℤ
  fitness : ℝ
  fitnessTrace : List ℝ
  route : List (Point ℝ)

def toDict (x : Rated) : Entry :=
  { id := x.id, generation := x.generation, parents := x.parents, fitness := x.fitness,
    fitnessTrace := x.fitnessTrace, route := x.route }

/-- Where `run` is: at the test of the outer or of the inner loop, in the crossover loop with some
passes left, or returned. -/
inductive Loc
  | outer
  | inner
  | crossing (passes : ℕ)
  | returned

structure State where
  population : List Rated
  fitnesses : List ℝ
  best : Rated
  history : List Entry
  currentId : ℕ
  generation : ℕ
  flagNewborn : ℕ
  /-- `none` until the first child. -/
  flagNewbest : Option Bool
  startTime : ℝ
  maxExecTime : ℝ
  loc : Loc
  /-- The identity of the next object. -/
  nextRef : ℕ
  /-- Every individual evaluated so far, which the code does not keep. -/
  evaluated : List Rated

/-! ### Populations -/

/-- `_genesis`. -/
def genesis (p : Planner) (nextRef currentId generation populationSize : ℕ) : Drawing (List Subject) :=
  (List.range populationSize).mapM (fun i => do
    let dna ← spawn p.specie
    return match p.specie.version with
      | .ros => { ref := nextRef + i, dna, dnaDecoded := [], generation := some generation, id := currentId + i,
                  parents := [] }
      | .v2_3 => { ref := nextRef + i, dna, dnaDecoded := [], generation := none, id := -1, parents := [] })

/-- `population[fitnesses.index(max(fitnesses))]`. -/
def selectBest (population : List Rated) (fitnesses : List ℝ) : Option Rated := do
  let m ← fitnesses.max?
  population[fitnesses.idxOf m]?

/-- One battle of `_tournament`. -/
def battle (population : List Rated) (k : ℕ) : Drawing Rated := do
  let localBest ← choice population
  (List.range (k - 1)).foldlM (fun localBest _ => do
    let a ← choice population
    return if a.fitness < localBest.fitness then a else localBest) localBest

/-- `_tournament`. -/
def tournament (population : List Rated) (k : ℕ) : Drawing (Rated × Rated) := do
  let parent1 ← battle population k
  let parent2 ← battle population k
  return (parent1, parent2)

/-! ### Insertion -/

/-- `set_parents`, which only the first file has. -/
def setParents (p : Planner) (child parent1 parent2 : Rated) : Rated :=
  match p.specie.version with
  | .ros => { child with parents := child.parents ++ [parent1.id, parent2.id] }
  | .v2_3 => child

/-- `__substitute`: the state, and the child as it is registered. -/
def substitute (p : Planner) (s : State) (child parent : Rated) : Option (State × Rated) := do
  let iParent ← s.population.findIdx? (fun x => x.ref = parent.ref)
  let child := match p.specie.version with
    | .ros => { child with generation := some s.generation, id := s.currentId }
    | .v2_3 => child
  let s := { s with
    population := s.population.eraseP (fun x => x.ref = parent.ref) ++ [child]
    fitnesses := s.fitnesses.eraseIdx iParent ++ [child.fitness]
    flagNewborn := s.flagNewborn + 1 }
  return match p.specie.version with
    | .ros => ({ s with currentId := s.currentId + 1, history := s.history ++ [toDict child] }, child)
    | .v2_3 => (s, child)

/-- The first part of `_insert`: the child may take the place of one of its parents. -/
def replaceParent (p : Planner) (s : State) (child parent1 parent2 : Rated) : Option (State × Rated) :=
  if child.fitness < parent1.fitness then substitute p s (setParents p child parent1 parent2) parent1
  else if child.fitness < parent2.fitness then substitute p s (setParents p child parent2 parent1) parent2
  else some (s, child)

/-- `_insert`. -/
def insert (p : Planner) (s : State) (child parent1 parent2 : Rated) : Option State := do
  let r ← replaceParent p s child parent1 parent2
  return if r.2.fitness < r.1.best.fitness then { r.1 with best := r.2, flagNewbest := some true }
    else { r.1 with flagNewbest := some false }

/-! ### `run` -/

/-- The run up to the first test of the outer loop. -/
def start (p : Planner) (maxExecTime : Option ℝ) (now : ℝ) : Drawing State := do
  let subjects ← genesis p 0 0 0 p.populationSize
  let population ← attempt (evaluate p subjects)
  let fitnesses := population.map (fun x => x.fitness)
  let best ← attempt (selectBest population fitnesses)
  return {
    population, fitnesses, best
    history := match p.specie.version with
      | .ros => population.map toDict
      | .v2_3 => []
    currentId := match p.specie.version with
      | .ros => p.populationSize
      | .v2_3 => 0
    generation := 0
    flagNewborn := 0
    flagNewbest := none
    startTime := now
    -- zero is false
    maxExecTime := match maxExecTime with
      | some t => if t = 0 then p.maxExecTime else t
      | none => p.maxExecTime
    loc := .outer
    nextRef := p.populationSize
    evaluated := population }

/-- `stop_criteria`. -/
def stopCriteria (s : State) (now : ℝ) : Bool := decide (now - s.startTime ≥ s.maxExecTime)

/-- `converge`. -/
def converge (s : State) : Bool := decide (s.flagNewborn = 0)

/-- `self.generation += 1`, which only the first file has. -/
def nextGeneration (p : Planner) (s : State) : ℕ :=
  match p.specie.version with
  | .ros => s.generation + 1
  | .v2_3 => s.generation

/-- One pass of the crossover loop. -/
def crossPass (p : Planner) (s : State) : Drawing State := do
  let parents ← tournament s.population p.kTournament
  let child ← crossover p.specie parents.1.toSubject parents.2.toSubject s.nextRef
  let child ← mutation p.specie child
  let child ← attempt (rate p child)
  attempt (insert p { s with nextRef := s.nextRef + 1, evaluated := s.evaluated ++ [child] } child
    parents.1 parents.2)

/-- The individuals drawn at a restart. -/
def drawNewcomers (p : Planner) (s : State) : Drawing (List Subject) :=
  genesis p s.nextRef s.currentId s.generation (p.populationSize - 1)

/-- `Reiniciar rotas`.  In `genetic_v2_3.py` the best individual is decoded and evaluated again with
the others, and stays the best. -/
def restart (p : Planner) (s : State) : Drawing State := do
  let subjects ← drawNewcomers p s
  match p.specie.version with
  | .ros =>
      let newcomers ← attempt (evaluate p subjects)
      let population := newcomers ++ [s.best]
      let fitnesses := newcomers.map (fun x => x.fitness) ++ [s.best.fitness]
      let best ← attempt (selectBest population fitnesses)
      return { s with
        population, fitnesses, best
        history := s.history ++ newcomers.map toDict
        currentId := s.currentId + (p.populationSize - 1)
        nextRef := s.nextRef + (p.populationSize - 1)
        evaluated := s.evaluated ++ newcomers }
  | .v2_3 =>
      let population ← attempt (evaluate p (subjects ++ [s.best.toSubject]))
      let best ← attempt population.getLast?
      return { s with
        population, best
        fitnesses := population.map (fun x => x.fitness)
        nextRef := s.nextRef + (p.populationSize - 1)
        evaluated := s.evaluated ++ population }

/-- What a step reads: the clock and the random numbers. -/
structure Tick where
  now : ℝ
  tape : Tape

def step (p : Planner) (s : State) (t : Tick) : Option State :=
  match s.loc with
  | .outer =>
      if stopCriteria s t.now then some { s with loc := .returned }
      else some { s with flagNewborn := p.populationSize, loc := .inner }
  | .inner =>
      if converge s then ((restart p s).run' t.tape).map (fun s => { s with loc := .outer })
      else some { s with
        flagNewborn := 0, generation := nextGeneration p s,
        loc := .crossing ⌈p.taxaCross * p.populationSize⌉.toNat }
  | .crossing (passes + 1) => ((crossPass p s).run' t.tape).map (fun s => { s with loc := .crossing passes })
  | .crossing 0 =>
      match p.specie.version with
      | .ros => some { s with loc := .inner }
      -- the trace of `genetic_v2_3.py` reads `flag_newbest`
      | .v2_3 => if s.flagNewbest.isNone then none else some { s with loc := .inner }
  | .returned => none

end

variable {p : Planner} {s s' : State}

/-! ### What the operations do -/

/-- What a step does, by where the run is. -/
inductive Moves (p : Planner) (s : State) (t : Tick) : State → Prop
  | stop (hloc : s.loc = .outer) (hstop : stopCriteria s t.now = true) : Moves p s t { s with loc := .returned }
  | epoch (hloc : s.loc = .outer) (hgo : stopCriteria s t.now = false) :
      Moves p s t { s with flagNewborn := p.populationSize, loc := .inner }
  | restart (hloc : s.loc = .inner) (hconv : converge s = true) {r : State} {ω : Tape}
      (hr : (restart p s).run t.tape = some (r, ω)) : Moves p s t { r with loc := .outer }
  | generation (hloc : s.loc = .inner) (hgo : converge s = false) :
      Moves p s t { s with
        flagNewborn := 0, generation := nextGeneration p s,
        loc := .crossing ⌈p.taxaCross * p.populationSize⌉.toNat }
  | pass {passes : ℕ} (hloc : s.loc = .crossing (passes + 1)) {r : State} {ω : Tape}
      (hr : (crossPass p s).run t.tape = some (r, ω)) : Moves p s t { r with loc := .crossing passes }
  | finish (hloc : s.loc = .crossing 0) (hflag : p.specie.version = .v2_3 → s.flagNewbest.isSome = true) :
      Moves p s t { s with loc := .inner }

theorem moves_of_step {t : Tick} (h : step p s t = some s') : Moves p s t s' := by
  unfold step at h
  cases hloc : s.loc with
  | outer =>
      simp only [hloc] at h
      cases hstop : stopCriteria s t.now with
      | true =>
          rw [hstop, if_pos rfl] at h
          cases h
          exact .stop hloc hstop
      | false =>
          rw [hstop, if_neg (by simp)] at h
          cases h
          exact .epoch hloc hstop
  | inner =>
      simp only [hloc] at h
      cases hconv : converge s with
      | true =>
          rw [hconv, if_pos rfl] at h
          obtain ⟨r, hr, rfl⟩ := Option.map_eq_some_iff.mp h
          obtain ⟨ω, hrun⟩ := run'_eq_some.mp hr
          exact .restart hloc hconv hrun
      | false =>
          rw [hconv, if_neg (by simp)] at h
          cases h
          exact .generation hloc hconv
  | crossing passes =>
      cases passes with
      | zero =>
          simp only [hloc] at h
          cases hv : p.specie.version with
          | ros =>
              simp only [hv] at h
              cases h
              exact .finish hloc (fun h => (nomatch hv.symm.trans h))
          | v2_3 =>
              simp only [hv] at h
              obtain ⟨hflag, h⟩ := Option.ite_none_left_eq_some.mp h
              cases h
              exact .finish hloc (fun _ => by simpa [Option.isSome_iff_ne_none] using hflag)
      | succ passes =>
          simp only [hloc] at h
          obtain ⟨r, hr, rfl⟩ := Option.map_eq_some_iff.mp h
          obtain ⟨ω, hrun⟩ := run'_eq_some.mp hr
          exact .pass hloc hrun
  | returned =>
      simp only [hloc] at h
      cases h

theorem step_of_moves {t : Tick} (h : Moves p s t s') : step p s t = some s' := by
  unfold step
  cases h with
  | stop hloc hstop =>
      simp only [hloc]
      rw [hstop, if_pos rfl]
  | epoch hloc hgo =>
      simp only [hloc]
      rw [hgo, if_neg Bool.false_ne_true]
  | restart hloc hconv hr =>
      simp only [hloc]
      rw [hconv, if_pos rfl, run'_eq_some.mpr ⟨_, hr⟩, Option.map_some]
  | generation hloc hgo =>
      simp only [hloc]
      rw [hgo, if_neg Bool.false_ne_true]
  | pass hloc hr =>
      simp only [hloc]
      rw [run'_eq_some.mpr ⟨_, hr⟩, Option.map_some]
  | finish hloc hflag =>
      simp only [hloc]
      cases hv : p.specie.version with
      | ros => rfl
      | v2_3 =>
          dsimp only
          rw [if_neg]
          simpa [Option.isSome_iff_ne_none] using hflag hv

theorem setParents_fitness (child parent1 parent2 : Rated) :
    (setParents p child parent1 parent2).fitness = child.fitness := by
  unfold setParents
  split <;> rfl

theorem substitute_spec {child parent : Rated} {r : State × Rated} (h : substitute p s child parent = some r) :
    r.1.best = s.best ∧ r.1.evaluated = s.evaluated ∧ r.2.fitness = child.fitness := by
  unfold substitute at h
  obtain ⟨i, _, h⟩ := Option.bind_eq_some_iff.mp h
  cases hv : p.specie.version <;> simp only [hv, Option.pure_def, Option.some.injEq] at h <;> subst h <;>
    exact ⟨rfl, rfl, rfl⟩

theorem replaceParent_spec {child parent1 parent2 : Rated} {r : State × Rated}
    (h : replaceParent p s child parent1 parent2 = some r) :
    r.1.best = s.best ∧ r.1.evaluated = s.evaluated ∧ r.2.fitness = child.fitness := by
  unfold replaceParent at h
  split at h
  · have := substitute_spec h
    rwa [setParents_fitness] at this
  · split at h
    · have := substitute_spec h
      rwa [setParents_fitness] at this
    · cases h
      exact ⟨rfl, rfl, rfl⟩

/-- An insertion leaves the better of the child and the best individual as the best. -/
theorem insert_spec {child parent1 parent2 : Rated} (h : insert p s child parent1 parent2 = some s') :
    s'.best.fitness = min child.fitness s.best.fitness ∧ s'.evaluated = s.evaluated := by
  unfold insert at h
  obtain ⟨r, hr, h⟩ := Option.bind_eq_some_iff.mp h
  obtain ⟨hbest, hev, hfit⟩ := replaceParent_spec hr
  rw [Option.pure_def, Option.some.injEq, hbest, hfit] at h
  subst h
  split
  · rename_i hlt
    exact ⟨hfit.trans (min_eq_left hlt.le).symm, hev⟩
  · rename_i hge
    exact ⟨(congrArg Rated.fitness hbest).trans (min_eq_right (not_lt.mp hge)).symm, hev⟩

/-- The child as it is registered in the place of the parent. -/
noncomputable def registered (p : Planner) (s : State) (child parent other : Rated) : Rated :=
  match p.specie.version with
  | .ros => { child with
      parents := child.parents ++ [parent.id, other.id], generation := some s.generation, id := s.currentId }
  | .v2_3 => child

/-- The second part of `_insert`: the child may be the new best individual. -/
noncomputable def State.crown (s : State) (child : Rated) : State :=
  { s with
    best := if child.fitness < s.best.fitness then child else s.best
    flagNewbest := some (decide (child.fitness < s.best.fitness)) }

theorem State.crown_best (s : State) (child : Rated) :
    (s.crown child).best = child ∨ (s.crown child).best = s.best := by
  unfold State.crown
  dsimp only
  split
  · exact Or.inl rfl
  · exact Or.inr rfl

/-- What an insertion does: the child is refused, or it takes the place of one of its parents. -/
inductive Inserted (p : Planner) (s : State) (child parent1 parent2 : Rated) : State → Prop
  | refused (h1 : ¬ child.fitness < parent1.fitness) (h2 : ¬ child.fitness < parent2.fitness) :
      Inserted p s child parent1 parent2 (s.crown child)
  | replaces {parent other : Rated} {i : ℕ}
      (hparent : parent = parent1 ∧ other = parent2 ∨ parent = parent2 ∧ other = parent1)
      (hlt : child.fitness < parent.fitness) (hi : s.population.findIdx? (fun x => x.ref = parent.ref) = some i) :
      Inserted p s child parent1 parent2 ({ s with
        population := s.population.eraseP (fun x : Rated => x.ref = parent.ref) ++ [registered p s child parent other]
        fitnesses := s.fitnesses.eraseIdx i ++ [child.fitness]
        flagNewborn := s.flagNewborn + 1
        currentId := match p.specie.version with
          | .ros => s.currentId + 1
          | .v2_3 => s.currentId
        history := match p.specie.version with
          | .ros => s.history ++ [toDict (registered p s child parent other)]
          | .v2_3 => s.history }.crown (registered p s child parent other))

theorem inserted_of_insert {child parent1 parent2 : Rated} (h : insert p s child parent1 parent2 = some s') :
    Inserted p s child parent1 parent2 s' := by
  unfold insert at h
  obtain ⟨r, hr, h⟩ := Option.bind_eq_some_iff.mp h
  have hcrown : s' = r.1.crown r.2 := by
    rw [Option.pure_def, Option.some.injEq] at h
    rw [← h]
    unfold State.crown
    split <;> rename_i hlt <;> simp [hlt]
  rw [hcrown]
  unfold replaceParent at hr
  have hsub : ∀ {parent other : Rated}, (parent = parent1 ∧ other = parent2 ∨ parent = parent2 ∧ other = parent1) →
      child.fitness < parent.fitness → substitute p s (setParents p child parent other) parent = some r →
      Inserted p s child parent1 parent2 (r.1.crown r.2) := by
    intro parent other hparent hlt hr
    unfold substitute setParents at hr
    obtain ⟨i, hi, hr⟩ := Option.bind_eq_some_iff.mp hr
    have hrep := Inserted.replaces (p := p) hparent hlt hi
    unfold registered at hrep
    cases hv : p.specie.version <;> simp only [hv, Option.pure_def, Option.some.injEq] at hr hrep <;> subst hr <;>
      exact hrep
  split at hr
  · next hlt => exact hsub (.inl ⟨rfl, rfl⟩) hlt hr
  · next h1 =>
      split at hr
      · next hlt => exact hsub (.inr ⟨rfl, rfl⟩) hlt hr
      · next h2 =>
          cases hr
          exact .refused h1 h2

/-- The part of a pass before the insertion: two parents and their child. -/
noncomputable def breed (p : Planner) (s : State) : Drawing (Rated × Rated × Rated) := do
  let parents ← tournament s.population p.kTournament
  let child ← crossover p.specie parents.1.toSubject parents.2.toSubject s.nextRef
  let child ← mutation p.specie child
  let child ← attempt (rate p child)
  return (parents.1, parents.2, child)

theorem crossPass_inserted {ω ω' : Tape} (h : (crossPass p s).run ω = some (s', ω')) :
    ∃ parent1 parent2 child, (breed p s).run ω = some ((parent1, parent2, child), ω') ∧
      Inserted p { s with nextRef := s.nextRef + 1, evaluated := s.evaluated ++ [child] } child parent1 parent2 s' := by
  unfold crossPass at h
  obtain ⟨parents, ω₁, hpar, h⟩ := run_bind_eq_some.mp h
  obtain ⟨c, ω₂, hcross, h⟩ := run_bind_eq_some.mp h
  obtain ⟨c', ω₃, hmut, h⟩ := run_bind_eq_some.mp h
  obtain ⟨child, ω₄, hrate, h⟩ := run_bind_eq_some.mp h
  obtain ⟨hins, rfl⟩ := run_attempt_eq_some.mp h
  refine ⟨parents.1, parents.2, child, ?_, inserted_of_insert hins⟩
  exact run_bind_eq_some.mpr ⟨parents, ω₁, hpar, run_bind_eq_some.mpr ⟨c, ω₂, hcross, run_bind_eq_some.mpr
    ⟨c', ω₃, hmut, run_bind_eq_some.mpr ⟨child, ω₄, hrate, run_pure_eq_some.mpr ⟨rfl, rfl⟩⟩⟩⟩⟩

/-- A child of two individuals of the population can be inserted. -/
theorem exists_insert {child parent1 parent2 : Rated} (h1 : parent1 ∈ s.population) (h2 : parent2 ∈ s.population) :
    ∃ s', insert p s child parent1 parent2 = some s' := by
  have hsub : ∀ {c parent : Rated}, parent ∈ s.population → ∃ r, substitute p s c parent = some r := by
    intro c parent hparent
    obtain ⟨i, hi⟩ := Option.isSome_iff_exists.mp (List.findIdx?_isSome.trans
      (List.any_eq_true.mpr ⟨parent, hparent, decide_eq_true rfl⟩) :
      (s.population.findIdx? (fun x => x.ref = parent.ref)).isSome = true)
    unfold substitute
    rw [hi]
    cases p.specie.version <;> exact ⟨_, rfl⟩
  have hrep : ∃ r, replaceParent p s child parent1 parent2 = some r := by
    unfold replaceParent
    split
    · exact hsub h1
    · split
      · exact hsub h2
      · exact ⟨_, rfl⟩
  obtain ⟨r, hr⟩ := hrep
  unfold insert
  rw [hr]
  exact ⟨_, rfl⟩

/-- The parents are of the population. -/
theorem yields_tournament (population : List Rated) (k : ℕ) :
    Yields (tournament population k) (fun r => r.1 ∈ population ∧ r.2 ∈ population) := by
  have hbattle : Yields (battle population k) (fun x => x ∈ population) := by
    refine (yields_choice population).bind fun x hx => ?_
    refine yields_foldlM (I := fun _ x => x ∈ population) hx fun _ x hx _ _ => ?_
    refine (yields_choice population).bind fun a ha => yields_pure ?_
    split
    · exact ha
    · exact hx
  exact hbattle.bind fun _ h1 => hbattle.bind fun _ h2 => yields_pure ⟨h1, h2⟩

theorem parents_mem_of_breed {parent1 parent2 child : Rated} {ω ω' : Tape}
    (h : (breed p s).run ω = some ((parent1, parent2, child), ω')) :
    parent1 ∈ s.population ∧ parent2 ∈ s.population := by
  have hyields : Yields (breed p s) (fun r => r.1 ∈ s.population ∧ r.2.1 ∈ s.population) :=
    (yields_tournament s.population p.kTournament).bind fun _ hpar =>
      yields_bind fun _ => yields_bind fun _ => yields_bind fun _ => yields_pure hpar
  exact hyields _ _ _ h

/-- Once the child is bred, the pass returns. -/
theorem exists_crossPass {parent1 parent2 child : Rated} {ω ω' : Tape}
    (h : (breed p s).run ω = some ((parent1, parent2, child), ω')) : ∃ s', (crossPass p s).run ω = some (s', ω') ∧
      Inserted p { s with nextRef := s.nextRef + 1, evaluated := s.evaluated ++ [child] } child parent1 parent2 s' := by
  obtain ⟨h1, h2⟩ := parents_mem_of_breed h
  obtain ⟨parents, ω₁, hpar, h⟩ := run_bind_eq_some.mp h
  obtain ⟨c, ω₂, hcross, h⟩ := run_bind_eq_some.mp h
  obtain ⟨c', ω₃, hmut, h⟩ := run_bind_eq_some.mp h
  obtain ⟨_, ω₄, hrate, h⟩ := run_bind_eq_some.mp h
  obtain ⟨heq, rfl⟩ := run_pure_eq_some.mp h
  cases heq
  obtain ⟨s', hs'⟩ : ∃ s', insert p { s with nextRef := s.nextRef + 1, evaluated := s.evaluated ++ [child] } child
      parents.1 parents.2 = some s' := exists_insert h1 h2
  refine ⟨s', ?_, inserted_of_insert hs'⟩
  exact run_bind_eq_some.mpr ⟨parents, ω₁, hpar, run_bind_eq_some.mpr ⟨c, ω₂, hcross, run_bind_eq_some.mpr
    ⟨c', ω₃, hmut, run_bind_eq_some.mpr ⟨child, ω₄, hrate, run_attempt_eq_some.mpr ⟨hs', rfl⟩⟩⟩⟩⟩

/-- A pass of the crossover loop evaluates one child. -/
theorem crossPass_spec {ω ω' : Tape} (h : (crossPass p s).run ω = some (s', ω')) :
    ∃ child, s'.evaluated = s.evaluated ++ [child] ∧ s'.best.fitness = min child.fitness s.best.fitness := by
  unfold crossPass at h
  obtain ⟨parents, _, _, h⟩ := run_bind_eq_some.mp h
  obtain ⟨_, _, _, h⟩ := run_bind_eq_some.mp h
  obtain ⟨_, _, _, h⟩ := run_bind_eq_some.mp h
  obtain ⟨child, _, _, h⟩ := run_bind_eq_some.mp h
  obtain ⟨hbest, hev⟩ := insert_spec (run_attempt_eq_some.mp h).1
  exact ⟨child, hev, hbest⟩

/-- `index(max(..))` finds an individual of the greatest penalty. -/
theorem selectBest_spec {population : List Rated} {best : Rated}
    (h : selectBest population (population.map (fun x => x.fitness)) = some best) :
    best ∈ population ∧ ∀ x ∈ population, x.fitness ≤ best.fitness := by
  unfold selectBest at h
  obtain ⟨m, hm, h⟩ := Option.bind_eq_some_iff.mp h
  obtain ⟨hmem, hmax⟩ := List.max?_eq_some_iff.mp hm
  have hfit : best.fitness = m := by
    have hget := List.getElem?_map (f := fun x : Rated => x.fitness)
      (l := population) (i := (population.map (fun x => x.fitness)).idxOf m)
    rw [h, Option.map_some, List.getElem?_idxOf hmem] at hget
    exact (Option.some.inj hget).symm
  refine ⟨List.mem_of_getElem? h, fun x hx => ?_⟩
  rw [hfit]
  exact hmax x.fitness (List.mem_map_of_mem hx)

/-- `max_exec_time if max_exec_time else self.max_exec_time`. -/
noncomputable def execTime (p : Planner) : Option ℝ → ℝ
  | some t => if t = 0 then p.maxExecTime else t
  | none => p.maxExecTime

/-- The state after the first population. -/
noncomputable def firstState (p : Planner) (maxExecTime : Option ℝ) (now : ℝ) (population : List Rated) (best : Rated) :
    State where
  population := population
  fitnesses := population.map (fun x => x.fitness)
  best := best
  history := match p.specie.version with
    | .ros => population.map toDict
    | .v2_3 => []
  currentId := match p.specie.version with
    | .ros => p.populationSize
    | .v2_3 => 0
  generation := 0
  flagNewborn := 0
  flagNewbest := none
  startTime := now
  maxExecTime := execTime p maxExecTime
  loc := .outer
  nextRef := p.populationSize
  evaluated := population

/-- What the start draws and evaluates. -/
theorem start_eq_some {maxExecTime : Option ℝ} {now : ℝ} {ω ω' : Tape} :
    (start p maxExecTime now).run ω = some (s, ω') ↔ ∃ subjects population best,
      (genesis p 0 0 0 p.populationSize).run ω = some (subjects, ω') ∧ evaluate p subjects = some population ∧
      selectBest population (population.map (fun x => x.fitness)) = some best ∧
      s = firstState p maxExecTime now population best := by
  constructor
  · intro h
    obtain ⟨subjects, ω₁, hgen, h⟩ := run_bind_eq_some.mp h
    obtain ⟨population, ω₂, hev, h⟩ := run_bind_eq_some.mp h
    obtain ⟨best, ω₃, hsel, h⟩ := run_bind_eq_some.mp h
    obtain ⟨hpop, rfl⟩ := run_attempt_eq_some.mp hev
    obtain ⟨hbest, rfl⟩ := run_attempt_eq_some.mp hsel
    obtain ⟨rfl, rfl⟩ := run_pure_eq_some.mp h
    exact ⟨subjects, population, best, hgen, hpop, hbest, rfl⟩
  · rintro ⟨subjects, population, best, hgen, hpop, hbest, rfl⟩
    exact run_bind_eq_some.mpr ⟨subjects, ω', hgen, run_bind_eq_some.mpr ⟨population, ω',
      run_attempt_eq_some.mpr ⟨hpop, rfl⟩, run_bind_eq_some.mpr ⟨best, ω', run_attempt_eq_some.mpr ⟨hbest, rfl⟩,
        run_pure_eq_some.mpr ⟨rfl, rfl⟩⟩⟩⟩

/-- The best individual of the first population is one of the greatest penalty. -/
theorem start_spec {maxExecTime : Option ℝ} {now : ℝ} {ω ω' : Tape}
    (h : (start p maxExecTime now).run ω = some (s, ω')) :
    s.evaluated = s.population ∧ s.best ∈ s.population ∧ ∀ x ∈ s.population, x.fitness ≤ s.best.fitness := by
  obtain ⟨_, _, _, _, _, hbest, rfl⟩ := start_eq_some.mp h
  exact ⟨rfl, selectBest_spec hbest⟩

/-- The state after a restart of the first file. -/
noncomputable def restarted (p : Planner) (s : State) (newcomers : List Rated) (best : Rated) : State :=
  { s with
    population := newcomers ++ [s.best]
    fitnesses := (newcomers ++ [s.best]).map (fun x => x.fitness)
    best := best
    history := s.history ++ newcomers.map toDict
    currentId := s.currentId + (p.populationSize - 1)
    nextRef := s.nextRef + (p.populationSize - 1)
    evaluated := s.evaluated ++ newcomers }

/-- What a restart of the first file does. -/
theorem restart_ros {ω ω' : Tape} (hv : p.specie.version = .ros) : (restart p s).run ω = some (s', ω') ↔
    ∃ subjects newcomers best, (drawNewcomers p s).run ω = some (subjects, ω') ∧
      evaluate p subjects = some newcomers ∧
      selectBest (newcomers ++ [s.best]) ((newcomers ++ [s.best]).map (fun x => x.fitness)) = some best ∧
      s' = restarted p s newcomers best := by
  have hmap : ∀ newcomers : List Rated, (newcomers ++ [s.best]).map (fun x => x.fitness) =
      newcomers.map (fun x => x.fitness) ++ [s.best.fitness] := fun _ => List.map_append
  unfold restart restarted
  constructor
  · intro h
    obtain ⟨subjects, ω₁, hdraw, h⟩ := run_bind_eq_some.mp h
    simp only [hv] at h
    obtain ⟨newcomers, _, hev, h⟩ := run_bind_eq_some.mp h
    obtain ⟨best, _, hsel, h⟩ := run_bind_eq_some.mp h
    obtain ⟨hnew, rfl⟩ := run_attempt_eq_some.mp hev
    obtain ⟨hbest, rfl⟩ := run_attempt_eq_some.mp hsel
    obtain ⟨rfl, rfl⟩ := run_pure_eq_some.mp h
    rw [← hmap] at hbest
    exact ⟨subjects, newcomers, best, hdraw, hnew, hbest, by rw [hmap]⟩
  · rintro ⟨subjects, newcomers, best, hdraw, hnew, hbest, rfl⟩
    refine run_bind_eq_some.mpr ⟨subjects, ω', hdraw, ?_⟩
    simp only [hv]
    rw [hmap] at hbest ⊢
    exact run_bind_eq_some.mpr ⟨newcomers, ω', run_attempt_eq_some.mpr ⟨hnew, rfl⟩, run_bind_eq_some.mpr ⟨best, ω',
      run_attempt_eq_some.mpr ⟨hbest, rfl⟩, run_pure_eq_some.mpr ⟨rfl, rfl⟩⟩⟩

/-- What a restart of `genetic_v2_3.py` does. -/
theorem restart_v2_3 {ω ω' : Tape} (hv : p.specie.version = .v2_3) (h : (restart p s).run ω = some (s', ω')) :
    ∃ subjects population best, (drawNewcomers p s).run ω = some (subjects, ω') ∧
      evaluate p (subjects ++ [s.best.toSubject]) = some population ∧ population.getLast? = some best ∧
      s' = { s with
        population
        best
        fitnesses := population.map (fun x => x.fitness)
        nextRef := s.nextRef + (p.populationSize - 1)
        evaluated := s.evaluated ++ population } := by
  unfold restart at h
  obtain ⟨subjects, ω₁, hdraw, h⟩ := run_bind_eq_some.mp h
  simp only [hv] at h
  obtain ⟨population, _, hev, h⟩ := run_bind_eq_some.mp h
  obtain ⟨best, _, hlast, h⟩ := run_bind_eq_some.mp h
  obtain ⟨hnew, rfl⟩ := run_attempt_eq_some.mp hev
  obtain ⟨hbest, rfl⟩ := run_attempt_eq_some.mp hlast
  obtain ⟨rfl, rfl⟩ := run_pure_eq_some.mp h
  exact ⟨subjects, population, best, hdraw, hnew, hbest, rfl⟩

theorem exists_selectBest {population : List Rated} (h : population ≠ []) :
    ∃ best, selectBest population (population.map (fun x => x.fitness)) = some best := by
  obtain ⟨m, hm⟩ := Option.ne_none_iff_exists'.mp
    (mt List.max?_eq_none_iff.mp (mt List.map_eq_nil_iff.mp h) : (population.map (fun x => x.fitness)).max? ≠ none)
  have hlt := List.idxOf_lt_length_of_mem (List.max?_mem hm)
  rw [List.length_map] at hlt
  exact ⟨population[(population.map (fun x => x.fitness)).idxOf m], by
    unfold selectBest
    rw [hm, Option.bind_eq_bind, Option.bind_some, List.getElem?_eq_getElem hlt]⟩

/-- The start returns when the population can be evaluated and is not empty. -/
theorem exists_start {ω ω' : Tape} {subjects : List Subject} {population : List Rated}
    (hgen : (genesis p 0 0 0 p.populationSize).run ω = some (subjects, ω'))
    (hev : evaluate p subjects = some population) (hne : population ≠ []) (maxExecTime : Option ℝ) (now : ℝ) :
    ∃ s, (start p maxExecTime now).run ω = some (s, ω') ∧ s.population = population := by
  obtain ⟨best, hbest⟩ := exists_selectBest hne
  exact ⟨_, start_eq_some.mpr ⟨subjects, population, best, hgen, hev, hbest, rfl⟩, rfl⟩

end DroneArch.Genetic
