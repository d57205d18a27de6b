import DroneArch.GeneticRun
import Mathlib.Tactic.NormNum.RealSqrt

/-! # The best individual of the genetic planner

The fitness is a penalty: a child becomes `best` when it has less of it (`_insert`).  Where `best`
is taken from a whole population, at the start of both files and after each restart of the first
one, `index(max(..))` takes an individual of the greatest penalty.

* `elitist_iff`: `best` is never worse than an individual evaluated so far exactly when the first
  population and the populations of the restarts leave no choice. -/

namespace DroneArch.Genetic

open Planar Real RandomChoices Runs

variable {p : Planner} {s s' : State}

/-- No individual evaluated so far has less penalty than the best one. -/
def Elitist (s : State) : Prop := ∀ x ∈ s.evaluated, s.best.fitness ≤ x.fitness

/-- All individuals have the same penalty. -/
def Level (population : List Rated) : Prop := ∀ x ∈ population, ∀ y ∈ population, x.fitness = y.fitness

/-- A restart does not draw an individual that makes `best` worse.  In the first file every newcomer
has the penalty of `best`; in `genetic_v2_3.py` none has less than `best`, which is decoded again. -/
def RestartKeeps (p : Planner) (s : State) (t : Tick) : Prop :=
  s.loc = .inner → converge s = true → ∀ subjects ω, (drawNewcomers p s).run t.tape = some (subjects, ω) →
    match p.specie.version with
    | .ros => ∀ newcomers, evaluate p subjects = some newcomers → ∀ x ∈ newcomers, x.fitness = s.best.fitness
    | .v2_3 => ∀ population best, evaluate p (subjects ++ [s.best.toSubject]) = some population →
        population.getLast? = some best → best.fitness ≤ s.best.fitness ∧ ∀ x ∈ population, best.fitness ≤ x.fitness

/-- The best individual has been evaluated. -/
def BestEvaluated (s : State) : Prop := ∃ x ∈ s.evaluated, x.fitness = s.best.fitness

theorem Elitist.eq_of_mem (h : Elitist s) {x : Rated} (hx : x ∈ s.evaluated) (hle : x.fitness ≤ s.best.fitness) :
    x.fitness = s.best.fitness := le_antisymm hle (h x hx)

/-! ### The first population -/

theorem elitist_start {maxExecTime : Option ℝ} {now : ℝ} {ω ω' : Tape}
    (h : (start p maxExecTime now).run ω = some (s, ω')) : Elitist s ↔ Level s.population := by
  obtain ⟨hev, hmem, hmax⟩ := start_spec h
  constructor
  · intro hel x hx y hy
    have hx' := hel.eq_of_mem (hev ▸ hx) (hmax x hx)
    have hy' := hel.eq_of_mem (hev ▸ hy) (hmax y hy)
    exact hx'.trans hy'.symm
  · intro hlevel x hx
    exact (hlevel s.best hmem x (hev ▸ hx)).le

theorem bestEvaluated_start {maxExecTime : Option ℝ} {now : ℝ} {ω ω' : Tape}
    (h : (start p maxExecTime now).run ω = some (s, ω')) : BestEvaluated s := by
  obtain ⟨hev, hmem, _⟩ := start_spec h
  exact ⟨s.best, hev ▸ hmem, rfl⟩

/-! ### The crossover loop -/

/-- One more child, of which the better is kept. -/
theorem elitist_of_child (hel : Elitist s) {child : Rated} (hev : s'.evaluated = s.evaluated ++ [child])
    (hbest : s'.best.fitness = min child.fitness s.best.fitness) : Elitist s' := by
  intro x hx
  rw [hbest]
  rcases List.mem_append.mp (hev ▸ hx) with hx | hx
  · exact (min_le_right _ _).trans (hel x hx)
  · rw [List.mem_singleton.mp hx]
    exact min_le_left _ _

theorem bestEvaluated_of_child (hin : BestEvaluated s) {child : Rated}
    (hev : s'.evaluated = s.evaluated ++ [child])
    (hbest : s'.best.fitness = min child.fitness s.best.fitness) : BestEvaluated s' := by
  unfold BestEvaluated
  rw [hev, hbest]
  rcases le_total child.fitness s.best.fitness with hle | hle
  · exact ⟨child, List.mem_append_right _ List.mem_cons_self, (min_eq_left hle).symm⟩
  · obtain ⟨x, hx, hfit⟩ := hin
    exact ⟨x, List.mem_append_left _ hx, hfit.trans (min_eq_right hle).symm⟩

/-! ### The restarts -/

/-- What a restart evaluates, and which individual it takes as the best. -/
inductive Restarted (p : Planner) (s : State) (subjects : List Subject) (s' : State) : Prop
  | ros (hv : p.specie.version = .ros) {newcomers : List Rated} (hnew : evaluate p subjects = some newcomers)
      (hev : s'.evaluated = s.evaluated ++ newcomers) (hmem : s'.best ∈ newcomers ++ [s.best])
      (hmax : ∀ x ∈ newcomers ++ [s.best], x.fitness ≤ s'.best.fitness)
  | v2_3 (hv : p.specie.version = .v2_3) {population : List Rated}
      (hnew : evaluate p (subjects ++ [s.best.toSubject]) = some population)
      (hev : s'.evaluated = s.evaluated ++ population) (hlast : population.getLast? = some s'.best)

theorem restart_spec {ω ω' : Tape} (h : (restart p s).run ω = some (s', ω')) :
    ∃ subjects ω₁, (drawNewcomers p s).run ω = some (subjects, ω₁) ∧ Restarted p s subjects s' := by
  cases hv : p.specie.version with
  | ros =>
      obtain ⟨subjects, newcomers, best, hdraw, hnew, hbest, rfl⟩ := (restart_ros hv).mp h
      obtain ⟨hmem, hmax⟩ := selectBest_spec hbest
      exact ⟨subjects, ω', hdraw, .ros hv hnew rfl hmem hmax⟩
  | v2_3 =>
      obtain ⟨subjects, population, best, hdraw, hnew, hbest, rfl⟩ := restart_v2_3 hv h
      exact ⟨subjects, ω', hdraw, .v2_3 hv hnew rfl hbest⟩

theorem bestEvaluated_of_restarted (hin : BestEvaluated s) {subjects : List Subject}
    (h : Restarted p s subjects s') : BestEvaluated s' := by
  unfold BestEvaluated
  cases h with
  | ros hv hnew hev hmem hmax =>
      rw [hev]
      rcases List.mem_append.mp hmem with hmem | hmem
      · exact ⟨s'.best, List.mem_append_right _ hmem, rfl⟩
      · obtain ⟨x, hx, hfit⟩ := hin
        exact ⟨x, List.mem_append_left _ hx, hfit.trans (congrArg Rated.fitness (List.mem_singleton.mp hmem)).symm⟩
  | v2_3 hv hnew hev hlast =>
      rw [hev]
      exact ⟨s'.best, List.mem_append_right _ (List.mem_of_getLast? hlast), rfl⟩

theorem elitist_of_restarted_ros (hel : Elitist s) (hin : BestEvaluated s) {newcomers : List Rated}
    (hev : s'.evaluated = s.evaluated ++ newcomers) (hmem : s'.best ∈ newcomers ++ [s.best])
    (hmax : ∀ x ∈ newcomers ++ [s.best], x.fitness ≤ s'.best.fitness) :
    Elitist s' ↔ ∀ x ∈ newcomers, x.fitness = s.best.fitness := by
  constructor
  · intro hel' x hx
    obtain ⟨y, hy, hfit⟩ := hin
    -- the greatest of the new population is no more than any individual evaluated
    have hxb : x.fitness = s'.best.fitness :=
      hel'.eq_of_mem (hev ▸ List.mem_append_right _ hx) (hmax x (List.mem_append_left _ hx))
    have hbb : s.best.fitness ≤ s'.best.fitness := hmax s.best (List.mem_append_right _ List.mem_cons_self)
    have hby : s'.best.fitness ≤ y.fitness := hel' y (hev ▸ List.mem_append_left _ hy)
    rw [hxb]
    exact le_antisymm (hfit ▸ hby) hbb
  · intro hnew x hx
    have hbest : s'.best.fitness = s.best.fitness := by
      rcases List.mem_append.mp hmem with hmem | hmem
      · exact hnew s'.best hmem
      · rw [List.mem_singleton.mp hmem]
    rw [hbest]
    rcases List.mem_append.mp (hev ▸ hx) with hx | hx
    · exact hel x hx
    · exact (hnew x hx).ge

theorem elitist_of_restarted_v2_3 (hel : Elitist s) (hin : BestEvaluated s) {population : List Rated}
    (hev : s'.evaluated = s.evaluated ++ population) :
    Elitist s' ↔ s'.best.fitness ≤ s.best.fitness ∧ ∀ x ∈ population, s'.best.fitness ≤ x.fitness := by
  unfold Elitist
  rw [hev, List.forall_mem_append]
  refine and_congr_left fun _ => ⟨fun h => ?_, fun h x hx => h.trans (hel x hx)⟩
  obtain ⟨y, hy, hfit⟩ := hin
  exact hfit ▸ h y hy

/-! ### Runs -/

theorem bestEvaluated_step {t : Tick} (h : step p s t = some s') (hin : BestEvaluated s) : BestEvaluated s' := by
  cases moves_of_step h with
  | stop => exact hin
  | epoch => exact hin
  | restart hloc hconv hr =>
      obtain ⟨_, _, _, hres⟩ := restart_spec hr
      have hkept := bestEvaluated_of_restarted hin hres
      exact hkept
  | generation => exact hin
  | pass hloc hr =>
      obtain ⟨_, hev, hbest⟩ := crossPass_spec hr
      exact bestEvaluated_of_child hin hev hbest
  | finish => exact hin

theorem restartKeeps_of_loc {t : Tick} (h : s.loc ≠ .inner) : RestartKeeps p s t := fun hloc => absurd hloc h

/-- A step keeps `best` the best exactly when it meets the condition. -/
theorem elitist_step {t : Tick} (h : step p s t = some s') (hin : BestEvaluated s) (hel : Elitist s) :
    Elitist s' ↔ RestartKeeps p s t := by
  cases moves_of_step h with
  | stop hloc hstop => exact iff_of_true hel (restartKeeps_of_loc (by simp [hloc]))
  | epoch hloc hgo => exact iff_of_true hel (restartKeeps_of_loc (by simp [hloc]))
  | restart hloc hconv hr =>
      obtain ⟨subjects, ω₁, hdraw, hres⟩ := restart_spec hr
      have hkeep : RestartKeeps p s t ↔ _ :=
        ⟨fun hk => hk hloc hconv subjects ω₁ hdraw, fun hk _ _ subjects' ω₁' hdraw' => by
          cases hdraw.symm.trans hdraw'
          exact hk⟩
      rw [hkeep]
      cases hres with
      | ros hv hnew hev hmem hmax =>
          simp only [hv, hnew, Option.some.injEq, forall_eq']
          exact elitist_of_restarted_ros hel hin hev hmem hmax
      | v2_3 hv hnew hev hlast =>
          simp only [hv, hnew, Option.some.injEq]
          rw [forall_comm]
          simp only [forall_eq', hlast, Option.some.injEq]
          exact elitist_of_restarted_v2_3 hel hin hev
  | generation hloc hgo =>
      exact iff_of_true hel fun _ hconv => absurd (hgo.symm.trans hconv) Bool.false_ne_true
  | pass hloc hr =>
      obtain ⟨child, hev, hbest⟩ := crossPass_spec hr
      exact iff_of_true (elitist_of_child hel hev hbest) (restartKeeps_of_loc (by simp [hloc]))
  | finish hloc => exact iff_of_true hel (restartKeeps_of_loc (by simp [hloc]))

/-- **Elitism.**  From the first population on, `best` has the least penalty of all individuals
evaluated exactly when the first population is level and no restart draws one that makes `best`
worse. -/
theorem elitist_iff {maxExecTime : Option ℝ} {now : ℝ} {ω ω' : Tape}
    (h : (start p maxExecTime now).run ω = some (s, ω')) (ticks : List Tick) :
    Always (step p) Elitist s ticks ↔ Level s.population ∧ Each (step p) (RestartKeeps p) s ticks := by
  have hrun : Elitist s → (Always (step p) Elitist s ticks ↔ Each (step p) (RestartKeeps p) s ticks) := fun hel =>
    always_iff_each (fun _ _ _ hs hin => bestEvaluated_step hs hin)
      (fun _ _ _ hs hin hel => elitist_step hs hin hel) (bestEvaluated_start h) hel ticks
  constructor
  · intro halways
    have hel := halways.head
    exact ⟨(elitist_start h).mp hel, (hrun hel).mp halways⟩
  · rintro ⟨hlevel, heach⟩
    exact (hrun ((elitist_start h).mpr hlevel)).mpr heach

/-! ### A planner of one and of two individuals -/

noncomputable section

def lowest : Draw := ⟨0, le_rfl, one_pos⟩

def middle : Draw := ⟨1 / 2, by norm_num, by norm_num⟩

/-- A planner of `n` individuals, for a destination 30 m ahead and no areas. -/
def openPlanner (n : ℕ) : Planner :=
  { Planner.default (Specie.default .ros) ⟨⟨10, 10⟩, ⟨40, 10⟩, [], []⟩ with populationSize := n }

/-- Both individuals get one gene without acceleration; the first goes straight on and the second one
turns as much as it can. -/
def twoTape : Tape :=
  Stream'.cons lowest (Stream'.cons middle (Stream'.cons middle
    (Stream'.cons lowest (Stream'.cons middle (Stream'.cons lowest (Stream'.const lowest))))))

/-- The individual of one gene without acceleration, and its route. -/
def turning (ref : ℕ) (e : ℝ) (dnaDecoded : List GeneDecoded) : Subject :=
  { ref, dna := [⟨0, e⟩], dnaDecoded, generation := some 0, id := ref, parents := [] }

end

theorem run_spawn_cons (n : ℕ) (w : Draw) (ω : Tape) :
    (spawn (openPlanner n).specie).run (Stream'.cons lowest (Stream'.cons middle (Stream'.cons w ω))) =
      some ([⟨0, -3 + 6 * w.1⟩], ω) := by
  unfold spawn
  rw [StateT.run_bind, run_randint_cons (by norm_num [openPlanner, Planner.default, Specie.default])]
  norm_num [openPlanner, Planner.default, Specie.default, buildGene, lowest, middle]

theorem run_genesis_one (ω : Tape) : (genesis (openPlanner 1) 0 0 0 1).run
    (Stream'.cons lowest (Stream'.cons middle (Stream'.cons middle ω))) = some ([turning 0 0 []], ω) := by
  unfold genesis
  simp only [List.range_succ, List.range_zero, List.nil_append, List.mapM_cons, List.mapM_nil, StateT.run_bind,
    StateT.run_pure, Option.bind_eq_bind, Option.pure_def, run_spawn_cons, Option.bind_some]
  norm_num [openPlanner, Planner.default, Specie.default, turning, middle]

theorem run_genesis_two : (genesis (openPlanner 2) 0 0 0 2).run twoTape =
    some ([turning 0 0 [], turning 1 (-3) []], Stream'.const lowest) := by
  unfold genesis twoTape
  simp only [List.range_succ, List.range_zero, List.nil_append, List.cons_append, List.mapM_cons, List.mapM_nil,
    StateT.run_bind, StateT.run_pure, Option.bind_eq_bind, Option.pure_def, run_spawn_cons, Option.bind_some]
  norm_num [openPlanner, Planner.default, Specie.default, turning, lowest, middle]

theorem decode_turning (n ref : ℕ) (e : ℝ) : decode (openPlanner n).specie (turning ref e []) =
    some (turning ref e [⟨10, 10, 0, 0⟩, ⟨10, 10, 0, e⟩]) := by
  simp [decode, decodeGene, decodeFrom, decodeStep, speedLoss, openPlanner, Planner.default, Specie.default,
    Specie.geneDecoded0, turning]

/-- Standing still 30 m from the destination costs 30000, a gene 10, and acceleration and turns their parts. -/
theorem rate_standing (n : ℕ) {s : Subject} (hroute : s.route = [⟨10, 10⟩, ⟨10, 10⟩]) :
    ∃ x, rate (openPlanner n) s = some x ∧ x.fitness = 30000 + 500 * fitnessConsumption s +
      100 * (1 / 3 * (s.dna.map (fun gene => |gene.e|)).sum) + 10 * s.dna.length := by
  have hd : fitnessDestination (openPlanner n) s = some 30 := by
    unfold fitnessDestination distance
    rw [hroute]
    norm_num [openPlanner, Planner.default, Specie.default]
  have hcur : fitnessCurves (openPlanner n).specie s = some (1 / 3 * (s.dna.map (fun gene => |gene.e|)).sum) := by
    norm_num [fitnessCurves, openPlanner, Planner.default, Specie.default]
  have hobs : fitnessObstaclesOf (openPlanner n) s = some 0 := by
    unfold fitnessObstaclesOf
    rw [hroute]
    rfl
  have hdist : fitnessDistance s = 0 := by
    unfold fitnessDistance
    rw [hroute]
    norm_num [pairwise, distance]
  unfold rate
  rw [hd, hobs, hcur, hdist]
  refine ⟨_, rfl, ?_⟩
  norm_num [openPlanner, Planner.default, Specie.default, fitnessT]
  ring

theorem rate_turning (n ref : ℕ) (e : ℝ) :
    ∃ x, rate (openPlanner n) (turning ref e [⟨10, 10, 0, 0⟩, ⟨10, 10, 0, e⟩]) = some x ∧
      x.fitness = 30010 + 100 * (1 / 3 * |e|) := by
  obtain ⟨x, hx, hfit⟩ := rate_standing n (s := turning ref e [⟨10, 10, 0, 0⟩, ⟨10, 10, 0, e⟩]) rfl
  refine ⟨x, hx, hfit.trans ?_⟩
  norm_num [fitnessConsumption, turning]
  ring

theorem start_two : ∃ s ω, (start (openPlanner 2) none 0).run twoTape = some (s, ω) ∧
    s.population.map (fun x => x.fitness) = [30010, 30110] := by
  obtain ⟨x, hx, hfx⟩ := rate_turning 2 0 0
  obtain ⟨y, hy, hfy⟩ := rate_turning 2 1 (-3)
  have hev : evaluate (openPlanner 2) [turning 0 0 [], turning 1 (-3) []] = some [x, y] := by
    unfold evaluate
    simp [decode_turning, hx, hy]
  obtain ⟨s, hs, hpop⟩ := exists_start run_genesis_two hev (by simp) none 0
  refine ⟨s, Stream'.const lowest, hs, ?_⟩
  norm_num [hpop, hfx, hfy]

theorem not_level_two {population : List Rated}
    (h : population.map (fun x => x.fitness) = [30010, 30110]) : ¬ Level population := by
  intro hlevel
  obtain ⟨x, hx, hfx⟩ := List.mem_map.mp (h ▸ List.mem_cons_self : (30010 : ℝ) ∈ population.map (fun x => x.fitness))
  obtain ⟨y, hy, hfy⟩ := List.mem_map.mp
    (h ▸ List.mem_cons_of_mem _ List.mem_cons_self : (30110 : ℝ) ∈ population.map (fun x => x.fitness))
  have heq := hlevel x hx y hy
  rw [hfx, hfy] at heq
  norm_num at heq

noncomputable section

/-- A planner of two individuals without children: it restarts after each generation. -/
def idlePlanner : Planner := { openPlanner 2 with taxaCross := 0 }

/-- Two individuals get one gene without acceleration, and go straight on. -/
def straightTape : Tape :=
  Stream'.cons lowest (Stream'.cons middle (Stream'.cons middle
    (Stream'.cons lowest (Stream'.cons middle (Stream'.cons middle (Stream'.const lowest))))))

end

/-- Individuals that go straight on all have the same penalty. -/
theorem evaluate_straight (subjects : List Subject) (h : ∀ x ∈ subjects, x.dna = [⟨0, 0⟩]) :
    ∃ population, evaluate idlePlanner subjects = some population ∧ population.length = subjects.length ∧
      ∀ y ∈ population, y.fitness = 30010 := by
  let straight : Subject → Subject := fun x => { x with dnaDecoded := [⟨10, 10, 0, 0⟩, ⟨10, 10, 0, 0⟩] }
  have hdecoded : subjects.mapM (decode idlePlanner.specie) = some (subjects.map straight) := by
    refine Lists.mapM_eq_some_map fun x hx => ?_
    simp [decode, decodeGene, decodeFrom, decodeStep, speedLoss, idlePlanner, openPlanner, Planner.default,
      Specie.default, Specie.geneDecoded0, h x hx, straight]
  have hrate : ∀ x ∈ subjects.map straight, ∃ y, rate idlePlanner x = some y ∧ y.fitness = 30010 := by
    intro x hx
    obtain ⟨x₀, hx₀, rfl⟩ := List.mem_map.mp hx
    obtain ⟨y, hy, hfit⟩ := rate_standing 2 (s := straight x₀) rfl
    refine ⟨y, hy, hfit.trans ?_⟩
    have hdna : (straight x₀).dna = [⟨0, 0⟩] := h x₀ hx₀
    norm_num [fitnessConsumption, hdna]
  obtain ⟨population, hpop⟩ := Lists.exists_mapM_iff.mpr fun x hx => (hrate x hx).imp fun _ hy => hy.1
  refine ⟨population, ?_, (Lists.length_of_mapM hpop).trans (List.length_map _), fun y hy => ?_⟩
  · unfold evaluate
    rw [hdecoded]
    exact hpop
  · obtain ⟨x, hx, hxy⟩ := Lists.mem_of_mapM hpop y hy
    obtain ⟨y', hy', hfit⟩ := hrate x hx
    cases hxy.symm.trans hy'
    exact hfit

/-- Each restart draws one individual that goes straight on. -/
theorem run_drawNewcomers_idle (s : State) : ∃ x ω, (drawNewcomers idlePlanner s).run straightTape = some ([x], ω) ∧
    x.dna = [⟨0, 0⟩] := by
  have he : -3 + 6 * (middle : ℝ) = 0 := by norm_num [middle]
  have hspawn := run_spawn_cons 2 middle
    (Stream'.cons lowest (Stream'.cons middle (Stream'.cons middle (Stream'.const lowest))))
  rw [he] at hspawn
  exact ⟨_, _, run_bind_eq_some.mpr ⟨_, _, run_bind_eq_some.mpr ⟨_, _, hspawn, rfl⟩, rfl⟩, rfl⟩

theorem restartKeeps_idle {s : State} (hbest : s.best.fitness = 30010) (now : ℝ) :
    RestartKeeps idlePlanner s ⟨now, straightTape⟩ := by
  intro _ _ subjects ω hdraw newcomers hnew x hx
  obtain ⟨y, _, hrun, hdna⟩ := run_drawNewcomers_idle s
  cases hdraw.symm.trans hrun
  obtain ⟨population, hev, _, hfit⟩ := evaluate_straight [y] (by simp [hdna])
  cases hnew.symm.trans hev
  exact (hfit x hx).trans hbest.symm

theorem run_genesis_idle : ∃ x y, (genesis idlePlanner 0 0 0 2).run straightTape = some ([x, y], Stream'.const lowest) ∧
    x.dna = [⟨0, 0⟩] ∧ y.dna = [⟨0, 0⟩] := by
  have he : -3 + 6 * (middle : ℝ) = 0 := by norm_num [middle]
  have hspawn := fun ω => run_spawn_cons 2 middle ω
  simp only [he] at hspawn
  exact ⟨_, _, run_bind_eq_some.mpr ⟨_, _, run_bind_eq_some.mpr ⟨_, _, hspawn _, rfl⟩,
    run_bind_eq_some.mpr ⟨_, _, run_bind_eq_some.mpr ⟨_, _, hspawn _, rfl⟩, rfl⟩⟩, rfl, rfl⟩

/-- Two individuals of the same penalty, and a restart with a third one. -/
theorem elitist_idle : ∃ s ω, (start idlePlanner none 0).run straightTape = some (s, ω) ∧
    (∃ s', run (step idlePlanner) s (List.replicate 4 ⟨0, straightTape⟩) = some s' ∧ s'.evaluated.length = 3) ∧
    Always (step idlePlanner) Elitist s (List.replicate 4 ⟨0, straightTape⟩) := by
  let t : Tick := ⟨0, straightTape⟩
  obtain ⟨x, y, hgen, hx, hy⟩ := run_genesis_idle
  obtain ⟨population, hev, hlen, hfit⟩ := evaluate_straight [x, y] (by simp [hx, hy])
  obtain ⟨best, hbest⟩ := exists_selectBest (by rintro rfl; simp at hlen : population ≠ [])
  let s := firstState idlePlanner none 0 population best
  have hs : (start idlePlanner none 0).run straightTape = some (s, Stream'.const lowest) :=
    start_eq_some.mpr ⟨[x, y], population, best, hgen, hev, hbest, rfl⟩
  have hkeeps : ∀ r : State, r.best = s.best → RestartKeeps idlePlanner r t := by
    intro r hr
    have hfbest : s.best.fitness = 30010 := hfit best (selectBest_spec hbest).1
    exact restartKeeps_idle (hr ▸ hfbest) 0
  -- the two tests, the end of a generation without passes, and the restart
  have h₁ : step idlePlanner s t = some { s with flagNewborn := 2, loc := .inner } :=
    step_of_moves (.epoch rfl (by
      norm_num [stopCriteria, s, firstState, execTime, t, idlePlanner, openPlanner, Planner.default, Specie.default]))
  have h₂ : step idlePlanner { s with flagNewborn := 2, loc := .inner } t =
      some { s with flagNewborn := 0, generation := s.generation + 1, loc := .crossing 0 } := by
    have hgeneration := Moves.generation (p := idlePlanner) (s := { s with flagNewborn := 2, loc := .inner }) (t := t) rfl rfl
    rw [show idlePlanner.taxaCross = 0 from rfl, zero_mul, Int.ceil_zero] at hgeneration
    exact step_of_moves hgeneration
  let s₃ : State := { s with flagNewborn := 0, generation := s.generation + 1, loc := .inner }
  have h₃ : step idlePlanner { s with flagNewborn := 0, generation := s.generation + 1, loc := .crossing 0 } t = some s₃ :=
    step_of_moves (.finish rfl (fun h => by cases h))
  obtain ⟨z, ω₄, hdraw, hz⟩ := run_drawNewcomers_idle s₃
  obtain ⟨newcomers, hnew, hlen', _⟩ := evaluate_straight [z] (by simp [hz])
  obtain ⟨best', hsel⟩ := exists_selectBest (by simp : newcomers ++ [s₃.best] ≠ [])
  let s₄ : State := { restarted idlePlanner s₃ newcomers best' with loc := .outer }
  have h₄ : step idlePlanner s₃ t = some s₄ :=
    step_of_moves (.restart rfl rfl ((restart_ros rfl).mpr ⟨_, newcomers, best', hdraw, hnew, hsel, rfl⟩))
  refine ⟨s, _, hs, ⟨s₄, ?_, ?_⟩, (elitist_iff hs _).mpr ⟨fun x hx y hy => (hfit x hx).trans (hfit y hy).symm, ?_⟩⟩
  · exact (run_cons_some h₁ _).trans ((run_cons_some h₂ _).trans ((run_cons_some h₃ _).trans (run_cons_some h₄ [])))
  · have hcount : (population ++ newcomers).length = 3 := by rw [List.length_append, hlen, hlen']; rfl
    exact hcount
  · intro s₁ hs₁
    cases h₁.symm.trans hs₁
    refine ⟨hkeeps _ rfl, fun s₂ hs₂ => ?_⟩
    cases h₂.symm.trans hs₂
    refine ⟨hkeeps _ rfl, fun s₃ hs₃ => ?_⟩
    cases h₃.symm.trans hs₃
    exact ⟨hkeeps _ rfl, fun _ _ => ⟨hkeeps _ rfl, trivial⟩⟩

theorem elitist_fails : ¬ ∀ (p : Planner) (maxExecTime : Option ℝ) (now : ℝ) (ω ω' : Tape) (s : State)
    (ticks : List Tick), (start p maxExecTime now).run ω = some (s, ω') → Always (step p) Elitist s ticks := by
  intro hall
  obtain ⟨s, ω, hs, hfit⟩ := start_two
  exact not_level_two hfit ((elitist_start hs).mp (hall (openPlanner 2) none 0 twoTape ω s [] hs))

end DroneArch.Genetic
