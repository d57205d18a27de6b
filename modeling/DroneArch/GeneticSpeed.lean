import DroneArch.GeneticGenome

/-! # Speeds of the planned routes

`Subject` of the decision support stores `v_min` and `v_max` beside the limits of acceleration and turn.
Those are kept by every program that makes a gene; the speed is the running sum of the accelerations,
and nothing reads its limits.

* `speeds_iff`: all decoded individuals of all runs keep the speed limits exactly when the two extreme
  accelerations do, for `T_max` intervals. -/

namespace DroneArch.Genetic

open RandomChoices Runs

/-! ### The limits -/

/-- The speeds of the decoded individual are within the limits. -/
def WithinSpeeds (p : Specie) (x : Subject) : Prop := ∀ g ∈ x.dnaDecoded, p.vMin ≤ g.v ∧ g.v ≤ p.vMax

/-- The individuals of a state keep the limits, and so do all children of two of the population. -/
structure SpeedsKept (p : Planner) (s : State) : Prop where
  evaluated : ∀ x ∈ s.evaluated, WithinSpeeds p.specie x.toSubject
  population : ∀ x ∈ s.population, WithinSpeeds p.specie x.toSubject
  best : WithinSpeeds p.specie s.best.toSubject
  children : ∀ x ∈ s.population, ∀ y ∈ s.population, ∀ ref,
    Yields (crossover p.specie x.toSubject y.toSubject ref) (WithinSpeeds p.specie)

/-- The speed after the longest horizon with one acceleration. -/
noncomputable def Specie.reach (p : Specie) (a : ℝ) : ℝ := p.v0 + p.tMax.toNat * (a * p.deltaT)

/-- Neither extreme acceleration leads out of the limits. -/
def Specie.ReachFits (p : Specie) : Prop :=
  ∀ a, a = p.aMin ∨ a = p.aMax → p.vMin ≤ p.reach a ∧ p.reach a ≤ p.vMax

/-- A first population can be drawn and rated. -/
structure Planner.CanStart (p : Planner) : Prop where
  populated : p.populationSize ≠ 0
  t_le : p.specie.tMin ≤ p.specie.tMax
  eMax_ne : p.specie.eMax ≠ 0

/-! ### Decoded speeds -/

section specie
variable {p : Specie}

theorem decodeStep_v (hv : p.version = .ros) {s s' : GeneDecoded} {g : Gene} (h : decodeStep p s g = some s') :
    s'.v = s.v + g.a * p.deltaT := by
  unfold decodeStep speedLoss at h
  rw [hv] at h
  cases h
  exact sub_zero _

/-- The speeds of a genome whose gains are between `lo` and `hi`. -/
theorem speeds_of_decodeFrom (hv : p.version = .ros) {lo hi : ℝ} {dna : List Gene}
    (hgain : ∀ g ∈ dna, lo ≤ g.a * p.deltaT ∧ g.a * p.deltaT ≤ hi) {s : GeneDecoded}
    (hfit : ∀ k : ℕ, k ≤ dna.length → p.vMin ≤ s.v + k * lo ∧ s.v + k * hi ≤ p.vMax) {states : List GeneDecoded}
    (h : decodeFrom p s dna = some states) : ∀ g ∈ states, p.vMin ≤ g.v ∧ g.v ≤ p.vMax := by
  induction dna generalizing s states with
  | nil =>
      cases h
      have hstart := hfit 0 le_rfl
      simpa using hstart
  | cons g dna ih =>
      obtain ⟨s', hs', h⟩ := Option.bind_eq_some_iff.mp h
      obtain ⟨rest, hrest, h⟩ := Option.bind_eq_some_iff.mp h
      cases h
      rw [List.forall_mem_cons] at hgain ⊢
      have hstart := hfit 0 (Nat.zero_le _)
      refine ⟨by simpa using hstart, ih hgain.2 (fun k hk => ?_) hrest⟩
      obtain ⟨hlow, hhigh⟩ := hfit (k + 1) (Nat.succ_le_succ hk)
      rw [decodeStep_v hv hs']
      push_cast at hlow hhigh
      constructor <;> linarith [hgain.1.1, hgain.1.2]

/-- Between the start and the end of a steady change. -/
theorem mem_partway {lo hi v c : ℝ} {k n : ℕ} (hk : k ≤ n) (h0 : lo ≤ v ∧ v ≤ hi)
    (hn : lo ≤ v + n * c ∧ v + n * c ≤ hi) : lo ≤ v + k * c ∧ v + k * c ≤ hi := by
  have hk0 : (0 : ℝ) ≤ k := Nat.cast_nonneg k
  have hkn : (k : ℝ) ≤ n := Nat.cast_le.mpr hk
  rcases le_total 0 c with hc | hc
  · have hup : 0 ≤ k * c := mul_nonneg hk0 hc
    have hle : k * c ≤ n * c := mul_le_mul_of_nonneg_right hkn hc
    constructor <;> linarith
  · have hdown : k * c ≤ 0 := mul_nonpos_of_nonneg_of_nonpos hk0 hc
    have hle : n * c ≤ k * c := mul_le_mul_of_nonpos_right hkn hc
    constructor <;> linarith

/-- Where the reach fits, every genome that the programs make keeps the limits. -/
theorem Born.withinSpeeds (hv : p.version = .ros) (h0 : p.vMin ≤ p.v0 ∧ p.v0 ≤ p.vMax) (hfit : p.ReachFits)
    {c : Subject} (hc : Born p c) : WithinSpeeds p c := by
  obtain ⟨x, hx, hdecode⟩ := hc
  obtain ⟨states, hstates, rfl⟩ := Option.map_eq_some_iff.mp hdecode
  have hgain : ∀ g ∈ x.dna, min (p.aMin * p.deltaT) (p.aMax * p.deltaT) ≤ g.a * p.deltaT ∧
      g.a * p.deltaT ≤ max (p.aMin * p.deltaT) (p.aMax * p.deltaT) := by
    intro g hg
    have hmem := Set.mem_image_of_mem (· * p.deltaT) (hx.between g hg).a
    rw [Set.image_mul_const_uIcc] at hmem
    exact hmem
  refine speeds_of_decodeFrom hv hgain (fun k hk => ?_) hstates
  have hkT : k ≤ p.tMax.toNat := by
    have := hx.le_tMax
    omega
  have hmin := mem_partway hkT h0 (hfit p.aMin (Or.inl rfl))
  have hmax := mem_partway hkT h0 (hfit p.aMax (Or.inr rfl))
  constructor
  · rcases min_choice (p.aMin * p.deltaT) (p.aMax * p.deltaT) with h | h <;> rw [h]
    · exact hmin.1
    · exact hmax.1
  · rcases max_choice (p.aMin * p.deltaT) (p.aMax * p.deltaT) with h | h <;> rw [h]
    · exact hmin.2
    · exact hmax.2

end specie

/-! ### Runs that keep the limits -/

section planner
variable {p : Planner}

theorem inherited_withinSpeeds (hv : p.specie.version = .ros)
    (h0 : p.specie.vMin ≤ p.specie.v0 ∧ p.specie.v0 ≤ p.specie.vMax) (hfit : p.specie.ReachFits) :
    Inherited p (fun x => Drawn p.specie x.dna ∧ WithinSpeeds p.specie x) where
  spawned _ _ _ _ := (yields_genesis p _ _ _ _).mono fun _ h x hx => by
    obtain ⟨hdna, hnone⟩ := h x hx
    refine ⟨hdna, fun g hg => ?_⟩
    rw [hnone] at hg
    cases hg
  decoded h hd := by
    have hborn : Born p.specie _ := ⟨_, h.1, hd⟩
    exact ⟨hborn.drawn, hborn.withinSpeeds hv h0 hfit⟩
  crossed h1 h2 ref := (yields_crossover h1.1 h2.1 ref).mono fun _ hc => ⟨hc.drawn, hc.withinSpeeds hv h0 hfit⟩
  mutated h := (yields_mutation h.1).mono fun c hc => by
    rcases hc with hc | ⟨hdna, hsame⟩
    · exact ⟨hc.drawn, hc.withinSpeeds hv h0 hfit⟩
    · refine ⟨hdna, fun g hg => ?_⟩
      rw [hsame] at hg
      exact h.2 g hg
  registered h _ _ _ := h

theorem speedsKept_run (hv : p.specie.version = .ros)
    (h0 : p.specie.vMin ≤ p.specie.v0 ∧ p.specie.v0 ≤ p.specie.vMax) (hfit : p.specie.ReachFits)
    {maxExecTime : Option ℝ} {now : ℝ} {s : State} {ω ω' : Tape}
    (hs : (start p maxExecTime now).run ω = some (s, ω')) (ticks : List Tick) :
    Always (step p) (SpeedsKept p) s ticks := by
  refine (everyone_run (inherited_withinSpeeds hv h0 hfit) hs ticks).mono fun s he => ?_
  refine ⟨fun x hx => (he.evaluated x hx).2, fun x hx => (he.population x hx).2, he.best.2, fun x hx y hy ref => ?_⟩
  exact (yields_crossover (he.population x hx).1 (he.population y hy).1 ref).mono fun _ hc =>
    hc.withinSpeeds hv h0 hfit

/-! ### Runs that break them -/

theorem canStart_of_start {maxExecTime : Option ℝ} {now : ℝ} {s : State} {ω ω' : Tape}
    (hs : (start p maxExecTime now).run ω = some (s, ω')) : p.CanStart := by
  obtain ⟨subjects, population, best, hgen, hev, hbest, -⟩ := start_eq_some.mp hs
  obtain ⟨x, hx, d, -, hrate⟩ := exists_of_mem_evaluate hev (selectBest_spec hbest).1
  have hyields : Yields (genesis p 0 0 0 p.populationSize)
      (fun subjects => ∀ x ∈ subjects, p.specie.tMin ≤ p.specie.tMax) := by
    refine (yields_mapM_forall (Q := fun _ => p.specie.tMin ≤ p.specie.tMax) fun i _ => ?_).mono fun _ h => h.2
    refine ((yields_randint _ _).bind fun T hT => ?_ : Yields (spawn p.specie) fun _ => _).bind fun _ h => yields_pure h
    exact fun _ _ _ _ => hT.1.trans hT.2
  refine ⟨?_, hyields _ _ _ hgen x hx, fun hzero => ?_⟩
  · rw [← length_of_genesis hgen]
    exact (List.length_pos_of_mem hx).ne'
  · obtain ⟨fitD, -, hrate⟩ := Option.bind_eq_some_iff.mp hrate
    obtain ⟨fitObs, -, hrate⟩ := Option.bind_eq_some_iff.mp hrate
    obtain ⟨fitCur, hcur, -⟩ := Option.bind_eq_some_iff.mp hrate
    rw [fitnessCurves, if_pos hzero] at hcur
    cases hcur

theorem exists_decodeFrom {p : Specie} (hv : p.version = .ros) (s : GeneDecoded) (dna : List Gene) :
    ∃ states, decodeFrom p s dna = some states ∧
      ∃ g ∈ states, g.v = s.v + (dna.map (fun g => g.a)).sum * p.deltaT := by
  induction dna generalizing s with
  | nil => exact ⟨[s], rfl, s, List.mem_cons_self, by simp⟩
  | cons g dna ih =>
      obtain ⟨s', hs'⟩ : ∃ s', decodeStep p s g = some s' := by
        unfold decodeStep speedLoss
        rw [hv]
        exact ⟨_, rfl⟩
      obtain ⟨rest, hrest, g', hg', hspeed⟩ := ih s'
      refine ⟨s :: rest, ?_, g', List.mem_cons_of_mem _ hg', ?_⟩
      · unfold decodeFrom
        rw [hs', Option.bind_eq_bind, Option.bind_some, hrest]
        rfl
      · rw [hspeed, decodeStep_v hv hs', List.map_cons, List.sum_cons]
        ring

/-- The last speed is the start speed and the sum of the gains. -/
theorem exists_decode {p : Specie} (hv : p.version = .ros) (x : Subject) : ∃ d, decode p x = some d ∧
    ∃ g ∈ d.dnaDecoded, g.v = p.v0 + (x.dna.map (fun g => g.a)).sum * p.deltaT := by
  obtain ⟨states, hstates, hlast⟩ := exists_decodeFrom hv p.geneDecoded0 x.dna
  exact ⟨_, Option.map_eq_some_iff.mpr ⟨states, hstates, rfl⟩, hlast⟩

theorem exists_rate (hv : p.specie.version = .ros) (he : p.specie.eMax ≠ 0) {d : Subject} (hd : d.dnaDecoded ≠ []) :
    ∃ y, rate p d = some y := by
  obtain ⟨A, hA⟩ : ∃ A, d.route.getLast? = some A := by
    rw [← Option.isSome_iff_exists, List.getLast?_isSome]
    exact mt List.map_eq_nil_iff.mp hd
  unfold rate fitnessDestination fitnessObstaclesOf fitnessCurves
  rw [hA, hv, if_neg he]
  exact ⟨_, rfl⟩

/-- In the first file every population can be decoded and rated. -/
theorem exists_evaluate (hv : p.specie.version = .ros) (he : p.specie.eMax ≠ 0) (subjects : List Subject) :
    ∃ population, evaluate p subjects = some population := by
  obtain ⟨decoded, hdecoded⟩ : ∃ decoded, subjects.mapM (decode p.specie) = some decoded :=
    Lists.exists_mapM_iff.mpr fun x _ => (exists_decode hv x).imp fun _ h => h.1
  obtain ⟨population, hrated⟩ : ∃ population, decoded.mapM (rate p) = some population := by
    refine Lists.exists_mapM_iff.mpr fun d hd => ?_
    obtain ⟨x, hx, hxd⟩ := Lists.mem_of_mapM hdecoded d hd
    obtain ⟨d', hd', g, hg, -⟩ := exists_decode hv x
    cases hd'.symm.trans hxd
    exact exists_rate hv he (List.ne_nil_of_mem hg)
  refine ⟨population, ?_⟩
  unfold evaluate
  rw [hdecoded]
  exact hrated

/-- The longest horizon can be drawn, and one gene for all of it. -/
theorem canYield_spawn {p : Specie} (ht : p.tMin ≤ p.tMax) (u : Draw) : CanYield (spawn p)
    (List.replicate p.tMax.toNat ⟨p.aMin + (p.aMax - p.aMin) * u, p.eMin + (p.eMax - p.eMin) * u⟩) := by
  refine (canYield_randint ht le_rfl).bind ?_
  have hgenes : CanYield ((List.range p.tMax.toNat).mapM (fun _ => buildGene p)) _ :=
    canYield_mapM (f := fun _ => (⟨p.aMin + (p.aMax - p.aMin) * u, p.eMin + (p.eMax - p.eMin) * u⟩ : Gene))
      fun _ _ => (canYield_uniform _ _ u).bind ((canYield_uniform _ _ u).bind (canYield_pure _))
  rwa [List.map_const', List.length_range] at hgenes

theorem exists_canYield_genesis {dna : List Gene} (h : CanYield (spawn p.specie) dna) (n : ℕ) : ∃ subjects,
    CanYield (genesis p 0 0 0 n) subjects ∧ ∀ x ∈ subjects, x.dna = dna := by
  refine ⟨_, canYield_mapM fun i _ => h.bind (canYield_pure _), ?_⟩
  rw [List.forall_mem_map]
  intro i _
  cases p.specie.version <;> rfl

/-- Where the reach does not fit, there is a draw for which it does not. -/
theorem exists_draw_beyond {p : Specie} (h : ¬ p.ReachFits) :
    ∃ u : Draw, ¬ (p.vMin ≤ p.reach (p.aMin + (p.aMax - p.aMin) * u) ∧
      p.reach (p.aMin + (p.aMax - p.aMin) * u) ≤ p.vMax) := by
  unfold Specie.ReachFits at h
  push Not at h
  obtain ⟨a, rfl | rfl, hout⟩ := h
  · refine ⟨lowest, fun hin => ?_⟩
    rw [show (lowest : ℝ) = 0 from rfl, mul_zero, add_zero] at hin
    exact (hout hin.1).not_ge hin.2
  · -- the greatest acceleration itself is never drawn, but the values below it are
    have hline : ∀ u : ℝ, p.reach (p.aMin + (p.aMax - p.aMin) * u) =
        p.reach p.aMin + p.tMax.toNat * ((p.aMax - p.aMin) * p.deltaT) * u := by
      intro u
      unfold Specie.reach
      ring
    have hend : p.reach p.aMax = p.reach p.aMin + p.tMax.toNat * ((p.aMax - p.aMin) * p.deltaT) := by
      rw [← mul_one (p.tMax.toNat * ((p.aMax - p.aMin) * p.deltaT)), ← hline]
      congr 1
      ring
    rcases lt_or_ge (p.reach p.aMax) p.vMin with hlow | hlow
    · rw [hend, ← neg_lt_neg_iff, neg_add] at hlow
      obtain ⟨u, hu⟩ := exists_draw_lt hlow
      refine ⟨u, fun hin => ?_⟩
      rw [hline] at hin
      linarith [hin.1]
    · have hhigh := hout hlow
      rw [hend] at hhigh
      obtain ⟨u, hu⟩ := exists_draw_lt hhigh
      refine ⟨u, fun hin => ?_⟩
      rw [hline] at hin
      exact hin.2.not_gt hu

/-- Then a run starts with a population that breaks the limits. -/
theorem exists_start_beyond (hv : p.specie.version = .ros) (hstart : p.CanStart) (hfit : ¬ p.specie.ReachFits)
    (maxExecTime : Option ℝ) (now : ℝ) : ∃ ω s ω', (start p maxExecTime now).run ω = some (s, ω') ∧
      ∀ x ∈ s.population, ¬ WithinSpeeds p.specie x.toSubject := by
  obtain ⟨u, hu⟩ := exists_draw_beyond hfit
  obtain ⟨subjects, ⟨us, hus⟩, hdna⟩ := exists_canYield_genesis (canYield_spawn hstart.t_le u) p.populationSize
  have hgen := hus (Stream'.const lowest)
  obtain ⟨population, hev⟩ := exists_evaluate hv hstart.eMax_ne subjects
  have hne : population ≠ [] := by
    rw [← List.length_pos_iff, length_of_evaluate hev, length_of_genesis hgen]
    exact Nat.pos_of_ne_zero hstart.populated
  obtain ⟨s, hs, hpop⟩ := exists_start hgen hev hne maxExecTime now
  refine ⟨_, s, _, hs, fun y hy hwithin => ?_⟩
  rw [hpop] at hy
  obtain ⟨x, hx, d, hd, hrate⟩ := exists_of_mem_evaluate hev hy
  obtain ⟨d', hd', g, hg, hspeed⟩ := exists_decode hv x
  cases hd'.symm.trans hd
  have hreach : g.v = p.specie.reach (p.specie.aMin + (p.specie.aMax - p.specie.aMin) * u) := by
    rw [hspeed, hdna x hx, List.map_replicate, List.sum_replicate, nsmul_eq_mul, mul_assoc]
    rfl
  rw [rate_toSubject hrate] at hwithin
  exact hu (hreach ▸ hwithin g hg)

/-- **Speed limits.**  In all runs from a start speed within the limits, all decoded individuals keep them, exactly
when the extreme accelerations do for the longest horizon. -/
theorem speeds_iff (hv : p.specie.version = .ros)
    (h0 : p.specie.vMin ≤ p.specie.v0 ∧ p.specie.v0 ≤ p.specie.vMax) :
    (∀ maxExecTime now ω s ω', (start p maxExecTime now).run ω = some (s, ω') →
      ∀ ticks, Always (step p) (SpeedsKept p) s ticks) ↔ (p.CanStart → p.specie.ReachFits) := by
  constructor
  · intro hall hstart
    by_contra hfit
    obtain ⟨ω, s, ω', hs, hbeyond⟩ := exists_start_beyond hv hstart hfit none 0
    obtain ⟨-, hbest, -⟩ := start_spec hs
    exact hbeyond s.best hbest (hall none 0 ω s ω' hs []).best
  · intro hfit maxExecTime now ω s ω' hs ticks
    exact speedsKept_run hv h0 (hfit (canStart_of_start hs)) hs ticks

end planner

/-! ### The default limits -/

noncomputable section

/-- The default planner, for a vehicle at 20 m/s and horizons up to `tMax`. -/
def cruisingPlanner (tMax : ℕ) : Planner :=
  Planner.default { Specie.default .ros with v0 := 20, tMax := tMax } ⟨⟨10, 10⟩, ⟨40, 10⟩, [], []⟩

end

theorem cruising_mem (tMax : ℕ) : (cruisingPlanner tMax).specie.vMin ≤ (cruisingPlanner tMax).specie.v0 ∧
    (cruisingPlanner tMax).specie.v0 ≤ (cruisingPlanner tMax).specie.vMax := by
  norm_num [cruisingPlanner, Planner.default, Specie.default]

theorem reach_cruising (tMax : ℕ) (a : ℝ) : (cruisingPlanner tMax).specie.reach a = 20 + tMax * a := by
  simp [cruisingPlanner, Planner.default, Specie.default, Specie.reach]

/-- Four intervals with 2 m/s² more or less stay between 11.1 and 30.5 m/s. -/
theorem speeds_iff_short : (cruisingPlanner 4).specie.ReachFits ∧
    ∀ maxExecTime now ω s ω', (start (cruisingPlanner 4) maxExecTime now).run ω = some (s, ω') →
      ∀ ticks, Always (step (cruisingPlanner 4)) (SpeedsKept (cruisingPlanner 4)) s ticks := by
  have hfit : (cruisingPlanner 4).specie.ReachFits := by
    intro a ha
    rw [reach_cruising]
    rcases ha with rfl | rfl <;> norm_num [cruisingPlanner, Planner.default, Specie.default]
  exact ⟨hfit, (speeds_iff rfl (cruising_mem 4)).mpr fun _ => hfit⟩

/-- The 25 intervals of the default horizon do not: a route that is too fast may be returned. -/
theorem speeds_fail : ∃ ω s ω' t s', (start (cruisingPlanner 25) none 0).run ω = some (s, ω') ∧
    step (cruisingPlanner 25) s t = some s' ∧ s'.loc = .returned ∧
    ¬ WithinSpeeds (cruisingPlanner 25).specie s'.best.toSubject := by
  have hstart : (cruisingPlanner 25).CanStart := by
    constructor <;> norm_num [cruisingPlanner, Planner.default, Specie.default]
  have hbeyond : ¬ (cruisingPlanner 25).specie.ReachFits := by
    intro hfit
    have hfast := (hfit _ (Or.inr rfl)).2
    rw [reach_cruising] at hfast
    norm_num [cruisingPlanner, Planner.default, Specie.default] at hfast
  obtain ⟨ω, s, ω', hs, hall⟩ := exists_start_beyond rfl hstart hbeyond none 0
  obtain ⟨-, hbest, -⟩ := start_spec hs
  obtain ⟨_, population, best, -, -, -, rfl⟩ := start_eq_some.mp hs
  refine ⟨ω, _, ω', ⟨1, Stream'.const lowest⟩, _, hs, step_of_moves (.stop rfl ?_), rfl, hall _ hbest⟩
  norm_num [stopCriteria, firstState, execTime, cruisingPlanner, Planner.default, Specie.default]

end DroneArch.Genetic
