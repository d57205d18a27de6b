import DroneArch.GeneticGenome
import DroneArch.GenomeLists

/-! # Cached routes and penalties of the genetic planner

`genetic.py` keeps the penalties in a list beside the population, and the decoded route and the
penalty on each individual.  The only operation that leaves a route behind is the removal of the last
gene of a child: the genome is emptied in place, the empty result counts as no result, and the route
is not decoded again.

* `coherent_run`: in every run in which no such removal is drawn, all that is cached is what would be
  computed now.  With `1 ≤ T_min` none can be drawn (`keepsLastGene_of_one_le`). -/

namespace DroneArch.Genetic

open Real RandomChoices Runs

variable {p : Planner} {s s' : State}

/-- Route and penalty are what `decode` and `_fitness` compute from the genome. -/
def Fresh (p : Planner) (x : Rated) : Prop := (decode p.specie x.toSubject).bind (rate p) = some x

/-- The lists fit each other, and all that is cached is fresh. -/
structure Coherent (p : Planner) (s : State) : Prop where
  population_length : s.population.length = p.populationSize
  fitnesses_length : s.fitnesses.length = p.populationSize
  fitnesses : s.fitnesses = s.population.map (fun x => x.fitness)
  fresh : ∀ x ∈ s.population, Fresh p x

/-! ### Fresh individuals -/

/-- The genome is the one that the route was decoded from. -/
def Decoded (p : Specie) (c : Subject) : Prop := decodeGene p c.dna = some c.dnaDecoded

theorem decoded_of_decode {p : Specie} {c c' : Subject} (h : decode p c = some c') : Decoded p c' := by
  obtain ⟨d, hd, rfl⟩ := InPlace.decode_eq_some.mp h
  exact hd

theorem Decoded.decode {p : Specie} {c : Subject} (h : Decoded p c) : decode p c = some c :=
  InPlace.decode_eq_some.mpr ⟨c.dnaDecoded, h, rfl⟩

theorem fresh_of_rate {c : Subject} {x : Rated} (hc : Decoded p.specie c) (h : rate p c = some x) : Fresh p x := by
  have hx := rate_toSubject h
  unfold Fresh
  rw [hx, hc.decode]
  exact h

theorem Fresh.decoded {x : Rated} (h : Fresh p x) : Decoded p.specie x.toSubject := by
  obtain ⟨d, hd, hrate⟩ := Option.bind_eq_some_iff.mp h
  rw [rate_toSubject hrate]
  exact decoded_of_decode hd

theorem Fresh.rate {x : Rated} (h : Fresh p x) : rate p x.toSubject = some x := by
  have h' := h
  unfold Fresh at h'
  rwa [h.decoded.decode] at h'

theorem fresh_of_evaluate {subjects : List Subject} {population : List Rated}
    (h : evaluate p subjects = some population) : ∀ x ∈ population, Fresh p x := by
  intro x hx
  obtain ⟨_, _, d, hd, hrate⟩ := exists_of_mem_evaluate h hx
  exact fresh_of_rate (decoded_of_decode hd) hrate

/-- The penalty does not depend on the names that a registration writes. -/
theorem rate_register (c : Subject) (generation : Option ℕ) (id : ℤ) (parents : List ℤ) :
    rate p { c with generation, id, parents } = (rate p c).map (fun x => { x with generation, id, parents }) := by
  have hdest : fitnessDestination p { c with generation, id, parents } = fitnessDestination p c := rfl
  have hobstacles : fitnessObstaclesOf p { c with generation, id, parents } = fitnessObstaclesOf p c := rfl
  have hcurves : fitnessCurves p.specie { c with generation, id, parents } = fitnessCurves p.specie c := rfl
  unfold rate
  rw [hdest, hobstacles, hcurves]
  cases fitnessDestination p c with
  | none => rfl
  | some d =>
      cases fitnessObstaclesOf p c with
      | none => rfl
      | some n =>
          cases fitnessCurves p.specie c with
          | none => rfl
          | some e => rfl

theorem Fresh.registered {x : Rated} (h : Fresh p x) (s : State) (parent other : Rated) :
    Fresh p (registered p s x parent other) := by
  unfold Genetic.registered
  cases p.specie.version with
  | ros =>
      have hrate := rate_register (p := p) x.toSubject (some s.generation) s.currentId (x.parents ++ [parent.id, other.id])
      rw [h.rate] at hrate
      have hdecoded : Decoded p.specie { x.toSubject with
          generation := some s.generation, id := s.currentId, parents := x.parents ++ [parent.id, other.id] } := h.decoded
      exact fresh_of_rate hdecoded hrate
  | v2_3 => exact h

theorem registered_fitness (p : Planner) (s : State) (child parent other : Rated) :
    (registered p s child parent other).fitness = child.fitness := by
  unfold registered
  cases p.specie.version <;> rfl

/-! ### The removal of the last gene -/

/-- The mutation removes the only gene: the draws for a mutation and for the first of the four. -/
def RemovesLast (p : Specie) (c : Subject) (ω : Tape) : Prop :=
  c.dna.length = 1 ∧ p.tMin < 1 ∧ (ω.head : ℝ) < p.mutationProb ∧ (ω.tail.head : ℝ) < 1 / 4

/-- The genome stays as it is, or there is a new one with a gene. -/
def Renews (dna : List Gene) (r : List Gene × Option (List Gene)) : Prop := r.1 = dna ∨ ∃ g l, r.2 = some (g :: l)

section specie
variable {p : Specie}

theorem yields_mutationRemove_renews (dna : List Gene) :
    Yields (mutationRemove p dna) (fun r => Renews dna r ∨ dna.length = 1 ∧ p.tMin < 1) := by
  unfold mutationRemove
  split
  · next hlen =>
      refine (yields_randint _ _).bind fun i hi => yields_pure ?_
      cases hnew : dna.eraseIdx i.toNat with
      | nil =>
          refine .inr ?_
          rcases List.eraseIdx_eq_nil_iff.mp hnew with rfl | ⟨hone, _⟩
          · simp only [List.length_nil] at hi
            omega
          · exact ⟨hone, by omega⟩
      | cons g l => exact .inl (.inr ⟨g, l, rfl⟩)
  · exact yields_pure (.inl (.inl rfl))

theorem yields_mutationInsert_renews (dna : List Gene) : Yields (mutationInsert p dna) (Renews dna) := by
  unfold mutationInsert
  split
  · refine (yields_randint _ _).bind fun i hi => yields_bind fun gene => yields_pure (.inr ?_)
    have hne : dna.insertIdx i.toNat gene ≠ [] := by
      rw [← List.length_pos_iff, List.length_insertIdx_of_le_length (by omega)]
      omega
    obtain ⟨g, l, hgl⟩ := List.exists_cons_of_ne_nil hne
    exact ⟨g, l, by rw [hgl]⟩
  · exact yields_pure (.inl rfl)

theorem yields_mutationCreep_renews (dna : List Gene) : Yields (mutationCreep p dna) (Renews dna) :=
  yields_bind fun _ => yields_pure (.inl rfl)

theorem yields_mutationChange_renews (dna : List Gene) : Yields (mutationChange p dna) (Renews dna) :=
  yields_bind fun _ => yields_pure (.inl rfl)

/-- A genome that is renewed or stays is decoded. -/
theorem decoded_of_assign {c c' : Subject} (hc : Decoded p c) {out : List Gene × Option (List Gene)}
    (hout : Renews c.dna out) {ω ω' : Tape} (h : (assign p c out).run ω = some (c', ω')) : Decoded p c' := by
  unfold assign at h
  split at h
  · exact decoded_of_decode (run_attempt_eq_some.mp h).1
  · next hnone =>
      obtain ⟨rfl, rfl⟩ := run_pure_eq_some.mp h
      rcases hout with hdna | ⟨g, l, hnew⟩
      · dsimp only at hdna
        rw [hdna]
        exact hc
      · exact (hnone g l hnew).elim

theorem decoded_of_mutation {c c' : Subject} (hc : Decoded p c) {ω ω' : Tape} (hkeep : ¬ RemovesLast p c ω)
    (h : (mutation p c).run ω = some (c', ω')) : Decoded p c' := by
  obtain ⟨u, ω₁, hu, h⟩ := run_bind_eq_some.mp h
  cases hu
  split at h
  · next hlt =>
      obtain ⟨mutate, ω₂, hmutate, h⟩ := run_bind_eq_some.mp h
      obtain ⟨out, ω₃, hout, h⟩ := run_bind_eq_some.mp h
      have hrenews : Renews c.dna out := by
        obtain ⟨hget, rfl⟩ := run_choice_eq_some.mp hmutate
        -- the first of the four mutations is the removal
        cases hi : ⌊(ω.tail.head : ℝ) * ((4 : ℕ) : ℝ)⌋₊ with
        | zero =>
            have hfirst : (ω.tail.head : ℝ) < 1 / 4 := by
              have := Nat.floor_eq_zero.mp hi
              push_cast at this
              linarith
            have heq : mutationRemove p = mutate := by
              rw [List.length_cons, List.length_cons, List.length_cons, List.length_cons, List.length_nil, hi] at hget
              exact Option.some.inj hget
            subst heq
            rcases yields_mutationRemove_renews c.dna _ _ _ hout with hr | ⟨hone, hmin⟩
            · exact hr
            · exact absurd ⟨hone, hmin, hlt, hfirst⟩ hkeep
        | succ i =>
            rw [List.length_cons, List.length_cons, List.length_cons, List.length_cons, List.length_nil, hi,
              List.getElem?_cons_succ] at hget
            have hmem := List.mem_of_getElem? hget
            simp only [List.mem_cons, List.not_mem_nil, or_false] at hmem
            rcases hmem with rfl | rfl | rfl
            · exact yields_mutationInsert_renews _ _ _ _ hout
            · exact yields_mutationCreep_renews _ _ _ _ hout
            · exact yields_mutationChange_renews _ _ _ _ hout
      exact decoded_of_assign hc hrenews h
  · obtain ⟨rfl, rfl⟩ := run_pure_eq_some.mp h
    exact hc

theorem decoded_of_crossover {parent1 parent2 c : Subject} {ref : ℕ} {ω ω' : Tape}
    (h : (crossover p parent1 parent2 ref).run ω = some (c, ω')) : Decoded p c := by
  have hyields : Yields (crossover p parent1 parent2 ref) (Decoded p) := by
    refine yields_bind fun cross => yields_bind fun dna => yields_bind fun dna => ?_
    unfold generate
    cases p.version with
    | ros => exact yields_bind fun _ => yields_attempt fun _ h => decoded_of_decode h
    | v2_3 => exact yields_attempt fun _ h => decoded_of_decode h
  exact hyields _ _ _ h

end specie

/-! ### The run -/

/-- No pass removes the only gene of its child. -/
def KeepsLastGene (p : Planner) (s : State) (t : Tick) : Prop :=
  ∀ passes, s.loc = .crossing (passes + 1) → ∀ parents ω₁ c ω₂,
    (tournament s.population p.kTournament).run t.tape = some (parents, ω₁) →
    (crossover p.specie parents.1.toSubject parents.2.toSubject s.nextRef).run ω₁ = some (c, ω₂) →
    ¬ RemovesLast p.specie c ω₂

/-- With `1 ≤ T_min` no gene is removed from a genome of one. -/
theorem keepsLastGene_of_one_le (h : 1 ≤ p.specie.tMin) (s : State) (t : Tick) : KeepsLastGene p s t := by
  rintro _ _ _ _ _ _ _ _ ⟨_, hmin, _⟩
  omega

/-- What a run keeps. -/
structure Cached (p : Planner) (s : State) : Prop where
  coherent : Coherent p s
  best : Fresh p s.best
  pos : 0 < p.populationSize

/-- A population with its penalties. -/
theorem coherent_of_population {population : List Rated} (hpop : s.population = population)
    (hlen : population.length = p.populationSize) (hfit : s.fitnesses = population.map (fun x => x.fitness))
    (hfresh : ∀ x ∈ population, Fresh p x) : Coherent p s where
  population_length := hpop ▸ hlen
  fitnesses_length := by rw [hfit, List.length_map, hlen]
  fitnesses := hpop ▸ hfit
  fresh := hpop ▸ hfresh

/-- Only the population, its penalties and the best individual matter. -/
theorem Cached.congr (hc : Cached p s) (hpop : s'.population = s.population) (hfit : s'.fitnesses = s.fitnesses)
    (hbest : s'.best = s.best) : Cached p s' where
  coherent := coherent_of_population hpop hc.coherent.population_length (hfit.trans hc.coherent.fitnesses)
    hc.coherent.fresh
  best := hbest ▸ hc.best
  pos := hc.pos

theorem cached_start {maxExecTime : Option ℝ} {now : ℝ} {ω ω' : Tape}
    (h : (start p maxExecTime now).run ω = some (s, ω')) : Cached p s := by
  obtain ⟨subjects, population, best, hgen, hev, hbest, rfl⟩ := start_eq_some.mp h
  have hlen : population.length = p.populationSize := (length_of_evaluate hev).trans (length_of_genesis hgen)
  have hfresh := fresh_of_evaluate hev
  have hmem := (selectBest_spec hbest).1
  exact ⟨coherent_of_population rfl hlen rfl hfresh, hfresh best hmem, hlen ▸ List.length_pos_of_mem hmem⟩

theorem cached_restart (hv : p.specie.version = .ros) (hc : Cached p s) {ω ω' : Tape}
    (h : (restart p s).run ω = some (s', ω')) : Cached p s' := by
  obtain ⟨subjects, newcomers, best, hdraw, hnew, hbest, rfl⟩ := (restart_ros hv).mp h
  have hpos := hc.pos
  have hlen : (newcomers ++ [s.best]).length = p.populationSize := by
    rw [List.length_append, List.length_singleton, length_of_evaluate hnew, length_of_genesis hdraw]
    omega
  have hfresh : ∀ x ∈ newcomers ++ [s.best], Fresh p x := by
    rw [List.forall_mem_append, List.forall_mem_singleton]
    exact ⟨fresh_of_evaluate hnew, hc.best⟩
  exact ⟨coherent_of_population rfl hlen rfl hfresh, hfresh _ (selectBest_spec hbest).1, hpos⟩

theorem fresh_of_breed {t : Tick} {passes : ℕ} (hloc : s.loc = .crossing (passes + 1)) (hkeep : KeepsLastGene p s t)
    {parent1 parent2 child : Rated} {ω' : Tape} (h : (breed p s).run t.tape = some ((parent1, parent2, child), ω')) :
    Fresh p child := by
  obtain ⟨parents, ω₁, hpar, h⟩ := run_bind_eq_some.mp h
  obtain ⟨c, ω₂, hcross, h⟩ := run_bind_eq_some.mp h
  obtain ⟨c', ω₃, hmut, h⟩ := run_bind_eq_some.mp h
  obtain ⟨x, ω₄, hrate, h⟩ := run_bind_eq_some.mp h
  obtain ⟨heq, rfl⟩ := run_pure_eq_some.mp h
  cases heq
  have hdecoded := decoded_of_mutation (decoded_of_crossover hcross) (hkeep passes hloc _ _ _ _ hpar hcross) hmut
  exact fresh_of_rate hdecoded (run_attempt_eq_some.mp hrate).1

/-- The penalties follow the population when the child replaces a parent. -/
theorem coherent_replace (hc : Coherent p s) {child parent : Rated} {i : ℕ} (hchild : Fresh p child)
    (hi : s.population.findIdx? (fun x => x.ref = parent.ref) = some i)
    (hpop : s'.population = s.population.eraseP (fun x => x.ref = parent.ref) ++ [child])
    (hfit : s'.fitnesses = s.fitnesses.eraseIdx i ++ [child.fitness]) : Coherent p s' := by
  have hlt : i < s.population.length := by
    have := List.findIdx?_eq_some_iff_findIdx_eq.mp hi
    exact this.1
  have herase : s.population.eraseP (fun x => x.ref = parent.ref) = s.population.eraseIdx i := by
    rw [List.eraseP_eq_eraseIdx, hi]
  rw [herase] at hpop
  refine coherent_of_population hpop ?_ ?_ ?_
  · rw [List.length_append, List.length_singleton, List.length_eraseIdx_of_lt hlt, ← hc.population_length]
    omega
  · rw [hfit, hc.fitnesses, List.eraseIdx_map, List.map_append, List.map_singleton]
  · rw [List.forall_mem_append, List.forall_mem_singleton]
    exact ⟨fun x hx => hc.fresh x (List.mem_of_mem_eraseIdx hx), hchild⟩

theorem cached_of_inserted (hc : Cached p s) {child parent1 parent2 : Rated} (hchild : Fresh p child)
    (h : Inserted p s child parent1 parent2 s') : Cached p s' := by
  have hcrown : ∀ (t : State) (c : Rated), Cached p t → Fresh p c → Cached p (t.crown c) := by
    intro t c ht hfresh
    refine ⟨⟨ht.coherent.population_length, ht.coherent.fitnesses_length, ht.coherent.fitnesses, ht.coherent.fresh⟩, ?_,
      ht.pos⟩
    rcases t.crown_best c with heq | heq <;> rw [heq]
    · exact hfresh
    · exact ht.best
  cases h with
  | refused => exact hcrown _ _ hc hchild
  | @replaces parent other i hparent hlt hi =>
      have hreg := hchild.registered s parent other
      refine hcrown _ _ ⟨coherent_replace hc.coherent hreg hi rfl ?_, hc.best, hc.pos⟩ hreg
      rw [registered_fitness]

theorem cached_step (hv : p.specie.version = .ros) {t : Tick} (hs : step p s t = some s') (hc : Cached p s)
    (hkeep : KeepsLastGene p s t) : Cached p s' := by
  cases moves_of_step hs with
  | stop => exact hc.congr rfl rfl rfl
  | epoch => exact hc.congr rfl rfl rfl
  | restart hloc hconv hr =>
      have hkept := cached_restart hv hc hr
      exact hkept.congr rfl rfl rfl
  | generation => exact hc.congr rfl rfl rfl
  | pass hloc hr =>
      obtain ⟨parent1, parent2, child, hbreed, hins⟩ := crossPass_inserted hr
      have hrated : Cached p { s with nextRef := s.nextRef + 1, evaluated := s.evaluated ++ [child] } :=
        hc.congr rfl rfl rfl
      have hkept := cached_of_inserted hrated (fresh_of_breed hloc hkeep hbreed) hins
      exact hkept.congr rfl rfl rfl
  | finish => exact hc.congr rfl rfl rfl

/-- **Caches.**  In every run in which no pass removes the only gene of its child, the two lists fit
each other and every member's route and penalty are those of its genome; and in every pass, crossover
and mutation leave all genomes in memory as they are but the new one of the child. -/
theorem coherent_run (hv : p.specie.version = .ros) {maxExecTime : Option ℝ} {now : ℝ} {ω ω' : Tape}
    (hs : (start p maxExecTime now).run ω = some (s, ω')) (ticks : List Tick) :
    (Each (step p) (KeepsLastGene p) s ticks → Always (step p) (Coherent p) s ticks) ∧
      ∀ (h h' : Store) (parent1 parent2 child : Body) (ω ω' : Tape), parent1.dna < h.next → parent2.dna < h.next →
        (InPlace.offspring p.specie h parent1 parent2).run ω = some ((child, h'), ω') →
        h.next ≤ child.dna ∧ ∀ a < h.next, h'.list a = h.list a := by
  constructor
  · intro hkeep
    have hcached : Always (step p) (Cached p) s ticks :=
      always_of_each (fun _ _ _ hs hc hkeep => cached_step hv hs hc hkeep) (cached_start hs) hkeep
    exact hcached.mono fun _ hc => hc.coherent
  · intro h h' parent1 parent2 child ω ω' h1 h2 hrun
    let value : Body → Subject := fun b => ⟨0, h.list b.dna, b.dnaDecoded, none, -1, []⟩
    have holds : ∀ b : Body, b.dna < h.next → InPlace.Holds h b (value b) := fun b hb => ⟨hb, rfl, rfl⟩
    exact (InPlace.offspring_spec hv (holds parent1 h1) (holds parent2 h2) 0 hrun).2

/-- With the default `T_min` of 1. -/
theorem coherent_run_two : ∃ s ω, (start (openPlanner 2) none 0).run twoTape = some (s, ω) ∧ ∀ ticks,
    Always (step (openPlanner 2)) (Coherent (openPlanner 2)) s ticks := by
  obtain ⟨s, ω, hs, _⟩ := start_two
  have hmin : 1 ≤ (openPlanner 2).specie.tMin := (proper_openPlanner 2).one_le
  exact ⟨s, ω, hs, fun ticks => (coherent_run rfl hs ticks).1 (each_of_all (keepsLastGene_of_one_le hmin) s ticks)⟩

/-! ### Planners of one gene -/

noncomputable section

/-- A planner of `n` individuals of at most one gene, with tournaments of one battle. -/
def smallPlanner (n : ℕ) (tMin : ℤ) (mutationProb taxaCross : ℝ) : Planner :=
  { openPlanner n with
    specie := { (openPlanner n).specie with tMin, tMax := 1, mutationProb }
    taxaCross, kTournament := 1 }

/-- An individual that does not accelerate. -/
def still (ref : ℕ) (e : ℝ) (generation : Option ℕ) (id : ℤ) : Subject :=
  ⟨ref, [⟨0, e⟩], [⟨10, 10, 0, 0⟩, ⟨10, 10, 0, e⟩], generation, id, []⟩

/-- The draws of a pass: two parents, `_OX`, the gene, and no more but the lowest. -/
def passTape (u1 u2 u3 : Draw) : Tape :=
  Stream'.cons u1 (Stream'.cons u2 (Stream'.cons lowest (Stream'.cons u3 (Stream'.const lowest))))

end

section small
variable {n : ℕ} {tMin : ℤ} {mutationProb taxaCross : ℝ}

theorem rate_still (n : ℕ) (tMin : ℤ) (mutationProb taxaCross : ℝ) (ref : ℕ) (e : ℝ) (generation : Option ℕ) (id : ℤ) :
    ∃ x, rate (smallPlanner n tMin mutationProb taxaCross) (still ref e generation id) = some x ∧
      x.fitness = 30010 + 100 * (1 / 3 * |e|) := by
  obtain ⟨x, hx, hfit⟩ := rate_standing n (s := still ref e generation id) rfl
  refine ⟨x, hx, hfit.trans ?_⟩
  norm_num [fitnessConsumption, still]
  ring

theorem decodeGene_small (e : ℝ) : decodeGene (smallPlanner n tMin mutationProb taxaCross).specie [⟨0, e⟩] =
    some [⟨10, 10, 0, 0⟩, ⟨10, 10, 0, e⟩] := by
  simp [decodeGene, decodeFrom, decodeStep, speedLoss, smallPlanner, openPlanner, Planner.default, Specie.default,
    Specie.geneDecoded0]

theorem run_mapM_const {α β : Type} (l : List α) (f : α → Drawing β) (ω : Tape)
    (h : ∀ x ∈ l, ∃ y, (f x).run ω = some (y, ω)) : ∃ ys, (l.mapM f).run ω = some (ys, ω) := by
  induction l with
  | nil => exact ⟨[], rfl⟩
  | cons x l ih =>
      rw [List.forall_mem_cons] at h
      obtain ⟨y, hy⟩ := h.1
      obtain ⟨ys, hys⟩ := ih h.2
      rw [List.mapM_cons]
      exact ⟨y :: ys, run_bind_eq_some.mpr ⟨y, ω, hy,
        run_bind_eq_some.mpr ⟨ys, ω, hys, run_pure_eq_some.mpr ⟨rfl, rfl⟩⟩⟩⟩

/-- The genome that a new individual draws and that is dropped. -/
theorem run_spawn_lowest (n : ℕ) (mutationProb taxaCross : ℝ) (h : tMin ≤ 1) : ∃ dna,
    (spawn (smallPlanner n tMin mutationProb taxaCross).specie).run (Stream'.const lowest) = some (dna, Stream'.const lowest) := by
  have hrandint : ∃ T, (randint tMin 1).run (Stream'.const lowest) = some (T, Stream'.const lowest) := by
    have hrun := run_randint_cons h lowest (Stream'.const lowest)
    rw [← Stream'.const_eq] at hrun
    exact ⟨_, hrun⟩
  obtain ⟨T, hT⟩ := hrandint
  obtain ⟨dna, hdna⟩ := run_mapM_const (List.range T.toNat)
    (fun _ => buildGene (smallPlanner n tMin mutationProb taxaCross).specie) (Stream'.const lowest) fun _ _ => ⟨_, rfl⟩
  exact ⟨dna, run_bind_eq_some.mpr ⟨T, _, hT, hdna⟩⟩

theorem run_tournament_one {population : List Rated} {x y : Rated} {u1 u2 : Draw}
    (hx : population[⌊(u1 : ℝ) * population.length⌋₊]? = some x)
    (hy : population[⌊(u2 : ℝ) * population.length⌋₊]? = some y) (ω : Tape) :
    (tournament population 1).run (Stream'.cons u1 (Stream'.cons u2 ω)) = some ((x, y), ω) := by
  have hbattle : ∀ {z : Rated} {u : Draw} {ω : Tape}, population[⌊(u : ℝ) * population.length⌋₊]? = some z →
      (battle population 1).run (Stream'.cons u ω) = some (z, ω) := by
    intro z u ω hz
    exact run_bind_eq_some.mpr ⟨z, ω, run_choice_eq_some.mpr ⟨hz, rfl⟩, run_pure_eq_some.mpr ⟨rfl, rfl⟩⟩
  exact run_bind_eq_some.mpr ⟨x, _, hbattle hx, run_bind_eq_some.mpr ⟨y, ω, hbattle hy, run_pure_eq_some.mpr ⟨rfl, rfl⟩⟩⟩

/-- The child of two parents of one gene has one of the two genes. -/
theorem run_crossover_ox (n : ℕ) (mutationProb taxaCross : ℝ) (hmin : tMin ≤ 1) {parent1 parent2 : Subject} {e1 e2 e : ℝ}
    (h1 : parent1.dna = [⟨0, e1⟩]) (h2 : parent2.dna = [⟨0, e2⟩]) {u3 : Draw}
    (hg : ([⟨0, e1⟩, ⟨0, e2⟩] : List Gene)[⌊(u3 : ℝ) * 2⌋₊]? = some ⟨0, e⟩) (ref : ℕ) :
    (crossover (smallPlanner n tMin mutationProb taxaCross).specie parent1 parent2 ref).run
      (Stream'.cons lowest (Stream'.cons u3 (Stream'.const lowest))) =
      some (still ref e none (-1), Stream'.const lowest) := by
  have hcross : (choice [ox, blxAlpha (smallPlanner n tMin mutationProb taxaCross).specie]).run
      (Stream'.cons lowest (Stream'.cons u3 (Stream'.const lowest))) =
      some (ox, Stream'.cons u3 (Stream'.const lowest)) := by
    refine run_choice_eq_some.mpr ⟨?_, rfl⟩
    simp [lowest]
  have hgene : (choice [(⟨0, e1⟩ : Gene), ⟨0, e2⟩]).run (Stream'.cons u3 (Stream'.const lowest)) =
      some (⟨0, e⟩, Stream'.const lowest) := run_choice_eq_some.mpr ⟨hg, rfl⟩
  have hox : (ox parent1.dna parent2.dna).run (Stream'.cons u3 (Stream'.const lowest)) =
      some ([⟨0, e⟩], Stream'.const lowest) := by
    rw [h1, h2, ox, List.zip_cons_cons, List.zip_nil_left, List.mapM_cons, List.mapM_nil]
    exact run_bind_eq_some.mpr ⟨_, _, hgene, run_bind_eq_some.mpr ⟨[], _, rfl, run_pure_eq_some.mpr ⟨rfl, rfl⟩⟩⟩
  have hcomplete : (complete [⟨0, e⟩] parent1.dna parent2.dna).run (Stream'.const lowest) =
      some ([⟨0, e⟩], Stream'.const lowest) := by
    rw [h1, h2]
    rfl
  obtain ⟨own, hown⟩ := run_spawn_lowest n mutationProb taxaCross hmin
  have hdecode : decode (smallPlanner n tMin mutationProb taxaCross).specie ⟨ref, [⟨0, e⟩], [], none, -1, []⟩ =
      some (still ref e none (-1)) := InPlace.decode_eq_some.mpr ⟨_, decodeGene_small e, rfl⟩
  have hgenerate : (generate (smallPlanner n tMin mutationProb taxaCross).specie parent1 ref [⟨0, e⟩]).run
      (Stream'.const lowest) = some (still ref e none (-1), Stream'.const lowest) :=
    run_bind_eq_some.mpr ⟨own, _, hown, run_attempt_eq_some.mpr ⟨hdecode, rfl⟩⟩
  exact run_bind_eq_some.mpr ⟨ox, _, hcross, run_bind_eq_some.mpr ⟨_, _, hox, run_bind_eq_some.mpr
    ⟨_, _, hcomplete, hgenerate⟩⟩⟩

/-- The spawning of a new individual of one gene. -/
theorem run_spawn_small (n : ℕ) (mutationProb taxaCross : ℝ) (hmin : tMin ≤ 1) (u w : Draw)
    (hu : tMin + ⌊(u : ℝ) * (((1 : ℤ) : ℝ) - tMin + 1)⌋ = 1) (ω : Tape) :
    (spawn (smallPlanner n tMin mutationProb taxaCross).specie).run
      (Stream'.cons u (Stream'.cons middle (Stream'.cons w ω))) = some ([⟨0, -3 + 6 * w⟩], ω) := by
  refine run_bind_eq_some.mpr ⟨1, Stream'.cons middle (Stream'.cons w ω), ?_, ?_⟩
  · rw [← hu]
    exact run_randint_cons hmin u _
  · norm_num [smallPlanner, openPlanner, Planner.default, Specie.default, buildGene, middle]

/-- One new individual is decoded and rated. -/
theorem evaluate_small {subjects : List Subject} {ref : ℕ} {e : ℝ} {generation : Option ℕ} {id : ℤ}
    (h : subjects = [⟨ref, [⟨0, e⟩], [], generation, id, []⟩]) {x : Rated}
    (hx : rate (smallPlanner n tMin mutationProb taxaCross) (still ref e generation id) = some x) :
    evaluate (smallPlanner n tMin mutationProb taxaCross) subjects = some [x] := by
  have hdecode : decode (smallPlanner n tMin mutationProb taxaCross).specie ⟨ref, [⟨0, e⟩], [], generation, id, []⟩ =
      some (still ref e generation id) := InPlace.decode_eq_some.mpr ⟨_, decodeGene_small e, rfl⟩
  unfold evaluate
  simp [h, hdecode, hx]

/-- A pass without mutation. -/
theorem run_breed_small (n : ℕ) (taxaCross : ℝ) (t : State) {x y : Rated} (u1 u2 u3 : Draw) {e1 e2 : ℝ} (e : ℝ)
    (hx : t.population[⌊(u1 : ℝ) * t.population.length⌋₊]? = some x)
    (hy : t.population[⌊(u2 : ℝ) * t.population.length⌋₊]? = some y)
    (h1 : x.dna = [⟨0, e1⟩]) (h2 : y.dna = [⟨0, e2⟩])
    (hg : ([⟨0, e1⟩, ⟨0, e2⟩] : List Gene)[⌊(u3 : ℝ) * 2⌋₊]? = some ⟨0, e⟩) :
    ∃ child, (breed (smallPlanner n 1 0 taxaCross) t).run (passTape u1 u2 u3) =
      some ((x, y, child), Stream'.const lowest) ∧ child.toSubject = still t.nextRef e none (-1) ∧
      child.fitness = 30010 + 100 * (1 / 3 * |e|) := by
  obtain ⟨child, hrate, hfit⟩ := rate_still n 1 0 taxaCross t.nextRef e none (-1)
  have hmut : (mutation (smallPlanner n 1 0 taxaCross).specie (still t.nextRef e none (-1))).run (Stream'.const lowest) =
      some (still t.nextRef e none (-1), Stream'.const lowest) := by
    refine run_bind_eq_some.mpr ⟨0, _, rfl, ?_⟩
    rw [if_neg (by norm_num [smallPlanner])]
    exact run_pure_eq_some.mpr ⟨rfl, rfl⟩
  refine ⟨child, ?_, rate_toSubject hrate, hfit⟩
  exact run_bind_eq_some.mpr ⟨(x, y), _, run_tournament_one hx hy _, run_bind_eq_some.mpr
    ⟨_, _, run_crossover_ox n 0 taxaCross le_rfl h1 h2 hg t.nextRef, run_bind_eq_some.mpr ⟨_, _, hmut, run_bind_eq_some.mpr
      ⟨child, _, run_attempt_eq_some.mpr ⟨hrate, rfl⟩, run_pure_eq_some.mpr ⟨rfl, rfl⟩⟩⟩⟩⟩

/-- The start of a generation of one pass. -/
theorem step_generation_small (hpasses : ⌈taxaCross * n⌉.toNat = 1) {s : State} {t : Tick} (hloc : s.loc = .inner)
    (hgo : converge s = false) : step (smallPlanner n tMin mutationProb taxaCross) s t =
      some { s with flagNewborn := 0, generation := s.generation + 1, loc := .crossing 1 } := by
  have hgen := Moves.generation (p := smallPlanner n tMin mutationProb taxaCross) (t := t) hloc hgo
  rw [show (smallPlanner n tMin mutationProb taxaCross).taxaCross = taxaCross from rfl,
    show (smallPlanner n tMin mutationProb taxaCross).populationSize = n from rfl, hpasses] at hgen
  exact step_of_moves hgen

/-- A planner of two individuals, the first straight on and the second one turning. -/
theorem start_small_two (taxaCross : ℝ) : ∃ x y : Rated, x.toSubject = still 0 0 (some 0) 0 ∧ x.fitness = 30010 ∧
    y.toSubject = still 1 (-3) (some 0) 1 ∧ y.fitness = 30110 ∧
    (start (smallPlanner 2 1 0 taxaCross) none 0).run twoTape =
      some (firstState (smallPlanner 2 1 0 taxaCross) none 0 [x, y] y, Stream'.const lowest) := by
  obtain ⟨x, hx, hfx⟩ := rate_still 2 1 0 taxaCross 0 0 (some 0) 0
  obtain ⟨y, hy, hfy⟩ := rate_still 2 1 0 taxaCross 1 (-3) (some 0) 1
  norm_num at hfx hfy
  have hspawn : ∀ w ω, (spawn (smallPlanner 2 1 0 taxaCross).specie).run
      (Stream'.cons lowest (Stream'.cons middle (Stream'.cons w ω))) = some ([⟨0, -3 + 6 * (w : ℝ)⟩], ω) :=
    fun w ω => run_spawn_small 2 0 taxaCross le_rfl lowest w (by norm_num [lowest]) ω
  have hmiddle : -3 + 6 * (middle : ℝ) = 0 := by norm_num [middle]
  have hlowest : -3 + 6 * (lowest : ℝ) = -3 := by norm_num [lowest]
  have hfirst := hspawn middle (Stream'.cons lowest (Stream'.cons middle (Stream'.cons lowest (Stream'.const lowest))))
  have hsecond := hspawn lowest (Stream'.const lowest)
  rw [hmiddle] at hfirst
  rw [hlowest] at hsecond
  have hgen : (genesis (smallPlanner 2 1 0 taxaCross) 0 0 0 2).run twoTape =
      some ([⟨0, [⟨0, 0⟩], [], some 0, 0, []⟩, ⟨1, [⟨0, -3⟩], [], some 0, 1, []⟩], Stream'.const lowest) :=
    run_bind_eq_some.mpr ⟨_, _, run_bind_eq_some.mpr ⟨_, _, hfirst, rfl⟩,
      run_bind_eq_some.mpr ⟨_, _, run_bind_eq_some.mpr ⟨_, _, hsecond, rfl⟩, rfl⟩⟩
  have hdecode : ∀ (e : ℝ) (ref : ℕ) (id : ℤ), decode (smallPlanner 2 1 0 taxaCross).specie
      ⟨ref, [⟨0, e⟩], [], some 0, id, []⟩ = some (still ref e (some 0) id) :=
    fun e _ _ => InPlace.decode_eq_some.mpr ⟨_, decodeGene_small e, rfl⟩
  have hev : evaluate (smallPlanner 2 1 0 taxaCross)
      [⟨0, [⟨0, 0⟩], [], some 0, 0, []⟩, ⟨1, [⟨0, -3⟩], [], some 0, 1, []⟩] = some [x, y] := by
    unfold evaluate
    simp [hdecode, hx, hy]
  obtain ⟨best, hbest⟩ := exists_selectBest (by simp : [x, y] ≠ [])
  obtain ⟨hmem, hmax⟩ := selectBest_spec hbest
  have heq : best = y := by
    rcases List.mem_pair.mp hmem with rfl | rfl
    · have hle := hmax y (by simp)
      rw [hfx, hfy] at hle
      norm_num at hle
    · rfl
  subst heq
  exact ⟨x, best, rate_toSubject hx, hfx, rate_toSubject hy, hfy,
    start_eq_some.mpr ⟨_, [x, best], best, hgen, hev, hbest, rfl⟩⟩

/-- A pass whose child is the new best individual, but takes no place. -/
theorem run_refused_small {s : State} (hloc : s.loc = .crossing 1) {x y : Rated} (hpop : s.population = [x, y])
    (hx : x.dna = [⟨0, 0⟩]) (hfx : x.fitness = 30010) (hbest : 30010 < s.best.fitness) (now : ℝ) :
    ∃ c s', step (smallPlanner 2 1 0 (1 / 2)) s ⟨now, passTape lowest lowest lowest⟩ = some s' ∧
      c.toSubject = still s.nextRef 0 none (-1) ∧ c.fitness = 30010 ∧
      s' = { s with
        nextRef := s.nextRef + 1, evaluated := s.evaluated ++ [c], best := c, flagNewbest := some true
        loc := .crossing 0 } := by
  obtain ⟨c, hbreed, hc, hfc⟩ := run_breed_small 2 (1 / 2) s lowest lowest lowest 0 (by simp [hpop, lowest])
    (by simp [hpop, lowest]) hx hx (by simp [lowest])
  norm_num at hfc
  obtain ⟨r, hr, hins⟩ := exists_crossPass hbreed
  have hstep := step_of_moves (.pass hloc hr : Moves (smallPlanner 2 1 0 (1 / 2)) s
    ⟨now, passTape lowest lowest lowest⟩ { r with loc := .crossing 0 })
  refine ⟨c, _, hstep, hc, hfc, ?_⟩
  have hlt : c.fitness < s.best.fitness := by rwa [hfc]
  cases hins with
  | refused =>
      unfold State.crown
      simp only [hlt, decide_true, if_true]
  | @replaces parent other i hparent hlt' =>
      rcases hparent with ⟨rfl, _⟩ | ⟨rfl, _⟩ <;> rw [hfc, hfx] at hlt' <;> exact absurd hlt' (lt_irrefl _)

/-- A restart that draws an individual that turns. -/
theorem step_restart_small {s : State} (hloc : s.loc = .inner) (hflag : s.flagNewborn = 0)
    (hbest : s.best.fitness = 30010) (now : ℝ) :
    ∃ z, step (smallPlanner 2 1 0 (1 / 2)) s
        ⟨now, Stream'.cons lowest (Stream'.cons middle (Stream'.cons lowest (Stream'.const lowest)))⟩ =
          some { restarted (smallPlanner 2 1 0 (1 / 2)) s [z] z with loc := .outer } ∧
      z.toSubject = still s.nextRef (-3) (some s.generation) s.currentId ∧ z.fitness = 30110 := by
  obtain ⟨z, hz, hfz⟩ := rate_still 2 1 0 (1 / 2) s.nextRef (-3)
    (some s.generation) s.currentId
  norm_num at hfz
  have hspawn := run_spawn_small 2 0 (1 / 2) (le_refl 1) lowest lowest (by norm_num [lowest])
    (Stream'.const lowest)
  have he : -3 + 6 * (lowest : ℝ) = -3 := by norm_num [lowest]
  rw [he] at hspawn
  have hdraw : (drawNewcomers (smallPlanner 2 1 0 (1 / 2)) s).run
      (Stream'.cons lowest (Stream'.cons middle (Stream'.cons lowest (Stream'.const lowest)))) =
      some ([⟨s.nextRef, [⟨0, -3⟩], [], some s.generation, s.currentId, []⟩], Stream'.const lowest) := by
    refine run_bind_eq_some.mpr ⟨_, _, run_bind_eq_some.mpr ⟨_, _, hspawn, rfl⟩, ?_⟩
    refine run_pure_eq_some.mpr ⟨?_, rfl⟩
    simp [smallPlanner, openPlanner, Planner.default, Specie.default]
  obtain ⟨best, hsel⟩ := exists_selectBest (by simp : [z] ++ [s.best] ≠ [])
  obtain ⟨hmem, hmax⟩ := selectBest_spec hsel
  have heq : best = z := by
    rcases List.mem_pair.mp hmem with rfl | rfl
    · rfl
    · have hle := hmax z (by simp)
      rw [hfz, hbest] at hle
      norm_num at hle
  subst heq
  have hrun := (restart_ros (p := smallPlanner 2 1 0 (1 / 2)) rfl).mpr
    ⟨_, [best], best, hdraw, evaluate_small rfl hz, hsel, rfl⟩
  exact ⟨best, step_of_moves (.restart hloc (decide_eq_true hflag) hrun), rate_toSubject hz, hfz⟩

end small

/-! ### A child without genes -/

theorem rate_emptied (ref : ℕ) : ∃ x, rate (smallPlanner 1 0 1 1) { still ref 0 none (-1) with dna := [] } = some x ∧
    x.fitness = 30000 := by
  obtain ⟨x, hx, hfit⟩ := rate_standing 1 (s := { still ref 0 none (-1) with dna := [] }) rfl
  refine ⟨x, hx, hfit.trans ?_⟩
  norm_num [fitnessConsumption]

/-- The only gene of a child is removed, and the route stays. -/
theorem run_mutation_emptied (ref : ℕ) : (mutation (smallPlanner 1 0 1 1).specie (still ref 0 none (-1))).run
    (Stream'.const lowest) = some ({ still ref 0 none (-1) with dna := [] }, Stream'.const lowest) := by
  have hremove : (mutationRemove (smallPlanner 1 0 1 1).specie [⟨0, 0⟩]).run (Stream'.const lowest) =
      some (([], some []), Stream'.const lowest) := by
    have hrun := run_randint_cons (le_refl 0) lowest (Stream'.const lowest)
    rw [← Stream'.const_eq] at hrun
    unfold mutationRemove
    rw [if_pos (by norm_num [smallPlanner])]
    refine run_bind_eq_some.mpr ⟨0, _, ?_, rfl⟩
    simpa [lowest] using hrun
  have hmutate : (choice [mutationRemove (smallPlanner 1 0 1 1).specie, mutationInsert (smallPlanner 1 0 1 1).specie,
      mutationCreep (smallPlanner 1 0 1 1).specie, mutationChange (smallPlanner 1 0 1 1).specie]).run
        (Stream'.const lowest) = some (mutationRemove (smallPlanner 1 0 1 1).specie, Stream'.const lowest) := by
    refine run_choice_eq_some.mpr ⟨?_, rfl⟩
    simp [lowest]
  have hrandom : random.run (Stream'.const lowest) = some (0, Stream'.const lowest) := rfl
  exact mutation_of_assign hrandom (by norm_num [smallPlanner]) hmutate hremove rfl

/-- A child of the individual `x` that has lost its gene and has less penalty. -/
theorem run_breed_emptied {t : State} {x : Rated} (hpop : t.population = [x]) (hx : x.dna = [⟨0, 0⟩]) :
    ∃ child, (breed (smallPlanner 1 0 1 1) t).run (Stream'.const lowest) = some ((x, x, child), Stream'.const lowest) ∧
      child.toSubject = { still t.nextRef 0 none (-1) with dna := [] } ∧ child.fitness = 30000 := by
  obtain ⟨child, hrate, hfit⟩ := rate_emptied t.nextRef
  have hpar : (tournament t.population 1).run (Stream'.const lowest) = some ((x, x), Stream'.const lowest) := by
    have hfirst : t.population[⌊(lowest : ℝ) * t.population.length⌋₊]? = some x := by simp [hpop, lowest]
    have hrun := run_tournament_one hfirst hfirst (Stream'.const lowest)
    rwa [← Stream'.const_eq, ← Stream'.const_eq] at hrun
  have hgene : ([⟨0, 0⟩, ⟨0, 0⟩] : List Gene)[⌊(lowest : ℝ) * 2⌋₊]? = some ⟨0, 0⟩ := by simp [lowest]
  have hcross := run_crossover_ox 1 1 1 (by norm_num : (0 : ℤ) ≤ 1) hx hx hgene t.nextRef
  rw [← Stream'.const_eq, ← Stream'.const_eq] at hcross
  refine ⟨child, ?_, rate_toSubject hrate, hfit⟩
  exact run_bind_eq_some.mpr ⟨(x, x), _, hpar, run_bind_eq_some.mpr ⟨_, _, hcross, run_bind_eq_some.mpr
    ⟨_, _, run_mutation_emptied t.nextRef, run_bind_eq_some.mpr
      ⟨child, _, run_attempt_eq_some.mpr ⟨hrate, rfl⟩, run_pure_eq_some.mpr ⟨rfl, rfl⟩⟩⟩⟩⟩

/-- The route of the child has two points, and its genome decodes to one. -/
theorem not_coherent_emptied {t r : State} {x child : Rated} (hlt : child.fitness < x.fitness) {ref : ℕ}
    (hchild : child.toSubject = { still ref 0 none (-1) with dna := [] })
    (hins : Inserted (smallPlanner 1 0 1 1) t child x x r) : ¬ Coherent (smallPlanner 1 0 1 1) r := by
  intro hc
  cases hins with
  | refused h1 => exact h1 hlt
  | @replaces parent other i hparent hlt' hi =>
      have hdecoded := (hc.fresh (registered (smallPlanner 1 0 1 1) t child parent other)
        (List.mem_append_right _ List.mem_cons_self)).decoded
      have hdna : (registered (smallPlanner 1 0 1 1) t child parent other).dna = [] := by
        rw [registered_dna, hchild]
      have hroute : (registered (smallPlanner 1 0 1 1) t child parent other).dnaDecoded.length = 2 := by
        have : (registered (smallPlanner 1 0 1 1) t child parent other).dnaDecoded = child.dnaDecoded := rfl
        rw [this, hchild]
        rfl
      unfold Decoded at hdecoded
      rw [hdna] at hdecoded
      rw [← Option.some.inj hdecoded] at hroute
      simp at hroute

/-- One individual of one gene, and a child whose gene is removed. -/
theorem coherent_fails : ¬ ∀ (p : Planner) (maxExecTime : Option ℝ) (now : ℝ) (ω ω' : Tape) (s : State)
    (ticks : List Tick), p.specie.version = .ros → (start p maxExecTime now).run ω = some (s, ω') →
    Always (step p) (Coherent p) s ticks := by
  intro hall
  let p := smallPlanner 1 0 1 1
  let t : Tick := ⟨0, Stream'.const lowest⟩
  obtain ⟨x, hrate, hfit⟩ := rate_still 1 0 1 1 0 0 (some 0) 0
  have hspawn := run_spawn_small 1 1 1 (by norm_num : (0 : ℤ) ≤ 1) middle middle (by norm_num [middle])
    (Stream'.const lowest)
  have he : -3 + 6 * (middle : ℝ) = 0 := by norm_num [middle]
  rw [he] at hspawn
  have hgen : (genesis p 0 0 0 p.populationSize).run
      (Stream'.cons middle (Stream'.cons middle (Stream'.cons middle (Stream'.const lowest)))) =
      some ([⟨0, [⟨0, 0⟩], [], some 0, 0, []⟩], Stream'.const lowest) :=
    run_bind_eq_some.mpr ⟨_, _, run_bind_eq_some.mpr ⟨_, _, hspawn, rfl⟩, rfl⟩
  obtain ⟨best, hbest⟩ := exists_selectBest (by simp : [x] ≠ [])
  have hstart : (start p none 0).run
      (Stream'.cons middle (Stream'.cons middle (Stream'.cons middle (Stream'.const lowest)))) =
      some (firstState p none 0 [x] best, Stream'.const lowest) :=
    start_eq_some.mpr ⟨_, [x], best, hgen, evaluate_small rfl hrate, hbest, rfl⟩
  -- the states at the first test, in the inner loop and in the crossover loop
  let s₀ := firstState p none 0 [x] best
  let s₁ : State := { s₀ with flagNewborn := 1, loc := .inner }
  let s₂ : State := { s₁ with flagNewborn := 0, generation := 1, loc := .crossing 1 }
  have h₁ : step p s₀ t = some s₁ := step_of_moves (.epoch rfl (by
    norm_num [stopCriteria, s₀, firstState, execTime, t, p, smallPlanner, openPlanner, Planner.default, Specie.default]))
  have h₂ : step p s₁ t = some s₂ := step_generation_small (by norm_num) rfl rfl
  have hx : x.dna = [⟨0, 0⟩] := by
    rw [rate_toSubject hrate]
    rfl
  obtain ⟨child, hbreed, hchild, hcfit⟩ := run_breed_emptied (t := s₂) (x := x) rfl hx
  obtain ⟨r, hr, hins⟩ := exists_crossPass hbreed
  have h₃ : step p s₂ t = some { r with loc := .crossing 0 } := step_of_moves (.pass rfl hr)
  have hlt : child.fitness < x.fitness := by
    rw [hcfit, hfit]
    norm_num
  have halways := hall p none 0 _ _ s₀ [t, t, t] rfl hstart
  have hc := (((halways.2 s₁ h₁).2 s₂ h₂).2 _ h₃).head
  exact not_coherent_emptied hlt hchild hins ⟨hc.population_length, hc.fitnesses_length, hc.fitnesses, hc.fresh⟩

end DroneArch.Genetic
