import DroneArch.GeneticCache
import DroneArch.ParentLinks

/-! # The history of the genetic planner

`genetic.py` records an individual in `history` when it is drawn, and a child when it takes the place
of a parent.  A child that beats `best` without taking a place becomes `best` unrecorded, with the
number -1, and a restart puts it into the population.

* `genealogy_run`: in every run whose restarts carry over a recorded individual, the numbers in the
  history are distinct and the parents of an entry are earlier entries. -/

namespace DroneArch.Genetic

open RandomChoices Runs ParentLinks

variable {p : Planner} {s s' : State}

/-- The numbers in the history are distinct, and the parents of an entry are earlier entries. -/
def Lineage (s : State) : Prop := Genealogy Entry.id Entry.parents s.history

/-- The numbers in the history. -/
def recorded (s : State) : List ℤ := s.history.map Entry.id

/-- A restart carries over a recorded individual. -/
def CarriesRecorded (s : State) (_ : Tick) : Prop := s.loc = .inner → converge s = true → s.best.id ∈ recorded s

/-! ### Names -/

/-- New individuals are numbered on and have no parents. -/
theorem names_of_genesis (hv : p.specie.version = .ros) {nextRef currentId generation n : ℕ} {ω ω' : Tape}
    {subjects : List Subject} (h : (genesis p nextRef currentId generation n).run ω = some (subjects, ω')) :
    subjects.map (fun x => x.id) = (List.range n).map (fun (i : ℕ) => (currentId : ℤ) + i) ∧
      ∀ x ∈ subjects, x.parents = [] := by
  have hyields : Yields (genesis p nextRef currentId generation n)
      (List.Forall₂ (fun (i : ℕ) (x : Subject) => x.id = (currentId : ℤ) + i ∧ x.parents = []) (List.range n)) := by
    refine yields_mapM fun i _ => yields_bind fun dna => yields_pure ?_
    simp only [hv, and_self]
  have hnames := hyields _ _ _ h
  clear h
  generalize List.range n = l at hnames
  induction hnames with
  | nil => exact ⟨rfl, by simp⟩
  | cons hx _ ih =>
      rw [List.map_cons, List.map_cons, List.forall_mem_cons, ih.1, hx.1]
      exact ⟨rfl, hx.2, ih.2⟩

/-- Decoding and rating keep what does not depend on the route. -/
theorem map_of_evaluate {α : Type} (k : Subject → α) (hk : ∀ (x : Subject) d, k { x with dnaDecoded := d } = k x)
    {subjects : List Subject} {population : List Rated} (h : evaluate p subjects = some population) :
    population.map (fun x => k x.toSubject) = subjects.map k := by
  obtain ⟨decoded, hdecoded, hrated⟩ := Option.bind_eq_some_iff.mp h
  have hd : decoded.map k = subjects.map k := Lists.map_of_mapM (fun x y hxy => by
    obtain ⟨d, _, rfl⟩ := InPlace.decode_eq_some.mp hxy
    exact hk x d) hdecoded
  rw [← hd]
  exact Lists.map_of_mapM (fun x y hxy => by rw [rate_toSubject hxy]) hrated

/-- The entries of new individuals. -/
theorem entries_of_evaluate (hv : p.specie.version = .ros) {nextRef currentId generation n : ℕ} {ω ω' : Tape}
    {subjects : List Subject} (h : (genesis p nextRef currentId generation n).run ω = some (subjects, ω'))
    {population : List Rated} (hev : evaluate p subjects = some population) :
    (population.map toDict).map Entry.id = (List.range n).map (fun (i : ℕ) => (currentId : ℤ) + i) ∧
      ∀ e ∈ population.map toDict, e.parents = [] := by
  obtain ⟨hids, hparents⟩ := names_of_genesis hv h
  constructor
  · rw [List.map_map, ← hids, ← map_of_evaluate (fun x => x.id) (fun _ _ => rfl) hev]
    rfl
  · intro e he
    obtain ⟨y, hy, rfl⟩ := List.mem_map.mp he
    have hmap := map_of_evaluate (fun x => x.parents) (fun _ _ => rfl) hev
    have hmem : y.parents ∈ subjects.map (fun x => x.parents) := hmap ▸ List.mem_map_of_mem hy
    obtain ⟨x, hx, heq⟩ := List.mem_map.mp hmem
    exact heq.symm.trans (hparents x hx)

/-- A child has no parents until it is inserted. -/
theorem yields_breed_parents (hv : p.specie.version = .ros) : Yields (breed p s) (fun r => r.2.2.parents = []) := by
  have hcross : ∀ (parent1 parent2 : Subject) ref,
      Yields (crossover p.specie parent1 parent2 ref) (fun c => c.parents = []) := by
    intro parent1 parent2 ref
    refine yields_bind fun cross => yields_bind fun dna => yields_bind fun dna => ?_
    unfold generate
    simp only [hv]
    refine yields_bind fun own => yields_attempt fun c hc => ?_
    obtain ⟨d, _, rfl⟩ := InPlace.decode_eq_some.mp hc
    rfl
  have hmut : ∀ c : Subject, c.parents = [] → Yields (mutation p.specie c) (fun c => c.parents = []) := by
    intro c hc
    refine yields_bind fun u => ?_
    split
    · refine yields_bind fun mutate => yields_bind fun r => ?_
      split
      · refine yields_attempt fun c' hc' => ?_
        obtain ⟨d, _, rfl⟩ := InPlace.decode_eq_some.mp hc'
        exact hc
      · exact yields_pure hc
    · exact yields_pure hc
  refine yields_bind fun parents => (hcross _ _ _).bind fun c hc => (hmut c hc).bind fun c' hc' => ?_
  refine (yields_attempt (P := fun child : Rated => child.parents = []) fun child hchild => ?_).bind
    fun child hchild => yields_pure hchild
  rw [rate_toSubject hchild]
  exact hc'

/-! ### The run -/

/-- What a run keeps: numbers are handed out in order, and the members of the population are recorded. -/
structure Registered (s : State) : Prop where
  lineage : Lineage s
  lt : ∀ id ∈ recorded s, id < s.currentId
  population : ∀ x ∈ s.population, x.id ∈ recorded s

/-- Only the population, the history and the next number matter. -/
theorem Registered.congr (h : Registered s) (hpop : s'.population = s.population) (hhist : s'.history = s.history)
    (hid : s'.currentId = s.currentId) : Registered s' := by
  have hrec : recorded s' = recorded s := by rw [recorded, hhist, recorded]
  refine ⟨?_, ?_, ?_⟩
  · rw [Lineage, hhist]
    exact h.lineage
  · rw [hrec, hid]
    exact h.lt
  · rw [hpop, hrec]
    exact h.population

theorem nodup_numbers (currentId n : ℕ) : ((List.range n).map (fun (i : ℕ) => (currentId : ℤ) + i)).Nodup :=
  List.nodup_range.map fun i j hij => by
    simp only [add_right_inj, Nat.cast_inj] at hij
    exact hij

theorem registered_start (hv : p.specie.version = .ros) {maxExecTime : Option ℝ} {now : ℝ} {ω ω' : Tape}
    (h : (start p maxExecTime now).run ω = some (s, ω')) : Registered s := by
  obtain ⟨subjects, population, best, hgen, hev, _, rfl⟩ := start_eq_some.mp h
  obtain ⟨hids, hparents⟩ := entries_of_evaluate hv hgen hev
  have hhist : (firstState p maxExecTime now population best).history = population.map toDict := by
    simp only [firstState, hv]
  have hnext : (firstState p maxExecTime now population best).currentId = p.populationSize := by
    simp only [firstState, hv]
  have hnodup := nodup_numbers 0 p.populationSize
  rw [← hids] at hnodup
  have hlog := genealogy_nil.append_roots hparents hnodup (by simp)
  rw [List.nil_append] at hlog
  refine ⟨by rw [Lineage, hhist]; exact hlog, fun id hid => ?_, fun x hx => ?_⟩
  · rw [recorded, hhist, hids] at hid
    obtain ⟨i, hi, rfl⟩ := List.mem_map.mp hid
    rw [List.mem_range] at hi
    rw [hnext]
    omega
  · rw [recorded, hhist]
    exact List.mem_map_of_mem (List.mem_map_of_mem hx)

theorem registered_restart (hv : p.specie.version = .ros) (hr : Registered s) (hbest : s.best.id ∈ recorded s)
    {ω ω' : Tape} (h : (restart p s).run ω = some (s', ω')) : Registered s' := by
  obtain ⟨subjects, newcomers, best, hdraw, hnew, _, rfl⟩ := (restart_ros hv).mp h
  obtain ⟨hids, hparents⟩ := entries_of_evaluate hv hdraw hnew
  have hnodup := nodup_numbers s.currentId (p.populationSize - 1)
  rw [← hids] at hnodup
  have hnumber : ∀ e ∈ newcomers.map toDict,
      (s.currentId : ℤ) ≤ e.id ∧ e.id < s.currentId + (p.populationSize - 1 : ℕ) := by
    intro e he
    have hmem := hids ▸ List.mem_map_of_mem (f := Entry.id) he
    obtain ⟨i, hi, hid⟩ := List.mem_map.mp hmem
    rw [List.mem_range] at hi
    omega
  have hfresh : ∀ e ∈ newcomers.map toDict, e.id ∉ recorded s := by
    intro e he hmem
    have h1 := (hnumber e he).1
    have h2 := hr.lt e.id hmem
    omega
  have hrec : recorded (restarted p s newcomers best) = recorded s ++ (newcomers.map toDict).map Entry.id :=
    List.map_append
  refine ⟨hr.lineage.append_roots hparents hnodup hfresh, fun id hid => ?_, fun x hx => ?_⟩
  · have hnext : (restarted p s newcomers best).currentId = s.currentId + (p.populationSize - 1) := rfl
    rw [hnext]
    rcases List.mem_append.mp (hrec ▸ hid) with hid | hid
    · have hlt := hr.lt id hid
      omega
    · obtain ⟨e, he, rfl⟩ := List.mem_map.mp hid
      have hlt := (hnumber e he).2
      omega
  · rw [hrec]
    rcases List.mem_append.mp hx with hx | hx
    · exact List.mem_append_right _ (List.mem_map_of_mem (List.mem_map_of_mem hx))
    · rw [List.mem_singleton.mp hx]
      exact List.mem_append_left _ hbest

theorem registered_of_inserted (hv : p.specie.version = .ros) (hr : Registered s) {child parent1 parent2 : Rated}
    (h1 : parent1 ∈ s.population) (h2 : parent2 ∈ s.population) (hchild : child.parents = [])
    (h : Inserted p s child parent1 parent2 s') : Registered s' := by
  cases h with
  | refused => exact hr.congr rfl rfl rfl
  | @replaces parent other i hparent hlt hi =>
      have hboth : parent.id ∈ recorded s ∧ other.id ∈ recorded s := by
        rcases hparent with ⟨rfl, rfl⟩ | ⟨rfl, rfl⟩
        · exact ⟨hr.population _ h1, hr.population _ h2⟩
        · exact ⟨hr.population _ h2, hr.population _ h1⟩
      have hid : (toDict (registered p s child parent other)).id = s.currentId := by
        simp only [toDict, registered, hv]
      have hparents : (toDict (registered p s child parent other)).parents = [parent.id, other.id] := by
        simp only [toDict, registered, hv, hchild, List.nil_append]
      have hfresh : (toDict (registered p s child parent other)).id ∉ recorded s := by
        intro hmem
        have hlt := hr.lt _ hmem
        omega
      have hin : ∀ id ∈ (toDict (registered p s child parent other)).parents, id ∈ recorded s := by
        rw [hparents]
        simpa only [List.forall_mem_cons, List.not_mem_nil, false_implies, implies_true, and_true] using hboth
      have hlog := hr.lineage.concat hfresh hin
      -- the state with the child in the history
      suffices hkept : Registered { s with
          population := s.population.eraseP (fun x => x.ref = parent.ref) ++ [registered p s child parent other]
          currentId := s.currentId + 1
          history := s.history ++ [toDict (registered p s child parent other)] } by
        refine hkept.congr rfl ?_ ?_ <;> simp only [State.crown, hv]
      have hrec : ∀ id, id ∈ (s.history ++ [toDict (registered p s child parent other)]).map Entry.id ↔
          id ∈ recorded s ∨ id = s.currentId := by
        intro id
        rw [List.map_append, List.map_singleton, hid, List.mem_append, List.mem_singleton, recorded]
      refine ⟨hlog, fun id hmem => ?_, fun x hx => ?_⟩
      · rcases (hrec id).mp hmem with hmem | rfl
        · exact Int.lt_add_one_of_le (hr.lt id hmem).le
        · exact Int.lt_succ _
      · refine (hrec x.id).mpr ?_
        rcases List.mem_append.mp hx with hx | hx
        · exact .inl (hr.population x (List.mem_of_mem_eraseP hx))
        · rw [List.mem_singleton.mp hx]
          exact .inr hid

theorem registered_step (hv : p.specie.version = .ros) {t : Tick} (hs : step p s t = some s') (hr : Registered s)
    (hcarries : CarriesRecorded s t) : Registered s' := by
  cases moves_of_step hs with
  | stop => exact hr.congr rfl rfl rfl
  | epoch => exact hr.congr rfl rfl rfl
  | restart hloc hconv hrun =>
      have hkept := registered_restart hv hr (hcarries hloc hconv) hrun
      exact hkept.congr rfl rfl rfl
  | generation => exact hr.congr rfl rfl rfl
  | pass hloc hrun =>
      obtain ⟨parent1, parent2, child, hbreed, hins⟩ := crossPass_inserted hrun
      obtain ⟨h1, h2⟩ := parents_mem_of_breed hbreed
      have hchild : child.parents = [] := yields_breed_parents hv _ _ _ hbreed
      have hrated : Registered { s with nextRef := s.nextRef + 1, evaluated := s.evaluated ++ [child] } :=
        hr.congr rfl rfl rfl
      have hkept := registered_of_inserted hv hrated h1 h2 hchild hins
      exact hkept.congr rfl rfl rfl
  | finish => exact hr.congr rfl rfl rfl

/-- **Lineage.**  In every run whose restarts carry over a recorded individual, the numbers in the
history are distinct and the parents of an entry are earlier entries. -/
theorem genealogy_run (hv : p.specie.version = .ros) {maxExecTime : Option ℝ} {now : ℝ} {ω ω' : Tape}
    (hs : (start p maxExecTime now).run ω = some (s, ω')) (ticks : List Tick)
    (hcarries : Each (step p) CarriesRecorded s ticks) : Always (step p) Lineage s ticks := by
  have hregistered : Always (step p) Registered s ticks :=
    always_of_each (fun _ _ _ hs hr hc => registered_step hv hs hr hc) (registered_start hv hs) hcarries
  exact hregistered.mono fun _ hr => hr.lineage

/-- The population is the best individual alone. -/
def Alone (s : State) : Prop := s.population = [s.best]

theorem Registered.carries (hr : Registered s) (ha : Alone s) (t : Tick) : CarriesRecorded s t :=
  fun _ _ => hr.population s.best (by rw [ha]; exact List.mem_singleton_self _)

/-- A planner of one individual draws no newcomers. -/
theorem newcomers_of_one (hone : p.populationSize = 1) {ω ω' : Tape} {subjects : List Subject}
    (h : (drawNewcomers p s).run ω = some (subjects, ω')) : subjects = [] := by
  unfold drawNewcomers genesis at h
  rw [hone] at h
  exact (run_pure_eq_some.mp h).1.symm

theorem alone_restart (hv : p.specie.version = .ros) (hone : p.populationSize = 1) {ω ω' : Tape}
    (h : (restart p s).run ω = some (s', ω')) : Alone s' := by
  obtain ⟨subjects, newcomers, best, hdraw, hnew, hbest, rfl⟩ := (restart_ros hv).mp h
  rw [newcomers_of_one hone hdraw] at hnew
  cases hnew
  have hmem : best ∈ [s.best] := (selectBest_spec hbest).1
  show [s.best] = [best]
  rw [List.mem_singleton.mp hmem]

/-- The parents are both the only individual, and a child that takes its place is the best one. -/
theorem alone_of_inserted (ha : Alone s) {child parent1 parent2 : Rated} (h1 : parent1 ∈ s.population)
    (h2 : parent2 ∈ s.population) (h : Inserted p s child parent1 parent2 s') : Alone s' := by
  rw [ha, List.mem_singleton] at h1 h2
  subst h1 h2
  cases h with
  | refused h1 =>
      have hbest : (s.crown child).best = s.best := if_neg h1
      show s.population = [(s.crown child).best]
      rw [hbest, ha]
  | @replaces parent other i hparent hlt =>
      obtain ⟨rfl, rfl⟩ : parent = s.best ∧ other = s.best := by
        rcases hparent with hparent | hparent <;> exact hparent
      have hfit : (registered p s child s.best s.best).fitness = child.fitness := by
        unfold registered
        split <;> rfl
      have herase : s.population.eraseP (fun x : Rated => x.ref = s.best.ref) = [] := by
        rw [ha]
        simp
      unfold Alone State.crown
      simp only [herase, List.nil_append, hfit, hlt, if_true]

theorem alone_step (hv : p.specie.version = .ros) (hone : p.populationSize = 1) {t : Tick} (hs : step p s t = some s')
    (ha : Alone s) : Alone s' := by
  cases moves_of_step hs with
  | stop => exact ha
  | epoch => exact ha
  | restart hloc hconv hrun =>
      have hkept := alone_restart hv hone hrun
      exact hkept
  | generation => exact ha
  | pass hloc hrun =>
      obtain ⟨parent1, parent2, child, hbreed, hins⟩ := crossPass_inserted hrun
      obtain ⟨h1, h2⟩ := parents_mem_of_breed hbreed
      have hkept := alone_of_inserted (s := { s with nextRef := s.nextRef + 1, evaluated := s.evaluated ++ [child] })
        ha h1 h2 hins
      exact hkept
  | finish => exact ha

/-- Every run of a planner of one individual, with its children and restarts. -/
theorem genealogy_run_one : ∃ s ω, (start (openPlanner 1) none 0).run twoTape = some (s, ω) ∧
    ∀ ticks, Always (step (openPlanner 1)) Lineage s ticks := by
  obtain ⟨x, hx, _⟩ := rate_turning 1 0 0
  have hev : evaluate (openPlanner 1) [turning 0 0 []] = some [x] := by
    unfold evaluate
    simp [decode_turning, hx]
  obtain ⟨s, hs, hpop⟩ := exists_start (run_genesis_one _) hev (by simp) none 0
  have halone : Alone s := by
    have hmem := (start_spec hs).2.1
    rw [hpop, List.mem_singleton] at hmem
    rw [Alone, hpop, hmem]
  refine ⟨s, _, hs, fun ticks => genealogy_run rfl hs ticks ?_⟩
  have hkept : Always (step (openPlanner 1)) (fun s => Registered s ∧ Alone s) s ticks :=
    always_of_step (fun _ t _ h hk => ⟨registered_step rfl h hk.1 (hk.1.carries hk.2 t), alone_step rfl rfl h hk.2⟩)
      ⟨registered_start rfl hs, halone⟩ ticks
  exact each_of_always (fun _ t _ _ hk _ => hk.1.carries hk.2 t) hkept

/-! ### A best individual that is not recorded -/

section small

/-- One tick of the clock at zero. -/
noncomputable def tickZero (tape : Tape) : Tick := ⟨0, tape⟩

/-- The test of the outer loop and the start of a generation of one pass. -/
theorem run_epoch_small {s : State} (hloc : s.loc = .outer) (t t' : Tick) (hgo : stopCriteria s t.now = false) :
    run (step (smallPlanner 2 1 0 (1 / 2))) s [t, t'] =
      some { s with flagNewborn := 0, generation := s.generation + 1, loc := .crossing 1 } := by
  rw [run_cons_some (step_of_moves (.epoch hloc hgo)), run_cons_some (step_generation_small (by norm_num) rfl rfl)]
  rfl

/-- A child of an individual that is not recorded. -/
theorem not_lineage_small {s : State} (hloc : s.loc = .crossing 1) {z c : Rated} (hpop : s.population = [z, c])
    (hz : z.dna = [⟨0, -3⟩]) (hfz : z.fitness = 30110) (hc : c.dna = [⟨0, 0⟩]) (hid : c.id ∉ recorded s) :
    ∃ s', step (smallPlanner 2 1 0 (1 / 2)) s (tickZero (passTape lowest middle middle)) = some s' ∧ ¬ Lineage s' := by
  obtain ⟨child, hbreed, _, hfit⟩ := run_breed_small 2 (1 / 2) s lowest middle middle 0 (by simp [hpop, lowest])
    (by norm_num [hpop, middle]) hz hc (by norm_num [middle])
  norm_num at hfit
  obtain ⟨r, hr, hins⟩ := exists_crossPass hbreed
  refine ⟨_, step_of_moves (.pass hloc hr), fun hlineage => ?_⟩
  cases hins with
  | refused h1 =>
      rw [hfit, hfz] at h1
      norm_num at h1
  | replaces hparent =>
      -- the unrecorded individual is one of the two parents of the last entry
      refine hid (Genealogy.mem_of_concat hlineage ?_)
      refine List.mem_append_right _ ?_
      rcases hparent with ⟨_, rfl⟩ | ⟨rfl, _⟩ <;> simp

/-- A child that beats `best` takes no place, and a restart carries it over. -/
theorem genealogy_fails : ¬ ∀ (p : Planner) (maxExecTime : Option ℝ) (now : ℝ) (ω ω' : Tape) (s : State)
    (ticks : List Tick), p.specie.version = .ros → (start p maxExecTime now).run ω = some (s, ω') →
    Always (step p) Lineage s ticks := by
  intro hall
  obtain ⟨x, y, hx, hfx, hy, hfy, hstart⟩ := start_small_two (1 / 2)
  let s₀ := firstState (smallPlanner 2 1 0 (1 / 2)) none 0 [x, y] y
  let t := tickZero (Stream'.const lowest)
  have hgo : ∀ s : State, s.startTime = 0 → s.maxExecTime = 1 → stopCriteria s t.now = false := by
    intro s hs hm
    norm_num [stopCriteria, hs, hm, t, tickZero]
  -- the first generation: the child of `x` and `x` beats `best` and takes no place
  have h₁ := run_epoch_small (s := s₀) rfl t t (hgo s₀ rfl rfl)
  have hxdna : x.dna = [⟨0, 0⟩] := by
    rw [hx]
    rfl
  have hlt : (30010 : ℝ) < s₀.best.fitness := by
    have hbest : s₀.best.fitness = 30110 := hfy
    rw [hbest]
    norm_num
  obtain ⟨c, s₂, h₂, hc, hfc, hs₂⟩ := run_refused_small
    (s := { s₀ with flagNewborn := 0, generation := s₀.generation + 1, loc := .crossing 1 }) rfl rfl hxdna hfx hlt 0
  -- no parent was replaced: restart
  let s₃ : State := { s₂ with loc := .inner }
  have h₃ : step (smallPlanner 2 1 0 (1 / 2)) s₂ t = some s₃ :=
    step_of_moves (.finish (by rw [hs₂]) (fun h => by cases h))
  have hfields : s₂.flagNewborn = 0 ∧ s₂.best = c ∧ s₂.startTime = 0 ∧ s₂.maxExecTime = 1 ∧ s₂.currentId = 2 ∧
      recorded s₂ = [x.id, y.id] := by
    rw [hs₂]
    exact ⟨rfl, rfl, rfl, rfl, rfl, rfl⟩
  obtain ⟨hflag, hbest, hstartTime, hmax, hcurrent, hrec⟩ := hfields
  obtain ⟨z, h₄, hz, hfz⟩ := step_restart_small (s := s₃) rfl hflag (by rw [← hfc, ← hbest]) 0
  -- the second generation: a child of `z` and `c`
  let s₄ : State := { restarted (smallPlanner 2 1 0 (1 / 2)) s₃ [z] z with loc := .outer }
  have h₅ := run_epoch_small (s := s₄) rfl t t (hgo s₄ hstartTime hmax)
  have hids : recorded s₄ = [0, 1, 2] := by
    have happend : recorded s₄ = recorded s₂ ++ [z.id] := List.map_append
    have hid : z.id = s₂.currentId := by
      rw [hz]
      rfl
    rw [happend, hrec, hx, hy, hid, hcurrent]
    rfl
  have hzdna : z.dna = [⟨0, -3⟩] := by
    rw [hz]
    rfl
  have hcdna : c.dna = [⟨0, 0⟩] := by
    rw [hc]
    rfl
  have hunrecorded : c.id ∉ recorded s₄ := by
    rw [hids, hc]
    simp [still]
  obtain ⟨s₅, h₆, hfails⟩ := not_lineage_small (z := z) (c := c)
    (s := { s₄ with flagNewborn := 0, generation := s₄.generation + 1, loc := .crossing 1 }) rfl (by rw [← hbest]; rfl)
    hzdna hfz hcdna hunrecorded
  have hrun := (run_append_some h₁ _).trans ((run_cons_some h₂ _).trans ((run_cons_some h₃ _).trans
    ((run_cons_some h₄ _).trans ((run_append_some h₅ _).trans (run_cons_some h₆ [])))))
  exact hfails ((hall _ none 0 _ _ s₀ _ rfl hstart).last hrun)

end small

end DroneArch.Genetic
