import DroneArch.GeneticGenome
import DroneArch.SortedLists

/-! # Insertions into the population

`_insert` puts a child in the place of a parent that it is better than: the parent is removed from the
population as an object and from the list of penalties by its position.  In the model an object is given by
its `ref`, and different objects of a run have different ones (`tracked_run`).

* `improves_of_inserted`: one insertion, for any population and any two parents from it.
* `notWorse_run`: any number of insertions between two restarts. -/

namespace DroneArch.Genetic

open RandomChoices Runs SortedLists

noncomputable section

/-- The penalties of the population. -/
def State.penalties (s : State) : List ℝ := s.population.map (fun x => x.fitness)

end

/-- Individuals of the population that are one object are the same. -/
def State.Objects (s : State) : Prop := ∀ x ∈ s.population, ∀ y ∈ s.population, x.ref = y.ref → x = y

/-- The penalties of the second state are not worse. -/
structure NotWorse (s s' : State) : Prop where
  sorted : Below s'.penalties s.penalties
  min_le : ∀ m, s.penalties.min? = some m → ∃ m', s'.penalties.min? = some m' ∧ m' ≤ m

/-- What an insertion does to the penalties. -/
structure Improves (s s' : State) : Prop extends NotWorse s s' where
  sum_lt_iff : s'.penalties.sum < s.penalties.sum ↔ s'.flagNewborn = s.flagNewborn + 1
  fitnesses : s.fitnesses = s.penalties → s'.fitnesses = s'.penalties

/-- The step is not a restart. -/
def SameEpoch (s : State) (_ : Tick) : Prop := ¬ (s.loc = .inner ∧ converge s = true)

variable {p : Planner} {s s' : State}

theorem notWorse_of_below (h : Below s'.penalties s.penalties) : NotWorse s s' := ⟨h, fun _ hm => h.min? hm⟩

theorem NotWorse.trans {s'' : State} (h : NotWorse s s') (h' : NotWorse s' s'') : NotWorse s s'' :=
  notWorse_of_below (h'.sorted.trans h.sorted)

theorem notWorse_of_population (h : s'.population = s.population) : NotWorse s s' := by
  refine notWorse_of_below ?_
  unfold State.penalties
  rw [h]
  exact Below.refl _

/-! ### One insertion -/

/-- The position that `index` finds is that of the parent. -/
theorem getElem_of_findIdx? (hobj : s.Objects) {parent : Rated} (hparent : parent ∈ s.population) {i : ℕ}
    (hi : s.population.findIdx? (fun x => x.ref = parent.ref) = some i) :
    ∃ hlt : i < s.population.length, s.population[i] = parent := by
  obtain ⟨hlt, href, -⟩ := List.findIdx?_eq_some_iff_getElem.mp hi
  exact ⟨hlt, hobj _ (List.getElem_mem hlt) _ hparent (of_decide_eq_true href)⟩

/-- The penalty of the parent makes place for the one of the child. -/
theorem improves_replace (hobj : s.Objects) {child parent : Rated} (hparent : parent ∈ s.population)
    (hlt : child.fitness < parent.fitness) {i : ℕ}
    (hi : s.population.findIdx? (fun x => x.ref = parent.ref) = some i)
    (hpop : s'.population = s.population.eraseP (fun x => x.ref = parent.ref) ++ [child])
    (hfit : s'.fitnesses = s.fitnesses.eraseIdx i ++ [child.fitness]) (hflag : s'.flagNewborn = s.flagNewborn + 1) :
    Improves s s' := by
  obtain ⟨hi', hget⟩ := getElem_of_findIdx? hobj hparent hi
  have hlen : i < s.penalties.length := by
    unfold State.penalties
    rwa [List.length_map]
  have hold : s.penalties[i] = parent.fitness := (List.getElem_map _).trans (congrArg Rated.fitness hget)
  have hnew : s'.penalties = s.penalties.eraseIdx i ++ [child.fitness] := by
    unfold State.penalties
    rw [hpop, List.eraseP_eq_eraseIdx, hi, List.map_append, List.eraseIdx_map, List.map_singleton]
  have hbelow : Below s'.penalties s.penalties := hnew ▸ below_replace hlen (hold.symm ▸ hlt.le)
  refine ⟨notWorse_of_below hbelow, ?_, fun h => ?_⟩
  · have hsum := sum_replace hlen child.fitness
    rw [hold, ← hnew] at hsum
    exact iff_of_true (by linarith) hflag
  · rw [hnew, hfit, h]

/-- **Insertion.**  The child is refused, or the penalties get better. -/
theorem improves_of_inserted (hobj : s.Objects) {child parent1 parent2 : Rated} (h1 : parent1 ∈ s.population)
    (h2 : parent2 ∈ s.population) (h : Inserted p s child parent1 parent2 s') : Improves s s' := by
  cases h with
  | refused => exact ⟨notWorse_of_population rfl, by simp [State.crown, State.penalties], fun h => h⟩
  | @replaces parent other i hparent hlt hi =>
      have hmem : parent ∈ s.population := by
        rcases hparent with ⟨rfl, _⟩ | ⟨rfl, _⟩
        · exact h1
        · exact h2
      have hreg : (registered p s child parent other).fitness = child.fitness := by
        unfold registered
        cases p.specie.version <;> rfl
      rw [← hreg] at hlt
      refine improves_replace hobj hmem hlt hi rfl ?_ rfl
      rw [hreg]
      rfl

/-! ### The objects of a run -/

/-- The objects of a state: those of the population are different, and older than the next one. -/
structure Tracked (s : State) : Prop where
  refs_nodup : (s.population.map (fun x => x.ref)).Nodup
  ref_lt : ∀ x ∈ s.population, x.ref < s.nextRef
  best_lt : s.best.ref < s.nextRef
  fitnesses : s.fitnesses = s.penalties

theorem Tracked.objects (h : Tracked s) : s.Objects := fun _ hx _ hy heq =>
  List.inj_on_of_nodup_map h.refs_nodup hx hy heq

theorem yields_crossover_ref (p : Specie) (parent1 parent2 : Subject) (ref : ℕ) :
    Yields (crossover p parent1 parent2 ref) (fun c => c.ref = ref) := by
  refine yields_bind fun cross => yields_bind fun dna => yields_bind fun dna => ?_
  have hdecode : ∀ x c : Subject, decode p x = some c → c.ref = x.ref := by
    intro x c h
    obtain ⟨d, -, rfl⟩ := Option.map_eq_some_iff.mp h
    rfl
  unfold generate
  cases p.version with
  | ros => exact yields_bind fun _ => yields_attempt fun c hc => hdecode _ c hc
  | v2_3 => exact yields_attempt fun c hc => hdecode _ c hc

theorem yields_mutation_ref (p : Specie) (c : Subject) : Yields (mutation p c) (fun c' => c'.ref = c.ref) := by
  refine yields_bind fun u => ?_
  split
  · refine yields_bind fun mutate => yields_bind fun out => ?_
    split
    · refine yields_attempt fun c' hc' => ?_
      obtain ⟨d, -, rfl⟩ := Option.map_eq_some_iff.mp hc'
      rfl
    · exact yields_pure rfl
  · exact yields_pure rfl

/-- The child is a new object. -/
theorem yields_breed_ref (p : Planner) (s : State) : Yields (breed p s) (fun r => r.2.2.ref = s.nextRef) := by
  refine yields_bind fun parents => (yields_crossover_ref _ _ _ _).bind fun c hc =>
    (yields_mutation_ref _ c).bind fun c' hc' => ?_
  refine (yields_attempt (P := fun child : Rated => child.ref = s.nextRef) fun child hchild => ?_).bind
    fun child hchild => yields_pure hchild
  rw [rate_toSubject hchild, hc', hc]

theorem yields_genesis_ref (p : Planner) (nextRef currentId generation n : ℕ) :
    Yields (genesis p nextRef currentId generation n)
      (fun subjects => subjects.map (fun x => x.ref) = List.range' nextRef n) := by
  have hmap : Yields (genesis p nextRef currentId generation n)
      (List.Forall₂ (fun i x => x.ref = nextRef + i) (List.range n)) := by
    refine yields_mapM fun i _ => yields_bind fun dna => yields_pure ?_
    cases p.specie.version <;> rfl
  refine hmap.mono fun subjects h => ?_
  rw [List.range'_eq_map_range, ← List.forall₂_eq_eq_eq, List.forall₂_map_left_iff, List.forall₂_map_right_iff]
  exact h.flip

theorem evaluate_ref {subjects : List Subject} {population : List Rated} (h : evaluate p subjects = some population) :
    population.map (fun x => x.ref) = subjects.map (fun x => x.ref) := by
  obtain ⟨decoded, hdecoded, hrated⟩ := Option.bind_eq_some_iff.mp h
  have hrate := Lists.map_of_mapM (g := fun y : Rated => y.ref) (k := fun x : Subject => x.ref)
    (fun x y hxy => by rw [rate_toSubject hxy]) hrated
  refine hrate.trans (Lists.map_of_mapM (fun x y hxy => ?_) hdecoded)
  obtain ⟨d, -, rfl⟩ := Option.map_eq_some_iff.mp hxy
  rfl

/-- Only the population, its penalties, the best individual and the next object matter. -/
theorem Tracked.congr (h : Tracked s) (hpop : s'.population = s.population) (hfit : s'.fitnesses = s.fitnesses)
    (hbest : s'.best = s.best) (hnext : s'.nextRef = s.nextRef) : Tracked s' := by
  refine ⟨?_, ?_, ?_, ?_⟩
  · rw [hpop]
    exact h.refs_nodup
  · rw [hpop, hnext]
    exact h.ref_lt
  · rw [hbest, hnext]
    exact h.best_lt
  · rw [hfit, h.fitnesses, State.penalties, State.penalties, hpop]

theorem tracked_start {maxExecTime : Option ℝ} {now : ℝ} {ω ω' : Tape}
    (h : (start p maxExecTime now).run ω = some (s, ω')) : Tracked s := by
  obtain ⟨subjects, population, best, hgen, hev, hbest, rfl⟩ := start_eq_some.mp h
  have hrefs : population.map (fun x => x.ref) = List.range' 0 p.populationSize :=
    (evaluate_ref hev).trans (yields_genesis_ref _ _ _ _ _ _ _ _ hgen)
  have hlt : ∀ x ∈ population, x.ref < p.populationSize := by
    intro x hx
    have hmem := List.mem_map_of_mem (f := fun x : Rated => x.ref) hx
    rw [hrefs, List.mem_range'_1] at hmem
    omega
  exact ⟨hrefs ▸ List.nodup_range', hlt, hlt best (selectBest_spec hbest).1, rfl⟩

/-- The newcomers of a restart and one object from before it. -/
theorem tracked_of_refs {population : List Rated} {r n : ℕ} (hpop : s'.population = population)
    (hrefs : population.map (fun x => x.ref) = List.range' s.nextRef n ++ [r]) (hr : r < s.nextRef)
    (hnext : s'.nextRef = s.nextRef + n) (hbest : s'.best ∈ population) (hfit : s'.fitnesses = s'.penalties) :
    Tracked s' := by
  have hlt : ∀ x ∈ population, x.ref < s'.nextRef := by
    intro x hx
    have hmem := List.mem_map_of_mem (f := fun x : Rated => x.ref) hx
    rw [hrefs, List.mem_append, List.mem_range'_1, List.mem_singleton] at hmem
    omega
  refine ⟨?_, hpop ▸ hlt, hlt _ hbest, hfit⟩
  rw [hpop, hrefs, List.nodup_append]
  refine ⟨List.nodup_range', List.nodup_singleton r, ?_⟩
  intro a ha b hb heq
  rw [List.mem_range'_1] at ha
  rw [List.mem_singleton] at hb
  omega

theorem tracked_restart (ht : Tracked s) {ω ω' : Tape} (h : (restart p s).run ω = some (s', ω')) : Tracked s' := by
  have hdraw : Yields (drawNewcomers p s)
      (fun subjects => subjects.map (fun x => x.ref) = List.range' s.nextRef (p.populationSize - 1)) :=
    yields_genesis_ref _ _ _ _ _
  cases hv : p.specie.version with
  | ros =>
      obtain ⟨subjects, newcomers, best, hdrawn, hnew, hbest, rfl⟩ := (restart_ros hv).mp h
      have hrefs : (newcomers ++ [s.best]).map (fun x => x.ref) =
          List.range' s.nextRef (p.populationSize - 1) ++ [s.best.ref] := by
        rw [List.map_append, evaluate_ref hnew, hdraw _ _ _ hdrawn, List.map_singleton]
      exact tracked_of_refs rfl hrefs ht.best_lt rfl (selectBest_spec hbest).1 rfl
  | v2_3 =>
      obtain ⟨subjects, population, best, hdrawn, hnew, hlast, rfl⟩ := restart_v2_3 hv h
      have hrefs : population.map (fun x => x.ref) =
          List.range' s.nextRef (p.populationSize - 1) ++ [s.best.ref] := by
        rw [evaluate_ref hnew, List.map_append, hdraw _ _ _ hdrawn, List.map_singleton]
      exact tracked_of_refs rfl hrefs ht.best_lt rfl (List.mem_of_getLast? hlast) rfl

/-- A new object takes the place of another. -/
theorem Tracked.refs_nodup_replace (ht : Tracked s) {x : Rated} (hx : x.ref = s.nextRef) (q : Rated → Bool) :
    ((s.population.eraseP q ++ [x]).map (fun x => x.ref)).Nodup := by
  rw [List.map_append, List.map_singleton, List.nodup_append]
  refine ⟨ht.refs_nodup.sublist (List.Sublist.map _ List.eraseP_sublist), List.nodup_singleton _, ?_⟩
  intro a ha b hb heq
  obtain ⟨y, hy, rfl⟩ := List.mem_map.mp ha
  have hlt := ht.ref_lt y (List.mem_of_mem_eraseP hy)
  rw [List.mem_singleton] at hb
  omega

/-- The child of a pass is registered, and may be the best. -/
theorem tracked_of_inserted (ht : Tracked s) {child parent1 parent2 : Rated} (h1 : parent1 ∈ s.population)
    (h2 : parent2 ∈ s.population) (hchild : child.ref = s.nextRef) {evaluated : List Rated}
    (h : Inserted p { s with nextRef := s.nextRef + 1, evaluated } child parent1 parent2 s') : Tracked s' := by
  have hobj : ({ s with nextRef := s.nextRef + 1, evaluated } : State).Objects := ht.objects
  have hfit := (improves_of_inserted hobj h1 h2 h).fitnesses ht.fitnesses
  have hold : ∀ x ∈ s.population, x.ref < s.nextRef + 1 := fun x hx => Nat.lt_succ_of_lt (ht.ref_lt x hx)
  have hcrown : ∀ (t : State) (c : Rated), t.best = s.best → c.ref = s.nextRef →
      (t.crown c).best.ref < s.nextRef + 1 := by
    intro t c ht' hc
    rcases t.crown_best c with heq | heq <;> rw [heq]
    · exact hc ▸ Nat.lt_succ_self _
    · exact ht' ▸ Nat.lt_succ_of_lt ht.best_lt
  cases h with
  | refused => exact ⟨ht.refs_nodup, hold, hcrown _ _ rfl hchild, hfit⟩
  | @replaces parent other i hparent hlt hi =>
      have hreg : (registered p { s with nextRef := s.nextRef + 1, evaluated } child parent other).ref = s.nextRef := by
        rw [← hchild]
        unfold registered
        cases p.specie.version <;> rfl
      refine ⟨ht.refs_nodup_replace hreg _, fun x hx => ?_, hcrown _ _ rfl hreg, hfit⟩
      rcases List.mem_append.mp hx with hx | hx
      · exact hold x (List.mem_of_mem_eraseP hx)
      · rw [List.mem_singleton.mp hx]
        exact hreg ▸ Nat.lt_succ_self _

theorem tracked_step {t : Tick} (hs : step p s t = some s') (ht : Tracked s) : Tracked s' := by
  cases moves_of_step hs with
  | stop => exact ht.congr rfl rfl rfl rfl
  | epoch => exact ht.congr rfl rfl rfl rfl
  | restart hloc hconv hr => exact (tracked_restart ht hr).congr rfl rfl rfl rfl
  | generation => exact ht.congr rfl rfl rfl rfl
  | pass hloc hr =>
      obtain ⟨parent1, parent2, child, hbreed, hins⟩ := crossPass_inserted hr
      obtain ⟨h1, h2⟩ := parents_mem_of_breed hbreed
      have hchild := yields_breed_ref p s _ _ _ hbreed
      exact (tracked_of_inserted ht h1 h2 hchild hins).congr rfl rfl rfl rfl
  | finish => exact ht.congr rfl rfl rfl rfl

/-- In every run the objects are told apart. -/
theorem tracked_run {maxExecTime : Option ℝ} {now : ℝ} {ω ω' : Tape}
    (hs : (start p maxExecTime now).run ω = some (s, ω')) (ticks : List Tick) : Always (step p) Tracked s ticks :=
  always_of_step (fun _ _ _ => tracked_step) (tracked_start hs) ticks

/-! ### Insertions between two restarts -/

theorem notWorse_step {t : Tick} (hs : step p s t = some s') (ht : Tracked s) (hepoch : SameEpoch s t) :
    NotWorse s s' := by
  cases moves_of_step hs with
  | stop => exact notWorse_of_population rfl
  | epoch => exact notWorse_of_population rfl
  | restart hloc hconv hr => exact absurd ⟨hloc, hconv⟩ hepoch
  | generation => exact notWorse_of_population rfl
  | pass hloc hr =>
      obtain ⟨parent1, parent2, child, hbreed, hins⟩ := crossPass_inserted hr
      obtain ⟨h1, h2⟩ := parents_mem_of_breed hbreed
      have hobj : ({ s with nextRef := s.nextRef + 1, evaluated := s.evaluated ++ [child] } : State).Objects := ht.objects
      exact notWorse_of_below (improves_of_inserted hobj h1 h2 hins).sorted
  | finish => exact notWorse_of_population rfl

/-- **Epochs.**  Without a restart the penalties of the population never get worse. -/
theorem notWorse_run (ht : Tracked s) {ticks : List Tick} (hepoch : Each (step p) SameEpoch s ticks) :
    Always (step p) (fun s' => Tracked s' ∧ NotWorse s s') s ticks :=
  always_of_each (fun _ _ _ hs h hq => ⟨tracked_step hs h.1, h.2.trans (notWorse_step hs h.1 hq)⟩)
    ⟨ht, notWorse_of_population rfl⟩ hepoch

/-- **Insertions.**  Every insertion of a child of two members of a population improves it or leaves it as it is, and in
every run, from every state on, the population does not get worse up to the next restart. -/
theorem insertion_improves (p : Planner) :
    (∀ s child parent1 parent2, s.Objects → parent1 ∈ s.population → parent2 ∈ s.population →
      ∃ s', insert p s child parent1 parent2 = some s' ∧ Improves s s' ∧
        ∃ m m', s.penalties.min? = some m ∧ s'.penalties.min? = some m' ∧ m' ≤ m) ∧
    ∀ maxExecTime now ω s₀ ω', (start p maxExecTime now).run ω = some (s₀, ω') →
      ∀ ticks s, run (step p) s₀ ticks = some s → s.Objects ∧ s.fitnesses = s.penalties ∧
        ∀ ticks' s', Each (step p) SameEpoch s ticks' → run (step p) s ticks' = some s' → NotWorse s s' := by
  constructor
  · intro s child parent1 parent2 hobj h1 h2
    obtain ⟨s', hs'⟩ : ∃ s', insert p s child parent1 parent2 = some s' := exists_insert h1 h2
    have himp := improves_of_inserted hobj h1 h2 (inserted_of_insert hs')
    obtain ⟨m, hm⟩ := Option.ne_none_iff_exists'.mp
      (mt List.min?_eq_none_iff.mp (List.ne_nil_of_mem (List.mem_map_of_mem h1)) : s.penalties.min? ≠ none)
    obtain ⟨m', hm', hle⟩ := himp.min_le m hm
    exact ⟨s', hs', himp, m, m', hm, hm', hle⟩
  · intro maxExecTime now ω s₀ ω' hstart ticks s hrun
    have ht := (tracked_run hstart ticks).last hrun
    refine ⟨ht.objects, ht.fitnesses, fun ticks' s' hepoch hrun' => ?_⟩
    exact ((notWorse_run ht hepoch).last hrun').2

end DroneArch.Genetic
