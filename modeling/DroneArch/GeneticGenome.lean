import DroneArch.GeneticElitism

/-! # The genomes of the genetic planner

Every way to make a genome keeps its length between `T_min` and `T_max` and its genes within their
limits: the spawning, the two crossovers with the completion of parents of different lengths, and the
four mutations.  The statements are about the result of each program on every tape.

* `everyone_run`: what all these programs keep holds of all individuals of a run.
* `genome_run`: all individuals evaluated in a run of either file have such a genome. -/

namespace DroneArch.Genetic

open RandomChoices Runs

variable {p : Planner} {s s' : State}

/-! ### Genes and genomes -/

/-- The gene is within its limits. -/
structure Gene.Within (p : Specie) (g : Gene) : Prop where
  aMin_le : p.aMin ≤ g.a
  le_aMax : g.a ≤ p.aMax
  eMin_le : p.eMin ≤ g.e
  le_eMax : g.e ≤ p.eMax

/-- The length and the genes are within their limits. -/
structure Genome (p : Specie) (dna : List Gene) : Prop where
  tMin_le : p.tMin ≤ dna.length
  le_tMax : dna.length ≤ p.tMax
  within : ∀ g ∈ dna, g.Within p

/-- The limits leave a choice. -/
structure Specie.Proper (p : Specie) : Prop where
  one_le : 1 ≤ p.tMin
  t_le : p.tMin ≤ p.tMax
  a_le : p.aMin ≤ p.aMax
  e_le : p.eMin ≤ p.eMax

/-- The gene is between its limits, whichever of them is the greater one. -/
structure Gene.Between (p : Specie) (g : Gene) : Prop where
  a : g.a ∈ Set.uIcc p.aMin p.aMax
  e : g.e ∈ Set.uIcc p.eMin p.eMax

/-- What the programs make of any limits: a negative horizon gives no genes. -/
structure Drawn (p : Specie) (dna : List Gene) : Prop where
  tMin_le : p.tMin ≤ dna.length
  le_tMax : dna.length ≤ max p.tMax 0
  between : ∀ g ∈ dna, g.Between p

theorem Drawn.genome {p : Specie} (h : p.Proper) {dna : List Gene} (hdna : Drawn p dna) : Genome p dna := by
  refine ⟨hdna.tMin_le, ?_, fun g hg => ?_⟩
  · have hone := h.one_le
    have hle := h.t_le
    have hmax := hdna.le_tMax
    omega
  · obtain ⟨ha, he⟩ := hdna.between g hg
    rw [Set.uIcc_of_le h.a_le] at ha
    rw [Set.uIcc_of_le h.e_le] at he
    exact ⟨ha.1, ha.2, he.1, he.2⟩

/-! ### Making genomes -/

section specie
variable {p : Specie}

theorem yields_buildGene (p : Specie) : Yields (buildGene p) (Gene.Between p) :=
  (yields_uniform_uIcc _ _).bind fun _ ha => (yields_uniform_uIcc _ _).bind fun _ he => yields_pure ⟨ha, he⟩

theorem yields_spawn (p : Specie) : Yields (spawn p) (Drawn p) := by
  refine (yields_randint p.tMin p.tMax).bind fun T hT => ?_
  refine (yields_mapM_forall fun _ _ => yields_buildGene p).mono fun dna hdna => ?_
  have hlen : dna.length = T.toNat := hdna.1.trans List.length_range
  exact ⟨by omega, by omega, hdna.2⟩

theorem clamp_mem (minVal maxVal val : ℝ) : clamp minVal maxVal val ∈ Set.uIcc minVal maxVal := by
  unfold clamp
  split
  · exact Set.right_mem_uIcc
  · next hmax =>
      split
      · exact Set.left_mem_uIcc
      · next hmin => exact Set.mem_uIcc_of_le (not_lt.mp hmin) (not_lt.mp hmax)

/-! ### Crossover -/

theorem yields_ox {dna1 dna2 : List Gene} (h1 : Drawn p dna1) (h2 : Drawn p dna2) : Yields (ox dna1 dna2)
    (fun dna => dna.length = min dna1.length dna2.length ∧ ∀ g ∈ dna, g.Between p) := by
  unfold ox
  rw [← List.length_zip]
  refine yields_mapM_forall fun g hg => (yields_choice _).mono fun g' hg' => ?_
  have hmem := List.of_mem_zip hg
  rcases List.mem_pair.mp hg' with rfl | rfl
  · exact h1.between _ hmem.1
  · exact h2.between _ hmem.2

theorem yields_blxAlpha (p : Specie) (dna1 dna2 : List Gene) : Yields (blxAlpha p dna1 dna2)
    (fun dna => dna.length = min dna1.length dna2.length ∧ ∀ g ∈ dna, g.Between p) := by
  unfold blxAlpha
  rw [← List.length_zip]
  exact yields_mapM_forall fun g _ => yields_bind fun a => yields_bind fun e =>
    yields_pure ⟨clamp_mem _ _ a, clamp_mem _ _ e⟩

theorem geneAt_mem {dna : List Gene} {i : ℤ} {g : Gene} (h : geneAt dna i = some g) : g ∈ dna := by
  unfold geneAt at h
  split at h
  · exact List.mem_of_getElem? h
  · split at h
    · exact List.mem_of_getElem? h
    · cases h

/-- The completion adds at most as many genes of the longer parent as it has more. -/
theorem yields_complete {dna dna1 dna2 : List Gene} (h1 : Drawn p dna1) (h2 : Drawn p dna2)
    (hlen : dna.length = min dna1.length dna2.length) (hdna : ∀ g ∈ dna, g.Between p) :
    Yields (complete dna dna1 dna2) (Drawn p) := by
  have hloop : ∀ bigger smaller : List Gene, Drawn p bigger → Drawn p smaller → smaller.length ≤ bigger.length →
      dna.length = smaller.length → Yields
      (((List.range (bigger.length - smaller.length)).map (fun (j : ℕ) => (smaller.length : ℤ) - 1 + j)).foldlM
        (fun dna i => do
          if (← random) < 1 / 2 then return dna ++ [← attempt (geneAt bigger i)]
          else return dna) dna) (Drawn p) := by
    intro bigger smaller hb hs hle heq
    -- after `n` passes, at most `n` genes have been added
    let I : ℕ → List Gene → Prop := fun n l =>
      smaller.length ≤ l.length ∧ l.length ≤ smaller.length + n ∧ ∀ g ∈ l, g.Between p
    refine (yields_foldlM (I := I) ⟨heq.ge, heq.le, hdna⟩ fun n l hl i _ => ?_).mono fun l hl => ?_
    · refine yields_bind fun u => ?_
      split
      · refine (yields_attempt fun g hg => hb.between g (geneAt_mem hg)).bind fun g hg => yields_pure ⟨?_, ?_, ?_⟩
        · rw [List.length_append]
          exact hl.1.trans (Nat.le_add_right _ _)
        · rw [List.length_append, List.length_singleton]
          have := hl.2.1
          omega
        · rw [List.forall_mem_append]
          exact ⟨hl.2.2, fun g' hg' => List.mem_singleton.mp hg' ▸ hg⟩
      · exact yields_pure ⟨hl.1, hl.2.1.trans (Nat.le_succ _), hl.2.2⟩
    · obtain ⟨hlow, hhigh, hbetween⟩ := hl
      have hsmall := hs.tMin_le
      have hbig := hb.le_tMax
      rw [List.length_map, List.length_range] at hhigh
      exact ⟨by omega, by omega, hbetween⟩
  unfold complete
  by_cases hgt : dna1.length > dna2.length
  · rw [if_pos hgt]
    exact hloop dna1 dna2 h1 h2 hgt.le (by omega)
  · rw [if_neg hgt]
    exact hloop dna2 dna1 h2 h1 (not_lt.mp hgt) (by omega)

theorem decode_dna {x y : Subject} (h : decode p x = some y) : y.dna = x.dna := by
  unfold decode at h
  obtain ⟨l, _, rfl⟩ := Option.map_eq_some_iff.mp h
  rfl

/-- The individual has been decoded with its genome. -/
def Born (p : Specie) (c : Subject) : Prop := ∃ x : Subject, Drawn p x.dna ∧ decode p x = some c

theorem Born.drawn {c : Subject} (h : Born p c) : Drawn p c.dna := by
  obtain ⟨x, hx, hc⟩ := h
  rw [decode_dna hc]
  exact hx

theorem yields_generate (parent : Subject) (ref : ℕ) {dna : List Gene} (hdna : Drawn p dna) :
    Yields (generate p parent ref dna) (Born p) := by
  unfold generate
  cases p.version with
  | ros => exact yields_bind fun _ => yields_attempt fun _ h => ⟨_, hdna, h⟩
  | v2_3 => exact yields_attempt fun _ h => ⟨_, hdna, h⟩

theorem yields_crossover {parent1 parent2 : Subject} (h1 : Drawn p parent1.dna)
    (h2 : Drawn p parent2.dna) (ref : ℕ) : Yields (crossover p parent1 parent2 ref) (Born p) := by
  unfold crossover
  refine (yields_choice _).bind fun cross hcross => ?_
  have hyields : Yields (cross parent1.dna parent2.dna)
      (fun dna => dna.length = min parent1.dna.length parent2.dna.length ∧ ∀ g ∈ dna, g.Between p) := by
    rcases List.mem_pair.mp hcross with rfl | rfl
    · exact yields_ox h1 h2
    · exact yields_blxAlpha p _ _
  exact hyields.bind fun _ hdna => (yields_complete h1 h2 hdna.1 hdna.2).bind fun _ hdna' =>
    yields_generate parent1 ref hdna'

/-! ### Mutation -/

/-- Both genomes of a mutation, the one left in place and the new one. -/
def Mutated (p : Specie) (r : List Gene × Option (List Gene)) : Prop := Drawn p r.1 ∧ ∀ dna ∈ r.2, Drawn p dna

/-- A mutation that makes each gene anew. -/
theorem mutated_of_mapM {dna newDna : List Gene} (hdna : Drawn p dna) (hlen : newDna.length = dna.length)
    (hbetween : ∀ g ∈ newDna, g.Between p) : Mutated p (dna, some newDna) := by
  refine ⟨hdna, ?_⟩
  rintro _ ⟨⟩
  exact ⟨hlen ▸ hdna.tMin_le, hlen ▸ hdna.le_tMax, hbetween⟩

theorem yields_mutationChange {dna : List Gene} (hdna : Drawn p dna) :
    Yields (mutationChange p dna) (Mutated p) := by
  unfold mutationChange
  refine (yields_mapM_forall (Q := Gene.Between p) fun g hg => yields_bind fun u => ?_).bind fun newDna hnew =>
    yields_pure (mutated_of_mapM hdna hnew.1 hnew.2)
  split
  · exact yields_buildGene p
  · exact yields_pure (hdna.between g hg)

theorem yields_mute (val minVal maxVal : ℝ) : Yields (mute val minVal maxVal) (fun x => x ∈ Set.uIcc minVal maxVal) :=
  yields_bind fun _ => yields_bind fun _ => yields_pure (clamp_mem _ _ _)

theorem yields_mutationCreep {dna : List Gene} (hdna : Drawn p dna) :
    Yields (mutationCreep p dna) (Mutated p) := by
  unfold mutationCreep
  refine (yields_mapM_forall (Q := Gene.Between p) fun g _ => ?_).bind fun newDna hnew =>
    yields_pure (mutated_of_mapM hdna hnew.1 hnew.2)
  exact (yields_mute g.a _ _).bind fun _ ha => (yields_mute g.e _ _).bind fun _ he => yields_pure ⟨ha, he⟩

theorem yields_mutationRemove {dna : List Gene} (hdna : Drawn p dna) : Yields (mutationRemove p dna) (Mutated p) := by
  unfold mutationRemove
  split
  · next hlen =>
      refine (yields_randint _ _).bind fun i hi => yields_pure ?_
      have hlt : i.toNat < dna.length := by omega
      have hmax := hdna.le_tMax
      have hkept : Drawn p (dna.eraseIdx i.toNat) := by
        refine ⟨?_, ?_, fun g hg => hdna.between g (List.mem_of_mem_eraseIdx hg)⟩
        · rw [List.length_eraseIdx_of_lt hlt]
          omega
        · rw [List.length_eraseIdx_of_lt hlt]
          omega
      refine ⟨hkept, ?_⟩
      rintro _ ⟨⟩
      exact hkept
  · exact yields_pure ⟨hdna, by simp⟩

theorem yields_mutationInsert {dna : List Gene} (hdna : Drawn p dna) :
    Yields (mutationInsert p dna) (Mutated p) := by
  unfold mutationInsert
  split
  · next hlen =>
      refine (yields_randint _ _).bind fun i hi => (yields_buildGene p).bind fun gene hgene => yields_pure ?_
      have hle : i.toNat ≤ dna.length := by omega
      have hmin := hdna.tMin_le
      have hgrown : Drawn p (dna.insertIdx i.toNat gene) := by
        refine ⟨?_, ?_, fun g hg => ?_⟩
        · rw [List.length_insertIdx_of_le_length hle]
          omega
        · rw [List.length_insertIdx_of_le_length hle]
          omega
        · rcases (List.mem_insertIdx hle).mp hg with rfl | hg
          · exact hgene
          · exact hdna.between g hg
      refine ⟨hgrown, ?_⟩
      rintro _ ⟨⟩
      exact hgrown
  · exact yields_pure ⟨hdna, by simp⟩

/-- A mutation decodes the individual again, unless it leaves no genes or changes nothing. -/
theorem yields_mutation {c : Subject} (hc : Drawn p c.dna) :
    Yields (mutation p c) (fun c' => Born p c' ∨ Drawn p c'.dna ∧ c'.dnaDecoded = c.dnaDecoded) := by
  unfold mutation
  refine yields_bind fun u => ?_
  split
  · refine (yields_choice _).bind fun mutate hmutate => ?_
    have hyields : Yields (mutate c.dna) (Mutated p) := by
      simp only [List.mem_cons, List.not_mem_nil, or_false] at hmutate
      rcases hmutate with rfl | rfl | rfl | rfl
      · exact yields_mutationRemove hc
      · exact yields_mutationInsert hc
      · exact yields_mutationCreep hc
      · exact yields_mutationChange hc
    refine hyields.bind fun r hr => ?_
    split
    · next g newDna => exact yields_attempt fun c' hc' => Or.inl ⟨_, hr.2 _ rfl, hc'⟩
    · exact yields_pure (Or.inr ⟨hr.1, rfl⟩)
  · exact yields_pure (Or.inr ⟨hc, rfl⟩)

end specie

/-! ### What all individuals have -/

/-- Whatever makes or changes an individual keeps the property. -/
structure Inherited (p : Planner) (P : Subject → Prop) : Prop where
  spawned : ∀ nextRef currentId generation n,
    Yields (genesis p nextRef currentId generation n) (fun subjects => ∀ x ∈ subjects, P x)
  decoded : ∀ {x d : Subject}, P x → decode p.specie x = some d → P d
  crossed : ∀ {x y : Subject}, P x → P y → ∀ ref, Yields (crossover p.specie x y ref) P
  mutated : ∀ {x : Subject}, P x → Yields (mutation p.specie x) P
  registered : ∀ {x : Subject}, P x → ∀ generation id parents, P { x with generation, id, parents }

/-- All individuals of a state have the property. -/
structure Everyone (P : Subject → Prop) (s : State) : Prop where
  evaluated : ∀ x ∈ s.evaluated, P x.toSubject
  population : ∀ x ∈ s.population, P x.toSubject
  best : P s.best.toSubject

theorem rate_toSubject {x : Subject} {y : Rated} (h : rate p x = some y) : y.toSubject = x := by
  unfold rate at h
  obtain ⟨_, _, h⟩ := Option.bind_eq_some_iff.mp h
  obtain ⟨_, _, h⟩ := Option.bind_eq_some_iff.mp h
  obtain ⟨_, _, h⟩ := Option.bind_eq_some_iff.mp h
  cases h
  rfl

/-- The evaluated individuals are those given, decoded and rated. -/
theorem exists_of_mem_evaluate {subjects : List Subject} {population : List Rated}
    (h : evaluate p subjects = some population) {y : Rated} (hy : y ∈ population) :
    ∃ x ∈ subjects, ∃ d, decode p.specie x = some d ∧ rate p d = some y := by
  obtain ⟨decoded, hdecoded, hrated⟩ := Option.bind_eq_some_iff.mp h
  obtain ⟨d, hd, hy⟩ := Lists.mem_of_mapM hrated y hy
  obtain ⟨x, hx, hxd⟩ := Lists.mem_of_mapM hdecoded d hd
  exact ⟨x, hx, d, hxd, hy⟩

theorem length_of_genesis {nextRef currentId generation n : ℕ} {ω ω' : Tape} {subjects : List Subject}
    (h : (genesis p nextRef currentId generation n).run ω = some (subjects, ω')) : subjects.length = n := by
  have hlen := (yields_mapM_forall (Q := fun _ => True) (fun _ _ _ _ _ _ => trivial) _ _ _ h).1
  rwa [List.length_range] at hlen

theorem length_of_evaluate {subjects : List Subject} {population : List Rated}
    (h : evaluate p subjects = some population) : population.length = subjects.length := by
  obtain ⟨decoded, hdecoded, hrated⟩ := Option.bind_eq_some_iff.mp h
  rw [Lists.length_of_mapM hrated, Lists.length_of_mapM hdecoded]

theorem registered_dna (p : Planner) (s : State) (child parent other : Rated) :
    (registered p s child parent other).dna = child.dna := by
  unfold registered
  cases p.specie.version <;> rfl

section inherited
variable {P : Subject → Prop}

theorem Inherited.evaluate (hP : Inherited p P) {subjects : List Subject} {population : List Rated}
    (h : evaluate p subjects = some population) (hsub : ∀ x ∈ subjects, P x) : ∀ y ∈ population, P y.toSubject := by
  intro y hy
  obtain ⟨x, hx, d, hd, hrate⟩ := exists_of_mem_evaluate h hy
  rw [rate_toSubject hrate]
  exact hP.decoded (hsub x hx) hd

theorem everyone_start (hP : Inherited p P) {maxExecTime : Option ℝ} {now : ℝ} {ω ω' : Tape}
    (hs : (start p maxExecTime now).run ω = some (s, ω')) : Everyone P s := by
  obtain ⟨subjects, population, best, hgen, hev, hbest, rfl⟩ := start_eq_some.mp hs
  have hpop := hP.evaluate hev (hP.spawned _ _ _ _ _ _ _ hgen)
  exact ⟨hpop, hpop, hpop best (selectBest_spec hbest).1⟩

theorem everyone_restart (hP : Inherited p P) (he : Everyone P s) {ω ω' : Tape}
    (hr : (restart p s).run ω = some (s', ω')) : Everyone P s' := by
  cases hv : p.specie.version with
  | ros =>
      obtain ⟨subjects, newcomers, best, hdraw, hnew, hsel, rfl⟩ := (restart_ros hv).mp hr
      have hnewcomers := hP.evaluate hnew (hP.spawned _ _ _ _ _ _ _ hdraw)
      have hpop : ∀ x ∈ newcomers ++ [s.best], P x.toSubject := by
        rw [List.forall_mem_append, List.forall_mem_singleton]
        exact ⟨hnewcomers, he.best⟩
      exact ⟨List.forall_mem_append.mpr ⟨he.evaluated, hnewcomers⟩, hpop, hpop best (selectBest_spec hsel).1⟩
  | v2_3 =>
      obtain ⟨subjects, population, best, hdraw, hnew, hlast, rfl⟩ := restart_v2_3 hv hr
      have hsub : ∀ x ∈ subjects ++ [s.best.toSubject], P x := by
        rw [List.forall_mem_append, List.forall_mem_singleton]
        exact ⟨hP.spawned _ _ _ _ _ _ _ hdraw, he.best⟩
      have hpop := hP.evaluate hnew hsub
      exact ⟨List.forall_mem_append.mpr ⟨he.evaluated, hpop⟩, hpop, hpop best (List.mem_of_getLast? hlast)⟩

/-- The child of a pass. -/
theorem yields_breed (hP : Inherited p P) (he : Everyone P s) : Yields (breed p s) (fun r => P r.2.2.toSubject) := by
  refine (yields_tournament s.population p.kTournament).bind fun parents hpar => ?_
  have h1 := he.population parents.1 hpar.1
  have h2 := he.population parents.2 hpar.2
  refine (hP.crossed h1 h2 s.nextRef).bind fun c hc => (hP.mutated hc).bind fun c' hc' => ?_
  refine (yields_attempt (P := fun child : Rated => P child.toSubject) fun child hchild => ?_).bind
    fun child hchild => yields_pure hchild
  rw [rate_toSubject hchild]
  exact hc'

theorem Inherited.registered_toSubject (hP : Inherited p P) {child : Rated} (h : P child.toSubject) (s : State)
    (parent other : Rated) : P (Genetic.registered p s child parent other).toSubject := by
  unfold Genetic.registered
  cases p.specie.version with
  | ros => exact hP.registered h _ _ _
  | v2_3 => exact h

theorem everyone_of_inserted (hP : Inherited p P) (he : Everyone P s) {child parent1 parent2 : Rated}
    (hchild : P child.toSubject) (h : Inserted p s child parent1 parent2 s') : Everyone P s' := by
  have hcrown : ∀ (t : State) (c : Rated), Everyone P t → P c.toSubject → Everyone P (t.crown c) := by
    intro t c ht hc
    refine ⟨ht.evaluated, ht.population, ?_⟩
    rcases t.crown_best c with heq | heq <;> rw [heq]
    · exact hc
    · exact ht.best
  cases h with
  | refused => exact hcrown _ _ he hchild
  | replaces =>
      refine hcrown _ _ ⟨he.evaluated, ?_, he.best⟩ (hP.registered_toSubject hchild s _ _)
      rw [List.forall_mem_append, List.forall_mem_singleton]
      exact ⟨fun x hx => he.population x (List.mem_of_mem_eraseP hx), hP.registered_toSubject hchild s _ _⟩

theorem everyone_step (hP : Inherited p P) {t : Tick} (hs : step p s t = some s') (he : Everyone P s) :
    Everyone P s' := by
  cases moves_of_step hs with
  | stop => exact ⟨he.evaluated, he.population, he.best⟩
  | epoch => exact ⟨he.evaluated, he.population, he.best⟩
  | restart hloc hconv hr =>
      have hkept := everyone_restart hP he hr
      exact ⟨hkept.evaluated, hkept.population, hkept.best⟩
  | generation => exact ⟨he.evaluated, he.population, he.best⟩
  | pass hloc hr =>
      obtain ⟨parent1, parent2, child, hbreed, hins⟩ := crossPass_inserted hr
      have hchild : P child.toSubject := yields_breed hP he _ _ _ hbreed
      have hrated : Everyone P { s with nextRef := s.nextRef + 1, evaluated := s.evaluated ++ [child] } :=
        ⟨List.forall_mem_append.mpr ⟨he.evaluated, List.forall_mem_singleton.mpr hchild⟩, he.population, he.best⟩
      have hkept := everyone_of_inserted hP hrated hchild hins
      exact ⟨hkept.evaluated, hkept.population, hkept.best⟩
  | finish => exact ⟨he.evaluated, he.population, he.best⟩

/-- **Individuals.**  What is inherited holds of all individuals, in every state of every run. -/
theorem everyone_run (hP : Inherited p P) {maxExecTime : Option ℝ} {now : ℝ} {ω ω' : Tape}
    (hs : (start p maxExecTime now).run ω = some (s, ω')) (ticks : List Tick) :
    Always (step p) (Everyone P) s ticks :=
  always_of_step (fun _ _ _ => everyone_step hP) (everyone_start hP hs) ticks

end inherited

/-! ### The run -/

theorem yields_genesis (p : Planner) (nextRef currentId generation n : ℕ) :
    Yields (genesis p nextRef currentId generation n)
      (fun subjects => ∀ x ∈ subjects, Drawn p.specie x.dna ∧ x.dnaDecoded = []) := by
  unfold genesis
  refine (yields_mapM_forall (Q := fun x : Subject => Drawn p.specie x.dna ∧ x.dnaDecoded = [])
    fun i _ => ?_).mono fun _ h => h.2
  refine (yields_spawn p.specie).bind fun dna hdna => yields_pure ?_
  cases p.specie.version <;> exact ⟨hdna, rfl⟩

/-- The genomes are what the programs make of the limits. -/
theorem inherited_drawn (p : Planner) : Inherited p (fun x => Drawn p.specie x.dna) where
  spawned _ _ _ _ := (yields_genesis p _ _ _ _).mono fun _ h x hx => (h x hx).1
  decoded h hd := (decode_dna hd).symm ▸ h
  crossed h1 h2 ref := (yields_crossover h1 h2 ref).mono fun _ hc => hc.drawn
  mutated h := (yields_mutation h).mono fun _ hc => hc.elim Born.drawn And.left
  registered h _ _ _ := h

/-- All individuals of a state have a genome within its limits. -/
structure Bounded (p : Planner) (s : State) : Prop where
  evaluated : ∀ x ∈ s.evaluated, Genome p.specie x.dna
  population : ∀ x ∈ s.population, Genome p.specie x.dna
  best : Genome p.specie s.best.dna

theorem bounded_run (h : p.specie.Proper) {maxExecTime : Option ℝ} {now : ℝ} {ω ω' : Tape}
    (hs : (start p maxExecTime now).run ω = some (s, ω')) (ticks : List Tick) :
    Always (step p) (Bounded p) s ticks :=
  (everyone_run (inherited_drawn p) hs ticks).mono fun _ he =>
    ⟨fun x hx => (he.evaluated x hx).genome h, fun x hx => (he.population x hx).genome h, he.best.genome h⟩

/-- **Genomes.**  In every run, with every sequence of random choices, all individuals evaluated have
between `T_min` and `T_max` genes, each within its limits. -/
theorem genome_run (h : p.specie.Proper) {maxExecTime : Option ℝ} {now : ℝ} {ω ω' : Tape}
    (hs : (start p maxExecTime now).run ω = some (s, ω')) (ticks : List Tick) :
    Always (step p) (fun s => ∀ x ∈ s.evaluated, Genome p.specie x.dna) s ticks :=
  (bounded_run h hs ticks).mono fun _ hb => hb.evaluated

theorem proper_openPlanner (n : ℕ) : (openPlanner n).specie.Proper := by
  constructor <;> norm_num [openPlanner, Planner.default, Specie.default]

theorem genome_run_two : ∃ s ω, (start (openPlanner 2) none 0).run twoTape = some (s, ω) ∧ ∀ ticks,
    Always (step (openPlanner 2)) (fun s => ∀ x ∈ s.evaluated, Genome (openPlanner 2).specie x.dna) s ticks := by
  obtain ⟨s, ω, hs, _⟩ := start_two
  exact ⟨s, ω, hs, genome_run (proper_openPlanner 2) hs⟩

end DroneArch.Genetic
