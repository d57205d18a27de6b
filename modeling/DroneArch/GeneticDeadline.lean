import DroneArch.GeneticCache

/-! # The time limit of the genetic planner

`genetic.py` tests `stop_criteria` before the inner loop only.  The inner loop goes on as long as each
generation brings a newborn, whatever the time.

* `deadline_run`: when every generation after the deadline ends without a newborn, at most one is
  begun there; and a run that returns with at most one has no other. -/

namespace DroneArch.Genetic

open RandomChoices Runs

variable {p : Planner} {s s' : State}

noncomputable section

/-- A run with the clock, and with a count that the code does not keep. -/
structure Watched where
  state : State
  /-- The last reading of the clock. -/
  now : ℝ
  /-- The generations begun at or after the deadline. -/
  lateGenerations : ℕ

/-- A generation begins at or after the deadline. -/
def beginsLate (s : State) (t : Tick) : Bool :=
  match s.loc with
  | .inner => !converge s && stopCriteria s t.now
  | _ => false

def watch (p : Planner) (w : Watched) (t : Tick) : Option Watched :=
  (step p w.state t).map (fun s => ⟨s, t.now, w.lateGenerations + (beginsLate w.state t).toNat⟩)

end

/-- A generation that ends after the deadline has brought no newborn. -/
def SettlesLate (w : Watched) (_ : Tick) : Prop :=
  w.state.loc = .crossing 0 → 0 < w.lateGenerations → w.state.flagNewborn = 0

variable {w w' : Watched} {t : Tick}

/-- A watched run is a run. -/
theorem run_watch (w : Watched) (ticks : List Tick) :
    (run (watch p) w ticks).map Watched.state = run (step p) w.state ticks :=
  run_map (fun w t => by
    rw [watch, Option.map_map]
    exact congrFun Option.map_id (step p w.state t)) w ticks

theorem watch_eq_some : watch p w t = some w' ↔ ∃ s', step p w.state t = some s' ∧
    w' = ⟨s', t.now, w.lateGenerations + (beginsLate w.state t).toNat⟩ := by
  unfold watch
  rw [Option.map_eq_some_iff]
  simp only [eq_comm]

theorem watch_of_step (h : step p w.state t = some s') :
    watch p w t = some ⟨s', t.now, w.lateGenerations + (beginsLate w.state t).toNat⟩ :=
  watch_eq_some.mpr ⟨s', h, rfl⟩

/-! ### The clock -/

/-- A step leaves the time of the start and the limit as they are. -/
theorem times_of_step (h : step p s t = some s') : s'.startTime = s.startTime ∧ s'.maxExecTime = s.maxExecTime := by
  cases moves_of_step h with
  | stop => exact ⟨rfl, rfl⟩
  | epoch => exact ⟨rfl, rfl⟩
  | restart hloc hconv hr =>
      cases hv : p.specie.version with
      | ros =>
          obtain ⟨_, _, _, _, _, _, rfl⟩ := (restart_ros hv).mp hr
          exact ⟨rfl, rfl⟩
      | v2_3 =>
          obtain ⟨_, _, _, _, _, _, rfl⟩ := restart_v2_3 hv hr
          exact ⟨rfl, rfl⟩
  | generation => exact ⟨rfl, rfl⟩
  | pass hloc hr =>
      obtain ⟨_, _, _, _, hins⟩ := crossPass_inserted hr
      cases hins with
      | refused => exact ⟨rfl, rfl⟩
      | replaces => exact ⟨rfl, rfl⟩
  | finish => exact ⟨rfl, rfl⟩

/-- The deadline stays behind. -/
theorem stopCriteria_mono {now now' : ℝ} (hle : now ≤ now') (hstop : stopCriteria s now = true) :
    stopCriteria s now' = true := by
  have hge := of_decide_eq_true hstop
  exact decide_eq_true (by linarith)

theorem stopCriteria_of_step (h : step p s t = some s') (now : ℝ) : stopCriteria s' now = stopCriteria s now := by
  obtain ⟨hstart, hmax⟩ := times_of_step h
  unfold stopCriteria
  rw [hstart, hmax]

/-- Along a clock that does not go back, no step reads less than the step before. -/
theorem each_clock {ticks : List Tick} (hclock : (w.now :: ticks.map Tick.now).IsChain (· ≤ ·)) :
    Each (watch p) (fun w t => w.now ≤ t.now) w ticks := by
  induction ticks generalizing w with
  | nil => trivial
  | cons t ticks ih =>
      intro w' hw
      obtain ⟨s', hs, rfl⟩ := watch_eq_some.mp hw
      rw [List.map_cons, List.isChain_cons_cons] at hclock
      exact ⟨hclock.1, ih hclock.2⟩

/-! ### The run -/

/-- Once a generation was begun late, the deadline is over. -/
def Past (w : Watched) : Prop := 0 < w.lateGenerations → stopCriteria w.state w.now = true

/-- What a run keeps whose late generations bring no newborn. -/
structure Settled (w : Watched) : Prop where
  past : Past w
  le_one : w.lateGenerations ≤ 1
  /-- The inner loop ends after a late generation. -/
  inner : w.state.loc = .inner → 0 < w.lateGenerations → w.state.flagNewborn = 0

theorem beginsLate_inner {s : State} (hloc : s.loc = .inner) (t : Tick) :
    beginsLate s t = (!converge s && stopCriteria s t.now) := by
  unfold beginsLate
  rw [hloc]

theorem loc_of_beginsLate {s : State} {t : Tick} (h : beginsLate s t = true) : s.loc = .inner := by
  unfold beginsLate at h
  split at h
  · assumption
  · cases h

theorem past_step (hw : watch p w t = some w') (hle : w.now ≤ t.now) (h : Past w) : Past w' := by
  obtain ⟨s', hs, rfl⟩ := watch_eq_some.mp hw
  intro hpos
  cases hlate : beginsLate w.state t with
  | true =>
      rw [beginsLate_inner (loc_of_beginsLate hlate), Bool.and_eq_true] at hlate
      exact (stopCriteria_of_step hs t.now).trans hlate.2
  | false =>
      simp only [hlate, Bool.toNat_false, Nat.add_zero] at hpos
      exact (stopCriteria_of_step hs t.now).trans (stopCriteria_mono hle (h hpos))

theorem settled_step (hw : watch p w t = some w') (h : Settled w) (hle : w.now ≤ t.now) (hsettles : SettlesLate w t) :
    Settled w' := by
  have hpast := past_step hw hle h.past
  obtain ⟨s', hs, rfl⟩ := watch_eq_some.mp hw
  -- a step that begins no generation late
  have hquiet : beginsLate w.state t = false → (s'.loc = .inner → 0 < w.lateGenerations → s'.flagNewborn = 0) →
      Settled ⟨s', t.now, w.lateGenerations + (beginsLate w.state t).toNat⟩ := by
    intro hlate hinner
    refine ⟨hpast, ?_, ?_⟩ <;> rw [hlate]
    · exact h.le_one
    · exact hinner
  have hother : w.state.loc ≠ .inner → beginsLate w.state t = false := fun hne =>
    Bool.eq_false_iff.mpr (mt loc_of_beginsLate hne)
  cases moves_of_step hs with
  | stop hloc => exact hquiet (hother (by rw [hloc]; simp)) (by simp)
  | epoch hloc hgo =>
      refine hquiet (hother (by rw [hloc]; simp)) fun _ hpos => ?_
      -- the test of the outer loop is after the deadline
      have hstop := stopCriteria_mono hle (h.past hpos)
      exact (nomatch hgo.symm.trans hstop)
  | restart hloc hconv => exact hquiet (by rw [beginsLate_inner hloc, hconv]; rfl) (by simp)
  | generation hloc hgo =>
      refine ⟨hpast, ?_, by simp⟩
      have hzero : w.lateGenerations = 0 := by
        by_contra hne
        have hconv := decide_eq_true (h.inner hloc (Nat.pos_of_ne_zero hne))
        exact (nomatch hgo.symm.trans hconv)
      rw [hzero, Nat.zero_add]
      exact Bool.toNat_le _
  | pass hloc => exact hquiet (hother (by rw [hloc]; simp)) (by simp)
  | finish hloc => exact hquiet (hother (by rw [hloc]; simp)) fun _ => hsettles hloc

/-- The count does not go back. -/
theorem lateGenerations_le_of_run {ticks : List Tick} (h : run (watch p) w ticks = some w') :
    w.lateGenerations ≤ w'.lateGenerations := by
  refine run_invariant (P := fun v => w.lateGenerations ≤ v.lateGenerations) (fun v t v' hv hle => ?_) le_rfl h
  obtain ⟨s', _, rfl⟩ := watch_eq_some.mp hv
  exact hle.trans (Nat.le_add_right _ _)

/-- A late generation with a newborn is followed by another one, if the run returns. -/
theorem settles_of_returned {ticks : List Tick} (hclock : (w.now :: ticks.map Tick.now).IsChain (· ≤ ·)) (hpast : Past w)
    (hrun : run (watch p) w ticks = some w') (hret : w'.state.loc = .returned) (hle : w'.lateGenerations ≤ 1) :
    Each (watch p) SettlesLate w ticks := by
  induction ticks generalizing w with
  | nil => trivial
  | cons t ticks ih =>
      intro w₁ hw₁
      have hle₁ := (List.isChain_cons_cons.mp hclock).1
      obtain ⟨_, hw, hrest⟩ := run_cons_eq_some hrun
      cases hw₁.symm.trans hw
      have hpast₁ := past_step hw₁ hle₁ hpast
      obtain ⟨s₁, hs₁, rfl⟩ := watch_eq_some.mp hw₁
      refine ⟨fun hloc hpos => ?_, ih (List.isChain_cons_cons.mp hclock).2 hpast₁ hrest⟩
      by_contra hflag
      have hinner : s₁.loc = .inner ∧ s₁.flagNewborn = w.state.flagNewborn := by
        cases moves_of_step hs₁ with
        | finish => exact ⟨rfl, rfl⟩
        | stop h | epoch h | restart h | generation h | pass h => exact (nomatch hloc.symm.trans h)
      cases ticks with
      | nil =>
          cases hrest
          exact (nomatch hinner.1.symm.trans hret)
      | cons t₂ ticks =>
          obtain ⟨w₂, hw₂, hlast⟩ := run_cons_eq_some hrest
          have hle₂ : t.now ≤ t₂.now := (List.isChain_cons_cons.mp (List.isChain_cons_cons.mp hclock).2).1
          have hconv : converge s₁ = false := decide_eq_false (hinner.2 ▸ hflag)
          have hlate : beginsLate s₁ t₂ = true := by
            rw [beginsLate_inner hinner.1, hconv, stopCriteria_mono hle₂ (hpast₁ (Nat.lt_add_right _ hpos))]
            rfl
          -- the two late generations
          obtain ⟨s₂, _, rfl⟩ := watch_eq_some.mp hw₂
          have htwo := lateGenerations_le_of_run hlast
          simp only [hlate, Bool.toNat_true] at htwo
          omega

/-- **Deadline.**  In every run whose generations after the deadline end without a newborn, at most
one generation is begun at or after it; and a run that returns with at most one is such a run. -/
theorem deadline_run (p : Planner) (s : State) (now : ℝ) (ticks : List Tick)
    (hclock : (now :: ticks.map Tick.now).IsChain (· ≤ ·)) :
    (Each (watch p) SettlesLate ⟨s, now, 0⟩ ticks → Always (watch p) (fun w => w.lateGenerations ≤ 1) ⟨s, now, 0⟩ ticks) ∧
      ∀ w, run (watch p) ⟨s, now, 0⟩ ticks = some w → w.state.loc = .returned → w.lateGenerations ≤ 1 →
        Each (watch p) SettlesLate ⟨s, now, 0⟩ ticks := by
  constructor
  · intro hsettles
    have hstart : Settled ⟨s, now, 0⟩ := ⟨fun h => (nomatch h), Nat.zero_le 1, fun _ h => (nomatch h)⟩
    have hsettled : Always (watch p) Settled ⟨s, now, 0⟩ ticks :=
      always_of_each (fun _ _ _ hw h hq => settled_step hw h hq.1 hq.2) hstart ((each_clock hclock).and hsettles)
    exact hsettled.mono fun _ h => h.le_one
  · intro w hrun hret hle
    exact settles_of_returned hclock (fun h => (nomatch h)) hrun hret hle

/-- A generation that begins at the deadline and brings no newborn, the restart after it and the test
that ends the run. -/
theorem deadline_run_late : ∃ (s : State) (ω : Tape) (ticks : List Tick) (w : Watched),
    (start (smallPlanner 2 1 0 (1 / 2)) none 0).run twoTape = some (s, ω) ∧
    run (watch (smallPlanner 2 1 0 (1 / 2))) ⟨s, 0, 0⟩ ticks = some w ∧ w.state.loc = .returned ∧
    w.lateGenerations = 1 ∧
    Always (watch (smallPlanner 2 1 0 (1 / 2))) (fun w => w.lateGenerations ≤ 1) ⟨s, 0, 0⟩ ticks := by
  obtain ⟨x, y, hx, hfx, hy, hfy, hstart⟩ := start_small_two (1 / 2)
  let s₀ := firstState (smallPlanner 2 1 0 (1 / 2)) none 0 [x, y] y
  let t : Tick := ⟨1, passTape lowest lowest lowest⟩
  let t' : Tick := ⟨1, Stream'.cons lowest (Stream'.cons middle (Stream'.cons lowest (Stream'.const lowest)))⟩
  have hstop : stopCriteria s₀ 1 = true := by
    norm_num [stopCriteria, s₀, firstState, execTime, smallPlanner, openPlanner, Planner.default, Specie.default]
  have hxdna : x.dna = [⟨0, 0⟩] := by
    rw [hx]
    rfl
  have hlt : (30010 : ℝ) < s₀.best.fitness := by
    have hbest : s₀.best.fitness = 30110 := hfy
    rw [hbest]
    norm_num
  -- the test of the outer loop is before the deadline, and the first generation at it
  let s₁ : State := { s₀ with flagNewborn := 2, loc := .inner }
  let s₂ : State := { s₀ with flagNewborn := 0, generation := s₀.generation + 1, loc := .crossing 1 }
  have h₁ : step (smallPlanner 2 1 0 (1 / 2)) s₀ ⟨0, passTape lowest lowest lowest⟩ = some s₁ := step_of_moves (.epoch rfl (by
    norm_num [stopCriteria, s₀, firstState, execTime, smallPlanner, openPlanner, Planner.default, Specie.default]))
  have h₂ : step (smallPlanner 2 1 0 (1 / 2)) s₁ t = some s₂ := step_generation_small (by norm_num) rfl rfl
  obtain ⟨c, s₃, h₃, _, hfc, hs₃⟩ := run_refused_small (s := s₂) rfl rfl hxdna hfx hlt 1
  have hfields : s₃.loc = .crossing 0 ∧ s₃.flagNewborn = 0 ∧ s₃.best = c := by
    rw [hs₃]
    exact ⟨rfl, rfl, rfl⟩
  obtain ⟨hloc, hflag, hbest⟩ := hfields
  have h₄ : step (smallPlanner 2 1 0 (1 / 2)) s₃ t = some { s₃ with loc := .inner } :=
    step_of_moves (.finish hloc (fun h => by cases h))
  obtain ⟨z, h₅, _⟩ := step_restart_small (s := { s₃ with loc := .inner }) rfl hflag (by rw [← hfc, ← hbest]) 1
  let s₅ : State := { restarted (smallPlanner 2 1 0 (1 / 2)) { s₃ with loc := .inner } [z] z with loc := .outer }
  have h₆ : step (smallPlanner 2 1 0 (1 / 2)) s₅ t = some { s₅ with loc := .returned } := by
    refine step_of_moves (.stop rfl ?_)
    have hstop₃ := (stopCriteria_of_step h₃ 1).trans hstop
    exact (stopCriteria_of_step h₅ 1).trans hstop₃
  -- only the second step begins a generation at the deadline
  have k₁ : watch (smallPlanner 2 1 0 (1 / 2)) ⟨s₀, 0, 0⟩ ⟨0, passTape lowest lowest lowest⟩ = some ⟨s₁, 0, 0⟩ :=
    watch_of_step h₁
  have k₂ : watch (smallPlanner 2 1 0 (1 / 2)) ⟨s₁, 0, 0⟩ t = some ⟨s₂, 1, 1⟩ := by
    have hlate : beginsLate s₁ t = true := hstop
    rw [watch_of_step h₂, hlate]
    rfl
  have k₃ : watch (smallPlanner 2 1 0 (1 / 2)) ⟨s₂, 1, 1⟩ t = some ⟨s₃, 1, 1⟩ := watch_of_step h₃
  have k₄ : watch (smallPlanner 2 1 0 (1 / 2)) ⟨s₃, 1, 1⟩ t = some ⟨{ s₃ with loc := .inner }, 1, 1⟩ := by
    have hearly : beginsLate s₃ t = false := by
      unfold beginsLate
      rw [hloc]
    rw [watch_of_step h₄, hearly]
    rfl
  have k₅ : watch (smallPlanner 2 1 0 (1 / 2)) ⟨{ s₃ with loc := .inner }, 1, 1⟩ t' = some ⟨s₅, 1, 1⟩ := by
    have hearly : beginsLate { s₃ with loc := .inner } t' = false := by
      rw [beginsLate_inner rfl, converge, decide_eq_true hflag]
      rfl
    rw [watch_of_step h₅, hearly]
    rfl
  have k₆ : watch (smallPlanner 2 1 0 (1 / 2)) ⟨s₅, 1, 1⟩ t = some ⟨{ s₅ with loc := .returned }, 1, 1⟩ := watch_of_step h₆
  refine ⟨s₀, _, [⟨0, passTape lowest lowest lowest⟩, t, t, t, t', t], ⟨{ s₅ with loc := .returned }, 1, 1⟩, hstart, ?_,
    rfl, rfl, (deadline_run _ s₀ 0 _ (by norm_num [t, t'])).1 ?_⟩
  · exact (run_cons_some k₁ _).trans ((run_cons_some k₂ _).trans ((run_cons_some k₃ _).trans
      ((run_cons_some k₄ _).trans ((run_cons_some k₅ _).trans (run_cons_some k₆ [])))))
  · intro w₁ hw₁
    cases k₁.symm.trans hw₁
    refine ⟨(fun h => by cases h), fun w₂ hw₂ => ?_⟩
    cases k₂.symm.trans hw₂
    refine ⟨(fun h => by cases h), fun w₃ hw₃ => ?_⟩
    cases k₃.symm.trans hw₃
    refine ⟨(fun h => by cases h), fun w₄ hw₄ => ?_⟩
    cases k₄.symm.trans hw₄
    -- the end of the late generation
    refine ⟨fun _ _ => hflag, fun w₅ hw₅ => ?_⟩
    cases k₅.symm.trans hw₅
    exact ⟨(fun h => by cases h), fun _ _ => ⟨(fun h => by cases h), trivial⟩⟩

/-! ### Generations after the deadline -/

/-- A pass whose child takes the place of a parent. -/
theorem step_newborn_small {s : State} (hloc : s.loc = .crossing 1) {x y : Rated} (hpop : s.population = [x, y])
    (hx : x.dna = [⟨0, 0⟩]) (hy : y.dna = [⟨0, -3⟩]) (hfy : y.fitness = 30110) (now : ℝ) :
    ∃ s', step (smallPlanner 2 1 0 (1 / 2)) s ⟨now, passTape middle lowest middle⟩ = some s' ∧ s'.loc = .crossing 0 ∧
      s'.flagNewborn = s.flagNewborn + 1 := by
  obtain ⟨child, hbreed, _, hfit⟩ := run_breed_small 2 (1 / 2) s middle lowest middle 0 (by norm_num [hpop, middle])
    (by simp [hpop, lowest]) hy hx (by norm_num [middle])
  norm_num at hfit
  obtain ⟨r, hr, hins⟩ := exists_crossPass hbreed
  refine ⟨_, step_of_moves (.pass hloc hr), rfl, ?_⟩
  cases hins with
  | refused h1 =>
      rw [hfit, hfy] at h1
      norm_num at h1
  | replaces => rfl

/-- The limit of one second is over at the first generation, which brings a newborn. -/
theorem deadline_fails : ¬ ∀ (p : Planner) (maxExecTime : Option ℝ) (now : ℝ) (ω ω' : Tape) (s : State)
    (ticks : List Tick), p.specie.version = .ros → (start p maxExecTime now).run ω = some (s, ω') →
    (now :: ticks.map Tick.now).IsChain (· ≤ ·) →
    Always (watch p) (fun w => w.lateGenerations ≤ 1) ⟨s, now, 0⟩ ticks := by
  intro hall
  obtain ⟨x, y, hx, _, hy, hfy, hstart⟩ := start_small_two (1 / 2)
  let s₀ := firstState (smallPlanner 2 1 0 (1 / 2)) none 0 [x, y] y
  let t₀ : Tick := ⟨0, Stream'.const lowest⟩
  let t : Tick := ⟨1, Stream'.const lowest⟩
  have hgo : stopCriteria s₀ t₀.now = false := by
    norm_num [stopCriteria, s₀, firstState, execTime, t₀, smallPlanner, openPlanner, Planner.default, Specie.default]
  have hstop : stopCriteria s₀ t.now = true := by
    norm_num [stopCriteria, s₀, firstState, execTime, t, smallPlanner, openPlanner, Planner.default, Specie.default]
  have hxdna : x.dna = [⟨0, 0⟩] := by
    rw [hx]
    rfl
  have hydna : y.dna = [⟨0, -3⟩] := by
    rw [hy]
    rfl
  -- the test of the outer loop, and the first generation
  have h₁ : step (smallPlanner 2 1 0 (1 / 2)) s₀ t₀ = some { s₀ with flagNewborn := 2, loc := .inner } :=
    step_of_moves (.epoch rfl hgo)
  have h₂ : step (smallPlanner 2 1 0 (1 / 2)) { s₀ with flagNewborn := 2, loc := .inner } t =
      some { s₀ with flagNewborn := 0, generation := s₀.generation + 1, loc := .crossing 1 } :=
    step_generation_small (by norm_num) rfl rfl
  obtain ⟨s₃, h₃, hloc, hflag⟩ := step_newborn_small
    (s := { s₀ with flagNewborn := 0, generation := s₀.generation + 1, loc := .crossing 1 }) rfl rfl hxdna hydna hfy 1
  have h₄ : step (smallPlanner 2 1 0 (1 / 2)) s₃ t = some { s₃ with loc := .inner } :=
    step_of_moves (.finish hloc (fun h => by cases h))
  -- the newborn makes room for another one
  have hconv : converge s₃ = false := decide_eq_false (by rw [hflag]; simp)
  have h₅ : step (smallPlanner 2 1 0 (1 / 2)) { s₃ with loc := .inner } t =
      some { s₃ with flagNewborn := 0, generation := s₃.generation + 1, loc := .crossing 1 } :=
    step_generation_small (by norm_num) rfl hconv
  have hlate₂ : beginsLate { s₀ with flagNewborn := 2, loc := .inner } t = true := by
    rw [beginsLate_inner rfl]
    exact hstop
  have hlate₅ : beginsLate { s₃ with loc := .inner } t = true := by
    have hstop₃ := (stopCriteria_of_step h₃ t.now).trans hstop
    rw [beginsLate_inner rfl, Bool.and_eq_true]
    exact ⟨by rw [Bool.not_eq_true']; exact hconv, hstop₃⟩
  have hrun := (run_cons_some (watch_of_step (w := ⟨s₀, 0, 0⟩) h₁) _).trans ((run_cons_some (watch_of_step h₂) _).trans
    ((run_cons_some (watch_of_step h₃) _).trans ((run_cons_some (watch_of_step h₄) _).trans
      (run_cons_some (watch_of_step h₅) []))))
  have hle := (hall _ none 0 _ _ s₀ _ rfl hstart (by norm_num [t₀, t])).last hrun
  simp only [hlate₂, hlate₅, Bool.toNat_true] at hle
  omega

end DroneArch.Genetic
