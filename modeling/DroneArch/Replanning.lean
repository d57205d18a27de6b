import DroneArch.JournalBattery
import DroneArch.JournalFlights
import DroneArch.JournalGoals
import DroneArch.KnowledgeBase

/-! # Replanning

The two scripts that write the planning problem of `domain_journal.pddl` into the knowledge
base: `create_pddl_global.py` before the mission (`createPddlGlobal`) and `update.py` when the
running plan is cancelled and a new one is needed (`update`).

A plan may start where `Entry` holds: `(can-go)`, one position, no `(at-move)`, no target.
The actions cancelled by `update.py` have had their start effects and get no end effects.

* `entry_update_iff`: after a cancel the repaired knowledge base is again an entry state
  exactly when, at the moment of the cancel, `(can-go)` holds, no target is set and no
  `go_to_base` is in execution.
* `update_numeric`: the battery, the input and the goals achieved keep the values they had
  before the plan. -/

namespace DroneArch.Journal

open Durative Runs Rosplan

/-- The goals of the problem. -/
inductive Goal (R : Type)
  | pulverized (region : R)
  | takenImage (region : R)
  | at_ (region : R)
deriving DecidableEq

/-- The fact a goal asks for. -/
def Goal.fact {R : Type} : Goal R → Fact R
  | .pulverized r => .pulverized r
  | .takenImage r => .takenImage r
  | .at_ r => .at_ r

def Goal.isAt {R : Type} : Goal R → Bool
  | .at_ _ => true
  | _ => false

def Fact.isAt {R : Type} : Fact R → Bool
  | .at_ _ => true
  | _ => false

/-- The knowledge base of the mission. -/
abbrev JKnowledge (R K : Type) : Type := KnowledgeBase (Fact R) (Fluent R) (Goal R) K

/-- The places of `mapa.json`. -/
structure Mapa (R : Type) where
  regions : List R
  bases : List R

/-- The entries of `hardware.json` that the problem uses. -/
structure Hardware (K : Type) where
  batteryCapacity : K
  efficientVelocity : K
  rechargeRateBattery : K
  dischargeRateBattery : K
  inputCapacity : K

/-- The areas of `missao.json` by command: `pulverize`, `take_picture` and `end`. -/
structure Objectives (R : Type) where
  pulverize : List R
  photo : List R
  finish : List R

section
variable {R K : Type} [DecidableEq R] [Field K] [LinearOrder K]

/-- The part both scripts share: the flags and the goals of the objectives.  The count of
goals `f` goes up by one with each. -/
def addObjectives (obj : Objectives R) (kb : JKnowledge R K) (f : K) : JKnowledge R K × K :=
  let kb := if obj.pulverize = [] then kb else kb.addFact .hasPulverizeGoal
  let kb := if obj.photo = [] then kb else kb.addFact .hasPictureGoal
  let kb := obj.pulverize.foldl (fun kb i =>
    ((kb.addFact (.pulverizeGoal i)).addFunction (.pulverizePathLen i) 314).addMissionGoal (.pulverized i)) kb
  let kb := obj.photo.foldl (fun kb i =>
    ((kb.addFact (.pictureGoal i)).addFunction (.picturePathLen i) 1000).addMissionGoal (.takenImage i)) kb
  (kb, f + obj.pulverize.length + obj.photo.length)

/-- `create_pddl_global.py`: the problem before the mission.  `base_1` is where it starts. -/
def createPddlGlobal (base_1 : R) (hardware : Hardware K) (mapa : Mapa R) (distances : List ((R × R) × K))
    (obj : Objectives R) : JKnowledge R K :=
  let kb : JKnowledge R K := KnowledgeBase.empty _ _ _ _
  let kb := ((kb.addFact (.at_ base_1)).addFact .canGo).addFact .canTakePic
  let kb := (kb.addFunction .batteryCapacity hardware.batteryCapacity).addFunction .velocity
    hardware.efficientVelocity
  let kb := kb.addFunction .batteryAmount 100
  let kb := (kb.addFunction .rechargeRateBattery hardware.rechargeRateBattery).addFunction
    .dischargeRateBattery hardware.dischargeRateBattery
  let kb := (kb.addFunction .inputAmount 0).addFunction .inputCapacity hardware.inputCapacity
  let kb := mapa.regions.foldl (fun kb r => (kb.addFact (.itsNotBase r)).addFact (.nto r)) kb
  let kb := mapa.bases.foldl (fun kb b => kb.addFact (.nto b)) kb
  let kb := distances.foldl (fun kb d => kb.addFunction (.distance d.1.1 d.1.2) d.2) kb
  let (kb, totalGoals) := addObjectives obj kb 0
  let kb := obj.finish.foldl (fun kb i => kb.addMissionGoal (.at_ i)) kb
  (kb.addFunction .totalGoals totalGoals).addFunction .goalsAchived 0

/-! ### `update.py` -/

/-- One place of the search for the closest one; the distance starts infinite. -/
def closer (d : R → K) (best : Option (K × R)) (r : R) : Option (K × R) :=
  match best with
  | none => some (d r, r)
  | some (distance, name) => if d r < distance then some (d r, r) else some (distance, name)

/-- `get_location`: the place closest to the vehicle, whose distance to each place is `d`. -/
def getLocation (d : R → K) (mapa : Mapa R) : Option R :=
  (mapa.bases.foldl (closer d) (mapa.regions.foldl (closer d) none)).map Prod.snd

/-- `get_predicate("at").attributes[0]`, an `IndexError` when there is none. -/
def firstAt (kb : JKnowledge R K) : Option (Fact R) := kb.modelFacts.find? Fact.isAt

/-- The loop before the cancel when the update is not wanted on the move. -/
def waiting (onMove : Bool) (kb : JKnowledge R K) : Bool := !onMove && decide (.atMove ∈ kb.modelFacts)

/-- The position after the cancel, and the knowledge base without `(at-move)`. -/
def position (onMove : Bool) (location : Option R) (kb : JKnowledge R K) : Option (Fact R × JKnowledge R K) :=
  if onMove then
    if .atMove ∈ kb.modelFacts then location.map (fun r => (.at_ r, kb.removeFact .atMove))
    else (firstAt kb).map (fun at_ => (at_, kb))
  else (firstAt kb).map (fun at_ => (at_, kb))

/-- Remove the goals that are achieved already, and take each from the count of goals. -/
def dropAchived (goals : List (Goal R)) (kb : JKnowledge R K) (f : K) : JKnowledge R K × K :=
  goals.foldl (fun p goal =>
    match goal with
    | .at_ _ => p
    | goal => (p.1.modelFacts.filter (fun a => decide (a = goal.fact))).foldl
        (fun p _ => (p.1.removeMissionGoal goal, p.2 - 1)) p) (kb, f)

/-- `update.py` from the cancel on; `none` when it ends in an error. -/
def update (onMove : Bool) (location : Option R) (obj : Objectives R) (kb : JKnowledge R K) :
    Option (JKnowledge R K) := do
  let (at_, kb) ← position onMove location kb
  let f ← kb.getFunction .totalGoals
  let goals := kb.modelGoals
  let (kb, f) := dropAchived goals kb f
  let (kb, f) := addObjectives obj kb f
  let kb := if goals.any Goal.isAt then kb
    else obj.finish.foldl (fun kb i => kb.addMissionGoal (.at_ i)) kb
  let _bat ← kb.getFunction .batteryAmount
  some ((kb.addFact at_).addFunction .totalGoals f)

/-! ### What the scripts change -/

/-- The facts the entry of a plan is about. -/
def Fact.isEntry : Fact R → Bool
  | .canGo | .at_ _ | .atMove | .to _ | .nto _ => true
  | _ => false

/-- The functions set along with the objectives. -/
def Fluent.isObjective : Fluent R → Bool
  | .pulverizePathLen _ | .picturePathLen _ => true
  | _ => false

omit [LinearOrder K] in
theorem mem_addObjectives (obj : Objectives R) (kb : JKnowledge R K) (f : K) {a : Fact R}
    (ha : a.isEntry = true) : a ∈ (addObjectives obj kb f).1.modelFacts ↔ a ∈ kb.modelFacts := by
  unfold addObjectives
  simp only
  rw [KnowledgeBase.mem_foldl (fun i a => a = Fact.pictureGoal i) (by simp),
    KnowledgeBase.mem_foldl (fun i a => a = Fact.pulverizeGoal i) (by simp)]
  split <;> split <;> cases a <;> simp [Fact.isEntry] at ha ⊢

omit [LinearOrder K] in
theorem getFunction_addObjectives (obj : Objectives R) (kb : JKnowledge R K) (f : K) {g : Fluent R}
    (hg : g.isObjective = false) : (addObjectives obj kb f).1.getFunction g = kb.getFunction g := by
  have hadd : ∀ (kb : JKnowledge R K) a, (kb.addFact a).getFunction g = kb.getFunction g :=
    fun kb a => KnowledgeBase.getFunction_congr (by simp) g
  have hgoal : ∀ (kb : JKnowledge R K) a, (kb.addMissionGoal a).getFunction g = kb.getFunction g :=
    fun kb a => KnowledgeBase.getFunction_congr (by simp) g
  have hset : ∀ (kb : JKnowledge R K) (x : Fluent R) (v : K), x.isObjective = true →
      (kb.addFunction x v).getFunction g = kb.getFunction g := by
    intro kb x v hx
    apply KnowledgeBase.getFunction_addFunction_of_ne
    rintro rfl
    rw [hx] at hg
    cases hg
  unfold addObjectives
  simp only
  rw [KnowledgeBase.getFunction_foldl (fun kb i => by rw [hgoal, hset _ _ _ rfl, hadd]),
    KnowledgeBase.getFunction_foldl (fun kb i => by rw [hgoal, hset _ _ _ rfl, hadd])]
  split <;> split <;> simp only [hadd]

omit [LinearOrder K] in
/-- Dropping goals touches neither facts nor functions. -/
theorem dropAchived_fst (goals : List (Goal R)) (kb : JKnowledge R K) (f : K) :
    (dropAchived goals kb f).1.modelFacts = kb.modelFacts ∧
      (dropAchived goals kb f).1.modelFunctions = kb.modelFunctions := by
  unfold dropAchived
  refine List.foldlRecOn (motive := fun p : JKnowledge R K × K =>
    p.1.modelFacts = kb.modelFacts ∧ p.1.modelFunctions = kb.modelFunctions) goals _ ⟨rfl, rfl⟩ ?_
  intro p hp goal _
  split
  · exact hp
  · exact List.foldlRecOn (motive := fun p : JKnowledge R K × K =>
      p.1.modelFacts = kb.modelFacts ∧ p.1.modelFunctions = kb.modelFunctions) _ _ hp (fun _ hq _ _ => hq)

omit [Field K] [LinearOrder K] in
/-- Posting goals touches neither facts nor functions. -/
theorem foldl_addMissionGoal (goals : List R) (kb : JKnowledge R K) :
    (goals.foldl (fun kb i => kb.addMissionGoal (.at_ i)) kb).modelFacts = kb.modelFacts ∧
      (goals.foldl (fun kb i => kb.addMissionGoal (.at_ i)) kb).modelFunctions = kb.modelFunctions := by
  refine List.foldlRecOn (motive := fun kb' : JKnowledge R K =>
    kb'.modelFacts = kb.modelFacts ∧ kb'.modelFunctions = kb.modelFunctions) goals _ ⟨rfl, rfl⟩ ?_
  intro kb' hkb i _
  simp only [KnowledgeBase.addMissionGoal_modelFacts, KnowledgeBase.addMissionGoal_modelFunctions]
  exact hkb

omit [LinearOrder K] in
/-- What `update.py` does once it has a position: it adds the position and otherwise leaves the
facts of the entry as they are, and it keeps every function but the count of goals and the
path lengths. -/
theorem update_of_position {onMove : Bool} {location : Option R} (obj : Objectives R) {kb kb₁ : JKnowledge R K}
    {at_ : Fact R} {f b : K} (hpos : position onMove location kb = some (at_, kb₁))
    (hf : kb₁.getFunction .totalGoals = some f) (hb : kb₁.getFunction .batteryAmount = some b) :
    ∃ kb', update onMove location obj kb = some kb' ∧
      (∀ a : Fact R, a.isEntry = true → (a ∈ kb'.modelFacts ↔ a = at_ ∨ a ∈ kb₁.modelFacts)) ∧
      (∀ g : Fluent R, g.isObjective = false → g ≠ .totalGoals → kb'.getFunction g = kb₁.getFunction g) := by
  obtain ⟨hdf, hdn⟩ := dropAchived_fst kb₁.modelGoals kb₁ f
  generalize hd : dropAchived kb₁.modelGoals kb₁ f = p at hdf hdn
  have hof : ∀ a : Fact R, a.isEntry = true →
      (a ∈ (addObjectives obj p.1 p.2).1.modelFacts ↔ a ∈ kb₁.modelFacts) := by
    intro a ha
    rw [mem_addObjectives obj p.1 p.2 ha, hdf]
  have hon : ∀ g : Fluent R, g.isObjective = false →
      (addObjectives obj p.1 p.2).1.getFunction g = kb₁.getFunction g := by
    intro g hg
    rw [getFunction_addObjectives obj p.1 p.2 hg, KnowledgeBase.getFunction_congr hdn]
  generalize ho : addObjectives obj p.1 p.2 = q at hof hon
  -- the goals posted at the end change neither the facts nor the functions
  obtain ⟨kb₂, h₂, h₂f, h₂n⟩ : ∃ kb₂, kb₂ = (if kb₁.modelGoals.any Goal.isAt then q.1
      else obj.finish.foldl (fun kb i => kb.addMissionGoal (.at_ i)) q.1) ∧
      kb₂.modelFacts = q.1.modelFacts ∧ kb₂.modelFunctions = q.1.modelFunctions := by
    refine ⟨_, rfl, ?_⟩
    split
    · exact ⟨rfl, rfl⟩
    · exact foldl_addMissionGoal _ _
  have hb₂ : kb₂.getFunction .batteryAmount = some b := by
    rw [KnowledgeBase.getFunction_congr h₂n, hon _ rfl, hb]
  refine ⟨(kb₂.addFact at_).addFunction .totalGoals q.2, ?_, ?_, ?_⟩
  · simp only [update, hpos, hf, Option.bind_eq_bind, Option.bind_some, hd, ho]
    rw [← h₂, hb₂]
    rfl
  · intro a ha
    rw [KnowledgeBase.addFunction_modelFacts, KnowledgeBase.mem_addFact, h₂f, hof a ha]
  · intro g hg hne
    rw [KnowledgeBase.getFunction_addFunction_of_ne _ _ hne,
      KnowledgeBase.getFunction_congr (KnowledgeBase.addFact_modelFunctions _ _),
      KnowledgeBase.getFunction_congr h₂n, hon g hg]

omit [LinearOrder K] in
theorem update_none_of_position {onMove : Bool} {location : Option R} (obj : Objectives R) {kb : JKnowledge R K}
    (hpos : position onMove location kb = none) : update onMove location obj kb = none := by
  simp [update, hpos]

end

/-! ### The entry of a plan -/

section
variable {R K : Type} [Fintype R] [DecidableEq R] [Field K] [LinearOrder K]
variable {isBase : R → Bool}

/-- What the planner needs of the state in which a plan starts. -/
structure Entry (s : JState R K) : Prop where
  canGo : s.holds .canGo = true
  atOne : AtOne s
  atMove : s.holds .atMove = false
  noTarget : NoTarget s

/-- The knowledge base describes the state and has the two functions that `update.py` reads. -/
structure Loaded (kb : JKnowledge R K) (s : JState R K) : Prop where
  agrees : Agrees kb s
  totalGoals : (kb.getFunction .totalGoals).isSome = true
  batteryAmount : (kb.getFunction .batteryAmount).isSome = true

omit [Fintype R] [DecidableEq R] [Field K] in
theorem closer_isSome (d : R → K) (best : Option (K × R)) (r : R) : (closer d best r).isSome = true := by
  unfold closer
  split
  · rfl
  · split <;> rfl

omit [Fintype R] [DecidableEq R] [Field K] in
theorem foldl_closer_isSome (d : R → K) {rs : List R} {best : Option (K × R)}
    (h : best.isSome = true ∨ rs ≠ []) : (rs.foldl (closer d) best).isSome = true := by
  induction rs generalizing best with
  | nil =>
      rcases h with h | h
      · exact h
      · exact absurd rfl h
  | cons r rs ih => exact ih (Or.inl (closer_isSome d best r))

omit [Fintype R] [DecidableEq R] [Field K] in
/-- A map with a place has a closest one. -/
theorem getLocation_isSome (d : R → K) {mapa : Mapa R} {r : R} (h : r ∈ mapa.regions ∨ r ∈ mapa.bases) :
    (getLocation d mapa).isSome = true := by
  unfold getLocation
  rw [Option.isSome_map]
  apply foldl_closer_isSome
  rcases h with h | h
  · exact Or.inl (foldl_closer_isSome d (Or.inr (List.ne_nil_of_mem h)))
  · exact Or.inr (List.ne_nil_of_mem h)

omit [Fintype R] [DecidableEq R] [Field K] [LinearOrder K] in
theorem firstAt_eq {kb : JKnowledge R K} {s : JState R K} (h : Agrees kb s) {r : R}
    (hr : s.holds (.at_ r) = true) (hu : ∀ r', s.holds (.at_ r') = true → r' = r) :
    firstAt kb = some (.at_ r) := by
  unfold firstAt
  cases hf : kb.modelFacts.find? Fact.isAt with
  | none =>
      have := List.find?_eq_none.mp hf _ ((h _).mpr hr)
      exact absurd rfl this
  | some a =>
      have hmem := (h a).mp (List.mem_of_find?_eq_some hf)
      have hat := List.find?_some hf
      cases a with
      | at_ r' => rw [hu r' hmem]
      | _ => cases hat

omit [Fintype R] [DecidableEq R] [Field K] [LinearOrder K] in
theorem firstAt_eq_none {kb : JKnowledge R K} {s : JState R K} (h : Agrees kb s) (hs : AtNone s) :
    firstAt kb = none := by
  unfold firstAt
  rw [List.find?_eq_none]
  intro a ha hat
  cases a with
  | at_ r =>
      have := (h _).mp ha
      rw [hs r] at this
      cases this
  | _ => cases hat

/-- A position for the new plan: `(at r)` is the only position left, `(at-move)` is gone, and
nothing else has changed. -/
structure Positioned (kb kb₁ : JKnowledge R K) (r : R) : Prop where
  modelFunctions : kb₁.modelFunctions = kb.modelFunctions
  unique : ∀ r', .at_ r' ∈ kb₁.modelFacts → r' = r
  atMove : .atMove ∉ kb₁.modelFacts
  other : ∀ a, a ≠ .atMove → (a ∈ kb₁.modelFacts ↔ a ∈ kb.modelFacts)

omit [Fintype R] in
/-- `update.py` finds a position exactly when no `go_to_base` is in execution. -/
theorem position_cases {c : JConfig K isBase} {kb : JKnowledge R K} (hc : Announced c) (hkb : Agrees kb c.state)
    {onMove : Bool} (hw : waiting onMove kb = false) {location : Option R} (hloc : location.isSome = true) :
    (c.executing Action.isToBase = 0 ∧
      ∃ r kb₁, position onMove location kb = some (.at_ r, kb₁) ∧ Positioned kb kb₁ r) ∨
    (c.executing Action.isToBase ≠ 0 ∧ position onMove location kb = none) := by
  have hmove : Fact.atMove ∈ kb.modelFacts ↔ c.state.holds .atMove = true := hkb _
  by_cases hb : c.executing Action.isToBase = 0
  · refine Or.inl ⟨hb, ?_⟩
    rcases (positionConsistent_iff hc).mpr hb with ⟨⟨r, hr, hu⟩, hm⟩ | ⟨hnone, hm⟩
    · have hnm : Fact.atMove ∉ kb.modelFacts := by
        rw [hmove, hm]
        exact Bool.false_ne_true
      refine ⟨r, kb, ?_, rfl, fun r' hr' => hu r' ((hkb _).mp hr'), hnm, fun _ _ => Iff.rfl⟩
      unfold position
      rw [firstAt_eq hkb hr hu, if_neg hnm]
      split <;> rfl
    · have hm' := hmove.mpr hm
      have hon : onMove = true := by simpa [waiting, hm'] using hw
      obtain ⟨r, hr⟩ := Option.isSome_iff_exists.mp hloc
      refine ⟨r, kb.removeFact .atMove, ?_, rfl, fun r' hr' => ?_, by simp, fun a ha => by simp [ha]⟩
      · unfold position
        rw [if_pos hon, if_pos hm', hr]
        rfl
      · have hmem := (hkb (.at_ r')).mp ((KnowledgeBase.mem_removeFact _ _ _).mp hr').1
        rw [hnone r'] at hmem
        cases hmem
  · refine Or.inr ⟨hb, ?_⟩
    obtain ⟨hp, hann⟩ := hc
    have hsum := executing_move c
    rcases hp with ⟨h0, _⟩ | ⟨h0, hnone⟩
    · omega
    · have hnm : Fact.atMove ∉ kb.modelFacts := by
        rw [hmove, hann]
        omega
      unfold position
      rw [firstAt_eq_none hkb hnone, if_neg hnm]
      split <;> rfl

omit [Fintype R] [LinearOrder K] in
/-- With a position, what the repaired knowledge base lacks of an entry state is what the repair
does not touch. -/
theorem Positioned.entry_iff {kb kb₁ kb' : JKnowledge R K} {s : JState R K} {r : R} (hp : Positioned kb kb₁ r)
    (hkb : Agrees kb s)
    (hfacts : ∀ a : Fact R, a.isEntry = true → (a ∈ kb'.modelFacts ↔ a = .at_ r ∨ a ∈ kb₁.modelFacts)) :
    Entry kb'.state ↔ s.holds .canGo = true ∧ NoTarget s := by
  have hat : ∀ r', kb'.state.holds (.at_ r') = true ↔ r' = r := by
    intro r'
    rw [KnowledgeBase.state, decide_eq_true_eq, hfacts _ rfl, Fact.at_.injEq]
    exact ⟨fun h => h.elim id (hp.unique r'), Or.inl⟩
  have hmove : kb'.state.holds .atMove = false := by
    rw [KnowledgeBase.state, decide_eq_false_iff_not, hfacts _ rfl]
    simp [hp.atMove]
  -- the repair touches no other fact of the entry
  have hother : ∀ a : Fact R, a.isEntry = true → a.isAt = false → a ≠ .atMove → kb'.state.holds a = s.holds a := by
    intro a ha hna hnm
    rw [Bool.eq_iff_iff, KnowledgeBase.state, decide_eq_true_eq, hfacts a ha, hp.other a hnm, hkb a]
    refine ⟨fun h => h.elim (fun h => ?_) id, Or.inr⟩
    rw [h] at hna
    cases hna
  have hgo := hother .canGo rfl rfl (by simp)
  have hnto := fun r => hother (.nto r) rfl rfl (by simp)
  have hto := fun r => hother (.to r) rfl rfl (by simp)
  constructor
  · intro he
    refine ⟨hgo ▸ he.canGo, fun r => ?_⟩
    rw [← hnto r, ← hto r]
    exact he.noTarget r
  · rintro ⟨h1, h2⟩
    refine ⟨hgo.trans h1, ⟨r, (hat r).mpr rfl, fun r' => (hat r').mp⟩, hmove, fun r => ?_⟩
    rw [hnto r, hto r]
    exact h2 r

/-- The condition under which a cancel leaves a state that `update.py` repairs: `(can-go)` holds,
no target is set and no `go_to_base` is in execution. -/
def Repairable (c : JConfig K isBase) : Prop :=
  c.state.holds .canGo = true ∧ NoTarget c.state ∧ c.executing Action.isToBase = 0

instance (c : JConfig K isBase) : Decidable (Repairable c) := inferInstanceAs (Decidable (_ ∧ _))

/-- **Replanning after a cancel.**  Run the domain from an entry state with any interleaving of
actions and cancel there.  The knowledge base that `update.py` leaves is an entry state exactly
when `(can-go)` held, no target was set and no `go_to_base` was in execution. -/
theorem entry_update_iff {s : JState R K} {kb : JKnowledge R K} (hs : Entry s) (hkb : Loaded kb s) {t : K}
    {es : List (Event (Action isBase) K)} {c : JConfig K isBase} (hrun : run (step op) (idle s t) es = some c)
    {onMove : Bool} (hw : waiting onMove (replay op kb es) = false) (d : R → K) {mapa : Mapa R}
    (hmapa : ∀ r, r ∈ mapa.regions ∨ r ∈ mapa.bases) (obj : Objectives R) :
    (∃ kb', update onMove (getLocation d mapa) obj (replay op kb es) = some kb' ∧ Entry kb'.state) ↔
      Repairable c := by
  have hc : Announced c := by
    refine run_invariant (fun _ _ _ h hc => announced_step h hc) ?_ hrun
    exact ⟨position_idle hs.atOne t, by simp [hs.atMove]⟩
  have hag : Agrees (replay op kb es) c.state := agrees_run hrun hkb.agrees
  obtain ⟨r₀, -, -⟩ := hs.atOne
  rcases position_cases hc hag hw (getLocation_isSome d (hmapa r₀)) with ⟨hb, r, kb₁, hpos, hp⟩ | ⟨hb, hpos⟩
  · have hfun : ∀ g, kb₁.getFunction g = kb.getFunction g := by
      intro g
      rw [KnowledgeBase.getFunction_congr hp.modelFunctions,
        KnowledgeBase.getFunction_congr (replay_modelFunctions op kb es)]
    obtain ⟨f, hf⟩ := Option.isSome_iff_exists.mp hkb.totalGoals
    obtain ⟨b, hbat⟩ := Option.isSome_iff_exists.mp hkb.batteryAmount
    obtain ⟨kb', hup, hfacts, -⟩ := update_of_position obj hpos ((hfun _).trans hf) ((hfun _).trans hbat)
    have hentry := hp.entry_iff hag hfacts
    constructor
    · rintro ⟨kb'', hup', he⟩
      obtain rfl := Option.some.inj (hup.symm.trans hup')
      obtain ⟨h1, h2⟩ := hentry.mp he
      exact ⟨h1, h2, hb⟩
    · rintro ⟨h1, h2, -⟩
      exact ⟨kb', hup, hentry.mpr ⟨h1, h2⟩⟩
  · rw [update_none_of_position obj hpos]
    constructor
    · rintro ⟨_, h, _⟩
      cases h
    · intro h
      exact absurd h.2.2 hb

/-- With one action at a time, no flight and no target can be cancelled and repaired. -/
theorem repairable_start_iff {s : JState R K} (hgo : s.holds .canGo = true) {a : Action isBase} {t t' : K}
    {c : JConfig K isBase} (h : step op (idle s t) (.start a t') = some c) :
    Repairable c ↔ NoTarget s ∧ a.isFlight = false := by
  have hs := step_start h
  obtain ⟨r, hr, hact⟩ := hs.self
  have hov := step_overAll h r hr
  have hex := hs.executing Action.isToBase
  rw [idle_executing, zero_add] at hex
  have hto : ∀ r, c.state.holds (.to r) = s.holds (.to r) ∧ c.state.holds (.nto r) = s.holds (.nto r) := by
    intro r
    rw [hs.state]
    cases a <;> simp [op, Effect.apply]
  have htarget : NoTarget c.state ↔ NoTarget s := by
    unfold NoTarget
    simp only [hto]
  have hcan : c.state.holds .canGo = !a.isOverRegion := by
    rw [hs.state, start_canGo, idle_state, hgo, Bool.true_and]
  unfold Repairable
  rw [htarget, hcan, hex]
  rw [hact] at hov
  cases a with
  | goTo f g =>
      refine ⟨fun h => ?_, fun h => by simp [Action.isFlight] at h⟩
      have hg : c.state.holds (.to g) = true := by simp [op] at hov; simp [hov]
      rw [(hto g).1, (h.2.1 g).2] at hg
      cases hg
  | goToPicture f g =>
      refine ⟨fun h => ?_, fun h => by simp [Action.isFlight] at h⟩
      have hst := hs.atStart
      have hg : s.holds (.to g) = true := by simp [op] at hst; simp [hst]
      rw [(h.2.1 g).2] at hg
      cases hg
  | _ => simp [Action.isOverRegion, Action.isToBase, Action.isFlight]

end

/-! ### The problem before the mission -/

section
variable {R K : Type} [DecidableEq R] [Field K] [LinearOrder K]

omit [LinearOrder K] in
theorem mem_createPddlGlobal (base_1 : R) (hardware : Hardware K) (mapa : Mapa R) (distances : List ((R × R) × K))
    (obj : Objectives R) {a : Fact R} (ha : a.isEntry = true) :
    a ∈ (createPddlGlobal base_1 hardware mapa distances obj).modelFacts ↔
      a = .at_ base_1 ∨ a = .canGo ∨ ∃ r, (r ∈ mapa.regions ∨ r ∈ mapa.bases) ∧ a = .nto r := by
  simp only [createPddlGlobal, KnowledgeBase.addFunction_modelFacts]
  rw [(foldl_addMissionGoal _ _).1, mem_addObjectives _ _ _ ha,
    KnowledgeBase.mem_foldl (fun _ _ => False) (by simp),
    KnowledgeBase.mem_foldl (fun b a => a = Fact.nto b) (by simp),
    KnowledgeBase.mem_foldl (fun r a => a = Fact.nto r ∨ a = Fact.itsNotBase r) (by simp [or_assoc])]
  cases a <;> simp [Fact.isEntry, KnowledgeBase.empty] at ha ⊢
  exact or_comm

omit [LinearOrder K] in
/-- The functions the problem starts with. -/
theorem getFunction_createPddlGlobal (base_1 : R) (hardware : Hardware K) (mapa : Mapa R)
    (distances : List ((R × R) × K)) (obj : Objectives R) :
    (createPddlGlobal base_1 hardware mapa distances obj).getFunction .batteryAmount = some 100 ∧
    (createPddlGlobal base_1 hardware mapa distances obj).getFunction .inputAmount = some 0 ∧
    (createPddlGlobal base_1 hardware mapa distances obj).getFunction .goalsAchived = some 0 ∧
    (createPddlGlobal base_1 hardware mapa distances obj).getFunction .totalGoals =
      some (0 + (obj.pulverize.length : K) + (obj.photo.length : K)) := by
  have hfact : ∀ (kb : JKnowledge R K) a (g : Fluent R), (kb.addFact a).getFunction g = kb.getFunction g :=
    fun kb a g => KnowledgeBase.getFunction_congr (by simp) g
  have hgoal : ∀ (goals : List R) (kb : JKnowledge R K) (g : Fluent R),
      (goals.foldl (fun kb i => kb.addMissionGoal (.at_ i)) kb).getFunction g = kb.getFunction g :=
    fun goals kb g => KnowledgeBase.getFunction_congr (foldl_addMissionGoal goals kb).2 g
  have hne : ∀ (kb : JKnowledge R K) {f g : Fluent R} (v : K), g ≠ f →
      (kb.addFunction f v).getFunction g = kb.getFunction g :=
    fun kb _ _ v h => KnowledgeBase.getFunction_addFunction_of_ne kb v h
  have hself : ∀ (kb : JKnowledge R K) (f : Fluent R) (v : K), (kb.addFunction f v).getFunction f = some v :=
    KnowledgeBase.getFunction_addFunction_self
  -- the distances and the facts of the places leave the other functions alone
  have hplaces : ∀ (kb : JKnowledge R K) (g : Fluent R), (∀ r r', g ≠ .distance r r') →
      (distances.foldl (fun kb d => kb.addFunction (.distance d.1.1 d.1.2) d.2)
        (mapa.bases.foldl (fun kb b => kb.addFact (.nto b))
          (mapa.regions.foldl (fun kb r => (kb.addFact (.itsNotBase r)).addFact (.nto r)) kb))).getFunction g =
      kb.getFunction g := by
    intro kb g hg
    rw [KnowledgeBase.getFunction_foldl (fun kb (d : (R × R) × K) => hne kb d.2 (hg _ _)),
      KnowledgeBase.getFunction_foldl (fun kb b => hfact kb _ g),
      KnowledgeBase.getFunction_foldl (fun kb r => by rw [hfact, hfact])]
  unfold createPddlGlobal
  refine ⟨?_, ?_, ?_, ?_⟩
  · rw [hne _ _ (by simp), hne _ _ (by simp), hgoal, getFunction_addObjectives _ _ _ rfl, hplaces _ _ (by simp)]
    rw [hne _ _ (by simp), hne _ _ (by simp), hne _ _ (by simp), hne _ _ (by simp), hself]
  · rw [hne _ _ (by simp), hne _ _ (by simp), hgoal, getFunction_addObjectives _ _ _ rfl, hplaces _ _ (by simp)]
    rw [hne _ _ (by simp), hself]
  · rw [hself]
  · rw [hne _ _ (by simp), hself]
    rfl

omit [LinearOrder K] in
/-- The problem before the mission is an entry state, with the functions `update.py` reads. -/
theorem createPddlGlobal_entry (base_1 : R) (hardware : Hardware K) {mapa : Mapa R}
    (hmapa : ∀ r, r ∈ mapa.regions ∨ r ∈ mapa.bases) (distances : List ((R × R) × K)) (obj : Objectives R) :
    Entry (createPddlGlobal base_1 hardware mapa distances obj).state ∧
    Loaded (createPddlGlobal base_1 hardware mapa distances obj)
      (createPddlGlobal base_1 hardware mapa distances obj).state := by
  have hmem := fun a ha => mem_createPddlGlobal base_1 hardware mapa distances obj (a := a) ha
  obtain ⟨hbat, -, -, htot⟩ := getFunction_createPddlGlobal base_1 hardware mapa distances obj
  generalize createPddlGlobal base_1 hardware mapa distances obj = kb at *
  refine ⟨⟨?_, ⟨base_1, ?_, fun r hr => ?_⟩, ?_, fun r => ⟨?_, ?_⟩⟩, ⟨fun a => ?_, ?_, ?_⟩⟩
  · simp [KnowledgeBase.state, hmem .canGo rfl]
  · simp [KnowledgeBase.state, hmem (.at_ base_1) rfl]
  · simpa [KnowledgeBase.state, hmem (.at_ r) rfl] using hr
  · simp [KnowledgeBase.state, hmem .atMove rfl]
  · simpa [KnowledgeBase.state, hmem (.nto r) rfl] using hmapa r
  · simp [KnowledgeBase.state, hmem (.to r) rfl]
  · simp [KnowledgeBase.state]
  · rw [htot]; rfl
  · rw [hbat]; rfl

end

/-! ### Numeric state -/

section
variable {R K : Type} [Fintype R] [DecidableEq R] [Field K] [LinearOrder K] [IsStrictOrderedRing K]
variable {isBase : R → Bool}

/-- A complete action leaves the vehicle at one place and not on the move. -/
theorem complete_position {s s' : JState R K} {a : Action isBase} (h : complete op s a = some s')
    (hs : AtOne s ∧ s.holds .atMove = false) : AtOne s' ∧ s'.holds .atMove = false := by
  have hrun := (complete_iff_run 0).mp h
  have hc : Announced (idle s' (0 + (op a).duration s.val) : JConfig K isBase) := by
    refine run_invariant (fun _ _ _ h hc => announced_step h hc) ?_ hrun
    exact ⟨position_idle hs.1 0, by simp [hs.2]⟩
  obtain ⟨hp, hmove⟩ := hc
  refine ⟨?_, ?_⟩
  · rcases hp with ⟨_, h1⟩ | ⟨h0, _⟩
    · exact h1
    · simp at h0
  · rw [← Bool.not_eq_true]
    simpa using hmove

/-- **The numeric state after replanning.**  Execute any actions to completion and run `update.py`.
It ends, and the battery, the input and the goals achieved have in the knowledge base the
values from before the actions; so they are the true values exactly when the actions changed
nothing in sum. -/
theorem update_numeric {s s' : JState R K} {kb : JKnowledge R K} (hat : AtOne s) (hmove : s.holds .atMove = false)
    (hkb : Loaded kb s) {as : List (Action isBase)} (hrun : run (complete op) s as = some s') (onMove : Bool)
    (location : Option R) (obj : Objectives R) :
    waiting onMove (executeAll op kb as) = false ∧
    ∃ kb', update onMove location obj (executeAll op kb as) = some kb' ∧
      ∀ f : Fluent R, f.isStatic = false → kb'.getFunction f = kb.getFunction f ∧
        (kb.getFunction f = some (s.val f) → (kb'.getFunction f = some (s'.val f) ↔ s'.val f = s.val f)) := by
  have hag : Agrees (executeAll op kb as) s' := agrees_executeAll hrun hkb.agrees
  obtain ⟨⟨r, hr, hu⟩, hm⟩ := run_invariant (fun _ _ _ h => complete_position h) ⟨hat, hmove⟩ hrun
  have hnm : Fact.atMove ∉ (executeAll op kb as).modelFacts := by
    rw [hag, hm]
    exact Bool.false_ne_true
  have hfun : ∀ g, (executeAll op kb as).getFunction g = kb.getFunction g :=
    KnowledgeBase.getFunction_congr (executeAll_modelFunctions op kb as)
  have hpos : position onMove location (executeAll op kb as) = some (.at_ r, executeAll op kb as) := by
    unfold position
    rw [firstAt_eq hag hr hu, if_neg hnm]
    split <;> rfl
  obtain ⟨f, hf⟩ := Option.isSome_iff_exists.mp hkb.totalGoals
  obtain ⟨b, hbat⟩ := Option.isSome_iff_exists.mp hkb.batteryAmount
  obtain ⟨kb', hup, -, hkeep⟩ := update_of_position obj hpos ((hfun _).trans hf) ((hfun _).trans hbat)
  refine ⟨by simp [waiting, hnm], kb', hup, fun g hg => ?_⟩
  have hg' : kb'.getFunction g = kb.getFunction g := by
    rw [hkeep g, hfun g]
    · cases g <;> first | rfl | cases hg
    · rintro rfl
      cases hg
  refine ⟨hg', fun h => ?_⟩
  rw [hg', h, Option.some.injEq, eq_comm]

end

/-! ### A spraying that is cancelled, and an input tank that is filled -/

section demo

/-- A base (`false`) and a region (`true`). -/
def demoMapa : Mapa Bool := ⟨[true], [false]⟩

def demoHardware : Hardware ℚ := ⟨100, 10, 1, 1 / 10, 5⟩

/-- The region is to be sprayed. -/
def demoObjectives : Objectives Bool := ⟨[true], [], []⟩

/-- The problem before the mission. -/
def demoProblem : JKnowledge Bool ℚ :=
  createPddlGlobal false demoHardware demoMapa [((false, true), 100), ((true, false), 100)] demoObjectives

theorem demoMapa_places : ∀ r, r ∈ demoMapa.regions ∨ r ∈ demoMapa.bases := by decide

theorem demoProblem_entry : Entry demoProblem.state ∧ Loaded demoProblem demoProblem.state :=
  createPddlGlobal_entry false demoHardware demoMapa_places _ demoObjectives

/-- Fill the tank, fly to the region and start to spray. -/
def sprayStarted : List (Event (Action (fun r : Bool => !r)) ℚ) :=
  [.start (.rechargeInput ⟨false, rfl⟩) 0, .finish (.rechargeInput ⟨false, rfl⟩) 8,
    .start (.setNextRegion true) 9, .finish (.setNextRegion true) 9,
    .start (.goTo false true) 10, .finish (.goTo false true) 20, .start (.pulverizeRegion true) 21]

/-- The spraying is cancelled: `update.py` ends without `(can-go)` in the knowledge base, and no
movement can start again. -/
theorem entry_update_fails : Entry demoProblem.state ∧ Loaded demoProblem demoProblem.state ∧
    ∃ c, run (step op) (idle demoProblem.state 0) sprayStarted = some c ∧ c.running ≠ [] ∧
      waiting true (replay op demoProblem sprayStarted) = false ∧
      ∃ kb', update true (getLocation (fun _ => 0) demoMapa) demoObjectives (replay op demoProblem sprayStarted) =
        some kb' ∧ kb'.state.holds .canGo = false ∧ ¬ Entry kb'.state := by
  obtain ⟨he, hl⟩ := demoProblem_entry
  refine ⟨he, hl, (run (step op) (idle demoProblem.state 0) sprayStarted).get (by decide +kernel), by simp,
    by decide +kernel, by decide +kernel, ?_⟩
  have hgo : ((update true (getLocation (fun _ => 0) demoMapa) demoObjectives
      (replay op demoProblem sprayStarted)).map (fun kb => kb.state.holds .canGo)) = some false := by
    decide +kernel
  obtain ⟨kb', hkb, hgo'⟩ := Option.map_eq_some_iff.mp hgo
  refine ⟨kb', hkb, hgo', fun h => ?_⟩
  rw [h.canGo] at hgo'
  cases hgo'

/-- A cancelled `need_input` is repaired. -/
theorem entry_update_needInput : ∃ c, run (step op) (idle demoProblem.state 0)
      ([.start .needInput 0] : List (Event (Action (fun r : Bool => !r)) ℚ)) = some c ∧
    ∃ kb', update true (getLocation (fun _ => 0) demoMapa) demoObjectives
      (replay op demoProblem ([.start .needInput 0] : List (Event (Action (fun r : Bool => !r)) ℚ))) = some kb' ∧
      Entry kb'.state := by
  obtain ⟨he, hl⟩ := demoProblem_entry
  have hsome : (run (step op) (idle demoProblem.state 0)
      ([.start .needInput 0] : List (Event (Action (fun r : Bool => !r)) ℚ))).isSome = true := by decide +kernel
  refine ⟨_, Option.some_get hsome |>.symm, ?_⟩
  exact (entry_update_iff he hl (Option.some_get hsome).symm (by decide +kernel) (fun _ => 0) demoMapa_places
    demoObjectives).mpr (by decide +kernel +revert)

/-- Fill the tank. -/
def fillTank : List (Action (fun r : Bool => !r)) := [.rechargeInput ⟨false, rfl⟩]

/-- The tank is full and the knowledge base still says that it is empty. -/
theorem update_numeric_fails : AtOne demoProblem.state ∧ Loaded demoProblem demoProblem.state ∧
    ∃ s', run (complete op) demoProblem.state fillTank = some s' ∧ s'.val .inputAmount = 5 ∧
      ∃ kb', update false none demoObjectives (executeAll op demoProblem fillTank) = some kb' ∧
        kb'.getFunction .inputAmount = some 0 := by
  obtain ⟨he, hl⟩ := demoProblem_entry
  refine ⟨he.atOne, hl, (run (complete op) demoProblem.state fillTank).get (by decide +kernel), by simp,
    by decide +kernel, ?_⟩
  have hin : (update false none demoObjectives (executeAll op demoProblem fillTank)).map
      (fun kb => kb.getFunction .inputAmount) = some (some 0) := by
    decide +kernel
  exact Option.map_eq_some_iff.mp hin

theorem update_numeric_fillTank : ∃ kb', update false none demoObjectives (executeAll op demoProblem fillTank) =
    some kb' ∧ kb'.getFunction .inputAmount = demoProblem.getFunction .inputAmount := by
  obtain ⟨he, hl⟩ := demoProblem_entry
  have hsome : (run (complete op) demoProblem.state fillTank).isSome = true := by decide +kernel
  obtain ⟨-, kb', hup, hkeep⟩ := update_numeric he.atOne he.atMove hl (Option.some_get hsome).symm false none
    demoObjectives
  exact ⟨kb', hup, (hkeep .inputAmount rfl).1⟩

end demo

end DroneArch.Journal
