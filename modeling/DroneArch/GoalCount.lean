import Mathlib.Tactic.LinearCombination
import DroneArch.Lists
import DroneArch.Replanning

/-! # The count of goals

`total-goals` is counted by the scripts, step by step of the mission, while the goals themselves are
kept by the knowledge base, which ignores a goal that is posted already.

* `createPddlGlobal_counted_iff`: before the mission the count is right exactly when no area is to be
  sprayed twice or photographed twice.
* `always_counted_iff`: over any actions and replans it stays right exactly when each new mission has no
  repetition and asks for no goal that is still open. -/

namespace DroneArch.Journal

open Durative Runs Rosplan

/-- The commands of a mission. -/
inductive Command
  | pulverize
  | takePicture
  | finish
deriving DecidableEq

/-- A step of `mission_execution`. -/
structure MissionStep (R : Type) where
  command : Command
  area : R

/-- `get_objectives`: the areas of the steps with the command. -/
def getObjectives {R : Type} (mission : List (MissionStep R)) (command : Command) : List R :=
  (mission.filter (fun step => decide (step.command = command))).map MissionStep.area

/-- The three lists that both scripts read off the mission. -/
def objectives {R : Type} (mission : List (MissionStep R)) : Objectives R :=
  ⟨getObjectives mission .pulverize, getObjectives mission .takePicture, getObjectives mission .finish⟩

section
variable {R K : Type} [DecidableEq R] [Field K] [LinearOrder K]

/-- The number of goals other than `at`. -/
def goalsToAchieve (goals : List (Goal R)) : ℕ := goals.countP (fun g => !g.isAt)

/-- `total-goals` is the number of goals other than `at`. -/
def Counted (kb : JKnowledge R K) : Prop :=
  kb.getFunction .totalGoals = some (goalsToAchieve kb.modelGoals : K)

instance [DecidableEq K] (kb : JKnowledge R K) : Decidable (Counted kb) := inferInstanceAs (Decidable (_ = _))

/-- Nothing is stored twice, as the knowledge base ignores what it has. -/
structure Consistent (kb : JKnowledge R K) : Prop where
  facts : kb.modelFacts.Nodup
  goals : kb.modelGoals.Nodup

/-- The goals of the objectives, in the order in which they are posted. -/
def posted (obj : Objectives R) : List (Goal R) :=
  obj.pulverize.map Goal.pulverized ++ obj.photo.map Goal.takenImage

omit [DecidableEq R] in
theorem posted_nodup_iff (obj : Objectives R) : (posted obj).Nodup ↔ obj.pulverize.Nodup ∧ obj.photo.Nodup := by
  have hp : Function.Injective (Goal.pulverized : R → Goal R) := fun _ _ h => by cases h; rfl
  have ht : Function.Injective (Goal.takenImage : R → Goal R) := fun _ _ h => by cases h; rfl
  rw [posted, List.nodup_append, List.nodup_map_iff hp, List.nodup_map_iff ht]
  simp

omit [DecidableEq R] in
theorem posted_toAchieve (obj : Objectives R) : ∀ g ∈ posted obj, (!g.isAt) = true := by
  simp [posted, or_imp, forall_and, Goal.isAt]

omit [LinearOrder K] in
/-- Both loops together post these goals. -/
theorem addObjectives_modelGoals (obj : Objectives R) (kb : JKnowledge R K) (f : K) :
    (addObjectives obj kb f).1.modelGoals = (posted obj).foldl KnowledgeBase.post kb.modelGoals := by
  have hloop : ∀ (is : List R) (fact : R → Fact R) (len : R → Fluent R) (goal : R → Goal R) (v : K)
      (kb : JKnowledge R K),
      (is.foldl (fun kb i => ((kb.addFact (fact i)).addFunction (len i) v).addMissionGoal (goal i)) kb).modelGoals =
        (is.map goal).foldl KnowledgeBase.post kb.modelGoals := by
    intro is fact len goal v kb
    induction is generalizing kb with
    | nil => rfl
    | cons i is ih =>
        rw [List.foldl_cons, ih, KnowledgeBase.addMissionGoal_modelGoals]
        simp
  unfold addObjectives
  simp only
  rw [hloop, hloop, posted, List.foldl_append]
  split <;> split <;> simp

omit [Field K] [LinearOrder K] in
theorem finish_modelGoals (finish : List R) (kb : JKnowledge R K) :
    (finish.foldl (fun kb i => kb.addMissionGoal (.at_ i)) kb).modelGoals =
      (finish.map Goal.at_).foldl KnowledgeBase.post kb.modelGoals := by
  induction finish generalizing kb with
  | nil => rfl
  | cons i is ih => rw [List.foldl_cons, ih, KnowledgeBase.addMissionGoal_modelGoals, List.map_cons, List.foldl_cons]

/-- The final position is no goal to achieve. -/
theorem goalsToAchieve_finish (finish : List R) (goals : List (Goal R)) :
    goalsToAchieve ((finish.map Goal.at_).foldl KnowledgeBase.post goals) = goalsToAchieve goals :=
  KnowledgeBase.countP_foldl_post_of_not (by simp [Goal.isAt]) goals

/-- Each step of the mission counts for one exactly when nothing is asked for twice. -/
theorem goalsToAchieve_posted_iff (obj : Objectives R) (goals : List (Goal R)) :
    goalsToAchieve ((posted obj).foldl KnowledgeBase.post goals) =
      goalsToAchieve goals + (obj.pulverize.length + obj.photo.length) ↔
      (obj.pulverize.Nodup ∧ obj.photo.Nodup) ∧ ∀ g ∈ posted obj, g ∉ goals := by
  have hlen : obj.pulverize.length + obj.photo.length = (posted obj).length := by simp [posted]
  unfold goalsToAchieve
  rw [hlen, KnowledgeBase.countP_foldl_post_eq_iff (posted_toAchieve obj), posted_nodup_iff]

/-! ### Before the mission -/

omit [LinearOrder K] in
theorem createPddlGlobal_modelGoals (base_1 : R) (hardware : Hardware K) (mapa : Mapa R)
    (distances : List ((R × R) × K)) (obj : Objectives R) :
    goalsToAchieve (createPddlGlobal base_1 hardware mapa distances obj).modelGoals =
      goalsToAchieve ((posted obj).foldl KnowledgeBase.post []) := by
  have hkeep : ∀ {ι : Type} (round : JKnowledge R K → ι → JKnowledge R K) (is : List ι) (kb : JKnowledge R K),
      (∀ kb i, (round kb i).modelGoals = kb.modelGoals) → (is.foldl round kb).modelGoals = kb.modelGoals := by
    intro ι round is kb h
    induction is generalizing kb with
    | nil => rfl
    | cons i is ih => rw [List.foldl_cons, ih, h]
  unfold createPddlGlobal
  simp only [KnowledgeBase.addFunction_modelGoals]
  rw [finish_modelGoals, goalsToAchieve_finish, addObjectives_modelGoals, hkeep _ _ _ (by simp),
    hkeep _ _ _ (by simp), hkeep _ _ _ (by simp)]
  simp [KnowledgeBase.empty]

omit [LinearOrder K] in
/-- **Before the mission.**  The count of goals is right exactly when no area is to be sprayed twice and none
photographed twice. -/
theorem createPddlGlobal_counted_iff [CharZero K] (base_1 : R) (hardware : Hardware K) (mapa : Mapa R)
    (distances : List ((R × R) × K)) (mission : List (MissionStep R)) :
    Counted (createPddlGlobal base_1 hardware mapa distances (objectives mission)) ↔
      (getObjectives mission .pulverize).Nodup ∧ (getObjectives mission .takePicture).Nodup := by
  have htotal := (getFunction_createPddlGlobal base_1 hardware mapa distances (objectives mission)).2.2.2
  have hcount := goalsToAchieve_posted_iff (objectives mission) []
  unfold Counted
  rw [htotal, createPddlGlobal_modelGoals, Option.some_inj, zero_add, ← Nat.cast_add, Nat.cast_inj, eq_comm]
  simpa [goalsToAchieve, objectives] using hcount

/-! ### Replanning -/

/-- The goal is not `at` and its fact holds. -/
def achieved (kb : JKnowledge R K) (g : Goal R) : Bool := !g.isAt && decide (g.fact ∈ kb.modelFacts)

omit [LinearOrder K] in
/-- One pass of the loop: facts are not repeated, so a goal is dropped once. -/
theorem dropAchived_cons (g : Goal R) (gs : List (Goal R)) (kb : JKnowledge R K) (hfacts : kb.modelFacts.Nodup) (f : K) :
    dropAchived (g :: gs) kb f =
      if achieved kb g then dropAchived gs (kb.removeMissionGoal g) (f - 1) else dropAchived gs kb f := by
  unfold dropAchived
  rw [List.foldl_cons]
  cases g with
  | at_ r => simp [achieved, Goal.isAt]
  | pulverized r | takenImage r =>
      simp only [achieved, Goal.isAt, Bool.not_false, Bool.true_and, decide_eq_true_eq]
      rw [Lists.filter_eq_of_nodup hfacts]
      split <;> rfl

omit [LinearOrder K] in
/-- The loop removes the achieved goals and takes one from the count for each. -/
theorem dropAchived_eq (gs : List (Goal R)) (kb : JKnowledge R K) (hfacts : kb.modelFacts.Nodup) (f : K) :
    dropAchived gs kb f =
      ({ kb with modelGoals := kb.modelGoals.filter (fun g => !(decide (g ∈ gs) && achieved kb g)) },
        f - (gs.countP (achieved kb) : K)) := by
  induction gs generalizing kb f with
  | nil => simp [dropAchived]
  | cons g gs ih =>
      rw [dropAchived_cons g gs kb hfacts]
      by_cases hg : achieved kb g = true
      · have hsame : achieved (kb.removeMissionGoal g) = achieved kb := by
          rfl
        rw [if_pos hg, ih (kb.removeMissionGoal g) hfacts, hsame, List.countP_cons_of_pos hg]
        refine Prod.ext ?_ ?_
        · simp only [KnowledgeBase.removeMissionGoal, List.filter_filter]
          congr 1
          apply List.filter_congr
          intro g' _
          by_cases hg' : g' = g
          · subst hg'
            simp [hg]
          · simp [hg']
        · push_cast
          ring
      · have hfilter : kb.modelGoals.filter (fun g' => !(decide (g' ∈ gs) && achieved kb g')) =
            kb.modelGoals.filter (fun g' => !(decide (g' ∈ g :: gs) && achieved kb g')) := by
          apply List.filter_congr
          intro g' _
          by_cases hg' : g' = g
          · subst hg'
            simp [hg]
          · simp [hg']
        rw [if_neg hg, ih kb hfacts, List.countP_cons_of_neg hg, hfilter]

omit [LinearOrder K] in
/-- What is left after the loop over all goals are the open ones, and each removal was counted. -/
theorem goalsToAchieve_dropAchived {kb : JKnowledge R K} (h : kb.modelFacts.Nodup) (f : K) :
    (∀ g, g ∈ (dropAchived kb.modelGoals kb f).1.modelGoals ↔ g ∈ kb.modelGoals ∧ achieved kb g = false) ∧
    goalsToAchieve (dropAchived kb.modelGoals kb f).1.modelGoals + kb.modelGoals.countP (achieved kb) =
      goalsToAchieve kb.modelGoals := by
  rw [dropAchived_eq _ _ h]
  constructor
  · intro g
    simp only [List.mem_filter]
    by_cases hg : g ∈ kb.modelGoals <;> simp [hg]
  · have hfilter : kb.modelGoals.filter (fun g => !(decide (g ∈ kb.modelGoals) && achieved kb g)) =
        kb.modelGoals.filter (fun g => !achieved kb g) := by
      apply List.filter_congr
      intro g hg
      simp [hg]
    have hsplit := List.countP_eq_countP_filter_add kb.modelGoals (fun g => !g.isAt) (achieved kb)
    have hsub : (kb.modelGoals.filter (achieved kb)).countP (fun g => !g.isAt) =
        kb.modelGoals.countP (achieved kb) := by
      rw [List.countP_filter]
      apply List.countP_congr
      intro g _
      simp [achieved]
    simp only [hfilter, goalsToAchieve]
    rw [hsplit, hsub, add_comm]

/-- The new mission has no repetition and asks for no goal that is still open. -/
def Fresh (kb : JKnowledge R K) (obj : Objectives R) : Prop :=
  (obj.pulverize.Nodup ∧ obj.photo.Nodup) ∧
    ∀ g ∈ posted obj, g ∈ kb.modelGoals → g.fact ∈ kb.modelFacts

instance (kb : JKnowledge R K) (obj : Objectives R) : Decidable (Fresh kb obj) :=
  inferInstanceAs (Decidable (_ ∧ _))

omit [Field K] [LinearOrder K] in
/-- The position is found without a change of the goals and their facts. -/
theorem position_frame {onMove : Bool} {location : Option R} {kb kb₁ : JKnowledge R K} {at_ : Fact R}
    (h : position onMove location kb = some (at_, kb₁)) :
    kb₁.modelGoals = kb.modelGoals ∧ kb₁.modelFunctions = kb.modelFunctions ∧
      (kb.modelFacts.Nodup → kb₁.modelFacts.Nodup) ∧
      ∀ a, a ≠ .atMove → (a ∈ kb₁.modelFacts ↔ a ∈ kb.modelFacts) := by
  have hsame : ∀ {at_ : Fact R} {kb₁ : JKnowledge R K},
      (firstAt kb).map (fun at_ => (at_, kb)) = some (at_, kb₁) → kb₁ = kb := by
    intro at_ kb₁ h
    obtain ⟨_, _, h⟩ := Option.map_eq_some_iff.mp h
    cases h
    rfl
  unfold position at h
  split at h
  · split at h
    · obtain ⟨r, _, h⟩ := Option.map_eq_some_iff.mp h
      cases h
      refine ⟨rfl, rfl, fun hnodup => hnodup.filter _, fun a ha => ?_⟩
      rw [KnowledgeBase.mem_removeFact]
      exact and_iff_left ha
    · rw [hsame h]
      exact ⟨rfl, rfl, id, fun _ _ => Iff.rfl⟩
  · rw [hsame h]
    exact ⟨rfl, rfl, id, fun _ _ => Iff.rfl⟩

omit [LinearOrder K] in
theorem addObjectives_nodup (obj : Objectives R) (kb : JKnowledge R K) (f : K) (h : kb.modelFacts.Nodup) :
    (addObjectives obj kb f).1.modelFacts.Nodup := by
  have hadd : ∀ (kb : JKnowledge R K) a, kb.modelFacts.Nodup → (kb.addFact a).modelFacts.Nodup := by
    intro kb a hkb
    rw [KnowledgeBase.addFact_modelFacts]
    exact KnowledgeBase.post_nodup hkb a
  unfold addObjectives
  refine List.foldlRecOn (motive := fun kb : JKnowledge R K => kb.modelFacts.Nodup) _ _ ?_ ?_
  · refine List.foldlRecOn (motive := fun kb : JKnowledge R K => kb.modelFacts.Nodup) _ _ ?_ ?_
    · split <;> split
      · exact h
      · exact hadd _ _ h
      · exact hadd _ _ h
      · exact hadd _ _ (hadd _ _ h)
    · intro kb hkb i _
      rw [KnowledgeBase.addMissionGoal_modelFacts, KnowledgeBase.addFunction_modelFacts]
      exact hadd _ _ hkb
  · intro kb hkb i _
    rw [KnowledgeBase.addMissionGoal_modelFacts, KnowledgeBase.addFunction_modelFacts]
    exact hadd _ _ hkb

omit [LinearOrder K] in
/-- `update.py` taken apart. -/
theorem update_eq_some {onMove : Bool} {location : Option R} {obj : Objectives R} {kb kb' : JKnowledge R K}
    (h : update onMove location obj kb = some kb') :
    ∃ at_ kb₁ f, position onMove location kb = some (at_, kb₁) ∧ kb₁.getFunction .totalGoals = some f ∧
      kb'.getFunction .totalGoals =
        some ((dropAchived kb₁.modelGoals kb₁ f).2 + obj.pulverize.length + obj.photo.length) ∧
      (kb₁.modelFacts.Nodup → kb'.modelFacts.Nodup) ∧
      ∃ finish, kb'.modelGoals = ((finish : List R).map Goal.at_).foldl KnowledgeBase.post
        ((posted obj).foldl KnowledgeBase.post (dropAchived kb₁.modelGoals kb₁ f).1.modelGoals) := by
  simp only [update, Option.bind_eq_bind, Option.bind_eq_some_iff, Prod.exists] at h
  obtain ⟨at_, kb₁, hpos, f, hf, b, hb, h⟩ := h
  cases h
  refine ⟨at_, kb₁, f, hpos, hf, ?_, fun hnodup => ?_, ?_⟩
  · rw [KnowledgeBase.getFunction_addFunction_self]
    rfl
  · rw [KnowledgeBase.addFunction_modelFacts, KnowledgeBase.addFact_modelFacts]
    apply KnowledgeBase.post_nodup
    have hobjectives := addObjectives_nodup obj (dropAchived kb₁.modelGoals kb₁ f).1
      (dropAchived kb₁.modelGoals kb₁ f).2 ((dropAchived_fst kb₁.modelGoals kb₁ f).1 ▸ hnodup)
    split
    · exact hobjectives
    · rw [(foldl_addMissionGoal _ _).1]
      exact hobjectives
  · rw [KnowledgeBase.addFunction_modelGoals, KnowledgeBase.addFact_modelGoals]
    split
    · exact ⟨[], addObjectives_modelGoals _ _ _⟩
    · refine ⟨obj.finish, ?_⟩
      rw [finish_modelGoals, addObjectives_modelGoals]

omit [DecidableEq R] in
/-- A goal to achieve is no `at`, and its fact is none of those that the script sets. -/
theorem posted_fact {obj : Objectives R} {g : Goal R} (hg : g ∈ posted obj) : g.isAt = false ∧ g.fact ≠ .atMove := by
  have hat := posted_toAchieve obj g hg
  cases g <;> simp [Goal.isAt, Goal.fact] at hat ⊢

omit [LinearOrder K] in
/-- **One replan.**  The count stays right exactly when the new mission is fresh. -/
theorem update_counted_iff [CharZero K] {onMove : Bool} {location : Option R} {obj : Objectives R}
    {kb kb' : JKnowledge R K} (hkb : Consistent kb) (hcount : Counted kb)
    (h : update onMove location obj kb = some kb') : Counted kb' ↔ Fresh kb obj := by
  obtain ⟨at_, kb₁, f, hpos, hf, htotal, -, finish, hgoals⟩ := update_eq_some h
  obtain ⟨hg₁, hn₁, hnodup, hfacts⟩ := position_frame hpos
  obtain ⟨hopen, hdrop⟩ := goalsToAchieve_dropAchived (hnodup hkb.facts) f
  have hf' : f = (goalsToAchieve kb₁.modelGoals : K) := by
    rw [Counted, ← KnowledgeBase.getFunction_congr hn₁, hf, ← hg₁] at hcount
    exact Option.some_inj.mp hcount
  have hsnd : (dropAchived kb₁.modelGoals kb₁ f).2 =
      (goalsToAchieve (dropAchived kb₁.modelGoals kb₁ f).1.modelGoals : K) := by
    have hdropped : (dropAchived kb₁.modelGoals kb₁ f).2 = f - (kb₁.modelGoals.countP (achieved kb₁) : K) := by
      rw [dropAchived_eq _ _ (hnodup hkb.facts)]
    have hcast := congrArg (Nat.cast (R := K)) hdrop
    rw [Nat.cast_add] at hcast
    linear_combination hdropped + hf' - hcast
  have hposted := goalsToAchieve_posted_iff obj (dropAchived kb₁.modelGoals kb₁ f).1.modelGoals
  have hnew : (∀ g ∈ posted obj, g ∉ (dropAchived kb₁.modelGoals kb₁ f).1.modelGoals) ↔
      ∀ g ∈ posted obj, g ∈ kb.modelGoals → g.fact ∈ kb.modelFacts := by
    refine forall₂_congr (fun g hg => ?_)
    obtain ⟨hat, hfact⟩ := posted_fact hg
    rw [hopen g, hg₁, achieved, hat, Bool.not_false, Bool.true_and, decide_eq_false_iff_not, hfacts _ hfact]
    tauto
  rw [Fresh, ← hnew, ← hposted, Counted, htotal, hsnd, hgoals, goalsToAchieve_finish, Option.some_inj, add_assoc,
    ← Nat.cast_add, ← Nat.cast_add, Nat.cast_inj, eq_comm]

omit [LinearOrder K] in
theorem update_consistent {onMove : Bool} {location : Option R} {obj : Objectives R} {kb kb' : JKnowledge R K}
    (hkb : Consistent kb) (h : update onMove location obj kb = some kb') : Consistent kb' := by
  obtain ⟨at_, kb₁, f, hpos, _, _, hnodup', finish, hgoals⟩ := update_eq_some h
  obtain ⟨hg₁, _, hnodup, _⟩ := position_frame hpos
  refine ⟨hnodup' (hnodup hkb.facts), ?_⟩
  have hdrop : (dropAchived kb₁.modelGoals kb₁ f).1.modelGoals.Nodup := by
    rw [dropAchived_eq _ _ (hnodup hkb.facts)]
    exact (hg₁ ▸ hkb.goals).filter _
  rw [hgoals]
  exact KnowledgeBase.foldl_post_nodup (KnowledgeBase.foldl_post_nodup hdrop _) _

end

section demo

/-- One field, sprayed twice. -/
def sprayedTwice : List (MissionStep Bool) := [⟨.pulverize, true⟩, ⟨.pulverize, true⟩, ⟨.finish, false⟩]

/-- One field, sprayed and photographed. -/
def sprayedAndSeen : List (MissionStep Bool) := [⟨.pulverize, true⟩, ⟨.takePicture, true⟩, ⟨.finish, false⟩]

theorem createPddlGlobal_counted_once :
    Counted (createPddlGlobal false demoHardware demoMapa [] (objectives sprayedAndSeen)) :=
  (createPddlGlobal_counted_iff false demoHardware demoMapa [] sprayedAndSeen).mpr (by decide)

/-- There is one goal, and the count is two. -/
theorem createPddlGlobal_counted_fails : ¬ ∀ (base_1 : Bool) (hardware : Hardware ℚ) (mapa : Mapa Bool)
    (distances : List ((Bool × Bool) × ℚ)) (mission : List (MissionStep Bool)),
    Counted (createPddlGlobal base_1 hardware mapa distances (objectives mission)) := by
  intro h
  have hcount := h false demoHardware demoMapa [] sprayedTwice
  revert hcount
  decide +kernel

end demo

/-! ### Over a mission -/

section
variable {R K : Type} [Fintype R] [DecidableEq R] [Field K] [LinearOrder K]

/-- What happens to the knowledge base: the events of the actions, and replans for a new mission. -/
inductive Change (K : Type) {R : Type} (isBase : R → Bool)
  | action (e : Event (Action isBase) K)
  | replan (onMove : Bool) (location : Option R) (mission : List (MissionStep R))

variable {isBase : R → Bool}

/-- One change. -/
def change (kb : JKnowledge R K) : Change K isBase → Option (JKnowledge R K)
  | .action e => some (observe op kb e)
  | .replan onMove location mission => update onMove location (objectives mission) kb

/-- The mission of a replan is fresh. -/
def FreshChange (kb : JKnowledge R K) : Change K isBase → Prop
  | .action _ => True
  | .replan _ _ mission => Fresh kb (objectives mission)

theorem observe_modelGoals (kb : JKnowledge R K) (e : Event (Action isBase) K) :
    (observe op kb e).modelGoals = kb.modelGoals := by
  cases e <;> exact updatePredicates_modelGoals _ _

/-- **Over a mission.**  From a knowledge base whose count of goals is right, over any actions and any number
of replans, the count stays right exactly when the mission of each replan is fresh. -/
theorem always_counted_iff [CharZero K] {kb : JKnowledge R K} (hkb : Consistent kb) (hcount : Counted kb)
    (cs : List (Change K isBase)) : Always change Counted kb cs ↔ Each change FreshChange kb cs := by
  refine always_iff_each ?_ ?_ hkb hcount cs
  · intro kb c kb' hstep h
    cases c with
    | action e =>
        cases hstep
        refine ⟨?_, ?_⟩
        · cases e <;> exact updatePredicates_nodup _ h.facts
        · rw [observe_modelGoals]
          exact h.goals
    | replan onMove location mission => exact update_consistent h hstep
  · intro kb c kb' hstep hkb hcount
    cases c with
    | action e =>
        cases hstep
        refine iff_of_true ?_ trivial
        have hfun : (observe op kb e).modelFunctions = kb.modelFunctions := replay_modelFunctions op kb [e]
        rw [Counted, observe_modelGoals, KnowledgeBase.getFunction_congr hfun]
        exact hcount
    | replan onMove location mission => exact update_counted_iff hkb hcount hstep

end

section demo

instance (kb : JKnowledge Bool ℚ) : Decidable (Consistent kb) :=
  decidable_of_iff (kb.modelFacts.Nodup ∧ kb.modelGoals.Nodup) ⟨fun h => ⟨h.1, h.2⟩, fun h => ⟨h.1, h.2⟩⟩

/-- A replan at a place. -/
def replanFor (mission : List (MissionStep Bool)) : Change ℚ (fun r : Bool => !r) := .replan false none mission

theorem consistent_demoProblem : Consistent demoProblem ∧ Counted demoProblem := by decide +kernel

/-- The field is photographed as well. -/
theorem always_counted_pictureToo :
    Always change Counted demoProblem [replanFor [⟨.takePicture, true⟩]] ↔
      Each change FreshChange demoProblem [replanFor [⟨.takePicture, true⟩]] :=
  always_counted_iff consistent_demoProblem.1 consistent_demoProblem.2 _

/-- The field that is still to be sprayed is asked for again. -/
theorem always_counted_fails : ¬ ∀ (kb : JKnowledge Bool ℚ) (cs : List (Change ℚ (fun r : Bool => !r))),
    Consistent kb → Counted kb → Always change Counted kb cs := by
  intro h
  have hall := h demoProblem [replanFor [⟨.pulverize, true⟩]] consistent_demoProblem.1 consistent_demoProblem.2
  revert hall
  decide +kernel

end demo

end DroneArch.Journal
