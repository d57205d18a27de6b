import Mathlib.Algebra.Field.Rat
import Mathlib.Algebra.Order.Ring.Rat
import Mathlib.Algebra.Order.Ring.Cast
import Mathlib.Data.Fintype.Card
import Mathlib.Tactic.Ring
import DroneArch.JournalDomain

/-! # Goals and targets of the mission domain

Two pieces of bookkeeping in `domain_journal.pddl`, over sequences of complete actions.

* `(goals-achived)` counts `pulverize_region` and `take_image` actions.  It equals the number
  of goals done along a run exactly when each of these actions serves a goal that is not done
  yet (`goalsExact_iff`).
* `(to r)` and `(nto r)` are a complementary pair maintained by hand.  It stays one along a
  run exactly when no `take_image` is applied at the current target (`targets_iff`). -/

namespace DroneArch.Journal

open Durative Runs

section
variable {R K : Type} [Fintype R] [DecidableEq R] [Field K] [LinearOrder K]
variable {isBase : R → Bool}

/-- The state after a complete action. -/
def after (s : JState R K) (a : Action isBase) : JState R K :=
  (op a).endEffect.apply ((op a).duration s.val) ((op a).startEffect.apply ((op a).duration s.val) s)

theorem complete_after {s s' : JState R K} {a : Action isBase} (h : complete op s a = some s') :
    s' = after s a := (complete_eq_some.mp h).2.2.2.2

/-! ### Goals -/

/-- The number of goals that are done. -/
def goalsDone (s : JState R K) : ℕ :=
  (Finset.univ.filter (fun r => s.holds (.pulverizeGoal r) && s.holds (.pulverized r))).card +
  (Finset.univ.filter (fun r => s.holds (.pictureGoal r) && s.holds (.takenImage r))).card

/-- The number of goals. -/
def goalCount (s : JState R K) : ℕ :=
  (Finset.univ.filter (fun r => s.holds (.pulverizeGoal r) = true)).card +
  (Finset.univ.filter (fun r => s.holds (.pictureGoal r) = true)).card

/-- `(goals-achived)` is the number of goals that are done. -/
def GoalsExact (s : JState R K) : Prop := s.val .goalsAchived = (goalsDone s : K)

/-- Every goal is done. -/
def AllGoalsDone (s : JState R K) : Prop :=
  (∀ r, s.holds (.pulverizeGoal r) = true → s.holds (.pulverized r) = true) ∧
  (∀ r, s.holds (.pictureGoal r) = true → s.holds (.takenImage r) = true)

/-- The action serves a goal that is not done yet. -/
def GoalGuard (s : JState R K) : Action isBase → Prop
  | .pulverizeRegion r => s.holds (.pulverizeGoal r) = true ∧ s.holds (.pulverized r) = false
  | .takeImage r => s.holds (.pictureGoal r) = true ∧ s.holds (.takenImage r) = false
  | _ => True

instance (s : JState R K) : Decidable (GoalsExact s) := inferInstanceAs (Decidable (_ = _))
instance (s : JState R K) : Decidable (AllGoalsDone s) := inferInstanceAs (Decidable (_ ∧ _))
instance (s : JState R K) (a : Action isBase) : Decidable (GoalGuard s a) := by
  unfold GoalGuard
  split <;> infer_instance

theorem after_pulverizeGoal (s : JState R K) (a : Action isBase) (r : R) :
    (after s a).holds (.pulverizeGoal r) = s.holds (.pulverizeGoal r) := by
  cases a <;> simp [after, op, Effect.apply]

theorem after_pictureGoal (s : JState R K) (a : Action isBase) (r : R) :
    (after s a).holds (.pictureGoal r) = s.holds (.pictureGoal r) := by
  cases a <;> simp [after, op, Effect.apply]

theorem after_pulverized (s : JState R K) (a : Action isBase) (r : R) :
    (after s a).holds (.pulverized r) = (decide (a = .pulverizeRegion r) || s.holds (.pulverized r)) := by
  cases a with
  | pulverizeRegion x => simp [after, op, Effect.apply, eq_comm (a := r)]
  | _ => simp [after, op, Effect.apply]

theorem after_takenImage (s : JState R K) (a : Action isBase) (r : R) :
    (after s a).holds (.takenImage r) = (decide (a = .takeImage r) || s.holds (.takenImage r)) := by
  cases a with
  | takeImage x => simp [after, op, Effect.apply, eq_comm (a := r)]
  | _ => simp [after, op, Effect.apply]

theorem after_goalsAchived (s : JState R K) (a : Action isBase) :
    (after s a).val .goalsAchived = s.val .goalsAchived + if a.isOverRegion then 1 else 0 := by
  cases a <;>
    simp [after, op, Effect.apply, NumEffect.decrease, NumEffect.increase, NumEffect.assign, Action.isOverRegion]

omit [Fintype R] in
/-- Marking one more element adds one to the count exactly when it is a new one. -/
theorem card_filter_mark [Fintype R] (goal done : R → Bool) (x : R) :
    (Finset.univ.filter (fun r => goal r && (decide (x = r) || done r))).card =
      (Finset.univ.filter (fun r => goal r && done r)).card + if goal x && !done x then 1 else 0 := by
  by_cases hnew : (goal x && !done x) = true
  · rw [if_pos hnew]
    simp only [Bool.and_eq_true, Bool.not_eq_eq_eq_not, Bool.not_true] at hnew
    have : Finset.univ.filter (fun r => (goal r && (decide (x = r) || done r)) = true) =
        insert x (Finset.univ.filter (fun r => (goal r && done r) = true)) := by
      ext r
      by_cases hr : x = r
      · subst hr; simp [hnew]
      · simp [hr, Ne.symm hr]
    rw [this, Finset.card_insert_of_notMem (by simp [hnew])]
  · rw [if_neg hnew, add_zero]
    congr 1
    ext r
    by_cases hr : x = r
    · subst hr
      cases hg : goal x <;> cases hd : done x <;> simp_all
    · simp [hr]

theorem goalsDone_after (s : JState R K) (a : Action isBase) :
    goalsDone (after s a) = goalsDone s + if a.isOverRegion ∧ GoalGuard s a then 1 else 0 := by
  simp only [goalsDone, after_pulverizeGoal, after_pulverized, after_pictureGoal, after_takenImage]
  cases a with
  | pulverizeRegion x =>
      have := card_filter_mark (fun r => s.holds (.pulverizeGoal r)) (fun r => s.holds (.pulverized r)) x
      simp only [Action.pulverizeRegion.injEq, reduceCtorEq, decide_false, Bool.false_or] at this ⊢
      rw [this]
      simp [Action.isOverRegion, GoalGuard]
      ring
  | takeImage x =>
      have := card_filter_mark (fun r => s.holds (.pictureGoal r)) (fun r => s.holds (.takenImage r)) x
      simp only [Action.takeImage.injEq, reduceCtorEq, decide_false, Bool.false_or] at this ⊢
      rw [this]
      simp [Action.isOverRegion, GoalGuard]
      ring
  | _ => simp [Action.isOverRegion]

section
variable [IsStrictOrderedRing K]

/-- One complete action keeps the count exact exactly when it serves a new goal, if any. -/
theorem goalsExact_after {s : JState R K} (h : GoalsExact s) (a : Action isBase) :
    GoalsExact (after s a) ↔ GoalGuard s a := by
  unfold GoalsExact at h ⊢
  rw [after_goalsAchived, goalsDone_after, h]
  by_cases ha : a.isOverRegion = true
  · by_cases hg : GoalGuard s a
    · simp [ha, hg]
    · simp [ha, hg]
  · have hg : GoalGuard s a := by
      cases a <;> simp [Action.isOverRegion] at ha <;> trivial
    simp [ha, hg]

omit [DecidableEq R] [Field K] [LinearOrder K] [IsStrictOrderedRing K] in
/-- When as many goals are done as there are goals, all are done. -/
theorem allGoalsDone_of_count {s : JState R K} (h : goalCount s = goalsDone s) : AllGoalsDone s := by
  have hsub : ∀ goal done : R → Bool, Finset.univ.filter (fun r => (goal r && done r) = true) ⊆
      Finset.univ.filter (fun r => goal r = true) := by
    intro goal done r
    simp only [Finset.mem_filter, Finset.mem_univ, true_and, Bool.and_eq_true]
    exact And.left
  have h1 := Finset.card_le_card (hsub (fun r => s.holds (.pulverizeGoal r)) (fun r => s.holds (.pulverized r)))
  have h2 := Finset.card_le_card (hsub (fun r => s.holds (.pictureGoal r)) (fun r => s.holds (.takenImage r)))
  unfold goalCount goalsDone at h
  have e1 := Finset.eq_of_subset_of_card_le
    (hsub (fun r => s.holds (.pulverizeGoal r)) (fun r => s.holds (.pulverized r))) (by omega)
  have e2 := Finset.eq_of_subset_of_card_le
    (hsub (fun r => s.holds (.pictureGoal r)) (fun r => s.holds (.takenImage r))) (by omega)
  constructor
  · intro r hr
    have : r ∈ Finset.univ.filter (fun r => s.holds (.pulverizeGoal r) = true) := by simp [hr]
    rw [← e1] at this
    simpa [hr] using this
  · intro r hr
    have : r ∈ Finset.univ.filter (fun r => s.holds (.pictureGoal r) = true) := by simp [hr]
    rw [← e2] at this
    simpa [hr] using this

/-- **Goal counting.**  From a state in which `(goals-achived)` is the number of goals done, it
is so along a run of complete actions exactly when every `pulverize_region` and `take_image`
serves a goal that is not done yet; after such a run, if `(total-goals)` is the number of goals,
`has_all_goals_achived` is applicable only if every goal is done. -/
theorem goalsExact_iff {s : JState R K} (h : GoalsExact s) (as : List (Action isBase)) :
    (Always (complete op) GoalsExact s as ↔ Each (complete op) GoalGuard s as) ∧
    (Each (complete op) GoalGuard s as → ∀ s', run (complete op) s as = some s' →
      s'.val .totalGoals = (goalCount s' : K) →
      (op (.hasAllGoalsAchived : Action isBase)).atStart s' = true → AllGoalsDone s') := by
  have hiff : Always (complete op) GoalsExact s as ↔ Each (complete op) GoalGuard s as := by
    refine always_iff_each (I := fun _ => True) (fun _ _ _ _ _ => trivial) ?_ trivial h as
    intro s a s' hs _ hP
    rw [complete_after hs]
    exact goalsExact_after hP a
  refine ⟨hiff, fun hg s' hrun htot happ => ?_⟩
  have hex : GoalsExact s' := (hiff.mpr hg).last hrun
  have heq : s'.val .totalGoals = s'.val .goalsAchived := by simpa [op] using happ
  rw [htot, hex] at heq
  exact allGoalsDone_of_count (Nat.cast_injective heq)

end

end

/-! ### A region sprayed twice -/

section demo

/-- Two regions to be sprayed; the vehicle is over the first (`false`). -/
def twoFieldsState : JState Bool ℚ where
  holds
    | .at_ r => !r
    | .pulverizeGoal _ | .canGo | .canSpray | .carry | .hasPulverizeGoal => true
    | _ => false
  val
    | .batteryAmount | .batteryCapacity => 100
    | .inputAmount | .inputCapacity | .totalGoals => 2
    | .velocity => 10
    | .dischargeRateBattery => 1 / 10
    | _ => 0

/-- The first region is sprayed twice. -/
def sprayTwice : List (Action (fun _ : Bool => false)) := [.pulverizeRegion false, .pulverizeRegion false]

/-- The second spraying is counted: `has_all_goals_achived` is applicable with one region untreated. -/
theorem goalsExact_fails : GoalsExact twoFieldsState ∧
    twoFieldsState.val .totalGoals = (goalCount twoFieldsState : ℚ) ∧
    ¬ Always (complete op) GoalsExact twoFieldsState sprayTwice ∧
    ∃ s', run (complete op) twoFieldsState sprayTwice = some s' ∧
      s'.val .totalGoals = (goalCount s' : ℚ) ∧
      (op (.hasAllGoalsAchived : Action (fun _ : Bool => false))).atStart s' = true ∧ ¬ AllGoalsDone s' :=
  ⟨by decide +kernel, by decide +kernel, by decide +kernel,
    (run (complete op) twoFieldsState sprayTwice).get (by decide +kernel), by simp, by decide +kernel,
    by decide +kernel, by decide +kernel⟩

theorem goalsExact_sprayOnce :
    Always (complete op) GoalsExact twoFieldsState
      ([.pulverizeRegion false] : List (Action (fun _ : Bool => false))) :=
  (goalsExact_iff (by decide +kernel) _).1.mpr (by decide +kernel)

end demo

/-! ### Targets -/

section
variable {R K : Type} [Fintype R] [DecidableEq R] [Field K] [LinearOrder K]
variable {isBase : R → Bool}

/-- Every place satisfies exactly one of `(to r)` and `(nto r)`, and at most one `(to r)`. -/
def Targets (s : JState R K) : Prop :=
  (∀ r, s.holds (.nto r) = !s.holds (.to r)) ∧
  (∀ r r', s.holds (.to r) = true → s.holds (.to r') = true → r = r')

/-- Every place satisfies `(nto r)` and none `(to r)`, as the problem generator writes it. -/
def NoTarget (s : JState R K) : Prop := ∀ r, s.holds (.nto r) = true ∧ s.holds (.to r) = false

/-- The pictures are not taken at the current target. -/
def TargetGuard (s : JState R K) : Action isBase → Prop
  | .takeImage r => s.holds (.to r) = false
  | _ => True

instance (s : JState R K) : Decidable (Targets s) := inferInstanceAs (Decidable (_ ∧ _))
instance (s : JState R K) : Decidable (NoTarget s) := inferInstanceAs (Decidable (∀ _, _))

omit [Fintype R] [DecidableEq R] [Field K] [LinearOrder K] in
theorem NoTarget.targets {s : JState R K} (h : NoTarget s) : Targets s := by
  refine ⟨fun r => ?_, fun r _ hr _ => ?_⟩
  · rw [(h r).1, (h r).2]; rfl
  · rw [(h r).2] at hr
    cases hr

/-- The place an action stops being the target of. -/
def Action.reaches : Action isBase → R → Bool
  | .goTo _ t, r | .goToPicture _ t, r => decide (r = t)
  | _, _ => false

theorem after_to (s : JState R K) (a : Action isBase) (r : R) : (after s a).holds (.to r) =
    (decide (a = .setNextRegion r) || (s.holds (.to r) && !(a.reaches r || decide (a = .takeImage r)))) := by
  cases a with
  | setNextRegion x | takeImage x => simp [after, op, Effect.apply, Action.reaches, eq_comm (a := r)]
  | _ => simp [after, op, Effect.apply, Action.reaches]

theorem after_nto (s : JState R K) (a : Action isBase) (r : R) : (after s a).holds (.nto r) =
    (a.reaches r || (s.holds (.nto r) && !decide (a = .setNextRegion r))) := by
  cases a with
  | setNextRegion x => simp [after, op, Effect.apply, Action.reaches, eq_comm (a := r)]
  | _ => simp [after, op, Effect.apply, Action.reaches]

/-- One complete action keeps the pair complementary exactly when it takes no picture at the
current target. -/
theorem targets_after {s : JState R K} (h : Targets s) {a : Action isBase} (hs : (op a).atStart s = true) :
    Targets (after s a) ↔ TargetGuard s a := by
  obtain ⟨hpair, huniq⟩ := h
  cases a with
  | setNextRegion t =>
      have hall : ∀ r, s.holds (.nto r) = true := by simpa [op] using hs
      have hto : ∀ r, s.holds (.to r) = false := fun r => by simpa [hpair r] using hall r
      simp only [TargetGuard, iff_true]
      refine ⟨fun r => ?_, fun r r' h h' => ?_⟩
      · rw [after_to, after_nto, hall r, hto r]
        simp [Action.reaches]
      · rw [after_to, hto] at h h'
        simp only [Action.setNextRegion.injEq, Bool.false_and, Bool.or_false, decide_eq_true_eq] at h h'
        exact h.symm.trans h'
  | takeImage x =>
      constructor
      · intro h'
        have hx := h'.1 x
        rw [after_to, after_nto] at hx
        have : s.holds (.nto x) = true := by simpa [Action.reaches] using hx
        show s.holds (.to x) = false
        simpa [hpair x] using this
      · intro hx
        have hx : s.holds (.to x) = false := hx
        have hsame : ∀ r, (after s (.takeImage x : Action isBase)).holds (.to r) = s.holds (.to r) := by
          intro r
          rw [after_to]
          by_cases hr : x = r
          · subst hr; simp [hx]
          · simp [hr, Action.reaches]
        refine ⟨fun r => ?_, fun r r' h h' => ?_⟩
        · rw [hsame, after_nto, hpair]
          simp [Action.reaches]
        · rw [hsame] at h h'
          exact huniq r r' h h'
  | _ =>
      simp only [TargetGuard, iff_true]
      refine ⟨fun r => ?_, fun r r' h h' => huniq r r' ?_ ?_⟩
      · rw [after_to, after_nto, hpair]
        cases hto : s.holds (.to r) <;> simp [Action.reaches]
      · rw [after_to] at h
        simp at h
        exact h.1
      · rw [after_to] at h'
        simp at h'
        exact h'.1

/-- **Target bookkeeping.**  From a state without a target, `(to r)` and `(nto r)` are
complementary with at most one target along a run of complete actions exactly when no
`take_image` is applied at the current target. -/
theorem targets_iff {s : JState R K} (h : NoTarget s) (as : List (Action isBase)) :
    Always (complete op) Targets s as ↔ Each (complete op) TargetGuard s as := by
  refine always_iff_each (I := fun _ => True) (fun _ _ _ _ _ => trivial) ?_ trivial h.targets as
  intro s a s' hs _ hP
  rw [complete_after hs]
  exact targets_after hP (complete_eq_some.mp hs).1

end

/-! ### A picture taken at the target -/

section demo

/-- One region, with the vehicle and its camera over it and no target set. -/
def pictureState : JState Unit ℚ where
  holds
    | .at_ _ | .nto _ | .canGo | .canTakePic | .pictureGoal _ | .hasPictureGoal => true
    | _ => false
  val
    | .batteryAmount | .batteryCapacity => 100
    | .totalGoals => 1
    | .velocity => 10
    | .dischargeRateBattery => 1 / 10
    | _ => 0

/-- The region becomes the target and its pictures are taken. -/
def targetPicture : List (Action (fun _ : Unit => false)) := [.setNextRegion (), .takeImage ()]

/-- `take_image` deletes `(to r)` and leaves the region without either fact. -/
theorem targets_fails : NoTarget pictureState ∧
    (run (complete op) pictureState targetPicture).isSome = true ∧
    ¬ Always (complete op) Targets pictureState targetPicture :=
  ⟨by decide, by decide +kernel, by decide +kernel⟩

theorem targets_setNextRegion :
    Always (complete op) Targets pictureState ([.setNextRegion ()] : List (Action (fun _ : Unit => false))) :=
  (targets_iff (by decide) _).mpr (by simp [Each, TargetGuard])

end demo

end DroneArch.Journal
