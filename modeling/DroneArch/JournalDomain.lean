import Mathlib.Algebra.Field.Basic
import Mathlib.Algebra.Order.Field.Basic
import Mathlib.Data.Fintype.Basic
import Mathlib.Tactic.DeriveFintype
import DroneArch.Durative
import DroneArch.Numerals

/-! # The mission domain `domain_journal.pddl`

The predicates, functions and durative actions of the domain, as ground operators over a
finite type `R` of places.  `isBase` marks the objects of type `base`, a subtype of `region`:
an action with a parameter of type `base` takes an element of `Base isBase`.

`op` is the table of the thirteen actions, in the order of the file.  Its fields repeat the
file's `:duration`, `:condition` and `:effect`; every amount of battery in the file has the
form `(* (/ x (velocity)) (discharge-rate-battery))` and is written `draw v x`.  The function
`recharge-rate-input`, which no action reads, is left out. -/

namespace DroneArch.Journal

open Durative

/-- The ground predicates of the domain. -/
inductive Fact (R : Type)
  | beenAt (region : R)
  | carry
  | at_ (region : R)
  | to (region : R)
  | nto (region : R)
  | canSpray
  | canRecharge
  | takenImage (region : R)
  | pulverized (region : R)
  | canGo
  | canTakePic
  | itsNotBase (region : R)
  | pulverizeGoal (region : R)
  | pictureGoal (region : R)
  | hwReady (source target : R)
  | canGoToBase
  | hasPulverizeGoal
  | hasPictureGoal
  | atMove
deriving DecidableEq

instance {R : Type} [DecidableEq R] : LawfulBEq (Fact R) := inferInstance

/-- The ground functions of the domain. -/
inductive Fluent (R : Type)
  | batteryAmount
  | inputAmount
  | rechargeRateBattery
  | dischargeRateBattery
  | batteryCapacity
  | inputCapacity
  | distance (fromRegion toRegion : R)
  | velocity
  | picturePathLen (region : R)
  | pulverizePathLen (region : R)
  | totalGoals
  | goalsAchived
deriving DecidableEq

/-- The objects of type `base`. -/
abbrev Base {R : Type} (isBase : R → Bool) : Type := {r : R // isBase r = true}

/-- The ground durative actions. -/
inductive Action {R : Type} (isBase : R → Bool)
  | cleanCamera (region : Base isBase)
  | setNextRegion (to_ : R)
  | goToPicture (fromRegion toRegion : R)
  | goTo (fromRegion toRegion : R)
  | needBattery
  | needInput
  | hasAllGoalsAchived
  | goToBase (fromRegion : R) (toRegion : Base isBase)
  | rechargeInput (region : Base isBase)
  | pulverizeRegion (region : R)
  | takeImage (region : R)
  | rechargeBattery (region : Base isBase)
  | hwIsReady (source target : R)
deriving DecidableEq

section
variable {R K : Type} [Fintype R] [DecidableEq R] [Field K] [LinearOrder K]
variable {isBase : R → Bool}

/-- Battery drawn by flying `x` metres: `(* (/ x (velocity)) (discharge-rate-battery))`. -/
def draw (v : Fluent R → K) (x : K) : K := x / v .velocity * v .dischargeRateBattery

/-- The planning states of the domain. -/
abbrev JState (R K : Type) : Type := State (Fact R) (Fluent R) K

/-- The configurations of the domain. -/
abbrev JConfig (K : Type) [Field K] [LinearOrder K] {R : Type} (isBase : R → Bool) : Type :=
  Config (Action isBase) (Fact R) (Fluent R) K

/-- The durative actions of the domain. -/
def op : Action isBase → Operator (Fact R) (Fluent R) K
  | .cleanCamera region =>
      { duration := fun _ => 8
        overAll := fun s => s.holds (.at_ region)
        startEffect := { add := [.canTakePic] } }
  | .setNextRegion to_ =>
      { duration := fun _ => 0
        atStart := fun s => decide (∀ r, s.holds (.nto r) = true)
        endEffect := { add := [.to to_], del := [.nto to_] } }
  | .goToPicture fromRegion toRegion =>
      { duration := fun v => v (.distance fromRegion toRegion) / v .velocity
        atStart := fun s => s.holds (.at_ fromRegion) && s.holds (.to toRegion) && s.holds .hasPictureGoal &&
          decide (s.val .batteryAmount > draw s.val (s.val (.distance fromRegion toRegion)) +
            draw s.val (s.val (.picturePathLen toRegion)))
        overAll := fun s => s.holds (.itsNotBase toRegion) && s.holds (.pictureGoal toRegion) && s.holds .canGo
        startEffect :=
          { add := [.atMove]
            del := [.at_ fromRegion]
            num := [.decrease .batteryAmount (fun v _ => draw v (v (.distance fromRegion toRegion)))] }
        endEffect :=
          { add := [.at_ toRegion, .beenAt toRegion, .nto toRegion]
            del := [.atMove, .to toRegion] } }
  | .goTo fromRegion toRegion =>
      { duration := fun v => v (.distance fromRegion toRegion) / v .velocity
        atStart := fun s => s.holds (.at_ fromRegion) && s.holds .hasPulverizeGoal &&
          decide (s.val .inputAmount > 0) &&
          decide (s.val .batteryAmount > draw s.val (s.val (.distance fromRegion toRegion)) +
            draw s.val (s.val (.pulverizePathLen toRegion)))
        overAll := fun s => s.holds (.itsNotBase toRegion) && s.holds (.pulverizeGoal toRegion) &&
          s.holds .canGo && s.holds (.to toRegion)
        startEffect :=
          { add := [.atMove]
            del := [.at_ fromRegion]
            num := [.decrease .batteryAmount (fun v _ => draw v (v (.distance fromRegion toRegion)))] }
        endEffect :=
          { add := [.at_ toRegion, .beenAt toRegion, .nto toRegion]
            del := [.atMove, .to toRegion] } }
  | .needBattery =>
      { duration := fun _ => 1
        atStart := fun s => decide (s.val .batteryAmount < 30)
        startEffect := { add := [.canGoToBase] } }
  | .needInput =>
      { duration := fun _ => 1
        atStart := fun s => decide (s.val .inputAmount = 0)
        overAll := fun s => s.holds .hasPulverizeGoal
        startEffect := { add := [.canGoToBase] } }
  | .hasAllGoalsAchived =>
      { duration := fun _ => 1
        atStart := fun s => decide (s.val .totalGoals = s.val .goalsAchived)
        startEffect := { add := [.canGoToBase] } }
  | .goToBase fromRegion toRegion =>
      { duration := fun v => v (.distance fromRegion toRegion) / v .velocity
        atStart := fun s => s.holds (.at_ fromRegion) && s.holds .canGoToBase
        overAll := fun s => s.holds .canGo
        startEffect :=
          { del := [.at_ fromRegion]
            num := [.decrease .batteryAmount (fun v _ => draw v (v (.distance fromRegion toRegion)))] }
        endEffect :=
          { add := [.at_ toRegion, .beenAt toRegion]
            del := [.canGoToBase] } }
  | .rechargeInput region =>
      { duration := fun _ => 8
        atStart := fun s => decide (s.val .inputAmount = 0)
        overAll := fun s => s.holds (.at_ region)
        startEffect := { num := [.assign .inputAmount (fun v _ => v .inputCapacity)] }
        endEffect := { add := [.carry, .canSpray] } }
  | .pulverizeRegion region =>
      { duration := fun v => 314 / v .velocity
        atStart := fun s => s.holds .canSpray && s.holds (.at_ region) && s.holds .carry &&
          decide (s.val .inputAmount > 0) && decide (s.val .batteryAmount > draw s.val 314)
        overAll := fun s => s.holds (.at_ region)
        startEffect :=
          { del := [.canGo, .canSpray, .canTakePic]
            num := [.decrease .batteryAmount (fun v _ => draw v 314)] }
        endEffect :=
          { add := [.pulverized region, .canSpray, .canGo]
            num := [.decrease .inputAmount (fun _ _ => 1), .increase .goalsAchived (fun _ _ => 1)] } }
  | .takeImage region =>
      { duration := fun v => 1000 / v .velocity
        atStart := fun s => s.holds .canTakePic && decide (s.val .batteryAmount > draw s.val 1000)
        overAll := fun s => s.holds (.at_ region)
        startEffect := { del := [.canGo] }
        endEffect :=
          { add := [.takenImage region, .canGo]
            del := [.to region]
            num := [.decrease .batteryAmount (fun v _ => draw v 1000), .increase .goalsAchived (fun _ _ => 1)] } }
  | .rechargeBattery region =>
      { duration := fun v => (v .batteryCapacity - v .batteryAmount) / v .rechargeRateBattery
        atStart := fun s => s.holds (.at_ region) && decide (s.val .batteryAmount < 80)
        overAll := fun s => s.holds (.at_ region)
        startEffect := { add := [.canRecharge] }
        endEffect := { num := [.increase .batteryAmount (fun v d => d * v .rechargeRateBattery)] } }
  | .hwIsReady source target =>
      { duration := fun _ => 1
        atStart := fun s => decide (s.val .batteryAmount > draw s.val (s.val (.distance source target)))
        startEffect := { add := [.hwReady source target] } }

end

section
variable {R K : Type} {isBase : R → Bool}

/-- The movement actions. -/
def Action.isMove : Action isBase → Bool
  | .goToPicture _ _ | .goTo _ _ | .goToBase _ _ => true
  | _ => false

/-- The flight actions: the executor uploads and flies a route for each of them. -/
def Action.isFlight : Action isBase → Bool
  | .goToPicture _ _ | .goTo _ _ | .goToBase _ _ | .pulverizeRegion _ | .takeImage _ => true
  | _ => false

/-- The flight actions carried out over one region. -/
def Action.isOverRegion : Action isBase → Bool
  | .pulverizeRegion _ | .takeImage _ => true
  | _ => false

/-! ### Positions -/

/-- Exactly one place is the vehicle's position. -/
def AtOne (s : JState R K) : Prop := ∃ r, s.holds (.at_ r) = true ∧ ∀ r', s.holds (.at_ r') = true → r' = r

/-- No place is the vehicle's position. -/
def AtNone (s : JState R K) : Prop := ∀ r, s.holds (.at_ r) = false

instance [Fintype R] [DecidableEq R] (s : JState R K) : Decidable (AtOne s) :=
  inferInstanceAs (Decidable (∃ _, _ ∧ _))

instance [Fintype R] (s : JState R K) : Decidable (AtNone s) :=
  inferInstanceAs (Decidable (∀ _, _))

theorem AtOne.congr {s s' : JState R K} (h : ∀ r, s'.holds (.at_ r) = s.holds (.at_ r)) (hs : AtOne s) :
    AtOne s' := by
  obtain ⟨r, hr, hu⟩ := hs
  exact ⟨r, (h r).trans hr, fun r' hr' => hu r' ((h r').symm.trans hr')⟩

theorem AtNone.congr {s s' : JState R K} (h : ∀ r, s'.holds (.at_ r) = s.holds (.at_ r)) (hs : AtNone s) :
    AtNone s' := fun r => (h r).trans (hs r)

theorem AtOne.not_none {s : JState R K} (h : AtOne s) : ¬ AtNone s := by
  obtain ⟨r, hr, _⟩ := h
  intro hn
  rw [hn r] at hr
  cases hr

end

end DroneArch.Journal
