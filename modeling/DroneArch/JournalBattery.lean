import Mathlib.Algebra.Field.Rat
import Mathlib.Algebra.Order.Ring.Rat
import Mathlib.Tactic.Linarith
import Mathlib.Tactic.Positivity
import DroneArch.JournalDomain

/-! # The battery in the mission domain

How the actions of `domain_journal.pddl` change `(battery-amount)`.  At its start an action
draws `startDraw`, at its end it changes the amount by `endGain`; no other function except
`(input-amount)` and `(goals-achived)` ever changes.

Every action that draws at its start checks the amount first, with one exception:
`go_to_base`.  And `take_image` checks at its start what it draws at its end.
`battery_nonneg_iff` states that these two gaps are the only ones. -/

namespace DroneArch.Journal

open Durative Runs

section
variable {R K : Type} [Fintype R] [DecidableEq R] [Field K] [LinearOrder K]
variable {isBase : R → Bool}

/-- Battery drawn at the start of an action. -/
def startDraw (v : Fluent R → K) : Action isBase → K
  | .goToPicture f t | .goTo f t => draw v (v (.distance f t))
  | .goToBase f t => draw v (v (.distance f t))
  | .pulverizeRegion _ => draw v 314
  | _ => 0

/-- Change of the battery at the end of an action that took `d`. -/
def endGain (v : Fluent R → K) (d : K) : Action isBase → K
  | .takeImage _ => -draw v 1000
  | .rechargeBattery _ => d * v .rechargeRateBattery
  | _ => 0

theorem start_battery (a : Action isBase) (d : K) (s : JState R K) :
    ((op a).startEffect.apply d s).val .batteryAmount = s.val .batteryAmount - startDraw s.val a := by
  cases a <;> simp [op, Effect.apply, startDraw, NumEffect.decrease, NumEffect.assign]

theorem end_battery (a : Action isBase) (d : K) (s : JState R K) :
    ((op a).endEffect.apply d s).val .batteryAmount = s.val .batteryAmount + endGain s.val d a := by
  cases a <;>
    simp [op, Effect.apply, endGain, NumEffect.decrease, NumEffect.increase, Function.update_of_ne, sub_eq_add_neg]

/-- The functions that no action changes. -/
def Fluent.isStatic : Fluent R → Bool
  | .batteryAmount | .inputAmount | .goalsAchived => false
  | _ => true

theorem start_static (a : Action isBase) (d : K) (s : JState R K) {f : Fluent R} (hf : f.isStatic = true) :
    ((op a).startEffect.apply d s).val f = s.val f := by
  apply Effect.apply_val_of_not_mem
  cases a <;> simp [op, NumEffect.decrease, NumEffect.assign] <;> (rintro rfl; cases hf)

theorem end_static (a : Action isBase) (d : K) (s : JState R K) {f : Fluent R} (hf : f.isStatic = true) :
    ((op a).endEffect.apply d s).val f = s.val f := by
  apply Effect.apply_val_of_not_mem
  cases a <;> simp [op, NumEffect.decrease, NumEffect.increase] <;> (try constructor) <;> (rintro rfl; cases hf)

theorem step_static {c c' : JConfig K isBase} {e : Event (Action isBase) K}
    (h : step op c e = some c') {f : Fluent R} (hf : f.isStatic = true) : c'.state.val f = c.state.val f := by
  rcases step_cases h with ⟨a, t, _, hs⟩ | ⟨a, t, d, _, hs⟩
  · rw [hs.state, start_static a _ _ hf]
  · rw [hs.state, end_static a _ _ hf]

/-- Positive speed and rates, and no negative length. -/
structure Rates (v : Fluent R → K) : Prop where
  velocity : 0 < v .velocity
  recharge : 0 < v .rechargeRateBattery
  discharge : 0 < v .dischargeRateBattery
  distance : ∀ f t, 0 ≤ v (.distance f t)
  picturePathLen : ∀ r, 0 ≤ v (.picturePathLen r)
  pulverizePathLen : ∀ r, 0 ≤ v (.pulverizePathLen r)

omit [Fintype R] [DecidableEq R] in
theorem Rates.congr {v v' : Fluent R → K} (h : ∀ f : Fluent R, f.isStatic = true → v' f = v f) (hv : Rates v) :
    Rates v' where
  velocity := (h .velocity rfl).symm ▸ hv.velocity
  recharge := (h .rechargeRateBattery rfl).symm ▸ hv.recharge
  discharge := (h .dischargeRateBattery rfl).symm ▸ hv.discharge
  distance f t := (h (.distance f t) rfl).symm ▸ hv.distance f t
  picturePathLen r := (h (.picturePathLen r) rfl).symm ▸ hv.picturePathLen r
  pulverizePathLen r := (h (.pulverizePathLen r) rfl).symm ▸ hv.pulverizePathLen r

/-- The two guards the domain lacks: `go_to_base` starts with the battery for its leg, and a
`take_image` ends with the battery for its pictures. -/
def BatteryGuard (c : JConfig K isBase) : Event (Action isBase) K → Prop
  | .start (.goToBase f t) _ => draw c.state.val (c.state.val (.distance f t)) ≤ c.state.val .batteryAmount
  | .finish (.takeImage _) _ => draw c.state.val 1000 ≤ c.state.val .batteryAmount
  | _ => True

instance (c : JConfig K isBase) :
    (e : Event (Action isBase) K) → Decidable (BatteryGuard c e) := by
  intro e
  unfold BatteryGuard
  split <;> infer_instance

section
variable [IsStrictOrderedRing K]

omit [Fintype R] [DecidableEq R] in
theorem Rates.draw_nonneg {v : Fluent R → K} (hv : Rates v) {x : K} (hx : 0 ≤ x) : 0 ≤ draw v x :=
  mul_nonneg (div_nonneg hx hv.velocity.le) hv.discharge.le

omit [DecidableEq R] in
/-- The actions that check the battery before they draw from it leave it non-negative. -/
theorem startDraw_le_of_guarded {c : JConfig K isBase} (hv : Rates c.state.val)
    (hb : 0 ≤ c.state.val .batteryAmount) {a : Action isBase} (hs : (op a).atStart c.state = true) (t : K) :
    startDraw c.state.val a ≤ c.state.val .batteryAmount ↔ BatteryGuard c (.start a t) := by
  cases a with
  | goToPicture f g =>
      simp only [op, Bool.and_eq_true, decide_eq_true_eq] at hs
      have h1 := hv.draw_nonneg (hv.picturePathLen g)
      have h2 := hs.2
      simp only [startDraw, BatteryGuard, iff_true]
      linarith
  | goTo f g =>
      simp only [op, Bool.and_eq_true, decide_eq_true_eq] at hs
      have h1 := hv.draw_nonneg (hv.pulverizePathLen g)
      have h2 := hs.2
      simp only [startDraw, BatteryGuard, iff_true]
      linarith
  | goToBase f g => exact Iff.rfl
  | pulverizeRegion r =>
      simp only [op, Bool.and_eq_true, decide_eq_true_eq] at hs
      simp only [startDraw, BatteryGuard, iff_true]
      exact hs.2.le
  | _ => simp [startDraw, BatteryGuard, hb]

omit [Fintype R] [DecidableEq R] in
/-- Only `take_image` can take the battery below zero at its end. -/
theorem endGain_nonneg_iff {c : JConfig K isBase} (hv : Rates c.state.val)
    (hb : 0 ≤ c.state.val .batteryAmount) (a : Action isBase) {d : K} (hd : 0 ≤ d) (t : K) :
    0 ≤ c.state.val .batteryAmount + endGain c.state.val d a ↔ BatteryGuard c (.finish a t) := by
  cases a with
  | takeImage r =>
      simp only [endGain, BatteryGuard]
      constructor <;> intro h <;> linarith
  | rechargeBattery r =>
      have := mul_nonneg hd hv.recharge.le
      simp only [endGain, BatteryGuard, iff_true]
      linarith
  | _ => simp [endGain, BatteryGuard, hb]

/-- **The battery.**  From a state with battery left, positive speed and rates and no negative
length, the battery stays non-negative along a run exactly when each `go_to_base` starts with
the battery for its leg and each `take_image` ends with the battery for its pictures. -/
theorem battery_nonneg_iff {s : JState R K} (hv : Rates s.val) (hb : 0 ≤ s.val .batteryAmount) (t : K)
    (es : List (Event (Action isBase) K)) :
    Always (step op) (fun c => 0 ≤ c.state.val .batteryAmount) (idle s t) es ↔
      Each (step op) BatteryGuard (idle s t) es := by
  refine always_iff_each (I := fun c : JConfig K isBase => Rates c.state.val) ?_ ?_ hv hb es
  · intro c e c' h hc
    exact hc.congr (fun f hf => step_static h hf)
  · intro c e c' h hc hP
    rcases step_cases h with ⟨a, t, rfl, hs⟩ | ⟨a, t, d, rfl, hf⟩
    · rw [hs.state, start_battery, sub_nonneg]
      exact startDraw_le_of_guarded hc hP hs.atStart t
    · rw [hf.state, end_battery]
      exact endGain_nonneg_iff hc hP a hf.nonneg t

end
end

/-! ### A run out of battery -/

section demo

/-- A vehicle at a region (`false`) with battery for ten metres, and a base (`true`) twenty metres away. -/
def lowBatteryState : JState Bool ℚ where
  holds
    | .at_ r => !r
    | .canGo => true
    | _ => false
  val
    | .batteryAmount => 10
    | .batteryCapacity => 100
    | .distance _ _ => 20
    | .velocity | .dischargeRateBattery | .rechargeRateBattery => 1
    | _ => 0

/-- `need_battery`, then `go_to_base`. -/
def flyHome : List (Event (Action (fun r : Bool => r)) ℚ) :=
  [.start .needBattery 0, .finish .needBattery 1, .start (.goToBase false ⟨true, rfl⟩) 2,
    .finish (.goToBase false ⟨true, rfl⟩) 22]

theorem lowBatteryState_rates : Rates lowBatteryState.val where
  velocity := by decide +kernel
  recharge := by decide +kernel
  discharge := by decide +kernel
  distance _ _ := by simp [lowBatteryState]
  picturePathLen _ := by simp [lowBatteryState]
  pulverizePathLen _ := by simp [lowBatteryState]

/-- The domain lets the vehicle fly home on a battery that does not reach. -/
theorem battery_nonneg_fails : Rates lowBatteryState.val ∧
    (0 ≤ lowBatteryState.val .batteryAmount ∧
      lowBatteryState.val .batteryAmount ≤ lowBatteryState.val .batteryCapacity) ∧
    (run (step op) (idle lowBatteryState 0) flyHome).isSome = true ∧
    ¬ Always (step op) (fun c => 0 ≤ c.state.val .batteryAmount) (idle lowBatteryState 0) flyHome :=
  ⟨lowBatteryState_rates, by decide +kernel, by decide +kernel, by decide +kernel⟩

/-- The same vehicle with battery for twenty-five metres. -/
def homewardState : JState Bool ℚ :=
  { lowBatteryState with val := Function.update lowBatteryState.val .batteryAmount 25 }

theorem homewardState_rates : Rates homewardState.val :=
  lowBatteryState_rates.congr fun f hf => Function.update_of_ne (by rintro rfl; cases hf) 25 lowBatteryState.val

/-- With battery for the leg the same flight is guarded. -/
theorem battery_nonneg_flyHome : (run (step op) (idle homewardState 0) flyHome).isSome = true ∧
    Always (step op) (fun c => 0 ≤ c.state.val .batteryAmount) (idle homewardState 0) flyHome :=
  ⟨by decide +kernel, (battery_nonneg_iff homewardState_rates (by decide +kernel) 0 flyHome).mpr (by decide +kernel)⟩

end demo

end DroneArch.Journal
