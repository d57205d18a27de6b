import Mathlib.Data.List.Basic
import Mathlib.Data.List.Infix
import DroneArch.Runs

/-! # The concrete callback of the flight actions

`RPTutorialInterface::concreteCallback` (`RPTutorial10.cpp`) flies the vehicle for the actions
`go_to*`, `pulverize_region` and `take_img`.  The three branches are one program up to the
values in `Branch`: compute a route, take off if the vehicle is on the ground, push the route,
change to `AUTO.MISSION`, wait for the last waypoint and loiter.

`step` interleaves the statements of the callback with the messages that other threads
deliver into `mission` and `drone`, and with the cancel of the action, which sets
`action_cancelled`.  `log` records the commands of the callback.

* `callback_cancel`: no statement of the callback reads `action_cancelled`.
* `silentAfterCancel_iff`: no command follows a cancel, in any interleaving, exactly when the
  callback has already issued its last `set_loiter`. -/

namespace DroneArch.FlightCallback

open Runs

/-- The commands of the callback to the autopilot. -/
inductive Command
  | setLoiter
  | arm
  | takeoff
  | missionClear
  | missionPush
  | loadRoute
  | setAuto
deriving DecidableEq

/-- The commands that move the vehicle or change what it will fly; `mavwp load` in `callRoute`
and the clearing of the waypoint list are not counted. -/
def Command.isFlight : Command → Bool
  | .missionClear | .loadRoute => false
  | _ => true

/-- The script that computes the route. -/
inductive Planner
  | rrtStar
  | circle
  | square
deriving DecidableEq

/-- The values in which the branches differ. -/
structure Branch where
  /-- the coordinates of the target are looked up first -/
  getGeoPoint : Bool
  planner : Planner
  /-- seconds of sleep after the route is computed -/
  settle : Option ℕ
  /-- seconds of sleep after the take-off -/
  climb : ℕ
  /-- `callRoute` when the route cannot be sent; an error is logged otherwise -/
  callRoute : Bool
deriving DecidableEq

def goTo : Branch := ⟨true, .rrtStar, some 5, 10, true⟩
def pulverizeRegion : Branch := ⟨false, .circle, none, 20, false⟩
def takeImg : Branch := ⟨false, .square, none, 20, false⟩

/-- The flight branch that `concreteCallback` takes for a dispatched action; each one reads
`msg->parameters[1]`. -/
def concreteCallback (name : String) (parameters : List String) : Option Branch :=
  if parameters.length < 2 then none
  else if "go_to".toList <:+: name.toList then some goTo
  else if name = "pulverize_region" then some pulverizeRegion
  else if name = "take_img" then some takeImg
  else none

/-- The statements of a branch, by what is executed next. -/
inductive Pc
  | start
  | getGeoPoint
  | calcRoute
  | settle
  | whileArmed
  | whileLanded
  | liftLoiter
  | liftArm
  | liftTakeoff
  | climb
  | openRoute
  | clear
  | push
  | pushAgain
  | callRoute
  | upload
  | auto
  | whileEnded
  | waitEnded
  | loiter
  | completing
  | done
deriving DecidableEq

/-- The callback's thread, the variables it shares with other threads and the file `route.txt`:
`none` when it is missing, else the number of its waypoint lines. -/
structure State where
  pc : Pc
  ended : Bool
  wpQtd : ℤ
  currentWP : ℕ
  armed : Bool
  landedState : ℕ
  route : Option ℕ
  actionCancelled : Bool
  log : List Command
deriving DecidableEq

/-- What the world answers to a statement: the route file a planner leaves behind, and whether
a push succeeded. -/
structure Answer where
  route : Option ℕ
  pushed : Bool

/-- Issue a command. -/
def State.issue (s : State) (cmd : Command) (pc : Pc) : State := { s with log := s.log ++ [cmd], pc := pc }

/-- Go on with another statement. -/
def State.goto (s : State) (pc : Pc) : State := { s with pc := pc }

/-- Where `if(!sendWPFile())` leads. -/
def Branch.notSent (b : Branch) : Pc := if b.callRoute then .callRoute else .upload

/-- One statement of the callback. -/
def callback (b : Branch) (o : Answer) (s : State) : Option State :=
  match s.pc with
  | .start => some { s with ended := false, pc := if b.getGeoPoint then .getGeoPoint else .calcRoute }
  | .getGeoPoint => some (s.goto .calcRoute)
  | .calcRoute => some { s with route := o.route, pc := if b.settle.isSome then .settle else .whileArmed }
  | .settle => some (s.goto .whileArmed)
  -- while(!drone.current_state.armed && drone.ex_current_state.landed_state != 2)
  | .whileArmed => some (s.goto (if s.armed then .climb else .whileLanded))
  | .whileLanded => some (s.goto (if s.landedState = 2 then .climb else .liftLoiter))
  | .liftLoiter => some (s.issue .setLoiter .liftArm)
  | .liftArm => some (s.issue .arm .liftTakeoff)
  | .liftTakeoff => some (s.issue .takeoff .whileArmed)
  | .climb => some (s.goto .openRoute)
  -- sendWPFile: the file is opened, its lines are counted, and an empty one is removed
  | .openRoute =>
      match s.route with
      | none => some (s.goto b.notSent)
      | some 0 => some { s with route := none, pc := b.notSent }
      | some _ => some (s.goto .clear)
  | .clear => some (s.issue .missionClear .push)
  -- the push is called once to print its result and once more to test it
  | .push => some (s.issue .missionPush .pushAgain)
  | .pushAgain =>
      some { s.issue .missionPush (if o.pushed then .upload else b.notSent) with route := none }
  | .callRoute => some (s.issue .loadRoute .upload)
  | .upload => some (s.goto .auto)
  | .auto => some (s.issue .setAuto .whileEnded)
  -- while(!mission.Ended)
  | .whileEnded => some (s.goto (if s.ended then .loiter else .waitEnded))
  | .waitEnded => some (s.goto .whileEnded)
  | .loiter => some (s.issue .setLoiter .completing)
  | .completing => some (s.goto .done)
  | .done => none

/-- The events: a statement of the callback, a message of a subscribed topic, the cancel. -/
inductive Event
  | callback (o : Answer)
  | currentState (armed : Bool)
  | extendedState (landedState : ℕ)
  | waypoints (size : ℕ)
  | reached (wpSeq : ℕ)
  | cancelAction

/-- One event. -/
def step (b : Branch) (s : State) : Event → Option State
  | .callback o => callback b o s
  | .currentState armed => some { s with armed := armed }
  | .extendedState landedState => some { s with landedState := landedState }
  | .waypoints size => some { s with wpQtd := (size : ℤ) - 1 }
  | .reached wpSeq => some { s with currentWP := wpSeq, ended := decide (s.wpQtd = wpSeq) }
  | .cancelAction => some { s with actionCancelled := true }

/-- The flight commands issued so far. -/
def State.flown (s : State) : List Command := s.log.filter Command.isFlight

/-! ### The cancel is not noticed -/

/-- Mark the action as cancelled. -/
def State.cancel (s : State) : State := { s with actionCancelled := true }

/-- **The callback never looks at `action_cancelled`.**  It does the same whether or not the
action has been cancelled. -/
theorem callback_cancel (b : Branch) (o : Answer) (s : State) :
    callback b o s.cancel = (callback b o s).map State.cancel := by
  cases s with
  | mk pc ended wpQtd currentWP armed landedState route actionCancelled log =>
      cases pc with
      | openRoute =>
          cases route with
          | none => rfl
          | some n => cases n <;> rfl
      | _ => rfl

/-- The callback issues a flight command in some continuation. -/
def Speaks (b : Branch) (s : State) : Prop := ∃ es s', run (step b) s es = some s' ∧ s'.flown ≠ s.flown

theorem Speaks.now {b : Branch} {s s' : State} {e : Event} (h : step b s e = some s')
    (hf : s'.flown ≠ s.flown) : Speaks b s :=
  ⟨[e], s', by rw [run_cons_some h, run_nil], hf⟩

theorem Speaks.later {b : Branch} {s s₁ : State} {e : Event} (h : step b s e = some s₁)
    (hf : s₁.flown = s.flown) (hs : Speaks b s₁) : Speaks b s := by
  obtain ⟨es, s', hrun, hne⟩ := hs
  exact ⟨e :: es, s', (run_cons_some h es).trans hrun, hf ▸ hne⟩

@[simp] theorem goto_flown (s : State) (pc : Pc) : (s.goto pc).flown = s.flown := rfl

@[simp] theorem goto_pc (s : State) (pc : Pc) : (s.goto pc).pc = pc := rfl

@[simp] theorem issue_pc (s : State) (cmd : Command) (pc : Pc) : (s.issue cmd pc).pc = pc := rfl

theorem issue_flown_ne (s : State) {cmd : Command} (h : cmd.isFlight = true) (pc : Pc) :
    (s.issue cmd pc).flown ≠ s.flown := by
  simp [State.issue, State.flown, h]

theorem issue_flown (s : State) {cmd : Command} (h : cmd.isFlight = false) (pc : Pc) :
    (s.issue cmd pc).flown = s.flown := by
  simp [State.issue, State.flown, h]

/-- Statements that issue a flight command. -/
def Pc.speaks : Pc → Bool
  | .liftLoiter | .liftArm | .liftTakeoff | .push | .pushAgain | .auto | .loiter => true
  | _ => false

/-- Nothing but the return is left. -/
def Pc.over : Pc → Bool
  | .completing | .done => true
  | _ => false

/-- Any answer. -/
def Answer.silent : Answer := ⟨none, false⟩

/-- One statement of the callback, and then a flight command. -/
theorem Speaks.after {b : Branch} {s s₁ : State} (h : callback b .silent s = some s₁)
    (hf : s₁.flown = s.flown) (hs : Speaks b s₁) : Speaks b s :=
  Speaks.later (e := .callback .silent) h hf hs

theorem speaks_of_speaks (b : Branch) {s : State} (h : s.pc.speaks = true) : Speaks b s := by
  have hissue : ∀ cmd pc, Command.isFlight cmd = true → callback b .silent s = some (s.issue cmd pc) →
      Speaks b s :=
    fun cmd pc hcmd hs => Speaks.now (e := .callback .silent) hs (issue_flown_ne s hcmd pc)
  cases hpc : s.pc with
  | liftLoiter => exact hissue .setLoiter .liftArm rfl (by rw [callback, hpc])
  | liftArm => exact hissue .arm .liftTakeoff rfl (by rw [callback, hpc])
  | liftTakeoff => exact hissue .takeoff .whileArmed rfl (by rw [callback, hpc])
  | push => exact hissue .missionPush .pushAgain rfl (by rw [callback, hpc])
  | pushAgain =>
      have hs : callback b .silent s =
          some { s.issue .missionPush b.notSent with route := none } := by
        rw [callback, hpc]; rfl
      exact Speaks.now (e := .callback .silent) hs (issue_flown_ne s rfl b.notSent)
  | auto => exact hissue .setAuto .whileEnded rfl (by rw [callback, hpc])
  | loiter => exact hissue .setLoiter .completing rfl (by rw [callback, hpc])
  | _ =>
      rw [hpc] at h
      cases h

/-! The statements from the last to the first; the two loops are left by a message. -/

theorem speaks_upload (b : Branch) {s : State} (hpc : s.pc = .upload) : Speaks b s := by
  have hs : callback b .silent s = some (s.goto .auto) := by
    rw [callback, hpc]
  exact Speaks.after hs rfl (speaks_of_speaks b rfl)

theorem speaks_notSent (b : Branch) {s : State} (hpc : s.pc = b.notSent) : Speaks b s := by
  unfold Branch.notSent at hpc
  split at hpc
  · have hs : callback b .silent s = some (s.issue .loadRoute .upload) := by
      rw [callback, hpc]
    exact Speaks.after hs (issue_flown s rfl _) (speaks_upload b rfl)
  · exact speaks_upload b hpc

theorem speaks_clear (b : Branch) {s : State} (hpc : s.pc = .clear) : Speaks b s := by
  have hs : callback b .silent s = some (s.issue .missionClear .push) := by
    rw [callback, hpc]
  exact Speaks.after hs (issue_flown s rfl _) (speaks_of_speaks b rfl)

theorem speaks_openRoute (b : Branch) {s : State} (hpc : s.pc = .openRoute) : Speaks b s := by
  cases hr : s.route with
  | none =>
      have hs : callback b .silent s = some (s.goto b.notSent) := by
        simp only [callback, hpc, hr]
      exact Speaks.after hs rfl (speaks_notSent b rfl)
  | some n =>
      cases n with
      | zero =>
          have hs : callback b .silent s = some { s with route := none, pc := b.notSent } := by
            simp only [callback, hpc, hr]
          exact Speaks.after hs rfl (speaks_notSent b rfl)
      | succ n =>
          have hs : callback b .silent s = some (s.goto .clear) := by
            simp only [callback, hpc, hr]
          exact Speaks.after hs rfl (speaks_clear b rfl)

theorem speaks_climb (b : Branch) {s : State} (hpc : s.pc = .climb) : Speaks b s := by
  have hs : callback b .silent s = some (s.goto .openRoute) := by
    rw [callback, hpc]
  exact Speaks.after hs rfl (speaks_openRoute b rfl)

/-- The last waypoint is reached. -/
theorem speaks_whileEnded (b : Branch) {s : State} (hpc : s.pc = .whileEnded) : Speaks b s := by
  refine Speaks.later (e := .waypoints 1) rfl rfl (Speaks.later (e := .reached 0) rfl rfl ?_)
  generalize hs₁ : ({ s with wpQtd := ((1 : ℕ) : ℤ) - 1, currentWP := 0, ended := _ } : State) = s₁
  have hs : callback b .silent s₁ = some (s₁.goto .loiter) := by
    rw [← hs₁, callback, hpc]; rfl
  exact Speaks.after hs rfl (speaks_of_speaks b rfl)

/-- The vehicle is seen in the air. -/
theorem speaks_whileArmed (b : Branch) {s : State} (hpc : s.pc = .whileArmed) : Speaks b s := by
  refine Speaks.later (e := .currentState true) rfl rfl ?_
  have hs : callback b .silent { s with armed := true } =
      some (State.goto { s with armed := true } .climb) := by
    rw [callback, hpc]; rfl
  exact Speaks.after hs rfl (speaks_climb b rfl)

theorem speaks_whileLanded (b : Branch) {s : State} (hpc : s.pc = .whileLanded) : Speaks b s := by
  refine Speaks.later (e := .extendedState 2) rfl rfl ?_
  have hs : callback b .silent { s with landedState := 2 } =
      some (State.goto { s with landedState := 2 } .climb) := by
    rw [callback, hpc]; rfl
  exact Speaks.after hs rfl (speaks_climb b rfl)

theorem speaks_settle (b : Branch) {s : State} (hpc : s.pc = .settle) : Speaks b s := by
  have hs : callback b .silent s = some (s.goto .whileArmed) := by
    rw [callback, hpc]
  exact Speaks.after hs rfl (speaks_whileArmed b rfl)

theorem speaks_calcRoute (b : Branch) {s : State} (hpc : s.pc = .calcRoute) : Speaks b s := by
  have hs : callback b .silent s =
      some { s with route := none, pc := if b.settle.isSome then .settle else .whileArmed } := by
    rw [callback, hpc]; rfl
  refine Speaks.after hs rfl ?_
  cases hset : b.settle.isSome with
  | false => exact speaks_whileArmed b rfl
  | true => exact speaks_settle b rfl

theorem speaks_getGeoPoint (b : Branch) {s : State} (hpc : s.pc = .getGeoPoint) : Speaks b s := by
  have hs : callback b .silent s = some (s.goto .calcRoute) := by
    rw [callback, hpc]
  exact Speaks.after hs rfl (speaks_calcRoute b rfl)

/-- Before the last `set_loiter` a flight command can still come. -/
theorem speaks_of_not_over (b : Branch) {s : State} (h : s.pc.over = false) : Speaks b s := by
  cases hpc : s.pc with
  | start =>
      have hs : callback b .silent s =
          some { s with ended := false, pc := if b.getGeoPoint then .getGeoPoint else .calcRoute } := by
        rw [callback, hpc]
      refine Speaks.after hs rfl ?_
      cases hg : b.getGeoPoint with
      | false => exact speaks_calcRoute b rfl
      | true => exact speaks_getGeoPoint b rfl
  | getGeoPoint => exact speaks_getGeoPoint b hpc
  | calcRoute => exact speaks_calcRoute b hpc
  | settle => exact speaks_settle b hpc
  | whileArmed => exact speaks_whileArmed b hpc
  | whileLanded => exact speaks_whileLanded b hpc
  | climb => exact speaks_climb b hpc
  | openRoute => exact speaks_openRoute b hpc
  | clear => exact speaks_clear b hpc
  | callRoute =>
      have hs : callback b .silent s = some (s.issue .loadRoute .upload) := by
        rw [callback, hpc]
      exact Speaks.after hs (issue_flown s rfl _) (speaks_upload b rfl)
  | upload => exact speaks_upload b hpc
  | whileEnded => exact speaks_whileEnded b hpc
  | waitEnded =>
      have hs : callback b .silent s = some (s.goto .whileEnded) := by
        rw [callback, hpc]
      exact Speaks.after hs rfl (speaks_whileEnded b rfl)
  | completing | done =>
      rw [hpc] at h
      cases h
  | _ => exact speaks_of_speaks b (by rw [hpc]; rfl)

/-! ### After a cancel -/

/-- No flight command follows a cancel in the state `s`, in any interleaving. -/
def SilentAfterCancel (b : Branch) (s : State) : Prop :=
  ∀ es s', run (step b) s (.cancelAction :: es) = some s' → s'.flown = s.flown

/-- Once only the return is left, no event issues a command. -/
theorem over_step {b : Branch} {s s' : State} {e : Event} (hstep : step b s e = some s')
    (h : s.pc.over = true) : s'.pc.over = true ∧ s'.log = s.log := by
  cases e with
  | callback o =>
      cases hpc : s.pc with
      | completing =>
          simp only [step, callback, hpc, Option.some.injEq] at hstep
          rw [← hstep]
          exact ⟨rfl, rfl⟩
      | done =>
          simp only [step, callback, hpc] at hstep
          cases hstep
      | _ =>
          rw [hpc] at h
          cases h
  | _ =>
      cases hstep
      exact ⟨h, rfl⟩

/-- **A cancelled action.**  At any moment of any branch, no flight command follows a cancel
exactly when the callback has issued its last `set_loiter`. -/
theorem silentAfterCancel_iff (b : Branch) (s : State) : SilentAfterCancel b s ↔ s.pc.over = true := by
  constructor
  · intro h
    by_contra hover
    obtain ⟨es, s', hrun, hne⟩ := speaks_of_not_over b (s := s.cancel) (Bool.not_eq_true _ ▸ hover)
    exact hne (h es s' hrun)
  · intro h es s' hrun
    have hinv : s'.pc.over = true ∧ s'.log = s.log := by
      refine run_invariant (P := fun t : State => t.pc.over = true ∧ t.log = s.log) ?_ ⟨h, rfl⟩ hrun
      intro t e t' hstep ht
      obtain ⟨h1, h2⟩ := over_step hstep ht.1
      exact ⟨h1, h2.trans ht.2⟩
    rw [State.flown, hinv.2, State.flown]

/-! ### A cancel before `set_auto` -/

section demo

/-- A `go_to` that was just dispatched, with the vehicle in the air. -/
def dispatched : State := ⟨.start, true, 0, 0, true, 2, none, false, []⟩

/-- The statements up to the sleep before `set_auto`; the route has two waypoints. -/
def routePushed : List Event := List.replicate 11 (.callback ⟨some 2, true⟩)

/-- The cancel arrives after the route is pushed, and the callback still issues `set_auto`: the
vehicle resumes the abandoned route. -/
theorem silentAfterCancel_fails : concreteCallback "go_to" ["base_1", "region_1"] = some goTo ∧
    ∃ s, run (step goTo) dispatched routePushed = some s ∧ s.pc = .auto ∧ ¬ SilentAfterCancel goTo s ∧
      ∃ s', run (step goTo) s [.cancelAction, .callback ⟨none, true⟩] = some s' ∧ s'.actionCancelled = true ∧
        s'.log = s.log ++ [.setAuto] := by
  refine ⟨by decide, ⟨.auto, false, 0, 0, true, 2, none, false, [.missionClear, .missionPush, .missionPush]⟩,
    by decide, rfl, fun h => ?_, ⟨.whileEnded, false, 0, 0, true, 2, none, true,
      [.missionClear, .missionPush, .missionPush, .setAuto]⟩, by decide, rfl, rfl⟩
  have := h [.callback ⟨none, true⟩] _ rfl
  revert this
  decide

end demo

end DroneArch.FlightCallback
