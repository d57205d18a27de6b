import Mathlib.Algebra.Field.Rat
import Mathlib.Algebra.Order.Ring.Rat
import DroneArch.JournalDomain

/-! # Flights of the mission domain

Which actions of `domain_journal.pddl` can be in execution at the same time, and what the
facts `(at r)` and `(at-move)` say while they are.

`Position` is the invariant behind both results: every movement takes the vehicle's only
`(at r)` away at its start and gives one back at its end, so either one place is the position
and nothing moves, or there is no position and exactly one movement is in execution.

* `oneFlight_of_canGo_guard`: at most one flight action is in execution along every run in
  which `pulverize_region` and `take_image` start only where `(can-go)` holds.
* `positionConsistent_iff_no_goToBase`: `(at r)` and `(at-move)` agree along a run exactly
  when the run starts no `go_to_base`. -/

namespace DroneArch.Journal

open Durative Runs

section
variable {R K : Type} [Fintype R] [DecidableEq R] [Field K] [LinearOrder K]
variable {isBase : R → Bool}

/-! ### The effects on `(at r)`, `(at-move)` and `(can-go)` -/

theorem start_at_of_not_move {a : Action isBase} (h : a.isMove = false) (d : K) (s : JState R K) (r : R) :
    ((op a).startEffect.apply d s).holds (.at_ r) = s.holds (.at_ r) := by
  cases a with
  | goToPicture | goTo | goToBase => cases h
  | _ => simp [op, Effect.apply]

theorem end_at_of_not_move {a : Action isBase} (h : a.isMove = false) (d : K) (s : JState R K) (r : R) :
    ((op a).endEffect.apply d s).holds (.at_ r) = s.holds (.at_ r) := by
  cases a with
  | goToPicture | goTo | goToBase => cases h
  | _ => simp [op, Effect.apply]

/-- A movement starts at a position of the vehicle and deletes it. -/
theorem start_at_of_move {a : Action isBase} (h : a.isMove = true) (d : K) {s : JState R K}
    (hs : (op a).atStart s = true) : ∃ f, s.holds (.at_ f) = true ∧
      ∀ r, ((op a).startEffect.apply d s).holds (.at_ r) = (s.holds (.at_ r) && !decide (r = f)) := by
  cases a with
  | goToPicture f t | goTo f t | goToBase f t =>
      simp only [op, Bool.and_eq_true] at hs
      refine ⟨f, by simp [hs], fun r => ?_⟩
      simp [op, Effect.apply]
  | _ => cases h

/-- A movement ends by adding its target as a position. -/
theorem end_at_of_move {a : Action isBase} (h : a.isMove = true) (d : K) (s : JState R K) :
    ∃ t, ∀ r, ((op a).endEffect.apply d s).holds (.at_ r) = (decide (r = t) || s.holds (.at_ r)) := by
  cases a with
  | goToPicture f t | goTo f t | goToBase f t =>
      refine ⟨t, fun r => ?_⟩
      simp [op, Effect.apply]
  | _ => cases h

/-- The two movements that announce themselves by `(at-move)`. -/
def Action.isAnnounced : Action isBase → Bool
  | .goToPicture _ _ | .goTo _ _ => true
  | _ => false

/-- The movement that does not. -/
def Action.isToBase : Action isBase → Bool
  | .goToBase _ _ => true
  | _ => false

theorem start_atMove (a : Action isBase) (d : K) (s : JState R K) :
    ((op a).startEffect.apply d s).holds .atMove = (a.isAnnounced || s.holds .atMove) := by
  cases a <;> simp [op, Effect.apply, Action.isAnnounced]

theorem end_atMove (a : Action isBase) (d : K) (s : JState R K) :
    ((op a).endEffect.apply d s).holds .atMove = (s.holds .atMove && !a.isAnnounced) := by
  cases a <;> simp [op, Effect.apply, Action.isAnnounced]

theorem start_canGo (a : Action isBase) (d : K) (s : JState R K) :
    ((op a).startEffect.apply d s).holds .canGo = (s.holds .canGo && !a.isOverRegion) := by
  cases a <;> simp [op, Effect.apply, Action.isOverRegion]

theorem end_canGo (a : Action isBase) (d : K) (s : JState R K) :
    ((op a).endEffect.apply d s).holds .canGo = (a.isOverRegion || s.holds .canGo) := by
  cases a <;> simp [op, Effect.apply, Action.isOverRegion]

omit [DecidableEq R] in
/-- An action over a region needs the vehicle there for its whole execution. -/
theorem overAll_at {a : Action isBase} (h : a.isOverRegion = true) {s : JState R K}
    (hs : (op a).overAll s = true) : ∃ r, s.holds (.at_ r) = true := by
  cases a with
  | pulverizeRegion r | takeImage r => exact ⟨r, by simpa [op] using hs⟩
  | _ => cases h

/-! ### The position of the vehicle -/

/-- Nothing moves and the vehicle has one position, or one movement is in execution and it
has none. -/
def Position (c : JConfig K isBase) : Prop :=
  (c.executing Action.isMove = 0 ∧ AtOne c.state) ∨ (c.executing Action.isMove = 1 ∧ AtNone c.state)

omit [Fintype R] [DecidableEq R] in
/-- Neither a movement nor a position changes. -/
theorem Position.congr {c c' : JConfig K isBase} (hp : Position c)
    (hex : c'.executing Action.isMove = c.executing Action.isMove)
    (hat : ∀ r, c'.state.holds (.at_ r) = c.state.holds (.at_ r)) : Position c' := by
  rcases hp with ⟨h0, h1⟩ | ⟨h0, h1⟩
  · exact Or.inl ⟨hex.trans h0, h1.congr hat⟩
  · exact Or.inr ⟨hex.trans h0, h1.congr hat⟩

theorem position_start {c c' : JConfig K isBase} {a : Action isBase} (h : Started op c c' a)
    (hp : Position c) : Position c' := by
  have hex := h.executing Action.isMove
  cases ha : a.isMove with
  | false =>
      rw [ha] at hex
      refine hp.congr (by simpa using hex) (fun r => ?_)
      rw [h.state, start_at_of_not_move ha]
  | true =>
      rw [ha] at hex
      obtain ⟨f, hf, hat⟩ := start_at_of_move ha ((op a).duration c.state.val) h.atStart
      rcases hp with ⟨h0, r, hr, hu⟩ | ⟨_, h1⟩
      · refine Or.inr ⟨by simpa [h0] using hex, fun r' => ?_⟩
        rw [h.state, hat r', hu f hf]
        cases hh : c.state.holds (.at_ r') with
        | false => rfl
        | true => simp [hu r' hh]
      · rw [h1 f] at hf
        cases hf

theorem position_finish {c c' : JConfig K isBase} {a : Action isBase} {d : K} (h : Finished op c c' a d)
    (hp : Position c) : Position c' := by
  have hex := h.executing Action.isMove
  cases ha : a.isMove with
  | false =>
      rw [ha] at hex
      refine hp.congr (by simpa using hex.symm) (fun r => ?_)
      rw [h.state, end_at_of_not_move ha]
  | true =>
      simp only [ha, if_true] at hex
      obtain ⟨t, hat⟩ := end_at_of_move ha d c.state
      rcases hp with ⟨h0, _⟩ | ⟨h0, h1⟩
      · omega
      · refine Or.inl ⟨by omega, t, ?_, ?_⟩
        · rw [h.state, hat t]
          simp
        · intro r hr
          rw [h.state, hat r, h1 r] at hr
          simpa using hr

theorem position_step {c c' : JConfig K isBase} {e : Event (Action isBase) K} (h : step op c e = some c')
    (hp : Position c) : Position c' := by
  rcases step_cases h with ⟨a, t, _, hs⟩ | ⟨a, t, d, _, hf⟩
  · exact position_start hs hp
  · exact position_finish hf hp

omit [Fintype R] [DecidableEq R] in
theorem position_idle {s : JState R K} (h : AtOne s) (t : K) : Position (idle s t : JConfig K isBase) :=
  Or.inl ⟨rfl, h⟩

/-! ### One flight at a time -/

/-- At most one flight action is in execution. -/
def AtMostOneFlight (c : JConfig K isBase) : Prop := c.executing Action.isFlight ≤ 1

/-- No ground action is in execution twice. -/
def SelfOverlapFree (c : JConfig K isBase) : Prop := (c.running.map (fun r => r.act)).Nodup

/-- `(can-go)` holds where an action over a region starts. -/
def CanGoGuard (c : JConfig K isBase) : Event (Action isBase) K → Prop
  | .start a _ => a.isOverRegion = true → c.state.holds .canGo = true
  | .finish _ _ => True

instance (c : JConfig K isBase) : Decidable (AtMostOneFlight c) := inferInstanceAs (Decidable (_ ≤ _))
instance (c : JConfig K isBase) : Decidable (SelfOverlapFree c) := inferInstanceAs (Decidable (List.Nodup _))
instance (c : JConfig K isBase) : (e : Event (Action isBase) K) → Decidable (CanGoGuard c e)
  | .start _ _ => inferInstanceAs (Decidable (_ → _))
  | .finish _ _ => inferInstanceAs (Decidable True)

omit [Fintype R] [DecidableEq R] in
theorem executing_flight (c : JConfig K isBase) :
    c.executing Action.isFlight = c.executing Action.isMove + c.executing Action.isOverRegion := by
  simp only [Config.executing]
  induction c.running with
  | nil => rfl
  | cons r rs ih =>
      simp only [List.countP_cons, ih]
      cases r.act <;> simp [Action.isFlight, Action.isMove, Action.isOverRegion] <;> omega

omit [DecidableEq R] in
/-- While a movement is in execution no action over a region is. -/
theorem overRegion_eq_zero {c : JConfig K isBase} (hn : AtNone c.state)
    (hov : ∀ r ∈ c.running, (op r.act).overAll c.state = true) : c.executing Action.isOverRegion = 0 := by
  rw [Config.executing, List.countP_eq_zero]
  intro r hr hp
  obtain ⟨p, hp'⟩ := overAll_at hp (hov r hr)
  rw [hn p] at hp'
  cases hp'

/-- What is true of the flights in execution while `(can-go)` guards their start: at most one
action over a region, and `(can-go)` is gone while there is one. -/
structure Exclusive (c : JConfig K isBase) : Prop where
  position : Position c
  overAll : ∀ r ∈ c.running, (op r.act).overAll c.state = true
  le_one : c.executing Action.isOverRegion ≤ 1
  canGo : 0 < c.executing Action.isOverRegion → c.state.holds .canGo = false

omit [DecidableEq R] in
theorem Exclusive.atMostOneFlight {c : JConfig K isBase} (h : Exclusive c) : AtMostOneFlight c := by
  have hsum := executing_flight c
  have hle := h.le_one
  unfold AtMostOneFlight
  rcases h.position with ⟨h0, _⟩ | ⟨h0, hn⟩
  · omega
  · have := overRegion_eq_zero hn h.overAll
    omega

theorem exclusive_step {c c' : JConfig K isBase} {e : Event (Action isBase) K} (h : step op c e = some c')
    (hc : Exclusive c) (hg : CanGoGuard c e) : Exclusive c' := by
  have hle := hc.le_one
  have hgo := hc.canGo
  refine ⟨position_step h hc.position, step_overAll h, ?_, ?_⟩ <;>
    rcases step_cases h with ⟨a, t, rfl, hs⟩ | ⟨a, t, d, rfl, hf⟩
  · have hex := hs.executing Action.isOverRegion
    by_cases ha : a.isOverRegion = true
    · have hcan : c.state.holds .canGo = true := hg ha
      simp only [ha, if_true] at hex
      by_contra hlt
      have hpos : 0 < c.executing Action.isOverRegion := by omega
      rw [hgo hpos] at hcan
      cases hcan
    · rw [if_neg ha] at hex
      omega
  · have hex := hf.executing Action.isOverRegion
    omega
  · intro hpos
    rw [hs.state, start_canGo]
    have hex := hs.executing Action.isOverRegion
    by_cases ha : a.isOverRegion = true
    · simp [ha]
    · rw [if_neg ha, add_zero] at hex
      rw [hgo (by omega), Bool.false_and]
  · intro hpos
    rw [hf.state, end_canGo]
    have hex := hf.executing Action.isOverRegion
    by_cases ha : a.isOverRegion = true
    · rw [if_pos ha] at hex
      omega
    · rw [if_neg ha, add_zero] at hex
      rw [hgo (by omega), Bool.or_false]
      simpa using ha

/-- With nothing over a region in execution, `(can-go)` is there if it was at the beginning. -/
theorem canGo_of_none_step {c c' : JConfig K isBase} {e : Event (Action isBase) K} (h : step op c e = some c')
    (hc : c.executing Action.isOverRegion = 0 → c.state.holds .canGo = true) :
    c'.executing Action.isOverRegion = 0 → c'.state.holds .canGo = true := by
  intro h0
  rcases step_cases h with ⟨a, t, rfl, hs⟩ | ⟨a, t, d, rfl, hf⟩
  · have hex := hs.executing Action.isOverRegion
    have ha : a.isOverRegion = false := by
      by_contra ha
      rw [Bool.not_eq_false] at ha
      rw [if_pos ha] at hex
      omega
    rw [hs.state, start_canGo, ha, hc (by rw [ha] at hex; simpa [h0] using hex.symm)]
    rfl
  · have hex := hf.executing Action.isOverRegion
    rw [hf.state, end_canGo]
    by_cases ha : a.isOverRegion = true
    · rw [ha, Bool.true_or]
    · rw [if_neg ha, add_zero] at hex
      rw [hc (hex.trans h0), Bool.or_true]

/-- **One flight at a time, under the missing guard.**  From a state with one position, at most
one flight action is in execution along every run in which each `pulverize_region` and
`take_image` starts where `(can-go)` holds; when `(can-go)` holds at the beginning, only then. -/
theorem oneFlight_of_canGo_guard {s : JState R K} (hat : AtOne s) (t : K)
    (es : List (Event (Action isBase) K)) :
    (Each (step op) CanGoGuard (idle s t) es → Always (step op) AtMostOneFlight (idle s t) es) ∧
    (s.holds .canGo = true →
      Always (step op) AtMostOneFlight (idle s t) es → Each (step op) CanGoGuard (idle s t) es) := by
  constructor
  · intro hg
    have hex : Exclusive (idle s t : JConfig K isBase) :=
      ⟨position_idle hat t, fun r hr => (List.not_mem_nil hr).elim, by simp, by simp⟩
    exact (always_of_each (fun _ _ _ h hc hq => exclusive_step h hc hq) hex hg).mono
      (fun _ h => h.atMostOneFlight)
  · intro hgo hP
    have hI : Always (step op) (fun c : JConfig K isBase =>
        c.executing Action.isOverRegion = 0 → c.state.holds .canGo = true) (idle s t) es :=
      always_of_step (fun _ _ _ h hc => canGo_of_none_step h hc) (fun _ => hgo) es
    refine each_of_always ?_ (hI.and hP)
    intro c e c' h hc hc'
    cases e with
    | finish a t => trivial
    | start a t =>
        intro ha
        have hex := (step_start h).executing Action.isOverRegion
        have hle : c'.executing Action.isFlight ≤ 1 := hc'.2
        rw [executing_flight] at hle
        rw [if_pos ha] at hex
        exact hc.1 (by omega)

end

/-! ### A run with two flights -/

section demo

/-- One region, over which the vehicle is ready to spray and to take pictures. -/
def overRegionState : JState Unit ℚ where
  holds
    | .at_ _ | .canGo | .canTakePic | .canSpray | .carry => true
    | _ => false
  val
    | .batteryAmount | .batteryCapacity => 100
    | .inputAmount => 1
    | .velocity => 10
    | .dischargeRateBattery => 1 / 10
    | _ => 0

/-- `take_image` runs from 0 to 100 and `pulverize_region` from 1 to 32.4. -/
def overlappingFlights : List (Event (Action (fun _ : Unit => false)) ℚ) :=
  [.start (.takeImage ()) 0, .start (.pulverizeRegion ()) 1, .finish (.pulverizeRegion ()) (162 / 5),
    .finish (.takeImage ()) 100]

/-- The domain lets `pulverize_region` start while `take_image` is in execution. -/
theorem oneFlight_fails : AtOne overRegionState ∧
    (run (step op) (idle overRegionState 0) overlappingFlights).isSome = true ∧
    Always (step op) SelfOverlapFree (idle overRegionState 0) overlappingFlights ∧
    ¬ Always (step op) AtMostOneFlight (idle overRegionState 0) overlappingFlights := by
  decide +kernel

/-- Without the second flight the run is guarded. -/
theorem oneFlight_takeImage : AtOne overRegionState ∧ Always (step op) AtMostOneFlight (idle overRegionState 0)
    ([.start (.takeImage ()) 0, .finish (.takeImage ()) 100] : List (Event (Action (fun _ : Unit => false)) ℚ)) :=
  ⟨by decide, (oneFlight_of_canGo_guard (by decide) 0 _).1 (by decide +kernel)⟩

end demo

/-! ### Position and `(at-move)` -/

section
variable {R K : Type} [Fintype R] [DecidableEq R] [Field K] [LinearOrder K]
variable {isBase : R → Bool}

/-- One position and no `(at-move)`, or no position and `(at-move)`. -/
def PositionConsistent (s : JState R K) : Prop :=
  (AtOne s ∧ s.holds .atMove = false) ∨ (AtNone s ∧ s.holds .atMove = true)

instance (s : JState R K) : Decidable (PositionConsistent s) := inferInstanceAs (Decidable (_ ∨ _))

/-- The event does not start a `go_to_base`. -/
def NotToBase : Event (Action isBase) K → Prop
  | .start a _ => a.isToBase = false
  | .finish _ _ => True

/-- The position of the vehicle, and `(at-move)` marks the announced movements. -/
def Announced (c : JConfig K isBase) : Prop :=
  Position c ∧ (c.state.holds .atMove = true ↔ 0 < c.executing Action.isAnnounced)

omit [Fintype R] [DecidableEq R] in
theorem executing_move (c : JConfig K isBase) :
    c.executing Action.isMove = c.executing Action.isAnnounced + c.executing Action.isToBase := by
  simp only [Config.executing]
  induction c.running with
  | nil => rfl
  | cons r rs ih =>
      simp only [List.countP_cons, ih]
      cases r.act <;> simp [Action.isMove, Action.isAnnounced, Action.isToBase] <;> omega

theorem announced_step {c c' : JConfig K isBase} {e : Event (Action isBase) K} (h : step op c e = some c')
    (hc : Announced c) : Announced c' := by
  obtain ⟨hp, hmove⟩ := hc
  refine ⟨position_step h hp, ?_⟩
  rcases step_cases h with ⟨a, t, rfl, hs⟩ | ⟨a, t, d, rfl, hf⟩
  · have hex := hs.executing Action.isAnnounced
    rw [hs.state, start_atMove, Bool.or_eq_true, hmove]
    by_cases ha : a.isAnnounced = true
    · rw [if_pos ha] at hex
      exact ⟨fun _ => by omega, fun _ => Or.inl ha⟩
    · rw [if_neg ha] at hex
      exact ⟨fun h => by rcases h with h | h; exact absurd h ha; omega, fun h => Or.inr (by omega)⟩
  · have hex := hf.executing Action.isAnnounced
    have hexm := hf.executing Action.isMove
    have hsum := executing_move c
    rw [hf.state, end_atMove, Bool.and_eq_true, hmove]
    by_cases ha : a.isAnnounced = true
    · rw [if_pos ha] at hex
      have hm : a.isMove = true := by cases a <;> first | rfl | cases ha
      rw [if_pos hm] at hexm
      have hle : c.executing Action.isMove ≤ 1 := by
        rcases hp with ⟨h0, _⟩ | ⟨h0, _⟩ <;> omega
      rw [ha]
      constructor
      · intro h
        cases h.2
      · intro h
        omega
    · rw [if_neg ha, add_zero] at hex
      rw [hex]
      simp [ha]

omit [Fintype R] [DecidableEq R] in
/-- The two facts agree exactly when no `go_to_base` is in execution. -/
theorem positionConsistent_iff {c : JConfig K isBase} (hc : Announced c) :
    PositionConsistent c.state ↔ c.executing Action.isToBase = 0 := by
  obtain ⟨hp, hmove⟩ := hc
  have hsum := executing_move c
  unfold PositionConsistent
  rcases hp with ⟨h0, h1⟩ | ⟨h0, h1⟩
  · have hb : c.executing Action.isToBase = 0 := by omega
    have hm : c.state.holds .atMove = false := by
      rw [← Bool.not_eq_true, hmove]
      omega
    exact ⟨fun _ => hb, fun _ => Or.inl ⟨h1, hm⟩⟩
  · constructor
    · rintro (⟨h, _⟩ | ⟨_, h⟩)
      · exact absurd h1 h.not_none
      · have := hmove.mp h
        omega
    · intro hb
      exact Or.inr ⟨h1, hmove.mpr (by omega)⟩

/-- **Position consistency.**  From a state with one position and no `(at-move)`, the two facts
agree in every state of a run, between the start and the end of actions included, exactly
when the run starts no `go_to_base`. -/
theorem positionConsistent_iff_no_goToBase {s : JState R K} (hat : AtOne s) (hmove : s.holds .atMove = false)
    (t : K) (es : List (Event (Action isBase) K)) :
    Always (step op) (fun c => PositionConsistent c.state) (idle s t) es ↔
      Each (step op) (fun _ e => NotToBase e) (idle s t) es := by
  refine always_iff_each (I := Announced) (fun _ _ _ h hc => announced_step h hc) ?_ ?_ ?_ es
  · intro c e c' h hc hP
    rw [positionConsistent_iff (announced_step h hc)]
    rw [positionConsistent_iff hc] at hP
    rcases step_cases h with ⟨a, t, rfl, hs⟩ | ⟨a, t, d, rfl, hf⟩
    · have hex := hs.executing Action.isToBase
      rw [hex, hP]
      simp [NotToBase]
    · have hex := hf.executing Action.isToBase
      exact ⟨fun _ => trivial, fun _ => by omega⟩
  · exact ⟨position_idle hat t, by simp [hmove]⟩
  · exact Or.inl ⟨hat, hmove⟩

end

/-! ### A run with an unannounced movement -/

section demo

/-- A region (`false`) with the vehicle and a base (`true`) ten metres away. -/
def homeboundState : JState Bool ℚ where
  holds
    | .at_ r => !r
    | .canGo | .canGoToBase => true
    | _ => false
  val
    | .batteryAmount | .batteryCapacity => 100
    | .distance _ _ | .velocity => 10
    | .dischargeRateBattery => 1
    | _ => 0

/-- The flight home. -/
def goHome : List (Event (Action (fun r : Bool => r)) ℚ) :=
  [.start (.goToBase false ⟨true, Eq.refl true⟩) 0, .finish (.goToBase false ⟨true, Eq.refl true⟩) 1]

/-- While `go_to_base` is in execution there is neither a position nor `(at-move)`. -/
theorem positionConsistent_fails : AtOne homeboundState ∧ homeboundState.holds .atMove = false ∧
    (run (step op) (idle homeboundState 0) goHome).isSome = true ∧
    ¬ Always (step op) (fun c => PositionConsistent c.state) (idle homeboundState 0) goHome := by
  decide +kernel

/-- A region (`false`) with the vehicle, and another one to be sprayed. -/
def sprayingState : JState Bool ℚ where
  holds
    | .at_ r => !r
    | .to r => r
    | .itsNotBase _ | .pulverizeGoal _ | .hasPulverizeGoal | .canGo => true
    | _ => false
  val
    | .batteryAmount | .batteryCapacity => 100
    | .distance _ _ | .velocity => 10
    | .inputAmount | .dischargeRateBattery => 1
    | _ => 0

/-- The flight to the region to be sprayed. -/
def goSpray : List (Event (Action (fun _ : Bool => false)) ℚ) := [.start (.goTo false true) 0, .finish (.goTo false true) 1]

/-- `go_to` announces itself. -/
theorem positionConsistent_goSpray : (run (step op) (idle sprayingState 0) goSpray).isSome = true ∧
    Always (step op) (fun c => PositionConsistent c.state) (idle sprayingState 0) goSpray :=
  ⟨by decide +kernel,
    (positionConsistent_iff_no_goToBase (by decide) rfl 0 _).mpr (by simp [goSpray, Each, NotToBase, Action.isToBase])⟩

end demo

end DroneArch.Journal
