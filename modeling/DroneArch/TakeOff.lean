import DroneArch.FlightCallback

/-! # The take-off loop of the flight actions

The three flight branches of `concreteCallback` repeat `set_loiter`, `arm` and `takeoff` while
`!drone.current_state.armed && drone.ex_current_state.landed_state != 2`.  The two flags are what
the last messages of two topics said, and the two tests are two statements: a message may arrive
between them.

* `leaves_iff`: the loop is left by one of its two tests, and one flag is enough.
* `left_airborne_iff`: the loop is left only by a vehicle that is armed and in the air, in every
  interleaving with some messages, exactly when the two flags agree before and after each message. -/

namespace DroneArch.FlightCallback

open Runs

/-! ### The messages received -/

/-- A message of `current_state` or of `ex_current_state`. -/
inductive Message
  | currentState (armed : Bool)
  | extendedState (landedState : ℕ)

def Message.event : Message → Event
  | .currentState armed => .currentState armed
  | .extendedState landedState => .extendedState landedState

def Event.message? : Event → Option Message
  | .currentState armed => some (.currentState armed)
  | .extendedState landedState => some (.extendedState landedState)
  | _ => none

/-- The messages of the two topics among the events. -/
def received (es : List Event) : List Message := es.filterMap Event.message?

/-- What the last message of `current_state` said; `before` if there is none. -/
def lastArmed (before : Bool) : List Message → Bool
  | [] => before
  | .currentState armed :: ms => lastArmed armed ms
  | .extendedState _ :: ms => lastArmed before ms

/-- What the last message of `ex_current_state` said; `before` if there is none. -/
def lastLandedState (before : ℕ) : List Message → ℕ
  | [] => before
  | .currentState _ :: ms => lastLandedState before ms
  | .extendedState landedState :: ms => lastLandedState landedState ms

theorem received_map_event (ms : List Message) : received (ms.map Message.event) = ms := by
  have hmessage : ∀ m ∈ ms, (Event.message? ∘ Message.event) m = some m := by
    intro m _
    cases m <;> rfl
  rw [received, List.filterMap_map, List.filterMap_congr hmessage]
  exact List.filterMap_some

theorem received_append (es es' : List Event) : received (es ++ es') = received es ++ received es' :=
  List.filterMap_append

/-- No statement of the callback writes the two flags. -/
theorem callback_flags {b : Branch} {o : Answer} {s s' : State} (h : callback b o s = some s') :
    s'.armed = s.armed ∧ s'.landedState = s.landedState := by
  cases hpc : s.pc with
  | openRoute =>
      simp only [callback, hpc] at h
      split at h <;> cases h <;> exact ⟨rfl, rfl⟩
  | done =>
      simp only [callback, hpc] at h
      cases h
  | _ =>
      simp only [callback, hpc] at h
      cases h
      exact ⟨rfl, rfl⟩

/-- The flags say what the last messages said. -/
theorem run_flags {b : Branch} {s t : State} {es : List Event} (h : run (step b) s es = some t) :
    t.armed = lastArmed s.armed (received es) ∧ t.landedState = lastLandedState s.landedState (received es) := by
  induction es generalizing s with
  | nil =>
      cases h
      exact ⟨rfl, rfl⟩
  | cons e es ih =>
      obtain ⟨s', hs, hr⟩ := run_cons_eq_some h
      have hflags := ih hr
      cases e with
      | callback o =>
          obtain ⟨harmed, hlanded⟩ := callback_flags hs
          rw [harmed, hlanded] at hflags
          exact hflags
      | _ =>
          cases hs
          exact hflags

/-! ### Leaving the loop -/

/-- The statements of the take-off loop, its two tests included. -/
def Pc.takingOff : Pc → Bool
  | .whileArmed | .whileLanded | .liftLoiter | .liftArm | .liftTakeoff => true
  | _ => false

/-- A step that leaves the take-off loop. -/
def Leaves (b : Branch) (s : State) (e : Event) : Prop :=
  s.pc.takingOff = true ∧ ∃ s', step b s e = some s' ∧ s'.pc.takingOff = false

/-- A message does not move the callback. -/
theorem step_pc {b : Branch} {s s' : State} {e : Event} (h : step b s e = some s') :
    s'.pc = s.pc ∨ ∃ o, e = .callback o := by
  cases e with
  | callback o => exact .inr ⟨o, rfl⟩
  | _ =>
      cases h
      exact .inl rfl

/-- The loop is left by one of its two tests. -/
theorem leaves_iff {b : Branch} {s : State} {e : Event} : Leaves b s e ↔ (∃ o, e = .callback o) ∧
    (s.pc = .whileArmed ∧ s.armed = true ∨ s.pc = .whileLanded ∧ s.landedState = 2) := by
  constructor
  · rintro ⟨hin, s', hs, hout⟩
    rcases step_pc hs with hpc | ⟨o, rfl⟩
    · rw [hpc, hin] at hout
      cases hout
    · refine ⟨⟨o, rfl⟩, ?_⟩
      cases hpc : s.pc with
      | whileArmed =>
          by_cases harmed : s.armed = true
          · exact .inl ⟨rfl, harmed⟩
          · simp only [step, callback, hpc, if_neg harmed, Option.some.injEq] at hs
            rw [← hs] at hout
            cases hout
      | whileLanded =>
          by_cases hlanded : s.landedState = 2
          · exact .inr ⟨rfl, hlanded⟩
          · simp only [step, callback, hpc, if_neg hlanded, Option.some.injEq] at hs
            rw [← hs] at hout
            cases hout
      | liftLoiter | liftArm | liftTakeoff =>
          simp only [step, callback, hpc, Option.some.injEq] at hs
          rw [← hs] at hout
          cases hout
      | _ =>
          rw [hpc] at hin
          cases hin
  · rintro ⟨⟨o, rfl⟩, ⟨hpc, hflag⟩ | ⟨hpc, hflag⟩⟩
    · refine ⟨by rw [hpc]; rfl, s.goto .climb, ?_, rfl⟩
      simp only [step, callback, hpc, if_pos hflag]
    · refine ⟨by rw [hpc]; rfl, s.goto .climb, ?_, rfl⟩
      simp only [step, callback, hpc, if_pos hflag]

/-- In every interleaving of the messages with the statements of the callback, the loop is left only
when the last messages say that the vehicle is armed and in the air. -/
def LeftAirborne (b : Branch) (s : State) (ms : List Message) : Prop :=
  ∀ es, received es = ms → ∀ pre e t, pre ++ [e] <+: es → run (step b) s pre = some t → Leaves b t e →
    lastArmed s.armed (received pre) = true ∧ lastLandedState s.landedState (received pre) = 2

/-- The two flags agree at the dispatch and after each of the messages. -/
def FlagsAgree (armed : Bool) (landedState : ℕ) (ms : List Message) : Prop :=
  ∀ pre, pre <+: ms → (lastArmed armed pre = true ↔ lastLandedState landedState pre = 2)

/-! ### Every message comes before the loop -/

/-- Messages do not move the callback. -/
theorem run_messages (b : Branch) (s : State) (ms : List Message) :
    ∃ t, run (step b) s (ms.map Message.event) = some t ∧ t.pc = s.pc := by
  induction ms generalizing s with
  | nil => exact ⟨s, rfl, rfl⟩
  | cons m ms ih =>
      cases m with
      | currentState armed => exact ih { s with armed := armed }
      | extendedState landedState => exact ih { s with landedState := landedState }

/-- Without further messages the callback gets from its start to the first test. -/
theorem run_to_test (b : Branch) (s : State) (hs : s.pc = .start) :
    ∃ n t, run (step b) s (List.replicate n (.callback .silent)) = some t ∧ t.pc = .whileArmed := by
  have hstart : step b s (.callback .silent) =
      some { s with ended := false, pc := if b.getGeoPoint then .getGeoPoint else .calcRoute } := by
    simp only [step, callback, hs]
  cases hgeo : b.getGeoPoint <;> cases hsettle : b.settle.isSome
  · refine ⟨2, { s with ended := false, route := none, pc := .whileArmed }, ?_, rfl⟩
    rw [List.replicate_succ, run_cons_some hstart, hgeo]
    simp [run, step, callback, hsettle, Answer.silent]
  · refine ⟨3, { s with ended := false, route := none, pc := .whileArmed }, ?_, rfl⟩
    rw [List.replicate_succ, run_cons_some hstart, hgeo]
    simp [run, step, callback, hsettle, Answer.silent, State.goto, List.replicate]
  · refine ⟨3, { s with ended := false, route := none, pc := .whileArmed }, ?_, rfl⟩
    rw [List.replicate_succ, run_cons_some hstart, hgeo]
    simp [run, step, callback, hsettle, Answer.silent, State.goto, List.replicate]
  · refine ⟨4, { s with ended := false, route := none, pc := .whileArmed }, ?_, rfl⟩
    rw [List.replicate_succ, run_cons_some hstart, hgeo]
    simp [run, step, callback, hsettle, Answer.silent, State.goto, List.replicate]

/-- The last of some messages comes, and the callback gets to the first test. -/
theorem exists_test (b : Branch) {s : State} (hs : s.pc = .start) (ms : List Message) :
    ∃ es t, received es = ms ∧ run (step b) s es = some t ∧ t.pc = .whileArmed := by
  obtain ⟨t₀, hrun₀, hpc₀⟩ := run_messages b s ms
  obtain ⟨n, t, hrun, hpc⟩ := run_to_test b t₀ (hpc₀.trans hs)
  refine ⟨ms.map Message.event ++ List.replicate n (.callback .silent), t, ?_, ?_, hpc⟩
  · have hsilent : received (List.replicate n (.callback .silent)) = [] := by
      rw [received, List.filterMap_eq_nil_iff]
      intro e he
      rw [List.eq_of_mem_replicate he]
      rfl
    rw [received_append, received_map_event, hsilent, List.append_nil]
  · rw [run_append_some hrun₀, hrun]

/-- The rest of the messages comes after the loop. -/
theorem LeftAirborne.of_initial {b : Branch} {s : State} {pre ms : List Message} (h : LeftAirborne b s ms)
    (hpre : pre <+: ms) {es : List Event} {e : Event} {t : State} (hes : received (es ++ [e]) = pre)
    (hrun : run (step b) s es = some t) (hleaves : Leaves b t e) :
    lastArmed s.armed (received es) = true ∧ lastLandedState s.landedState (received es) = 2 := by
  obtain ⟨rest, rfl⟩ := hpre
  refine h (es ++ [e] ++ rest.map Message.event) ?_ es e t (List.prefix_append _ _) hrun hleaves
  rw [received_append, hes, received_map_event]

/-- **The take-off loop.**  In every interleaving with the messages, the loop is left only when the
last messages say that the vehicle is armed and in the air, exactly when the two flags agree at the
dispatch and after each of the messages. -/
theorem left_airborne_iff (b : Branch) {s : State} (hs : s.pc = .start) (ms : List Message) :
    LeftAirborne b s ms ↔ FlagsAgree s.armed s.landedState ms := by
  constructor
  · intro h pre hpre
    obtain ⟨es, t, hes, hrun, hpc⟩ := exists_test b hs pre
    obtain ⟨harmed, hlanded⟩ := run_flags hrun
    have hcallback : received (es ++ [.callback .silent]) = pre := by
      rw [received_append, hes]
      exact List.append_nil pre
    have hfirst : t.armed = true → lastLandedState s.landedState pre = 2 := fun hflag => by
      have hleaves : Leaves b t (.callback .silent) := leaves_iff.mpr ⟨⟨.silent, rfl⟩, .inl ⟨hpc, hflag⟩⟩
      exact hes ▸ (h.of_initial hpre hcallback hrun hleaves).2
    rw [hes] at harmed hlanded
    refine ⟨fun ha => hfirst (harmed.trans ha), fun hl => ?_⟩
    by_contra hnot
    -- the first test fails, and the second one ends the loop
    have hstep : step b t (.callback .silent) = some (t.goto .whileLanded) := by
      simp only [step, callback, hpc, if_neg (harmed ▸ hnot)]
    have hrun' : run (step b) s (es ++ [.callback .silent]) = some (t.goto .whileLanded) := by
      rw [run_append_some hrun, run_cons_some hstep, run_nil]
    have hleaves : Leaves b (t.goto .whileLanded) (.callback .silent) :=
      leaves_iff.mpr ⟨⟨.silent, rfl⟩, .inr ⟨rfl, hlanded.trans hl⟩⟩
    have hagain : received ((es ++ [.callback .silent]) ++ [.callback .silent]) = pre := by
      rw [received_append, hcallback]
      exact List.append_nil pre
    have hleft := (h.of_initial hpre hagain hrun' hleaves).1
    rw [hcallback] at hleft
    exact hnot hleft
  · intro h es hes pre e t hpre hrun hleaves
    obtain ⟨harmed, hlanded⟩ := run_flags hrun
    have hprefix : received pre <+: ms := by
      rw [← hes]
      exact ((List.prefix_append pre [e]).trans hpre).filterMap Event.message?
    have hagree := h (received pre) hprefix
    obtain ⟨_, ⟨_, hflag⟩ | ⟨_, hflag⟩⟩ := leaves_iff.mp hleaves
    · rw [harmed] at hflag
      exact ⟨hflag, hagree.mp hflag⟩
    · rw [hlanded] at hflag
      exact ⟨hagree.mpr hflag, hflag⟩

/-! ### Armed on the ground -/

section demo

/-- A `go_to` that was just dispatched, with the vehicle on the ground and its motors off. -/
def parked : State := ⟨.start, true, 0, 0, false, 1, none, false, []⟩

/-- The motors are armed, by the pilot or by an earlier action, and the callback gets to the loop. -/
def armedOnGround : List Event := .currentState true :: List.replicate 4 (.callback ⟨some 2, true⟩)

/-- The loop is not entered: the vehicle is armed, and still on the ground. -/
theorem left_airborne_fails : concreteCallback "go_to" ["base_1", "region_1"] = some goTo ∧
    ¬ ∀ (s : State) (ms : List Message), s.pc = .start → LeftAirborne goTo s ms := by
  refine ⟨by decide, fun h => ?_⟩
  have hrun : run (step goTo) parked armedOnGround =
      some ⟨.whileArmed, false, 0, 0, true, 1, some 2, false, []⟩ := by decide
  have hleaves : Leaves goTo ⟨.whileArmed, false, 0, 0, true, 1, some 2, false, []⟩ (.callback ⟨none, false⟩) :=
    ⟨rfl, _, rfl, rfl⟩
  obtain ⟨-, hlanded⟩ := (h parked [.currentState true] rfl).of_initial List.prefix_rfl rfl hrun hleaves
  exact absurd hlanded (by decide)

/-- In the air, with both topics repeating what they have said. -/
theorem left_airborne_cruising :
    LeftAirborne goTo { parked with armed := true, landedState := 2 } [.extendedState 2, .currentState true] := by
  have hinits : ∀ pre ∈ [Message.extendedState 2, .currentState true].inits,
      (lastArmed true pre = true ↔ lastLandedState 2 pre = 2) := by decide
  exact (left_airborne_iff goTo rfl _).mpr fun pre hpre => hinits pre ((List.mem_inits _ _).mpr hpre)

end demo

end DroneArch.FlightCallback
