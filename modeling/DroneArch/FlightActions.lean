import DroneArch.FlightCallback
import DroneArch.SendWpFile

/-! # Dispatched flight actions

A node that runs `concreteCallback` for one dispatched action after the other, with the list that
is stored in the autopilot.  What the planner leaves in `route.txt` and what the services answer
is fixed when an action is dispatched (`Upload`); the messages come in any order and at any time
after the push of the route that they are about.  `WPqtd` and `Ended` are global and outlive an
action.

* `succeedsAfterLast_of_each`: an action returns after its own last waypoint if each message that
  matches `WPqtd` is about the route that was pushed for it.
* `leavesAlone_iff`: a failed upload never leaves the vehicle alone. -/

namespace DroneArch.FlightActions

open Runs FlightCallback SendWpFile

/-- The answer of the push service. -/
structure Reply where
  called : Bool
  success : Bool

/-- The autopilot takes the list. -/
def Reply.accepted (r : Reply) : Bool := r.called && r.success

/-- What an action meets: the file that the planner leaves behind, the strings that are read past the
end of a short line, the answers of the services, and the route that `mavwp load` loads in
`callRoute`. -/
structure Upload where
  file : Option (List String)
  past : ℕ → ℕ → String
  cleared : Bool
  push : Reply
  pushAgain : Reply
  loaded : Option (List Waypoint)

/-- The answers as the callback sees them. -/
def Upload.answer (u : Upload) : Answer :=
  ⟨u.file.map (fun lines => (waypointLines lines).length), u.pushAgain.called⟩

/-- The node and the autopilot.  `pushes` counts the routes that the autopilot has taken.  `pushed` is
the route that was pushed last for the action, by its number among these, with the index of its last
waypoint, and `reachedLast` says that a message about them was delivered since that push. -/
structure World where
  action : Option Branch
  upload : Upload
  cb : State
  position : GeoPoint
  missionWp : List Waypoint
  stored : List Waypoint
  pushes : ℕ
  pushed : Option (ℕ × ℤ)
  reachedLast : Bool

/-- The events: the dispatch of an action, a statement of the callback, a message of a
subscribed topic, the cancel.  A message for a waypoint holds its index alone; `route` is the number
of the route that the vehicle was flying when it was sent, which the node does not see. -/
inductive Event
  | dispatch (name : String) (parameters : List String) (upload : Upload)
  | callback
  | gps (position : GeoPoint)
  | currentState (armed : Bool)
  | extendedState (landedState : ℕ)
  | waypoints (size : ℕ)
  | reached (route wpSeq : ℕ)
  | cancelAction

def Event.isDispatch : Event → Bool
  | .dispatch .. => true
  | _ => false

namespace World

/-- No action is in progress. -/
def Idle (w : World) : Prop := w.action = none ∨ w.cb.pc = .done

instance (w : World) : Decidable w.Idle := inferInstanceAs (Decidable (_ ∨ _))

/-- Begin a flight action. -/
def dispatch (w : World) (b : Branch) (u : Upload) : World :=
  { w with
    action := some b
    upload := u
    cb := { w.cb with pc := .start, log := [] }
    missionWp := []
    pushed := none
    reachedLast := false }

/-- The autopilot takes a route: the list is replaced, and nothing of it has been reached. -/
def take (w : World) (route : List Waypoint) : World :=
  { w with
    stored := route
    pushes := w.pushes + 1
    pushed := some (w.pushes, (route.length : ℤ) - 1)
    reachedLast := false }

/-- What a statement of the callback does outside `mission` and `drone`. -/
def effect (atof : String → ℚ) (w : World) : World :=
  match w.cb.pc with
  | .openRoute =>
      match w.upload.file with
      | none => w
      | some lines =>
          if waypointLines lines = [] then w
          else { w with missionWp := missionWpPast atof w.upload.past w.position lines }
  -- the answer of the clear service is printed
  | .clear => if w.upload.cleared then { w with stored := [] } else w
  | .push => if w.upload.push.accepted then w.take w.missionWp else w
  | .pushAgain => if w.upload.pushAgain.accepted then w.take w.missionWp else w
  | .callRoute =>
      match w.upload.loaded with
      | none => w
      | some route => w.take route
  | _ => w

/-- One statement of the callback. -/
def callback (atof : String → ℚ) (w : World) : Option World :=
  w.action.bind (fun b =>
    (FlightCallback.callback b w.upload.answer w.cb).map (fun cb => { w.effect atof with cb := cb }))

/-- A message for a waypoint; the number of the route is not in it. -/
def reached (w : World) (route wpSeq : ℕ) : World :=
  { w with
    cb := { w.cb with currentWP := wpSeq, ended := decide (w.cb.wpQtd = wpSeq) }
    reachedLast := w.reachedLast || decide (w.pushed = some (route, (wpSeq : ℤ))) }

/-- One event; the actions that do not fly leave `mission` as it is. -/
def step (atof : String → ℚ) (w : World) : Event → Option World
  | .dispatch name parameters upload =>
      if w.Idle then
        match concreteCallback name parameters with
        | none => some w
        | some b => some (w.dispatch b upload)
      else none
  | .callback => w.callback atof
  | .gps position => some { w with position := position }
  | .currentState armed => some { w with cb := { w.cb with armed := armed } }
  | .extendedState landedState => some { w with cb := { w.cb with landedState := landedState } }
  | .waypoints size => some { w with cb := { w.cb with wpQtd := (size : ℤ) - 1 } }
  | .reached route wpSeq => some (w.reached route wpSeq)
  | .cancelAction => some { w with cb := { w.cb with actionCancelled := true } }

end World

/-! ### The callback's thread -/

/-- The statements behind the wait loop. -/
def waited : Pc → Bool
  | .loiter | .completing | .done => true
  | _ => false

/-- The statements behind `sendWPFile` and `callRoute`. -/
def sent : Pc → Bool
  | .upload | .auto | .whileEnded | .waitEnded => true
  | pc => waited pc

theorem sent_of_waited {pc : Pc} (h : waited pc = true) : sent pc = true := by
  cases pc <;> first | rfl | cases h

/-- What a statement does to `Ended`, how the wait loop is left, and that no statement leads back to a
push. -/
theorem callback_ended {b : Branch} {o : Answer} {s s' : State} (h : FlightCallback.callback b o s = some s') :
    s'.pc ≠ .start ∧ (s.pc = .start → s'.ended = false) ∧ (s.pc ≠ .start → s'.ended = s.ended) ∧
      (waited s'.pc = true → waited s.pc = true ∨ (s.pc ≠ .start ∧ s.ended = true)) ∧
      (sent s.pc = true → sent s'.pc = true) := by
  have hnotSent : b.notSent = .callRoute ∨ b.notSent = .upload := by
    unfold Branch.notSent
    split <;> simp
  cases hpc : s.pc with
  | start =>
      simp only [FlightCallback.callback, hpc, Option.some.injEq] at h
      rw [← h]
      split <;> simp [waited, sent]
  | calcRoute =>
      simp only [FlightCallback.callback, hpc, Option.some.injEq] at h
      rw [← h]
      split <;> simp [waited, sent]
  | whileArmed | whileLanded =>
      simp only [FlightCallback.callback, hpc, Option.some.injEq] at h
      rw [← h]
      split <;> simp [State.goto, waited, sent]
  | openRoute =>
      simp only [FlightCallback.callback, hpc] at h
      split at h
      all_goals
        cases h
        obtain hn | hn := hnotSent
        all_goals simp [State.goto, waited, sent, hn]
  | pushAgain =>
      simp only [FlightCallback.callback, hpc, Option.some.injEq] at h
      rw [← h]
      split
      · simp [State.issue, waited, sent]
      · obtain hn | hn := hnotSent
        all_goals simp [State.issue, waited, sent, hn]
  | whileEnded =>
      simp only [FlightCallback.callback, hpc, Option.some.injEq] at h
      rw [← h]
      split
      · rename_i hended
        simp [State.goto, hended, waited, sent]
      · simp [State.goto, waited, sent]
  | done =>
      simp only [FlightCallback.callback, hpc] at h
      cases h
  | _ =>
      simp only [FlightCallback.callback, hpc, Option.some.injEq] at h
      rw [← h]
      simp [State.goto, State.issue, waited, sent]

/-! ### Completion -/

namespace World

theorem take_frame (w : World) (route : List Waypoint) :
    (w.take route).action = w.action ∧ (w.take route).upload = w.upload ∧ (w.take route).cb = w.cb :=
  ⟨rfl, rfl, rfl⟩

theorem effect_frame (atof : String → ℚ) (w : World) :
    (w.effect atof).action = w.action ∧ (w.effect atof).upload = w.upload ∧ (w.effect atof).cb = w.cb := by
  unfold effect
  split
  · split
    · exact ⟨rfl, rfl, rfl⟩
    · split <;> exact ⟨rfl, rfl, rfl⟩
  · split <;> exact ⟨rfl, rfl, rfl⟩
  · split
    · exact take_frame w _
    · exact ⟨rfl, rfl, rfl⟩
  · split
    · exact take_frame w _
    · exact ⟨rfl, rfl, rfl⟩
  · split
    · exact ⟨rfl, rfl, rfl⟩
    · exact take_frame w _
  · exact ⟨rfl, rfl, rfl⟩

/-- Behind the upload nothing outside the callback changes. -/
theorem effect_sent (atof : String → ℚ) {w : World} (h : sent w.cb.pc = true) : w.effect atof = w := by
  unfold effect
  split
  case h_6 => rfl
  all_goals
    rename_i hpc
    rw [hpc] at h
    cases h

/-- A statement of the callback, taken apart. -/
theorem callback_eq_some {atof : String → ℚ} {w w' : World} (h : w.callback atof = some w') :
    ∃ b cb, w.action = some b ∧ FlightCallback.callback b w.upload.answer w.cb = some cb ∧
      w' = { w.effect atof with cb := cb } := by
  obtain ⟨b, hb, h⟩ := Option.bind_eq_some_iff.mp h
  obtain ⟨cb, hcb, rfl⟩ := Option.map_eq_some_iff.mp h
  exact ⟨b, cb, hb, hcb, rfl⟩

/-- An action that has returned did so after its last waypoint was reached. -/
def SucceedsAfterLast (w : World) : Prop := w.action.isSome = true → w.cb.pc = .done → w.reachedLast = true

/-- A message that makes `Ended` true while the action waits comes after its last push, and it is
about the last waypoint of the route of that push. -/
def ReachedOwnRoute (w : World) : Event → Prop
  | .reached route wpSeq => w.action.isSome = true → w.cb.pc ≠ .start → waited w.cb.pc = false →
      w.cb.wpQtd = wpSeq → sent w.cb.pc = true ∧ w.pushed = some (route, (wpSeq : ℤ))
  | _ => True

/-- What holds while no message is mistaken: `Ended` is true only after the last push. -/
structure Waits (w : World) : Prop where
  ended : w.action.isSome = true → w.cb.pc ≠ .start → w.cb.ended = true →
    sent w.cb.pc = true ∧ w.reachedLast = true
  reached : w.action.isSome = true → waited w.cb.pc = true → w.reachedLast = true

theorem waits_callback {atof : String → ℚ} {w w' : World} (hstep : w.callback atof = some w') (h : w.Waits) :
    w'.Waits := by
  obtain ⟨b, cb, hb, hcb, rfl⟩ := callback_eq_some hstep
  obtain ⟨hstart, hfalse, hkeep, hlast, hsent⟩ := callback_ended hcb
  have hsome : w.action.isSome = true := by rw [hb]; rfl
  have hended : w.cb.pc ≠ .start → w.cb.ended = true → sent w.cb.pc = true ∧ (w.effect atof).reachedLast = true := by
    intro hpc he
    obtain ⟨hs, hr⟩ := h.ended hsome hpc he
    exact ⟨hs, by rw [effect_sent atof hs, hr]⟩
  constructor
  · intro _ _ he
    by_cases hpc : w.cb.pc = .start
    · rw [hfalse hpc] at he
      cases he
    · rw [hkeep hpc] at he
      obtain ⟨hs, hr⟩ := hended hpc he
      exact ⟨hsent hs, hr⟩
  · intro _ hover
    cases hlast hover with
    | inl hl =>
        show (w.effect atof).reachedLast = true
        rw [effect_sent atof (sent_of_waited hl), h.reached hsome hl]
    | inr he => exact (hended he.1 he.2).2

theorem waits_reached {w : World} {route wpSeq : ℕ} (h : w.Waits) (hq : w.ReachedOwnRoute (.reached route wpSeq)) :
    (w.reached route wpSeq).Waits := by
  constructor
  · intro hsome hstart hended
    show sent w.cb.pc = true ∧ (w.reachedLast || decide (w.pushed = some (route, (wpSeq : ℤ)))) = true
    rw [Bool.or_eq_true, decide_eq_true_iff]
    by_cases hl : waited w.cb.pc = true
    · exact ⟨sent_of_waited hl, .inl (h.reached hsome hl)⟩
    · obtain ⟨hs, hp⟩ := hq hsome hstart (Bool.not_eq_true _ ▸ hl) (of_decide_eq_true hended)
      exact ⟨hs, .inr hp⟩
  · intro hsome hl
    show (w.reachedLast || decide (w.pushed = some (route, (wpSeq : ℤ)))) = true
    rw [h.reached hsome hl, Bool.true_or]

theorem waits_dispatch (w : World) (b : Branch) (u : Upload) : (w.dispatch b u).Waits :=
  ⟨fun _ hstart => absurd rfl hstart, fun _ hl => by cases hl⟩

theorem waits_step {atof : String → ℚ} {w w' : World} {e : Event} (hstep : w.step atof e = some w')
    (h : w.Waits) (hq : w.ReachedOwnRoute e) : w'.Waits := by
  cases e with
  | dispatch name parameters upload =>
      simp only [step, Option.ite_none_right_eq_some] at hstep
      obtain ⟨_, hstep⟩ := hstep
      split at hstep
      · cases hstep
        exact h
      · cases hstep
        exact waits_dispatch w _ upload
  | callback => exact waits_callback hstep h
  | reached route wpSeq =>
      cases hstep
      exact waits_reached h hq
  | gps | currentState | extendedState | waypoints | cancelAction =>
      cases hstep
      exact ⟨h.ended, h.reached⟩

/-- **Completion.**  In every run over any sequence of dispatched actions in which each message
that matches `WPqtd` while an action waits is about the last waypoint of the route pushed for it, and
comes after the push, an action returns only after a message about that waypoint of that route. -/
theorem succeedsAfterLast_of_each (atof : String → ℚ) {w : World} (hw : w.action = none) {es : List Event}
    (hQ : Each (step atof) ReachedOwnRoute w es) : Always (step atof) SucceedsAfterLast w es := by
  have hnone : w.action.isSome ≠ true := by
    rw [hw]
    exact Bool.false_ne_true
  have hinit : w.Waits := ⟨fun h => absurd h hnone, fun h => absurd h hnone⟩
  have hwaits := always_of_each (fun w e w' hs h hq => waits_step hs h hq) hinit hQ
  exact hwaits.mono (fun w h hsome hpc => h.reached hsome (by rw [hpc]; rfl))

instance (w : World) : Decidable w.SucceedsAfterLast := inferInstanceAs (Decidable (_ → _ → _))

instance (w : World) (e : Event) : Decidable (w.ReachedOwnRoute e) := by
  cases e <;> unfold ReachedOwnRoute <;> infer_instance

end World

section demo

/-- A planned route whose upload succeeds. -/
def uploadOf (lines : List String) : Upload :=
  ⟨some lines, fun _ _ => "", true, ⟨true, true⟩, ⟨true, true⟩, none⟩

/-- The node in the air before its first action. -/
def airborne : World :=
  ⟨none, uploadOf [], ⟨.done, true, 0, 0, true, 2, none, false, []⟩, ⟨0, 0, 15⟩, [], [], 0, none, false⟩

/-- The statements of `pulverize_region` up to the wait loop, with the vehicle in the air. -/
def flyRoute : List Event := List.replicate 10 .callback

/-- The route of the first action has one line, and its last waypoint is number 1.  It is pushed twice,
as 0 and 1. -/
def firstAction : List Event :=
  .dispatch "pulverize_region" ["rover", "region_1"] (uploadOf ["1 2 3"]) :: flyRoute ++
    [.waypoints 2, .reached 1 0, .reached 1 1, .callback, .callback, .callback]

/-- The next route, 2 and 3, has three lines; the message with its waypoint list is still on its way
when its waypoint 1 is reached. -/
def secondAction : List Event :=
  .dispatch "pulverize_region" ["rover", "region_2"] (uploadOf ["1 2 3", "2 3 4", "3 4 5"]) :: flyRoute ++
    [.reached 3 1, .callback, .callback, .callback]

end demo

namespace World

theorem succeedsAfterLast_firstAction :
    Always (step (fun _ => 0)) SucceedsAfterLast airborne firstAction :=
  succeedsAfterLast_of_each (fun _ => 0) rfl (by decide +kernel)

/-- The second action returns at waypoint 1 of 3. -/
theorem succeedsAfterLast_fails : ¬ ∀ (atof : String → ℚ) (w : World) (es : List Event), w.action = none →
    Always (step atof) SucceedsAfterLast w es := by
  intro h
  have hall := h (fun _ => 0) airborne (firstAction ++ secondAction) rfl
  revert hall
  decide +kernel

end World

/-! ### Failed uploads -/

/-- The autopilot accepts the route of the file. -/
def Upload.Accepted (u : Upload) : Prop :=
  ∃ lines, u.file = some lines ∧ waypointLines lines ≠ [] ∧
    (u.push.accepted = true ∨ u.pushAgain.accepted = true)

/-- If the route is not accepted, then, as long as the action lasts, the stored mission is the old
one, and the vehicle is not switched to `AUTO` and no success is reported. -/
def LeavesAlone (atof : String → ℚ) (w : World) (b : Branch) (u : Upload) : Prop :=
  ¬ u.Accepted → ∀ es w', (∀ e ∈ es, e.isDispatch = false) → run (World.step atof) (w.dispatch b u) es = some w' →
    w'.stored = w.stored ∧ .setAuto ∉ w'.cb.log ∧ w'.cb.pc ≠ .completing ∧ w'.cb.pc ≠ .done

namespace World

/-- The action goes on to `set_auto` in some order of the events. -/
def GoesAuto (atof : String → ℚ) (w : World) : Prop :=
  ∃ es w', (∀ e ∈ es, e.isDispatch = false) ∧ run (step atof) w es = some w' ∧ .setAuto ∈ w'.cb.log

variable {atof : String → ℚ} {w : World} {b : Branch}

theorem GoesAuto.now (h : .setAuto ∈ w.cb.log) : w.GoesAuto atof :=
  ⟨[], w, fun _ he => absurd he List.not_mem_nil, rfl, h⟩

theorem GoesAuto.later {w₁ : World} {e : Event} (hstep : w.step atof e = some w₁) (hd : e.isDispatch = false)
    (h : w₁.GoesAuto atof) : w.GoesAuto atof := by
  obtain ⟨es, w', hes, hrun, hlog⟩ := h
  refine ⟨e :: es, w', ?_, (run_cons_some hstep es).trans hrun, hlog⟩
  rw [List.forall_mem_cons]
  exact ⟨hd, hes⟩

/-- One statement of the callback. -/
theorem GoesAuto.after (hb : w.action = some b) (cb : State)
    (hcb : FlightCallback.callback b w.upload.answer w.cb = some cb)
    (h : ∀ w' : World, w'.action = some b → w'.upload = w.upload → w'.cb = cb → w'.GoesAuto atof) :
    w.GoesAuto atof := by
  obtain ⟨haction, hupload, _⟩ := effect_frame atof w
  have hstep : w.step atof .callback = some { w.effect atof with cb := cb } := by
    rw [step, callback, hb, Option.bind_some, hcb, Option.map_some]
  exact GoesAuto.later hstep rfl (h _ (haction.trans hb) hupload rfl)

theorem goesAuto_upload (hb : w.action = some b) (hpc : w.cb.pc = .upload) : w.GoesAuto atof := by
  refine GoesAuto.after hb (w.cb.goto .auto) (by rw [FlightCallback.callback, hpc]) (fun w₁ hb₁ _ hcb₁ => ?_)
  have hpc₁ : w₁.cb.pc = .auto := by rw [hcb₁]; rfl
  refine GoesAuto.after hb₁ (w₁.cb.issue .setAuto .whileEnded) (by rw [FlightCallback.callback, hpc₁])
    (fun w₂ _ _ hcb₂ => GoesAuto.now ?_)
  rw [hcb₂]
  exact List.mem_append_right _ (List.mem_singleton_self _)

theorem goesAuto_pushAgain (hb : w.action = some b) (hcall : b.callRoute = false) (hpc : w.cb.pc = .pushAgain) :
    w.GoesAuto atof := by
  have hnext : (if w.upload.answer.pushed then Pc.upload else b.notSent) = .upload := by
    rw [Branch.notSent, hcall]
    split <;> rfl
  refine GoesAuto.after hb ({ w.cb.issue .missionPush .upload with route := none }) ?_ (fun w₁ hb₁ _ hcb₁ => ?_)
  · simp only [FlightCallback.callback, hpc, hnext]
  · exact goesAuto_upload hb₁ (by rw [hcb₁]; rfl)

theorem goesAuto_clear (hb : w.action = some b) (hcall : b.callRoute = false) (hpc : w.cb.pc = .clear) :
    w.GoesAuto atof := by
  refine GoesAuto.after hb (w.cb.issue .missionClear .push) (by rw [FlightCallback.callback, hpc])
    (fun w₁ hb₁ _ hcb₁ => ?_)
  have hpc₁ : w₁.cb.pc = .push := by rw [hcb₁]; rfl
  refine GoesAuto.after hb₁ (w₁.cb.issue .missionPush .pushAgain) (by rw [FlightCallback.callback, hpc₁])
    (fun w₂ hb₂ _ hcb₂ => ?_)
  exact goesAuto_pushAgain hb₂ hcall (by rw [hcb₂]; rfl)

/-- Whatever the file holds. -/
theorem goesAuto_openRoute (hb : w.action = some b) (hcall : b.callRoute = false) (hpc : w.cb.pc = .openRoute) :
    w.GoesAuto atof := by
  have hnotSent : b.notSent = .upload := by
    rw [Branch.notSent, hcall]; rfl
  cases hroute : w.cb.route with
  | none =>
      refine GoesAuto.after hb (w.cb.goto .upload) (by simp only [FlightCallback.callback, hpc, hroute, hnotSent])
        (fun w₁ hb₁ _ hcb₁ => ?_)
      exact goesAuto_upload hb₁ (by rw [hcb₁]; rfl)
  | some n =>
      cases n with
      | zero =>
          refine GoesAuto.after hb ({ w.cb with route := none, pc := .upload })
            (by simp only [FlightCallback.callback, hpc, hroute, hnotSent]) (fun w₁ hb₁ _ hcb₁ => ?_)
          exact goesAuto_upload hb₁ (by rw [hcb₁])
      | succ n =>
          refine GoesAuto.after hb (w.cb.goto .clear) (by simp only [FlightCallback.callback, hpc, hroute])
            (fun w₁ hb₁ _ hcb₁ => ?_)
          exact goesAuto_clear hb₁ hcall (by rw [hcb₁]; rfl)

/-- From the dispatch to the reading of the file, with the vehicle seen armed. -/
theorem goesAuto_dispatch (w : World) {b : Branch} {u : Upload} (hb : b ∈ [pulverizeRegion, takeImg]) :
    (w.dispatch b u).GoesAuto atof := by
  have hcases : b = pulverizeRegion ∨ b = takeImg := by simpa using hb
  obtain ⟨w₁, hrun, hb₁, hcall, hpc₁⟩ : ∃ w₁, run (step atof) (w.dispatch b u)
      [.callback, .callback, .currentState true, .callback, .callback] = some w₁ ∧ w₁.action = some b ∧
      b.callRoute = false ∧ w₁.cb.pc = .openRoute := by
    obtain rfl | rfl := hcases
    · exact ⟨_, rfl, rfl, rfl, rfl⟩
    · exact ⟨_, rfl, rfl, rfl, rfl⟩
  obtain ⟨es, w', hes, hrun', hlog⟩ : w₁.GoesAuto atof := goesAuto_openRoute hb₁ hcall hpc₁
  have hfirst : ∀ e ∈ ([.callback, .callback, .currentState true, .callback, .callback] : List Event),
      e.isDispatch = false := by
    simp [Event.isDispatch]
  refine ⟨_ ++ es, w', ?_, (run_append_some hrun es).trans hrun', hlog⟩
  intro e he
  cases List.mem_append.mp he with
  | inl hl => exact hfirst e hl
  | inr hr => exact hes e hr

end World

/-- **Failed uploads.**  A `pulverize_region` or `take_img` action leaves the vehicle alone after a
failed upload only when the upload does not fail. -/
theorem leavesAlone_iff (atof : String → ℚ) (w : World) {b : Branch} (hb : b ∈ [pulverizeRegion, takeImg])
    (u : Upload) : LeavesAlone atof w b u ↔ u.Accepted := by
  constructor
  · intro h
    by_contra hnot
    obtain ⟨es, w', hes, hrun, hlog⟩ : (w.dispatch b u).GoesAuto atof := World.goesAuto_dispatch w hb
    exact (h hnot es w' hes hrun).2.1 hlog
  · exact fun haccepted hnot => absurd haccepted hnot

/-- An upload for which nothing answers and no file is left. -/
def noUpload : Upload := ⟨none, fun _ _ => "", false, ⟨false, false⟩, ⟨false, false⟩, none⟩

theorem leavesAlone_pulverize : LeavesAlone (fun _ => 0) airborne pulverizeRegion noUpload ↔ noUpload.Accepted :=
  leavesAlone_iff (fun _ => 0) airborne List.mem_cons_self noUpload

/-- There is no route file, and the vehicle is switched to `AUTO` all the same. -/
theorem leavesAlone_fails : ¬ ∀ (atof : String → ℚ) (w : World) (b : Branch) (u : Upload),
    b ∈ [pulverizeRegion, takeImg] → LeavesAlone atof w b u := by
  intro h
  have hnot : ¬ noUpload.Accepted := by
    rintro ⟨lines, hfile, _⟩
    cases hfile
  obtain ⟨_, hauto, _⟩ := h (fun _ => 0) airborne pulverizeRegion noUpload List.mem_cons_self hnot
    (List.replicate 7 .callback) _ (by simp [Event.isDispatch]) rfl
  revert hauto
  decide

end DroneArch.FlightActions
