import Mathlib.Data.List.Basic
import Mathlib.Data.List.Infix
import Mathlib.Data.List.Induction
import DroneArch.Runs

/-! # The node `mission_planning`

`mission_planning.cpp` keeps one object `mission` that three topics write and the main loop
reads.  When the last waypoint has been reached (`Ended`), the main loop lands, or, when a new
mission was received, uploads it with `send_mission`, changes to `AUTO` and kills
`mission_goal_manager`, which republishes the mission until then.

* `Session` records what the object received and what each `send_mission` pushed.
  `session_exact_iff`: each upload is the last mission exactly when, at each `send_mission`, that
  mission is a prefix of all the waypoints received since the start.
* `Station` is the node with its main loop, the queue of `newMission` and the list stored in the
  autopilot.  `station_flownOnce`: a mission is flown once when nothing is queued at
  `option = 0`.  `station_autoComplete_iff`: `AUTO` finds the complete mission exactly when the
  last push succeeded, or every push failed and the mission was already stored. -/

namespace DroneArch.MissionPlanning

open Runs

/-- The message `decision_support/newMission`; reading past its waypoints is undefined. -/
structure NewMission (W : Type*) where
  option : ℕ
  qtd : ℕ
  waypoints : List W
  qtd_le : qtd ≤ waypoints.length

/-- A message as it is published, with the count of its waypoints. -/
structure Message (W : Type*) extends NewMission W where
  qtd_eq : qtd = waypoints.length

/-- The class `Mission`. -/
structure Mission (W : Type*) where
  wpQtd : ℤ
  ended : Bool
  missionWP : NewMission W

variable {W : Type*}

/-- The first `qtd` waypoints. -/
def NewMission.mission (m : NewMission W) : List W := m.waypoints.take m.qtd

theorem Message.mission_eq (m : Message W) : m.mission = m.waypoints :=
  List.take_of_length_le m.qtd_eq.ge

/-- The message with an option and a list of waypoints. -/
def Message.of (option : ℕ) (waypoints : List W) : Message W :=
  ⟨⟨option, waypoints.length, waypoints, le_rfl⟩, rfl⟩

/-! ### The methods of `Mission` -/

namespace Mission

/-- The constructor; `WPqtd` is not initialised. -/
def init (wpQtd : ℤ) : Mission W := ⟨wpQtd, false, ⟨0, 0, [], le_rfl⟩⟩

def chatterCallbackWpqtd (m : Mission W) (size : ℕ) : Mission W := { m with wpQtd := (size : ℤ) - 1 }

def chatterCallbackCurrent (m : Mission W) (wpSeq : ℕ) : Mission W :=
  if m.wpQtd = wpSeq then { m with ended := true } else m

/-- The waypoints are pushed back on those that are there. -/
def chatterCallbackNewMission (m : Mission W) (msg : NewMission W) : Mission W :=
  { m with
    missionWP :=
      { option := msg.option
        qtd := msg.qtd
        waypoints := m.missionWP.waypoints ++ msg.waypoints.take msg.qtd
        qtd_le := by
          have := msg.qtd_le
          rw [List.length_append, List.length_take]
          omega } }

/-- `missionWP.option = 0` in `main`. -/
def resetOption (m : Mission W) : Mission W := { m with missionWP := { m.missionWP with option := 0 } }

/-- The loop of `send_mission`: the request grows by one waypoint and is pushed. -/
def sendLoop (request : List W) : List W → List (List W)
  | [] => []
  | w :: ws => (request ++ [w]) :: sendLoop (request ++ [w]) ws

/-- The requests of `send_mission`. -/
def pushes (m : Mission W) : List (List W) := sendLoop [] (m.missionWP.waypoints.take m.missionWP.qtd)

def sendMission (m : Mission W) : Mission W := { m with ended := false }

@[simp] theorem chatterCallbackCurrent_missionWP (m : Mission W) (wpSeq : ℕ) :
    (m.chatterCallbackCurrent wpSeq).missionWP = m.missionWP := by
  unfold chatterCallbackCurrent
  split <;> rfl

end Mission

/-! ### The requests -/

theorem sendLoop_append (request ws : List W) (w : W) :
    Mission.sendLoop request (ws ++ [w]) = Mission.sendLoop request ws ++ [request ++ (ws ++ [w])] := by
  induction ws generalizing request with
  | nil => rfl
  | cons v ws ih =>
      rw [List.cons_append, Mission.sendLoop, Mission.sendLoop, ih, List.cons_append,
        List.append_assoc request [v], List.singleton_append]

theorem sendLoop_length (request ws : List W) : (Mission.sendLoop request ws).length = ws.length := by
  induction ws generalizing request with
  | nil => rfl
  | cons v ws ih => rw [Mission.sendLoop, List.length_cons, List.length_cons, ih]

/-- The call number `i` pushes the first `i + 1` waypoints. -/
theorem sendLoop_getElem? (ws : List W) {i : ℕ} (hi : i < ws.length) :
    (Mission.sendLoop [] ws)[i]? = some (ws.take (i + 1)) := by
  induction ws using List.reverseRecOn with
  | nil => exact absurd hi (Nat.not_lt_zero i)
  | append_singleton ws w ih =>
      rw [sendLoop_append, List.nil_append]
      rw [List.length_append, List.length_singleton] at hi
      by_cases hlt : i < ws.length
      · rw [List.getElem?_append_left (by rwa [sendLoop_length]), ih hlt,
          List.take_append_of_le_length (by omega)]
      · have heq : i = ws.length := by omega
        rw [heq, List.getElem?_append_right (by rw [sendLoop_length]), sendLoop_length, Nat.sub_self,
          List.take_of_length_le (by simp)]
        rfl

/-- The last request is the complete mission. -/
theorem pushes_getLast? (m : Mission W) (hne : m.missionWP.mission ≠ []) :
    m.pushes.getLast? = some m.missionWP.mission := by
  obtain ⟨ws, w, hw⟩ := (List.eq_nil_or_concat m.missionWP.mission).resolve_left hne
  have hp : m.pushes = Mission.sendLoop [] m.missionWP.mission := rfl
  rw [hp, hw, List.concat_eq_append, sendLoop_append, List.getLast?_concat, List.nil_append]

theorem pushes_nil (m : Mission W) (hnil : m.missionWP.mission = []) : m.pushes = [] := by
  have hp : m.pushes = Mission.sendLoop [] m.missionWP.mission := rfl
  rw [hp, hnil]; rfl

/-- What the last push says about the mission. -/
theorem eq_of_pushes_getLast? {m : Mission W} {ws : List W} (h : m.pushes.getLast? = some ws) :
    ws = m.missionWP.mission := by
  by_cases hnil : m.missionWP.mission = []
  · rw [pushes_nil m hnil] at h
    cases h
  · rw [pushes_getLast? m hnil, Option.some.injEq] at h
    exact h.symm

/-! ### What is received and what is sent -/

/-- One call of `send_mission`: the last message received before it and its requests. -/
structure Send (W : Type*) where
  last : Option (Message W)
  pushes : List (List W)

/-- The object `mission`, the messages it received and the calls of `send_mission`. -/
structure Session (W : Type*) where
  mission : Mission W
  received : List (Message W)
  sends : List (Send W)

/-- What happens to the object: the deliveries of the three topics, and the two statements of
the main loop. -/
inductive Event (W : Type*)
  | wpqtd (size : ℕ)
  | current (wpSeq : ℕ)
  | newMission (msg : Message W)
  | sendMission
  | resetOption

namespace Session

def init (wpQtd : ℤ) : Session W := ⟨.init wpQtd, [], []⟩

def next (s : Session W) : Event W → Session W
  | .wpqtd size => { s with mission := s.mission.chatterCallbackWpqtd size }
  | .current wpSeq => { s with mission := s.mission.chatterCallbackCurrent wpSeq }
  | .newMission msg =>
      { s with
        mission := s.mission.chatterCallbackNewMission msg.toNewMission
        received := s.received ++ [msg] }
  | .sendMission =>
      { s with
        mission := s.mission.sendMission
        sends := s.sends ++ [⟨s.received.getLast?, s.mission.pushes⟩] }
  | .resetOption => { s with mission := s.mission.resetOption }

def step (s : Session W) (e : Event W) : Option (Session W) := some (s.next e)

/-- All the waypoints received so far. -/
def allReceived (s : Session W) : List W := (s.received.map (fun msg => msg.waypoints)).flatten

/-- The buffer holds all the waypoints received, and `qtd` counts those of the last message. -/
structure Buffered (s : Session W) : Prop where
  waypoints : s.mission.missionWP.waypoints = s.allReceived
  qtd : ∀ msg, s.received.getLast? = some msg → s.mission.missionWP.qtd = msg.waypoints.length

theorem buffered_init (wpQtd : ℤ) : (init wpQtd : Session W).Buffered := by
  constructor
  · rfl
  · intro msg h
    cases h

theorem buffered_step {s s' : Session W} {e : Event W} (hstep : s.step e = some s') (h : s.Buffered) :
    s'.Buffered := by
  cases hstep
  cases e with
  | current wpSeq =>
      have hm := s.mission.chatterCallbackCurrent_missionWP wpSeq
      exact ⟨(congrArg NewMission.waypoints hm).trans h.waypoints,
        fun msg hmsg => (congrArg NewMission.qtd hm).trans (h.qtd msg hmsg)⟩
  | newMission msg =>
      constructor
      · show s.mission.missionWP.waypoints ++ msg.mission = _
        rw [h.waypoints, msg.mission_eq]
        simp [allReceived, next]
      · intro msg' hmsg
        rw [next, List.getLast?_concat, Option.some.injEq] at hmsg
        rw [← hmsg]
        exact msg.qtd_eq
  | wpqtd | sendMission | resetOption => exact ⟨h.waypoints, h.qtd⟩

end Session

/-- The last push is the mission of the last message. -/
def Send.Exact (c : Send W) : Prop :=
  ∀ msg ws, c.last = some msg → c.pushes.getLast? = some ws → ws = msg.waypoints

/-- Every call of `send_mission` so far uploaded the last mission. -/
def Session.Exact (s : Session W) : Prop := ∀ c ∈ s.sends, c.Exact

/-- The last mission is a prefix of all that was received. -/
def Session.LastIsPrefix (s : Session W) : Prop :=
  ∀ msg, s.received.getLast? = some msg → msg.waypoints <+: s.allReceived

theorem Session.send_exact_iff {s : Session W} (h : s.Buffered) :
    (⟨s.received.getLast?, s.mission.pushes⟩ : Send W).Exact ↔ s.LastIsPrefix := by
  have hmission : ∀ msg, s.received.getLast? = some msg →
      s.mission.missionWP.mission = s.allReceived.take msg.waypoints.length := by
    intro msg hmsg
    rw [NewMission.mission, h.waypoints, h.qtd msg hmsg]
  constructor
  · intro hex msg hmsg
    by_cases hnil : s.mission.missionWP.mission = []
    · have hle := s.mission.missionWP.qtd_le
      have hlen := congrArg List.length hnil
      rw [NewMission.mission, List.length_take, List.length_nil] at hlen
      have hz : msg.waypoints.length = 0 := by
        rw [← h.qtd msg hmsg]; omega
      rw [List.length_eq_zero_iff.mp hz]
      exact List.nil_prefix
    · have heq := hex msg _ hmsg (pushes_getLast? s.mission hnil)
      rw [← heq, hmission msg hmsg]
      exact List.take_prefix _ _
  · intro hpre msg ws hmsg hws
    rw [eq_of_pushes_getLast? hws, hmission msg hmsg]
    exact (List.prefix_iff_eq_take.mp (hpre msg hmsg)).symm

/-- **The uploads.**  In every interleaving of the messages with the calls of `send_mission`,
each upload is the last mission exactly when, at each call, this mission is a prefix of all
the waypoints received since the start. -/
theorem session_exact_iff (wpQtd : ℤ) (es : List (Event W)) :
    Always Session.step Session.Exact (.init wpQtd) es ↔
      Each Session.step (fun s e => e = .sendMission → s.LastIsPrefix) (.init wpQtd) es := by
  refine always_iff_each (I := Session.Buffered) (fun s e s' hs h => Session.buffered_step hs h) ?_
    (Session.buffered_init wpQtd) (fun c hc => absurd hc List.not_mem_nil) es
  intro s e s' hs hbuf hex
  cases hs
  cases e with
  | sendMission =>
      rw [← Session.send_exact_iff hbuf]
      constructor
      · intro h _
        exact h _ (List.mem_append_right _ (List.mem_singleton_self _))
      · intro h c hc
        cases List.mem_append.mp hc with
        | inl hold => exact hex c hold
        | inr hnew => exact (List.mem_singleton.mp hnew) ▸ h rfl
  | wpqtd | current | newMission | resetOption =>
      exact ⟨fun _ h => (nomatch h), fun _ => hex⟩

/-- A second mission is received and `send_mission` uploads the first one again. -/
theorem session_exact_fails : ¬ ∀ (wpQtd : ℤ) (es : List (Event ℕ)),
    Always Session.step Session.Exact (.init wpQtd) es := by
  intro h
  have hall := h 0 [.newMission (.of 1 [1, 2]), .sendMission, .newMission (.of 1 [3, 4]), .sendMission]
  have hlast := hall.last rfl ⟨some (.of 1 [3, 4]), [[1], [1, 2]]⟩
    (List.mem_cons_of_mem _ (List.mem_singleton_self _)) (.of 1 [3, 4]) [1, 2] rfl rfl
  revert hlast
  decide

/-! ### The main loop -/

/-- The commands of the node. -/
inductive Command (W : Type*)
  | land
  | setLoiter
  | missionPush (request : List W)
  | setAuto
  | killManager

/-- The statements of `main`, by what is executed next. -/
inductive Pc
  | spinOnce
  | ifEnded
  | setLoiter
  | sendMission
  | setAuto
  | system
  | resetOption
deriving DecidableEq

/-- The node, `mission_goal_manager`, the mission that is published and not yet delivered, and
the list stored in the autopilot. -/
structure Station (W : Type*) where
  pc : Pc
  session : Session W
  manager : Bool
  queue : Option (Message W)
  stored : List W
  log : List (Command W)

/-- The list stored after the calls of the push service: the call number `i` succeeds when
`ok i`, and then it replaces the list. -/
def afterPushes (ok : ℕ → Bool) (requests : List (List W)) (stored : List W) : List W :=
  requests.zipIdx.foldl (fun stored call => if ok call.2 then call.1 else stored) stored

namespace Station

def init (wpQtd : ℤ) (stored : List W) : Station W := ⟨.spinOnce, .init wpQtd, true, none, stored, []⟩

/-- Issue a command. -/
def issue (s : Station W) (cmd : Command W) (pc : Pc) : Station W :=
  { s with log := s.log ++ [cmd], pc := pc }

/-- `if(mission.Ended)` with its branches on the option; the body of the third one is
commented out. -/
def ifEnded (s : Station W) : Station W :=
  if s.session.mission.ended then
    if s.session.mission.missionWP.option = 0 then s.issue .land .spinOnce
    else if s.session.mission.missionWP.option = 1 then { s with pc := .setLoiter }
    else { s with pc := .spinOnce }
  else { s with pc := .spinOnce }

/-- One statement of `main`. -/
def main (ok : ℕ → Bool) (s : Station W) : Station W :=
  match s.pc with
  | .spinOnce => { s with pc := .ifEnded }
  | .ifEnded => s.ifEnded
  | .setLoiter => s.issue .setLoiter .sendMission
  | .sendMission =>
      { s with
        session := s.session.next .sendMission
        stored := afterPushes ok s.session.mission.pushes s.stored
        log := s.log ++ s.session.mission.pushes.map .missionPush
        pc := .setAuto }
  | .setAuto => s.issue .setAuto .system
  | .system => { s.issue .killManager .resetOption with manager := false }
  | .resetOption => { s with session := s.session.next .resetOption, pc := .spinOnce }

/-- What the main loop of `mission_goal_manager` publishes. -/
def goal (waypoints : List W) : Message W := .of 1 waypoints

end Station

/-- The events: a statement of `main` with the answers to its pushes, a publication of
`mission_goal_manager`, and the deliveries within `ros::spinOnce()`. -/
inductive StationEvent
  | main (ok : ℕ → Bool)
  | publish
  | newMission
  | waypoints (size : ℕ)
  | reached (wpSeq : ℕ)

/-- One event; the queue of `newMission` has one place. -/
def Station.step (waypoints : List W) (s : Station W) : StationEvent → Option (Station W)
  | .main ok => some (s.main ok)
  | .publish => if s.manager then some { s with queue := some (goal waypoints) } else none
  | .newMission =>
      match s.queue with
      | none => none
      | some msg =>
          if s.pc = .spinOnce then some { s with session := s.session.next (.newMission msg), queue := none }
          else none
  | .waypoints size =>
      if s.pc = .spinOnce then some { s with session := s.session.next (.wpqtd size) } else none
  | .reached wpSeq =>
      if s.pc = .spinOnce then some { s with session := s.session.next (.current wpSeq) } else none

/-! ### A new mission is flown once -/

namespace Station

/-- `send_mission` was called at most once, and after it an end of mission leads to `land`. -/
def FlownOnce (s : Station W) : Prop :=
  s.session.sends.length ≤ 1 ∧
    (s.session.sends.length = 1 → s.pc = .ifEnded → s.session.mission.ended = true →
      ∀ ok, (s.main ok).log = s.log ++ [.land])

/-- The statements from `set_auto` to the reset of the option; the manager is dead at the last. -/
def Closing (s : Station W) : Prop :=
  s.pc = .setAuto ∨ s.pc = .system ∨ (s.pc = .resetOption ∧ s.manager = false)

/-- The mission is over for the node: it cannot receive it again. -/
structure Over (s : Station W) : Prop where
  manager : s.manager = false
  queue : s.queue = none
  option : s.session.mission.missionWP.option = 0
  pc : s.pc = .spinOnce ∨ s.pc = .ifEnded

/-- Where a run is: before the upload, in the statements after it, or behind them. -/
inductive Phase (s : Station W) : Prop
  | before (hsends : s.session.sends.length = 0) (hpc : ¬ s.Closing) (hreset : s.pc ≠ .resetOption)
  | closing (hsends : s.session.sends.length = 1) (hpc : s.Closing)
  | closed (hsends : s.session.sends.length = 1) (hover : s.Over)

theorem phase_init (wpQtd : ℤ) (stored : List W) : (init wpQtd stored).Phase := by
  refine .before rfl ?_ ?_
  · unfold Closing init
    simp
  · unfold init
    simp

theorem flownOnce_of_phase {s : Station W} (h : s.Phase) : s.FlownOnce := by
  cases h with
  | before hsends _ _ => exact ⟨by omega, fun h1 => by omega⟩
  | closing hsends hpc =>
      refine ⟨by omega, fun _ hif => ?_⟩
      unfold Closing at hpc
      rw [hif] at hpc
      simp at hpc
  | closed hsends hover =>
      refine ⟨by omega, fun _ hif hended ok => ?_⟩
      unfold main
      rw [hif]
      show s.ifEnded.log = _
      unfold ifEnded
      rw [if_pos hended, if_pos hover.option]
      rfl

/-- Nothing is queued at `option = 0`. -/
def NothingQueued (s : Station W) : StationEvent → Prop
  | .main _ => s.pc = .resetOption → s.queue = none
  | _ => True

instance (s : Station W) (e : StationEvent) : Decidable (s.NothingQueued e) := by
  cases e <;> unfold NothingQueued <;> infer_instance

/-- What an event can do. -/
theorem step_cases {waypoints : List W} {s s' : Station W} {e : StationEvent}
    (hstep : s.step waypoints e = some s') :
    (∃ ok, e = .main ok ∧ s' = s.main ok) ∨
    (s.manager = true ∧ s' = { s with queue := some (goal waypoints) }) ∨
    (∃ msg, s.pc = .spinOnce ∧ s.queue = some msg ∧
      s' = { s with session := s.session.next (.newMission msg), queue := none }) ∨
    (∃ size, s.pc = .spinOnce ∧ s' = { s with session := s.session.next (.wpqtd size) }) ∨
    (∃ wpSeq, s.pc = .spinOnce ∧ s' = { s with session := s.session.next (.current wpSeq) }) := by
  cases e with
  | main ok => exact .inl ⟨ok, rfl, (Option.some.inj hstep).symm⟩
  | publish =>
      simp only [step, Option.ite_none_right_eq_some, Option.some.injEq] at hstep
      exact .inr (.inl ⟨hstep.1, hstep.2.symm⟩)
  | newMission =>
      cases hq : s.queue with
      | none =>
          simp only [step, hq] at hstep
          cases hstep
      | some msg =>
          simp only [step, hq, Option.ite_none_right_eq_some, Option.some.injEq] at hstep
          exact .inr (.inr (.inl ⟨msg, hstep.1, rfl, hstep.2.symm⟩))
  | waypoints size =>
      simp only [step, Option.ite_none_right_eq_some, Option.some.injEq] at hstep
      exact .inr (.inr (.inr (.inl ⟨size, hstep.1, hstep.2.symm⟩)))
  | reached wpSeq =>
      simp only [step, Option.ite_none_right_eq_some, Option.some.injEq] at hstep
      exact .inr (.inr (.inr (.inr ⟨wpSeq, hstep.1, hstep.2.symm⟩)))

/-- A publication or a delivery leaves the statement, the manager and the uploads as they are. -/
theorem step_frame {waypoints : List W} {s s' : Station W} {e : StationEvent}
    (hstep : s.step waypoints e = some s') (hne : ∀ ok, e ≠ .main ok) :
    s'.pc = s.pc ∧ s'.manager = s.manager ∧ s'.session.sends = s.session.sends := by
  obtain ⟨ok, he, _⟩ | ⟨_, rfl⟩ | ⟨_, _, _, rfl⟩ | ⟨_, _, rfl⟩ | ⟨_, _, rfl⟩ := step_cases hstep
  · exact absurd he (hne ok)
  all_goals exact ⟨rfl, rfl, rfl⟩

theorem ifEnded_session (s : Station W) : s.ifEnded.session = s.session := by
  unfold ifEnded issue
  split
  · split
    · rfl
    · split <;> rfl
  · rfl

theorem ifEnded_pc (s : Station W) : s.ifEnded.pc = .spinOnce ∨ s.ifEnded.pc = .setLoiter := by
  unfold ifEnded issue
  split
  · split
    · exact .inl rfl
    · split
      · exact .inr rfl
      · exact .inl rfl
  · exact .inl rfl

theorem before_main {s : Station W} (ok : ℕ → Bool) (hsends : s.session.sends.length = 0)
    (hpc : ¬ s.Closing) (hreset : s.pc ≠ .resetOption) : (s.main ok).Phase := by
  have hkeep : ∀ pc, (pc = .spinOnce ∨ pc = .ifEnded ∨ pc = .setLoiter ∨ pc = .sendMission) →
      (s.main ok).pc = pc → (s.main ok).session = s.session → (s.main ok).Phase := by
    intro pc hcases heq hsession
    refine .before (by rw [hsession, hsends]) ?_ ?_
    · unfold Closing
      rw [heq]
      obtain rfl | rfl | rfl | rfl := hcases <;> simp
    · rw [heq]
      obtain rfl | rfl | rfl | rfl := hcases <;> simp
  cases hp : s.pc with
  | spinOnce => exact hkeep .ifEnded (by simp) (by rw [main, hp]) (by rw [main, hp])
  | ifEnded =>
      have hm : s.main ok = s.ifEnded := by rw [main, hp]
      obtain h | h := s.ifEnded_pc
      · exact hkeep .spinOnce (by simp) (by rw [hm, h]) (by rw [hm, ifEnded_session])
      · exact hkeep .setLoiter (by simp) (by rw [hm, h]) (by rw [hm, ifEnded_session])
  | setLoiter => exact hkeep .sendMission (by simp) (by rw [main, hp]; rfl) (by rw [main, hp]; rfl)
  | sendMission =>
      refine .closing ?_ ?_
      · rw [main, hp]
        show (s.session.sends ++ [_]).length = 1
        rw [List.length_append, hsends, List.length_singleton]
      · rw [main, hp]
        exact .inl rfl
  | setAuto => exact absurd (.inl hp) hpc
  | system => exact absurd (.inr (.inl hp)) hpc
  | resetOption => exact absurd hp hreset

theorem closing_main {s : Station W} (ok : ℕ → Bool) (hsends : s.session.sends.length = 1)
    (hpc : s.Closing) (hqueue : s.pc = .resetOption → s.queue = none) : (s.main ok).Phase := by
  obtain hp | hp | ⟨hp, hmanager⟩ := hpc
  · rw [main, hp]
    exact .closing hsends (.inr (.inl rfl))
  · rw [main, hp]
    exact .closing hsends (.inr (.inr ⟨rfl, rfl⟩))
  · rw [main, hp]
    exact .closed hsends ⟨hmanager, hqueue hp, rfl, .inl rfl⟩

theorem over_main {s : Station W} (ok : ℕ → Bool) (hsends : s.session.sends.length = 1) (hover : s.Over) :
    (s.main ok).Phase := by
  obtain hp | hp := hover.pc
  · rw [main, hp]
    exact .closed hsends ⟨hover.manager, hover.queue, hover.option, .inr rfl⟩
  · rw [main, hp]
    show s.ifEnded.Phase
    unfold ifEnded
    rw [if_pos hover.option]
    split
    · exact .closed hsends ⟨hover.manager, hover.queue, hover.option, .inl rfl⟩
    · exact .closed hsends ⟨hover.manager, hover.queue, hover.option, .inl rfl⟩

theorem over_message {waypoints : List W} {s s' : Station W} {e : StationEvent}
    (hstep : s.step waypoints e = some s') (hne : ∀ ok, e ≠ .main ok) (hover : s.Over) : s'.Over := by
  obtain ⟨ok, he, _⟩ | ⟨hmanager, _⟩ | ⟨_, _, hqueue, _⟩ | ⟨_, _, rfl⟩ | ⟨wpSeq, _, rfl⟩ := step_cases hstep
  · exact absurd he (hne ok)
  · rw [hover.manager] at hmanager
    cases hmanager
  · rw [hover.queue] at hqueue
    cases hqueue
  · exact ⟨hover.manager, hover.queue, hover.option, hover.pc⟩
  · refine ⟨hover.manager, hover.queue, ?_, hover.pc⟩
    show (s.session.mission.chatterCallbackCurrent wpSeq).missionWP.option = 0
    rw [Mission.chatterCallbackCurrent_missionWP, hover.option]

theorem phase_step {waypoints : List W} {s s' : Station W} {e : StationEvent}
    (hstep : s.step waypoints e = some s') (h : s.Phase) (hq : s.NothingQueued e) : s'.Phase := by
  by_cases hmain : ∃ ok, e = .main ok
  · obtain ⟨ok, rfl⟩ := hmain
    cases hstep
    cases h with
    | before hsends hpc hreset => exact before_main ok hsends hpc hreset
    | closing hsends hpc => exact closing_main ok hsends hpc hq
    | closed hsends hover => exact over_main ok hsends hover
  · have hne : ∀ ok, e ≠ .main ok := fun ok he => hmain ⟨ok, he⟩
    obtain ⟨hpc', hmanager', hsends'⟩ := step_frame hstep hne
    cases h with
    | before hsends hpc hreset =>
        refine .before (by rw [hsends', hsends]) ?_ (by rwa [hpc'])
        unfold Closing at hpc ⊢
        rwa [hpc', hmanager']
    | closing hsends hpc =>
        refine .closing (by rw [hsends', hsends]) ?_
        unfold Closing at hpc ⊢
        rwa [hpc', hmanager']
    | closed hsends hover => exact .closed (by rw [hsends', hsends]) (over_message hstep hne hover)

/-- Only the mission of the manager is queued, and the upload comes before the reset. -/
structure Known (waypoints : List W) (s : Station W) : Prop where
  queue : ∀ msg, s.queue = some msg → msg = goal waypoints
  sent : s.pc = .setAuto ∨ s.pc = .system ∨ s.pc = .resetOption → 0 < s.session.sends.length

theorem known_step {waypoints : List W} {s s' : Station W} {e : StationEvent}
    (hstep : s.step waypoints e = some s') (h : s.Known waypoints) : s'.Known waypoints := by
  obtain ⟨ok, _, rfl⟩ | ⟨_, rfl⟩ | ⟨_, _, _, rfl⟩ | ⟨_, _, rfl⟩ | ⟨_, _, rfl⟩ := step_cases hstep
  · cases hp : s.pc with
    | ifEnded =>
        rw [main, hp]
        show s.ifEnded.Known waypoints
        have hq : s.ifEnded.queue = s.queue := by
          unfold ifEnded issue
          split
          · split
            · rfl
            · split <;> rfl
          · rfl
        refine ⟨fun msg hmsg => h.queue msg (hq ▸ hmsg), fun hpc => ?_⟩
        obtain h' | h' := s.ifEnded_pc
        all_goals rw [h'] at hpc; simp at hpc
    | sendMission =>
        rw [main, hp]
        refine ⟨h.queue, fun _ => ?_⟩
        show 0 < (s.session.sends ++ [_]).length
        rw [List.length_append, List.length_singleton]
        omega
    | setAuto | system =>
        rw [main, hp]
        exact ⟨h.queue, fun _ => h.sent (by simp [hp])⟩
    | spinOnce | setLoiter | resetOption =>
        rw [main, hp]
        exact ⟨h.queue, fun hpc => by simp [issue] at hpc⟩
  · exact ⟨fun msg hmsg => (Option.some.inj hmsg).symm, h.sent⟩
  · exact ⟨fun msg hmsg => (nomatch hmsg), h.sent⟩
  · exact ⟨h.queue, h.sent⟩
  · exact ⟨h.queue, h.sent⟩

/-- The queued message is delivered after the reset and the next end of mission uploads again. -/
theorem sends_again {waypoints : List W} {s : Station W} (hpc : s.pc = .resetOption)
    (hqueue : s.queue = some (goal waypoints)) :
    ∃ es s', run (step waypoints) s es = some s' ∧ s'.session.sends.length = s.session.sends.length + 1 := by
  let ok : ℕ → Bool := fun _ => true
  obtain ⟨pc, ⟨mission, received, sends⟩, manager, queue, stored, log⟩ := s
  cases hpc
  cases hqueue
  refine ⟨[.main ok, .newMission, .waypoints 1, .reached 0, .main ok, .main ok, .main ok, .main ok], _, rfl, ?_⟩
  show (sends ++ [_]).length = sends.length + 1
  rw [List.length_append, List.length_singleton]

/-- **One flight of a mission.**  In every run in which no `newMission` is queued when the main
loop resets the option, `send_mission` is called at most once and the next end of mission lands.
A run that reaches the reset with a queued message goes on to one that does not. -/
theorem station_flownOnce (waypoints : List W) (wpQtd : ℤ) (stored : List W) :
    (∀ es, Each (step waypoints) NothingQueued (init wpQtd stored) es →
      Always (step waypoints) FlownOnce (init wpQtd stored) es) ∧
    (∀ es s, run (step waypoints) (init wpQtd stored) es = some s → s.pc = .resetOption → s.queue ≠ none →
      ∃ es', ¬ Always (step waypoints) FlownOnce (init wpQtd stored) (es ++ es')) := by
  constructor
  · intro es hQ
    have hphase := always_of_each (fun s e s' hs h hq => phase_step hs h hq) (phase_init wpQtd stored) hQ
    exact hphase.mono (fun s h => flownOnce_of_phase h)
  · intro es s hrun hpc hqueue
    have hinit : (init wpQtd stored).Known waypoints :=
      ⟨fun _ hmsg => (nomatch hmsg), fun h => by simp [init] at h⟩
    have hknown := run_invariant (fun s e s' hs h => known_step hs h) hinit hrun
    obtain ⟨msg, hmsg⟩ := Option.ne_none_iff_exists'.mp hqueue
    obtain ⟨es', s', hrun', hsends⟩ := sends_again hpc ((hknown.queue msg hmsg) ▸ hmsg)
    refine ⟨es', fun hall => ?_⟩
    have hlast := hall.last ((run_append_some hrun es').trans hrun')
    have hsent := hknown.sent (.inr (.inr hpc))
    have := hlast.1
    omega

/-- The last publication is delivered before the upload. -/
theorem station_flownOnce_once : Always (step [7, 8]) FlownOnce (init 0 ([] : List ℕ))
    [.publish, .newMission, .waypoints 2, .reached 1, .main (fun _ => true), .main (fun _ => true),
      .main (fun _ => true), .main (fun _ => true), .main (fun _ => true), .main (fun _ => true),
      .main (fun _ => true), .waypoints 3, .reached 2, .main (fun _ => true)] :=
  (station_flownOnce [7, 8] 0 []).1 _ (by decide)

/-- The manager publishes once more before it is killed: the same mission is sent a second time. -/
theorem station_flownOnce_fails : ¬ ∀ (waypoints : List ℕ) (wpQtd : ℤ) (stored : List ℕ) (es : List StationEvent),
    Always (step waypoints) FlownOnce (init wpQtd stored) es := by
  intro h
  let ok : ℕ → Bool := fun _ => true
  have hlast := (h [7, 8] 0 [] [.publish, .newMission, .waypoints 2, .reached 1, .main ok, .main ok, .main ok,
    .main ok, .main ok, .publish, .main ok, .main ok, .newMission, .waypoints 3, .reached 2, .main ok, .main ok,
    .main ok, .main ok]).last rfl
  exact absurd hlast.1 (by decide)

end Station

/-! ### `AUTO` and the complete mission -/

theorem afterPushes_append (ok : ℕ → Bool) (requests : List (List W)) (request stored : List W) :
    afterPushes ok (requests ++ [request]) stored =
      if ok requests.length then request else afterPushes ok requests stored := by
  unfold afterPushes
  rw [List.zipIdx_append, List.foldl_append, Nat.zero_add]
  rfl

/-- The list stored after the calls is the request of the last one that succeeded. -/
theorem afterPushes_cases (ok : ℕ → Bool) (requests : List (List W)) (stored : List W) :
    ((∀ i < requests.length, ok i = false) ∧ afterPushes ok requests stored = stored) ∨
    (∃ i < requests.length, ok i = true ∧ (∀ j < requests.length, i < j → ok j = false) ∧
      requests[i]? = some (afterPushes ok requests stored)) := by
  induction requests using List.reverseRecOn with
  | nil => exact .inl ⟨fun i hi => absurd hi (Nat.not_lt_zero i), rfl⟩
  | append_singleton requests request ih =>
      rw [afterPushes_append, List.length_append, List.length_singleton]
      cases hok : ok requests.length with
      | true =>
          rw [if_pos rfl]
          exact .inr ⟨requests.length, by omega, hok, fun j hj hlt => by omega, List.getElem?_concat_length⟩
      | false =>
          rw [if_neg Bool.false_ne_true]
          have hfail : ∀ j < requests.length + 1, ¬ j < requests.length → ok j = false := by
            intro j hj hge
            have heq : j = requests.length := by omega
            rw [heq, hok]
          cases ih with
          | inl hall =>
              refine .inl ⟨fun i hi => ?_, hall.2⟩
              by_cases hlt : i < requests.length
              · exact hall.1 i hlt
              · exact hfail i hi hlt
          | inr hsome =>
              obtain ⟨i, hi, hoki, hlast, hget⟩ := hsome
              refine .inr ⟨i, by omega, hoki, fun j hj hij => ?_, ?_⟩
              · by_cases hlt : j < requests.length
                · exact hlast j hlt hij
                · exact hfail j hj hlt
              · rw [List.getElem?_append_left hi, hget]

/-- The uploads leave the complete mission when the last call succeeds, or when none does and
it was there. -/
theorem afterPushes_complete_iff (ok : ℕ → Bool) (ws stored : List W) :
    afterPushes ok (Mission.sendLoop [] ws) stored = ws ↔
      (ws ≠ [] ∧ ok (ws.length - 1) = true) ∨ ((∀ i < ws.length, ok i = false) ∧ stored = ws) := by
  have hcases := afterPushes_cases ok (Mission.sendLoop [] ws) stored
  rw [sendLoop_length] at hcases
  obtain ⟨hall, heq⟩ | ⟨i, hi, hok, hlast, hget⟩ := hcases
  · rw [heq]
    constructor
    · exact fun h => .inr ⟨hall, h⟩
    · intro h
      cases h with
      | inl h =>
          have hpos := List.length_pos_iff.mpr h.1
          rw [hall (ws.length - 1) (by omega)] at h
          exact absurd h.2 Bool.false_ne_true
      | inr h => exact h.2
  · rw [sendLoop_getElem? ws hi, Option.some.injEq] at hget
    rw [← hget]
    have hpos : ws ≠ [] := List.length_pos_iff.mp (by omega)
    constructor
    · intro h
      have hlen := congrArg List.length h
      rw [List.length_take] at hlen
      have heq : ws.length - 1 = i := by omega
      exact .inl ⟨hpos, heq ▸ hok⟩
    · intro h
      cases h with
      | inl h =>
          have heq : ws.length ≤ i + 1 := by
            by_contra hlt
            rw [hlast (ws.length - 1) (by omega) (by omega)] at h
            exact Bool.false_ne_true h.2
          exact List.take_of_length_le heq
      | inr h =>
          rw [h.1 i hi] at hok
          cases hok

namespace Station

/-- The mission that `send_mission` uploads. -/
def mission (s : Station W) : List W := s.session.mission.missionWP.mission

/-- The next statement switches to `AUTO` only with the complete mission in the autopilot. -/
def AutoComplete (s : Station W) : Prop :=
  ∀ ok, (s.main ok).log = s.log ++ [.setAuto] → s.stored = s.mission

/-- The last push succeeds, or no push does and the mission is already stored. -/
def UploadCompletes (s : Station W) : StationEvent → Prop
  | .main ok => s.pc = .sendMission →
      (s.mission ≠ [] ∧ ok (s.mission.length - 1) = true) ∨
        ((∀ i < s.mission.length, ok i = false) ∧ s.stored = s.mission)
  | _ => True

theorem autoComplete_iff (s : Station W) : s.AutoComplete ↔ (s.pc = .setAuto → s.stored = s.mission) := by
  constructor
  · intro h hpc
    exact h (fun _ => true) (by rw [main, hpc]; rfl)
  · intro h ok hlog
    refine h ?_
    cases hp : s.pc with
    | setAuto => rfl
    | ifEnded =>
        have hm : s.main ok = s.ifEnded := by rw [main, hp]
        rw [hm] at hlog
        unfold ifEnded issue at hlog
        split at hlog
        · split at hlog
          · simp at hlog
          · split at hlog <;> simp at hlog
        · simp at hlog
    | sendMission =>
        rw [main, hp] at hlog
        have heq := List.append_cancel_left hlog
        cases hpush : s.session.mission.pushes with
        | nil =>
            rw [hpush] at heq
            cases heq
        | cons r rs =>
            rw [hpush] at heq
            cases heq
    | spinOnce | setLoiter | system | resetOption =>
        rw [main, hp] at hlog
        simp [issue] at hlog

/-- The statements other than the upload do not lead to `set_auto`. -/
theorem main_pc_ne_setAuto {s : Station W} (ok : ℕ → Bool) (hpc : s.pc ≠ .sendMission) :
    (s.main ok).pc ≠ .setAuto := by
  cases hp : s.pc with
  | sendMission => exact absurd hp hpc
  | ifEnded =>
      rw [main, hp]
      show s.ifEnded.pc ≠ .setAuto
      obtain h | h := s.ifEnded_pc
      all_goals rw [h]; simp
  | spinOnce | setLoiter | setAuto | system | resetOption =>
      rw [main, hp]
      simp [issue]

theorem autoComplete_main {s : Station W} (ok : ℕ → Bool) (hpc : s.pc = .sendMission) :
    (s.main ok).AutoComplete ↔ (s.mission ≠ [] ∧ ok (s.mission.length - 1) = true) ∨
      ((∀ i < s.mission.length, ok i = false) ∧ s.stored = s.mission) := by
  rw [autoComplete_iff, ← afterPushes_complete_iff, main, hpc]
  exact ⟨fun h => h rfl, fun h _ => h⟩

theorem message_autoComplete {waypoints : List W} {s s' : Station W} {e : StationEvent}
    (hstep : s.step waypoints e = some s') (hne : ∀ ok, e ≠ .main ok)
    (h : s.pc = .setAuto → s.stored = s.mission) : s'.pc = .setAuto → s'.stored = s'.mission := by
  obtain ⟨ok, he, _⟩ | ⟨_, rfl⟩ | ⟨_, hp, _, rfl⟩ | ⟨_, hp, rfl⟩ | ⟨_, hp, rfl⟩ := step_cases hstep
  · exact absurd he (hne ok)
  · exact h
  all_goals
    intro hpc
    rw [hpc] at hp
    cases hp

/-- **`AUTO` after an upload.**  In every run the node switches to `AUTO` only with the complete
mission in the autopilot exactly when, at each `send_mission`, the last push succeeds, or no
push does and the mission is already stored. -/
theorem station_autoComplete_iff (waypoints : List W) (wpQtd : ℤ) (stored : List W) (es : List StationEvent) :
    Always (step waypoints) AutoComplete (init wpQtd stored) es ↔
      Each (step waypoints) UploadCompletes (init wpQtd stored) es := by
  refine always_iff_each (I := fun _ => True) (fun _ _ _ _ _ => trivial) ?_ trivial ?_ es
  · intro s e s' hs _ h
    cases e with
    | main ok =>
        cases hs
        by_cases hpc : s.pc = .sendMission
        · rw [autoComplete_main ok hpc]
          exact ⟨fun hc _ => hc, fun hc => hc hpc⟩
        · refine ⟨fun _ hp => absurd hp hpc, fun _ => ?_⟩
          rw [autoComplete_iff]
          exact fun hp => absurd hp (main_pc_ne_setAuto ok hpc)
    | publish | newMission | waypoints | reached =>
        refine ⟨fun _ => trivial, fun _ => ?_⟩
        rw [autoComplete_iff] at h ⊢
        exact message_autoComplete hs (fun ok he => nomatch he) h
  · rw [autoComplete_iff]
    intro h
    cases h

/-- The second of two pushes fails, and the node flies the first waypoint alone. -/
theorem station_autoComplete_fails : ¬ ∀ (waypoints : List ℕ) (wpQtd : ℤ) (stored : List ℕ)
    (es : List StationEvent), Always (step waypoints) AutoComplete (init wpQtd stored) es := by
  intro h
  let ok : ℕ → Bool := fun i => i == 0
  have hlast := (h [7, 8] 0 [] [.publish, .newMission, .waypoints 2, .reached 1, .main ok, .main ok, .main ok,
    .main ok]).last rfl ok rfl
  exact absurd hlast (by decide)

end Station

end DroneArch.MissionPlanning
