import Mathlib.Algebra.Order.Ring.Defs
import Mathlib.Data.List.Count
import Mathlib.Data.List.Perm.Basic
import Mathlib.Logic.Function.Basic
import DroneArch.Runs

/-! # Durative actions

The semantics of temporal planning domains in the style of PDDL 2.1.  A planning state holds
ground atoms `A` and numeric fluents `F` with values in `K`.  A ground durative action has a
duration, conditions at its start, over its whole execution and at its end, and effects at
its start and at its end.

* `step op c e` starts or finishes one action in the configuration `c`.  An action may start
  when its start condition holds; it is then in execution until it is finished, exactly its
  duration later.  The invariants of all actions in execution hold after every event.  Any
  number of actions may be in execution at once, so `Runs.run (step op)` executes every
  interleaving.
* `complete op s a` executes one action from start to end with nothing in between
  (`complete_iff_run`); it succeeds when the action is `Enabled` and gives its `result`.

`step_cases` says everything a single event can do; the rules on `executing` count the
actions in execution. -/

namespace Durative

/-- A planning state: the atoms that hold and the values of the fluents. -/
structure State (A F K : Type) where
  holds : A → Bool
  val : F → K

/-- The state without the atom `a`. -/
def State.forget {A F K : Type} [DecidableEq A] (s : State A F K) (a : A) : State A F K where
  holds a' := s.holds a' && !decide (a' = a)
  val := s.val

theorem State.eq_forget_iff {A F K : Type} [DecidableEq A] (s : State A F K) (a : A) :
    s = s.forget a ↔ s.holds a = false := by
  constructor
  · intro h
    rw [h]
    simp [forget]
  · intro h
    have hholds : s.holds = (s.forget a).holds := by
      funext a'
      by_cases ha : a' = a
      · subst ha
        simp [forget, h]
      · simp [forget, ha]
    calc s = ⟨s.holds, s.val⟩ := rfl
      _ = s.forget a := by rw [hholds]; rfl

/-- A numeric effect gives `target` the value computed from the valuation and the duration. -/
structure NumEffect (F K : Type) where
  target : F
  value : (F → K) → K → K

namespace NumEffect
variable {F K : Type}

def assign (f : F) (e : (F → K) → K → K) : NumEffect F K := ⟨f, e⟩

def increase [Add K] (f : F) (e : (F → K) → K → K) : NumEffect F K := ⟨f, fun v d => v f + e v d⟩

def decrease [Sub K] (f : F) (e : (F → K) → K → K) : NumEffect F K := ⟨f, fun v d => v f - e v d⟩

end NumEffect

/-- The effects of one end of an action. -/
structure Effect (A F K : Type) where
  del : List A := []
  add : List A := []
  num : List (NumEffect F K) := []

/-- A ground durative action. -/
structure Operator (A F K : Type) where
  duration : (F → K) → K
  atStart : State A F K → Bool := fun _ => true
  overAll : State A F K → Bool := fun _ => true
  atEnd : State A F K → Bool := fun _ => true
  startEffect : Effect A F K := {}
  endEffect : Effect A F K := {}

section
variable {A F K : Type} [DecidableEq A] [DecidableEq F]

namespace Effect

/-- Apply effects in a state: deletions, then additions; `d` is the duration. -/
def apply (E : Effect A F K) (d : K) (s : State A F K) : State A F K where
  holds a := decide (a ∈ E.add) || (s.holds a && !decide (a ∈ E.del))
  val := E.num.foldl (fun v e => Function.update v e.target (e.value v d)) s.val

theorem apply_holds (E : Effect A F K) (d : K) (s : State A F K) (a : A) :
    (E.apply d s).holds a = true ↔ a ∈ E.add ∨ (s.holds a = true ∧ a ∉ E.del) := by
  simp [apply]

theorem apply_val (E : Effect A F K) (d : K) (s : State A F K) :
    (E.apply d s).val = E.num.foldl (fun v e => Function.update v e.target (e.value v d)) s.val := rfl

/-- Fluents that no numeric effect targets are unchanged. -/
theorem apply_val_of_not_mem (E : Effect A F K) (d : K) (s : State A F K) {f : F}
    (h : ∀ e ∈ E.num, e.target ≠ f) : (E.apply d s).val f = s.val f := by
  rw [apply_val]
  generalize s.val = v
  revert h
  induction E.num generalizing v with
  | nil => intro _; rfl
  | cons e es ih =>
      intro h
      rw [List.foldl_cons, ih _ (fun e' he' => h e' (List.mem_cons_of_mem _ he')),
        Function.update_of_ne (h e List.mem_cons_self).symm]

end Effect
end

section
variable {α A F K : Type} [Zero K]

/-- An action in execution: its duration, fixed at its start, and the time it is due. -/
structure Running (α K : Type) [Zero K] [LE K] where
  act : α
  dur : K
  due : K
  nonneg : 0 ≤ dur
deriving DecidableEq

/-- A configuration: the current time, the planning state and the actions in execution. -/
structure Config (α A F K : Type) [Zero K] [LE K] where
  now : K
  state : State A F K
  running : List (Running α K)

/-- The two events of an action: it starts, it finishes. -/
inductive Event (α K : Type)
  | start (a : α) (t : K)
  | finish (a : α) (t : K)
deriving DecidableEq

end

section
variable {α A F K : Type} [DecidableEq α] [DecidableEq A] [DecidableEq F]
variable [Zero K] [Add K] [LinearOrder K]
variable (op : α → Operator A F K)

/-- The invariant of every action in execution holds. -/
def Config.overAllOk (c : Config α A F K) : Bool :=
  c.running.all (fun r => (op r.act).overAll c.state)

/-- One event of one action. -/
def step (c : Config α A F K) : Event α K → Option (Config α A F K)
  | .start a t =>
      let d := (op a).duration c.state.val
      if h : 0 ≤ d then
        let c' : Config α A F K :=
          { now := t, state := (op a).startEffect.apply d c.state, running := ⟨a, d, t + d, h⟩ :: c.running }
        if c.now ≤ t ∧ (∀ r ∈ c.running, t ≤ r.due) ∧ (op a).atStart c.state = true ∧
            c'.overAllOk op = true then some c' else none
      else none
  | .finish a t =>
      match c.running.find? (fun r => decide (r.act = a ∧ r.due = t)) with
      | none => none
      | some r =>
          let c' : Config α A F K :=
            { now := t, state := (op a).endEffect.apply r.dur c.state, running := c.running.erase r }
          if c.now ≤ t ∧ (∀ r ∈ c.running, t ≤ r.due) ∧ (op a).atEnd c.state = true ∧
              c'.overAllOk op = true then some c' else none

/-- The number of actions in execution that satisfy `p`. -/
def Config.executing (c : Config α A F K) (p : α → Bool) : ℕ := c.running.countP (fun r => p r.act)

/-- The configuration with nothing in execution. -/
def idle (s : State A F K) (t : K) : Config α A F K := ⟨t, s, []⟩

omit [DecidableEq α] [DecidableEq A] [DecidableEq F] [Add K] in
@[simp] theorem idle_state (s : State A F K) (t : K) : (idle s t : Config α A F K).state = s := rfl

omit [DecidableEq α] [DecidableEq A] [DecidableEq F] [Add K] in
@[simp] theorem idle_executing (s : State A F K) (t : K) (p : α → Bool) :
    (idle s t : Config α A F K).executing p = 0 := rfl

/-! ### What one event can do -/

variable {op}

/-- What starting `a` does. -/
structure Started (op : α → Operator A F K) (c c' : Config α A F K) (a : α) : Prop where
  nonneg : 0 ≤ (op a).duration c.state.val
  atStart : (op a).atStart c.state = true
  state : c'.state = (op a).startEffect.apply ((op a).duration c.state.val) c.state
  mem : ∀ r ∈ c'.running, (r.act = a ∧ r.dur = (op a).duration c.state.val) ∨ r ∈ c.running
  self : ∃ r ∈ c'.running, r.act = a
  executing : ∀ p, c'.executing p = c.executing p + if p a then 1 else 0

/-- What finishing `a`, which has taken `d`, does. -/
structure Finished (op : α → Operator A F K) (c c' : Config α A F K) (a : α) (d : K) : Prop where
  nonneg : 0 ≤ d
  atEnd : (op a).atEnd c.state = true
  state : c'.state = (op a).endEffect.apply d c.state
  mem : ∀ r ∈ c'.running, r ∈ c.running
  self : ∃ r ∈ c.running, r.act = a ∧ r.dur = d
  executing : ∀ p, c.executing p = c'.executing p + if p a then 1 else 0

theorem step_start {c c' : Config α A F K} {a : α} {t : K} (h : step op c (.start a t) = some c') :
    Started op c c' a := by
  simp only [step] at h
  split at h
  · split at h
    · rename_i hd hc
      obtain rfl := (Option.some.inj h).symm
      refine ⟨hd, hc.2.2.1, rfl, ?_, ⟨_, List.mem_cons_self, rfl⟩, ?_⟩
      · intro r hr
        rcases List.mem_cons.mp hr with rfl | hr
        · exact Or.inl ⟨rfl, rfl⟩
        · exact Or.inr hr
      · intro p
        simp only [Config.executing, List.countP_cons]
    · cases h
  · cases h

theorem step_finish {c c' : Config α A F K} {a : α} {t : K} (h : step op c (.finish a t) = some c') :
    ∃ d, Finished op c c' a d := by
  simp only [step] at h
  split at h
  · cases h
  · rename_i r hr
    split at h
    · rename_i hc
      obtain rfl := (Option.some.inj h).symm
      have hmem : r ∈ c.running := List.mem_of_find?_eq_some hr
      have hsel := List.find?_some hr
      have hact : r.act = a := (of_decide_eq_true hsel).1
      refine ⟨r.dur, r.nonneg, hc.2.2.1, rfl, fun r' h' => List.mem_of_mem_erase h', ⟨r, hmem, hact, rfl⟩, ?_⟩
      intro p
      have hperm := (List.perm_cons_erase hmem).countP_eq (fun r => p r.act)
      simp only [Config.executing, hperm, List.countP_cons, hact]
    · cases h

/-- Everything one event can do. -/
theorem step_cases {c c' : Config α A F K} {e : Event α K} (h : step op c e = some c') :
    (∃ a t, e = .start a t ∧ Started op c c' a) ∨ (∃ a t d, e = .finish a t ∧ Finished op c c' a d) := by
  cases e with
  | start a t => exact Or.inl ⟨a, t, rfl, step_start h⟩
  | finish a t =>
      obtain ⟨d, hd⟩ := step_finish h
      exact Or.inr ⟨a, t, d, rfl, hd⟩

/-- After every event the invariants of the actions in execution hold. -/
theorem step_overAll {c c' : Config α A F K} {e : Event α K} (h : step op c e = some c') :
    ∀ r ∈ c'.running, (op r.act).overAll c'.state = true := by
  have hok : c'.overAllOk op = true := by
    cases e with
    | start a t =>
        simp only [step] at h
        split at h
        · split at h
          · rename_i hd hc
            obtain rfl := (Option.some.inj h).symm
            exact hc.2.2.2
          · cases h
        · cases h
    | finish a t =>
        simp only [step] at h
        split at h
        · cases h
        · split at h
          · rename_i hc
            obtain rfl := (Option.some.inj h).symm
            exact hc.2.2.2
          · cases h
  exact List.all_eq_true.mp hok

/-! ### Executing one action at a time -/

/-- Execute one action from its start to its end, with no other event in between. -/
def complete (op : α → Operator A F K) (s : State A F K) (a : α) : Option (State A F K) :=
  let d := (op a).duration s.val
  let s₁ := (op a).startEffect.apply d s
  if (op a).atStart s = true ∧ 0 ≤ d ∧ (op a).overAll s₁ = true ∧ (op a).atEnd s₁ = true then
    some ((op a).endEffect.apply d s₁)
  else none

omit [DecidableEq α] [Add K] in
theorem complete_eq_some {s s' : State A F K} {a : α} :
    complete op s a = some s' ↔
      (op a).atStart s = true ∧ 0 ≤ (op a).duration s.val ∧
      (op a).overAll ((op a).startEffect.apply ((op a).duration s.val) s) = true ∧
      (op a).atEnd ((op a).startEffect.apply ((op a).duration s.val) s) = true ∧
      s' = (op a).endEffect.apply ((op a).duration s.val)
        ((op a).startEffect.apply ((op a).duration s.val) s) := by
  unfold complete
  constructor
  · intro h
    simp only at h
    split at h
    · rename_i hc
      exact ⟨hc.1, hc.2.1, hc.2.2.1, hc.2.2.2, (Option.some.inj h).symm⟩
    · cases h
  · rintro ⟨h1, h2, h3, h4, rfl⟩
    simp only
    rw [if_pos ⟨h1, h2, h3, h4⟩]

/-- The action can be executed from its start to its end. -/
def Enabled (op : α → Operator A F K) (s : State A F K) (a : α) : Prop :=
  (op a).atStart s = true ∧ 0 ≤ (op a).duration s.val ∧
    (op a).overAll ((op a).startEffect.apply ((op a).duration s.val) s) = true ∧
    (op a).atEnd ((op a).startEffect.apply ((op a).duration s.val) s) = true

/-- The state after the effects of both ends of the action. -/
def result (op : α → Operator A F K) (s : State A F K) (a : α) : State A F K :=
  (op a).endEffect.apply ((op a).duration s.val) ((op a).startEffect.apply ((op a).duration s.val) s)

instance (op : α → Operator A F K) (s : State A F K) (a : α) : Decidable (Enabled op s a) :=
  inferInstanceAs (Decidable (_ ∧ _))

omit [DecidableEq α] [Add K] in
theorem complete_eq (s : State A F K) (a : α) :
    complete op s a = if Enabled op s a then some (result op s a) else none := rfl

omit [DecidableEq α] [Add K] in
/-- Two actions, one after the other. -/
theorem run_complete_pair (s : State A F K) (a b : α) :
    Runs.run (complete op) s [a, b] =
      if Enabled op s a ∧ Enabled op (result op s a) b then some (result op (result op s a) b) else none := by
  rw [Runs.run_cons, complete_eq, ite_and]
  split
  · rw [Option.bind_some, Runs.run_cons, complete_eq]
    split <;> rfl
  · rfl

end

section
variable {α A F K : Type} [DecidableEq α] [DecidableEq A] [DecidableEq F]
variable [AddMonoid K] [LinearOrder K] [AddLeftMono K]
variable {op : α → Operator A F K}

/-- A complete action is its start followed at once by its end. -/
theorem complete_iff_run {s s' : State A F K} {a : α} (t : K) :
    complete op s a = some s' ↔
      Runs.run (step op) (idle s t)
        [.start a t, .finish a (t + (op a).duration s.val)] =
          some (idle s' (t + (op a).duration s.val)) := by
  rw [complete_eq_some]
  constructor
  · rintro ⟨h1, h2, h3, h4, rfl⟩
    have hle : t ≤ t + (op a).duration s.val := le_add_of_nonneg_right h2
    simp [Runs.run, step, idle, Config.overAllOk, h1, h2, h3, h4, hle]
  · intro h
    obtain ⟨c₁, hs, hr⟩ := Runs.run_cons_eq_some h
    have hst := step_start hs
    have hov := step_overAll hs
    obtain ⟨r₁, hr₁, hact₁⟩ := hst.self
    have hov₁ := hov r₁ hr₁
    rw [hact₁, hst.state] at hov₁
    obtain ⟨c₂, hs₂, hr₂⟩ := Runs.run_cons_eq_some hr
    cases hr₂
    obtain ⟨d, hf⟩ := step_finish hs₂
    obtain ⟨r, hr, hact, hdur⟩ := hf.self
    have hd : d = (op a).duration s.val := by
      rcases hst.mem r hr with ⟨_, hdur'⟩ | hr
      · exact hdur.symm.trans hdur'
      · cases hr
    have hend := hf.atEnd
    have hstate := hf.state
    rw [hst.state] at hend hstate
    rw [hd] at hstate
    exact ⟨hst.atStart, hst.nonneg, hov₁, hend, hstate⟩

end

end Durative
