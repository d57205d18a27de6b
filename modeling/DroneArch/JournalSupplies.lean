import DroneArch.JournalBattery
import DroneArch.JournalFlights

/-! # The supplies in the mission domain

What the actions of `domain_journal.pddl` leave of the clean camera, the spraying input and the
battery charge, in every interleaving of their starts and ends.

* `cleaned_between`: between a spraying and a picture the camera is cleaned.
* `input_bounds`: the input stays between zero and the capacity.
* `battery_le_capacity`: a recharge does not overfill the battery. -/

namespace DroneArch.Journal

open Durative Runs

section
variable {R K : Type} [Fintype R] [DecidableEq R] [Field K] [LinearOrder K]
variable {isBase : R → Bool}

/-- The action that sprays. -/
def Action.isSpraying : Action isBase → Bool
  | .pulverizeRegion _ => true
  | _ => false

/-- The action that cleans the camera. -/
def Action.isCleaning : Action isBase → Bool
  | .cleanCamera _ => true
  | _ => false

/-- The action that fills the input. -/
def Action.isRefilling : Action isBase → Bool
  | .rechargeInput _ => true
  | _ => false

/-- The action that charges the battery. -/
def Action.isCharging : Action isBase → Bool
  | .rechargeBattery _ => true
  | _ => false

/-! ### The camera -/

theorem start_canTakePic (a : Action isBase) (d : K) (s : JState R K) :
    ((op a).startEffect.apply d s).holds .canTakePic =
      (a.isCleaning || (s.holds .canTakePic && !a.isSpraying)) := by
  cases a <;> simp [op, Effect.apply, Action.isCleaning, Action.isSpraying]

theorem end_canTakePic (a : Action isBase) (d : K) (s : JState R K) :
    ((op a).endEffect.apply d s).holds .canTakePic = s.holds .canTakePic := by
  cases a <;> simp [op, Effect.apply]

/-- The event does not start a `clean_camera`. -/
def NotCleaning : Event (Action isBase) K → Prop
  | .start a _ => a.isCleaning = false
  | .finish _ _ => True

/-- A dirty camera stays dirty until it is cleaned. -/
theorem dirty_step {c c' : JConfig K isBase} {e : Event (Action isBase) K} (h : step op c e = some c')
    (hdirty : c.state.holds .canTakePic = false) (he : NotCleaning e) : c'.state.holds .canTakePic = false := by
  rcases step_cases h with ⟨a, t, rfl, hs⟩ | ⟨a, t, d, rfl, hf⟩
  · have ha : a.isCleaning = false := he
    rw [hs.state, start_canTakePic, ha, hdirty]
    rfl
  · rw [hf.state, end_canTakePic, hdirty]

theorem dirty_run {c c' : JConfig K isBase} {es : List (Event (Action isBase) K)} (h : run (step op) c es = some c')
    (hdirty : c.state.holds .canTakePic = false) (hes : ∀ e ∈ es, NotCleaning e) :
    c'.state.holds .canTakePic = false := by
  have heach : Each (step op) (fun _ e => NotCleaning e) c es := each_of_forall hes c
  exact (always_of_each (fun _ _ _ hs hd he => dirty_step hs hd he) hdirty heach).last h

/-- **Camera hygiene.**  In every execution, between the start of a `pulverize_region` and the start of a
later `take_image` a `clean_camera` starts. -/
theorem cleaned_between {c : JConfig K isBase} {pre mid post : List (Event (Action isBase) K)} {r r' : R} {t t' : K}
    (h : (run (step op) c
      (pre ++ .start (.pulverizeRegion r) t :: (mid ++ .start (.takeImage r') t' :: post))).isSome = true) :
    ∃ b t'', Event.start (.cleanCamera b) t'' ∈ mid := by
  by_contra hno
  have hmid : ∀ e ∈ mid, NotCleaning e := by
    intro e he
    cases e with
    | finish a t => trivial
    | start a t =>
        cases a with
        | cleanCamera b => exact absurd ⟨b, t, he⟩ hno
        | _ => rfl
  obtain ⟨c', h⟩ := Option.isSome_iff_exists.mp h
  rw [run_append] at h
  obtain ⟨c₁, _, h⟩ := Option.bind_eq_some_iff.mp h
  obtain ⟨c₂, hspray, h⟩ := run_cons_eq_some h
  rw [run_append] at h
  obtain ⟨c₃, hrun, h⟩ := Option.bind_eq_some_iff.mp h
  obtain ⟨c₄, hpic, _⟩ := run_cons_eq_some h
  have hdirty : c₂.state.holds .canTakePic = false := by
    rw [(step_start hspray).state, start_canTakePic]
    simp [Action.isCleaning, Action.isSpraying]
  have hguard := (step_start hpic).atStart
  simp only [op, Bool.and_eq_true] at hguard
  rw [dirty_run hrun hdirty hmid] at hguard
  exact Bool.false_ne_true hguard.1

/-! ### One action at the vehicle's place -/

omit [Fintype R] [DecidableEq R] in
theorem Position.unique {c : JConfig K isBase} (h : Position c) {r r' : R} (hr : c.state.holds (.at_ r) = true)
    (hr' : c.state.holds (.at_ r') = true) : r = r' := by
  rcases h with ⟨_, r₀, _, hu⟩ | ⟨_, hn⟩
  · rw [hu r hr, hu r' hr']
  · rw [hn r] at hr
    cases hr

/-- Where the vehicle is, and the conditions of the actions in execution. -/
structure Placed (c : JConfig K isBase) : Prop where
  position : Position c
  overAll : ∀ r ∈ c.running, (op r.act).overAll c.state = true

theorem placed_step {c c' : JConfig K isBase} {e : Event (Action isBase) K} (h : step op c e = some c')
    (hc : Placed c) : Placed c' := ⟨position_step h hc.position, step_overAll h⟩

omit [DecidableEq R] in
theorem placed_idle {s : JState R K} (h : AtOne s) (t : K) : Placed (idle s t : JConfig K isBase) :=
  ⟨position_idle h t, fun _ hr => (List.not_mem_nil hr).elim⟩

omit [DecidableEq R] in
/-- Of the actions `f i` that need the vehicle at the place `g i`, one is in execution at most. -/
theorem executing_le_one {ι : Type} {c : JConfig K isBase} (hc : Placed c) (hself : SelfOverlapFree c)
    {p : Action isBase → Bool} {f : ι → Action isBase} {g : ι → R} (hg : Function.Injective g)
    (hf : ∀ a, p a = true → ∃ i, a = f i)
    (hat : ∀ i (s : JState R K), (op (f i)).overAll s = true → s.holds (.at_ (g i)) = true) :
    c.executing p ≤ 1 := by
  rw [Config.executing, List.countP_eq_length_filter]
  have hnodup : ((c.running.filter (fun r => p r.act)).map (fun r => r.act)).Nodup :=
    hself.sublist (List.filter_sublist.map _)
  have hsame : ∀ x ∈ c.running.filter (fun r => p r.act), ∀ y ∈ c.running.filter (fun r => p r.act),
      x.act = y.act := by
    intro x hx y hy
    rw [List.mem_filter] at hx hy
    obtain ⟨i, hi⟩ := hf x.act hx.2
    obtain ⟨j, hj⟩ := hf y.act hy.2
    have hovx := hc.overAll x hx.1
    have hovy := hc.overAll y hy.1
    rw [hi] at hovx
    rw [hj] at hovy
    rw [hi, hj, hg (hc.position.unique (hat i _ hovx) (hat j _ hovy))]
  generalize c.running.filter (fun r => p r.act) = l at hnodup hsame
  cases l with
  | nil => simp
  | cons x l =>
      cases l with
      | nil => simp
      | cons y l =>
          rw [List.map_cons, List.map_cons, List.nodup_cons, List.mem_cons] at hnodup
          exact absurd (Or.inl (hsame x List.mem_cons_self y (List.mem_cons_of_mem _ List.mem_cons_self))) hnodup.1

omit [DecidableEq R] in
theorem spraying_le_one {c : JConfig K isBase} (hc : Placed c) (hself : SelfOverlapFree c) :
    c.executing Action.isSpraying ≤ 1 := by
  refine executing_le_one (f := .pulverizeRegion) hc hself Function.injective_id ?_ ?_
  · intro a ha
    cases a with
    | pulverizeRegion r => exact ⟨r, rfl⟩
    | _ => cases ha
  · intro r s hs
    simpa [op] using hs

omit [DecidableEq R] in
theorem charging_le_one {c : JConfig K isBase} (hc : Placed c) (hself : SelfOverlapFree c) :
    c.executing Action.isCharging ≤ 1 := by
  refine executing_le_one (f := .rechargeBattery) hc hself Subtype.val_injective ?_ ?_
  · intro a ha
    cases a with
    | rechargeBattery b => exact ⟨b, rfl⟩
    | _ => cases ha
  · intro b s hs
    simpa [op] using hs

/-! ### The input -/

theorem start_input (a : Action isBase) (d : K) (s : JState R K) :
    ((op a).startEffect.apply d s).val .inputAmount =
      if a.isRefilling then s.val .inputCapacity else s.val .inputAmount := by
  cases a <;> simp [op, Effect.apply, Action.isRefilling, NumEffect.decrease, NumEffect.assign]

theorem end_input (a : Action isBase) (d : K) (s : JState R K) :
    ((op a).endEffect.apply d s).val .inputAmount = s.val .inputAmount - if a.isSpraying then 1 else 0 := by
  cases a <;> simp [op, Effect.apply, Action.isSpraying, NumEffect.decrease, NumEffect.increase]

omit [DecidableEq R] in
/-- Spraying starts with input left, filling without. -/
theorem input_of_atStart {a : Action isBase} {s : JState R K} (h : (op a).atStart s = true) :
    (a.isSpraying = true → 0 < s.val .inputAmount) ∧ (a.isRefilling = true → s.val .inputAmount = 0) := by
  cases a <;> simp_all [op, Action.isSpraying, Action.isRefilling]

/-- The input is a natural number up to the capacity, and there is some while an action sprays. -/
structure Stocked (c : JConfig K isBase) : Prop where
  amount : ∃ n m : ℕ, c.state.val .inputAmount = n ∧ c.state.val .inputCapacity = m ∧ n ≤ m
  left : 0 < c.executing Action.isSpraying → 0 < c.state.val .inputAmount

section
variable [IsStrictOrderedRing K]

omit [IsStrictOrderedRing K] in
theorem stocked_start {c c' : JConfig K isBase} {a : Action isBase} (h : Started op c c' a) (hc : Stocked c)
    (hcap : c'.state.val .inputCapacity = c.state.val .inputCapacity) : Stocked c' := by
  obtain ⟨n, m, hn, hm, hle⟩ := hc.amount
  have hinput := start_input a ((op a).duration c.state.val) c.state
  rw [← h.state] at hinput
  have hex := h.executing Action.isSpraying
  obtain ⟨hspray, hfill⟩ := input_of_atStart h.atStart
  cases hf : a.isRefilling with
  | true =>
      -- nothing sprays where the input is filled
      have hzero := hfill hf
      have hnone : c.executing Action.isSpraying = 0 := by
        by_contra hne
        exact absurd hzero (hc.left (Nat.pos_of_ne_zero hne)).ne'
      have hno : a.isSpraying = false := by cases a <;> first | rfl | cases hf
      rw [hf, if_pos rfl] at hinput
      rw [hno, if_neg Bool.false_ne_true, hnone] at hex
      refine ⟨⟨m, m, hinput.trans hm, hcap.trans hm, le_rfl⟩, fun hpos => ?_⟩
      omega
  | false =>
      rw [hf, if_neg Bool.false_ne_true] at hinput
      refine ⟨⟨n, m, hinput.trans hn, hcap.trans hm, hle⟩, fun hpos => ?_⟩
      rw [hinput]
      cases hs : a.isSpraying with
      | true => exact hspray hs
      | false =>
          rw [hs, if_neg Bool.false_ne_true] at hex
          exact hc.left (by omega)

theorem stocked_finish {c c' : JConfig K isBase} {a : Action isBase} {d : K} (h : Finished op c c' a d)
    (hone : c.executing Action.isSpraying ≤ 1) (hc : Stocked c)
    (hcap : c'.state.val .inputCapacity = c.state.val .inputCapacity) : Stocked c' := by
  obtain ⟨n, m, hn, hm, hle⟩ := hc.amount
  have hinput := end_input a d c.state
  rw [← h.state] at hinput
  have hex := h.executing Action.isSpraying
  cases hs : a.isSpraying with
  | true =>
      rw [hs, if_pos rfl] at hinput hex
      have hpos : 0 < n := by
        have hleft := hc.left (by omega)
        rw [hn] at hleft
        exact_mod_cast hleft
      refine ⟨⟨n - 1, m, ?_, hcap.trans hm, by omega⟩, fun hpos' => ?_⟩
      · rw [hinput, hn, Nat.cast_sub hpos, Nat.cast_one]
      · omega
  | false =>
      rw [hs, if_neg Bool.false_ne_true] at hinput hex
      rw [sub_zero] at hinput
      refine ⟨⟨n, m, hinput.trans hn, hcap.trans hm, hle⟩, fun hpos => ?_⟩
      rw [hinput]
      exact hc.left (by omega)

theorem stocked_step {c c' : JConfig K isBase} {e : Event (Action isBase) K} (h : step op c e = some c')
    (hself : SelfOverlapFree c) (hp : Placed c) (hc : Stocked c) : Stocked c' := by
  have hcap := step_static h (f := .inputCapacity) rfl
  rcases step_cases h with ⟨a, t, rfl, hs⟩ | ⟨a, t, d, rfl, hf⟩
  · exact stocked_start hs hc hcap
  · exact stocked_finish hf (spraying_le_one hp hself) hc hcap

/-- **The input.**  From a state with one position and natural numbers for the input and its capacity, the
input stays between zero and the capacity along every run in which no action overlaps itself. -/
theorem input_bounds {s : JState R K} (hat : AtOne s)
    (hamount : ∃ n m : ℕ, s.val .inputAmount = n ∧ s.val .inputCapacity = m ∧ n ≤ m) (t : K)
    (es : List (Event (Action isBase) K)) (hself : Always (step op) SelfOverlapFree (idle s t) es) :
    Always (step op) (fun c => 0 ≤ c.state.val .inputAmount ∧ c.state.val .inputAmount ≤ c.state.val .inputCapacity)
      (idle s t) es := by
  have hinit : Placed (idle s t : JConfig K isBase) ∧ Stocked (idle s t : JConfig K isBase) :=
    ⟨placed_idle hat t, hamount, fun hpos => by simp at hpos⟩
  have hkept := always_of_always (I := fun c : JConfig K isBase => Placed c ∧ Stocked c)
    (fun _ _ _ hs hself hc => ⟨placed_step hs hc.1, stocked_step hs hself hc.1 hc.2⟩) hinit hself
  refine hkept.mono (fun c hc => ?_)
  obtain ⟨n, m, hn, hm, hle⟩ := hc.2.amount
  rw [hn, hm]
  exact ⟨Nat.cast_nonneg n, Nat.cast_le.mpr hle⟩

/-! ### The charge -/

/-- Positive speed and rates, and no negative distance. -/
structure Speeds (v : Fluent R → K) : Prop where
  velocity : 0 < v .velocity
  recharge : 0 < v .rechargeRateBattery
  discharge : 0 < v .dischargeRateBattery
  distance : ∀ f t, 0 ≤ v (.distance f t)

omit [Fintype R] [DecidableEq R] [IsStrictOrderedRing K] in
theorem Speeds.congr {v v' : Fluent R → K} (h : ∀ f : Fluent R, f.isStatic = true → v' f = v f) (hv : Speeds v) :
    Speeds v' where
  velocity := (h .velocity rfl).symm ▸ hv.velocity
  recharge := (h .rechargeRateBattery rfl).symm ▸ hv.recharge
  discharge := (h .dischargeRateBattery rfl).symm ▸ hv.discharge
  distance f t := (h (.distance f t) rfl).symm ▸ hv.distance f t

omit [Fintype R] [DecidableEq R] in
theorem Speeds.draw_nonneg {v : Fluent R → K} (hv : Speeds v) {x : K} (hx : 0 ≤ x) : 0 ≤ draw v x :=
  mul_nonneg (div_nonneg hx hv.velocity.le) hv.discharge.le

omit [Fintype R] [DecidableEq R] in
theorem Speeds.startDraw_nonneg {v : Fluent R → K} (hv : Speeds v) (a : Action isBase) : 0 ≤ startDraw v a := by
  cases a with
  | goToPicture f t | goTo f t => exact hv.draw_nonneg (hv.distance f t)
  | goToBase f t => exact hv.draw_nonneg (hv.distance f t)
  | pulverizeRegion r => exact hv.draw_nonneg (by norm_num)
  | _ => exact le_rfl

omit [Fintype R] [DecidableEq R] in
/-- Only charging gains battery. -/
theorem Speeds.endGain_le {v : Fluent R → K} (hv : Speeds v) (d : K) {a : Action isBase} (ha : a.isCharging = false) :
    endGain v d a ≤ 0 := by
  cases a with
  | takeImage r => exact neg_nonpos.mpr (hv.draw_nonneg (by norm_num))
  | rechargeBattery b => cases ha
  | _ => exact le_rfl

/-- The battery is not above its capacity, nor will it be at the end of a charge in execution. -/
structure Charged (c : JConfig K isBase) : Prop where
  speeds : Speeds c.state.val
  le : c.state.val .batteryAmount ≤ c.state.val .batteryCapacity
  due : ∀ r ∈ c.running, r.act.isCharging = true →
    c.state.val .batteryAmount + r.dur * c.state.val .rechargeRateBattery ≤ c.state.val .batteryCapacity

theorem charged_start {c c' : JConfig K isBase} {a : Action isBase} (h : Started op c c' a) (hc : Charged c)
    (hstatic : ∀ f : Fluent R, f.isStatic = true → c'.state.val f = c.state.val f) : Charged c' := by
  have hbattery := start_battery a ((op a).duration c.state.val) c.state
  rw [← h.state] at hbattery
  have hdraw := hc.speeds.startDraw_nonneg a
  have hrate := hc.speeds.recharge.ne'
  have hle := hc.le
  refine ⟨hc.speeds.congr hstatic, ?_, ?_⟩
  · rw [hbattery, hstatic .batteryCapacity rfl]
    linarith
  · intro r hr hcharging
    rw [hbattery, hstatic .batteryCapacity rfl, hstatic .rechargeRateBattery rfl]
    rcases h.mem r hr with ⟨hact, hdur⟩ | hr
    · -- the charge that has just started ends with a full battery
      rw [hact] at hcharging
      cases a with
      | rechargeBattery b =>
          have hfull : r.dur * c.state.val .rechargeRateBattery =
              c.state.val .batteryCapacity - c.state.val .batteryAmount := by
            rw [hdur]
            exact div_mul_cancel₀ _ hrate
          rw [hfull]
          linarith
      | _ => cases hcharging
    · have hdue := hc.due r hr hcharging
      linarith

theorem charged_finish {c c' : JConfig K isBase} {a : Action isBase} {d : K} (h : Finished op c c' a d)
    (hone : c.executing Action.isCharging ≤ 1) (hc : Charged c)
    (hstatic : ∀ f : Fluent R, f.isStatic = true → c'.state.val f = c.state.val f) : Charged c' := by
  have hbattery := end_battery a d c.state
  rw [← h.state] at hbattery
  have hle := hc.le
  cases ha : a.isCharging with
  | false =>
      have hgain := hc.speeds.endGain_le d ha
      refine ⟨hc.speeds.congr hstatic, ?_, ?_⟩
      · rw [hbattery, hstatic .batteryCapacity rfl]
        linarith
      · intro r hr hcharging
        have hdue := hc.due r (h.mem r hr) hcharging
        rw [hbattery, hstatic .batteryCapacity rfl, hstatic .rechargeRateBattery rfl]
        linarith
  | true =>
      have hex := h.executing Action.isCharging
      rw [ha, if_pos rfl] at hex
      obtain ⟨r₀, hr₀, hact, hdur⟩ := h.self
      have hdue := hc.due r₀ hr₀ (hact ▸ ha)
      have hgain : endGain c.state.val d a = d * c.state.val .rechargeRateBattery := by
        cases a with
        | rechargeBattery b => rfl
        | _ => cases ha
      rw [hdur] at hdue
      refine ⟨hc.speeds.congr hstatic, ?_, ?_⟩
      · rw [hbattery, hgain, hstatic .batteryCapacity rfl]
        exact hdue
      · intro r hr hcharging
        have hpos : 0 < c'.executing Action.isCharging := List.countP_pos_iff.mpr ⟨r, hr, hcharging⟩
        omega

theorem charged_step {c c' : JConfig K isBase} {e : Event (Action isBase) K} (h : step op c e = some c')
    (hself : SelfOverlapFree c) (hp : Placed c) (hc : Charged c) : Charged c' := by
  rcases step_cases h with ⟨a, t, rfl, hs⟩ | ⟨a, t, d, rfl, hf⟩
  · exact charged_start hs hc (fun f hf => step_static h hf)
  · exact charged_finish hf (charging_le_one hp hself) hc (fun f hf => step_static h hf)

/-- **The charge.**  From a state with one position, positive speed and rates, no negative distance and a battery
not above its capacity, along every run in which no action overlaps itself the battery is never above its
capacity, and a charge never has a negative duration. -/
theorem battery_le_capacity {s : JState R K} (hat : AtOne s) (hv : Speeds s.val)
    (hb : s.val .batteryAmount ≤ s.val .batteryCapacity) (t : K) (es : List (Event (Action isBase) K))
    (hself : Always (step op) SelfOverlapFree (idle s t) es) :
    Always (step op) (fun c => c.state.val .batteryAmount ≤ c.state.val .batteryCapacity ∧
      ∀ b : Base isBase, 0 ≤ (op (.rechargeBattery b)).duration c.state.val) (idle s t) es := by
  have hinit : Placed (idle s t : JConfig K isBase) ∧ Charged (idle s t : JConfig K isBase) :=
    ⟨placed_idle hat t, hv, hb, fun _ hr => (List.not_mem_nil hr).elim⟩
  have hkept := always_of_always (I := fun c : JConfig K isBase => Placed c ∧ Charged c)
    (fun _ _ _ hs hself hc => ⟨placed_step hs hc.1, charged_step hs hself hc.1 hc.2⟩) hinit hself
  refine hkept.mono (fun c hc => ⟨hc.2.le, fun b => ?_⟩)
  exact div_nonneg (sub_nonneg.mpr hc.2.le) hc.2.speeds.recharge.le

end

end

/-! ### Runs at a base -/

section demo

/-- A vehicle at a base, which it may also spray. -/
def dockedState : JState Unit ℚ where
  holds
    | .at_ _ | .canGo | .canTakePic | .canSpray | .carry => true
    | _ => false
  val
    | .batteryAmount => 50
    | .batteryCapacity => 100
    | .inputAmount => 1
    | .inputCapacity => 2
    | .velocity => 10
    | .rechargeRateBattery => 1
    | .dischargeRateBattery => 1 / 10
    | _ => 0

theorem isBase_unit (r : Unit) : (fun _ : Unit => true) r = true := rfl

def dock : Base (fun _ : Unit => true) := ⟨(), isBase_unit ()⟩

/-- `pulverize_region` runs from 0 to 31.4 and `clean_camera` starts at 1. -/
theorem cleaned_between_docked :
    ∃ b t, Event.start (.cleanCamera b) t ∈
      ([.start (.cleanCamera dock) 1] : List (Event (Action (fun _ : Unit => true)) ℚ)) :=
  cleaned_between (by decide +kernel : (run (step op) (idle dockedState 0)
    ([] ++ .start (.pulverizeRegion ()) 0 :: ([.start (.cleanCamera dock) 1] ++ .start (.takeImage ()) 2 :: []))).isSome =
      true)

/-- The last input is sprayed, and the input is filled. -/
theorem input_bounds_docked :
    Always (step op) (fun c => 0 ≤ c.state.val .inputAmount ∧ c.state.val .inputAmount ≤ c.state.val .inputCapacity)
      (idle dockedState 0)
      ([.start (.pulverizeRegion ()) 0, .finish (.pulverizeRegion ()) (157 / 5), .start (.rechargeInput dock) 32,
        .finish (.rechargeInput dock) 40] : List (Event (Action (fun _ : Unit => true)) ℚ)) :=
  input_bounds (by decide) ⟨1, 2, by decide +kernel, by decide +kernel, by decide⟩ 0 _ (by decide +kernel)

theorem speeds_dockedState : Speeds dockedState.val where
  velocity := by decide +kernel
  recharge := by decide +kernel
  discharge := by decide +kernel
  distance _ _ := le_rfl

/-- `pulverize_region` starts and ends during a charge. -/
theorem battery_le_capacity_docked :
    Always (step op) (fun c => c.state.val .batteryAmount ≤ c.state.val .batteryCapacity ∧
      ∀ b : Base (fun _ : Unit => true), 0 ≤ (op (.rechargeBattery b)).duration c.state.val) (idle dockedState 0)
      ([.start (.rechargeBattery dock) 0, .start (.pulverizeRegion ()) 1, .finish (.pulverizeRegion ()) (162 / 5),
        .finish (.rechargeBattery dock) 50] : List (Event (Action (fun _ : Unit => true)) ℚ)) :=
  battery_le_capacity (by decide) speeds_dockedState (by decide +kernel) 0 _ (by decide +kernel)

end demo

end DroneArch.Journal
