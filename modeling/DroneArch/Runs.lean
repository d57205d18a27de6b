import Mathlib.Logic.Basic
import Mathlib.Data.List.Basic

/-! # Runs of a partial step function

A system is given by a step function `step : S → E → Option S`: in state `s` the event `e`
either is not enabled (`none`) or leads to one next state.  `run step s es` executes a list
of events from `s`; a list is an execution when the result is not `none`.

* `Always step P s es` says that every state visited by the executed prefix of `es`,
  the first and the last included, satisfies `P` (`always_iff_pre`).
* `Each step Q s es` says that every event executed meets `Q` in the state it is executed
  in (`each_iff_pre`).

The rules derive `Always` from one-step facts (`always_of_step`), from a condition met by
each step (`always_of_each`), and conversely read the condition off a run on which the
property holds (`each_of_always`). -/

namespace Runs

variable {S E : Type*} (step : S → E → Option S)

/-- Execute a list of events. -/
def run : S → List E → Option S
  | s, [] => some s
  | s, e :: es => (step s e).bind (fun s' => run s' es)

/-- Every state visited satisfies `P`. -/
def Always (P : S → Prop) : S → List E → Prop
  | s, [] => P s
  | s, e :: es => P s ∧ ∀ s', step s e = some s' → Always P s' es

/-- Every executed event satisfies `Q` in the state before it. -/
def Each (Q : S → E → Prop) : S → List E → Prop
  | _, [] => True
  | s, e :: es => ∀ s', step s e = some s' → Q s e ∧ Each Q s' es

variable {step}

@[simp] theorem run_nil (s : S) : run step s [] = some s := rfl

theorem run_cons (s : S) (e : E) (es : List E) :
    run step s (e :: es) = (step s e).bind (fun s' => run step s' es) := rfl

theorem run_cons_some {s s' : S} {e : E} (h : step s e = some s') (es : List E) :
    run step s (e :: es) = run step s' es := by
  rw [run_cons, h]; rfl

theorem run_cons_eq_some {s t : S} {e : E} {es : List E} (h : run step s (e :: es) = some t) :
    ∃ s', step s e = some s' ∧ run step s' es = some t := by
  rw [run_cons] at h
  exact Option.bind_eq_some_iff.mp h

theorem run_append (s : S) (es es' : List E) :
    run step s (es ++ es') = (run step s es).bind (fun t => run step t es') := by
  induction es generalizing s with
  | nil => rfl
  | cons e es ih =>
      rw [List.cons_append, run_cons, run_cons, Option.bind_assoc]
      congr 1
      funext s'
      exact ih s'

theorem run_append_some {s t : S} {es : List E} (h : run step s es = some t) (es' : List E) :
    run step s (es ++ es') = run step t es' := by
  rw [run_append, h]; rfl

/-- A map that carries each step to a step carries a run to a run. -/
theorem run_map {S' : Type*} {step' : S' → E → Option S'} {f : S' → S}
    (hf : ∀ s e, (step' s e).map f = step (f s) e) (s : S') (es : List E) :
    (run step' s es).map f = run step (f s) es := by
  induction es generalizing s with
  | nil => rfl
  | cons e es ih =>
      rw [run_cons, run_cons, ← hf]
      cases step' s e with
      | none => rfl
      | some s' => exact ih s'

/-! ### Reading the two predicates on prefixes -/

theorem Always.head {P : S → Prop} {s : S} {es : List E} (h : Always step P s es) : P s := by
  cases es with
  | nil => exact h
  | cons e es => exact h.1

theorem always_iff_pre {P : S → Prop} {s : S} {es : List E} :
    Always step P s es ↔ ∀ pre t, pre <+: es → run step s pre = some t → P t := by
  induction es generalizing s with
  | nil =>
      constructor
      · intro h pre t hpre hrun
        rw [List.prefix_nil.mp hpre] at hrun
        cases hrun
        exact h
      · intro h
        exact h [] s List.prefix_rfl rfl
  | cons e es ih =>
      constructor
      · intro h pre t hpre hrun
        cases pre with
        | nil => cases hrun; exact h.1
        | cons e' pre =>
            obtain ⟨rfl, hpre'⟩ := List.cons_prefix_cons.mp hpre
            obtain ⟨s', hs, hr⟩ := run_cons_eq_some hrun
            exact ih.mp (h.2 s' hs) pre t hpre' hr
      · intro h
        refine ⟨h [] s (List.nil_prefix) rfl, fun s' hs => ih.mpr ?_⟩
        intro pre t hpre hrun
        exact h (e :: pre) t (List.cons_prefix_cons.mpr ⟨rfl, hpre⟩) ((run_cons_some hs pre).trans hrun)

theorem each_iff_pre {Q : S → E → Prop} {s : S} {es : List E} :
    Each step Q s es ↔ ∀ pre e t t', pre ++ [e] <+: es → run step s pre = some t →
      step t e = some t' → Q t e := by
  induction es generalizing s with
  | nil =>
      refine ⟨fun _ pre e t t' hpre _ _ => ?_, fun _ => trivial⟩
      have := List.prefix_nil.mp hpre
      simp at this
  | cons e₀ es ih =>
      constructor
      · intro h pre e t t' hpre hrun hstep
        cases pre with
        | nil =>
            obtain ⟨rfl, _⟩ := List.cons_prefix_cons.mp hpre
            cases hrun
            exact (h t' hstep).1
        | cons e₁ pre =>
            obtain ⟨rfl, hpre'⟩ := List.cons_prefix_cons.mp hpre
            obtain ⟨s', hs, hr⟩ := run_cons_eq_some hrun
            exact ih.mp (h s' hs).2 pre e t t' hpre' hr hstep
      · intro h s' hs
        refine ⟨h [] e₀ s s' (List.cons_prefix_cons.mpr ⟨rfl, List.nil_prefix⟩) rfl hs, ih.mpr ?_⟩
        intro pre e t t' hpre hrun hstep
        exact h (e₀ :: pre) e t t' (List.cons_prefix_cons.mpr ⟨rfl, hpre⟩)
          ((run_cons_some hs pre).trans hrun) hstep

/-- The last state of an execution is one of the visited ones. -/
theorem Always.last {P : S → Prop} {s t : S} {es : List E} (h : Always step P s es)
    (hrun : run step s es = some t) : P t :=
  always_iff_pre.mp h es t List.prefix_rfl hrun

theorem Always.mono {P P' : S → Prop} (hP : ∀ s, P s → P' s) {s : S} {es : List E}
    (h : Always step P s es) : Always step P' s es := by
  rw [always_iff_pre] at h ⊢
  exact fun pre t hpre hrun => hP t (h pre t hpre hrun)

theorem Always.and {P P' : S → Prop} {s : S} {es : List E} (h : Always step P s es)
    (h' : Always step P' s es) : Always step (fun t => P t ∧ P' t) s es := by
  rw [always_iff_pre] at h h' ⊢
  exact fun pre t hpre hrun => ⟨h pre t hpre hrun, h' pre t hpre hrun⟩

theorem Each.and {Q Q' : S → E → Prop} {s : S} {es : List E} (h : Each step Q s es) (h' : Each step Q' s es) :
    Each step (fun t e => Q t e ∧ Q' t e) s es := by
  rw [each_iff_pre] at h h' ⊢
  exact fun pre e t t' hpre hrun hs => ⟨h pre e t t' hpre hrun hs, h' pre e t t' hpre hrun hs⟩

/-- On a concrete run the two predicates are decided by running it. -/
instance decidableAlways (P : S → Prop) [DecidablePred P] :
    (s : S) → (es : List E) → Decidable (Always step P s es)
  | s, [] => inferInstanceAs (Decidable (P s))
  | s, e :: es =>
      match h : step s e with
      | none => decidable_of_iff (P s) ⟨fun hs => ⟨hs, fun s' hs' => by rw [h] at hs'; cases hs'⟩, fun hs => hs.1⟩
      | some s₁ =>
          have := decidableAlways P s₁ es
          decidable_of_iff (P s ∧ Always step P s₁ es)
            ⟨fun hs => ⟨hs.1, fun s' hs' => by rw [h] at hs'; cases hs'; exact hs.2⟩,
              fun hs => ⟨hs.1, hs.2 s₁ h⟩⟩

instance decidableEach (Q : S → E → Prop) [∀ s e, Decidable (Q s e)] :
    (s : S) → (es : List E) → Decidable (Each step Q s es)
  | _, [] => inferInstanceAs (Decidable True)
  | s, e :: es =>
      match h : step s e with
      | none => isTrue (fun s' hs' => by rw [h] at hs'; cases hs')
      | some s₁ =>
          have := decidableEach Q s₁ es
          decidable_of_iff (Q s e ∧ Each step Q s₁ es)
            ⟨fun hs s' hs' => by rw [h] at hs'; cases hs'; exact hs, fun hs => hs s₁ h⟩

/-! ### Rules -/

/-- What every step preserves holds along every run. -/
theorem always_of_step {P : S → Prop} (hstep : ∀ s e s', step s e = some s' → P s → P s')
    {s : S} (h : P s) (es : List E) : Always step P s es := by
  induction es generalizing s with
  | nil => exact h
  | cons e es ih => exact ⟨h, fun s' hs => ih (hstep s e s' hs h)⟩

/-- What every step preserves holds at the end of every execution. -/
theorem run_invariant {P : S → Prop} (hstep : ∀ s e s', step s e = some s' → P s → P s')
    {s t : S} {es : List E} (h : P s) (hrun : run step s es = some t) : P t :=
  (always_of_step hstep h es).last hrun

/-- A condition on the events alone. -/
theorem each_of_forall {Q : E → Prop} {es : List E} (h : ∀ e ∈ es, Q e) (s : S) :
    Each step (fun _ e => Q e) s es := by
  induction es generalizing s with
  | nil => trivial
  | cons e es ih =>
      intro s' _
      exact ⟨h e List.mem_cons_self, ih (fun e' he' => h e' (List.mem_cons_of_mem e he')) s'⟩

/-- A condition that every event meets in every state. -/
theorem each_of_all {Q : S → E → Prop} (h : ∀ s e, Q s e) (s : S) (es : List E) : Each step Q s es := by
  induction es generalizing s with
  | nil => trivial
  | cons e es ih => exact fun s' _ => ⟨h s e, ih s'⟩

/-- What every step meeting `Q` preserves holds along every run whose steps meet `Q`. -/
theorem always_of_each {P : S → Prop} {Q : S → E → Prop}
    (hstep : ∀ s e s', step s e = some s' → P s → Q s e → P s')
    {s : S} (h : P s) {es : List E} (hQ : Each step Q s es) : Always step P s es := by
  induction es generalizing s with
  | nil => exact h
  | cons e es ih =>
      exact ⟨h, fun s' hs => ih (hstep s e s' hs h (hQ s' hs).1) (hQ s' hs).2⟩

/-- What every step preserves from a state satisfying `P` holds along every run on which `P` does. -/
theorem always_of_always {P I : S → Prop} (hstep : ∀ s e s', step s e = some s' → P s → I s → I s')
    {s : S} (h : I s) {es : List E} (hP : Always step P s es) : Always step I s es := by
  induction es generalizing s with
  | nil => exact h
  | cons e es ih => exact ⟨h, fun s' hs => ih (hstep s e s' hs hP.1 h) (hP.2 s' hs)⟩

/-- A condition forced by `P` on both sides of a step is met by every step of a run
on which `P` holds. -/
theorem each_of_always {P : S → Prop} {Q : S → E → Prop}
    (hstep : ∀ s e s', step s e = some s' → P s → P s' → Q s e)
    {s : S} {es : List E} (h : Always step P s es) : Each step Q s es := by
  induction es generalizing s with
  | nil => trivial
  | cons e es ih =>
      intro s' hs
      exact ⟨hstep s e s' hs h.1 (h.2 s' hs).head, ih (h.2 s' hs)⟩

/-- **Exact step conditions.**  If, under an invariant `I`, a step from a state satisfying
`P` stays in `P` exactly when it meets `Q`, then `P` holds along a run exactly when each of
its steps meets `Q`. -/
theorem always_iff_each {I P : S → Prop} {Q : S → E → Prop}
    (hI : ∀ s e s', step s e = some s' → I s → I s')
    (hstep : ∀ s e s', step s e = some s' → I s → P s → (P s' ↔ Q s e))
    {s : S} (hIs : I s) (h : P s) (es : List E) : Always step P s es ↔ Each step Q s es := by
  constructor
  · intro hP
    have hIP := (always_of_step hI hIs es).and hP
    exact each_of_always (fun s e s' hs h h' => (hstep s e s' hs h.1 h.2).mp h'.2) hIP
  · intro hQ
    have : Always step (fun t => I t ∧ P t) s es :=
      always_of_each (fun s e s' hs h hq => ⟨hI s e s' hs h.1, (hstep s e s' hs h.1 h.2).mpr hq⟩)
        ⟨hIs, h⟩ hQ
    exact this.mono (fun _ h => h.2)

end Runs
