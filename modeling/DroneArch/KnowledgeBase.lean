import Mathlib.Data.List.Basic
import DroneArch.Durative

/-! # The knowledge base and the action interface

ROSPlan's knowledge base (`KnowledgeBase.cpp`) holds the facts, the functions and the goals of
the planning problem as lists of items.  The action interface (`RPActionInterface.cpp`) keeps
it up to date while the actions of a plan are executed: `dispatchStart` and `dispatchEnd` are
the two updates of its `dispatchCallback`, before and after the concrete callback.  Both send
predicate effects only.

Two items match when their names and values do (`containsKnowledge`), which is equality of
ground items here; negated items and the instances are left out, as no modelled code writes
the first or reads the second.

* `agrees_run`: while actions are started and finished, in any interleaving, the facts of the
  knowledge base are the atoms of the planning state.
* `replay_modelFunctions` and `executeAll_modelFunctions`: the functions never change. -/

namespace DroneArch.Rosplan

open Durative

/-- The state of the knowledge base. -/
structure KnowledgeBase (A F G K : Type) where
  modelFacts : List A
  modelFunctions : List (F × K)
  modelGoals : List G
deriving DecidableEq

/-- The empty knowledge base, as after `clearKnowledge`. -/
def KnowledgeBase.empty (A F G K : Type) : KnowledgeBase A F G K := ⟨[], [], []⟩

namespace KnowledgeBase

section
variable {A F G K : Type} [DecidableEq A] [DecidableEq F] [DecidableEq G]

/-! ### Updates -/

/-- `addKnowledge` of a fact: one that exists already is not added. -/
def addFact (kb : KnowledgeBase A F G K) (a : A) : KnowledgeBase A F G K :=
  if a ∈ kb.modelFacts then kb else { kb with modelFacts := kb.modelFacts ++ [a] }

/-- Give `f` the value `v`: the first entry for `f` is updated, or a new one is added. -/
def setValue (f : F) (v : K) : List (F × K) → List (F × K)
  | [] => [(f, v)]
  | (g, w) :: fs => if g = f then (g, v) :: fs else (g, w) :: setValue f v fs

/-- `addKnowledge` of a function. -/
def addFunction (kb : KnowledgeBase A F G K) (f : F) (v : K) : KnowledgeBase A F G K :=
  { kb with modelFunctions := setValue f v kb.modelFunctions }

/-- `removeKnowledge` of a fact. -/
def removeFact (kb : KnowledgeBase A F G K) (a : A) : KnowledgeBase A F G K :=
  { kb with modelFacts := kb.modelFacts.filter (fun b => decide (b ≠ a)) }

/-- `addMissionGoal`: a goal that is posted already is not added. -/
def addMissionGoal (kb : KnowledgeBase A F G K) (g : G) : KnowledgeBase A F G K :=
  if g ∈ kb.modelGoals then kb else { kb with modelGoals := kb.modelGoals ++ [g] }

/-- `removeMissionGoal`. -/
def removeMissionGoal (kb : KnowledgeBase A F G K) (g : G) : KnowledgeBase A F G K :=
  { kb with modelGoals := kb.modelGoals.filter (fun h => decide (h ≠ g)) }

/-- The value of a function, `none` when there is no entry for it. -/
def getFunction (kb : KnowledgeBase A F G K) (f : F) : Option K :=
  (kb.modelFunctions.find? (fun e => decide (e.1 = f))).map Prod.snd

/-- The planning state the knowledge base describes; a function without an entry is zero. -/
def state [Zero K] (kb : KnowledgeBase A F G K) : State A F K where
  holds a := decide (a ∈ kb.modelFacts)
  val f := (kb.getFunction f).getD 0

/-! ### What one update changes -/

omit [DecidableEq F] [DecidableEq G] in
@[simp] theorem mem_addFact (kb : KnowledgeBase A F G K) (a b : A) :
    b ∈ (kb.addFact a).modelFacts ↔ b = a ∨ b ∈ kb.modelFacts := by
  unfold addFact
  split
  · rename_i ha
    constructor
    · exact Or.inr
    · rintro (rfl | hb)
      · exact ha
      · exact hb
  · rw [List.mem_append, List.mem_singleton, or_comm]

omit [DecidableEq F] [DecidableEq G] in
@[simp] theorem mem_removeFact (kb : KnowledgeBase A F G K) (a b : A) :
    b ∈ (kb.removeFact a).modelFacts ↔ b ∈ kb.modelFacts ∧ b ≠ a := by
  simp [removeFact]

omit [DecidableEq F] [DecidableEq G] in
@[simp] theorem addFact_modelFunctions (kb : KnowledgeBase A F G K) (a : A) :
    (kb.addFact a).modelFunctions = kb.modelFunctions := by
  unfold addFact
  split <;> rfl

omit [DecidableEq F] [DecidableEq G] in
@[simp] theorem removeFact_modelFunctions (kb : KnowledgeBase A F G K) (a : A) :
    (kb.removeFact a).modelFunctions = kb.modelFunctions := rfl

omit [DecidableEq A] [DecidableEq G] in
@[simp] theorem addFunction_modelFacts (kb : KnowledgeBase A F G K) (f : F) (v : K) :
    (kb.addFunction f v).modelFacts = kb.modelFacts := rfl

omit [DecidableEq A] [DecidableEq F] in
@[simp] theorem addMissionGoal_modelFacts (kb : KnowledgeBase A F G K) (g : G) :
    (kb.addMissionGoal g).modelFacts = kb.modelFacts := by
  unfold addMissionGoal
  split <;> rfl

omit [DecidableEq A] [DecidableEq F] in
@[simp] theorem addMissionGoal_modelFunctions (kb : KnowledgeBase A F G K) (g : G) :
    (kb.addMissionGoal g).modelFunctions = kb.modelFunctions := by
  unfold addMissionGoal
  split <;> rfl

omit [DecidableEq A] [DecidableEq F] in
@[simp] theorem removeMissionGoal_modelFacts (kb : KnowledgeBase A F G K) (g : G) :
    (kb.removeMissionGoal g).modelFacts = kb.modelFacts := rfl

omit [DecidableEq A] [DecidableEq F] in
@[simp] theorem removeMissionGoal_modelFunctions (kb : KnowledgeBase A F G K) (g : G) :
    (kb.removeMissionGoal g).modelFunctions = kb.modelFunctions := rfl

omit [DecidableEq A] [DecidableEq G] in
theorem getFunction_congr {kb kb' : KnowledgeBase A F G K} (h : kb'.modelFunctions = kb.modelFunctions)
    (f : F) : kb'.getFunction f = kb.getFunction f := by
  unfold getFunction
  rw [h]

omit [DecidableEq A] [DecidableEq G] in
theorem getFunction_addFunction_self (kb : KnowledgeBase A F G K) (f : F) (v : K) :
    (kb.addFunction f v).getFunction f = some v := by
  unfold getFunction addFunction
  simp only
  induction kb.modelFunctions with
  | nil => simp [setValue]
  | cons e es ih =>
      by_cases he : e.1 = f
      · simp [setValue, he]
      · rw [setValue, if_neg he, List.find?_cons_of_neg (by simpa using he)]
        exact ih

omit [DecidableEq A] [DecidableEq G] in
theorem getFunction_addFunction_of_ne (kb : KnowledgeBase A F G K) {f g : F} (v : K) (h : g ≠ f) :
    (kb.addFunction f v).getFunction g = kb.getFunction g := by
  unfold getFunction addFunction
  simp only
  induction kb.modelFunctions with
  | nil => simp [setValue, h.symm]
  | cons e es ih =>
      by_cases he : e.1 = f
      · have hg : ¬ e.1 = g := fun hg => h (hg.symm.trans he)
        rw [setValue, if_pos he, List.find?_cons_of_neg (by simpa using hg),
          List.find?_cons_of_neg (by simpa using hg)]
      · rw [setValue, if_neg he]
        by_cases hg : e.1 = g
        · rw [List.find?_cons_of_pos (by simpa using hg), List.find?_cons_of_pos (by simpa using hg)]
        · rw [List.find?_cons_of_neg (by simpa using hg), List.find?_cons_of_neg (by simpa using hg)]
          exact ih

/-! ### Loops of updates -/

omit [DecidableEq A] [DecidableEq F] [DecidableEq G] in
/-- A loop adds the facts that its rounds add. -/
theorem mem_foldl {ι : Type} {round : KnowledgeBase A F G K → ι → KnowledgeBase A F G K} (new : ι → A → Prop)
    (h : ∀ kb i a, a ∈ (round kb i).modelFacts ↔ new i a ∨ a ∈ kb.modelFacts) (is : List ι)
    (kb : KnowledgeBase A F G K) (a : A) :
    a ∈ (is.foldl round kb).modelFacts ↔ (∃ i ∈ is, new i a) ∨ a ∈ kb.modelFacts := by
  induction is generalizing kb with
  | nil => simp
  | cons i is ih =>
      rw [List.foldl_cons, ih, h, List.exists_mem_cons_iff, ← or_assoc, or_comm (a := new i a)]

omit [DecidableEq A] [DecidableEq G] in
/-- A loop keeps the functions that its rounds keep. -/
theorem getFunction_foldl {ι : Type} {round : KnowledgeBase A F G K → ι → KnowledgeBase A F G K} {f : F}
    (h : ∀ kb i, (round kb i).getFunction f = kb.getFunction f) (is : List ι) (kb : KnowledgeBase A F G K) :
    (is.foldl round kb).getFunction f = kb.getFunction f := by
  induction is generalizing kb with
  | nil => rfl
  | cons i is ih => rw [List.foldl_cons, ih, h]

omit [DecidableEq A] [DecidableEq G] in
/-- A loop that sets functions leaves the last value of each. -/
theorem getFunction_foldl_addFunction {ι : Type} (key : ι → F) (value : ι → K) (is : List ι)
    (kb : KnowledgeBase A F G K) (f : F) :
    (is.foldl (fun kb i => kb.addFunction (key i) (value i)) kb).getFunction f =
      ((is.reverse.find? (fun i => decide (key i = f))).map value).or (kb.getFunction f) := by
  induction is generalizing kb with
  | nil => rfl
  | cons i is ih =>
      rw [List.foldl_cons, ih, List.reverse_cons, List.find?_append]
      by_cases hi : key i = f
      · subst hi
        rw [getFunction_addFunction_self, List.find?_cons_of_pos (by simp)]
        cases is.reverse.find? (fun j => decide (key j = key i)) <;> rfl
      · rw [getFunction_addFunction_of_ne _ _ (fun h => hi h.symm), List.find?_cons_of_neg (by simpa using hi),
          List.find?_nil, Option.or_none]

/-! ### Goals -/

omit [DecidableEq F] [DecidableEq G] in
@[simp] theorem addFact_modelGoals (kb : KnowledgeBase A F G K) (a : A) :
    (kb.addFact a).modelGoals = kb.modelGoals := by
  unfold addFact
  split <;> rfl

omit [DecidableEq A] [DecidableEq G] in
@[simp] theorem addFunction_modelGoals (kb : KnowledgeBase A F G K) (f : F) (v : K) :
    (kb.addFunction f v).modelGoals = kb.modelGoals := rfl

omit [DecidableEq F] [DecidableEq G] in
@[simp] theorem removeFact_modelGoals (kb : KnowledgeBase A F G K) (a : A) :
    (kb.removeFact a).modelGoals = kb.modelGoals := rfl

/-- Post a goal in a list of goals, unless it is there. -/
def post (goals : List G) (g : G) : List G := if g ∈ goals then goals else goals ++ [g]

omit [DecidableEq A] [DecidableEq F] in
theorem addMissionGoal_modelGoals (kb : KnowledgeBase A F G K) (g : G) :
    (kb.addMissionGoal g).modelGoals = post kb.modelGoals g := by
  unfold addMissionGoal post
  split <;> rfl

theorem post_nodup {goals : List G} (h : goals.Nodup) (g : G) : (post goals g).Nodup := by
  unfold post
  split
  · exact h
  · rename_i hg
    refine List.nodup_append.mpr ⟨h, by simp, fun x hx y hy hxy => hg ?_⟩
    rw [← List.mem_singleton.mp hy, ← hxy]
    exact hx

omit [DecidableEq F] [DecidableEq G] in
theorem addFact_modelFacts (kb : KnowledgeBase A F G K) (a : A) :
    (kb.addFact a).modelFacts = post kb.modelFacts a := by
  unfold addFact post
  split <;> rfl

theorem foldl_post_nodup {goals : List G} (h : goals.Nodup) (gs : List G) : (gs.foldl post goals).Nodup := by
  induction gs generalizing goals with
  | nil => exact h
  | cons g gs ih => exact ih (post_nodup h g)

/-- Goals that are not counted do not matter. -/
theorem countP_foldl_post_of_not {p : G → Bool} {gs : List G} (h : ∀ g ∈ gs, p g = false) (goals : List G) :
    (gs.foldl post goals).countP p = goals.countP p := by
  induction gs generalizing goals with
  | nil => rfl
  | cons g gs ih =>
      rw [List.forall_mem_cons] at h
      rw [List.foldl_cons, ih h.2, post]
      split
      · rfl
      · rw [List.countP_append, List.countP_singleton, h.1]
        simp

/-- Each goal posted counts for one at most. -/
theorem countP_foldl_post_le (p : G → Bool) (gs goals : List G) :
    (gs.foldl post goals).countP p ≤ goals.countP p + gs.length := by
  induction gs generalizing goals with
  | nil => exact Nat.le_refl _
  | cons g gs ih =>
      have hrest := ih (post goals g)
      have hone : (post goals g).countP p ≤ goals.countP p + 1 := by
        unfold post
        split
        · omega
        · rw [List.countP_append]
          have := List.countP_le_length (p := p) (l := [g])
          simp only [List.length_singleton] at this
          omega
      rw [List.foldl_cons, List.length_cons]
      omega

/-- Each counts for one exactly when none is posted already or twice. -/
theorem countP_foldl_post_eq_iff {p : G → Bool} {gs : List G} (h : ∀ g ∈ gs, p g = true) (goals : List G) :
    (gs.foldl post goals).countP p = goals.countP p + gs.length ↔ gs.Nodup ∧ ∀ g ∈ gs, g ∉ goals := by
  induction gs generalizing goals with
  | nil => simp
  | cons g gs ih =>
      rw [List.forall_mem_cons] at h
      rw [List.foldl_cons, List.length_cons, List.nodup_cons, List.forall_mem_cons]
      by_cases hg : g ∈ goals
      · have hle := countP_foldl_post_le p gs goals
        rw [post, if_pos hg]
        refine iff_of_false (by omega) ?_
        rintro ⟨_, hnot, _⟩
        exact hnot hg
      · have hcount : (goals ++ [g]).countP p = goals.countP p + 1 := by
          rw [List.countP_append, List.countP_singleton, if_pos h.1]
        have hih := ih h.2 (goals ++ [g])
        rw [hcount] at hih
        rw [post, if_neg hg]
        constructor
        · intro heq
          obtain ⟨hnodup, hnew⟩ := hih.mp (by omega)
          refine ⟨⟨fun hmem => ?_, hnodup⟩, hg, fun g' hg' hold => ?_⟩
          · exact hnew g hmem (List.mem_append_right _ (List.mem_singleton_self g))
          · exact hnew g' hg' (List.mem_append_left _ hold)
        · rintro ⟨⟨hmem, hnodup⟩, -, hnew⟩
          have := hih.mpr ⟨hnodup, fun g' hg' hin => ?_⟩
          · omega
          · cases List.mem_append.mp hin with
            | inl hold => exact hnew g' hg' hold
            | inr hsame => exact hmem (List.mem_singleton.mp hsame ▸ hg')

end

end KnowledgeBase

/-! ### The action interface -/

section
variable {α A F G K : Type} [DecidableEq A] [DecidableEq F] [DecidableEq G]

/-- Send predicate effects to the knowledge base: the deletions, then the additions.  Numeric
effects are not sent. -/
def updatePredicates (E : Effect A F K) (kb : KnowledgeBase A F G K) : KnowledgeBase A F G K :=
  E.add.foldl KnowledgeBase.addFact (E.del.foldl KnowledgeBase.removeFact kb)

/-- The update of `dispatchCallback` before the concrete callback. -/
def dispatchStart (op : α → Operator A F K) (a : α) (kb : KnowledgeBase A F G K) : KnowledgeBase A F G K :=
  updatePredicates (op a).startEffect kb

/-- The update of `dispatchCallback` after the concrete callback: none for an action that was
cancelled meanwhile or failed. -/
def dispatchEnd (op : α → Operator A F K) (a : α) (actionCancelled actionSuccess : Bool)
    (kb : KnowledgeBase A F G K) : KnowledgeBase A F G K :=
  if actionCancelled then kb
  else if actionSuccess then updatePredicates (op a).endEffect kb
  else kb

/-- What the action interface does to the knowledge base when an action starts, and when it
finishes with success. -/
def observe (op : α → Operator A F K) (kb : KnowledgeBase A F G K) : Event α K → KnowledgeBase A F G K
  | .start a _ => dispatchStart op a kb
  | .finish a _ => dispatchEnd op a false true kb

/-- The knowledge base after the events of an execution. -/
def replay (op : α → Operator A F K) (kb : KnowledgeBase A F G K) (es : List (Event α K)) :
    KnowledgeBase A F G K := es.foldl (observe op) kb

/-- The knowledge base after actions executed to completion one after the other: for each, the
two updates of `dispatchCallback` around a concrete callback that succeeds. -/
def executeAll (op : α → Operator A F K) (kb : KnowledgeBase A F G K) (as : List α) : KnowledgeBase A F G K :=
  as.foldl (fun kb a => dispatchEnd op a false true (dispatchStart op a kb)) kb

omit [DecidableEq F] [DecidableEq G] in
theorem mem_foldl_addFact (as : List A) (kb : KnowledgeBase A F G K) (b : A) :
    b ∈ (as.foldl KnowledgeBase.addFact kb).modelFacts ↔ b ∈ as ∨ b ∈ kb.modelFacts := by
  induction as generalizing kb with
  | nil => simp
  | cons a as ih =>
      rw [List.foldl_cons, ih, KnowledgeBase.mem_addFact, List.mem_cons, ← or_assoc, or_comm (a := b ∈ as)]

omit [DecidableEq F] [DecidableEq G] in
theorem mem_foldl_removeFact (as : List A) (kb : KnowledgeBase A F G K) (b : A) :
    b ∈ (as.foldl KnowledgeBase.removeFact kb).modelFacts ↔ b ∈ kb.modelFacts ∧ b ∉ as := by
  induction as generalizing kb with
  | nil => simp
  | cons a as ih =>
      rw [List.foldl_cons, ih, KnowledgeBase.mem_removeFact, List.mem_cons, not_or, and_assoc]

omit [DecidableEq F] [DecidableEq G] in
theorem mem_updatePredicates (E : Effect A F K) (kb : KnowledgeBase A F G K) (b : A) :
    b ∈ (updatePredicates E kb).modelFacts ↔ b ∈ E.add ∨ (b ∈ kb.modelFacts ∧ b ∉ E.del) := by
  unfold updatePredicates
  rw [mem_foldl_addFact, mem_foldl_removeFact]

omit [DecidableEq F] [DecidableEq G] in
@[simp] theorem updatePredicates_modelFunctions (E : Effect A F K) (kb : KnowledgeBase A F G K) :
    (updatePredicates E kb).modelFunctions = kb.modelFunctions := by
  have hadd : ∀ (as : List A) (kb : KnowledgeBase A F G K),
      (as.foldl KnowledgeBase.addFact kb).modelFunctions = kb.modelFunctions := by
    intro as
    induction as with
    | nil => intro kb; rfl
    | cons a as ih => intro kb; rw [List.foldl_cons, ih, KnowledgeBase.addFact_modelFunctions]
  have hdel : ∀ (as : List A) (kb : KnowledgeBase A F G K),
      (as.foldl KnowledgeBase.removeFact kb).modelFunctions = kb.modelFunctions := by
    intro as
    induction as with
    | nil => intro kb; rfl
    | cons a as ih => intro kb; rw [List.foldl_cons, ih, KnowledgeBase.removeFact_modelFunctions]
  unfold updatePredicates
  rw [hadd, hdel]

omit [DecidableEq F] [DecidableEq G] in
@[simp] theorem updatePredicates_modelGoals (E : Effect A F K) (kb : KnowledgeBase A F G K) :
    (updatePredicates E kb).modelGoals = kb.modelGoals := by
  have hloop : ∀ (round : KnowledgeBase A F G K → A → KnowledgeBase A F G K) (as : List A)
      (kb : KnowledgeBase A F G K), (∀ kb a, (round kb a).modelGoals = kb.modelGoals) →
      (as.foldl round kb).modelGoals = kb.modelGoals := by
    intro round as kb h
    induction as generalizing kb with
    | nil => rfl
    | cons a as ih => rw [List.foldl_cons, ih, h]
  unfold updatePredicates
  rw [hloop _ _ _ (by simp), hloop _ _ _ (by simp)]

omit [DecidableEq F] [DecidableEq G] in
/-- A knowledge base without repeated facts gets none. -/
theorem updatePredicates_nodup (E : Effect A F K) {kb : KnowledgeBase A F G K} (h : kb.modelFacts.Nodup) :
    (updatePredicates E kb).modelFacts.Nodup := by
  unfold updatePredicates
  refine List.foldlRecOn (motive := fun kb : KnowledgeBase A F G K => kb.modelFacts.Nodup) _ _ ?_ ?_
  · exact List.foldlRecOn (motive := fun kb : KnowledgeBase A F G K => kb.modelFacts.Nodup) _ _ h
      (fun kb hkb a _ => hkb.filter _)
  · intro kb hkb a _
    rw [KnowledgeBase.addFact_modelFacts]
    exact KnowledgeBase.post_nodup hkb a

/-! ### The knowledge base follows the planning state -/

/-- The facts of the knowledge base are the atoms that hold. -/
def Agrees (kb : KnowledgeBase A F G K) (s : State A F K) : Prop :=
  ∀ a, a ∈ kb.modelFacts ↔ s.holds a = true

omit [DecidableEq G] in
/-- Sending the predicate effects does to the facts what the effects do to the atoms. -/
theorem agrees_updatePredicates {kb : KnowledgeBase A F G K} {s : State A F K}
    (h : Agrees kb s) (E : Effect A F K) (d : K) : Agrees (updatePredicates E kb) (E.apply d s) := by
  intro a
  rw [mem_updatePredicates, Effect.apply_holds, h a]

section
variable [DecidableEq α] [Zero K] [Add K] [LinearOrder K]
variable {op : α → Operator A F K}

omit [DecidableEq G] in
theorem agrees_step {kb : KnowledgeBase A F G K} {c c' : Config α A F K} {e : Event α K}
    (hstep : step op c e = some c') (h : Agrees kb c.state) : Agrees (observe op kb e) c'.state := by
  rcases step_cases hstep with ⟨a, t, rfl, hs⟩ | ⟨a, t, d, rfl, hf⟩
  · rw [hs.state]
    exact agrees_updatePredicates h _ _
  · rw [hf.state]
    exact agrees_updatePredicates h _ _

omit [DecidableEq G] in
/-- **The facts.**  Over every interleaving of starts and ends, the knowledge base holds
exactly the facts of the planning state. -/
theorem agrees_run {kb : KnowledgeBase A F G K} {c c' : Config α A F K} {es : List (Event α K)}
    (hrun : Runs.run (step op) c es = some c') (h : Agrees kb c.state) : Agrees (replay op kb es) c'.state := by
  induction es generalizing kb c with
  | nil =>
      cases hrun
      exact h
  | cons e es ih =>
      obtain ⟨c₁, hstep, hrun'⟩ := Runs.run_cons_eq_some hrun
      exact ih hrun' (agrees_step hstep h)

omit [DecidableEq G] [DecidableEq α] [Add K] in
theorem agrees_executeAll {kb : KnowledgeBase A F G K} {s s' : State A F K} {as : List α}
    (hrun : Runs.run (complete op) s as = some s') (h : Agrees kb s) : Agrees (executeAll op kb as) s' := by
  induction as generalizing kb s with
  | nil =>
      cases hrun
      exact h
  | cons a as ih =>
      obtain ⟨s₁, hc, hrun'⟩ := Runs.run_cons_eq_some hrun
      obtain ⟨_, _, _, _, rfl⟩ := complete_eq_some.mp hc
      exact ih hrun' (agrees_updatePredicates (agrees_updatePredicates h _ _) _ _)

end

omit [DecidableEq F] [DecidableEq G] in
theorem executeAll_modelFunctions (op : α → Operator A F K) (kb : KnowledgeBase A F G K) (as : List α) :
    (executeAll op kb as).modelFunctions = kb.modelFunctions := by
  unfold executeAll
  induction as generalizing kb with
  | nil => rfl
  | cons a as ih =>
      rw [List.foldl_cons, ih]
      simp [dispatchEnd, dispatchStart]

omit [DecidableEq F] [DecidableEq G] in
/-- **The functions.**  No dispatched action changes a function. -/
theorem replay_modelFunctions (op : α → Operator A F K) (kb : KnowledgeBase A F G K) (es : List (Event α K)) :
    (replay op kb es).modelFunctions = kb.modelFunctions := by
  unfold replay
  induction es generalizing kb with
  | nil => rfl
  | cons e es ih =>
      rw [List.foldl_cons, ih]
      cases e with
      | start a t => exact updatePredicates_modelFunctions _ _
      | finish a t => exact updatePredicates_modelFunctions _ _

end

end DroneArch.Rosplan
