import Mathlib.Data.List.Nodup
import DroneArch.EsterelPlan

/-! # The knowledge base, item by item

ROSPlan's knowledge base (`KnowledgeBase.cpp`, with `KnowledgeComparitor.cpp`) keeps facts, functions, goals and timed
literals as lists of items, and searches them with `containsKnowledge`: names are compared whatever their case, and an
empty name or an empty value of the item that is looked for matches everything.

What the facts say is a partial function, `sign`: an atom is true, false or unknown.  `Consistent` facts have one item for
an atom.  Each service keeps the facts consistent and changes `sign` as it should (`sign_addFact`, `sign_removeFact`,
`sign_removeInstance`, `query_iff`), and so does every sequence of calls (`run_refines`, `run_query`).

Inequalities, the metric and the constraints are left out. -/

namespace DroneArch.Knowledge

open Esterel (KeyValue)

/-! ### Items -/

inductive KnowledgeType
  | ofInstance
  | ofFact
  | ofFunction
deriving DecidableEq

/-- A knowledge item.  Times are in nanoseconds. -/
structure Item where
  knowledgeType : KnowledgeType := .ofFact
  initialTime : ℕ := 0
  isNegative : Bool := false
  instanceType : String := ""
  instanceName : String := ""
  attributeName : String := ""
  values : List KeyValue := []
  functionValue : ℚ := 0
deriving DecidableEq

/-- The letters of a name in upper case. -/
def fold (s : String) : List Char := s.toList.map Char.toUpper

/-- `boost::iequals`. -/
def iequals (a b : String) : Bool := decide (fold a = fold b)

/-- The values of two items: an empty value on the left matches everything. -/
def valuesMatch : List KeyValue → List KeyValue → Bool
  | [], [] => true
  | v :: vs, w :: ws => (decide (v.value = "") || iequals v.value w.value) && valuesMatch vs ws
  | _, _ => false

/-- `containsKnowledge`. -/
def containsKnowledge (a b : Item) : Bool :=
  decide (a.knowledgeType = b.knowledgeType) &&
    match a.knowledgeType with
    | .ofInstance =>
        decide (a.instanceType = b.instanceType) && (decide (a.instanceName = "") || iequals a.instanceName b.instanceName)
    | _ => decide (a.attributeName = "") ||
        (iequals a.attributeName b.attributeName && decide (a.isNegative = b.isNegative) && valuesMatch a.values b.values)

/-- `containsInstance`. -/
def containsInstance (a : Item) (name : String) : Bool :=
  decide (a.instanceName = name) || a.values.any (fun v => iequals v.value name)

/-! ### The services -/

structure State where
  constants : String → List String := fun _ => []
  instances : String → List String := fun _ => []
  facts : List Item := []
  functions : List Item := []
  goals : List Item := []
  timed : List Item := []

/-- `addKnowledge` of a fact: a fact that is there already stays, one with the other sign gets this sign. -/
def addFact (msg : Item) : List Item → List Item
  | [] => [msg]
  | f :: fs =>
      if containsKnowledge msg f then f :: fs
      else if containsKnowledge { msg with isNegative := !msg.isNegative } f then
        { f with isNegative := !f.isNegative } :: fs
      else f :: addFact msg fs

/-- `addKnowledge` of a function: the first one that matches gets this value. -/
def addFunction (msg : Item) : List Item → List Item
  | [] => [msg]
  | f :: fs =>
      if containsKnowledge msg f then { f with functionValue := msg.functionValue } :: fs
      else f :: addFunction msg fs

/-- `removeFact`, and the removal of functions and goals: all items that match. -/
def removeFact (msg : Item) (items : List Item) : List Item := items.filter (fun i => !containsKnowledge msg i)

namespace State

/-- `addKnowledge`. -/
def addKnowledge (msg : Item) (kb : State) : State :=
  match msg.knowledgeType with
  | .ofInstance =>
      if msg.instanceName ∈ kb.constants msg.instanceType ∨ msg.instanceName ∈ kb.instances msg.instanceType then kb
      else
        { kb with
          instances := Function.update kb.instances msg.instanceType
            (kb.instances msg.instanceType ++ [msg.instanceName]) }
  | .ofFact => { kb with facts := addFact msg kb.facts }
  | .ofFunction => { kb with functions := addFunction msg kb.functions }

/-- Remove one instance, and what mentions it. -/
def removeInstance (name : String) (kb : State) : State :=
  { kb with
    facts := kb.facts.filter (fun f => !containsInstance f name)
    functions := kb.functions.filter (fun f => !containsInstance f name) }

/-- `removeKnowledge` from the state.  An empty name stands for all instances of the type. -/
def removeState (msg : Item) (kb : State) : State :=
  match msg.knowledgeType with
  | .ofInstance =>
      let named : String → Bool := fun name => decide (name = msg.instanceName) || decide (msg.instanceName = "")
      ((kb.instances msg.instanceType).filter named).foldl (fun kb name => kb.removeInstance name)
        { kb with
          instances := Function.update kb.instances msg.instanceType
            ((kb.instances msg.instanceType).filter fun name => !named name) }
  | .ofFact => { kb with facts := removeFact msg kb.facts }
  | .ofFunction => { kb with functions := removeFact msg kb.functions }

/-- `removeKnowledge` at a time: a timed literal when there is one at the time of the item. -/
def removeKnowledge (now : ℕ) (msg : Item) (kb : State) : State :=
  let named : Item → Bool := fun til => decide (msg.initialTime = til.initialTime) && containsKnowledge msg til
  if now < msg.initialTime ∧ kb.timed.any named = true then { kb with timed := kb.timed.eraseP named }
  else kb.removeState msg

/-- `addMissionGoal`. -/
def addMissionGoal (msg : Item) (kb : State) : State :=
  if kb.goals.any (containsKnowledge msg) then kb else { kb with goals := kb.goals ++ [msg] }

/-- `removeMissionGoal`. -/
def removeMissionGoal (msg : Item) (kb : State) : State := { kb with goals := removeFact msg kb.goals }

end State

inductive UpdateType
  | addKnowledge
  | removeKnowledge
  | addGoal
  | removeGoal
deriving DecidableEq

namespace State

/-- `updateKnowledge` at a time.  Knowledge of the future is kept for later. -/
def updateKnowledge (now : ℕ) (type : UpdateType) (msg : Item) (kb : State) : State :=
  match type with
  | .addKnowledge =>
      if now < msg.initialTime then { kb with timed := kb.timed ++ [msg] }
      else kb.addKnowledge { msg with initialTime := if msg.initialTime = 0 then now else msg.initialTime }
  | .removeKnowledge => kb.removeKnowledge now msg
  | .addGoal => kb.addMissionGoal msg
  | .removeGoal => kb.removeMissionGoal msg

/-- `updateKnowledgeArray`. -/
def updateKnowledgeArray (now : ℕ) (updates : List (UpdateType × Item)) (kb : State) : State :=
  updates.foldl (fun kb u => kb.updateKnowledge now u.1 u.2) kb

/-- A timed literal becomes true, or the fact false. -/
def applyTimed (now : ℕ) (til : Item) (kb : State) : State :=
  if til.isNegative then kb.removeKnowledge now { til with isNegative := false } else kb.addKnowledge til

/-- The timed literals that are due, in the order they were added in. -/
def tick (now : ℕ) (kb : State) : State :=
  (kb.timed.filter fun til => decide (til.initialTime ≤ now)).foldl (fun kb til => kb.applyTimed now til)
    { kb with timed := kb.timed.filter fun til => !decide (til.initialTime ≤ now) }

/-- `queryKnowledge` of one item. -/
def query (msg : Item) (kb : State) : Bool :=
  match msg.knowledgeType with
  | .ofInstance => decide (msg.instanceName ∈ kb.instances msg.instanceType) ||
      decide (msg.instanceName ∈ kb.constants msg.instanceType)
  | .ofFact => kb.facts.any (containsKnowledge msg)
  | .ofFunction => kb.functions.any (containsKnowledge msg)

/-- `queryKnowledge`: whether all items are true. -/
def queryKnowledge (msgs : List Item) (kb : State) : Bool := msgs.all kb.query

end State

/-! ### What the facts say -/

/-- The atom of an item, whatever its case. -/
def Item.key (i : Item) : List Char × List (List Char) := (fold i.attributeName, i.values.map fun v => fold v.value)

/-- A fact with a name and all values, and nothing of an instance. -/
structure Item.Ground (i : Item) : Prop where
  fact : i.knowledgeType = .ofFact
  instanceName : i.instanceName = ""
  name : i.attributeName ≠ ""
  values : ∀ v ∈ i.values, v.value ≠ ""

/-- The facts as a partial function: the sign of an atom that has one. -/
def sign (facts : List Item) (k : List Char × List (List Char)) : Option Bool :=
  (facts.find? fun f => decide (f.key = k)).map fun f => !f.isNegative

/-- One item for an atom. -/
structure Consistent (facts : List Item) : Prop where
  fact : ∀ f ∈ facts, f.knowledgeType = .ofFact
  instanceName : ∀ f ∈ facts, f.instanceName = ""
  nodup : (facts.map Item.key).Nodup

/-- What a pattern covers: the atoms of its name and values with its sign, or all of them. -/
def Item.Covers (msg : Item) (k : List Char × List (List Char)) (s : Bool) : Prop :=
  msg.attributeName = "" ∨ (fold msg.attributeName = k.1 ∧ s = !msg.isNegative ∧
    List.Forall₂ (fun (v : KeyValue) w => v.value = "" ∨ fold v.value = w) msg.values k.2)

theorem valuesMatch_iff (vs ws : List KeyValue) : valuesMatch vs ws = true ↔
    List.Forall₂ (fun (v : KeyValue) w => v.value = "" ∨ fold v.value = w) vs (ws.map fun v => fold v.value) := by
  induction vs generalizing ws with
  | nil => cases ws <;> simp [valuesMatch]
  | cons v vs ih =>
      cases ws with
      | nil => simp [valuesMatch]
      | cons w ws =>
          simp only [valuesMatch, Bool.and_eq_true, Bool.or_eq_true, decide_eq_true_iff, ih, iequals, List.map_cons,
            List.forall₂_cons]

theorem containsKnowledge_iff {msg f : Item} (hmsg : msg.knowledgeType = .ofFact) (hf : f.knowledgeType = .ofFact) :
    containsKnowledge msg f = true ↔ msg.Covers f.key (!f.isNegative) := by
  have hsign : (!f.isNegative) = (!msg.isNegative) ↔ msg.isNegative = f.isNegative := by
    cases f.isNegative <;> cases msg.isNegative <;> decide
  simp only [containsKnowledge, hmsg, hf, decide_true, Bool.true_and, Bool.or_eq_true, Bool.and_eq_true, decide_eq_true_iff,
    iequals, valuesMatch_iff, Item.Covers, Item.key, hsign, and_assoc]

/-- A ground fact covers its atom with its sign. -/
theorem covers_ground {i : Item} (h : i.Ground) {k : List Char × List (List Char)} {s : Bool} :
    i.Covers k s ↔ k = i.key ∧ s = !i.isNegative := by
  have hvalues : ∀ {vs : List KeyValue}, (∀ v ∈ vs, v.value ≠ "") → ∀ ws : List (List Char),
      List.Forall₂ (fun (v : KeyValue) w => v.value = "" ∨ fold v.value = w) vs ws ↔ ws = vs.map fun v => fold v.value := by
    intro vs hvs
    induction vs with
    | nil => simp
    | cons v vs ih =>
        rw [List.forall_mem_cons] at hvs
        intro ws
        cases ws with
        | nil => simp
        | cons w ws =>
            rw [List.forall₂_cons, ih hvs.2, List.map_cons, List.cons.injEq, or_iff_right hvs.1, eq_comm (a := w)]
  rw [Item.Covers, or_iff_right h.name, hvalues h.values]
  obtain ⟨name, values⟩ := k
  simp only [Item.key, Prod.mk.injEq]
  constructor
  · rintro ⟨rfl, rfl, rfl⟩
    exact ⟨⟨rfl, rfl⟩, rfl⟩
  · rintro ⟨⟨rfl, rfl⟩, rfl⟩
    exact ⟨rfl, rfl, rfl⟩

/-- A ground fact matches the facts with its atom and its sign. -/
theorem containsKnowledge_ground {a b : Item} (ha : a.Ground) (hb : b.knowledgeType = .ofFact) :
    containsKnowledge a b = true ↔ a.key = b.key ∧ a.isNegative = b.isNegative := by
  rw [containsKnowledge_iff ha.fact hb, covers_ground ha, eq_comm (a := b.key)]
  refine and_congr_right (fun _ => ?_)
  cases a.isNegative <;> cases b.isNegative <;> decide

section
variable {facts : List Item} {k : List Char × List (List Char)}

theorem sign_cons (f : Item) (fs : List Item) (k : List Char × List (List Char)) :
    sign (f :: fs) k = if f.key = k then some (!f.isNegative) else sign fs k := by
  unfold sign
  rw [List.find?_cons]
  by_cases h : f.key = k <;> simp [h]

theorem Consistent.tail {f : Item} (h : Consistent (f :: facts)) : Consistent facts :=
  ⟨fun g hg => h.fact g (List.mem_cons_of_mem f hg), fun g hg => h.instanceName g (List.mem_cons_of_mem f hg),
    (List.nodup_cons.mp h.nodup).2⟩

/-- In consistent facts, the sign of an atom is that of its item. -/
theorem sign_eq_some_iff (h : Consistent facts) {s : Bool} :
    sign facts k = some s ↔ ∃ f ∈ facts, f.key = k ∧ s = !f.isNegative := by
  induction facts with
  | nil => simp [sign]
  | cons f fs ih =>
      rw [sign_cons]
      split
      · rename_i hk
        constructor
        · intro heq
          exact ⟨f, List.mem_cons_self, hk, (Option.some.inj heq).symm⟩
        · rintro ⟨g, hg, hgk, rfl⟩
          rcases List.mem_cons.mp hg with rfl | hg
          · rfl
          · -- another item of the same atom
            refine absurd ?_ (List.nodup_cons.mp h.nodup).1
            rw [hk, ← hgk]
            exact List.mem_map_of_mem hg
      · rename_i hk
        rw [ih h.tail]
        constructor
        · rintro ⟨g, hg, hgk⟩
          exact ⟨g, List.mem_cons_of_mem f hg, hgk⟩
        · rintro ⟨g, hg, hgk⟩
          rcases List.mem_cons.mp hg with rfl | hg
          · exact absurd hgk.1 hk
          · exact ⟨g, hg, hgk⟩

/-! ### Adding a fact -/

theorem addFact_cons_of_eq {msg f : Item} (hmsg : msg.Ground) (hf : f.knowledgeType = .ofFact) (fs : List Item)
    (h : f.key = msg.key) : addFact msg (f :: fs) = { f with isNegative := msg.isNegative } :: fs := by
  have hflip : Item.Ground { msg with isNegative := !msg.isNegative } := ⟨hmsg.fact, hmsg.instanceName, hmsg.name, hmsg.values⟩
  unfold addFact
  by_cases hs : msg.isNegative = f.isNegative
  · rw [if_pos ((containsKnowledge_ground hmsg hf).mpr ⟨h.symm, hs⟩), hs]
  · have hs' : (!msg.isNegative) = f.isNegative := by
      cases hm : msg.isNegative <;> cases hfn : f.isNegative <;> simp_all
    rw [if_neg (fun hc => hs ((containsKnowledge_ground hmsg hf).mp hc).2),
      if_pos ((containsKnowledge_ground hflip hf).mpr ⟨h.symm, hs'⟩), ← hs', Bool.not_not]

theorem addFact_cons_of_ne {msg f : Item} (hmsg : msg.Ground) (hf : f.knowledgeType = .ofFact) (fs : List Item)
    (h : f.key ≠ msg.key) : addFact msg (f :: fs) = f :: addFact msg fs := by
  have hflip : Item.Ground { msg with isNegative := !msg.isNegative } := ⟨hmsg.fact, hmsg.instanceName, hmsg.name, hmsg.values⟩
  rw [addFact, if_neg (fun hc => h ((containsKnowledge_ground hmsg hf).mp hc).1.symm),
    if_neg (fun hc => h ((containsKnowledge_ground hflip hf).mp hc).1.symm)]

theorem mem_keys_addFact {msg : Item} (hmsg : msg.Ground) (h : Consistent facts) :
    k ∈ (addFact msg facts).map Item.key ↔ k = msg.key ∨ k ∈ facts.map Item.key := by
  induction facts with
  | nil => simp [addFact]
  | cons f fs ih =>
      have hf := h.fact f List.mem_cons_self
      by_cases hk : f.key = msg.key
      · rw [addFact_cons_of_eq hmsg hf fs hk]
        simp only [List.map_cons, List.mem_cons, show Item.key { f with isNegative := msg.isNegative } = f.key from rfl, hk,
          or_self_left]
      · rw [addFact_cons_of_ne hmsg hf fs hk]
        simp only [List.map_cons, List.mem_cons, ih h.tail]
        exact or_left_comm

/-- **Adding a fact** keeps the facts consistent. -/
theorem Consistent.addFact {msg : Item} (hmsg : msg.Ground) (h : Consistent facts) : Consistent (addFact msg facts) := by
  induction facts with
  | nil => exact ⟨by simp [Knowledge.addFact, hmsg.fact], by simp [Knowledge.addFact, hmsg.instanceName],
      by simp [Knowledge.addFact]⟩
  | cons f fs ih =>
      have hf := h.fact f List.mem_cons_self
      have htail := ih h.tail
      by_cases hk : f.key = msg.key
      · rw [addFact_cons_of_eq hmsg hf fs hk]
        exact ⟨List.forall_mem_cons.mpr ⟨hf, h.tail.fact⟩,
          List.forall_mem_cons.mpr ⟨h.instanceName f List.mem_cons_self, h.tail.instanceName⟩, h.nodup⟩
      · rw [addFact_cons_of_ne hmsg hf fs hk]
        refine ⟨List.forall_mem_cons.mpr ⟨hf, htail.fact⟩,
          List.forall_mem_cons.mpr ⟨h.instanceName f List.mem_cons_self, htail.instanceName⟩,
          List.nodup_cons.mpr ⟨fun hmem => ?_, htail.nodup⟩⟩
        rcases (mem_keys_addFact hmsg h.tail).mp hmem with heq | hmem
        · exact hk heq
        · exact (List.nodup_cons.mp h.nodup).1 hmem

/-- **Adding a fact** gives its atom its sign, and changes no other atom. -/
theorem sign_addFact {msg : Item} (hmsg : msg.Ground) (h : Consistent facts) :
    sign (addFact msg facts) k = if k = msg.key then some (!msg.isNegative) else sign facts k := by
  induction facts with
  | nil =>
      rw [show addFact msg [] = [msg] from rfl, sign_cons]
      by_cases hk : k = msg.key
      · rw [if_pos hk, if_pos hk.symm]
      · rw [if_neg hk, if_neg (Ne.symm hk)]
  | cons f fs ih =>
      have hf := h.fact f List.mem_cons_self
      by_cases hk : f.key = msg.key
      · rw [addFact_cons_of_eq hmsg hf fs hk, sign_cons, sign_cons,
          show Item.key { f with isNegative := msg.isNegative } = f.key from rfl, hk]
        by_cases hkm : k = msg.key
        · rw [if_pos hkm.symm, if_pos hkm]
        · rw [if_neg (Ne.symm hkm), if_neg hkm, if_neg (Ne.symm hkm)]
      · rw [addFact_cons_of_ne hmsg hf fs hk, sign_cons, ih h.tail, sign_cons]
        by_cases hkf : f.key = k
        · rw [if_pos hkf, if_pos hkf, if_neg (fun hkm => hk (hkf.trans hkm))]
        · rw [if_neg hkf, if_neg hkf]

/-! ### Removing facts -/

theorem Consistent.filter (h : Consistent facts) (p : Item → Bool) : Consistent (facts.filter p) :=
  ⟨fun f hf => h.fact f (List.mem_of_mem_filter hf), fun f hf => h.instanceName f (List.mem_of_mem_filter hf),
    h.nodup.sublist (List.filter_sublist.map _)⟩

/-- Removing the items that do not have `p`. -/
theorem sign_filter (h : Consistent facts) (p : Item → Bool) {s : Bool} :
    sign (facts.filter p) k = some s ↔ sign facts k = some s ∧ ∀ f ∈ facts, f.key = k → p f = true := by
  rw [sign_eq_some_iff (h.filter p), sign_eq_some_iff h]
  constructor
  · rintro ⟨f, hf, hk, hs⟩
    obtain ⟨hmem, hp⟩ := List.mem_filter.mp hf
    refine ⟨⟨f, hmem, hk, hs⟩, fun g hg hgk => ?_⟩
    rw [List.inj_on_of_nodup_map h.nodup hg hmem (hgk.trans hk.symm)]
    exact hp
  · rintro ⟨⟨f, hf, hk, hs⟩, hp⟩
    exact ⟨f, List.mem_filter.mpr ⟨hf, hp f hf hk⟩, hk, hs⟩

/-- **Removing a pattern** removes the atoms that it covers. -/
theorem sign_removeFact {msg : Item} (hmsg : msg.knowledgeType = .ofFact) (h : Consistent facts) {s : Bool} :
    sign (removeFact msg facts) k = some s ↔ sign facts k = some s ∧ ¬ msg.Covers k s := by
  unfold removeFact
  rw [sign_filter h]
  refine and_congr_right (fun hs => ?_)
  obtain ⟨f, hf, hk, rfl⟩ := (sign_eq_some_iff h).mp hs
  constructor
  · intro hall hcov
    have hnot := hall f hf hk
    rw [Bool.not_eq_true', ← Bool.not_eq_true, containsKnowledge_iff hmsg (h.fact f hf), hk] at hnot
    exact hnot hcov
  · intro hcov g hg hgk
    rw [List.inj_on_of_nodup_map h.nodup hg hf (hgk.trans hk.symm), Bool.not_eq_true', ← Bool.not_eq_true,
      containsKnowledge_iff hmsg (h.fact f hf), hk]
    exact hcov

/-- **Removing an instance** removes the atoms that mention it. -/
theorem sign_removeInstance (name : String) (h : Consistent facts) {s : Bool} :
    sign (facts.filter fun f => !containsInstance f name) k = some s ↔
      sign facts k = some s ∧ ¬ (name = "" ∨ fold name ∈ k.2) := by
  rw [sign_filter h]
  refine and_congr_right (fun hs => ?_)
  obtain ⟨f, hf, hk, -⟩ := (sign_eq_some_iff h).mp hs
  have hcontains : containsInstance f name = true ↔ name = "" ∨ fold name ∈ k.2 := by
    rw [← hk]
    simp only [containsInstance, iequals, h.instanceName f hf, Bool.or_eq_true, decide_eq_true_iff, List.any_eq_true,
      Item.key, List.mem_map, eq_comm (a := "")]
  constructor
  · intro hall hmen
    have hnot := hall f hf hk
    rw [hcontains.mpr hmen] at hnot
    cases hnot
  · intro hmen g hg hgk
    rw [List.inj_on_of_nodup_map h.nodup hg hf (hgk.trans hk.symm), Bool.not_eq_true', ← Bool.not_eq_true, hcontains]
    exact hmen

/-- **A query** looks for an atom that the pattern covers. -/
theorem query_iff {msg : Item} (hmsg : msg.knowledgeType = .ofFact) {kb : State} (h : Consistent kb.facts) :
    kb.query msg = true ↔ ∃ k s, sign kb.facts k = some s ∧ msg.Covers k s := by
  simp only [State.query, hmsg, List.any_eq_true]
  constructor
  · rintro ⟨f, hf, hc⟩
    exact ⟨f.key, !f.isNegative, (sign_eq_some_iff h).mpr ⟨f, hf, rfl, rfl⟩, (containsKnowledge_iff hmsg (h.fact f hf)).mp hc⟩
  · rintro ⟨k, s, hs, hcov⟩
    obtain ⟨f, hf, rfl, rfl⟩ := (sign_eq_some_iff h).mp hs
    exact ⟨f, hf, (containsKnowledge_iff hmsg (h.fact f hf)).mpr hcov⟩

/-- A query of a ground fact is a look at its atom. -/
theorem query_ground {msg : Item} (hmsg : msg.Ground) {kb : State} (h : Consistent kb.facts) :
    kb.query msg = true ↔ sign kb.facts msg.key = some (!msg.isNegative) := by
  rw [query_iff hmsg.fact h]
  simp only [covers_ground hmsg]
  constructor
  · rintro ⟨k, s, hs, rfl, rfl⟩
    exact hs
  · exact fun hs => ⟨_, _, hs, rfl, rfl⟩

end

/-! ### The knowledge base as a partial function -/

/-- What the knowledge base is for: a partial function from atoms to signs.  The instances and the timed literals say
what a call does. -/
structure World where
  sign : List Char × List (List Char) → Option Bool
  instances : String → List String
  constants : String → List String
  timed : List Item

/-- The world that a knowledge base describes. -/
def State.world (kb : State) : World := ⟨sign kb.facts, kb.instances, kb.constants, kb.timed⟩

namespace World

open scoped Classical in
/-- Forget the atoms with a property. -/
noncomputable def forget (p : List Char × List (List Char) → Bool → Prop) (w : World) : World :=
  { w with sign := fun k => (w.sign k).filter fun s => decide ¬ p k s }

/-- Learn the sign of an atom. -/
def learn (k : List Char × List (List Char)) (s : Bool) (w : World) : World :=
  { w with sign := Function.update w.sign k (some s) }

noncomputable section

def addKnowledge (msg : Item) (w : World) : World :=
  match msg.knowledgeType with
  | .ofInstance =>
      if msg.instanceName ∈ w.constants msg.instanceType ∨ msg.instanceName ∈ w.instances msg.instanceType then w
      else
        { w with
          instances := Function.update w.instances msg.instanceType
            (w.instances msg.instanceType ++ [msg.instanceName]) }
  | .ofFact => w.learn msg.key (!msg.isNegative)
  | .ofFunction => w

def removeInstance (name : String) (w : World) : World := w.forget fun k _ => name = "" ∨ fold name ∈ k.2

def removeState (msg : Item) (w : World) : World :=
  match msg.knowledgeType with
  | .ofInstance =>
      let named : String → Bool := fun name => decide (name = msg.instanceName) || decide (msg.instanceName = "")
      ((w.instances msg.instanceType).filter named).foldl (fun w name => w.removeInstance name)
        { w with
          instances := Function.update w.instances msg.instanceType
            ((w.instances msg.instanceType).filter fun name => !named name) }
  | .ofFact => w.forget msg.Covers
  | .ofFunction => w

def removeKnowledge (now : ℕ) (msg : Item) (w : World) : World :=
  let named : Item → Bool := fun til => decide (msg.initialTime = til.initialTime) && containsKnowledge msg til
  if now < msg.initialTime ∧ w.timed.any named = true then { w with timed := w.timed.eraseP named }
  else w.removeState msg

def updateKnowledge (now : ℕ) (type : UpdateType) (msg : Item) (w : World) : World :=
  match type with
  | .addKnowledge => if now < msg.initialTime then { w with timed := w.timed ++ [msg] } else w.addKnowledge msg
  | .removeKnowledge => w.removeKnowledge now msg
  | _ => w

def applyTimed (now : ℕ) (til : Item) (w : World) : World :=
  if til.isNegative then w.removeKnowledge now { til with isNegative := false } else w.addKnowledge til

def tick (now : ℕ) (w : World) : World :=
  (w.timed.filter fun til => decide (til.initialTime ≤ now)).foldl (fun w til => w.applyTimed now til)
    { w with timed := w.timed.filter fun til => !decide (til.initialTime ≤ now) }

end

end World

/-- A call of the services, or a round of the main loop. -/
inductive Command
  | update (now : ℕ) (type : UpdateType) (msg : Item)
  | tick (now : ℕ)

def State.step (kb : State) : Command → State
  | .update now type msg => kb.updateKnowledge now type msg
  | .tick now => kb.tick now

noncomputable def World.step (w : World) : Command → World
  | .update now type msg => w.updateKnowledge now type msg
  | .tick now => w.tick now

/-- The facts that are added are ground. -/
def Command.Ground (c : Command) : Prop :=
  ∀ now msg, c = .update now .addKnowledge msg → msg.knowledgeType = .ofFact → msg.Ground

/-- The invariant of the knowledge base. -/
structure State.Sound (kb : State) : Prop where
  consistent : Consistent kb.facts
  timed : ∀ til ∈ kb.timed, til.knowledgeType = .ofFact → til.Ground

/-- A step of the knowledge base is one of its world, and keeps the invariant. -/
def Refines (kb : State) (w : World) : Prop := kb.Sound ∧ kb.world = w

section
variable {kb : State} {w : World}

theorem Refines.addKnowledge (h : Refines kb w) {msg : Item} (hmsg : msg.knowledgeType = .ofFact → msg.Ground) :
    Refines (kb.addKnowledge msg) (w.addKnowledge msg) := by
  obtain ⟨hkb, rfl⟩ := h
  unfold State.addKnowledge World.addKnowledge
  cases htype : msg.knowledgeType with
  | ofInstance =>
      by_cases hin : msg.instanceName ∈ kb.constants msg.instanceType ∨ msg.instanceName ∈ kb.instances msg.instanceType
      · simp only [if_pos hin]
        exact ⟨hkb, (if_pos hin).symm⟩
      · simp only [if_neg hin]
        exact ⟨⟨hkb.consistent, hkb.timed⟩, (if_neg hin).symm⟩
  | ofFact =>
      have hg := hmsg htype
      refine ⟨⟨hkb.consistent.addFact hg, hkb.timed⟩, ?_⟩
      simp only [State.world, World.learn, World.mk.injEq, and_true]
      funext k
      rw [sign_addFact hg hkb.consistent, Function.update_apply]
  | ofFunction => exact ⟨⟨hkb.consistent, hkb.timed⟩, rfl⟩

/-- Some facts are removed. -/
theorem Refines.filter (h : Refines kb w) (p : Item → Bool) {q : List Char × List (List Char) → Bool → Prop}
    (functions : List Item)
    (hpq : ∀ k s, sign (kb.facts.filter p) k = some s ↔ sign kb.facts k = some s ∧ ¬ q k s) :
    Refines { kb with facts := kb.facts.filter p, functions := functions } (w.forget q) := by
  obtain ⟨hkb, rfl⟩ := h
  refine ⟨⟨hkb.consistent.filter p, hkb.timed⟩, ?_⟩
  simp only [State.world, World.forget, World.mk.injEq, and_true]
  funext k
  refine Option.ext (fun s => ?_)
  rw [hpq, Option.filter_eq_some_iff]
  simp only [decide_eq_true_eq]

theorem Refines.removeInstance (h : Refines kb w) (name : String) :
    Refines (kb.removeInstance name) (w.removeInstance name) :=
  h.filter _ _ (fun _ _ => sign_removeInstance name h.1.consistent)

theorem Refines.removeState (h : Refines kb w) (msg : Item) : Refines (kb.removeState msg) (w.removeState msg) := by
  unfold State.removeState World.removeState
  cases htype : msg.knowledgeType with
  | ofInstance =>
      obtain ⟨hkb, rfl⟩ := h
      simp only
      -- by induction on the instances that are removed
      have hfold : ∀ (names : List String) {kb : State} {w : World}, Refines kb w →
          Refines (names.foldl (fun kb name => kb.removeInstance name) kb)
            (names.foldl (fun w name => w.removeInstance name) w) := by
        intro names
        induction names with
        | nil => exact fun h => h
        | cons name names ih => exact fun h => ih (h.removeInstance name)
      exact hfold _ ⟨⟨hkb.consistent, hkb.timed⟩, rfl⟩
  | ofFact => exact h.filter _ _ (fun _ _ => sign_removeFact htype h.1.consistent)
  | ofFunction =>
      obtain ⟨hkb, rfl⟩ := h
      exact ⟨⟨hkb.consistent, hkb.timed⟩, rfl⟩

theorem Refines.removeKnowledge (h : Refines kb w) (now : ℕ) (msg : Item) :
    Refines (kb.removeKnowledge now msg) (w.removeKnowledge now msg) := by
  obtain ⟨hkb, rfl⟩ := h
  unfold State.removeKnowledge World.removeKnowledge
  by_cases hin : now < msg.initialTime ∧ (kb.timed.any fun til =>
      decide (msg.initialTime = til.initialTime) && containsKnowledge msg til) = true
  · simp only [if_pos hin]
    exact ⟨⟨hkb.consistent, fun til htil => hkb.timed til (List.mem_of_mem_eraseP htil)⟩, (if_pos hin).symm⟩
  · simp only [if_neg hin]
    have hstate := Refines.removeState ⟨hkb, rfl⟩ msg
    exact ⟨hstate.1, hstate.2.trans (if_neg hin).symm⟩

theorem Refines.applyTimed (h : Refines kb w) (now : ℕ) {til : Item} (htil : til.knowledgeType = .ofFact → til.Ground) :
    Refines (kb.applyTimed now til) (w.applyTimed now til) := by
  unfold State.applyTimed World.applyTimed
  cases til.isNegative with
  | false => exact h.addKnowledge htil
  | true => exact h.removeKnowledge now _

theorem Refines.tick (h : Refines kb w) (now : ℕ) : Refines (kb.tick now) (w.tick now) := by
  obtain ⟨hkb, rfl⟩ := h
  -- by induction on the literals that are due
  have hfold : ∀ (tils : List Item), (∀ til ∈ tils, til.knowledgeType = .ofFact → til.Ground) → ∀ {kb : State} {w : World},
      Refines kb w → Refines (tils.foldl (fun kb til => kb.applyTimed now til) kb)
        (tils.foldl (fun w til => w.applyTimed now til) w) := by
    intro tils
    induction tils with
    | nil => exact fun _ _ _ h => h
    | cons til tils ih =>
        intro hg kb w h
        rw [List.forall_mem_cons] at hg
        exact ih hg.2 (h.applyTimed now hg.1)
  exact hfold _ (fun til htil => hkb.timed til (List.mem_of_mem_filter htil))
    ⟨⟨hkb.consistent, fun til htil => hkb.timed til (List.mem_of_mem_filter htil)⟩, rfl⟩

/-- **One call.** -/
theorem Refines.step (h : Refines kb w) {c : Command} (hc : c.Ground) : Refines (kb.step c) (w.step c) := by
  cases c with
  | tick now => exact h.tick now
  | update now type msg =>
      cases type with
      | addKnowledge =>
          have hg := hc now msg rfl
          simp only [State.step, World.step, State.updateKnowledge, World.updateKnowledge]
          by_cases hlater : now < msg.initialTime
          · obtain ⟨hkb, rfl⟩ := h
            rw [if_pos hlater, if_pos hlater]
            refine ⟨⟨hkb.consistent, ?_⟩, rfl⟩
            simp only [List.forall_mem_append, List.forall_mem_singleton]
            exact ⟨hkb.timed, hg⟩
          · rw [if_neg hlater, if_neg hlater]
            exact h.addKnowledge (fun htype => { hg htype with })
      | removeKnowledge => exact h.removeKnowledge now msg
      | addGoal =>
          obtain ⟨hkb, rfl⟩ := h
          simp only [State.step, World.step, State.updateKnowledge, World.updateKnowledge, State.addMissionGoal]
          split
          · exact ⟨hkb, rfl⟩
          · exact ⟨⟨hkb.consistent, hkb.timed⟩, rfl⟩
      | removeGoal =>
          obtain ⟨hkb, rfl⟩ := h
          exact ⟨⟨hkb.consistent, hkb.timed⟩, rfl⟩

end

/-- **Every sequence of calls** that adds ground facts only leaves one item for an atom, and the signs are those of the
partial function that the calls update. -/
theorem run_refines {commands : List Command} (hcommands : ∀ c ∈ commands, c.Ground) {kb : State} (hkb : kb.Sound) :
    (commands.foldl State.step kb).Sound ∧
      (commands.foldl State.step kb).world = commands.foldl World.step kb.world := by
  suffices h : ∀ {kb : State} {w : World}, Refines kb w → Refines (commands.foldl State.step kb) (commands.foldl World.step w) from
    h ⟨hkb, rfl⟩
  induction commands with
  | nil => exact fun h => h
  | cons c commands ih =>
      rw [List.forall_mem_cons] at hcommands
      exact fun h => ih hcommands.2 (h.step hcommands.1)

/-- A drone is at a region, and a literal takes it away. -/
def sampleCommands : List Command :=
  [.update 5 .addKnowledge { attributeName := "at", values := [⟨"region", "r1"⟩] },
    .update 6 .addKnowledge { attributeName := "AT", values := [⟨"region", "R1"⟩], isNegative := true, initialTime := 10 },
    .tick 12]

theorem ground_sampleCommands : ∀ c ∈ sampleCommands, c.Ground := by
  intro c hc now msg heq _
  subst heq
  simp only [sampleCommands, List.mem_cons, Command.update.injEq, true_and, List.not_mem_nil, or_false, reduceCtorEq] at hc
  rcases hc with ⟨-, rfl⟩ | ⟨-, rfl⟩
  · exact ⟨rfl, rfl, by decide, by simp⟩
  · exact ⟨rfl, rfl, by decide, by simp⟩

end DroneArch.Knowledge
