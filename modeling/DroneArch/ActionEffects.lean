import DroneArch.KnowledgeItems
import DroneArch.Lists

/-! # The formulas of an action, grounded three times

An action is sent as its name with a value for each parameter of its operator.  Its formulas become ground in three
places, each in its own way: in the plan parser (`groundFormula`), in the dispatcher before the action is sent
(`checkPreconditions`), and in the action interface (`dispatchCallback`), which tells the knowledge base the effects.

* `grounding_agrees_iff`: with distinct parameters, the three agree on a formula when each of its labels is a parameter,
  or empty. -/

namespace DroneArch.Esterel

open Knowledge (Item UpdateType Consistent fold sign)

/-- The parameters of the message, as `processPDDLParameters` makes them. -/
def bindParameters (opParams : List KeyValue) (params : List String) : List KeyValue :=
  List.zipWith (fun p v => ⟨p.key, v⟩) opParams params

/-! ### The dispatcher -/

/-- The value of a label in `checkPreconditions`: that of the last parameter with this label, or nothing. -/
def queryValue (opParams msgParams : List KeyValue) (label : String) : String :=
  (opParams.zip msgParams).foldl (fun v b => if b.1.key = label then b.2.value else v) ""

def conditionItem (opParams msgParams : List KeyValue) (f : DomainFormula) : Item :=
  { attributeName := f.name
    values := f.typedParameters.map fun p => ⟨p.key, queryValue opParams msgParams p.key⟩ }

/-- `checkPreconditions`: the conditions at the start are looked up in the knowledge base. -/
def checkPreconditions (operators : String → Option DomainOperator) (kb : Knowledge.State) (msg : ActionDispatch) : Bool :=
  match operators msg.name with
  | none => false
  | some op =>
      let item := conditionItem op.formula.typedParameters msg.parameters
      kb.queryKnowledge (op.atStartSimpleCondition.map item) && !(op.atStartNegCondition.map item).any kb.query

/-! ### The action interface -/

/-- The value of a label in `boundParameters`: that of the first parameter of the message with this label, for a label of
the operator. -/
def boundValue (opParams msgParams : List KeyValue) (label : String) : String :=
  if label ∈ opParams.map KeyValue.key then ((msgParams.find? fun m => decide (m.key = label)).map KeyValue.value).getD ""
  else ""

/-- A message is taken when it has all parameters. -/
def hasParameters (opParams msgParams : List KeyValue) : Bool :=
  opParams.all fun p => msgParams.any fun m => decide (m.key = p.key)

/-- The item of an effect, under the labels of its predicate. -/
def effectItem (predicates : String → List KeyValue) (opParams msgParams : List KeyValue) (f : DomainFormula) : Item :=
  { attributeName := f.name
    values := f.typedParameters.zipIdx.map fun (p, j) =>
      ⟨((predicates f.name).getD j ⟨"", ""⟩).key, boundValue opParams msgParams p.key⟩ }

/-- The update of the knowledge base at one end of an action: what is deleted, and then what is added.  Effects on sensed
predicates are left to the sensors. -/
def effectUpdates (predicates : String → List KeyValue) (sensed : List String) (op : DomainOperator)
    (msgParams : List KeyValue) (nodeType : NodeType) : List (UpdateType × Item) :=
  let item := effectItem predicates op.formula.typedParameters msgParams
  let written := List.filter fun f : DomainFormula => decide (f.name ∉ sensed)
  (written (op.dels nodeType)).map (fun f => (.removeKnowledge, item f)) ++
    (written (op.adds nodeType)).map (fun f => (.addKnowledge, item f))

/-! ### Agreement -/

/-- The atom of an item. -/
def itemAtom (i : Item) : String × List String := (i.attributeName, i.values.map KeyValue.value)

section
variable {opParams : List KeyValue} {params : List String} {label : String}

theorem map_key_bindParameters (hlen : params.length = opParams.length) :
    (bindParameters opParams params).map KeyValue.key = opParams.map KeyValue.key := by
  unfold bindParameters
  induction opParams generalizing params with
  | nil => rfl
  | cons p ps ih =>
      cases params with
      | nil => cases hlen
      | cons v vs => rw [List.zipWith_cons_cons, List.map_cons, List.map_cons, ih (Nat.succ.inj hlen)]

theorem mem_zip {α β : Type*} {l : List α} {l' : List β} {i : ℕ} {a : α} {b : β} (ha : l[i]? = some a) (hb : l'[i]? = some b) :
    (a, b) ∈ l.zip l' :=
  List.mem_of_getElem? (List.getElem?_zip_eq_some.mpr ⟨ha, hb⟩)

/-- The first element with its key, when each key is there once. -/
theorem find?_of_nodup {α κ : Type*} [DecidableEq κ] {key : α → κ} {l : List α} (hnodup : (l.map key).Nodup) {a : α}
    (ha : a ∈ l) : (l.find? fun b => decide (key b = key a)) = some a := by
  cases hf : l.find? fun b => decide (key b = key a) with
  | none =>
      have := List.find?_eq_none.mp hf a ha
      simp at this
  | some b =>
      have hb := List.find?_some hf
      rw [decide_eq_true_iff] at hb
      rw [List.inj_on_of_nodup_map hnodup (List.mem_of_find?_eq_some hf) ha hb]

/-- The value of a parameter, in the three places. -/
theorem values_of_mem (hnodup : (opParams.map KeyValue.key).Nodup) (hlen : params.length = opParams.length)
    (h : label ∈ opParams.map KeyValue.key) :
    ∃ v ∈ params, (opParams.zip params).foldl (fun v b => if b.1.key = label then b.2 else v) label = v ∧
      queryValue opParams (bindParameters opParams params) label = v ∧
      boundValue opParams (bindParameters opParams params) label = v := by
  obtain ⟨p, hp, rfl⟩ := List.mem_map.mp h
  obtain ⟨i, hi⟩ := List.mem_iff_getElem?.mp hp
  have hlt : i < params.length := hlen ▸ (List.getElem?_eq_some_iff.mp hi).1
  obtain ⟨v, hv⟩ : ∃ v, params[i]? = some v := ⟨_, List.getElem?_eq_getElem hlt⟩
  have hbind : (bindParameters opParams params)[i]? = some ⟨p.key, v⟩ := by
    simp [bindParameters, List.getElem?_zipWith, hi, hv]
  have hkeys := map_key_bindParameters hlen
  refine ⟨v, List.mem_of_getElem? hv, ?_, ?_, ?_⟩
  · have hnodup' : ((opParams.zip params).map fun b => b.1.key).Nodup := by
      have hfst : (opParams.zip params).map Prod.fst = opParams := List.map_fst_zip (le_of_eq hlen.symm)
      rw [← hfst, List.map_map] at hnodup
      exact hnodup
    exact Lists.foldl_last_of_mem (f := fun b : KeyValue × String => b.2) hnodup' (mem_zip hi hv) _
  · have hnodup' : ((opParams.zip (bindParameters opParams params)).map fun b => b.1.key).Nodup := by
      have hlen' : opParams.length ≤ (bindParameters opParams params).length := by
        rw [← List.length_map (f := KeyValue.key), ← hkeys, List.length_map]
      have hfst : (opParams.zip (bindParameters opParams params)).map Prod.fst = opParams := List.map_fst_zip hlen'
      rw [← hfst, List.map_map] at hnodup
      exact hnodup
    exact Lists.foldl_last_of_mem (f := fun b : KeyValue × KeyValue => b.2.value) hnodup' (mem_zip hi hbind) _
  · unfold boundValue
    rw [if_pos h, show p.key = KeyValue.key ⟨p.key, v⟩ from rfl, find?_of_nodup (hkeys ▸ hnodup) (List.mem_of_getElem? hbind)]
    rfl

/-- The value of another label. -/
theorem values_of_notMem (h : label ∉ opParams.map KeyValue.key) (params : List String) (msgParams : List KeyValue) :
    (opParams.zip params).foldl (fun v b => if b.1.key = label then b.2 else v) label = label ∧
      queryValue opParams msgParams label = "" ∧ boundValue opParams msgParams label = "" := by
  have hzip : ∀ {β : Type} (l : List β), label ∉ (opParams.zip l).map fun b => b.1.key := by
    intro β l hmem
    obtain ⟨b, hb, hkey⟩ := List.mem_map.mp hmem
    exact h (List.mem_map.mpr ⟨b.1, (List.of_mem_zip hb).1, hkey⟩)
  refine ⟨?_, ?_, if_neg h⟩
  · exact Lists.foldl_last_of_notMem (f := fun b : KeyValue × String => b.2) (hzip params) _
  · exact Lists.foldl_last_of_notMem (f := fun b : KeyValue × KeyValue => b.2.value) (hzip msgParams) _

theorem map_value_effectItem (predicates : String → List KeyValue) (opParams msgParams : List KeyValue) (f : DomainFormula) :
    (effectItem predicates opParams msgParams f).values.map KeyValue.value =
      f.typedParameters.map fun p => boundValue opParams msgParams p.key := by
  simp only [effectItem, List.map_map]
  conv_rhs => rw [← List.zipIdx_map_fst 0 f.typedParameters, List.map_map]
  rfl

/-- The parser keeps a label that is no parameter, and the others leave it empty. -/
theorem value_eq_iff {v w : String} (hmem : label ∈ opParams.map KeyValue.key → v = w)
    (hnot : label ∉ opParams.map KeyValue.key → v = "" ∧ w = label) :
    v = w ↔ label ∈ opParams.map KeyValue.key ∨ label = "" := by
  by_cases h : label ∈ opParams.map KeyValue.key
  · simp only [hmem h, h, true_or]
  · obtain ⟨rfl, rfl⟩ := hnot h
    simp only [h, false_or]
    exact eq_comm

/-- The dispatcher agrees with the parser on the labels that are parameters or empty. -/
theorem itemAtom_conditionItem_iff (hnodup : (opParams.map KeyValue.key).Nodup) (hlen : params.length = opParams.length)
    (f : DomainFormula) :
    itemAtom (conditionItem opParams (bindParameters opParams params) f) = (groundFormula opParams params f).atom ↔
      ∀ p ∈ f.typedParameters, p.key ∈ opParams.map KeyValue.key ∨ p.key = "" := by
  simp only [itemAtom, DomainFormula.atom, conditionItem, groundFormula, Prod.mk.injEq, true_and, List.map_map,
    List.map_inj_left, Function.comp_apply]
  refine forall₂_congr (fun p _ => value_eq_iff (fun h => ?_) (fun h => ?_))
  · obtain ⟨v, -, hparser, hquery, -⟩ := values_of_mem hnodup hlen h
    exact hquery.trans hparser.symm
  · obtain ⟨hparser, hquery, -⟩ := values_of_notMem h params (bindParameters opParams params)
    exact ⟨hquery, hparser⟩

/-- So does the action interface. -/
theorem itemAtom_effectItem_iff (predicates : String → List KeyValue) (hnodup : (opParams.map KeyValue.key).Nodup)
    (hlen : params.length = opParams.length) (f : DomainFormula) :
    itemAtom (effectItem predicates opParams (bindParameters opParams params) f) = (groundFormula opParams params f).atom ↔
      ∀ p ∈ f.typedParameters, p.key ∈ opParams.map KeyValue.key ∨ p.key = "" := by
  rw [itemAtom, map_value_effectItem]
  simp only [effectItem, DomainFormula.atom, groundFormula, Prod.mk.injEq, true_and, List.map_map, List.map_inj_left,
    Function.comp_apply]
  refine forall₂_congr (fun p _ => value_eq_iff (fun h => ?_) (fun h => ?_))
  · obtain ⟨v, -, hparser, -, heffect⟩ := values_of_mem hnodup hlen h
    exact heffect.trans hparser.symm
  · obtain ⟨hparser, -, heffect⟩ := values_of_notMem h params (bindParameters opParams params)
    exact ⟨heffect, hparser⟩

/-- **The three groundings** of a formula agree, for an operator with distinct parameters, when each label of the formula
is a parameter or empty. -/
theorem grounding_agrees_iff (predicates : String → List KeyValue) (hnodup : (opParams.map KeyValue.key).Nodup)
    (hlen : params.length = opParams.length) (f : DomainFormula) :
    (itemAtom (conditionItem opParams (bindParameters opParams params) f) = (groundFormula opParams params f).atom ∧
      itemAtom (effectItem predicates opParams (bindParameters opParams params) f) = (groundFormula opParams params f).atom) ↔
    ∀ p ∈ f.typedParameters, p.key ∈ opParams.map KeyValue.key ∨ p.key = "" := by
  rw [itemAtom_conditionItem_iff hnodup hlen f, itemAtom_effectItem_iff predicates hnodup hlen f, and_self]

/-- A condition `(at ?region ?height)` of an action with the one parameter `?region`. -/
theorem grounding_agrees_region :
    ¬ (itemAtom (conditionItem [⟨"region", "region"⟩] (bindParameters [⟨"region", "region"⟩] ["r1"])
          ⟨"at", [⟨"region", "region"⟩, ⟨"height", "region"⟩]⟩) = ("at", ["r1", "height"]) ∧
        itemAtom (effectItem (fun _ => []) [⟨"region", "region"⟩] (bindParameters [⟨"region", "region"⟩] ["r1"])
          ⟨"at", [⟨"region", "region"⟩, ⟨"height", "region"⟩]⟩) = ("at", ["r1", "height"])) ∧
      (itemAtom (conditionItem [⟨"region", "region"⟩] (bindParameters [⟨"region", "region"⟩] ["r1"])
          ⟨"at", [⟨"region", "region"⟩]⟩) = ("at", ["r1"]) ∧
        itemAtom (effectItem (fun _ => []) [⟨"region", "region"⟩] (bindParameters [⟨"region", "region"⟩] ["r1"])
          ⟨"at", [⟨"region", "region"⟩]⟩) = ("at", ["r1"])) := by
  constructor
  · exact fun h => absurd ((grounding_agrees_iff (fun _ => []) (by decide) rfl _).mp h) (by decide)
  · exact (grounding_agrees_iff (fun _ => []) (by decide) rfl _).mpr (by decide)

end

/-! ### What the effects write -/

/-- The atom as the knowledge base finds it. -/
def atomKey (p : String × List String) : List Char × List (List Char) := (fold p.1, p.2.map fold)

/-- What the knowledge base says of an atom: what is unknown is false. -/
def holds (kb : Knowledge.State) (p : String × List String) : Bool := decide (sign kb.facts (atomKey p) = some true)

theorem key_eq_atomKey (i : Item) : i.key = atomKey (itemAtom i) := by
  simp only [Item.key, atomKey, itemAtom, List.map_map, Function.comp_def]

section
variable {kb : Knowledge.State} {i : Item} {p : String × List String}

/-- One fact is removed or added, now. -/
theorem holds_update (hg : i.Ground) (hnow : i.initialTime = 0) (hneg : i.isNegative = false) (h : Consistent kb.facts)
    (now : ℕ) (add : Bool) :
    Consistent (kb.updateKnowledge now (if add then .addKnowledge else .removeKnowledge) i).facts ∧
      holds (kb.updateKnowledge now (if add then .addKnowledge else .removeKnowledge) i) p =
        if atomKey p = i.key then add else holds kb p := by
  cases add with
  | true =>
      have hg' : Item.Ground { i with initialTime := now } := { hg with }
      have heq : kb.updateKnowledge now .addKnowledge i =
          { kb with facts := Knowledge.addFact { i with initialTime := now } kb.facts } := by
        simp [Knowledge.State.updateKnowledge, Knowledge.State.addKnowledge, hnow, hg.fact]
      simp only [if_true, heq]
      refine ⟨h.addFact hg', ?_⟩
      simp only [holds, Knowledge.sign_addFact hg' h]
      by_cases hk : atomKey p = i.key
      · rw [if_pos hk, if_pos (show atomKey p = Item.key { i with initialTime := now } from hk)]
        simp [hneg]
      · rw [if_neg hk, if_neg (show ¬ atomKey p = Item.key { i with initialTime := now } from hk)]
  | false =>
      have heq : kb.updateKnowledge now .removeKnowledge i = { kb with facts := Knowledge.removeFact i kb.facts } := by
        simp [Knowledge.State.updateKnowledge, Knowledge.State.removeKnowledge, Knowledge.State.removeState, hnow, hg.fact]
      simp only [Bool.false_eq_true, if_false, heq]
      refine ⟨h.filter _, ?_⟩
      have hcovers : i.Covers (atomKey p) true ↔ atomKey p = i.key := by
        rw [Knowledge.covers_ground hg, hneg]
        exact and_iff_left rfl
      simp only [holds, Knowledge.sign_removeFact hg.fact h, hcovers]
      by_cases hk : atomKey p = i.key <;> simp [hk]

/-- Facts are removed, or added, one by one. -/
theorem holds_updateAll (now : ℕ) (add : Bool) {items : List Item} (hg : ∀ i ∈ items, i.Ground)
    (hnow : ∀ i ∈ items, i.initialTime = 0) (hneg : ∀ i ∈ items, i.isNegative = false) (h : Consistent kb.facts) :
    Consistent (kb.updateKnowledgeArray now
        (items.map fun i => (if add then .addKnowledge else .removeKnowledge, i))).facts ∧
      holds (kb.updateKnowledgeArray now (items.map fun i => (if add then .addKnowledge else .removeKnowledge, i))) p =
        if atomKey p ∈ items.map Item.key then add else holds kb p := by
  unfold Knowledge.State.updateKnowledgeArray
  induction items generalizing kb with
  | nil => exact ⟨h, by simp⟩
  | cons i items ih =>
      simp only [List.forall_mem_cons] at hg hnow hneg
      obtain ⟨hcons, hholds⟩ := holds_update (p := p) hg.1 hnow.1 hneg.1 h now add
      obtain ⟨hcons', hholds'⟩ := ih hg.2 hnow.2 hneg.2 hcons
      refine ⟨hcons', ?_⟩
      rw [List.map_cons, List.foldl_cons, hholds', hholds, List.map_cons]
      simp only [List.mem_cons]
      by_cases hi : atomKey p = i.key
      · simp [hi]
      · simp [hi]

end

/-! ### An action whose parameters are bound -/

/-- A message has a value for each parameter of its operator. -/
structure Binds (op : DomainOperator) (params : List String) : Prop where
  nodup : (op.formula.typedParameters.map KeyValue.key).Nodup
  length : params.length = op.formula.typedParameters.length
  values : ∀ v ∈ params, v ≠ ""

/-- The labels of a formula are parameters. -/
structure DomainOperator.Closed (op : DomainOperator) (f : DomainFormula) : Prop where
  name : f.name ≠ ""
  labels : ∀ p ∈ f.typedParameters, p.key ∈ op.formula.typedParameters.map KeyValue.key

section
variable {op : DomainOperator} {params : List String} {f : DomainFormula}

theorem conditionItem_spec (hb : Binds op params) (hf : op.Closed f) :
    (conditionItem op.formula.typedParameters (bindParameters op.formula.typedParameters params) f).Ground ∧
      (conditionItem op.formula.typedParameters (bindParameters op.formula.typedParameters params) f).key =
        atomKey (groundFormula op.formula.typedParameters params f).atom := by
  constructor
  · refine ⟨rfl, rfl, hf.name, fun v hv => ?_⟩
    obtain ⟨p, hp, rfl⟩ := List.mem_map.mp hv
    obtain ⟨w, hw, -, hquery, -⟩ := values_of_mem hb.nodup hb.length (hf.labels p hp)
    exact fun heq => hb.values w hw (hquery.symm.trans heq)
  · rw [key_eq_atomKey, (itemAtom_conditionItem_iff hb.nodup hb.length f).mpr fun p hp => Or.inl (hf.labels p hp)]

theorem effectItem_spec (predicates : String → List KeyValue) (hb : Binds op params) (hf : op.Closed f) :
    (effectItem predicates op.formula.typedParameters (bindParameters op.formula.typedParameters params) f).Ground ∧
      (effectItem predicates op.formula.typedParameters (bindParameters op.formula.typedParameters params) f).key =
        atomKey (groundFormula op.formula.typedParameters params f).atom := by
  constructor
  · refine ⟨rfl, rfl, hf.name, fun v hv => ?_⟩
    obtain ⟨⟨p, j⟩, hp, rfl⟩ := List.mem_map.mp hv
    obtain ⟨w, hw, -, -, heff⟩ := values_of_mem hb.nodup hb.length
      (hf.labels p (List.fst_mem_of_mem_zipIdx hp))
    exact fun heq => hb.values w hw (heff.symm.trans heq)
  · rw [key_eq_atomKey, (itemAtom_effectItem_iff predicates hb.nodup hb.length f).mpr fun p hp => Or.inl (hf.labels p hp)]

/-- **The preconditions** of an action are true in the knowledge base when they are true of the atoms of the plan. -/
theorem checkPreconditions_iff {operators : String → Option DomainOperator} {msg : ActionDispatch} {kb : Knowledge.State}
    (hop : operators msg.name = some op) (hparams : msg.parameters = bindParameters op.formula.typedParameters params)
    (hb : Binds op params) (hclosed : ∀ f ∈ op.atStartSimpleCondition ++ op.atStartNegCondition, op.Closed f)
    (h : Consistent kb.facts) : checkPreconditions operators kb msg = true ↔
      (∀ f ∈ op.atStartSimpleCondition, holds kb (groundFormula op.formula.typedParameters params f).atom = true) ∧
        ∀ f ∈ op.atStartNegCondition, holds kb (groundFormula op.formula.typedParameters params f).atom = false := by
  rw [List.forall_mem_append] at hclosed
  have hquery : ∀ f, op.Closed f →
      kb.query (conditionItem op.formula.typedParameters (bindParameters op.formula.typedParameters params) f) =
        holds kb (groundFormula op.formula.typedParameters params f).atom := by
    intro f hf
    obtain ⟨hground, hkey⟩ := conditionItem_spec hb hf
    rw [Bool.eq_iff_iff, Knowledge.query_ground hground h, hkey, holds, decide_eq_true_iff]
    rfl
  simp only [checkPreconditions, hop, hparams, Knowledge.State.queryKnowledge, Bool.and_eq_true, Bool.not_eq_true',
    List.all_map, List.any_map, List.all_eq_true, List.any_eq_false, Function.comp_apply]
  refine and_congr (forall₂_congr fun f hf => ?_) (forall₂_congr fun f hf => ?_)
  · rw [hquery f (hclosed.1 f hf)]
  · rw [hquery f (hclosed.2 f hf), Bool.not_eq_true]

/-- **The effects** of an action, written to the knowledge base. -/
theorem holds_effectUpdates (predicates : String → List KeyValue) {sensed : List String} {kb : Knowledge.State}
    (hb : Binds op params) (nodeType : NodeType) (now : ℕ)
    (hclosed : ∀ f ∈ op.dels nodeType ++ op.adds nodeType, op.Closed f ∧ f.name ∉ sensed) (h : Consistent kb.facts)
    (p : String × List String) :
    Consistent (kb.updateKnowledgeArray now (effectUpdates predicates sensed op
        (bindParameters op.formula.typedParameters params) nodeType)).facts ∧
      holds (kb.updateKnowledgeArray now (effectUpdates predicates sensed op
          (bindParameters op.formula.typedParameters params) nodeType)) p =
        if atomKey p ∈ (op.adds nodeType).map fun f => atomKey (groundFormula op.formula.typedParameters params f).atom then true
        else if atomKey p ∈ (op.dels nodeType).map fun f => atomKey (groundFormula op.formula.typedParameters params f).atom
        then false else holds kb p := by
  rw [List.forall_mem_append] at hclosed
  let item := effectItem predicates op.formula.typedParameters (bindParameters op.formula.typedParameters params)
  -- no effect is on a sensed predicate
  have hupdates : effectUpdates predicates sensed op (bindParameters op.formula.typedParameters params) nodeType =
      ((op.dels nodeType).map item).map (fun i => (if false then UpdateType.addKnowledge else .removeKnowledge, i)) ++
        ((op.adds nodeType).map item).map (fun i => (if true then UpdateType.addKnowledge else .removeKnowledge, i)) := by
    simp only [effectUpdates]
    rw [List.filter_eq_self.mpr (fun f hf => decide_eq_true (hclosed.1 f hf).2),
      List.filter_eq_self.mpr (fun f hf => decide_eq_true (hclosed.2 f hf).2), List.map_map, List.map_map]
    rfl
  have hspec : ∀ fs : List DomainFormula, (∀ f ∈ fs, op.Closed f ∧ f.name ∉ sensed) →
      (∀ i ∈ fs.map item, i.Ground) ∧ (∀ i ∈ fs.map item, i.initialTime = 0) ∧ (∀ i ∈ fs.map item, i.isNegative = false) ∧
        (fs.map item).map Item.key = fs.map fun f => atomKey (groundFormula op.formula.typedParameters params f).atom := by
    intro fs hfs
    simp only [List.forall_mem_map, List.map_map]
    exact ⟨fun f hf => (effectItem_spec predicates hb (hfs f hf).1).1, fun _ _ => rfl, fun _ _ => rfl,
      List.map_congr_left fun f hf => (effectItem_spec predicates hb (hfs f hf).1).2⟩
  obtain ⟨hdg, hdnow, hdneg, hdkeys⟩ := hspec _ hclosed.1
  obtain ⟨hag, hanow, haneg, hakeys⟩ := hspec _ hclosed.2
  obtain ⟨hcons, hdels⟩ := holds_updateAll (p := p) now false hdg hdnow hdneg h
  obtain ⟨hcons', hadds⟩ := holds_updateAll (p := p) now true hag hanow haneg hcons
  rw [hupdates, Knowledge.State.updateKnowledgeArray, List.foldl_append]
  refine ⟨hcons', hadds.trans ?_⟩
  rw [hakeys]
  refine if_congr Iff.rfl rfl (hdels.trans ?_)
  rw [hdkeys]

end

end DroneArch.Esterel
