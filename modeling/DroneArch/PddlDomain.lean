import DroneArch.Lists
import DroneArch.SExpressions

/-! # PDDL domains

Domains with typed names, functions, predicates and durative actions whose conditions and effects are
conjunctions of timed literals.  `domain?` reads one as the grammar of the knowledge base does
(`pddl+.yacc` and `pddl+.lex` of `VALfiles`): names are words that are not reserved, in any case; the
sections come in any order, followed by at least one action; `:predicates` has a declaration.  What
the grammar has besides, such as constants or quantifiers, has no place in a `Domain` and is not read.
The lexer also refuses the name of a function where it asks for another name, and types without a
section `:types` are an error; neither is checked here.

* `domain?_sexp`: what PDDL writes for a domain is read back.
* `preamble?_eq_none`: nothing is read unless the last expression is an action. -/

namespace Pddl

open SExpressions

/-- A letter or an underscore, and then letters, digits, hyphens and underscores: `string` of the lexer. -/
def isName : List Char → Bool
  | [] => false
  | c :: s => (c.isAlpha || c == '_') && s.all (fun c => c.isAlphanum || c == '-' || c == '_')

theorem alphanum_of_isName {a : List Char} (h : isName a = true) : ∀ c ∈ a, c.isAlphanum = true ∨ c = '-' ∨ c = '_' := by
  cases a with
  | nil => cases h
  | cons c a =>
      rw [isName, Bool.and_eq_true, List.all_eq_true] at h
      rw [List.forall_mem_cons]
      constructor
      · have hfirst := h.1
        rw [Bool.or_eq_true, beq_iff_eq] at hfirst
        exact hfirst.imp (fun hc => by rw [Char.isAlphanum, hc, Bool.true_or]) .inr
      · intro d hd
        have hrest := h.2 d hd
        simpa only [Bool.or_eq_true, beq_iff_eq, or_assoc] using hrest

theorem isSymbolic_of_isName {a : List Char} (h : isName a = true) : ∀ c ∈ a, isSymbolic c = true := by
  intro c hmem
  have hc := alphanum_of_isName h c hmem
  by_contra hnot
  rw [Bool.not_eq_true, isSymbolic, Bool.not_eq_false'] at hnot
  simp only [Char.isWhitespace, Bool.or_eq_true, decide_eq_true_eq, beq_iff_eq] at hnot
  rcases hnot with (((((rfl | rfl) | rfl) | rfl) | rfl) | rfl) | rfl <;> revert hc <;> decide

theorem isSymbol_of_isName {a : List Char} (h : isName a = true) : IsSymbol a := by
  refine ⟨?_, List.all_eq_true.mpr (isSymbolic_of_isName h)⟩
  rintro rfl
  cases h

theorem isSymbol_cons {c : Char} {a : List Char} (hc : isSymbolic c = true) (h : isName a = true) : IsSymbol (c :: a) :=
  ⟨List.cons_ne_nil c a, List.all_eq_true.mpr (List.forall_mem_cons.mpr ⟨hc, isSymbolic_of_isName h⟩)⟩

/-! ### Domains -/

structure Typed where
  name : List Char
  type : List Char
deriving DecidableEq

/-- A function or a predicate with its variables. -/
structure Skeleton where
  name : List Char
  var : List Typed
deriving DecidableEq

/-- A condition or an effect. -/
structure Formula where
  time : List Char
  isNegative : Bool
  predicate : List Char
  parameters : List (List Char)
deriving DecidableEq

/-- A durative action, with its duration as a text or as an expression. -/
structure Action (δ : Type) where
  name : List Char
  parameters : List Typed
  duration : δ
  condition : List Formula
  effect : List Formula

structure Domain (δ : Type) where
  name : List Char
  requirements : List (List Char)
  types : List Typed
  functions : List Skeleton
  predicates : List Skeleton
  actions : List (Action δ)

/-- The times of conditions and effects. -/
def times : List (List Char) := ["at start".toList, "at end".toList, "over all".toList]

/-! ### Names in their places -/

variable (p : List Char → Bool)

def Typed.named (t : Typed) : Bool := p t.name && p t.type

def Skeleton.named (s : Skeleton) : Bool := p s.name && s.var.all (Typed.named p)

def Formula.named (f : Formula) : Bool := times.contains f.time && p f.predicate && f.parameters.all p

def Action.named {δ : Type} (a : Action δ) : Bool :=
  p a.name && a.parameters.all (Typed.named p) && a.condition.all (Formula.named p) && a.effect.all (Formula.named p)

/-- All that should be a name is one. -/
def Domain.named {δ : Type} (d : Domain δ) : Bool :=
  p d.name && d.requirements.all p && d.types.all (Typed.named p) && d.functions.all (Skeleton.named p) &&
    d.predicates.all (Skeleton.named p) && d.actions.all (Action.named p)

variable {p}

theorem Typed.named_iff {t : Typed} : t.named p = true ↔ p t.name = true ∧ p t.type = true := by
  rw [Typed.named, Bool.and_eq_true]

theorem Domain.named_iff {δ : Type} {d : Domain δ} : d.named p = true ↔ p d.name = true ∧
    (∀ r ∈ d.requirements, p r = true) ∧ (∀ t ∈ d.types, t.named p = true) ∧ (∀ s ∈ d.functions, s.named p = true) ∧
    (∀ s ∈ d.predicates, s.named p = true) ∧ ∀ a ∈ d.actions, a.named p = true := by
  simp only [Domain.named, Bool.and_eq_true, List.all_eq_true, and_assoc]

/-! ### Lower case -/

/-- The lexer takes names and keywords in any case, and returns names in lower case. -/
def lower (a : List Char) : List Char := a.map Char.toLower

def Typed.lower (t : Typed) : Typed := ⟨Pddl.lower t.name, Pddl.lower t.type⟩

def Skeleton.lower (s : Skeleton) : Skeleton := ⟨Pddl.lower s.name, s.var.map Typed.lower⟩

def Formula.lower (f : Formula) : Formula := { f with
  predicate := Pddl.lower f.predicate
  parameters := f.parameters.map Pddl.lower }

def Action.lower {δ : Type} (a : Action δ) : Action δ := { a with
  name := Pddl.lower a.name
  parameters := a.parameters.map Typed.lower
  condition := a.condition.map Formula.lower
  effect := a.effect.map Formula.lower }

def Domain.lower {δ : Type} (d : Domain δ) : Domain δ where
  name := Pddl.lower d.name
  requirements := d.requirements.map Pddl.lower
  types := d.types.map Typed.lower
  functions := d.functions.map Skeleton.lower
  predicates := d.predicates.map Skeleton.lower
  actions := d.actions.map Action.lower

/-- The words for which the lexer has a token of their own. -/
def reserved : List String :=
  ["define", "domain", "and", "or", "exists", "forall", "imply", "not", "when", "either", "problem", "minimize",
    "maximize", "is-violated", "duration", "total-time", "number", "increase", "decrease", "scale-up", "scale-down",
    "assign", "preference", "always", "sometime", "within", "at-most-once", "sometime-after", "sometime-before",
    "always-within", "hold-during", "hold-after"]

/-- The requirements of `c_require_key`, without the colon. -/
def requireKeys : List String :=
  ["equality", "strips", "typing", "negative-preconditions", "disjunctive-preconditions", "existential-preconditions",
    "universal-preconditions", "conditional-effects", "fluents", "durative-actions", "time", "action-costs",
    "object-fluents", "numeric-fluents", "adl", "quantified-preconditions", "duration-inequalities",
    "continuous-effects", "derived-predicates", "timed-initial-literals", "preferences", "constraints"]

/-! ### Writing -/

def keyword (s : String) : Sexp := .atom s.toList

/-- `x - t` for each name with its type. -/
def typedSexps (mark : List Char) (l : List Typed) : List Sexp :=
  l.flatMap (fun t => [.atom (mark ++ t.name), .atom ['-'], .atom t.type])

def Skeleton.sexp (s : Skeleton) : Sexp := .list (.atom s.name :: typedSexps ['?'] s.var)

def Formula.literal (f : Formula) : Sexp :=
  let atom := Sexp.list (.atom f.predicate :: f.parameters.map (fun p => .atom ('?' :: p)))
  if f.isNegative then .list [keyword "not", atom] else atom

def Formula.sexp (f : Formula) : Sexp := .list ((f.time.splitOn ' ').map .atom ++ [f.literal])

def Action.sexp (a : Action Sexp) : Sexp :=
  .list [keyword ":durative-action", .atom a.name,
    keyword ":parameters", .list (typedSexps ['?'] a.parameters),
    keyword ":duration", .list [keyword "=", keyword "?duration", a.duration],
    keyword ":condition", .list (keyword "and" :: a.condition.map Formula.sexp),
    keyword ":effect", .list (keyword "and" :: a.effect.map Formula.sexp)]

def Domain.sexp (d : Domain Sexp) : Sexp :=
  .list ([keyword "define", .list [keyword "domain", .atom d.name],
    .list (keyword ":requirements" :: d.requirements.map (fun r => .atom (':' :: r))),
    .list (keyword ":types" :: typedSexps [] d.types),
    .list (keyword ":functions" :: d.functions.map Skeleton.sexp),
    .list (keyword ":predicates" :: d.predicates.map Skeleton.sexp)] ++ d.actions.map Action.sexp)

/-! ### Parsing -/

def isKeyword (s : String) : Sexp → Bool
  | .atom a => lower a == lower s.toList
  | .list _ => false

/-- `NAME`. -/
def name? : Sexp → Option (List Char)
  | .atom a => if isName a && !reserved.any (fun s => s.toList == lower a) then some (lower a) else none
  | .list _ => none

/-- A variable: a name after a question mark. -/
def var? : Sexp → Option (List Char)
  | .atom ('?' :: a) => name? (.atom a)
  | _ => none

/-- `c_require_key`. -/
def requirement? : Sexp → Option (List Char)
  | .atom (':' :: a) => if requireKeys.any (fun s => s.toList == lower a) then some (lower a) else none
  | _ => none

/-- `c_typed_types` and `c_typed_var_list`: names with their types.  Those without a type are objects. -/
def typed? (item : Sexp → Option (List Char)) : List (List Char) → List Sexp → Option (List Typed)
  | pending, [] => some (pending.map (fun n => ⟨n, "object".toList⟩))
  | pending, .atom ['-'] :: t :: rest => do
      let type ← name? t
      let typed ← typed? item [] rest
      some (pending.map (fun n => ⟨n, type⟩) ++ typed)
  | pending, x :: rest => do
      let n ← item x
      typed? item (pending ++ [n]) rest

/-- `c_pred_decl`, and `c_func_decl` without its type. -/
def skeleton? : Sexp → Option Skeleton
  | .list (n :: vars) => do
      let name ← name? n
      let var ← typed? var? [] vars
      some ⟨name, var⟩
  | _ => none

/-- `c_pred_decls`: there is at least one. -/
def predicates? (l : List Sexp) : Option (List Skeleton) := if l.isEmpty then none else l.mapM skeleton?

/-- `c_func_decls`: each one may be followed by `- number`. -/
def functions? : List Sexp → Option (List Skeleton)
  | [] => some []
  | x :: .atom ['-'] :: n :: rest =>
      if isKeyword "number" n then do
        let f ← skeleton? x
        let fs ← functions? rest
        some (f :: fs)
      else none
  | x :: rest => do
      let f ← skeleton? x
      let fs ← functions? rest
      some (f :: fs)

def atom? (time : List Char) (isNegative : Bool) : Sexp → Option Formula
  | .list (n :: params) => do
      let predicate ← name? n
      let parameters ← params.mapM var?
      some ⟨time, isNegative, predicate, parameters⟩
  | _ => none

/-- `c_timed_gd` and `c_timed_effect` of a literal. -/
def formula? (times : List (List Char)) : Sexp → Option Formula
  | .list [.atom t₁, .atom t₂, .list [k, .list l]] =>
      if times.contains (lower (t₁ ++ ' ' :: t₂)) && isKeyword "not" k then
        atom? (lower (t₁ ++ ' ' :: t₂)) true (.list l)
      else none
  | .list [.atom t₁, .atom t₂, .list l] =>
      if times.contains (lower (t₁ ++ ' ' :: t₂)) then atom? (lower (t₁ ++ ' ' :: t₂)) false (.list l) else none
  | _ => none

mutual

/-- `c_da_gd` and `c_da_effect`: one literal, or a conjunction. -/
def conjunction? (times : List (List Char)) : Sexp → Option (List Formula)
  | .list (k :: l) => if isKeyword "and" k then conjunctions? times l else (formula? times (.list (k :: l))).map ([·])
  | _ => none

/-- `c_da_gds` and `c_da_effects`. -/
def conjunctions? (times : List (List Char)) : List Sexp → Option (List Formula)
  | [] => some []
  | x :: l => do
      let fs ← conjunction? times x
      let gs ← conjunctions? times l
      some (fs ++ gs)

end

/-- The times of effects. -/
def effectTimes : List (List Char) := ["at start".toList, "at end".toList]

/-- `c_duration_constraint` of a fixed duration. -/
def duration? : Sexp → Option Sexp
  | .list [eq, var, value] => if isKeyword "=" eq && isKeyword "?duration" var then some value else none
  | _ => none

/-- `c_da_def_body`: the last condition and the last effect. -/
def body? (condition effect : List Formula) : List Sexp → Option (List Formula × List Formula)
  | [] => some (condition, effect)
  | k :: x :: rest =>
      if isKeyword ":effect" k then (conjunction? effectTimes x).bind (fun effect => body? condition effect rest)
      else if isKeyword ":condition" k then (conjunction? times x).bind (fun condition => body? condition effect rest)
      else none
  | _ => none

/-- `c_durative_action_def`. -/
def action? : Sexp → Option (Action Sexp)
  | .list (k :: n :: k₁ :: .list params :: k₂ :: d :: body) =>
      if isKeyword ":durative-action" k && isKeyword ":parameters" k₁ && isKeyword ":duration" k₂ then do
        let name ← name? n
        let parameters ← typed? var? [] params
        let duration ← duration? d
        let (condition, effect) ← body? [] [] body
        some { name, parameters, duration, condition, effect }
      else none
  | _ => none

/-- A section of the preamble, as the change that it makes to the domain. -/
def declaration? : Sexp → Option (Domain Sexp → Domain Sexp)
  | .list (k :: items) =>
      if isKeyword ":requirements" k then
        (items.mapM requirement?).map (fun l d => { d with requirements := l })
      else if isKeyword ":types" k then (typed? name? [] items).map (fun l d => { d with types := l })
      else if isKeyword ":functions" k then (functions? items).map (fun l d => { d with functions := l })
      else if isKeyword ":predicates" k then (predicates? items).map (fun l d => { d with predicates := l })
      else none
  | _ => none

/-- `c_preamble`: sections, and then at least one action. -/
def preamble? (name : List Char) : List Sexp → Option (Domain Sexp)
  | [] => none
  | x :: l =>
      match declaration? x with
      | some assign => (preamble? name l).map assign
      | none => ((x :: l).mapM action?).map (fun actions => ⟨name, [], [], [], [], actions⟩)

/-- `c_domain`. -/
def domain? : Sexp → Option (Domain Sexp)
  | .list (k :: .list [k₁, n] :: l) =>
      if isKeyword "define" k && isKeyword "domain" k₁ then (name? n).bind (fun name => preamble? name l) else none
  | _ => none

/-- The domain in a text. -/
def parse (s : List Char) : Option (Domain Sexp) :=
  match read s with
  | some [x] => domain? x
  | _ => none

/-! ### What PDDL writes is read back -/

/-- A name in lower case that is not reserved. -/
def isToken (a : List Char) : Bool := isName a && lower a == a && !reserved.any (fun s => s.toList == a)

theorem isName_of_isToken {a : List Char} (h : isToken a = true) : isName a = true := by
  rw [isToken, Bool.and_eq_true, Bool.and_eq_true] at h
  exact h.1.1

@[simp] theorem isKeyword_keyword (s : String) : isKeyword s (keyword s) = true := beq_self_eq_true (lower s.toList)

theorem name?_atom {a : List Char} (h : isToken a = true) : name? (.atom a) = some a := by
  simp only [isToken, Bool.and_eq_true, beq_iff_eq] at h
  obtain ⟨⟨hname, hlower⟩, hfree⟩ := h
  rw [name?, hlower, hname, hfree]
  rfl

theorem var?_atom {a : List Char} (h : isToken a = true) : var? (.atom ('?' :: a)) = some a := name?_atom h

theorem ne_hyphen {a : List Char} (h : isName a = true) : a ≠ ['-'] := by
  rintro rfl
  revert h
  decide

theorem typed?_sexps {item : Sexp → Option (List Char)} {mark : List Char} {l : List Typed}
    (hitem : ∀ t ∈ l, item (.atom (mark ++ t.name)) = some t.name ∧ mark ++ t.name ≠ ['-'])
    (hl : l.all (Typed.named isToken) = true) : typed? item [] (typedSexps mark l) = some l := by
  induction l with
  | nil => rfl
  | cons t l ih =>
      rw [List.forall_mem_cons] at hitem
      rw [List.all_cons, Bool.and_eq_true, Typed.named, Bool.and_eq_true] at hl
      have hrest : typed? item [] (typedSexps mark l) = some l := ih hitem.2 hl.2
      have hdash : typed? item [t.name] (.atom ['-'] :: .atom t.type :: typedSexps mark l) = some (t :: l) := by
        rw [typed?, name?_atom hl.1.2, hrest]
        rfl
      rw [typedSexps, List.flatMap_cons]
      show typed? item [] (.atom (mark ++ t.name) :: .atom ['-'] :: .atom t.type :: typedSexps mark l) = some (t :: l)
      rw [typed?, hitem.1.1]
      · exact hdash
      · intro _ _ heq
        exact absurd (Sexp.atom.inj heq) hitem.1.2

theorem typed?_variables {l : List Typed} (hl : l.all (Typed.named isToken) = true) :
    typed? var? [] (typedSexps ['?'] l) = some l := by
  refine typed?_sexps (fun t ht => ⟨?_, by simp⟩) hl
  exact var?_atom (Typed.named_iff.mp (List.all_eq_true.mp hl t ht)).1

theorem typed?_names {l : List Typed} (hl : l.all (Typed.named isToken) = true) :
    typed? name? [] (typedSexps [] l) = some l := by
  refine typed?_sexps (fun t ht => ?_) hl
  obtain ⟨hname, _⟩ := Typed.named_iff.mp (List.all_eq_true.mp hl t ht)
  exact ⟨name?_atom hname, ne_hyphen (isName_of_isToken hname)⟩

theorem skeleton?_sexp {s : Skeleton} (h : s.named isToken = true) : skeleton? s.sexp = some s := by
  rw [Skeleton.named, Bool.and_eq_true] at h
  rw [Skeleton.sexp, skeleton?, name?_atom h.1, Option.bind_eq_bind, Option.bind_some, typed?_variables h.2]
  rfl

theorem functions?_sexps {l : List Skeleton} (h : ∀ s ∈ l, s.named isToken = true) :
    functions? (l.map Skeleton.sexp) = some l := by
  induction l with
  | nil => rfl
  | cons s l ih =>
      rw [List.forall_mem_cons] at h
      have hcons : functions? (s.sexp :: l.map Skeleton.sexp) = some (s :: l) := by
        rw [functions?, skeleton?_sexp h.1, ih h.2]
        · rfl
        · -- a declaration is no hyphen
          intro n rest heq
          cases l with
          | nil => cases heq
          | cons s' l => cases (List.cons.inj heq).1
      exact hcons

theorem atom?_sexp (time : List Char) (isNegative : Bool) {predicate : List Char} {parameters : List (List Char)}
    (hp : isToken predicate = true) (hparams : parameters.all isToken = true) :
    atom? time isNegative (.list (.atom predicate :: parameters.map (fun p => .atom ('?' :: p)))) =
      some ⟨time, isNegative, predicate, parameters⟩ := by
  have hmap : (parameters.map (fun p => Sexp.atom ('?' :: p))).mapM var? = some parameters :=
    Lists.mapM_map_eq_some fun p hp => var?_atom (List.all_eq_true.mp hparams p hp)
  rw [atom?, name?_atom hp, Option.bind_eq_bind, Option.bind_some, hmap]
  rfl

theorem splitOn_times {time : List Char} (h : times.contains time = true) :
    ∃ t₁ t₂, time.splitOn ' ' = [t₁, t₂] ∧ time = t₁ ++ ' ' :: t₂ ∧ lower time = time ∧ lower t₁ ≠ "and".toList := by
  simp only [times, List.contains_eq_mem, List.mem_cons, List.not_mem_nil, or_false, decide_eq_true_eq] at h
  rcases h with rfl | rfl | rfl
  · exact ⟨"at".toList, "start".toList, by decide, by decide, by decide, by decide⟩
  · exact ⟨"at".toList, "end".toList, by decide, by decide, by decide, by decide⟩
  · exact ⟨"over".toList, "all".toList, by decide, by decide, by decide, by decide⟩

theorem formula?_sexp {f : Formula} (h : f.named isToken = true) {ts : List (List Char)} (hts : ts.contains f.time = true) :
    formula? ts f.sexp = some f := by
  rw [Formula.named, Bool.and_eq_true, Bool.and_eq_true] at h
  obtain ⟨⟨htime, hp⟩, hparams⟩ := h
  obtain ⟨t₁, t₂, hsplit, hwords, hlower, _⟩ := splitOn_times htime
  have hatom := atom?_sexp f.time f.isNegative hp hparams
  rw [hwords] at hlower
  unfold Formula.sexp
  rw [hsplit]
  cases hneg : f.isNegative with
  | true =>
      rw [hneg] at hatom
      have hliteral : f.literal = .list [keyword "not",
          .list (.atom f.predicate :: f.parameters.map (fun p => .atom ('?' :: p)))] := by
        rw [Formula.literal, hneg]
        rfl
      rw [hliteral]
      show formula? ts (.list [.atom t₁, .atom t₂, .list [keyword "not", .list _]]) = _
      rw [formula?, hlower, ← hwords, hts, isKeyword_keyword]
      exact hatom.trans (by rw [← hneg])
  | false =>
      rw [hneg] at hatom
      have hliteral : f.literal = .list (.atom f.predicate :: f.parameters.map (fun p => .atom ('?' :: p))) := by
        rw [Formula.literal, hneg]
        rfl
      rw [hliteral]
      show formula? ts (.list [.atom t₁, .atom t₂, .list _]) = _
      rw [formula?, hlower, ← hwords, hts]
      · exact hatom.trans (by rw [← hneg])
      · -- the parameters are no lists
        intro k l heq
        cases hparameters : f.parameters with
        | nil => simp [hparameters] at heq
        | cons p params => simp [hparameters] at heq

theorem conjunctions?_sexps {ts : List (List Char)} {l : List Formula} (h : ∀ f ∈ l, f.named isToken = true)
    (hts : ∀ f ∈ l, ts.contains f.time = true) : conjunctions? ts (l.map Formula.sexp) = some l := by
  induction l with
  | nil => rfl
  | cons f l ih =>
      rw [List.forall_mem_cons] at h hts
      have hone : conjunction? ts f.sexp = some [f] := by
        have htime := h.1
        rw [Formula.named, Bool.and_eq_true, Bool.and_eq_true] at htime
        obtain ⟨t₁, t₂, hsplit, _, _, hand⟩ := splitOn_times htime.1.1
        have hformula := formula?_sexp h.1 hts.1
        rw [Formula.sexp, hsplit] at hformula ⊢
        have hkeyword : isKeyword "and" (.atom t₁) = false := beq_eq_false_iff_ne.mpr hand
        show conjunction? ts (.list (.atom t₁ :: .atom t₂ :: [f.literal])) = _
        rw [conjunction?, hkeyword, if_neg Bool.false_ne_true]
        exact congrArg (Option.map ([·])) hformula
      rw [List.map_cons, conjunctions?, hone, ih h.2 hts.2]
      rfl

/-- What the grammar asks of the parts of a domain. -/
structure Declared (d : Domain Sexp) : Prop where
  named : d.named isToken = true
  requirements : ∀ r ∈ d.requirements, requireKeys.any (fun s => s.toList == r) = true
  predicates : d.predicates ≠ []
  actions : d.actions ≠ []
  effectTimes : ∀ a ∈ d.actions, ∀ f ∈ a.effect, effectTimes.contains f.time = true

theorem action?_sexp {a : Action Sexp} (h : a.named isToken = true)
    (heffects : ∀ f ∈ a.effect, effectTimes.contains f.time = true) : action? a.sexp = some a := by
  simp only [Action.named, Bool.and_eq_true, List.all_eq_true] at h
  obtain ⟨⟨⟨hname, hparams⟩, hcondition⟩, heffect⟩ := h
  have htimes : ∀ f ∈ a.condition, times.contains f.time = true := fun f hf => by
    have hnamed := hcondition f hf
    rw [Formula.named, Bool.and_eq_true, Bool.and_eq_true] at hnamed
    exact hnamed.1.1
  have hbody : body? [] [] [keyword ":condition", .list (keyword "and" :: a.condition.map Formula.sexp),
      keyword ":effect", .list (keyword "and" :: a.effect.map Formula.sexp)] = some (a.condition, a.effect) := by
    have hother : isKeyword ":effect" (keyword ":condition") = false := by decide
    simp only [body?, hother, Bool.false_eq_true, if_false, isKeyword_keyword, if_true, conjunction?,
      conjunctions?_sexps hcondition htimes, conjunctions?_sexps heffect heffects, Option.bind_some]
  rw [Action.sexp, action?]
  simp [name?_atom hname, typed?_variables (List.all_eq_true.mpr hparams), duration?, hbody]

theorem preamble?_declaration {name : List Char} {x : Sexp} {assign : Domain Sexp → Domain Sexp}
    (h : declaration? x = some assign) (l : List Sexp) : preamble? name (x :: l) = (preamble? name l).map assign := by
  simp only [preamble?, h]

/-- The actions come last. -/
theorem preamble?_actions (name : List Char) {l : List (Action Sexp)} (hne : l ≠ [])
    (h : ∀ a ∈ l, action? a.sexp = some a) :
    preamble? name (l.map Action.sexp) = some ⟨name, [], [], [], [], l⟩ := by
  have hall := Lists.mapM_map_eq_some h
  cases l with
  | nil => exact absurd rfl hne
  | cons a l =>
      have hsection : declaration? a.sexp = none := rfl
      rw [List.map_cons] at hall ⊢
      simp only [preamble?, hsection, hall, Option.map_some]

/-- A drone leaves a region. -/
def takeOffDomain : Domain Sexp where
  name := "farm".toList
  requirements := ["typing".toList, "durative-actions".toList]
  types := [⟨"region".toList, "object".toList⟩]
  functions := [⟨"battery-amount".toList, []⟩]
  predicates := [⟨"at".toList, [⟨"r".toList, "region".toList⟩]⟩]
  actions :=
    [⟨"take-off".toList, [⟨"r".toList, "region".toList⟩], .atom "8".toList,
      [⟨"at start".toList, false, "at".toList, ["r".toList]⟩], [⟨"at end".toList, true, "at".toList, ["r".toList]⟩]⟩]

example : (parse ("(define (domain farm) (:predicates (at ?r - rover)) (:types rover) (:durative-action fly " ++
    ":parameters (?r - rover) :duration (= ?duration 8) :effect (at end (not (AT ?r)))))").toList).isSome = true := by
  decide +kernel

/-! ### What is not read -/

/-- Nothing is read unless the last expression is an action. -/
theorem preamble?_eq_none {name : List Char} {l : List Sexp} {x : Sexp} (hx : action? x = none) :
    preamble? name (l ++ [x]) = none := by
  have hlast : ∀ l' : List Sexp, (l' ++ [x]).mapM action? = none := by
    intro l'
    rw [Option.eq_none_iff_forall_ne_some]
    intro as has
    obtain ⟨a, _, ha⟩ := Lists.exists_mem_of_mapM has x (by simp)
    rw [hx] at ha
    cases ha
  induction l with
  | nil =>
      have hone := hlast []
      rw [List.nil_append] at hone ⊢
      unfold preamble?
      split
      · rfl
      · rw [hone]
        rfl
  | cons y l ih =>
      have hall := hlast (y :: l)
      rw [List.cons_append] at hall ⊢
      unfold preamble?
      split
      · rw [ih]
        rfl
      · rw [hall]
        rfl

theorem domain?_eq_none {k n x : Sexp} {l : List Sexp} (hx : action? x = none) :
    domain? (.list (k :: n :: (l ++ [x]))) = none := by
  unfold domain?
  split
  · rename_i heq
    simp only [Sexp.list.injEq, List.cons.injEq] at heq
    obtain ⟨_, _, rfl⟩ := heq
    split
    · rw [Option.bind_eq_none_iff]
      exact fun name _ => preamble?_eq_none hx
    · rfl
  · rfl

end Pddl
