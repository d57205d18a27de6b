import DroneArch.PddlDomain
import DroneArch.TextSections

/-! # The domain file

`create_domain.py` writes the sections of a PDDL domain without their contents, and fills them one by
one: the file is read, new lines are inserted after the first line with a word, and the file is
written again.

* `finds_typeLine`, `finds_skeletonLine`, `finds_requirementLine`: a line has a word if a name in it does.
* `entry_typeLine`, `entry_skeletonLine`, `entry_requirementLine`, `form_actionText`: what the new lines say. -/

namespace DroneArch.DomainFile

open SExpressions TextSections Pddl

/-- An entry of `domain.json`, as `read_json` returns it: the durations are texts. -/
abbrev Description := Domain (List Char)

/-! ### The script -/

/-- `create_domain_file`. -/
def createDomainFile (name : List Char) : List Char :=
  "(define (domain ".toList ++ name ++ ")\n".toList ++
  "\t(:requirements \n\t)\n".toList ++
  "\t(:types \n\t)\n".toList ++
  "\t(:functions \n\t)\n".toList ++
  "\t(:predicates \n\t)\n".toList ++
  "\t;actions \n\n\n)".toList

/-- `x.find(word) != -1`. -/
def finds (word : String) (x : List Char) : Bool := decide (word.toList <:+: x)

/-- What the five functions do: the file with the values after the first line with the word. -/
def addLines (word : String) (values : List (List Char)) (file : List Char) : List Char :=
  let contents := readlines file
  (insertAll values contents (indexAfter (finds word) contents)).flatten

/-- `add_requirements`: the values make up one line. -/
def addRequirements (requirements : List (List Char)) : List Char → List Char :=
  addLines "requirements" ("\t\t".toList :: requirements.map (fun r => " :".toList ++ r) ++ ["\n".toList])

def typeLine (t : Typed) : List Char := "\t\t".toList ++ t.name ++ " - ".toList ++ t.type ++ "\n".toList

/-- `add_types`. -/
def addTypes (types : List Typed) : List Char → List Char := addLines "types" (types.map typeLine)

def skeletonLine (s : Skeleton) : List Char :=
  "\t\t(".toList ++ s.name ++ s.var.flatMap (fun v => " ?".toList ++ v.name ++ " - ".toList ++ v.type) ++ ")\n".toList

/-- `add_functions`. -/
def addFunctions (functions : List Skeleton) : List Char → List Char :=
  addLines "functions" (functions.map skeletonLine)

/-- `add_predicates`. -/
def addPredicates (predicates : List Skeleton) : List Char → List Char :=
  addLines "predicates" (predicates.map skeletonLine)

/-- A condition or an effect. -/
def formulaText (c : Formula) : List Char :=
  "\n\t\t\t\t(".toList ++ (if c.isNegative then "not (".toList else []) ++ c.time ++ " (".toList ++ c.predicate ++
  c.parameters.flatMap (fun p => " ".toList ++ p) ++ (if c.isNegative then ")".toList else []) ++ "))".toList

def actionText (a : Action (List Char)) : List Char :=
  "\t(:durative-action ".toList ++ a.name ++ "\n".toList ++
  "\t\t:parameters".toList ++
  "\n\t\t\t(".toList ++
  a.parameters.flatMap (fun p => "?".toList ++ p.name ++ " - ".toList ++ p.type ++ "\n\t\t\t".toList) ++
  ")\n".toList ++
  "\t\t:duration\n".toList ++
  "\t\t\t(= duration ".toList ++ a.duration ++ ")\n".toList ++
  "\t\t:condition".toList ++
  "\n\t\t\t(and".toList ++
  a.condition.flatMap formulaText ++
  "\n\t\t\t)\n".toList ++
  "\t\t:effect".toList ++
  "\n\t\t\t(and".toList ++
  a.effect.flatMap formulaText ++
  "\n\t\t\t)\n".toList ++
  "\t)\n".toList

/-- `add_actions`. -/
def addActions (actions : List (Action (List Char))) : List Char → List Char :=
  addLines ";actions" (actions.map actionText)

/-- The main program: `domain.pddl`. -/
def domainFile (d : Description) : List Char :=
  addActions d.actions (addPredicates d.predicates (addFunctions d.functions (addTypes d.types
    (addRequirements d.requirements (createDomainFile d.name)))))

/-! ### What the file should say -/

def readDuration (a : Action (List Char)) : Option (Action Sexp) :=
  match read a.duration with
  | some [e] => some ⟨a.name, a.parameters, e, a.condition, a.effect⟩
  | _ => none

/-- The domain that is described, with its durations as expressions. -/
def described (d : Description) : Option (Domain Sexp) := do
  let actions ← d.actions.mapM readDuration
  some ⟨d.name, d.requirements, d.types, d.functions, d.predicates, actions⟩

/-- The file is a PDDL domain, and it is the one described; names are read in lower case. -/
def ParsedBack (d : Description) : Prop := ∃ D, described d = some D ∧ parse (domainFile d) = some D.lower

/-- The names are PDDL names, and each duration is one expression. -/
structure WellFormed (d : Description) : Prop where
  named : d.named isName = true
  duration : ∀ a ∈ d.actions, ∃ e, Form a.duration [e]

/-! ### Words in lines -/

/-- The names in a piece of the description. -/
def typedNames (t : Typed) : List (List Char) := [t.name, t.type]

def skeletonNames (s : Skeleton) : List (List Char) := s.name :: s.var.flatMap typedNames

/-- A word of letters, and none of those that every file starts with. -/
def Mark (word : String) : Prop :=
  word.toList ≠ [] ∧ word.toList.all Char.isAlpha = true ∧ finds word "define".toList = false ∧
    finds word "domain".toList = false

instance (word : String) : Decidable (Mark word) := inferInstanceAs (Decidable (_ ∧ _ ∧ _ ∧ _))

variable {word : String}

/-- A word is found on one side of a character that is no letter. -/
theorem Mark.finds_append (h : Mark word) {c : Char} (hc : c.isAlpha = false) (a b : List Char) :
    finds word (a ++ c :: b) = (finds word a || finds word b) := by
  have hmem : c ∉ word.toList := fun hmem => by
    rw [List.all_eq_true.mp h.2.1 c hmem] at hc
    cases hc
  unfold finds
  rw [← Bool.decide_or, decide_eq_decide]
  exact Lists.infix_append_cons hmem a b

theorem Mark.finds_nil (h : Mark word) : finds word [] = false := decide_eq_false (mt List.infix_nil.mp h.1)

theorem Mark.finds_cons (h : Mark word) {c : Char} (hc : c.isAlpha = false) (b : List Char) :
    finds word (c :: b) = finds word b := by
  have happend := h.finds_append hc [] b
  rwa [h.finds_nil, Bool.false_or] at happend

theorem Mark.finds_typeLine (h : Mark word) (t : Typed) :
    finds word (typeLine t) = (typedNames t).any (finds word) := by
  have hline : typeLine t = '\t' :: '\t' :: (t.name ++ ' ' :: '-' :: ' ' :: (t.type ++ ['\n'])) := by
    simp only [typeLine, List.append_assoc]
    rfl
  rw [hline, h.finds_cons (by decide), h.finds_cons (by decide), h.finds_append (by decide), h.finds_cons (by decide),
    h.finds_cons (by decide), h.finds_append (by decide), h.finds_nil]
  rfl

theorem Mark.finds_variables (h : Mark word) (a : List Char) (var : List Typed) (rest : List Char) {c : Char}
    (hc : c.isAlpha = false) :
    finds word (a ++ (var.flatMap (fun v => " ?".toList ++ v.name ++ " - ".toList ++ v.type) ++ c :: rest)) =
      (finds word a || ((var.flatMap typedNames).any (finds word) || finds word rest)) := by
  induction var generalizing a with
  | nil => exact h.finds_append hc a rest
  | cons v var ih =>
      have hline : a ++ ((v :: var).flatMap (fun v => " ?".toList ++ v.name ++ " - ".toList ++ v.type) ++ c :: rest) =
          a ++ ' ' :: '?' :: (v.name ++ ' ' :: '-' :: ' ' ::
            (v.type ++ (var.flatMap (fun v => " ?".toList ++ v.name ++ " - ".toList ++ v.type) ++ c :: rest))) := by
        simp only [List.flatMap_cons, List.append_assoc]
        rfl
      rw [hline, h.finds_append (by decide), h.finds_cons (by decide), h.finds_append (by decide),
        h.finds_cons (by decide), h.finds_cons (by decide), ih, List.flatMap_cons, List.any_append]
      simp only [typedNames, List.any_cons, List.any_nil, Bool.or_false, Bool.or_assoc]

theorem Mark.finds_skeletonLine (h : Mark word) (s : Skeleton) :
    finds word (skeletonLine s) = (skeletonNames s).any (finds word) := by
  have hline : skeletonLine s = '\t' :: '\t' :: '(' ::
      (s.name ++ (s.var.flatMap (fun v => " ?".toList ++ v.name ++ " - ".toList ++ v.type) ++ ')' :: ['\n'])) := by
    simp only [skeletonLine, List.append_assoc]
    rfl
  rw [hline, h.finds_cons (by decide), h.finds_cons (by decide), h.finds_cons (by decide),
    h.finds_variables _ _ _ (by decide), h.finds_cons (by decide), h.finds_nil, Bool.or_false]
  rfl

/-- The line of the requirements. -/
def requirementLine (requirements : List (List Char)) : List Char :=
  "\t\t".toList ++ requirements.flatMap (fun r => " :".toList ++ r) ++ "\n".toList

theorem Mark.finds_requirementLine (h : Mark word) (requirements : List (List Char)) :
    finds word (requirementLine requirements) = requirements.any (finds word) := by
  have hwords : ∀ a : List Char, finds word (a ++ (requirements.flatMap (fun r => " :".toList ++ r) ++ ['\n'])) =
      (finds word a || requirements.any (finds word)) := by
    induction requirements with
    | nil =>
        intro a
        rw [List.flatMap_nil, List.nil_append, h.finds_append (by decide), h.finds_nil]
        rfl
    | cons r requirements ih =>
        intro a
        have hline : a ++ ((r :: requirements).flatMap (fun r => " :".toList ++ r) ++ ['\n']) =
            a ++ ' ' :: ':' :: (r ++ (requirements.flatMap (fun r => " :".toList ++ r) ++ ['\n'])) := by
          simp only [List.flatMap_cons, List.append_assoc]
          rfl
        rw [hline, h.finds_append (by decide), h.finds_cons (by decide), ih, List.any_cons]
  have hline : requirementLine requirements =
      "\t\t".toList ++ (requirements.flatMap (fun r => " :".toList ++ r) ++ ['\n']) := List.append_assoc _ _ _
  have htabs : finds word "\t\t".toList = false :=
    (h.finds_cons (by decide) _).trans ((h.finds_cons (by decide) _).trans h.finds_nil)
  rw [hline, hwords, htabs, Bool.false_or]

/-! ### Expressions in lines -/

/-- Without the end of a line and without comments. -/
def clean (s : List Char) : Bool := s.all (fun c => c != '\n' && c != ';')

theorem clean_append (s t : List Char) : clean (s ++ t) = (clean s && clean t) := List.all_append

theorem clean_cons (c : Char) (s : List Char) : clean (c :: s) = (c != '\n' && c != ';' && clean s) := List.all_cons

theorem clean_flatMap {α : Type} {l : List α} {f : α → List Char} (h : ∀ x ∈ l, clean (f x) = true) :
    clean (l.flatMap f) = true := by
  rw [clean, List.all_flatMap]
  exact List.all_eq_true.mpr h

theorem clean_of_isName {a : List Char} (h : isName a = true) : clean a = true := by
  refine List.all_eq_true.mpr fun c hc => ?_
  have hsymbolic := isSymbolic_of_isName h c hc
  rw [Bool.and_eq_true, bne_iff_ne, bne_iff_ne]
  constructor <;> rintro rfl <;> exact absurd hsymbolic (by decide)

/-- A line without comments. -/
def CleanLine (line : List Char) : Prop := ∃ s, line = s ++ ['\n'] ∧ clean s = true

theorem CleanLine.isLine {line : List Char} (h : CleanLine line) : IsLine line := by
  obtain ⟨s, rfl, hclean⟩ := h
  refine ⟨s, fun hmem => ?_, rfl⟩
  have hc := List.all_eq_true.mp hclean _ hmem
  exact absurd hc (by decide)

theorem CleanLine.finds_actions {line : List Char} (h : CleanLine line) : finds ";actions" line = false := by
  obtain ⟨s, rfl, hclean⟩ := h
  refine decide_eq_false fun hinfix => ?_
  have hmem : ';' ∈ s ++ ['\n'] := hinfix.subset (by decide)
  rw [List.mem_append, List.mem_singleton] at hmem
  rcases hmem with hmem | hmem
  · have hc := List.all_eq_true.mp hclean _ hmem
    exact absurd hc (by decide)
  · exact absurd hmem (by decide)

/-- A line with the expressions in it. -/
def Entry (line : List Char) (xs : List Sexp) : Prop := ∃ s, line = s ++ ['\n'] ∧ clean s = true ∧ Form s xs

theorem Entry.cleanLine {line : List Char} {xs : List Sexp} (h : Entry line xs) : CleanLine line := by
  obtain ⟨s, hs, hclean, _⟩ := h
  exact ⟨s, hs, hclean⟩

theorem isSymbol_hyphen : IsSymbol ['-'] := ⟨by decide, by decide⟩

theorem entry_typeLine {t : Typed} (h : t.named isName = true) : Entry (typeLine t) (typedSexps [] [t]) := by
  obtain ⟨hname, htype⟩ := Typed.named_iff.mp h
  refine ⟨"\t\t".toList ++ t.name ++ " - ".toList ++ t.type, rfl, ?_, ?_⟩
  · rw [clean_append, clean_append, clean_append, clean_of_isName hname, clean_of_isName htype]
    decide
  · rw [List.append_assoc, List.append_assoc]
    refine .cons_space (by decide) (.cons_space (by decide) ?_)
    exact (isSymbol_of_isName hname).form_space (by decide) (isSymbol_hyphen.form_space (by decide)
      (isSymbol_of_isName htype).form)

/-- Variables after a word. -/
theorem form_variables {a : List Char} (ha : IsSymbol a) {var : List Typed} (h : ∀ v ∈ var, v.named isName = true) :
    Form (a ++ var.flatMap (fun v => " ?".toList ++ v.name ++ " - ".toList ++ v.type))
      (.atom a :: typedSexps ['?'] var) := by
  induction var generalizing a with
  | nil =>
      rw [List.flatMap_nil, List.append_nil]
      exact ha.form
  | cons v var ih =>
      rw [List.forall_mem_cons] at h
      obtain ⟨hname, htype⟩ := Typed.named_iff.mp h.1
      have hrest := ih (isSymbol_of_isName htype) h.2
      have htext : a ++ (v :: var).flatMap (fun v => " ?".toList ++ v.name ++ " - ".toList ++ v.type) =
          a ++ ' ' :: (('?' :: v.name) ++ ' ' :: (['-'] ++ ' ' ::
            (v.type ++ var.flatMap (fun v => " ?".toList ++ v.name ++ " - ".toList ++ v.type)))) := by
        simp only [List.flatMap_cons, List.append_assoc]
        rfl
      rw [htext]
      exact ha.form_space (by decide) ((isSymbol_cons (by decide) hname).form_space (by decide)
        (isSymbol_hyphen.form_space (by decide) hrest))

theorem clean_variables {var : List Typed} (h : ∀ v ∈ var, v.named isName = true) :
    clean (var.flatMap (fun v => " ?".toList ++ v.name ++ " - ".toList ++ v.type)) = true := by
  refine clean_flatMap fun v hv => ?_
  obtain ⟨hname, htype⟩ := Typed.named_iff.mp (h v hv)
  rw [clean_append, clean_append, clean_append, clean_of_isName hname, clean_of_isName htype]
  decide

theorem entry_skeletonLine {s : Skeleton} (h : s.named isName = true) : Entry (skeletonLine s) [s.sexp] := by
  rw [Skeleton.named, Bool.and_eq_true, List.all_eq_true] at h
  refine ⟨"\t\t".toList ++ '(' :: ((s.name ++
    s.var.flatMap (fun v => " ?".toList ++ v.name ++ " - ".toList ++ v.type)) ++ ')' :: []), ?_, ?_, ?_⟩
  · simp only [skeletonLine, List.append_assoc, List.cons_append, List.nil_append]
    rfl
  · rw [clean_append, clean_cons, clean_append, clean_append, clean_of_isName h.1, clean_variables h.2]
    decide
  · have hvariables := form_variables (isSymbol_of_isName h.1) h.2
    exact .cons_space (by decide) (.cons_space (by decide) (.brackets hvariables .nil))

theorem entry_requirementLine {requirements : List (List Char)} (h : ∀ r ∈ requirements, isName r = true) :
    Entry (requirementLine requirements) (requirements.map (fun r => .atom (':' :: r))) := by
  refine ⟨"\t\t".toList ++ requirements.flatMap (fun r => " :".toList ++ r), rfl, ?_, ?_⟩
  · rw [clean_append, clean_flatMap fun r hr => by rw [clean_append, clean_of_isName (h r hr)]; decide]
    decide
  · refine .cons_space (by decide) (.cons_space (by decide) ?_)
    show Form (requirements.flatMap (fun r => " :".toList ++ r)) _
    cases requirements with
    | nil => exact .nil
    | cons r requirements =>
        rw [List.forall_mem_cons] at h
        have hsymbol : ∀ r, isName r = true → IsSymbol (':' :: r) := fun r hr => isSymbol_cons (by decide) hr
        have hsymbols : ∀ w ∈ requirements.map (fun r => ':' :: r), IsSymbol w := by
          rw [List.forall_mem_map]
          exact fun r hr => hsymbol r (h.2 r hr)
        have hwords := (hsymbol r h.1).form_words hsymbols
        rw [List.flatMap_map, List.map_map] at hwords
        exact .cons_space (by decide) hwords

/-! ### Blocks of lines -/

/-- Lines, and the expressions that they add to a text. -/
def Block (lines : List (List Char)) (xs : List Sexp) : Prop :=
  ∀ t ys, Form t ys → Form (lines.flatten ++ t) (xs ++ ys)

theorem block_nil : Block [] [] := fun _ _ ht => ht

theorem Entry.block {line : List Char} {xs ys : List Sexp} {lines : List (List Char)} (h : Entry line xs)
    (hlines : Block lines ys) : Block (line :: lines) (xs ++ ys) := by
  obtain ⟨s, rfl, _, hform⟩ := h
  intro t zs ht
  rw [List.flatten_cons, List.append_assoc, List.append_assoc, List.singleton_append, List.append_assoc]
  exact .space (by decide) hform (hlines t zs ht)

theorem block_map {α : Type} {l : List α} {f : α → List Char} {g : α → List Sexp} (h : ∀ x ∈ l, Entry (f x) (g x)) :
    Block (l.map f) (l.flatMap g) := by
  induction l with
  | nil => exact block_nil
  | cons x l ih =>
      rw [List.forall_mem_cons] at h
      exact h.1.block (ih h.2)

theorem exists_block {lines : List (List Char)} (h : ∀ line ∈ lines, ∃ xs, Entry line xs) :
    ∃ xs, Block lines xs ∧ (lines = [] → xs = []) := by
  induction lines with
  | nil => exact ⟨[], block_nil, fun _ => rfl⟩
  | cons line lines ih =>
      rw [List.forall_mem_cons] at h
      obtain ⟨⟨xs, hline⟩, hlines⟩ := h
      obtain ⟨ys, hblock, _⟩ := ih hlines
      exact ⟨xs ++ ys, hline.block hblock, fun hnil => by cases hnil⟩

/-! ### The text of an action -/

/-- A condition or an effect as it is written: `not` is outside, and the parameters are no variables. -/
def writtenFormula (c : Formula) : Sexp :=
  let timed := Sexp.list ((c.time.splitOn ' ').map .atom ++ [.list (.atom c.predicate :: c.parameters.map .atom)])
  if c.isNegative then .list [keyword "not", timed] else timed

/-- An action as it is written: the duration is no variable. -/
def writtenAction (a : Action Sexp) : Sexp :=
  .list [keyword ":durative-action", .atom a.name,
    keyword ":parameters", .list (typedSexps ['?'] a.parameters),
    keyword ":duration", .list [keyword "=", keyword "duration", a.duration],
    keyword ":condition", .list (keyword "and" :: a.condition.map writtenFormula),
    keyword ":effect", .list (keyword "and" :: a.effect.map writtenFormula)]

theorem form_time {time : List Char} (h : times.contains time = true) {t : List Char} {ys : List Sexp}
    (ht : Form t ys) : Form (time ++ ' ' :: t) ((time.splitOn ' ').map .atom ++ ys) := by
  simp only [times, List.contains_eq_mem, List.mem_cons, List.not_mem_nil, or_false, decide_eq_true_eq] at h
  have hwords : ∀ w₁ w₂ : List Char, IsSymbol w₁ → IsSymbol w₂ →
      Form (w₁ ++ ' ' :: (w₂ ++ ' ' :: t)) (.atom w₁ :: .atom w₂ :: ys) := by
    intro w₁ w₂ h₁ h₂
    exact h₁.form_space (by decide) (h₂.form_space (by decide) ht)
  rcases h with rfl | rfl | rfl
  · exact hwords "at".toList "start".toList ⟨by decide, by decide⟩ ⟨by decide, by decide⟩
  · exact hwords "at".toList "end".toList ⟨by decide, by decide⟩ ⟨by decide, by decide⟩
  · exact hwords "over".toList "all".toList ⟨by decide, by decide⟩ ⟨by decide, by decide⟩

/-- `time (p ..)`. -/
def timedText (c : Formula) : List Char :=
  c.time ++ ' ' :: '(' :: ((c.predicate ++ c.parameters.flatMap (fun p => ' ' :: p)) ++ ')' :: [])

theorem form_timedText {c : Formula} (h : c.named isName = true) :
    Form (timedText c) ((c.time.splitOn ' ').map .atom ++ [.list (.atom c.predicate :: c.parameters.map .atom)]) := by
  rw [Formula.named, Bool.and_eq_true, Bool.and_eq_true, List.all_eq_true] at h
  obtain ⟨⟨htime, hp⟩, hparams⟩ := h
  have hatom := (isSymbol_of_isName hp).form_words fun p hmem => isSymbol_of_isName (hparams p hmem)
  exact form_time htime (.brackets hatom .nil)

theorem formulaText_eq (c : Formula) : formulaText c =
    "\n\t\t\t\t(".toList ++ (if c.isNegative then "not (".toList else []) ++ c.time ++ " (".toList ++ c.predicate ++
    c.parameters.flatMap (fun p => " ".toList ++ p) ++ (if c.isNegative then ")".toList else []) ++ "))".toList := rfl

/-- A condition or an effect starts on a new line. -/
theorem form_formulaText {c : Formula} (h : c.named isName = true) : ∃ s, formulaText c = '\n' :: s ∧
    ∀ {t : List Char} {ys : List Sexp}, Form t ys → Form (s ++ t) (writtenFormula c :: ys) := by
  have htabs : ∀ {s : List Char} {xs : List Sexp}, Form s xs → Form ('\t' :: '\t' :: '\t' :: '\t' :: s) xs := fun hs =>
    .cons_space (by decide) (.cons_space (by decide) (.cons_space (by decide) (.cons_space (by decide) hs)))
  cases hneg : c.isNegative with
  | true =>
      have hnot : IsSymbol "not".toList := ⟨by decide, by decide⟩
      refine ⟨'\t' :: '\t' :: '\t' :: '\t' :: '(' ::
        (("not".toList ++ ' ' :: '(' :: (timedText c ++ ')' :: [])) ++ ')' :: []), ?_, fun {t ys} ht => ?_⟩
      · rw [formulaText_eq, hneg]
        simp [timedText]
      · have hinner : Form ("not".toList ++ ' ' :: '(' :: (timedText c ++ ')' :: [])) _ :=
          hnot.form_space (by decide) (.brackets (form_timedText h) .nil)
        have hform := htabs (.brackets hinner ht)
        rw [writtenFormula, hneg, if_pos rfl, keyword]
        simpa only [List.append_assoc, List.cons_append, List.nil_append] using hform
  | false =>
      refine ⟨'\t' :: '\t' :: '\t' :: '\t' :: '(' :: (timedText c ++ ')' :: []), ?_, fun {t ys} ht => ?_⟩
      · rw [formulaText_eq, hneg]
        simp [timedText]
      · have hform := htabs (.brackets (form_timedText h) ht)
        rw [writtenFormula, hneg, if_neg (by simp)]
        simpa only [List.append_assoc, List.cons_append, List.nil_append] using hform

/-- Conditions or effects after `and`. -/
theorem form_formulas {l : List Formula} (h : ∀ c ∈ l, c.named isName = true) {t : List Char} {ys : List Sexp} (ht : Form t ys)
    {w : List Char} (hw : IsSymbol w) :
    Form (w ++ (l.flatMap formulaText ++ '\n' :: t)) (.atom w :: (l.map writtenFormula ++ ys)) := by
  have hrest : ∀ l : List Formula, (∀ c ∈ l, c.named isName = true) →
      Form (l.flatMap formulaText ++ '\n' :: t) (l.map writtenFormula ++ ys) := by
    intro l h
    induction l with
    | nil => exact .cons_space (by decide) ht
    | cons c l ih =>
        rw [List.forall_mem_cons] at h
        obtain ⟨s, hs, hform⟩ := form_formulaText h.1
        rw [List.flatMap_cons, List.append_assoc, hs]
        exact .cons_space (by decide) (hform (ih h.2))
  cases l with
  | nil => exact hw.form_space (by decide) ht
  | cons c l =>
      rw [List.forall_mem_cons] at h
      obtain ⟨s, hs, hform⟩ := form_formulaText h.1
      rw [List.flatMap_cons, List.append_assoc, hs]
      exact hw.form_space (by decide) (hform (hrest l h.2))

/-- The parameters, each with the start of the next line. -/
theorem form_parameters {l : List Typed} (h : ∀ p ∈ l, p.named isName = true) :
    Form (l.flatMap (fun p => "?".toList ++ p.name ++ " - ".toList ++ p.type ++ "\n\t\t\t".toList))
      (typedSexps ['?'] l) := by
  induction l with
  | nil => exact .nil
  | cons p l ih =>
      rw [List.forall_mem_cons] at h
      obtain ⟨hname, htype⟩ := Typed.named_iff.mp h.1
      have htext : (p :: l).flatMap (fun p => "?".toList ++ p.name ++ " - ".toList ++ p.type ++ "\n\t\t\t".toList) =
          ('?' :: p.name) ++ ' ' :: (['-'] ++ ' ' :: (p.type ++ '\n' :: '\t' :: '\t' :: '\t' ::
            l.flatMap (fun p => "?".toList ++ p.name ++ " - ".toList ++ p.type ++ "\n\t\t\t".toList))) := by
        simp only [List.flatMap_cons, List.append_assoc]
        rfl
      rw [htext]
      exact (isSymbol_cons (by decide) hname).form_space (by decide) (isSymbol_hyphen.form_space (by decide)
        ((isSymbol_of_isName htype).form_space (by decide) (.cons_space (by decide) (.cons_space (by decide)
          (.cons_space (by decide) (ih h.2))))))

theorem actionText_eq (a : Action (List Char)) (t : List Char) : actionText a ++ t =
    '\t' :: '(' :: ((":durative-action".toList ++ ' ' :: (a.name ++ '\n' :: '\t' :: '\t' :: (":parameters".toList ++
      '\n' :: '\t' :: '\t' :: '\t' :: '(' ::
        (a.parameters.flatMap (fun p => "?".toList ++ p.name ++ " - ".toList ++ p.type ++ "\n\t\t\t".toList) ++ ')' ::
      '\n' :: '\t' :: '\t' :: (":duration".toList ++ '\n' :: '\t' :: '\t' :: '\t' :: '(' ::
        (("=".toList ++ ' ' :: ("duration".toList ++ ' ' :: a.duration)) ++ ')' ::
      '\n' :: '\t' :: '\t' :: (":condition".toList ++ '\n' :: '\t' :: '\t' :: '\t' :: '(' ::
        (("and".toList ++ (a.condition.flatMap formulaText ++ '\n' :: ['\t', '\t', '\t'])) ++ ')' ::
      '\n' :: '\t' :: '\t' :: (":effect".toList ++ '\n' :: '\t' :: '\t' :: '\t' :: '(' ::
        (("and".toList ++ (a.effect.flatMap formulaText ++ '\n' :: ['\t', '\t', '\t'])) ++ ')' ::
      '\n' :: ['\t'])))))))))) ++ ')' :: '\n' :: t) := by
  unfold actionText
  simp

/-- A field of an action. -/
theorem form_field {k s t : List Char} {xs ys : List Sexp} (hk : IsSymbol k) (hs : Form s xs) (ht : Form t ys) :
    Form (k ++ '\n' :: '\t' :: '\t' :: '\t' :: '(' :: (s ++ ')' :: '\n' :: t)) (.atom k :: .list xs :: ys) :=
  hk.form_space (by decide) (.cons_space (by decide) (.cons_space (by decide) (.cons_space (by decide)
    (.brackets hs (.cons_space (by decide) ht)))))

theorem form_actionText {a : Action (List Char)} (h : a.named isName = true) {e : Sexp} (he : Form a.duration [e])
    {t : List Char} {ys : List Sexp} (ht : Form t ys) :
    Form (actionText a ++ t) (writtenAction ⟨a.name, a.parameters, e, a.condition, a.effect⟩ :: ys) := by
  simp only [Action.named, Bool.and_eq_true, List.all_eq_true] at h
  obtain ⟨⟨⟨hname, hparams⟩, hcondition⟩, heffect⟩ := h
  have htabs : ∀ {s : List Char} {xs : List Sexp}, Form s xs → Form ('\t' :: '\t' :: s) xs := fun hs =>
    .cons_space (by decide) (.cons_space (by decide) hs)
  have hspaces : Form ['\t', '\t', '\t'] [] := .cons_space (by decide) (htabs .nil)
  have hand : IsSymbol "and".toList := ⟨by decide, by decide⟩
  have hduration : Form ("=".toList ++ ' ' :: ("duration".toList ++ ' ' :: a.duration))
      [keyword "=", keyword "duration", e] :=
    IsSymbol.form_space ⟨by decide, by decide⟩ (by decide) (IsSymbol.form_space ⟨by decide, by decide⟩ (by decide) he)
  have hconditions := form_formulas hcondition hspaces hand
  have heffects := form_formulas heffect hspaces hand
  rw [List.append_nil] at hconditions heffects
  rw [actionText_eq]
  refine .cons_space (by decide) (.brackets ?_ (.cons_space (by decide) ht))
  refine IsSymbol.form_space ⟨by decide, by decide⟩ (by decide) ?_
  refine (isSymbol_of_isName hname).form_space (by decide) (htabs ?_)
  refine form_field ⟨by decide, by decide⟩ (form_parameters hparams) (htabs ?_)
  refine form_field ⟨by decide, by decide⟩ hduration (htabs ?_)
  refine form_field ⟨by decide, by decide⟩ hconditions (htabs ?_)
  exact form_field ⟨by decide, by decide⟩ heffects (.cons_space (by decide) .nil)

end DroneArch.DomainFile
