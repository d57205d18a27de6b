import DroneArch.DomainFile

/-! # The sections of the domain file

* `domainFile_eq`: where the script puts its lines.
* `read_domainFile_iff`: the lists are in their sections exactly when no name written before a section
  has the word of that section.
* `not_parsedBack`: even so the file is no PDDL domain. -/

namespace DroneArch.DomainFile

open SExpressions TextSections Pddl

variable {word : String}

/-! ### The sections of the file -/

def opening (name : List Char) (body : List (List Char)) : Passage (List Char) :=
  ⟨"(define (domain ".toList ++ name ++ ")\n".toList, body, []⟩

def part (k : String) (body : List (List Char)) : Passage (List Char) :=
  ⟨"\t(".toList ++ k.toList ++ " \n".toList, body, ["\t)\n".toList]⟩

def actionsPart (body : List (List Char)) : Passage (List Char) :=
  ⟨"\t;actions \n".toList, body, ["\n".toList, "\n".toList, ")".toList]⟩

theorem opening_items (name : List Char) (body : List (List Char)) : (opening name body).items =
    ("(define (domain ".toList ++ name ++ ")\n".toList) :: (body ++ []) := rfl

theorem part_items (k : String) (body : List (List Char)) : (part k body).items =
    ("\t(".toList ++ k.toList ++ " \n".toList) :: (body ++ ["\t)\n".toList]) := rfl

theorem actionsPart_items (body : List (List Char)) : (actionsPart body).items =
    "\t;actions \n".toList :: (body ++ ["\n".toList, "\n".toList, ")".toList]) := rfl

theorem createDomainFile_eq (name : List Char) : createDomainFile name =
    (items [opening name [], part ":requirements" [], part ":types" [], part ":functions" [], part ":predicates" [],
      actionsPart []]).flatten := by
  have hdef : createDomainFile name = "(define (domain ".toList ++ name ++ ")\n".toList ++
    "\t(:requirements \n\t)\n".toList ++
    "\t(:types \n\t)\n".toList ++
    "\t(:functions \n\t)\n".toList ++
    "\t(:predicates \n\t)\n".toList ++
    "\t;actions \n\n\n)".toList := rfl
  simp only [items, List.flatMap_cons, List.flatMap_nil, opening_items, part_items, actionsPart_items]
  rw [hdef]
  simp

/-- Sections with lines and entries only, the way that they are before the actions. -/
structure Front (parts : List (Passage (List Char))) : Prop where
  frame : ∀ f ∈ parts.map Passage.frame, CleanLine f.1 ∧ (f.2 = [] ∨ f.2 = ["\t)\n".toList])
  bodies : ∀ x ∈ bodies parts, ∃ xs, Entry x xs

theorem Front.place {p : List Char → Bool} {new : List (List Char)} {parts : List (Passage (List Char))} (h : Front parts)
    (hmarked : ¬ Unmarked p parts) (hnew : ∀ x ∈ new, ∃ xs, Entry x xs) : Front (place p new parts) where
  frame := by
    rw [map_frame_place]
    exact h.frame
  bodies := by
    intro x hx
    rcases (mem_bodies_place hmarked).mp hx with hx | hx
    · exact h.bodies x hx
    · exact hnew x hx

theorem Front.append {parts parts' : List (Passage (List Char))} (h : Front parts) (h' : Front parts') :
    Front (parts ++ parts') where
  frame := by
    rw [List.map_append, List.forall_mem_append]
    exact ⟨h.frame, h'.frame⟩
  bodies := by
    rw [TextSections.bodies, List.flatMap_append, List.forall_mem_append]
    exact ⟨h.bodies, h'.bodies⟩

theorem Front.isLine {parts : List (Passage (List Char))} (h : Front parts) : ∀ line ∈ items parts, IsLine line := by
  intro line hline
  obtain ⟨s, hs, hline⟩ := List.mem_flatMap.mp hline
  obtain ⟨hheading, hfooter⟩ := h.frame s.frame (List.mem_map_of_mem hs)
  rw [Passage.items, List.mem_cons, List.mem_append] at hline
  rcases hline with rfl | hline | hline
  · exact hheading.isLine
  · obtain ⟨xs, hentry⟩ := h.bodies line (List.mem_flatMap.mpr ⟨s, hs, hline⟩)
    exact hentry.cleanLine.isLine
  · have hclosing : IsLine "\t)\n".toList := ⟨"\t)".toList, by decide, by decide⟩
    rcases hfooter with hnil | hone
    · have hnil : s.footer = [] := hnil
      rw [hnil] at hline
      cases hline
    · have hone : s.footer = ["\t)\n".toList] := hone
      rw [hone, List.mem_singleton] at hline
      rw [hline]
      exact hclosing

theorem Front.readlines {parts : List (Passage (List Char))} (h : Front parts) :
    readlines (items (parts ++ [actionsPart []])).flatten = items (parts ++ [actionsPart []]) := by
  have hitems : items (parts ++ [actionsPart []]) =
      (items parts ++ ["\t;actions \n".toList, "\n".toList, "\n".toList]) ++ [")".toList] := by
    rw [items, List.flatMap_append, List.append_assoc]
    rfl
  have hlines : ∀ line ∈ items parts ++ ["\t;actions \n".toList, "\n".toList, "\n".toList], IsLine line := by
    rw [List.forall_mem_append]
    refine ⟨h.isLine, ?_⟩
    simp only [List.forall_mem_cons]
    have hblank : IsLine "\n".toList := ⟨[], by decide, by decide⟩
    exact ⟨⟨"\t;actions ".toList, by decide, by decide⟩, hblank, hblank, by simp⟩
  rw [hitems]
  exact readlines_flatten hlines (by decide) (by decide)

/-- The end of a section is no place for new lines. -/
theorem Front.footer {p : List Char → Bool} {parts : List (Passage (List Char))} (h : Front parts)
    (hp : p "\t)\n".toList = false) : ∀ s ∈ parts, s.footer.any p = false := by
  intro s hs
  rcases (h.frame s.frame (List.mem_map_of_mem hs)).2 with hnil | hone
  · have hnil : s.footer = [] := hnil
    rw [hnil, List.any_nil]
  · have hone : s.footer = ["\t)\n".toList] := hone
    rw [hone, List.any_cons, hp, List.any_nil, Bool.or_false]

/-- The new lines are inserted where the sections are searched. -/
theorem Front.addLines {word : String} {values new : List (List Char)} {parts rest : List (Passage (List Char))}
    (h : Front (parts ++ rest)) (hmarked : ¬ Unmarked (finds word) parts) (hvalues : values.flatten = new.flatten)
    (hfooters : ["\t)\n".toList, "\n".toList, ")".toList].any (finds word) = false) :
    addLines word values (items (parts ++ (rest ++ [actionsPart []]))).flatten =
      (items (TextSections.place (finds word) new parts ++ (rest ++ [actionsPart []]))).flatten := by
  have hreadlines := h.readlines
  rw [List.append_assoc] at hreadlines
  have hfooter : ∀ s ∈ parts ++ (rest ++ [actionsPart []]), s.footer.any (finds word) = false := by
    intro s hs
    rw [← List.append_assoc, List.mem_append, List.mem_singleton] at hs
    simp only [List.any_cons, List.any_nil, Bool.or_false, Bool.or_eq_false_iff] at hfooters
    rcases hs with hs | rfl
    · exact h.footer hfooters.1 s hs
    · show (["\n".toList, "\n".toList, ")".toList]).any (finds word) = false
      simp only [List.any_cons, List.any_nil, hfooters, Bool.or_false]
  have hmarked' : ¬ Unmarked (finds word) (parts ++ (rest ++ [actionsPart []])) :=
    fun hall => hmarked fun s hs => hall s (List.mem_append_left _ hs)
  unfold DomainFile.addLines
  simp only [hreadlines]
  rw [insertAll_indexAfter, flatten_insertAfter hvalues, insertAfter_items hfooter hmarked', place_of_marked hmarked]

/-! ### The text of the file -/

theorem flatten_items_cons (s : Passage (List Char)) (parts : List (Passage (List Char))) :
    (items (s :: parts)).flatten = s.items.flatten ++ (items parts).flatten := List.flatten_append

theorem form_part (k : String) (hk : IsSymbol k.toList) {body : List (List Char)} {xs : List Sexp} (hb : Block body xs)
    {t : List Char} {ys : List Sexp} (ht : Form t ys) :
    Form ((part k body).items.flatten ++ t) (.list (keyword k :: xs) :: ys) := by
  have htext : (part k body).items.flatten ++ t =
      '\t' :: '(' :: ((k.toList ++ ' ' :: '\n' :: (body.flatten ++ ['\t'])) ++ ')' :: '\n' :: t) := by
    rw [part_items]
    simp
  have hbody : Form (body.flatten ++ ['\t']) (xs ++ []) := hb _ _ (.cons_space (by decide) .nil)
  rw [List.append_nil] at hbody
  rw [htext]
  exact .cons_space (by decide) (.brackets (hk.form_space (by decide) (.cons_space (by decide) hbody))
    (.cons_space (by decide) ht))

theorem form_file {name : List Char} (hname : IsSymbol name) {X₀ X₁ X₂ X₃ X₄ A : List (List Char)}
    {x₀ x₁ x₂ x₃ x₄ acts : List Sexp} (h₀ : Block X₀ x₀) (h₁ : Block X₁ x₁) (h₂ : Block X₂ x₂) (h₃ : Block X₃ x₃)
    (h₄ : Block X₄ x₄) (hacts : Form (A.flatten ++ ['\n', '\n']) acts) :
    Form (items ([opening name X₀, part ":requirements" X₁, part ":types" X₂, part ":functions" X₃,
        part ":predicates" X₄] ++ [actionsPart A])).flatten
      [.list (keyword "define" :: .list [keyword "domain", .atom name] :: (x₀ ++
        .list (keyword ":requirements" :: x₁) :: .list (keyword ":types" :: x₂) :: .list (keyword ":functions" :: x₃) ::
        .list (keyword ":predicates" :: x₄) :: acts))] := by
  have hcomment : Form (['\t'] ++ ';' :: ("actions ".toList ++ '\n' :: (A.flatten ++ ['\n', '\n']))) ([] ++ acts) :=
    .comment (.cons_space (by decide) .nil) (by decide) hacts
  have hfunctions := form_part ":functions" ⟨by decide, by decide⟩ h₃
    (form_part ":predicates" ⟨by decide, by decide⟩ h₄ hcomment)
  have hparts := h₀ _ _ (form_part ":requirements" ⟨by decide, by decide⟩ h₁
    (form_part ":types" ⟨by decide, by decide⟩ h₂ hfunctions))
  have hdomain : Form ("domain".toList ++ ' ' :: name) [keyword "domain", .atom name] :=
    IsSymbol.form_space ⟨by decide, by decide⟩ (by decide) hname.form
  have hfile := Form.brackets (IsSymbol.form_space (w := "define".toList) (c := ' ') ⟨by decide, by decide⟩ (by decide)
    (.brackets hdomain (.cons_space (c := '\n') (by decide) hparts))) .nil
  have hend : (actionsPart A).items.flatten =
      ['\t'] ++ ';' :: ("actions ".toList ++ '\n' :: (A.flatten ++ ['\n', '\n'])) ++ [')'] := by
    rw [actionsPart_items]
    simp
  have hnil : (items ([] : List (Passage (List Char)))).flatten = [] := rfl
  simp only [List.cons_append, List.nil_append, flatten_items_cons, hend, hnil, opening_items]
  simpa [keyword] using hfile

/-! ### Section by section -/

/-- The file up to each section, after that section has been filled. -/
def upToRequirements (d : Description) : List (Passage (List Char)) :=
  place (finds "requirements") [requirementLine d.requirements] [opening d.name [], part ":requirements" []]

def upToTypes (d : Description) : List (Passage (List Char)) :=
  place (finds "types") (d.types.map typeLine) (upToRequirements d ++ [part ":types" []])

def upToFunctions (d : Description) : List (Passage (List Char)) :=
  place (finds "functions") (d.functions.map skeletonLine) (upToTypes d ++ [part ":functions" []])

def upToPredicates (d : Description) : List (Passage (List Char)) :=
  place (finds "predicates") (d.predicates.map skeletonLine) (upToFunctions d ++ [part ":predicates" []])

theorem front_part (k : String) (hk : clean k.toList = true) : Front [part k []] where
  frame := by
    rw [List.map_singleton, List.forall_mem_singleton]
    refine ⟨⟨"\t(".toList ++ k.toList ++ " ".toList, ?_, ?_⟩, .inr rfl⟩
    · show "\t(".toList ++ k.toList ++ " \n".toList = _
      rw [List.append_assoc _ " ".toList]
      rfl
    · rw [clean_append, clean_append, hk]
      decide
  bodies := by simp [bodies, part]

theorem front_opening {name : List Char} (h : isName name = true) : Front [opening name []] where
  frame := by
    rw [List.map_singleton, List.forall_mem_singleton]
    refine ⟨⟨"(define (domain ".toList ++ name ++ ")".toList, ?_, ?_⟩, .inl rfl⟩
    · show "(define (domain ".toList ++ name ++ ")\n".toList = _
      rw [List.append_assoc _ ")".toList]
      rfl
    · rw [clean_append, clean_append, clean_of_isName h]
      decide
  bodies := by
    have hnil : bodies [opening name []] = [] := rfl
    simp [hnil]

/-- A section is found by its own heading. -/
theorem not_unmarked {p : List Char → Bool} {k : String} (hk : p (part k []).heading = true)
    (parts : List (Passage (List Char))) : ¬ Unmarked p (parts ++ [part k []]) := by
  intro h
  have hheading := (h (part k []) (by simp)).1
  rw [hk] at hheading
  cases hheading

section stages
variable {d : Description}

theorem WellFormed.front_upToRequirements (hd : WellFormed d) : Front (upToRequirements d) := by
  obtain ⟨hname, hreq, _⟩ := Domain.named_iff.mp hd.named
  have hfront : Front [opening d.name [], part ":requirements" []] :=
    (front_opening hname).append (front_part ":requirements" (by decide))
  refine hfront.place (not_unmarked (by decide) [opening d.name []]) ?_
  rw [List.forall_mem_singleton]
  exact ⟨_, entry_requirementLine hreq⟩

theorem WellFormed.front_upToTypes (hd : WellFormed d) : Front (upToTypes d) := by
  obtain ⟨_, _, htypes, _⟩ := Domain.named_iff.mp hd.named
  have hfront := hd.front_upToRequirements.append (front_part ":types" (by decide))
  refine hfront.place (not_unmarked (by decide) _) ?_
  rw [List.forall_mem_map]
  exact fun t ht => ⟨_, entry_typeLine (htypes t ht)⟩

theorem WellFormed.front_upToFunctions (hd : WellFormed d) : Front (upToFunctions d) := by
  obtain ⟨_, _, _, hfunctions, _⟩ := Domain.named_iff.mp hd.named
  have hfront := hd.front_upToTypes.append (front_part ":functions" (by decide))
  refine hfront.place (not_unmarked (by decide) _) ?_
  rw [List.forall_mem_map]
  exact fun s hs => ⟨_, entry_skeletonLine (hfunctions s hs)⟩

theorem WellFormed.front_upToPredicates (hd : WellFormed d) : Front (upToPredicates d) := by
  obtain ⟨_, _, _, _, hpredicates, _⟩ := Domain.named_iff.mp hd.named
  have hfront := hd.front_upToFunctions.append (front_part ":predicates" (by decide))
  refine hfront.place (not_unmarked (by decide) _) ?_
  rw [List.forall_mem_map]
  exact fun s hs => ⟨_, entry_skeletonLine (hpredicates s hs)⟩

/-- One of the functions fills its section. -/
theorem Front.fill (word k : String) {new : List (List Char)} (values : List (List Char))
    {parts rest : List (Passage (List Char))} (hparts : Front parts) (hown : Front [part k []]) (hrest : Front rest)
    (hk : finds word (part k []).heading = true) (hvalues : values.flatten = new.flatten)
    (hfooters : ["\t)\n".toList, "\n".toList, ")".toList].any (finds word) = false) :
    DomainFile.addLines word values (items (parts ++ (part k [] :: rest ++ [actionsPart []]))).flatten =
      (items (TextSections.place (finds word) new (parts ++ [part k []]) ++ (rest ++ [actionsPart []]))).flatten := by
  have hfront : Front (parts ++ [part k []] ++ rest) := (hparts.append hown).append hrest
  rw [← hfront.addLines (not_unmarked hk parts) hvalues hfooters, List.append_assoc, List.singleton_append,
    List.cons_append]

/-- No section before the actions has their mark. -/
theorem Front.addActions {parts : List (Passage (List Char))} (h : Front parts) (values : List (List Char)) :
    DomainFile.addLines ";actions" values (items (parts ++ [actionsPart []])).flatten =
      (items (parts ++ [actionsPart values])).flatten := by
  have hunmarked : Unmarked (finds ";actions") parts := by
    rw [unmarked_iff]
    constructor
    · intro f hf
      have hline : CleanLine f.1 := (h.frame f hf).1
      exact hline.finds_actions
    · intro x hx
      obtain ⟨xs, hentry⟩ := h.bodies x hx
      exact hentry.cleanLine.finds_actions
  have hheading : finds ";actions" (actionsPart []).heading = true := by decide
  have hfooter : ∀ s ∈ parts ++ [actionsPart []], s.footer.any (finds ";actions") = false := by
    intro s hs
    rw [List.mem_append, List.mem_singleton] at hs
    rcases hs with hs | rfl
    · exact h.footer (by decide) s hs
    · decide
  have hmarked : ¬ Unmarked (finds ";actions") (parts ++ [actionsPart []]) := by
    intro hall
    have hlast := (hall (actionsPart []) (by simp)).1
    rw [hheading] at hlast
    cases hlast
  have hplace : TextSections.place (finds ";actions") values (parts ++ [actionsPart []]) =
      parts ++ [actionsPart (values ++ [])] := place_of_unmarked hunmarked hheading []
  unfold DomainFile.addLines
  simp only [h.readlines]
  rw [insertAll_indexAfter, insertAfter_items hfooter hmarked, hplace, List.append_nil]

theorem flatten_requirements (requirements : List (List Char)) :
    ("\t\t".toList :: requirements.map (fun r => " :".toList ++ r) ++ ["\n".toList]).flatten =
      [requirementLine requirements].flatten := by
  rw [requirementLine, List.cons_append, List.flatten_cons, List.flatten_append, List.flatten_singleton,
    List.flatten_singleton, List.append_assoc, List.flatMap]

/-- What the script computes. -/
theorem WellFormed.domainFile_eq (hd : WellFormed d) : domainFile d =
    (items (upToPredicates d ++ [actionsPart (d.actions.map actionText)])).flatten := by
  obtain ⟨hname, _⟩ := Domain.named_iff.mp hd.named
  have hrequirements := front_part ":requirements" (by decide)
  have htypes := front_part ":types" (by decide)
  have hfunctions := front_part ":functions" (by decide)
  have hpredicates := front_part ":predicates" (by decide)
  have hnil : Front [] := ⟨by simp, by simp [bodies]⟩
  have h₁ := (front_opening hname).fill "requirements" ":requirements" _ hrequirements
    (htypes.append (hfunctions.append hpredicates)) (by decide) (flatten_requirements d.requirements) (by decide)
  have h₂ := hd.front_upToRequirements.fill "types" ":types" (d.types.map typeLine) htypes
    (hfunctions.append hpredicates) (by decide) rfl (by decide)
  have h₃ := hd.front_upToTypes.fill "functions" ":functions" (d.functions.map skeletonLine) hfunctions hpredicates
    (by decide) rfl (by decide)
  have h₄ := hd.front_upToFunctions.fill "predicates" ":predicates" (d.predicates.map skeletonLine) hpredicates hnil
    (by decide) rfl (by decide)
  have hdef : domainFile d = DomainFile.addLines ";actions" (d.actions.map actionText)
      (DomainFile.addLines "predicates" (d.predicates.map skeletonLine)
      (DomainFile.addLines "functions" (d.functions.map skeletonLine)
      (DomainFile.addLines "types" (d.types.map typeLine)
      (DomainFile.addLines "requirements"
        ("\t\t".toList :: d.requirements.map (fun r => " :".toList ++ r) ++ ["\n".toList])
        (createDomainFile d.name))))) := rfl
  simp only [List.cons_append, List.nil_append] at h₁ h₂ h₃ h₄ hdef
  rw [hdef, createDomainFile_eq, h₁, ← upToRequirements, h₂, ← upToTypes, h₃, ← upToFunctions, h₄, ← upToPredicates]
  exact hd.front_upToPredicates.addActions (d.actions.map actionText)

end stages

/-! ### The names written before -/

section names
variable (d : Description)

def namesUpToRequirements : List (List Char) := d.name :: d.requirements

def namesUpToTypes : List (List Char) := namesUpToRequirements d ++ d.types.flatMap typedNames

def namesUpToFunctions : List (List Char) := namesUpToTypes d ++ d.functions.flatMap skeletonNames

/-- Each list is empty, or no name written before it has the word of its section. -/
structure Apart : Prop where
  requirements : d.requirements = [] ∨ finds "requirements" d.name = false
  types : d.types = [] ∨ ∀ n ∈ namesUpToRequirements d, finds "types" n = false
  functions : d.functions = [] ∨ ∀ n ∈ namesUpToTypes d, finds "functions" n = false
  predicates : d.predicates = [] ∨ ∀ n ∈ namesUpToFunctions d, finds "predicates" n = false

variable {d}

theorem Mark.finds_opening (h : Mark word) (name : List Char) (body : List (List Char)) :
    finds word (opening name body).heading = finds word name := by
  have hheading : (opening name body).heading = '(' :: ("define".toList ++ ' ' :: '(' :: ("domain".toList ++ ' ' ::
      (name ++ ')' :: ['\n']))) := by
    show "(define (domain ".toList ++ name ++ ")\n".toList = _
    rw [List.append_assoc]
    rfl
  rw [hheading, h.finds_cons (by decide), h.finds_append (by decide), h.2.2.1, h.finds_cons (by decide),
    h.finds_append (by decide), h.2.2.2, h.finds_append (by decide), h.finds_cons (by decide), h.finds_nil]
  simp only [Bool.false_or, Bool.or_false]

theorem unmarked_part {p : List Char → Bool} {k : String} : Unmarked p [part k []] ↔ p (part k []).heading = false := by
  rw [Unmarked, List.forall_mem_singleton]
  exact and_iff_left rfl

theorem Mark.unmarked_opening (h : Mark word) :
    Unmarked (finds word) [opening d.name []] ↔ finds word d.name = false := by
  rw [Unmarked, List.forall_mem_singleton, h.finds_opening]
  exact and_iff_left rfl

theorem Mark.unmarked_upToRequirements (h : Mark word) (hk : finds word (part ":requirements" []).heading = false) :
    Unmarked (finds word) (upToRequirements d) ↔ ∀ n ∈ namesUpToRequirements d, finds word n = false := by
  have hmarked := not_unmarked (p := finds "requirements") (k := ":requirements") (by decide) [opening d.name []]
  rw [List.singleton_append] at hmarked
  rw [upToRequirements, unmarked_place hmarked, ← List.singleton_append, unmarked_append, unmarked_part,
    h.unmarked_opening, List.forall_mem_singleton, h.finds_requirementLine, namesUpToRequirements, List.forall_mem_cons,
    List.any_eq_false]
  simp only [hk, and_true, Bool.not_eq_true]

theorem Mark.unmarked_upToTypes (h : Mark word) (hk₁ : finds word (part ":requirements" []).heading = false)
    (hk₂ : finds word (part ":types" []).heading = false) :
    Unmarked (finds word) (upToTypes d) ↔ ∀ n ∈ namesUpToTypes d, finds word n = false := by
  rw [upToTypes, unmarked_place (not_unmarked (k := ":types") (by decide) (upToRequirements d)), unmarked_append,
    unmarked_part, h.unmarked_upToRequirements hk₁, namesUpToTypes, List.forall_mem_append, List.forall_mem_map]
  simp only [hk₂, and_true, h.finds_typeLine, List.any_eq_false, Bool.not_eq_true, List.forall_mem_flatMap]

theorem Mark.unmarked_upToFunctions (h : Mark word) (hk₁ : finds word (part ":requirements" []).heading = false)
    (hk₂ : finds word (part ":types" []).heading = false) (hk₃ : finds word (part ":functions" []).heading = false) :
    Unmarked (finds word) (upToFunctions d) ↔ ∀ n ∈ namesUpToFunctions d, finds word n = false := by
  rw [upToFunctions, unmarked_place (not_unmarked (k := ":functions") (by decide) (upToTypes d)), unmarked_append,
    unmarked_part, h.unmarked_upToTypes hk₁ hk₂, namesUpToFunctions, List.forall_mem_append, List.forall_mem_map]
  simp only [hk₃, and_true, h.finds_skeletonLine, List.any_eq_false, Bool.not_eq_true, List.forall_mem_flatMap]

end names

/-! ### Sections in their places -/

section places
variable {p : List Char → Bool} {new : List (List Char)} {parts : List (Passage (List Char))} {k : String}

theorem place_part (hk : p (part k []).heading = true) (h : new = [] ∨ Unmarked p parts) :
    place p new (parts ++ [part k []]) = parts ++ [part k new] := by
  rcases h with rfl | h
  · exact place_nil
  · have hplace : place p new (parts ++ [part k []]) = parts ++ [part k (new ++ [])] := place_of_unmarked h hk []
    rw [hplace, List.append_nil]

/-- Lines that are inserted before leave the section empty. -/
theorem misplaced (h : ¬ Unmarked p parts) :
    (place p new (parts ++ [part k []]))[parts.length]? = some (part k []) := by
  rw [place_of_marked h, List.getElem?_append_right (by rw [length_place]), length_place, Nat.sub_self]
  rfl

/-- A section is left empty by what belongs to the others. -/
theorem stays_empty {i : ℕ} {rest : List (Passage (List Char))} (hi : parts[i]? = some (part k []))
    (hk : p (part k []).heading = false) : (place p new (parts ++ rest))[i]? = some (part k []) := by
  refine place_empty ?_ rfl hk
  rw [List.getElem?_append_left (List.getElem?_eq_some_iff.mp hi).1, hi]

end places

section sections
variable {d : Description}

theorem length_upToRequirements : (upToRequirements d).length = 2 := length_place

theorem length_upToTypes : (upToTypes d).length = 3 := by
  rw [upToTypes, length_place, List.length_append, length_upToRequirements]
  rfl

theorem length_upToFunctions : (upToFunctions d).length = 4 := by
  rw [upToFunctions, length_place, List.length_append, length_upToTypes]
  rfl

theorem requirements_empty (h : ¬ Unmarked (finds "requirements") [opening d.name []]) :
    (upToPredicates d)[1]? = some (part ":requirements" []) :=
  stays_empty (stays_empty (stays_empty (misplaced h) (by decide)) (by decide)) (by decide)

theorem types_empty (h : ¬ Unmarked (finds "types") (upToRequirements d)) :
    (upToPredicates d)[2]? = some (part ":types" []) := by
  have hempty : (upToTypes d)[(upToRequirements d).length]? = some (part ":types" []) := misplaced h
  rw [length_upToRequirements] at hempty
  exact stays_empty (stays_empty hempty (by decide)) (by decide)

theorem functions_empty (h : ¬ Unmarked (finds "functions") (upToTypes d)) :
    (upToPredicates d)[3]? = some (part ":functions" []) := by
  have hempty : (upToFunctions d)[(upToTypes d).length]? = some (part ":functions" []) := misplaced h
  rw [length_upToTypes] at hempty
  exact stays_empty hempty (by decide)

theorem predicates_empty (h : ¬ Unmarked (finds "predicates") (upToFunctions d)) :
    (upToPredicates d)[4]? = some (part ":predicates" []) := by
  have hempty : (upToPredicates d)[(upToFunctions d).length]? = some (part ":predicates" []) := misplaced h
  rwa [length_upToFunctions] at hempty

/-- What the five sections contain, and what is read in it. -/
structure Contents (d : Description) (X₀ X₁ X₂ X₃ X₄ : List (List Char)) (x₀ x₁ x₂ x₃ x₄ : List Sexp) : Prop where
  parts : upToPredicates d = [opening d.name X₀, part ":requirements" X₁, part ":types" X₂, part ":functions" X₃,
    part ":predicates" X₄]
  opening : Block X₀ x₀
  requirements : Block X₁ x₁
  types : Block X₂ x₂
  functions : Block X₃ x₃
  predicates : Block X₄ x₄

theorem Contents.body_nil {X₀ X₁ X₂ X₃ X₄ X : List (List Char)} {x₀ x₁ x₂ x₃ x₄ : List Sexp} {i : ℕ} {k : String}
    (h : Contents d X₀ X₁ X₂ X₃ X₄ x₀ x₁ x₂ x₃ x₄) (hempty : (upToPredicates d)[i]? = some (part k []))
    (hi : [DomainFile.opening d.name X₀, part ":requirements" X₁, part ":types" X₂, part ":functions" X₃,
      part ":predicates" X₄][i]? = some (part k X)) : X = [] := by
  rw [h.parts, hi] at hempty
  exact congrArg Passage.body (Option.some.inj hempty)

/-- If no name has the word of a later section, each list is in its section. -/
theorem Apart.contents (h : Apart d) (hd : WellFormed d) : ∃ X₀ X₁, Contents d X₀ X₁ (d.types.map typeLine)
    (d.functions.map skeletonLine) (d.predicates.map skeletonLine) [] (d.requirements.map (fun r => .atom (':' :: r)))
    (typedSexps [] d.types) (d.functions.map Skeleton.sexp) (d.predicates.map Skeleton.sexp) := by
  obtain ⟨hname, hreq, htypes, hfunctions, hpredicates, _⟩ := Domain.named_iff.mp hd.named
  have hline := (entry_requirementLine hreq).block block_nil
  rw [List.append_nil] at hline
  have hrequirements : ∃ X₀ X₁, Block X₀ [] ∧ Block X₁ (d.requirements.map (fun r => .atom (':' :: r))) ∧
      upToRequirements d = [DomainFile.opening d.name X₀, part ":requirements" X₁] := by
    cases hfinds : finds "requirements" d.name with
    | false =>
        have hunmarked : Unmarked (finds "requirements") [DomainFile.opening d.name []] :=
          (Mark.unmarked_opening (by decide)).mpr hfinds
        exact ⟨[], _, block_nil, hline, place_part (by decide) (.inr hunmarked)⟩
    | true =>
        -- an empty line stands in the place of the requirements
        have hnil := h.requirements.resolve_right (by rw [hfinds]; simp)
        rw [hnil] at hline ⊢
        refine ⟨[requirementLine []], [], hline, block_nil, ?_⟩
        rw [upToRequirements, place, if_pos ((Mark.finds_opening (by decide) _ _).trans hfinds), hnil]
        rfl
  obtain ⟨X₀, X₁, hX₀, hX₁, hparts⟩ := hrequirements
  have h₂ : upToTypes d = upToRequirements d ++ [part ":types" (d.types.map typeLine)] :=
    place_part (by decide) (h.types.imp (fun hnil => by rw [hnil]; rfl)
      (Mark.unmarked_upToRequirements (by decide) (by decide)).mpr)
  have h₃ : upToFunctions d = upToTypes d ++ [part ":functions" (d.functions.map skeletonLine)] :=
    place_part (by decide) (h.functions.imp (fun hnil => by rw [hnil]; rfl)
      (Mark.unmarked_upToTypes (by decide) (by decide) (by decide)).mpr)
  have h₄ : upToPredicates d = upToFunctions d ++ [part ":predicates" (d.predicates.map skeletonLine)] :=
    place_part (by decide) (h.predicates.imp (fun hnil => by rw [hnil]; rfl)
      (Mark.unmarked_upToFunctions (by decide) (by decide) (by decide) (by decide)).mpr)
  have hskeletons : ∀ l : List Skeleton, (∀ s ∈ l, s.named isName = true) →
      Block (l.map skeletonLine) (l.map Skeleton.sexp) := by
    intro l hl
    rw [List.map_eq_flatMap (f := Skeleton.sexp)]
    exact block_map fun s hs => entry_skeletonLine (hl s hs)
  refine ⟨X₀, X₁, ⟨?_, hX₀, hX₁, ?_, hskeletons _ hfunctions, hskeletons _ hpredicates⟩⟩
  · rw [h₄, h₃, h₂, hparts]
    rfl
  · have hblock := block_map (g := fun t => typedSexps [] [t]) fun t ht => entry_typeLine (htypes t ht)
    simpa only [typedSexps, List.flatMap_singleton] using hblock

/-- In any case each section contains something. -/
theorem WellFormed.contents (hd : WellFormed d) : ∃ X₀ X₁ X₂ X₃ X₄ x₀ x₁ x₂ x₃ x₄,
    Contents d X₀ X₁ X₂ X₃ X₄ x₀ x₁ x₂ x₃ x₄ ∧ (X₁ = [] → x₁ = []) ∧ (X₂ = [] → x₂ = []) ∧ (X₃ = [] → x₃ = []) ∧
      (X₄ = [] → x₄ = []) := by
  have hframe : (upToPredicates d).map Passage.frame = [DomainFile.opening d.name [], part ":requirements" [],
      part ":types" [], part ":functions" [], part ":predicates" []].map Passage.frame := by
    rw [upToPredicates, map_frame_place, List.map_append, upToFunctions, map_frame_place, List.map_append, upToTypes,
      map_frame_place, List.map_append, upToRequirements, map_frame_place]
    rfl
  obtain ⟨X₀, rest₁, h₀, hrest₁⟩ := exists_body hframe
  obtain ⟨X₁, rest₂, rfl, hrest₂⟩ := exists_body hrest₁
  obtain ⟨X₂, rest₃, rfl, hrest₃⟩ := exists_body hrest₂
  obtain ⟨X₃, rest₄, rfl, hrest₄⟩ := exists_body hrest₃
  obtain ⟨X₄, rest₅, rfl, hrest₅⟩ := exists_body hrest₄
  obtain rfl := List.map_eq_nil_iff.mp hrest₅
  have hentries : ∀ s ∈ upToPredicates d, ∀ line ∈ s.body, ∃ xs, Entry line xs := fun s hs line hline =>
    hd.front_upToPredicates.bodies line (List.mem_flatMap.mpr ⟨s, hs, hline⟩)
  rw [h₀] at hentries
  simp only [List.forall_mem_cons] at hentries
  obtain ⟨hX₀, hX₁, hX₂, hX₃, hX₄, _⟩ := hentries
  obtain ⟨x₀, hx₀, _⟩ := exists_block hX₀
  obtain ⟨x₁, hx₁, hnil₁⟩ := exists_block hX₁
  obtain ⟨x₂, hx₂, hnil₂⟩ := exists_block hX₂
  obtain ⟨x₃, hx₃, hnil₃⟩ := exists_block hX₃
  obtain ⟨x₄, hx₄, hnil₄⟩ := exists_block hX₄
  exact ⟨X₀, X₁, X₂, X₃, X₄, x₀, x₁, x₂, x₃, x₄, ⟨h₀, hx₀, hx₁, hx₂, hx₃, hx₄⟩, hnil₁, hnil₂, hnil₃, hnil₄⟩

/-! ### The file is parsed -/

theorem readDuration_eq {a : Action (List Char)} {e : Sexp} (he : Form a.duration [e]) :
    readDuration a = some ⟨a.name, a.parameters, e, a.condition, a.effect⟩ := by
  rw [readDuration, read_of_form he]

theorem exists_actions {l : List (Action (List Char))} (hnamed : ∀ a ∈ l, a.named isName = true)
    (hduration : ∀ a ∈ l, ∃ e, Form a.duration [e]) :
    ∃ as, l.mapM readDuration = some as ∧ Form ((l.map actionText).flatten ++ ['\n', '\n']) (as.map writtenAction) := by
  induction l with
  | nil => exact ⟨[], rfl, .cons_space (by decide) (.cons_space (by decide) .nil)⟩
  | cons a l ih =>
      rw [List.forall_mem_cons] at hnamed hduration
      obtain ⟨as, has, hform⟩ := ih hnamed.2 hduration.2
      obtain ⟨e, he⟩ := hduration.1
      refine ⟨_ :: as, Lists.mapM_cons_eq_some.mpr ⟨_, as, readDuration_eq he, has, rfl⟩, ?_⟩
      rw [List.map_cons, List.flatten_cons, List.append_assoc]
      exact form_actionText hnamed.1 he hform

/-- The duration of an action is no variable. -/
theorem action?_writtenAction (a : Action Sexp) : action? (writtenAction a) = none := by
  have hduration : duration? (.list [keyword "=", keyword "duration", a.duration]) = none := by
    have hkeyword : isKeyword "?duration" (keyword "duration") = false := by decide
    rw [duration?, hkeyword, Bool.and_false]
    rfl
  rw [writtenAction, action?, hduration]
  simp only [Option.bind_eq_bind, Option.bind_none]
  split
  · rw [Option.bind_eq_none_iff]
    exact fun _ _ => Option.bind_eq_none_iff.mpr fun _ _ => rfl
  · rfl

theorem var?_of_isName {a : List Char} (h : isName a = true) : var? (.atom a) = none := by
  cases a with
  | nil => rfl
  | cons c a =>
      have hc : c ≠ '?' := by
        rintro rfl
        exact absurd h (by simp [isName])
      unfold var?
      split
      · rename_i heq
        exact absurd (List.cons.inj (Sexp.atom.inj heq)).1 hc
      · rfl

/-- Neither is a negative condition or effect, nor one with parameters. -/
theorem formula?_writtenFormula {c : Formula} (h : c.named isName = true)
    (hc : c.isNegative = true ∨ c.parameters ≠ []) (ts : List (List Char)) : formula? ts (writtenFormula c) = none := by
  rw [Formula.named, Bool.and_eq_true, Bool.and_eq_true] at h
  obtain ⟨⟨htime, hp⟩, hparams⟩ := h
  obtain ⟨t₁, t₂, hsplit, hwords, _⟩ := splitOn_times htime
  unfold writtenFormula
  rw [hsplit]
  cases hneg : c.isNegative with
  | true => rfl
  | false =>
      obtain ⟨p, params, hparameters⟩ := List.exists_cons_of_ne_nil (hc.resolve_left (by rw [hneg]; exact Bool.false_ne_true))
      rw [hparameters, List.all_cons, Bool.and_eq_true] at hparams
      have hatom : atom? (lower (t₁ ++ ' ' :: t₂)) false (.list (.atom c.predicate :: c.parameters.map .atom)) = none := by
        rw [atom?, hparameters, List.map_cons, List.mapM_cons, var?_of_isName hparams.1, Option.bind_eq_bind,
          Option.bind_eq_none_iff]
        exact fun _ _ => rfl
      show formula? ts (.list [.atom t₁, .atom t₂, .list (.atom c.predicate :: c.parameters.map .atom)]) = none
      rw [formula?, hatom]
      · exact ite_self none
      · intro k l heq
        simp [hparameters] at heq

/-- The list that the file is read as. -/
theorem WellFormed.read_domainFile (hd : WellFormed d) {X₀ X₁ X₂ X₃ X₄ : List (List Char)}
    {x₀ x₁ x₂ x₃ x₄ : List Sexp} (h : Contents d X₀ X₁ X₂ X₃ X₄ x₀ x₁ x₂ x₃ x₄) :
    ∃ as, d.actions.mapM readDuration = some as ∧ read (domainFile d) =
      some [.list (keyword "define" :: .list [keyword "domain", .atom d.name] :: (x₀ ++
        .list (keyword ":requirements" :: x₁) :: .list (keyword ":types" :: x₂) :: .list (keyword ":functions" :: x₃) ::
        .list (keyword ":predicates" :: x₄) :: as.map writtenAction))] := by
  obtain ⟨hname, _, _, _, _, hactions⟩ := Domain.named_iff.mp hd.named
  obtain ⟨as, has, hform⟩ := exists_actions hactions hd.duration
  have hfile := form_file (isSymbol_of_isName hname) h.opening h.requirements h.types h.functions h.predicates hform
  exact ⟨as, has, by rw [hd.domainFile_eq, h.parts, read_of_form hfile]⟩

/-- The file with each list in its section, and the actions as they are written. -/
def written (d : Description) (actions : List (Action Sexp)) : Sexp :=
  .list (keyword "define" :: .list [keyword "domain", .atom d.name] ::
    .list (keyword ":requirements" :: d.requirements.map (fun r => .atom (':' :: r))) ::
    .list (keyword ":types" :: typedSexps [] d.types) ::
    .list (keyword ":functions" :: d.functions.map Skeleton.sexp) ::
    .list (keyword ":predicates" :: d.predicates.map Skeleton.sexp) :: actions.map writtenAction)

/-- The lists of the description are read, each one in its section and in its order. -/
def KeepsSections (d : Description) : Prop :=
  ∃ actions, d.actions.mapM readDuration = some actions ∧ read (domainFile d) = some [written d actions]

theorem Apart.keepsSections (h : Apart d) (hd : WellFormed d) : KeepsSections d := by
  obtain ⟨X₀, X₁, hcontents⟩ := h.contents hd
  exact hd.read_domainFile hcontents

theorem typedSexps_eq_nil {mark : List Char} {l : List Typed} (h : typedSexps mark l = []) : l = [] := by
  cases l with
  | nil => rfl
  | cons t l => cases h

theorem WellFormed.apart (hd : WellFormed d) (h : KeepsSections d) : Apart d := by
  obtain ⟨actions, hactions, hread⟩ := h
  obtain ⟨X₀, X₁, X₂, X₃, X₄, x₀, x₁, x₂, x₃, x₄, hcontents, hnil₁, hnil₂, hnil₃, hnil₄⟩ := hd.contents
  obtain ⟨as, has, hread'⟩ := hd.read_domainFile hcontents
  rw [hactions, Option.some_inj] at has
  subst has
  rw [hread'] at hread
  simp only [written, Option.some_inj, List.cons.injEq, Sexp.list.injEq, and_true, true_and] at hread
  have hopening : x₀ = [] := by
    have hlength := congrArg List.length hread
    simp only [List.length_append, List.length_cons] at hlength
    exact List.length_eq_zero_iff.mp (by omega)
  rw [hopening] at hread
  simp only [List.nil_append, List.cons.injEq, Sexp.list.injEq, true_and, and_true] at hread
  obtain ⟨h₁, h₂, h₃, h₄⟩ := hread
  refine ⟨?_, ?_, ?_, ?_⟩
  · refine or_iff_not_imp_right.mpr fun hnot => ?_
    have hempty := requirements_empty (mt (Mark.unmarked_opening (by decide)).mp hnot)
    rw [hnil₁ (hcontents.body_nil hempty rfl)] at h₁
    exact List.map_eq_nil_iff.mp h₁.symm
  · refine or_iff_not_imp_right.mpr fun hnot => ?_
    have hempty := types_empty (mt (Mark.unmarked_upToRequirements (by decide) (by decide)).mp hnot)
    rw [hnil₂ (hcontents.body_nil hempty rfl)] at h₂
    exact typedSexps_eq_nil h₂.symm
  · refine or_iff_not_imp_right.mpr fun hnot => ?_
    have hempty := functions_empty (mt (Mark.unmarked_upToTypes (by decide) (by decide) (by decide)).mp hnot)
    rw [hnil₃ (hcontents.body_nil hempty rfl)] at h₃
    exact List.map_eq_nil_iff.mp h₃.symm
  · refine or_iff_not_imp_right.mpr fun hnot => ?_
    have hempty := predicates_empty
      (mt (Mark.unmarked_upToFunctions (by decide) (by decide) (by decide) (by decide)).mp hnot)
    rw [hnil₄ (hcontents.body_nil hempty rfl)] at h₄
    exact List.map_eq_nil_iff.mp h₄.symm

/-- **Keeping the sections.**  Each list is in its section exactly when no name has the word of a later
section. -/
theorem read_domainFile_iff (hd : WellFormed d) : KeepsSections d ↔ Apart d :=
  ⟨hd.apart, fun h => h.keepsSections hd⟩

/-- The last expression of the file is no action: the predicates, or an action without a duration. -/
theorem WellFormed.parse_eq_none (hd : WellFormed d) : parse (domainFile d) = none := by
  obtain ⟨X₀, X₁, X₂, X₃, X₄, x₀, x₁, x₂, x₃, x₄, hcontents, _⟩ := hd.contents
  obtain ⟨as, _, hread⟩ := hd.read_domainFile hcontents
  rw [parse, hread]
  show domain? _ = none
  induction as using List.reverseRecOn with
  | nil =>
      have hlast : action? (.list (keyword ":predicates" :: x₄)) = none := by
        have hkeyword : isKeyword ":durative-action" (keyword ":predicates") = false := by decide
        unfold action?
        split
        · rename_i heq
          simp only [Sexp.list.injEq, List.cons.injEq] at heq
          rw [← heq.1, hkeyword]
          rfl
        · rfl
      have hnone := domain?_eq_none (k := keyword "define") (n := .list [keyword "domain", .atom d.name])
        (l := x₀ ++ [.list (keyword ":requirements" :: x₁), .list (keyword ":types" :: x₂),
          .list (keyword ":functions" :: x₃)]) hlast
      simpa only [List.append_assoc, List.cons_append, List.nil_append, List.map_nil] using hnone
  | append_singleton as a _ =>
      have hnone := domain?_eq_none (k := keyword "define") (n := .list [keyword "domain", .atom d.name])
        (l := x₀ ++ .list (keyword ":requirements" :: x₁) :: .list (keyword ":types" :: x₂) ::
          .list (keyword ":functions" :: x₃) :: .list (keyword ":predicates" :: x₄) :: as.map writtenAction)
        (action?_writtenAction a)
      simpa only [List.append_assoc, List.cons_append, List.map_append, List.map_cons, List.map_nil] using hnone

/-- **No domain.**  No description is parsed back. -/
theorem not_parsedBack (hd : WellFormed d) : ¬ ParsedBack d := by
  rintro ⟨D, _, hparse⟩
  rw [hd.parse_eq_none] at hparse
  cases hparse

end sections

/-- A part of the farm of `domain.json`. -/
def farm (actions : List (Action (List Char))) : Description :=
  ⟨"farm".toList, ["typing".toList, "durative-actions".toList, "fluents".toList],
    [⟨"rover".toList, "object".toList⟩, ⟨"region".toList, "object".toList⟩, ⟨"base".toList, "region".toList⟩],
    [⟨"battery-amount".toList, [⟨"rover".toList, "rover".toList⟩]⟩],
    [⟨"at".toList, [⟨"rover".toList, "rover".toList⟩, ⟨"region".toList, "region".toList⟩]⟩,
      ⟨"can-take-pic".toList, [⟨"rover".toList, "rover".toList⟩]⟩], actions⟩

def cleanCamera : Action (List Char) :=
  ⟨"clean_camera".toList, [⟨"rover".toList, "rover".toList⟩, ⟨"region".toList, "base".toList⟩], "8".toList,
    [⟨"over all".toList, false, "at".toList, ["rover".toList, "region".toList]⟩],
    [⟨"at start".toList, false, "can-take-pic".toList, ["rover".toList]⟩]⟩

theorem wellFormed_farm : WellFormed (farm []) := ⟨by decide +kernel, fun a ha => by cases ha⟩

/-- The lists of the farm are in their sections. -/
theorem read_domainFile_farm : KeepsSections (farm []) :=
  (read_domainFile_iff wellFormed_farm).mpr ⟨.inr (by decide +kernel), .inr (by decide +kernel),
    .inr (by decide +kernel), .inr (by decide +kernel)⟩

theorem wellFormed_cleanCamera : WellFormed (farm [cleanCamera]) := by
  have hduration : Form "8".toList [.atom "8".toList] := IsSymbol.form ⟨by decide, by decide⟩
  refine ⟨by decide +kernel, fun a ha => ?_⟩
  rw [List.mem_singleton.mp ha]
  exact ⟨_, hduration⟩

theorem not_parsedBack_farm : ¬ ParsedBack (farm [cleanCamera]) := not_parsedBack wellFormed_cleanCamera

/-- The farm with the action that cleans the camera is not parsed back. -/
theorem cleanCamera_not_parsedBack : ¬ ∀ d, WellFormed d → ParsedBack d := by
  intro hall
  obtain ⟨D, _, hparse⟩ := hall (farm [cleanCamera]) wellFormed_cleanCamera
  rw [wellFormed_cleanCamera.parse_eq_none] at hparse
  cases hparse

end DroneArch.DomainFile
