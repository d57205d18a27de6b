import Mathlib.Data.List.Basic

/-! # S-expressions

Texts of symbols and of lists in round brackets, with comments from a semicolon to the end of the
line.  `Form` is the grammar, and `read` goes through the text once with a stack of open lists.

* `read_of_form`: what the grammar says is what is read. -/

namespace SExpressions

inductive Sexp
  | atom (name : List Char)
  | list (items : List Sexp)

/-- A character that may stand in a symbol. -/
def isSymbolic (c : Char) : Bool := !(c.isWhitespace || c == '(' || c == ')' || c == ';')

/-- A text and the expressions in it. -/
inductive Form : List Char → List Sexp → Prop
  | nil : Form [] []
  | atom {w : List Char} (hne : w ≠ []) (hw : ∀ c ∈ w, isSymbolic c = true) : Form w [.atom w]
  | space {s t : List Char} {xs ys : List Sexp} {c : Char} (hc : c.isWhitespace = true) (hs : Form s xs)
      (ht : Form t ys) : Form (s ++ c :: t) (xs ++ ys)
  | list {s t u : List Char} {xs ys zs : List Sexp} (hs : Form s xs) (ht : Form t ys) (hu : Form u zs) :
      Form (s ++ '(' :: (t ++ ')' :: u)) (xs ++ .list ys :: zs)
  | comment {s t w : List Char} {xs ys : List Sexp} (hs : Form s xs) (hw : '\n' ∉ w) (ht : Form t ys) :
      Form (s ++ ';' :: (w ++ '\n' :: t)) (xs ++ ys)

/-- A symbol. -/
def IsSymbol (w : List Char) : Prop := w ≠ [] ∧ w.all isSymbolic = true

section rules
variable {s t u w : List Char} {xs ys zs : List Sexp} {c : Char}

theorem IsSymbol.form (hw : IsSymbol w) : Form w [.atom w] := .atom hw.1 (List.all_eq_true.mp hw.2)

theorem Form.cons_space (hc : c.isWhitespace = true) (ht : Form t ys) : Form (c :: t) ys := .space hc .nil ht

theorem IsSymbol.form_space (hw : IsSymbol w) (hc : c.isWhitespace = true) (ht : Form t ys) :
    Form (w ++ c :: t) (.atom w :: ys) := .space hc hw.form ht

theorem Form.brackets (ht : Form t ys) (hu : Form u zs) : Form ('(' :: (t ++ ')' :: u)) (.list ys :: zs) :=
  .list .nil ht hu

/-- Words, each after a space. -/
theorem IsSymbol.form_words (hw : IsSymbol w) {words : List (List Char)} (hwords : ∀ v ∈ words, IsSymbol v) :
    Form (w ++ words.flatMap (fun v => ' ' :: v)) (.atom w :: words.map .atom) := by
  induction words generalizing w with
  | nil =>
      rw [List.flatMap_nil, List.append_nil]
      exact hw.form
  | cons v words ih =>
      rw [List.forall_mem_cons] at hwords
      exact hw.form_space (by decide) (ih hwords.1 hwords.2)

end rules

/-! ### The reader -/

/-- The reader: the symbol that it is in, which is empty between symbols, or a comment; the items of
the innermost open list; and those of the lists around it. -/
structure Reader where
  word : Option (List Char)
  items : List Sexp
  outer : List (List Sexp)

/-- The symbol that has just ended, if there was one. -/
def symbol (w : List Char) : List Sexp := if w = [] then [] else [.atom w]

def Reader.next (r : Reader) (c : Char) : Option Reader :=
  match r.word with
  | none => some (if c = '\n' then { r with word := some [] } else r)
  | some w =>
      if c.isWhitespace then some ⟨some [], r.items ++ symbol w, r.outer⟩
      else if c = '(' then some ⟨some [], [], (r.items ++ symbol w) :: r.outer⟩
      else if c = ')' then
        match r.outer with
        | [] => none
        | items :: outer => some ⟨some [], items ++ [.list (r.items ++ symbol w)], outer⟩
      else if c = ';' then some ⟨none, r.items ++ symbol w, r.outer⟩
      else some { r with word := some (w ++ [c]) }

/-- The expressions of a text in which all lists are closed. -/
def read (s : List Char) : Option (List Sexp) := do
  let r ← s.foldlM Reader.next ⟨some [], [], []⟩
  if r.outer.isEmpty then some (r.items ++ symbol (r.word.getD [])) else none

/-! ### The grammar is read -/

theorem foldlM_cons_some {α β : Type} {f : β → α → Option β} {a : α} {b b' : β} (h : f b a = some b') (l : List α) :
    (a :: l).foldlM f b = l.foldlM f b' := by
  rw [List.foldlM_cons, h]
  rfl

theorem foldlM_append_some {α β : Type} {f : β → α → Option β} {l : List α} {b b' : β} (h : l.foldlM f b = some b')
    (l' : List α) : (l ++ l').foldlM f b = l'.foldlM f b' := by
  rw [List.foldlM_append, h]
  rfl

section next
variable (w : List Char) (items : List Sexp) (outer : List (List Sexp))

theorem next_space {c : Char} (hc : c.isWhitespace = true) :
    Reader.next ⟨some w, items, outer⟩ c = some ⟨some [], items ++ symbol w, outer⟩ := by
  simp [Reader.next, hc]

theorem next_opening :
    Reader.next ⟨some w, items, outer⟩ '(' = some ⟨some [], [], (items ++ symbol w) :: outer⟩ := by
  simp [Reader.next, Char.isWhitespace]

theorem next_closing (around : List Sexp) :
    Reader.next ⟨some w, items, around :: outer⟩ ')' =
      some ⟨some [], around ++ [.list (items ++ symbol w)], outer⟩ := by
  simp [Reader.next, Char.isWhitespace]

theorem next_semicolon :
    Reader.next ⟨some w, items, outer⟩ ';' = some ⟨none, items ++ symbol w, outer⟩ := by
  simp [Reader.next, Char.isWhitespace]

theorem next_symbolic {c : Char} (hc : isSymbolic c = true) :
    Reader.next ⟨some w, items, outer⟩ c = some ⟨some (w ++ [c]), items, outer⟩ := by
  simp only [isSymbolic, Bool.not_eq_true', Bool.or_eq_false_iff, beq_eq_false_iff_ne] at hc
  simp [Reader.next, hc]

theorem foldlM_symbolic {s : List Char} (hs : ∀ c ∈ s, isSymbolic c = true) :
    s.foldlM Reader.next ⟨some w, items, outer⟩ = some ⟨some (w ++ s), items, outer⟩ := by
  induction s generalizing w with
  | nil =>
      rw [List.append_nil]
      rfl
  | cons c s ih =>
      rw [List.forall_mem_cons] at hs
      rw [foldlM_cons_some (next_symbolic w items outer hs.1), ih (w ++ [c]) hs.2, List.append_assoc,
        List.singleton_append]

theorem foldlM_comment {s : List Char} (hs : '\n' ∉ s) :
    s.foldlM Reader.next ⟨none, items, outer⟩ = some ⟨none, items, outer⟩ := by
  induction s with
  | nil => rfl
  | cons c s ih =>
      rw [List.mem_cons, not_or] at hs
      have hnext : Reader.next ⟨none, items, outer⟩ c = some ⟨none, items, outer⟩ := by
        simp [Reader.next, Ne.symm hs.1]
      rw [foldlM_cons_some hnext, ih hs.2]

end next

/-- Inside any list, the items of the text are read after the items before it. -/
theorem Form.foldlM {s : List Char} {xs : List Sexp} (h : Form s xs) (items : List Sexp) (outer : List (List Sexp)) :
    ∃ ys w, s.foldlM Reader.next ⟨some [], items, outer⟩ = some ⟨some w, items ++ ys, outer⟩ ∧ ys ++ symbol w = xs := by
  induction h generalizing items outer with
  | nil => exact ⟨[], [], by rw [List.append_nil]; rfl, rfl⟩
  | @atom w hne hw =>
      refine ⟨[], w, ?_, by rw [symbol, if_neg hne]; rfl⟩
      rw [foldlM_symbolic [] items outer hw, List.nil_append, List.append_nil]
  | @space s t xs ys c hc hs ht ihs iht =>
      obtain ⟨ys₁, w₁, h₁, rfl⟩ := ihs items outer
      obtain ⟨ys₂, w₂, h₂, rfl⟩ := iht (items ++ (ys₁ ++ symbol w₁)) outer
      refine ⟨ys₁ ++ symbol w₁ ++ ys₂, w₂, ?_, by rw [List.append_assoc]⟩
      rw [foldlM_append_some h₁, foldlM_cons_some (next_space w₁ _ outer hc), List.append_assoc, h₂, List.append_assoc]
  | @list s t u xs ys zs hs ht hu ihs iht ihu =>
      obtain ⟨ys₁, w₁, h₁, rfl⟩ := ihs items outer
      obtain ⟨ys₂, w₂, h₂, rfl⟩ := iht [] ((items ++ (ys₁ ++ symbol w₁)) :: outer)
      obtain ⟨ys₃, w₃, h₃, rfl⟩ := ihu (items ++ (ys₁ ++ symbol w₁) ++ [.list (ys₂ ++ symbol w₂)]) outer
      refine ⟨ys₁ ++ symbol w₁ ++ .list (ys₂ ++ symbol w₂) :: ys₃, w₃, ?_, ?_⟩
      · rw [foldlM_append_some h₁, foldlM_cons_some (next_opening w₁ _ outer), List.append_assoc, foldlM_append_some h₂,
          foldlM_cons_some (next_closing w₂ _ outer _), List.nil_append, h₃]
        simp only [List.append_assoc, List.singleton_append]
      · rw [List.append_assoc, List.cons_append]
  | @comment s t w xs ys hs hw ht ihs iht =>
      obtain ⟨ys₁, w₁, h₁, rfl⟩ := ihs items outer
      obtain ⟨ys₂, w₂, h₂, rfl⟩ := iht (items ++ (ys₁ ++ symbol w₁)) outer
      refine ⟨ys₁ ++ symbol w₁ ++ ys₂, w₂, ?_, by rw [List.append_assoc]⟩
      have hend : Reader.next ⟨none, items ++ (ys₁ ++ symbol w₁), outer⟩ '\n' =
          some ⟨some [], items ++ (ys₁ ++ symbol w₁), outer⟩ := rfl
      rw [foldlM_append_some h₁, foldlM_cons_some (next_semicolon w₁ _ outer), List.append_assoc,
        foldlM_append_some (foldlM_comment _ _ hw), foldlM_cons_some hend, h₂, List.append_assoc]

theorem read_of_form {s : List Char} {xs : List Sexp} (h : Form s xs) : read s = some xs := by
  obtain ⟨ys, w, hrun, rfl⟩ := h.foldlM [] []
  unfold read
  rw [hrun]
  rfl

end SExpressions
