import Mathlib.Data.List.Basic

/-! # Sections of a text

Lines are inserted after the first line with a mark.  A text of sections, each with a heading of its
own, is searched from its top: a mark in the heading or in the body of an earlier section is found
before that of the section's own heading.

* `insertAfter_items`, `place_of_unmarked`, `place_of_marked`: where the new lines go.
* `readlines_flatten`: lines that are written one after the other are read again. -/

namespace TextSections

/-! ### Lines -/

/-- The lines of a text, each with its end. -/
def readlines : List Char → List (List Char)
  | [] => []
  | c :: s =>
      if c = '\n' then [c] :: readlines s
      else
        match readlines s with
        | [] => [[c]]
        | line :: lines => (c :: line) :: lines

/-- A line with its end. -/
def IsLine (line : List Char) : Prop := ∃ s, '\n' ∉ s ∧ line = s ++ ['\n']

theorem readlines_cons {s : List Char} (hs : '\n' ∉ s) (t : List Char) :
    readlines (s ++ '\n' :: t) = (s ++ ['\n']) :: readlines t := by
  induction s with
  | nil => simp [readlines]
  | cons c s ih =>
      rw [List.mem_cons, not_or] at hs
      rw [List.cons_append, readlines, if_neg (Ne.symm hs.1), ih hs.2]
      rfl

theorem readlines_last {s : List Char} (hs : '\n' ∉ s) (hne : s ≠ []) : readlines s = [s] := by
  induction s with
  | nil => exact absurd rfl hne
  | cons c s ih =>
      rw [List.mem_cons, not_or] at hs
      rw [readlines, if_neg (Ne.symm hs.1)]
      cases s with
      | nil => rfl
      | cons d s => rw [ih hs.2 (List.cons_ne_nil d s)]

/-- Lines that are written one after the other are read again. -/
theorem readlines_flatten {lines : List (List Char)} (h : ∀ line ∈ lines, IsLine line) {last : List Char}
    (hlast : '\n' ∉ last) (hne : last ≠ []) : readlines (lines ++ [last]).flatten = lines ++ [last] := by
  induction lines with
  | nil =>
      rw [List.nil_append, List.flatten_singleton]
      exact readlines_last hlast hne
  | cons line lines ih =>
      rw [List.forall_mem_cons] at h
      obtain ⟨⟨s, hs, rfl⟩, hrest⟩ := h
      rw [List.cons_append, List.flatten_cons, List.append_assoc, List.singleton_append, readlines_cons hs, ih hrest]

/-! ### Insertion -/

section insertion
variable {α : Type*} (p : α → Bool) (new : List α)

/-- The number of elements up to the first marked one, and of all if there is none. -/
def indexAfter : List α → ℕ
  | [] => 0
  | x :: l => if p x then 1 else indexAfter l + 1

/-- New elements are inserted one by one, from an index on. -/
def insertAll (l : List α) (index : ℕ) : List α := (new.foldl (fun s x => (s.1.insertIdx s.2 x, s.2 + 1)) (l, index)).1

/-- New elements after the first marked one. -/
def insertAfter : List α → List α
  | [] => new
  | x :: l => if p x then x :: (new ++ l) else x :: insertAfter l

variable {p new}

theorem insertIdx_append_length (l l' : List α) (x : α) : (l ++ l').insertIdx l.length x = l ++ x :: l' := by
  induction l with
  | nil => rw [List.nil_append, List.length_nil, List.insertIdx_zero, List.nil_append]
  | cons y l ih => rw [List.cons_append, List.length_cons, List.insertIdx_succ_cons, ih, List.cons_append]

theorem insertAll_append (l l' : List α) : insertAll new (l ++ l') l.length = l ++ (new ++ l') := by
  unfold insertAll
  induction new generalizing l with
  | nil => rfl
  | cons x new ih =>
      have hih := ih (l ++ [x])
      rw [List.length_append, List.length_singleton] at hih
      rw [List.foldl_cons, insertIdx_append_length, List.append_cons, hih, List.append_assoc]
      rfl

/-- The loop of insertions, written as a recursion. -/
theorem insertAll_indexAfter (l : List α) : insertAll new l (indexAfter p l) = insertAfter p new l := by
  have hsplit : ∃ l₁ l₂, l = l₁ ++ l₂ ∧ indexAfter p l = l₁.length ∧ insertAfter p new l = l₁ ++ (new ++ l₂) := by
    induction l with
    | nil => exact ⟨[], [], rfl, rfl, by rw [insertAfter, List.nil_append, List.append_nil]⟩
    | cons x l ih =>
        by_cases hx : p x = true
        · exact ⟨[x], l, rfl, by rw [indexAfter, if_pos hx]; rfl, by rw [insertAfter, if_pos hx]; rfl⟩
        · obtain ⟨l₁, l₂, rfl, hindex, hinsert⟩ := ih
          refine ⟨x :: l₁, l₂, rfl, ?_, ?_⟩
          · rw [indexAfter, if_neg hx, hindex, List.length_cons]
          · rw [insertAfter, if_neg hx, hinsert, List.cons_append]
  obtain ⟨l₁, l₂, rfl, hindex, hinsert⟩ := hsplit
  rw [hindex, hinsert, insertAll_append]

theorem mem_insertAfter {l : List α} {x : α} : x ∈ insertAfter p new l ↔ x ∈ l ∨ x ∈ new := by
  induction l with
  | nil => simp [insertAfter]
  | cons y l ih =>
      unfold insertAfter
      split
      · simp only [List.mem_cons, List.mem_append]
        tauto
      · simp only [List.mem_cons, ih]
        tauto

theorem insertAfter_append_of_any {l : List α} (h : l.any p = true) (l' : List α) :
    insertAfter p new (l ++ l') = insertAfter p new l ++ l' := by
  induction l with
  | nil => simp at h
  | cons x l ih =>
      rw [List.cons_append, insertAfter, insertAfter]
      by_cases hx : p x = true
      · rw [if_pos hx, if_pos hx, List.cons_append, List.append_assoc]
      · rw [List.any_cons, Bool.or_eq_true] at h
        rw [if_neg hx, if_neg hx, ih (h.resolve_left hx), List.cons_append]

theorem insertAfter_append_of_not_any {l : List α} (h : l.any p = false) (l' : List α) :
    insertAfter p new (l ++ l') = l ++ insertAfter p new l' := by
  induction l with
  | nil => rfl
  | cons x l ih =>
      rw [List.any_cons, Bool.or_eq_false_iff] at h
      rw [List.cons_append, insertAfter, if_neg (by rw [h.1]; simp), ih h.2, List.cons_append]

theorem flatten_insertAfter {p : List α → Bool} {new new' : List (List α)} (h : new.flatten = new'.flatten)
    (l : List (List α)) : (insertAfter p new l).flatten = (insertAfter p new' l).flatten := by
  induction l with
  | nil => exact h
  | cons x l ih =>
      unfold insertAfter
      split
      · rw [List.flatten_cons, List.flatten_cons, List.flatten_append, List.flatten_append, h]
      · rw [List.flatten_cons, List.flatten_cons, ih]

end insertion

/-! ### Sections -/

/-- A heading, what has been inserted below it, and what ends the section. -/
structure Passage (α : Type*) where
  heading : α
  body : List α
  footer : List α

section parts
variable {α : Type*}

def Passage.items (s : Passage α) : List α := s.heading :: (s.body ++ s.footer)

def items (parts : List (Passage α)) : List α := parts.flatMap Passage.items

/-- What has been inserted. -/
def bodies (parts : List (Passage α)) : List α := parts.flatMap Passage.body

/-- What does not change. -/
def Passage.frame (s : Passage α) : α × List α := (s.heading, s.footer)

variable (p : α → Bool) (new : List α)

/-- New elements after the first marked one, which is a heading or in a body. -/
def place : List (Passage α) → List (Passage α)
  | [] => []
  | s :: parts =>
      if p s.heading then { s with body := new ++ s.body } :: parts
      else if s.body.any p then { s with body := insertAfter p new s.body } :: parts
      else s :: place parts

/-- No heading and no body has a mark. -/
def Unmarked (parts : List (Passage α)) : Prop := ∀ s ∈ parts, p s.heading = false ∧ s.body.any p = false

variable {p new} {parts : List (Passage α)}

theorem not_unmarked_nil : ¬ ¬ Unmarked p [] := fun h => h fun s hs => by cases hs

theorem not_unmarked_tail {s : Passage α} (h : ¬ Unmarked p (s :: parts)) (hheading : ¬ p s.heading = true)
    (hbody : ¬ s.body.any p = true) : ¬ Unmarked p parts := by
  intro hparts
  refine h fun t ht => ?_
  rcases List.mem_cons.mp ht with rfl | ht
  · exact ⟨Bool.eq_false_iff.mpr hheading, Bool.eq_false_iff.mpr hbody⟩
  · exact hparts t ht

theorem insertAfter_items (hfooter : ∀ s ∈ parts, s.footer.any p = false) (hmarked : ¬ Unmarked p parts) :
    insertAfter p new (items parts) = items (place p new parts) := by
  induction parts with
  | nil => exact absurd hmarked not_unmarked_nil
  | cons s parts ih =>
      rw [List.forall_mem_cons] at hfooter
      rw [items, List.flatMap_cons, Passage.items, List.cons_append, insertAfter, place]
      by_cases hheading : p s.heading = true
      · rw [if_pos hheading, if_pos hheading, items, List.flatMap_cons, Passage.items, List.cons_append]
        simp only [List.append_assoc]
      · rw [if_neg hheading, if_neg hheading]
        by_cases hbody : s.body.any p = true
        · rw [if_pos hbody, List.append_assoc, insertAfter_append_of_any hbody, items, List.flatMap_cons, Passage.items,
            List.cons_append, List.append_assoc]
        · have hrest := not_unmarked_tail hmarked hheading hbody
          rw [if_neg hbody, List.append_assoc, insertAfter_append_of_not_any (Bool.eq_false_iff.mpr hbody),
            insertAfter_append_of_not_any hfooter.1, ← items, ih hfooter.2 hrest, items, items, List.flatMap_cons,
            Passage.items, List.cons_append, List.append_assoc]

theorem place_of_unmarked {s : Passage α} (hfree : Unmarked p parts) (hs : p s.heading = true) (rest : List (Passage α)) :
    place p new (parts ++ s :: rest) = parts ++ { s with body := new ++ s.body } :: rest := by
  induction parts with
  | nil => rw [List.nil_append, List.nil_append, place, if_pos hs]
  | cons t parts ih =>
      unfold Unmarked at hfree
      rw [List.forall_mem_cons] at hfree
      rw [List.cons_append, place, hfree.1.1, if_neg (by simp), hfree.1.2, if_neg (by simp), ih hfree.2,
        List.cons_append]

theorem place_of_marked (hmarked : ¬ Unmarked p parts) (rest : List (Passage α)) :
    place p new (parts ++ rest) = place p new parts ++ rest := by
  induction parts with
  | nil => exact absurd hmarked not_unmarked_nil
  | cons t parts ih =>
      rw [List.cons_append, place, place]
      split
      · rfl
      · next hheading =>
          split
          · rfl
          · next hbody =>
              rw [ih (not_unmarked_tail hmarked hheading hbody), List.cons_append]

/-- An empty section without a mark stays empty. -/
theorem place_empty {i : ℕ} {s : Passage α} (hi : parts[i]? = some s) (hbody : s.body = []) (hs : p s.heading = false) :
    (place p new parts)[i]? = some s := by
  induction parts generalizing i with
  | nil => cases hi
  | cons t parts ih =>
      unfold place
      cases i with
      | zero =>
          cases hi
          rw [hs, if_neg (by simp), hbody, if_neg (by simp)]
          rfl
      | succ i =>
          rw [List.getElem?_cons_succ] at hi
          split
          · rw [List.getElem?_cons_succ, hi]
          · split
            · rw [List.getElem?_cons_succ, hi]
            · rw [List.getElem?_cons_succ, ih hi]

theorem map_frame_place : (place p new parts).map Passage.frame = parts.map Passage.frame := by
  induction parts with
  | nil => rfl
  | cons t parts ih =>
      unfold place
      split
      · rfl
      · split
        · rfl
        · rw [List.map_cons, ih, List.map_cons]

theorem mem_bodies_place (hmarked : ¬ Unmarked p parts) {x : α} :
    x ∈ bodies (place p new parts) ↔ x ∈ bodies parts ∨ x ∈ new := by
  induction parts with
  | nil => exact absurd hmarked not_unmarked_nil
  | cons t parts ih =>
      unfold place
      split
      · simp only [bodies, List.flatMap_cons, List.mem_append]
        tauto
      · next hheading =>
          split
          · simp only [bodies, List.flatMap_cons, List.mem_append, mem_insertAfter]
            tauto
          · next hbody =>
              have hih := ih (not_unmarked_tail hmarked hheading hbody)
              simp only [bodies, List.flatMap_cons, List.mem_append] at hih ⊢
              rw [hih]
              tauto

theorem length_place : (place p new parts).length = parts.length := by
  have hframe := congrArg List.length (map_frame_place : (place p new parts).map Passage.frame = parts.map Passage.frame)
  rwa [List.length_map, List.length_map] at hframe

theorem unmarked_iff : Unmarked p parts ↔
    (∀ f ∈ parts.map Passage.frame, p f.1 = false) ∧ ∀ x ∈ bodies parts, p x = false := by
  constructor
  · intro h
    refine ⟨?_, fun x hx => ?_⟩
    · rw [List.forall_mem_map]
      exact fun s hs => (h s hs).1
    · obtain ⟨s, hs, hx⟩ := List.mem_flatMap.mp hx
      exact Bool.eq_false_iff.mpr (List.any_eq_false.mp (h s hs).2 x hx)
  · intro h s hs
    refine ⟨h.1 s.frame (List.mem_map_of_mem hs), List.any_eq_false.mpr fun x hx => ?_⟩
    exact Bool.eq_false_iff.mp (h.2 x (List.mem_flatMap.mpr ⟨s, hs, hx⟩))

theorem unmarked_append {parts' : List (Passage α)} :
    Unmarked p (parts ++ parts') ↔ Unmarked p parts ∧ Unmarked p parts' :=
  List.forall_mem_append

/-- The marks are those of the new elements and those from before. -/
theorem unmarked_place {q : α → Bool} (hmarked : ¬ Unmarked p parts) :
    Unmarked q (place p new parts) ↔ Unmarked q parts ∧ ∀ x ∈ new, q x = false := by
  rw [unmarked_iff, unmarked_iff, map_frame_place, and_assoc]
  refine and_congr_right fun _ => ?_
  constructor
  · intro h
    exact ⟨fun x hx => h x ((mem_bodies_place hmarked).mpr (.inl hx)),
      fun x hx => h x ((mem_bodies_place hmarked).mpr (.inr hx))⟩
  · rintro ⟨hbodies, hnew⟩ x hx
    exact ((mem_bodies_place hmarked).mp hx).elim (hbodies x) (hnew x)

/-- What stands in the place of a section. -/
theorem exists_body {f : α × List α} {fs : List (α × List α)} (h : parts.map Passage.frame = f :: fs) :
    ∃ body rest, parts = ⟨f.1, body, f.2⟩ :: rest ∧ rest.map Passage.frame = fs := by
  obtain ⟨s, rest, rfl, rfl, hrest⟩ := List.map_eq_cons_iff.mp h
  exact ⟨s.body, rest, rfl, hrest⟩

/-- Nothing new changes nothing. -/
theorem place_nil : place p [] parts = parts := by
  have hinsert : ∀ l : List α, insertAfter p [] l = l := by
    intro l
    induction l with
    | nil => rfl
    | cons x l ih =>
        unfold insertAfter
        split
        · rfl
        · rw [ih]
  induction parts with
  | nil => rfl
  | cons t parts ih =>
      unfold place
      split
      · rfl
      · split
        · rw [hinsert]
        · rw [ih]

end parts

end TextSections
