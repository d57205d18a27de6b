import Mathlib.Algebra.BigOperators.Group.List.Basic
import Mathlib.Algebra.Order.Group.Defs
import Mathlib.Data.List.Sort

/-! # Comparing lists by their sorted entries

`Below l l'` says that the entries of `l`, sorted, are at most those of `l'`, one by one.  It does not depend
on the order in the lists.

* `below_of_forall₂`: sorting keeps an order of the entries.
* `below_replace`: an entry that is replaced by a smaller one, at another place of the list.
* `Below.min?`: the least entry. -/

namespace SortedLists

variable {α : Type*} [LinearOrder α]

/-- The sorted entries are at most those of the other list. -/
def Below (l l' : List α) : Prop :=
  List.Forall₂ (· ≤ ·) (l.insertionSort (· ≤ ·)) (l'.insertionSort (· ≤ ·))

theorem forall₂_le_refl (l : List α) : List.Forall₂ (· ≤ ·) l l := List.forall₂_same.mpr fun _ _ => le_rfl

theorem forall₂_le_trans {l l' l'' : List α} (h : List.Forall₂ (· ≤ ·) l l') (h' : List.Forall₂ (· ≤ ·) l' l'') :
    List.Forall₂ (· ≤ ·) l l'' := by
  induction h generalizing l'' with
  | nil => exact h'
  | cons hab _ ih =>
      cases h' with
      | cons hbc htail => exact .cons (hab.trans hbc) (ih htail)

theorem Below.refl (l : List α) : Below l l := forall₂_le_refl _

theorem Below.trans {l l' l'' : List α} (h : Below l l') (h' : Below l' l'') : Below l l'' := forall₂_le_trans h h'

theorem insertionSort_congr {l l' : List α} (h : List.Perm l l') :
    l.insertionSort (· ≤ ·) = l'.insertionSort (· ≤ ·) := by
  have hperm : List.Perm (l.insertionSort (· ≤ ·)) (l'.insertionSort (· ≤ ·)) :=
    (List.perm_insertionSort _ l).trans (h.trans (List.perm_insertionSort _ l').symm)
  exact hperm.eq_of_pairwise' (List.pairwise_insertionSort _ l) (List.pairwise_insertionSort _ l')

/-- The order in the lists does not matter. -/
theorem Below.perm {l l' k k' : List α} (h : Below l l') (hl : List.Perm l k) (hl' : List.Perm l' k') : Below k k' := by
  unfold Below
  rw [← insertionSort_congr hl, ← insertionSort_congr hl']
  exact h

/-- The first entry of a sorted list is inserted before the others. -/
theorem orderedInsert_of_pairwise {a : α} {s : List α} (h : (a :: s).Pairwise (· ≤ ·)) :
    s.orderedInsert (· ≤ ·) a = a :: s := by
  cases s with
  | nil => rfl
  | cons b s => exact List.orderedInsert_cons_of_le _ _ ((List.pairwise_cons.mp h).1 b List.mem_cons_self)

/-- Insertion is monotone, in the list and in the entry. -/
theorem orderedInsert_mono {s t : List α} (h : List.Forall₂ (· ≤ ·) s t) (hs : s.Pairwise (· ≤ ·))
    (ht : t.Pairwise (· ≤ ·)) {x y : α} (hxy : x ≤ y) :
    List.Forall₂ (· ≤ ·) (s.orderedInsert (· ≤ ·) x) (t.orderedInsert (· ≤ ·) y) := by
  induction h generalizing x y with
  | nil => exact .cons hxy .nil
  | @cons a b s t hab hst ih =>
      have ih := fun {x y : α} => ih hs.of_cons ht.of_cons (x := x) (y := y)
      by_cases hx : x ≤ a
      · rw [List.orderedInsert_cons_of_le _ _ hx]
        by_cases hy : y ≤ b
        · rw [List.orderedInsert_cons_of_le _ _ hy]
          exact .cons hxy (.cons hab hst)
        · -- `y` goes further to the right than `x`
          rw [List.orderedInsert_of_not_le _ _ hy]
          have hay : a ≤ y := hab.trans (le_of_not_ge hy)
          have htail := ih hay
          rw [orderedInsert_of_pairwise hs] at htail
          exact .cons (hx.trans hab) htail
      · rw [List.orderedInsert_of_not_le _ _ hx]
        by_cases hy : y ≤ b
        · rw [List.orderedInsert_cons_of_le _ _ hy]
          have hxb : x ≤ b := hxy.trans hy
          have htail := ih hxb
          rw [orderedInsert_of_pairwise ht] at htail
          exact .cons ((le_of_not_ge hx).trans hxy) htail
        · rw [List.orderedInsert_of_not_le _ _ hy]
          exact .cons hab (ih hxy)

/-- **Sorting is monotone.** -/
theorem below_of_forall₂ {l l' : List α} (h : List.Forall₂ (· ≤ ·) l l') : Below l l' := by
  induction h with
  | nil => exact .nil
  | @cons a b l l' hab _ ih =>
      unfold Below
      rw [List.insertionSort_cons, List.insertionSort_cons]
      exact orderedInsert_mono ih (List.pairwise_insertionSort _ l) (List.pairwise_insertionSort _ l') hab

/-- An entry is taken out and a smaller one put at the end. -/
theorem below_replace {l : List α} {i : ℕ} (hi : i < l.length) {c : α} (hc : c ≤ l[i]) :
    Below (l.eraseIdx i ++ [c]) l := by
  have hsame : Below (c :: l.eraseIdx i) (l[i] :: l.eraseIdx i) :=
    below_of_forall₂ (.cons hc (forall₂_le_refl _))
  exact hsame.perm (List.perm_append_singleton _ _).symm (List.getElem_cons_eraseIdx_perm hi)

theorem sum_replace {β : Type*} [AddCommMonoid β] {l : List β} {i : ℕ} (hi : i < l.length) (c : β) :
    (l.eraseIdx i ++ [c]).sum + l[i] = l.sum + c := by
  have hsum := (List.getElem_cons_eraseIdx_perm hi).sum_eq
  rw [List.sum_cons] at hsum
  rw [List.sum_append, List.sum_singleton, ← hsum, add_assoc, add_comm c, ← add_assoc, add_comm (l.eraseIdx i).sum]

/-- The least entry is not greater. -/
theorem Below.min? {l l' : List α} (h : Below l l') {m : α} (hm : l'.min? = some m) :
    ∃ m', l.min? = some m' ∧ m' ≤ m := by
  have hmem : m ∈ l'.insertionSort (· ≤ ·) := (List.mem_insertionSort _).mpr (List.min?_eq_some_iff.mp hm).1
  obtain ⟨x, hx, hle⟩ : ∃ x ∈ l.insertionSort (· ≤ ·), x ≤ m := by
    unfold Below at h
    obtain ⟨i, hi, rfl⟩ := List.mem_iff_getElem.mp hmem
    have hi' : i < (l.insertionSort (· ≤ ·)).length := h.length_eq ▸ hi
    exact ⟨_, List.getElem_mem hi', h.get hi' hi⟩
  have hx := (List.mem_insertionSort _).mp hx
  obtain ⟨m', hm'⟩ := Option.ne_none_iff_exists'.mp (mt List.min?_eq_none_iff.mp (List.ne_nil_of_mem hx))
  exact ⟨m', hm', ((List.min?_eq_some_iff.mp hm').2 x hx).trans hle⟩

end SortedLists
