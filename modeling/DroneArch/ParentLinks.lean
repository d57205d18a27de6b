import Mathlib.Algebra.Group.Defs
import Mathlib.Data.List.Basic
import Mathlib.Data.List.Chain

/-! # Parent links

Objects in a memory that are linked to a parent or to none, and a list that grows by objects linked
to one of its elements.

* `Rooted.concat`, `Rooted.congr`: how the list grows, and what it reads of the memory.
* `Rooted.climb`: from each element the links lead to the first one, in no more links than its place.
* `eq_add_total`: a quantity that grows by a weight along each link is the total weight of the way.
* `Genealogy`: a log whose entries name earlier entries as their parents, and how it grows. -/

namespace ParentLinks

variable {A : Type*} (parent : A → Option A)

/-- The objects from one up to the first without a parent; `none` if there are more than the fuel. -/
def climb : ℕ → A → Option (List A)
  | 0, _ => none
  | fuel + 1, a =>
      match parent a with
      | none => some [a]
      | some b => (climb fuel b).map (fun l => a :: l)

/-- The first element has no parent; the others have one earlier in the list, which they stand in the
relation `R` to. -/
structure Rooted (R : A → A → Prop) (nodes : List A) : Prop where
  root : ∀ a ∈ nodes.head?, parent a = none
  linked : ∀ i a, nodes[i + 1]? = some a → ∃ j ≤ i, ∃ b, nodes[j]? = some b ∧ parent a = some b ∧ R a b

variable {parent} {R : A → A → Prop} {nodes : List A}

theorem rooted_singleton {a : A} (h : parent a = none) : Rooted parent R [a] where
  root := by
    rintro _ ⟨⟩
    exact h
  linked := by simp

/-- The links stay in the list. -/
theorem Rooted.parent_mem (h : Rooted parent R nodes) {a b : A} (ha : a ∈ nodes) (hb : parent a = some b) : b ∈ nodes := by
  obtain ⟨i, hi, rfl⟩ := List.mem_iff_getElem.mp ha
  cases i with
  | zero =>
      have hroot := h.root nodes[0] (by rw [List.head?_eq_getElem?, List.getElem?_eq_getElem hi]; rfl)
      rw [hroot] at hb
      cases hb
  | succ i =>
      obtain ⟨j, _, b', hget, hparent, _⟩ := h.linked i _ (List.getElem?_eq_getElem hi)
      cases hb.symm.trans hparent
      exact List.mem_of_getElem? hget

/-- One more object, linked to an element. -/
theorem Rooted.concat (h : Rooted parent R nodes) {a b : A} (hb : b ∈ nodes) (hparent : parent a = some b)
    (hR : R a b) : Rooted parent R (nodes ++ [a]) where
  root := by
    intro x hx
    rw [List.head?_append_of_ne_nil _ (List.ne_nil_of_mem hb)] at hx
    exact h.root x hx
  linked := by
    intro i x hx
    rcases Nat.lt_or_ge (i + 1) nodes.length with hi | hi
    · rw [List.getElem?_append_left hi] at hx
      obtain ⟨j, hj, y, hy, hlink⟩ := h.linked i x hx
      exact ⟨j, hj, y, by rwa [List.getElem?_append_left (by omega)], hlink⟩
    · rw [List.getElem?_append_right hi, List.getElem?_singleton] at hx
      split at hx
      · cases hx
        obtain ⟨j, hj, hget⟩ := List.mem_iff_getElem.mp hb
        refine ⟨j, by omega, b, ?_, hparent, hR⟩
        rw [List.getElem?_append_left hj, List.getElem?_eq_getElem hj, hget]
      · cases hx

/-- Only the links of the elements matter. -/
theorem Rooted.congr (h : Rooted parent R nodes) {parent' : A → Option A} {R' : A → A → Prop}
    (hparent : ∀ a ∈ nodes, parent' a = parent a) (hR : ∀ a ∈ nodes, ∀ b ∈ nodes, R a b → R' a b) :
    Rooted parent' R' nodes where
  root := fun a ha => (hparent a (List.mem_of_head? ha)).trans (h.root a ha)
  linked := by
    intro i a ha
    obtain ⟨j, hj, b, hb, hlink, hab⟩ := h.linked i a ha
    have hmem := List.mem_of_getElem? ha
    exact ⟨j, hj, b, hb, (hparent a hmem).trans hlink, hR a hmem b (List.mem_of_getElem? hb) hab⟩

/-- **The links end at the first element.** -/
theorem Rooted.climb (h : Rooted parent R nodes) {i : ℕ} {a : A} (ha : nodes[i]? = some a) {fuel : ℕ}
    (hfuel : i < fuel) : ∃ l, climb parent fuel a = some (a :: l) ∧ (a :: l).getLast? = nodes.head? ∧
      (a :: l).IsChain R := by
  -- the parent is earlier in the list, and so needs less fuel
  induction i using Nat.strong_induction_on generalizing a fuel with
  | _ i ih =>
    obtain ⟨fuel, rfl⟩ : ∃ n, fuel = n + 1 := ⟨fuel - 1, by omega⟩
    cases i with
    | zero =>
        have hhead : nodes.head? = some a := by rw [List.head?_eq_getElem?, ha]
        refine ⟨[], ?_, hhead.symm, List.isChain_singleton a⟩
        rw [ParentLinks.climb, h.root a hhead]
    | succ i =>
        obtain ⟨j, hj, b, hb, hparent, hR⟩ := h.linked i a ha
        obtain ⟨l, hclimb, hlast, hchain⟩ := ih j (by omega) hb (by omega : j < fuel)
        refine ⟨b :: l, ?_, ?_, List.isChain_cons_cons.mpr ⟨hR, hchain⟩⟩
        · rw [ParentLinks.climb, hparent]
          simp only [hclimb, Option.map_some]
        · rw [List.getLast?_cons_cons, hlast]

/-! ### Weights -/

section weight
variable {M : Type*} [AddMonoid M] (w : A → A → M)

/-- The sum of the weights of consecutive elements, the last pair first. -/
def total : List A → M
  | [] => 0
  | [_] => 0
  | a :: b :: l => total (b :: l) + w a b

variable {w}

theorem eq_add_total {cost : A → M} {a last : A} {l : List A}
    (h : (a :: l).IsChain (fun a b => cost a = cost b + w a b)) (hlast : (a :: l).getLast? = some last) :
    cost a = cost last + total w (a :: l) := by
  induction l generalizing a with
  | nil =>
      cases hlast
      exact (add_zero (cost a)).symm
  | cons b l ih =>
      obtain ⟨hab, hl⟩ := List.isChain_cons_cons.mp h
      rw [hab, total, ih hl (by rwa [List.getLast?_cons_cons] at hlast), add_assoc]

end weight

/-! ### Genealogies -/

section genealogy
variable {E I : Type*} (id : E → I) (parents : E → List I)

/-- The identifiers are distinct, and a parent is the identifier of an earlier entry. -/
structure Genealogy (log : List E) : Prop where
  nodup : (log.map id).Nodup
  earlier : ∀ (i : ℕ) (e : E), log[i]? = some e → ∀ a ∈ parents e, ∃ j < i, ∃ e', log[j]? = some e' ∧ id e' = a

variable {id parents} {log : List E}

theorem genealogy_nil : Genealogy id parents ([] : List E) where
  nodup := List.nodup_nil
  earlier := by simp

/-- One more entry, whose parents are in the log. -/
theorem Genealogy.concat (h : Genealogy id parents log) {e : E} (hid : id e ∉ log.map id)
    (hparents : ∀ a ∈ parents e, a ∈ log.map id) : Genealogy id parents (log ++ [e]) where
  nodup := by
    rw [List.map_append, List.map_singleton, List.nodup_append]
    refine ⟨h.nodup, List.pairwise_singleton _ _, fun a ha b hb => ?_⟩
    rw [List.mem_singleton.mp hb]
    exact fun heq => hid (heq ▸ ha)
  earlier := by
    intro i x hx a ha
    rcases Nat.lt_or_ge i log.length with hi | hi
    · rw [List.getElem?_append_left hi] at hx
      obtain ⟨j, hj, y, hy, hya⟩ := h.earlier i x hx a ha
      exact ⟨j, hj, y, by rwa [List.getElem?_append_left (by omega)], hya⟩
    · rw [List.getElem?_append_right hi, List.getElem?_singleton] at hx
      split at hx
      · cases hx
        obtain ⟨y, hy, hya⟩ := List.mem_map.mp (hparents a ha)
        obtain ⟨j, hj, hget⟩ := List.mem_iff_getElem.mp hy
        refine ⟨j, by omega, y, ?_, hya⟩
        rw [List.getElem?_append_left hj, List.getElem?_eq_getElem hj, hget]
      · cases hx

/-- The parents of the last entry are before it. -/
theorem Genealogy.mem_of_concat {e : E} (h : Genealogy id parents (log ++ [e])) {a : I} (ha : a ∈ parents e) :
    a ∈ log.map id := by
  obtain ⟨j, hj, y, hy, hya⟩ := h.earlier log.length e (by simp) a ha
  rw [List.getElem?_append_left hj] at hy
  exact hya ▸ List.mem_map_of_mem (List.mem_of_getElem? hy)

/-- More entries, without parents. -/
theorem Genealogy.append_roots (h : Genealogy id parents log) {roots : List E} (hroots : ∀ e ∈ roots, parents e = [])
    (hnodup : (roots.map id).Nodup) (hnew : ∀ e ∈ roots, id e ∉ log.map id) : Genealogy id parents (log ++ roots) := by
  induction roots generalizing log with
  | nil => rwa [List.append_nil]
  | cons e roots ih =>
      rw [List.forall_mem_cons] at hroots hnew
      rw [List.map_cons, List.nodup_cons] at hnodup
      rw [List.append_cons]
      refine ih (h.concat hnew.1 (by simp [hroots.1])) hroots.2 hnodup.2 fun x hx => ?_
      rw [List.map_append, List.map_singleton, List.mem_append, List.mem_singleton]
      rintro (hmem | heq)
      · exact hnew.2 x hx hmem
      · exact hnodup.1 (heq ▸ List.mem_map_of_mem hx)

end genealogy

end ParentLinks
