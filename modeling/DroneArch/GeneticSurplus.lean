import Mathlib.Data.Set.List
import DroneArch.GeneticSubject

/-! # The surplus genes of a crossover

The crossover combines the genes that both parents have, and `_complete` adds some of the genes that only
the longer parent has.  Its indices begin one gene too early: they are those of the last common gene up to the
last but one.

* `complete_yields`, `complete_canYield`: what `_complete` appends, for all and for some random choices.
* `inheritsSurplus_iff`: these are the surplus genes exactly when the shift does not show. -/

namespace DroneArch.Genetic

open RandomChoices

/-! ### What `_complete` appends -/

/-- The parent that `_complete` takes genes of. -/
def bigger (dna1 dna2 : List Gene) : List Gene := if dna1.length > dna2.length then dna1 else dna2

/-- The other parent. -/
def smaller (dna1 dna2 : List Gene) : List Gene := if dna1.length > dna2.length then dna2 else dna1

/-- The indices of the loop of `_complete`. -/
def indices (dna1 dna2 : List Gene) : List ℤ :=
  (List.range ((bigger dna1 dna2).length - (smaller dna1 dna2).length)).map
    (fun (j : ℕ) => ((smaller dna1 dna2).length : ℤ) - 1 + j)

/-- The genes that only the longer parent has. -/
def surplus (dna1 dna2 : List Gene) : List Gene := (bigger dna1 dna2).drop (smaller dna1 dna2).length

/-- The genes at these indices. -/
def candidates (dna1 dna2 : List Gene) : List Gene := (indices dna1 dna2).filterMap (geneAt (bigger dna1 dna2))

/-- The appended genes are a subsequence of the surplus for all random choices, and every such subsequence is
appended for some. -/
def InheritsSurplus (dna dna1 dna2 : List Gene) : Prop :=
  Yields (complete dna dna1 dna2) (fun r => ∃ added, List.Sublist added (surplus dna1 dna2) ∧ r = dna ++ added) ∧
  ∀ added, List.Sublist added (surplus dna1 dna2) →
    ∃ ω ω', (complete dna dna1 dna2).run ω = some (dna ++ added, ω')

/-- All genes are the same. -/
def AllSame (dna : List Gene) : Prop := ∀ g ∈ dna, ∀ g' ∈ dna, g = g'

theorem complete_eq (dna dna1 dna2 : List Gene) : complete dna dna1 dna2 =
    (indices dna1 dna2).foldlM (fun dna i => do
      if (← random) < 1 / 2 then return dna ++ [← attempt (geneAt (bigger dna1 dna2) i)]
      else return dna) dna := by
  unfold complete indices bigger smaller
  by_cases hgt : dna1.length > dna2.length
  · simp only [if_pos hgt]
  · simp only [if_neg hgt]

theorem exists_mem_drop (dna : List Gene) {k i : ℕ} (hk : k ≤ i) (hi : i < dna.length) :
    ∃ g ∈ dna.drop k, dna[i]? = some g := by
  have hget : (dna.drop k)[i - k]? = dna[i]? := by
    rw [List.getElem?_drop, Nat.add_sub_cancel' hk]
  rw [List.getElem?_eq_getElem hi] at hget ⊢
  exact ⟨dna[i], List.mem_of_getElem? hget, rfl⟩

/-- The gene of the index before `j`; before the first gene it is the last. -/
theorem exists_geneAt_pred (dna : List Gene) {n j : ℕ} (hn : n ≤ j) (hj : j < dna.length) :
    ∃ g ∈ dna.drop (n - 1), geneAt dna (j - 1) = some g := by
  unfold geneAt
  cases j with
  | zero =>
      rw [if_neg (by decide), if_pos (by omega), show ((dna.length : ℤ) + ((0 : ℕ) - 1)).toNat = dna.length - 1 by omega]
      exact exists_mem_drop dna (by omega) (by omega)
  | succ j =>
      rw [if_pos (by omega), show (((j + 1 : ℕ) : ℤ) - 1).toNat = j by omega]
      exact exists_mem_drop dna (by omega) (by omega)

theorem map_indices (dna1 dna2 : List Gene) : (indices dna1 dna2).map (geneAt (bigger dna1 dna2)) =
    (List.range ((bigger dna1 dna2).length - (smaller dna1 dna2).length)).map
      (fun j => geneAt (bigger dna1 dna2) (((smaller dna1 dna2).length + j : ℕ) - 1)) := by
  unfold indices
  rw [List.map_map]
  refine List.map_congr_left fun j _ => congrArg (geneAt _) ?_
  push_cast
  ring

/-- All indices lead to genes. -/
theorem candidates_map_some (dna1 dna2 : List Gene) :
    (candidates dna1 dna2).map some = (indices dna1 dna2).map (geneAt (bigger dna1 dna2)) := by
  obtain ⟨genes, hgenes⟩ : (indices dna1 dna2).map (geneAt (bigger dna1 dna2)) ∈ Set.range (List.map some) := by
    rw [Set.range_list_map, map_indices]
    intro x hx
    obtain ⟨j, hj, rfl⟩ := List.mem_map.mp hx
    rw [List.mem_range] at hj
    obtain ⟨g, -, hg⟩ := exists_geneAt_pred (bigger dna1 dna2) (n := 0)
      (j := (smaller dna1 dna2).length + j) (Nat.zero_le _) (by omega)
    exact ⟨g, hg.symm⟩
  have heq : candidates dna1 dna2 = genes := by
    have hmap : candidates dna1 dna2 = ((indices dna1 dna2).map (geneAt (bigger dna1 dna2))).filterMap id := by
      rw [List.filterMap_map]
      rfl
    rw [hmap, ← hgenes, List.filterMap_map]
    exact List.filterMap_some
  rw [heq, hgenes]

theorem candidates_length (dna1 dna2 : List Gene) :
    (candidates dna1 dna2).length = (bigger dna1 dna2).length - (smaller dna1 dna2).length := by
  have hlen := congrArg List.length (candidates_map_some dna1 dna2)
  rwa [map_indices, List.length_map, List.length_map, List.length_range] at hlen

theorem surplus_length (dna1 dna2 : List Gene) :
    (surplus dna1 dna2).length = (bigger dna1 dna2).length - (smaller dna1 dna2).length := List.length_drop

theorem surplus_getElem? (dna1 dna2 : List Gene) (j : ℕ) :
    (surplus dna1 dna2)[j]? = (bigger dna1 dna2)[(smaller dna1 dna2).length + j]? := List.getElem?_drop

theorem candidates_getElem? (dna1 dna2 : List Gene) {j : ℕ}
    (hj : j < (bigger dna1 dna2).length - (smaller dna1 dna2).length) :
    (candidates dna1 dna2)[j]? = geneAt (bigger dna1 dna2) (((smaller dna1 dna2).length + j : ℕ) - 1) := by
  have hget := congrArg (fun l => l[j]?) (candidates_map_some dna1 dna2)
  rw [map_indices, List.getElem?_map, List.getElem?_map, List.getElem?_range hj, Option.map_some] at hget
  obtain ⟨g, hg, hsome⟩ := Option.map_eq_some_iff.mp hget
  rw [hg, hsome]

/-! ### The surplus and the candidates -/

/-- When the candidates are the surplus, each of its genes is the one before it. -/
theorem allSame_of_candidates_eq {dna1 dna2 : List Gene} (heq : candidates dna1 dna2 = surplus dna1 dna2) :
    AllSame ((bigger dna1 dna2).drop ((smaller dna1 dna2).length - 1)) := by
  have hconst : ∀ i, (smaller dna1 dna2).length - 1 ≤ i → i < (bigger dna1 dna2).length →
      (bigger dna1 dna2)[i]? = (bigger dna1 dna2)[(smaller dna1 dna2).length - 1]? := by
    intro i hi
    induction i, hi using Nat.le_induction with
    | base => exact fun _ => rfl
    | succ i hi ih =>
        intro hlt
        have hindex : (smaller dna1 dna2).length + (i + 1 - (smaller dna1 dna2).length) = i + 1 := by omega
        have hpred : (((i + 1 : ℕ) : ℤ) - 1).toNat = i := by omega
        have hj := candidates_getElem? dna1 dna2 (j := i + 1 - (smaller dna1 dna2).length) (by omega)
        rw [heq, surplus_getElem?, hindex] at hj
        rw [hj, ← ih (by omega)]
        unfold geneAt
        rw [if_pos (by omega), hpred]
  have hfirst : ∀ g ∈ (bigger dna1 dna2).drop ((smaller dna1 dna2).length - 1),
      (bigger dna1 dna2)[(smaller dna1 dna2).length - 1]? = some g := by
    intro g hg
    obtain ⟨j, hj⟩ := List.mem_iff_getElem?.mp hg
    rw [List.getElem?_drop] at hj
    rw [← hj]
    exact (hconst _ (Nat.le_add_right _ _) (List.getElem?_eq_some_iff.mp hj).1).symm
  intro g hg g' hg'
  exact Option.some.inj ((hfirst g hg).symm.trans (hfirst g' hg'))

/-- Equal genes are not changed by the shift. -/
theorem candidates_eq_of_allSame {dna1 dna2 : List Gene}
    (huniform : AllSame ((bigger dna1 dna2).drop ((smaller dna1 dna2).length - 1))) :
    candidates dna1 dna2 = surplus dna1 dna2 := by
  refine List.ext_getElem? fun j => ?_
  rcases lt_or_ge j ((bigger dna1 dna2).length - (smaller dna1 dna2).length) with hj | hj
  · obtain ⟨g, hg, hgene⟩ := exists_geneAt_pred (bigger dna1 dna2)
      (Nat.le_add_right (smaller dna1 dna2).length j) (by omega)
    obtain ⟨g', hg', hgene'⟩ := exists_mem_drop (bigger dna1 dna2)
      (k := (smaller dna1 dna2).length - 1) (i := (smaller dna1 dna2).length + j) (by omega) (by omega)
    rw [candidates_getElem? dna1 dna2 hj, surplus_getElem?, hgene, hgene', huniform g hg g' hg']
  · rw [List.getElem?_eq_none (by rw [candidates_length]; exact hj),
      List.getElem?_eq_none (by rw [surplus_length]; exact hj)]

/-- **The shift.**  The genes in question are the surplus when there is none, or when the last common gene
and the surplus are all the same. -/
theorem candidates_eq_surplus_iff (dna1 dna2 : List Gene) : candidates dna1 dna2 = surplus dna1 dna2 ↔
    (bigger dna1 dna2).length = (smaller dna1 dna2).length ∨
      AllSame ((bigger dna1 dna2).drop ((smaller dna1 dna2).length - 1)) := by
  refine ⟨fun heq => Or.inr (allSame_of_candidates_eq heq), ?_⟩
  rintro (hsame | huniform)
  · have hcandidates : (candidates dna1 dna2).length = 0 := by
      rw [candidates_length, hsame, Nat.sub_self]
    have hsurplus : (surplus dna1 dna2).length = 0 := by
      rw [surplus_length, hsame, Nat.sub_self]
    rw [List.length_eq_zero_iff.mp hcandidates, List.length_eq_zero_iff.mp hsurplus]
  · exact candidates_eq_of_allSame huniform

theorem complete_yields (dna dna1 dna2 : List Gene) :
    Yields (complete dna dna1 dna2)
      (fun r => ∃ added, List.Sublist added (candidates dna1 dna2) ∧ r = dna ++ added) := by
  rw [complete_eq]
  exact yields_foldlM_append (candidates_map_some dna1 dna2).symm dna

theorem complete_canYield (dna : List Gene) {dna1 dna2 added : List Gene}
    (h : List.Sublist added (candidates dna1 dna2)) : CanYield (complete dna dna1 dna2) (dna ++ added) := by
  rw [complete_eq]
  exact canYield_foldlM_append (candidates_map_some dna1 dna2).symm h dna

/-- **Surplus genes.**  The appended genes are those of the longer parent beyond the shorter one exactly when the
parents have the same length, or the genes from the last common one on are all the same. -/
theorem inheritsSurplus_iff (dna dna1 dna2 : List Gene) : InheritsSurplus dna dna1 dna2 ↔
    (bigger dna1 dna2).length = (smaller dna1 dna2).length ∨
      AllSame ((bigger dna1 dna2).drop ((smaller dna1 dna2).length - 1)) := by
  rw [← candidates_eq_surplus_iff]
  constructor
  · rintro ⟨hall, -⟩
    obtain ⟨us, hrun⟩ := complete_canYield dna (List.Sublist.refl (candidates dna1 dna2))
    obtain ⟨added, hsub, heq⟩ := hall _ _ _ (hrun (Stream'.const ⟨0, le_rfl, one_pos⟩))
    rw [← List.append_cancel_left heq] at hsub
    exact hsub.eq_of_length (by rw [candidates_length, surplus_length])
  · intro heq
    rw [InheritsSurplus, ← heq]
    refine ⟨complete_yields dna dna1 dna2, fun added hadded => ?_⟩
    obtain ⟨us, hrun⟩ := complete_canYield dna hadded
    exact ⟨_, _, hrun (Stream'.const ⟨0, le_rfl, one_pos⟩)⟩

/-- Parents with one and two genes: the last gene is never inherited. -/
theorem inheritsSurplus_short : ¬ InheritsSurplus [⟨0, 0⟩] [⟨0, 0⟩] [⟨1, 0⟩, ⟨2, 0⟩] := by
  rintro ⟨-, hsome⟩
  obtain ⟨ω, ω', hrun⟩ := hsome [⟨2, 0⟩] (List.Sublist.refl _)
  obtain ⟨added, hsub, heq⟩ := complete_yields _ _ _ _ _ _ hrun
  rw [← List.append_cancel_left heq] at hsub
  have hcandidates : candidates [⟨0, 0⟩] [⟨1, 0⟩, ⟨2, 0⟩] = [⟨1, 0⟩] := rfl
  rw [hcandidates, List.singleton_sublist, List.mem_singleton, Gene.mk.injEq] at hsub
  norm_num at hsub

end DroneArch.Genetic
