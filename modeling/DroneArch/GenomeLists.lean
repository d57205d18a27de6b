import DroneArch.GeneticSubject
import Mathlib.Logic.Function.Basic

/-! # Genome lists in memory

The crossover and the mutations of `genetic.py` on list objects.  A crossover creates a list and
appends to it; two of the mutations create a list, the other two change the list of the child in
place.  An individual holds the address of its genome.

* `offspring_spec`: the child is that of the value model, its list is new, and all lists that there
  were before keep their genes; those of the parents are among them. -/

namespace DroneArch.Genetic

open RandomChoices

/-- The list objects by address. -/
structure Store where
  list : ℕ → List Gene
  /-- The address of the next list. -/
  next : ℕ

namespace Store

/-- A new list. -/
def alloc (h : Store) (l : List Gene) : Store := ⟨Function.update h.list h.next l, h.next + 1⟩

/-- The list at an address is changed in place. -/
def write (h : Store) (r : ℕ) (l : List Gene) : Store := ⟨Function.update h.list r l, h.next⟩

/-- `append`. -/
def append (h : Store) (r : ℕ) (g : Gene) : Store := h.write r (h.list r ++ [g])

@[simp] theorem write_next (h : Store) (r : ℕ) (l : List Gene) : (h.write r l).next = h.next := rfl

@[simp] theorem alloc_next (h : Store) (l : List Gene) : (h.alloc l).next = h.next + 1 := rfl

@[simp] theorem write_self (h : Store) (r : ℕ) (l : List Gene) : (h.write r l).list r = l := by
  simp [write]

@[simp] theorem alloc_self (h : Store) (l : List Gene) : (h.alloc l).list h.next = l := by
  simp [alloc]

theorem write_of_ne {h : Store} {r a : ℕ} (hne : a ≠ r) (l : List Gene) : (h.write r l).list a = h.list a := by
  simp [write, hne]

theorem alloc_of_lt {h : Store} {a : ℕ} (hlt : a < h.next) (l : List Gene) : (h.alloc l).list a = h.list a := by
  simp [alloc, hlt.ne]

@[simp] theorem write_write (h : Store) (r : ℕ) (l l' : List Gene) : (h.write r l).write r l' = h.write r l' := by
  unfold write
  rw [Function.update_idem]

theorem write_list (h : Store) (r : ℕ) : h.write r (h.list r) = h := by
  unfold write
  rw [Function.update_eq_self]

theorem alloc_write (h : Store) (l l' : List Gene) : (h.alloc l).write h.next l' = h.alloc l' := by
  unfold alloc write
  rw [Function.update_idem]

end Store

noncomputable section

/-- An individual: the address of `dna`, and `dna_decoded`. -/
structure Body where
  dna : ℕ
  dnaDecoded : List GeneDecoded

/-- The last part of `mutation` on values. -/
def assign (p : Specie) (c : Subject) : List Gene × Option (List Gene) → Drawing Subject
  | (_, some (g :: newDna)) => attempt (decode p { c with dna := g :: newDna })
  | (dna, _) => return { c with dna }

theorem mutation_of_assign {p : Specie} {ω ω' : Tape} {c c' : Subject} {u : ℝ}
    {mutate : List Gene → Drawing (List Gene × Option (List Gene))}
    {out : List Gene × Option (List Gene)} {ω₁ ω₂ ω₃ : Tape} (hu : random.run ω = some (u, ω₁))
    (hlt : u < p.mutationProb) (hmutate : (choice [mutationRemove p, mutationInsert p,
      mutationCreep p, mutationChange p]).run ω₁ = some (mutate, ω₂))
    (hout : (mutate c.dna).run ω₂ = some (out, ω₃)) (hassign : (assign p c out).run ω₃ = some (c', ω')) :
    (mutation p c).run ω = some (c', ω') := by
  refine run_bind_eq_some.mpr ⟨u, ω₁, hu, ?_⟩
  rw [if_pos hlt]
  exact run_bind_eq_some.mpr ⟨mutate, ω₂, hmutate, run_bind_eq_some.mpr ⟨out, ω₃, hout, hassign⟩⟩

namespace InPlace

/-! ### The programs -/

/-- A loop that appends to a new list. -/
def collect {α : Type} (h : Store) (draw : α → Drawing Gene) (l : List α) : Drawing (ℕ × Store) := do
  let r := h.next
  let h ← l.foldlM (fun h x => do return h.append r (← draw x)) (h.alloc [])
  return (r, h)

/-- `_OX`. -/
def ox (h : Store) (dna1 dna2 : ℕ) : Drawing (ℕ × Store) :=
  collect h (fun g => choice [g.1, g.2]) ((h.list dna1).zip (h.list dna2))

/-- `_BLX_Alpha`. -/
def blxAlpha (p : Specie) (h : Store) (dna1 dna2 : ℕ) : Drawing (ℕ × Store) :=
  collect h (fun g => do
    let a ← blxAlphaSelectGene g.1.a g.2.a
    let e ← blxAlphaSelectGene g.1.e g.2.e
    return ⟨clamp p.aMin p.aMax a, clamp p.eMin p.eMax e⟩) ((h.list dna1).zip (h.list dna2))

/-- `_complete`. -/
def complete (h : Store) (dna dna1 dna2 : ℕ) : Drawing Store :=
  let (bigger, smaller) := if (h.list dna1).length > (h.list dna2).length then (dna1, dna2) else (dna2, dna1)
  let indices := (List.range ((h.list bigger).length - (h.list smaller).length)).map
    (fun (j : ℕ) => ((h.list smaller).length : ℤ) - 1 + j)
  indices.foldlM (fun h i => do
    if (← random) < 1 / 2 then return h.append dna (← attempt (geneAt (h.list bigger) i))
    else return h) h

/-- `generate` of `genetic.py`: the list that the new individual has drawn is dropped. -/
def generate (p : Specie) (h : Store) (dna : ℕ) : Drawing (Body × Store) := do
  let own ← spawn p
  let h := h.alloc own
  let dnaDecoded ← attempt (decodeGene p (h.list dna))
  return (⟨dna, dnaDecoded⟩, h)

/-- `crossover`. -/
def crossover (p : Specie) (h : Store) (parent1 parent2 : Body) : Drawing (Body × Store) := do
  let cross ← choice [ox h, blxAlpha p h]
  let (dna, h) ← cross parent1.dna parent2.dna
  let h ← complete h dna parent1.dna parent2.dna
  generate p h dna

/-- `_mutation_change`. -/
def mutationChange (p : Specie) (h : Store) (dna : ℕ) : Drawing (Option ℕ × Store) := do
  let (newDna, h) ← collect h (fun gene => do
    if (← random) < 1 / 2 then buildGene p else return gene) (h.list dna)
  return (some newDna, h)

/-- `_mutation_remove`. -/
def mutationRemove (p : Specie) (h : Store) (dna : ℕ) : Drawing (Option ℕ × Store) := do
  if (h.list dna).length > p.tMin then
    let i ← randint 0 ((h.list dna).length - 1)
    return (some dna, h.write dna ((h.list dna).eraseIdx i.toNat))
  else return (none, h)

/-- `_mutation_insert`. -/
def mutationInsert (p : Specie) (h : Store) (dna : ℕ) : Drawing (Option ℕ × Store) := do
  if (h.list dna).length < p.tMax then
    let i ← randint 0 ((h.list dna).length - 1)
    let gene ← buildGene p
    return (some dna, h.write dna ((h.list dna).insertIdx i.toNat gene))
  else return (none, h)

/-- `_mutation_creep`. -/
def mutationCreep (p : Specie) (h : Store) (dna : ℕ) : Drawing (Option ℕ × Store) := do
  let (newDna, h) ← collect h (fun gene => do
    let a ← mute gene.a p.aMin p.aMax
    let e ← mute gene.e p.eMin p.eMax
    return (⟨a, e⟩ : Gene)) (h.list dna)
  return (some newDna, h)

/-- The last part of `mutation`: a new genome is decoded. -/
def assign (p : Specie) (c : Body) : Option ℕ × Store → Drawing (Body × Store)
  | (some newDna, h) =>
      -- an empty list is false
      if (h.list newDna).isEmpty then return (c, h)
      else do
        let dnaDecoded ← attempt (decodeGene p (h.list newDna))
        return (⟨newDna, dnaDecoded⟩, h)
  | (none, h) => return (c, h)

/-- `mutation`. -/
def mutation (p : Specie) (h : Store) (c : Body) : Drawing (Body × Store) := do
  if (← random) < p.mutationProb then
    let mutate ← choice [mutationRemove p h, mutationInsert p h, mutationCreep p h, mutationChange p h]
    assign p c (← mutate c.dna)
  else return (c, h)

/-- The child of two parents, before its fitness. -/
def offspring (p : Specie) (h : Store) (parent1 parent2 : Body) : Drawing (Body × Store) := do
  let (c, h) ← crossover p h parent1 parent2
  mutation p h c

/-! ### What they do -/

variable {p : Specie} {h h' : Store} {ω ω' : Tape}

theorem foldlM_append {α : Type} {draw : α → Drawing Gene} {l : List α} {r : ℕ}
    (hrun : (l.foldlM (fun (h : Store) x => do return h.append r (← draw x)) h : Drawing Store).run ω = some (h', ω')) :
    ∃ genes, (l.mapM draw).run ω = some (genes, ω') ∧ h' = h.write r (h.list r ++ genes) := by
  induction l generalizing h ω with
  | nil =>
      obtain ⟨rfl, rfl⟩ := run_pure_eq_some.mp hrun
      exact ⟨[], rfl, by rw [List.append_nil, Store.write_list]⟩
  | cons x l ih =>
      rw [List.foldlM_cons] at hrun
      obtain ⟨h₁, ω₁, hx, hl⟩ := run_bind_eq_some.mp hrun
      obtain ⟨g, ω₂, hg, hx⟩ := run_bind_eq_some.mp hx
      obtain ⟨rfl, rfl⟩ := run_pure_eq_some.mp hx
      obtain ⟨genes, hgenes, rfl⟩ := ih hl
      refine ⟨g :: genes, ?_, ?_⟩
      · rw [List.mapM_cons]
        exact run_bind_eq_some.mpr ⟨g, ω₂, hg, run_bind_eq_some.mpr ⟨genes, ω', hgenes, run_pure_eq_some.mpr ⟨rfl, rfl⟩⟩⟩
      · rw [Store.append, Store.write_write, Store.write_self, List.append_assoc, List.singleton_append]

/-- The loop makes a new list of what it draws. -/
theorem collect_spec {α : Type} {draw : α → Drawing Gene} {l : List α} {r : ℕ}
    (hrun : (collect h draw l).run ω = some ((r, h'), ω')) :
    ∃ genes, (l.mapM draw).run ω = some (genes, ω') ∧ r = h.next ∧ h' = h.alloc genes := by
  obtain ⟨h₁, ω₁, hl, hrun⟩ := run_bind_eq_some.mp hrun
  obtain ⟨heq, rfl⟩ := run_pure_eq_some.mp hrun
  obtain ⟨rfl, rfl⟩ := Prod.mk.inj heq
  obtain ⟨genes, hgenes, rfl⟩ := foldlM_append hl
  exact ⟨genes, hgenes, rfl, by rw [Store.alloc_self, List.nil_append, Store.alloc_write]⟩

/-- The loop of `complete` appends to the list object what it appends to the list. -/
theorem complete_loop {dna bigger : ℕ} (hne : bigger ≠ dna) (indices : List ℤ)
    (hrun : (indices.foldlM (fun (h : Store) i => do
      if (← random) < 1 / 2 then return h.append dna (← attempt (geneAt (h.list bigger) i))
      else return h) h : Drawing Store).run ω = some (h', ω')) :
    ∃ genes, (indices.foldlM (fun dna i => do
      if (← random) < 1 / 2 then return dna ++ [← attempt (geneAt (h.list bigger) i)]
      else return dna) (h.list dna) : Drawing (List Gene)).run ω = some (genes, ω') ∧ h' = h.write dna genes := by
  induction indices generalizing h ω with
  | nil =>
      obtain ⟨rfl, rfl⟩ := run_pure_eq_some.mp hrun
      exact ⟨h.list dna, rfl, (Store.write_list h dna).symm⟩
  | cons i indices ih =>
      rw [List.foldlM_cons] at hrun ⊢
      obtain ⟨h₁, ω₁, hi, hl⟩ := run_bind_eq_some.mp hrun
      obtain ⟨u, ω₂, hu, hi⟩ := run_bind_eq_some.mp hi
      split at hi
      · next hlt =>
          obtain ⟨g, ω₃, hg, hi⟩ := run_bind_eq_some.mp hi
          obtain ⟨rfl, rfl⟩ := run_pure_eq_some.mp hi
          obtain ⟨genes, hgenes, rfl⟩ := ih hl
          rw [Store.append, Store.write_self, Store.write_of_ne hne] at hgenes
          refine ⟨genes, run_bind_eq_some.mpr ⟨h.list dna ++ [g], ω₃, ?_, hgenes⟩, by rw [Store.append, Store.write_write]⟩
          refine run_bind_eq_some.mpr ⟨u, ω₂, hu, ?_⟩
          rw [if_pos hlt]
          exact run_bind_eq_some.mpr ⟨g, ω₃, hg, run_pure_eq_some.mpr ⟨rfl, rfl⟩⟩
      · next hge =>
          obtain ⟨rfl, rfl⟩ := run_pure_eq_some.mp hi
          obtain ⟨genes, hgenes, rfl⟩ := ih hl
          refine ⟨genes, run_bind_eq_some.mpr ⟨h.list dna, ω₂, ?_, hgenes⟩, rfl⟩
          refine run_bind_eq_some.mpr ⟨u, ω₂, hu, ?_⟩
          rw [if_neg hge]
          exact run_pure_eq_some.mpr ⟨rfl, rfl⟩

/-- The completion appends to the list of the child and reads the lists of the parents. -/
theorem complete_spec {dna dna1 dna2 : ℕ} (h1 : dna1 ≠ dna) (h2 : dna2 ≠ dna)
    (hrun : (complete h dna dna1 dna2).run ω = some (h', ω')) :
    ∃ genes, (Genetic.complete (h.list dna) (h.list dna1) (h.list dna2)).run ω = some (genes, ω') ∧
      h' = h.write dna genes := by
  unfold complete at hrun
  unfold Genetic.complete
  by_cases hgt : (h.list dna1).length > (h.list dna2).length
  · rw [if_pos hgt] at hrun ⊢
    exact complete_loop h1 _ hrun
  · rw [if_neg hgt] at hrun ⊢
    exact complete_loop h2 _ hrun

/-- The individual in memory has the genome and the route of the value. -/
structure Holds (h : Store) (b : Body) (c : Subject) : Prop where
  lt : b.dna < h.next
  dna : h.list b.dna = c.dna
  dnaDecoded : b.dnaDecoded = c.dnaDecoded

theorem decode_eq_some {c c' : Subject} :
    decode p c = some c' ↔ ∃ d, decodeGene p c.dna = some d ∧ c' = { c with dnaDecoded := d } := by
  unfold decode
  rw [Option.map_eq_some_iff]
  exact exists_congr fun d => and_congr_right fun _ => eq_comm

/-- A crossover in memory that makes the genome of the crossover on values. -/
def Crosses (h : Store) (cross : ℕ → ℕ → Drawing (ℕ × Store)) (cross' : List Gene → List Gene → Drawing (List Gene)) :
    Prop := ∀ dna1 dna2 ω r h' ω', (cross dna1 dna2).run ω = some ((r, h'), ω') →
  ∃ genes, (cross' (h.list dna1) (h.list dna2)).run ω = some (genes, ω') ∧ r = h.next ∧ h' = h.alloc genes

theorem crosses_ox (h : Store) : Crosses h (ox h) Genetic.ox := fun _ _ _ _ _ _ hrun => collect_spec hrun

theorem crosses_blxAlpha (p : Specie) (h : Store) : Crosses h (blxAlpha p h) (Genetic.blxAlpha p) :=
  fun _ _ _ _ _ _ hrun => collect_spec hrun

/-- A crossover makes the child of the value model, with a new list, and changes no list. -/
theorem crossover_spec (hv : p.version = .ros) {b b1 b2 : Body} {parent1 parent2 : Subject} (h1 : Holds h b1 parent1)
    (h2 : Holds h b2 parent2) (ref : ℕ) (hrun : (crossover p h b1 b2).run ω = some ((b, h'), ω')) :
    ∃ c, (Genetic.crossover p parent1 parent2 ref).run ω = some (c, ω') ∧ Holds h' b c ∧ b.dna = h.next ∧
      ∀ a < h.next, h'.list a = h.list a := by
  obtain ⟨cross, ω₁, hcross, hrun⟩ := run_bind_eq_some.mp hrun
  obtain ⟨⟨dna, hs⟩, ω₂, hdna, hrun⟩ := run_bind_eq_some.mp hrun
  obtain ⟨hc, ω₃, hcomplete, hrun⟩ := run_bind_eq_some.mp hrun
  obtain ⟨own, ω₄, hown, hrun⟩ := run_bind_eq_some.mp hrun
  obtain ⟨d, ω₅, hd, hrun⟩ := run_bind_eq_some.mp hrun
  obtain ⟨heq, rfl⟩ := run_pure_eq_some.mp hrun
  obtain ⟨rfl, rfl⟩ := Prod.mk.inj heq
  obtain ⟨cross', hcross', hR⟩ := choice_forall₂ (.cons (crosses_ox h) (.cons (crosses_blxAlpha p h) .nil)) hcross
  obtain ⟨genes, hgenes, rfl, rfl⟩ := hR _ _ _ _ _ _ hdna
  obtain ⟨genes', hgenes', rfl⟩ := complete_spec h1.lt.ne h2.lt.ne hcomplete
  rw [Store.alloc_self, Store.alloc_of_lt h1.lt, Store.alloc_of_lt h2.lt, h1.dna, h2.dna] at hgenes'
  rw [h1.dna, h2.dna] at hgenes
  obtain ⟨hdecode, rfl⟩ := run_attempt_eq_some.mp hd
  have hlist : ((((h.alloc genes).write h.next genes').alloc own).list h.next) = genes' := by
    rw [Store.alloc_of_lt (by simp), Store.write_self]
  rw [hlist] at hdecode
  let c : Subject := ⟨ref, genes', d, none, -1, []⟩
  have hgenerate : (Genetic.generate p parent1 ref genes').run ω₃ = some (c, ω₄) := by
    unfold Genetic.generate
    simp only [hv]
    exact run_bind_eq_some.mpr ⟨own, ω₄, hown, run_attempt_eq_some.mpr ⟨decode_eq_some.mpr ⟨d, hdecode, rfl⟩, rfl⟩⟩
  refine ⟨c, ?_, ⟨?_, hlist, rfl⟩, rfl, fun a ha => ?_⟩
  · exact run_bind_eq_some.mpr ⟨cross', ω₁, hcross', run_bind_eq_some.mpr ⟨genes, ω₂, hgenes,
      run_bind_eq_some.mpr ⟨genes', ω₃, hgenes', hgenerate⟩⟩⟩
  · simp only [Store.alloc_next, Store.write_next]
    omega
  · rw [Store.alloc_of_lt (by simp only [Store.alloc_next, Store.write_next]; omega), Store.write_of_ne ha.ne,
      Store.alloc_of_lt ha]

/-- What a mutation in memory does, and the result of the mutation on values. -/
inductive Mutates (h : Store) (dna : ℕ) : Option ℕ × Store → List Gene × Option (List Gene) → Prop
  | nothing : Mutates h dna (none, h) (h.list dna, none)
  | changes (genes : List Gene) : Mutates h dna (some dna, h.write dna genes) (genes, some genes)
  | creates (genes : List Gene) : Mutates h dna (some h.next, h.alloc genes) (h.list dna, some genes)

/-- A mutation in memory that does what the mutation on values does. -/
def MutatesAs (h : Store) (mutate : ℕ → Drawing (Option ℕ × Store))
    (mutate' : List Gene → Drawing (List Gene × Option (List Gene))) : Prop :=
  ∀ dna ω r ω', (mutate dna).run ω = some (r, ω') →
    ∃ out, (mutate' (h.list dna)).run ω = some (out, ω') ∧ Mutates h dna r out

theorem mutatesAs_remove (p : Specie) (h : Store) : MutatesAs h (mutationRemove p h) (Genetic.mutationRemove p) := by
  intro dna ω r ω' hrun
  unfold mutationRemove at hrun
  unfold Genetic.mutationRemove
  split at hrun
  · next hlen =>
      obtain ⟨i, ω₁, hi, hrun⟩ := run_bind_eq_some.mp hrun
      obtain ⟨rfl, rfl⟩ := run_pure_eq_some.mp hrun
      rw [if_pos hlen]
      exact ⟨_, run_bind_eq_some.mpr ⟨i, ω₁, hi, run_pure_eq_some.mpr ⟨rfl, rfl⟩⟩, .changes _⟩
  · next hlen =>
      obtain ⟨rfl, rfl⟩ := run_pure_eq_some.mp hrun
      rw [if_neg hlen]
      exact ⟨_, run_pure_eq_some.mpr ⟨rfl, rfl⟩, .nothing⟩

theorem mutatesAs_insert (p : Specie) (h : Store) : MutatesAs h (mutationInsert p h) (Genetic.mutationInsert p) := by
  intro dna ω r ω' hrun
  unfold mutationInsert at hrun
  unfold Genetic.mutationInsert
  split at hrun
  · next hlen =>
      obtain ⟨i, ω₁, hi, hrun⟩ := run_bind_eq_some.mp hrun
      obtain ⟨gene, ω₂, hgene, hrun⟩ := run_bind_eq_some.mp hrun
      obtain ⟨rfl, rfl⟩ := run_pure_eq_some.mp hrun
      rw [if_pos hlen]
      exact ⟨_, run_bind_eq_some.mpr ⟨i, ω₁, hi, run_bind_eq_some.mpr ⟨gene, ω₂, hgene, run_pure_eq_some.mpr ⟨rfl, rfl⟩⟩⟩,
        .changes _⟩
  · next hlen =>
      obtain ⟨rfl, rfl⟩ := run_pure_eq_some.mp hrun
      rw [if_neg hlen]
      exact ⟨_, run_pure_eq_some.mpr ⟨rfl, rfl⟩, .nothing⟩

/-- The two mutations that collect a new list. -/
theorem mutatesAs_collect (h : Store) (draw : Gene → Drawing Gene) :
    MutatesAs h (fun dna => do
        let (newDna, h) ← collect h draw (h.list dna)
        return (some newDna, h))
      (fun dna => do
        let newDna ← dna.mapM draw
        return (dna, some newDna)) := by
  intro dna ω r ω' hrun
  obtain ⟨⟨newDna, h'⟩, ω₁, hnew, hrun⟩ := run_bind_eq_some.mp hrun
  obtain ⟨rfl, rfl⟩ := run_pure_eq_some.mp hrun
  obtain ⟨genes, hgenes, rfl, rfl⟩ := collect_spec hnew
  exact ⟨_, run_bind_eq_some.mpr ⟨genes, ω₁, hgenes, run_pure_eq_some.mpr ⟨rfl, rfl⟩⟩, .creates genes⟩

/-- What `mutation` does in memory, by what the mutation did. -/
theorem assign_spec {b b' : Body} {c : Subject} (hc : Holds h b c) {r : Option ℕ × Store}
    {out : List Gene × Option (List Gene)} (hmut : Mutates h b.dna r out)
    (hrun : (assign p b r).run ω = some ((b', h'), ω')) :
    ∃ c', (Genetic.assign p c out).run ω = some (c', ω') ∧ Holds h' b' c' ∧ (b'.dna = b.dna ∨ b'.dna = h.next) ∧
      ∀ a < h.next, a ≠ b.dna → h'.list a = h.list a := by
  have hsame : (⟨c.ref, h.list b.dna, c.dnaDecoded, c.generation, c.id, c.parents⟩ : Subject) = c := by rw [hc.dna]
  cases hmut with
  | nothing =>
      obtain ⟨heq, rfl⟩ := run_pure_eq_some.mp hrun
      cases heq
      exact ⟨_, run_pure_eq_some.mpr ⟨rfl, rfl⟩, by rwa [hsame], .inl rfl, fun _ _ _ => rfl⟩
  | changes genes =>
      have hlist := Store.write_self h b.dna genes
      have hframe : ∀ a < h.next, a ≠ b.dna → (h.write b.dna genes).list a = h.list a :=
        fun a _ hne => Store.write_of_ne hne genes
      rw [assign, hlist] at hrun
      cases genes with
      | nil =>
          obtain ⟨heq, rfl⟩ := run_pure_eq_some.mp hrun
          cases heq
          exact ⟨_, run_pure_eq_some.mpr ⟨rfl, rfl⟩, ⟨hc.lt, hlist, hc.dnaDecoded⟩, .inl rfl, hframe⟩
      | cons g l =>
          obtain ⟨d, ω₁, hdecode, hrun⟩ := run_bind_eq_some.mp hrun
          obtain ⟨heq, rfl⟩ := run_pure_eq_some.mp hrun
          cases heq
          obtain ⟨hd, rfl⟩ := run_attempt_eq_some.mp hdecode
          exact ⟨_, run_attempt_eq_some.mpr ⟨decode_eq_some.mpr ⟨d, hd, rfl⟩, rfl⟩, ⟨hc.lt, hlist, rfl⟩, .inl rfl, hframe⟩
  | creates genes =>
      have hlist := Store.alloc_self h genes
      have hframe : ∀ a < h.next, a ≠ b.dna → (h.alloc genes).list a = h.list a :=
        fun a ha _ => Store.alloc_of_lt ha genes
      have hkept := Store.alloc_of_lt hc.lt genes
      rw [assign, hlist] at hrun
      cases genes with
      | nil =>
          obtain ⟨heq, rfl⟩ := run_pure_eq_some.mp hrun
          cases heq
          exact ⟨_, run_pure_eq_some.mpr ⟨rfl, rfl⟩, ⟨Nat.lt_succ_of_lt hc.lt, hkept, hc.dnaDecoded⟩, .inl rfl, hframe⟩
      | cons g l =>
          obtain ⟨d, ω₁, hdecode, hrun⟩ := run_bind_eq_some.mp hrun
          obtain ⟨heq, rfl⟩ := run_pure_eq_some.mp hrun
          cases heq
          obtain ⟨hd, rfl⟩ := run_attempt_eq_some.mp hdecode
          exact ⟨_, run_attempt_eq_some.mpr ⟨decode_eq_some.mpr ⟨d, hd, rfl⟩, rfl⟩, ⟨Nat.lt_succ_self _, hlist, rfl⟩,
            .inr rfl, hframe⟩

/-- The list of the child is the only one that a mutation changes. -/
theorem mutation_spec {b b' : Body} {c : Subject} (hc : Holds h b c)
    (hrun : (mutation p h b).run ω = some ((b', h'), ω')) :
    ∃ c', (Genetic.mutation p c).run ω = some (c', ω') ∧ Holds h' b' c' ∧ (b'.dna = b.dna ∨ b'.dna = h.next) ∧
      ∀ a < h.next, a ≠ b.dna → h'.list a = h.list a := by
  obtain ⟨u, ω₁, hu, hrun⟩ := run_bind_eq_some.mp hrun
  split at hrun
  · next hlt =>
      obtain ⟨mutate, ω₂, hmutate, hrun⟩ := run_bind_eq_some.mp hrun
      obtain ⟨r, ω₃, hr, hrun⟩ := run_bind_eq_some.mp hrun
      obtain ⟨mutate', hmutate', hR⟩ := choice_forall₂ (.cons (mutatesAs_remove p h) (.cons (mutatesAs_insert p h)
        (.cons (mutatesAs_collect h _) (.cons (mutatesAs_collect h _) .nil)))) hmutate
      obtain ⟨out, hout, hmut⟩ := hR _ _ _ _ hr
      rw [hc.dna] at hout
      obtain ⟨c', hassign, hrest⟩ := assign_spec hc hmut hrun
      exact ⟨c', mutation_of_assign hu hlt hmutate' hout hassign, hrest⟩
  · next hge =>
      obtain ⟨heq, rfl⟩ := run_pure_eq_some.mp hrun
      cases heq
      refine ⟨c, run_bind_eq_some.mpr ⟨u, ω₁, hu, ?_⟩, hc, .inl rfl, fun _ _ _ => rfl⟩
      rw [if_neg hge]
      exact run_pure_eq_some.mpr ⟨rfl, rfl⟩

/-- **Parents keep their genomes.**  Crossover and mutation in memory make the child of the value
model; its list is new, and every list that there was keeps its genes. -/
theorem offspring_spec (hv : p.version = .ros) {b b1 b2 : Body} {parent1 parent2 : Subject} (h1 : Holds h b1 parent1)
    (h2 : Holds h b2 parent2) (ref : ℕ) (hrun : (offspring p h b1 b2).run ω = some ((b, h'), ω')) :
    (∃ c, (do Genetic.mutation p (← Genetic.crossover p parent1 parent2 ref)).run ω = some (c, ω') ∧ Holds h' b c) ∧
      h.next ≤ b.dna ∧ ∀ a < h.next, h'.list a = h.list a := by
  obtain ⟨⟨b₁, h₁⟩, ω₁, hcross, hmut⟩ := run_bind_eq_some.mp hrun
  obtain ⟨c, hc, hholds, hnew, hframe⟩ := crossover_spec hv h1 h2 ref hcross
  obtain ⟨c', hc', hholds', haddr, hframe'⟩ := mutation_spec hholds hmut
  have hlt := hholds.lt
  refine ⟨⟨c', run_bind_eq_some.mpr ⟨c, ω₁, hc, hc'⟩, hholds'⟩, ?_, fun a ha => ?_⟩
  · omega
  · rw [hframe' a (by omega) (by omega), hframe a ha]

end InPlace

end

end DroneArch.Genetic
