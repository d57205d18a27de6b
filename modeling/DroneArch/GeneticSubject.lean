import DroneArch.AreaInflation
import DroneArch.RandomChoices

/-! # Individuals of the genetic planner

The class `Subject` and the penalty of `Genetic._fitness`, of the planner of the decision support
(`path-planning-ros/genetic/genetic.py`) and of the planner service (`genetic_v2_3.py`), in exact
arithmetic.  The second subtracts the drag from the speed, copies a parent instead of drawing a new
individual, and weighs no distance.

* `mutation` changes the genome that it is given in place, or returns a new one.  A result without
  genes counts as no result, and then the route is not decoded again. -/

namespace DroneArch.Genetic

open Planar Real RandomChoices

/-- The two files of the planner. -/
inductive Version
  | ros
  | v2_3
  deriving DecidableEq

noncomputable section

structure Gene where
  a : ℝ
  e : ℝ

structure GeneDecoded where
  x : ℝ
  y : ℝ
  v : ℝ
  al : ℝ

/-- The keyword arguments of `Subject`, the same for all individuals of a planner. -/
structure Specie where
  version : Version
  px0 : ℝ
  py0 : ℝ
  v0 : ℝ
  al0 : ℝ
  vMin : ℝ
  vMax : ℝ
  eMin : ℝ
  eMax : ℝ
  aMin : ℝ
  aMax : ℝ
  tMin : ℤ
  tMax : ℤ
  deltaT : ℝ
  m : ℝ
  mutationProb : ℝ

/-- The default arguments of `Subject.__init__`. -/
def Specie.default (version : Version) : Specie where
  version := version
  px0 := 10
  py0 := 10
  v0 := 0
  al0 := 0
  vMin := 111 / 10
  vMax := 305 / 10
  eMin := -3
  eMax := 3
  aMin := -2
  aMax := 2
  tMin := 1
  tMax := match version with
    | .ros => 25
    | .v2_3 => 7
  deltaT := 1
  m := 743
  mutationProb := 7 / 10

/-- `gene_decoded_0`. -/
def Specie.geneDecoded0 (p : Specie) : GeneDecoded := ⟨p.px0, p.py0, p.v0, p.al0⟩

/-- An individual.  `ref` is the identity of the object, which `index` and `remove` compare. -/
structure Subject where
  ref : ℕ
  dna : List Gene
  dnaDecoded : List GeneDecoded
  generation : Option ℕ
  id : ℤ
  parents : List ℤ

/-- An individual with the penalty that `set_fitness` has stored. -/
structure Rated extends Subject where
  fitness : ℝ
  fitnessTrace : List ℝ

/-! ### Spawning and decoding -/

/-- `_build_gene`. -/
def buildGene (p : Specie) : Drawing Gene := do
  let a ← uniform p.aMin p.aMax
  let e ← uniform p.eMin p.eMax
  return ⟨a, e⟩

/-- The horizon `T` of `__init__`, and `spawn`. -/
def spawn (p : Specie) : Drawing (List Gene) := do
  let T ← randint p.tMin p.tMax
  (List.range T.toNat).mapM (fun _ => buildGene p)

/-- `Subject.__F`. -/
def drag (v : ℝ) : ℝ :=
  let Cd := 8 / 10
  let rho := 1225 / 1000
  let A := 1
  1 / 2 * Cd * rho * A * v ^ 2

/-- The loss of speed in one interval.  Only `genetic_v2_3.py` has it. -/
def speedLoss (p : Specie) (v : ℝ) : Option ℝ :=
  match p.version with
  | .ros => some 0
  | .v2_3 => if p.m = 0 then none else some (drag v / p.m * p.deltaT)

/-- One pass of the loop of `_decode_gene`. -/
def decodeStep (p : Specie) (s : GeneDecoded) (g : Gene) : Option GeneDecoded := do
  let loss ← speedLoss p s.v
  return {
    x := s.x + s.v * cos s.al * p.deltaT + g.a * cos s.al * (p.deltaT ^ 2 / 2)
    y := s.y + s.v * sin s.al * p.deltaT + g.a * sin s.al * (p.deltaT ^ 2 / 2)
    v := s.v + g.a * p.deltaT - loss
    al := s.al + g.e * p.deltaT }

/-- The loop of `_decode_gene`, from the last state decoded so far. -/
def decodeFrom (p : Specie) : GeneDecoded → List Gene → Option (List GeneDecoded)
  | s, [] => some [s]
  | s, g :: dna => do
      let s' ← decodeStep p s g
      return s :: (← decodeFrom p s' dna)

/-- `_decode_gene`. -/
def decodeGene (p : Specie) (dna : List Gene) : Option (List GeneDecoded) :=
  decodeFrom p p.geneDecoded0 dna

/-- `decode`. -/
def decode (p : Specie) (s : Subject) : Option Subject :=
  (decodeGene p s.dna).map (fun dnaDecoded => { s with dnaDecoded })

/-! ### Crossover -/

/-- A value brought back to its limits. -/
def clamp (minVal maxVal val : ℝ) : ℝ :=
  if val > maxVal then maxVal else if val < minVal then minVal else val

/-- `_OX`. -/
def ox (dna1 dna2 : List Gene) : Drawing (List Gene) :=
  (dna1.zip dna2).mapM (fun g => choice [g.1, g.2])

/-- `__BLX_ALpha_select_gene`. -/
def blxAlphaSelectGene (x y : ℝ) : Drawing ℝ := do
  let alpha ← uniform 0 1
  let d := |x - y|
  uniform (min x y - alpha * d) (max x y + alpha * d)

/-- `_BLX_Alpha`. -/
def blxAlpha (p : Specie) (dna1 dna2 : List Gene) : Drawing (List Gene) :=
  (dna1.zip dna2).mapM (fun g => do
    let a ← blxAlphaSelectGene g.1.a g.2.a
    let e ← blxAlphaSelectGene g.1.e g.2.e
    return ⟨clamp p.aMin p.aMax a, clamp p.eMin p.eMax e⟩)

/-- The gene at an index, counted from the end where it is negative. -/
def geneAt (dna : List Gene) (i : ℤ) : Option Gene :=
  if 0 ≤ i then dna[i.toNat]?
  else if 0 ≤ dna.length + i then dna[(dna.length + i).toNat]?
  else none

/-- `_complete`. -/
def complete (dna dna1 dna2 : List Gene) : Drawing (List Gene) :=
  let (bigger, smaller) := if dna1.length > dna2.length then (dna1, dna2) else (dna2, dna1)
  let indices := (List.range (bigger.length - smaller.length)).map (fun (j : ℕ) => (smaller.length : ℤ) - 1 + j)
  indices.foldlM (fun dna i => do
    if (← random) < 1 / 2 then return dna ++ [← attempt (geneAt bigger i)]
    else return dna) dna

/-- `generate`: a new individual, or a copy of the first parent, that is given the genome. -/
def generate (p : Specie) (parent : Subject) (ref : ℕ) (dna : List Gene) : Drawing Subject := do
  match p.version with
  | .ros =>
      let _ ← spawn p
      attempt (decode p { ref, dna, dnaDecoded := [], generation := none, id := -1, parents := [] })
  | .v2_3 => attempt (decode p { parent with ref, dna })

/-- `crossover`; the child is the object `ref`. -/
def crossover (p : Specie) (parent1 parent2 : Subject) (ref : ℕ) : Drawing Subject := do
  let cross ← choice [ox, blxAlpha p]
  let dna ← cross parent1.dna parent2.dna
  let dna ← complete dna parent1.dna parent2.dna
  generate p parent1 ref dna

/-! ### Mutation

A mutation leaves a genome in place and returns a genome, or nothing. -/

/-- `_mutation_change`. -/
def mutationChange (p : Specie) (dna : List Gene) : Drawing (List Gene × Option (List Gene)) := do
  let newDna ← dna.mapM (fun gene => do
    if (← random) < 1 / 2 then buildGene p else return gene)
  return (dna, some newDna)

/-- `_mutation_remove`. -/
def mutationRemove (p : Specie) (dna : List Gene) : Drawing (List Gene × Option (List Gene)) := do
  if dna.length > p.tMin then
    let i ← randint 0 (dna.length - 1)
    return (dna.eraseIdx i.toNat, some (dna.eraseIdx i.toNat))
  else return (dna, none)

/-- `_mutation_insert`. -/
def mutationInsert (p : Specie) (dna : List Gene) : Drawing (List Gene × Option (List Gene)) := do
  if dna.length < p.tMax then
    let i ← randint 0 (dna.length - 1)
    let gene ← buildGene p
    return (dna.insertIdx i.toNat gene, some (dna.insertIdx i.toNat gene))
  else return (dna, none)

/-- `__mute`. -/
def mute (val minVal maxVal : ℝ) : Drawing ℝ := do
  let mutationRate ← uniform 0 (maxVal * (1 / 2))
  let s ← choice [1, -1]
  return clamp minVal maxVal (val * (1 + mutationRate * s))

/-- `_mutation_creep`. -/
def mutationCreep (p : Specie) (dna : List Gene) : Drawing (List Gene × Option (List Gene)) := do
  let newDna ← dna.mapM (fun gene => do
    let a ← mute gene.a p.aMin p.aMax
    let e ← mute gene.e p.eMin p.eMax
    return (⟨a, e⟩ : Gene))
  return (dna, some newDna)

/-- `mutation`. -/
def mutation (p : Specie) (s : Subject) : Drawing Subject := do
  if (← random) < p.mutationProb then
    let mutate ← choice [mutationRemove p, mutationInsert p, mutationCreep p, mutationChange p]
    match ← mutate s.dna with
    -- an empty list is false
    | (_, some (g :: newDna)) => attempt (decode p { s with dna := g :: newDna })
    | (dna, _) => return { s with dna }
  else return s

end

end DroneArch.Genetic
