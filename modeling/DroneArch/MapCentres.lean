import Mathlib.Analysis.Real.Pi.Bounds
import DroneArch.AreaInflation
import DroneArch.Replanning

/-! # The centres of the places of a map

`mapa.json` stores a point as longitude, latitude and altitude.  `list_to_geopoint` of
`create_pddl_global.py` and `update.py` takes the first of them for the latitude; `read_mapa` of the
path planner takes the second.  The projection `geo_to_cart` is the same text in all of them.

* `getFunction_distance_iff`: when a distance in the knowledge base is the one the planner flies.
* `getLocation_nearest_iff`: when the place that `get_location` finds is the nearest one. -/

namespace DroneArch.MapCentres

open Planar Real Genetic Rosplan

/-- A region or a base of the file. -/
structure Place (R : Type) where
  name : R
  center : Stored

/-- The entry of `mapa.json`. -/
structure MapaJson (R : Type) where
  geoHome : Stored
  regions : List (Place R)
  bases : List (Place R)

section
variable {R : Type}

/-- The places in the order in which both scripts read them. -/
def MapaJson.places (mapa : MapaJson R) : List (Place R) := mapa.regions ++ mapa.bases

/-- `get_regions` and `get_bases`. -/
def MapaJson.names (mapa : MapaJson R) : Journal.Mapa R :=
  ⟨mapa.regions.map Place.name, mapa.bases.map Place.name⟩

/-- `list_to_geopoint`: `GeoPoint(l[0], l[1], l[2])`. -/
def listToGeopoint (l : Stored) : GeoPoint := ⟨l.1, l.2.1, l.2.2⟩

noncomputable section

/-- `euclidean_distance`. -/
def euclideanDistance (A B : Point ℝ) : ℝ := √((B.x - A.x) ^ 2 + (B.y - A.y) ^ 2)

/-- The `cart_center` of `read_json` and `get_location`. -/
def MapaJson.cartCenter (mapa : MapaJson R) (p : Place R) : Point ℝ :=
  geoToCart (listToGeopoint p.center) (listToGeopoint mapa.geoHome)

/-- The centre in the planner's convention. -/
def MapaJson.planned (mapa : MapaJson R) (p : Place R) : Point ℝ :=
  geoToCart p.center.geoPoint mapa.geoHome.geoPoint

/-- `calc_distances`. -/
def calcDistances (centers : List (Point ℝ)) : List (List ℝ) :=
  centers.map (fun ri => centers.map (fun rj => euclideanDistance ri rj))

end

/-- `format_distances`. -/
def formatDistances [DecidableEq R] (distances : List (List ℝ)) (names : List R) : List ((R × R) × ℝ) :=
  (distances.zip names).flatMap (fun (di, li) =>
    (di.zip names).filterMap (fun (dj, lj) => if li ≠ lj then some ((li, lj), dj) else none))

/-- The distances that `create_pddl_global.py` puts into the knowledge base. -/
noncomputable def MapaJson.distances [DecidableEq R] (mapa : MapaJson R) : List ((R × R) × ℝ) :=
  formatDistances (calcDistances (mapa.places.map mapa.cartCenter)) (mapa.places.map Place.name)

/-! ### Distances -/

/-- Metres per degree in the two directions at the equator. -/
noncomputable def degreeX : ℝ := 6400000 * 2 * π / 360

noncomputable def degreeY : ℝ := 10000000 / 90

/-- The cosine factor at a coordinate of the home point. -/
noncomputable def factor (degrees : ℝ) : ℝ := degreeX * cos (degrees * π / 180)

theorem geoToCart_eq (p home : GeoPoint) :
    geoToCart p home =
      ⟨(p.longitude - home.longitude) * factor home.latitude, (p.latitude - home.latitude) * degreeY⟩ := by
  unfold geoToCart factor degreeX degreeY
  congr 1
  ring

/-- The square of the distance between two projected points. -/
theorem sq_sub_geoToCart (p q home : GeoPoint) :
    ((geoToCart q home).x - (geoToCart p home).x) ^ 2 + ((geoToCart q home).y - (geoToCart p home).y) ^ 2 =
      (factor home.latitude * (q.longitude - p.longitude)) ^ 2 + (degreeY * (q.latitude - p.latitude)) ^ 2 := by
  rw [geoToCart_eq, geoToCart_eq]
  ring

variable [DecidableEq R]

/-- The last place with the name, whose distances overwrite the others'. -/
def MapaJson.lastNamed (mapa : MapaJson R) (name : R) : Option (Place R) :=
  mapa.places.reverse.find? (fun p => decide (p.name = name))

theorem lastNamed_isSome {mapa : MapaJson R} {p : Place R} (hp : p ∈ mapa.places) :
    ∃ p', mapa.lastNamed p.name = some p' ∧ p'.name = p.name := by
  have hsome : (mapa.lastNamed p.name).isSome = true := by
    unfold MapaJson.lastNamed
    rw [List.find?_isSome]
    exact ⟨p, List.mem_reverse.mpr hp, by simp⟩
  obtain ⟨p', hp'⟩ := Option.isSome_iff_exists.mp hsome
  have hfound : mapa.places.reverse.find? (fun q => decide (q.name = p.name)) = some p' := hp'
  exact ⟨p', hp', by simpa using List.find?_some hfound⟩

/-- The loops of `calc_distances` and `format_distances` together. -/
theorem distances_eq (mapa : MapaJson R) :
    mapa.distances = mapa.places.flatMap (fun p => mapa.places.filterMap (fun q =>
      if p.name ≠ q.name then
        some ((p.name, q.name), euclideanDistance (mapa.cartCenter p) (mapa.cartCenter q))
      else none)) := by
  unfold MapaJson.distances formatDistances calcDistances
  rw [List.map_map, List.zip_map', List.flatMap_map]
  congr 1
  funext p
  simp only [Function.comp, List.map_map]
  rw [List.zip_map', List.filterMap_map]
  rfl

/-- The last distance from `p` to a place named `b`, among those from a place named `a`. -/
theorem find?_row {mapa : MapaJson R} {a b : R} (hab : a ≠ b) {q : Place R} (hq : mapa.lastNamed b = some q)
    (p : Place R) :
    (mapa.places.reverse.filterMap (fun q' =>
      if p.name ≠ q'.name then
        some ((p.name, q'.name), euclideanDistance (mapa.cartCenter p) (mapa.cartCenter q'))
      else none)).find? (fun d => decide (d.1 = (a, b))) =
    (Option.guard (fun p' : Place R => decide (p'.name = a)) p).map
      (fun p' => ((a, b), euclideanDistance (mapa.cartCenter p') (mapa.cartCenter q))) := by
  rw [List.find?_filterMap]
  by_cases hname : p.name = a
  · have hsame : ∀ q' ∈ mapa.places.reverse,
        Option.any (fun d : (R × R) × ℝ => decide (d.1 = (a, b)))
          (if p.name ≠ q'.name then
            some ((p.name, q'.name), euclideanDistance (mapa.cartCenter p) (mapa.cartCenter q')) else none) =
        decide (q'.name = b) := by
      intro q' _
      by_cases hq' : q'.name = b
      · simp [hname, hq', hab]
      · by_cases ha : a = q'.name <;> simp [hname, hq', ha]
    have hfound : mapa.places.reverse.find? (fun q' => decide (q'.name = b)) = some q := hq
    have hqb : q.name = b := by simpa using List.find?_some hfound
    rw [List.find?_congr hsame, hfound]
    simp [Option.guard, hname, hqb, hab]
  · rw [Option.guard_eq_none_iff.mpr (by simpa using hname), Option.map_none, Option.bind_eq_none_iff.mpr]
    intro q' hq'
    have hkey := List.find?_some hq'
    revert hkey
    by_cases hne : p.name = q'.name <;> simp [hne, hname]

/-- The last distance given for two names is the one between the last places with these names. -/
theorem find?_distances {mapa : MapaJson R} {a b : R} (hab : a ≠ b) {p q : Place R}
    (hp : mapa.lastNamed a = some p) (hq : mapa.lastNamed b = some q) :
    mapa.distances.reverse.find? (fun d => decide (d.1 = (a, b))) =
      some ((a, b), euclideanDistance (mapa.cartCenter p) (mapa.cartCenter q)) := by
  have hfound : mapa.places.reverse.find? (fun p' => decide (p'.name = a)) = some p := hp
  rw [distances_eq, List.reverse_flatMap, List.find?_flatMap]
  simp only [Function.comp, ← List.filterMap_reverse, find?_row hab hq]
  refine List.map_findSome?.symm.trans ?_
  rw [List.findSome?_guard, hfound]
  rfl

/-! ### Distances in the knowledge base -/

omit [DecidableEq R] in
/-- The knowledge base keeps the last distance given for two names. -/
theorem createPddlGlobal_distance [DecidableEq R] (base_1 : R) (hardware : Journal.Hardware ℝ)
    (names : Journal.Mapa R) (obj : Journal.Objectives R) {distances : List ((R × R) × ℝ)} {a b : R} {d : (R × R) × ℝ}
    (hd : distances.reverse.find? (fun d => decide (d.1 = (a, b))) = some d) :
    (Journal.createPddlGlobal base_1 hardware names distances obj).getFunction (.distance a b) = some d.2 := by
  have hkey : ∀ e ∈ distances.reverse,
      decide ((.distance e.1.1 e.1.2 : Journal.Fluent R) = .distance a b) = decide (e.1 = (a, b)) := by
    intro e _
    simp [Prod.ext_iff]
  unfold Journal.createPddlGlobal
  rw [KnowledgeBase.getFunction_addFunction_of_ne _ _ (by simp),
    KnowledgeBase.getFunction_addFunction_of_ne _ _ (by simp),
    KnowledgeBase.getFunction_congr (Journal.foldl_addMissionGoal _ _).2,
    Journal.getFunction_addObjectives _ _ _ rfl,
    KnowledgeBase.getFunction_foldl_addFunction
      (fun d : (R × R) × ℝ => (.distance d.1.1 d.1.2 : Journal.Fluent R)) (fun d => d.2),
    List.find?_congr hkey, hd]
  rfl

/-- `p` itself when its name is not repeated. -/
def MapaJson.known (mapa : MapaJson R) (p : Place R) : Place R := (mapa.lastNamed p.name).getD p

theorem getFunction_distance {mapa : MapaJson R} {p q : Place R} (hp : p ∈ mapa.places) (hq : q ∈ mapa.places)
    (hne : p.name ≠ q.name) (base_1 : R) (hardware : Journal.Hardware ℝ) (obj : Journal.Objectives R) :
    (Journal.createPddlGlobal base_1 hardware mapa.names mapa.distances obj).getFunction
        (.distance p.name q.name) =
      some (euclideanDistance (mapa.cartCenter (mapa.known p)) (mapa.cartCenter (mapa.known q))) := by
  obtain ⟨p', hp', _⟩ := lastNamed_isSome hp
  obtain ⟨q', hq', _⟩ := lastNamed_isSome hq
  unfold MapaJson.known
  rw [hp', hq', createPddlGlobal_distance _ _ _ _ (find?_distances hne hp' hq')]
  rfl

/-- A name belongs to one place. -/
def MapaJson.NamesDiffer (mapa : MapaJson R) : Prop :=
  ∀ p ∈ mapa.places, ∀ q ∈ mapa.places, p.name = q.name → p = q

theorem known_eq {mapa : MapaJson R} (h : mapa.NamesDiffer) {p : Place R} (hp : p ∈ mapa.places) :
    mapa.known p = p := by
  obtain ⟨p', hp', hname⟩ := lastNamed_isSome hp
  have hmem : p' ∈ mapa.places := List.mem_reverse.mp (List.mem_of_find?_eq_some hp')
  unfold MapaJson.known
  rw [hp', Option.getD_some]
  exact h p' hmem p hp hname

omit [DecidableEq R] in
/-- The two squares of distances, in degrees: the scripts' and the planner's. -/
theorem euclideanDistance_eq_iff (mapa : MapaJson R) (p q p' q' : Place R) :
    euclideanDistance (mapa.cartCenter p') (mapa.cartCenter q') =
        euclideanDistance (mapa.planned p) (mapa.planned q) ↔
      (factor mapa.geoHome.1 * (q'.center.2.1 - p'.center.2.1)) ^ 2 +
          (degreeY * (q'.center.1 - p'.center.1)) ^ 2 =
        (factor mapa.geoHome.2.1 * (q.center.1 - p.center.1)) ^ 2 +
          (degreeY * (q.center.2.1 - p.center.2.1)) ^ 2 := by
  unfold euclideanDistance MapaJson.cartCenter MapaJson.planned
  rw [sq_sub_geoToCart, sq_sub_geoToCart, Real.sqrt_inj (by positivity) (by positivity)]
  rfl

/-- The differences of the stored coordinates weigh the same in both conventions: latitudes are weighed with the
cosine at the home longitude on one side and with none on the other, and longitudes the other way round. -/
def Balanced (mapa : MapaJson R) (p q : Place R) : Prop :=
  (factor mapa.geoHome.1 * ((mapa.known q).center.2.1 - (mapa.known p).center.2.1)) ^ 2 +
      (degreeY * ((mapa.known q).center.1 - (mapa.known p).center.1)) ^ 2 =
    (factor mapa.geoHome.2.1 * (q.center.1 - p.center.1)) ^ 2 +
      (degreeY * (q.center.2.1 - p.center.2.1)) ^ 2

/-- Without repeated names there is one equation between the two differences. -/
theorem balanced_iff {mapa : MapaJson R} (h : mapa.NamesDiffer) {p q : Place R} (hp : p ∈ mapa.places)
    (hq : q ∈ mapa.places) : Balanced mapa p q ↔
      (q.center.2.1 - p.center.2.1) ^ 2 * (factor mapa.geoHome.1 ^ 2 - degreeY ^ 2) =
        (q.center.1 - p.center.1) ^ 2 * (factor mapa.geoHome.2.1 ^ 2 - degreeY ^ 2) := by
  unfold Balanced
  rw [known_eq h hp, known_eq h hq]
  constructor
  · intro heq
    linear_combination heq
  · intro heq
    linear_combination heq

/-- **Distances.**  For two places with different names the distance in the knowledge base is the one that the
path planner flies exactly when the differences of their coordinates are balanced; without repeated names this is one
equation between the two differences. -/
theorem getFunction_distance_iff {mapa : MapaJson R} {p q : Place R} (hp : p ∈ mapa.places) (hq : q ∈ mapa.places)
    (hne : p.name ≠ q.name) (base_1 : R) (hardware : Journal.Hardware ℝ) (obj : Journal.Objectives R) :
    ((Journal.createPddlGlobal base_1 hardware mapa.names mapa.distances obj).getFunction
        (.distance p.name q.name) = some (euclideanDistance (mapa.planned p) (mapa.planned q)) ↔
      Balanced mapa p q) ∧
    (mapa.NamesDiffer →
      ((Journal.createPddlGlobal base_1 hardware mapa.names mapa.distances obj).getFunction
          (.distance p.name q.name) = some (euclideanDistance (mapa.planned p) (mapa.planned q)) ↔
        (q.center.2.1 - p.center.2.1) ^ 2 * (factor mapa.geoHome.1 ^ 2 - degreeY ^ 2) =
          (q.center.1 - p.center.1) ^ 2 * (factor mapa.geoHome.2.1 ^ 2 - degreeY ^ 2))) := by
  have hbalanced : (Journal.createPddlGlobal base_1 hardware mapa.names mapa.distances obj).getFunction
      (.distance p.name q.name) = some (euclideanDistance (mapa.planned p) (mapa.planned q)) ↔ Balanced mapa p q := by
    rw [getFunction_distance hp hq hne, Option.some_inj, euclideanDistance_eq_iff]
    rfl
  exact ⟨hbalanced, fun h => hbalanced.trans (balanced_iff h hp hq)⟩

end

/-! ### The place nearest to a fix -/

section
variable {R : Type}

/-- `get_location` of `update.py`; the map without places has no `region_name`. -/
noncomputable def MapaJson.getLocation (mapa : MapaJson R) (latitude longitude : ℝ) : Option R :=
  (Journal.getLocation
    (fun p => euclideanDistance (geoToCart ⟨latitude, longitude, 15⟩ (listToGeopoint mapa.geoHome))
      (mapa.cartCenter p)) ⟨mapa.regions, mapa.bases⟩).map Place.name

/-- The place is nearest to the fix in the planner's convention. -/
def MapaJson.Nearest (mapa : MapaJson R) (latitude longitude : ℝ) (p : Place R) : Prop :=
  p ∈ mapa.places ∧ ∀ q ∈ mapa.places,
    euclideanDistance (geoToCart ⟨latitude, longitude, 15⟩ mapa.geoHome.geoPoint) (mapa.planned p) ≤
      euclideanDistance (geoToCart ⟨latitude, longitude, 15⟩ mapa.geoHome.geoPoint) (mapa.planned q)

/-- The square of the distance to the fix. -/
noncomputable def MapaJson.apart (mapa : MapaJson R) (latitude longitude : ℝ) (p : Place R) : ℝ :=
  (factor mapa.geoHome.2.1 * (p.center.1 - longitude)) ^ 2 + (degreeY * (p.center.2.1 - latitude)) ^ 2

/-- The same with the coordinates of the places and of the home point exchanged. -/
noncomputable def MapaJson.exchanged (mapa : MapaJson R) (latitude longitude : ℝ) (p : Place R) : ℝ :=
  (factor mapa.geoHome.1 * (p.center.2.1 - longitude)) ^ 2 + (degreeY * (p.center.1 - latitude)) ^ 2

/-- The side of the bisector of two places on which the fix lies: positive on the side of `p`. -/
noncomputable def MapaJson.lead (mapa : MapaJson R) (latitude longitude : ℝ) (p q : Place R) : ℝ :=
  factor mapa.geoHome.2.1 ^ 2 * ((q.center.1 - p.center.1) * (q.center.1 + p.center.1 - 2 * longitude)) +
    degreeY ^ 2 * ((q.center.2.1 - p.center.2.1) * (q.center.2.1 + p.center.2.1 - 2 * latitude))

/-- The same with the coordinates of the places and of the home point exchanged. -/
noncomputable def MapaJson.exchangedLead (mapa : MapaJson R) (latitude longitude : ℝ) (p q : Place R) : ℝ :=
  factor mapa.geoHome.1 ^ 2 * ((q.center.2.1 - p.center.2.1) * (q.center.2.1 + p.center.2.1 - 2 * longitude)) +
    degreeY ^ 2 * ((q.center.1 - p.center.1) * (q.center.1 + p.center.1 - 2 * latitude))

theorem lead_eq (mapa : MapaJson R) (latitude longitude : ℝ) (p q : Place R) :
    mapa.lead latitude longitude p q = mapa.apart latitude longitude q - mapa.apart latitude longitude p := by
  unfold MapaJson.lead MapaJson.apart
  ring

theorem exchangedLead_eq (mapa : MapaJson R) (latitude longitude : ℝ) (p q : Place R) :
    mapa.exchangedLead latitude longitude p q =
      mapa.exchanged latitude longitude q - mapa.exchanged latitude longitude p := by
  unfold MapaJson.exchangedLead MapaJson.exchanged
  ring

theorem euclideanDistance_planned (mapa : MapaJson R) (latitude longitude : ℝ) (p : Place R) :
    euclideanDistance (geoToCart ⟨latitude, longitude, 15⟩ mapa.geoHome.geoPoint) (mapa.planned p) =
      √(mapa.apart latitude longitude p) := by
  unfold euclideanDistance MapaJson.planned
  rw [sq_sub_geoToCart]
  rfl

theorem euclideanDistance_cartCenter (mapa : MapaJson R) (latitude longitude : ℝ) (p : Place R) :
    euclideanDistance (geoToCart ⟨latitude, longitude, 15⟩ (listToGeopoint mapa.geoHome)) (mapa.cartCenter p) =
      √(mapa.exchanged latitude longitude p) := by
  unfold euclideanDistance MapaJson.cartCenter
  rw [sq_sub_geoToCart]
  rfl

theorem nearest_iff {mapa : MapaJson R} {latitude longitude : ℝ} {p : Place R} :
    mapa.Nearest latitude longitude p ↔
      p ∈ mapa.places ∧ ∀ q ∈ mapa.places, mapa.apart latitude longitude p ≤ mapa.apart latitude longitude q := by
  unfold MapaJson.Nearest
  have hsq : ∀ q, mapa.apart latitude longitude p ≤ mapa.apart latitude longitude q ↔
      √(mapa.apart latitude longitude p) ≤ √(mapa.apart latitude longitude q) := by
    intro q
    rw [Real.sqrt_le_sqrt_iff (by unfold MapaJson.apart; positivity)]
  simp only [euclideanDistance_planned, hsq]

/-- `p` is a nearest place exactly when the fix lies on its side of the bisector with each place. -/
theorem nearest_iff_lead {mapa : MapaJson R} {latitude longitude : ℝ} {p : Place R} :
    mapa.Nearest latitude longitude p ↔ p ∈ mapa.places ∧ ∀ q ∈ mapa.places, 0 ≤ mapa.lead latitude longitude p q := by
  simp only [nearest_iff, lead_eq, sub_nonneg]

/-- The search keeps the first minimum of the places read so far. -/
theorem firstMin_foldl_closer (d : Place R → ℝ) {ps : List (Place R)} (h : ps ≠ []) :
    ∃ p, ps.foldl (Journal.closer d) none = some (d p, p) ∧ Lists.FirstMin d ps p := by
  induction ps using List.reverseRecOn with
  | nil => exact absurd rfl h
  | append_singleton ps q ih =>
      rw [List.foldl_append, List.foldl_cons, List.foldl_nil]
      cases ps with
      | nil => exact ⟨q, rfl, Lists.firstMin_singleton d q⟩
      | cons p₀ ps =>
          obtain ⟨p, hbest, hmin⟩ := ih (List.cons_ne_nil p₀ ps)
          rw [hbest]
          unfold Journal.closer
          by_cases hlt : d q < d p
          · exact ⟨q, if_pos hlt, hmin.concat_of_lt hlt⟩
          · exact ⟨p, if_neg hlt, hmin.concat_of_le (not_lt.mp hlt)⟩

/-- The place found is the first one at the smallest exchanged distance. -/
theorem getLocation_eq {mapa : MapaJson R} {latitude longitude : ℝ} {name : R} :
    mapa.getLocation latitude longitude = some name ↔
      ∃ p, Lists.FirstMin (mapa.exchanged latitude longitude) mapa.places p ∧ p.name = name := by
  have hsqrt : ∀ p q : Place R, √(mapa.exchanged latitude longitude p) ≤ √(mapa.exchanged latitude longitude q) ↔
      mapa.exchanged latitude longitude p ≤ mapa.exchanged latitude longitude q := by
    intro p q
    rw [Real.sqrt_le_sqrt_iff (by unfold MapaJson.exchanged; positivity)]
  have hfirst : ∀ p, Lists.FirstMin (fun p => √(mapa.exchanged latitude longitude p)) mapa.places p ↔
      Lists.FirstMin (mapa.exchanged latitude longitude) mapa.places p := by
    intro p
    simp only [Lists.FirstMin, ← not_le, hsqrt]
  unfold MapaJson.getLocation Journal.getLocation
  simp only [euclideanDistance_cartCenter, ← List.foldl_append]
  rw [show mapa.regions ++ mapa.bases = mapa.places from rfl]
  by_cases hnil : mapa.places = []
  · rw [hnil]
    constructor
    · intro h
      cases h
    · rintro ⟨p, hp, -⟩
      exact absurd hp.mem List.not_mem_nil
  · obtain ⟨p, hbest, hmin⟩ := firstMin_foldl_closer (fun p => √(mapa.exchanged latitude longitude p)) hnil
    rw [hbest, Option.map_some, Option.map_some, Option.some_inj]
    constructor
    · intro hname
      exact ⟨p, (hfirst p).mp hmin, hname⟩
    · rintro ⟨p', hp', hname⟩
      rw [← hname, ((hfirst p).mp hmin).unique hp']

/-- The name of a place for which the fix lies on its side of the bisector with each place. -/
def MapaJson.NearName (mapa : MapaJson R) (latitude longitude : ℝ) (name : R) : Prop :=
  ∃ p ∈ mapa.places, p.name = name ∧ ∀ q ∈ mapa.places, 0 ≤ mapa.lead latitude longitude p q

/-- Exchanging the coordinates leaves the fix on the side of a place with such a name, for its bisectors with all
the places whose names are others: it may lie on the bisector only with the places listed later. -/
def MapaJson.KeepsSide (mapa : MapaJson R) (latitude longitude : ℝ) : Prop :=
  ∃ l₁ p l₂, mapa.places = l₁ ++ p :: l₂ ∧ mapa.NearName latitude longitude p.name ∧
    (∀ q ∈ l₁, ¬ mapa.NearName latitude longitude q.name → 0 < mapa.exchangedLead latitude longitude p q) ∧
    ∀ q ∈ l₂, ¬ mapa.NearName latitude longitude q.name → 0 ≤ mapa.exchangedLead latitude longitude p q

theorem exists_firstMin_exchanged {mapa : MapaJson R} (h : mapa.places ≠ []) (latitude longitude : ℝ) :
    ∃ p, Lists.FirstMin (mapa.exchanged latitude longitude) mapa.places p := by
  obtain ⟨p, _, hp⟩ := firstMin_foldl_closer (mapa.exchanged latitude longitude) h
  exact ⟨p, hp⟩

/-- **Localisation.**  The place that `get_location` finds is a nearest one exactly when exchanging the coordinates
keeps the fix on the side of a nearest place. -/
theorem getLocation_nearest_iff (mapa : MapaJson R) (latitude longitude : ℝ) :
    (∃ p, mapa.Nearest latitude longitude p ∧ mapa.getLocation latitude longitude = some p.name) ↔
      mapa.KeepsSide latitude longitude := by
  have hnear : ∀ name, mapa.NearName latitude longitude name ↔ ∃ p, mapa.Nearest latitude longitude p ∧ p.name = name := by
    intro name
    simp only [MapaJson.NearName, nearest_iff_lead]
    constructor
    · rintro ⟨p, hp, hname, hle⟩
      exact ⟨p, ⟨hp, hle⟩, hname⟩
    · rintro ⟨p, ⟨hp, hle⟩, hname⟩
      exact ⟨p, hp, hname, hle⟩
  by_cases hnil : mapa.places = []
  · constructor
    · rintro ⟨p, ⟨hp, _⟩, _⟩
      rw [hnil] at hp
      cases hp
    · rintro ⟨l₁, p, l₂, hplaces, _⟩
      rw [hnil] at hplaces
      simp at hplaces
  · obtain ⟨m, hm⟩ := exists_firstMin_exchanged hnil latitude longitude
    have hfound : (∃ p, mapa.Nearest latitude longitude p ∧ mapa.getLocation latitude longitude = some p.name) ↔
        mapa.NearName latitude longitude m.name := by
      rw [hnear, getLocation_eq.mpr ⟨m, hm, rfl⟩]
      simp only [Option.some_inj, eq_comm]
    rw [hfound, hm.iff_exists (P := fun p => mapa.NearName latitude longitude p.name)]
    simp only [MapaJson.KeepsSide, exchangedLead_eq, sub_pos, sub_nonneg]

end

section demo

/-- A base at the home point and a field one degree to the east of it. -/
noncomputable def eastField : MapaJson Bool :=
  ⟨(0, 0, 0), [⟨true, (1, 0, 0)⟩], [⟨false, (0, 0, 0)⟩]⟩

noncomputable def eastHardware : Journal.Hardware ℝ := ⟨100, 10, 1, 1, 5⟩

theorem namesDiffer_eastField : eastField.NamesDiffer := by
  simp [MapaJson.NamesDiffer, eastField, MapaJson.places]

theorem factor_zero : factor 0 = degreeX := by
  simp [factor]

/-- A degree of longitude at the equator is longer than a degree of latitude, in these units. -/
theorem degreeY_lt_degreeX : degreeY < degreeX := by
  have hpi := Real.pi_gt_d2
  unfold degreeX degreeY
  linarith

theorem getFunction_distance_eastField :
    (Journal.createPddlGlobal false eastHardware eastField.names eastField.distances ⟨[], [], []⟩).getFunction
        (.distance true false) =
      some (euclideanDistance (eastField.planned ⟨true, (1, 0, 0)⟩) (eastField.planned ⟨false, (0, 0, 0)⟩)) ↔
      ((0 : ℝ) - 0) ^ 2 * (factor 0 ^ 2 - degreeY ^ 2) = (0 - 1) ^ 2 * (factor 0 ^ 2 - degreeY ^ 2) := by
  have hp : (⟨true, (1, 0, 0)⟩ : Place Bool) ∈ eastField.places := by simp [eastField, MapaJson.places]
  have hq : (⟨false, (0, 0, 0)⟩ : Place Bool) ∈ eastField.places := by simp [eastField, MapaJson.places]
  exact (getFunction_distance_iff hp hq (by simp) false eastHardware ⟨[], [], []⟩).2 namesDiffer_eastField

/-- The script takes the degree of longitude for one of latitude. -/
theorem getFunction_distance_fails : ¬ ∀ (mapa : MapaJson Bool) (p q : Place Bool) (base_1 : Bool)
    (hardware : Journal.Hardware ℝ) (obj : Journal.Objectives Bool),
    p ∈ mapa.places → q ∈ mapa.places → p.name ≠ q.name →
    (Journal.createPddlGlobal base_1 hardware mapa.names mapa.distances obj).getFunction
        (.distance p.name q.name) = some (euclideanDistance (mapa.planned p) (mapa.planned q)) := by
  intro h
  have hp : (⟨true, (1, 0, 0)⟩ : Place Bool) ∈ eastField.places := by simp [eastField, MapaJson.places]
  have hq : (⟨false, (0, 0, 0)⟩ : Place Bool) ∈ eastField.places := by simp [eastField, MapaJson.places]
  have hkb := h eastField _ _ false eastHardware ⟨[], [], []⟩ hp hq (by simp)
  rw [getFunction_distance hp hq (by simp), Option.some_inj, euclideanDistance_eq_iff,
    known_eq namesDiffer_eastField hp, known_eq namesDiffer_eastField hq] at hkb
  simp only [eastField, factor_zero] at hkb
  have hlt := degreeY_lt_degreeX
  have hpos : 0 < degreeY := by unfold degreeY; norm_num
  nlinarith

/-- Two fields one degree away from the home point, to the east and to the north. -/
noncomputable def twoFields : MapaJson Bool :=
  ⟨(0, 0, 0), [⟨true, (1, 0, 0)⟩, ⟨false, (0, 1, 0)⟩], []⟩

/-- Over the eastern field the script finds the northern one. -/
theorem getLocation_nearest_fails : ¬ ∀ (mapa : MapaJson Bool) (latitude longitude : ℝ), mapa.places ≠ [] →
    ∃ p, mapa.Nearest latitude longitude p ∧ mapa.getLocation latitude longitude = some p.name := by
  intro h
  obtain ⟨p, hnear, hloc⟩ := h twoFields 0 1 (by simp [twoFields, MapaJson.places])
  obtain ⟨hmem, hle⟩ := nearest_iff.mp hnear
  have hpos : 0 < degreeY := by unfold degreeY; norm_num
  have hlt := degreeY_lt_degreeX
  have hfirst : Lists.FirstMin (twoFields.exchanged 0 1) twoFields.places ⟨false, (0, 1, 0)⟩ := by
    refine ⟨[⟨true, (1, 0, 0)⟩], [], rfl, ?_, by simp⟩
    simp only [List.mem_singleton, forall_eq, MapaJson.exchanged, twoFields, factor_zero]
    nlinarith
  have hname : p.name = false := Option.some.inj (hloc.symm.trans (getLocation_eq.mpr ⟨_, hfirst, rfl⟩))
  have htrue := hle ⟨true, (1, 0, 0)⟩ (by simp [twoFields, MapaJson.places])
  simp only [MapaJson.places, twoFields, List.append_nil, List.mem_cons, List.not_mem_nil, or_false] at hmem
  obtain rfl | rfl := hmem
  · cases hname
  · simp only [MapaJson.apart, twoFields, factor_zero] at htrue
    nlinarith

end demo

end DroneArch.MapCentres
