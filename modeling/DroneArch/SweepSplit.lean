import DroneArch.Lists

/-! # The split of a sweep route

`Controller.calc_route` of the two sweep planners (`sqrt_path/PathPlanning.py`,
`static_pathplanning/pathplanning.py`) cuts the complete route `[home, w₁, …, wₖ, home]` at the
indices `1`, the multiples of `⌊len / mission_qty⌋`, and `len - 2`.  `build_sub_route` copies
`range(first_i, last_i)`, and the home point is put at both ends of each part.

* `subRoutes_eq`: the parts are slices of the route, for every `mission_qty`.
* `interiors_subRoutes`: for `1 ≤ mission_qty ≤ k` the parts make up `w₁, …, wₖ₋₁`.
* `not_keepsPoints`: the last survey point is lost by every split. -/

namespace DroneArch.SweepSplit

open Lists

variable {P : Type*}

/-- `build_sub_route`; an index past the end raises `IndexError`. -/
def buildSubRoute (route : List P) (firstI lastI : ℕ) : Option (List P) :=
  (List.range' firstI (lastI - firstI)).mapM (fun i => route[i]?)

def splitIndex (route : List P) (missionQty : ℕ) : List ℕ :=
  (List.range' 1 (missionQty - 1)).map (fun m => route.length / missionQty * m)

/-- `split_index` with `1` put before it and `len - 2` behind it. -/
def index (route : List P) (missionQty : ℕ) : List ℕ :=
  1 :: (splitIndex route missionQty ++ [route.length - 2])

/-- The sub-route number `m` of `calc_route`, with the home point at both ends. -/
def subRoute (home : P) (route : List P) (missionQty m : ℕ) : Option (List P) :=
  (index route missionQty)[m]?.bind (fun firstI =>
    (index route missionQty)[m + 1]?.bind (fun lastI =>
      (buildSubRoute route firstI lastI).map (fun res => home :: (res ++ [home]))))

/-- The loop of `calc_route` over the sub-routes. -/
def subRoutes (home : P) (route : List P) (missionQty : ℕ) : Option (List (List P)) :=
  (List.range missionQty).mapM (subRoute home route missionQty)

/-! ### The parts as slices -/

/-- The entries of `index`. -/
def cut (route : List P) (missionQty m : ℕ) : ℕ :=
  if m = 0 then 1
  else if m < missionQty then route.length / missionQty * m
  else route.length - 2

theorem index_getElem? (route : List P) {missionQty m : ℕ} (hq : 1 ≤ missionQty) (hm : m ≤ missionQty) :
    (index route missionQty)[m]? = some (cut route missionQty m) := by
  have hlen : (splitIndex route missionQty).length = missionQty - 1 := by
    rw [splitIndex, List.length_map, List.length_range']
  unfold index cut
  cases m with
  | zero => rfl
  | succ m =>
      rw [List.getElem?_cons_succ, if_neg (by omega)]
      by_cases hlt : m + 1 < missionQty
      · rw [List.getElem?_append_left (by omega), if_pos hlt, splitIndex, List.getElem?_map,
          List.getElem?_range' (by omega), Option.map_some, Nat.one_mul, Nat.add_comm 1 m]
      · have heq : m = (splitIndex route missionQty).length := by omega
        rw [if_neg hlt, heq, List.getElem?_concat_length]

theorem cut_le_length (route : List P) {missionQty m : ℕ} (hlen : 1 ≤ route.length) :
    cut route missionQty m ≤ route.length := by
  unfold cut
  split
  · exact hlen
  · split
    · rename_i hlt
      calc route.length / missionQty * m ≤ route.length / missionQty * missionQty :=
            Nat.mul_le_mul_left _ (by omega)
        _ ≤ route.length := Nat.div_mul_le_self _ _
    · omega

theorem buildSubRoute_eq (route : List P) {firstI lastI : ℕ} (h : lastI ≤ route.length) :
    buildSubRoute route firstI lastI = some (slice route firstI lastI) := by
  unfold buildSubRoute
  by_cases hle : firstI ≤ lastI
  · rw [mapM_range'_getElem? route firstI _ (by omega)]
    congr 2
    omega
  · have hz : lastI - firstI = 0 := by omega
    rw [slice, hz, List.take_zero]
    rfl

/-- The part number `m`. -/
def part (home : P) (route : List P) (missionQty m : ℕ) : List P :=
  home :: (slice route (cut route missionQty m) (cut route missionQty (m + 1)) ++ [home])

/-- No index is out of range, and the parts are slices of the route. -/
theorem subRoutes_eq (home : P) (route : List P) {missionQty : ℕ} (hlen : 1 ≤ route.length) :
    subRoutes home route missionQty = some ((List.range missionQty).map (part home route missionQty)) := by
  refine mapM_eq_some_map (fun m hm => ?_)
  have hlt := List.mem_range.mp hm
  rw [subRoute, index_getElem? route (by omega) (by omega), Option.bind_some,
    index_getElem? route (by omega) (by omega), Option.bind_some,
    buildSubRoute_eq route (cut_le_length route hlen)]
  rfl

/-! ### What the parts make up -/

/-- The indices do not decrease when every part can have a waypoint. -/
theorem cut_le_cut_succ (route : List P) {missionQty m : ℕ} (hlen : missionQty + 2 ≤ route.length)
    (hm : m < missionQty) : cut route missionQty m ≤ cut route missionQty (m + 1) := by
  have hsize : 1 ≤ route.length / missionQty := (Nat.le_div_iff_mul_le (by omega)).mpr (by omega)
  have hmul := Nat.div_mul_le_self route.length missionQty
  unfold cut
  rw [if_neg (Nat.succ_ne_zero m)]
  split
  · split
    · rename_i h0 h1
      rw [h0, Nat.zero_add, Nat.mul_one]
      exact hsize
    · omega
  · split
    · exact Nat.mul_le_mul_left _ (Nat.le_succ m)
    · have heq : missionQty = m + 1 := by omega
      generalize route.length / missionQty = size at hsize hmul ⊢
      rw [heq, Nat.mul_succ] at hmul
      by_cases hone : size = 1
      · rw [hone]; omega
      · omega

/-- A sub-route without the home points at its ends. -/
def interior (subRoute : List P) : List P := subRoute.tail.dropLast

theorem interior_part (home : P) (route : List P) (missionQty m : ℕ) :
    interior (part home route missionQty m) =
      slice route (cut route missionQty m) (cut route missionQty (m + 1)) := by
  rw [interior, part, List.tail_cons, List.dropLast_concat]

/-- The complete route over the waypoints. -/
def completeRoute (home : P) (ws : List P) : List P := home :: (ws ++ [home])

theorem completeRoute_length (home : P) (ws : List P) :
    (completeRoute home ws).length = ws.length + 2 := by
  rw [completeRoute, List.length_cons, List.length_append, List.length_singleton]

/-- From the first waypoint to the index `len - 2`. -/
theorem slice_completeRoute (home : P) (ws : List P) :
    slice (completeRoute home ws) 1 ws.length = ws.dropLast := by
  rw [slice, completeRoute, List.drop_succ_cons, List.drop_zero,
    List.take_append_of_le_length (by omega), List.dropLast_eq_take]

/-- A single part is the complete route without its last waypoint. -/
theorem part_one (home : P) (ws : List P) :
    part home (completeRoute home ws) 1 0 = completeRoute home ws.dropLast := by
  have h0 : cut (completeRoute home ws) 1 0 = 1 := rfl
  have h1 : cut (completeRoute home ws) 1 (0 + 1) = ws.length := by
    rw [cut, if_neg (by omega), if_neg (by omega), completeRoute_length, Nat.add_sub_cancel]
  rw [part, h0, h1, slice_completeRoute]
  rfl

/-- The parts make up all the waypoints but the last. -/
theorem interiors_subRoutes (home : P) (ws : List P) {missionQty : ℕ} (hq : 1 ≤ missionQty)
    (hk : missionQty ≤ ws.length) :
    ∃ subs, subRoutes home (completeRoute home ws) missionQty = some subs ∧
      (subs.map interior).flatten = ws.dropLast := by
  have hlen := completeRoute_length home ws
  refine ⟨_, subRoutes_eq home _ (by omega), ?_⟩
  have hmap : interior ∘ part home (completeRoute home ws) missionQty = _ :=
    funext (interior_part home (completeRoute home ws) missionQty)
  have hle : ∀ m < missionQty, cut (completeRoute home ws) missionQty m ≤
      cut (completeRoute home ws) missionQty (m + 1) :=
    fun m hm => cut_le_cut_succ _ (by omega) hm
  rw [List.map_map, hmap, (flatten_slices _ _ _ hle).1]
  have h0 : cut (completeRoute home ws) missionQty 0 = 1 := rfl
  have hn : cut (completeRoute home ws) missionQty missionQty = ws.length := by
    rw [cut, if_neg (by omega), if_neg (lt_irrefl _), hlen]; omega
  rw [h0, hn, slice_completeRoute]

/-- The sub-routes visit every waypoint once and in order. -/
def KeepsPoints (home : P) (ws : List P) (missionQty : ℕ) : Prop :=
  ∃ subs, subRoutes home (completeRoute home ws) missionQty = some subs ∧ (subs.map interior).flatten = ws

/-- **Every split loses a survey point.**  Whatever the route and the number of parts, the last
waypoint is in no sub-route. -/
theorem not_keepsPoints (home : P) (ws : List P) (missionQty : ℕ) (hq : 1 ≤ missionQty)
    (hk : missionQty ≤ ws.length) : ¬ KeepsPoints home ws missionQty := by
  rintro ⟨subs, hsubs, hflat⟩
  obtain ⟨subs', hsubs', hflat'⟩ := interiors_subRoutes home ws hq hk
  rw [hsubs, Option.some.injEq] at hsubs'
  rw [← hsubs', hflat] at hflat'
  have hlen := congrArg List.length hflat'
  rw [List.length_dropLast] at hlen
  omega

/-- A route of six waypoints in two parts. -/
theorem not_keepsPoints_two : ¬ KeepsPoints 0 [1, 2, 3, 4, 5, 6] 2 :=
  not_keepsPoints 0 [1, 2, 3, 4, 5, 6] 2 (by decide) (by decide)

/-- The waypoint 6 is dropped. -/
theorem keepsPoints_fails : subRoutes 0 (completeRoute 0 [1, 2, 3, 4, 5, 6]) 2 =
    some [[0, 1, 2, 3, 0], [0, 4, 5, 0]] ∧
    ¬ ∀ (home : ℕ) (ws : List ℕ) (missionQty : ℕ), 1 ≤ missionQty → missionQty ≤ ws.length →
      KeepsPoints home ws missionQty := by
  have heval : subRoutes 0 (completeRoute 0 [1, 2, 3, 4, 5, 6]) 2 = some [[0, 1, 2, 3, 0], [0, 4, 5, 0]] := by
    decide
  refine ⟨heval, fun h => ?_⟩
  obtain ⟨subs, hsubs, hflat⟩ := h 0 [1, 2, 3, 4, 5, 6] 2 (by decide) (by decide)
  rw [heval, Option.some.injEq] at hsubs
  rw [← hsubs] at hflat
  revert hflat
  decide

end DroneArch.SweepSplit
