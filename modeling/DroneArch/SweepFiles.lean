import DroneArch.SweepBattery

/-! # The files of the static sweep planner

`Controller.calc_route` of `static_pathplanning/pathplanning.py` plans and splits as the other
sweep planner does, and returns the path that `save_litchi` gives.  The path is bound only when
the route is split, and `save_litchi` writes every route to the file number `count`, which
stays `1`.

* `calcRoute_ok`: what a run that returns leaves on the disk.
* `not_everyRouteStored`: no mission has all its planned routes stored. -/

namespace DroneArch.SweepFiles

open SweepMission SweepSplit SweepBattery Lists

/-- The lines of the files written so far. -/
abbrev Disk := String → Option (List String)

section writer
variable (format : ℝ → String)

/-- The loop of `save_litchi` over the points of a route. -/
def writeWaypoints (i currentWaypoint : ℕ) : List GeoPoint → List String
  | [] => []
  | geoPoint :: geoRoute =>
      (toString i ++ "\t" ++ toString currentWaypoint ++ "\t" ++ "3\t16\t3\t0\t0\t0\t"
        ++ format geoPoint.latitude ++ "\t" ++ format geoPoint.longitude ++ "\t"
        ++ format geoPoint.height ++ "\t" ++ "1" ++ "\n") :: writeWaypoints (i + 1) 0 geoRoute

/-- The file of a route. -/
def wpFile (route : Route) : List String := "QGC WPL 120\n" :: writeWaypoints format 0 1 route.geoRoute

/-- The path of the file number `count`; `home` is the expanded `~`. -/
def wpPath (home : String) (count : ℕ) : String := home ++ "/Missions" ++ "/mavros" ++ toString count ++ ".wp"

/-- One route of `save_litchi`; `count` is still `1`. -/
def writeRoute (home : String) (disk : Disk) (route : Route) : Disk :=
  Function.update disk (wpPath home 1) (some (wpFile format route))

def saveLitchi (home : String) (routes : List Route) : String × Disk :=
  (wpPath home 1, routes.foldl (writeRoute format home) (fun _ => none))

end writer

/-- The exceptions of `calc_route`. -/
inductive Error
  | zeroDivision
  | unboundLocal

noncomputable section

/-- The sub-routes. -/
def subs (m : Mission) (route : Route) : Option (List Route) :=
  (parts m route).bind (fun subRoutes => subRoutes.mapM (Route.init m))

/-- `calc_route`, with the `.wp` files that it writes. -/
def calcRoute (format : ℝ → String) (home : String) (m : Mission) : Except Error (String × Disk) :=
  match calcCompleteRoute m with
  | none => .error .zeroDivision
  | some route =>
      if m.drone.minBattery < route.flightDuration then
        match subs m route with
        | none => .error .zeroDivision
        | some routes => .ok (saveLitchi format home (routes ++ [route]))
      else .error .unboundLocal

/-- The planned routes: the complete one, or the sub-routes. -/
def planned (m : Mission) : Option (List Route) :=
  (calcCompleteRoute m).bind (fun route =>
    if m.drone.minBattery < route.flightDuration then subs m route else some [route])

end

/-- The run returns a path, and each planned route has a file of its own with its waypoints. -/
def EveryRouteStored (format : ℝ → String) (home : String) (m : Mission) : Prop :=
  ∃ path disk routes, calcRoute format home m = .ok (path, disk) ∧ planned m = some routes ∧
    ∃ file : Fin routes.length → String, Function.Injective file ∧
      ∀ i, disk (file i) = some (wpFile format (routes.get i))

/-! ### What is written -/

theorem writeWaypoints_length (format : ℝ → String) (i currentWaypoint : ℕ) (geoRoute : List GeoPoint) :
    (writeWaypoints format i currentWaypoint geoRoute).length = geoRoute.length := by
  induction geoRoute generalizing i currentWaypoint with
  | nil => rfl
  | cons g geoRoute ih => rw [writeWaypoints, List.length_cons, List.length_cons, ih]

theorem wpFile_length (format : ℝ → String) (route : Route) :
    (wpFile format route).length = route.geoRoute.length + 1 := by
  rw [wpFile, List.length_cons, writeWaypoints_length]

theorem saveLitchi_concat (format : ℝ → String) (home : String) (routes : List Route) (route : Route) :
    (saveLitchi format home (routes ++ [route])).2 =
      writeRoute format home (saveLitchi format home routes).2 route := by
  rw [saveLitchi, List.foldl_append]
  rfl

theorem saveLitchi_of_ne (format : ℝ → String) (home : String) (routes : List Route) {path : String}
    (hne : path ≠ wpPath home 1) : (saveLitchi format home routes).2 path = none := by
  induction routes using List.reverseRecOn with
  | nil => rfl
  | append_singleton routes route ih => rw [saveLitchi_concat, writeRoute, Function.update_of_ne hne, ih]

/-- Only the last route stays on the disk. -/
theorem saveLitchi_last {format : ℝ → String} {home : String} {routes : List Route} {route : Route}
    {path : String} {lines : List String}
    (h : (saveLitchi format home (routes ++ [route])).2 path = some lines) : lines = wpFile format route := by
  by_cases hpath : path = wpPath home 1
  · rw [saveLitchi_concat, writeRoute, hpath, Function.update_self, Option.some.injEq] at h
    exact h.symm
  · rw [saveLitchi_of_ne format home _ hpath] at h
    cases h

/-- A run that returns was split, and leaves the file of the complete route. -/
theorem calcRoute_ok {format : ℝ → String} {home path : String} {m : Mission} {disk : Disk}
    (h : calcRoute format home m = .ok (path, disk)) :
    ∃ route routes, calcCompleteRoute m = some route ∧ subs m route = some routes ∧
      planned m = some routes ∧ disk = (saveLitchi format home (routes ++ [route])).2 := by
  unfold calcRoute at h
  cases hroute : calcCompleteRoute m with
  | none =>
      simp only [hroute] at h
      cases h
  | some route =>
      simp only [hroute] at h
      split at h
      · rename_i hlt
        cases hsubs : subs m route with
        | none =>
            simp only [hsubs] at h
            cases h
        | some routes =>
            simp only [hsubs] at h
            cases h
            refine ⟨route, routes, rfl, hsubs, ?_, rfl⟩
            rw [planned, hroute, Option.bind_some, if_pos hlt, hsubs]
      · cases h

/-! ### The first sub-route -/

theorem one_le_missionQty {m : Mission} {route : Route} (h : calcCompleteRoute m = some route) :
    1 ≤ missionQty m route := by
  have hpos := (calcCompleteRoute_spec h).2.2
  have hbattery := m.drone.minBattery_pos
  exact Nat.one_le_iff_ne_zero.mpr (Nat.ceil_pos.mpr (by positivity)).ne'

/-- The first part has fewer points than the route. -/
theorem length_part_zero_lt {P : Type*} (home : P) (route : List P) (qty : ℕ) (hlen : 3 ≤ route.length) :
    (part home route qty 0).length < route.length := by
  have hcut : cut route qty (0 + 1) ≤ route.length - 2 := by
    unfold cut
    rw [if_neg (by omega)]
    split
    · rename_i hlt
      have hdiv : route.length / qty ≤ route.length / 2 := Nat.div_le_div_left (by omega) (by omega)
      omega
    · exact le_rfl
  have h0 : cut route qty 0 = 1 := rfl
  rw [part, List.length_cons, List.length_append, List.length_singleton, slice_length _ (by omega), h0]
  omega

theorem three_le_length {m : Mission} {route : Route} (h : calcCompleteRoute m = some route) :
    3 ≤ route.route.length := by
  have hpos : 1 ≤ m.waypoints.length := by
    unfold Mission.waypoints
    simp
  rw [(calcCompleteRoute_spec h).1, completeRoute_length]
  omega

theorem geoRoute_length {m : Mission} {p : CartesianPoint} {route : List CartesianPoint} {r : Route}
    (h : Route.init m (p :: route) = some r) : r.geoRoute.length = (p :: route).length := by
  rw [init_eq_some_iff] at h
  rw [h.2, transformGeoPoints, List.length_map]

/-- The first planned route is the first part. -/
theorem subs_head {m : Mission} {route : Route} {routes : List Route} (hroute : calcCompleteRoute m = some route)
    (hsubs : subs m route = some routes) :
    ∃ r rest, routes = r :: rest ∧ r.geoRoute.length < route.geoRoute.length := by
  obtain ⟨n, hn⟩ := Nat.exists_eq_add_of_le' (one_le_missionQty hroute)
  unfold subs at hsubs
  rw [parts_eq hroute, Option.bind_some, hn, List.range_succ_eq_map, List.map_cons, mapM_cons_eq_some] at hsubs
  obtain ⟨r, rest, hr, _, rfl⟩ := hsubs
  refine ⟨r, rest, rfl, ?_⟩
  have hpoints := (calcCompleteRoute_spec hroute).1
  have hcomplete : route.geoRoute.length = route.route.length := by
    rw [geoRoute_length hroute, hpoints, completeRoute]
  rw [geoRoute_length hr, hcomplete]
  exact length_part_zero_lt m.area.home route.route (n + 1) (three_le_length hroute)

/-- **No mission is stored.**  A mission that is not split raises, and of a split one the file
holds the complete route alone. -/
theorem not_everyRouteStored (format : ℝ → String) (home : String) (m : Mission) :
    ¬ EveryRouteStored format home m := by
  rintro ⟨path, disk, routes, hok, hplanned, file, _, hfile⟩
  obtain ⟨route, routes', hroute, hsubs, hplanned', rfl⟩ := calcRoute_ok hok
  rw [hplanned, Option.some.injEq] at hplanned'
  obtain ⟨r, rest, hcons, hlt⟩ := subs_head hroute hsubs
  have hpos : 0 < routes.length := by
    rw [hplanned', hcons, List.length_cons]
    omega
  have hfirst : routes.get ⟨0, hpos⟩ = r := by
    simp [hplanned', hcons]
  have hlines := congrArg List.length (saveLitchi_last (hfile ⟨0, hpos⟩))
  rw [hfirst, wpFile_length, wpFile_length] at hlines
  omega

/-- A flight of 2800 seconds is not compared with less than 3600: the route is not split and
`path_return` is unbound. -/
theorem everyRouteStored_fails : ¬ ∀ (format : ℝ → String) (home : String) (m : Mission),
    EveryRouteStored format home m := by
  intro h
  have hpos : (0 : ℝ) < 3600 := by norm_num
  obtain ⟨path, disk, _, hok, _⟩ := h (fun _ => "") "" (stripMission 3600 hpos)
  obtain ⟨route, hroute, _, hduration⟩ := completeRoute_strip hpos
  have hbattery : (stripMission 3600 hpos).drone.minBattery = 3600 := rfl
  have hnot : ¬ (stripMission 3600 hpos).drone.minBattery < route.flightDuration := by
    rw [hbattery, hduration]
    norm_num
  unfold calcRoute at hok
  simp only [hroute, if_neg hnot] at hok
  cases hok

end DroneArch.SweepFiles
