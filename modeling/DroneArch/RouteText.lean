import DroneArch.Binary64
import DroneArch.SendWpFile

/-! # Writing and reading the route file

Three scripts write `route.txt`: `rrt_star.py` with a header and nine decimals, `circle.py` and
`square.py` with the numbers as they are.  `sendWPFile` reads it.  The scripts are run by Python 3.

* `sendWPFile_route`: the waypoints sent are the position of the vehicle and the points written. -/

namespace DroneArch.RouteText

open Binary64 DecimalText SendWpFile

/-! ### Lines -/

/-- The lines that a loop of `getline` reads. -/
def getlines (s : List Char) : List (List Char) :=
  if (s.splitOn '\n').getLast? = some [] then (s.splitOn '\n').dropLast else s.splitOn '\n'

theorem getlines_cons {line rest : List Char} (h : '\n' ∉ line) :
    getlines (line ++ '\n' :: rest) = line :: getlines rest := by
  have hsplit : (line ++ '\n' :: rest).splitOn '\n' = line :: rest.splitOn '\n' := by
    rw [List.splitOn_eq_splitOnP, List.splitOn_eq_splitOnP]
    refine List.splitOnP_append_cons_of_forall_mem ?_ '\n' (by simp) rest
    intro c hc
    simp only [beq_eq_false_iff_ne]
    rintro rfl
    exact h hc
  have hne : rest.splitOn '\n' ≠ [] := List.splitOn_ne_nil '\n' rest
  unfold getlines
  rw [hsplit, List.getLast?_cons_of_ne_nil hne, List.dropLast_cons_of_ne_nil hne]
  split
  · rfl
  · rfl

/-- Lines that are ended one by one are read one by one. -/
theorem getlines_flatMap {lines : List (List Char)} (h : ∀ line ∈ lines, '\n' ∉ line) :
    getlines (lines.flatMap (fun line => line ++ ['\n'])) = lines := by
  induction lines with
  | nil => rfl
  | cons line lines ih =>
      rw [List.flatMap_cons, List.append_assoc, List.singleton_append, getlines_cons (h line List.mem_cons_self),
        ih (fun line' h' => h line' (List.mem_cons_of_mem _ h'))]

/-! ### Writers -/

/-- A point of a route. -/
structure RoutePoint where
  longitude : Double
  latitude : Double
  altitude : Double

/-- The scripts that write routes. -/
inductive Writer where
  | rrtStar
  | circle
  | square
deriving DecidableEq

/-- The line of a point in `rrt_star.py`, without its end. -/
def rrtStarLine (p : RoutePoint) : List Char :=
  str (p.longitude.round 9) ++ "  ".toList ++ str (p.latitude.round 9) ++ "         15.000".toList

/-- In `circle.py`. -/
def circleLine (p : RoutePoint) : List Char :=
  str p.longitude ++ " ".toList ++ str p.latitude ++ " ".toList ++ str p.altitude

/-- In `square.py`. -/
def squareLine (p : RoutePoint) : List Char :=
  str p.longitude ++ " ".toList ++ str p.latitude ++ " ".toList ++ str p.altitude

def Writer.line : Writer → RoutePoint → List Char
  | .rrtStar => rrtStarLine
  | .circle => circleLine
  | .square => squareLine

/-- The lines written before the points. -/
def Writer.heading : Writer → List (List Char)
  | .rrtStar => [header.toList]
  | .circle => []
  | .square => []

/-- The file. -/
def Writer.text (w : Writer) (points : List RoutePoint) : List Char :=
  (w.heading ++ points.map w.line).flatMap (fun line => line ++ ['\n'])

/-- The lines of the file, as they are read. -/
def Writer.route (w : Writer) (points : List RoutePoint) : List String :=
  (getlines (w.text points)).map String.ofList

/-- The point as it is printed. -/
def Writer.written : Writer → RoutePoint → RoutePoint
  | .rrtStar, p => ⟨p.longitude.round 9, p.latitude.round 9, ⟨15, by decide +kernel⟩⟩
  | .circle, p => p
  | .square, p => p

/-- `sendWPFile`: the waypoints that are pushed; a file without points is removed. -/
def sendWPFile (position : GeoPoint) (lines : List String) : Option (List Waypoint) :=
  if waypointLines lines = [] then none else missionWp (fun s => atof s.toList) position lines

/-! ### Fields -/

/-- The words of a text, between white space. -/
def words (s : List Char) : List (List Char) := (s.splitOnP isspace).filter (fun word => !word.isEmpty)

theorem words_append_space {c : Char} (hc : isspace c = true) (s t : List Char) :
    words (s ++ c :: t) = words s ++ words t := by
  unfold words
  rw [List.splitOnP_append_cons s t hc, List.filter_append]

theorem words_cons_space {c : Char} (hc : isspace c = true) (t : List Char) : words (c :: t) = words t :=
  words_append_space hc [] t

theorem words_singleton {s : List Char} (hne : s ≠ []) (h : ∀ c ∈ s, isspace c = false) : words s = [s] := by
  unfold words
  rw [List.splitOnP_eq_singleton h, List.filter_cons_of_pos (by simpa using hne), List.filter_nil]

theorem fields_ofList (s : List Char) : fields (String.ofList s) = (words s).map String.ofList := by
  unfold fields words
  rw [String.toList_ofList]

/-- The characters from `!` on are no spaces. -/
theorem isspace_of_lt {c : Char} (h : 32 < c.toNat) : isspace c = false := by
  unfold isspace
  simp only [Bool.or_eq_false_iff, decide_eq_false_iff_not]
  refine ⟨⟨⟨⟨⟨?_, ?_⟩, ?_⟩, ?_⟩, ?_⟩, ?_⟩
  · rintro rfl
    revert h
    decide
  · rintro rfl
    revert h
    decide
  · rintro rfl
    revert h
    decide
  · omega
  · omega
  · rintro rfl
    revert h
    decide

theorem isspace_of_isNumeral {c : Char} (h : IsNumeral c) : isspace c = false := by
  obtain hd | rfl | rfl | rfl | rfl := h
  · exact isspace_of_lt (lt_of_lt_of_le (by decide : 32 < '0'.toNat) (Char.isDigit_iff_toNat.mp hd).1)
  · decide
  · decide
  · decide
  · decide

theorem words_str (x : Double) : words (str x) = [str x] :=
  words_singleton (repr_ne_nil _) (fun c hc => isspace_of_isNumeral (mem_repr _ c hc))

/-- The third word of a line. -/
def Writer.altitudeText : Writer → RoutePoint → List Char
  | .rrtStar, _ => "15.000".toList
  | .circle, p => str p.altitude
  | .square, p => str p.altitude

theorem words_rrtStarLine (p : RoutePoint) :
    words (rrtStarLine p) = [str (p.longitude.round 9), str (p.latitude.round 9), "15.000".toList] := by
  have hspace : isspace ' ' = true := by decide
  have hlast : words ("        15.000".toList) = ["15.000".toList] := by decide
  have hskip : "         15.000".toList = ' ' :: "        15.000".toList := rfl
  unfold rrtStarLine
  rw [List.append_assoc, List.append_assoc, show "  ".toList = [' ', ' '] from rfl, List.cons_append,
    List.singleton_append, words_append_space hspace, words_cons_space hspace, hskip, words_append_space hspace,
    hlast, words_str, words_str]
  rfl

theorem words_circleLine (p : RoutePoint) :
    words (circleLine p) = [str p.longitude, str p.latitude, str p.altitude] := by
  have hspace : isspace ' ' = true := by decide
  unfold circleLine
  rw [show " ".toList = [' '] from rfl, List.append_assoc, List.append_assoc, List.append_assoc,
    List.singleton_append, List.singleton_append, words_append_space hspace, words_append_space hspace,
    words_str, words_str, words_str]
  rfl

theorem words_line (w : Writer) (p : RoutePoint) :
    words (w.line p) = [str (w.written p).longitude, str (w.written p).latitude, w.altitudeText p] := by
  cases w with
  | rrtStar => exact words_rrtStarLine p
  | circle => exact words_circleLine p
  | square => exact words_circleLine p

theorem atof_fifteen : atof "15.000".toList = 15 := by decide +kernel

theorem atof_altitudeText (w : Writer) (p : RoutePoint) : atof (w.altitudeText p) = (w.written p).altitude := by
  cases w with
  | rrtStar => exact atof_fifteen
  | circle => exact atof_str _
  | square => exact atof_str _

/-- The waypoint of a line. -/
theorem readLine_line (w : Writer) (p : RoutePoint) :
    readLine (fun s => atof s.toList) (String.ofList (w.line p)) =
      some (waypoint false (w.written p).latitude (w.written p).longitude (w.written p).altitude) := by
  unfold readLine
  rw [fields_ofList, words_line]
  simp only [List.map_cons, List.map_nil, String.toList_ofList]
  rw [atof_str, atof_str, atof_altitudeText]

/-! ### The whole file -/

theorem mem_str {x : Double} {c : Char} (h : c ∈ str x) : IsNumeral c := mem_repr _ c h

/-- A line of a point has numerals and blanks only. -/
theorem mem_line {w : Writer} {p : RoutePoint} {c : Char} (h : c ∈ w.line p) : IsNumeral c ∨ c = ' ' := by
  have hplain : ∀ c ∈ circleLine p, IsNumeral c ∨ c = ' ' := by
    intro c hc
    unfold circleLine at hc
    simp only [List.mem_append] at hc
    obtain (((hc | hc) | hc) | hc) | hc := hc
    · exact Or.inl (mem_str hc)
    · exact Or.inr (List.mem_singleton.mp hc)
    · exact Or.inl (mem_str hc)
    · exact Or.inr (List.mem_singleton.mp hc)
    · exact Or.inl (mem_str hc)
  cases w with
  | rrtStar =>
      have htwo : "  ".toList.all (fun c => c == ' ') = true := rfl
      have hlast : "         15.000".toList.all (fun c => (c.isDigit || c == '.') || c == ' ') = true := rfl
      simp only [List.all_eq_true, Bool.or_eq_true, beq_iff_eq] at htwo hlast
      change c ∈ rrtStarLine p at h
      unfold rrtStarLine at h
      simp only [List.mem_append] at h
      obtain ((hc | hc) | hc) | hc := h
      · exact Or.inl (mem_str hc)
      · exact Or.inr (htwo c hc)
      · exact Or.inl (mem_str hc)
      · obtain (hd | rfl) | rfl := hlast c hc
        · exact Or.inl (Or.inl hd)
        · exact Or.inl (by simp [IsNumeral])
        · exact Or.inr rfl
  | circle => exact hplain c h
  | square => exact hplain c h

theorem not_mem_line {w : Writer} {p : RoutePoint} {c : Char} (hc : ¬ (IsNumeral c ∨ c = ' ')) : c ∉ w.line p :=
  fun h => hc (mem_line h)

theorem newline_not_mem (w : Writer) (points : List RoutePoint) :
    ∀ line ∈ w.heading ++ points.map w.line, '\n' ∉ line := by
  intro line hline
  rw [List.mem_append, List.mem_map] at hline
  obtain hline | ⟨p, -, rfl⟩ := hline
  · cases w with
    | rrtStar =>
        rw [List.mem_singleton.mp hline]
        decide
    | circle => cases hline
    | square => cases hline
  · exact not_mem_line (by simp [IsNumeral])

/-- The header has letters. -/
theorem ofList_ne_header {s : List Char} (h : 'l' ∉ s) : String.ofList s ≠ header := by
  intro heq
  refine h ?_
  rw [← String.toList_ofList (l := s), heq]
  decide

section
variable {α : Type} {chars : α → List Char} {points : List α}

theorem waypointLines_append {heading : List String} (hheading : waypointLines heading = [])
    (h : ∀ p ∈ points, 'l' ∉ chars p) :
    waypointLines (heading ++ points.map (fun p => String.ofList (chars p))) =
      points.map (fun p => String.ofList (chars p)) := by
  have hpoints : ∀ line ∈ points.map (fun p => String.ofList (chars p)), (line != header) = true := by
    intro line hline
    obtain ⟨p, hp, rfl⟩ := List.mem_map.mp hline
    simpa using ofList_ne_header (h p hp)
  unfold waypointLines at hheading ⊢
  rw [List.filter_append, hheading, List.nil_append]
  exact List.filter_eq_self.mpr hpoints

/-- A file whose lines can be read one by one. -/
theorem sendWPFile_eq {lines : List String} {wp : α → Waypoint} (position : GeoPoint)
    (hlines : waypointLines lines = points.map (fun p => String.ofList (chars p)))
    (hread : ∀ p, readLine (fun s => atof s.toList) (String.ofList (chars p)) = some (wp p)) :
    sendWPFile position lines =
      if points = [] then none
      else some (waypoint true position.latitude position.longitude 15 :: points.map wp) := by
  have hall : (points.map (fun p => String.ofList (chars p))).mapM (readLine (fun s => atof s.toList)) =
      some (points.map wp) := by
    rw [List.mapM_map]
    exact Lists.mapM_eq_some_map (fun p _ => hread p)
  unfold sendWPFile missionWp
  rw [hlines, hall]
  by_cases hnil : points = []
  · rw [if_pos hnil, if_pos (by rw [hnil]; rfl)]
  · rw [if_neg hnil, if_neg (by simpa using hnil)]
    rfl

end

/-- The lines that are sent are those of the points, whoever wrote the file. -/
theorem waypointLines_route (w : Writer) (points : List RoutePoint) :
    waypointLines (w.route points) = points.map (fun p => String.ofList (w.line p)) := by
  have hheading : waypointLines (w.heading.map String.ofList) = [] := by
    cases w with
    | rrtStar => decide
    | circle => rfl
    | square => rfl
  unfold Writer.route Writer.text
  rw [getlines_flatMap (newline_not_mem w points), List.map_append, List.map_map]
  exact waypointLines_append hheading (fun p _ => not_mem_line (by simp [IsNumeral]))

/-- **Route text.**  The waypoints sent are the position of the vehicle, which is the current one, and the points
of the file in their order.  The first waypoint has the latitude and the longitude of the vehicle and the altitude
15, a constant of `sendWPFile`. -/
theorem sendWPFile_route (w : Writer) (position : GeoPoint) {points : List RoutePoint} (hne : points ≠ []) :
    sendWPFile position (w.route points) =
      some (waypoint true position.latitude position.longitude 15 ::
        points.map (fun p =>
          waypoint false (w.written p).latitude (w.written p).longitude (w.written p).altitude)) := by
  rw [sendWPFile_eq position (waypointLines_route w points) (readLine_line w), if_neg hne]

/-- A field in the west and the south. -/
def farm : RoutePoint := ⟨Double.nearest (-5035 / 100), Double.nearest (-1283 / 100), Double.nearest 15⟩

/-- A point in the north of it, and higher. -/
def orchard : RoutePoint := ⟨Double.nearest (-5035 / 100), Double.nearest (-1275 / 100), Double.nearest 30⟩

theorem sendWPFile_route_farm : sendWPFile ⟨-50, -12, 0⟩ (Writer.circle.route [farm, orchard]) =
    some [waypoint true (-12) (-50) 15, waypoint false farm.latitude farm.longitude farm.altitude,
      waypoint false orchard.latitude orchard.longitude orchard.altitude] :=
  sendWPFile_route .circle ⟨-50, -12, 0⟩ (by simp)

example : String.ofList (rrtStarLine farm) = "-50.35  -12.83         15.000" := by decide +kernel

end DroneArch.RouteText
