import DroneArch.RouteText

/-! # Routes for the ground station

`convertToWP.py` turns `route.txt` into a file for the ground station, and `sendWPFile` sends the
same route to the vehicle.  The script reads the first column of the route into the field `latitude`
and writes that field into the column of the longitude.  An input that is not a decimal literal is an
error here, also where Python reads an infinity.  A double of the model is its value, so there is no
`-0.0`: Python prints its sign, which only the text shows.

* `map_readlines`: Python and C++ see the same lines.
* `readWp_convertToWP`: the file describes the waypoints that are sent, rounded to eight decimals. -/

namespace DroneArch.ConvertToWp

open Binary64 DecimalText RouteText SendWpFile

/-! ### The script -/

/-- The named tuple. -/
structure GeoPoint where
  latitude : ℚ
  longitude : ℚ
  altitude : ℚ

/-- `file.readlines()`: the lines with their ends. -/
def readlines : List Char → List (List Char)
  | [] => []
  | c :: s =>
      if c = '\n' then ['\n'] :: readlines s
      else
        match readlines s with
        | [] => [[c]]
        | line :: lines => (c :: line) :: lines

/-- `re.sub('\n', '', f)`. -/
def sub (f : List Char) : List Char := f.filter (fun c => c != '\n')

/-- `list(filter(None, f.split(' ')))`. -/
def split (f : List Char) : List (List Char) := (f.splitOn ' ').filter (fun field => !field.isEmpty)

/-- A numeral without its sign. -/
def unsigned : List Char → List Char
  | '-' :: s => s
  | '+' :: s => s
  | s => s

/-- The exponent of a numeral, which may be left out. -/
def isExponent : List Char → Bool
  | [] => true
  | c :: s => (c = 'e' || c = 'E') && (unsigned s).all Char.isDigit && !(unsigned s).isEmpty

/-- The decimal literals: a sign, digits with at most one point, and an exponent. -/
def isLiteral (s : List Char) : Bool :=
  ((unsigned s).takeWhile (fun c => c.isDigit || c = '.')).any Char.isDigit &&
    ((unsigned s).takeWhile (fun c => c.isDigit || c = '.')).count '.' ≤ 1 &&
    isExponent ((unsigned s).dropWhile (fun c => c.isDigit || c = '.'))

/-- `float`. -/
def float (s : List Char) : Option ℚ := if isLiteral s then some (toDouble (strtod s)) else none

/-- The point of a line without its end. -/
def readPoint (f : List Char) : Option GeoPoint :=
  match split f with
  | f0 :: f1 :: f2 :: _ => do
      let latitude ← float f0
      let longitude ← float f1
      let altitude ← float f2
      some ⟨latitude, longitude, altitude⟩
  | _ => none

/-- `read_txt`; the first line is skipped, and has to be there. -/
def readTxt (text : List Char) : Option (List GeoPoint) :=
  match readlines text with
  | [] => none
  | _ :: lines => lines.mapM (fun f => readPoint (sub f))

/-- Eight decimals. -/
def decimals (x : ℚ) : List Char :=
  (if x < 0 then ['-'] else []) ++
    fixed (Nat.toDigits 10 (roundHalfEven (x * 10 ^ 8)).natAbs)
      ((Nat.toDigits 10 (roundHalfEven (x * 10 ^ 8)).natAbs).length - 8)

/-- `"{:10.8f}".format(x)`: the decimals in at least ten places. -/
def format (x : ℚ) : List Char := (decimals x).leftpad 10 ' '

/-- The line of a point, without its end. -/
def pointLine (i currentWaypoint : ℕ) (p : GeoPoint) : List Char :=
  Nat.toDigits 10 i ++ ['\t'] ++ Nat.toDigits 10 currentWaypoint ++ ['\t'] ++ "3\t16\t3\t0\t0\t0\t".toList ++
    format p.longitude ++ ['\t'] ++ format p.latitude ++ ['\t'] ++ format p.altitude ++ ['\t'] ++ ['1']

/-- The loop of `write_mavros`. -/
def writePoints (i currentWaypoint : ℕ) : List GeoPoint → List Char
  | [] => []
  | p :: points => pointLine i currentWaypoint p ++ '\n' :: writePoints (i + 1) 0 points

/-- `write_mavros`. -/
def writeMavros (points : List GeoPoint) : List Char := "QGC WPL 120".toList ++ '\n' :: writePoints 0 1 points

/-- The file for a route; `none` when the script raises. -/
def convertToWP (text : List Char) : Option (List Char) := (readTxt text).map writeMavros

/-! ### The ground station -/

/-- A position in a file of waypoints. -/
structure Position where
  latitude : ℚ
  longitude : ℚ
  altitude : ℚ
deriving DecidableEq

/-- The number in a column. -/
def column (columns : List (List Char)) (i : ℕ) : Option ℚ :=
  columns[i]?.map (fun s => strtod (s.dropWhile (fun c => c = ' ')))

/-- The latitude is in the ninth column and the longitude in the tenth. -/
def readWaypoint (line : List Char) : Option Position := do
  let latitude ← column (line.splitOn '\t') 8
  let longitude ← column (line.splitOn '\t') 9
  let altitude ← column (line.splitOn '\t') 10
  some ⟨latitude, longitude, altitude⟩

/-- The positions in a file, whose first line is the version of the format. -/
def readWp (text : List Char) : Option (List Position) := ((getlines text).drop 1).mapM readWaypoint

/-! ### Routes -/

/-- A decimal literal in the range of the doubles. -/
structure Numeral where
  chars : List Char
  literal : isLiteral chars = true
  finite : |toDouble (strtod chars)| < 2 ^ 1024

/-- The double that both programs read. -/
def Numeral.value (n : Numeral) : ℚ := toDouble (strtod n.chars)

/-- A line of a route: three numerals with spaces around them. -/
structure RouteLine where
  longitude : Numeral
  latitude : Numeral
  altitude : Numeral
  before : ℕ
  gap : ℕ
  gap' : ℕ
  after : ℕ

def RouteLine.chars (l : RouteLine) : List Char :=
  List.replicate l.before ' ' ++ (l.longitude.chars ++ ' ' :: (List.replicate l.gap ' ' ++
    (l.latitude.chars ++ ' ' :: (List.replicate l.gap' ' ' ++ (l.altitude.chars ++ List.replicate l.after ' ')))))

/-- The text of a route: its lines are the header and the lines of the points. -/
structure Route where
  text : List Char
  lines : List RouteLine
  getlines_text : getlines text = header.toList :: lines.map RouteLine.chars

/-! ### Lines -/

theorem getlines_cons_of_ne {c : Char} (hc : c ≠ '\n') (s : List Char) :
    getlines (c :: s) = match getlines s with
      | [] => [[c]]
      | line :: lines => (c :: line) :: lines := by
  obtain ⟨line, lines, hsplit⟩ := List.exists_cons_of_ne_nil (List.splitOn_ne_nil '\n' s)
  have hcons : (c :: s).splitOn '\n' = (c :: line) :: lines := by
    rw [List.splitOn_cons_eq_if_modifyHead, if_neg (by simpa using hc), hsplit]
    rfl
  unfold getlines
  rw [hcons, hsplit]
  cases lines with
  | nil =>
      cases line with
      | nil => rfl
      | cons d line => simp
  | cons line' lines =>
      simp only [List.getLast?_cons_cons, List.dropLast_cons_cons]
      split
      · rfl
      · rfl

/-- Without their ends, the lines that Python reads are those that C++ reads. -/
theorem map_readlines (s : List Char) : (readlines s).map sub = getlines s := by
  induction s with
  | nil => rfl
  | cons c s ih =>
      unfold readlines
      by_cases hc : c = '\n'
      · rw [if_pos hc, hc, List.map_cons, ih]
        exact (getlines_cons List.not_mem_nil).symm
      · rw [if_neg hc, getlines_cons_of_ne hc, ← ih]
        have hsub : ∀ line, sub (c :: line) = c :: sub line :=
          fun _ => List.filter_cons_of_pos (by simpa using hc)
        cases readlines s with
        | nil => exact congrArg (fun line => [line]) (hsub [])
        | cons line lines => exact congrArg (fun l => l :: lines.map sub) (hsub line)

/-! ### Numerals -/

theorem mem_unsigned {s : List Char} {c : Char} (hc : c ∈ s) : c ∈ unsigned s ∨ IsNumeral c := by
  unfold unsigned
  split
  · obtain rfl | hc := List.mem_cons.mp hc
    · exact Or.inr (by simp [IsNumeral])
    · exact Or.inl hc
  · obtain rfl | hc := List.mem_cons.mp hc
    · exact Or.inr (by simp [IsNumeral])
    · exact Or.inl hc
  · exact Or.inl hc

theorem mem_isExponent {s : List Char} (h : isExponent s = true) {c : Char} (hc : c ∈ s) :
    IsNumeral c ∨ c = 'E' := by
  cases s with
  | nil => cases hc
  | cons d s =>
      simp only [isExponent, Bool.and_eq_true, Bool.or_eq_true, decide_eq_true_eq, List.all_eq_true] at h
      obtain rfl | hc := List.mem_cons.mp hc
      · obtain rfl | rfl := h.1.1
        · exact Or.inl (by simp [IsNumeral])
        · exact Or.inr rfl
      · obtain hc | hc := mem_unsigned hc
        · exact Or.inl (Or.inl (h.1.2 c hc))
        · exact Or.inl hc

namespace Numeral

theorem mem_chars {n : Numeral} {c : Char} (hc : c ∈ n.chars) : IsNumeral c ∨ c = 'E' := by
  have h := n.literal
  unfold isLiteral at h
  rw [Bool.and_eq_true] at h
  obtain hc | hc := mem_unsigned hc
  · rw [← List.takeWhile_append_dropWhile (p := fun c : Char => c.isDigit || c = '.') (l := unsigned n.chars),
      List.mem_append] at hc
    obtain hc | hc := hc
    · have hdigit := List.mem_takeWhile_imp hc
      simp only [Bool.or_eq_true, decide_eq_true_eq] at hdigit
      obtain hdigit | rfl := hdigit
      · exact Or.inl (Or.inl hdigit)
      · exact Or.inl (by simp [IsNumeral])
    · exact mem_isExponent h.2 hc
  · exact Or.inl hc

theorem chars_ne_nil (n : Numeral) : n.chars ≠ [] := by
  intro hnil
  have h := n.literal
  rw [hnil] at h
  cases h

theorem words_chars (n : Numeral) : words n.chars = [n.chars] := by
  refine words_singleton n.chars_ne_nil (fun c hc => ?_)
  obtain hc | rfl := mem_chars hc
  · exact isspace_of_isNumeral hc
  · rfl

theorem float_chars (n : Numeral) : float n.chars = some n.value := if_pos n.literal

end Numeral

/-! ### A line of the route -/

theorem words_spaces (n : ℕ) (s : List Char) : words (List.replicate n ' ' ++ s) = words s := by
  induction n with
  | zero => rfl
  | succ n ih =>
      rw [List.replicate_succ, List.cons_append, words_cons_space rfl]
      exact ih

namespace RouteLine

variable (l : RouteLine)

theorem words_chars : words l.chars = [l.longitude.chars, l.latitude.chars, l.altitude.chars] := by
  have hlast : words (l.altitude.chars ++ List.replicate l.after ' ') = [l.altitude.chars] := by
    cases l.after with
    | zero => rw [List.replicate_zero, List.append_nil, Numeral.words_chars]
    | succ n =>
        have hrest : words (List.replicate n ' ') = [] := by
          rw [← List.append_nil (List.replicate n ' '), words_spaces]
          rfl
        rw [List.replicate_succ, words_append_space rfl, Numeral.words_chars, hrest]
        rfl
  unfold chars
  rw [words_spaces, words_append_space rfl, words_spaces, words_append_space rfl, words_spaces, hlast,
    Numeral.words_chars, Numeral.words_chars]
  rfl

theorem mem_chars {c : Char} (hc : c ∈ l.chars) : (IsNumeral c ∨ c = 'E') ∨ c = ' ' := by
  unfold chars at hc
  simp only [List.mem_append, List.mem_cons] at hc
  obtain hc | hc | hc | hc | hc | hc | hc | hc | hc := hc
  · exact Or.inr (List.eq_of_mem_replicate hc)
  · exact Or.inl (Numeral.mem_chars hc)
  · exact Or.inr hc
  · exact Or.inr (List.eq_of_mem_replicate hc)
  · exact Or.inl (Numeral.mem_chars hc)
  · exact Or.inr hc
  · exact Or.inr (List.eq_of_mem_replicate hc)
  · exact Or.inl (Numeral.mem_chars hc)
  · exact Or.inr (List.eq_of_mem_replicate hc)

/-- The only white space of a line is the space. -/
theorem isspace_eq {c : Char} (hc : c ∈ l.chars) : isspace c = (c == ' ') := by
  obtain (hc | rfl) | rfl := l.mem_chars hc
  · have hne : c ≠ ' ' := by
      rintro rfl
      exact absurd hc (by simp [IsNumeral])
    rw [isspace_of_isNumeral hc]
    exact (beq_eq_false_iff_ne.mpr hne).symm
  · rfl
  · rfl

theorem split_chars : split l.chars = [l.longitude.chars, l.latitude.chars, l.altitude.chars] := by
  rw [← l.words_chars, split, words, List.splitOn_eq_splitOnP]
  exact congrArg (List.filter _) (Lists.splitOnP_congr (fun c hc => (l.isspace_eq hc).symm))

/-- The first column is the latitude of the script. -/
theorem readPoint_chars :
    readPoint l.chars = some ⟨l.longitude.value, l.latitude.value, l.altitude.value⟩ := by
  unfold readPoint
  rw [l.split_chars]
  simp only [Numeral.float_chars]
  rfl

/-- The first column is the longitude of the vehicle. -/
theorem readLine_chars : readLine (fun s => atof s.toList) (String.ofList l.chars) =
    some (waypoint false l.latitude.value l.longitude.value l.altitude.value) := by
  unfold readLine
  rw [fields_ofList, l.words_chars]
  simp only [List.map_cons, List.map_nil, String.toList_ofList]
  rfl

end RouteLine

/-! ### What is written -/

/-- The nearest number with eight decimals, with the even last digit of two. -/
def eightDecimals (x : ℚ) : ℚ := roundHalfEven (x * 10 ^ 8) / 10 ^ 8

theorem mem_decimals {x : ℚ} {c : Char} (hc : c ∈ decimals x) : IsNumeral c := by
  unfold decimals at hc
  rw [List.mem_append] at hc
  obtain hc | hc := hc
  · split at hc
    · exact Or.inr (Or.inl (List.mem_singleton.mp hc))
    · cases hc
  · exact mem_fixed (isDigit_toDigits _) _ c hc

/-- Rounding keeps the sign. -/
theorem natAbs_roundHalfEven (r : ℚ) :
    ((roundHalfEven r).natAbs : ℚ) = if r < 0 then -(roundHalfEven r : ℚ) else roundHalfEven r := by
  have herr := abs_le.mp (abs_roundHalfEven_sub_le r)
  split
  · have hle : roundHalfEven r ≤ 0 := by
      have : (roundHalfEven r : ℚ) < 1 := by linarith
      have : roundHalfEven r < 1 := by exact_mod_cast this
      omega
    have hcast : ((roundHalfEven r).natAbs : ℤ) = -roundHalfEven r := by omega
    rw [← Int.cast_natCast, hcast, Int.cast_neg]
  · have hge : 0 ≤ roundHalfEven r := by
      have : (-1 : ℚ) < roundHalfEven r := by linarith
      have : -1 < roundHalfEven r := by exact_mod_cast this
      omega
    have hcast : ((roundHalfEven r).natAbs : ℤ) = roundHalfEven r := by omega
    rw [← Int.cast_natCast, hcast]

theorem strtod_decimals (x : ℚ) : strtod (decimals x) = eightDecimals x := by
  have habs := natAbs_roundHalfEven (x * 10 ^ 8)
  have hdigit : ∀ c ∈ Nat.toDigits 10 (roundHalfEven (x * 10 ^ 8)).natAbs, c.isDigit = true := isDigit_toDigits _
  have hread := readUnsigned_fixed hdigit ((Nat.toDigits 10 (roundHalfEven (x * 10 ^ 8)).natAbs).length - 8)
  have hexp : ∀ n : ℕ, (n : ℤ) - 8 - n = -8 := fun n => by omega
  rw [hexp, number, Nat.ofDigitChars_ten_toDigits, habs] at hread
  have hscale : x * 10 ^ 8 < 0 ↔ x < 0 :=
    ⟨fun h => by linarith, fun h => by linarith⟩
  unfold decimals eightDecimals
  by_cases hx : x < 0
  · rw [if_pos (hscale.mpr hx)] at hread
    rw [if_pos hx]
    refine (congrArg Neg.neg hread).trans ?_
    ring
  · rw [if_neg (fun h => hx (hscale.mp h))] at hread
    rw [if_neg hx, List.nil_append, strtod_of_isDigit (head?_fixed Nat.toDigits_ne_nil hdigit _), hread]
    ring

/-- Numerals are not spaces. -/
theorem dropWhile_format (x : ℚ) : (format x).dropWhile (fun c => c = ' ') = decimals x := by
  have hpad : ∀ n, ∀ c ∈ List.replicate n ' ', decide (c = ' ') = true :=
    fun n c hc => decide_eq_true (List.eq_of_mem_replicate hc)
  have hformat : format x = List.replicate (10 - (decimals x).length) ' ' ++ decimals x := rfl
  rw [hformat, List.dropWhile_append_of_pos (hpad _)]
  cases h : decimals x with
  | nil => rfl
  | cons c s =>
      have hc : c ≠ ' ' := by
        rintro rfl
        have hnum : IsNumeral ' ' := mem_decimals (x := x) (by rw [h]; exact List.mem_cons_self)
        exact absurd hnum (by simp [IsNumeral])
      exact List.dropWhile_cons_of_neg (by simpa using hc)

theorem mem_format {x : ℚ} {c : Char} (hc : c ∈ format x) : c = ' ' ∨ IsNumeral c := by
  obtain hc | hc := List.mem_append.mp hc
  · exact Or.inl (List.eq_of_mem_replicate hc)
  · exact Or.inr (mem_decimals hc)

theorem mem_toDigits {n : ℕ} {c : Char} (hc : c ∈ Nat.toDigits 10 n) : IsNumeral c :=
  Or.inl (isDigit_toDigits n c hc)

section
variable (i currentWaypoint : ℕ) (p : GeoPoint)

/-- The columns of a line. -/
def columns : List (List Char) :=
  [Nat.toDigits 10 i, Nat.toDigits 10 currentWaypoint, ['3'], ['1', '6'], ['3'], ['0'], ['0'], ['0'],
    format p.longitude, format p.latitude, format p.altitude, ['1']]

theorem pointLine_eq : pointLine i currentWaypoint p = List.intercalate ['\t'] (columns i currentWaypoint p) := by
  have hfixed : "3\t16\t3\t0\t0\t0\t".toList =
      ['3', '\t', '1', '6', '\t', '3', '\t', '0', '\t', '0', '\t', '0', '\t'] := rfl
  simp [pointLine, columns, hfixed, List.intercalate]

theorem mem_columns {s : List Char} (hs : s ∈ columns i currentWaypoint p) {c : Char} (hc : c ∈ s) :
    c = ' ' ∨ IsNumeral c := by
  have hdigits : [['3'], ['1', '6'], ['0'], ['1']].all (fun s => s.all Char.isDigit) = true := rfl
  simp only [List.all_eq_true] at hdigits
  have hfixed : ∀ s ∈ [['3'], ['1', '6'], ['0'], ['1']], c ∈ s → c = ' ' ∨ IsNumeral c :=
    fun s hs hc => Or.inr (Or.inl (hdigits s hs c hc))
  simp only [columns, List.mem_cons, List.not_mem_nil, or_false] at hs
  obtain rfl | rfl | rfl | rfl | rfl | rfl | rfl | rfl | rfl | rfl | rfl | rfl := hs
  · exact Or.inr (mem_toDigits hc)
  · exact Or.inr (mem_toDigits hc)
  · exact hfixed ['3'] (by simp) hc
  · exact hfixed ['1', '6'] (by simp) hc
  · exact hfixed ['3'] (by simp) hc
  · exact hfixed ['0'] (by simp) hc
  · exact hfixed ['0'] (by simp) hc
  · exact hfixed ['0'] (by simp) hc
  · exact mem_format hc
  · exact mem_format hc
  · exact mem_format hc
  · exact hfixed ['1'] (by simp) hc

theorem splitOn_pointLine : (pointLine i currentWaypoint p).splitOn '\t' = columns i currentWaypoint p := by
  rw [pointLine_eq]
  refine List.splitOn_intercalate '\t' (fun s hs hc => ?_) (List.cons_ne_nil _ _)
  exact absurd (mem_columns i currentWaypoint p hs hc) (by simp [IsNumeral])

theorem newline_not_mem_pointLine : '\n' ∉ pointLine i currentWaypoint p := by
  intro h
  rw [pointLine_eq] at h
  obtain h | ⟨s, hs, hc⟩ := Lists.mem_of_mem_intercalate h
  · exact absurd h (by decide)
  · exact absurd (mem_columns i currentWaypoint p hs hc) (by simp [IsNumeral])

/-- The position that is written for a point of the script. -/
def written (p : GeoPoint) : Position :=
  ⟨eightDecimals p.longitude, eightDecimals p.latitude, eightDecimals p.altitude⟩

theorem readWaypoint_pointLine : readWaypoint (pointLine i currentWaypoint p) = some (written p) := by
  have hformat : ∀ x, strtod ((format x).dropWhile (fun c => c = ' ')) = eightDecimals x := fun x => by
    rw [dropWhile_format, strtod_decimals]
  unfold readWaypoint
  rw [splitOn_pointLine]
  simp only [columns, column, List.getElem?_cons_succ, List.getElem?_cons_zero, Option.map_some, hformat]
  rfl

end

/-- The lines of the points are read one by one. -/
theorem mapM_getlines_writePoints (i currentWaypoint : ℕ) (points : List GeoPoint) :
    (getlines (writePoints i currentWaypoint points)).mapM readWaypoint = some (points.map written) := by
  induction points generalizing i currentWaypoint with
  | nil => rfl
  | cons p points ih =>
      rw [writePoints, getlines_cons (newline_not_mem_pointLine i currentWaypoint p), List.mapM_cons,
        readWaypoint_pointLine, ih]
      rfl

theorem readWp_writeMavros (points : List GeoPoint) : readWp (writeMavros points) = some (points.map written) := by
  have hversion : '\n' ∉ "QGC WPL 120".toList := by decide
  unfold readWp writeMavros
  rw [getlines_cons hversion, List.drop_one, List.tail_cons]
  exact mapM_getlines_writePoints 0 1 points

/-! ### The two readers -/

/-- The file with these lines. -/
def Route.ofLines (lines : List RouteLine) : Route where
  text := (header.toList :: lines.map RouteLine.chars).flatMap (fun line => line ++ ['\n'])
  lines := lines
  getlines_text := by
    refine getlines_flatMap (fun line hline hc => ?_)
    obtain rfl | hline := List.mem_cons.mp hline
    · exact absurd hc (by decide)
    · obtain ⟨l, -, rfl⟩ := List.mem_map.mp hline
      exact absurd (l.mem_chars hc) (by simp [IsNumeral])

namespace Route

variable (r : Route)

/-- The points of the script have the longitude in the field of the latitude. -/
theorem readTxt_text : readTxt r.text =
    some (r.lines.map (fun l => ⟨l.longitude.value, l.latitude.value, l.altitude.value⟩)) := by
  have hlines := (map_readlines r.text).trans r.getlines_text
  unfold readTxt
  cases h : readlines r.text with
  | nil =>
      rw [h] at hlines
      cases hlines
  | cons f fs =>
      rw [h, List.map_cons, List.cons.injEq] at hlines
      have hstrip : fs.mapM (fun f => readPoint (sub f)) = (fs.map sub).mapM readPoint := by
        rw [List.mapM_map]
        rfl
      refine hstrip.trans ?_
      rw [hlines.2, List.mapM_map]
      exact Lists.mapM_eq_some_map (fun l _ => l.readPoint_chars)

/-- The lines that `sendWPFile` reads. -/
def file : List String := (getlines r.text).map String.ofList

theorem waypointLines_file : waypointLines r.file = r.lines.map (fun l => String.ofList l.chars) := by
  have hheader : waypointLines [header] = [] := by decide
  have hletter : ∀ l ∈ r.lines, 'l' ∉ l.chars :=
    fun l _ hmem => absurd (l.mem_chars hmem) (by simp [IsNumeral])
  unfold file
  rw [r.getlines_text, List.map_cons, String.ofList_toList, List.map_map]
  exact waypointLines_append hheader hletter

/-- The waypoints that are sent after the position of the vehicle. -/
def waypoints : List Waypoint :=
  r.lines.map (fun l => waypoint false l.latitude.value l.longitude.value l.altitude.value)

theorem sendWPFile_file (position : SendWpFile.GeoPoint) : sendWPFile position r.file =
    if r.lines = [] then none
    else some (waypoint true position.latitude position.longitude 15 :: r.waypoints) :=
  sendWPFile_eq position r.waypointLines_file (fun l => l.readLine_chars)

end Route

/-- The position of a waypoint, to eight decimals. -/
def rounded (w : Waypoint) : Position := ⟨eightDecimals w.xLat, eightDecimals w.yLong, eightDecimals w.zAlt⟩

/-- **Two readers of a route.**  `sendWPFile` builds the current position and the waypoints of the route, and
nothing for a route without points; the file made by `convertToWP` describes the same waypoints in the same order,
rounded to eight decimals. -/
theorem readWp_convertToWP (position : SendWpFile.GeoPoint) (r : Route) : ∃ wps,
    sendWPFile position r.file = (if r.lines = [] then none
      else some (waypoint true position.latitude position.longitude 15 :: wps)) ∧
    wps.length = r.lines.length ∧
    (convertToWP r.text).bind readWp = some (wps.map rounded) := by
  refine ⟨r.waypoints, r.sendWPFile_file position, List.length_map _, ?_⟩
  rw [convertToWP, r.readTxt_text, Option.map_some, Option.bind_some, readWp_writeMavros, Route.waypoints,
    List.map_map, List.map_map]
  rfl

section demo

/-- A field in the west and the south. -/
def farm : RouteLine where
  longitude := ⟨"-50.350000000".toList, by decide, by decide +kernel⟩
  latitude := ⟨"-12.83".toList, by decide, by decide +kernel⟩
  altitude := ⟨"15.000".toList, by decide, by decide +kernel⟩
  before := 0
  gap := 1
  gap' := 8
  after := 0

example : (convertToWP (Route.ofLines [farm]).text).map String.ofList =
    some "QGC WPL 120\n0\t1\t3\t16\t3\t0\t0\t0\t-12.83000000\t-50.35000000\t15.00000000\t1\n" := by
  decide +kernel

end demo

end DroneArch.ConvertToWp
