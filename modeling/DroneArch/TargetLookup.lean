import DroneArch.PddlDomain
import DroneArch.RouteText

/-! # The target of a flight

`getGeoPoint` (`RPTutorial10.cpp` and `RPTutorial10_atomic.cpp`) fills in the coordinates of a named place.
It runs `pyemb7.py` through the shell.  The script finds the place in `mapa.json` and prints its latitude
and its longitude into `out.txt`, which `getGeoPoint` then reads line by line.

The JSON files are what `json.load` returns.  A mission is not read; the script raises when there is none.

* `getGeoPoint_eq`: what is read back is what the search found, unless `stod` throws.
* `setsTarget_iff`: when these are the coordinates of the place. -/

namespace DroneArch.TargetLookup

open Binary64 DecimalText RouteText SendWpFile

/-! ### The map -/

/-- A number of a JSON file: Python reads an integer or a float. -/
inductive Number where
  | int (n : ℤ)
  | float (x : Double) (finite : |(x : ℚ)| < 2 ^ 1024)

/-- The number itself. -/
def Number.value : Number → ℚ
  | .int n => n
  | .float x _ => x

/-- The number as a double. -/
def Number.double (v : Number) : ℚ := toDouble v.value

/-- `str` in Python. -/
def Number.str : Number → List Char
  | .int n => intRepr n
  | .float x _ => Binary64.str x

/-- A region or a base; `center` is longitude, latitude and altitude. -/
structure Place where
  name : List Char
  isName : Pddl.isName name = true
  center : Number × Number × Number

/-- The tables of a map. -/
inductive Kind where
  | region
  | base
deriving DecidableEq

/-- An entry of `mapa.json`. -/
structure Mapa where
  regions : List Place
  bases : List Place
  distinct : ((regions ++ bases).map Place.name).Nodup

def Mapa.table (mapa : Mapa) : Kind → List Place
  | .region => mapa.regions
  | .base => mapa.bases

/-! ### Numbers as texts -/

theorem Number.toDouble_strtod_str (v : Number) : toDouble (strtod v.str) = v.double := by
  cases v with
  | int n => exact congrArg toDouble (strtod_intRepr n)
  | float x finite => exact (atof_str x).trans x.2.symm

theorem Number.strtod_str_eq_zero (v : Number) : strtod v.str = 0 ↔ v.value = 0 := by
  cases v with
  | int n =>
      change strtod (intRepr n) = 0 ↔ (n : ℚ) = 0
      rw [strtod_intRepr]
  | float x finite =>
      change strtod (shortest x).repr = 0 ↔ (x : ℚ) = 0
      rw [strtod_repr, value_shortest_eq_zero]

theorem Number.double_eq_zero (v : Number) : v.double = 0 ↔ v.value = 0 := by
  cases v with
  | int n => exact toDouble_intCast_eq_zero.trans Int.cast_eq_zero.symm
  | float x finite =>
      change toDouble x = 0 ↔ (x : ℚ) = 0
      rw [x.2]

theorem Number.startsNumeral_str (v : Number) : startsNumeral v.str = true := by
  cases v with
  | int n => exact startsNumeral_intRepr n
  | float x finite => exact startsNumeral_repr _

theorem Number.isNumeral_of_mem_str {v : Number} : ∀ c ∈ v.str, IsNumeral c := by
  cases v with
  | int n => exact mem_intRepr n
  | float x finite => exact mem_repr _

theorem Number.newline_notMem_str (v : Number) : '\n' ∉ v.str := by
  intro h
  exact absurd (isNumeral_of_mem_str _ h) (by simp [IsNumeral])

/-! ### `pyemb7.py` -/

/-- The loop of `get_region` and `get_base`: latitude and longitude of the last place with the name. -/
def search (places : List Place) (name : List Char) : Number × Number :=
  places.foldl (fun found step => if step.name = name then (step.center.2.1, step.center.1) else found) (.int 0, .int 0)

def getRegion (mapa : Mapa) (name : List Char) : Number × Number := search mapa.regions name

def getBase (mapa : Mapa) (name : List Char) : Number × Number := search mapa.bases name

/-- The test on the name: `name.find('base') != -1`. -/
def findBase (name : List Char) : Bool := decide ("base".toList <:+: name)

/-- Latitude and longitude as the script finds them. -/
def latLongi (mapa : Mapa) (name : List Char) : Number × Number :=
  if findBase name then getBase mapa name else getRegion mapa name

/-- The two files that the script reads, and the one that its output is appended to. -/
structure Disk (M : Type) where
  missionFile : List M
  mapaFile : List Mapa
  out : Option (List Char)

variable {M : Type}

/-- What is printed. -/
def output (found : Number × Number) : List Char := found.1.str ++ ['\n'] ++ (found.2.str ++ ['\n'])

/-- `pyemb7.py`; it raises when a list is empty or the name is missing. -/
def pyemb7 (d : Disk M) (argv : List (List Char)) : Option (List Char) := do
  let _ ← d.missionFile[0]?
  let mapa ← d.mapaFile[0]?
  let name ← argv[1]?
  some (output (latLongi mapa name))

/-! ### `getGeoPoint` -/

structure GeoPoint where
  name : List Char
  longitude : ℚ
  latitude : ℚ
  altitude : ℚ

/-- The script as the command names it. -/
def script : List Char :=
  "~/drone_arch/drone_ws/src/ROSPlan/src/rosplan/rosplan_planning_system/src/ActionInterface/pyemb7.py".toList

/-- The command for the shell. -/
def command (name : List Char) : List Char :=
  "python3 ".toList ++ script ++ " ".toList ++ name ++ " >> ~/drone_arch/Data/out.txt".toList

/-- `sys.argv`: the words after `python3`, up to the redirection. -/
def argv (command : List Char) : List (List Char) :=
  ((words command).takeWhile (fun word => decide (word ≠ ">>".toList))).drop 1

/-- `rm ~/drone_arch/Data/out.txt`. -/
def Disk.rm (d : Disk M) : Disk M := { d with out := none }

/-- The shell makes the file if there is none, also when the script raises. -/
def Disk.run (d : Disk M) (command : List Char) : Disk M :=
  { d with out := some (d.out.getD [] ++ (pyemb7 d (argv command)).getD []) }

/-- Zero, or a number whose double is a normal one. -/
def InRange (r : ℚ) : Prop := r = 0 ∨ 1 / 2 ^ 1022 ≤ |toDouble r| ∧ |toDouble r| < 2 ^ 1024

instance (r : ℚ) : Decidable (InRange r) := inferInstanceAs (Decidable (_ ∨ _ ∧ _))

/-- `stod`, which throws when there is no numeral or when `strtod` sets `ERANGE`.  The subnormal numbers that it
would read exactly have hundreds of digits, more than Python prints. -/
def stod (s : List Char) : Option ℚ :=
  if startsNumeral (s.dropWhile isspace) = true ∧ InRange (strtod (s.dropWhile isspace)) then
    some (atof (s.dropWhile isspace))
  else none

/-- The body of the loop; `result` is set until a line has been read. -/
def readLine : GeoPoint × Bool → List Char → Option (GeoPoint × Bool)
  | (geo, true), line => (stod line).map (fun v => ({ geo with latitude := v }, false))
  | (geo, false), line => (stod line).map (fun v => ({ geo with longitude := v }, false))

/-- `getGeoPoint`; `none` is an exception. -/
def getGeoPoint (d : Disk M) (geo : GeoPoint) : Option (Disk M × GeoPoint) :=
  let d' := d.rm.run (command geo.name)
  match d'.out with
  | some text => ((getlines text).foldlM readLine (geo, true)).map (fun state => (d', state.1))
  | none => some (d', geo)

/-- For the name of the place, `getGeoPoint` returns with the place's latitude and longitude. -/
def SetsTarget (d : Disk M) (p : Place) : Prop :=
  ∀ geo : GeoPoint, geo.name = p.name → ∃ d' geo', getGeoPoint d geo = some (d', geo') ∧
    geo'.latitude = p.center.2.1.double ∧ geo'.longitude = p.center.1.double

/-! ### The search -/

/-- The table in which the script looks. -/
def tested (name : List Char) : Kind := if findBase name then .base else .region

theorem latLongi_eq (mapa : Mapa) (name : List Char) : latLongi mapa name = search (mapa.table (tested name)) name := by
  unfold latLongi tested
  split
  · rfl
  · rfl

theorem Mapa.nodup_table (mapa : Mapa) (k : Kind) : ((mapa.table k).map Place.name).Nodup := by
  have h := mapa.distinct
  rw [List.map_append] at h
  cases k with
  | region => exact h.of_append_left
  | base => exact h.of_append_right

/-- No name is in both tables. -/
theorem Mapa.kind_unique {mapa : Mapa} {k k' : Kind} {p : Place} (hp : p ∈ mapa.table k)
    (h : p.name ∈ (mapa.table k').map Place.name) : k = k' := by
  have hdisjoint := mapa.distinct
  rw [List.map_append] at hdisjoint
  have hname : p.name ∈ (mapa.table k).map Place.name := List.mem_map_of_mem hp
  cases k with
  | region =>
      cases k' with
      | region => rfl
      | base => exact absurd h (hdisjoint.disjoint hname)
  | base =>
      cases k' with
      | region => exact absurd hname (hdisjoint.disjoint h)
      | base => rfl

theorem tested_eq_iff (name : List Char) (k : Kind) : tested name = k ↔ (findBase name = true ↔ k = .base) := by
  unfold tested
  by_cases h : findBase name = true
  · rw [if_pos h, iff_true_left h, eq_comm]
  · rw [if_neg h, iff_false_left h]
    cases k with
    | region => simp
    | base => simp

section
variable {mapa : Mapa} {k : Kind} {p : Place}

theorem latLongi_of_tested (hp : p ∈ mapa.table k) (hk : tested p.name = k) :
    latLongi mapa p.name = (p.center.2.1, p.center.1) := by
  rw [latLongi_eq, hk]
  exact Lists.foldl_last_of_mem (mapa.nodup_table k) hp _

/-- A place that is looked for in the other table is not found. -/
theorem latLongi_of_not_tested (hp : p ∈ mapa.table k) (hk : tested p.name ≠ k) :
    latLongi mapa p.name = (.int 0, .int 0) := by
  rw [latLongi_eq]
  exact Lists.foldl_last_of_notMem (fun h => hk (Mapa.kind_unique hp h).symm) _

end

/-! ### The command -/

theorem lt_of_isAlphanum {c : Char} (h : c.isAlphanum = true) : 32 < c.toNat := by
  obtain halpha | hdigit := Bool.or_eq_true_iff.mp h
  · obtain hupper | hlower := Bool.or_eq_true_iff.mp halpha
    · exact lt_of_lt_of_le (by decide : 32 < 'A'.toNat) (of_decide_eq_true hupper).1
    · exact lt_of_lt_of_le (by decide : 32 < 'a'.toNat) (of_decide_eq_true (Bool.and_eq_true_iff.mp hlower).1)
  · exact lt_of_lt_of_le (by decide : 32 < '0'.toNat) (Char.isDigit_iff_toNat.mp hdigit).1

theorem isspace_of_isName {name : List Char} (h : Pddl.isName name = true) : ∀ c ∈ name, isspace c = false := by
  intro c hc
  obtain hc | rfl | rfl := Pddl.alphanum_of_isName h c hc
  · exact isspace_of_lt (lt_of_isAlphanum hc)
  · decide
  · decide

/-- A text without spaces is one word. -/
theorem words_of_all {s : List Char} (h : (!s.isEmpty && s.all (fun c => !isspace c)) = true) : words s = [s] := by
  simp only [Bool.and_eq_true, Bool.not_eq_true', List.isEmpty_eq_false_iff, List.all_eq_true] at h
  exact words_singleton h.1 h.2

theorem words_script : words script = [script] := by
  -- the literal is unfolded to its characters
  have hchars : script = _ := String.toList_ofList
  refine words_of_all ?_
  rw [hchars]
  decide

/-- The script is not taken for the redirection. -/
theorem script_ne : script ≠ ">>".toList := by
  have hchars : script = _ := String.toList_ofList
  rw [hchars]
  decide

theorem words_redirection :
    words ">> ~/drone_arch/Data/out.txt".toList = [">>".toList, "~/drone_arch/Data/out.txt".toList] := by
  have hchars : "~/drone_arch/Data/out.txt".toList = _ := String.toList_ofList
  have hpath : words "~/drone_arch/Data/out.txt".toList = ["~/drone_arch/Data/out.txt".toList] := by
    refine words_of_all ?_
    rw [hchars]
    decide
  have hfirst : words ">>".toList = [">>".toList] := words_of_all (by decide)
  have hsplit : ">> ~/drone_arch/Data/out.txt".toList = ">>".toList ++ ' ' :: "~/drone_arch/Data/out.txt".toList := rfl
  rw [hsplit, words_append_space (by decide), hfirst, hpath]
  rfl

theorem ne_nil_of_isName {name : List Char} (h : Pddl.isName name = true) : name ≠ [] := by
  rintro rfl
  cases h

theorem words_command {name : List Char} (hname : Pddl.isName name = true) :
    words (command name) = ["python3".toList, script, name, ">>".toList, "~/drone_arch/Data/out.txt".toList] := by
  have hspace : isspace ' ' = true := by decide
  have hpython : words "python3".toList = ["python3".toList] := by decide
  have hfirst : "python3 ".toList = "python3".toList ++ [' '] := rfl
  have hlast : " >> ~/drone_arch/Data/out.txt".toList = ' ' :: ">> ~/drone_arch/Data/out.txt".toList := rfl
  unfold command
  rw [hfirst, hlast, show " ".toList = [' '] from rfl, List.append_assoc, List.append_assoc, List.append_assoc,
    List.append_assoc, List.singleton_append, words_append_space hspace, List.singleton_append,
    words_append_space hspace, words_append_space hspace, hpython, words_script, words_redirection,
    words_singleton (ne_nil_of_isName hname) (isspace_of_isName hname)]
  rfl

/-- The script gets the name. -/
theorem argv_command {name : List Char} (hname : Pddl.isName name = true) : argv (command name) = [script, name] := by
  have hne : name ≠ ">>".toList := by
    rintro rfl
    exact absurd hname (by decide)
  unfold argv
  rw [words_command hname, List.takeWhile_cons_of_pos (by decide),
    List.takeWhile_cons_of_pos (by exact decide_eq_true script_ne),
    List.takeWhile_cons_of_pos (by exact decide_eq_true hne), List.takeWhile_cons_of_neg (by decide)]
  rfl

/-! ### Reading back -/

theorem inRange_congr {r r' : ℚ} (hzero : r = 0 ↔ r' = 0) (h : toDouble r = toDouble r') : InRange r ↔ InRange r' := by
  unfold InRange
  rw [hzero, h]

/-- `stod` throws on the text of a number that is out of range, and reads the others. -/
theorem stod_str (v : Number) : stod v.str = if InRange v.value then some v.double else none := by
  have hspace : v.str.dropWhile isspace = v.str := by
    cases hv : v.str with
    | nil => rfl
    | cons c s =>
        have hc : isspace c = false :=
          isspace_of_isNumeral (Number.isNumeral_of_mem_str c (by rw [hv]; exact List.mem_cons_self))
        exact List.dropWhile_cons_of_neg (by simp [hc])
  have hrange : InRange (strtod v.str) ↔ InRange v.value := inRange_congr v.strtod_str_eq_zero v.toDouble_strtod_str
  unfold stod
  rw [hspace, if_congr (and_iff_right v.startsNumeral_str) rfl rfl, if_congr hrange rfl rfl, atof,
    v.toDouble_strtod_str]

theorem getlines_output (found : Number × Number) : getlines (output found) = [found.1.str, found.2.str] := by
  have hlines : ∀ line ∈ [found.1.str, found.2.str], '\n' ∉ line := by
    intro line hline
    simp only [List.mem_cons, List.not_mem_nil, or_false] at hline
    obtain rfl | rfl := hline
    · exact found.1.newline_notMem_str
    · exact found.2.newline_notMem_str
  have h := getlines_flatMap hlines
  rwa [List.flatMap_cons, List.flatMap_singleton] at h

/-- The loop on the two lines. -/
theorem foldlM_readLine (found : Number × Number) (geo : GeoPoint) :
    [found.1.str, found.2.str].foldlM readLine (geo, true) =
      if InRange found.1.value ∧ InRange found.2.value then
        some ({ geo with latitude := found.1.double, longitude := found.2.double }, false)
      else none := by
  rw [List.foldlM_cons, readLine, stod_str]
  by_cases hlat : InRange found.1.value
  · rw [if_pos hlat, if_congr (and_iff_right hlat) rfl rfl]
    change List.foldlM readLine ({ geo with latitude := found.1.double }, false) [found.2.str] = _
    rw [List.foldlM_cons, readLine, stod_str]
    by_cases hlongi : InRange found.2.value
    · rw [if_pos hlongi, if_pos hlongi]
      rfl
    · rw [if_neg hlongi, if_neg hlongi]
      rfl
  · rw [if_neg hlat, if_neg (fun h => hlat h.1)]
    rfl

section
variable {d : Disk M} {geo : GeoPoint}

theorem run_command (hname : Pddl.isName geo.name = true) :
    d.rm.run (command geo.name) = { d with out := some ((pyemb7 d [script, geo.name]).getD []) } := by
  unfold Disk.run
  rw [argv_command hname]
  rfl

/-- The script raises: nothing is set. -/
theorem getGeoPoint_of_nil (hname : Pddl.isName geo.name = true) (hmission : d.missionFile = []) :
    getGeoPoint d geo = some ({ d with out := some [] }, geo) := by
  have hraise : pyemb7 d [script, geo.name] = none := by
    unfold pyemb7
    rw [hmission]
    rfl
  unfold getGeoPoint
  rw [run_command hname, hraise]
  rfl

/-- **Target lookup.**  What is read back is what the search found; `stod` throws when it is out of range. -/
theorem getGeoPoint_eq {mapa : Mapa} (hname : Pddl.isName geo.name = true) (hmission : d.missionFile ≠ [])
    (hmapa : d.mapaFile[0]? = some mapa) :
    getGeoPoint d geo =
      if InRange (latLongi mapa geo.name).1.value ∧ InRange (latLongi mapa geo.name).2.value then
        some ({ d with out := some (output (latLongi mapa geo.name)) },
          { geo with latitude := (latLongi mapa geo.name).1.double, longitude := (latLongi mapa geo.name).2.double })
      else none := by
  obtain ⟨mission, missions, hcons⟩ := List.exists_cons_of_ne_nil hmission
  have hprint : pyemb7 d [script, geo.name] = some (output (latLongi mapa geo.name)) := by
    unfold pyemb7
    rw [hmapa, hcons]
    rfl
  unfold getGeoPoint
  rw [run_command hname, hprint]
  dsimp only [Option.getD_some]
  rw [getlines_output, foldlM_readLine]
  split
  · rfl
  · rfl

/-- Nothing is set when the script raises, so the target is not. -/
theorem not_setsTarget_of_nil {p : Place} (hmission : d.missionFile = []) : ¬ SetsTarget d p := by
  intro h
  obtain ⟨d', geo', heq, hlat, -⟩ := h ⟨p.name, 0, p.center.2.1.double + 1, 0⟩ rfl
  rw [getGeoPoint_of_nil p.isName hmission] at heq
  cases heq
  simp at hlat

/-- With a mission, the search decides. -/
theorem setsTarget_iff_latLongi {mapa : Mapa} {p : Place} (hmission : d.missionFile ≠ [])
    (hmapa : d.mapaFile[0]? = some mapa) :
    SetsTarget d p ↔
      (InRange (latLongi mapa p.name).1.value ∧ InRange (latLongi mapa p.name).2.value) ∧
        (latLongi mapa p.name).1.double = p.center.2.1.double ∧ (latLongi mapa p.name).2.double = p.center.1.double := by
  constructor
  · intro h
    obtain ⟨d', geo', heq, hlat, hlongi⟩ := h ⟨p.name, 0, 0, 0⟩ rfl
    rw [getGeoPoint_eq p.isName hmission hmapa] at heq
    by_cases hrange : InRange (latLongi mapa p.name).1.value ∧ InRange (latLongi mapa p.name).2.value
    · rw [if_pos hrange] at heq
      cases heq
      exact ⟨hrange, hlat, hlongi⟩
    · rw [if_neg hrange] at heq
      cases heq
  · rintro ⟨hrange, hlat, hlongi⟩ geo hgeo
    have hname : Pddl.isName geo.name = true := by
      rw [hgeo]
      exact p.isName
    have heq := getGeoPoint_eq hname hmission hmapa
    rw [hgeo, if_pos hrange] at heq
    exact ⟨_, _, heq, hlat, hlongi⟩

end

/-! ### The target -/

theorem double_zero : (Number.int 0).double = 0 := (Number.double_eq_zero _).mpr Int.cast_zero

theorem inRange_zero : InRange (Number.int 0).value := Or.inl Int.cast_zero

section
variable {d : Disk M} {mapa : Mapa} {k : Kind} {p : Place}

/-- A place in the table that the script reads. -/
theorem setsTarget_of_tested (hmission : d.missionFile ≠ []) (hmapa : d.mapaFile[0]? = some mapa)
    (hp : p ∈ mapa.table k) (hk : tested p.name = k) :
    SetsTarget d p ↔ InRange p.center.2.1.value ∧ InRange p.center.1.value := by
  rw [setsTarget_iff_latLongi hmission hmapa, latLongi_of_tested hp hk]
  exact and_iff_left ⟨rfl, rfl⟩

/-- A place in the other table is taken to be at latitude 0 and longitude 0. -/
theorem setsTarget_of_not_tested (hmission : d.missionFile ≠ []) (hmapa : d.mapaFile[0]? = some mapa)
    (hp : p ∈ mapa.table k) (hk : tested p.name ≠ k) :
    SetsTarget d p ↔ p.center.2.1.value = 0 ∧ p.center.1.value = 0 := by
  rw [setsTarget_iff_latLongi hmission hmapa, latLongi_of_not_tested hp hk,
    and_iff_right (And.intro inRange_zero inRange_zero)]
  dsimp only
  rw [double_zero, eq_comm, Number.double_eq_zero, eq_comm (a := 0), Number.double_eq_zero]

/-- **The target.**  `getGeoPoint` sets the coordinates of a place exactly when there is a mission, and the name has
`base` in it just if the place is a base, and its coordinates are in range; or the place is at 0, 0. -/
theorem setsTarget_iff (hmapa : d.mapaFile[0]? = some mapa) (hp : p ∈ mapa.table k) :
    SetsTarget d p ↔ d.missionFile ≠ [] ∧
      ((findBase p.name = true ↔ k = .base) ∧ InRange p.center.2.1.value ∧ InRange p.center.1.value ∨
        p.center.2.1.value = 0 ∧ p.center.1.value = 0) := by
  by_cases hmission : d.missionFile = []
  · exact iff_of_false (not_setsTarget_of_nil hmission) (fun h => h.1 hmission)
  · rw [and_iff_right hmission, ← tested_eq_iff]
    by_cases hk : tested p.name = k
    · rw [setsTarget_of_tested hmission hmapa hp hk, and_iff_right hk]
      refine ⟨Or.inl, ?_⟩
      rintro (h | ⟨hlat, hlongi⟩)
      · exact h
      · exact ⟨Or.inl hlat, Or.inl hlongi⟩
    · rw [setsTarget_of_not_tested hmission hmapa hp hk, iff_false_intro hk, false_and, false_or]

end

/-! ### A map -/

theorem isName_base : Pddl.isName "base_1".toList = true := by decide

theorem isName_hangar : Pddl.isName "hangar".toList = true := by decide

theorem isName_region : Pddl.isName "region_1".toList = true := by decide

theorem base_range : |(Double.nearest (-5033633513165995 / 10 ^ 14) : ℚ)| < 2 ^ 1024 ∧
    |(Double.nearest (-1282046769976293 / 10 ^ 14) : ℚ)| < 2 ^ 1024 ∧
    InRange (Double.nearest (-5033633513165995 / 10 ^ 14)) ∧ InRange (Double.nearest (-1282046769976293 / 10 ^ 14)) := by
  decide +kernel

/-- `base_1` of the repository's map. -/
def base1 : Place :=
  ⟨"base_1".toList, isName_base, (.float _ base_range.1, .float _ base_range.2.1, .int 0)⟩

/-- A base without `base` in its name. -/
def hangar : Place := ⟨"hangar".toList, isName_hangar, (.int (-50), .int (-13), .int 0)⟩

def region1 : Place := ⟨"region_1".toList, isName_region, (.int (-51), .int (-13), .int 0)⟩

theorem distinct_fazenda : (([region1] ++ [base1, hangar]).map Place.name).Nodup := by decide

def fazenda : Mapa := ⟨[region1], [base1, hangar], distinct_fazenda⟩

/-- One mission, and the output of an earlier run. -/
def fazendaDisk : Disk Unit := ⟨[()], [fazenda], some "0\n0\n".toList⟩

theorem setsTarget_iff_base1 : SetsTarget fazendaDisk base1 := by
  have hmem : base1 ∈ fazenda.table .base := List.mem_cons_self
  have hrange := base_range.2.2
  exact (setsTarget_iff rfl hmem).mpr ⟨by decide, Or.inl ⟨by decide, hrange.2, hrange.1⟩⟩

/-- The base is looked for among the regions. -/
theorem setsTarget_hangar_fails : hangar ∈ fazenda.bases ∧ ¬ SetsTarget fazendaDisk hangar := by
  have hmem : hangar ∈ fazenda.bases := List.mem_cons_of_mem _ List.mem_cons_self
  refine ⟨hmem, ?_⟩
  rw [setsTarget_of_not_tested (k := .base) (by decide) rfl hmem (by decide)]
  decide

end DroneArch.TargetLookup
