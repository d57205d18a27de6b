import Mathlib.Algebra.Field.Rat
import Mathlib.Data.List.ModifyLast
import DroneArch.DecimalText
import DroneArch.Lists
import DroneArch.Runs

/-! # The mission log

`create_log.py` is run once for each new mission, each replanning and each measured flight time, and
keeps `mission_log.json`: a list of missions, each with its replannings and its real time.  A log
whose first run raises is lost: the file has been created, and an empty file is not JSON.

* `IsEntry` says what the entry of a mission is, from the runs alone.
* `recorded_iff`: the file is the list of these entries, and every run ends normally, exactly when no run
  is in mode 2: that mode reads `log_id`, a name of `FileCheck_id` that `main` does not have. -/

namespace DroneArch.MissionLog

/-! ### The script -/

section
variable (K : Type)

/-- The record of one planning; an infinite `cpu_time` is `none`. -/
structure Log where
  id : ℤ
  domain : String
  planner : String
  idMission : ℤ
  totalGoals : ℕ
  qtdTypesGoals : ℕ
  sucsses : ℕ
  cpuTime : Option K
  totalTime : K
  totalDistance : K
deriving DecidableEq

/-- An entry of the log; the keys `replanning` and `real_time` are added later. -/
structure Entry where
  log : Log K
  replanning : Option (List (Log K))
  realTime : Option ℤ
deriving DecidableEq

/-- The log file: missing, created but empty, or a JSON list. -/
inductive File
  | missing
  | empty
  | json (entries : List (Entry K))
deriving DecidableEq

/-- The arguments of a run, the answers of the services, and the mission and plan files.  A mission is
the list of the commands of its steps. -/
structure Run where
  missionId : ℤ
  replanning : ℤ
  domain : String
  planner : String
  velocity : K
  missions : List (List String)
  plan : List String

/-- Python's `eval` where the script uses it: of a number, and of the first item of a list. -/
structure Eval where
  number : String → Option K
  first : String → Option K

end

/-- The index that `l[i]` reads; a negative one counts from the end. -/
def index {α : Type} (l : List α) (i : ℤ) : Option ℕ :=
  if 0 ≤ i ∧ i < l.length then some i.toNat
  else if i < 0 ∧ 0 ≤ l.length + i then some (l.length + i).toNat
  else none

/-- The number of steps and of different commands. -/
def goals (mission : List String) : ℕ × ℕ :=
  (mission.length,
    (mission.foldl (fun obj command => if command ∉ obj then obj ++ [command] else obj) []).length)

/-- `pattern in line`. -/
def inLine (pattern line : String) : Bool := decide (pattern.toList <:+: line.toList)

/-- `line.split(' ')[-1].rstrip()`. -/
def lastField (line : String) : String :=
  String.ofList ((((line.toList.splitOn ' ').getLastD []).reverse.dropWhile Char.isWhitespace).reverse)

section
variable {K : Type} [Zero K] [Add K] [Mul K] (ev : Eval K)

/-- `parse_file_plan`: success, time of the planner, time of the plan. -/
def parseFilePlan (lines : List String) : Option (ℕ × Option K × K) :=
  lines.foldlM (fun acc line => do
    let sucsses := if inLine "Solution Found" line then 1 else acc.1
    let cpuTime ← if inLine "; Time" line then (ev.number (lastField line)).map some else some acc.2.1
    let totalTime ← if inLine ": (" line then (ev.first (lastField line)).map (acc.2.2 + ·) else some acc.2.2
    some (sucsses, cpuTime, totalTime)) (0, none, 0)

/-- The record that a run writes under the given number, if the mission and the plan can be read. -/
def Run.log (r : Run K) (id : ℤ) : Option (Log K) := do
  let k ← index r.missions r.missionId
  let mission ← r.missions[k]?
  let (sucsses, cpuTime, totalTime) ← parseFilePlan ev r.plan
  some
    { id := id
      domain := r.domain
      planner := r.planner
      idMission := r.missionId
      totalGoals := (goals mission).1
      qtdTypesGoals := (goals mission).2
      sucsses := sucsses
      cpuTime := cpuTime
      totalTime := totalTime
      totalDistance := r.velocity * totalTime }

omit [Zero K] [Add K] [Mul K] in
/-- `FileCheck_id`: the number for the record and the entries; a file that is not JSON, or an empty list,
raises. -/
def fileCheckId (file : File K) (replanning : ℤ) : Option (ℤ × List (Entry K)) :=
  match file with
  | .missing => some (0, [])
  | .empty => none
  | .json entries =>
      entries.getLast?.map (fun e => (if replanning = 0 then e.log.id + 1 else e.log.id, entries))

omit [Zero K] [Add K] [Mul K] in
/-- What `FileCheck_id` leaves on the disk. -/
def File.checked : File K → File K
  | .missing => .empty
  | file => file

omit [Zero K] [Add K] [Mul K] in
/-- Append a replanning to an entry; the key is created by the exception handler. -/
def Entry.replan (e : Entry K) (log : Log K) : Entry K :=
  match e.replanning with
  | some logs => { e with replanning := some (logs ++ [{ log with id := logs.length }]) }
  | none => { e with replanning := some [{ log with id := 0 }] }

/-- The list that a run writes; `none` when it raises. -/
def main (file : File K) (r : Run K) : Option (List (Entry K)) := do
  let (idLog, logFile) ← fileCheckId file r.replanning
  if r.replanning = 0 then
    let log ← r.log ev idLog
    some (logFile ++ [⟨log, none, none⟩])
  else if r.replanning = 1 then
    let log ← r.log ev idLog
    let k ← index logFile idLog
    let e ← logFile[k]?
    some (logFile.set k (e.replan log))
  -- log_file[log_id]['real_time'] = mission_id, where log_id is not defined
  else none

/-- The file after a run. -/
def write (file : File K) (r : Run K) : File K :=
  match main ev file r with
  | some entries => .json entries
  | none => file.checked

/-- The file after a sequence of runs. -/
def after (rs : List (Run K)) : File K := rs.foldl (write ev) .missing

/-! ### What the log is for -/

omit [Zero K] [Add K] [Mul K] in
/-- The runs grouped by mission: the run that creates it and the later ones. -/
def missions (rs : List (Run K)) : List (Run K × List (Run K)) :=
  rs.foldl (fun ms r => if r.replanning = 0 then ms ++ [(r, [])]
    else ms.modifyLast (fun m => (m.1, m.2 ++ [r]))) []

/-- The records of the replannings of a mission, numbered in the order of the runs. -/
def Replanned (rs : List (Run K)) (logs : List (Log K)) : Prop :=
  List.Forall₂ (fun (p : Run K × ℕ) log => p.1.log ev p.2 = some log)
    (rs.filter (fun r => r.replanning = 1)).zipIdx logs

/-- The entry of the `k`-th mission. -/
structure IsEntry (m : Run K × List (Run K)) (k : ℕ) (e : Entry K) : Prop where
  log : m.1.log ev k = some e.log
  replanned : Replanned ev m.2 (e.replanning.getD [])
  keyed : e.replanning ≠ some []
  realTime : e.realTime = ((m.2.filter (fun r => r.replanning = 2)).getLast?).map (·.missionId)

omit [Zero K] [Add K] [Mul K] in
/-- The entries in a file. -/
def File.entries : File K → List (Entry K)
  | .json entries => entries
  | _ => []

/-- Every run ends normally, the file is the list of the entries of all missions, and no run changes an
entry before the last. -/
structure Recorded (rs : List (Run K)) : Prop where
  ends : ∀ pre r post, rs = pre ++ r :: post → (main ev (after ev pre) r).isSome = true
  file : ∃ entries, after ev rs = .json entries ∧
    List.Forall₂ (fun (p : (Run K × List (Run K)) × ℕ) e => IsEntry ev p.1 p.2 e) (missions rs).zipIdx entries
  earlier : ∀ pre r post, rs = pre ++ r :: post →
    (after ev pre).entries.dropLast <+: (after ev (pre ++ [r])).entries

/-! ### One run -/

theorem index_natCast {α : Type} {l : List α} {k : ℕ} (h : k < l.length) : index l (k : ℤ) = some k := by
  unfold index
  rw [if_pos ⟨by omega, by omega⟩, Int.toNat_natCast]

/-- The number is only written into the record. -/
theorem log_id {r : Run K} {i : ℤ} {log : Log K} (h : r.log ev i = some log) (j : ℤ) :
    log.id = i ∧ r.log ev j = some { log with id := j } := by
  simp only [Run.log, Option.bind_eq_bind, Option.bind_eq_some_iff] at h ⊢
  obtain ⟨k, hk, mission, hmission, p, hp, h⟩ := h
  cases h
  exact ⟨rfl, k, hk, mission, hmission, p, hp, rfl⟩

theorem exists_log {r : Run K} (h : (r.log ev 0).isSome = true) (i : ℤ) : ∃ log, r.log ev i = some log := by
  obtain ⟨log, hlog⟩ := Option.isSome_iff_exists.mp h
  exact ⟨_, (log_id ev hlog i).2⟩

theorem isEntry_new {r : Run K} {k : ℕ} {log : Log K} (h : r.log ev k = some log) :
    IsEntry ev (r, []) k ⟨log, none, none⟩ :=
  ⟨h, List.Forall₂.nil, by simp, rfl⟩

omit [Zero K] [Add K] [Mul K] in
/-- With and without the key, the record gets the number of the records before it. -/
theorem Entry.replan_eq (e : Entry K) (log : Log K) : e.replan log =
    { e with replanning := some (e.replanning.getD [] ++
      [{ log with id := ((e.replanning.getD []).length : ℤ) }]) } := by
  unfold Entry.replan
  cases e.replanning with
  | none => rfl
  | some logs => rfl

theorem isEntry_replan {m : Run K × List (Run K)} {k : ℕ} {e : Entry K} {r : Run K} {i : ℤ} {log : Log K}
    (h : IsEntry ev m k e) (hr : r.replanning = 1) (hlog : r.log ev i = some log) :
    IsEntry ev (m.1, m.2 ++ [r]) k (e.replan log) := by
  have hfilter : (m.2 ++ [r]).filter (fun r => r.replanning = 1) =
      m.2.filter (fun r => r.replanning = 1) ++ [r] := by
    simp [hr]
  have hother : (m.2 ++ [r]).filter (fun r => r.replanning = 2) = m.2.filter (fun r => r.replanning = 2) := by
    simp [hr]
  have hreplanned : Replanned ev (m.2 ++ [r])
      (e.replanning.getD [] ++ [{ log with id := ((e.replanning.getD []).length : ℤ) }]) := by
    unfold Replanned
    rw [hfilter]
    refine (Lists.forall₂_zipIdx_concat (R := fun (r : Run K) (i : ℕ) log => r.log ev i = some log)).mpr
      ⟨_, _, rfl, h.replanned, ?_⟩
    rw [← h.replanned.length_eq, List.length_zipIdx]
    exact (log_id ev hlog _).2
  rw [Entry.replan_eq]
  refine ⟨h.log, hreplanned, by simp, ?_⟩
  rw [hother]
  exact h.realTime

omit [Zero K] [Add K] [Mul K] in
theorem missions_new (rs : List (Run K)) {r : Run K} (hr : r.replanning = 0) :
    missions (rs ++ [r]) = missions rs ++ [(r, [])] := by
  rw [missions, List.foldl_append, List.foldl_cons, List.foldl_nil, if_pos hr]
  rfl

omit [Zero K] [Add K] [Mul K] in
theorem missions_later {rs : List (Run K)} {r : Run K} (hr : r.replanning ≠ 0)
    {ms : List (Run K × List (Run K))} {m : Run K × List (Run K)} (h : missions rs = ms ++ [m]) :
    missions (rs ++ [r]) = ms ++ [(m.1, m.2 ++ [r])] := by
  rw [missions, List.foldl_append, List.foldl_cons, List.foldl_nil, if_neg hr]
  show (missions rs).modifyLast _ = _
  rw [h, List.modifyLast_concat]

theorem after_concat (rs : List (Run K)) (r : Run K) : after ev (rs ++ [r]) = write ev (after ev rs) r := by
  rw [after, List.foldl_append]
  rfl

/-- Every mode but the first two raises. -/
theorem main_eq_none (file : File K) {r : Run K} (h0 : r.replanning ≠ 0) (h1 : r.replanning ≠ 1) :
    main ev file r = none := by
  unfold main
  cases fileCheckId file r.replanning with
  | none => rfl
  | some p =>
      show (if r.replanning = 0 then _ else _) = none
      rw [if_neg h0, if_neg h1]

/-- A new mission in a missing file. -/
theorem main_first {r : Run K} {log : Log K} (hr : r.replanning = 0) (hlog : r.log ev 0 = some log) :
    main ev .missing r = some [⟨log, none, none⟩] := by
  unfold main fileCheckId
  show (if r.replanning = 0 then _ else _) = _
  rw [if_pos hr, hlog]
  rfl

/-- A new mission after others. -/
theorem main_new {r : Run K} {l : List (Entry K)} {e : Entry K} {log : Log K} (hr : r.replanning = 0)
    (hlog : r.log ev (e.log.id + 1) = some log) :
    main ev (.json (l ++ [e])) r = some (l ++ [e] ++ [⟨log, none, none⟩]) := by
  unfold main fileCheckId
  simp only [List.getLast?_append, List.getLast?_singleton, Option.some_or, Option.map_some, if_pos hr]
  show (r.log ev (e.log.id + 1)).bind _ = _
  rw [hlog]
  rfl

/-- A replanning of the last mission. -/
theorem main_replan {r : Run K} {l : List (Entry K)} {e : Entry K} {log : Log K} (hr : r.replanning = 1)
    (hid : e.log.id = l.length) (hlog : r.log ev e.log.id = some log) :
    main ev (.json (l ++ [e])) r = some (l ++ [e.replan log]) := by
  have h0 : r.replanning ≠ 0 := by omega
  have hindex : index (l ++ [e]) e.log.id = some l.length := by
    rw [hid]
    exact index_natCast (by simp)
  have hget : (l ++ [e])[l.length]? = some e := by simp
  unfold main fileCheckId
  simp only [List.getLast?_append, List.getLast?_singleton, Option.some_or, Option.map_some, if_neg h0]
  show (if r.replanning = 1 then _ else _) = _
  rw [if_pos hr, hlog]
  show (index (l ++ [e]) e.log.id).bind _ = _
  rw [hindex]
  show ((l ++ [e])[l.length]?).bind _ = _
  rw [hget]
  simp

/-! ### Sequences of runs -/

/-- The file holds the entries of all missions so far. -/
def Stored (rs : List (Run K)) : Prop :=
  ∃ entries, after ev rs = .json entries ∧
    List.Forall₂ (fun (p : (Run K × List (Run K)) × ℕ) e => IsEntry ev p.1 p.2 e) (missions rs).zipIdx entries

/-- The last mission and its entry. -/
theorem Stored.last {rs : List (Run K)} (h : Stored ev rs) (hne : missions rs ≠ []) :
    ∃ ms m l e, missions rs = ms ++ [m] ∧ after ev rs = .json (l ++ [e]) ∧ ms.length = l.length ∧
      List.Forall₂ (fun (p : (Run K × List (Run K)) × ℕ) e => IsEntry ev p.1 p.2 e) ms.zipIdx l ∧
      IsEntry ev m l.length e ∧ e.log.id = l.length := by
  obtain ⟨entries, hfile, hentries⟩ := h
  have hms : missions rs = (missions rs).dropLast ++ [(missions rs).getLast hne] :=
    (List.dropLast_append_getLast hne).symm
  generalize (missions rs).dropLast = ms at hms
  generalize (missions rs).getLast hne = m at hms
  rw [hms] at hentries
  obtain ⟨l, e, rfl, hl, he⟩ := (Lists.forall₂_zipIdx_concat (R := IsEntry ev)).mp hentries
  have hlen : ms.length = l.length := by
    rw [← hl.length_eq, List.length_zipIdx]
  rw [hlen] at he
  exact ⟨ms, m, l, e, hms, hfile, hlen, hl, he, (log_id ev he.log 0).1⟩

/-- What a run that does not raise does to a stored log. -/
structure Step (rs : List (Run K)) (r : Run K) : Prop where
  ends : (main ev (after ev rs) r).isSome = true
  stored : Stored ev (rs ++ [r])
  nonempty : missions (rs ++ [r]) ≠ []
  earlier : (after ev rs).entries.dropLast <+: (after ev (rs ++ [r])).entries

theorem step_of_main {rs : List (Run K)} {r : Run K} {entries : List (Entry K)}
    (hmain : main ev (after ev rs) r = some entries) (hne : missions (rs ++ [r]) ≠ [])
    (hentries : List.Forall₂ (fun (p : (Run K × List (Run K)) × ℕ) e => IsEntry ev p.1 p.2 e)
      (missions (rs ++ [r])).zipIdx entries)
    (hearlier : (after ev rs).entries.dropLast <+: entries) : Step ev rs r := by
  have hafter : after ev (rs ++ [r]) = .json entries := by
    rw [after_concat, write, hmain]
  refine ⟨by rw [hmain]; rfl, ⟨entries, hafter, hentries⟩, hne, ?_⟩
  rw [hafter]
  exact hearlier

/-- The first run. -/
theorem step_first {r : Run K} (hr : r.replanning = 0) (hread : (r.log ev 0).isSome = true) : Step ev [] r := by
  obtain ⟨log, hlog⟩ := Option.isSome_iff_exists.mp hread
  have hms : missions ([] ++ [r]) = [] ++ [(r, [])] := missions_new [] hr
  refine step_of_main ev (main_first ev hr hlog) ?_ ?_ (List.nil_prefix)
  · rw [hms]
    exact List.cons_ne_nil _ _
  · rw [hms]
    exact (Lists.forall₂_zipIdx_concat (R := IsEntry ev)).mpr
      ⟨[], _, rfl, List.Forall₂.nil, isEntry_new ev hlog⟩

/-- A later run in one of the first two modes. -/
theorem step_later {rs : List (Run K)} {r : Run K} (h : Stored ev rs) (hne : missions rs ≠ [])
    (hr : r.replanning = 0 ∨ r.replanning = 1) (hread : (r.log ev 0).isSome = true) : Step ev rs r := by
  obtain ⟨ms, m, l, e, hms, hfile, hlen, hl, he, hid⟩ := h.last ev hne
  cases hr with
  | inl hnew =>
      obtain ⟨log, hlog⟩ := exists_log ev hread (e.log.id + 1)
      have hmain : main ev (after ev rs) r = some (l ++ [e] ++ [⟨log, none, none⟩]) := by
        rw [hfile]
        exact main_new ev hnew hlog
      have hentry : IsEntry ev (r, []) (ms ++ [m]).length ⟨log, none, none⟩ := by
        refine isEntry_new ev ?_
        rw [← hlog, hid, List.length_append, List.length_singleton, hlen]
        push_cast
        rfl
      refine step_of_main ev hmain ?_ ?_ ?_
      · rw [missions_new rs hnew]
        simp
      · rw [missions_new rs hnew, hms]
        refine (Lists.forall₂_zipIdx_concat (R := IsEntry ev)).mpr ⟨_, _, rfl, ?_, hentry⟩
        exact (Lists.forall₂_zipIdx_concat (R := IsEntry ev)).mpr ⟨_, _, rfl, hl, hlen ▸ he⟩
      · rw [hfile, File.entries, List.dropLast_concat, List.append_assoc]
        exact List.prefix_append _ _
  | inr hreplan =>
      obtain ⟨log, hlog⟩ := exists_log ev hread e.log.id
      have hmain : main ev (after ev rs) r = some (l ++ [e.replan log]) := by
        rw [hfile]
        exact main_replan ev hreplan hid hlog
      have h0 : r.replanning ≠ 0 := by omega
      have hlater := missions_later h0 hms
      refine step_of_main ev hmain ?_ ?_ ?_
      · rw [hlater]
        simp
      · rw [hlater]
        exact (Lists.forall₂_zipIdx_concat (R := IsEntry ev)).mpr
          ⟨_, _, rfl, hl, isEntry_replan ev (hlen ▸ he) hreplan hlog⟩
      · rw [hfile, File.entries, List.dropLast_concat]
        exact List.prefix_append _ _

/-- The first run creates a mission, and the runs of the first two modes find what they read. -/
structure Readable (rs : List (Run K)) : Prop where
  first : ∀ r rest, rs = r :: rest → r.replanning = 0
  reads : ∀ r ∈ rs, r.replanning ≠ 2 → (r.log ev 0).isSome = true

/-- Every prefix of the runs is stored. -/
theorem stored_initial {rs : List (Run K)} (h : Readable ev rs)
    (hmode : ∀ r ∈ rs, r.replanning = 0 ∨ r.replanning = 1) (pre : List (Run K)) (hpre : pre <+: rs)
    (hne : pre ≠ []) : Stored ev pre ∧ missions pre ≠ [] := by
  induction pre using List.reverseRecOn with
  | nil => exact absurd rfl hne
  | append_singleton pre r ih =>
      have hr : r ∈ rs := hpre.subset (List.mem_append_right _ (List.mem_singleton_self r))
      have hread : (r.log ev 0).isSome = true := h.reads r hr (by have := hmode r hr; omega)
      by_cases hnil : pre = []
      · subst hnil
        obtain ⟨post, hpost⟩ := hpre
        have hstep := step_first ev (h.first r post hpost.symm) hread
        exact ⟨hstep.stored, hstep.nonempty⟩
      · obtain ⟨hstored, hms⟩ := ih ((List.prefix_append _ _).trans hpre) hnil
        have hstep := step_later ev hstored hms (hmode r hr) hread
        exact ⟨hstep.stored, hstep.nonempty⟩

theorem step_split {rs : List (Run K)} (h : Readable ev rs)
    (hmode : ∀ r ∈ rs, r.replanning = 0 ∨ r.replanning = 1) {pre post : List (Run K)} {r : Run K}
    (hsplit : rs = pre ++ r :: post) : Step ev pre r := by
  have hr : r ∈ rs := by
    rw [hsplit]
    exact List.mem_append_right _ List.mem_cons_self
  have hread : (r.log ev 0).isSome = true := h.reads r hr (by have := hmode r hr; omega)
  by_cases hnil : pre = []
  · subst hnil
    exact step_first ev (h.first r post hsplit) hread
  · obtain ⟨hstored, hms⟩ := stored_initial ev h hmode pre ⟨_, hsplit.symm⟩ hnil
    exact step_later ev hstored hms (hmode r hr) hread

/-- **The mission log.**  For every sequence of runs from a missing file whose first run creates a mission
and whose mission and plan files can be read, all runs end normally and the log is the one of its missions
exactly when no run is in mode 2. -/
theorem recorded_iff {rs : List (Run K)} (hne : rs ≠ []) (h : Readable ev rs)
    (hmodes : ∀ r ∈ rs, r.replanning ∈ [0, 1, 2]) : Recorded ev rs ↔ ∀ r ∈ rs, r.replanning ≠ 2 := by
  constructor
  · intro hrec r hr htwo
    obtain ⟨pre, post, hsplit⟩ := List.append_of_mem hr
    have hends := hrec.ends pre r post hsplit
    rw [main_eq_none ev _ (by omega) (by omega)] at hends
    cases hends
  · intro hno
    have hmode : ∀ r ∈ rs, r.replanning = 0 ∨ r.replanning = 1 := by
      intro r hr
      have hin := hmodes r hr
      have hnot := hno r hr
      simp only [List.mem_cons, List.not_mem_nil, or_false] at hin
      omega
    exact ⟨fun pre r post hsplit => (step_split ev h hmode hsplit).ends,
      (stored_initial ev h hmode rs List.prefix_rfl hne).1,
      fun pre r post hsplit => (step_split ev h hmode hsplit).earlier⟩

end

section demo

/-- Python's `eval` of decimal numbers, and of lists of one of them. -/
def evalDecimals : Eval ℚ where
  number s := if s.toList.all (fun c => c.isDigit || c = '.') then some (DecimalText.readUnsigned s.toList) else none
  first s :=
    match s.toList with
    | '[' :: rest =>
        if rest.dropLast.all (fun c => c.isDigit || c = '.') then some (DecimalText.readUnsigned rest.dropLast)
        else none
    | _ => none

/-- A run on a mission of two steps. -/
def demoRun (missionId replanning : ℤ) : Run ℚ :=
  ⟨missionId, replanning, "journal", "popf", 10, [["pulverize", "end"]],
    ["; Time 0.01", "0.000: (pulverize_region region_1)  [31.400]"]⟩

example : parseFilePlan evalDecimals (demoRun 0 0).plan = some (0, some (1 / 100), 157 / 5) := by decide +kernel

theorem recorded_twoMissions : Recorded evalDecimals [demoRun 0 0, demoRun 0 1, demoRun 0 0] ↔
    ∀ r ∈ [demoRun 0 0, demoRun 0 1, demoRun 0 0], r.replanning ≠ 2 :=
  recorded_iff evalDecimals (by simp)
    ⟨fun _ _ h => by cases h; rfl, by decide +kernel⟩ (by decide +kernel)

end demo

/-- The real time of the first mission is never stored. -/
theorem recorded_fails : ¬ ∀ rs : List (Run ℚ), rs ≠ [] → Readable evalDecimals rs →
    (∀ r ∈ rs, r.replanning ∈ [0, 1, 2]) → Recorded evalDecimals rs := by
  intro h
  have hrec := h [demoRun 0 0, demoRun 90 2] (by simp)
    ⟨fun _ _ h => by cases h; rfl, by decide +kernel⟩ (by decide +kernel)
  have hends := hrec.ends [demoRun 0 0] (demoRun 90 2) [] rfl
  rw [main_eq_none evalDecimals _ (by decide) (by decide)] at hends
  cases hends

end DroneArch.MissionLog
