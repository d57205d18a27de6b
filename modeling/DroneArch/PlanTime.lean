import DroneArch.DecimalText
import DroneArch.MissionLog
import DroneArch.Schedules

/-! # The time of a plan

The log of a mission takes the time of its plan from the file the planner has printed, and the
distance flown is the velocity times this time.  An anytime planner prints each plan it finds, and
actions of a temporal plan may run at the same time.

* `parseFilePlan_lines`: the time that `parse_file_plan` returns is the sum of the durations of all
  actions in the file.
* `logsMakespan_iff`: it is the makespan of the last plan exactly when the durations of the earlier
  plans and the overlap in the last one make up the idle time of the last one. -/

namespace DroneArch.PlanTime

open Schedules

/-! ### The file of the planner -/

/-- A number as planners print it: digits, with a fraction or as a Python integer. -/
structure Number where
  whole : List Char
  fraction : Option (List Char)
  whole_ne_nil : whole ≠ []
  isDigit : ∀ c ∈ whole ++ fraction.getD [], c.isDigit = true
  integer : fraction = none → whole.head? = some '0' → whole = ['0']

namespace Number

/-- The text. -/
def chars (n : Number) : List Char :=
  match n.fraction with
  | none => n.whole
  | some fraction => n.whole ++ '.' :: fraction

/-- The value. -/
def value (n : Number) : ℚ := DecimalText.readUnsigned n.chars

theorem mem_chars {n : Number} {c : Char} (hc : c ∈ n.chars) : c.isDigit = true ∨ c = '.' := by
  have hdigit := n.isDigit
  unfold chars at hc
  cases hf : n.fraction with
  | none =>
      rw [hf] at hc
      exact Or.inl (hdigit c (List.mem_append_left _ hc))
  | some fraction =>
      rw [hf] at hc hdigit
      simp only [List.mem_append, List.mem_cons] at hc
      obtain hw | hpoint | hfr := hc
      · exact Or.inl (hdigit c (List.mem_append_left _ hw))
      · exact Or.inr hpoint
      · exact Or.inl (hdigit c (List.mem_append_right _ hfr))

/-- A character that is neither a digit nor the point is not in the text. -/
theorem not_mem_chars (n : Number) {c : Char} (hdigit : c.isDigit = false) (hpoint : c ≠ '.') : c ∉ n.chars := by
  intro hc
  obtain h | h := mem_chars hc
  · rw [hdigit] at h
    cases h
  · exact hpoint h

theorem all_chars (n : Number) : n.chars.all (fun c => c.isDigit || c = '.') = true := by
  rw [List.all_eq_true]
  intro c hc
  simpa using mem_chars hc

theorem value_nonneg (n : Number) : 0 ≤ n.value := DecimalText.readUnsigned_nonneg n.chars

end Number

/-- Python's `eval` on the texts that end the lines of a plan. -/
structure Python extends MissionLog.Eval ℚ where
  number_chars : ∀ n : Number, number (String.ofList n.chars) = some n.value
  first_chars : ∀ n : Number, first (String.ofList ('[' :: (n.chars ++ [']']))) = some n.value

/-- An action of a plan, `start: (name) [duration]`; the last line of a file may end without a newline. -/
structure Action where
  start : Number
  name : List Char
  gap : ℕ
  duration : Number
  newline : List Char
  uncommented : ';' ∉ name
  newline_eq : newline = [] ∨ newline = ['\n']

/-- The duration in its brackets. -/
def Action.field (a : Action) : List Char := '[' :: (a.duration.chars ++ [']'])

def Action.text (a : Action) : String :=
  String.ofList (a.start.chars ++ [':', ' ', '('] ++ a.name ++ ')' :: List.replicate a.gap ' ' ++
    ' ' :: (a.field ++ a.newline))

/-- The start and the duration. -/
def Action.job (a : Action) : Job ℚ := ⟨a.start.value, a.duration.value, a.duration.value_nonneg⟩

/-- Any other line: not of the form of an action, and with a number at the end of a time line. -/
structure Comment where
  text : String
  noAction : MissionLog.inLine ": (" text = false
  time : MissionLog.inLine "; Time" text = true → ∃ n : Number, MissionLog.lastField text = String.ofList n.chars

inductive Line
  | comment (c : Comment)
  | action (a : Action)

def Line.text : Line → String
  | .comment c => c.text
  | .action a => a.text

/-- The actions of the plan on these lines. -/
def jobs (plan : List Line) : List (Job ℚ) :=
  plan.filterMap (fun l => match l with
    | .comment _ => none
    | .action a => some a.job)

/-! ### One line -/

namespace Action

variable (a : Action)

theorem lastField_text : MissionLog.lastField a.text = String.ofList a.field := by
  have hspace : ' ' ∉ a.field ++ a.newline := by
    have hchars := a.duration.not_mem_chars (c := ' ') rfl (by decide)
    obtain h | h := a.newline_eq
    · simp [h, field, hchars]
    · simp [h, field, hchars]
  have hnewline : ∀ c ∈ a.newline.reverse, c.isWhitespace = true := by
    obtain h | h := a.newline_eq
    · simp [h]
    · simp [h]
  have hrstrip : ((a.field ++ a.newline).reverse.dropWhile Char.isWhitespace).reverse = a.field := by
    rw [List.reverse_append, List.dropWhile_append_of_pos hnewline]
    simp [field]
  unfold MissionLog.lastField text
  rw [String.toList_ofList, List.splitOn_append_cons_self, List.splitOn_eq_singleton hspace,
    List.getLastD_concat, hrstrip]

theorem inLine_text : MissionLog.inLine ": (" a.text = true := by
  unfold MissionLog.inLine text
  rw [String.toList_ofList, decide_eq_true_eq]
  refine ⟨a.start.chars, a.name ++ ')' :: List.replicate a.gap ' ' ++ ' ' :: (a.field ++ a.newline), ?_⟩
  simp

/-- There is no semicolon in the line. -/
theorem not_inLine_text : MissionLog.inLine "; Time" a.text = false := by
  have hsemicolon : ';' ∉ a.text.toList := by
    have hstart := a.start.not_mem_chars (c := ';') rfl (by decide)
    have hduration := a.duration.not_mem_chars (c := ';') rfl (by decide)
    have hname := a.uncommented
    unfold text
    rw [String.toList_ofList]
    obtain h | h := a.newline_eq
    · simp [h, field, hstart, hduration, hname]
    · simp [h, field, hstart, hduration, hname]
  unfold MissionLog.inLine
  rw [decide_eq_false_iff_not]
  intro htime
  exact hsemicolon (htime.subset List.mem_cons_self)

end Action

/-! ### The file -/

/-- What `parse_file_plan` does with one more line. -/
theorem parseFilePlan_concat {ev : MissionLog.Eval ℚ} {lines : List String} {s : ℕ} {c c' : Option ℚ} {t t' : ℚ}
    (h : MissionLog.parseFilePlan ev lines = some (s, c, t)) (line : String)
    (hcpu : (if MissionLog.inLine "; Time" line then (ev.number (MissionLog.lastField line)).map some
      else some c) = some c')
    (htotal : (if MissionLog.inLine ": (" line then (ev.first (MissionLog.lastField line)).map (t + ·)
      else some t) = some t') :
    MissionLog.parseFilePlan ev (lines ++ [line]) =
      some (if MissionLog.inLine "Solution Found" line then 1 else s, c', t') := by
  unfold MissionLog.parseFilePlan at h ⊢
  rw [List.foldlM_append, h]
  simp only [Option.bind_eq_bind, Option.bind_some, List.foldlM_cons, List.foldlM_nil]
  by_cases htime : MissionLog.inLine "; Time" line = true
  · by_cases haction : MissionLog.inLine ": (" line = true
    · rw [if_pos htime] at hcpu ⊢
      rw [if_pos haction] at htotal
      simp only [hcpu, if_pos haction, htotal]
      rfl
    · rw [if_pos htime] at hcpu ⊢
      rw [if_neg haction] at htotal
      simp only [hcpu, if_neg haction, Option.some.inj htotal]
      rfl
  · rw [if_neg htime] at hcpu ⊢
    by_cases haction : MissionLog.inLine ": (" line = true
    · rw [if_pos haction] at htotal
      simp only [Option.some.inj hcpu, if_pos haction, htotal]
      rfl
    · rw [if_neg haction] at htotal
      simp only [Option.some.inj hcpu, if_neg haction, Option.some.inj htotal]
      rfl

section
variable (py : Python)

/-- The total is the sum of the durations on all lines. -/
theorem parseFilePlan_lines (lines : List Line) :
    ∃ s c, MissionLog.parseFilePlan py.toEval (lines.map Line.text) = some (s, c, work (jobs lines)) := by
  induction lines using List.reverseRecOn with
  | nil => exact ⟨0, none, rfl⟩
  | append_singleton lines l ih =>
      obtain ⟨s, c, ih⟩ := ih
      have hjobs : jobs (lines ++ [l]) = jobs lines ++ jobs [l] := List.filterMap_append
      rw [List.map_append, hjobs, work_append]
      cases l with
      | comment m =>
          have htotal : (if MissionLog.inLine ": (" m.text then
              (py.first (MissionLog.lastField m.text)).map (work (jobs lines) + ·)
              else some (work (jobs lines))) = some (work (jobs lines) + work (jobs [Line.comment m])) := by
            rw [m.noAction]
            exact congrArg some (add_zero _).symm
          by_cases htime : MissionLog.inLine "; Time" m.text = true
          · obtain ⟨n, hn⟩ := m.time htime
            refine ⟨_, some n.value, parseFilePlan_concat ih m.text ?_ htotal⟩
            rw [if_pos htime, hn, py.number_chars]
            rfl
          · exact ⟨_, c, parseFilePlan_concat ih m.text (if_neg htime) htotal⟩
      | action a =>
          refine ⟨_, c, parseFilePlan_concat ih a.text ?_ ?_⟩
          · rw [a.not_inLine_text]
            rfl
          · have hduration : work (jobs [Line.action a]) = a.duration.value := List.sum_singleton
            rw [a.inLine_text, if_pos rfl, a.lastField_text, Action.field, py.first_chars, hduration]
            rfl

/-- The time returned for the file with these plans, one after the other, is the makespan of the last. -/
def LogsMakespan (earlier : List (List Line)) (last : List Line) : Prop :=
  ∃ sucsses cpuTime, MissionLog.parseFilePlan py.toEval ((earlier.flatten ++ last).map Line.text) =
    some (sucsses, cpuTime, makespan (jobs last))

/-- **The time of a plan.**  For every file of plans found one after the other, the time returned is the
makespan of the last plan exactly when the durations in the earlier plans, together with the time for which
actions of the last plan run before the end of one listed in front of them, are the time for which nothing
runs in the last plan.  The numbers are exact, where Python adds binary floating point numbers. -/
theorem logsMakespan_iff (earlier : List (List Line)) (last : List Line) :
    LogsMakespan py earlier last ↔
      (earlier.map (fun plan => work (jobs plan))).sum + overlap 0 (jobs last) = idle 0 (jobs last) := by
  have hwork : work (jobs (earlier.flatten ++ last)) =
      (earlier.map (fun plan => work (jobs plan))).sum + work (jobs last) := by
    have hjobs : jobs (earlier.flatten ++ last) = (earlier.map jobs).flatten ++ jobs last := by
      unfold jobs
      rw [List.filterMap_append, List.filterMap_flatten]
    rw [hjobs, work_append, work_flatten, List.map_map]
    rfl
  obtain ⟨s, c, hparse⟩ := parseFilePlan_lines py (earlier.flatten ++ last)
  rw [← add_work_eq_makespan_iff, ← hwork]
  unfold LogsMakespan
  rw [hparse]
  constructor
  · rintro ⟨_, _, h⟩
    exact congrArg (fun p => p.2.2) (Option.some.inj h)
  · intro h
    exact ⟨s, c, by rw [h]⟩

end

section demo

/-- Python's `eval` of the numbers that planners print, and of lists of one of them. -/
def decimals : Python where
  toEval := MissionLog.evalDecimals
  number_chars n := by
    simp only [MissionLog.evalDecimals, String.toList_ofList, n.all_chars, if_true]
    rfl
  first_chars n := by
    simp only [MissionLog.evalDecimals, String.toList_ofList, List.dropLast_concat, n.all_chars, if_true]
    rfl

theorem isDigit_seconds (n : ℕ) : ∀ c ∈ Nat.toDigits 10 n ++ ['0', '0', '0'], c.isDigit = true := by
  intro c hc
  obtain h | h := List.mem_append.mp hc
  · exact DecimalText.isDigit_toDigits n c h
  · simp only [List.mem_cons, List.not_mem_nil, or_false, or_self] at h
    rw [h]
    rfl

/-- A number of seconds with three decimals. -/
def seconds (n : ℕ) : Number where
  whole := Nat.toDigits 10 n
  fraction := some ['0', '0', '0']
  whole_ne_nil := Nat.toDigits_ne_nil
  isDigit := isDigit_seconds n
  integer h := absurd h (Option.some_ne_none _)

/-- A plan with the header that the planner prints and one action. -/
def goTo (n : ℕ) : List Line :=
  [.comment ⟨";;;; Solution Found\n", by decide +kernel, fun h => absurd h (by decide +kernel)⟩,
    .action ⟨seconds 0, "go_to rover1 base_1 base_2".toList, 1, seconds n, ['\n'], by decide +kernel, Or.inr rfl⟩]

/-- A route of 400 seconds, and an improved one of 300 seconds. -/
theorem logsMakespan_improved : ¬ LogsMakespan decimals [goTo 400] (goTo 300) := by
  rintro ⟨s', c', h⟩
  obtain ⟨s, c, hparse⟩ := parseFilePlan_lines decimals ([goTo 400].flatten ++ goTo 300)
  rw [hparse] at h
  have htotal : work (jobs ([goTo 400].flatten ++ goTo 300)) = makespan (jobs (goTo 300)) :=
    congrArg (fun p => p.2.2) (Option.some.inj h)
  revert htotal
  decide +kernel

end demo

end DroneArch.PlanTime
