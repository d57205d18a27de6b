import Mathlib.Algebra.BigOperators.Group.List.Basic
import Mathlib.Algebra.Order.Ring.Defs
import Mathlib.Tactic.Linarith
import Mathlib.Tactic.Ring

/-! # Schedules

A schedule is a list of jobs; each begins at a time and lasts for a time.

* `work_add_idle`: the durations and the idle time between the jobs add up to the time of the last end
  and the time in which jobs overlap. -/

namespace Schedules

variable {K : Type*} [CommRing K] [LinearOrder K]

variable (K) in
/-- A job. -/
structure Job where
  begins : K
  lasts : K
  nonneg : 0 ≤ lasts

/-- When the job ends. -/
def Job.ends (j : Job K) : K := j.begins + j.lasts

/-- The latest end, and at least `e`. -/
def latest (e : K) (jobs : List (Job K)) : K := (jobs.map Job.ends).foldl max e

/-- The time from 0 to the latest end. -/
def makespan (jobs : List (Job K)) : K := latest 0 jobs

/-- The durations of all jobs. -/
def work (jobs : List (Job K)) : K := (jobs.map Job.lasts).sum

/-- How long the jobs run before the latest end of those in front of them, which is `e` for the first. -/
def overlap (e : K) : List (Job K) → K
  | [] => 0
  | j :: jobs => max 0 (min (e - j.begins) j.lasts) + overlap (max e j.ends) jobs

/-- How long nothing runs after the latest end of the jobs in front. -/
def idle (e : K) : List (Job K) → K
  | [] => 0
  | j :: jobs => max 0 (j.begins - e) + idle (max e j.ends) jobs

theorem work_append (jobs jobs' : List (Job K)) : work (jobs ++ jobs') = work jobs + work jobs' := by
  rw [work, List.map_append, List.sum_append]
  rfl

theorem work_flatten (schedules : List (List (Job K))) : work schedules.flatten = (schedules.map work).sum := by
  induction schedules with
  | nil => rfl
  | cons jobs schedules ih => rw [List.flatten_cons, work_append, ih, List.map_cons, List.sum_cons]

variable [IsStrictOrderedRing K]

/-- One job: it begins after `e`, or ends before it, or runs past it. -/
theorem ends_add (e : K) (j : Job K) :
    e + j.lasts + max 0 (j.begins - e) = max e j.ends + max 0 (min (e - j.begins) j.lasts) := by
  have hlasts := j.nonneg
  unfold Job.ends
  by_cases hafter : e ≤ j.begins
  · have hshort : min (e - j.begins) j.lasts ≤ 0 := (min_le_left _ _).trans (by linarith)
    rw [max_eq_right (by linarith), max_eq_right (by linarith), max_eq_left hshort]
    ring
  · have hbefore := le_of_not_ge hafter
    rw [max_eq_left (by linarith)]
    by_cases hinside : j.lasts ≤ e - j.begins
    · rw [min_eq_right hinside, max_eq_right hlasts, max_eq_left (by linarith)]
      ring
    · have hpast := le_of_not_ge hinside
      rw [min_eq_left hpast, max_eq_right (by linarith), max_eq_right (by linarith)]
      ring

/-- The balance of a schedule, when `e` has passed before its first job. -/
theorem work_add_idle (e : K) (jobs : List (Job K)) :
    e + work jobs + idle e jobs = latest e jobs + overlap e jobs := by
  induction jobs generalizing e with
  | nil => simp [work, idle, latest, overlap]
  | cons j jobs ih =>
      have hone := ends_add e j
      have hrest := ih (max e j.ends)
      have hwork : work (j :: jobs) = j.lasts + work jobs := List.sum_cons
      have hlatest : latest e (j :: jobs) = latest (max e j.ends) jobs := rfl
      rw [hwork, hlatest, idle, overlap]
      linarith

/-- The durations are the makespan exactly when the jobs overlap as long as nothing runs. -/
theorem add_work_eq_makespan_iff (t : K) (jobs : List (Job K)) :
    t + work jobs = makespan jobs ↔ t + overlap 0 jobs = idle 0 jobs := by
  have hbalance := work_add_idle 0 jobs
  unfold makespan
  constructor
  · intro h
    linarith
  · intro h
    linarith

end Schedules
