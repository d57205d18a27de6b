import Mathlib.Algebra.Order.Archimedean.Real.Basic
import Mathlib.Algebra.Order.Floor.Ring
import Mathlib.Algebra.Order.Floor.Semiring
import Mathlib.Data.Stream.Init
import DroneArch.Numerals

/-! # Programs that draw random numbers

A program reads its random numbers from a tape of values of `random()`, one after the other.
A statement about every tape is a statement about every sequence of random choices.  `none` is an
exception.

* `run_bind_eq_some`: a sequence of two programs returns when both do, on one tape.
* `Yields`: what holds of every result, with a rule for each way to draw and to combine.
* `CanYield`: the results that some sequence of random choices leads to. -/

namespace RandomChoices

noncomputable section

/-- A value of `random()`. -/
abbrev Draw := Set.Ico (0 : ℝ) 1

abbrev Tape := Stream' Draw

abbrev Drawing := StateT Tape Option

/-! ### The draws -/

/-- `random.random()`. -/
def random : Drawing ℝ := fun ω => some (ω.head, ω.tail)

/-- `random.uniform(a, b)`. -/
def uniform (a b : ℝ) : Drawing ℝ := do
  let u ← random
  return a + (b - a) * u

/-- `random.randint(a, b)`: an integer of `a, …, b`, which must not be empty. -/
def randint (a b : ℤ) : Drawing ℤ :=
  if b < a then failure
  else do
    let u ← random
    return a + ⌊u * (b - a + 1)⌋

/-- A result that may be an exception. -/
def attempt {α : Type} (x : Option α) : Drawing α := fun ω => x.map (fun a => (a, ω))

/-- `random.choice(seq)`: an element of the list, which must not be empty. -/
def choice {α : Type} (seq : List α) : Drawing α := do
  let u ← random
  attempt seq[⌊u * seq.length⌋₊]?

end

/-! ### Rules -/

variable {α β : Type}

theorem run_bind_eq_some {m : Drawing α} {f : α → Drawing β} {ω : Tape} {r : β × Tape} :
    (m >>= f).run ω = some r ↔ ∃ a ω', m.run ω = some (a, ω') ∧ (f a).run ω' = some r := by
  rw [StateT.run_bind, Option.bind_eq_bind, Option.bind_eq_some_iff]
  exact ⟨fun ⟨⟨a, ω'⟩, h⟩ => ⟨a, ω', h⟩, fun ⟨a, ω', h⟩ => ⟨(a, ω'), h⟩⟩

theorem run_pure_eq_some {a b : α} {ω ω' : Tape} :
    (pure a : Drawing α).run ω = some (b, ω') ↔ a = b ∧ ω = ω' := by
  rw [StateT.run_pure, Option.pure_def, Option.some.injEq, Prod.mk.injEq]

theorem run_attempt_eq_some {x : Option α} {a : α} {ω ω' : Tape} :
    (attempt x).run ω = some (a, ω') ↔ x = some a ∧ ω = ω' := by
  cases x with
  | none => exact ⟨fun h => (nomatch h), fun h => (nomatch h.1)⟩
  | some b => exact (Option.some_inj.trans Prod.mk_inj).trans (and_congr_left fun _ => Option.some_inj.symm)

theorem run'_eq_some {m : Drawing α} {ω : Tape} {a : α} : m.run' ω = some a ↔ ∃ ω', m.run ω = some (a, ω') := by
  unfold StateT.run'
  rw [Option.map_eq_map, Option.map_eq_some_iff]
  exact ⟨fun ⟨⟨_, ω'⟩, h, ha⟩ => ⟨ω', ha ▸ h⟩, fun ⟨ω', h⟩ => ⟨(a, ω'), h, rfl⟩⟩

theorem run_choice_eq_some {seq : List α} {a : α} {ω ω' : Tape} :
    (choice seq).run ω = some (a, ω') ↔ seq[⌊(ω.head : ℝ) * seq.length⌋₊]? = some a ∧ ω.tail = ω' := by
  unfold choice
  rw [run_bind_eq_some]
  constructor
  · rintro ⟨u, ω₁, hu, h⟩
    cases hu
    exact run_attempt_eq_some.mp h
  · intro h
    exact ⟨_, _, rfl, run_attempt_eq_some.mpr h⟩

/-- From two lists of related elements, one tape chooses related elements. -/
theorem choice_forall₂ {R : α → β → Prop} {seq : List α} {seq' : List β} (h : List.Forall₂ R seq seq') {a : α}
    {ω ω' : Tape} (hrun : (choice seq).run ω = some (a, ω')) :
    ∃ b, (choice seq').run ω = some (b, ω') ∧ R a b := by
  obtain ⟨hget, rfl⟩ := run_choice_eq_some.mp hrun
  obtain ⟨hlt, rfl⟩ := List.getElem?_eq_some_iff.mp hget
  have hlen := h.length_eq
  have hlt' : ⌊(ω.head : ℝ) * seq.length⌋₊ < seq'.length := hlen ▸ hlt
  refine ⟨seq'[⌊(ω.head : ℝ) * seq.length⌋₊], run_choice_eq_some.mpr ⟨?_, rfl⟩, h.get hlt hlt'⟩
  rw [← hlen, List.getElem?_eq_getElem hlt']

/-! ### What a program yields -/

/-- Every result satisfies `P`. -/
def Yields (m : Drawing α) (P : α → Prop) : Prop := ∀ ω a ω', m.run ω = some (a, ω') → P a

section yields
variable {m : Drawing α} {f : α → Drawing β} {P P' : α → Prop} {Q : β → Prop}

theorem Yields.mono (h : Yields m P) (hP : ∀ a, P a → P' a) : Yields m P' := fun ω a ω' hrun => hP a (h ω a ω' hrun)

theorem Yields.and (h : Yields m P) (h' : Yields m P') : Yields m (fun a => P a ∧ P' a) :=
  fun ω a ω' hrun => ⟨h ω a ω' hrun, h' ω a ω' hrun⟩

theorem yields_pure {a : α} (h : P a) : Yields (pure a) P := by
  intro ω b ω' hrun
  obtain ⟨rfl, _⟩ := run_pure_eq_some.mp hrun
  exact h

theorem Yields.bind (hm : Yields m P) (hf : ∀ a, P a → Yields (f a) Q) : Yields (m >>= f) Q := by
  intro ω b ω' hrun
  obtain ⟨a, ω₁, ha, hb⟩ := run_bind_eq_some.mp hrun
  exact hf a (hm ω a ω₁ ha) ω₁ b ω' hb

/-- Where nothing is needed of the first result. -/
theorem yields_bind (hf : ∀ a, Yields (f a) Q) : Yields (m >>= f) Q :=
  Yields.bind (P := fun _ => True) (fun _ _ _ _ => trivial) fun a _ => hf a

theorem yields_attempt {x : Option α} (h : ∀ a, x = some a → P a) : Yields (attempt x) P :=
  fun _ a _ hrun => h a (run_attempt_eq_some.mp hrun).1

theorem yields_random : Yields random (fun u => 0 ≤ u ∧ u < 1) := by
  rintro ω _ _ ⟨⟩
  exact ω.head.2

/-- The value is between the ends, in whichever order they are. -/
theorem yields_uniform_uIcc (a b : ℝ) : Yields (uniform a b) (fun x => x ∈ Set.uIcc a b) := by
  refine yields_random.bind fun u hu => yields_pure ?_
  rw [Set.mem_uIcc]
  rcases le_total a b with h | h
  · have hlow : 0 ≤ (b - a) * u := mul_nonneg (sub_nonneg.mpr h) hu.1
    have hhigh : (b - a) * u ≤ b - a := mul_le_of_le_one_right (sub_nonneg.mpr h) hu.2.le
    exact Or.inl ⟨by linarith, by linarith⟩
  · have hlow : 0 ≤ (a - b) * u := mul_nonneg (sub_nonneg.mpr h) hu.1
    have hhigh : (a - b) * u ≤ a - b := mul_le_of_le_one_right (sub_nonneg.mpr h) hu.2.le
    exact Or.inr ⟨by linarith, by linarith⟩

theorem yields_randint (a b : ℤ) : Yields (randint a b) (fun n => a ≤ n ∧ n ≤ b) := by
  unfold randint
  split
  · intro ω n ω' hrun
    cases hrun
  · next hle =>
      refine yields_random.bind fun u hu => yields_pure ?_
      have hab : (a : ℝ) ≤ b := by exact_mod_cast not_lt.mp hle
      have hlow : 0 ≤ ⌊u * (b - a + 1)⌋ := Int.floor_nonneg.mpr (mul_nonneg hu.1 (by linarith))
      have hhigh : ⌊u * (b - a + 1)⌋ < b - a + 1 := by
        rw [Int.floor_lt]
        push_cast
        exact mul_lt_of_lt_one_left (by linarith) hu.2
      constructor <;> omega

theorem yields_choice (seq : List α) : Yields (choice seq) (fun a => a ∈ seq) :=
  yields_bind fun _ => yields_attempt fun _ h => List.mem_of_getElem? h

/-- A traversal yields one result for each element. -/
theorem yields_mapM {g : α → Drawing β} {R : α → β → Prop} {l : List α} (h : ∀ x ∈ l, Yields (g x) (R x)) :
    Yields (l.mapM g) (List.Forall₂ R l) := by
  induction l with
  | nil => exact yields_pure .nil
  | cons x l ih =>
      rw [List.forall_mem_cons] at h
      rw [List.mapM_cons]
      exact h.1.bind fun y hy => (ih h.2).bind fun ys hys => yields_pure (.cons hy hys)

theorem yields_mapM_forall {g : α → Drawing β} {l : List α} (h : ∀ x ∈ l, Yields (g x) Q) :
    Yields (l.mapM g) (fun ys => ys.length = l.length ∧ ∀ y ∈ ys, Q y) := by
  refine (yields_mapM (R := fun _ => Q) h).mono fun ys hys => ⟨hys.length_eq.symm, ?_⟩
  induction hys with
  | nil => simp
  | cons hxy _ ih =>
      rw [List.forall_mem_cons] at h ⊢
      exact ⟨hxy, ih h.2⟩

/-- A loop keeps an invariant that may count its passes. -/
theorem yields_foldlM {g : β → α → Drawing β} {I : ℕ → β → Prop} {l : List α} {b : β} (h : I 0 b)
    (hstep : ∀ n b, I n b → ∀ a ∈ l, Yields (g b a) (I (n + 1))) : Yields (l.foldlM g b) (I l.length) := by
  induction l generalizing b I with
  | nil => exact yields_pure h
  | cons a l ih =>
      rw [List.foldlM_cons]
      refine (hstep 0 b h a List.mem_cons_self).bind fun b' hb' => ?_
      exact ih (I := fun n => I (n + 1)) hb' fun n b hb a' ha' => hstep (n + 1) b hb a' (List.mem_cons_of_mem a ha')

/-- A loop that appends some of the values yields a sublist of them. -/
theorem yields_foldlM_append {get : α → Option β} {l : List α} {values : List β}
    (h : l.map get = values.map some) (acc : List β) :
    Yields (l.foldlM (fun acc i => do
      if (← random) < 1 / 2 then return acc ++ [← attempt (get i)] else return acc) acc)
      (fun r => ∃ added, List.Sublist added values ∧ r = acc ++ added) := by
  induction l generalizing values acc with
  | nil => exact yields_pure ⟨[], List.nil_sublist _, (List.append_nil acc).symm⟩
  | cons i l ih =>
      cases values with
      | nil => cases h
      | cons b values =>
          rw [List.map_cons, List.map_cons, List.cons.injEq] at h
          obtain ⟨hget, hrest⟩ := h
          rw [List.foldlM_cons]
          refine (yields_bind fun u => ?_ : Yields _ fun acc' => acc' = acc ++ [b] ∨ acc' = acc).bind fun acc' hacc' => ?_
          · split
            · refine (yields_attempt fun b' hb' => ?_ : Yields _ fun b' => b' = b).bind fun b' hb' => ?_
              · exact Option.some.inj (hb'.symm.trans hget)
              · exact yields_pure (Or.inl (by rw [hb']))
            · exact yields_pure (Or.inr rfl)
          · refine (ih hrest acc').mono ?_
            rintro r ⟨added, hsub, rfl⟩
            rcases hacc' with rfl | rfl
            · exact ⟨b :: added, hsub.cons_cons b, by rw [List.append_assoc, List.singleton_append]⟩
            · exact ⟨added, hsub.cons b, rfl⟩

end yields

/-! ### A given tape -/

@[simp] theorem run_random_cons (u : Draw) (ω : Tape) : random.run (Stream'.cons u ω) = some (u.1, ω) := rfl

@[simp] theorem run_uniform_cons (a b : ℝ) (u : Draw) (ω : Tape) :
    (uniform a b).run (Stream'.cons u ω) = some (a + (b - a) * u.1, ω) := rfl

theorem run_randint_cons {a b : ℤ} (h : a ≤ b) (u : Draw) (ω : Tape) :
    (randint a b).run (Stream'.cons u ω) = some (a + ⌊u.1 * (b - a + 1)⌋, ω) := by
  unfold randint
  rw [if_neg (not_lt.mpr h), StateT.run_bind, run_random_cons]
  rfl

/-! ### What a program can yield -/

/-- Some draws lead to the result, whatever the tape goes on with. -/
def CanYield (m : Drawing α) (a : α) : Prop := ∃ us : List Draw, ∀ ω, m.run (us ++ₛ ω) = some (a, ω)

theorem canYield_pure (a : α) : CanYield (pure a) a := ⟨[], fun _ => rfl⟩

theorem CanYield.bind {m : Drawing α} {f : α → Drawing β} {a : α} {b : β} (hm : CanYield m a) (hf : CanYield (f a) b) :
    CanYield (m >>= f) b := by
  obtain ⟨us, hus⟩ := hm
  obtain ⟨vs, hvs⟩ := hf
  refine ⟨us ++ vs, fun ω => ?_⟩
  rw [Stream'.append_append_stream]
  exact run_bind_eq_some.mpr ⟨a, vs ++ₛ ω, hus _, hvs ω⟩

theorem canYield_random (u : Draw) : CanYield random u := ⟨[u], fun _ => rfl⟩

theorem canYield_attempt {x : Option α} {a : α} (h : x = some a) : CanYield (attempt x) a :=
  ⟨[], fun _ => run_attempt_eq_some.mpr ⟨h, rfl⟩⟩

theorem canYield_uniform (a b : ℝ) (u : Draw) : CanYield (uniform a b) (a + (b - a) * u) := ⟨[u], fun _ => rfl⟩

theorem canYield_randint {a b n : ℤ} (ha : a ≤ n) (hb : n ≤ b) : CanYield (randint a b) n := by
  have hwidth : (0 : ℝ) < b - a + 1 := by
    have hab : (a : ℝ) ≤ b := by exact_mod_cast ha.trans hb
    linarith
  have hlow : (0 : ℝ) ≤ n - a := by
    have han : (a : ℝ) ≤ n := by exact_mod_cast ha
    linarith
  have hhigh : (n : ℝ) - a < b - a + 1 := by
    have hnb : (n : ℝ) ≤ b := by exact_mod_cast hb
    linarith
  refine ⟨[⟨(n - a) / (b - a + 1), div_nonneg hlow hwidth.le, (div_lt_one hwidth).mpr hhigh⟩], fun ω => ?_⟩
  rw [Stream'.cons_append_stream, Stream'.nil_append_stream, run_randint_cons (ha.trans hb),
    div_mul_cancel₀ _ hwidth.ne', ← Int.cast_sub, Int.floor_intCast, add_sub_cancel]

/-- A draw comes as close to the end of a range as one likes. -/
theorem exists_draw_lt {a b c : ℝ} (h : c < a + b) : ∃ u : Draw, c < a + b * u := by
  rcases le_or_gt b 0 with hb | hb
  · refine ⟨⟨0, le_rfl, one_pos⟩, ?_⟩
    dsimp only
    linarith
  · have hgap : 0 < (a + b - c) / (2 * b) := div_pos (by linarith) (by linarith)
    refine ⟨⟨max 0 (1 - (a + b - c) / (2 * b)), le_max_left _ _, max_lt one_pos (by linarith)⟩, ?_⟩
    have hle : b * (1 - (a + b - c) / (2 * b)) ≤ b * max 0 (1 - (a + b - c) / (2 * b)) :=
      mul_le_mul_of_nonneg_left (le_max_right _ _) hb.le
    have heq : b * (1 - (a + b - c) / (2 * b)) = b - (a + b - c) / 2 := by
      field_simp
    dsimp only
    linarith

/-- A traversal can yield what its calls can. -/
theorem canYield_mapM {g : α → Drawing β} {f : α → β} {l : List α} (h : ∀ x ∈ l, CanYield (g x) (f x)) :
    CanYield (l.mapM g) (l.map f) := by
  induction l with
  | nil => exact canYield_pure []
  | cons x l ih =>
      rw [List.forall_mem_cons] at h
      rw [List.mapM_cons]
      exact h.1.bind ((ih h.2).bind (canYield_pure _))

/-- A loop that appends some of the values can yield every sublist of them. -/
theorem canYield_foldlM_append {get : α → Option β} {l : List α} {values added : List β}
    (h : l.map get = values.map some) (hadded : List.Sublist added values) (acc : List β) :
    CanYield (l.foldlM (fun acc i => do
      if (← random) < 1 / 2 then return acc ++ [← attempt (get i)] else return acc) acc) (acc ++ added) := by
  induction hadded generalizing l acc with
  | slnil =>
      rw [List.map_nil, List.map_eq_nil_iff] at h
      rw [h, List.append_nil]
      exact canYield_pure acc
  | cons b _ ih =>
      cases l with
      | nil => cases h
      | cons i l =>
          rw [List.map_cons, List.map_cons, List.cons.injEq] at h
          rw [List.foldlM_cons]
          refine CanYield.bind ((canYield_random ⟨1 / 2, by norm_num, by norm_num⟩).bind ?_) (ih h.2 acc)
          rw [if_neg (lt_irrefl _)]
          exact canYield_pure acc
  | @cons_cons added _ b _ ih =>
      cases l with
      | nil => cases h
      | cons i l =>
          rw [List.map_cons, List.map_cons, List.cons.injEq] at h
          have hrest := ih h.2 (acc ++ [b])
          rw [List.append_assoc, List.singleton_append] at hrest
          rw [List.foldlM_cons]
          refine CanYield.bind ((canYield_random ⟨0, le_rfl, one_pos⟩).bind ?_) hrest
          rw [if_pos (by norm_num)]
          exact (canYield_attempt h.1).bind (canYield_pure _)

end RandomChoices
