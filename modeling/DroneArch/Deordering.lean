import Mathlib.Data.List.Infix
import Mathlib.Data.List.Nodup
import Mathlib.Data.List.Perm.Basic
import Mathlib.Logic.Relation

/-! # Reordering the events of a plan

An event sets some atoms to true or to false: `write e p = some v`.  `exec write s es` is the state after the events
`es`.  An event `b` may need an atom to have a value just before it (`reads b p v`), and a pair of events `s`, `e` may
need it in every state between the two (`spans s e p v`).

A relation `R` on the events of a list `es` is `Justified` when it orders

* two events that write different values to one atom,
* the latest event before a reader that writes the value read, and the reader,
* a reader and the later events that write the other value.

A list of events `Follows` the relation when no event comes before one that `R` puts before it.  When every need is met
along `es`, it is met along every part of `es` that follows `R` (`reads_of_follows`, `spans_of_follows`), and the events
of `es` lead to the same state in every order that follows `R` (`exec_of_follows`). -/

namespace Deordering

open scoped List

variable {E A : Type*}

/-! ### Pairs in a list -/

theorem pair_sublist_iff {a b : E} {l : List E} : [a, b] <+ l ↔ ∃ l₁ l₂, l = l₁ ++ a :: l₂ ∧ b ∈ l₂ := by
  constructor
  · intro h
    induction l with
    | nil => cases h
    | cons x l ih =>
        cases h with
        | cons _ h =>
            obtain ⟨l₁, l₂, rfl, hb⟩ := ih h
            exact ⟨x :: l₁, l₂, rfl, hb⟩
        | cons_cons _ h => exact ⟨[], l, rfl, List.singleton_sublist.mp h⟩
  · rintro ⟨l₁, l₂, rfl, hb⟩
    exact (List.Sublist.cons_cons a (List.singleton_sublist.mpr hb)).trans (List.sublist_append_right _ _)

theorem exists_split_of_pair {a b : E} {l : List E} (h : [a, b] <+ l) : ∃ l₁ l₂, l = l₁ ++ b :: l₂ ∧ a ∈ l₁ := by
  obtain ⟨l₁, l₂, rfl, hb⟩ := pair_sublist_iff.mp h
  obtain ⟨m₁, m₂, rfl⟩ := List.append_of_mem hb
  exact ⟨l₁ ++ a :: m₁, m₂, by simp, by simp⟩

theorem pair_left_mem {a b : E} {l : List E} (h : [a, b] <+ l) : a ∈ l := h.subset (by simp)

theorem pair_right_mem {a b : E} {l : List E} (h : [a, b] <+ l) : b ∈ l := h.subset (by simp)

theorem pair_append {a b : E} {l r : List E} (ha : a ∈ l) (hb : b ∈ r) : [a, b] <+ l ++ r :=
  (List.singleton_sublist.mpr ha).append (List.singleton_sublist.mpr hb)

theorem pair_concat_iff {a b c : E} {l : List E} : [a, b] <+ l ++ [c] ↔ [a, b] <+ l ∨ (a ∈ l ∧ b = c) := by
  constructor
  · intro h
    obtain ⟨x, y, hxy, hx, hy⟩ := List.sublist_append_iff.mp h
    rcases List.sublist_singleton.mp hy with rfl | rfl
    · rw [List.append_nil] at hxy
      exact Or.inl (hxy ▸ hx)
    · have hcons : [a] ++ [b] = x ++ [c] := hxy
      obtain ⟨rfl, hbc⟩ := List.append_inj' hcons rfl
      exact Or.inr ⟨List.singleton_sublist.mp hx, by simpa using hbc⟩
  · rintro (h | ⟨ha, rfl⟩)
    · exact h.trans (List.sublist_append_left _ _)
    · exact pair_append ha (by simp)

/-- An event that another one precedes does not precede it. -/
theorem not_pair_swap {a b : E} {l : List E} (hl : l.Nodup) (h : [a, b] <+ l) : ¬ [b, a] <+ l := by
  intro hba
  obtain ⟨l₁, l₂, rfl, hb⟩ := pair_sublist_iff.mp h
  obtain ⟨ha₂, -⟩ := List.nodup_cons.mp (List.nodup_append.mp hl).2.1
  rcases List.sublist_append_iff.mp hba with ⟨x, y, hxy, hx, hy⟩
  have hdisj := List.disjoint_of_nodup_append hl
  match x, y, hxy with
  | [], [c, d], hxy =>
      obtain ⟨rfl, rfl⟩ : b = c ∧ a = d := by simpa using hxy
      cases hy with
      | cons _ hy => exact ha₂ (pair_right_mem hy)
      | cons_cons _ hy => exact ha₂ hb
  | [c], [d], hxy =>
      obtain ⟨rfl, rfl⟩ : b = c ∧ a = d := by simpa using hxy
      exact hdisj (hx.subset (by simp)) (List.mem_cons_of_mem _ hb)
  | [c, d], [], hxy =>
      obtain ⟨rfl, rfl⟩ : b = c ∧ a = d := by simpa using hxy
      exact hdisj (hx.subset (by simp)) (List.mem_cons_of_mem _ hb)

/-- A pair whose second event is in a prefix lies in the prefix. -/
theorem pair_of_append {a b : E} {l r : List E} (hl : (l ++ r).Nodup) (h : [a, b] <+ l ++ r) (hb : b ∈ l) :
    [a, b] <+ l := by
  obtain ⟨l₁, l₂, rfl⟩ := List.append_of_mem hb
  have hab : a ∈ l₁ := by
    by_contra ha
    have hmem := pair_left_mem h
    rw [List.append_assoc, List.cons_append] at h hl hmem
    rcases List.mem_append.mp hmem with hin | hin
    · exact ha hin
    · rcases List.mem_cons.mp hin with rfl | hin
      · exact (not_pair_swap hl h) h
      · exact not_pair_swap hl h (pair_sublist_iff.mpr ⟨l₁, _, rfl, hin⟩)
  exact pair_append hab (by simp)

theorem pair_trans {a b c : E} {l : List E} (hl : l.Nodup) (hab : [a, b] <+ l) (hbc : [b, c] <+ l) : [a, c] <+ l := by
  obtain ⟨l₁, l₂, rfl, hc⟩ := pair_sublist_iff.mp hbc
  rw [List.append_cons] at hl hab ⊢
  exact pair_append (pair_left_mem (pair_of_append hl hab (by simp))) hc

section
variable (write : E → A → Option Bool)

/-! ### Execution -/

/-- The state after one event. -/
def apply (s : A → Bool) (e : E) : A → Bool := fun p => (write e p).getD (s p)

/-- The state after a list of events. -/
def exec (s : A → Bool) (es : List E) : A → Bool := es.foldl (apply write) s

/-- The last event of `es` that sets `p` to `v`. -/
def Latest (es : List E) (p : A) (v : Bool) (a : E) : Prop :=
  write a p = some v ∧ ∃ l r, es = l ++ a :: r ∧ ∀ d ∈ r, write d p ≠ some v

variable {write}

@[simp] theorem exec_nil (s : A → Bool) : exec write s [] = s := rfl

theorem exec_append (s : A → Bool) (es es' : List E) : exec write s (es ++ es') = exec write (exec write s es) es' :=
  List.foldl_append

theorem exec_concat (s : A → Bool) (es : List E) (e : E) (p : A) :
    exec write s (es ++ [e]) p = (write e p).getD (exec write s es p) := by
  rw [exec_append]
  rfl

/-- An atom has the value of the last event that writes it, else the initial one. -/
theorem exec_cases (s : A → Bool) (es : List E) (p : A) :
    (∃ l a r, es = l ++ a :: r ∧ write a p = some (exec write s es p) ∧ ∀ d ∈ r, write d p = none) ∨
      (exec write s es p = s p ∧ ∀ d ∈ es, write d p = none) := by
  induction es using List.reverseRecOn with
  | nil => exact Or.inr ⟨rfl, by simp⟩
  | append_singleton es e ih =>
      rw [exec_concat]
      cases hw : write e p with
      | some v => exact Or.inl ⟨es, e, [], rfl, hw, by simp⟩
      | none =>
          rw [Option.getD_none]
          rcases ih with ⟨l, a, r, rfl, ha, hr⟩ | ⟨heq, hall⟩
          · refine Or.inl ⟨l, a, r ++ [e], by simp, ha, ?_⟩
            simp only [List.forall_mem_append, List.forall_mem_singleton]
            exact ⟨hr, hw⟩
          · refine Or.inr ⟨heq, ?_⟩
            simp only [List.forall_mem_append, List.forall_mem_singleton]
            exact ⟨hall, hw⟩

theorem Latest.mem {es : List E} {p : A} {v : Bool} {a : E} (h : Latest write es p v a) : a ∈ es := by
  obtain ⟨-, l, r, rfl, -⟩ := h
  simp

/-- After an event that writes the other value, a later one restored the value. -/
theorem exists_restored {s : A → Bool} {es : List E} {p : A} {v : Bool} {d : E} (hv : exec write s es p = v)
    (hd : d ∈ es) (hw : write d p = some (!v)) : ∃ a, Latest write es p v a ∧ [d, a] <+ es := by
  rcases exec_cases s es p with ⟨l, a, r, rfl, ha, hr⟩ | ⟨-, hall⟩
  · rw [hv] at ha
    refine ⟨a, ⟨ha, l, r, rfl, fun e he => by rw [hr e he]; simp⟩, ?_⟩
    rcases List.mem_append.mp hd with hin | hin
    · exact pair_append hin (by simp)
    · rcases List.mem_cons.mp hin with rfl | hin
      · simp [ha] at hw
      · simp [hr d hin] at hw
  · simp [hall d hd] at hw

/-- An atom that does not have its initial value was written. -/
theorem exists_written {s : A → Bool} {es : List E} {p : A} {v : Bool} (hv : exec write s es p = v)
    (hs : s p ≠ v) : ∃ a, Latest write es p v a := by
  rcases exec_cases s es p with ⟨l, a, r, rfl, ha, hr⟩ | ⟨heq, -⟩
  · rw [hv] at ha
    exact ⟨a, ha, l, r, rfl, fun e he => by rw [hr e he]; simp⟩
  · exact absurd (heq.symm.trans hv) hs

/-- An atom has a value when every event that writes the other one is followed by one that writes it, and some event
writes it when it does not have the value at first. -/
theorem exec_eq {s : A → Bool} {es : List E} {p : A} {v : Bool} (hes : es.Nodup)
    (hd : ∀ d ∈ es, write d p = some (!v) → ∃ a, write a p = some v ∧ [d, a] <+ es)
    (hs : s p ≠ v → ∃ a ∈ es, write a p = some v) : exec write s es p = v := by
  rcases exec_cases s es p with ⟨l, a, r, rfl, ha, hr⟩ | ⟨heq, hall⟩
  · by_contra hne
    rw [show exec write s (l ++ a :: r) p = !v from Bool.eq_not_of_ne hne] at ha
    obtain ⟨b, hb, hab⟩ := hd a (by simp) ha
    have hbr : b ∈ r := by
      have hmem := pair_right_mem hab
      rcases List.mem_append.mp hmem with hin | hin
      · exact absurd hab (not_pair_swap hes (pair_append hin (by simp)))
      · rcases List.mem_cons.mp hin with rfl | hin
        · exact absurd hab (not_pair_swap hes hab)
        · exact hin
    simp [hr b hbr] at hb
  · by_contra hne
    obtain ⟨a, ha, hw⟩ := hs (heq ▸ hne)
    simp [hall a ha] at hw

/-! ### The relation -/

variable (write) in
/-- `R` orders what must stay in the order of `es`. -/
structure Justified (reads : E → A → Bool → Prop) (spans : E → E → A → Bool → Prop) (R : E → E → Prop)
    (es : List E) : Prop where
  conflict : ∀ a b p v, [a, b] <+ es → write a p = some v → write b p = some (!v) → R a b
  support : ∀ l b r p v a, es = l ++ b :: r → reads b p v → Latest write l p v a → R a b
  guard : ∀ b d p v, [b, d] <+ es → reads b p v → write d p = some (!v) → R b d
  spanSupport : ∀ l s r e p v a, es = l ++ s :: r → spans s e p v → Latest write l p v a → R a s
  spanGuard : ∀ s e d p v, [e, d] <+ es → spans s e p v → write d p = some (!v) → R e d

variable (write) in
/-- Along `es` every need is met. -/
structure Valid (reads : E → A → Bool → Prop) (spans : E → E → A → Bool → Prop) (s₀ : A → Bool) (es : List E) :
    Prop where
  reads : ∀ l b r p v, es = l ++ b :: r → reads b p v → exec write s₀ l p = v
  spans : ∀ l s m e r p v, es = l ++ s :: (m ++ e :: r) → spans s e p v →
    ∀ m₁, m₁ <+: m → exec write s₀ (l ++ s :: m₁) p = v

/-- No event of `es` comes before one that `R` puts before it, and none of these is missing. -/
def Follows (R : E → E → Prop) (es : List E) : Prop := ∀ a b, R a b → b ∈ es → [a, b] <+ es

theorem Follows.of_append {R : E → E → Prop} {es es' : List E} (h : Follows R (es ++ es')) (hes : (es ++ es').Nodup) :
    Follows R es :=
  fun a b hab hb => pair_of_append hes (h a b hab (List.mem_append_left _ hb)) hb

/-- One more event, whose predecessors are there. -/
theorem Follows.concat {R : E → E → Prop} {es : List E} (h : Follows R es) {e : E} (he : ∀ a, R a e → a ∈ es) :
    Follows R (es ++ [e]) := by
  intro a b hab hb
  rcases List.mem_append.mp hb with hb | hb
  · exact (h a b hab hb).trans (List.sublist_append_left _ _)
  · obtain rfl := List.mem_singleton.mp hb
    exact pair_append (he a hab) hb

theorem Follows.transGen {R : E → E → Prop} {es : List E} (h : Follows R es) (hes : es.Nodup) :
    Follows (Relation.TransGen R) es := by
  intro a b hab
  induction hab with
  | single hab => exact h a _ hab
  | tail _ hbc ih =>
      intro hc
      have hpair := h _ _ hbc hc
      exact pair_trans hes (ih (pair_left_mem hpair)) hpair

variable {reads : E → A → Bool → Prop} {spans : E → E → A → Bool → Prop} {R : E → E → Prop} {s₀ : A → Bool}
  {es done : List E}

/-- **What an event reads.**  An event that may come next finds the values it reads. -/
theorem reads_of_follows (hes : es.Nodup) (hR : Justified write reads spans R es) (hv : Valid write reads spans s₀ es)
    {b : E} (hsub : ∀ e ∈ done ++ [b], e ∈ es) (hdone : (done ++ [b]).Nodup) (hfollow : Follows R (done ++ [b]))
    {p : A} {v : Bool} (hb : reads b p v) : exec write s₀ done p = v := by
  have hbes : b ∈ es := hsub b (by simp)
  have hbdone : b ∉ done := fun h => List.disjoint_of_nodup_append hdone h (by simp)
  obtain ⟨l, r, rfl⟩ := List.append_of_mem hbes
  have hl := hv.reads l b r p v rfl hb
  -- an event that supports `b` is done
  have hsup : ∀ a, Latest write l p v a → a ∈ done := by
    intro a ha
    have hpair := hfollow a b (hR.support l b r p v a rfl hb ha) (by simp)
    rcases List.mem_append.mp (pair_left_mem hpair) with h | h
    · exact h
    · rw [List.mem_singleton.mp h] at hpair
      exact absurd hpair (not_pair_swap hdone hpair)
  refine exec_eq (List.nodup_append.mp hdone).1 ?_ ?_
  · intro d hd hw
    rcases List.mem_append.mp (hsub d (List.mem_append_left _ hd)) with hin | hin
    · obtain ⟨a, ha, hda⟩ := exists_restored hl hin hw
      have hin' := hsup a ha
      have hRda := hR.conflict d a p (!v) (hda.trans (List.sublist_append_left _ _)) hw (by simpa using ha.1)
      exact ⟨a, ha.1, pair_of_append hdone (hfollow d a hRda (List.mem_append_left _ hin')) hin'⟩
    · rcases List.mem_cons.mp hin with rfl | hin
      · exact absurd hd hbdone
      · -- a later event that destroys the value waits for `b`
        have hRbd := hR.guard b d p v (pair_sublist_iff.mpr ⟨l, r, rfl, hin⟩) hb hw
        have hpair := hfollow b d hRbd (List.mem_append_left _ hd)
        exact absurd (pair_left_mem (pair_of_append hdone hpair hd)) hbdone
  · intro hs
    obtain ⟨a, ha⟩ := exists_written hl hs
    exact ⟨a, hsup a ha, ha.1⟩

/-- **What a pair of events needs in between.**  It holds while the first event is done and the second is not. -/
theorem spans_of_follows (hes : es.Nodup) (hR : Justified write reads spans R es) (hv : Valid write reads spans s₀ es)
    (hsub : ∀ e ∈ done, e ∈ es) (hdone : done.Nodup) (hfollow : Follows R done) {s e : E} (hse : [s, e] <+ es)
    (hs : s ∈ done) (he : e ∉ done) {p : A} {v : Bool} (hspan : spans s e p v) : exec write s₀ done p = v := by
  obtain ⟨l, r', rfl, her⟩ := pair_sublist_iff.mp hse
  obtain ⟨m, r, rfl⟩ := List.append_of_mem her
  have hat : ∀ m₁, m₁ <+: m → exec write s₀ (l ++ s :: m₁) p = v := hv.spans l s m e r p v rfl hspan
  have hfirst : exec write s₀ (l ++ [s]) p = v := hat [] List.nil_prefix
  -- the event that provides the value at `s` is done
  have hsup : ∀ a, Latest write (l ++ [s]) p v a → a ∈ done := by
    rintro a ⟨ha, l₁, r₁, heq, hr₁⟩
    rcases List.eq_nil_or_concat r₁ with rfl | ⟨r₂, c, rfl⟩
    · obtain ⟨-, hsa⟩ := List.append_inj' heq rfl
      rw [← List.singleton_inj.mp hsa]
      exact hs
    · rw [List.concat_eq_append, ← List.cons_append, ← List.append_assoc] at heq
      obtain ⟨rfl, hsc⟩ := List.append_inj' heq rfl
      refine pair_left_mem (hfollow a s (hR.spanSupport _ s _ e p v a rfl hspan ⟨ha, l₁, r₂, rfl, ?_⟩) hs)
      exact fun d hd => hr₁ d (by simp [hd])
  refine exec_eq hdone ?_ ?_
  · intro d hd hw
    have hdes := hsub d hd
    rw [← List.singleton_append, ← List.append_assoc, List.mem_append] at hdes
    rcases hdes with hin | hin
    · obtain ⟨a, ha, hda⟩ := exists_restored hfirst hin hw
      have hin' := hsup a ha
      have hRda := hR.conflict d a p (!v) (hda.trans (by simp)) hw (by simpa using ha.1)
      exact ⟨a, ha.1, hfollow d a hRda hin'⟩
    · rcases List.mem_append.mp hin with hin | hin
      · -- destroyed in between: not along `es`
        obtain ⟨m₁, m₂, rfl⟩ := List.append_of_mem hin
        have hafter := hat (m₁ ++ [d]) ⟨m₂, by simp⟩
        rw [← List.cons_append, ← List.append_assoc, exec_concat, hw] at hafter
        simp at hafter
      · rcases List.mem_cons.mp hin with rfl | hin
        · exact absurd hd he
        · have hpair : [e, d] <+ l ++ s :: (m ++ e :: r) := by
            refine List.Sublist.trans ?_ (List.sublist_append_right _ _)
            exact ((pair_sublist_iff.mpr ⟨m, r, rfl, hin⟩).trans (List.sublist_cons_self _ _))
          exact absurd (pair_left_mem (hfollow e d (hR.spanGuard s e d p v hpair hspan hw) hd)) he
  · intro hne
    obtain ⟨a, ha⟩ := exists_written hfirst hne
    exact ⟨a, hsup a ha, ha.1⟩

/-- **The final state.**  All events in an order that follows `R` lead to the state that `es` leads to. -/
theorem exec_of_follows (hes : es.Nodup) (hR : Justified write reads spans R es) (hperm : done.Perm es)
    (hfollow : Follows R done) : exec write s₀ done = exec write s₀ es := by
  funext p
  refine exec_eq (hperm.nodup_iff.mpr hes) ?_ ?_
  · intro d hd hw
    obtain ⟨a, ha, hda⟩ := exists_restored rfl (hperm.mem_iff.mp hd) hw
    have hRda := hR.conflict d a p _ hda hw (by simpa using ha.1)
    exact ⟨a, ha.1, hfollow d a hRda (hperm.mem_iff.mpr ha.mem)⟩
  · intro hne
    obtain ⟨a, ha⟩ := exists_written rfl hne
    exact ⟨a, hperm.mem_iff.mpr ha.mem, ha.1⟩

end

end Deordering
