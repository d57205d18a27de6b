import Mathlib.Data.List.Basic
import Mathlib.Data.List.Forall2
import Mathlib.Data.List.Infix
import Mathlib.Data.Nat.Basic
import Mathlib.Order.Lattice

/-! # Slices and traversals of lists

* `flatten_slices`: the slices between increasing indices make up one slice.
* `infix_append_cons`: words between separators.
* `exists_mapM_iff`, `mem_of_mapM`: when a traversal in `Option` succeeds, and where its results
  come from.
* `forall₂_zipIdx_concat`: lists that grow at the end, element by element with its number.
* `foldl_select_head_mem`: a loop that keeps one of the elements seen.
* `foldl_last_of_mem`: a loop that keeps the last element with a key.
* `FirstMin`: the first element at which a measure is smallest, as a list grows at the end. -/

namespace Lists

variable {α : Type*}

/-! ### Slices -/

/-- The elements at the indices `i ≤ x < j`. -/
def slice (l : List α) (i j : ℕ) : List α := (l.drop i).take (j - i)

theorem slice_append (l : List α) {i j k : ℕ} (hij : i ≤ j) (hjk : j ≤ k) :
    slice l i j ++ slice l j k = slice l i k := by
  unfold slice
  have hk : k - i = (j - i) + (k - j) := by omega
  have hj : i + (j - i) = j := by omega
  rw [hk, List.take_add, List.drop_drop, hj]

@[simp] theorem slice_self (l : List α) (i : ℕ) : slice l i i = [] := by
  rw [slice, Nat.sub_self, List.take_zero]

theorem slice_length (l : List α) {i j : ℕ} (hj : j ≤ l.length) : (slice l i j).length = j - i := by
  rw [slice, List.length_take, List.length_drop]
  omega

/-- Slices between consecutive indices make up one slice. -/
theorem flatten_slices (l : List α) (f : ℕ → ℕ) (n : ℕ) (h : ∀ m < n, f m ≤ f (m + 1)) :
    ((List.range n).map (fun m => slice l (f m) (f (m + 1)))).flatten = slice l (f 0) (f n) ∧ f 0 ≤ f n := by
  induction n with
  | zero => exact ⟨(slice_self l (f 0)).symm, le_rfl⟩
  | succ n ih =>
      obtain ⟨hflat, hle⟩ := ih (fun m hm => h m (by omega))
      have hlast := h n (by omega)
      constructor
      · rw [List.range_succ, List.map_append, List.flatten_append, hflat, List.map_singleton,
          List.flatten_singleton, slice_append l hle hlast]
      · omega

/-- Copying a range of indices gives the slice. -/
theorem mapM_range'_getElem? (l : List α) (i n : ℕ) (h : i + n ≤ l.length) :
    (List.range' i n).mapM (fun x => l[x]?) = some (slice l i (i + n)) := by
  induction n generalizing i with
  | zero => rw [Nat.add_zero, slice_self]; rfl
  | succ n ih =>
      have hi : i < l.length := by omega
      have hn : i + 1 + n - (i + 1) = n := by omega
      have hn' : i + (n + 1) - i = n + 1 := by omega
      have hrest := ih (i + 1) (by omega)
      rw [slice, hn] at hrest
      rw [List.range'_succ, List.mapM_cons, List.getElem?_eq_getElem hi, hrest, slice, hn',
        List.drop_eq_getElem_cons hi]
      rfl

/-! ### Infixes -/

/-- An infix does not cross an element that it does not have. -/
theorem infix_append_cons {w : List α} {c : α} (hc : c ∉ w) (a b : List α) :
    w <:+: a ++ c :: b ↔ w <:+: a ∨ w <:+: b := by
  have hstart : ∀ a, w <+: a ++ c :: b → w <+: a := by
    intro a h
    rcases List.prefix_or_prefix_of_prefix h (List.prefix_append a (c :: b)) with hw | ⟨u, rfl⟩
    · exact hw
    · rw [List.prefix_append_right_inj] at h
      cases u with
      | nil => rw [List.append_nil]
      | cons d u =>
          obtain ⟨rfl, _⟩ := List.cons_prefix_cons.mp h
          exact absurd (List.mem_append_right a List.mem_cons_self) hc
  induction a with
  | nil =>
      rw [List.nil_append, List.infix_cons_iff]
      constructor
      · rintro (h | h)
        · exact .inl (hstart [] h).isInfix
        · exact .inr h
      · rintro (h | h)
        · rw [List.infix_nil.mp h]
          exact .inl List.nil_prefix
        · exact .inr h
  | cons x a ih =>
      have hfirst : w <+: x :: (a ++ c :: b) ↔ w <+: x :: a :=
        ⟨hstart (x :: a), fun h => h.trans (List.prefix_append (x :: a) (c :: b))⟩
      rw [List.cons_append, List.infix_cons_iff, List.infix_cons_iff, hfirst, or_assoc]
      exact or_congr_right ih

/-- Splitting looks at the elements of the list only. -/
theorem splitOnP_congr {p q : α → Bool} {l : List α} (h : ∀ x ∈ l, p x = q x) : l.splitOnP p = l.splitOnP q := by
  induction l with
  | nil => rw [List.splitOnP_nil, List.splitOnP_nil]
  | cons x l ih =>
      rw [List.forall_mem_cons] at h
      rw [List.splitOnP_cons_eq_if_modifyHead, List.splitOnP_cons_eq_if_modifyHead, h.1, ih h.2]

theorem mem_of_mem_intercalate {sep : List α} {ls : List (List α)} {x : α} (h : x ∈ sep.intercalate ls) :
    x ∈ sep ∨ ∃ l ∈ ls, x ∈ l := by
  induction ls with
  | nil => cases h
  | cons l ls ih =>
      cases ls with
      | nil =>
          rw [List.intercalate_singleton] at h
          exact .inr ⟨l, List.mem_cons_self, h⟩
      | cons l' ls =>
          rw [List.intercalate_cons_cons, List.mem_append, List.mem_append] at h
          obtain (h | h) | h := h
          · exact .inr ⟨l, List.mem_cons_self, h⟩
          · exact .inl h
          · exact (ih h).imp_right (fun ⟨k, hk, hx⟩ => ⟨k, List.mem_cons_of_mem l hk, hx⟩)

/-! ### Traversals -/

theorem mapM_eq_some_map {β : Type*} {f : α → Option β} {g : α → β} {l : List α}
    (h : ∀ x ∈ l, f x = some (g x)) : l.mapM f = some (l.map g) := by
  induction l with
  | nil => rfl
  | cons x l ih =>
      rw [List.mapM_cons, h x List.mem_cons_self, ih (fun y hy => h y (List.mem_cons_of_mem x hy))]
      rfl

/-- A traversal that undoes a map. -/
theorem mapM_map_eq_some {β : Type*} {f : β → Option α} {g : α → β} {l : List α} (h : ∀ x ∈ l, f (g x) = some x) :
    (l.map g).mapM f = some l := by
  induction l with
  | nil => rfl
  | cons x l ih =>
      rw [List.forall_mem_cons] at h
      rw [List.map_cons, List.mapM_cons, h.1, ih h.2]
      rfl

theorem mapM_cons_eq_some {β : Type*} {f : α → Option β} {x : α} {l : List α} {ys : List β} :
    (x :: l).mapM f = some ys ↔ ∃ y ys', f x = some y ∧ l.mapM f = some ys' ∧ ys = y :: ys' := by
  rw [List.mapM_cons]
  cases f x with
  | none => simp
  | some y =>
      cases l.mapM f with
      | none => simp
      | some ys' => simp [eq_comm]

/-- The elements and the results of a traversal, one by one. -/
theorem forall₂_of_mapM {β : Type*} {f : α → Option β} {l : List α} {ys : List β} (h : l.mapM f = some ys) :
    List.Forall₂ (fun x y => f x = some y) l ys := by
  induction l generalizing ys with
  | nil =>
      cases h
      exact .nil
  | cons x l ih =>
      obtain ⟨y, ys', hx, hl, rfl⟩ := mapM_cons_eq_some.mp h
      exact .cons hx (ih hl)

theorem length_of_mapM {β : Type*} {f : α → Option β} {l : List α} {ys : List β} (h : l.mapM f = some ys) :
    ys.length = l.length := (forall₂_of_mapM h).length_eq.symm

/-- What a traversal keeps of each element. -/
theorem map_of_mapM {β γ : Type*} {f : α → Option β} {g : β → γ} {k : α → γ} (hf : ∀ x y, f x = some y → g y = k x)
    {l : List α} {ys : List β} (h : l.mapM f = some ys) : ys.map g = l.map k := by
  induction l generalizing ys with
  | nil =>
      cases h
      rfl
  | cons x l ih =>
      obtain ⟨y, ys', hx, hl, rfl⟩ := mapM_cons_eq_some.mp h
      rw [List.map_cons, List.map_cons, ih hl, hf x y hx]

/-- Where the results of a traversal come from. -/
theorem mem_of_mapM {β : Type*} {f : α → Option β} {l : List α} {ys : List β} (h : l.mapM f = some ys) :
    ∀ y ∈ ys, ∃ x ∈ l, f x = some y := by
  induction l generalizing ys with
  | nil =>
      cases h
      simp
  | cons x l ih =>
      obtain ⟨y, ys', hx, hl, rfl⟩ := mapM_cons_eq_some.mp h
      intro z hz
      cases List.mem_cons.mp hz with
      | inl heq => exact ⟨x, List.mem_cons_self, heq ▸ hx⟩
      | inr hmem =>
          obtain ⟨x', hx', hf⟩ := ih hl z hmem
          exact ⟨x', List.mem_cons_of_mem x hx', hf⟩

/-- Every element has a result. -/
theorem exists_mem_of_mapM {β : Type*} {f : α → Option β} {l : List α} {ys : List β} (h : l.mapM f = some ys) :
    ∀ x ∈ l, ∃ y ∈ ys, f x = some y := by
  induction l generalizing ys with
  | nil => simp
  | cons x l ih =>
      obtain ⟨y, ys', hx, hl, rfl⟩ := mapM_cons_eq_some.mp h
      rw [List.forall_mem_cons]
      refine ⟨⟨y, List.mem_cons_self, hx⟩, fun x' hx' => ?_⟩
      obtain ⟨y', hy', hf⟩ := ih hl x' hx'
      exact ⟨y', List.mem_cons_of_mem y hy', hf⟩

/-- A traversal succeeds exactly when each element does. -/
theorem exists_mapM_iff {β : Type*} {f : α → Option β} {l : List α} :
    (∃ ys, l.mapM f = some ys) ↔ ∀ x ∈ l, ∃ y, f x = some y := by
  induction l with
  | nil => simp
  | cons x l ih =>
      rw [List.forall_mem_cons, ← ih]
      constructor
      · rintro ⟨ys, h⟩
        obtain ⟨y, ys', hx, hl, _⟩ := mapM_cons_eq_some.mp h
        exact ⟨⟨y, hx⟩, ys', hl⟩
      · rintro ⟨⟨y, hx⟩, ys', hl⟩
        exact ⟨y :: ys', mapM_cons_eq_some.mpr ⟨y, ys', hx, hl, rfl⟩⟩

/-- A fold whose steps succeed on some members, whatever was accumulated, succeeds on lists of these. -/
theorem exists_foldlM_iff {β : Type*} {f : β → α → Option β} {p : α → Prop} (h : ∀ b a, (∃ b', f b a = some b') ↔ p a)
    {l : List α} {b : β} : (∃ r, l.foldlM f b = some r) ↔ ∀ a ∈ l, p a := by
  induction l generalizing b with
  | nil => exact iff_of_true ⟨b, rfl⟩ (List.forall_mem_nil p)
  | cons a l ih =>
      rw [List.foldlM_cons, List.forall_mem_cons, ← h b a]
      constructor
      · rintro ⟨r, hr⟩
        obtain ⟨b', hb, hl⟩ := Option.bind_eq_some_iff.mp hr
        exact ⟨⟨b', hb⟩, ih.mp ⟨r, hl⟩⟩
      · rintro ⟨⟨b', hb⟩, hl⟩
        obtain ⟨r, hr⟩ := ih (b := b').mpr hl
        exact ⟨r, Option.bind_eq_some_iff.mpr ⟨b', hb, hr⟩⟩

/-- Filtering for one element keeps at most one. -/
theorem filter_eq_of_nodup [DecidableEq α] {l : List α} (h : l.Nodup) (a : α) :
    l.filter (fun b => decide (b = a)) = if a ∈ l then [a] else [] := by
  induction l with
  | nil => rfl
  | cons b l ih =>
      rw [List.nodup_cons] at h
      by_cases hb : b = a
      · subst hb
        rw [List.filter_cons_of_pos (by simp), ih h.2, if_neg h.1, if_pos List.mem_cons_self]
      · rw [List.filter_cons_of_neg (by simpa using hb), ih h.2]
        have hmem : a ∈ b :: l ↔ a ∈ l := by
          rw [List.mem_cons]
          exact or_iff_right (fun h => hb h.symm)
        simp only [hmem]

/-! ### Numbered lists -/

/-- A relation to the elements and their numbers, read at the last element. -/
theorem forall₂_zipIdx_concat {β : Type*} {R : α → ℕ → β → Prop} {l : List α} {a : α} {l' : List β} :
    List.Forall₂ (fun (p : α × ℕ) b => R p.1 p.2 b) (l ++ [a]).zipIdx l' ↔
      ∃ l₀ b, l' = l₀ ++ [b] ∧ List.Forall₂ (fun (p : α × ℕ) b => R p.1 p.2 b) l.zipIdx l₀ ∧ R a l.length b := by
  rw [List.zipIdx_append, Nat.zero_add, List.zipIdx_singleton, ← List.forall₂_reverse_iff, List.reverse_append,
    List.reverse_singleton, List.singleton_append, List.forall₂_cons_left_iff]
  constructor
  · rintro ⟨b, l₀, hb, hl, hrev⟩
    refine ⟨l₀.reverse, b, ?_, ?_, hb⟩
    · rw [← List.reverse_reverse l', hrev, List.reverse_cons]
    · rw [← List.forall₂_reverse_iff, List.reverse_reverse]
      exact hl
  · rintro ⟨l₀, b, rfl, hl, hb⟩
    refine ⟨b, l₀.reverse, hb, List.forall₂_reverse_iff.mpr hl, ?_⟩
    rw [List.reverse_append, List.reverse_singleton, List.singleton_append]

/-- Counting down from the element before the last one. -/
theorem map_getD_range' {l : List α} (h : l ≠ []) (d : α) :
    (List.range' 1 (l.length - 1)).map (fun w => l.getD (l.length - 1 - w) d) = l.dropLast.reverse := by
  have hpos : 0 < l.length := List.length_pos_iff.mpr h
  refine List.ext_getElem (by simp) (fun i h1 h2 => ?_)
  have hi : i < l.length - 1 := by simpa using h1
  simp only [List.getElem_map, List.getElem_range', List.getElem_reverse, List.getElem_dropLast,
    List.length_dropLast]
  rw [List.getD_eq_getElem?_getD, List.getElem?_eq_getElem (by omega), Option.getD_some]
  congr 1
  omega

/-! ### Selections -/

/-- A loop that keeps one of the elements seen ends with the first one or an element. -/
theorem foldl_select_mem (r : α → α → Prop) [∀ a b, Decidable (r a b)] (l : List α) (a : α) :
    l.foldl (fun best b => if r b best then b else best) a ∈ a :: l := by
  induction l generalizing a with
  | nil => exact List.mem_cons_self
  | cons b l ih =>
      rw [List.foldl_cons]
      split
      · exact List.mem_cons_of_mem a (ih b)
      · rcases List.mem_cons.mp (ih a) with h | h
        · rw [h]
          exact List.mem_cons_self
        · exact List.mem_cons_of_mem a (List.mem_cons_of_mem b h)

section
variable {β κ : Type*} [DecidableEq κ] {key : α → κ} {f : α → β} {k : κ}

/-- A loop that keeps the last match keeps its start when the key is absent. -/
theorem foldl_last_of_notMem {l : List α} (h : k ∉ l.map key) (b : β) :
    l.foldl (fun found a => if key a = k then f a else found) b = b := by
  induction l generalizing b with
  | nil => rfl
  | cons a l ih =>
      rw [List.map_cons, List.mem_cons, not_or] at h
      rw [List.foldl_cons, if_neg (Ne.symm h.1)]
      exact ih h.2 b

/-- With each key once, it ends with the match. -/
theorem foldl_last_of_mem {l : List α} (hnodup : (l.map key).Nodup) {a : α} (ha : a ∈ l) (b : β) :
    l.foldl (fun found a' => if key a' = key a then f a' else found) b = f a := by
  induction l generalizing b with
  | nil => cases ha
  | cons a' l ih =>
      rw [List.map_cons, List.nodup_cons] at hnodup
      rw [List.foldl_cons]
      obtain rfl | ha := List.mem_cons.mp ha
      · rw [if_pos rfl]
        exact foldl_last_of_notMem hnodup.1 _
      · exact ih hnodup.2 ha _

end

/-- From the first element of a list, it ends with an element. -/
theorem foldl_select_head_mem (r : α → α → Prop) [∀ a b, Decidable (r a b)] {l : List α} (h : l ≠ []) :
    l.foldl (fun best b => if r b best then b else best) (l.head h) ∈ l := by
  rcases List.mem_cons.mp (foldl_select_mem r l (l.head h)) with heq | hmem
  · rw [heq]
    exact List.head_mem h
  · exact hmem

/-! ### First minima -/

section
variable {K : Type*} [LinearOrder K]

/-- `p` is the first element of `l` at which `d` is smallest. -/
def FirstMin (d : α → K) (l : List α) (p : α) : Prop :=
  ∃ l₁ l₂, l = l₁ ++ p :: l₂ ∧ (∀ q ∈ l₁, d p < d q) ∧ ∀ q ∈ l₂, d p ≤ d q

theorem FirstMin.mem {d : α → K} {l : List α} {p : α} (h : FirstMin d l p) : p ∈ l := by
  obtain ⟨l₁, l₂, rfl, -, -⟩ := h
  simp

theorem FirstMin.le {d : α → K} {l : List α} {p q : α} (h : FirstMin d l p) (hq : q ∈ l) : d p ≤ d q := by
  obtain ⟨l₁, l₂, rfl, hlt, hle⟩ := h
  rw [List.mem_append, List.mem_cons] at hq
  obtain hq | rfl | hq := hq
  · exact (hlt q hq).le
  · exact le_rfl
  · exact hle q hq

theorem firstMin_singleton (d : α → K) (p : α) : FirstMin d [p] p :=
  ⟨[], [], rfl, by simp, by simp⟩

theorem FirstMin.concat_of_le {d : α → K} {l : List α} {p q : α} (h : FirstMin d l p) (hle : d p ≤ d q) :
    FirstMin d (l ++ [q]) p := by
  obtain ⟨l₁, l₂, rfl, hlt, hrest⟩ := h
  refine ⟨l₁, l₂ ++ [q], by simp, hlt, ?_⟩
  intro q' hq'
  rw [List.mem_append, List.mem_singleton] at hq'
  obtain hq' | rfl := hq'
  · exact hrest q' hq'
  · exact hle

theorem FirstMin.concat_of_lt {d : α → K} {l : List α} {p q : α} (h : FirstMin d l p) (hlt : d q < d p) :
    FirstMin d (l ++ [q]) q :=
  ⟨l, [], rfl, fun _ hq' => hlt.trans_le (h.le hq'), by simp⟩

/-- There is one first minimum. -/
theorem FirstMin.unique {d : α → K} {l : List α} {p q : α} (hp : FirstMin d l p) (hq : FirstMin d l q) :
    p = q := by
  have hpq : d p ≤ d q := hp.le hq.mem
  have hqp : d q ≤ d p := hq.le hp.mem
  obtain ⟨l₁, l₂, rfl, hlt, -⟩ := hp
  obtain ⟨l₁', l₂', heq, hlt', -⟩ := hq
  rw [List.append_eq_append_iff] at heq
  obtain ⟨l₃, rfl, htail⟩ | ⟨l₃, rfl, htail⟩ := heq
  · cases l₃ with
    | nil => exact (List.cons.inj htail).1
    | cons a l₃ =>
        obtain ⟨rfl, -⟩ := List.cons.inj htail
        exact absurd (hlt' p (by simp)) hpq.not_gt
  · cases l₃ with
    | nil => exact (List.cons.inj htail).1.symm
    | cons a l₃ =>
        obtain ⟨rfl, -⟩ := List.cons.inj htail
        exact absurd (hlt q (by simp)) hqp.not_gt

/-- The first minimum has `P` exactly when an element with `P` comes before all those without. -/
theorem FirstMin.iff_exists {d : α → K} {l : List α} {m : α} (h : FirstMin d l m) {P : α → Prop} :
    P m ↔ ∃ l₁ q l₂, l = l₁ ++ q :: l₂ ∧ P q ∧ (∀ p ∈ l₁, ¬ P p → d q < d p) ∧ ∀ p ∈ l₂, ¬ P p → d q ≤ d p := by
  constructor
  · intro hm
    obtain ⟨l₁, l₂, hl, hlt, hle⟩ := h
    exact ⟨l₁, m, l₂, hl, hm, fun p hp _ => hlt p hp, fun p hp _ => hle p hp⟩
  · rintro ⟨l₁, q, l₂, hl, hq, hlt, hle⟩
    by_contra hm
    have hmq : d m ≤ d q := h.le (by simp [hl])
    have hleft : m ∉ l₁ := fun hmem => absurd (hlt m hmem hm) hmq.not_gt
    have hmem : m ∈ l₂ := by
      have hml : m ∈ l₁ ++ q :: l₂ := hl ▸ h.mem
      simp only [List.mem_append, List.mem_cons] at hml
      obtain hml | rfl | hml := hml
      · exact absurd hml hleft
      · exact absurd hq hm
      · exact hml
    have hqm : d q ≤ d m := hle m hmem hm
    obtain ⟨k₁, k₂, hk, hklt, -⟩ := h
    rw [hl, List.append_eq_append_iff] at hk
    -- both are smallest, so neither stands before the other
    obtain ⟨l₃, rfl, htail⟩ | ⟨l₃, rfl, htail⟩ := hk
    · cases l₃ with
      | nil => exact hm ((List.cons.inj htail).1 ▸ hq)
      | cons a l₃ =>
          obtain ⟨rfl, -⟩ := List.cons.inj htail
          exact absurd (hklt q (by simp)) hqm.not_gt
    · cases l₃ with
      | nil => exact hm ((List.cons.inj htail).1 ▸ hq)
      | cons a l₃ =>
          obtain ⟨rfl, -⟩ := List.cons.inj htail
          exact hleft (by simp)

end

end Lists
