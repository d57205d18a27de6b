import Mathlib.Data.Finset.Max
import DroneArch.EvenOdd

/-! # Simple polygons

A simple polygon has at least three different vertices, and two of its edges have no point in
common but their ends.  Its interior reaches up to its highest vertices: just below the top
there is a height with an odd number of edges to the right (`exists_interior_near_top`). -/

namespace Planar

section
variable {K : Type*} [Field K] [LinearOrder K]

/-- The two edges have only ends in common. -/
def ShareOnlyEnds (e f : Point K × Point K) : Prop :=
  ∀ w, OnSegment w e.1 e.2 → OnSegment w f.1 f.2 → (w = e.1 ∨ w = e.2) ∧ (w = f.1 ∨ w = f.2)

/-- Two segments whose points meet at ends only share only ends. -/
theorem shareOnlyEnds_of_lerp {a b c d : Point K} (h : ∀ s t, 0 ≤ s → s ≤ 1 → 0 ≤ t → t ≤ 1 →
    lerp a b s = lerp c d t → (s = 0 ∨ s = 1) ∧ (t = 0 ∨ t = 1)) : ShareOnlyEnds (a, b) (c, d) := by
  rintro w ⟨s, hs0, hs1, rfl⟩ ⟨t, ht0, ht1, hst⟩
  obtain ⟨hs, ht⟩ := h s t hs0 hs1 ht0 ht1 hst
  constructor
  · rcases hs with rfl | rfl <;> simp
  · rw [hst]
    rcases ht with rfl | rfl <;> simp

theorem ShareOnlyEnds.symm {e f : Point K × Point K} (h : ShareOnlyEnds e f) : ShareOnlyEnds f e :=
  fun w hf he => (h w he hf).symm

/-- Two sides of a triangle that is not flat. -/
theorem shareOnlyEnds_of_det {a b c : Point K} (h : det a b c ≠ 0) : ShareOnlyEnds (a, b) (b, c) := by
  refine shareOnlyEnds_of_lerp fun s t _ _ _ _ hst => ⟨Or.inr ?_, Or.inl ?_⟩
  · have hzero : (1 - s) * det a b c = 0 := by
      have hcross : det b c (lerp a b s) = 0 := hst ▸ det_lerp_self b c t
      simp only [det, lerp_x, lerp_y] at hcross ⊢
      linear_combination hcross
    exact (sub_eq_zero.mp ((mul_eq_zero.mp hzero).resolve_right h)).symm
  · have hzero : t * det a b c = 0 := by
      have hcross : det a b (lerp b c t) = 0 := hst ▸ det_lerp_self a b s
      simp only [det, lerp_x, lerp_y] at hcross ⊢
      linear_combination hcross
    exact (mul_eq_zero.mp hzero).resolve_right h

end

/-- A simple polygon. -/
structure SimplePolygon (K : Type*) [Field K] [LinearOrder K] where
  vertices : List (Point K)
  three_le : 3 ≤ vertices.length
  nodup : vertices.Nodup
  simple : (edges vertices).Pairwise ShareOnlyEnds

/-! ### The edges of a closed polygon -/

section
variable {α : Type*}

theorem edges_cons (v : α) (t : List α) : edges (v :: t) = (v :: t).zip (t ++ [v]) := by
  rw [edges, List.rotate_cons_succ, List.rotate_zero]

theorem edges_triangle (a b c : α) : edges [a, b, c] = [(a, b), (b, c), (c, a)] := rfl

/-- A triangle that is not flat is simple. -/
theorem simple_triangle {K : Type*} [Field K] [LinearOrder K] {a b c : Point K} (h : det a b c ≠ 0) :
    (edges [a, b, c]).Pairwise ShareOnlyEnds := by
  have hbca : det b c a ≠ 0 := by rwa [det_rotate]
  have hcab : det c a b ≠ 0 := by rwa [det_rotate, det_rotate]
  rw [edges_triangle]
  simp only [List.pairwise_cons, List.mem_cons, List.not_mem_nil, or_false, forall_eq_or_imp, forall_eq,
    List.Pairwise.nil, false_imp_iff, implies_true, and_true]
  exact ⟨⟨shareOnlyEnds_of_det h, (shareOnlyEnds_of_det hcab).symm⟩, shareOnlyEnds_of_det hbca⟩

theorem edges_quadrangle (a b c d : α) : edges [a, b, c, d] = [(a, b), (b, c), (c, d), (d, a)] := rfl

theorem mem_of_mem_edges {vs : List α} {e : α × α} (h : e ∈ edges vs) : e.1 ∈ vs ∧ e.2 ∈ vs := by
  obtain ⟨h1, h2⟩ := List.of_mem_zip (show (e.1, e.2) ∈ vs.zip (vs.rotate 1) from h)
  exact ⟨h1, List.mem_rotate.mp h2⟩

/-- A mark that is the same at both ends of every edge is the same everywhere. -/
theorem eq_of_forall_edges {s : α → Bool} {vs : List α} (h : ∀ e ∈ edges vs, s e.1 = s e.2) {a b : α}
    (ha : a ∈ vs) (hb : b ∈ vs) : s a = s b := by
  have key : ∀ (t : List α) (v w : α), (∀ e ∈ (v :: t).zip (t ++ [w]), s e.1 = s e.2) → ∀ c ∈ v :: t, s c = s v := by
    intro t
    induction t with
    | nil =>
        intro v w _ c hc
        rw [List.mem_singleton.mp hc]
    | cons d t ih =>
        intro v w hz c hc
        have hvd : s v = s d := hz (v, d) List.mem_cons_self
        rcases List.mem_cons.mp hc with rfl | hc
        · rfl
        · rw [hvd]
          exact ih d w (fun e he => hz e (List.mem_cons_of_mem _ he)) c hc
  cases vs with
  | nil => cases ha
  | cons v t =>
      rw [edges_cons] at h
      rw [key t v v h a ha, key t v v h b hb]

/-- The edges on which a mark changes are even in number, and there are two if it is not the
same everywhere. -/
theorem two_le_countP_changes {s : α → Bool} {vs : List α} {a b : α} (ha : a ∈ vs) (hb : b ∈ vs)
    (hs : s a ≠ s b) : 2 ≤ (edges vs).countP (fun e => s e.1 ^^ s e.2) := by
  have heven : ¬ Odd ((edges vs).countP (fun e => s e.1 ^^ s e.2)) := by
    rw [odd_countP_congr (g := fun _ => false) s (fun e _ => Bool.xor_false _)]
    simp
  have hpos : 0 < (edges vs).countP (fun e => s e.1 ^^ s e.2) := by
    rw [List.countP_pos_iff]
    by_contra hno
    refine hs (eq_of_forall_edges (fun e he => ?_) ha hb)
    by_contra hne
    exact hno ⟨e, he, by simpa using hne⟩
  by_contra hlt
  have hone : (edges vs).countP (fun e => s e.1 ^^ s e.2) = 1 := by omega
  exact heven (hone ▸ odd_one)

theorem exists_pair_of_two_le_countP {p : α → Bool} {r : α → α → Prop} {l : List α} (h : 2 ≤ l.countP p)
    (hr : l.Pairwise r) : ∃ a b, a ∈ l ∧ b ∈ l ∧ p a = true ∧ p b = true ∧ r a b := by
  rw [List.countP_eq_length_filter] at h
  have hr' := hr.filter p
  generalize hf : l.filter p = f at h hr'
  match f, h with
  | a :: b :: _, _ =>
      have ha : a ∈ l.filter p := hf ▸ List.mem_cons_self
      have hb : b ∈ l.filter p := hf ▸ List.mem_cons_of_mem _ List.mem_cons_self
      rw [List.mem_filter] at ha hb
      exact ⟨a, b, ha.1, hb.1, ha.2, hb.2, List.rel_of_pairwise_cons hr' List.mem_cons_self⟩

end

/-! ### Levels between finitely many values -/

section
variable {K : Type*} [Field K] [LinearOrder K] [IsStrictOrderedRing K]

/-- There is a level just below `m` with no value of the list from there up to `m`. -/
theorem exists_level (l : List K) (m : K) {η : K} (hη : 0 < η) :
    ∃ h, m - η < h ∧ h < m ∧ ∀ y ∈ l, y < m → y < h := by
  have key : ∃ h, m - η ≤ h ∧ h < m ∧ ∀ y ∈ l, y < m → y ≤ h := by
    induction l with
    | nil => exact ⟨m - η, le_rfl, by linarith, by simp⟩
    | cons y l ih =>
        obtain ⟨h, h1, h2, h3⟩ := ih
        by_cases hy : y < m
        · refine ⟨max h y, h1.trans (le_max_left h y), max_lt h2 hy, fun z hz hzm => ?_⟩
          rcases List.mem_cons.mp hz with rfl | hz
          · exact le_max_right h z
          · exact (h3 z hz hzm).trans (le_max_left h y)
        · refine ⟨h, h1, h2, fun z hz hzm => ?_⟩
          rcases List.mem_cons.mp hz with rfl | hz
          · exact absurd hzm hy
          · exact h3 z hz hzm
  obtain ⟨h, h1, h2, h3⟩ := key
  exact ⟨(h + m) / 2, by linarith, by linarith, fun y hy hym => by linarith [h3 y hy hym]⟩

omit [Field K] [IsStrictOrderedRing K] in
theorem exists_max {l : List K} (hne : l ≠ []) : ∃ m ∈ l, ∀ y ∈ l, y ≤ m := by
  obtain ⟨m, hm, hmax⟩ := l.toFinset.exists_max_image id (List.toFinset_nonempty_iff l |>.mpr hne)
  exact ⟨m, List.mem_toFinset.mp hm, fun y hy => hmax y (List.mem_toFinset.mpr hy)⟩

/-- Between the two largest of different values there is a place with one value above it. -/
theorem exists_countP_eq_one {l : List K} (hne : l ≠ []) (hnd : l.Nodup) :
    ∃ x, x ∉ l ∧ l.countP (fun y => decide (x < y)) = 1 := by
  obtain ⟨m, hm, hmax⟩ := exists_max hne
  obtain ⟨x, -, hxm, hx⟩ := exists_level l m zero_lt_one
  have hiff : ∀ y ∈ l, (x < y ↔ y = m) := by
    intro y hy
    refine ⟨fun hxy => ?_, fun h => h ▸ hxm⟩
    by_contra hne
    exact (hx y hy (lt_of_le_of_ne (hmax y hy) hne)).not_gt hxy
  refine ⟨x, fun hxl => ?_, ?_⟩
  · exact (hx x hxl hxm).false
  · rw [← List.count_eq_one_of_mem hnd hm, List.count]
    refine List.countP_congr (fun y hy => ?_)
    rw [decide_eq_true_eq, beq_iff_eq]
    exact hiff y hy

omit [IsStrictOrderedRing K] in
/-- A point of a segment that is not level is where the segment is at its height. -/
theorem OnSegment.x_eq_intercept {w u v : Point K} (h : OnSegment w u v) (hne : u.y ≠ v.y) :
    w.x = intercept u v w.y := by
  obtain ⟨t, -, -, rfl⟩ := h
  have hne' : v.y - u.y ≠ 0 := sub_ne_zero.mpr hne.symm
  rw [intercept, lerp_x, lerp_y, add_sub_cancel_left, mul_div_cancel_right₀ _ hne']

/-- A level segment contains the points of its height between its ends. -/
theorem onSegment_level {u v : Point K} {x y : K} (hu : u.y = y) (hv : v.y = y)
    (hx : u.x ≤ x ∧ x < v.x ∨ v.x ≤ x ∧ x < u.x) : OnSegment ⟨x, y⟩ u v := by
  have key : ∀ {u v : Point K}, u.y = y → v.y = y → u.x ≤ x → x < v.x → OnSegment ⟨x, y⟩ u v := by
    intro u v hu hv h1 h2
    obtain ⟨h0, h1'⟩ := ratio_mem h1 h2.le (h1.trans_lt h2)
    refine ⟨_, h0, h1', ?_⟩
    ext
    · rw [lerp_x, div_mul_cancel₀ _ (sub_ne_zero.mpr (h1.trans_lt h2).ne')]
      ring
    · simp [hu, hv]
  rcases hx with ⟨h1, h2⟩ | ⟨h1, h2⟩
  · exact key hu hv h1 h2
  · exact (key hv hu h1 h2).symm

namespace SimplePolygon

omit [IsStrictOrderedRing K] in
theorem exists_x_lt (P : SimplePolygon K) {y : K} (hy : ∀ v ∈ P.vertices, v.y = y) :
    ∃ a b, a ∈ P.vertices ∧ b ∈ P.vertices ∧ a.x < b.x := by
  have hlen := P.three_le
  have hnd := P.nodup
  match hP : P.vertices, hlen with
  | a :: b :: _, _ =>
      have ha : a ∈ P.vertices := hP ▸ List.mem_cons_self
      have hb : b ∈ P.vertices := hP ▸ List.mem_cons_of_mem _ List.mem_cons_self
      have hne : a ≠ b := by
        rw [hP] at hnd
        exact List.rel_of_pairwise_cons hnd List.mem_cons_self
      have hx : a.x ≠ b.x := fun h => hne (Point.ext h ((hy a ha).trans (hy b hb).symm))
      rcases lt_or_gt_of_ne hx with hx | hx
      · exact ⟨a, b, hP ▸ ha, hP ▸ hb, hx⟩
      · exact ⟨b, a, hP ▸ hb, hP ▸ ha, hx⟩

/-- The vertices of a simple polygon are not all at one height. -/
theorem exists_ne_height (P : SimplePolygon K) (y : K) : ∃ v ∈ P.vertices, v.y ≠ y := by
  by_contra hno
  have hy : ∀ v ∈ P.vertices, v.y = y := by
    intro v hv
    by_contra hne
    exact hno ⟨v, hv, hne⟩
  obtain ⟨a, b, ha, hb, hab⟩ := P.exists_x_lt hy
  -- a place between two vertices and on none
  obtain ⟨x, hax, hxb, hx⟩ := exists_level (P.vertices.map Point.x) b.x (sub_pos.mpr hab)
  rw [sub_sub_cancel] at hax
  have hside : ∀ v ∈ P.vertices, v.x < x ∨ x < v.x := by
    intro v hv
    by_cases hvb : v.x < b.x
    · exact Or.inl (hx _ (List.mem_map_of_mem hv) hvb)
    · exact Or.inr (hxb.trans_le (not_lt.mp hvb))
  have htwo := two_le_countP_changes (s := fun v : Point K => decide (x < v.x)) ha hb
    (by simp [hax.not_gt, hxb])
  obtain ⟨e, f, he, hf, hse, hsf, hef⟩ := exists_pair_of_two_le_countP htwo P.simple
  have hon : ∀ e ∈ edges P.vertices, (decide (x < e.1.x) ^^ decide (x < e.2.x)) = true →
      OnSegment ⟨x, y⟩ e.1 e.2 := by
    intro e he hs
    obtain ⟨h1, h2⟩ := mem_of_mem_edges he
    refine onSegment_level (hy _ h1) (hy _ h2) ?_
    rcases hside _ h1 with h1 | h1 <;> rcases hside _ h2 with h2 | h2
    · simp [h1.not_gt, h2.not_gt] at hs
    · exact Or.inl ⟨h1.le, h2⟩
    · exact Or.inr ⟨h2.le, h1⟩
    · simp [h1, h2] at hs
  obtain ⟨hends, -⟩ := hef _ (hon e he hse) (hon f hf hsf)
  obtain ⟨h1, h2⟩ := mem_of_mem_edges he
  rcases hends with hw | hw
  · have := hside _ h1
    rw [← hw] at this
    simp at this
  · have := hside _ h2
    rw [← hw] at this
    simp at this

/-- The edge goes from below the height to above it, or back. -/
def crossesLevel (h : K) (e : Point K × Point K) : Bool := decide (e.1.y ≤ h) ^^ decide (e.2.y ≤ h)

/-- Where the edges cross the height. -/
def crossings (vs : List (Point K)) (h : K) : List K :=
  ((edges vs).filter (crossesLevel h)).map (fun e => intercept e.1 e.2 h)

omit [Field K] [IsStrictOrderedRing K] in
/-- At a height without vertices, the ends of an edge that crosses it are on both sides. -/
theorem crossesLevel_iff {h : K} {e : Point K × Point K} (h1 : e.1.y ≠ h) (h2 : e.2.y ≠ h) :
    crossesLevel h e = true ↔ e.1.y < h ∧ h < e.2.y ∨ e.2.y < h ∧ h < e.1.y := by
  unfold crossesLevel
  rcases lt_or_gt_of_ne h1 with h1 | h1 <;> rcases lt_or_gt_of_ne h2 with h2 | h2 <;>
    simp [h1, h2, h1.le, h2.le, h1.not_ge, h2.not_ge, h1.not_gt, h2.not_gt]

/-- At a height without vertices, a point is in the interior if it is on no edge and has an odd
number of crossings to its right. -/
theorem interior_of_crossings {vs : List (Point K)} {x h : K} (hh : ∀ v ∈ vs, v.y ≠ h) (hx : x ∉ crossings vs h)
    (hodd : Odd ((crossings vs h).countP (fun y => decide (x < y)))) : Interior ⟨x, h⟩ vs := by
  constructor
  · have hcount : (edges vs).countP (fun e => crosses ⟨x, h⟩ e.1 e.2) =
        (crossings vs h).countP (fun y => decide (x < y)) := by
      rw [crossings, List.countP_map, List.countP_filter]
      refine List.countP_congr (fun e _ => ?_)
      simp [crosses, crossesLevel, and_comm]
    rwa [Inside, hcount]
  · rintro ⟨e, he, hon⟩
    obtain ⟨h1, h2⟩ := mem_of_mem_edges he
    by_cases hc : crossesLevel h e = true
    · have hne : e.1.y ≠ e.2.y := by
        rcases (crossesLevel_iff (hh _ h1) (hh _ h2)).mp hc with hc | hc
        · exact (hc.1.trans hc.2).ne
        · exact (hc.1.trans hc.2).ne'
      exact hx (List.mem_map.mpr ⟨e, List.mem_filter.mpr ⟨he, hc⟩, (hon.x_eq_intercept hne).symm⟩)
    · have hlo : min e.1.y e.2.y ≤ h := hon.min_y_le
      have hhi : h ≤ max e.1.y e.2.y := hon.le_max_y
      rw [crossesLevel_iff (hh _ h1) (hh _ h2)] at hc
      rcases lt_or_gt_of_ne (hh _ h1) with h1 | h1 <;> rcases lt_or_gt_of_ne (hh _ h2) with h2 | h2
      · exact (max_lt h1 h2).not_ge hhi
      · exact hc (Or.inl ⟨h1, h2⟩)
      · exact hc (Or.inr ⟨h2, h1⟩)
      · exact (lt_min h1 h2).not_ge hlo

/-- At a height without vertices, the edges of a simple polygon cross in different places. -/
theorem nodup_crossings (P : SimplePolygon K) {h : K} (hh : ∀ v ∈ P.vertices, v.y ≠ h) :
    (crossings P.vertices h).Nodup := by
  refine List.pairwise_map.mpr (List.Pairwise.imp_of_mem ?_ (P.simple.filter (crossesLevel h)))
  intro e f he hf hef heq
  obtain ⟨he, hce⟩ := List.mem_filter.mp he
  obtain ⟨hf, hcf⟩ := List.mem_filter.mp hf
  have hwe : OnSegment ⟨intercept e.1 e.2 h, h⟩ e.1 e.2 := onSegment_intercept hce
  have hwf : OnSegment ⟨intercept f.1 f.2 h, h⟩ f.1 f.2 := onSegment_intercept hcf
  rw [← heq] at hwf
  -- the common point is an end of the edge, and no end is at this height
  obtain ⟨h1, h2⟩ := mem_of_mem_edges he
  obtain ⟨hw | hw, -⟩ := hef _ hwe hwf
  · exact hh _ h1 (congrArg Point.y hw).symm
  · exact hh _ h2 (congrArg Point.y hw).symm

/-- **Below the top.**  A simple polygon has interior points as close to the height of its
highest vertices as one likes. -/
theorem exists_interior_near_top (P : SimplePolygon K) {m η : K} (hm : ∀ v ∈ P.vertices, v.y ≤ m)
    (htop : ∃ v ∈ P.vertices, v.y = m) (hη : 0 < η) :
    ∃ p : Point K, m - η < p.y ∧ p.y < m ∧ Interior p P.vertices := by
  obtain ⟨a, ha, ham⟩ := htop
  obtain ⟨b, hb, hbm⟩ := P.exists_ne_height m
  obtain ⟨h, hηh, hhm, hh⟩ := exists_level (P.vertices.map Point.y) m hη
  have hlow : ∀ v ∈ P.vertices, v.y ≠ m → v.y < h := by
    intro v hv hne
    exact hh _ (List.mem_map_of_mem hv) (lt_of_le_of_ne (hm v hv) hne)
  have hmiss : ∀ v ∈ P.vertices, v.y ≠ h := by
    intro v hv he
    have hlt := hlow v hv (by rw [he]; exact hhm.ne)
    exact hlt.ne he
  have hne : crossings P.vertices h ≠ [] := by
    have htwo := two_le_countP_changes (s := fun v : Point K => decide (v.y ≤ h)) ha hb
      (by simp [ham, hhm.not_ge, (hlow b hb hbm).le])
    have hpos : 0 < (crossings P.vertices h).length := by
      rw [crossings, List.length_map, ← List.countP_eq_length_filter]
      exact Nat.lt_of_lt_of_le (by omega) htwo
    exact List.ne_nil_of_length_pos hpos
  obtain ⟨x, hx, hcount⟩ := exists_countP_eq_one hne (P.nodup_crossings hmiss)
  exact ⟨⟨x, h⟩, hηh, hhm, interior_of_crossings hmiss hx (by rw [hcount]; exact odd_one)⟩

end SimplePolygon

end

end Planar
