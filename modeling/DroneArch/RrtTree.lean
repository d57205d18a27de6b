import DroneArch.ParentLinks
import DroneArch.RrtReach

/-! # The tree of RRT* in memory

The growth loop of `rrt_star.py` on node objects: a new node is created with the nearest node as its
parent, and `set_parent` and `set_cost` change it in place while the loop compares with the cost that
it has so far.  Other nodes are not changed.  The goal and the obstacles are those of the plane of
the tree, and the samples are any points.

* `treeInvariant_run`: parents are earlier in the list, at most `jump` away, and costs are path lengths.
* `represents_run`: the memory holds the nodes of `Rrt.step`. -/

namespace DroneArch.Rrt

open Planar Runs ParentLinks

noncomputable section

/-- An object of the class `Node`. -/
structure NodeObject where
  point : Point ℝ
  parent : Option ℕ
  cost : ℝ

/-- The objects by address, and the local variables that hold addresses. -/
structure Memory where
  object : ℕ → NodeObject
  /-- The address of the next object. -/
  next : ℕ
  nodes : List ℕ
  nodes_ne : nodes ≠ []
  bestNode : ℕ

/-- Start, goal and obstacles in the plane of the tree. -/
structure Scene where
  initPoint : Point ℝ
  goalPoint : Point ℝ
  obstacles : List Poly

def Mission.scene (m : Mission) : Scene := ⟨m.scale m.initPoint, m.scale m.goalPoint, m.polys⟩

theorem scene_obstacles (m : Mission) : m.scene.obstacles = m.polys := rfl

theorem scene_goalPoint (m : Mission) : m.scene.goalPoint = m.scale m.goalPoint := rfl

namespace Memory

/-- `Node(point, parent, cost)` at a new address. -/
def create (object : ℕ → NodeObject) (r : ℕ) (o : NodeObject) : ℕ → NodeObject := Function.update object r o

/-- `set_parent`. -/
def setParent (object : ℕ → NodeObject) (r newparent : ℕ) : ℕ → NodeObject :=
  Function.update object r { object r with parent := some newparent }

/-- `set_cost`. -/
def setCost (object : ℕ → NodeObject) (r : ℕ) (newcost : ℝ) : ℕ → NodeObject :=
  Function.update object r { object r with cost := newcost }

/-- Before the loop: `initNode`, `bestNode` and the first `node1`. -/
def start (c : Scene) : Memory where
  object := create (create (create (fun _ => ⟨⟨0, 0⟩, none, 0⟩) 0 ⟨c.initPoint, none, 0⟩) 1 ⟨⟨0, 0⟩, none, 9999999⟩)
    2 ⟨⟨0, 0⟩, none, dist c.initPoint ⟨0, 0⟩⟩
  next := 3
  nodes := [0]
  nodes_ne := List.cons_ne_nil 0 []
  bestNode := 1

/-- The node nearest to the sample. -/
def nearest (s : Memory) (rand : Point ℝ) : ℕ :=
  s.nodes.foldl (fun nn p => if dist (s.object p).point rand < dist (s.object nn).point rand then p else nn)
    (s.nodes.head s.nodes_ne)

/-- One pass of the loop over the nodes. -/
def reparent (node1 : ℕ) (object : ℕ → NodeObject) (t : ℕ) : ℕ → NodeObject :=
  if dist (object t).point (object node1).point < neighborhood ∧
      (object node1).cost > (object t).cost + dist (object node1).point (object t).point then
    let object := setParent object node1 t
    setCost object node1 ((object t).cost + dist (object node1).point (object t).point)
  else object

/-- The memory after the new node is created and the loop over the nodes. -/
def attach (s : Memory) (rand : Point ℝ) : ℕ → NodeObject :=
  let nn := s.nearest rand
  let newnode := stepFromTo (s.object nn).point rand
  let object := create s.object s.next ⟨newnode, some nn, (s.object nn).cost + dist newnode (s.object nn).point⟩
  s.nodes.foldl (reparent s.next) object

/-- One pass of the growth loop, without the clock. -/
def step (c : Scene) (s : Memory) (rand : Point ℝ) : Memory :=
  let node1 := s.next
  let object := s.attach rand
  let colision := c.obstacles.countP (notColides (object node1).point.x (object node1).point.y)
  if colision ≥ c.obstacles.length then
    { object
      next := node1 + 1
      nodes := s.nodes ++ [node1]
      nodes_ne := by simp
      bestNode :=
        if dist (object node1).point c.goalPoint < 10 then
          if (object node1).cost < (object s.bestNode).cost then node1 else s.bestNode
        else s.bestNode }
  else { s with object, next := node1 + 1 }

/-- The growth loop as a system whose events are the samples. -/
def grow (c : Scene) (s : Memory) (rand : Point ℝ) : Option Memory := some (step c s rand)

/-- `get_parent`. -/
def parent (s : Memory) (r : ℕ) : Option ℕ := (s.object r).parent

/-- The node `r` hangs below the node `t`. -/
def Hangs (object : ℕ → NodeObject) (r t : ℕ) : Prop :=
  (object r).cost = (object t).cost + dist (object r).point (object t).point ∧
    dist (object r).point (object t).point ≤ jump

/-- The length of the way along some nodes. -/
def pathLength (s : Memory) (path : List ℕ) : ℝ := total (fun r t => dist (s.object r).point (s.object t).point) path

end Memory

theorem dist_comm (p q : Point ℝ) : dist p q = dist q p := by
  unfold dist
  congr 1
  ring

namespace Memory

variable {c : Scene} {s : Memory}

/-! ### What one pass does -/

theorem nearest_mem (s : Memory) (rand : Point ℝ) : s.nearest rand ∈ s.nodes :=
  Lists.foldl_select_head_mem (fun p nn => dist (s.object p).point rand < dist (s.object nn).point rand) s.nodes_ne

/-- The new node as it stands below the node `t`. -/
def below (object : ℕ → NodeObject) (point : Point ℝ) (t : ℕ) : NodeObject :=
  ⟨point, some t, (object t).cost + dist point (object t).point⟩

/-- A pass over one node leaves the new node where it hangs, or hangs it below that node. -/
theorem reparent_spec {object object' : ℕ → NodeObject} {node1 t t₀ : ℕ} {point : Point ℝ}
    (hframe : ∀ r, r ≠ node1 → object' r = object r) (hnew : object' node1 = below object point t₀) (ht : t ≠ node1) :
    (∀ r, r ≠ node1 → reparent node1 object' t r = object r) ∧
      (reparent node1 object' t node1 = below object point t₀ ∨
        dist (object t).point point < neighborhood ∧ reparent node1 object' t node1 = below object point t) := by
  unfold reparent
  split
  · next hcond =>
      refine ⟨fun r hr => ?_, .inr ?_⟩
      · rw [setCost, setParent, Function.update_of_ne hr, Function.update_of_ne hr, hframe r hr]
      · rw [hframe t ht, hnew] at hcond
        refine ⟨hcond.1, ?_⟩
        rw [setCost, Function.update_self, setParent, Function.update_self, Function.update_of_ne ht, hframe t ht, hnew]
        rfl
  · exact ⟨hframe, .inl hnew⟩

/-- The loop over the nodes ends with a parent from the list or the first one. -/
theorem foldl_reparent_spec {object object' : ℕ → NodeObject} {node1 t₀ : ℕ} {point : Point ℝ} {nodes : List ℕ}
    (hnodes : ∀ t ∈ nodes, t ≠ node1) (hframe : ∀ r, r ≠ node1 → object' r = object r)
    (hnew : object' node1 = below object point t₀) :
    (∀ r, r ≠ node1 → nodes.foldl (reparent node1) object' r = object r) ∧
      ∃ t, nodes.foldl (reparent node1) object' node1 = below object point t ∧
        (t = t₀ ∨ t ∈ nodes ∧ dist (object t).point point < neighborhood) := by
  induction nodes generalizing object' t₀ with
  | nil => exact ⟨hframe, t₀, hnew, .inl rfl⟩
  | cons t nodes ih =>
      rw [List.forall_mem_cons] at hnodes
      obtain ⟨hframe', hnew'⟩ := reparent_spec hframe hnew hnodes.1
      rw [List.foldl_cons]
      rcases hnew' with hnew' | ⟨hd, hnew'⟩
      · obtain ⟨hf, t', ht', hmem⟩ := ih hnodes.2 hframe' hnew'
        exact ⟨hf, t', ht', hmem.imp_right fun h => ⟨List.mem_cons_of_mem t h.1, h.2⟩⟩
      · obtain ⟨hf, t', ht', hmem⟩ := ih hnodes.2 hframe' hnew'
        refine ⟨hf, t', ht', .inr ?_⟩
        rcases hmem with rfl | hmem
        · exact ⟨List.mem_cons_self, hd⟩
        · exact ⟨List.mem_cons_of_mem t hmem.1, hmem.2⟩

/-- The nodes have been created. -/
def Created (s : Memory) : Prop := ∀ r ∈ s.nodes, r < s.next

/-- A pass changes no other object, and hangs the new node below one of the tree. -/
theorem attach_spec (h : Created s) (rand : Point ℝ) : (∀ r, r ≠ s.next → s.attach rand r = s.object r) ∧
    ∃ t ∈ s.nodes, (s.attach rand s.next).parent = some t ∧ Hangs (s.attach rand) s.next t := by
  have hne : ∀ t ∈ s.nodes, t ≠ s.next := fun t ht => (h t ht).ne
  have hnear := nearest_mem s rand
  have hframe₀ : ∀ o r, r ≠ s.next → create s.object s.next o r = s.object r := fun o r hr => Function.update_of_ne hr _ _
  obtain ⟨hframe, t, ht, hmem⟩ := foldl_reparent_spec hne (hframe₀ (below s.object
    (stepFromTo (s.object (s.nearest rand)).point rand) (s.nearest rand))) (Function.update_self _ _ _)
  have hin : t ∈ s.nodes := by
    rcases hmem with rfl | hmem
    · exact hnear
    · exact hmem.1
  have hdist : dist (stepFromTo (s.object (s.nearest rand)).point rand) (s.object t).point ≤ jump := by
    rw [dist_comm]
    rcases hmem with rfl | ⟨_, hd⟩
    · exact (stepFromTo_spec _ _).1
    · exact hd.le.trans (by norm_num [neighborhood, jump])
  have hobj : s.attach rand t = s.object t := hframe t (hne t hin)
  have hnew : s.attach rand s.next = below s.object (stepFromTo (s.object (s.nearest rand)).point rand) t := ht
  refine ⟨hframe, t, hin, by rw [hnew, below], ?_, ?_⟩
  · rw [hnew, hobj, below]
  · rw [hnew, hobj, below]
    exact hdist

/-! ### The invariant -/

/-- What the growth loop keeps. -/
structure Tree (s : Memory) : Prop where
  created : Created s
  sorted : s.nodes.Pairwise (· < ·)
  rooted : Rooted s.parent (Hangs s.object) s.nodes
  cost : ∀ r ∈ s.nodes.head?, (s.object r).cost = 0
  best_lt : s.bestNode < s.next
  best : s.bestNode ∈ s.nodes ∨ s.parent s.bestNode = none

theorem tree_start (c : Scene) : Tree (start c) where
  created := by simp [Created, start]
  sorted := List.pairwise_singleton _ 0
  rooted := rooted_singleton rfl
  cost := by
    rintro _ ⟨⟩
    rfl
  best_lt := by simp [start]
  best := .inr rfl

/-- The tree stands in a memory in which only the next object has been written. -/
theorem Tree.rooted_of_frame (h : Tree s) {object : ℕ → NodeObject} (hframe : ∀ r, r ≠ s.next → object r = s.object r) :
    Rooted (fun r => (object r).parent) (Hangs object) s.nodes := by
  have hobj : ∀ r ∈ s.nodes, object r = s.object r := fun r hr => hframe r (h.created r hr).ne
  refine h.rooted.congr (fun r hr => congrArg NodeObject.parent (hobj r hr)) fun r hr t ht hangs => ?_
  unfold Hangs
  rw [hobj r hr, hobj t ht]
  exact hangs

theorem tree_step (c : Scene) (rand : Point ℝ) (h : Tree s) : Tree (step c s rand) := by
  obtain ⟨hframe, t, ht, hparent, hangs⟩ := attach_spec h.created rand
  have hrooted := h.rooted_of_frame hframe
  have hcost : ∀ r ∈ s.nodes.head?, (s.attach rand r).cost = 0 := by
    intro r hr
    rw [hframe r (h.created r (List.mem_of_head? hr)).ne]
    exact h.cost r hr
  have hbest : (s.attach rand s.bestNode).parent = s.parent s.bestNode := by
    rw [hframe _ h.best_lt.ne, parent]
  unfold step
  dsimp only
  split
  · have hmem : s.next ∈ s.nodes ++ [s.next] := List.mem_append_right _ List.mem_cons_self
    refine ⟨fun r hr => ?_, ?_, hrooted.concat ht hparent hangs, fun r hr => hcost r ?_, ?_, ?_⟩
    · rcases List.mem_append.mp hr with hr | hr
      · exact Nat.lt_succ_of_lt (h.created r hr)
      · rw [List.mem_singleton.mp hr]
        exact Nat.lt_succ_self _
    · rw [List.pairwise_append]
      refine ⟨h.sorted, List.pairwise_singleton _ _, fun r hr x hx => ?_⟩
      rw [List.mem_singleton.mp hx]
      exact h.created r hr
    · rwa [List.head?_append_of_ne_nil _ s.nodes_ne] at hr
    · have hlt := h.best_lt
      dsimp only
      split_ifs <;> omega
    · dsimp only [parent]
      have hkept : s.bestNode ∈ s.nodes ++ [s.next] ∨ (s.attach rand s.bestNode).parent = none := by
        rw [hbest]
        exact h.best.imp_left (List.mem_append_left _)
      split_ifs
      · exact .inl hmem
      · exact hkept
      · exact hkept
  · refine ⟨fun r hr => Nat.lt_succ_of_lt (h.created r hr), h.sorted, hrooted, hcost, Nat.lt_succ_of_lt h.best_lt, ?_⟩
    dsimp only [parent]
    rw [hbest]
    exact h.best

/-- **The tree.**  Every node but the first has its parent earlier in the list, costs as much more as
it is away from it, and is not more than `jump` away; the parents of a node end at the first node,
and its cost is the length of that way. -/
structure TreeInvariant (s : Memory) : Prop where
  nodup : s.nodes.Nodup
  linked : ∀ i r, s.nodes[i + 1]? = some r → ∃ j ≤ i, ∃ t, s.nodes[j]? = some t ∧ (s.object r).parent = some t ∧
    (s.object r).cost = (s.object t).cost + dist (s.object r).point (s.object t).point ∧
    dist (s.object r).point (s.object t).point ≤ jump
  path : ∀ r ∈ s.nodes, ∀ fuel ≥ s.nodes.length, ∃ path, climb s.parent fuel r = some path ∧ path.head? = some r ∧
    path.getLast? = s.nodes.head? ∧ (s.object r).cost = s.pathLength path

theorem Tree.path (h : Tree s) {r : ℕ} (hr : r ∈ s.nodes) {fuel : ℕ} (hfuel : s.nodes.length ≤ fuel) :
    ∃ path, climb s.parent fuel r = some path ∧ path.head? = some r ∧ path.getLast? = s.nodes.head? ∧
      (s.object r).cost = s.pathLength path := by
  obtain ⟨i, hi, hget⟩ := List.mem_iff_getElem.mp hr
  obtain ⟨l, hclimb, hlast, hchain⟩ :=
    h.rooted.climb (List.getElem?_eq_some_iff.mpr ⟨hi, hget⟩) (by omega : i < fuel)
  refine ⟨r :: l, hclimb, rfl, hlast, ?_⟩
  have hhead := List.head?_eq_some_head s.nodes_ne
  have hsum : (s.object r).cost = (s.object (s.nodes.head s.nodes_ne)).cost + s.pathLength (r :: l) :=
    eq_add_total (hchain.imp fun _ _ hangs => hangs.1) (hlast.trans hhead)
  rw [hsum, h.cost _ hhead, zero_add]

theorem Tree.treeInvariant (h : Tree s) : TreeInvariant s where
  nodup := h.sorted.imp fun hlt => hlt.ne
  linked := fun i r hr => by
    obtain ⟨j, hj, t, ht, hparent, hcost, hdist⟩ := h.rooted.linked i r hr
    exact ⟨j, hj, t, ht, hparent, hcost, hdist⟩
  path := fun _ hr _ hfuel => h.path hr hfuel

theorem tree_run (c : Scene) (rands : List (Point ℝ)) : Always (grow c) Tree (start c) rands :=
  always_of_step (fun s rand s' hs h => by
    cases hs
    exact tree_step c rand h) (tree_start c) rands

theorem treeInvariant_run (c : Scene) (rands : List (Point ℝ)) : Always (grow c) TreeInvariant (start c) rands :=
  (tree_run c rands).mono fun _ h => h.treeInvariant

/-- The output loop, from the best node up, ends. -/
theorem Tree.exists_climb_bestNode (h : Tree s) : ∃ path, climb s.parent s.nodes.length s.bestNode = some path := by
  rcases h.best with hbest | hbest
  · obtain ⟨path, hpath, _⟩ := h.path hbest le_rfl
    exact ⟨path, hpath⟩
  · obtain ⟨n, hn⟩ := Nat.exists_eq_succ_of_ne_zero (List.length_pos_iff.mpr s.nodes_ne).ne'
    exact ⟨[s.bestNode], by rw [hn, climb, hbest]⟩

end Memory

/-! ### The nodes as values -/

/-- The object at an address, with the objects above it, is a node. -/
inductive Denotes (object : ℕ → NodeObject) : ℕ → Node → Prop
  | root {r : ℕ} (h : (object r).parent = none) : Denotes object r (.root (object r).point (object r).cost)
  | child {r t : ℕ} {n : Node} (h : (object r).parent = some t) (ht : Denotes object t n) :
      Denotes object r (.child (object r).point n (object r).cost)

namespace Denotes

variable {object : ℕ → NodeObject} {r t : ℕ} {n n' : Node}

theorem getPoint (h : Denotes object r n) : n.getPoint = (object r).point := by
  cases h <;> rfl

theorem getCost (h : Denotes object r n) : n.getCost = (object r).cost := by
  cases h <;> rfl

/-- Only the objects up to the root matter. -/
theorem congr (h : Denotes object r n) {object' : ℕ → NodeObject} {A : Set ℕ} (hr : r ∈ A)
    (hclosed : ∀ r ∈ A, ∀ t, (object r).parent = some t → t ∈ A) (hA : ∀ r ∈ A, object' r = object r) :
    Denotes object' r n := by
  induction h with
  | root h =>
      rw [← hA _ hr] at h ⊢
      exact .root h
  | child h _ ih =>
      have ht := ih (hclosed _ hr _ h)
      rw [← hA _ hr] at h ⊢
      exact .child h ht

/-- A node of the value model that is hung below another one. -/
theorem reparent (h : Denotes object r n) {newcost : ℝ}
    (hset : Denotes (Memory.setCost (Memory.setParent object r t) r newcost) t n') :
    Denotes (Memory.setCost (Memory.setParent object r t) r newcost) r ((n.setParent n').setCost newcost) := by
  have hobj : Memory.setCost (Memory.setParent object r t) r newcost r = ⟨(object r).point, some t, newcost⟩ := by
    rw [Memory.setCost, Function.update_self, Memory.setParent, Function.update_self]
  have hval : (n.setParent n').setCost newcost = .child (object r).point n' newcost := by
    cases h <;> rfl
  have hchild := Denotes.child (r := r) (by rw [hobj]) hset
  rw [hobj] at hchild
  rw [hval]
  exact hchild

end Denotes

namespace Memory

variable {s : Memory}

/-- The memory holds the state of the value model. -/
structure Represents (s : Memory) (v : State) : Prop where
  nodes : List.Forall₂ (Denotes s.object) s.nodes v.nodes
  best : Denotes s.object s.bestNode v.bestNode

theorem represents_start (m : Mission) : Represents (start m.scene) (Rrt.start m) where
  nodes := .cons (.root rfl) .nil
  best := .root rfl

/-- Writing the next object changes no node. -/
theorem Tree.denotes_of_frame (h : Tree s) {r : ℕ} {n : Node} (hd : Denotes s.object r n)
    (hr : r ∈ s.nodes ∨ r = s.bestNode) {object : ℕ → NodeObject} (hframe : ∀ r, r ≠ s.next → object r = s.object r) :
    Denotes object r n := by
  refine hd.congr (A := {r | r ∈ s.nodes ∨ r = s.bestNode}) hr ?_ ?_
  · rintro r (hr | rfl) t ht
    · exact .inl (h.rooted.parent_mem hr ht)
    · rcases h.best with hbest | hbest
      · exact .inl (h.rooted.parent_mem hbest ht)
      · exact absurd (hbest.symm.trans ht) (by simp)
  · rintro r (hr | rfl)
    · exact hframe r (h.created r hr).ne
    · exact hframe _ h.best_lt.ne

theorem Represents.nearest {v : State} (h : Represents s v) (rand : Point ℝ) :
    Denotes s.object (s.nearest rand) (Rrt.nearest v rand) := by
  have hhead : Denotes s.object (s.nodes.head s.nodes_ne) (v.nodes.head v.nodes_ne) := by
    obtain ⟨object, next, nodes, hne, best⟩ := s
    obtain ⟨vnodes, vne, vbest⟩ := v
    cases h.nodes with
    | nil => exact absurd rfl hne
    | cons ht _ => exact ht
  refine List.rel_foldl (fun nn n hn p n' hp => ?_) hhead h.nodes
  rw [hp.getPoint, hn.getPoint]
  split
  · exact hp
  · exact hn

/-- The loop over the nodes does the same on objects and on values. -/
theorem Tree.denotes_loop (h : Tree s) {ts : List ℕ} {vs : List Node} (hts : List.Forall₂ (Denotes s.object) ts vs)
    (hmem : ∀ t ∈ ts, t ∈ s.nodes) {object : ℕ → NodeObject} {n : Node}
    (hframe : ∀ r, r ≠ s.next → object r = s.object r) (hn : Denotes object s.next n) :
    Denotes (ts.foldl (reparent s.next) object) s.next (vs.foldl (fun node1 t =>
      if dist t.getPoint node1.getPoint < neighborhood ∧ node1.getCost > t.getCost + dist node1.getPoint t.getPoint then
        (node1.setParent t).setCost (t.getCost + dist node1.getPoint t.getPoint)
      else node1) n) := by
  induction hts generalizing object n with
  | nil => exact hn
  | @cons t tv ts vs ht _ ih =>
      rw [List.forall_mem_cons] at hmem
      have hne : t ≠ s.next := (h.created t hmem.1).ne
      have hstep : ∀ r, r ≠ s.next → reparent s.next object t r = s.object r := by
        intro r hr
        unfold reparent
        split
        · rw [setCost, setParent, Function.update_of_ne hr, Function.update_of_ne hr, hframe r hr]
        · exact hframe r hr
      have hcost : (setParent object s.next t t).cost +
          dist (setParent object s.next t s.next).point (setParent object s.next t t).point =
          tv.getCost + dist n.getPoint tv.getPoint := by
        rw [setParent, Function.update_self, Function.update_of_ne hne, hframe t hne, ht.getCost, ht.getPoint, hn.getPoint]
      rw [List.foldl_cons, List.foldl_cons]
      refine ih hmem.2 hstep ?_
      rw [ht.getPoint, ht.getCost, hn.getPoint, hn.getCost, ← hframe t hne]
      by_cases hcond : dist (object t).point (object s.next).point < neighborhood ∧
          (object s.next).cost > (object t).cost + dist (object s.next).point (object t).point
      · have hframe' : ∀ r, r ≠ s.next → setCost (setParent object s.next t) s.next
            (tv.getCost + dist n.getPoint tv.getPoint) r = s.object r := by
          intro r hr
          rw [setCost, setParent, Function.update_of_ne hr, Function.update_of_ne hr, hframe r hr]
        have hset := hn.reparent (h.denotes_of_frame ht (.inl hmem.1) hframe')
        rw [if_pos hcond, reparent, if_pos hcond]
        dsimp only
        rw [hcost]
        rwa [ht.getPoint, ht.getCost, hn.getPoint, ← hframe t hne] at hset ⊢
      · rw [if_neg hcond, reparent, if_neg hcond]
        exact hn

/-- The new node is that of the value model. -/
theorem Represents.attach {m : Mission} {v : State} (h : Represents s v) (ht : Tree s) (d : Draw) :
    Denotes (s.attach (rand m d)) s.next (newNode m v d) := by
  have hnear := h.nearest (rand m d)
  have hmem := nearest_mem s (rand m d)
  -- the loop starts below the nearest node
  have hframe : ∀ o r, r ≠ s.next → create s.object s.next o r = s.object r := fun o r hr => Function.update_of_ne hr _ _
  refine ht.denotes_loop h.nodes (fun _ hr => hr) (hframe _) ?_
  have hparent : (create s.object s.next ⟨newPoint m v d, some (s.nearest (rand m d)), (Rrt.nearest v (rand m d)).getCost +
      dist (newPoint m v d) (Rrt.nearest v (rand m d)).getPoint⟩ s.next).parent = some (s.nearest (rand m d)) := by
    rw [create, Function.update_self]
  have hchild := Denotes.child hparent (ht.denotes_of_frame hnear (.inl hmem) (hframe _))
  rw [newPoint, hnear.getPoint, hnear.getCost] at hchild ⊢
  rw [create, Function.update_self] at hchild
  exact hchild

theorem represents_step {m : Mission} {v : State} (h : Represents s v) (ht : Tree s) (d : Draw) :
    Represents (step m.scene s (rand m d)) (Rrt.step m v d) := by
  have hnew := h.attach (m := m) ht d
  have hframe := (attach_spec ht.created (rand m d)).1
  have hbest : Denotes (s.attach (rand m d)) s.bestNode v.bestNode := ht.denotes_of_frame h.best (.inr rfl) hframe
  have hnodes : List.Forall₂ (Denotes (s.attach (rand m d))) s.nodes v.nodes := by
    have hall := (List.forall₂_and_left (p := fun r => r ∈ s.nodes) s.nodes v.nodes).mpr ⟨fun _ hr => hr, h.nodes⟩
    exact hall.imp fun _ _ hr => ht.denotes_of_frame hr.2 (.inl hr.1) hframe
  unfold step Rrt.step keep
  dsimp only
  rw [hnew.getPoint, scene_obstacles, scene_goalPoint]
  by_cases hcol : m.polys.countP (notColides (s.attach (rand m d) s.next).point.x (s.attach (rand m d) s.next).point.y) ≥
      m.polys.length
  · rw [if_pos hcol, if_pos hcol]
    refine ⟨List.rel_append hnodes (.cons hnew .nil), ?_⟩
    dsimp only
    rw [hnew.getCost, hbest.getCost]
    split_ifs <;> assumption
  · rw [if_neg hcol, if_neg hcol]
    exact ⟨hnodes, hbest⟩

/-- **The memory holds the tree.**  On the same draws, the loop on objects and the loop on values
end with the same nodes. -/
theorem represents_run {m : Mission} {ds : List Draw} {s : Memory} {v : State}
    (hs : run (grow m.scene) (start m.scene) (ds.map (rand m)) = some s)
    (hv : run (Rrt.grow m) (Rrt.start m) ds = some v) : Represents s v := by
  have key : ∀ (ds : List Draw) (s₀ : Memory) (v₀ : State), Represents s₀ v₀ → Tree s₀ →
      run (grow m.scene) s₀ (ds.map (rand m)) = some s → run (Rrt.grow m) v₀ ds = some v → Represents s v := by
    intro ds
    induction ds with
    | nil =>
        intro s₀ v₀ h _ hs hv
        cases hs
        cases hv
        exact h
    | cons d ds ih =>
        intro s₀ v₀ h ht hs hv
        exact ih _ _ (represents_step h ht d) (tree_step m.scene (rand m d) ht) hs hv
  exact key ds _ _ (represents_start m) (tree_start m.scene) hs hv

/-- Two samples straight ahead. -/
def twoAhead : List Draw := List.replicate 2 (drawAhead ⟨1 / 2, half_mem_Ico⟩)

theorem represents_run_twoAhead : ∃ s v,
    run (grow peakMission.scene) (start peakMission.scene) (twoAhead.map (rand peakMission)) = some s ∧
      run (Rrt.grow peakMission) (Rrt.start peakMission) twoAhead = some v ∧ Represents s v := by
  obtain ⟨s, hs⟩ : ∃ s,
      run (grow peakMission.scene) (start peakMission.scene) (twoAhead.map (rand peakMission)) = some s := ⟨_, rfl⟩
  obtain ⟨v, hv⟩ : ∃ v, run (Rrt.grow peakMission) (Rrt.start peakMission) twoAhead = some v := ⟨_, rfl⟩
  exact ⟨s, v, hs, hv, represents_run hs hv⟩

end Memory

end

end DroneArch.Rrt
