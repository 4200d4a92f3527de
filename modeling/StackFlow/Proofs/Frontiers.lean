import StackFlow.Proofs.DominatorTree

/-!
# Dominance frontiers

* `Layout.InFrontier` is what a frontier is meant to hold: the blocks that a block dominates a way
  to, but does not strictly dominate.
* `inFrontier_iff` is the step up the tree that the computation makes: a frontier consists of
  successors of the block and of what is in the frontiers of its children.  It uses that a strict
  dominator has a child on the way (`exists_child`), and that a block strictly dominates a
  successor only as its parent (`closestDominator_of_succ`).
* `Dominance.Walking` is the invariant of the walk that gives the order of the visits: no block is
  seen twice, so the walk ends before its fuel does (`Walking.stack_subset`) and comes to every
  block (`mem_walk_entry`), and to children after their parents (`Walking.children_subset`).
* `Dominance.frontierCell_frontierOf` is one visit and `Dominance.frontierCell_foldr` all of them,
  which go the walk the other way round.
* `Graph.mem_frontier_iff` is the main result: the frontiers of a graph that has been built hold
  exactly what they are meant to, in ascending order.
-/

namespace StackFlow

open Relation

namespace Layout

variable {layout : Layout} {c d n p y : Nat}

/-- Block `n` dominates some block that leads to block `y`, but it does not strictly dominate
`y`. -/
def InFrontier (layout : Layout) (n y : Nat) : Prop :=
  (∃ p ∈ layout.pred y, layout.Dominates n p) ∧ ¬ layout.StrictlyDominates n y

theorem InFrontier.lt (hwf : layout.WellFormed) (h : layout.InFrontier n y) :
    y < layout.size := by
  obtain ⟨⟨p, hp, _⟩, _⟩ := h
  exact hwf.succ_lt p y ((hwf.mem_succ_iff_mem_pred p y).2 hp)

/-- A block strictly dominates a successor only as its closest dominator. -/
theorem closestDominator_of_succ (hy : y ∈ layout.succ n) (h : layout.StrictlyDominates n y) :
    layout.ClosestDominator n y := by
  refine ⟨h, fun e he => ?_⟩
  exact (he.2.of_succ hy).resolve_left he.1

/-- Between a block and one that it strictly dominates lies a child. -/
theorem exists_child (hwf : layout.WellFormed) (hp : p < layout.size)
    (h : layout.StrictlyDominates n p) :
    ∃ c, layout.ClosestDominator n c ∧ layout.Dominates c p := by
  -- the way up from `p` comes to `n`, and the child is the last block before
  induction hk : (layout.dominators p).card using Nat.strongRecOn generalizing p with
  | ind k ih =>
    have h0 : p ≠ 0 := fun hzero => h.1 (hzero ▸ (hzero ▸ h.2).eq_entry)
    obtain ⟨q, hq⟩ := exists_closestDominator hwf hp h0
    by_cases hnq : n = q
    · subst hnq
      exact ⟨p, hq, .refl layout p⟩
    · have hless := card_dominators_lt hwf hp hq.strict
      obtain ⟨c, hclosest, hc⟩ := ih _ (hk ▸ hless) (hq.strict.2.lt hwf hp)
        ⟨hnq, hq.closest n h⟩ rfl
      exact ⟨c, hclosest, hc.trans hq.strict.2⟩

/-- The frontier of a block consists of successors and of the frontiers of its children. -/
theorem inFrontier_iff (hwf : layout.WellFormed) : layout.InFrontier n y ↔
    (y ∈ layout.succ n ∧ ¬ layout.ClosestDominator n y) ∨
      ∃ c, (c < layout.size ∧ layout.ClosestDominator n c) ∧ layout.InFrontier c y ∧
        ¬ layout.StrictlyDominates n y := by
  constructor
  · intro h
    obtain ⟨⟨p, hp, hdom⟩, hnot⟩ := h
    have hplt : p < layout.size := hwf.pred_lt y p hp
    by_cases hnp : n = p
    · subst hnp
      exact .inl ⟨(hwf.mem_succ_iff_mem_pred n y).2 hp, fun hclosest => hnot hclosest.strict⟩
    · obtain ⟨c, hclosest, hc⟩ := exists_child hwf hplt ⟨hnp, hdom⟩
      have hclt : c < layout.size := hc.lt hwf hplt
      refine .inr ⟨c, ⟨hclt, hclosest⟩, ⟨⟨p, hp, hc⟩, fun hcy => hnot ⟨?_, ?_⟩⟩, hnot⟩
      · -- otherwise `c` and `n` would dominate each other
        intro hny
        subst hny
        exact hclosest.strict.1 (hclosest.strict.2.antisymm hwf hclt hcy.2)
      · exact hclosest.strict.2.trans hcy.2
  · intro h
    cases h with
    | inl hown =>
      refine ⟨⟨n, (hwf.mem_succ_iff_mem_pred n y).1 hown.1, .refl layout n⟩, fun hstrict => ?_⟩
      exact hown.2 (closestDominator_of_succ hown.1 hstrict)
    | inr hup =>
      obtain ⟨c, ⟨_, hclosest⟩, ⟨⟨p, hp, hc⟩, _⟩, hnot⟩ := hup
      exact ⟨⟨p, hp, hclosest.strict.2.trans hc⟩, hnot⟩

end Layout

namespace Dominance

variable {layout : Layout} {sets : Array BlockSet} {n y : Nat}

/-- What the frontier of block `n` is meant to be. -/
structure FrontierCell (layout : Layout) (n : Nat) (ys : List Nat) : Prop where
  sorted : ys.Pairwise (· < ·)
  mem_iff : ∀ y, y ∈ ys ↔ layout.InFrontier n y

theorem mem_frontierOf {t : DominatorTree} {frontier : Array (List Nat)} :
    y ∈ frontierOf layout sets t frontier n ↔ y < layout.size ∧
      (y ∈ layout.succ n ∧ t.parent.getD y none ≠ some n ∨
        ∃ c ∈ t.children.getD n [], y ∈ frontier.getD c [] ∧
          ¬ (n ≠ y ∧ dominatesIn sets n y = true)) := by
  simp only [frontierOf, List.mem_filter, Layout.indices, List.mem_range, Bool.or_eq_true,
    List.contains_iff_mem, List.mem_flatMap, decide_eq_true_eq, Bool.not_eq_true',
    Bool.and_eq_false_iff, decide_eq_false_iff_not, not_and_or, Bool.not_eq_true]

/-- The frontier of a block is right, if those of its children are. -/
theorem frontierCell_frontierOf {frontier : Array (List Nat)} (h : Exact layout sets)
    (hwf : layout.WellFormed) (hchildren : ∀ c < layout.size, layout.ClosestDominator n c →
      FrontierCell layout c (frontier.getD c [])) :
    FrontierCell layout n (frontierOf layout sets (tree layout sets) frontier n) := by
  refine ⟨List.pairwise_lt_range.filter _, fun y => ?_⟩
  rw [mem_frontierOf]
  have hiff : ∀ (hy : y < layout.size),
      ((y ∈ layout.succ n ∧ (tree layout sets).parent.getD y none ≠ some n ∨
        ∃ c ∈ (tree layout sets).children.getD n [], y ∈ frontier.getD c [] ∧
          ¬ (n ≠ y ∧ dominatesIn sets n y = true)) ↔ layout.InFrontier n y) := by
    intro hy
    have hstrict : (n ≠ y ∧ dominatesIn sets n y = true) ↔ layout.StrictlyDominates n y :=
      and_congr_right fun _ => h.contains_iff hwf hy
    rw [Layout.inFrontier_iff hwf, ne_eq, parent_tree h hwf, and_iff_right hy, hstrict]
    refine or_congr_right (exists_congr fun c => ?_)
    rw [mem_children_tree h hwf]
    refine and_congr_right fun hc => and_congr_left fun _ => ?_
    exact (hchildren c hc.1 hc.2).mem_iff y
  constructor
  · intro hmem
    exact (hiff hmem.1).1 hmem.2
  · intro hfrontier
    have hy := hfrontier.lt hwf
    exact ⟨hy, (hiff hy).2 hfrontier⟩

/-! ## The walk down the tree -/

/-- What holds on a walk down the tree of dominators that has come through the blocks of `done`,
when those of `stack` are on the stack. -/
structure Walking (layout : Layout) (done stack : List Nat) : Prop where
  nodup : (done ++ stack).Nodup
  lt : ∀ c ∈ done ++ stack, c < layout.size
  parent_mem : ∀ c ∈ done ++ stack, ∀ d, layout.ClosestDominator d c → d ∈ done

section Walk

variable {done stack : List Nat} {fuel : Nat}

theorem Walking.start (hsize : 0 < layout.size) : Walking layout [] [0] where
  nodup := List.nodup_singleton 0
  lt _ hc := List.mem_singleton.1 hc ▸ hsize
  parent_mem _ hc _ hclosest :=
    absurd (List.mem_singleton.1 hc ▸ hclosest) Layout.not_closestDominator_entry

theorem Walking.length_le (hwalk : Walking layout done stack) :
    done.length + stack.length ≤ layout.size := by
  have hsub : done ++ stack ⊆ List.range layout.size := fun c hc =>
    List.mem_range.2 (hwalk.lt c hc)
  have hle := (List.subperm_of_subset hwalk.nodup hsub).length_le
  rwa [List.length_append, List.length_range] at hle

variable (h : Exact layout sets) (hwf : layout.WellFormed)
include h hwf

/-- No child of a block is seen before the block is taken off the stack. -/
theorem Walking.next (hwalk : Walking layout done (n :: stack)) : Walking layout (done ++ [n])
    (((tree layout sets).children.getD n []).reverse ++ stack) := by
  have hperm : List.Perm
      ((done ++ [n]) ++ (((tree layout sets).children.getD n []).reverse ++ stack))
      ((tree layout sets).children.getD n [] ++ (done ++ n :: stack)) := by
    rw [List.perm_iff_count]
    intro c
    simp only [List.count_append, List.count_cons, List.count_reverse, List.count_nil]
    omega
  have hmem : ∀ c, c ∈ (done ++ [n]) ++
      (((tree layout sets).children.getD n []).reverse ++ stack) ↔
        (c < layout.size ∧ layout.ClosestDominator n c) ∨ c ∈ done ++ n :: stack := by
    intro c
    rw [hperm.mem_iff, List.mem_append, mem_children_tree h hwf]
  have hfresh : n ∉ done := fun hn =>
    (List.nodup_append.1 hwalk.nodup).2.2 n hn n List.mem_cons_self rfl
  refine ⟨hperm.nodup_iff.2 (nodup_children_tree.append hwalk.nodup ?_), ?_, ?_⟩
  · intro c hchild hseen
    exact hfresh (hwalk.parent_mem c hseen n ((mem_children_tree h hwf).1 hchild).2)
  · intro c hc
    rcases (hmem c).1 hc with hchild | hseen
    · exact hchild.1
    · exact hwalk.lt c hseen
  · intro c hc d hclosest
    rw [List.mem_append, List.mem_singleton]
    rcases (hmem c).1 hc with hchild | hseen
    · exact .inr (hclosest.unique hwf hchild.1 hchild.2)
    · exact .inl (hwalk.parent_mem c hseen d hclosest)

theorem Walking.lt_of_mem_walk (hwalk : Walking layout done stack)
    (hn : n ∈ walk (tree layout sets).children fuel stack) : n < layout.size := by
  induction fuel generalizing done stack with
  | zero => exact absurd hn List.not_mem_nil
  | succ fuel ih =>
    cases stack with
    | nil => exact absurd hn List.not_mem_nil
    | cons m stack =>
      rcases List.mem_cons.1 hn with heq | hlater
      · exact hwalk.lt n (by simp [heq])
      · exact ih (hwalk.next h hwf) hlater

/-- A walk comes to all blocks on the stack before its fuel runs out. -/
theorem Walking.stack_subset (hwalk : Walking layout done stack)
    (hfuel : layout.size ≤ done.length + fuel) :
    stack ⊆ walk (tree layout sets).children fuel stack := by
  induction fuel generalizing done stack with
  | zero =>
    have hle := hwalk.length_le
    have hnil : stack = [] := List.length_eq_zero_iff.1 (by omega)
    exact hnil ▸ List.nil_subset _
  | succ fuel ih =>
    cases stack with
    | nil => exact List.nil_subset _
    | cons n stack =>
      have hfuel' : layout.size ≤ (done ++ [n]).length + fuel := by
        rw [List.length_append, List.length_singleton]
        omega
      have hrest := ih (hwalk.next h hwf) hfuel'
      exact List.cons_subset_cons n (List.Subset.trans (List.subset_append_right _ _) hrest)

/-- A walk comes to the children of a block after the block. -/
theorem Walking.children_subset {before after : List Nat} (hwalk : Walking layout done stack)
    (hfuel : layout.size ≤ done.length + fuel)
    (hsplit : walk (tree layout sets).children fuel stack = before ++ n :: after) :
    (tree layout sets).children.getD n [] ⊆ after := by
  induction fuel generalizing done stack before with
  | zero => simp [walk] at hsplit
  | succ fuel ih =>
    cases stack with
    | nil => simp [walk] at hsplit
    | cons m stack =>
      have hnext := hwalk.next h hwf
      have hfuel' : layout.size ≤ (done ++ [m]).length + fuel := by
        rw [List.length_append, List.length_singleton]
        omega
      cases before with
      | nil =>
        -- the walk is at the block, which puts its children on the stack
        obtain ⟨rfl, rfl⟩ := List.cons.inj hsplit
        have hrest := hnext.stack_subset h hwf hfuel'
        intro c hc
        exact hrest (List.mem_append_left _ (List.mem_reverse.2 hc))
      | cons b before => exact ih hnext hfuel' (List.cons.inj hsplit).2

/-- The walk from the entry comes to exactly the blocks. -/
theorem mem_walk_entry (hsize : 0 < layout.size) :
    n ∈ walk (tree layout sets).children layout.size [0] ↔ n < layout.size := by
  have hstart := Walking.start hsize
  have hfuel : layout.size ≤ ([] : List Nat).length + layout.size := by simp
  constructor
  · exact hstart.lt_of_mem_walk h hwf
  · intro hn
    have hway := (tree_ofSets h hwf).reaches_entry n hn
    clear hn
    induction hway using ReflTransGen.head_induction_on with
    | refl => exact hstart.stack_subset h hwf hfuel List.mem_cons_self
    | head hup _ hparent =>
      obtain ⟨before, after, hsplit⟩ := List.append_of_mem hparent
      have hchild := ((tree_ofSets h hwf).mem_children _ _).2 hup
      rw [hsplit, List.mem_append, List.mem_cons]
      exact .inr (.inr (hstart.children_subset h hwf hfuel hsplit hchild))

/-- When the blocks at the end of the walk have been visited, their frontiers are right. -/
theorem frontierCell_foldr {before after : List Nat} (hsize : 0 < layout.size)
    (hsplit : walk (tree layout sets).children layout.size [0] = before ++ after) :
    (after.foldr (fun n f => visitFrontier layout sets (tree layout sets) f n)
        (Array.replicate layout.size [])).size = layout.size ∧
      ∀ n ∈ after, FrontierCell layout n
        ((after.foldr (fun n f => visitFrontier layout sets (tree layout sets) f n)
          (Array.replicate layout.size [])).getD n []) := by
  induction after generalizing before with
  | nil => simp
  | cons m after ih =>
    have hsplit' : walk (tree layout sets).children layout.size [0] = (before ++ [m]) ++ after := by
      rw [hsplit, List.append_assoc, List.singleton_append]
    obtain ⟨hcells, hdone⟩ := ih hsplit'
    have hm : m < layout.size := (mem_walk_entry h hwf hsize).1 (by simp [hsplit])
    have hchildren := (Walking.start hsize).children_subset h hwf (by simp) hsplit
    have hnew := frontierCell_frontierOf (n := m) h hwf fun c hc hclosest =>
      hdone c (hchildren ((mem_children_tree h hwf).2 ⟨hc, hclosest⟩))
    rw [List.foldr_cons]
    refine ⟨by rw [visitFrontier, Array.size_setIfInBounds, hcells], fun n hn => ?_⟩
    rw [visitFrontier, Rounds.getD_setIfInBounds (hcells.symm ▸ hm)]
    split
    · rename_i heq
      exact heq ▸ hnew
    · rename_i hne
      exact hdone n ((List.mem_cons.1 hn).resolve_left (Ne.symm hne))

theorem frontierCell_ofSets (hn : n < layout.size) :
    FrontierCell layout n ((ofSets layout sets).frontier.getD n []) := by
  have hfrontier : (ofSets layout sets).frontier =
      (walk (tree layout sets).children layout.size [0]).foldr
        (fun n f => visitFrontier layout sets (tree layout sets) f n)
        (Array.replicate layout.size []) :=
    List.foldl_reverse
  have hsize : 0 < layout.size := Nat.zero_lt_of_lt hn
  rw [hfrontier]
  exact (frontierCell_foldr h hwf hsize (List.nil_append _).symm).2 n
    ((mem_walk_entry h hwf hsize).2 hn)

end Walk

end Dominance

namespace Graph

variable {o : Options} {code : List Instr} {g : Graph} {n : Nat}

theorem Built.frontierCell (h : Built o code g) (hn : n < g.size) :
    Dominance.FrontierCell g.layout n (g.dominance.frontier.getD n []) := by
  obtain ⟨hexact, hdominance⟩ := h.dominance_spec
  have hcell := Dominance.frontierCell_ofSets hexact h.wellFormed hn
  rwa [← hdominance] at hcell

/-- The frontier of a block holds the blocks `y` for which the block dominates some predecessor of
`y` but does not strictly dominate `y`, in ascending order. -/
theorem mem_frontier_iff (h : build o code = .ok g) (hn : n < g.size) :
    (g.dominance.frontier.getD n []).Pairwise (· < ·) ∧
      ∀ y, y ∈ g.dominance.frontier.getD n [] ↔
        (∃ p ∈ g.layout.pred y, g.layout.Dominates n p) ∧ ¬ g.layout.StrictlyDominates n y := by
  have hcell := (built_of_build h).frontierCell hn
  exact ⟨hcell.sorted, hcell.mem_iff⟩

/-- Each block of a loop with two entries has the other one in its frontier; the way out, which
only the second of them dominates, is in none of the two. -/
theorem mem_frontier_iff_twoWayLoop :
    ∃ g, build (Defaults.options {}) twoWayLoop = .ok g ∧ 2 < g.size ∧ 3 < g.size ∧
      ((∃ p ∈ g.layout.pred 3, g.layout.Dominates 2 p) ∧ ¬ g.layout.StrictlyDominates 2 3) ∧
      ((∃ p ∈ g.layout.pred 2, g.layout.Dominates 3 p) ∧ ¬ g.layout.StrictlyDominates 3 2) ∧
      ¬ ((∃ p ∈ g.layout.pred 4, g.layout.Dominates 3 p) ∧ ¬ g.layout.StrictlyDominates 3 4) := by
  obtain ⟨g, hbuild, hsize, _, _, hfrontier⟩ := exists_twoWayLoop
  have htwo : 2 < g.size := by omega
  have hthree : 3 < g.size := by omega
  have hsecond := (mem_frontier_iff hbuild htwo).2
  have hthird := (mem_frontier_iff hbuild hthree).2
  rw [hfrontier] at hsecond hthird
  refine ⟨g, hbuild, htwo, hthree, (hsecond 3).1 ?_, (hthird 2).1 ?_, mt (hthird 4).2 ?_⟩
  · decide
  · decide
  · decide

end Graph

end StackFlow
