import StackFlow.Proofs.Frontiers
import StackFlow.Proofs.Search
import StackFlow.Study

/-!
# Where phi nodes are placed

A temporary gets phi nodes at the iterated frontier of the blocks that define it.

* `Layout.JoinClosed D S` is when `S` takes in the frontiers of `D` and its own, and
  `Layout.IteratedFrontier D S` when `S` is the least such set.
* `JoinClosed.mem_of_meet` says what the iterated frontier is good for: it has the blocks where ways
  from different definitions meet.  A block that it does not have is strictly dominated by some
  block on either way (`JoinClosed.exists_strict`), and these would dominate each other.
* `Graph.Placing` is what the visits to waiting blocks keep, for one temporary.  `placing_visit` is
  one visit, and `placing_placePhis` says that the visits go on until no block waits.
* `iteratedFrontier_foldl` treats the temporaries one after the other, and
  `Graph.iteratedFrontier_of_build` is the main result.
-/

namespace StackFlow

namespace Layout

variable {layout : Layout} {D S : Set Nat} {bs xs ys : List Nat} {b d n x y z : Nat}

/-! ## Iterated frontiers -/

/-- The frontiers of the blocks in `D` and in `S` are part of `S`. -/
def JoinClosed (layout : Layout) (D S : Set Nat) : Prop :=
  ∀ n ∈ D ∪ S, ∀ y, layout.InFrontier n y → y ∈ S

/-- The least set that takes in the frontiers of `D` and its own. -/
def IteratedFrontier (layout : Layout) (D S : Set Nat) : Prop :=
  IsLeast {S | layout.JoinClosed D S} S

theorem InFrontier.source_lt (hwf : layout.WellFormed) (h : layout.InFrontier n y) :
    n < layout.size := by
  obtain ⟨⟨p, hp, hdom⟩, _⟩ := h
  exact hdom.lt hwf (hwf.pred_lt y p hp)

/-- The dominance of a block ends at a successor of a dominated block that it does not strictly
dominate. -/
theorem inFrontier_of_succ (hwf : layout.WellFormed) (hdom : layout.Dominates d n)
    (edge : y ∈ layout.succ n) (hnot : ¬ layout.StrictlyDominates d y) : layout.InFrontier d y :=
  ⟨⟨n, (hwf.mem_succ_iff_mem_pred n y).1 edge, hdom⟩, hnot⟩

/-- The end of a way from a definition is dominated by a block on the way that is a definition or
in the iterated frontier. -/
theorem JoinClosed.exists_dominator (h : layout.JoinClosed D S) (hwf : layout.WellFormed)
    (hx : x ∈ D ∪ S) (hway : layout.Way x bs b) :
    ∃ d ∈ bs ++ [b], d ∈ D ∪ S ∧ layout.Dominates d b := by
  induction hway with
  | refl => exact ⟨x, by simp, hx, .refl layout x⟩
  | step way edge ih =>
    rename_i bs i j
    obtain ⟨d, hd, hmem, hdom⟩ := ih
    by_cases hstrict : layout.StrictlyDominates d j
    · exact ⟨d, List.mem_append_left _ hd, hmem, hstrict.2⟩
    · have hfrontier := inFrontier_of_succ hwf hdom edge hstrict
      exact ⟨j, by simp, .inr (h d hmem j hfrontier), .refl layout j⟩

/-- A block outside that a way from a definition leads to is strictly dominated by some block on
the way. -/
theorem JoinClosed.exists_strict (h : layout.JoinClosed D S) (hwf : layout.WellFormed)
    (hx : x ∈ D) (hway : layout.Way x xs z) (hne : xs ≠ []) (hz : z ∉ S) :
    ∃ d ∈ xs, layout.StrictlyDominates d z := by
  cases hway with
  | refl => exact absurd rfl hne
  | step way edge =>
    rename_i xs i
    obtain ⟨d, hd, hmem, hdom⟩ := h.exists_dominator hwf (.inl hx) way
    refine ⟨d, hd, ?_⟩
    by_contra hstrict
    exact hz (h d hmem z (inFrontier_of_succ hwf hdom edge hstrict))

/-- Ways from definitions that have only their end in common meet in the iterated frontier. -/
theorem JoinClosed.mem_of_meet (h : layout.JoinClosed D S) (hwf : layout.WellFormed)
    (hx : x ∈ D) (hy : y ∈ D) (hxway : layout.Way x xs z) (hyway : layout.Way y ys z)
    (hxs : xs ≠ []) (hys : ys ≠ []) (hapart : ∀ b ∈ xs ++ [z], b ∈ ys ++ [z] → b = z) :
    z ∈ S := by
  by_contra hz
  obtain ⟨d, hd, hdz⟩ := h.exists_strict hwf hx hxway hxs hz
  obtain ⟨e, he, hez⟩ := h.exists_strict hwf hy hyway hys hz
  have hd' : d ∈ xs ++ [z] := List.mem_append_left _ hd
  have he' : e ∈ ys ++ [z] := List.mem_append_left _ he
  -- neither block is on the other way, so each of them dominates the other one
  have hde : layout.Dominates d e :=
    hdz.2.of_way hyway (fun hmem => hdz.1 (hapart d hd' hmem)) e he'
  have hed : layout.Dominates e d :=
    hez.2.of_way hxway (fun hmem => hez.1 (hapart e hmem he')) d hd'
  have hzlt : z < layout.size := by
    cases hxway with
    | refl => exact absurd rfl hxs
    | step _ edge => exact hwf.succ_lt _ z edge
  have heq : d = e := hde.antisymm hwf (hez.2.lt hwf hzlt) hed
  exact hdz.1 (hapart d hd' (heq ▸ he'))

end Layout

namespace Graph

variable {g : Graph} {defs phis now : Array TempSet} {t u : Int64} {s : Array TempSet × List Nat}
  {queue ys : List Nat} {n y z : Nat}

/-! ## One visit -/

theorem placePhi_of_mem (h : t ∈ s.1.getD y ∅) : placePhi defs t s y = s := by
  rw [placePhi, if_pos (TempSet.contains_iff.2 h)]

theorem placePhi_of_not_mem (h : t ∉ s.1.getD y ∅) : placePhi defs t s y =
    (s.1.setIfInBounds y ((s.1.getD y ∅).insert t),
      if t ∈ defs.getD y ∅ then s.2 else s.2 ++ [y]) := by
  rw [placePhi, if_neg (mt TempSet.contains_iff.1 h)]
  simp only [TempSet.contains_iff]

@[simp] theorem size_placePhi : (placePhi defs t s y).1.size = s.1.size := by
  by_cases hold : t ∈ s.1.getD y ∅
  · rw [placePhi_of_mem hold]
  · rw [placePhi_of_not_mem hold, Array.size_setIfInBounds]

theorem mem_placePhi (hy : y < s.1.size) :
    u ∈ (placePhi defs t s y).1.getD z ∅ ↔ u ∈ s.1.getD z ∅ ∨ (u = t ∧ z = y) := by
  by_cases hold : t ∈ s.1.getD y ∅
  · rw [placePhi_of_mem hold]
    refine (or_iff_left_of_imp fun h => ?_).symm
    rw [h.1, h.2]
    exact hold
  · rw [placePhi_of_not_mem hold, Rounds.getD_setIfInBounds hy]
    by_cases heq : y = z
    · rw [if_pos heq, heq, TempSet.mem_insert, or_comm, and_iff_left rfl]
    · rw [if_neg heq]
      exact (or_iff_left fun h => heq h.2.symm).symm

/-- A block waits if it did before, or if its phi node is new and no visit is due to it anyway. -/
theorem mem_queue_placePhi : z ∈ (placePhi defs t s y).2 ↔
    z ∈ s.2 ∨ (z = y ∧ t ∉ s.1.getD z ∅ ∧ t ∉ defs.getD z ∅) := by
  by_cases hold : t ∈ s.1.getD y ∅
  · rw [placePhi_of_mem hold]
    refine (or_iff_left fun h => h.2.1 ?_).symm
    exact h.1 ▸ hold
  · rw [placePhi_of_not_mem hold]
    by_cases hdef : t ∈ defs.getD y ∅
    · rw [if_pos hdef]
      refine (or_iff_left fun h => h.2.2 ?_).symm
      exact h.1 ▸ hdef
    · rw [if_neg hdef, List.mem_append, List.mem_singleton]
      refine or_congr_right ⟨fun heq => ?_, And.left⟩
      exact ⟨heq, heq ▸ hold, heq ▸ hdef⟩

@[simp] theorem size_foldl_placePhi : (ys.foldl (placePhi defs t) s).1.size = s.1.size := by
  induction ys generalizing s with
  | nil => rfl
  | cons y ys ih => rw [List.foldl_cons, ih, size_placePhi]

theorem mem_foldl_placePhi (hys : ∀ y ∈ ys, y < s.1.size) :
    u ∈ (ys.foldl (placePhi defs t) s).1.getD z ∅ ↔ u ∈ s.1.getD z ∅ ∨ (u = t ∧ z ∈ ys) := by
  induction ys generalizing s with
  | nil => simp
  | cons y ys ih =>
    have hrest : ∀ y' ∈ ys, y' < (placePhi defs t s y).1.size := by
      intro y' hy'
      rw [size_placePhi]
      exact hys y' (List.mem_cons_of_mem y hy')
    rw [List.foldl_cons, ih hrest, mem_placePhi (hys y List.mem_cons_self), List.mem_cons, or_assoc,
      ← and_or_left]

theorem mem_queue_foldl_placePhi (hys : ∀ y ∈ ys, y < s.1.size) :
    z ∈ (ys.foldl (placePhi defs t) s).2 ↔
      z ∈ s.2 ∨ (z ∈ ys ∧ t ∉ s.1.getD z ∅ ∧ t ∉ defs.getD z ∅) := by
  induction ys generalizing s with
  | nil => simp
  | cons y ys ih =>
    have hrest : ∀ y' ∈ ys, y' < (placePhi defs t s y).1.size := by
      intro y' hy'
      rw [size_placePhi]
      exact hys y' (List.mem_cons_of_mem y hy')
    rw [List.foldl_cons, ih hrest, mem_queue_placePhi, mem_placePhi (hys y List.mem_cons_self),
      List.mem_cons]
    tauto

/-- The blocks that do not define `t` and have no phi node for it yet.  They may still come to
wait. -/
def awaited (g : Graph) (defs : Array TempSet) (t : Int64) (phis : Array TempSet) : Finset Nat :=
  (Finset.range g.size).filter fun y => t ∉ phis.getD y ∅ ∧ t ∉ defs.getD y ∅

/-- The number of visits that may still be needed. -/
def visitsLeft (g : Graph) (defs : Array TempSet) (t : Int64) (s : Array TempSet × List Nat) :
    Nat :=
  s.2.length + (g.awaited defs t s.1).card

/-- A new phi node leaves the number as it is, since the block waits now or was never to come. -/
theorem visitsLeft_placePhi (hsize : s.1.size = g.size) (hy : y < g.size) :
    g.visitsLeft defs t (placePhi defs t s y) = g.visitsLeft defs t s := by
  by_cases hold : t ∈ s.1.getD y ∅
  · rw [placePhi_of_mem hold]
  · have herase : g.awaited defs t (placePhi defs t s y).1 = (g.awaited defs t s.1).erase y := by
      ext z
      simp only [awaited, Finset.mem_filter, Finset.mem_erase, Finset.mem_range,
        mem_placePhi (hsize ▸ hy), true_and, not_or]
      tauto
    unfold visitsLeft
    rw [herase, placePhi_of_not_mem hold]
    by_cases hdef : t ∈ defs.getD y ∅
    · have hnot : y ∉ g.awaited defs t s.1 := fun h => (Finset.mem_filter.1 h).2.2 hdef
      rw [Finset.erase_eq_of_notMem hnot, if_pos hdef]
    · have hmem : y ∈ g.awaited defs t s.1 :=
        Finset.mem_filter.2 ⟨Finset.mem_range.2 hy, hold, hdef⟩
      have hcard := Finset.card_erase_add_one hmem
      rw [if_neg hdef, List.length_append, List.length_singleton]
      omega

theorem visitsLeft_foldl_placePhi (hsize : s.1.size = g.size) (hys : ∀ y ∈ ys, y < g.size) :
    g.visitsLeft defs t (ys.foldl (placePhi defs t) s) = g.visitsLeft defs t s := by
  induction ys generalizing s with
  | nil => rfl
  | cons y ys ih =>
    rw [List.foldl_cons, ih (by rw [size_placePhi, hsize]) fun y' hy' =>
      hys y' (List.mem_cons_of_mem y hy'), visitsLeft_placePhi hsize (hys y List.mem_cons_self)]

theorem mem_sites : n ∈ g.sites defs t ↔ n < g.size ∧ t ∈ defs.getD n ∅ := by
  rw [sites, List.mem_filter, Layout.indices, List.mem_range, TempSet.contains_iff]
  exact Iff.rfl

/-- The fuel is enough for the blocks that wait at first and those that may wait later. -/
theorem visitsLeft_start : g.visitsLeft defs t (phis, g.sites defs t) ≤ g.size := by
  have hsites : (g.sites defs t).length =
      ((Finset.range g.size).filter fun i => t ∈ defs.getD i ∅).card := by
    have hnodup : (g.sites defs t).Nodup := List.nodup_range.filter _
    rw [← List.toFinset_card_of_nodup hnodup]
    congr 1
    ext i
    rw [List.mem_toFinset, mem_sites, Finset.mem_filter, Finset.mem_range]
  have hrest : (g.awaited defs t phis).card ≤
      ((Finset.range g.size).filter fun i => ¬ t ∈ defs.getD i ∅).card := by
    refine Finset.card_le_card fun i hi => ?_
    obtain ⟨hlt, _, hdef⟩ := Finset.mem_filter.1 hi
    exact Finset.mem_filter.2 ⟨hlt, hdef⟩
  calc g.visitsLeft defs t (phis, g.sites defs t)
      ≤ ((Finset.range g.size).filter fun i => t ∈ defs.getD i ∅).card +
          ((Finset.range g.size).filter fun i => ¬ t ∈ defs.getD i ∅).card :=
        Nat.add_le_add hsites.le hrest
    _ = g.size := by rw [Finset.card_filter_add_card_filter_not, Finset.card_range]

/-! ## All visits for one temporary -/

/-- The blocks whose set has `t`. -/
def blocksWith (sets : Array TempSet) (t : Int64) : Set Nat := {y | t ∈ sets.getD y ∅}

/-- What holds between two visits, when the phi nodes `phis` were there before. -/
structure Placing (g : Graph) (defs : Array TempSet) (t : Int64) (phis : Array TempSet)
    (s : Array TempSet × List Nat) : Prop where
  size : s.1.size = g.size
  waiting : ∀ n ∈ s.2, n < g.size ∧ n ∈ blocksWith defs t ∪ blocksWith s.1 t
  /-- The phi nodes of other temporaries stay as they were. -/
  others : ∀ u ≠ t, ∀ y, u ∈ s.1.getD y ∅ ↔ u ∈ phis.getD y ∅
  /-- A block that does not wait has been visited. -/
  settled : ∀ n ∈ blocksWith defs t ∪ blocksWith s.1 t, n ∉ s.2 →
    ∀ y, g.layout.InFrontier n y → y ∈ blocksWith s.1 t
  /-- No block has a phi node that it does not need. -/
  least : ∀ S, g.layout.JoinClosed (blocksWith defs t) S → blocksWith s.1 t ⊆ S

section Placing

variable {o : Options} {code : List Instr} (hbuilt : Built o code g)
include hbuilt

theorem Built.lt_of_mem_frontier (hn : n < g.size) (hy : y ∈ g.dominance.frontier.getD n []) :
    y < g.size :=
  (((hbuilt.frontierCell hn).mem_iff y).1 hy).lt hbuilt.wellFormed

theorem placing_visit (h : Placing g defs t phis (now, n :: queue)) :
    Placing g defs t phis (g.visitSite defs t (now, queue) n) := by
  obtain ⟨hn, hneeds⟩ := h.waiting n List.mem_cons_self
  have hys : ∀ y ∈ g.dominance.frontier.getD n [], y < (now, queue).1.size := fun y hy =>
    h.size.symm ▸ hbuilt.lt_of_mem_frontier hn hy
  have hmem : ∀ u z, u ∈ (g.visitSite defs t (now, queue) n).1.getD z ∅ ↔
      u ∈ now.getD z ∅ ∨ (u = t ∧ g.layout.InFrontier n z) := by
    intro u z
    rw [visitSite, mem_foldl_placePhi hys, (hbuilt.frontierCell hn).mem_iff]
  have hqueue : ∀ z, z ∈ (g.visitSite defs t (now, queue) n).2 ↔ z ∈ queue ∨
      (g.layout.InFrontier n z ∧ t ∉ now.getD z ∅ ∧ t ∉ defs.getD z ∅) := by
    intro z
    rw [visitSite, mem_queue_foldl_placePhi hys, (hbuilt.frontierCell hn).mem_iff]
  have hplaced : blocksWith (g.visitSite defs t (now, queue) n).1 t =
      blocksWith now t ∪ {z | g.layout.InFrontier n z} := by
    ext z
    exact (hmem t z).trans (or_congr_right (and_iff_right rfl))
  constructor
  · rw [visitSite, size_foldl_placePhi]
    exact h.size
  · intro m hm
    rw [hplaced]
    rcases (hqueue m).1 hm with hold | ⟨hnew, _⟩
    · obtain ⟨hlt, hdef⟩ := h.waiting m (List.mem_cons_of_mem n hold)
      exact ⟨hlt, hdef.imp_right .inl⟩
    · exact ⟨hnew.lt hbuilt.wellFormed, .inr (.inr hnew)⟩
  · intro u hu y
    rw [hmem, or_iff_left fun hnew => hu hnew.1]
    exact h.others u hu y
  · intro m hm hdone y hy
    rw [hplaced] at hm ⊢
    rw [hqueue, not_or] at hdone
    by_cases hmn : m = n
    · exact .inr (hmn ▸ hy)
    · -- no phi node of this visit is new to the block, or it would wait now
      have hold : m ∈ blocksWith defs t ∪ blocksWith now t := by
        by_contra hnot
        obtain ⟨hdef, hphi⟩ := not_or.1 hnot
        exact hdone.2 ⟨(hm.resolve_left hdef).resolve_left hphi, hphi, hdef⟩
      have hvisited : m ∉ n :: queue := List.not_mem_cons_of_ne_of_not_mem hmn hdone.1
      exact .inl (h.settled m hold hvisited y hy)
  · intro S hS
    rw [hplaced]
    refine Set.union_subset (h.least S hS) fun y hy => ?_
    exact hS n (hneeds.imp_right (h.least S hS ·)) y hy

theorem visitsLeft_visit (h : Placing g defs t phis (now, n :: queue)) :
    g.visitsLeft defs t (g.visitSite defs t (now, queue) n) <
      g.visitsLeft defs t (now, n :: queue) := by
  obtain ⟨hn, _⟩ := h.waiting n List.mem_cons_self
  have hsize : (now, queue).1.size = g.size := h.size
  rw [visitSite, visitsLeft_foldl_placePhi hsize fun y hy => hbuilt.lt_of_mem_frontier hn hy]
  simp only [visitsLeft, List.length_cons]
  omega

/-- Before the first visit the blocks that define the temporary wait. -/
theorem placing_start (hsize : phis.size = g.size) (hnone : ∀ y, t ∉ phis.getD y ∅) :
    Placing g defs t phis (phis, g.sites defs t) := by
  have hempty : blocksWith phis t = ∅ := Set.eq_empty_iff_forall_notMem.2 hnone
  constructor
  · exact hsize
  · intro n hn
    obtain ⟨hlt, hdef⟩ := mem_sites.1 hn
    exact ⟨hlt, .inl hdef⟩
  · exact fun _ _ _ => Iff.rfl
  · intro n hn hdone y hy
    rw [hempty, Set.union_empty] at hn
    exact absurd (mem_sites.2 ⟨hy.source_lt hbuilt.wellFormed, hn⟩) hdone
  · intro S _
    rw [hempty]
    exact Set.empty_subset S

/-- The visits go on until no block waits. -/
theorem placing_placePhis (hsize : phis.size = g.size) (hnone : ∀ y, t ∉ phis.getD y ∅) :
    Placing g defs t phis (g.placePhis defs phis t, []) := by
  have hstart : Placing g defs t phis (phis, g.sites defs t) := placing_start hbuilt hsize hnone
  have hend : Placing g defs t phis
      (Worklist.run (g.visitSite defs t) g.size (phis, g.sites defs t)) :=
    Worklist.run_induction (fun _ _ _ h => placing_visit hbuilt h) hstart
  have hdrained := Worklist.run_drains (g.visitsLeft defs t)
    (fun _ _ _ h => ⟨placing_visit hbuilt h, visitsLeft_visit hbuilt h⟩) hstart visitsLeft_start
  rw [← hdrained]
  exact hend

/-! ## All temporaries -/

theorem iteratedFrontier_placePhis (hsize : phis.size = g.size) (hnone : ∀ y, t ∉ phis.getD y ∅) :
    g.layout.IteratedFrontier (blocksWith defs t) (blocksWith (g.placePhis defs phis t) t) := by
  have h : Placing g defs t phis (g.placePhis defs phis t, []) :=
    placing_placePhis hbuilt hsize hnone
  exact ⟨fun n hn y hy => h.settled n hn List.not_mem_nil y hy, fun S hS => h.least S hS⟩

/-- The temporaries are treated one after the other, and none of them again. -/
theorem iteratedFrontier_foldl {ts : List Int64} (hts : ts.Nodup) (hsize : phis.size = g.size)
    (hnone : ∀ u ∈ ts, ∀ y, u ∉ phis.getD y ∅) :
    (∀ u ∉ ts, blocksWith (ts.foldl (g.placePhis defs) phis) u = blocksWith phis u) ∧
      ∀ u ∈ ts, g.layout.IteratedFrontier (blocksWith defs u)
        (blocksWith (ts.foldl (g.placePhis defs) phis) u) := by
  induction ts generalizing phis with
  | nil => simp
  | cons t ts ih =>
    obtain ⟨hnot, hnodup⟩ := List.nodup_cons.1 hts
    have hfirst := hnone t List.mem_cons_self
    have h : Placing g defs t phis (g.placePhis defs phis t, []) :=
      placing_placePhis hbuilt hsize hfirst
    have hothers : ∀ u ≠ t, blocksWith (g.placePhis defs phis t) u = blocksWith phis u := by
      intro u hu
      ext y
      exact h.others u hu y
    obtain ⟨hsame, hrest⟩ := ih hnodup h.size fun u hu y => by
      have hut : u ≠ t := fun heq => hnot (heq ▸ hu)
      exact mt (h.others u hut y).1 (hnone u (List.mem_cons_of_mem t hu) y)
    rw [List.foldl_cons]
    constructor
    · intro u hu
      rw [List.mem_cons, not_or] at hu
      rw [hsame u hu.2, hothers u hu.1]
    · intro u hu
      rcases List.mem_cons.1 hu with rfl | hu
      · rw [hsame u hnot]
        exact iteratedFrontier_placePhis hbuilt hsize hfirst
      · exact hrest u hu

theorem Built.iteratedFrontier_phis (ht : t ∈ g.temps) :
    g.layout.IteratedFrontier (blocksWith defs t) (blocksWith (g.phis defs) t) := by
  refine (iteratedFrontier_foldl hbuilt g.temps.nodup (by simp) fun u _ y => ?_).2 t ht
  rw [Array.getD_eq_getD_getElem?, Array.getElem?_replicate]
  split
  · exact TempSet.not_mem_empty
  · exact TempSet.not_mem_empty

end Placing

/-- The phi nodes for a temporary are at the iterated frontier of the blocks that define it.  So
there is one wherever two ways from such blocks meet that have only their end in common. -/
theorem iteratedFrontier_of_build {o : Options} {code : List Instr} (h : build o code = .ok g)
    (ht : t ∈ g.temps) :
    g.layout.IteratedFrontier (blocksWith (Study.definitions.run { graph := g }).1 t)
        (blocksWith (Study.phis.run { graph := g }).1 t) ∧
      ∀ x ∈ blocksWith (Study.definitions.run { graph := g }).1 t,
        ∀ y ∈ blocksWith (Study.definitions.run { graph := g }).1 t, x ≠ y → ∀ xs ys z,
          g.layout.Way x xs z → g.layout.Way y ys z → xs ≠ [] → ys ≠ [] →
            (∀ b ∈ xs ++ [z], b ∈ ys ++ [z] → b = z) →
              z ∈ blocksWith (Study.phis.run { graph := g }).1 t := by
  have hbuilt := built_of_build h
  have hfrontier : g.layout.IteratedFrontier
      (blocksWith (Study.definitions.run { graph := g }).1 t)
      (blocksWith (Study.phis.run { graph := g }).1 t) := hbuilt.iteratedFrontier_phis ht
  refine ⟨hfrontier, fun x hx y hy _ xs ys z hxway hyway hxs hys hapart => ?_⟩
  exact hfrontier.1.mem_of_meet hbuilt.wellFormed hx hy hxway hyway hxs hys hapart

/-- A temporary that is stored before a loop and in the loop. -/
def storedAgain : List Instr :=
  [.number 1, .tstore .int32 0, .target 1, .tload .int32 0, .tstore .int32 0, .number 1,
    .branch 1 true, .ret .void]

/-- The ways from the two definitions meet at the start of the loop. -/
theorem iteratedFrontier_storedAgain :
    ∃ g, build (Defaults.options {}) storedAgain = .ok g ∧ 0 ∈ g.temps ∧
      0 ∈ blocksWith (Study.definitions.run { graph := g }).1 0 ∧
      1 ∈ blocksWith (Study.definitions.run { graph := g }).1 0 ∧
      g.layout.Way 0 [0] 1 ∧ g.layout.Way 1 [1] 1 ∧
      1 ∈ blocksWith (Study.phis.run { graph := g }).1 0 := by
  obtain ⟨g, hbuild, hfacts⟩ := exists_ok_of_any
    (x := build (Defaults.options {}) storedAgain)
    (P := fun g => g.temps.contains 0 &&
      ((Study.definitions.run { graph := g }).1.getD 0 ∅).contains 0 &&
      ((Study.definitions.run { graph := g }).1.getD 1 ∅).contains 0 &&
      (g.layout.succ 0).contains 1 && (g.layout.succ 1).contains 1)
    (by cbv)
  simp only [Bool.and_eq_true, TempSet.contains_iff, List.contains_iff_mem] at hfacts
  obtain ⟨⟨⟨⟨htemp, hbefore⟩, hagain⟩, hinto⟩, hback⟩ := hfacts
  have hfirst : g.layout.Way 0 [0] 1 := .step .refl hinto
  have hsecond : g.layout.Way 1 [1] 1 := .step .refl hback
  refine ⟨g, hbuild, htemp, hbefore, hagain, hfirst, hsecond, ?_⟩
  exact (iteratedFrontier_of_build hbuild htemp).2 0 hbefore 1 hagain (by decide) [0] [1] 1
    hfirst hsecond (by decide) (by decide) (by decide)

end Graph

end StackFlow
