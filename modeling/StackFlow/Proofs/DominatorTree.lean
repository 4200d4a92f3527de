import StackFlow.Proofs.Dominators

/-!
# The dominator tree

The tree is read off the sizes of the sets: the parent of a block is the dominator with exactly
one dominator less.

* `Layout.ClosestDominator` is what a parent is meant to be, and `Layout.dominators` the set of
  all dominators of a block.  The sets shrink strictly on the way up (`card_dominators_lt`).
* `closestDominator_iff_card` says why counting is right: the dominators of a block form a chain,
  so one dominator less means that none lies between.  `exists_closestDominator` finds the closest
  one at the place where the sets are largest.
* `Dominance.parentIn_eq_some_iff` says that the search by size finds the closest one.
* `Dominance.parent_foldl_hang` and `Dominance.children_foldl_hang` follow the loop that hangs the
  blocks below their parents, and `Dominance.parent_tree` and `Dominance.mem_children_tree` say
  what it ends with: every block but the entry has been given its parent.
* `Dominance.Tree` puts together what makes the parents a tree, and
  `Graph.dominatorTree_of_build` is the main result: every graph that is built has such a tree,
  and going up from a block passes through exactly its dominators.
-/

namespace StackFlow

open Relation

namespace Layout

variable {layout : Layout} {d e n : Nat}

/-- Block `d` strictly dominates block `n`, and all that strictly dominates `n` dominates `d`. -/
structure ClosestDominator (layout : Layout) (d n : Nat) : Prop where
  strict : layout.StrictlyDominates d n
  closest : ∀ e, layout.StrictlyDominates e n → layout.Dominates e d

theorem ClosestDominator.unique (hwf : layout.WellFormed) (hn : n < layout.size)
    (hd : layout.ClosestDominator d n) (he : layout.ClosestDominator e n) : d = e := by
  have hlt : e < layout.size := he.strict.2.lt hwf hn
  exact (he.closest d hd.strict).antisymm hwf hlt (hd.closest e he.strict)

theorem not_closestDominator_entry : ¬ layout.ClosestDominator d 0 := fun h =>
  h.strict.1 h.strict.2.eq_entry

/-! ## Counting dominators -/

open Classical in
/-- The blocks that dominate block `n`. -/
noncomputable def dominators (layout : Layout) (n : Nat) : Finset Nat :=
  (Finset.range layout.size).filter fun d => layout.Dominates d n

theorem mem_dominators (hwf : layout.WellFormed) (hn : n < layout.size) :
    d ∈ layout.dominators n ↔ layout.Dominates d n := by
  classical
  rw [dominators, Finset.mem_filter, Finset.mem_range]
  exact and_iff_right_of_imp fun h => h.lt hwf hn

/-- What dominates a strict dominator of a block dominates the block and is not the block. -/
theorem dominators_subset_erase (hwf : layout.WellFormed) (hn : n < layout.size)
    (h : layout.StrictlyDominates d n) :
    layout.dominators d ⊆ (layout.dominators n).erase n := by
  have hd : d < layout.size := h.2.lt hwf hn
  intro e he
  have hed : layout.Dominates e d := (mem_dominators hwf hd).1 he
  rw [Finset.mem_erase, mem_dominators hwf hn]
  refine ⟨?_, hed.trans h.2⟩
  intro heq
  subst heq
  exact h.1 (h.2.antisymm hwf hn hed)

theorem card_erase_dominators (hwf : layout.WellFormed) (hn : n < layout.size) :
    ((layout.dominators n).erase n).card + 1 = (layout.dominators n).card :=
  Finset.card_erase_add_one ((mem_dominators hwf hn).2 (.refl layout n))

/-- A strict dominator of a block has fewer dominators. -/
theorem card_dominators_lt (hwf : layout.WellFormed) (hn : n < layout.size)
    (h : layout.StrictlyDominates d n) :
    (layout.dominators d).card < (layout.dominators n).card := by
  have hle := Finset.card_le_card (dominators_subset_erase hwf hn h)
  have hcard := card_erase_dominators hwf hn
  omega

/-- A strict dominator is the closest one exactly if it has one dominator less. -/
theorem closestDominator_iff_card (hwf : layout.WellFormed) (hn : n < layout.size)
    (h : layout.StrictlyDominates d n) : layout.ClosestDominator d n ↔
      (layout.dominators d).card + 1 = (layout.dominators n).card := by
  have hd : d < layout.size := h.2.lt hwf hn
  have hsub := dominators_subset_erase hwf hn h
  have hcard := card_erase_dominators hwf hn
  constructor
  · intro hclosest
    have hsub' : (layout.dominators n).erase n ⊆ layout.dominators d := by
      intro e he
      rw [Finset.mem_erase, mem_dominators hwf hn] at he
      exact (mem_dominators hwf hd).2 (hclosest.closest e he)
    rw [Finset.Subset.antisymm hsub hsub']
    exact hcard
  · intro hcount
    -- both sets have the same size, so nothing is missing below
    have heq := Finset.eq_of_subset_of_card_le hsub (by omega)
    refine ⟨h, fun e he => ?_⟩
    rw [← mem_dominators hwf hd, heq, Finset.mem_erase, mem_dominators hwf hn]
    exact he

/-- Every block but the entry has a closest dominator: the one with most dominators. -/
theorem exists_closestDominator (hwf : layout.WellFormed) (hn : n < layout.size) (h0 : n ≠ 0) :
    ∃ d, layout.ClosestDominator d n := by
  have hmem : ∀ e, e ∈ (layout.dominators n).erase n ↔ layout.StrictlyDominates e n := by
    intro e
    rw [Finset.mem_erase, mem_dominators hwf hn]
    exact Iff.rfl
  have hentry : 0 ∈ (layout.dominators n).erase n :=
    (hmem 0).2 ⟨Ne.symm h0, dominates_entry layout n⟩
  obtain ⟨d, hd, hmost⟩ := Finset.exists_max_image ((layout.dominators n).erase n)
    (fun e => (layout.dominators e).card) ⟨0, hentry⟩
  have hstrict := (hmem d).1 hd
  refine ⟨d, hstrict, fun e he => ?_⟩
  rcases Dominates.total hwf hn he.2 hstrict.2 with hed | hde
  · exact hed
  · by_cases heq : d = e
    · subst heq
      exact hde
    · have hlt := card_dominators_lt hwf (he.2.lt hwf hn) ⟨heq, hde⟩
      have hle := hmost e ((hmem e).2 he)
      omega

end Layout

/-- The size of a set is the number of its members. -/
theorem BlockSet.card_eq {s : BlockSet} {members : Finset Nat}
    (h : ∀ i, i ∈ members ↔ s.contains i = true) : s.card = members.card := by
  have hnodup : s.toList.Nodup := s.sorted_toList.imp Nat.ne_of_lt
  have hlist : s.toList.toFinset = members := by
    ext i
    rw [List.mem_toFinset, mem_toList, h]
  rw [card_eq_length, ← hlist, List.toFinset_card_of_nodup hnodup]

/-! ## What is read off the sets -/

namespace Dominance

variable {layout : Layout} {sets : Array BlockSet} {d i n : Nat}

theorem Exact.card_eq (h : Exact layout sets) (hwf : layout.WellFormed) (hn : n < layout.size) :
    (sets.map (·.card)).getD n 0 = (layout.dominators n).card := by
  have hsize : n < sets.size := h.size_eq ▸ hn
  have hcell : (sets.map (·.card)).getD n 0 = (sets.getD n default).card := by simp [hsize]
  rw [hcell]
  apply BlockSet.card_eq
  intro d
  rw [h.contains_iff hwf hn, Layout.mem_dominators hwf hn]

/-- The parent that is found is the closest strict dominator. -/
theorem parentIn_eq_some_iff (h : Exact layout sets) (hwf : layout.WellFormed)
    (hn : n < layout.size) :
    parentIn sets (sets.map (·.card)) n = some d ↔ layout.ClosestDominator d n := by
  -- the test on sizes, as it is meant
  have htest : ∀ e, e ∈ (sets.getD n default).toList →
      ((decide (e ≠ n) && decide ((sets.map (·.card)).getD e 0 + 1 =
        (sets.map (·.card)).getD n 0)) = true ↔ layout.ClosestDominator e n) := by
    intro e he
    have hdom : layout.Dominates e n := (h.contains_iff hwf hn).1 (BlockSet.mem_toList.1 he)
    rw [Bool.and_eq_true, decide_eq_true_eq, decide_eq_true_eq,
      h.card_eq hwf (hdom.lt hwf hn), h.card_eq hwf hn]
    constructor
    · intro hcount
      exact (Layout.closestDominator_iff_card hwf hn ⟨hcount.1, hdom⟩).2 hcount.2
    · intro hclosest
      exact ⟨hclosest.strict.1,
        (Layout.closestDominator_iff_card hwf hn hclosest.strict).1 hclosest⟩
  have hfound : ∀ {e}, parentIn sets (sets.map (·.card)) n = some e →
      layout.ClosestDominator e n := by
    intro e he
    rw [parentIn] at he
    exact (htest e (List.mem_of_find?_eq_some he)).1 (by simpa using List.find?_some he)
  constructor
  · exact hfound
  · intro hclosest
    have hmem : d ∈ (sets.getD n default).toList :=
      BlockSet.mem_toList.2 ((h.contains_iff hwf hn).2 hclosest.strict.2)
    cases hparent : parentIn sets (sets.map (·.card)) n with
    | none => exact absurd ((htest d hmem).2 hclosest) (List.find?_eq_none.1 hparent d hmem)
    | some e => rw [(hfound hparent).unique hwf hn hclosest]

/-! ## Hanging blocks below others -/

section Hang

variable {sizes : Array Nat} {is : List Nat} {t : DominatorTree}

@[simp] theorem size_parent_hang : (hang sets sizes t i).parent.size = t.parent.size := by
  unfold hang
  split
  · exact Array.size_setIfInBounds
  · rfl

@[simp] theorem size_children_hang : (hang sets sizes t i).children.size = t.children.size := by
  unfold hang
  split
  · exact Array.size_setIfInBounds
  · rfl

theorem parent_hang (hi : i < t.parent.size) : (hang sets sizes t i).parent.getD n none =
    if i = n then (parentIn sets sizes n).or (t.parent.getD n none) else t.parent.getD n none := by
  by_cases hin : i = n
  · subst hin
    unfold hang
    cases parentIn sets sizes i with
    | none => simp
    | some d => simp [Rounds.getD_setIfInBounds hi]
  · unfold hang
    cases parentIn sets sizes i with
    | none => simp [hin]
    | some d => simp [Rounds.getD_setIfInBounds hi, hin]

theorem children_hang (hd : d < t.children.size) : (hang sets sizes t i).children.getD d [] =
    t.children.getD d [] ++ [i].filter fun i => parentIn sets sizes i = some d := by
  unfold hang
  cases hparent : parentIn sets sizes i with
  | none => simp [hparent]
  | some e =>
    by_cases hed : e = d
    · subst hed
      simp [hparent, Rounds.getD_setIfInBounds hd]
    · simp [hparent, hed]

/-- The blocks that have been visited have the parents that were found for them. -/
theorem parent_foldl_hang (his : ∀ i ∈ is, i < t.parent.size) :
    (is.foldl (hang sets sizes) t).parent.getD n none =
      if n ∈ is then (parentIn sets sizes n).or (t.parent.getD n none)
      else t.parent.getD n none := by
  induction is generalizing t with
  | nil => simp
  | cons i is ih =>
    rw [List.forall_mem_cons] at his
    rw [List.foldl_cons, ih (by simpa using his.2), parent_hang his.1]
    by_cases hin : i = n
    · subst hin
      simp [← Option.or_assoc]
    · simp [hin, Ne.symm hin]

/-- Below a block hang those of the visited blocks that it was found for. -/
theorem children_foldl_hang (hd : d < t.children.size) :
    (is.foldl (hang sets sizes) t).children.getD d [] =
      t.children.getD d [] ++ is.filter fun i => parentIn sets sizes i = some d := by
  induction is generalizing t with
  | nil => simp
  | cons i is ih =>
    rw [List.foldl_cons, ih (by simpa using hd), children_hang hd, List.append_assoc,
      ← List.filter_append, List.singleton_append]

end Hang

theorem parent_bare {k : Nat} :
    (bare k).parent.getD n none = if 0 < n ∧ n < k then some 0 else none := by
  rw [bare, Array.getD_eq_getD_getElem?, Array.getElem?_setIfInBounds]
  rcases Nat.eq_zero_or_pos n with hzero | hpos
  · subst hzero
    by_cases hk : 0 < k
    · simp [hk]
    · simp [hk]
  · by_cases hn : n < k
    · simp [hpos, hn, Nat.ne_of_lt hpos]
    · simp [hn, Nat.ne_of_lt hpos]

/-- Every block but the entry gets its parent: none keeps the one that it started with. -/
theorem parent_tree (h : Exact layout sets) (hwf : layout.WellFormed) :
    (tree layout sets).parent.getD n none = some d ↔
      n < layout.size ∧ layout.ClosestDominator d n := by
  have hsize : ∀ i ∈ layout.indices.drop 1, i < (bare layout.size).parent.size := by
    intro i hi
    simpa [bare] using (Layout.mem_drop_indices.1 hi).2
  rw [tree, parent_foldl_hang hsize, parent_bare]
  simp only [Layout.mem_drop_indices]
  by_cases hvisited : 0 < n ∧ n < layout.size
  · obtain ⟨e, he⟩ := Layout.exists_closestDominator hwf hvisited.2 (Nat.ne_of_gt hvisited.1)
    have hfound := (parentIn_eq_some_iff h hwf hvisited.2).2 he
    rw [if_pos hvisited, hfound, Option.some_or, ← hfound,
      parentIn_eq_some_iff h hwf hvisited.2, and_iff_right hvisited.2]
  · rw [if_neg hvisited]
    refine iff_of_false (by simp [hvisited]) fun hclosest => ?_
    have h0 : n = 0 := by omega
    subst h0
    exact Layout.not_closestDominator_entry hclosest.2

theorem size_children_tree : (tree layout sets).children.size = layout.size := by
  have hfold : ∀ (is : List Nat) (t : DominatorTree),
      (is.foldl (hang sets (sets.map (·.card))) t).children.size = t.children.size := by
    intro is
    induction is with
    | nil => exact fun _ => rfl
    | cons i is ih => exact fun t => (ih _).trans size_children_hang
  rw [tree, hfold, bare, Array.size_replicate]

theorem children_tree (hd : d < layout.size) : (tree layout sets).children.getD d [] =
    (layout.indices.drop 1).filter fun i => parentIn sets (sets.map (·.card)) i = some d := by
  have hbare : (bare layout.size).children.getD d [] = [] := by simp [bare, hd]
  rw [tree, children_foldl_hang (by simpa [bare] using hd), hbare, List.nil_append]

theorem children_tree_of_le (hd : layout.size ≤ d) :
    (tree layout sets).children.getD d [] = [] := by
  simp [size_children_tree, hd]

theorem mem_children_tree (h : Exact layout sets) (hwf : layout.WellFormed) :
    i ∈ (tree layout sets).children.getD d [] ↔
      i < layout.size ∧ layout.ClosestDominator d i := by
  rcases Nat.lt_or_ge d layout.size with hd | hd
  · rw [children_tree hd, List.mem_filter, Layout.mem_drop_indices, decide_eq_true_eq]
    constructor
    · intro hfound
      exact ⟨hfound.1.2, (parentIn_eq_some_iff h hwf hfound.1.2).1 hfound.2⟩
    · intro hclosest
      have h0 : i ≠ 0 := fun hzero => Layout.not_closestDominator_entry (hzero ▸ hclosest.2)
      exact ⟨⟨Nat.pos_of_ne_zero h0, hclosest.1⟩,
        (parentIn_eq_some_iff h hwf hclosest.1).2 hclosest.2⟩
  · rw [children_tree_of_le hd]
    refine iff_of_false List.not_mem_nil fun hclosest => ?_
    exact Nat.not_lt_of_ge hd (hclosest.2.strict.2.lt hwf hclosest.1)

theorem nodup_children_tree : ((tree layout sets).children.getD d []).Nodup := by
  rcases Nat.lt_or_ge d layout.size with hd | hd
  · rw [children_tree hd]
    exact (List.nodup_range.sublist (List.drop_sublist 1 _)).filter _
  · rw [children_tree_of_le hd]
    exact List.nodup_nil

/-! ## The tree -/

/-- One step up: block `d` is the parent of block `n`. -/
def Up (t : Dominance) (n d : Nat) : Prop := t.parent.getD n none = some d

/-- The parents of the blocks form a tree: that of the dominators. -/
structure Tree (layout : Layout) (t : Dominance) : Prop where
  /-- The entry is the root. -/
  parent_entry : t.parent.getD 0 none = none
  parent_closest : ∀ n < layout.size, n ≠ 0 → ∃ d, t.parent.getD n none = some d ∧
    layout.ClosestDominator d n
  mem_children : ∀ d i, i ∈ t.children.getD d [] ↔ t.parent.getD i none = some d
  /-- The tree spans all blocks. -/
  reaches_entry : ∀ n < layout.size, ReflTransGen t.Up n 0
  /-- Going up from a block passes through its dominators. -/
  ancestor_iff : ∀ n < layout.size, ∀ d, ReflTransGen t.Up n d ↔ layout.Dominates d n

/-- The parents are the closest strict dominators, so going up passes through all dominators. -/
theorem reflTransGen_up_iff {t : Dominance} (hwf : layout.WellFormed)
    (hup : ∀ n d, t.Up n d ↔ n < layout.size ∧ layout.ClosestDominator d n)
    (hn : n < layout.size) : ReflTransGen t.Up n d ↔ layout.Dominates d n := by
  constructor
  · intro hway
    clear hn
    induction hway with
    | refl => exact .refl layout n
    | tail _ step ih => exact ((hup _ _).1 step).2.strict.2.trans ih
  · -- the induction is on the number of dominators, which gets less with each step up
    intro hdom
    induction hk : (layout.dominators n).card using Nat.strongRecOn generalizing n with
    | ind k ih =>
      by_cases hdn : d = n
      · exact hdn ▸ .refl
      · have h0 : n ≠ 0 := fun hzero => hdn (hzero ▸ (hzero ▸ hdom).eq_entry)
        obtain ⟨e, hclosest⟩ := Layout.exists_closestDominator hwf hn h0
        have he : e < layout.size := hclosest.strict.2.lt hwf hn
        have hless := Layout.card_dominators_lt hwf hn hclosest.strict
        exact .head ((hup n e).2 ⟨hn, hclosest⟩)
          (ih _ (hk ▸ hless) he (hclosest.closest d ⟨hdn, hdom⟩) rfl)

theorem tree_ofSets (h : Exact layout sets) (hwf : layout.WellFormed) :
    Tree layout (ofSets layout sets) := by
  have hup : ∀ n d, (ofSets layout sets).Up n d ↔
      n < layout.size ∧ layout.ClosestDominator d n := fun _ _ => parent_tree h hwf
  refine ⟨?_, ?_, ?_, ?_, fun n hn d => reflTransGen_up_iff hwf hup hn⟩
  · refine Option.eq_none_iff_forall_ne_some.2 fun d hparent => ?_
    exact Layout.not_closestDominator_entry ((hup 0 d).1 hparent).2
  · intro n hn h0
    obtain ⟨d, hclosest⟩ := Layout.exists_closestDominator hwf hn h0
    exact ⟨d, (hup n d).2 ⟨hn, hclosest⟩, hclosest⟩
  · intro d i
    exact (mem_children_tree h hwf).trans (hup i d).symm
  · intro n hn
    exact (reflTransGen_up_iff hwf hup hn).2 (Layout.dominates_entry _ n)

end Dominance

namespace Graph

variable {o : Options} {code : List Instr} {g : Graph}

/-- The parents that are found for the blocks of a graph form a tree with the entry at its root.
The parent of any other block is its closest strict dominator, the children are the blocks with
that parent, and going up from a block passes through exactly its dominators. -/
theorem dominatorTree_of_build (h : build o code = .ok g) : g.dominance.Tree g.layout := by
  have hbuilt := built_of_build h
  obtain ⟨hexact, hdominance⟩ := hbuilt.dominance_spec
  rw [hdominance]
  exact Dominance.tree_ofSets hexact hbuilt.wellFormed

/-- The way out of a loop with two entries hangs below the block that it leaves, and that block
below the entry. -/
theorem dominatorTree_of_build_twoWayLoop :
    ∃ g, build (Defaults.options {}) twoWayLoop = .ok g ∧ g.dominance.Tree g.layout ∧
      g.layout.ClosestDominator 3 4 ∧ g.layout.ClosestDominator 0 3 := by
  obtain ⟨g, hbuild, hsize, _, hparent, _⟩ := exists_twoWayLoop
  have htree := dominatorTree_of_build hbuild
  have hclosest : ∀ n d, n < 5 → n ≠ 0 → g.dominance.parent.getD n none = some d →
      g.layout.ClosestDominator d n := by
    intro n d hn h0 hd
    obtain ⟨e, he, hclosest⟩ := htree.parent_closest n (Nat.lt_of_lt_of_eq hn hsize.symm) h0
    rw [hd, Option.some_inj] at he
    exact he ▸ hclosest
  refine ⟨g, hbuild, htree, hclosest 4 3 (by omega) (by omega) ?_,
    hclosest 3 0 (by omega) (by omega) ?_⟩
  · rw [hparent]
    rfl
  · rw [hparent]
    rfl

end Graph

end StackFlow
