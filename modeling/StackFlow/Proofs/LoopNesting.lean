import StackFlow.Proofs.NaturalLoops

/-!
# The tree of loops

* `LoopNest.Nested` is a tree in which the loops below a loop lie in its body and have no block in
  common.  Such a tree holds every block of its loop once (`Nested.perm_held`), and at the depth
  that says how many of the loops below the root the block is in (`Nested.mem_depths`).
* `LoopNest.Gathered` is what is kept while loops are added to the trees, smaller ones first.
  `gathered_adopt` is one loop.  It needs that the loop takes in a loop added before or has no block
  in common with it (`Loop.Over`).
* `Layout.LoopTree` says what the tree of a graph is meant to be, and `Graph.loopTree_of_build` is
  the main result.
-/

namespace StackFlow

/-! ## Loops -/

namespace Loop

variable {layout : Layout} {l m : Loop} {b : Nat}

/-- The blocks of a loop, the header first. -/
def blocks (l : Loop) : List Nat := l.header :: l.body.filter (· ≠ l.header)

@[simp] theorem mem_blocks : b ∈ l.blocks ↔ b = l.header ∨ b ∈ l.body := by
  simp only [blocks, List.mem_cons, List.mem_filter, decide_eq_true_eq]
  tauto

theorem nodup_blocks (h : l.body.Nodup) : l.blocks.Nodup := by
  refine List.nodup_cons.2 ⟨?_, h.filter _⟩
  simp

/-- A loop is over one that was found before if it takes it in or has no block in common
with it. -/
def Over (m l : Loop) : Prop :=
  if m.header ∈ l.body then m.blocks ⊆ l.body else m.blocks.Disjoint l.blocks

section Fits

theorem Fits.nodup (h : l.Fits layout) : l.body.Nodup :=
  h.sorted.imp Nat.ne_of_lt

theorem Fits.header_not_mem (h : l.Fits layout) : l.header ∉ l.body :=
  fun hmem => ((h.mem_body _).1 hmem).1 rfl

theorem Fits.mem_blocks_iff (h : l.Fits layout) : b ∈ l.blocks ↔ b ∈ layout.loopOf l.header := by
  rw [mem_blocks, h.mem_body]
  constructor
  · intro hb
    rcases hb with heq | ⟨_, hmem⟩
    · exact heq ▸ layout.mem_loopOf_self l.header
    · exact hmem
  · intro hmem
    by_cases heq : b = l.header
    · exact .inl heq
    · exact .inr ⟨heq, hmem⟩

theorem Fits.length_blocks (h : l.Fits layout) : l.blocks.length = l.body.length + 1 := by
  have hfilter : l.body.filter (· ≠ l.header) = l.body := by
    refine List.filter_eq_self.2 fun b hb => ?_
    exact decide_eq_true (ne_of_mem_of_not_mem hb h.header_not_mem)
  rw [blocks, hfilter, List.length_cons]

variable (hwf : layout.WellFormed)
include hwf

theorem Fits.header_lt (h : l.Fits layout) : l.header < layout.size := by
  obtain ⟨t, hback⟩ := h.header
  exact (hback.lt hwf).2

/-- A loop whose header is in the body of another loop lies in the body as a whole. -/
theorem Fits.blocks_subset (hm : m.Fits layout) (hl : l.Fits layout) (h : m.header ∈ l.body) :
    m.blocks ⊆ l.body := by
  obtain ⟨hne, hmem⟩ := (hl.mem_body _).1 h
  intro b hb
  have hloop := hm.mem_blocks_iff.1 hb
  refine (hl.mem_body b).2 ⟨fun heq => ?_, ?_⟩
  · refine Layout.not_dominates_of_mem_loopOf hwf (hm.header_lt hwf) hmem hne ?_
    exact heq ▸ Layout.dominates_of_mem_loopOf hloop
  · exact (Layout.loopOf_ssubset hwf (hm.header_lt hwf) hmem hne).1 hloop

/-- A loop that is no smaller is over another loop. -/
theorem Fits.over (hm : m.Fits layout) (hl : l.Fits layout) (hne : m.header ≠ l.header)
    (hsize : m.body.length ≤ l.body.length) : m.Over l := by
  unfold Over
  split
  · rename_i hmem
    exact hm.blocks_subset hwf hl hmem
  · rename_i hnot
    intro b hbm hbl
    have hcommon := Layout.mem_loopOf_or_mem_loopOf hwf (hm.header_lt hwf) (hl.header_lt hwf)
      (hm.mem_blocks_iff.1 hbm) (hl.mem_blocks_iff.1 hbl)
    rcases hcommon with hinner | houter
    · -- the larger loop would be a part of the smaller one
      have hsub := hl.blocks_subset hwf hm ((hm.mem_body _).2 ⟨hne.symm, hinner⟩)
      have hle := ((nodup_blocks hl.nodup).subperm hsub).length_le
      rw [hl.length_blocks] at hle
      omega
    · exact hnot ((hl.mem_body _).2 ⟨hne, houter⟩)

end Fits

end Loop

/-! ## Trees -/

namespace LoopNest

/-- All trees in a tree, which is the first of them. -/
def nodes : LoopNest → List LoopNest
  | node l cs => node l cs :: cs.flatMap nodes

/-- The trees below the root. -/
def inner (t : LoopNest) : List LoopNest := t.children.flatMap nodes

/-- The blocks that the root of a tree has for itself. -/
def held (t : LoopNest) : List Nat := t.loop.header :: t.ownBlocks

/-- The loops of the children lie in the body of the loop, and no two of them have a block in
common. -/
inductive Nested : LoopNest → Prop where
  | node {l : Loop} {cs : List LoopNest} (nodup : l.body.Nodup) (nested : ∀ c ∈ cs, Nested c)
      (inside : ∀ c ∈ cs, ∀ b ∈ c.loop.blocks, b ∈ l.body ∧ b ≠ l.header)
      (apart : cs.Pairwise fun c d => c.loop.blocks.Disjoint d.loop.blocks) : Nested (node l cs)

variable {t c n : LoopNest} {cs ts : List LoopNest} {l m : Loop} {b d e : Nat}

theorem nodes_eq (t : LoopNest) : t.nodes = t :: t.inner := by
  cases t
  rw [nodes, inner, children]

theorem mem_ownBlocks : b ∈ t.ownBlocks ↔
    b ∈ t.loop.body ∧ b ≠ t.loop.header ∧ ∀ c ∈ t.children, b ∉ c.loop.blocks := by
  simp only [ownBlocks, List.mem_filter, Bool.and_eq_true, decide_eq_true_eq, List.all_eq_true,
    Bool.not_eq_true', List.contains_eq_mem, decide_eq_false_iff_not, Loop.mem_blocks, not_or,
    ne_comm (a := b)]

section Nested

theorem Nested.nodup_body (h : t.Nested) : t.loop.body.Nodup := by
  cases h with
  | node nodup => exact nodup

/-- The loops in a tree are parts of the loop of its root. -/
theorem Nested.blocks_subset (h : t.Nested) (hn : n ∈ t.nodes) : n.loop.blocks ⊆ t.loop.blocks := by
  induction h with
  | node nodup nested inside apart ih =>
    rename_i l cs
    rw [nodes, List.mem_cons, List.mem_flatMap] at hn
    rcases hn with heq | ⟨c, hc, hn⟩
    · exact heq ▸ List.Subset.refl _
    · exact fun b hb => Loop.mem_blocks.2 (.inr (inside c hc b (ih c hc hn hb)).1)

theorem Nested.of_mem_nodes (h : t.Nested) (hn : n ∈ t.nodes) : n.Nested := by
  induction h with
  | node nodup nested inside apart ih =>
    rw [nodes, List.mem_cons, List.mem_flatMap] at hn
    rcases hn with heq | ⟨c, hc, hn⟩
    · exact heq ▸ .node nodup nested inside apart
    · exact ih c hc hn

theorem Nested.inside (h : t.Nested) (hc : c ∈ t.children) (hb : b ∈ c.loop.blocks) :
    b ∈ t.loop.body ∧ b ≠ t.loop.header := by
  cases h with
  | node nodup nested inside apart => exact inside c hc b hb

/-- The blocks of the loop belong to the root or to one child. -/
theorem perm_ownBlocks (nodup : l.body.Nodup) (nested : ∀ c ∈ cs, Nested c)
    (inside : ∀ c ∈ cs, ∀ b ∈ c.loop.blocks, b ∈ l.body ∧ b ≠ l.header)
    (apart : cs.Pairwise fun c d => c.loop.blocks.Disjoint d.loop.blocks) :
    ((node l cs).ownBlocks ++ cs.flatMap fun c => c.loop.blocks).Perm
      (l.body.filter (· ≠ l.header)) := by
  have hchildren : (cs.flatMap fun c => c.loop.blocks).Nodup :=
    List.nodup_flatMap.2 ⟨fun c hc => Loop.nodup_blocks (nested c hc).nodup_body, apart⟩
  have hown : (node l cs).ownBlocks.Nodup := nodup.filter _
  have hapart : (node l cs).ownBlocks.Disjoint (cs.flatMap fun c => c.loop.blocks) := by
    intro b hb hchild
    obtain ⟨c, hc, hbc⟩ := List.mem_flatMap.1 hchild
    exact (mem_ownBlocks.1 hb).2.2 c hc hbc
  refine (List.perm_ext_iff_of_nodup (hown.append hchildren hapart) (nodup.filter _)).2 fun b => ?_
  rw [List.mem_append, mem_ownBlocks, List.mem_flatMap, List.mem_filter, decide_eq_true_eq]
  constructor
  · intro hb
    rcases hb with ⟨hbody, hne, _⟩ | ⟨c, hc, hbc⟩
    · exact ⟨hbody, hne⟩
    · exact inside c hc b hbc
  · intro hb
    by_cases hchild : ∃ c ∈ cs, b ∈ c.loop.blocks
    · exact .inr hchild
    · exact .inl ⟨hb.1, hb.2, fun c hc hbc => hchild ⟨c, hc, hbc⟩⟩

/-- A tree holds every block of its loop once. -/
theorem Nested.perm_held (h : t.Nested) : (t.nodes.flatMap held).Perm t.loop.blocks := by
  induction h with
  | node nodup nested inside apart ih =>
    rename_i l cs
    have hchildren : ((cs.flatMap nodes).flatMap held).Perm
        (cs.flatMap fun c => c.loop.blocks) := by
      rw [List.flatMap_assoc]
      exact List.Perm.flatMap_left cs ih
    rw [nodes, List.flatMap_cons, held, List.cons_append]
    exact ((hchildren.append_left _).trans (perm_ownBlocks nodup nested inside apart)).cons _

/-! ## Depths -/

/-- The number of loops below the root that have the block. -/
def around (t : LoopNest) (b : Nat) : Nat := t.inner.countP fun n => n.loop.blocks.contains b

theorem depthsAll_eq (d : Nat) (ts : List LoopNest) : depthsAll d ts = ts.flatMap (depths d) := by
  induction ts with
  | nil => rw [depthsAll, List.flatMap_nil]
  | cons t ts ih => rw [depthsAll, ih, List.flatMap_cons]

/-- Every block that a tree holds has a depth. -/
theorem Nested.map_fst_depths (h : t.Nested) (d : Nat) :
    (t.depths d).map Prod.fst = t.nodes.flatMap held := by
  induction h generalizing d with
  | node nodup nested inside apart ih =>
    rename_i l cs
    have hchildren : (cs.flatMap (depths (d + 1))).map Prod.fst =
        cs.flatMap fun c => c.nodes.flatMap held := by
      rw [List.map_flatMap]
      exact List.flatMap_congr fun c hc => ih c hc (d + 1)
    rw [depths, depthsAll_eq, nodes, List.flatMap_cons, List.flatMap_assoc, List.map_append,
      hchildren, List.map_cons, List.map_map, held]
    simp only [Function.comp_def, List.map_id']
    rfl

/-- No loop in the trees has a block that the loops of their roots do not have. -/
theorem countP_nodes_eq_zero (nested : ∀ c ∈ cs, Nested c) (hb : ∀ c ∈ cs, b ∉ c.loop.blocks) :
    (cs.flatMap nodes).countP (fun n => n.loop.blocks.contains b) = 0 := by
  refine List.countP_eq_zero.2 fun n hn => ?_
  obtain ⟨c, hc, hn⟩ := List.mem_flatMap.1 hn
  rw [List.contains_iff_mem]
  exact fun hmem => hb c hc ((nested c hc).blocks_subset hn hmem)

/-- The loops around a block of a child are the loop of the child and those around it there. -/
theorem around_node_of_mem (nested : ∀ c ∈ cs, Nested c)
    (apart : cs.Pairwise fun c d => c.loop.blocks.Disjoint d.loop.blocks) (hc : c ∈ cs)
    (hb : b ∈ c.loop.blocks) : (node l cs).around b = c.around b + 1 := by
  obtain ⟨before, after, hsplit⟩ := List.append_of_mem hc
  subst hsplit
  obtain ⟨_, hafter, hbefore⟩ := List.pairwise_append.1 apart
  have hzero_before : (before.flatMap nodes).countP (fun n => n.loop.blocks.contains b) = 0 :=
    countP_nodes_eq_zero (fun u hu => nested u (List.mem_append_left _ hu))
      (fun u hu hmem => hbefore u hu c List.mem_cons_self hmem hb)
  have hzero_after : (after.flatMap nodes).countP (fun n => n.loop.blocks.contains b) = 0 :=
    countP_nodes_eq_zero
      (fun u hu => nested u (List.mem_append_right _ (List.mem_cons_of_mem _ hu)))
      (fun u hu hmem => (List.pairwise_cons.1 hafter).1 u hu hb hmem)
  have hchild : c.loop.blocks.contains b = true := List.contains_iff_mem.2 hb
  rw [around, inner, children, List.flatMap_append, List.flatMap_cons, List.countP_append,
    List.countP_append, hzero_before, hzero_after, nodes_eq, List.countP_cons, if_pos hchild,
    around]
  omega

/-- The depth of a block says how many loops there are around it. -/
theorem Nested.mem_depths (h : t.Nested) (hbe : (b, e) ∈ t.depths d) : e = d + t.around b := by
  induction h generalizing d with
  | node nodup nested inside apart ih =>
    rename_i l cs
    have hown : (∀ c ∈ cs, b ∉ c.loop.blocks) → (LoopNest.node l cs).around b = 0 :=
      countP_nodes_eq_zero nested
    rw [depths, depthsAll_eq, List.mem_append, List.mem_cons, List.mem_map, List.mem_flatMap] at hbe
    rcases hbe with (hheader | ⟨b', hheld, heq⟩) | ⟨c, hc, hbe⟩
    · obtain ⟨rfl, rfl⟩ := Prod.mk.inj hheader
      rw [hown fun c hc hmem => (inside c hc _ hmem).2 rfl, Nat.add_zero]
    · obtain ⟨rfl, rfl⟩ := Prod.mk.inj heq
      rw [hown (mem_ownBlocks.1 hheld).2.2, Nat.add_zero]
    · have hheld : b ∈ c.nodes.flatMap held := by
        rw [← (nested c hc).map_fst_depths (d + 1)]
        exact List.mem_map_of_mem hbe
      have hb : b ∈ c.loop.blocks := (nested c hc).perm_held.mem_iff.1 hheld
      rw [ih c hc hbe, around_node_of_mem nested apart hc hb]
      omega

end Nested

/-! ## Adding one loop -/

/-- What holds of the trees `ts` when the loops of `done` have been added. -/
structure Gathered (done : List Loop) (ts : List LoopNest) : Prop where
  nested : ∀ t ∈ ts, t.Nested
  apart : ts.Pairwise fun t u => t.loop.blocks.Disjoint u.loop.blocks
  perm : ((ts.flatMap nodes).map loop).Perm done

section Gathered

variable {done : List Loop}

theorem perm_byHeader (ts : List LoopNest) : (byHeader ts).Perm ts := List.mergeSort_perm _ _

theorem Gathered.mem_done (h : Gathered done ts) (ht : t ∈ ts) : t.loop ∈ done := by
  refine h.perm.mem_iff.1 (List.mem_map_of_mem (List.mem_flatMap.2 ⟨t, ht, ?_⟩))
  rw [nodes_eq]
  exact List.mem_cons_self

/-- The trees that a loop adopts, and those that it leaves alone. -/
theorem adopt_eq (ts : List LoopNest) (l : Loop) : adopt ts l =
    (ts.filter fun t => !l.body.contains t.loop.header) ++
      [node l (byHeader (ts.filter fun t => l.body.contains t.loop.header))] := by
  rw [adopt, List.partition_eq_filter_filter]
  rfl

theorem perm_adopt (ts : List LoopNest) (l : Loop) :
    (((adopt ts l).flatMap nodes).map loop).Perm ((ts.flatMap nodes).map loop ++ [l]) := by
  have hmine := perm_byHeader (ts.filter fun t => l.body.contains t.loop.header)
  have hsplit := List.filter_append_perm (fun t => l.body.contains t.loop.header) ts
  have hnodes : ((ts.filter fun t => !l.body.contains t.loop.header).flatMap nodes ++
      (byHeader (ts.filter fun t => l.body.contains t.loop.header)).flatMap nodes).Perm
        (ts.flatMap nodes) := by
    rw [← List.flatMap_append]
    exact (((hmine.append_left _).trans List.perm_append_comm).trans hsplit).flatMap_right nodes
  rw [adopt_eq, List.flatMap_append, List.flatMap_singleton, nodes, List.map_append, List.map_cons]
  refine List.perm_middle.trans (.trans ?_ (List.perm_append_singleton _ _).symm)
  rw [← List.map_append]
  exact (hnodes.map loop).cons l

/-- A loop adopts the trees whose loops it takes in, and has no block in common with the others. -/
theorem gathered_adopt (h : Gathered done ts) (hnodup : l.body.Nodup) (hheader : l.header ∉ l.body)
    (hover : ∀ m ∈ done, m.Over l) : Gathered (done ++ [l]) (adopt ts l) := by
  have hmine : ∀ t ∈ byHeader (ts.filter fun t => l.body.contains t.loop.header),
      t ∈ ts ∧ t.loop.header ∈ l.body := by
    intro t ht
    obtain ⟨ht, hmem⟩ := List.mem_filter.1 ((perm_byHeader _).mem_iff.1 ht)
    exact ⟨ht, List.contains_iff_mem.1 hmem⟩
  have hothers : ∀ t ∈ ts.filter (fun t => !l.body.contains t.loop.header),
      t ∈ ts ∧ t.loop.header ∉ l.body := by
    intro t ht
    obtain ⟨ht, hnot⟩ := List.mem_filter.1 ht
    exact ⟨ht, by simpa using hnot⟩
  have hinside : ∀ t ∈ ts, t.loop.header ∈ l.body → ∀ b ∈ t.loop.blocks,
      b ∈ l.body ∧ b ≠ l.header := by
    intro t ht hmem b hb
    have htaken := hover t.loop (h.mem_done ht)
    rw [Loop.Over, if_pos hmem] at htaken
    exact ⟨htaken hb, ne_of_mem_of_not_mem (htaken hb) hheader⟩
  have hapart : ∀ t ∈ ts, t.loop.header ∉ l.body → t.loop.blocks.Disjoint l.blocks := by
    intro t ht hnot
    have hleft := hover t.loop (h.mem_done ht)
    rwa [Loop.Over, if_neg hnot] at hleft
  have hnested : Nested (node l (byHeader (ts.filter fun t => l.body.contains t.loop.header))) := by
    refine .node hnodup (fun c hc => h.nested c (hmine c hc).1)
      (fun c hc => hinside c (hmine c hc).1 (hmine c hc).2) ?_
    exact ((perm_byHeader _).pairwise_iff List.Disjoint.symm).2 (h.apart.filter _)
  constructor
  · rw [adopt_eq]
    intro t ht
    rcases List.mem_append.1 ht with hold | hnew
    · exact h.nested t (hothers t hold).1
    · exact List.mem_singleton.1 hnew ▸ hnested
  · rw [adopt_eq]
    refine List.pairwise_append.2 ⟨h.apart.filter _, List.pairwise_singleton _ _, ?_⟩
    intro t ht u hu
    rw [List.mem_singleton.1 hu]
    exact hapart t (hothers t ht).1 (hothers t ht).2
  · exact (perm_adopt ts l).trans (h.perm.append_right [l])

theorem gathered_foldl {ls : List Loop} (h : Gathered done ts)
    (hls : ∀ l ∈ ls, l.body.Nodup ∧ l.header ∉ l.body)
    (hover : (done ++ ls).Pairwise Loop.Over) : Gathered (done ++ ls) (ls.foldl adopt ts) := by
  induction ls generalizing done ts with
  | nil => rwa [List.append_nil]
  | cons l ls ih =>
    obtain ⟨hnodup, hheader⟩ := hls l List.mem_cons_self
    have hnext := gathered_adopt h hnodup hheader fun m hm =>
      (List.pairwise_append.1 hover).2.2 m hm l List.mem_cons_self
    rw [List.append_cons done l ls] at hover ⊢
    exact ih hnext (fun m hm => hls m (List.mem_cons_of_mem l hm)) hover

end Gathered

end LoopNest

/-! ## The tree of a graph -/

/-- What the tree of the loops of some blocks is meant to be. -/
structure Layout.LoopTree (layout : Layout) (t : LoopNest) : Prop where
  header : t.loop.header = 0
  /-- Every block occurs once, as a header or as a block that a loop has for itself. -/
  once : (t.nodes.flatMap fun n => n.loop.header :: n.ownBlocks).Perm layout.indices
  /-- Every header of a loop has one node below the root. -/
  nodup : (t.inner.map fun n => n.loop.header).Nodup
  headers : ∀ h, (∃ n ∈ t.inner, n.loop.header = h) ↔ layout.LoopHeader h
  /-- The node of a header has its loop. -/
  loops : ∀ n ∈ t.inner, ∀ b, b ∈ n.loop.blocks ↔ b ∈ layout.loopOf n.loop.header
  /-- The loop of a child is a proper part of the loop of its parent, or of the routine. -/
  nested : ∀ n ∈ t.inner, ∀ c ∈ n.children,
    layout.loopOf c.loop.header ⊂ layout.loopOf n.loop.header
  nested_root : ∀ c ∈ t.children, layout.loopOf c.loop.header ⊂ {b | b < layout.size}

namespace Graph

variable {o : Options} {code : List Instr} {g : Graph} {i e : Nat}

theorem getD_foldl_set {ps : List (Nat × Nat)} {a : Array Nat} (hnodup : (ps.map Prod.fst).Nodup)
    (hi : i < a.size) (hmem : (i, e) ∈ ps) :
    (ps.foldl (fun a p => a.setIfInBounds p.1 p.2) a).getD i 0 = e := by
  induction ps generalizing a with
  | nil => cases hmem
  | cons p ps ih =>
    obtain ⟨hnot, hnodup⟩ := List.nodup_cons.1 hnodup
    rw [List.foldl_cons]
    rcases List.mem_cons.1 hmem with heq | hlater
    · -- no later pair is about the same cell
      subst heq
      refine List.foldlRecOn ps _ (motive := fun a : Array Nat => a.getD i 0 = e) ?_
        fun a ha p hp => ?_
      · rw [Rounds.getD_setIfInBounds hi, if_pos rfl]
      · have hne : p.1 ≠ i := fun heq => hnot (List.mem_map.2 ⟨p, hp, heq⟩)
        rwa [Array.getD_eq_getD_getElem?, Array.getElem?_setIfInBounds_ne hne,
          ← Array.getD_eq_getD_getElem?]
    · exact ih hnodup (by simpa using hi) hlater

section Built

variable (hbuilt : Built o code g)
include hbuilt

theorem Built.pairwise_over : g.loops.Pairwise Loop.Over := by
  have hnodup := hbuilt.nodup_headers_loops
  rw [List.Nodup, List.pairwise_map] at hnodup
  refine (hnodup.and (pairwise_loops g)).imp_of_mem fun hm hl h => ?_
  exact (hbuilt.fits_of_mem_loops hm).over hbuilt.wellFormed (hbuilt.fits_of_mem_loops hl) h.1 h.2

theorem Built.gathered_loops : LoopNest.Gathered g.loops (g.loops.foldl LoopNest.adopt []) := by
  have hnil : LoopNest.Gathered [] [] := ⟨by simp, .nil, .refl _⟩
  refine LoopNest.gathered_foldl hnil (fun l hl => ?_) hbuilt.pairwise_over
  exact ⟨(hbuilt.fits_of_mem_loops hl).nodup, (hbuilt.fits_of_mem_loops hl).header_not_mem⟩

theorem Built.perm_inner : (g.loopNest.inner.map LoopNest.loop).Perm g.loops := by
  refine .trans ?_ hbuilt.gathered_loops.perm
  exact ((LoopNest.perm_byHeader _).flatMap_right LoopNest.nodes).map LoopNest.loop

theorem Built.fits_of_mem_inner {n : LoopNest} (hn : n ∈ g.loopNest.inner) :
    n.loop.Fits g.layout :=
  hbuilt.fits_of_mem_loops (hbuilt.perm_inner.mem_iff.1 (List.mem_map_of_mem hn))

theorem Built.nested_loopNest : g.loopNest.Nested := by
  have hgathered := hbuilt.gathered_loops
  have hmem : ∀ c ∈ LoopNest.byHeader (g.loops.foldl LoopNest.adopt []),
      c ∈ g.loops.foldl LoopNest.adopt [] := fun c hc => (LoopNest.perm_byHeader _).mem_iff.1 hc
  refine .node List.nodup_range (fun c hc => hgathered.nested c (hmem c hc))
    (fun c hc b hb => ?_) ?_
  · have hwf := hbuilt.wellFormed
    have hfits := hbuilt.fits_of_mem_loops (hgathered.mem_done (hmem c hc))
    have hloop := hfits.mem_blocks_iff.1 hb
    refine ⟨List.mem_range.2 (Layout.lt_of_mem_loopOf hwf (hfits.header_lt hwf) hloop), ?_⟩
    exact ne_of_mem_of_not_mem hloop (Layout.entry_not_mem_loopOf hwf hfits.header)
  · exact ((LoopNest.perm_byHeader _).pairwise_iff List.Disjoint.symm).2 hgathered.apart

theorem Built.perm_blocks_loopNest : g.loopNest.loop.blocks.Perm g.layout.indices := by
  have hnodup : g.layout.indices.Nodup := List.nodup_range
  refine (List.perm_ext_iff_of_nodup (Loop.nodup_blocks hnodup) hnodup).2 fun b => ?_
  rw [Loop.mem_blocks]
  refine or_iff_right_of_imp fun heq => ?_
  exact heq ▸ List.mem_range.2 hbuilt.size_pos

theorem Built.loopTree : g.layout.LoopTree g.loopNest := by
  have hwf := hbuilt.wellFormed
  have hnested := hbuilt.nested_loopNest
  have hheaders : (g.loopNest.inner.map fun n => n.loop.header).Perm (g.loops.map Loop.header) := by
    have hperm := hbuilt.perm_inner.map Loop.header
    rwa [List.map_map] at hperm
  constructor
  · rfl
  · exact hnested.perm_held.trans hbuilt.perm_blocks_loopNest
  · exact hheaders.nodup_iff.2 hbuilt.nodup_headers_loops
  · intro h
    rw [← hbuilt.mem_headers_loops, ← hheaders.mem_iff, List.mem_map]
  · exact fun n hn b => (hbuilt.fits_of_mem_inner hn).mem_blocks_iff
  · intro n hn c hc
    have hfits := hbuilt.fits_of_mem_inner hn
    have hinner : n.Nested := by
      refine hnested.of_mem_nodes ?_
      rw [LoopNest.nodes_eq]
      exact List.mem_cons_of_mem _ hn
    obtain ⟨hbody, hne⟩ := hinner.inside hc (Loop.mem_blocks.2 (.inl rfl))
    have hloop := ((hfits.mem_body _).1 hbody).2
    have hlt := Layout.lt_of_mem_loopOf hwf (hfits.header_lt hwf) hloop
    exact Layout.loopOf_ssubset hwf hlt hloop hne
  · intro c hc
    have hfits : c.loop.Fits g.layout := by
      refine hbuilt.fits_of_mem_inner (List.mem_flatMap.2 ⟨c, hc, ?_⟩)
      rw [LoopNest.nodes_eq]
      exact List.mem_cons_self
    refine Set.ssubset_iff_subset_ne.2 ⟨fun b hb => ?_, fun heq => ?_⟩
    · exact Layout.lt_of_mem_loopOf hwf (hfits.header_lt hwf) hb
    · refine Layout.entry_not_mem_loopOf hwf hfits.header ?_
      rw [heq]
      exact hbuilt.size_pos

/-- The depth of a block is the number of loops that have it. -/
theorem Built.getD_loopDepths (hi : i < g.size) : g.loopDepths.getD i 0 =
    {h | g.layout.LoopHeader h ∧ i ∈ g.layout.loopOf h}.ncard := by
  have hnested := hbuilt.nested_loopNest
  have hkeys : ((g.loopNest.depths 0).map Prod.fst).Perm g.layout.indices := by
    rw [hnested.map_fst_depths]
    exact hnested.perm_held.trans hbuilt.perm_blocks_loopNest
  obtain ⟨⟨i', e⟩, hmem, rfl⟩ := List.mem_map.1 (hkeys.mem_iff.2 (List.mem_range.2 hi))
  have hcount : g.loopNest.around i' = g.loops.countP fun l => l.blocks.contains i' := by
    rw [← hbuilt.perm_inner.countP_eq, List.countP_map]
    rfl
  have hset : {h | g.layout.LoopHeader h ∧ i' ∈ g.layout.loopOf h} =
      ((g.loops.filter fun l => l.blocks.contains i').map Loop.header).toFinset := by
    ext h
    rw [Finset.mem_coe, List.mem_toFinset, List.mem_map]
    constructor
    · intro hh
      obtain ⟨l, hl, rfl⟩ := List.mem_map.1 (hbuilt.mem_headers_loops.2 hh.1)
      have hblock := (hbuilt.fits_of_mem_loops hl).mem_blocks_iff.2 hh.2
      exact ⟨l, List.mem_filter.2 ⟨hl, List.contains_iff_mem.2 hblock⟩, rfl⟩
    · intro hl
      obtain ⟨l, hl, rfl⟩ := hl
      obtain ⟨hl, hblock⟩ := List.mem_filter.1 hl
      have hfits := hbuilt.fits_of_mem_loops hl
      exact ⟨hfits.header, hfits.mem_blocks_iff.1 (List.contains_iff_mem.1 hblock)⟩
  have hnodup : ((g.loops.filter fun l => l.blocks.contains i').map Loop.header).Nodup :=
    hbuilt.nodup_headers_loops.sublist (List.filter_sublist.map Loop.header)
  rw [loopDepths, getD_foldl_set (hkeys.nodup_iff.2 List.nodup_range) (by simpa using hi) hmem,
    hnested.mem_depths hmem, hset, Set.ncard_coe_finset, List.toFinset_card_of_nodup hnodup,
    List.length_map, ← List.countP_eq_length_filter, ← hcount, Nat.zero_add]

end Built

/-- The tree of every graph has its loops, one in another as they are nested, and every block once.
The depth of a block is the number of loops that have it. -/
theorem loopTree_of_build (h : build o code = .ok g) : g.layout.LoopTree g.loopNest ∧
    ∀ i < g.size, g.loopDepths.getD i 0 =
      {h | g.layout.LoopHeader h ∧ i ∈ g.layout.loopOf h}.ncard :=
  ⟨(built_of_build h).loopTree, fun _ hi => (built_of_build h).getD_loopDepths hi⟩

/-- A loop with two edges back to its start, and with a loop inside. -/
def nestedLoops : List Instr :=
  [.number 1, .branch 3 true, .target 1, .number 2, .ofOpcode .drop, .target 2, .number 3,
    .branch 2 true, .number 4, .branch 1 true, .number 5, .branch 1 true, .target 3, .ret .void]

/-- The inner loop is one of two loops around its block. -/
theorem loopTree_of_build_nestedLoops :
    ∃ g, build (Defaults.options {}) nestedLoops = .ok g ∧ 3 < g.size ∧
      {h | g.layout.LoopHeader h ∧ 3 ∈ g.layout.loopOf h}.ncard = 2 ∧
      g.layout.LoopTree g.loopNest := by
  obtain ⟨g, hbuild, hfacts⟩ := exists_ok_of_any
    (x := build (Defaults.options {}) nestedLoops)
    (P := fun g => decide (3 < g.size) && decide (g.loopDepths.getD 3 0 = 2)) (by cbv)
  rw [Bool.and_eq_true, decide_eq_true_eq, decide_eq_true_eq] at hfacts
  obtain ⟨htree, hdepth⟩ := loopTree_of_build hbuild
  exact ⟨g, hbuild, hfacts.1, (hdepth 3 hfacts.1).symm.trans hfacts.2, htree⟩

end Graph

end StackFlow
