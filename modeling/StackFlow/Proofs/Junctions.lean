import StackFlow.Proofs.Wiring

/-!
# Edges and their junctions

Edges are added to the junctions one by one, which puts junctions together that were
apart before.

* `addEdge_spec` says what adding one edge does: the junctions it touches become one that
  has the edge as well, and the others stay as they are.
* `Groups es js` is what the junctions `js` of the edges `es` keep: no block is a parent of
  two junctions or a child of two, every edge has a junction, and a junction has only
  ends of edges.  `Groups.addEdge` is one edge and `groups_ofLayout` a whole layout.
* `exists_junction` and `check_ofLayout` say that the ends of an edge agree on its
  junction, and `exists_childOf?_entry` that control leaves the entry through a junction
  if there is any.
-/

namespace StackFlow

open Relation

theorem Layout.mem_edges {layout : Layout} {p s : Nat} :
    (p, s) ∈ layout.edges ↔ p < layout.size ∧ s ∈ layout.succ p := by
  simp [edges, indices]

namespace Junction

@[simp] theorem mem_place {i x : Nat} {is : List Nat} : x ∈ place i is ↔ x = i ∨ x ∈ is := by
  induction is with
  | nil => simp [place]
  | cons j is ih =>
    rw [place]
    split
    · simp
    · split
      · rename_i hij
        simp [hij]
      · simp [ih, or_left_comm]

@[simp] theorem mem_mingle {is js : List Nat} {x : Nat} : x ∈ mingle is js ↔ x ∈ is ∨ x ∈ js := by
  unfold mingle
  induction js generalizing is with
  | nil => simp
  | cons j js ih => simp [ih, or_assoc, or_left_comm]

/-! ## Adding one edge -/

/-- `Adds js p s js'`: the junctions `js'` are `js` with the edge from `p` to `s`, in some
order.  The junctions that the edge touches have become one, and no others have. -/
structure Adds (js : List Junction) (p s : Nat) (js' : List Junction) (touched : List Junction)
    (joined : Junction) (rest : List Junction) : Prop where
  before : js.Perm (touched ++ rest)
  after : js'.Perm (joined :: rest)
  parents : ∀ x, x ∈ joined.parents ↔ x = p ∨ ∃ j ∈ touched, x ∈ j.parents
  children : ∀ x, x ∈ joined.children ↔ x = s ∨ ∃ j ∈ touched, x ∈ j.children
  touches : ∀ j ∈ touched, p ∈ j.parents ∨ s ∈ j.children
  source : (∃ j ∈ touched, p ∈ j.parents) ∨ ∀ j ∈ js, p ∉ j.parents
  target : (∃ j ∈ touched, s ∈ j.children) ∨ ∀ j ∈ js, s ∉ j.children

section AddEdge

variable {js : List Junction} {p s k m : Nat} {j : Junction}

theorem perm_eraseIdx (h : js[k]? = some j) : js.Perm (j :: js.eraseIdx k) := by
  obtain ⟨hk, rfl⟩ := List.getElem?_eq_some_iff.1 h
  exact (List.getElem_cons_eraseIdx_perm hk).symm

theorem perm_modify (f : Junction → Junction) (h : js[k]? = some j) :
    (js.modify k f).Perm (f j :: js.eraseIdx k) := by
  have hget : (js.modify k f)[k]? = some (f j) := by simp [h]
  have hperm := perm_eraseIdx hget
  rwa [List.eraseIdx_modify_of_eq] at hperm

/-- Taking out one junction after another one has changed. -/
theorem perm_eraseIdx_modify (f : Junction → Junction) {j' : Junction} (h : js[k]? = some j)
    (h' : js[m]? = some j') (hkm : k ≠ m) :
    js.Perm (j :: j' :: (js.eraseIdx k).erase j') ∧
      ((js.modify k f).eraseIdx m).Perm (f j :: (js.eraseIdx k).erase j') := by
  have hmem : j' ∈ js.eraseIdx k := List.mem_eraseIdx_iff_getElem?.2 ⟨m, hkm.symm, h'⟩
  have hrest := List.perm_cons_erase hmem
  have hget : (js.modify k f)[m]? = some j' := by simp [h', hkm]
  refine ⟨(perm_eraseIdx h).trans (hrest.cons j), List.Perm.cons_inv (a := j') ?_⟩
  calc (j' :: (js.modify k f).eraseIdx m).Perm (js.modify k f) := (perm_eraseIdx hget).symm
    _ |>.Perm (f j :: js.eraseIdx k) := perm_modify f h
    _ |>.Perm (f j :: j' :: (js.eraseIdx k).erase j') := hrest.cons _
    _ |>.Perm (j' :: f j :: (js.eraseIdx k).erase j') := List.Perm.swap _ _ _

theorem getElem?_of_findIdx? {f : Junction → Bool} (h : js.findIdx? f = some k) :
    ∃ j, js[k]? = some j ∧ f j = true := by
  obtain ⟨hk, hf, _⟩ := List.findIdx?_eq_some_iff_getElem.1 h
  exact ⟨_, List.getElem?_eq_getElem hk, hf⟩

theorem addEdge_spec (js : List Junction) (p s : Nat) :
    ∃ touched joined rest, Adds js p s (addEdge js p s) touched joined rest := by
  have hnone : ∀ {f : Junction → List Nat} {x : Nat},
      js.findIdx? (fun j => (f j).contains x) = none → ∀ j ∈ js, x ∉ f j := by
    intro f x h j hj hmem
    have hfalse := List.findIdx?_eq_none_iff.1 h j hj
    rw [List.contains_iff_mem.2 hmem] at hfalse
    cases hfalse
  have hsome : ∀ {f : Junction → List Nat} {x k : Nat},
      js.findIdx? (fun j => (f j).contains x) = some k → ∃ j, js[k]? = some j ∧ x ∈ f j := by
    intro f x k h
    obtain ⟨j, hj, hmem⟩ := getElem?_of_findIdx? h
    exact ⟨j, hj, List.contains_iff_mem.1 hmem⟩
  unfold addEdge
  split
  · rename_i hp hs
    exact ⟨[], ⟨[p], [s]⟩, js, .refl _, List.perm_append_comm, by simp, by simp, by simp,
      .inr (hnone hp), .inr (hnone hs)⟩
  · rename_i k hp hs
    obtain ⟨j, hj, hmem⟩ := hsome hs
    refine ⟨[j], _, _, perm_eraseIdx hj, perm_modify _ hj, by simp, fun x => ?_,
      by simp [hmem], .inr (hnone hp), .inl ⟨j, by simp, hmem⟩⟩
    simpa using fun hx => hx ▸ hmem
  · rename_i k hp hs
    obtain ⟨j, hj, hmem⟩ := hsome hp
    refine ⟨[j], _, _, perm_eraseIdx hj, perm_modify _ hj, fun x => ?_, by simp,
      by simp [hmem], .inl ⟨j, by simp, hmem⟩, .inr (hnone hs)⟩
    simpa using fun hx => hx ▸ hmem
  · rename_i k m hp hs
    obtain ⟨j, hj, hmem⟩ := hsome hp
    obtain ⟨j', hj', hmem'⟩ := hsome hs
    split
    · rename_i hkm
      subst hkm
      rw [hj, Option.some_inj] at hj'
      subst hj'
      refine ⟨[j], j, _, perm_eraseIdx hj, perm_eraseIdx hj, fun x => ?_, fun x => ?_,
        by simp [hmem], .inl ⟨j, by simp, hmem⟩, .inl ⟨j, by simp, hmem'⟩⟩
      · simpa using fun hx => hx ▸ hmem
      · simpa using fun hx => hx ▸ hmem'
    · rename_i hkm
      obtain ⟨hbefore, hafter⟩ := perm_eraseIdx_modify (·.merge (js.getD m default)) hj hj' hkm
      have hget : js.getD m default = j' := by simp [hj']
      refine ⟨[j, j'], _, _, hbefore, hafter, fun x => ?_, fun x => ?_, by simp [hmem, hmem'],
        .inl ⟨j, by simp, hmem⟩, .inl ⟨j', by simp, hmem'⟩⟩
      · rw [hget]
        simpa [merge] using fun hx => .inl (hx ▸ hmem)
      · rw [hget]
        simpa [merge] using fun hx => .inr (hx ▸ hmem')

/-- An edge between two junctions makes them one: the second is found and taken out. -/
theorem addEdge_merges (hp : js.findIdx? (·.parents.contains p) = some k)
    (hs : js.findIdx? (·.children.contains s) = some m) (hkm : k ≠ m) :
    ∃ j j' rest, js[k]? = some j ∧ js[m]? = some j' ∧ js.Perm (j :: j' :: rest) ∧
      (addEdge js p s).Perm (j.merge j' :: rest) := by
  obtain ⟨j, hj, _⟩ := getElem?_of_findIdx? hp
  obtain ⟨j', hj', _⟩ := getElem?_of_findIdx? hs
  obtain ⟨hbefore, hafter⟩ := perm_eraseIdx_modify (·.merge (js.getD m default)) hj hj' hkm
  have hget : js.getD m default = j' := by simp [hj']
  refine ⟨j, j', _, hj, hj', hbefore, ?_⟩
  rw [addEdge, hp, hs]
  simp only [if_neg hkm]
  rw [hget] at hafter ⊢
  exact hafter

end AddEdge

/-! ## The junctions of some edges -/

/-- No block is a parent of both junctions or a child of both. -/
def Apart (j k : Junction) : Prop :=
  (∀ x ∈ j.parents, x ∉ k.parents) ∧ ∀ x ∈ j.children, x ∉ k.children

theorem Apart.symm {j k : Junction} (h : Apart j k) : Apart k j :=
  ⟨fun x hk hj => h.1 x hj hk, fun x hk hj => h.2 x hj hk⟩

/-- What the junctions `js` of the edges `es` keep while edges are added. -/
structure Groups (es : List (Nat × Nat)) (js : List Junction) : Prop where
  apart : js.Pairwise Apart
  joined : ∀ e ∈ es, ∃ j ∈ js, e.1 ∈ j.parents ∧ e.2 ∈ j.children
  sources : ∀ j ∈ js, ∀ x ∈ j.parents, ∃ e ∈ es, e.1 = x
  targets : ∀ j ∈ js, ∀ x ∈ j.children, ∃ e ∈ es, e.2 = x

section Groups

variable {es : List (Nat × Nat)} {js : List Junction} {p s : Nat}

theorem Groups.addEdge (h : Groups es js) : Groups (es ++ [(p, s)]) (addEdge js p s) := by
  obtain ⟨touched, joined, rest, hadds⟩ := addEdge_spec js p s
  have htouched : ∀ j ∈ touched, j ∈ js :=
    fun j hj => hadds.before.mem_iff.2 (List.mem_append_left _ hj)
  have hrest : ∀ j ∈ rest, j ∈ js :=
    fun j hj => hadds.before.mem_iff.2 (List.mem_append_right _ hj)
  have hapart := (hadds.before.pairwise_iff Apart.symm).1 h.apart
  obtain ⟨-, hrestApart, hcross⟩ := List.pairwise_append.1 hapart
  -- the ends of the edge are not in a junction that is left alone
  have hsource : ∀ k ∈ rest, p ∉ k.parents := by
    rcases hadds.source with ⟨j, hj, hp⟩ | hnone
    · exact fun k hk => (hcross j hj k hk).1 p hp
    · exact fun k hk => hnone k (hrest k hk)
  have htarget : ∀ k ∈ rest, s ∉ k.children := by
    rcases hadds.target with ⟨j, hj, hs⟩ | hnone
    · exact fun k hk => (hcross j hj k hk).2 s hs
    · exact fun k hk => hnone k (hrest k hk)
  have hjoined : ∀ k ∈ rest, Apart joined k := by
    refine fun k hk => ⟨fun x hx => ?_, fun x hx => ?_⟩
    · rcases (hadds.parents x).1 hx with rfl | ⟨j, hj, hx⟩
      · exact hsource k hk
      · exact (hcross j hj k hk).1 x hx
    · rcases (hadds.children x).1 hx with rfl | ⟨j, hj, hx⟩
      · exact htarget k hk
      · exact (hcross j hj k hk).2 x hx
  refine ⟨?_, fun e he => ?_, fun j hj x hx => ?_, fun j hj x hx => ?_⟩
  · exact (hadds.after.pairwise_iff Apart.symm).2 (List.pairwise_cons.2 ⟨hjoined, hrestApart⟩)
  · simp only [hadds.after.mem_iff]
    rcases List.mem_append.1 he with he | he
    · obtain ⟨j, hj, hp, hs⟩ := h.joined e he
      rcases List.mem_append.1 (hadds.before.mem_iff.1 hj) with hj | hj
      · exact ⟨joined, List.mem_cons_self, (hadds.parents _).2 (.inr ⟨j, hj, hp⟩),
          (hadds.children _).2 (.inr ⟨j, hj, hs⟩)⟩
      · exact ⟨j, List.mem_cons_of_mem _ hj, hp, hs⟩
    · rw [List.mem_singleton.1 he]
      exact ⟨joined, List.mem_cons_self, (hadds.parents p).2 (.inl rfl),
        (hadds.children s).2 (.inl rfl)⟩
  · have hold : ∀ j ∈ js, x ∈ j.parents → ∃ e ∈ es ++ [(p, s)], e.1 = x := by
      intro j hj hx
      obtain ⟨e, he, hex⟩ := h.sources j hj x hx
      exact ⟨e, List.mem_append_left _ he, hex⟩
    rcases List.mem_cons.1 (hadds.after.mem_iff.1 hj) with rfl | hj
    · rcases (hadds.parents x).1 hx with rfl | ⟨k, hk, hx⟩
      · exact ⟨(x, s), by simp, rfl⟩
      · exact hold k (htouched k hk) hx
    · exact hold j (hrest j hj) hx
  · have hold : ∀ j ∈ js, x ∈ j.children → ∃ e ∈ es ++ [(p, s)], e.2 = x := by
      intro j hj hx
      obtain ⟨e, he, hex⟩ := h.targets j hj x hx
      exact ⟨e, List.mem_append_left _ he, hex⟩
    rcases List.mem_cons.1 (hadds.after.mem_iff.1 hj) with rfl | hj
    · rcases (hadds.children x).1 hx with rfl | ⟨k, hk, hx⟩
      · exact ⟨(p, x), by simp, rfl⟩
      · exact hold k (htouched k hk) hx
    · exact hold j (hrest j hj) hx

/-- What holds of no edges, and is kept while edges are added, holds of the edges and the
junctions of every layout. -/
theorem ofLayout_induct {P : List (Nat × Nat) → List Junction → Prop} (nil : P [] [])
    (add : ∀ es js p s, P es js → P (es ++ [(p, s)]) (Junction.addEdge js p s))
    (layout : Layout) : P layout.edges (ofLayout layout).toList := by
  have hfold : ∀ es' es js, P es js →
      P (es ++ es') (es'.foldl (fun js e => Junction.addEdge js e.1 e.2) js) := by
    intro es'
    induction es' with
    | nil =>
      intro es js h
      rwa [List.append_nil]
    | cons e es' ih =>
      intro es js h
      have hrest := ih (es ++ [e]) _ (add es js e.1 e.2 h)
      rwa [List.append_assoc, List.singleton_append] at hrest
  exact hfold layout.edges [] [] nil

theorem groups_ofLayout (layout : Layout) : Groups layout.edges (ofLayout layout).toList :=
  ofLayout_induct ⟨.nil, by simp, by simp, by simp⟩ (fun _ _ _ _ => Groups.addEdge) layout

end Groups

/-! ## The junctions of a layout -/

section OfLayout

variable {layout : Layout} {p s k : Nat}

/-- Of junctions that are apart, the first that has `x` is the only one. -/
theorem findIdx?_eq_some {js : List Junction} {f : Junction → List Nat} {j : Junction} {k x : Nat}
    (hapart : js.Pairwise fun j k => ∀ x ∈ f j, x ∉ f k) (hj : js[k]? = some j) (hx : x ∈ f j) :
    js.findIdx? (fun j => (f j).contains x) = some k := by
  obtain ⟨hk, rfl⟩ := List.getElem?_eq_some_iff.1 hj
  refine List.findIdx?_eq_some_iff_getElem.2 ⟨hk, List.contains_iff_mem.2 hx, fun i hik hi => ?_⟩
  exact List.pairwise_iff_getElem.1 hapart i k (Nat.lt_trans hik hk) hk hik x
    (List.contains_iff_mem.1 hi) hx

theorem childOf?_eq_some : childOf? (ofLayout layout) p = some k ↔
    ∃ j : Junction, (ofLayout layout)[k]? = some j ∧ p ∈ j.parents := by
  rw [childOf?, ← @Array.toArray_toList _ (ofLayout layout), List.findIdx?_toArray]
  simp only [List.getElem?_toArray]
  constructor
  · intro hk
    obtain ⟨j, hj, hp⟩ := getElem?_of_findIdx? hk
    exact ⟨j, hj, List.contains_iff_mem.1 hp⟩
  · intro hk
    obtain ⟨j, hj, hp⟩ := hk
    exact findIdx?_eq_some ((groups_ofLayout layout).apart.imp And.left) hj hp

theorem parentOf?_eq_some : parentOf? (ofLayout layout) s = some k ↔
    ∃ j : Junction, (ofLayout layout)[k]? = some j ∧ s ∈ j.children := by
  rw [parentOf?, ← @Array.toArray_toList _ (ofLayout layout), List.findIdx?_toArray]
  simp only [List.getElem?_toArray]
  constructor
  · intro hk
    obtain ⟨j, hj, hs⟩ := getElem?_of_findIdx? hk
    exact ⟨j, hj, List.contains_iff_mem.1 hs⟩
  · intro hk
    obtain ⟨j, hj, hs⟩ := hk
    exact findIdx?_eq_some ((groups_ofLayout layout).apart.imp And.right) hj hs

/-- The ends of an edge agree on its junction. -/
theorem exists_junction (he : (p, s) ∈ layout.edges) : ∃ k < (ofLayout layout).size,
    childOf? (ofLayout layout) p = some k ∧ parentOf? (ofLayout layout) s = some k := by
  obtain ⟨j, hj, hp, hs⟩ := (groups_ofLayout layout).joined _ he
  obtain ⟨k, hk⟩ := Array.mem_iff_getElem?.1 (Array.mem_toList_iff.1 hj)
  exact ⟨k, (Array.getElem?_eq_some_iff.1 hk).1, childOf?_eq_some.2 ⟨j, hk, hp⟩,
    parentOf?_eq_some.2 ⟨j, hk, hs⟩⟩

theorem check_ofLayout (layout : Layout) : check layout (ofLayout layout) = .ok () := by
  have hnone : layout.edges.find? (fun e => childOf? (ofLayout layout) e.1 ≠
      parentOf? (ofLayout layout) e.2) = none := by
    refine List.find?_eq_none.2 fun e he => ?_
    obtain ⟨k, _, hchild, hparent⟩ := exists_junction he
    simp [hchild, hparent]
  rw [check, hnone]

/-- A junction has only blocks. -/
theorem lt_of_mem_junction (h : layout.WellFormed) {j : Junction}
    (hj : j ∈ (ofLayout layout).toList) :
    (∀ x ∈ j.parents, x < layout.size) ∧ ∀ x ∈ j.children, x < layout.size := by
  have hgroups := groups_ofLayout layout
  constructor
  · intro x hx
    obtain ⟨⟨p, s⟩, he, rfl⟩ := hgroups.sources j hj x hx
    exact (Layout.mem_edges.1 he).1
  · intro x hx
    obtain ⟨⟨p, s⟩, he, rfl⟩ := hgroups.targets j hj x hx
    exact h.succ_lt p s (Layout.mem_edges.1 he).2

/-- Control leaves the entry through a junction if there is any. -/
theorem exists_childOf?_entry (h : layout.WellFormed) (hjs : (ofLayout layout).isEmpty = false) :
    ∃ k < (ofLayout layout).size, childOf? (ofLayout layout) 0 = some k := by
  obtain ⟨⟨p, s⟩, he⟩ : ∃ e, e ∈ layout.edges := by
    refine List.exists_mem_of_ne_nil _ fun hnil => ?_
    rw [ofLayout, hnil] at hjs
    cases hjs
  obtain ⟨hp, hs⟩ := Layout.mem_edges.1 he
  -- some way leads from the entry to the source of an edge, or the entry is the source
  obtain ⟨s', hs'⟩ : ∃ s', s' ∈ layout.succ 0 := by
    rcases (h.reachable p hp).cases_head with rfl | ⟨s', hs', _⟩
    · exact ⟨s, hs⟩
    · exact ⟨s', hs'⟩
  obtain ⟨k, hk, hchild, _⟩ :=
    exists_junction (Layout.mem_edges.2 ⟨Nat.lt_of_le_of_lt (Nat.zero_le p) hp, hs'⟩)
  exact ⟨k, hk, hchild⟩

end OfLayout

end Junction

end StackFlow
