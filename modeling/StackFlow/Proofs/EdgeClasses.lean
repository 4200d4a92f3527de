import StackFlow.Proofs.Junctions

/-!
# Junctions as classes of edges

The junctions are the finest grouping of the edges that does not tear apart edges with a common
source or a common target.

* `Chained` is when two edges have to be together: a chain of edges links them in which each
  edge shares an end with the next one.
* `Classes` is what is kept while edges are added, besides `Groups`: every junction has an edge, and
  the edges of one junction are chained.  `classes_addEdge` is one edge.  It joins what it touches,
  and all of that is chained to it.
* `Partition` says what the junctions of a layout are, and how the blocks are linked to them.
  `junctions_ofCode` is the main result: every routine has such junctions.
-/

namespace StackFlow.Junction

open Relation

/-! ## Edges that belong together -/

/-- The junction has both ends of the edge. -/
def Holds (j : Junction) (e : Nat × Nat) : Prop := e.1 ∈ j.parents ∧ e.2 ∈ j.children

/-- Both are edges out of `es`, and they share their source or their target. -/
def Meet (es : List (Nat × Nat)) (e f : Nat × Nat) : Prop :=
  e ∈ es ∧ f ∈ es ∧ (e.1 = f.1 ∨ e.2 = f.2)

/-- A chain of edges out of `es` leads from one edge to the other, in which each edge shares its
source or its target with the next one. -/
def Chained (es : List (Nat × Nat)) (e f : Nat × Nat) : Prop := ReflTransGen (Meet es) e f

section Chained

variable {es es' : List (Nat × Nat)} {e f : Nat × Nat}

theorem Meet.symm (h : Meet es e f) : Meet es f e :=
  ⟨h.2.1, h.1, h.2.2.imp Eq.symm Eq.symm⟩

theorem Chained.symm (h : Chained es e f) : Chained es f e := by
  induction h with
  | refl => exact .refl
  | tail _ hmeet ih => exact .head hmeet.symm ih

theorem Chained.mono (h : Chained es e f) (hsub : es ⊆ es') : Chained es' e f := by
  induction h with
  | refl => exact .refl
  | tail _ hmeet ih => exact ih.tail ⟨hsub hmeet.1, hsub hmeet.2.1, hmeet.2.2⟩

end Chained

/-! ## Adding one edge -/

/-- What the junctions `js` of the edges `es` keep while edges are added. -/
structure Classes (es : List (Nat × Nat)) (js : List Junction) : Prop extends Groups es js where
  inhabited : ∀ j ∈ js, ∃ e ∈ es, j.Holds e
  chained : ∀ j ∈ js, ∀ e ∈ es, ∀ f ∈ es, j.Holds e → j.Holds f → Chained es e f

section Classes

variable {es : List (Nat × Nat)} {js : List Junction} {j k : Junction} {e : Nat × Nat} {p s x : Nat}

/-- Only one junction has a block as a parent or as a child. -/
theorem Groups.eq_of_mem (h : Groups es js) (hj : j ∈ js) (hk : k ∈ js)
    (hx : x ∈ j.parents ∧ x ∈ k.parents ∨ x ∈ j.children ∧ x ∈ k.children) : j = k := by
  have : Std.Symm Apart := ⟨fun _ _ => Apart.symm⟩
  by_contra hne
  have hapart : Apart j k := h.apart.forall hj hk hne
  rcases hx with ⟨hxj, hxk⟩ | ⟨hxj, hxk⟩
  · exact hapart.1 x hxj hxk
  · exact hapart.2 x hxj hxk

/-- An edge belongs to the junction of either end. -/
theorem Groups.holds (h : Groups es js) (hj : j ∈ js) (he : e ∈ es)
    (hend : e.1 ∈ j.parents ∨ e.2 ∈ j.children) : j.Holds e := by
  obtain ⟨k, hk, hholds⟩ := h.joined e he
  rcases hend with hp | hs
  · exact h.eq_of_mem hj hk (.inl ⟨hp, hholds.1⟩) ▸ hholds
  · exact h.eq_of_mem hj hk (.inr ⟨hs, hholds.2⟩) ▸ hholds

/-- The edges of a junction that a new edge touches are chained to the new edge. -/
theorem Classes.chained_new (h : Classes es js) (hj : j ∈ js)
    (htouches : p ∈ j.parents ∨ s ∈ j.children) (he : e ∈ es) (hholds : j.Holds e) :
    Chained (es ++ [(p, s)]) e (p, s) := by
  have hnew : (p, s) ∈ es ++ [(p, s)] := by simp
  have hsub : es ⊆ es ++ [(p, s)] := List.subset_append_left _ _
  -- some edge of the junction shares an end with the new one
  obtain ⟨f, hf, hfj, hshare⟩ : ∃ f ∈ es, j.Holds f ∧ (f.1 = p ∨ f.2 = s) := by
    rcases htouches with hp | hs
    · obtain ⟨f, hf, hfp⟩ := h.sources j hj p hp
      exact ⟨f, hf, h.holds hj hf (.inl (hfp.symm ▸ hp)), .inl hfp⟩
    · obtain ⟨f, hf, hfs⟩ := h.targets j hj s hs
      exact ⟨f, hf, h.holds hj hf (.inr (hfs.symm ▸ hs)), .inr hfs⟩
  have hold : Chained (es ++ [(p, s)]) e f := (h.chained j hj e he f hf hholds hfj).mono hsub
  exact hold.tail ⟨hsub hf, hnew, hshare⟩

/-- An edge joins the classes that it touches, which are all chained to it. -/
theorem classes_addEdge (h : Classes es js) :
    Classes (es ++ [(p, s)]) (Junction.addEdge js p s) := by
  have hgroups : Groups (es ++ [(p, s)]) (Junction.addEdge js p s) := h.toGroups.addEdge
  obtain ⟨touched, joined, rest, hadds⟩ := addEdge_spec js p s
  have htouched : ∀ j ∈ touched, j ∈ js :=
    fun j hj => hadds.before.mem_iff.2 (List.mem_append_left _ hj)
  have hrest : ∀ j ∈ rest, j ∈ js :=
    fun j hj => hadds.before.mem_iff.2 (List.mem_append_right _ hj)
  have hnew : joined.Holds (p, s) :=
    ⟨(hadds.parents p).2 (.inl rfl), (hadds.children s).2 (.inl rfl)⟩
  have hsub : es ⊆ es ++ [(p, s)] := List.subset_append_left _ _
  refine { hgroups with inhabited := fun j hj => ?_, chained := fun j hj e he f hf hje hjf => ?_ }
  · rcases List.mem_cons.1 (hadds.after.mem_iff.1 hj) with hjoined | hj
    · subst hjoined
      exact ⟨(p, s), by simp, hnew⟩
    · obtain ⟨e, he, hholds⟩ := h.inhabited j (hrest j hj)
      exact ⟨e, hsub he, hholds⟩
  · rcases List.mem_cons.1 (hadds.after.mem_iff.1 hj) with hjoined | hj
    · subst hjoined
      -- both edges are chained to the new one
      have hall : ∀ e ∈ es ++ [(p, s)], j.Holds e → Chained (es ++ [(p, s)]) e (p, s) := by
        intro e he hholds
        rcases List.mem_append.1 he with hold | hlast
        · rcases (hadds.parents e.1).1 hholds.1 with heq | ⟨k, hk, hx⟩
          · exact .single ⟨he, by simp, .inl heq⟩
          · exact h.chained_new (htouched k hk) (hadds.touches k hk) hold
              (h.holds (htouched k hk) hold (.inl hx))
        · rw [List.mem_singleton.1 hlast]
          exact .refl
      exact (hall e he hje).trans (hall f hf hjf).symm
    · -- the new edge has no end in a junction that is left alone
      have hapart : Apart joined j :=
        (List.pairwise_cons.1 ((hadds.after.pairwise_iff Apart.symm).1 hgroups.apart)).1 j hj
      have hold : ∀ e ∈ es ++ [(p, s)], j.Holds e → e ∈ es := by
        intro e he hholds
        rcases List.mem_append.1 he with hold | hlast
        · exact hold
        · rw [List.mem_singleton.1 hlast] at hholds
          exact absurd hholds.1 (hapart.1 p hnew.1)
      exact (h.chained j (hrest j hj) e (hold e he hje) f (hold f hf hjf) hje hjf).mono hsub

theorem classes_ofLayout (layout : Layout) : Classes layout.edges (ofLayout layout).toList :=
  ofLayout_induct ⟨⟨.nil, by simp, by simp, by simp⟩, by simp, by simp⟩
    (fun _ _ _ _ => classes_addEdge) layout

/-- Edges that are chained have the same junction. -/
theorem Groups.holds_of_chained {f : Nat × Nat} (h : Groups es js) (hj : j ∈ js)
    (hchain : Chained es e f) (he : j.Holds e) : j.Holds f := by
  induction hchain with
  | refl => exact he
  | tail _ hmeet ih =>
    refine h.holds hj hmeet.2.1 ?_
    rcases hmeet.2.2 with hp | hs
    · exact .inl (hp ▸ ih.1)
    · exact .inr (hs ▸ ih.2)

end Classes

/-! ## The junctions of a routine -/

/-- The junctions `js` are the classes of the edges of the blocks, and the blocks are linked to
them by index. -/
structure Partition (layout : Layout) (js : Array Junction) : Prop where
  /-- Every junction has an edge. -/
  inhabited : ∀ j ∈ js, ∃ e ∈ layout.edges, j.Holds e
  /-- Every block of a junction is an end of one of its edges. -/
  parents : ∀ j ∈ js, ∀ b ∈ j.parents, ∃ s ∈ layout.succ b, j.Holds (b, s)
  children : ∀ j ∈ js, ∀ b ∈ j.children, ∃ p ∈ layout.pred b, j.Holds (p, b)
  /-- Every edge has one junction. -/
  unique : ∀ e ∈ layout.edges, ∃! k : Nat, ∃ j : Junction, js[k]? = some j ∧ j.Holds e
  /-- The junctions are as fine as they can be. -/
  chained : ∀ e ∈ layout.edges, ∀ f ∈ layout.edges,
    (∃ j ∈ js, Holds j e ∧ Holds j f) ↔ Chained layout.edges e f
  /-- No block is a parent of two junctions, or a child of two. -/
  apart : ∀ (k l : Nat) (j j' : Junction), js[k]? = some j → js[l]? = some j' → k ≠ l → Apart j j'
  /-- Both ends of an edge have the index of its junction. -/
  linked : ∀ e ∈ layout.edges, ∃ (k : Nat) (j : Junction), js[k]? = some j ∧ j.Holds e ∧
    childOf? js e.1 = some k ∧ parentOf? js e.2 = some k
  /-- The links lead to junctions that have the block. -/
  childOf?_iff : ∀ b k, childOf? js b = some k ↔ ∃ j : Junction, js[k]? = some j ∧ b ∈ j.parents
  parentOf?_iff : ∀ b k, parentOf? js b = some k ↔ ∃ j : Junction, js[k]? = some j ∧ b ∈ j.children
  /-- Where there are no ways there is no junction. -/
  childOf?_none : ∀ b, layout.succ b = [] → childOf? js b = none
  parentOf?_none : ∀ b, layout.pred b = [] → parentOf? js b = none

section Partition

variable {layout : Layout} {k l : Nat} {j j' : Junction} {e : Nat × Nat} {b : Nat}

theorem mem_ofLayout (hj : (ofLayout layout)[k]? = some j) : j ∈ (ofLayout layout).toList :=
  Array.mem_toList_iff.2 (Array.mem_of_getElem? hj)

/-- Junctions at different places have no block in common. -/
theorem apart_ofLayout (hj : (ofLayout layout)[k]? = some j)
    (hj' : (ofLayout layout)[l]? = some j') (hne : k ≠ l) : Apart j j' := by
  have hpairwise := List.pairwise_iff_getElem.1 (groups_ofLayout layout).apart
  rw [← Array.getElem?_toList] at hj hj'
  obtain ⟨hk, rfl⟩ := List.getElem?_eq_some_iff.1 hj
  obtain ⟨hl, rfl⟩ := List.getElem?_eq_some_iff.1 hj'
  rcases Nat.lt_or_gt_of_ne hne with hlt | hgt
  · exact hpairwise k l hk hl hlt
  · exact (hpairwise l k hl hk hgt).symm

/-- Every edge has a junction. -/
theorem exists_holds (he : e ∈ layout.edges) :
    ∃ (k : Nat) (j : Junction), (ofLayout layout)[k]? = some j ∧ j.Holds e := by
  obtain ⟨j, hj, hholds⟩ := (groups_ofLayout layout).joined e he
  obtain ⟨k, hk⟩ := Array.mem_iff_getElem?.1 (Array.mem_toList_iff.1 hj)
  exact ⟨k, j, hk, hholds⟩

theorem partition_ofLayout (hways : ∀ b s, s ∈ layout.succ b ↔ b ∈ layout.pred s) :
    Partition layout (ofLayout layout) := by
  have hclasses := classes_ofLayout layout
  have hsource : ∀ {k b : Nat} {j : Junction}, (ofLayout layout)[k]? = some j → b ∈ j.parents →
      ∃ s ∈ layout.succ b, j.Holds (b, s) := by
    intro k b j hj hb
    obtain ⟨⟨p, s⟩, he, rfl⟩ := hclasses.sources _ (mem_ofLayout hj) b hb
    exact ⟨s, (Layout.mem_edges.1 he).2, hclasses.holds (mem_ofLayout hj) he (.inl hb)⟩
  have htarget : ∀ {k b : Nat} {j : Junction}, (ofLayout layout)[k]? = some j → b ∈ j.children →
      ∃ p ∈ layout.pred b, j.Holds (p, b) := by
    intro k b j hj hb
    obtain ⟨⟨p, s⟩, he, rfl⟩ := hclasses.targets _ (mem_ofLayout hj) b hb
    exact ⟨p, (hways p s).1 (Layout.mem_edges.1 he).2,
      hclasses.holds (mem_ofLayout hj) he (.inr hb)⟩
  constructor
  · intro j hj
    exact hclasses.inhabited j (Array.mem_toList_iff.2 hj)
  · intro j hj b hb
    obtain ⟨k, hk⟩ := Array.mem_iff_getElem?.1 hj
    exact hsource hk hb
  · intro j hj b hb
    obtain ⟨k, hk⟩ := Array.mem_iff_getElem?.1 hj
    exact htarget hk hb
  · intro e he
    obtain ⟨k, j, hj, hholds⟩ := exists_holds he
    refine ⟨k, ⟨j, hj, hholds⟩, ?_⟩
    intro l hl
    obtain ⟨j', hj', hholds'⟩ := hl
    by_contra hne
    exact (apart_ofLayout hj' hj hne).1 e.1 hholds'.1 hholds.1
  · intro e he f hf
    constructor
    · intro hshared
      obtain ⟨j, hj, hje, hjf⟩ := hshared
      exact hclasses.chained j (Array.mem_toList_iff.2 hj) e he f hf hje hjf
    · intro hchain
      obtain ⟨k, j, hj, hje⟩ := exists_holds he
      exact ⟨j, Array.mem_of_getElem? hj, hje,
        hclasses.holds_of_chained (mem_ofLayout hj) hchain hje⟩
  · exact fun k l j j' => apart_ofLayout
  · intro e he
    obtain ⟨k, j, hj, hholds⟩ := exists_holds he
    exact ⟨k, j, hj, hholds, childOf?_eq_some.2 ⟨j, hj, hholds.1⟩,
      parentOf?_eq_some.2 ⟨j, hj, hholds.2⟩⟩
  · exact fun b k => childOf?_eq_some
  · exact fun b k => parentOf?_eq_some
  · intro b hnil
    refine Option.eq_none_iff_forall_ne_some.2 fun k hk => ?_
    obtain ⟨j, hj, hb⟩ := childOf?_eq_some.1 hk
    obtain ⟨s, hs, _⟩ := hsource hj hb
    rw [hnil] at hs
    cases hs
  · intro b hnil
    refine Option.eq_none_iff_forall_ne_some.2 fun k hk => ?_
    obtain ⟨j, hj, hb⟩ := parentOf?_eq_some.1 hk
    obtain ⟨p, hp, _⟩ := htarget hj hb
    rw [hnil] at hp
    cases hp

/-- The edges of every routine fit their junctions, which are the classes of the edges. -/
theorem junctions_ofCode (code : List Instr) :
    check (Layout.ofCode code) (ofLayout (Layout.ofCode code)) = .ok () ∧
      Partition (Layout.ofCode code) (ofLayout (Layout.ofCode code)) := by
  refine ⟨check_ofLayout _, partition_ofLayout fun b s => ?_⟩
  exact (Layout.twoSided_ofCode code).mem_succ_iff_mem_pred b s

end Partition

end StackFlow.Junction

namespace StackFlow.Graph

/-- The junctions of every graph that is built are the classes of its edges. -/
theorem partition_of_build {o : Options} {code : List Instr} {g : Graph}
    (h : build o code = .ok g) : Junction.Partition g.layout g.junctions := by
  have hbuilt := built_of_build h
  rw [hbuilt.junctions]
  exact Junction.partition_ofLayout hbuilt.wellFormed.mem_succ_iff_mem_pred

end StackFlow.Graph
