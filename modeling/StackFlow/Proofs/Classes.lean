import StackFlow.Proofs.Origins

/-!
# Classes of temporaries

A class is made of copies of one value.

* `exists_site` finds the site of every store, so that all copies are found
  (`Aliases.copiesAt_iff`).
* `Graph.class_single_origin` is the result: a class has one member that copies no other,
  and whatever member of the class a run loads, it gets what was stored last into that one.
-/

namespace StackFlow

open Relation Forest

namespace Aliases

variable {g : Graph} {t u c : Int64}

/-! ## Sites of copies -/

/-- The store of a temporary is the root of a tree. -/
theorem exists_root {code : List Instr} {j : Nat} {p : Instr} (hp : code[j]? = some p)
    (hop : p.op = .tstore) (hshaped : p.Shaped) : ∃ r ∈ (Forest.ofCode code).roots,
      r.tree = .node j (takeOperands p.arity (grown code j).stack) := by
  have hmeta : p.isMeta = false := by simp [Instr.isMeta, hop, Opcode.row]
  have hpaired : p.isComplex = false := by simp [Instr.isComplex, hop, Opcode.row]
  have houtputs : p.outputs = 0 := by
    have houtputs := (hshaped (by simp [hop]) (by simp [hop])).2
    rwa [hop] at houtputs
  have hlt := (List.getElem?_eq_some_iff.1 hp).1
  let r : Root := ⟨.node j (takeOperands p.arity (grown code j).stack),
    (grown code j).collects || p.collects, []⟩
  have hroot : r ∈ (grown code (j + 1)).roots := by
    rw [grown_succ hp, step]
    simp only [hmeta, hpaired, houtputs, Bool.false_eq_true, if_false, if_true, Growing.root]
    exact List.mem_cons_self
  refine ⟨r, ?_, rfl⟩
  rw [Forest.ofCode_eq]
  exact List.mem_reverse.2 (mem_roots_of_le hroot hlt (Nat.le_refl _))

/-- Every store is the root of a site. -/
theorem exists_site {o : Options} {code : List Instr} (hbuilt : Graph.Built o code g)
    (hmade : ∀ p ∈ code, p.Constructed) {b j : Nat} {p : Instr}
    (hp : (g.block b).code[j]? = some p) (hop : p.op = .tstore) :
    ∃ r, ⟨(g.block b).code, r⟩ ∈ sites g g.forests ∧
      r.tree = .node j (takeOperands p.arity (grown (g.block b).code j).stack) := by
  have hmem := List.mem_of_getElem? hp
  obtain ⟨r, hr, htree⟩ := exists_root hp hop (hbuilt.shaped hmade hmem)
  exact ⟨r, mem_sites.2 ⟨b, Graph.Built.lt_of_mem_code hmem, r, hr, rfl⟩, htree⟩

/-- Every copy is found at a site. -/
theorem copiesAt_of_copies {o : Options} {code : List Instr} (hbuilt : Graph.Built o code g)
    (hmade : ∀ p ∈ code, p.Constructed) (h : Copies g t u) :
    CopiesAt (singleStores g) (sites g g.forests) t u := by
  obtain ⟨ht, hu, b, j, l, p, v, hp, hstores, hfeeds, hv, hload, hty⟩ := h
  have hop : p.op = .tstore := (Instr.stores_iff.1 hstores).1
  obtain ⟨r, hsite, htree⟩ := exists_site hbuilt hmade hp hop
  obtain ⟨p', w, hp', _, _, harity, hw, rfl⟩ := hfeeds
  rw [hp, Option.some_inj] at hp'
  subst hp'
  refine ⟨_, hsite, Site.copies_iff.2 ⟨p, w, v, ?_, hstores, ht, ?_, hv, hload, hty, hu⟩⟩
  · rw [htree]
    exact hp
  · rw [htree]
    exact Option.join_eq_some_iff.2 (getElem?_takeOperands.2 ⟨harity, hw⟩)

theorem copiesAt_iff {o : Options} {code : List Instr} (hbuilt : Graph.Built o code g)
    (hmade : ∀ p ∈ code, p.Constructed) :
    CopiesAt (singleStores g) (sites g g.forests) t u ↔ Copies g t u :=
  ⟨fun ⟨_, hx, hcopies⟩ => copies_of_site hx hcopies, copiesAt_of_copies hbuilt hmade⟩

end Aliases

/-! ## Members and their origin -/

section Members

variable {o : Options} {code : List Instr} {g : Graph} {t u r c : Int64}

theorem exists_storesAt (ht : t ∈ Aliases.singleStores g) : ∃ q, g.StoresAt q t := by
  have hcount := mem_singleStores.1 ht
  have hmem : t ∈ g.layout.toList.flatMap fun b => storedTemps b.code :=
    List.count_pos_iff.1 (by omega)
  obtain ⟨blk, hblk, hmem⟩ := List.mem_flatMap.1 hmem
  obtain ⟨p, hp, hstores⟩ := mem_storedTemps.1 hmem
  obtain ⟨b, hb⟩ := List.mem_iff_getElem?.1 hblk
  have hlt : b < g.size := by simpa [Graph.size] using (List.getElem?_eq_some_iff.1 hb).1
  rw [getElem?_layout hlt, Option.some_inj] at hb
  subst hb
  obtain ⟨j, hj⟩ := List.mem_iff_getElem?.1 hp
  exact ⟨⟨b, j⟩, p, hj, hstores⟩

/-- Following the copies from a temporary comes to an end, since some run stores it. -/
theorem exists_origin (hbuilt : Graph.Built o code g) (ht : t ∈ Aliases.singleStores g) :
    ∃ r, Origin g t r := by
  obtain ⟨q, hstored⟩ := exists_storesAt ht
  have hinside : q.index < (g.block q.block).code.length := by
    obtain ⟨p, hp, _⟩ := hstored
    exact (List.getElem?_eq_some_iff.1 hp).1
  obtain ⟨ps, hwalk, _⟩ := hbuilt.exists_first_walk hstored.lt_size (Nat.le_of_lt hinside)
  obtain ⟨r, horigin, _⟩ := origin_stored_of_store hbuilt (hwalk.step hinside)
    (List.mem_append_right _ List.mem_cons_self) hstored
  exact ⟨r, horigin⟩

/-- No store copies what it stores to. -/
theorem Copies.source_ne (h : Copies g t u) (horigin : Origin g t r) : u ≠ t := by
  rintro rfl
  have hstays : ∀ v, ReflTransGen (Copies g) u v → v = u := by
    intro v hway
    induction hway with
    | refl => rfl
    | tail _ hcopies ih =>
      subst ih
      exact hcopies.unique h
  rw [hstays r horigin.1] at horigin
  exact horigin.2 u h

namespace Aliases

theorem single_of_mem_members (ht : t ∈ g.aliases.members c) : t ∈ singleStores g :=
  (sound_aliases (mem_members.1 ht)).1

/-- The members of a class have the same origin. -/
theorem origin_iff_of_mem_members (ht : t ∈ g.aliases.members c)
    (hu : u ∈ g.aliases.members c) : Origin g t r ↔ Origin g u r :=
  origin_congr (.trans _ _ _ (sound_aliases (mem_members.1 ht)).2
    (.symm _ _ (sound_aliases (mem_members.1 hu)).2))

variable (hbuilt : Graph.Built o code g) (hmade : ∀ p ∈ code, p.Constructed)

include hbuilt hmade

/-- A copy is in the class of its source. -/
theorem mem_members_of_copies (h : Copies g t u) (ht : t ∈ g.aliases.members c) :
    u ∈ g.aliases.members c := by
  obtain ⟨x, hx, hcopies⟩ := copiesAt_of_copies hbuilt hmade h
  obtain ⟨-, hleast⟩ := mem_entries_ofSites.1 (mem_members.1 ht)
  have hrel : EqvGen (CopiesAt (singleStores g) (sites g g.forests)) t u :=
    .rel _ _ ⟨x, hx, hcopies⟩
  have hclass : ∀ v, EqvGen (CopiesAt (singleStores g) (sites g g.forests)) u v ↔
      EqvGen (CopiesAt (singleStores g) (sites g g.forests)) t v := fun v =>
    ⟨.trans _ _ _ hrel, .trans _ _ _ (.symm _ _ hrel)⟩
  refine mem_members.2 (mem_entries_ofSites.2 ⟨⟨x, hx, t, some u, hcopies, .inr rfl⟩, ?_⟩)
  simp only [hclass]
  exact hleast

theorem mem_members_of_way (h : ReflTransGen (Copies g) t r) (ht : t ∈ g.aliases.members c) :
    r ∈ g.aliases.members c := by
  induction h with
  | refl => exact ht
  | tail _ hcopies ih => exact mem_members_of_copies hbuilt hmade hcopies ih

end Aliases

end Members

/-- The temporary `r` is a member of class `c` whose store does not copy another member. -/
def Aliases.Original (g : Graph) (a : Aliases) (c r : Int64) : Prop :=
  r ∈ a.members c ∧ ∀ u ∈ a.members c, u ≠ r → ¬ Copies g r u

theorem Aliases.original_iff {o : Options} {code : List Instr} {g : Graph} {t r c : Int64}
    (hbuilt : Graph.Built o code g) (hmade : ∀ p ∈ code, p.Constructed)
    (ht : t ∈ g.aliases.members c) : Original g g.aliases c r ↔ Origin g t r := by
  constructor
  · rintro ⟨hr, hnone⟩
    obtain ⟨r', horigin⟩ := exists_origin hbuilt (single_of_mem_members hr)
    rcases horigin.1.cases_head with rfl | ⟨u, hcopies, _⟩
    · exact (origin_iff_of_mem_members hr ht).1 horigin
    · exact absurd hcopies (hnone u (mem_members_of_copies hbuilt hmade hcopies hr)
        (hcopies.source_ne horigin))
  · intro horigin
    exact ⟨mem_members_of_way hbuilt hmade horigin.1 ht, fun u _ _ => horigin.2 u⟩

namespace Graph

/-- Every class of temporaries, each of which is stored at one place, has exactly one
member whose store does not copy another; and whenever a run loads a member of the class,
it gets what was stored last into that one. -/
theorem class_single_origin {o : Options} {code : List Instr} {g : Graph}
    {forests : Array Forest} {c : Int64} (h : build o code = .ok g)
    (hmade : ∀ p ∈ code, p.Constructed) (hforests : Forest.ofGraph g = .ok forests)
    (hc : c ∈ (Aliases.compute g forests (Aliases.singleStores g)).classes) :
    (∀ t ∈ (Aliases.compute g forests (Aliases.singleStores g)).members c,
        ∃! q, g.StoresAt q t) ∧
      (∃! r, Aliases.Original g (Aliases.compute g forests (Aliases.singleStores g)) c r) ∧
      ∀ r, Aliases.Original g (Aliases.compute g forests (Aliases.singleStores g)) c r →
        ∀ (hist : List Event) (b i : Nat) (m : Machine), Run g hist b i m →
        ∀ (n : Nat) (e : Event) (t : Int64), hist[n]? = some e →
          t ∈ (Aliases.compute g forests (Aliases.singleStores g)).members c →
          e.instr.loads t = true → ∃ q v, LastStore (hist.take n) r q v ∧ e.results = [v] := by
  have hbuilt := built_of_build h
  obtain rfl := Forest.eq_of_ofGraph hforests
  change c ∈ g.aliases.classes at hc
  change (∀ t ∈ g.aliases.members c, _) ∧ (∃! r, Aliases.Original g g.aliases c r) ∧
    ∀ r, Aliases.Original g g.aliases c r → _
  obtain ⟨t₀, ht₀⟩ := Aliases.mem_classes_iff.1 hc
  obtain ⟨r₀, horigin₀⟩ := exists_origin hbuilt (Aliases.single_of_mem_members ht₀)
  refine ⟨fun t ht => ?_, ⟨r₀, ?_, fun r hr => ?_⟩,
    fun r hr hist b i m hrun n e t he ht hload => ?_⟩
  · have hsingle := Aliases.single_of_mem_members ht
    obtain ⟨q, hq⟩ := exists_storesAt hsingle
    exact ⟨q, hq, fun q' hq' => place_unique hsingle hq' hq⟩
  · exact (Aliases.original_iff hbuilt hmade ht₀).2 horigin₀
  · exact ((Aliases.original_iff hbuilt hmade ht₀).1 hr).unique horigin₀
  · exact hrun.loaded_origin hbuilt hmade he hload (Aliases.single_of_mem_members ht)
      ((Aliases.original_iff hbuilt hmade ht).1 hr)

/-- A loop that copies a new value in every turn. -/
def copyingRoutine : List Instr :=
  [.target 0, .number 5, .tstore .int32 0, .tload .int32 0, .tstore .int32 1, .tload .int32 1,
    .branch 0 true]

theorem class_single_origin_loop : ∃ g forests,
    build (Defaults.options {}) copyingRoutine = .ok g ∧ Forest.ofGraph g = .ok forests ∧
      (Aliases.compute g forests (Aliases.singleStores g)).members 0 = [0, 1] ∧
      (∃! r, Aliases.Original g (Aliases.compute g forests (Aliases.singleStores g)) 0 r) ∧
      ∀ r, Aliases.Original g (Aliases.compute g forests (Aliases.singleStores g)) 0 r →
        ∀ (hist : List Event) (b i : Nat) (m : Machine), Run g hist b i m →
        ∀ (n : Nat) (e : Event), hist[n]? = some e → e.instr.loads 1 = true →
          ∃ q v, LastStore (hist.take n) r q v ∧ e.results = [v] := by
  have hclass : (match build (Defaults.options {}) copyingRoutine with
      | .ok g => match Forest.ofGraph g with
        | .ok forests => (Aliases.compute g forests (Aliases.singleStores g)).members 0
        | _ => []
      | _ => []) = [0, 1] := by cbv
  have hmade : ∀ p ∈ copyingRoutine, p.Constructed := by
    simp only [copyingRoutine, List.forall_mem_cons]
    exact ⟨.target _, .numbered (by decide) 5, .tstore _ _, .tload _ _, .tstore _ _, .tload _ _,
      .branch _ _, by simp⟩
  split at hclass
  · rename_i g hbuild
    split at hclass
    · rename_i forests hforests
      have hmem : ∀ t ∈ [(0 : Int64), 1],
          t ∈ (Aliases.compute g forests (Aliases.singleStores g)).members 0 :=
        fun t ht => hclass ▸ ht
      obtain ⟨_, hone, hloads⟩ := class_single_origin hbuild hmade hforests
        (Aliases.mem_classes_iff.2 ⟨0, hmem 0 (by decide)⟩)
      exact ⟨g, forests, hbuild, hforests, hclass, hone, fun r hr hist b i m hrun n e he hload =>
        hloads r hr hist b i m hrun n e 1 he (hmem 1 (by decide)) hload⟩
    · cases hclass
  · cases hclass

end Graph

end StackFlow
