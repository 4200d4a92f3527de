import StackFlow.Proofs.Classes

/-!
# Classes are made by copies

* `mem_singleStores_iff` says that the temporaries with a single store are those that are stored
  at exactly one place of the graph.
* `Aliases.Partitions g a` says that `a` maps those to the classes of the equivalence that the
  copies of the graph generate, each by its smallest member.
* `Graph.classes_exact` is the result, for any order in which the stores are visited.
-/

namespace StackFlow

open Relation

variable {g : Graph} {t k : Int64}

/-! ## Temporaries with a single store -/

/-- What only one element of a list has, and that once, the list has once. -/
theorem count_flatMap_eq_one {α : Type} {f : α → List Int64} {xs : List α} {i : Nat} {x : α}
    (hx : xs[i]? = some x) (hcount : (f x).count t = 1)
    (honly : ∀ j y, xs[j]? = some y → t ∈ f y → j = i) : (xs.flatMap f).count t = 1 := by
  obtain ⟨hi, rfl⟩ := List.getElem?_eq_some_iff.1 hx
  have hnone : ∀ ys : List α, (∀ y ∈ ys, ∃ j, xs[j]? = some y ∧ j ≠ i) →
      (ys.flatMap f).count t = 0 := by
    intro ys hys
    refine List.count_eq_zero.2 fun hmem => ?_
    obtain ⟨y, hy, ht⟩ := List.mem_flatMap.1 hmem
    obtain ⟨j, hj, hne⟩ := hys y hy
    exact hne (honly j y hj ht)
  have hsplit : xs = xs.take i ++ xs[i] :: xs.drop (i + 1) := by
    rw [List.getElem_cons_drop, List.take_append_drop]
  have htake : ((xs.take i).flatMap f).count t = 0 := by
    refine hnone _ fun y hy => ?_
    obtain ⟨j, hj⟩ := List.mem_iff_getElem?.1 hy
    rw [List.getElem?_take] at hj
    split at hj
    · exact ⟨j, hj, by omega⟩
    · cases hj
  have hdrop : ((xs.drop (i + 1)).flatMap f).count t = 0 := by
    refine hnone _ fun y hy => ?_
    obtain ⟨j, hj⟩ := List.mem_iff_getElem?.1 hy
    rw [List.getElem?_drop] at hj
    exact ⟨i + 1 + j, hj, by omega⟩
  rw [hsplit, List.flatMap_append, List.flatMap_cons, List.count_append, List.count_append, htake,
    hdrop, hcount]

theorem storedTemps_eq_flatMap (code : List Instr) :
    storedTemps code = code.flatMap fun p => storedTemps [p] := by
  induction code with
  | nil => rfl
  | cons p code ih => rw [List.flatMap_cons, ← ih, ← storedTemps_append, List.singleton_append]

theorem mem_singleStores_iff : t ∈ Aliases.singleStores g ↔ ∃! q, g.StoresAt q t := by
  constructor
  · intro ht
    obtain ⟨q, hq⟩ := exists_storesAt ht
    exact ⟨q, hq, fun q' hq' => place_unique ht hq' hq⟩
  · rintro ⟨⟨b, j⟩, ⟨p, hp, hstores⟩, honly⟩
    have hlt : b < g.size := Graph.Built.lt_of_mem_code (List.mem_of_getElem? hp)
    rw [mem_singleStores]
    refine count_flatMap_eq_one (getElem?_layout hlt) ?_ fun b' blk hblk ht => ?_
    · rw [storedTemps_eq_flatMap]
      refine count_flatMap_eq_one hp ?_ fun i p' hp' ht => ?_
      · rw [Instr.stores_iff] at hstores
        simp [storedTemps, hstores.1, hstores.2]
      · obtain ⟨p'', hp'', hstores'⟩ := mem_storedTemps.1 ht
        obtain rfl := List.mem_singleton.1 hp''
        have hplace := honly ⟨b, i⟩ ⟨p'', hp', hstores'⟩
        exact congrArg Place.index hplace
    · obtain ⟨p', hp', hstores'⟩ := mem_storedTemps.1 ht
      obtain ⟨i, hi⟩ := List.mem_iff_getElem?.1 hp'
      have hlt' : b' < g.size := by simpa [Graph.size] using (List.getElem?_eq_some_iff.1 hblk).1
      rw [getElem?_layout hlt', Option.some_inj] at hblk
      subst hblk
      exact congrArg Place.block (honly ⟨b', i⟩ ⟨p', hi, hstores'⟩)

/-! ## The classes of a graph -/

namespace Aliases

/-- The classes of the temporaries that are stored at exactly one place: those of the equivalence
that the copies generate, each named by its smallest member. -/
structure Partitions (g : Graph) (a : Aliases) : Prop where
  tracked : ∀ t, (∃ k, a.class? t = some k) ↔ ∃! q, g.StoresAt q t
  eq_iff : ∀ {t u k l : Int64}, a.class? t = some k → a.class? u = some l →
    (k = l ↔ EqvGen (Copies g) t u)
  least : ∀ {t k : Int64}, a.class? t = some k → IsLeast {u | EqvGen (Copies g) t u} k

variable {o : Options} {code : List Instr} (hbuilt : Graph.Built o code g)
  (hmade : ∀ p ∈ code, p.Constructed)

include hbuilt hmade

/-- Every single store is found. -/
theorem seenAt_iff : SeenAt (singleStores g) (sites g g.forests) t ↔ t ∈ singleStores g := by
  refine ⟨fun ⟨_, _, hsees⟩ => hsees.single, fun ht => ?_⟩
  obtain ⟨⟨b, j⟩, p, hp, hstores⟩ := exists_storesAt ht
  have hop : p.op = .tstore := (Instr.stores_iff.1 hstores).1
  obtain ⟨r, hsite, htree⟩ := exists_site hbuilt hmade hp hop
  refine ⟨_, hsite, t, _, Site.found?_eq_some_iff.2 ⟨p, ?_, hstores, ht, rfl⟩, .inl rfl⟩
  rw [htree]
  exact hp

theorem partitions_aliases : Partitions g g.aliases := by
  have hcopies : CopiesAt (singleStores g) (sites g g.forests) = Copies g := by
    funext t u
    exact propext (copiesAt_iff hbuilt hmade)
  obtain ⟨c, hexact, hleast, hmem⟩ := exists_names (singleStores g) (sites g g.forests)
  rw [hcopies] at hexact hleast
  have hclass : ∀ {t k}, g.aliases.class? t = some k ↔ (∃! q, g.StoresAt q t) ∧ c t = k := by
    intro t k
    rw [Graph.aliases, compute, (sorted_ofSites _ _).class?_eq_some_iff, hmem,
      seenAt_iff hbuilt hmade, mem_singleStores_iff]
  refine ⟨fun t => ?_, fun ht hu => ?_, fun ht => ?_⟩
  · simp only [hclass, exists_and_left, exists_eq', and_true]
  · rw [← (hclass.1 ht).2, ← (hclass.1 hu).2]
    exact hexact.eq_iff _ _
  · rw [← (hclass.1 ht).2]
    exact hleast _

end Aliases

namespace Graph

/-- The passes find the classes of every graph with forests, which is every one whose operands can
be laid out: they are those of the copies, and the order in which the stores are visited does not
matter. -/
theorem classes_exact {o : Options} {code : List Instr} (h : build o code = .ok g)
    (hmade : ∀ p ∈ code, p.Constructed) :
    ((∃ forests, Forest.ofGraph g = .ok forests) ↔
        ∀ b, ∀ p ∈ (g.block b).code, Forest.canLayOut p = true) ∧
      ∀ forests, Forest.ofGraph g = .ok forests →
        (Aliases.compute g forests (Aliases.singleStores g)).Partitions g ∧
        ∀ xs, xs.Perm (Aliases.sites g forests) → Aliases.ofSites (Aliases.singleStores g) xs =
          Aliases.compute g forests (Aliases.singleStores g) := by
  refine ⟨?_, fun forests hforests => ?_⟩
  · rw [← Forest.canLayOut_iff, Forest.ofGraph]
    split
    · exact ⟨fun _ => ‹_›, fun _ => ⟨_, rfl⟩⟩
    · rename_i hall
      refine ⟨?_, fun hlayout => absurd hlayout hall⟩
      rintro ⟨forests, herror⟩
      cases herror
  · obtain rfl := Forest.eq_of_ofGraph hforests
    exact ⟨Aliases.partitions_aliases (built_of_build h) hmade,
      fun xs hperm => Aliases.ofSites_congr fun _ => hperm.mem_iff⟩

/-- Control comes to the blocks in another order than they stand in: `t2` is stored as a copy of
`t1` in a block before the one that stores `t1`, and `t0` as a copy of `t2` in the last one. -/
def copiesInTurn : List Instr :=
  [.hop 1, .target 0, .tload .int32 1, .tstore .int32 2, .hop 2, .target 1, .number 5,
    .tstore .int32 1, .hop 0, .target 2, .tload .int32 2, .tstore .int32 0]

theorem classes_exact_in_turn : ∃ g forests,
    build (Defaults.options {}) copiesInTurn = .ok g ∧ Forest.ofGraph g = .ok forests ∧
      (Aliases.compute g forests (Aliases.singleStores g)).entries = [(0, 0), (1, 0), (2, 0)] ∧
      EqvGen (Copies g) 0 1 ∧ (∃! q, g.StoresAt q 1) ∧
      ∀ xs, xs.Perm (Aliases.sites g forests) →
        (Aliases.ofSites (Aliases.singleStores g) xs).class? 1 = some 0 := by
  have hentries : (match build (Defaults.options {}) copiesInTurn with
      | .ok g => match Forest.ofGraph g with
        | .ok forests => (Aliases.compute g forests (Aliases.singleStores g)).entries
        | _ => []
      | _ => []) = [(0, 0), (1, 0), (2, 0)] := by cbv
  have hmade : ∀ p ∈ copiesInTurn, p.Constructed := by
    simp only [copiesInTurn, List.forall_mem_cons]
    exact ⟨.hop _, .target _, .tload _ _, .tstore _ _, .hop _, .target _, .numbered (by decide) 5,
      .tstore _ _, .hop _, .target _, .tload _ _, .tstore _ _, by simp⟩
  split at hentries
  · rename_i g hbuild
    split at hentries
    · rename_i forests hforests
      obtain ⟨hparts, horder⟩ := (classes_exact hbuild hmade).2 forests hforests
      have hzero : (Aliases.compute g forests (Aliases.singleStores g)).class? 0 = some 0 := by
        rw [Aliases.class?, hentries]
        rfl
      have hone : (Aliases.compute g forests (Aliases.singleStores g)).class? 1 = some 0 := by
        rw [Aliases.class?, hentries]
        rfl
      refine ⟨g, forests, hbuild, hforests, hentries, (hparts.eq_iff hzero hone).1 rfl,
        (hparts.tracked 1).1 ⟨0, hone⟩, fun xs hperm => ?_⟩
      rw [horder xs hperm]
      exact hone
    · cases hentries
  · cases hentries

end Graph

end StackFlow
