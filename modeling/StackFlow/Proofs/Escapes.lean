import StackFlow.Proofs.Dominators

/-!
# Ways that escape

Control that leaves a block may come to a collection, or leave the routine, before it arrives at
another block.

* `Layout.exists_way_iff_leads`: a search that stays clear of a block finds exactly the ways that
  do not pass through it.
* `Graph.escapesBetween_iff` is the result: a search from the successors of a block tells whether
  some such way escapes.
-/

namespace StackFlow

variable {layout : Layout} {a b c s : Nat} {bs : List Nat}

namespace Layout

/-- What is found on the way to a block can be gone through block by block. -/
theorem exists_way_of_reach (hreach : Relation.ReflTransGen
    (fun i j => j ∈ layout.succ i ∧ j ∈ layout.indices.filter (· ≠ b)) s c) (hs : s ≠ b) :
    ∃ bs, layout.Way s bs c ∧ b ∉ bs ++ [c] := by
  induction hreach with
  | refl => exact ⟨[], .refl, by simpa using hs.symm⟩
  | tail _ hstep ih =>
    obtain ⟨bs, hway, hnot⟩ := ih
    have hne := (List.mem_filter.1 hstep.2).2
    refine ⟨_, hway.step hstep.1, ?_⟩
    rw [List.mem_append, List.mem_singleton, not_or]
    exact ⟨hnot, fun heq => by simp [heq] at hne⟩

/-- A way that does not pass through `b` stays among the blocks that a search may enter. -/
theorem reach_of_way (hwf : layout.WellFormed) (hway : layout.Way s bs c)
    (hnot : b ∉ bs ++ [c]) : Relation.ReflTransGen
      (fun i j => j ∈ layout.succ i ∧ j ∈ layout.indices.filter (· ≠ b)) s c := by
  induction hway with
  | refl => exact .refl
  | step way edge ih =>
    rw [List.mem_append, List.mem_singleton, not_or] at hnot
    refine (ih hnot.1).tail ⟨edge, List.mem_filter.2 ⟨?_, by simpa using Ne.symm hnot.2⟩⟩
    exact List.mem_range.2 (hwf.succ_lt _ _ edge)

/-- A search from the successors of `a` that stays clear of `b` finds the blocks that control may
come to from there without passing through `b`. -/
theorem exists_way_iff_leads (hwf : layout.WellFormed) :
    Search.Leads layout.succ (layout.indices.filter (· ≠ b)) (layout.succ a) c ↔
      ∃ s bs, s ∈ layout.succ a ∧ layout.Way s bs c ∧ b ∉ bs ++ [c] := by
  constructor
  · intro hleads
    obtain ⟨s, hs, hin, hreach⟩ := hleads
    obtain ⟨bs, hway, hnot⟩ :=
      exists_way_of_reach hreach (by simpa using (List.mem_filter.1 hin).2)
    exact ⟨s, bs, hs, hway, hnot⟩
  · intro hway
    obtain ⟨s, bs, hs, hway, hnot⟩ := hway
    have hne : b ≠ s := fun heq => hnot (heq ▸ hway.start_mem)
    refine ⟨s, hs, List.mem_filter.2 ⟨?_, by simpa using hne.symm⟩, reach_of_way hwf hway hnot⟩
    exact List.mem_range.2 (hwf.succ_lt _ _ hs)

end Layout

namespace Graph

variable {o : Options} {code : List Instr} {g : Graph}

/-- A block of a graph may collect if one of its instructions may. -/
theorem Built.collects_iff (hbuilt : Built o code g) (hc : c < g.size) :
    (g.block c).facts.collects = true ↔ ∃ p ∈ (g.block c).code, p.collects = true := by
  rw [hbuilt.facts_eq hc]
  exact List.any_eq_true

/-- Control that leaves block `a` may escape before it arrives at block `b` exactly if the two
differ and some way from a successor of `a`, on which `b` does not occur, ends at a block that
may collect or has no successors. -/
theorem escapesBetween_iff (hbuild : build o code = .ok g) (a b : Nat) :
    g.escapesBetween a b = true ↔ a ≠ b ∧ ∃ s bs c, s ∈ g.layout.succ a ∧
      g.layout.Way s bs c ∧ b ∉ bs ++ [c] ∧
      ((∃ p ∈ (g.block c).code, p.collects = true) ∨ g.layout.succ c = []) := by
  have hbuilt := built_of_build hbuild
  have hwf := hbuilt.wellFormed
  have hnodup : (g.layout.indices.filter (· ≠ b)).Nodup := List.nodup_range.filter _
  -- what the search visits are the ends of the ways that do not pass through `b`
  have hvisited : ∀ c, c ∈ Search.visited g.layout.succ (g.layout.indices.filter (· ≠ b))
      (g.layout.succ a) ↔ ∃ s bs, s ∈ g.layout.succ a ∧ g.layout.Way s bs c ∧ b ∉ bs ++ [c] :=
    fun c => (Search.mem_visited hnodup).trans (Layout.exists_way_iff_leads hwf)
  have hlt : ∀ {s bs c}, s ∈ g.layout.succ a → g.layout.Way s bs c → c < g.size := by
    intro s bs c hs hway
    cases hway with
    | refl => exact hwf.succ_lt _ _ hs
    | step _ edge => exact hwf.succ_lt _ _ edge
  rw [escapesBetween, Bool.and_eq_true, decide_eq_true_eq]
  refine and_congr_right fun _ => ?_
  simp only [List.any_eq_true, Bool.or_eq_true, List.isEmpty_iff]
  constructor
  · intro hfound
    obtain ⟨c, hc, hescapes⟩ := hfound
    obtain ⟨s, bs, hs, hway, hnot⟩ := (hvisited c).1 hc
    rw [hbuilt.collects_iff (hlt hs hway)] at hescapes
    exact ⟨s, bs, c, hs, hway, hnot, hescapes⟩
  · intro hway
    obtain ⟨s, bs, c, hs, hway, hnot, hescapes⟩ := hway
    rw [← hbuilt.collects_iff (hlt hs hway)] at hescapes
    exact ⟨c, (hvisited c).2 ⟨s, bs, hs, hway, hnot⟩, hescapes⟩

/-- Control that leaves the second block of the loop of `twoWayLoop` may go round for ever, but
does not get out except through the last block; from the entry it may get out clear of the first
block of the loop. -/
theorem escapesBetween_iff_twoWayLoop :
    ∃ g, build (Defaults.options {}) twoWayLoop = .ok g ∧
      (¬ ∃ s bs c, s ∈ g.layout.succ 3 ∧ g.layout.Way s bs c ∧ 4 ∉ bs ++ [c] ∧
        ((∃ p ∈ (g.block c).code, p.collects = true) ∨ g.layout.succ c = [])) ∧
      ∃ s bs c, s ∈ g.layout.succ 0 ∧ g.layout.Way s bs c ∧ 2 ∉ bs ++ [c] ∧
        ((∃ p ∈ (g.block c).code, p.collects = true) ∨ g.layout.succ c = []) := by
  obtain ⟨g, hbuild, hfacts⟩ := exists_ok_of_any (x := build (Defaults.options {}) twoWayLoop)
    (P := fun g => !g.escapesBetween 3 4 && g.escapesBetween 0 2) (by cbv)
  rw [Bool.and_eq_true, Bool.not_eq_true'] at hfacts
  refine ⟨g, hbuild, fun hescapes => ?_, ((escapesBetween_iff hbuild 0 2).1 hfacts.2).2⟩
  have hcaught := (escapesBetween_iff hbuild 3 4).2 ⟨by decide, hescapes⟩
  rw [hfacts.1] at hcaught
  cases hcaught

end Graph

end StackFlow
