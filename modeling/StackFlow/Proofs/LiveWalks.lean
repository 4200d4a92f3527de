import StackFlow.Proofs.Convergence

/-!
# Live temporaries and walks

The live sets are computed block by block from the facts of the blocks.  A reader of the
sets thinks of single instructions: something is live where control may go on to a load of
it without passing a store.

* `Graph.LoadsAhead` says that of a place, as a walk through the graph.
* `LoadsAhead.here`, `LoadsAhead.next` and `LoadsAhead.leave` extend such a walk backward by one
  step, `LoadsAhead.of_rest` over the rest of a block, and `loadsAhead_of_reads` over any number
  of blocks.
* `Built.loadsAhead_iff` is the way back: what is loaded ahead of a place is told by the rest of
  its block and the live sets.
* `Graph.live_iff_loadsAhead` is the main result: the live sets hold exactly the temporaries
  that are loaded ahead.
-/

namespace StackFlow

namespace Graph

/-- Some walk from the place `a` gets to a load of `t` and stores `t` nowhere before. -/
def LoadsAhead (g : Graph) (t : Int64) (a : Place) : Prop :=
  ∃ ps q p, Walk g a ps q ∧ g.at? q = some p ∧ p.loads t = true ∧
    ∀ q' ∈ ps, ∀ p', g.at? q' = some p' → p'.stores t = false

variable {g : Graph} {t : Int64} {b i : Nat}

theorem LoadsAhead.here {q : Place} {p : Instr} (hp : g.at? q = some p)
    (hload : p.loads t = true) : g.LoadsAhead t q :=
  ⟨[], q, p, .refl q, hp, hload, by simp⟩

/-- An instruction that does not store the temporary leaves it loaded ahead. -/
theorem LoadsAhead.next {p : Instr} (hp : g.at? ⟨b, i⟩ = some p) (hstores : p.stores t = false)
    (h : g.LoadsAhead t ⟨b, i + 1⟩) : g.LoadsAhead t ⟨b, i⟩ := by
  obtain ⟨ps, q, r, hwalk, hr, hload, hbefore⟩ := h
  have hstep : Walk g ⟨b, i⟩ ([] ++ [⟨b, i⟩]) ⟨b, i + 1⟩ :=
    .step (.refl _) (List.getElem?_eq_some_iff.1 hp).1
  refine ⟨_, q, r, hstep.append hwalk, hr, hload, ?_⟩
  intro q' hq' p' hp'
  cases hq' with
  | head =>
    rw [hp, Option.some_inj] at hp'
    exact hp' ▸ hstores
  | tail _ hrest => exact hbefore q' hrest p' hp'

/-- What is loaded ahead of a successor is loaded ahead of the end of a block. -/
theorem LoadsAhead.leave {s : Nat} (hi : i = (g.block b).code.length)
    (hs : s ∈ (g.block b).succ) (h : g.LoadsAhead t ⟨s, 0⟩) : g.LoadsAhead t ⟨b, i⟩ := by
  obtain ⟨ps, q, p, hwalk, hp, hload, hbefore⟩ := h
  have hcross : Walk g ⟨b, i⟩ [] ⟨s, 0⟩ := .jump (.refl _) hi hs
  exact ⟨_, q, p, hcross.append hwalk, hp, hload, hbefore⟩

/-- A temporary is loaded ahead of a place if the rest of the block loads it before storing it,
or does not store it and leads to a block that it is loaded ahead of. -/
theorem LoadsAhead.of_rest (hi : i ≤ (g.block b).code.length)
    (h : Block.Needs t ((g.block b).code.drop i) ∨
      (∀ p ∈ (g.block b).code.drop i, p.stores t = false) ∧
        ∃ s ∈ (g.block b).succ, g.LoadsAhead t ⟨s, 0⟩) : g.LoadsAhead t ⟨b, i⟩ := by
  generalize hrest : (g.block b).code.drop i = rest at h
  induction rest generalizing i with
  | nil =>
    have hend : i = (g.block b).code.length :=
      Nat.le_antisymm hi (List.drop_eq_nil_iff.1 hrest)
    rcases h with hneeds | ⟨_, s, hs, hahead⟩
    · exact hneeds.elim
    · exact .leave hend hs hahead
  | cons p rest ih =>
    have hp : g.at? ⟨b, i⟩ = some p := by
      rw [at?, ← List.head?_drop, hrest, List.head?_cons]
    have hnext : (g.block b).code.drop (i + 1) = rest := by
      rw [← List.tail_drop, hrest, List.tail_cons]
    have hlt : i < (g.block b).code.length := (List.getElem?_eq_some_iff.1 hp).1
    rcases h with (hload | ⟨hstores, hneeds⟩) | ⟨hnone, hway⟩
    · exact .here hp hload
    · exact .next hp hstores (ih hlt hnext (.inl hneeds))
    · refine .next hp (hnone p List.mem_cons_self) (ih hlt hnext (.inr ⟨?_, hway⟩))
      intro p' hp'
      exact hnone p' (List.mem_cons_of_mem _ hp')

theorem loadsAhead_of_reads (h : Live.Reads g.layout t b) : g.LoadsAhead t ⟨b, 0⟩ := by
  obtain ⟨k, hk⟩ := h
  induction k generalizing b with
  | zero => exact hk.elim
  | succ k ih =>
    apply LoadsAhead.of_rest (Nat.zero_le _)
    rcases hk with hneeds | ⟨s, ⟨hstores, hs⟩, hk⟩
    · exact .inl hneeds
    · exact .inr ⟨hstores, s, hs, ih hk⟩

variable {o : Options} {code : List Instr}

namespace Built

/-- The live sets of a graph that has been built hold exactly what some way reads. -/
theorem live_exact (h : Built o code g) : Live.Exact g.layout g.live := by
  rcases Live.compute_spec h.wellFormed (fun _ hb => h.facts_eq hb) o with
    ⟨live, rounds, hlive, _, hexact⟩ | ⟨_, hlimit⟩
  · rw [h.live] at hlive
    cases hlive
    exact hexact
  · rw [h.live] at hlimit
    cases hlimit

theorem liveAt_of_loadsAhead (h : Built o code g) {q : Place} (hahead : g.LoadsAhead t q) :
    LiveAt g t q := by
  obtain ⟨ps, q', p, hwalk, hp, hload, hbefore⟩ := hahead
  refine h.liveAt_of_walk hwalk ?_ hbefore
  obtain ⟨hlt, rfl⟩ := List.getElem?_eq_some_iff.1 hp
  left
  rw [List.drop_eq_getElem_cons hlt]
  exact .inl hload

theorem mem_liveIn_iff (h : Built o code g) (hb : b < g.size) :
    t ∈ g.liveIn b ↔ g.LoadsAhead t ⟨b, 0⟩ := by
  constructor
  · intro ht
    exact loadsAhead_of_reads ((h.live_exact.mem_liveIn b hb t).1 ht)
  · intro hahead
    exact h.mem_liveIn hb (h.liveAt_of_loadsAhead hahead)

theorem mem_liveOut_iff (h : Built o code g) (hb : b < g.size) :
    t ∈ g.liveOut b ↔ ∃ s ∈ (g.block b).succ, g.LoadsAhead t ⟨s, 0⟩ := by
  constructor
  · intro ht
    obtain ⟨s, hs, hreads⟩ := (h.live_exact.mem_liveOut b hb t).1 ht
    exact ⟨s, hs, loadsAhead_of_reads hreads⟩
  · intro hway
    obtain ⟨s, hs, hahead⟩ := hway
    exact h.liveOut_of_succ hb hs ((h.mem_liveIn_iff (h.succ_lt hs)).2 hahead)

/-- What is loaded ahead of a place is told by the rest of its block and the live sets. -/
theorem loadsAhead_iff (h : Built o code g) (hb : b < g.size)
    (hi : i ≤ (g.block b).code.length) : g.LoadsAhead t ⟨b, i⟩ ↔ LiveAt g t ⟨b, i⟩ := by
  constructor
  · exact h.liveAt_of_loadsAhead
  · intro hlive
    apply LoadsAhead.of_rest hi
    rw [← h.mem_liveOut_iff hb]
    exact hlive

end Built

/-- A temporary is live out of a block exactly if control may go on from one of its
successors to a load of the temporary before any store of it, and live into the block
exactly if control may do so from the beginning of the block. -/
theorem live_iff_loadsAhead (h : build o code = .ok g) (hb : b < g.size) (t : Int64) :
    (t ∈ g.liveOut b ↔ ∃ s ∈ (g.block b).succ, g.LoadsAhead t ⟨s, 0⟩) ∧
      (t ∈ g.liveIn b ↔ g.LoadsAhead t ⟨b, 0⟩) := by
  have hbuilt := built_of_build h
  exact ⟨hbuilt.mem_liveOut_iff hb, hbuilt.mem_liveIn_iff hb⟩

/-- A loop that loads one temporary, then stores it and another one that nothing loads. -/
def carryingRoutine : List Instr :=
  [.number 1, .tstore .int32 0, .target 0, .tload .int32 0, .tstore .int32 1, .number 2,
    .tstore .int32 0, .number 1, .branch 0 true, .ret .void]

/-- Around the loop, the temporary that is loaded next time is live and the other is not. -/
theorem live_iff_loadsAhead_carrying :
    ∃ g, build (Defaults.options {}) carryingRoutine = .ok g ∧ 1 < g.size ∧
      (∃ s ∈ (g.block 1).succ, g.LoadsAhead 0 ⟨s, 0⟩) ∧
      (¬ ∃ s ∈ (g.block 1).succ, g.LoadsAhead 1 ⟨s, 0⟩) ∧
      g.LoadsAhead 0 ⟨1, 0⟩ ∧ ¬ g.LoadsAhead 1 ⟨1, 0⟩ := by
  obtain ⟨g, hbuild, hsets⟩ := exists_ok_of_any
    (x := build (Defaults.options {}) carryingRoutine)
    (P := fun g => decide (1 < g.size) && (decide (0 ∈ g.liveOut 1) && (decide (1 ∉ g.liveOut 1) &&
      (decide (0 ∈ g.liveIn 1) && decide (1 ∉ g.liveIn 1))))) (by cbv)
  simp only [Bool.and_eq_true, decide_eq_true_eq] at hsets
  obtain ⟨hsize, hout, hnotOut, hin, hnotIn⟩ := hsets
  have hcarried := live_iff_loadsAhead hbuild hsize 0
  have hdropped := live_iff_loadsAhead hbuild hsize 1
  exact ⟨g, hbuild, hsize, hcarried.1.1 hout, fun h => hnotOut (hdropped.1.2 h),
    hcarried.2.1 hin, fun h => hnotIn (hdropped.2.2 h)⟩

end Graph

end StackFlow
