import StackFlow.Proofs.Rounds
import StackFlow.Proofs.Walks

/-!
# Live temporaries

* `Block.mem_defsOf` and `Block.mem_usesOf` read the facts of a block as statements
  about its instructions.
* `Live.mem_liveOut_grow` and `Live.mem_liveIn_grow` say what a visit to a block makes of
  its sets.
* `Graph.Built.live_stable` says that the sets of a graph that has been built are stable:
  another round would not change them.
* `Graph.Built.stored_before_load` is what the sets are for: a walk from the entry stores
  a temporary before it loads it.
-/

namespace StackFlow

namespace Block

theorem mem_defsOf {code : List Instr} {t : Int64} :
    t ∈ defsOf code ↔ ∃ p ∈ code, p.stores t = true := by
  simp only [defsOf, TempSet.mem_ofList, List.mem_map, List.mem_filter, decide_eq_true_eq,
    Instr.stores, Bool.and_eq_true]
  constructor
  · rintro ⟨p, ⟨hp, hop⟩, rfl⟩
    exact ⟨p, hp, hop, rfl⟩
  · rintro ⟨p, hp, hop, rfl⟩
    exact ⟨p, ⟨hp, hop⟩, rfl⟩

/-- Whether the code loads `t` before it stores it. -/
def Needs (t : Int64) : List Instr → Prop
  | [] => False
  | p :: code => p.loads t = true ∨ p.stores t = false ∧ Needs t code

theorem mem_usesOf {code : List Instr} {s : TempSet} {t : Int64} :
    t ∈ usesOf s code ↔ t ∉ s ∧ Needs t code := by
  induction code generalizing s with
  | nil => simp [usesOf, Needs]
  | cons p code ih =>
    rw [usesOf, Needs]
    by_cases hstore : p.op = .tstore
    · rw [if_pos hstore, ih, TempSet.mem_insert]
      have hloads : p.loads t = false := by simp [Instr.loads, hstore]
      have hstores : p.stores t = false ↔ t ≠ p.temp := by
        simp [Instr.stores, hstore, eq_comm]
      rw [hloads, hstores]
      simp only [Bool.false_eq_true, false_or, not_or]
      tauto
    · have hstores : p.stores t = false := by simp [Instr.stores, hstore]
      rw [if_neg hstore, hstores]
      split
      · rename_i hload
        simp only [Bool.and_eq_true, decide_eq_true_eq, Bool.not_eq_true'] at hload
        have hloads : p.loads t = true ↔ t = p.temp := by
          simp [Instr.loads, hload.1, eq_comm]
        have hnew : p.temp ∉ s := by
          rw [← TempSet.contains_iff, hload.2]
          exact Bool.false_ne_true
        rw [TempSet.mem_insert, ih, hloads]
        constructor
        · rintro (rfl | h)
          · exact ⟨hnew, .inl rfl⟩
          · exact ⟨h.1, .inr ⟨rfl, h.2⟩⟩
        · rintro ⟨hs, rfl | h⟩
          · exact .inl rfl
          · exact .inr ⟨hs, h.2⟩
      · rename_i hload
        simp only [Bool.and_eq_true, decide_eq_true_eq, Bool.not_eq_true', not_and,
          Bool.not_eq_false, TempSet.contains_iff] at hload
        rw [ih]
        refine and_congr_right fun hs => ⟨fun h => .inr ⟨rfl, h⟩, ?_⟩
        rintro (h | h)
        · rw [Instr.loads_iff] at h
          exact absurd (h.2 ▸ hload h.1) hs
        · exact h.2

end Block

namespace Live

theorem mem_foldl_union {is : List Nat} {f : Nat → TempSet} {s : TempSet} {t : Int64} :
    t ∈ is.foldl (fun s j => s ∪ f j) s ↔ t ∈ s ∨ ∃ j ∈ is, t ∈ f j := by
  induction is generalizing s with
  | nil => simp
  | cons i is ih => simp [ih, or_assoc]

variable {layout : Layout} {live : Array Live} {i : Nat} {t : Int64}

theorem mem_liveOut_grow : t ∈ (grow layout live i).liveOut ↔
    t ∈ (live.getD i .none).liveOut ∨ ∃ j ∈ layout.succ i, t ∈ (live.getD j .none).liveIn :=
  mem_foldl_union

theorem mem_liveIn_grow
    (hfacts : (layout.block i).facts = Block.factsOf (layout.block i).code) :
    t ∈ (grow layout live i).liveIn ↔
      t ∈ (live.getD i .none).liveIn ∨ Block.Needs t (layout.block i).code ∨
        t ∈ (grow layout live i).liveOut ∧
          ∀ p ∈ (layout.block i).code, p.stores t = false := by
  have huses : t ∈ (layout.block i).facts.uses ↔ Block.Needs t (layout.block i).code := by
    rw [hfacts]
    exact Block.mem_usesOf.trans (and_iff_right TempSet.not_mem_empty)
  have hdefs : t ∉ (layout.block i).facts.defs ↔
      ∀ p ∈ (layout.block i).code, p.stores t = false := by
    rw [hfacts]
    show ¬ t ∈ Block.defsOf _ ↔ _
    rw [Block.mem_defsOf]
    simp
  rw [← huses, ← hdefs]
  show t ∈ (live.getD i .none).liveIn ∪ (_ ∪ (_ \ _)) ↔ _
  rw [TempSet.mem_union, TempSet.mem_union, TempSet.mem_sdiff]
  rfl

end Live

namespace Graph.Built

variable {o : Options} {code : List Instr} {g : Graph}

theorem live_stable (h : Built o code g) {b : Nat} (hb : b < g.size) :
    Live.grow g.layout g.live b = g.live.getD b .none := by
  have hlive := h.live
  rw [Live.compute, Rounds.fixpoint] at hlive
  obtain ⟨live, hround⟩ := Rounds.exists_stable hlive
  obtain ⟨-, rfl, hstable⟩ := Rounds.stable_of_sweep hround
  refine hstable b (List.mem_reverse.2 (List.mem_range.2 hb))

/-- What is live into a successor is live out of a block. -/
theorem liveOut_of_succ (h : Built o code g) {b s : Nat} (hb : b < g.size)
    (hs : s ∈ (g.block b).succ) {t : Int64} (ht : t ∈ g.liveIn s) : t ∈ g.liveOut b := by
  rw [liveOut, ← h.live_stable hb]
  exact Live.mem_liveOut_grow.2 (.inr ⟨s, hs, ht⟩)

theorem mem_liveIn (h : Built o code g) {b : Nat} (hb : b < g.size) {t : Int64}
    (ht : Block.Needs t (g.block b).code ∨
      (∀ p ∈ (g.block b).code, p.stores t = false) ∧ t ∈ g.liveOut b) : t ∈ g.liveIn b := by
  rw [liveIn, ← h.live_stable hb]
  refine (Live.mem_liveIn_grow (h.facts_eq hb)).2 (.inr (ht.imp_right fun hlive => ⟨?_, hlive.1⟩))
  rw [h.live_stable hb]
  exact hlive.2

/-- Whether some way from a place loads `t` before storing it, as far as the sets of the
block tell. -/
def LiveAt (g : Graph) (t : Int64) (q : Place) : Prop :=
  Block.Needs t ((g.block q.block).code.drop q.index) ∨
    (∀ p ∈ (g.block q.block).code.drop q.index, p.stores t = false) ∧
      t ∈ g.liveOut q.block

/-- Liveness is carried backward along a walk that does not store the temporary. -/
theorem liveAt_of_walk (h : Built o code g) {a c : Place} {ps : List Place} {t : Int64}
    (hwalk : Walk g a ps c) (hlive : LiveAt g t c)
    (hnot : ∀ q ∈ ps, ∀ p, g.at? q = some p → p.stores t = false) : LiveAt g t a := by
  induction hwalk with
  | refl => exact hlive
  | step walk inside ih =>
    rename_i ps b i
    have hdrop := List.drop_eq_getElem_cons inside
    have hstores : ((g.block b).code[i]).stores t = false :=
      hnot ⟨b, i⟩ (by simp) _ (List.getElem?_eq_getElem inside)
    refine ih ?_ fun q hq => hnot q (List.mem_append_left _ hq)
    rcases hlive with hneeds | ⟨hnone, hout⟩
    · left
      rw [hdrop]
      exact .inr ⟨hstores, hneeds⟩
    · right
      rw [hdrop]
      refine ⟨fun p hp => ?_, hout⟩
      rcases List.mem_cons.1 hp with rfl | hp
      · exact hstores
      · exact hnone p hp
  | jump walk done way ih =>
    rename_i ps b i s
    have hin : t ∈ g.liveIn s := h.mem_liveIn (h.succ_lt way) hlive
    refine ih (.inr ⟨?_, h.liveOut_of_succ (lt_of_mem_succ way) way hin⟩) hnot
    rw [done, List.drop_length]
    simp

theorem not_liveAt_start (h : Built o code g) (t : Int64) : ¬ LiveAt g t .start := by
  intro hlive
  have hin : t ∈ g.liveIn 0 := h.mem_liveIn h.size_pos hlive
  have hempty := h.initialized
  rw [TempSet.min?, List.head?_eq_none_iff] at hempty
  rw [liveIn, TempSet.mem_def, hempty] at hin
  cases hin

/-- A walk from the entry stores a temporary before it loads it. -/
theorem stored_before_load (h : Built o code g) {ps : List Place} {q : Place} {p : Instr}
    {t : Int64} (hwalk : Walk g .start ps q) (hp : g.at? q = some p) (hload : p.loads t = true) :
    ∃ q' ∈ ps, ∃ p', g.at? q' = some p' ∧ p'.stores t = true := by
  by_contra hnone
  push Not at hnone
  refine h.not_liveAt_start t (h.liveAt_of_walk hwalk (.inl ?_) fun q' hq' p' hp' =>
    Bool.eq_false_iff.2 (hnone q' hq' p' hp'))
  obtain ⟨hlt, rfl⟩ := List.getElem?_eq_some_iff.1 hp
  rw [List.drop_eq_getElem_cons hlt]
  exact .inl hload

end Graph.Built

end StackFlow
