import Mathlib
import StackFlow.Proofs.Webs

/-!
# Blocks and their ways

A web becomes blocks by numbering its nodes in layout order; drafts become blocks by looking
up who leads to whom.

* `mem_succ_ofWeb` and `mem_pred_ofWeb` say that each list of a block comes from the list of
  the same kind of its node, and `Layout.TwoSided` that the two lists of the blocks fit.
* `ofWeb_eq` says that the blocks of a sound web are those of its drafts.
* `twoSided_ofCode` holds of every list of instructions, `ofCode_eq` of those whose jumps all
  have targets.
-/

namespace StackFlow

/-! ## Blocks made from drafts -/

namespace Layout

variable {ds : List Draft} {i : Nat} {d : Draft}

theorem block_ofDrafts (h : ds[i]? = some d) : (ofDrafts ds.toArray).block i =
    { code := d.code
      pred := Draft.predecessors ds.toArray i
      succ := Draft.successors ds.toArray i
      exit := d.exit
      tail := d.tail
      facts := Block.factsOf d.code } := by
  simp [block, ofDrafts, h]

@[simp] theorem size_ofDrafts (ds : Array Draft) : (ofDrafts ds).size = ds.size := by
  simp [ofDrafts]

theorem block_eq_getElem {layout : Layout} (h : i < layout.size) : layout.block i = layout[i] := by
  simp [block, h]

theorem block_of_size_le {layout : Layout} (h : layout.size ≤ i) :
    layout.block i = default := by
  rw [block, Array.getD_eq_getD_getElem?, Array.getElem?_eq_none h, Option.getD_none]

/-- Only a block has code. -/
theorem lt_of_mem_code {layout : Layout} {b : Nat} {p : Instr}
    (hp : p ∈ (layout.block b).code) : b < layout.size := by
  refine Nat.lt_of_not_le fun hle => ?_
  rw [block_of_size_le hle] at hp
  simp [default, instInhabitedBlock.default] at hp

theorem mem_succ_ofDrafts {j : Nat} : j ∈ (ofDrafts ds.toArray).succ i ↔
    ∃ d e, ds[i]? = some d ∧ ds[j]? = some e ∧ e.start ∈ d.succ := by
  cases h : ds[i]? with
  | none =>
    have hsize : (ofDrafts ds.toArray).size ≤ i := by simpa using h
    rw [succ, block_of_size_le hsize]
    simp [default, instInhabitedBlock.default]
  | some d =>
    rw [succ, block_ofDrafts h, Draft.mem_successors]
    simp [h]

theorem mem_pred_ofDrafts {j : Nat} : i ∈ (ofDrafts ds.toArray).pred j ↔
    ∃ d e, ds[i]? = some d ∧ ds[j]? = some e ∧ e.start ∈ d.succ := by
  cases h : ds[j]? with
  | none =>
    have hsize : (ofDrafts ds.toArray).size ≤ j := by simpa using h
    rw [pred, block_of_size_le hsize]
    simp [default, instInhabitedBlock.default]
  | some e =>
    rw [pred, block_ofDrafts h]
    simp only [Draft.predecessors, List.getElem?_toArray, h, List.mem_filter, List.mem_range,
      List.size_toArray, Option.any_eq_true, List.contains_iff_mem, Option.some_inj,
      exists_and_left, exists_eq_left']
    constructor
    · rintro ⟨_, d, hd, hmem⟩
      exact ⟨d, hd, hmem⟩
    · rintro ⟨d, hd, hmem⟩
      exact ⟨(List.getElem?_eq_some_iff.1 hd).1, d, hd, hmem⟩

theorem succ_sorted_ofDrafts (ds : List Draft) (b : Nat) :
    ((ofDrafts ds.toArray).succ b).Pairwise (· < ·) := by
  cases h : ds[b]? with
  | none =>
    rw [succ, block_of_size_le (by simpa using h)]
    exact .nil
  | some d =>
    rw [succ, block_ofDrafts h]
    simp only [Draft.successors, List.getElem?_toArray, h]
    exact List.pairwise_lt_range.filter _

theorem pred_sorted_ofDrafts (ds : List Draft) (b : Nat) :
    ((ofDrafts ds.toArray).pred b).Pairwise (· < ·) := by
  cases h : ds[b]? with
  | none =>
    rw [pred, block_of_size_le (by simpa using h)]
    exact .nil
  | some d =>
    rw [pred, block_ofDrafts h]
    simp only [Draft.predecessors, List.getElem?_toArray, h]
    exact List.pairwise_lt_range.filter _

end Layout

/-! ## Blocks made from a web -/

namespace Layout

variable {w : Web} {names : List Start} {i j : Nat} {s : Start}

theorem index_eq (h : w.order.Nodup) (hs : w.order[i]? = some s) : w.index s = i := by
  obtain ⟨hi, rfl⟩ := List.getElem?_eq_some_iff.1 hs
  have hfind : w.order.idxOf? w.order[i] = some i :=
    List.idxOf?_eq_some_iff.2 ⟨hi, rfl, fun j hj heq =>
      absurd ((List.Nodup.getElem_inj_iff h).1 heq) (Nat.ne_of_lt hj)⟩
  rw [Web.index, hfind, Option.getD_some]

theorem index_inj (h : w.order.Nodup) {a b : Start} (ha : a ∈ w.order) (hb : b ∈ w.order)
    (hab : w.index a = w.index b) : a = b := by
  obtain ⟨i, hi⟩ := List.mem_iff_getElem?.1 ha
  obtain ⟨j, hj⟩ := List.mem_iff_getElem?.1 hb
  rw [index_eq h hi, index_eq h hj] at hab
  rw [hab, hj, Option.some_inj] at hi
  exact hi.symm

/-- The places of some nodes, in ascending order. -/
theorem mem_places (h : w.order.Nodup) (hnames : ∀ s ∈ names, s ∈ w.order) :
    i ∈ (names.map w.index).mergeSort ↔ ∃ s, w.order[i]? = some s ∧ s ∈ names := by
  rw [List.mem_mergeSort, List.mem_map]
  constructor
  · rintro ⟨s, hs, rfl⟩
    obtain ⟨i, hi⟩ := List.mem_iff_getElem?.1 (hnames s hs)
    exact ⟨s, by rwa [index_eq h hi], hs⟩
  · rintro ⟨s, hi, hs⟩
    exact ⟨s, hs, index_eq h hi⟩

theorem sorted_places (h : w.order.Nodup) (hnames : ∀ s ∈ names, s ∈ w.order)
    (hnodup : names.Nodup) : ((names.map w.index).mergeSort).Pairwise (· < ·) := by
  have hplaces : ((names.map w.index).mergeSort).Nodup := by
    rw [(List.mergeSort_perm _ _).nodup_iff]
    exact hnodup.map_on fun a ha b hb => index_inj h (hnames a ha) (hnames b hb)
  have hsorted : ((names.map w.index).mergeSort).Pairwise (· ≤ ·) := by
    refine (List.pairwise_mergeSort (fun a b c hab hbc => ?_) (fun a b => ?_) _).imp
      fun hle => of_decide_eq_true hle
    · exact decide_eq_true (Nat.le_trans (of_decide_eq_true hab) (of_decide_eq_true hbc))
    · simpa using Nat.le_total a b
  exact (hsorted.and hplaces).imp fun h => Nat.lt_of_le_of_ne h.1 h.2

theorem block_ofWeb (hs : w.order[i]? = some s) : (ofWeb w).block i =
    { code := (w.nodes.draft s).code
      pred := ((w.nodes.pred s).map w.index).mergeSort
      succ := ((w.nodes.draft s).succ.map w.index).mergeSort
      exit := (w.nodes.draft s).exit
      tail := (w.nodes.draft s).tail
      facts := Block.factsOf (w.nodes.draft s).code } := by
  simp [block, ofWeb, hs, Nodes.draft, Nodes.pred]

@[simp] theorem size_ofWeb (w : Web) : (ofWeb w).size = w.order.length := by
  simp [ofWeb]

/-- A way between blocks is listed at the node it starts from. -/
theorem mem_succ_ofWeb (h : w.Sound) : j ∈ (ofWeb w).succ i ↔
    ∃ a b, w.order[i]? = some a ∧ w.order[j]? = some b ∧ b ∈ (w.nodes.draft a).succ := by
  cases ha : w.order[i]? with
  | none =>
    have hsize : (ofWeb w).size ≤ i := by simpa using ha
    rw [succ, block_of_size_le hsize]
    simp [default, instInhabitedBlock.default]
  | some a =>
    have hlive := List.mem_of_getElem? ha
    rw [succ, block_ofWeb ha, mem_places h.nodup fun b => h.linked.succ_live hlive]
    simp

/-- A way between blocks is listed at the node it leads to. -/
theorem mem_pred_ofWeb (h : w.Sound) : i ∈ (ofWeb w).pred j ↔
    ∃ a b, w.order[i]? = some a ∧ w.order[j]? = some b ∧ a ∈ w.nodes.pred b := by
  cases hb : w.order[j]? with
  | none =>
    have hsize : (ofWeb w).size ≤ j := by simpa using hb
    rw [pred, block_of_size_le hsize]
    simp [default, instInhabitedBlock.default]
  | some b =>
    have hlive := List.mem_of_getElem? hb
    rw [pred, block_ofWeb hb, mem_places h.nodup fun a => h.linked.pred_live hlive]
    simp

/-- Both lists of every block are in order, and each way between blocks is in both. -/
structure TwoSided (layout : Layout) : Prop where
  succ_sorted : ∀ b, (layout.succ b).Pairwise (· < ·)
  pred_sorted : ∀ b, (layout.pred b).Pairwise (· < ·)
  succ_lt : ∀ b, ∀ s ∈ layout.succ b, s < layout.size
  mem_succ_iff_mem_pred : ∀ b s, s ∈ layout.succ b ↔ b ∈ layout.pred s

theorem twoSided_ofWeb (h : w.Sound) : (ofWeb w).TwoSided where
  succ_sorted i := by
    cases ha : w.order[i]? with
    | none =>
      rw [succ, block_of_size_le (by simpa using ha)]
      exact .nil
    | some a =>
      have hlive := List.mem_of_getElem? ha
      rw [succ, block_ofWeb ha]
      exact sorted_places h.nodup (fun b => h.linked.succ_live hlive) (h.linked.succ_nodup hlive)
  pred_sorted j := by
    cases hb : w.order[j]? with
    | none =>
      rw [pred, block_of_size_le (by simpa using hb)]
      exact .nil
    | some b =>
      have hlive := List.mem_of_getElem? hb
      rw [pred, block_ofWeb hb]
      exact sorted_places h.nodup (fun a => h.linked.pred_live hlive) (h.linked.pred_nodup hlive)
  succ_lt i j hj := by
    obtain ⟨_, b, _, hb, _⟩ := (mem_succ_ofWeb h).1 hj
    rw [size_ofWeb]
    exact (List.getElem?_eq_some_iff.1 hb).1
  mem_succ_iff_mem_pred i j := by
    rw [mem_succ_ofWeb h, mem_pred_ofWeb h]
    refine exists_congr fun a => exists_congr fun b => and_congr_right fun ha =>
      and_congr_right fun hb => ?_
    exact h.linked.mem_iff (List.mem_of_getElem? ha) (List.mem_of_getElem? hb)

/-- Ways between nodes are ways between their drafts. -/
theorem exists_way_iff : (∃ a b, w.order[i]? = some a ∧ w.order[j]? = some b ∧
      b ∈ (w.nodes.draft a).succ) ↔
    ∃ d e, w.drafts[i]? = some d ∧ w.drafts[j]? = some e ∧ e.start ∈ d.succ := by
  simp only [Web.drafts, List.getElem?_map, Option.map_eq_some_iff]
  constructor
  · rintro ⟨a, b, ha, hb, hmem⟩
    exact ⟨_, _, ⟨a, ha, rfl⟩, ⟨b, hb, rfl⟩, by rwa [Nodes.start_draft]⟩
  · rintro ⟨_, _, ⟨a, ha, rfl⟩, ⟨b, hb, rfl⟩, hmem⟩
    exact ⟨a, b, ha, hb, by rwa [Nodes.start_draft] at hmem⟩

/-- The blocks of a sound web are those of its drafts. -/
theorem ofWeb_eq (h : w.Sound) : ofWeb w = ofDrafts w.drafts.toArray := by
  refine Array.ext (by simp [Web.drafts]) fun i hi hi' => ?_
  rw [← block_eq_getElem hi, ← block_eq_getElem hi']
  rw [size_ofWeb] at hi
  have hs := List.getElem?_eq_getElem hi
  have hd : w.drafts[i]? = some (w.nodes.draft w.order[i]) := by
    rw [Web.drafts, List.getElem?_map, hs, Option.map_some]
  have hsucc : (ofWeb w).succ i = (ofDrafts w.drafts.toArray).succ i := by
    refine ((twoSided_ofWeb h).succ_sorted i).eq_of_mem_iff (succ_sorted_ofDrafts _ i) fun j => ?_
    rw [mem_succ_ofWeb h, mem_succ_ofDrafts, exists_way_iff]
  have hpred : (ofWeb w).pred i = (ofDrafts w.drafts.toArray).pred i := by
    refine ((twoSided_ofWeb h).pred_sorted i).eq_of_mem_iff (pred_sorted_ofDrafts _ i) fun j => ?_
    rw [← (twoSided_ofWeb h).mem_succ_iff_mem_pred, mem_succ_ofWeb h, mem_pred_ofDrafts,
      exists_way_iff]
  rw [succ, succ, block_ofWeb hs, block_ofDrafts hd] at hsucc
  rw [pred, pred, block_ofWeb hs, block_ofDrafts hd] at hpred
  dsimp only at hsucc hpred
  rw [block_ofWeb hs, block_ofDrafts hd, hsucc, hpred]

end Layout

/-! ## The blocks of a list -/

namespace Layout

variable {code : List Instr} {i : Nat}

/-- The blocks of a list are those of a sound web, or there are none. -/
theorem ofCode_cases (code : List Instr) :
    (∃ w : Web, w.Sound ∧ ofCode code = ofWeb w) ∨ ofCode code = #[] := by
  cases h : (Web.read code).isWhole with
  | true => exact .inl ⟨_, Web.sound_cleaned h, by simp [ofCode, h]⟩
  | false => exact .inr (by simp [ofCode, h])

theorem ofCode_eq (h : Labelled code) : ofCode code = ofDrafts (Draft.ofCode code).toArray := by
  have hwhole := Web.isWhole_read h
  rw [ofCode, if_pos hwhole, ofWeb_eq (Web.sound_cleaned hwhole), Web.drafts_cleaned h]

/-- No edge is in one of the lists only, whatever the list of instructions is. -/
theorem twoSided_ofCode (code : List Instr) : (ofCode code).TwoSided := by
  obtain ⟨w, hsound, heq⟩ | heq := ofCode_cases code
  · rw [heq]
    exact twoSided_ofWeb hsound
  · rw [heq]
    exact ⟨fun _ => .nil, fun _ => .nil, fun _ _ => nofun, fun _ _ => by
      simp [succ, pred, block, default, instInhabitedBlock.default]⟩

theorem succ_lt_ofCode {b s : Nat} (hs : s ∈ (ofCode code).succ b) : s < (ofCode code).size :=
  (twoSided_ofCode code).succ_lt b s hs

theorem facts_ofCode (hi : i < (ofCode code).size) :
    ((ofCode code).block i).facts = Block.factsOf ((ofCode code).block i).code := by
  obtain ⟨w, -, heq⟩ | heq := ofCode_cases code
  · rw [heq, size_ofWeb] at hi
    rw [heq, block_ofWeb (List.getElem?_eq_getElem hi)]
  · rw [heq] at hi
    exact absurd hi (Nat.not_lt_zero i)

end Layout

end StackFlow
