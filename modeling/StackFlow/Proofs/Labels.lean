import Mathlib.Data.List.Nodup
import StackFlow.Proofs.Flowchart

/-!
# Lists of instructions as flowcharts

`Flowchart.ofCode` runs a flat list of instructions: it has one node for each index
and one for the end of the list.  `Labelled` says that labels and targets of a list
fit together; `Scope.labelled_iff` reads it off the labels of the targets.
-/

namespace StackFlow

/-- Whether the instruction at index `i` is the target of the label `l`. -/
def TargetAt (code : List Instr) (i : Nat) (l : Int64) : Prop :=
  ∃ p : Instr, code[i]? = some p ∧ p.op = .target ∧ p.label = l

/-- A list of instructions as a chart.  An instruction goes on with the next index
unless it always transfers control; a branch or a hop goes to the target of its label;
and passing the last index falls off the end. -/
def Flowchart.ofCode (code : List Instr) : Flowchart Nat where
  entry := 0
  code i := code[i]?.toList
  next i j := ∃ p : Instr, code[i]? = some p ∧
    ((p.transfers = false ∧ j = i + 1) ∨ (p.op.jumps = true ∧ TargetAt code j p.label))
  exit i := i = code.length

/-- Every label has at most one target, and every jump has one. -/
structure Labelled (code : List Instr) : Prop where
  unique : ∀ {i j l}, TargetAt code i l → TargetAt code j l → i = j
  defined : ∀ {i : Nat} {p : Instr}, code[i]? = some p → p.op.jumps = true →
    ∃ j, TargetAt code j p.label

/-! ## Traits of jumps and targets -/

theorem transfers_of_target {p : Instr} (h : p.op = .target) : p.transfers = false := by
  simp [Instr.transfers, h, Opcode.row]

theorem transfers_of_branch {p : Instr} (h : p.op = .branch) : p.transfers = false := by
  simp [Instr.transfers, h, Opcode.row]

theorem transfers_of_hop {p : Instr} (h : p.op = .hop) : p.transfers = true := by
  simp [Instr.transfers, h, Opcode.row]

theorem jumps_iff {op : Opcode} : op.jumps = true ↔ op = .branch ∨ op = .hop := by
  cases op <;> simp [Opcode.jumps]

theorem shown_of_target {p : Instr} (h : p.op = .target) : p.shown = [] := by
  simp [Instr.shown, h]

theorem shown_of_hop {p : Instr} (h : p.op = .hop) : p.shown = [] := by
  simp [Instr.shown, h]

theorem shown_of_branch {p : Instr} (h : p.op = .branch) : p.shown = [{ p with label := 0 }] := by
  simp [Instr.shown, Instr.isMeta, h, Opcode.row]

/-- A run of a list shows only what its instructions show. -/
theorem mem_shownAll_of_hasTrace {code t : List Instr} {s : Status} {q : Instr}
    (h : (Flowchart.ofCode code).HasTrace t s) (hq : q ∈ t) : q ∈ shownAll code := by
  have hnode : ∀ i, q ∈ shownAll ((Flowchart.ofCode code).code i) → q ∈ shownAll code := by
    intro i hi
    obtain ⟨p, hp, hshown⟩ := List.mem_flatMap.1 hi
    exact List.mem_flatMap.2 ⟨p, List.mem_of_getElem? (Option.mem_toList.1 hp), hshown⟩
  rcases h.mem_shownAll hq with hentry | ⟨m, hm⟩
  · exact hnode 0 hentry
  · exact hnode m hm

/-! ## The labels of the targets -/

namespace Scope

/-- The labels of the targets in a list. -/
def targetLabels (code : List Instr) : List Int64 :=
  (code.filter (·.op = .target)).map (·.label)

theorem targetLabels_append (xs ys : List Instr) :
    targetLabels (xs ++ ys) = targetLabels xs ++ targetLabels ys := by
  simp [targetLabels]

theorem mem_targetLabels {code : List Instr} {l : Int64} :
    l ∈ targetLabels code ↔ ∃ i, TargetAt code i l := by
  simp only [targetLabels, List.mem_map, List.mem_filter, decide_eq_true_eq, TargetAt]
  constructor
  · rintro ⟨p, ⟨hp, hop⟩, hl⟩
    obtain ⟨i, hi⟩ := List.mem_iff_getElem?.1 hp
    exact ⟨i, p, hi, hop, hl⟩
  · rintro ⟨i, p, hi, hop, hl⟩
    exact ⟨p, ⟨List.mem_of_getElem? hi, hop⟩, hl⟩

/-- In a list whose target labels are all different, a label has one target. -/
theorem targetAt_unique {code : List Instr} (h : (targetLabels code).Nodup) {i j : Nat}
    {l : Int64} (hi : TargetAt code i l) (hj : TargetAt code j l) : i = j := by
  induction code generalizing i j with
  | nil =>
    obtain ⟨p, hp, _⟩ := hi
    simp at hp
  | cons q code ih =>
    have htail : (targetLabels code).Nodup := by
      refine List.Nodup.sublist ?_ h
      exact List.Sublist.map _ (List.Sublist.filter _ (List.sublist_cons_self q code))
    -- a target at the head rules out one further down
    have hhead : ∀ k, TargetAt (q :: code) 0 l → ¬ TargetAt code k l := by
      rintro k ⟨p, hp, hop, hl⟩ hk
      cases hp
      have hmem := mem_targetLabels.2 ⟨k, hk⟩
      simp only [targetLabels, hop, decide_true, List.filter_cons_of_pos, List.map_cons,
        List.nodup_cons] at h
      exact h.1 (hl ▸ hmem)
    cases i with
    | zero =>
      cases j with
      | zero => rfl
      | succ j => exact absurd hj (hhead j hi)
    | succ i =>
      cases j with
      | zero => exact absurd hi (hhead i hj)
      | succ j => exact congrArg (· + 1) (ih htail hi hj)

/-- Labels and targets of a list fit together if no label is repeated among the targets, and each
one that a jump names is among them. -/
theorem labelled_iff {code : List Instr} : Labelled code ↔ (targetLabels code).Nodup ∧
    ∀ p ∈ code, p.op.jumps = true → p.label ∈ targetLabels code := by
  constructor
  · intro h
    refine ⟨?_, fun p hp hjumps => ?_⟩
    · rw [targetLabels, List.Nodup, List.pairwise_map, List.pairwise_filter,
        List.pairwise_iff_getElem]
      intro i j hi hj hij hop hop' hlabel
      rw [decide_eq_true_eq] at hop hop'
      have hsame := h.unique ⟨code[i], List.getElem?_eq_getElem hi, hop, rfl⟩
        ⟨code[j], List.getElem?_eq_getElem hj, hop', hlabel.symm⟩
      omega
    · obtain ⟨i, hi⟩ := List.mem_iff_getElem?.1 hp
      exact mem_targetLabels.2 (h.defined hi hjumps)
  · rintro ⟨hnodup, hdefined⟩
    exact ⟨targetAt_unique hnodup, fun hp hjumps =>
      mem_targetLabels.1 (hdefined _ (List.mem_of_getElem? hp) hjumps)⟩

end Scope

end StackFlow
