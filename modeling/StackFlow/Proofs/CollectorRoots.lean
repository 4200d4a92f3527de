import StackFlow.Graph.Residence
import StackFlow.Proofs.LiveWalks

/-!
# The references that a collection has to see

The references of a block are found on one way backward through its code, starting from what is
live at its end.

* `Block.LiveBefore` says that a temporary is live before some code, given what is live after it,
  and `Block.LiveAcross` that it is live behind an instruction of the code that may collect.
  `liveBefore_cons` and `liveAcross_cons` take one instruction off the code.
* `mem_foldr_fst` and `mem_foldr_snd` are the invariant of the way backward: the first set holds
  the live references, and the second one gains those that are live across a collection.
* `Graph.mem_gcTemps_iff` is the main result: the set of a graph holds exactly the references that
  control may still load, unchanged, after an instruction that may collect.
-/

namespace StackFlow

namespace Block

/-- Whether `t` is live before the code, if the temporaries `out` are live after it. -/
def LiveBefore (t : Int64) (out : TempSet) (code : List Instr) : Prop :=
  Needs t code ∨ (∀ p ∈ code, p.stores t = false) ∧ t ∈ out

/-- Whether `t` is live behind some instruction of the code that may collect, if the temporaries
`out` are live after it. -/
def LiveAcross (t : Int64) (out : TempSet) (code : List Instr) : Prop :=
  ∃ (i : Nat) (p : Instr), code[i]? = some p ∧ p.collects = true ∧
    LiveBefore t out (code.drop (i + 1))

variable {t : Int64} {out : TempSet} {code : List Instr} {p : Instr}

@[simp] theorem liveBefore_nil : LiveBefore t out [] ↔ t ∈ out := by
  simp [LiveBefore, Needs]

theorem liveBefore_cons : LiveBefore t out (p :: code) ↔
    p.loads t = true ∨ p.stores t = false ∧ LiveBefore t out code := by
  simp only [LiveBefore, Needs, List.forall_mem_cons, and_or_left, and_assoc, or_assoc]

theorem not_liveAcross_nil : ¬ LiveAcross t out [] := by
  simp [LiveAcross]

theorem liveAcross_cons : LiveAcross t out (p :: code) ↔
    p.collects = true ∧ LiveBefore t out code ∨ LiveAcross t out code := by
  constructor
  · intro h
    obtain ⟨i, q, hq, hcollects, hlive⟩ := h
    cases i with
    | zero =>
      obtain rfl : p = q := Option.some_inj.1 hq
      exact .inl ⟨hcollects, hlive⟩
    | succ i => exact .inr ⟨i, q, hq, hcollects, hlive⟩
  · intro h
    cases h with
    | inl h => exact ⟨0, p, rfl, h.1, h.2⟩
    | inr h =>
      obtain ⟨i, q, hq, hcollects, hlive⟩ := h
      exact ⟨i + 1, q, hq, hcollects, hlive⟩

theorem liveBefore_inter {refs : TempSet} (ht : t ∈ refs) :
    LiveBefore t (out ∩ refs) code ↔ LiveBefore t out code := by
  rw [LiveBefore, TempSet.mem_inter, and_iff_left ht, LiveBefore]

end Block

/-- A collection neither loads nor stores a temporary. -/
theorem Instr.of_collects {p : Instr} (h : p.collects = true) (t : Int64) :
    p.loads t = false ∧ p.stores t = false := by
  have hop : p.op ≠ .tload ∧ p.op ≠ .tstore := by
    constructor
    · intro hload
      simp [collects, hload, Opcode.row] at h
    · intro hstore
      simp [collects, hstore, Opcode.row] at h
  simp [loads, stores, hop.1, hop.2]

namespace Graph

/-! ## One block -/

section Block

variable {refs live found : TempSet} {code : List Instr} {t : Int64}

/-- What the way backward makes of the live references and those it has found, when it comes to
the instruction `p`. -/
def rootStep (refs : TempSet) (p : Instr) (s : TempSet × TempSet) : TempSet × TempSet :=
  if p.collects then (s.1, s.2 ∪ s.1)
  else if p.op = .tstore then (s.1.erase p.temp, s.2)
  else if p.op = .tload && refs.contains p.temp then (s.1.insert p.temp, s.2)
  else s

theorem rootsIn_eq : rootsIn refs code live found =
    (code.foldr (rootStep refs) (live, found)).2 :=
  rfl

theorem mem_rootStep_fst {p : Instr} {s : TempSet × TempSet} (ht : t ∈ refs) :
    t ∈ (rootStep refs p s).1 ↔ p.loads t = true ∨ p.stores t = false ∧ t ∈ s.1 := by
  unfold rootStep
  split
  · rename_i hcollects
    simp [(Instr.of_collects hcollects t).1, (Instr.of_collects hcollects t).2]
  · split
    · rename_i hop
      simp [Instr.loads, Instr.stores, hop, and_comm, eq_comm]
    · rename_i hstore
      have hstores : p.stores t = false := by simp [Instr.stores, hstore]
      split
      · rename_i hload
        simp only [Bool.and_eq_true, decide_eq_true_eq] at hload
        simp [Instr.loads, hload.1, hstores, eq_comm]
      · rename_i hload
        -- a load that is passed over is not one of a reference
        have hloads : p.loads t = false := by
          refine Bool.eq_false_iff.2 fun hloads => hload ?_
          rw [Instr.loads_iff] at hloads
          simp [hloads.1, hloads.2, ht]
        simp [hloads, hstores]

theorem mem_rootStep_snd {p : Instr} {s : TempSet × TempSet} :
    t ∈ (rootStep refs p s).2 ↔ t ∈ s.2 ∨ p.collects = true ∧ t ∈ s.1 := by
  unfold rootStep
  split
  · rename_i hcollects
    simp [hcollects]
  · rename_i hcollects
    simp only [hcollects, false_and, or_false, Bool.false_eq_true]
    split
    · rfl
    · split
      · rfl
      · rfl

/-- No set on the way backward holds anything but references. -/
theorem mem_refs_of_mem_foldr (hlive : ∀ u, u ∈ live → u ∈ refs)
    (ht : t ∈ (code.foldr (rootStep refs) (live, found)).1) : t ∈ refs := by
  induction code with
  | nil => exact hlive t ht
  | cons p code ih =>
    rw [List.foldr_cons, rootStep] at ht
    split at ht
    · exact ih ht
    · split at ht
      · exact ih (TempSet.mem_erase.1 ht).1
      · split at ht
        · rename_i hload
          simp only [Bool.and_eq_true, TempSet.contains_iff] at hload
          rcases TempSet.mem_insert.1 ht with heq | hold
          · exact heq ▸ hload.2
          · exact ih hold
        · exact ih ht

/-- The first set of the way backward holds the references that are live there. -/
theorem mem_foldr_fst (ht : t ∈ refs) :
    t ∈ (code.foldr (rootStep refs) (live, found)).1 ↔ Block.LiveBefore t live code := by
  induction code with
  | nil => simp
  | cons p code ih => rw [List.foldr_cons, mem_rootStep_fst ht, ih, Block.liveBefore_cons]

/-- The second set gains the references that are live across a collection. -/
theorem mem_foldr_snd (hlive : ∀ u, u ∈ live → u ∈ refs) :
    t ∈ (code.foldr (rootStep refs) (live, found)).2 ↔
      t ∈ found ∨ t ∈ refs ∧ Block.LiveAcross t live code := by
  induction code with
  | nil => simp [Block.not_liveAcross_nil]
  | cons p code ih =>
    have hfirst : t ∈ (code.foldr (rootStep refs) (live, found)).1 ↔
        t ∈ refs ∧ Block.LiveBefore t live code := by
      constructor
      · intro h
        have ht := mem_refs_of_mem_foldr hlive h
        exact ⟨ht, (mem_foldr_fst ht).1 h⟩
      · intro h
        exact (mem_foldr_fst h.1).2 h.2
    rw [List.foldr_cons, mem_rootStep_snd, ih, hfirst, Block.liveAcross_cons]
    tauto

end Block

/-! ## All blocks -/

variable {g : Graph} {t : Int64}

theorem mem_gcTemps : t ∈ g.gcTemps ↔ t ∈ g.refs ∧ ∃ b < g.size,
    Block.LiveAcross t (g.liveOut b ∩ g.refs) (g.block b).code := by
  have hfold : ∀ (is : List Nat) (found : TempSet),
      t ∈ is.foldl (fun found i =>
          rootsIn g.refs (g.block i).code (g.liveOut i ∩ g.refs) found) found ↔
        t ∈ found ∨ t ∈ g.refs ∧ ∃ b ∈ is,
          Block.LiveAcross t (g.liveOut b ∩ g.refs) (g.block b).code := by
    intro is
    induction is with
    | nil => simp
    | cons i is ih =>
      intro found
      have hlive : ∀ u, u ∈ g.liveOut i ∩ g.refs → u ∈ g.refs :=
        fun u hu => (TempSet.mem_inter.1 hu).2
      rw [List.foldl_cons, ih, rootsIn_eq, mem_foldr_snd hlive]
      simp only [List.mem_cons, exists_eq_or_imp, and_or_left, or_assoc]
  rw [gcTemps, hfold]
  simp [Layout.indices, size]

variable {o : Options} {code : List Instr}

namespace Built

/-- The references are the temporaries that some instruction accesses as such. -/
theorem mem_refs_iff (h : Built o code g) : t ∈ g.refs ↔ ∃ q p, g.at? q = some p ∧
    p.accessesTemp = true ∧ p.ty = .reference ∧ p.temp = t := by
  rw [h.refs, Layout.temps, TempSet.mem_ofList]
  simp only [List.mem_flatMap, List.mem_map, List.mem_filter, Bool.and_eq_true, decide_eq_true_eq]
  constructor
  · intro hmem
    obtain ⟨k, hk, p, ⟨hp, haccesses, hty⟩, htemp⟩ := hmem
    obtain ⟨b, hb⟩ := List.mem_iff_getElem?.1 hk
    obtain ⟨i, hi⟩ := List.mem_iff_getElem?.1 hp
    have hblock : g.block b = k := by
      rw [Array.getElem?_toList] at hb
      rw [block, Layout.block, Array.getD_eq_getD_getElem?, hb, Option.getD_some]
    refine ⟨⟨b, i⟩, p, ?_, haccesses, hty, htemp⟩
    rw [at?, hblock]
    exact hi
  · intro hplace
    obtain ⟨q, p, hp, haccesses, hty, htemp⟩ := hplace
    have hmem : p ∈ (g.block q.block).code := List.mem_of_getElem? hp
    have hlt : q.block < g.layout.size := lt_of_mem_code hmem
    refine ⟨g.block q.block, ?_, p, ⟨hmem, haccesses, hty⟩, htemp⟩
    rw [block, Layout.block, Array.getD_eq_getD_getElem?, Array.getElem?_eq_getElem hlt]
    exact Array.getElem_mem_toList hlt

theorem liveAcross_iff (h : Built o code g) {b : Nat} (hb : b < g.size) (ht : t ∈ g.refs) :
    Block.LiveAcross t (g.liveOut b ∩ g.refs) (g.block b).code ↔ ∃ i p,
      g.at? ⟨b, i⟩ = some p ∧ p.collects = true ∧ g.LoadsAhead t ⟨b, i + 1⟩ := by
  apply exists_congr
  intro i
  apply exists_congr
  intro p
  apply and_congr_right
  intro hp
  have hi : i + 1 ≤ (g.block b).code.length := (List.getElem?_eq_some_iff.1 hp).1
  rw [Block.liveBefore_inter ht, h.loadsAhead_iff hb hi]
  exact Iff.rfl

end Built

/-- A temporary has to be seen by the collector exactly if it is a reference and control may go
on from right behind some instruction that may collect to a load of the temporary, without
storing it before.  The references are the temporaries that are loaded or stored as such. -/
theorem mem_gcTemps_iff (h : build o code = .ok g) (t : Int64) :
    (t ∈ g.gcTemps ↔ t ∈ g.refs ∧ ∃ q p, g.at? q = some p ∧ p.collects = true ∧
      g.LoadsAhead t ⟨q.block, q.index + 1⟩) ∧
    (t ∈ g.refs ↔ ∃ q p, g.at? q = some p ∧ p.accessesTemp = true ∧ p.ty = .reference ∧
      p.temp = t) := by
  have hbuilt := built_of_build h
  refine ⟨?_, hbuilt.mem_refs_iff⟩
  rw [mem_gcTemps]
  apply and_congr_right
  intro ht
  constructor
  · intro hblock
    obtain ⟨b, hb, hacross⟩ := hblock
    obtain ⟨i, p, hp, hcollects, hahead⟩ := (hbuilt.liveAcross_iff hb ht).1 hacross
    exact ⟨⟨b, i⟩, p, hp, hcollects, hahead⟩
  · intro hplace
    obtain ⟨q, p, hp, hcollects, hahead⟩ := hplace
    have hb : q.block < g.size := Built.lt_of_mem_code (List.mem_of_getElem? hp)
    exact ⟨q.block, hb, (hbuilt.liveAcross_iff hb ht).2 ⟨q.index, p, hp, hcollects, hahead⟩⟩

/-- A loop that loads one reference and allocates after that; another reference is stored before
the loop and never loaded. -/
def allocatingLoop : List Instr :=
  [.number 0, .tstore .reference 0, .number 0, .tstore .reference 1, .target 0,
    .tload .reference 0, .ofOpcode .drop, .number 8, .ofOpcode .gcMalloc, .ofOpcode .drop,
    .number 1, .branch 0 true, .ret .void]

/-- The collector has to see the reference that the next turn of the loop loads. -/
theorem mem_gcTemps_iff_looping :
    ∃ g, build (Defaults.options {}) allocatingLoop = .ok g ∧
      (0 ∈ g.gcTemps ∧ ∃ q p, g.at? q = some p ∧ p.collects = true ∧
        g.LoadsAhead 0 ⟨q.block, q.index + 1⟩) ∧
      (1 ∈ g.refs ∧ 1 ∉ g.gcTemps ∧ ∀ q p, g.at? q = some p → p.collects = true →
        ¬ g.LoadsAhead 1 ⟨q.block, q.index + 1⟩) := by
  obtain ⟨g, hbuild, hsets⟩ := exists_ok_of_any
    (x := build (Defaults.options {}) allocatingLoop)
    (P := fun g => decide (0 ∈ g.gcTemps) && (decide (1 ∈ g.refs) && decide (1 ∉ g.gcTemps)))
    (by cbv)
  simp only [Bool.and_eq_true, decide_eq_true_eq] at hsets
  obtain ⟨hseen, href, hunseen⟩ := hsets
  have hloaded := (mem_gcTemps_iff hbuild 0).1.1 hseen
  have hunloaded := mt (mem_gcTemps_iff hbuild 1).1.2 hunseen
  refine ⟨g, hbuild, ⟨hseen, hloaded.2⟩, href, hunseen, ?_⟩
  intro q p hp hcollects hahead
  exact hunloaded ⟨href, q, p, hp, hcollects, hahead⟩

end Graph

end StackFlow
