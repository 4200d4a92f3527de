import StackFlow.Proofs.Passes

/-!
# Facts that survive the optimizer

The facts of a block are taken from its code when the graph is built, and nothing takes
them anew when an instruction is exchanged.

* `Instr.Plain` says when the effect of an instruction is what its shape says: by
  `meter_of_plain` such an instruction is metered by its shape, and by `plain_of_effect` no
  other is.
* `Instr.Alike` is the check of a pair of variants that makes an exchange leave all facts as
  they are; `alike_iff` says that no weaker check does.
* `Graph.optimize_facts`: whether a block collects always survives the optimizer, and with
  alike variants everything does.
-/

namespace StackFlow

/-! ## Meters -/

namespace Meter

variable {m : Meter} {n k : Int64}

/-- An absolute depth does not fall below zero. -/
theorem depth_push_of_absolute (h : m.isAbsolute = true) : 0 ≤ (m.push n).depth := by
  unfold push move
  simp only [h, Bool.true_and]
  split
  · exact Int64.le_refl 0
  · rename_i hdepth
    exact Int64.not_lt.1 (by simpa using hdepth)

/-- From the start of a run, the slots taken are the lowest depth. -/
theorem lowest_pop_of_start (hn : 0 ≤ n) (h : m.isAbsolute = false) (hdepth : m.depth = 0)
    (hlowest : m.lowest = 0) : (m.pop n).lowest = n := by
  rw [lowest_pop_of_relative h, hdepth, hlowest, Int64.sub_zero]
  split
  · rfl
  · rename_i hnot
    exact Int64.le_antisymm hn (Int64.not_lt.1 hnot)

theorem isAbsolute_of_effect (h : 0 ≤ m.effect.consume) : m.isAbsolute = false := by
  refine Bool.eq_false_iff.2 fun habsolute => ?_
  simp only [effect, habsolute, if_true, Effect.absolute] at h
  exact absurd h (by decide)

end Meter

/-! ## Instructions of plain effect -/

namespace Instr

variable {p q : Instr} {m : Meter}

/-- The meter after an instruction that does no more than its shape says. -/
def meterShape (m : Meter) (p : Instr) : Meter :=
  ((m.fetch p.operands).pop p.inputs).push p.outputs

/-- Whether the effect of the instruction is what its shape says. -/
def Plain (p : Instr) : Prop :=
  if p.op = .compound then ∃ sub, p.nested = some sub ∧ sub.effect = ⟨0, p.inputs, p.outputs⟩
  else p.op.row.resets = false

theorem sameShape_iff :
    p.sameShape q = true ↔
      p.inputs = q.inputs ∧ p.outputs = q.outputs ∧ p.operands = q.operands := by
  simp [sameShape, and_assoc]

theorem meterShape_eq (h : p.sameShape q = true) : q.meterShape m = p.meterShape m := by
  obtain ⟨hinputs, houtputs, hoperands⟩ := sameShape_iff.1 h
  rw [meterShape, meterShape, hinputs, houtputs, hoperands]

/-- An instruction whose operands can be paired runs no nested routine and does not reset
the stack. -/
theorem of_paired (h : p.isComplex = false) : p.op ≠ .compound ∧ p.op.row.resets = false := by
  unfold isComplex at h
  cases hop : p.op <;> simp_all [Opcode.row]

theorem meter_of_plain (h : p.Plain) (hinputs : 0 ≤ p.inputs) : p.meter m = p.meterShape m := by
  unfold Plain at h
  unfold meter meterShape
  split at h
  · rename_i hop
    obtain ⟨sub, hsub, heffect⟩ := h
    have hfetch : (m.fetch p.operands).fetch 0 = m.fetch p.operands := by
      simp [Meter.fetch]
    simp only [hop, if_true, hsub, Meter.apply, heffect, Count.isKnown, hinputs, decide_true,
      hfetch]
  · rename_i hop
    simp only [hop, if_false, h, Bool.false_eq_true]

theorem meter_of_paired (h : p.isComplex = false) : p.meter m = p.meterShape m := by
  obtain ⟨hop, hresets⟩ := of_paired h
  simp only [meter, meterShape, hop, if_false, hresets, Bool.false_eq_true]

/-- From the start of a run, the effect of a shape is that shape. -/
theorem effect_meterShape (hinputs : 0 ≤ p.inputs) :
    (p.meterShape {}).effect = ⟨p.operands, p.inputs, p.outputs⟩ := by
  have hlowest : (({} : Meter).fetch p.operands |>.pop p.inputs).lowest = p.inputs :=
    Meter.lowest_pop_of_start hinputs rfl rfl rfl
  have hdepth : (p.meterShape {}).depth = 0 - p.inputs + p.outputs := by
    rw [meterShape, Meter.depth_push_of_relative (by simp [Meter.fetch]),
      Meter.depth_pop_of_relative rfl]
    rfl
  have hsum : 0 - p.inputs + p.outputs + p.inputs = p.outputs := by grind
  unfold Meter.effect
  rw [if_neg (by simp [meterShape, Meter.fetch]), hdepth, meterShape, Meter.lowest_push, hlowest,
    hsum]
  simp [Meter.fetch]

/-- An effect that is what the shape says from the start, and does not leave an absolute
depth below zero, is plain. -/
theorem plain_of_effect (hinputs : 0 ≤ p.inputs)
    (hstart : (p.meter {}).effect = ⟨p.operands, p.inputs, p.outputs⟩)
    (hdeep : 0 ≤ (p.meter { depth := -1, isAbsolute := true }).depth) : p.Plain := by
  have hrelative : (p.meter {}).isAbsolute = false :=
    Meter.isAbsolute_of_effect (by rw [hstart]; exact hinputs)
  unfold Plain
  split
  · rename_i hop
    cases hsub : p.nested with
    | none =>
      simp only [meter, hop, hsub, if_true, Meter.fetch] at hdeep
      exact absurd hdeep (by decide)
    | some sub =>
      simp only [meter, hop, hsub, if_true, Meter.apply] at hstart hrelative
      split at hstart
      · rename_i hknown
        have hlowest : ((({} : Meter).fetch p.operands).fetch sub.effect.cursor |>.pop
            sub.effect.consume).lowest = sub.effect.consume :=
          Meter.lowest_pop_of_start (of_decide_eq_true hknown) rfl rfl rfl
        rw [if_pos hknown] at hrelative
        unfold Meter.effect at hstart
        rw [if_neg (by simpa using hrelative), Meter.depth_push_of_relative (by simp [Meter.fetch]),
          Meter.depth_pop_of_relative rfl, Meter.lowest_push, hlowest] at hstart
        simp [Meter.fetch] at hstart
        obtain ⟨hcursor, hconsume, hproduce⟩ := hstart
        have hsum : -sub.effect.consume + sub.effect.produce + sub.effect.consume =
            sub.effect.produce := by grind
        refine ⟨sub, rfl, ?_⟩
        rw [← hcursor, ← hconsume, ← hproduce, hsum]
      · rename_i hknown
        rw [if_neg hknown] at hrelative
        cases hrelative
  · rename_i hop
    refine Bool.eq_false_iff.2 fun hresets => ?_
    simp [meter, hop, hresets, Meter.reset, Meter.fetch] at hrelative

end Instr

/-! ## Exchanges that keep the facts -/

/-- Whether exchanging `p` for `q` changes neither the facts of any code nor where control
goes. -/
def Instr.Interchangeable (p q : Instr) : Prop :=
  q.transfers = p.transfers ∧
    ∀ pre post, Block.factsOf (pre ++ q :: post) = Block.factsOf (pre ++ p :: post)

/-- What has to be checked of two variants besides their shape and whether they collect. -/
structure Instr.Alike (a b : Instr) : Prop where
  plain : b.Plain
  transfers : b.transfers = a.op.row.transfers
  old : a.accessesTemp = false
  new : b.accessesTemp = false

/-- Whether the variants of both pairs are alike. -/
structure Variants.Faithful (v : Variants) : Prop where
  allocation : v.allocate.Alike v.allocateOnly
  store : v.checkedStore.Alike v.uncheckedStore

/-- The variants of the standard platform are alike. -/
theorem Variants.standard_faithful : standard.Faithful where
  allocation := ⟨(if_neg (by decide)).mpr rfl, rfl, rfl, rfl⟩
  store := ⟨(if_neg (by decide)).mpr rfl, rfl, rfl, rfl⟩

/-- What two instructions have in common if one takes the place of the other. -/
structure Instr.Matches (p q : Instr) : Prop where
  meter : ∀ m, q.meter m = p.meter m
  collects : q.collects = p.collects
  temp : q = p ∨ p.accessesTemp = false ∧ q.accessesTemp = false

namespace Block

variable {code code' : List Instr}

theorem not_accesses {p : Instr} (h : p.accessesTemp = false) : p.op ≠ .tstore ∧ p.op ≠ .tload := by
  unfold Instr.accessesTemp at h
  constructor
  · intro hop
    rw [hop] at h
    cases h
  · intro hop
    rw [hop] at h
    cases h

theorem collects_factsOf_eq (h : List.Forall₂ (fun p q => q.collects = p.collects) code code') :
    (factsOf code').collects = (factsOf code).collects := by
  unfold factsOf
  induction h with
  | nil => rfl
  | cons hp _ ih =>
    simp only [List.any_cons] at ih ⊢
    rw [hp, ih]

theorem defsOf_eq (h : List.Forall₂ Instr.Matches code code') : defsOf code' = defsOf code := by
  have hstored : code'.filter (·.op = .tstore) = code.filter (·.op = .tstore) := by
    induction h with
    | nil => rfl
    | cons hp _ ih =>
      rcases hp.temp with rfl | ⟨hold, hnew⟩
      · rw [List.filter_cons, List.filter_cons, ih]
      · simp [(not_accesses hold).1, (not_accesses hnew).1, ih]
  rw [defsOf, defsOf, hstored]

theorem usesOf_eq (h : List.Forall₂ Instr.Matches code code') (stored : TempSet) :
    usesOf stored code' = usesOf stored code := by
  induction h generalizing stored with
  | nil => rfl
  | cons hp _ ih =>
    rcases hp.temp with rfl | ⟨hold, hnew⟩
    · simp only [usesOf, ih]
    · simp [usesOf, not_accesses hold, not_accesses hnew, ih]

theorem factsOf_eq (h : List.Forall₂ Instr.Matches code code') : factsOf code' = factsOf code := by
  have hmeter : ∀ m, code'.foldl Instr.meter m = code.foldl Instr.meter m := by
    induction h with
    | nil => exact fun _ => rfl
    | cons hp _ ih =>
      intro m
      rw [List.foldl_cons, List.foldl_cons, hp.meter, ih]
  have hcollects : code'.any (·.collects) = code.any (·.collects) :=
    collects_factsOf_eq (h.imp fun _ _ hp => hp.collects)
  unfold factsOf
  rw [hmeter, hcollects, defsOf_eq h, usesOf_eq h]

end Block

namespace Instr

variable {p q a : Instr}

theorem Matches.refl (p : Instr) : p.Matches p := ⟨fun _ => rfl, rfl, .inl rfl⟩

theorem Matches.interchangeable (h : p.Matches q) (htransfers : q.transfers = p.transfers) :
    p.Interchangeable q := by
  refine ⟨htransfers, fun pre post => Block.factsOf_eq ?_⟩
  have hself : ∀ code, List.Forall₂ Instr.Matches code code :=
    fun code => List.forall₂_same.2 fun p _ => .refl p
  exact List.rel_append (hself pre) (.cons h (hself post))

theorem transfers_of_paired (h : p.isComplex = false) : p.transfers = p.op.row.transfers := by
  simp [transfers, (of_paired h).1]

/-- An instruction whose operands can be paired is exchanged for one of the same shape. -/
theorem Alike.matches (h : a.Alike q) (hop : p.op = a.op) (hpaired : p.isComplex = false)
    (hinputs : 0 ≤ p.inputs) (hfits : p.fits q = true) :
    p.Matches q ∧ q.transfers = p.transfers := by
  rw [fits, Bool.and_eq_true, decide_eq_true_eq] at hfits
  have hq : 0 ≤ q.inputs := (sameShape_iff.1 hfits.1).1 ▸ hinputs
  refine ⟨⟨fun m => ?_, hfits.2.symm, .inr ⟨?_, h.new⟩⟩, ?_⟩
  · rw [meter_of_plain h.plain hq, meter_of_paired hpaired, meterShape_eq hfits.1]
  · rw [accessesTemp, hop]
    exact h.old
  · rw [h.transfers, transfers_of_paired hpaired, hop]

theorem accessesTemp_of_facts (h : Block.factsOf [q] = Block.factsOf [p])
    (hp : p.accessesTemp = false) : q.accessesTemp = false := by
  obtain ⟨hstore, hload⟩ := Block.not_accesses hp
  have hdefs : q.temp ∈ Block.defsOf [q] ↔ q.temp ∈ Block.defsOf [p] := by
    rw [show Block.defsOf [q] = Block.defsOf [p] from congrArg Block.Facts.defs h]
  have huses : q.temp ∈ Block.usesOf ∅ [q] ↔ q.temp ∈ Block.usesOf ∅ [p] := by
    rw [show Block.usesOf ∅ [q] = Block.usesOf ∅ [p] from congrArg Block.Facts.uses h]
  simp only [Block.mem_defsOf, List.mem_singleton, exists_eq_left, stores, hstore] at hdefs
  simp only [Block.mem_usesOf, Block.Needs, loads, hload] at huses
  unfold accessesTemp
  cases hop : q.op <;> simp_all [Opcode.accessesTemp]

theorem isAbsolute_meter {m : Meter} (h : m.isAbsolute = true) : (p.meter m).isAbsolute = true := by
  have hfetch : (m.fetch p.operands).isAbsolute = true := h
  unfold meter
  simp only
  split
  · split
    · unfold Meter.apply
      simp only
      split
      · rw [Meter.isAbsolute_push, Meter.isAbsolute_pop]
        exact hfetch
      · rfl
    · exact hfetch
  · rw [Meter.isAbsolute_push]
    split
    · rfl
    · rw [Meter.isAbsolute_pop]
      exact hfetch

/-- No weaker check makes an exchange keep all facts. -/
theorem alike_iff (hop : p.op = a.op) (hpaired : p.isComplex = false) (hinputs : 0 ≤ p.inputs)
    (hfits : p.fits q = true) (htemp : p.accessesTemp = false) :
    a.Alike q ↔ p.Interchangeable q := by
  refine ⟨fun h => ?_, fun h => ?_⟩
  · obtain ⟨hmatches, htransfers⟩ := h.matches hop hpaired hinputs hfits
    exact hmatches.interchangeable htransfers
  · rw [fits, Bool.and_eq_true] at hfits
    obtain ⟨hin, hout, hread⟩ := sameShape_iff.1 hfits.1
    have halone := h.2 [] []
    have heffect := congrArg Block.Facts.effect halone
    refine ⟨plain_of_effect (hin ▸ hinputs) ?_ ?_, ?_, ?_, accessesTemp_of_facts halone htemp⟩
    · change (q.meter {}).effect = (p.meter {}).effect at heffect
      rw [heffect, meter_of_paired hpaired, effect_meterShape hinputs, hin, hout, hread]
    · -- after a nested routine that leaves an absolute depth below zero
      have hdeep := congrArg Block.Facts.effect
        (h.2 [.compound ⟨"", [], ⟨0, -1, -1⟩, false, false, none⟩] [])
      change (q.meter { depth := -1, isAbsolute := true }).effect =
        (p.meter { depth := -1, isAbsolute := true }).effect at hdeep
      have hdepth := congrArg Effect.produce hdeep
      simp only [Meter.effect, isAbsolute_meter, if_true, Effect.absolute] at hdepth
      rw [hdepth, meter_of_paired hpaired]
      exact Meter.depth_push_of_absolute (by simp [Meter.fetch])
    · rw [h.1, transfers_of_paired hpaired, hop]
    · rw [accessesTemp, ← hop]
      exact htemp

end Instr

/-! ## Instructions of a graph -/

theorem Instr.nonneg_of_validate {p : Instr} (h : p.validate = .ok ()) :
    0 ≤ p.inputs ∧ 0 ≤ p.outputs := by
  rw [← Int64.not_lt, ← Int64.not_lt, ← not_or]
  intro hneg
  have hmalformed : ∃ m, p.malformation? = some m := by
    unfold malformation?
    split
    · exact ⟨_, rfl⟩
    · rw [if_pos (by simpa using hneg)]
      exact ⟨_, rfl⟩
  obtain ⟨m, hm⟩ := hmalformed
  rw [validate, hm] at h
  cases h

/-! ## Facts after the optimizer -/

namespace Graph

variable {o : Options} {code : List Instr} {g g' : Graph} {v : Variants} {on : Passes}
  {rep : Report}

theorem Built.inputs_nonneg (h : Built o code g) {b : Nat} {p : Instr}
    (hp : p ∈ (g.block b).code) : 0 ≤ p.inputs :=
  (Instr.nonneg_of_validate (Scope.validate_of_check h.checked p (h.instr_mem hp))).1

/-- An exchange of alike variants keeps all facts. -/
theorem matches_of_swapped (hv : v.Faithful) {p p' : Instr} (hinputs : 0 ≤ p.inputs)
    (h : v.Swapped p p') : p.Matches p' ∧ p'.transfers = p.transfers := by
  cases h with
  | same => exact ⟨.refl p, rfl⟩
  | store checked rooted fits =>
    rw [Variants.isCheckedStore, Bool.and_eq_true, decide_eq_true_eq] at checked
    exact hv.store.matches checked.1 rooted.2.1 hinputs fits
  | allocation clears pushes fits =>
    exact hv.allocation.matches (of_decide_eq_true clears) pushes.2.1 hinputs fits

/-- Whether a block collects survives the optimizer.  With variants that are alike, all
facts do, and control goes where it went; an exchange of others that are not about
temporaries changes the facts of some code. -/
theorem optimize_facts (hbuild : build o code = .ok g)
    (hoptimize : g.optimize v on = (.ok rep, g')) :
    (∀ b < g.size, (Block.factsOf (g'.block b).code).collects = (g.block b).facts.collects) ∧
      (v.Faithful → ∀ b < g.size, Block.factsOf (g'.block b).code = (g.block b).facts ∧
        ∀ (i : Nat) p p', (g.block b).code[i]? = some p → (g'.block b).code[i]? = some p' →
          p'.transfers = p.transfers) ∧
      ∀ (b i : Nat) p p', (g.block b).code[i]? = some p → (g'.block b).code[i]? = some p' →
        p' ≠ p → p.accessesTemp = false → p.Interchangeable p' →
          (v.checkedStore.Alike v.uncheckedStore ∧ p' = v.uncheckedStore) ∨
            (v.allocate.Alike v.allocateOnly ∧ p' = v.allocateOnly) := by
  have hbuilt := built_of_build hbuild
  have hswaps := swaps_optimize hoptimize
  have hswapped : ∀ {b i : Nat} {p p' : Instr}, (g.block b).code[i]? = some p →
      (g'.block b).code[i]? = some p' → v.Swapped p p' ∧ 0 ≤ p.inputs := by
    intro b i p p' hp hp'
    obtain ⟨q, hq, hswapped⟩ := hswaps.of_old hp
    rw [hp', Option.some_inj] at hq
    exact ⟨hq ▸ hswapped, hbuilt.inputs_nonneg (List.mem_of_getElem? hp)⟩
  refine ⟨fun b hb => ?_, fun hv b hb => ⟨?_, fun i p p' hp hp' => ?_⟩, ?_⟩
  · rw [hbuilt.facts_eq hb]
    refine Block.collects_factsOf_eq ((hswaps.code b).imp fun p p' h => ?_)
    cases h with
    | same => rfl
    | store _ _ fits =>
      rw [Instr.fits, Bool.and_eq_true, decide_eq_true_eq] at fits
      exact fits.2.symm
    | allocation _ _ fits =>
      rw [Instr.fits, Bool.and_eq_true, decide_eq_true_eq] at fits
      exact fits.2.symm
  · rw [hbuilt.facts_eq hb]
    refine Block.factsOf_eq (List.forall₂_iff_get.2 ⟨(hswaps.code b).length_eq, ?_⟩)
    intro i hi hi'
    obtain ⟨h, hinputs⟩ := hswapped (List.getElem?_eq_getElem hi) (List.getElem?_eq_getElem hi')
    exact (matches_of_swapped hv hinputs h).1
  · obtain ⟨h, hinputs⟩ := hswapped hp hp'
    exact (matches_of_swapped hv hinputs h).2
  · intro b i p p' hp hp' hne htemp hinterchangeable
    obtain ⟨h, hinputs⟩ := hswapped hp hp'
    cases h with
    | same => exact absurd rfl hne
    | store checked rooted fits =>
      rw [Variants.isCheckedStore, Bool.and_eq_true, decide_eq_true_eq] at checked
      exact .inl ⟨(Instr.alike_iff checked.1 rooted.2.1 hinputs fits htemp).2 hinterchangeable, rfl⟩
    | allocation clears pushes fits =>
      exact .inr ⟨(Instr.alike_iff (of_decide_eq_true clears) pushes.2.1 hinputs fits htemp).2
        hinterchangeable, rfl⟩

/-- A routine with a marker that stores nothing. -/
def droppedRoutine : List Instr := [.number 0, .ofOpcode .fullyInitialized]

/-- Variants of one shape, of which one resets the stack. -/
def droppingVariants : Variants :=
  { Variants.standard with
    checkedStore := .ofOpcode .fullyInitialized, uncheckedStore := .ofOpcode .dropN }

/-- The optimizer leaves it with the effect of its old instructions. -/
theorem optimize_droppedRoutine : droppingVariants.validate = .ok () ∧
    ∃ g rep g', build (Defaults.options {}) droppedRoutine = .ok g ∧
      g.optimize droppingVariants ⟨true, true, true⟩ = (.ok rep, g') ∧
      (Block.factsOf (g'.block 0).code).collects = (g.block 0).facts.collects ∧
      (Block.factsOf (g'.block 0).code).effect ≠ (g.block 0).facts.effect ∧
      ¬ droppingVariants.Faithful := by
  have hdiffers : (build (Defaults.options {}) droppedRoutine).toOption.any (fun g =>
      (g.optimize droppingVariants ⟨true, true, true⟩).1.toOption.any fun _ =>
        (Block.factsOf ((g.optimize droppingVariants ⟨true, true, true⟩).2.block 0).code).effect ≠
          (g.block 0).facts.effect) = true := by cbv
  obtain ⟨g, hbuild, hresult⟩ := exists_ok_of_any hdiffers
  obtain ⟨rep, hreport, hchanged⟩ := exists_ok_of_any hresult
  have heffect := of_decide_eq_true hchanged
  have hoptimize : g.optimize droppingVariants ⟨true, true, true⟩ = (.ok rep, _) :=
    Prod.ext hreport rfl
  obtain ⟨hcollects, hfaithful, _⟩ := optimize_facts hbuild hoptimize
  have hsize := (built_of_build hbuild).size_pos
  refine ⟨rfl, g, rep, _, hbuild, hoptimize, hcollects 0 hsize, heffect, fun hv => ?_⟩
  exact heffect (congrArg Block.Facts.effect (hfaithful hv 0 hsize).1)

end Graph

end StackFlow
