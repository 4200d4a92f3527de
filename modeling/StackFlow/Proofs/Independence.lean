import StackFlow.Proofs.Idempotence

/-!
# Passes that do not disturb one another

A pass works on code that the passes before it have rewritten, but it finds there what it would
have found in the code as it was given.

* `Found g on q p`: some pass that is switched on puts `p` in the place of the instruction at `q`,
  for what it finds in `g` as it is.
* `at?_of_found` and `found_of_ne` say that the passes, one after the other, make these exchanges
  and no others.
* `Graph.optimize_independent` is the result: what is exchanged with several passes is what is
  exchanged by each of them alone.
-/

namespace StackFlow

open Elision

/-- `on.Part part`: of the passes in `on`, `part` is one alone. -/
inductive Passes.Part (on : Passes) : Passes → Prop where
  | writeBarriers (h : on.writeBarriers = true) : Part on ⟨true, false, false⟩
  | initMarkers (h : on.initMarkers = true) : Part on ⟨false, true, false⟩
  | fixedInit (h : on.fixedInit = true) : Part on ⟨false, false, true⟩

/-- `Found g on q p`: a pass that is switched on finds in `g` that `p` may take the place of the
instruction at `q`. -/
inductive Found (g : Graph) (on : Passes) (q : Place) : Instr → Prop where
  | store {reason : Reason} (hon : on.writeBarriers = true)
      (helides : Elides g reason q.block q.index) : Found g on q Variants.standard.uncheckedStore
  | marked (hon : on.initMarkers = true) (hpairs : Pairs g q.block q.index) :
      Found g on q Variants.standard.allocateOnly
  | covered (hon : on.fixedInit = true) (hcovers : Covers g q.block q.index) :
      Found g on q Variants.standard.allocateOnly

section Runs

variable {g g' : Graph} {on : Passes} {b i : Nat} {k : Int64} {q : Place} {p : Instr}
  {s' : Progress}

/-- What several passes find is what each of them finds alone. -/
theorem found_iff_part : Found g on q p ↔ ∃ part, on.Part part ∧ Found g part q p := by
  constructor
  · intro hfound
    cases hfound with
    | store hon helides => exact ⟨_, .writeBarriers hon, .store rfl helides⟩
    | marked hon hpairs => exact ⟨_, .initMarkers hon, .marked rfl hpairs⟩
    | covered hon hcovers => exact ⟨_, .fixedInit hon, .covered rfl hcovers⟩
  · intro hpart
    obtain ⟨part, hpart, hfound⟩ := hpart
    cases hpart with
    | writeBarriers hon => cases hfound with
      | store _ helides => exact .store hon helides
      | marked hoff => cases hoff
      | covered hoff => cases hoff
    | initMarkers hon => cases hfound with
      | store hoff => cases hoff
      | marked _ hpairs => exact .marked hon hpairs
      | covered hoff => cases hoff
    | fixedInit hon => cases hfound with
      | store hoff => cases hoff
      | marked hoff => cases hoff
      | covered _ hcovers => exact .covered hon hcovers

theorem Pairs.clears (h : Pairs g b i) : ∃ p, (g.block b).code[i]? = some p ∧ p.op = .gcMalloc := by
  obtain ⟨_, _, _, ⟨_, _, _, p, hp, _, _, _, hop⟩, _⟩ := h
  exact ⟨p, hp, hop⟩

theorem Covers.clears (h : Covers g b i) :
    ∃ p, (g.block b).code[i]? = some p ∧ p.op = .gcMalloc := by
  obtain ⟨_, _, _, _, t, p, _, _, _, _, _, hindex, hp, hop, _⟩ := h
  change t.index = i at hindex
  exact ⟨p, hindex ▸ hp, hop⟩

/-- What is found is another instruction than the one that is there. -/
theorem Found.ne (h : Found g on q p) : g.at? q ≠ some p := by
  intro heq
  change (g.block q.block).code[q.index]? = some p at heq
  cases h with
  | store _ helides =>
    obtain ⟨_, p, _, _, hp, hchecked, _⟩ := helides
    rw [heq, Option.some_inj] at hp
    rw [← hp] at hchecked
    cases hchecked
  | marked _ hpairs =>
    obtain ⟨p, hp, hop⟩ := hpairs.clears
    rw [heq, Option.some_inj] at hp
    rw [← hp] at hop
    cases hop
  | covered _ hcovers =>
    obtain ⟨p, hp, hop⟩ := hcovers.clears
    rw [heq, Option.some_inj] at hp
    rw [← hp] at hop
    cases hop

/-- A clearing allocation that is left is still that of its class. -/
theorem AllocatesAt.to_swaps (h : Variants.standard.Swaps g g') (hallocates : AllocatesAt g k q)
    (hkept : g'.at? q = g.at? q) : AllocatesAt g' k q := by
  obtain ⟨r, hr, t, p, hp, hclass, ht, hindex, hop⟩ := hallocates
  refine ⟨r, ?_, t, p, hkept.trans hp, ?_, ht, hindex, hop⟩
  · rwa [h.context_eq]
  · rw [h.context_eq, (h.resembles.code q.block).allocatedClass?_eq rfl]
    exact hclass

/-- An allocation that is paired with its marker is so after the barrier pass, which exchanges
no allocation. -/
theorem Pairs.to_swaps (h : Variants.standard.Swaps g g') (hpairs : Pairs g b i)
    (hkept : g'.at? ⟨b, i⟩ = g.at? ⟨b, i⟩) : Pairs g' b i := by
  obtain ⟨k, q, hmark, hallocates, hreaches⟩ := hpairs
  refine ⟨k, q, ?_, hallocates.to_swaps h hkept, ?_⟩
  · rw [h.context_eq, marks_of_resembles h.resembles]
    exact hmark
  · rw [h.resembles.reachesUncollected_eq]
    exact hreaches

/-- An allocation that clears memory is left alone, or does not clear it any more. -/
theorem kept_or_allocatesOnly (h : Variants.standard.Swaps g g')
    (hp : (g.block b).code[i]? = some p) (hop : p.op = .gcMalloc) :
    g'.at? ⟨b, i⟩ = g.at? ⟨b, i⟩ ∨ g'.AllocatesOnly b i := by
  obtain ⟨p', hp', hexchanged⟩ := (h.resembles.code b).of_old hp
  rcases hexchanged with rfl | ⟨hop', _⟩ | ⟨_, rfl⟩
  · exact .inl (hp'.trans hp.symm)
  · rw [hop] at hop'
    cases hop'
  · exact .inr hp'

/-- The passes exchange all that one of them finds. -/
theorem at?_of_found (h : Yields (Elision.passes .standard on) { graph := g } () s')
    (hfound : Found g on q p) : s'.graph.at? q = some p := by
  obtain ⟨s₁, s₂, h₁, h₂, h₃, hswaps₁, hswaps₂, hlater₁, hlater₂⟩ := stages_of_passes h
  rw [yields_when] at h₁ h₂ h₃
  cases hfound with
  | store hon helides =>
    rw [if_pos hon] at h₁
    have helided := elided_of_elideBarriers (g := g) rfl h₁ helides
    exact at?_of_swaps hlater₁ helided (by decide) (by decide)
  | marked hon hpairs =>
    rw [if_pos hon] at h₂
    obtain ⟨p, hp, hop⟩ := hpairs.clears
    rcases kept_or_allocatesOnly hswaps₁ hp hop with hkept | hplace
    · obtain ⟨k, mark, hmark, hallocates, hreaches⟩ := hpairs.to_swaps hswaps₁ hkept
      have hfused := fused_of_fuseMarkers rfl h₂ hmark hallocates hreaches
      exact at?_of_swaps hlater₂ hfused (by decide) (by decide)
    · exact at?_of_swaps hlater₁ hplace (by decide) (by decide)
  | covered hon hcovers =>
    -- the pass looks at the allocations that are left, whoever has exchanged the others
    rw [if_pos hon, hswaps₂.context_eq] at h₃
    exact covered_of_coverAllocations hswaps₂ h₃ hcovers

/-- The passes exchange only what one of them finds. -/
theorem found_of_ne (h : Yields (Elision.passes .standard on) { graph := g } () s')
    (hne : s'.graph.at? q ≠ g.at? q) : ∃ p, Found g on q p := by
  have haccounts : s'.Accounts g fun _ b i => ∃ p, Found g on ⟨b, i⟩ p :=
    accounts_passes (fun hon _ _ _ helides => ⟨_, .store hon helides⟩)
      (fun hon _ _ hpairs => ⟨_, .marked hon hpairs⟩)
      (fun hon _ _ hcovers => ⟨_, .covered hon hcovers⟩) h
  obtain ⟨_, hfound⟩ := haccounts.justified_of_ne hne
  exact hfound

/-- The passes rewrite the places where one of them finds something. -/
theorem ne_iff_found (h : Yields (Elision.passes .standard on) { graph := g } () s') :
    s'.graph.at? q ≠ g.at? q ↔ ∃ p, Found g on q p := by
  constructor
  · exact found_of_ne h
  · intro hfound
    obtain ⟨p, hfound⟩ := hfound
    rw [at?_of_found h hfound]
    exact hfound.ne.symm

/-- Where the operands of an instruction cannot be laid out, nothing is done. -/
theorem optimize_of_error {m : Misuse} (h : Context.ofGraph .standard g = .error m) :
    g.optimize .standard on = (.error m, g) := by
  have hvalid : Variants.standard.validate = .ok () := rfl
  have hpasses : (Elision.passes .standard on).run { graph := g } =
      (.error m, ({ graph := g } : Progress)) := by
    unfold Elision.passes
    rw [run_bind]
    refine (run_bind (ExceptT.mk (pure (Context.ofGraph .standard g))) _ _).trans ?_
    rw [h]
    rfl
  unfold Graph.optimize
  rw [hvalid]
  simp only [hpasses]

end Runs

namespace Graph

variable {o : Options} {code : List Instr} {g : Graph}

/-- What the passes have to be given to yield a report does not depend on which are switched
on. -/
theorem exists_report_iff (hbuild : build o code = .ok g) (hmade : ∀ p ∈ code, p.Constructed)
    (hptr : isPointerSize o.platform.pointerSize = true) (htyped : ∀ p ∈ code, p.TypedStore)
    (on : Passes) : (∃ rep, (g.optimize .standard on).1 = .ok rep) ↔
      ∀ b, ∀ p ∈ (g.block b).code, Forest.canLayOut p = true := by
  have hbuilt := built_of_build hbuild
  constructor
  · intro hreport
    obtain ⟨rep, hrep⟩ := hreport
    rcases ofGraph_eq .standard g with ⟨_, hlayout⟩ | ⟨herror, _⟩
    · exact hlayout
    · rw [optimize_of_error herror] at hrep
      cases hrep
  · intro hlayout
    have hpointer : g.pointerSize ≠ 0 := by
      rw [Graph.pointerSize, hbuilt.options]
      intro hzero
      rw [hzero] at hptr
      cases hptr
    obtain ⟨rep, g', hoptimize⟩ := exists_optimize (g := g) on hpointer fun b p hp =>
      (Threading.constructed_thread hmade p (hbuilt.instr_mem hp)).fitting (hlayout b p hp)
        (Threading.typed_thread htyped p (hbuilt.instr_mem hp))
    exact ⟨rep, congrArg Prod.fst hoptimize⟩

/-- The passes do not disturb one another.  Several of them rewrite the places that one of them
rewrites when it is switched on alone, and put the same there as it does; and whether they yield a
report does not depend on which are switched on. -/
theorem optimize_independent (hbuild : build o code = .ok g) (hmade : ∀ p ∈ code, p.Constructed)
    (hptr : isPointerSize o.platform.pointerSize = true) (htyped : ∀ p ∈ code, p.TypedStore)
    (on : Passes) :
    (∀ q, ((g.optimize .standard on).2.at? q ≠ g.at? q ↔
        ∃ part, on.Part part ∧ (g.optimize .standard part).2.at? q ≠ g.at? q) ∧
      ∀ part, on.Part part → (g.optimize .standard part).2.at? q ≠ g.at? q →
        (g.optimize .standard on).2.at? q = (g.optimize .standard part).2.at? q) ∧
    ∀ on', (∃ rep, (g.optimize .standard on').1 = .ok rep) ↔
      ∀ b, ∀ p ∈ (g.block b).code, Forest.canLayOut p = true := by
  have hreport := exists_report_iff hbuild hmade hptr htyped
  refine ⟨fun q => ?_, hreport⟩
  rcases ofGraph_eq .standard g with ⟨_, hlayout⟩ | ⟨herror, _⟩
  · have hyields : ∀ on', ∃ s' : Progress, s'.graph = (g.optimize .standard on').2 ∧
        Yields (Elision.passes .standard on') { graph := g } () s' := by
      intro on'
      obtain ⟨rep, hrep⟩ := (hreport on').2 hlayout
      exact ⟨⟨_, rep⟩, rfl, optimize_eq_ok_iff.1 (Prod.ext hrep rfl)⟩
    have hne : ∀ on', (g.optimize .standard on').2.at? q ≠ g.at? q ↔ ∃ p, Found g on' q p := by
      intro on'
      obtain ⟨s', hgraph, hs'⟩ := hyields on'
      rw [← hgraph]
      exact ne_iff_found hs'
    have hat : ∀ on' p, Found g on' q p → (g.optimize .standard on').2.at? q = some p := by
      intro on' p hfound
      obtain ⟨s', hgraph, hs'⟩ := hyields on'
      rw [← hgraph]
      exact at?_of_found hs' hfound
    refine ⟨?_, fun part hpart hother => ?_⟩
    · simp only [hne]
      constructor
      · intro hfound
        obtain ⟨p, hfound⟩ := hfound
        obtain ⟨part, hpart, hfound⟩ := found_iff_part.1 hfound
        exact ⟨part, hpart, p, hfound⟩
      · intro hfound
        obtain ⟨part, hpart, p, hfound⟩ := hfound
        exact ⟨p, found_iff_part.2 ⟨part, hpart, hfound⟩⟩
    · obtain ⟨p, hfound⟩ := (hne part).1 hother
      rw [hat part p hfound, hat on p (found_iff_part.2 ⟨part, hpart, hfound⟩)]
  · simp [optimize_of_error herror]

/-- A routine whose one object is covered by a store, which needs no barrier, and reaches its
marker. -/
def sharedRoutine : List Instr :=
  [.number 8, .ofOpcode .gcMalloc, .tstore .reference 0, .number 7, .tload .reference 0,
    .number 0, .typed .rstore .reference, .tload .reference 0, .ofOpcode .fullyInitialized,
    .ret .void]

/-- Its allocation is a candidate of two passes.  Each of them alone exchanges it, and so do all
passes together; the store is exchanged by all passes since one of them does so. -/
theorem optimize_independent_shared : (∀ p ∈ sharedRoutine, p.Constructed) ∧
    isPointerSize (Defaults.options {}).platform.pointerSize = true ∧
    (∀ p ∈ sharedRoutine, p.TypedStore) ∧ ∃ g, build (Defaults.options {}) sharedRoutine = .ok g ∧
      (g.optimize .standard ⟨true, true, true⟩).2.at? ⟨0, 1⟩ ≠ g.at? ⟨0, 1⟩ ∧
      (g.optimize .standard ⟨true, true, true⟩).2.at? ⟨0, 1⟩ =
        (g.optimize .standard ⟨false, true, false⟩).2.at? ⟨0, 1⟩ ∧
      (g.optimize .standard ⟨true, true, true⟩).2.at? ⟨0, 1⟩ =
        (g.optimize .standard ⟨false, false, true⟩).2.at? ⟨0, 1⟩ ∧
      (g.optimize .standard ⟨true, true, true⟩).2.at? ⟨0, 6⟩ ≠ g.at? ⟨0, 6⟩ := by
  have hmade : ∀ p ∈ sharedRoutine, p.Constructed := by
    simp only [sharedRoutine, List.forall_mem_cons]
    exact ⟨.numbered (by decide) 8, .plain (by decide), .tstore _ _, .numbered (by decide) 7,
      .tload _ _, .numbered (by decide) 0, .typed (by decide) _, .tload _ _, .plain (by decide),
      .ret _, by simp⟩
  have htyped : ∀ p ∈ sharedRoutine, p.TypedStore := by
    intro p hp hstores k hty
    simp only [sharedRoutine, List.mem_cons, List.not_mem_nil, or_false] at hp
    rcases hp with rfl | rfl | rfl | rfl | rfl | rfl | rfl | rfl | rfl | rfl <;> cases hty
  have hops : (build (Defaults.options {}) sharedRoutine).toOption.any (fun g =>
      (g.at? ⟨0, 1⟩).map (·.op) = some .gcMalloc ∧ (g.at? ⟨0, 6⟩).map (·.op) = some .rstore ∧
      ((g.optimize .standard ⟨false, true, false⟩).2.at? ⟨0, 1⟩).map (·.op) =
        some .gcAllocateOnly ∧
      ((g.optimize .standard ⟨false, false, true⟩).2.at? ⟨0, 1⟩).map (·.op) =
        some .gcAllocateOnly ∧
      ((g.optimize .standard ⟨true, false, false⟩).2.at? ⟨0, 6⟩).map (·.op) =
        some .rstoreSimple) = true := by cbv
  obtain ⟨g, hbuild, hresult⟩ := exists_ok_of_any hops
  obtain ⟨hclears, hchecked, hmarked, hcovered, helided⟩ := of_decide_eq_true hresult
  have hne : ∀ {g' : Graph} {q : Place} {op op' : Opcode}, (g.at? q).map (·.op) = some op →
      (g'.at? q).map (·.op) = some op' → op ≠ op' → g'.at? q ≠ g.at? q := by
    intro g' q op op' hold hnew hops heq
    rw [heq, hold, Option.some_inj] at hnew
    exact hops hnew
  have hmarked := hne hclears hmarked (by decide)
  have hcovered := hne hclears hcovered (by decide)
  have helided := hne hchecked helided (by decide)
  obtain ⟨hplaces, -⟩ := optimize_independent hbuild hmade rfl htyped ⟨true, true, true⟩
  exact ⟨hmade, rfl, htyped, g, hbuild, (hplaces ⟨0, 1⟩).1.2 ⟨_, .initMarkers rfl, hmarked⟩,
    (hplaces ⟨0, 1⟩).2 _ (.initMarkers rfl) hmarked, (hplaces ⟨0, 1⟩).2 _ (.fixedInit rfl) hcovered,
    (hplaces ⟨0, 6⟩).1.2 ⟨_, .writeBarriers rfl, helided⟩⟩

end Graph

end StackFlow
