import StackFlow.Proofs.Initialization
import StackFlow.Proofs.Markers

/-!
# What the optimizer promises

* `Justified g reason b i` is what the passes have found out of an instruction that they
  exchange for the given reason; `accounts_optimize` says that the optimizer exchanges no
  other.
* `Graph.fresh_store_guarded_iff` is about stores whose barrier is removed since the object
  is fresh, `Graph.covered_allocation_iff` about allocations that are covered by stores,
  and `Graph.fused_allocation_marked` about allocations that reach their marker.
-/

namespace StackFlow

/-- What the passes have found out of an instruction that they exchange. -/
def Justified (g : Graph) : Reason → Nat → Nat → Prop
  | .freshBarrier, b, i => Elides g .freshBarrier b i
  | .nullBarrier, b, i => Elides g .nullBarrier b i
  | .initMarker, b, i => Fuses g b i
  | .initCovered, b, i => Covers g b i
  | .unnamed _, _, _ => False

section Accounts

variable {g g' : Graph} {on : Passes} {rep : Report} {b i : Nat}

theorem Elides.justified {reason : Reason} (h : Elides g reason b i) : Justified g reason b i := by
  obtain ⟨_, _, _, _, _, _, hwhy⟩ := id h
  rcases hwhy with ⟨rfl, _⟩ | ⟨rfl, _⟩
  · exact h
  · exact h

/-- The passes that are switched on run one after the other. -/
theorem yields_passes {s s' : Progress} (h : Elision.Yields (Elision.passes .standard on) s () s') :
    Context.ofGraph .standard s.graph = .ok s.graph.context ∧ ∃ s₁ s₂,
      Elision.Yields (Elision.when on.writeBarriers s.graph.context.elideBarriers) s () s₁ ∧
      Elision.Yields (Elision.when on.initMarkers s.graph.context.fuseMarkers) s₁ () s₂ ∧
      Elision.Yields (Elision.when on.fixedInit s.graph.context.coverAllocations) s₂ () s' := by
  unfold Elision.passes at h
  rw [Elision.yields_get_bind, Elision.yields_bind] at h
  obtain ⟨c, s₀, hcontext, h⟩ := h
  obtain ⟨hc, rfl⟩ : Context.ofGraph .standard s.graph = .ok c ∧ s₀ = s := by
    cases hgraph : Context.ofGraph .standard s.graph with
    | error m =>
      rw [hgraph] at hcontext
      cases hcontext
    | ok c' =>
      rw [hgraph] at hcontext
      cases hcontext
      exact ⟨rfl, rfl⟩
  rw [Context.eq_of_ofGraph hc, Elision.yields_bind] at h
  obtain ⟨_, s₁, hbarriers, h⟩ := h
  rw [Elision.yields_bind] at h
  obtain ⟨_, s₂, hmarkers, hcovers⟩ := h
  exact ⟨Context.eq_of_ofGraph hc ▸ hc, s₁, s₂, hbarriers, hmarkers, hcovers⟩

/-- The passes that are switched on account for what they exchange. -/
theorem accounts_passes {J : Reason → Nat → Nat → Prop} {s' : Progress}
    (hbarriers : on.writeBarriers = true → ∀ reason b i, Elides g reason b i → J reason b i)
    (hmarkers : on.initMarkers = true → ∀ b i, Pairs g b i → J .initMarker b i)
    (hcovers : on.fixedInit = true → ∀ b i, Covers g b i → J .initCovered b i)
    (h : Elision.Yields (Elision.passes .standard on) { graph := g } () s') :
    s'.Accounts g J := by
  obtain ⟨_, s₁, s₂, h₁, h₂, h₃⟩ := yields_passes h
  rw [Elision.yields_when] at h₁ h₂ h₃
  have haccounts₁ : s₁.Accounts g J := by
    split at h₁
    · rename_i hon
      exact accounts_elideBarriers (hbarriers hon) (.start g _) rfl h₁
    · rw [h₁]
      exact .start g _
  have haccounts₂ : s₂.Accounts g J := by
    split at h₂
    · rename_i hon
      exact accounts_fuseMarkers (hmarkers hon) haccounts₁ h₂
    · rwa [h₂]
  split at h₃
  · rename_i hon
    exact accounts_coverAllocations (hcovers hon) haccounts₂ h₃
  · rwa [h₃]

theorem optimize_eq_ok_iff : g.optimize .standard on = (.ok rep, g') ↔
    Elision.Yields (Elision.passes .standard on) { graph := g } () ⟨g', rep⟩ := by
  have hvalid : Variants.standard.validate = .ok () := rfl
  unfold Graph.optimize Elision.Yields
  rw [hvalid]
  simp only
  constructor
  · intro h
    split at h
    · rename_i s hrun
      cases h
      exact hrun
    · cases h
  · intro h
    rw [h]

theorem accounts_optimize (h : g.optimize .standard on = (.ok rep, g')) :
    Progress.Accounts g (Justified g) ⟨g', rep⟩ :=
  accounts_passes (fun _ _ _ _ => Elides.justified) (fun _ _ _ hpairs => hpairs.fuses)
    (fun _ _ _ hcovers => hcovers) (optimize_eq_ok_iff.1 h)

theorem justified_of_has (h : g.optimize .standard on = (.ok rep, g')) {reason : Reason}
    (hhas : rep.has reason ⟨b, i⟩ = true) : Justified g reason b i :=
  (accounts_optimize h).justified_of_has hhas

/-- An instruction that is exchanged for another reason is an allocation. -/
theorem Justified.allocates {reason : Reason} (h : Justified g reason b i) :
    Elides g reason b i ∨ ∃ p, g.at? ⟨b, i⟩ = some p ∧ p.op = .gcMalloc := by
  cases reason with
  | freshBarrier => exact .inl h
  | nullBarrier => exact .inl h
  | initMarker =>
    obtain ⟨_, _, _, ⟨_, _, _, p, hp, _, _, _, hop⟩, _⟩ := h
    exact .inr ⟨p, hp, hop⟩
  | initCovered =>
    obtain ⟨s, _⟩ := Covers.followed h
    exact .inr s.allocates
  | unnamed => cases h

theorem keepsBarriers_optimize (h : g.optimize .standard on = (.ok rep, g')) :
    KeepsBarriers g g' := by
  intro b i p hp hop hnone
  by_contra hne
  obtain ⟨reason, hjustified⟩ := (accounts_optimize h).justified_of_ne (b := b) (i := i)
    fun heq => hne (heq.trans hp)
  rcases hjustified.allocates with helides | ⟨p', hp', hop'⟩
  · exact hnone reason helides
  · rw [hp, Option.some_inj] at hp'
    rw [hp', hop'] at hop
    cases hop

end Accounts

namespace Graph

variable {o : Options} {code : List Instr} {g g' : Graph} {on : Passes} {rep : Report}
  {b i : Nat} {h : List Event} {c n : Nat} {m : Machine}

/-! ## Routines that are optimized -/

/-- A routine that builds, and for which the optimizer reports an exchange. -/
theorem exists_optimized (o : Options) (code : List Instr) (on : Passes) (reason : Reason)
    (spot : Spot) (h : (match build o code with
      | .ok g => match g.optimize .standard on with
        | (.ok rep, _) => rep.has reason spot
        | _ => false
      | _ => false) = true) :
    ∃ g rep g', build o code = .ok g ∧ g.optimize .standard on = (.ok rep, g') ∧
      rep.has reason spot = true := by
  split at h
  · rename_i g hbuild
    split at h
    · rename_i rep g' hoptimize
      exact ⟨g, rep, g', hbuild, hoptimize, h⟩
    · cases h
  · cases h

/-- The first block of a graph that is built. -/
theorem block_of_build (code' : List Instr) (ways : List Nat) (hbuild : build o code = .ok g)
    (h : (build o code).toOption.map (fun g => ((g.block 0).code, (g.block 0).succ)) =
      some (code', ways)) : (g.block 0).code = code' ∧ (g.block 0).succ = ways := by
  rw [hbuild] at h
  cases h
  exact ⟨rfl, rfl⟩

/-- A run that has nothing on its stack. -/
theorem run_start (g : Graph) : Run g [] 0 0 ⟨[], fun _ => .other 0⟩ :=
  .start (by simp) (by simp)

/-! ## The three promises -/

/-- Wherever a run gets to a store whose barrier has been removed since its object is
fresh, the object has been allocated, or stored into with a barrier that is left, and
nothing has been collected since, unless something was collected between its allocation
and its store into a temporary.  A reference that comes out of a load or a call has no
allocation in the run, so it has passed a barrier that is left. -/
theorem fresh_store_guarded_iff (hbuild : build o code = .ok g)
    (hmade : ∀ p ∈ code, p.Constructed) (hoptimize : g.optimize .standard on = (.ok rep, g'))
    (hhas : rep.has .freshBarrier ⟨b, i⟩ = true) (hrun : Run g h c n m) {l : Nat} {e : Event}
    (he : h[l]? = some e) (hplace : e.place = ⟨b, i⟩) {v : Value}
    (hv : e.operands[1]? = some v) : Guarded g' h l v ↔ ¬ Delayed g' h l v :=
  Elides.guarded_iff (built_of_build hbuild) hmade (accounts_optimize hoptimize).resembles
    (keepsBarriers_optimize hoptimize) (justified_of_has hoptimize hhas) hrun he hplace hv

/-- A routine with two new objects on the stack at once. -/
def delayedRoutine : List Instr :=
  [.number 8, .ofOpcode .gcMalloc, .number 8, .ofOpcode .gcMalloc, .tstore .reference 1,
    .tstore .reference 0, .number 5, .tload .reference 0, .number 0, .typed .rstore .reference,
    .ret .void]

/-- Its first object is stored into without a barrier after a collection. -/
theorem fresh_store_unguarded : ∃ g rep g' h m e,
    build (Defaults.options {}) delayedRoutine = .ok g ∧
    g.optimize .standard ⟨true, true, false⟩ = (.ok rep, g') ∧
    rep.has .freshBarrier ⟨0, 9⟩ = true ∧ Run g h 0 10 m ∧
    h[9]? = some e ∧ e.place = ⟨0, 9⟩ ∧ e.operands[1]? = some (.object 1) ∧
    ¬ Guarded g' h 9 (.object 1) := by
  obtain ⟨g, rep, g', hbuild, hoptimize, hhas⟩ :=
    exists_optimized (Defaults.options {}) delayedRoutine ⟨true, true, false⟩ .freshBarrier ⟨0, 9⟩
      (by cbv)
  obtain ⟨hcode, _⟩ := block_of_build delayedRoutine [] hbuild (by cbv)
  have hmade : ∀ p ∈ delayedRoutine, p.Constructed := by
    simp only [delayedRoutine, List.forall_mem_cons]
    exact ⟨.numbered (by decide) 8, .plain (by decide), .numbered (by decide) 8,
      .plain (by decide), .tstore _ _, .tstore _ _, .numbered (by decide) 5, .tload _ _,
      .numbered (by decide) 0, .typed (by decide) _, .ret _, by simp⟩
  have hat : ∀ {i : Nat} {p : Instr}, delayedRoutine[i]? = some p →
      (g.block 0).code[i]? = some p := fun h => hcode ▸ h
  have run₁ := (run_start g).exec (hat rfl)
    (@Exec.plain _ _ _ [] [] [.number 8] rfl rfl rfl rfl rfl rfl)
  have run₂ := run₁.exec (hat rfl)
    (@Exec.plain _ _ _ [.number 8] [] [.object 1] rfl rfl rfl rfl rfl rfl)
  have run₃ := run₂.exec (hat rfl)
    (@Exec.plain _ _ _ [] [.object 1] [.number 8] rfl rfl rfl rfl rfl rfl)
  have run₄ := run₃.exec (hat rfl)
    (@Exec.plain _ _ _ [.number 8] [.object 1] [.object 3] rfl rfl rfl rfl rfl rfl)
  have run₅ := run₄.exec (hat rfl) (.store rfl rfl)
  have run₆ := run₅.exec (hat rfl) (.store rfl rfl)
  have run₇ := run₆.exec (hat rfl) (@Exec.plain _ _ _ [] [] [.number 5] rfl rfl rfl rfl rfl rfl)
  have run₈ := run₇.exec (hat rfl) (.load rfl)
  have run₉ := run₈.exec (hat rfl)
    (@Exec.plain _ _ _ [] [.object 1, .number 5] [.number 0] rfl rfl rfl rfl rfl rfl)
  have run₁₀ := run₉.exec (hat rfl)
    (@Exec.plain _ _ _ [.number 0, .object 1, .number 5] [] [] rfl rfl rfl rfl rfl ⟨rfl, by simp⟩)
  refine ⟨g, rep, g', _, _, _, hbuild, hoptimize, hhas, run₁₀, rfl, rfl, rfl, fun hguarded => ?_⟩
  refine (fresh_store_guarded_iff hbuild hmade hoptimize hhas run₁₀ (l := 9) rfl rfl rfl).1
    hguarded ⟨1, 3, 5, _, _, rfl, by decide, by decide, by decide, rfl, rfl, rfl, rfl, rfl, ?_⟩
  intro l e hl hl' he hchecks
  have hoperand := hchecks.2
  interval_cases l <;> cases he <;> cases hoperand

/-- Wherever a run gets to in the block of an allocation that is exchanged since stores
cover it, all words of the object have been written in time, unless there is a gap. -/
theorem covered_allocation_iff (hbuild : build o code = .ok g)
    (hmade : ∀ p ∈ code, p.Constructed) (hptr : isPointerSize o.platform.pointerSize = true)
    (hoptimize : g.optimize .standard on = (.ok rep, g'))
    (hhas : rep.has .initCovered ⟨b, i⟩ = true) :
    ∃ s : Site g b i, ∀ {h n m}, Run g h b n m → (s.Covered h n ↔ ¬ s.Gap h n) := by
  have hbuilt := built_of_build hbuild
  obtain ⟨s, limit, hfollowed⟩ := Covers.followed (justified_of_has hoptimize hhas)
  rw [← hbuilt.options] at hptr
  exact ⟨s, fun hrun => s.covered_iff hbuilt hmade hptr hfollowed hrun⟩

/-- A routine that reads a field of its object before it writes it. -/
def peekingRoutine : List Instr :=
  [.number 8, .ofOpcode .gcMalloc, .tstore .reference 0, .tload .reference 0, .number 0,
    .typed .rload .reference, .number 7, .tload .reference 0, .number 0,
    .typed .rstore .reference, .tstore .reference 2, .ret .void]

/-- Its object is not written in time. -/
theorem covered_allocation_gap : ∃ g rep g' h m,
    build (Defaults.options {}) peekingRoutine = .ok g ∧
    g.optimize .standard ⟨true, true, true⟩ = (.ok rep, g') ∧
    rep.has .initCovered ⟨0, 1⟩ = true ∧ Run g h 0 6 m ∧
      ∃ s : Site g 0 1, s.Gap h 6 ∧ ¬ s.Covered h 6 := by
  obtain ⟨g, rep, g', hbuild, hoptimize, hhas⟩ :=
    exists_optimized (Defaults.options {}) peekingRoutine ⟨true, true, true⟩ .initCovered ⟨0, 1⟩
      (by cbv)
  obtain ⟨hcode, _⟩ := block_of_build peekingRoutine [] hbuild (by cbv)
  have hmade : ∀ p ∈ peekingRoutine, p.Constructed := by
    simp only [peekingRoutine, List.forall_mem_cons]
    exact ⟨.numbered (by decide) 8, .plain (by decide), .tstore _ _, .tload _ _,
      .numbered (by decide) 0, .typed (by decide) _, .numbered (by decide) 7, .tload _ _,
      .numbered (by decide) 0, .typed (by decide) _, .tstore _ _, .ret _, by simp⟩
  have hat : ∀ {i : Nat} {p : Instr}, peekingRoutine[i]? = some p →
      (g.block 0).code[i]? = some p := fun h => hcode ▸ h
  have run₁ := (run_start g).exec (hat rfl)
    (@Exec.plain _ _ _ [] [] [.number 8] rfl rfl rfl rfl rfl rfl)
  have run₂ := run₁.exec (hat rfl)
    (@Exec.plain _ _ _ [.number 8] [] [.object 1] rfl rfl rfl rfl rfl rfl)
  have run₃ := run₂.exec (hat rfl) (.store rfl rfl)
  have run₄ := run₃.exec (hat rfl) (.load rfl)
  have run₅ := run₄.exec (hat rfl)
    (@Exec.plain _ _ _ [] [.object 1] [.number 0] rfl rfl rfl rfl rfl rfl)
  have run₆ := run₅.exec (hat rfl)
    (@Exec.plain _ _ _ [.number 0, .object 1] [] [.other 0] rfl rfl rfl rfl rfl
      ⟨rfl, by simp [Known]⟩)
  obtain ⟨s, hiff⟩ := covered_allocation_iff hbuild hmade rfl hoptimize hhas
  suffices hnot : ¬ s.Covered _ 6 by
    exact ⟨g, rep, g', _, _, hbuild, hoptimize, hhas, run₆, s,
      by_contra fun hgap => hnot ((hiff run₆).2 hgap), hnot⟩
  intro hcovered
  -- the object is used at index 5, but nothing has been written before
  have hsize : s.size = 8 := by
    obtain ⟨l, p, ⟨pa, t, hpa, _, _, hq, ht, rfl⟩, hp, _, hvalue⟩ := s.constant
    rw [hcode] at hpa hp ht
    cases hpa
    cases ht
    cases hp
    exact hvalue.symm
  have hptr : g.pointerSize = 8 := by
    rw [Graph.pointerSize, (built_of_build hbuild).options]
    rfl
  obtain ⟨i, e, hi, hi', he, hwrites⟩ := hcovered 5
    ⟨by decide, .inr ⟨by decide, _, rfl, .inr ⟨0, rfl, by decide, fun hcopy => by cases hcopy.1⟩⟩⟩ 0
    (by rw [hsize, hptr]; decide)
  have hfield := hwrites.1
  interval_cases i <;> cases he <;> cases hfield

/-- After an allocation that is exchanged since it reaches its marker, a run marks the new
object before anything is collected and before it comes to an end. -/
theorem fused_allocation_marked (hbuild : build o code = .ok g)
    (hmade : ∀ p ∈ code, p.Constructed) (hoptimize : g.optimize .standard on = (.ok rep, g'))
    (hhas : rep.has .initMarker ⟨b, i⟩ = true) (hrun : Run g h c n m) {k : Nat} {e : Event}
    (he : h[k]? = some e) (hplace : e.place = ⟨b, i⟩) :
    e.results = [.object k] ∧
      (∀ j e', k < j → h[j]? = some e' → e'.instr.collects = true → Marked (h.take j) k) ∧
      (n = (g.block c).code.length → (g.block c).succ = [] → Marked h k) := by
  have hbuilt := built_of_build hbuild
  obtain ⟨f⟩ := Fuses.fusion (justified_of_has hoptimize hhas)
  refine ⟨hrun.allocated he ?_, fun j e' hj he' => ?_, ?_⟩
  · obtain ⟨p, hp, hop⟩ := f.allocates
    have hat := hrun.at_place he
    rw [hplace, Graph.at?, hp, Option.some_inj] at hat
    simp [Instr.allocates, ← hat, hop]
  · exact f.marked_before_collection hbuilt hmade hrun he hplace hj he'
  · exact f.marked_at_end hbuilt hmade hrun he hplace

/-- A routine that marks its object right away. -/
def markedRoutine : List Instr :=
  [.number 8, .ofOpcode .gcMalloc, .tstore .reference 0, .tload .reference 0,
    .ofOpcode .fullyInitialized, .ret .void]

/-- Its object is marked when the run comes to an end. -/
theorem fused_allocation_marked_once : ∃ g rep g' h m,
    build (Defaults.options {}) markedRoutine = .ok g ∧
    g.optimize .standard ⟨true, true, true⟩ = (.ok rep, g') ∧
    rep.has .initMarker ⟨0, 1⟩ = true ∧ Run g h 0 6 m ∧ Marked h 1 := by
  obtain ⟨g, rep, g', hbuild, hoptimize, hhas⟩ :=
    exists_optimized (Defaults.options {}) markedRoutine ⟨true, true, true⟩ .initMarker ⟨0, 1⟩
      (by cbv)
  obtain ⟨hcode, hsucc⟩ := block_of_build markedRoutine [] hbuild (by cbv)
  have hmade : ∀ p ∈ markedRoutine, p.Constructed := by
    simp only [markedRoutine, List.forall_mem_cons]
    exact ⟨.numbered (by decide) 8, .plain (by decide), .tstore _ _, .tload _ _,
      .plain (by decide), .ret _, by simp⟩
  have hat : ∀ {i : Nat} {p : Instr}, markedRoutine[i]? = some p →
      (g.block 0).code[i]? = some p := fun h => hcode ▸ h
  have run₁ := (run_start g).exec (hat rfl)
    (@Exec.plain _ _ _ [] [] [.number 8] rfl rfl rfl rfl rfl rfl)
  have run₂ := run₁.exec (hat rfl)
    (@Exec.plain _ _ _ [.number 8] [] [.object 1] rfl rfl rfl rfl rfl rfl)
  have run₃ := run₂.exec (hat rfl) (.store rfl rfl)
  have run₄ := run₃.exec (hat rfl) (.load rfl)
  have run₅ := run₄.exec (hat rfl)
    (@Exec.plain _ _ _ [.object 1] [] [] rfl rfl rfl rfl rfl ⟨rfl, by simp⟩)
  have run₆ := run₅.exec (hat rfl) (@Exec.plain _ _ _ [] [] [] rfl rfl rfl rfl rfl ⟨rfl, by simp⟩)
  refine ⟨g, rep, g', _, _, hbuild, hoptimize, hhas, run₆, ?_⟩
  exact (fused_allocation_marked hbuild hmade hoptimize hhas run₆ rfl rfl).2.2
    (by rw [hcode]; rfl) hsucc

end Graph

end StackFlow
