import Mathlib
import StackFlow.Proofs.Blocks
import StackFlow.Proofs.StaticChecks

/-!
# Building a graph keeps the traces

* `Graph.built_of_build` says what `Graph.build` has checked and computed when it
  yields a graph.
* `hasTrace_ofLayout` carries the traces of drafts over to the blocks made from them,
  which are named by their positions.
* `Layout.hasTrace_ofCode` puts the steps from a list to its blocks together, and
  `Graph.hasTrace_build` is the main result: a graph shows the traces of the routine with its
  jumps made anew, and those of the routine itself unless that changes one of its branches.
* `Graph.Built.reachable`, `Graph.Built.instr_mem` and their relatives say that every
  block is reached from the entry, has facts that are read off its code, and holds only
  instructions of the routine.
-/

namespace StackFlow

open Relation

/-- The blocks of a routine as a chart. -/
def Flowchart.ofLayout (layout : Layout) : Flowchart Nat where
  entry := 0
  code i := (layout.block i).code
  next i j := j ∈ layout.succ i
  exit i := (layout.block i).exit = true

/-! ## Traces -/

section OfLayout

open Flowchart

variable {ds : List Draft} {t : List Instr} {s : Status}

/-- The name of the draft at some position. -/
def Draft.NamedAt (ds : List Draft) (σ : Start) (i : Nat) : Prop :=
  ∃ d, ds[i]? = some d ∧ d.start = σ

theorem hasTrace_ofLayout (h : Draft.Coherent ds) :
    (ofLayout (Layout.ofDrafts ds.toArray)).HasTrace t s ↔ (ofDrafts ds).HasTrace t s := by
  have hentry : Draft.NamedAt ds .entry 0 := by
    have hhead := h.entry
    rw [Option.map_eq_some_iff, List.head?_eq_getElem?] at hhead
    exact hhead
  have hsucc : ∀ {i d}, ds[i]? = some d → ∀ j, j ∈ (Layout.ofDrafts ds.toArray).succ i ↔
      ∃ e, ds[j]? = some e ∧ (ofDrafts ds).next d.start e.start := by
    intro i d hd j
    simp only [Layout.mem_succ_ofDrafts, hd, Option.some_inj, exists_and_left, exists_eq_left']
    refine exists_congr fun e => and_congr_right fun he => ?_
    rw [h.next_iff (List.mem_of_getElem? hd)]
    exact ⟨fun hmem => ⟨hmem, e, List.mem_of_getElem? he, rfl⟩, And.left⟩
  refine Matches.hasTrace (R := fun i σ => Draft.NamedAt ds σ i) ⟨hentry, ?_, ?_, ?_, ?_⟩
  · rintro i _ ⟨d, hd, rfl⟩
    rw [h.code_eq (List.mem_of_getElem? hd)]
    simp [ofLayout, Layout.block_ofDrafts hd]
  · rintro i _ j ⟨d, hd, rfl⟩ hj
    obtain ⟨e, he, hway⟩ := (hsucc hd j).1 hj
    exact ⟨e.start, ⟨e, he, rfl⟩, hway⟩
  · rintro i _ τ ⟨d, hd, rfl⟩ way
    obtain ⟨_, e, he, rfl⟩ := (h.next_iff (List.mem_of_getElem? hd)).1 way
    obtain ⟨j, hj⟩ := List.mem_iff_getElem?.1 he
    exact ⟨j, ⟨e, hj, rfl⟩, (hsucc hd j).2 ⟨e, hj, way⟩⟩
  · rintro i _ ⟨d, hd, rfl⟩
    rw [h.exit_iff (List.mem_of_getElem? hd)]
    simp [ofLayout, Layout.block_ofDrafts hd]

end OfLayout

/-! ## The blocks of a routine -/

namespace Layout

open Threading

variable {code : List Instr}

/-- A list and its blocks show the same traces. -/
theorem hasTrace_ofCode (h : Labelled code) {t : List Instr} {s : Status} :
    (Flowchart.ofLayout (ofCode code)).HasTrace t s ↔ (Flowchart.ofCode code).HasTrace t s := by
  have hkeeps := Draft.keeps_ofCode h
  rw [ofCode_eq h]
  calc (Flowchart.ofLayout (ofDrafts (Draft.ofCode code).toArray)).HasTrace t s
      ↔ (Flowchart.ofDrafts (Draft.ofCode code)).HasTrace t s :=
        hasTrace_ofLayout hkeeps.coherent
    _ ↔ (Flowchart.ofDrafts (Draft.cut code)).HasTrace t s := hkeeps.traces t s
    _ ↔ (Flowchart.ofCode code).HasTrace t s := Draft.hasTrace_cut h

/-- A routine shows the traces of its blocks if its jumps are made anew first. -/
theorem hasTrace_ofCode_rebuilt (h : Labelled (thread code)) {t : List Instr} {s : Status} :
    (Flowchart.ofLayout (ofCode (thread code))).HasTrace t s ↔
      (Flowchart.ofCode (rebuilt code)).HasTrace t s :=
  (hasTrace_ofCode h).trans (hasTrace_thread_rebuilt h)

/-- It shows them as it is if threading keeps its branches. -/
theorem hasTrace_ofCode_thread (h : Labelled (thread code)) (hkeeps : KeepsBranches code)
    {t : List Instr} {s : Status} :
    (Flowchart.ofLayout (ofCode (thread code))).HasTrace t s ↔
      (Flowchart.ofCode code).HasTrace t s :=
  (hasTrace_ofCode h).trans (hasTrace_thread h hkeeps)

theorem size_pos_ofCode (h : Labelled code) : 0 < (ofCode code).size := by
  have hentry := (Draft.keeps_ofCode h).coherent.entry
  rw [ofCode_eq h, size_ofDrafts, List.size_toArray]
  refine Nat.pos_of_ne_zero fun hzero => ?_
  rw [List.length_eq_zero_iff.1 hzero] at hentry
  cases hentry

/-- Control can get to every block from the entry. -/
theorem reachable_ofCode (h : Labelled code) {b : Nat} (hb : b < (ofCode code).size) :
    ReflTransGen (fun i j => j ∈ (ofCode code).succ i) 0 b := by
  have hcoherent := (Draft.keeps_ofCode h).coherent
  rw [ofCode_eq h] at hb ⊢
  rw [size_ofDrafts, List.size_toArray] at hb
  have hd := List.getElem?_eq_getElem hb
  have hreached := Draft.reached_ofCode h _ (List.mem_of_getElem? hd)
  -- the way along names is a way along positions, since names are different
  suffices hall : ∀ σ, ReflTransGen _ Start.entry σ → ∀ b, Draft.NamedAt _ σ b →
      ReflTransGen (fun i j => j ∈ (ofDrafts (Draft.ofCode code).toArray).succ i) 0 b from
    hall _ hreached b ⟨_, hd, rfl⟩
  intro σ hway
  induction hway with
  | refl =>
    rintro b ⟨d, hd, hstart⟩
    have hentry := hcoherent.entry
    rw [List.head?_eq_getElem?, ← List.getElem?_map] at hentry
    have hb : ((Draft.ofCode code).map (·.start))[b]? = some .entry := by
      rw [List.getElem?_map, hd, Option.map_some, hstart]
    rw [(List.getElem?_inj (List.getElem?_eq_some_iff.1 hb).1 hcoherent.nodup).1
      (hb.trans hentry.symm)]
  | tail _ way ih =>
    rintro b ⟨e, he, rfl⟩
    obtain ⟨d', hd', hstart, hsucc, _⟩ := way
    obtain ⟨i, hi⟩ := List.mem_iff_getElem?.1 hd'
    exact (ih i ⟨d', hi, hstart⟩).tail (mem_succ_ofDrafts.2 ⟨d', e, hi, he, hsucc⟩)

end Layout

/-! ## Graphs that have been built -/

/-- What is known of the value that a computation is seen to end with. -/
theorem exists_ok_of_any {ε α : Type} {x : Except ε α} {P : α → Bool}
    (h : x.toOption.any P = true) : ∃ a, x = .ok a ∧ P a = true := by
  cases x with
  | error e => cases h
  | ok a => exact ⟨a, rfl, h⟩

namespace Graph

/-- What is known of the graph `g` that was built for the routine `code`. -/
structure Built (o : Options) (code : List Instr) (g : Graph) : Prop where
  checked : Scope.check o.platform.pointerSize (Threading.thread code) = .ok ()
  options : g.options = o
  layout : g.layout = Layout.ofCode (Threading.thread code)
  junctions : g.junctions = Junction.ofLayout g.layout
  matched : Junction.check g.layout g.junctions = .ok ()
  effects : Flow.effects g.layout g.junctions = .ok (g.junctionEffects, g.effect)
  refs : g.refs = g.layout.temps (·.ty = .reference)
  live : Live.compute o g.layout = .ok (g.live, g.rounds)
  /-- No temporary is live into the entry. -/
  initialized : (g.live.getD 0 .none).liveIn.min? = none
  dominance : Dominance.compute o g.layout = .ok g.dominance

theorem built_of_build {o : Options} {code : List Instr} {g : Graph}
    (h : build o code = .ok g) : Built o code g := by
  simp only [build, bind, Except.bind, pure, Except.pure, throw, throwThe,
    MonadExceptOf.throw] at h
  split at h
  · cases h
  · rename_i hcheck
    have hchecked : Scope.check o.platform.pointerSize (Threading.thread code) = .ok () := by
      cases hscope : Scope.check o.platform.pointerSize (Threading.thread code) with
      | ok => rfl
      | error e =>
        rw [hscope] at hcheck
        cases hcheck
    split at h
    · cases h
    · rename_i hmatched
      split at h
      · cases h
      · rename_i heffects
        split at h
        · cases h
        · rename_i hlive
          split at h
          · cases h
          · rename_i hmin
            split at h
            · cases h
            · rename_i hdom
              cases h
              exact ⟨hchecked, rfl, rfl, rfl, hmatched, heffects, rfl, hlive, hmin, hdom⟩

variable {o : Options} {code : List Instr} {g : Graph}

theorem Built.labelled (h : Built o code g) : Labelled (Threading.thread code) :=
  Scope.labelled_of_check h.checked

/-- The graph that is built for a routine shows the traces of the routine with its jumps made
anew, and a run is at the same point of its life after each of them.  If threading keeps the
branches, that is, if each one that it redirects is made of its label and its sense, the graph
and the routine as it was given show the same traces. -/
theorem hasTrace_build (h : build o code = .ok g) (t : List Instr) (s : Status) :
    ((Flowchart.ofLayout g.layout).HasTrace t s ↔
      (Flowchart.ofCode (Threading.rebuilt code)).HasTrace t s) ∧
    (Threading.KeepsBranches code → ((Flowchart.ofLayout g.layout).HasTrace t s ↔
      (Flowchart.ofCode code).HasTrace t s)) := by
  have hbuilt := built_of_build h
  rw [hbuilt.layout]
  exact ⟨Layout.hasTrace_ofCode_rebuilt hbuilt.labelled,
    fun hkeeps => Layout.hasTrace_ofCode_thread hbuilt.labelled hkeeps⟩

/-- Of a branch that reads three bytes and is redirected, the graph shows one that reads none.
A loop with a hop to a hop, and code that is never reached, is shown as it is. -/
theorem hasTrace_build_branches :
    (∃ g, build (Defaults.options {}) Threading.readingBranch = .ok g ∧
      ∃ t, (Flowchart.ofCode Threading.readingBranch).HasTrace t .running ∧
        ¬ (Flowchart.ofLayout g.layout).HasTrace t .running) ∧
    ∃ g, build (Defaults.options {}) [.target 0, .number 1, .branch 2 true, .hop 1, .number 7,
        .target 1, .hop 0, .target 2, .ret .void] = .ok g ∧
      ∀ t s, (Flowchart.ofLayout g.layout).HasTrace t s ↔
        (Flowchart.ofCode [.target 0, .number 1, .branch 2 true, .hop 1, .number 7,
          .target 1, .hop 0, .target 2, .ret .void]).HasTrace t s := by
  constructor
  · obtain ⟨g, hg, -⟩ := exists_ok_of_any
      (x := build (Defaults.options {}) Threading.readingBranch) (P := fun _ => true) (by cbv)
    refine ⟨g, hg, [.number 1, { op := .branch, sense := true, inputs := 1, operands := 3 }],
      ?_, fun htrace => ?_⟩
    · exact .execute (.follow ⟨_, rfl, .inl ⟨rfl, rfl⟩⟩ (.execute (.pause _ _)))
    · have hshown := mem_shownAll_of_hasTrace ((hasTrace_build hg _ _).1.1 htrace)
        (.tail _ (List.mem_singleton_self _))
      have hnone : ∀ q ∈ shownAll (Threading.rebuilt Threading.readingBranch), q.operands ≠ 3 := by
        decide
      exact hnone _ hshown rfl
  · obtain ⟨g, hg, -⟩ := exists_ok_of_any
      (x := build (Defaults.options {}) [.target 0, .number 1, .branch 2 true, .hop 1, .number 7,
        .target 1, .hop 0, .target 2, .ret .void]) (P := fun _ => true) (by cbv)
    refine ⟨g, hg, fun t s => (hasTrace_build hg t s).2 fun p hp hop _ => ?_⟩
    simp only [List.mem_cons, List.not_mem_nil, or_false] at hp
    rcases hp with rfl | rfl | rfl | rfl | rfl | rfl | rfl | rfl | rfl <;> first | rfl | cases hop

/-! ## The blocks of a graph that has been built -/

namespace Built

/-- Every block is made from a draft. -/
theorem exists_draft (h : Built o code g) {b : Nat} (hb : b < g.size) :
    ∃ d, (Draft.ofCode (Threading.thread code))[b]? = some d ∧ g.block b =
      { code := d.code
        pred := Draft.predecessors (Draft.ofCode (Threading.thread code)).toArray b
        succ := Draft.successors (Draft.ofCode (Threading.thread code)).toArray b
        exit := d.exit
        tail := d.tail
        facts := Block.factsOf d.code } := by
  rw [size, h.layout, Layout.ofCode_eq h.labelled, Layout.size_ofDrafts, List.size_toArray] at hb
  refine ⟨_, List.getElem?_eq_getElem hb, ?_⟩
  rw [block, h.layout, Layout.ofCode_eq h.labelled,
    Layout.block_ofDrafts (List.getElem?_eq_getElem hb)]

theorem block_of_size_le {b : Nat} (hb : g.size ≤ b) : g.block b = default :=
  Layout.block_of_size_le hb

theorem size_pos (h : Built o code g) : 0 < g.size := by
  rw [size, h.layout]
  exact Layout.size_pos_ofCode h.labelled

/-- Only a block has successors. -/
theorem lt_of_mem_succ {b s : Nat} (hs : s ∈ (g.block b).succ) : b < g.size := by
  refine Nat.lt_of_not_le fun hle => ?_
  rw [block_of_size_le hle] at hs
  simp [default, instInhabitedBlock.default] at hs

theorem lt_of_mem_code {b : Nat} {p : Instr} (hp : p ∈ (g.block b).code) : b < g.size :=
  Layout.lt_of_mem_code hp

/-- A block's facts are read off its code. -/
theorem facts_eq (h : Built o code g) {b : Nat} (hb : b < g.size) :
    (g.block b).facts = Block.factsOf (g.block b).code := by
  rw [size, h.layout] at hb
  rw [block, h.layout]
  exact Layout.facts_ofCode hb

/-- The blocks hold only instructions of the threaded routine. -/
theorem instr_mem (h : Built o code g) {b : Nat} {p : Instr} (hp : p ∈ (g.block b).code) :
    p ∈ Threading.thread code := by
  obtain ⟨d, hd, hblock⟩ := h.exists_draft (lt_of_mem_code hp)
  rw [hblock] at hp
  obtain ⟨e, he, hpe⟩ := (Draft.keeps_ofCode h.labelled).instrs d (List.mem_of_getElem? hd) p hp
  exact (Draft.placed_of_mem_cut he).mem p hpe

/-- A block's successors are blocks. -/
theorem succ_lt (h : Built o code g) {b b' : Nat} (hb : b' ∈ (g.block b).succ) :
    b' < g.size := by
  rw [block, h.layout] at hb
  rw [size, h.layout]
  exact Layout.succ_lt_ofCode hb

/-- Control can get to every block from the entry. -/
theorem reachable (h : Built o code g) {b : Nat} (hb : b < g.size) :
    ReflTransGen (fun i j => j ∈ (g.block i).succ) 0 b := by
  rw [size, h.layout] at hb
  simp only [block, h.layout]
  exact Layout.reachable_ofCode h.labelled hb

end Built

end Graph

end StackFlow
