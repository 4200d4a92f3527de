import StackFlow.Proofs.Convergence
import StackFlow.Proofs.Junctions

/-!
# Building a graph always ends with an answer

The steps of `Graph.build` check a few things of their own, which a caller could do
nothing about.

* `Graph.Robust` lists what the steps take for granted of the blocks of a routine, and
  `Graph.robust_ofCode` says that it holds of every routine that passes the static checks.
* `Graph.build_of_effects_error` and its relatives say what comes out of `Graph.build` when
  it ends at each of the steps.
* `Graph.build_total` puts the two together: every list of instructions yields a graph or
  an error of the routine.
-/

namespace StackFlow

theorem Junction.childOf?_lt {js : Array Junction} {b k : Nat} (h : childOf? js b = some k) :
    k < js.size :=
  (Array.findIdx?_eq_some_iff_getElem.1 h).1

theorem Junction.parentOf?_lt {js : Array Junction} {b k : Nat} (h : parentOf? js b = some k) :
    k < js.size :=
  (Array.findIdx?_eq_some_iff_getElem.1 h).1

/-- The effects at the junctions are known, or two ways do not agree. -/
theorem Flow.effects_ok_or_flow (layout : Layout) {js : Array Junction}
    (hentry : js.isEmpty = false → ∃ k < js.size, Junction.childOf? js 0 = some k) :
    (∃ r, effects layout js = .ok r) ∨ ∃ e, effects layout js = .error (.flow e) := by
  unfold effects
  cases hjs : js.isEmpty with
  | true => exact .inl ⟨_, rfl⟩
  | false =>
    obtain ⟨k, _, hk⟩ := hentry hjs
    rw [hk]
    simp only [Bool.false_eq_true, if_false]
    cases layout.indices.foldlM (reconcile layout js) (reach layout js k) with
    | error e => exact .inr ⟨e, rfl⟩
    | ok es =>
      cases hlast : Junction.parentOf? js (layout.size - 1) with
      | none => exact .inl ⟨_, rfl⟩
      | some p => exact .inl ⟨_, rfl⟩

namespace Graph

/-- What the steps of building a graph take for granted of the blocks.  With `js` the
junctions of the blocks, no index is beyond its range and no check of a step itself can
fail. -/
structure Robust (layout : Layout) (js : Array Junction) : Prop where
  /-- There is an entry. -/
  size_pos : 0 < layout.size
  succ_lt : ∀ b, ∀ s ∈ layout.succ b, s < layout.size
  pred_lt : ∀ b, ∀ p ∈ layout.pred b, p < layout.size
  parents_lt : ∀ j ∈ js.toList, ∀ b ∈ j.parents, b < layout.size
  children_lt : ∀ j ∈ js.toList, ∀ b ∈ j.children, b < layout.size
  childOf?_lt : ∀ b k, Junction.childOf? js b = some k → k < js.size
  parentOf?_lt : ∀ b k, Junction.parentOf? js b = some k → k < js.size
  /-- No edge has its ends in two junctions. -/
  edge_joined : ∀ b, ∀ s ∈ layout.succ b, ∃ k,
    Junction.childOf? js b = some k ∧ Junction.parentOf? js s = some k
  /-- Control leaves the entry through a junction if there is any. -/
  entry_leaves : js.isEmpty = false → ∃ k, Junction.childOf? js 0 = some k
  /-- The live sets need no more rounds than a graph of this size is allowed. -/
  live_settles : ∀ o : Options, o.maxRounds = 0 → ∃ live rounds,
    Live.compute o layout = .ok (live, rounds) ∧
      rounds ≤ layout.size * layout.size + 1 ∧ live.size = layout.size
  /-- Nor do the dominators, and their sets have room for all blocks and no others. -/
  dominators_settle : ∀ o : Options, o.maxRounds = 0 → ∃ sets rounds,
    Rounds.fixpoint "dominators" o layout.size (Dominance.round layout)
        (Dominance.start layout.size) = .ok (sets, rounds) ∧
      rounds ≤ layout.size * layout.size + 1 ∧ sets.size = layout.size ∧
      ∀ b < layout.size, ∀ d, (d < layout.size → (sets.getD b default).spans d = true) ∧
        ((sets.getD b default).contains d = true → d < layout.size)

theorem robust_ofCode {code : List Instr} (h : Labelled code) :
    Robust (Layout.ofCode code) (Junction.ofLayout (Layout.ofCode code)) := by
  have hwf := Layout.wellFormed_ofCode h
  constructor
  case size_pos => exact Layout.size_pos_ofCode h
  case succ_lt => exact hwf.succ_lt
  case pred_lt => exact hwf.pred_lt
  case parents_lt => exact fun j hj => (Junction.lt_of_mem_junction hwf hj).1
  case children_lt => exact fun j hj => (Junction.lt_of_mem_junction hwf hj).2
  case childOf?_lt => exact fun b k => Junction.childOf?_lt
  case parentOf?_lt => exact fun b k => Junction.parentOf?_lt
  case edge_joined =>
    intro b s hs
    obtain ⟨k, _, hk⟩ :=
      Junction.exists_junction (Layout.mem_edges.2 ⟨hwf.lt_of_mem_succ hs, hs⟩)
    exact ⟨k, hk⟩
  case entry_leaves =>
    intro hjs
    obtain ⟨k, _, hk⟩ := Junction.exists_childOf?_entry hwf hjs
    exact ⟨k, hk⟩
  case live_settles =>
    intro o ho
    rcases Live.compute_spec hwf (fun _ => Layout.facts_ofCode) o with
      ⟨live, rounds, hlive, hrounds, hexact⟩ | ⟨hlimit, _⟩
    · exact ⟨live, rounds, hlive, hrounds, hexact.size_eq⟩
    · exact absurd ho hlimit
  case dominators_settle =>
    intro o ho
    rcases Dominance.fixpoint_spec hwf o with
      ⟨sets, rounds, hsets, hrounds, hexact⟩ | ⟨hlimit, _⟩
    · exact ⟨sets, rounds, hsets, hrounds, hexact.size_eq, fun b hb d =>
        ⟨(hexact.sized b hb).spans, fun hd => ((hexact.mem_sets b hb d).1 hd).1⟩⟩
    · exact absurd ho hlimit

/-! ## Step by step -/

section Steps

variable {o : Options} {code : List Instr} {r : Array Effect × Effect}
  {live : Array Live} {rounds : Nat}

theorem build_of_check_error {e : FlowError}
    (h : Scope.check o.platform.pointerSize (Threading.thread code) = .error e) :
    build o code = .error (.flow e) := by
  simp [build, h, liftFlow, bind, Except.bind]

variable (hcheck : Scope.check o.platform.pointerSize (Threading.thread code) = .ok ())

include hcheck

theorem build_of_effects_error {e : Failure}
    (h : Flow.effects (Layout.ofCode (Threading.thread code))
      (Junction.ofLayout (Layout.ofCode (Threading.thread code))) = .error e) :
    build o code = .error e := by
  simp [build, hcheck, h, Junction.check_ofLayout, liftFlow, bind, Except.bind]

variable (heffects : Flow.effects (Layout.ofCode (Threading.thread code))
  (Junction.ofLayout (Layout.ofCode (Threading.thread code))) = .ok r)

include heffects

theorem build_of_live_error {e : Failure}
    (h : Live.compute o (Layout.ofCode (Threading.thread code)) = .error e) :
    build o code = .error e := by
  simp [build, hcheck, heffects, h, Junction.check_ofLayout, liftFlow, bind, Except.bind]

variable (hlive : Live.compute o (Layout.ofCode (Threading.thread code)) = .ok (live, rounds))

include hlive

theorem build_of_uninitialized {t : Int64} (h : (live.getD 0 .none).liveIn.min? = some t) :
    build o code = .error (.flow (Scope.uninitialized (Threading.thread code) t)) := by
  simp only [build, hcheck, heffects, hlive, Junction.check_ofLayout, liftFlow, bind,
    Except.bind, h]
  rfl

theorem build_of_dominance_error {e : Failure} (h : (live.getD 0 .none).liveIn.min? = none)
    (hdominance : Dominance.compute o (Layout.ofCode (Threading.thread code)) = .error e) :
    build o code = .error e := by
  simp only [build, hcheck, heffects, hlive, Junction.check_ofLayout, liftFlow, bind,
    Except.bind, h, hdominance]

theorem build_of_initialized {d : Dominance} (h : (live.getD 0 .none).liveIn.min? = none)
    (hdominance : Dominance.compute o (Layout.ofCode (Threading.thread code)) = .ok d) :
    ∃ g, build o code = .ok g := by
  simp only [build, hcheck, heffects, hlive, Junction.check_ofLayout, liftFlow, bind,
    Except.bind, h, hdominance]
  exact ⟨_, rfl⟩

end Steps

/-- Every list of instructions yields a graph or an error of the routine, whatever the
options.  No check that a step makes of its own work can fail, and merging two junctions
always finds the one to take out. -/
theorem build_total (o : Options) (code : List Instr) :
    ((∃ g, build o code = .ok g) ∨ ∃ e, build o code = .error (.flow e)) ∧
      (Scope.check o.platform.pointerSize (Threading.thread code) = .ok () →
        Robust (Layout.ofCode (Threading.thread code))
          (Junction.ofLayout (Layout.ofCode (Threading.thread code)))) ∧
      ∀ (js : List Junction) (p s k m : Nat), js.findIdx? (·.parents.contains p) = some k →
        js.findIdx? (·.children.contains s) = some m → k ≠ m →
        ∃ j j' rest, js[k]? = some j ∧ js[m]? = some j' ∧ js.Perm (j :: j' :: rest) ∧
          (Junction.addEdge js p s).Perm (j.merge j' :: rest) := by
  refine ⟨?_, fun hcheck => robust_ofCode (Scope.labelled_of_check hcheck),
    fun js p s k m => Junction.addEdge_merges⟩
  cases hcheck : Scope.check o.platform.pointerSize (Threading.thread code) with
  | error e => exact .inr ⟨e, build_of_check_error hcheck⟩
  | ok =>
    have hlabelled := Scope.labelled_of_check hcheck
    have hwf := Layout.wellFormed_ofCode hlabelled
    rcases Flow.effects_ok_or_flow (Layout.ofCode (Threading.thread code))
      (Junction.exists_childOf?_entry hwf) with ⟨r, heffects⟩ | ⟨e, heffects⟩
    case inr => exact .inr ⟨e, build_of_effects_error hcheck heffects⟩
    rcases Live.compute_spec hwf (fun _ => Layout.facts_ofCode) o with
      ⟨live, rounds, hlive, _⟩ | ⟨_, hlive⟩
    case inr => exact .inr ⟨_, build_of_live_error hcheck heffects hlive⟩
    cases hmin : (live.getD 0 .none).liveIn.min? with
    | some t => exact .inr ⟨_, build_of_uninitialized hcheck heffects hlive hmin⟩
    | none =>
      rcases Dominance.compute_spec hwf o with ⟨d, hdominance, _⟩ | ⟨_, hdominance⟩
      · exact .inl (build_of_initialized hcheck heffects hlive hmin hdominance)
      · exact .inr ⟨_, build_of_dominance_error hcheck heffects hlive hmin hdominance⟩

/-- A loop of one block behind the entry, and an edge between two junctions. -/
theorem build_total_loop :
    (Scope.check 8 (Threading.thread [.target 0, .number 1, .branch 0 true]) = .ok () ∧
      Robust (Layout.ofCode (Threading.thread [.target 0, .number 1, .branch 0 true]))
        (Junction.ofLayout
          (Layout.ofCode (Threading.thread [.target 0, .number 1, .branch 0 true])))) ∧
      ∃ j j' rest, [(⟨[0], [1]⟩ : Junction), ⟨[2], [3]⟩].Perm (j :: j' :: rest) ∧
        (Junction.addEdge [⟨[0], [1]⟩, ⟨[2], [3]⟩] 0 3).Perm (j.merge j' :: rest) := by
  have htotal := build_total (Defaults.options {}) [.target 0, .number 1, .branch 0 true]
  have hcheck : Scope.check 8 (Threading.thread [.target 0, .number 1, .branch 0 true]) =
      .ok () := by cbv
  obtain ⟨j, j', rest, _, _, hbefore, hafter⟩ :=
    htotal.2.2 [⟨[0], [1]⟩, ⟨[2], [3]⟩] 0 3 0 1 rfl rfl Nat.zero_ne_one
  exact ⟨⟨hcheck, htotal.2.1 hcheck⟩, j, j', rest, hbefore, hafter⟩

end Graph

end StackFlow
