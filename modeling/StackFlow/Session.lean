import StackFlow.Config.Settings
import StackFlow.Render.Dot
import StackFlow.Render.Outline
import StackFlow.Elision.Optimize

/-!
# Sessions

Working with one graph at a time: analyzing routines, optimizing them, exchanging
instructions, and asking for facts.  A `Session` holds the defaults, the current
graph with what is remembered of it, its latest report, and the options it was
analyzed with.

Every request that needs a graph takes its `Study`.  Indices are checked here; the
analyses themselves only ever use indices in range.
-/

namespace StackFlow

/-! ## One routine -/

/-- Optimizes a graph as the options say. -/
def Graph.optimizeWith (g : Graph) (o : Options) : Except Failure Report × Graph :=
  match Variants.ofPlatform o.platform with
  | .error e => (.error (.flow e), g)
  | .ok v =>
    match g.optimize v o.passes with
    | (.ok r, g) => (.ok r, g)
    | (.error m, g) => (.error (.misuse m), g)

/-- Analyzes and then optimizes a routine. -/
def Graph.compile (o : Options) (code : List Instr) : Except Failure (Graph × Report) :=
  match build o code with
  | .error e => .error e
  | .ok g =>
    match g.optimizeWith o with
    | (.ok r, g) => .ok (g, r)
    | (.error e, _) => .error e

/-! ## Checked questions -/

/-- An index that the set has a word for. -/
def BlockSet.indexAt (s : BlockSet) (i : Int64) : Except Misuse Nat :=
  if 0 ≤ i && s.spans i.toInt.toNat then .ok i.toInt.toNat else .error .outOfRange

namespace Graph

/-- An index that names a block. -/
def blockIndex (g : Graph) (i : Int64) : Except Misuse Nat :=
  if 0 ≤ i && i.toInt < g.size then .ok i.toInt.toNat else .error .outOfRange

/-- The instruction at place `i` of block `b`. -/
def instrAt (g : Graph) (b i : Int64) : Except Misuse (Nat × Nat × Instr) := do
  let b ← g.blockIndex b
  if i < 0 then throw .outOfRange
  match g.instr? b i.toInt.toNat with
  | some p => return (b, i.toInt.toNat, p)
  | none => throw .outOfRange

/-- Whether `a` dominates `b`; `a` may be any index that the sets span. -/
def dominatesAt (g : Graph) (a b : Int64) : Except Misuse Bool := do
  let b ← g.blockIndex b
  let set := g.dominance.sets.getD b default
  return set.contains (← set.indexAt a)

/-- Whether `a` dominates `b` and is another block. -/
def strictlyDominatesAt (g : Graph) (a b : Int64) : Except Misuse Bool :=
  if a = b then .ok false else g.dominatesAt a b

/-- Whether control may escape between two blocks; the same block twice is never
looked up. -/
def escapesAt (g : Graph) (a b : Int64) : Except Misuse Bool :=
  if a = b then .ok false
  else do
    let b ← g.blockIndex b
    let a ← g.blockIndex a
    return g.escapesBetween a b

/-- The weight of a block. -/
def weightAt (g : Graph) (i : Int64) : Except Misuse Float := do
  return g.weights.getD (← g.blockIndex i) 0.0

/-- The number of loops around a block. -/
def depthAt (g : Graph) (i : Int64) : Except Misuse Nat := do
  return g.loopDepths.getD (← g.blockIndex i) 0

/-- The text of the junction that control enters a block through. -/
def parentTextAt (g : Graph) (i : Int64) : Except Misuse (Option String) := do
  let i ← g.blockIndex i
  return (g.parentOf? i).map fun k => Junction.text k (g.junctions.getD k default)

/-- The text of the junction that control leaves a block through. -/
def childTextAt (g : Graph) (i : Int64) : Except Misuse (Option String) := do
  let i ← g.blockIndex i
  return (g.childOf? i).map fun k => Junction.text k (g.junctions.getD k default)

/-- The edges between different blocks. -/
def properEdges (g : Graph) : List (Nat × Nat) := g.layout.edges.filter fun e => e.1 ≠ e.2

end Graph

/-! ## Sessions -/

/-- The state of a session. -/
structure Session where
  defaults : Defaults := {}
  study : Option Study := none
  report : Option Report := none
  /-- The options the current graph was analyzed with. -/
  options : Options := ({} : Defaults).options
deriving Inhabited

namespace Session

/-- Changes the default pointer size, and yields the old one. -/
def setPointerSize (n : Int64) : StateM Session Int64 :=
  modifyGet fun s =>
    (s.defaults.pointerSize, { s with defaults := { s.defaults with pointerSize := n } })

/-- Changes the default round limit, and yields the old one. -/
def setMaxRounds (n : Int64) : StateM Session Int64 :=
  modifyGet fun s =>
    (s.defaults.maxRounds, { s with defaults := { s.defaults with maxRounds := n } })

/-- Makes the graph of a routine the current one, and yields its size. -/
def analyze (o : Options) (code : List Instr) : StateM Session (Except Failure Nat) :=
  modifyGet fun s =>
    match Graph.build o code with
    | .error e => (.error e, s)
    | .ok g => (.ok g.size, { s with study := some { graph := g }, report := none, options := o })

/-- Makes the optimized graph of a routine the current one, and yields the report. -/
def compile (o : Options) (code : List Instr) : StateM Session (Except Failure Report) :=
  modifyGet fun s =>
    match Graph.compile o code with
    | .error e => (.error e, s)
    | .ok (g, r) =>
      (.ok r, { s with study := some { graph := g }, report := some r, options := o })

/-- Replaces the current graph by an optimized one, and keeps the report if there is
one. -/
def keep {ε : Type} (t : Study) (result : Except ε Report) (g : Graph) :
    StateM Session (Except ε Report) :=
  modifyGet fun s =>
    let s := { s with study := some { t with graph := g } }
    match result with
    | .ok r => (.ok r, { s with report := some r })
    | .error e => (.error e, s)

/-- Optimizes the current graph as the options say. -/
def optimize (t : Study) (o : Options) : StateM Session (Except Failure Report) :=
  let (result, g) := t.graph.optimizeWith o
  keep t result g

/-- Optimizes the current graph with the given variants, and with the passes that the
options of the graph switch on. -/
def optimizeVariants (t : Study) (v : Variants) : StateM Session (Except Misuse Report) := do
  let (result, g) := t.graph.optimize v (← get).options.passes
  keep t result g

/-- Exchanges an instruction of the current graph, and yields the block's code. -/
def replace (t : Study) (b i : Int64) (p : Instr) :
    StateM Session (Except Misuse (List Instr)) := do
  match t.graph.instrAt b i with
  | .error m => return .error m
  | .ok (b, i, _) =>
    match t.graph.replace b i p with
    | .error m => return .error m
    | .ok g =>
      modify fun s => { s with study := some { t with graph := g } }
      return .ok (g.block b).code

/-- Works something out about the current graph, and remembers what is to be
remembered. -/
def consult {α : Type} (t : Study) (act : StateM Study α) : StateM Session α := do
  let (a, t) := act.run t
  modify fun s => { s with study := some t }
  return a

/-- Makes the graph nested in an instruction the current one, if there is one. -/
def enter (t : Study) (b i : Int64) :
    StateM Session (Except Misuse (Option (Summary Instr × Study))) := do
  match t.graph.instrAt b i with
  | .error m => return .error m
  | .ok (_, _, p) =>
    match p.nested, Graph.nested? p with
    | some sub, some g =>
      let inner : Study := { graph := g }
      modify fun s => { s with study := some inner }
      return .ok (some (sub, inner))
    | _, _ => return .ok none

end Session

end StackFlow
