import StackFlow.Study

/-!
# Plain-text outline

The definitions, dominators, frontiers, phi nodes and loops of a graph as tables a
person can read.
-/

namespace StackFlow.Outline

/-- The line under each table. -/
def rule : String := String.ofList (List.replicate 40 '_')

/-- Block indices, separated by commas. -/
def indexListing (is : List Nat) : String := String.intercalate ", " (is.map toString)

/-- A table with one row per block. -/
def table (blocks : Nat) (title : String) (row : Nat → String) : String :=
  title ++ ":\n"
    ++ String.join ((List.range blocks).map fun i => s!"bb_{i} : {row i}\n")
    ++ rule ++ "\n\n"

/-- The outline of a graph. -/
def render : StateM Study String := do
  let defs ← Study.definitions
  let phis ← Study.phis
  let g := (← get).graph
  let n := g.size
  return table n "SSA definitions" (fun i => (defs.getD i ∅).listing)
    ++ table n "SSA dominators" (fun i =>
        indexListing (g.dominance.sets.getD i default).toList)
    ++ table n "SSA dominance frontiers" (fun i =>
        indexListing (g.dominance.frontier.getD i []))
    ++ table n "SSA Phi nodes" (fun i => (phis.getD i ∅).listing)
    ++ "Loop nest:\n" ++ g.loopNest.outline 0

end StackFlow.Outline
