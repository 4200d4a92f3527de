import StackFlow.Elision.Barriers
import StackFlow.Elision.Coverage
import StackFlow.Elision.Markers

/-!
# The optimizer

Removes write barriers and initializations that are not needed.  What cannot be
shown to be safe is left alone.
-/

namespace StackFlow

/-- What the passes know of a graph. -/
def Context.ofGraph (v : Variants) (g : Graph) : Except Misuse Context := do
  let forests ← Forest.ofGraph g
  return { variants := v, forests, aliases := .compute g forests (Aliases.singleStores g) }

/-- Runs a pass if it is switched on. -/
def Elision.when (on : Bool) (pass : Elision Unit) : Elision Unit := if on then pass else pure ()

/-- The passes that are switched on, in order. -/
def Elision.passes (v : Variants) (on : Passes) : Elision Unit := do
  let c ← ExceptT.mk (pure (Context.ofGraph v (← get).graph))
  Elision.when on.writeBarriers c.elideBarriers
  Elision.when on.initMarkers c.fuseMarkers
  Elision.when on.fixedInit c.coverAllocations

/-- Optimizes a graph.  Variants that do not fit together leave it as it is.  On a
misuse the graph keeps what was exchanged before. -/
def Graph.optimize (g : Graph) (v : Variants) (on : Passes) : Except Misuse Report × Graph :=
  match v.validate with
  | .error _ => (.ok {}, g)
  | .ok () =>
    match (Elision.passes v on).run { graph := g } with
    | (.ok (), s) => (.ok s.report, s.graph)
    | (.error m, s) => (.error m, s.graph)

end StackFlow
