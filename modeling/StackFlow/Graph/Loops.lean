import StackFlow.Graph.Basic

/-!
# Loop nest

An edge back to a dominator of its source closes a loop.  The loop of a header is
made of all blocks that reach the source of such an edge without passing through
the header.  Loops are nested into a tree whose root stands for the whole routine.
-/

namespace StackFlow

/-- A loop: its header and the other blocks in it, in ascending order. -/
structure Loop where
  header : Nat
  body : List Nat
deriving DecidableEq, Inhabited

/-- A loop with the loops nested in it. -/
inductive LoopNest where
  | node (loop : Loop) (children : List LoopNest)
deriving Inhabited

namespace LoopNest

/-- The loop at the root. -/
def loop : LoopNest → Loop
  | node l _ => l

/-- The loops nested directly in the root. -/
def children : LoopNest → List LoopNest
  | node _ cs => cs

/-- The blocks of the loop, without its header, that belong to no nested loop. -/
def ownBlocks (t : LoopNest) : List Nat :=
  t.loop.body.filter fun b =>
    b ≠ t.loop.header
      && t.children.all fun c => c.loop.header ≠ b && !c.loop.body.contains b

/-- The text of the loop at the root. -/
def text (t : LoopNest) : String :=
  s!"loop(bb_{t.loop.header})\x7b"
    ++ String.intercalate ", " (t.ownBlocks.map fun b => s!"bb_{b}") ++ "\x7d"

mutual

/-- The depth of every block in the tree, when its root lies at depth `d`. -/
def depths (d : Nat) : LoopNest → List (Nat × Nat)
  | t@(node l cs) => (l.header, d) :: t.ownBlocks.map (fun b => (b, d)) ++ depthsAll (d + 1) cs

/-- The depths of the blocks in several trees at depth `d`. -/
def depthsAll (d : Nat) : List LoopNest → List (Nat × Nat)
  | [] => []
  | t :: ts => depths d t ++ depthsAll d ts

end

mutual

/-- The texts of all loops in the tree, indented by depth. -/
def outline (d : Nat) : LoopNest → String
  | t@(node _ cs) =>
    String.ofList (List.replicate (4 * d) ' ') ++ t.text ++ "\n" ++ outlineAll (d + 1) cs

/-- The texts of all loops in several trees. -/
def outlineAll (d : Nat) : List LoopNest → String
  | [] => ""
  | t :: ts => outline d t ++ outlineAll d ts

end

/-- The trees in ascending order of their headers. -/
def byHeader (ts : List LoopNest) : List LoopNest :=
  ts.mergeSort fun a b => a.loop.header ≤ b.loop.header

/-- Makes a loop the parent of the trees whose header lies in it. -/
def adopt (orphans : List LoopNest) (l : Loop) : List LoopNest :=
  let (mine, others) := orphans.partition fun t => l.body.contains t.loop.header
  others ++ [node l (byHeader mine)]

end LoopNest

namespace Graph

/-- The blocks that reach `tail` without passing through `head`, among those that
`head` dominates. -/
def loopBlocks (g : Graph) (head tail : Nat) : List Nat :=
  let inside := g.layout.indices.filter fun n => n ≠ head && g.dominates head n
  Search.visited g.layout.pred inside [tail]

/-- The loop of header `h`, if an edge leads back to it from a block it dominates. -/
def loopAt? (g : Graph) (h : Nat) : Option Loop :=
  let tails := (g.layout.pred h).filter fun t => g.dominates h t
  if tails.isEmpty then none
  else
    let parts := tails.map (g.loopBlocks h)
    some ⟨h, g.layout.indices.filter fun b => parts.any (·.contains b)⟩

/-- All loops, smaller ones first, and those of one size by their headers. -/
def loops (g : Graph) : List Loop :=
  (g.layout.indices.filterMap g.loopAt?).mergeSort fun a b =>
    a.body.length < b.body.length
      || (a.body.length = b.body.length && a.header ≤ b.header)

/-- The loop nest of the graph.  Going from smaller to larger loops, each loop adopts
the loops without a parent whose header lies in it; the routine adopts the rest. -/
def loopNest (g : Graph) : LoopNest :=
  .node ⟨0, g.layout.indices⟩ (LoopNest.byHeader (g.loops.foldl LoopNest.adopt []))

/-- The number of loops around each block. -/
def loopDepths (g : Graph) : Array Nat :=
  (g.loopNest.depths 0).foldl (fun a p => a.setIfInBounds p.1 p.2) (Array.replicate g.size 0)

end Graph

end StackFlow
