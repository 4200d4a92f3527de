import StackFlow.BlockSet
import StackFlow.Graph.Block
import StackFlow.Rounds

/-!
# Dominators

A block dominates another if every way from the entry to the other passes through
it.  The dominator sets of all blocks shrink from everything in rounds until a
round changes nothing; the tree and the frontiers are read off the sets.
-/

namespace StackFlow

/-- The tree that the closest strict dominators of the blocks form. -/
structure DominatorTree where
  /-- The closest strict dominator of each block; the entry has none. -/
  parent : Array (Option Nat)
  /-- The blocks that hang below each block, in ascending order. -/
  children : Array (List Nat)
deriving Inhabited

/-- The dominators of every block, the tree they form, and the frontiers. -/
structure Dominance extends DominatorTree where
  /-- The dominators of each block. -/
  sets : Array BlockSet
  /-- Where the dominance of each block ends, in ascending order. -/
  frontier : Array (List Nat)
deriving Inhabited

namespace Dominance

/-! ## Sets -/

/-- Before the first round: the entry dominates itself, and every other block is
dominated by all. -/
def start (n : Nat) : Array BlockSet :=
  Array.ofFn fun i : Fin n => if i.val = 0 then (BlockSet.empty n).insert 0 else BlockSet.full n

/-- The block itself and what dominates all of its predecessors. -/
def narrow (layout : Layout) (sets : Array BlockSet) (i : Nat) : BlockSet :=
  ((layout.pred i).foldl (fun s p => s.inter (sets.getD p default))
    (BlockSet.full layout.size)).insert i

/-- Visits block `i` and notes whether its set changed. -/
def visit (layout : Layout) (s : Array BlockSet × Bool) (i : Nat) : Array BlockSet × Bool :=
  let new := narrow layout s.1 i
  (s.1.setIfInBounds i new, s.2 || new ≠ s.1.getD i default)

/-- One round over all blocks but the entry. -/
def round (layout : Layout) (sets : Array BlockSet) : Array BlockSet × Bool :=
  (layout.indices.drop 1).foldl (visit layout) (sets, false)

/-! ## Tree -/

/-- The closest strict dominator: the one with exactly one dominator less. -/
def parentIn (sets : Array BlockSet) (sizes : Array Nat) (i : Nat) : Option Nat :=
  let n := sizes.getD i 0
  (sets.getD i default).toList.find? fun d => d ≠ i && sizes.getD d 0 + 1 = n

/-- No block hangs below another yet.  The entry has no parent, and it stands for the parents
of the other blocks until these are found. -/
def bare (n : Nat) : DominatorTree :=
  ⟨(Array.replicate n (some 0)).setIfInBounds 0 none, Array.replicate n []⟩

/-- Hangs block `i` below its closest strict dominator, if there is one. -/
def hang (sets : Array BlockSet) (sizes : Array Nat) (t : DominatorTree) (i : Nat) :
    DominatorTree :=
  match parentIn sets sizes i with
  | some d => ⟨t.parent.setIfInBounds i (some d),
      t.children.setIfInBounds d (t.children.getD d [] ++ [i])⟩
  | none => t

/-- The tree that the given dominator sets describe. -/
def tree (layout : Layout) (sets : Array BlockSet) : DominatorTree :=
  (layout.indices.drop 1).foldl (hang sets (sets.map (·.card))) (bare layout.size)

/-! ## Frontiers -/

/-- Whether `a` dominates `b`. -/
def dominatesIn (sets : Array BlockSet) (a b : Nat) : Bool := (sets.getD b default).contains a

/-- The frontier of block `n`, given those of its children: the successors it is not
the parent of, and what its children's frontiers hold that it does not strictly
dominate. -/
def frontierOf (layout : Layout) (sets : Array BlockSet) (t : DominatorTree)
    (frontier : Array (List Nat)) (n : Nat) : List Nat :=
  let own := (layout.succ n).filter fun s => t.parent.getD s none ≠ some n
  let up := (t.children.getD n []).flatMap fun c =>
    (frontier.getD c []).filter fun w => !(n ≠ w && dominatesIn sets n w)
  layout.indices.filter fun y => own.contains y || up.contains y

/-- Computes the frontier of block `n`. -/
def visitFrontier (layout : Layout) (sets : Array BlockSet) (t : DominatorTree)
    (frontier : Array (List Nat)) (n : Nat) : Array (List Nat) :=
  frontier.setIfInBounds n (frontierOf layout sets t frontier n)

/-- Walks down a tree from the blocks on the stack: takes one off the stack, and puts its
children there. -/
def walk (children : Array (List Nat)) : Nat → List Nat → List Nat
  | 0, _ => []
  | _ + 1, [] => []
  | fuel + 1, n :: stack => n :: walk children fuel ((children.getD n []).reverse ++ stack)

/-- The frontiers of all blocks.  The walk from the entry comes to every block once, and to
children after their parents, so they are computed the other way round. -/
def frontiers (layout : Layout) (sets : Array BlockSet) (t : DominatorTree) :
    Array (List Nat) :=
  (walk t.children layout.size [0]).reverse.foldl (visitFrontier layout sets t)
    (Array.replicate layout.size [])

/-- The tree and the frontiers of the given dominator sets. -/
def ofSets (layout : Layout) (sets : Array BlockSet) : Dominance :=
  let t := tree layout sets
  { t with sets, frontier := frontiers layout sets t }

/-- The dominators of a graph. -/
def compute (o : Options) (layout : Layout) : Except Failure Dominance := do
  let (sets, _) ←
    Rounds.fixpoint "dominators" o layout.size (round layout) (start layout.size)
  return ofSets layout sets

/-- Whether every way from the entry to `b` passes through `a`. -/
def dominates (d : Dominance) (a b : Nat) : Bool := dominatesIn d.sets a b

end Dominance

end StackFlow
