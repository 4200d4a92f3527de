import StackFlow.Routine.Web
import StackFlow.TempSet

/-!
# Blocks

A block is a straight run of instructions with the blocks that control may come
from and go to, by index.  Its facts (`Block.Facts`) are taken from its code when
the graph is built and stay as they are when instructions are exchanged later.
-/

namespace StackFlow

/-- What a block does, whatever comes before and after it. -/
structure Block.Facts where
  effect : Effect
  /-- Whether some instruction may trigger a collection. -/
  collects : Bool
  /-- The temporaries stored. -/
  defs : TempSet
  /-- The temporaries loaded before they are stored. -/
  uses : TempSet
deriving Inhabited, DecidableEq

/-- The temporaries stored by the code. -/
def Block.defsOf (code : List Instr) : TempSet :=
  .ofList ((code.filter (·.op = .tstore)).map (·.temp))

/-- The temporaries the code loads before storing them, given those stored already. -/
def Block.usesOf (stored : TempSet) : List Instr → TempSet
  | [] => ∅
  | p :: code =>
    if p.op = .tstore then usesOf (stored.insert p.temp) code
    else if p.op = .tload && !stored.contains p.temp then (usesOf stored code).insert p.temp
    else usesOf stored code

/-- The facts of a run of instructions. -/
def Block.factsOf (code : List Instr) : Block.Facts where
  effect := (code.foldl Instr.meter {}).effect
  collects := code.any (·.collects)
  defs := defsOf code
  uses := usesOf ∅ code

/-- A straight run of instructions in a flow graph. -/
structure Block where
  code : List Instr
  /-- The blocks control may come from, in ascending order. -/
  pred : List Nat
  /-- The blocks control may go to, in ascending order. -/
  succ : List Nat
  /-- Whether control may fall off the end of the routine. -/
  exit : Bool
  /-- The source location in force at the end. -/
  tail : Location
  facts : Block.Facts
deriving Inhabited

/-- The blocks of a routine in layout order; the first one is the entry. -/
abbrev Layout := Array Block

namespace Layout

/-- The block with index `i`, or an empty one if there is none. -/
def block (layout : Layout) (i : Nat) : Block := layout.getD i default

/-- The blocks that block `i` leads to. -/
def succ (layout : Layout) (i : Nat) : List Nat := (layout.block i).succ

/-- The blocks that lead to block `i`. -/
def pred (layout : Layout) (i : Nat) : List Nat := (layout.block i).pred

/-- The indices of all blocks. -/
def indices (layout : Layout) : List Nat := List.range layout.size

/-- All edges, by source and then by target. -/
def edges (layout : Layout) : List (Nat × Nat) :=
  layout.indices.flatMap fun p => (layout.succ p).map fun s => (p, s)

/-- The blocks of a web, which name each other by their places. -/
def ofWeb (w : Web) : Layout :=
  (w.order.map fun s =>
    let n := w.nodes.node s
    { code := n.code
      pred := (n.pred.map w.index).mergeSort
      succ := (n.succ.map w.index).mergeSort
      exit := n.exit
      tail := n.tail
      facts := Block.factsOf n.code }).toArray

/-- The blocks of a routine.  There are none if two targets have the same label, or the
target of a jump is missing. -/
def ofCode (code : List Instr) : Layout :=
  let w := Web.read code
  if w.isWhole then ofWeb w.dropUnreached.elideHops.mergeChains else #[]

/-- The temporaries of the loads and stores for which `keep` holds. -/
def temps (layout : Layout) (keep : Instr → Bool) : TempSet :=
  .ofList <| layout.toList.flatMap fun b =>
    (b.code.filter fun p => p.accessesTemp && keep p).map (·.temp)

end Layout

end StackFlow
