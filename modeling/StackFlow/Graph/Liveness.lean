import StackFlow.Graph.Block
import StackFlow.Rounds

/-!
# Live temporaries

A temporary is live at a point if some way from there loads it before storing it.
The sets of all blocks grow from nothing in rounds that visit the blocks from the
last to the first, until a round changes nothing.
-/

namespace StackFlow

/-- The temporaries live at the two ends of a block. -/
structure Live where
  liveIn : TempSet
  liveOut : TempSet
deriving Inhabited, DecidableEq

namespace Live

/-- Nothing is live. -/
def none : Live := ⟨∅, ∅⟩

/-- The sets of block `i`, grown by what its successors and its own code need. -/
def grow (layout : Layout) (live : Array Live) (i : Nat) : Live :=
  let b := layout.block i
  let old := live.getD i .none
  let liveOut := b.succ.foldl (fun s j => s ∪ (live.getD j .none).liveIn) old.liveOut
  ⟨old.liveIn ∪ (b.facts.uses ∪ (liveOut \ b.facts.defs)), liveOut⟩

/-- Visits block `i` and notes whether its sets changed. -/
def visit (layout : Layout) (s : Array Live × Bool) (i : Nat) : Array Live × Bool :=
  let new := grow layout s.1 i
  (s.1.setIfInBounds i new, s.2 || new ≠ s.1.getD i .none)

/-- One round from the last block to the first. -/
def round (layout : Layout) (live : Array Live) : Array Live × Bool :=
  layout.indices.reverse.foldl (visit layout) (live, false)

/-- The live sets of all blocks and the number of rounds they took. -/
def compute (o : Options) (layout : Layout) : Except Failure (Array Live × Nat) :=
  Rounds.fixpoint "liveness" o layout.size (round layout) (Array.replicate layout.size .none)

end Live

end StackFlow
