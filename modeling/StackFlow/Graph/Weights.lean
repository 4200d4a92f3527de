import StackFlow.Graph.Loops

/-!
# Block weights

A static estimate of how often each block runs.  The entry runs once, a block
splits its weight evenly over its forward successors, and every loop around a block
multiplies its weight by ten.  An edge goes forward unless it leads to a dominator
of its source.
-/

namespace StackFlow

/-- Ten to the power `n`, by repeated squaring of a mantissa in `[1/2, 1)` whose power
of two is kept apart.  Exact up to the twenty-second power. -/
def tenPower (n : Nat) : Float :=
  go n n 1.0 0 0.625 4
where
  /-- `bits` halves in every step, so `n` steps are enough. -/
  go : (fuel bits : Nat) → (acc : Float) → (accExp : Int) → (base : Float) → (baseExp : Int) →
      Float
  | 0, _, acc, accExp, _, _ => acc.scaleB accExp
  | fuel + 1, bits, acc, accExp, base, baseExp =>
    if bits = 0 then acc.scaleB accExp
    else
      let (acc, accExp) :=
        if bits % 2 = 1 then (acc * base, accExp + baseExp) else (acc, accExp)
      let square := base * base
      if square < 0.5 then
        go fuel (bits / 2) acc accExp (square + square) (2 * baseExp - 1)
      else go fuel (bits / 2) acc accExp square (2 * baseExp)

namespace Graph

/-- The successors of block `n` that do not dominate it. -/
def forward (g : Graph) (n : Nat) : List Nat :=
  (g.layout.succ n).filter fun s => !g.dominates s n

/-- The blocks in an order that respects the forward edges, or in layout order if
those edges have a cycle. -/
def forwardOrder (g : Graph) : List Nat :=
  let next := fun n => ((g.forward n).filter (· ≠ n)).reverse
  let order := Search.finished next g.layout.indices.reverse
  let place := order.zipIdx.foldl (fun a p => a.setIfInBounds p.1 p.2) (Array.replicate g.size 0)
  let respected := g.layout.indices.all fun n =>
    (next n).all fun s => place.getD n 0 < place.getD s 0
  if respected then order else g.layout.indices

/-- The weights of all blocks. -/
def weights (g : Graph) : Array Float :=
  let share := fun (w : Array Float) n =>
    let fwd := g.forward n
    let part := w.getD n 0.0 / Float.ofNat fwd.length
    fwd.foldl (fun w s => w.setIfInBounds s (w.getD s 0.0 + part)) w
  let start := (Array.replicate g.size 0.0).setIfInBounds 0 1.0
  let spread := g.forwardOrder.foldl share start
  let depths := g.loopDepths
  spread.mapIdx fun i w => w * tenPower (depths.getD i 0)

end Graph

end StackFlow
