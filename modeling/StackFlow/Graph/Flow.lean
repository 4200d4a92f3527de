import StackFlow.Graph.Junction

/-!
# Effects at junctions

The effect of the code from the entry to each junction.  Every junction first gets
the effect of one way that reaches it (`spread`); then every block is checked
against it (`reconcile`), which merges the effects of all ways and fails when two
of them have read different numbers of cursor bytes.
-/

namespace StackFlow.Flow

/-- The junctions that control enters and leaves block `i` through, if it has both. -/
def passage? (js : Array Junction) (i : Nat) : Option (Nat × Nat) :=
  match Junction.parentOf? js i, Junction.childOf? js i with
  | some p, some c => some (p, c)
  | _, _ => none

/-- The effects known so far, one per junction. -/
abbrev Known := Array (Option Effect)

/-- Carries the effect of the junction before block `i` over the block, if nothing is
known of the junction after it. -/
def carry (layout : Layout) (js : Array Junction) (known : Known) (i : Nat) : Known :=
  match passage? js i with
  | none => known
  | some (p, c) =>
    match known.getD p none, known.getD c none with
    | some e, none => known.setIfInBounds c (some (e.andThen (layout.block i).facts.effect))
    | _, _ => known

/-- One round over all blocks. -/
def spread (layout : Layout) (js : Array Junction) (known : Known) : Known :=
  layout.indices.foldl (carry layout js) known

/-- The first effect to reach each junction, starting from the one that the entry
leaves through.  Each round reaches a new junction or changes nothing, so there is
one round per junction. -/
def reach (layout : Layout) (js : Array Junction) (entry : Nat) : Array Effect :=
  let seed := (Array.replicate js.size none).setIfInBounds entry
    (some (layout.block 0).facts.effect)
  (Nat.repeat (spread layout js) js.size seed).map (·.getD .zero)

/-- Merges the way through block `i` into the junction after it. -/
def reconcile (layout : Layout) (js : Array Junction) (effects : Array Effect) (i : Nat) :
    Except FlowError (Array Effect) :=
  match passage? js i with
  | none => .ok effects
  | some (p, c) =>
    let b := layout.block i
    match (effects.getD c .zero).merge ((effects.getD p .zero).andThen b.facts.effect) with
    | .ok e => .ok (effects.setIfInBounds c e)
    | .error e => .error ((FlowError.ofFault (.joinInconsistency e)).locate b.tail)

/-- The effects at all junctions, and the effect of the whole routine: that of the
ways to the end of the last block. -/
def effects (layout : Layout) (js : Array Junction) : Except Failure (Array Effect × Effect) :=
  if js.isEmpty then .ok (#[], (layout.block 0).facts.effect)
  else
    match Junction.childOf? js 0 with
    | none => .error (.misuse .outOfRange)
    | some entry => do
      let es ← liftFlow (layout.indices.foldlM (reconcile layout js) (reach layout js entry))
      let last := layout.size - 1
      let own := (layout.block last).facts.effect
      match Junction.parentOf? js last with
      | some p => return (es, (es.getD p .zero).andThen own)
      | none => return (es, own)

end StackFlow.Flow
