import StackFlow.Instr.Basic

/-!
# Hop threading

A label whose target is followed at once by a hop only passes control on.  Jumps to
such a label are redirected to where the chain of hops ends.  A chain that closes
on itself is followed until its next label has been seen before.
-/

namespace StackFlow.Threading

/-- Where the labels that only pass control on lead, the last pair of a label
first. -/
def hops : List Instr → List (Int64 × Int64)
  | p :: q :: rest =>
    let later := hops (q :: rest)
    if p.op = .target && q.op = .hop && p.label ≠ q.label then
      later ++ [(p.label, q.label)]
    else later
  | _ => []

/-- Follows `label` through the chain of hops, stopping before a label that has been
`seen`.  The fuel is the number of hops. -/
def follow (hops : List (Int64 × Int64)) : (fuel : Nat) → (seen : List Int64) → Int64 → Int64
  | 0, _, label => label
  | fuel + 1, seen, label =>
    match hops.lookup label with
    | none => label
    | some next =>
      if seen.contains next then label else follow hops fuel (next :: seen) next

/-- The label at the end of the chain of hops that starts at `label`. -/
def resolve (hops : List (Int64 × Int64)) (label : Int64) : Int64 :=
  follow hops hops.length [label] label

/-- A jump redirected to the end of its chain; everything else as it is. -/
def redirect (hops : List (Int64 × Int64)) (p : Instr) : Instr :=
  let label := resolve hops p.label
  if label = p.label then p
  else if p.op = .branch then .branch label p.sense
  else if p.op = .hop then .hop label
  else p

/-- The code with every jump redirected to the end of its chain of hops. -/
def thread (code : List Instr) : List Instr := code.map (redirect (hops code))

end StackFlow.Threading
