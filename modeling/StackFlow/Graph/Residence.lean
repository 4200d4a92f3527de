import StackFlow.Graph.Weights

/-!
# Where references reside

A reference that is live across a collection has to be somewhere the collector can
see.  For each such temporary, the code of a block suggests whether it would rather
be in a register or in memory at the two ends of the block, and each junction takes
the verdict of the blocks around it, weighted by how often they run.
-/

namespace StackFlow

/-- Where a temporary would rather be. -/
inductive Residence where
  | register
  | neither
  | memory
deriving DecidableEq, Inhabited

/-- The preference as a number: negative for a register, positive for memory. -/
def Residence.sign : Residence → Int
  | register => -1
  | neither => 0
  | memory => 1

/-- The preferences of some temporaries, in ascending order. -/
abbrev Residences := List (Int64 × Residence)

/-- The preferences of a set of temporaries all over a graph. -/
structure Preferences where
  refs : TempSet
  /-- At the start of each block. -/
  start : Array Residences
  /-- At the end of each block. -/
  finish : Array Residences
  /-- At each junction. -/
  junctions : Array Residences
deriving Inhabited

/-- The preference of `t`, if it has one. -/
def Residences.of (rs : Residences) (t : Int64) : Residence := (rs.lookup t).getD .neither

namespace Graph

/-- The references live across at least one instruction that may collect.  `live` is
what is live after the code, and `found` what is known already. -/
def rootsIn (refs : TempSet) (code : List Instr) (live found : TempSet) : TempSet :=
  (code.foldr (fun p (s : TempSet × TempSet) =>
    if p.collects then (s.1, s.2 ∪ s.1)
    else if p.op = .tstore then (s.1.erase p.temp, s.2)
    else if p.op = .tload && refs.contains p.temp then (s.1.insert p.temp, s.2)
    else s) (live, found)).2

/-- The references that the collector has to see. -/
def gcTemps (g : Graph) : TempSet :=
  g.layout.indices.foldl
    (fun found i => rootsIn g.refs (g.block i).code (g.liveOut i ∩ g.refs) found) ∅

/-- What `t` prefers at the start of code: a load asks for a register, a collection
that it is live across asks for memory, and a store settles that it does not matter. -/
def startOf (live : Bool) (t : Int64) (code : List Instr) : Residence :=
  (code.findSome? fun p =>
    if p.op = .tstore then if p.temp = t then some .neither else none
    else if p.op = .tload then if p.temp = t then some .register else none
    else if p.collects && live then some .memory
    else none).getD .neither

/-- What `t` prefers at the end of code: the last access asks for a register, and a
collection after it that `t` is live across asks for memory. -/
def finishOf (live : Bool) (t : Int64) (code : List Instr) : Residence :=
  (code.reverse.findSome? fun p =>
    if p.accessesTemp then if p.temp = t then some .register else none
    else if p.collects && live then some .memory
    else none).getD .neither

/-- The weighted sum of the preferences of `t` in some blocks, added to `sum`. -/
def tally (weights : Array Float) (prefs : Array Residences) (t : Int64) (sum : Float)
    (blocks : List Nat) : Float :=
  blocks.foldl (fun s b =>
    s + Float.ofInt ((prefs.getD b []).of t).sign * weights.getD b 0.0) sum

/-- The preferences of the given references. -/
def preferencesOf (g : Graph) (refs : TempSet) : Preferences :=
  let weights := g.weights
  let start := (Array.range g.size).map fun i =>
    refs.toList.map fun t => (t, startOf ((g.liveIn i).contains t) t (g.block i).code)
  let finish := (Array.range g.size).map fun i =>
    refs.toList.map fun t => (t, finishOf ((g.liveOut i).contains t) t (g.block i).code)
  let junctions := g.junctions.map fun j =>
    refs.toList.map fun t =>
      let sum := tally weights finish t 0.0 j.parents
      let sum := tally weights start t sum j.children
      (t, if 0.0 < sum then Residence.memory else .register)
  { refs, start, finish, junctions }

end Graph

end StackFlow
