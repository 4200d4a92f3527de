import StackFlow.Elision.Basic

/-!
# Initialization markers

An allocation need not clear its memory if every way from it reaches the marker
that says the object is initialized, before any collection and before the routine
is left.
-/

namespace StackFlow

/-- Whether control leaving block `a` may reach a collection, or leave the routine,
before it arrives at block `b`.  A block without successors counts as leaving. -/
def Graph.escapesBetween (g : Graph) (a b : Nat) : Bool :=
  a ≠ b &&
    let fresh := g.layout.indices.filter (· ≠ b)
    (Search.visited g.layout.succ fresh (g.layout.succ a)).any fun n =>
      (g.block n).facts.collects || (g.layout.succ n).isEmpty

/-- Whether some instruction of block `b` from `lo` to before `hi` may collect. -/
def Graph.collectsIn (g : Graph) (b lo hi : Nat) : Bool :=
  ((((g.block b).code.take hi).drop lo).any (·.collects))

/-- A place in the code of a graph whose block and index are in range. -/
structure Place where
  block : Nat
  index : Nat
deriving DecidableEq, Inhabited

/-- Whether every way from the allocation at `m` arrives at the marker at `i` without
a collection. -/
def Graph.reachesUncollected (g : Graph) (m i : Place) : Bool :=
  if m.block = i.block then
    m.index < i.index && !g.collectsIn m.block (m.index + 1) i.index
  else
    !g.collectsIn m.block (m.index + 1) (g.block m.block).code.length
      && !g.collectsIn i.block 0 i.index && !g.escapesBetween m.block i.block

namespace Context

/-- The markers and the clearing allocations of the classes, the last one of a class
first. -/
structure Markers where
  marks : List (Int64 × Place) := []
  allocations : List (Int64 × Place) := []

/-- Notes the marker or the allocation at a root of block `b`. -/
def noteMarker (c : Context) (b : Nat) (code : List Instr) (m : Markers) (r : Root) : Markers :=
  match code[r.tree.index]? with
  | none => m
  | some p =>
    if p.op = .fullyInitialized then
      match c.loadedClass? code (r.tree.operand? 0) with
      | some k => { m with marks := (k, ⟨b, r.tree.index⟩) :: m.marks }
      | none => m
    else
      match c.allocatedClass? code r.tree, r.tree.operand? 0 with
      | some k, some v =>
        if (code[v.index]?).any c.variants.isAllocate then
          { m with allocations := (k, ⟨b, v.index⟩) :: m.allocations }
        else m
      | _, _ => m

/-- The markers and the clearing allocations of a graph. -/
def markers (c : Context) (g : Graph) : Markers :=
  g.layout.indices.foldl
    (fun m b => (c.forest b).roots.foldl (c.noteMarker b (g.block b).code) m) {}

/-- Exchanges the allocation of a class if it always reaches the class's marker. -/
def fuseMarker (c : Context) (m : Markers) (k : Int64) : Elision Unit := do
  match m.marks.lookup k, m.allocations.lookup k with
  | some i, some a =>
    if (← get).graph.reachesUncollected a i then
      Elision.replace .initMarker a.block a.index c.variants.allocateOnly
  | _, _ => pure ()

/-- Exchanges all allocations that reach their marker, in the order of the classes. -/
def fuseMarkers (c : Context) : Elision Unit := do
  let m := c.markers (← get).graph
  (TempSet.ofList (m.marks.map (·.1))).toList.forM (c.fuseMarker m)

end Context

end StackFlow
