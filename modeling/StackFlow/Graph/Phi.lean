import StackFlow.Graph.Residence
import StackFlow.Search

/-!
# Placement of phi nodes

A temporary needs a phi node wherever different definitions of it meet, which is at
the iterated dominance frontier of the blocks that define it.  Besides storing it, a
collecting block defines a reference that it leaves in a register; a junction that
keeps the reference in memory makes the block no definition of it.
-/

namespace StackFlow.Graph

/-- The temporaries that block `i` defines, given the preferences. -/
def definitionsIn (g : Graph) (prefs : Preferences) (i : Nat) : TempSet :=
  let facts := (g.block i).facts
  match g.childOf? i with
  | none => facts.defs
  | some c =>
    let verdicts := prefs.junctions.getD c []
    prefs.refs.toList.foldl (fun s t =>
      if verdicts.of t = .memory then s.erase t
      else if facts.collects then s.insert t
      else s) facts.defs

/-- The temporaries that each block defines, given the preferences. -/
def definitions (g : Graph) (prefs : Preferences) : Array TempSet :=
  (Array.range g.size).map (g.definitionsIn prefs)

/-- Puts a phi node for `t` at the start of block `y`, unless there is one.  The block
then waits for a visit, which a block that defines `t` gets in any case. -/
def placePhi (defs : Array TempSet) (t : Int64) (s : Array TempSet × List Nat) (y : Nat) :
    Array TempSet × List Nat :=
  let old := s.1.getD y ∅
  if old.contains t then s
  else
    (s.1.setIfInBounds y (old.insert t),
      if (defs.getD y ∅).contains t then s.2 else s.2 ++ [y])

/-- Visits block `n`: the blocks in its frontier get phi nodes for `t`. -/
def visitSite (g : Graph) (defs : Array TempSet) (t : Int64) (s : Array TempSet × List Nat)
    (n : Nat) : Array TempSet × List Nat :=
  (g.dominance.frontier.getD n []).foldl (placePhi defs t) s

/-- The blocks that define `t`, given what each block defines. -/
def sites (g : Graph) (defs : Array TempSet) (t : Int64) : List Nat :=
  g.layout.indices.filter fun i => (defs.getD i ∅).contains t

/-- Places the phi nodes for `t`, given those of other temporaries.  At first the blocks
that define `t` wait for a visit.  No block waits twice, which bounds the visits. -/
def placePhis (g : Graph) (defs : Array TempSet) (phis : Array TempSet) (t : Int64) :
    Array TempSet :=
  (Worklist.run (g.visitSite defs t) g.size (phis, g.sites defs t)).1

/-- The temporaries that need a phi node at the start of each block, given what each
block defines. -/
def phis (g : Graph) (defs : Array TempSet) : Array TempSet :=
  g.temps.toList.foldl (g.placePhis defs) (Array.replicate g.size ∅)

end StackFlow.Graph
