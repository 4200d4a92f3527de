import StackFlow.Graph.Phi

/-!
# Remembered facts

Some facts about a graph are worked out only when they are asked for, from the
instructions as they are then, and remembered from then on.  A `Study` is a graph
with what has been remembered about it.  Exchanging instructions later does not
make it forget.
-/

namespace StackFlow

/-- A graph with the facts remembered about it. -/
structure Study where
  graph : Graph
  gcTemps? : Option TempSet := none
  preferences? : Option Preferences := none
  definitions? : Option (Array TempSet) := none
  phis? : Option (Array TempSet) := none
deriving Inhabited

namespace Study

/-- The references that the collector has to see. -/
def gcTemps : StateM Study TempSet := do
  let s ← get
  match s.gcTemps? with
  | some ts => return ts
  | none =>
    let ts := s.graph.gcTemps
    set { s with gcTemps? := some ts }
    return ts

/-- Where those references would rather be. -/
def preferences : StateM Study Preferences := do
  match (← get).preferences? with
  | some p => return p
  | none =>
    let ts ← gcTemps
    let s ← get
    let p := s.graph.preferencesOf ts
    set { s with preferences? := some p }
    return p

/-- The temporaries that each block defines. -/
def definitions : StateM Study (Array TempSet) := do
  match (← get).definitions? with
  | some d => return d
  | none =>
    let p ← preferences
    let s ← get
    let d := s.graph.definitions p
    set { s with definitions? := some d }
    return d

/-- The temporaries that need a phi node at the start of each block. -/
def phis : StateM Study (Array TempSet) := do
  match (← get).phis? with
  | some p => return p
  | none =>
    let d ← definitions
    let s ← get
    let p := s.graph.phis d
    set { s with phis? := some p }
    return p

end Study

end StackFlow
