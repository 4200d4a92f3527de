import StackFlow.Graph.Block
import StackFlow.Misuse

/-!
# Junctions

A junction groups the edges that meet at one decision point: two edges with a
common source or a common target belong to the same junction.  All ways through a
junction have to agree on the state of stack and cursor.
-/

namespace StackFlow

/-- A group of edges, by the blocks they leave and the blocks they reach. -/
structure Junction where
  parents : List Nat
  children : List Nat
deriving DecidableEq, Inhabited

namespace Junction

/-- Puts `i` in its place in an ascending list, unless it is there already. -/
def place (i : Nat) : List Nat → List Nat
  | [] => [i]
  | j :: js => if i < j then i :: j :: js else if i = j then j :: js else j :: place i js

/-- The members of two ascending lists as one. -/
def mingle (is js : List Nat) : List Nat := js.foldl (fun l j => place j l) is

/-- The edges of both junctions. -/
def merge (a b : Junction) : Junction :=
  ⟨mingle a.parents b.parents, mingle a.children b.children⟩

/-- Adds the edge from `p` to `s`: it joins the junction that `p` leaves through or
that `s` is entered through, makes one of the two, or starts a new one. -/
def addEdge (js : List Junction) (p s : Nat) : List Junction :=
  match js.findIdx? (·.parents.contains p), js.findIdx? (·.children.contains s) with
  | none, none => js ++ [⟨[p], [s]⟩]
  | none, some k => js.modify k fun j => { j with parents := place p j.parents }
  | some k, none => js.modify k fun j => { j with children := place s j.children }
  | some k, some m =>
    if k = m then js
    else (js.modify k fun j => j.merge (js.getD m default)).eraseIdx m

/-- The junctions of all edges. -/
def ofLayout (layout : Layout) : Array Junction :=
  (layout.edges.foldl (fun js e => addEdge js e.1 e.2) []).toArray

/-- The junction that control enters block `i` through. -/
def parentOf? (js : Array Junction) (i : Nat) : Option Nat :=
  js.findIdx? (·.children.contains i)

/-- The junction that control leaves block `i` through. -/
def childOf? (js : Array Junction) (i : Nat) : Option Nat :=
  js.findIdx? (·.parents.contains i)

/-- Checks that both ends of every edge agree on its junction. -/
def check (layout : Layout) (js : Array Junction) : Except Failure Unit :=
  match layout.edges.find? fun e => childOf? js e.1 ≠ parentOf? js e.2 with
  | some (p, s) => .error (.misuse (.splitJunction p s))
  | none => .ok ()

/-- Block indices in brackets. -/
def indexText (is : List Nat) : String :=
  "[" ++ String.intercalate " " (is.map toString) ++ "]"

/-- The text of junction number `k`. -/
def text (k : Nat) (j : Junction) : String :=
  s!"es_{k}" ++ indexText j.parents ++ "->" ++ indexText j.children

end Junction

end StackFlow
