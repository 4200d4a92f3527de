/-!
# Searches and work lists

A depth-first search over finitely many nodes.  `search next fresh todo` visits the
nodes of `todo`, and whatever they lead to along `next`, as long as they are `fresh`;
it yields the nodes it did not visit.  Nodes that are not fresh block the way.

`Search.visited` lists the visited nodes in the order of the nodes given.
`Search.finished` lists the nodes of a complete search, the last finished one first.

A work list visits waiting nodes one after the other, and a visit may make other nodes
wait (`Worklist.run`).
-/

namespace StackFlow

namespace Search

variable {α : Type} [DecidableEq α]

/-- The nodes of `fresh` that a search from `todo` does not visit. -/
def search (next : α → List α) (fresh todo : List α) : List α :=
  match todo with
  | [] => fresh
  | x :: rest =>
    if x ∈ fresh then search next (fresh.erase x) (next x ++ rest)
    else search next fresh rest
termination_by (fresh.length, todo.length)
decreasing_by
  · rename_i h
    have := List.length_erase_of_mem h
    have := List.length_pos_of_mem h
    apply Prod.Lex.left
    omega
  · apply Prod.Lex.right
    simp

/-- The nodes of `nodes` that a search from `start` visits, in the order of `nodes`. -/
def visited (next : α → List α) (nodes start : List α) : List α :=
  let left := search next nodes start
  nodes.filter (!left.contains ·)

/-- The state of a search that records when nodes are finished. -/
structure Trail where
  /-- The nodes entered so far. -/
  entered : List Nat
  /-- The nodes left for good, the last one first. -/
  finished : List Nat

/-- Enters `x` unless it has been entered, follows `next`, and finishes `x`.  The
depth of a search is bounded by the number of nodes, which is the fuel. -/
def visit (next : Nat → List Nat) : (fuel : Nat) → Trail → Nat → Trail
  | 0, t, _ => t
  | fuel + 1, t, x =>
    if t.entered.contains x then t
    else
      let t := (next x).foldl (visit next fuel) { t with entered := x :: t.entered }
      { t with finished := x :: t.finished }

/-- All nodes of `roots` and what they lead to, the last finished one first. -/
def finished (next : Nat → List Nat) (roots : List Nat) : List Nat :=
  (roots.foldl (visit next roots.length) ⟨[], []⟩).finished

end Search

/-- Visits the waiting nodes in order until none is left.  A visit gets the state and
the nodes that wait behind the one it goes to, and yields the state and the nodes that
wait then.  `fuel` is the number of visits that are still allowed. -/
def Worklist.run {σ : Type} (visit : σ × List Nat → Nat → σ × List Nat) :
    (fuel : Nat) → σ × List Nat → σ × List Nat
  | 0, s => s
  | _ + 1, (s, []) => (s, [])
  | fuel + 1, (s, n :: queue) => run visit fuel (visit (s, queue) n)

end StackFlow
