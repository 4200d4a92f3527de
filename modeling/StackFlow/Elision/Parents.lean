import StackFlow.TempSet

/-!
# Trees of temporaries

Classes of temporaries that are joined one pair after the other.  Every temporary that has been
seen has a parent; one that is its own parent is a root, and a class is what leads to one root.

* `find` climbs to the root, and hangs what it passes under its grandparent on the way.
* `unite` makes the smaller of two roots the parent of the other one.
-/

namespace StackFlow

/-- The temporaries that have been seen, with their parents. -/
structure Parents where
  keys : TempSet
  /-- The parent of a temporary, and 0 for one that has not been seen. -/
  parent : Int64 → Int64

namespace Parents

/-- No temporary has been seen. -/
def empty : Parents := ⟨∅, fun _ => 0⟩

/-- Gives `t` the parent `c`. -/
def set (f : Parents) (t c : Int64) : Parents :=
  ⟨f.keys.insert t, fun u => if u = t then c else f.parent u⟩

/-- Makes `t` a root, unless it has been seen already. -/
def track (f : Parents) (t : Int64) : Parents := if t ∈ f.keys then f else f.set t t

/-- The root above `t`, if it is at most `fuel` steps away.  Each step leads to the grandparent,
which becomes the parent. -/
def climb : Nat → Parents → Int64 → Parents × Int64
  | 0, f, t => (f, t)
  | fuel + 1, f, t =>
    if f.parent t = t then (f, t)
    else
      let f := f.set t (f.parent (f.parent t))
      climb fuel f (f.parent t)

/-- The root above `t`.  No temporary is passed twice on the way. -/
def find (f : Parents) (t : Int64) : Parents × Int64 := climb f.keys.toList.length f t

/-- Makes the classes of `t` and `u` one. -/
def unite (f : Parents) (t u : Int64) : Parents :=
  let (f, c) := f.find t
  let (f, d) := f.find u
  if c < d then f.set d c else f.set c d

/-- The temporaries `ts` with the roots above them. -/
def roots (f : Parents) : List Int64 → List (Int64 × Int64)
  | [] => []
  | t :: ts =>
    let (f, c) := f.find t
    (t, c) :: f.roots ts

end Parents

end StackFlow
