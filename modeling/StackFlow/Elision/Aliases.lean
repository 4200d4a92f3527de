import StackFlow.Elision.Forest
import StackFlow.Elision.Parents

/-!
# Aliases

A temporary that is stored at one place only, by a copy of another such temporary,
names the same value.  `Aliases` maps every temporary with a single store to the
smallest temporary it is an alias of.
-/

namespace StackFlow

/-- The class of every tracked temporary, by its smallest member, in ascending order
of the temporaries. -/
structure Aliases where
  entries : List (Int64 × Int64)
deriving DecidableEq, Inhabited

namespace Aliases

/-- The class of a tracked temporary. -/
def class? (a : Aliases) (t : Int64) : Option Int64 := a.entries.lookup t

/-- The members of class `c` in ascending order. -/
def members (a : Aliases) (c : Int64) : List Int64 :=
  (a.entries.filter (·.2 = c)).map (·.1)

/-- All classes. -/
def classes (a : Aliases) : TempSet := .ofList (a.entries.map (·.2))

/-- The temporaries that exactly one instruction of the graph stores. -/
def singleStores (g : Graph) : TempSet :=
  let stored := g.layout.toList.flatMap fun b => (b.code.filter (·.op = .tstore)).map (·.temp)
  (TempSet.ofList stored).filter fun t => stored.count t = 1

/-- A root, with the code it is taken from. -/
structure Site where
  code : List Instr
  root : Root

/-- The load of a temporary with a single store that the store `p` of the root copies, if there is
one and it has the same type. -/
def Site.source? (x : Site) (singles : TempSet) (p : Instr) : Option Instr :=
  ((x.root.tree.operand? 0).bind fun t => x.code[t.index]?).filter fun v =>
    v.op = .tload && v.ty = p.ty && singles.contains v.temp

/-- The temporary with a single store that the root stores, if it does, and the one it copies. -/
def Site.found? (x : Site) (singles : TempSet) : Option (Int64 × Option Int64) :=
  ((x.code[x.root.tree.index]?).filter fun p => p.op = .tstore && singles.contains p.temp).map
    fun p => (p.temp, (x.source? singles p).map (·.temp))

/-- Tracks what a root stores, and unites it with what it copies, which may not have been seen
yet. -/
def note (singles : TempSet) (f : Parents) (x : Site) : Parents :=
  match x.found? singles with
  | none => f
  | some (t, none) => f.track t
  | some (t, some u) => ((f.track t).track u).unite t u

/-- The aliases that the roots make, visited in this order. -/
def ofSites (singles : TempSet) (xs : List Site) : Aliases :=
  let f := xs.foldl (note singles) .empty
  ⟨f.roots f.keys.toList⟩

/-- The roots of all forests, in the order of the blocks. -/
def sites (g : Graph) (forests : Array Forest) : List Site :=
  (g.layout.toList.zip forests.toList).flatMap fun (b, f) => f.roots.map (⟨b.code, ·⟩)

/-- The aliases in a graph with the given forests and single stores. -/
def compute (g : Graph) (forests : Array Forest) (singles : TempSet) : Aliases :=
  ofSites singles (sites g forests)

end Aliases

end StackFlow
