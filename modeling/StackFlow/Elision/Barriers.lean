import StackFlow.Elision.Basic
import StackFlow.Search

/-!
# Write barriers

A store needs no barrier if the object written is fresh, or if the reference written
is null.  An object is fresh from its allocation to the next collection; a store
with a barrier makes the object as good as fresh until then.

`freshAtEntry` finds, for every block, the classes that are fresh on every way to
it; `elideBarriers` removes the barriers that are not needed.
-/

namespace StackFlow.Context

/-- Whether the tree is the constant zero. -/
def isNull (code : List Instr) (t : Option Tree) : Bool :=
  match at? code t with
  | some p => p.op = .number && p.value = 0
  | none => false

/-- What becomes of a store. -/
inductive Verdict where
  /-- The store is none that has a barrier, or nothing is known of its object. -/
  | leave
  /-- The barrier is not needed. -/
  | elide (reason : Reason)
  /-- The barrier makes the objects of a class as good as fresh. -/
  | mark (c : Int64)
deriving DecidableEq

/-- What becomes of the store at a root, when the classes in `fresh` are fresh. -/
def verdict (c : Context) (code : List Instr) (fresh : TempSet) (r : Root) : Verdict :=
  match code[r.tree.index]? with
  | none => .leave
  | some p =>
    if !c.variants.isCheckedStore p then .leave
    else if isNull code (r.tree.operand? 0) then .elide .nullBarrier
    else
      match c.loadedClass? code (r.tree.operand? 1) with
      | none => .leave
      | some k => if fresh.contains k then .elide .freshBarrier else .mark k

/-- The fresh classes after a verdict. -/
def Verdict.apply (fresh : TempSet) : Verdict → TempSet
  | mark k => fresh.insert k
  | _ => fresh

/-- The fresh classes before the instruction of a root. -/
def beforeRoot (fresh : TempSet) (r : Root) : TempSet := if r.collects then ∅ else fresh

/-- The fresh classes with the object that a root allocates. -/
def withAllocated (c : Context) (code : List Instr) (fresh : TempSet) (r : Root) : TempSet :=
  match c.allocatedClass? code r.tree with
  | some k => fresh.insert k
  | none => fresh

/-- The fresh classes after a root. -/
def afterRoot (c : Context) (code : List Instr) (fresh : TempSet) (r : Root) : TempSet :=
  let fresh := beforeRoot fresh r
  c.withAllocated code ((c.verdict code fresh r).apply fresh) r

/-- The classes fresh at the end of block `b` when those in `fresh` are at its start. -/
def freshAfter (c : Context) (g : Graph) (b : Nat) (fresh : TempSet) : TempSet :=
  let f := c.forest b
  let fresh := f.roots.foldl (c.afterRoot (g.block b).code) fresh
  if f.tail then ∅ else fresh

/-! ## Fresh at the start of blocks -/

/-- The classes that are fresh at the end of all predecessors of block `b`. -/
def meet (g : Graph) (all : TempSet) (ends : Array TempSet) (b : Nat) : TempSet :=
  (g.layout.pred b).foldl (fun s p => s ∩ ends.getD p ∅) all

/-- What is fresh at the end of block `b` when those in `fresh` are at its start.  A
block that may collect only leaves what it makes fresh itself. -/
def transfer (c : Context) (g : Graph) (b : Nat) (fresh : TempSet) : TempSet :=
  c.freshAfter g b (if (g.block b).facts.collects then ∅ else fresh)

/-- What is fresh at the starts and at the ends of the blocks, as far as it is known. -/
structure Freshness where
  starts : Array TempSet
  ends : Array TempSet

/-- Makes block `b` wait for another visit, unless it waits already.  The entry never does. -/
def requeue (queue : List Nat) (b : Nat) : List Nat :=
  if b = 0 || queue.contains b then queue else queue ++ [b]

/-- Visits block `b`.  When its end changes, the blocks after it wait for another visit. -/
def visitFresh (c : Context) (g : Graph) (all : TempSet) (s : Freshness × List Nat) (b : Nat) :
    Freshness × List Nat :=
  let start := meet g all s.1.ends b
  let new := c.transfer g b start
  let starts := s.1.starts.setIfInBounds b start
  if new = s.1.ends.getD b ∅ then (⟨starts, s.1.ends⟩, s.2)
  else (⟨starts, s.1.ends.setIfInBounds b new⟩, (g.layout.succ b).foldl requeue s.2)

/-- Before the first visit: everything is fresh at the ends of blocks, but at the end of the
entry only what the entry makes fresh. -/
def initialFreshness (c : Context) (g : Graph) (all : TempSet) : Freshness where
  starts := Array.replicate g.size ∅
  ends := (Array.replicate g.size all).setIfInBounds 0 (c.freshAfter g 0 ∅)

/-- Visits all blocks but the entry until nothing changes.  A visit that makes others wait
takes a class out of the end of its block, which bounds the number of visits. -/
def settleFreshness (c : Context) (g : Graph) (all : TempSet) : Freshness × List Nat :=
  Worklist.run (c.visitFresh g all) ((g.size * all.toList.length + 1) * (g.size + 1))
    (c.initialFreshness g all, g.layout.indices.drop 1)

/-- The classes that are fresh at the start of each block on every way to it. -/
def freshAtEntry (c : Context) (g : Graph) : Array TempSet :=
  (c.settleFreshness g c.aliases.classes).1.starts

/-! ## Removing barriers -/

/-- Removes the barriers of block `b` that are not needed, when the classes in
`fresh` are fresh at its start. -/
def elideBlock (c : Context) (b : Nat) (fresh : TempSet) : Elision TempSet :=
  (c.forest b).roots.foldlM (fun fresh r => do
    let fresh := beforeRoot fresh r
    let v := c.verdict ((← get).graph.block b).code fresh r
    match v with
    | .elide reason => Elision.replace reason b r.tree.index c.variants.uncheckedStore
    | _ => pure ()
    return c.withAllocated ((← get).graph.block b).code (v.apply fresh) r) fresh

/-- Removes all barriers that are not needed. -/
def elideBarriers (c : Context) : Elision Unit := do
  let fresh := c.freshAtEntry (← get).graph
  (List.range fresh.size).forM fun b => discard (c.elideBlock b (fresh.getD b ∅))

end StackFlow.Context
