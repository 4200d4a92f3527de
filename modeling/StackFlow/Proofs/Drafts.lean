import StackFlow.Graph.Block

/-!
# Drafts without the ways back

The steps from a list of instructions to its blocks, told by names alone.  A draft lists
where control may go, and where it comes from is not kept but looked up among the other
drafts.  What the steps do to the runs of a routine is proved here first and then carried
over to the web, which keeps both lists.

* `split` cuts the list at targets, jumps and other transfers of control;
* `dropUnreached`, `elideHops` and `mergeChains` are the steps of the web of the same name;
* `Layout.ofDrafts` makes blocks of the drafts that are left.
-/

namespace StackFlow

namespace Draft

/-! ## Cutting the list -/

/-- A draft whose code is still being collected, the last instruction first. -/
structure Open where
  start : Start
  code : List Instr := []

/-- Finishes an open draft. -/
def Open.close (d : Open) (succ : List Start) (fall : Option Start) (tail : Location) : Draft :=
  { start := d.start, code := d.code.reverse, succ, fall, tail }

/-- The open draft with one more instruction. -/
def Open.push (d : Open) (p : Instr) : Open := { d with code := p :: d.code }

/-- Cuts the code from index `i` on into drafts.  `current` is the draft that control
falls into from before, if it can. -/
def split (i : Nat) (l : Location) (current : Option Open) : List Instr → List Draft
  | [] => (current.map fun d => { d.close [] none l with exit := true }).toList
  | p :: code =>
    match p.op with
    | .target =>
      let next := Start.label p.label
      (current.map (·.close [next] (some next) l)).toList
        ++ split (i + 1) l (some { start := next, code := [p] }) code
    | .branch =>
      let next := Start.after i
      (current.map fun d => (d.push p).close [.label p.label, next] (some next) l).toList
        ++ split (i + 1) l (some { start := next }) code
    | .hop =>
      (current.map fun d => (d.push p).close [.label p.label] none l).toList
        ++ split (i + 1) l none code
    | _ =>
      let current := current.map (·.push p)
      if p.transfers then
        (current.map (·.close [] none l)).toList ++ split (i + 1) l none code
      else split (i + 1) (l.after p) current code

/-! ## Successors by position -/

/-- The positions of the drafts that draft `i` leads to, in ascending order. -/
def successors (ds : Array Draft) (i : Nat) : List Nat :=
  match ds[i]? with
  | none => []
  | some d =>
    (List.range ds.size).filter fun j => ds[j]?.any fun e => d.succ.contains e.start

/-- The positions of the drafts that lead to draft `j`, in ascending order. -/
def predecessors (ds : Array Draft) (j : Nat) : List Nat :=
  match ds[j]? with
  | none => []
  | some d =>
    (List.range ds.size).filter fun i => ds[i]?.any fun e => e.succ.contains d.start

/-- The drafts that the first one leads to, in layout order. -/
def dropUnreached (ds : List Draft) : List Draft :=
  let a := ds.toArray
  (Search.visited (successors a) (List.range a.size) [0]).filterMap (a[·]?)

/-! ## Hops to the next block -/

/-- The number of drafts that lead to `s`. -/
def ways (ds : List Draft) (s : Start) : Nat := ds.countP (·.succ.contains s)

/-- Whether `d` is reached only by falling through from `prev`, and only hops to the
draft `next` that follows it. -/
def isDetour (ds : List Draft) (prev d next : Draft) : Bool :=
  d.isHopOnly && ways ds d.start = 1 && prev.succ.contains d.start
    && prev.fall = some d.start && d.succ = [next.start]

/-- The draft with its way to `old` leading to `new`. -/
def reroute (d : Draft) (old new : Start) : Draft :=
  let succ := d.succ.erase old
  { d with succ := if succ.contains new then succ else succ ++ [new], fall := some new }

/-- Drops the detours among the drafts after `prev`; `done` holds the drafts before
it, the last one first. -/
def elideAfter (done : List Draft) (prev : Draft) : List Draft → List Draft
  | d :: next :: rest =>
    if isDetour (done.reverse ++ prev :: d :: next :: rest) prev d next then
      elideAfter done (prev.reroute d.start next.start) (next :: rest)
    else elideAfter (prev :: done) d (next :: rest)
  | rest => done.reverse ++ prev :: rest

/-- Drops the drafts that only hop to where falling through leads anyway. -/
def elideHops : List Draft → List Draft
  | [] => []
  | d :: ds => elideAfter [] d ds

/-! ## Merging -/

/-- Whether `d` always continues with the draft `e` that follows it, and nothing
else leads to `e`. -/
def isChain (ds : List Draft) (d e : Draft) : Bool :=
  d.succ = [e.start] && !d.code.getLast?.any (·.op = .branch) && ways ds e.start = 1

/-- Joins `d` with the drafts after it as long as they form a chain, and goes on from
the first that does not; `done` holds the drafts before it, the last one first. -/
def mergeAfter (done : List Draft) (d : Draft) : List Draft → List Draft
  | [] => done.reverse ++ [d]
  | e :: rest =>
    if isChain (done.reverse ++ d :: e :: rest) d e then mergeAfter done (d.join e) rest
    else mergeAfter (d :: done) e rest

/-- Joins every draft with the chain that starts at it. -/
def mergeChains : List Draft → List Draft
  | [] => []
  | d :: ds => mergeAfter [] d ds

/-! ## All steps -/

/-- The drafts of a routine whose jumps all have targets. -/
def ofCode (code : List Instr) : List Draft :=
  mergeChains (elideHops (dropUnreached (split 0 {} (some { start := .entry }) code)))

end Draft

/-- The blocks made from drafts. -/
def Layout.ofDrafts (ds : Array Draft) : Layout :=
  ds.mapIdx fun i d =>
    { code := d.code
      pred := Draft.predecessors ds i
      succ := Draft.successors ds i
      exit := d.exit
      tail := d.tail
      facts := Block.factsOf d.code }

end StackFlow
