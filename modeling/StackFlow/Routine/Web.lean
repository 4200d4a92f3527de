import StackFlow.Routine.Draft
import StackFlow.Search

/-!
# The web of a routine

While the blocks of a routine are being made, each of them lists where control may go
and where it may come from.  The two lists are edited one by one and in place, so they
stay in step only because every edit sees to both of them.

* `Nodes` are the blocks made so far, by name.  A jump may name a block long before its
  code is read.
* `Web.scan` reads the list of instructions: it puts code into nodes, links them, and
  places them in layout order.
* `Web.dropUnreached` keeps what the entry leads to.
* `Web.elideHops` drops nodes that only hop to where falling through leads anyway.
* `Web.mergeChains` joins a node with the one after it when there is no other way
  between the two.
-/

namespace StackFlow

/-- A draft that also lists where control may come from. -/
structure Node extends Draft where
  pred : List Start := []
deriving Inhabited

/-- The names with `s` put at the end, unless it is among them. -/
def Start.addTo (s : Start) (names : List Start) : List Start :=
  if names.contains s then names else names ++ [s]

/-! ## Nodes by name -/

/-- The nodes made so far, at most one of each name. -/
abbrev Nodes := List Node

namespace Nodes

/-- The node called `s`, or one without code and ways if none has been made yet. -/
def node (ns : Nodes) (s : Start) : Node :=
  (ns.find? (·.start = s)).getD { start := s, code := [], succ := [], tail := {} }

/-- Changes the node called `s`, and makes it if need be. -/
def edit (ns : Nodes) (s : Start) (change : Node → Node) : Nodes :=
  change (ns.node s) :: ns.filter (·.start ≠ s)

/-- Puts an instruction at the end of a node. -/
def push (ns : Nodes) (s : Start) (p : Instr) : Nodes :=
  ns.edit s fun n => { n with code := n.code ++ [p] }

/-- Notes the location in force at the end of a node. -/
def locate (ns : Nodes) (s : Start) (l : Location) : Nodes :=
  ns.edit s fun n => { n with tail := l }

/-- Notes that control may fall off the end of the routine. -/
def finish (ns : Nodes) (s : Start) : Nodes :=
  ns.edit s fun n => { n with exit := true }

/-- Lists `b` among the nodes that `a` leads to. -/
def addSucc (ns : Nodes) (a b : Start) : Nodes :=
  ns.edit a fun n => { n with succ := b.addTo n.succ }

/-- Lists `a` among the nodes that lead to `b`. -/
def addPred (ns : Nodes) (b a : Start) : Nodes :=
  ns.edit b fun n => { n with pred := a.addTo n.pred }

/-- Takes `b` out of the nodes that `a` leads to. -/
def eraseSucc (ns : Nodes) (a b : Start) : Nodes :=
  ns.edit a fun n => { n with succ := n.succ.erase b }

/-- Takes `a` out of the nodes that lead to `b`. -/
def erasePred (ns : Nodes) (b a : Start) : Nodes :=
  ns.edit b fun n => { n with pred := n.pred.erase a }

/-- Makes a way from `a` to `b`, unless there is one. -/
def link (ns : Nodes) (a b : Start) : Nodes := (ns.addSucc a b).addPred b a

/-- Makes a way from `a` to `b` by falling through. -/
def fallTo (ns : Nodes) (a b : Start) : Nodes :=
  (ns.link a b).edit a fun n => { n with fall := some b }

/-- Forgets the ways into live nodes that come from nodes which are not. -/
def forget (ns : Nodes) (live : List Start) : Nodes :=
  ns.map fun n =>
    if live.contains n.start then { n with pred := n.pred.filter live.contains } else n

/-- Whether `d` is reached only by falling through from `prev`, and only hops to the
node `next` that follows it. -/
def isDetour (ns : Nodes) (prev d next : Start) : Bool :=
  (ns.node d).isHopOnly && (ns.node d).pred = [prev] && (ns.node prev).fall = some d
    && (ns.node d).succ = [next] && next ≠ d

/-- Lets `prev` fall through to `next` directly, without the detour by `d`. -/
def bypass (ns : Nodes) (prev d next : Start) : Nodes :=
  ((ns.eraseSucc prev d).erasePred next d).fallTo prev next

/-- Whether `d` always continues with the node `e` that follows it, and nothing else
leads to `e`. -/
def isChain (ns : Nodes) (d e : Start) : Bool :=
  (ns.node d).succ = [e] && !(ns.node d).code.getLast?.any (·.op = .branch) && e ≠ d
    && (ns.node e).pred.length = 1

/-- Lets `s` be reached from `d` instead of `e`. -/
def takeOver (d e : Start) (ns : Nodes) (s : Start) : Nodes :=
  (ns.erasePred s e).addPred s d

/-- Makes `d` go on with the code of `e` and where `e` leads; `e` is left empty. -/
def merge (ns : Nodes) (d e : Start) : Nodes :=
  let succ := (ns.node e).succ
  let ns := ns.edit d fun n => { n with toDraft := n.join (ns.node e).toDraft }
  let ns := succ.foldl (takeOver d e) ns
  ns.edit e fun n => { n with code := [], succ := [], pred := [] }

end Nodes

/-! ## Layout order -/

/-- The nodes of a routine, and those among them that have been placed. -/
structure Web where
  nodes : Nodes
  /-- The names of the nodes in layout order. -/
  order : List Start

namespace Web

/-- Reads the code from index `i` on.  `cur` is the node that control is in before, if it
can get here. -/
def scan (i : Nat) (l : Location) (cur : Option Start) (w : Web) : List Instr → Web
  | [] => { w with nodes := cur.elim w.nodes w.nodes.finish }
  | p :: code =>
    let l := l.after p
    match p.op with
    | .target =>
      let next := Start.label p.label
      let ns := cur.elim w.nodes (w.nodes.fallTo · next)
      scan (i + 1) l (some next) ⟨(ns.push next p).locate next l, w.order ++ [next]⟩ code
    | .branch =>
      let next := Start.after i
      let ns := cur.elim w.nodes fun s =>
        ((w.nodes.push s p).link s (.label p.label)).fallTo s next
      scan (i + 1) l (some next) ⟨ns.locate next l, w.order ++ [next]⟩ code
    | .hop =>
      let ns := cur.elim w.nodes fun s => (w.nodes.push s p).link s (.label p.label)
      scan (i + 1) l none ⟨ns, w.order⟩ code
    | _ =>
      let ns := cur.elim w.nodes (w.nodes.push · p)
      if p.transfers then scan (i + 1) l none ⟨ns, w.order⟩ code
      else scan (i + 1) l cur ⟨cur.elim ns (ns.locate · l), w.order⟩ code

/-- The web of a list of instructions, before any node is dropped or merged. -/
def read (code : List Instr) : Web :=
  scan 0 {} (some .entry) ⟨Nodes.locate [] .entry {}, [.entry]⟩ code

/-- Whether every node that has been made has been placed, and none of them twice. -/
def isWhole (w : Web) : Bool :=
  w.order.all (w.order.count · = 1) && w.nodes.all (w.order.contains ·.start)

/-- What the first node leads to, in layout order. -/
def reached (w : Web) : List Start :=
  Search.visited (fun s => (w.nodes.node s).succ) w.order (w.order.take 1)

/-- Keeps what the first node leads to. -/
def dropUnreached (w : Web) : Web := ⟨w.nodes.forget w.reached, w.reached⟩

/-- Drops the detours among the nodes after `prev`; `done` holds the nodes before it, the
last one first. -/
def elideAfter (ns : Nodes) (done : List Start) (prev : Start) : List Start → Web
  | d :: next :: rest =>
    if ns.isDetour prev d next then elideAfter (ns.bypass prev d next) done prev (next :: rest)
    else elideAfter ns (prev :: done) d (next :: rest)
  | rest => ⟨ns, done.reverse ++ prev :: rest⟩

/-- Drops the nodes that only hop to where falling through leads anyway. -/
def elideHops (w : Web) : Web :=
  match w.order with
  | [] => w
  | d :: rest => elideAfter w.nodes [] d rest

/-- Joins `d` with the nodes after it as long as they form a chain, and goes on from the
first that does not; `done` holds the nodes before it, the last one first. -/
def mergeAfter (ns : Nodes) (done : List Start) (d : Start) : List Start → Web
  | [] => ⟨ns, done.reverse ++ [d]⟩
  | e :: rest =>
    if ns.isChain d e then mergeAfter (ns.merge d e) done d rest
    else mergeAfter ns (d :: done) e rest

/-- Joins every node with the chain that starts at it. -/
def mergeChains (w : Web) : Web :=
  match w.order with
  | [] => w
  | d :: rest => mergeAfter w.nodes [] d rest

/-- The place of a node in layout order, or 0 if it has none. -/
def index (w : Web) (s : Start) : Nat := (w.order.idxOf? s).getD 0

end Web

end StackFlow
