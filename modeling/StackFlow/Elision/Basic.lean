import StackFlow.Elision.Aliases
import StackFlow.Elision.Report
import StackFlow.Variants

/-!
# Elision

What the elision passes share: the variants they may use, the forests and aliases
of the graph, and the graph with the exchanges done so far.  Exchanging an
instruction keeps its shape, so the forests stay valid throughout.

A pass that runs into a misuse stops where it is; what it has exchanged so far stays
exchanged.
-/

namespace StackFlow

/-- What the passes know of a graph, whatever they exchange. -/
structure Context where
  variants : Variants
  forests : Array Forest
  aliases : Aliases
deriving Inhabited

/-- A graph with the exchanges done so far. -/
structure Progress where
  graph : Graph
  report : Report := {}
deriving Inhabited

/-- A step that exchanges instructions of a graph, and stops at a misuse. -/
abbrev Elision := ExceptT Misuse (StateM Progress)

/-- Exchanges the instruction at place `i` of block `b`, and reports it. -/
def Elision.replace (reason : Reason) (b i : Nat) (p : Instr) : Elision Unit := do
  let s ← get
  match s.graph.instr? b i, s.graph.replace b i p with
  | some old, .ok graph =>
    let done : Substitution := { reason, spot := ⟨b, i⟩, old, new := p }
    set { s with graph, report := ⟨s.report.substitutions.push done⟩ : Progress }
  | none, _ => throw .outOfRange
  | _, .error m => throw m

namespace Context

/-- The instruction at the root of a tree of code, if there is a tree. -/
def at? (code : List Instr) (t : Option Tree) : Option Instr := t.bind fun t => code[t.index]?

/-- The class of a tracked reference that the tree loads. -/
def loadedClass? (c : Context) (code : List Instr) (t : Option Tree) : Option Int64 :=
  match at? code t with
  | some p => if p.op = .tload && p.ty = .reference then c.aliases.class? p.temp else none
  | none => none

/-- The class of a tracked temporary that the tree stores a new object into. -/
def allocatedClass? (c : Context) (code : List Instr) (t : Tree) : Option Int64 :=
  match code[t.index]?, at? code (t.operand? 0) with
  | some p, some v =>
    if p.op = .tstore && c.variants.isAllocation v then c.aliases.class? p.temp else none
  | _, _ => none

/-- The forest of block `b`. -/
def forest (c : Context) (b : Nat) : Forest := c.forests.getD b default

end Context

end StackFlow
