import StackFlow.Number.Shortest
import StackFlow.Study

/-!
# Graphviz drawing

A graph in the DOT format, one record per block.  `Annotations` selects what the
records and edges say besides the block numbers.
-/

namespace StackFlow.Dot

/-- What a drawing shows. -/
structure Annotations where
  instructions : Bool
  liveness : Bool
  defUse : Bool
  preferences : Bool
  phis : Bool
  weights : Bool
  exit : Bool
deriving DecidableEq, Inhabited

/-- The annotations selected by the low seven bits of a number. -/
def Annotations.ofBits (n : Nat) : Annotations where
  instructions := n.testBit 0
  liveness := n.testBit 1
  defUse := n.testBit 2
  preferences := n.testBit 3
  phis := n.testBit 4
  weights := n.testBit 5
  exit := n.testBit 6

/-! ## Identifiers -/

/-- Whether the character may begin an identifier. -/
def isIdentStart (c : Char) : Bool :=
  c.isAlpha || c = '_' || (0x80 ≤ c.toNat && c.toNat ≤ 0xff)

/-- Whether the text is an identifier. -/
def isIdent (s : String) : Bool :=
  match s.toList with
  | [] => false
  | c :: cs => isIdentStart c && cs.all fun d => isIdentStart d || d.isDigit

/-- Whether the characters are a decimal number without a sign. -/
def isUnsignedNumeral (cs : List Char) : Bool :=
  let whole := cs.takeWhile (·.isDigit)
  match cs.dropWhile (·.isDigit) with
  | [] => !whole.isEmpty
  | '.' :: rest => rest.all (·.isDigit) && !(whole.isEmpty && rest.isEmpty)
  | _ => false

/-- Whether the text is a decimal number. -/
def isNumeral (s : String) : Bool :=
  match s.toList with
  | '-' :: cs => isUnsignedNumeral cs
  | cs => isUnsignedNumeral cs

/-- Whether the text is in angle brackets. -/
def isMarkup (s : String) : Bool :=
  let cs := s.toList
  2 ≤ cs.length && cs.head? = some '<' && cs.getLast? = some '>'

/-- The words that mean something in the format, whatever their case. -/
def keywords : List String := ["node", "edge", "graph", "digraph", "subgraph", "strict"]

/-- A name or value as it is written: as it is where the format allows it, and in
quotes otherwise. -/
def ident (s : String) : String :=
  if keywords.contains s.toLower then Text.quote s
  else if isIdent s || isNumeral s || Text.isQuoted s || isMarkup s then s
  else Text.quote s

/-! ## Records -/

/-- A character of an instruction as it is written in a record. -/
def recordChar (c : Char) : String :=
  if "\x7b\x7d|<>\"".toList.contains c then "\\" ++ c.toString else c.toString

/-- An instruction as it is written in a record. -/
def recordText (s : String) : String := String.join (s.toList.map recordChar)

/-- Preferences as pairs of temporary and place. -/
def residenceText (rs : Residences) : String :=
  String.intercalate "," <| rs.map fun (t, r) =>
    s!"{t.toInt}:" ++ (if r = .memory then "mem" else "reg")

/-- What the records show of a graph. -/
structure Content where
  graph : Graph
  show? : Annotations
  preferences : Preferences
  phis : Array TempSet
  weights : Array Float

/-- The record of block `i`. -/
def record (c : Content) (i : Nat) : String :=
  let b := c.graph.block i
  let a := c.show?
  let given := fun (on : Bool) (s : Unit → String) => if on then [s ()] else []
  let fields :=
    [s!"Block {i}"]
    ++ given a.weights (fun _ => "weight: " ++ Decimal.general (c.weights.getD i 0.0))
    ++ given a.defUse (fun _ => "uses: " ++ b.facts.uses.listing)
    ++ given a.liveness (fun _ => "live: " ++ (c.graph.liveIn i).listing)
    ++ given a.preferences (fun _ => "pref: " ++ residenceText (c.preferences.start.getD i []))
    ++ given a.phis (fun _ => "phis: " ++ (c.phis.getD i ∅).listing)
    ++ (if a.instructions then b.code.map fun p => recordText p.listing else [])
    ++ given a.defUse (fun _ => "defns: " ++ b.facts.defs.listing)
    ++ given a.liveness (fun _ => "live: " ++ (c.graph.liveOut i).listing)
    ++ given a.preferences (fun _ => "pref: " ++ residenceText (c.preferences.finish.getD i []))
    ++ given (a.exit && b.exit) (fun _ => "exits")
  "\x7b" ++ String.intercalate " | " fields ++ "\x7d"

/-! ## Document -/

/-- The definition of block `i`. -/
def nodeText (c : Content) (i : Nat) : String :=
  s!"    bb_{i} [\n        shape=record\n        label=" ++ ident (record c i) ++ "\n    ];\n"

/-- The definition of an edge; it is labelled with the preferences of its junction. -/
def edgeText (c : Content) (p s : Nat) : String :=
  let label :=
    match c.graph.childOf? p with
    | some k =>
      if c.show?.preferences then residenceText (c.preferences.junctions.getD k []) else ""
    | none => ""
  s!"    bb_{p} -> bb_{s}" ++ (if label = "" then "" else " [label=" ++ ident label ++ "]") ++ ";\n"

/-- The whole drawing. -/
def document (name : String) (c : Content) : String :=
  let edges := c.graph.layout.edges
  "digraph " ++ (if name = "" then "" else ident name ++ " ") ++ "\x7b\n"
    ++ "    graph [\n        rankdir=TB\n        ratio=2\n    ];\n"
    ++ "    node [\n        fontsize=8\n        shape=rectangle\n    ];\n\n"
    ++ "    // Node definitions.\n"
    ++ String.join (c.graph.layout.indices.map (nodeText c))
    ++ (if edges.isEmpty then "" else "\n    // Edge definitions.\n")
    ++ String.join (edges.map fun e => edgeText c e.1 e.2)
    ++ "\x7d"

/-- The drawing of a graph.  Only the facts it shows are worked out. -/
def render (name : String) (show? : Annotations) : StateM Study String := do
  let preferences ← if show?.preferences then Study.preferences else pure default
  let phis ← if show?.phis then Study.phis else pure #[]
  let graph := (← get).graph
  let weights := if show?.weights then graph.weights else #[]
  return document name { graph, show?, preferences, phis, weights }

end StackFlow.Dot
