import StackFlow.Graph.Basic

/-!
# Drawing of live ranges

The live ranges of all temporaries as an SVG drawing: a listing of the code with one
column per temporary beside it.  A dot marks an instruction that the temporary is
live across or that reads it, a hollow one an instruction that stores it.
-/

namespace StackFlow.Svg

/-! ## Elements -/

/-- A character as it is written in the text of an element. -/
def escapeChar (c : Char) : String :=
  match c with
  | '"' => "&#34;"
  | '\x27' => "&#39;"
  | '&' => "&amp;"
  | '<' => "&lt;"
  | '>' => "&gt;"
  | '\t' => "&#x9;"
  | '\n' => "&#xA;"
  | '\r' => "&#xD;"
  | c => if c.toNat < 0x20 || c.toNat = 0xfffe || c.toNat = 0xffff then "\ufffd" else c.toString

/-- A text as it is written in an element. -/
def escape (s : String) : String := String.join (s.toList.map escapeChar)

/-- An attribute of an element. -/
def attr (name value : String) : String := " " ++ name ++ "=\"" ++ value ++ "\""

/-- An attribute with a number. -/
def num (name : String) (n : Int) : String := attr name (toString n)

/-- A rectangle. -/
def rect (x y width height : Int) (style : String) : String :=
  "<rect" ++ num "x" x ++ num "y" y ++ num "width" width ++ num "height" height
    ++ attr "style" style ++ " />\n"

/-- A line of text. -/
def text (x y : Int) (content style : String) : String :=
  "<text" ++ num "x" x ++ num "y" y ++ attr "style" style ++ " >" ++ escape content
    ++ "</text>\n"

/-- A straight line. -/
def line (x1 y1 x2 y2 : Int) (style : String) : String :=
  "<line" ++ num "x1" x1 ++ num "y1" y1 ++ num "x2" x2 ++ num "y2" y2
    ++ attr "style" style ++ " />\n"

/-- A dot. -/
def circle (x y r : Int) (style : String) : String :=
  "<circle" ++ num "cx" x ++ num "cy" y ++ num "r" r ++ attr "style" style ++ " />\n"

/-- A drawing of the given size. -/
def document (width height : Int) (content : String) : String :=
  "<?xml version=\"1.0\"?>\n<!-- Generated by SVGo -->\n<svg" ++ num "width" width
    ++ num "height" height ++ "\n     xmlns=\"http://www.w3.org/2000/svg\""
    ++ "\n     xmlns:xlink=\"http://www.w3.org/1999/xlink\">\n" ++ content ++ "</svg>\n"

/-! ## Live points -/

/-- An instruction that a temporary is live across, by its row. -/
structure Point where
  temp : Int64
  row : Nat
  /-- Whether the instruction stores the temporary. -/
  stores : Bool

/-- The sets live at each instruction of code, and before it, when `live` is live
after it.  A temporary is live at its own access. -/
def liveAt (code : List Instr) (live : TempSet) : List TempSet × TempSet :=
  code.foldr (fun p (sets, live) =>
    let here := if p.accessesTemp then live.insert p.temp else live
    let before :=
      match p.op with
      | .tstore => live.erase p.temp
      | .tload => live.insert p.temp
      | _ => live
    (here :: sets, before)) ([], live)

/-- The live points of code whose first instruction stands in row `row`. -/
def points (row : Nat) (code : List Instr) (live : TempSet) : List Point :=
  ((code.zip (liveAt code live).1).zipIdx row).flatMap fun ((p, set), y) =>
    set.toList.map fun t => { temp := t, row := y, stores := p.stores t }

/-! ## Layout -/

/-- The row of the first instruction of each block; every block has a row for its
name before it. -/
def rows (row : Nat) : List Block → List Nat
  | [] => []
  | b :: bs => (row + 1) :: rows (row + 1 + b.code.length) bs

/-- The height of a row. -/
def rowY (row : Nat) : Int := 95 + (row : Int) * 24

/-- The drawing of a graph. -/
def render (g : Graph) : String :=
  let blocks := g.layout.toList
  let placed := blocks.zip (rows 0 blocks)
  let count : Nat := blocks.foldl (fun (n : Nat) b => n + b.code.length) 0
  let widest := (blocks.flatMap (·.code.map (·.listing.utf8ByteSize))).foldl Nat.max 0
  let temps := g.temps.toList
  let listingWidth : Int := widest * 9 + 120
  let width : Int := temps.length * 48 + listingWidth + 100
  let height : Int := (count + blocks.length) * 24 + 100
  let pts := placed.zipIdx.flatMap fun ((b, row), i) => points row b.code (g.liveOut i)
  let drawInstr := fun (row : Nat) (p : Instr) (i : Nat) =>
    let y := rowY (row + i)
    text listingWidth (y + 5) p.listing
        "fill:black;font-size:16px;font-family:monospace;text-anchor:end"
      ++ line (listingWidth + 10) y (temps.length * 48 + listingWidth + 50) y "stroke:gray"
  let drawBlock := fun (b : Block) (row i : Nat) =>
    let y := rowY (row - 1)
    text 16 (y + 5) s!"bb_{i}" "fill:gray;font-size:16px;font-family:monospace"
      ++ line 10 (y - 11) (listingWidth + 5) (y - 11) "stroke:lightgray"
      ++ String.join (b.code.zipIdx.map fun (p, k) => drawInstr row p k)
  let drawPoint := fun (x : Int) (p : Point) =>
    circle x (rowY p.row) 4 <|
      if p.stores then "fill:white;stroke:black;stroke-width:2"
      else "fill:black;stroke:black;stroke-width:2"
  let drawTemp := fun (t : Int64) (i : Nat) =>
    let x := listingWidth + i * 48 + 50
    let own := pts.filter (·.temp = t)
    text x 70 s!"t{t.toInt}"
        "fill:black;font-size:16px;font-family:monospace;text-anchor:middle"
      ++ (match own.head?, own.getLast? with
          | some a, some b =>
            line x (rowY a.row) x (rowY b.row) "stroke:black;stroke-width:3"
          | _, _ => "")
      ++ String.join (own.map (drawPoint x))
  document width height <|
    rect 0 0 width height "fill:white"
      ++ String.join (placed.zipIdx.map fun ((b, row), i) => drawBlock b row i)
      ++ String.join (temps.zipIdx.map fun (t, i) => drawTemp t i)

end StackFlow.Svg
