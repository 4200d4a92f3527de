import StackFlow.Config.Toml.Moment
import StackFlow.Config.Toml.Number
import StackFlow.Config.Toml.Quoted

/-!
# Statements of a TOML document

A document as it is written: headers and keys with values, one after the other
(`Statement`).  What they add up to is said elsewhere.
-/

namespace StackFlow.Toml

/-- A key as it is written, with dots between its parts. -/
structure Key where
  /-- All parts but the last. -/
  above : List String
  last : String
deriving DecidableEq, Inhabited

/-- All parts of a key. -/
def Key.path (k : Key) : List String := k.above ++ [k.last]

/-- A value as it is written. -/
inductive Literal where
  | string (s : String)
  | integer (n : Int)
  | float
  | boolean (b : Bool)
  | moment
  | array (items : List Literal)
  | table (pairs : List (Key × Literal))
deriving Inhabited

/-- One entry of a document. -/
inductive Statement where
  /-- Opens a table. -/
  | header (key : Key)
  /-- Opens one more of the tables under a key. -/
  | itemHeader (key : Key)
  /-- Gives a key of the open table a value. -/
  | assign (key : Key) (value : Literal)

/-! ## Characters -/

/-- Whether no character is a control other than a tab or a part of a line end. -/
def isPlain : List Char → Bool
  | [] => true
  | '\r' :: cs => cs.head? = some '\n' && isPlain cs
  | c :: cs => (c = '\t' || c = '\n' || (0x20 ≤ c.toNat && c.toNat ≠ 0x7f)) && isPlain cs

/-- Skips blanks. -/
def skipBlanks (cs : List Char) : List Char := cs.dropWhile isBlank

/-- Skips blanks, comments and line ends; `inComment` says whether a comment is open. -/
def skipLines (inComment : Bool) : List Char → List Char
  | [] => []
  | c :: cs =>
    if isLineEnd c then skipLines false cs
    else if inComment || isBlank c then skipLines inComment cs
    else if c = '#' then skipLines true cs
    else c :: cs

/-- Whether nothing but blanks and a comment stands before the end of the line. -/
def endsLine (cs : List Char) : Bool :=
  match skipBlanks cs with
  | [] => true
  | c :: _ => c = '#' || isLineEnd c

/-! ## Keys -/

/-- Whether the character may stand in a key without quotes. -/
def isBare (c : Char) : Bool := c.isAlphanum || c = '_' || c = '-'

/-- One part of a key, and what follows it. -/
def keyPart? (cs : List Char) : Option (String × List Char) :=
  match cs with
  | '"' :: _ | '\x27' :: _ => shortString? cs
  | _ =>
    let part := cs.takeWhile isBare
    if part.isEmpty then none else some (String.ofList part, cs.dropWhile isBare)

/-- A key, and what follows it and the blanks after it.  The fuel bounds the number of
parts. -/
def key? : (fuel : Nat) → List Char → Option (Key × List Char)
  | 0, _ => none
  | fuel + 1, cs =>
    match keyPart? (skipBlanks cs) with
    | none => none
    | some (part, rest) =>
      match skipBlanks rest with
      | '.' :: rest => (key? fuel rest).map fun (k, rest) => (⟨part :: k.above, k.last⟩, rest)
      | rest => some (⟨[], part⟩, rest)

/-! ## Values -/

/-- Whether the character may stand in a word. -/
def isWord (c : Char) : Bool := isBare c || c = '+' || c = '.'

/-- The value of a word. -/
def word? (cs : List Char) : Option Literal :=
  if cs = "true".toList then some (.boolean true)
  else if cs = "false".toList then some (.boolean false)
  else
    match integer? cs with
    | some n => if fitsInt64 n then some (.integer n) else none
    | none => if isFloat cs then some .float else none

/-- Whether the characters begin with digits and a mark that only points in time have
there. -/
def startsMoment (cs : List Char) : Bool :=
  match cs.head?, (cs.dropWhile Char.isDigit).head? with
  | some c, some d => c.isDigit && (d = '-' || d = ':')
  | _, _ => false

/-- A point in time and what follows it; blanks that might have led on to a time of
day belong to neither. -/
def moment? (cs : List Char) : Option (Literal × List Char) :=
  let text := (cs.takeWhile Moment.isPart).reverse.dropWhile (· = ' ')
  if Moment.isValid text.reverse then some (.moment, cs.dropWhile Moment.isPart) else none

mutual

/-- A value, and what follows it.  The fuel bounds the steps. -/
def value? : (fuel : Nat) → List Char → Option (Literal × List Char)
  | 0, _ => none
  | fuel + 1, cs =>
    match cs with
    | '[' :: rest => items? fuel [] rest
    | '\x7b' :: rest => pairs? fuel [] rest
    | '"' :: _ | '\x27' :: _ => (string? cs).map fun (s, rest) => (.string s, rest)
    | _ =>
      if startsMoment cs then moment? cs
      else (word? (cs.takeWhile isWord)).map fun v => (v, cs.dropWhile isWord)

/-- The rest of an array after the items in `acc`, the last one first. -/
def items? : (fuel : Nat) → (acc : List Literal) → List Char → Option (Literal × List Char)
  | 0, _, _ => none
  | fuel + 1, acc, cs =>
    match skipLines false cs with
    | ']' :: rest => some (.array acc.reverse, rest)
    | cs =>
      match value? fuel cs with
      | none => none
      | some (v, rest) =>
        match skipLines false rest with
        | ',' :: rest => items? fuel (v :: acc) rest
        | ']' :: rest => some (.array (v :: acc).reverse, rest)
        | _ => none

/-- The rest of an inline table after the pairs in `acc`, the last one first. -/
def pairs? : (fuel : Nat) → (acc : List (Key × Literal)) → List Char →
    Option (Literal × List Char)
  | 0, _, _ => none
  | fuel + 1, acc, cs =>
    match skipLines false cs with
    | '\x7d' :: rest => some (.table acc.reverse, rest)
    | cs =>
      match key? (fuel + 1) cs with
      | some (k, '=' :: rest) =>
        match value? fuel (skipBlanks rest) with
        | none => none
        | some (v, rest) =>
          match skipLines false rest with
          | ',' :: rest => pairs? fuel ((k, v) :: acc) rest
          | '\x7d' :: rest => some (.table ((k, v) :: acc).reverse, rest)
          | _ => none
      | _ => none

end

/-! ## Statements -/

/-- A statement, and what follows it.  The fuel bounds the steps. -/
def statement? (fuel : Nat) (cs : List Char) : Option (Statement × List Char) :=
  match cs with
  | '[' :: '[' :: rest =>
    match key? fuel rest with
    | some (k, ']' :: ']' :: rest) => some (.itemHeader k, rest)
    | _ => none
  | '[' :: rest =>
    match key? fuel rest with
    | some (k, ']' :: rest) => some (.header k, rest)
    | _ => none
  | _ =>
    match key? fuel cs with
    | some (k, '=' :: rest) =>
      (value? fuel (skipBlanks rest)).map fun (v, rest) => (.assign k v, rest)
    | _ => none

/-- The statements of a document, each on lines of its own.  The fuel bounds their
number and the steps within each; as many as there are characters are enough. -/
def statements? : (fuel : Nat) → List Char → Option (List Statement)
  | 0, _ => none
  | fuel + 1, cs =>
    match skipLines false cs with
    | [] => some []
    | cs =>
      match statement? fuel cs with
      | none => none
      | some (s, rest) =>
        if endsLine rest then (statements? fuel rest).map (s :: ·) else none

/-- The statements of a text, which may begin with a byte order mark. -/
def Statement.readAll? (text : String) : Option (List Statement) :=
  let cs :=
    match text.toList with
    | '\ufeff' :: cs => cs
    | cs => cs
  if isPlain cs then statements? (cs.length + 1) cs else none

end StackFlow.Toml
