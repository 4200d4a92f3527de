/-!
# Unsigned numbers with a base

An unsigned 64-bit number in decimal, or in binary, octal or hexadecimal after
`0b`, `0o` or `0x` of either case; a plain leading zero also means octal.  Single
underscores may stand between digits and after the base.
-/

namespace StackFlow.Unsigned

/-- The base a text announces, with the digits and underscores after it, and whether
the base is written in two characters. -/
def splitBase : List Char → Nat × List Char × Bool
  | '0' :: c :: d :: rest =>
    match c.toLower with
    | 'b' => (2, d :: rest, true)
    | 'o' => (8, d :: rest, true)
    | 'x' => (16, d :: rest, true)
    | _ => (8, c :: d :: rest, false)
  | '0' :: rest => (8, rest, false)
  | cs => (10, cs, false)

/-- The value of a digit in a base of at most 36. -/
def digit? (base : Nat) (c : Char) : Option Nat :=
  let d :=
    if c.isDigit then some (c.toNat - '0'.toNat)
    else if c.isAlpha then some (c.toLower.toNat - 'a'.toNat + 10)
    else none
  d.filter (· < base)

/-- The value of a run of digits and underscores. -/
def value? (base : Nat) : (acc : Nat) → List Char → Option Nat
  | acc, [] => some acc
  | acc, '_' :: cs => value? base acc cs
  | acc, c :: cs =>
    match digit? base c with
    | some d => value? base (base * acc + d) cs
    | none => none

/-- Whether every underscore stands between digits; `afterDigit` says whether the
character before was one, or the end of a base. -/
def underscoresOk (afterDigit : Bool) : List Char → Bool
  | [] => true
  | ['_'] => false
  | '_' :: d :: cs => afterDigit && d ≠ '_' && underscoresOk false (d :: cs)
  | _ :: cs => underscoresOk true cs

/-- The number a text stands for. -/
def read? (s : String) : Option Nat :=
  let cs := s.toList
  if cs.isEmpty then none
  else
    let (base, digits, marked) := splitBase cs
    -- a leading zero that means octal is itself a digit
    let checked := if marked then underscoresOk true digits else underscoresOk false cs
    match value? base 0 digits with
    | some n => if n < UInt64.size && checked then some n else none
    | none => none

end StackFlow.Unsigned
