import StackFlow.Text.Quoted

/-!
# Strings in a TOML document

The four forms of strings: with or without escapes, on one line or on several.

* A string on several lines may end in up to two more of its own quotation marks; a
  doubled backslash before them admits a third.
* In such a string a backslash at the end of a line joins it to the next text.
-/

namespace StackFlow.Toml

/-- Whether the character is a blank within a line. -/
def isBlank (c : Char) : Bool := c = ' ' || c = '\t'

/-- Whether the character belongs to a line end. -/
def isLineEnd (c : Char) : Bool := c = '\n' || c = '\r'

/-- The character that an escape of `count` hexadecimal digits stands for. -/
def codePoint? (count : Nat) (cs : List Char) : Option Char :=
  match Text.takeHex? count cs with
  | some n => if Text.isScalar n then some (Char.ofNat n) else none
  | none => none

/-- The character that a one-letter escape stands for. -/
def shortEscape? : Char → Option Char
  | 'b' => some '\x08'
  | 't' => some '\t'
  | 'n' => some '\n'
  | 'f' => some '\x0c'
  | 'r' => some '\r'
  | 'e' => some '\x1b'
  | '"' => some '"'
  | '\\' => some '\\'
  | _ => none

/-- The character an escape after a backslash stands for, and how many characters it
takes. -/
def escape? : List Char → Option (Char × Nat)
  | 'x' :: cs => (codePoint? 2 cs).map fun c => (c, 3)
  | 'u' :: cs => (codePoint? 4 cs).map fun c => (c, 5)
  | 'U' :: cs => (codePoint? 8 cs).map fun c => (c, 9)
  | c :: _ => (shortEscape? c).map fun d => (d, 1)
  | [] => none

/-- How a string ends and what it may hold. -/
structure Quotes where
  mark : Char
  /-- Whether backslashes start escapes. -/
  escapes : Bool
  /-- Whether the string is closed by three marks and may span lines. -/
  isLong : Bool

/-- The number of marks at the front. -/
def leadingMarks (q : Quotes) (cs : List Char) : Nat := (cs.takeWhile (· = q.mark)).length

/-- The rest of a string and what follows it.  `skip` characters belong to what was
read before; `doubled` says whether a doubled backslash stands right before. -/
def stringRest? (q : Quotes) (acc : List Char) (skip : Nat) (doubled : Bool) :
    List Char → Option (String × List Char)
  | [] => none
  | c :: cs =>
    match skip with
    | k + 1 => stringRest? q acc k doubled cs
    | 0 =>
      if c = q.mark then
        if !q.isLong then some (String.ofList acc.reverse, cs)
        else
          let n := leadingMarks q (c :: cs)
          if n < 3 then stringRest? q (c :: acc) 0 false cs
          else if n ≤ (if doubled then 6 else 5) then
            some (String.ofList (acc.reverse ++ List.replicate (n - 3) q.mark), cs.drop (n - 1))
          else none
      else if c = '\\' && q.escapes then
        let gap := cs.takeWhile fun d => isBlank d || isLineEnd d
        if q.isLong && gap.contains '\n' then stringRest? q acc gap.length false cs
        else
          match escape? cs with
          | some (d, n) => stringRest? q (d :: acc) n (cs.head? = some '\\') cs
          | none => none
      else if isLineEnd c && !q.isLong then none
      else stringRest? q (c :: acc) 0 false cs

/-- Skips one line end. -/
def skipLineEnd : List Char → List Char
  | '\n' :: cs => cs
  | '\r' :: '\n' :: cs => cs
  | cs => cs

/-- A string on one line, and what follows it. -/
def shortString? : List Char → Option (String × List Char)
  | '"' :: cs => stringRest? ⟨'"', true, false⟩ [] 0 false cs
  | '\x27' :: cs => stringRest? ⟨'\x27', false, false⟩ [] 0 false cs
  | _ => none

/-- A string in any of the four forms, and what follows it.  A line end right after
three opening marks is dropped. -/
def string? : List Char → Option (String × List Char)
  | '"' :: '"' :: '"' :: cs => stringRest? ⟨'"', true, true⟩ [] 0 false (skipLineEnd cs)
  | '\x27' :: '\x27' :: '\x27' :: cs =>
    stringRest? ⟨'\x27', false, true⟩ [] 0 false (skipLineEnd cs)
  | cs => shortString? cs

end StackFlow.Toml
