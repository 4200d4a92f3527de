import StackFlow.Text.Printable

/-!
# Quoted text

A text in double quotes, with an escape for every character that is not printable.

* `quote` writes a text in quotes.
* `isQuoted` recognises the texts in quotes: a quote, then characters other than a
  quote, a line end or a backslash, or escapes, and a quote at the very end.
-/

namespace StackFlow.Text

/-! ## Writing -/

/-- The hexadecimal digits of `n` in lower case, padded with zeros to `width`. -/
def hex (width n : Nat) : String :=
  String.ofList (List.leftpad width '0' (Nat.toDigits 16 n))

/-- The escape that stands for a character that may not stand as it is. -/
def escape (c : Char) : String :=
  match c with
  | '\x07' => "\\a"
  | '\x08' => "\\b"
  | '\x0c' => "\\f"
  | '\n' => "\\n"
  | '\r' => "\\r"
  | '\t' => "\\t"
  | '\x0b' => "\\v"
  | c =>
    let n := c.toNat
    if n < 0x20 || n = 0x7f then "\\x" ++ hex 2 n
    else if n < 0x10000 then "\\u" ++ hex 4 n
    else "\\U" ++ hex 8 n

/-- One character as it is written between quotes. -/
def quoteChar (c : Char) : String :=
  if c = '"' then "\\\""
  else if c = '\\' then "\\\\"
  else if isPrintable c then c.toString
  else escape c

/-- The text in double quotes. -/
def quote (s : String) : String :=
  "\"" ++ String.join (s.toList.map quoteChar) ++ "\""

/-! ## Recognising -/

/-- Whether the character is a hexadecimal digit of either case. -/
def isHexDigit (c : Char) : Bool :=
  c.isDigit || ('a' ≤ c && c ≤ 'f') || ('A' ≤ c && c ≤ 'F')

/-- The value of a hexadecimal digit. -/
def hexDigitValue (c : Char) : Nat :=
  if c.isDigit then c.toNat - '0'.toNat
  else if 'a' ≤ c then c.toNat - 'a'.toNat + 10
  else c.toNat - 'A'.toNat + 10

/-- The number written by hexadecimal digits. -/
def hexValue (cs : List Char) : Nat := cs.foldl (fun n c => 16 * n + hexDigitValue c) 0

/-- Whether the number is a Unicode scalar value. -/
def isScalar (n : Nat) : Bool := n < 0xd800 || (0xdfff < n && n < 0x110000)

/-- The number written by exactly `count` leading hexadecimal digits. -/
def takeHex? (count : Nat) (cs : List Char) : Option Nat :=
  let digits := cs.take count
  if digits.length = count && digits.all isHexDigit then some (hexValue digits) else none

/-- How many characters the escape after a backslash takes, if it is one. -/
def escapeLength? : List Char → Option Nat
  | 'x' :: cs => (takeHex? 2 cs).map fun _ => 3
  | 'u' :: cs =>
    match takeHex? 4 cs with
    | some n => if isScalar n then some 5 else none
    | none => none
  | 'U' :: cs =>
    match takeHex? 8 cs with
    | some n => if isScalar n then some 9 else none
    | none => none
  | c :: cs =>
    if "abfnrtv\\\"".toList.contains c then some 1
    else if '0' ≤ c && c ≤ '3' && (cs.take 2).length = 2
        && (cs.take 2).all (fun d => '0' ≤ d && d ≤ '7') then some 3
    else none
  | [] => none

/-- Whether the characters are the inside of a quoted text and its closing quote,
with nothing after it.  `skip` characters belong to an escape already read. -/
def isQuotedRest (skip : Nat) : List Char → Bool
  | [] => false
  | c :: cs =>
    match skip with
    | k + 1 => isQuotedRest k cs
    | 0 =>
      if c = '"' then cs.isEmpty
      else if c = '\n' then false
      else if c = '\\' then
        match escapeLength? cs with
        | some k => isQuotedRest k cs
        | none => false
      else isQuotedRest 0 cs

/-- Whether the whole text is a text in double quotes. -/
def isQuoted (s : String) : Bool :=
  match s.toList with
  | '"' :: cs => isQuotedRest 0 cs
  | _ => false

end StackFlow.Text
