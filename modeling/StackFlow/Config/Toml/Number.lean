import StackFlow.Text.Quoted

/-!
# Numbers in a TOML document

Integers in four bases and floats, with single underscores between digits.  An
integer must fit in 64 bits, and a float must not round to infinity.
-/

namespace StackFlow.Toml

/-- Whether the characters are digits with single underscores between them. -/
def isDigits (ok : Char → Bool) : List Char → Bool
  | [] => false
  | [c] => ok c
  | '_' :: _ => false
  | c :: '_' :: cs => ok c && isDigits ok cs
  | c :: cs => ok c && isDigits ok cs

/-- The value of digits in a base, without the underscores. -/
def digitsValue (base : Nat) (cs : List Char) : Nat :=
  (cs.filter (· ≠ '_')).foldl (fun n c => base * n + Text.hexDigitValue c) 0

/-- Whether the characters are decimal digits without a leading zero. -/
def isDecimal (cs : List Char) : Bool :=
  isDigits Char.isDigit cs && (cs.length = 1 || cs.head? ≠ some '0')

/-- A sign and what follows it. -/
def splitSign : List Char → Int × List Char
  | '-' :: cs => (-1, cs)
  | '+' :: cs => (1, cs)
  | cs => (1, cs)

/-! ## Integers -/

/-- The integer a word stands for, whatever its size. -/
def integer? : List Char → Option Int
  | '0' :: 'x' :: cs => if isDigits Text.isHexDigit cs then some (digitsValue 16 cs) else none
  | '0' :: 'o' :: cs =>
    if isDigits (fun c => '0' ≤ c && c ≤ '7') cs then some (digitsValue 8 cs) else none
  | '0' :: 'b' :: cs =>
    if isDigits (fun c => c = '0' || c = '1') cs then some (digitsValue 2 cs) else none
  | cs =>
    let (sign, digits) := splitSign cs
    if isDecimal digits then some (sign * digitsValue 10 digits) else none

/-- Whether the integer fits in 64 bits. -/
def fitsInt64 (n : Int) : Bool := Int64.minValue.toInt ≤ n && n ≤ Int64.maxValue.toInt

/-! ## Floats -/

/-- The least number that rounds to infinity in 64 bits: half a unit above the
greatest finite one. -/
def overflowBound : Nat := Nat.pow 2 1024 - Nat.pow 2 970

/-- Whether `m · 10 ^ e` stays finite in 64 bits.  Only where the number of digits
does not settle it, the numbers themselves are compared. -/
def staysFinite (m : Nat) (e : Int) : Bool :=
  if m = 0 then true
  else
    let top := (Nat.toDigits 10 m).length + e
    if top ≤ 308 then true
    else if 310 ≤ top then false
    else if 0 ≤ e then m * Nat.pow 10 e.toNat < overflowBound
    else m < overflowBound * Nat.pow 10 (-e).toNat

/-- The value of the digits of an exponent.  Digits after it has reached 10000 do not
count: such an exponent is beyond all doubles, unless thousands of digits stand before
it. -/
def exponentValue (cs : List Char) : Nat :=
  (cs.filter (· ≠ '_')).foldl
    (fun e c => if e < 10000 then 10 * e + Text.hexDigitValue c else e) 0

/-- A decimal number with a fraction, an exponent or both, taken apart. -/
structure FloatWord where
  whole : List Char
  /-- The fraction with its point, or nothing. -/
  fraction : List Char
  /-- The exponent with its letter, or nothing. -/
  exponent : List Char

namespace FloatWord

/-- Takes a word without a sign apart. -/
def ofChars (cs : List Char) : FloatWord :=
  let isMark := fun c => c = 'e' || c = 'E'
  let mantissa := cs.takeWhile (!isMark ·)
  { whole := mantissa.takeWhile (· ≠ '.')
    fraction := mantissa.dropWhile (· ≠ '.')
    exponent := cs.dropWhile (!isMark ·) }

/-- Whether the parts are digits, and there is more than a whole number. -/
def isWellFormed (f : FloatWord) : Bool :=
  isDecimal f.whole
    && (f.fraction.isEmpty || isDigits Char.isDigit (f.fraction.drop 1))
    && (f.exponent.isEmpty || isDigits Char.isDigit (splitSign (f.exponent.drop 1)).2)
    && !(f.fraction.isEmpty && f.exponent.isEmpty)

/-- Whether the number is finite in 64 bits. -/
def isFinite (f : FloatWord) : Bool :=
  let places := (f.fraction.drop 1).filter (· ≠ '_')
  let (sign, power) := splitSign (f.exponent.drop 1)
  staysFinite (digitsValue 10 (f.whole ++ places)) (sign * exponentValue power - places.length)

end FloatWord

/-- Whether a word is a float: a finite decimal number with a fraction, an exponent or
both, or one of the two special values. -/
def isFloat (cs : List Char) : Bool :=
  let cs := (splitSign cs).2
  if cs = "inf".toList || cs = "nan".toList then true
  else
    let f := FloatWord.ofChars cs
    f.isWellFormed && f.isFinite

end StackFlow.Toml
