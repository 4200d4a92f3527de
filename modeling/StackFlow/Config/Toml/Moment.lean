/-!
# Dates and times

How a TOML document writes a point in time: a date, a time of day, or a date and a
time with or without an offset from UTC.  Date and time are divided by `T` or by a
single space, seconds and their fraction may be missing, and all other fields have
their full width.
-/

namespace StackFlow.Toml.Moment

/-- Whether the character may stand in a point in time. -/
def isPart (c : Char) : Bool := c.isDigit || "-:TtZz .+".toList.contains c

/-- The number that two leading digits write, and what follows them. -/
def twoDigits? : List Char → Option (Nat × List Char)
  | a :: b :: cs =>
    if a.isDigit && b.isDigit then
      some (10 * (a.toNat - '0'.toNat) + (b.toNat - '0'.toNat), cs)
    else none
  | _ => none

/-- What follows two leading digits that write a number of at most `most`. -/
def field? (most : Nat) (cs : List Char) : Option (List Char) :=
  match twoDigits? cs with
  | some (n, rest) => if n ≤ most then some rest else none
  | none => none

/-- Whether the year has a 29th of February. -/
def isLeap (year : Nat) : Bool := year % 4 = 0 && (year % 100 ≠ 0 || year % 400 = 0)

/-- The number of days of a month. -/
def daysIn (year month : Nat) : Nat :=
  if month = 2 then if isLeap year then 29 else 28
  else if [4, 6, 9, 11].contains month then 30
  else 31

/-- What follows a leading date. -/
def date? (cs : List Char) : Option (List Char) := do
  let (century, cs) ← twoDigits? cs
  let (year, cs) ← twoDigits? cs
  let '-' :: cs := cs | none
  let (month, cs) ← twoDigits? cs
  let '-' :: cs := cs | none
  let (day, cs) ← twoDigits? cs
  if 1 ≤ month && month ≤ 12 && 1 ≤ day && day ≤ daysIn (100 * century + year) month then
    some cs
  else none

/-- What follows the fraction of a second, if there is one. -/
def skipFraction : List Char → List Char
  | '.' :: c :: cs => if c.isDigit then cs.dropWhile Char.isDigit else '.' :: c :: cs
  | cs => cs

/-- What follows a leading time of day. -/
def clock? (cs : List Char) : Option (List Char) := do
  let ':' :: cs ← field? 23 cs | none
  match ← field? 59 cs with
  | ':' :: cs => return skipFraction (← field? 59 cs)
  | cs => return cs

/-- Whether the characters are an offset from UTC, of at most 24 hours and 60
minutes. -/
def isOffset : List Char → Bool
  | ['Z'] => true
  | sign :: cs =>
    (sign = '+' || sign = '-')
      && match field? 24 cs with
        | some (':' :: cs) => field? 60 cs = some []
        | _ => false
  | [] => false

/-- The letters of a point in time in upper case, with `T` for the space before the
time. -/
def normalize (cs : List Char) : List Char :=
  cs.map fun c => if c = 't' || c = ' ' then 'T' else if c = 'z' then 'Z' else c

/-- Whether the characters write a point in time. -/
def isValid (cs : List Char) : Bool :=
  let cs := normalize cs
  match date? cs with
  | some [] => true
  | some ('T' :: cs) =>
    match clock? cs with
    | some rest => rest.isEmpty || isOffset rest
    | none => false
  | some _ => false
  | none => clock? cs = some []

end StackFlow.Toml.Moment
