/-!
# Shortest decimal digits of a double

A finite positive double is `m · 2 ^ q`.  Every real between the midpoints to its
two neighbours rounds to it, the midpoints included when `m` is even.
`Decimal.shortest` takes the coarsest decimal grid with a point in that interval,
and the nearest such point; of two equally near ones the even one.

`Decimal.general` writes the digits: with an exponent when the decimal exponent is
below -4 or at least 6, positionally otherwise.  `Decimal.pattern` gives the bits.
-/

namespace StackFlow.Decimal

/-- A positive double as `mantissa · 2 ^ exponent`. -/
structure Binary where
  mantissa : Nat
  exponent : Int
deriving DecidableEq

/-- The bit that a normal double has in front of its stored fraction. -/
def leadingBit : Nat := 0x10000000000000

/-- The mantissa and exponent of the bits of a nonnegative double. -/
def Binary.ofBits (bits : UInt64) : Binary :=
  let fraction := (bits &&& 0xfffffffffffff).toNat
  let exponent := ((bits >>> 52) &&& 0x7ff).toNat
  if exponent = 0 then ⟨fraction, -1074⟩ else ⟨fraction + leadingBit, (exponent : Int) - 1075⟩

/-- The reals that round to a double, all over the common denominator `scale`. -/
structure Interval where
  low : Nat
  value : Nat
  high : Nat
  scale : Nat
  /-- Whether the two ends belong to the interval. -/
  closed : Bool
deriving DecidableEq

/-- The interval of `b`; the gap below a power of two is half the gap above it. -/
def Binary.interval (b : Binary) : Interval :=
  let below := if b.mantissa = leadingBit && -1074 < b.exponent then 1 else 2
  let e := b.exponent - 2
  let up := Nat.pow 2 e.toNat
  { low := (4 * b.mantissa - below) * up
    value := 4 * b.mantissa * up
    high := (4 * b.mantissa + 2) * up
    scale := Nat.pow 2 (-e).toNat
    closed := b.mantissa % 2 = 0 }

/-- Whether `digits · 10 ^ exponent` lies in the interval. -/
def Interval.holds (i : Interval) (digits : Nat) (exponent : Int) : Bool :=
  let n := digits * Nat.pow 10 exponent.toNat * i.scale
  let d := Nat.pow 10 (-exponent).toNat
  if i.closed then i.low * d ≤ n && n ≤ i.high * d else i.low * d < n && n < i.high * d

/-- The number of decimal digits before the point; negative when zeros follow it. -/
def Interval.magnitude (i : Interval) : Int :=
  let whole := i.value / i.scale
  if whole = 0 then
    -- the number of zeros after the point
    let inverse := i.scale / i.value
    let k := (Nat.toDigits 10 inverse).length
    if i.scale = i.value * Nat.pow 10 (k - 1) then 2 - (k : Int) else 1 - (k : Int)
  else ((Nat.toDigits 10 whole).length : Int)

/-- The nearest point of the grid of step `10 ^ exponent` in the interval. -/
def Interval.onGrid (i : Interval) (exponent : Int) : Option Nat :=
  let n := i.value * Nat.pow 10 (-exponent).toNat
  let d := i.scale * Nat.pow 10 exponent.toNat
  let below := n / d
  let rest := n % d
  let nearest :=
    if 2 * rest < d then below
    else if d < 2 * rest then below + 1
    else if below % 2 = 0 then below else below + 1
  let other := if nearest = below then below + 1 else below
  if i.holds nearest exponent then some nearest
  else if i.holds other exponent then some other
  else none

/-- Decimal digits and the place of the point: `0.digits · 10 ^ point`. -/
structure Digits where
  digits : List Char
  point : Int
deriving DecidableEq

/-- The digits of `n · 10 ^ exponent` without trailing zeros. -/
def Digits.ofGrid (n : Nat) (exponent : Int) : Digits :=
  let ds := Nat.toDigits 10 n
  let kept := (ds.reverse.dropWhile (· = '0')).reverse
  ⟨kept, ds.length + exponent⟩

/-- The fewest digits that round to the double. -/
def shortest (b : Binary) : Digits :=
  let i := b.interval
  let m := i.magnitude
  let grids := (List.range 17).filterMap fun k =>
    let exponent := m - (k + 1 : Nat)
    (i.onGrid exponent).map fun n => Digits.ofGrid n exponent
  grids.headD ⟨['0'], 1⟩

/-- Digits with a point after the first and an exponent of at least two digits. -/
def Digits.scientific (d : Digits) : String :=
  let e := d.point - 1
  let exponent := String.ofList (List.leftpad 2 '0' (Nat.toDigits 10 e.natAbs))
  let rest := d.digits.drop 1
  String.ofList (d.digits.take 1)
    ++ (if rest.isEmpty then "" else "." ++ String.ofList rest)
    ++ (if e < 0 then "e-" else "e+") ++ exponent

/-- Digits with the point in its place. -/
def Digits.positional (d : Digits) : String :=
  let count := d.digits.length
  if d.point ≤ 0 then
    "0." ++ String.ofList (List.replicate (-d.point).toNat '0' ++ d.digits)
  else if count ≤ d.point.toNat then
    String.ofList (d.digits ++ List.replicate (d.point.toNat - count) '0')
  else
    String.ofList (d.digits.take d.point.toNat) ++ "."
      ++ String.ofList (d.digits.drop d.point.toNat)

/-- The shortest text of a nonnegative double, or the name of one that is not
finite. -/
def general (x : Float) : String :=
  let b := Binary.ofBits x.toBits
  if x.isNaN then "NaN"
  else if x.isInf then "+Inf"
  else if b.mantissa = 0 then "0"
  else
    let d := shortest b
    let e := d.point - 1
    if e < -4 || 6 ≤ e then d.scientific else d.positional

/-- The bits of a double.  What is no number is taken to come from a product of zero and
infinity, which has its sign set. -/
def pattern (x : Float) : UInt64 := if x.isNaN then 0xfff8000000000000 else x.toBits

end StackFlow.Decimal
