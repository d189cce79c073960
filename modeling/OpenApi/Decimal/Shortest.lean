import OpenApi.Decimal.Binary64

/-!
# Shortest decimal digits

The fewest decimal digits that round to a given double, and the text of a double from them. For
each count of digits the two neighbours of the value on that decimal grid are tried; the first grid
with a neighbour that rounds to the double wins, of two such neighbours the nearer one, and of two
equally near ones the even one.
-/

namespace OpenApi.Decimal

/-- A positive decimal number: `digits` with the point after the first digit, times
`10 ^ exponent`. -/
structure Scientific where
  digits : List Nat
  exponent : Int
deriving DecidableEq, Inhabited

/-! ## Digits -/

/-- The ratio `num / den` times a power of ten. -/
def scaleByTen (num den : Nat) (power : Int) : Nat × Nat :=
  if 0 ≤ power then (num * Nat.pow 10 power.toNat, den)
  else (num, den * Nat.pow 10 (-power).toNat)

/-- Whether `10 ^ e ≤ num / den`. -/
def tenPowerLe (num den : Nat) (e : Int) : Bool :=
  let scaled := scaleByTen num den (-e)
  scaled.2 ≤ scaled.1

/-- The exponent of the leading decimal digit of `num / den`. -/
def leadingExponent (num den : Nat) : Int :=
  let estimate : Int := ((Nat.log2 num : Int) - Nat.log2 den) * 30103 / 100000
  ([estimate + 2, estimate + 1, estimate, estimate - 1].find? (tenPowerLe num den)).getD
    (estimate - 2)

/-- The reals that round to a finite double: twice-scaled ends over a common denominator, and
whether the ends belong to them. -/
structure Interval where
  low : Nat
  high : Nat
  den : Nat
  closed : Bool

/-- The reals that round to a finite double other than zero. Below a power of two the doubles lie
twice as dense. -/
def Interval.of (x : Binary64) : Interval :=
  let r := x.ratio
  let unit := r.1 / x.significand
  let below := if x.significand = Nat.pow 2 52 ∧ x.exponentBits > 1 then unit else 2 * unit
  { low := 4 * r.1 - below, high := 4 * r.1 + 2 * unit, den := 4 * r.2,
    closed := x.significand % 2 = 0 }

/-- Whether `num / den` is in the interval. -/
def Interval.contains (i : Interval) (num den : Nat) : Bool :=
  let n := num * i.den
  if i.closed then i.low * den ≤ n && n ≤ i.high * den else i.low * den < n && n < i.high * den

/-- The point of a decimal grid that rounds to the double, if the grid has one: `digit` counts
steps of `10 ^ power`. -/
def gridPoint? (i : Interval) (num den : Nat) (power : Int) : Option Nat :=
  let scaled := scaleByTen num den (-power)
  let down := scaled.1 / scaled.2
  let inside (digit : Nat) : Bool :=
    let point := scaleByTen digit 1 power
    i.contains point.1 point.2
  let rest := 2 * (scaled.1 % scaled.2)
  match inside down, inside (down + 1) with
  | true, true =>
    if rest < scaled.2 ∨ (rest = scaled.2 ∧ down % 2 = 0) then some down else some (down + 1)
  | true, false => some down
  | false, true => some (down + 1)
  | false, false => none

/-- The decimal digits of a number, leading digit first. -/
def digitsOf (n : Nat) : List Nat :=
  (Nat.toDigits 10 n).map fun c => c.toNat - 0x30

/-- The digits without the zeros at their end. -/
def dropTrailingZeros (ds : List Nat) : List Nat :=
  match (ds.reverse.dropWhile (· == 0)).reverse with
  | [] => [0]
  | kept => kept

/-- The shortest decimal number that rounds to the magnitude of a finite double other than
zero. -/
def shortest (x : Binary64) : Scientific :=
  let r := x.ratio
  let i := Interval.of x
  let lead := leadingExponent r.1 r.2
  let tryGrid (count : Nat) : Option Scientific :=
    let power : Int := lead - count
    (gridPoint? i r.1 r.2 power).map fun point =>
      let ds := digitsOf point
      { digits := dropTrailingZeros ds, exponent := power + (ds.length : Int) - 1 }
  ((List.range 17).findSome? tryGrid).getD { digits := [0], exponent := 0 }

/-! ## Text -/

/-- How a double is written: the exponents written positionally, and whether a positive exponent
carries a sign. -/
structure Style where
  lowest : Int
  highest : Int
  plus : Bool

def digitChar (d : Nat) : Char := Char.ofNat (0x30 + d)

def zeros (n : Nat) : List Char := List.replicate n '0'

/-- Positional text, always with a digit on each side of the point. -/
def positional (s : Scientific) : List Char :=
  let ds := s.digits.map digitChar
  if s.exponent < 0 then '0' :: '.' :: (zeros (-s.exponent - 1).toNat ++ ds)
  else
    let whole := s.exponent.toNat + 1
    let padded := ds ++ zeros (whole - ds.length)
    let fraction := padded.drop whole
    padded.take whole ++ '.' :: (if fraction.isEmpty then ['0'] else fraction)

/-- Text with an exponent; a single digit carries no point. -/
def withExponent (style : Style) (s : Scientific) : List Char :=
  let mantissa :=
    match s.digits.map digitChar with
    | [] => []
    | [d] => [d]
    | d :: ds => d :: '.' :: ds
  let sign := if s.exponent < 0 then ['-'] else if style.plus then ['+'] else []
  mantissa ++ 'e' :: (sign ++ Nat.toDigits 10 s.exponent.natAbs)

/-- The text of a finite double. -/
def text (style : Style) (x : Binary64) : String :=
  let sign := if x.isNegative then ['-'] else []
  let body :=
    if x.isZero then ['0', '.', '0']
    else
      let s := shortest x
      if style.lowest ≤ s.exponent ∧ s.exponent ≤ style.highest then positional s
      else withExponent style s
  String.ofList (sign ++ body)

end OpenApi.Decimal
