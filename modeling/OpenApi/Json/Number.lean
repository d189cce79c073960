import OpenApi.Decimal.Shortest

/-!
# JSON numbers

A number is an integer between `-2 ^ 63` and `2 ^ 64 - 1` or a double. A literal without fraction
and exponent in that range is an integer (`-0` is not: it is the double `-0.0`); every other
literal is a double. Reading a double rounds up to three times: the leading digits that fit in 64
bits, the power of ten, and their product or quotient.
-/

namespace OpenApi.Json

/-- A JSON number. -/
inductive Number where
  | integer (value : Int)
  | double (value : Binary64)
deriving DecidableEq, Inhabited

namespace Number

/-- The number if it is a natural below `2 ^ 64`. -/
def toNat? : Number → Option Nat
  | .integer (.ofNat n) => some n
  | _ => none

/-- Whether the number is an integer. -/
def isInteger : Number → Bool
  | .integer _ => true
  | .double _ => false

/-! ## Text -/

/-- Doubles in JSON text: positional from `10 ^ -5` to below `10 ^ 16`, else with a signed
exponent. -/
def doubleStyle : Decimal.Style := { lowest := -5, highest := 15, plus := true }

/-- The decimal text of an integer. -/
def integerText (n : Int) : String :=
  String.ofList ((if n < 0 then ['-'] else []) ++ Nat.toDigits 10 n.natAbs)

/-- The number as JSON text. -/
def text : Number → String
  | .integer n => integerText n
  | .double x => if x.isFinite then Decimal.text doubleStyle x else "null"

/-! ## Reading -/

/-- The largest significand that is read exactly. -/
def maxSignificand : Nat := Nat.pow 2 64 - 1

/-- The value of a decimal digit. -/
def digit? (c : Char) : Option Nat :=
  if '0' ≤ c ∧ c ≤ '9' then some (c.toNat - 0x30) else none

/-- Appends digits to a significand while it stays readable; gives the significand, how many digits
were appended, and the first digits that were not. -/
def appendDigits (significand count : Nat) : List Nat → Nat × Nat × List Nat
  | [] => (significand, count, [])
  | d :: ds =>
    if significand * 10 + d ≤ maxSignificand then
      appendDigits (significand * 10 + d) (count + 1) ds
    else (significand, count, d :: ds)

/-- The double `± significand · 10 ^ power`, as the rounded significand times or divided by the
rounded power of ten; powers beyond the largest finite one are divided by in steps. -/
def scaled? (fuel : Nat) (x : Binary64) (power : Int) : Option Binary64 :=
  if power.natAbs ≤ 308 then
    (Binary64.ofRatio? false (Nat.pow 10 power.natAbs) 1).bind fun ten =>
      if 0 ≤ power then x.mul? ten else x.div? ten
  else if x.isZero then some x
  else if 0 ≤ power then none
  else
    match fuel with
    | 0 => some (Binary64.withSign false 0)
    | fuel + 1 =>
      (Binary64.ofRatio? false (Nat.pow 10 308) 1).bind fun ten =>
        (x.div? ten).bind fun smaller => scaled? fuel smaller (power + 308)

/-- The double of a literal's sign, significand and power of ten; none beyond the largest. After
four steps of division every significand is zero. -/
def double? (negative : Bool) (significand : Nat) (power : Int) : Option Number :=
  (Binary64.ofRatio? false significand 1).bind fun x =>
    (scaled? 4 x power).map fun y => .double (if negative then y.neg else y)

/-- The largest exponent that is read; a larger one stands for zero or for no number. -/
def maxExponent : Nat := Nat.pow 2 31 - 1

/-- The number of a literal, given its sign, the digits before and after the point (none without a
point), and the sign and digits of the exponent (none without one). -/
def ofLiteral? (negative : Bool) (whole : List Nat) (fraction : Option (List Nat))
    (exponent : Option (Bool × List Nat)) : Option Number :=
  let (significand, _, dropped) := appendDigits 0 0 whole
  if fraction.isNone && exponent.isNone && dropped.isEmpty then
    if negative then
      if 0 < significand ∧ significand ≤ Nat.pow 2 63 then some (.integer (-significand))
      else double? true significand 0
    else some (.integer significand)
  else
    let (significand, scale, _) := appendDigits significand 0 (fraction.getD [])
    let power : Int := (dropped.length : Int) - scale
    match exponent with
    | none => double? negative significand power
    | some (down, ds) =>
      let e := ds.foldl (fun acc d => if acc > maxExponent then acc else acc * 10 + d) 0
      if e > maxExponent then
        if significand ≠ 0 ∧ !down then none
        else some (.double (Binary64.withSign negative 0))
      else double? negative significand (if down then power - e else power + e)

/-- Takes the decimal digits at the front of a list. -/
def takeDigits : List Char → List Nat × List Char
  | [] => ([], [])
  | c :: cs =>
    match digit? c with
    | some d => let (ds, rest) := takeDigits cs; (d :: ds, rest)
    | none => ([], c :: cs)

/-- Reads the exponent of a literal, if it has one. Outside: no literal; inside: no exponent. -/
def readExponent? (cs : List Char) : Option (Option (Bool × List Nat) × List Char) :=
  let finish (down : Bool) (cs : List Char) : Option (Option (Bool × List Nat) × List Char) :=
    match takeDigits cs with
    | ([], _) => none
    | (ds, rest) => some (some (down, ds), rest)
  match cs with
  | c :: rest =>
    if c = 'e' ∨ c = 'E' then
      match rest with
      | '+' :: rest => finish false rest
      | '-' :: rest => finish true rest
      | rest => finish false rest
    else some (none, cs)
  | [] => some (none, [])

/-- Reads a JSON number from the front of a list. -/
def read? (cs : List Char) : Option (Number × List Char) :=
  let (negative, cs) : Bool × List Char :=
    match cs with
    | '-' :: rest => (true, rest)
    | cs => (false, cs)
  let (whole, rest) := takeDigits cs
  match whole with
  | [] => none
  | 0 :: _ :: _ => none
  | whole =>
    let (fraction, rest) : Option (List Nat) × List Char :=
      match rest with
      | '.' :: rest => let (ds, rest) := takeDigits rest; (some ds, rest)
      | rest => (none, rest)
    if fraction = some [] then none
    else
      (readExponent? rest).bind fun (exponent, rest) =>
        (ofLiteral? negative whole fraction exponent).map fun n => (n, rest)

end Number

end OpenApi.Json
