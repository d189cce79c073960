import OpenApi.Json.Value
import OpenApi.Text

/-!
# Plain scalars by their form

The value of a plain scalar in the core schema of YAML 1.2: null, a boolean, an integer, a double
or, failing all these, its text. Integers may have a plus sign and be hexadecimal, octal or binary.
Digits with a zero in front are a text. The functions on numbers also decide which strings have to
be quoted.
-/

namespace OpenApi.Yaml

open Json

/-! ## Words -/

/-- Whether a text is a word for null. -/
def isNullWord (s : String) : Bool := ["null", "Null", "NULL", "~"].contains s

/-- The boolean that a text is a word for. -/
def boolOfWord? (s : String) : Option Bool :=
  if ["true", "True", "TRUE"].contains s then some true
  else if ["false", "False", "FALSE"].contains s then some false
  else none

/-! ## Integers -/

/-- The natural that digits of a base stand for. -/
def digitsValue? (base : Nat) (cs : List Char) : Option Nat :=
  if cs.isEmpty then none
  else
    (cs.mapM fun c => (Text.hexValue? c).filter (· < base)).map
      (·.foldl (fun n d => n * base + d) 0)

/-- The marks of the bases other than ten. -/
def baseMarks : List (List Char × Nat) := [(['0', 'x'], 16), (['0', 'o'], 8), (['0', 'b'], 2)]

/-- The natural that digits after the mark of a base stand for. -/
def markedValue? (cs : List Char) : Option Nat :=
  baseMarks.findSome? fun (mark, base) =>
    (Text.dropPrefix? mark cs).bind (digitsValue? base)

/-- The text without one sign in front. -/
def dropSign : List Char → List Char
  | [] => []
  | c :: rest => if c == '+' || c == '-' then rest else c :: rest

/-- Whether a text is digits with a zero in front, perhaps after a sign: no number. -/
def isZeroLed (cs : List Char) : Bool :=
  match dropSign cs with
  | '0' :: d :: rest => (d :: rest).all Char.isDigit
  | _ => false

/-- The natural that a text without sign stands for. -/
def naturalOf? (cs : List Char) : Option Nat :=
  (markedValue? cs).or (if isZeroLed cs then none else digitsValue? 10 cs)

/-- The integer that a text stands for. -/
def integerOf? : List Char → Option Int
  | '-' :: cs => (naturalOf? cs).map fun n => -(n : Int)
  | '+' :: cs => (naturalOf? cs).map fun n => (n : Int)
  | cs => (naturalOf? cs).map fun n => (n : Int)

/-- Whether an integer is one of JSON. -/
def isJsonInteger (n : Int) : Bool := -Int.pow 2 63 ≤ n && n < Int.pow 2 64

/-- Whether an integer has 128 bits. -/
def isWideInteger (n : Int) : Bool := -Int.pow 2 127 ≤ n && n < Int.pow 2 128

/-! ## Doubles -/

/-- The digits that come next, and what follows them. -/
def takeDecimals (cs : List Char) : List Char × List Char := cs.span Char.isDigit

/-- The value of decimal digits, zero for none. -/
def decimalsValue (cs : List Char) : Nat := (digitsValue? 10 cs).getD 0

/-- The power of ten that an exponent stands for; nothing at all is zero. -/
def exponentOf? : List Char → Option Int
  | [] => some 0
  | c :: cs =>
    if c == 'e' || c == 'E' then
      match cs with
      | '+' :: ds => (digitsValue? 10 ds).map fun n => (n : Int)
      | '-' :: ds => (digitsValue? 10 ds).map fun n => -(n : Int)
      | ds => (digitsValue? 10 ds).map fun n => (n : Int)
    else none

/-- The double that a decimal fraction stands for, unless it is beyond the largest. Digits may be
left out before or after the point, not both. -/
def decimalOf? (negative : Bool) (cs : List Char) : Option Binary64 :=
  let (whole, rest) := takeDecimals cs
  let (fraction, rest) :=
    match rest with
    | '.' :: rest => takeDecimals rest
    | rest => ([], rest)
  if whole.isEmpty && fraction.isEmpty then none
  else
    (exponentOf? rest).bind fun power =>
      Binary64.ofDecimal? negative (decimalsValue (whole ++ fraction)) (power - fraction.length)

/-- The words for what is no finite number, after a sign where they may have one. -/
def isInfinityWord (s : String) : Bool := [".inf", ".Inf", ".INF"].contains s

def isNanWord (s : String) : Bool := [".nan", ".NaN", ".NAN"].contains s

/-- Whether a text is a word for infinity or for what is no number. -/
def isNonFiniteWord (cs : List Char) : Bool :=
  isNanWord (String.ofList cs) || isInfinityWord (String.ofList (dropSign cs))

/-- The value of a text that stands for a double; what is not finite is null. -/
def doubleValue? (cs : List Char) : Option Value :=
  if isNonFiniteWord cs then some .null
  else
    let found :=
      match cs with
      | '-' :: cs => decimalOf? true cs
      | '+' :: cs => decimalOf? false cs
      | cs => decimalOf? false cs
    found.map fun x => .number (.double x)

/-! ## Values -/

/-- The value of a text that stands for an integer. Outside: it does not; inside: it is an integer
of more than 64 bits, which JSON does not have. -/
def integerValue? (cs : List Char) : Option (Option Value) :=
  match integerOf? cs with
  | none => none
  | some n =>
    if isJsonInteger n then some (some (.number (.integer n)))
    else if isWideInteger n then some none
    else none

/-- The value of a plain scalar, unless it is an integer that JSON does not have. -/
def plainValue? (s : String) : Option Value :=
  if s.isEmpty || isNullWord s then some .null
  else
    match boolOfWord? s with
    | some b => some (.bool b)
    | none =>
      match integerValue? s.toList with
      | some found => found
      | none =>
        if isZeroLed s.toList then some (.string s)
        else some ((doubleValue? s.toList).getD (.string s))

end OpenApi.Yaml
