import OpenApi.Yaml.Core
import OpenApi.Decimal.Shortest
import OpenApi.Yaml.Cursor

/-!
# Scalars as YAML texts

How a string is written: plain where it reads back as itself, in single quotes where it reads as
something else or has an indicator in it, as a literal block where it has several lines, and in
double quotes, with escapes, where nothing else will do.
-/

namespace OpenApi.Yaml

/-! ## Characters -/

/-- The characters that need no escape: no control characters but line feed, no byte order mark. -/
def isWritable (c : Char) : Bool :=
  let n := c.toNat
  n == 0x0A || (0x20 ≤ n && n ≤ 0x7E) || (0xA0 ≤ n && n ≤ 0xD7FF) ||
    (0xE000 ≤ n && n ≤ 0xFFFD && n != 0xFEFF) || 0x10000 ≤ n

/-- The characters that end a line. -/
def endsLine (c : Char) : Bool := isBreak c || c == '\r' || c.toNat == 0x85

/-- Whether a character, or the end of the text, separates words. -/
def separates (c : Option Char) : Bool :=
  match c with
  | none => true
  | some c => isBlank c || endsLine c || c.toNat == 0

/-! ## Analysis -/

/-- Indicators that no plain scalar begins with. -/
def leadingIndicators : List Char :=
  ['#', ',', '[', ']', '{', '}', '&', '*', '!', '|', '>', Char.ofNat 0x27, '"', '%', '@',
    Char.ofNat 0x60]

/-- Whether a text begins like an indicator. -/
def beginsAsIndicator (cs : List Char) : Bool :=
  cs.take 3 == ['-', '-', '-'] || cs.take 3 == ['.', '.', '.'] ||
    match cs with
    | [] => false
    | c :: rest =>
      leadingIndicators.contains c || (['?', ':', '-'].contains c && separates rest.head?)

/-- Whether there is a colon at the end of a word, or a number sign at the start of one, after a
first character. -/
def hasInnerIndicator (before : Char) : List Char → Bool
  | [] => false
  | c :: rest =>
    (c == ':' && separates rest.head?) || (c == '#' && separates (some before)) ||
      hasInnerIndicator c rest

/-- Whether two neighbours are of two classes. -/
def hasNeighbours (p q : Char → Bool) : List Char → Bool
  | c :: d :: rest => (p c && q d) || hasNeighbours p q (d :: rest)
  | _ => false

/-- Whether there is an indicator that a plain scalar cannot have. -/
def hasIndicator (cs : List Char) : Bool :=
  beginsAsIndicator cs ||
    match cs with
    | [] => false
    | c :: rest => hasInnerIndicator c rest

/-- Whether a line ends with a space or there is a character that needs an escape. -/
def needsEscapes (cs : List Char) : Bool :=
  !cs.all isWritable || hasNeighbours (· == ' ') endsLine cs

/-- Whether a text can be a plain scalar. -/
def allowsPlain (cs : List Char) : Bool :=
  !(hasIndicator cs || needsEscapes cs || cs.any endsLine || cs.head? == some ' ' ||
    cs.getLast? == some ' ')

/-- Whether a text can stand in single quotes. -/
def allowsSingleQuotes (cs : List Char) : Bool :=
  !(needsEscapes cs || hasNeighbours endsLine (· == ' ') cs)

/-- Whether a text can be a block. -/
def allowsBlock (cs : List Char) : Bool := !(needsEscapes cs || cs.getLast? == some ' ')

/-- Whether a text would read as something else if it were plain. -/
def readsAsOther (s : String) : Bool :=
  isZeroLed s.toList ||
    match plainValue? s with
    | some (.string _) => false
    | _ => true

/-! ## Quotes -/

/-- The styles of a written string. -/
inductive ScalarStyle where
  | plain
  | singleQuoted
  | doubleQuoted
  | literal
deriving DecidableEq, Inhabited

/-- The style that a string is written in. -/
def ScalarStyle.of (s : String) : ScalarStyle :=
  let cs := s.toList
  if cs.contains '\n' then if allowsBlock cs then .literal else .doubleQuoted
  else if !readsAsOther s && allowsPlain cs then .plain
  else if allowsSingleQuotes cs then .singleQuoted
  else .doubleQuoted

/-- The inside of single quotes: a quote in it is written twice, and after a line separator the text
continues at a column. -/
def singleQuotedBody (column : Nat) (broken : Bool) : List Char → List Char
  | [] => if broken then List.replicate column ' ' else []
  | c :: rest =>
    if endsLine c then c :: singleQuotedBody column true rest
    else
      (if broken then List.replicate column ' ' else []) ++
        (if c.toNat == 0x27 then [c, c] else [c]) ++ singleQuotedBody column false rest

/-- A text in single quotes. -/
def singleQuoted (column : Nat) (cs : List Char) : List Char :=
  let quote := Char.ofNat 0x27
  quote :: singleQuotedBody column false cs ++ [quote]

/-- The hexadecimal digits of a number, a given number of them. -/
def hexDigits (count n : Nat) : List Char :=
  (List.range count).reverse.map fun i => Text.upperHexDigit (n / Nat.pow 16 i % 16)

/-- The letters of escapes that have one. -/
def escapeLetters : List (Nat × Char) :=
  [(0x00, '0'), (0x07, 'a'), (0x08, 'b'), (0x09, 't'), (0x0A, 'n'), (0x0B, 'v'), (0x0C, 'f'),
    (0x0D, 'r'), (0x1B, 'e'), (0x22, '"'), (0x5C, '\\'), (0x85, 'N'), (0xA0, '_'), (0x2028, 'L'),
    (0x2029, 'P')]

/-- A character in double quotes. -/
def escapedChar (c : Char) : List Char :=
  if isWritable c && !endsLine c && c != '"' && c != '\\' then [c]
  else
    let n := c.toNat
    match escapeLetters.lookup n with
    | some letter => ['\\', letter]
    | none =>
      if n ≤ 0xFF then '\\' :: 'x' :: hexDigits 2 n
      else if n ≤ 0xFFFF then '\\' :: 'u' :: hexDigits 4 n
      else '\\' :: 'U' :: hexDigits 8 n

/-- A text in double quotes. -/
def doubleQuoted (cs : List Char) : List Char := '"' :: cs.flatMap escapedChar ++ ['"']

/-! ## Blocks -/

/-- What follows the indicator of a literal block: its indentation where it begins with a space or
line end, and a mark where it does not end with one line end. -/
def blockHints (cs : List Char) : List Char :=
  (if cs.head?.any fun c => c == ' ' || endsLine c then ['2'] else []) ++
    match cs.reverse with
    | [] => ['-']
    | [c] => if endsLine c then ['+'] else ['-']
    | c :: d :: _ => if !endsLine c then ['-'] else if endsLine d then ['+'] else []

/-- The lines of a literal block at a column. -/
def blockBody (column : Nat) (broken : Bool) : List Char → List Char
  | [] => if broken then [] else ['\n']
  | c :: rest =>
    if endsLine c then c :: blockBody column true rest
    else (if broken then List.replicate column ' ' else []) ++ c :: blockBody column false rest

/-- A literal block at a column, with its indicator. -/
def literalBlock (column : Nat) (cs : List Char) : List Char :=
  '|' :: blockHints cs ++ '\n' :: blockBody column true cs

/-! ## Scalars -/

/-- Doubles in YAML: positional from `10 ^ -5` to below `10 ^ 16`, else with an exponent without
plus sign. -/
def doubleStyle : Decimal.Style := { lowest := -5, highest := 15, plus := false }

/-- A string that continues its line, up to the end of that line. -/
def stringLine (column : Nat) (s : String) : List Char :=
  let cs := s.toList
  match ScalarStyle.of s with
  | .plain => cs ++ ['\n']
  | .singleQuoted => singleQuoted column cs ++ ['\n']
  | .doubleQuoted => doubleQuoted cs ++ ['\n']
  | .literal => literalBlock column cs

end OpenApi.Yaml
