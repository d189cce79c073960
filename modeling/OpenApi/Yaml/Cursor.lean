/-!
# Positions in a YAML text

The characters of YAML texts by class, and a position: the characters left, and where in the text
and its line they begin. Line ends are made uniform before a text is read, so that of the four
characters and one pair that end a line three characters are left.
-/

namespace OpenApi.Yaml

/-! ## Characters -/

/-- Whether a character may stand in a text: no control characters but tab and line ends. -/
def isPrintable (c : Char) : Bool :=
  let n := c.toNat
  n == 0x09 || n == 0x0A || n == 0x0D || (0x20 ≤ n && n ≤ 0x7E) || n == 0x85 ||
    (0xA0 ≤ n && n ≤ 0xD7FF) || (0xE000 ≤ n && n ≤ 0xFFFD) || 0x10000 ≤ n

/-- Space and tab. -/
def isBlank (c : Char) : Bool := c == ' ' || c == '\t'

/-- The ends of a line in a text with uniform line ends: line feed and the two separators. -/
def isBreak (c : Char) : Bool := c == '\n' || c.toNat == 0x2028 || c.toNat == 0x2029

/-- The characters of anchors, tag handles and directive names. -/
def isWord (c : Char) : Bool := c.isAlphanum || c == '_' || c == '-'

/-- The indicators inside flow collections. -/
def flowIndicators : List Char := [',', '[', ']', '{', '}']

/-- Whether the next character, if there is one, is a blank or ends the line. -/
def endsWord (c : Option Char) : Bool :=
  match c with
  | none => true
  | some c => isBlank c || isBreak c

/-- The characters with a line feed for a carriage return, for the pair of both, and for the next
line character. -/
def uniformBreaks : List Char → List Char
  | [] => []
  | [c] => if c == '\r' || c.toNat == 0x85 then ['\n'] else [c]
  | c :: d :: rest =>
    if c == '\r' && d == '\n' then '\n' :: uniformBreaks rest
    else if c == '\r' || c.toNat == 0x85 then '\n' :: uniformBreaks (d :: rest)
    else c :: uniformBreaks (d :: rest)

/-! ## Positions -/

/-- What is left of a text, and where it begins. -/
structure Cursor where
  rest : List Char
  index : Nat := 0
  line : Nat := 0
  column : Nat := 0
deriving Inhabited

namespace Cursor

/-- The next character. -/
def peek? (c : Cursor) : Option Char := c.rest.head?

/-- The character after a number of others. -/
def peekAt? (c : Cursor) (n : Nat) : Option Char := c.rest[n]?

/-- The position some characters further on the same line. -/
def skip (c : Cursor) (n : Nat) : Cursor :=
  { c with rest := c.rest.drop n, index := c.index + n, column := c.column + n }

/-- The position after the line end that comes next. -/
def skipLine (c : Cursor) : Cursor :=
  { rest := c.rest.drop 1, index := c.index + 1, line := c.line + 1, column := 0 }

/-- The characters of a class that come next on the line, and the position after them. -/
def span (p : Char → Bool) (c : Cursor) : List Char × Cursor :=
  let taken := c.rest.takeWhile p
  (taken, c.skip taken.length)

/-- The position after the characters of a class that come next on the line. -/
def skipWhile (p : Char → Bool) (c : Cursor) : Cursor := (c.span p).2

/-- Whether the next character is the given one. -/
def at? (c : Cursor) (ch : Char) : Bool := c.peek? == some ch

/-- Whether a line ends here. -/
def atBreak (c : Cursor) : Bool := c.peek?.any isBreak

/-- Whether a line or the text ends here. -/
def atLineEnd (c : Cursor) : Bool := c.peek?.all isBreak

/-- Whether a mark of three equal characters stands here as a word at the start of a line. -/
def atMark (mark : Char) (c : Cursor) : Bool :=
  c.column == 0 && c.rest.take 3 == [mark, mark, mark] && endsWord (c.peekAt? 3)

/-- Whether a document starts or ends here. -/
def atDocumentMark (c : Cursor) : Bool := c.atMark '-' || c.atMark '.'

/-- The position after the blanks and a comment that come next, if the line ends there, on the next
line. -/
def skipToNextLine? (c : Cursor) : Option Cursor :=
  let c := c.skipWhile isBlank
  let c := if c.at? '#' then c.skipWhile fun ch => !isBreak ch else c
  if c.atBreak then some c.skipLine else if c.rest.isEmpty then some c else none

end Cursor

end OpenApi.Yaml
