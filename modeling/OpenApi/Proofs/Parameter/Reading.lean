import OpenApi.Parameter.Encoding

/-!
# Reading wire forms

How a receiver takes the text of a parameter apart: the beginning of the style is removed, the rest
is split at the delimiters of the style, and percent-encoding is undone in every piece.
-/

namespace OpenApi.Parameter

open Text

/-! ## What is carried -/

/-- What a text carries: a list of strings, or an object with strings as values. -/
inductive Content where
  | list (items : List String)
  | object (members : List (String × String))
deriving DecidableEq, Inhabited

namespace Content

/-- The shape under which the content is encoded. -/
def shape : Content → Shape
  | .list _ => .array
  | .object _ => .object

/-- The content as a value. -/
def value : Content → Json.Value
  | .list items => .array (items.map .string)
  | .object members => .object (members.map fun m => (m.1, .string m.2))

/-- Whether there are no items or members. -/
def isEmpty : Content → Bool
  | .list items => items.isEmpty
  | .object members => members.isEmpty

/-- The items, or the keys and values in turn. -/
def strings : Content → List String
  | .list items => items
  | .object members => members.flatMap fun m => [m.1, m.2]

/-- The items each with the name of the parameter, or the members. -/
def pairs (name : String) : Content → List (String × String)
  | .list items => items.map fun item => (name, item)
  | .object members => members

end Content

/-- What was read: the content, and the name where the text carries it. -/
structure Reading where
  name : Option String
  content : Content
deriving DecidableEq, Inhabited

/-- Whether the text carries the name of the parameter. -/
def carriesName (style : Style) (explode : Bool) (shape : Shape) : Bool :=
  match style with
  | .simple => false
  | .matrix | .form => !explode || shape != .object
  | _ => true

/-! ## Putting pieces together -/

/-- The name that all pieces carry. -/
def agreed? : List String → Option String
  | [] => none
  | name :: names => if names.all (· == name) then some name else none

/-- Keys and values that come in turn as members. -/
def inTurn? : List String → Option (List (String × String))
  | [] => some []
  | [_] => none
  | key :: value :: rest => (inTurn? rest).map ((key, value) :: ·)

/-- The content that has the given items, or keys and values in turn. -/
def Content.ofStrings? (shape : Shape) (strings : List String) : Option Content :=
  match shape with
  | .array => some (.list strings)
  | .object => (inTurn? strings).map .object
  | .scalar => none

/-- What the given pairs carry: items with the same name, or members. -/
def Reading.ofPairs? (shape : Shape) (pairs : List (String × String)) : Option Reading :=
  match shape with
  | .array => (agreed? (pairs.map Prod.fst)).map fun name =>
    { name := some name, content := .list (pairs.map Prod.snd) }
  | .object => some { name := none, content := .object pairs }
  | .scalar => none

/-! ## Taking texts apart -/

/-- A piece with percent-encoding undone. -/
def readPiece (cs : List Char) : String := Percent.decode (String.ofList cs)

/-- Reads `k=v`, cut at the first `=`. -/
def readPair? (cs : List Char) : Option (String × String) :=
  (cut? '=' cs).map fun parts => (readPiece parts.1, readPiece parts.2)

/-- Reads `n[k]=v`. -/
def readBracketed? (cs : List Char) : Option (String × String × String) := do
  let (name, rest) ← cut? '[' cs
  let (key, rest) ← cut? ']' rest
  let value ← dropPrefix? ['='] rest
  return (readPiece name, readPiece key, readPiece value)

/-- Reads `a,b` or `k,v,l,w` with the given separator. -/
def readContent? (shape : Shape) (sep : Char) (cs : List Char) : Option Content :=
  Content.ofStrings? shape ((splitOn sep cs).map readPiece)

/-- Reads `n=a,b` or `n=k,v,l,w` with the given separator. -/
def readNamed? (shape : Shape) (sep : Char) (cs : List Char) : Option Reading := do
  let (name, rest) ← cut? '=' cs
  let content ← readContent? shape sep rest
  return { name := some (readPiece name), content }

/-- Reads `n=a,n=b` or `k=v,l=w` with the given separator. -/
def readPairs? (shape : Shape) (sep : Char) (cs : List Char) : Option Reading := do
  let pairs ← (splitOn sep cs).mapM readPair?
  Reading.ofPairs? shape pairs

/-- Reads `n[k]=v&n[l]=w`. -/
def readDeepObject? (cs : List Char) : Option Reading := do
  let members ← (splitOn '&' cs).mapM readBracketed?
  let name ← agreed? (members.map Prod.fst)
  return { name := some name, content := .object (members.map Prod.snd) }

/-- Reads the text of a list or an object in a style. The styles left out have delimiters that are
not escaped. -/
def read? (style : Style) (explode : Bool) (shape : Shape) (text : String) : Option Reading :=
  match style, explode, shape with
  | .simple, true, .object => readPairs? .object ',' text.toList
  | .simple, _, shape =>
    (readContent? shape ',' text.toList).map fun content => { name := none, content }
  | .matrix, true, shape => (dropPrefix? [';'] text.toList).bind (readPairs? shape ';')
  | .matrix, false, shape => (dropPrefix? [';'] text.toList).bind (readNamed? shape ',')
  | .form, true, shape => readPairs? shape '&' text.toList
  | .form, false, shape => readNamed? shape ',' text.toList
  | .pipeDelimited, _, shape => readNamed? shape '|' text.toList
  | .deepObject, _, .object => readDeepObject? text.toList
  | _, _, _ => none

end OpenApi.Parameter
