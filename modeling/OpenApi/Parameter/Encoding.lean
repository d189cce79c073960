import OpenApi.Json.Writer
import OpenApi.Parameter.Escape
import OpenApi.Parameter.Fault
import OpenApi.Shape

/-!
# Wire forms of parameters

The text that a request carries for a parameter value: the expansion of a path parameter, the
`name=value` pairs of a query or cookie, the value of a header, or the whole query. Header values
and cookies in `cookie` style are written as they are, everything else is escaped.
-/

namespace OpenApi.Parameter

/-! ## Settings -/

/-- The settings of a parameter's layout; unset ones take their defaults. -/
structure Encoding where
  location : Location
  style : Option Style := none
  explode : Option Bool := none
  allowReserved : Bool := false
deriving DecidableEq, Inhabited

namespace Encoding

/-- The style in effect. -/
def resolvedStyle (e : Encoding) : Style := e.style.getD e.location.defaultStyle

/-- The `explode` in effect. -/
def resolvedExplode (e : Encoding) : Bool := e.explode.getD e.resolvedStyle.defaultExplode

end Encoding

/-- Refuses a style that the location does not have. -/
def checkStyle (location : Location) (style : Style) : Except Fault Unit :=
  if style ∈ location.styles then .ok () else .error (.styleNotAllowed style location)

/-- Refuses `explode` for delimited styles. -/
def checkExplode (style : Style) (explode : Bool) : Except Fault Unit :=
  if explode && style.isDelimited then .error (.explodeNotAllowed style) else .ok ()

/-- Checks the settings on their own, whatever the value. -/
def Encoding.check (e : Encoding) : Except Fault Unit := do
  checkStyle e.location e.resolvedStyle
  checkExplode e.resolvedStyle e.resolvedExplode

/-- What is escaped for a location and style. -/
def Escaping.of (location : Location) (style : Style) (allowReserved : Bool) : Escaping :=
  if location = .header ∨ style = .cookie then .nothing
  else if allowReserved then .allButReserved
  else .allButUnreserved

/-! ## Members of a value -/

/-- The text of a member: strings as they are, nothing for null, else JSON. -/
def memberText : Json.Value → String
  | .null => ""
  | .string s => s
  | v => v.compact

/-- The escaped members of a value. -/
inductive Parts where
  | scalar (text : String)
  | array (items : List String)
  | object (members : List (String × String))
deriving DecidableEq, Inhabited

namespace Parts

/-- The members of a value read in a shape. A value that is no array is an array of itself; null is
empty in every shape. -/
def collect (escape : String → String) (shape : Shape) (value : Json.Value) : Except Fault Parts :=
  match shape, value with
  | .scalar, value => .ok (.scalar (escape (memberText value)))
  | .array, .null => .ok (.array [])
  | .array, .array items => .ok (.array (items.map fun item => escape (memberText item)))
  | .array, value => .ok (.array [escape (memberText value)])
  | .object, .null => .ok (.object [])
  | .object, .object members =>
    .ok (.object (members.map fun m => (escape m.1, escape (memberText m.2))))
  | .object, _ => .error .objectShapeNeedsObject

/-- Whether there is nothing to write. -/
def isEmpty : Parts → Bool
  | .scalar text => text.isEmpty
  | .array items => items.isEmpty
  | .object members => members.isEmpty

/-- The items, or the keys and values in turn. -/
def flat : Parts → List String
  | .scalar text => [text]
  | .array items => items
  | .object members => members.flatMap fun m => [m.1, m.2]

end Parts

/-- A key and its value. -/
def pair (key value : String) : String := key ++ "=" ++ value

/-- The members as `key=value` pairs. -/
def pairs (members : List (String × String)) : List String := members.map fun m => pair m.1 m.2

/-! ## Layouts -/

/-- `a,b` and, exploded, `k=v,l=w`. -/
def simpleText (explode : Bool) : Parts → String
  | .object members => if explode then ",".intercalate (pairs members)
    else ",".intercalate (Parts.object members).flat
  | parts => ",".intercalate parts.flat

/-- `.a,b` and, exploded, `.a.b` and `.k=v.l=w`. -/
def labelText (explode : Bool) (parts : Parts) : String :=
  "." ++
    match explode, parts with
    | true, .array items => ".".intercalate items
    | true, .object members => ".".intercalate (pairs members)
    | _, parts => ",".intercalate parts.flat

/-- `;n=a,b` and, exploded, `;n=a;n=b` and `;k=v;l=w`; an empty value is `;n`. -/
def matrixText (name : String) (explode : Bool) (parts : Parts) : String :=
  if parts.isEmpty then ";" ++ name
  else
    match explode, parts with
    | true, .array items => String.join (items.map fun item => ";" ++ pair name item)
    | true, .object members => String.join ((pairs members).map (";" ++ ·))
    | _, parts => ";" ++ pair name (",".intercalate parts.flat)

/-- `n=a,b` and, exploded, `n=a&n=b` and `k=v&l=w`; an empty value is `n=`. -/
def formText (name : String) (explode : Bool) (parts : Parts) : String :=
  if parts.isEmpty then name ++ "="
  else
    match explode, parts with
    | true, .array items => "&".intercalate (items.map (pair name))
    | true, .object members => "&".intercalate (pairs members)
    | _, parts => pair name (",".intercalate parts.flat)

/-- `n=a|b` for a delimiter. -/
def delimitedText (name delimiter : String) (parts : Parts) : String :=
  pair name (delimiter.intercalate parts.flat)

/-- `n[k]=v&n[l]=w`. -/
def deepObjectText (name : String) : Parts → String
  | .object members =>
    "&".intercalate (members.map fun m => pair (name ++ "[" ++ m.1 ++ "]") m.2)
  | _ => ""

/-- As `formText`, with `; ` between pairs; an empty value is `n=`. -/
def cookieText (name : String) (explode : Bool) (parts : Parts) : String :=
  match explode, parts with
  | true, .array (item :: items) => "; ".intercalate ((item :: items).map (pair name))
  | true, .object (m :: members) => "; ".intercalate (pairs (m :: members))
  | _, parts => pair name (",".intercalate parts.flat)

/-- The layout of a style. -/
def layout (style : Style) (explode : Bool) (name : String) (parts : Parts) : String :=
  match style with
  | .simple => simpleText explode parts
  | .label => labelText explode parts
  | .matrix => matrixText name explode parts
  | .form => formText name explode parts
  | .spaceDelimited => delimitedText name "%20" parts
  | .pipeDelimited => delimitedText name "|" parts
  | .deepObject => deepObjectText name parts
  | .cookie => cookieText name explode parts

/-! ## Encoding -/

/-- A serialized parameter and where it goes. -/
structure WireForm where
  location : Location
  text : String
deriving DecidableEq, Inhabited

/-- The whole query, which is given as one string. -/
def querystringText (shape : Shape) (value : Json.Value) : Except Fault String :=
  match shape, value with
  | .scalar, .string s => .ok (escapeReserved s)
  | .scalar, .null => .ok ""
  | _, _ => .error .querystringNeedsText

/-- The text of a value under settings that may not fit it. -/
def Encoding.textOf (e : Encoding) (shape : Shape) (name : String) (value : Json.Value) :
    Except Fault String := do
  e.check
  if e.location = .querystring then querystringText shape value
  else if e.resolvedStyle = .deepObject ∧ shape ≠ .object then .error .deepObjectNeedsObject
  else
    let escape := (Escaping.of e.location e.resolvedStyle e.allowReserved).apply
    let parts ← Parts.collect escape shape value
    return layout e.resolvedStyle e.resolvedExplode (escape name) parts

/-- The wire form of a value that is read in a shape. -/
def Encoding.encode (e : Encoding) (shape : Shape) (name : String) (value : Json.Value) :
    Except Invalid WireForm :=
  match e.textOf shape name value with
  | .ok text => .ok { location := e.location, text }
  | .error fault => .error { name, fault }

end OpenApi.Parameter
