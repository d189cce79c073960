import OpenApi.Components
import OpenApi.Parameter.Encoding
import OpenApi.Schema.Types

/-!
# Resolved parameters

A parameter with its defaults filled in and its effective types, checked as far as that is possible
without a value.
-/

namespace OpenApi.Parameter

open Json

/-- What describes the values of a parameter: a schema, or a media type with its content. -/
inductive Payload where
  | schema (schema : Value)
  | content (media : OrderedMap Value)
deriving Inhabited

/-- A parameter of an operation. Types are those of its schema, none where nothing is known. -/
structure Resolved where
  name : String
  location : Location
  description : Option String
  required : Bool
  deprecated : Bool
  style : Style
  explode : Bool
  allowReserved : Bool
  allowEmptyValue : Bool
  payload : Option Payload
  types : TypeSet
  extensions : OrderedMap Value
deriving Inhabited

namespace Resolved

/-! ## Encoding -/

/-- What identifies a parameter in an operation. -/
def key (p : Resolved) : Location × String := (p.location, p.name)

/-- The settings of the parameter's layout. -/
def encoding (p : Resolved) : Encoding where
  location := p.location
  style := some p.style
  explode := some p.explode
  allowReserved := p.allowReserved

/-- The shape in which a value is read: that of the types, or the value's own. -/
def shapeFor (p : Resolved) (value : Value) : Shape :=
  if p.types.isEmpty then .ofValue value else .ofTypes p.types

/-- The wire form of a value of the parameter. -/
def encode (p : Resolved) (value : Value) : Except Invalid WireForm :=
  p.encoding.encode (p.shapeFor value) p.name value

/-! ## Writing -/

/-- A payload as it is written. -/
def payloadValue : Payload → Value
  | .schema schema => .object [("schema", schema)]
  | .content media => .object [("content", .ofMap media)]

/-- A resolved parameter as it is written. -/
def toValue (p : Resolved) : Value :=
  .ofFields [
    .field "name" (.string p.name),
    .field "in" (.string p.location.word),
    .fieldIfSet "description" .string p.description,
    .field "required" (.bool p.required),
    .field "deprecated" (.bool p.deprecated),
    .field "style" (.string p.style.word),
    .field "explode" (.bool p.explode),
    .field "allowReserved" (.bool p.allowReserved),
    .field "allowEmptyValue" (.bool p.allowEmptyValue),
    .fieldIfSet "payload" payloadValue p.payload,
    .fieldIfAny "valueTypes" .string p.types.names,
    .fieldIfEntries "extensions" id p.extensions] .empty

end Resolved

/-! ## Checking -/

/-- The payload of a parameter: not both schema and content, and one media type. -/
def payloadOf (d : Definition) : Except Fault (Option Payload) :=
  match d.schema, d.content with
  | some _, some _ => .error .schemaAndContent
  | some schema, none => .ok (some (.schema schema))
  | none, some media => if media.size = 1 then .ok (some (.content media)) else .error .contentCount
  | none, none => .ok none

/-- The schema in a payload: the one of the first media type where there are several. -/
def Payload.schema? : Payload → Option Value
  | .schema value => some value
  | .content media => media.values.head?.bind (·.member? "schema")

/-- The effective types of a payload. -/
def typesOf (payload : Option Payload) (c : Components) : TypeSet :=
  match payload.bind Payload.schema? with
  | none | some .null => .empty
  | some schema => Schema.valueTypes schema c.schemas c.schemaScope

/-- Whether `string` is the only type, `null` aside. -/
def isStringOnly (types : TypeSet) : Bool := types.names.filter (· != "null") == ["string"]

/-- Refuses types that the style or location does not allow. -/
def checkTypes (location : Location) (style : Style) (types : TypeSet) : Except Fault Unit :=
  if style = .deepObject ∧ !types.isEmpty ∧ Shape.ofTypes types ≠ .object then
    .error .deepObjectNeedsObjectSchema
  else if location = .querystring ∧ !types.isEmpty ∧ !isStringOnly types then
    .error .querystringNeedsStringSchema
  else .ok ()

/-- Refuses empty values outside the query. -/
def checkEmptyValue (location : Location) (allowed : Bool) : Except Fault Unit :=
  if allowed ∧ location ≠ .query then .error .emptyValueNotAllowed else .ok ()

/-- Fills in defaults and types, and checks that they fit together. An `explode` that is not
declared is not checked. -/
def Definition.resolveFields (d : Definition) (c : Components) : Except Fault Resolved := do
  let payload ← payloadOf d
  let allowEmptyValue := d.allowEmptyValue.getD false
  checkEmptyValue d.location allowEmptyValue
  let style := d.style.getD d.location.defaultStyle
  checkStyle d.location style
  checkExplode style (d.explode.getD false)
  let types := typesOf payload c
  checkTypes d.location style types
  return {
    name := d.name
    location := d.location
    description := d.description
    required := d.location == .path || d.required
    deprecated := d.deprecated
    style
    explode := d.explode.getD style.defaultExplode
    allowReserved := d.allowReserved.getD false
    allowEmptyValue
    payload
    types
    extensions := d.extensions }

/-- The parameter of a definition, unless its configuration cannot be satisfied. -/
def Definition.resolve (d : Definition) (c : Components) : Except Invalid Resolved :=
  (d.resolveFields c).mapError fun fault => { name := d.name, fault }

end OpenApi.Parameter
