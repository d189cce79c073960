import OpenApi.Json.Fields
import OpenApi.Parameter.Style

/-!
# Parameters as they are written

The entries of a `parameters` list: a parameter, or a reference to one whose description takes the
place of the target's.
-/

namespace OpenApi.Parameter

open Json

/-! ## References -/

/-- A reference, with a summary and a description of its own. -/
structure Referrer where
  target : String
  summary : Option String := none
  description : Option String := none
deriving DecidableEq, Inhabited

/-- The fields of a reference. -/
def Referrer.fields : List String := ["$ref", "summary", "description"]

/-- Reads a reference, from an object or from an array of its fields; other fields of an object do
not count. -/
def Referrer.ofValue? (v : Value) : Option Referrer := do
  let ms ← v.record? fields
  return {
    target := ← ms.required "$ref" Value.string?
    summary := ← ms.optional "summary" Value.string?
    description := ← ms.optional "description" Value.string? }

/-- A reference as it is written. -/
def Referrer.toValue (r : Referrer) : Value :=
  .ofFields [
    .field "$ref" (.string r.target),
    .fieldIfSet "summary" .string r.summary,
    .fieldIfSet "description" .string r.description] .empty

/-! ## Definitions -/

/-- A parameter. Schema and content are kept as they are written. -/
structure Definition where
  name : String
  location : Location
  description : Option String := none
  required : Bool := false
  deprecated : Bool := false
  allowEmptyValue : Option Bool := none
  style : Option Style := none
  explode : Option Bool := none
  allowReserved : Option Bool := none
  schema : Option Value := none
  content : Option (OrderedMap Value) := none
  extensions : OrderedMap Value := .empty
deriving Inhabited

namespace Definition

/-- The fields of a parameter. -/
def fields : List String :=
  ["name", "in", "description", "required", "deprecated", "allowEmptyValue", "style", "explode",
    "allowReserved", "schema", "content"]

/-- Reads a parameter. -/
def ofValue? (v : Value) : Option Definition := do
  let ms : Members ← v.members?
  return {
    name := ← ms.required "name" Value.string?
    location := ← ms.required "in" (Value.word? Location.ofWord?)
    description := ← ms.optional "description" Value.string?
    required := ← ms.withDefault "required" false Value.bool?
    deprecated := ← ms.withDefault "deprecated" false Value.bool?
    allowEmptyValue := ← ms.optional "allowEmptyValue" Value.bool?
    style := ← ms.optional "style" (Value.word? Style.ofWord?)
    explode := ← ms.optional "explode" Value.bool?
    allowReserved := ← ms.optional "allowReserved" Value.bool?
    schema := ← ms.optional "schema" Value.self?
    content := ← ms.optional "content" (Value.map? Value.self?)
    extensions := ms.others fields }

/-- A parameter as it is written. -/
def toValue (d : Definition) : Value :=
  .ofFields [
    .field "name" (.string d.name),
    .field "in" (.string d.location.word),
    .fieldIfSet "description" .string d.description,
    .field "required" (.bool d.required),
    .field "deprecated" (.bool d.deprecated),
    .fieldIfSet "allowEmptyValue" .bool d.allowEmptyValue,
    .fieldIfSet "style" (fun s => .string s.word) d.style,
    .fieldIfSet "explode" .bool d.explode,
    .fieldIfSet "allowReserved" .bool d.allowReserved,
    .fieldIfSet "schema" id d.schema,
    .fieldIfSet "content" .ofMap d.content] d.extensions

end Definition

/-! ## Entries -/

/-- An entry of a parameter list. -/
inductive Entry where
  | reference (referrer : Referrer)
  | inline (definition : Definition)
deriving Inhabited

/-- Reads a reference where the value is one, else a parameter. -/
def Entry.ofValue? (v : Value) : Option Entry :=
  ((Referrer.ofValue? v).map .reference).or ((Definition.ofValue? v).map .inline)

/-- An entry as it is written. -/
def Entry.toValue : Entry → Value
  | .reference r => r.toValue
  | .inline d => d.toValue

end OpenApi.Parameter
