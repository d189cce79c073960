import OpenApi.Schema.Node

/-!
# Type inference

The types that the keywords of a schema without `type` imply. Array keywords come first, then
object keywords, `const`, `enum`, numeric keywords and string keywords; no types means that any
value may do.
-/

namespace OpenApi.Schema

open Json

/-! ## Types of values -/

/-- The JSON Schema type of a value. -/
def jsonType : Value → String
  | .null => "null"
  | .bool _ => "boolean"
  | .number n => if n.isInteger then "integer" else "number"
  | .string _ => "string"
  | .array _ => "array"
  | .object _ => "object"

/-- The type of which both types are, if there is one. -/
def unify? (a b : String) : Option String :=
  if a = b then some a
  else if (a = "integer" ∧ b = "number") ∨ (a = "number" ∧ b = "integer") then some "number"
  else none

/-- The common type of the values other than null, continuing one found so far. Outside: there are
two; inside: there are no such values. -/
def commonType? (found : Option String) : List Value → Option (Option String)
  | [] => some found
  | v :: vs =>
    let type := jsonType v
    if type = "null" then commonType? found vs
    else
      match found with
      | none => commonType? (some type) vs
      | some other => (unify? other type).bind fun type => commonType? (some type) vs

/-- The types of an enumeration: the common type of its values, and `null` if it is among them. -/
def enumerationTypes (values : List Value) : TypeSet :=
  match commonType? none values with
  | none => .empty
  | some found =>
    .ofList (found.toList ++ if values.any (jsonType · == "null") then ["null"] else [])

/-! ## Types of nodes -/

namespace Node

/-- Whether a keyword about arrays is present. -/
def hasArrayKeyword (n : Node) : Bool :=
  (n.child .items).isSome || !(n.list .prefixItems).isEmpty || (n.child .contains).isSome ||
    (n.count .minItems).isSome || (n.count .maxItems).isSome || n.uniqueItems.isSome

/-- Whether a keyword about objects is present. -/
def hasObjectKeyword (n : Node) : Bool :=
  !(n.map .properties).isEmpty || (n.child .additionalProperties).isSome ||
    !(n.map .patternProperties).isEmpty || (n.child .propertyNames).isSome ||
    !(n.map .dependentSchemas).isEmpty || (n.count .minProperties).isSome ||
    (n.count .maxProperties).isSome || !n.required.isEmpty

/-- Whether a keyword about numbers is present. -/
def hasNumberKeyword (n : Node) : Bool :=
  (n.number .minimum).isSome || (n.number .maximum).isSome || (n.number .multipleOf).isSome ||
    (n.bound .exclusiveMinimum).isSome || (n.bound .exclusiveMaximum).isSome

/-- Whether a keyword about strings is present. -/
def hasStringKeyword (n : Node) : Bool :=
  (n.count .minLength).isSome || (n.count .maxLength).isSome || (n.text .pattern).isSome ||
    (n.text .contentEncoding).isSome || (n.text .contentMediaType).isSome ||
    (n.text .format).isSome

/-- The types that the keywords of a node imply; none for booleans and references. -/
def inferredTypes (n : Node) : TypeSet :=
  match n.meaning with
  | .inline =>
    if n.hasArrayKeyword then .single "array"
    else if n.hasObjectKeyword then .single "object"
    else
      match n.constant, n.enumeration with
      | some value, _ => .single (jsonType value)
      | none, some values => enumerationTypes values
      | none, none =>
        if n.hasNumberKeyword then .single "number"
        else if n.hasStringKeyword then .single "string"
        else .empty
  | _ => .empty

end Node

end OpenApi.Schema
