import OpenApi.Json.Value
import OpenApi.TypeSet

/-!
# Value shapes

The coarse shape of a parameter value, which decides how it is laid out in a request.
-/

namespace OpenApi

/-- The shape of a value: an array, an object, or anything else. -/
inductive Shape where
  | scalar
  | array
  | object
deriving DecidableEq, Inhabited

namespace Shape

/-- The word for a shape. -/
def word : Shape → String
  | .scalar => "scalar"
  | .array => "array"
  | .object => "object"

/-- The shape of a concrete value. -/
def ofValue : Json.Value → Shape
  | .array _ => .array
  | .object _ => .object
  | _ => .scalar

/-- The shape of the values of a type set, `null` aside. No types and several types are scalar. -/
def ofTypes (types : TypeSet) : Shape :=
  match types.names.filter (· != "null") with
  | [name] => if name = "array" then .array else if name = "object" then .object else .scalar
  | _ => .scalar

end Shape

end OpenApi
