import OpenApi.Parameter.Style

/-!
# Faults of parameters

Why a parameter's configuration cannot be satisfied.
-/

namespace OpenApi.Parameter

/-- Why a configuration is refused. -/
inductive Fault where
  | styleNotAllowed (style : Style) (location : Location)
  | explodeNotAllowed (style : Style)
  | deepObjectNeedsObject
  | objectShapeNeedsObject
  | querystringNeedsText
  | declaredTwice (location : Location)
  | schemaAndContent
  | contentCount
  | emptyValueNotAllowed
  | deepObjectNeedsObjectSchema
  | querystringNeedsStringSchema
  | severalQuerystrings (method path : String)
  | querystringBesideQuery (method path query : String)
deriving DecidableEq, Inhabited

/-- The reason given for a fault. -/
def Fault.reason : Fault → String
  | .styleNotAllowed style location =>
    "style '" ++ style.word ++ "' is not allowed for " ++ location.word ++
      " parameters. Allowed styles: " ++ ", ".intercalate (location.styles.map Style.word)
  | .explodeNotAllowed style =>
    "style '" ++ style.word ++ "' cannot be combined with explode=true"
  | .deepObjectNeedsObject => "style 'deepObject' requires an object value"
  | .objectShapeNeedsObject => "an object-shaped parameter requires an object value"
  | .querystringNeedsText =>
    "querystring parameters take the whole query string as a single string value"
  | .declaredTwice location => "declared twice in location '" ++ location.word ++ "'"
  | .schemaAndContent => "cannot specify both 'schema' and 'content'"
  | .contentCount => "'content' must define exactly one media type"
  | .emptyValueNotAllowed => "allowEmptyValue is only allowed for query parameters"
  | .deepObjectNeedsObjectSchema => "style 'deepObject' requires an object schema"
  | .querystringNeedsStringSchema => "querystring parameters must be string-typed"
  | .severalQuerystrings method path =>
    method ++ " " ++ path ++ " defines multiple querystring parameters"
  | .querystringBesideQuery method path query =>
    method ++ " " ++ path ++ " mixes a querystring parameter with query parameter '" ++ query ++ "'"

/-- A fault of the parameter with a name. -/
structure Invalid where
  name : String
  fault : Fault
deriving DecidableEq, Inhabited

/-- The message of a fault. -/
def Invalid.message (e : Invalid) : String :=
  "Invalid parameter configuration for '" ++ e.name ++ "': " ++ e.fault.reason

end OpenApi.Parameter
