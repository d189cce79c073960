import OpenApi.OrderedMap

/-!
# Schema keywords

The keywords that a schema node understands, sorted by the kind of value they hold: text, numbers,
bounds, counts, and one, a list or a map of subschemas. Keywords of one kind share one enumeration,
so that reading, writing and walking treat them alike.
-/

namespace OpenApi.Schema

/-! ## Values -/

/-- Keywords with a string. -/
inductive TextKeyword where
  | ref
  | dynamicRef
  | id
  | anchor
  | dynamicAnchor
  | dialect
  | comment
  | format
  | pattern
  | contentEncoding
  | contentMediaType
deriving DecidableEq, Inhabited

/-- The word of a keyword with a string. -/
def TextKeyword.word : TextKeyword → String
  | .ref => "$ref"
  | .dynamicRef => "$dynamicRef"
  | .id => "$id"
  | .anchor => "$anchor"
  | .dynamicAnchor => "$dynamicAnchor"
  | .dialect => "$schema"
  | .comment => "$comment"
  | .format => "format"
  | .pattern => "pattern"
  | .contentEncoding => "contentEncoding"
  | .contentMediaType => "contentMediaType"

/-- Keywords with a number. -/
inductive NumberKeyword where
  | minimum
  | maximum
  | multipleOf
deriving DecidableEq, Inhabited

/-- The word of a keyword with a number. -/
def NumberKeyword.word : NumberKeyword → String
  | .minimum => "minimum"
  | .maximum => "maximum"
  | .multipleOf => "multipleOf"

/-- Keywords with a number, or with a boolean that refers to another bound. -/
inductive BoundKeyword where
  | exclusiveMinimum
  | exclusiveMaximum
deriving DecidableEq, Inhabited

/-- The word of a keyword with a number or boolean. -/
def BoundKeyword.word : BoundKeyword → String
  | .exclusiveMinimum => "exclusiveMinimum"
  | .exclusiveMaximum => "exclusiveMaximum"

/-- Keywords with a natural number. -/
inductive CountKeyword where
  | minLength
  | maxLength
  | minItems
  | maxItems
  | minContains
  | maxContains
  | minProperties
  | maxProperties
deriving DecidableEq, Inhabited

/-- The word of a keyword with a natural number. -/
def CountKeyword.word : CountKeyword → String
  | .minLength => "minLength"
  | .maxLength => "maxLength"
  | .minItems => "minItems"
  | .maxItems => "maxItems"
  | .minContains => "minContains"
  | .maxContains => "maxContains"
  | .minProperties => "minProperties"
  | .maxProperties => "maxProperties"

/-! ## Subschemas -/

/-- Keywords with one subschema. -/
inductive ChildKeyword where
  | contentSchema
  | items
  | contains
  | unevaluatedItems
  | propertyNames
  | additionalProperties
  | unevaluatedProperties
  | not
  | ifSchema
  | thenSchema
  | elseSchema
deriving DecidableEq, Inhabited

/-- The word of a keyword with one subschema. -/
def ChildKeyword.word : ChildKeyword → String
  | .contentSchema => "contentSchema"
  | .items => "items"
  | .contains => "contains"
  | .unevaluatedItems => "unevaluatedItems"
  | .propertyNames => "propertyNames"
  | .additionalProperties => "additionalProperties"
  | .unevaluatedProperties => "unevaluatedProperties"
  | .not => "not"
  | .ifSchema => "if"
  | .thenSchema => "then"
  | .elseSchema => "else"

/-- Keywords with a list of subschemas. -/
inductive ListKeyword where
  | prefixItems
  | oneOf
  | anyOf
  | allOf
deriving DecidableEq, Inhabited

/-- The word of a keyword with a list of subschemas. -/
def ListKeyword.word : ListKeyword → String
  | .prefixItems => "prefixItems"
  | .oneOf => "oneOf"
  | .anyOf => "anyOf"
  | .allOf => "allOf"

/-- Keywords with a map of subschemas. -/
inductive MapKeyword where
  | defs
  | properties
  | patternProperties
  | dependentSchemas
deriving DecidableEq, Inhabited

/-- The word of a keyword with a map of subschemas. -/
def MapKeyword.word : MapKeyword → String
  | .defs => "$defs"
  | .properties => "properties"
  | .patternProperties => "patternProperties"
  | .dependentSchemas => "dependentSchemas"

/-- A place of a node where subschemas stand. -/
inductive Slot where
  | child (keyword : ChildKeyword)
  | list (keyword : ListKeyword)
  | map (keyword : MapKeyword)
deriving DecidableEq, Inhabited

/-- The word of a slot. -/
def Slot.word : Slot → String
  | .child k => k.word
  | .list k => k.word
  | .map k => k.word

/-- Every slot, in the order in which subschemas are visited. -/
def Slot.traversal : List Slot :=
  [.map .defs, .child .items, .list .prefixItems, .child .contains, .map .properties,
    .map .patternProperties, .child .propertyNames, .child .additionalProperties,
    .map .dependentSchemas, .child .unevaluatedProperties, .child .unevaluatedItems,
    .child .contentSchema, .list .oneOf, .list .anyOf, .list .allOf, .child .not, .child .ifSchema,
    .child .thenSchema, .child .elseSchema]

/-- The slot that a word names; `definitions` is an older word for `$defs`. -/
def Slot.ofWord? (word : String) : Option Slot :=
  if word = "definitions" then some (.map .defs) else traversal.find? (·.word == word)

/-! ## All keywords -/

/-- A keyword that a node understands. -/
inductive Keyword where
  | text (keyword : TextKeyword)
  | number (keyword : NumberKeyword)
  | bound (keyword : BoundKeyword)
  | count (keyword : CountKeyword)
  | slot (slot : Slot)
  | type
  | enumeration
  | constant
  | uniqueItems
  | required
deriving DecidableEq, Inhabited

/-- The word of a keyword. -/
def Keyword.word : Keyword → String
  | .text k => k.word
  | .number k => k.word
  | .bound k => k.word
  | .count k => k.word
  | .slot s => s.word
  | .type => "type"
  | .enumeration => "enum"
  | .constant => "const"
  | .uniqueItems => "uniqueItems"
  | .required => "required"

/-- Every keyword, in the order in which a schema is written. -/
def Keyword.written : List Keyword :=
  [.text .dialect, .text .id, .text .anchor, .text .dynamicAnchor, .text .ref, .text .dynamicRef,
    .text .comment, .type, .text .format, .enumeration, .constant, .number .minimum,
    .number .maximum, .bound .exclusiveMinimum, .bound .exclusiveMaximum, .number .multipleOf,
    .count .minLength, .count .maxLength, .text .pattern, .text .contentEncoding,
    .text .contentMediaType, .slot (.child .contentSchema), .slot (.child .items),
    .slot (.list .prefixItems), .slot (.child .contains), .count .minItems, .count .maxItems,
    .uniqueItems, .count .minContains, .count .maxContains, .slot (.child .unevaluatedItems),
    .slot (.map .properties), .slot (.map .patternProperties), .slot (.child .propertyNames),
    .slot (.child .additionalProperties), .slot (.map .dependentSchemas),
    .slot (.child .unevaluatedProperties), .required, .count .minProperties, .count .maxProperties,
    .slot (.list .oneOf), .slot (.list .anyOf), .slot (.list .allOf), .slot (.child .not),
    .slot (.child .ifSchema), .slot (.child .thenSchema), .slot (.child .elseSchema),
    .slot (.map .defs)]

/-- The keyword that a word names, in its current spelling. -/
def Keyword.ofWord? (word : String) : Option Keyword := written.find? (·.word == word)

/-- Words whose values are kept as annotations. -/
def annotationWords : List String :=
  ["title", "description", "default", "examples", "example", "deprecated", "readOnly", "writeOnly",
    "discriminator", "xml", "externalDocs"]

theorem Keyword.ofWord?_word (k : Keyword) : ofWord? k.word = some k := by
  rcases k with k | k | k | k | (k | k | k) | _ | _ | _ | _ | _ <;> try cases k
  all_goals decide

theorem Slot.ofWord?_word (s : Slot) : ofWord? s.word = some s := by
  rcases s with k | k | k <;> cases k <;> decide

end OpenApi.Schema
