import OpenApi.PathItem.Basic
import OpenApi.ReadFault
import OpenApi.Schema.DynamicScope

/-!
# Components

The reusable parts of a document. Schemas are loaded into one graph, whose roots carry their names.
-/

namespace OpenApi

open Json

/-- The components of a document; `extra` holds those that are kept as they are written. -/
structure Components where
  schemas : Schema.Graph := {}
  parameters : OrderedMap Parameter.Entry := .empty
  pathItems : OrderedMap PathItem := .empty
  extra : OrderedMap Value := .empty
deriving Inhabited

namespace Components

/-- Loads the named schemas. -/
def readSchemas (v : Value) : Except ReadFault Schema.Graph := do
  let ms ← ReadFault.ofOption v.members?
  (Schema.Graph.ofNamedValues ms).mapError .schema

/-- Reads a member. -/
def readMember (c : Components) (key : String) (v : Value) : Except ReadFault Components :=
  match key with
  | "schemas" => do return { c with schemas := ← readSchemas v }
  | "parameters" => do
    return { c with parameters := ← ReadFault.ofOption (v.map? Parameter.Entry.ofValue?) }
  | "pathItems" => do
    return { c with pathItems := ← ReadFault.ofOption (v.map? PathItem.ofValue?) }
  | key => .ok { c with extra := c.extra.insert key v }

/-- Reads components. -/
def ofValue (v : Value) : Except ReadFault Components := readMembers readMember {} v

/-- The dynamic scope of the component schemas. -/
def schemaScope (c : Components) : Schema.DynamicScope := .buildAll c.schemas

end Components

end OpenApi
