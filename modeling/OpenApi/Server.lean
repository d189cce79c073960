import OpenApi.Json.Fields

/-!
# Servers

Where an API is served: a URL, perhaps with variables.
-/

namespace OpenApi

open Json

/-- A server. -/
structure Server where
  url : String
  description : Option String := none
  variableValues : OrderedMap Value := .empty
  extensions : OrderedMap Value := .empty
deriving Inhabited

namespace Server

/-- Reads a server. -/
def ofValue? (v : Value) : Option Server := do
  let ms : Members ← v.members?
  return {
    url := ← ms.required "url" Value.string?
    description := ← ms.optional "description" Value.string?
    variableValues := ← ms.withDefault "variables" .empty (Value.map? Value.self?)
    extensions := ms.others ["url", "description", "variables"] }

/-- A server as it is written. -/
def toValue (s : Server) : Value :=
  .ofFields [
    .field "url" (.string s.url),
    .fieldIfSet "description" .string s.description,
    .fieldIfEntries "variables" id s.variableValues] s.extensions

end Server

end OpenApi
