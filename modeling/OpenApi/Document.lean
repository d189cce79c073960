import OpenApi.PathItem.Merged
import OpenApi.PathMap
import OpenApi.Route
import OpenApi.Yaml.Reader

/-!
# Documents

A whole API description: its version, servers, paths, webhooks, components and whatever else it
holds. Only version 3 is understood. A document's base is the name it gives itself, resolved where
it was retrieved from, or else where it was retrieved from.
-/

namespace OpenApi

open Json

/-! ## The type -/

/-- An API description; `swagger` is the version field of older ones. -/
structure Document where
  openapi : Option String := none
  swagger : Option String := none
  self : Option String := none
  dialect : Option String := none
  info : Option Value := none
  servers : List Server := []
  paths : PathMap := {}
  webhooks : Option PathMap := none
  components : Components := {}
  security : Option (List Value) := none
  extensions : OrderedMap Value := .empty
  retrieval : Option String := none
deriving Inhabited

/-- Why a text or value is no document that is understood. -/
inductive DocumentFault where
  | notYaml
  | unreadable (fault : ReadFault)
  | unsupported (version : String)
  | swagger (version : String)
  | noVersion
deriving DecidableEq, Inhabited

/-- What is said about an unreadable value, where there is more to say than that. -/
def ReadFault.message? : ReadFault → Option String
  | .pathItem key => some ("Failed to parse path item '" ++ key ++ "'")
  | .schema fault => some ("Parse Error: " ++ fault.message)
  | .mismatch => none

/-- The message of a fault. -/
def DocumentFault.message : DocumentFault → String
  | .notYaml => "Failed to parse OpenAPI YAML"
  | .unreadable fault =>
    "Failed to parse OpenAPI document" ++ ((fault.message?.map (": " ++ ·)).getD "")
  | .unsupported version =>
    "Unsupported OpenAPI version '" ++ version ++ "'. Expected 3.x"
  | .swagger version =>
    "Swagger " ++ version ++ " documents are not supported. Convert to OpenAPI 3.x first"
  | .noVersion => "Document is missing the 'openapi' version field"

namespace Document

/-! ## Reading -/

/-- A value that may be null, else is read. -/
def nullable (read : Value → Option α) (v : Value) : Except ReadFault (Option α) :=
  match v with
  | .null => .ok none
  | v => (ReadFault.ofOption (read v)).map some

/-- Reads webhooks, which may be null. -/
def readWebhooks : Value → Except ReadFault (Option PathMap)
  | .null => .ok none
  | v => (PathMap.ofValue v).map some

/-- Reads a member. -/
def readMember (d : Document) (key : String) (v : Value) : Except ReadFault Document :=
  match key with
  | "openapi" => do return { d with openapi := ← nullable Value.string? v }
  | "swagger" => do return { d with swagger := ← nullable Value.string? v }
  | "$self" => do return { d with self := ← nullable Value.string? v }
  | "jsonSchemaDialect" => do return { d with dialect := ← nullable Value.string? v }
  | "info" => do return { d with info := ← nullable Value.self? v }
  | "servers" => do
    return { d with servers := ← ReadFault.ofOption (v.list? Server.ofValue?) }
  | "paths" => do return { d with paths := ← PathMap.ofValue v }
  | "webhooks" => do return { d with webhooks := ← readWebhooks v }
  | "components" => do return { d with components := ← Components.ofValue v }
  | "security" => do return { d with security := ← nullable Value.items? v }
  | key => .ok { d with extensions := d.extensions.insert key v }

/-- Refuses versions other than 3. -/
def checkVersion (d : Document) : Except DocumentFault Unit :=
  match d.openapi, d.swagger with
  | some version, _ => if Text.startsWith "3." version then .ok () else .error (.unsupported version)
  | none, some version => .error (.swagger version)
  | none, none => .error .noVersion

/-- The document that a value describes. -/
def ofValue (v : Value) : Except DocumentFault Document := do
  let d ← (readMembers readMember {} v).mapError .unreadable
  d.checkVersion
  return d

/-- The document that a YAML text describes. -/
def ofYaml (text : String) : Except DocumentFault Document :=
  match Yaml.read? text with
  | some v => ofValue v
  | none => .error .notYaml

/-- The document with the name of where it was retrieved from. -/
def retrievedFrom (d : Document) (uri : Option String) : Document := { d with retrieval := uri }

/-! ## Views -/

/-- The name under which references see the document. -/
def base? (d : Document) : Option String :=
  match d.self, d.retrieval with
  | some self, retrieval => some (Reference.resolveAgainst self retrieval)
  | none, some retrieval => some (Reference.resolveAgainst retrieval none)
  | none, none => none

/-- The document as references in it see it. -/
def origin (d : Document) : Origin := { components := d.components, self := d.base? }

/-- What the document's path items are resolved in. No chain of references within the document and
the path items that the lookup knows is longer than the number of both, the first item apart. -/
def context {m : Type → Type} (d : Document) (lookup : Option (PathItem.Lookup m)) (known : Nat) :
    PathItem.Context m :=
  { origin := d.origin, lookup, limit := d.components.pathItems.size + known + 1 }

/-- The operations of the document. -/
def routes {m : Type → Type} [Monad m] (d : Document) (lookup : Option (PathItem.Lookup m))
    (known : Nat) : ExceptT Parameter.Invalid m (List Route) :=
  Route.ofMaps d.paths d.webhooks d.security (d.context lookup known)

/-- The operations of the document, through a resolver that may fail. -/
def operations {ε : Type} {m : Type → Type} [Monad m] (d : Document)
    (resolver : Option (PathItem.Resolver ε m)) (known : Nat) :
    ExceptT Parameter.Invalid m (List Route) :=
  d.routes (resolver.map PathItem.Resolver.lookup) known

end Document

end OpenApi
