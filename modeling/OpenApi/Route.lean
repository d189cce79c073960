import OpenApi.Parameter.Listing
import OpenApi.PathItem.Merged
import OpenApi.PathMap

/-!
# Routes

The operations of a document, each with what its path item and document add to it: in the order of
paths and then of webhooks, within a path item the fixed methods in their order and then the
additional ones. Path items that cannot be resolved have no routes.
-/

namespace OpenApi

open Json Parameter

/-- Where an operation is declared. -/
inductive Route.Kind where
  | path
  | webhook
deriving DecidableEq, Inhabited

/-- The word for where an operation is declared. -/
def Route.Kind.word : Route.Kind → String
  | .path => "path"
  | .webhook => "webhook"

/-- An operation with everything that applies to it. -/
structure Route where
  path : String
  kind : Route.Kind
  method : Method
  operationId : Option String
  summary : Option String
  description : Option String
  tags : List String
  deprecated : Bool
  parameters : List Resolved
  requestBody : Option Value
  responses : Option Value
  callbacks : Option (OrderedMap Value)
  security : Option (List Value)
  servers : List Server
  extensions : OrderedMap Value
deriving Inhabited

namespace Route

/-! ## Routes of a path item -/

/-- The parameters in a location. -/
def inLocation (location : Location) (ps : List Resolved) : List Resolved :=
  ps.filter (·.location == location)

/-- Refuses several querystring parameters, and one beside query parameters. -/
def checkQuery (path : String) (method : Method) (ps : List Resolved) : Except Invalid Unit :=
  match inLocation .querystring ps, inLocation .query ps with
  | [], _ => .ok ()
  | p :: _ :: _, _ => .error { name := p.name, fault := .severalQuerystrings method.token path }
  | [p], q :: _ =>
    .error { name := p.name, fault := .querystringBesideQuery method.token path q.name }
  | [_], [] => .ok ()

/-- The route of an operation whose parameters are known. -/
def ofOperation (path : String) (kind : Kind) (security : Option (List Value)) (item : PathItem)
    (method : Method) (o : Operation) (parameters : List Resolved) : Route where
  path
  kind
  method
  operationId := o.operationId
  summary := o.summary.or item.summary
  description := o.description.or item.description
  tags := o.tags
  deprecated := o.deprecated
  parameters
  requestBody := o.requestBody
  responses := o.responses
  callbacks := o.callbacks
  security := o.security.or security
  servers := PathItem.Merged.firstNonempty (o.servers.getD []) item.servers
  extensions := o.extensions

/-- The routes of a merged path item, given the security of its document. -/
def ofMerged (path : String) (kind : Kind) (security : Option (List Value))
    (r : PathItem.Merged) : Except Invalid (List Route) := do
  let common ← resolveAll r.parametersOrigin r.item.parameters
  r.item.operations.mapM fun (method, o) => do
    let own ← resolveAll r.origin o.parameters
    let parameters := merge common own
    checkQuery path method parameters
    return ofOperation path kind security r.item method o parameters

/-! ## Routes of a document -/

variable {m : Type → Type} [Monad m]

/-- The routes of path items in order, up to the first that is refused. -/
def ofItems (kind : Kind) (security : Option (List Value)) (ctx : PathItem.Context m) :
    List (String × PathItem) → ExceptT Invalid m (List Route)
  | [] => return []
  | (path, item) :: rest => do
    let routes ←
      match ← (PathItem.resolve ctx item : m _) with
      | some merged => ExceptT.mk (pure (ofMerged path kind security merged))
      | none => pure []
    return routes ++ (← ofItems kind security ctx rest)

/-- The routes of paths and then of webhooks. -/
def ofMaps (paths : PathMap) (webhooks : Option PathMap) (security : Option (List Value))
    (ctx : PathItem.Context m) : ExceptT Invalid m (List Route) := do
  let fromPaths ← ofItems .path security ctx paths.items.entries
  let fromWebhooks ←
    match webhooks with
    | some webhooks => ofItems .webhook security ctx webhooks.items.entries
    | none => pure []
  return fromPaths ++ fromWebhooks

/-! ## Writing -/

/-- A route as it is written. -/
def toValue (r : Route) : Value :=
  .ofFields [
    .field "path" (.string r.path),
    .field "kind" (.string r.kind.word),
    .field "method" (.string r.method.token),
    .fieldIfSet "operationId" .string r.operationId,
    .fieldIfSet "summary" .string r.summary,
    .fieldIfSet "description" .string r.description,
    .fieldIfAny "tags" .string r.tags,
    .field "deprecated" (.bool r.deprecated),
    .field "parameters" (.array (r.parameters.map Resolved.toValue)),
    .fieldIfSet "requestBody" id r.requestBody,
    .fieldIfSet "responses" id r.responses,
    .fieldIfSet "callbacks" .ofMap r.callbacks,
    .fieldIfSet "security" .array r.security,
    .fieldIfAny "servers" Server.toValue r.servers,
    .fieldIfEntries "extensions" id r.extensions] .empty

end Route

end OpenApi
