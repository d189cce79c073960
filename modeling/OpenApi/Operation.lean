import OpenApi.Parameter.Definition
import OpenApi.Server

/-!
# Operations

The operations of a path item and their methods: nine fixed methods with a slot each, and further
ones that are named by a token.
-/

namespace OpenApi

open Json

/-! ## Methods -/

/-- A method with a slot of its own. -/
inductive FixedMethod where
  | get
  | put
  | post
  | delete
  | options
  | head
  | patch
  | trace
  | query
deriving DecidableEq, Inhabited

/-- The fixed methods in their order. -/
def FixedMethod.all : List FixedMethod :=
  [.get, .put, .post, .delete, .options, .head, .patch, .trace, .query]

/-- The field of a fixed method. -/
def FixedMethod.field : FixedMethod → String
  | .get => "get"
  | .put => "put"
  | .post => "post"
  | .delete => "delete"
  | .options => "options"
  | .head => "head"
  | .patch => "patch"
  | .trace => "trace"
  | .query => "query"

/-- The token of a fixed method. -/
def FixedMethod.token : FixedMethod → String
  | .get => "GET"
  | .put => "PUT"
  | .post => "POST"
  | .delete => "DELETE"
  | .options => "OPTIONS"
  | .head => "HEAD"
  | .patch => "PATCH"
  | .trace => "TRACE"
  | .query => "QUERY"

/-- The method of an operation. -/
inductive Method where
  | fixed (method : FixedMethod)
  | custom (token : String)
deriving DecidableEq, Inhabited

namespace Method

/-- The token of a method. -/
def token : Method → String
  | .fixed m => m.token
  | .custom t => t

/-- Whether a method is no fixed one. -/
def isCustom : Method → Bool
  | .fixed _ => false
  | .custom _ => true

/-- The characters of a method token. -/
def isTokenCharacter (c : Char) : Bool :=
  c.isAlphanum ||
    ['!', '#', '$', '%', '&', Char.ofNat 0x27, '*', '+', '-', '.', '^', '_', Char.ofNat 0x60, '|',
      '~'].contains c

/-- Whether a text is a method token. -/
def isToken (text : String) : Bool := !text.isEmpty && text.toList.all isTokenCharacter

/-- Whether a token is that of a fixed method in some case. -/
def isReserved (text : String) : Bool :=
  FixedMethod.all.any fun m => m.field == Text.asciiLower text

end Method

/-! ## Operations -/

/-- An operation as it is written. Bodies, responses and callbacks are kept as they are. -/
structure Operation where
  operationId : Option String := none
  summary : Option String := none
  description : Option String := none
  tags : List String := []
  parameters : List Parameter.Entry := []
  requestBody : Option Value := none
  responses : Option Value := none
  callbacks : Option (OrderedMap Value) := none
  deprecated : Bool := false
  security : Option (List Value) := none
  servers : Option (List Server) := none
  extensions : OrderedMap Value := .empty
deriving Inhabited

namespace Operation

/-- The fields of an operation. -/
def fields : List String :=
  ["operationId", "summary", "description", "tags", "parameters", "requestBody", "responses",
    "callbacks", "deprecated", "security", "servers"]

/-- Reads an operation. -/
def ofValue? (v : Value) : Option Operation := do
  let ms : Members ← v.members?
  return {
    operationId := ← ms.optional "operationId" Value.string?
    summary := ← ms.optional "summary" Value.string?
    description := ← ms.optional "description" Value.string?
    tags := ← ms.withDefault "tags" [] Value.strings?
    parameters := ← ms.withDefault "parameters" [] (Value.list? Parameter.Entry.ofValue?)
    requestBody := ← ms.optional "requestBody" Value.self?
    responses := ← ms.optional "responses" Value.self?
    callbacks := ← ms.optional "callbacks" (Value.map? Value.self?)
    deprecated := ← ms.withDefault "deprecated" false Value.bool?
    security := ← ms.optional "security" Value.items?
    servers := ← ms.optional "servers" (Value.list? Server.ofValue?)
    extensions := ms.others fields }

/-- An operation as it is written. -/
def toValue (o : Operation) : Value :=
  .ofFields [
    .fieldIfSet "operationId" .string o.operationId,
    .fieldIfSet "summary" .string o.summary,
    .fieldIfSet "description" .string o.description,
    .fieldIfAny "tags" .string o.tags,
    .fieldIfAny "parameters" Parameter.Entry.toValue o.parameters,
    .fieldIfSet "requestBody" id o.requestBody,
    .fieldIfSet "responses" id o.responses,
    .fieldIfSet "callbacks" .ofMap o.callbacks,
    .field "deprecated" (.bool o.deprecated),
    .fieldIfSet "security" .array o.security,
    .fieldIfSet "servers" (fun ss => .array (ss.map Server.toValue)) o.servers] o.extensions

end Operation

end OpenApi
