import OpenApi.Document

/-!
# Registries

Documents by the names that identify them: where a document was retrieved from, that name in its
normal form, and the document's base, all without fragment. A name identifies one document, and a
document that would take the name of another is refused.
-/

namespace OpenApi

/-- A registered document. -/
structure Registry.Entry where
  retrieval : String
  base : Option String
  document : Document
deriving Inhabited

/-- The documents in the order of their registration, and the positions that names stand for. -/
structure Registry where
  entries : List Registry.Entry := []
  aliases : OrderedMap Nat := .empty
deriving Inhabited

/-- Why a document is not registered. -/
inductive Registry.Fault where
  | document (fault : DocumentFault)
  | collision (name retrieval : String)
deriving DecidableEq, Inhabited

namespace Registry

/-! ## Look-up -/

/-- The document with a name, as it is written or in its normal form. -/
def get? (r : Registry) (uri : String) : Option Entry :=
  let name := Reference.stripFragment uri
  ((r.aliases.get? name).or (r.aliases.get? (Reference.resolveAgainst name none))).bind
    fun position => r.entries[position]?

/-- Whether a document is known under a name. -/
def contains (r : Registry) (uri : String) : Bool := (r.get? uri).isSome

/-- The path item under a key among the components of a document. -/
def pathItem? (r : Registry) (uri key : String) : Option PathItem.External :=
  (r.get? uri).bind fun e =>
    (e.document.components.pathItems.get? key).map fun item =>
      { item, components := some e.document.components, self := e.base }

/-- The path item under a key of a document that may have no name, which is then unknown. -/
def lookup? (r : Registry) (uri : Option String) (key : String) : Option PathItem.External :=
  uri.bind fun uri => r.pathItem? uri key

/-- The number of path items of all documents. -/
def pathItemCount (r : Registry) : Nat :=
  (r.entries.flatMap fun e => e.document.components.pathItems.values).length

/-! ## Registration -/

/-- The names of a document, none of them twice. -/
def Entry.names (e : Entry) : List String :=
  let names := [some e.retrieval, some (Reference.resolveAgainst e.retrieval none), e.base]
  ((names.filterMap (·.map Reference.stripFragment)).filter fun name => !name.isEmpty).eraseDups

/-- The first of some names that is taken, and where the document with that name is from. -/
def taken? (r : Registry) (names : List String) : Option (String × String) :=
  names.findSome? fun name =>
    (r.aliases.get? name).bind fun position =>
      r.entries[position]?.map fun e => (name, e.retrieval)

/-- Appends an entry under its names. -/
def push (r : Registry) (e : Entry) : Registry where
  entries := r.entries ++ [e]
  aliases := r.aliases.insertAll (e.names.map (·, r.entries.length))

/-- What registering a document comes to: why it was refused, if it was, and the registry
afterwards. -/
structure Registration where
  result : Except Fault Unit
  registry : Registry

/-- The registry after a registration, or why the document was refused, told in another way. -/
def Registration.mapError (x : Registration) (tell : Fault → ε) : Except ε Registry :=
  match x.result with
  | .error fault => .error (tell fault)
  | .ok () => .ok x.registry

/-- Registers a document that was retrieved from somewhere. All of its names are looked up before
the registry is changed. -/
def register (r : Registry) (retrieval : String) (d : Document) : Registration :=
  let d := d.retrievedFrom (some retrieval)
  let e : Entry := { retrieval, base := d.base?, document := d }
  match r.taken? e.names with
  | some (name, other) => { result := .error (.collision name other), registry := r }
  | none => { result := .ok (), registry := r.push e }

/-- Registers the document that was read, or says why there is none. -/
def registerRead (r : Registry) (retrieval : String) : Except DocumentFault Document → Registration
  | .error fault => { result := .error (.document fault), registry := r }
  | .ok d => r.register retrieval d

/-- Registers the document of a YAML text. -/
def registerYaml (r : Registry) (retrieval text : String) : Registration :=
  r.registerRead retrieval (Document.ofYaml text)

/-- Registers the document of a value. -/
def registerValue (r : Registry) (retrieval : String) (v : Json.Value) : Registration :=
  r.registerRead retrieval (Document.ofValue v)

end Registry

end OpenApi
