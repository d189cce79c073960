import OpenApi.Reference
import OpenApi.Schema.Graph
import OpenApi.Schema.Inference

/-!
# Loading schemas

A JSON value becomes nodes of a graph, subschemas before the schema that holds them. Older forms
are normalized: `definitions` is read as `$defs`, an array of `items` as `prefixItems` with
`additionalItems` as `items`, and `nullable` as the type `null`. A keyword whose value has another
kind than expected is kept among the custom keywords. Loading stops at the first value that stands
for a schema and is neither an object nor a boolean; nodes pushed until then stay.
-/

namespace OpenApi.Schema

open Json

/-- A value that should be a schema: where it stands and of which kind it is. -/
structure LoadFault where
  pointer : String
  kind : String
deriving DecidableEq, Inhabited

/-- The message of a fault. -/
def LoadFault.message (e : LoadFault) : String :=
  "Schema at '" ++ e.pointer ++ "' must be an object or a boolean, found " ++ e.kind

/-- A step that may push nodes and may fail; what was pushed before a failure stays. -/
abbrev Load := ExceptT LoadFault (StateM Graph)

/-- The pointer one step further. -/
def childPointer (pointer key : String) : String :=
  pointer ++ "/" ++ Reference.escapeSegment key

/-! ## Keywords without subschemas -/

/-- A node that is being read, and what is remembered until all its keywords are. -/
structure Draft where
  node : Node := {}
  nullable : Bool := false
  itemsWereList : Bool := false
deriving Inhabited

/-- The value of a keyword that holds a number or a boolean. -/
def boundOf? : Value → Option Value
  | .number n => some (.number n)
  | .bool b => some (.bool b)
  | _ => none

/-- The types that a `type` declares. -/
def typesOf? : Value → Option (List String)
  | .string name => some [name]
  | v => v.strings?

/-- A node with the value of a keyword that holds no subschema, if the value is of its kind. -/
def Node.withPlain? (n : Node) (keyword : Keyword) (value : Value) : Option Node :=
  match keyword with
  | .text k => value.string?.map fun s => { n with text := update n.text k (some s) }
  | .number k => value.number?.map fun x => { n with number := update n.number k (some x) }
  | .bound k => (boundOf? value).map fun v => { n with bound := update n.bound k (some v) }
  | .count k => value.nat?.map fun m => { n with count := update n.count k (some m) }
  | .slot _ => none
  | .type => (typesOf? value).map fun names => { n with types := n.types.insertAll names }
  | .enumeration => value.items?.map fun values => { n with enumeration := some values }
  | .constant => some { n with constant := some value }
  | .uniqueItems => value.bool?.map fun b => { n with uniqueItems := some b }
  | .required => value.strings?.map fun names => { n with required := names }

namespace Draft

/-- Changes the node. -/
def modify (d : Draft) (f : Node → Node) : Draft := { d with node := f d.node }

/-- Keeps a keyword that is not understood. -/
def keep (d : Draft) (key : String) (value : Value) : Draft :=
  d.modify fun n => { n with custom := n.custom.insert key value }

/-- Reads a keyword without subschemas. -/
def readPlain (d : Draft) (keyword : Keyword) (key : String) (value : Value) : Draft :=
  match d.node.withPlain? keyword value with
  | some node => { d with node }
  | none => d.keep key value

/-- Reads `nullable`. -/
def readNullable (d : Draft) (value : Value) : Draft :=
  match value with
  | .bool b => { d with nullable := b }
  | value => { d.keep "nullable" value with nullable := false }

/-- Puts one subschema into a slot, or keeps the keyword if there is none. -/
def setChild (d : Draft) (k : ChildKeyword) (key : String) (value : Value) (id : Option NodeId) :
    Draft :=
  match id with
  | some id => d.modify fun n => { n with child := update n.child k (some id) }
  | none => d.keep key value

/-- Puts a list of subschemas into a slot, or keeps the keyword if there is none. -/
def setList (d : Draft) (k : ListKeyword) (key : String) (value : Value)
    (ids : Option (List NodeId)) : Draft :=
  match ids with
  | some ids => d.modify fun n => { n with list := update n.list k ids }
  | none => d.keep key value

/-- Puts a map of subschemas into a slot, or keeps the keyword if there is none. Definitions add to
those that are there. -/
def setMap (d : Draft) (k : MapKeyword) (key : String) (value : Value)
    (ids : Option (List (String × NodeId))) : Draft :=
  match ids with
  | some ids =>
    let start := if k = .defs then d.node.map k else .empty
    d.modify fun n => { n with map := update n.map k (start.insertAll ids) }
  | none => d.keep key value

/-- Applies `nullable`: beside types it adds `null`, else it is an annotation. -/
def finishNullable (d : Draft) (present : Bool) : Node :=
  if d.nullable && !d.node.types.isEmpty then
    { d.node with types := d.node.types.insert "null" }
  else if present && d.node.types.isEmpty then
    { d.node with annotations := d.node.annotations.insert "nullable" (.bool d.nullable) }
  else d.node

end Draft

/-- Fills the types of an inline node without declared ones by inference. -/
def Node.withInferredTypes (n : Node) : Node :=
  if n.types.isEmpty && (n.text .ref).isNone && (n.text .dynamicRef).isNone then
    { n with types := n.inferredTypes, typesInferred := !n.inferredTypes.isEmpty }
  else n

/-! ## Values -/

/-- Pushes a node. -/
def pushNode (node : Node) : Load NodeId := fun g =>
  let (id, g) := g.push node
  (.ok id, g)

/-- Whether a value may be a schema. -/
def isSchema : Value → Bool
  | .bool _ | .object _ => true
  | _ => false

mutual

/-- Loads the schema that stands at a pointer. -/
def load (pointer : String) : Value → Load NodeId
  | .bool b => pushNode (.ofBool b)
  | .object members => do
    let draft ← loadMembers pointer {} members
    let draft ← loadAdditionalItems pointer draft members
    pushNode (draft.finishNullable (Entries.get? "nullable" members).isSome).withInferredTypes
  | v => throw { pointer, kind := v.kind }
termination_by structural v => v

/-- Reads the members of a schema from left to right. -/
def loadMembers (pointer : String) (draft : Draft) : List (String × Value) → Load Draft
  | [] => pure draft
  | (key, value) :: rest => do
    let below := childPointer pointer key
    let draft ←
      if Text.startsWith "x-" key then
        pure (draft.modify fun n => { n with extensions := n.extensions.insert key value })
      else if annotationWords.contains key then
        pure (draft.modify fun n => { n with annotations := n.annotations.insert key value })
      else if key = "nullable" then pure (draft.readNullable value)
      else if key = "additionalItems" then pure draft
      else if key = "definitions" then do
        let ids ← loadMap? below value
        pure (draft.setMap .defs key value ids)
      else
        match Keyword.ofWord? key with
        | some (.slot (.child k)) => do
          let ids ← if k = .items then loadList? below value else pure none
          match ids with
          | some ids =>
            pure { draft.setList .prefixItems key value (some ids) with itemsWereList := true }
          | none =>
            let id ← if isSchema value then some <$> load below value else pure none
            pure (draft.setChild k key value id)
        | some (.slot (.list k)) => do
          let ids ← loadList? below value
          pure (draft.setList k key value ids)
        | some (.slot (.map k)) => do
          let ids ← loadMap? below value
          pure (draft.setMap k key value ids)
        | some keyword => pure (draft.readPlain keyword key value)
        | none => pure (draft.keep key value)
    loadMembers pointer draft rest
termination_by structural members => members

/-- Reads `additionalItems` after all other members: the schema of further items beside a list of
them, else a keyword that is kept. -/
def loadAdditionalItems (pointer : String) (draft : Draft) :
    List (String × Value) → Load Draft
  | [] => pure draft
  | (key, value) :: rest =>
    if key = "additionalItems" then do
      let below := childPointer pointer key
      let id ←
        if draft.itemsWereList && (draft.node.child .items).isNone && isSchema value then
          some <$> load below value
        else pure none
      pure (draft.setChild .items key value id)
    else loadAdditionalItems pointer draft rest
termination_by structural members => members

/-- Loads the items of an array; nothing for another value. -/
def loadList? (pointer : String) : Value → Load (Option (List NodeId))
  | .array items => some <$> loadItems pointer 0 items
  | _ => pure none
termination_by structural v => v

/-- Loads the items of an array from a position on. -/
def loadItems (pointer : String) (index : Nat) : List Value → Load (List NodeId)
  | [] => pure []
  | v :: vs => do
    let id ← load (childPointer pointer (String.ofList (Nat.toDigits 10 index))) v
    let ids ← loadItems pointer (index + 1) vs
    pure (id :: ids)
termination_by structural items => items

/-- Loads the members of an object; nothing for another value. -/
def loadMap? (pointer : String) : Value → Load (Option (List (String × NodeId)))
  | .object members => some <$> loadEntries pointer members
  | _ => pure none
termination_by structural v => v

/-- Loads the members of an object. -/
def loadEntries (pointer : String) : List (String × Value) → Load (List (String × NodeId))
  | [] => pure []
  | (key, v) :: ms => do
    let id ← load (childPointer pointer key) v
    let ids ← loadEntries pointer ms
    pure ((key, id) :: ids)
termination_by structural members => members

end

/-! ## Graphs -/

namespace Graph

/-- Loads a value as a further top-level schema. -/
def insert (g : Graph) (value : Value) : Except LoadFault NodeId × Graph :=
  match load "#" value g with
  | (.ok id, g) => (.ok id, g.addRoot id)
  | (.error e, g) => (.error e, g)

/-- The pointer of a component schema. -/
def componentPointer (name : String) : String :=
  childPointer "#/components/schemas" name

/-- Loads a value as a further top-level schema with a name. -/
def insertNamed (g : Graph) (name : String) (value : Value) : Except LoadFault NodeId × Graph :=
  match load (componentPointer name) value g with
  | (.ok id, g) => (.ok id, g.nameRoot name id)
  | (.error e, g) => (.error e, g)

/-- The graph of one schema. -/
def ofValue (value : Value) : Except LoadFault Graph :=
  match Graph.insert {} value with
  | (.ok _, g) => .ok g
  | (.error e, _) => .error e

/-- Loads named schemas in order into a graph. -/
def insertAllNamed (g : Graph) : List (String × Value) → Except LoadFault Graph
  | [] => .ok g
  | (name, value) :: rest =>
    match g.insertNamed name value with
    | (.ok _, g) => g.insertAllNamed rest
    | (.error e, _) => .error e

/-- The graph of named schemas. -/
def ofNamedValues (entries : List (String × Value)) : Except LoadFault Graph :=
  insertAllNamed {} entries

end Graph

end OpenApi.Schema
