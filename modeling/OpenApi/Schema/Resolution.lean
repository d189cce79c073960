import OpenApi.Reference
import OpenApi.Schema.Traversal

/-!
# Static references between schemas

A `$ref` names a document and a fragment. Without document it is looked up in the resource around
the node it stands on; with one, in the resource whose `$id` names that document. The fragment is a
JSON Pointer, from the resource or from a component schema, or the name of an anchor. What cannot
be found that way is taken for the name of a component or definition.
-/

namespace OpenApi.Schema.Graph

open Text

/-! ## Pointers -/

/-- The position that a pointer segment stands for: digits, perhaps after a plus sign, of a 64-bit
number. -/
def position? (segment : String) : Option Nat :=
  let digits (cs : List Char) : Option Nat :=
    if cs.isEmpty || !cs.all Char.isDigit then none
    else
      let n := cs.foldl (fun acc c => acc * 10 + (c.toNat - 0x30)) 0
      if n < Nat.pow 2 64 then some n else none
  match segment.toList with
  | '+' :: cs => digits cs
  | cs => digits cs

/-- Follows pointer segments through the keywords of schemas. -/
def walkPointer (g : Graph) (id : NodeId) : List String → Option NodeId
  | [] => some id
  | word :: rest =>
    match g.node? id, Slot.ofWord? word with
    | some node, some (.child k) =>
      match node.child k with
      | some child => g.walkPointer child rest
      | none => none
    | some node, some (.list k) =>
      match rest with
      | [] => none
      | segment :: rest =>
        match (position? segment).bind fun i => (node.list k)[i]? with
        | some child => g.walkPointer child rest
        | none => none
    | some node, some (.map k) =>
      match rest with
      | [] => none
      | key :: rest =>
        match (node.map k).get? key with
        | some child => g.walkPointer child rest
        | none => none
    | _, _ => none

/-! ## Fragments -/

/-- Whether a node declares an anchor. -/
def declares (g : Graph) (name : String) (id : NodeId) : Bool :=
  match g.node? id with
  | some node => node.declares name
  | none => false

/-- The first node of a resource that declares an anchor. -/
def anchor? (g : Graph) (resource : NodeId) (name : String) : Option NodeId :=
  (g.resourceNodes resource).find? (g.declares name)

/-- The node that a fragment stands for in a resource: the resource, a pointer from a component, a
pointer from the resource, or an anchor of the resource or else of the graph. -/
def resolveFragment (g : Graph) (base : NodeId) (fragment : String) : Option NodeId :=
  match fragment.toList with
  | [] => some base
  | ['/'] => some base
  | '/' :: pointer =>
    match (splitOn '/' pointer).map fun s => Reference.decodeSegment (String.ofList s) with
    | "components" :: "schemas" :: name :: rest =>
      (g.named.get? name).bind fun id => g.walkPointer id rest
    | segments => g.walkPointer base segments
  | _ =>
    let name := Reference.decodeSegment fragment
    (g.anchor? (g.resourceRoot base) name).or (g.ids.find? (g.declares name))

/-! ## Documents -/

/-- The document that the `$id` of a node names, resolved in the resource around the node. -/
def documentOf (g : Graph) (id : NodeId) (declared : String) : String :=
  let around := (g.parent? id).bind fun parent => g.resourceId? (g.resourceRoot parent)
  Reference.stripFragment (Reference.resolveAgainst (Reference.stripFragment declared) around)

/-- The first node whose `$id` is the document, as it is written or as it is resolved from the
resource around the reference. -/
def resource? (g : Graph) (document : String) (around : Option NodeId) : Option NodeId :=
  let wanted :=
    Reference.stripFragment (Reference.resolveAgainst document (around.bind g.resourceId?))
  g.ids.find? fun id =>
    match g.resourceId? id with
    | none => false
    | some declared =>
      Reference.stripFragment declared == Reference.stripFragment document ||
        g.documentOf id declared == wanted

/-- The first definition with a name. -/
def definition? (g : Graph) (name : String) : Option NodeId :=
  g.ids.findSome? fun id => (g.node? id).bind fun node => (node.map .defs).get? name

/-- The node that a reference stands for where it is found in the graph as written on a node;
without node it is taken from the first root. -/
def locate (g : Graph) (start : Option NodeId) (reference : String) : Option NodeId :=
  let (document, fragment) := Reference.splitFragment reference
  let fragment := fragment.getD ""
  let around := (start.map g.resourceRoot).or g.root?
  if document.isEmpty then around.bind fun base => g.resolveFragment base fragment
  else (g.resource? document around).bind fun base => g.resolveFragment base fragment

/-- The node that a reference stands for. -/
def resolve (g : Graph) (start : Option NodeId) (reference : String) : Option NodeId :=
  let reference := trim reference
  (g.locate start reference).or
    (let name := Reference.name reference
    (g.named.get? name).or (g.definition? name))

end OpenApi.Schema.Graph
