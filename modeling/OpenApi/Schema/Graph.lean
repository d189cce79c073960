import OpenApi.Schema.Node

/-!
# Schema graphs

An arena of nodes. References between nodes are texts and are resolved by look-up, so a cycle of
references is no cycle of nodes. The parent of a node is the first node pushed that lists it as a
subschema; it always has the greater number, so climbing to a resource root ends.
-/

namespace OpenApi.Schema

/-- The schemas of a document. -/
structure Graph where
  nodes : Array Node := #[]
  parents : Array (Option NodeId) := #[]
  roots : List NodeId := []
  named : OrderedMap NodeId := .empty
deriving Inhabited

namespace Graph

/-! ## Look-up -/

/-- The number of nodes. -/
def size (g : Graph) : Nat := g.nodes.size

/-- Whether the graph has no node. -/
def isEmpty (g : Graph) : Bool := g.nodes.isEmpty

/-- The node with a number. -/
def node? (g : Graph) (id : NodeId) : Option Node := g.nodes[id]?

/-- The parent of a node. -/
def parent? (g : Graph) (id : NodeId) : Option NodeId := g.parents[id]?.join

/-- The numbers of all nodes in order. -/
def ids (g : Graph) : List NodeId := List.range g.size

/-- The first top-level schema. -/
def root? (g : Graph) : Option NodeId := g.roots.head?

/-- The subschemas of a node in traversal order. -/
def subschemas (g : Graph) (id : NodeId) : List NodeId :=
  match g.node? id with
  | some node => node.subschemas
  | none => []

/-- The `$id` that makes a node open a resource. -/
def resourceId? (g : Graph) (id : NodeId) : Option String := (g.node? id).bind Node.resourceId?

/-- Whether a node opens a resource by its `$id`. -/
def opensResource (g : Graph) (id : NodeId) : Bool := (g.resourceId? id).isSome

/-! ## Construction -/

/-- Makes a node the parent of those of its subschemas that have none yet. -/
def adopt (parents : Array (Option NodeId)) (id : NodeId) (children : List NodeId) :
    Array (Option NodeId) :=
  children.foldl
    (fun parents child => if parents[child]? = some none then parents.setIfInBounds child (some id)
      else parents)
    parents

/-- Appends a node and gives its number. -/
def push (g : Graph) (node : Node) : NodeId × Graph :=
  let id := g.size
  (id, { g with
    nodes := g.nodes.push node
    parents := (adopt g.parents id node.subschemas).push none })

/-- Replaces a node. Parents stay as they are. -/
def setNode (g : Graph) (id : NodeId) (node : Node) : Graph :=
  { g with nodes := g.nodes.setIfInBounds id node }

/-- Makes a node a top-level schema. -/
def addRoot (g : Graph) (id : NodeId) : Graph :=
  if g.roots.contains id then g else { g with roots := g.roots ++ [id] }

/-- Makes a node a top-level schema with a name. -/
def nameRoot (g : Graph) (name : String) (id : NodeId) : Graph :=
  let g := g.addRoot id
  { g with named := g.named.insert name id }

/-! ## Resources -/

/-- Climbs at most the given number of steps to the nearest node that opens a resource. -/
def climb (g : Graph) : Nat → NodeId → NodeId
  | 0, id => id
  | fuel + 1, id =>
    if g.opensResource id then id
    else
      match g.parent? id with
      | some parent => g.climb fuel parent
      | none => id

/-- The nearest node from here upwards that opens a resource, or the topmost one. -/
def resourceRoot (g : Graph) (id : NodeId) : NodeId := g.climb g.size id

end Graph

end OpenApi.Schema
