import OpenApi.Reference
import OpenApi.Schema.Traversal

/-!
# Dynamic scopes

For every node reached from a root, the stack of the resources around it with the names they
declare for dynamic references. The root opens the outermost resource; every other one is opened by
an `$id`. Of two declarations of a name in one resource the one visited later counts. A dynamic
reference is resolved in the innermost resource that declares its name.
-/

namespace OpenApi.Schema

/-- A resource: the node that opens it, and the nodes that declare names in it. -/
structure Resource where
  owner : NodeId
  anchors : OrderedMap NodeId

/-- The names that the nodes of a resource declare for dynamic references. -/
def Resource.of (g : Graph) (owner : NodeId) : Resource where
  owner
  anchors := .ofList ((g.resourceNodes owner).filterMap fun id =>
    ((g.node? id).bind Node.dynamicAnchor?).map fun name => (name, id))

/-- The stacks of resources around nodes, outermost resource first. -/
structure DynamicScope where
  byNode : List (NodeId × List Resource) := []

namespace DynamicScope

/-- The stack around a node, if the node was reached. -/
def stack? (s : DynamicScope) (id : NodeId) : Option (List Resource) := s.byNode.lookup id

/-- The stack around a node. -/
def stack (s : DynamicScope) (id : NodeId) : List Resource := (s.stack? id).getD []

/-- Whether a node was reached. -/
def contains (s : DynamicScope) (id : NodeId) : Bool := (s.stack? id).isSome

/-- The stack with the resource of a node, if the node opens one that is not on it yet. -/
def enter (g : Graph) (root id : NodeId) (stack : List Resource) : List Resource :=
  if (id == root || g.opensResource id) && !stack.any (·.owner == id) then
    stack ++ [Resource.of g id]
  else stack

/-- Visits the pending nodes, each with the stack of its parent. -/
def extendFrom (g : Graph) (root : NodeId) :
    Nat → DynamicScope → List (NodeId × List Resource) → DynamicScope
  | 0, s, _ => s
  | _ + 1, s, [] => s
  | fuel + 1, s, (id, outer) :: pending =>
    if s.contains id then extendFrom g root fuel s pending
    else
      match g.node? id with
      | none => extendFrom g root fuel s pending
      | some node =>
        let stack := enter g root id outer
        extendFrom g root fuel { byNode := (id, stack) :: s.byNode }
          (node.subschemas.map (·, stack) ++ pending)

/-- Adds the nodes reachable from a root that are not in the scope yet. -/
def extend (g : Graph) (s : DynamicScope) (root : NodeId) : DynamicScope :=
  extendFrom g root (g.edgeCount + 2) s [(root, [])]

/-- The scope of the nodes reachable from a root. -/
def build (g : Graph) (root : NodeId) : DynamicScope := extend g {} root

/-- The scope of the nodes reachable from any root of the graph. -/
def buildAll (g : Graph) : DynamicScope := g.roots.foldl (extend g) {}

/-- The declaration of a name in the innermost resource around a node that has one. -/
def lookup (s : DynamicScope) (id : NodeId) (name : String) : Option NodeId :=
  (s.stack id).reverse.findSome? fun resource => resource.anchors.get? name

/-- The node that a dynamic reference evaluated at a node stands for. -/
def resolve (s : DynamicScope) (id : NodeId) (reference : String) : Option NodeId :=
  (Reference.anchorName? reference).bind (s.lookup id)

end DynamicScope

end OpenApi.Schema
