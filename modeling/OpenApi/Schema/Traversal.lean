import OpenApi.Schema.Graph

/-!
# Walking a schema graph

The nodes reachable from a root, each once, a node before its subschemas and those in traversal
order, with nothing visited below the nodes that a test tells to skip. The walk keeps the nodes
still to visit in a list; every step takes one of them off, and each node adds its subschemas at
most once, which bounds the number of steps.
-/

namespace OpenApi.Schema.Graph

/-- The number of subschema entries of all nodes. -/
def edgeCount (g : Graph) : Nat := (g.nodes.toList.flatMap Node.subschemas).length

/-- Visits the pending nodes in order; gives the visited nodes, latest first. -/
def walkFrom (g : Graph) (skip : NodeId → Bool) :
    Nat → List NodeId → List NodeId → List NodeId
  | 0, visited, _ => visited
  | _ + 1, visited, [] => visited
  | fuel + 1, visited, id :: pending =>
    if visited.contains id then g.walkFrom skip fuel visited pending
    else
      match g.node? id with
      | none => g.walkFrom skip fuel visited pending
      | some node =>
        g.walkFrom skip fuel (id :: visited)
          (if skip id then pending else node.subschemas ++ pending)

/-- The nodes reachable from a root in visiting order, nothing below skipped ones. -/
def walk (g : Graph) (skip : NodeId → Bool) (root : NodeId) : List NodeId :=
  (g.walkFrom skip (g.edgeCount + 2) [] [root]).reverse

/-- Whether a node other than the owner opens a resource, so that it is outside the owner's. -/
def opensOther (g : Graph) (owner id : NodeId) : Bool := id != owner && g.opensResource id

/-- The nodes of a resource in visiting order: those reached from its owner without entering another
resource. -/
def resourceNodes (g : Graph) (owner : NodeId) : List NodeId :=
  (g.walk (g.opensOther owner) owner).filter fun id => !g.opensOther owner id

end OpenApi.Schema.Graph
