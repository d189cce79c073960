import OpenApi.Schema.DynamicScope
import OpenApi.Schema.Loading
import OpenApi.Schema.Resolution
import OpenApi.Shape

/-!
# Effective types

The types of the values that a schema describes: those of a reference's target, those it declares,
or those of its branches. No types means that nothing is known. A node met again on the way to
itself adds nothing.
-/

namespace OpenApi.Schema

open Json

/-- Decides types in a graph, dynamic references being resolved in a scope first. -/
structure Classifier where
  graph : Graph
  scope : Option DynamicScope := none

namespace Classifier

/-- The node that a reference node stands for. -/
def target? (c : Classifier) (id : NodeId) : Option NodeId :=
  match (c.graph.node? id).map Node.meaning with
  | some (.reference reference) => c.graph.resolve (some id) reference
  | some (.dynamicReference reference) =>
    (c.scope.bind fun scope => scope.resolve id reference).or
      (c.graph.resolve (some id) reference)
  | _ => none

/-- The branches of a composed schema. -/
def branches (node : Node) : List NodeId := node.list .allOf ++ node.list .anyOf ++ node.list .oneOf

/-- The union of type sets, unless one of them is empty. -/
def unionOfKnown (sets : List TypeSet) : TypeSet :=
  if sets.any (·.isEmpty) then .empty else sets.foldl .union .empty

/-- The types of a node below the given ones, at most the given number of steps away. -/
def typesBelow (c : Classifier) : Nat → List NodeId → NodeId → TypeSet
  | 0, _, _ => .empty
  | fuel + 1, path, id =>
    if path.contains id then .empty
    else
      match c.graph.node? id with
      | none => .empty
      | some node =>
        match node.meaning with
        | .boolean _ => .empty
        | .inline =>
          if !node.types.isEmpty then node.types
          else unionOfKnown ((branches node).map (c.typesBelow fuel (id :: path)))
        | _ =>
          let found :=
            match c.target? id with
            | some target => c.typesBelow fuel (id :: path) target
            | none => .empty
          if found.isEmpty then node.types else found

/-- The effective types of a node. No path has more nodes than the graph. -/
def types (c : Classifier) (id : NodeId) : TypeSet := c.typesBelow (c.graph.size + 1) [] id

/-- The shape of the values that a node describes. -/
def shape (c : Classifier) (id : NodeId) : Shape := Shape.ofTypes (c.types id)

end Classifier

/-- The effective types of a schema beside components: a reference is looked up among the
components, another schema stands for itself alone, and one that does not load is unknown. -/
def valueTypes (schema : Value) (components : Graph) (scope : DynamicScope) : TypeSet :=
  match (schema.member? "$ref").bind Value.string? with
  | some reference =>
    match components.resolve none reference with
    | some id => Classifier.types { graph := components, scope := some scope } id
    | none => .empty
  | none =>
    match Graph.ofValue schema with
    | .ok graph =>
      match graph.root? with
      | some root => Classifier.types { graph, scope := some (.build graph root) } root
      | none => .empty
    | .error _ => .empty

end OpenApi.Schema
