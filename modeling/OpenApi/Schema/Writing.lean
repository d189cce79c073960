import OpenApi.Schema.Graph

/-!
# Writing schemas

A node and what it holds as a JSON value: the keywords in a fixed order, then annotations, custom
keywords and extensions. Inferred types are not written, and a node inside itself is written as
`true`.
-/

namespace OpenApi.Schema

open Json

/-- The value of a keyword that holds no subschema, if the node has it. -/
def Node.plainValue? (n : Node) : Keyword → Option Value
  | .text k => (n.text k).map .string
  | .number k => (n.number k).map .number
  | .bound k => n.bound k
  | .count k => (n.count k).map .ofNat
  | .slot _ => none
  | .type =>
    if n.typesInferred then none
    else
      match n.types.names with
      | [] => none
      | [name] => some (.string name)
      | names => some (.ofStrings names)
  | .enumeration => n.enumeration.map .array
  | .constant => n.constant
  | .uniqueItems => n.uniqueItems.map .bool
  | .required => if n.required.isEmpty then none else some (.ofStrings n.required)

/-- The value of a slot, given how subschemas are written; nothing for an empty slot. -/
def Node.slotValue? (n : Node) (write : NodeId → Value) : Slot → Option Value
  | .child k => (n.child k).map write
  | .list k => if (n.list k).isEmpty then none else some (.array ((n.list k).map write))
  | .map k =>
    if (n.map k).isEmpty then none
    else some (.object ((n.map k).entries.map fun e => (e.1, write e.2)))

/-- The value of a keyword, if the node has it. -/
def Node.keywordValue? (n : Node) (write : NodeId → Value) : Keyword → Option Value
  | .slot s => n.slotValue? write s
  | k => n.plainValue? k

/-- The members of a written node. -/
def Node.members (n : Node) (write : NodeId → Value) : OrderedMap Value :=
  let known := Keyword.written.filterMap fun k => (n.keywordValue? write k).map fun v => (k.word, v)
  OrderedMap.ofList (known ++ n.annotations.entries ++ n.custom.entries ++ n.extensions.entries)

namespace Graph

/-- The value of a node below the given ones, at most the given number of levels deep. -/
def valueBelow (g : Graph) : Nat → List NodeId → NodeId → Value
  | 0, _, _ => .bool true
  | fuel + 1, path, id =>
    if path.contains id then .bool true
    else
      match g.node? id with
      | none => .bool true
      | some node =>
        match node.boolean with
        | some b => .bool b
        | none => .ofMap (node.members (g.valueBelow fuel (id :: path)))

/-- The value of a node. No path has more nodes than the graph. -/
def toValue (g : Graph) (id : NodeId) : Value := g.valueBelow (g.size + 1) [] id

end Graph

end OpenApi.Schema
