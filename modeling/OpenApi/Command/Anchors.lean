import OpenApi.Command.Fault
import OpenApi.Command.Files
import OpenApi.Command.Options
import OpenApi.Json.Writer
import OpenApi.Schema.Writing

/-!
# The command `anchors`

Prints the schema that a dynamic reference stands for at a node of a schema document.
-/

namespace OpenApi.Command

open Schema

/-- What is resolved where: a dynamic reference, a pointer to the node or nothing for the root, and
the document. -/
structure Anchors where
  input : String
  pointer : String
  reference : String
deriving Inhabited

namespace Anchors

/-- The options of the command. -/
def options : Options := [("input", .single), ("pointer", .single), ("dynamic-ref", .single)]

/-- Reads the arguments of the command. -/
def ofArguments? (arguments : List String) : Option Anchors := do
  let given ← options.read? arguments
  return {
    input := ← (← given.value? "input") |> path?
    pointer := (given.value? "pointer").getD ""
    reference := ← given.value? "dynamic-ref" }

/-- The graph of a schema document. -/
def graphOf (text : String) : Except Fault Graph :=
  match Yaml.read? text with
  | none => .error (.error .schemaText)
  | some v => (Graph.ofValue v).mapError fun fault => .error (.schema fault)

/-- The node that the pointer leads to. -/
def node? (c : Anchors) (g : Graph) (root : NodeId) : Option NodeId :=
  if c.pointer.isEmpty then some root else g.resolve (some root) ("#" ++ c.pointer)

/-- What the command prints for a schema document. -/
def render (c : Anchors) (text : String) : Except Fault String := do
  let g ← graphOf text
  match g.root? with
  | none => .error .emptySchema
  | some root =>
    match c.node? g root with
    | none => .error (.noSchemaAt c.pointer)
    | some node =>
      match (DynamicScope.build g root).resolve node c.reference with
      | none => .error (.unresolved c.reference c.pointer)
      | some target => .ok (g.toValue target).pretty

variable {m : Type → Type} [Monad m]

/-- What the command prints. -/
def run (c : Anchors) (files : Files m) : ExceptT Fault m String := do
  let text ← (files.read c.input).adapt .error
  c.render text

end Anchors

end OpenApi.Command
